import Mathlib.Data.Fintype.Basic
import Genode.Lib.Codec
import Genode.Lib.Exec

/-!
# Types — the on-disc data of Tresor

Nodes, node blocks, snapshots and the superblock of the Tresor block
encrypter, with their storage format and the operations on the set of
snapshots. The hash of a block is a parameter throughout.
-/

namespace Genode.Tresor

open Genode.Lib

abbrev PhysicalBlockAddress := UInt64

abbrev VirtualBlockAddress := UInt64

abbrev Generation := UInt64

abbrev KeyId := UInt32

def blockSize : Nat := 4096

def invalidKeyId : KeyId := 0

def invalidGeneration : Generation := 0

def initialGeneration : Generation := 0

def maxPba : PhysicalBlockAddress := 0xffffffffffffffff

def invalidPba : PhysicalBlockAddress := maxPba

def maxGeneration : Generation := 0xffffffffffffffff

def maxSnapId : UInt32 := 0xffffffff

def nrOfNodesPerBlk : Nat := 64

theorem nrOfNodesPerBlk_pos : 0 < nrOfNodesPerBlk := by decide

theorem one_lt_nrOfNodesPerBlk : 1 < nrOfNodesPerBlk := by decide

def treeMaxLevel : Nat := 6

def treeMaxNrOfLevels : Nat := treeMaxLevel + 1

def treeMaxDegree : Nat := 64

def treeMaxNrOfLeaves : UInt64 := 0x40000000

def maxNrOfSnapshots : Nat := 48

theorem maxNrOfSnapshots_pos : 0 < maxNrOfSnapshots := by decide

def nrOfSuperblockSlots : Nat := 8

theorem nrOfSuperblockSlots_pos : 0 < nrOfSuperblockSlots := by decide

def freeTreeMinMaxLevel : UInt32 := 2

/-- The degree of a tree, a power of two that fits a node block. -/
structure TreeDegree where
  log2 : Nat
  log2_le : log2 ≤ 6

/-- `TREE_MAX_DEGREE_LOG_2` -/
def TreeDegree.max : TreeDegree := ⟨6, Nat.le_refl 6⟩

/-- `t1_child_idx_for_vba`: the child of a node at level `lvl` that leads to
the block `vba`. -/
def t1ChildIdxForVba (vba : VirtualBlockAddress) (lvl : Nat) (degr : TreeDegree) :
    Fin nrOfNodesPerBlk :=
  let degrMask := 2 ^ degr.log2 - 1
  let vbaRshift := degr.log2 * (lvl - 1)
  ⟨(vba.toNat >>> vbaRshift) &&& degrMask, by
    have h := Nat.pow_le_pow_right (Nat.zero_lt_two) degr.log2_le
    have hm : (vba.toNat >>> vbaRshift) &&& degrMask ≤ degrMask := Nat.and_le_right
    change _ < 64
    omega⟩

/-! ## Blocks and nodes -/

/-- A hash value. -/
@[ext]
structure Hash where
  bytes : Fin 32 → UInt8

instance : DecidableEq Hash := fun _ _ => decidable_of_iff _ Hash.ext_iff.symm

instance : Inhabited Hash := ⟨⟨fun _ => 0⟩⟩

/-- The content of a physical block. -/
@[ext]
structure Block where
  bytes : List UInt8
  length_eq : bytes.length = blockSize
  deriving DecidableEq

instance : Inhabited Block := ⟨⟨List.replicate blockSize 0, List.length_replicate⟩⟩

/-- `Type_1_node`: a reference to a node block. -/
@[ext]
structure Type1Node where
  pba : PhysicalBlockAddress := 0
  gen : Generation := 0
  hash : Hash := default
  deriving Inhabited

instance : DecidableEq Type1Node := fun _ _ => decidable_of_iff _ Type1Node.ext_iff.symm

namespace Type1Node

def codec : Codec Type1Node :=
  ((Codec.word64.seq Codec.word64).seq ((Codec.bytes 32).seq (Codec.padding 16))).map
    (fun f => ⟨f.1.1, f.1.2, ⟨f.2.1⟩⟩) (fun n => ((n.pba, n.gen), (n.hash.bytes, ())))
    fun _ => rfl

def valid (n : Type1Node) : Bool := decide (n ≠ {})

end Type1Node

abbrev Type1NodeBlock := Fin nrOfNodesPerBlk → Type1Node

namespace Type1NodeBlock

def codec : Codec Type1NodeBlock := Codec.array nrOfNodesPerBlk Type1Node.codec

def decodeFromBlk (blk : Block) : Type1NodeBlock := codec.decode blk.bytes

def encodeToBlk (nodes : Type1NodeBlock) : Block := ⟨codec.encode nodes, codec.length_encode nodes⟩

@[simp] theorem decode_encode (nodes : Type1NodeBlock) :
    decodeFromBlk (encodeToBlk nodes) = nodes := by
  have h := codec.decode_encode nodes []
  rwa [List.append_nil] at h

end Type1NodeBlock

/-- `Type_2_node`: a leaf of the free tree, with the history of its block. -/
structure Type2Node where
  pba : PhysicalBlockAddress := 0
  lastVba : VirtualBlockAddress := 0
  allocGen : Generation := 0
  freeGen : Generation := 0
  lastKeyId : KeyId := 0
  reserved : Bool := false
  deriving DecidableEq, Inhabited

namespace Type2Node

def codec : Codec Type2Node :=
  (((Codec.word64.seq Codec.word64).seq (Codec.word64.seq Codec.word64)).seq
    ((Codec.word32.seq Codec.bool).seq (Codec.padding 27))).map
    (fun f => ⟨f.1.1.1, f.1.1.2, f.1.2.1, f.1.2.2, f.2.1.1, f.2.1.2⟩)
    (fun n => (((n.pba, n.lastVba), (n.allocGen, n.freeGen)), ((n.lastKeyId, n.reserved), ())))
    fun _ => rfl

def valid (n : Type2Node) : Bool := decide (n ≠ {})

end Type2Node

abbrev Type2NodeBlock := Fin nrOfNodesPerBlk → Type2Node

namespace Type2NodeBlock

def codec : Codec Type2NodeBlock := Codec.array nrOfNodesPerBlk Type2Node.codec

/-- Reading asserts that the stored booleans are well formed. -/
def decodeFromBlk (blk : Block) : Exec Type2NodeBlock := do
  Exec.assert (codec.accepts blk.bytes)
  pure (codec.decode blk.bytes)

def encodeToBlk (nodes : Type2NodeBlock) : Block := ⟨codec.encode nodes, codec.length_encode nodes⟩

@[simp] theorem decode_encode (nodes : Type2NodeBlock) :
    decodeFromBlk (encodeToBlk nodes) = .ok nodes := by
  have h := codec.decode_encode nodes []
  have ha := codec.accepts_encode nodes []
  rw [List.append_nil] at h ha
  rw [decodeFromBlk, encodeToBlk, ha, Exec.assert_true, Exec.ok_bind, h, Exec.pure_eq]

end Type2NodeBlock

/-! ## Snapshots -/

structure Snapshot where
  hash : Hash := default
  pba : PhysicalBlockAddress := invalidPba
  gen : Generation := maxGeneration
  nrOfLeaves : UInt64 := treeMaxNrOfLeaves
  maxLevel : UInt32 := 6
  valid : Bool := false
  id : UInt32 := maxSnapId
  keep : Bool := false
  deriving DecidableEq, Inhabited

namespace Snapshot

def codec : Codec Snapshot :=
  ((((Codec.bytes 32).seq Codec.word64).seq (Codec.word64.seq Codec.word64)).seq
    (((Codec.word32.seq Codec.bool).seq (Codec.word32.seq Codec.bool)).seq (Codec.padding 6))).map
    (fun f => ⟨⟨f.1.1.1⟩, f.1.1.2, f.1.2.1, f.1.2.2, f.2.1.1.1, f.2.1.1.2, f.2.1.2.1, f.2.1.2.2⟩)
    (fun s => (((s.hash.bytes, s.pba), (s.gen, s.nrOfLeaves)),
      (((s.maxLevel, s.valid), (s.id, s.keep)), ())))
    fun _ => rfl

def containsVba (s : Snapshot) (vba : VirtualBlockAddress) : Bool :=
  decide (vba ≤ s.nrOfLeaves - 1)

end Snapshot

abbrev SnapshotIndex := Fin maxNrOfSnapshots

abbrev Snapshots := SnapshotIndex → Snapshot

namespace Snapshots

def codec : Codec Snapshots := Codec.array maxNrOfSnapshots Snapshot.codec

/-- The snapshots of a request that was given none. -/
def none : Snapshots := fun _ => {}

def disposable (snap : Snapshot) (currGen lastSecuredGen : Generation) : Bool :=
  snap.valid && !snap.keep && decide (snap.gen ≠ currGen) && decide (snap.gen ≠ lastSecuredGen)

def discardDisposableSnapshots (snaps : Snapshots) (currGen lastSecuredGen : Generation) :
    Snapshots := fun idx =>
  if disposable (snaps idx) currGen lastSecuredGen then { snaps idx with valid := false }
  else snaps idx

/-- One round of the search for the newest snapshot. -/
def newer (snaps : Snapshots) (result : Option SnapshotIndex) (idx : SnapshotIndex) :
    Option SnapshotIndex :=
  if !(snaps idx).valid then result
  else match result with
    | some r => if (snaps idx).gen ≤ (snaps r).gen then some r else some idx
    | .none => some idx

/-- `newest_snapshot_idx`, which throws if there is no valid snapshot. -/
def newestSnapshotIdx (snaps : Snapshots) : Option SnapshotIndex :=
  (List.finRange maxNrOfSnapshots).foldl (newer snaps) .none

def evictable (snap : Snapshot) (currGen lastSecuredGen : Generation) : Bool :=
  !snap.keep && decide (snap.gen ≠ currGen) && decide (snap.gen ≠ lastSecuredGen)

/-- The loop of `idx_of_invalid_or_lowest_gen_evictable_snap` over the
remaining indices. -/
def evictLoop (snaps : Snapshots) (currGen lastSecuredGen : Generation) :
    List SnapshotIndex → Option SnapshotIndex → Option SnapshotIndex
  | [], result => result
  | idx :: rest, result =>
    if !(snaps idx).valid then some idx
    else if !evictable (snaps idx) currGen lastSecuredGen then
      evictLoop snaps currGen lastSecuredGen rest result
    else match result with
      | some r =>
        if (snaps r).gen ≤ (snaps idx).gen then
          evictLoop snaps currGen lastSecuredGen rest (some r)
        else evictLoop snaps currGen lastSecuredGen rest (some idx)
      | .none => evictLoop snaps currGen lastSecuredGen rest (some idx)

/-- `idx_of_invalid_or_lowest_gen_evictable_snap`, which throws if all
snapshots have to stay. -/
def idxOfInvalidOrLowestGenEvictableSnap (snaps : Snapshots)
    (currGen lastSecuredGen : Generation) : Option SnapshotIndex :=
  evictLoop snaps currGen lastSecuredGen (List.finRange maxNrOfSnapshots) .none

end Snapshots

end Genode.Tresor
