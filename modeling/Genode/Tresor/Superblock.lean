import Genode.Tresor.Types

/-!
# Superblock — the root of all data on disc

A superblock refers to the snapshots, the free tree and the meta tree and
holds the keys. It is stored in one of a few slots at the beginning of the
device, and its hash is kept by the trust anchor.
-/

namespace Genode.Tresor

open Genode.Lib

/-- `Superblock::State` -/
inductive SuperblockState where
  | invalid
  | normal
  | rekeying
  | extendingVbd
  | extendingFt
  deriving DecidableEq, Repr

namespace SuperblockState

/-- `encode_state` -/
def encodeState : SuperblockState → UInt8
  | invalid => 0
  | normal => 1
  | rekeying => 2
  | extendingVbd => 3
  | extendingFt => 4

/-- `decode_state` -/
def decodeState (val : UInt8) : Option SuperblockState :=
  if val = 0 then some .invalid
  else if val = 1 then some .normal
  else if val = 2 then some .rekeying
  else if val = 3 then some .extendingVbd
  else if val = 4 then some .extendingFt
  else none

theorem decodeState_encodeState (s : SuperblockState) : decodeState (encodeState s) = some s := by
  cases s <;> rfl

def codec : Codec SuperblockState :=
  Codec.byte.mapPartial decodeState .invalid encodeState decodeState_encodeState

end SuperblockState

structure Key where
  value : Fin 32 → UInt8 := fun _ => 0
  id : KeyId := invalidKeyId
  deriving DecidableEq

namespace Key

def codec : Codec Key :=
  ((Codec.bytes 32).seq Codec.word32).map (fun f => ⟨f.1, f.2⟩) (fun k => (k.value, k.id))
    fun _ => rfl

/-- A key without its value, as it is written to the disc before it was
encrypted. -/
def withoutValue (k : Key) : Key := { k with value := fun _ => 0 }

end Key

namespace TreeDegree

/-- `TREE_MIN_DEGREE` -/
def min : TreeDegree := ⟨0, Nat.zero_le 6⟩

def ofWord (d : UInt32) : Option TreeDegree :=
  if h : d.toNat.log2 ≤ 6 then
    if 2 ^ d.toNat.log2 = d.toNat then some ⟨d.toNat.log2, h⟩ else none
  else none

def toWord (d : TreeDegree) : UInt32 := UInt32.ofNat (2 ^ d.log2)

theorem ofWord_toWord (d : TreeDegree) : ofWord d.toWord = some d := by
  obtain ⟨log2, hle⟩ := d
  have h : ∀ n ≤ 6, (UInt32.ofNat (2 ^ n)).toNat = 2 ^ n := by decide
  simp only [ofWord, toWord, h log2 hle, Nat.log2_two_pow, hle, dite_true, if_true]

def codec : Codec TreeDegree := Codec.word32.mapPartial ofWord min toWord ofWord_toWord

end TreeDegree

namespace SnapshotIndex

def ofWord (i : UInt32) : Option SnapshotIndex :=
  if h : i.toNat < maxNrOfSnapshots then some ⟨i.toNat, h⟩ else none

def toWord (i : SnapshotIndex) : UInt32 := UInt32.ofNat i.val

theorem ofWord_toWord (i : SnapshotIndex) : ofWord (toWord i) = some i := by
  have hlt : i.val < 48 := i.isLt
  have h : (UInt32.ofNat i.val).toNat = i.val := by
    rw [UInt32.toNat_ofNat']
    exact Nat.mod_eq_of_lt (by omega)
  have hi : (UInt32.ofNat i.val).toNat < maxNrOfSnapshots := by
    rw [h]
    exact i.isLt
  rw [ofWord, toWord, dif_pos hi, Option.some.injEq, Fin.ext_iff]
  exact h

/-- The index of a stored superblock is one of a snapshot. -/
def codec : Codec SnapshotIndex :=
  Codec.word32.mapPartial ofWord ⟨0, maxNrOfSnapshots_pos⟩ toWord ofWord_toWord

end SnapshotIndex

/-- The place and the shape of the free tree or the meta tree. -/
structure TreeRoot where
  gen : Generation := 0
  number : PhysicalBlockAddress := 0
  hash : Hash := default
  maxLevel : UInt32 := 0
  degree : UInt32 := 1
  leaves : UInt64 := 0
  deriving DecidableEq

namespace TreeRoot

def codec : Codec TreeRoot :=
  (((Codec.word64.seq Codec.word64).seq (Codec.bytes 32)).seq
    ((Codec.word32.seq Codec.word32).seq Codec.word64)).map
    (fun f => ⟨f.1.1.1, f.1.1.2, ⟨f.1.2⟩, f.2.1.1, f.2.1.2, f.2.2⟩)
    (fun r => (((r.gen, r.number), r.hash.bytes), ((r.maxLevel, r.degree), r.leaves)))
    fun _ => rfl

end TreeRoot

structure Superblock where
  state : SuperblockState := .invalid
  rekeyingVba : VirtualBlockAddress := 0
  resizingNrOfPbas : UInt64 := 0
  resizingNrOfLeaves : UInt64 := 0
  previousKey : Key := {}
  currentKey : Key := {}
  snapshots : Snapshots := Snapshots.none
  lastSecuredGeneration : Generation := invalidGeneration
  currSnap : SnapshotIndex := ⟨0, maxNrOfSnapshots_pos⟩
  degree : TreeDegree := TreeDegree.min
  firstPba : PhysicalBlockAddress := 0
  nrOfPbas : UInt64 := 0
  free : TreeRoot := {}
  metaTree : TreeRoot := {}

namespace Superblock

def codec : Codec Superblock :=
  ((((SuperblockState.codec.seq Codec.word64).seq (Codec.word64.seq Codec.word64)).seq
    ((Key.codec.seq Key.codec).seq Snapshots.codec)).seq
    (((Codec.word64.seq SnapshotIndex.codec).seq (TreeDegree.codec.seq Codec.word64)).seq
      ((Codec.word64.seq TreeRoot.codec).seq (TreeRoot.codec.seq (Codec.padding 383))))).map
    (fun f => ⟨f.1.1.1.1, f.1.1.1.2, f.1.1.2.1, f.1.1.2.2, f.1.2.1.1, f.1.2.1.2, f.1.2.2,
      f.2.1.1.1, f.2.1.1.2, f.2.1.2.1, f.2.1.2.2, f.2.2.1.1, f.2.2.1.2, f.2.2.2.1⟩)
    (fun s => ((((s.state, s.rekeyingVba), (s.resizingNrOfPbas, s.resizingNrOfLeaves)),
      ((s.previousKey, s.currentKey), s.snapshots)),
      (((s.lastSecuredGeneration, s.currSnap), (s.degree, s.firstPba)),
        ((s.nrOfPbas, s.free), (s.metaTree, ())))))
    fun _ => rfl

theorem size_codec : codec.size = blockSize := rfl

/-- `decode_from_blk`, which asserts that the block is well formed. -/
def decodeFromBlk (blk : Block) : Exec Superblock := do
  Exec.assert (codec.accepts blk.bytes)
  pure (codec.decode blk.bytes)

/-- `encode_to_blk` -/
def encodeToBlk (sb : Superblock) : Block :=
  ⟨codec.encode sb, (codec.length_encode sb).trans size_codec⟩

@[simp] theorem decode_encode (sb : Superblock) : decodeFromBlk (encodeToBlk sb) = .ok sb := by
  have h := codec.decode_encode sb []
  have ha := codec.accepts_encode sb []
  rw [List.append_nil] at h ha
  rw [decodeFromBlk, encodeToBlk, ha, Exec.assert_true, Exec.ok_bind, h, Exec.pure_eq]

def valid (sb : Superblock) : Bool := decide (sb.state ≠ .invalid)

/-- The current snapshot. -/
def snap (sb : Superblock) : Snapshot := sb.snapshots sb.currSnap

/-- `max_vba` -/
def maxVba (sb : Superblock) : VirtualBlockAddress :=
  if sb.valid then sb.snap.nrOfLeaves - 1 else 0

/-- `_init_sb_without_key_values` -/
def initSbWithoutKeyValues (sb : Superblock) : Superblock :=
  { sb with
    previousKey := sb.previousKey.withoutValue
    currentKey := sb.currentKey.withoutValue }

def setSnap (sb : Superblock) (s : Snapshot) : Superblock :=
  { sb with snapshots := Function.update sb.snapshots sb.currSnap s }

end Superblock

end Genode.Tresor
