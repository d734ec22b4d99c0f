import Genode.Tresor.Superblock

/-!
# OnDisc — the format of the blocks on disc

A block is read field by field by a scanner and written field by field by a
generator, each with its own position in the block. The two lists of fields
are written down independently of each other in the source. Here each record
keeps both of them, and that they match is a theorem.
-/

namespace Genode.Tresor.OnDisc

open Genode.Lib

/-! ## The scanner -/

/-- `Block_scanner` -/
structure BlockScanner where
  blk : Block
  offset : Nat := 0

abbrev Scan := StateT BlockScanner Exec

/-- The bytes from the current position on. -/
def BlockScanner.ahead (s : BlockScanner) : List UInt8 := s.blk.bytes.drop s.offset

def BlockScanner.skip (s : BlockScanner) (numBytes : Nat) : BlockScanner :=
  { s with offset := s.offset + numBytes }

/-- `_fetch_copy`, for an object of the given size. The bound is checked as a
sum: no object is larger than a block. -/
def fetchCopy (numBytes : Nat) : Scan (List UInt8) := fun s =>
  if s.offset + numBytes ≤ blockSize then .ok (s.ahead.take numBytes, s.skip numBytes)
  else .error .assertion

/-- `skip_bytes` -/
def skipBytes (numBytes : Nat) : Scan Unit := fun s =>
  if s.offset + numBytes ≤ blockSize then .ok ((), s.skip numBytes) else .error .assertion

def fetchUInt8 : Scan UInt8 := do
  let bytes ← fetchCopy 1
  pure (bytes.headD 0)

def fetchUInt32 : Scan UInt32 := do
  let bytes ← fetchCopy 4
  pure (UInt32.ofNat (ofBytes bytes))

def fetchUInt64 : Scan UInt64 := do
  let bytes ← fetchCopy 8
  pure (UInt64.ofNat (ofBytes bytes))

/-- The bytes of a hash or of the value of a key. -/
def fetchBytes : Scan (Fin 32 → UInt8) := do
  let bytes ← fetchCopy 32
  pure fun i => bytes.getD i 0

def fetchHash : Scan Hash := do
  let bytes ← fetchBytes
  pure ⟨bytes⟩

/-- `_decode_bool` -/
def decodeBool (val : UInt8) : Scan Bool := fun s =>
  if val = 0 then .ok (false, s) else if val = 1 then .ok (true, s) else .error .assertion

def fetchBool : Scan Bool := do
  let val ← fetchUInt8
  decodeBool val

/-- `decode_state` -/
def decodeState (val : UInt8) : Scan SuperblockState := fun s =>
  match SuperblockState.decodeState val with
  | some state => .ok (state, s)
  | none => .error .assertion

def fetchState : Scan SuperblockState := do
  let val ← fetchUInt8
  decodeState val

/-- The elements of an array, one after the other. -/
def fetchArray {α : Type} (fetch : Scan α) : (n : Nat) → Scan (Fin n → α)
  | 0 => pure Fin.elim0
  | n + 1 => do
    let first ← fetch
    let rest ← fetchArray fetch n
    pure (Fin.cons first rest)

/-- Decode a whole block. The destructor of the scanner checks that it has
come to the end of the block. -/
def decodeFromBlk {α : Type} (fetch : Scan α) (blk : Block) : Exec α := do
  let (a, s) ← fetch { blk := blk }
  Exec.assert (decide (s.offset = blockSize))
  pure a

/-! ## The generator -/

/-- `Block_generator` -/
structure BlockGenerator where
  blk : Block
  offset : Nat := 0

abbrev Generate := StateT BlockGenerator Exec Unit

theorem length_overwrite (blk : Block) {offset : Nat} {bytes : List UInt8}
    (h : offset + bytes.length ≤ blockSize) :
    (blk.bytes.take offset ++ bytes ++ blk.bytes.drop (offset + bytes.length)).length =
      blockSize := by
  rw [List.length_append, List.length_append, List.length_take, List.length_drop, blk.length_eq]
  omega

/-- `_append_copy` of an object with the given bytes. -/
def appendCopy (bytes : List UInt8) : Generate := fun g =>
  if h : g.offset + bytes.length ≤ blockSize then
    .ok ((), {
      blk := ⟨g.blk.bytes.take g.offset ++ bytes ++ g.blk.bytes.drop (g.offset + bytes.length),
        length_overwrite g.blk h⟩
      offset := g.offset + bytes.length })
  else .error .assertion

/-- `append_zero_bytes` -/
def appendZeroBytes (numBytes : Nat) : Generate := appendCopy (List.replicate numBytes 0)

def appendUInt8 (src : UInt8) : Generate := appendCopy [src]

def appendUInt32 (src : UInt32) : Generate := appendCopy (toBytes 4 src.toNat)

def appendUInt64 (src : UInt64) : Generate := appendCopy (toBytes 8 src.toNat)

def appendBytes (src : Fin 32 → UInt8) : Generate := appendCopy (List.ofFn src)

def appendHash (src : Hash) : Generate := appendBytes src.bytes

/-- `_encode_bool` -/
def encodeBool (val : Bool) : UInt8 := if val then 1 else 0

def appendBool (src : Bool) : Generate := appendUInt8 (encodeBool src)

/-- The elements of an array, one after the other. -/
def appendArray {α : Type} (append : α → Generate) {n : Nat} (src : Fin n → α) : Generate :=
  (List.ofFn src).forM append

/-- Encode a whole block, in place of what was in it before. The destructor of
the generator checks that it has come to the end of the block. -/
def encodeToBlk (append : Generate) (blk : Block) : Exec Block := do
  let (_, g) ← append { blk := blk }
  Exec.assert (decide (g.offset = blockSize))
  pure g.blk

/-! ## Records -/

namespace Key

def decodeFromBlk : Scan Key := do
  let value ← fetchBytes
  let id ← fetchUInt32
  pure { value, id }

def encodeToBlk (key : Key) : Generate := do
  appendBytes key.value
  appendUInt32 key.id

end Key

namespace Type1Node

def decodeFromBlk : Scan Type1Node := do
  let pba ← fetchUInt64
  let gen ← fetchUInt64
  let hash ← fetchHash
  skipBytes 16
  pure { pba, gen, hash }

def encodeToBlk (node : Type1Node) : Generate := do
  appendUInt64 node.pba
  appendUInt64 node.gen
  appendHash node.hash
  appendZeroBytes 16

end Type1Node

namespace Type1NodeBlock

def decodeFromBlk (blk : Block) : Exec Type1NodeBlock :=
  OnDisc.decodeFromBlk (fetchArray Type1Node.decodeFromBlk nrOfNodesPerBlk) blk

def encodeToBlk (nodes : Type1NodeBlock) (blk : Block) : Exec Block :=
  OnDisc.encodeToBlk (appendArray Type1Node.encodeToBlk nodes) blk

end Type1NodeBlock

namespace Type2Node

def decodeFromBlk : Scan Type2Node := do
  let pba ← fetchUInt64
  let lastVba ← fetchUInt64
  let allocGen ← fetchUInt64
  let freeGen ← fetchUInt64
  let lastKeyId ← fetchUInt32
  let reserved ← fetchBool
  skipBytes 27
  pure { pba, lastVba, allocGen, freeGen, lastKeyId, reserved }

def encodeToBlk (node : Type2Node) : Generate := do
  appendUInt64 node.pba
  appendUInt64 node.lastVba
  appendUInt64 node.allocGen
  appendUInt64 node.freeGen
  appendUInt32 node.lastKeyId
  appendBool node.reserved
  appendZeroBytes 27

end Type2Node

namespace Type2NodeBlock

def decodeFromBlk (blk : Block) : Exec Type2NodeBlock :=
  OnDisc.decodeFromBlk (fetchArray Type2Node.decodeFromBlk nrOfNodesPerBlk) blk

def encodeToBlk (nodes : Type2NodeBlock) (blk : Block) : Exec Block :=
  OnDisc.encodeToBlk (appendArray Type2Node.encodeToBlk nodes) blk

end Type2NodeBlock

namespace Snapshot

def decodeFromBlk : Scan Snapshot := do
  let hash ← fetchHash
  let pba ← fetchUInt64
  let gen ← fetchUInt64
  let nrOfLeaves ← fetchUInt64
  let maxLevel ← fetchUInt32
  let valid ← fetchBool
  let id ← fetchUInt32
  let keep ← fetchBool
  skipBytes 6
  pure { hash, pba, gen, nrOfLeaves, maxLevel, valid, id, keep }

def encodeToBlk (snap : Snapshot) : Generate := do
  appendHash snap.hash
  appendUInt64 snap.pba
  appendUInt64 snap.gen
  appendUInt64 snap.nrOfLeaves
  appendUInt32 snap.maxLevel
  appendBool snap.valid
  appendUInt32 snap.id
  appendBool snap.keep
  appendZeroBytes 6

end Snapshot

/-- `Superblock`, with any numbers in its fields. -/
@[ext]
structure Superblock where
  state : SuperblockState := .invalid
  rekeyingVba : VirtualBlockAddress := 0
  resizingNrOfPbas : UInt64 := 0
  resizingNrOfLeaves : UInt64 := 0
  previousKey : Key := {}
  currentKey : Key := {}
  snapshots : Snapshots := Snapshots.none
  lastSecuredGeneration : Generation := 0
  currSnap : UInt32 := 0
  degree : UInt32 := 1
  firstPba : PhysicalBlockAddress := 0
  nrOfPbas : UInt64 := 0
  freeGen : Generation := 0
  freeNumber : PhysicalBlockAddress := 0
  freeHash : Hash := default
  freeMaxLevel : UInt32 := 0
  freeDegree : UInt32 := 1
  freeLeaves : UInt64 := 0
  metaGen : Generation := 0
  metaNumber : PhysicalBlockAddress := 0
  metaHash : Hash := default
  metaMaxLevel : UInt32 := 0
  metaDegree : UInt32 := 1
  metaLeaves : UInt64 := 0

namespace Superblock

def fetch : Scan Superblock := do
  let state ← fetchState
  let rekeyingVba ← fetchUInt64
  let resizingNrOfPbas ← fetchUInt64
  let resizingNrOfLeaves ← fetchUInt64
  let previousKey ← Key.decodeFromBlk
  let currentKey ← Key.decodeFromBlk
  let snapshots ← fetchArray Snapshot.decodeFromBlk maxNrOfSnapshots
  let lastSecuredGeneration ← fetchUInt64
  let currSnap ← fetchUInt32
  let degree ← fetchUInt32
  let firstPba ← fetchUInt64
  let nrOfPbas ← fetchUInt64
  let freeGen ← fetchUInt64
  let freeNumber ← fetchUInt64
  let freeHash ← fetchHash
  let freeMaxLevel ← fetchUInt32
  let freeDegree ← fetchUInt32
  let freeLeaves ← fetchUInt64
  let metaGen ← fetchUInt64
  let metaNumber ← fetchUInt64
  let metaHash ← fetchHash
  let metaMaxLevel ← fetchUInt32
  let metaDegree ← fetchUInt32
  let metaLeaves ← fetchUInt64
  skipBytes 383
  pure {
    state, rekeyingVba, resizingNrOfPbas, resizingNrOfLeaves, previousKey, currentKey, snapshots
    lastSecuredGeneration, currSnap, degree, firstPba, nrOfPbas, freeGen, freeNumber, freeHash
    freeMaxLevel, freeDegree, freeLeaves, metaGen, metaNumber, metaHash, metaMaxLevel, metaDegree
    metaLeaves }

def append (sb : Superblock) : Generate := do
  appendUInt8 sb.state.encodeState
  appendUInt64 sb.rekeyingVba
  appendUInt64 sb.resizingNrOfPbas
  appendUInt64 sb.resizingNrOfLeaves
  Key.encodeToBlk sb.previousKey
  Key.encodeToBlk sb.currentKey
  appendArray Snapshot.encodeToBlk sb.snapshots
  appendUInt64 sb.lastSecuredGeneration
  appendUInt32 sb.currSnap
  appendUInt32 sb.degree
  appendUInt64 sb.firstPba
  appendUInt64 sb.nrOfPbas
  appendUInt64 sb.freeGen
  appendUInt64 sb.freeNumber
  appendHash sb.freeHash
  appendUInt32 sb.freeMaxLevel
  appendUInt32 sb.freeDegree
  appendUInt64 sb.freeLeaves
  appendUInt64 sb.metaGen
  appendUInt64 sb.metaNumber
  appendHash sb.metaHash
  appendUInt32 sb.metaMaxLevel
  appendUInt32 sb.metaDegree
  appendUInt64 sb.metaLeaves
  appendZeroBytes 383

def decodeFromBlk (blk : Block) : Exec Superblock := OnDisc.decodeFromBlk fetch blk

def encodeToBlk (sb : Superblock) (blk : Block) : Exec Block := OnDisc.encodeToBlk sb.append blk

end Superblock

end Genode.Tresor.OnDisc
