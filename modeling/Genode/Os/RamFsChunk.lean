import Genode.Lib.Bytes
import Genode.Lib.Exec
import Genode.Lib.Word

/-!
# RamFsChunk — the chunks of files in RAM

`os/include/ram_fs/chunk.h`. The content of a file is a tree: a chunk of
bytes is a leaf, and a chunk index has a number of entries of one type,
which are chunks or again chunk indices. Entries are allocated when
something is written to them. Until then, they are read as zeros.

The templates of the source are types here. What a chunk index uses of
its `ENTRY_TYPE` is the class `ChunkType`. The allocator is modelled by
the number of chunks that it can still allocate.
-/

namespace Genode.Os.RamFs

open Lib

/-- The exceptions. -/
inductive Thrown where
  | indexOutOfRange
  | outOfMemory
  deriving DecidableEq, Repr

/-- The result of a write or truncation: whether it threw, the chunk, and
how many chunks can be allocated afterwards. -/
abbrev Changed (E : Type) := Except Thrown Unit × E × Nat

/-- The base offset of zero chunks, `~0UL`. -/
def zeroOffset : Nat := 2 ^ 64 - 1

/-- `assert_valid_range` of a chunk with its base offset. -/
def validRange (base start len chunkSize : Nat) : Bool :=
  decide (base = zeroOffset) ||
    (decide (base ≤ start) && decide (add64 start len ≤ add64 base chunkSize))

/-- What `Chunk` and `Chunk_index` have in common. -/
class ChunkType (E : Type) where
  size : Nat
  /-- The constructor with a base offset. -/
  construct : Nat → E
  zero : E → Bool
  empty : E → Bool
  usedSize : E → Nat
  write : E → List UInt8 → Nat → Nat → Exec (Changed E)
  read : E → Nat → Nat → Exec (Except Thrown (List UInt8))
  truncate : E → Nat → Nat → Exec (Changed E)
  /-- The number of chunks that the destructor destroys. -/
  destroyed : E → Nat

/-! ## Chunks of bytes -/

/-- `Chunk`. -/
structure Chunk (chunkSize : Nat) where
  baseOffset : Nat
  numEntries : Nat
  data : Fin chunkSize → UInt8

namespace Chunk

variable {chunkSize : Nat} (c : Chunk chunkSize)

/-- The bytes of the chunk as a memory that starts at its base offset. -/
def bytes : Memory := fun x => if h : x < chunkSize then c.data ⟨x, h⟩ else 0

/-- The chunk with these bytes. -/
def setBytes (m : Memory) : Chunk chunkSize := { c with data := fun i => m i }

def write (src : List UInt8) (at' room : Nat) : Exec (Changed (Chunk chunkSize)) :=
  if validRange c.baseOffset at' src.length chunkSize then
    -- offset relative to this chunk
    let localOffset := sub64 at' c.baseOffset
    if chunkSize < localOffset + src.length then .error .pointer
    else
      let c := c.setBytes (c.bytes.write localOffset src)
      .ok (.ok (), { c with numEntries := max c.numEntries (localOffset + src.length) }, room)
  else .ok (.error .indexOutOfRange, c, room)

def read (len at' : Nat) : Exec (Except Thrown (List UInt8)) :=
  if validRange c.baseOffset at' len chunkSize then
    let localOffset := sub64 at' c.baseOffset
    if chunkSize < localOffset + len then .error .pointer
    else .ok (.ok (c.bytes.slice localOffset len))
  else .ok (.error .indexOutOfRange)

def truncate (at' room : Nat) : Exec (Changed (Chunk chunkSize)) :=
  if validRange c.baseOffset at' 0 chunkSize then
    let localOffset := sub64 at' c.baseOffset
    if c.numEntries ≤ localOffset then .ok (.ok (), c, room)
    else if chunkSize < c.numEntries then .error .pointer
    else
      let zeros := List.replicate (c.numEntries - localOffset) 0
      let c := c.setBytes (c.bytes.write localOffset zeros)
      .ok (.ok (), { c with numEntries := localOffset }, room)
  else .ok (.error .indexOutOfRange, c, room)

instance : ChunkType (Chunk chunkSize) where
  size := chunkSize
  construct base := ⟨base, 0, fun _ => 0⟩
  zero c := decide (c.baseOffset = zeroOffset)
  empty c := decide (c.numEntries = 0)
  usedSize c := c.numEntries
  write := write
  read := read
  truncate := truncate
  destroyed _ := 0

end Chunk

/-! ## Chunk indices -/

/-- `Chunk_index`. -/
structure ChunkIndex (numEntries : Nat) (E : Type) where
  baseOffset : Nat
  numUsed : Nat
  entries : Fin numEntries → Option E

namespace ChunkIndex

open ChunkType

variable {n : Nat} {E : Type} [ChunkType E] (c : ChunkIndex n E)

/-- `SIZE`. -/
def size (n : Nat) (E : Type) [ChunkType E] : Nat := ChunkType.size E * n % 2 ^ 64

/-- The entry at an index. -/
def entry (i : Nat) : Option E := if h : i < n then c.entries ⟨i, h⟩ else none

def setEntry (i : Nat) (e : Option E) : ChunkIndex n E :=
  { c with entries := fun j => if j.val = i then e else c.entries j }

/-- `_index_by_offset`; the index is a 32-bit number. -/
def indexByOffset (offset : Nat) : Nat :=
  sub64 offset c.baseOffset / ChunkType.size E % 2 ^ 32

/-- `_entry_for_writing`, with the entry that it returns. -/
def entryForWriting (index room : Nat) : Except Thrown (E × ChunkIndex n E × Nat) :=
  if n ≤ index then .error .indexOutOfRange
  else
    match c.entry index with
    | some e => .ok (e, c, room)
    | none =>
      match room with
      | 0 => .error .outOfMemory
      | room + 1 =>
        let e := construct (add64 c.baseOffset (index * ChunkType.size E))
        .ok (e, { c.setEntry index (some e) with numUsed := max c.numUsed (index + 1) }, room)

/-- The part of a range from offset `at'` on that is in the entry at the
index: where it starts in the entry, and how long it is. -/
def localPart (at' index len : Nat) : Nat :=
  let localSeekOffset := sub64 (sub64 at' c.baseOffset) (index * ChunkType.size E)
  min len (sub64 (ChunkType.size E) localSeekOffset)

/-- The loop of `_range_op` for writing, with at most `fuel` rounds. -/
def writeLoop : Nat → ChunkIndex n E → List UInt8 → Nat → Nat → Exec (Changed (ChunkIndex n E))
  | 0, _, _, _, _ => .error .endless
  | fuel + 1, c, src, at', room =>
    if src = [] then .ok (.ok (), c, room)
    else
      let index := c.indexByOffset at'
      match c.entryForWriting index room with
      | .error e => .ok (.error e, c, room)
      | .ok (e, c, room) => do
        let currLen := c.localPart at' index src.length
        let (r, e, room) ← ChunkType.write e (src.take currLen) at' room
        let c := c.setEntry index (some e)
        match r with
        | .error e => .ok (.error e, c, room)
        | .ok () => writeLoop fuel c (src.drop currLen) (add64 at' currLen) room

def write (src : List UInt8) (at' room : Nat) : Exec (Changed (ChunkIndex n E)) :=
  if validRange c.baseOffset at' src.length (size n E) then
    c.writeLoop (src.length + 1) src at' room
  else .ok (.error .indexOutOfRange, c, room)

/-- `Read_func` for an entry or, if there is none, the zero chunk. -/
def readEntry (e : Option E) (len at' : Nat) : Exec (Except Thrown (List UInt8)) :=
  match e.filter fun e => !zero e with
  | none => .ok (.ok (List.replicate len 0))
  | some e => ChunkType.read e len at'

/-- The loop of `_range_op` for reading, with at most `fuel` rounds. -/
def readLoop : Nat → Nat → Nat → Exec (Except Thrown (List UInt8))
  | 0, _, _ => .error .endless
  | fuel + 1, len, at' =>
    if len = 0 then .ok (.ok [])
    else
      let index := c.indexByOffset at'
      if n ≤ index then .ok (.error .indexOutOfRange)
      else do
        let currLen := c.localPart at' index len
        let r ← readEntry (c.entry index) currLen at'
        match r with
        | .error e => .ok (.error e)
        | .ok dst => do
          let r ← readLoop fuel (len - currLen) (add64 at' currLen)
          .ok (r.map fun rest => dst ++ rest)

def read (len at' : Nat) : Exec (Except Thrown (List UInt8)) :=
  if validRange c.baseOffset at' len (size n E) then c.readLoop (len + 1) len at'
  else .ok (.error .indexOutOfRange)

/-- `_destroy_entry`. -/
def destroyEntry (i room : Nat) : ChunkIndex n E × Nat :=
  match c.entry i with
  | some e => if i < c.numUsed then (c.setEntry i none, room + destroyed e + 1) else (c, room)
  | none => (c, room)

/-- `_destroy_entry` for `k` entries from index `i` on. -/
def destroyEntries : Nat → Nat → ChunkIndex n E → Nat → ChunkIndex n E × Nat
  | 0, _, c, room => (c, room)
  | k + 1, i, c, room => destroyEntries k (i + 1) (c.destroyEntry i room).1 (c.destroyEntry i room).2

def usedSize : Nat :=
  if c.numUsed = 0 then 0
  else
    -- size of entries that lie completely within the used range
    let sizeWholeEntries := ChunkType.size E * (c.numUsed - 1) % 2 ^ 64
    (c.entry (c.numUsed - 1)).elim sizeWholeEntries fun e =>
      add64 sizeWholeEntries (ChunkType.usedSize e)

/-- The end of `truncate`, which releases an empty trailing chunk. -/
def releaseEmpty (truncIndex room : Nat) : ChunkIndex n E × Nat :=
  let c := { c with numUsed := truncIndex + 1 }
  if (c.entry truncIndex).any empty then
    let (c, room) := c.destroyEntry truncIndex room
    ({ c with numUsed := c.numUsed - 1 }, room)
  else (c, room)

def truncate (at' room : Nat) : Exec (Changed (ChunkIndex n E)) :=
  let truncIndex := c.indexByOffset at'
  if c.numUsed ≤ truncIndex then .ok (.ok (), c, room)
  else if n ≤ truncIndex then .error .pointer
  else
    let (c, room) := destroyEntries (c.numUsed - (truncIndex + 1)) (truncIndex + 1) c room
    -- traverse into sub chunks
    match c.entry truncIndex with
    | none =>
      let (c, room) := c.releaseEmpty truncIndex room
      .ok (.ok (), c, room)
    | some e => do
      let (r, e, room) ← ChunkType.truncate e at' room
      let c := c.setEntry truncIndex (some e)
      match r with
      | .error e => .ok (.error e, c, room)
      | .ok () =>
        let (c, room) := c.releaseEmpty truncIndex room
        .ok (.ok (), c, room)

instance : ChunkType (ChunkIndex n E) where
  size := size n E
  construct base := ⟨base, 0, fun _ => none⟩
  zero c := decide (c.baseOffset = zeroOffset)
  empty c := decide (c.numUsed = 0)
  usedSize := usedSize
  write := write
  read := read
  truncate := truncate
  destroyed c := (destroyEntries n 0 c 0).2

end ChunkIndex

end Genode.Os.RamFs
