import Genode.Base.AllocatorAvl
import Genode.Base.Metadata
import Genode.Lib.Ring
import Genode.Lib.Run

/-!
# Slab — the slab allocator

`base/src/lib/base/slab.cc`. A slab hands out entries of one size from
blocks, which are a ring. The blocks come from a backing store, which may
itself need entries of the slab while it is asked for a block. Such an
allocation is two steps here: it asks for a block, and goes on when it has
the answer. Other calls may be made in between.
-/

namespace Genode.Base

open Lib

/-- `Slab::Block`. The state table tells which entries are used. -/
structure Slab.Block (β : Type) where
  next : β
  prev : β
  avail : Nat
  used : Nat → Bool

/-- `Slab`. The blocks in memory are those that were not given back. -/
structure Slab (β : Type) where
  slabSize : Nat
  entriesPerBlock : Nat
  /-- Whether there is a backing store. -/
  backed : Bool
  initialSb : Option β
  mem : β → Option (Slab.Block β)
  currSb : β
  nested : Bool
  numBlocks : Nat
  totalAvail : Nat

namespace Slab

/-- The number of entries of a block: each has a header, its data and a
byte in the state table. -/
def entriesOf (slabSize blockSize : Nat) : Nat :=
  sub64 (sub64 blockSize 32) 8 / (slabSize + 8 + 1)

namespace Block

variable {β : Type} (c : Block β) (n : Nat)

/-- `any_used_entry`. -/
def anyUsedEntry : Option Nat := (List.range n).find? c.used

/-- `alloc`, with the index of the entry. -/
def alloc : Option (Nat × Block β) :=
  ((List.range n).find? fun i => !c.used i).map fun i =>
    (i, { c with used := Function.update c.used i true, avail := c.avail - 1 })

/-- `inc_avail` for an entry. -/
def incAvail (i : Nat) : Block β :=
  { c with used := Function.update c.used i false, avail := c.avail + 1 }

end Block

variable {β : Type} [DecidableEq β] (s : Slab β)

def get (b : β) : Exec (Block β) := Exec.deref (s.mem b)

def set (b : β) (c : Block β) : Slab β := { s with mem := Function.update s.mem b (some c) }

/-- The constructor of a block. -/
def newBlock (b : β) : Slab β := s.set b ⟨b, b, s.entriesPerBlock, fun _ => false⟩

/-- The constructor of the slab, when it has its first block. -/
def new (slabSize blockSize : Nat) (backed : Bool) (initialSb : Option β) (b : β) : Slab β :=
  newBlock ⟨slabSize, entriesOf slabSize blockSize, backed, initialSb, fun _ => none, b, false, 1,
    entriesOf slabSize blockSize⟩ b

/-! ## The ring of blocks -/

/-- `_insert_sb`. -/
def insertBlock (sb : β) : Exec (Slab β) := do
  let c ← s.get s.currSb
  let b ← s.get sb
  let s := s.set sb { b with prev := s.currSb, next := c.next }
  let w ← s.get c.next
  let s := s.set c.next { w with prev := sb }
  let c ← s.get s.currSb
  let s := s.set s.currSb { c with next := sb }
  .ok { s with totalAvail := s.totalAvail + s.entriesPerBlock, numBlocks := s.numBlocks + 1 }

/-- `_release_backing_store`. Only blocks that were allocated dynamically
are given back. -/
def releaseBackingStore (b : β) : Exec (Slab β) := do
  let c ← s.get b
  let s := { s with totalAvail := s.totalAvail - c.avail, numBlocks := s.numBlocks - 1 }
  .ok (if s.backed && decide (s.initialSb ≠ some b) then
    { s with mem := Function.update s.mem b none } else s)

/-- `_free_curr_sb`. -/
def freeCurrSb : Exec (Slab β) := do
  let b := s.currSb
  let c ← s.get b
  let s := { s with currSb := c.next }
  -- never free the last block
  if s.numBlocks ≤ 1 then .ok s
  else do
    let p ← s.get c.prev
    let s := s.set c.prev { p with next := c.next }
    let q ← s.get c.next
    let s := s.set c.next { q with prev := c.prev }
    s.releaseBackingStore b

/-! ## Allocating and freeing -/

/-- The loop that skips completely occupied blocks, with at most `fuel` rounds. -/
def skipOccupied (orig : β) : Nat → Slab β → Exec (Slab β)
  | 0, _ => .error .endless
  | fuel + 1, s => do
    let c ← s.get s.currSb
    if c.avail ≠ 0 then .ok s
    else if c.next = orig then .ok s
    else skipOccupied orig fuel { s with currSb := c.next }

/-- The end of `try_alloc`: take an entry from the blocks that are there. -/
def takeEntry : Exec (Option (β × Nat) × Slab β) := do
  let s ← skipOccupied s.currSb s.numBlocks s
  let c ← s.get s.currSb
  match c.alloc s.entriesPerBlock with
  | none => .ok (none, s)
  | some (i, c) =>
    let s := s.set s.currSb c
    .ok (some (s.currSb, i), { s with totalAvail := s.totalAvail - 1 })

/-- The loop of `_free` that releases free blocks, with at most `fuel` rounds. -/
def releaseBlocks : Nat → Slab β → Exec (Slab β)
  | 0, _ => .error .endless
  | fuel + 1, s => do
    let c ← s.get s.currSb
    if 2 * s.entriesPerBlock < s.totalAvail ∧ 1 < s.numBlocks ∧ c.avail = s.entriesPerBlock ∧
        s.backed = true then do
      let s ← s.freeCurrSb
      releaseBlocks fuel s
    else .ok s

/-- `_free` of an entry in a block. -/
def free (b : β) (i : Nat) : Exec (Slab β) := do
  let c ← s.get b
  -- freed, but not used
  if c.used i = false then .ok s
  else
    let s := s.set b (c.incAvail i)
    releaseBlocks s.numBlocks { s with totalAvail := s.totalAvail + 1, currSb := b }

/-- `free_empty_blocks`, for as many blocks as there are. -/
def freeEmptyBlocks : Nat → Slab β → Exec (Slab β)
  | 0, s => .ok s
  | k + 1, s => do
    let c ← s.get s.currSb
    if s.initialSb ≠ some s.currSb ∧ c.avail = s.entriesPerBlock then do
      let s ← s.freeCurrSb
      freeEmptyBlocks k s
    else freeEmptyBlocks k { s with currSb := c.next }

/-- The loop of `any_used_elem`, with at most `fuel` rounds. -/
def skipFree : Nat → Slab β → Exec (Slab β)
  | 0, _ => .error .endless
  | fuel + 1, s => do
    let c ← s.get s.currSb
    if c.avail = s.entriesPerBlock then skipFree fuel { s with currSb := c.next } else .ok s

def anyUsedElem : Exec (Option (β × Nat) × Slab β) :=
  if s.totalAvail = s.numBlocks * s.entriesPerBlock then .ok (none, s)
  else do
    let s ← skipFree s.numBlocks s
    let c ← s.get s.currSb
    .ok ((c.anyUsedEntry s.entriesPerBlock).map fun i => (s.currSb, i), s)

/-- The loop of the destructor, with at most `fuel` rounds. -/
def destroyBlocks : Nat → Slab β → Exec (Slab β)
  | 0, _ => .error .endless
  | fuel + 1, s =>
    if 1 < s.numBlocks then do
      -- never free the initial block
      let c ← s.get s.currSb
      let s := if s.initialSb = some s.currSb then { s with currSb := c.next } else s
      let s ← s.freeCurrSb
      destroyBlocks fuel s
    else .ok s

/-- The destructor. -/
def destroy : Exec (Slab β) :=
  if s.backed = false then .ok s
  else do
    let s ← destroyBlocks s.numBlocks s
    s.releaseBackingStore s.currSb

/-! ## Calls -/

/-- The calls of a slab. An answer ends an allocation that has asked the
backing store. -/
inductive Call (β : Type) where
  | alloc (size : Nat)
  | answer (r : Except AllocError β)
  | free (b : β) (i : Nat)
  | insertSb (b : β)
  | freeEmptyBlocks
  | anyUsedElem
  deriving DecidableEq

inductive Reply (β : Type) where
  | entry (b : β) (i : Nat)
  | failed (e : AllocError)
  /-- The allocation waits for the backing store. -/
  | asking
  | nothing
  deriving DecidableEq

/-- The result of taking an entry. -/
def took (r : Option (β × Nat) × Slab β) : Reply β × Slab β :=
  (r.1.elim (.failed .denied) fun e => .entry e.1 e.2, r.2)

/-- Whether an allocation asks for another block. Three entries are left
for allocations that the backing store makes. -/
def expands : Bool := decide (s.totalAvail ≤ 3) && s.backed && !s.nested

def call : Call β → Exec (Reply β × Slab β)
  | .alloc size =>
    if s.slabSize < size then .ok (.failed .denied, s)
    else if s.expands then .ok (.asking, { s with nested := true })
    else do
      let r ← s.takeEntry
      .ok (took r)
  | .answer (.error e) => .ok (.failed e, { s with nested := false })
  | .answer (.ok b) => do
    let s ← (s.newBlock b).insertBlock b
    let r ← takeEntry { s with nested := false }
    .ok (took r)
  | .free b i => do
    let s ← s.free b i
    .ok (.nothing, s)
  | .insertSb b => do
    let s ← (s.newBlock b).insertBlock b
    .ok (.nothing, s)
  | .freeEmptyBlocks => do
    let s ← freeEmptyBlocks s.numBlocks s
    .ok (.nothing, s)
  | .anyUsedElem => do
    let (e, s) ← s.anyUsedElem
    .ok (e.elim .nothing fun e => .entry e.1 e.2, s)

/-- Entries are freed in blocks that are there, new blocks are no blocks of
the slab yet, and the backing store answers when it was asked. -/
def Allowed (s : Slab β) : Call β → Prop
  | .alloc _ => True
  | .answer (.error _) => s.nested = true
  | .answer (.ok b) => s.nested = true ∧ (s.mem b).isNone
  | .free b i => (s.mem b).isSome ∧ i < s.entriesPerBlock
  | .insertSb b => (s.mem b).isNone
  | .freeEmptyBlocks => True
  | .anyUsedElem => True

/-- Calls with their results. -/
abbrev Trans (β : Type) [DecidableEq β] := Called Allowed (@call β _)

end Slab

end Genode.Base
