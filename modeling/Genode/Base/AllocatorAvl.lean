import Mathlib.Algebra.Order.Ring.Nat
import Genode.Base.Metadata
import Genode.Util.AvlTree

/-!
# AllocatorAvl — the allocator of address ranges

`base/allocator_avl.h` and `base/allocator_avl.cc`. The blocks are nodes
of an AVL tree that is sorted by address. Each remembers the size of the
largest free block of its subtree (`_max_avail`), which the hook of the
tree keeps up to date.

A block needs memory of its own, an entry of the metadata allocator.
Which one that is depends on the user (`MdAlloc`): it may be apart from
the allocator, or it may take its memory from this very allocator. So
its functions get the whole state.

Addresses and sizes are 64-bit numbers.
-/

namespace Genode.Base

open Lib Util

/-! ## 64-bit numbers -/

def add64 (a b : Nat) : Nat := (a + b) % 2 ^ 64

def sub64 (a b : Nat) : Nat := (a + 2 ^ 64 - b) % 2 ^ 64

/-- `align_addr`; the mask clears the lower bits. -/
def alignAddr (a align : Nat) : Nat :=
  let sum := add64 a (2 ^ align - 1)
  sum - sum % 2 ^ align

/-- `_sum_in_range`. -/
def sumInRange (a offset : Nat) : Bool := decide (a ≤ sub64 (add64 a offset) 1)

/-! ## Blocks -/

/-- `Allocator_avl_base::Block` without the part of the AVL node. -/
structure Block where
  addr : Nat
  size : Nat
  used : Bool
  deriving DecidableEq, Repr

namespace Block

def avail (b : Block) : Nat := if b.used then 0 else b.size

/-- The last address, as the code computes it. -/
def last (b : Block) : Nat := sub64 (add64 b.addr b.size) 1

/-- `_fits`. -/
def fits (b : Block) (n align start stop : Nat) : Bool :=
  let a := alignAddr (max b.addr start) align
  decide (b.addr ≤ a) && sumInRange a n && decide (add64 (sub64 a b.addr) n ≤ b.avail) &&
    decide (sub64 (add64 a n) 1 ≤ stop)

end Block

/-- The allocator, with the state `μ` of its metadata allocator. What
the nodes of the tree remember is `_max_avail`. -/
structure AllocatorAvl (ι μ : Type) where
  nodes : AvlNodes ι Nat
  block : ι → Block
  md : μ

/-- `_md_alloc`. -/
structure MdAlloc (ι μ : Type) where
  tryAlloc : AllocatorAvl ι μ → Exec (Except AllocError ι × AllocatorAvl ι μ)
  free : ι → AllocatorAvl ι μ → Exec (AllocatorAvl ι μ)

namespace AllocatorAvl

variable {ι μ : Type} [DecidableEq ι]

/-- `Block::higher` and `Block::recompute`. -/
def policy (block : ι → Block) : AvlPolicy ι Nat where
  higher a b := decide ((block a).addr ≤ (block b).addr)
  recompute x l r := max (block x).avail (max (l.getD 0) (r.getD 0))

variable (s : AllocatorAvl ι μ)

/-- `_child_max_avail`. -/
def childMaxAvail (x : ι) (i : Bool) : Nat := (s.nodes.childData x i).getD 0

/-- The constructor of a block at the metadata entry `x`. -/
def construct (x : ι) (b : Block) : AllocatorAvl ι μ :=
  { s with nodes := s.nodes.construct x b.avail, block := Function.update s.block x b }

/-! ## The search for a block -/

/-- `Block::find_best_fit`, for subtrees of at most `n` levels. -/
def findBestFit (size align start stop : Nat) : Nat → ι → Exec (Option ι)
  | 0, _ => .error .endless
  | n + 1, x => do
    -- the child with the lower value comes first
    let side := decide (s.childMaxAvail x true < s.childMaxAvail x false)
    let search := fun i =>
      if s.childMaxAvail x i < size then .ok none
      else (s.nodes.child x i).elim (.ok none) (findBestFit size align start stop n)
    let fits := (s.block x).fits size align start stop
    let better := fun res => if fits ∧ size < (s.block res).size then x else res
    let res ← search side
    let res ← res.elim (search (!side)) fun res => .ok (some res)
    .ok (res.elim (if fits then some x else none) fun res => some (better res))

/-- `Block::find_by_address`, for subtrees of at most `n` levels. -/
def findByAddressFrom (addr size : Nat) (checkOverlap : Bool) : Nat → ι → Exec (Option ι)
  | 0, _ => .error .endless
  | n + 1, x =>
    let b := s.block x
    let size := if size = 0 then 1 else size
    let last := sub64 (add64 addr size) 1
    if checkOverlap ∧ b.addr ≤ last ∧ addr ≤ b.last then .ok (some x)
    else if b.addr ≤ addr ∧ last ≤ b.last then .ok (some x)
    else
      (s.nodes.child x (decide (b.addr ≤ addr))).elim (.ok none)
        (findByAddressFrom addr size checkOverlap n)

variable [Fintype ι] (root : ι)

/-- `_find_by_address`. -/
def findByAddress (addr : Nat) (size : Nat := 0) (checkOverlap : Bool := false) :
    Exec (Option ι) :=
  (s.nodes.child root false).elim (.ok none)
    (s.findByAddressFrom addr size checkOverlap (AvlNodes.fuel ι))

/-- The blocks of the tree from left to right. -/
def blocks : Exec (List Block) := do
  let xs ← s.nodes.forEach root
  .ok (xs.map s.block)

/-- `Block::avail_in_subtree`, for subtrees of at most `n` levels. -/
def availInSubtree : Nat → ι → Exec Nat
  | 0, _ => .error .endless
  | n + 1, x => do
    let left ← (s.nodes.child x false).elim (.ok 0) (availInSubtree n)
    let right ← (s.nodes.child x true).elim (.ok 0) (availInSubtree n)
    .ok (add64 (add64 (s.block x).avail left) right)

/-- `avail`. -/
def avail : Exec Nat :=
  (s.nodes.child root false).elim (.ok 0) (s.availInSubtree (AvlNodes.fuel ι))

/-! ## Changes of the tree -/

variable (M : MdAlloc ι μ)

/-- `_alloc_block_metadata`. -/
def allocBlockMetadata : Exec (Except AllocError ι × AllocatorAvl ι μ) := do
  let (r, s) ← M.tryAlloc s
  match r with
  | .ok x => .ok (.ok x, s.construct x ⟨0, 0, false⟩)
  | .error e => .ok (.error e, s)

/-- `_alloc_two_blocks_metadata`. -/
def allocTwoBlocksMetadata : Exec (Except AllocError (ι × ι) × AllocatorAvl ι μ) := do
  let (r₁, s) ← s.allocBlockMetadata M
  match r₁ with
  | .error e => .ok (.error e, s)
  | .ok b₁ => do
    let (r₂, s) ← s.allocBlockMetadata M
    match r₂ with
    | .ok b₂ => .ok (.ok (b₁, b₂), s)
    | .error e => do
      let s ← M.free b₁ s
      .ok (.error e, s)

/-- `_add_block`. -/
def addBlock (x : ι) (b : Block) : Exec (AllocatorAvl ι μ) := do
  let s := s.construct x b
  let nodes ← s.nodes.insert (policy s.block) root x
  .ok { s with nodes := nodes }

/-- `_destroy_block`. -/
def destroyBlock (x : ι) : Exec (AllocatorAvl ι μ) := do
  let nodes ← s.nodes.remove (policy s.block) x
  M.free x { s with nodes := nodes }

/-- The free block at `addr`, or its metadata entry goes back if there is nothing left. -/
def addFree (x : ι) (addr size : Nat) : Exec (AllocatorAvl ι μ) :=
  if 0 < size then s.addBlock root x ⟨addr, size, false⟩ else M.free x s

/-- `_cut_from_block`. -/
def cutFromBlock (x : ι) (addr size : Nat) (b₁ b₂ : ι) : Exec (AllocatorAvl ι μ) := do
  let b := s.block x
  let padding := if b.addr < addr then sub64 addr b.addr else 0
  let bSize := if padding < b.size then sub64 b.size padding else 0
  let remaining := if size < bSize then sub64 bSize size else 0
  -- case that a block contains the whole addressable range
  let remaining := if b.addr = 0 ∧ b.size = 0 then sub64 (sub64 b.size size) padding else remaining
  let s ← s.destroyBlock M x
  -- the alignment padding
  let s ← s.addFree root M b₁ b.addr padding
  -- the remaining space of the original block
  s.addFree root M b₂ (add64 addr size) remaining

/-! ## Operations -/

/-- The free neighbour at `addr` leaves the tree, to be merged. -/
def takeFree (addr : Nat) : Exec (Option Block × AllocatorAvl ι μ) := do
  let found ← s.findByAddress root addr
  match found with
  | some x =>
    if (s.block x).used then .ok (none, s)
    else do
      let b := s.block x
      let s ← s.destroyBlock M x
      .ok (some b, s)
  | none => .ok (none, s)

/-- `add_range`. -/
def addRange (addr size : Nat) : Exec (Except AllocError Unit × AllocatorAvl ι μ) := do
  if size = 0 then .ok (.error .denied, s)
  else do
    -- check for conflicts with existing blocks
    let conflict ← s.findByAddress root addr size true
    if conflict.isSome then .ok (.error .denied, s)
    else do
      let (r, s) ← s.allocBlockMetadata M
      match r with
      | .error e => .ok (.error e, s)
      | .ok x => do
        -- merge with predecessor
        let (pred, s) ← (if addr ≠ 0 then s.takeFree root M (sub64 addr 1) else .ok (none, s))
        let size := pred.elim size fun b => add64 size b.size
        let addr := pred.elim addr Block.addr
        -- merge with successor
        let (succ, s) ← s.takeFree root M (add64 addr size)
        let size := succ.elim size fun b => add64 size b.size
        let s ← s.addBlock root x ⟨addr, size, false⟩
        .ok (.ok (), s)

/-- `remove_range`, for at most `n` rounds of its loop. -/
def removeRangeLoop (base size : Nat) :
    Nat → AllocatorAvl ι μ → Exec (Except AllocError Unit × AllocatorAvl ι μ)
  | 0, _ => .error .endless
  | n + 1, s => do
    let (r, s) ← s.allocTwoBlocksMetadata M
    match r with
    | .error e => .ok (.error e, s)
    | .ok (b₁, b₂) => do
      -- find a block that overlaps the range
      let found ← s.findByAddress root base size true
      match found with
      | none => do
        let s ← M.free b₁ s
        let s ← M.free b₂ s
        .ok (.ok (), s)
      | some x =>
        if (s.block x).avail = 0 then do
          let s ← M.free b₁ s
          let s ← M.free b₂ s
          .ok (.error .denied, s)
        else do
          -- cut the intersecting range
          let beg := max base (s.block x).addr
          let fin := min (sub64 (add64 base size) 1) (s.block x).last
          let s ← s.cutFromBlock root M x beg (add64 (sub64 fin beg) 1) b₁ b₂
          removeRangeLoop base size n s

/-- `remove_range`. There is a round for each block, and one more. -/
def removeRange (base size : Nat) : Exec (Except AllocError Unit × AllocatorAvl ι μ) :=
  if size = 0 then .ok (.error .denied, s)
  else removeRangeLoop root M base size (Fintype.card ι + 1) s

/-- `_allocate`; `search` begins at the first block. -/
def allocate (size align start : Nat) (search : AllocatorAvl ι μ → ι → Exec (Option ι)) :
    Exec (Except AllocError Nat × AllocatorAvl ι μ) := do
  let (r, s) ← s.allocTwoBlocksMetadata M
  match r with
  | .error e => .ok (.error e, s)
  | .ok (b₁, b₂) => do
    let found ← (s.nodes.child root false).elim (.ok none) (search s)
    match found.filter fun x => !(s.block x).used with
    | none => do
      -- range conflict
      let s ← M.free b₁ s
      let s ← M.free b₂ s
      .ok (.error .denied, s)
    | some x => do
      let addr := alignAddr (max (s.block x).addr start) align
      let s ← s.cutFromBlock root M x addr size b₁ b₂
      let (r, s) ← s.allocBlockMetadata M
      match r with
      | .error e => .ok (.error e, s)
      | .ok y => do
        let s ← s.addBlock root y ⟨addr, size, true⟩
        .ok (.ok addr, s)

/-- `alloc_aligned`. -/
def allocAligned (size align start stop : Nat) : Exec (Except AllocError Nat × AllocatorAvl ι μ) :=
  s.allocate root M size align start fun s x =>
    s.findBestFit size align start stop (AvlNodes.fuel ι) x

/-- `alloc_addr`. -/
def allocAddr (size addr : Nat) : Exec (Except AllocError Nat × AllocatorAvl ι μ) :=
  -- check for integer overflow
  if sumInRange addr size then
    s.allocate root M size 0 addr fun s x =>
      s.findByAddressFrom addr size false (AvlNodes.fuel ι) x
  else .ok (.error .denied, s)

/-- `free`. -/
def free (addr : Nat) : Exec (AllocatorAvl ι μ) := do
  let found ← s.findByAddress root addr
  match found with
  | none => .ok s
  | some x =>
    if (s.block x).used then do
      let b := s.block x
      let s ← s.destroyBlock M x
      let (_, s) ← s.addRange root M b.addr b.size
      .ok s
    else .ok s

end AllocatorAvl

end Genode.Base
