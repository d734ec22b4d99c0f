import Mathlib.Order.Interval.Set.Basic
import Mathlib.Data.Set.Insert
import Genode.Base.AllocatorNeighbours

/-!
# AllocatorContent — what the allocator is for

Without blocks, trees and metadata, an allocator is a set of addresses
that it manages, some ranges of which are handed out (`Ranges`). Away
from both ends of the address space, the operations on the tree are
operations on these sets, and the free blocks of the tree are as large
as they can be. So a range can be had at a certain address if all of it
is free, whatever was allocated and freed before. As before, the metadata
allocator is apart from the allocator.
-/

namespace Genode.Base

open Block Lib Set

/-! ## The sets -/

/-- The addresses that are managed, and the ranges that are handed out. -/
@[ext] structure Ranges where
  managed : Set Nat
  live : Set (Nat × Nat)

namespace Ranges

/-- The addresses of a range. -/
def span (addr size : Nat) : Set Nat := Ico addr (addr + size)

/-- The managed addresses that are in no range handed out. -/
def free (R : Ranges) : Set Nat := {a | a ∈ R.managed ∧ ∀ r ∈ R.live, a ∉ span r.1 r.2}

def empty : Ranges := ⟨∅, ∅⟩

def allocate (R : Ranges) (addr size : Nat) : Ranges := { R with live := insert (addr, size) R.live }

/-- The operations. Those that give no address return that of their range. -/
inductive Step : Ranges → Op × Except AllocError Nat → Ranges → Prop where
  | addRange {R : Ranges} {addr size : Nat} (hs : 0 < size) (hd : ∀ a ∈ R.managed, a ∉ span addr size) :
      Step R (.addRange addr size, .ok addr) { R with managed := R.managed ∪ span addr size }
  /-- A removal that fails may have removed a part. -/
  | removeRange {R : Ranges} {M : Set Nat} {addr size : Nat} {r : Except AllocError Nat}
      (hle : R.managed \ (span addr size ∩ R.free) ⊆ M) (hM : M ⊆ R.managed)
      (hall : ∀ a, r = .ok a → M = R.managed \ span addr size) :
      Step R (.removeRange addr size, r) { R with managed := M }
  | allocAligned {R : Ranges} {size align beg fin a : Nat} (hs : 0 < size)
      (hf : span a size ⊆ R.free) (hal : 2 ^ align ∣ a) (hbeg : beg ≤ a) (hfin : a + size ≤ fin + 1) :
      Step R (.allocAligned size align beg fin, .ok a) (R.allocate a size)
  | allocAddr {R : Ranges} {size addr : Nat} (hs : 0 < size) (hf : span addr size ⊆ R.free) :
      Step R (.allocAddr size addr, .ok addr) (R.allocate addr size)
  | free {R : Ranges} {a : Nat} {r : Nat × Nat} (hr : r ∈ R.live) (ha : a ∈ span r.1 r.2) :
      Step R (.free a, .ok a) { R with live := R.live \ {r} }
  | freeNothing {R : Ranges} {a : Nat} (ha : ∀ r ∈ R.live, a ∉ span r.1 r.2) :
      Step R (.free a, .ok a) R
  | refused {R : Ranges} {op : Op} {e : AllocError} (hop : ∀ a, op ≠ .free a) :
      Step R (op, .error e) R

/-- An allocation at an address that succeeds. -/
theorem Step.of_allocAddr {R R' : Ranges} {size addr a : Nat}
    (h : Step R (.allocAddr size addr, .ok a) R') : a = addr ∧ 0 < size ∧ span addr size ⊆ R.free := by
  cases h with
  | allocAddr hs hf => exact ⟨rfl, hs, hf⟩

/-- What the blocks of a tree stand for. -/
def ofBlocks (B : Multiset Block) : Ranges where
  managed := {a | ∃ b ∈ B, b.Covers a}
  live := {r | ⟨r.1, r.2, true⟩ ∈ B}

variable {B C : Multiset Block} {b : Block} {a addr size : Nat}

theorem mem_managed : a ∈ (ofBlocks B).managed ↔ 0 < blockCover B a := cover_pos.symm

theorem mem_live : (addr, size) ∈ (ofBlocks B).live ↔ ⟨addr, size, true⟩ ∈ B := Iff.rfl

theorem mem_span : a ∈ span addr size ↔ addr ≤ a ∧ a < addr + size := Iff.rfl

/-- A used block covers the range that is handed out. -/
theorem mem_span_of_used (hb : b.Valid) (hu : b.used = true) : a ∈ span b.addr b.size ↔ b.Covers a := by
  rw [mem_span, Covers, stop_eq (hb.used hu)]

theorem mem_live_of_used (hb : b ∈ B) (hu : b.used = true) : (b.addr, b.size) ∈ (ofBlocks B).live := by
  rw [mem_live, ← hu]
  exact hb

/-- A free block covers free addresses, and only such blocks do. -/
theorem mem_free (hB : Sane B) : a ∈ (ofBlocks B).free ↔ ∃ b ∈ B, b.used = false ∧ b.Covers a := by
  constructor
  · rintro ⟨⟨b, hb, hc⟩, hno⟩
    refine ⟨b, hb, ?_, hc⟩
    by_contra hu
    have hu : b.used = true := by simpa using hu
    exact hno _ (mem_live_of_used hb hu) ((mem_span_of_used (hB.valid b hb) hu).mpr hc)
  · rintro ⟨b, hb, hu, hc⟩
    refine ⟨⟨b, hb, hc⟩, fun r hr ha => ?_⟩
    have hr' : ⟨r.1, r.2, true⟩ ∈ B := hr
    have hrc := (mem_span_of_used (hB.valid _ hr') rfl).mp ha
    have := hB.apart.eq hb hr' hc hrc
    simp [this] at hu

/-- Whoever has the same addresses and used blocks stands for the same. -/
theorem ofBlocks_eq {R : Ranges} (hm : ∀ a, 0 < blockCover B a ↔ a ∈ R.managed)
    (hl : ∀ addr size, ⟨addr, size, true⟩ ∈ B ↔ (addr, size) ∈ R.live) : ofBlocks B = R := by
  ext r
  · rw [mem_managed, hm]
  · exact hl r.1 r.2

end Ranges

open Ranges

variable {ι μ : Type} [DecidableEq ι] [Fintype ι] {D : Md ι μ} {root : ι} {X : Finset ι}
  {B B' C : Multiset Block} {m : μ} {s s' : AllocatorAvl ι μ} {b c : Block}
  {addr size align beg fin a n lo hi : Nat} {op : Op} {r : Except AllocError Nat}

/-! ## Blocks that are as large as they can be -/

omit [DecidableEq ι] [Fintype ι] in
/-- Free addresses in a row are in one block, if no two free blocks are
side by side. -/
theorem exists_block_of_span (hB : Sane B) (hno : NoNeighbours B) (hs : 0 < size)
    (hf : span addr size ⊆ (ofBlocks B).free) :
    ∃ b ∈ B, b.used = false ∧ b.addr ≤ addr ∧ addr + size ≤ b.stop := by
  induction size with
  | zero => omega
  | succ k ih =>
    by_cases hk : k = 0
    · subst hk
      obtain ⟨b, hb, hu, hc⟩ := (mem_free hB).mp (hf (mem_span.mpr ⟨le_rfl, by omega⟩))
      exact ⟨b, hb, hu, hc.1, hc.2⟩
    · have hsub : span addr k ⊆ span addr (k + 1) := fun a ha => ⟨ha.1, by have := ha.2; omega⟩
      obtain ⟨b, hb, hu, hba, hbs⟩ := ih (by omega) (hsub.trans hf)
      refine ⟨b, hb, hu, hba, ?_⟩
      by_contra hlt
      -- the block ends in front of the last address, where another free block starts
      obtain ⟨c, hc, hcu, hcc⟩ := (mem_free hB).mp (hf (mem_span.mpr ⟨Nat.le_add_right addr k, by omega⟩))
      have hstop : b.stop = addr + k := by omega
      refine hno b hb c hc hu hcu ?_
      have hca : c.addr = addr + k := by
        by_contra hne
        have hcb : c.Covers (addr + k - 1) := ⟨by have := hcc.1; omega, by have := hcc.2; omega⟩
        have hbc : b.Covers (addr + k - 1) := ⟨by omega, by omega⟩
        have hlast := hcc.2
        rw [← hB.apart.eq hb hc hbc hcb] at hlast
        omega
      omega

/-! ## What the operations do to the sets -/

omit [DecidableEq ι] [Fintype ι] in
theorem Adds.ofBlocks_eq (h : Adds B B' addr size) : ofBlocks B' =
    { ofBlocks B with managed := (ofBlocks B).managed ∪ span addr size } := by
  obtain ⟨-, hcov, d, C, rfl, hC, hu, -, -, hmerged⟩ := h
  refine Ranges.ofBlocks_eq (fun a => ?_) fun x y => ?_
  · rw [hcov, Set.mem_union, mem_managed, mem_span]
    split <;> simp [*]
  · rw [mem_live, Multiset.mem_cons]
    constructor
    · rintro (rfl | hc)
      · simp at hu
      · exact Multiset.mem_of_le hC hc
    · intro hc
      rcases hmerged _ hc with hc | ⟨hcu, -⟩
      · exact .inr hc
      · simp at hcu

omit [DecidableEq ι] [Fintype ι] in
theorem ofBlocks_allocated (hb : b.Valid) (hu : b.used = false) (hn : n < 2 ^ 64)
    (ho : b.Offers a n beg fin) : ofBlocks (⟨a, n, true⟩ ::ₘ (b.pieces a n + C)) =
      (ofBlocks (b ::ₘ C)).allocate a n := by
  refine Ranges.ofBlocks_eq (fun x => ?_) fun x y => ?_
  · rw [cover_allocated hb hn ho]
    exact mem_managed.symm
  · rw [allocate, Set.mem_insert_iff, mem_live, pieces_eq hb ho.addr_le ho.pos ho.le_stop]
    simp only [Multiset.mem_cons, Multiset.mem_add, mem_gap, Block.mk.injEq, and_true, Prod.mk.injEq]
    have hr : ∀ lo hi, (⟨x, y, true⟩ : Block) ≠ range lo hi false := fun lo hi h => by
      simpa using congrArg Block.used h
    have hb' : (⟨x, y, true⟩ : Block) ≠ b := fun h => by simp [← h] at hu
    simp [hr, hb']

omit [DecidableEq ι] [Fintype ι] in
/-- What is offered is free. -/
theorem span_subset_free (hB : Sane B) (hb : b ∈ B) (hu : b.used = false) (ho : b.Offers a n beg fin) :
    span a n ⊆ (ofBlocks B).free := by
  intro x hx
  obtain ⟨hx₁, hx₂⟩ := mem_span.mp hx
  have h₁ := ho.addr_le
  have h₂ := ho.le_stop
  exact (mem_free hB).mpr ⟨b, hb, hu, by omega, by omega⟩

omit [DecidableEq ι] [Fintype ι] in
theorem Removes.step (h : Removes B B' addr size) (hB : Sane B)
    (hall : ∀ a, r = .ok a → ∀ b ∈ B', ¬ Meets addr size b) :
    Step (ofBlocks B) (.removeRange addr size, r) (ofBlocks B') := by
  have heq : ofBlocks B' = { ofBlocks B with managed := (ofBlocks B').managed } :=
    Ranges.ext rfl (Set.ext fun x => h.used _ rfl)
  rw [heq]
  have hout : ∀ {x}, x ∈ (ofBlocks B).managed → x ∉ span addr size → x ∈ (ofBlocks B').managed := by
    intro x hx hxs
    rw [mem_managed, h.outside x hxs]
    exact mem_managed.mp hx
  have hle : (ofBlocks B').managed ⊆ (ofBlocks B).managed := fun x hx =>
    mem_managed.mpr ((mem_managed.mp hx).trans_le (h.cover_le x))
  refine .removeRange ?_ hle fun a ha => ?_
  · rintro x ⟨⟨b, hb, hc⟩, hx⟩
    by_cases hxs : x ∈ span addr size
    · -- an address of a used block stays
      by_cases hu : b.used = true
      · exact ⟨b, (h.used b hu).mpr hb, hc⟩
      · exact absurd ⟨hxs, (mem_free hB).mpr ⟨b, hb, by simpa using hu, hc⟩⟩ hx
    · exact hout ⟨b, hb, hc⟩ hxs
  · refine Set.Subset.antisymm (fun x hx => ⟨hle hx, fun hxs => ?_⟩) fun x hx => hout hx.1 hx.2
    obtain ⟨b, hb, hc⟩ := hx
    exact hall a ha b hb ⟨hc.1.trans_lt hxs.2, hxs.1.trans_lt hc.2⟩

/-! ## Calls -/

/-- The call with its result. -/
def call (D : Md ι μ) (root : ι) (s : AllocatorAvl ι μ) :
    Op → Exec (Except AllocError Nat × AllocatorAvl ι μ)
  | .addRange addr size => do
    let r ← s.addRange root D.mdAlloc addr size
    .ok (r.1.map fun _ => addr, r.2)
  | .removeRange addr size => do
    let r ← s.removeRange root D.mdAlloc addr size
    .ok (r.1.map fun _ => addr, r.2)
  | .allocAligned size align beg fin => s.allocAligned root D.mdAlloc size align beg fin
  | .allocAddr size addr => s.allocAddr root D.mdAlloc size addr
  | .free addr => do
    let s ← s.free root D.mdAlloc addr
    .ok (.ok addr, s)

/-- No range is added at either end of the address space. -/
def Op.Proper : Op → Prop
  | .addRange addr size => 0 < addr ∧ addr + size < 2 ^ 64
  | .removeRange addr size => addr + size ≤ 2 ^ 64
  | _ => True

/-- The calls that are considered. -/
def Op.Allowed (op : Op) : Prop := op.InWord ∧ op.Proper

/-- Calls with their results. -/
abbrev CallTrans (D : Md ι μ) (root : ι) := Called (fun _ => Op.Allowed) (call D root)

/-- The tree holds these blocks, which are apart from each other, from
both ends of the address space and, if they are free, not side by side. -/
structure Tidy (D : Md ι μ) (root : ι) (B : Multiset Block) (s : AllocatorAvl ι μ) : Prop where
  holds : ∃ X m, Holds D root X B m s
  sane : Sane B
  inner : Inner B
  noNeighbours : NoNeighbours B

/-- A call returns and does what it does to the sets. -/
def Steps (D : Md ι μ) (root : ι) (B : Multiset Block) (s : AllocatorAvl ι μ) (op : Op) : Prop :=
  ∃ r B' s', call D root s op = .ok (r, s') ∧ Tidy D root B' s' ∧
    Step (ofBlocks B) (op, r) (ofBlocks B')

omit [DecidableEq ι] [Fintype ι] in
theorem Inner.of_cover (hin : Inner B) (hB : Sane B) (hB' : Sane B')
    (h : ∀ a, a = 0 ∨ a = 2 ^ 64 - 1 → blockCover B' a ≤ blockCover B a) : Inner B' := by
  rw [inner_iff hB'.valid]
  obtain ⟨h₀, h₁⟩ := (inner_iff hB.valid).mp hin
  have := h 0 (.inl rfl)
  have := h (2 ^ 64 - 1) (.inr rfl)
  omega

theorem steps_of_refused {r : Exec (Except AllocError Nat × AllocatorAvl ι μ)} (h : Tidy D root B s)
    (hr : Refused D root X B m r) (hc : call D root s op = r) (hop : ∀ a, op ≠ .free a) :
    Steps D root B s op := by
  obtain ⟨e, m', s', rfl, -, h'⟩ := hr
  exact ⟨.error e, B, s', hc, ⟨⟨X, m', h'⟩, h.sane, h.inner, h.noNeighbours⟩, .refused hop⟩

namespace Tidy

variable (h : Tidy D root B s)

include h

omit [Fintype ι] in
/-- What `add_range` makes of the blocks of a tree. -/
theorem add (hadd : Adds B B' addr size) (hm : NoNeighbours B') (hlo : 0 < addr)
    (hhi : addr + size < 2 ^ 64) (h' : ∃ X m, Holds D root X B' m s') : Tidy D root B' s' := by
  refine ⟨h', hadd.sane, h.inner.of_cover h.sane hadd.sane fun a ha => ?_, hm⟩
  rw [hadd.cover, if_neg (by omega), Nat.add_zero]

theorem step_addRange (hw : size < 2 ^ 64) (hlo : 0 < addr) (hhi : addr + size < 2 ^ 64) :
    Steps D root B s (.addRange addr size) := by
  obtain ⟨⟨X, m, hH⟩, hB, -, hno⟩ := id h
  rcases hH.addRange addr size with ⟨⟨e, m', s', hs, -, h'⟩, -⟩ | hok
  · refine ⟨.error e, B, s', ?_, ⟨⟨X, m', h'⟩, hB, h.inner, hno⟩, .refused (by simp)⟩
    rw [call, hs]
    rfl
  · obtain ⟨p, q, C, X', m', s', hs, hpos, -, hhit, hm, h'⟩ := hok
    have hv := vacant_of_not_hits hB hpos hw hhi.le hhit
    have hadd := hm.adds hv fun hend => absurd hend hhi.ne
    refine ⟨.ok addr, _, s', ?_, h.add hadd (hm.noNeighbours hv hhi hno) hlo hhi ⟨X', m', h'⟩, ?_⟩
    · rw [call, hs]
      rfl
    · rw [hadd.ofBlocks_eq]
      refine .addRange hpos (fun a ⟨b, hb, hc⟩ ha => ?_)
      have := hv.vacant b hb (hc.1.trans_lt ha.2)
      have := ha.1
      have := hc.2
      omega

theorem step_removeRange (hle : addr + size ≤ 2 ^ 64) :
    Steps D root B s (.removeRange addr size) := by
  obtain ⟨⟨X, m, hH⟩, hB, -, hno⟩ := id h
  by_cases hs : size = 0
  · refine ⟨.error .denied, B, s, ?_, h, .refused (by simp)⟩
    rw [call, AllocatorAvl.removeRange, if_pos hs]
    rfl
  have hround : ∀ b C, Sane (b ::ₘ C) → b.avail ≠ 0 → Meets addr size b → NoNeighbours (b ::ₘ C) →
      NoNeighbours (b.pieces (max addr b.addr) (min (addr + size) b.stop - max addr b.addr) + C) := by
    intro b C hbC hav hm hn
    have hu : b.used = false := by
      by_contra hc
      simp [avail, hc] at hav
    have := hm.1
    have := hm.2
    have := hbC.valid_head.lt_stop
    exact noNeighbours_cut hbC hu (by omega) (le_max_right _ _) (by omega) hn
  obtain ⟨r, X', B', m', s', hs, h', hrem, hno', hall⟩ := hH.removeRange_rounds hround hB hno hle
  refine ⟨r.map fun _ => addr, B', s', ?_, ⟨⟨X', m', h'⟩, hrem.sane, ?_, hno'⟩, ?_⟩
  · rw [call, hs]
    rfl
  · exact h.inner.of_cover hB hrem.sane fun a _ => hrem.cover_le a
  · refine hrem.step hB fun a ha => hall ?_
    cases r with
    | error e => simp [Except.map] at ha
    | ok u => rfl

omit [Fintype ι] in
/-- A range is taken out of a free block. -/
theorem allocated (hBC : B = b ::ₘ C) (hu : b.used = false) (hn : n < 2 ^ 64)
    (ho : b.Offers a n beg fin)
    (h' : Holds D root X (⟨a, n, true⟩ ::ₘ (b.pieces a n + C)) m s') :
    Tidy D root (⟨a, n, true⟩ ::ₘ (b.pieces a n + C)) s' := by
  subst hBC
  have hB' := sane_allocated h.sane hn ho
  refine ⟨⟨X, m, h'⟩, hB', h.inner.of_cover h.sane hB' fun a _ => ?_, ?_⟩
  · exact (cover_allocated h.sane.valid_head hn ho).le
  · rw [noNeighbours_cons_used rfl]
    exact noNeighbours_cut h.sane hu ho.pos ho.addr_le ho.le_stop h.noNeighbours

theorem step_allocAligned (hp : D.Prompt) (hn : size < 2 ^ 64) (hbeg : beg < 2 ^ 64) :
    Steps D root B s (.allocAligned size align beg fin) := by
  obtain ⟨⟨X, m, hH⟩, hB, hin, -⟩ := id h
  rcases hH.allocAligned size align beg fin with hr | hok | ⟨hnp, -⟩
  · exact steps_of_refused h hr rfl (by simp)
  · obtain ⟨b, C, X', m', s', hs, hBC, hu, hf, h'⟩ := hok
    have hb : b ∈ B := hBC ▸ Multiset.mem_cons_self b C
    have ho : b.Offers (b.place align beg) size beg fin :=
      (offers_iff (hB.valid b hb) hu hn hbeg hf).mpr fun h0 => absurd h0 (hin b hb).1.ne'
    refine ⟨_, _, s', hs, h.allocated hBC hu hn ho h', ?_⟩
    have hfree := span_subset_free hB hb hu ho
    subst hBC
    rw [ofBlocks_allocated hB.valid_head hu hn ho]
    exact .allocAligned ho.pos hfree dvd_alignAddr ho.beg_le ho.le_fin
  · exact absurd hp hnp

theorem step_allocAddr (hp : D.Prompt) (hn : size < 2 ^ 64) (ha : addr < 2 ^ 64) :
    Steps D root B s (.allocAddr size addr) := by
  obtain ⟨⟨X, m, hH⟩, hB, hin, -⟩ := id h
  rcases hH.allocAddr ha size with hr | hok | ⟨hnp, -⟩
  · exact steps_of_refused h hr rfl (by simp)
  · obtain ⟨b, C, X', m', s', hs, hsum, hBC, hu, hh, h'⟩ := hok
    have hb : b ∈ B := hBC ▸ Multiset.mem_cons_self b C
    have hc : (Op.allocAddr size addr).Careful B := hin.careful hB trivial
    have ho := Holds.offers_of_hits hB ⟨hn, ha⟩ hc hsum hBC hu hh
    refine ⟨_, _, s', hs, h.allocated hBC hu hn ho h', ?_⟩
    have hfree := span_subset_free hB hb hu ho
    subst hBC
    rw [ofBlocks_allocated hB.valid_head hu hn ho]
    exact .allocAddr ho.pos hfree
  · exact absurd hp hnp

omit [Fintype ι] in
/-- `free` takes the range from those handed out; its addresses stay managed. -/
theorem freed (hBC : B = b ::ₘ C) (hu : b.used = true) (hadd : Adds C B' b.addr b.size) :
    ofBlocks B' = { ofBlocks B with live := (ofBlocks B).live \ {(b.addr, b.size)} } := by
  have hB := h.sane
  subst hBC
  have hb := hB.valid_head
  rw [hadd.ofBlocks_eq]
  refine Ranges.ext ?_ ?_
  · ext x
    rw [Set.mem_union, mem_managed, mem_managed, blockCover_cons, mem_span_of_used hb hu, Covers]
    split <;> simp [*]
  · ext ⟨x, y⟩
    rw [Set.mem_sdiff, mem_live, mem_live, Multiset.mem_cons, Set.mem_singleton_iff, Prod.mk.injEq]
    constructor
    · intro hc
      refine ⟨.inr hc, ?_⟩
      rintro ⟨rfl, rfl⟩
      -- the block is not there twice
      exact hB.apart.rest hb.covers_addr hc ⟨le_rfl, (hB.of_cons.valid _ hc).lt_stop⟩
    · rintro ⟨rfl | hc, hne⟩
      · simp at hne
      · exact hc

theorem step_free (hp : D.Prompt) (ha : a < 2 ^ 64) : Steps D root B s (.free a) := by
  obtain ⟨⟨X, m, hH⟩, hB, hin, hno⟩ := id h
  rcases hH.free a with ⟨hs, hnone⟩ | hused
  · refine ⟨.ok a, B, s, ?_, h, .freeNothing fun r hr hra => ?_⟩
    · rw [call, hs]
      rfl
    · have hr' : ⟨r.1, r.2, true⟩ ∈ B := hr
      have := hnone hB ha _ hr' ((mem_span_of_used (hB.valid _ hr') rfl).mp hra)
      simp at this
  · obtain ⟨b, C, X₁, m₁, s₁, hBC, hu, hh, h₁, hready, hs⟩ := hused
    have hb : b ∈ B := hBC ▸ Multiset.mem_cons_self b C
    have hval := hB.valid b hb
    have hstop : b.stop = b.addr + b.size := stop_eq (hval.used hu)
    have hpos := hval.used hu
    obtain ⟨hlo, hhi⟩ := hin b hb
    have hcov := (hits_address hval ha).mp hh
    have hC : C ≤ B := hBC ▸ Multiset.le_cons_self C b
    have hBC' := hB
    rw [hBC] at hBC'
    -- no other block has an address of the range
    have hvac : ∀ d ∈ C, d.addr < b.addr + b.size → d.stop ≤ b.addr := by
      intro d hd hda
      by_contra hlt
      have hdv := (hBC'.of_cons.valid d hd).lt_stop
      refine hBC'.apart.rest (a := max b.addr d.addr) ?_ hd ?_
      · exact ⟨le_max_left _ _, by omega⟩
      · exact ⟨le_max_right _ _, by omega⟩
    rcases h₁.addRange b.addr b.size with ⟨-, hwhy⟩ | hok
    · exfalso
      rcases hwhy with h0 | ⟨d, hd, hh'⟩ | hnr
      · omega
      · rw [hits_overlap (hBC'.of_cons.valid d hd) hpos (by omega)] at hh'
        have := hvac d hd hh'.1
        omega
      · exact hnr (hready hp)
    · obtain ⟨p, q, E, X', m', s', hs', -, -, -, hm, h'⟩ := hok
      have hv : Vacant C b.addr b.size := ⟨hBC'.of_cons, hpos, hval.size_lt, by omega, hvac⟩
      have hadd := hm.adds hv fun hend => by omega
      have hm' := hm.noNeighbours hv (by omega) (hno.le hC)
      refine ⟨.ok a, _, s', ?_, ⟨⟨X', m', h'⟩, hadd.sane, ?_, hm'⟩, ?_⟩
      · rw [call, hs, hs']
        rfl
      · refine hin.of_cover hB hadd.sane fun x hx => ?_
        rw [hadd.cover, if_neg (by omega), Nat.add_zero]
        exact Multiset.countP_le_of_le _ hC
      · rw [h.freed hBC hu hadd]
        exact .free (mem_live_of_used hb hu) ((mem_span_of_used hval hu).mpr hcov)

theorem steps (hp : D.Prompt) (hw : op.InWord) (hop : op.Proper) : Steps D root B s op := by
  cases op with
  | addRange addr size => exact h.step_addRange hw.2 hop.1 hop.2
  | removeRange addr size => exact h.step_removeRange hop
  | allocAligned size align beg fin => exact h.step_allocAligned hp hw.1 hw.2.1
  | allocAddr size addr => exact h.step_allocAddr hp hw.1 hw.2
  | free addr => exact h.step_free hp hw

end Tidy

/-! ## Runs -/

/-- The sets that a list of blocks stands for, whose free blocks are as
large as they can be. -/
structure Represents (R : Ranges) (L : List Block) : Prop where
  managed : ∀ a, a ∈ R.managed ↔ ∃ b ∈ L, b.Covers a
  live : ∀ addr size, (addr, size) ∈ R.live ↔ ⟨addr, size, true⟩ ∈ L
  apart : ∀ a, L.countP (fun b => decide (b.Covers a)) ≤ 1
  free : ∀ addr size, 0 < size → span addr size ⊆ R.free →
    ∃ b ∈ L, b.used = false ∧ b.addr ≤ addr ∧ addr + size ≤ b.stop

/-- What the blocks of the tree stand for. -/
def AllocatorAvl.ranges (s : AllocatorAvl ι μ) (root : ι) : Ranges :=
  ofBlocks (s.blockList root : Multiset Block)

namespace Tidy

theorem coe_blockList (h : Tidy D root B s) : (s.blockList root : Multiset Block) = B := by
  obtain ⟨⟨X, m, hH⟩, -⟩ := h
  exact hH.coe_blockList

theorem ranges_eq (h : Tidy D root B s) : s.ranges root = ofBlocks B := by
  rw [AllocatorAvl.ranges, h.coe_blockList]

theorem represents (h : Tidy D root B s) : Represents (s.ranges root) (s.blockList root) := by
  have hB := h.sane
  have hno := h.noNeighbours
  rw [← h.coe_blockList] at hB hno
  exact ⟨fun a => Iff.rfl, fun x y => Iff.rfl,
    fun a => by simpa [cover] using hB.apart a, fun _ _ hs hf => exists_block_of_span hB hno hs hf⟩

end Tidy

variable {hist : List (AllocatorAvl ι μ × Op × Except AllocError Nat)}

/-- Every run of the allocator is a run of the sets, with the same calls and results. -/
theorem tidy_of_run (hp : D.Prompt) (h : Run (Init D root) (CallTrans D root) hist s) :
    (∃ B, Tidy D root B s) ∧
      Run (· = Ranges.empty) Step (hist.map fun e => (e.1.ranges root, e.2)) (s.ranges root) := by
  refine h.refines (I := fun s => ∃ B, Tidy D root B s) (fun s => s.ranges root)
    (fun s hs => ?_) fun s op hI hop => ?_
  · have ht : Tidy D root 0 s :=
      ⟨⟨∅, s.md, holds_of_init hs⟩, sane_zero, by simp [Inner], by simp [NoNeighbours]⟩
    refine ⟨⟨0, ht⟩, ?_⟩
    rw [ht.ranges_eq]
    exact Ranges.ofBlocks_eq (by simp [Ranges.empty]) (by simp [Ranges.empty])
  · obtain ⟨B, hB⟩ := hI
    obtain ⟨r, B', s', hs', h', hstep⟩ := hB.steps hp hop.1 hop.2
    refine ⟨r, s', hs', ⟨B', h'⟩, ?_⟩
    rw [hB.ranges_eq, h'.ranges_eq]
    exact hstep

/-- Away from the ends of the address space, the allocator does what an
allocator of address ranges should do: in every run each call returns,
and does to the managed addresses and the ranges handed out what its
result says. -/
theorem refines_ranges (hp : D.Prompt) (h : Run (Init D root) (CallTrans D root) hist s) :
    Run (· = Ranges.empty) Step (hist.map fun e => (e.1.ranges root, e.2)) (s.ranges root) ∧
      Represents (s.ranges root) (s.blockList root) ∧
      ∀ op : Op, op.InWord → op.Proper → ∃ r s', call D root s op = .ok (r, s') := by
  obtain ⟨⟨B, hB⟩, hrun⟩ := tidy_of_run hp h
  refine ⟨hrun, hB.represents, fun op hw hop => ?_⟩
  obtain ⟨r, B', s', hs', -⟩ := hB.steps hp hw hop
  exact ⟨r, s', hs'⟩

/-! ## Ranges that can be had -/

/-- A block that the search finds is cut, if there is metadata for two parts. -/
theorem Holds.allocate_of_found (hp : D.Prompt) (h : Holds D root X B m s)
    {search : AllocatorAvl ι μ → ι → Exec (Option ι)} {b₁ b₂ : ι} {s₁ : AllocatorAvl ι μ}
    (hs₁ : s.allocTwoBlocksMetadata D.mdAlloc = .ok (.ok (b₁, b₂), s₁))
    (hsearch : ∀ {m s}, Holds D root X B m s → ∃ x ∈ X, (s.block x).used = false ∧
      (s.nodes.child root false).elim (.ok none) (search s) = .ok (some x)) :
    ∃ a s', s.allocate root D.mdAlloc size align beg search = .ok (.ok a, s') := by
  rcases h.allocTwoBlocksMetadata with ⟨x, y, m', s', hs, hpair, h₁⟩ | ⟨e, m', s', hs, -⟩
  swap
  · simp [hs] at hs₁
  obtain ⟨⟨rfl, rfl⟩, rfl⟩ : (x = b₁ ∧ y = b₂) ∧ s' = s₁ := by simpa [hs] using hs₁
  obtain ⟨z, hz, hu, hfound⟩ := hsearch h₁
  obtain ⟨C, X', m₂, s₂, hs₂, -, h₂, hready⟩ := h₁.cutFromBlock hz hpair.spare_left
    hpair.spare_right hpair.ne ((s'.block z).place align beg) size
  obtain ⟨w, m₃, s₃, hs₃, hsp, h₃⟩ := h₂.allocBlockMetadata_ready (hready hp)
  obtain ⟨s₄, hs₄, -⟩ := h₃.addBlock hsp ⟨(s'.block z).place align beg, size, true⟩
  have hfilter : (some z).filter (fun x => !(s'.block x).used) = some z := by
    simp [Option.filter, hu]
  refine ⟨(s'.block z).place align beg, s₄, ?_⟩
  simp only [AllocatorAvl.allocate, hs₁, Exec.ok_bind, hfound, hfilter]
  change (s'.cutFromBlock root D.mdAlloc z ((s'.block z).place align beg) size x y >>= _) = _
  simp only [hs₂, Exec.ok_bind, hs₃]
  change (s₃.addBlock root w ⟨(s'.block z).place align beg, size, true⟩ >>= _) = _
  simp only [hs₄, Exec.ok_bind]
  rfl

theorem Tidy.allocAddr_of_free (hp : D.Prompt) (h : Tidy D root B s) {b₁ b₂ : ι}
    {s₁ : AllocatorAvl ι μ} (hs₁ : s.allocTwoBlocksMetadata D.mdAlloc = .ok (.ok (b₁, b₂), s₁))
    (hs : 0 < size) (hf : span addr size ⊆ (ofBlocks B).free) :
    ∃ a s', s.allocAddr root D.mdAlloc size addr = .ok (.ok a, s') := by
  obtain ⟨⟨X, m, hH⟩, hB, hin, hno⟩ := id h
  obtain ⟨b, hb, hu, hba, hbs⟩ := exists_block_of_span hB hno hs hf
  have hlt := (hin b hb).2
  have hsum : sumInRange addr size = true :=
    (sumInRange_iff (by omega) (by omega)).mpr (.inl ⟨hs, by omega⟩)
  have hlast : addr ≤ lastOf addr size := by
    rw [lastOf_eq hs (by omega)]
    omega
  have hhits : b.Hits addr (lastOf addr size) false :=
    (hits_range (hB.valid b hb) hs (by omega)).mpr ⟨hba, hbs⟩
  rw [AllocatorAvl.allocAddr, if_pos hsum]
  refine hH.allocate_of_found hp hs₁ fun {m' s'} h' => ?_
  have hfound : ∃ r, s'.findByAddress root addr size false = .ok r ∧
      ∀ x, r = some x → x ∈ X ∧ (s'.block x).Hits addr (lastOf addr size) false := h'.findByAddress
  obtain ⟨r, hr, hx⟩ := hfound
  cases r with
  | none => exact absurd hhits (h'.findByAddress_none hB hlast hr hb)
  | some x =>
    obtain ⟨hxX, hxh⟩ := hx x rfl
    refine ⟨x, hxX, ?_, hr⟩
    -- the block that is found is the free one
    have hxb := h'.block_mem hxX
    have hxc := (hits_range (hB.valid _ hxb) hs (by omega)).mp hxh
    have hcov : b.Covers addr := ⟨hba, by omega⟩
    have hxcov : (s'.block x).Covers addr := ⟨hxc.1, by omega⟩
    rw [← hB.apart.eq hb hxb hcov hxcov]
    exact hu

/-- A range can be had at an address exactly if all of it is free. How it
came to be free does not matter: it may lie across ranges that were added,
allocated and freed one by one. -/
theorem allocAddr_iff_free (hp : D.Prompt) (h : Run (Init D root) (CallTrans D root) hist s)
    (hn : size < 2 ^ 64) (ha : addr < 2 ^ 64)
    (hmd : ∃ p s₁, s.allocTwoBlocksMetadata D.mdAlloc = .ok (.ok p, s₁)) :
    (∃ s', s.allocAddr root D.mdAlloc size addr = .ok (.ok addr, s')) ↔
      0 < size ∧ span addr size ⊆ (s.ranges root).free := by
  obtain ⟨⟨B, hB⟩, -⟩ := tidy_of_run hp h
  obtain ⟨⟨b₁, b₂⟩, s₁, hs₁⟩ := hmd
  obtain ⟨r, B', s', hs', -, hstep⟩ := hB.step_allocAddr hp hn ha
  have hs'' : s.allocAddr root D.mdAlloc size addr = .ok (r, s') := hs'
  rw [hB.ranges_eq]
  constructor
  · rintro ⟨s₂, hs₂⟩
    obtain ⟨rfl, rfl⟩ : r = .ok addr ∧ s' = s₂ := by simpa [hs''] using hs₂
    exact hstep.of_allocAddr.2
  · rintro ⟨hs, hf⟩
    obtain ⟨a, s₂, hs₂⟩ := hB.allocAddr_of_free hp hs₁ hs hf
    obtain ⟨rfl, rfl⟩ : r = .ok a ∧ s' = s₂ := by simpa [hs''] using hs₂
    obtain rfl : a = addr := hstep.of_allocAddr.1
    exact ⟨s', hs''⟩

/-! ## Executed runs -/

instance : DecidablePred Op.Proper
  | .addRange _ _ => inferInstanceAs (Decidable (_ ∧ _))
  | .removeRange _ _ => inferInstanceAs (Decidable (_ ≤ _))
  | .allocAligned _ _ _ _ => inferInstanceAs (Decidable True)
  | .allocAddr _ _ => inferInstanceAs (Decidable True)
  | .free _ => inferInstanceAs (Decidable True)

instance : DecidablePred Op.Allowed := fun op => inferInstanceAs (Decidable (op.InWord ∧ op.Proper))

theorem exists_call_run (k : Nat) [NeZero k] (ops : List Op)
    {p : List (AllocatorAvl (Fin k) (Finset (Fin k)) × Op × Except AllocError Nat) ×
      AllocatorAvl (Fin k) (Finset (Fin k)) → Prop} [DecidablePred p]
    (h : (replay (attempt (fun _ => Op.Allowed) (call (stock k) 0)) ops ([], empty k)).any
      (fun r => decide (p r)) = true) :
    ∃ (hist : List (AllocatorAvl (Fin k) (Finset (Fin k)) × Op × Except AllocError Nat))
      (s : AllocatorAvl (Fin k) (Finset (Fin k))),
      Run (Init (stock k) 0) (CallTrans (stock k) 0) hist s ∧ p (hist, s) :=
  exists_called_run (init_empty k) ops h

/-- Two ranges side by side, of which the first is removed after an
allocation across their border was freed. -/
theorem refines_ranges_border :
    ∃ (hist : List (AllocatorAvl (Fin 8) (Finset (Fin 8)) × Op × Except AllocError Nat))
      (s : AllocatorAvl (Fin 8) (Finset (Fin 8))), hist.length = 6 ∧
      Run (· = Ranges.empty) Step (hist.map fun e => (e.1.ranges 0, e.2)) (s.ranges 0) ∧
      Represents (s.ranges 0) [⟨0x2000, 0x1000, false⟩] ∧
      ∀ op : Op, op.InWord → op.Proper → ∃ r s', call (stock 8) 0 s op = .ok (r, s') := by
  obtain ⟨hist, s, h, hlen, hL⟩ := exists_call_run 8
    [.addRange 0x1000 0x1000, .addRange 0x2000 0x1000, .allocAddr 0x800 0x1c00,
      .allocAligned 0x1000 12 0 0xffff, .free 0x1fff, .removeRange 0x1000 0x1000]
    (p := fun r => r.1.length = 6 ∧ r.2.blockList 0 = [⟨0x2000, 0x1000, false⟩])
    (by decide +kernel)
  have href := refines_ranges (stock_prompt 8) h
  rw [hL] at href
  exact ⟨hist, s, hlen, href⟩

/-- The whole of two ranges that were added one after the other. -/
theorem allocAddr_iff_free_across :
    ∃ (hist : List (AllocatorAvl (Fin 8) (Finset (Fin 8)) × Op × Except AllocError Nat))
      (s : AllocatorAvl (Fin 8) (Finset (Fin 8))),
      s.blockList 0 = [⟨0x1000, 0x2000, false⟩] ∧
      Run (Init (stock 8) 0) (CallTrans (stock 8) 0) hist s ∧
      ((∃ s', s.allocAddr 0 (stock 8).mdAlloc 0x2000 0x1000 = .ok (.ok 0x1000, s')) ↔
        0 < 0x2000 ∧ span 0x1000 0x2000 ⊆ (s.ranges 0).free) := by
  obtain ⟨hist, s, h, hL, hmd⟩ := exists_call_run 8
    [.addRange 0x2000 0x1000, .allocAddr 0x800 0x2400, .addRange 0x1000 0x1000, .free 0x2400]
    (p := fun r => r.2.blockList 0 = [⟨0x1000, 0x2000, false⟩] ∧ (do
      let t ← r.2.allocTwoBlocksMetadata (stock 8).mdAlloc
      .ok t.1 : Exec (Except AllocError (Fin 8 × Fin 8))) = .ok (.ok (2, 3)))
    (by decide +kernel)
  obtain ⟨⟨r, s₁⟩, hs₁, hr⟩ := Exec.bind_eq_ok.mp hmd
  obtain rfl : r = .ok (2, 3) := by simpa using hr
  exact ⟨hist, s, hL, h, allocAddr_iff_free (stock_prompt 8) h (by omega) (by omega) ⟨_, s₁, hs₁⟩⟩

end Genode.Base
