import Mathlib.Algebra.BigOperators.Group.Finset.Basic
import Mathlib.Algebra.BigOperators.Pi
import Mathlib.Algebra.Order.BigOperators.Group.Multiset
import Mathlib.Data.Multiset.AddSub

/-!
# StoredTree — trees whose nodes are blocks of a store

A node is known by a reference, which leads to the block that holds the
references to its children; the blocks of the lowest level hold leaves.
What a tree consists of is kept as two bags, the references of its nodes
and its leaves, so that rearranging a tree is an equation between bags.
-/

namespace Genode.Lib

section Sums

variable {ι M : Type} [DecidableEq ι] [AddCommMonoid M] {s : Finset ι} {f g : ι → M}

/-- Two sums that differ at one place have the rest in common. -/
theorem sum_split {i : ι} (hi : i ∈ s) (h : ∀ j ∈ s, j ≠ i → f j = g j) :
    ∃ a, ∑ j ∈ s, f j = a + f i ∧ ∑ j ∈ s, g j = a + g i := by
  have hrest : ∑ j ∈ s.erase i, f j = ∑ j ∈ s.erase i, g j := by
    apply Finset.sum_congr rfl
    intro j hj
    obtain ⟨hji, hj⟩ := Finset.mem_erase.mp hj
    exact h j hj hji
  refine ⟨∑ j ∈ s.erase i, f j, (Finset.sum_erase_add s f hi).symm, ?_⟩
  rw [hrest]
  exact (Finset.sum_erase_add s g hi).symm

theorem sum_add_swap {i : ι} (hi : i ∈ s) (h : ∀ j ∈ s, j ≠ i → f j = g j) :
    ∑ j ∈ s, f j + g i = ∑ j ∈ s, g j + f i := by
  obtain ⟨a, hf, hg⟩ := sum_split hi h
  rw [hf, hg, add_right_comm]

/-- Two sums that differ at two places. -/
theorem sum_add_swap₂ {i k : ι} (hi : i ∈ s) (hk : k ∈ s) (hik : i ≠ k)
    (h : ∀ j ∈ s, j ≠ i → j ≠ k → f j = g j) :
    ∑ j ∈ s, f j + (g i + g k) = ∑ j ∈ s, g j + (f i + f k) := by
  have h₁ : ∑ j ∈ s, f j + Function.update f i (g i) i =
      ∑ j ∈ s, Function.update f i (g i) j + f i := by
    apply sum_add_swap (g := Function.update f i (g i)) hi
    intro j _ hji
    rw [Function.update_of_ne hji]
  have h₂ : ∑ j ∈ s, Function.update f i (g i) j + g k =
      ∑ j ∈ s, g j + Function.update f i (g i) k := by
    apply sum_add_swap (f := Function.update f i (g i)) hk
    intro j hj hjk
    by_cases hji : j = i
    · rw [hji, Function.update_self]
    · rw [Function.update_of_ne hji, h j hj hji hjk]
  rw [Function.update_self] at h₁
  rw [Function.update_of_ne (Ne.symm hik)] at h₂
  rw [← add_assoc, h₁, add_right_comm, h₂, add_right_comm, add_assoc]

end Sums

/-- How the blocks of a tree refer to one another. -/
structure TreeLayout (Addr Blk Ref Leaf ι : Type) where
  addr : Ref → Addr
  child : Blk → ι → Option Ref
  leaves : Blk → Multiset Leaf

namespace TreeLayout

variable {Addr Blk Ref Leaf ι : Type} [Fintype ι] {L : TreeLayout Addr Blk Ref Leaf ι}
  {d d' : Addr → Blk} {h : Nat} {n r : Ref} {a : Addr} {b : Blk}

/-- The nodes and the leaves of the tree of a given height. -/
def content (L : TreeLayout Addr Blk Ref Leaf ι) (d : Addr → Blk) :
    Nat → Ref → Multiset Ref × Multiset Leaf
  | 0, n => ({n}, L.leaves (d (L.addr n)))
  | h + 1, n => ({n}, 0) + ∑ i, (L.child (d (L.addr n)) i).elim 0 (content L d h)

/-- What the children of a node consist of, taken over some of its slots. -/
def below (L : TreeLayout Addr Blk Ref Leaf ι) (d : Addr → Blk) (h : Nat) (child : ι → Option Ref)
    (s : Finset ι) : Multiset Ref × Multiset Leaf :=
  ∑ i ∈ s, (child i).elim 0 (L.content d h)

theorem content_succ : L.content d (h + 1) n =
    ({n}, 0) + L.below d h (L.child (d (L.addr n))) Finset.univ := rfl

theorem self_mem_content : n ∈ (L.content d h n).1 := by
  cases h with
  | zero => exact Multiset.mem_singleton_self n
  | succ h =>
    rw [content_succ]
    exact Multiset.mem_add.mpr (.inl (Multiset.mem_singleton_self n))

theorem fst_below {child : ι → Option Ref} {s : Finset ι} : (L.below d h child s).1 =
    ∑ i ∈ s, ((child i).elim 0 (L.content d h)).1 := Prod.fst_sum

theorem mem_below {child : ι → Option Ref} {s : Finset ι} : r ∈ (L.below d h child s).1 ↔
    ∃ i ∈ s, ∃ c, child i = some c ∧ r ∈ (L.content d h c).1 := by
  rw [fst_below, Multiset.mem_sum]
  apply exists_congr
  intro i
  apply and_congr Iff.rfl
  cases child i with
  | none => simp
  | some c => simp

theorem below_congr {child : ι → Option Ref} {s : Finset ι}
    (hc : ∀ i ∈ s, ∀ c, child i = some c → L.content d' h c = L.content d h c) :
    L.below d' h child s = L.below d h child s := by
  apply Finset.sum_congr rfl
  intro i hi
  cases hchild : child i with
  | none => rfl
  | some c => exact hc i hi c hchild

/-- A tree depends on the blocks of its nodes only. -/
theorem content_congr (hd : ∀ r ∈ (L.content d h n).1, d' (L.addr r) = d (L.addr r)) :
    L.content d' h n = L.content d h n := by
  induction h generalizing n with
  | zero =>
    rw [content, content, hd n self_mem_content]
  | succ h ih =>
    rw [content_succ, content_succ, hd n self_mem_content]
    congr 1
    apply below_congr
    intro i hi c hc
    apply ih
    intro r hr
    apply hd
    rw [content_succ]
    exact Multiset.mem_add.mpr (.inr (mem_below.mpr ⟨i, hi, c, hc, hr⟩))

variable [DecidableEq Addr]

/-- Writing a block of no node of the tree. -/
theorem content_update (ha : a ∉ (L.content d h n).1.map L.addr) :
    L.content (Function.update d a b) h n = L.content d h n := by
  apply content_congr
  intro r hr
  apply Function.update_of_ne
  intro hra
  exact ha (Multiset.mem_map.mpr ⟨r, hr, hra⟩)

theorem below_update {child : ι → Option Ref} {s : Finset ι}
    (ha : a ∉ (L.below d h child s).1.map L.addr) :
    L.below (Function.update d a b) h child s = L.below d h child s := by
  apply below_congr
  intro i hi c hc
  apply content_update
  intro hmem
  obtain ⟨r, hr, hra⟩ := Multiset.mem_map.mp hmem
  exact ha (Multiset.mem_map.mpr ⟨r, mem_below.mpr ⟨i, hi, c, hc, hr⟩, hra⟩)

end TreeLayout

end Genode.Lib
