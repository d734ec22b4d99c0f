import Genode.Base.Metadata
import Genode.Util.BitAllocator

/-!
# TableAllocator — which tables of an array are in use

`base-hw/src/include/hw/page_table_allocator.h`. The allocator of an array
of tables is a bit allocator, with one bit for each table.
-/

namespace Genode.Hw

open Lib Util
open Base (Md AllocError)

/-- A table as a block of the bit allocator. -/
def bitOf {n : Nat} (i : Fin n) : Nat × Nat := (i, 0)

/-- `Page_table_allocator::Array::Allocator`, together with the tables in
use. -/
structure TableAllocator (n : Nat) where
  freeTables : BitAllocator
  used : Finset (Fin n)
  inv : BitAllocator.Inv n freeTables (used.image bitOf)

namespace TableAllocator

variable {n : Nat}

theorem bitOf_injective : Function.Injective (bitOf (n := n)) := fun _ _ h =>
  Fin.ext (Prod.mk.inj h).1

theorem apart_iff {i j : Nat} : BitAllocator.Apart (i, 0) (j, 0) ↔ i ≠ j := by
  unfold BitAllocator.Apart BitAllocator.Covers BitArray.InRange
  dsimp only
  constructor
  · rintro h rfl
    exact h i ⟨⟨le_rfl, by omega⟩, le_rfl, by omega⟩
  · rintro hne k ⟨⟨h₁, h₂⟩, h₃, h₄⟩
    omega

def new (n : Nat) : TableAllocator n := ⟨.init n, ∅, BitAllocator.inv_init n⟩

section Alloc

variable (hn : n < 2 ^ 32) (m : TableAllocator n)
include hn

theorem bits_lt : m.freeTables.array.bits < 18446744073709551615 := by
  rw [m.inv.wordCnt, BitAllocator.alignedBits]
  omega

/-- A table is found that is not in use. -/
theorem alloc_ok {i : Nat} {s : BitAllocator} (h : m.freeTables.alloc 0 = (.ok i, s)) :
    i < n ∧ (∀ j ∈ m.used, j.val ≠ i) ∧
      BitAllocator.Inv n s (insert (i, 0) (m.used.image bitOf)) := by
  rcases BitAllocator.alloc_spec (k := 0) (m.bits_lt hn) with
    ⟨i', b, ha, ⟨-, hend, hfree⟩, hchanged⟩ | ⟨ha, -⟩
  · obtain ⟨hi, hs⟩ : i' = i ∧ (⟨i' + 2 ^ 0, b⟩ : BitAllocator) = s := by simpa [h] using ha.symm
    subst hi hs
    obtain ⟨hle, hapart⟩ := (m.inv.free_iff hend).mp hfree
    refine ⟨by omega, fun j hj => ?_, m.inv.insert hend hfree hchanged⟩
    exact apart_iff.mp (hapart _ (Finset.mem_image_of_mem bitOf hj))
  · simp [h] at ha

/-- If none is found, all are in use. -/
theorem alloc_error {e : BitAllocFault} {s : BitAllocator}
    (h : m.freeTables.alloc 0 = (.error e, s)) :
    m.used = Finset.univ ∧ BitAllocator.Inv n s (m.used.image bitOf) := by
  rcases BitAllocator.alloc_spec (k := 0) (m.bits_lt hn) with ⟨i', b, ha, -⟩ | ⟨ha, hno⟩
  · simp [h] at ha
  · obtain ⟨-, hs⟩ : BitAllocFault.outOfIndices = e ∧ { m.freeTables with next := 0 } = s := by
      simpa [h] using ha.symm
    subst hs
    refine ⟨Finset.eq_univ_of_forall fun i => ?_, m.inv.setNext 0⟩
    by_contra hi
    have hend : i.val + 2 ^ 0 ≤ m.freeTables.array.bits := by
      have := BitAllocator.le_alignedBits n
      rw [m.inv.wordCnt]
      omega
    refine hno i ⟨by simp, hend, (m.inv.free_iff hend).mpr ⟨by omega, fun b hb => ?_⟩⟩
    obtain ⟨j, hj, rfl⟩ := Finset.mem_image.mp hb
    exact apart_iff.mpr fun he => hi (Fin.ext he ▸ hj)

end Alloc

/-- `_alloc` -/
def alloc (hn : n < 2 ^ 32) (m : TableAllocator n) : Except AllocError (Fin n) × TableAllocator n :=
  match h : m.freeTables.alloc 0 with
  | (.ok i, s) =>
    (.ok ⟨i, (m.alloc_ok hn h).1⟩, ⟨s, insert ⟨i, (m.alloc_ok hn h).1⟩ m.used, by
      rw [Finset.image_insert]
      exact (m.alloc_ok hn h).2.2⟩)
  | (.error _, s) => (.error .outOfRam, ⟨s, m.used, (m.alloc_error hn h).2⟩)

/-- `_free` -/
def free (i : Fin n) (m : TableAllocator n) : Exec (TableAllocator n) :=
  if hi : i ∈ m.used then
    .ok ⟨(m.freeTables.free i 0).2, m.used.erase i, by
      obtain ⟨t, ht, hinv⟩ := m.inv.free (Finset.mem_image_of_mem bitOf hi)
      rw [Finset.image_erase bitOf_injective]
      rw [show m.freeTables.free i 0 = (.ok (), t) from ht]
      exact hinv⟩
  -- `Bit_array::Invalid_clear`
  else .error .pointer

variable {hn : n < 2 ^ 32}

theorem used_of_alloc (m : TableAllocator n) (i : Fin n) (m' : TableAllocator n)
    (h : alloc hn m = (.ok i, m')) : i ∉ m.used ∧ m'.used = insert i m.used := by
  unfold alloc at h
  split at h
  · next j s hs =>
    obtain ⟨hi, rfl⟩ := Prod.mk.inj h
    obtain rfl := Except.ok.inj hi
    exact ⟨fun hj => (m.alloc_ok hn hs).2.1 _ hj rfl, rfl⟩
  · cases (Prod.mk.inj h).1

theorem full_of_alloc (m : TableAllocator n) (e : AllocError) (m' : TableAllocator n)
    (h : alloc hn m = (.error e, m')) : m.used = Finset.univ ∧ m'.used = m.used := by
  unfold alloc at h
  split at h
  · cases (Prod.mk.inj h).1
  · next e' s hs =>
    obtain ⟨-, rfl⟩ := Prod.mk.inj h
    exact ⟨(m.alloc_error hn hs).1, rfl⟩

theorem used_of_free (m : TableAllocator n) (i : Fin n) (h : i ∈ m.used) :
    ∃ m', free i m = .ok m' ∧ m'.used = m.used.erase i := ⟨_, dif_pos h, rfl⟩

theorem free_unused (m : TableAllocator n) (i : Fin n) (h : i ∉ m.used) :
    free i m = .error .pointer := dif_neg h

end TableAllocator

/-- The allocator as the page tables use it. -/
def tableAllocator {n : Nat} (hn : n < 2 ^ 32) : Md (Fin n) (TableAllocator n) :=
  ⟨TableAllocator.alloc hn, TableAllocator.free, TableAllocator.used,
    TableAllocator.used_of_alloc, fun m e m' h => (TableAllocator.full_of_alloc m e m' h).2,
    TableAllocator.used_of_free, TableAllocator.free_unused⟩

end Genode.Hw
