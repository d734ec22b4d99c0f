import Mathlib.Data.Multiset.MapFold
import Mathlib.Data.Multiset.Count
import Mathlib.Data.Finset.Basic

/-!
# Cover — things that occupy points

Ranges of addresses, of blocks or of time. How often a point is occupied
adds up over a collection of things, so it says at once what remains if
one of them is replaced by others. Things are apart if no point is
occupied twice.
-/

namespace Genode.Lib

variable {α β ι : Type} (occ : β → α → Prop) [∀ b a, Decidable (occ b a)]

/-- How many of the things occupy the point. -/
def cover (B : Multiset β) (a : α) : Nat := B.countP fun b => occ b a

def Apart (B : Multiset β) : Prop := ∀ a, cover occ B a ≤ 1

variable {occ} {B C : Multiset β} {b c : β} {a : α}

@[simp] theorem cover_zero : cover occ 0 a = 0 := Multiset.countP_zero _

@[simp] theorem cover_cons : cover occ (b ::ₘ B) a = (if occ b a then 1 else 0) + cover occ B a := by
  unfold cover
  rw [Multiset.countP_cons, Nat.add_comm]

@[simp] theorem cover_add : cover occ (B + C) a = cover occ B a + cover occ C a :=
  Multiset.countP_add _ _ _

theorem cover_pos : 0 < cover occ B a ↔ ∃ b ∈ B, occ b a := Multiset.countP_pos

theorem cover_eq_zero : cover occ B a = 0 ↔ ∀ b ∈ B, ¬ occ b a := Multiset.countP_eq_zero

theorem Apart.rest (h : Apart occ (b ::ₘ B)) (hb : occ b a) (hc : c ∈ B) : ¬ occ c a := by
  intro hca
  have h₁ := h a
  have h₂ := cover_pos.mpr ⟨c, hc, hca⟩
  rw [cover_cons, if_pos hb] at h₁
  omega

/-- At most one of the things is at a point. -/
theorem Apart.eq (h : Apart occ B) (hb : b ∈ B) (hc : c ∈ B) (hba : occ b a) (hca : occ c a) :
    b = c := by
  obtain ⟨R, rfl⟩ := Multiset.exists_cons_of_mem hb
  rcases Multiset.mem_cons.mp hc with hcb | hcR
  · exact hcb.symm
  · exact absurd hca (h.rest hba hcR)

/-- The same of things that have names. -/
theorem Apart.eq_of_map {X : Finset ι} {f : ι → β} (h : Apart occ (X.val.map f)) {x y : ι}
    (hx : x ∈ X) (hy : y ∈ X) (hxa : occ (f x) a) (hya : occ (f y) a) : x = y := by
  by_contra hne
  obtain ⟨R, hR⟩ := Multiset.exists_cons_of_mem hx
  have hyR : y ∈ R := by
    have h' : y ∈ x ::ₘ R := hR ▸ hy
    exact (Multiset.mem_cons.mp h').resolve_left fun e => hne e.symm
  rw [hR, Multiset.map_cons] at h
  exact h.rest hxa (Multiset.mem_map_of_mem f hyR) hya

theorem Apart.le (h : Apart occ B) (hC : C ≤ B) : Apart occ C := fun a =>
  (Multiset.countP_le_of_le _ hC).trans (h a)

end Genode.Lib
