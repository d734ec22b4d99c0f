import Mathlib.Data.Finset.Basic
import Mathlib.Data.List.Nodup
import Genode.Lib.Forest

/-!
# Refs — objects that refer to each other

Each object may refer to one other object, and each knows which ones
refer to it (`members`). Both are updated separately, so that they agree
is an invariant (`Consistent`). An object that goes away hands its
members over to the object that it refers to itself, or to none.

Whether the references form a forest is another question (`Acyclic`); a
hand-over never closes a cycle.
-/

namespace Genode.Lib

open Relation

/-- The reference of each object, and the objects that refer to it. -/
structure Refs (ι : Type) where
  ref : ι → Option ι
  members : ι → List ι

namespace Refs

variable {ι : Type}

/-- The members are those that refer to an object; both exist. -/
structure Consistent (live : Finset ι) (s : Refs ι) : Prop where
  mem_iff : ∀ r x, x ∈ s.members r ↔ s.ref x = some r
  nodup : ∀ r, (s.members r).Nodup
  exist : ∀ x r, s.ref x = some r → x ∈ live ∧ r ∈ live

variable [DecidableEq ι]

/-- The object `x` becomes a member of `r`. -/
def insert (s : Refs ι) (r x : ι) : Refs ι where
  ref := Function.update s.ref x (some r)
  members := Function.update s.members r (x :: s.members r)

/-- The object `x` is no longer a member of `r`. -/
def remove (s : Refs ι) (r x : ι) : Refs ι where
  ref := Function.update s.ref x none
  members := Function.update s.members r ((s.members r).erase x)

/-- The member `o` of `x` becomes one of `r`. -/
def pass (s : Refs ι) (x : ι) (r : Option ι) (o : ι) : Refs ι :=
  r.elim (s.remove x o) fun r => (s.remove x o).insert r o

/-- The members `os` of `x` become members of `r` one by one. -/
def handOver (x : ι) (r : Option ι) (os : List ι) (s : Refs ι) : Refs ι :=
  os.foldl (fun s o => s.pass x r o) s

variable {s : Refs ι} {live : Finset ι} {r x y : ι}

@[simp] theorem insert_ref_self : (s.insert r x).ref x = some r := Function.update_self _ _ _

theorem insert_ref_of_ne (h : y ≠ x) : (s.insert r x).ref y = s.ref y :=
  Function.update_of_ne h _ _

@[simp] theorem remove_ref_self : (s.remove r x).ref x = none := Function.update_self _ _ _

theorem remove_ref_of_ne (h : y ≠ x) : (s.remove r x).ref y = s.ref y :=
  Function.update_of_ne h _ _

@[simp] theorem insert_members_self : (s.insert r x).members r = x :: s.members r :=
  Function.update_self _ _ _

theorem insert_members_of_ne (h : y ≠ r) : (s.insert r x).members y = s.members y :=
  Function.update_of_ne h _ _

@[simp] theorem remove_members_self : (s.remove r x).members r = (s.members r).erase x :=
  Function.update_self _ _ _

theorem remove_members_of_ne (h : y ≠ r) : (s.remove r x).members y = s.members y :=
  Function.update_of_ne h _ _

/-! ## References and members agree -/

namespace Consistent

theorem remove (h : Consistent live s) (hx : s.ref x = some r) : Consistent live (s.remove r x) := by
  refine ⟨fun r' y => ?_, fun r' => ?_, fun y r' hy => ?_⟩
  · by_cases hr : r' = r
    · subst hr
      rw [remove_members_self, (h.nodup r').mem_erase_iff, h.mem_iff]
      by_cases hy : y = x
      · simp [hy]
      · simp [hy, remove_ref_of_ne hy]
    · rw [remove_members_of_ne hr, h.mem_iff]
      by_cases hy : y = x
      · rw [hy, hx, remove_ref_self]
        simpa using fun he => hr he.symm
      · rw [remove_ref_of_ne hy]
  · by_cases hr : r' = r
    · subst hr
      rw [remove_members_self]
      exact (h.nodup r').erase x
    · rw [remove_members_of_ne hr]
      exact h.nodup r'
  · by_cases hyx : y = x
    · simp [hyx] at hy
    · exact h.exist y r' (by rwa [remove_ref_of_ne hyx] at hy)

theorem insert (h : Consistent live s) (hx : s.ref x = none) (hxl : x ∈ live) (hr : r ∈ live) :
    Consistent live (s.insert r x) := by
  refine ⟨fun r' y => ?_, fun r' => ?_, fun y r' hy => ?_⟩
  · have hmem : y ∈ (s.insert r x).members r' ↔ (r' = r ∧ y = x) ∨ s.ref y = some r' := by
      by_cases hr' : r' = r
      · subst hr'
        simp [h.mem_iff]
      · simp [insert_members_of_ne hr', h.mem_iff, hr']
    rw [hmem]
    by_cases hy : y = x
    · subst hy
      simp [hx, eq_comm]
    · simp [hy, insert_ref_of_ne hy]
  · by_cases hr' : r' = r
    · subst hr'
      rw [insert_members_self, List.nodup_cons, h.mem_iff, hx]
      exact ⟨by simp, h.nodup r'⟩
    · rw [insert_members_of_ne hr']
      exact h.nodup r'
  · by_cases hyx : y = x
    · subst hyx
      obtain rfl : r = r' := by simpa using hy
      exact ⟨hxl, hr⟩
    · exact h.exist y r' (by rwa [insert_ref_of_ne hyx] at hy)

omit [DecidableEq ι] in
/-- An object that exists no longer has no references. -/
theorem ref_eq_none (h : Consistent live s) (hx : x ∉ live) : s.ref x = none := by
  cases hr : s.ref x with
  | none => rfl
  | some r => exact absurd (h.exist x r hr).1 hx

omit [DecidableEq ι] in
theorem mono {live' : Finset ι} (h : Consistent live s) (hl : live ⊆ live') :
    Consistent live' s :=
  ⟨h.mem_iff, h.nodup, fun x r hx => ⟨hl (h.exist x r hx).1, hl (h.exist x r hx).2⟩⟩

/-- An object without references and members may go away. -/
theorem erase (h : Consistent live s) (hr : s.ref x = none) (hm : s.members x = []) :
    Consistent (live.erase x) s := by
  refine ⟨h.mem_iff, h.nodup, fun y r hy => ?_⟩
  obtain ⟨h₁, h₂⟩ := h.exist y r hy
  refine ⟨Finset.mem_erase.mpr ⟨?_, h₁⟩, Finset.mem_erase.mpr ⟨?_, h₂⟩⟩
  · rintro rfl
    simp [hr] at hy
  · rintro rfl
    have hmem := (h.mem_iff r y).mpr hy
    simp [hm] at hmem

theorem pass {o : ι} {r : Option ι} {os : List ι} (h : Consistent live s)
    (hos : s.members x = o :: os) (hr : ∀ r', r = some r' → r' ≠ x ∧ r' ∈ live) :
    Consistent live (s.pass x r o) ∧ (s.pass x r o).members x = os ∧ s.ref o = some x ∧
      (s.pass x r o).ref o = r ∧ ∀ y, y ≠ o → (s.pass x r o).ref y = s.ref y := by
  have ho : s.ref o = some x := (h.mem_iff x o).mp (by simp [hos])
  have hrem := h.remove ho
  have hos' : (s.remove x o).members x = os := by
    rw [remove_members_self, hos, List.erase_cons_head]
  cases r with
  | none => exact ⟨hrem, hos', ho, remove_ref_self, fun y hy => remove_ref_of_ne hy⟩
  | some r' =>
    obtain ⟨hne, hl⟩ := hr r' rfl
    refine ⟨hrem.insert remove_ref_self (h.exist o x ho).1 hl, ?_, ho, insert_ref_self,
      fun y hy => ?_⟩
    · exact (insert_members_of_ne hne.symm).trans hos'
    · exact (insert_ref_of_ne hy).trans (remove_ref_of_ne hy)

/-- After the hand-over `x` has no members, and they refer to `r`. -/
theorem handOver {r : Option ι} {os : List ι} (h : Consistent live s) (hos : s.members x = os)
    (hr : ∀ r', r = some r' → r' ≠ x ∧ r' ∈ live) :
    Consistent live (Refs.handOver x r os s) ∧ (Refs.handOver x r os s).members x = [] ∧
      ∀ y, (Refs.handOver x r os s).ref y = if s.ref y = some x then r else s.ref y := by
  induction os generalizing s with
  | nil =>
    refine ⟨h, hos, fun y => ?_⟩
    have hy : s.ref y ≠ some x := by
      rw [Ne, ← h.mem_iff, hos]
      simp
    rw [if_neg hy]
    rfl
  | cons o os ih =>
    obtain ⟨hc₁, hm₁, ho, hro, hry⟩ := h.pass hos hr
    obtain ⟨h₁, h₂, h₃⟩ := ih hc₁ hm₁
    refine ⟨h₁, h₂, fun y => (h₃ y).trans ?_⟩
    by_cases hy : y = o
    · subst hy
      have hne : r ≠ some x := fun he => (hr x he).1 rfl
      rw [hro, if_neg hne, if_pos ho]
    · rw [hry y hy]

end Consistent

/-- A hand-over leads to where the members came to through `x`. -/
theorem acyclic_handOver {s' : Refs ι} {r : Option ι} (h : Acyclic s.ref) (hx : s.ref x = r)
    (hs : ∀ y, s'.ref y = if s.ref y = some x then r else s.ref y) : Acyclic s'.ref := by
  refine h.of_shortcut fun a b hab => ?_
  rw [hs] at hab
  split at hab
  · rename_i ha
    exact .tail (.single ha) (hx.trans hab)
  · exact .single hab

end Refs

end Genode.Lib
