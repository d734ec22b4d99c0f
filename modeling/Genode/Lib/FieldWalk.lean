import Genode.Lib.Bytes

/-!
# FieldWalk — going through fields that tell their length

Fields follow each other in memory. The first byte of a field tells whether
the walk stops at it, and otherwise the second byte tells where the next
field is. Nothing else ends the walk.
-/

namespace Genode.Lib

structure FieldWalk where
  stops : UInt8 → Bool
  /-- The field behind the one at an address, given its length byte. -/
  next : Nat → UInt8 → Nat

namespace FieldWalk

variable (w : FieldWalk) (m : Memory)

/-- The fields that the walk passes and the one it stops at, if these are at most `k`. -/
def run : Nat → Nat → Option (List Nat × Nat)
  | 0, _ => none
  | k + 1, i =>
    if w.stops (m i) then some ([], i)
    else (run k (w.next i (m (i + 1)))).map fun r => (i :: r.1, r.2)

/-- The addresses that are read on the way. -/
def reads (r : List Nat × Nat) : List Nat := r.1.flatMap (fun i => [i, i + 1]) ++ [r.2]

/-- The headers of the fields from `i` on are within the first `n` bytes, up to a field
that the walk stops at and that has the property `P`. -/
inductive Inside (n : Nat) (P : Nat → Prop) : Nat → Prop
  | stop {i : Nat} : i < n → w.stops (m i) = true → P i → Inside n P i
  | field {i : Nat} : i + 1 < n → w.stops (m i) = false →
      Inside n P (w.next i (m (i + 1))) → Inside n P i

variable {w m} {i k n : Nat} {P : Nat → Prop} {r r' : List Nat × Nat}

theorem run_stop (h : w.stops (m i) = true) : w.run m (k + 1) i = some ([], i) := by
  rw [run, if_pos h]

theorem run_field (h : w.stops (m i) = false) :
    w.run m (k + 1) i = (w.run m k (w.next i (m (i + 1)))).map fun r => (i :: r.1, r.2) := by
  rw [run, if_neg (by simp [h])]

theorem run_le {k' : Nat} (hk : k ≤ k') (h : w.run m k i = some r) : w.run m k' i = some r := by
  induction k generalizing k' i r with
  | zero => cases h
  | succ k ih =>
    obtain _ | k' := k'
    · exact absurd hk (Nat.not_succ_le_zero k)
    cases hstop : w.stops (m i) with
    | true =>
      rw [run_stop hstop] at h ⊢
      exact h
    | false =>
      rw [run_field hstop] at h ⊢
      obtain ⟨r₀, hrun, hr⟩ := Option.map_eq_some_iff.mp h
      rw [ih (Nat.le_of_succ_le_succ hk) hrun, Option.map_some, hr]

/-- What holds of each place that the walk goes to holds of the fields it passes. -/
theorem run_invariant {I : Nat → Prop} (hnext : ∀ i len, I (w.next i len)) (hi : I i)
    (h : w.run m k i = some r) : ∀ f ∈ r.1, I f := by
  induction k generalizing i r with
  | zero => cases h
  | succ k ih =>
    cases hstop : w.stops (m i) with
    | true =>
      rw [run_stop hstop] at h
      cases h
      simp
    | false =>
      rw [run_field hstop] at h
      obtain ⟨r₀, hrest, rfl⟩ := Option.map_eq_some_iff.mp h
      exact List.forall_mem_cons.mpr ⟨hi, ih (hnext i _) hrest⟩

/-- A walk that passes no field stops where it begins. -/
theorem run_nil (h : w.run m k i = some r) (hr : r.1 = []) : w.stops (m i) = true := by
  obtain _ | k := k
  · cases h
  cases hstop : w.stops (m i) with
  | true => rfl
  | false =>
    rw [run_field hstop] at h
    obtain ⟨r₀, -, rfl⟩ := Option.map_eq_some_iff.mp h
    cases hr

/-- The walk ends and reads only the first `n` bytes exactly if the headers are inside. -/
theorem inside_iff : w.Inside m n P i ↔
    ∃ k r, w.run m k i = some r ∧ (∀ a ∈ reads r, a < n) ∧ P r.2 := by
  constructor
  · intro h
    induction h with
    | @stop i hi hstop hP =>
      refine ⟨1, ([], i), run_stop hstop, ?_, hP⟩
      simpa [reads] using hi
    | @field i hi hstop _ ih =>
      obtain ⟨k, r, hrun, hreads, hP⟩ := ih
      refine ⟨k + 1, (i :: r.1, r.2), by rw [run_field hstop, hrun, Option.map_some], ?_, hP⟩
      have hall : ∀ a ∈ i :: (i + 1) :: reads r, a < n := by
        rw [List.forall_mem_cons, List.forall_mem_cons]
        exact ⟨Nat.lt_of_succ_lt hi, hi, hreads⟩
      exact hall
  · rintro ⟨k, r, hrun, hreads, hP⟩
    induction k generalizing i r with
    | zero => cases hrun
    | succ k ih =>
      cases hstop : w.stops (m i) with
      | true =>
        rw [run_stop hstop] at hrun
        cases hrun
        exact .stop (hreads i (by simp [reads])) hstop hP
      | false =>
        rw [run_field hstop] at hrun
        obtain ⟨r₀, hrest, rfl⟩ := Option.map_eq_some_iff.mp hrun
        have hall : ∀ a ∈ i :: (i + 1) :: reads r₀, a < n := hreads
        rw [List.forall_mem_cons, List.forall_mem_cons] at hall
        exact .field hall.2.1 hstop (ih r₀ hrest hall.2.2 hP)

end FieldWalk

end Genode.Lib
