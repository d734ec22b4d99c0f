import Mathlib.Data.List.FinRange
import Genode.Lib.Exec

/-!
# Metadata — an allocator for the memory of other allocators

An allocator keeps its own data in entries that it gets from a metadata
allocator. What such a metadata allocator promises is stated here once:
it does not hand out an entry twice, and an entry goes back only while
it is taken. Whether a request succeeds is up to it.
-/

namespace Genode.Base

open Lib

/-- `Alloc_error`. -/
inductive AllocError where
  | outOfRam
  | outOfCaps
  | denied
  deriving DecidableEq, Repr

/-- A metadata allocator with a memory of its own. It does not hand out
an entry twice, and it faults if an entry comes back that is not taken. -/
structure Md (ι μ : Type) [DecidableEq ι] where
  take : μ → Except AllocError ι × μ
  give : ι → μ → Exec μ
  taken : μ → Finset ι
  take_ok : ∀ m x m', take m = (.ok x, m') → x ∉ taken m ∧ taken m' = insert x (taken m)
  take_error : ∀ m e m', take m = (.error e, m') → taken m' = taken m
  give_taken : ∀ m x, x ∈ taken m → ∃ m', give x m = .ok m' ∧ taken m' = (taken m).erase x
  give_other : ∀ m x, x ∉ taken m → give x m = .error .pointer

namespace Md

variable {ι μ : Type} [DecidableEq ι] (D : Md ι μ)

/-- The next request succeeds. -/
def Ready (m : μ) : Prop := ∃ x m', D.take m = (.ok x, m')

/-- A request succeeds right after an entry was given back. -/
def Prompt : Prop := ∀ m x m', D.give x m = .ok m' → D.Ready m'

end Md

/-! ## A metadata allocator with finitely many entries -/

/-- The first of `k` entries that is not taken. -/
def takeFirst {k : Nat} (T : Finset (Fin k)) : Except AllocError (Fin k) × Finset (Fin k) :=
  ((List.finRange k).find? fun x => x ∉ T).elim (.error .outOfRam, T) fun x => (.ok x, insert x T)

def giveTaken {k : Nat} (x : Fin k) (T : Finset (Fin k)) : Exec (Finset (Fin k)) :=
  if x ∈ T then .ok (T.erase x) else .error .pointer

theorem takeFirst_ok {k : Nat} (T : Finset (Fin k)) (x : Fin k) (T' : Finset (Fin k))
    (h : takeFirst T = (.ok x, T')) : x ∉ T ∧ T' = insert x T := by
  unfold takeFirst at h
  cases hf : (List.finRange k).find? fun x => x ∉ T with
  | none =>
    rw [hf] at h
    simp at h
  | some y =>
    rw [hf, Option.elim_some] at h
    obtain ⟨h₁, h₂⟩ := Prod.mk.inj h
    obtain rfl : y = x := by simpa using h₁
    have := List.find?_some hf
    exact ⟨by simpa using this, h₂.symm⟩

theorem takeFirst_error {k : Nat} (T : Finset (Fin k)) (e : AllocError) (T' : Finset (Fin k))
    (h : takeFirst T = (.error e, T')) : T' = T := by
  unfold takeFirst at h
  cases hf : (List.finRange k).find? fun x => x ∉ T with
  | none =>
    rw [hf, Option.elim_none] at h
    exact (Prod.mk.inj h).2.symm
  | some y =>
    rw [hf] at h
    simp at h

theorem giveTaken_ok {k : Nat} (T : Finset (Fin k)) (x : Fin k) (h : x ∈ T) :
    ∃ T', giveTaken x T = .ok T' ∧ T' = T.erase x := ⟨_, if_pos h, rfl⟩

theorem giveTaken_error {k : Nat} (T : Finset (Fin k)) (x : Fin k) (h : x ∉ T) :
    giveTaken x T = .error .pointer := if_neg h

/-- A metadata allocator with `k` entries. -/
def stock (k : Nat) : Md (Fin k) (Finset (Fin k)) :=
  ⟨takeFirst, giveTaken, id, takeFirst_ok, takeFirst_error, giveTaken_ok, giveTaken_error⟩

theorem stock_prompt (k : Nat) : (stock k).Prompt := by
  intro T x T' h
  have hT' : x ∉ T' := by
    by_cases hx : x ∈ T
    · obtain rfl : T.erase x = T' := by simpa [stock, giveTaken, hx] using h
      exact Finset.notMem_erase x T
    · simp [stock, giveTaken, hx] at h
  have hsome : ((List.finRange k).find? fun y => y ∉ T').isSome := by
    rw [List.find?_isSome]
    exact ⟨x, List.mem_finRange x, by simpa using hT'⟩
  obtain ⟨y, hy⟩ := Option.isSome_iff_exists.mp hsome
  refine ⟨y, insert y T', ?_⟩
  show takeFirst T' = _
  rw [takeFirst, hy, Option.elim_some]

/-! ## Requests that fail -/

/-- Like `takeFirst`, but a request also fails where the list says so. -/
def takeUnless {k : Nat} (m : Finset (Fin k) × List Bool) :
    Except AllocError (Fin k) × Finset (Fin k) × List Bool :=
  if m.2.head? = some true then (.error .outOfRam, m.1, m.2.tail)
  else ((takeFirst m.1).1, (takeFirst m.1).2, m.2.tail)

def giveListed {k : Nat} (x : Fin k) (m : Finset (Fin k) × List Bool) :
    Exec (Finset (Fin k) × List Bool) := do
  let T ← giveTaken x m.1
  .ok (T, m.2)

theorem takeUnless_ok {k : Nat} (m : Finset (Fin k) × List Bool) (x : Fin k)
    (m' : Finset (Fin k) × List Bool) (h : takeUnless m = (.ok x, m')) :
    x ∉ m.1 ∧ m'.1 = insert x m.1 := by
  unfold takeUnless at h
  split at h
  · simp at h
  · obtain ⟨h₁, h₂⟩ := Prod.mk.inj h
    exact takeFirst_ok m.1 x m'.1 (Prod.ext h₁ (congrArg Prod.fst h₂))

theorem takeUnless_error {k : Nat} (m : Finset (Fin k) × List Bool) (e : AllocError)
    (m' : Finset (Fin k) × List Bool) (h : takeUnless m = (.error e, m')) : m'.1 = m.1 := by
  unfold takeUnless at h
  split at h
  · exact (congrArg Prod.fst (Prod.mk.inj h).2).symm
  · obtain ⟨h₁, h₂⟩ := Prod.mk.inj h
    exact takeFirst_error m.1 e m'.1 (Prod.ext h₁ (congrArg Prod.fst h₂))

theorem giveListed_ok {k : Nat} (m : Finset (Fin k) × List Bool) (x : Fin k) (h : x ∈ m.1) :
    ∃ m', giveListed x m = .ok m' ∧ m'.1 = m.1.erase x := by
  refine ⟨(m.1.erase x, m.2), ?_, rfl⟩
  rw [giveListed, giveTaken, if_pos h, Exec.ok_bind]

theorem giveListed_error {k : Nat} (m : Finset (Fin k) × List Bool) (x : Fin k) (h : x ∉ m.1) :
    giveListed x m = .error .pointer := by
  rw [giveListed, giveTaken, if_neg h, Exec.error_bind]

/-- A metadata allocator with `k` entries, whose requests also fail as the
list of its state says. -/
def flakyStock (k : Nat) : Md (Fin k) (Finset (Fin k) × List Bool) :=
  ⟨takeUnless, giveListed, Prod.fst, takeUnless_ok, takeUnless_error, giveListed_ok,
    giveListed_error⟩

end Genode.Base
