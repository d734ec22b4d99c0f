import Mathlib.Data.List.Basic
import Mathlib.Logic.Relation
import Genode.Lib.Exec

/-!
# Run — histories of a transition system

A run is kept with its whole history: the list of its steps, newest
first, where each step records the state it started in and its label.
So statements about "every state reached" and about "every step taken"
are statements about one list.
-/

namespace Genode.Lib

variable {σ α : Type} {init : σ → Prop} {tr : σ → α → σ → Prop}

/-- The finite runs of the transition relation `tr` from an initial state. -/
inductive Run (init : σ → Prop) (tr : σ → α → σ → Prop) : List (σ × α) → σ → Prop where
  | start {s : σ} (hs : init s) : Run init tr [] s
  | step {hist : List (σ × α)} {s s' : σ} {a : α} (hr : Run init tr hist s) (ht : tr s a s') :
      Run init tr ((s, a) :: hist) s'

/-- All states of a run with history `hist` that ends in `s`. -/
def reached (hist : List (σ × α)) (s : σ) : List σ := s :: hist.map Prod.fst

namespace Run

variable {hist : List (σ × α)} {s : σ}

/-- A run may be cut off after any of its steps. -/
theorem cut {later earlier : List (σ × α)} {t : σ} {a : α}
    (h : Run init tr (later ++ (t, a) :: earlier) s) :
    Run init tr earlier t ∧ ∃ t', tr t a t' ∧ Run init tr ((t, a) :: earlier) t' := by
  induction later generalizing s with
  | nil =>
    cases h with
    | step hr ht => exact ⟨hr, _, ht, .step hr ht⟩
  | cons e later ih =>
    cases h with
    | step hr ht => exact ih hr

/-- The invariant rule. -/
theorem invariant {I : σ → Prop} (hinit : ∀ s, init s → I s)
    (hstep : ∀ s a s', I s → tr s a s' → I s') (h : Run init tr hist s) : I s := by
  induction h with
  | start hs => exact hinit _ hs
  | step hr ht ih => exact hstep _ _ _ ih ht

/-- The invariant rule for runs all of whose steps meet a condition. -/
theorem invariant_of {I : σ → Prop} {C : σ → α → Prop} (hinit : ∀ s, init s → I s)
    (hstep : ∀ s a s', I s → tr s a s' → C s a → I s') (h : Run init tr hist s)
    (hc : ∀ e ∈ hist, C e.1 e.2) : I s := by
  induction h with
  | start hs => exact hinit _ hs
  | step hr ht ih =>
    rw [List.forall_mem_cons] at hc
    exact hstep _ _ _ (ih hc.2) ht hc.1

/-- A run whose steps all meet a condition goes on with such steps. -/
theorem extend {C : σ → α → Prop} {s' : σ} (h : Run init tr hist s)
    (hc : ∀ e ∈ hist, C e.1 e.2)
    (hs : Relation.ReflTransGen (fun s s' => ∃ a, tr s a s' ∧ C s a) s s') :
    ∃ hist', Run init tr hist' s' ∧ (∀ e ∈ hist', C e.1 e.2) ∧
      reached hist s ⊆ reached hist' s' := by
  induction hs with
  | refl => exact ⟨hist, h, hc, List.Subset.refl _⟩
  | tail _ ht ih =>
    obtain ⟨hist', hr, hc', hsub⟩ := ih
    obtain ⟨a, ht, ha⟩ := ht
    exact ⟨_, .step hr ht, List.forall_mem_cons.mpr ⟨ha, hc'⟩,
      fun t ht => List.mem_cons_of_mem _ (hsub ht)⟩

/-- What the invariant tells about the steps holds of the steps of a run. -/
theorem of_invariant {I : σ → Prop} {tr' : σ → α → σ → Prop} (hinit : ∀ s, init s → I s)
    (hstep : ∀ s a s', I s → tr s a s' → I s' ∧ tr' s a s') (h : Run init tr hist s) :
    Run init tr' hist s := by
  induction h with
  | start hs => exact .start hs
  | step hr ht ih =>
    have hI := hr.invariant hinit fun s a s' hs ht => (hstep s a s' hs ht).1
    exact .step ih (hstep _ _ _ hI ht).2

/-- A run is simulated by the run of what an abstraction makes of its
states, if each step is. -/
theorem simulated {τ β : Type} {init' : τ → Prop} {tr' : τ → β → τ → Prop} {I : σ → Prop}
    (f : σ → τ) (g : α → β) (hinit : ∀ s, init s → I s ∧ init' (f s))
    (hstep : ∀ s a s', I s → tr s a s' → I s' ∧ tr' (f s) (g a) (f s')) (h : Run init tr hist s) :
    I s ∧ Run init' tr' (hist.map fun e => (f e.1, g e.2)) (f s) := by
  induction h with
  | start hs => exact ⟨(hinit _ hs).1, .start (hinit _ hs).2⟩
  | step hr ht ih =>
    obtain ⟨hI, hrun⟩ := ih
    exact ⟨(hstep _ _ _ hI ht).1, .step hrun (hstep _ _ _ hI ht).2⟩

/-- What a step brings about stays, if no later step ends it. -/
theorem since {P : σ → Prop} {C : σ → α → Prop} {later earlier : List (σ × α)} {e : σ × α}
    (hstart : ∀ s', tr e.1 e.2 s' → P s') (hstep : ∀ s a s', P s → tr s a s' → C s a → P s')
    (h : Run init tr (later ++ e :: earlier) s) (hc : ∀ e' ∈ later, C e'.1 e'.2) : P s := by
  induction later generalizing s with
  | nil =>
    cases h with
    | step hr ht => exact hstart _ ht
  | cons e' later ih =>
    cases h with
    | step hr ht =>
      rw [List.forall_mem_cons] at hc
      exact hstep _ _ _ (ih hr hc.2) ht hc.1

/-- The states of a longer run. -/
theorem forall_reached_cons {P : σ → Prop} {s' : σ} {a : α} :
    (∀ t ∈ reached ((s, a) :: hist) s', P t) ↔ P s' ∧ ∀ t ∈ reached hist s, P t := by
  simp [reached]

/-- What follows from the invariant holds throughout the run. -/
theorem forall_reached_of {I P : σ → Prop} {C : σ → α → Prop} (hinit : ∀ s, init s → I s)
    (hstep : ∀ s a s', I s → tr s a s' → C s a → I s') (hP : ∀ s, I s → P s)
    (h : Run init tr hist s) (hc : ∀ e ∈ hist, C e.1 e.2) : ∀ t ∈ reached hist s, P t := by
  induction h with
  | start hs => simpa [reached] using hP _ (hinit _ hs)
  | step hr ht ih =>
    have hI := (hr.step ht).invariant_of hinit hstep hc
    rw [List.forall_mem_cons] at hc
    exact forall_reached_cons.mpr ⟨hP _ hI, ih hc.2⟩

/-- If the condition is also necessary, a property holds throughout a
run exactly if every step meets it. -/
theorem forall_reached_iff {I P : σ → Prop} {C : σ → α → Prop} (hinit : ∀ s, init s → I s)
    (hstep : ∀ s a s', I s → tr s a s' → C s a → I s') (hP : ∀ s, I s → P s)
    (hbad : ∀ s a s', I s → tr s a s' → ¬ C s a → ¬ P s') (h : Run init tr hist s) :
    (∀ t ∈ reached hist s, P t) ↔ ∀ e ∈ hist, C e.1 e.2 := by
  refine ⟨fun hall => ?_, h.forall_reached_of hinit hstep hP⟩
  induction h with
  | start hs => simp
  | step hr ht ih =>
    obtain ⟨hs', hall⟩ := forall_reached_cons.mp hall
    have hc := ih hall
    refine List.forall_mem_cons.mpr ⟨?_, hc⟩
    by_contra hna
    exact hbad _ _ _ (hr.invariant_of hinit hstep hc) ht hna hs'

end Run

/-! ## Executing a run -/

section Replay

variable {β : Type} {exec : σ → β → Option (α × σ)}

/-- Execute one operation after the other and keep the history. -/
def replay (exec : σ → β → Option (α × σ)) :
    List β → List (σ × α) × σ → Option (List (σ × α) × σ)
  | [], r => some r
  | b :: bs, (hist, s) =>
    match exec s b with
    | none => none
    | some (a, s') => replay exec bs ((s, a) :: hist, s')

theorem Run.replay (hexec : ∀ s b a s', exec s b = some (a, s') → tr s a s') {bs : List β}
    {r r' : List (σ × α) × σ} (h : Run init tr r.1 r.2) (hr : Lib.replay exec bs r = some r') :
    Run init tr r'.1 r'.2 := by
  induction bs generalizing r with
  | nil =>
    obtain rfl : r = r' := by simpa [Lib.replay] using hr
    exact h
  | cons b bs ih =>
    obtain ⟨hist, s⟩ := r
    cases he : exec s b with
    | none => simp [Lib.replay, he] at hr
    | some e =>
      simp only [Lib.replay, he] at hr
      exact ih (.step h (hexec _ _ _ _ he)) hr

/-- What an execution reaches is reached by a run. -/
theorem exists_run (hexec : ∀ s b a s', exec s b = some (a, s') → tr s a s') {bs : List β}
    {s : σ} (hs : init s) {p : List (σ × α) × σ → Prop} [DecidablePred p]
    (h : (replay exec bs ([], s)).any (fun r => decide (p r)) = true) :
    ∃ hist s, Run init tr hist s ∧ p (hist, s) := by
  rw [Option.any_eq_true] at h
  obtain ⟨r, hr, hp⟩ := h
  exact ⟨r.1, r.2, Run.replay hexec (.start hs) hr, of_decide_eq_true hp⟩

end Replay

/-! ## Operations with a precondition -/

section Guarded

variable {allowed : σ → α → Prop} {run : σ → α → Exec σ}

/-- The operation is called as it may be, and returns. -/
def Guarded (allowed : σ → α → Prop) (run : σ → α → Exec σ) (s : σ) (a : α) (s' : σ) : Prop :=
  allowed s a ∧ run s a = .ok s'

/-- Execute an operation, if it is allowed and returns. -/
def perform (allowed : σ → α → Prop) [∀ s a, Decidable (allowed s a)] (run : σ → α → Exec σ)
    (s : σ) (a : α) : Option (α × σ) :=
  if allowed s a then (run s a).toOption.map fun s' => (a, s') else none

theorem guarded_of_perform [∀ s a, Decidable (allowed s a)] {s s' : σ} {a a' : α}
    (h : perform allowed run s a = some (a', s')) : a = a' ∧ Guarded allowed run s a' s' := by
  unfold perform at h
  split at h
  · rename_i hal
    cases hrun : run s a with
    | error e => simp [hrun, Except.toOption] at h
    | ok s₁ =>
      obtain ⟨rfl, rfl⟩ : a = a' ∧ s₁ = s' := by simpa [hrun, Except.toOption] using h
      exact ⟨rfl, hal, hrun⟩
  · simp at h

theorem exists_guarded_run [∀ s a, Decidable (allowed s a)] {as : List α} {s : σ} (hs : init s)
    {p : List (σ × α) × σ → Prop} [DecidablePred p]
    (h : (replay (perform allowed run) as ([], s)).any (fun r => decide (p r)) = true) :
    ∃ hist s, Run init (Guarded allowed run) hist s ∧ p (hist, s) :=
  exists_run (fun _ _ _ _ h => (guarded_of_perform h).2) hs h

end Guarded

/-! ## Calls with a result -/

section Calls

variable {τ β ρ : Type} {allowed : σ → β → Prop} {call : σ → β → Exec (ρ × σ)}

/-- A call is made as it may be, and returns. -/
def Called (allowed : σ → β → Prop) (call : σ → β → Exec (ρ × σ)) (s : σ) (e : β × ρ) (s' : σ) :
    Prop :=
  allowed s e.1 ∧ call s e.1 = .ok (e.2, s')

/-- If each call does to the abstraction what it should, a run of calls is
a run of the abstraction. -/
theorem Run.refines {init' : τ → Prop} {tr' : τ → β × ρ → τ → Prop} {I : σ → Prop} (f : σ → τ)
    (hinit : ∀ s, init s → I s ∧ init' (f s))
    (hcall : ∀ s c, I s → allowed s c →
      ∃ r s', call s c = .ok (r, s') ∧ I s' ∧ tr' (f s) (c, r) (f s'))
    {hist : List (σ × β × ρ)} {s : σ} (h : Run init (Called allowed call) hist s) :
    I s ∧ Run init' tr' (hist.map fun e => (f e.1, e.2)) (f s) := by
  refine h.simulated f (fun e => e) hinit fun s e s' hI htr => ?_
  obtain ⟨c, r⟩ := e
  obtain ⟨hc, hs'⟩ := htr
  obtain ⟨r₁, s₁, hs₁, hI', hstep⟩ := hcall s c hI hc
  obtain ⟨rfl, rfl⟩ : r₁ = r ∧ s₁ = s' := by simpa [hs₁] using hs'
  exact ⟨hI', hstep⟩

/-- Make a call, if it is allowed and returns. -/
def attempt (allowed : σ → β → Prop) [∀ s c, Decidable (allowed s c)] (call : σ → β → Exec (ρ × σ))
    (s : σ) (c : β) : Option ((β × ρ) × σ) :=
  if allowed s c then (call s c).toOption.map fun r => ((c, r.1), r.2) else none

theorem called_of_attempt [∀ s c, Decidable (allowed s c)] {s s' : σ} {c : β} {e : β × ρ}
    (h : attempt allowed call s c = some (e, s')) : Called allowed call s e s' := by
  unfold attempt at h
  split at h
  · next hc =>
    cases hr : call s c with
    | error f => simp [hr, Except.toOption] at h
    | ok r =>
      obtain ⟨rfl, rfl⟩ : (c, r.1) = e ∧ r.2 = s' := by simpa [hr, Except.toOption] using h
      exact ⟨hc, hr⟩
  · simp at h

theorem exists_called_run [∀ s c, Decidable (allowed s c)] {s : σ} (hs : init s) (cs : List β)
    {p : List (σ × β × ρ) × σ → Prop} [DecidablePred p]
    (h : (replay (attempt allowed call) cs ([], s)).any (fun r => decide (p r)) = true) :
    ∃ hist s, Run init (Called allowed call) hist s ∧ p (hist, s) :=
  exists_run (fun _ _ _ _ => called_of_attempt) hs h

end Calls

end Genode.Lib
