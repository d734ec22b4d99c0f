import Genode.Kernel.SignalLifetime
import Genode.Lib.Run

/-!
# SignalRuns — signals over whole runs

The runs of all operations on signal objects, in any order, with the
deliveries of each step. The results are about the counts of signals and
their acknowledgement, about the pointers between the objects, and about
what a killed context still delivers.
-/

namespace Genode.Kernel

open Lib Util

variable {ρ γ τ : Type} [DecidableEq ρ] [DecidableEq γ] [DecidableEq τ]

/-- A step of a run: the operation and its deliveries. -/
abbrev SignalStep (ρ γ τ : Type) := SignalOp ρ γ τ × List (Delivery γ τ)

namespace Signals

variable {s s' : Signals ρ γ τ} {H : ρ → List τ} {D A : ρ → List γ} {c : γ}
variable {op : SignalOp ρ γ τ} {ds : List (Delivery γ τ)} {a : SignalStep ρ γ τ}
variable {hist : List (Signals ρ γ τ × SignalStep ρ γ τ)}

def Init (s : Signals ρ γ τ) : Prop := ∃ receiver, s = init receiver

def Trans (s : Signals ρ γ τ) (a : SignalStep ρ γ τ) (s' : Signals ρ γ τ) : Prop :=
  a.1.Allowed s ∧ a.1.run s = .ok (a.2, s')

/-- Execute an operation, if it is allowed and returns. -/
def exec (s : Signals ρ γ τ) (op : SignalOp ρ γ τ) :
    Option (SignalStep ρ γ τ × Signals ρ γ τ) :=
  if op.Allowed s then (op.run s).toOption.map fun r => ((op, r.1), r.2) else none

theorem trans_of_exec (h : exec s op = some (a, s')) : Trans s a s' := by
  unfold exec at h
  split at h
  · rename_i hal
    cases hrun : op.run s with
    | error e => simp [hrun, Except.toOption] at h
    | ok r =>
      obtain ⟨rfl, rfl⟩ : (op, r.1) = a ∧ r.2 = s' := by simpa [hrun, Except.toOption] using h
      exact ⟨hal, hrun⟩
  · simp at h

omit [DecidableEq ρ] [DecidableEq γ] [DecidableEq τ] in
theorem silent_eq_ok {x : Exec (Signals ρ γ τ)} :
    SignalOp.silent x = .ok (ds, s') ↔ ds = [] ∧ x = .ok s' := by
  unfold SignalOp.silent
  cases x with
  | error e => simp
  | ok p => simp [eq_comm]

/-- An operation that follows no pointer to an object that is gone
returns. -/
theorem Inv.run (h : Inv s H D A) (ha : op.Allowed s) (hsafe : op.Safe s) :
    ∃ ds s', op.run s = .ok (ds, s') ∧ Outcome s op ds s' := by
  cases op with
  | newReceiver r => exact ⟨_, _, rfl, h.newReceiver ha⟩
  | newContext c r imprint => exact ⟨_, _, rfl, h.newContext ha.1 ha.2 imprint⟩
  | newThread t => exact ⟨_, _, rfl, h.newThread ha⟩
  | submit c n => exact h.submit ha n
  | ack c => exact h.acknowledge ha
  | addHandler r t => exact h.addHandler ha.1 ha.2.1 ha.2.2
  | kill c k =>
    obtain ⟨s', hs', ho⟩ := h.kill ha.1 ha.2.1 ha.2.2
    exact ⟨[], s', silent_eq_ok.mpr ⟨rfl, hs'⟩, ho⟩
  | cancel t =>
    obtain ⟨s', hs', ho⟩ := h.cancelBlocking ha hsafe
    exact ⟨[], s', silent_eq_ok.mpr ⟨rfl, hs'⟩, ho⟩
  | destructContext c =>
    obtain ⟨F, G, hs', ho⟩ := h.destructContext ha
    exact ⟨[], _, silent_eq_ok.mpr ⟨rfl, hs'⟩, ho⟩
  | destructReceiver r =>
    obtain ⟨f, F, G, o, hs', -, ho⟩ := h.destructReceiver r
    exact ⟨[], _, silent_eq_ok.mpr ⟨rfl, hs'⟩, ho⟩
  | destructThread t =>
    obtain ⟨s', hs', ho⟩ := h.destructThread ha hsafe
    exact ⟨[], s', silent_eq_ok.mpr ⟨rfl, hs'⟩, ho⟩

omit [DecidableEq γ] in
theorem live_of_cancelHandler {t : τ} {r : ρ} (h : s.cancelHandler t = .ok s')
    (hr : s.handlerReceiver t = some r) : r ∈ s.receivers.live := by
  unfold cancelHandler at h
  rw [hr] at h
  obtain ⟨u, hu, -⟩ := Exec.bind_eq_ok.mp h
  exact Exec.access_eq_ok.mp hu

omit [DecidableEq ρ] [DecidableEq τ] in
theorem live_of_cancelKiller {t : τ} (h : s.cancelKiller t = .ok s')
    (hc : s.killerContext t = some c) : c ∈ s.contexts.live := by
  unfold cancelKiller at h
  rw [hc] at h
  obtain ⟨u, hu, -⟩ := Exec.bind_eq_ok.mp h
  exact Exec.access_eq_ok.mp hu

omit [DecidableEq ρ] [DecidableEq τ] in
/-- `cancel_waiting` of a killer changes nothing but a context. -/
theorem handler_of_cancelKiller {t : τ} (h : s.cancelKiller t = .ok s') :
    s'.handlerReceiver = s.handlerReceiver ∧ s'.receivers = s.receivers := by
  obtain rfl : { s with killer := s.released t } = s' :=
    Except.ok.inj ((cancelKiller_eq fun c hc => live_of_cancelKiller h hc).symm.trans h)
  exact ⟨rfl, rfl⟩

/-- An operation that returns followed no pointer to an object that is
gone. -/
theorem safe_of_run (h : op.run s = .ok (ds, s')) : op.Safe s := by
  cases op with
  | cancel t =>
    obtain ⟨-, h⟩ := silent_eq_ok.mp h
    simp only [SignalOp.Safe]
    unfold cancelBlocking at h
    cases hst : s.state t with
    | active => trivial
    | awaitsSignal =>
      rw [hst] at h
      obtain ⟨p, hp, -⟩ := Exec.bind_eq_ok.mp h
      exact fun r hr => live_of_cancelHandler hp hr
    | awaitsSignalContextKill =>
      rw [hst] at h
      exact fun c hc => live_of_cancelKiller h hc
  | destructThread t =>
    obtain ⟨-, h⟩ := silent_eq_ok.mp h
    obtain ⟨p, hp, h⟩ := Exec.bind_eq_ok.mp h
    obtain ⟨q, hq, -⟩ := Exec.bind_eq_ok.mp h
    obtain ⟨hhandler, hreceivers⟩ := handler_of_cancelKiller hp
    exact ⟨fun c hc => live_of_cancelKiller hp hc,
      fun r hr => hreceivers ▸ live_of_cancelHandler hq (hhandler ▸ hr)⟩
  | _ => trivial

/-! ## The steps of a run -/

omit [DecidableEq ρ] [DecidableEq γ] [DecidableEq τ] in
theorem Init.inv (h : Init s) : ∃ H D A, Inv s H D A := by
  obtain ⟨receiver, rfl⟩ := h
  exact ⟨_, _, _, inv_init receiver⟩

theorem Trans.outcome (h : ∃ H D A, Inv s H D A) (ht : Trans s a s') : Outcome s a.1 a.2 s' := by
  obtain ⟨H, D, A, h⟩ := h
  obtain ⟨ds, p, hrun, ho⟩ := h.run ht.1 (safe_of_run ht.2)
  obtain ⟨rfl, rfl⟩ : ds = a.2 ∧ p = s' := by simpa using hrun.symm.trans ht.2
  exact ho

theorem inv_of_run (h : Run Init Trans hist s) : ∃ H D A, Inv s H D A :=
  Run.invariant (I := fun s => ∃ H D A, Inv s H D A) (fun _ => Init.inv)
    (fun _ _ _ hs ht => (Trans.outcome hs ht).inv) h

/-- What each step of a run does to the contexts. -/
def Step (s : Signals ρ γ τ) (a : SignalStep ρ γ τ) (s' : Signals ρ γ τ) : Prop :=
  a.1.Allowed s ∧ Effect s a.1 a.2 s'

theorem steps_of_run (h : Run Init Trans hist s) : Run Init Step hist s :=
  Run.of_invariant (I := fun s => ∃ H D A, Inv s H D A) (fun _ => Init.inv)
    (fun _ _ _ hs ht => ⟨(Trans.outcome hs ht).inv, ht.1, (Trans.outcome hs ht).effect⟩) h

omit [DecidableEq ρ] [DecidableEq τ] in
/-- A context that existed before does not exist anew. -/
theorem Effect.old (h : Effect s op ds s') (hf : ¬ s.contexts.Fresh c)
    (hc : c ∈ s'.contexts.live) : c ∈ s.contexts.live := by
  by_contra hno
  exact hf (h.created c hc hno).1

omit [DecidableEq ρ] [DecidableEq τ] in
/-- A step delivers a context once, with all its signals, or not at
all. -/
theorem Effect.cases (h : Effect s op ds s') :
    ds = [] ∨ ∃ d, ds = [d] ∧ d.context ∈ s.contexts.live ∧
      d.num = (op.touch s d.context).submits ∧ (op.touch s d.context).submits ≠ 0 ∧
      (op.touch s d.context).ack = true := by
  match ds, h.single with
  | [], _ => exact .inl rfl
  | [d], _ =>
    obtain ⟨h1, -, h2⟩ := h.delivered d (by simp)
    exact .inr ⟨d, rfl, h1, h2⟩

/-! ## Counts -/

/-- The number of signals to `c` that `submit` accepts. -/
def accepts (s : Signals ρ γ τ) (c : γ) : SignalOp ρ γ τ → Nat
  | .submit c' n => if c' = c ∧ s.canSubmit c n = true then n.toNat else 0
  | _ => 0

/-- The number of signals of `c` that handlers receive. -/
def receives (c : γ) : List (Delivery γ τ) → Nat
  | [] => 0
  | d :: ds => (if d.context = c then d.num.toNat else 0) + receives c ds

/-- All signals to `c` that were accepted in a run. -/
def accepted (c : γ) : List (Signals ρ γ τ × SignalStep ρ γ τ) → Nat
  | [] => 0
  | (s, op, _) :: hist => accepts s c op + accepted c hist

/-- All signals of `c` that were handed to handlers in a run. -/
def handedOut (c : γ) : List (Signals ρ γ τ × SignalStep ρ γ τ) → Nat
  | [] => 0
  | (_, _, ds) :: hist => receives c ds + handedOut c hist

omit [DecidableEq ρ] [DecidableEq τ] in
theorem touch_submits :
    (op.touch s c).submits.toNat = (s.submits c).toNat + accepts s c op := by
  cases op with
  | submit c' n =>
    by_cases hcc : c' = c ∧ s.canSubmit c n = true
    · have hfit : ¬ s.submits c ≥ ~~~ 0 - n := by
        intro hge
        rw [canSubmit, decide_eq_true hge, Bool.or_true] at hcc
        simp at hcc
      simp [SignalOp.touch, accepts, hcc, submits_add hfit]
    · simp [SignalOp.touch, accepts, hcc, data]
  | ack c' =>
    by_cases hcc : c' = c ∧ s.killed c = false
    · simp [SignalOp.touch, accepts, hcc, data]
    · simp [SignalOp.touch, accepts, hcc, data]
  | kill c' k =>
    by_cases hcc : c' = c
    · simp [SignalOp.touch, accepts, hcc, data]
    · simp [SignalOp.touch, accepts, hcc, data]
  | _ => rfl

omit [DecidableEq ρ] [DecidableEq τ] in
/-- What a step hands out is what it does not leave pending. -/
theorem Effect.balance (h : Effect s op ds s') (hc : c ∈ s.contexts.live)
    (hc' : c ∈ s'.contexts.live) :
    receives c ds + (s'.submits c).toNat = (s.submits c).toNat + accepts s c op := by
  have hdata : (s'.data c).submits = _ := congrArg ContextData.submits (h.data c hc hc')
  rw [← touch_submits]
  obtain rfl | ⟨d, rfl, -, hnum, -⟩ := h.cases
  · simp only [List.not_mem_nil, false_and, exists_false, if_false] at hdata
    rw [← hdata]
    simp [receives, Signals.data]
  · by_cases hd : d.context = c
    · subst hd
      simp only [List.mem_singleton, exists_eq_left, if_true] at hdata
      have h0 : s'.submits d.context = 0 := hdata
      simp [receives, h0, hnum]
    · simp only [List.mem_singleton, exists_eq_left, hd, if_false] at hdata
      rw [← hdata]
      simp [receives, hd, Signals.data]

omit [DecidableEq ρ] [DecidableEq τ] in
/-- A context that does not exist accepts and delivers nothing. -/
theorem Step.not_live (h : Step s a s') (hc : c ∉ s.contexts.live) :
    accepts s c a.1 = 0 ∧ receives c a.2 = 0 := by
  obtain ⟨op, ds⟩ := a
  constructor
  · cases op with
    | submit c' n =>
      have hcc : c' ≠ c := fun he => hc (he ▸ h.1)
      simp [accepts, hcc]
    | _ => rfl
  · obtain hds | ⟨d, hds, hd, -⟩ := h.2.cases
    · obtain rfl : ds = [] := hds
      rfl
    · obtain rfl : ds = [d] := hds
      have hdc : d.context ≠ c := fun he => hc (he ▸ hd)
      simp [receives, hdc]

omit [DecidableEq ρ] [DecidableEq τ] in
/-- No signal is lost, and none is handed out twice. -/
theorem counted_of_steps (h : Run Init Step hist s) :
    (∀ c ∈ s.contexts.live, accepted c hist = handedOut c hist + (s.submits c).toNat) ∧
      ∀ c, s.contexts.Fresh c → accepted c hist = 0 ∧ handedOut c hist = 0 := by
  induction h with
  | start hs =>
    obtain ⟨receiver, rfl⟩ := hs
    simp [init, Objects.init, accepted, handedOut]
  | @step hist s s' a hr ht ih =>
    obtain ⟨hlive, hfresh⟩ := ih
    have hacc : ∀ c, accepted c ((s, a) :: hist) = accepts s c a.1 + accepted c hist :=
      fun _ => rfl
    have hout : ∀ c, handedOut c ((s, a) :: hist) = receives c a.2 + handedOut c hist :=
      fun _ => rfl
    refine ⟨fun c hc' => ?_, fun c hf => ?_⟩
    · rw [hacc, hout]
      by_cases hc : c ∈ s.contexts.live
      · have hold := hlive c hc
        have hbal := ht.2.balance hc hc'
        omega
      · obtain ⟨hf, hd⟩ := ht.2.created c hc' hc
        obtain ⟨h1, h2⟩ := hfresh c hf
        obtain ⟨h3, h4⟩ := ht.not_live hc
        have h0 : s'.submits c = 0 := congrArg ContextData.submits hd
        simp [h1, h2, h3, h4, h0]
    · have hf' := ht.2.fresh c hf
      obtain ⟨h1, h2⟩ := hfresh c hf'
      obtain ⟨h3, h4⟩ := ht.not_live hf'.1
      rw [hacc, hout, h1, h2, h3, h4]
      exact ⟨rfl, rfl⟩

/-! ## Acknowledgement -/

/-- The step delivers the context. -/
def Delivers (c : γ) (e : Signals ρ γ τ × SignalStep ρ γ τ) : Prop := ∃ d ∈ e.2.2, d.context = c

/-- The context was delivered and lacks an acknowledgement, unless it is
gone. -/
def Unacknowledged (c : γ) (s : Signals ρ γ τ) : Prop :=
  ¬ s.contexts.Fresh c ∧ (c ∈ s.contexts.live → s.ack c = false)

omit [DecidableEq ρ] [DecidableEq τ] in
theorem touch_ack (hop : op ≠ .ack c) : (op.touch s c).ack = s.ack c := by
  cases op with
  | ack c' =>
    have hcc : c' ≠ c := fun he => hop (he ▸ rfl)
    simp [SignalOp.touch, hcc, data]
  | submit c' n => simp only [SignalOp.touch]; split <;> rfl
  | kill c' k => simp only [SignalOp.touch]; split <;> rfl
  | _ => rfl

omit [DecidableEq ρ] [DecidableEq τ] in
theorem Effect.unacknowledged (h : Effect s op ds s') (hc : ∃ d ∈ ds, d.context = c) :
    Unacknowledged c s' := by
  obtain ⟨d, hd, rfl⟩ := hc
  have hlive := (h.delivered d hd).1
  refine ⟨fun hf => (h.fresh _ hf).1 hlive, fun hc' => ?_⟩
  have hdata := h.data _ hlive hc'
  rw [if_pos ⟨d, hd, rfl⟩] at hdata
  exact congrArg ContextData.ack hdata

omit [DecidableEq ρ] [DecidableEq τ] in
theorem Unacknowledged.step (hu : Unacknowledged c s) (h : Effect s op ds s')
    (hop : op ≠ .ack c) : Unacknowledged c s' := by
  refine ⟨fun hf => hu.1 (h.fresh _ hf), fun hc' => ?_⟩
  have hc := h.old hu.1 hc'
  have hack : (s'.data c).ack = _ := congrArg ContextData.ack (h.data c hc hc')
  split at hack
  · exact hack
  · exact hack.trans ((touch_ack hop).trans (hu.2 hc))

omit [DecidableEq ρ] [DecidableEq τ] in
/-- Between two deliveries of a context it is acknowledged. -/
theorem acknowledged_of_steps {later mid earlier : List (Signals ρ γ τ × SignalStep ρ γ τ)}
    {e₁ e₂ : Signals ρ γ τ × SignalStep ρ γ τ}
    (h : Run Init Step (later ++ e₂ :: (mid ++ e₁ :: earlier)) s) (h₁ : Delivers c e₁)
    (h₂ : Delivers c e₂) : ∃ e ∈ e₂ :: mid, e.2.1 = .ack c := by
  by_contra hno
  simp only [not_exists, not_and] at hno
  rw [List.forall_mem_cons] at hno
  obtain ⟨hmid, s', hlast, -⟩ := h.cut
  have hu : Unacknowledged c e₂.1 := Run.since (C := fun _ a => a.1 ≠ .ack c)
    (fun _ ht => ht.2.unacknowledged h₁) (fun _ _ _ hu ht hop => hu.step ht.2 hop) hmid hno.2
  obtain ⟨d, hd, rfl⟩ := h₂
  obtain ⟨hlive, -, -, -, hack⟩ := hlast.2.delivered d hd
  rw [touch_ack hno.1, hu.2 hlive] at hack
  simp at hack

/-- `H` and `D` are the waiting handlers and the deliverable contexts of
the receivers, and no receiver has both. -/
structure Waiting (s : Signals ρ γ τ) (H : ρ → List τ) (D : ρ → List γ) : Prop where
  handlers : s.handlers.Repr H
  deliver : s.deliver.Repr D
  handler : ∀ r t, t ∈ H r ↔ t ∈ s.threads.live ∧ s.handlerReceiver t = some r
  context : ∀ r c, c ∈ D r ↔
    c ∈ s.contexts.live ∧ s.receiver c = r ∧ s.ack c = true ∧ s.submits c ≠ 0
  quiet : ∀ r, D r = [] ∨ H r = []

omit [DecidableEq ρ] [DecidableEq γ] [DecidableEq τ] in
theorem Inv.waiting (h : Inv s H D A) : Waiting s H D :=
  ⟨h.handlers, h.deliver, fun _ _ => h.mem_handlers, fun _ _ => h.mem_deliver, h.quiet⟩

/-- In every run, the signals accepted for a context are those handed to
handlers and those pending. A step delivers at most one context, and
none twice without an acknowledgement in between. The contexts that wait
for a handler are those acknowledged with pending signals, and no
handler waits beside them. All operations return, except those that
follow a pointer to an object that is gone. -/
theorem delivery_of_run (h : Run Init Trans hist s) :
    (∀ c ∈ s.contexts.live, accepted c hist = handedOut c hist + (s.submits c).toNat) ∧
    (∀ e ∈ hist, e.2.2.length ≤ 1) ∧
    (∀ c later mid earlier e₁ e₂, hist = later ++ e₂ :: (mid ++ e₁ :: earlier) →
      Delivers c e₁ → Delivers c e₂ → ∃ e ∈ e₂ :: mid, e.2.1 = .ack c) ∧
    (∃ H D, Waiting s H D) ∧
    ∀ op : SignalOp ρ γ τ, op.Allowed s → ((∃ r, op.run s = .ok r) ↔ op.Safe s) := by
  obtain ⟨H, D, A, hinv⟩ := inv_of_run h
  have hsteps := steps_of_run h
  refine ⟨(counted_of_steps hsteps).1, fun e he => ?_, ?_, ⟨H, D, hinv.waiting⟩, fun op ha => ?_⟩
  · obtain ⟨later, earlier, rfl⟩ := List.append_of_mem he
    obtain ⟨-, s', ht, -⟩ := hsteps.cut
    exact ht.2.single
  · rintro c later mid earlier e₁ e₂ rfl h₁ h₂
    exact acknowledged_of_steps hsteps h₁ h₂
  · constructor
    · rintro ⟨⟨ds, s'⟩, hrun⟩
      exact safe_of_run hrun
    · intro hsafe
      obtain ⟨ds, s', hrun, -⟩ := hinv.run ha hsafe
      exact ⟨(ds, s'), hrun⟩

theorem exists_signal_run (receiver : γ → ρ) (ops : List (SignalOp ρ γ τ))
    {p : List (Signals ρ γ τ × SignalStep ρ γ τ) × Signals ρ γ τ → Prop} [DecidablePred p]
    (h : (replay exec ops ([], init receiver)).any (fun r => decide (p r)) = true) :
    ∃ hist s, Run Init Trans hist s ∧ p (hist, s) :=
  exists_run (fun _ _ _ _ => trans_of_exec) ⟨receiver, rfl⟩ h

/-- A handler receives three signals of a context at once, the next one
two more after the acknowledgement, and one is pending. -/
theorem delivery_of_run_redelivered :
    ∃ (hist : List (Signals (Fin 1) (Fin 2) (Fin 2) × SignalStep (Fin 1) (Fin 2) (Fin 2)))
      (s : Signals (Fin 1) (Fin 2) (Fin 2)), Run Init Trans hist s ∧
      (0 ∈ s.contexts.live ∧ handedOut 0 hist = 5 ∧ s.submits 0 = 1) ∧
      accepted 0 hist = handedOut 0 hist + (s.submits 0).toNat := by
  obtain ⟨hist, s, h, hp⟩ := exists_signal_run (fun _ : Fin 2 => (0 : Fin 1))
    [.newReceiver 0, .newContext 0 0 7, .newContext 1 0 8, .newThread (0 : Fin 2), .newThread 1,
      .submit 0 1, .submit 0 2, .addHandler 0 0, .submit 0 2, .submit 1 4, .addHandler 0 1,
      .addHandler 0 0, .ack 0, .submit 0 1, .destructContext 1]
    (p := fun r => 0 ∈ r.2.contexts.live ∧ handedOut 0 r.1 = 5 ∧ r.2.submits 0 = 1)
    (by decide +kernel)
  exact ⟨hist, s, h, hp, (delivery_of_run h).1 0 hp.1⟩

/-! ## Pointers between the objects -/

/-- Killers and contexts point to each other or not at all, and a handler
points to the receiver in whose queue it is. -/
structure Consistent (s : Signals ρ γ τ) : Prop where
  killer : ∀ k ∈ s.threads.live, ∀ c, s.killerContext k = some c →
    c ∈ s.contexts.live ∧ s.killer c = some k
  context : ∀ c ∈ s.contexts.live, ∀ k, s.killer c = some k →
    k ∈ s.threads.live ∧ s.killerContext k = some c
  handler : ∃ H, s.handlers.Repr H ∧ ∀ t ∈ s.threads.live, ∀ r, s.handlerReceiver t = some r →
    r ∈ s.receivers.live ∧ t ∈ H r

/-- The invariant of the runs in which every step is orderly. -/
def OrderlyInv (s : Signals ρ γ τ) : Prop := (∃ H D A, Inv s H D A) ∧ CrossRef s

omit [DecidableEq ρ] [DecidableEq γ] [DecidableEq τ] in
theorem OrderlyInv.consistent (h : OrderlyInv s) : Consistent s := by
  obtain ⟨⟨H, D, A, hinv⟩, hx⟩ := h
  refine ⟨fun _ hk _ => hx.killer hk, fun c hc k hk => ?_, H, hinv.handlers, fun t ht r hr => ?_⟩
  · obtain ⟨h1, h2, -⟩ := hinv.killer hc hk
    exact ⟨h1, h2⟩
  · exact ⟨hx.handler ht hr, hinv.mem_handlers.mpr ⟨ht, hr⟩⟩

omit [DecidableEq ρ] [DecidableEq γ] [DecidableEq τ] in
theorem Init.orderlyInv (h : Init s) : OrderlyInv s := by
  refine ⟨h.inv, ?_⟩
  obtain ⟨receiver, rfl⟩ := h
  exact ⟨by simp [init, Objects.init], by simp [init, Objects.init]⟩

theorem Trans.orderlyInv (h : OrderlyInv s) (ht : Trans s a s') (ho : a.1.Orderly s) :
    OrderlyInv s' := by
  have hout := ht.outcome h.1
  exact ⟨hout.inv, hout.cross ho h.2⟩

/-- With valid pointers, every operation returns. -/
theorem OrderlyInv.returns (h : OrderlyInv s) (ha : op.Allowed s) : ∃ r, op.run s = .ok r := by
  obtain ⟨⟨H, D, A, hinv⟩, hx⟩ := h
  have hsafe : op.Safe s := by
    cases op with
    | cancel t =>
      simp only [SignalOp.Safe]
      cases s.state t with
      | active => trivial
      | awaitsSignal => exact fun r hr => hx.handler ha hr
      | awaitsSignalContextKill => exact fun c hc => (hx.killer ha hc).1
    | destructThread t => exact ⟨fun c hc => (hx.killer ha hc).1, fun r hr => hx.handler ha hr⟩
    | _ => trivial
  obtain ⟨ds, s', hrun, -⟩ := hinv.run ha hsafe
  exact ⟨(ds, s'), hrun⟩

/-- A step that is not orderly leaves a pointer that is not valid. -/
theorem Trans.not_consistent (h : OrderlyInv s) (ht : Trans s a s') (ho : ¬ a.1.Orderly s) :
    ¬ Consistent s' := by
  obtain ⟨⟨H, D, A, hinv⟩, hx⟩ := h
  obtain ⟨op, ds⟩ := a
  obtain ⟨ha, hrun⟩ := ht
  intro hcons
  cases op with
  | destructContext c =>
    obtain ⟨k, hk⟩ := Option.ne_none_iff_exists'.mp ho
    obtain ⟨h1, h2, -⟩ := hinv.killer ha hk
    obtain ⟨F, G, hs', -⟩ := hinv.destructContext ha
    obtain rfl : s.contextGone c F G = s' :=
      Except.ok.inj (hs'.symm.trans (silent_eq_ok.mp hrun).2)
    exact (mem_contextGone.mp (hcons.killer k h1 c h2).1).1 rfl
  | destructReceiver r =>
    obtain ⟨f, F, G, o, hs', hlive, -⟩ := hinv.destructReceiver r
    obtain rfl : s.receiverGone r f F G o = s' :=
      Except.ok.inj (hs'.symm.trans (silent_eq_ok.mp hrun).2)
    refine ho ⟨(hinv.handlers.empty_iff r).mpr ?_, fun c hc hr => ?_⟩
    · refine List.eq_nil_iff_forall_not_mem.mpr fun t hm => ?_
      obtain ⟨h1, h2⟩ := hinv.mem_handlers.mp hm
      obtain ⟨H', -, hH'⟩ := hcons.handler
      exact (Finset.mem_erase.mp (hH' t h1 r h2).1).1 rfl
    · cases hk : s.killer c with
      | none => rfl
      | some k =>
        obtain ⟨h1, h2, -⟩ := hinv.killer hc hk
        exact absurd hr (hlive.mp (hcons.killer k h1 c h2).1).2
  | cancel t =>
    obtain ⟨c, hc⟩ := Option.ne_none_iff_exists'.mp ho
    obtain ⟨h1, h2⟩ := hx.killer ha hc
    have hst := (hinv.killer h1 h2).2.2.1
    have hs' : s.cancelBlocking t = .ok { s with killer := s.released t } := by
      unfold cancelBlocking
      rw [hst]
      exact cancelKiller_eq fun c hc => (hx.killer ha hc).1
    obtain rfl : { s with killer := s.released t } = s' :=
      Except.ok.inj (hs'.symm.trans (silent_eq_ok.mp hrun).2)
    have hk : s.released t c = some t := (hcons.killer t ha c hc).2
    simp [released, hc] at hk
  | _ => exact ho trivial

/-- The pointers are valid in every state of a run exactly if all its
steps are orderly. In such a run every operation returns. -/
theorem pointers_valid_iff (h : Run Init Trans hist s) :
    ((∀ t ∈ reached hist s, Consistent t) ↔ ∀ e ∈ hist, e.2.1.Orderly e.1) ∧
    ((∀ e ∈ hist, e.2.1.Orderly e.1) →
      ∀ op : SignalOp ρ γ τ, op.Allowed s → ∃ r, op.run s = .ok r) := by
  constructor
  · exact Run.forall_reached_iff (I := OrderlyInv) (C := fun s a => a.1.Orderly s)
      (fun _ => Init.orderlyInv) (fun _ _ _ => Trans.orderlyInv)
      (fun _ => OrderlyInv.consistent) (fun _ _ _ => Trans.not_consistent) h
  · intro ho op ha
    exact (Run.invariant_of (I := OrderlyInv) (C := fun s a => a.1.Orderly s)
      (fun _ => Init.orderlyInv) (fun _ _ _ => Trans.orderlyInv) h ho).returns ha

/-- A kill that waits is ended by the acknowledgement before the context
is destructed. -/
theorem pointers_valid_iff_acknowledged :
    ∃ (hist : List (Signals (Fin 1) (Fin 1) (Fin 2) × SignalStep (Fin 1) (Fin 1) (Fin 2)))
      (s : Signals (Fin 1) (Fin 1) (Fin 2)), Run Init Trans hist s ∧
      (s.contexts.live = ∅ ∧ s.state 1 = .active) ∧ ∀ t ∈ reached hist s, Consistent t := by
  obtain ⟨hist, s, h, hp, ho⟩ := exists_signal_run (fun _ : Fin 1 => (0 : Fin 1))
    [.newReceiver 0, .newContext 0 0 7, .newThread (0 : Fin 2), .newThread 1, .addHandler 0 0,
      .submit 0 1, .kill 0 1, .ack 0, .destructContext 0, .addHandler 0 0, .cancel 0,
      .destructReceiver 0]
    (p := fun r => (r.2.contexts.live = ∅ ∧ r.2.state 1 = .active) ∧
      ∀ e ∈ r.1, e.2.1.Orderly e.1) (by decide +kernel)
  exact ⟨hist, s, h, hp, (pointers_valid_iff h).1.mpr ho⟩

/-- A context is destructed while a kill waits for its acknowledgement:
the killer still points to it, and the destruction of the thread then
follows this pointer. -/
theorem killer_points_to_destructed_context :
    ∃ (hist : List (Signals (Fin 1) (Fin 1) (Fin 2) × SignalStep (Fin 1) (Fin 1) (Fin 2)))
      (s : Signals (Fin 1) (Fin 1) (Fin 2)), Run Init Trans hist s ∧
      (s.killerContext 1 = some 0 ∧ 0 ∉ s.contexts.live ∧
        (SignalOp.destructThread 1).run s = .error .pointer) ∧ ¬ Consistent s := by
  obtain ⟨hist, s, h, ht, hc, hgone⟩ := exists_signal_run (fun _ : Fin 1 => (0 : Fin 1))
    [.newReceiver 0, .newContext 0 0 7, .newThread (0 : Fin 2), .newThread 1, .addHandler 0 0,
      .submit 0 1, .kill 0 1, .destructContext 0]
    (p := fun r => 1 ∈ r.2.threads.live ∧ r.2.killerContext 1 = some 0 ∧
      0 ∉ r.2.contexts.live) (by decide +kernel)
  dsimp only at hc hgone
  refine ⟨hist, s, h, ⟨hc, hgone, ?_⟩, fun hcons => hgone (hcons.killer 1 ht 0 hc).1⟩
  simp [SignalOp.run, SignalOp.silent, destructThread, cancelKiller, hc, Exec.access, hgone]

/-! ## Killed contexts -/

/-- A kill of the context comes to its end with this operation: `kill`
leaves no killer that waits, or `ack` ends the waiting. -/
def CompletesKill (s : Signals ρ γ τ) (c : γ) : SignalOp ρ γ τ → Prop
  | .kill c' _ => c' = c ∧ (s.killed c = true ∨ s.ack c = true) ∧ s.killer c = none
  | .ack c' => c' = c ∧ s.ack c = false ∧ s.killed c = true ∧ s.killer c ≠ none
  | _ => False

/-- No context is killed while it waits for a handler with pending
signals. -/
def KillsDrained (s : Signals ρ γ τ) : SignalOp ρ γ τ → Prop
  | .kill c _ => s.killed c = false → s.ack c = true → s.submits c = 0
  | _ => True

instance (s : Signals ρ γ τ) : (op : SignalOp ρ γ τ) → Decidable (KillsDrained s op)
  | .kill c _ => inferInstanceAs
      (Decidable (s.killed c = false → s.ack c = true → s.submits c = 0))
  | .newReceiver _ | .newContext _ _ _ | .newThread _ | .submit _ _ | .ack _ | .addHandler _ _
  | .cancel _ | .destructContext _ | .destructReceiver _ | .destructThread _ => .isTrue trivial

/-- A killed context is not deliverable. -/
def Drained (s : Signals ρ γ τ) : Prop :=
  ∀ c ∈ s.contexts.live, s.killed c = true → s.ack c = false ∨ s.submits c = 0

/-- The context is killed, unless it is gone. -/
def Killed (c : γ) (s : Signals ρ γ τ) : Prop :=
  ¬ s.contexts.Fresh c ∧ (c ∈ s.contexts.live → s.killed c = true)

omit [DecidableEq ρ] [DecidableEq τ] in
/-- No operation touches what a killed context has to deliver. -/
theorem touch_of_killed (hk : s.killed c = true) : op.touch s c = s.data c := by
  cases op with
  | submit c' n => simp [SignalOp.touch, canSubmit, hk]
  | ack c' => simp [SignalOp.touch, hk]
  | kill c' k =>
    by_cases hcc : c' = c
    · simp [SignalOp.touch, hcc, data, hk]
    · simp [SignalOp.touch, hcc]
  | _ => rfl

omit [DecidableEq ρ] [DecidableEq τ] in
theorem Effect.killed (h : Effect s op ds s') (hc : c ∈ s.contexts.live)
    (hc' : c ∈ s'.contexts.live) : s'.killed c = (op.touch s c).killed := by
  have hk : (s'.data c).killed = _ := congrArg ContextData.killed (h.data c hc hc')
  split at hk
  · exact hk
  · exact hk

omit [DecidableEq ρ] [DecidableEq τ] in
theorem Killed.step (hk : Killed c s) (h : Effect s op ds s') : Killed c s' := by
  refine ⟨fun hf => hk.1 (h.fresh _ hf), fun hc' => ?_⟩
  have hc := h.old hk.1 hc'
  rw [h.killed hc hc', touch_of_killed (hk.2 hc)]
  exact hk.2 hc

omit [DecidableEq ρ] [DecidableEq τ] in
theorem CompletesKill.killed (hk : CompletesKill s c op) (ha : op.Allowed s)
    (h : Effect s op ds s') : Killed c s' := by
  cases op with
  | kill c' k =>
    obtain ⟨rfl, -⟩ := hk
    refine ⟨fun hf => (h.fresh _ hf).1 ha.1, fun hc' => ?_⟩
    rw [h.killed ha.1 hc']
    simp [SignalOp.touch]
  | ack c' =>
    obtain ⟨rfl, -, hkd, -⟩ := hk
    exact Killed.step ⟨fun hf => hf.1 ha, fun _ => hkd⟩ h
  | _ => exact hk.elim

omit [DecidableEq ρ] [DecidableEq τ] in
/-- Only `kill` kills a context. -/
theorem touch_killed (hk : s.killed c = false) (hk' : (op.touch s c).killed = true) :
    ∃ k, op = .kill c k := by
  cases op with
  | kill c' k =>
    by_cases hcc : c' = c
    · exact ⟨k, hcc ▸ rfl⟩
    · simp [SignalOp.touch, hcc, data, hk] at hk'
  | submit c' n =>
    simp only [SignalOp.touch] at hk'
    split at hk' <;> simp [data, hk] at hk'
  | ack c' =>
    simp only [SignalOp.touch] at hk'
    split at hk' <;> simp [data, hk] at hk'
  | _ => simp [SignalOp.touch, data, hk] at hk'

omit [DecidableEq ρ] [DecidableEq τ] in
theorem Drained.step (hd : Drained s) (h : Effect s op ds s') (hop : KillsDrained s op) :
    Drained s' := by
  intro c hc' hk'
  by_cases hc : c ∈ s.contexts.live
  · have hdata := h.data c hc hc'
    rw [h.killed hc hc'] at hk'
    split at hdata
    · exact .inl (congrArg ContextData.ack hdata)
    · have hack : s'.ack c = (op.touch s c).ack := congrArg ContextData.ack hdata
      have hsub : s'.submits c = (op.touch s c).submits := congrArg ContextData.submits hdata
      rw [hack, hsub]
      cases hk : s.killed c with
      | true =>
        rw [touch_of_killed hk]
        exact hd c hc hk
      | false =>
        obtain ⟨k, rfl⟩ := touch_killed hk hk'
        simp only [SignalOp.touch, if_true, data]
        cases hack : s.ack c with
        | false => exact .inl rfl
        | true => exact .inr (hop hk hack)
  · have hdata := (h.created c hc' hc).2
    exact .inr (congrArg ContextData.submits hdata)

omit [DecidableEq ρ] [DecidableEq τ] in
/-- A killed context that is not deliverable is not delivered. -/
theorem Effect.not_delivered (h : Effect s op ds s') (hk : Killed c s) (hd : Drained s) :
    ∀ d ∈ ds, d.context ≠ c := by
  rintro d hmem rfl
  obtain ⟨hlive, -, -, hsub, hack⟩ := h.delivered d hmem
  rw [touch_of_killed (hk.2 hlive)] at hsub hack
  rcases hd _ hlive (hk.2 hlive) with h0 | h0
  · exact absurd (hack.symm.trans h0) (by simp)
  · exact hsub h0

/-- After a completed kill the context is not delivered anymore. -/
def HaltsKilled (hist : List (Signals ρ γ τ × SignalStep ρ γ τ)) : Prop :=
  ∀ c later e₁ earlier, hist = later ++ e₁ :: earlier → CompletesKill e₁.1 c e₁.2.1 →
    ∀ e ∈ later, ∀ d ∈ e.2.2, d.context ≠ c

/-- A run halts the contexts that it kills if none of them waits for a
handler with pending signals when it is killed. -/
theorem haltsKilled_of_run (h : Run Init Trans hist s)
    (hdrained : ∀ e ∈ hist, KillsDrained e.1 e.2.1) : HaltsKilled hist := by
  rintro c later e₁ earlier rfl hkill e he
  obtain ⟨later₂, later₁, rfl⟩ := List.append_of_mem he
  have hsteps := steps_of_run h
  rw [List.append_assoc, List.cons_append] at hsteps
  obtain ⟨hrun, s', hlast, -⟩ := hsteps.cut
  have hk : Killed c e.1 := Run.since (C := fun _ _ => True)
    (fun _ ht => hkill.killed ht.1 ht.2) (fun _ _ _ hk ht _ => hk.step ht.2) hrun
    fun _ _ => trivial
  have hd : Drained e.1 := Run.invariant_of (C := fun s a => KillsDrained s a.1)
    (fun _ hs => by obtain ⟨receiver, rfl⟩ := hs; simp [Drained, init])
    (fun _ _ _ hd ht hop => hd.step ht.2 hop) hrun
    fun e' he' => hdrained e' (by simp only [List.mem_append, List.mem_cons] at he' ⊢; tauto)
  exact hlast.2.not_delivered hk hd

/-- A kill that waited for the acknowledgement is completed, and another
handler then comes in vain. -/
theorem haltsKilled_of_run_acknowledged :
    ∃ (hist : List (Signals (Fin 1) (Fin 1) (Fin 2) × SignalStep (Fin 1) (Fin 1) (Fin 2)))
      (s : Signals (Fin 1) (Fin 1) (Fin 2)), Run Init Trans hist s ∧
      (hist.map fun e => e.2) =
        [(.addHandler 0 0, []), (.submit 0 5, []), (.ack 0, []), (.kill 0 1, []),
          (.submit 0 2, []), (.submit 0 1, [⟨0, 0, 7, 1⟩]), (.addHandler 0 0, []),
          (.newThread 1, []), (.newThread 0, []), (.newContext 0 0 7, []), (.newReceiver 0, [])] ∧
      HaltsKilled hist := by
  obtain ⟨hist, s, h, hp, hdrained⟩ := exists_signal_run (fun _ : Fin 1 => (0 : Fin 1))
    [.newReceiver 0, .newContext 0 0 7, .newThread (0 : Fin 2), .newThread 1, .addHandler 0 0,
      .submit 0 1, .submit 0 2, .kill 0 1, .ack 0, .submit 0 5, .addHandler 0 0]
    (p := fun r => (r.1.map fun e => e.2) =
        [(.addHandler 0 0, []), (.submit 0 5, []), (.ack 0, []), (.kill 0 1, []),
          (.submit 0 2, []), (.submit 0 1, [⟨0, 0, 7, 1⟩]), (.addHandler 0 0, []),
          (.newThread 1, []), (.newThread 0, []), (.newContext 0 0 7, []), (.newReceiver 0, [])] ∧
      ∀ e ∈ r.1, KillsDrained e.1 e.2.1) (by decide +kernel)
  exact ⟨hist, s, h, hp, haltsKilled_of_run h hdrained⟩

/-- A context with a pending signal is killed at once, since it is
acknowledged. The next handler still receives the signal. -/
theorem killed_context_delivered :
    ∃ (hist : List (Signals (Fin 1) (Fin 1) (Fin 2) × SignalStep (Fin 1) (Fin 1) (Fin 2)))
      (s : Signals (Fin 1) (Fin 1) (Fin 2)), Run Init Trans hist s ∧ ¬ HaltsKilled hist := by
  obtain ⟨hist, s, h, hp, hs⟩ := exists_signal_run (fun _ : Fin 1 => (0 : Fin 1))
    [.newReceiver 0, .newContext 0 0 7, .newThread (0 : Fin 2), .newThread 1, .submit 0 1,
      .kill 0 1, .addHandler 0 0]
    (p := fun r => (r.1.map fun e => e.2).take 2 =
        [(.addHandler 0 0, [⟨0, 0, 7, 1⟩]), (.kill 0 1, [])] ∧
      ∀ e ∈ r.1, e.1.ack 0 = true ∧ e.1.killer 0 = none) (by decide +kernel)
  refine ⟨hist, s, h, fun hhalts => ?_⟩
  obtain _ | ⟨e₂, _ | ⟨e₁, earlier⟩⟩ := hist
  · simp at hp
  · simp at hp
  · simp only [List.map_cons, List.take_succ_cons, List.take_zero, List.cons.injEq, and_true] at hp
    obtain ⟨hack, hkiller⟩ := hs e₁ (by simp)
    refine hhalts 0 [e₂] e₁ earlier rfl ?_ e₂ (by simp) ⟨0, 0, 7, 1⟩ (by simp [hp.1]) rfl
    rw [hp.2]
    exact ⟨rfl, .inr hack, hkiller⟩

end Signals

end Genode.Kernel
