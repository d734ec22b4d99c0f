import Genode.Kernel.SignalReceiver

/-!
# SignalInvariant — who waits for what

The invariant of the signal objects, in terms of the lists that their
queues represent: `H r` are the handlers that wait at the receiver `r`,
`D r` the contexts it has to deliver and `A r` all its contexts. Each
operation gets one lemma that says what it does to a state that has the
invariant.
-/

namespace Genode.Kernel

open Lib Util

namespace Signals

variable {ρ γ τ : Type} [DecidableEq ρ] [DecidableEq γ] [DecidableEq τ]
variable {s s' : Signals ρ γ τ} {H : ρ → List τ} {D A : ρ → List γ} {r : ρ} {c : γ} {t k : τ}

/-- The queues of handlers and of deliverable contexts, and the pointers
that belong to them. -/
structure Linked (s : Signals ρ γ τ) (H : ρ → List τ) (D : ρ → List γ) : Prop where
  handlers : s.handlers.Repr H
  deliver : s.deliver.Repr D
  mem_handlers : ∀ {r t}, t ∈ H r ↔ t ∈ s.threads.live ∧ s.handlerReceiver t = some r
  mem_deliver : ∀ {r c}, c ∈ D r ↔
    c ∈ s.contexts.live ∧ s.receiver c = r ∧ s.ack c = true ∧ s.submits c ≠ 0
  receiver : ∀ {c}, c ∈ s.contexts.live → s.receiver c ∈ s.receivers.live
  known : ∀ {t r}, t ∈ s.threads.live → s.handlerReceiver t = some r → ¬ s.receivers.Fresh r
  state : ∀ {t}, t ∈ s.threads.live → (s.state t = .awaitsSignal ↔ s.handlerReceiver t ≠ none)
  killer : ∀ {c k}, c ∈ s.contexts.live → s.killer c = some k →
    k ∈ s.threads.live ∧ s.killerContext k = some c ∧ s.state k = .awaitsSignalContextKill ∧
      s.killed c = true

/-- The queues of all contexts. -/
structure Assigned (s : Signals ρ γ τ) (A : ρ → List γ) : Prop where
  repr : s.assigned.Repr A
  mem : ∀ {r c}, c ∈ A r ↔ c ∈ s.contexts.live ∧ s.receiver c = r

/-- No receiver has a deliverable context and a waiting handler. -/
def Quiet (H : ρ → List τ) (D : ρ → List γ) : Prop := ∀ r, D r = [] ∨ H r = []

structure Inv (s : Signals ρ γ τ) (H : ρ → List τ) (D A : ρ → List γ) : Prop extends
    Linked s H D where
  assigned : Assigned s A
  quiet : Quiet H D

omit [DecidableEq ρ] [DecidableEq γ] [DecidableEq τ] in
theorem inv_init (receiver : γ → ρ) :
    Inv (init receiver : Signals ρ γ τ) (fun _ => []) (fun _ => []) fun _ => [] where
  handlers := Fifos.repr_init
  deliver := Fifos.repr_init
  mem_handlers := by simp [init, Objects.init]
  mem_deliver := by simp [init, Objects.init]
  receiver := by simp [init, Objects.init]
  known := by simp [init, Objects.init]
  state := by simp [init, Objects.init]
  killer := by simp [init, Objects.init]
  assigned := ⟨Fifos.repr_init, by simp [init, Objects.init]⟩
  quiet := fun _ => .inl rfl

/-! ## Delivery -/

/-- The handler `t` of `r` received the signals of `c`. -/
def handed (s : Signals ρ γ τ) (r : ρ) (c : γ) (t : τ) : Signals ρ γ τ :=
  delivered (setState { s with
    deliver := (s.deliver.dequeue r).2
    handlers := (s.handlers.dequeue r).2
    handlerReceiver := Function.update s.handlerReceiver t none } t .active) c

theorem Linked.deliverNext (h : Linked s H D) {cs : List γ} {ts : List τ} (hc : D r = c :: cs)
    (ht : H r = t :: ts) :
    s.deliverNext r = .ok (⟨t, c, s.imprint c, s.submits c⟩, s.handed r c t) ∧
      Linked (s.handed r c t) (Function.update H r ts) (Function.update D r cs) := by
  have hdc := h.deliver.dequeue r
  have hdt := h.handlers.dequeue r
  have hcD : c ∈ D r := by simp [hc]
  have htH : t ∈ H r := by simp [ht]
  obtain ⟨hcl, hcr, hcack, hcsub⟩ := h.mem_deliver.mp hcD
  obtain ⟨htl, htr⟩ := h.mem_handlers.mp htH
  have hst : s.state t = .awaitsSignal := (h.state htl).mpr (by simp [htr])
  have hcs : (c :: cs).Nodup := hc ▸ h.deliver.nodup r
  have hts : (t :: ts).Nodup := ht ▸ h.handlers.nodup r
  rw [hc] at hdc
  rw [ht] at hdt
  constructor
  · unfold Signals.deliverNext
    rw [hdc.1, hdt.1]
    simp [Exec.access_of_mem hcl, Exec.access_of_mem htl, signalReceiveSignal, hst, handed,
      setState]
  · refine ⟨hdt.2, hdc.2, ?_, ?_, h.receiver, ?_, ?_, ?_⟩
    · intro r' t'
      rw [h.handlers.mem_tail ht, h.mem_handlers]
      by_cases htt : t' = t
      · subst htt; simp [handed, delivered, setState]
      · simp [handed, delivered, setState, htt]
    · intro r' c'
      rw [h.deliver.mem_tail hc, h.mem_deliver]
      by_cases hcc : c' = c
      · subst hcc; simp [handed, delivered, setState]
      · simp [handed, delivered, setState, hcc]
    · intro t' r' htl' hr'
      refine h.known htl' ?_
      by_cases htt : t' = t
      · subst htt; simp [handed, delivered, setState] at hr'
      · simpa [handed, delivered, setState, htt] using hr'
    · intro t' htl'
      by_cases htt : t' = t
      · subst htt; simp [handed, delivered, setState]
      · simpa [handed, delivered, setState, htt] using h.state htl'
    · intro c' k' hc' hk'
      obtain ⟨h1, h2, h3, h4⟩ := h.killer hc' hk'
      have hkt : k' ≠ t := by
        rintro rfl
        exact absurd (hst.symm.trans h3) (by simp)
      exact ⟨h1, h2, by simpa [handed, delivered, setState, hkt] using h3, h4⟩

/-- What `_listen` does if the receiver has at most one deliverable
context or at most one waiting handler: nothing, or one delivery. -/
inductive Listened (s : Signals ρ γ τ) (r : ρ) : List (Delivery γ τ) → Signals ρ γ τ → Prop where
  | quiet : Listened s r [] s
  | handed {c : γ} {t : τ} (hc : c ∈ s.contexts.live) (hr : s.receiver c = r)
      (hack : s.ack c = true) (hsub : s.submits c ≠ 0) (ht : t ∈ s.threads.live) :
      Listened s r [⟨t, c, s.imprint c, s.submits c⟩] (s.handed r c t)

omit [DecidableEq ρ] [DecidableEq γ] [DecidableEq τ] in
theorem Linked.deliver_empty (h : Linked s H D) :
    (s.deliver.empty r || s.handlers.empty r) = true ↔ D r = [] ∨ H r = [] := by
  rw [Bool.or_eq_true, h.deliver.empty_iff, h.handlers.empty_iff]

theorem Linked.listen (h : Linked s H D) (hother : ∀ r', r' ≠ r → D r' = [] ∨ H r' = [])
    (hone : (D r).length ≤ 1 ∨ (H r).length ≤ 1) :
    ∃ ds s' H' D', s.listen r = .ok (ds, s') ∧ Listened s r ds s' ∧ Linked s' H' D' ∧
      Quiet H' D' := by
  unfold Signals.listen
  by_cases hq : D r = [] ∨ H r = []
  · refine ⟨[], s, H, D, ?_, .quiet, h, fun r' => ?_⟩
    · unfold listenLoop
      rw [if_pos (h.deliver_empty.mpr hq)]
    · by_cases hr : r' = r
      · exact hr ▸ hq
      · exact hother r' hr
  · obtain ⟨hD, hH⟩ := not_or.mp hq
    obtain ⟨c, cs, hc⟩ := List.exists_cons_of_ne_nil hD
    obtain ⟨t, ts, ht⟩ := List.exists_cons_of_ne_nil hH
    obtain ⟨hnext, h'⟩ := h.deliverNext hc ht
    obtain ⟨hcl, hcr, hcack, hcsub⟩ := h.mem_deliver.mp (show c ∈ D r by simp [hc])
    have htl := (h.mem_handlers.mp (show t ∈ H r by simp [ht])).1
    have hquiet : Quiet (Function.update H r ts) (Function.update D r cs) := by
      intro r'
      by_cases hr : r' = r
      · subst hr
        rw [Function.update_self, Function.update_self]
        rw [hc, ht, List.length_cons, List.length_cons] at hone
        rcases hone with h1 | h1
        · exact .inl (List.length_eq_zero_iff.mp (by omega))
        · exact .inr (List.length_eq_zero_iff.mp (by omega))
      · rw [Function.update_of_ne hr, Function.update_of_ne hr]
        exact hother r' hr
    refine ⟨_, _, _, _, ?_, .handed hcl hcr hcack hcsub htl, h', hquiet⟩
    obtain ⟨n, hn⟩ : ∃ n, s.contexts.live.card = n + 1 :=
      ⟨s.contexts.live.card - 1, by have := Finset.card_pos.mpr ⟨c, hcl⟩; omega⟩
    rw [hn]
    unfold listenLoop
    rw [if_neg fun he => hq (h.deliver_empty.mp he)]
    dsimp only
    rw [hnext, Exec.ok_bind]
    dsimp only
    unfold listenLoop
    rw [if_pos (h'.deliver_empty.mpr (hquiet r))]
    rfl

omit [DecidableEq ρ] [DecidableEq γ] [DecidableEq τ] in
/-- The flag of the queue element says whether the context is to be
delivered. -/
theorem Linked.enqueued_iff (h : Linked s H D) (hc : c ∈ s.contexts.live) :
    s.deliver.enqueued c = true ↔ s.ack c = true ∧ s.submits c ≠ 0 := by
  rw [h.deliver.enq]
  constructor
  · rintro ⟨r, hr⟩
    exact (h.mem_deliver.mp hr).2.2
  · exact fun hd => ⟨_, h.mem_deliver.mpr ⟨hc, rfl, hd⟩⟩

/-- The context is to be delivered, with `n` signals. -/
def readied (s : Signals ρ γ τ) (c : γ) (n : UInt32) : Signals ρ γ τ :=
  { s with
    submits := Function.update s.submits c n
    ack := Function.update s.ack c true
    deliver := if s.deliver.enqueued c then s.deliver else s.deliver.enqueue (s.receiver c) c }

omit [DecidableEq τ] in
theorem Linked.readied (h : Linked s H D) (hc : c ∈ s.contexts.live) {n : UInt32} (hn : n ≠ 0) :
    ∃ D', Linked (s.readied c n) H D' ∧ (∀ r, r ≠ s.receiver c → D' r = D r) ∧
      (D' (s.receiver c)).length ≤ (D (s.receiver c)).length + 1 := by
  have hothers : ∀ {D' : ρ → List γ}, (s.readied c n).deliver.Repr D' →
      (∀ {r c'}, c' ∈ D' r ↔ c' ∈ D r ∨ c' = c ∧ r = s.receiver c) →
      Linked (s.readied c n) H D' := by
    intro D' hrepr hmem
    refine ⟨h.handlers, hrepr, h.mem_handlers, ?_, h.receiver, h.known, h.state, h.killer⟩
    intro r c'
    rw [hmem, h.mem_deliver]
    by_cases hcc : c' = c
    · subst hcc
      simp only [Signals.readied, Function.update_self, true_and]
      constructor
      · rintro (h' | rfl)
        · exact ⟨h'.1, h'.2.1, hn⟩
        · exact ⟨hc, rfl, hn⟩
      · rintro ⟨-, rfl, -⟩
        exact .inr rfl
    · simp [Signals.readied, hcc]
  cases he : s.deliver.enqueued c with
  | true =>
    refine ⟨D, hothers (by simpa [Signals.readied, he] using h.deliver) ?_, fun _ _ => rfl,
      Nat.le_succ _⟩
    intro r c'
    refine ⟨.inl, ?_⟩
    rintro (hm | ⟨rfl, rfl⟩)
    · exact hm
    · exact h.mem_deliver.mpr ⟨hc, rfl, (h.enqueued_iff hc).mp he⟩
  | false =>
    have hrepr := h.deliver.enqueue (h.deliver.not_enqueued.mp he) (s.receiver c)
    refine ⟨_, hothers (by simpa [Signals.readied, he] using hrepr) Fifos.Repr.mem_concat,
      fun r hr => by rw [Function.update_of_ne hr], ?_⟩
    rw [Function.update_self, List.length_append, List.length_singleton]

/-- A context with signals to deliver is told to its receiver. -/
theorem Inv.deliverable (h : Inv s H D A) (hc : c ∈ s.contexts.live) {p : Signals ρ γ τ}
    {n : UInt32} (hn : n ≠ 0)
    (hp : p = { s with submits := Function.update s.submits c n
                       ack := Function.update s.ack c true }) :
    ∃ ds s' H' D', p.deliverable c = .ok (ds, s') ∧
      Listened (s.readied c n) (s.receiver c) ds s' ∧ Linked s' H' D' ∧ Quiet H' D' := by
  obtain ⟨D', h', hother, hlen⟩ := h.toLinked.readied hc hn
  have hone : (D' (s.receiver c)).length ≤ 1 ∨ (H (s.receiver c)).length ≤ 1 := by
    rcases h.quiet (s.receiver c) with hq | hq
    · rw [hq] at hlen
      exact .inl hlen
    · rw [hq]
      exact .inr (Nat.zero_le _)
  obtain ⟨ds, s', H', D'', hl, hlistened, hlinked, hquiet⟩ := h'.listen
    (fun r hr => by rw [hother r hr]; exact h.quiet r) hone
  refine ⟨ds, s', H', D'', ?_, hlistened, hlinked, hquiet⟩
  have hrl : s.receiver c ∈ p.receivers.live := by rw [hp]; exact h.receiver hc
  have hpr : p.receiver c = s.receiver c := by rw [hp]
  have hps : p.submits c ≠ 0 := by rw [hp]; simpa using hn
  rw [Signals.deliverable, if_pos hps, addDeliverable, hpr, Exec.access_of_mem hrl, Exec.ok_bind,
    ← hl]
  subst hp
  cases he : s.deliver.enqueued c with
  | true => simp [Signals.readied, he]
  | false => simp [Signals.readied, he]

end Signals

/-! ## The operations -/

/-- The operations on signal objects. `cancel` is what makes a blocked
thread stop waiting, from outside. -/
inductive SignalOp (ρ γ τ : Type) where
  | newReceiver (r : ρ)
  | newContext (c : γ) (r : ρ) (imprint : UInt64)
  | newThread (t : τ)
  | submit (c : γ) (n : UInt32)
  | ack (c : γ)
  | kill (c : γ) (k : τ)
  | addHandler (r : ρ) (t : τ)
  | cancel (t : τ)
  | destructContext (c : γ)
  | destructReceiver (r : ρ)
  | destructThread (t : τ)
  deriving DecidableEq, Repr

/-- What counts for the delivery of a context. -/
structure ContextData where
  submits : UInt32
  ack : Bool
  killed : Bool
  deriving DecidableEq, Repr

def ContextData.handed (d : ContextData) : ContextData := { d with submits := 0, ack := false }

def Signals.data {ρ γ τ : Type} (s : Signals ρ γ τ) (c : γ) : ContextData :=
  ⟨s.submits c, s.ack c, s.killed c⟩

namespace SignalOp

variable {ρ γ τ : Type} [DecidableEq ρ] [DecidableEq γ] [DecidableEq τ] (s : Signals ρ γ τ)

/-- The objects exist, and a thread that calls the kernel is not
blocked. -/
def Allowed : SignalOp ρ γ τ → Prop
  | newReceiver r => s.receivers.Fresh r
  | newContext c r _ => s.contexts.Fresh c ∧ r ∈ s.receivers.live
  | newThread t => s.threads.Fresh t
  | submit c _ | ack c | destructContext c => c ∈ s.contexts.live
  | kill c k => c ∈ s.contexts.live ∧ k ∈ s.threads.live ∧ s.state k = .active
  | addHandler r t => r ∈ s.receivers.live ∧ t ∈ s.threads.live ∧ s.state t = .active
  | cancel t | destructThread t => t ∈ s.threads.live
  | destructReceiver r => r ∈ s.receivers.live

instance : (op : SignalOp ρ γ τ) → Decidable (op.Allowed s)
  | newReceiver r => inferInstanceAs (Decidable (s.receivers.Fresh r))
  | newContext c r _ => inferInstanceAs (Decidable (s.contexts.Fresh c ∧ r ∈ s.receivers.live))
  | newThread t => inferInstanceAs (Decidable (s.threads.Fresh t))
  | submit c _ | ack c | destructContext c => inferInstanceAs (Decidable (c ∈ s.contexts.live))
  | kill c k => inferInstanceAs
      (Decidable (c ∈ s.contexts.live ∧ k ∈ s.threads.live ∧ s.state k = .active))
  | addHandler r t => inferInstanceAs
      (Decidable (r ∈ s.receivers.live ∧ t ∈ s.threads.live ∧ s.state t = .active))
  | cancel t | destructThread t => inferInstanceAs (Decidable (t ∈ s.threads.live))
  | destructReceiver r => inferInstanceAs (Decidable (r ∈ s.receivers.live))

/-- An operation that delivers nothing. -/
def silent (x : Exec (Signals ρ γ τ)) : Exec (List (Delivery γ τ) × Signals ρ γ τ) := do
  let s ← x
  .ok ([], s)

/-- Run an operation: what it delivers, and the state it leaves. -/
def run : SignalOp ρ γ τ → Exec (List (Delivery γ τ) × Signals ρ γ τ)
  | newReceiver r => .ok ([], s.newReceiver r)
  | newContext c r imprint => .ok ([], s.newContext c r imprint)
  | newThread t => .ok ([], s.newThread t)
  | submit c n => s.submit c n
  | ack c => s.acknowledge c
  | kill c k => silent (s.kill c k)
  | addHandler r t => s.addHandler r t
  | cancel t => silent (s.cancelBlocking t)
  | destructContext c => silent (s.destructContext c)
  | destructReceiver r => silent (s.destructReceiver r)
  | destructThread t => silent (s.destructThread t)

/-- What an operation makes of a context, apart from deliveries. -/
def touch (c : γ) : SignalOp ρ γ τ → ContextData
  | submit c' n =>
    if c' = c ∧ s.canSubmit c n = true then { s.data c with submits := s.submits c + n }
    else s.data c
  | ack c' => if c' = c ∧ s.killed c = false then { s.data c with ack := true } else s.data c
  | kill c' _ => if c' = c then { s.data c with killed := true } else s.data c
  | _ => s.data c

/-- The operation follows no pointer to an object that is gone: a
thread stops waiting only for something that exists. -/
def Safe : SignalOp ρ γ τ → Prop
  | cancel t =>
    match s.state t with
    | .active => True
    | .awaitsSignal => ∀ r, s.handlerReceiver t = some r → r ∈ s.receivers.live
    | .awaitsSignalContextKill => ∀ c, s.killerContext t = some c → c ∈ s.contexts.live
  | destructThread t =>
    (∀ c, s.killerContext t = some c → c ∈ s.contexts.live) ∧
    ∀ r, s.handlerReceiver t = some r → r ∈ s.receivers.live
  | _ => True

/-- The operation leaves no pointer to an object that it destructs, nor
one from a killer that does not wait anymore. -/
def Orderly : SignalOp ρ γ τ → Prop
  | destructContext c => s.killer c = none
  | destructReceiver r =>
    s.handlers.empty r = true ∧ ∀ c ∈ s.contexts.live, s.receiver c = r → s.killer c = none
  | cancel t => s.killerContext t = none
  | _ => True

instance : (op : SignalOp ρ γ τ) → Decidable (op.Orderly s)
  | destructContext c => inferInstanceAs (Decidable (s.killer c = none))
  | destructReceiver r => inferInstanceAs
      (Decidable (s.handlers.empty r = true ∧
        ∀ c ∈ s.contexts.live, s.receiver c = r → s.killer c = none))
  | cancel t => inferInstanceAs (Decidable (s.killerContext t = none))
  | newReceiver _ | newContext _ _ _ | newThread _ | submit _ _ | ack _ | kill _ _ | addHandler _ _
  | destructThread _ => .isTrue trivial

end SignalOp

namespace Signals

variable {ρ γ τ : Type} [DecidableEq ρ] [DecidableEq γ] [DecidableEq τ]
variable {s s' p : Signals ρ γ τ} {H : ρ → List τ} {D A : ρ → List γ} {r : ρ} {c : γ} {t k : τ}
variable {op : SignalOp ρ γ τ} {ds : List (Delivery γ τ)}

/-- What a step does to the contexts. -/
structure Effect (s : Signals ρ γ τ) (op : SignalOp ρ γ τ) (ds : List (Delivery γ τ))
    (s' : Signals ρ γ τ) : Prop where
  single : ds.length ≤ 1
  delivered : ∀ d ∈ ds, d.context ∈ s.contexts.live ∧ d.imprint = s.imprint d.context ∧
    d.num = (op.touch s d.context).submits ∧ (op.touch s d.context).submits ≠ 0 ∧
    (op.touch s d.context).ack = true
  data : ∀ c ∈ s.contexts.live, c ∈ s'.contexts.live →
    s'.data c = if ∃ d ∈ ds, d.context = c then (op.touch s c).handed else op.touch s c
  created : ∀ c ∈ s'.contexts.live, c ∉ s.contexts.live →
    s.contexts.Fresh c ∧ s'.data c = ⟨0, true, false⟩
  fresh : ∀ c, s'.contexts.Fresh c → s.contexts.Fresh c

/-- The pointers from threads to contexts and receivers are valid. -/
structure CrossRef (s : Signals ρ γ τ) : Prop where
  killer : ∀ {k c}, k ∈ s.threads.live → s.killerContext k = some c →
    c ∈ s.contexts.live ∧ s.killer c = some k
  handler : ∀ {t r}, t ∈ s.threads.live → s.handlerReceiver t = some r → r ∈ s.receivers.live

/-- What is proved about each operation. -/
structure Outcome (s : Signals ρ γ τ) (op : SignalOp ρ γ τ) (ds : List (Delivery γ τ))
    (s' : Signals ρ γ τ) : Prop where
  inv : ∃ H D A, Inv s' H D A
  effect : Effect s op ds s'
  cross : op.Orderly s → CrossRef s → CrossRef s'

omit [DecidableEq ρ] [DecidableEq τ] in
/-- A step without deliveries that makes `p` of the state. -/
theorem effect_of_data (hctx : p.contexts = s.contexts) (hdata : ∀ c, p.data c = op.touch s c) :
    Effect s op [] p where
  single := by simp
  delivered := by simp
  data := fun c _ _ => by simpa using hdata c
  created := fun c h1 h2 => absurd (hctx ▸ h1) h2
  fresh := fun c hc => hctx ▸ hc

/-- A step that may deliver a context, after it made `p` of the state. -/
theorem Listened.effect (h : Listened p r ds s') (hctx : p.contexts = s.contexts)
    (himp : p.imprint = s.imprint) (hdata : ∀ c, p.data c = op.touch s c) :
    Effect s op ds s' := by
  cases h with
  | quiet => exact effect_of_data hctx hdata
  | @handed c t hc hr hack hsub ht =>
    refine ⟨by simp, ?_, fun c' _ _ => ?_, fun c' h1 h2 => ?_, fun c' hc' => ?_⟩
    · intro d hd
      obtain rfl := List.mem_singleton.mp hd
      have hd' := hdata c
      refine ⟨hctx ▸ hc, by rw [himp], ?_, ?_, ?_⟩
      · rw [← hd']; rfl
      · rw [← hd']; exact hsub
      · rw [← hd']; exact hack
    · rw [← hdata c']
      by_cases hcc : c = c'
      · subst hcc
        simp [Signals.handed, delivered, setState, data, ContextData.handed]
      · simp [Signals.handed, delivered, setState, data, hcc, Ne.symm hcc]
    · exact absurd (hctx ▸ h1) h2
    · exact hctx ▸ hc'

theorem Listened.crossRef (h : Listened p r ds s') (hp : CrossRef p) : CrossRef s' := by
  cases h with
  | quiet => exact hp
  | @handed c t hc hr hack hsub ht =>
    refine ⟨hp.killer, fun {t' r'} ht' hr' => hp.handler ht' ?_⟩
    by_cases htt : t' = t
    · subst htt; simp [Signals.handed, delivered, setState] at hr'
    · simpa [Signals.handed, delivered, setState, htt] using hr'

theorem Listened.assigned (h : Listened p r ds s') (hp : Assigned p A) : Assigned s' A := by
  cases h with
  | quiet => exact hp
  | handed => exact ⟨hp.repr, hp.mem⟩

omit [DecidableEq ρ] [DecidableEq γ] [DecidableEq τ] in
/-- An operation that changes no pointer, and no context in such a way
that it would have to be delivered now, or not anymore. -/
theorem Inv.of_contexts (h : Inv s H D A) (f : γ → UInt32) (g l : γ → Bool)
    (hd : ∀ c, (g c = true ∧ f c ≠ 0) ↔ (s.ack c = true ∧ s.submits c ≠ 0))
    (hk : ∀ c, s.killed c = true → l c = true) :
    Inv { s with submits := f, ack := g, killed := l } H D A where
  handlers := h.handlers
  deliver := h.deliver
  mem_handlers := h.mem_handlers
  mem_deliver := by
    intro r c
    rw [h.mem_deliver, ← hd c]
  receiver := h.receiver
  known := h.known
  state := h.state
  killer := by
    intro c k hc hkc
    obtain ⟨h1, h2, h3, h4⟩ := h.killer hc hkc
    exact ⟨h1, h2, h3, hk c h4⟩
  assigned := ⟨h.assigned.repr, h.assigned.mem⟩
  quiet := h.quiet

omit [DecidableEq ρ] [DecidableEq τ] in
/-- An operation that has no effect at all. -/
theorem Inv.unchanged (h : Inv s H D A) (hdata : ∀ c, s.data c = op.touch s c) :
    Outcome s op [] s :=
  ⟨⟨H, D, A, h⟩, effect_of_data rfl hdata, fun _ hx => hx⟩

end Signals

/-- The check in `submit` excludes an overflow. -/
theorem submits_add {a n : UInt32} (h : ¬ a ≥ ~~~ 0 - n) : (a + n).toNat = a.toNat + n.toNat := by
  have hmax : (~~~ (0 : UInt32) - n).toNat = 2 ^ 32 - 1 - n.toNat := by
    rw [UInt32.toNat_sub_of_le]
    · rfl
    · rw [UInt32.le_iff_toNat_le]
      have := n.toNat_lt
      show n.toNat ≤ 4294967295
      omega
  rw [ge_iff_le, UInt32.le_iff_toNat_le, hmax] at h
  rw [UInt32.toNat_add]
  omega

namespace Signals

variable {ρ γ τ : Type} [DecidableEq ρ] [DecidableEq γ] [DecidableEq τ]
variable {s s' p : Signals ρ γ τ} {H : ρ → List τ} {D A : ρ → List γ} {r : ρ} {c : γ} {t k : τ}

/-- What `deliverable` does to a context that now has `n` signals and is
acknowledged. -/
theorem Inv.deliverable_outcome (h : Inv s H D A) (hc : c ∈ s.contexts.live) {n : UInt32}
    {op : SignalOp ρ γ τ} (hp : p = { s with submits := Function.update s.submits c n
                                             ack := Function.update s.ack c true })
    (h0 : n = 0 → s.submits c = 0) (hdata : ∀ c, p.data c = op.touch s c) :
    ∃ ds s', p.deliverable c = .ok (ds, s') ∧ Outcome s op ds s' := by
  by_cases hn : n = 0
  · have hsub : p.submits c = 0 := by rw [hp]; simpa using hn
    refine ⟨[], p, by rw [Signals.deliverable, if_neg (not_not.mpr hsub)], ⟨H, D, A, ?_⟩, ?_, ?_⟩
    · rw [hp]
      refine h.of_contexts _ _ s.killed (fun c' => ?_) fun _ hk => hk
      by_cases hcc : c' = c
      · subst hcc; simp [hn, h0 hn]
      · simp [hcc]
    · exact effect_of_data (by rw [hp]) hdata
    · intro _ hx
      rw [hp]
      exact ⟨hx.killer, hx.handler⟩
  · obtain ⟨ds, s', H', D', hds, hl, hlinked, hquiet⟩ := h.deliverable hc hn hp
    refine ⟨ds, s', hds, ⟨H', D', A, hlinked, ?_, hquiet⟩, hl.effect rfl rfl fun c' => ?_, ?_⟩
    · exact hl.assigned ⟨h.assigned.repr, h.assigned.mem⟩
    · rw [← hdata c', hp]
      rfl
    · intro _ hx
      exact hl.crossRef ⟨hx.killer, hx.handler⟩

theorem Inv.submit (h : Inv s H D A) (hc : c ∈ s.contexts.live) (n : UInt32) :
    ∃ ds s', s.submit c n = .ok (ds, s') ∧ Outcome s (.submit c n) ds s' := by
  unfold Signals.submit
  by_cases hrej : (s.killed c || decide (s.submits c ≥ ~~~ 0 - n)) = true
  · rw [if_pos hrej]
    have hcan : s.canSubmit c n = false := by rw [canSubmit, hrej]; rfl
    refine ⟨[], s, rfl, h.unchanged fun c' => ?_⟩
    by_cases hcc : c = c'
    · subst hcc; simp [SignalOp.touch, hcan]
    · simp [SignalOp.touch, hcc]
  · rw [if_neg hrej]
    have hcan : s.canSubmit c n = true := by rw [canSubmit, Bool.eq_false_of_not_eq_true hrej]; rfl
    have hfit : ¬ s.submits c ≥ ~~~ 0 - n := fun hge =>
      hrej (by rw [decide_eq_true hge, Bool.or_true])
    have h0 : s.submits c + n = 0 → s.submits c = 0 := by
      intro he
      have hsum := submits_add hfit
      rw [he] at hsum
      rw [← UInt32.toNat_inj]
      simp at hsum ⊢
      omega
    have hdata : ∀ c', data { s with submits := Function.update s.submits c (s.submits c + n) } c' =
        SignalOp.touch s c' (.submit c n) := by
      intro c'
      by_cases hcc : c = c'
      · subst hcc; simp [SignalOp.touch, hcan, data]
      · simp [SignalOp.touch, hcc, data, Ne.symm hcc]
    dsimp only
    by_cases hack : s.ack c = true
    · rw [if_pos hack]
      refine h.deliverable_outcome hc ?_ h0 hdata
      rw [← hack, Function.update_eq_self]
    · rw [if_neg hack]
      refine ⟨[], _, rfl, ⟨H, D, A, ?_⟩, effect_of_data rfl hdata,
        fun _ hx => ⟨hx.killer, hx.handler⟩⟩
      refine h.of_contexts _ s.ack s.killed (fun c' => ?_) fun _ hk => hk
      by_cases hcc : c' = c
      · subst hcc; simp [hack]
      · simp [hcc]

omit [DecidableEq ρ] in
/-- The state after a pending kill of `c` by `k` came to its end. -/
theorem Inv.killFinished (h : Inv s H D A) (hc : c ∈ s.contexts.live) (hk : s.killer c = some k) :
    Inv { s with killerContext := Function.update s.killerContext k none
                 state := Function.update s.state k .active
                 killer := Function.update s.killer c none } H D A := by
  obtain ⟨hkl, hkc, hks, -⟩ := h.killer hc hk
  have hnone : s.handlerReceiver k = none := by
    by_contra hne
    exact absurd (hks.symm.trans ((h.state hkl).mpr hne)) (by simp)
  refine ⟨⟨h.handlers, h.deliver, h.mem_handlers, h.mem_deliver, h.receiver, h.known, ?_, ?_⟩,
    ⟨h.assigned.repr, h.assigned.mem⟩, h.quiet⟩
  · intro t ht
    by_cases htk : t = k
    · subst htk; simp [hnone]
    · simpa [htk] using h.state ht
  · intro c' k' hc' hk'
    have hcc : c' ≠ c := by
      rintro rfl
      simp at hk'
    have hold := h.killer hc' (by simpa [hcc] using hk')
    -- a killer waits for one context only
    have hkk : k' ≠ k := by
      rintro rfl
      exact hcc (Option.some.inj (hold.2.1.symm.trans hkc))
    simpa [hkk] using hold

theorem Inv.acknowledge (h : Inv s H D A) (hc : c ∈ s.contexts.live) :
    ∃ ds s', s.acknowledge c = .ok (ds, s') ∧ Outcome s (.ack c) ds s' := by
  unfold Signals.acknowledge
  by_cases hack : s.ack c = true
  · rw [if_pos hack]
    refine ⟨[], s, rfl, h.unchanged fun c' => ?_⟩
    by_cases hcc : c = c'
    · subst hcc; simp [SignalOp.touch, data, hack]
    · simp [SignalOp.touch, hcc]
  · rw [if_neg hack]
    by_cases hkd : s.killed c = true
    · have hdata : ∀ c', s.data c' = SignalOp.touch s c' (.ack c) := by
        intro c'
        by_cases hcc : c = c'
        · subst hcc; simp [SignalOp.touch, hkd]
        · simp [SignalOp.touch, hcc]
      rw [if_neg (by simp [hkd])]
      cases hk : s.killer c with
      | none => exact ⟨[], s, rfl, h.unchanged hdata⟩
      | some k =>
        obtain ⟨hkl, hkc, hks, -⟩ := h.killer hc hk
        refine ⟨[], _, ?_, ⟨H, D, A, h.killFinished hc hk⟩, effect_of_data rfl hdata, ?_⟩
        · simp [finishKill, Exec.access_of_mem hkl, signalContextKillDone, signalContextKillEnd,
            setState, hks]
        · intro _ hx
          refine ⟨fun {k' c'} hk' hc' => ?_, hx.handler⟩
          have hkk : k' ≠ k := by
            rintro rfl
            simp at hc'
          obtain ⟨h1, h2⟩ := hx.killer hk' (by simpa [hkk] using hc')
          have hcc : c' ≠ c := by
            rintro rfl
            exact hkk (Option.some.inj (h2.symm.trans hk))
          exact ⟨h1, by simpa [hcc] using h2⟩
    · rw [if_pos (by simpa using hkd)]
      refine h.deliverable_outcome hc (n := s.submits c) ?_ id fun c' => ?_
      · rw [Function.update_eq_self]
      · by_cases hcc : c = c'
        · subst hcc; simp [SignalOp.touch, data, hkd]
        · simp [SignalOp.touch, data, hcc, Ne.symm hcc]

/-- The state in which the killer `k` waits for the acknowledgement of
`c`. -/
def killPended (s : Signals ρ γ τ) (c : γ) (k : τ) : Signals ρ γ τ :=
  { s with
    killer := Function.update s.killer c (some k)
    killed := Function.update s.killed c true
    killerContext := Function.update s.killerContext k (some c)
    state := Function.update s.state k .awaitsSignalContextKill }

section Kill

variable (h : Inv s H D A) (hc : c ∈ s.contexts.live) (hk : k ∈ s.threads.live)
  (hst : s.state k = .active)
include h hc hk hst

omit [DecidableEq ρ] in
theorem Inv.killPended : Inv (s.killPended c k) H D A := by
  have hnone : s.handlerReceiver k = none := by
    by_contra hne
    exact absurd (hst.symm.trans ((h.state hk).mpr hne)) (by simp)
  refine ⟨⟨h.handlers, h.deliver, h.mem_handlers, h.mem_deliver, h.receiver, h.known, ?_, ?_⟩,
    ⟨h.assigned.repr, h.assigned.mem⟩, h.quiet⟩
  · intro t ht
    by_cases htk : t = k
    · subst htk; simp [Signals.killPended, hnone]
    · simpa [Signals.killPended, htk] using h.state ht
  · intro c' k' hc' hk'
    by_cases hcc : c' = c
    · subst hcc
      obtain rfl : k = k' := by simpa [Signals.killPended] using hk'
      simpa [Signals.killPended] using hk
    · have hold := h.killer hc' (by simpa [Signals.killPended, hcc] using hk')
      have hkk : k' ≠ k := by
        rintro rfl
        exact absurd (hst.symm.trans hold.2.2.1) (by simp)
      simpa [Signals.killPended, hkk, hcc] using hold

omit [DecidableEq ρ] h hk hst in
theorem CrossRef.killPended (hx : CrossRef s) (hnone : s.killer c = none) :
    CrossRef (s.killPended c k) := by
  refine ⟨fun {k' c'} hk' hc' => ?_, hx.handler⟩
  by_cases hkk : k' = k
  · subst hkk
    obtain rfl : c = c' := by simpa [Signals.killPended] using hc'
    simpa [Signals.killPended] using hc
  · obtain ⟨h1, h2⟩ := hx.killer hk' (by simpa [Signals.killPended, hkk] using hc')
    have hcc : c' ≠ c := by
      rintro rfl
      exact absurd (hnone.symm.trans h2) (by simp)
    exact ⟨h1, by simpa [Signals.killPended, hcc] using h2⟩

omit [DecidableEq ρ] in
theorem Inv.kill : ∃ s', s.kill c k = .ok s' ∧ Outcome s (.kill c k) [] s' := by
  have hdata : ∀ {p : Signals ρ γ τ}, p.submits = s.submits → p.ack = s.ack →
      p.killed = Function.update s.killed c true →
      ∀ c', p.data c' = SignalOp.touch s c' (.kill c k) := by
    intro p h1 h2 h3 c'
    by_cases hcc : c = c'
    · subst hcc; simp [SignalOp.touch, data, h1, h2, h3]
    · simp [SignalOp.touch, data, hcc, Ne.symm hcc, h1, h2, h3]
  by_cases hkd : s.killed c = true
  · refine ⟨s, if_pos hkd, h.unchanged (hdata rfl rfl ?_)⟩
    rw [← hkd, Function.update_eq_self]
  · by_cases hack : s.ack c = true
    · refine ⟨s.setKilled c, (if_neg hkd).trans (if_pos hack), ⟨H, D, A, ?_⟩,
        effect_of_data rfl (hdata rfl rfl rfl), fun _ hx => ⟨hx.killer, hx.handler⟩⟩
      refine h.of_contexts s.submits s.ack _ (fun _ => Iff.rfl) fun c' hc' => ?_
      by_cases hcc : c' = c
      · subst hcc; simp
      · simpa [hcc] using hc'
    · have hnone : s.killer c = none := by
        cases hkc : s.killer c with
        | none => rfl
        | some k' => exact absurd (h.killer hc hkc).2.2.2 hkd
      refine ⟨s.killPended c k, ?_, ⟨H, D, A, h.killPended hc hk hst⟩,
        effect_of_data rfl (hdata rfl rfl rfl), fun _ hx => hx.killPended hc hnone⟩
      simp [Signals.kill, hkd, hack, signalContextKillPending, setKilled, setState,
        Signals.killPended, hst]

end Kill

/-- The state in which the handler of `t` waits at `r`. -/
def handlerAdded (s : Signals ρ γ τ) (r : ρ) (t : τ) : Signals ρ γ τ :=
  { s with
    handlers := s.handlers.enqueue r t
    handlerReceiver := Function.update s.handlerReceiver t (some r)
    state := Function.update s.state t .awaitsSignal }

omit [DecidableEq γ] in
theorem Linked.handlerAdded (h : Linked s H D) (hr : r ∈ s.receivers.live)
    (ht : t ∈ s.threads.live) (hst : s.state t = .active) (hnone : s.handlerReceiver t = none) :
    Linked (s.handlerAdded r t) (Function.update H r (H r ++ [t])) D := by
  have hno : ∀ r', t ∉ H r' := fun r' hm =>
    absurd (hnone.symm.trans (h.mem_handlers.mp hm).2) (by simp)
  refine ⟨h.handlers.enqueue hno r, h.deliver, ?_, h.mem_deliver, h.receiver, ?_, ?_, ?_⟩
  · intro r' t'
    rw [Fifos.Repr.mem_concat, h.mem_handlers]
    by_cases htt : t' = t
    · subst htt
      simp [Signals.handlerAdded, hnone, ht, eq_comm]
    · simp [Signals.handlerAdded, htt]
  · intro t' r' ht' hr'
    by_cases htt : t' = t
    · subst htt
      obtain rfl : r = r' := by simpa [Signals.handlerAdded] using hr'
      exact fun hf => hf.1 hr
    · exact h.known ht' (by simpa [Signals.handlerAdded, htt] using hr')
  · intro t' ht'
    by_cases htt : t' = t
    · subst htt; simp [Signals.handlerAdded]
    · simpa [Signals.handlerAdded, htt] using h.state ht'
  · intro c k hc hk
    have hold := h.killer hc hk
    have hkt : k ≠ t := by
      rintro rfl
      exact absurd (hst.symm.trans hold.2.2.1) (by simp)
    simpa [Signals.handlerAdded, hkt] using hold

theorem Inv.addHandler (h : Inv s H D A) (hr : r ∈ s.receivers.live) (ht : t ∈ s.threads.live)
    (hst : s.state t = .active) :
    ∃ ds s', s.addHandler r t = .ok (ds, s') ∧ Outcome s (.addHandler r t) ds s' := by
  have hnone : s.handlerReceiver t = none := by
    by_contra hne
    exact absurd (hst.symm.trans ((h.state ht).mpr hne)) (by simp)
  have hlen : (D r).length ≤ 1 ∨ (Function.update H r (H r ++ [t]) r).length ≤ 1 := by
    rcases h.quiet r with hq | hq
    · simp [hq]
    · simp [hq]
  obtain ⟨ds, s', H', D', hds, hl, hlinked, hquiet⟩ :=
    (h.toLinked.handlerAdded hr ht hst hnone).listen
      (fun r' hr' => by rw [Function.update_of_ne hr']; exact h.quiet r') hlen
  refine ⟨ds, s', (if_neg (not_not.mpr hnone)).trans hds, ⟨H', D', A, hlinked, ?_, hquiet⟩,
    hl.effect rfl rfl fun _ => rfl, fun _ hx => hl.crossRef ⟨hx.killer, fun {t' r'} ht' hr' => ?_⟩⟩
  · exact hl.assigned ⟨h.assigned.repr, h.assigned.mem⟩
  · by_cases htt : t' = t
    · subst htt
      obtain rfl : r = r' := by simpa [Signals.handlerAdded] using hr'
      exact hr
    · exact hx.handler ht' (by simpa [Signals.handlerAdded, htt] using hr')

end Signals

end Genode.Kernel
