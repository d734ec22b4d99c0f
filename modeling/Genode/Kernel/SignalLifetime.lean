import Genode.Kernel.SignalInvariant

/-!
# SignalLifetime — creation, cancellation and destruction

The operations that create and destruct signal objects, and those that
end the waiting of a thread. Each of them keeps the invariant. Whether
they leave valid pointers in the threads is another matter: that needs
that they are `Orderly`.
-/

namespace Genode.Kernel

open Lib Util

namespace Signals

variable {ρ γ τ : Type} [DecidableEq ρ] [DecidableEq γ] [DecidableEq τ]
variable {s s' p : Signals ρ γ τ} {H : ρ → List τ} {D A : ρ → List γ} {r : ρ} {c : γ} {t k : τ}

/-! ## Creation -/

omit [DecidableEq τ] in
theorem Inv.newReceiver (h : Inv s H D A) (hr : s.receivers.Fresh r) :
    Outcome s (.newReceiver r) [] (s.newReceiver r) := by
  have hD : D r = [] := List.eq_nil_iff_forall_not_mem.mpr fun c hc => by
    obtain ⟨hl, rfl, -⟩ := h.mem_deliver.mp hc
    exact hr.1 (h.receiver hl)
  have hA : A r = [] := List.eq_nil_iff_forall_not_mem.mpr fun c hc => by
    obtain ⟨hl, rfl⟩ := h.assigned.mem.mp hc
    exact hr.1 (h.receiver hl)
  have hH : H r = [] := List.eq_nil_iff_forall_not_mem.mpr fun t ht => by
    obtain ⟨hl, hrt⟩ := h.mem_handlers.mp ht
    exact h.known hl hrt hr
  have hfresh : ∀ {r'}, (s.receivers.create r).Fresh r' → s.receivers.Fresh r' := fun hf =>
    ⟨fun hm => hf.1 (Finset.mem_insert_of_mem hm), hf.2⟩
  refine ⟨⟨H, D, A, ⟨h.handlers.construct hH, h.deliver.construct hD, h.mem_handlers, h.mem_deliver,
    ?_, ?_, h.state, h.killer⟩, ⟨h.assigned.repr.construct hA, h.assigned.mem⟩, h.quiet⟩,
    effect_of_data rfl fun _ => rfl, fun _ hx => ⟨hx.killer, ?_⟩⟩
  · exact fun hc => Finset.mem_insert_of_mem (h.receiver hc)
  · exact fun ht hr' hf => h.known ht hr' (hfresh hf)
  · exact fun ht hr' => Finset.mem_insert_of_mem (hx.handler ht hr')

omit [DecidableEq ρ] in
theorem Inv.newThread (h : Inv s H D A) (ht : s.threads.Fresh t) :
    Outcome s (.newThread t) [] (s.newThread t) := by
  have hne : ∀ {t'}, t' ∈ s.threads.live → t' ≠ t := fun hm he => ht.1 (he ▸ hm)
  have hno : ∀ r, t ∉ H r := fun r hm => ht.1 (h.mem_handlers.mp hm).1
  refine ⟨⟨H, D, A, ⟨h.handlers.constructElement hno, h.deliver, ?_, h.mem_deliver, h.receiver, ?_,
    ?_, ?_⟩, ⟨h.assigned.repr, h.assigned.mem⟩, h.quiet⟩, effect_of_data rfl fun _ => rfl,
    fun _ hx => ⟨fun {k c} hk hc => ?_, fun {t' r'} ht' hr' => ?_⟩⟩
  · intro r t'
    rw [h.mem_handlers]
    by_cases htt : t' = t
    · subst htt; simp [Signals.newThread, ht.1]
    · simp [Signals.newThread, Objects.create, htt]
  · intro t' r' ht' hr'
    by_cases htt : t' = t
    · subst htt; simp [Signals.newThread] at hr'
    · refine h.known ?_ (by simpa [Signals.newThread, htt] using hr')
      simpa [Signals.newThread, Objects.create, htt] using ht'
  · intro t' ht'
    by_cases htt : t' = t
    · subst htt; simp [Signals.newThread]
    · have hl : t' ∈ s.threads.live := by simpa [Signals.newThread, Objects.create, htt] using ht'
      simpa [Signals.newThread, htt] using h.state hl
  · intro c k hc hk
    have hold := h.killer hc hk
    have hkt := hne hold.1
    simpa [Signals.newThread, Objects.create, hkt] using hold
  · by_cases hkt : k = t
    · subst hkt; simp [Signals.newThread] at hc
    · refine hx.killer ?_ (by simpa [Signals.newThread, hkt] using hc)
      simpa [Signals.newThread, Objects.create, hkt] using hk
  · by_cases htt : t' = t
    · subst htt; simp [Signals.newThread] at hr'
    · refine hx.handler ?_ (by simpa [Signals.newThread, htt] using hr')
      simpa [Signals.newThread, Objects.create, htt] using ht'

omit [DecidableEq τ] in
theorem Inv.newContext (h : Inv s H D A) (hc : s.contexts.Fresh c) (hr : r ∈ s.receivers.live)
    (imprint : UInt64) :
    Outcome s (.newContext c r imprint) [] (s.newContext c r imprint) := by
  have hne : ∀ {c'}, c' ∈ s.contexts.live → c' ≠ c := fun hm he => hc.1 (he ▸ hm)
  have hD : ∀ r, c ∉ D r := fun r hm => hc.1 (h.mem_deliver.mp hm).1
  have hA : ∀ r, c ∉ A r := fun r hm => hc.1 (h.assigned.mem.mp hm).1
  have hlive : ∀ {c'}, c' ∈ (s.contexts.create c).live ↔ c' = c ∨ c' ∈ s.contexts.live :=
    Finset.mem_insert
  refine ⟨⟨H, D, _, ⟨h.handlers, h.deliver.constructElement hD, h.mem_handlers, ?_, ?_, h.known,
    h.state, ?_⟩, ⟨(h.assigned.repr.constructElement hA).enqueue hA r, ?_⟩, h.quiet⟩,
    ⟨by simp, by simp, fun c' h1 _ => ?_, fun c' h1 h2 => ?_, fun c' hf => ?_⟩,
    fun _ hx => ⟨fun {k c'} hk hc' => ?_, hx.handler⟩⟩
  · intro r' c'
    rw [h.mem_deliver]
    by_cases hcc : c' = c
    · subst hcc; simp [Signals.newContext, hc.1]
    · simp [Signals.newContext, hlive, hcc]
  · intro c' hc'
    by_cases hcc : c' = c
    · subst hcc; simpa [Signals.newContext] using hr
    · have hl : c' ∈ s.contexts.live := (hlive.mp hc').resolve_left hcc
      simpa [Signals.newContext, hcc] using h.receiver hl
  · intro c' k hc' hk
    by_cases hcc : c' = c
    · subst hcc; simp [Signals.newContext] at hk
    · have hl : c' ∈ s.contexts.live := (hlive.mp hc').resolve_left hcc
      simpa [Signals.newContext, hcc] using h.killer hl (by simpa [Signals.newContext, hcc] using hk)
  · intro r' c'
    rw [Fifos.Repr.mem_concat, h.assigned.mem]
    by_cases hcc : c' = c
    · subst hcc; simp [Signals.newContext, hlive, hc.1, eq_comm]
    · simp [Signals.newContext, hlive, hcc]
  · have hcc := hne h1
    simp [SignalOp.touch, data, Signals.newContext, hcc]
  · obtain rfl : c' = c := (hlive.mp h1).resolve_right h2
    exact ⟨hc, by simp [data, Signals.newContext]⟩
  · exact ⟨fun hm => hf.1 (hlive.mpr (.inr hm)), hf.2⟩
  · obtain ⟨h1, h2⟩ := hx.killer hk hc'
    exact ⟨hlive.mpr (.inr h1), by simpa [Signals.newContext, hne h1] using h2⟩

/-! ## Destruction of contexts and receivers -/

theorem length_le_card {α : Type} [DecidableEq α] {l : List α} {live : Finset α} (hl : l.Nodup)
    (hsub : ∀ x ∈ l, x ∈ live) : l.length ≤ live.card := by
  rw [← List.toFinset_card_of_nodup hl]
  exact Finset.card_le_card fun x hx => hsub x (List.mem_toFinset.mp hx)

omit [DecidableEq τ] in
/-- `_context_destructed` takes the context out of both queues. -/
theorem Linked.contextDestructed (h : Linked s H D) (hA : s.assigned.Repr A)
    (hlive : ∀ {r c'}, c' ∈ A r → c' ∈ s.contexts.live) (hc : c ∈ s.contexts.live)
    (f : τ → SignalState) :
    ∃ F G D', contextDestructed { s with state := f } (s.receiver c) c =
        .ok { s with state := f, assigned := F, deliver := G } ∧
      F.Repr (Function.update A (s.receiver c) ((A (s.receiver c)).erase c)) ∧ G.Repr D' ∧
      (∀ {r c'}, c' ∈ D' r ↔ c' ∈ D r ∧ c' ≠ c) ∧ ∀ r, D r = [] → D' r = [] := by
  obtain ⟨F, hF, hFr⟩ := hA.remove
    (length_le_card (hA.nodup (s.receiver c)) fun _ => hlive) c
  unfold Signals.contextDestructed
  dsimp only
  rw [Exec.access_of_mem (h.receiver hc), Exec.ok_bind, hF, Exec.ok_bind]
  cases he : s.deliver.enqueued c with
  | false =>
    refine ⟨F, s.deliver, D, rfl, hFr, h.deliver, fun {r c'} => ⟨fun hm => ⟨hm, ?_⟩, And.left⟩,
      fun _ hr => hr⟩
    rintro rfl
    exact h.deliver.not_enqueued.mp he r hm
  | true =>
    have hcD : c ∈ D (s.receiver c) :=
      h.mem_deliver.mpr ⟨hc, rfl, (h.enqueued_iff hc).mp he⟩
    obtain ⟨G, hG, hGr⟩ := h.deliver.remove (length_le_card (h.deliver.nodup (s.receiver c))
      fun c' hc' => (h.mem_deliver.mp hc').1) c
    refine ⟨F, G, _, ?_, hFr, hGr, h.deliver.mem_erase hcD, fun r hr => ?_⟩
    · rw [if_neg (by simp), hG]
      rfl
    · by_cases hrc : r = s.receiver c
      · subst hrc
        simp [hr] at hcD
      · rw [Function.update_of_ne hrc, hr]

/-- The states of the threads after the killer of `c`, if there is one,
was told that the kill failed. -/
def unblocked (s : Signals ρ γ τ) (c : γ) : τ → SignalState :=
  (s.killer c).elim s.state fun k => Function.update s.state k .active

section Unblocked

variable (h : Linked s H D) (hc : c ∈ s.contexts.live)
include h hc

omit [DecidableEq ρ] [DecidableEq γ] in
theorem Linked.failKill_eq : s.failKill c = .ok { s with state := s.unblocked c } := by
  unfold failKill unblocked
  cases hk : s.killer c with
  | none => rfl
  | some k =>
    obtain ⟨hkl, -, hks, -⟩ := h.killer hc hk
    simp [Exec.access_of_mem hkl, signalContextKillFailed, signalContextKillEnd, setState, hks]

omit [DecidableEq ρ] [DecidableEq γ] in
theorem Linked.unblocked_state (ht : t ∈ s.threads.live) :
    s.unblocked c t = .awaitsSignal ↔ s.handlerReceiver t ≠ none := by
  have hold := h.state ht
  unfold unblocked
  cases hk : s.killer c with
  | none => exact hold
  | some k =>
    by_cases htk : t = k
    · subst htk
      rw [(h.killer hc hk).2.2.1] at hold
      simpa using hold
    · simpa [htk] using hold

omit [DecidableEq ρ] [DecidableEq γ] in
/-- The killers of other contexts still wait. -/
theorem Linked.unblocked_killer {c' : γ} (hc' : c' ∈ s.contexts.live) (hcc : c' ≠ c)
    (hk' : s.killer c' = some k) : s.unblocked c k = .awaitsSignalContextKill := by
  have hold := h.killer hc' hk'
  unfold unblocked
  cases hk : s.killer c with
  | none => exact hold.2.2.1
  | some k₀ =>
    have hkk : k ≠ k₀ := by
      rintro rfl
      exact hcc (Option.some.inj (hold.2.1.symm.trans (h.killer hc hk).2.1))
    simpa [hkk] using hold.2.2.1

end Unblocked

/-- The state after a context is gone. -/
def contextGone (s : Signals ρ γ τ) (c : γ) (F G : Fifos ρ γ) : Signals ρ γ τ :=
  { s with
    state := s.unblocked c
    assigned := F
    deliver := G
    contexts := s.contexts.destroy c }

omit [DecidableEq ρ] in
@[simp] theorem mem_contextGone {F G : Fifos ρ γ} {c' : γ} :
    c' ∈ (s.contextGone c F G).contexts.live ↔ c' ≠ c ∧ c' ∈ s.contexts.live :=
  Finset.mem_erase

/-- `~Signal_context`, also if the context is not in the queue of its
receiver anymore. -/
theorem Linked.destructContext (h : Linked s H D) (hquiet : Quiet H D) (hA : s.assigned.Repr A)
    (hmem : ∀ {r c'}, c' ≠ c → (c' ∈ A r ↔ c' ∈ s.contexts.live ∧ s.receiver c' = r))
    (hcA : ∀ {r}, c ∈ A r → r = s.receiver c) (hc : c ∈ s.contexts.live) :
    ∃ F G D', s.destructContext c = .ok (s.contextGone c F G) ∧
      Inv (s.contextGone c F G) H D'
        (Function.update A (s.receiver c) ((A (s.receiver c)).erase c)) := by
  have hlive : ∀ {r c'}, c' ∈ A r → c' ∈ s.contexts.live := by
    intro r c' hm
    by_cases hcc : c' = c
    · exact hcc ▸ hc
    · exact ((hmem hcc).mp hm).1
  obtain ⟨F, G, D', hcd, hF, hG, hD', hempty⟩ := h.contextDestructed hA hlive hc (s.unblocked c)
  refine ⟨F, G, D', ?_, ⟨h.handlers, hG, h.mem_handlers, ?_, ?_, h.known,
    fun {t} ht => h.unblocked_state hc ht, ?_⟩, ⟨hF, ?_⟩, fun r => (hquiet r).imp_left (hempty r)⟩
  · unfold Signals.destructContext
    rw [h.failKill_eq hc, Exec.ok_bind]
    dsimp only
    rw [hcd]
    rfl
  · intro r c'
    rw [hD', h.mem_deliver, mem_contextGone]
    constructor
    · rintro ⟨⟨h1, h2⟩, h3⟩
      exact ⟨⟨h3, h1⟩, h2⟩
    · rintro ⟨⟨h3, h1⟩, h2⟩
      exact ⟨⟨h1, h2⟩, h3⟩
  · intro c' hc'
    exact h.receiver (mem_contextGone.mp hc').2
  · intro c' k hc' hk
    obtain ⟨hcc, hl⟩ := mem_contextGone.mp hc'
    obtain ⟨h1, h2, -, h4⟩ := h.killer hl hk
    exact ⟨h1, h2, h.unblocked_killer hc hl hcc hk, h4⟩
  · intro r c'
    rw [mem_contextGone]
    by_cases hr : r = s.receiver c
    · subst hr
      rw [Function.update_self, (hA.nodup _).mem_erase_iff]
      by_cases hcc : c' = c
      · simp [hcc]
      · simp only [hmem hcc, hcc, ne_eq, not_false_eq_true, true_and]
        rfl
    · rw [Function.update_of_ne hr]
      by_cases hcc : c' = c
      · subst hcc
        simpa using fun hm => hr (hcA hm)
      · simp only [hmem hcc, hcc, ne_eq, not_false_eq_true, true_and]
        rfl

theorem Inv.destructContext (h : Inv s H D A) (hc : c ∈ s.contexts.live) :
    ∃ F G, s.destructContext c = .ok (s.contextGone c F G) ∧
      Outcome s (.destructContext c) [] (s.contextGone c F G) := by
  obtain ⟨F, G, D', hs', hinv⟩ := h.toLinked.destructContext h.quiet h.assigned.repr
    (fun _ => h.assigned.mem) (fun hm => (h.assigned.mem.mp hm).2.symm) hc
  refine ⟨F, G, hs', ⟨H, D', _, hinv⟩, ⟨by simp, by simp, fun _ _ _ => by simp [SignalOp.touch]; rfl,
    fun c' h1 h2 => ?_, fun c' hf => ?_⟩, fun hno hx => ⟨fun {k c'} hk hc' => ?_, hx.handler⟩⟩
  · exact absurd (mem_contextGone.mp h1).2 h2
  · have hcc : c' ≠ c := fun he => hf.2 (Finset.mem_insert.mpr (.inl he))
    exact ⟨fun hm => hf.1 (mem_contextGone.mpr ⟨hcc, hm⟩),
      fun hm => hf.2 (Finset.mem_insert_of_mem hm)⟩
  · obtain ⟨h1, h2⟩ := hx.killer hk hc'
    refine ⟨mem_contextGone.mpr ⟨?_, h1⟩, h2⟩
    rintro rfl
    exact absurd (h2.symm.trans hno) (by simp)

/-- The state after some contexts are gone, with the states of their
killers. -/
def contextsGone (s : Signals ρ γ τ) (f : τ → SignalState) (F G : Fifos ρ γ) (o : Objects γ) :
    Signals ρ γ τ :=
  { s with state := f, assigned := F, deliver := G, contexts := o }

/-- The loop of `~Signal_receiver` destructs exactly the contexts of the
receiver. -/
theorem Inv.destructContexts {l : List γ} {n : Nat} (h : Inv s H D A) (hl : A r = l)
    (hn : l.length ≤ n) :
    ∃ f F G o D' A', s.destructContexts r n = .ok (s.contextsGone f F G o) ∧
      Inv (s.contextsGone f F G o) H D' A' ∧
      (∀ {c}, c ∈ o.live ↔ c ∈ s.contexts.live ∧ s.receiver c ≠ r) ∧
      ∀ {c}, o.Fresh c → s.contexts.Fresh c := by
  induction l generalizing s D A n with
  | nil =>
    refine ⟨s.state, s.assigned, s.deliver, s.contexts, D, A, ?_, h, fun {c} => ?_, id⟩
    · unfold Signals.destructContexts
      rw [(h.assigned.repr.dequeue r).1, hl]
      rfl
    · refine ⟨fun hc => ⟨hc, fun hr => ?_⟩, And.left⟩
      simpa [hl] using h.assigned.mem.mpr ⟨hc, hr⟩
  | cons c cs ih =>
    obtain ⟨m, rfl⟩ : ∃ m, n = m + 1 := ⟨n - 1, by simp at hn; omega⟩
    obtain ⟨hhead, hrest⟩ := h.assigned.repr.dequeue r
    rw [hl] at hhead hrest
    obtain ⟨hc, hcr⟩ := h.assigned.mem.mp (show c ∈ A r by simp [hl])
    have hnodup : c ∉ cs := (List.nodup_cons.mp (hl ▸ h.assigned.repr.nodup r)).1
    -- the context leaves `_contexts` before its destructor looks for it there
    have hlinked : Linked { s with assigned := (s.assigned.dequeue r).2 } H D :=
      ⟨h.handlers, h.deliver, h.mem_handlers, h.mem_deliver, h.receiver, h.known, h.state, h.killer⟩
    obtain ⟨F, G, D', hs', hinv⟩ := hlinked.destructContext h.quiet hrest (c := c)
      (fun hcc => by rw [List.tail_cons, h.assigned.repr.mem_tail hl, h.assigned.mem]; simp [hcc])
      (fun hm => absurd rfl ((h.assigned.repr.mem_tail hl).mp hm).2) hc
    have hcs : Function.update (Function.update A r cs) (s.receiver c)
        ((Function.update A r cs (s.receiver c)).erase c) r = cs := by
      simp [hcr, List.erase_of_not_mem hnodup]
    obtain ⟨f, F', G', o, D'', A', hloop, hinv', hlive, hfresh⟩ :=
      ih hinv hcs (Nat.le_of_succ_le_succ hn)
    refine ⟨f, F', G', o, D'', A', ?_, hinv', fun {c'} => ?_, fun {c'} hf => ?_⟩
    · unfold Signals.destructContexts
      rw [hhead]
      dsimp only [List.head?_cons]
      rw [Exec.access_of_mem hc, Exec.ok_bind, hs', Exec.ok_bind, hloop]
      rfl
    · rw [hlive, mem_contextGone]
      constructor
      · exact fun h' => ⟨h'.1.2, h'.2⟩
      · exact fun h' => ⟨⟨fun he => h'.2 (he ▸ hcr), h'.1⟩, h'.2⟩
    · obtain ⟨h1, h2⟩ := hfresh hf
      have hcc : c' ≠ c := fun he => h2 (Finset.mem_insert.mpr (.inl he))
      exact ⟨fun hm => h1 (mem_contextGone.mpr ⟨hcc, hm⟩),
        fun hm => h2 (Finset.mem_insert_of_mem hm)⟩

/-- The state after a receiver and its contexts are gone. -/
def receiverGone (s : Signals ρ γ τ) (r : ρ) (f : τ → SignalState) (F G : Fifos ρ γ)
    (o : Objects γ) : Signals ρ γ τ :=
  { s.contextsGone f F G o with receivers := s.receivers.destroy r }

theorem Inv.destructReceiver (h : Inv s H D A) (r : ρ) :
    ∃ f F G o, s.destructReceiver r = .ok (s.receiverGone r f F G o) ∧
      (∀ {c}, c ∈ o.live ↔ c ∈ s.contexts.live ∧ s.receiver c ≠ r) ∧
      Outcome s (.destructReceiver r) [] (s.receiverGone r f F G o) := by
  obtain ⟨f, F, G, o, D', A', hloop, hinv, hlive, hfresh⟩ := h.destructContexts (r := r) rfl
    (length_le_card (h.assigned.repr.nodup r) fun c hc => (h.assigned.mem.mp hc).1)
  refine ⟨f, F, G, o, ?_, hlive, ⟨H, D', A', ⟨hinv.handlers, hinv.deliver, hinv.mem_handlers, hinv.mem_deliver, ?_, ?_,
      hinv.state, hinv.killer⟩, ⟨hinv.assigned.repr, hinv.assigned.mem⟩, hinv.quiet⟩,
    ⟨by simp, by simp, fun _ _ _ => by simp [SignalOp.touch]; rfl, fun c h1 h2 => ?_, fun _ => hfresh⟩,
    fun hno hx => ⟨fun {k c} hk hc => ?_, fun {t r'} ht hr' => ?_⟩⟩
  · unfold Signals.destructReceiver
    rw [hloop]
    rfl
  · intro c hc
    obtain ⟨h1, h2⟩ := hlive.mp hc
    exact Finset.mem_erase.mpr ⟨h2, h.receiver h1⟩
  · intro t r' ht hr' hf
    refine h.known ht hr' ⟨fun hm => ?_, fun hm => hf.2 (Finset.mem_insert_of_mem hm)⟩
    have hrr : r' ≠ r := fun he => hf.2 (Finset.mem_insert.mpr (.inl he))
    exact hf.1 (Finset.mem_erase.mpr ⟨hrr, hm⟩)
  · exact absurd (hlive.mp h1).1 h2
  · obtain ⟨h1, h2⟩ := hx.killer hk hc
    refine ⟨hlive.mpr ⟨h1, fun hcr => ?_⟩, h2⟩
    exact absurd (h2.symm.trans (hno.2 c h1 hcr)) (by simp)
  · refine Finset.mem_erase.mpr ⟨?_, hx.handler ht hr'⟩
    rintro rfl
    have hmem := h.mem_handlers.mpr ⟨ht, hr'⟩
    simp [(h.handlers.empty_iff _).mp hno.1] at hmem

/-! ## The end of waiting -/

omit [DecidableEq γ] in
/-- A handler whose receiver exists leaves its queue. -/
theorem Linked.cancelHandler (h : Linked s H D) (ht : t ∈ s.threads.live)
    (hsafe : ∀ r, s.handlerReceiver t = some r → r ∈ s.receivers.live) :
    ∃ F H', s.cancelHandler t =
        .ok { s with handlers := F, handlerReceiver := Function.update s.handlerReceiver t none } ∧
      F.Repr H' ∧ (∀ {r t'}, t' ∈ H' r ↔ t' ∈ H r ∧ t' ≠ t) ∧ ∀ r, H r = [] → H' r = [] := by
  unfold Signals.cancelHandler
  cases hr : s.handlerReceiver t with
  | none =>
    refine ⟨s.handlers, H, ?_, h.handlers, fun {r t'} => ⟨fun hm => ⟨hm, ?_⟩, And.left⟩, fun _ => id⟩
    · have hsame : Function.update s.handlerReceiver t none = s.handlerReceiver := by
        rw [← hr, Function.update_eq_self]
      rw [hsame]
    · rintro rfl
      exact absurd (hr.symm.trans (h.mem_handlers.mp hm).2) (by simp)
  | some r =>
    have hmem := h.mem_handlers.mpr ⟨ht, hr⟩
    obtain ⟨F, hF, hrepr⟩ := h.handlers.remove (length_le_card (h.handlers.nodup r)
      fun t' ht' => (h.mem_handlers.mp ht').1) t
    refine ⟨F, _, ?_, hrepr, h.handlers.mem_erase hmem, fun r' hr' => ?_⟩
    · dsimp only
      rw [Exec.access_of_mem (hsafe r hr), Exec.ok_bind, hF]
      rfl
    · by_cases hrr : r' = r
      · subst hrr
        simp [hr'] at hmem
      · rw [Function.update_of_ne hrr, hr']

/-- The killers of the contexts after `t` does not wait for one
anymore. -/
def released (s : Signals ρ γ τ) (t : τ) : γ → Option τ :=
  (s.killerContext t).elim s.killer fun c => Function.update s.killer c none

omit [DecidableEq ρ] [DecidableEq τ] in
theorem cancelKiller_eq (hsafe : ∀ c, s.killerContext t = some c → c ∈ s.contexts.live) :
    s.cancelKiller t = .ok { s with killer := s.released t } := by
  unfold cancelKiller released
  cases hc : s.killerContext t with
  | none => rfl
  | some c =>
    dsimp only
    rw [Exec.access_of_mem (hsafe c hc)]
    rfl

omit [DecidableEq ρ] [DecidableEq τ] in
theorem killer_of_released (h : s.released t c = some k) : s.killer c = some k := by
  unfold released at h
  cases hc : s.killerContext t with
  | none => simpa [hc] using h
  | some c' =>
    by_cases hcc : c = c'
    · subst hcc; simp [hc] at h
    · simpa [hc, hcc] using h

omit [DecidableEq ρ] [DecidableEq τ] in
theorem released_of_ne (h : s.killer c = some k) (hc : s.killerContext t ≠ some c) :
    s.released t c = some k := by
  unfold released
  cases hc' : s.killerContext t with
  | none => exact h
  | some c' =>
    have hcc : c ≠ c' := fun he => hc (he ▸ hc')
    simpa [hcc] using h

theorem Inv.cancelBlocking (h : Inv s H D A) (ht : t ∈ s.threads.live)
    (hsafe : SignalOp.Safe s (.cancel t)) :
    ∃ s', s.cancelBlocking t = .ok s' ∧ Outcome s (.cancel t) [] s' := by
  unfold Signals.cancelBlocking
  simp only [SignalOp.Safe] at hsafe
  cases hst : s.state t with
  | active => exact ⟨s, rfl, h.unchanged fun _ => rfl⟩
  | awaitsSignal =>
    rw [hst] at hsafe
    obtain ⟨F, H', hF, hrepr, hmem, hempty⟩ := h.toLinked.cancelHandler ht hsafe
    refine ⟨setState { s with
        handlers := F
        handlerReceiver := Function.update s.handlerReceiver t none } t .active, ?_,
      ⟨H', D, A, ⟨hrepr, h.deliver, ?_, h.mem_deliver, h.receiver, ?_, ?_, ?_⟩,
        ⟨h.assigned.repr, h.assigned.mem⟩, fun r => (h.quiet r).imp_right (hempty r)⟩,
      effect_of_data rfl fun _ => rfl, fun _ hx => ⟨hx.killer, fun {t' r'} ht' hr' => ?_⟩⟩
    · dsimp only
      rw [hF]
      rfl
    · intro r t'
      rw [hmem, h.mem_handlers]
      by_cases htt : t' = t
      · subst htt; simp [setState]
      · simp [setState, htt]
    · intro t' r' ht' hr'
      by_cases htt : t' = t
      · subst htt; simp [setState] at hr'
      · exact h.known ht' (by simpa [setState, htt] using hr')
    · intro t' ht'
      by_cases htt : t' = t
      · subst htt; simp [setState]
      · simpa [setState, htt] using h.state ht'
    · intro c k hc hk
      have hold := h.killer hc hk
      have hkt : k ≠ t := by
        rintro rfl
        exact absurd (hst.symm.trans hold.2.2.1) (by simp)
      simpa [setState, hkt] using hold
    · by_cases htt : t' = t
      · subst htt; simp [setState] at hr'
      · exact hx.handler ht' (by simpa [setState, htt] using hr')
  | awaitsSignalContextKill =>
    rw [hst] at hsafe
    refine ⟨_, cancelKiller_eq hsafe, ⟨H, D, A, ⟨h.handlers, h.deliver, h.mem_handlers,
        h.mem_deliver, h.receiver, h.known, h.state, ?_⟩, ⟨h.assigned.repr, h.assigned.mem⟩, h.quiet⟩,
      effect_of_data rfl fun _ => rfl, fun hno hx => ⟨fun {k c} hk hc => ?_, hx.handler⟩⟩
    · exact fun hc hk => h.killer hc (killer_of_released hk)
    · obtain ⟨h1, h2⟩ := hx.killer hk hc
      have hno' : s.killerContext t = none := hno
      exact ⟨h1, released_of_ne h2 (by simp [hno'])⟩

theorem Inv.destructThread (h : Inv s H D A) (ht : t ∈ s.threads.live)
    (hsafe : SignalOp.Safe s (.destructThread t)) :
    ∃ s', s.destructThread t = .ok s' ∧ Outcome s (.destructThread t) [] s' := by
  have hlinked : Linked { s with killer := s.released t } H D :=
    ⟨h.handlers, h.deliver, h.mem_handlers, h.mem_deliver, h.receiver, h.known, h.state,
      fun hc hk => h.killer hc (killer_of_released hk)⟩
  obtain ⟨F, H', hF, hrepr, hmem, hempty⟩ := hlinked.cancelHandler ht hsafe.2
  have hlive : ∀ {t'}, t' ∈ (s.threads.destroy t).live ↔ t' ≠ t ∧ t' ∈ s.threads.live :=
    Finset.mem_erase
  refine ⟨{ s with
      killer := s.released t
      handlers := F
      handlerReceiver := Function.update s.handlerReceiver t none
      threads := s.threads.destroy t }, ?_,
    ⟨H', D, A, ⟨hrepr, h.deliver, ?_, h.mem_deliver, h.receiver, ?_, ?_, ?_⟩,
      ⟨h.assigned.repr, h.assigned.mem⟩, fun r => (h.quiet r).imp_right (hempty r)⟩,
    effect_of_data rfl fun _ => rfl, fun _ hx => ⟨fun {k c} hk hc => ?_, fun {t' r'} ht' hr' => ?_⟩⟩
  · unfold Signals.destructThread
    rw [cancelKiller_eq hsafe.1, Exec.ok_bind, hF]
    rfl
  · intro r t'
    rw [hmem, h.mem_handlers, hlive]
    by_cases htt : t' = t
    · subst htt; simp
    · simp [htt]
  · intro t' r' ht' hr'
    obtain ⟨htt, hl⟩ := hlive.mp ht'
    exact h.known hl (by simpa [htt] using hr')
  · intro t' ht'
    obtain ⟨htt, hl⟩ := hlive.mp ht'
    simpa [htt] using h.state hl
  · intro c k hc hk
    obtain ⟨h1, h2, h3⟩ := h.killer hc (killer_of_released hk)
    refine ⟨hlive.mpr ⟨?_, h1⟩, h2, h3⟩
    rintro rfl
    simp [released, h2] at hk
  · obtain ⟨hkt, hl⟩ := hlive.mp hk
    obtain ⟨h1, h2⟩ := hx.killer hl hc
    refine ⟨h1, released_of_ne h2 fun hct => hkt ?_⟩
    exact Option.some.inj (h2.symm.trans (hx.killer ht hct).2)
  · obtain ⟨htt, hl⟩ := hlive.mp ht'
    exact hx.handler hl (by simpa [htt] using hr')

end Signals

end Genode.Kernel
