import Genode.Kernel.IpcHistory

/-!
# Helping — chains of threads that lend their CPU share

A sender on the CPU of its receiver lends its share: the kernel runs
`helping_destination` of whatever share is scheduled, and activates or
deactivates the shares of all (transitive) helpers of a thread at once.
Both are recursions over the relation "`n` helps `_out.node`" without
any check for a node that was met before.

`send` accepts every receiver. So the recursions end in all states of a
run exactly if no helping send of the run closes a cycle, and a thread
that sends to itself is enough to close one.
-/

namespace Genode.Kernel

open Lib Util Relation

variable {ι κ : Type} [DecidableEq ι] [DecidableEq κ]

/-- `Cpu_job::_helping_possible`: helping needs a common CPU. -/
def helpingPossible (cpu : ι → κ) (self j : ι) : Bool := decide (cpu j = cpu self)

namespace IpcNodes

variable {s s' : IpcNodes ι} {L : ι → List ι} {self node n m : ι}

/-! ## The helping relation of the queues -/

omit [DecidableEq ι] in
theorem finite_helping (h : Linked s L) : {n | s.helpee n ≠ none}.Finite := by
  refine s.live.finite_toSet.subset fun n hn => ?_
  obtain ⟨m, hm⟩ := Option.ne_none_iff_exists'.mp hn
  exact (h.live_of (helpee_eq_some.mp hm).2).1

omit [DecidableEq ι] in
/-- `for_each_helper` calls its functor exactly once for each helper. -/
theorem helpers_spec (h : Linked s L) (m : ι) :
    ∃ cs, s.helpers m = .ok cs ∧ cs.Nodup ∧ ∀ c, c ∈ cs ↔ s.helpee c = some m := by
  refine ⟨(L m).filter s.helping, ?_, (h.repr.nodup m).filter _, fun c => ?_⟩
  · simp [helpers, h.queue_eq]
  · rw [List.mem_filter, h.mem_iff, helpee_eq_some]
    constructor
    · rintro ⟨ho, hh⟩
      have hh' : s.outState c = .sendHelping := by
        simp [helping] at hh
        exact hh.1
      exact ⟨hh', ho⟩
    · rintro ⟨hs, ho⟩
      exact ⟨ho, by simp [helping, hs, ho]⟩

/-! ## When the recursions end -/

/-- The helping relation has no cycles, and both recursions over it end
at every node, whatever the second one does at the nodes it visits. -/
structure HelpingEnds (s : IpcNodes ι) : Prop where
  acyclic : Acyclic s.helpee
  destination : ∀ n, ∃ fuel r, s.helpingDestination fuel n = some r
  usedShares : ∀ (σ : Type) (act : ι → σ → Exec σ), (∀ n x, ∃ x', act n x = .ok x') →
    ∀ n x, ∃ fuel x', visit s.helpers act fuel n x = .ok x'

omit [DecidableEq ι] in
theorem helpingEnds_of_acyclic (h : Linked s L) (hac : Acyclic s.helpee) : HelpingEnds s where
  acyclic := hac
  destination n := ⟨_, top_ends (finite_helping h) hac (Nat.lt_succ_self _)⟩
  usedShares σ act hact n x := by
    obtain ⟨x', hx', -⟩ := visit_spec (P := fun _ _ => True) (finite_helping h) (hac n)
      (fun y _ => helpers_spec h y)
      (fun y _ _ x _ _ => by
        obtain ⟨x', hx'⟩ := hact y x
        exact ⟨x', hx', trivial⟩)
      (Nat.lt_succ_self _) (S := ∅) (s := x) trivial (by simp)
    exact ⟨_, x', hx'⟩

/-- A helping send starts with a receiver whose own helping chain does
not lead back to the sender. -/
def HelpsNoHelper (s : IpcNodes ι) (a : IpcStep ι) : Prop :=
  ∀ n m, a.1 = .send n m true → ¬ ReflTransGen (Up s.helpee) m n

theorem Trans.sent {a : IpcStep ι} (ht : Trans s a s') {help : Bool}
    (ha : a.1 = .send n m help) : s' = s.sent n m help ∧ s.helpee n = none := by
  obtain ⟨hal, hrun⟩ := ht
  rw [ha] at hal hrun
  obtain ⟨-, -, hr⟩ := hal
  have hst : s.outState n = .ready := by
    simp [readyToSend] at hr
    exact hr.1
  refine ⟨?_, by simp [helpee, helping, hst]⟩
  simp only [IpcOp.run, send_eq] at hrun
  split at hrun
  · simp only [recordCalls, Exec.ok_bind, Except.ok.injEq, Prod.mk.injEq] at hrun
    exact hrun.1.symm
  · simp only [Except.ok.injEq, Prod.mk.injEq] at hrun
    exact hrun.1.symm

theorem Trans.acyclic (h : Inv s L) {a : IpcStep ι} (ht : Trans s a s')
    (hac : Acyclic s.helpee) (hok : HelpsNoHelper s a) : Acyclic s'.helpee := by
  by_cases hsend : ∃ n m, a.1 = .send n m true
  · obtain ⟨n, m, ha⟩ := hsend
    rw [(ht.sent ha).1, sent_helpee, if_pos rfl]
    exact hac.update (hok n m ha)
  · -- every other step keeps or removes helping relations
    obtain ⟨L', he⟩ := Trans.effect h ht
    refine hac.mono fun {x y} hxy => ?_
    rcases he.helping x y hxy with hold | hnew
    · exact hold
    · exact absurd ⟨x, y, hnew⟩ hsend

theorem Trans.onCycle {a : IpcStep ι} (ht : Trans s a s') (hbad : ¬ HelpsNoHelper s a) :
    ∃ n, OnCycle s'.helpee n := by
  simp only [HelpsNoHelper, not_forall, not_not] at hbad
  obtain ⟨n, m, ha, hback⟩ := hbad
  obtain ⟨rfl, hnone⟩ := ht.sent ha
  refine ⟨n, ?_⟩
  rw [sent_helpee, if_pos rfl]
  exact onCycle_update hnone hback

variable {hist : List (IpcNodes ι × IpcStep ι)}

/-- The recursions over the helping relation end in every state of a run
exactly if every helping send of the run started with a receiver that
was not helping the sender, directly or through others. -/
theorem helpingEnds_iff (h : Run Init Trans hist s) :
    (∀ t ∈ reached hist s, HelpingEnds t) ↔ ∀ e ∈ hist, HelpsNoHelper e.1 e.2 := by
  refine Run.forall_reached_iff (I := fun s => Acyclic s.helpee ∧ ∃ L, Inv s L)
    ?_ ?_ ?_ ?_ h
  · rintro s ⟨live, rfl⟩
    refine ⟨fun n hn => not_onCycle_of_none ?_ hn, _, inv_fresh live⟩
    simp [helpee, helping, fresh]
  · rintro s a s' ⟨hac, L, hinv⟩ ht hok
    obtain ⟨L', he⟩ := Trans.effect hinv ht
    exact ⟨Trans.acyclic hinv ht hac hok, L', he.inv⟩
  · rintro s ⟨hac, L, hinv⟩
    exact helpingEnds_of_acyclic hinv.toLinked hac
  · rintro s a s' - ht hbad hends
    obtain ⟨n, hn⟩ := Trans.onCycle ht hbad
    exact hends.acyclic n hn

/-- Two clients help a server, which answers one of them. -/
theorem helpingEnds_iff_server :
    ∃ (hist : List (IpcNodes (Fin 3) × IpcStep (Fin 3))) (s : IpcNodes (Fin 3)),
      Run Init Trans hist s ∧ (s.helpee 0 = none ∧ s.helpee 2 = some 1) ∧
      ∀ t ∈ reached hist s, HelpingEnds t := by
  -- the server itself never sends
  obtain ⟨hist, s, h, hp, hall⟩ := IpcNodes.exists_run (Finset.univ : Finset (Fin 3))
    [.send 0 1 true, .wait 1, .send 2 1 true, .reply 1]
    (p := fun r => (r.2.helpee 0 = none ∧ r.2.helpee 2 = some 1) ∧
      ∀ e ∈ r.1, e.1.helpee 1 = none ∧ ∀ n m, e.2.1 = .send n m true → m = 1 ∧ n ≠ 1)
    (by decide)
  refine ⟨hist, s, h, hp, (helpingEnds_iff h).mpr fun e he n m hsend hback => ?_⟩
  obtain ⟨hnone, hto⟩ := hall e he
  obtain ⟨rfl, hn⟩ := hto n m hsend
  rcases ReflTransGen.cases_head hback with heq | ⟨c, hc, -⟩
  · exact hn heq.symm
  · exact absurd (hnone.symm.trans hc) (by simp)

/-- A thread that sends to itself helps itself: the relation is cyclic
and its helping destination is never found. -/
theorem self_send_never_ends :
    ∃ (cpu : Fin 1 → Fin 1) (hist : List (IpcNodes (Fin 1) × IpcStep (Fin 1)))
      (s : IpcNodes (Fin 1)), Run Init Trans hist s ∧
      (∀ e ∈ hist, ∀ n m help, e.2.1 = .send n m help → help = helpingPossible cpu n m) ∧
      OnCycle s.helpee 0 ∧ ∀ fuel, s.helpingDestination fuel 0 = none := by
  obtain ⟨hist, s, h, hcpu, hself⟩ := IpcNodes.exists_run (Finset.univ : Finset (Fin 1))
    [.send 0 0 true]
    (p := fun r => (∀ e ∈ r.1, ∀ n m help, e.2.1 = .send n m help →
      help = helpingPossible (id : Fin 1 → Fin 1) n m) ∧ r.2.helpee 0 = some 0) (by decide)
  have hcycle : OnCycle s.helpee 0 := TransGen.single hself
  exact ⟨id, hist, s, h, hcpu, hcycle, fun fuel => top_onCycle hcycle fuel⟩

end IpcNodes

end Genode.Kernel
