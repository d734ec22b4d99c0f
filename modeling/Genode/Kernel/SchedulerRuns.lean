import Genode.Lib.Run
import Genode.Kernel.SchedulerRefinement

/-!
# SchedulerRuns — the lists of the scheduler over whole runs

A run of the scheduler starts with its constructor and continues with
any operations, each called as its assertions demand, on shares that
are inserted. In every state of such a run each share is in the lists
that its quota, its priority and its readiness call for, once, and in no
other list, and the next operation returns.
-/

namespace Genode.Kernel

open Lib

/-- The operations of a scheduler. -/
inductive SchedOp (ι : Type) where
  | insert (i : ι) (c : CpuShare)
  | ready (i : ι)
  | unready (i : ι)
  | yield
  | remove (i : ι)
  | quota (i : ι) (q : Nat)
  | update (time : UInt64)
  | timeout
  | head
  deriving DecidableEq, Repr

variable {ι : Type} [DecidableEq ι]

namespace SchedOp

/-- The asserted preconditions, and that an operation is called for
shares in the scheduler, or one that is not yet there. The idle share
has no quota. -/
def Allowed {C F : Type} (s : SchedulerOf C F ι) : SchedOp ι → Prop
  | insert i c => i ∉ s.inserted ∧ c.ready = false ∧ (i = s.idle → c.quota = 0)
  | ready i => i ∈ s.inserted ∧ (s.share i).ready = false ∧ i ≠ s.idle
  | unready i => i ∈ s.inserted ∧ (s.share i).ready = true ∧ i ≠ s.idle
  | remove i => i ∈ s.inserted ∧ i ≠ s.idle
  | quota i _ => i ∈ s.inserted ∧ i ≠ s.idle
  | yield | update _ | timeout | head => True

instance {C F : Type} (s : SchedulerOf C F ι) : (op : SchedOp ι) → Decidable (op.Allowed s)
  | insert i c => inferInstanceAs
      (Decidable (i ∉ s.inserted ∧ c.ready = false ∧ (i = s.idle → c.quota = 0)))
  | ready i => inferInstanceAs
      (Decidable (i ∈ s.inserted ∧ (s.share i).ready = false ∧ i ≠ s.idle))
  | unready i => inferInstanceAs
      (Decidable (i ∈ s.inserted ∧ (s.share i).ready = true ∧ i ≠ s.idle))
  | remove i => inferInstanceAs (Decidable (i ∈ s.inserted ∧ i ≠ s.idle))
  | quota i _ => inferInstanceAs (Decidable (i ∈ s.inserted ∧ i ≠ s.idle))
  | yield | update _ | timeout | head => .isTrue trivial

def run (c : CpuScheduler ι) : SchedOp ι → Exec (CpuScheduler ι)
  | insert i s => c.insert i s
  | ready i => c.ready i
  | unready i => c.unready i
  | yield => .ok c.yield
  | remove i => c.remove i
  | quota i q => c.setQuota i q
  | update time => c.update time
  | timeout => .ok c.timeout
  | head => do
    let (_, c) ← c.getHead
    .ok c

/-- The operation on lists. -/
def apply (a : ListScheduler ι) : SchedOp ι → ListScheduler ι
  | insert i s => a.insert i s
  | ready i => a.ready i
  | unready i => a.unready i
  | yield => a.yield
  | remove i => a.remove i
  | quota i q => a.setQuota i q
  | update time => a.update time
  | timeout => a.timeout
  | head => if a.head = none then a.update a.lastTime else a

end SchedOp

variable {c c' : CpuScheduler ι} {a : ListScheduler ι} {op : SchedOp ι}

theorem ListScheduler.Inv.apply (h : a.Inv) (ha : op.Allowed a) : (op.apply a).Inv := by
  cases op with
  | insert i s => exact h.insert ha.1 ha.2.1 ha.2.2
  | ready i => exact h.ready ha.1 ha.2.1 ha.2.2
  | unready i => exact h.unready ha.1 ha.2.1 ha.2.2
  | yield =>
    exact h.of_perm (fun _ => .rfl) .rfl (fun _ => ⟨rfl, rfl, rfl⟩) rfl rfl h.head h.residual
  | remove i => exact h.remove ha.1 ha.2
  | quota i q => exact h.setQuota ha.1 ha.2 q
  | update time => exact h.update time
  | timeout =>
    exact h.of_perm (fun _ => .rfl) .rfl (fun _ => ⟨rfl, rfl, rfl⟩) rfl rfl h.head h.residual
  | head =>
    show ListScheduler.Inv (if a.head = none then a.update a.lastTime else a)
    split
    · exact h.update _
    · exact h

namespace CpuScheduler

omit [DecidableEq ι] in
theorem Refines.allowed_iff (h : Refines c a) : op.Allowed c ↔ op.Allowed a := by
  obtain ⟨L, l, -, -, rfl⟩ := h
  cases op <;> exact Iff.rfl

omit [DecidableEq ι] in
theorem Refines.head_eq (h : Refines c a) : a.head = c.head ∧ a.lastTime = c.lastTime := by
  obtain ⟨L, l, -, -, rfl⟩ := h
  exact ⟨rfl, rfl⟩

omit [DecidableEq ι] in
theorem selectHead_head_ne_none (a : ListScheduler ι) : a.selectHead.head ≠ none := by
  rcases ListScheduler.selectHead_cases a with ⟨p, i, -, -, he, -⟩ | ⟨-, ⟨i, -, he⟩ | ⟨-, he⟩⟩
  · simp [he, SchedulerOf.setHead]
  · simp [he, SchedulerOf.setHead]
  · simp [he, SchedulerOf.setHead]

theorem Refines.getHead (h : Refines c a) (hinv : a.Inv) :
    Simulates (SchedOp.head.run c) (SchedOp.head.apply a) := by
  obtain ⟨hh, ht⟩ := h.head_eq
  simp only [SchedOp.run, SchedOp.apply, CpuScheduler.getHead, hh, ht]
  cases hn : c.head with
  | none =>
    obtain ⟨c₁, hc₁, h₁⟩ := h.update hinv c.lastTime
    obtain ⟨i, hi⟩ : ∃ i, c₁.head = some i :=
      Option.ne_none_iff_exists'.mp (h₁.head_eq.1 ▸ selectHead_head_ne_none _)
    refine .of_eq ?_ h₁ rfl
    simp [hc₁, hi]
  | some i =>
    refine .of_eq ?_ h (by simp)
    simp [hn]

/-- Every operation that is allowed returns, and refines the operation
on lists. -/
theorem Refines.run (h : Refines c a) (hinv : a.Inv) (ha : op.Allowed a) :
    Simulates (op.run c) (op.apply a) := by
  cases op with
  | insert i s => exact h.insert hinv ha.1 ha.2.1
  | ready i => exact h.ready hinv ha.1 ha.2.1 ha.2.2
  | unready i => exact h.unready hinv ha.1 ha.2.1 ha.2.2
  | yield =>
    obtain ⟨L, l, hL, hl, rfl⟩ := h
    exact ⟨_, rfl, L, l, hL, hl, rfl⟩
  | remove i => exact h.remove hinv ha.1 ha.2
  | quota i q => exact h.setQuota hinv ha.1 ha.2 q
  | update time => exact h.update hinv time
  | timeout =>
    obtain ⟨L, l, hL, hl, rfl⟩ := h
    exact ⟨_, rfl, L, l, hL, hl, rfl⟩
  | head => exact h.getHead hinv

/-! ## Runs -/

/-- A scheduler as its constructor leaves it. -/
def Init (c : CpuScheduler ι) : Prop := ∃ share i q f, c = construct share i q f

def Trans : CpuScheduler ι → SchedOp ι → CpuScheduler ι → Prop :=
  Guarded (fun c op => op.Allowed c) fun c op => op.run c

omit [DecidableEq ι] in
/-- The list model of a constructed scheduler has empty lists. -/
theorem Init.refines (h : Init c) : ∃ a, Refines c a ∧ a.Inv ∧ a.head = some a.idle ∧
    a.inserted = ∅ ∧ a.headClaims = false := by
  obtain ⟨share, i, q, f, rfl⟩ := h
  refine ⟨_, ⟨fun _ => [], [], DoubleLists.repr_init, DoubleLists.repr_init, rfl⟩, ?_, rfl, rfl, rfl⟩
  refine ⟨?_, ?_, fun _ => .nil, .nil, ?_, ?_, fun hq => ⟨hq, le_rfl⟩⟩
  · simp [view, construct]
  · simp [view, construct]
  · simp [view, construct]
  · intro j hj
    exact .inr ⟨by simpa [view, construct, eq_comm] using hj, rfl⟩

/-- A step of the scheduler is the step of its list model. -/
theorem Trans.refines (h : Refines c a) (hinv : a.Inv) (ht : Trans c op c') :
    op.Allowed a ∧ Refines c' (op.apply a) := by
  have ha := h.allowed_iff.mp ht.1
  obtain ⟨c₁, hc₁, h₁⟩ := h.run hinv ha
  obtain rfl : c₁ = c' := Except.ok.inj (hc₁.symm.trans ht.2)
  exact ⟨ha, h₁⟩

/-- What the lists of a scheduler are like: they are well formed and
hold exactly the shares that they should. -/
structure WellFormed (c : CpuScheduler ι) (L : ClaimList → List ι) (l : List ι) : Prop where
  claims : c.claims.Repr L
  fills : c.fills.Repr fun _ => l
  count_claims : ∀ k i, (L k).count i =
    if i ∈ c.inserted ∧ (c.share i).quota ≠ 0 ∧ claimList (c.share i) = k then 1 else 0
  count_fills : ∀ i, l.count i = if i ∈ c.inserted ∧ (c.share i).ready = true then 1 else 0
  idle : (∀ k, c.idle ∉ L k) ∧ c.idle ∉ l
  residual : 0 < c.quota → 0 < c.residual ∧ c.residual ≤ c.quota

theorem count_eq_ite {l : List ι} (hl : l.Nodup) {i : ι} {p : Prop} [Decidable p]
    (h : i ∈ l ↔ p) : l.count i = if p then 1 else 0 := by
  rw [hl.count]
  exact if_congr h rfl rfl

theorem wellFormed_of_view {L : ClaimList → List ι} {l : List ι} (hL : c.claims.Repr L)
    (hl : c.fills.Repr fun _ => l) (hinv : (view c L l).Inv) : WellFormed c L l where
  claims := hL
  fills := hl
  count_claims := fun k _ => count_eq_ite (hinv.nodup k) hinv.claims
  count_fills := fun _ => count_eq_ite hinv.fillsNodup hinv.fills
  idle := ⟨hinv.idle_not_claimed, hinv.idle_not_filled⟩
  residual := hinv.residual

/-- The invariant of the runs of a scheduler. -/
def Listed (c : CpuScheduler ι) : Prop := ∃ a, Refines c a ∧ a.Inv

theorem Trans.listed (h : Listed c) (ht : Trans c op c') : Listed c' := by
  obtain ⟨a, ha, hinv⟩ := h
  obtain ⟨hop, ha'⟩ := Trans.refines ha hinv ht
  exact ⟨_, ha', hinv.apply hop⟩

def exec : CpuScheduler ι → SchedOp ι → Option (SchedOp ι × CpuScheduler ι) :=
  perform (fun c op => op.Allowed c) fun c op => op.run c

theorem exists_run (share : ι → CpuShare) (i : ι) (q f : Nat) (ops : List (SchedOp ι))
    {p : List (CpuScheduler ι × SchedOp ι) × CpuScheduler ι → Prop} [DecidablePred p]
    (h : (replay exec ops ([], construct share i q f)).any (fun r => decide (p r)) = true) :
    ∃ hist c, Run Init Trans hist c ∧ p (hist, c) :=
  exists_guarded_run ⟨share, i, q, f, rfl⟩ h

variable {hist : List (CpuScheduler ι × SchedOp ι)}

theorem listed_of_run (h : Run Init Trans hist c) : Listed c := by
  refine h.invariant (fun c hc => ?_) fun c op c' hl ht => Trans.listed hl ht
  obtain ⟨a, ha, hinv, -⟩ := Init.refines hc
  exact ⟨a, ha, hinv⟩

/-- In every state of a run the lists are well formed and hold the
shares that they should, and every operation that may be called then
returns. -/
theorem wellFormed_of_run (h : Run Init Trans hist c) :
    (∃ L l, WellFormed c L l) ∧ ∀ op : SchedOp ι, op.Allowed c → ∃ c', op.run c = .ok c' := by
  obtain ⟨a, ha, hinv⟩ := listed_of_run h
  constructor
  · obtain ⟨L, l, hL, hl, rfl⟩ := ha
    exact ⟨L, l, wellFormed_of_view hL hl hinv⟩
  · intro op hop
    obtain ⟨c', hc', -⟩ := ha.run hinv (ha.allowed_iff.mp hop)
    exact ⟨c', hc'⟩

/-- A share loses its quota while it is the head, gets another one, and
is removed after its time was settled. -/
theorem wellFormed_of_run_quota :
    ∃ (hist : List (CpuScheduler (Fin 3) × SchedOp (Fin 3))) (c : CpuScheduler (Fin 3)),
      Run Init Trans hist c ∧ (c.head = some 2 ∧ c.inserted = {2}) ∧
      ∃ L l, WellFormed c L l := by
  obtain ⟨hist, c, h, hp⟩ := exists_run (fun _ => .construct 0 0) (0 : Fin 3) 1000 100
    [.insert 1 (.construct 2 230), .insert 2 (.construct 0 170), .ready 1, .ready 2, .update 10,
      .quota 1 0, .update 20, .quota 1 50, .yield, .remove 1, .update 90]
    (p := fun r => r.2.head = some 2 ∧ r.2.inserted = {2}) (by decide)
  exact ⟨hist, c, h, hp, (wellFormed_of_run h).1⟩

end CpuScheduler

end Genode.Kernel
