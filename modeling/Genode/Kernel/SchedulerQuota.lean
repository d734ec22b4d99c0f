import Genode.Kernel.SchedulerRuns

/-!
# SchedulerQuota — claims and quotas

A share should never have a claim above its quota, and should not get
more time as claim in a round than the largest quota it had in that
round. A ledger beside the scheduler keeps the two amounts for each
share. `_quota_adaption` cuts the claim down to a smaller quota, but
`_quota_introduction` leaves alone whatever claim the share had when its
quota was revoked, so both bounds depend on how quotas are introduced.
-/

namespace Genode.Kernel

open Lib

/-- The account of a share in one round: the time it was charged as
claim, and the largest quota it had. -/
structure Account where
  charged : Nat
  largest : Nat
  deriving DecidableEq, Repr

def Account.Bounded (a : Account) : Prop := a.charged ≤ a.largest

instance (a : Account) : Decidable a.Bounded := inferInstanceAs (Decidable (_ ≤ _))

/-- The accounts of all shares in the current round and in the one that
ended last. -/
structure Ledger (ι : Type) where
  now : ι → Account
  last : ι → Account

namespace Ledger

variable {ι : Type} [DecidableEq ι] (l : Ledger ι) {C F : Type} (s : SchedulerOf C F ι)

def init : Ledger ι := ⟨fun _ => ⟨0, 0⟩, fun _ => ⟨0, 0⟩⟩

def setAccount (i : ι) (f : Account → Account) : Ledger ι :=
  { l with now := Function.update l.now i (f (l.now i)) }

/-- All time that the head consumes as claim is charged to it. -/
def charge (q : Nat) : Ledger ι :=
  match s.head, s.headClaims with
  | some head, true => l.setAccount head fun a => { a with charged := a.charged + q }
  | _, _ => l

/-- The next round starts with the current quotas. -/
def turn : Ledger ι := { now := fun i => ⟨0, (s.share i).quota⟩, last := l.now }

/-- What `update` charges, and whether it starts the next round. -/
def settle (time : UInt64) : Ledger ι :=
  let q := (s.trimConsumption (s.duration time)).1
  if (s.head ≠ none ∨ s.headWasRemoved = true) ∧ s.residual ≤ q then (l.charge s q).turn s
  else l.charge s q

/-- The ledger after an operation. A share object is inserted when its
job is assigned to the CPU and removed when the job is destructed, so
each insertion opens a new account. -/
def step : SchedOp ι → Ledger ι
  | .insert i c => { now := Function.update l.now i ⟨0, c.quota⟩
                     last := Function.update l.last i ⟨0, 0⟩ }
  | .quota i q => l.setAccount i fun a => { a with largest := max a.largest q }
  | .update time => l.settle s time
  | .head => if s.head = none then l.settle s s.lastTime else l
  | .ready _ | .unready _ | .yield | .remove _ | .timeout => l

end Ledger

variable {ι : Type} [DecidableEq ι]

/-- A quota is introduced only for a share whose claim from its former
quota does not exceed the new one, nor what the share has left in this
round. -/
def IntroducesFitting {C F : Type} (s : SchedulerOf C F ι) (l : Ledger ι) : SchedOp ι → Prop
  | .quota i q => (s.share i).quota = 0 → q ≠ 0 → (s.share i).claim ≤ q ∧
      (l.now i).charged + (s.share i).claim ≤ max (l.now i).largest q
  | _ => True

instance {C F : Type} (s : SchedulerOf C F ι) (l : Ledger ι) :
    (op : SchedOp ι) → Decidable (IntroducesFitting s l op)
  | .quota i q => inferInstanceAs
      (Decidable ((s.share i).quota = 0 → q ≠ 0 → (s.share i).claim ≤ q ∧
        (l.now i).charged + (s.share i).claim ≤ max (l.now i).largest q))
  | .insert .. | .ready _ | .unready _ | .yield | .remove _ | .update _ | .timeout | .head =>
    .isTrue trivial

namespace ListScheduler

variable {s : ListScheduler ι} {l : Ledger ι} {i : ι}

/-- The claims are within the quotas and leave the accounts in bounds. -/
structure Settled (s : ListScheduler ι) (l : Ledger ι) : Prop where
  claim : ∀ {i}, i ∈ s.inserted → (s.share i).quota ≠ 0 → (s.share i).claim ≤ (s.share i).quota ∧
    (l.now i).charged + (s.share i).claim ≤ (l.now i).largest
  now : ∀ i, (l.now i).Bounded
  last : ∀ i, (l.last i).Bounded

/-- The same, while the head is running. -/
structure Accounted (s : ListScheduler ι) (l : Ledger ι) : Prop extends Settled s l where
  head : ∀ {i}, s.head = some i → s.headClaims = true →
    (l.now i).charged + s.headQuota ≤ (l.now i).largest

omit [DecidableEq ι] in
/-- An operation without effect on claims, quotas and the head. -/
theorem Accounted.of_eq (h : Accounted s l) {s' : ListScheduler ι}
    (hins : s'.inserted ⊆ s.inserted)
    (hshare : ∀ i, (s'.share i).quota = (s.share i).quota ∧ (s'.share i).claim = (s.share i).claim)
    (hhead : ∀ i, s'.head = some i → s'.headClaims = true →
      s.head = some i ∧ s.headClaims = true ∧ s'.headQuota = s.headQuota) : Accounted s' l where
  claim := by
    intro i hi hq
    rw [(hshare i).1] at hq ⊢
    rw [(hshare i).2]
    exact h.claim (hins hi) hq
  head := by
    intro i hi hc
    obtain ⟨hi', hc', hq⟩ := hhead i hi hc
    rw [hq]
    exact h.head hi' hc'
  now := h.now
  last := h.last

theorem Accounted.ready (h : Accounted s l) : Accounted (s.ready i) l := by
  refine h.of_eq (Finset.Subset.refl _) (fun j => ?_) fun j hj hc => ⟨hj, hc, rfl⟩
  by_cases hj : j = i
  · subst hj; simp [ListScheduler.ready]
  · simp [ListScheduler.ready, hj]

theorem Accounted.unready (h : Accounted s l) : Accounted (s.unready i) l := by
  refine h.of_eq (Finset.Subset.refl _) (fun j => ?_) fun j hj hc => ⟨hj, hc, rfl⟩
  by_cases hj : j = i
  · subst hj; simp [ListScheduler.unready]
  · simp [ListScheduler.unready, hj]

theorem Accounted.removeUnready (h : Accounted s l) : Accounted (s.removeUnready i) l := by
  refine h.of_eq (Finset.erase_subset _ _) (fun j => ⟨rfl, rfl⟩) fun j hj hc => ⟨?_, hc, rfl⟩
  simp only [ListScheduler.removeUnready] at hj
  split at hj
  · simp at hj
  · exact hj

theorem Accounted.remove (h : Accounted s l) : Accounted (s.remove i) l := by
  unfold ListScheduler.remove
  split
  · exact h.unready.removeUnready
  · exact h.removeUnready

theorem Accounted.insert (h : Accounted s l) (hinv : s.Inv) (hi : i ∉ s.inserted) {c : CpuShare} :
    Accounted (s.insert i c) (l.step s (.insert i c)) where
  claim := by
    intro j hj hq
    by_cases hji : j = i
    · subst hji
      simp only [ListScheduler.insert, Function.update_self] at hq ⊢
      split at hq
      · rename_i h0; exact absurd h0 hq
      · rename_i h0; simp [h0, Ledger.step]
    · have hm : j ∈ s.inserted := by simpa [ListScheduler.insert, hji] using hj
      simp only [ListScheduler.insert, Function.update_of_ne hji, Ledger.step] at hq ⊢
      exact h.claim hm hq
  head := by
    intro j hj hc
    have hji : j ≠ i := by
      rintro rfl
      rcases hinv.head hj with hm | ⟨-, hno⟩
      · exact hi hm
      · exact absurd (hc.symm.trans hno) (by simp)
    simp only [Ledger.step, Function.update_of_ne hji]
    exact h.head hj hc
  now := by
    intro j
    by_cases hji : j = i
    · subst hji; simp [Ledger.step, Account.Bounded]
    · simpa [Ledger.step, hji] using h.now j
  last := by
    intro j
    by_cases hji : j = i
    · subst hji; simp [Ledger.step, Account.Bounded]
    · simpa [Ledger.step, hji] using h.last j

theorem Accounted.setQuota (h : Accounted s l) (hi : i ∈ s.inserted) {q : Nat}
    (hfit : IntroducesFitting s l (.quota i q)) :
    Accounted (s.setQuota i q) (l.step s (.quota i q)) where
  claim := by
    intro j hj hq
    by_cases hji : j = i
    · subst hji
      simp only [ListScheduler.setQuota, Function.update_self, Ledger.step, Ledger.setAccount]
        at hq ⊢
      by_cases h0 : (s.share j).quota = 0
      · have := hfit h0 hq
        simpa [h0] using this
      · obtain ⟨-, hsum⟩ := h.claim hi h0
        by_cases hc : (s.share j).claim > q
        · rw [if_pos ⟨h0, hq, hc⟩]
          constructor
          · exact le_rfl
          · have := le_max_left (l.now j).largest q
            omega
        · rw [if_neg fun hh => hc hh.2.2]
          constructor
          · omega
          · exact le_trans hsum (le_max_left _ _)
    · simp only [ListScheduler.setQuota, Function.update_of_ne hji, Ledger.step,
        Ledger.setAccount] at hq ⊢
      exact h.claim hj hq
  head := by
    intro j hj hc
    have hold := h.head hj hc
    by_cases hji : j = i
    · subst hji
      simp only [Ledger.step, Ledger.setAccount, Function.update_self]
      exact le_trans hold (le_max_left _ _)
    · simp only [Ledger.step, Ledger.setAccount, Function.update_of_ne hji]
      exact hold
  now := by
    intro j
    by_cases hji : j = i
    · subst hji
      simp only [Ledger.step, Ledger.setAccount, Function.update_self, Account.Bounded]
      exact le_trans (h.now j) (le_max_left _ _)
    · simpa [Ledger.step, Ledger.setAccount, hji] using h.now j
  last := h.last

/-! ## Settling the time -/

omit [DecidableEq ι] in
theorem trimConsumption_le {C F : Type} (s : SchedulerOf C F ι) (d : Nat) :
    (s.trimConsumption d).1 + (s.trimConsumption d).2 ≤ s.headQuota := by
  simp only [SchedulerOf.trimConsumption]
  split <;> omega

/-- The time of the head is taken from its claim. -/
theorem Accounted.headClaimed (h : Accounted s l) (hh : s.head = some i)
    (hc : s.headClaims = true) {q r : Nat} (hqr : q + r ≤ s.headQuota) :
    Settled (s.headClaimed i r) (l.charge s q) := by
  have hsum := h.head hh hc
  have hl : l.charge s q = l.setAccount i fun a => { a with charged := a.charged + q } := by
    simp [Ledger.charge, hh, hc]
  rw [hl]
  refine ⟨fun {j} hj hq => ?_, fun j => ?_, h.last⟩
  · by_cases hji : j = i
    · subst hji
      have hq' : (s.share j).quota ≠ 0 := by simpa [ListScheduler.headClaimed] using hq
      simp only [ListScheduler.headClaimed, Function.update_self, Ledger.setAccount, claimLeft,
        if_neg hq']
      omega
    · simp only [ListScheduler.headClaimed, Function.update_of_ne hji, Ledger.setAccount] at hq ⊢
      exact h.claim hj hq
  · by_cases hji : j = i
    · subst hji
      simp only [Ledger.setAccount, Function.update_self, Account.Bounded]
      omega
    · simpa [Ledger.setAccount, hji] using h.now j

theorem Settled.headFilled (h : Settled s l) (r : Nat) : Settled (s.headFilled i r) l := by
  unfold ListScheduler.headFilled
  split
  · refine ⟨fun {j} hj hq => ?_, h.now, h.last⟩
    by_cases hji : j = i
    · subst hji
      simpa using h.claim hj (by simpa using hq)
    · simpa [hji] using h.claim hj (by simpa [hji] using hq)
  · exact h

theorem Accounted.chargeHead (h : Accounted s l) (hh : s.head = some i) {q r : Nat}
    (hqr : q + r ≤ s.headQuota) : Settled (s.chargeHead i r) (l.charge s q) := by
  unfold ListScheduler.chargeHead
  split
  · rename_i hc
    exact h.headClaimed hh hc hqr
  · rename_i hc
    have hl : l.charge s q = l := by simp [Ledger.charge, hh, hc]
    rw [hl]
    exact h.toSettled.headFilled r

theorem Settled.consumed (h : Settled s l) (hinv : s.Inv) (q : Nat) {t : ListScheduler ι}
    (hquota : ∀ i, (t.share i).quota = (s.share i).quota) :
    Settled (s.consumed q) (if s.residual ≤ q then l.turn t else l) := by
  unfold ListScheduler.consumed
  by_cases hr : s.residual ≤ q
  · rw [if_neg (not_lt.mpr hr), if_pos hr]
    refine ⟨fun {i} hi hq => ?_, fun i => Nat.zero_le _, h.now⟩
    -- whoever has a quota starts the round with all of it
    have hq' : (s.share i).quota ≠ 0 := by
      intro h0
      apply hq
      simp only [nextRound]
      split <;> simp [h0]
    have hcl : s.Claimed i := hinv.claimed_iff.mpr ⟨hi, hq'⟩
    simp [nextRound, hcl, Ledger.turn, hquota]
  · rw [if_pos (not_le.mp hr), if_neg hr]
    exact ⟨h.claim, h.now, h.last⟩

theorem chargeHead_quota (s : ListScheduler ι) (i j : ι) (r : Nat) :
    ((s.chargeHead i r).share j).quota = (s.share j).quota ∧
      (s.chargeHead i r).residual = s.residual := by
  have hset : ∀ f : CpuShare → CpuShare, (∀ c, (f c).quota = c.quota) →
      (Function.update s.share i (f (s.share i)) j).quota = (s.share j).quota := by
    intro f hf
    by_cases hji : j = i
    · subst hji; simp [hf]
    · simp [hji]
  simp only [ListScheduler.chargeHead, ListScheduler.headClaimed, ListScheduler.headFilled]
  split
  · exact ⟨hset (fun c => { c with claim := s.claimLeft i r }) fun _ => rfl, rfl⟩
  · split
    · exact ⟨hset (fun c => { c with fill := if r ≠ 0 then r else s.fill }) fun _ => rfl, rfl⟩
    · exact ⟨rfl, rfl⟩

theorem Accounted.settle (h : Accounted s l) (hinv : s.Inv) (time : UInt64) :
    Settled (ListScheduler.settle (s.startUpdate time) (s.duration time)) (l.settle s time) := by
  have htrim : (s.startUpdate time).trimConsumption (s.duration time) =
      s.trimConsumption (s.duration time) := rfl
  have hinv' : Inv (s.startUpdate time) :=
    hinv.of_perm (fun _ => .rfl) .rfl (fun _ => ⟨rfl, rfl, rfl⟩) rfl rfl hinv.head hinv.residual
  have h' : Accounted (s.startUpdate time) l := ⟨⟨h.claim, h.now, h.last⟩, h.head⟩
  have hle := trimConsumption_le s (s.duration time)
  unfold ListScheduler.settle Ledger.settle
  rw [htrim]
  cases hh : s.head with
  | none =>
    have hnone : (s.startUpdate time).head = none := hh
    have hl : ∀ q, l.charge s q = l := fun q => by simp [Ledger.charge, hh]
    simp only [hnone, hl]
    by_cases hr : s.headWasRemoved = true
    · rw [if_pos (show (s.startUpdate time).headWasRemoved = true from hr)]
      have hs : Settled (s.startUpdate time).clearRemoved l := ⟨h.claim, h.now, h.last⟩
      have hcons := hs.consumed hinv'.clearRemoved (s.trimConsumption (s.duration time)).1 (t := s)
        fun _ => rfl
      rw [show (s.startUpdate time).clearRemoved.residual = s.residual from rfl] at hcons
      simpa [hr] using hcons
    · rw [if_neg (show ¬ (s.startUpdate time).headWasRemoved = true from hr)]
      simpa [hr] using h'.toSettled
  | some i =>
    have hsome : (s.startUpdate time).head = some i := hh
    simp only [hsome]
    have hs := h'.chargeHead hsome hle
    have hs' : Settled (ListScheduler.chargeHead (s.startUpdate time) i
        (s.trimConsumption (s.duration time)).2).clearYield
        (l.charge s (s.trimConsumption (s.duration time)).1) := ⟨hs.claim, hs.now, hs.last⟩
    have hcons := hs'.consumed (hinv'.chargeHead hsome _).clearYield
      (s.trimConsumption (s.duration time)).1 (t := s) fun j =>
        (chargeHead_quota (s.startUpdate time) i j _).1.symm
    have hres : (ListScheduler.chargeHead (s.startUpdate time) i
        (s.trimConsumption (s.duration time)).2).clearYield.residual = s.residual :=
      (chargeHead_quota _ i i _).2
    rw [hres] at hcons
    simpa using hcons

omit [DecidableEq ι] in
theorem Settled.selectHead (h : Settled s l) (hinv : s.Inv) : Accounted s.selectHead l := by
  rcases selectHead_cases s with ⟨p, i, hi, -, he, -⟩ | ⟨-, ⟨i, -, he⟩ | ⟨-, he⟩⟩
  · rw [he]
    refine ⟨⟨h.claim, h.now, h.last⟩, fun {j} hj _ => ?_⟩
    obtain rfl : i = j := by simpa [SchedulerOf.setHead] using hj
    have hm := hinv.claims.mp (List.mem_of_mem_head? hi)
    exact (h.claim hm.1 hm.2.1).2
  · rw [he]
    exact ⟨⟨h.claim, h.now, h.last⟩, by simp [SchedulerOf.setHead]⟩
  · rw [he]
    exact ⟨⟨h.claim, h.now, h.last⟩, by simp [SchedulerOf.setHead]⟩

theorem Accounted.update (h : Accounted s l) (hinv : s.Inv) (time : UInt64) :
    Accounted (s.update time) (l.settle s time) := by
  have hinv' : Inv (s.startUpdate time) :=
    hinv.of_perm (fun _ => .rfl) .rfl (fun _ => ⟨rfl, rfl, rfl⟩) rfl rfl hinv.head hinv.residual
  exact (h.settle hinv time).selectHead (hinv'.settle _)

theorem Accounted.apply (h : Accounted s l) (hinv : s.Inv) {op : SchedOp ι} (ha : op.Allowed s)
    (hfit : IntroducesFitting s l op) : Accounted (op.apply s) (l.step s op) := by
  have hsame : ∀ s' : ListScheduler ι, s'.inserted = s.inserted → s'.share = s.share →
      s'.head = s.head → s'.headClaims = s.headClaims → s'.headQuota = s.headQuota →
      Accounted s' l := by
    intro s' h1 h2 h3 h4 h5
    refine h.of_eq h1.subset (fun i => by rw [h2]; exact ⟨rfl, rfl⟩) fun i hi hc => ?_
    exact ⟨h3 ▸ hi, h4 ▸ hc, h5⟩
  cases op with
  | insert i c => exact h.insert hinv ha.1
  | ready i => exact h.ready
  | unready i => exact h.unready
  | yield => exact hsame _ rfl rfl rfl rfl rfl
  | remove i => exact h.remove
  | quota i q => exact h.setQuota ha.1 hfit
  | update time => exact h.update hinv time
  | timeout => exact hsame _ rfl rfl rfl rfl rfl
  | head =>
    simp only [SchedOp.apply, Ledger.step]
    split
    · exact h.update hinv _
    · exact h

end ListScheduler

/-! ## Runs -/

namespace CpuScheduler

/-- A scheduler with the ledger of its shares. -/
abbrev Audited (ι : Type) := CpuScheduler ι × Ledger ι

namespace Audited

def Init (s : Audited ι) : Prop := CpuScheduler.Init s.1 ∧ s.2 = .init

def Trans (s : Audited ι) (op : SchedOp ι) (s' : Audited ι) : Prop :=
  CpuScheduler.Trans s.1 op s'.1 ∧ s'.2 = s.2.step s.1 op

/-- The claims in the lists are within the quotas, and no share was
charged more in a round than its largest quota. -/
def WithinQuota (s : Audited ι) : Prop :=
  (∃ L l, WellFormed s.1 L l ∧ ∀ k, ∀ i ∈ L k, (s.1.share i).claim ≤ (s.1.share i).quota) ∧
  ∀ i, (s.2.now i).Bounded ∧ (s.2.last i).Bounded

def exec (s : Audited ι) (op : SchedOp ι) : Option (SchedOp ι × Audited ι) :=
  (CpuScheduler.exec s.1 op).map fun r => (op, r.2, s.2.step s.1 op)

theorem trans_of_exec {s s' : Audited ι} {op op' : SchedOp ι} (h : exec s op = some (op', s')) :
    Trans s op' s' := by
  obtain ⟨⟨op₁, c₁⟩, hc, he⟩ := Option.map_eq_some_iff.mp h
  obtain ⟨rfl, rfl⟩ : op = op' ∧ (c₁, s.2.step s.1 op) = s' := by simpa using he
  obtain ⟨rfl, ht⟩ := guarded_of_perform hc
  exact ⟨ht, rfl⟩

theorem exists_run (share : ι → CpuShare) (i : ι) (q f : Nat) (ops : List (SchedOp ι))
    {p : List (Audited ι × SchedOp ι) × Audited ι → Prop} [DecidablePred p]
    (h : (replay exec ops ([], construct share i q f, .init)).any (fun r => decide (p r)) = true) :
    ∃ hist s, Run Init Trans hist s ∧ p (hist, s) :=
  Lib.exists_run (fun _ _ _ _ => trans_of_exec) ⟨⟨share, i, q, f, rfl⟩, rfl⟩ h

/-- The invariant of the runs that introduce only fitting quotas. -/
def Inv (s : Audited ι) : Prop := ∃ a, Refines s.1 a ∧ a.Inv ∧ a.Accounted s.2

omit [DecidableEq ι] in
theorem Init.inv {s : Audited ι} (h : Init s) : Inv s := by
  obtain ⟨a, ha, hinv, -, hins, hcl⟩ := CpuScheduler.Init.refines h.1
  have hl := h.2
  exact ⟨a, ha, hinv, ⟨by simp [hins], by simp [hl, Ledger.init, Account.Bounded],
    by simp [hl, Ledger.init, Account.Bounded]⟩, by simp [hcl]⟩

theorem Trans.inv {s s' : Audited ι} {op : SchedOp ι} (h : Inv s) (ht : Trans s op s')
    (hfit : IntroducesFitting s.1 s.2 op) : Inv s' := by
  obtain ⟨a, ha, hinv, hacc⟩ := h
  obtain ⟨hop, ha'⟩ := CpuScheduler.Trans.refines ha hinv ht.1
  refine ⟨_, ha', hinv.apply hop, ?_⟩
  rw [ht.2]
  obtain ⟨L, l, -, -, rfl⟩ := ha
  exact hacc.apply hinv hop hfit

theorem Inv.withinQuota {s : Audited ι} (h : Inv s) : WithinQuota s := by
  obtain ⟨a, ⟨L, l, hL, hl, rfl⟩, hinv, hacc⟩ := h
  refine ⟨⟨L, l, wellFormed_of_view hL hl hinv, fun k i hi => ?_⟩, fun i =>
    ⟨hacc.now i, hacc.last i⟩⟩
  have hm := hinv.claims.mp (show i ∈ (view s.1 L l).claims k from hi)
  exact (hacc.claim hm.1 hm.2.1).1

variable {hist : List (Audited ι × SchedOp ι)} {s : Audited ι}

/-- In every run that introduces only fitting quotas, the claims stay
within the quotas, and no share is charged more as claim in a round than
the largest quota it had in that round. -/
theorem withinQuota_of_run (h : Run Init Trans hist s)
    (hfit : ∀ e ∈ hist, IntroducesFitting e.1.1 e.1.2 e.2) :
    ∀ t ∈ reached hist s, WithinQuota t := by
  exact h.forall_reached_of (I := Inv) (C := fun s op => IntroducesFitting s.1 s.2 op)
    (fun _ => Init.inv) (fun _ _ _ => Trans.inv) (fun _ => Inv.withinQuota) hfit

/-- A share uses up its quota, has it revoked and gets a smaller one in
the same round. -/
theorem withinQuota_of_run_again :
    ∃ (hist : List (Audited (Fin 2) × SchedOp (Fin 2))) (s : Audited (Fin 2)),
      Run Init Trans hist s ∧ (s.1.share 1).quota = 30 ∧ s.2.now 1 = ⟨100, 100⟩ ∧
      ∀ t ∈ reached hist s, WithinQuota t := by
  obtain ⟨hist, s, h, hq, hacc, hfit⟩ := exists_run (fun _ => .construct 0 0) (0 : Fin 2) 1000 100
    [.insert 1 (.construct 2 100), .ready 1, .update 10, .update 110, .quota 1 0, .quota 1 30]
    (p := fun r => (r.2.1.share 1).quota = 30 ∧ r.2.2.now 1 = ⟨100, 100⟩ ∧
      ∀ e ∈ r.1, IntroducesFitting e.1.1 e.1.2 e.2) (by decide)
  exact ⟨hist, s, h, hq, hacc, withinQuota_of_run h hfit⟩

/-- A share keeps the claim of its former quota when it is given a
smaller one in the next round, and uses all of it. -/
theorem stale_claim_exceeds_quota :
    ∃ (hist : List (Audited (Fin 2) × SchedOp (Fin 2))) (s : Audited (Fin 2)),
      Run Init Trans hist s ∧ (¬ ∀ t ∈ reached hist s, WithinQuota t) ∧
      (s.2.last 1).charged = 100 ∧ (s.2.last 1).largest = 10 := by
  obtain ⟨hist, s, h, hclaim, hlast⟩ := exists_run (fun _ => .construct 0 0) (0 : Fin 2) 100 100
    [.insert 1 (.construct 2 100), .quota 1 0, .update 100, .quota 1 10, .ready 1, .update 100,
      .update 200]
    (p := fun r => (r.2.2.last 1).charged = 100 ∧ (r.2.2.last 1).largest = 10) (by decide)
  refine ⟨hist, s, h, fun hall => ?_, hclaim, hlast⟩
  have hb : (s.2.last 1).charged ≤ (s.2.last 1).largest :=
    ((hall s (by simp [reached])).2 1).2
  rw [show (s.2.last 1).charged = 100 from hclaim,
    show (s.2.last 1).largest = 10 from hlast] at hb
  omega

end Audited

end CpuScheduler

end Genode.Kernel
