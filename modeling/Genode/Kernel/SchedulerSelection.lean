import Genode.Kernel.SchedulerRuns

/-!
# SchedulerSelection — which share the scheduler selects

`_claim_for_head` looks only at the first share of each list of ready
claims. As long as quotas are fixed this is enough: in each of these
lists the shares with time left stand in front of the depleted ones, so
the first one is depleted only if all are. That order is the invariant
of this module.
-/

namespace Genode.Kernel

open Lib

variable {ι : Type} [DecidableEq ι]

/-- Nothing in the list with an `f` of zero stands in front of something
with another `f`. -/
def DepletedLast (f : ι → Nat) (l : List ι) : Prop := l.Pairwise fun i j => f j ≠ 0 → f i ≠ 0

namespace DepletedLast

variable {f g : ι → Nat} {l : List ι} {i : ι}

omit [DecidableEq ι] in
theorem congr (h : DepletedLast f l) (hfg : ∀ i ∈ l, g i = 0 ↔ f i = 0) : DepletedLast g l :=
  List.Pairwise.imp_of_mem (fun hi hj hij => by
    rw [Ne, Ne, hfg _ hi, hfg _ hj]
    exact hij) h

omit [DecidableEq ι] in
theorem of_forall (h : ∀ i ∈ l, f i ≠ 0) : DepletedLast f l :=
  List.pairwise_of_forall_mem_list fun i hi _ _ _ => h i hi

theorem erase (h : DepletedLast f l) (i : ι) : DepletedLast f (l.erase i) :=
  List.Pairwise.sublist List.erase_sublist h

omit [DecidableEq ι] in
theorem cons (h : DepletedLast f l) (hi : f i ≠ 0) : DepletedLast f (i :: l) :=
  List.pairwise_cons.mpr ⟨fun _ _ _ => hi, h⟩

omit [DecidableEq ι] in
theorem concat (h : DepletedLast f l) (hi : f i = 0) : DepletedLast f (l ++ [i]) := by
  refine List.pairwise_append.mpr ⟨h, List.pairwise_singleton _ _, ?_⟩
  intro j _ k hk hne
  rw [List.mem_singleton.mp hk] at hne
  exact absurd hi hne

omit [DecidableEq ι] in
/-- If the first one is depleted, all are. -/
theorem eq_zero (h : DepletedLast f l) (hi : l.head? = some i) (h0 : f i = 0) {j : ι} (hj : j ∈ l) :
    f j = 0 := by
  obtain ⟨xs, rfl⟩ := List.head?_eq_some_iff.mp hi
  rcases List.mem_cons.mp hj with rfl | hj
  · exact h0
  · by_contra hne
    exact (List.pairwise_cons.mp h).1 j hj hne h0

end DepletedLast

/-- The claims of the shares. -/
def SchedulerOf.claim {C F : Type} (s : SchedulerOf C F ι) (i : ι) : Nat := (s.share i).claim

namespace ListScheduler

variable {s : ListScheduler ι} {i : ι}

/-- Every list of ready claims has its depleted shares last. -/
def ClaimsOrdered (s : ListScheduler ι) : Prop := ∀ p, DepletedLast s.claim (s.claims (.rcl p))

/-- The order of the claims, and what it depends on. -/
structure Ordered (s : ListScheduler ι) : Prop where
  claims : s.ClaimsOrdered
  /-- A share that is scheduled for its claim had one. -/
  head : ∀ {i}, s.head = some i → s.headClaims = true → s.claim i ≠ 0

/-! ## The order is kept -/

/-- A change of one share that leaves its claim alone. -/
theorem claim_eq_of_share {s' : ListScheduler ι} {c : CpuShare}
    (hs : s'.share = Function.update s.share i c) (hc : c.claim = s.claim i) :
    s'.claim = s.claim := by
  funext j
  by_cases hj : j = i
  · subst hj; simp [SchedulerOf.claim, hs, hc]
  · simp [SchedulerOf.claim, hs, hj]

omit [DecidableEq ι] in
/-- The lists of ready claims after a change of one list. -/
theorem ClaimsOrdered.update (h : s.ClaimsOrdered) {L : ClaimList → List ι}
    (hL : ∀ p, L (.rcl p) = s.claims (.rcl p)) {k : ClaimList} {xs : List ι}
    (hxs : ∀ p, k = .rcl p → DepletedLast s.claim xs) (p : Prio) :
    DepletedLast s.claim (Function.update L k xs (.rcl p)) := by
  by_cases hp : .rcl p = k
  · subst hp
    rw [Function.update_self]
    exact hxs p rfl
  · rw [Function.update_of_ne hp, hL]
    exact h p

theorem Ordered.ready (h : s.Ordered) : (ready s i).Ordered := by
  have hclaim : (s.ready i).claim = s.claim := claim_eq_of_share rfl rfl
  refine ⟨fun p => ?_, fun hj hc => ?_⟩
  · rw [hclaim]
    show DepletedLast s.claim (s.readyClaims i (.rcl p))
    by_cases hq : (s.share i).quota = 0
    · rw [readyClaims_of_zero hq]
      exact h.claims p
    · rw [readyClaims_of_ne hq]
      refine h.claims.update (fun p => by simp) (fun p' hp => ?_) p
      obtain rfl : (s.share i).prio = p' := by simpa using hp
      split
      · rename_i hc
        exact (h.claims _).cons hc
      · rename_i hc
        exact (h.claims _).concat (not_not.mp hc)
  · rw [hclaim]
    exact h.head hj hc

theorem Ordered.unready (h : s.Ordered) : (unready s i).Ordered := by
  have hclaim : (s.unready i).claim = s.claim := claim_eq_of_share rfl rfl
  refine ⟨fun p => ?_, fun hj hc => ?_⟩
  · rw [hclaim]
    show DepletedLast s.claim (s.unreadyClaims i (.rcl p))
    by_cases hq : (s.share i).quota = 0
    · rw [unreadyClaims_of_zero hq]
      exact h.claims p
    · rw [unreadyClaims_of_ne hq, Function.update_of_ne (by simp)]
      refine h.claims.update (fun _ => rfl) (fun p' hp => ?_) p
      obtain rfl : (s.share i).prio = p' := by simpa using hp
      exact (h.claims _).erase i
  · rw [hclaim]
    exact h.head hj hc

theorem Ordered.removeUnready (h : s.Ordered) : (removeUnready s i).Ordered := by
  refine ⟨fun p => ?_, fun {j} hj hc => ?_⟩
  · show DepletedLast s.claim (s.removeClaims i (.rcl p))
    by_cases hq : (s.share i).quota = 0
    · rw [removeClaims_of_zero hq]
      exact h.claims p
    · rw [removeClaims_of_ne hq]
      exact h.claims.update (fun _ => rfl) (by simp) p
  · simp only [ListScheduler.removeUnready] at hj
    split at hj
    · simp at hj
    · exact h.head hj hc

theorem Ordered.remove (h : s.Ordered) : (remove s i).Ordered := by
  unfold ListScheduler.remove
  split
  · exact h.unready.removeUnready
  · exact h.removeUnready

theorem Ordered.insert (h : s.Ordered) (hinv : s.Inv) (hi : i ∉ s.inserted) {c : CpuShare} :
    (insert s i c).Ordered := by
  have hclaim : ∀ {j}, j ≠ i → (s.insert i c).claim j = s.claim j := fun hj => by
    simp [SchedulerOf.claim, ListScheduler.insert, hj]
  have hclaims : ∀ p, (s.insert i c).claims (.rcl p) = s.claims (.rcl p) := fun p => by
    simp only [ListScheduler.insert]
    split
    · rfl
    · rw [Function.update_of_ne (by simp)]
  refine ⟨fun p => ?_, fun {j} hj hcl => ?_⟩
  · rw [hclaims]
    refine (h.claims p).congr fun j hj => ?_
    rw [hclaim]
    rintro rfl
    exact hinv.not_mem_of_not_inserted hi _ hj
  · have hne : j ≠ i := by
      rintro rfl
      rcases hinv.head hj with hm | ⟨-, hno⟩
      · exact hi hm
      · exact absurd (hcl.symm.trans hno) (by simp)
    rw [hclaim hne]
    exact h.head hj hcl

/-! ## Settling the time -/

theorem ClaimsOrdered.consumed (h : s.ClaimsOrdered) (hinv : s.Inv) (q : Nat) :
    (consumed s q).ClaimsOrdered := by
  unfold ListScheduler.consumed
  split
  · exact h
  · have hshare : ∀ i, (nextRound s).share i =
        if s.Claimed i then { s.share i with claim := (s.share i).quota } else s.share i :=
      fun _ => rfl
    refine fun p => .of_forall fun i hi => ?_
    -- whoever is in the list was given its quota
    have hm := hinv.claims.mp (show i ∈ s.claims (.rcl p) from hi)
    rw [SchedulerOf.claim, hshare, if_pos (hinv.claimed_iff.mpr ⟨hm.1, hm.2.1⟩)]
    exact hm.2.1

theorem ClaimsOrdered.headClaimed (h : s.ClaimsOrdered) (hinv : s.Inv) (hc : s.claim i ≠ 0)
    (r : Nat) : (headClaimed s i r).ClaimsOrdered := by
  have hne : ∀ {j}, j ≠ i → (s.headClaimed i r).claim j = s.claim j := fun hj => by
    simp [SchedulerOf.claim, ListScheduler.headClaimed, hj]
  have hself : (s.headClaimed i r).claim i = s.claimLeft i r := by
    simp [SchedulerOf.claim, ListScheduler.headClaimed]
  intro p
  by_cases hd : s.Depleted i r
  · have hlist : (s.headClaimed i r).claims = Function.update s.claims (.rcl (s.share i).prio)
        ((s.claims (.rcl (s.share i).prio)).erase i ++ [i]) := if_pos hd
    have hother : ∀ {l : List ι}, i ∉ l → DepletedLast s.claim l →
        DepletedLast (s.headClaimed i r).claim l := fun hi hl =>
      hl.congr fun j hj => by rw [hne fun he => hi (he ▸ hj)]
    rw [hlist]
    by_cases hp : p = (s.share i).prio
    · subst hp
      rw [Function.update_self]
      refine (hother (hinv.nodup _).not_mem_erase ((h _).erase i)).concat ?_
      rw [hself]
      exact hd.2.1
    · rw [Function.update_of_ne (by simpa using hp)]
      refine hother (fun hm => hp ?_) (h p)
      simpa [CpuScheduler.claimList, hd.2.2, eq_comm] using (hinv.claims.mp hm).2.2
  · have hlist : (s.headClaimed i r).claims = s.claims := if_neg hd
    rw [hlist]
    refine (h p).congr fun j hj => ?_
    by_cases hji : j = i
    · -- a ready head that is not depleted keeps some of its claim
      subst hji
      have hm := hinv.claims.mp hj
      have hready : (s.share j).ready = true := by
        by_contra hr
        simp [CpuScheduler.claimList, hr] at hm
      have hleft : s.claimLeft j r ≠ 0 := fun h0 => hd ⟨hm.2.1, h0, hready⟩
      rw [hself]
      simp [hleft, hc]
    · rw [hne hji]

theorem ClaimsOrdered.headFilled (h : s.ClaimsOrdered) (r : Nat) :
    (headFilled s i r).ClaimsOrdered := by
  unfold ListScheduler.headFilled
  split
  · have hclaim : SchedulerOf.claim ({ s with
        share := Function.update s.share i
          { s.share i with fill := if r ≠ 0 then r else s.fill }
        fills := if r ≠ 0 then s.fills else s.fills.tail ++ [i] } : ListScheduler ι) = s.claim :=
      claim_eq_of_share rfl rfl
    intro p
    rw [hclaim]
    exact h p
  · exact h

theorem Ordered.settle (h : s.Ordered) (hinv : s.Inv) (duration : Nat) :
    (settle s duration).ClaimsOrdered := by
  unfold ListScheduler.settle
  cases hh : s.head with
  | none =>
    dsimp only
    split
    · exact ClaimsOrdered.consumed (s := s.clearRemoved) h.claims hinv.clearRemoved _
    · exact h.claims
  | some i =>
    refine ClaimsOrdered.consumed (s := (s.chargeHead i _).clearYield) ?_
      (hinv.chargeHead hh _).clearYield _
    show (s.chargeHead i _).ClaimsOrdered
    unfold ListScheduler.chargeHead
    split
    · rename_i hc
      exact h.claims.headClaimed hinv (h.head hh hc) _
    · exact h.claims.headFilled _

omit [DecidableEq ι] in
theorem ClaimsOrdered.selectHead (h : s.ClaimsOrdered) : (selectHead s).Ordered := by
  rcases selectHead_cases s with ⟨p, i, -, hc, he, -⟩ | ⟨-, ⟨i, -, he⟩ | ⟨-, he⟩⟩
  · rw [he]
    refine ⟨h, fun {j} hj _ => ?_⟩
    obtain rfl : i = j := by simpa [SchedulerOf.setHead] using hj
    exact hc
  · rw [he]
    exact ⟨h, by simp [SchedulerOf.setHead]⟩
  · rw [he]
    exact ⟨h, by simp [SchedulerOf.setHead]⟩

theorem Ordered.update (h : s.Ordered) (hinv : s.Inv) (time : UInt64) : (update s time).Ordered := by
  have hinv' : Inv (s.startUpdate time) :=
    hinv.of_perm (fun _ => .rfl) .rfl (fun _ => ⟨rfl, rfl, rfl⟩) rfl rfl hinv.head hinv.residual
  exact (Ordered.settle (s := s.startUpdate time) ⟨h.claims, h.head⟩ hinv' _).selectHead

end ListScheduler

/-! ## The selection -/

/-- The share is ready, has a quota, and has time of its claim left. -/
def SchedulerOf.Claims {C F : Type} (s : SchedulerOf C F ι) (i : ι) : Prop :=
  i ∈ s.inserted ∧ (s.share i).ready = true ∧ (s.share i).quota ≠ 0 ∧ s.claim i ≠ 0

/-- What the head should be, if these are the claims and `first` is the
first fill: a claim of the highest priority that there is, else the first
fill, else the idle share. -/
structure SchedulerOf.Selected {C F : Type} (s : SchedulerOf C F ι) (claims : ι → Prop)
    (first : Option ι) : Prop where
  claim : (∃ i, claims i) → ∃ h, s.head = some h ∧ s.headClaims = true ∧ claims h ∧
    s.headQuota = s.claim h ∧ ∀ i, claims i → (s.share i).prio ≤ (s.share h).prio
  fill : (¬ ∃ i, claims i) → (∃ i ∈ s.inserted, (s.share i).ready = true) →
    ∃ h ∈ s.inserted, (s.share h).ready = true ∧ first = some h ∧
      s.head = some h ∧ s.headClaims = false ∧ s.headQuota = (s.share h).fill
  idle : (¬ ∃ i ∈ s.inserted, (s.share i).ready = true) →
    s.head = some s.idle ∧ s.headClaims = false ∧ s.headQuota = s.fill

namespace ListScheduler

variable {s : ListScheduler ι} {i : ι}

omit [DecidableEq ι] in
/-- A share with a claim is in the list of its priority, whose first
share then has a claim as well. -/
theorem ClaimsOrdered.exists_head (h : s.ClaimsOrdered) (hinv : s.Inv) (hi : s.Claims i) :
    ∃ j, (s.claims (.rcl (s.share i).prio)).head? = some j ∧ s.claim j ≠ 0 := by
  have hm : i ∈ s.claims (.rcl (s.share i).prio) :=
    hinv.claims.mpr ⟨hi.1, hi.2.2.1, by simp [CpuScheduler.claimList, hi.2.1]⟩
  cases hj : (s.claims (.rcl (s.share i).prio)).head? with
  | none => simp [List.head?_eq_none_iff.mp hj] at hm
  | some j => exact ⟨j, rfl, fun h0 => hi.2.2.2 ((h _).eq_zero hj h0 hm)⟩

omit [DecidableEq ι] in
theorem Inv.claims_of_rcl (hinv : s.Inv) {p : Prio} (hi : i ∈ s.claims (.rcl p))
    (hc : s.claim i ≠ 0) : s.Claims i ∧ (s.share i).prio = p := by
  obtain ⟨hins, hq, hk⟩ := hinv.claims.mp hi
  unfold CpuScheduler.claimList at hk
  split at hk
  · rename_i hr
    exact ⟨⟨hins, hr, hq, hc⟩, ClaimList.rcl.inj hk⟩
  · simp at hk

omit [DecidableEq ι] in
theorem ClaimsOrdered.selected (h : s.ClaimsOrdered) (hinv : s.Inv) :
    s.selectHead.Selected s.selectHead.Claims s.fills.head? := by
  rcases selectHead_cases s with ⟨p, i, hi, h0, he, hbest⟩ | ⟨hnone, hfill⟩
  · obtain ⟨hcl, hp⟩ := hinv.claims_of_rcl (List.mem_of_mem_head? hi) h0
    rw [he]
    refine ⟨fun _ => ⟨i, rfl, rfl, hcl, rfl, fun j hj => ?_⟩, fun hno => absurd ⟨i, hcl⟩ hno,
      fun hno => absurd ⟨i, hcl.1, hcl.2.1⟩ hno⟩
    -- the first of a higher priority would be depleted
    by_contra hlt
    obtain ⟨k, hk, hk0⟩ := h.exists_head hinv hj
    exact hk0 (hbest _ k (hp ▸ Nat.lt_of_not_le hlt) hk)
  · have hno : ¬ ∃ j, s.Claims j := by
      rintro ⟨j, hj⟩
      obtain ⟨k, hk, hk0⟩ := h.exists_head hinv hj
      exact hk0 (hnone _ k hk)
    rcases hfill with ⟨i, hi, he⟩ | ⟨hnil, he⟩
    · have hm := hinv.fills.mp (List.mem_of_mem_head? hi)
      rw [he]
      exact ⟨fun hex => absurd hex hno, fun _ _ => ⟨i, hm.1, hm.2, hi, rfl, rfl, rfl⟩,
        fun hnr => absurd ⟨i, hm⟩ hnr⟩
    · have hnr : ¬ ∃ j ∈ s.inserted, (s.share j).ready = true := by
        rintro ⟨j, hj⟩
        simpa [hnil] using hinv.fills.mpr hj
      rw [he]
      exact ⟨fun hex => absurd hex hno, fun _ hr => absurd hr hnr, fun _ => ⟨rfl, rfl, rfl⟩⟩

omit [DecidableEq ι] in
theorem selectHead_fills (s : ListScheduler ι) : s.selectHead.fills = s.fills := by
  rcases selectHead_cases s with ⟨p, i, -, -, he, -⟩ | ⟨-, ⟨i, -, he⟩ | ⟨-, he⟩⟩
  · rw [he]; rfl
  · rw [he]; rfl
  · rw [he]; rfl

/-- `update` selects as it should. -/
theorem Ordered.update_selected (h : s.Ordered) (hinv : s.Inv) (time : UInt64) :
    (s.update time).Selected (s.update time).Claims (s.update time).fills.head? := by
  have hinv' : Inv (s.startUpdate time) :=
    hinv.of_perm (fun _ => .rfl) .rfl (fun _ => ⟨rfl, rfl, rfl⟩) rfl rfl hinv.head hinv.residual
  have hord := Ordered.settle (s := s.startUpdate time) ⟨h.claims, h.head⟩ hinv'
    (s.duration time)
  rw [ListScheduler.update, selectHead_fills]
  exact hord.selected (hinv'.settle _)

end ListScheduler

/-! ## Runs with fixed quotas -/

/-- The operation changes no quota. -/
def SchedOp.FixedQuota : SchedOp ι → Prop
  | .quota _ _ => False
  | _ => True

instance : (op : SchedOp ι) → Decidable op.FixedQuota
  | .quota _ _ => .isFalse id
  | .insert _ _ | .ready _ | .unready _ | .yield | .remove _ | .update _ | .timeout | .head =>
    .isTrue trivial

variable {c c' : CpuScheduler ι} {a : ListScheduler ι} {op : SchedOp ι}

theorem ListScheduler.Ordered.apply (h : a.Ordered) (hinv : a.Inv) (ha : op.Allowed a)
    (hop : op.FixedQuota) : (op.apply a).Ordered := by
  cases op with
  | insert i s => exact h.insert hinv ha.1
  | ready i => exact h.ready
  | unready i => exact h.unready
  | yield => exact ⟨h.claims, h.head⟩
  | remove i => exact h.remove
  | quota i q => exact hop.elim
  | update time => exact h.update hinv time
  | timeout => exact ⟨h.claims, h.head⟩
  | head =>
    show ListScheduler.Ordered (if a.head = none then a.update a.lastTime else a)
    split
    · exact h.update hinv _
    · exact h

namespace CpuScheduler

variable {hist : List (CpuScheduler ι × SchedOp ι)}

omit [DecidableEq ι] in
theorem Init.ordered (h : Init c) : ∃ a, Refines c a ∧ a.Inv ∧ a.Ordered := by
  obtain ⟨a, ha, hinv, hhead, hins, hcl⟩ := Init.refines h
  refine ⟨a, ha, hinv, fun p => ?_, ?_⟩
  · have hnil : a.claims (.rcl p) = [] := List.eq_nil_iff_forall_not_mem.mpr fun i hi => by
      simpa [hins] using (hinv.claims.mp hi).1
    rw [hnil]
    exact .nil
  · simp [hcl]

theorem ordered_of_run (h : Run Init Trans hist c) (hq : ∀ e ∈ hist, e.2.FixedQuota) :
    ∃ a, Refines c a ∧ a.Inv ∧ a.Ordered := by
  refine h.invariant_of (I := fun c => ∃ a, Refines c a ∧ a.Inv ∧ a.Ordered)
    (C := fun _ op => op.FixedQuota) (fun c hc => Init.ordered hc) ?_ hq
  · rintro c op c' ⟨a, ha, hinv, hord⟩ ht hop
    obtain ⟨hal, ha'⟩ := Trans.refines ha hinv ht
    exact ⟨_, ha', hinv.apply hal, hord.apply hinv hal hop⟩

/-- As long as quotas are fixed, the lists of ready claims have their
depleted shares last, and the next update, at any time, selects a claim
of the highest priority, else the first fill, else the idle share. -/
theorem selected_of_run (h : Run Init Trans hist c) (hq : ∀ e ∈ hist, e.2.FixedQuota) :
    (∃ L l, WellFormed c L l ∧ ∀ p, DepletedLast c.claim (L (.rcl p))) ∧
    ∀ time, ∃ c', c.update time = .ok c' ∧ c'.Selected c'.Claims (c'.fills.head ()) := by
  obtain ⟨a, ha, hinv, hord⟩ := ordered_of_run h hq
  constructor
  · obtain ⟨L, l, hL, hl, rfl⟩ := ha
    exact ⟨L, l, wellFormed_of_view hL hl hinv, hord.claims⟩
  · intro time
    obtain ⟨c', hc', L, l, hL, hl, he⟩ := ha.update hinv time
    refine ⟨c', hc', ?_⟩
    have hsel := hord.update_selected hinv time
    rw [he] at hsel
    rw [hl.head_eq]
    exact ⟨hsel.claim, hsel.fill, hsel.idle⟩

/-- A depleted claim gives way to one of lower priority. -/
theorem selected_of_run_depleted :
    ∃ (hist : List (CpuScheduler (Fin 3) × SchedOp (Fin 3))) (c : CpuScheduler (Fin 3)),
      Run Init Trans hist c ∧ (c.claims.head (.rcl 2) = some 1 ∧ c.claim 1 = 0) ∧
      ∀ time, ∃ c', c.update time = .ok c' ∧ c'.Selected c'.Claims (c'.fills.head ()) := by
  obtain ⟨hist, c, h, hp, hq⟩ := exists_run (fun _ => .construct 0 0) (0 : Fin 3) 1000 100
    [.insert 1 (.construct 2 230), .insert 2 (.construct 0 170), .ready 1, .ready 2, .update 10,
      .update 240]
    (p := fun r => (r.2.claims.head (.rcl 2) = some 1 ∧ r.2.claim 1 = 0) ∧
      ∀ e ∈ r.1, e.2.FixedQuota) (by decide)
  exact ⟨hist, c, h, hp, (selected_of_run h hq).2⟩

/-- `Cpu_share::quota` before the first `affinity` leaves the claim of the
constructor behind. A share without a quota is scheduled as a fill, even so. -/
theorem not_selected_stale_claim :
    ∃ (hist : List (CpuScheduler (Fin 3) × SchedOp (Fin 3))) (c : CpuScheduler (Fin 3)),
      Run Init Trans hist c ∧ (∀ e ∈ hist, e.2.FixedQuota) ∧
      ∃ c', c.update 10 = .ok c' ∧ ¬ c'.Selected
        (fun i => i ∈ c'.inserted ∧ (c'.share i).ready = true ∧ c'.claim i ≠ 0)
        (c'.fills.head ()) := by
  obtain ⟨hist, c, h, hq, hclaim, hhead⟩ := exists_run (fun _ => .construct 0 0) (0 : Fin 3)
    1000 100 [.insert 1 { CpuShare.construct 2 230 with quota := 0 }, .ready 1]
    (p := fun r => (∀ e ∈ r.1, e.2.FixedQuota) ∧
      (r.2.update 10).toOption.any (fun c' => decide (1 ∈ c'.inserted ∧
        (c'.share 1).ready = true ∧ c'.claim 1 ≠ 0)) = true ∧
      (r.2.update 10).toOption.all (fun c' => !c'.headClaims) = true) (by decide)
  cases hc' : c.update 10 with
  | error e =>
    rw [hc'] at hclaim
    cases hclaim
  | ok c' =>
    rw [hc'] at hclaim hhead
    refine ⟨hist, c, h, hq, c', hc', fun hsel => ?_⟩
    obtain ⟨k, -, hk, -⟩ := hsel.claim ⟨1, of_decide_eq_true hclaim⟩
    simp [Except.toOption, hk] at hhead

end CpuScheduler

end Genode.Kernel
