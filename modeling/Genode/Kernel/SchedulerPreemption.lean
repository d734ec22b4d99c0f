import Mathlib.Order.Fin.Basic
import Genode.Kernel.SchedulerSelection

/-!
# SchedulerPreemption — when an update may be skipped

`Cpu::schedule` skips the update while `need_to_schedule` is false. So
every operation that makes another share the one to select, or the head
one that is not, has to set the flag. As long as the flag is not set,
the head is what a selection would come to, and an update without any
time gone by would select it again.
-/

namespace Genode.Kernel

open Lib

namespace ListScheduler

variable {ι : Type} [DecidableEq ι] {s : ListScheduler ι} {i j : ι} {c : CpuShare}

/-! ## The selected head -/

/-- The claim of `i` is the first one: no claim of a higher priority has
time left. -/
def ClaimsFirst (s : ListScheduler ι) (i : ι) : Prop :=
  ∃ p, (s.claims (.rcl p)).head? = some i ∧ s.claim i ≠ 0 ∧
    ∀ q, p < q → ∀ j ∈ s.claims (.rcl q), s.claim j = 0

/-- No claim has time left. -/
def NoClaims (s : ListScheduler ι) : Prop := ∀ p, ∀ j ∈ s.claims (.rcl p), s.claim j = 0

/-- The first fill is that of `i`, or `i` is the idle share and there is
no fill. -/
def FillsFirst (s : ListScheduler ι) (i : ι) (q : Nat) : Prop :=
  s.fills.head? = some i ∧ q = (s.share i).fill ∨ s.fills = [] ∧ i = s.idle ∧ q = s.fill

omit [DecidableEq ι] in
theorem selectHead_of_claimsFirst (h : s.ClaimsFirst i) :
    s.selectHead = s.setHead i (s.claim i) true := by
  obtain ⟨p, hi, h0, hnone⟩ := h
  rcases selectHead_cases s with ⟨p', j, hj, hj0, he, hbest⟩ | ⟨hzero, -⟩
  · have hp : p' = p := by
      rcases lt_trichotomy p p' with hlt | heq | hlt
      · exact absurd (hnone p' hlt j (List.mem_of_mem_head? hj)) hj0
      · exact heq.symm
      · exact absurd (hbest p i hlt hi) h0
    rw [hp, hi] at hj
    obtain rfl := Option.some.inj hj
    exact he
  · exact absurd (hzero p i hi) h0

omit [DecidableEq ι] in
theorem selectHead_of_fillsFirst {q : Nat} (h : s.NoClaims) (hf : s.FillsFirst i q) :
    s.selectHead = s.setHead i q false := by
  rcases selectHead_cases s with ⟨p, j, hj, hj0, -⟩ | ⟨-, hfill⟩
  · exact absurd (h p j (List.mem_of_mem_head? hj)) hj0
  · rcases hf with ⟨hi, rfl⟩ | ⟨hnil, rfl, rfl⟩
    · rcases hfill with ⟨j, hj, he⟩ | ⟨hnil, -⟩
      · rw [hi] at hj
        obtain rfl := Option.some.inj hj
        exact he
      · simp [hnil] at hi
    · rcases hfill with ⟨j, hj, -⟩ | ⟨-, he⟩
      · simp [hnil] at hj
      · exact he

/-- The head is what a selection would come to. -/
def Chosen (s : ListScheduler ι) : Prop :=
  ∃ i, s.head = some i ∧
    (s.headClaims = true ∧ s.headQuota = s.claim i ∧ s.ClaimsFirst i ∨
      s.headClaims = false ∧ s.NoClaims ∧ s.FillsFirst i s.headQuota)

omit [DecidableEq ι] in
theorem ClaimsOrdered.chosen (h : s.ClaimsOrdered) : s.selectHead.Chosen := by
  rcases selectHead_cases s with ⟨p, i, hi, h0, he, hbest⟩ | ⟨hzero, hfill⟩
  · have hfirst : s.ClaimsFirst i := by
      refine ⟨p, hi, h0, fun q hq j hj => ?_⟩
      cases hk : (s.claims (.rcl q)).head? with
      | none => simp [List.head?_eq_none_iff.mp hk] at hj
      | some k => exact (h q).eq_zero hk (hbest q k hq hk) hj
    rw [he]
    exact ⟨i, rfl, .inl ⟨rfl, rfl, hfirst⟩⟩
  · have hno : s.NoClaims := by
      intro p j hj
      cases hk : (s.claims (.rcl p)).head? with
      | none => simp [List.head?_eq_none_iff.mp hk] at hj
      | some k => exact (h p).eq_zero hk (hzero p k hk) hj
    rcases hfill with ⟨i, hi, he⟩ | ⟨hnil, he⟩
    · rw [he]
      exact ⟨i, rfl, .inr ⟨rfl, hno, .inl ⟨hi, rfl⟩⟩⟩
    · rw [he]
      exact ⟨s.idle, rfl, .inr ⟨rfl, hno, .inr ⟨hnil, rfl, rfl⟩⟩⟩

omit [DecidableEq ι] in
/-- A chosen head is ready, or the idle share. -/
theorem Chosen.ready (h : s.Chosen) (hinv : s.Inv) (hi : s.head = some i) :
    (s.share i).ready = true ∨ i = s.idle := by
  obtain ⟨j, hj, hsel⟩ := h
  obtain rfl : j = i := Option.some.inj (hj.symm.trans hi)
  rcases hsel with ⟨-, -, p, hp, -⟩ | ⟨-, -, hfill | ⟨-, hidle, -⟩⟩
  · left
    by_contra hr
    have hk := (hinv.claims.mp (List.mem_of_mem_head? hp)).2.2
    simp [CpuScheduler.claimList, hr] at hk
  · exact .inl (hinv.fills.mp (List.mem_of_mem_head? hfill.1)).2
  · exact .inr hidle

/-! ## Operations that leave the head alone -/

omit [DecidableEq ι] in
theorem Inv.prio_of_rcl (h : s.Inv) {p : Prio} (hi : i ∈ s.claims (.rcl p)) :
    (s.share i).prio = p := by
  have hk := (h.claims.mp hi).2.2
  unfold CpuScheduler.claimList at hk
  split at hk
  · exact ClaimList.rcl.inj hk
  · cases hk

/-- What an operation may do to the lists under a chosen head: the head
stays the first one where it is, and claims with time left are only added
below the priority of a head that runs for its claim. -/
structure Spares (s s' : ListScheduler ι) : Prop where
  head : s'.head = s.head
  headClaims : s'.headClaims = s.headClaims
  headQuota : s'.headQuota = s.headQuota
  idle : s'.idle = s.idle
  fill : s'.fill = s.fill
  share : ∀ {i}, s.head = some i → i ≠ s.idle →
    s'.claim i = s.claim i ∧ (s'.share i).fill = (s.share i).fill
  first : ∀ {p i}, s.head = some i → (s.claims (.rcl p)).head? = some i →
    (s'.claims (.rcl p)).head? = some i
  claims : ∀ {p j}, j ∈ s'.claims (.rcl p) → s'.claim j ≠ 0 →
    j ∈ s.claims (.rcl p) ∧ s.claim j ≠ 0 ∨
      s.headClaims = true ∧ ∃ i, s.head = some i ∧ p < (s.share i).prio
  fills : ∀ {i}, s.head = some i → s.fills.head? = some i → s'.fills.head? = some i
  nofills : s.head = some s.idle → s.fills = [] → s'.fills = []

omit [DecidableEq ι] in
theorem Chosen.spared {s' : ListScheduler ι} (h : s.Chosen) (hinv : s.Inv) (hs : Spares s s') :
    s'.Chosen := by
  obtain ⟨i, hi, hsel⟩ := h
  refine ⟨i, hs.head.trans hi, ?_⟩
  rw [hs.headClaims, hs.headQuota]
  rcases hsel with ⟨hc, hq, p, hp, h0, hnone⟩ | ⟨hc, hno, hfill⟩
  · have hm := List.mem_of_mem_head? hp
    have hne : i ≠ s.idle := fun he => hinv.idle_not_claimed _ (he ▸ hm)
    have hclaim := (hs.share hi hne).1
    refine .inl ⟨hc, hclaim ▸ hq, p, hs.first hi hp, hclaim ▸ h0, fun q hlt j hj => ?_⟩
    by_contra hj0
    rcases hs.claims hj hj0 with ⟨hold, hold0⟩ | ⟨-, i', hi', hlt'⟩
    · exact hold0 (hnone q hlt j hold)
    · obtain rfl : i = i' := Option.some.inj (hi.symm.trans hi')
      rw [hinv.prio_of_rcl hm] at hlt'
      exact absurd hlt' (not_lt_of_gt hlt)
  · refine .inr ⟨hc, fun p j hj => ?_, ?_⟩
    · by_contra hj0
      rcases hs.claims hj hj0 with ⟨hold, hold0⟩ | ⟨hc', -⟩
      · exact hold0 (hno p j hold)
      · exact absurd (hc'.symm.trans hc) (by simp)
    · rcases hfill with ⟨hf, hq⟩ | ⟨hnil, rfl, hq⟩
      · have hne : i ≠ s.idle := fun he =>
          hinv.idle_not_filled (he ▸ List.mem_of_mem_head? hf)
        exact .inl ⟨hs.fills hi hf, hq.trans (hs.share hi hne).2.symm⟩
      · exact .inr ⟨hs.nofills hi hnil, hs.idle.symm, hs.fill ▸ hq⟩

/-- A share that gets ready spares the head, if the flag is not set. -/
theorem Inv.spares_ready (hinv : s.Inv) (hhead : s.head ≠ some i)
    (hneed : (s.ready i).needToSchedule = false) : Spares s (s.ready i) := by
  have hclaim : (s.ready i).claim = s.claim := claim_eq_of_share rfl rfl
  simp only [ListScheduler.ready, Bool.or_eq_false_iff, Bool.and_eq_false_iff,
    decide_eq_false_iff_not, not_or, not_not] at hneed
  obtain ⟨⟨-, hold⟩, hsome, hidle⟩ := hneed
  have hlist : ∀ p, (s.ready i).claims (.rcl p) = s.claims (.rcl p) ∨
      p = (s.share i).prio ∧ (s.share i).quota ≠ 0 ∧ (s.ready i).claims (.rcl p) =
        if (s.share i).claim ≠ 0 then i :: s.claims (.rcl p) else s.claims (.rcl p) ++ [i] := by
    intro p
    by_cases hq : (s.share i).quota = 0
    · exact .inl (congrFun (readyClaims_of_zero hq) _)
    · have hc := congrFun (readyClaims_of_ne hq) (.rcl p)
      by_cases hp : p = (s.share i).prio
      · refine .inr ⟨hp, hq, ?_⟩
        rw [hp] at hc ⊢
        rw [Function.update_self] at hc
        exact hc
      · left
        rw [Function.update_of_ne (by simpa using hp), Function.update_of_ne (by simp)] at hc
        exact hc
  -- a claim with time left that does not outdate the head is below it
  have hbelow : (s.share i).quota ≠ 0 → (s.share i).claim ≠ 0 →
      s.headClaims = true ∧ ∃ k, s.head = some k ∧ (s.share i).prio < (s.share k).prio := by
    intro hq h0
    have hno := hold.resolve_left fun h => h.elim hq h0
    unfold SchedulerOf.outdatesHead at hno
    cases hk : s.head with
    | none => exact absurd hk hsome
    | some k =>
      cases hc : s.headClaims with
      | false => simp [hk, hc] at hno
      | true => exact ⟨rfl, k, rfl, by simpa [hk, hc] using hno⟩
  refine ⟨rfl, rfl, rfl, rfl, rfl, fun {k} hk _ => ?_, fun {p k} hk hf => ?_, fun {p j} hj hj0 => ?_,
    fun {k} _ hf => ?_, fun hk _ => absurd hk hidle⟩
  · have hne : k ≠ i := fun he => hhead (he ▸ hk)
    exact ⟨congrFun hclaim k, by simp [ListScheduler.ready, hne]⟩
  · rcases hlist p with he | ⟨rfl, hq, he⟩
    · rw [he]
      exact hf
    · rw [he]
      split
      · rename_i h0
        obtain ⟨-, k', hk', hlt⟩ := hbelow hq h0
        obtain rfl : k = k' := Option.some.inj (hk.symm.trans hk')
        rw [hinv.prio_of_rcl (List.mem_of_mem_head? hf)] at hlt
        exact absurd hlt (lt_irrefl _)
      · rw [List.head?_append, hf]
        rfl
  · rw [hclaim] at hj0
    rcases hlist p with he | ⟨rfl, hq, he⟩
    · rw [he] at hj
      exact .inl ⟨hj, hj0⟩
    · rw [he] at hj
      split at hj
      · rename_i h0
        rcases List.mem_cons.mp hj with rfl | hj
        · exact .inr (hbelow hq h0)
        · exact .inl ⟨hj, hj0⟩
      · rename_i h0
        rcases List.mem_append.mp hj with hj | hj
        · exact .inl ⟨hj, hj0⟩
        · rw [List.mem_singleton.mp hj] at hj0
          exact absurd hj0 h0
  · show (s.fills ++ [i]).head? = some k
    rw [List.head?_append, hf]
    rfl

/-- The front of a list is not the share that is taken out. -/
theorem head?_erase {l : List ι} {k : ι} (h : l.head? = some k) (hne : k ≠ i) :
    (l.erase i).head? = some k := by
  obtain ⟨xs, rfl⟩ := List.head?_eq_some_iff.mp h
  rw [List.erase_cons_tail (by simpa using hne)]
  rfl

/-- A share that is not ready anymore spares another head. -/
theorem spares_unready (hhead : s.head ≠ some i) : Spares s (s.unready i) := by
  have hclaim : (s.unready i).claim = s.claim := claim_eq_of_share rfl rfl
  have hlist : ∀ p, (s.unready i).claims (.rcl p) = s.claims (.rcl p) ∨
      (s.unready i).claims (.rcl p) = (s.claims (.rcl p)).erase i := by
    intro p
    by_cases hq : (s.share i).quota = 0
    · exact .inl (congrFun (unreadyClaims_of_zero hq) _)
    · have hc := congrFun (unreadyClaims_of_ne hq) (.rcl p)
      rw [Function.update_of_ne (by simp)] at hc
      by_cases hp : p = (s.share i).prio
      · rw [hp] at hc ⊢
        rw [Function.update_self] at hc
        exact .inr hc
      · rw [Function.update_of_ne (by simpa using hp)] at hc
        exact .inl hc
  have hne : ∀ {k}, s.head = some k → k ≠ i := fun hk he => hhead (he ▸ hk)
  refine ⟨rfl, rfl, rfl, rfl, rfl, fun {k} hk _ => ?_, fun {p k} hk hf => ?_, fun {p j} hj hj0 => ?_,
    fun {k} hk hf => head?_erase hf (hne hk), fun _ hnil => ?_⟩
  · exact ⟨congrFun hclaim k, by simp [ListScheduler.unready, hne hk]⟩
  · rcases hlist p with he | he
    · rw [he]
      exact hf
    · rw [he]
      exact head?_erase hf (hne hk)
  · rw [hclaim] at hj0
    rcases hlist p with he | he
    · rw [he] at hj
      exact .inl ⟨hj, hj0⟩
    · rw [he] at hj
      exact .inl ⟨List.mem_of_mem_erase hj, hj0⟩
  · show s.fills.erase i = []
    rw [hnil]
    rfl

/-- A share that is removed spares another head. -/
theorem spares_removeUnready (hhead : s.head ≠ some i) : Spares s (s.removeUnready i) := by
  have hlist : ∀ p, (s.removeUnready i).claims (.rcl p) = s.claims (.rcl p) := by
    intro p
    by_cases hq : (s.share i).quota = 0
    · exact congrFun (removeClaims_of_zero hq) _
    · have hc := congrFun (removeClaims_of_ne hq) (.rcl p)
      rwa [Function.update_of_ne (by simp)] at hc
  refine ⟨?_, rfl, rfl, rfl, rfl, fun _ _ => ⟨rfl, rfl⟩, fun {p k} _ hf => ?_,
    fun {p j} hj hj0 => ?_, fun _ hf => hf, fun _ hnil => hnil⟩
  · exact if_neg hhead
  · rw [hlist]
    exact hf
  · rw [hlist] at hj
    exact .inl ⟨hj, hj0⟩

/-- A new share spares the head. -/
theorem Inv.spares_insert (hinv : s.Inv) (hi : i ∉ s.inserted) : Spares s (s.insert i c) := by
  have hlist : ∀ p, (s.insert i c).claims (.rcl p) = s.claims (.rcl p) := by
    intro p
    simp only [ListScheduler.insert]
    split
    · rfl
    · rw [Function.update_of_ne (by simp)]
  have hshare : ∀ {j}, j ≠ i → (s.insert i c).share j = s.share j := fun hj => by
    simp [ListScheduler.insert, hj]
  refine ⟨rfl, rfl, rfl, rfl, rfl, fun {k} hk hne => ?_, fun {p k} _ hf => ?_,
    fun {p j} hj hj0 => ?_, fun _ hf => hf, fun _ hnil => hnil⟩
  · have hki : k ≠ i := by
      rintro rfl
      rcases hinv.head hk with hm | ⟨he, -⟩
      · exact hi hm
      · exact hne he
    exact ⟨congrArg CpuShare.claim (hshare hki), congrArg CpuShare.fill (hshare hki)⟩
  · rw [hlist]
    exact hf
  · rw [hlist] at hj
    have hji : j ≠ i := by
      rintro rfl
      exact hinv.not_mem_of_not_inserted hi _ hj
    refine .inl ⟨hj, ?_⟩
    rwa [SchedulerOf.claim, hshare hji] at hj0

/-! ## The flag is set in time -/

/-- Every ready share has time for a fill. -/
def Fillable (s : ListScheduler ι) : Prop :=
  0 < s.fill → ∀ i ∈ s.inserted, (s.share i).ready = true → (s.share i).fill ≠ 0

/-- If a round has no time at all, every update begins a new one, so the
claims are full. -/
def Full (s : ListScheduler ι) : Prop :=
  s.residual = 0 → ∀ i ∈ s.inserted, (s.share i).quota ≠ 0 → s.claim i ≠ 0

/-- The head is a chosen one as long as the flag is not set. -/
structure Steady (s : ListScheduler ι) : Prop where
  removed : s.head = none → s.headWasRemoved = true
  chosen : s.needToSchedule = false → s.headYields = false ∧ s.Chosen
  fills : s.Fillable
  full : s.Full

theorem Steady.ready (h : s.Steady) (hinv : s.Inv) (hr : (s.share i).ready = false)
    (hidle : i ≠ s.idle) : (s.ready i).Steady where
  removed := h.removed
  chosen := by
    intro hneed
    have hold : s.needToSchedule = false := by
      simp only [ListScheduler.ready, Bool.or_eq_false_iff] at hneed
      exact hneed.1.1
    obtain ⟨hy, hc⟩ := h.chosen hold
    have hhead : s.head ≠ some i := by
      intro hi
      rcases hc.ready hinv hi with hi | hi
      · exact absurd (hi.symm.trans hr) (by simp)
      · exact hidle hi
    exact ⟨hy, hc.spared hinv (hinv.spares_ready hhead hneed)⟩
  fills := by
    intro hf j hj hjr
    by_cases hji : j = i
    · subst hji
      simpa [ListScheduler.ready] using Nat.ne_of_gt hf
    · simp only [ListScheduler.ready, Function.update_of_ne hji] at hjr ⊢
      exact h.fills hf j hj hjr
  full := by
    intro h0 j hj hq
    have hclaim : (s.ready i).claim = s.claim := claim_eq_of_share rfl rfl
    rw [hclaim]
    refine h.full h0 j hj ?_
    by_cases hji : j = i
    · subst hji
      simpa [ListScheduler.ready] using hq
    · simpa [ListScheduler.ready, hji] using hq

theorem Steady.unready (h : s.Steady) (hinv : s.Inv) : (s.unready i).Steady where
  removed := h.removed
  chosen := by
    intro hneed
    simp only [ListScheduler.unready, Bool.or_eq_false_iff, decide_eq_false_iff_not] at hneed
    obtain ⟨hy, hc⟩ := h.chosen hneed.1
    exact ⟨hy, hc.spared hinv (spares_unready hneed.2)⟩
  fills := by
    intro hf j hj hjr
    by_cases hji : j = i
    · subst hji
      simp [ListScheduler.unready] at hjr
    · simp only [ListScheduler.unready, Function.update_of_ne hji] at hjr ⊢
      exact h.fills hf j hj hjr
  full := by
    intro h0 j hj hq
    have hclaim : (s.unready i).claim = s.claim := claim_eq_of_share rfl rfl
    rw [hclaim]
    refine h.full h0 j hj ?_
    by_cases hji : j = i
    · subst hji
      simpa [ListScheduler.unready] using hq
    · simpa [ListScheduler.unready, hji] using hq

theorem Steady.removeUnready (h : s.Steady) (hinv : s.Inv) (hr : (s.share i).ready = false)
    (hidle : i ≠ s.idle) : (s.removeUnready i).Steady where
  removed := by
    intro hn
    simp only [ListScheduler.removeUnready, Bool.or_eq_true, decide_eq_true_eq] at hn ⊢
    split at hn
    · rename_i hi
      exact .inr hi
    · exact .inl (h.removed hn)
  chosen := by
    intro hneed
    obtain ⟨hy, hc⟩ := h.chosen hneed
    have hhead : s.head ≠ some i := by
      intro hi
      rcases hc.ready hinv hi with hi | hi
      · exact absurd (hi.symm.trans hr) (by simp)
      · exact hidle hi
    exact ⟨hy, hc.spared hinv (spares_removeUnready hhead)⟩
  fills := fun hf j hj hjr => h.fills hf j (Finset.mem_of_mem_erase hj) hjr
  full := fun h0 j hj hq => h.full h0 j (Finset.mem_of_mem_erase hj) hq

theorem Steady.remove (h : s.Steady) (hinv : s.Inv) (hi : i ∈ s.inserted) (hidle : i ≠ s.idle) :
    (s.remove i).Steady := by
  unfold ListScheduler.remove
  cases hr : (s.share i).ready with
  | true =>
    rw [if_pos rfl]
    exact (h.unready hinv).removeUnready (hinv.unready hi hr hidle)
      (by simp [ListScheduler.unready]) hidle
  | false =>
    rw [if_neg (by simp)]
    exact h.removeUnready hinv hr hidle

theorem Steady.insert (h : s.Steady) (hinv : s.Inv) (hi : i ∉ s.inserted)
    (hr : c.ready = false) : (s.insert i c).Steady where
  removed := h.removed
  chosen := by
    intro hneed
    obtain ⟨hy, hc⟩ := h.chosen hneed
    exact ⟨hy, hc.spared hinv (hinv.spares_insert hi)⟩
  fills := by
    intro hf j hj hjr
    by_cases hji : j = i
    · subst hji
      simp only [ListScheduler.insert, Function.update_self] at hjr
      split at hjr <;> simp [hr] at hjr
    · simp only [ListScheduler.insert, Function.update_of_ne hji] at hj hjr ⊢
      exact h.fills hf j ((Finset.mem_insert.mp hj).resolve_left hji) hjr
  full := by
    intro h0 j hj hq
    by_cases hji : j = i
    · subst hji
      simp only [SchedulerOf.claim, ListScheduler.insert, Function.update_self] at hq ⊢
      split at hq
      · rename_i hzero
        exact absurd hzero hq
      · rename_i hzero
        simp [hzero]
    · simp only [SchedulerOf.claim, ListScheduler.insert, Function.update_of_ne hji] at hj hq ⊢
      exact h.full h0 j ((Finset.mem_insert.mp hj).resolve_left hji) hq

/-! ## The update -/

omit [DecidableEq ι] in
/-- The selection only sets the head. -/
theorem selectHead_same (s : ListScheduler ι) :
    s.selectHead.headYields = s.headYields ∧ s.selectHead.share = s.share ∧
      s.selectHead.inserted = s.inserted ∧ s.selectHead.fill = s.fill ∧
      s.selectHead.residual = s.residual ∧ s.selectHead.head ≠ none := by
  rcases selectHead_cases s with ⟨p, i, -, -, he, -⟩ | ⟨-, ⟨i, -, he⟩ | ⟨-, he⟩⟩
  all_goals
    rw [he]
    exact ⟨rfl, rfl, rfl, rfl, rfl, by simp [SchedulerOf.setHead]⟩

theorem Fillable.consumed (h : s.Fillable) (q : Nat) : (s.consumed q).Fillable := by
  unfold ListScheduler.consumed
  split
  · exact h
  · intro hf i hi hr
    have hsame : ((s.nextRound).share i).ready = (s.share i).ready ∧
        ((s.nextRound).share i).fill = (s.share i).fill := by
      unfold nextRound
      dsimp only
      split
      · exact ⟨rfl, rfl⟩
      · exact ⟨rfl, rfl⟩
    rw [hsame.1] at hr
    rw [hsame.2]
    exact h hf i hi hr

theorem Fillable.chargeHead (h : s.Fillable) (r : Nat) : (s.chargeHead i r).Fillable := by
  unfold ListScheduler.chargeHead
  split
  · intro hf j hj hr
    by_cases hji : j = i
    · subst hji
      simp only [ListScheduler.headClaimed, Function.update_self] at hr ⊢
      exact h hf j hj hr
    · simp only [ListScheduler.headClaimed, Function.update_of_ne hji] at hr ⊢
      exact h hf j hj hr
  · unfold ListScheduler.headFilled
    split
    · intro hf j hj hr
      by_cases hji : j = i
      · subst hji
        dsimp only
        rw [Function.update_self]
        dsimp only
        split
        · assumption
        · exact Nat.ne_of_gt hf
      · simp only [Function.update_of_ne hji] at hr ⊢
        exact h hf j hj hr
    · exact h

theorem Fillable.settle (h : s.Fillable) (d : Nat) : (s.settle d).Fillable := by
  unfold ListScheduler.settle
  cases s.head with
  | none =>
    dsimp only
    split
    · exact Fillable.consumed (s := s.clearRemoved) h _
    · exact h
  | some i => exact Fillable.consumed (s := (s.chargeHead i _).clearYield) (h.chargeHead _) _

theorem Inv.consumed_full (hinv : s.Inv) (q : Nat) : (s.consumed q).Full := by
  unfold ListScheduler.consumed
  split
  · intro h0
    simp only at h0
    omega
  · intro _ i hi hq
    have hshare : (s.nextRound).share i =
        if s.Claimed i then { s.share i with claim := (s.share i).quota } else s.share i := rfl
    have hquota : ((s.nextRound).share i).quota = (s.share i).quota := by
      rw [hshare]
      split <;> rfl
    rw [hquota] at hq
    rw [SchedulerOf.claim, hshare, if_pos (hinv.claimed_iff.mpr ⟨hi, hq⟩)]
    exact hq

theorem Inv.settle_full (hinv : s.Inv) (hrem : s.head = none → s.headWasRemoved = true)
    (d : Nat) : (s.settle d).Full := by
  unfold ListScheduler.settle
  cases hh : s.head with
  | none =>
    dsimp only
    rw [if_pos (hrem hh)]
    exact hinv.clearRemoved.consumed_full _
  | some i => exact (hinv.chargeHead hh _).clearYield.consumed_full _

theorem settle_yields (hrem : s.head = none → s.headWasRemoved = true) (d : Nat) :
    (s.settle d).headYields = false := by
  have hconsumed : ∀ (t : ListScheduler ι) q, (t.consumed q).headYields = t.headYields := by
    intro t q
    unfold ListScheduler.consumed
    split <;> rfl
  unfold ListScheduler.settle
  cases hh : s.head with
  | none =>
    dsimp only
    rw [if_pos (hrem hh), hconsumed]
    rfl
  | some i =>
    dsimp only
    rw [hconsumed]
    rfl

theorem Steady.update (h : s.Steady) (hinv : s.Inv) (hord : s.Ordered) (time : UInt64) :
    (s.update time).Steady := by
  have hinv' : Inv (s.startUpdate time) :=
    hinv.of_perm (fun _ => .rfl) .rfl (fun _ => ⟨rfl, rfl, rfl⟩) rfl rfl hinv.head hinv.residual
  have hsel := Ordered.settle (s := s.startUpdate time) ⟨hord.claims, hord.head⟩ hinv'
    (s.duration time)
  have hfill := Fillable.settle (s := s.startUpdate time) h.fills (s.duration time)
  have hfull := hinv'.settle_full h.removed (s.duration time)
  have hyields := settle_yields (s := s.startUpdate time) h.removed (s.duration time)
  obtain ⟨hy, hshare, hins, hf, hres, hhead⟩ :=
    selectHead_same (ListScheduler.settle (s.startUpdate time) (s.duration time))
  unfold ListScheduler.update
  refine ⟨fun hn => absurd hn hhead, fun _ => ⟨hy.trans hyields, hsel.chosen⟩, ?_, ?_⟩
  · unfold Fillable
    rw [hf, hins, hshare]
    exact hfill
  · unfold Full SchedulerOf.claim
    rw [hres, hins, hshare]
    exact hfull

/-! ## An update without time -/

/-- The time of a round does not pass: the first claim stays the first
one, whether or not the round ends. -/
theorem ClaimsFirst.consumed (h : s.ClaimsFirst i) (hinv : s.Inv) (hfull : s.Full) :
    (s.consumed 0).ClaimsFirst i := by
  unfold ListScheduler.consumed
  split
  · exact h
  · rename_i hres
    obtain ⟨p, hp, h0, hnone⟩ := h
    have hm := hinv.claims.mp (List.mem_of_mem_head? hp)
    have hclaim : (s.nextRound).claim i = (s.share i).quota := by
      show (if s.Claimed i then _ else _ : CpuShare).claim = _
      rw [if_pos (hinv.claimed_iff.mpr ⟨hm.1, hm.2.1⟩)]
    refine ⟨p, hp, hclaim ▸ hm.2.1, fun q hlt j hj => ?_⟩
    have hj' := hinv.claims.mp (show j ∈ s.claims (.rcl q) from hj)
    exact absurd (hnone q hlt j hj) (hfull (by omega) j hj'.1 hj'.2.1)

theorem NoClaims.consumed (h : s.NoClaims) (hinv : s.Inv) (hfull : s.Full) :
    (s.consumed 0).NoClaims := by
  unfold ListScheduler.consumed
  split
  · exact h
  · rename_i hres
    intro p j hj
    have hj' := hinv.claims.mp (show j ∈ s.claims (.rcl p) from hj)
    exact absurd (h p j hj) (hfull (by omega) j hj'.1 hj'.2.1)

theorem FillsFirst.consumed {q : Nat} (h : s.FillsFirst i q) (n : Nat) :
    (s.consumed n).FillsFirst i q := by
  unfold ListScheduler.consumed
  split
  · exact h
  · have hfill : ((s.nextRound).share i).fill = (s.share i).fill := by
      unfold nextRound
      dsimp only
      split <;> rfl
    exact h.imp (fun h => ⟨h.1, h.2.trans hfill.symm⟩) id

/-- A head that used none of its claim keeps it. -/
theorem ClaimsFirst.headClaimed (h : s.ClaimsFirst i) (hinv : s.Inv) :
    (s.headClaimed i (s.claim i)).ClaimsFirst i ∧
      (s.Full → (s.headClaimed i (s.claim i)).Full) := by
  obtain ⟨p, hp, h0, hnone⟩ := h
  have hm := hinv.claims.mp (List.mem_of_mem_head? hp)
  have hleft : s.claimLeft i (s.claim i) ≠ 0 := by
    have hq : (s.share i).quota ≠ 0 := hm.2.1
    rw [claimLeft, if_neg hq]
    omega
  have hclaims : (s.headClaimed i (s.claim i)).claims = s.claims :=
    if_neg fun hd => hleft hd.2.1
  have hself : (s.headClaimed i (s.claim i)).claim i = s.claimLeft i (s.claim i) := by
    simp [SchedulerOf.claim, ListScheduler.headClaimed]
  have hother : ∀ {j}, j ≠ i → (s.headClaimed i (s.claim i)).share j = s.share j := fun hj => by
    simp [ListScheduler.headClaimed, hj]
  constructor
  · refine ⟨p, by rw [hclaims]; exact hp, hself ▸ hleft, fun q hlt j hj => ?_⟩
    rw [hclaims] at hj
    have hji : j ≠ i := by
      rintro rfl
      exact h0 (hnone q hlt j hj)
    rw [SchedulerOf.claim, hother hji]
    exact hnone q hlt j hj
  · intro hfull hres j hj hq
    by_cases hji : j = i
    · rw [hji, hself]
      exact hleft
    · rw [hother hji] at hq
      rw [SchedulerOf.claim, hother hji]
      exact hfull hres j hj hq

/-- A head that used none of its fill keeps it. -/
theorem FillsFirst.headFilled {q : Nat} (h : s.FillsFirst i q) (hq : q ≠ 0) :
    (s.headFilled i q).FillsFirst i q ∧ (s.NoClaims → (s.headFilled i q).NoClaims) ∧
      (s.Full → (s.headFilled i q).Full) := by
  unfold ListScheduler.headFilled
  split
  · rename_i hf
    let t : ListScheduler ι :=
      { s with share := Function.update s.share i { s.share i with fill := q } }
    have hclaim : t.claim = s.claim := claim_eq_of_share rfl rfl
    have hquota : ∀ j, (t.share j).quota = (s.share j).quota := by
      intro j
      by_cases hj : j = i
      · subst hj
        simp [t]
      · simp [t, hj]
    refine ⟨.inl ⟨hf, by simp⟩, fun hno => ?_, fun hfull h0 j hj hqj => ?_⟩
    · change t.NoClaims
      unfold NoClaims
      rw [hclaim]
      exact hno
    · change t.claim j ≠ 0
      rw [hclaim]
      exact hfull h0 j hj (hquota j ▸ hqj)
  · exact ⟨h, id, id⟩

/-- As long as the flag is not set, an update selects the head again, if
no time has gone by. -/
theorem Steady.update_head (h : s.Steady) (hinv : s.Inv) (hf : 0 < s.fill)
    (hneed : s.needToSchedule = false) : (s.update s.lastTime).head = s.head := by
  obtain ⟨hy, i, hi, hsel⟩ := h.chosen hneed
  have hd : s.duration s.lastTime = 0 := by
    unfold SchedulerOf.duration
    rw [UInt64.sub_self]
    rfl
  let t : ListScheduler ι := s.startUpdate s.lastTime
  have hinv' : Inv t :=
    hinv.of_perm (fun _ => .rfl) .rfl (fun _ => ⟨rfl, rfl, rfl⟩) rfl rfl hinv.head hinv.residual
  have hcharged : Inv (t.chargeHead i s.headQuota).clearYield :=
    (hinv'.chargeHead (i := i) hi s.headQuota).clearYield
  have hsettle : t.settle 0 = ListScheduler.consumed (t.chargeHead i s.headQuota).clearYield 0 := by
    have hi' : t.head = some i := hi
    have hy' : t.headYields = false := hy
    unfold ListScheduler.settle
    rw [hi']
    simp only [SchedulerOf.trimConsumption, hy', Nat.zero_min, Nat.sub_zero, Bool.not_false,
      if_true]
    rfl
  unfold ListScheduler.update
  rw [hd]
  change (t.settle 0).selectHead.head = _
  rw [hsettle, hi]
  rcases hsel with ⟨hc, hq, hfirst⟩ | ⟨hc, hno, hfill⟩
  · have hcharge : t.chargeHead i s.headQuota = t.headClaimed i (t.claim i) := by
      rw [hq]
      exact if_pos hc
    rw [hcharge] at hcharged ⊢
    obtain ⟨hfirst', hfull'⟩ := ClaimsFirst.headClaimed (s := t) hfirst hinv'
    rw [selectHead_of_claimsFirst (ClaimsFirst.consumed
      (s := (t.headClaimed i (t.claim i)).clearYield) hfirst' hcharged (hfull' h.full))]
    rfl
  · have hcharge : t.chargeHead i s.headQuota = t.headFilled i s.headQuota := by
      have hc' : t.headClaims = false := hc
      unfold ListScheduler.chargeHead
      rw [hc']
      rfl
    have hq : s.headQuota ≠ 0 := by
      rcases hfill with ⟨hi, hq⟩ | ⟨-, -, hq⟩
      · have hm := hinv.fills.mp (List.mem_of_mem_head? hi)
        rw [hq]
        exact h.fills hf i hm.1 hm.2
      · rw [hq]
        exact Nat.ne_of_gt hf
    obtain ⟨hfill', hno', hfull'⟩ := FillsFirst.headFilled (s := t) hfill hq
    rw [hcharge] at hcharged ⊢
    rw [selectHead_of_fillsFirst
      (NoClaims.consumed (s := (t.headFilled i s.headQuota).clearYield) (hno' hno) hcharged
        (hfull' h.full))
      (FillsFirst.consumed (s := (t.headFilled i s.headQuota).clearYield) hfill' 0)]
    rfl

end ListScheduler

/-! ## Runs with fixed quotas -/

variable {ι : Type} [DecidableEq ι] {a : ListScheduler ι} {op : SchedOp ι}

theorem ListScheduler.Steady.apply (h : a.Steady) (hinv : a.Inv) (hord : a.Ordered)
    (ha : op.Allowed a) (hop : op.FixedQuota) : (op.apply a).Steady := by
  cases op with
  | insert i c => exact h.insert hinv ha.1 ha.2.1
  | ready i => exact h.ready hinv ha.2.1 ha.2.2
  | unready i => exact h.unready hinv
  | yield => exact ⟨h.removed, by simp [SchedOp.apply, SchedulerOf.yield], h.fills, h.full⟩
  | remove i => exact h.remove hinv ha.1 ha.2
  | quota i q => exact hop.elim
  | update time => exact h.update hinv hord time
  | timeout => exact ⟨h.removed, by simp [SchedOp.apply, SchedulerOf.timeout], h.fills, h.full⟩
  | head =>
    show ListScheduler.Steady (if a.head = none then a.update a.lastTime else a)
    split
    · exact h.update hinv hord _
    · exact h

namespace CpuScheduler

variable {hist : List (CpuScheduler ι × SchedOp ι)} {c : CpuScheduler ι}

omit [DecidableEq ι] in
theorem Init.steady (h : Init c) (ha : Refines c a) : a.Steady := by
  obtain ⟨share, i, q, f, rfl⟩ := h
  obtain ⟨L, l, -, -, rfl⟩ := ha
  exact ⟨nofun, nofun, fun _ j hj => absurd hj (Finset.notMem_empty j),
    fun _ j hj => absurd hj (Finset.notMem_empty j)⟩

theorem steady_of_run (h : Run Init Trans hist c) (hq : ∀ e ∈ hist, e.2.FixedQuota) :
    ∃ a, Refines c a ∧ a.Inv ∧ a.Ordered ∧ a.Steady := by
  apply h.invariant_of (I := fun c => ∃ a, Refines c a ∧ a.Inv ∧ a.Ordered ∧ a.Steady)
    (C := fun _ op => op.FixedQuota) _ _ hq
  · intro c hc
    obtain ⟨a, ha, hinv, hord⟩ := Init.ordered hc
    exact ⟨a, ha, hinv, hord, Init.steady hc ha⟩
  · intro c op c' hI ht hop
    obtain ⟨a, ha, hinv, hord, hsteady⟩ := hI
    obtain ⟨hal, ha'⟩ := Trans.refines ha hinv ht
    exact ⟨_, ha', hinv.apply hal, hord.apply hinv hal hop, hsteady.apply hinv hord hal hop⟩

/-- As long as quotas are fixed, the flag tells when an update is due:
while it is not set, an update without any time gone by would keep the
head. The time for a fill must not be zero. -/
theorem head_kept_of_run (h : Run Init Trans hist c) (hq : ∀ e ∈ hist, e.2.FixedQuota)
    (hf : 0 < c.fill) (hneed : c.needToSchedule = false) :
    ∃ c', c.update c.lastTime = .ok c' ∧ c'.head = c.head := by
  obtain ⟨a, ha, hinv, -, hsteady⟩ := steady_of_run h hq
  obtain ⟨c', hc', hrefines⟩ := ha.update hinv c.lastTime
  refine ⟨c', hc', ?_⟩
  rw [← hrefines.head_eq.1, ← ha.head_eq.1, ← ha.head_eq.2]
  obtain ⟨L, l, -, -, rfl⟩ := ha
  exact hsteady.update_head hinv hf hneed

/-- A share of a lower priority gets ready, and the claim of another one
is depleted, without the flag being set. -/
theorem head_kept_of_run_preempted :
    ∃ (hist : List (CpuScheduler (Fin 4) × SchedOp (Fin 4))) (c : CpuScheduler (Fin 4)),
      Run Init Trans hist c ∧ (c.head = some 2 ∧ c.needToSchedule = false ∧ c.lastTime = 300) ∧
      ∃ c', c.update c.lastTime = .ok c' ∧ c'.head = c.head := by
  obtain ⟨hist, c, h, ⟨hhead, hneed, htime⟩, hf, hq⟩ := exists_run (fun _ => .construct 0 0)
    (0 : Fin 4) 1000 100
    [.insert 1 (.construct 2 230), .insert 2 (.construct 1 170), .insert 3 (.construct 0 90),
      .ready 1, .ready 2, .update 10, .update 300, .ready 3, .unready 1]
    (p := fun r => (r.2.head = some 2 ∧ r.2.needToSchedule = false ∧ r.2.lastTime = 300) ∧
      0 < r.2.fill ∧ ∀ e ∈ r.1, e.2.FixedQuota) (by decide)
  exact ⟨hist, c, h, ⟨hhead, hneed, htime⟩, head_kept_of_run h hq hf hneed⟩

end CpuScheduler

end Genode.Kernel
