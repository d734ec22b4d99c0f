import Genode.Kernel.ListScheduler

/-!
# SchedulerRefinement — the scheduler implements its list model

`Refines c a` relates the pointers of `CpuScheduler` to the lists of
`ListScheduler`: the doubly linked lists of `c` represent the lists of
`a`, and all other members agree. Each operation of the scheduler, if it
is called as its assertions demand, returns and refines the operation of
the same name on lists.
-/

namespace Genode.Kernel

open Lib

namespace SchedulerOf

variable {C F ι : Type} {s : SchedulerOf C F ι} {i : ι}

@[simp] theorem withClaims_share {claims : C} : (s.withClaims claims).share = s.share := rfl

@[simp] theorem withFills_share {fills : F} : (s.withFills fills).share = s.share := rfl

@[simp] theorem withInserted_share {A : Finset ι} : (s.withInserted A).share = s.share := rfl

@[simp] theorem scheduleIf_share {p : Prop} [Decidable p] : (s.scheduleIf p).share = s.share := rfl

@[simp] theorem dropHead_share [DecidableEq ι] : (s.dropHead i).share = s.share := rfl

@[simp] theorem setShare_share_self [DecidableEq ι] {f : CpuShare → CpuShare} :
    (s.setShare i f).share i = f (s.share i) := by
  simp [setShare]

end SchedulerOf

namespace CpuScheduler

variable {ι : Type} [DecidableEq ι] {c : CpuScheduler ι} {a : ListScheduler ι} {i : ι}

/-- The scheduler `c`, seen through the lists `L` and `l`. -/
def view (c : CpuScheduler ι) (L : ClaimList → List ι) (l : List ι) : ListScheduler ι :=
  { c with claims := L, fills := l }

omit [DecidableEq ι] in
@[simp] theorem view_share {L : ClaimList → List ι} {l : List ι} : (view c L l).share = c.share :=
  rfl

def Refines (c : CpuScheduler ι) (a : ListScheduler ι) : Prop :=
  ∃ L l, c.claims.Repr L ∧ (c.fills.Repr fun _ => l) ∧ a = view c L l

/-- A computation that returns a scheduler which refines `a`. -/
def Simulates (x : Exec (CpuScheduler ι)) (a : ListScheduler ι) : Prop :=
  ∃ c, x = .ok c ∧ Refines c a

omit [DecidableEq ι] in
theorem Simulates.of_eq {x : Exec (CpuScheduler ι)} {a' : ListScheduler ι} (hx : x = .ok c)
    (h : Refines c a') (ha : a = a') : Simulates x a := ⟨c, hx, ha ▸ h⟩

/-! ## Single lines -/

section Lines

variable (h : Refines c a)
include h

theorem Refines.setShare (i : ι) (f : CpuShare → CpuShare) :
    Refines (c.setShare i f) (a.setShare i f) := by
  obtain ⟨L, l, hL, hl, rfl⟩ := h
  exact ⟨L, l, hL, hl, rfl⟩

omit [DecidableEq ι] in
theorem Refines.scheduleIf (p : Prop) [Decidable p] : Refines (c.scheduleIf p) (a.scheduleIf p) := by
  obtain ⟨L, l, hL, hl, rfl⟩ := h
  exact ⟨L, l, hL, hl, rfl⟩

theorem Refines.dropHead (i : ι) : Refines (c.dropHead i) (a.dropHead i) := by
  obtain ⟨L, l, hL, hl, rfl⟩ := h
  exact ⟨L, l, hL, hl, rfl⟩

omit [DecidableEq ι] in
theorem Refines.withInserted (A : Finset ι) : Refines (c.withInserted A) (a.withInserted A) := by
  obtain ⟨L, l, hL, hl, rfl⟩ := h
  exact ⟨L, l, hL, hl, rfl⟩

theorem Refines.removeClaim {k : ClaimList} (hi : i ∈ a.claims k) :
    ∃ claims, c.claims.remove k i = .ok claims ∧
      Refines (c.withClaims claims)
        (a.withClaims (Function.update a.claims k ((a.claims k).erase i))) := by
  obtain ⟨L, l, hL, hl, rfl⟩ := h
  obtain ⟨D, hD, hL'⟩ := hL.remove hi
  exact ⟨D, hD, _, l, hL', hl, rfl⟩

theorem Refines.insertTailClaim (k : ClaimList) (hi : ∀ k, i ∉ a.claims k) :
    Refines (c.withClaims (c.claims.insertTail k i))
      (a.withClaims (Function.update a.claims k (a.claims k ++ [i]))) := by
  obtain ⟨L, l, hL, hl, rfl⟩ := h
  exact ⟨_, l, hL.insertTail hi, hl, rfl⟩

theorem Refines.insertHeadClaim (k : ClaimList) (hi : ∀ k, i ∉ a.claims k) :
    Refines (c.withClaims (c.claims.insertHead k i))
      (a.withClaims (Function.update a.claims k (i :: a.claims k))) := by
  obtain ⟨L, l, hL, hl, rfl⟩ := h
  exact ⟨_, l, hL.insertHead hi, hl, rfl⟩

theorem Refines.toTailClaim {k : ClaimList} (hi : i ∈ a.claims k) :
    ∃ claims, c.claims.toTail k i = .ok claims ∧
      Refines (c.withClaims claims)
        (a.withClaims (Function.update a.claims k ((a.claims k).erase i ++ [i]))) := by
  obtain ⟨L, l, hL, hl, rfl⟩ := h
  obtain ⟨D, hD, hL'⟩ := hL.toTail hi
  exact ⟨D, hD, _, l, hL', hl, rfl⟩

omit h [DecidableEq ι] in
/-- The lists named by `Unit` are just one list. -/
theorem repr_unit {D : DoubleLists Unit ι} {l xs : List ι}
    (hD : D.Repr (Function.update (fun _ => l) () xs)) : D.Repr fun _ => xs := by
  convert hD using 1
  funext u
  simp

theorem Refines.removeFill (hi : i ∈ a.fills) :
    ∃ fills, c.fills.remove () i = .ok fills ∧
      Refines (c.withFills fills) (a.withFills (a.fills.erase i)) := by
  obtain ⟨L, l, hL, hl, rfl⟩ := h
  obtain ⟨D, hD, hl'⟩ := hl.remove (k := ()) hi
  exact ⟨D, hD, L, _, hL, repr_unit hl', rfl⟩

theorem Refines.insertTailFill (hi : i ∉ a.fills) :
    Refines (c.withFills (c.fills.insertTail () i)) (a.withFills (a.fills ++ [i])) := by
  obtain ⟨L, l, hL, hl, rfl⟩ := h
  exact ⟨L, _, hL, repr_unit (hl.insertTail fun _ => hi), rfl⟩

theorem Refines.toHeadFill (hi : i ∈ a.fills) :
    ∃ fills, c.fills.toHead () i = .ok fills ∧
      Refines (c.withFills fills) (a.withFills (i :: a.fills.erase i)) := by
  obtain ⟨L, l, hL, hl, rfl⟩ := h
  obtain ⟨D, hD, hl'⟩ := hl.toHead (k := ()) hi
  exact ⟨D, hD, L, _, hL, repr_unit hl', rfl⟩

theorem Refines.headToTailFill :
    ∃ fills, c.fills.headToTail () = .ok fills ∧
      Refines (c.withFills fills) (a.withFills (a.fills.tail ++ a.fills.head?.toList)) := by
  obtain ⟨L, l, hL, hl, rfl⟩ := h
  obtain ⟨D, hD, hl'⟩ := hl.headToTail (k := ())
  exact ⟨D, hD, L, _, hL, repr_unit hl', rfl⟩

end Lines

/-! ## Ready, unready, insert and remove -/

variable (h : Refines c a) (hinv : a.Inv)
include h hinv

theorem Refines.unready (hi : i ∈ a.inserted) (hr : (a.share i).ready = true) (hid : i ≠ a.idle) :
    Simulates (unready c i) (a.unready i) := by
  have hf : i ∈ a.fills := hinv.fills.mpr ⟨hi, hr⟩
  obtain ⟨L, l, hL, hl, rfl⟩ := id h
  have hk : claimList (c.share i) = .rcl (c.share i).prio := if_pos hr
  have h1 := (h.scheduleIf (c.head = some i)).setShare i fun c => { c with ready := false }
  obtain ⟨fills, hfills, h2⟩ := h1.removeFill hf
  have hassert : Exec.assert ((c.share i).ready && decide (i ≠ c.idle)) = .ok () :=
    Exec.assert_eq_ok.mpr (by simpa using ⟨hr, hid⟩)
  simp only [CpuScheduler.unready, hassert, hfills, Exec.ok_bind, SchedulerOf.withFills_share,
    SchedulerOf.setShare_share_self, SchedulerOf.scheduleIf_share]
  by_cases hq : (c.share i).quota = 0
  · rw [if_pos hq]
    refine .of_eq rfl h2 ?_
    rw [ListScheduler.unready, ListScheduler.unreadyClaims_of_zero (s := view c L l) hq]
    rfl
  · obtain ⟨claims, hclaims, h3⟩ :=
      h2.removeClaim (k := .rcl (c.share i).prio) (hinv.claims.mpr ⟨hi, hq, hk⟩)
    have h4 := h3.insertTailClaim (.ucl (c.share i).prio) (hinv.not_mem_erase hk)
    rw [if_neg hq, hclaims]
    refine .of_eq rfl h4 ?_
    rw [ListScheduler.unready, ListScheduler.unreadyClaims_of_ne (s := view c L l) hq]
    rfl

omit h hinv in
theorem outdatesHead_setShare {C F : Type} {s : SchedulerOf C F ι} {f : CpuShare → CpuShare}
    (hf : ∀ c, (f c).prio = c.prio) : (s.setShare i f).outdatesHead i = s.outdatesHead i := by
  unfold SchedulerOf.outdatesHead
  have hp : ∀ j, ((s.setShare i f).share j).prio = (s.share j).prio := by
    intro j
    by_cases hj : j = i
    · subst hj; simp [hf]
    · simp [SchedulerOf.setShare, hj]
  simp only [hp]
  rfl

theorem Refines.ready (hi : i ∈ a.inserted) (hr : (a.share i).ready = false) (hid : i ≠ a.idle) :
    Simulates (ready c i) (a.ready i) := by
  have hf : i ∉ a.fills := fun hm => by simpa [hr] using (hinv.fills.mp hm).2
  obtain ⟨L, l, hL, hl, rfl⟩ := id h
  have hk : claimList (c.share i) = .ucl (c.share i).prio := if_neg (by simpa using hr)
  have h1 := h.setShare i fun c => { c with ready := true }
  have hassert : Exec.assert (!(c.share i).ready && decide (i ≠ c.idle)) = .ok () :=
    Exec.assert_eq_ok.mpr (by simpa using ⟨hr, hid⟩)
  simp only [CpuScheduler.ready, hassert, Exec.ok_bind, SchedulerOf.setShare_share_self]
  -- what follows the claim lists is the same in all cases
  have hend : ∀ {c' : CpuScheduler ι} {a' : ListScheduler ι}, Refines c' a' → i ∉ a'.fills →
      Refines (((c'.setShare i fun s => { s with fill := c.fill }).withFills
          (c'.fills.insertTail () i)).scheduleIf (c.head = none ∨ c.head = some c.idle))
        (((a'.setShare i fun s => { s with fill := c.fill }).withFills
          (a'.fills ++ [i])).scheduleIf (c.head = none ∨ c.head = some c.idle)) := by
    intro c' a' h' hf'
    exact ((h'.setShare i fun s => { s with fill := c.fill }).insertTailFill hf').scheduleIf _
  by_cases hq : (c.share i).quota = 0
  · rw [if_neg (not_not.mpr hq)]
    refine .of_eq rfl (hend h1 hf) ?_
    rw [ListScheduler.ready, ListScheduler.readyClaims_of_zero (s := view c L l) hq]
    simp [SchedulerOf.setShare, SchedulerOf.scheduleIf, SchedulerOf.withFills, view, hq,
      -Bool.decide_or]
    rfl
  · obtain ⟨claims, hclaims, h2⟩ :=
      h1.removeClaim (k := .ucl (c.share i).prio) (hinv.claims.mpr ⟨hi, hq, hk⟩)
    have hno := hinv.not_mem_erase hk
    rw [if_pos hq, hclaims, Exec.ok_bind]
    by_cases hc : (c.share i).claim = 0
    · have h3 := h2.insertTailClaim (.rcl (c.share i).prio) hno
      rw [if_neg (not_not.mpr hc)]
      refine .of_eq rfl (hend h3 hf) ?_
      rw [ListScheduler.ready, ListScheduler.readyClaims_of_ne (s := view c L l) hq]
      simp [SchedulerOf.setShare, SchedulerOf.scheduleIf, SchedulerOf.withFills,
        SchedulerOf.withClaims, view, hc, -Bool.decide_or]
      rfl
    · have h3 := (h2.insertHeadClaim (.rcl (c.share i).prio) hno).scheduleIf
        (c.outdatesHead i = true)
      have ho : ∀ D, ((c.setShare i fun c => { c with ready := true }).withClaims D).outdatesHead i =
          c.outdatesHead i := fun D =>
        outdatesHead_setShare (s := c) (f := fun c => { c with ready := true }) fun _ => rfl
      simp only [if_pos (show (c.share i).claim ≠ 0 from hc), ho]
      refine .of_eq rfl (hend h3 hf) ?_
      rw [ListScheduler.ready, ListScheduler.readyClaims_of_ne (s := view c L l) hq]
      simp [SchedulerOf.setShare, SchedulerOf.scheduleIf, SchedulerOf.withFills,
        SchedulerOf.withClaims, view, hq, hc, -Bool.decide_or]
      rfl

theorem Refines.removeUnready (hi : i ∈ a.inserted) (hr : (a.share i).ready = false) :
    Simulates (removeUnready c i) (a.removeUnready i) := by
  obtain ⟨L, l, hL, hl, rfl⟩ := id h
  have hk : claimList (c.share i) = .ucl (c.share i).prio := if_neg (by simpa using hr)
  have h1 := (h.dropHead i).withInserted (c.inserted.erase i)
  by_cases hq : (c.share i).quota = 0
  · refine .of_eq (if_pos hq) h1 ?_
    rw [ListScheduler.removeUnready, ListScheduler.removeClaims_of_zero (s := view c L l) hq]
    rfl
  · obtain ⟨claims, hclaims, h2⟩ :=
      h1.removeClaim (k := .ucl (c.share i).prio) (hinv.claims.mpr ⟨hi, hq, hk⟩)
    have he : CpuScheduler.removeUnready c i = (do
        let claims ← c.claims.remove (.ucl (c.share i).prio) i
        .ok (((c.dropHead i).withInserted (c.inserted.erase i)).withClaims claims)) := if_neg hq
    rw [he, show c.claims.remove _ i = _ from hclaims]
    refine .of_eq rfl h2 ?_
    rw [ListScheduler.removeUnready, ListScheduler.removeClaims_of_ne (s := view c L l) hq]
    rfl

theorem Refines.remove (hi : i ∈ a.inserted) (hid : i ≠ a.idle) :
    Simulates (remove c i) (a.remove i) := by
  have hs : c.share i = a.share i ∧ c.idle = a.idle := by
    obtain ⟨L, l, -, -, rfl⟩ := id h
    exact ⟨rfl, rfl⟩
  have hassert : Exec.assert (decide (i ≠ c.idle)) = .ok () :=
    Exec.assert_eq_ok.mpr (by simpa [hs.2] using hid)
  simp only [CpuScheduler.remove, ListScheduler.remove, hassert, Exec.ok_bind, hs.1]
  by_cases hr : (a.share i).ready = true
  · obtain ⟨c', hc', h'⟩ := h.unready hinv hi hr hid
    rw [if_pos hr, if_pos hr, hc']
    exact h'.removeUnready (hinv.unready hi hr hid) hi (by simp [ListScheduler.unready])
  · rw [if_neg hr, if_neg hr]
    exact h.removeUnready hinv hi (by simpa using hr)

theorem Refines.insert (hi : i ∉ a.inserted) {s : CpuShare} (hr : s.ready = false) :
    Simulates (insert c i s) (a.insert i s) := by
  have hno := hinv.not_mem_of_not_inserted hi
  obtain ⟨L, l, hL, hl, rfl⟩ := id h
  have h1 := (h.setShare i fun _ => s).withInserted (Insert.insert i c.inserted)
  have hassert : Exec.assert (!s.ready) = .ok () := Exec.assert_eq_ok.mpr (by simp [hr])
  simp only [CpuScheduler.insert, SchedulerOf.withInserted_share, SchedulerOf.setShare_share_self,
    hassert, Exec.ok_bind]
  by_cases hq : s.quota = 0
  · rw [if_pos hq]
    refine .of_eq rfl h1 ?_
    simp only [ListScheduler.insert, if_pos hq]
    rfl
  · have h2 := (h1.setShare i fun c => { c with claim := c.quota }).insertHeadClaim
      (.ucl s.prio) hno
    rw [if_neg hq]
    refine .of_eq (by simp [SchedulerOf.reset]) h2 ?_
    simp [ListScheduler.insert, if_neg hq, SchedulerOf.setShare, SchedulerOf.withInserted,
      SchedulerOf.withClaims, view]

theorem Refines.setQuota (hi : i ∈ a.inserted) (hid : i ≠ a.idle) (q : Nat) :
    Simulates (setQuota c i q) (a.setQuota i q) := by
  obtain ⟨L, l, hL, hl, rfl⟩ := id h
  have hassert : Exec.assert (decide (i ≠ c.idle)) = .ok () :=
    Exec.assert_eq_ok.mpr (decide_eq_true hid)
  simp only [CpuScheduler.setQuota, hassert, Exec.ok_bind]
  by_cases hq : (c.share i).quota = 0
  · by_cases hq' : q = 0
    · have h1 := h.setShare i fun s => { s with quota := q }
      refine .of_eq (by simp [hq, hq']) h1 ?_
      simp [ListScheduler.setQuota, ListScheduler.quotaClaims, SchedulerOf.setShare, view, hq, hq']
    · have h1 := (h.insertTailClaim (claimList (c.share i)) (hinv.not_mem_of_zero hq)).setShare i
        fun s => { s with quota := q }
      refine .of_eq (by simp [hq, hq', quotaIntroduction]) h1 ?_
      simp [ListScheduler.setQuota, ListScheduler.quotaClaims, SchedulerOf.setShare,
        SchedulerOf.withClaims, view, hq, hq']
  · by_cases hq' : q = 0
    · obtain ⟨claims, hclaims, h1⟩ := h.removeClaim (hinv.claims.mpr ⟨hi, hq, rfl⟩)
      have h2 := h1.setShare i fun s => { s with quota := q }
      have hclaims' : c.claims.remove (claimList (c.share i)) i = .ok claims := hclaims
      refine .of_eq (by simp [hq, hq', quotaAdaption, quotaRevokation, hclaims']) h2 ?_
      simp [ListScheduler.setQuota, ListScheduler.quotaClaims, SchedulerOf.setShare,
        SchedulerOf.withClaims, view, hq, hq']
    · by_cases hc : (c.share i).claim > q
      · have h1 := (h.setShare i fun s => { s with claim := q }).setShare i
          fun s => { s with quota := q }
        refine .of_eq (by simp [hq, hq', quotaAdaption, hc]) h1 ?_
        simp [ListScheduler.setQuota, ListScheduler.quotaClaims, SchedulerOf.setShare, view, hq,
          hq', hc]
      · have h1 := h.setShare i fun s => { s with quota := q }
        refine .of_eq (by simp [hq, hq', quotaAdaption, hc]) h1 ?_
        simp [ListScheduler.setQuota, ListScheduler.quotaClaims, SchedulerOf.setShare, view, hq,
          hq', hc]

/-! ## Update -/

omit h hinv in
theorem foldl_reset {C F : Type} (xs : List ι) (s : SchedulerOf C F ι) :
    xs.foldl SchedulerOf.reset s =
      { s with share := fun j =>
          if j ∈ xs then { s.share j with claim := (s.share j).quota } else s.share j } := by
  induction xs generalizing s with
  | nil => simp
  | cons x xs ih =>
    rw [List.foldl_cons, ih]
    simp only [SchedulerOf.reset, SchedulerOf.setShare, SchedulerOf.mk.injEq, true_and, and_true]
    funext j
    by_cases hj : j = x
    · subst hj; simp
    · simp [hj]

/-- What `_reset_claims` does for the priorities `ps`. -/
def resetShares (a : ListScheduler ι) (ps : List Prio) : ListScheduler ι :=
  { a with share := fun j =>
      if ∃ p ∈ ps, j ∈ a.claims (.rcl p) ∨ j ∈ a.claims (.ucl p) then
        { a.share j with claim := (a.share j).quota }
      else a.share j }

omit [DecidableEq ι] h in
theorem length_claims_le (k : ClaimList) : (a.claims k).length ≤ a.inserted.card := by
  classical
  rw [← List.toFinset_card_of_nodup (hinv.nodup k)]
  refine Finset.card_le_card fun j hj => ?_
  exact (hinv.claims.mp (List.mem_toFinset.mp hj)).1

omit hinv in
theorem Refines.resetClaims (hlen : ∀ k, (a.claims k).length ≤ a.inserted.card) (p : Prio) :
    Simulates (resetClaims c p) (resetShares a [p]) := by
  obtain ⟨L, l, hL, hl, rfl⟩ := h
  have htoList : ∀ k, c.claims.toList c.inserted.card k = some (L k) := fun k =>
    hL.toList_eq (hlen k)
  have he : CpuScheduler.resetClaims c p = .ok ((L (.ucl p)).foldl SchedulerOf.reset
      ((L (.rcl p)).foldl SchedulerOf.reset c)) := by
    simp only [CpuScheduler.resetClaims, htoList, Exec.ended_some, Exec.ok_bind]
    rw [show ((L (.rcl p)).foldl SchedulerOf.reset c).claims = c.claims by rw [foldl_reset],
      show ((L (.rcl p)).foldl SchedulerOf.reset c).inserted = c.inserted by rw [foldl_reset],
      htoList]
    rfl
  refine ⟨_, he, L, l, ?_, ?_, ?_⟩
  · simpa [foldl_reset] using hL
  · simpa [foldl_reset] using hl
  · simp only [foldl_reset, resetShares, view, SchedulerOf.mk.injEq, true_and, and_true]
    funext j
    by_cases h1 : j ∈ L (.rcl p) <;> by_cases h2 : j ∈ L (.ucl p) <;> simp [h1, h2]

omit hinv in
theorem Refines.foldl_resetClaims (hlen : ∀ k, (a.claims k).length ≤ a.inserted.card)
    (ps : List Prio) : Simulates (ps.foldlM CpuScheduler.resetClaims c) (resetShares a ps) := by
  induction ps generalizing c a with
  | nil => exact .of_eq rfl h (by simp [resetShares])
  | cons p ps ih =>
    obtain ⟨c₁, hc₁, h₁⟩ := h.resetClaims hlen p
    obtain ⟨c₂, hc₂, h₂⟩ := ih h₁ hlen
    refine .of_eq (by rw [List.foldlM_cons, hc₁, Exec.ok_bind, hc₂]) h₂ ?_
    simp only [resetShares, SchedulerOf.mk.injEq, true_and, and_true]
    funext j
    by_cases h1 : j ∈ a.claims (.rcl p) ∨ j ∈ a.claims (.ucl p)
    · simp [h1]
    · simp [h1]

theorem Refines.consumed (q : Nat) : Simulates (consumed c q) (a.consumed q) := by
  obtain ⟨L, l, hL, hl, rfl⟩ := id h
  by_cases hr : c.residual > q
  · refine ⟨{ c with residual := c.residual - q }, if_pos hr, L, l, hL, hl, ?_⟩
    rw [show ListScheduler.consumed _ q = _ from if_pos (show (view c L l).residual > q from hr)]
    rfl
  · have h1 : Refines { c with residual := c.quota } { view c L l with residual := c.quota } :=
      ⟨L, l, hL, hl, rfl⟩
    obtain ⟨c₁, hc₁, h₁⟩ := h1.foldl_resetClaims (fun k => length_claims_le hinv k) prios
    refine .of_eq ((if_neg hr).trans hc₁) h₁ ?_
    rw [show ListScheduler.consumed _ q = _ from if_neg (show ¬ (view c L l).residual > q from hr)]
    rfl

theorem Refines.headClaimed (hi : i ∈ a.inserted) (r : Nat) :
    Simulates (headClaimed c i r) (a.headClaimed i r) := by
  obtain ⟨L, l, hL, hl, rfl⟩ := id h
  by_cases hq : (c.share i).quota = 0
  · have hnd : ¬ (view c L l).Depleted i r := fun hd => hd.1 hq
    have hleft : (view c L l).claimLeft i r = (c.share i).claim := if_pos hq
    refine .of_eq (if_pos hq) h ?_
    rw [ListScheduler.headClaimed, hleft, if_neg hnd, if_neg fun hd => hnd hd.1]
    show { view c L l with share := Function.update c.share i (c.share i) } = view c L l
    rw [Function.update_eq_self]
    rfl
  · have hmin : ∀ q : Nat, (if r > q then q else r) = min r q := by
      intro q
      split <;> omega
    have hleft : (view c L l).claimLeft i r = min r (c.share i).quota := if_neg hq
    have h1 := h.setShare i fun s => { s with claim := min r s.quota }
    rw [CpuScheduler.headClaimed, if_neg hq]
    simp only [hmin, SchedulerOf.setShare_share_self]
    by_cases hd : min r (c.share i).quota ≠ 0 ∨ (c.share i).ready = false
    · have hnd : ¬ (view c L l).Depleted i r := by
        rintro ⟨-, h0, hr⟩
        rw [hleft] at h0
        rcases hd with hd | hd
        · exact hd h0
        · exact absurd (hd.symm.trans hr) (by simp)
      rw [if_pos hd]
      refine .of_eq rfl h1 ?_
      rw [ListScheduler.headClaimed, hleft, if_neg hnd, if_neg fun hd => hnd hd.1]
      rfl
    · rw [not_or, not_not, Bool.not_eq_false] at hd
      have hdep : (view c L l).Depleted i r := ⟨hq, hleft.trans hd.1, hd.2⟩
      obtain ⟨claims, hclaims, h2⟩ := h1.toTailClaim (k := .rcl (c.share i).prio)
        (hinv.claims.mpr ⟨hi, hq, if_pos hd.2⟩)
      rw [if_neg (by simp [hd]), hclaims, Exec.ok_bind]
      by_cases hy : c.headYields = false
      · obtain ⟨fills, hfills, h3⟩ := h2.toHeadFill (hinv.fills.mpr ⟨hi, hd.2⟩)
        rw [if_pos (by show (!c.headYields) = true; simp [hy]), hfills]
        refine .of_eq rfl h3 ?_
        rw [ListScheduler.headClaimed, hleft, if_pos hdep, if_pos ⟨hdep, hy⟩]
        rfl
      · rw [if_neg (by show ¬ (!c.headYields) = true; simpa using hy)]
        refine .of_eq rfl h2 ?_
        rw [ListScheduler.headClaimed, hleft, if_pos hdep, if_neg fun h' => hy h'.2]
        rfl

theorem Refines.headFilled (r : Nat) : Simulates (headFilled c i r) (a.headFilled i r) := by
  obtain ⟨L, l, hL, hl, rfl⟩ := id h
  have hhd : c.fills.head () = (view c L l).fills.head? := hl.head_eq ()
  by_cases hh : (view c L l).fills.head? = some i
  · by_cases hr : r = 0
    · obtain ⟨fills, hfills, h1⟩ := (h.setShare i fun s => { s with fill := c.fill }).headToTailFill
      refine .of_eq (by simp [CpuScheduler.headFilled, hhd, hh, hr, nextFill, hfills]) h1 ?_
      rw [ListScheduler.headFilled, if_pos hh, if_neg (not_not.mpr hr), if_neg (not_not.mpr hr),
        show [i] = (view c L l).fills.head?.toList by rw [hh]; rfl]
      rfl
    · have h1 := h.setShare i fun s => { s with fill := r }
      refine .of_eq (by simp [CpuScheduler.headFilled, hhd, hh, hr]) h1 ?_
      rw [ListScheduler.headFilled, if_pos hh, if_pos hr, if_pos hr]
      rfl
  · refine .of_eq (by simp [CpuScheduler.headFilled, hhd, hh]) h ?_
    rw [ListScheduler.headFilled, if_neg hh]

theorem Refines.chargeHead (hi : a.head = some i) (r : Nat) :
    Simulates (chargeHead c i r) (a.chargeHead i r) := by
  have hc : c.headClaims = a.headClaims := by
    obtain ⟨L, l, -, -, rfl⟩ := h
    rfl
  unfold CpuScheduler.chargeHead ListScheduler.chargeHead
  rw [hc]
  split
  · rename_i hcl
    rcases hinv.head hi with hm | ⟨-, hc'⟩
    · exact h.headClaimed hinv hm r
    · simp [hcl] at hc'
  · exact h.headFilled hinv r

theorem Refines.settle (duration : Nat) : Simulates (settle c duration) (a.settle duration) := by
  obtain ⟨L, l, hL, hl, rfl⟩ := id h
  have hhead : (view c L l).head = c.head := rfl
  unfold CpuScheduler.settle ListScheduler.settle
  rw [hhead]
  cases hh : c.head with
  | none =>
    have h1 : Refines c.clearRemoved (view c L l).clearRemoved := ⟨L, l, hL, hl, rfl⟩
    by_cases hr : c.headWasRemoved = true
    · dsimp only
      rw [if_pos hr, if_pos (show (view c L l).headWasRemoved = true from hr)]
      exact h1.consumed hinv.clearRemoved _
    · dsimp only
      rw [if_neg hr, if_neg (show ¬ (view c L l).headWasRemoved = true from hr)]
      exact ⟨c, rfl, h⟩
  | some i =>
    have hhi : (view c L l).head = some i := hh
    obtain ⟨c₁, hc₁, h₁⟩ := h.chargeHead hinv hhi (c.trimConsumption duration).2
    have h₂ : Refines c₁.clearYield
        ((view c L l).chargeHead i (c.trimConsumption duration).2).clearYield := by
      obtain ⟨L', l', hL', hl', he⟩ := h₁
      rw [he]
      exact ⟨L', l', hL', hl', rfl⟩
    dsimp only
    rw [hc₁]
    exact h₂.consumed (hinv.chargeHead hhi _).clearYield _

omit h hinv [DecidableEq ι] in
/-- Two selections that agree on every priority agree. -/
theorem findSome_refines {f : Prio → Option (CpuScheduler ι)} {g : Prio → Option (ListScheduler ι)}
    (hfg : ∀ p, f p = none ∧ g p = none ∨ ∃ c a, f p = some c ∧ g p = some a ∧ Refines c a)
    (ps : List Prio) : ps.findSome? f = none ∧ ps.findSome? g = none ∨
      ∃ c a, ps.findSome? f = some c ∧ ps.findSome? g = some a ∧ Refines c a := by
  induction ps with
  | nil => exact .inl ⟨rfl, rfl⟩
  | cons p ps ih =>
    rcases hfg p with ⟨h1, h2⟩ | ⟨c, a, h1, h2, h3⟩
    · simpa [h1, h2] using ih
    · exact .inr ⟨c, a, by simp [h1], by simp [h2], h3⟩

omit hinv [DecidableEq ι] in
theorem Refines.selectHead : Refines (selectHead c) a.selectHead := by
  obtain ⟨L, l, hL, hl, rfl⟩ := id h
  have hset : ∀ i q b, Refines (c.setHead i q b) ((view c L l).setHead i q b) := fun i q b =>
    ⟨L, l, hL, hl, rfl⟩
  have hclaim : claimForHead c = none ∧ (view c L l).claimForHead = none ∨
      ∃ c' a', claimForHead c = some c' ∧ (view c L l).claimForHead = some a' ∧ Refines c' a' := by
    refine findSome_refines (fun p => ?_) prios
    rw [show c.claims.head (.rcl p) = ((view c L l).claims (.rcl p)).head? from hL.head_eq _]
    cases ((view c L l).claims (.rcl p)).head? with
    | none => exact .inl ⟨rfl, rfl⟩
    | some i =>
      dsimp only
      by_cases h0 : (c.share i).claim = 0
      · exact .inl ⟨if_pos h0, if_pos h0⟩
      · exact .inr ⟨_, _, if_neg h0, if_neg h0, hset _ _ _⟩
  unfold CpuScheduler.selectHead ListScheduler.selectHead
  rcases hclaim with ⟨h1, h2⟩ | ⟨c', a', h1, h2, h3⟩
  · rw [h1, h2, Option.none_or, Option.none_or, CpuScheduler.fillForHead,
      ListScheduler.fillForHead, show c.fills.head () = (view c L l).fills.head? from hl.head_eq ()]
    cases (view c L l).fills.head? with
    | none => exact hset _ _ _
    | some i => exact hset _ _ _
  · rw [h1, h2]
    exact h3

theorem Refines.update (time : UInt64) : Simulates (update c time) (a.update time) := by
  obtain ⟨L, l, hL, hl, rfl⟩ := id h
  have h1 : Refines (c.startUpdate time) ((view c L l).startUpdate time) := ⟨L, l, hL, hl, rfl⟩
  have hinv1 : ListScheduler.Inv ((view c L l).startUpdate time) :=
    hinv.of_perm (fun _ => .rfl) .rfl (fun _ => ⟨rfl, rfl, rfl⟩) rfl rfl hinv.head hinv.residual
  obtain ⟨c₂, hc₂, h₂⟩ := h1.settle hinv1 (c.duration time)
  exact .of_eq (by rw [CpuScheduler.update, hc₂]; rfl) h₂.selectHead rfl

end CpuScheduler

end Genode.Kernel
