import Genode.Kernel.CpuScheduler

/-!
# ListScheduler — the scheduler over plain lists

The operations of `CpuScheduler` as functions on lists, without pointers
and without failure, and the invariant that says which share is in which
list. `SchedulerRefinement` connects them to the pointers, so that
everything about the order and the contents of the lists can be proved
in the terms of this module.
-/

namespace Genode.Kernel

open Lib

/-- The scheduler with its lists. -/
abbrev ListScheduler (ι : Type) := SchedulerOf (ClaimList → List ι) (List ι) ι

namespace ListScheduler

open CpuScheduler (claimList)

variable {ι : Type} [DecidableEq ι] (s : ListScheduler ι)

/-- The share has a claim in one of the lists. -/
def Claimed (i : ι) : Prop := ∃ p ∈ prios, i ∈ s.claims (.rcl p) ∨ i ∈ s.claims (.ucl p)

instance (i : ι) : Decidable (s.Claimed i) :=
  inferInstanceAs (Decidable (∃ p ∈ prios, i ∈ s.claims (.rcl p) ∨ i ∈ s.claims (.ucl p)))

/-- All claims are refilled for the next round. -/
def nextRound : ListScheduler ι :=
  { s with
    residual := s.quota
    share := fun i =>
      if s.Claimed i then { s.share i with claim := (s.share i).quota } else s.share i }

def consumed (q : Nat) : ListScheduler ι :=
  if s.residual > q then { s with residual := s.residual - q } else nextRound s

/-- The claim of the head after it used all but `r` of its time. -/
def claimLeft (head : ι) (r : Nat) : Nat :=
  if (s.share head).quota = 0 then (s.share head).claim else min r (s.share head).quota

/-- The head is ready and has a claim that is used up. -/
def Depleted (head : ι) (r : Nat) : Prop :=
  (s.share head).quota ≠ 0 ∧ s.claimLeft head r = 0 ∧ (s.share head).ready = true

instance (head : ι) (r : Nat) : Decidable (s.Depleted head r) :=
  inferInstanceAs (Decidable (_ ∧ _ ∧ _))

def headClaimed (head : ι) (r : Nat) : ListScheduler ι :=
  { s with
    share := Function.update s.share head
      { s.share head with claim := s.claimLeft head r }
    claims :=
      if s.Depleted head r then
        Function.update s.claims (.rcl (s.share head).prio)
          ((s.claims (.rcl (s.share head).prio)).erase head ++ [head])
      else s.claims
    fills :=
      if s.Depleted head r ∧ s.headYields = false then head :: s.fills.erase head else s.fills }

def headFilled (head : ι) (r : Nat) : ListScheduler ι :=
  if s.fills.head? = some head then
    { s with
      share := Function.update s.share head
        { s.share head with fill := if r ≠ 0 then r else s.fill }
      fills := if r ≠ 0 then s.fills else s.fills.tail ++ [head] }
  else s

def claimForHead : Option (ListScheduler ι) :=
  prios.findSome? fun p =>
    match (s.claims (.rcl p)).head? with
    | none => none
    | some i => if (s.share i).claim = 0 then none else some (s.setHead i (s.share i).claim true)

def fillForHead : Option (ListScheduler ι) :=
  match s.fills.head? with
  | none => none
  | some i => some (s.setHead i (s.share i).fill false)

def chargeHead (head : ι) (r : Nat) : ListScheduler ι :=
  if s.headClaims then headClaimed s head r else headFilled s head r

def settle (duration : Nat) : ListScheduler ι :=
  match s.head with
  | some head =>
    let (duration, r) := s.trimConsumption duration
    consumed (chargeHead s head r).clearYield duration
  | none =>
    if s.headWasRemoved then consumed s.clearRemoved (s.trimConsumption duration).1 else s

def selectHead : ListScheduler ι :=
  ((claimForHead s).or (fillForHead s)).getD (s.setHead s.idle s.fill false)

def update (time : UInt64) : ListScheduler ι :=
  selectHead (settle (s.startUpdate time) (s.duration time))

/-- The claim lists after share `i` moved from the unready to the ready
claims: in front if it has time left, else behind all others. -/
def readyClaims (i : ι) : ClaimList → List ι :=
  let c := s.share i
  if c.quota = 0 then s.claims
  else
    let L := Function.update s.claims (.ucl c.prio) ((s.claims (.ucl c.prio)).erase i)
    Function.update L (.rcl c.prio)
      (if c.claim ≠ 0 then i :: s.claims (.rcl c.prio) else s.claims (.rcl c.prio) ++ [i])

variable {s} in
theorem readyClaims_of_zero {i : ι} (hq : (s.share i).quota = 0) : s.readyClaims i = s.claims :=
  if_pos hq

variable {s} in
theorem readyClaims_of_ne {i : ι} (hq : (s.share i).quota ≠ 0) : s.readyClaims i =
    Function.update (Function.update s.claims (.ucl (s.share i).prio)
      ((s.claims (.ucl (s.share i).prio)).erase i)) (.rcl (s.share i).prio)
      (if (s.share i).claim ≠ 0 then i :: s.claims (.rcl (s.share i).prio)
        else s.claims (.rcl (s.share i).prio) ++ [i]) :=
  if_neg hq

def ready (i : ι) : ListScheduler ι :=
  let c := s.share i
  { s with
    share := Function.update s.share i { c with ready := true, fill := s.fill }
    claims := s.readyClaims i
    fills := s.fills ++ [i]
    needToSchedule := (s.needToSchedule ||
      (decide (c.quota ≠ 0) && decide (c.claim ≠ 0) && s.outdatesHead i)) ||
      decide (s.head = none ∨ s.head = some s.idle) }

/-- The claim lists after share `i` moved from the ready to the unready
claims. -/
def unreadyClaims (i : ι) : ClaimList → List ι :=
  let c := s.share i
  if c.quota = 0 then s.claims
  else
    let L := Function.update s.claims (.rcl c.prio) ((s.claims (.rcl c.prio)).erase i)
    Function.update L (.ucl c.prio) (s.claims (.ucl c.prio) ++ [i])

variable {s} in
theorem unreadyClaims_of_zero {i : ι} (hq : (s.share i).quota = 0) :
    s.unreadyClaims i = s.claims :=
  if_pos hq

variable {s} in
theorem unreadyClaims_of_ne {i : ι} (hq : (s.share i).quota ≠ 0) : s.unreadyClaims i =
    Function.update (Function.update s.claims (.rcl (s.share i).prio)
      ((s.claims (.rcl (s.share i).prio)).erase i)) (.ucl (s.share i).prio)
      (s.claims (.ucl (s.share i).prio) ++ [i]) :=
  if_neg hq

def unready (i : ι) : ListScheduler ι :=
  { s with
    share := Function.update s.share i { s.share i with ready := false }
    claims := s.unreadyClaims i
    fills := s.fills.erase i
    needToSchedule := s.needToSchedule || decide (s.head = some i) }

/-- The claim lists without the unready share `i`. -/
def removeClaims (i : ι) : ClaimList → List ι :=
  let c := s.share i
  if c.quota = 0 then s.claims
  else Function.update s.claims (.ucl c.prio) ((s.claims (.ucl c.prio)).erase i)

variable {s} in
theorem removeClaims_of_zero {i : ι} (hq : (s.share i).quota = 0) : s.removeClaims i = s.claims :=
  if_pos hq

variable {s} in
theorem removeClaims_of_ne {i : ι} (hq : (s.share i).quota ≠ 0) : s.removeClaims i =
    Function.update s.claims (.ucl (s.share i).prio) ((s.claims (.ucl (s.share i).prio)).erase i) :=
  if_neg hq

/-- `remove` of a share that is not ready. -/
def removeUnready (i : ι) : ListScheduler ι :=
  { s with
    head := if s.head = some i then none else s.head
    headWasRemoved := s.headWasRemoved || decide (s.head = some i)
    inserted := s.inserted.erase i
    claims := s.removeClaims i }

def remove (i : ι) : ListScheduler ι :=
  removeUnready (if (s.share i).ready then unready s i else s) i

def insert (i : ι) (c : CpuShare) : ListScheduler ι :=
  { s with
    share := Function.update s.share i (if c.quota = 0 then c else { c with claim := c.quota })
    inserted := Insert.insert i s.inserted
    claims :=
      if c.quota = 0 then s.claims
      else Function.update s.claims (.ucl c.prio) (i :: s.claims (.ucl c.prio)) }

/-- The claim lists after the quota of share `i` changed to `q`. -/
def quotaClaims (i : ι) (q : Nat) : ClaimList → List ι :=
  let k := claimList (s.share i)
  if (s.share i).quota ≠ 0 then
    if q ≠ 0 then s.claims else Function.update s.claims k ((s.claims k).erase i)
  else if q ≠ 0 then Function.update s.claims k (s.claims k ++ [i])
  else s.claims

def setQuota (i : ι) (q : Nat) : ListScheduler ι :=
  let c := s.share i
  { s with
    share := Function.update s.share i
      { c with quota := q, claim := if c.quota ≠ 0 ∧ q ≠ 0 ∧ c.claim > q then q else c.claim }
    claims := s.quotaClaims i q }

/-! ## Which share is in which list -/

variable {s} {s' : ListScheduler ι} {i j : ι}

structure Inv (s : ListScheduler ι) : Prop where
  claims : ∀ {k i}, i ∈ s.claims k ↔
    i ∈ s.inserted ∧ (s.share i).quota ≠ 0 ∧ claimList (s.share i) = k
  fills : ∀ {i}, i ∈ s.fills ↔ i ∈ s.inserted ∧ (s.share i).ready = true
  nodup : ∀ k, (s.claims k).Nodup
  fillsNodup : s.fills.Nodup
  idle : s.idle ∈ s.inserted → (s.share s.idle).quota = 0 ∧ (s.share s.idle).ready = false
  head : ∀ {i}, s.head = some i → i ∈ s.inserted ∨ i = s.idle ∧ s.headClaims = false
  residual : 0 < s.quota → 0 < s.residual ∧ s.residual ≤ s.quota

omit [DecidableEq ι] in
theorem Inv.idle_not_claimed (h : Inv s) (k : ClaimList) : s.idle ∉ s.claims k := fun hm =>
  (h.claims.mp hm).2.1 (h.idle (h.claims.mp hm).1).1

omit [DecidableEq ι] in
theorem Inv.idle_not_filled (h : Inv s) : s.idle ∉ s.fills := fun hm => by
  have := (h.idle (h.fills.mp hm).1).2
  simp [(h.fills.mp hm).2] at this

/-- A claim that is taken out of its list is in no list. -/
theorem Inv.not_mem_erase (h : Inv s) {k : ClaimList} (hk : claimList (s.share i) = k)
    (k' : ClaimList) : i ∉ Function.update s.claims k ((s.claims k).erase i) k' := by
  by_cases hkk : k' = k
  · subst hkk
    rw [Function.update_self]
    exact (h.nodup k').not_mem_erase
  · rw [Function.update_of_ne hkk]
    exact fun hm => hkk ((h.claims.mp hm).2.2.symm.trans hk)

omit [DecidableEq ι] in
theorem Inv.not_mem_of_zero (h : Inv s) (hq : (s.share i).quota = 0) (k : ClaimList) :
    i ∉ s.claims k := fun hm => (h.claims.mp hm).2.1 hq

omit [DecidableEq ι] in
theorem Inv.not_mem_of_not_inserted (h : Inv s) (hi : i ∉ s.inserted) (k : ClaimList) :
    i ∉ s.claims k := fun hm => hi (h.claims.mp hm).1

omit [DecidableEq ι] in
/-- An operation that only reorders lists and changes the time accounts
of shares keeps the invariant. -/
theorem Inv.of_perm (h : Inv s) (hc : ∀ k, (s'.claims k).Perm (s.claims k))
    (hf : s'.fills.Perm s.fills)
    (hs : ∀ i, (s'.share i).quota = (s.share i).quota ∧ (s'.share i).ready = (s.share i).ready ∧
      (s'.share i).prio = (s.share i).prio)
    (hins : s'.inserted = s.inserted) (hidle : s'.idle = s.idle)
    (hhead : ∀ {i}, s'.head = some i → i ∈ s.inserted ∨ i = s.idle ∧ s'.headClaims = false)
    (hres : 0 < s'.quota → 0 < s'.residual ∧ s'.residual ≤ s'.quota) : Inv s' where
  claims := by
    intro k i
    rw [(hc k).mem_iff, h.claims, hins, (hs i).1]
    simp only [claimList, (hs i).2]
  fills := by
    intro i
    rw [hf.mem_iff, h.fills, hins, (hs i).2.1]
  nodup := fun k => (hc k).nodup_iff.mpr (h.nodup k)
  fillsNodup := hf.nodup_iff.mpr h.fillsNodup
  idle := by
    rw [hins, hidle, (hs _).1, (hs _).2.1]
    exact h.idle
  head := by
    intro i hi
    rw [hins, hidle]
    exact hhead hi
  residual := hres

omit [DecidableEq ι] in
/-- An operation on one share keeps the invariant if it does so for that
share and leaves all others where they are. -/
theorem Inv.of_change (h : Inv s) (i : ι) (hs : ∀ j, j ≠ i → s'.share j = s.share j)
    (hins : ∀ j, j ≠ i → (j ∈ s'.inserted ↔ j ∈ s.inserted))
    (hc : ∀ j, j ≠ i → ∀ k, j ∈ s'.claims k ↔ j ∈ s.claims k)
    (hf : ∀ j, j ≠ i → (j ∈ s'.fills ↔ j ∈ s.fills))
    (hci : ∀ k, i ∈ s'.claims k ↔
      i ∈ s'.inserted ∧ (s'.share i).quota ≠ 0 ∧ claimList (s'.share i) = k)
    (hfi : i ∈ s'.fills ↔ i ∈ s'.inserted ∧ (s'.share i).ready = true)
    (hnd : ∀ k, (s'.claims k).Nodup) (hfnd : s'.fills.Nodup) (hidle : s'.idle = s.idle)
    (hidle' : i = s.idle → i ∈ s'.inserted → (s'.share i).quota = 0 ∧ (s'.share i).ready = false)
    (hhead : ∀ {j}, s'.head = some j → j ∈ s'.inserted ∨ j = s.idle ∧ s'.headClaims = false)
    (hq : s'.quota = s.quota) (hres : s'.residual = s.residual) : Inv s' where
  claims := by
    intro k j
    by_cases hj : j = i
    · subst hj; exact hci k
    · rw [hc j hj, h.claims, hins j hj, hs j hj]
  fills := by
    intro j
    by_cases hj : j = i
    · subst hj; exact hfi
    · rw [hf j hj, h.fills, hins j hj, hs j hj]
  nodup := hnd
  fillsNodup := hfnd
  idle := by
    rw [hidle]
    by_cases hi : i = s.idle
    · rw [← hi]; exact hidle' hi
    · rw [hins _ (Ne.symm hi), hs _ (Ne.symm hi)]
      exact h.idle
  head := by
    intro j hj
    rw [hidle]
    exact hhead hj
  residual := by
    rw [hq, hres]
    exact h.residual

/-! ## The operations keep the invariant -/

section Membership

variable {L : ClaimList → List ι} {k k' : ClaimList} {xs : List ι}

omit [DecidableEq ι] in
theorem mem_update_of_iff (h : j ∈ xs ↔ j ∈ L k) : j ∈ Function.update L k xs k' ↔ j ∈ L k' := by
  by_cases hk : k' = k
  · subst hk; rw [Function.update_self, h]
  · rw [Function.update_of_ne hk]

omit [DecidableEq ι] in
theorem mem_update_iff (h : ∀ k, i ∉ L k) (hi : i ∈ xs) :
    i ∈ Function.update L k xs k' ↔ k = k' := by
  by_cases hk : k' = k
  · subst hk; simpa using hi
  · rw [Function.update_of_ne hk]
    simp [h k', Ne.symm hk]

omit [DecidableEq ι] in
theorem nodup_update (h : ∀ k, (L k).Nodup) (hx : xs.Nodup) (k' : ClaimList) :
    (Function.update L k xs k').Nodup := by
  by_cases hk : k' = k
  · subst hk; simpa using hx
  · rw [Function.update_of_ne hk]; exact h k'

omit [DecidableEq ι] in
theorem nodup_concat (h : xs.Nodup) (hi : i ∉ xs) : (xs ++ [i]).Nodup := by
  simp [List.nodup_append, h]
  exact fun j hj he => hi (he ▸ hj)

end Membership

theorem Inv.ready (h : Inv s) (hi : i ∈ s.inserted) (hr : (s.share i).ready = false)
    (hid : i ≠ s.idle) : Inv (ready s i) := by
  have hnf : i ∉ s.fills := fun hm => by simpa [hr] using (h.fills.mp hm).2
  have hno := h.not_mem_erase (i := i) (k := .ucl (s.share i).prio) (by simp [claimList, hr])
  have hnr : i ∉ s.claims (.rcl (s.share i).prio) := fun hm => by
    simpa [claimList, hr] using (h.claims.mp hm).2.2
  refine h.of_change i ?_ (fun _ _ => .rfl) ?_ ?_ ?_ ?_ ?_ (nodup_concat h.fillsNodup hnf) rfl
    (fun he => absurd he hid) h.head rfl rfl
  · intro j hj; simp [ListScheduler.ready, hj]
  · intro j hj k
    simp only [ListScheduler.ready, readyClaims]
    split
    · rfl
    · rw [mem_update_of_iff, mem_update_of_iff (List.mem_erase_of_ne hj)]
      split <;> simp [hj]
  · intro j hj; simp [ListScheduler.ready, hj]
  · intro k
    simp only [ListScheduler.ready, readyClaims, Function.update_self, claimList, if_true]
    split
    · rename_i hq; simp [hq, h.not_mem_of_zero hq k]
    · rename_i hq
      rw [mem_update_iff hno (by split <;> simp)]
      simp [hi, hq]
  · simp [ListScheduler.ready, hi]
  · intro k
    simp only [ListScheduler.ready, readyClaims]
    split
    · exact h.nodup k
    · refine nodup_update (nodup_update h.nodup ((h.nodup _).erase i)) ?_ k
      split
      · exact List.nodup_cons.mpr ⟨hnr, h.nodup _⟩
      · exact nodup_concat (h.nodup _) hnr

theorem Inv.unready (h : Inv s) (hi : i ∈ s.inserted) (hr : (s.share i).ready = true)
    (hid : i ≠ s.idle) : Inv (unready s i) := by
  have hno := h.not_mem_erase (i := i) (k := .rcl (s.share i).prio) (by simp [claimList, hr])
  have hnu : i ∉ s.claims (.ucl (s.share i).prio) := fun hm => by
    simpa [claimList, hr] using (h.claims.mp hm).2.2
  refine h.of_change i ?_ (fun _ _ => .rfl) ?_ (fun j hj => List.mem_erase_of_ne hj) ?_ ?_ ?_
    (h.fillsNodup.erase i) rfl (fun he => absurd he hid) h.head rfl rfl
  · intro j hj; simp [ListScheduler.unready, hj]
  · intro j hj k
    simp only [ListScheduler.unready, unreadyClaims]
    split
    · rfl
    · rw [mem_update_of_iff, mem_update_of_iff (List.mem_erase_of_ne hj)]
      simp [hj]
  · intro k
    simp only [ListScheduler.unready, unreadyClaims, Function.update_self, claimList]
    split
    · rename_i hq; simp [hq, h.not_mem_of_zero hq k]
    · rename_i hq
      rw [mem_update_iff hno (by simp)]
      simp [hi, hq]
  · simpa [ListScheduler.unready] using h.fillsNodup.not_mem_erase
  · intro k
    simp only [ListScheduler.unready, unreadyClaims]
    split
    · exact h.nodup k
    · exact nodup_update (nodup_update h.nodup ((h.nodup _).erase i)) (nodup_concat (h.nodup _) hnu) k

theorem Inv.removeUnready (h : Inv s) (hr : (s.share i).ready = false) :
    Inv (removeUnready s i) := by
  have hno := h.not_mem_erase (i := i) (k := .ucl (s.share i).prio) (by simp [claimList, hr])
  refine h.of_change i (fun _ _ => rfl) ?_ ?_ (fun _ _ => .rfl) ?_ ?_ ?_ h.fillsNodup rfl
    ?_ ?_ rfl rfl
  · intro j hj; simp [ListScheduler.removeUnready, hj]
  · intro j hj k
    simp only [ListScheduler.removeUnready, removeClaims]
    split
    · rfl
    · rw [mem_update_of_iff (List.mem_erase_of_ne hj)]
  · intro k
    simp only [ListScheduler.removeUnready, removeClaims]
    split
    · rename_i hq; simp [h.not_mem_of_zero hq k]
    · simp [hno k]
  · simp [ListScheduler.removeUnready, h.fills, hr]
  · intro k
    simp only [ListScheduler.removeUnready, removeClaims]
    split
    · exact h.nodup k
    · exact nodup_update h.nodup ((h.nodup _).erase i) k
  · intro _ hm
    simp [ListScheduler.removeUnready] at hm
  · intro j hj
    simp only [ListScheduler.removeUnready] at hj ⊢
    split at hj
    · simp at hj
    · rename_i hne
      have hji : j ≠ i := fun he => hne (he ▸ hj)
      rcases h.head hj with hm | hm
      · exact .inl (Finset.mem_erase.mpr ⟨hji, hm⟩)
      · exact .inr hm

theorem Inv.remove (h : Inv s) (hi : i ∈ s.inserted) (hid : i ≠ s.idle) : Inv (remove s i) := by
  unfold ListScheduler.remove
  split
  · rename_i hr
    exact (h.unready hi hr hid).removeUnready (by simp [ListScheduler.unready])
  · rename_i hr
    exact h.removeUnready (by simpa using hr)

theorem Inv.insert (h : Inv s) (hi : i ∉ s.inserted) {c : CpuShare} (hr : c.ready = false)
    (hid : i = s.idle → c.quota = 0) : Inv (insert s i c) := by
  have hnot := h.not_mem_of_not_inserted hi
  refine h.of_change i ?_ ?_ ?_ (fun _ _ => .rfl) ?_ ?_ ?_ h.fillsNodup rfl ?_ ?_ rfl rfl
  · intro j hj; simp [ListScheduler.insert, hj]
  · intro j hj; simp [ListScheduler.insert, hj]
  · intro j hj k
    simp only [ListScheduler.insert]
    split
    · rfl
    · rw [mem_update_of_iff (by simp [hj])]
  · intro k
    simp only [ListScheduler.insert, Function.update_self]
    split
    · rename_i hq; simp [hq, hnot k]
    · rename_i hq
      rw [mem_update_iff hnot (by simp)]
      simp [hq, claimList, hr]
  · simp only [ListScheduler.insert, Function.update_self]
    have : i ∉ s.fills := fun hm => hi (h.fills.mp hm).1
    split <;> simp [this, hr]
  · intro k
    simp only [ListScheduler.insert]
    split
    · exact h.nodup k
    · exact nodup_update h.nodup (List.nodup_cons.mpr ⟨hnot _, h.nodup _⟩) k
  · intro he _
    simp [ListScheduler.insert, hid he, hr]
  · intro j hj
    rcases h.head hj with hm | hm
    · exact .inl (Finset.mem_insert_of_mem hm)
    · exact .inr hm

theorem Inv.setQuota (h : Inv s) (hi : i ∈ s.inserted) (hid : i ≠ s.idle) (q : Nat) :
    Inv (setQuota s i q) := by
  have hno := h.not_mem_erase (i := i) rfl
  refine h.of_change i ?_ (fun _ _ => .rfl) ?_ (fun _ _ => .rfl) ?_ ?_ ?_ h.fillsNodup rfl
    (fun he => absurd he hid) h.head rfl rfl
  · intro j hj; simp [ListScheduler.setQuota, hj]
  · intro j hj k
    simp only [ListScheduler.setQuota, quotaClaims]
    split_ifs
    · rfl
    · rw [mem_update_of_iff (List.mem_erase_of_ne hj)]
    · rw [mem_update_of_iff (by simp [hj])]
    · rfl
  · intro k
    have hk : ∀ b, claimList { s.share i with quota := q, claim := b } = claimList (s.share i) :=
      fun _ => rfl
    simp only [ListScheduler.setQuota, quotaClaims, Function.update_self, hk]
    split_ifs with h1 h2 h2
    · rw [h.claims]
      simp [h1, h2]
    · simp [hno k, not_not.mp h2]
    · rw [mem_update_iff (h.not_mem_of_zero (not_not.mp h1)) (by simp)]
      simp [hi, h2]
    · simp [h.not_mem_of_zero (not_not.mp h1) k, not_not.mp h2]
  · simp [ListScheduler.setQuota, h.fills]
  · intro k
    simp only [ListScheduler.setQuota, quotaClaims]
    split_ifs with h1 h2 h3
    · exact h.nodup k
    · exact nodup_update h.nodup ((h.nodup _).erase i) k
    · exact nodup_update h.nodup (nodup_concat (h.nodup _) (h.not_mem_of_zero (by simpa using h1) _)) k
    · exact h.nodup k

/-! ## Time -/

omit [DecidableEq ι] in
theorem Inv.claimed_iff (h : Inv s) : s.Claimed i ↔ i ∈ s.inserted ∧ (s.share i).quota ≠ 0 := by
  constructor
  · rintro ⟨p, -, hm | hm⟩
    · exact ⟨(h.claims.mp hm).1, (h.claims.mp hm).2.1⟩
    · exact ⟨(h.claims.mp hm).1, (h.claims.mp hm).2.1⟩
  · rintro ⟨hi, hq⟩
    refine ⟨(s.share i).prio, mem_prios _, ?_⟩
    cases hr : (s.share i).ready with
    | true => exact .inl (h.claims.mpr ⟨hi, hq, by simp [claimList, hr]⟩)
    | false => exact .inr (h.claims.mpr ⟨hi, hq, by simp [claimList, hr]⟩)

theorem Inv.consumed (h : Inv s) (q : Nat) : Inv (consumed s q) := by
  unfold ListScheduler.consumed
  split
  · rename_i hq
    exact h.of_perm (fun _ => .rfl) .rfl (fun _ => ⟨rfl, rfl, rfl⟩) rfl rfl h.head fun hpos => by
      have := (h.residual hpos).2
      constructor
      · show 0 < s.residual - q
        omega
      · show s.residual - q ≤ s.quota
        omega
  · refine h.of_perm (fun _ => .rfl) .rfl (fun i => ?_) rfl rfl h.head fun hpos => ⟨hpos, le_rfl⟩
    simp only [nextRound]
    split <;> exact ⟨rfl, rfl, rfl⟩

theorem Inv.headClaimed (h : Inv s) (hi : i ∈ s.inserted) (r : Nat) : Inv (headClaimed s i r) := by
  have hmem : s.Depleted i r → i ∈ s.claims (.rcl (s.share i).prio) ∧ i ∈ s.fills := fun hd =>
    ⟨h.claims.mpr ⟨hi, hd.1, by simp [claimList, hd.2.2]⟩, h.fills.mpr ⟨hi, hd.2.2⟩⟩
  refine h.of_perm (fun k => ?_) ?_ (fun j => ?_) rfl rfl h.head h.residual
  · simp only [ListScheduler.headClaimed]
    split
    · rename_i hd
      by_cases hk : k = .rcl (s.share i).prio
      · subst hk
        rw [Function.update_self]
        exact (List.perm_append_singleton _ _).trans (List.perm_cons_erase (hmem hd).1).symm
      · rw [Function.update_of_ne hk]
    · rfl
  · simp only [ListScheduler.headClaimed]
    split
    · rename_i hd
      exact (List.perm_cons_erase (hmem hd.1).2).symm
    · rfl
  · by_cases hj : j = i
    · subst hj; simp [ListScheduler.headClaimed]
    · simp [ListScheduler.headClaimed, hj]

theorem Inv.headFilled (h : Inv s) (r : Nat) : Inv (headFilled s i r) := by
  unfold ListScheduler.headFilled
  split
  · rename_i hhd
    refine h.of_perm (fun _ => .rfl) ?_ (fun j => ?_) rfl rfl h.head h.residual
    · dsimp only
      split
      · rfl
      · obtain ⟨xs, hxs⟩ := List.head?_eq_some_iff.mp hhd
        rw [hxs]
        exact List.perm_append_singleton _ _
    · by_cases hj : j = i
      · subst hj; simp
      · simp [hj]
  · exact h

theorem Inv.chargeHead (h : Inv s) (hi : s.head = some i) (r : Nat) : Inv (chargeHead s i r) := by
  unfold ListScheduler.chargeHead
  split
  · rename_i hc
    rcases h.head hi with hm | ⟨-, hc'⟩
    · exact h.headClaimed hm r
    · simp [hc] at hc'
  · exact h.headFilled r

omit [DecidableEq ι] in
theorem Inv.clearYield (h : Inv s) : Inv s.clearYield :=
  h.of_perm (fun _ => .rfl) .rfl (fun _ => ⟨rfl, rfl, rfl⟩) rfl rfl h.head h.residual

omit [DecidableEq ι] in
theorem Inv.clearRemoved (h : Inv s) : Inv s.clearRemoved :=
  h.of_perm (fun _ => .rfl) .rfl (fun _ => ⟨rfl, rfl, rfl⟩) rfl rfl h.head h.residual

theorem Inv.settle (h : Inv s) (duration : Nat) : Inv (settle s duration) := by
  unfold ListScheduler.settle
  cases hh : s.head with
  | none =>
    dsimp only
    split
    · exact h.clearRemoved.consumed _
    · exact h
  | some i => exact (h.chargeHead hh _).clearYield.consumed _

omit [DecidableEq ι] in
/-- `update` selects a claim, the first fill or the idle share. -/
theorem selectHead_cases (s : ListScheduler ι) :
    (∃ p i, (s.claims (.rcl p)).head? = some i ∧ (s.share i).claim ≠ 0 ∧
      selectHead s = s.setHead i (s.share i).claim true ∧
      ∀ p' i', p < p' → (s.claims (.rcl p')).head? = some i' → (s.share i').claim = 0) ∨
    (∀ p i, (s.claims (.rcl p)).head? = some i → (s.share i).claim = 0) ∧
      ((∃ i, s.fills.head? = some i ∧ selectHead s = s.setHead i (s.share i).fill false) ∨
        s.fills = [] ∧ selectHead s = s.setHead s.idle s.fill false) := by
  have hsorted : prios.Pairwise (· > ·) := by decide
  unfold ListScheduler.selectHead
  cases hc : claimForHead s with
  | some t =>
    obtain ⟨l₁, p, l₂, hl, hp, hbefore⟩ := List.findSome?_eq_some_iff.mp hc
    left
    cases hhd : (s.claims (.rcl p)).head? with
    | none => simp [hhd] at hp
    | some i =>
      by_cases h0 : (s.share i).claim = 0
      · simp [hhd, h0] at hp
      · refine ⟨p, i, hhd, h0, ?_, ?_⟩
        · simpa [hhd, h0] using hp.symm
        · intro p' i' hlt hi'
          -- all higher priorities were visited before
          have hmem : p' ∈ l₁ := by
            have hall := mem_prios p'
            rw [hl, List.mem_append, List.mem_cons] at hall
            rw [hl, List.pairwise_append, List.pairwise_cons] at hsorted
            rcases hall with h | rfl | h
            · exact h
            · exact absurd hlt (Nat.lt_irrefl _)
            · exact absurd (hsorted.2.1.1 p' h) (Nat.lt_asymm hlt)
          by_contra hne
          simpa [hi', hne] using hbefore p' hmem
  | none =>
    right
    have hnone := List.findSome?_eq_none_iff.mp hc
    refine ⟨?_, ?_⟩
    · intro p i hi
      by_contra hne
      simpa [hi, hne] using hnone p (mem_prios p)
    · cases hf : s.fills.head? with
      | none => exact .inr ⟨List.head?_eq_none_iff.mp hf, by simp [fillForHead, hf]⟩
      | some i => exact .inl ⟨i, rfl, by simp [fillForHead, hf]⟩

omit [DecidableEq ι] in
theorem Inv.selectHead (h : Inv s) : Inv (selectHead s) := by
  have hset : ∀ i q c, (i ∈ s.inserted ∨ i = s.idle ∧ c = false) → Inv (s.setHead i q c) := by
    intro i q c hi
    refine h.of_perm (fun _ => .rfl) .rfl (fun _ => ⟨rfl, rfl, rfl⟩) rfl rfl ?_ h.residual
    intro j hj
    obtain rfl : i = j := by simpa [SchedulerOf.setHead] using hj
    exact hi
  rcases selectHead_cases s with ⟨p, i, hi, -, he, -⟩ | ⟨-, ⟨i, hi, he⟩ | ⟨-, he⟩⟩
  · rw [he]
    exact hset _ _ _ (.inl (h.claims.mp (List.mem_of_mem_head? hi)).1)
  · rw [he]
    exact hset _ _ _ (.inl (h.fills.mp (List.mem_of_mem_head? hi)).1)
  · rw [he]
    exact hset _ _ _ (.inr ⟨rfl, rfl⟩)

theorem Inv.update (h : Inv s) (time : UInt64) : Inv (update s time) := by
  refine Inv.selectHead (Inv.settle ?_ _)
  exact h.of_perm (fun _ => .rfl) .rfl (fun _ => ⟨rfl, rfl, rfl⟩) rfl rfl h.head h.residual

end ListScheduler

end Genode.Kernel
