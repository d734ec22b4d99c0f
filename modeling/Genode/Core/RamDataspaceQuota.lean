import Genode.Core.RamDataspace

/-!
# RamDataspaceQuota — what is left of the quotas after a failed allocation

Each check in front of the factory cancels the reservations that were made
before it. The factory's own failures cancel none.
-/

namespace Genode.Core

open Genode.Base (alignAddr AllocError)

namespace RamSession

variable {env : Supply} {s s' s'' : RamSession} {q : Quota} {amount dsSize : Nat}

/-! ## An entry that is given back -/

theorem backedBlocks_dropCurr {slab : DsSlab} {next : SlabBlock} {rest : List SlabBlock}
    (hrest : slab.rest = next :: rest) : slab.backedBlocks =
      (slab.dropCurr next rest).backedBlocks + if slab.curr.backed then 1 else 0 := by
  simp [DsSlab.backedBlocks, DsSlab.blocks, DsSlab.dropCurr, hrest, List.countP_cons]

/-- What a block took is given back with it. -/
theorem freeCurrSb_spec (h : s.Valid) {next : SlabBlock} {rest : List SlabBlock}
    (hrest : s.slab.rest = next :: rest) :
    SameUse s (s.freeCurrSb next rest) ∧ (s.freeCurrSb next rest).Valid := by
  have hram := h.ram
  have hcap := h.cap
  have hcount := backedBlocks_dropCurr hrest
  unfold freeCurrSb
  by_cases hbacked : s.slab.curr.backed = true
  · rw [if_pos hbacked] at hcount
    rw [if_pos hbacked]
    rw [hcount, Nat.mul_succ] at hram
    rw [hcount] at hcap
    have hvalid : ∀ q', (((s.replenish .ram slabBlockSize).replenish .cap 1).guard q').Valid :=
      replenish_guard_valid (replenish_guard_valid h.guard)
    unfold coreFree
    rw [alignAddr_slabBlockSize]
    refine ⟨⟨?_, ?_⟩, ⟨hvalid, ?_, ?_⟩⟩
    · rw [hcount, Nat.mul_succ]
      simp
      omega
    · rw [hcount]
      simp
      omega
    · simp
      omega
    · simp
      omega
  · rw [if_neg hbacked, Nat.add_zero] at hcount
    rw [if_neg hbacked]
    exact ⟨.of_slab hcount.symm, h.of_slab hcount.symm⟩

theorem releaseEmpty_spec (blocks : List SlabBlock) (h : s.Valid) (hrest : s.slab.rest = blocks) :
    SameUse s (releaseEmpty blocks s) ∧ (releaseEmpty blocks s).Valid := by
  induction blocks generalizing s with
  | nil => exact ⟨.refl s, h⟩
  | cons next rest ih =>
    rw [releaseEmpty]
    split
    · obtain ⟨hsame, hvalid⟩ := freeCurrSb_spec h hrest
      obtain ⟨hsame', hvalid'⟩ := ih hvalid rfl
      exact ⟨hsame.trans hsame', hvalid'⟩
    · exact ⟨.refl s, h⟩

theorem slabFree_spec (h : s.Valid) : SameUse s s.slabFree ∧ s.slabFree.Valid := by
  have hcount : s.slab.freeEntry.backedBlocks = s.slab.backedBlocks := by
    simp [DsSlab.backedBlocks, DsSlab.blocks, DsSlab.freeEntry, List.countP_cons]
  obtain ⟨hsame, hvalid⟩ := releaseEmpty_spec s.slab.rest (h.of_slab hcount) rfl
  exact ⟨(SameUse.of_slab hcount).trans hsame, hvalid⟩

/-! ## The factory -/

/-- One loop over the alignments, after a failure. -/
theorem isOk_attempts (dsSize : Nat) (range : Nat × Nat) (as : List Nat) (e : AllocError) :
    (attempts env dsSize range as (.error e)).isOk = true ↔
      ∃ align ∈ as, (env.allocAligned dsSize align range).isOk = true := by
  induction as generalizing e with
  | nil => simp [attempts, Except.isOk, Except.toBool]
  | cons align as ih =>
    rw [attempts]
    cases hr : env.allocAligned dsSize align range with
    | ok ptr => simp [hr, Except.isOk, Except.toBool]
    | error e' =>
      rw [ih]
      simp [hr, Except.isOk, Except.toBool]

theorem isOk_orAttempts (dsSize : Nat) (r : Except AllocError Nat) (range : Nat × Nat) :
    (orAttempts env dsSize r range).isOk = true ↔ r.isOk = true ∨
      ∃ align ∈ aligns dsSize, (env.allocAligned dsSize align range).isOk = true := by
  cases r with
  | ok ptr => simp [orAttempts, Except.isOk, Except.toBool]
  | error e =>
    rw [orAttempts, isOk_attempts]
    simp [Except.isOk, Except.toBool]

/-- Physical memory is found in one of the two ranges, or nowhere. -/
theorem isOk_allocPhys (s : RamSession) (dsSize : Nat) :
    (s.allocPhys env dsSize).isOk = true ↔
      ∃ align ∈ aligns dsSize, ∃ range ∈ [s.physRange, highRange],
        (env.allocAligned dsSize align range).isOk = true := by
  unfold allocPhys
  dsimp only
  rw [isOk_orAttempts, isOk_orAttempts]
  simp only [List.mem_cons, List.not_mem_nil, or_false]
  constructor
  · intro h
    obtain (h | ⟨a, ha, h⟩) | ⟨a, ha, h⟩ := h
    · split at h
      · obtain h | ⟨a, ha, h⟩ := (isOk_orAttempts _ _ _).mp h
        · simp [Except.isOk, Except.toBool] at h
        · exact ⟨a, ha, _, .inl rfl, h⟩
      · simp [Except.isOk, Except.toBool] at h
    · exact ⟨a, ha, _, .inr rfl, h⟩
    · exact ⟨a, ha, _, .inl rfl, h⟩
  · intro h
    obtain ⟨a, ha, range, rfl | rfl, h⟩ := h
    · exact .inr ⟨a, ha, h⟩
    · exact .inl (.inr ⟨a, ha, h⟩)

theorem alignAddr_idem (n : Nat) : alignAddr (alignAddr n 12) 12 = alignAddr n 12 := by
  unfold alignAddr Genode.Base.add64
  dsimp only
  omega

/-- The factory keeps nothing of the quotas but the slab's blocks, and succeeds unless
something is missing. -/
theorem factoryTryAlloc_spec (env : Supply) (h : s.Valid) (dsSize : Nat) :
    SameUse s (s.factoryTryAlloc env dsSize).2 ∧ (s.factoryTryAlloc env dsSize).2.Valid ∧
    ((s.factoryTryAlloc env dsSize).1.isOk = true ↔ dsSize ≠ 0 ∧
      (s.allocPhys env (alignAddr dsSize 12)).isOk = true ∧ EntryAvail env s ∧
      env.exportRamDs = true) := by
  unfold factoryTryAlloc
  by_cases hzero : dsSize = 0
  · rw [if_pos hzero]
    exact ⟨.refl s, h, by simp [hzero, Except.isOk, Except.toBool]⟩
  rw [if_neg hzero]
  cases hphys : s.allocPhys env (alignAddr dsSize 12) with
  | error e =>
    rw [andThen_error]
    exact ⟨.refl s, h, by simp [Except.isOk, Except.toBool]⟩
  | ok ptr =>
    rw [andThen_ok]
    by_cases havail : EntryAvail env s
    · obtain ⟨s', hslab, hsame, hvalid⟩ := slabTryAlloc_of_avail h havail
      rw [hslab, andThen_ok]
      cases hexport : env.exportRamDs with
      | true => exact ⟨hsame, hvalid, by simp [hzero, havail, Except.isOk, Except.toBool]⟩
      | false =>
        obtain ⟨hsame', hvalid'⟩ := slabFree_spec hvalid
        exact ⟨hsame.trans hsame', hvalid', by simp [Except.isOk, Except.toBool]⟩
    · obtain ⟨e, hslab⟩ := slabTryAlloc_of_not_avail h havail
      rw [hslab, andThen_error]
      exact ⟨.refl s, h, by simp [havail, Except.isOk, Except.toBool]⟩

/-! ## The session -/

section

variable {α : Type} {f : RamSession → (α × Bool) × RamSession} {e a : α} {c : Bool}

theorem withReservation_none (h : s.tryWithdraw q amount = none) :
    s.withReservation q amount f e = (e, s) := by
  unfold withReservation
  rw [h, Option.elim_none]

theorem withReservation_some (h : s.tryWithdraw q amount = some s') (hf : f s' = ((a, c), s'')) :
    s.withReservation q amount f e = (a, if c then s''.replenish q amount else s'') := by
  unfold withReservation
  rw [h, Option.elim_some, hf]

end

/-- The session's state when the factory is called. -/
def reserved (s : RamSession) (dsSize : Nat) : RamSession := (s.use .ram dsSize).use .cap 1

theorem reserved_valid (h : s.Valid) (havail : s.HasAvail dsSize) : (s.reserved dsSize).Valid := by
  have hram : dsSize ≤ (s.guard .ram).limit - (s.guard .ram).used :=
    Nat.le_trans (Nat.le_add_right _ _) havail.1
  apply (h.use hram).use
  rw [use_ram_capAvail]
  exact havail.2

theorem overhead_iff (h : s.Valid) (hle : dsSize ≤ (s.guard .ram).limit - (s.guard .ram).used) :
    ((s.use .ram dsSize).guard .ram).avail < slabBlockSize ↔
      (s.guard .ram).limit - (s.guard .ram).used < dsSize + slabBlockSize := by
  rw [(use_guard_valid h.guard hle .ram).avail_eq, use_limit, use_used, if_pos rfl]
  omega

/-- In front of the factory, each check that fails cancels what was reserved. -/
theorem allocPages_of_not_avail (env : Supply) (h : s.Valid) (havail : ¬ s.HasAvail dsSize) :
    ∃ e, s.allocPages env dsSize = (.error e, s) := by
  unfold allocPages
  cases hram : s.tryWithdraw .ram dsSize with
  | none => exact ⟨_, withReservation_none hram⟩
  | some s₁ =>
    obtain ⟨hle, rfl⟩ := (tryWithdraw_eq_some h.guard).mp hram
    have hcancel : ∃ e, (s.use .ram dsSize).allocWithRam env dsSize =
        ((.error e, true), s.use .ram dsSize) := by
      unfold allocWithRam
      split
      · exact ⟨_, rfl⟩
      · rename_i hover
        cases hcap : (s.use .ram dsSize).tryWithdraw .cap 1 with
        | none => exact ⟨_, withReservation_none hcap⟩
        | some s₂ =>
          obtain ⟨hcaple, -⟩ := (tryWithdraw_eq_some (use_guard_valid h.guard hle)).mp hcap
          rw [use_ram_capAvail] at hcaple
          rw [overhead_iff h hle] at hover
          exact absurd ⟨Nat.not_lt.mp hover, hcaple⟩ havail
    obtain ⟨e, he⟩ := hcancel
    have hback := withReservation_some (f := fun s => s.allocWithRam env dsSize)
      (e := .error .outOfRam) hram he
    rw [if_pos rfl, replenish_use] at hback
    exact ⟨e, hback⟩

/-- The factory's answer is returned, and nothing is given back. -/
theorem allocPages_of_avail (h : s.Valid) (havail : s.HasAvail dsSize) :
    s.allocPages env dsSize = (s.reserved dsSize).factoryTryAlloc env dsSize := by
  obtain ⟨hram, hcap⟩ := havail
  have hle : dsSize ≤ (s.guard .ram).limit - (s.guard .ram).used :=
    Nat.le_trans (Nat.le_add_right _ _) hram
  have hvalid := use_guard_valid h.guard hle
  have hcap' : (s.use .ram dsSize).tryWithdraw .cap 1 = some (s.reserved dsSize) := by
    rw [tryWithdraw_eq_some hvalid, use_ram_capAvail]
    exact ⟨hcap, rfl⟩
  have hover : ¬ ((s.use .ram dsSize).guard .ram).avail < slabBlockSize := by
    rw [overhead_iff h hle]
    exact Nat.not_lt.mpr hram
  have hfactory : (s.use .ram dsSize).allocWithRam env dsSize =
      ((((s.reserved dsSize).factoryTryAlloc env dsSize).1, false),
        ((s.reserved dsSize).factoryTryAlloc env dsSize).2) := by
    have hcall := withReservation_some
      (f := fun s => ((((s.factoryTryAlloc env dsSize).1, false), false),
        (s.factoryTryAlloc env dsSize).2))
      (e := (.error .outOfCaps, true)) hcap' rfl
    rw [if_neg Bool.false_ne_true] at hcall
    unfold allocWithRam
    rw [if_neg hover]
    exact hcall
  have hcall := withReservation_some (f := fun s => s.allocWithRam env dsSize)
    (e := .error .outOfRam) ((tryWithdraw_eq_some h.guard).mpr ⟨hle, rfl⟩) hfactory
  rw [if_neg Bool.false_ne_true, Prod.mk.eta] at hcall
  exact hcall

/-- A second capability for a block, or entries that are left. -/
theorem entryAvail_reserved (havail : s.HasAvail dsSize) :
    EntryAvail env (s.reserved dsSize) ↔ 3 < s.slab.totalAvail ∨
      2 ≤ (s.guard .cap).limit - (s.guard .cap).used ∧ env.coreTryAlloc.isOk = true := by
  obtain ⟨hram, -⟩ := havail
  have hblock : BlockAvail env (s.reserved dsSize) slabBlockSize ↔
      2 ≤ (s.guard .cap).limit - (s.guard .cap).used ∧ env.coreTryAlloc.isOk = true := by
    unfold BlockAvail reserved
    simp only [use_limit, use_used, if_true, if_false, reduceCtorEq]
    constructor
    · intro hb
      exact ⟨by omega, hb.2.2⟩
    · intro hb
      exact ⟨by omega, by omega, hb.2⟩
  exact or_congr Iff.rfl hblock

theorem not_sameUse_reserved (h : SameUse (s.reserved dsSize) s') : ¬ SameUse s s' := by
  intro hsame
  have hcap := h.cap
  have hcap' := hsame.cap
  unfold reserved at hcap
  simp only [use_slab, use_used, if_true] at hcap
  rw [if_neg (by decide)] at hcap
  omega

theorem tryAlloc_valid (h : s.Valid) (env : Supply) (dsSize : Nat) :
    (s.tryAlloc env dsSize).2.Valid := by
  unfold tryAlloc
  split
  · exact h
  · by_cases havail : s.HasAvail (alignAddr dsSize 12)
    · rw [allocPages_of_avail h havail]
      exact (factoryTryAlloc_spec env (reserved_valid h havail) _).2.1
    · obtain ⟨e, he⟩ := allocPages_of_not_avail env h havail
      rw [he]
      exact h

/-- The session's invariant is kept. The quotas are as before a call that fails, exactly if
the call does not get to the factory or nothing is missing there. -/
theorem sameUse_of_error_iff (h : s.Valid) :
    (s.tryAlloc env dsSize).2.Valid ∧
      (((s.tryAlloc env dsSize).1.isOk = false → SameUse s (s.tryAlloc env dsSize).2) ↔
        (s.Reaches dsSize → s.Supplied env dsSize)) := by
  refine ⟨tryAlloc_valid h env dsSize, ?_⟩
  unfold tryAlloc Reaches Supplied
  by_cases hzero : dsSize = 0
  · rw [if_pos hzero]
    exact ⟨fun _ hr => absurd hzero hr.1, fun _ _ => .refl s⟩
  rw [if_neg hzero]
  by_cases havail : s.HasAvail (alignAddr dsSize 12)
  · obtain ⟨hsame, -, hok⟩ := factoryTryAlloc_spec env (reserved_valid h havail)
      (alignAddr dsSize 12)
    rw [allocPages_of_avail h havail]
    rw [alignAddr_idem, isOk_allocPhys, entryAvail_reserved havail] at hok
    constructor
    · intro hback _
      apply hok.mp
      apply Bool.of_not_eq_false
      intro herr
      exact not_sameUse_reserved hsame (hback herr)
    · intro hsupplied herr
      rw [hok.mpr (hsupplied ⟨hzero, havail⟩)] at herr
      cases herr
  · obtain ⟨e, he⟩ := allocPages_of_not_avail env h havail
    rw [he]
    exact ⟨fun _ hr => absurd hr.2 havail, fun _ _ => .refl s⟩

/-! ## The last capability -/

/-- Core has memory for everything. -/
def plenty : Supply := ⟨fun _ _ _ => .ok (4 <<< 30), .ok (1 <<< 20), true⟩

/-- A session with 17 dataspaces of a page each and one capability left; the block of the
factory has three free entries. -/
def oneCapLeft : RamSession where
  guard
    | .ram => ⟨1 <<< 20, 17 * 4096⟩
    | .cap => ⟨18, 17⟩
  slab := ⟨20, by decide, ⟨false, 3⟩, []⟩
  physRange := (0, 2 ^ 64 - 1)

theorem oneCapLeft_valid : oneCapLeft.Valid := by
  refine ⟨?_, by decide, by decide⟩
  intro q
  cases q
  · exact ⟨by decide, by decide⟩
  · exact ⟨by decide, by decide⟩

theorem sameUse_of_error_iff_oneCapLeft :
    (oneCapLeft.tryAlloc plenty 4096).2.Valid ∧
      (((oneCapLeft.tryAlloc plenty 4096).1.isOk = false →
        SameUse oneCapLeft (oneCapLeft.tryAlloc plenty 4096).2) ↔
      (oneCapLeft.Reaches 4096 → oneCapLeft.Supplied plenty 4096)) :=
  sameUse_of_error_iff oneCapLeft_valid

/-- The slab finds no second capability, and the reservations are lost. -/
theorem outOfCaps_leaks : (oneCapLeft.tryAlloc plenty 4096).1 = .error .outOfCaps ∧
    ((oneCapLeft.tryAlloc plenty 4096).2.guard .ram).used = 18 * 4096 ∧
    ((oneCapLeft.tryAlloc plenty 4096).2.guard .cap).used = 18 ∧
    ¬ SameUse oneCapLeft (oneCapLeft.tryAlloc plenty 4096).2 := by
  refine ⟨rfl, rfl, rfl, ?_⟩
  intro h
  exact absurd h.cap (by decide)

end RamSession

end Genode.Core
