import Genode.Base.AllocatorAvl
import Genode.Core.QuotaGuard

/-!
# RamDataspace — the allocation of RAM from a protection domain

`Pd_session_component::try_alloc` with the dataspace factory of the session,
`core/ram_dataspace_factory.cc`, the slab that keeps the factory's
dataspaces, `base/slab.cc`, and the allocator behind the slab,
`core/include/constrained_core_ram.h`. The slab's blocks are paid from the
same quota as the dataspaces.

What core's allocators and the kernel answer during a call is left open.
-/

namespace Genode.Core

open Genode.Base (alignAddr AllocError)

/-- The quotas of a session. -/
inductive Quota where
  | ram
  | cap
  deriving DecidableEq, Repr

/-! ## The slab of the dataspaces -/

/-- `Slab::Block`, with its number of free entries. -/
structure SlabBlock where
  /-- It was allocated; only the block that is part of the factory was not. -/
  backed : Bool
  avail : Nat
  deriving DecidableEq, Repr

/-- `Slab`. The blocks are a ring. -/
structure DsSlab where
  entriesPerBlock : Nat
  entries_pos : 0 < entriesPerBlock
  /-- `_curr_sb`. -/
  curr : SlabBlock
  /-- The other blocks, from the one behind `_curr_sb` on. -/
  rest : List SlabBlock

namespace DsSlab

variable (slab : DsSlab)

def blocks : List SlabBlock := slab.curr :: slab.rest

/-- `_total_avail`, the free entries of all blocks. -/
def totalAvail : Nat := (slab.blocks.map SlabBlock.avail).sum

/-- The blocks that are paid from the quota. -/
def backedBlocks : Nat := slab.blocks.countP SlabBlock.backed

/-- `_insert_sb` of a new block. -/
def insertSb : DsSlab := { slab with rest := ⟨true, slab.entriesPerBlock⟩ :: slab.rest }

/-- Skip occupied blocks from a block on, and detect cycles; `seen` were skipped. -/
def skipFrom (seen : List SlabBlock) : SlabBlock → List SlabBlock → SlabBlock × List SlabBlock
  | curr, [] => (curr, seen)
  | curr, next :: rest =>
    if curr.avail = 0 then skipFrom (seen ++ [curr]) next rest
    else (curr, next :: rest ++ seen)

def skipOccupied : DsSlab :=
  let r := skipFrom [] slab.curr slab.rest
  { slab with curr := r.1, rest := r.2 }

/-- `Block::alloc` of the current block; nothing if it has no free entry. -/
def allocEntry : Option DsSlab :=
  if slab.curr.avail = 0 then none
  else some { slab with curr := { slab.curr with avail := slab.curr.avail - 1 } }

/-- The ring without the current block. -/
def dropCurr (next : SlabBlock) (rest : List SlabBlock) : DsSlab :=
  { slab with curr := next, rest }

/-- `~Entry`, for an entry of the current block. -/
def freeEntry : DsSlab := { slab with curr := { slab.curr with avail := slab.curr.avail + 1 } }

end DsSlab

/-- What the session does not decide, during one call. -/
structure Supply where
  /-- `alloc_aligned` of core's physical memory, for a size, an alignment and a range. -/
  allocAligned : Nat → Nat → Nat × Nat → Except AllocError Nat
  /-- `try_alloc` of core's memory, for a slab block. -/
  coreTryAlloc : Except AllocError Nat
  /-- Whether `_export_ram_ds` returns. -/
  exportRamDs : Bool

/-- The session, as far as it allocates RAM. -/
structure RamSession where
  guard : Quota → QuotaGuard
  slab : DsSlab
  /-- `_phys_range`. -/
  physRange : Nat × Nat

namespace RamSession

/-- `SLAB_BLOCK_SIZE`. -/
def slabBlockSize : Nat := 4096

/-- `try_withdraw` of one of the quotas. -/
def tryWithdraw (s : RamSession) (q : Quota) (amount : Nat) : Option RamSession :=
  ((s.guard q).tryWithdraw amount).map fun g => { s with guard := Function.update s.guard q g }

def replenish (s : RamSession) (q : Quota) (amount : Nat) : RamSession :=
  { s with guard := Function.update s.guard q ((s.guard q).replenish amount) }

/-- `with_reservation`. Besides its result, `fn` says whether it cancelled the
reservation. -/
def withReservation {α : Type} (s : RamSession) (q : Quota) (amount : Nat)
    (fn : RamSession → (α × Bool) × RamSession) (errorFn : α) : α × RamSession :=
  (s.tryWithdraw q amount).elim (errorFn, s) fun s =>
    ((fn s).1.1, if (fn s).1.2 then (fn s).2.replenish q amount else (fn s).2)

/-- The result of a step, and what follows it unless the step failed. -/
def andThen {α β : Type} (r : Except AllocError α × RamSession)
    (next : α → RamSession → Except AllocError β × RamSession) :
    Except AllocError β × RamSession :=
  match r with
  | (.error e, s) => (.error e, s)
  | (.ok a, s) => next a s

@[simp] theorem andThen_error {α β : Type} (e : AllocError) (s : RamSession)
    (next : α → RamSession → Except AllocError β × RamSession) :
    andThen (.error e, s) next = (.error e, s) := rfl

@[simp] theorem andThen_ok {α β : Type} (a : α) (s : RamSession)
    (next : α → RamSession → Except AllocError β × RamSession) :
    andThen (.ok a, s) next = next a s := rfl

/-! ## The factory -/

variable (env : Supply)

/-- `Constrained_core_ram::try_alloc` for the page-aligned size. Both reservations are
given back unless they are acknowledged. -/
def coreTryAllocPages (s : RamSession) (pageAlignedSize : Nat) :
    Except AllocError Nat × RamSession :=
  (s.tryWithdraw .ram pageAlignedSize).elim (.error .outOfRam, s) fun s =>
    (s.tryWithdraw .cap 1).elim (.error .outOfCaps, s.replenish .ram pageAlignedSize) fun s =>
      (env.coreTryAlloc, if env.coreTryAlloc.isOk then s
        else (s.replenish .cap 1).replenish .ram pageAlignedSize)

/-- `Constrained_core_ram::try_alloc`. -/
def coreTryAlloc (s : RamSession) (size : Nat) : Except AllocError Nat × RamSession :=
  s.coreTryAllocPages env (alignAddr size 12)

/-- `Constrained_core_ram::free`. -/
def coreFree (s : RamSession) (size : Nat) : RamSession :=
  (s.replenish .ram (alignAddr size 12)).replenish .cap 1

/-- `_expand`. -/
def slabExpand (s : RamSession) : Except AllocError Unit × RamSession :=
  andThen (s.coreTryAlloc env slabBlockSize) fun _ s =>
    (.ok (), { s with slab := s.slab.insertSb })

/-- `try_alloc` of the slab, after it was expanded. -/
def slabTakeEntry (s : RamSession) : Except AllocError Unit × RamSession :=
  s.slab.skipOccupied.allocEntry.elim (.error .denied, { s with slab := s.slab.skipOccupied })
    fun slab => (.ok (), { s with slab })

/-- `Slab::try_alloc`. -/
def slabTryAlloc (s : RamSession) : Except AllocError Unit × RamSession :=
  if s.slab.totalAvail ≤ 3 then andThen (s.slabExpand env) fun _ s => s.slabTakeEntry
  else s.slabTakeEntry

/-- `_free_curr_sb`, for a ring with a next block. -/
def freeCurrSb (s : RamSession) (next : SlabBlock) (rest : List SlabBlock) : RamSession :=
  { (if s.slab.curr.backed then s.coreFree slabBlockSize else s) with
    slab := s.slab.dropCurr next rest }

/-- The loop of `Slab::_free` that releases empty blocks; the list is the rest of the ring. -/
def releaseEmpty : List SlabBlock → RamSession → RamSession
  | [], s => s
  | next :: rest, s =>
    if s.slab.totalAvail > 2 * s.slab.entriesPerBlock ∧
        s.slab.curr.avail = s.slab.entriesPerBlock then
      releaseEmpty rest (s.freeCurrSb next rest)
    else s

/-- `Slab::_free` of the entry that was allocated last, in the current block. -/
def slabFree (s : RamSession) : RamSession :=
  releaseEmpty s.slab.rest { s with slab := s.slab.freeEntry }

/-- One of the loops over the alignments: the first range that is found, or what the last
attempt said. -/
def attempts (dsSize : Nat) (range : Nat × Nat) :
    List Nat → Except AllocError Nat → Except AllocError Nat
  | [], r => r
  | align :: aligns, _ =>
    match env.allocAligned dsSize align range with
    | .ok ptr => .ok ptr
    | .error e => attempts dsSize range aligns (.error e)

/-- The alignments from the natural one down to pages. -/
def aligns (dsSize : Nat) : List Nat := (List.range' 12 (Nat.log2 dsSize + 1 - 12)).reverse

/-- Memory behind the first 4 GiB. -/
def highRange : Nat × Nat := (4 <<< 30, 2 ^ 64 - 1)

/-- The attempts with a range, if nothing was found before. -/
def orAttempts (dsSize : Nat) (r : Except AllocError Nat) (range : Nat × Nat) :
    Except AllocError Nat :=
  match r with
  | .ok ptr => .ok ptr
  | .error e => attempts env dsSize range (aligns dsSize) (.error e)

/-- The search for physical memory: constrained, high and anywhere in the range. -/
def allocPhys (s : RamSession) (dsSize : Nat) : Except AllocError Nat :=
  let r :=
    if s.physRange ≠ (0, 2 ^ 64 - 1) then orAttempts env dsSize (.error .denied) s.physRange
    else .error .denied
  orAttempts env dsSize (orAttempts env dsSize r highRange) s.physRange

/-- `Ram_dataspace_factory::try_alloc`; the dataspace is given by its physical address. The
session aligns the size before, so the logarithm is never that of 0, which is the largest
number in the code. -/
def factoryTryAlloc (s : RamSession) (dsSize : Nat) : Except AllocError Nat × RamSession :=
  if dsSize = 0 then (.error .denied, s)
  else
    andThen (s.allocPhys env (alignAddr dsSize 12), s) fun ptr s =>
      andThen (s.slabTryAlloc env) fun _ s =>
        if env.exportRamDs then (.ok ptr, s) else (.error .denied, s.slabFree)

/-- What `Pd_session_component::try_alloc` calls with the RAM reserved, and whether it
cancels that reservation. The reservation of the capability is never cancelled. -/
def allocWithRam (s : RamSession) (dsSize : Nat) : (Except AllocError Nat × Bool) × RamSession :=
  if (s.guard .ram).avail < slabBlockSize then ((.error .outOfRam, true), s)
  else
    s.withReservation .cap 1
      (fun s => ((((s.factoryTryAlloc env dsSize).1, false), false),
        (s.factoryTryAlloc env dsSize).2))
      (.error .outOfCaps, true)

/-- `Pd_session_component::try_alloc` for the page-aligned size. -/
def allocPages (s : RamSession) (dsSize : Nat) : Except AllocError Nat × RamSession :=
  s.withReservation .ram dsSize (fun s => s.allocWithRam env dsSize) (.error .outOfRam)

/-- `Pd_session_component::try_alloc`. -/
def tryAlloc (s : RamSession) (dsSize : Nat) : Except AllocError Nat × RamSession :=
  if dsSize = 0 then (.error .denied, s) else s.allocPages env (alignAddr dsSize 12)

/-! ## When the allocation gets to the factory, and when that succeeds -/

/-- RAM for the dataspace and for a slab block, and a capability. -/
def HasAvail (s : RamSession) (dsSize : Nat) : Prop :=
  dsSize + slabBlockSize ≤ (s.guard .ram).limit - (s.guard .ram).used ∧
    1 ≤ (s.guard .cap).limit - (s.guard .cap).used

/-- The checks in front of the factory pass. -/
def Reaches (s : RamSession) (dsSize : Nat) : Prop :=
  dsSize ≠ 0 ∧ s.HasAvail (alignAddr dsSize 12)

/-- Nothing is missing in the factory: the aligned size is not zero, core has a range for
it in physical memory, the slab has more than three free entries or gets a block, which
takes a second capability, and the dataspace can be exported. -/
def Supplied (s : RamSession) (dsSize : Nat) : Prop :=
  alignAddr dsSize 12 ≠ 0 ∧
    (∃ align ∈ aligns (alignAddr dsSize 12), ∃ range ∈ [s.physRange, highRange],
      (env.allocAligned (alignAddr dsSize 12) align range).isOk = true) ∧
    (3 < s.slab.totalAvail ∨
      2 ≤ (s.guard .cap).limit - (s.guard .cap).used ∧ env.coreTryAlloc.isOk = true) ∧
    env.exportRamDs = true

/-- The quotas are used within their limits, and so are the blocks of the slab. -/
structure Valid (s : RamSession) : Prop where
  guard : ∀ q, (s.guard q).Valid
  ram : slabBlockSize * s.slab.backedBlocks ≤ (s.guard .ram).used
  cap : s.slab.backedBlocks ≤ (s.guard .cap).used

/-- What is used of the quotas is the same in both states, apart from what the blocks of
the slab take. -/
structure SameUse (s s' : RamSession) : Prop where
  ram : (s'.guard .ram).used + slabBlockSize * s.slab.backedBlocks =
    (s.guard .ram).used + slabBlockSize * s'.slab.backedBlocks
  cap : (s'.guard .cap).used + s.slab.backedBlocks =
    (s.guard .cap).used + s'.slab.backedBlocks

variable {env} {s s' s'' : RamSession} {q : Quota} {amount dsSize : Nat}

/-! ## The quotas -/

theorem SameUse.refl (s : RamSession) : SameUse s s := ⟨rfl, rfl⟩

theorem SameUse.trans (h : SameUse s s') (h' : SameUse s' s'') : SameUse s s'' := by
  obtain ⟨hram, hcap⟩ := h
  obtain ⟨hram', hcap'⟩ := h'
  exact ⟨by omega, by omega⟩

@[simp] theorem replenish_slab : (s.replenish q amount).slab = s.slab := rfl

@[simp] theorem replenish_used (q' : Quota) : ((s.replenish q amount).guard q').used =
    if q' = q then (s.guard q).used - amount else (s.guard q').used := by
  unfold replenish
  by_cases h : q' = q
  · subst h
    simp
  · simp [h]

theorem replenish_guard_valid (h : ∀ q, (s.guard q).Valid) (q' : Quota) :
    ((s.replenish q amount).guard q').Valid := by
  unfold replenish
  by_cases hq : q' = q
  · subst hq
    simpa using (h q').replenish
  · simpa [hq] using h q'

/-- More of a quota is used. -/
def use (s : RamSession) (q : Quota) (amount : Nat) : RamSession :=
  { s with guard :=
      Function.update s.guard q { s.guard q with used := (s.guard q).used + amount } }

@[simp] theorem use_slab : (s.use q amount).slab = s.slab := rfl

@[simp] theorem use_used (q' : Quota) : ((s.use q amount).guard q').used =
    if q' = q then (s.guard q).used + amount else (s.guard q').used := by
  unfold use
  by_cases h : q' = q
  · subst h
    simp
  · simp [h]

@[simp] theorem use_limit (q' : Quota) :
    ((s.use q amount).guard q').limit = (s.guard q').limit := by
  unfold use
  by_cases h : q' = q
  · subst h
    simp
  · simp [h]

/-- A withdrawal takes exactly what is available. -/
theorem tryWithdraw_eq_some (h : ∀ q, (s.guard q).Valid) : s.tryWithdraw q amount = some s' ↔
    amount ≤ (s.guard q).limit - (s.guard q).used ∧ s' = s.use q amount := by
  unfold tryWithdraw
  simp only [Option.map_eq_some_iff, (h q).tryWithdraw_eq_some]
  constructor
  · intro hs
    obtain ⟨g, ⟨hle, rfl⟩, rfl⟩ := hs
    exact ⟨hle, rfl⟩
  · intro hs
    exact ⟨_, ⟨hs.1, rfl⟩, hs.2.symm⟩

theorem use_guard_valid (h : ∀ q, (s.guard q).Valid)
    (hle : amount ≤ (s.guard q).limit - (s.guard q).used) (q' : Quota) :
    ((s.use q amount).guard q').Valid := by
  have hq := h q
  have hq' := h q'
  refine ⟨?_, by rw [use_limit]; exact hq'.limit_lt⟩
  rw [use_limit, use_used]
  split
  · rename_i heq
    subst heq
    have := hq.used_le
    omega
  · exact hq'.used_le

theorem Valid.use (h : s.Valid) (hle : amount ≤ (s.guard q).limit - (s.guard q).used) :
    (s.use q amount).Valid := by
  refine ⟨use_guard_valid h.guard hle, ?_, ?_⟩
  · have := h.ram
    rw [use_slab, use_used]
    split
    · rename_i heq
      subst heq
      omega
    · exact this
  · have := h.cap
    rw [use_slab, use_used]
    split
    · rename_i heq
      subst heq
      omega
    · exact this

/-- A reservation that is given back. -/
theorem replenish_use : (s.use q amount).replenish q amount = s := by
  have hguard : (s.use q amount).guard q =
      { s.guard q with used := (s.guard q).used + amount } := Function.update_self _ _ _
  have hback : ((s.use q amount).guard q).replenish amount = s.guard q := by
    rw [hguard]
    unfold QuotaGuard.replenish
    dsimp only
    rw [if_neg (by omega), Nat.add_sub_cancel]
  unfold replenish
  rw [hback]
  unfold use
  dsimp only
  rw [Function.update_idem, Function.update_eq_self]

/-! ## The slab -/

theorem alignAddr_slabBlockSize : alignAddr slabBlockSize 12 = slabBlockSize := by
  unfold alignAddr slabBlockSize
  simp [Genode.Base.add64]

/-- Both quotas and core have enough for a block. -/
def BlockAvail (env : Supply) (s : RamSession) (size : Nat) : Prop :=
  size ≤ (s.guard .ram).limit - (s.guard .ram).used ∧
    1 ≤ (s.guard .cap).limit - (s.guard .cap).used ∧ env.coreTryAlloc.isOk = true

theorem use_ram_capAvail : ((s.use .ram amount).guard .cap).limit -
    ((s.use .ram amount).guard .cap).used = (s.guard .cap).limit - (s.guard .cap).used := by
  rw [use_limit, use_used, if_neg (by decide)]

theorem coreTryAllocPages_of_avail {size : Nat} (h : s.Valid)
    (havail : BlockAvail env s size) :
    s.coreTryAllocPages env size = (env.coreTryAlloc, (s.use .ram size).use .cap 1) := by
  obtain ⟨hram, hcap, hcore⟩ := havail
  have hvalid := use_guard_valid h.guard hram
  have hram' := (tryWithdraw_eq_some h.guard).mpr ⟨hram, rfl⟩
  have hcap' : (s.use .ram size).tryWithdraw .cap 1 = some ((s.use .ram size).use .cap 1) := by
    rw [tryWithdraw_eq_some hvalid, use_ram_capAvail]
    exact ⟨hcap, rfl⟩
  unfold coreTryAllocPages
  rw [hram', Option.elim_some, hcap', Option.elim_some, if_pos hcore]

/-- Otherwise the reservations are given back. -/
theorem coreTryAllocPages_of_not_avail {size : Nat} (h : s.Valid)
    (havail : ¬ BlockAvail env s size) :
    ∃ e, s.coreTryAllocPages env size = (.error e, s) := by
  unfold coreTryAllocPages
  cases hram : s.tryWithdraw .ram size with
  | none => exact ⟨_, rfl⟩
  | some s₁ =>
    obtain ⟨hle, rfl⟩ := (tryWithdraw_eq_some h.guard).mp hram
    have hvalid := use_guard_valid h.guard hle
    rw [Option.elim_some]
    cases hcap : (s.use .ram size).tryWithdraw .cap 1 with
    | none =>
      rw [Option.elim_none, replenish_use]
      exact ⟨_, rfl⟩
    | some s₂ =>
      obtain ⟨hcaple, rfl⟩ := (tryWithdraw_eq_some hvalid).mp hcap
      rw [Option.elim_some]
      cases hcore : env.coreTryAlloc with
      | ok ptr =>
        rw [use_ram_capAvail] at hcaple
        exact absurd ⟨hle, hcaple, by rw [hcore]; rfl⟩ havail
      | error e =>
        rw [if_neg (by simp [Except.isOk, Except.toBool]), replenish_use, replenish_use]
        exact ⟨e, rfl⟩

theorem skipFrom_perm (curr : SlabBlock) (rest seen : List SlabBlock) :
    ((DsSlab.skipFrom seen curr rest).1 :: (DsSlab.skipFrom seen curr rest).2).Perm
      (curr :: rest ++ seen) ∧
    ((DsSlab.skipFrom seen curr rest).1.avail = 0 → ∀ b ∈ curr :: rest, b.avail = 0) := by
  induction rest generalizing curr seen with
  | nil => exact ⟨.refl _, fun h b hb => by rw [List.mem_singleton.mp hb]; exact h⟩
  | cons next rest ih =>
    rw [DsSlab.skipFrom]
    by_cases hcurr : curr.avail = 0
    · rw [if_pos hcurr]
      obtain ⟨hperm, hzero⟩ := ih next (seen ++ [curr])
      refine ⟨hperm.trans ?_, fun h b hb => ?_⟩
      · rw [← List.append_assoc]
        exact List.perm_append_singleton _ _
      · rcases List.mem_cons.mp hb with rfl | hb
        · exact hcurr
        · exact hzero h b hb
    · rw [if_neg hcurr]
      exact ⟨.refl _, fun h => absurd h hcurr⟩

theorem skipOccupied_perm (slab : DsSlab) : slab.skipOccupied.blocks.Perm slab.blocks := by
  have h := (skipFrom_perm slab.curr slab.rest []).1
  rwa [List.append_nil] at h

theorem skipOccupied_avail {slab : DsSlab} (h : 0 < slab.totalAvail) :
    slab.skipOccupied.curr.avail ≠ 0 := by
  intro hzero
  have hall := (skipFrom_perm slab.curr slab.rest []).2 hzero
  have hsum : slab.totalAvail = 0 := by
    apply List.sum_eq_zero_iff_forall_eq_nat.mpr
    intro n hn
    obtain ⟨b, hb, rfl⟩ := List.mem_map.mp hn
    exact hall b hb
  omega

/-- An entry is taken from one of the blocks. -/
theorem allocEntry_skipOccupied {slab : DsSlab} (h : 0 < slab.totalAvail) :
    ∃ slab', slab.skipOccupied.allocEntry = some slab' ∧
      slab'.backedBlocks = slab.backedBlocks := by
  refine ⟨_, if_neg (skipOccupied_avail h), ?_⟩
  have hperm := (skipOccupied_perm slab).countP_eq SlabBlock.backed
  rw [DsSlab.backedBlocks, DsSlab.backedBlocks, ← hperm]
  simp only [DsSlab.blocks, List.countP_cons]

theorem backedBlocks_insertSb (slab : DsSlab) :
    slab.insertSb.backedBlocks = slab.backedBlocks + 1 := by
  simp [DsSlab.backedBlocks, DsSlab.blocks, DsSlab.insertSb, List.countP_cons]
  omega

theorem totalAvail_insertSb (slab : DsSlab) :
    slab.insertSb.totalAvail = slab.totalAvail + slab.entriesPerBlock := by
  simp [DsSlab.totalAvail, DsSlab.blocks, DsSlab.insertSb]
  omega

theorem slabTakeEntry_of_avail (h : 0 < s.slab.totalAvail) :
    ∃ slab, s.slabTakeEntry = (.ok (), { s with slab }) ∧
      slab.backedBlocks = s.slab.backedBlocks := by
  obtain ⟨slab, hslab, hbacked⟩ := allocEntry_skipOccupied h
  refine ⟨slab, ?_, hbacked⟩
  unfold slabTakeEntry
  rw [hslab, Option.elim_some]

/-- A slab with as many paid blocks as before. -/
theorem SameUse.of_slab {slab : DsSlab} (h : slab.backedBlocks = s.slab.backedBlocks) :
    SameUse s { s with slab } := by
  constructor
  · rw [h]
  · rw [h]

theorem Valid.of_slab {slab : DsSlab} (h : s.Valid) (hb : slab.backedBlocks = s.slab.backedBlocks) :
    Valid { s with slab } :=
  ⟨h.guard, by rw [hb]; exact h.ram, by rw [hb]; exact h.cap⟩

/-- A new block is paid. -/
theorem slabExpand_of_avail (h : s.Valid) (havail : BlockAvail env s slabBlockSize) :
    ∃ s', s.slabExpand env = (.ok (), s') ∧ SameUse s s' ∧ s'.Valid ∧
      0 < s'.slab.totalAvail := by
  have hcore := coreTryAllocPages_of_avail h havail
  obtain ⟨hram, hcap, hok⟩ := havail
  cases hptr : env.coreTryAlloc with
  | error e => simp [hptr, Except.isOk, Except.toBool] at hok
  | ok ptr =>
    rw [hptr] at hcore
    refine ⟨{ (s.use .ram slabBlockSize).use .cap 1 with slab := s.slab.insertSb },
      ?_, ?_, ?_, ?_⟩
    · unfold slabExpand coreTryAlloc
      rw [alignAddr_slabBlockSize, hcore, andThen_ok]
      rfl
    · constructor
      · simp [backedBlocks_insertSb, Nat.mul_succ]
        omega
      · simp [backedBlocks_insertSb]
        omega
    · have hvalid : ((s.use .ram slabBlockSize).use .cap 1).Valid := by
        apply (h.use hram).use
        rw [use_ram_capAvail]
        exact hcap
      refine ⟨hvalid.guard, ?_, ?_⟩
      · have := h.ram
        simp [backedBlocks_insertSb, Nat.mul_succ]
        omega
      · have := h.cap
        simp [backedBlocks_insertSb]
        omega
    · show 0 < s.slab.insertSb.totalAvail
      rw [totalAvail_insertSb]
      exact Nat.add_pos_right _ s.slab.entries_pos

theorem slabExpand_of_not_avail (h : s.Valid) (havail : ¬ BlockAvail env s slabBlockSize) :
    ∃ e, s.slabExpand env = (.error e, s) := by
  obtain ⟨e, he⟩ := coreTryAllocPages_of_not_avail h havail
  refine ⟨e, ?_⟩
  unfold slabExpand coreTryAlloc
  rw [alignAddr_slabBlockSize, he, andThen_error]

/-- The slab has an entry left above its reserve, or gets a block. -/
def EntryAvail (env : Supply) (s : RamSession) : Prop :=
  3 < s.slab.totalAvail ∨ BlockAvail env s slabBlockSize

theorem slabTryAlloc_of_avail (h : s.Valid) (havail : EntryAvail env s) :
    ∃ s', s.slabTryAlloc env = (.ok (), s') ∧ SameUse s s' ∧ s'.Valid := by
  unfold slabTryAlloc
  by_cases htotal : s.slab.totalAvail ≤ 3
  · obtain ⟨s₁, hexpand, hsame, hvalid, hpos⟩ :=
      slabExpand_of_avail h (havail.resolve_left (Nat.not_lt.mpr htotal))
    obtain ⟨slab, htake, hbacked⟩ := slabTakeEntry_of_avail hpos
    rw [if_pos htotal, hexpand]
    exact ⟨_, htake, hsame.trans (.of_slab hbacked), hvalid.of_slab hbacked⟩
  · obtain ⟨slab, htake, hbacked⟩ := slabTakeEntry_of_avail (s := s) (by omega)
    rw [if_neg htotal]
    exact ⟨_, htake, .of_slab hbacked, h.of_slab hbacked⟩

theorem slabTryAlloc_of_not_avail (h : s.Valid) (havail : ¬ EntryAvail env s) :
    ∃ e, s.slabTryAlloc env = (.error e, s) := by
  obtain ⟨htotal, hblock⟩ := not_or.mp havail
  obtain ⟨e, he⟩ := slabExpand_of_not_avail h hblock
  refine ⟨e, ?_⟩
  unfold slabTryAlloc
  rw [if_pos (Nat.not_lt.mp htotal), he, andThen_error]

end RamSession

end Genode.Core
