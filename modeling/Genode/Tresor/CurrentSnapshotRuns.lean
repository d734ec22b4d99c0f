import Genode.Tresor.CurrentSnapshot
import Genode.Tresor.VbdWrite

/-!
# CurrentSnapshotRuns — the current snapshot over whole runs

Every run that never finds the current snapshot disposable when it discards
snapshots keeps it valid and the newest one. The superblock that a step of
an extension secures still has the generation that was last secured before:
after a restart its own snapshot is disposable.
-/

namespace Genode.Tresor.SbControl

open Genode.Lib

/-! ## The answers of the other modules -/

section Answering

variable {sha : Block → Hash} {slots slots' : SuperblockIndex → Block} {c c' : Control} {op : Op}
  {a : Answer} {w w' : World}

theorem Sound.of_answer (hk : AnswerKeeps op a c c') (h : Sound c) : Sound c' := by
  obtain ⟨h₁, h₂, h₃⟩ := h
  refine ⟨?_, ?_, ?_⟩
  · rw [hk.sb, Superblock.valid, changeRoots_state]
    exact h₁
  · rw [hk.sb]
    cases op <;> exact h₂
  · rw [hk.sb, hk.currGen]
    cases op <;> exact h₃

theorem valid_of_answer (hk : AnswerKeeps op a c c') (hv : c'.sb.valid = true) :
    c.sb.valid = true := by
  rw [hk.sb, Superblock.valid, changeRoots_state] at hv
  exact hv

/-- What the other modules have written to the channel. -/
theorem got_of_answer (hs : w.ctrl.chan.state = .pending op) (h : Fit w.slots w.ctrl)
    (hslots : AllCurrent w.slots) (ha : Answers sha w (w.ctrl.peekGeneratedRequest op) a)
    (he : w.ctrl.generatedRequestComplete op a = .ok c) : Got w.slots c op := by
  have hkeep := answerKeeps he
  have hk : Awaits w.slots w.ctrl op := by
    have hk := h.knows
    rwa [Knows, hs] at hk
  have hsame : FoundSlot w.slots w.ctrl → FoundSlot w.slots c := by
    intro hfound
    obtain ⟨sb, hsb, hv, hgen⟩ := hfound
    refine ⟨sb, ?_, hv, ?_⟩
    · rw [hkeep.chanSbIdx]
      exact hsb
    · rw [hkeep.generation]
      exact hgen
  cases op with
  | maxSbHash => exact hkeep.sbFound.trans hk
  | readSb =>
    refine ⟨fun hf => hsame (hk.1 (hkeep.sbFound ▸ hf)), fun hsucc => ?_⟩
    rw [hkeep.succ] at hsucc
    obtain ⟨i, hi, hblk⟩ := ha hsucc
    obtain ⟨sb, hsb, he⟩ := Exec.bind_eq_ok.mp he
    cases he
    rw [slot_ofNat_inj (hi.symm.trans hk.2)] at hblk
    rw [hblk] at hsb
    exact hsb
  | readCurrentSb =>
    intro hsucc
    rw [hkeep.succ] at hsucc
    obtain ⟨i, hi, hblk⟩ := ha hsucc
    obtain ⟨⟨sb, hsb, hv, hgen⟩, hnr⟩ := hk
    obtain ⟨sb', hsb', he⟩ := Exec.bind_eq_ok.mp he
    rw [hblk, slot_ofNat_inj (hi.symm.trans hnr), hsb] at hsb'
    cases hsb'
    cases he
    exact ⟨hv, hslots _ _ hsb, hgen⟩
  | decryptCurrentKey =>
    obtain ⟨h₁, h₂, h₃⟩ := hk
    cases he
    exact ⟨h₁, h₂, h₃⟩
  | addCurrentKeyAtCryptoModule =>
    obtain ⟨h₁, h₂, h₃⟩ := hk
    cases he
    exact ⟨h₁, h₂, h₃⟩
  | decryptPreviousKey =>
    obtain ⟨h₁, h₂, h₃⟩ := hk
    cases he
    exact ⟨h₁, h₂, h₃⟩
  | addPreviousKeyAtCryptoModule =>
    obtain ⟨h₁, h₂, h₃⟩ := hk
    cases he
    exact ⟨h₁, h₂, h₃⟩
  | encryptCurrentKey =>
    refine ⟨hk.1.of_answer hkeep, ?_⟩
    have hcipher := hk.2
    cases he
    exact hcipher
  | encryptPreviousKey =>
    refine ⟨hk.1.of_answer hkeep, ?_⟩
    have hcipher := hk.2
    cases he
    exact hcipher
  | syncCache =>
    refine ⟨hk.1.of_answer hkeep, ?_⟩
    have hcipher := hk.2
    cases he
    exact hcipher
  | writeSb =>
    refine ⟨hk.1.of_answer hkeep, ?_⟩
    have hcipher := hk.2
    cases he
    exact hcipher
  | syncBlkIo =>
    refine ⟨hk.1.of_answer hkeep, ?_⟩
    have hcipher := hk.2
    cases he
    exact hcipher
  | secureSb => exact hk.1.of_answer hkeep
  | writeVbaAtVbd =>
    refine ⟨Sound.of_answer hkeep hk, ?_⟩
    obtain ⟨vbd, vbd', hproc, -, -, hsnaps, -⟩ := ha
    have hsnap : c.chan.snapshots ⟨0, maxNrOfSnapshots_pos⟩ =
        vbd'.request.snapshots ⟨0, maxNrOfSnapshots_pos⟩ := by
      rw [← hsnaps]
      cases he
      exact Function.update_self (⟨0, maxNrOfSnapshots_pos⟩ : SnapshotIndex)
        (a.snapshots ⟨0, maxNrOfSnapshots_pos⟩) w.ctrl.chan.snapshots
    have hgen : c.sb.snap.gen = w.ctrl.sb.snap.gen := by
      rw [hkeep.sb]
      rfl
    obtain ⟨hv, hor⟩ := Vbd.rewritten_of_processes rfl hproc
    rw [hsnap, hgen, hkeep.currGen]
    exact ⟨hv.trans hk.current.valid, hor⟩
  | rekeyVbaInVbd =>
    obtain ⟨hsound, hkeeps⟩ := hk
    refine ⟨hsound.of_answer hkeep, fun _ => ?_⟩
    obtain ⟨vbd, vbd', hproc, hdone, -, hsnaps, -⟩ := ha
    have hkind := Vbd.sameKind_of_processes rfl hproc hdone
    have hchan : c.chan.snapshots = vbd'.request.snapshots := by
      rw [← hsnaps]
      cases he
      rfl
    have hidx : c.sb.currSnap = w.ctrl.sb.currSnap := by
      rw [hkeep.sb]
      rfl
    rw [hchan, hidx, hkeep.currGen]
    refine ⟨Current.of_sameKind (hsound.current.discard hkeeps) hkind, ?_⟩
    have hgen := (hkind w.ctrl.sb.currSnap).gen
    have hsnap : Vbd.keptSnapshots w.ctrl.rekeyVbaArgs w.ctrl.sb.currSnap =
        w.ctrl.sb.snap := discard_of_not_disposable hkeeps
    rw [hgen, hsnap]
    exact hsound.gen_le
  | vbdExtStepInVbd =>
    refine ⟨Sound.of_answer hkeep hk, fun _ idx hv => ?_⟩
    obtain ⟨vbd, vbd', hproc, hdone, -, hsnaps, -⟩ := ha
    have hext := Vbd.extended_of_processes rfl hproc hdone
    have hchan : c.chan.snapshots = vbd'.request.snapshots := by
      rw [← hsnaps]
      cases he
      rfl
    rw [hchan] at hv ⊢
    rw [hkeep.currGen]
    rcases hext idx hv with hgen | ⟨hkept, hgen⟩
    · rw [hgen]
      exact UInt64.le_refl _
    · have hold : Vbd.keptSnapshots w.ctrl.vbdExtensionArgs idx = w.ctrl.sb.snapshots idx :=
        valid_of_discard hkept
      rw [hold] at hkept hgen
      rw [hgen]
      exact UInt64.le_trans (hk.current.newest idx hkept) hk.gen_le
  | ftExtStepInFt => exact ⟨hk.1.of_answer hkeep, hkeep.type.trans hk.2⟩
  | readVbaAtVbd => exact Sound.of_answer hkeep hk
  | createKey => exact Sound.of_answer hkeep hk
  | addKeyAtCryptoModule => exact Sound.of_answer hkeep hk
  | removePreviousKeyAtCryptoModule => exact Sound.of_answer hkeep hk
  | removeCurrentKeyAtCryptoModule => exact Sound.of_answer hkeep hk

end Answering

/-! ## Runs -/

section Runs

variable {sha : Block → Hash} {w w' : World}

/-- The superblock has a current snapshot, and the one that was secured last
has a valid one. -/
structure SnapshotsKept (w : World) : Prop where
  current : HasCurrent w.ctrl.sb
  secured : ∃ idx, (w.secured.snapshots idx).valid = true

/-- The program is to be started on a device with superblocks that have
current snapshots. -/
structure Deployed (w : World) : Prop where
  started : w.ctrl = {}
  slots : AllCurrent w.slots
  secured : ∃ idx, (w.secured.snapshots idx).valid = true

/-- The invariant of the runs. -/
structure Intact (w : World) : Prop where
  fit : Fit w.slots w.ctrl
  slots : AllCurrent w.slots
  secured : ∃ idx, (w.secured.snapshots idx).valid = true

theorem Deployed.intact (h : Deployed w) : Intact w := by
  refine ⟨?_, h.slots, h.secured⟩
  rw [h.started]
  exact ⟨fun hv => (by cases hv), .inr (.inl rfl)⟩

/-- Only the superblock that is being secured gets to the device. -/
theorem Intact.perform {op : Op} {a : Answer} (h : Intact w)
    (hs : w.ctrl.chan.state = .pending op)
    (hp : Performs w (w.ctrl.peekGeneratedRequest op) a w') :
    AllCurrent w'.slots ∧ (∃ idx, (w'.secured.snapshots idx).valid = true) ∧
      (op ≠ .writeSb → w'.slots = w.slots) := by
  have hk : Awaits w.slots w.ctrl op := by
    have hk := h.fit.knows
    rwa [Knows, hs] at hk
  cases hp with
  | failed => exact ⟨h.slots, h.secured, fun _ => rfl⟩
  | performed =>
    cases op with
    | writeSb =>
      refine ⟨fun i sb hsb => ?_, h.secured, fun hne => absurd rfl hne⟩
      change Superblock.decodeFromBlk (if w.ctrl.chan.generatedPrim.blkNr = UInt64.ofNat i.val then
        w.ctrl.chan.sbCiphertext.encodeToBlk else w.slots i) = .ok sb at hsb
      split at hsb
      · rw [Superblock.decode_encode] at hsb
        cases hsb
        exact fun _ => hk.2
      · exact h.slots i sb hsb
    | secureSb => exact ⟨h.slots, ⟨_, hk.2.valid⟩, fun _ => rfl⟩
    | _ => exact ⟨h.slots, h.secured, fun _ => rfl⟩

theorem Intact.step {ev : Event} (h : Intact w) (hs : Tr sha w ev w') (hc : StaysSteady w ev) :
    Intact w' := by
  cases hs with
  | submit hm =>
    refine ⟨⟨fun hv => ?_, ?_⟩, h.slots, h.secured⟩
    · obtain ⟨h₁, h₂, h₃⟩ := h.fit.sound hv
      exact ⟨h₁, h₂, h₃⟩
    · rcases hm.2.2 with hinit | hv
      · exact .inl hinit
      · obtain ⟨h₁, h₂, h₃⟩ := h.fit.sound hv
        exact .inr (.inr ⟨h₁, h₂, h₃⟩)
  | execute he => exact ⟨h.fit.execute hc h.slots he, h.slots, h.secured⟩
  | @answer w₁ op a c hs ha hp he =>
    obtain ⟨hslots, hsec, hsame⟩ := h.perform hs hp
    have hgot := got_of_answer hs h.fit h.slots ha he
    have hkeep := answerKeeps he
    refine ⟨⟨fun hv => ?_, ?_⟩, hslots, hsec⟩
    · exact (h.fit.sound (valid_of_answer hkeep hv)).of_answer hkeep
    · change Knows w₁.slots c
      rw [Knows, hkeep.state]
      by_cases hop : op = .writeSb
      · rw [hop] at hgot ⊢
        exact hgot
      · rw [hsame hop]
        exact hgot
  | drop hs =>
    refine ⟨⟨fun hv => ?_, ?_⟩, h.slots, h.secured⟩
    · obtain ⟨h₁, h₂, h₃⟩ := h.fit.sound hv
      exact ⟨h₁, h₂, h₃⟩
    · have hs' : w.ctrl.dropCompletedRequest.chan.state = .completed := hs
      rw [Knows, hs']
      trivial
  | restart => exact ⟨⟨fun hv => (by cases hv), .inr (.inl rfl)⟩, h.slots, h.secured⟩

/-- A run in which the current snapshot is never disposable when snapshots
get discarded keeps it valid and the newest. -/
theorem current_snapshot_of_run {hist : List (World × Event)}
    (h : Run Deployed (Tr sha) hist w) (hc : ∀ e ∈ hist, StaysSteady e.1 e.2) :
    ∀ t ∈ reached hist w, SnapshotsKept t :=
  Run.forall_reached_of (C := StaysSteady) (fun _ => Deployed.intact) (fun _ _ _ hi ht hc => hi.step ht hc)
    (fun _ hi => ⟨fun hv => (hi.fit.sound hv).current, hi.secured⟩) h hc

/-! ### A run that loses the current snapshot -/

/-- The superblock that the first step of an extension secures. -/
def extendedSuperblock : Superblock :=
  { sampleSuperblock with
    state := .extendingVbd
    resizingNrOfPbas := 64
    snapshots := Function.update Snapshots.none ⟨0, maxNrOfSnapshots_pos⟩
      { sampleSnapshot with gen := 2 } }

/-- The first step of an extension, on a device that was just found. -/
theorem leads_extended {c : Control} (w : World) (hsb : c.sb = sampleSuperblock)
    (hgen : c.currGen = 2) (hcounts : Counts c) (hty : c.chan.request.type = .invalid) :
    ∃ c' : Control, Leads sampleSha { w with ctrl := c } { w with ctrl := c' } ∧ Secures c' ∧
      Counts c' ∧ c'.chan.state = .pending .encryptCurrentKey ∧ c'.sbIdx = c.sbIdx ∧
      c'.sb.state = .extendingVbd ∧ ciphertext c' = extendedSuperblock := by
  let c₁ := c.submitRequest { type := .vbdExtensionStep, nrOfBlks := 64 }
  let c₂ := { c₁.setFinished false with
    sb := { c.sb with
      state := .extendingVbd
      resizingNrOfPbas := 64
      resizingNrOfLeaves := 0 }
    chan := { (c₁.setFinished false).chan with
      pba := c.sb.firstPba + (c.sb.nrOfPbas - 1) + 1 } }.secureSbInit
  have hvalid : c.sb.valid = true := by
    rw [hsb]
    rfl
  have hsubmit : Leads sampleSha { w with ctrl := c } { w with ctrl := c₁ } :=
    Leads.submit (w := { w with ctrl := c }) ⟨hty, fun hh => (by cases hh), .inr hvalid⟩
  have hexec : c₁.execute sampleSha = .ok c₂ := by
    have hstart : c₁.execute sampleSha = c₁.startTreeExtStep .extendingVbd .vbdExtStepInVbd := rfl
    have hsb₁ : c₁.sb = sampleSuperblock := hsb
    have hunused : ¬ maxPba - (c₁.sb.firstPba + (c₁.sb.nrOfPbas - 1)) <
        c₁.chan.request.nrOfBlks := by
      rw [hsb₁]
      change ¬ maxPba - (sampleSuperblock.firstPba + (sampleSuperblock.nrOfPbas - 1)) < 64
      decide
    have hnormal : c₁.sb.state = .normal := by
      rw [hsb₁]
      rfl
    rw [hstart]
    simp only [Control.startTreeExtStep, hunused, hnormal, if_false, if_true]
    rfl
  have hst : Steady c₁ := by
    refine ⟨fun _ hor => ?_, hcounts.currGen, hcounts.generation⟩
    rcases hor with hor | hor | hor
    all_goals cases hor
  refine ⟨c₂, hsubmit.trans (.execute hst hexec), .inr (.inr (.inl rfl)),
    hcounts.congr rfl rfl, rfl, rfl, rfl, ?_⟩
  have hsnaps : c₂.sb.snapshots = extendedSuperblock.snapshots := by
    change Function.update c.sb.snapshots c.sb.currSnap { c.sb.snap with gen := c.currGen } = _
    rw [hsb, hgen]
    exact Function.update_idem _ _ _
  have hcipher : ciphertext c₂ = { c.sb with
      state := .extendingVbd
      resizingNrOfPbas := 64
      resizingNrOfLeaves := 0
      snapshots := c₂.sb.snapshots
      previousKey := c.sb.previousKey.withoutValue
      currentKey := c.sb.currentKey.withoutValue } := rfl
  rw [hcipher, hsnaps, hsb]
  rfl

theorem extendedSuperblock_holds {w : World} {i : SuperblockIndex}
    (hslot : w.slots i = extendedSuperblock.encodeToBlk)
    (hothers : ∀ j ≠ i, w.slots j = Superblock.encodeToBlk {})
    (hanchor : w.anchor = sampleSha extendedSuperblock.encodeToBlk) :
    Holds sampleSha w i extendedSuperblock ⟨0, maxNrOfSnapshots_pos⟩ where
  slot := hslot
  others j hj := ⟨{}, hothers j hj, rfl⟩
  valid := fun hh => by cases hh
  newest := by decide +kernel
  gen := by decide
  anchor := by rw [hslot, hanchor]
  keyed := rfl
  unkeyed := rfl
  notRekeying := fun hh => by cases hh
  freeLevels := by decide

theorem sample_deployed : Deployed sampleWorld := by
  refine ⟨rfl, fun i sb hsb hv => ?_, ⟨0, maxNrOfSnapshots_pos⟩, rfl⟩
  by_cases hi : i = ⟨0, nrOfSuperblockSlots_pos⟩
  · have hslot : sampleWorld.slots i = sampleSuperblock.encodeToBlk := by
      rw [hi]
      exact sampleSlots_zero
    rw [hslot, Superblock.decode_encode] at hsb
    cases hsb
    refine ⟨rfl, fun idx hidx => ?_⟩
    by_cases he : idx = ⟨0, maxNrOfSnapshots_pos⟩
    · rw [he]
      exact UInt64.le_refl _
    · change ((Function.update Snapshots.none ⟨0, maxNrOfSnapshots_pos⟩ sampleSnapshot
        idx).valid = true) at hidx
      rw [Function.update_of_ne he] at hidx
      cases hidx
  · have hslot : sampleWorld.slots i = Superblock.encodeToBlk {} := sampleSlots_of_ne hi
    rw [hslot, Superblock.decode_encode] at hsb
    cases hsb
    cases hv

/-- INITIALIZE, a step of an extension, a restart, INITIALIZE and SYNC. -/
theorem sample_loses : ∃ w w' : World, Leads sampleSha sampleWorld w ∧
    Tr sampleSha w .execute w' ∧ w'.ctrl.sb.valid = true ∧ w'.ctrl.sb.snap.valid = false := by
  obtain ⟨c₁, hlead₁, hsb₁, hidx₁, hgen₁, hchan₁, hty₁⟩ :=
    initialize_leads sample_holds rfl .initial
  have hgen₁' : c₁.currGen = 2 := hgen₁
  have hcounts₁ : Counts c₁ := ⟨by rw [hgen₁]; decide, by rw [hchan₁]; decide⟩
  obtain ⟨c₂, hlead₂, hsec₂, hcounts₂, hs₂, hidx₂, hst₂, hcipher₂⟩ :=
    leads_extended sampleWorld hsb₁ hgen₁' hcounts₁ hty₁
  obtain ⟨c₃, hlead₃, habout⟩ := hsec₂.leads_write sampleWorld hcounts₂ hs₂
    (by rw [hst₂]; intro hh; cases hh)
  obtain ⟨w₄, hlead₄ : Leads sampleSha _ _, hw₄⟩ :=
    habout.leads (w := sampleWorld) hsec₂ hcounts₂
  let w₅ : World := { w₄ with ctrl := {} }
  have hholds : Holds sampleSha w₅ ⟨0, nrOfSuperblockSlots_pos⟩ extendedSuperblock
      ⟨0, maxNrOfSnapshots_pos⟩ := by
    have hidx : c₂.sbIdx = ⟨0, nrOfSuperblockSlots_pos⟩ := hidx₂.trans hidx₁
    have hslots : w₅.slots = Function.update sampleWorld.slots ⟨0, nrOfSuperblockSlots_pos⟩
        extendedSuperblock.encodeToBlk := by
      rw [← hidx, ← hcipher₂]
      exact hw₄.slots
    refine extendedSuperblock_holds ?_ (fun j hj => ?_) (hcipher₂ ▸ hw₄.anchor)
    · rw [hslots, Function.update_self]
    · rw [hslots, Function.update_of_ne hj]
      exact sampleSlots_of_ne hj
  obtain ⟨c₆, hlead₆, hsb₆, -, hgen₆, -, hty₆⟩ := initialize_leads hholds rfl .initial
  let c₇ := c₆.submitRequest { type := .sync }
  let w₆ : World := { w₅ with ctrl := c₆ }
  let w₇ : World := { w₆ with ctrl := c₇ }
  have hlead₇ : Leads sampleSha w₆ w₇ := by
    refine Leads.submit ⟨hty₆, fun hh => (by cases hh), .inr ?_⟩
    change c₆.sb.valid = true
    rw [hsb₆]
    rfl
  have hexec : Tr sampleSha w₇ .execute { w₇ with ctrl := c₇.startSync } :=
    .execute (c := c₇.startSync) rfl
  refine ⟨w₇, { w₇ with ctrl := c₇.startSync }, ?_, hexec, ?_, ?_⟩
  · exact hlead₁.trans (hlead₂.trans (hlead₃.trans (hlead₄.trans (Leads.restart.trans
      (hlead₆.trans hlead₇)))))
  · change c₆.sb.valid = true
    rw [hsb₆]
    rfl
  · have hgen₆' : c₆.currGen = 3 := hgen₆
    change ((Function.update (c₆.sb.snapshots.discardDisposableSnapshots
      c₆.sb.lastSecuredGeneration c₆.currGen) c₆.sb.currSnap _) c₆.sb.currSnap).valid = false
    rw [Function.update_self]
    change (c₆.sb.snapshots.discardDisposableSnapshots c₆.sb.lastSecuredGeneration c₆.currGen
      c₆.sb.currSnap).valid = false
    rw [hsb₆, hgen₆']
    rfl

theorem current_snapshot_gets_lost : ¬ ∀ (sha : Block → Hash) (hist : List (World × Event))
    (w : World), Run Deployed (Tr sha) hist w → ∀ t ∈ reached hist w, SnapshotsKept t := by
  intro hall
  obtain ⟨w, w', hlead, hexec, hv, hinv⟩ := sample_loses
  have hstart : Run Deployed (Tr sampleSha) [] sampleWorld := .start sample_deployed
  obtain ⟨hist, hr, -⟩ := hlead.exists_run hstart (by simp)
  have hcurr := (hall _ _ _ (hr.step hexec) w' List.mem_cons_self).current hv
  cases hinv.symm.trans hcurr.valid

/-! ### A run that keeps the current snapshot -/

theorem sampleSha_emptyNodes : sampleSha Vbd.emptyNodes.encodeToBlk = default := by
  have hbytes : ∀ i : Fin 32, Vbd.emptyNodes.encodeToBlk.bytes.getD i 0 = 0 := by decide +kernel
  exact Hash.ext (funext hbytes)

theorem sample_fresh {a : Vbd.CreateArgs} (ht : a.reqType = .writeVba)
    (hs : a.snapshot = sampleSnapshot) (hg : a.currentGen = 2) : Vbd.Fresh sampleSha a where
  type := ht
  pos := by
    rw [hs]
    decide
  buffered := by
    rw [hs]
    decide
  root := hs ▸ sampleSha_emptyNodes
  inner := sampleSha_emptyNodes
  gen := by
    rw [hs, hg]
    decide

/-- A write was worked off: the superblock works on a snapshot of its own. -/
structure Wrote (c c' : Control) : Prop where
  state : c'.sb.state = .normal
  currSnap : c'.sb.currSnap = ⟨1, by decide⟩
  keeps : Keeps c'
  currGen : c'.currGen = 2
  generation : c'.chan.generation = c.chan.generation
  type : c'.chan.request.type = .invalid

/-- A write to a device that was just found. -/
theorem leads_wrote {c : Control} (w : World) (hsb : c.sb = sampleSuperblock)
    (hgen : c.currGen = 2) (hcounts : Counts c) (hty : c.chan.request.type = .invalid) :
    ∃ c', Leads sampleSha { w with ctrl := c } { w with ctrl := c' } ∧ Wrote c c' := by
  obtain ⟨sb, sbIdx, currGen, chan⟩ := c
  subst hsb hgen
  let c := Control.mk sampleSuperblock sbIdx 2 chan
  let c₁ := c.submitRequest { type := .writeVba }
  let c₂ := { c₁ with chan := { c₁.chan with currKeyPlaintext :=
    { c₁.chan.currKeyPlaintext with id := sampleSuperblock.currentKey.id } } }.generate
      .writeVbaAtVbd 0
  have hsubmit : Leads sampleSha { w with ctrl := c } { w with ctrl := c₁ } :=
    Leads.submit (w := { w with ctrl := c }) ⟨hty, fun hh => (by cases hh), .inr rfl⟩
  have hst₁ : Steady c₁ := by
    refine ⟨fun _ hor => ?_, hcounts.currGen, hcounts.generation⟩
    rcases hor with hor | hor | hor
    all_goals cases hor
  have hexec₁ : Leads sampleSha { w with ctrl := c₁ } { w with ctrl := c₂ } :=
    Leads.execute hst₁ rfl
  obtain ⟨vbd, hproc, hdone, hsucc⟩ :=
    (sample_fresh (a := c₂.vbaAccessArgs .writeVba) rfl rfl rfl).processes
      { request := Vbd.Request.create (c₂.vbaAccessArgs .writeVba) }
  obtain ⟨hvalid, hor⟩ := Vbd.rewritten_of_processes rfl hproc
  let a : Answer := {
    success := vbd.request.success
    snapshots := vbd.request.snapshots
    pba := vbd.request.pba
    nrOfPbas := vbd.request.nrOfPbas
    nrOfLeaves := vbd.request.nrOfLeaves }
  let written := vbd.request.snapshots ⟨0, maxNrOfSnapshots_pos⟩
  let c₃ : Control := { c₂ with
    sb := c₂.changeRoots .writeVbaAtVbd a
    chan := { c₂.chan with
      generatedPrim := { c₂.chan.generatedPrim with succ := vbd.request.success }
      state := .done .writeVbaAtVbd
      snapshots := Function.update c₂.chan.snapshots ⟨0, maxNrOfSnapshots_pos⟩ written } }
  let sb₃ : Superblock := { c₃.sb with currSnap := ⟨1, by decide⟩ }
  let c₄ := { c₃ with sb := sb₃.setSnap { written with keep := false } }.complete
    vbd.request.success
  have hs₂ : c₂.chan.state = .pending .writeVbaAtVbd := rfl
  have hanswer : Leads sampleSha { w with ctrl := c₂ } { w with ctrl := c₃ } :=
    Leads.answer (w := { w with ctrl := c₂ }) (a := a) hs₂
      ⟨_, vbd, hproc, hdone, rfl, rfl, rfl, rfl, rfl⟩ hsucc rfl
  have hst₃ : Steady c₃ := hcounts.done rfl rfl rfl
  have hidx : sampleSuperblock.snapshots.idxOfInvalidOrLowestGenEvictableSnap 2 1 =
      some ⟨1, by decide⟩ := by decide +kernel
  have hexec₃ : c₃.execute sampleSha = .ok c₄ := by
    have hlt : c₃.sb.snap.gen < c₃.currGen := by
      change (1 : UInt64) < 2
      decide
    have htake : c₃.takeOverSnapshot = .ok (sb₃.setSnap { written with keep := false }) := by
      have hidx₃ : c₃.sb.snapshots.idxOfInvalidOrLowestGenEvictableSnap c₃.currGen
          c₃.sb.lastSecuredGeneration = some ⟨1, by decide⟩ := hidx
      simp only [Control.takeOverSnapshot, if_pos hlt, hidx₃]
      rfl
    change (do let sb ← c₃.takeOverSnapshot; pure ({ c₃ with sb := sb }.complete _)) = _
    rw [htake]
    rfl
  refine ⟨c₄.dropCompletedRequest, hsubmit.trans (hexec₁.trans (hanswer.trans
    ((Leads.execute hst₃ hexec₃).trans (Leads.drop rfl)))), rfl, rfl, ?_, rfl, rfl, rfl⟩
  change Snapshots.disposable (sb₃.setSnap { written with keep := false }).snap 2 1 = false
  have hsnap : (sb₃.setSnap { written with keep := false }).snap =
      { written with keep := false } := Function.update_self sb₃.currSnap _ sb₃.snapshots
  rw [hsnap, Snapshots.disposable]
  rcases hor with hold | hnew
  · have hgen : written.gen = 1 := hold
    simp [hgen]
  · have hgen : written.gen = 2 := hnew
    simp [hgen]

/-- What a synchronization secures. -/
structure Synced (c : Control) (w : World) : Prop where
  snap : w.secured.snap = { c.sb.snap with gen := c.currGen }
  currSnap : w.secured.currSnap = c.sb.currSnap
  success : w.ctrl.chan.request.success = true

/-- A synchronization. -/
theorem leads_synced {c : Control} (w : World) (hv : c.sb.state = .normal) (hkeeps : Keeps c)
    (hcounts : Counts c) (hnext : c.currGen + 1 ≠ maxGeneration)
    (hty : c.chan.request.type = .invalid) :
    ∃ w', Leads sampleSha { w with ctrl := c } w' ∧ Synced c w' := by
  let c₁ := c.submitRequest { type := .sync }
  have hvalid : c.sb.valid = true := by
    rw [Superblock.valid, hv]
    rfl
  have hsubmit : Leads sampleSha { w with ctrl := c } { w with ctrl := c₁ } :=
    Leads.submit (w := { w with ctrl := c }) ⟨hty, fun hh => (by cases hh), .inr hvalid⟩
  have hst₁ : Steady c₁ := ⟨fun _ _ => hkeeps, hcounts.currGen, hcounts.generation⟩
  have hexec : Leads sampleSha { w with ctrl := c₁ } { w with ctrl := c₁.startSync } :=
    Leads.execute (c := c₁.startSync) hst₁ rfl
  have hsec : Secures c₁.startSync := .inl rfl
  have hrk : c₁.startSync.sb.state ≠ .rekeying := by
    change c.sb.state ≠ .rekeying
    rw [hv]
    intro hh
    cases hh
  have hcounts₁ : Counts c₁.startSync := hcounts.congr rfl rfl
  obtain ⟨c₂, hlead₂ : Leads sampleSha _ _, habout⟩ := hsec.leads_write w hcounts₁ rfl hrk
  obtain ⟨w₃, hlead₃ : Leads sampleSha _ _, hw₃⟩ := habout.leads (w := w) hsec hcounts₁
  have hcounts₃ : Counts w₃.ctrl := by
    constructor
    · rw [hw₃.currGen]
      exact hnext
    · rw [hw₃.generation]
      exact hcounts.currGen
  let c₄ := w₃.ctrl.superblockSecured.markReqSuccessful
  have hexec₃ : w₃.ctrl.execute sampleSha = .ok c₄ := by
    have hty₃ : w₃.ctrl.chan.request.type = .sync := hw₃.type
    simp only [Control.execute, hty₃, Control.executeSync, hw₃.state, Control.checked, hw₃.succ,
      if_true]
    rfl
  have hlead₄ : Leads sampleSha w₃ { w₃ with ctrl := c₄ } :=
    .execute (hcounts₃.done rfl rfl hw₃.state) hexec₃
  have hlead₅ : Leads sampleSha { w₃ with ctrl := c₄ }
      { w₃ with ctrl := c₄.dropCompletedRequest } := .drop rfl
  refine ⟨_, hsubmit.trans (hexec.trans (hlead₂.trans (hlead₃.trans (hlead₄.trans hlead₅)))),
    ?_, ?_, rfl⟩
  · have hdisp : Snapshots.disposable c.sb.snap c.sb.lastSecuredGeneration c.currGen = false :=
      (disposable_comm ..).trans hkeeps
    have hsnap : c.sb.snapshots.discardDisposableSnapshots c.sb.lastSecuredGeneration c.currGen
        c.sb.currSnap = c.sb.snap := discard_of_not_disposable hdisp
    change w₃.secured.snap = _
    rw [hw₃.secured, ← hsnap]
    exact Function.update_self ..
  · change w₃.secured.currSnap = _
    rw [hw₃.secured]
    rfl

/-- INITIALIZE, a write that makes a snapshot of its own, and SYNC. -/
theorem current_snapshot_of_run_sample : ∃ (hist : List (World × Event)) (w : World),
    w.secured.currSnap = ⟨1, by decide⟩ ∧ w.secured.snap.gen = 2 ∧
      w.ctrl.chan.request.success = true ∧ ∀ t ∈ reached hist w, SnapshotsKept t := by
  obtain ⟨c₁, hlead₁, hsb₁, -, hgen₁, hchan₁, hty₁⟩ := initialize_leads sample_holds rfl .initial
  have hcounts₁ : Counts c₁ := ⟨by rw [hgen₁]; decide, by rw [hchan₁]; decide⟩
  obtain ⟨c₂, hlead₂, hc₂⟩ := leads_wrote sampleWorld hsb₁ hgen₁ hcounts₁ hty₁
  have hcounts₂ : Counts c₂ := by
    constructor
    · rw [hc₂.currGen]
      decide
    · rw [hc₂.generation]
      exact hcounts₁.generation
  have hnext : c₂.currGen + 1 ≠ maxGeneration := by
    rw [hc₂.currGen]
    decide
  obtain ⟨w, hlead₃, hw⟩ :=
    leads_synced sampleWorld hc₂.state hc₂.keeps hcounts₂ hnext hc₂.type
  have hstart : Run Deployed (Tr sampleSha) [] sampleWorld := .start sample_deployed
  obtain ⟨hist, hr, hh⟩ := (hlead₁.trans (hlead₂.trans hlead₃)).exists_run hstart (by simp)
  have hgen : w.secured.snap.gen = 2 := by
    rw [hw.snap]
    exact hc₂.currGen
  exact ⟨hist, w, hw.currSnap.trans hc₂.currSnap, hgen, hw.success,
    current_snapshot_of_run hr fun e he => (hh e he).2⟩

end Runs

end Genode.Tresor.SbControl
