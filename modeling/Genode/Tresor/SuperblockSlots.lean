import Genode.Tresor.SuperblockSessions

/-!
# SuperblockSlots — which slot is written

The slots are meant to be written in turn, so that the superblock that was
secured last stays intact until the next one is secured. After a start of
the program, the first superblock goes to the slot of the superblock that
was found.
-/

namespace Genode.Tresor.SbControl

open Genode.Lib

/-- Operations that do not belong to the writing of a superblock. -/
def beforeWrite (op : Op) : Bool :=
  match op with
  | .writeSb => false
  | .syncBlkIo => false
  | .secureSb => false
  | _ => true

/-- A superblock is about to be written to the given slot. -/
def Writes (c : Control) (i : SuperblockIndex) : Prop :=
  c.chan.state = .pending .writeSb ∧ c.chan.generatedPrim.blkNr = UInt64.ofNat i.val

/-- No superblock was written yet, but may be about to be. -/
def Calm (c : Control) : Prop :=
  match c.chan.state with
  | .pending op => beforeWrite op = true ∨ Writes c c.sbIdx
  | .done op => beforeWrite op = true
  | _ => True

/-- What the channel does before it writes a superblock. -/
structure Moves (c c' : Control) : Prop where
  sbIdx : c'.sbIdx = c.sbIdx
  type : c'.chan.request.type = c.chan.request.type
  calm : Calm c'

section Moves

variable {sha : Block → Hash} {c c' : Control} {fail : Control → Exec Control}

/-- A way to take failures that stays with the slot. -/
def FailsCalmly (fail : Control → Exec Control) : Prop :=
  ∀ c c', fail c = .ok c' → Moves c c'

theorem failsCalmly_failing : FailsCalmly Control.failing := by
  intro c c' h
  cases h
  exact ⟨rfl, rfl, trivial⟩

theorem failsCalmly_throwing : FailsCalmly Control.throwing := by
  intro c c' h
  cases h

theorem calm_done {op : Op} (hs : c.chan.state = .done op) (hop : beforeWrite op = true) :
    Calm c := by
  rw [Calm, hs]
  exact hop

theorem Moves.checked (hfail : FailsCalmly fail) {next : Exec Control}
    (h : c.checked fail next = .ok c') (hnext : next = .ok c' → Moves c c') : Moves c c' := by
  unfold Control.checked at h
  split at h
  · exact hnext h
  · exact hfail _ _ h

theorem Moves.startVbaAccess {op : Op} (hop : beforeWrite op = true)
    (h : c.startVbaAccess op = .ok c') : Moves c c' := by
  unfold Control.startVbaAccess at h
  dsimp only at h
  split at h
  · cases h
    exact ⟨rfl, rfl, .inl hop⟩
  · split at h
    · cases h
      exact ⟨rfl, rfl, trivial⟩
    · cases h
      exact ⟨rfl, rfl, .inl hop⟩
  · cases h
    exact ⟨rfl, rfl, .inl hop⟩
  · cases h
    exact ⟨rfl, rfl, .inl hop⟩
  · cases h

theorem Moves.secureSb (hfail : FailsCalmly fail) {op : Op} (hop : beforeWrite op = true)
    (hc : c.chan.state = .done op) (h : c.secureSb sha fail op = .ok c') : Moves c c' := by
  cases op with
  | encryptCurrentKey =>
    refine .checked hfail h fun h => ?_
    split at h
    · cases h
      exact ⟨rfl, rfl, .inl rfl⟩
    · cases h
      exact ⟨rfl, rfl, .inl rfl⟩
  | encryptPreviousKey =>
    refine .checked hfail h fun h => ?_
    cases h
    exact ⟨rfl, rfl, .inl rfl⟩
  | syncCache =>
    refine .checked hfail h fun h => ?_
    cases h
    exact ⟨rfl, rfl, .inr ⟨rfl, rfl⟩⟩
  | writeSb => cases hop
  | syncBlkIo => cases hop
  | secureSb => cases hop
  | _ =>
    cases h
    exact ⟨rfl, rfl, calm_done hc hop⟩

theorem Moves.treeExtStepCompleted {op : Op} (h : c.treeExtStepCompleted op = .ok c') :
    Moves c c' := by
  unfold Control.treeExtStepCompleted at h
  dsimp only at h
  split at h
  · cases h
    exact ⟨rfl, rfl, trivial⟩
  · split at h
    · cases h
      exact ⟨rfl, rfl, trivial⟩
    · obtain ⟨sb, -, h⟩ := Exec.bind_eq_ok.mp h
      split at h
      · cases h
        exact ⟨rfl, rfl, .inl rfl⟩
      · cases h
        exact ⟨rfl, rfl, .inl rfl⟩

theorem Moves.startTreeExtStep {ext : SuperblockState} {op : Op} (hop : beforeWrite op = true)
    (h : c.startTreeExtStep ext op = .ok c') : Moves c c' := by
  unfold Control.startTreeExtStep at h
  dsimp only at h
  split at h
  · cases h
    exact ⟨rfl, rfl, trivial⟩
  · split at h
    · cases h
      exact ⟨rfl, rfl, .inl rfl⟩
    · split at h
      · cases h
        exact ⟨rfl, rfl, .inl hop⟩
      · cases h
        exact ⟨rfl, rfl, trivial⟩

theorem Moves.executeTreeExtStep {ext : SuperblockState} {op : Op} (hop : beforeWrite op = true)
    (hc : Calm c) (h : c.executeTreeExtStep sha ext op = .ok c') : Moves c c' := by
  unfold Control.executeTreeExtStep at h
  split at h
  · exact .startTreeExtStep hop h
  · exact .checked failsCalmly_failing h .treeExtStepCompleted
  · exact .checked failsCalmly_failing h .treeExtStepCompleted
  · rename_i hs
    rw [Calm, hs] at hc
    cases hc
  · rename_i o _ _ _ hs
    rw [Calm, hs] at hc
    exact .secureSb failsCalmly_failing hc hs h
  · cases h
    exact ⟨rfl, rfl, hc⟩

theorem Moves.executeRekeyVba (hc : Calm c) (h : c.executeRekeyVba sha = .ok c') : Moves c c' := by
  unfold Control.executeRekeyVba at h
  split at h
  · split at h
    · cases h
      exact ⟨rfl, rfl, trivial⟩
    · cases h
      exact ⟨rfl, rfl, .inl rfl⟩
  · refine .checked failsCalmly_failing h fun h => ?_
    dsimp only at h
    split at h
    · cases h
      exact ⟨rfl, rfl, .inl rfl⟩
    · cases h
      exact ⟨rfl, rfl, .inl rfl⟩
  · refine .checked failsCalmly_failing h fun h => ?_
    cases h
    exact ⟨rfl, rfl, .inl rfl⟩
  · rename_i hs
    rw [Calm, hs] at hc
    cases hc
  · rename_i o _ _ _ hs
    rw [Calm, hs] at hc
    exact .secureSb failsCalmly_failing hc hs h
  · cases h
    exact ⟨rfl, rfl, hc⟩

theorem Moves.executeInitializeRekeying (hc : Calm c)
    (h : c.executeInitializeRekeying sha = .ok c') : Moves c c' := by
  unfold Control.executeInitializeRekeying at h
  split at h
  · cases h
    exact ⟨rfl, rfl, .inl rfl⟩
  · refine .checked failsCalmly_failing h fun h => ?_
    split at h
    · cases h
      exact ⟨rfl, rfl, trivial⟩
    · cases h
      exact ⟨rfl, rfl, .inl rfl⟩
  · refine .checked failsCalmly_failing h fun h => ?_
    cases h
    exact ⟨rfl, rfl, .inl rfl⟩
  · rename_i hs
    rw [Calm, hs] at hc
    cases hc
  · rename_i o _ _ _ hs
    rw [Calm, hs] at hc
    exact .secureSb failsCalmly_failing hc hs h
  · cases h
    exact ⟨rfl, rfl, hc⟩

theorem Moves.executeSync (hc : Calm c) (h : c.executeSync sha = .ok c') : Moves c c' := by
  unfold Control.executeSync at h
  split at h
  · cases h
    exact ⟨rfl, rfl, .inl rfl⟩
  · rename_i hs
    rw [Calm, hs] at hc
    cases hc
  · rename_i o _ hs
    rw [Calm, hs] at hc
    exact .secureSb failsCalmly_throwing hc hs h
  · cases h
    exact ⟨rfl, rfl, hc⟩

theorem Moves.executeDeinit (hc : Calm c) (h : c.executeDeinit sha = .ok c') :
    Moves c c' := by
  unfold Control.executeDeinit at h
  split at h
  · cases h
    exact ⟨rfl, rfl, .inl rfl⟩
  · rename_i hs
    rw [Calm, hs] at hc
    cases hc
  · refine .checked failsCalmly_throwing h fun h => ?_
    split at h
    · cases h
    · cases h
      exact ⟨rfl, rfl, .inl rfl⟩
    · cases h
      exact ⟨rfl, rfl, trivial⟩
  · refine .checked failsCalmly_throwing h fun h => ?_
    cases h
    exact ⟨rfl, rfl, trivial⟩
  · rename_i o _ _ _ hs
    rw [Calm, hs] at hc
    exact .secureSb failsCalmly_throwing hc hs h
  · cases h
    exact ⟨rfl, rfl, hc⟩

theorem Moves.executeWriteVba (hc : Calm c) (h : c.executeWriteVba = .ok c') : Moves c c' := by
  unfold Control.executeWriteVba at h
  split at h
  · exact .startVbaAccess rfl h
  · obtain ⟨sb, -, h⟩ := Exec.bind_eq_ok.mp h
    cases h
    exact ⟨rfl, rfl, trivial⟩
  · cases h
    exact ⟨rfl, rfl, hc⟩

theorem Moves.executeReadVba (hc : Calm c) (h : c.executeReadVba = .ok c') : Moves c c' := by
  unfold Control.executeReadVba at h
  split at h
  · exact .startVbaAccess rfl h
  · cases h
    exact ⟨rfl, rfl, trivial⟩
  · cases h
    exact ⟨rfl, rfl, hc⟩

/-- A request other than INITIALIZE stays with the slot until it writes. -/
theorem Moves.execute (hty : c.chan.request.type ≠ .init) (hc : Calm c)
    (h : c.execute sha = .ok c') : Moves c c' := by
  unfold Control.execute at h
  split at h
  · exact .executeReadVba hc h
  · exact .executeWriteVba hc h
  · exact .executeSync hc h
  · exact .executeInitializeRekeying hc h
  · exact .executeRekeyVba hc h
  · exact .executeTreeExtStep rfl hc h
  · exact .executeTreeExtStep rfl hc h
  · cases h
  · cases h
  · rename_i ht
    exact absurd ht hty
  · exact .executeDeinit hc h
  · cases h
    exact ⟨rfl, rfl, hc⟩

end Moves

/-! ## The answers of the other modules -/

section Completion

variable {c c' : Control} {op : Op} {a : Answer} {w w' : World}

/-- What an answer leaves as it is. -/
structure AnswerKeeps (op : Op) (a : Answer) (c c' : Control) : Prop where
  sbIdx : c'.sbIdx = c.sbIdx
  state : c'.chan.state = .done op
  sb : c'.sb = c.changeRoots op a
  currGen : c'.currGen = c.currGen
  type : c'.chan.request.type = c.chan.request.type
  succ : c'.chan.generatedPrim.succ = a.success
  chanSbIdx : c'.chan.sbIdx = c.chan.sbIdx
  sbFound : c'.chan.sbFound = c.chan.sbFound
  readSbIdx : c'.chan.readSbIdx = c.chan.readSbIdx
  generation : c'.chan.generation = c.chan.generation

theorem answerKeeps (h : c.generatedRequestComplete op a = .ok c') : AnswerKeeps op a c c' := by
  unfold Control.generatedRequestComplete at h
  cases op with
  | readSb =>
    obtain ⟨sb, -, h⟩ := Exec.bind_eq_ok.mp h
    cases h
    constructor <;> rfl
  | readCurrentSb =>
    obtain ⟨sb, -, h⟩ := Exec.bind_eq_ok.mp h
    cases h
    constructor <;> rfl
  | _ =>
    cases h
    constructor <;> rfl

theorem changeRoots_state (c : Control) (op : Op) (a : Answer) :
    (c.changeRoots op a).state = c.sb.state := by
  cases op <;> rfl

theorem hash_of_answer (h : c.generatedRequestComplete op a = .ok c') (hop : op ≠ .maxSbHash) :
    c'.chan.hash = c.chan.hash := by
  unfold Control.generatedRequestComplete at h
  cases op with
  | maxSbHash => exact absurd rfl hop
  | readSb =>
    obtain ⟨sb, -, h⟩ := Exec.bind_eq_ok.mp h
    cases h
    rfl
  | readCurrentSb =>
    obtain ⟨sb, -, h⟩ := Exec.bind_eq_ok.mp h
    cases h
    rfl
  | _ =>
    cases h
    rfl

/-- Before a superblock is written, nothing happens to what outlives the
program. -/
theorem Performs.eq_of_beforeWrite (hop : beforeWrite op = true)
    (hp : Performs w (w.ctrl.peekGeneratedRequest op) a w') : w' = w := by
  cases hp with
  | failed h => rfl
  | performed h => cases op <;> first | rfl | cases hop

end Completion

/-! ## Initialization -/

section Init

variable {sha : Block → Hash} {slots : SuperblockIndex → Block} {anchor : Hash} {c c' : Control}

/-- The slot that the channel has in mind is the one that was secured. -/
def SlotFound (sha : Block → Hash) (slots : SuperblockIndex → Block) (anchor : Hash)
    (c : Control) : Prop := sha (slots c.chan.sbIdx) = anchor

/-- The channel goes through the slots. -/
def Searching (sha : Block → Hash) (slots : SuperblockIndex → Block) (anchor : Hash)
    (c : Control) : Prop :=
  c.chan.hash = anchor ∧ (c.chan.sbFound = true → SlotFound sha slots anchor c)

/-- The operations of INITIALIZE after the search. -/
def afterSearch (op : Op) : Bool :=
  match op with
  | .readCurrentSb => true
  | .decryptCurrentKey => true
  | .addCurrentKeyAtCryptoModule => true
  | .decryptPreviousKey => true
  | .addPreviousKeyAtCryptoModule => true
  | _ => false

/-- What INITIALIZE knows at a state of the channel. -/
def InitKnows (sha : Block → Hash) (slots : SuperblockIndex → Block) (anchor : Hash)
    (c : Control) : Prop :=
  match c.chan.state with
  | .submitted => True
  | .completed => True
  | .pending .maxSbHash => c.chan.sbFound = false
  | .done .maxSbHash => c.chan.sbFound = false ∧ c.chan.hash = anchor
  | .pending .readSb => Searching sha slots anchor c ∧
      c.chan.generatedPrim.blkNr = UInt64.ofNat c.chan.readSbIdx.val
  | .done .readSb => Searching sha slots anchor c ∧
      (c.chan.generatedPrim.succ = true → c.chan.encodedBlk = slots c.chan.readSbIdx)
  | .pending op => afterSearch op = true ∧ SlotFound sha slots anchor c
  | .done op => afterSearch op = true ∧ SlotFound sha slots anchor c

/-- A slot with the hash that was secured is remembered. -/
theorem Searching.checkSlot (h : Searching sha slots anchor c)
    (hblk : c.chan.encodedBlk = slots c.chan.readSbIdx) (hc : c.checkSlot sha = .ok c') :
    Searching sha slots anchor c' ∧ c'.sb = c.sb ∧ c'.sbIdx = c.sbIdx ∧
      c'.chan.request.type = c.chan.request.type := by
  unfold Control.checkSlot at hc
  dsimp only at hc
  split at hc
  · cases hc
    exact ⟨h, rfl, rfl, rfl⟩
  · split at hc
    · cases hc
    · split at hc
      · rename_i hsha
        cases hc
        rw [hblk, h.1] at hsha
        exact ⟨⟨h.1, fun _ => hsha⟩, rfl, rfl, rfl⟩
      · cases hc
        exact ⟨h, rfl, rfl, rfl⟩

/-- What a step of INITIALIZE brings about. -/
structure InitMoves (sha : Block → Hash) (slots : SuperblockIndex → Block) (anchor : Hash)
    (c c' : Control) : Prop where
  knows : InitKnows sha slots anchor c'
  type : c'.chan.request.type = c.chan.request.type
  slot : (c'.sb = c.sb ∧ c'.sbIdx = c.sbIdx) ∨ sha (slots c'.sbIdx) = anchor

theorem InitMoves.checked (h : c.checked Control.throwing next = .ok c')
    (hnext : c.chan.generatedPrim.succ = true → next = .ok c' → InitMoves sha slots anchor c c') :
    InitMoves sha slots anchor c c' := by
  unfold Control.checked at h
  split at h
  · rename_i hs
    exact hnext hs h
  · cases h

theorem InitMoves.executeInitialize (hk : InitKnows sha slots anchor c)
    (h : c.executeInitialize sha = .ok c') : InitMoves sha slots anchor c c' := by
  unfold Control.executeInitialize at h
  unfold InitKnows at hk
  split at h
  · cases h
    exact ⟨rfl, rfl, .inl ⟨rfl, rfl⟩⟩
  · rename_i hs
    rw [hs] at hk
    cases h
    refine ⟨⟨⟨hk.2, fun hf => ?_⟩, rfl⟩, rfl, .inl ⟨rfl, rfl⟩⟩
    have hnot : c.chan.sbFound = true := hf
    rw [hk.1] at hnot
    cases hnot
  · rename_i hs
    rw [hs] at hk
    refine .checked h fun hsucc h => ?_
    obtain ⟨c₁, hc₁, h⟩ := Exec.bind_eq_ok.mp h
    obtain ⟨hsearch, hsb, hidx, hty⟩ := hk.1.checkSlot (hk.2 hsucc) hc₁
    split at h
    · cases h
      exact ⟨⟨hsearch, rfl⟩, hty, .inl ⟨hsb, hidx⟩⟩
    · obtain ⟨u, hf, h⟩ := Exec.bind_eq_ok.mp h
      cases h
      exact ⟨⟨rfl, hsearch.2 (Exec.assert_eq_ok.mp hf)⟩, hty, .inl ⟨hsb, hidx⟩⟩
  · rename_i hs
    rw [hs] at hk
    refine .checked h fun hsucc h => ?_
    cases h
    exact ⟨⟨rfl, hk.2⟩, rfl, .inl ⟨rfl, rfl⟩⟩
  · rename_i hs
    rw [hs] at hk
    refine .checked h fun hsucc h => ?_
    cases h
    exact ⟨⟨rfl, hk.2⟩, rfl, .inl ⟨rfl, rfl⟩⟩
  · rename_i hs
    rw [hs] at hk
    refine .checked h fun hsucc h => ?_
    split at h
    · cases h
    · cases h
      exact ⟨⟨rfl, hk.2⟩, rfl, .inl ⟨rfl, rfl⟩⟩
    · obtain ⟨u, hf, h⟩ := Exec.bind_eq_ok.mp h
      cases h
      exact ⟨trivial, rfl, .inr hk.2⟩
  · rename_i hs
    rw [hs] at hk
    refine .checked h fun hsucc h => ?_
    cases h
    exact ⟨⟨rfl, hk.2⟩, rfl, .inl ⟨rfl, rfl⟩⟩
  · rename_i hs
    rw [hs] at hk
    refine .checked h fun hsucc h => ?_
    cases h
    exact ⟨trivial, rfl, .inr hk.2⟩
  · cases h
    exact ⟨hk, rfl, .inl ⟨rfl, rfl⟩⟩

theorem InitMoves.answer {op : Op} {a : Answer} {w : World} (hk : InitKnows sha w.slots w.anchor w.ctrl)
    (hs : w.ctrl.chan.state = .pending op) (ha : Answers sha w (w.ctrl.peekGeneratedRequest op) a)
    (hhash : op = .maxSbHash → a.success = true)
    (h : w.ctrl.generatedRequestComplete op a = .ok c') : InitKnows sha w.slots w.anchor c' := by
  have hkeep := answerKeeps h
  have hsearch : Searching sha w.slots w.anchor w.ctrl → op ≠ .maxSbHash →
      Searching sha w.slots w.anchor c' := by
    intro ⟨hh, hf⟩ hop
    rw [Searching, SlotFound, hash_of_answer h hop, hkeep.sbFound, hkeep.chanSbIdx]
    exact ⟨hh, hf⟩
  have hfound : SlotFound sha w.slots w.anchor w.ctrl → SlotFound sha w.slots w.anchor c' := by
    intro hf
    rw [SlotFound, hkeep.chanSbIdx]
    exact hf
  unfold InitKnows at hk ⊢
  rw [hs] at hk
  rw [hkeep.state]
  cases op with
  | maxSbHash =>
    cases h
    exact ⟨hk, ha (hhash rfl)⟩
  | readSb =>
    refine ⟨hsearch hk.1 (by decide), fun hsucc => ?_⟩
    rw [hkeep.succ] at hsucc
    obtain ⟨i, hi, hblk⟩ := ha hsucc
    obtain ⟨sb, -, h⟩ := Exec.bind_eq_ok.mp h
    cases h
    have heq : UInt64.ofNat i.val = UInt64.ofNat w.ctrl.chan.readSbIdx.val := hi.symm.trans hk.2
    rw [slot_ofNat_inj heq] at hblk
    exact hblk
  | readCurrentSb => exact ⟨rfl, hfound hk.2⟩
  | decryptCurrentKey => exact ⟨rfl, hfound hk.2⟩
  | addCurrentKeyAtCryptoModule => exact ⟨rfl, hfound hk.2⟩
  | decryptPreviousKey => exact ⟨rfl, hfound hk.2⟩
  | addPreviousKeyAtCryptoModule => exact ⟨rfl, hfound hk.2⟩
  | _ => cases hk.1

end Init

/-! ## Runs -/

section Runs

variable {sha : Block → Hash} {w w' : World}

/-- No superblock was written since the start of the program: its slot is the
one of the superblock that was secured last. -/
structure Unwritten (sha : Block → Hash) (w : World) : Prop where
  slot : (w.ctrl.sb.valid = true ∨ (w.ctrl.chan.request.type ≠ .init ∧
    w.ctrl.chan.request.type ≠ .invalid)) → sha (w.slots w.ctrl.sbIdx) = w.anchor
  init : w.ctrl.chan.request.type = .init → InitKnows sha w.slots w.anchor w.ctrl
  work : w.ctrl.chan.request.type ≠ .init → Calm w.ctrl
  idle : w.ctrl.chan.request.type = .invalid → ∀ op, w.ctrl.chan.state ≠ .pending op

/-- The program has just been started. -/
def Started (w : World) : Prop := w.ctrl = {}

theorem Unwritten.started (h : w.ctrl = {}) : Unwritten sha w := by
  constructor
  · rw [h]
    rintro (hv | ⟨-, hty⟩)
    · cases hv
    · exact absurd rfl hty
  · rw [h]
    intro hty
    cases hty
  · rw [h]
    intro _
    trivial
  · rw [h]
    intro _ op hs
    cases hs

/-- A superblock is about to be written. -/
def Writing (w : World) : Prop := w.ctrl.chan.state = .pending .writeSb

theorem Unwritten.submit {req : Request} (h : Unwritten sha w) (hm : MaySubmit w req) :
    Unwritten sha { w with ctrl := w.ctrl.submitRequest req } := by
  obtain ⟨hfree, hne, hor⟩ := hm
  refine ⟨?_, fun _ => trivial, fun _ => trivial, fun hty => absurd hty hne⟩
  rintro (hv | ⟨hty, -⟩)
  · exact h.slot (.inl hv)
  · rcases hor with hinit | hv
    · exact absurd hinit hty
    · exact h.slot (.inl hv)

theorem Unwritten.execute {c : Control} (h : Unwritten sha w) (he : w.ctrl.execute sha = .ok c) :
    Unwritten sha { w with ctrl := c } := by
  by_cases hty : w.ctrl.chan.request.type = .init
  · have he' : w.ctrl.executeInitialize sha = .ok c := by
      simpa only [Control.execute, hty] using he
    obtain ⟨hknows, htype, hslot⟩ := InitMoves.executeInitialize (h.init hty) he'
    rw [hty] at htype
    refine ⟨?_, fun _ => hknows, fun hne => absurd htype hne, fun hinv => ?_⟩
    rotate_left
    · cases htype.symm.trans hinv
    rintro (hv | ⟨hne, -⟩)
    · rcases hslot with ⟨hsb, hidx⟩ | hslot
      · change sha (w.slots c.sbIdx) = w.anchor
        change c.sb.valid = true at hv
        rw [hsb] at hv
        rw [hidx]
        exact h.slot (.inl hv)
      · exact hslot
    · exact absurd htype hne
  · obtain ⟨hidx, htype, hcalm⟩ := Moves.execute hty (h.work hty) he
    by_cases hne : w.ctrl.chan.request.type = .invalid
    · simp only [Control.execute, hne] at he
      cases he
      exact h
    · refine ⟨fun _ => ?_, fun hinit => absurd (htype.symm.trans hinit) hty, fun _ => hcalm,
        fun hinv => absurd (htype.symm.trans hinv) hne⟩
      change sha (w.slots c.sbIdx) = w.anchor
      rw [hidx]
      exact h.slot (.inr ⟨hty, hne⟩)

theorem Unwritten.answer {op : Op} {a : Answer} {c : Control} (h : Unwritten sha w)
    (hn : ¬ Writing w)
    (hh : TellsHash (.answer op a)) (hs : w.ctrl.chan.state = .pending op)
    (ha : Answers sha w (w.ctrl.peekGeneratedRequest op) a)
    (hp : Performs w (w.ctrl.peekGeneratedRequest op) a w')
    (he : w.ctrl.generatedRequestComplete op a = .ok c) :
    Unwritten sha { w' with ctrl := c } := by
  have hkeep := answerKeeps he
  have hop : beforeWrite op = true := by
    by_cases hty : w.ctrl.chan.request.type = .init
    · have hk := h.init hty
      rw [InitKnows, hs] at hk
      cases op with
      | writeSb => cases hk.1
      | syncBlkIo => cases hk.1
      | secureSb => cases hk.1
      | _ => rfl
    · have hc := h.work hty
      rw [Calm, hs] at hc
      rcases hc with hop | hw
      · exact hop
      · exact absurd hw.1 hn
  have hw := hp.eq_of_beforeWrite hop
  rw [hw]
  refine ⟨?_, ?_, ?_, ?_⟩
  · intro hor
    change sha (w.slots c.sbIdx) = w.anchor
    rw [hkeep.sbIdx]
    apply h.slot
    rcases hor with hv | hty
    · left
      change c.sb.valid = true at hv
      rw [hkeep.sb] at hv
      rwa [Superblock.valid, changeRoots_state] at hv
    · right
      change c.chan.request.type ≠ .init ∧ c.chan.request.type ≠ .invalid at hty
      rwa [hkeep.type] at hty
  · intro hty
    change c.chan.request.type = .init at hty
    rw [hkeep.type] at hty
    apply InitMoves.answer (h.init hty) hs ha _ he
    intro hmax
    exact hh a (by rw [hmax])
  · intro _
    exact calm_done hkeep.state hop
  · intro hinv
    change c.chan.request.type = .invalid at hinv
    rw [hkeep.type] at hinv
    exact absurd hs (h.idle hinv op)

/-- As long as no superblock is written, the slot stays that of the superblock
that was secured last. -/
theorem Unwritten.step {ev : Event} (h : Unwritten sha w) (hs : Tr sha w ev w')
    (hn : ¬ Writing w) (hh : TellsHash ev) : Unwritten sha w' := by
  cases hs with
  | submit hm => exact h.submit hm
  | execute he => exact h.execute he
  | answer hs ha hp he => exact h.answer hn hh hs ha hp he
  | drop hs =>
    have hstate : w.ctrl.dropCompletedRequest.chan.state = .completed := hs
    refine ⟨?_, fun hty => (by cases hty), fun _ => ?_, fun _ op hp => ?_⟩
    · rintro (hv | ⟨-, hty⟩)
      · exact h.slot (.inl hv)
      · exact absurd rfl hty
    · change Calm w.ctrl.dropCompletedRequest
      rw [Calm, hstate]
      trivial
    · cases hstate.symm.trans hp
  | restart => exact .started rfl

/-- The superblock that is about to be written does not go to the slot of the
one that was secured last. -/
def SparesSecured (sha : Block → Hash) (w : World) : Prop :=
  ∀ i, Writes w.ctrl i → sha (w.slots i) ≠ w.anchor

/-- The slot that is about to be written is the one that must not be. -/
theorem Unwritten.not_sparesSecured (h : Unwritten sha w) (hs : Writing w) : ¬ SparesSecured sha w := by
  have hty : w.ctrl.chan.request.type ≠ .init := by
    intro hty
    have hk := h.init hty
    rw [InitKnows, hs] at hk
    cases hk.1
  have hcalm := h.work hty
  rw [Calm, hs] at hcalm
  rcases hcalm with hop | hw
  · cases hop
  · intro hall
    exact hall _ hw (h.slot (.inr ⟨hty, fun hinv => h.idle hinv _ hs⟩))

/-- As long as the secured superblock is spared, no superblock is written. -/
theorem Unwritten.of_run {hist : List (World × Event)} (h : Run Started (Tr sha) hist w)
    (hh : ∀ e ∈ hist, TellsHash e.2) (hs : ∀ t ∈ reached hist w, SparesSecured sha t) :
    Unwritten sha w ∧ ∀ t ∈ reached hist w, ¬ Writing t := by
  induction h with
  | start hstart =>
    refine ⟨.started hstart, fun t ht hw => ?_⟩
    rw [reached, List.map_nil, List.mem_singleton] at ht
    rw [ht, Writing, hstart] at hw
    cases hw
  | step hr ht ih =>
    rw [List.forall_mem_cons] at hh
    obtain ⟨hs', hs⟩ := Run.forall_reached_cons.mp hs
    obtain ⟨hu, hn⟩ := ih hh.2 hs
    have hu' := hu.step ht (hn _ List.mem_cons_self) hh.1
    exact ⟨hu', Run.forall_reached_cons.mpr ⟨fun hw => hu'.not_sparesSecured hw hs', hn⟩⟩

/-- The secured superblock is spared in the runs that write no superblock at
all, and, if the trust anchor tells its hash, in no others. -/
theorem superblock_write_spares_secured_iff {hist : List (World × Event)}
    (h : Run Started (Tr sha) hist w) :
    ((∀ t ∈ reached hist w, ¬ Writing t) → ∀ t ∈ reached hist w, SparesSecured sha t) ∧
      ((∀ e ∈ hist, TellsHash e.2) → (∀ t ∈ reached hist w, SparesSecured sha t) →
        ∀ t ∈ reached hist w, ¬ Writing t) :=
  ⟨fun hn t ht _ hw => absurd hw.1 (hn t ht), fun hh hs => (Unwritten.of_run h hh hs).2⟩

/-- The device is set up, the program finds its superblock and synchronizes. -/
theorem sample_writes : ∃ (hist : List (World × Event)) (w : World),
    Run Started (Tr sampleSha) hist w ∧ (∀ e ∈ hist, TellsHash e.2) ∧ Writing w := by
  obtain ⟨c₁, hlead₁, hsb, -, hgen, hchan, hty⟩ := initialize_leads sample_holds rfl .initial
  have hcounts : Counts c₁ := ⟨by rw [hgen]; decide, by rw [hchan]; decide⟩
  let c₂ := c₁.submitRequest { type := .sync }
  have hvalid : c₁.sb.valid = true := by
    rw [hsb]
    rfl
  have hlead₂ : Leads sampleSha { sampleWorld with ctrl := c₁ } { sampleWorld with ctrl := c₂ } :=
    Leads.submit (w := { sampleWorld with ctrl := c₁ }) ⟨hty, by decide, .inr hvalid⟩
  have hst : Steady c₂ := by
    refine ⟨fun _ _ => ?_, hcounts.currGen, hcounts.generation⟩
    change Snapshots.disposable c₁.sb.snap c₁.currGen c₁.sb.lastSecuredGeneration = false
    rw [hsb, hgen]
    rfl
  have hlead₃ : Leads sampleSha { sampleWorld with ctrl := c₂ }
      { sampleWorld with ctrl := c₂.startSync } :=
    Leads.execute (c := c₂.startSync) hst rfl
  have hsec : Secures c₂.startSync := .inl rfl
  have hrk : c₂.startSync.sb.state ≠ .rekeying := by
    change c₁.sb.state ≠ .rekeying
    rw [hsb]
    decide
  obtain ⟨c₃, hlead₄, hc₃⟩ :=
    hsec.leads_write sampleWorld (hcounts.congr rfl rfl) rfl hrk
  have hstart : Run Started (Tr sampleSha) [] sampleWorld := .start rfl
  obtain ⟨hist, hr, hh⟩ := (hlead₁.trans (hlead₂.trans (hlead₃.trans hlead₄))).exists_run
    hstart (by simp)
  exact ⟨hist, _, hr, fun e he => (hh e he).1, hc₃.state⟩

theorem superblock_write_hits_secured : ¬ ∀ (sha : Block → Hash) (hist : List (World × Event))
    (w : World), Run Started (Tr sha) hist w → ∀ t ∈ reached hist w, SparesSecured sha t := by
  intro hall
  obtain ⟨hist, w, hr, hh, hw⟩ := sample_writes
  exact (Unwritten.of_run hr hh (hall _ _ _ hr)).2 w List.mem_cons_self hw

theorem superblock_write_spares_secured_iff_sample : ∃ (hist : List (World × Event)) (w : World),
    Run Started (Tr sampleSha) hist w ∧ ¬ ∀ t ∈ reached hist w, SparesSecured sampleSha t := by
  obtain ⟨hist, w, hr, hh, hw⟩ := sample_writes
  exact ⟨hist, w, hr, fun hs =>
    (superblock_write_spares_secured_iff hr).2 hh hs w List.mem_cons_self hw⟩

end Runs

end Genode.Tresor.SbControl
