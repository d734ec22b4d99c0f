import Genode.Lib.Run
import Genode.Tresor.CryptoKeys
import Genode.Tresor.SuperblockSessions

/-!
# CryptoKeysRuns — the registered keys over whole runs

The keys of the superblock are registered between any two requests of a run
whose steps meet a condition: the previous key of a superblock that is found in
the middle of a re-encryption is not added under another id, a new key can be
added, and only such a superblock is deinitialized.
-/

namespace Genode.Tresor.SbControl

open Genode.Lib

section Answering

variable {sha : Block → Hash} {w w' : KeyWorld} {c c' : Control} {dirs dirs' : KeyDirs} {op : Op}
  {a : Answer} {r : GeneratedRequest}

theorem Registers.eq (hp : Registers dirs r a dirs') (ha : ∀ key, r ≠ .addKey key)
    (hr : ∀ id, r ≠ .removeKey id) : dirs' = dirs := by
  cases hp with
  | added h => exact absurd h (ha _)
  | removed h => exact absurd h (hr _)
  | failed => rfl
  | other => rfl

theorem Registers.of_add {key : Key} (hp : Registers dirs (.addKey key) a dirs')
    (hs : a.success = true) : key.id ≠ invalidKeyId ∧ dirs.addKey key.id = some dirs' := by
  cases hp with
  | added h _ hne hd =>
    cases h
    exact ⟨hne, hd⟩
  | removed h => cases h
  | failed h => cases h.symm.trans hs
  | other h => exact absurd rfl (h key)

theorem Registers.of_remove {id : KeyId} (hp : Registers dirs (.removeKey id) a dirs') :
    if a.success then dirs.removeKey id = some dirs' else dirs' = dirs := by
  cases hp with
  | added h => cases h
  | removed h hs _ hd =>
    cases h
    rw [if_pos hs]
    exact hd
  | failed h =>
    rw [h]
    rfl
  | other _ h => exact absurd rfl (h id)

theorem right_changeRoots (c : Control) (op : Op) (a : Answer) :
    Right (c.changeRoots op a) dirs ↔ Right c.sb dirs := by
  cases op <;> exact Iff.rfl

/-- What is registered when another module has answered. -/
theorem leaves_of_answer (h : Expects c dirs op) (hs : c.chan.state = .pending op)
    (hp : Registers dirs (c.peekGeneratedRequest op) a dirs')
    (hadd : op = .addKeyAtCryptoModule → a.success = true)
    (he : c.generatedRequestComplete op a = .ok c') : Leaves c' dirs' op := by
  have hkeep := answerKeeps he
  have hsame : (∀ key, c.peekGeneratedRequest op ≠ .addKey key) →
      (∀ id, c.peekGeneratedRequest op ≠ .removeKey id) → dirs' = dirs := hp.eq
  have hright : Right c.sb dirs → Right c'.sb dirs := by
    intro hr
    rw [hkeep.sb]
    exact (right_changeRoots c op a).mpr hr
  cases op with
  | addCurrentKeyAtCryptoModule =>
    obtain ⟨hempty, hid⟩ := h
    intro hsucc
    rw [hkeep.succ] at hsucc
    obtain ⟨hne, hd⟩ := hp.of_add hsucc
    rw [hid] at hne hd
    cases he
    exact hempty.add hne hd
  | decryptPreviousKey =>
    rw [hsame (fun _ hh => by cases hh) fun _ hh => by cases hh]
    obtain ⟨h₁, h₂⟩ := h
    cases he
    exact ⟨h₁, h₂⟩
  | addPreviousKeyAtCryptoModule =>
    obtain ⟨hsingle, hstate, hid⟩ := h
    intro hsucc
    rw [hkeep.succ] at hsucc
    obtain ⟨hne, hd⟩ := hp.of_add hsucc
    have hid := hid hne
    rw [hid] at hne hd
    cases he
    exact ⟨(hsingle.add hne hd).symm, hstate⟩
  | addKeyAtCryptoModule =>
    obtain ⟨hsingle, hstate, hid⟩ := h
    obtain ⟨hne, hd⟩ := hp.of_add (hadd rfl)
    rw [hid] at hne hd
    cases he
    exact (right_rekeying hstate).mpr (hsingle.add hne hd)
  | rekeyVbaInVbd =>
    rw [hsame (fun _ hh => by cases hh) fun _ hh => by cases hh]
    refine ⟨hright h.1, ?_⟩
    rw [hkeep.sb, changeRoots_state]
    exact h.2
  | removePreviousKeyAtCryptoModule =>
    obtain ⟨hstate, hid, hor⟩ := h
    have hd := hp.of_remove
    rw [hid] at hd
    have hsucc := hkeep.succ
    cases he
    refine ⟨hstate, ?_⟩
    rcases hor with ⟨hty, hr⟩ | ⟨hty, hsingle⟩
    · refine .inl ⟨hty, ?_⟩
      rw [hsucc]
      split
      · rename_i hs
        rw [if_pos hs] at hd
        exact ((right_rekeying hstate).mp hr).remove hd
      · rename_i hs
        rw [if_neg hs] at hd
        rw [hd]
        exact hr
    · refine .inr ⟨hty, fun hs => ?_⟩
      rw [hsucc] at hs
      rw [if_pos hs] at hd
      exact hsingle.remove hd
  | removeCurrentKeyAtCryptoModule =>
    obtain ⟨hr, hstate, hid⟩ := h
    have hd := hp.of_remove
    rw [hid] at hd
    have hsucc := hkeep.succ
    cases he
    refine ⟨hstate, fun hs => ?_⟩
    rw [hsucc] at hs
    rw [if_pos hs] at hd
    exact ((right_rekeying hstate).mp hr).symm.remove hd
  | vbdExtStepInVbd =>
    rw [hsame (fun _ hh => by cases hh) fun _ hh => by cases hh]
    obtain ⟨h₁, h₂⟩ := h
    cases he
    exact ⟨h₁, h₂⟩
  | ftExtStepInFt =>
    rw [hsame (fun _ hh => by cases hh) fun _ hh => by cases hh]
    obtain ⟨h₁, h₂⟩ := h
    cases he
    exact ⟨h₁, h₂⟩
  | _ =>
    rw [hsame (fun _ hh => by cases hh) fun _ hh => by cases hh]
    exact hright h

end Answering

/-! ## Runs -/

section Runs

variable {sha : Block → Hash} {w w' : KeyWorld}

/-- The program has just been started. -/
def KeysInitial (w : KeyWorld) : Prop := w = {}

/-- The condition on a step. -/
def RegistersRight (w : KeyWorld) (ev : Event) : Prop :=
  match ev with
  | .submit req => req.type = .init → w.ctrl.sb.valid = false
  | .execute => KeyIdsFit w.ctrl
  | .answer op a => op = .addKeyAtCryptoModule → a.success = true
  | _ => True

/-- The invariant of the runs. -/
def KeysTracked (w : KeyWorld) : Prop := Tracks w.ctrl w.dirs

theorem KeysTracked.initial : KeysTracked {} := by
  refine ⟨?_, fun hty => (by cases hty), fun hty => (by cases hty), fun _ => .inl rfl⟩
  exact ⟨rfl, rfl⟩

/-- Between two requests, the keys are those of the superblock. -/
theorem KeysTracked.right (h : KeysTracked w) (hq : Quiet w.ctrl) : Right w.ctrl.sb w.dirs := by
  have hr := h.registered
  have hstate : w.ctrl.chan.state = .submitted ∨ w.ctrl.chan.state = .completed := by
    rcases hq with hq | hq
    · exact h.idle hq
    · exact .inr hq
  rcases hstate with hs | hs
  · rwa [Registered, hs] at hr
  · rwa [Registered, hs] at hr

theorem registered_of_right {sb : Superblock} {dirs : KeyDirs} (h : Right sb dirs) :
    dirs.registered = keysOf sb := by
  unfold Right at h
  unfold keysOf
  split
  · rename_i hs
    rw [hs] at h
    exact h.registered_eq
  · rename_i hs
    rw [hs] at h
    exact h.registered_eq
  · rename_i hs hs'
    split at h
    · rename_i he
      exact absurd he hs
    · rename_i he
      exact absurd he hs'
    · exact h.registered_eq

theorem KeysTracked.keysRight (h : KeysTracked w) : KeysRight w := by
  refine ⟨fun hq => registered_of_right (h.right hq), fun hty hs _ => ?_⟩
  have hd := h.deinit hty (by rw [hs]; intro hh; cases hh)
  rw [if_pos hs] at hd
  rw [Superblock.valid, hd]
  rfl

theorem KeysTracked.step {ev : Event} (h : KeysTracked w) (hs : KeyTr sha w ev w')
    (hc : RegistersRight w ev) : KeysTracked w' := by
  cases hs with
  | submit hfree hne =>
    refine ⟨h.right (.inl hfree), fun hty _ => ?_, fun _ hs => absurd rfl hs,
      fun hty => absurd hty hne⟩
    have hv := hc hty
    rw [Superblock.valid, decide_eq_false_iff_not, not_not] at hv
    exact hv
  | execute he => exact h.execute hc he
  | @answer op a c dirs hs hp he =>
    have hkeep := answerKeeps he
    have hne : w.ctrl.chan.state ≠ .completed := by rw [hs]; intro hh; cases hh
    have hne' : w.ctrl.chan.state ≠ .submitted := by rw [hs]; intro hh; cases hh
    have hr := h.registered
    rw [Registered, hs] at hr
    have hleaves := leaves_of_answer hr hs hp hc he
    refine ⟨?_, fun hty _ => ?_, fun hty _ => ?_, fun hty => ?_⟩
    · change Registered c dirs
      rw [Registered, hkeep.state]
      exact hleaves
    · have hstate := h.init (hkeep.type.symm.trans hty) hne
      change c.sb.state = .invalid
      rw [hkeep.sb, changeRoots_state, hstate]
    · have hd := h.deinit (hkeep.type.symm.trans hty) hne'
      rw [if_neg hne] at hd
      change if c.chan.state = .completed then c.sb.state = .invalid else c.sb.state = .rekeying
      rw [hkeep.state, if_neg (fun hh => by cases hh), hkeep.sb, changeRoots_state, hd]
    · rcases h.idle (hkeep.type.symm.trans hty) with hs' | hs'
      · exact absurd hs' hne'
      · exact absurd hs' hne
  | drop hs =>
    have hs' : w.ctrl.dropCompletedRequest.chan.state = .completed := hs
    refine ⟨?_, fun hty => (by cases hty), fun hty => (by cases hty), fun _ => .inr hs⟩
    change Registered w.ctrl.dropCompletedRequest w.dirs
    rw [Registered, hs']
    exact h.right (.inr hs)
  | restart => exact .initial

/-- In a run whose steps all meet the condition, the keys of the superblock are
the registered ones whenever no request is in progress. -/
theorem keys_registered_of_run {hist : List (KeyWorld × Event)}
    (h : Run KeysInitial (KeyTr sha) hist w) (hc : ∀ e ∈ hist, RegistersRight e.1 e.2) :
    ∀ t ∈ reached hist w, KeysRight t :=
  Run.forall_reached_of (C := RegistersRight)
    (fun _ hi => hi ▸ KeysTracked.initial) (fun _ _ _ hi ht hc => hi.step ht hc)
    (fun _ hi => hi.keysRight) h hc

end Runs

/-! ## Sessions with a superblock -/

section Sample

variable {c c' c₀ : Control} {dirs dirs' : KeyDirs} {w w' : KeyWorld} {i : SuperblockIndex}
  {C : KeyWorld → Event → Prop} {op : Op} {a : Answer}

/-- The hash function of a device with nothing but copies of the superblock. -/
def constSha (_ : Block) : Hash := default

/-- The world gets from one state to another in steps that meet a condition. -/
def KeyLeads (C : KeyWorld → Event → Prop) : KeyWorld → KeyWorld → Prop :=
  Relation.ReflTransGen fun w w' => ∃ ev, KeyTr constSha w ev w' ∧ C w ev

theorem KeyLeads.weaken (h : KeyLeads C w w') : KeyLeads (fun _ _ => True) w w' :=
  Relation.ReflTransGen.mono (fun _ _ ⟨ev, ht, _⟩ => ⟨ev, ht, trivial⟩) _ _ h

theorem KeyLeads.execute (hc : C ⟨c, dirs⟩ .execute) (h : c.execute constSha = .ok c') :
    KeyLeads C ⟨c, dirs⟩ ⟨c', dirs⟩ := .single ⟨_, .execute (w := ⟨c, dirs⟩) h, hc⟩

theorem KeyLeads.answer (hc : C ⟨c, dirs⟩ (.answer op a)) (hs : c.chan.state = .pending op)
    (hp : Registers dirs (c.peekGeneratedRequest op) a dirs')
    (h : c.generatedRequestComplete op a = .ok c') : KeyLeads C ⟨c, dirs⟩ ⟨c', dirs'⟩ :=
  .single ⟨_, .answer (w := ⟨c, dirs⟩) hs hp h, hc⟩

theorem KeyLeads.drop (hc : C ⟨c, dirs⟩ .drop) (hs : c.chan.state = .completed) :
    KeyLeads C ⟨c, dirs⟩ ⟨c.dropCompletedRequest, dirs⟩ :=
  .single ⟨_, .drop (w := ⟨c, dirs⟩) hs, hc⟩

/-- The modules other than the crypto module answer. -/
theorem KeyLeads.answered (hs : c.chan.state = .pending op)
    (hadd : ∀ key, c.peekGeneratedRequest op ≠ .addKey key)
    (hremove : ∀ id, c.peekGeneratedRequest op ≠ .removeKey id)
    (h : c.generatedRequestComplete op a = .ok c') :
    KeyLeads RegistersRight ⟨c, dirs⟩ ⟨c', dirs⟩ := by
  refine .answer (fun hop => ?_) hs (.other hadd hremove) h
  subst hop
  exact absurd rfl (hadd c.chan.keyPlaintext)

theorem KeyIdsFit.of_done (hs : c.chan.state = .done op) (hop : op ≠ .decryptPreviousKey) :
    KeyIdsFit c := by
  refine ⟨fun _ hsub => ?_, fun _ hdone => ?_⟩
  · cases hs.symm.trans hsub
  · cases hs.symm.trans hdone
    exact absurd rfl hop

theorem KeyIdsFit.of_submitted (hs : c.chan.state = .submitted)
    (hty : c.chan.request.type ≠ .deinit) : KeyIdsFit c := by
  refine ⟨fun hd => absurd hd hty, fun _ hdone => ?_⟩
  cases hs.symm.trans hdone

/-- A request goes on after an operation. -/
theorem KeyLeads.executed (hs : c.chan.state = .done op) (hop : op ≠ .decryptPreviousKey)
    (h : c.execute constSha = .ok c') : KeyLeads RegistersRight ⟨c, dirs⟩ ⟨c', dirs⟩ :=
  .execute (KeyIdsFit.of_done hs hop) h

/-! ### Initialization -/

/-- INITIALIZE is about to read slot `i`. -/
structure ReadsSlot (c : Control) (i : SuperblockIndex) : Prop where
  type : c.chan.request.type = .init
  state : c.chan.state = .pending .readSb
  readSbIdx : c.chan.readSbIdx = i
  hash : c.chan.hash = default

/-- The slot was read and its superblock is remembered. -/
def slotRead (c : Control) : Control :=
  { c with chan := { c.chan with
      generatedPrim := { c.chan.generatedPrim with succ := true }
      state := .done .readSb
      encodedBlk := sampleSuperblock.encodeToBlk
      sbCiphertext := sampleSuperblock } }

def slotFound (c : Control) : Control :=
  { slotRead c with chan := { (slotRead c).chan with
      generation := 1
      sbIdx := c.chan.readSbIdx
      sbFound := true } }

theorem newest_sampleSuperblock : sampleSuperblock.snapshots.newestSnapshotIdx =
    some ⟨0, maxNrOfSnapshots_pos⟩ := by decide +kernel

theorem ReadsSlot.checkSlot (h : ReadsSlot c i) :
    (slotRead c).checkSlot constSha = .ok (slotFound c) := by
  have hstate : sampleSuperblock.state ≠ .invalid := fun hh => by cases hh
  have hhash : constSha sampleSuperblock.encodeToBlk = c.chan.hash := h.hash.symm
  simp only [Control.checkSlot, slotRead, hstate, newest_sampleSuperblock, hhash, if_true,
    if_false]
  rfl

theorem ReadsSlot.read (h : ReadsSlot c i) :
    KeyLeads RegistersRight ⟨c, dirs⟩ ⟨slotRead c, dirs⟩ := by
  refine .answered (a := { blk := sampleSuperblock.encodeToBlk }) h.state
    (fun _ hh => by cases hh) (fun _ hh => by cases hh) ?_
  simp only [Control.generatedRequestComplete, Superblock.decode_encode, Exec.ok_bind]
  rfl

theorem ReadsSlot.execute_eq (h : ReadsSlot c i) : (slotRead c).execute constSha =
    if i.val < nrOfSuperblockSlots - 1 then
      .ok ({ slotFound c with chan := { (slotFound c).chan with
        readSbIdx := nextSlot i } }.generate .readSb (UInt64.ofNat (nextSlot i).val))
    else .ok ((slotFound c).generate .readCurrentSb (UInt64.ofNat i.val)) := by
  have hty : (slotRead c).chan.request.type = .init := h.type
  have hstate : (slotRead c).chan.state = .done .readSb := rfl
  have hidx : (slotFound c).chan.readSbIdx = i := h.readSbIdx
  have hsb : (slotFound c).chan.sbIdx = i := h.readSbIdx
  rw [execute_init hty]
  simp only [Control.executeInitialize, hstate, h.checkSlot, Exec.ok_bind, hidx]
  split
  · rfl
  · rw [hsb]
    rfl

theorem ReadsSlot.next (h : ReadsSlot c i) (hi : i.val < nrOfSuperblockSlots - 1) :
    ∃ c', KeyLeads RegistersRight ⟨c, dirs⟩ ⟨c', dirs⟩ ∧ ReadsSlot c' (nextSlot i) := by
  have he := h.execute_eq
  rw [if_pos hi] at he
  have hexec : KeyLeads RegistersRight ⟨slotRead c, dirs⟩ ⟨_, dirs⟩ :=
    .executed rfl (fun hh => by cases hh) he
  exact ⟨_, h.read.trans hexec, ⟨h.type, rfl, rfl, h.hash⟩⟩

/-- All slots are read. -/
theorem ReadsSlot.search (dirs : KeyDirs) (h : ReadsSlot c i) : ∃ c',
    KeyLeads RegistersRight ⟨c, dirs⟩ ⟨c', dirs⟩ ∧ c'.chan.request.type = .init ∧
      c'.chan.state = .pending .readCurrentSb := by
  induction hn : nrOfSuperblockSlots - 1 - i.val generalizing c i with
  | zero =>
    have he := h.execute_eq
    rw [if_neg (Nat.not_lt.mpr (Nat.le_of_sub_eq_zero hn))] at he
    have hexec : KeyLeads RegistersRight ⟨slotRead c, dirs⟩ ⟨_, dirs⟩ :=
      .executed rfl (fun hh => by cases hh) he
    exact ⟨_, h.read.trans hexec, h.type, rfl⟩
  | succ n ih =>
    have hlt : i.val < nrOfSuperblockSlots - 1 := by omega
    obtain ⟨c₁, hlead, h₁⟩ := h.next hlt
    have hval := nextSlot_val hlt
    obtain ⟨c₂, hlead₂, h₂⟩ := ih h₁ (by omega)
    exact ⟨c₂, hlead.trans hlead₂, h₂⟩

/-- The key directories with key 1. -/
def firstKeyOnly : KeyDirs := Function.update KeyDirs.initial (Fin.last 1) 1

/-- The superblock is taken over, and its key is added. -/
theorem leads_initialized : ∃ c : Control, KeyLeads RegistersRight {} ⟨c, firstKeyOnly⟩ ∧
    c.chan.request.type = .invalid ∧ c.sb.state = .normal ∧ c.sb.currentKey.id = 1 := by
  let c₁ : Control := Control.submitRequest {} { type := .init }
  let c₂ := { c₁ with chan := { c₁.chan with sbFound := false } }.generate .maxSbHash 0
  let c₃ : Control := { c₂ with chan := { c₂.chan with
    generatedPrim := { c₂.chan.generatedPrim with succ := true }
    state := .done .maxSbHash
    hash := default } }
  let c₄ := { c₃ with chan := { c₃.chan with
    readSbIdx := ⟨0, nrOfSuperblockSlots_pos⟩ } }.generate .readSb 0
  have hsubmit : KeyTr constSha {} (.submit { type := .init }) ⟨c₁, KeyDirs.initial⟩ :=
    .submit (w := {}) rfl fun hh => by cases hh
  have h₁ : KeyLeads RegistersRight {} ⟨c₁, KeyDirs.initial⟩ := .single ⟨_, hsubmit, fun _ => rfl⟩
  have h₂ : KeyLeads RegistersRight ⟨c₁, KeyDirs.initial⟩ ⟨c₂, KeyDirs.initial⟩ :=
    .execute (KeyIdsFit.of_submitted (c := c₁) rfl fun hh => by cases hh) rfl
  have hs₂ : c₂.chan.state = .pending .maxSbHash := rfl
  have h₃ : KeyLeads RegistersRight ⟨c₂, KeyDirs.initial⟩ ⟨c₃, KeyDirs.initial⟩ :=
    .answered (a := {}) hs₂ (fun _ hh => by cases hh) (fun _ hh => by cases hh) rfl
  have hs₃ : c₃.chan.state = .done .maxSbHash := rfl
  have h₄ : KeyLeads RegistersRight ⟨c₃, KeyDirs.initial⟩ ⟨c₄, KeyDirs.initial⟩ :=
    .executed hs₃ (fun hh => by cases hh) rfl
  have hreads : ReadsSlot c₄ ⟨0, nrOfSuperblockSlots_pos⟩ := ⟨rfl, rfl, rfl, rfl⟩
  obtain ⟨c₅, h₅, hty₅, hs₅⟩ := hreads.search KeyDirs.initial
  let c₆ : Control := { c₅ with chan := { c₅.chan with
    generatedPrim := { c₅.chan.generatedPrim with succ := true }
    state := .done .readCurrentSb
    encodedBlk := sampleSuperblock.encodeToBlk
    sbCiphertext := sampleSuperblock } }
  let c₇ := c₆.generate .decryptCurrentKey 0
  let c₈ : Control := { c₇ with chan := { c₇.chan with
    generatedPrim := { c₇.chan.generatedPrim with succ := true }
    state := .done .decryptCurrentKey
    currKeyPlaintext := { c₇.chan.currKeyPlaintext with value := fun _ => 0 } } }
  let c₉ := { c₈ with chan := { c₈.chan with currKeyPlaintext :=
    { c₈.chan.currKeyPlaintext with id := 1 } } }.generate .addCurrentKeyAtCryptoModule 0
  let c₁₀ : Control := { c₉ with chan := { c₉.chan with
    generatedPrim := { c₉.chan.generatedPrim with succ := true }
    state := .done .addCurrentKeyAtCryptoModule } }
  let c₁₁ := (c₁₀.takeOverSuperblock false).initialized
  have h₆ : KeyLeads RegistersRight ⟨c₅, KeyDirs.initial⟩ ⟨c₆, KeyDirs.initial⟩ := by
    refine .answered (a := { blk := sampleSuperblock.encodeToBlk }) hs₅
      (fun _ hh => by cases hh) (fun _ hh => by cases hh) ?_
    simp only [Control.generatedRequestComplete, Superblock.decode_encode, Exec.ok_bind]
    rfl
  have hexec : ∀ {c c' : Control} {op : Op} {dirs : KeyDirs}, c.chan.request.type = .init →
      c.chan.state = .done op → op ≠ .decryptPreviousKey → c.executeInitialize constSha = .ok c' →
      KeyLeads RegistersRight ⟨c, dirs⟩ ⟨c', dirs⟩ := by
    intro c c' op dirs hty hs hop he
    exact .executed hs hop ((execute_init hty).trans he)
  have hs₆ : c₆.chan.state = .done .readCurrentSb := rfl
  have h₇ : KeyLeads RegistersRight ⟨c₆, KeyDirs.initial⟩ ⟨c₇, KeyDirs.initial⟩ :=
    hexec hty₅ hs₆ (fun hh => by cases hh) rfl
  have hs₇ : c₇.chan.state = .pending .decryptCurrentKey := rfl
  have h₈ : KeyLeads RegistersRight ⟨c₇, KeyDirs.initial⟩ ⟨c₈, KeyDirs.initial⟩ :=
    .answered (a := {}) hs₇ (fun _ hh => by cases hh) (fun _ hh => by cases hh) rfl
  have hs₈ : c₈.chan.state = .done .decryptCurrentKey := rfl
  have h₉ : KeyLeads RegistersRight ⟨c₈, KeyDirs.initial⟩ ⟨c₉, KeyDirs.initial⟩ :=
    hexec hty₅ hs₈ (fun hh => by cases hh) rfl
  have hs₉ : c₉.chan.state = .pending .addCurrentKeyAtCryptoModule := rfl
  have hne : (1 : KeyId) ≠ invalidKeyId := by decide
  have h₁₀ : KeyLeads RegistersRight ⟨c₉, KeyDirs.initial⟩ ⟨c₁₀, firstKeyOnly⟩ :=
    .answer (a := {}) (fun hh => by cases hh) hs₉ (.added rfl rfl hne rfl) rfl
  have hs₁₀ : c₁₀.chan.state = .done .addCurrentKeyAtCryptoModule := rfl
  have h₁₁ : KeyLeads RegistersRight ⟨c₁₀, firstKeyOnly⟩ ⟨c₁₁, firstKeyOnly⟩ :=
    hexec hty₅ hs₁₀ (fun hh => by cases hh) rfl
  have h₁₂ : KeyLeads RegistersRight ⟨c₁₁, firstKeyOnly⟩ ⟨c₁₁.dropCompletedRequest, firstKeyOnly⟩ :=
    .drop trivial rfl
  refine ⟨c₁₁.dropCompletedRequest, ?_, rfl, rfl, rfl⟩
  exact h₁.trans <| h₂.trans <| h₃.trans <| h₄.trans <| h₅.trans <| h₆.trans <| h₇.trans <|
    h₈.trans <| h₉.trans <| h₁₀.trans <| h₁₁.trans h₁₂

/-! ### Securing -/

/-- The channel secures the superblock of `c₀`. -/
structure Securing (c₀ : Control) (op : Op) (c : Control) : Prop where
  state : c.chan.state = .pending op
  sb : c.sb = c₀.sb
  type : c.chan.request.type = c₀.chan.request.type

/-- What comes after an operation. -/
def nextSecuring (c : Control) : Op → Op
  | .encryptCurrentKey => if c.sb.state = .rekeying then .encryptPreviousKey else .syncCache
  | .encryptPreviousKey => .syncCache
  | .syncCache => .writeSb
  | .writeSb => .syncBlkIo
  | _ => .secureSb

/-- The operations of securing have nothing to do with the registered keys. -/
structure Apart (c : Control) (op : Op) : Prop where
  add : ∀ key, c.peekGeneratedRequest op ≠ .addKey key
  remove : ∀ id, c.peekGeneratedRequest op ≠ .removeKey id
  sb : c.changeRoots op {} = c.sb
  completes : ∃ c', c.generatedRequestComplete op {} = .ok c'

theorem apart_of_securing (c : Control) (hop : securing op = true ∨ op = .secureSb) :
    Apart c op := by
  cases op with
  | encryptCurrentKey => exact ⟨fun _ hh => (by cases hh), fun _ hh => (by cases hh), rfl, _, rfl⟩
  | encryptPreviousKey => exact ⟨fun _ hh => (by cases hh), fun _ hh => (by cases hh), rfl, _, rfl⟩
  | syncCache => exact ⟨fun _ hh => (by cases hh), fun _ hh => (by cases hh), rfl, _, rfl⟩
  | writeSb => exact ⟨fun _ hh => (by cases hh), fun _ hh => (by cases hh), rfl, _, rfl⟩
  | syncBlkIo => exact ⟨fun _ hh => (by cases hh), fun _ hh => (by cases hh), rfl, _, rfl⟩
  | secureSb => exact ⟨fun _ hh => (by cases hh), fun _ hh => (by cases hh), rfl, _, rfl⟩
  | _ => rcases hop with hop | hop <;> cases hop

/-- An operation of securing was successful. -/
theorem Securing.answered (dirs : KeyDirs) (h : Securing c₀ op c) (hop : securing op = true ∨ op = .secureSb) :
    ∃ c', KeyLeads RegistersRight ⟨c, dirs⟩ ⟨c', dirs⟩ ∧ c'.chan.state = .done op ∧
      c'.chan.generatedPrim.succ = true ∧ c'.sb = c₀.sb ∧
      c'.chan.request.type = c₀.chan.request.type := by
  obtain ⟨hadd, hremove, hsb, c', hc'⟩ := apart_of_securing c hop
  have hkeep := answerKeeps hc'
  exact ⟨c', .answered h.state hadd hremove hc', hkeep.state, hkeep.succ,
    hkeep.sb.trans (hsb.trans h.sb), hkeep.type.trans h.type⟩

/-- After a successful operation comes the next one. -/
theorem secureSb_next (fail : Control → Exec Control) (hop : securing op = true)
    (hsucc : c.chan.generatedPrim.succ = true) (hsb : c.sb = c₀.sb)
    (hty : c.chan.request.type = c₀.chan.request.type) :
    ∃ c', c.secureSb constSha fail op = .ok c' ∧ Securing c₀ (nextSecuring c₀ op) c' := by
  cases op with
  | encryptCurrentKey =>
    simp only [Control.secureSb, Control.checked, hsucc, if_true, nextSecuring, ← hsb]
    split
    · exact ⟨_, rfl, rfl, hsb, hty⟩
    · exact ⟨_, rfl, rfl, hsb, hty⟩
  | encryptPreviousKey =>
    simp only [Control.secureSb, Control.checked, hsucc, if_true]
    exact ⟨_, rfl, rfl, hsb, hty⟩
  | syncCache =>
    simp only [Control.secureSb, Control.checked, hsucc, if_true]
    exact ⟨_, rfl, rfl, hsb, hty⟩
  | writeSb =>
    simp only [Control.secureSb, Control.checked, hsucc, if_true]
    exact ⟨_, rfl, rfl, hsb, hty⟩
  | syncBlkIo =>
    simp only [Control.secureSb, Control.checked, hsucc, if_true]
    exact ⟨_, rfl, rfl, hsb, hty⟩
  | _ => cases hop

/-- The channel goes on to the next operation. -/
theorem Securing.next (dirs : KeyDirs) (h : Securing c₀ op c) (hsec : Secures c₀)
    (hop : securing op = true) : ∃ c',
      KeyLeads RegistersRight ⟨c, dirs⟩ ⟨c', dirs⟩ ∧ Securing c₀ (nextSecuring c₀ op) c' := by
  obtain ⟨c₁, hlead, hs, hsucc, hsb, hty⟩ := h.answered dirs (.inl hop)
  have hsec₁ : Secures c₁ := by
    unfold Secures
    rw [hty]
    exact hsec
  obtain ⟨fail, he⟩ := hsec₁.execute_eq constSha hop hs
  obtain ⟨c₂, hc₂, h₂⟩ := secureSb_next fail hop hsucc hsb hty
  have hexec : KeyLeads RegistersRight ⟨c₁, dirs⟩ ⟨c₂, dirs⟩ := by
    refine .executed hs (fun hh => ?_) (he.trans hc₂)
    rw [hh] at hop
    cases hop
  exact ⟨c₂, hlead.trans hexec, h₂⟩

/-- From the keys to the trust anchor. -/
theorem leads_secured (dirs : KeyDirs) (h : Securing c₀ .encryptCurrentKey c)
    (hsec : Secures c₀) : ∃ c',
    KeyLeads RegistersRight ⟨c, dirs⟩ ⟨c', dirs⟩ ∧ c'.chan.state = .done .secureSb ∧
      c'.chan.generatedPrim.succ = true ∧ c'.sb = c₀.sb ∧
      c'.chan.request.type = c₀.chan.request.type := by
  have hencrypted : ∃ c₁, KeyLeads RegistersRight ⟨c, dirs⟩ ⟨c₁, dirs⟩ ∧
      Securing c₀ .syncCache c₁ := by
    obtain ⟨c₁, hlead₁, h₁⟩ := h.next dirs hsec rfl
    by_cases hrk : c₀.sb.state = .rekeying
    · rw [nextSecuring, if_pos hrk] at h₁
      obtain ⟨c₂, hlead₂, h₂⟩ := h₁.next dirs hsec rfl
      exact ⟨c₂, hlead₁.trans hlead₂, h₂⟩
    · rw [nextSecuring, if_neg hrk] at h₁
      exact ⟨c₁, hlead₁, h₁⟩
  obtain ⟨c₁, hlead₁, h₁⟩ := hencrypted
  obtain ⟨c₂, hlead₂, h₂⟩ := h₁.next dirs hsec rfl
  obtain ⟨c₃, hlead₃, h₃⟩ := h₂.next dirs hsec rfl
  obtain ⟨c₄, hlead₄, h₄⟩ := h₃.next dirs hsec rfl
  obtain ⟨c₅, hlead₅, h₅⟩ := h₄.answered dirs (.inr rfl)
  exact ⟨c₅, hlead₁.trans (hlead₂.trans (hlead₃.trans (hlead₄.trans hlead₅))), h₅⟩

/-! ### Re-encryption and the end -/

/-- The key directories with keys 1 and 2. -/
def bothKeys : KeyDirs := Function.update firstKeyOnly (Fin.mk 0 Nat.zero_lt_two) 2

/-- A new key is added and the superblock is secured. -/
theorem leads_rekeying (hty : c.chan.request.type = .invalid) (hstate : c.sb.state = .normal)
    (hid : c.sb.currentKey.id = 1) : ∃ c',
    KeyLeads RegistersRight ⟨c, firstKeyOnly⟩ ⟨c', bothKeys⟩ ∧ c'.chan.request.type = .invalid ∧
      c'.sb.state = .rekeying ∧ c'.sb.previousKey.id = 1 ∧ c'.sb.currentKey.id = 2 := by
  let c₁ := c.submitRequest { type := .initializeRekeying }
  let c₂ := c₁.generate .createKey 0
  let c₃ : Control := { c₂ with chan := { c₂.chan with
    generatedPrim := { c₂.chan.generatedPrim with succ := true }
    state := .done .createKey
    keyPlaintext := { c₂.chan.keyPlaintext with value := fun _ => 0 } } }
  let key : Key := { value := c₃.chan.keyPlaintext.value, id := c.sb.currentKey.id + 1 }
  let c₄ := { c₃ with
    sb := { c.sb with
      state := .rekeying
      rekeyingVba := 0
      previousKey := c.sb.currentKey
      currentKey := key }
    chan := { c₃.chan with keyPlaintext := key } }.generate .addKeyAtCryptoModule 0
  let c₅ : Control := { c₄ with chan := { c₄.chan with
    generatedPrim := { c₄.chan.generatedPrim with succ := true }
    state := .done .addKeyAtCryptoModule } }
  let c₆ := c₅.secureSbInit
  have hsubmit : KeyTr constSha ⟨c, firstKeyOnly⟩ (.submit { type := .initializeRekeying })
      ⟨c₁, firstKeyOnly⟩ := .submit (w := ⟨c, firstKeyOnly⟩) hty fun hh => by cases hh
  have h₁ : KeyLeads RegistersRight ⟨c, firstKeyOnly⟩ ⟨c₁, firstKeyOnly⟩ :=
    .single ⟨_, hsubmit, fun hh => by cases hh⟩
  have h₂ : KeyLeads RegistersRight ⟨c₁, firstKeyOnly⟩ ⟨c₂, firstKeyOnly⟩ :=
    .execute (KeyIdsFit.of_submitted (c := c₁) rfl fun hh => by cases hh) rfl
  have hs₂ : c₂.chan.state = .pending .createKey := rfl
  have h₃ : KeyLeads RegistersRight ⟨c₂, firstKeyOnly⟩ ⟨c₃, firstKeyOnly⟩ :=
    .answered (a := {}) hs₂ (fun _ hh => by cases hh) (fun _ hh => by cases hh) rfl
  have hs₃ : c₃.chan.state = .done .createKey := rfl
  have hexec₃ : c₃.execute constSha = .ok c₄ := by
    have hty₃ : c₃.chan.request.type = .initializeRekeying := rfl
    have hne : ¬ c₃.sb.state ≠ .normal := not_not.mpr hstate
    have hsucc : c₃.chan.generatedPrim.succ = true := rfl
    simp only [Control.execute, hty₃, Control.executeInitializeRekeying, hs₃, Control.checked,
      hsucc, if_true, if_neg hne]
    rfl
  have h₄ : KeyLeads RegistersRight ⟨c₃, firstKeyOnly⟩ ⟨c₄, firstKeyOnly⟩ :=
    .executed hs₃ (fun hh => by cases hh) hexec₃
  have hs₄ : c₄.chan.state = .pending .addKeyAtCryptoModule := rfl
  have hkey : key.id = 2 := by
    change c.sb.currentKey.id + 1 = 2
    rw [hid]
    rfl
  have hne : key.id ≠ invalidKeyId := by
    rw [hkey]
    decide
  have hadd : firstKeyOnly.addKey key.id = some bothKeys := by
    rw [hkey]
    rfl
  have h₅ : KeyLeads RegistersRight ⟨c₄, firstKeyOnly⟩ ⟨c₅, bothKeys⟩ :=
    .answer (a := {}) (fun _ => rfl) hs₄ (.added rfl rfl hne hadd) rfl
  have hs₅ : c₅.chan.state = .done .addKeyAtCryptoModule := rfl
  have h₆ : KeyLeads RegistersRight ⟨c₅, bothKeys⟩ ⟨c₆, bothKeys⟩ :=
    .executed hs₅ (fun hh => by cases hh) rfl
  have hsec : Secures c₆ := .inr (.inr (.inr (.inr (.inl rfl))))
  have hsecuring : Securing c₆ .encryptCurrentKey c₆ := ⟨rfl, rfl, rfl⟩
  obtain ⟨c₇, h₇, hs₇, hsucc₇, hsb₇, hty₇⟩ := leads_secured bothKeys hsecuring hsec
  let c₈ := c₇.superblockSecured.markReqSuccessful
  have hexec₇ : c₇.execute constSha = .ok c₈ := by
    have hty₇ : c₇.chan.request.type = .initializeRekeying := hty₇
    simp only [Control.execute, hty₇, Control.executeInitializeRekeying, hs₇, Control.checked,
      hsucc₇, if_true]
    rfl
  have h₈ : KeyLeads RegistersRight ⟨c₇, bothKeys⟩ ⟨c₈, bothKeys⟩ :=
    .executed hs₇ (fun hh => by cases hh) hexec₇
  have h₉ : KeyLeads RegistersRight ⟨c₈, bothKeys⟩ ⟨c₈.dropCompletedRequest, bothKeys⟩ :=
    .drop trivial rfl
  refine ⟨c₈.dropCompletedRequest, ?_, rfl, ?_, ?_, ?_⟩
  · exact h₁.trans <| h₂.trans <| h₃.trans <| h₄.trans <| h₅.trans <| h₆.trans <| h₇.trans <|
      h₈.trans h₉
  · change c₇.sb.state = _
    rw [hsb₇]
    rfl
  · change c₇.sb.previousKey.id = _
    rw [hsb₇]
    exact hid
  · change c₇.sb.currentKey.id = _
    rw [hsb₇]
    exact hkey

/-- DEINITIALIZE has removed the current key. -/
structure RemovedCurrent (c c' : Control) : Prop where
  type : c'.chan.request.type = .deinit
  state : c'.chan.state = .done .removeCurrentKeyAtCryptoModule
  succ : c'.chan.generatedPrim.succ = true
  sbState : c'.sb.state = c.sb.state
  previousKey : c'.sb.previousKey = c.sb.previousKey
  success : c'.chan.request.success = true

theorem leads_removedCurrent (hty : c.chan.request.type = .deinit)
    (hne : c.sb.currentKey.id ≠ invalidKeyId)
    (hremove : dirs.removeKey c.sb.currentKey.id = some dirs') : ∃ c',
    KeyLeads RegistersRight ⟨c.startSync, dirs⟩ ⟨c', dirs'⟩ ∧ RemovedCurrent c c' := by
  have hsec : Secures c.startSync := .inr (.inl hty)
  have hsecuring : Securing c.startSync .encryptCurrentKey c.startSync := ⟨rfl, rfl, rfl⟩
  obtain ⟨c₁, h₁, hs₁, hsucc₁, hsb₁, hty₁⟩ := leads_secured dirs hsecuring hsec
  let c₂ := { c₁.superblockSecured with chan := { c₁.superblockSecured.chan with
    request := { c₁.superblockSecured.chan.request with success := true }
    currKeyPlaintext := { c₁.superblockSecured.chan.currKeyPlaintext with
      id := c₁.superblockSecured.sb.currentKey.id } } }.generate .removeCurrentKeyAtCryptoModule 0
  let c₃ : Control := { c₂ with chan := { c₂.chan with
    generatedPrim := { c₂.chan.generatedPrim with succ := true }
    state := .done .removeCurrentKeyAtCryptoModule } }
  have hty₁' : c₁.chan.request.type = .deinit := hty₁.trans hty
  have hexec : c₁.execute constSha = .ok c₂ := by
    simp only [Control.execute, hty₁', Control.executeDeinit, hs₁, Control.checked, hsucc₁,
      if_true]
    rfl
  have h₂ : KeyLeads RegistersRight ⟨c₁, dirs⟩ ⟨c₂, dirs⟩ :=
    .executed hs₁ (fun hh => by cases hh) hexec
  have hs₂ : c₂.chan.state = .pending .removeCurrentKeyAtCryptoModule := rfl
  have hid : c₁.sb.currentKey.id = c.sb.currentKey.id := by
    rw [hsb₁]
    rfl
  have h₃ : KeyLeads RegistersRight ⟨c₂, dirs⟩ ⟨c₃, dirs'⟩ := by
    rw [← hid] at hne hremove
    exact .answer (a := {}) (fun hh => by cases hh) hs₂ (.removed rfl rfl hne hremove) rfl
  refine ⟨c₃, h₁.trans (h₂.trans h₃), hty₁', rfl, rfl, ?_, ?_, rfl⟩
  · change c₁.sb.state = _
    rw [hsb₁]
    rfl
  · change c₁.sb.previousKey = _
    rw [hsb₁]
    rfl

/-- A superblock that is being re-encrypted is deinitialized. -/
theorem leads_deinitialized (hty : c.chan.request.type = .invalid) (hstate : c.sb.state = .rekeying)
    (hprev : c.sb.previousKey.id = 1) (hcurr : c.sb.currentKey.id = 2) : ∃ c' dirs',
    KeyLeads RegistersRight ⟨c, bothKeys⟩ ⟨c', dirs'⟩ ∧ c'.chan.request.type = .deinit ∧
      c'.chan.state = .completed ∧ c'.chan.request.success = true := by
  let c₁ := c.submitRequest { type := .deinit }
  have hsubmit : KeyTr constSha ⟨c, bothKeys⟩ (.submit { type := .deinit }) ⟨c₁, bothKeys⟩ :=
    .submit (w := ⟨c, bothKeys⟩) hty fun hh => by cases hh
  have h₁ : KeyLeads RegistersRight ⟨c, bothKeys⟩ ⟨c₁, bothKeys⟩ :=
    .single ⟨_, hsubmit, fun hh => by cases hh⟩
  have hfit : KeyIdsFit c₁ := ⟨fun _ _ => hstate, fun hh => by cases hh⟩
  have h₂ : KeyLeads RegistersRight ⟨c₁, bothKeys⟩ ⟨c₁.startSync, bothKeys⟩ := .execute hfit rfl
  have hne : c₁.sb.currentKey.id ≠ invalidKeyId := by
    change c.sb.currentKey.id ≠ _
    rw [hcurr]
    decide
  let dirs₃ : KeyDirs := Function.update bothKeys 0 invalidKeyId
  have hremove : bothKeys.removeKey c₁.sb.currentKey.id = some dirs₃ := by
    change bothKeys.removeKey c.sb.currentKey.id = _
    rw [hcurr]
    rfl
  obtain ⟨c₃, h₃, hc₃⟩ := leads_removedCurrent (c := c₁) rfl hne hremove
  let c₄ := { c₃ with chan := { c₃.chan with prevKeyPlaintext :=
    { c₃.chan.prevKeyPlaintext with id := c₃.sb.previousKey.id } } }.generate
      .removePreviousKeyAtCryptoModule 0
  let c₅ : Control := { c₄ with chan := { c₄.chan with
    generatedPrim := { c₄.chan.generatedPrim with succ := true }
    state := .done .removePreviousKeyAtCryptoModule } }
  let c₆ := { c₅ with sb := { c₅.sb with state := .invalid } }.markReqSuccessful
  have hexec₃ : c₃.execute constSha = .ok c₄ := by
    have hstate₃ : c₃.sb.state = .rekeying := hc₃.sbState.trans hstate
    simp only [Control.execute, hc₃.type, Control.executeDeinit, hc₃.state, Control.checked,
      hc₃.succ, if_true, hstate₃]
    rfl
  have h₄ : KeyLeads RegistersRight ⟨c₃, dirs₃⟩ ⟨c₄, dirs₃⟩ :=
    .executed hc₃.state (fun hh => by cases hh) hexec₃
  have hs₄ : c₄.chan.state = .pending .removePreviousKeyAtCryptoModule := rfl
  have hid : c₃.sb.previousKey.id = 1 := by
    rw [hc₃.previousKey]
    exact hprev
  have hne₄ : c₃.sb.previousKey.id ≠ invalidKeyId := by
    rw [hid]
    decide
  let dirs₅ : KeyDirs := Function.update dirs₃ 1 invalidKeyId
  have hremove₄ : dirs₃.removeKey c₃.sb.previousKey.id = some dirs₅ := by
    rw [hid]
    rfl
  have h₅ : KeyLeads RegistersRight ⟨c₄, dirs₃⟩ ⟨c₅, dirs₅⟩ :=
    .answer (a := {}) (fun hh => by cases hh) hs₄ (.removed rfl rfl hne₄ hremove₄) rfl
  have hs₅ : c₅.chan.state = .done .removePreviousKeyAtCryptoModule := rfl
  have hexec₅ : c₅.execute constSha = .ok c₆ := by
    have hty₅ : c₅.chan.request.type = .deinit := hc₃.type
    have hsucc₅ : c₅.chan.generatedPrim.succ = true := rfl
    simp only [Control.execute, hty₅, Control.executeDeinit, hs₅, Control.checked, hsucc₅,
      if_true]
    rfl
  have h₆ : KeyLeads RegistersRight ⟨c₅, dirs₅⟩ ⟨c₆, dirs₅⟩ :=
    .executed hs₅ (fun hh => by cases hh) hexec₅
  exact ⟨c₆, dirs₅, h₁.trans <| h₂.trans <| h₃.trans <| h₄.trans <| h₅.trans h₆, hc₃.type, rfl, rfl⟩

/-- INITIALIZE, INITIALIZE_REKEYING and DEINITIALIZE, with the two keys
registered in between. -/
theorem keys_registered_of_run_sample : ∃ (hist : List (KeyWorld × Event)) (w : KeyWorld),
    (∃ t ∈ reached hist w, t.ctrl.sb.state = .normal ∧ t.dirs = firstKeyOnly) ∧
      (∃ t ∈ reached hist w, t.ctrl.sb.state = .rekeying ∧ t.dirs = bothKeys) ∧
      w.ctrl.chan.request.type = .deinit ∧ w.ctrl.chan.state = .completed ∧
      w.ctrl.chan.request.success = true ∧ ∀ t ∈ reached hist w, KeysRight t := by
  obtain ⟨c₁, hlead₁, hty₁, hstate₁, hid₁⟩ := leads_initialized
  obtain ⟨c₂, hlead₂, hty₂, hstate₂, hprev₂, hcurr₂⟩ := leads_rekeying hty₁ hstate₁ hid₁
  obtain ⟨c₃, dirs, hlead₃, hty₃, hs₃, hsucc₃⟩ := leads_deinitialized hty₂ hstate₂ hprev₂ hcurr₂
  have hstart : Run KeysInitial (KeyTr constSha) [] {} := .start rfl
  obtain ⟨hist₁, hr₁, hc₁, -⟩ := hstart.extend (C := RegistersRight) (by simp) hlead₁
  obtain ⟨hist₂, hr₂, hc₂, hsub₂⟩ := hr₁.extend hc₁ hlead₂
  obtain ⟨hist₃, hr₃, hc₃, hsub₃⟩ := hr₂.extend hc₂ hlead₃
  exact ⟨hist₃, _, ⟨_, hsub₃ (hsub₂ List.mem_cons_self), hstate₁, rfl⟩,
    ⟨_, hsub₃ List.mem_cons_self, hstate₂, rfl⟩, hty₃, hs₃, hsucc₃,
    keys_registered_of_run hr₃ hc₃⟩

/-- INITIALIZE and DEINITIALIZE, with every answer a success: the superblock
stays valid. -/
theorem deinitialized_stays_valid : ¬ ∀ (sha : Block → Hash) (hist : List (KeyWorld × Event))
    (w : KeyWorld), Run KeysInitial (KeyTr sha) hist w → ∀ t ∈ reached hist w, KeysRight t := by
  intro hall
  obtain ⟨c, hlead, hty, hstate, hid⟩ := leads_initialized
  let c₁ := c.submitRequest { type := .deinit }
  have hsubmit : KeyTr constSha ⟨c, firstKeyOnly⟩ (.submit { type := .deinit })
      ⟨c₁, firstKeyOnly⟩ := .submit (w := ⟨c, firstKeyOnly⟩) hty fun hh => by cases hh
  have h₁ : KeyLeads (fun _ _ => True) ⟨c, firstKeyOnly⟩ ⟨c₁, firstKeyOnly⟩ :=
    .single ⟨_, hsubmit, trivial⟩
  have h₂ : KeyLeads (fun _ _ => True) ⟨c₁, firstKeyOnly⟩ ⟨c₁.startSync, firstKeyOnly⟩ :=
    .execute trivial rfl
  have hne : c₁.sb.currentKey.id ≠ invalidKeyId := by
    change c.sb.currentKey.id ≠ _
    rw [hid]
    decide
  let dirs₃ : KeyDirs := Function.update firstKeyOnly 1 invalidKeyId
  have hremove : firstKeyOnly.removeKey c₁.sb.currentKey.id = some dirs₃ := by
    change firstKeyOnly.removeKey c.sb.currentKey.id = _
    rw [hid]
    rfl
  obtain ⟨c₃, h₃, hc₃⟩ := leads_removedCurrent (c := c₁) rfl hne hremove
  have hstate₃ : c₃.sb.state = .normal := hc₃.sbState.trans hstate
  have hexec : c₃.execute constSha = .ok c₃.markReqSuccessful := by
    simp only [Control.execute, hc₃.type, Control.executeDeinit, hc₃.state, Control.checked,
      hc₃.succ, if_true, hstate₃]
    rfl
  have h₄ : KeyLeads (fun _ _ => True) ⟨c₃, dirs₃⟩ ⟨c₃.markReqSuccessful, dirs₃⟩ :=
    .execute trivial hexec
  have hstart : Run KeysInitial (KeyTr constSha) [] {} := .start rfl
  obtain ⟨hist, hr, -⟩ := hstart.extend (C := fun _ _ => True) (by simp)
    (hlead.weaken.trans (h₁.trans (h₂.trans (h₃.weaken.trans h₄))))
  have hvalid := (hall _ _ _ hr _ List.mem_cons_self).deinitialized hc₃.type rfl rfl
  change c₃.sb.valid = false at hvalid
  rw [Superblock.valid, hstate₃] at hvalid
  cases hvalid

end Sample

end Genode.Tresor.SbControl
