import Genode.Tresor.SuperblockSlots

/-!
# CryptoKeys — the keys that are registered at the crypto module

The crypto module has a directory for each of two keys. The superblock control
adds and removes keys in the course of four kinds of requests; between two
requests the keys of the superblock are to be registered, and no others.
-/

namespace Genode.Tresor.SbControl

open Genode.Lib

/-! ## The crypto module -/

/-- `_key_dirs` of the crypto module. An id of zero marks an unused one. -/
abbrev KeyDirs := Fin 2 → KeyId

namespace KeyDirs

def initial : KeyDirs := fun _ => invalidKeyId

/-- The key directory that `_execute_add_key` takes: the last unused one. -/
def addKey (dirs : KeyDirs) (id : KeyId) : Option KeyDirs :=
  if dirs 1 = invalidKeyId then some (Function.update dirs 1 id)
  else if dirs 0 = invalidKeyId then some (Function.update dirs 0 id)
  else none

/-- `_execute_remove_key` takes the first one with the given id, and throws if
there is none. -/
def removeKey (dirs : KeyDirs) (id : KeyId) : Option KeyDirs :=
  if dirs 0 = id then some (Function.update dirs 0 invalidKeyId)
  else if dirs 1 = id then some (Function.update dirs 1 invalidKeyId)
  else none

/-- The keys that are registered. -/
def registered (dirs : KeyDirs) : Set KeyId := {id | id ≠ invalidKeyId ∧ ∃ i, dirs i = id}

def Empty (dirs : KeyDirs) : Prop := dirs 0 = invalidKeyId ∧ dirs 1 = invalidKeyId

def Single (dirs : KeyDirs) (a : KeyId) : Prop :=
  a ≠ invalidKeyId ∧ ((dirs 0 = a ∧ dirs 1 = invalidKeyId) ∨ (dirs 0 = invalidKeyId ∧ dirs 1 = a))

def Both (dirs : KeyDirs) (a b : KeyId) : Prop :=
  a ≠ invalidKeyId ∧ b ≠ invalidKeyId ∧ ((dirs 0 = a ∧ dirs 1 = b) ∨ (dirs 0 = b ∧ dirs 1 = a))

section Dirs

variable {dirs dirs' : KeyDirs} {a b : KeyId}

theorem Both.symm (h : Both dirs a b) : Both dirs b a := ⟨h.2.1, h.1, h.2.2.symm⟩

theorem Empty.add (h : Empty dirs) (ha : a ≠ invalidKeyId) (he : dirs.addKey a = some dirs') :
    Single dirs' a := by
  rw [addKey, if_pos h.2] at he
  cases he
  exact ⟨ha, .inr ⟨h.1, rfl⟩⟩

theorem Single.add (h : Single dirs a) (hb : b ≠ invalidKeyId) (he : dirs.addKey b = some dirs') :
    Both dirs' a b := by
  obtain ⟨ha, ⟨h₀, h₁⟩ | ⟨h₀, h₁⟩⟩ := h
  · rw [addKey, if_pos h₁] at he
    cases he
    exact ⟨ha, hb, .inl ⟨h₀, rfl⟩⟩
  · have hne : dirs 1 ≠ invalidKeyId := by rwa [h₁]
    rw [addKey, if_neg hne, if_pos h₀] at he
    cases he
    exact ⟨ha, hb, .inr ⟨rfl, h₁⟩⟩

theorem Both.remove (h : Both dirs a b) (he : dirs.removeKey a = some dirs') : Single dirs' b := by
  obtain ⟨ha, hb, ⟨h₀, h₁⟩ | ⟨h₀, h₁⟩⟩ := h
  · rw [removeKey, if_pos h₀] at he
    cases he
    exact ⟨hb, .inr ⟨rfl, h₁⟩⟩
  · by_cases hab : b = a
    · rw [removeKey, if_pos (h₀.trans hab)] at he
      cases he
      exact ⟨hb, .inr ⟨rfl, h₁.trans hab.symm⟩⟩
    · have hne : dirs 0 ≠ a := by rwa [h₀]
      rw [removeKey, if_neg hne, if_pos h₁] at he
      cases he
      exact ⟨hb, .inl ⟨h₀, rfl⟩⟩

theorem Single.remove (h : Single dirs a) (he : dirs.removeKey a = some dirs') : Empty dirs' := by
  obtain ⟨ha, ⟨h₀, h₁⟩ | ⟨h₀, h₁⟩⟩ := h
  · rw [removeKey, if_pos h₀] at he
    cases he
    exact ⟨rfl, h₁⟩
  · have hne : dirs 0 ≠ a := by rw [h₀]; exact ha.symm
    rw [removeKey, if_neg hne, if_pos h₁] at he
    cases he
    exact ⟨h₀, rfl⟩

theorem Empty.registered_eq (h : Empty dirs) : registered dirs = ∅ := by
  ext id
  simp only [registered, Fin.exists_fin_two, h.1, h.2, Set.mem_ofPred_eq, Set.mem_empty_iff_false,
    iff_false, or_self, not_and]
  exact fun hne he => hne he.symm

theorem Single.registered_eq (h : Single dirs a) : registered dirs = {a} := by
  obtain ⟨ha, h⟩ := h
  ext id
  simp only [registered, Fin.exists_fin_two, Set.mem_ofPred_eq, Set.mem_singleton_iff]
  constructor
  · rintro ⟨hne, hid⟩
    rcases h with ⟨h₀, h₁⟩ | ⟨h₀, h₁⟩
    · rw [h₀, h₁] at hid
      rcases hid with hid | hid
      · exact hid.symm
      · exact absurd hid.symm hne
    · rw [h₀, h₁] at hid
      rcases hid with hid | hid
      · exact absurd hid.symm hne
      · exact hid.symm
  · rintro rfl
    refine ⟨ha, ?_⟩
    rcases h with ⟨h₀, -⟩ | ⟨-, h₁⟩
    · exact .inl h₀
    · exact .inr h₁

theorem Both.registered_eq (h : Both dirs a b) : registered dirs = {a, b} := by
  obtain ⟨ha, hb, h⟩ := h
  ext id
  simp only [registered, Fin.exists_fin_two, Set.mem_ofPred_eq, Set.mem_insert_iff,
    Set.mem_singleton_iff]
  rcases h with ⟨h₀, h₁⟩ | ⟨h₀, h₁⟩
  · rw [h₀, h₁]
    constructor
    · rintro ⟨-, rfl | rfl⟩
      · exact .inl rfl
      · exact .inr rfl
    · rintro (rfl | rfl)
      · exact ⟨ha, .inl rfl⟩
      · exact ⟨hb, .inr rfl⟩
  · rw [h₀, h₁]
    constructor
    · rintro ⟨-, rfl | rfl⟩
      · exact .inr rfl
      · exact .inl rfl
    · rintro (rfl | rfl)
      · exact ⟨ha, .inr rfl⟩
      · exact ⟨hb, .inl rfl⟩

end Dirs

end KeyDirs

/-- What a request does to the key directories. A failed one leaves them as
they are, and the file system behind the module refuses an id of zero. -/
inductive Registers (dirs : KeyDirs) (r : GeneratedRequest) (a : Answer) : KeyDirs → Prop where
  | added {key : Key} {dirs' : KeyDirs} (hr : r = .addKey key) (hs : a.success = true)
      (hne : key.id ≠ invalidKeyId) (h : dirs.addKey key.id = some dirs') :
      Registers dirs r a dirs'
  | removed {id : KeyId} {dirs' : KeyDirs} (hr : r = .removeKey id) (hs : a.success = true)
      (hne : id ≠ invalidKeyId) (h : dirs.removeKey id = some dirs') : Registers dirs r a dirs'
  | failed (hs : a.success = false) : Registers dirs r a dirs
  | other (ha : ∀ key, r ≠ .addKey key) (hr : ∀ id, r ≠ .removeKey id) : Registers dirs r a dirs

/-! ## The superblock control with the crypto module -/

structure KeyWorld where
  ctrl : Control := {}
  dirs : KeyDirs := KeyDirs.initial

/-- One step, with any answers of the other modules. A restart ends the crypto
module too. -/
inductive KeyTr (sha : Block → Hash) : KeyWorld → Event → KeyWorld → Prop where
  | submit {w : KeyWorld} {req : Request} (hfree : w.ctrl.chan.request.type = .invalid)
      (hne : req.type ≠ .invalid) :
      KeyTr sha w (.submit req) { w with ctrl := w.ctrl.submitRequest req }
  | execute {w : KeyWorld} {c : Control} (h : w.ctrl.execute sha = .ok c) :
      KeyTr sha w .execute { w with ctrl := c }
  | answer {w : KeyWorld} {op : Op} {a : Answer} {c : Control} {dirs : KeyDirs}
      (hs : w.ctrl.chan.state = .pending op)
      (hp : Registers w.dirs (w.ctrl.peekGeneratedRequest op) a dirs)
      (h : w.ctrl.generatedRequestComplete op a = .ok c) :
      KeyTr sha w (.answer op a) { ctrl := c, dirs := dirs }
  | drop {w : KeyWorld} (hs : w.ctrl.chan.state = .completed) :
      KeyTr sha w .drop { w with ctrl := w.ctrl.dropCompletedRequest }
  | restart {w : KeyWorld} : KeyTr sha w .restart {}

/-- No request is in progress. -/
def Quiet (c : Control) : Prop :=
  c.chan.request.type = .invalid ∨ c.chan.state = .completed

/-- The keys that belong to a superblock. -/
def keysOf (sb : Superblock) : Set KeyId :=
  match sb.state with
  | .invalid => ∅
  | .rekeying => {sb.previousKey.id, sb.currentKey.id}
  | _ => {sb.currentKey.id}

/-- Between two requests the keys of the superblock are registered, and a
superblock that was deinitialized is invalid. -/
structure KeysRight (w : KeyWorld) : Prop where
  registered : Quiet w.ctrl → w.dirs.registered = keysOf w.ctrl.sb
  deinitialized : w.ctrl.chan.request.type = .deinit → w.ctrl.chan.state = .completed →
    w.ctrl.chan.request.success = true → w.ctrl.sb.valid = false

/-! ## What is registered at a state of the channel -/

section Tracking

variable {sha : Block → Hash} {c c' : Control} {dirs dirs' : KeyDirs}
  {fail : Control → Exec Control} {next : Exec Control}

/-- The keys of the superblock are registered. -/
def Right (sb : Superblock) (dirs : KeyDirs) : Prop :=
  match sb.state with
  | .invalid => dirs.Empty
  | .rekeying => dirs.Both sb.previousKey.id sb.currentKey.id
  | _ => dirs.Single sb.currentKey.id

/-- The keys are registered, and a tree is being extended. -/
def Extends (c : Control) (dirs : KeyDirs) : Prop :=
  dirs.Single c.sb.currentKey.id ∧
    (c.sb.state = .extendingVbd ∨ c.sb.state = .extendingFt)

/-- The keys are registered while the channel waits for an operation. -/
def Expects (c : Control) (dirs : KeyDirs) : Op → Prop
  | .addCurrentKeyAtCryptoModule => dirs.Empty ∧
      c.chan.currKeyPlaintext.id = c.chan.sbCiphertext.currentKey.id
  | .decryptPreviousKey => dirs.Single c.chan.sbCiphertext.currentKey.id ∧
      c.chan.sbCiphertext.state = .rekeying
  | .addPreviousKeyAtCryptoModule => dirs.Single c.chan.sbCiphertext.currentKey.id ∧
      c.chan.sbCiphertext.state = .rekeying ∧
      (c.chan.prevKeyPlaintext.id ≠ invalidKeyId →
        c.chan.prevKeyPlaintext.id = c.chan.sbCiphertext.previousKey.id)
  | .addKeyAtCryptoModule => dirs.Single c.sb.previousKey.id ∧ c.sb.state = .rekeying ∧
      c.chan.keyPlaintext.id = c.sb.currentKey.id
  | .rekeyVbaInVbd => Right c.sb dirs ∧ c.sb.state = .rekeying
  | .removePreviousKeyAtCryptoModule => c.sb.state = .rekeying ∧
      c.chan.prevKeyPlaintext.id = c.sb.previousKey.id ∧
      ((c.chan.request.type = .rekeyVba ∧ Right c.sb dirs) ∨
        (c.chan.request.type = .deinit ∧ dirs.Single c.sb.previousKey.id))
  | .removeCurrentKeyAtCryptoModule => Right c.sb dirs ∧ c.sb.state = .rekeying ∧
      c.chan.currKeyPlaintext.id = c.sb.currentKey.id
  | .vbdExtStepInVbd => Extends c dirs
  | .ftExtStepInFt => Extends c dirs
  | _ => Right c.sb dirs

/-- The keys that are registered when an operation is done. -/
def Leaves (c : Control) (dirs : KeyDirs) : Op → Prop
  | .addCurrentKeyAtCryptoModule => c.chan.generatedPrim.succ = true →
      dirs.Single c.chan.sbCiphertext.currentKey.id
  | .decryptPreviousKey => dirs.Single c.chan.sbCiphertext.currentKey.id ∧
      c.chan.sbCiphertext.state = .rekeying
  | .addPreviousKeyAtCryptoModule => c.chan.generatedPrim.succ = true →
      dirs.Both c.chan.sbCiphertext.previousKey.id c.chan.sbCiphertext.currentKey.id ∧
      c.chan.sbCiphertext.state = .rekeying
  | .rekeyVbaInVbd => Right c.sb dirs ∧ c.sb.state = .rekeying
  | .removePreviousKeyAtCryptoModule => c.sb.state = .rekeying ∧
      ((c.chan.request.type = .rekeyVba ∧
          (if c.chan.generatedPrim.succ then dirs.Single c.sb.currentKey.id
          else Right c.sb dirs)) ∨
        (c.chan.request.type = .deinit ∧
          (c.chan.generatedPrim.succ = true → dirs.Empty)))
  | .removeCurrentKeyAtCryptoModule => c.sb.state = .rekeying ∧
      (c.chan.generatedPrim.succ = true → dirs.Single c.sb.previousKey.id)
  | .vbdExtStepInVbd => Extends c dirs
  | .ftExtStepInFt => Extends c dirs
  | _ => Right c.sb dirs

def Registered (c : Control) (dirs : KeyDirs) : Prop :=
  match c.chan.state with
  | .submitted => Right c.sb dirs
  | .pending op => Expects c dirs op
  | .done op => Leaves c dirs op
  | .completed => Right c.sb dirs

/-- What holds of the superblock control and the key directories. -/
structure Tracks (c : Control) (dirs : KeyDirs) : Prop where
  registered : Registered c dirs
  init : c.chan.request.type = .init → c.chan.state ≠ .completed → c.sb.state = .invalid
  deinit : c.chan.request.type = .deinit → c.chan.state ≠ .submitted →
    if c.chan.state = .completed then c.sb.state = .invalid else c.sb.state = .rekeying
  idle : c.chan.request.type = .invalid → c.chan.state = .submitted ∨ c.chan.state = .completed

/-- The condition on a channel that is executed. An id of zero does not get
past the crypto module. -/
structure KeyIdsFit (c : Control) : Prop where
  deinit : c.chan.request.type = .deinit → c.chan.state = .submitted →
    c.sb.state = .rekeying
  previous : c.chan.request.type = .init → c.chan.state = .done .decryptPreviousKey →
    c.chan.prevKeyPlaintext.id ≠ invalidKeyId →
    c.chan.prevKeyPlaintext.id = c.chan.sbCiphertext.previousKey.id

theorem Tracks.got (h : Tracks c dirs) {op : Op} (hs : c.chan.state = .done op) :
    Leaves c dirs op := by
  have hr := h.registered
  rwa [Registered, hs] at hr

theorem Tracks.right_of_submitted (h : Tracks c dirs) (hs : c.chan.state = .submitted) :
    Right c.sb dirs := by
  have hr := h.registered
  rwa [Registered, hs] at hr

theorem right_of_single {sb : Superblock} (h : dirs.Single sb.currentKey.id)
    (hs : sb.state ≠ .invalid) (hs' : sb.state ≠ .rekeying) : Right sb dirs := by
  unfold Right
  split
  · rename_i he
    exact absurd he hs
  · rename_i he
    exact absurd he hs'
  · exact h

theorem single_of_right {sb : Superblock} (h : Right sb dirs) (hs : sb.state ≠ .invalid)
    (hs' : sb.state ≠ .rekeying) : dirs.Single sb.currentKey.id := by
  unfold Right at h
  split at h
  · rename_i he
    exact absurd he hs
  · rename_i he
    exact absurd he hs'
  · exact h

theorem right_rekeying {sb : Superblock} (hs : sb.state = .rekeying) :
    Right sb dirs ↔ dirs.Both sb.previousKey.id sb.currentKey.id := by
  rw [Right, hs]

theorem right_invalid {sb : Superblock} (hs : sb.state = .invalid) :
    Right sb dirs ↔ dirs.Empty := by
  rw [Right, hs]

theorem Extends.right (h : Extends c dirs) : Right c.sb dirs := by
  rcases h with ⟨h, hs | hs⟩
  · exact right_of_single h (by rw [hs]; intro hh; cases hh) (by rw [hs]; intro hh; cases hh)
  · exact right_of_single h (by rw [hs]; intro hh; cases hh) (by rw [hs]; intro hh; cases hh)

/-! ### Requests that work with the superblock -/

/-- What a request other than INITIALIZE and DEINITIALIZE goes on to. -/
structure Works (c c' : Control) (dirs : KeyDirs) : Prop where
  type : c'.chan.request.type = c.chan.request.type
  registered : Registered c' dirs

theorem Works.tracks (h : Works c c' dirs) (hinit : c.chan.request.type ≠ .init)
    (hdeinit : c.chan.request.type ≠ .deinit) (hinv : c.chan.request.type ≠ .invalid) :
    Tracks c' dirs :=
  ⟨h.registered, fun hty => absurd (h.type.symm.trans hty) hinit,
    fun hty => absurd (h.type.symm.trans hty) hdeinit,
    fun hty => absurd (h.type.symm.trans hty) hinv⟩

/-- A failure leaves the keys as they are. -/
theorem Works.checked (he : c.checked Control.failing next = .ok c')
    (hfail : c.chan.generatedPrim.succ = false → Right c.sb dirs)
    (hnext : c.chan.generatedPrim.succ = true → next = .ok c' → Works c c' dirs) :
    Works c c' dirs := by
  unfold Control.checked at he
  split at he
  · rename_i hs
    exact hnext hs he
  · rename_i hs
    cases he
    exact ⟨rfl, hfail (Bool.eq_false_iff.mpr hs)⟩

theorem Works.startVbaAccess {op : Op} (he : c.startVbaAccess op = .ok c')
    (h : Right c.sb dirs) (hop : op = .readVbaAtVbd ∨ op = .writeVbaAtVbd) :
    Works c c' dirs := by
  unfold Control.startVbaAccess at he
  dsimp only at he
  split at he
  · cases he
    rcases hop with rfl | rfl <;> exact ⟨rfl, h⟩
  · split at he
    · cases he
      exact ⟨rfl, h⟩
    · cases he
      rcases hop with rfl | rfl <;> exact ⟨rfl, h⟩
  · cases he
    rcases hop with rfl | rfl <;> exact ⟨rfl, h⟩
  · cases he
    rcases hop with rfl | rfl <;> exact ⟨rfl, h⟩
  · cases he

theorem Works.executeReadVba (h : Tracks c dirs) (he : c.executeReadVba = .ok c') :
    Works c c' dirs := by
  unfold Control.executeReadVba at he
  split at he
  · rename_i hs
    exact .startVbaAccess he (h.right_of_submitted hs) (.inl rfl)
  · rename_i hs
    cases he
    exact ⟨rfl, h.got hs⟩
  · cases he
    exact ⟨rfl, h.registered⟩

/-- A new snapshot does not change the keys. -/
theorem right_of_takeOverSnapshot {sb : Superblock} (h : Right c.sb dirs)
    (he : c.takeOverSnapshot = .ok sb) : Right sb dirs := by
  unfold Control.takeOverSnapshot at he
  dsimp only at he
  split at he
  · split at he
    · cases he
      exact h
    · cases he
  · split at he
    · cases he
      exact h
    · cases he

theorem Works.executeWriteVba (h : Tracks c dirs) (he : c.executeWriteVba = .ok c') :
    Works c c' dirs := by
  unfold Control.executeWriteVba at he
  split at he
  · rename_i hs
    exact .startVbaAccess he (h.right_of_submitted hs) (.inr rfl)
  · rename_i hs
    obtain ⟨sb, hsb, he⟩ := Exec.bind_eq_ok.mp he
    have hright : Right sb dirs := right_of_takeOverSnapshot (h.got hs) hsb
    cases he
    exact ⟨rfl, hright⟩
  · cases he
    exact ⟨rfl, h.registered⟩

/-- A step on the way from the keys to the trust anchor. If failures are met
with an exception, the channel stays at work. -/
structure SecuresOn (fail : Control → Exec Control) (c c' : Control) (dirs : KeyDirs) : Prop
    extends Works c c' dirs where
  sb : c'.sb = c.sb
  busy : fail = Control.throwing → c'.chan.state ≠ .submitted ∧ c'.chan.state ≠ .completed

theorem SecuresOn.checked (hfail : fail = Control.failing ∨ fail = Control.throwing)
    (hright : Right c.sb dirs) (he : c.checked fail next = .ok c')
    (hnext : next = .ok c' → SecuresOn fail c c' dirs) : SecuresOn fail c c' dirs := by
  unfold Control.checked at he
  split at he
  · exact hnext he
  · rcases hfail with rfl | rfl
    · cases he
      exact ⟨⟨rfl, hright⟩, rfl, fun hh => absurd (congrFun hh c) fun hh => by cases hh⟩
    · cases he

theorem SecuresOn.generate {op : Op} {n : UInt64} {c₁ : Control}
    (h : Registered (c₁.generate op n) dirs) (hsb : c₁.sb = c.sb)
    (hty : c₁.chan.request.type = c.chan.request.type) :
    SecuresOn fail c (c₁.generate op n) dirs :=
  ⟨⟨hty, h⟩, hsb, fun _ => ⟨fun hh => (by cases hh), fun hh => by cases hh⟩⟩

theorem SecuresOn.secureSb (hfail : fail = Control.failing ∨ fail = Control.throwing)
    {op : Op} (hr : Leaves c dirs op) (hs : c.chan.state = .done op)
    (he : c.secureSb sha fail op = .ok c') : SecuresOn fail c c' dirs := by
  cases op with
  | encryptCurrentKey =>
    refine .checked hfail hr he fun he => ?_
    split at he
    · cases he
      exact .generate hr rfl rfl
    · cases he
      exact .generate hr rfl rfl
  | encryptPreviousKey =>
    refine .checked hfail hr he fun he => ?_
    cases he
    exact .generate hr rfl rfl
  | syncCache =>
    refine .checked hfail hr he fun he => ?_
    cases he
    exact .generate hr rfl rfl
  | writeSb =>
    refine .checked hfail hr he fun he => ?_
    cases he
    exact .generate hr rfl rfl
  | syncBlkIo =>
    refine .checked hfail hr he fun he => ?_
    cases he
    exact .generate hr rfl rfl
  | _ =>
    cases he
    refine ⟨⟨rfl, ?_⟩, rfl, fun _ => ?_⟩
    · rw [Registered, hs]
      exact hr
    · rw [hs]
      exact ⟨fun hh => (by cases hh), fun hh => by cases hh⟩

theorem Works.executeTreeExtStep {ext : SuperblockState} {op : Op} (h : Tracks c dirs)
    (hext : ext = .extendingVbd ∨ ext = .extendingFt)
    (hop : op = .vbdExtStepInVbd ∨ op = .ftExtStepInFt)
    (he : c.executeTreeExtStep sha ext op = .ok c') : Works c c' dirs := by
  have hcompleted : ∀ {c' : Control}, Extends c dirs → c.treeExtStepCompleted op = .ok c' →
      Works c c' dirs := by
    intro c' hx he
    unfold Control.treeExtStepCompleted at he
    dsimp only at he
    split at he
    · cases he
      exact ⟨rfl, hx.right⟩
    · split at he
      · cases he
        exact ⟨rfl, hx.right⟩
      · obtain ⟨sb, hsb, he⟩ := Exec.bind_eq_ok.mp he
        have hkeys : sb.currentKey = c.sb.currentKey ∧ sb.state = c.sb.state := by
          unfold Control.takeOverTree at hsb
          split at hsb
          · split at hsb
            · cases hsb
              exact ⟨rfl, rfl⟩
            · cases hsb
          · cases hsb
            exact ⟨rfl, rfl⟩
        obtain ⟨hsingle, hstate⟩ := hx
        rw [← hkeys.1] at hsingle
        rw [← hkeys.2] at hstate
        split at he
        · cases he
          exact ⟨rfl, hsingle⟩
        · have hright : Right sb dirs := by
            refine right_of_single hsingle ?_ ?_
            · rcases hstate with hstate | hstate <;> rw [hstate] <;> exact fun hh => by cases hh
            · rcases hstate with hstate | hstate <;> rw [hstate] <;> exact fun hh => by cases hh
          cases he
          exact ⟨rfl, hright⟩
  unfold Control.executeTreeExtStep at he
  split at he
  · rename_i hs
    have hright := h.right_of_submitted hs
    unfold Control.startTreeExtStep at he
    dsimp only at he
    split at he
    · cases he
      exact ⟨rfl, hright⟩
    · split at he
      · rename_i hnormal
        have hsingle := single_of_right hright (by rw [hnormal]; intro hh; cases hh)
          (by rw [hnormal]; intro hh; cases hh)
        cases he
        rcases hext with rfl | rfl
        · exact ⟨rfl, hsingle⟩
        · exact ⟨rfl, hsingle⟩
      · split at he
        · rename_i hstate
          have hx : Extends c dirs := by
            rcases hext with rfl | rfl
            · exact ⟨single_of_right hright (by rw [hstate]; intro hh; cases hh)
                (by rw [hstate]; intro hh; cases hh), .inl hstate⟩
            · exact ⟨single_of_right hright (by rw [hstate]; intro hh; cases hh)
                (by rw [hstate]; intro hh; cases hh), .inr hstate⟩
          cases he
          rcases hop with rfl | rfl
          · exact ⟨rfl, hx⟩
          · exact ⟨rfl, hx⟩
        · cases he
          exact ⟨rfl, hright⟩
  · rename_i hs
    have hx : Extends c dirs := h.got hs
    exact .checked he (fun _ => hx.right) fun _ he => hcompleted hx he
  · rename_i hs
    have hx : Extends c dirs := h.got hs
    exact .checked he (fun _ => hx.right) fun _ he => hcompleted hx he
  · rename_i hs
    refine .checked he (fun _ => h.got hs) fun _ he => ?_
    cases he
    exact ⟨rfl, h.got hs⟩
  · rename_i hs
    exact (SecuresOn.secureSb (.inl rfl) (h.got hs) hs he).toWorks
  · cases he
    exact ⟨rfl, h.registered⟩

theorem Works.executeRekeyVba (h : Tracks c dirs) (hty : c.chan.request.type = .rekeyVba)
    (he : c.executeRekeyVba sha = .ok c') : Works c c' dirs := by
  unfold Control.executeRekeyVba at he
  split at he
  · rename_i hs
    have hright := h.right_of_submitted hs
    split at he
    · cases he
      exact ⟨rfl, hright⟩
    · rename_i hstate
      cases he
      exact ⟨rfl, hright, not_not.mp hstate⟩
  · rename_i hs
    obtain ⟨hright, hstate⟩ := h.got hs
    refine .checked he (fun _ => hright) fun _ he => ?_
    dsimp only at he
    split at he
    · cases he
      exact ⟨rfl, hright⟩
    · cases he
      exact ⟨rfl, hstate, rfl, .inl ⟨hty, hright⟩⟩
  · rename_i hs
    obtain ⟨hstate, ⟨-, hor⟩ | ⟨hd, -⟩⟩ := h.got hs
    · refine .checked he (fun hf => ?_) fun hsucc he => ?_
      · rwa [hf] at hor
      · rw [if_pos hsucc] at hor
        cases he
        exact ⟨rfl, hor⟩
    · rw [hty] at hd
      cases hd
  · rename_i hs
    refine .checked he (fun _ => h.got hs) fun _ he => ?_
    cases he
    exact ⟨rfl, h.got hs⟩
  · rename_i hs
    exact (SecuresOn.secureSb (.inl rfl) (h.got hs) hs he).toWorks
  · cases he
    exact ⟨rfl, h.registered⟩

theorem Works.executeInitializeRekeying (h : Tracks c dirs)
    (he : c.executeInitializeRekeying sha = .ok c') : Works c c' dirs := by
  unfold Control.executeInitializeRekeying at he
  split at he
  · rename_i hs
    cases he
    exact ⟨rfl, h.right_of_submitted hs⟩
  · rename_i hs
    have hright : Right c.sb dirs := h.got hs
    refine .checked he (fun _ => hright) fun _ he => ?_
    split at he
    · cases he
      exact ⟨rfl, hright⟩
    · rename_i hnormal
      have hsingle := single_of_right hright (by rw [not_not.mp hnormal]; intro hh; cases hh)
        (by rw [not_not.mp hnormal]; intro hh; cases hh)
      cases he
      exact ⟨rfl, hsingle, rfl, rfl⟩
  · rename_i hs
    refine .checked he (fun _ => h.got hs) fun _ he => ?_
    cases he
    exact ⟨rfl, h.got hs⟩
  · rename_i hs
    refine .checked he (fun _ => h.got hs) fun _ he => ?_
    cases he
    exact ⟨rfl, h.got hs⟩
  · rename_i hs
    exact (SecuresOn.secureSb (.inl rfl) (h.got hs) hs he).toWorks
  · cases he
    exact ⟨rfl, h.registered⟩

theorem Works.executeSync (h : Tracks c dirs) (he : c.executeSync sha = .ok c') :
    Works c c' dirs := by
  unfold Control.executeSync at he
  split at he
  · rename_i hs
    cases he
    exact ⟨rfl, h.right_of_submitted hs⟩
  · rename_i hs
    have hright : Right c.sb dirs := h.got hs
    unfold Control.checked at he
    split at he
    · cases he
      exact ⟨rfl, hright⟩
    · cases he
  · rename_i hs
    exact (SecuresOn.secureSb (.inr rfl) (h.got hs) hs he).toWorks
  · cases he
    exact ⟨rfl, h.registered⟩

/-! ### The start and the end -/

theorem checked_throwing (he : c.checked Control.throwing next = .ok c') :
    c.chan.generatedPrim.succ = true ∧ next = .ok c' := by
  unfold Control.checked at he
  split at he
  · rename_i hs
    exact ⟨hs, he⟩
  · cases he

theorem Tracks.executeDeinit (h : Tracks c dirs) (hfit : KeyIdsFit c)
    (hty : c.chan.request.type = .deinit) (he : c.executeDeinit sha = .ok c') :
    Tracks c' dirs := by
  have hinit : c'.chan.request.type = c.chan.request.type → c'.chan.request.type ≠ .init :=
    fun ht hh => by rw [ht, hty] at hh; cases hh
  have hinv : c'.chan.request.type = c.chan.request.type → c'.chan.request.type ≠ .invalid :=
    fun ht hh => by rw [ht, hty] at hh; cases hh
  have hrekeying : ∀ {op : Op}, c.chan.state = .done op → c.sb.state = .rekeying := by
    intro op hs
    have hd := h.deinit hty (by rw [hs]; intro hh; cases hh)
    rwa [if_neg (by rw [hs]; intro hh; cases hh)] at hd
  unfold Control.executeDeinit at he
  split at he
  · rename_i hs
    have hstate := hfit.deinit hty hs
    have hright := h.right_of_submitted hs
    cases he
    exact ⟨hright, fun ht => absurd ht (hinit rfl), fun _ _ => hstate,
      fun ht => absurd ht (hinv rfl)⟩
  · rename_i hs
    have hstate := hrekeying hs
    have hright : Right c.sb dirs := h.got hs
    obtain ⟨-, he⟩ := checked_throwing he
    cases he
    exact ⟨⟨hright, hstate, rfl⟩, fun ht => absurd ht (hinit rfl), fun _ _ => hstate,
      fun ht => absurd ht (hinv rfl)⟩
  · rename_i hs
    obtain ⟨hstate, hsingle⟩ := h.got hs
    obtain ⟨hsucc, he⟩ := checked_throwing he
    rw [hstate] at he
    cases he
    exact ⟨⟨hstate, rfl, .inr ⟨hty, hsingle hsucc⟩⟩, fun ht => absurd ht (hinit rfl),
      fun _ _ => hstate,
      fun ht => absurd ht (hinv rfl)⟩
  · rename_i hs
    obtain ⟨hstate, ⟨hd, -⟩ | ⟨-, hempty⟩⟩ := h.got hs
    · rw [hty] at hd
      cases hd
    · obtain ⟨hsucc, he⟩ := checked_throwing he
      cases he
      exact ⟨hempty hsucc, fun ht => absurd ht (hinit rfl), fun _ _ => rfl,
        fun ht => absurd ht (hinv rfl)⟩
  · rename_i hs
    have hstate := hrekeying hs
    obtain ⟨⟨htype, hreg⟩, hsb, hbusy⟩ := SecuresOn.secureSb (.inr rfl) (h.got hs) hs he
    refine ⟨hreg, fun ht => absurd ht (hinit htype), fun _ _ => ?_,
      fun ht => absurd ht (hinv htype)⟩
    rw [if_neg (hbusy rfl).2, hsb]
    exact hstate
  · cases he
    exact h

/-- A slot that was read does not change the keys of the superblock. -/
theorem sb_of_checkSlot (he : c.checkSlot sha = .ok c') : c'.sb = c.sb ∧
    c'.chan.request.type = c.chan.request.type := by
  unfold Control.checkSlot at he
  dsimp only at he
  split at he
  · cases he
    exact ⟨rfl, rfl⟩
  · split at he
    · cases he
    · split at he
      · cases he
        exact ⟨rfl, rfl⟩
      · cases he
        exact ⟨rfl, rfl⟩

theorem Tracks.executeInitialize (h : Tracks c dirs) (hfit : KeyIdsFit c)
    (hty : c.chan.request.type = .init) (he : c.executeInitialize sha = .ok c') :
    Tracks c' dirs := by
  have hdeinit : c'.chan.request.type = c.chan.request.type →
      c'.chan.request.type ≠ .deinit := fun ht hh => by rw [ht, hty] at hh; cases hh
  have hinv : c'.chan.request.type = c.chan.request.type → c'.chan.request.type ≠ .invalid :=
    fun ht hh => by rw [ht, hty] at hh; cases hh
  have hinvalid : c.chan.state ≠ .completed → c.sb.state = .invalid := h.init hty
  unfold Control.executeInitialize at he
  split at he
  · rename_i hs
    have hsb := hinvalid (by rw [hs]; intro hh; cases hh)
    have hright := h.right_of_submitted hs
    cases he
    exact ⟨hright, fun _ _ => hsb, fun ht => absurd ht (hdeinit rfl),
      fun ht => absurd ht (hinv rfl)⟩
  · rename_i hs
    have hsb := hinvalid (by rw [hs]; intro hh; cases hh)
    have hright : Right c.sb dirs := h.got hs
    cases he
    exact ⟨hright, fun _ _ => hsb, fun ht => absurd ht (hdeinit rfl),
      fun ht => absurd ht (hinv rfl)⟩
  · rename_i hs
    have hsb := hinvalid (by rw [hs]; intro hh; cases hh)
    have hright : Right c.sb dirs := h.got hs
    obtain ⟨-, he⟩ := checked_throwing he
    obtain ⟨c₁, hc₁, he⟩ := Exec.bind_eq_ok.mp he
    obtain ⟨hsb₁, hty₁⟩ := sb_of_checkSlot hc₁
    rw [← hsb₁] at hsb hright
    split at he
    · cases he
      exact ⟨hright, fun _ _ => hsb, fun ht => absurd ht (hdeinit hty₁),
        fun ht => absurd ht (hinv hty₁)⟩
    · obtain ⟨u, -, he⟩ := Exec.bind_eq_ok.mp he
      cases he
      exact ⟨hright, fun _ _ => hsb, fun ht => absurd ht (hdeinit hty₁),
        fun ht => absurd ht (hinv hty₁)⟩
  · rename_i hs
    have hsb := hinvalid (by rw [hs]; intro hh; cases hh)
    have hright : Right c.sb dirs := h.got hs
    obtain ⟨-, he⟩ := checked_throwing he
    cases he
    exact ⟨hright, fun _ _ => hsb, fun ht => absurd ht (hdeinit rfl),
      fun ht => absurd ht (hinv rfl)⟩
  · rename_i hs
    have hsb := hinvalid (by rw [hs]; intro hh; cases hh)
    have hright : Right c.sb dirs := h.got hs
    have hempty := (right_invalid hsb).mp hright
    obtain ⟨-, he⟩ := checked_throwing he
    cases he
    exact ⟨⟨hempty, rfl⟩, fun _ _ => hsb, fun ht => absurd ht (hdeinit rfl),
      fun ht => absurd ht (hinv rfl)⟩
  · rename_i hs
    have hsb := hinvalid (by rw [hs]; intro hh; cases hh)
    have hgot := h.got hs
    obtain ⟨hsucc, he⟩ := checked_throwing he
    have hsingle : dirs.Single c.chan.sbCiphertext.currentKey.id := hgot hsucc
    split at he
    · cases he
    · rename_i hstate
      cases he
      exact ⟨⟨hsingle, hstate⟩, fun _ _ => hsb, fun ht => absurd ht (hdeinit rfl),
      fun ht => absurd ht (hinv rfl)⟩
    · rename_i hne hne'
      obtain ⟨u, -, he⟩ := Exec.bind_eq_ok.mp he
      have hright : Right (c.takeOverSuperblock false).sb dirs :=
        right_of_single hsingle hne hne'
      cases he
      exact ⟨hright, fun _ hs => absurd rfl hs, fun ht => absurd ht (hdeinit rfl),
      fun ht => absurd ht (hinv rfl)⟩
  · rename_i hs
    have hsb := hinvalid (by rw [hs]; intro hh; cases hh)
    obtain ⟨hsingle, hstate⟩ := h.got hs
    have hid := hfit.previous hty hs
    obtain ⟨-, he⟩ := checked_throwing he
    cases he
    exact ⟨⟨hsingle, hstate, hid⟩, fun _ _ => hsb, fun ht => absurd ht (hdeinit rfl),
      fun ht => absurd ht (hinv rfl)⟩
  · rename_i hs
    have hgot := h.got hs
    obtain ⟨hsucc, he⟩ := checked_throwing he
    obtain ⟨hboth, hstate⟩ := hgot hsucc
    have hright : Right (c.takeOverSuperblock true).sb dirs := (right_rekeying hstate).mpr hboth
    cases he
    exact ⟨hright, fun _ hs => absurd rfl hs, fun ht => absurd ht (hdeinit rfl),
      fun ht => absurd ht (hinv rfl)⟩
  · cases he
    exact h

/-- Execution keeps track of the keys. -/
theorem Tracks.execute (h : Tracks c dirs) (hfit : KeyIdsFit c) (he : c.execute sha = .ok c') :
    Tracks c' dirs := by
  unfold Control.execute at he
  split at he
  · rename_i hty
    exact (Works.executeReadVba h he).tracks (by rw [hty]; intro hh; cases hh)
      (by rw [hty]; intro hh; cases hh) (by rw [hty]; intro hh; cases hh)
  · rename_i hty
    exact (Works.executeWriteVba h he).tracks (by rw [hty]; intro hh; cases hh)
      (by rw [hty]; intro hh; cases hh) (by rw [hty]; intro hh; cases hh)
  · rename_i hty
    exact (Works.executeSync h he).tracks (by rw [hty]; intro hh; cases hh)
      (by rw [hty]; intro hh; cases hh) (by rw [hty]; intro hh; cases hh)
  · rename_i hty
    exact (Works.executeInitializeRekeying h he).tracks
      (by rw [hty]; intro hh; cases hh) (by rw [hty]; intro hh; cases hh)
      (by rw [hty]; intro hh; cases hh)
  · rename_i hty
    exact (Works.executeRekeyVba h hty he).tracks (by rw [hty]; intro hh; cases hh)
      (by rw [hty]; intro hh; cases hh) (by rw [hty]; intro hh; cases hh)
  · rename_i hty
    exact (Works.executeTreeExtStep h (.inl rfl) (.inl rfl) he).tracks
      (by rw [hty]; intro hh; cases hh) (by rw [hty]; intro hh; cases hh)
      (by rw [hty]; intro hh; cases hh)
  · rename_i hty
    exact (Works.executeTreeExtStep h (.inr rfl) (.inr rfl) he).tracks
      (by rw [hty]; intro hh; cases hh) (by rw [hty]; intro hh; cases hh)
      (by rw [hty]; intro hh; cases hh)
  · cases he
  · cases he
  · rename_i hty
    exact h.executeInitialize hfit hty he
  · rename_i hty
    exact h.executeDeinit hfit hty he
  · cases he
    exact h

end Tracking

end Genode.Tresor.SbControl
