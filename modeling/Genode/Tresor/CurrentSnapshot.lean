import Genode.Tresor.SuperblockSlots
import Genode.Tresor.VbdSnapshots

/-!
# CurrentSnapshot — the snapshot that the superblock works on

The current snapshot is to be valid and the newest one. Every request keeps
it so, except that a synchronization or a re-encryption may find the current
snapshot disposable: neither of the current generation nor of the one that
the superblock knows as the last secured generation.
-/

namespace Genode.Tresor.SbControl

open Genode.Lib

/-! ## Snapshots -/

section Snapshots

variable {snaps snaps' : Snapshots} {curr idx : SnapshotIndex} {s : Snapshot}
  {currGen lastSecured : Generation}

/-- The snapshot at `curr` is valid and none is newer. -/
structure Current (snaps : Snapshots) (curr : SnapshotIndex) : Prop where
  valid : (snaps curr).valid = true
  newest : ∀ idx, (snaps idx).valid = true → (snaps idx).gen ≤ (snaps curr).gen

/-- The current snapshot gets changed, but not older. -/
theorem Current.update (h : Current snaps curr) (hs : s.valid = true)
    (hgen : (snaps curr).gen ≤ s.gen) (idx : SnapshotIndex) :
    Current (Function.update snaps idx s) idx := by
  constructor
  · rw [Function.update_self]
    exact hs
  · intro i hi
    rw [Function.update_self]
    by_cases he : i = idx
    · rw [he, Function.update_self]
      exact UInt64.le_refl _
    · rw [Function.update_of_ne he] at hi ⊢
      exact UInt64.le_trans (h.newest i hi) hgen

theorem valid_of_discard
    (h : (snaps.discardDisposableSnapshots currGen lastSecured idx).valid = true) :
    snaps.discardDisposableSnapshots currGen lastSecured idx = snaps idx := by
  unfold Snapshots.discardDisposableSnapshots at h ⊢
  split at h
  · cases h
  · rename_i hd
    rw [if_neg hd]

theorem discard_of_not_disposable (h : Snapshots.disposable (snaps idx) currGen lastSecured = false) :
    snaps.discardDisposableSnapshots currGen lastSecured idx = snaps idx := by
  rw [Snapshots.discardDisposableSnapshots, h]
  rfl

/-- Discarding snapshots is all right as long as the current one stays. -/
theorem Current.discard (h : Current snaps curr)
    (hd : Snapshots.disposable (snaps curr) currGen lastSecured = false) :
    Current (snaps.discardDisposableSnapshots currGen lastSecured) curr := by
  have hcurr := discard_of_not_disposable hd
  constructor
  · rw [hcurr]
    exact h.valid
  · intro i hi
    rw [hcurr, valid_of_discard hi]
    rw [valid_of_discard hi] at hi
    exact h.newest i hi

theorem disposable_comm (s : Snapshot) (g g' : Generation) :
    Snapshots.disposable s g g' = Snapshots.disposable s g' g := by
  rw [Snapshots.disposable, Snapshots.disposable, Bool.and_right_comm]

/-- Snapshots of the same kind have the same current one. -/
theorem Current.of_sameKind (h : Current snaps curr)
    (hk : ∀ idx, Vbd.SameKind (snaps' idx) (snaps idx)) : Current snaps' curr := by
  constructor
  · rw [(hk curr).valid]
    exact h.valid
  · intro i hi
    rw [(hk i).valid] at hi
    rw [(hk i).gen, (hk curr).gen]
    exact h.newest i hi

/-- The newest snapshot is as new as the current one. -/
theorem Current.gen_newest (h : Current snaps curr) (hn : snaps.newestSnapshotIdx = some idx) :
    (snaps idx).gen = (snaps curr).gen := by
  obtain ⟨hv, hnew⟩ := newestSnapshotIdx_spec hn
  exact UInt64.le_antisymm (h.newest idx hv) (hnew curr h.valid)

end Snapshots

/-- The superblock, if valid, has a current snapshot. -/
def HasCurrent (sb : Superblock) : Prop := sb.valid = true → Current sb.snapshots sb.currSnap

/-- A superblock with a current snapshot that is not of a future generation. -/
structure Sound (c : Control) : Prop where
  valid : c.sb.valid = true
  current : Current c.sb.snapshots c.sb.currSnap
  gen_le : c.sb.snap.gen ≤ c.currGen

/-! ## What the channel knows -/

section Knowledge

variable {slots : SuperblockIndex → Block} {c : Control}

/-- The slot that the channel has in mind holds a superblock of the
generation that the channel has in mind. -/
def FoundSlot (slots : SuperblockIndex → Block) (c : Control) : Prop :=
  ∃ sb : Superblock, Superblock.decodeFromBlk (slots c.chan.sbIdx) = .ok sb ∧ sb.valid = true ∧
    sb.snap.gen = c.chan.generation

/-- The channel has read the superblock that it takes over. -/
structure TookSlot (c : Control) : Prop where
  valid : c.chan.sbCiphertext.valid = true
  current : HasCurrent c.chan.sbCiphertext
  gen : c.chan.sbCiphertext.snap.gen = c.chan.generation

/-- The superblock that is being secured has a current snapshot. -/
def CipherCurrent (c : Control) : Prop :=
  Current c.chan.sbCiphertext.snapshots c.chan.sbCiphertext.currSnap

/-- What holds while the channel waits for an operation. -/
def Awaits (slots : SuperblockIndex → Block) (c : Control) : Op → Prop
  | .maxSbHash => c.chan.sbFound = false
  | .readSb => (c.chan.sbFound = true → FoundSlot slots c) ∧
      c.chan.generatedPrim.blkNr = UInt64.ofNat c.chan.readSbIdx.val
  | .readCurrentSb => FoundSlot slots c ∧
      c.chan.generatedPrim.blkNr = UInt64.ofNat c.chan.sbIdx.val
  | .decryptCurrentKey => TookSlot c
  | .addCurrentKeyAtCryptoModule => TookSlot c
  | .decryptPreviousKey => TookSlot c
  | .addPreviousKeyAtCryptoModule => TookSlot c
  | .encryptCurrentKey => Sound c ∧ CipherCurrent c
  | .encryptPreviousKey => Sound c ∧ CipherCurrent c
  | .syncCache => Sound c ∧ CipherCurrent c
  | .writeSb => Sound c ∧ CipherCurrent c
  | .syncBlkIo => Sound c ∧ CipherCurrent c
  | .secureSb => Sound c ∧ CipherCurrent c
  | .rekeyVbaInVbd => Sound c ∧ Keeps c
  | .ftExtStepInFt => Sound c ∧ c.chan.request.type = .ftExtensionStep
  | _ => Sound c

/-- What holds when an operation is done. -/
def Got (slots : SuperblockIndex → Block) (c : Control) : Op → Prop
  | .maxSbHash => c.chan.sbFound = false
  | .readSb => (c.chan.sbFound = true → FoundSlot slots c) ∧
      (c.chan.generatedPrim.succ = true →
        Superblock.decodeFromBlk (slots c.chan.readSbIdx) = .ok c.chan.sbCiphertext)
  | .readCurrentSb => c.chan.generatedPrim.succ = true → TookSlot c
  | .decryptCurrentKey => TookSlot c
  | .addCurrentKeyAtCryptoModule => TookSlot c
  | .decryptPreviousKey => TookSlot c
  | .addPreviousKeyAtCryptoModule => TookSlot c
  | .encryptCurrentKey => Sound c ∧ CipherCurrent c
  | .encryptPreviousKey => Sound c ∧ CipherCurrent c
  | .syncCache => Sound c ∧ CipherCurrent c
  | .writeSb => Sound c ∧ CipherCurrent c
  | .syncBlkIo => Sound c ∧ CipherCurrent c
  | .secureSb => Sound c
  | .writeVbaAtVbd => Sound c ∧ (c.chan.snapshots ⟨0, maxNrOfSnapshots_pos⟩).valid = true ∧
      ((c.chan.snapshots ⟨0, maxNrOfSnapshots_pos⟩).gen = c.sb.snap.gen ∨
        (c.chan.snapshots ⟨0, maxNrOfSnapshots_pos⟩).gen = c.currGen)
  | .rekeyVbaInVbd => Sound c ∧ (c.chan.generatedPrim.succ = true →
      Current c.chan.snapshots c.sb.currSnap ∧
      (c.chan.snapshots c.sb.currSnap).gen ≤ c.currGen)
  | .vbdExtStepInVbd => Sound c ∧ (c.chan.generatedPrim.succ = true →
      ∀ idx, (c.chan.snapshots idx).valid = true → (c.chan.snapshots idx).gen ≤ c.currGen)
  | .ftExtStepInFt => Sound c ∧ c.chan.request.type = .ftExtensionStep
  | _ => Sound c

/-- What holds at a state of the channel. -/
def Knows (slots : SuperblockIndex → Block) (c : Control) : Prop :=
  match c.chan.state with
  | .submitted => c.chan.request.type = .init ∨ c.chan.request.type = .invalid ∨ Sound c
  | .pending op => Awaits slots c op
  | .done op => Got slots c op
  | .completed => True

/-- What holds of the superblock control, given the slots of the device. -/
structure Fit (slots : SuperblockIndex → Block) (c : Control) : Prop where
  sound : c.sb.valid = true → Sound c
  knows : Knows slots c

/-- Every superblock on the device has a current snapshot. -/
def AllCurrent (slots : SuperblockIndex → Block) : Prop :=
  ∀ (i : SuperblockIndex) (sb : Superblock), Superblock.decodeFromBlk (slots i) = .ok sb →
    HasCurrent sb

end Knowledge

/-! ## Execution -/

section Execution

variable {sha : Block → Hash} {slots : SuperblockIndex → Block} {c c' : Control}
  {fail : Control → Exec Control} {next : Exec Control}

theorem le_succ_of_ne_max {g : Generation} (h : g ≠ maxGeneration) : g ≤ g + 1 := by
  have hlt := g.toNat_lt
  have hne : g.toNat ≠ 2 ^ 64 - 1 := by
    intro he
    apply h
    rw [← UInt64.toNat_inj, he]
    rfl
  rw [UInt64.le_iff_toNat_le, UInt64.toNat_add]
  change g.toNat ≤ (g.toNat + 1) % 2 ^ 64
  rw [Nat.mod_eq_of_lt (by omega)]
  exact Nat.le_succ _

theorem Fit.got (h : Fit slots c) {op : Op} (hs : c.chan.state = .done op) : Got slots c op := by
  have hk := h.knows
  rwa [Knows, hs] at hk

theorem Fit.complete (h : c.sb.valid = true → Sound c) (success : Bool) :
    Fit slots (c.complete success) := by
  refine ⟨fun hv => ?_, trivial⟩
  obtain ⟨h₁, h₂, h₃⟩ := h hv
  exact ⟨h₁, h₂, h₃⟩

theorem Fit.checked (hfail : fail = Control.failing ∨ fail = Control.throwing) (h : Fit slots c)
    (he : c.checked fail next = .ok c')
    (hnext : c.chan.generatedPrim.succ = true → next = .ok c' → Fit slots c') : Fit slots c' := by
  unfold Control.checked at he
  split at he
  · rename_i hs
    exact hnext hs he
  · rcases hfail with rfl | rfl
    · cases he
      exact .complete h.sound false
    · cases he

theorem Sound.secureSbInit (h : Sound c) :
    Sound c.secureSbInit ∧ CipherCurrent c.secureSbInit := by
  have hcurr : Current (c.sb.setSnap { c.sb.snap with gen := c.currGen }).snapshots
      c.sb.currSnap :=
    h.current.update (s := { c.sb.snap with gen := c.currGen }) h.current.valid h.gen_le _
  refine ⟨⟨h.valid, hcurr, ?_⟩, hcurr⟩
  change (Function.update c.sb.snapshots c.sb.currSnap { c.sb.snap with gen := c.currGen }
    c.sb.currSnap).gen ≤ c.currGen
  rw [Function.update_self]
  exact UInt64.le_refl _

theorem Fit.secureSbInit (h : Sound c) : Fit slots c.secureSbInit :=
  ⟨fun _ => h.secureSbInit.1, h.secureSbInit⟩

/-- The way from the keys to the trust anchor. -/
theorem Fit.secureSb (hfail : fail = Control.failing ∨ fail = Control.throwing) (h : Fit slots c)
    (hst : Steady c) {op : Op} (hs : c.chan.state = .done op)
    (he : c.secureSb sha fail op = .ok c') : Fit slots c' := by
  have hgot := h.got hs
  cases op with
  | encryptCurrentKey =>
    refine .checked hfail h he fun _ he => ?_
    obtain ⟨⟨h₁, h₂, h₃⟩, hcipher⟩ := hgot
    split at he
    · cases he
      exact ⟨fun _ => ⟨h₁, h₂, h₃⟩, ⟨h₁, h₂, h₃⟩, hcipher⟩
    · cases he
      exact ⟨fun _ => ⟨h₁, h₂, h₃⟩, ⟨h₁, h₂, h₃⟩, hcipher⟩
  | encryptPreviousKey =>
    refine .checked hfail h he fun _ he => ?_
    obtain ⟨⟨h₁, h₂, h₃⟩, hcipher⟩ := hgot
    cases he
    exact ⟨fun _ => ⟨h₁, h₂, h₃⟩, ⟨h₁, h₂, h₃⟩, hcipher⟩
  | syncCache =>
    refine .checked hfail h he fun _ he => ?_
    obtain ⟨⟨h₁, h₂, h₃⟩, hcipher⟩ := hgot
    cases he
    exact ⟨fun _ => ⟨h₁, h₂, h₃⟩, ⟨h₁, h₂, h₃⟩, hcipher⟩
  | writeSb =>
    refine .checked hfail h he fun _ he => ?_
    obtain ⟨⟨h₁, h₂, h₃⟩, hcipher⟩ := hgot
    cases he
    exact ⟨fun _ => ⟨h₁, h₂, h₃⟩, ⟨h₁, h₂, h₃⟩, hcipher⟩
  | syncBlkIo =>
    refine .checked hfail h he fun _ he => ?_
    obtain ⟨⟨h₁, h₂, h₃⟩, hcipher⟩ := hgot
    have hle := UInt64.le_trans h₃ (le_succ_of_ne_max hst.currGen)
    cases he
    exact ⟨fun _ => ⟨h₁, h₂, hle⟩, ⟨h₁, h₂, hle⟩, hcipher⟩
  | _ =>
    cases he
    exact h

/-- The end of securing. -/
theorem Fit.secured (h : Sound c) : Fit slots c.superblockSecured.markReqSuccessful := by
  obtain ⟨h₁, h₂, h₃⟩ := h
  have hs : Sound c.superblockSecured := ⟨h₁, h₂, h₃⟩
  exact Fit.complete (fun _ => hs) true

theorem Fit.startVbaAccess {op : Op} (he : c.startVbaAccess op = .ok c') (h : Sound c)
    (hop : ∀ c, Sound c → Awaits slots c op) : Fit slots c' := by
  obtain ⟨h₁, h₂, h₃⟩ := h
  unfold Control.startVbaAccess at he
  dsimp only at he
  split at he
  · cases he
    exact ⟨fun _ => ⟨h₁, h₂, h₃⟩, hop _ ⟨h₁, h₂, h₃⟩⟩
  · split at he
    · cases he
      exact .complete (fun _ => ⟨h₁, h₂, h₃⟩) false
    · cases he
      exact ⟨fun _ => ⟨h₁, h₂, h₃⟩, hop _ ⟨h₁, h₂, h₃⟩⟩
  · cases he
    exact ⟨fun _ => ⟨h₁, h₂, h₃⟩, hop _ ⟨h₁, h₂, h₃⟩⟩
  · cases he
    exact ⟨fun _ => ⟨h₁, h₂, h₃⟩, hop _ ⟨h₁, h₂, h₃⟩⟩
  · cases he

/-- The superblock at the start of a request that works with it. -/
theorem Fit.sound_of_submitted (h : Fit slots c) (hs : c.chan.state = .submitted)
    (hinit : c.chan.request.type ≠ .init) (hinv : c.chan.request.type ≠ .invalid) :
    Sound c := by
  have hk := h.knows
  rw [Knows, hs] at hk
  rcases hk with hk | hk | hk
  · exact absurd hk hinit
  · exact absurd hk hinv
  · exact hk

theorem Fit.executeReadVba (h : Fit slots c) (hty : c.chan.request.type = .readVba)
    (he : c.executeReadVba = .ok c') : Fit slots c' := by
  unfold Control.executeReadVba at he
  split at he
  · rename_i hs
    have hsound := h.sound_of_submitted hs (by rw [hty]; intro hh; cases hh)
      (by rw [hty]; intro hh; cases hh)
    exact .startVbaAccess he hsound fun _ hc => hc
  · cases he
    exact .complete h.sound _
  · cases he
    exact h

/-- A snapshot that was written becomes the current one. -/
theorem Sound.takeOverSnapshot {sb : Superblock} (h : Sound c)
    (hv : (c.chan.snapshots ⟨0, maxNrOfSnapshots_pos⟩).valid = true)
    (hgen : (c.chan.snapshots ⟨0, maxNrOfSnapshots_pos⟩).gen = c.sb.snap.gen ∨
      (c.chan.snapshots ⟨0, maxNrOfSnapshots_pos⟩).gen = c.currGen)
    (he : c.takeOverSnapshot = .ok sb) : Sound { c with sb := sb } := by
  have hle : c.sb.snap.gen ≤ (c.chan.snapshots ⟨0, maxNrOfSnapshots_pos⟩).gen := by
    rcases hgen with hgen | hgen
    · rw [hgen]
      exact UInt64.le_refl _
    · rw [hgen]
      exact h.gen_le
  have hle' : (c.chan.snapshots ⟨0, maxNrOfSnapshots_pos⟩).gen ≤ c.currGen := by
    rcases hgen with hgen | hgen
    · rw [hgen]
      exact h.gen_le
    · rw [hgen]
      exact UInt64.le_refl _
  have hnew : ∀ (idx : SnapshotIndex) (s : Snapshot), s.valid = true →
      s.gen = (c.chan.snapshots ⟨0, maxNrOfSnapshots_pos⟩).gen →
      Sound { c with sb := { c.sb with currSnap := idx }.setSnap s } := by
    intro idx s hs hg
    refine ⟨h.valid, h.current.update hs (hg ▸ hle) idx, ?_⟩
    change (Function.update c.sb.snapshots idx s idx).gen ≤ c.currGen
    rw [Function.update_self, hg]
    exact hle'
  unfold Control.takeOverSnapshot at he
  dsimp only at he
  split at he
  · split at he
    · cases he
      exact hnew _ _ hv rfl
    · cases he
  · split at he
    · cases he
      exact hnew c.sb.currSnap _ hv rfl
    · cases he

theorem Fit.executeWriteVba (h : Fit slots c) (hty : c.chan.request.type = .writeVba)
    (he : c.executeWriteVba = .ok c') : Fit slots c' := by
  unfold Control.executeWriteVba at he
  split at he
  · rename_i hs
    have hsound := h.sound_of_submitted hs (by rw [hty]; intro hh; cases hh)
      (by rw [hty]; intro hh; cases hh)
    exact .startVbaAccess he hsound fun _ hc => hc
  · rename_i hs
    obtain ⟨hsound, hv, hgen⟩ := h.got hs
    obtain ⟨sb, hsb, he⟩ := Exec.bind_eq_ok.mp he
    cases he
    exact .complete (fun _ => hsound.takeOverSnapshot hv hgen hsb) _
  · cases he
    exact h

theorem Sound.startSync (h : Sound c) (hk : Keeps c) : Fit slots c.startSync := by
  have hcurr := h.current.discard ((disposable_comm _ _ _).trans hk)
  have hsnap := discard_of_not_disposable ((disposable_comm _ _ _).trans hk)
  refine .secureSbInit ⟨h.valid, hcurr, ?_⟩
  change (c.sb.snapshots.discardDisposableSnapshots c.sb.lastSecuredGeneration c.currGen
    c.sb.currSnap).gen ≤ c.currGen
  rw [hsnap]
  exact h.gen_le

theorem Fit.executeSync (h : Fit slots c) (hst : Steady c) (hty : c.chan.request.type = .sync)
    (he : c.executeSync sha = .ok c') : Fit slots c' := by
  unfold Control.executeSync at he
  split at he
  · rename_i hs
    have hsound := h.sound_of_submitted hs (by rw [hty]; intro hh; cases hh)
      (by rw [hty]; intro hh; cases hh)
    cases he
    exact hsound.startSync (hst.keeps hs (.inl hty))
  · rename_i hs
    refine .checked (.inr rfl) h he fun _ he => ?_
    cases he
    exact .secured (h.got hs)
  · rename_i hs
    exact .secureSb (.inr rfl) h hst hs he
  · cases he
    exact h

theorem Fit.executeDeinit (h : Fit slots c) (hst : Steady c)
    (hty : c.chan.request.type = .deinit) (he : c.executeDeinit sha = .ok c') :
    Fit slots c' := by
  unfold Control.executeDeinit at he
  split at he
  · rename_i hs
    have hsound := h.sound_of_submitted hs (by rw [hty]; intro hh; cases hh)
      (by rw [hty]; intro hh; cases hh)
    cases he
    exact hsound.startSync (hst.keeps hs (.inr (.inl hty)))
  · rename_i hs
    refine .checked (.inr rfl) h he fun _ he => ?_
    obtain ⟨h₁, h₂, h₃⟩ := h.got hs
    cases he
    exact ⟨fun _ => ⟨h₁, h₂, h₃⟩, ⟨h₁, h₂, h₃⟩⟩
  · rename_i hs
    refine .checked (.inr rfl) h he fun _ he => ?_
    obtain ⟨h₁, h₂, h₃⟩ := h.got hs
    split at he
    · cases he
    · cases he
      exact ⟨fun _ => ⟨h₁, h₂, h₃⟩, ⟨h₁, h₂, h₃⟩⟩
    · cases he
      exact .complete (fun _ => ⟨h₁, h₂, h₃⟩) true
  · rename_i hs
    refine .checked (.inr rfl) h he fun _ he => ?_
    cases he
    exact .complete (fun hv => by cases hv) true
  · rename_i hs
    exact .secureSb (.inr rfl) h hst hs he
  · cases he
    exact h

theorem Fit.executeInitializeRekeying (h : Fit slots c) (hst : Steady c)
    (hty : c.chan.request.type = .initializeRekeying)
    (he : c.executeInitializeRekeying sha = .ok c') : Fit slots c' := by
  unfold Control.executeInitializeRekeying at he
  split at he
  · rename_i hs
    obtain ⟨h₁, h₂, h₃⟩ := h.sound_of_submitted hs (by rw [hty]; intro hh; cases hh)
      (by rw [hty]; intro hh; cases hh)
    cases he
    exact ⟨fun _ => ⟨h₁, h₂, h₃⟩, ⟨h₁, h₂, h₃⟩⟩
  · rename_i hs
    refine .checked (.inl rfl) h he fun _ he => ?_
    obtain ⟨h₁, h₂, h₃⟩ := h.got hs
    split at he
    · cases he
      exact .complete (fun _ => ⟨h₁, h₂, h₃⟩) false
    · cases he
      exact ⟨fun _ => ⟨rfl, h₂, h₃⟩, ⟨rfl, h₂, h₃⟩⟩
  · rename_i hs
    refine .checked (.inl rfl) h he fun _ he => ?_
    cases he
    exact .secureSbInit (h.got hs)
  · rename_i hs
    refine .checked (.inl rfl) h he fun _ he => ?_
    cases he
    exact .secured (h.got hs)
  · rename_i hs
    exact .secureSb (.inl rfl) h hst hs he
  · cases he
    exact h

theorem Fit.executeRekeyVba (h : Fit slots c) (hst : Steady c)
    (hty : c.chan.request.type = .rekeyVba) (he : c.executeRekeyVba sha = .ok c') :
    Fit slots c' := by
  unfold Control.executeRekeyVba at he
  split at he
  · rename_i hs
    have hkeeps := hst.keeps hs (.inr (.inr hty))
    obtain ⟨h₁, h₂, h₃⟩ := h.sound_of_submitted hs (by rw [hty]; intro hh; cases hh)
      (by rw [hty]; intro hh; cases hh)
    split at he
    · cases he
      exact .complete (fun _ => ⟨h₁, h₂, h₃⟩) false
    · cases he
      exact ⟨fun _ => ⟨h₁, h₂, h₃⟩, ⟨h₁, h₂, h₃⟩, hkeeps⟩
  · rename_i hs
    obtain ⟨hsound, hsnaps⟩ := h.got hs
    refine .checked (.inl rfl) h he fun hsucc he => ?_
    obtain ⟨hcurr, hgen⟩ := hsnaps hsucc
    have hsound' : Sound { c with sb := { c.sb with snapshots := c.chan.snapshots } } :=
      ⟨hsound.valid, hcurr, hgen⟩
    obtain ⟨h₁, h₂, h₃⟩ := hsound'
    dsimp only at he
    split at he
    · cases he
      exact .secureSbInit ⟨h₁, h₂, h₃⟩
    · cases he
      exact ⟨fun _ => ⟨h₁, h₂, h₃⟩, ⟨h₁, h₂, h₃⟩⟩
  · rename_i hs
    refine .checked (.inl rfl) h he fun _ he => ?_
    obtain ⟨h₁, h₂, h₃⟩ := h.got hs
    cases he
    exact .secureSbInit ⟨rfl, h₂, h₃⟩
  · rename_i hs
    refine .checked (.inl rfl) h he fun _ he => ?_
    cases he
    exact .secured (h.got hs)
  · rename_i hs
    exact .secureSb (.inl rfl) h hst hs he
  · cases he
    exact h

/-! ### Extension -/

theorem Fit.startTreeExtStep {ext : SuperblockState} {op : Op}
    (he : c.startTreeExtStep ext op = .ok c') (h : Sound c) (hext : ext ≠ .invalid)
    (hop : ∀ c', Sound c' → c'.chan.request.type = c.chan.request.type → Awaits slots c' op) :
    Fit slots c' := by
  obtain ⟨h₁, h₂, h₃⟩ := h
  unfold Control.startTreeExtStep at he
  dsimp only at he
  split at he
  · cases he
    exact .complete (fun _ => ⟨h₁, h₂, h₃⟩) false
  · split at he
    · cases he
      exact .secureSbInit ⟨decide_eq_true hext, h₂, h₃⟩
    · split at he
      · cases he
        exact ⟨fun _ => ⟨h₁, h₂, h₃⟩, hop _ ⟨h₁, h₂, h₃⟩ rfl⟩
      · cases he
        exact .complete (fun _ => ⟨h₁, h₂, h₃⟩) false

/-- The tree that was extended is taken over with a current snapshot. -/
theorem Sound.takeOverTree {op : Op} {sb sb' : Superblock} (he : c.takeOverTree op sb = .ok sb')
    (h : Sound { c with sb := sb })
    (hsnaps : op = .vbdExtStepInVbd → ∀ idx, (c.chan.snapshots idx).valid = true →
      (c.chan.snapshots idx).gen ≤ c.currGen) : Sound { c with sb := sb' } := by
  obtain ⟨h₁, h₂, h₃⟩ := h
  unfold Control.takeOverTree at he
  split at he
  · rename_i hop
    split at he
    · rename_i idx hidx
      obtain ⟨hv, hnew⟩ := newestSnapshotIdx_spec hidx
      cases he
      exact ⟨h₁, ⟨hv, hnew⟩, hsnaps hop idx hv⟩
    · cases he
  · cases he
    exact ⟨h₁, h₂, h₃⟩

theorem Fit.treeExtStepCompleted {op : Op} (he : c.treeExtStepCompleted op = .ok c')
    (h : Sound c) (hsnaps : op = .vbdExtStepInVbd → ∀ idx, (c.chan.snapshots idx).valid = true →
      (c.chan.snapshots idx).gen ≤ c.currGen) : Fit slots c' := by
  obtain ⟨h₁, h₂, h₃⟩ := h
  unfold Control.treeExtStepCompleted at he
  dsimp only at he
  split at he
  · cases he
    exact .complete (fun _ => ⟨h₁, h₂, h₃⟩) false
  · split at he
    · cases he
      exact .complete (fun _ => ⟨h₁, h₂, h₃⟩) false
    · obtain ⟨sb, hsb, he⟩ := Exec.bind_eq_ok.mp he
      obtain ⟨h₁, h₂, h₃⟩ := Sound.takeOverTree hsb ⟨h₁, h₂, h₃⟩ hsnaps
      split at he
      · cases he
        exact .secureSbInit ⟨rfl, h₂, h₃⟩
      · cases he
        exact .secureSbInit ⟨h₁, h₂, h₃⟩

theorem Fit.executeTreeExtStep {ext : SuperblockState} {op : Op} (h : Fit slots c)
    (hst : Steady c) (hext : ext ≠ .invalid)
    (hty : (c.chan.request.type = .vbdExtensionStep ∧ op = .vbdExtStepInVbd) ∨
      (c.chan.request.type = .ftExtensionStep ∧ op = .ftExtStepInFt))
    (he : c.executeTreeExtStep sha ext op = .ok c') : Fit slots c' := by
  unfold Control.executeTreeExtStep at he
  split at he
  · rename_i hs
    have hsound : Sound c := by
      rcases hty with ⟨hty, -⟩ | ⟨hty, -⟩
      · exact h.sound_of_submitted hs (by rw [hty]; intro hh; cases hh)
          (by rw [hty]; intro hh; cases hh)
      · exact h.sound_of_submitted hs (by rw [hty]; intro hh; cases hh)
          (by rw [hty]; intro hh; cases hh)
    refine .startTreeExtStep he hsound hext fun c' hc htype => ?_
    rcases hty with ⟨-, rfl⟩ | ⟨hty, rfl⟩
    · exact hc
    · exact ⟨hc, htype.trans hty⟩
  · rename_i hs
    obtain ⟨hsound, hsnaps⟩ := h.got hs
    refine .checked (.inl rfl) h he fun hsucc he => ?_
    exact .treeExtStepCompleted he hsound fun _ => hsnaps hsucc
  · rename_i hs
    obtain ⟨hsound, hft⟩ := h.got hs
    refine .checked (.inl rfl) h he fun hsucc he => ?_
    refine .treeExtStepCompleted he hsound fun hop => ?_
    rcases hty with ⟨hty, -⟩ | ⟨-, hft⟩
    · rw [hty] at hft
      cases hft
    · rw [hop] at hft
      cases hft
  · rename_i hs
    refine .checked (.inl rfl) h he fun _ he => ?_
    cases he
    exact .secured (h.got hs)
  · rename_i hs
    exact .secureSb (.inl rfl) h hst hs he
  · cases he
    exact h

/-! ### Initialization -/

/-- A slot of the right hash is remembered with its generation. -/
theorem foundSlot_of_checkSlot (hslots : AllCurrent slots)
    (hfound : c.chan.sbFound = true → FoundSlot slots c)
    (hread : Superblock.decodeFromBlk (slots c.chan.readSbIdx) = .ok c.chan.sbCiphertext)
    (he : c.checkSlot sha = .ok c') : (c'.chan.sbFound = true → FoundSlot slots c') ∧
      c'.sb = c.sb ∧ c'.currGen = c.currGen := by
  unfold Control.checkSlot at he
  dsimp only at he
  split at he
  · cases he
    exact ⟨hfound, rfl, rfl⟩
  · rename_i hinv
    split at he
    · cases he
    · rename_i idx hidx
      split at he
      · cases he
        have hv : c.chan.sbCiphertext.valid = true := decide_eq_true hinv
        have hcurr := hslots _ _ hread hv
        exact ⟨fun _ => ⟨_, hread, hv, (hcurr.gen_newest hidx).symm⟩, rfl, rfl⟩
      · cases he
        exact ⟨hfound, rfl, rfl⟩

/-- The superblock that was found is taken over. -/
theorem TookSlot.takeOver (h : TookSlot c) (hst : Steady c) (previousKey : Bool) :
    Sound (c.takeOverSuperblock previousKey) := by
  have hcurr := h.current h.valid
  have hle : c.chan.sbCiphertext.snap.gen ≤ c.chan.generation + 1 := by
    rw [h.gen]
    exact le_succ_of_ne_max hst.generation
  cases previousKey with
  | false => exact ⟨h.valid, hcurr, hle⟩
  | true => exact ⟨h.valid, hcurr, hle⟩

theorem Fit.initialized (h : Sound c) : Fit slots c.initialized := by
  obtain ⟨h₁, h₂, h₃⟩ := h
  exact ⟨fun _ => ⟨h₁, h₂, h₃⟩, trivial⟩

theorem Fit.executeInitialize (h : Fit slots c) (hst : Steady c) (hslots : AllCurrent slots)
    (he : c.executeInitialize sha = .ok c') : Fit slots c' := by
  have hkeep : c.sb.valid = true → Sound c := h.sound
  unfold Control.executeInitialize at he
  split at he
  · cases he
    refine ⟨fun hv => ?_, rfl⟩
    obtain ⟨h₁, h₂, h₃⟩ := hkeep hv
    exact ⟨h₁, h₂, h₃⟩
  · rename_i hs
    have hgot : c.chan.sbFound = false := h.got hs
    cases he
    refine ⟨fun hv => ?_, fun hf => ?_, rfl⟩
    · obtain ⟨h₁, h₂, h₃⟩ := hkeep hv
      exact ⟨h₁, h₂, h₃⟩
    · cases hgot.symm.trans hf
  · rename_i hs
    obtain ⟨hfound, hread⟩ := h.got hs
    refine .checked (.inr rfl) h he fun hsucc he => ?_
    obtain ⟨c₁, hc₁, he⟩ := Exec.bind_eq_ok.mp he
    obtain ⟨hfound₁, hsb₁, hgen₁⟩ := foundSlot_of_checkSlot hslots hfound (hread hsucc) hc₁
    have hkeep₁ : c₁.sb.valid = true → Sound c₁ := by
      intro hv
      rw [hsb₁] at hv
      obtain ⟨h₁, h₂, h₃⟩ := hkeep hv
      rw [← hsb₁] at h₁ h₂ h₃
      rw [← hgen₁] at h₃
      exact ⟨h₁, h₂, h₃⟩
    split at he
    · cases he
      refine ⟨fun hv => ?_, hfound₁, rfl⟩
      obtain ⟨h₁, h₂, h₃⟩ := hkeep₁ hv
      exact ⟨h₁, h₂, h₃⟩
    · obtain ⟨u, hf, he⟩ := Exec.bind_eq_ok.mp he
      cases he
      refine ⟨fun hv => ?_, hfound₁ (Exec.assert_eq_ok.mp hf), rfl⟩
      obtain ⟨h₁, h₂, h₃⟩ := hkeep₁ hv
      exact ⟨h₁, h₂, h₃⟩
  · rename_i hs
    have hgot := h.got hs
    refine .checked (.inr rfl) h he fun hsucc he => ?_
    obtain ⟨ht₁, ht₂, ht₃⟩ := hgot hsucc
    cases he
    refine ⟨fun hv => ?_, ⟨ht₁, ht₂, ht₃⟩⟩
    obtain ⟨h₁, h₂, h₃⟩ := hkeep hv
    exact ⟨h₁, h₂, h₃⟩
  · rename_i hs
    refine .checked (.inr rfl) h he fun hsucc he => ?_
    obtain ⟨ht₁, ht₂, ht₃⟩ := h.got hs
    cases he
    refine ⟨fun hv => ?_, ⟨ht₁, ht₂, ht₃⟩⟩
    obtain ⟨h₁, h₂, h₃⟩ := hkeep hv
    exact ⟨h₁, h₂, h₃⟩
  · rename_i hs
    refine .checked (.inr rfl) h he fun hsucc he => ?_
    have htook : TookSlot c := h.got hs
    split at he
    · cases he
    · obtain ⟨ht₁, ht₂, ht₃⟩ := htook
      cases he
      refine ⟨fun hv => ?_, ⟨ht₁, ht₂, ht₃⟩⟩
      obtain ⟨h₁, h₂, h₃⟩ := hkeep hv
      exact ⟨h₁, h₂, h₃⟩
    · obtain ⟨u, -, he⟩ := Exec.bind_eq_ok.mp he
      cases he
      exact .initialized (htook.takeOver hst false)
  · rename_i hs
    refine .checked (.inr rfl) h he fun hsucc he => ?_
    obtain ⟨ht₁, ht₂, ht₃⟩ := h.got hs
    cases he
    refine ⟨fun hv => ?_, ⟨ht₁, ht₂, ht₃⟩⟩
    obtain ⟨h₁, h₂, h₃⟩ := hkeep hv
    exact ⟨h₁, h₂, h₃⟩
  · rename_i hs
    refine .checked (.inr rfl) h he fun hsucc he => ?_
    have htook : TookSlot c := h.got hs
    cases he
    exact .initialized (htook.takeOver hst true)
  · cases he
    exact h

/-- Execution keeps the superblock fit. -/
theorem Fit.execute (h : Fit slots c) (hst : Steady c) (hslots : AllCurrent slots)
    (he : c.execute sha = .ok c') : Fit slots c' := by
  unfold Control.execute at he
  split at he
  · rename_i hty
    exact h.executeReadVba hty he
  · rename_i hty
    exact h.executeWriteVba hty he
  · rename_i hty
    exact h.executeSync hst hty he
  · rename_i hty
    exact h.executeInitializeRekeying hst hty he
  · rename_i hty
    exact h.executeRekeyVba hst hty he
  · rename_i hty
    exact h.executeTreeExtStep hst (fun hh => by cases hh) (.inl ⟨hty, rfl⟩) he
  · rename_i hty
    exact h.executeTreeExtStep hst (fun hh => by cases hh) (.inr ⟨hty, rfl⟩) he
  · cases he
  · cases he
  · exact h.executeInitialize hst hslots he
  · rename_i hty
    exact h.executeDeinit hst hty he
  · cases he
    exact h

end Execution

end Genode.Tresor.SbControl
