import Genode.Tresor.SuperblockRuns

/-!
# SuperblockSessions — what happens when nothing fails

The program finds the superblock that was secured last and takes it over,
and secures the superblock, when the other modules do what they are asked
for.
-/

namespace Genode.Tresor.SbControl

open Genode.Lib

/-! ## Steady steps -/

section Steady

variable {c c' : Control}

/-- The current snapshot is not to be discarded. -/
def Keeps (c : Control) : Prop :=
  Snapshots.disposable c.sb.snap c.currGen c.sb.lastSecuredGeneration = false

/-- The condition on a channel that is executed: what starts now does not
discard the current snapshot, and the generations do not run out. -/
structure Steady (c : Control) : Prop where
  keeps : c.chan.state = .submitted → c.chan.request.type = .sync ∨
    c.chan.request.type = .deinit ∨ c.chan.request.type = .rekeyVba → Keeps c
  currGen : c.currGen ≠ maxGeneration
  generation : c.chan.generation ≠ maxGeneration

/-- The condition on a step: if the channel is executed, it is steady. -/
def StaysSteady (w : World) (ev : Event) : Prop :=
  match ev with
  | .execute => Steady w.ctrl
  | _ => True

/-- The generations do not run out. -/
structure Counts (c : Control) : Prop where
  currGen : c.currGen ≠ maxGeneration
  generation : c.chan.generation ≠ maxGeneration

theorem Counts.initial : Counts {} := ⟨by decide, by decide⟩

theorem Counts.congr (h : Counts c) (hgen : c'.currGen = c.currGen)
    (hchan : c'.chan.generation = c.chan.generation) : Counts c' :=
  ⟨hgen ▸ h.currGen, hchan ▸ h.generation⟩

theorem Counts.done (h : Counts c) (hgen : c'.currGen = c.currGen)
    (hchan : c'.chan.generation = c.chan.generation) {op : Op} (hs : c'.chan.state = .done op) :
    Steady c' := by
  obtain ⟨hcurr, hg⟩ := h.congr hgen hchan
  exact ⟨fun hsub => (by cases hs.symm.trans hsub), hcurr, hg⟩

theorem Counts.init (h : Counts c) (hgen : c'.currGen = c.currGen)
    (hchan : c'.chan.generation = c.chan.generation) (hty : c'.chan.request.type = .init) :
    Steady c' := by
  obtain ⟨hcurr, hg⟩ := h.congr hgen hchan
  refine ⟨fun _ hor => ?_, hcurr, hg⟩
  rw [hty] at hor
  rcases hor with hor | hor | hor
  all_goals cases hor

end Steady

section Leads

variable {sha : Block → Hash} {w w' w'' : World}

/-- An event at which the trust anchor tells the hash that it was given. -/
def TellsHash (ev : Event) : Prop := ∀ a, ev = .answer .maxSbHash a → a.success = true

/-- The world gets from one state to another in steady steps. -/
def Leads (sha : Block → Hash) : World → World → Prop :=
  Relation.ReflTransGen fun w w' => ∃ ev, Tr sha w ev w' ∧ TellsHash ev ∧ StaysSteady w ev

theorem Leads.trans (h : Leads sha w w') (h' : Leads sha w' w'') : Leads sha w w'' :=
  Relation.ReflTransGen.trans h h'

theorem Leads.submit {req : Request} (h : MaySubmit w req) :
    Leads sha w { w with ctrl := w.ctrl.submitRequest req } :=
  .single ⟨_, .submit h, fun _ he => (by cases he), trivial⟩

theorem Leads.execute {c : Control} (hst : Steady w.ctrl) (h : w.ctrl.execute sha = .ok c) :
    Leads sha w { w with ctrl := c } := .single ⟨_, .execute h, fun _ he => (by cases he), hst⟩

theorem Leads.drop (h : w.ctrl.chan.state = .completed) :
    Leads sha w { w with ctrl := w.ctrl.dropCompletedRequest } :=
  .single ⟨_, .drop h, fun _ he => (by cases he), trivial⟩

theorem Leads.restart : Leads sha w { w with ctrl := {} } :=
  .single ⟨_, .restart, fun _ he => (by cases he), trivial⟩

/-- Another module does what it is asked for. -/
theorem Leads.answer {op : Op} {a : Answer} {c : Control} (hs : w.ctrl.chan.state = .pending op)
    (ha : Answers sha w (w.ctrl.peekGeneratedRequest op) a) (hsucc : a.success = true)
    (h : w.ctrl.generatedRequestComplete op a = .ok c) :
    Leads sha w { w.perform (w.ctrl.peekGeneratedRequest op) with ctrl := c } :=
  .single ⟨_, .answer hs ha (.performed (.inl hsucc)) h, fun _ he => (by cases he; exact hsucc),
    trivial⟩

/-- Another module does something that has no effect outside the program. -/
theorem Leads.answer_free {op : Op} {a : Answer} {c c' : Control} (hs : c.chan.state = .pending op)
    (ha : ∀ w : World, Answers sha w (c.peekGeneratedRequest op) a) (hsucc : a.success = true)
    (hp : ({ w with ctrl := c } : World).perform (c.peekGeneratedRequest op) = { w with ctrl := c })
    (h : c.generatedRequestComplete op a = .ok c') :
    Leads sha { w with ctrl := c } { w with ctrl := c' } := by
  have hlead : Leads sha { w with ctrl := c } _ := Leads.answer hs (ha _) hsucc h
  rwa [hp] at hlead

/-- A run goes on. -/
theorem Leads.exists_run {init : World → Prop} {hist : List (World × Event)}
    (h : Leads sha w w') (hr : Run init (Tr sha) hist w)
    (hh : ∀ e ∈ hist, TellsHash e.2 ∧ StaysSteady e.1 e.2) :
    ∃ hist', Run init (Tr sha) hist' w' ∧ ∀ e ∈ hist', TellsHash e.2 ∧ StaysSteady e.1 e.2 := by
  obtain ⟨hist', hr', hh', -⟩ := hr.extend (C := fun w ev => TellsHash ev ∧ StaysSteady w ev) hh h
  exact ⟨hist', hr', hh'⟩

end Leads

/-! ## Initialization -/

section Initialize

variable {sha : Block → Hash} {w w' : World} {sb : Superblock} {i : SuperblockIndex}
  {snap : SnapshotIndex}

/-- A device with one superblock, in slot `i`, that the trust anchor knows. -/
structure Holds (sha : Block → Hash) (w : World) (i : SuperblockIndex) (sb : Superblock)
    (snap : SnapshotIndex) : Prop where
  slot : w.slots i = sb.encodeToBlk
  others : ∀ j ≠ i, ∃ other : Superblock, w.slots j = other.encodeToBlk ∧ other.state = .invalid
  valid : sb.state ≠ .invalid
  newest : sb.snapshots.newestSnapshotIdx = some snap
  gen : (sb.snapshots snap).gen ≠ maxGeneration
  anchor : sha (w.slots i) = w.anchor
  keyed : sb.currentKey.value = fun _ => 0
  unkeyed : sb.previousKey.value = fun _ => 0
  notRekeying : sb.state ≠ .rekeying
  freeLevels : freeTreeMinMaxLevel ≤ sb.free.maxLevel

/-- The slots before `readSbIdx` were looked at. -/
structure Seeks (w : World) (i : SuperblockIndex) (gen : Generation) (c : Control) : Prop where
  type : c.chan.request.type = .init
  counts : Counts c
  hash : c.chan.hash = w.anchor
  found : i.val < c.chan.readSbIdx.val →
    c.chan.sbFound = true ∧ c.chan.sbIdx = i ∧ c.chan.generation = gen

/-- A slot was read. -/
def withSlot (c : Control) (blk : Block) (sb : Superblock) : Control :=
  { c with chan := { c.chan with
      generatedPrim := { c.chan.generatedPrim with succ := true }
      state := .done .readSb
      encodedBlk := blk
      sbCiphertext := sb } }

theorem Holds.decode (h : Holds sha w i sb snap) (j : SuperblockIndex) : ∃ other : Superblock,
    w.slots j = other.encodeToBlk ∧ ((j = i ∧ other = sb) ∨ (j ≠ i ∧ other.state = .invalid)) := by
  by_cases hj : j = i
  · exact ⟨sb, by rw [hj, h.slot], .inl ⟨hj, rfl⟩⟩
  · obtain ⟨other, ho, hs⟩ := h.others j hj
    exact ⟨other, ho, .inr ⟨hj, hs⟩⟩

theorem execute_init {c : Control} (h : c.chan.request.type = .init) :
    c.execute sha = c.executeInitialize sha := by
  simp only [Control.execute, h]

/-- Looking at one more slot. -/
theorem Seeks.checkSlot (h : Holds sha w i sb snap) {c : Control}
    (hs : Seeks w i (sb.snapshots snap).gen c) : ∃ (other : Superblock) (c' : Control),
      w.slots c.chan.readSbIdx = other.encodeToBlk ∧
      (withSlot c (w.slots c.chan.readSbIdx) other).checkSlot sha = .ok c' ∧
      c'.chan.request.type = .init ∧ Counts c' ∧ c'.chan.hash = w.anchor ∧
      c'.chan.readSbIdx = c.chan.readSbIdx ∧
      (i.val ≤ c.chan.readSbIdx.val → c'.chan.sbFound = true ∧ c'.chan.sbIdx = i ∧
        c'.chan.generation = (sb.snapshots snap).gen) := by
  obtain ⟨other, ho, ⟨hj, rfl⟩ | ⟨hj, hinv⟩⟩ := h.decode c.chan.readSbIdx
  · have hsha : sha (w.slots c.chan.readSbIdx) = c.chan.hash := by
      rw [hj, h.anchor, hs.hash]
    let c₁ := withSlot c (w.slots c.chan.readSbIdx) other
    refine ⟨other, { c₁ with chan := { c₁.chan with
        generation := (other.snapshots snap).gen
        sbIdx := c.chan.readSbIdx
        sbFound := true } }, ho, ?_, hs.type, ⟨hs.counts.currGen, h.gen⟩, hs.hash, rfl,
      fun _ => ⟨rfl, hj, rfl⟩⟩
    simp only [Control.checkSlot, withSlot, h.valid, h.newest, hsha, if_true, if_false]
    rfl
  · refine ⟨other, withSlot c (w.slots c.chan.readSbIdx) other, ho, ?_, hs.type,
      hs.counts.congr rfl rfl, hs.hash, rfl, fun hle => ?_⟩
    · simp only [Control.checkSlot, withSlot, hinv, if_true]
      rfl
    · exact hs.found (Nat.lt_of_le_of_ne hle fun he => hj (Fin.ext he.symm))

/-- The channel waits for a slot to be read. -/
structure WaitsForSlot (c : Control) : Prop where
  state : c.chan.state = .pending .readSb
  blkNr : c.chan.generatedPrim.blkNr = UInt64.ofNat c.chan.readSbIdx.val

theorem WaitsForSlot.read (hw : WaitsForSlot w.ctrl) {other : Superblock}
    (ho : w.slots w.ctrl.chan.readSbIdx = other.encodeToBlk) :
    Leads sha w
      { w with ctrl := withSlot w.ctrl (w.slots w.ctrl.chan.readSbIdx) other } := by
  refine Leads.answer (a := { blk := w.slots w.ctrl.chan.readSbIdx }) hw.state
    (fun _ => ⟨_, hw.blkNr, rfl⟩) rfl ?_
  simp only [Control.generatedRequestComplete, ho, Superblock.decode_encode, Exec.ok_bind]
  rfl

theorem nextSlot_val {j : SuperblockIndex} (h : j.val < nrOfSuperblockSlots - 1) :
    (nextSlot j).val = j.val + 1 := by
  rw [nextSlot, dif_pos h]

/-- The channel goes on to the next slot. -/
theorem Seeks.next (h : Holds sha w i sb snap) (hs : Seeks w i (sb.snapshots snap).gen w.ctrl)
    (hw : WaitsForSlot w.ctrl) (hlt : w.ctrl.chan.readSbIdx.val < nrOfSuperblockSlots - 1) :
    ∃ c, Leads sha w { w with ctrl := c } ∧ Seeks w i (sb.snapshots snap).gen c ∧
      WaitsForSlot c ∧ c.chan.readSbIdx.val = w.ctrl.chan.readSbIdx.val + 1 := by
  obtain ⟨other, c₁, ho, hc₁, hty, hcounts, hhash, hread, hfound⟩ := hs.checkSlot h
  rw [← hread] at hlt
  let next := nextSlot c₁.chan.readSbIdx
  let c₂ := { c₁ with chan := { c₁.chan with readSbIdx := next } }.generate .readSb
    (UInt64.ofNat next.val)
  have hnext : next.val = w.ctrl.chan.readSbIdx.val + 1 := by
    change (nextSlot c₁.chan.readSbIdx).val = _
    rw [nextSlot_val hlt, hread]
  have hexec : (withSlot w.ctrl (w.slots w.ctrl.chan.readSbIdx) other).execute sha = .ok c₂ := by
    have hty' : (withSlot w.ctrl (w.slots w.ctrl.chan.readSbIdx) other).chan.request.type =
        .init := hs.type
    have hstate : (withSlot w.ctrl (w.slots w.ctrl.chan.readSbIdx) other).chan.state =
        .done .readSb := rfl
    simp only [Control.execute, hty', Control.executeInitialize, hstate, hc₁, Exec.ok_bind, hlt,
      if_true]
    rfl
  have hst : Steady (withSlot w.ctrl (w.slots w.ctrl.chan.readSbIdx) other) :=
    hs.counts.done rfl rfl rfl
  refine ⟨c₂, (hw.read ho).trans (.execute hst hexec),
    ⟨hty, hcounts.congr rfl rfl, hhash, fun hlt' => ?_⟩, ⟨rfl, rfl⟩, hnext⟩
  change i.val < next.val at hlt'
  rw [hnext] at hlt'
  exact hfound (Nat.le_of_lt_succ hlt')

/-- The search has come to its end with the slot of the superblock. -/
structure Chosen (i : SuperblockIndex) (gen : Generation) (op : Op) (c : Control) : Prop where
  type : c.chan.request.type = .init
  state : c.chan.state = .pending op
  sbIdx : c.chan.sbIdx = i
  counts : Counts c
  generation : c.chan.generation = gen

theorem Seeks.last (h : Holds sha w i sb snap) (hs : Seeks w i (sb.snapshots snap).gen w.ctrl)
    (hw : WaitsForSlot w.ctrl) (hlast : ¬ w.ctrl.chan.readSbIdx.val < nrOfSuperblockSlots - 1) :
    ∃ c, Leads sha w { w with ctrl := c } ∧ Chosen i (sb.snapshots snap).gen .readCurrentSb c ∧
      c.chan.generatedPrim.blkNr = UInt64.ofNat i.val := by
  obtain ⟨other, c₁, ho, hc₁, hty, hcounts, hhash, hread, hfound⟩ := hs.checkSlot h
  have hle : i.val ≤ w.ctrl.chan.readSbIdx.val := by
    have hi : i.val < 8 := i.isLt
    change ¬ w.ctrl.chan.readSbIdx.val < 8 - 1 at hlast
    omega
  rw [← hread] at hlast
  obtain ⟨hf, hidx, hgen⟩ := hfound hle
  have hexec : (withSlot w.ctrl (w.slots w.ctrl.chan.readSbIdx) other).execute sha =
      .ok (c₁.generate .readCurrentSb (UInt64.ofNat c₁.chan.sbIdx.val)) := by
    have hty' : (withSlot w.ctrl (w.slots w.ctrl.chan.readSbIdx) other).chan.request.type =
        .init := hs.type
    have hstate : (withSlot w.ctrl (w.slots w.ctrl.chan.readSbIdx) other).chan.state =
        .done .readSb := rfl
    simp only [Control.execute, hty', Control.executeInitialize, hstate, hc₁, Exec.ok_bind, hlast,
      if_false, hf, Exec.assert_true]
    rfl
  have hst : Steady (withSlot w.ctrl (w.slots w.ctrl.chan.readSbIdx) other) :=
    hs.counts.done rfl rfl rfl
  exact ⟨_, (hw.read ho).trans (.execute hst hexec),
    ⟨hty, rfl, hidx, hcounts.congr rfl rfl, hgen⟩, by rw [← hidx]; rfl⟩

/-- The whole search. -/
theorem Seeks.search (h : Holds sha w i sb snap) (hs : Seeks w i (sb.snapshots snap).gen w.ctrl)
    (hw : WaitsForSlot w.ctrl) :
    ∃ c, Leads sha w { w with ctrl := c } ∧ Chosen i (sb.snapshots snap).gen .readCurrentSb c ∧
      c.chan.generatedPrim.blkNr = UInt64.ofNat i.val := by
  induction hn : nrOfSuperblockSlots - 1 - w.ctrl.chan.readSbIdx.val generalizing w with
  | zero => exact hs.last h hw (Nat.not_lt.mpr (Nat.le_of_sub_eq_zero hn))
  | succ n ih =>
    have hlt : w.ctrl.chan.readSbIdx.val < nrOfSuperblockSlots - 1 := by omega
    obtain ⟨c₁, hlead, hs₁, hw₁, hidx⟩ := hs.next h hw hlt
    have h₁ : Holds sha { w with ctrl := c₁ } i sb snap := { h with }
    obtain ⟨c₂, hlead₂, hc₂⟩ := ih h₁ ⟨hs₁.type, hs₁.counts, hs₁.hash, hs₁.found⟩ hw₁ (by
      change nrOfSuperblockSlots - 1 - c₁.chan.readSbIdx.val = n
      omega)
    exact ⟨c₂, hlead.trans hlead₂, hc₂⟩

/-- The start of INITIALIZE, up to the first slot. -/
theorem initialize_seeks (sha : Block → Hash) (hfree : w.ctrl.chan.request.type = .invalid)
    (hcounts : Counts w.ctrl) (i : SuperblockIndex) (gen : Generation) :
    ∃ c, Leads sha w { w with ctrl := c } ∧ Seeks w i gen c ∧ WaitsForSlot c := by
  let c₁ := w.ctrl.submitRequest { type := .init }
  let c₂ := { c₁ with chan := { c₁.chan with sbFound := false } }.generate .maxSbHash 0
  let c₃ : Control := { c₂ with chan := { c₂.chan with
    generatedPrim := { c₂.chan.generatedPrim with succ := true }
    state := .done .maxSbHash
    hash := w.anchor } }
  let c₄ := { c₃ with chan := { c₃.chan with
    readSbIdx := ⟨0, nrOfSuperblockSlots_pos⟩ } }.generate .readSb 0
  have hsubmit : Leads sha w { w with ctrl := c₁ } := .submit ⟨hfree, by decide, .inl rfl⟩
  have hexec : Leads sha { w with ctrl := c₁ } { w with ctrl := c₂ } :=
    Leads.execute (c := c₂) (hcounts.init rfl rfl rfl) rfl
  have hstate : c₂.chan.state = .pending .maxSbHash := rfl
  have hans : Answers sha { w with ctrl := c₂ } (c₂.peekGeneratedRequest .maxSbHash)
      { hash := w.anchor } := fun _ => rfl
  have hanswer : Leads sha { w with ctrl := c₂ } { w with ctrl := c₃ } :=
    Leads.answer hstate hans rfl rfl
  have hexec' : Leads sha { w with ctrl := c₃ } { w with ctrl := c₄ } :=
    Leads.execute (c := c₄) (hcounts.init rfl rfl rfl) rfl
  refine ⟨c₄, hsubmit.trans (hexec.trans (hanswer.trans hexec')),
    ⟨rfl, hcounts.congr rfl rfl, rfl, fun hlt => ?_⟩, ⟨rfl, rfl⟩⟩
  exact absurd hlt (Nat.not_lt_zero _)

/-- The end of INITIALIZE, when the superblock was found. -/
theorem Chosen.leads (h : Holds sha w i sb snap) {gen : Generation}
    (hc : Chosen i gen .readCurrentSb w.ctrl)
    (hblk : w.ctrl.chan.generatedPrim.blkNr = UInt64.ofNat i.val) :
    ∃ c, Leads sha w { w with ctrl := c } ∧ c.sb = sb ∧ c.sbIdx = i ∧ c.currGen = gen + 1 ∧
      c.chan.generation = gen ∧ c.chan.request.type = .invalid := by
  obtain ⟨hty, hstate, hidx, hcounts, hgen⟩ := hc
  let c₁ : Control := { w.ctrl with chan := { w.ctrl.chan with
    generatedPrim := { w.ctrl.chan.generatedPrim with succ := true }
    state := .done .readCurrentSb
    encodedBlk := sb.encodeToBlk
    sbCiphertext := sb } }
  let c₂ := c₁.generate .decryptCurrentKey 0
  let c₃ : Control := { c₂ with chan := { c₂.chan with
    generatedPrim := { c₂.chan.generatedPrim with succ := true }
    state := .done .decryptCurrentKey
    currKeyPlaintext := { c₂.chan.currKeyPlaintext with value := fun _ => 0 } } }
  let c₄ := { c₃ with chan := { c₃.chan with currKeyPlaintext :=
    { c₃.chan.currKeyPlaintext with id := sb.currentKey.id } } }.generate
      .addCurrentKeyAtCryptoModule 0
  let c₅ : Control := { c₄ with chan := { c₄.chan with
    generatedPrim := { c₄.chan.generatedPrim with succ := true }
    state := .done .addCurrentKeyAtCryptoModule } }
  let c₆ := (c₅.takeOverSuperblock false).initialized
  have hread : Leads sha w { w with ctrl := c₁ } := by
    refine Leads.answer (a := { blk := sb.encodeToBlk }) hstate
      (fun _ => ⟨i, hblk, h.slot.symm⟩) rfl ?_
    simp only [Control.generatedRequestComplete, Superblock.decode_encode, Exec.ok_bind]
    rfl
  have hty₁ : c₁.chan.request.type = .init := hty
  have hty₃ : c₃.chan.request.type = .init := hty
  have hty₅ : c₅.chan.request.type = .init := hty
  have hexec₁ : c₁.execute sha = .ok c₂ := by
    rw [execute_init hty₁]
    rfl
  have hstate₂ : c₂.chan.state = .pending .decryptCurrentKey := rfl
  have hans₂ : Leads sha { w with ctrl := c₂ } { w with ctrl := c₃ } :=
    Leads.answer_free (a := {}) hstate₂ (fun _ => trivial) rfl rfl rfl
  have hexec₃ : c₃.execute sha = .ok c₄ := by
    rw [execute_init hty₃]
    rfl
  have hstate₄ : c₄.chan.state = .pending .addCurrentKeyAtCryptoModule := rfl
  have hans₄ : Leads sha { w with ctrl := c₄ } { w with ctrl := c₅ } :=
    Leads.answer_free (a := {}) hstate₄ (fun _ => trivial) rfl rfl rfl
  have hsb : (c₅.takeOverSuperblock false).sb = sb := by
    have hk : sb.currentKey.withoutValue = sb.currentKey := by
      rw [Key.withoutValue, ← h.keyed]
    have hp : sb.previousKey.withoutValue = sb.previousKey := by
      rw [Key.withoutValue, ← h.unkeyed]
    change ({ sb.initSbWithoutKeyValues with
      currentKey := sb.currentKey.withoutValue } : Superblock) = sb
    simp only [Superblock.initSbWithoutKeyValues, hk, hp]
  have hexec₅ : c₅.execute sha = .ok c₆ := by
    rw [execute_init hty₅]
    have hlevels : Exec.assert (decide (freeTreeMinMaxLevel ≤
        (c₅.takeOverSuperblock false).sb.free.maxLevel)) = .ok () := by
      rw [hsb, decide_eq_true h.freeLevels, Exec.assert_true]
    have hstate : c₅.chan.sbCiphertext.state = sb.state := rfl
    have hs₅ : c₅.chan.state = .done .addCurrentKeyAtCryptoModule := rfl
    have hsucc : c₅.chan.generatedPrim.succ = true := rfl
    simp only [Control.executeInitialize, hs₅, Control.checked, hsucc, if_true]
    split
    · rename_i hinv
      exact absurd (hstate.symm.trans hinv) h.valid
    · rename_i hrk
      exact absurd (hstate.symm.trans hrk) h.notRekeying
    · rw [hlevels]
      rfl
  have hst₁ : Steady c₁ := hcounts.init rfl rfl hty₁
  have hst₃ : Steady c₃ := hcounts.init rfl rfl hty₃
  have hst₅ : Steady c₅ := hcounts.init rfl rfl hty₅
  refine ⟨c₆.dropCompletedRequest, ?_, hsb, hidx, ?_, hgen, rfl⟩
  · exact hread.trans ((Leads.execute hst₁ hexec₁).trans (hans₂.trans
      ((Leads.execute hst₃ hexec₃).trans (hans₄.trans
        ((Leads.execute hst₅ hexec₅).trans (Leads.drop rfl))))))
  · rw [← hgen]
    rfl

/-- The superblock that was secured last is found, and taken over. -/
theorem initialize_leads (h : Holds sha w i sb snap)
    (hfree : w.ctrl.chan.request.type = .invalid) (hcounts : Counts w.ctrl) :
    ∃ c, Leads sha w { w with ctrl := c } ∧ c.sb = sb ∧ c.sbIdx = i ∧
      c.currGen = (sb.snapshots snap).gen + 1 ∧ c.chan.generation = (sb.snapshots snap).gen ∧
      c.chan.request.type = .invalid := by
  obtain ⟨c₁, hlead₁, hs₁, hw₁⟩ :=
    initialize_seeks sha hfree hcounts i (sb.snapshots snap).gen
  have h₁ : Holds sha { w with ctrl := c₁ } i sb snap := { h with }
  have hs₁' : Seeks { w with ctrl := c₁ } i (sb.snapshots snap).gen c₁ :=
    ⟨hs₁.type, hs₁.counts, hs₁.hash, hs₁.found⟩
  obtain ⟨c₂, hlead₂, hc₂, hblk⟩ := hs₁'.search h₁ hw₁
  have h₂ : Holds sha { w with ctrl := c₂ } i sb snap := { h with }
  obtain ⟨c₃, hlead₃, hc₃⟩ := Chosen.leads h₂ hc₂ hblk
  exact ⟨c₃, hlead₁.trans (hlead₂.trans hlead₃), hc₃⟩

end Initialize

/-! ## Securing -/

section Secure

variable {sha : Block → Hash} {w w' : World} {c : Control}

/-- The requests that secure the superblock. -/
def Secures (c : Control) : Prop :=
  c.chan.request.type = .sync ∨ c.chan.request.type = .deinit ∨
    c.chan.request.type = .vbdExtensionStep ∨ c.chan.request.type = .ftExtensionStep ∨
    c.chan.request.type = .initializeRekeying ∨ c.chan.request.type = .rekeyVba

/-- The operations up to the trust anchor. -/
def securing (op : Op) : Bool :=
  match op with
  | .encryptCurrentKey => true
  | .encryptPreviousKey => true
  | .syncCache => true
  | .writeSb => true
  | .syncBlkIo => true
  | _ => false

/-- They all do it the same way. -/
theorem Secures.execute_eq (sha : Block → Hash) (h : Secures c) {op : Op}
    (hop : securing op = true) (hs : c.chan.state = .done op) : ∃ fail, c.execute sha = c.secureSb sha fail op := by
  rcases h with h | h | h | h | h | h
  · refine ⟨Control.throwing, ?_⟩
    simp only [Control.execute, h, Control.executeSync, hs]
    cases op <;> first | rfl | cases hop
  · refine ⟨Control.throwing, ?_⟩
    simp only [Control.execute, h, Control.executeDeinit, hs]
    cases op <;> first | rfl | cases hop
  · refine ⟨Control.failing, ?_⟩
    simp only [Control.execute, h, Control.executeTreeExtStep, hs]
    cases op <;> first | rfl | cases hop
  · refine ⟨Control.failing, ?_⟩
    simp only [Control.execute, h, Control.executeTreeExtStep, hs]
    cases op <;> first | rfl | cases hop
  · refine ⟨Control.failing, ?_⟩
    simp only [Control.execute, h, Control.executeInitializeRekeying, hs]
    cases op <;> first | rfl | cases hop
  · refine ⟨Control.failing, ?_⟩
    simp only [Control.execute, h, Control.executeRekeyVba, hs]
    cases op <;> first | rfl | cases hop

/-- An operation was successful. -/
def succeeded (c : Control) (op : Op) : Control :=
  { c with chan := { c.chan with
      generatedPrim := { c.chan.generatedPrim with succ := true }
      state := .done op } }

theorem Secures.leads (h : Secures c) (hcounts : Counts c) {op : Op} (hop : securing op = true)
    {c' : Control} (hc : ∀ fail, (succeeded c op).secureSb sha fail op = .ok c') :
    Leads sha { w with ctrl := succeeded c op } { w with ctrl := c' } := by
  have hs : Secures (succeeded c op) := h
  have hst : Steady (succeeded c op) := hcounts.done rfl rfl rfl
  obtain ⟨fail, he⟩ := hs.execute_eq sha hop rfl
  exact Leads.execute hst (he.trans (hc fail))

/-- The superblock as it is secured, if its key encrypts to zeros. -/
def ciphertext (c : Control) : Superblock :=
  { c.chan.sbCiphertext with
    currentKey := { c.chan.sbCiphertext.currentKey with value := fun _ => 0 } }

/-- The superblock is about to be written. -/
structure AboutToWrite (c c' : Control) : Prop where
  state : c'.chan.state = .pending .writeSb
  blkNr : c'.chan.generatedPrim.blkNr = UInt64.ofNat c.sbIdx.val
  sb : c'.sb = c.sb
  sbIdx : c'.sbIdx = c.sbIdx
  currGen : c'.currGen = c.currGen
  generation : c'.chan.generation = c.chan.generation
  type : c'.chan.request.type = c.chan.request.type
  cipher : c'.chan.sbCiphertext = ciphertext c

/-- From the encryption of the key to the write of the superblock. -/
theorem Secures.leads_write (w : World) (h : Secures c) (hcounts : Counts c)
    (hs : c.chan.state = .pending .encryptCurrentKey) (hrk : c.sb.state ≠ .rekeying) :
    ∃ c', Leads sha { w with ctrl := c } { w with ctrl := c' } ∧ AboutToWrite c c' := by
  let c₁ : Control := { c with chan := { c.chan with sbCiphertext := ciphertext c } }
  let c₂ := (succeeded c₁ .encryptCurrentKey).generate .syncCache 0
  let c₃ := (succeeded c₂ .syncCache).generate .writeSb (UInt64.ofNat c.sbIdx.val)
  have h₁ : Leads sha { w with ctrl := c } { w with ctrl := succeeded c₁ .encryptCurrentKey } :=
    Leads.answer_free (a := {}) hs (fun _ => trivial) rfl rfl rfl
  have h₂ : Leads sha { w with ctrl := succeeded c₁ .encryptCurrentKey } { w with ctrl := c₂ } := by
    have hsec : Secures c₁ := h
    refine hsec.leads (hcounts.congr rfl rfl) rfl fun fail => ?_
    have hrk' : (succeeded c₁ .encryptCurrentKey).sb.state ≠ .rekeying := hrk
    simp only [Control.secureSb, Control.checked, hrk', if_false]
    rfl
  have h₃ : Leads sha { w with ctrl := c₂ } { w with ctrl := succeeded c₂ .syncCache } := by
    have hs₂ : c₂.chan.state = .pending .syncCache := rfl
    exact Leads.answer_free (a := {}) hs₂ (fun _ => trivial) rfl rfl rfl
  have h₄ : Leads sha { w with ctrl := succeeded c₂ .syncCache } { w with ctrl := c₃ } := by
    have hsec : Secures c₂ := h
    exact hsec.leads (hcounts.congr rfl rfl) rfl fun fail => rfl
  refine ⟨c₃, h₁.trans (h₂.trans (h₃.trans h₄)), ?_⟩
  constructor <;> rfl

/-- The superblock was secured. -/
structure Secured (sha : Block → Hash) (w : World) (c : Control) (sb : Superblock) (w' : World) :
    Prop where
  slots : w'.slots = Function.update w.slots c.sbIdx sb.encodeToBlk
  anchor : w'.anchor = sha sb.encodeToBlk
  secured : w'.secured = sb
  state : w'.ctrl.chan.state = .done .secureSb
  succ : w'.ctrl.chan.generatedPrim.succ = true
  sb : w'.ctrl.sb = c.sb
  sbIdx : w'.ctrl.sbIdx = nextSlot c.sbIdx
  currGen : w'.ctrl.currGen = c.currGen + 1
  generation : w'.ctrl.chan.generation = c.currGen
  type : w'.ctrl.chan.request.type = c.chan.request.type

/-- From the write of the superblock to the trust anchor. -/
theorem AboutToWrite.leads {c₀ : Control} (ha : AboutToWrite c₀ c) (h : Secures c₀)
    (hcounts : Counts c₀) :
    ∃ w', Leads sha { w with ctrl := c } w' ∧ Secured sha w c₀ (ciphertext c₀) w' := by
  let c₁ : Control := { succeeded c .writeSb with chan := { (succeeded c .writeSb).chan with
    encodedBlk := c.chan.sbCiphertext.encodeToBlk } }
  let c₂ := (succeeded c₁ .writeSb).generate .syncBlkIo (UInt64.ofNat c.sbIdx.val)
  let c₃ := { succeeded c₂ .syncBlkIo with
    chan := { (succeeded c₂ .syncBlkIo).chan with
      hash := sha c.chan.sbCiphertext.encodeToBlk
      generation := c.currGen }
    sbIdx := nextSlot c.sbIdx
    currGen := c.currGen + 1 }.generate .secureSb 0
  let w₁ : World := { w with
    ctrl := succeeded c₁ .writeSb
    slots := fun i => if c.chan.generatedPrim.blkNr = UInt64.ofNat i.val then
        c.chan.sbCiphertext.encodeToBlk
      else w.slots i }
  have hty : Secures c := by
    unfold Secures
    rw [ha.type]
    exact h
  have hans₁ : Answers sha { w with ctrl := c } (c.peekGeneratedRequest .writeSb) {} := trivial
  have h₁ : Leads sha { w with ctrl := c } w₁ :=
    Leads.answer ha.state hans₁ rfl rfl
  have h₂ : Leads sha w₁ { w₁ with ctrl := c₂ } := by
    have hsec : Secures c₁ := hty
    exact Secures.leads (w := w₁) hsec (hcounts.congr ha.currGen ha.generation) rfl fun fail => rfl
  have h₃ : Leads sha { w₁ with ctrl := c₂ } { w₁ with ctrl := succeeded c₂ .syncBlkIo } := by
    have hs₂ : c₂.chan.state = .pending .syncBlkIo := rfl
    exact Leads.answer_free (a := {}) hs₂ (fun _ => trivial) rfl rfl rfl
  have h₄ : Leads sha { w₁ with ctrl := succeeded c₂ .syncBlkIo } { w₁ with ctrl := c₃ } := by
    have hsec : Secures c₂ := hty
    exact hsec.leads (hcounts.congr ha.currGen ha.generation) rfl fun fail => rfl
  let w₂ : World := { w₁ with
    ctrl := succeeded c₃ .secureSb
    anchor := sha c.chan.sbCiphertext.encodeToBlk
    secured := c.chan.sbCiphertext }
  have h₅ : Leads sha { w₁ with ctrl := c₃ } w₂ := by
    have hs₃ : c₃.chan.state = .pending .secureSb := rfl
    have hans₃ : Answers sha { w₁ with ctrl := c₃ } (c₃.peekGeneratedRequest .secureSb) {} :=
      trivial
    exact Leads.answer (w := { w₁ with ctrl := c₃ }) hs₃ hans₃ rfl rfl
  refine ⟨w₂, h₁.trans (h₂.trans (h₃.trans (h₄.trans h₅))), ?_⟩
  have hcipher := ha.cipher
  constructor
  · ext1 i
    change (if c.chan.generatedPrim.blkNr = UInt64.ofNat i.val then
      c.chan.sbCiphertext.encodeToBlk else w.slots i) = _
    rw [ha.blkNr, hcipher]
    by_cases hi : i = c₀.sbIdx
    · rw [hi, if_pos rfl, Function.update_self]
    · rw [if_neg fun he => hi (slot_ofNat_inj he).symm, Function.update_of_ne hi]
  · rw [← hcipher]
  · exact hcipher
  · rfl
  · rfl
  · exact ha.sb
  · exact congrArg nextSlot ha.sbIdx
  · exact congrArg (· + 1) ha.currGen
  · exact ha.currGen
  · exact ha.type

end Secure

/-! ## A device -/

section Sample

def sampleSha (blk : Block) : Hash := ⟨fun i => blk.bytes.getD i 0⟩

def sampleSnapshot : Snapshot :=
  { pba := 100, gen := 1, nrOfLeaves := 4096, maxLevel := 2, valid := true, id := 0 }

/-- A superblock as it is after the device was set up. -/
def sampleSuperblock : Superblock :=
  { state := .normal
    currentKey := { id := 1 }
    snapshots := Function.update Snapshots.none ⟨0, maxNrOfSnapshots_pos⟩ sampleSnapshot
    lastSecuredGeneration := 1
    degree := .max
    firstPba := 8
    nrOfPbas := 10000
    free := { gen := 1, number := 200, maxLevel := 2, degree := 64, leaves := 1000 } }

def sampleSlots : SuperblockIndex → Block :=
  Function.update (fun _ => Superblock.encodeToBlk {}) ⟨0, nrOfSuperblockSlots_pos⟩
    sampleSuperblock.encodeToBlk

/-- The device before the program is started. -/
def sampleWorld : World where
  slots := sampleSlots
  anchor := sampleSha sampleSuperblock.encodeToBlk
  secured := sampleSuperblock

theorem sampleSlots_zero :
    sampleSlots ⟨0, nrOfSuperblockSlots_pos⟩ = sampleSuperblock.encodeToBlk := by
  rw [sampleSlots, Function.update_self]

theorem sampleSlots_of_ne {j : SuperblockIndex} (hj : j ≠ ⟨0, nrOfSuperblockSlots_pos⟩) :
    sampleSlots j = Superblock.encodeToBlk {} := by
  rw [sampleSlots, Function.update_of_ne hj]

theorem sample_holds : Holds sampleSha sampleWorld ⟨0, nrOfSuperblockSlots_pos⟩ sampleSuperblock
    ⟨0, maxNrOfSnapshots_pos⟩ where
  slot := sampleSlots_zero
  others j hj := ⟨{}, sampleSlots_of_ne hj, rfl⟩
  valid := by decide
  newest := by decide +kernel
  gen := by decide
  anchor := congrArg sampleSha sampleSlots_zero
  keyed := rfl
  unkeyed := rfl
  notRekeying := by decide
  freeLevels := by decide

end Sample

end Genode.Tresor.SbControl
