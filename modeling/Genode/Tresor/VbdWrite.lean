import Genode.Tresor.VbdSnapshots

/-!
# VbdWrite — a write that gets through

Writing to a tree whose node blocks hold no references yet: the channel goes
down the levels, gets new blocks, writes the data, and goes up again.
-/

namespace Genode.Tresor.Vbd

open Genode.Lib

/-- A node block without references. -/
def emptyNodes : Type1NodeBlock := fun _ => {}

section Write

variable {sha : Block → Hash} {a : CreateArgs} {c c' : Channel} {lvl : Nat}

/-- A tree that was not written to yet, of at least one level. -/
structure Fresh (sha : Block → Hash) (a : CreateArgs) : Prop where
  type : a.reqType = .writeVba
  pos : 0 < a.snapshot.maxLevel.toNat
  buffered : a.snapshot.maxLevel.toNat < treeMaxLevel
  root : sha emptyNodes.encodeToBlk = a.snapshot.hash
  inner : sha emptyNodes.encodeToBlk = default
  gen : a.snapshot.gen ≤ a.currentGen

/-- The channel gets from one state to another if every other module does
what it is asked for. -/
def Leads (sha : Block → Hash) : Channel → Channel → Prop :=
  Relation.ReflTransGen (Step sha fun _ _ => True)

/-- Another module was successful. -/
def succeeded (c : Channel) (op : Op) : Channel :=
  { c with generatedPrim := { c.generatedPrim with succ := true }, state := .done op }

theorem leads_execute (ht : c.request.type = .writeVba) (h : executeWriteVba sha c = .ok c') :
    Leads sha c c' := .single (.execute ((execute_writeVba ht).trans h))

/-! ### Up the levels -/

/-- The node blocks are written back, up to the root. -/
theorem exists_writtenBack (sha : Block → Hash) (ht : c.request.type = .writeVba) : ∃ c',
    Leads sha c.setArgsForWriteBackOfT1Lvl c' ∧ c'.state = .completed ∧
      c'.request.success = true := by
  induction hn : c.maxLevel - c.t1BlkIdx generalizing c with
  | zero =>
    let c₁ := c.generate .writeRootNode .cache (c.newPbas c.t1BlkIdx)
    let c₂ := { succeeded c₁ .writeRootNode with encodedBlk := c₁.blockToWrite }
    have hback : c.setArgsForWriteBackOfT1Lvl = c₁ := by
      rw [Channel.setArgsForWriteBackOfT1Lvl, if_neg (Nat.not_lt.mpr (Nat.le_of_sub_eq_zero hn))]
    have hans : Step sha (fun _ _ => True) c₁ c₂ := .answer (a := {}) rfl rfl trivial rfl
    have ht₂ : c₂.request.type = .writeVba := ht
    rw [hback]
    exact ⟨c₂.markReqSuccessful, .trans (.single hans) (leads_execute ht₂ rfl), rfl, rfl⟩
  | succ n ih =>
    let c₁ := c.generate .writeInnerNode .cache (c.newPbas c.t1BlkIdx)
    let c₂ := { succeeded c₁ .writeInnerNode with encodedBlk := c₁.blockToWrite }
    have hback : c.setArgsForWriteBackOfT1Lvl = c₁ := by
      rw [Channel.setArgsForWriteBackOfT1Lvl, if_pos (by omega)]
    have hans : Step sha (fun _ _ => True) c₁ c₂ := .answer (a := {}) rfl rfl trivial rfl
    have ht₂ : c₂.request.type = .writeVba := ht
    have hn₂ : c.maxLevel - (c.t1BlkIdx + 1) = n := by omega
    obtain ⟨c', hlead, hc'⟩ := ih (c := { c₂ with t1BlkIdx := c₂.t1BlkIdx + 1 }) ht₂ hn₂
    rw [hback]
    exact ⟨c', .trans (.single hans) (.trans (leads_execute ht₂ rfl) hlead), hc'⟩

/-- The data of the client is written. -/
theorem exists_written (sha : Block → Hash) (h : WritesVba a c) (hs : c.state ≠ .submitted) : ∃ c',
    Leads sha (setArgsInOrderToWriteClientDataToLeafNode c) c' ∧ c'.state = .completed ∧
      c'.request.success = true := by
  let c₁ := setArgsInOrderToWriteClientDataToLeafNode c
  let c₂ := { succeeded c₁ .writeClientDataToLeafNode with hash := default }
  have hans : Step sha (fun _ _ => True) c₁ c₂ := .answer (a := {}) rfl rfl trivial rfl
  have h₂ : WritesVba a c₂ := ⟨h.type, h.currGen, fun _ => h.idx hs, h.snap⟩
  obtain ⟨hupdate, -⟩ := h₂.updateNodes sha fun hsub => by cases hsub
  obtain ⟨c', hlead, hc'⟩ := exists_writtenBack sha hupdate.type
  exact ⟨c', .trans (.single hans) (.trans (leads_execute h₂.type rfl) hlead), hc'⟩

/-! ### Down the levels -/

/-- The channel waits for the node block of a level. -/
structure Descends (a : CreateArgs) (lvl : Nat) (c : Channel) : Prop where
  writes : WritesVba a c
  snap : c.snap = a.snapshot
  state : c.state = .pending .readInnerNode
  idx : c.t1BlkIdx = lvl
  above : ∀ l, lvl < l → l ≤ a.snapshot.maxLevel.toNat → c.t1Blks l = emptyNodes

/-- The node block of the level was read, and it is the right one. -/
structure ReadAt (sha : Block → Hash) (a : CreateArgs) (lvl : Nat) (c : Channel) : Prop where
  writes : WritesVba a c
  snap : c.snap = a.snapshot
  state : c.state = .done .readInnerNode
  succ : c.generatedPrim.succ = true
  idx : c.t1BlkIdx = lvl
  authentic : sha c.encodedBlk = (c.readNode c.vba).hash
  nodes : ∀ l, lvl ≤ l → l ≤ a.snapshot.maxLevel.toNat → c.t1Blks l = emptyNodes

theorem Descends.read (hf : Fresh sha a) (h : Descends a lvl c)
    (hle : lvl ≤ a.snapshot.maxLevel.toNat) : ∃ c', Leads sha c c' ∧ ReadAt sha a lvl c' := by
  have hmax : c.maxLevel = a.snapshot.maxLevel.toNat := by rw [Channel.maxLevel, h.snap]
  let c' := { succeeded c .readInnerNode with
    encodedBlk := emptyNodes.encodeToBlk
    t1Blks := Function.update c.t1Blks c.t1BlkIdx emptyNodes }
  have hans : Step sha (fun _ _ => True) c c' := by
    refine .answer (a := { blk := emptyNodes.encodeToBlk }) h.state rfl trivial ?_
    have hidx : c.t1BlkIdx < treeMaxLevel := by
      rw [h.idx]
      exact Nat.lt_of_le_of_lt hle hf.buffered
    simp only [generatedRequestComplete, inBounds_of_lt hidx, Exec.ok_bind,
      Type1NodeBlock.decode_encode]
    rfl
  have hnodes : ∀ l, lvl ≤ l → l ≤ a.snapshot.maxLevel.toNat → c'.t1Blks l = emptyNodes := by
    intro l hl hl'
    change Function.update c.t1Blks c.t1BlkIdx emptyNodes l = emptyNodes
    rw [h.idx]
    rcases Nat.lt_or_eq_of_le hl with hlt | rfl
    · rw [Function.update_of_ne (Nat.ne_of_gt hlt)]
      exact h.above l hlt hl'
    · exact Function.update_self ..
  have hauth : sha emptyNodes.encodeToBlk = (c'.readNode c'.vba).hash := by
    unfold Channel.readNode
    split
    · change _ = c.snap.hash
      rw [h.snap]
      exact hf.root
    · rename_i hne
      have hlt : lvl + 1 ≤ a.snapshot.maxLevel.toNat := by
        have hne' : c.t1BlkIdx ≠ c.maxLevel := hne
        rw [h.idx, hmax] at hne'
        omega
      have hchild := hnodes (lvl + 1) (Nat.le_succ lvl) hlt
      change _ = (c'.t1Blks (c.t1BlkIdx + 1) _).hash
      rw [h.idx, hchild]
      exact hf.inner
  exact ⟨c', .single hans, ⟨h.writes.type, h.writes.currGen,
    fun _ => h.writes.idx (by rw [h.state]; intro hh; cases hh), h.writes.snap⟩, h.snap, rfl, rfl,
    h.idx, hauth, hnodes⟩

/-- No node of the branch is newer than the current generation. -/
theorem ReadAt.branch_gen_le (hf : Fresh sha a) (h : ReadAt sha a 1 c) (vba : VirtualBlockAddress)
    (lvl : Nat) : (branchNode c vba lvl).gen ≤ a.currentGen := by
  have hmax : c.maxLevel = a.snapshot.maxLevel.toNat := by rw [Channel.maxLevel, h.snap]
  unfold branchNode
  split
  · exact UInt64.zero_le
  · split
    · rw [h.snap]
      exact hf.gen
    · have hnodes := h.nodes (lvl + 1) (Nat.le_add_left 1 lvl) (by omega)
      rw [Channel.child, hnodes]
      exact UInt64.zero_le

/-- The lowest node block was read: the blocks for the branch are allocated,
if it takes any, and written. -/
theorem ReadAt.written (hf : Fresh sha a) (h : ReadAt sha a 1 c) : ∃ c', Leads sha c c' ∧
    c'.state = .completed ∧ c'.request.success = true := by
  have hall : ((List.range (c.maxLevel + 1)).all fun lvl =>
      decide ((branchNode c c.vba lvl).gen ≤ c.request.currGen)) = true := by
    refine List.all_eq_true.mpr fun lvl _ => decide_eq_true ?_
    rw [h.writes.currGen]
    exact h.branch_gen_le hf c.vba lvl
  let c₁ := { c with
    newPbas := fun lvl =>
      if c.maxLevel < lvl ∨ needsNewPba c lvl = true then 0 else (branchNode c c.vba lvl).pba
    nrOfBlks := ((List.range (c.maxLevel + 1)).filter (needsNewPba c)).length }
  have hnew : initializeNewPbas c = .ok c₁ := by
    rw [initializeNewPbas, hall, Exec.assert_true, Exec.ok_bind]
    rfl
  have hlast : ¬ 1 < c.t1BlkIdx := by
    rw [h.idx]
    exact Nat.lt_irrefl 1
  have hexec : executeWriteVba sha c = .ok (if 0 < c₁.nrOfBlks then
      setArgsForAllocForBranchOfWrittenVba c₁
    else setArgsInOrderToWriteClientDataToLeafNode c₁) := by
    simp only [executeWriteVba, h.state, Channel.checkThatPrimitiveWasSuccessful, h.succ,
      checkHashOfReadType1Node, decide_eq_true h.authentic, Exec.assert_true, Exec.ok_bind,
      if_neg hlast, hnew]
    split <;> rfl
  have hne : c.state ≠ .submitted := by
    rw [h.state]
    intro hh
    cases hh
  have hlead := leads_execute h.writes.type hexec
  by_cases hpos : 0 < c₁.nrOfBlks
  · rw [if_pos hpos] at hlead
    let c₂ := setArgsForAllocForBranchOfWrittenVba c₁
    let c₃ := { succeeded c₂ .allocPbasAtLeafLvl with newPbas := fun _ => 0 }
    have hans : Step sha (fun _ _ => True) c₂ c₃ := .answer (a := {}) rfl rfl trivial rfl
    have h₃ : WritesVba a c₃ :=
      ⟨h.writes.type, h.writes.currGen, fun _ => h.writes.idx hne, h.writes.snap⟩
    obtain ⟨c', hlead', hc'⟩ := exists_written sha h₃ fun hsub => by cases hsub
    exact ⟨c', hlead.trans (.trans (.single hans) (.trans (leads_execute h₃.type rfl) hlead')),
      hc'⟩
  · rw [if_neg hpos] at hlead
    have h₁ : WritesVba a c₁ :=
      ⟨h.writes.type, h.writes.currGen, fun _ => h.writes.idx hne, h.writes.snap⟩
    obtain ⟨c', hlead', hc'⟩ := exists_written sha h₁ hne
    exact ⟨c', hlead.trans hlead', hc'⟩

/-- The channel goes down to the lowest node block. -/
theorem Descends.written (hf : Fresh sha a) (h : Descends a lvl c) (hpos : 0 < lvl)
    (hle : lvl ≤ a.snapshot.maxLevel.toNat) : ∃ c', Leads sha c c' ∧ c'.state = .completed ∧
      c'.request.success = true := by
  induction lvl, hpos using Nat.le_induction generalizing c with
  | base =>
    obtain ⟨c₁, hlead₁, h₁⟩ := h.read hf hle
    obtain ⟨c₂, hlead₂, h₂⟩ := h₁.written hf
    exact ⟨c₂, hlead₁.trans hlead₂, h₂⟩
  | succ lvl hpos ih =>
    obtain ⟨c₁, hlead₁, h₁⟩ := h.read hf hle
    let c₂ := setArgsInOrderToReadType1Node { c₁ with t1BlkIdx := lvl }
    have hexec : executeWriteVba sha c₁ = .ok c₂ := by
      have hlt : 1 < lvl + 1 := Nat.succ_lt_succ hpos
      simp only [executeWriteVba, h₁.state, Channel.checkThatPrimitiveWasSuccessful, h₁.succ,
        checkHashOfReadType1Node, decide_eq_true h₁.authentic, Exec.assert_true, Exec.ok_bind,
        h₁.idx, if_pos hlt]
      rfl
    have h₂ : Descends a lvl c₂ := ⟨⟨h₁.writes.type, h₁.writes.currGen,
      fun _ => h₁.writes.idx (by rw [h₁.state]; intro hh; cases hh), h₁.writes.snap⟩, h₁.snap, rfl,
      rfl, fun l hl => h₁.nodes l hl⟩
    obtain ⟨c₃, hlead₃, h₃⟩ := ih h₂ (Nat.le_of_succ_le hle)
    exact ⟨c₃, hlead₁.trans ((leads_execute h₁.writes.type hexec).trans hlead₃), h₃⟩

/-- A write to a tree that was not written to yet gets through. -/
theorem Fresh.processes (hf : Fresh sha a) (c : Channel) : ∃ c',
    Processes sha (fun _ _ => True) c (Request.create a) c' ∧ c'.state = .completed ∧
      c'.request.success = true := by
  let c₁ : Channel := { c.submitRequest (Request.create a) with
    snapshotIdx := ⟨0, maxNrOfSnapshots_pos⟩
    vba := (Request.create a).vba }
  let c₂ := setArgsInOrderToReadType1Node { c₁ with t1BlkIdx := c₁.maxLevel }
  have ht : (Request.create a).type = .writeVba := by simp [Request.create, hf.type]
  have hgen : (Request.create a).currGen = a.currentGen := by simp [Request.create, hf.type]
  have hsnap : c₁.snap = a.snapshot := by simp [c₁, Channel.snap, Channel.submitRequest,
    Request.create, hf.type]
  have h₂ : Descends a c₁.maxLevel c₂ := by
    refine ⟨⟨ht, hgen, fun _ => rfl, ?_⟩, hsnap, rfl, rfl, fun l hl hl' => ?_⟩
    · have hs : c₂.request.snapshots ⟨0, maxNrOfSnapshots_pos⟩ = a.snapshot := hsnap
      rw [hs]
      exact ⟨rfl, .inl rfl⟩
    · rw [Channel.maxLevel, hsnap] at hl
      exact absurd hl' (Nat.not_le.mpr hl)
  have hmax : c₁.maxLevel = a.snapshot.maxLevel.toNat := by rw [Channel.maxLevel, hsnap]
  obtain ⟨c₃, hlead₃, h₃⟩ := h₂.written hf (hmax ▸ hf.pos) hmax.le
  exact ⟨c₃, .trans (leads_execute (c := c.submitRequest (Request.create a)) ht rfl) hlead₃, h₃⟩

end Write

end Genode.Tresor.Vbd
