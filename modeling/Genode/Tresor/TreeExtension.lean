import Genode.Tresor.RequestPoolRuns
import Genode.Tresor.SuperblockSessions

/-!
# TreeExtension — the request pool and the superblock control together

A request that extends a tree is sent to the superblock control once for each
step. What is left to do is kept in the superblock, while the request always
comes with the number of blocks that the client asked for.
-/

namespace Genode.Tresor.Extension

open Genode.Lib
open RequestPool (Pool SlotsIndex)
open SbControl (Control Answer securing)

/-- The trees that can be extended. -/
inductive Tree where
  | vbd
  | ft
  deriving DecidableEq, Repr

namespace Tree

def operation : Tree → RequestPool.Operation
  | vbd => .extendVbd
  | ft => .extendFt

def pendingState : Tree → RequestPool.State
  | vbd => .vbdExtensionStepPending
  | ft => .ftExtensionStepPending

def reqType : Tree → SbControl.ReqType
  | vbd => .vbdExtensionStep
  | ft => .ftExtensionStep

def sbState : Tree → SuperblockState
  | vbd => .extendingVbd
  | ft => .extendingFt

def op : Tree → SbControl.Op
  | vbd => .vbdExtStepInVbd
  | ft => .ftExtStepInFt

end Tree

/-- The pool and the superblock control. The request in the channel of the
superblock control comes from the channel `src` of the pool. -/
structure System where
  pool : Pool
  ctrl : Control
  src : SlotsIndex

/-- What happens. -/
inductive Event where
  /-- A client submits a request to the pool. -/
  | submit (req : RequestPool.Request)
  | executePool
  /-- The request that the pool generated goes to the superblock control. -/
  | transfer
  | executeCtrl
  /-- Another module answers to the superblock control. -/
  | answer (op : SbControl.Op) (a : Answer)
  /-- A request that is completed goes back to the pool. -/
  | giveBack
  /-- A request that is complete goes back to its client. -/
  | respond

namespace System

variable (sha : Block → Hash) (s : System)

def withPool (p : Exec Pool) : Exec System := do
  let p ← p
  pure { s with pool := p }

def withCtrl (c : Exec Control) : Exec System := do
  let c ← c
  pure { s with ctrl := c }

/-- `execute_modules` in single steps, for these two modules. -/
def step : Event → Exec System
  | .submit req => s.withPool (s.pool.submitRequest req)
  | .executePool => s.withPool s.pool.execute
  | .transfer =>
    if s.ctrl.chan.request.type = .invalid then
      match s.pool.peekGeneratedRequest with
      | some (idx, req) => do
        let p ← s.pool.dropGeneratedRequest idx
        pure { pool := p, ctrl := s.ctrl.submitRequest req, src := idx }
      | none => pure s
    else pure s
  | .executeCtrl => s.withCtrl (s.ctrl.execute sha)
  | .answer op a =>
    if s.ctrl.chan.state = .pending op then s.withCtrl (s.ctrl.generatedRequestComplete op a)
    else pure s
  | .giveBack =>
    if s.ctrl.chan.request.type ≠ .invalid ∧ s.ctrl.chan.state = .completed then do
      let p ← s.pool.generatedRequestComplete (UInt64.ofNat s.src.val) s.ctrl.chan.request
      pure { s with pool := p, ctrl := s.ctrl.dropCompletedRequest }
    else pure s
  | .respond => s.withPool (s.pool.step .respond)

end System

/-! ## Extension steps of the superblock control -/

/-- The number of blocks behind those of the superblock. -/
def nrOfUnusedPbas (sb : Superblock) : UInt64 := maxPba - (sb.firstPba + (sb.nrOfPbas - 1))

/-- An extension of a tree, of a superblock that has `base` blocks from
`first` on, by `n` blocks. -/
structure Target where
  tree : Tree
  first : PhysicalBlockAddress
  base : UInt64
  n : UInt64

namespace Target

variable (g : Target)

/-- Nothing was done yet. -/
structure NotStarted (sb : Superblock) : Prop where
  state : sb.state = .normal
  first : sb.firstPba = g.first
  base : sb.nrOfPbas = g.base

/-- Some of the blocks may have been added. -/
structure Running (sb : Superblock) : Prop where
  state : sb.state = g.tree.sbState
  first : sb.firstPba = g.first
  total : sb.nrOfPbas + sb.resizingNrOfPbas = g.base + g.n
  left : sb.resizingNrOfPbas ≠ 0

/-- All blocks were added. -/
structure Finished (sb : Superblock) : Prop where
  state : sb.state = .normal
  first : sb.firstPba = g.first
  total : sb.nrOfPbas = g.base + g.n
  left : sb.resizingNrOfPbas = 0

/-- A step was done, and the request tells whether it was the last. -/
def Stepped (sb : Superblock) (finished : Bool) : Prop :=
  (g.Running sb ∧ finished = false) ∨ (g.Finished sb ∧ finished = true)

/-- The first address behind those of the superblock is the one that the tree
module left over. -/
def AtUnused (c : Control) : Prop := c.chan.pba = c.sb.firstPba + c.sb.nrOfPbas

/-- The superblock control works on a step. -/
def Working (c : Control) : Prop :=
  match c.chan.state with
  | .submitted => (g.NotStarted c.sb ∨ g.Running c.sb) ∧ c.chan.request.nrOfBlks = g.n ∧
      c.chan.request.requestFinished = false
  | .pending op =>
      (op = g.tree.op ∧ g.Running c.sb ∧ c.chan.request.requestFinished = false) ∨
        ((securing op = true ∨ op = .secureSb) ∧
          g.Stepped c.sb c.chan.request.requestFinished ∧ AtUnused c)
  | .done op => c.chan.generatedPrim.succ = true ∧
      ((op = g.tree.op ∧ g.Running c.sb ∧ c.chan.request.requestFinished = false ∧
          c.chan.request.nrOfBlks < c.sb.resizingNrOfPbas ∧
          c.chan.pba = c.sb.firstPba + c.sb.nrOfPbas +
            (c.sb.resizingNrOfPbas - c.chan.request.nrOfBlks)) ∨
        ((securing op = true ∨ op = .secureSb) ∧
          g.Stepped c.sb c.chan.request.requestFinished ∧ AtUnused c))
  | .completed => c.chan.request.success = true ∧
      g.Stepped c.sb c.chan.request.requestFinished ∧ AtUnused c

end Target

/-- The superblock control rejects a step, as the client asked for more blocks
than are unused. -/
def Rejects (t : Tree) (c : Control) : Prop :=
  c.chan.request.type = t.reqType ∧ c.chan.state = .submitted ∧
    nrOfUnusedPbas c.sb < c.chan.request.nrOfBlks

/-- What is assumed about the answers during a step: the tree module and the
securing of the superblock succeed, and the tree takes at least one block, from
the beginning of those that it gets. -/
def Succeeds (t : Tree) (c : Control) (op : SbControl.Op) (a : Answer) : Prop :=
  c.chan.request.type = t.reqType → a.success = true ∧
    (op = t.op → a.nrOfPbas < c.sb.resizingNrOfPbas ∧
      a.pba = c.sb.firstPba + c.sb.nrOfPbas + (c.sb.resizingNrOfPbas - a.nrOfPbas))

section Steps

variable {sha : Block → Hash} {g : Target} {c c' : Control} {op : SbControl.Op} {a : Answer}

theorem execute_step (h : c.chan.request.type = g.tree.reqType) :
    c.execute sha = c.executeTreeExtStep sha g.tree.sbState g.tree.op := by
  cases hg : g.tree <;> rw [hg] at h <;> rw [Control.execute, h] <;> rfl

theorem sbState_ne_normal (t : Tree) : t.sbState ≠ .normal := by cases t <;> exact nofun

/-- What securing leaves as it is. -/
structure Secured (c c' : Control) : Prop where
  sb : c'.sb = c.sb
  request : c'.chan.request = c.chan.request
  pba : c'.chan.pba = c.chan.pba
  state : ∃ op, (securing op = true ∨ op = .secureSb) ∧ c'.chan.state = .pending op

theorem Secured.of_secureSb {fail : Control → Exec Control} (hop : securing op = true)
    (hsucc : c.chan.generatedPrim.succ = true) (h : c.secureSb sha fail op = .ok c') :
    Secured c c' := by
  cases op with
  | encryptCurrentKey =>
    rw [Control.secureSb, Control.checked, if_pos hsucc] at h
    split at h
    · cases h
      exact ⟨rfl, rfl, rfl, _, .inl rfl, rfl⟩
    · cases h
      exact ⟨rfl, rfl, rfl, _, .inl rfl, rfl⟩
  | encryptPreviousKey =>
    rw [Control.secureSb, Control.checked, if_pos hsucc] at h
    cases h
    exact ⟨rfl, rfl, rfl, _, .inl rfl, rfl⟩
  | syncCache =>
    rw [Control.secureSb, Control.checked, if_pos hsucc] at h
    cases h
    exact ⟨rfl, rfl, rfl, _, .inl rfl, rfl⟩
  | writeSb =>
    rw [Control.secureSb, Control.checked, if_pos hsucc] at h
    cases h
    exact ⟨rfl, rfl, rfl, _, .inl rfl, rfl⟩
  | syncBlkIo =>
    rw [Control.secureSb, Control.checked, if_pos hsucc] at h
    cases h
    exact ⟨rfl, rfl, rfl, _, .inr rfl, rfl⟩
  | _ => cases hop

theorem pba_succ (first nr : UInt64) : first + (nr - 1) + 1 = first + nr := by
  rw [UInt64.add_assoc, UInt64.sub_add_cancel]

theorem Working.startTreeExtStep (hn : g.n ≠ 0) (hs : c.chan.state = .submitted)
    (h : g.Working c) (hrej : ¬ nrOfUnusedPbas c.sb < c.chan.request.nrOfBlks)
    (he : c.startTreeExtStep g.tree.sbState g.tree.op = .ok c') :
    g.Working c' ∧ c'.chan.request.type = c.chan.request.type := by
  rw [Target.Working, hs] at h
  obtain ⟨hphase, hblks, hfin⟩ := h
  have hunused : ¬ maxPba - (c.sb.firstPba + (c.sb.nrOfPbas - 1)) < c.chan.request.nrOfBlks := hrej
  unfold Control.startTreeExtStep at he
  dsimp only at he
  rw [if_neg hunused] at he
  rcases hphase with hstart | hrun
  · rw [if_pos hstart.state] at he
    cases he
    refine ⟨.inr ⟨.inl rfl, .inl ⟨⟨rfl, hstart.first, ?_, ?_⟩, rfl⟩, pba_succ ..⟩, rfl⟩
    · change c.sb.nrOfPbas + c.chan.request.nrOfBlks = _
      rw [hstart.base, hblks]
    · change c.chan.request.nrOfBlks ≠ 0
      rwa [hblks]
  · have hne : c.sb.state ≠ .normal := fun hh => sbState_ne_normal _ (hrun.state.symm.trans hh)
    rw [if_neg hne, if_pos hrun.state] at he
    cases he
    exact ⟨.inl ⟨rfl, ⟨hrun.state, hrun.first, hrun.total, hrun.left⟩, hfin⟩, rfl⟩

/-- The tree was extended by some of the blocks. -/
theorem Working.treeExtStepCompleted (hrun : g.Running c.sb)
    (hfin : c.chan.request.requestFinished = false)
    (hlt : c.chan.request.nrOfBlks < c.sb.resizingNrOfPbas)
    (hpba : c.chan.pba = c.sb.firstPba + c.sb.nrOfPbas +
      (c.sb.resizingNrOfPbas - c.chan.request.nrOfBlks))
    (he : c.treeExtStepCompleted op = .ok c') :
    g.Working c' ∧ c'.chan.request.type = c.chan.request.type := by
  have hle : ¬ c.sb.resizingNrOfPbas ≤ c.chan.request.nrOfBlks := UInt64.not_le.mpr hlt
  have hpba' : c.chan.pba = c.sb.firstPba + (c.sb.nrOfPbas +
      (c.sb.resizingNrOfPbas - c.chan.request.nrOfBlks)) := by rw [hpba, UInt64.add_assoc]
  have htotal : c.sb.nrOfPbas + (c.sb.resizingNrOfPbas - c.chan.request.nrOfBlks) +
      c.chan.request.nrOfBlks = g.base + g.n := by
    rw [UInt64.add_assoc, UInt64.sub_add_cancel, hrun.total]
  unfold Control.treeExtStepCompleted at he
  dsimp only at he
  rw [if_neg hle, if_neg (not_not.mpr hpba')] at he
  obtain ⟨sb, hsb, he⟩ := Exec.bind_eq_ok.mp he
  -- the sizes do not depend on the tree that is taken over
  obtain ⟨hstate, hfirst, hnr, hleft⟩ : sb.state = c.sb.state ∧ sb.firstPba = c.sb.firstPba ∧
      sb.nrOfPbas = c.sb.nrOfPbas + (c.sb.resizingNrOfPbas - c.chan.request.nrOfBlks) ∧
      sb.resizingNrOfPbas = c.chan.request.nrOfBlks := by
    unfold Control.takeOverTree at hsb
    split at hsb
    · split at hsb
      · cases hsb
        exact ⟨rfl, rfl, rfl, rfl⟩
      · cases hsb
    · cases hsb
      exact ⟨rfl, rfl, rfl, rfl⟩
  split at he
  · rename_i hzero
    cases he
    refine ⟨.inr ⟨.inl rfl, .inr ⟨⟨rfl, hfirst.trans hrun.first, ?_, hleft.trans hzero⟩, rfl⟩, ?_⟩,
      rfl⟩
    · refine hnr.trans ?_
      rw [← htotal, hzero, UInt64.add_zero]
    · change c.chan.pba = sb.firstPba + sb.nrOfPbas
      rw [hpba', hfirst, hnr]
  · rename_i hne
    cases he
    refine ⟨.inr ⟨.inl rfl, .inl ⟨⟨hstate.trans hrun.state, hfirst.trans hrun.first, ?_, ?_⟩,
      hfin⟩, ?_⟩, rfl⟩
    · change sb.nrOfPbas + sb.resizingNrOfPbas = _
      rw [hnr, hleft, htotal]
    · change sb.resizingNrOfPbas ≠ 0
      rwa [hleft]
    · change c.chan.pba = sb.firstPba + sb.nrOfPbas
      rw [hpba', hfirst, hnr]

theorem Working.of_secured (hst : g.Stepped c.sb c.chan.request.requestFinished)
    (hat : Target.AtUnused c) (h : Secured c c') :
    g.Working c' ∧ c'.chan.request.type = c.chan.request.type := by
  obtain ⟨op, hop, hs⟩ := h.state
  refine ⟨?_, by rw [h.request]⟩
  rw [Target.Working, hs]
  refine .inr ⟨hop, ?_, ?_⟩
  · rw [h.sb, h.request]
    exact hst
  · rw [Target.AtUnused, h.sb, h.pba]
    exact hat

/-- An execution during a step that is not rejected. -/
theorem Working.execute (hn : g.n ≠ 0) (hty : c.chan.request.type = g.tree.reqType)
    (h : g.Working c) (hrej : ¬ Rejects g.tree c) (he : c.execute sha = .ok c') :
    g.Working c' ∧ c'.chan.request.type = c.chan.request.type := by
  rw [execute_step hty] at he
  cases hs : c.chan.state with
  | submitted =>
    rw [Control.executeTreeExtStep, hs] at he
    exact Working.startTreeExtStep hn hs h (fun hlt => hrej ⟨hty, hs, hlt⟩) he
  | pending op =>
    rw [Control.executeTreeExtStep, hs] at he
    cases he
    exact ⟨h, rfl⟩
  | completed =>
    rw [Control.executeTreeExtStep, hs] at he
    cases he
    exact ⟨h, rfl⟩
  | done op =>
    rw [Target.Working, hs] at h
    obtain ⟨hsucc, ⟨rfl, hrun, hfin, hlt, hpba⟩ | ⟨hop, hst, hat⟩⟩ := h
    · have hcomp : c.executeTreeExtStep sha g.tree.sbState g.tree.op =
          c.checked Control.failing (c.treeExtStepCompleted g.tree.op) := by
        rw [Control.executeTreeExtStep, hs]
        cases g.tree <;> rfl
      rw [hcomp, Control.checked, if_pos hsucc] at he
      exact Working.treeExtStepCompleted hrun hfin hlt hpba he
    · rcases hop with hop | rfl
      · have hsec : c.executeTreeExtStep sha g.tree.sbState g.tree.op =
            c.secureSb sha Control.failing op := by
          rw [Control.executeTreeExtStep, hs]
          cases op <;> first | rfl | cases hop
        rw [hsec] at he
        exact Working.of_secured hst hat (.of_secureSb hop hsucc he)
      · rw [Control.executeTreeExtStep, hs] at he
        change c.checked Control.failing _ = _ at he
        rw [Control.checked, if_pos hsucc] at he
        cases he
        refine ⟨⟨rfl, ?_, hat⟩, rfl⟩
        rcases hst with ⟨hrun, hfin⟩ | ⟨hdone, hfin⟩
        · exact .inl ⟨⟨hrun.state, hrun.first, hrun.total, hrun.left⟩, hfin⟩
        · exact .inr ⟨⟨hdone.state, hdone.first, hdone.total, hdone.left⟩, hfin⟩

/-- An answer during a step, when the other modules succeed. -/
theorem Working.answer (hty : c.chan.request.type = g.tree.reqType)
    (hs : c.chan.state = .pending op) (h : g.Working c) (ha : Succeeds g.tree c op a)
    (he : c.generatedRequestComplete op a = .ok c') :
    g.Working c' ∧ c'.chan.request.type = c.chan.request.type := by
  obtain ⟨hsucc, htree⟩ := ha hty
  rw [Target.Working, hs] at h
  rcases h with ⟨rfl, hrun, hfin⟩ | ⟨hop, hst, hat⟩
  · obtain ⟨hlt, hpba⟩ := htree rfl
    have hrun' : ∀ free metaTree, g.Running { c.sb with free := free, metaTree := metaTree } :=
      fun _ _ => ⟨hrun.state, hrun.first, hrun.total, hrun.left⟩
    unfold Control.generatedRequestComplete at he
    cases hg : g.tree with
    | vbd =>
      rw [hg] at he
      cases he
      exact ⟨⟨hsucc, .inl ⟨by rw [hg], hrun' _ _, hfin, hlt, hpba⟩⟩, rfl⟩
    | ft =>
      rw [hg] at he
      cases he
      exact ⟨⟨hsucc, .inl ⟨by rw [hg], hrun' _ _, hfin, hlt, hpba⟩⟩, rfl⟩
  · unfold Control.generatedRequestComplete at he
    cases op with
    | encryptCurrentKey =>
      cases he
      exact ⟨⟨hsucc, .inr ⟨hop, hst, hat⟩⟩, rfl⟩
    | encryptPreviousKey =>
      cases he
      exact ⟨⟨hsucc, .inr ⟨hop, hst, hat⟩⟩, rfl⟩
    | syncCache =>
      cases he
      exact ⟨⟨hsucc, .inr ⟨hop, hst, hat⟩⟩, rfl⟩
    | writeSb =>
      cases he
      exact ⟨⟨hsucc, .inr ⟨hop, hst, hat⟩⟩, rfl⟩
    | syncBlkIo =>
      cases he
      exact ⟨⟨hsucc, .inr ⟨hop, hst, hat⟩⟩, rfl⟩
    | secureSb =>
      cases he
      exact ⟨⟨hsucc, .inr ⟨hop, hst, hat⟩⟩, rfl⟩
    | _ => rcases hop with hop | hop <;> cases hop

end Steps

/-! ## Other requests of the superblock control -/

section Others

variable {sha : Block → Hash} {g : Target} {c c' : Control} {op : SbControl.Op} {a : Answer}

/-- What requests leave as it is that do not extend a tree. -/
structure SameSize (c c' : Control) : Prop where
  state : c'.sb.state = c.sb.state
  first : c'.sb.firstPba = c.sb.firstPba
  nr : c'.sb.nrOfPbas = c.sb.nrOfPbas
  left : c'.sb.resizingNrOfPbas = c.sb.resizingNrOfPbas
  type : c'.chan.request.type = c.chan.request.type

theorem Running.of_sameSize (h : g.Running c.sb) (hs : SameSize c c') : g.Running c'.sb where
  state := hs.state.trans h.state
  first := hs.first.trans h.first
  total := by rw [hs.nr, hs.left, h.total]
  left := by rw [hs.left]; exact h.left

theorem SameSize.of_answer (he : c.generatedRequestComplete op a = .ok c') : SameSize c c' := by
  unfold Control.generatedRequestComplete at he
  cases op with
  | readSb =>
    obtain ⟨sb, -, he⟩ := Exec.bind_eq_ok.mp he
    cases he
    exact ⟨rfl, rfl, rfl, rfl, rfl⟩
  | readCurrentSb =>
    obtain ⟨sb, -, he⟩ := Exec.bind_eq_ok.mp he
    cases he
    exact ⟨rfl, rfl, rfl, rfl, rfl⟩
  | _ =>
    cases he
    constructor <;> rfl

theorem SameSize.startVbaAccess (he : c.startVbaAccess op = .ok c') : SameSize c c' := by
  unfold Control.startVbaAccess at he
  dsimp only at he
  split at he
  · cases he
    exact ⟨rfl, rfl, rfl, rfl, rfl⟩
  · split at he
    · cases he
      exact ⟨rfl, rfl, rfl, rfl, rfl⟩
    · cases he
      exact ⟨rfl, rfl, rfl, rfl, rfl⟩
  · cases he
    exact ⟨rfl, rfl, rfl, rfl, rfl⟩
  · cases he
    exact ⟨rfl, rfl, rfl, rfl, rfl⟩
  · cases he

theorem SameSize.executeReadVba (he : c.executeReadVba = .ok c') : SameSize c c' := by
  unfold Control.executeReadVba at he
  split at he
  · exact .startVbaAccess he
  · cases he
    exact ⟨rfl, rfl, rfl, rfl, rfl⟩
  · cases he
    exact ⟨rfl, rfl, rfl, rfl, rfl⟩

theorem SameSize.executeWriteVba (he : c.executeWriteVba = .ok c') : SameSize c c' := by
  unfold Control.executeWriteVba at he
  split at he
  · exact .startVbaAccess he
  · obtain ⟨sb, hsb, he⟩ := Exec.bind_eq_ok.mp he
    cases he
    unfold Control.takeOverSnapshot at hsb
    dsimp only at hsb
    split at hsb
    · split at hsb
      · cases hsb
        exact ⟨rfl, rfl, rfl, rfl, rfl⟩
      · cases hsb
    · split at hsb
      · cases hsb
        exact ⟨rfl, rfl, rfl, rfl, rfl⟩
      · cases hsb
  · cases he
    exact ⟨rfl, rfl, rfl, rfl, rfl⟩

theorem SameSize.secureSb (he : c.secureSb sha Control.throwing op = .ok c') : SameSize c c' := by
  have hchecked : ∀ {next : Exec Control}, c.checked Control.throwing next = .ok c' →
      next = .ok c' := by
    intro next h
    unfold Control.checked at h
    split at h
    · exact h
    · cases h
  cases op with
  | encryptCurrentKey =>
    have he := hchecked he
    split at he
    · cases he
      exact ⟨rfl, rfl, rfl, rfl, rfl⟩
    · cases he
      exact ⟨rfl, rfl, rfl, rfl, rfl⟩
  | encryptPreviousKey =>
    cases hchecked he
    exact ⟨rfl, rfl, rfl, rfl, rfl⟩
  | syncCache =>
    cases hchecked he
    exact ⟨rfl, rfl, rfl, rfl, rfl⟩
  | writeSb =>
    cases hchecked he
    exact ⟨rfl, rfl, rfl, rfl, rfl⟩
  | syncBlkIo =>
    cases hchecked he
    exact ⟨rfl, rfl, rfl, rfl, rfl⟩
  | _ =>
    cases he
    exact ⟨rfl, rfl, rfl, rfl, rfl⟩

theorem SameSize.executeSync (he : c.executeSync sha = .ok c') : SameSize c c' := by
  unfold Control.executeSync at he
  split at he
  · cases he
    exact ⟨rfl, rfl, rfl, rfl, rfl⟩
  · unfold Control.checked at he
    split at he
    · cases he
      exact ⟨rfl, rfl, rfl, rfl, rfl⟩
    · cases he
  · exact .secureSb he
  · cases he
    exact ⟨rfl, rfl, rfl, rfl, rfl⟩

/-- The requests of the superblock control for the requests that the pool may
prepone. -/
def quickType : SbControl.ReqType → Bool
  | .readVba => true
  | .writeVba => true
  | .sync => true
  | _ => false

theorem SameSize.execute (hty : quickType c.chan.request.type = true)
    (he : c.execute sha = .ok c') : SameSize c c' := by
  cases ht : c.chan.request.type with
  | readVba =>
    rw [Control.execute, ht] at he
    exact .executeReadVba he
  | writeVba =>
    rw [Control.execute, ht] at he
    exact .executeWriteVba he
  | sync =>
    rw [Control.execute, ht] at he
    exact .executeSync he
  | _ =>
    rw [ht] at hty
    cases hty

end Others

end Genode.Tresor.Extension
