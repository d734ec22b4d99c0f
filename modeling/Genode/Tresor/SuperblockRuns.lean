import Genode.Lib.Run
import Genode.Tresor.SuperblockControl

/-!
# SuperblockRuns — the superblock control and what outlives it

The device with its superblock slots and the trust anchor with the hash of
the last secured superblock outlive the program. A run goes through any
requests that the state of the superblock allows, with any failure of
another module, and may be cut off at any point by a restart.
-/

namespace Genode.Tresor.SbControl

open Genode.Lib

theorem slot_ofNat_inj {i j : SuperblockIndex} (h : UInt64.ofNat i.val = UInt64.ofNat j.val) :
    i = j := by
  have hn := congrArg UInt64.toNat h
  have hi : i.val < 8 := i.isLt
  have hj : j.val < 8 := j.isLt
  rw [UInt64.toNat_ofNat', UInt64.toNat_ofNat', Nat.mod_eq_of_lt (by omega),
    Nat.mod_eq_of_lt (by omega)] at hn
  exact Fin.ext hn

/-- The program together with the superblock slots and the trust anchor.
`secured` is the superblock that was secured last. -/
structure World where
  ctrl : Control := {}
  slots : SuperblockIndex → Block
  anchor : Hash
  secured : Superblock

/-- What happens. -/
inductive Event where
  | submit (req : Request)
  | execute
  | answer (op : Op) (a : Answer)
  | drop
  | restart

section Steps

variable (sha : Block → Hash)

/-- What the virtual block device answers: what one of its channels comes to
with the request, whatever the modules below it do. -/
def VbdAnswers (args : Vbd.CreateArgs) (a : Answer) : Prop :=
  ∃ c c' : Vbd.Channel, Vbd.Processes sha (fun _ _ => True) c (Vbd.Request.create args) c' ∧
    c'.state = .completed ∧ a.success = c'.request.success ∧
    a.snapshots = c'.request.snapshots ∧ a.pba = c'.request.pba ∧
    a.nrOfPbas = c'.request.nrOfPbas ∧ a.nrOfLeaves = c'.request.nrOfLeaves

/-- What the other modules answer to a request. Only where the superblock
control relies on it there is something to say about an answer. -/
def Answers (w : World) (r : GeneratedRequest) (a : Answer) : Prop :=
  match r with
  | .vbd args => VbdAnswers sha args a
  | .getLastSbHash => a.success = true → a.hash = w.anchor
  | .read pba => a.success = true → ∃ i : SuperblockIndex, pba = UInt64.ofNat i.val ∧
      a.blk = w.slots i
  | _ => True

/-- What another module does when it is successful. -/
def World.perform (w : World) (r : GeneratedRequest) : World :=
  match r with
  | .write pba blk => { w with slots := fun i => if pba = UInt64.ofNat i.val then blk else w.slots i }
  | .secureSuperblock hash => { w with anchor := hash, secured := w.ctrl.chan.sbCiphertext }
  | _ => w

/-- A failed write may have been performed all the same. -/
inductive Performs (w : World) (r : GeneratedRequest) (a : Answer) : World → Prop where
  | performed (h : a.success = true ∨ ∃ pba blk, r = .write pba blk) : Performs w r a (w.perform r)
  | failed (h : a.success = false) : Performs w r a w

/-- A request may be submitted: the channel is free, and without a superblock
there is nothing to do but to look for one. -/
def MaySubmit (w : World) (req : Request) : Prop :=
  w.ctrl.chan.request.type = .invalid ∧ req.type ≠ .invalid ∧
    (req.type = .init ∨ w.ctrl.sb.valid = true)

/-- One step of the world. -/
inductive Tr : World → Event → World → Prop where
  | submit {w : World} {req : Request} (h : MaySubmit w req) :
      Tr w (.submit req) { w with ctrl := w.ctrl.submitRequest req }
  | execute {w : World} {c : Control} (h : w.ctrl.execute sha = .ok c) :
      Tr w .execute { w with ctrl := c }
  | answer {w w' : World} {op : Op} {a : Answer} {c : Control}
      (hs : w.ctrl.chan.state = .pending op)
      (ha : Answers sha w (w.ctrl.peekGeneratedRequest op) a)
      (hp : Performs w (w.ctrl.peekGeneratedRequest op) a w')
      (h : w.ctrl.generatedRequestComplete op a = .ok c) :
      Tr w (.answer op a) { w' with ctrl := c }
  | drop {w : World} (hs : w.ctrl.chan.state = .completed) :
      Tr w .drop { w with ctrl := w.ctrl.dropCompletedRequest }
  | restart {w : World} : Tr w .restart { w with ctrl := {} }

end Steps

end Genode.Tresor.SbControl
