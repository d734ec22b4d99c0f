import Mathlib.Data.Finset.Basic
import Mathlib.Data.Finset.Card
import Genode.Lib.Forest
import Genode.Util.Fifo

/-!
# IpcNode — end points of synchronous inter-process communication

`kernel/ipc_node.h` and `kernel/ipc_node.cc`. Every thread owns one node
with a sending side (`_out`) and a receiving side (`_in`). The model
keeps all nodes together, one function per member, because almost every
operation changes two of them.

A node calls back into its thread (`ipc_copy_msg`,
`ipc_send_request_succeeded`, ...), in the middle of its own operations
and with its own state half updated. The callbacks are therefore a
parameter `ThreadCalls ι σ` of the operations: they see the node states
at the moment of the call and change the thread-side state `σ`.
-/

namespace Genode.Kernel

open Lib Util

/-- `Ipc_node::In::State`. -/
inductive InState where
  | ready | wait | reply | replyNoSender | destruct
  deriving DecidableEq, Repr

/-- `Ipc_node::Out::State`. -/
inductive OutState where
  | ready | send | sendHelping | destruct
  deriving DecidableEq, Repr

/-- All IPC nodes. `live` are the nodes that are constructed and not yet
destructed. The element a node is queued with is its `_queue_item`. -/
structure IpcNodes (ι : Type) where
  live : Finset ι
  outState : ι → OutState
  outNode : ι → Option ι
  inState : ι → InState
  inQueue : Fifos ι ι

/-- The members of `Thread` that an IPC node calls. -/
structure ThreadCalls (ι σ : Type) where
  ipcCopyMsg : (self sender : ι) → σ → Exec σ
  ipcSendRequestSucceeded : IpcNodes ι → ι → σ → Exec σ
  ipcSendRequestFailed : IpcNodes ι → ι → σ → Exec σ
  ipcAwaitRequestSucceeded : IpcNodes ι → ι → σ → Exec σ
  ipcAwaitRequestFailed : IpcNodes ι → ι → σ → Exec σ

namespace IpcNodes

variable {ι σ : Type} [DecidableEq ι]

/-- The nodes `live`, all of them freshly constructed. -/
def fresh (live : Finset ι) : IpcNodes ι :=
  { live, outState := fun _ => .ready, outNode := fun _ => none, inState := fun _ => .ready,
    inQueue := .init }

/-- `Out::sending`. -/
def sending (s : IpcNodes ι) (self : ι) : Bool :=
  decide (s.outState self = .sendHelping ∨ s.outState self = .send)

/-- `In::waiting`. -/
def waiting (s : IpcNodes ι) (self : ι) : Bool := decide (s.inState self = .wait)

/-- `Ipc_node::_helping`. -/
def helping (s : IpcNodes ι) (self : ι) : Bool :=
  decide (s.outState self = .sendHelping) && (s.outNode self).isSome

def readyToSend (s : IpcNodes ι) (self : ι) : Bool :=
  decide (s.outState self = .ready) && !s.waiting self

def readyToWait (s : IpcNodes ι) (self : ι) : Bool := decide (s.inState self = .ready)

/-- The node that `self` is helping. -/
def helpee (s : IpcNodes ι) (self : ι) : Option ι :=
  if s.helping self then s.outNode self else none

/-- `Ipc_node::helping_destination`: the recursion follows `_out.node`
as long as the node is helping. -/
def helpingDestination (s : IpcNodes ι) (fuel : Nat) (self : ι) : Option ι :=
  top s.helpee fuel self

omit [DecidableEq ι] in
theorem helpee_eq_some {s : IpcNodes ι} {n m : ι} :
    s.helpee n = some m ↔ s.outState n = .sendHelping ∧ s.outNode n = some m := by
  unfold helpee helping
  cases s.outState n <;> cases s.outNode n <;> simp

/-- The in-queue of a node as `for_each` traverses it. -/
def queue (s : IpcNodes ι) (self : ι) : Option (List ι) := s.inQueue.toList s.live.card self

/-- The nodes `for_each_helper` calls its functor for. -/
def helpers (s : IpcNodes ι) (self : ι) : Exec (List ι) := do
  let items ← Exec.ended (s.queue self)
  .ok (items.filter s.helping)

variable (t : ThreadCalls ι σ)

/-- `Ipc_node::_receive_from`. -/
def receiveFrom (self node : ι) (s : IpcNodes ι) (x : σ) : Exec (IpcNodes ι × σ) := do
  let x ← t.ipcCopyMsg self node x
  .ok ({ s with inState := Function.update s.inState self .reply }, x)

/-- `Ipc_node::_cancel_send`. -/
def cancelSend (self : ι) (s : IpcNodes ι) (x : σ) : Exec (IpcNodes ι × σ) := do
  let s ← match s.outNode self with
    | none => .ok s
    | some node => do
      -- if the receiver is already processing our message, it must not reply to us
      let inState :=
        if s.inState node = .reply ∧ s.inQueue.head node = some self then
          Function.update s.inState node .replyNoSender
        else s.inState
      let inQueue ← s.inQueue.remove s.live.card node self
      .ok { s with inState, inQueue, outNode := Function.update s.outNode self none }
  if s.sending self then
    let x ← t.ipcSendRequestFailed s self x
    .ok ({ s with outState := Function.update s.outState self .ready }, x)
  else .ok (s, x)

/-- `Ipc_node::send`. -/
def send (self node : ι) (help : Bool) (s : IpcNodes ι) (x : σ) : Exec (IpcNodes ι × σ) := do
  let s := { s with inQueue := s.inQueue.enqueue node self }
  let (s, x) ←
    if s.waiting node then do
      let (s, x) ← receiveFrom t node self s x
      let x ← t.ipcAwaitRequestSucceeded s node x
      .ok (s, x)
    else .ok (s, x)
  .ok ({ s with
    outNode := Function.update s.outNode self (some node)
    outState := Function.update s.outState self (if help then .sendHelping else .send) }, x)

/-- `Ipc_node::wait`. -/
def wait (self : ι) (s : IpcNodes ι) (x : σ) : Exec (IpcNodes ι × σ) :=
  let s := { s with inState := Function.update s.inState self .wait }
  match s.inQueue.head self with
  | none => .ok (s, x)
  | some item => receiveFrom t self item s x

/-- `Ipc_node::reply`. -/
def reply (self : ι) (s : IpcNodes ι) (x : σ) : Exec (IpcNodes ι × σ) := do
  let (s, x) ←
    if s.inState self = .reply then
      match s.inQueue.dequeue self with
      | (none, inQueue) => .ok ({ s with inQueue }, x)
      | (some node, inQueue) => do
        let s := { s with inQueue }
        let x ← t.ipcCopyMsg node self x
        let s := { s with outNode := Function.update s.outNode node none
                          outState := Function.update s.outState node .ready }
        let x ← t.ipcSendRequestSucceeded s node x
        .ok (s, x)
    else .ok (s, x)
  .ok ({ s with inState := Function.update s.inState self .ready }, x)

/-- The part of `Ipc_node::cancel_waiting` for the receiving side. -/
def cancelWait (self : ι) (s : IpcNodes ι) (x : σ) : Exec (IpcNodes ι × σ) :=
  if s.waiting self then do
    let s := { s with inState := Function.update s.inState self .ready }
    let x ← t.ipcAwaitRequestFailed s self x
    .ok (s, x)
  else .ok (s, x)

/-- `Ipc_node::cancel_waiting`. -/
def cancelWaiting (self : ι) (s : IpcNodes ι) (x : σ) : Exec (IpcNodes ι × σ) := do
  let (s, x) ← if s.sending self then cancelSend t self s x else .ok (s, x)
  cancelWait t self s x

/-- `Ipc_node::Ipc_node`. -/
def construct (self : ι) (s : IpcNodes ι) : IpcNodes ι :=
  { live := insert self s.live
    outState := Function.update s.outState self .ready
    outNode := Function.update s.outNode self none
    inState := Function.update s.inState self .ready
    inQueue := (s.inQueue.construct self).constructElement self }

/-- The loop of the destructor over the queued senders: the link of an
element is read before the functor unlinks the element. -/
def cancelSenders : Nat → Option ι → IpcNodes ι → σ → Exec (IpcNodes ι × σ)
  | _, none, s, x => .ok (s, x)
  | 0, some _, _, _ => .error .endless
  | n + 1, some elem, s, x => do
    let next := s.inQueue.next elem
    let (s, x) ← cancelSend t elem s x
    cancelSenders n next s x

/-- `Ipc_node::~Ipc_node`. -/
def destruct (self : ι) (s : IpcNodes ι) (x : σ) : Exec (IpcNodes ι × σ) := do
  let s := { s with inState := Function.update s.inState self .destruct
                    outState := Function.update s.outState self .destruct }
  let (s, x) ← cancelSend t self s x
  let (s, x) ← cancelSenders t s.live.card (s.inQueue.head self) s x
  .ok ({ s with live := s.live.erase self }, x)

/-! ## Links between nodes

`Linked s L` is what the operations keep at every point, also in the
middle of a destructor: the pointers represent the queues `L`, and a
node is in a queue exactly if its `_out.node` says so. -/

structure Linked (s : IpcNodes ι) (L : ι → List ι) : Prop where
  repr : s.inQueue.Repr L
  mem_iff : ∀ {n m}, n ∈ L m ↔ s.outNode n = some m
  live_of : ∀ {n m}, s.outNode n = some m → n ∈ s.live ∧ m ∈ s.live

variable {s : IpcNodes ι} {L : ι → List ι} {self : ι}

omit [DecidableEq ι] in
theorem Linked.length_le (h : Linked s L) (m : ι) : (L m).length ≤ s.live.card := by
  classical
  rw [← List.toFinset_card_of_nodup (h.repr.nodup m)]
  refine Finset.card_le_card fun n hn => ?_
  exact (h.live_of (h.mem_iff.mp (List.mem_toFinset.mp hn))).1

omit [DecidableEq ι] in
theorem Linked.queue_eq (h : Linked s L) (m : ι) : s.queue m = some (L m) :=
  h.repr.toList_eq (h.length_le m)

omit [DecidableEq ι] in
theorem Linked.head_eq (h : Linked s L) (m : ι) : s.inQueue.head m = (L m).head? :=
  h.repr.head_eq m

omit [DecidableEq ι] in
theorem Linked.not_mem (h : Linked s L) {n : ι} (hn : s.outNode n = none) (m : ι) : n ∉ L m :=
  fun hm => absurd (h.mem_iff.mp hm) (by simp [hn])

/-- The queues after `self` took its message back. -/
def withdrawQueue (s : IpcNodes ι) (L : ι → List ι) (self : ι) : ι → List ι :=
  match s.outNode self with
  | none => L
  | some m => Function.update L m ((L m).erase self)

/-- The receiving sides after `self` took its message back. -/
def withdrawIn (s : IpcNodes ι) (L : ι → List ι) (self : ι) : ι → InState :=
  match s.outNode self with
  | none => s.inState
  | some m =>
    if s.inState m = .reply ∧ (L m).head? = some self then
      Function.update s.inState m .replyNoSender
    else s.inState

/-- The nodes after `self` took its message back. -/
def withdraw (s : IpcNodes ι) (L : ι → List ι) (self : ι) (inQueue : Fifos ι ι) : IpcNodes ι :=
  { s with inState := s.withdrawIn L self, inQueue, outNode := Function.update s.outNode self none }

theorem Linked.withdraw (h : Linked s L) {inQueue : Fifos ι ι}
    (hq : inQueue.Repr (s.withdrawQueue L self)) :
    Linked (s.withdraw L self inQueue) (s.withdrawQueue L self) := by
  refine ⟨hq, ?_, ?_⟩
  · intro n m
    show n ∈ s.withdrawQueue L self m ↔ Function.update s.outNode self none n = some m
    cases ho : s.outNode self with
    | none =>
      rw [← ho, Function.update_eq_self]
      simp only [withdrawQueue, ho]
      exact h.mem_iff
    | some k =>
      simp only [withdrawQueue, ho]
      by_cases hm : m = k
      · subst hm
        rw [Function.update_self]
        by_cases hn : n = self
        · subst hn
          simpa using (h.repr.nodup m).not_mem_erase
        · rw [List.mem_erase_of_ne hn, Function.update_of_ne hn]
          exact h.mem_iff
      · rw [Function.update_of_ne hm]
        by_cases hn : n = self
        · subst hn
          simp only [Function.update_self, reduceCtorEq, iff_false]
          intro hmem
          exact hm (Option.some.inj ((h.mem_iff.mp hmem).symm.trans ho))
        · rw [Function.update_of_ne hn]
          exact h.mem_iff
  · intro n m hn
    by_cases hns : n = self
    · subst hns
      simp [IpcNodes.withdraw] at hn
    · simp only [IpcNodes.withdraw, Function.update_of_ne hns] at hn
      exact h.live_of hn

/-- `_cancel_send` takes the message back and, if the node was sending,
reports the failure to the thread. -/
theorem cancelSend_eq (h : Linked s L) (self : ι) :
    ∃ inQueue : Fifos ι ι, inQueue.Repr (s.withdrawQueue L self) ∧ ∀ x,
      cancelSend t self s x =
        if s.sending self then do
          let x ← t.ipcSendRequestFailed (s.withdraw L self inQueue) self x
          .ok ({ s.withdraw L self inQueue with
            outState := Function.update s.outState self .ready }, x)
        else .ok (s.withdraw L self inQueue, x) := by
  cases ho : s.outNode self with
  | none =>
    have hsame : s.withdraw L self s.inQueue = s := by
      simp only [IpcNodes.withdraw, withdrawIn, ho]
      rw [← ho, Function.update_eq_self]
    refine ⟨s.inQueue, ?_, fun x => ?_⟩
    · simpa [withdrawQueue, ho] using h.repr
    · rw [hsame]
      simp [cancelSend, ho]
  | some m =>
    obtain ⟨inQueue, hrm, hrepr⟩ := h.repr.remove (h.length_le m) self
    refine ⟨inQueue, by simpa [withdrawQueue, ho] using hrepr, fun x => ?_⟩
    have hw : s.withdraw L self inQueue =
        { s with inState := if s.inState m = .reply ∧ s.inQueue.head m = some self then
                   Function.update s.inState m .replyNoSender else s.inState,
                 inQueue, outNode := Function.update s.outNode self none } := by
      simp only [IpcNodes.withdraw, withdrawIn, ho, h.head_eq]
    rw [hw]
    simp only [cancelSend, ho, hrm, Exec.ok_bind]
    rfl

end IpcNodes

end Genode.Kernel
