import Mathlib.Data.Finset.Card
import Genode.Lib.Exec
import Genode.Util.Fifo

/-!
# SignalReceiver — asynchronous notifications

`kernel/signal_receiver.h` and `kernel/signal_receiver.cc`. A context
counts the signals submitted to it until its receiver hands them to a
handler, all at once. After that the context has to be acknowledged
before it is delivered again. Each thread has a handler, which waits at
a receiver, and a killer, which waits for the acknowledgement that a
killed context still lacks.

The receivers `ρ`, the contexts `γ` and the threads `τ` are created and
destructed at any time and point to each other. Accesses through a
pointer to an object that is gone are faults here; the memory of a
destructed object may be used again, but the object made from it is
another one, so names are not used twice.
-/

namespace Genode.Kernel

open Lib Util

/-- The objects of one kind that exist, and those that are gone. -/
structure Objects (α : Type) where
  live : Finset α
  gone : Finset α

namespace Objects

variable {α : Type} [DecidableEq α] (o : Objects α)

def init : Objects α := ⟨∅, ∅⟩

/-- The object never existed. -/
def Fresh (x : α) : Prop := x ∉ o.live ∧ x ∉ o.gone

instance (x : α) : Decidable (o.Fresh x) := inferInstanceAs (Decidable (_ ∧ _))

def create (x : α) : Objects α := { o with live := insert x o.live }

def destroy (x : α) : Objects α := ⟨o.live.erase x, insert x o.gone⟩

end Objects

/-- What `Thread::_state` says about signals: the thread is blocked by
`add_handler` or by `kill`, or by neither. -/
inductive SignalState where
  | active
  | awaitsSignal
  | awaitsSignalContextKill
  deriving DecidableEq, Repr

/-- The signal data that a handler receives, with the context that it
comes from. -/
structure Delivery (γ τ : Type) where
  handler : τ
  context : γ
  imprint : UInt64
  num : UInt32
  deriving DecidableEq, Repr

/-- All signal objects of the kernel. -/
structure Signals (ρ γ τ : Type) where
  receivers : Objects ρ
  contexts : Objects γ
  threads : Objects τ
  /-- `_receiver`, `_imprint`, `_killer`, `_submits`, `_ack` and
  `_killed` of a context. -/
  receiver : γ → ρ
  imprint : γ → UInt64
  killer : γ → Option τ
  submits : γ → UInt32
  ack : γ → Bool
  killed : γ → Bool
  /-- `_receiver` of the handler and `_context` of the killer of a
  thread, and its state. -/
  handlerReceiver : τ → Option ρ
  killerContext : τ → Option γ
  state : τ → SignalState
  /-- `_handlers`, `_deliver` and `_contexts` of the receivers. -/
  handlers : Fifos ρ τ
  deliver : Fifos ρ γ
  assigned : Fifos ρ γ

namespace Signals

variable {ρ γ τ : Type} [DecidableEq ρ] [DecidableEq γ] [DecidableEq τ]

/-- No objects. The values for objects that do not exist do not matter. -/
def init (receiver : γ → ρ) : Signals ρ γ τ :=
  { receivers := .init, contexts := .init, threads := .init, receiver,
    imprint := fun _ => 0, killer := fun _ => none, submits := fun _ => 0, ack := fun _ => true,
    killed := fun _ => false, handlerReceiver := fun _ => none, killerContext := fun _ => none,
    state := fun _ => .active, handlers := .init, deliver := .init, assigned := .init }

variable (s : Signals ρ γ τ)

/-! ## What a thread is told -/

def setState (t : τ) (state : SignalState) : Signals ρ γ τ :=
  { s with state := Function.update s.state t state }

/-- `Thread::signal_context_kill_pending`. -/
def signalContextKillPending (t : τ) : Exec (Signals ρ γ τ) := do
  Exec.assert (decide (s.state t = .active))
  .ok (s.setState t .awaitsSignalContextKill)

/-- The end of a pending kill. -/
def signalContextKillEnd (t : τ) : Exec (Signals ρ γ τ) := do
  Exec.assert (decide (s.state t = .awaitsSignalContextKill))
  .ok (s.setState t .active)

/-- `Thread::signal_context_kill_done`. -/
def signalContextKillDone (t : τ) : Exec (Signals ρ γ τ) := s.signalContextKillEnd t

/-- `Thread::signal_context_kill_failed`. -/
def signalContextKillFailed (t : τ) : Exec (Signals ρ γ τ) := s.signalContextKillEnd t

/-- `Thread::signal_wait_for_signal`. -/
def signalWaitForSignal (t : τ) : Signals ρ γ τ := s.setState t .awaitsSignal

/-- `Thread::signal_receive_signal`. -/
def signalReceiveSignal (t : τ) : Exec (Signals ρ γ τ) := do
  Exec.assert (decide (s.state t = .awaitsSignal))
  .ok (s.setState t .active)

/-! ## Delivery -/

/-- `Signal_context::_delivered`. -/
def delivered (c : γ) : Signals ρ γ τ :=
  { s with submits := Function.update s.submits c 0, ack := Function.update s.ack c false }

/-- One iteration of `Signal_receiver::_listen`. -/
def deliverNext (r : ρ) : Exec (Delivery γ τ × Signals ρ γ τ) := do
  let c ← Exec.deref (s.deliver.dequeue r).1
  Exec.access s.contexts.live c
  let t ← Exec.deref (s.handlers.dequeue r).1
  Exec.access s.threads.live t
  let s := { s with deliver := (s.deliver.dequeue r).2
                    handlers := (s.handlers.dequeue r).2
                    handlerReceiver := Function.update s.handlerReceiver t none }
  let s ← s.signalReceiveSignal t
  .ok (⟨t, c, s.imprint c, s.submits c⟩, s.delivered c)

/-- `Signal_receiver::_listen`, for at most `n` deliveries. -/
def listenLoop (r : ρ) (n : Nat) (s : Signals ρ γ τ) (ds : List (Delivery γ τ)) :
    Exec (List (Delivery γ τ) × Signals ρ γ τ) :=
  if s.deliver.empty r || s.handlers.empty r then .ok (ds, s)
  else
    match n with
    | 0 => .error .endless
    | n + 1 => do
      let (d, s) ← s.deliverNext r
      listenLoop r n s (ds ++ [d])

def listen (r : ρ) : Exec (List (Delivery γ τ) × Signals ρ γ τ) :=
  listenLoop r s.contexts.live.card s []

/-- `Signal_receiver::_add_deliverable`. -/
def addDeliverable (r : ρ) (c : γ) : Exec (List (Delivery γ τ) × Signals ρ γ τ) := do
  Exec.access s.receivers.live r
  let s := if s.deliver.enqueued c then s else { s with deliver := s.deliver.enqueue r c }
  s.listen r

/-- `Signal_context::_deliverable`. -/
def deliverable (c : γ) : Exec (List (Delivery γ τ) × Signals ρ γ τ) :=
  if s.submits c ≠ 0 then s.addDeliverable (s.receiver c) c else .ok ([], s)

/-! ## The operations of a context -/

/-- `Signal_context::can_submit`. -/
def canSubmit (c : γ) (n : UInt32) : Bool :=
  !(s.killed c || decide (s.submits c ≥ ~~~ 0 - n))

/-- `Signal_context::submit`. -/
def submit (c : γ) (n : UInt32) : Exec (List (Delivery γ τ) × Signals ρ γ τ) :=
  if s.killed c || decide (s.submits c ≥ ~~~ 0 - n) then .ok ([], s)
  else
    let s := { s with submits := Function.update s.submits c (s.submits c + n) }
    if s.ack c then s.deliverable c else .ok ([], s)

/-- The end of a kill that waited for the acknowledgement. -/
def finishKill (c : γ) (k : τ) : Exec (Signals ρ γ τ) := do
  Exec.access s.threads.live k
  let s := { s with killerContext := Function.update s.killerContext k none }
  let s ← s.signalContextKillDone k
  .ok { s with killer := Function.update s.killer c none }

/-- `Signal_context::ack`. -/
def acknowledge (c : γ) : Exec (List (Delivery γ τ) × Signals ρ γ τ) :=
  if s.ack c then .ok ([], s)
  else if !s.killed c then deliverable { s with ack := Function.update s.ack c true } c
  else
    match s.killer c with
    | none => .ok ([], s)
    | some k => do
      let s ← s.finishKill c k
      .ok ([], s)

def setKilled (c : γ) : Signals ρ γ τ := { s with killed := Function.update s.killed c true }

/-- `Signal_context::kill`. -/
def kill (c : γ) (k : τ) : Exec (Signals ρ γ τ) :=
  if s.killed c then .ok s
  -- there is no unacknowledged delivery
  else if s.ack c then .ok (s.setKilled c)
  else
    let s := { s with killer := Function.update s.killer c (some k) }
    let s := s.setKilled c
    let s := { s with killerContext := Function.update s.killerContext k (some c) }
    s.signalContextKillPending k

/-- `Signal_receiver::_context_destructed`. -/
def contextDestructed (r : ρ) (c : γ) : Exec (Signals ρ γ τ) := do
  Exec.access s.receivers.live r
  let assigned ← s.assigned.remove s.contexts.live.card r c
  let s := { s with assigned }
  if !s.deliver.enqueued c then .ok s
  else do
    let deliver ← s.deliver.remove s.contexts.live.card r c
    .ok { s with deliver }

/-- The end of a kill whose context is destructed. -/
def failKill (c : γ) : Exec (Signals ρ γ τ) :=
  match s.killer c with
  | none => .ok s
  | some k => do
    Exec.access s.threads.live k
    s.signalContextKillFailed k

/-- `Signal_context::~Signal_context`. -/
def destructContext (c : γ) : Exec (Signals ρ γ τ) := do
  let s ← s.failKill c
  let s ← s.contextDestructed (s.receiver c) c
  .ok { s with contexts := s.contexts.destroy c }

/-- `Signal_context::Signal_context`. -/
def newContext (c : γ) (r : ρ) (imprint : UInt64) : Signals ρ γ τ :=
  { s with
    contexts := s.contexts.create c
    receiver := Function.update s.receiver c r
    imprint := Function.update s.imprint c imprint
    killer := Function.update s.killer c none
    submits := Function.update s.submits c 0
    ack := Function.update s.ack c true
    killed := Function.update s.killed c false
    deliver := s.deliver.constructElement c
    assigned := (s.assigned.constructElement c).enqueue r c }

/-! ## The operations of a receiver -/

/-- `Signal_receiver::Signal_receiver`. -/
def newReceiver (r : ρ) : Signals ρ γ τ :=
  { s with
    receivers := s.receivers.create r
    handlers := s.handlers.construct r
    deliver := s.deliver.construct r
    assigned := s.assigned.construct r }

/-- `Signal_receiver::add_handler`. -/
def addHandler (r : ρ) (t : τ) : Exec (List (Delivery γ τ) × Signals ρ γ τ) :=
  if s.handlerReceiver t ≠ none then .ok ([], s)
  else
    let s := { s with handlers := s.handlers.enqueue r t }
    let s := { s with handlerReceiver := Function.update s.handlerReceiver t (some r) }
    listen (s.signalWaitForSignal t) r

/-- The loop of `Signal_receiver::~Signal_receiver`. -/
def destructContexts (r : ρ) (n : Nat) (s : Signals ρ γ τ) : Exec (Signals ρ γ τ) :=
  match (s.assigned.dequeue r).1 with
  | none => .ok s
  | some c =>
    match n with
    | 0 => .error .endless
    | n + 1 => do
      Exec.access s.contexts.live c
      let s ← destructContext { s with assigned := (s.assigned.dequeue r).2 } c
      destructContexts r n s

/-- `Signal_receiver::~Signal_receiver`. -/
def destructReceiver (r : ρ) : Exec (Signals ρ γ τ) := do
  let s ← destructContexts r s.contexts.live.card s
  .ok { s with receivers := s.receivers.destroy r }

/-! ## The operations of a thread -/

/-- `Thread::Thread`. -/
def newThread (t : τ) : Signals ρ γ τ :=
  { s with
    threads := s.threads.create t
    handlers := s.handlers.constructElement t
    handlerReceiver := Function.update s.handlerReceiver t none
    killerContext := Function.update s.killerContext t none
    state := Function.update s.state t .active }

/-- `Signal_handler::cancel_waiting`. -/
def cancelHandler (t : τ) : Exec (Signals ρ γ τ) :=
  match s.handlerReceiver t with
  | none => .ok s
  | some r => do
    Exec.access s.receivers.live r
    let handlers ← s.handlers.remove s.threads.live.card r t
    .ok { s with handlers, handlerReceiver := Function.update s.handlerReceiver t none }

/-- `Signal_context_killer::cancel_waiting`. -/
def cancelKiller (t : τ) : Exec (Signals ρ γ τ) :=
  match s.killerContext t with
  | none => .ok s
  | some c => do
    Exec.access s.contexts.live c
    .ok { s with killer := Function.update s.killer c none }

/-- `Thread::_cancel_blocking`, as far as signals are concerned. -/
def cancelBlocking (t : τ) : Exec (Signals ρ γ τ) :=
  match s.state t with
  | .active => .ok s
  | .awaitsSignal => do
    let s ← s.cancelHandler t
    .ok (s.setState t .active)
  | .awaitsSignalContextKill => s.cancelKiller t

/-- `Thread::~Thread`. -/
def destructThread (t : τ) : Exec (Signals ρ γ τ) := do
  let s ← s.cancelKiller t
  let s ← s.cancelHandler t
  .ok { s with threads := s.threads.destroy t }

end Signals

end Genode.Kernel
