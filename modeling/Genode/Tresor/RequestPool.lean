import Genode.Lib.RingBuffer
import Genode.Tresor.SuperblockControl

/-!
# RequestPool — the scheduling of requests

`tresor/request_pool.cc`. The pool holds requests in 16 channels and works
on one of them at a time, the one at the head of a queue of channel indices.
A request is done in steps, each a request to the superblock control. Between
two steps of a request that re-encrypts or extends, other requests may be
preponed: the request moves itself towards the tail of the queue.

Exceptions end the program and show as faults. A request for an operation
without a step of its own never gets into the pool.
-/

namespace Genode.Tresor.RequestPool

open Genode.Lib

def nrOfChannels : Nat := 16

theorem nrOfChannels_pos : 0 < nrOfChannels := Nat.succ_pos 15

def maxNrOfRequestsPreponedAtATime : Nat := 8

/-- The index of a channel. -/
abbrev SlotsIndex := Fin nrOfChannels

/-- `Request::Operation` -/
inductive Operation where
  | invalid
  | read
  | write
  | sync
  | createSnapshot
  | discardSnapshot
  | rekey
  | extendVbd
  | extendFt
  | resumeRekeying
  | deinit
  | init
  deriving DecidableEq, Repr

/-- `Request`. The ids are those of the destination and of the source. -/
structure Request where
  operation : Operation := .invalid
  success : Bool := false
  blockNumber : UInt64 := 0
  offset : UInt64 := 0
  count : UInt64 := 0
  keyId : UInt32 := 0
  tag : UInt32 := 0
  snapId : UInt32 := 0
  dstRequestId : UInt64 := 0xffffffffffffffff
  srcModuleId : UInt64 := 0xffffffffffffffff
  srcRequestId : UInt64 := 0xffffffffffffffff
  deriving DecidableEq

/-- The steps that the superblock control does for the pool. -/
inductive Op where
  | rekeyInit
  | treeExtensionStep
  | sync
  | readVba
  | writeVba
  | rekeyVba
  | init
  | deinit
  deriving DecidableEq, Repr

/-- `Request_pool_channel::State`, without the states for snapshots, which
are never entered. An extension step is pending in a state of its own for
each of the trees. -/
inductive State where
  | invalid
  | submitted
  | submittedResumeRekeying
  | preponeRequestsPending
  | preponeRequestsComplete
  | vbdExtensionStepPending
  | ftExtensionStepPending
  | pending (op : Op)
  | inProgress (op : Op)
  | done (op : Op)
  | complete
  deriving DecidableEq, Repr

/-- `Generated_prim`. Only the result and the block number are ever read. -/
structure GeneratedPrim where
  succ : Bool := false
  blkNr : UInt64 := 0
  deriving DecidableEq

/-- `Request_pool_channel` -/
structure Channel where
  request : Request := {}
  state : State := .invalid
  prim : GeneratedPrim := {}
  nrOfBlks : UInt64 := 0
  gen : Generation := 0
  sbState : SuperblockState := .invalid
  nrOfRequestsPreponed : Nat := 0
  requestFinished : Bool := false
  deriving DecidableEq

/-- `invalidate`, which leaves the last two members as they are. -/
def Channel.invalidate (chan : Channel) : Channel :=
  { nrOfRequestsPreponed := chan.nrOfRequestsPreponed, requestFinished := chan.requestFinished }

/-- Generate a request for the superblock control. -/
def Channel.generate (chan : Channel) (state : State) (blkNr : UInt64) : Channel :=
  { chan with prim := { succ := false, blkNr := blkNr }, state := state }

/-- The request of the channel is done. -/
def Channel.finish (chan : Channel) (success : Bool) : Channel :=
  { chan with request := { chan.request with success := success }, state := .complete }

/-! ## The queue -/

/-- `Index_queue` -/
abbrev IndexQueue := RingBuffer nrOfChannels SlotsIndex

namespace IndexQueue

def initial : IndexQueue where
  head := 0
  tail := 0
  used := 0
  slots := fun _ => ⟨0, nrOfChannels_pos⟩
  head_lt := nrOfChannels_pos
  used_le := Nat.zero_le _
  tail_eq := rfl

variable (q : IndexQueue)

/-- `head` -/
def first : Exec SlotsIndex :=
  if q.used = 0 then .error .assertion else pure (q.slots q.head)

def enqueue (idx : SlotsIndex) : Exec IndexQueue :=
  if h : q.used < nrOfChannels then pure (q.push idx h) else .error .assertion

/-- The common loop of `move_one_item_towards_tail` and `next_item`: the slot
of the item and the slot behind it. -/
def seek (idx : SlotsIndex) : Nat → Nat → Exec (Nat × Nat)
  | 0, _ => .error .endless
  | n + 1, slotIdx =>
    let nextSlotIdx := if slotIdx < nrOfChannels - 1 then slotIdx + 1 else 0
    if nextSlotIdx = q.tail then .error .assertion
    else if q.slots slotIdx = idx then pure (slotIdx, nextSlotIdx)
    else seek idx n nextSlotIdx

def moveOneItemTowardsTail (idx : SlotsIndex) : Exec IndexQueue :=
  if q.used = 0 then .error .assertion
  else do
    let (slotIdx, nextSlotIdx) ← seek q idx nrOfChannels q.head
    pure (q.swap slotIdx nextSlotIdx)

def itemIsTail (idx : SlotsIndex) : Exec Bool :=
  if q.used = 0 then .error .assertion
  else
    let slotIdx := if 0 < q.tail then q.tail - 1 else nrOfChannels - 1
    pure (decide (q.slots slotIdx = idx))

def nextItem (idx : SlotsIndex) : Exec SlotsIndex :=
  if q.used = 0 then .error .assertion
  else do
    let (_, nextSlotIdx) ← seek q idx nrOfChannels q.head
    pure (q.slots nextSlotIdx)

def dequeue (idx : SlotsIndex) : Exec IndexQueue :=
  if h : 0 < q.used then
    if q.slots q.head = idx then pure (q.pop h) else .error .assertion
  else .error .assertion

section Lists

variable {q} {q' : IndexQueue} {i a b : SlotsIndex} {xs ys : List SlotsIndex}

theorem used_pos (h : q.toList = xs ++ a :: ys) : 0 < q.used := by
  rw [← RingBuffer.length_toList, h]
  simp

theorem used_pos_of_head (h : q.toList = a :: ys) : 0 < q.used :=
  used_pos (show q.toList = [] ++ a :: ys from h)

theorem first_eq_ok : q.first = .ok i ↔ ∃ rest, q.toList = i :: rest := by
  unfold first
  split
  · rename_i h
    rw [q.toList_eq_nil_iff.mpr h]
    simp
  · rename_i h
    have hpop := q.toList_pop (Nat.pos_of_ne_zero h)
    rw [hpop]
    simp

theorem toList_enqueue (h : q.enqueue i = .ok q') : q'.toList = q.toList ++ [i] := by
  unfold enqueue at h
  split at h
  · cases h
    exact q.toList_push _
  · cases h

theorem toList_dequeue (h : q.dequeue i = .ok q') : q.toList = i :: q'.toList := by
  unfold dequeue at h
  split at h
  · rename_i hpos
    split at h
    · rename_i hi
      cases h
      rw [q.toList_pop hpos, hi]
    · cases h
  · cases h

theorem itemIsTail_eq (h : q.toList = xs ++ [a]) : q.itemIsTail i = .ok (decide (a = i)) := by
  have hpos := used_pos h
  have hlen : q.used = xs.length + 1 := by
    rw [← RingBuffer.length_toList, h]
    simp
  rw [itemIsTail, if_neg (Nat.ne_of_gt hpos)]
  dsimp only
  rw [← q.slot_pred_used hlen, q.slots_of_toList h]
  rfl

/-- The search goes along the items up to the one it is for. -/
theorem seek_eq (h : q.toList = xs ++ i :: b :: ys) (hi : i ∉ xs) {k n : Nat} (hk : k ≤ xs.length)
    (hn : xs.length < k + n) :
    q.seek i n (q.slot k) = .ok (q.slot xs.length, q.slot (xs.length + 1)) := by
  have hused : xs.length + 1 < q.used := by
    rw [← RingBuffer.length_toList, h]
    simp
  induction n generalizing k with
  | zero => omega
  | succ n ih =>
    have hnext : q.slot (k + 1) ≠ q.tail := by
      intro ht
      have := (q.slot_succ_eq_tail_iff (by omega)).mp ht
      omega
    rw [seek, ← q.slot_succ, if_neg hnext]
    by_cases he : k = xs.length
    · subst he
      rw [if_pos (q.slots_of_toList h)]
      rfl
    · have hlt : k < xs.length := by omega
      have hslot : q.slots (q.slot k) = xs[k] := by
        have hget := q.getElem?_toList (k := k) (by omega)
        rw [h, List.getElem?_append_left hlt, List.getElem?_eq_getElem hlt] at hget
        exact (Option.some.inj hget).symm
      have hne : xs[k] ≠ i := fun hx => hi (hx ▸ List.getElem_mem hlt)
      rw [hslot, if_neg hne]
      exact ih (by omega) (by omega)

theorem seek_head (h : q.toList = xs ++ i :: b :: ys) (hi : i ∉ xs) :
    q.seek i nrOfChannels q.head = .ok (q.slot xs.length, q.slot (xs.length + 1)) := by
  have hlen := congrArg List.length h
  have hle := q.used_le
  rw [RingBuffer.length_toList, List.length_append, List.length_cons] at hlen
  rw [← q.slot_zero]
  exact seek_eq h hi (Nat.zero_le _) (by omega)

theorem nextItem_eq (h : q.toList = xs ++ i :: b :: ys) (hi : i ∉ xs) : q.nextItem i = .ok b := by
  have hsplit : q.toList = (xs ++ [i]) ++ b :: ys := by rw [h, List.append_assoc]; rfl
  have hb := q.slots_of_toList hsplit
  rw [List.length_append, List.length_singleton] at hb
  rw [nextItem, if_neg (Nat.ne_of_gt (used_pos h)), seek_head h hi, Exec.ok_bind]
  change Except.ok (q.slots (q.slot (xs.length + 1))) = _
  rw [hb]

theorem moveOneItemTowardsTail_eq (h : q.toList = xs ++ i :: b :: ys) (hi : i ∉ xs) :
    ∃ q' : IndexQueue, q.moveOneItemTowardsTail i = .ok q' ∧ q'.toList = xs ++ b :: i :: ys := by
  refine ⟨_, ?_, q.toList_swap h⟩
  rw [moveOneItemTowardsTail, if_neg (Nat.ne_of_gt (used_pos h)), seek_head h hi]
  rfl

end Lists

end IndexQueue

/-! ## The pool -/

/-- `Request_pool` -/
structure Pool where
  channels : SlotsIndex → Channel
  indices : IndexQueue

/-- What may be preponed. -/
def Operation.preponable : Operation → Bool
  | .read => true
  | .write => true
  | .sync => true
  | .discardSnapshot => true
  | _ => false

namespace Pool

/-- The constructor: the pool begins with a request of its own. -/
def initial : Pool where
  channels := Function.update (fun _ => {}) ⟨0, nrOfChannels_pos⟩
    { state := .submitted, request := { operation := .init } }
  indices := IndexQueue.initial.push ⟨0, nrOfChannels_pos⟩ nrOfChannels_pos

variable (p : Pool) (idx : SlotsIndex)

def update (chan : Channel) : Pool := { p with channels := Function.update p.channels idx chan }

/-- The request is done and leaves the queue. -/
def dequeueAnd (chan : Channel) : Exec Pool := do
  let indices ← IndexQueue.dequeue p.indices idx
  pure { p.update idx chan with indices := indices }

/-- `_execute_read` and `_execute_write` -/
def executeVbas (op : Op) : Exec Pool :=
  let chan := p.channels idx
  let nth (n : UInt64) : Pool :=
    p.update idx ({ chan with nrOfBlks := n }.generate (.pending op) (chan.request.blockNumber + n))
  match chan.state with
  | .submitted => pure (nth 0)
  | .done o =>
    if o = op then
      if chan.prim.succ then
        let nrOfBlks := chan.nrOfBlks + 1
        if nrOfBlks < chan.request.count then pure (nth nrOfBlks)
        else p.dequeueAnd idx ({ chan with nrOfBlks := nrOfBlks }.finish true)
      else p.dequeueAnd idx (chan.finish false)
    else pure p
  | _ => pure p

def executeRead : Exec Pool := p.executeVbas idx .readVba

def executeWrite : Exec Pool := p.executeVbas idx .writeVba

/-- `_execute_sync`. The generation that is returned is never set. -/
def executeSync : Exec Pool :=
  let chan := p.channels idx
  match chan.state with
  | .submitted => pure (p.update idx (chan.generate (.pending .sync) 0))
  | .done .sync =>
    if chan.prim.succ then
      p.dequeueAnd idx ({ chan with request := { chan.request with offset := chan.gen } }.finish true)
    else p.dequeueAnd idx (chan.finish false)
  | _ => pure p

/-- The loop over the requests behind `idx`, for at most `n` of them: how many
were preponed, and the queue after that. -/
def preponeLoop : Nat → IndexQueue → Exec (Nat × IndexQueue)
  | 0, q => pure (0, q)
  | n + 1, q => do
    if ← q.itemIsTail idx then pure (0, q)
    else
      let nextIdx ← q.nextItem idx
      if (p.channels nextIdx).request.operation.preponable then
        let q ← q.moveOneItemTowardsTail idx
        let (k, q) ← preponeLoop n q
        pure (k + 1, q)
      else pure (0, q)

/-- `PREPONE_REQUESTS_PENDING`, for all requests that may be interrupted. -/
def preponeRequests : Exec Pool := do
  let chan := p.channels idx
  let (k, q) ← p.preponeLoop idx (maxNrOfRequestsPreponedAtATime - chan.nrOfRequestsPreponed)
    p.indices
  let chan := { chan with nrOfRequestsPreponed := chan.nrOfRequestsPreponed + k }
  pure { p.update idx (if k = 0 then { chan with state := .preponeRequestsComplete } else chan) with
    indices := q }

/-- Before requests are preponed. -/
def beginPreponing (chan : Channel) : Pool :=
  p.update idx { chan with nrOfRequestsPreponed := 0, state := .preponeRequestsPending }

/-- `_mark_req_failed`, which leaves the index in the queue. -/
def markReqFailed : Pool := p.update idx ((p.channels idx).finish false)

/-- `_mark_req_successful` -/
def markReqSuccessful : Exec Pool := p.dequeueAnd idx ((p.channels idx).finish true)

/-- `_execute_extend_tree` -/
def executeExtendTree (treeExtStepPending : State) : Exec Pool :=
  let chan := p.channels idx
  match chan.state with
  | .submitted => pure (p.update idx (chan.generate treeExtStepPending 0))
  | .done .treeExtensionStep =>
    if !chan.prim.succ then pure (p.markReqFailed idx)
    else if chan.requestFinished then p.markReqSuccessful idx
    else pure (p.beginPreponing idx chan)
  | .preponeRequestsPending => p.preponeRequests idx
  | .preponeRequestsComplete => pure (p.update idx (chan.generate treeExtStepPending 0))
  | _ => pure p

/-- `_execute_rekey` -/
def executeRekey : Exec Pool :=
  let chan := p.channels idx
  match chan.state with
  | .submitted => pure (p.update idx (chan.generate (.pending .rekeyInit) 0))
  | .submittedResumeRekeying => pure (p.beginPreponing idx { chan with prim := {} })
  | .done .rekeyInit =>
    if !chan.prim.succ then .error .assertion else pure (p.beginPreponing idx chan)
  | .done .rekeyVba =>
    if !chan.prim.succ then .error .assertion
    else if chan.requestFinished then p.dequeueAnd idx (chan.finish true)
    else pure (p.beginPreponing idx chan)
  | .preponeRequestsPending => p.preponeRequests idx
  | .preponeRequestsComplete => pure (p.update idx (chan.generate (.pending .rekeyVba) 0))
  | _ => pure p

/-- `_execute_initialize`. A superblock in the middle of an operation is met
with an exception. -/
def executeInitialize : Exec Pool :=
  let chan := p.channels idx
  match chan.state with
  | .submitted => pure (p.update idx (chan.generate (.pending .init) 0))
  | .done .init =>
    if !chan.prim.succ then .error .assertion
    else if chan.sbState = .normal then p.dequeueAnd idx chan.invalidate
    else .error .assertion
  | _ => pure p

/-- `_execute_deinitialize` -/
def executeDeinit : Exec Pool :=
  let chan := p.channels idx
  match chan.state with
  | .submitted => pure (p.update idx (chan.generate (.pending .deinit) 0))
  | .done .deinit =>
    if !chan.prim.succ then .error .assertion else p.dequeueAnd idx (chan.finish true)
  | _ => pure p

/-- `execute` -/
def execute : Exec Pool :=
  if p.indices.used = 0 then pure p
  else do
    let idx ← IndexQueue.first p.indices
    match (p.channels idx).request.operation with
    | .read => p.executeRead idx
    | .write => p.executeWrite idx
    | .sync => p.executeSync idx
    | .rekey => p.executeRekey idx
    | .extendVbd => p.executeExtendTree idx .vbdExtensionStepPending
    | .extendFt => p.executeExtendTree idx .ftExtensionStepPending
    | .init => p.executeInitialize idx
    | .deinit => p.executeDeinit idx
    | .createSnapshot => .error .assertion
    | .discardSnapshot => .error .assertion
    | .invalid => pure p
    | .resumeRekeying => pure p

/-! ## Requests to the pool -/

/-- The channel that the next request gets. -/
def freeChannel : Option SlotsIndex :=
  (List.finRange nrOfChannels).find? fun idx => decide ((p.channels idx).state = .invalid)

end Pool

/-- What clients may submit. -/
def Operation.submittable : Operation → Bool
  | .sync => true
  | .read => true
  | .write => true
  | .deinit => true
  | .rekey => true
  | .extendVbd => true
  | .extendFt => true
  | _ => false

namespace Pool

variable (p : Pool)

/-- `submit_request` -/
def submitRequest (req : Request) : Exec Pool :=
  match p.freeChannel with
  | none => .error .assertion
  | some idx =>
    if req.operation.submittable then do
      let req := { req with dstRequestId := UInt64.ofNat idx.val }
      let indices ← IndexQueue.enqueue p.indices idx
      pure { p.update idx { p.channels idx with state := .submitted, request := req } with
        indices := indices }
    else .error .assertion

/-- The channel with the given id. -/
def channelOfId (id : UInt64) : Exec SlotsIndex :=
  if h : id.toNat < nrOfChannels then pure ⟨id.toNat, h⟩ else .error .assertion

/-- `_peek_completed_request` -/
def peekCompletedRequest : Option Request :=
  ((List.finRange nrOfChannels).find? fun idx =>
    decide ((p.channels idx).request.operation ≠ .invalid) &&
      decide ((p.channels idx).state = .complete)).map fun idx => (p.channels idx).request

/-- `_drop_completed_request` -/
def dropCompletedRequest (req : Request) : Exec Pool := do
  let idx ← channelOfId req.dstRequestId
  let chan := p.channels idx
  if chan.request.operation = .invalid ∨ chan.state ≠ .complete then .error .assertion
  else pure (p.update idx {})

end Pool

/-! ## Requests to the superblock control -/

/-- The type of the request that a channel waits to generate. -/
def State.requestType : State → Option SbControl.ReqType
  | .pending .readVba => some .readVba
  | .pending .writeVba => some .writeVba
  | .pending .sync => some .sync
  | .pending .init => some .init
  | .pending .deinit => some .deinit
  | .pending .rekeyInit => some .initializeRekeying
  | .pending .rekeyVba => some .rekeyVba
  | .vbdExtensionStepPending => some .vbdExtensionStep
  | .ftExtensionStepPending => some .ftExtensionStep
  | _ => none

namespace Pool

variable (p : Pool)

/-- `_peek_generated_request`: the channel at the head of the queue and its
request. -/
def peekGeneratedRequest : Option (SlotsIndex × SbControl.Request) :=
  if p.indices.used = 0 then none
  else
    let idx := p.indices.slots p.indices.head
    let chan := p.channels idx
    chan.state.requestType.map fun type => (idx,
      { type := type
        clientReqOffset := chan.request.offset
        clientReqTag := chan.request.tag.toUInt64
        nrOfBlks := chan.request.count
        vba := chan.prim.blkNr })

/-- `_drop_generated_request` -/
def dropGeneratedRequest (idx : SlotsIndex) : Exec Pool :=
  let chan := p.channels idx
  let drop (op : Op) : Exec Pool := pure (p.update idx { chan with state := .inProgress op })
  match chan.state with
  | .vbdExtensionStepPending => drop .treeExtensionStep
  | .ftExtensionStepPending => drop .treeExtensionStep
  | .pending op => drop op
  | _ => .error .assertion

/-- `generated_request_complete`, for an answer of the superblock control. -/
def generatedRequestComplete (id : UInt64) (genReq : SbControl.Request) : Exec Pool := do
  let idx ← channelOfId id
  let chan := { p.channels idx with prim := { (p.channels idx).prim with succ := genReq.success } }
  match chan.state with
  | .inProgress op =>
    let chan := { chan with state := .done op }
    pure (p.update idx <|
      match op with
      | .treeExtensionStep => { chan with requestFinished := genReq.requestFinished }
      | .rekeyVba => { chan with requestFinished := genReq.requestFinished }
      | .init => { chan with sbState := genReq.sbState }
      | _ => chan)
  | _ => .error .assertion

/-- What happens to the pool. -/
inductive Event where
  /-- A client submits a request. -/
  | submit (req : Request)
  | execute
  /-- The superblock control takes the generated request, if there is one. -/
  | generate
  /-- The superblock control answers. -/
  | answer (id : UInt64) (genReq : SbControl.Request)
  /-- A request that is complete goes back to its client, if there is one. -/
  | respond
  deriving DecidableEq

def step : Event → Exec Pool
  | .submit req => p.submitRequest req
  | .execute => p.execute
  | .generate =>
    match p.peekGeneratedRequest with
    | some (idx, _) => p.dropGeneratedRequest idx
    | none => pure p
  | .answer id genReq => p.generatedRequestComplete id genReq
  | .respond =>
    match p.peekCompletedRequest with
    | some req => p.dropCompletedRequest req
    | none => pure p

end Pool

end Genode.Tresor.RequestPool
