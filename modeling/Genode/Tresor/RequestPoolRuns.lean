import Genode.Lib.Run
import Genode.Tresor.RequestPool

/-!
# RequestPoolRuns — the order of the requests of the pool

Every request gets a ticket with its number when it is submitted. The queue
holds what is accepted and not complete, requests start in the order of their
numbers, and only a request that re-encrypts or extends gives way to others, as
long as no extension step fails: the index of a request that failed so stays in
the queue.
-/

namespace Genode.Tresor.RequestPool

open Genode.Lib

/-- What may be interrupted for other requests. -/
def Operation.long : Operation → Bool
  | .rekey => true
  | .extendVbd => true
  | .extendFt => true
  | _ => false

/-- What is never preponed to a request that is interrupted. -/
def Operation.fixed : Operation → Bool
  | .rekey => true
  | .extendVbd => true
  | .extendFt => true
  | .deinit => true
  | _ => false

/-- What the superblock control is asked to do for a request. -/
def Operation.asksFor : Operation → SbControl.ReqType → Bool
  | .read, .readVba => true
  | .write, .writeVba => true
  | .sync, .sync => true
  | .rekey, .initializeRekeying => true
  | .rekey, .rekeyVba => true
  | .extendVbd, .vbdExtensionStep => true
  | .extendFt, .ftExtensionStep => true
  | .init, .init => true
  | .deinit, .deinit => true
  | _, _ => false

theorem Operation.not_fixed_of_preponable {op : Operation} (h : op.preponable = true) :
    op.fixed = false := by
  cases op <;> first | rfl | cases h

theorem Operation.not_long_of_preponable {op : Operation} (h : op.preponable = true) :
    op.long = false := by
  cases op <;> first | rfl | cases h

/-- The pool has a request and is not done with it. -/
def State.accepted : State → Bool
  | .invalid => false
  | .complete => false
  | _ => true

def State.preponing : State → Bool
  | .preponeRequestsPending => true
  | .preponeRequestsComplete => true
  | _ => false

theorem State.of_preponing {s : State} (h : s.preponing = true) :
    s ≠ .submitted ∧ s.accepted = true ∧ s.requestType.isSome = false := by
  cases s <;> first | exact ⟨State.noConfusion, rfl, rfl⟩ | cases h

/-- A channel that waits to generate a request. -/
theorem State.of_requestType {s : State} (h : s.requestType.isSome = true) :
    s ≠ .submitted ∧ s.accepted = true ∧ s.preponing = false := by
  cases s <;> first | exact ⟨State.noConfusion, rfl, rfl⟩ | cases h

theorem State.of_not_accepted {s : State} (h : s.accepted = false) :
    s ≠ .submitted ∧ s.preponing = false := by
  cases s <;> first | exact ⟨State.noConfusion, rfl⟩ | cases h

/-- A request of the run: the how manieth it is, and its operation. -/
structure Ticket where
  number : Nat
  operation : Operation
  deriving DecidableEq, Repr

def Ticket.short (t : Ticket) : Bool := !t.operation.long

/-- The pool, with the tickets of the requests that the channels have, all
tickets in the order of submission, those of the requests that were started in
the order of their start, and how many requests were preponed to each request
since its last step. -/
structure World where
  pool : Pool := Pool.initial
  tickets : SlotsIndex → Ticket := fun _ => ⟨0, .init⟩
  submitted : List Ticket := [⟨0, .init⟩]
  started : List Ticket := []
  preponed : SlotsIndex → Nat := fun _ => 0

namespace World

def queue (w : World) : List SlotsIndex := w.pool.indices.toList

def submit (w : World) (p : Pool) (i : SlotsIndex) (op : Operation) : World :=
  let t : Ticket := ⟨w.submitted.length, op⟩
  { pool := p
    tickets := Function.update w.tickets i t
    submitted := w.submitted ++ [t]
    started := w.started
    preponed := Function.update w.preponed i 0 }

/-- The request at the head is started, if it is new. What is before it now
was preponed. -/
def executeHead (w : World) (p : Pool) (i : SlotsIndex) : World :=
  let state := (p.channels i).state
  { w with
    pool := p
    started :=
      if (w.pool.channels i).state = .submitted then w.started ++ [w.tickets i] else w.started
    preponed := Function.update w.preponed i <|
      if state.requestType.isSome || !state.accepted then 0
      else w.preponed i + p.indices.toList.idxOf i }

/-- Keep the records when the pool has become `p`. -/
def note (w : World) (p : Pool) : Pool.Event → World
  | .submit req =>
    match w.pool.freeChannel with
    | some i => w.submit p i req.operation
    | none => { w with pool := p }
  | .execute =>
    match w.queue.head? with
    | some i => w.executeHead p i
    | none => { w with pool := p }
  | _ => { w with pool := p }

def step (w : World) (e : Pool.Event) : Exec World := do
  let p ← w.pool.step e
  pure (w.note p e)

/-- The pool was just constructed. -/
def IsInitial (w : World) : Prop := w = {}

/-- The run of a pool from its construction on. -/
def IsRun (hist : List (World × Pool.Event)) (w : World) : Prop :=
  Run IsInitial (fun w e w' => w.step e = .ok w') hist w

end World

/-- What the queue is to be like. -/
structure Orderly (w : World) : Prop where
  nodup : w.queue.Nodup
  mem_iff : ∀ i, i ∈ w.queue ↔ (w.pool.channels i).state.accepted = true
  head : ∀ i, w.pool.indices.first = .ok i → (w.pool.channels i).state.accepted = true
  started : w.started.filter Ticket.short <+: w.submitted.filter Ticket.short
  notBehind : w.queue.Pairwise fun i j =>
    (w.tickets i).operation.fixed = true → (w.tickets j).operation.long = true →
      (w.tickets i).number < (w.tickets j).number
  preponed : ∀ i, w.preponed i ≤ maxNrOfRequestsPreponedAtATime

/-- The request at the head is an extension, and its last step failed. -/
def ExtensionStepFailed (p : Pool) : Prop :=
  ∃ i, p.indices.toList.head? = some i ∧
    ((p.channels i).request.operation = .extendVbd ∨
      (p.channels i).request.operation = .extendFt) ∧
    (p.channels i).state = .done .treeExtensionStep ∧ (p.channels i).prim.succ = false

instance (p : Pool) : Decidable (ExtensionStepFailed p) :=
  inferInstanceAs (Decidable (∃ i, p.indices.toList.head? = some i ∧ _))

/-! ## What an execution does -/

section Executes

variable {p p' : Pool} {i : SlotsIndex} {rest : List SlotsIndex} {chan : Channel}

/-- What an execution does to the request at the head of the queue. -/
inductive Executes (p : Pool) (i : SlotsIndex) (rest : List SlotsIndex) : Pool → Prop where
  /-- The request waits for an answer. -/
  | waits (hs : (p.channels i).state ≠ .submitted) : Executes p i rest p
  /-- The request generates a step. -/
  | asks {chan : Channel} {type : SbControl.ReqType}
      (hop : chan.request.operation = (p.channels i).request.operation)
      (hs : chan.state.requestType = some type)
      (htype : (p.channels i).request.operation.asksFor type = true) :
      Executes p i rest (p.update i chan)
  /-- A step is done, and not the last. -/
  | begins {chan : Channel} (hop : chan.request.operation = (p.channels i).request.operation)
      (hlong : (p.channels i).request.operation.long = true) (hs : (p.channels i).state ≠ .submitted)
      (hprep : (p.channels i).state.preponing = false) :
      Executes p i rest (p.beginPreponing i chan)
  /-- Other requests are preponed, as far as there are any. -/
  | prepones {p' : Pool} {chan : Channel} {moved rest' : List SlotsIndex}
      (hop : chan.request.operation = (p.channels i).request.operation)
      (hlong : (p.channels i).request.operation.long = true)
      (hs : (p.channels i).state = .preponeRequestsPending)
      (hmoved : ∀ j ∈ moved, (p.channels j).request.operation.preponable = true)
      (hrest : rest = moved ++ rest') (hlist : p'.indices.toList = moved ++ i :: rest')
      (hchan : p'.channels = (p.update i chan).channels)
      (hprep : chan.state.preponing = true)
      (hnr : chan.nrOfRequestsPreponed = (p.channels i).nrOfRequestsPreponed + moved.length)
      (hmax : moved.length ≤
        maxNrOfRequestsPreponedAtATime - (p.channels i).nrOfRequestsPreponed) :
      Executes p i rest p'
  /-- The request is done and leaves the queue. -/
  | finishes {p' : Pool} {chan : Channel} (hacc : chan.state.accepted = false)
      (hs : (p.channels i).state ≠ .submitted) (hlist : p'.indices.toList = rest)
      (hchan : p'.channels = (p.update i chan).channels) : Executes p i rest p'
  /-- The request is done and stays in the queue. -/
  | fails (hf : ExtensionStepFailed p) : Executes p i rest (p.markReqFailed i)

theorem Executes.of_dequeueAnd (hq : p.indices.toList = i :: rest)
    (hacc : chan.state.accepted = false) (hs : (p.channels i).state ≠ .submitted) (h : p.dequeueAnd i chan = .ok p') :
    Executes p i rest p' := by
  obtain ⟨q, hdeq, hp⟩ := Exec.bind_eq_ok.mp h
  cases hp
  have hlist := IndexQueue.toList_dequeue hdeq
  rw [hq, List.cons.injEq] at hlist
  exact .finishes hacc hs hlist.2.symm rfl

/-- The loop moves the request behind those that may be preponed. -/
theorem preponeLoop_spec {q : IndexQueue} {xs ys : List SlotsIndex} (p : Pool) (n : Nat)
    (h : q.toList = xs ++ i :: ys) (hx : i ∉ xs) (hy : i ∉ ys) :
    ∃ moved ys' q', p.preponeLoop i n q = .ok (moved.length, q') ∧ ys = moved ++ ys' ∧
      q'.toList = xs ++ moved ++ i :: ys' ∧ moved.length ≤ n ∧
      ∀ j ∈ moved, (p.channels j).request.operation.preponable = true := by
  induction n generalizing q xs ys with
  | zero => exact ⟨[], ys, q, rfl, rfl, by rw [List.append_nil]; exact h, le_rfl, by simp⟩
  | succ n ih =>
    have hstop : ∃ moved ys' q', (.ok (0, q) : Exec (Nat × IndexQueue)) = .ok (moved.length, q') ∧
        ys = moved ++ ys' ∧ q'.toList = xs ++ moved ++ i :: ys' ∧ moved.length ≤ n + 1 ∧
        ∀ j ∈ moved, (p.channels j).request.operation.preponable = true :=
      ⟨[], ys, q, rfl, rfl, by rw [List.append_nil]; exact h, Nat.zero_le _, by simp⟩
    rw [Pool.preponeLoop]
    cases ys with
    | nil =>
      rw [IndexQueue.itemIsTail_eq h, Exec.ok_bind, decide_eq_true rfl, if_pos rfl]
      exact hstop
    | cons b ys =>
      rw [List.mem_cons, not_or] at hy
      have htail : q.itemIsTail i = .ok false := by
        obtain ⟨zs, c, hc⟩ := (List.eq_nil_or_concat (b :: ys)).resolve_left
          (List.cons_ne_nil b ys)
        rw [List.concat_eq_append] at hc
        have hci : c ≠ i := by
          have hmem : c ∈ b :: ys := by rw [hc]; simp
          rintro rfl
          rcases List.mem_cons.mp hmem with rfl | hmem
          · exact hy.1 rfl
          · exact hy.2 hmem
        have hlast : q.toList = (xs ++ i :: zs) ++ [c] := by
          rw [h, hc, List.append_assoc]
          rfl
        rw [IndexQueue.itemIsTail_eq hlast, decide_eq_false hci]
      rw [htail, Exec.ok_bind, if_neg Bool.false_ne_true, IndexQueue.nextItem_eq h hx, Exec.ok_bind]
      by_cases hb : (p.channels b).request.operation.preponable = true
      · obtain ⟨q₁, hmove, hq₁⟩ := IndexQueue.moveOneItemTowardsTail_eq h hx
        have hq₁' : q₁.toList = (xs ++ [b]) ++ i :: ys := by rw [hq₁, List.append_assoc]; rfl
        have hx' : i ∉ xs ++ [b] := by
          rw [List.mem_append, List.mem_singleton, not_or]
          exact ⟨hx, hy.1⟩
        obtain ⟨moved, ys', q', hloop, hys, hq', hlen, hmoved⟩ := ih hq₁' hx' hy.2
        rw [if_pos hb, hmove, Exec.ok_bind, hloop, Exec.ok_bind]
        refine ⟨b :: moved, ys', q', rfl, by rw [hys]; rfl, ?_, Nat.succ_le_succ hlen, ?_⟩
        · rw [hq', List.append_assoc xs]
          rfl
        · exact List.forall_mem_cons.mpr ⟨hb, hmoved⟩
      · rw [if_neg hb]
        exact hstop

theorem Executes.of_preponeRequests (hq : p.indices.toList = i :: rest) (hi : i ∉ rest)
    (hlong : (p.channels i).request.operation.long = true)
    (hs : (p.channels i).state = .preponeRequestsPending) (h : p.preponeRequests i = .ok p') :
    Executes p i rest p' := by
  obtain ⟨moved, rest', q', hloop, hrest, hq', hlen, hmoved⟩ := preponeLoop_spec p
    (maxNrOfRequestsPreponedAtATime - (p.channels i).nrOfRequestsPreponed)
    (show p.indices.toList = [] ++ i :: rest from hq) (by simp) hi
  rw [Pool.preponeRequests, hloop, Exec.ok_bind] at h
  cases h
  refine .prepones ?_ hlong hs hmoved hrest hq' rfl ?_ ?_ hlen <;> split
  · rfl
  · rfl
  · rfl
  · exact congrArg State.preponing hs
  · rfl
  · rfl

theorem Executes.of_executeVbas {op : Op} {type : SbControl.ReqType}
    (hask : (State.pending op).requestType = some type)
    (htype : (p.channels i).request.operation.asksFor type = true)
    (hq : p.indices.toList = i :: rest) (h : p.executeVbas i op = .ok p') :
    Executes p i rest p' := by
  unfold Pool.executeVbas at h
  dsimp only at h
  split at h
  · cases h
    exact .asks rfl hask htype
  · rename_i o hs
    have hs' : (p.channels i).state ≠ .submitted := fun hh => (by rw [hs] at hh; cases hh)
    split at h
    · split at h
      · split at h
        · cases h
          exact .asks rfl hask htype
        · exact .of_dequeueAnd hq rfl hs' h
      · exact .of_dequeueAnd hq rfl hs' h
    · cases h
      exact .waits hs'
  · rename_i hs _
    cases h
    exact .waits fun hh => hs hh

theorem Executes.of_executeSync (hop : (p.channels i).request.operation = .sync)
    (hq : p.indices.toList = i :: rest) (h : p.executeSync i = .ok p') :
    Executes p i rest p' := by
  unfold Pool.executeSync at h
  dsimp only at h
  split at h
  · cases h
    exact .asks rfl rfl (by rw [hop]; rfl)
  · rename_i hs
    have hs' : (p.channels i).state ≠ .submitted := fun hh => (by rw [hs] at hh; cases hh)
    split at h
    · exact .of_dequeueAnd hq rfl hs' h
    · exact .of_dequeueAnd hq rfl hs' h
  · rename_i hs _
    cases h
    exact .waits fun hh => hs hh

theorem Executes.of_executeInitialize (hop : (p.channels i).request.operation = .init)
    (hq : p.indices.toList = i :: rest) (h : p.executeInitialize i = .ok p') : Executes p i rest p' := by
  unfold Pool.executeInitialize at h
  dsimp only at h
  split at h
  · cases h
    exact .asks rfl rfl (by rw [hop]; rfl)
  · rename_i hs
    have hs' : (p.channels i).state ≠ .submitted := fun hh => (by rw [hs] at hh; cases hh)
    split at h
    · cases h
    · split at h
      · exact .of_dequeueAnd hq rfl hs' h
      · cases h
  · rename_i hs _
    cases h
    exact .waits fun hh => hs hh

theorem Executes.of_executeDeinit (hop : (p.channels i).request.operation = .deinit)
    (hq : p.indices.toList = i :: rest) (h : p.executeDeinit i = .ok p') : Executes p i rest p' := by
  unfold Pool.executeDeinit at h
  dsimp only at h
  split at h
  · cases h
    exact .asks rfl rfl (by rw [hop]; rfl)
  · rename_i hs
    have hs' : (p.channels i).state ≠ .submitted := fun hh => (by rw [hs] at hh; cases hh)
    split at h
    · cases h
    · exact .of_dequeueAnd hq rfl hs' h
  · rename_i hs _
    cases h
    exact .waits fun hh => hs hh

theorem Executes.of_executeExtendTree {s : State} {type : SbControl.ReqType}
    (hask : s.requestType = some type)
    (htype : (p.channels i).request.operation.asksFor type = true) (hop : (p.channels i).request.operation = .extendVbd ∨
      (p.channels i).request.operation = .extendFt)
    (hq : p.indices.toList = i :: rest) (hi : i ∉ rest) (h : p.executeExtendTree i s = .ok p') :
    Executes p i rest p' := by
  have hlong : (p.channels i).request.operation.long = true := by
    rcases hop with hop | hop <;> rw [hop] <;> rfl
  unfold Pool.executeExtendTree at h
  dsimp only at h
  split at h
  · cases h
    exact .asks rfl hask htype
  · rename_i hs
    have hs' : (p.channels i).state ≠ .submitted := fun hh => (by rw [hs] at hh; cases hh)
    split at h
    · rename_i hsucc
      cases h
      refine .fails ⟨i, by rw [hq]; rfl, hop, hs, ?_⟩
      simpa using hsucc
    · split at h
      · exact .of_dequeueAnd hq rfl hs' h
      · cases h
        exact .begins rfl hlong hs' (congrArg State.preponing hs)
  · rename_i hs
    exact .of_preponeRequests hq hi hlong hs h
  · cases h
    exact .asks rfl hask htype
  · rename_i hs _ _ _
    cases h
    exact .waits fun hh => hs hh

theorem Executes.of_executeRekey (hop : (p.channels i).request.operation = .rekey)
    (hq : p.indices.toList = i :: rest) (hi : i ∉ rest) (h : p.executeRekey i = .ok p') :
    Executes p i rest p' := by
  have hlong : (p.channels i).request.operation.long = true := congrArg Operation.long hop
  have hbegin : ∀ {s : State} {chan : Channel}, (p.channels i).state = s → s ≠ .submitted →
      s.preponing = false → chan.request.operation = (p.channels i).request.operation →
      Executes p i rest (p.beginPreponing i chan) := by
    intro s chan hs hne hprep hreq
    exact .begins hreq hlong (hs ▸ hne) (hs ▸ hprep)
  unfold Pool.executeRekey at h
  dsimp only at h
  split at h
  · cases h
    exact .asks rfl rfl (by rw [hop]; rfl)
  · rename_i hs
    cases h
    exact hbegin hs (fun hh => by cases hh) rfl rfl
  · rename_i hs
    split at h
    · cases h
    · cases h
      exact hbegin hs (fun hh => by cases hh) rfl rfl
  · rename_i hs
    have hs' : (p.channels i).state ≠ .submitted := fun hh => (by rw [hs] at hh; cases hh)
    split at h
    · cases h
    · split at h
      · exact .of_dequeueAnd hq rfl hs' h
      · cases h
        exact hbegin hs (fun hh => by cases hh) rfl rfl
  · rename_i hs
    exact .of_preponeRequests hq hi hlong hs h
  · cases h
    exact .asks rfl rfl (by rw [hop]; rfl)
  · rename_i hs _ _ _ _ _
    cases h
    exact .waits fun hh => hs hh

/-- An execution of the pool works on the head of the queue only. -/
theorem Executes.of_execute (hq : p.indices.toList = i :: rest) (hi : i ∉ rest)
    (hop : (p.channels i).request.operation.submittable = true ∨
      (p.channels i).request.operation = .init)
    (h : p.execute = .ok p') : Executes p i rest p' := by
  have hfirst : p.indices.first = .ok i := IndexQueue.first_eq_ok.mpr ⟨rest, hq⟩
  have hused : p.indices.used ≠ 0 := Nat.ne_of_gt (IndexQueue.used_pos_of_head hq)
  rw [Pool.execute, if_neg hused, hfirst, Exec.ok_bind] at h
  cases hreq : (p.channels i).request.operation with
  | read =>
    rw [hreq] at h
    exact .of_executeVbas rfl (by rw [hreq]; rfl) hq h
  | write =>
    rw [hreq] at h
    exact .of_executeVbas rfl (by rw [hreq]; rfl) hq h
  | sync =>
    rw [hreq] at h
    exact .of_executeSync hreq hq h
  | rekey =>
    rw [hreq] at h
    exact .of_executeRekey hreq hq hi h
  | extendVbd =>
    rw [hreq] at h
    exact .of_executeExtendTree rfl (by rw [hreq]; rfl) (.inl hreq) hq hi h
  | extendFt =>
    rw [hreq] at h
    exact .of_executeExtendTree rfl (by rw [hreq]; rfl) (.inr hreq) hq hi h
  | init =>
    rw [hreq] at h
    exact .of_executeInitialize hreq hq h
  | deinit =>
    rw [hreq] at h
    exact .of_executeDeinit hreq hq h
  | createSnapshot => rcases hop with hop | hop <;> rw [hreq] at hop <;> cases hop
  | discardSnapshot => rcases hop with hop | hop <;> rw [hreq] at hop <;> cases hop
  | invalid => rcases hop with hop | hop <;> rw [hreq] at hop <;> cases hop
  | resumeRekeying => rcases hop with hop | hop <;> rw [hreq] at hop <;> cases hop

end Executes

/-! ## The invariant -/

namespace World

/-- The request is short and not started yet. -/
def waits (w : World) (i : SlotsIndex) : Bool :=
  decide ((w.pool.channels i).state = .submitted) && (w.tickets i).short

end World

/-- The queue as `Orderly` has it, and what the tickets and the counters have
to do with the channels. -/
structure Inv (w : World) : Prop where
  nodup : w.queue.Nodup
  mem_iff : ∀ i, i ∈ w.queue ↔ (w.pool.channels i).state.accepted = true
  operation : ∀ i ∈ w.queue, (w.tickets i).operation = (w.pool.channels i).request.operation ∧
    ((w.tickets i).operation.submittable = true ∨ (w.tickets i).operation = .init)
  waiting : w.submitted.filter Ticket.short =
    w.started.filter Ticket.short ++ (w.queue.filter w.waits).map w.tickets
  numbers : ∀ i ∈ w.queue, (w.tickets i).number < w.submitted.length
  notBehind : w.queue.Pairwise fun i j =>
    (w.tickets i).operation.fixed = true → (w.tickets j).operation.long = true →
      (w.tickets i).number < (w.tickets j).number
  counts : ∀ i, w.preponed i =
    if (w.pool.channels i).state.preponing then (w.pool.channels i).nrOfRequestsPreponed else 0
  bound : ∀ i, (w.pool.channels i).state.preponing = true →
    (w.pool.channels i).nrOfRequestsPreponed ≤ maxNrOfRequestsPreponedAtATime

theorem Inv.orderly {w : World} (h : Inv w) : Orderly w where
  nodup := h.nodup
  mem_iff := h.mem_iff
  head i hi := by
    obtain ⟨rest, hq⟩ := IndexQueue.first_eq_ok.mp hi
    have hmem : i ∈ w.queue := by
      rw [World.queue, hq]
      exact List.mem_cons_self
    exact (h.mem_iff i).mp hmem
  started := ⟨_, h.waiting.symm⟩
  notBehind := h.notBehind
  preponed i := by
    rw [h.counts]
    split
    · rename_i hp
      exact h.bound i hp
    · exact Nat.zero_le _

theorem Inv.initial : Inv {} where
  nodup := by decide
  mem_iff := by decide
  operation := by decide
  waiting := by decide
  numbers := by decide
  notBehind := by decide
  counts := by decide
  bound := by decide

section Steps

variable {w : World} {p p' : Pool} {i : SlotsIndex} {chan : Channel}

theorem channels_update_self : (p.update i chan).channels i = chan := Function.update_self ..

theorem channels_update_of_ne {j : SlotsIndex} (h : j ≠ i) :
    (p.update i chan).channels j = p.channels j := Function.update_of_ne h ..

/-- A step of a request that neither starts nor ends it and preponds nothing. -/
theorem Inv.update (h : Inv w) (hacc : chan.state.accepted = (w.pool.channels i).state.accepted)
    (hs : (w.pool.channels i).state ≠ .submitted) (hs' : chan.state ≠ .submitted)
    (hop : chan.state.accepted = true →
      chan.request.operation = (w.pool.channels i).request.operation)
    (hp : (w.pool.channels i).state.preponing = false) (hp' : chan.state.preponing = false) :
    Inv { w with pool := w.pool.update i chan } where
  nodup := h.nodup
  mem_iff j := by
    refine (h.mem_iff j).trans ?_
    by_cases hj : j = i
    · subst hj
      rw [channels_update_self, hacc]
    · rw [channels_update_of_ne hj]
  operation j hj := by
    refine ⟨(h.operation j hj).1.trans ?_, (h.operation j hj).2⟩
    by_cases hji : j = i
    · subst hji
      rw [channels_update_self, hop (hacc.trans ((h.mem_iff j).mp hj))]
    · rw [channels_update_of_ne hji]
  waiting := by
    refine h.waiting.trans ?_
    congr 2
    refine List.filter_congr fun j _ => ?_
    by_cases hj : j = i
    · subst hj
      simp only [World.waits, channels_update_self, hs, hs', decide_false]
    · simp only [World.waits, channels_update_of_ne hj]
  numbers := h.numbers
  notBehind := h.notBehind
  counts j := by
    by_cases hj : j = i
    · subst hj
      have hc := h.counts j
      rw [hp] at hc
      rw [channels_update_self, hp']
      exact hc
    · rw [channels_update_of_ne hj]
      exact h.counts j
  bound j hj := by
    by_cases hji : j = i
    · subst hji
      rw [channels_update_self, hp'] at hj
      cases hj
    · rw [channels_update_of_ne hji] at hj ⊢
      exact h.bound j hj

/-- What `submit_request` does. -/
theorem submitRequest_eq_ok {req : Request} (h : p.submitRequest req = .ok p') :
    ∃ i chan, p.freeChannel = some i ∧ (p.channels i).state = .invalid ∧
      req.operation.submittable = true ∧ p'.channels = (p.update i chan).channels ∧
      p'.indices.toList = p.indices.toList ++ [i] ∧ chan.state = .submitted ∧
      chan.request.operation = req.operation := by
  unfold Pool.submitRequest at h
  split at h
  · cases h
  · rename_i i hfree
    split at h
    · rename_i hop
      obtain ⟨q, hq, hp⟩ := Exec.bind_eq_ok.mp h
      cases hp
      have hs := List.find?_some hfree
      exact ⟨i, _, hfree, of_decide_eq_true hs, hop, rfl, IndexQueue.toList_enqueue hq, rfl, rfl⟩
    · cases h

/-- A new request goes to the end of the queue. -/
theorem Inv.submit (h : Inv w) {op : Operation} (hfree : (w.pool.channels i).state = .invalid)
    (hop : op.submittable = true) (hchan : p'.channels = (w.pool.update i chan).channels)
    (hlist : p'.indices.toList = w.queue ++ [i]) (hs : chan.state = .submitted)
    (hreq : chan.request.operation = op) : Inv (w.submit p' i op) := by
  have hi : i ∉ w.queue := by
    rw [h.mem_iff, hfree]
    exact Bool.false_ne_true
  have hne : ∀ j ∈ w.queue, j ≠ i := fun j hj hji => hi (hji ▸ hj)
  have hself : p'.channels i = chan := by rw [hchan, channels_update_self]
  have hother : ∀ j, j ≠ i → p'.channels j = w.pool.channels j := fun j hj => by
    rw [hchan, channels_update_of_ne hj]
  have hticket : ∀ j, j ≠ i → (w.submit p' i op).tickets j = w.tickets j := fun j hj =>
    Function.update_of_ne hj ..
  have hticketSelf : (w.submit p' i op).tickets i = ⟨w.submitted.length, op⟩ :=
    Function.update_self ..
  have hqueue : (w.submit p' i op).queue = w.queue ++ [i] := hlist
  refine ⟨?_, fun j => ?_, fun j hj => ?_, ?_, fun j hj => ?_, ?_, fun j => ?_, fun j hj => ?_⟩
  · rw [hqueue]
    exact List.nodup_append.mpr ⟨h.nodup, List.nodup_singleton i, fun a ha b hb =>
      List.mem_singleton.mp hb ▸ hne a ha⟩
  · rw [hqueue, List.mem_append, List.mem_singleton]
    change j ∈ w.queue ∨ j = i ↔ (p'.channels j).state.accepted = true
    by_cases hj : j = i
    · subst hj
      rw [hself, hs]
      simp [State.accepted]
    · rw [hother j hj, ← h.mem_iff j]
      simp [hj]
  · change ((w.submit p' i op).tickets j).operation = (p'.channels j).request.operation ∧
      (((w.submit p' i op).tickets j).operation.submittable = true ∨
        ((w.submit p' i op).tickets j).operation = .init)
    rw [hqueue, List.mem_append, List.mem_singleton] at hj
    rcases hj with hj | rfl
    · rw [hticket j (hne j hj), hother j (hne j hj)]
      exact h.operation j hj
    · rw [hticketSelf, hself, hreq]
      exact ⟨rfl, .inl hop⟩
  · have hold : w.queue.filter (w.submit p' i op).waits = w.queue.filter w.waits := by
      refine List.filter_congr fun j hj => ?_
      change (decide ((p'.channels j).state = .submitted) && _) = _
      rw [hother j (hne j hj), hticket j (hne j hj)]
      rfl
    have hmap : (w.queue.filter w.waits).map (w.submit p' i op).tickets =
        (w.queue.filter w.waits).map w.tickets :=
      List.map_congr_left fun j hj => hticket j (hne j (List.mem_filter.mp hj).1)
    have hwaits : (w.submit p' i op).waits i = Ticket.short ⟨w.submitted.length, op⟩ := by
      change (decide ((p'.channels i).state = .submitted) && _) = _
      rw [hself, hs, hticketSelf]
      rfl
    change (w.submitted ++ [(⟨w.submitted.length, op⟩ : Ticket)]).filter Ticket.short =
      w.started.filter Ticket.short ++
        ((w.submit p' i op).queue.filter (w.submit p' i op).waits).map (w.submit p' i op).tickets
    rw [hqueue, List.filter_append, List.filter_append, hold, List.map_append, hmap, h.waiting,
      List.append_assoc]
    congr 2
    rw [List.filter_singleton, List.filter_singleton, hwaits]
    cases Ticket.short ⟨w.submitted.length, op⟩ with
    | false => rfl
    | true =>
      change [_] = [(w.submit p' i op).tickets i]
      rw [hticketSelf]
  · change ((w.submit p' i op).tickets j).number < (w.submitted ++ [_]).length
    rw [List.length_append, List.length_singleton]
    rw [hqueue, List.mem_append, List.mem_singleton] at hj
    rcases hj with hj | rfl
    · rw [hticket j (hne j hj)]
      exact (h.numbers j hj).trans (Nat.lt_succ_self _)
    · rw [hticketSelf]
      exact Nat.lt_succ_self _
  · rw [hqueue, List.pairwise_append]
    refine ⟨?_, List.pairwise_singleton .., fun a ha b hb _ _ => ?_⟩
    · refine h.notBehind.imp_of_mem fun {a b} ha hb hab => ?_
      rw [hticket a (hne a ha), hticket b (hne b hb)]
      exact hab
    · obtain rfl := List.mem_singleton.mp hb
      rw [hticket a (hne a ha), hticketSelf]
      exact h.numbers a ha
  · change Function.update w.preponed i 0 j =
      if (p'.channels j).state.preponing then (p'.channels j).nrOfRequestsPreponed else 0
    by_cases hj : j = i
    · subst hj
      rw [hself, hs, Function.update_self]
      rfl
    · rw [Function.update_of_ne hj, hother j hj]
      exact h.counts j
  · change (p'.channels j).state.preponing = true at hj
    change (p'.channels j).nrOfRequestsPreponed ≤ _
    by_cases hji : j = i
    · subst hji
      rw [hself, hs] at hj
      cases hj
    · rw [hother j hji] at hj ⊢
      exact h.bound j hj

end Steps

section Execute

variable {w : World} {p' : Pool} {i : SlotsIndex} {chan : Channel} {rest : List SlotsIndex}

theorem waits_executeHead (hchan : p'.channels = (w.pool.update i chan).channels)
    (hs : chan.state ≠ .submitted) (j : SlotsIndex) :
    (w.executeHead p' i).waits j = if j = i then false else w.waits j := by
  change (decide ((p'.channels j).state = .submitted) && (w.tickets j).short) = _
  rw [hchan]
  split
  · rename_i hj
    subst hj
    rw [channels_update_self, decide_eq_false hs]
    rfl
  · rename_i hj
    rw [channels_update_of_ne hj]
    rfl

/-- The head of the queue starts if it was waiting. -/
theorem Inv.waiting_rest (h : Inv w) (hq : w.queue = i :: rest) :
    w.submitted.filter Ticket.short = (w.executeHead p' i).started.filter Ticket.short ++
      (rest.filter w.waits).map w.tickets := by
  rw [h.waiting, hq]
  change _ = (if _ then w.started ++ [w.tickets i] else w.started).filter Ticket.short ++ _
  by_cases hs : (w.pool.channels i).state = .submitted
  · have hwaits : w.waits i = (w.tickets i).short := by
      rw [World.waits, hs]
      rfl
    rw [if_pos hs, List.filter_append, List.append_assoc, List.filter_cons, List.filter_singleton,
      hwaits]
    cases (w.tickets i).short <;> rfl
  · have hwaits : w.waits i = false := by
      rw [World.waits, decide_eq_false hs]
      rfl
    rw [if_neg hs, List.filter_cons, hwaits]
    rfl

/-- The invariant after an execution, from what concerns the head. -/
theorem Inv.executeHead (h : Inv w) (hq : w.queue = i :: rest)
    (hchan : p'.channels = (w.pool.update i chan).channels) (hs : chan.state ≠ .submitted)
    (hop : chan.state.accepted = true →
      chan.request.operation = (w.pool.channels i).request.operation)
    (hnodup : p'.indices.toList.Nodup)
    (hmem : ∀ j, j ∈ p'.indices.toList ↔ j ∈ rest ∨ j = i ∧ chan.state.accepted = true)
    (hfilter : ∀ f : SlotsIndex → Bool, f i = false → p'.indices.toList.filter f = rest.filter f)
    (hpair : p'.indices.toList.Pairwise fun a b => (w.tickets a).operation.fixed = true →
      (w.tickets b).operation.long = true → (w.tickets a).number < (w.tickets b).number)
    (hcount : (w.executeHead p' i).preponed i =
      if chan.state.preponing then chan.nrOfRequestsPreponed else 0)
    (hbound : chan.state.preponing = true →
      chan.nrOfRequestsPreponed ≤ maxNrOfRequestsPreponedAtATime) :
    Inv (w.executeHead p' i) := by
  have hself : p'.channels i = chan := by rw [hchan, channels_update_self]
  have hother : ∀ j, j ≠ i → p'.channels j = w.pool.channels j := fun j hj => by
    rw [hchan, channels_update_of_ne hj]
  have hi : i ∉ rest := by
    have hn := h.nodup
    rw [hq, List.nodup_cons] at hn
    exact hn.1
  have hold : ∀ j ∈ p'.indices.toList, j ∈ w.queue := fun j hj => by
    rw [hq, List.mem_cons]
    rcases (hmem j).mp hj with hj | hj
    · exact .inr hj
    · exact .inl hj.1
  refine ⟨hnodup, fun j => ?_, fun j hj => ?_, ?_, fun j hj => h.numbers j (hold j hj), hpair,
    fun j => ?_, fun j hj => ?_⟩
  · refine (hmem j).trans ?_
    change _ ↔ (p'.channels j).state.accepted = true
    by_cases hj : j = i
    · subst hj
      rw [hself]
      simp [hi]
    · rw [hother j hj, ← h.mem_iff j, hq]
      simp [hj]
  · refine ⟨(h.operation j (hold j hj)).1.trans ?_, (h.operation j (hold j hj)).2⟩
    change (w.pool.channels j).request.operation = (p'.channels j).request.operation
    by_cases hji : j = i
    · subst hji
      have hacc : chan.state.accepted = true :=
        ((hmem j).mp hj).elim (fun hh => absurd hh hi) fun hh => hh.2
      rw [hself, hop hacc]
    · rw [hother j hji]
  · apply Eq.trans (b := (w.executeHead p' i).started.filter Ticket.short ++
      (rest.filter w.waits).map w.tickets) (h.waiting_rest hq)
    congr 2
    have hwaits := waits_executeHead hchan hs
    change _ = p'.indices.toList.filter (w.executeHead p' i).waits
    rw [hfilter _ ((hwaits i).trans (if_pos rfl))]
    refine List.filter_congr fun j hj => ?_
    have hji : j ≠ i := fun hji => hi (hji ▸ hj)
    rw [hwaits, if_neg hji]
  · by_cases hj : j = i
    · subst hj
      refine hcount.trans ?_
      change _ =
        if (p'.channels j).state.preponing then (p'.channels j).nrOfRequestsPreponed else 0
      rw [hself]
    · change Function.update w.preponed i _ j =
        if (p'.channels j).state.preponing then (p'.channels j).nrOfRequestsPreponed else 0
      rw [Function.update_of_ne hj, hother j hj]
      exact h.counts j
  · change (p'.channels j).state.preponing = true at hj
    change (p'.channels j).nrOfRequestsPreponed ≤ _
    by_cases hji : j = i
    · subst hji
      rw [hself] at hj ⊢
      exact hbound hj
    · rw [hother j hji] at hj ⊢
      exact h.bound j hj

/-- The head of the queue stays where it is. -/
theorem Inv.works (h : Inv w) (hq : w.queue = i :: rest) (hs : chan.state ≠ .submitted)
    (hacc : chan.state.accepted = true)
    (hop : chan.request.operation = (w.pool.channels i).request.operation)
    (hcount : (w.executeHead (w.pool.update i chan) i).preponed i =
      if chan.state.preponing then chan.nrOfRequestsPreponed else 0)
    (hbound : chan.state.preponing = true →
      chan.nrOfRequestsPreponed ≤ maxNrOfRequestsPreponedAtATime) :
    Inv (w.executeHead (w.pool.update i chan) i) := by
  have hlist : (w.pool.update i chan).indices.toList = i :: rest := hq
  have hnodup := h.nodup
  have hpair := h.notBehind
  refine h.executeHead hq rfl hs (fun _ => hop) hnodup (fun j => ?_) (fun f hf => ?_) hpair hcount
    hbound
  · rw [hlist, List.mem_cons, hacc]
    simp [or_comm]
  · rw [hlist, List.filter_cons, hf]
    rfl

/-- The count of a request that stays at the head. -/
theorem preponed_works (hq : w.queue = i :: rest) :
    (w.executeHead (w.pool.update i chan) i).preponed i =
      if chan.state.requestType.isSome || !chan.state.accepted then 0 else w.preponed i := by
  change Function.update w.preponed i (if ((w.pool.update i chan).channels i).state.requestType.isSome
    || !((w.pool.update i chan).channels i).state.accepted then 0
    else w.preponed i + w.queue.idxOf i) i = _
  rw [Function.update_self, channels_update_self, hq, List.idxOf_cons_self, Nat.add_zero]

/-- A condition for the invariant to stay: no extension step failed. -/
theorem Inv.of_executes (h : Inv w) (hq : w.queue = i :: rest) (he : Executes w.pool i rest p')
    (hf : ¬ ExtensionStepFailed w.pool) : Inv (w.executeHead p' i) := by
  have hnodup := h.nodup
  have hpair := h.notBehind
  have hcount := h.counts i
  rw [hq] at hpair
  rw [hq, List.nodup_cons] at hnodup
  have hacc : (w.pool.channels i).state.accepted = true := by
    rw [← h.mem_iff, hq]
    exact List.mem_cons_self
  have hself : ∀ chan : Channel, (w.pool.update i chan).channels i = chan := fun chan =>
    channels_update_self
  cases he with
  | waits hs =>
    have hsame : w.pool.update i (w.pool.channels i) = w.pool := by
      rw [Pool.update, Function.update_eq_self]
    have hw := h.works hq hs hacc rfl ?_ (h.bound i)
    · rwa [hsame] at hw
    · rw [preponed_works hq, hacc, Bool.not_true, Bool.or_false]
      split
      · rename_i hr
        rw [(State.of_requestType hr).2.2]
        rfl
      · exact hcount
  | @asks chan type hop hs _ =>
    obtain ⟨hsub, hacc', hprep⟩ := State.of_requestType (Option.isSome_of_eq_some hs)
    refine h.works hq hsub hacc' hop ?_ fun hh => absurd (hprep.symm.trans hh) Bool.false_ne_true
    rw [preponed_works hq, hs, hprep]
    rfl
  | @begins chan hop _ hs hprep =>
    refine h.works hq (fun hh => by cases hh) rfl hop ?_ fun _ => Nat.zero_le _
    rw [preponed_works hq]
    rw [hprep] at hcount
    exact hcount
  | @prepones p' chan moved rest' hop hlong hs hmoved hrest hlist hchan hprep hnr hmax =>
    have hi : i ∉ moved ++ rest' := hrest ▸ hnodup.1
    rw [List.mem_append, not_or] at hi
    have hperm : p'.indices.toList.Perm (i :: rest) := by
      rw [hlist, hrest]
      exact List.perm_middle
    obtain ⟨hstate, hacc', hreq⟩ := State.of_preponing hprep
    rw [hs] at hcount
    refine h.executeHead hq hchan hstate (fun _ => hop)
      (hperm.nodup_iff.mpr (List.nodup_cons.mpr hnodup)) (fun j => ?_) (fun f hf => ?_) ?_ ?_
      fun _ => ?_
    · rw [hperm.mem_iff, List.mem_cons, hacc']
      simp [or_comm]
    · rw [hlist, hrest, List.filter_append, List.filter_append, List.filter_cons, hf]
      rfl
    · -- only what may be preponed gets ahead of the request
      rw [hrest, List.pairwise_cons, List.pairwise_append] at hpair
      rw [hlist, List.pairwise_append, List.pairwise_cons]
      refine ⟨hpair.2.1, ⟨fun b hb => hpair.1 b (List.mem_append_right _ hb), hpair.2.2.1⟩,
        fun a ha b hb => ?_⟩
      rcases List.mem_cons.mp hb with rfl | hb
      · intro hfixed
        have hmem : a ∈ w.queue := by
          rw [hq, hrest]
          exact List.mem_cons_of_mem _ (List.mem_append_left _ ha)
        have hpre := hmoved a ha
        rw [← (h.operation a hmem).1] at hpre
        exact absurd ((Operation.not_fixed_of_preponable hpre).symm.trans hfixed) Bool.false_ne_true
      · exact hpair.2.2.2 a ha b hb
    · change Function.update w.preponed i _ i = _
      rw [Function.update_self, hchan, hself, hreq, hacc', hprep, hlist, if_pos rfl, hnr,
        List.idxOf_append_of_notMem hi.1, List.idxOf_cons_self, Nat.add_zero]
      change w.preponed i + moved.length = _
      rw [hcount]
      rfl
    · have hb := h.bound i (congrArg State.preponing hs)
      rw [hnr]
      omega
  | @finishes p' chan hacc' hs hlist hchan =>
    obtain ⟨hstate, hprep⟩ := State.of_not_accepted hacc'
    refine h.executeHead hq hchan hstate
      (fun hh => absurd (hacc'.symm.trans hh) Bool.false_ne_true) (hlist ▸ hnodup.2) (fun j => ?_)
      (fun f _ => by rw [hlist]) (hlist ▸ hpair.of_cons) ?_
      fun hh => absurd (hprep.symm.trans hh) Bool.false_ne_true
    · rw [hlist, hacc']
      simp
    · change Function.update w.preponed i _ i = _
      rw [Function.update_self, hchan, hself, hacc', hprep, Bool.not_false, Bool.or_true]
      rfl
  | fails hfail => exact absurd hfail hf

end Execute

/-! ## Runs -/

section Runs

variable {w w' : World} {p' : Pool} {i : SlotsIndex} {e : Pool.Event}

theorem Inv.dropGeneratedRequest (h : Inv w) (he : w.pool.dropGeneratedRequest i = .ok p') :
    Inv { w with pool := p' } := by
  have hdrop : ∀ {s : State} {op : Op}, (w.pool.channels i).state = s → s ≠ .submitted →
      s.accepted = true → s.preponing = false →
      Inv { w with pool := w.pool.update i { w.pool.channels i with state := .inProgress op } } := by
    intro s op hs hne hacc hprep
    exact h.update (by rw [hs, hacc]; rfl) (hs ▸ hne) State.noConfusion (fun _ => rfl) (hs ▸ hprep)
      rfl
  unfold Pool.dropGeneratedRequest at he
  dsimp only at he
  split at he
  · rename_i hs
    cases he
    exact hdrop hs State.noConfusion rfl rfl
  · rename_i hs
    cases he
    exact hdrop hs State.noConfusion rfl rfl
  · rename_i hs
    cases he
    exact hdrop hs State.noConfusion rfl rfl
  · cases he

theorem Inv.generatedRequestComplete (h : Inv w) {id : UInt64} {genReq : SbControl.Request}
    (he : w.pool.generatedRequestComplete id genReq = .ok p') : Inv { w with pool := p' } := by
  obtain ⟨i, _, he⟩ := Exec.bind_eq_ok.mp he
  dsimp only at he
  split at he
  · rename_i op hs
    have hs' : (w.pool.channels i).state = .inProgress op := hs
    cases he
    refine h.update ?_ (fun hh => by rw [hs'] at hh; cases hh) ?_ ?_ (congrArg State.preponing hs') ?_
    · rw [hs']
      cases op <;> rfl
    · cases op <;> exact State.noConfusion
    · intro _
      cases op <;> rfl
    · cases op <;> rfl
  · cases he

theorem Inv.dropCompletedRequest (h : Inv w) {req : Request}
    (he : w.pool.dropCompletedRequest req = .ok p') : Inv { w with pool := p' } := by
  obtain ⟨i, _, he⟩ := Exec.bind_eq_ok.mp he
  dsimp only at he
  split at he
  · cases he
  · rename_i hs
    rw [not_or, not_not] at hs
    cases he
    exact h.update (by rw [hs.2]; rfl) (fun hh => by rw [hs.2] at hh; cases hh) State.noConfusion
      (fun hh => by cases hh) (congrArg State.preponing hs.2) rfl

/-- The step lemma. -/
theorem Inv.step (h : Inv w) (hs : w.step e = .ok w')
    (hc : ¬ (e = .execute ∧ ExtensionStepFailed w.pool)) : Inv w' := by
  obtain ⟨p', hp, hw⟩ := Exec.bind_eq_ok.mp hs
  cases hw
  cases e with
  | submit req =>
    obtain ⟨i, chan, hfree, hinv, hop, hchan, hlist, hsub, hreq⟩ := submitRequest_eq_ok hp
    have hnote : w.note p' (.submit req) = w.submit p' i req.operation := by
      rw [World.note, hfree]
    rw [hnote]
    exact h.submit hinv hop hchan hlist hsub hreq
  | execute =>
    cases hq : w.queue with
    | nil =>
      have hnote : w.note p' .execute = { w with pool := p' } := by
        rw [World.note, hq]
        rfl
      have hused : w.pool.indices.used = 0 := w.pool.indices.toList_eq_nil_iff.mp hq
      have hsame : w.pool.execute = .ok w.pool := if_pos hused
      cases hsame.symm.trans hp
      rw [hnote]
      exact h
    | cons i rest =>
      have hnote : w.note p' .execute = w.executeHead p' i := by
        rw [World.note, hq]
        rfl
      have hnodup := h.nodup
      have hop := h.operation i (by rw [hq]; exact List.mem_cons_self)
      rw [hq, List.nodup_cons] at hnodup
      rw [hop.1] at hop
      rw [hnote]
      exact h.of_executes hq (.of_execute hq hnodup.1 hop.2 hp) fun hf => hc ⟨rfl, hf⟩
  | generate =>
    change Inv { w with pool := p' }
    unfold Pool.step at hp
    dsimp only at hp
    split at hp
    · exact h.dropGeneratedRequest hp
    · cases hp
      exact h
  | answer id genReq => exact h.generatedRequestComplete hp
  | respond =>
    change Inv { w with pool := p' }
    unfold Pool.step at hp
    dsimp only at hp
    split at hp
    · exact h.dropCompletedRequest hp
    · cases hp
      exact h

/-- A request whose extension step failed stays in the queue. -/
theorem not_orderly_of_failed (hs : w.step .execute = .ok w')
    (hf : ExtensionStepFailed w.pool) : ¬ Orderly w' := by
  obtain ⟨p', hp, hw⟩ := Exec.bind_eq_ok.mp hs
  obtain ⟨i, hhead, hop, hstate, hsucc⟩ := hf
  cases hw
  obtain ⟨rest, hq⟩ := List.head?_eq_some_iff.mp hhead
  have hfirst : w.pool.indices.first = .ok i := IndexQueue.first_eq_ok.mpr ⟨rest, hq⟩
  have hused : w.pool.indices.used ≠ 0 := Nat.ne_of_gt (IndexQueue.used_pos_of_head hq)
  have hext : ∀ s, w.pool.executeExtendTree i s = .ok (w.pool.markReqFailed i) := by
    intro s
    rw [Pool.executeExtendTree, hstate]
    dsimp only
    rw [hsucc]
    rfl
  have hexec : w.pool.execute = .ok (w.pool.markReqFailed i) := by
    rw [Pool.execute, if_neg hused, hfirst, Exec.ok_bind]
    rcases hop with hop | hop <;> rw [hop] <;> exact hext _
  cases hexec.symm.trans hp
  have hnote : w.note (w.pool.markReqFailed i) .execute =
      w.executeHead (w.pool.markReqFailed i) i := by
    rw [World.note, World.queue, hq]
    rfl
  intro ho
  rw [hnote] at ho
  have hmem : i ∈ (w.executeHead (w.pool.markReqFailed i) i).queue := by
    change i ∈ w.pool.indices.toList
    rw [hq]
    exact List.mem_cons_self
  have hacc := (ho.mem_iff i).mp hmem
  change ((w.pool.markReqFailed i).channels i).state.accepted = true at hacc
  rw [Pool.markReqFailed, channels_update_self] at hacc
  cases hacc

/-- The queue is as it should be throughout a run if and only if the pool
never executes an extension step that failed. -/
theorem queue_orderly_iff {hist : List (World × Pool.Event)} (h : World.IsRun hist w) :
    (∀ t ∈ reached hist w, Orderly t) ↔
      ∀ s ∈ hist, ¬ (s.2 = .execute ∧ ExtensionStepFailed s.1.pool) := by
  refine Run.forall_reached_iff (I := Inv)
    (C := fun w e => ¬ (e = .execute ∧ ExtensionStepFailed w.pool)) ?_ ?_ (fun _ hI => hI.orderly)
    ?_ h
  · intro s hs
    rw [World.IsInitial] at hs
    rw [hs]
    exact .initial
  · intro s e s' hI hs hc
    exact hI.step hs hc
  · intro s e s' _ hs hc
    rw [not_not] at hc
    obtain ⟨rfl, hf⟩ := hc
    exact not_orderly_of_failed hs hf

/-- Execute one event, if nothing is thrown. -/
def World.perform (w : World) (e : Pool.Event) : Option (Pool.Event × World) :=
  (w.step e).toOption.map fun w' => (e, w')

theorem World.exists_run (P : List (World × Pool.Event) × World → Prop) [DecidablePred P]
    (es : List Pool.Event)
    (h : (replay World.perform es ([], {})).any (fun r => decide (P r)) = true) :
    ∃ hist w, World.IsRun hist w ∧ P (hist, w) := by
  have hstep : ∀ s b a s', World.perform s b = some (a, s') → s.step a = .ok s' := by
    intro s b a s' hs
    unfold World.perform at hs
    cases hstep : s.step b with
    | error e => simp [hstep, Except.toOption] at hs
    | ok w =>
      obtain ⟨rfl, rfl⟩ : b = a ∧ w = s' := by simpa [hstep, Except.toOption] using hs
      exact hstep
  have hinit : World.IsInitial {} := rfl
  exact Lib.exists_run hstep hinit h

/-- The request of the pool itself. -/
def initEvents : List Pool.Event :=
  [.execute, .generate, .answer 0 { success := true, sbState := .normal }, .execute]

/-- A request to read that comes while the device is extended is done between
two steps of the extension. -/
theorem queue_orderly_iff_sample : ∃ hist w, World.IsRun hist w ∧
    w.started = [⟨0, .init⟩, ⟨1, .extendVbd⟩, ⟨2, .read⟩] ∧ w.preponed ⟨0, nrOfChannels_pos⟩ = 1 ∧
    ∀ t ∈ reached hist w, Orderly t := by
  have hrun : ∃ hist w, World.IsRun hist w ∧
      (w.started = [⟨0, .init⟩, ⟨1, .extendVbd⟩, ⟨2, .read⟩] ∧
        w.preponed ⟨0, nrOfChannels_pos⟩ = 1 ∧
        ∀ s ∈ hist, ¬ (s.2 = .execute ∧ ExtensionStepFailed s.1.pool)) :=
    World.exists_run (fun r => r.2.started = [⟨0, .init⟩, ⟨1, .extendVbd⟩, ⟨2, .read⟩] ∧
        r.2.preponed ⟨0, nrOfChannels_pos⟩ = 1 ∧
        ∀ s ∈ r.1, ¬ (s.2 = .execute ∧ ExtensionStepFailed s.1.pool))
      (initEvents ++ [.submit { operation := .extendVbd, count := 64 }, .execute, .generate,
        .submit { operation := .read, count := 1 }, .answer 0 { success := true },
        .execute, .execute, .execute, .generate]) (by decide)
  obtain ⟨hist, w, hrun, hstarted, hpreponed, hc⟩ := hrun
  exact ⟨hist, w, hrun, hstarted, hpreponed, (queue_orderly_iff hrun).mpr hc⟩

/-- The index of an extension that failed stays in the queue. -/
theorem failed_extension_stays_in_queue :
    ¬ ∀ hist w, World.IsRun hist w → ∀ t ∈ reached hist w, Orderly t := by
  intro hall
  have hrun : ∃ hist w, World.IsRun hist w ∧ ∃ i, w.queue = [i] ∧
      (w.pool.channels i).state = .complete := by
    exact World.exists_run (fun r => ∃ i, r.2.queue = [i] ∧
        (r.2.pool.channels i).state = .complete)
      (initEvents ++ [.submit { operation := .extendVbd, count := 64 }, .execute, .generate,
        .answer 0 { success := false }, .execute]) (by decide)
  obtain ⟨hist, w, hrun, i, hq, hs⟩ := hrun
  have hacc := (hall hist w hrun w List.mem_cons_self).mem_iff i
  rw [hq, hs] at hacc
  exact Bool.false_ne_true (hacc.mp List.mem_cons_self)

end Runs

end Genode.Tresor.RequestPool
