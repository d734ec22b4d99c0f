import Genode.Kernel.IpcNode

/-!
# IpcInvariant — what holds of the IPC nodes between two operations

`Inv s L` extends the links of `IpcNode` by what the states say: a node
is sending exactly if it has a receiver, a waiting node has no queued
senders and a node that owes a reply has one. Each operation is
summarised by the state it leads to (`sent`, `waited`, `replied`,
`withdraw`), and each of these keeps the invariant. The callbacks do
not appear: an operation reaches the same node state whatever the
threads do.

While a node is destructed, its own state is exempt. So the invariant
is stated for a set of nodes (`InvOn`), and `Inv` is the case of all
live nodes.
-/

namespace Genode.Kernel.IpcNodes

open Lib Util

variable {ι σ : Type} [DecidableEq ι] {t : ThreadCalls ι σ}
variable {s : IpcNodes ι} {L : ι → List ι} {self node : ι}

structure InvOn (A : Finset ι) (s : IpcNodes ι) (L : ι → List ι) : Prop extends Linked s L where
  sending : ∀ n ∈ A, s.sending n = (s.outNode n).isSome
  waiting : ∀ m ∈ A, s.inState m = .wait → L m = []
  replying : ∀ m ∈ A, s.inState m = .reply → L m ≠ []
  alive : ∀ n ∈ A, s.inState n ≠ .destruct ∧ s.outState n ≠ .destruct

abbrev Inv (s : IpcNodes ι) (L : ι → List ι) : Prop := InvOn s.live s L

omit [DecidableEq ι] in
theorem inv_fresh (live : Finset ι) : Inv (fresh live) fun _ => [] where
  repr := Fifos.repr_init
  mem_iff := by simp [fresh]
  live_of := by simp [fresh]
  sending := by simp [fresh, IpcNodes.sending]
  waiting := by simp [fresh]
  replying := by simp [fresh]
  alive := by simp [fresh]

omit [DecidableEq ι] in
theorem Inv.outNode_none (h : Inv s L) (hself : self ∈ s.live) (hr : s.outState self = .ready) :
    s.outNode self = none := by
  have := h.sending self hself
  simpa [IpcNodes.sending, hr] using this.symm

omit [DecidableEq ι] in
theorem Inv.not_sending_of_none (h : Inv s L) (hself : self ∈ s.live)
    (hn : s.outNode self = none) : s.sending self = false := by
  rw [h.sending self hself, hn]
  rfl

/-- A receiving side may always become idle. -/
theorem InvOn.inReady {A : Finset ι} (h : InvOn A s L) :
    InvOn A { s with inState := Function.update s.inState self .ready } L := by
  refine { repr := h.repr, mem_iff := h.mem_iff, live_of := h.live_of, sending := h.sending,
           waiting := ?_, replying := ?_, alive := ?_ }
  · intro m hm hw
    by_cases hms : m = self
    · subst hms; simp at hw
    · exact h.waiting m hm (by simpa [hms] using hw)
  · intro m hm hrep
    by_cases hms : m = self
    · subst hms; simp at hrep
    · exact h.replying m hm (by simpa [hms] using hrep)
  · intro k hk
    obtain ⟨h1, h2⟩ := h.alive k hk
    refine ⟨?_, h2⟩
    by_cases hks : k = self
    · subst hks; simp
    · simpa [hks] using h1

/-! ## Sending -/

/-- The nodes after `send`. -/
def sent (s : IpcNodes ι) (self node : ι) (help : Bool) : IpcNodes ι :=
  { s with
    inQueue := s.inQueue.enqueue node self
    inState := Function.update s.inState node (if s.waiting node then .reply else s.inState node)
    outNode := Function.update s.outNode self (some node)
    outState := Function.update s.outState self (if help then .sendHelping else .send) }

/-- The nodes at the moment `send` reports to a waiting receiver: the
sender is queued already but its sending side still looks idle. -/
def sendReceived (s : IpcNodes ι) (self node : ι) : IpcNodes ι :=
  { s with inQueue := s.inQueue.enqueue node self
           inState := Function.update s.inState node .reply }

theorem send_eq (help : Bool) (x : σ) :
    send t self node help s x =
      if s.waiting node then do
        let x ← t.ipcCopyMsg node self x
        let x ← t.ipcAwaitRequestSucceeded (s.sendReceived self node) node x
        .ok (s.sent self node help, x)
      else .ok (s.sent self node help, x) := by
  by_cases hw : s.inState node = .wait
  · simp [send, sent, sendReceived, waiting, hw, receiveFrom]
  · simp [send, sent, waiting, hw]

theorem sent_helpee (help : Bool) : (s.sent self node help).helpee =
    Function.update s.helpee self (if help then some node else none) := by
  funext n
  by_cases hn : n = self
  · subst hn
    cases help <;> simp [helpee, helping, sent]
  · simp [helpee, helping, sent, hn]

/-- Queueing `self` at `node`, for any states of the receiving sides. -/
theorem Linked.enqueue (h : Linked s L) (hself : self ∈ s.live) (hnode : node ∈ s.live)
    (hn : s.outNode self = none) (help : Bool) :
    Linked (s.sent self node help) (Function.update L node (L node ++ [self])) := by
  refine ⟨h.repr.enqueue (h.not_mem hn) node, ?_, ?_⟩
  · intro n m
    show _ ↔ Function.update s.outNode self (some node) n = some m
    by_cases hns : n = self
    · subst hns
      rw [Function.update_self]
      by_cases hm : m = node
      · subst hm; simp
      · simp [Function.update_of_ne hm, h.not_mem hn m, Ne.symm hm]
    · rw [Function.update_of_ne hns, ← h.mem_iff]
      by_cases hm : m = node
      · subst hm; simp [hns]
      · rw [Function.update_of_ne hm]
  · intro n m hm
    by_cases hns : n = self
    · subst hns
      have hmn : node = m := by simpa [sent] using hm
      exact ⟨hself, hmn ▸ hnode⟩
    · simp only [sent, Function.update_of_ne hns] at hm
      exact h.live_of hm

theorem Inv.sent (h : Inv s L) (hself : self ∈ s.live) (hnode : node ∈ s.live)
    (hr : s.readyToSend self = true) (help : Bool) :
    Inv (s.sent self node help) (Function.update L node (L node ++ [self])) := by
  have hready : s.outState self = .ready := by
    simp [readyToSend] at hr
    exact hr.1
  have hn := h.outNode_none hself hready
  refine { toLinked := h.toLinked.enqueue hself hnode hn help, sending := ?_, waiting := ?_,
           replying := ?_, alive := ?_ }
  · intro n hl
    by_cases hns : n = self
    · subst hns
      cases help <;> simp [IpcNodes.sending, IpcNodes.sent]
    · simpa [IpcNodes.sending, IpcNodes.sent, hns] using h.sending n hl
  · intro m hl hw
    by_cases hm : m = node
    · subst hm
      by_cases hnw : s.inState m = .wait
      · simp [IpcNodes.sent, IpcNodes.waiting, hnw] at hw
      · simp [IpcNodes.sent, IpcNodes.waiting, hnw] at hw
    · rw [Function.update_of_ne hm]
      exact h.waiting m hl (by simpa [IpcNodes.sent, hm] using hw)
  · intro m hl hrep
    by_cases hm : m = node
    · subst hm; simp
    · rw [Function.update_of_ne hm]
      exact h.replying m hl (by simpa [IpcNodes.sent, hm] using hrep)
  · intro n hl
    obtain ⟨h1, h2⟩ := h.alive n hl
    constructor
    · by_cases hm : n = node
      · subst hm
        by_cases hnw : s.inState n = .wait
        · simp [IpcNodes.sent, IpcNodes.waiting, hnw]
        · simpa [IpcNodes.sent, IpcNodes.waiting, hnw] using h1
      · simpa [IpcNodes.sent, hm] using h1
    · by_cases hns : n = self
      · subst hns
        cases help <;> simp [IpcNodes.sent]
      · simpa [IpcNodes.sent, hns] using h2

/-! ## Waiting -/

/-- The nodes after `wait`. -/
def waited (s : IpcNodes ι) (L : ι → List ι) (self : ι) : IpcNodes ι :=
  { s with inState :=
      Function.update s.inState self (if (L self).head?.isSome then .reply else .wait) }

theorem wait_eq (h : Linked s L) (x : σ) :
    wait t self s x =
      (match (L self).head? with
      | none => .ok (s.waited L self, x)
      | some n => do
        let x ← t.ipcCopyMsg self n x
        .ok (s.waited L self, x)) := by
  cases hq : (L self).head? with
  | none => simp [wait, h.head_eq, hq, waited]
  | some n => simp [wait, h.head_eq, hq, waited, receiveFrom]

theorem Inv.waited (h : Inv s L) : Inv (s.waited L self) L := by
  refine { repr := h.repr, mem_iff := h.mem_iff, live_of := h.live_of, sending := h.sending,
           waiting := ?_, replying := ?_, alive := ?_ }
  · intro m hl hw
    by_cases hm : m = self
    · subst hm
      cases hq : L m with
      | nil => rfl
      | cons n rest => simp [IpcNodes.waited, hq] at hw
    · exact h.waiting m hl (by simpa [IpcNodes.waited, hm] using hw)
  · intro m hl hrep
    by_cases hm : m = self
    · subst hm
      intro hq
      simp [IpcNodes.waited, hq] at hrep
    · exact h.replying m hl (by simpa [IpcNodes.waited, hm] using hrep)
  · intro n hl
    obtain ⟨h1, h2⟩ := h.alive n hl
    refine ⟨?_, h2⟩
    by_cases hm : n = self
    · subst hm
      cases hq : (L n).head? <;> simp [IpcNodes.waited, hq]
    · simpa [IpcNodes.waited, hm] using h1

/-! ## Replying -/

/-- The nodes at the moment `reply` reports to the sender `node`. -/
def answered (s : IpcNodes ι) (self node : ι) : IpcNodes ι :=
  { s with inQueue := (s.inQueue.dequeue self).2
           outNode := Function.update s.outNode node none
           outState := Function.update s.outState node .ready }

/-- The nodes after `reply`. -/
def replied (s : IpcNodes ι) (L : ι → List ι) (self : ι) : IpcNodes ι :=
  match s.inState self, L self with
  | .reply, n :: _ =>
    { s.answered self n with inState := Function.update s.inState self .ready }
  | _, _ => { s with inState := Function.update s.inState self .ready }

theorem reply_eq (h : Inv s L) (hself : self ∈ s.live) (x : σ) :
    reply t self s x =
      match s.inState self, L self with
      | .reply, n :: _ => do
        let x ← t.ipcCopyMsg n self x
        let x ← t.ipcSendRequestSucceeded (s.answered self n) n x
        .ok (s.replied L self, x)
      | _, _ => .ok (s.replied L self, x) := by
  cases hin : s.inState self with
  | reply =>
    cases hq : L self with
    | nil => exact absurd hq (h.replying self hself hin)
    | cons n rest =>
      have hd : (s.inQueue.dequeue self).1 = some n := by
        rw [(h.repr.dequeue self).1, hq]
        rfl
      have hpair : s.inQueue.dequeue self = (some n, (s.inQueue.dequeue self).2) := by
        rw [← hd]
      simp only [reply, hin, if_true]
      rw [hpair]
      simp [replied, hin, hq, answered]
  | ready => simp [reply, hin, replied]
  | wait => simp [reply, hin, replied]
  | replyNoSender => simp [reply, hin, replied]
  | destruct => simp [reply, hin, replied]

theorem answered_helpee :
    (s.answered self node).helpee = Function.update s.helpee node none := by
  funext n
  by_cases hn : n = node
  · subst hn; simp [helpee, helping, answered]
  · simp [helpee, helping, answered, hn]

theorem Linked.answered (h : Linked s L) {n : ι} {rest : List ι} (hq : L self = n :: rest) :
    Linked (s.answered self n) (Function.update L self rest) := by
  have hr := (h.repr.dequeue self).2
  rw [hq, List.tail_cons] at hr
  have hnd : (n :: rest).Nodup := hq ▸ h.repr.nodup self
  have hn : s.outNode n = some self := h.mem_iff.mp (by simp [hq])
  refine ⟨hr, ?_, ?_⟩
  · intro k m
    show _ ↔ Function.update s.outNode n none k = some m
    by_cases hk : k = n
    · subst hk
      simp only [Function.update_self, reduceCtorEq, iff_false]
      by_cases hm : m = self
      · subst hm
        simpa using (List.nodup_cons.mp hnd).1
      · rw [Function.update_of_ne hm]
        intro hmem
        exact hm (Option.some.inj ((h.mem_iff.mp hmem).symm.trans hn))
    · rw [Function.update_of_ne hk, ← h.mem_iff]
      by_cases hm : m = self
      · subst hm; simp [hq, hk]
      · rw [Function.update_of_ne hm]
  · intro k m hm
    by_cases hk : k = n
    · subst hk; simp [IpcNodes.answered] at hm
    · simp only [IpcNodes.answered, Function.update_of_ne hk] at hm
      exact h.live_of hm

/-- The queues after `reply`. -/
def repliedQueue (s : IpcNodes ι) (L : ι → List ι) (self : ι) : ι → List ι :=
  if s.inState self = .reply then Function.update L self (L self).tail else L

theorem Inv.replied (h : Inv s L) (hself : self ∈ s.live) :
    Inv (s.replied L self) (s.repliedQueue L self) := by
  by_cases hin : s.inState self = .reply
  · cases hq : L self with
    | nil => exact absurd hq (h.replying self hself hin)
    | cons n rest =>
      have hl := h.toLinked.answered hq
      simp only [IpcNodes.replied, repliedQueue, hin, hq, if_true, List.tail_cons]
      refine { repr := hl.repr, mem_iff := hl.mem_iff, live_of := hl.live_of, sending := ?_,
               waiting := ?_, replying := ?_, alive := ?_ }
      · intro k hk
        by_cases hkn : k = n
        · subst hkn; simp [IpcNodes.sending, IpcNodes.answered]
        · simpa [IpcNodes.sending, IpcNodes.answered, hkn] using h.sending k hk
      · intro m hm hw
        by_cases hms : m = self
        · subst hms; simp at hw
        · rw [Function.update_of_ne hms]
          exact h.waiting m hm (by simpa [hms] using hw)
      · intro m hm hrep
        by_cases hms : m = self
        · subst hms; simp at hrep
        · rw [Function.update_of_ne hms]
          exact h.replying m hm (by simpa [hms] using hrep)
      · intro k hk
        obtain ⟨h1, h2⟩ := h.alive k hk
        constructor
        · by_cases hks : k = self
          · subst hks; simp
          · simpa [hks] using h1
        · by_cases hkn : k = n
          · subst hkn; simp [IpcNodes.answered]
          · simpa [IpcNodes.answered, hkn] using h2
  · have hrep : s.replied L self =
        { s with inState := Function.update s.inState self .ready } := by
      unfold IpcNodes.replied
      split
      · rename_i heq _
        exact absurd heq hin
      · rfl
    rw [hrep, repliedQueue, if_neg hin]
    exact h.inReady

/-! ## Taking a message back -/

variable {A : Finset ι} {inQueue : Fifos ι ι}

theorem withdrawIn_cases (self m : ι) :
    s.withdrawIn L self m = s.inState m ∨ s.withdrawIn L self m = .replyNoSender := by
  unfold withdrawIn
  cases s.outNode self with
  | none => exact .inl rfl
  | some k =>
    dsimp only
    split
    · by_cases hm : m = k
      · subst hm; exact .inr (Function.update_self ..)
      · exact .inl (Function.update_of_ne hm ..)
    · exact .inl rfl

/-- A receiver still owes its reply only if `self` was not the first in
its queue. -/
theorem withdrawIn_reply {m : ι} (h : s.withdrawIn L self m = .reply) :
    s.inState m = .reply ∧ (s.withdrawQueue L self m).head? = (L m).head? := by
  have hrep : s.inState m = .reply := by
    rcases withdrawIn_cases (s := s) (L := L) self m with hi | hi
    · exact hi.symm.trans h
    · exact absurd (hi.symm.trans h) (by simp)
  refine ⟨hrep, ?_⟩
  cases ho : s.outNode self with
  | none => simp [withdrawQueue, ho]
  | some k =>
    by_cases hmk : m = k
    · subst hmk
      have hhd : (L m).head? ≠ some self := by
        intro hhd
        simp [withdrawIn, ho, hrep, hhd] at h
      simp only [withdrawQueue, ho, Function.update_self]
      cases hq : L m with
      | nil => rfl
      | cons b bs =>
        have hb : b ≠ self := fun he => hhd (by simp [hq, he])
        simp [List.erase_cons_tail, hb]
    · simp [withdrawQueue, ho, hmk]

/-- The invariant after `_cancel_send`, for whatever becomes of the
sending side of a node that is exempt from it. -/
theorem InvOn.withdraw (h : InvOn A s L) (hq : inQueue.Repr (s.withdrawQueue L self))
    {outState : ι → OutState} (hother : ∀ n, n ≠ self → outState n = s.outState n)
    (hself : self ∈ A → outState self = .ready) :
    InvOn A { s.withdraw L self inQueue with outState } (s.withdrawQueue L self) := by
  have hl := h.toLinked.withdraw hq
  refine { repr := hl.repr, mem_iff := hl.mem_iff, live_of := hl.live_of, sending := ?_,
           waiting := ?_, replying := ?_, alive := ?_ }
  · intro n hn
    by_cases hns : n = self
    · subst hns
      simp [IpcNodes.sending, IpcNodes.withdraw, hself hn]
    · simpa [IpcNodes.sending, IpcNodes.withdraw, hns, hother n hns] using h.sending n hn
  · intro m hm hw
    have hnil := h.waiting m hm (by
      rcases withdrawIn_cases (s := s) (L := L) self m with hi | hi
      · exact hi.symm.trans hw
      · exact absurd (hi.symm.trans hw) (by simp))
    unfold withdrawQueue
    cases s.outNode self with
    | none => exact hnil
    | some k =>
      by_cases hmk : m = k
      · subst hmk; simp [hnil]
      · simp [hmk, hnil]
  · intro m hm hrep
    obtain ⟨hrep', hhd⟩ := withdrawIn_reply hrep
    have hne := h.replying m hm hrep'
    intro hnil
    rw [hnil] at hhd
    exact hne (List.head?_eq_none_iff.mp hhd.symm)
  · intro n hn
    obtain ⟨h1, h2⟩ := h.alive n hn
    constructor
    · show s.withdrawIn L self n ≠ .destruct
      rcases withdrawIn_cases (s := s) (L := L) self n with hi | hi <;> rw [hi]
      · exact h1
      · simp
    · by_cases hns : n = self
      · subst hns
        simp [hself hn]
      · simpa [hother n hns] using h2

/-- The nodes after a sending node took its message back. -/
def cancelled (s : IpcNodes ι) (L : ι → List ι) (self : ι) (inQueue : Fifos ι ι) : IpcNodes ι :=
  { s.withdraw L self inQueue with outState := Function.update s.outState self .ready }

theorem cancelled_helpee :
    (s.cancelled L self inQueue).helpee = Function.update s.helpee self none := by
  funext n
  by_cases hn : n = self
  · subst hn; simp [helpee, helping, cancelled, IpcNodes.withdraw]
  · simp [helpee, helping, cancelled, IpcNodes.withdraw, hn]

theorem InvOn.cancelled (h : InvOn A s L) (hq : inQueue.Repr (s.withdrawQueue L self)) :
    InvOn A (s.cancelled L self inQueue) (s.withdrawQueue L self) :=
  h.withdraw hq (fun _ hn => Function.update_of_ne hn ..) fun _ => Function.update_self ..

theorem InvOn.cancelSend_eq (h : InvOn A s L) (hself : self ∈ A) (hn : s.outNode self = some node) :
    ∃ inQueue : Fifos ι ι, inQueue.Repr (s.withdrawQueue L self) ∧ ∀ x,
      cancelSend t self s x = (do
        let x ← t.ipcSendRequestFailed (s.withdraw L self inQueue) self x
        .ok (s.cancelled L self inQueue, x)) := by
  have hs : s.sending self = true := by rw [h.sending self hself, hn]; rfl
  obtain ⟨inQueue, hq, he⟩ := IpcNodes.cancelSend_eq t h.toLinked self
  refine ⟨inQueue, hq, fun x => ?_⟩
  rw [he, if_pos hs]
  rfl

/-- The nodes after the receiving side of `self` was cancelled. -/
def waitCancelled (s : IpcNodes ι) (self : ι) : IpcNodes ι :=
  if s.waiting self then { s with inState := Function.update s.inState self .ready } else s

theorem cancelWait_eq (x : σ) :
    cancelWait t self s x =
      if s.waiting self then do
        let x ← t.ipcAwaitRequestFailed (s.waitCancelled self) self x
        .ok (s.waitCancelled self, x)
      else .ok (s.waitCancelled self, x) := by
  by_cases hw : s.waiting self = true
  · simp [cancelWait, waitCancelled, hw]
  · simp [cancelWait, waitCancelled, hw]

theorem InvOn.waitCancelled (h : InvOn A s L) : InvOn A (s.waitCancelled self) L := by
  unfold IpcNodes.waitCancelled
  split
  · exact h.inReady
  · exact h

/-! ## Construction and destruction -/

theorem Inv.construct (h : Inv s L) (hself : self ∉ s.live) : Inv (s.construct self) L := by
  have hnone : s.outNode self = none := by
    cases ho : s.outNode self with
    | none => rfl
    | some m => exact absurd (h.live_of ho).1 hself
  have hempty : L self = [] := by
    refine List.eq_nil_iff_forall_not_mem.mpr fun n hn => ?_
    exact hself (h.live_of (h.mem_iff.mp hn)).2
  have hout : (s.construct self).outNode = s.outNode := by
    rw [IpcNodes.construct, ← hnone, Function.update_eq_self]
  have hcase : ∀ {n}, n ∈ (s.construct self).live → n = self ∨ n ≠ self ∧ n ∈ s.live := by
    intro n hn
    by_cases hns : n = self
    · exact .inl hns
    · exact .inr ⟨hns, Finset.mem_of_mem_insert_of_ne hn hns⟩
  refine { repr := (h.repr.construct hempty).constructElement (h.toLinked.not_mem hnone),
           mem_iff := by rw [hout]; exact h.mem_iff, live_of := ?_, sending := ?_,
           waiting := ?_, replying := ?_, alive := ?_ }
  · intro n m hn
    rw [hout] at hn
    exact ⟨Finset.mem_insert_of_mem (h.live_of hn).1, Finset.mem_insert_of_mem (h.live_of hn).2⟩
  · intro n hn
    rcases hcase hn with rfl | ⟨hns, hl⟩
    · simp [IpcNodes.sending, IpcNodes.construct]
    · simpa [IpcNodes.sending, IpcNodes.construct, hns] using h.sending n hl
  · intro m hm hw
    rcases hcase hm with rfl | ⟨hns, hl⟩
    · exact hempty
    · exact h.waiting m hl (by simpa [IpcNodes.construct, hns] using hw)
  · intro m hm hrep
    rcases hcase hm with rfl | ⟨hns, hl⟩
    · simp [IpcNodes.construct] at hrep
    · exact h.replying m hl (by simpa [IpcNodes.construct, hns] using hrep)
  · intro n hn
    rcases hcase hn with rfl | ⟨hns, hl⟩
    · simp [IpcNodes.construct]
    · simpa [IpcNodes.construct, hns] using h.alive n hl

/-- The nodes when the destructor of `self` starts. -/
def destructing (s : IpcNodes ι) (self : ι) : IpcNodes ι :=
  { s with inState := Function.update s.inState self .destruct
           outState := Function.update s.outState self .destruct }

theorem Inv.destructing (h : Inv s L) : InvOn (s.live.erase self) (s.destructing self) L := by
  refine { repr := h.repr, mem_iff := h.mem_iff, live_of := h.live_of, sending := ?_,
           waiting := ?_, replying := ?_, alive := ?_ }
  · intro n hn
    obtain ⟨hns, hl⟩ := Finset.mem_erase.mp hn
    simpa [IpcNodes.sending, IpcNodes.destructing, hns] using h.sending n hl
  · intro m hm hw
    obtain ⟨hms, hl⟩ := Finset.mem_erase.mp hm
    exact h.waiting m hl (by simpa [IpcNodes.destructing, hms] using hw)
  · intro m hm hrep
    obtain ⟨hms, hl⟩ := Finset.mem_erase.mp hm
    exact h.replying m hl (by simpa [IpcNodes.destructing, hms] using hrep)
  · intro n hn
    obtain ⟨hns, hl⟩ := Finset.mem_erase.mp hn
    simpa [IpcNodes.destructing, hns] using h.alive n hl

/-- What holds in the loop of the destructor of `node`: `xs` are the
senders that are still queued. -/
structure Draining (node : ι) (xs : List ι) (s : IpcNodes ι) (L : ι → List ι) : Prop extends
    InvOn (s.live.erase node) s L where
  rest : L node = xs
  alone : s.outNode node = none
  dying : s.inState node = .destruct ∧ s.outState node = .destruct

theorem Draining.start (h : Inv s L) (hq : inQueue.Repr ((s.destructing self).withdrawQueue L self)) :
    Draining self ((s.destructing self).withdrawQueue L self self)
      ((s.destructing self).withdraw L self inQueue)
      ((s.destructing self).withdrawQueue L self) where
  toInvOn := h.destructing.withdraw hq (fun _ _ => rfl) (by simp)
  rest := rfl
  alone := by simp [IpcNodes.withdraw]
  dying := by
    simp only [IpcNodes.withdraw, withdrawIn]
    refine ⟨?_, by simp [IpcNodes.destructing]⟩
    cases (s.destructing self).outNode self with
    | none => simp [IpcNodes.destructing]
    | some m =>
      by_cases hm : m = self
      · subst hm; simp [IpcNodes.destructing]
      · dsimp only
        split
        · simp [IpcNodes.destructing, Ne.symm hm]
        · simp [IpcNodes.destructing]

/-- One round of the loop. -/
theorem Draining.cancelSend {n : ι} {xs : List ι} (h : Draining self (n :: xs) s L) :
    s.inQueue.next n = xs.head? ∧ n ≠ self ∧ n ∈ s.live ∧ s.outNode n = some self ∧
    ∃ inQueue : Fifos ι ι,
      Draining self xs (s.cancelled L n inQueue) (Function.update L self xs) ∧ ∀ x,
      IpcNodes.cancelSend t n s x = (do
        let x ← t.ipcSendRequestFailed (s.withdraw L n inQueue) n x
        .ok (s.cancelled L n inQueue, x)) := by
  have ho : s.outNode n = some self := h.mem_iff.mp (by simp [h.rest])
  have hns : n ≠ self := by
    rintro rfl
    simp [h.alone] at ho
  have hl := (h.live_of ho).1
  have hnext : s.inQueue.next n = xs.head? := by
    have hc := h.repr.chain self
    rw [h.rest] at hc
    exact Chain.head_eq hc.2
  have hwq : s.withdrawQueue L n = Function.update L self xs := by
    simp [withdrawQueue, ho, h.rest]
  obtain ⟨inQueue, hq, he⟩ := h.toInvOn.cancelSend_eq (t := t) (Finset.mem_erase.mpr ⟨hns, hl⟩) ho
  refine ⟨hnext, hns, hl, ho, inQueue, ?_, he⟩
  refine { toInvOn := hwq ▸ h.toInvOn.cancelled hq, rest := ?_, alone := ?_, dying := ?_ }
  · simp
  · simp [IpcNodes.cancelled, IpcNodes.withdraw, Ne.symm hns, h.alone]
  · simp [IpcNodes.cancelled, IpcNodes.withdraw, withdrawIn, ho, h.dying, Ne.symm hns]

/-- The rule for the loop of the destructor: `P xs` holds while the
senders `xs` are left. -/
theorem cancelSenders_rule {P : List ι → IpcNodes ι → σ → Prop}
    (hstep : ∀ n rest s x, P (n :: rest) s x → s.inQueue.next n = rest.head? ∧
      ∃ s' x', IpcNodes.cancelSend t n s x = .ok (s', x') ∧ P rest s' x')
    {fuel : Nat} {xs : List ι} (hfuel : xs.length ≤ fuel) {x : σ} (hP : P xs s x) :
    ∃ s' x', cancelSenders t fuel xs.head? s x = .ok (s', x') ∧ P [] s' x' := by
  induction xs generalizing fuel s x with
  | nil => exact ⟨s, x, by simp [cancelSenders], hP⟩
  | cons n rest ih =>
    obtain ⟨fuel, rfl⟩ : ∃ k, fuel = k + 1 := ⟨fuel - 1, by simp at hfuel; omega⟩
    obtain ⟨hnext, s', x', hcs, hP'⟩ := hstep n rest s x hP
    obtain ⟨s'', x'', hrest, hP''⟩ := ih (by simpa using hfuel) hP'
    exact ⟨s'', x'', by simp [cancelSenders, hnext, hcs, hrest], hP''⟩

/-- Once no sender is left, the node can go. -/
theorem Draining.finish (h : Draining self [] s L) : Inv { s with live := s.live.erase self } L := by
  refine { repr := h.repr, mem_iff := h.mem_iff, live_of := ?_, sending := h.sending,
           waiting := h.waiting, replying := h.replying, alive := h.alive }
  intro n m hn
  obtain ⟨h1, h2⟩ := h.live_of hn
  have hns : n ≠ self := by
    rintro rfl
    exact absurd (h.alone.symm.trans hn) (by simp)
  have hms : m ≠ self := by
    rintro rfl
    have := h.mem_iff.mpr hn
    simp [h.rest] at this
  exact ⟨Finset.mem_erase.mpr ⟨hns, h1⟩, Finset.mem_erase.mpr ⟨hms, h2⟩⟩

end Genode.Kernel.IpcNodes
