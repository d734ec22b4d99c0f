import Genode.Lib.Run
import Genode.Kernel.IpcInvariant

/-!
# IpcHistory — who is answered in a run of IPC operations

The node states of `IpcNode` forget what happened: `_in.state == REPLY`
says that a reply is owed, not to whom. Here the operations run with
callbacks that record every call to a thread, so that a run carries the
list of its operations and of their calls. `lastReceived` and
`pendingSend` read that list; they know nothing of queues and pointers.
The main result says that the queues always agree with them.
-/

namespace Genode.Kernel

open Lib Util

/-- The calls from the IPC nodes to their threads. -/
inductive IpcCall (ι : Type) where
  | copyMsg (self sender : ι)
  | sendRequestSucceeded (self : ι)
  | sendRequestFailed (self : ι)
  | awaitRequestSucceeded (self : ι)
  | awaitRequestFailed (self : ι)
  deriving DecidableEq, Repr

/-- The operations on IPC nodes. -/
inductive IpcOp (ι : Type) where
  | construct (self : ι)
  | send (self node : ι) (help : Bool)
  | wait (self : ι)
  | reply (self : ι)
  | cancelWaiting (self : ι)
  | destruct (self : ι)
  deriving DecidableEq, Repr

variable {ι σ : Type} [DecidableEq ι]

/-- Threads that only record how they are called. -/
def recordCalls : ThreadCalls ι (List (IpcCall ι)) where
  ipcCopyMsg self sender calls := .ok (calls ++ [.copyMsg self sender])
  ipcSendRequestSucceeded _ self calls := .ok (calls ++ [.sendRequestSucceeded self])
  ipcSendRequestFailed _ self calls := .ok (calls ++ [.sendRequestFailed self])
  ipcAwaitRequestSucceeded _ self calls := .ok (calls ++ [.awaitRequestSucceeded self])
  ipcAwaitRequestFailed _ self calls := .ok (calls ++ [.awaitRequestFailed self])

namespace IpcOp

def run (t : ThreadCalls ι σ) : IpcOp ι → IpcNodes ι → σ → Exec (IpcNodes ι × σ)
  | construct self, s, x => .ok (s.construct self, x)
  | send self node help, s, x => s.send t self node help x
  | wait self, s, x => s.wait t self x
  | reply self, s, x => s.reply t self x
  | cancelWaiting self, s, x => s.cancelWaiting t self x
  | destruct self, s, x => s.destruct t self x

/-- The conditions under which a thread calls an operation of its node. -/
def Allowed (s : IpcNodes ι) : IpcOp ι → Prop
  | construct self => self ∉ s.live
  | send self node _ => self ∈ s.live ∧ node ∈ s.live ∧ s.readyToSend self = true
  | wait self => self ∈ s.live ∧ s.readyToWait self = true
  | reply self => self ∈ s.live
  | cancelWaiting self => self ∈ s.live
  | destruct self => self ∈ s.live

end IpcOp

/-- A step of a run: the operation and the calls it made. -/
abbrev IpcStep (ι : Type) := IpcOp ι × List (IpcCall ι)

/-- One operation on the nodes. -/
def IpcNodes.Trans (s : IpcNodes ι) (a : IpcStep ι) (s' : IpcNodes ι) : Prop :=
  a.1.Allowed s ∧ a.1.run recordCalls s [] = .ok (s', a.2)

/-- Runs start with fresh nodes. -/
def IpcNodes.Init (s : IpcNodes ι) : Prop := ∃ live, s = .fresh live

instance IpcOp.decidableAllowed (s : IpcNodes ι) : ∀ op, Decidable (IpcOp.Allowed s op)
  | .construct self => inferInstanceAs (Decidable (self ∉ s.live))
  | .send self node _ =>
    inferInstanceAs (Decidable (self ∈ s.live ∧ node ∈ s.live ∧ s.readyToSend self = true))
  | .wait self => inferInstanceAs (Decidable (self ∈ s.live ∧ s.readyToWait self = true))
  | .reply self => inferInstanceAs (Decidable (self ∈ s.live))
  | .cancelWaiting self => inferInstanceAs (Decidable (self ∈ s.live))
  | .destruct self => inferInstanceAs (Decidable (self ∈ s.live))

/-- Execute an operation if it is allowed. -/
def IpcNodes.exec (s : IpcNodes ι) (op : IpcOp ι) : Option (IpcStep ι × IpcNodes ι) :=
  if op.Allowed s then
    match op.run recordCalls s [] with
    | .ok (s', calls) => some ((op, calls), s')
    | .error _ => none
  else none

theorem IpcNodes.trans_of_exec {s s' : IpcNodes ι} {op : IpcOp ι} {a : IpcStep ι}
    (h : s.exec op = some (a, s')) : s.Trans a s' := by
  unfold exec at h
  split at h
  · rename_i hal
    split at h
    · rename_i s'' calls hrun
      obtain ⟨rfl, rfl⟩ : (op, calls) = a ∧ s'' = s' := by simpa using h
      exact ⟨hal, hrun⟩
    · simp at h
  · simp at h

theorem IpcNodes.exists_run (live : Finset ι) (ops : List (IpcOp ι))
    {p : List (IpcNodes ι × IpcStep ι) × IpcNodes ι → Prop} [DecidablePred p]
    (h : (replay exec ops ([], fresh live)).any (fun r => decide (p r)) = true) :
    ∃ hist s, Run Init Trans hist s ∧ p (hist, s) :=
  Lib.exists_run (fun _ _ _ _ => trans_of_exec) ⟨live, rfl⟩ h

/-! ## Reading a history -/

/-- The sender whose message a step makes `_receive_from` copy to `m`.
A reply copies messages too, but these are answers. -/
def receivedIn (m : ι) : IpcStep ι → Option ι
  | (.send .., calls) | (.wait _, calls) =>
    calls.findSome? fun
      | .copyMsg self sender => if self = m then some sender else none
      | _ => none
  | _ => none

/-- The sender whose message was last copied to `m`. -/
def lastReceived (m : ι) : List (IpcNodes ι × IpcStep ι) → Option ι
  | [] => none
  | (_, a) :: hist => (receivedIn m a).or (lastReceived m hist)

/-- What a step makes of the send of `n` that is pending before it: a
send starts with the operation and ends with an answer, a failure or
the destruction of the node. -/
def pendingAfter (n : ι) (old : Option ι) (a : IpcStep ι) : Option ι :=
  if .sendRequestSucceeded n ∈ a.2 ∨ .sendRequestFailed n ∈ a.2 then none
  else match a.1 with
    | .send self node _ => if self = n then some node else old
    | .construct self | .cancelWaiting self | .destruct self => if self = n then none else old
    | .wait _ | .reply _ => old

/-- The receiver of the send of `n` that is neither answered nor failed. -/
def pendingSend (n : ι) : List (IpcNodes ι × IpcStep ι) → Option ι
  | [] => none
  | (_, a) :: hist => pendingAfter n (pendingSend n hist) a

/-- A step that starts a send of `n`. -/
def IsSendOf (n : ι) (a : IpcStep ι) : Prop := ∃ m help, a.1 = .send n m help

/-- A step after which the send of `n` is over. -/
def EndsSendOf (n : ι) (a : IpcStep ι) : Prop :=
  .sendRequestSucceeded n ∈ a.2 ∨ .sendRequestFailed n ∈ a.2 ∨
    a.1 = .cancelWaiting n ∨ a.1 = .destruct n

theorem pendingAfter_ends {n : ι} {a : IpcStep ι} (h : EndsSendOf n a) (old : Option ι) :
    pendingAfter n old a = none := by
  unfold pendingAfter
  split
  · rfl
  · rename_i hc
    rw [not_or] at hc
    rcases h with h | h | h | h
    · exact absurd h hc.1
    · exact absurd h hc.2
    · simp [h]
    · simp [h]

theorem pendingAfter_of_not_send {n : ι} {a : IpcStep ι} (h : ¬ IsSendOf n a) :
    pendingAfter n none a = none := by
  unfold pendingAfter
  split
  · rfl
  · split
    · rename_i self node help he
      split
      · rename_i hs
        exact absurd ⟨node, help, hs ▸ he⟩ h
      · rfl
    · split <;> rfl
    · split <;> rfl
    · split <;> rfl
    · rfl
    · rfl

/-- After the end of a send of `n` nothing is pending until the next one. -/
theorem pendingSend_eq_none {n : ι} {mid earlier : List (IpcNodes ι × IpcStep ι)}
    {e : IpcNodes ι × IpcStep ι} (he : EndsSendOf n e.2)
    (hmid : ∀ d ∈ mid, ¬ IsSendOf n d.2) : pendingSend n (mid ++ e :: earlier) = none := by
  induction mid with
  | nil => exact pendingAfter_ends he _
  | cons d mid ih =>
    rw [List.forall_mem_cons] at hmid
    show pendingAfter n (pendingSend n (mid ++ e :: earlier)) d.2 = none
    rw [ih hmid.2]
    exact pendingAfter_of_not_send hmid.1

/-! ## One step -/

namespace IpcNodes

variable {s s' : IpcNodes ι} {L L' : ι → List ι} {self node : ι}

/-- What one step does, in terms of the queues before and after it. -/
structure Effect (s : IpcNodes ι) (L : ι → List ι) (a : IpcStep ι) (s' : IpcNodes ι)
    (L' : ι → List ι) : Prop where
  inv : Inv s' L'
  pending : ∀ n, s'.outNode n = pendingAfter n (s.outNode n) a
  received : ∀ m ∈ s'.live, s'.inState m = .reply → (L' m).head? = receivedIn m a ∨
    receivedIn m a = none ∧ m ∈ s.live ∧ s.inState m = .reply ∧ (L' m).head? = (L m).head?
  answers : ∀ n, .sendRequestSucceeded n ∈ a.2 → ∃ m, a.1 = .reply m ∧ s.inState m = .reply
  replies : ∀ m, a.1 = .reply m → m ∈ s.live ∧
    if s.inState m = .reply then
      ∃ n, (L m).head? = some n ∧ a.2 = [.copyMsg n m, .sendRequestSucceeded n]
    else a.2 = []
  helping : ∀ n m, s'.helpee n = some m → s.helpee n = some m ∨ a.1 = .send n m true

theorem effect_construct (h : Inv s L) (hself : self ∉ s.live) :
    Effect s L (.construct self, []) (s.construct self) L where
  inv := h.construct hself
  pending n := by
    by_cases hn : n = self
    · subst hn; simp [IpcNodes.construct, pendingAfter]
    · simp [IpcNodes.construct, pendingAfter, hn, Ne.symm hn]
  received m hm hrep := by
    by_cases hms : m = self
    · subst hms; simp [IpcNodes.construct] at hrep
    · have hl : m ∈ s.live := Finset.mem_of_mem_insert_of_ne hm hms
      exact .inr ⟨rfl, hl, by simpa [IpcNodes.construct, hms] using hrep, rfl⟩
  answers := by simp
  replies := by simp
  helping n m hn := by
    by_cases hns : n = self
    · subst hns; simp [helpee, IpcNodes.helping, IpcNodes.construct] at hn
    · exact .inl (by simpa [helpee, IpcNodes.helping, IpcNodes.construct, hns] using hn)

/-- The calls of `send`. -/
def sendCalls (s : IpcNodes ι) (self node : ι) : List (IpcCall ι) :=
  if s.waiting node then [.copyMsg node self, .awaitRequestSucceeded node] else []

theorem effect_send (h : Inv s L) (hself : self ∈ s.live) (hnode : node ∈ s.live)
    (hr : s.readyToSend self = true) (help : Bool) :
    Effect s L (.send self node help, s.sendCalls self node) (s.sent self node help)
      (Function.update L node (L node ++ [self])) where
  inv := h.sent hself hnode hr help
  pending n := by
    have hno : .sendRequestSucceeded n ∉ s.sendCalls self node ∧
        .sendRequestFailed n ∉ s.sendCalls self node := by
      unfold sendCalls
      split <;> simp
    by_cases hn : n = self
    · subst hn; simp [IpcNodes.sent, pendingAfter, hno]
    · simp [IpcNodes.sent, pendingAfter, hno, hn, Ne.symm hn]
  received m hm hrep := by
    by_cases hmn : m = node
    · subst hmn
      by_cases hw : s.inState m = .wait
      · -- the receiver waited, so its queue was empty
        left
        simp [h.waiting m hm hw, receivedIn, sendCalls, IpcNodes.waiting, hw]
      · right
        have hrep' : s.inState m = .reply := by
          simpa [IpcNodes.sent, IpcNodes.waiting, hw] using hrep
        refine ⟨by simp [receivedIn, sendCalls, IpcNodes.waiting, hw], hm, hrep', ?_⟩
        have hne := h.replying m hm hrep'
        rw [Function.update_self, List.head?_append_of_ne_nil _ hne]
    · right
      refine ⟨?_, hm, by simpa [IpcNodes.sent, hmn] using hrep, by simp [hmn]⟩
      by_cases hw : s.waiting node = true
      · simp [receivedIn, sendCalls, hw, Ne.symm hmn]
      · simp [receivedIn, sendCalls, hw]
  answers n hn := by
    simp only [sendCalls] at hn
    split at hn <;> simp at hn
  replies := by simp
  helping n m hn := by
    rw [sent_helpee] at hn
    by_cases hns : n = self
    · subst hns
      cases help with
      | false => simp at hn
      | true =>
        obtain rfl : node = m := by simpa using hn
        exact .inr rfl
    · exact .inl (by simpa [hns] using hn)

/-- The calls of `wait`. -/
def waitCalls (L : ι → List ι) (self : ι) : List (IpcCall ι) :=
  match (L self).head? with
  | none => []
  | some n => [.copyMsg self n]

theorem effect_wait (h : Inv s L) :
    Effect s L (.wait self, waitCalls L self) (s.waited L self) L where
  inv := h.waited
  pending n := by
    have hno : .sendRequestSucceeded n ∉ waitCalls L self ∧
        .sendRequestFailed n ∉ waitCalls L self := by
      unfold waitCalls
      split <;> simp
    simp [IpcNodes.waited, pendingAfter, hno]
  received m hm hrep := by
    by_cases hms : m = self
    · subst hms
      left
      cases hq : (L m).head? with
      | none => simp [IpcNodes.waited, hq] at hrep
      | some n => simp [receivedIn, waitCalls, hq]
    · right
      refine ⟨?_, hm, by simpa [IpcNodes.waited, hms] using hrep, rfl⟩
      cases hq : (L self).head? with
      | none => simp [receivedIn, waitCalls, hq]
      | some n => simp [receivedIn, waitCalls, hq, Ne.symm hms]
  answers n hn := by
    simp only [waitCalls] at hn
    split at hn <;> simp at hn
  replies := by simp
  helping _ _ hn := .inl hn

/-- The calls of `reply`. -/
def replyCalls (s : IpcNodes ι) (L : ι → List ι) (self : ι) : List (IpcCall ι) :=
  match s.inState self, L self with
  | .reply, n :: _ => [.copyMsg n self, .sendRequestSucceeded n]
  | _, _ => []

theorem effect_reply (h : Inv s L) (hself : self ∈ s.live) :
    Effect s L (.reply self, s.replyCalls L self) (s.replied L self) (s.repliedQueue L self) := by
  have hinv := h.replied hself
  by_cases hin : s.inState self = .reply
  · cases hq : L self with
    | nil => exact absurd hq (h.replying self hself hin)
    | cons n rest =>
      have hcalls : s.replyCalls L self = [.copyMsg n self, .sendRequestSucceeded n] := by
        simp [replyCalls, hin, hq]
      refine ⟨hinv, ?_, ?_, ?_, ?_, ?_⟩
      · intro k
        by_cases hk : k = n
        · subst hk; simp [hcalls, pendingAfter, IpcNodes.replied, hin, hq, answered]
        · simp [hcalls, pendingAfter, IpcNodes.replied, hin, hq, answered, hk]
      · intro m hm hrep
        by_cases hms : m = self
        · subst hms; simp [IpcNodes.replied, hin, hq] at hrep
        · have hm' : m ∈ s.live := by simpa [IpcNodes.replied, hin, hq, answered] using hm
          have hr : s.inState m = .reply := by
            simpa [IpcNodes.replied, hin, hq, hms] using hrep
          exact .inr ⟨rfl, hm', hr, by simp [repliedQueue, hin, hms]⟩
      · intro k _
        exact ⟨self, rfl, hin⟩
      · intro m hm
        obtain rfl : self = m := by simpa using hm
        exact ⟨hself, by rw [if_pos hin]; exact ⟨n, by simp [hq], hcalls⟩⟩
      · intro k m hk
        have hk' : (s.answered self n).helpee k = some m := by
          simpa [IpcNodes.replied, hin, hq, helpee, helping] using hk
        rw [answered_helpee] at hk'
        exact .inl (of_update_none hk')
  · have hcalls : s.replyCalls L self = [] := by
      unfold replyCalls
      split
      · rename_i heq _
        exact absurd heq hin
      · rfl
    have hrep : s.replied L self =
        { s with inState := Function.update s.inState self .ready } := by
      unfold IpcNodes.replied
      split
      · rename_i heq _
        exact absurd heq hin
      · rfl
    rw [hcalls]
    refine ⟨hinv, ?_, ?_, by simp, ?_, ?_⟩
    · intro n
      simp [hrep, pendingAfter]
    · intro m hm hr
      by_cases hms : m = self
      · subst hms; simp [hrep] at hr
      · exact .inr ⟨rfl, by simpa [hrep] using hm, by simpa [hrep, hms] using hr,
          by simp [repliedQueue, hin]⟩
    · intro m hm
      obtain rfl : self = m := by simpa using hm
      exact ⟨hself, by rw [if_neg hin]⟩
    · intro n m hn
      exact .inl (by simpa [hrep, helpee, helping] using hn)

/-- The calls of `cancel_waiting`, when the sending side leaves the nodes `s₁`. -/
def cancelCalls (s s₁ : IpcNodes ι) (self : ι) : List (IpcCall ι) :=
  (if s.sending self then [.sendRequestFailed self] else []) ++
    if s₁.waiting self then [.awaitRequestFailed self] else []

/-- `cancel_waiting` in terms of the nodes `s₁` that the sending side
leaves, where `self` has no receiver anymore. -/
theorem effect_cancelWaiting (s₁ : IpcNodes ι)
    (hinv : Inv s₁ (s.withdrawQueue L self)) (hlive : s₁.live = s.live)
    (hout : s₁.outNode = Function.update s.outNode self none)
    (hin : s₁.inState = s.withdrawIn L self)
    (hst : ∀ n m, s₁.helpee n = some m → s.helpee n = some m) :
    Effect s L (.cancelWaiting self, cancelCalls s s₁ self) (s₁.waitCancelled self)
      (s.withdrawQueue L self) := by
  have hno : ∀ n, .sendRequestSucceeded n ∉ cancelCalls s s₁ self ∧
      (n ≠ self → .sendRequestFailed n ∉ cancelCalls s s₁ self) := by
    intro n
    unfold cancelCalls
    split <;> split <;> simp
  have hout' : (s₁.waitCancelled self).outNode = s₁.outNode := by
    unfold waitCancelled
    split <;> rfl
  have hlive' : (s₁.waitCancelled self).live = s.live := by
    rw [← hlive]
    unfold waitCancelled
    split <;> rfl
  refine ⟨?_, ?_, ?_, ?_, by simp, ?_⟩
  · show InvOn (s₁.waitCancelled self).live _ _
    rw [hlive', ← hlive]
    exact InvOn.waitCancelled hinv
  · intro n
    rw [hout', hout]
    by_cases hn : n = self
    · subst hn
      rw [pendingAfter_ends (.inr (.inr (.inl rfl))), Function.update_self]
    · simp [pendingAfter, (hno n).1, (hno n).2 hn, hn, Ne.symm hn]
  · intro m hm hrep
    have hrep' : s.withdrawIn L self m = .reply := by
      rw [← hin]
      unfold waitCancelled at hrep
      split at hrep
      · by_cases hms : m = self
        · subst hms; simp at hrep
        · simpa [hms] using hrep
      · exact hrep
    obtain ⟨h1, h2⟩ := withdrawIn_reply hrep'
    exact .inr ⟨rfl, hlive' ▸ hm, h1, h2⟩
  · intro n hn
    exact absurd hn (hno n).1
  · intro n m hn
    refine .inl (hst n m ?_)
    unfold waitCancelled at hn
    split at hn <;> exact hn

/-- What holds in the loop of the destructor of `node`, started with the
nodes `s₁` and the queues `L₁`: the calls so far tell which senders are
unlinked already. -/
structure Drained (s₁ : IpcNodes ι) (L₁ : ι → List ι) (node : ι) (xs : List ι) (s : IpcNodes ι)
    (calls : List (IpcCall ι)) (L : ι → List ι) : Prop extends Draining node xs s L where
  live : s.live = s₁.live
  inState : s.inState = s₁.inState
  helpee : ∀ n m, s.helpee n = some m → s₁.helpee n = some m
  others : ∀ m, m ≠ node → L m = L₁ m
  failed : ∀ c ∈ calls, ∃ n, c = .sendRequestFailed n
  out : ∀ n, s.outNode n = if .sendRequestFailed n ∈ calls then none else s₁.outNode n

theorem Drained.cancelSend {s₁ : IpcNodes ι} {L₁ : ι → List ι} {n : ι} {xs : List ι}
    {calls : List (IpcCall ι)} (h : Drained s₁ L₁ node (n :: xs) s calls L) :
    s.inQueue.next n = xs.head? ∧ ∃ s' calls',
      IpcNodes.cancelSend recordCalls n s calls = .ok (s', calls') ∧
        ∃ L', Drained s₁ L₁ node xs s' calls' L' := by
  obtain ⟨hnext, hns, hl, ho, inQueue, hd, he⟩ := h.toDraining.cancelSend (t := recordCalls)
  refine ⟨hnext, s.cancelled L n inQueue, calls ++ [.sendRequestFailed n], ?_, _, hd, h.live,
    ?_, ?_, ?_, ?_, ?_⟩
  · rw [he]; rfl
  · rw [← h.inState]
    simp [cancelled, withdraw, withdrawIn, ho, h.dying]
  · intro k m hk
    rw [cancelled_helpee] at hk
    exact h.helpee k m (of_update_none hk)
  · intro m hm
    rw [Function.update_of_ne hm, h.others m hm]
  · intro c hc
    rcases List.mem_append.mp hc with hc | hc
    · exact h.failed c hc
    · exact ⟨n, List.mem_singleton.mp hc⟩
  · intro k
    by_cases hk : k = n
    · subst hk; simp [cancelled, withdraw]
    · simp [cancelled, withdraw, hk, h.out]

theorem effect_destruct (h : Inv s L) (hself : self ∈ s.live) :
    ∃ s' calls L', destruct recordCalls self s [] = .ok (s', calls) ∧
      Effect s L (.destruct self, calls) s' L' := by
  have hnots : (s.destructing self).sending self = false := by
    simp [IpcNodes.sending, IpcNodes.destructing]
  obtain ⟨inQueue, hq, he⟩ :=
    cancelSend_eq (recordCalls : ThreadCalls ι _) (Inv.destructing h).toLinked self
  have hstart := Draining.start h hq
  let s₁ := (s.destructing self).withdraw L self inQueue
  let L₁ := (s.destructing self).withdrawQueue L self
  have hfirst : Drained s₁ L₁ self (L₁ self) s₁ [] L₁ :=
    { toDraining := hstart, live := rfl, inState := rfl, helpee := fun _ _ h => h,
      others := fun _ _ => rfl, failed := by simp, out := by simp }
  obtain ⟨s₂, calls, hloop, L₂, hend⟩ := cancelSenders_rule (t := recordCalls)
    (P := fun xs s calls => ∃ L, Drained s₁ L₁ self xs s calls L)
    (fun _ _ _ _ hex => hex.elim fun _ hd => hd.cancelSend) (hstart.toLinked.length_le self)
    (x := []) ⟨L₁, hfirst⟩
  refine ⟨{ s₂ with live := s₂.live.erase self }, calls, L₂, ?_, ?_⟩
  · have hhead : s₁.inQueue.head self = (L₁ self).head? := hstart.toLinked.head_eq self
    have hcs : cancelSend recordCalls self (s.destructing self) [] = .ok (s₁, []) := by
      rw [he, if_neg (by simp [hnots])]
    unfold destruct
    refine Exec.bind_eq_ok.mpr ⟨(s₁, []), hcs, Exec.bind_eq_ok.mpr ⟨(s₂, calls), ?_, rfl⟩⟩
    rw [hhead]
    exact hloop
  · have hsucc : ∀ n, .sendRequestSucceeded n ∉ calls := fun n hn => by
      obtain ⟨k, hk⟩ := hend.failed _ hn
      simp at hk
    refine ⟨hend.toDraining.finish, ?_, ?_, ?_, by simp, ?_⟩
    · intro n
      show s₂.outNode n = _
      by_cases hn : n = self
      · subst hn
        rw [pendingAfter_ends (.inr (.inr (.inr rfl)))]
        exact hend.alone
      · rw [hend.out]
        simp only [pendingAfter, hsucc, false_or, if_neg (Ne.symm hn)]
        simp [s₁, withdraw, hn, IpcNodes.destructing]
    · intro m hm hrep
      obtain ⟨hms, hl⟩ := Finset.mem_erase.mp hm
      have hrep' : (s.destructing self).withdrawIn L self m = .reply := by
        have : s₂.inState m = .reply := hrep
        rwa [hend.inState] at this
      obtain ⟨h1, h2⟩ := withdrawIn_reply hrep'
      refine .inr ⟨rfl, hend.live ▸ hl, by simpa [IpcNodes.destructing, hms] using h1, ?_⟩
      rw [hend.others m hms]
      exact h2
    · intro n hn
      exact absurd hn (hsucc n)
    · intro n m hn
      obtain ⟨h1, h2⟩ := helpee_eq_some.mp (hend.helpee n m hn)
      by_cases hns : n = self
      · subst hns; simp [s₁, withdraw] at h2
      · refine .inl (helpee_eq_some.mpr ⟨?_, ?_⟩)
        · simpa [s₁, withdraw, IpcNodes.destructing, hns] using h1
        · simpa [s₁, withdraw, IpcNodes.destructing, hns] using h2

/-- Every operation that is allowed returns, and has an effect. -/
theorem exists_effect (h : Inv s L) {op : IpcOp ι} (ha : op.Allowed s) :
    ∃ s' calls L', op.run recordCalls s [] = .ok (s', calls) ∧ Effect s L (op, calls) s' L' := by
  cases op with
  | construct self => exact ⟨_, _, _, rfl, effect_construct h ha⟩
  | send self node help =>
    obtain ⟨h1, h2, h3⟩ := ha
    refine ⟨_, _, _, ?_, effect_send h h1 h2 h3 help⟩
    simp only [IpcOp.run, send_eq, sendCalls]
    split <;> rfl
  | wait self =>
    refine ⟨_, _, _, ?_, effect_wait h⟩
    simp only [IpcOp.run, wait_eq h.toLinked, waitCalls]
    cases (L self).head? <;> rfl
  | reply self =>
    refine ⟨_, _, _, ?_, effect_reply h ha⟩
    simp only [IpcOp.run, reply_eq h ha]
    split <;> simp [replyCalls, recordCalls, *]
  | cancelWaiting self =>
    have hstop : ∀ (s₁ : IpcNodes ι) (calls : List (IpcCall ι)),
        cancelWait recordCalls self s₁ calls = .ok (s₁.waitCancelled self,
          calls ++ if s₁.waiting self then [.awaitRequestFailed self] else []) := by
      intro s₁ calls
      rw [cancelWait_eq]
      split
      · rfl
      · simp
    cases ho : s.outNode self with
    | none =>
      have hns := h.not_sending_of_none ha ho
      have hw : s.withdrawQueue L self = L := by simp [withdrawQueue, ho]
      refine ⟨_, _, _, ?_, effect_cancelWaiting s (hw.symm ▸ h) rfl
        (by rw [← ho, Function.update_eq_self]) (by simp [withdrawIn, ho]) fun _ _ h => h⟩
      simp [IpcOp.run, cancelWaiting, hns, hstop, cancelCalls]
    | some node =>
      have hs : s.sending self = true := by rw [h.sending self ha, ho]; rfl
      obtain ⟨inQueue, hq, he⟩ := InvOn.cancelSend_eq (t := recordCalls) h ha ho
      refine ⟨_, _, _, ?_, effect_cancelWaiting (s.cancelled L self inQueue)
        (InvOn.cancelled h hq) rfl rfl rfl fun n m hn => ?_⟩
      · simp only [IpcOp.run, cancelWaiting, hs, if_true, he, cancelCalls]
        simp [recordCalls]
        exact hstop _ _
      · rw [cancelled_helpee] at hn
        exact of_update_none hn
  | destruct self => exact effect_destruct h ha

theorem Trans.effect (h : Inv s L) {a : IpcStep ι} (ht : Trans s a s') :
    ∃ L', Effect s L a s' L' := by
  obtain ⟨ha, hrun⟩ := ht
  obtain ⟨s'', calls, L', hrun', he⟩ := exists_effect h ha
  rw [hrun] at hrun'
  simp only [Except.ok.injEq, Prod.mk.injEq] at hrun'
  obtain ⟨rfl, rfl⟩ := hrun'
  exact ⟨L', he⟩

/-! ## Whole runs -/

variable {hist : List (IpcNodes ι × IpcStep ι)}

/-- The queues agree with the history. -/
structure Agrees (hist : List (IpcNodes ι × IpcStep ι)) (s : IpcNodes ι) (L : ι → List ι) : Prop where
  inv : Inv s L
  pending : ∀ n, s.outNode n = pendingSend n hist
  received : ∀ m ∈ s.live, s.inState m = .reply → (L m).head? = lastReceived m hist

theorem Agrees.step (h : Agrees hist s L) {a : IpcStep ι} (he : Effect s L a s' L') :
    Agrees ((s, a) :: hist) s' L' := by
  refine ⟨he.inv, ?_, ?_⟩
  · intro n
    rw [he.pending n, h.pending n]
    rfl
  · intro m hm hrep
    have hne := he.inv.replying m hm hrep
    show _ = (receivedIn m a).or (lastReceived m hist)
    rcases he.received m hm hrep with hrec | ⟨hno, hl, hrep', hsame⟩
    · rw [hrec]
      cases hr : receivedIn m a with
      | none => exact absurd (List.head?_eq_none_iff.mp (hrec.trans hr)) hne
      | some n => rfl
    · rw [hno, hsame, h.received m hl hrep']
      rfl

theorem agrees_of_run (h : Run Init Trans hist s) : ∃ L, Agrees hist s L := by
  induction h with
  | start hs =>
    obtain ⟨live, rfl⟩ := hs
    exact ⟨_, inv_fresh live, fun _ => rfl, fun m _ hr => absurd hr (by simp [fresh])⟩
  | step _ ht ih =>
    obtain ⟨L, hL⟩ := ih
    obtain ⟨L', he⟩ := Trans.effect hL.inv ht
    exact ⟨L', hL.step he⟩

/-- What a step `a` from the nodes `s` answers, after the history `hist`:
a reply that is owed goes to the sender that was received last, and
nothing else is ever an answer. -/
structure AnswersRight (hist : List (IpcNodes ι × IpcStep ι)) (s : IpcNodes ι) (a : IpcStep ι) :
    Prop where
  owed : ∀ m, a.1 = .reply m → s.inState m = .reply → ∃ n, lastReceived m hist = some n ∧
    a.2 = [.copyMsg n m, .sendRequestSucceeded n]
  notOwed : ∀ m, a.1 = .reply m → s.inState m ≠ .reply → a.2 = []
  pending : ∀ n, .sendRequestSucceeded n ∈ a.2 → ∃ m, a.1 = .reply m ∧ pendingSend n hist = some m

theorem Agrees.answersRight (h : Agrees hist s L) {a : IpcStep ι} (he : Effect s L a s' L') :
    AnswersRight hist s a := by
  refine ⟨?_, ?_, ?_⟩
  · intro m hm hrep
    obtain ⟨hl, hc⟩ := he.replies m hm
    rw [if_pos hrep] at hc
    obtain ⟨n, hn, hc⟩ := hc
    exact ⟨n, by rw [← h.received m hl hrep, hn], hc⟩
  · intro m hm hrep
    obtain ⟨-, hc⟩ := he.replies m hm
    rwa [if_neg hrep] at hc
  · intro n hn
    obtain ⟨m, hm, hrep⟩ := he.answers n hn
    obtain ⟨hl, hc⟩ := he.replies m hm
    rw [if_pos hrep] at hc
    obtain ⟨k, hk, hc⟩ := hc
    obtain rfl : n = k := by simpa [hc] using hn
    refine ⟨m, hm, ?_⟩
    rw [← h.pending n]
    exact h.inv.mem_iff.mp (List.mem_of_mem_head? hk)

/-- What holds of the nodes `s` after the history `hist`. -/
structure Consistent (hist : List (IpcNodes ι × IpcStep ι)) (s : IpcNodes ι) : Prop where
  queued : ∀ m, ∃ q, s.queue m = some q ∧ s.inQueue.head m = q.head? ∧
    ∀ n, q.count n = if s.outNode n = some m then 1 else 0
  sending : ∀ n ∈ s.live, s.sending n = true ↔ s.outNode n ≠ none
  waiting : ∀ m ∈ s.live, s.inState m = .wait → s.queue m = some []
  replying : ∀ m ∈ s.live, s.inState m = .reply → ∃ n, s.inQueue.head m = some n ∧
    lastReceived m hist = some n
  answers : ∀ later t a earlier, hist = later ++ (t, a) :: earlier → AnswersRight earlier t a
  once : ∀ n later d mid e earlier, hist = later ++ d :: (mid ++ e :: earlier) →
    .sendRequestSucceeded n ∈ d.2.2 → EndsSendOf n e.2 → ∃ x ∈ mid, IsSendOf n x.2
  returns : ∀ op : IpcOp ι, op.Allowed s → ∃ s' calls, Trans s (op, calls) s'

/-- After every run, the queues are exactly what the `_out.node`
pointers say, every reply answers the sender that was received last,
and no send is answered twice, or after it was cancelled. -/
theorem consistent_of_run (h : Run Init Trans hist s) : Consistent hist s := by
  obtain ⟨L, hL⟩ := agrees_of_run h
  have hinv := hL.inv
  have hans : ∀ later t a earlier, hist = later ++ (t, a) :: earlier →
      AnswersRight earlier t a := by
    rintro later t a earlier rfl
    obtain ⟨hr, t', ht, -⟩ := h.cut
    obtain ⟨L₀, hL₀⟩ := agrees_of_run hr
    obtain ⟨L₁, he⟩ := Trans.effect hL₀.inv ht
    exact hL₀.answersRight he
  refine ⟨?_, ?_, ?_, ?_, hans, ?_, ?_⟩
  · intro m
    refine ⟨L m, hinv.toLinked.queue_eq m, hinv.toLinked.head_eq m, fun n => ?_⟩
    rw [(hinv.repr.nodup m).count]
    simp only [hinv.mem_iff]
  · intro n hn
    rw [hinv.sending n hn]
    cases s.outNode n <;> simp
  · intro m hm hw
    rw [hinv.toLinked.queue_eq m, hinv.waiting m hm hw]
  · intro m hm hrep
    have hne := hinv.replying m hm hrep
    obtain ⟨n, hn⟩ := Option.ne_none_iff_exists'.mp (fun h => hne (List.head?_eq_none_iff.mp h))
    exact ⟨n, by rw [hinv.toLinked.head_eq, hn], by rw [← hL.received m hm hrep, hn]⟩
  · rintro n later ⟨t, a⟩ mid e earlier hh hn he
    obtain ⟨m, -, hp⟩ := (hans later t a _ hh).pending n hn
    by_contra hno
    push Not at hno
    rw [pendingSend_eq_none he hno] at hp
    simp at hp
  · intro op ha
    obtain ⟨s', calls, L', hrun, -⟩ := exists_effect hinv ha
    exact ⟨s', calls, ha, hrun⟩

/-- A call from node 0 to node 1, with a second request of node 2 waiting
behind it. -/
theorem consistent_of_run_call : ∃ (hist : List (IpcNodes (Fin 3) × IpcStep (Fin 3)))
    (s : IpcNodes (Fin 3)), Run Init Trans hist s ∧
      ((.reply 1, [.copyMsg 0 1, .sendRequestSucceeded 0]) ∈ hist.map Prod.snd ∧
        s.outNode 0 = none ∧ s.outNode 2 = some 1) ∧ Consistent hist s := by
  obtain ⟨hist, s, h, hp⟩ := IpcNodes.exists_run (Finset.univ : Finset (Fin 3))
    [.send 0 1 true, .wait 1, .send 2 1 false, .reply 1]
    (p := fun r => (.reply 1, [.copyMsg 0 1, .sendRequestSucceeded 0]) ∈ r.1.map Prod.snd ∧
      r.2.outNode 0 = none ∧ r.2.outNode 2 = some 1) (by decide)
  exact ⟨hist, s, h, hp, consistent_of_run h⟩

end IpcNodes

end Genode.Kernel
