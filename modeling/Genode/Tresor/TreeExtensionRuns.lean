import Genode.Lib.Run
import Genode.Tresor.TreeExtension

/-!
# TreeExtensionRuns — the extension of a tree over a whole run

From the moment an extension is at the head of the queue, its steps succeed
and add up to what the client asked for, as long as the number of blocks that
the client asked for stays within the unused ones.
-/

namespace Genode.Tresor.Extension

open Genode.Lib
open RequestPool (Pool SlotsIndex Channel Executes)
open SbControl (Control Answer)

/-- A superblock in state NORMAL and an extension at the head of the queue. -/
structure Begins (g : Target) (i : SlotsIndex) (s : System) : Prop where
  queue : ∃ rest, s.pool.indices.toList = i :: rest
  nodup : s.pool.indices.toList.Nodup
  accepted : ∀ j, j ∈ s.pool.indices.toList ↔ (s.pool.channels j).state.accepted = true
  waiting : ∀ j ∈ s.pool.indices.toList, (s.pool.channels j).state = .submitted
  submittable : ∀ j ∈ s.pool.indices.toList,
    (s.pool.channels j).request.operation.submittable = true
  operation : (s.pool.channels i).request.operation = g.tree.operation
  count : (s.pool.channels i).request.count = g.n
  idle : s.ctrl.chan.request.type = .invalid
  notStarted : g.NotStarted s.ctrl.sb
  pos : g.n ≠ 0
  room : ¬ nrOfUnusedPbas s.ctrl.sb < g.n

/-- The extension goes on, and the other modules do their part. -/
def Allowed (t : Tree) (i : SlotsIndex) (s : System) (e : Event) : Prop :=
  (s.pool.channels i).state ≠ .complete ∧
    match e with
    | .answer op a => Succeeds t s.ctrl op a
    | _ => True

instance (t : Tree) (c : Control) (op : SbControl.Op) (a : Answer) :
    Decidable (Succeeds t c op a) :=
  inferInstanceAs (Decidable (_ → _ ∧ (_ → _ ∧ _)))

instance (t : Tree) (i : SlotsIndex) (s : System) (e : Event) : Decidable (Allowed t i s e) :=
  match e with
  | .answer _ _ => inferInstanceAs (Decidable (_ ∧ Succeeds ..))
  | .submit _ => inferInstanceAs (Decidable (_ ∧ True))
  | .executePool => inferInstanceAs (Decidable (_ ∧ True))
  | .transfer => inferInstanceAs (Decidable (_ ∧ True))
  | .executeCtrl => inferInstanceAs (Decidable (_ ∧ True))
  | .giveBack => inferInstanceAs (Decidable (_ ∧ True))
  | .respond => inferInstanceAs (Decidable (_ ∧ True))

/-- The run of the system from the given state on, until the extension is
complete. -/
def IsRun (sha : Block → Hash) (t : Tree) (i : SlotsIndex) (s₀ : System)
    (hist : List (System × Event)) (s : System) : Prop :=
  Run (Eq s₀) (Guarded (Allowed t i) (System.step sha)) hist s

/-- What is to hold while a tree is extended. -/
structure Extends (g : Target) (i : SlotsIndex) (s : System) : Prop where
  succeeds : s.ctrl.chan.request.type = g.tree.reqType → s.ctrl.chan.state = .completed →
    s.ctrl.chan.request.success = true
  unused : s.ctrl.chan.request.type = g.tree.reqType → s.ctrl.chan.state = .completed →
    s.ctrl.chan.pba = s.ctrl.sb.firstPba + s.ctrl.sb.nrOfPbas
  total : s.ctrl.chan.request.type = g.tree.reqType → s.ctrl.chan.state = .completed →
    s.ctrl.sb.nrOfPbas + s.ctrl.sb.resizingNrOfPbas = g.base + g.n
  done : (s.pool.channels i).state = .complete → (s.pool.channels i).request.success = true ∧
    s.ctrl.sb.state = .normal ∧ s.ctrl.sb.firstPba = g.first ∧ s.ctrl.sb.nrOfPbas = g.base + g.n

/-! ## The invariant -/

/-- The pool while the extension is in its queue: what is before it may be
preponed, and only the head of the queue is worked on. -/
structure InPool (g : Target) (i : SlotsIndex) (p : Pool) : Prop where
  queue : ∃ ahead behind, p.indices.toList = ahead ++ i :: behind ∧
    ∀ j ∈ ahead, (p.channels j).request.operation.preponable = true
  nodup : p.indices.toList.Nodup
  accepted : ∀ j, j ∈ p.indices.toList ↔ (p.channels j).state.accepted = true
  waiting : ∀ j ∈ p.indices.toList.tail,
    (p.channels j).state = if j = i then .preponeRequestsPending else .submitted
  submittable : ∀ j ∈ p.indices.toList, (p.channels j).request.operation.submittable = true
  operation : (p.channels i).request.operation = g.tree.operation
  count : (p.channels i).request.count = g.n
  asking : ∀ j type, p.indices.toList.head? = some j → (p.channels j).state.requestType = some type →
    (p.channels j).request.operation.asksFor type = true

/-- How far the extension is. -/
def Phase (g : Target) (chan : Channel) (c : Control) : Prop :=
  match chan.state with
  | .submitted => g.NotStarted c.sb
  | .vbdExtensionStepPending => g.NotStarted c.sb ∨ g.Running c.sb
  | .ftExtensionStepPending => g.NotStarted c.sb ∨ g.Running c.sb
  | .inProgress .treeExtensionStep => g.Working c
  | .done .treeExtensionStep =>
      chan.prim.succ = true ∧ g.Stepped c.sb chan.requestFinished
  | .preponeRequestsPending => g.Running c.sb
  | .preponeRequestsComplete => g.Running c.sb
  | .complete => chan.request.success = true ∧ g.Finished c.sb
  | _ => False

/-- The superblock control works for the head of the queue, or not at all. -/
structure Linked (g : Target) (i : SlotsIndex) (s : System) : Prop where
  idle : s.ctrl.chan.request.type = .invalid → ∀ j ∈ s.pool.indices.toList,
    ∀ op, (s.pool.channels j).state ≠ .inProgress op
  busy : s.ctrl.chan.request.type ≠ .invalid →
    s.pool.indices.toList.head? = some s.src ∧
      (∃ op, (s.pool.channels s.src).state = .inProgress op) ∧
      (s.src = i → s.ctrl.chan.request.type = g.tree.reqType) ∧
      (s.src ≠ i → quickType s.ctrl.chan.request.type = true)

structure Inv (g : Target) (i : SlotsIndex) (s : System) : Prop where
  pool : (s.pool.channels i).state ≠ .complete → InPool g i s.pool
  linked : (s.pool.channels i).state ≠ .complete → Linked g i s
  idle : (s.pool.channels i).state = .complete → s.ctrl.chan.request.type = .invalid
  phase : Phase g (s.pool.channels i) s.ctrl

section Pool

variable {g : Target} {i j : SlotsIndex} {p p' : Pool} {chan : Channel} {s s' : System}
  {ahead behind rest : List SlotsIndex}

theorem InPool.mem (h : InPool g i p) : i ∈ p.indices.toList := by
  obtain ⟨ahead, behind, hq, _⟩ := h.queue
  rw [hq]
  simp

/-- A channel at the head other than that of the extension has a request that
was preponed. -/
theorem InPool.preponable (h : InPool g i p) (hq : p.indices.toList = j :: rest) (hji : j ≠ i) :
    (p.channels j).request.operation.preponable = true := by
  obtain ⟨ahead, behind, hlist, hahead⟩ := h.queue
  cases ahead with
  | nil =>
    rw [hq] at hlist
    exact absurd (List.cons.inj hlist).1 hji
  | cons a ahead =>
    rw [hq] at hlist
    obtain ⟨rfl, -⟩ := List.cons.inj hlist
    exact hahead j List.mem_cons_self

/-- A change of the channel at the head. -/
theorem InPool.update (h : InPool g i p) (hq : p.indices.toList = j :: rest)
    (hacc : chan.state.accepted = true)
    (hop : chan.request.operation = (p.channels j).request.operation)
    (hcount : j = i → chan.request.count = (p.channels j).request.count)
    (hask : ∀ type, chan.state.requestType = some type →
      (p.channels j).request.operation.asksFor type = true) : InPool g i (p.update j chan) := by
  have hlist : (p.update j chan).indices.toList = p.indices.toList := rfl
  have hself : (p.update j chan).channels j = chan := RequestPool.channels_update_self
  have hother : ∀ k, k ≠ j → (p.update j chan).channels k = p.channels k := fun k hk =>
    RequestPool.channels_update_of_ne hk
  have hoper : ∀ k, ((p.update j chan).channels k).request.operation =
      (p.channels k).request.operation := by
    intro k
    by_cases hk : k = j
    · rw [hk, hself, hop]
    · rw [hother k hk]
  have hnodup := h.nodup
  rw [hq, List.nodup_cons] at hnodup
  obtain ⟨ahead, behind, hab, hahead⟩ := h.queue
  refine ⟨⟨ahead, behind, hab, fun k hk => ?_⟩, h.nodup, fun k => ?_, fun k hk => ?_,
    fun k hk => ?_, ?_, ?_, fun k type hk htype => ?_⟩
  · rw [hoper]
    exact hahead k hk
  · rw [hlist]
    by_cases hk : k = j
    · rw [hk, hself, hacc, hq]
      simp
    · rw [hother k hk]
      exact h.accepted k
  · rw [hlist] at hk
    have hkj : k ≠ j := by
      rintro rfl
      rw [hq] at hk
      exact hnodup.1 hk
    rw [hother k hkj]
    exact h.waiting k hk
  · rw [hoper]
    exact h.submittable k hk
  · rw [hoper]
    exact h.operation
  · by_cases hk : i = j
    · rw [hk, hself, hcount hk.symm, ← hk]
      exact h.count
    · rw [hother i hk]
      exact h.count
  · rw [hlist, hq] at hk
    obtain rfl : j = k := Option.some.inj hk
    rw [hself] at htype
    rw [hoper]
    exact hask type htype

/-- The head of the queue that is not the extension leaves it. -/
theorem InPool.dequeue (h : InPool g i p) (hq : p.indices.toList = j :: rest) (hji : j ≠ i)
    (hacc : chan.state.accepted = false) (hlist : p'.indices.toList = rest)
    (hchan : p'.channels = (p.update j chan).channels) : InPool g i p' := by
  have hother : ∀ k, k ≠ j → p'.channels k = p.channels k := fun k hk => by
    rw [hchan, RequestPool.channels_update_of_ne hk]
  have hnodup := h.nodup
  rw [hq, List.nodup_cons] at hnodup
  have hne : ∀ k ∈ rest, k ≠ j := fun k hk hkj => hnodup.1 (hkj ▸ hk)
  have hmem : ∀ k ∈ rest, k ∈ p.indices.toList := fun k hk => by
    rw [hq]
    exact List.mem_cons_of_mem _ hk
  have hstate : ∀ k ∈ rest, (p.channels k).state =
      if k = i then .preponeRequestsPending else .submitted := fun k hk =>
    h.waiting k (by rw [hq]; exact hk)
  refine ⟨?_, ?_, fun k => ?_, fun k hk => ?_, fun k hk => ?_, ?_, ?_, fun k type hk htype => ?_⟩
  · obtain ⟨ahead, behind, hab, hahead⟩ := h.queue
    cases ahead with
    | nil =>
      rw [hq] at hab
      exact absurd (List.cons.inj hab).1 hji
    | cons a ahead =>
      rw [hq] at hab
      obtain ⟨rfl, hrest⟩ := List.cons.inj hab
      refine ⟨ahead, behind, hlist.trans hrest, fun k hk => ?_⟩
      rw [hother k (hne k (by rw [hrest]; exact List.mem_append_left _ hk))]
      exact hahead k (List.mem_cons_of_mem _ hk)
  · rw [hlist]
    exact hnodup.2
  · rw [hlist]
    by_cases hk : k = j
    · rw [hk, hchan, RequestPool.channels_update_self, hacc]
      simp [hnodup.1]
    · rw [hother k hk, ← h.accepted k, hq]
      simp [hk]
  · rw [hlist] at hk
    have hk' := List.mem_of_mem_tail hk
    rw [hother k (hne k hk')]
    exact hstate k hk'
  · rw [hlist] at hk
    rw [hother k (hne k hk)]
    exact h.submittable k (hmem k hk)
  · rw [hother i hji.symm]
    exact h.operation
  · rw [hother i hji.symm]
    exact h.count
  · have hk' : k ∈ rest := by
      rw [hlist] at hk
      exact List.mem_of_mem_head? hk
    rw [hother k (hne k hk'), hstate k hk'] at htype
    split at htype <;> cases htype

/-- A new request goes to the end of the queue. -/
theorem InPool.submit (h : InPool g i p) (hfree : (p.channels j).state = .invalid)
    (hchan : p'.channels = (p.update j chan).channels)
    (hlist : p'.indices.toList = p.indices.toList ++ [j]) (hs : chan.state = .submitted)
    (hop : chan.request.operation.submittable = true) : InPool g i p' ∧ j ≠ i := by
  have hj : j ∉ p.indices.toList := by
    rw [h.accepted, hfree]
    exact Bool.false_ne_true
  have hne : ∀ k ∈ p.indices.toList, k ≠ j := fun k hk hkj => hj (hkj ▸ hk)
  have hji : j ≠ i := fun hh => hj (hh ▸ h.mem)
  have hself : p'.channels j = chan := by rw [hchan, RequestPool.channels_update_self]
  have hother : ∀ k, k ≠ j → p'.channels k = p.channels k := fun k hk => by
    rw [hchan, RequestPool.channels_update_of_ne hk]
  obtain ⟨ahead, behind, hab, hahead⟩ := h.queue
  have hhead : p'.indices.toList.head? = p.indices.toList.head? := by
    rw [hlist, hab]
    cases ahead <;> rfl
  have htail : p'.indices.toList.tail = p.indices.toList.tail ++ [j] := by
    rw [hlist, hab]
    cases ahead <;> rfl
  refine ⟨⟨⟨ahead, behind ++ [j], ?_, fun k hk => ?_⟩, ?_, fun k => ?_, fun k hk => ?_,
    fun k hk => ?_, ?_, ?_, fun k type hk htype => ?_⟩, hji⟩
  · rw [hlist, hab, List.append_assoc]
    rfl
  · rw [hother k (hne k (by rw [hab]; exact List.mem_append_left _ hk))]
    exact hahead k hk
  · rw [hlist]
    exact List.nodup_append.mpr ⟨h.nodup, List.nodup_singleton j, fun a ha b hb =>
      List.mem_singleton.mp hb ▸ hne a ha⟩
  · rw [hlist, List.mem_append, List.mem_singleton]
    by_cases hk : k = j
    · rw [hk, hself, hs]
      simp [RequestPool.State.accepted]
    · rw [hother k hk, ← h.accepted k]
      simp [hk]
  · rw [htail, List.mem_append, List.mem_singleton] at hk
    rcases hk with hk | rfl
    · rw [hother k (hne k (List.mem_of_mem_tail hk))]
      exact h.waiting k hk
    · rw [hself, hs, if_neg hji]
  · rw [hlist, List.mem_append, List.mem_singleton] at hk
    rcases hk with hk | rfl
    · rw [hother k (hne k hk)]
      exact h.submittable k hk
    · rw [hself]
      exact hop
  · rw [hother i hji.symm]
    exact h.operation
  · rw [hother i hji.symm]
    exact h.count
  · rw [hhead] at hk
    rw [hother k (hne k (List.mem_of_mem_head? hk))] at htype ⊢
    exact h.asking k type hk htype

/-- A request goes back to its client. -/
theorem InPool.respond (h : InPool g i p) (hs : (p.channels j).state = .complete) (hji : j ≠ i) :
    InPool g i (p.update j {}) := by
  have hj : j ∉ p.indices.toList := by
    rw [h.accepted, hs]
    exact Bool.false_ne_true
  have hne : ∀ k ∈ p.indices.toList, k ≠ j := fun k hk hkj => hj (hkj ▸ hk)
  have hother : ∀ k, k ≠ j → (p.update j {}).channels k = p.channels k := fun k hk =>
    RequestPool.channels_update_of_ne hk
  obtain ⟨ahead, behind, hab, hahead⟩ := h.queue
  refine ⟨⟨ahead, behind, hab, fun k hk => ?_⟩, h.nodup, fun k => ?_, fun k hk => ?_,
    fun k hk => ?_, ?_, ?_, fun k type hk htype => ?_⟩
  · rw [hother k (hne k (by rw [hab]; exact List.mem_append_left _ hk))]
    exact hahead k hk
  · by_cases hk : k = j
    · rw [hk, RequestPool.channels_update_self]
      exact ⟨fun hh => absurd hh hj, fun hh => by cases hh⟩
    · rw [hother k hk]
      exact h.accepted k
  · rw [hother k (hne k (List.mem_of_mem_tail hk))]
    exact h.waiting k hk
  · rw [hother k (hne k hk)]
    exact h.submittable k hk
  · rw [hother i hji.symm]
    exact h.operation
  · rw [hother i hji.symm]
    exact h.count
  · rw [hother k (hne k (List.mem_of_mem_head? hk))] at htype ⊢
    exact h.asking k type hk htype

/-- The extension gives way to other requests, or to none. -/
theorem InPool.preponeRequests (h : InPool g i p) (hq : p.indices.toList = i :: rest)
    (he : p.preponeRequests i = .ok p') (hs : (p.channels i).state = .preponeRequestsPending) :
    InPool g i p' ∧ (∀ k, k ≠ i → p'.channels k = p.channels k) ∧
      (∀ k, k ∈ p'.indices.toList ↔ k ∈ p.indices.toList) ∧
      ((p'.channels i).state = .preponeRequestsPending ∨
        (p'.channels i).state = .preponeRequestsComplete) := by
  have hnodup := h.nodup
  rw [hq, List.nodup_cons] at hnodup
  obtain ⟨moved, rest', q, hloop, hrest, hlist, _, hmoved⟩ := RequestPool.preponeLoop_spec p
    (RequestPool.maxNrOfRequestsPreponedAtATime - (p.channels i).nrOfRequestsPreponed)
    (show p.indices.toList = [] ++ i :: rest from hq) (by simp) hnodup.1
  rw [Pool.preponeRequests, hloop, Exec.ok_bind] at he
  let chan : Channel := { p.channels i with
    nrOfRequestsPreponed := (p.channels i).nrOfRequestsPreponed + moved.length }
  let chan' : Channel :=
    if moved.length = 0 then { chan with state := .preponeRequestsComplete } else chan
  have hp : p' = { p.update i chan' with indices := q } := (Except.ok.inj he).symm
  have hself : p'.channels i = chan' := by rw [hp]; exact RequestPool.channels_update_self
  have hother : ∀ k, k ≠ i → p'.channels k = p.channels k := fun k hk => by
    rw [hp]
    exact RequestPool.channels_update_of_ne hk
  have hlist' : p'.indices.toList = moved ++ i :: rest' := by rw [hp]; exact hlist
  have hstate : chan'.state = if moved = [] then .preponeRequestsComplete
      else .preponeRequestsPending := by
    cases hm : moved with
    | nil => simp [chan', hm]
    | cons m ms => simp [chan', chan, hm, hs]
  have hrequest : chan'.request = (p.channels i).request := by
    simp only [chan']
    split <;> rfl
  have hperm : (moved ++ i :: rest').Perm (i :: rest) := by
    rw [hrest]
    exact List.perm_middle
  have hmem : ∀ k, k ∈ p'.indices.toList ↔ k ∈ p.indices.toList := fun k => by
    rw [hlist', hq]
    exact hperm.mem_iff
  have hne : ∀ k ∈ moved ++ rest', k ≠ i := fun k hk hki => hnodup.1 (by rw [hrest, ← hki]; exact hk)
  have hacc : chan'.state.accepted = true := by
    rw [hstate]
    split <;> rfl
  have hwait : ∀ k ∈ moved ++ rest', (p.channels k).state = .submitted := fun k hk => by
    have hw := h.waiting k (by rw [hq, List.tail_cons, hrest]; exact hk)
    rwa [if_neg (hne k hk)] at hw
  have hoper : ∀ k, (p'.channels k).request = (p.channels k).request := by
    intro k
    by_cases hk : k = i
    · rw [hk, hself, hrequest]
    · rw [hother k hk]
  refine ⟨⟨⟨moved, rest', hlist', fun k hk => ?_⟩, ?_, fun k => ?_, fun k hk => ?_, fun k hk => ?_,
    ?_, ?_, fun k type hk htype => ?_⟩, hother, hmem, ?_⟩
  · rw [hoper]
    exact hmoved k hk
  · rw [hlist', hperm.nodup_iff, List.nodup_cons]
    exact hnodup
  · rw [hmem]
    by_cases hk : k = i
    · rw [hk, hself, hacc, hq]
      simp
    · rw [hother k hk]
      exact h.accepted k
  · rw [hlist'] at hk
    cases hm : moved with
    | nil =>
      rw [hm] at hk
      have hk' : k ∈ moved ++ rest' := by rw [hm]; exact hk
      rw [hother k (hne k hk'), hwait k hk', if_neg (hne k hk')]
    | cons m ms =>
      rw [hm, List.cons_append, List.tail_cons, List.mem_append, List.mem_cons] at hk
      by_cases hki : k = i
      · rw [hki, hself, hstate, hm, if_neg (List.cons_ne_nil m ms), if_pos rfl]
      · have hk' : k ∈ moved ++ rest' := by
          rw [hm, List.cons_append, List.mem_cons, List.mem_append]
          rcases hk with hk | hk | hk
          · exact .inr (.inl hk)
          · exact absurd hk hki
          · exact .inr (.inr hk)
        rw [hother k hki, hwait k hk', if_neg hki]
  · rw [hoper]
    exact h.submittable k ((hmem k).mp hk)
  · rw [hoper]
    exact h.operation
  · rw [hoper]
    exact h.count
  · rw [hlist'] at hk
    have hkmem : k ∈ moved ++ i :: rest' := List.mem_of_mem_head? hk
    by_cases hki : k = i
    · rw [hki, hself, hstate] at htype
      split at htype <;> cases htype
    · have hk' : k ∈ moved ++ rest' := by
        rw [List.mem_append, List.mem_cons] at hkmem
        rw [List.mem_append]
        rcases hkmem with hk | hk | hk
        · exact .inl hk
        · exact absurd hk hki
        · exact .inr hk
      rw [hother k hki, hwait k hk'] at htype
      cases htype
  · rw [hself, hstate]
    split
    · exact .inr rfl
    · exact .inl rfl

/-- The pool waits for the superblock control. -/
theorem execute_of_inProgress {op : RequestPool.Op} (hq : p.indices.toList = j :: rest)
    (hs : (p.channels j).state = .inProgress op) (he : p.execute = .ok p') : p' = p := by
  have hfirst : p.indices.first = .ok j := RequestPool.IndexQueue.first_eq_ok.mpr ⟨rest, hq⟩
  have hused : p.indices.used ≠ 0 := Nat.ne_of_gt (RequestPool.IndexQueue.used_pos_of_head hq)
  rw [Pool.execute, if_neg hused, hfirst, Exec.ok_bind] at he
  cases hop : (p.channels j).request.operation <;> rw [hop] at he <;>
    first
    | (cases he; rfl)
    | cases he
    | simp only [Pool.executeRead, Pool.executeWrite, Pool.executeVbas, Pool.executeSync,
        Pool.executeRekey, Pool.executeExtendTree, Pool.executeInitialize, Pool.executeDeinit,
        hs] at he
      cases he
      rfl

end Pool

/-! ## Steps -/

section Steps

variable {sha : Block → Hash} {g : Target} {i j : SlotsIndex} {p : Pool} {c : Control}
  {s s' : System} {rest : List SlotsIndex}

/-- A change of the size of the superblock is all that concerns the phase
while the superblock control does not work on the extension. -/
theorem Phase.of_sameSize {chan : Channel} {c c' : Control} (h : Phase g chan c)
    (hs : ∀ op, chan.state ≠ .inProgress op) (hsame : SameSize c c') : Phase g chan c' := by
  have hstart : g.NotStarted c.sb → g.NotStarted c'.sb := fun hh =>
    ⟨hsame.state.trans hh.state, hsame.first.trans hh.first, hsame.nr.trans hh.base⟩
  have hrun : g.Running c.sb → g.Running c'.sb := fun hh => Running.of_sameSize hh hsame
  have hfin : g.Finished c.sb → g.Finished c'.sb := fun hh =>
    ⟨hsame.state.trans hh.state, hsame.first.trans hh.first, hsame.nr.trans hh.total,
      hsame.left.trans hh.left⟩
  unfold Phase at h ⊢
  split at h
  · exact hstart h
  · exact h.imp hstart hrun
  · exact h.imp hstart hrun
  · rename_i hst
    exact absurd hst (hs _)
  · exact ⟨h.1, h.2.imp (And.imp_left hrun) (And.imp_left hfin)⟩
  · exact hrun h
  · exact hrun h
  · exact ⟨h.1, hfin h.2⟩
  · exact h.elim

/-- The channel of the extension is not in progress unless the superblock
control works on it. -/
theorem Linked.not_inProgress (h : Linked g i s) (hp : InPool g i s.pool)
    (hbusy : s.ctrl.chan.request.type ≠ .invalid → s.src ≠ i) :
    ∀ op, (s.pool.channels i).state ≠ .inProgress op := by
  intro op hs
  by_cases hty : s.ctrl.chan.request.type = .invalid
  · exact h.idle hty i hp.mem op hs
  · obtain ⟨hhead, _, _, _⟩ := h.busy hty
    have hne := hbusy hty
    have htail : i ∈ s.pool.indices.toList.tail := by
      have hmem := hp.mem
      cases hq : s.pool.indices.toList with
      | nil =>
        rw [hq] at hmem
        cases hmem
      | cons a rest =>
        rw [hq] at hmem hhead
        obtain rfl : a = s.src := Option.some.inj hhead
        exact (List.mem_cons.mp hmem).resolve_left hne.symm
    have hw := hp.waiting i htail
    rw [if_pos rfl, hs] at hw
    cases hw

/-- The pool executes another request than the extension. -/
theorem Inv.executeOther (h : Inv g i s) (hi : (s.pool.channels i).state ≠ .complete)
    (hq : s.pool.indices.toList = j :: rest) (hji : j ≠ i)
    (hidle : s.ctrl.chan.request.type = .invalid) (he : Executes s.pool j rest p) :
    Inv g i { s with pool := p } := by
  have hp := h.pool hi
  have hpre := hp.preponable hq hji
  have hlong := RequestPool.Operation.not_long_of_preponable hpre
  have hback : ∀ {p' : Pool}, p'.channels i = s.pool.channels i → InPool g i p' →
      (∀ k ∈ p'.indices.toList, ∀ op, (p'.channels k).state ≠ .inProgress op) →
      Inv g i { s with pool := p' } := by
    intro p' hsame hp' hidle'
    refine ⟨fun _ => hp', fun _ => ⟨fun _ => hidle', fun hb => absurd hidle hb⟩, fun hc => ?_, ?_⟩
    · exact absurd ((congrArg Channel.state hsame).symm.trans hc) hi
    · change Phase g (p'.channels i) s.ctrl
      rw [hsame]
      exact h.phase
  have hnot := (h.linked hi).idle hidle
  cases he with
  | waits => exact h
  | @asks chan type hreq hs htype =>
    have hacc := RequestPool.State.of_requestType (Option.isSome_of_eq_some hs)
    refine hback (RequestPool.channels_update_of_ne hji.symm) ?_ fun k hk op => ?_
    · refine hp.update hq hacc.2.1 hreq (fun hh => absurd hh hji) fun type' hs' => ?_
      obtain rfl : type = type' := Option.some.inj (hs.symm.trans hs')
      exact htype
    · by_cases hkj : k = j
      · rw [hkj, RequestPool.channels_update_self]
        intro hh
        rw [hh] at hs
        cases hs
      · rw [RequestPool.channels_update_of_ne hkj]
        exact hnot k hk op
  | begins _ hl => exact absurd (hlong.symm.trans hl) Bool.false_ne_true
  | prepones _ hl => exact absurd (hlong.symm.trans hl) Bool.false_ne_true
  | @finishes p' chan hacc hs hlist hchan =>
    have hp' := hp.dequeue hq hji hacc hlist hchan
    refine hback (by rw [hchan, RequestPool.channels_update_of_ne hji.symm]) hp' fun k hk op => ?_
    have hnodup := hp.nodup
    rw [hq, List.nodup_cons] at hnodup
    rw [hlist] at hk
    have hkj : k ≠ j := fun hh => hnodup.1 (hh ▸ hk)
    rw [hchan, RequestPool.channels_update_of_ne hkj]
    exact hnot k (by rw [hq]; exact List.mem_cons_of_mem _ hk) op
  | fails hf =>
    obtain ⟨k, hk, ho, _⟩ := hf
    rw [hq] at hk
    obtain rfl : j = k := Option.some.inj hk
    rcases ho with ho | ho <;> rw [ho] at hpre <;> cases hpre

theorem execute_extension (hq : s.pool.indices.toList = i :: rest)
    (hop : (s.pool.channels i).request.operation = g.tree.operation) :
    s.pool.execute = s.pool.executeExtendTree i g.tree.pendingState := by
  have hfirst : s.pool.indices.first = .ok i :=
    RequestPool.IndexQueue.first_eq_ok.mpr ⟨rest, hq⟩
  have hused : s.pool.indices.used ≠ 0 :=
    Nat.ne_of_gt (RequestPool.IndexQueue.used_pos_of_head hq)
  rw [Pool.execute, if_neg hused, hfirst, Exec.ok_bind, hop]
  cases g.tree <;> rfl

/-- The pool executes the extension. -/
theorem Inv.executeSelf (h : Inv g i s) (hi : (s.pool.channels i).state ≠ .complete)
    (hq : s.pool.indices.toList = i :: rest) (hidle : s.ctrl.chan.request.type = .invalid)
    (he : s.pool.execute = .ok p) : Inv g i { s with pool := p } := by
  have hp := h.pool hi
  have hnot := (h.linked hi).idle hidle
  have hphase := h.phase
  have hback : ∀ {p' : Pool}, InPool g i p' → (∀ k, k ≠ i → p'.channels k = s.pool.channels k) →
      (∀ k, k ∈ p'.indices.toList ↔ k ∈ s.pool.indices.toList) →
      (∀ op, (p'.channels i).state ≠ .inProgress op) → Phase g (p'.channels i) s.ctrl →
      (p'.channels i).state ≠ .complete → Inv g i { s with pool := p' } := by
    intro p' hp' hother hmem hself hph hc
    refine ⟨fun _ => hp', fun _ => ⟨fun _ k hk op => ?_, fun hb => absurd hidle hb⟩,
      fun hh => absurd hh hc, hph⟩
    change k ∈ p'.indices.toList at hk
    change (p'.channels k).state ≠ _
    by_cases hki : k = i
    · rw [hki]
      exact hself op
    · rw [hother k hki]
      exact hnot k ((hmem k).mp hk) op
  -- a change of the channel only
  have hupdate : ∀ {chan : Channel}, chan.state.accepted = true →
      chan.request = (s.pool.channels i).request →
      (∀ type, chan.state.requestType = some type → g.tree.operation.asksFor type = true) →
      (∀ op, chan.state ≠ .inProgress op) → Phase g chan s.ctrl →
      Inv g i { s with pool := s.pool.update i chan } := by
    intro chan hacc hreq hask hself hph
    have hchan : (s.pool.update i chan).channels i = chan := RequestPool.channels_update_self
    have hp' : InPool g i (s.pool.update i chan) := by
      refine hp.update hq hacc (by rw [hreq]) (fun _ => by rw [hreq]) fun type htype => ?_
      rw [hp.operation]
      exact hask type htype
    refine hback hp' (fun k hk => RequestPool.channels_update_of_ne hk) (fun _ => Iff.rfl) ?_ ?_ ?_
    · rw [hchan]
      exact hself
    · rw [hchan]
      exact hph
    · rw [hchan]
      intro hh
      rw [hh] at hacc
      cases hacc
  let asking := (s.pool.channels i).generate g.tree.pendingState 0
  have hask : (g.NotStarted s.ctrl.sb ∨ g.Running s.ctrl.sb) →
      Inv g i { s with pool := s.pool.update i asking } := by
    intro hph
    refine hupdate ?_ rfl ?_ ?_ ?_
    · change g.tree.pendingState.accepted = true
      cases g.tree <;> rfl
    · intro type htype
      change g.tree.pendingState.requestType = some type at htype
      cases hg : g.tree <;> rw [hg] at htype <;> cases htype <;> rfl
    · intro op
      change g.tree.pendingState ≠ .inProgress op
      cases g.tree <;> exact nofun
    · have hstate : asking.state = g.tree.pendingState := rfl
      rw [Phase, hstate]
      cases g.tree <;> exact hph
  rw [execute_extension hq hp.operation] at he
  unfold Pool.executeExtendTree at he
  dsimp only at he
  split at he
  · rename_i hs
    cases he
    rw [Phase, hs] at hphase
    exact hask (.inl hphase)
  · rename_i hs
    rw [Phase, hs] at hphase
    obtain ⟨hsucc, hst⟩ := hphase
    rw [hsucc, Bool.not_true, if_neg Bool.false_ne_true] at he
    split at he
    · rename_i hfin
      rcases hst with ⟨_, hf⟩ | ⟨hdone, _⟩
      · exact absurd (hf.symm.trans hfin) Bool.false_ne_true
      · obtain ⟨q, _, hpool⟩ := Exec.bind_eq_ok.mp he
        cases hpool
        have hchan : (s.pool.update i ((s.pool.channels i).finish true)).channels i =
            (s.pool.channels i).finish true := RequestPool.channels_update_self
        refine ⟨fun hc => absurd ?_ hc, fun hc => absurd ?_ hc, fun _ => hidle, ?_⟩
        · exact congrArg Channel.state hchan
        · exact congrArg Channel.state hchan
        · change Phase g ((s.pool.update i ((s.pool.channels i).finish true)).channels i) s.ctrl
          rw [hchan]
          exact ⟨rfl, hdone⟩
    · rename_i hfin
      cases he
      refine hupdate rfl rfl (fun _ hh => by cases hh) (fun _ => nofun) ?_
      rcases hst with ⟨hrun, _⟩ | ⟨_, hf⟩
      · exact hrun
      · exact absurd hf hfin
  · rename_i hs
    rw [Phase, hs] at hphase
    obtain ⟨hp', hother, hmem, hstate⟩ := hp.preponeRequests hq he hs
    refine hback hp' hother hmem ?_ ?_ ?_
    · intro op hh
      rcases hstate with hst | hst <;> rw [hh] at hst <;> cases hst
    · unfold Phase
      rcases hstate with hst | hst <;> rw [hst] <;> exact hphase
    · intro hh
      rcases hstate with hst | hst <;> rw [hh] at hst <;> cases hst
  · rename_i hs
    cases he
    rw [Phase, hs] at hphase
    exact hask (.inr hphase)
  · cases he
    exact h

theorem Inv.executePool (h : Inv g i s) (hi : (s.pool.channels i).state ≠ .complete)
    (he : s.pool.execute = .ok p) : Inv g i { s with pool := p } := by
  have hp := h.pool hi
  cases hq : s.pool.indices.toList with
  | nil =>
    have hmem := hp.mem
    rw [hq] at hmem
    cases hmem
  | cons j rest =>
    by_cases hidle : s.ctrl.chan.request.type = .invalid
    · by_cases hji : j = i
      · rw [hji] at hq
        exact h.executeSelf hi hq hidle he
      · have hnodup := hp.nodup
        have hsub := hp.submittable j (by rw [hq]; exact List.mem_cons_self)
        rw [hq, List.nodup_cons] at hnodup
        exact h.executeOther hi hq hji hidle (.of_execute hq hnodup.1 (.inl hsub) he)
    · obtain ⟨hhead, ⟨op, hs⟩, _⟩ := (h.linked hi).busy hidle
      rw [hq] at hhead
      obtain rfl : j = s.src := Option.some.inj hhead
      rw [execute_of_inProgress hq hs he]
      exact h

/-- The generated request of the pool. -/
theorem peekGeneratedRequest_eq {req : SbControl.Request}
    (h : s.pool.peekGeneratedRequest = some (j, req)) :
    s.pool.indices.toList.head? = some j ∧
      (s.pool.channels j).state.requestType = some req.type ∧
      req.nrOfBlks = (s.pool.channels j).request.count ∧ req.requestFinished = false := by
  unfold Pool.peekGeneratedRequest at h
  split at h
  · cases h
  · rename_i hused
    obtain ⟨type, htype, hreq⟩ := Option.map_eq_some_iff.mp h
    cases hreq
    refine ⟨?_, htype, rfl, rfl⟩
    rw [s.pool.indices.toList_pop (Nat.pos_of_ne_zero hused)]
    rfl

/-- A channel whose request was taken is in progress. -/
theorem dropGeneratedRequest_eq (h : s.pool.dropGeneratedRequest j = .ok p) :
    ∃ op, p = s.pool.update j { s.pool.channels j with state := .inProgress op } ∧
      ((s.pool.channels j).state = .vbdExtensionStepPending ∨
        (s.pool.channels j).state = .ftExtensionStepPending → op = .treeExtensionStep) := by
  unfold Pool.dropGeneratedRequest at h
  dsimp only at h
  split at h
  · cases h
    exact ⟨_, rfl, fun _ => rfl⟩
  · cases h
    exact ⟨_, rfl, fun _ => rfl⟩
  · rename_i op hst
    cases h
    refine ⟨op, rfl, fun hh => ?_⟩
    rcases hh with hh | hh <;> rw [hst] at hh <;> cases hh
  · cases h

theorem quickType_of_asksFor {op : RequestPool.Operation} {type : SbControl.ReqType}
    (hpre : op.preponable = true) (h : op.asksFor type = true) : quickType type = true := by
  revert hpre h
  cases op <;> cases type <;> decide

theorem reqType_of_asksFor {t : Tree} {type : SbControl.ReqType}
    (h : t.operation.asksFor type = true) : type = t.reqType := by
  cases t <;> cases type <;> first | rfl | cases h

theorem ne_invalid_of_asksFor {op : RequestPool.Operation} {type : SbControl.ReqType}
    (h : op.asksFor type = true) : type ≠ .invalid := by
  rintro rfl
  cases op <;> cases h

/-- The superblock control gets the request of the head of the queue. -/
theorem Inv.transfer (h : Inv g i s) (hi : (s.pool.channels i).state ≠ .complete)
    (hidle : s.ctrl.chan.request.type = .invalid) {req : SbControl.Request}
    (hpeek : s.pool.peekGeneratedRequest = some (j, req))
    (he : s.pool.dropGeneratedRequest j = .ok p) :
    Inv g i { pool := p, ctrl := s.ctrl.submitRequest req, src := j } := by
  have hp := h.pool hi
  have hphase := h.phase
  obtain ⟨hhead, htype, hblks, hfin⟩ := peekGeneratedRequest_eq hpeek
  obtain ⟨rest, hq⟩ := List.head?_eq_some_iff.mp hhead
  have hask := hp.asking j req.type hhead htype
  obtain ⟨op, hpool, hop⟩ := dropGeneratedRequest_eq he
  let chan : Channel := { s.pool.channels j with state := .inProgress op }
  obtain rfl : p = s.pool.update j chan := hpool
  have hself : (s.pool.update j chan).channels j = chan := RequestPool.channels_update_self
  have hp' : InPool g i (s.pool.update j chan) :=
    hp.update hq rfl rfl (fun _ => rfl) fun _ hh => by cases hh
  have hbusy : Linked g i ⟨s.pool.update j chan, s.ctrl.submitRequest req, j⟩ := by
    refine ⟨fun hh => absurd hh (ne_invalid_of_asksFor hask), fun _ => ⟨hhead, ⟨op, ?_⟩, ?_, ?_⟩⟩
    · exact congrArg Channel.state hself
    · intro hji
      change j = i at hji
      rw [hji, hp.operation] at hask
      exact reqType_of_asksFor hask
    · exact fun hji => quickType_of_asksFor (hp.preponable hq hji) hask
  have hnot : ((s.pool.update j chan).channels i).state ≠ .complete := by
    by_cases hji : i = j
    · rw [hji, hself]
      exact nofun
    · rw [RequestPool.channels_update_of_ne hji]
      exact hi
  refine ⟨fun _ => hp', fun _ => hbusy, fun hh => absurd hh hnot, ?_⟩
  change Phase g ((s.pool.update j chan).channels i) (s.ctrl.submitRequest req)
  by_cases hji : i = j
  · rw [hji, hself]
    rw [hji] at hphase
    -- the request is a step of the extension
    have hpend : (s.pool.channels j).state = .vbdExtensionStepPending ∨
        (s.pool.channels j).state = .ftExtensionStepPending := by
      unfold Phase at hphase
      split at hphase
      case h_2 hs => exact .inl hs
      case h_3 hs => exact .inr hs
      case h_9 => exact hphase.elim
      all_goals
        rename_i hs
        rw [hs] at htype
        cases htype
    obtain rfl := hop hpend
    have hstart : g.NotStarted s.ctrl.sb ∨ g.Running s.ctrl.sb := by
      rcases hpend with hs | hs <;> rw [Phase, hs] at hphase <;> exact hphase
    refine ⟨hstart, ?_, hfin⟩
    change req.nrOfBlks = g.n
    rw [hblks, ← hji, hp.count]
  · rw [RequestPool.channels_update_of_ne hji]
    have hnip := (h.linked hi).not_inProgress hp fun hh => absurd hidle hh
    unfold Phase at hphase ⊢
    split at hphase
    case h_4 hs => exact absurd hs (hnip _)
    all_goals exact hphase

theorem reqType_ne_invalid (t : Tree) : t.reqType ≠ .invalid := by cases t <;> exact nofun

/-- The superblock control works on a step of the extension. -/
theorem Inv.working (h : Inv g i s) (hi : (s.pool.channels i).state ≠ .complete)
    (hty : s.ctrl.chan.request.type = g.tree.reqType) :
    ∃ op, (s.pool.channels i).state = .inProgress op ∧ op = .treeExtensionStep ∧
      g.Working s.ctrl := by
  have hphase := h.phase
  obtain ⟨_, ⟨op, hs⟩, _, hquick⟩ := (h.linked hi).busy (hty ▸ reqType_ne_invalid g.tree)
  have hsrc : s.src = i := by
    by_contra hsrc
    have hq := hquick hsrc
    rw [hty] at hq
    cases hg : g.tree <;> rw [hg] at hq <;> cases hq
  rw [hsrc] at hs
  rw [Phase, hs] at hphase
  cases op with
  | treeExtensionStep => exact ⟨_, hs, rfl, hphase⟩
  | _ => exact hphase.elim

/-- The superblock control executes or gets an answer. -/
theorem Inv.control (h : Inv g i s) (hi : (s.pool.channels i).state ≠ .complete)
    (htype : c.chan.request.type = s.ctrl.chan.request.type)
    (hwork : s.ctrl.chan.request.type = g.tree.reqType → g.Working s.ctrl → g.Working c)
    (hother : s.ctrl.chan.request.type ≠ g.tree.reqType → SameSize s.ctrl c) :
    Inv g i { s with ctrl := c } := by
  have hlinked := h.linked hi
  have hp := h.pool hi
  have hphase := h.phase
  refine ⟨h.pool, fun hc => ⟨fun hh => ?_, fun hh => ?_⟩, fun hh => absurd hh hi, ?_⟩
  · exact hlinked.idle (htype.symm.trans hh)
  · have hbusy := hlinked.busy fun hh' => hh (htype.trans hh')
    refine ⟨hbusy.1, hbusy.2.1, fun hsrc => ?_, fun hsrc => ?_⟩
    · exact htype.trans (hbusy.2.2.1 hsrc)
    · change quickType c.chan.request.type = true
      rw [htype]
      exact hbusy.2.2.2 hsrc
  · change Phase g (s.pool.channels i) c
    by_cases hty : s.ctrl.chan.request.type = g.tree.reqType
    · obtain ⟨op, hs, rfl, hw⟩ := h.working hi hty
      rw [Phase, hs]
      exact hwork hty hw
    · have hnip := hlinked.not_inProgress hp fun hne hsrc => hty ((hlinked.busy hne).2.2.1 hsrc)
      exact hphase.of_sameSize hnip (hother hty)

theorem channelOfId_ofNat (j : SlotsIndex) : Pool.channelOfId (UInt64.ofNat j.val) = .ok j := by
  have hj : j.val < 16 := j.isLt
  have hval : (UInt64.ofNat j.val).toNat = j.val := by
    rw [UInt64.toNat_ofNat', Nat.mod_eq_of_lt (by omega)]
  rw [Pool.channelOfId, dif_pos (by rw [hval]; exact j.isLt)]
  exact congrArg Except.ok (Fin.ext hval)

/-- What an answer changes in the pool. -/
theorem generatedRequestComplete_eq {op : RequestPool.Op} {req : SbControl.Request}
    (hs : (s.pool.channels j).state = .inProgress op)
    (h : s.pool.generatedRequestComplete (UInt64.ofNat j.val) req = .ok p) :
    ∃ chan : Channel, p = s.pool.update j chan ∧ chan.state = .done op ∧
      chan.request = (s.pool.channels j).request ∧ chan.prim.succ = req.success ∧
      (op = .treeExtensionStep → chan.requestFinished = req.requestFinished) := by
  rw [Pool.generatedRequestComplete, channelOfId_ofNat, Exec.ok_bind] at h
  dsimp only at h
  split at h
  · rename_i op' hs'
    obtain rfl : op' = op := RequestPool.State.inProgress.inj (hs'.symm.trans hs)
    cases op' <;> cases h <;> exact ⟨_, rfl, rfl, rfl, rfl, fun hh => by cases hh <;> rfl⟩
  · rename_i hne
    exact absurd hs (hne op)

/-- A completed request goes back to the pool. -/
theorem Inv.giveBack (h : Inv g i s) (hi : (s.pool.channels i).state ≠ .complete)
    (hty : s.ctrl.chan.request.type ≠ .invalid) (hs : s.ctrl.chan.state = .completed)
    (he : s.pool.generatedRequestComplete (UInt64.ofNat s.src.val) s.ctrl.chan.request = .ok p) :
    Inv g i { s with pool := p, ctrl := s.ctrl.dropCompletedRequest } := by
  have hp := h.pool hi
  have hphase := h.phase
  obtain ⟨hhead, ⟨op, hsrc⟩, hself, hquick⟩ := (h.linked hi).busy hty
  obtain ⟨rest, hq⟩ := List.head?_eq_some_iff.mp hhead
  obtain ⟨chan, rfl, hstate, hrequest, hsucc, hfin⟩ := generatedRequestComplete_eq hsrc he
  have hchan : (s.pool.update s.src chan).channels s.src = chan :=
    RequestPool.channels_update_self
  have hp' : InPool g i (s.pool.update s.src chan) := by
    refine hp.update hq (by rw [hstate]; rfl) (by rw [hrequest]) (fun _ => by rw [hrequest])
      fun type hh => ?_
    rw [hstate] at hh
    cases hh
  have hnot : ((s.pool.update s.src chan).channels i).state ≠ .complete := by
    by_cases hsi : i = s.src
    · rw [hsi, hchan, hstate]
      exact nofun
    · rw [RequestPool.channels_update_of_ne hsi]
      exact hi
  refine ⟨fun _ => hp', fun _ => ⟨fun _ k hk op' => ?_, fun hh => absurd rfl hh⟩,
    fun hh => absurd hh hnot, ?_⟩
  · change ((s.pool.update s.src chan).channels k).state ≠ _
    by_cases hks : k = s.src
    · rw [hks, hchan, hstate]
      exact nofun
    · have hktail : k ∈ s.pool.indices.toList.tail := by
        change k ∈ s.pool.indices.toList at hk
        rw [hq] at hk ⊢
        exact (List.mem_cons.mp hk).resolve_left hks
      rw [RequestPool.channels_update_of_ne hks, hp.waiting k hktail]
      split <;> exact nofun
  · change Phase g ((s.pool.update s.src chan).channels i) s.ctrl.dropCompletedRequest
    by_cases hsi : i = s.src
    · rw [hsi, Phase, hsrc] at hphase
      rw [hsi, hchan, Phase, hstate]
      cases op with
      | treeExtensionStep =>
        change g.Working s.ctrl at hphase
        rw [Target.Working, hs] at hphase
        obtain ⟨hok, hst, _⟩ := hphase
        exact ⟨hsucc.trans hok, by rw [hfin rfl]; exact hst⟩
      | _ => exact hphase.elim
    · rw [RequestPool.channels_update_of_ne hsi]
      have hnip := (h.linked hi).not_inProgress hp fun _ hh => hsi hh.symm
      unfold Phase at hphase ⊢
      split at hphase
      case h_4 hs => exact absurd hs (hnip _)
      all_goals exact hphase

theorem Inv.submit (h : Inv g i s) (hi : (s.pool.channels i).state ≠ .complete)
    {req : RequestPool.Request} (he : s.pool.submitRequest req = .ok p) :
    Inv g i { s with pool := p } := by
  obtain ⟨j, chan, _, hfree, hop, hchan, hlist, hs, hreq⟩ := RequestPool.submitRequest_eq_ok he
  have hp := h.pool hi
  obtain ⟨hp', hji⟩ := hp.submit hfree hchan hlist hs (by rw [hreq]; exact hop)
  have hother : ∀ k, k ≠ j → p.channels k = s.pool.channels k := fun k hk => by
    rw [hchan, RequestPool.channels_update_of_ne hk]
  have hself : p.channels j = chan := by rw [hchan, RequestPool.channels_update_self]
  have hlinked := h.linked hi
  refine ⟨fun _ => hp', fun _ => ⟨fun hh k hk op => ?_, fun hh => ?_⟩, fun hh => ?_, ?_⟩
  · change (p.channels k).state ≠ _
    by_cases hkj : k = j
    · rw [hkj, hself, hs]
      exact nofun
    · rw [hother k hkj]
      change k ∈ p.indices.toList at hk
      rw [hlist, List.mem_append, List.mem_singleton] at hk
      exact hlinked.idle hh k (hk.resolve_right hkj) op
  · obtain ⟨hhead, ⟨op, hsrc⟩, hrest⟩ := hlinked.busy hh
    obtain ⟨rest, hq⟩ := List.head?_eq_some_iff.mp hhead
    refine ⟨?_, ⟨op, ?_⟩, hrest⟩
    · change p.indices.toList.head? = some s.src
      rw [hlist, hq]
      rfl
    · have hne : s.src ≠ j := by
        rintro hh'
        rw [hh', hfree] at hsrc
        cases hsrc
      change (p.channels s.src).state = _
      rw [hother _ hne]
      exact hsrc
  · change (p.channels i).state = .complete at hh
    rw [hother i hji.symm] at hh
    exact absurd hh hi
  · change Phase g (p.channels i) s.ctrl
    rw [hother i hji.symm]
    exact h.phase

theorem Inv.respond (h : Inv g i s) (hi : (s.pool.channels i).state ≠ .complete)
    (he : s.pool.step .respond = .ok p) : Inv g i { s with pool := p } := by
  have hp := h.pool hi
  unfold Pool.step at he
  dsimp only at he
  split at he
  · obtain ⟨j, _, he⟩ := Exec.bind_eq_ok.mp he
    dsimp only at he
    split at he
    · cases he
    · rename_i hs
      rw [not_or, not_not] at hs
      cases he
      have hji : j ≠ i := fun hh => hi (hh ▸ hs.2)
      have hsame : (s.pool.update j {}).channels i = s.pool.channels i :=
        RequestPool.channels_update_of_ne hji.symm
      have hlinked := h.linked hi
      have hout : ∀ k ∈ s.pool.indices.toList, k ≠ j := fun k hk hkj => by
        have hacc := (hp.accepted k).mp hk
        rw [hkj, hs.2] at hacc
        cases hacc
      refine ⟨fun _ => hp.respond hs.2 hji, fun _ => ⟨fun hh k hk op => ?_, fun hh => ?_⟩,
        fun hh => ?_, ?_⟩
      · change ((s.pool.update j {}).channels k).state ≠ _
        rw [RequestPool.channels_update_of_ne (hout k hk)]
        exact hlinked.idle hh k hk op
      · obtain ⟨hhead, ⟨op, hsrc⟩, hrest⟩ := hlinked.busy hh
        refine ⟨hhead, ⟨op, ?_⟩, hrest⟩
        change ((s.pool.update j {}).channels s.src).state = _
        rw [RequestPool.channels_update_of_ne (hout _ (List.mem_of_mem_head? hhead))]
        exact hsrc
      · change ((s.pool.update j {}).channels i).state = .complete at hh
        rw [hsame] at hh
        exact absurd hh hi
      · change Phase g ((s.pool.update j {}).channels i) s.ctrl
        rw [hsame]
        exact h.phase
  · cases he
    exact h

/-- One step, if no step of the extension is rejected. -/
theorem Inv.step {e : Event} (h : Inv g i s) (hn : g.n ≠ 0) (hal : Allowed g.tree i s e)
    (hs : s.step sha e = .ok s') (hrej : ¬ (e = .executeCtrl ∧ Rejects g.tree s.ctrl)) :
    Inv g i s' := by
  obtain ⟨hi, hanswer⟩ := hal
  cases e with
  | submit req =>
    obtain ⟨p, he, hp⟩ := Exec.bind_eq_ok.mp hs
    cases hp
    exact h.submit hi he
  | executePool =>
    obtain ⟨p, he, hp⟩ := Exec.bind_eq_ok.mp hs
    cases hp
    exact h.executePool hi he
  | transfer =>
    unfold System.step at hs
    dsimp only at hs
    split at hs
    · rename_i hidle
      split at hs
      · rename_i j req hpeek
        obtain ⟨p, he, hp⟩ := Exec.bind_eq_ok.mp hs
        cases hp
        exact h.transfer hi hidle hpeek he
      · cases hs
        exact h
    · cases hs
      exact h
  | executeCtrl =>
    obtain ⟨c, he, hc⟩ := Exec.bind_eq_ok.mp hs
    cases hc
    have hnot : ¬ Rejects g.tree s.ctrl := fun hh => hrej ⟨rfl, hh⟩
    by_cases hidle : s.ctrl.chan.request.type = .invalid
    · rw [Control.execute, hidle] at he
      cases he
      exact h
    · by_cases hty : s.ctrl.chan.request.type = g.tree.reqType
      · obtain ⟨_, _, _, hw⟩ := h.working hi hty
        obtain ⟨hw', htype⟩ := Working.execute hn hty hw hnot he
        exact h.control hi htype (fun _ _ => hw') fun hne => absurd hty hne
      · have hquick : quickType s.ctrl.chan.request.type = true :=
          ((h.linked hi).busy hidle).2.2.2 fun hsrc =>
            hty (((h.linked hi).busy hidle).2.2.1 hsrc)
        have hsame := SameSize.execute hquick he
        exact h.control hi hsame.type (fun hh => absurd hh hty) fun _ => hsame
  | answer op a =>
    unfold System.step at hs
    dsimp only at hs
    split at hs
    · rename_i hpend
      obtain ⟨c, he, hc⟩ := Exec.bind_eq_ok.mp hs
      cases hc
      have hsame := SameSize.of_answer he
      exact h.control hi hsame.type (fun hty hw => (Working.answer hty hpend hw hanswer he).1)
        fun _ => hsame
    · cases hs
      exact h
  | giveBack =>
    unfold System.step at hs
    dsimp only at hs
    split at hs
    · rename_i hc
      obtain ⟨p, he, hp⟩ := Exec.bind_eq_ok.mp hs
      cases hp
      exact h.giveBack hi hc.1 hc.2 he
    · cases hs
      exact h
  | respond =>
    obtain ⟨p, he, hp⟩ := Exec.bind_eq_ok.mp hs
    cases hp
    exact h.respond hi he

end Steps

/-! ## Runs -/

section Runs

variable {sha : Block → Hash} {g : Target} {i : SlotsIndex} {s s' s₀ : System}

theorem Begins.inv (h : Begins g i s) : Inv g i s := by
  obtain ⟨rest, hq⟩ := h.queue
  have hmem : i ∈ s.pool.indices.toList := by
    rw [hq]
    exact List.mem_cons_self
  have hs := h.waiting i hmem
  have hnodup := h.nodup
  rw [hq, List.nodup_cons] at hnodup
  refine ⟨fun _ => ⟨⟨[], rest, hq, fun _ hj => by cases hj⟩, h.nodup, h.accepted, fun j hj => ?_,
    h.submittable, h.operation, h.count, fun j type hj htype => ?_⟩,
    fun _ => ⟨fun _ j hj op hh => ?_, fun hh => absurd h.idle hh⟩, fun _ => h.idle, ?_⟩
  · have hji : j ≠ i := by
      rw [hq] at hj
      exact fun hh => hnodup.1 (hh ▸ hj)
    rw [if_neg hji]
    exact h.waiting j (List.mem_of_mem_tail hj)
  · rw [h.waiting j (List.mem_of_mem_head? hj)] at htype
    cases htype
  · rw [h.waiting j hj] at hh
    cases hh
  · rw [Phase, hs]
    exact h.notStarted

theorem Inv.extends (h : Inv g i s) : Extends g i s := by
  have hworking : s.ctrl.chan.request.type = g.tree.reqType → s.ctrl.chan.state = .completed →
      s.ctrl.chan.request.success = true ∧
        g.Stepped s.ctrl.sb s.ctrl.chan.request.requestFinished ∧ Target.AtUnused s.ctrl := by
    intro hty hs
    have hi : (s.pool.channels i).state ≠ .complete := fun hc =>
      reqType_ne_invalid g.tree (hty.symm.trans (h.idle hc))
    obtain ⟨_, _, _, hw⟩ := h.working hi hty
    rwa [Target.Working, hs] at hw
  refine ⟨fun hty hs => (hworking hty hs).1, fun hty hs => (hworking hty hs).2.2,
    fun hty hs => ?_, fun hc => ?_⟩
  · obtain ⟨_, hst, _⟩ := hworking hty hs
    rcases hst with ⟨hrun, _⟩ | ⟨hdone, _⟩
    · exact hrun.total
    · rw [hdone.left, UInt64.add_zero, hdone.total]
  · have hphase := h.phase
    rw [Phase, hc] at hphase
    exact ⟨hphase.1, hphase.2.state, hphase.2.first, hphase.2.total⟩

/-- A rejected step fails. -/
theorem not_extends_of_rejects (hs : s.step sha .executeCtrl = .ok s')
    (hr : Rejects g.tree s.ctrl) : ¬ Extends g i s' := by
  obtain ⟨hty, hsub, hlt⟩ := hr
  obtain ⟨c, he, hc⟩ := Exec.bind_eq_ok.mp hs
  cases hc
  have hfail : s.ctrl.execute sha = .ok s.ctrl.markReqFailed := by
    rw [execute_step hty, Control.executeTreeExtStep, hsub]
    exact if_pos hlt
  cases hfail.symm.trans he
  intro h
  have hsucc := h.succeeds hty rfl
  cases hsucc

/-- The steps of an extension succeed and add up to it if and only if none of
them is rejected. -/
theorem extension_succeeds_iff {hist : List (System × Event)} (h₀ : Begins g i s₀)
    (h : IsRun sha g.tree i s₀ hist s) :
    (∀ t ∈ reached hist s, Extends g i t) ↔
      ∀ e ∈ hist, ¬ (e.2 = .executeCtrl ∧ Rejects g.tree e.1.ctrl) := by
  refine Run.forall_reached_iff (I := Inv g i)
    (C := fun s e => ¬ (e = .executeCtrl ∧ Rejects g.tree s.ctrl)) ?_ ?_ (fun _ hI => hI.extends)
    ?_ h
  · intro s hs
    rw [← hs]
    exact h₀.inv
  · intro s e s' hI hs hc
    exact hI.step h₀.pos hs.1 hs.2 hc
  · intro s e s' _ hs hc
    rw [not_not] at hc
    obtain ⟨rfl, hr⟩ := hc
    exact not_extends_of_rejects hs.2 hr

/-- The blocks of the sample are 8 to 10007. -/
def sampleTarget (n : UInt64) : Target := ⟨.vbd, 8, 10000, n⟩

/-- A client wants to extend the virtual block device by `n` blocks. -/
def sampleSystem (n : UInt64) : System where
  pool :=
    { channels := Function.update (fun _ => {}) ⟨0, RequestPool.nrOfChannels_pos⟩
        { state := .submitted, request := { operation := .extendVbd, count := n } }
      indices := RequestPool.IndexQueue.initial.push ⟨0, RequestPool.nrOfChannels_pos⟩
        RequestPool.nrOfChannels_pos }
  ctrl := { sb := SbControl.sampleSuperblock, currGen := 2 }
  src := ⟨0, RequestPool.nrOfChannels_pos⟩

theorem sample_begins {n : UInt64} (hn : n ≠ 0)
    (hroom : ¬ nrOfUnusedPbas SbControl.sampleSuperblock < n) :
    Begins (sampleTarget n) ⟨0, RequestPool.nrOfChannels_pos⟩ (sampleSystem n) where
  queue := ⟨[], rfl⟩
  nodup := by
    change [_].Nodup
    exact List.nodup_singleton _
  accepted := by
    intro j
    change j ∈ [_] ↔ _
    rw [List.mem_singleton]
    by_cases hj : j = ⟨0, RequestPool.nrOfChannels_pos⟩
    · rw [hj]
      exact ⟨fun _ => rfl, fun _ => rfl⟩
    · have hchan : (sampleSystem n).pool.channels j = {} := by
        simp only [sampleSystem, Function.update_of_ne hj]
      rw [hchan]
      exact ⟨fun hh => absurd hh hj, fun hh => by cases hh⟩
  waiting := by
    intro j hj
    obtain rfl := List.mem_singleton.mp hj
    rfl
  submittable := by
    intro j hj
    obtain rfl := List.mem_singleton.mp hj
    rfl
  operation := rfl
  count := rfl
  idle := rfl
  notStarted := ⟨rfl, rfl, rfl⟩
  pos := hn
  room := hroom

/-- The superblock is secured at the end of a step. -/
def secureEvents : List Event :=
  [.answer .encryptCurrentKey {}, .executeCtrl, .answer .syncCache {}, .executeCtrl,
    .answer .writeSb {}, .executeCtrl, .answer .syncBlkIo {}, .executeCtrl,
    .answer .secureSb {}, .executeCtrl, .giveBack]

/-- The first step, which only prepares the superblock. -/
def firstStepEvents : List Event :=
  [.executePool, .transfer, .executeCtrl] ++ secureEvents

/-- A later step, which adds one block and leaves `n` of them for later. -/
def nextStepEvents (pba n : UInt64) : List Event :=
  [.executePool, .executePool, .executePool, .transfer, .executeCtrl,
    .answer .vbdExtStepInVbd
      { snapshots := SbControl.sampleSuperblock.snapshots, pba := pba, nrOfPbas := n },
    .executeCtrl] ++ secureEvents

/-- The runs of the sample. The hash of a block does not matter. -/
abbrev SampleRun (n : UInt64) : List (System × Event) → System → Prop :=
  IsRun (fun _ => default) .vbd ⟨0, RequestPool.nrOfChannels_pos⟩ (sampleSystem n)

theorem exists_sampleRun {n : UInt64} (P : List (System × Event) × System → Prop)
    [DecidablePred P] (es : List Event)
    (h : (replay (perform (Allowed .vbd ⟨0, RequestPool.nrOfChannels_pos⟩)
      (System.step fun _ => default)) es ([], sampleSystem n)).any
        (fun r => decide (P r)) = true) :
    ∃ hist s, SampleRun n hist s ∧ P (hist, s) :=
  exists_guarded_run (Eq.refl (sampleSystem n)) h

/-- An extension by two blocks, one in each step. -/
theorem extension_succeeds_iff_sample : ∃ hist s, SampleRun 2 hist s ∧
    (s.pool.channels ⟨0, RequestPool.nrOfChannels_pos⟩).state = .complete ∧
    s.ctrl.sb.nrOfPbas = 10002 ∧
    ∀ t ∈ reached hist s, Extends (sampleTarget 2) ⟨0, RequestPool.nrOfChannels_pos⟩ t := by
  have hrun : ∃ hist s, SampleRun 2 hist s ∧
      ((s.pool.channels ⟨0, RequestPool.nrOfChannels_pos⟩).state = .complete ∧
        s.ctrl.sb.nrOfPbas = 10002 ∧
        ∀ e ∈ hist, ¬ nrOfUnusedPbas e.1.ctrl.sb < e.1.ctrl.chan.request.nrOfBlks) :=
    exists_sampleRun
      (fun r => (r.2.pool.channels ⟨0, RequestPool.nrOfChannels_pos⟩).state = .complete ∧
        r.2.ctrl.sb.nrOfPbas = 10002 ∧
        ∀ e ∈ r.1, ¬ nrOfUnusedPbas e.1.ctrl.sb < e.1.ctrl.chan.request.nrOfBlks)
      (firstStepEvents ++ nextStepEvents 10009 1 ++ nextStepEvents 10010 0 ++ [.executePool])
      (by decide +kernel)
  obtain ⟨hist, s, hrun, hcomplete, hnr, hroom⟩ := hrun
  refine ⟨hist, s, hrun, hcomplete, hnr, (extension_succeeds_iff (sample_begins ?_ ?_) hrun).mpr
    fun e he hh => hroom e he hh.2.2.2⟩
  · decide
  · decide

/-- A client may ask for all blocks that are unused. After one of them was
added, there are not that many any more. -/
theorem extension_by_all_unused_blocks_fails :
    ¬ ∀ (sha : Block → Hash) (g : Target) (i : SlotsIndex) (s₀ s : System)
      (hist : List (System × Event)), Begins g i s₀ →
      IsRun sha g.tree i s₀ hist s →
      ∀ t ∈ reached hist s, Extends g i t := by
  intro hall
  let n := nrOfUnusedPbas SbControl.sampleSuperblock
  have hrun : ∃ hist s, SampleRun n hist s ∧
      (s.ctrl.chan.request.type = .vbdExtensionStep ∧ s.ctrl.chan.state = .completed ∧
        s.ctrl.chan.request.success = false) :=
    exists_sampleRun
      (fun r => r.2.ctrl.chan.request.type = .vbdExtensionStep ∧
        r.2.ctrl.chan.state = .completed ∧ r.2.ctrl.chan.request.success = false)
      (firstStepEvents ++ nextStepEvents 10009 (n - 1) ++
        [.executePool, .executePool, .executePool, .transfer, .executeCtrl])
      (by decide +kernel)
  obtain ⟨hist, s, hrun, hty, hs, hfail⟩ := hrun
  have hbegins : Begins (sampleTarget n) ⟨0, RequestPool.nrOfChannels_pos⟩ (sampleSystem n) :=
    sample_begins (by decide) (UInt64.lt_irrefl _)
  have hext := hall _ _ _ _ s hist hbegins hrun s List.mem_cons_self
  rw [hext.succeeds hty hs] at hfail
  cases hfail

end Runs

end Genode.Tresor.Extension
