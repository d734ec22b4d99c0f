import Mathlib.Algebra.Order.BigOperators.Group.Finset
import Genode.Lib.Refs
import Genode.Lib.Run

/-!
# CpuSession — CPU quota of sessions and their threads

`core/cpu_session_component.cc`. A session distributes its quota among
its threads according to their weights. Quota moves between a session
and its reference account, which the client of the session chooses once.
A destroyed session gives its quota back to its reference account, and
the sessions that refer to it are rewired to this one.

A new reference account must not be the session itself, but there is no
check whether it refers to the session through others. If it does, a
session can become its own reference account when the others are
destroyed. The members of such a session can not be rewired: for this
the session takes the lock of its list of members, which it holds
already.

Weights are natural numbers; no session has so many threads that their
sum leaves the range of `size_t`.
-/

namespace Genode.Core

open Lib

/-- Sessions `σ` with threads `τ`. -/
structure CpuSessions (σ τ : Type) where
  live : Finset σ
  quota : σ → Nat
  weight : σ → Nat
  threads : σ → List τ
  threadWeight : τ → Nat
  threadQuota : τ → Nat
  /-- `_ref` and `_ref_members`. -/
  refs : Refs σ

namespace CpuSessions

variable {σ τ : Type} [DecidableEq σ] [DecidableEq τ]

section Operations

variable (s : CpuSessions σ τ) (x y : σ) (t : τ)

/-! ## Quota of the threads -/

/-- `_weight_to_quota`. -/
def weightToQuota (w : Nat) : Nat :=
  if s.weight x = 0 then 0 else (w * s.quota x) % 2 ^ 64 / s.weight x

/-- `_update_each_thread_quota`. -/
def updateEachThreadQuota : CpuSessions σ τ :=
  { s with
    threadQuota := fun t =>
      if t ∈ s.threads x then s.weightToQuota x (s.threadWeight t) else s.threadQuota t }

/-- A new weight of the session, as in `_incr_weight` and `_decr_weight`. -/
def setWeight (w : Nat) : CpuSessions σ τ :=
  let s := { s with weight := Function.update s.weight x w }
  if s.quota x ≠ 0 then s.updateEachThreadQuota x else s

def incrWeight (w : Nat) : CpuSessions σ τ := s.setWeight x (s.weight x + w)

def decrWeight (w : Nat) : CpuSessions σ τ := s.setWeight x (s.weight x - w)

/-- A new quota of the session, as in `_incr_quota` and `_decr_quota`. -/
def setQuota (q : Nat) : CpuSessions σ τ :=
  updateEachThreadQuota { s with quota := Function.update s.quota x q } x

def incrQuota (q : Nat) : CpuSessions σ τ := s.setQuota x ((s.quota x + q) % 2 ^ 64)

def decrQuota (q : Nat) : CpuSessions σ τ := s.setQuota x (s.quota x - q)

/-! ## Threads -/

/-- The weight that `create_thread` uses: not zero, and not above `QUOTA_LIMIT`. -/
def effectiveWeight (w : Nat) : Nat :=
  if w = 0 then 10 else if 2 ^ 15 < w then 2 ^ 15 else w

def setThreads (ts : List τ) : CpuSessions σ τ :=
  { s with threads := Function.update s.threads x ts }

/-- The constructor of a thread. -/
def constructThread (w q : Nat) : CpuSessions σ τ :=
  { s with
    threadWeight := Function.update s.threadWeight t w
    threadQuota := Function.update s.threadQuota t q }

/-- `create_thread` of the thread `t`, which may fail. -/
def createThread (w : Nat) (created : Bool) : CpuSessions σ τ :=
  let w := effectiveWeight w
  let s := s.incrWeight x w
  if created then (s.constructThread t w (s.weightToQuota x w)).setThreads x (t :: s.threads x)
  else s.decrWeight x w

/-- `_unsynchronized_kill_thread`. -/
def unsynchronizedKillThread : CpuSessions σ τ :=
  let s := s.setThreads x ((s.threads x).erase t)
  s.decrWeight x (s.threadWeight t)

/-- `kill_thread`. -/
def killThread : CpuSessions σ τ :=
  if t ∈ s.threads x then s.unsynchronizedKillThread x t else s

/-- `_deinit_threads`: the first thread of the list is killed until none is left. -/
def deinitThreads : CpuSessions σ τ :=
  (s.threads x).foldl (fun s t => s.unsynchronizedKillThread x t) s

/-! ## Reference accounts -/

/-- `_transfer_quota`. -/
def moveQuota (q : Nat) : CpuSessions σ τ :=
  if q = 0 then s else (s.decrQuota x q).incrQuota y q

/-- `transfer_quota`, with its return value. -/
def transferQuota (dst : Option σ) (amount : Nat) : Int × CpuSessions σ τ :=
  match dst with
  | none => (-1, s)
  | some y =>
    if s.refs.ref y ≠ some x ∧ s.refs.ref x ≠ some y then (-2, s)
    else
      -- `quota_lim_downscale`
      let q := (s.quota x * amount) % 2 ^ 64 / 2 ^ 15
      if s.quota x < q then (-3, s) else (0, s.moveQuota x y q)

/-- `ref_account`, with its return value. -/
def refAccount (ref : Option σ) : Int × CpuSessions σ τ :=
  if (s.refs.ref x).isSome then (-2, s)
  else
    match ref with
    | none => (-1, s)
    | some r => if r = x then (-3, s) else (0, { s with refs := s.refs.insert r x })

/-- The loop of `_deinit_ref_account`: the first member is rewired until
none is left. The reference account may be gone after the removal of the
member, which is then the session itself. -/
def rewire (x : σ) : Nat → Refs σ → Exec (Refs σ)
  | 0, _ => .error .endless
  | n + 1, refs =>
    match refs.members x with
    | [] => .ok refs
    | o :: _ => do
      let refs := refs.remove x o
      let refs ← (refs.ref x).elim (.ok refs) fun r =>
        -- the lock of the own list of members is taken
        if r = x then .error .endless else .ok (refs.insert r o)
      rewire x n refs

/-- `_deinit_ref_account`. -/
def deinitRefAccount : Exec (CpuSessions σ τ) := do
  let refs ← rewire x ((s.refs.members x).length + 1) s.refs
  let s := { s with refs := refs }
  .ok ((refs.ref x).elim s fun r =>
    let s := s.moveQuota x r (s.quota x)
    { s with refs := s.refs.remove r x })

/-- The destructor. -/
def destroy : Exec (CpuSessions σ τ) := do
  let s := s.deinitThreads x
  let s ← s.deinitRefAccount x
  .ok { s with live := s.live.erase x }

/-- The constructor, with the initial quota. -/
def create (q : Nat) : CpuSessions σ τ :=
  { s with
    live := insert x s.live
    quota := Function.update s.quota x q
    weight := Function.update s.weight x 0
    threads := Function.update s.threads x [] }

/-- The quota of all sessions. -/
def total : Nat := ∑ x ∈ s.live, s.quota x

end Operations

inductive Op (σ τ : Type) where
  | create (x : σ) (q : Nat)
  | createThread (x : σ) (t : τ) (w : Nat) (created : Bool)
  | killThread (x : σ) (t : τ)
  | transferQuota (x : σ) (dst : Option σ) (amount : Nat)
  | refAccount (x : σ) (ref : Option σ)
  | destroy (x : σ)

/-- Sessions are used while they exist, capabilities refer to existing
sessions only, and the quota of all sessions fits. -/
def Allowed (s : CpuSessions σ τ) : Op σ τ → Prop
  | .create x q => x ∉ s.live ∧ s.total + q < 2 ^ 64
  | .createThread x t _ _ => x ∈ s.live ∧ ∀ y ∈ s.live, t ∉ s.threads y
  | .killThread x _ => x ∈ s.live
  | .transferQuota x dst _ => x ∈ s.live ∧ ∀ y ∈ dst, y ∈ s.live
  | .refAccount x ref => x ∈ s.live ∧ ∀ r ∈ ref, r ∈ s.live
  | .destroy x => x ∈ s.live

instance (s : CpuSessions σ τ) : (op : Op σ τ) → Decidable (Allowed s op)
  | .create x q => inferInstanceAs (Decidable (x ∉ s.live ∧ s.total + q < 2 ^ 64))
  | .createThread x t _ _ =>
    inferInstanceAs (Decidable (x ∈ s.live ∧ ∀ y ∈ s.live, t ∉ s.threads y))
  | .killThread x _ => inferInstanceAs (Decidable (x ∈ s.live))
  | .transferQuota x dst _ => inferInstanceAs (Decidable (x ∈ s.live ∧ ∀ y ∈ dst, y ∈ s.live))
  | .refAccount x ref => inferInstanceAs (Decidable (x ∈ s.live ∧ ∀ r ∈ ref, r ∈ s.live))
  | .destroy x => inferInstanceAs (Decidable (x ∈ s.live))

def exec (s : CpuSessions σ τ) : Op σ τ → Exec (CpuSessions σ τ)
  | .create x q => .ok (s.create x q)
  | .createThread x t w created => .ok (s.createThread x t w created)
  | .killThread x t => .ok (s.killThread x t)
  | .transferQuota x dst amount => .ok (s.transferQuota x dst amount).2
  | .refAccount x ref => .ok (s.refAccount x ref).2
  | .destroy x => s.destroy x

/-- There are no sessions yet. -/
def Init (s : CpuSessions σ τ) : Prop :=
  s.live = ∅ ∧ s.threads = (fun _ => []) ∧ s.refs = ⟨fun _ => none, fun _ => []⟩

def Trans : CpuSessions σ τ → Op σ τ → CpuSessions σ τ → Prop := Guarded Allowed exec

/-- An accepted `ref_account` names no session that refers to the
requesting one, directly or through others. -/
def NoCycle (s : CpuSessions σ τ) : Op σ τ → Prop
  | .refAccount x ref =>
    s.refs.ref x = none → ∀ r ∈ ref, r ≠ x → ¬ Relation.ReflTransGen (Up s.refs.ref) r x
  | _ => True

end CpuSessions

end Genode.Core
