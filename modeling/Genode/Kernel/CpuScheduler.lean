import Mathlib.Data.Finset.Basic
import Mathlib.Data.Finset.Card
import Genode.Kernel.DoubleList

/-!
# CpuScheduler — time slices for the shares of a CPU

`kernel/cpu_scheduler.h` and `kernel/cpu_scheduler.cc`. A share with a
quota may claim that much time per round, ahead of everything of lower
priority. All ready shares also take part in a round robin of fixed time
slices, the fills. `update` settles the time since the last update with
the current head and selects the next head.

The state is parametric in the types that hold the lists: here they are
the pointers of `DoubleList`, in `ListScheduler` they are plain lists.
Amounts of time are `unsigned` in the source and natural numbers here;
no operation adds to them, and every subtraction is guarded. The
duration of a time slice is the difference of two 64-bit times, cut off
to 32 bits, and is modelled as such.
-/

namespace Genode.Kernel

open Lib

/-- `Cpu_priority`; there are `cpu_priorities` of them. -/
abbrev Prio := Fin 4

/-- The order in which `_for_each_prio` visits the priorities. -/
def prios : List Prio := [3, 2, 1, 0]

theorem mem_prios (p : Prio) : p ∈ prios := by
  revert p
  decide

/-- `Cpu_share`, without its list items. -/
structure CpuShare where
  prio : Prio
  quota : Nat
  claim : Nat
  fill : Nat
  ready : Bool
  deriving DecidableEq, Repr

/-- `Cpu_share::Cpu_share`. -/
def CpuShare.construct (p : Prio) (q : Nat) : CpuShare := ⟨p, q, q, 0, false⟩

/-- The lists that a `_claim_item` can be in. -/
inductive ClaimList where
  | rcl (p : Prio)
  | ucl (p : Prio)
  deriving DecidableEq, Repr

/-- The state of a scheduler and of its shares, over lists of claims `C`
and lists of fills `F`. The shares in `inserted` are those whose job is
assigned to this CPU. -/
structure SchedulerOf (C F ι : Type) where
  claims : C
  fills : F
  share : ι → CpuShare
  inserted : Finset ι
  idle : ι
  head : Option ι
  headQuota : Nat
  headClaims : Bool
  headYields : Bool
  headWasRemoved : Bool
  quota : Nat
  residual : Nat
  fill : Nat
  needToSchedule : Bool
  lastTime : UInt64

namespace SchedulerOf

variable {C F ι : Type} [DecidableEq ι] (s : SchedulerOf C F ι)

def withClaims (claims : C) : SchedulerOf C F ι := { s with claims }

def withFills (fills : F) : SchedulerOf C F ι := { s with fills }

def withInserted (inserted : Finset ι) : SchedulerOf C F ι := { s with inserted }

/-- Change one share. -/
def setShare (i : ι) (f : CpuShare → CpuShare) : SchedulerOf C F ι :=
  { s with share := Function.update s.share i (f (s.share i)) }

/-- `_reset`. -/
def reset (i : ι) : SchedulerOf C F ι := s.setShare i fun c => { c with claim := c.quota }

/-- `_set_head`. -/
def setHead (i : ι) (q : Nat) (c : Bool) : SchedulerOf C F ι :=
  { s with headQuota := q, headClaims := c, head := some i }

/-- `_trim_consumption`: the consumed time and what it leaves of the
head's quota. -/
def trimConsumption (q : Nat) : Nat × Nat :=
  let q := min (min q s.headQuota) s.residual
  (q, if !s.headYields then s.headQuota - q else 0)

/-- The time since the last update, as an `unsigned`. -/
def duration (time : UInt64) : Nat := (time - s.lastTime).toUInt32.toNat

/-- The begin of `update`. -/
def startUpdate (time : UInt64) : SchedulerOf C F ι :=
  { s with lastTime := time, needToSchedule := false }

def clearYield : SchedulerOf C F ι := { s with headYields := false }

def clearRemoved : SchedulerOf C F ι := { s with headWasRemoved := false, headYields := false }

/-- `if (p) _need_to_schedule = true;`. -/
def scheduleIf (p : Prop) [Decidable p] : SchedulerOf C F ι :=
  { s with needToSchedule := s.needToSchedule || decide p }

/-- Whether a new claim of `i` outdates the head: a claiming head only
has to give way to its own priority and above. -/
def outdatesHead (i : ι) : Bool :=
  match s.head, s.headClaims with
  | some head, true => decide ((s.share i).prio ≥ (s.share head).prio)
  | _, _ => true

/-- `if (&s == _head) { _head = nullptr; _head_was_removed = true; }`. -/
def dropHead (i : ι) : SchedulerOf C F ι :=
  { s with head := if s.head = some i then none else s.head
           headWasRemoved := s.headWasRemoved || decide (s.head = some i) }

def yield : SchedulerOf C F ι := { s with headYields := true, needToSchedule := true }

def timeout : SchedulerOf C F ι := { s with needToSchedule := true }

end SchedulerOf

/-- The scheduler with its doubly linked lists. -/
abbrev CpuScheduler (ι : Type) := SchedulerOf (DoubleLists ClaimList ι) (DoubleLists Unit ι) ι

namespace CpuScheduler

variable {ι : Type} [DecidableEq ι] (s : CpuScheduler ι)

/-- `Cpu_scheduler::Cpu_scheduler` for the idle share `i`, the quota `q`
of a round and the length `f` of a fill. -/
def construct (share : ι → CpuShare) (i : ι) (q f : Nat) : CpuScheduler ι :=
  { claims := .init, fills := .init, share, inserted := ∅, idle := i, head := some i,
    headQuota := f, headClaims := false, headYields := false, headWasRemoved := false,
    quota := q, residual := q, fill := f, needToSchedule := true, lastTime := 0 }

/-- `_reset_claims`. -/
def resetClaims (p : Prio) : Exec (CpuScheduler ι) := do
  let items ← Exec.ended (s.claims.toList s.inserted.card (.rcl p))
  let s := items.foldl SchedulerOf.reset s
  let items ← Exec.ended (s.claims.toList s.inserted.card (.ucl p))
  .ok (items.foldl SchedulerOf.reset s)

/-- `_next_round`. -/
def nextRound : Exec (CpuScheduler ι) :=
  prios.foldlM resetClaims { s with residual := s.quota }

/-- `_consumed`. -/
def consumed (q : Nat) : Exec (CpuScheduler ι) :=
  if s.residual > q then .ok { s with residual := s.residual - q } else nextRound s

/-- `_next_fill`. -/
def nextFill (head : ι) : Exec (CpuScheduler ι) := do
  let s := s.setShare head fun c => { c with fill := s.fill }
  let fills ← s.fills.headToTail ()
  .ok (s.withFills fills)

/-- `_head_claimed`. -/
def headClaimed (head : ι) (r : Nat) : Exec (CpuScheduler ι) :=
  if (s.share head).quota = 0 then .ok s
  else
    let s := s.setShare head fun c => { c with claim := if r > c.quota then c.quota else r }
    if (s.share head).claim ≠ 0 ∨ (s.share head).ready = false then .ok s
    else do
      let claims ← s.claims.toTail (.rcl (s.share head).prio) head
      let s := s.withClaims claims
      -- a share that needs slightly more than its quota continues with a fill
      if !s.headYields then
        let fills ← s.fills.toHead () head
        .ok (s.withFills fills)
      else .ok s

/-- `_head_filled`. -/
def headFilled (head : ι) (r : Nat) : Exec (CpuScheduler ι) :=
  if s.fills.head () ≠ some head then .ok s
  else if r ≠ 0 then .ok (s.setShare head fun c => { c with fill := r })
  else nextFill s head

/-- `_claim_for_head`. -/
def claimForHead : Option (CpuScheduler ι) :=
  prios.findSome? fun p =>
    match s.claims.head (.rcl p) with
    | none => none
    | some i => if (s.share i).claim = 0 then none else some (s.setHead i (s.share i).claim true)

/-- `_fill_for_head`. -/
def fillForHead : Option (CpuScheduler ι) :=
  match s.fills.head () with
  | none => none
  | some i => some (s.setHead i (s.share i).fill false)

/-- The head used up all but `r` of its time. -/
def chargeHead (head : ι) (r : Nat) : Exec (CpuScheduler ι) :=
  if s.headClaims then headClaimed s head r else headFilled s head r

/-- The part of `update` that settles the time since the last update. -/
def settle (duration : Nat) : Exec (CpuScheduler ι) :=
  match s.head with
  | some head => do
    let (duration, r) := s.trimConsumption duration
    let s ← chargeHead s head r
    consumed s.clearYield duration
  | none =>
    -- the quota of a removed head is not touched, but the time of the round is
    if s.headWasRemoved then
      let (duration, _) := s.trimConsumption duration
      consumed s.clearRemoved duration
    else .ok s

/-- The part of `update` that selects the next head. -/
def selectHead : CpuScheduler ι :=
  ((claimForHead s).or (fillForHead s)).getD (s.setHead s.idle s.fill false)

def update (time : UInt64) : Exec (CpuScheduler ι) := do
  let s ← settle (s.startUpdate time) (s.duration time)
  .ok (selectHead s)

def ready (i : ι) : Exec (CpuScheduler ι) := do
  Exec.assert (!(s.share i).ready && decide (i ≠ s.idle))
  let s := s.setShare i fun c => { c with ready := true }
  let s ←
    if (s.share i).quota ≠ 0 then do
      let claims ← s.claims.remove (.ucl (s.share i).prio) i
      if (s.share i).claim ≠ 0 then
        let s := s.withClaims (claims.insertHead (.rcl (s.share i).prio) i)
        .ok (s.scheduleIf (s.outdatesHead i = true))
      else .ok (s.withClaims (claims.insertTail (.rcl (s.share i).prio) i))
    else .ok s
  let s := s.setShare i fun c => { c with fill := s.fill }
  let s := s.withFills (s.fills.insertTail () i)
  .ok (s.scheduleIf (s.head = none ∨ s.head = some s.idle))

def unready (i : ι) : Exec (CpuScheduler ι) := do
  Exec.assert ((s.share i).ready && decide (i ≠ s.idle))
  let s := s.scheduleIf (s.head = some i)
  let s := s.setShare i fun c => { c with ready := false }
  let fills ← s.fills.remove () i
  let s := s.withFills fills
  if (s.share i).quota = 0 then .ok s
  else
    let claims ← s.claims.remove (.rcl (s.share i).prio) i
    .ok (s.withClaims (claims.insertTail (.ucl (s.share i).prio) i))

/-- The part of `remove` for a share that is not ready anymore. -/
def removeUnready (i : ι) : Exec (CpuScheduler ι) :=
  let s := (s.dropHead i).withInserted (s.inserted.erase i)
  if (s.share i).quota = 0 then .ok s
  else do
    let claims ← s.claims.remove (.ucl (s.share i).prio) i
    .ok (s.withClaims claims)

def remove (i : ι) : Exec (CpuScheduler ι) := do
  Exec.assert (decide (i ≠ s.idle))
  let s ← if (s.share i).ready then unready s i else .ok s
  removeUnready s i

/-- `insert` of the share object `c` under the name `i`. -/
def insert (i : ι) (c : CpuShare) : Exec (CpuScheduler ι) := do
  let s := (s.setShare i fun _ => c).withInserted (Insert.insert i s.inserted)
  Exec.assert (!(s.share i).ready)
  if (s.share i).quota = 0 then .ok s
  else
    let s := s.reset i
    .ok (s.withClaims (s.claims.insertHead (.ucl (s.share i).prio) i))

/-- The list that a share's claim belongs to. -/
def claimList (c : CpuShare) : ClaimList := if c.ready then .rcl c.prio else .ucl c.prio

/-- `_quota_introduction`. -/
def quotaIntroduction (i : ι) : CpuScheduler ι :=
  s.withClaims (s.claims.insertTail (claimList (s.share i)) i)

/-- `_quota_revokation`. -/
def quotaRevokation (i : ι) : Exec (CpuScheduler ι) := do
  let claims ← s.claims.remove (claimList (s.share i)) i
  .ok (s.withClaims claims)

/-- `_quota_adaption`. -/
def quotaAdaption (i : ι) (q : Nat) : Exec (CpuScheduler ι) :=
  if q ≠ 0 then
    if (s.share i).claim > q then .ok (s.setShare i fun c => { c with claim := q }) else .ok s
  else quotaRevokation s i

/-- `quota(s, q)`. -/
def setQuota (i : ι) (q : Nat) : Exec (CpuScheduler ι) := do
  Exec.assert (decide (i ≠ s.idle))
  let s ←
    if (s.share i).quota ≠ 0 then quotaAdaption s i q
    else if q ≠ 0 then .ok (quotaIntroduction s i)
    else .ok s
  .ok (s.setShare i fun c => { c with quota := q })

/-- `head()`: an access to an invalid head updates the scheduler first. -/
def getHead : Exec (ι × CpuScheduler ι) := do
  let s ← if s.head = none then update s s.lastTime else .ok s
  let head ← Exec.deref s.head
  .ok (head, s)

end CpuScheduler

end Genode.Kernel
