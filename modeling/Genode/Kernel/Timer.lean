import Mathlib.Data.Fintype.Card
import Genode.Lib.Run
import Genode.Util.List

/-!
# Timer — timeouts of threads and CPUs

`kernel/timer.h`, `kernel/timer.cc` and what the kernel calls of
`kernel/thread.cc` do with them. Each CPU has a timer with a list of
timeouts, ordered by their end time. The timeouts are base classes of
the objects they belong to: each CPU has one for its own time slices,
and each thread has one that it sets through a kernel call.

The CPUs `κ` exist as long as the kernel runs. The threads `τ` come and
go: the ones in `live` exist at the moment. The hardware counter
`_duration` is an input of every operation that reads it.
-/

namespace Genode.Kernel

open Lib Util

/-- The objects that are timeouts. -/
inductive Timeout (κ τ : Type) where
  | cpu (k : κ)
  | thread (t : τ)
  deriving DecidableEq, Repr

/-- The timers of all CPUs and the timeouts. -/
structure Timers (κ τ : Type) where
  /-- `_timeout_list` of each timer, and the links of the timeouts. -/
  list : Lists κ (Timeout κ τ)
  listed : Timeout κ τ → Bool
  endTime : Timeout κ τ → UInt64
  time : κ → UInt64
  lastTimeoutDuration : κ → UInt64
  live : Finset τ
  /-- `_cpu` of a thread; it is set when the thread is started. -/
  cpu : τ → Option κ
  timeoutSigid : τ → UInt16

namespace Timers

variable {κ τ : Type} [DecidableEq κ] [DecidableEq τ] [Fintype κ] (s : Timers κ τ)

/-- The kernel right after the timers of its CPUs were constructed. -/
def init (time lastTimeoutDuration : κ → UInt64) : Timers κ τ :=
  { list := .init, listed := fun _ => false, endTime := fun _ => 0, time, lastTimeoutDuration,
    live := ∅, cpu := fun _ => none, timeoutSigid := fun _ => 0 }

/-- The timeout belongs to an object that still exists. -/
def Exists : Timeout κ τ → Prop
  | .cpu _ => True
  | .thread t => t ∈ s.live

/-- More elements than there are timeouts cannot be in a list. -/
def fuel : Nat := s.live.card + Fintype.card κ

/-- `Timer::time` with the counter at `d`. -/
def now (k : κ) (d : UInt64) : UInt64 := s.time k + d

def withList (list : Lists κ (Timeout κ τ)) : Timers κ τ := { s with list }

def setListed (x : Timeout κ τ) (b : Bool) : Timers κ τ :=
  { s with listed := Function.update s.listed x b }

def setEnd (x : Timeout κ τ) (e : UInt64) : Timers κ τ :=
  { s with endTime := Function.update s.endTime x e }

/-- The loop of `set_timeout`: the last timeout that ends before `e`. -/
def place (e : UInt64) : Nat → Option (Timeout κ τ) → Option (Timeout κ τ) →
    Exec (Option (Timeout κ τ))
  | _, t1, none => .ok t1
  | 0, _, some _ => .error .endless
  | n + 1, t1, some t2 =>
    if s.endTime t2 < e then place e n (some t2) (s.list.next t2) else .ok t1

/-- The begin of `set_timeout`: a timeout that is already in use is
taken out of the list. -/
def takeOut (k : κ) (x : Timeout κ τ) : Exec (Timers κ τ) :=
  if s.listed x then do
    let list ← s.list.remove s.fuel k x
    .ok (s.withList list)
  else .ok (s.setListed x true)

/-- `Timer::set_timeout`. -/
def setTimeout (k : κ) (x : Timeout κ τ) (duration d : UInt64) : Exec (Timers κ τ) := do
  let s ← s.takeOut k x
  let s := s.setEnd x (s.now k d + duration)
  let t1 ← s.place (s.endTime x) s.fuel none (s.list.first k)
  .ok (s.withList (s.list.insert k x t1))

/-- `Timer::schedule_timeout`. -/
def scheduleTimeout (k : κ) (d : UInt64) : Exec (Timers κ τ) :=
  match s.list.first k with
  | none => .error .assertion
  | some timeout =>
    let time := s.time k + d
    .ok { s with
      time := Function.update s.time k time
      lastTimeoutDuration := Function.update s.lastTimeoutDuration k
        (if s.endTime timeout > time then s.endTime timeout - time else 1) }

/-- `timeout_triggered`: a thread submits to its signal context, and
nothing is done for a CPU. -/
def timeoutTriggered : Timeout κ τ → List (τ × UInt16)
  | .cpu _ => []
  | .thread t => [(t, s.timeoutSigid t)]

/-- The loop of `process_timeouts` at time `t`, with the submissions of
the timeouts that were triggered. These do not touch the timers. -/
def processLoop (k : κ) (t : UInt64) (n : Nat) (s : Timers κ τ) (submits : List (τ × UInt16)) :
    Exec (List (τ × UInt16) × Timers κ τ) :=
  match s.list.first k with
  | none => .ok (submits, s)
  | some timeout =>
    if s.endTime timeout > t then .ok (submits, s)
    else
      match n with
      | 0 => .error .endless
      | n + 1 => do
        let list ← s.list.remove s.fuel k timeout
        let s := (s.withList list).setListed timeout false
        processLoop k t n s (submits ++ s.timeoutTriggered timeout)

/-- `Timer::process_timeouts`. -/
def processTimeouts (k : κ) (d : UInt64) : Exec (List (τ × UInt16) × Timers κ τ) :=
  processLoop k (s.now k d) s.fuel s []

/-- What `Cpu::schedule` does with the timer: `d₁`, `d₂` and `d₃` are
the values of the counter on the way, `q` is the quota of the new head. -/
def schedule (k : κ) (q d₁ d₂ d₃ : UInt64) : Exec (Timers κ τ) := do
  let (_, s) ← s.processTimeouts k d₁
  let s ← s.setTimeout k (.cpu k) q d₂
  s.scheduleTimeout k d₃

/-- `Thread::Thread`. -/
def newThread (t : τ) : Timers κ τ :=
  { s with
    list := s.list.constructElement (.thread t)
    listed := Function.update s.listed (.thread t) false
    endTime := Function.update s.endTime (.thread t) 0
    live := insert t s.live
    cpu := Function.update s.cpu t none
    timeoutSigid := Function.update s.timeoutSigid t 0 }

/-- `Thread::_call_start_thread`. -/
def startThread (t : τ) (k : κ) : Timers κ τ := { s with cpu := Function.update s.cpu t (some k) }

/-- `Thread::_call_timeout` for a timeout in `ticks`. -/
def callTimeout (t : τ) (ticks : UInt64) (sigid : UInt16) (d : UInt64) : Exec (Timers κ τ) := do
  let k ← Exec.deref (s.cpu t)
  let s := { s with timeoutSigid := Function.update s.timeoutSigid t sigid }
  s.setTimeout k (.thread t) ticks d

/-- `Thread::~Thread`, after `_call_delete_thread`. Neither it nor
`~Timeout` does anything about the timer. -/
def deleteThread (t : τ) : Timers κ τ := { s with live := s.live.erase t }

/-! ## The timeouts of existing objects -/

/-- The CPU whose timer a timeout is for. -/
def on : Timeout κ τ → Option κ
  | .cpu k => some k
  | .thread t => s.cpu t

/-- The lists `L` hold exactly the listed timeouts of existing objects,
each at the timer of its CPU. -/
structure Inv (s : Timers κ τ) (L : κ → List (Timeout κ τ)) : Prop where
  repr : s.list.Repr L
  mem : ∀ {k x}, x ∈ L k → s.Exists x ∧ s.on x = some k
  listed : ∀ {x}, s.Exists x → (s.listed x = true ↔ ∃ k, x ∈ L k)

variable {s} {s' : Timers κ τ} {L : κ → List (Timeout κ τ)} {k : κ} {x : Timeout κ τ}

omit [DecidableEq κ] [DecidableEq τ] [Fintype κ] in
theorem inv_init (time last : κ → UInt64) : Inv (init time last : Timers κ τ) fun _ => [] where
  repr := Lists.repr_init
  mem := by simp
  listed := by simp [init]

theorem Inv.length_le (h : Inv s L) (k : κ) : (L k).length ≤ s.fuel := by
  classical
  have hsub : (L k).toFinset ⊆
      (s.live.image Timeout.thread) ∪ (Finset.univ.image Timeout.cpu) := by
    intro x hx
    have hex := (h.mem (List.mem_toFinset.mp hx)).1
    cases x with
    | cpu k => simp
    | thread t => simpa [Exists] using hex
  calc (L k).length = (L k).toFinset.card := (List.toFinset_card_of_nodup (h.repr.nodup k)).symm
    _ ≤ _ := Finset.card_le_card hsub
    _ ≤ _ := Finset.card_union_le _ _
    _ ≤ s.fuel := Nat.add_le_add Finset.card_image_le Finset.card_image_le

omit [DecidableEq κ] [DecidableEq τ] [Fintype κ] in
/-- The loop of `set_timeout` stops behind the part of the list that ends
before `e`. -/
theorem place_eq {e : UInt64} {n : Nat} {p u : Option (Timeout κ τ)} {ys : List (Timeout κ τ)}
    (hc : Chain s.list.next p ys) (hn : ys.length ≤ n) :
    ∃ xs zs, ys = xs ++ zs ∧ s.place e n u p = .ok (xs.getLast?.or u) ∧
      (∀ x ∈ xs, s.endTime x < e) ∧ ∀ z ∈ zs.head?, ¬ s.endTime z < e := by
  induction ys generalizing n p u with
  | nil =>
    obtain rfl : p = none := hc
    exact ⟨[], [], rfl, by cases n <;> simp [place], by simp, by simp⟩
  | cons y ys ih =>
    obtain ⟨n, rfl⟩ : ∃ m, n = m + 1 := ⟨n - 1, by simp at hn; omega⟩
    rw [hc.1]
    by_cases hlt : s.endTime y < e
    · obtain ⟨xs, zs, rfl, hp, hbefore, hbehind⟩ := ih (u := some y) hc.2 (by simpa using hn)
      refine ⟨y :: xs, zs, rfl, ?_, List.forall_mem_cons.mpr ⟨hlt, hbefore⟩, hbehind⟩
      rw [place, if_pos hlt, hp]
      cases xs using List.reverseRecOn with
      | nil => simp
      | append_singleton xs z =>
        rw [show y :: (xs ++ [z]) = (y :: xs) ++ [z] from rfl, List.getLast?_concat,
          List.getLast?_concat]
        rfl
    · exact ⟨[], y :: ys, rfl, by simp [place, hlt], by simp, by simpa using hlt⟩

/-- The operation changed no object, only the lists and the times. -/
def SameObjects (s s' : Timers κ τ) : Prop := s'.live = s.live ∧ s'.cpu = s.cpu

omit [DecidableEq κ] [DecidableEq τ] [Fintype κ] in
theorem SameObjects.exists_iff (h : SameObjects s s') : s'.Exists x ↔ s.Exists x := by
  cases x with
  | cpu k => exact Iff.rfl
  | thread t => simp [Exists, h.1]

omit [DecidableEq κ] [DecidableEq τ] [Fintype κ] in
theorem SameObjects.on_eq (h : SameObjects s s') : s'.on x = s.on x := by
  cases x with
  | cpu k => rfl
  | thread t => simp [on, h.2]

omit [DecidableEq κ] [DecidableEq τ] [Fintype κ] in
theorem SameObjects.trans {s'' : Timers κ τ} (h : SameObjects s s') (h' : SameObjects s' s'') :
    SameObjects s s'' := ⟨h'.1.trans h.1, h'.2.trans h.2⟩

/-- The invariant while the timeout `x` is in no list and its flag is
not up to date. -/
structure Unlisted (x : Timeout κ τ) (s : Timers κ τ) (L : κ → List (Timeout κ τ)) : Prop where
  repr : s.list.Repr L
  mem : ∀ {k y}, y ∈ L k → s.Exists y ∧ s.on y = some k
  listed : ∀ {y}, y ≠ x → s.Exists y → (s.listed y = true ↔ ∃ k, y ∈ L k)
  not_mem : ∀ k, x ∉ L k

omit [Fintype κ] in
theorem Inv.unlisted (h : Inv s L) (hx : s.Exists x) (hl : s.listed x = false) (b : Bool) :
    Unlisted x (s.setListed x b) L where
  repr := h.repr
  mem := h.mem
  listed := by
    intro y hyx hy
    simp only [setListed, Function.update_of_ne hyx]
    exact h.listed hy
  not_mem := fun k hm => by
    simp [(h.listed hx).mpr ⟨k, hm⟩] at hl

/-- A timeout is taken out of its list. -/
theorem Inv.remove (h : Inv s L) (hx : x ∈ L k) :
    ∃ D, s.list.remove s.fuel k x = .ok D ∧
      Unlisted x (s.withList D) (Function.update L k ((L k).erase x)) := by
  obtain ⟨D, hD, hrepr⟩ := h.repr.remove (h.length_le k) hx
  have hno : ∀ k', x ∉ Function.update L k ((L k).erase x) k' := by
    intro k'
    by_cases hk : k' = k
    · subst hk
      rw [Function.update_self]
      exact (h.repr.nodup k').not_mem_erase
    · rw [Function.update_of_ne hk]
      exact fun hm => hk (h.repr.disj hm hx)
  have hother : ∀ {y}, y ≠ x → ∀ k', y ∈ Function.update L k ((L k).erase x) k' ↔ y ∈ L k' := by
    intro y hy k'
    by_cases hk : k' = k
    · subst hk
      rw [Function.update_self, List.mem_erase_of_ne hy]
    · rw [Function.update_of_ne hk]
  refine ⟨D, hD, hrepr, fun {k' y} hy => ?_, fun {y} hyx hy => ?_, hno⟩
  · have hyx : y ≠ x := fun he => hno k' (he ▸ hy)
    exact h.mem ((hother hyx k').mp hy)
  · simp only [hother hyx]
    exact h.listed hy

omit [Fintype κ] in
theorem Unlisted.setListed (h : Unlisted x s L) : Inv (s.setListed x false) L where
  repr := h.repr
  mem := h.mem
  listed := by
    intro y hy
    by_cases hyx : y = x
    · subst hyx
      simp [Timers.setListed, h.not_mem]
    · simp only [Timers.setListed, Function.update_of_ne hyx]
      exact h.listed hyx hy

/-- The timeout is put into the list of its CPU. -/
theorem Unlisted.insert (h : Unlisted x s L) (hlen : (L k).length ≤ s.fuel) (hex : s.Exists x)
    (hon : s.on x = some k) (hl : s.listed x = true) (e : UInt64) :
    ∃ t1 xs zs, s.place e s.fuel none (s.list.first k) = .ok t1 ∧
      Inv (s.withList (s.list.insert k x t1)) (Function.update L k (xs ++ x :: zs)) ∧
      L k = xs ++ zs ∧ (∀ y ∈ xs, s.endTime y < e) ∧ ∀ z ∈ zs.head?, ¬ s.endTime z < e := by
  obtain ⟨xs, zs, hk, hp, hbefore, hbehind⟩ :=
    place_eq (s := s) (e := e) (u := none) (h.repr.chain k) hlen
  rw [Option.or_none] at hp
  have hrepr := h.repr.insert h.not_mem hk
  have hself : x ∈ Function.update L k (xs ++ x :: zs) k := by simp
  have hother : ∀ {y}, y ≠ x → ∀ k', y ∈ Function.update L k (xs ++ x :: zs) k' ↔ y ∈ L k' := by
    intro y hy k'
    by_cases hk' : k' = k
    · subst hk'
      simp [hk, hy]
    · rw [Function.update_of_ne hk']
  refine ⟨_, xs, zs, hp, ⟨hrepr, fun {k' y} hy => ?_, fun {y} hy => ?_⟩, hk, hbefore, hbehind⟩
  · by_cases hyx : y = x
    · subst hyx
      obtain rfl : k = k' := hrepr.disj hself hy
      exact ⟨hex, hon⟩
    · exact h.mem ((hother hyx k').mp hy)
  · by_cases hyx : y = x
    · subst hyx
      exact ⟨fun _ => ⟨k, hself⟩, fun _ => hl⟩
    · simp only [hother hyx]
      exact h.listed hyx hy

theorem Unlisted.length_le (h : Unlisted x s L) (k : κ) :
    (L k).length ≤ s.fuel :=
  h.setListed.length_le k

/-! ## The operations keep the invariant -/

/-- The first half of `set_timeout` leaves the timeout in no list, with
its flag set. -/
theorem Inv.takeOut (h : Inv s L) (hex : s.Exists x) (hon : s.on x = some k) :
    ∃ s', s.takeOut k x = .ok s' ∧ Unlisted x s' (Function.update L k ((L k).erase x)) ∧
      SameObjects s s' ∧ s'.listed x = true ∧ s'.endTime = s.endTime ∧ s'.time = s.time := by
  unfold Timers.takeOut
  cases hl : s.listed x with
  | true =>
    obtain ⟨k', hx⟩ := (h.listed hex).mp hl
    obtain rfl : k = k' := Option.some.inj (hon.symm.trans (h.mem hx).2)
    obtain ⟨D, hD, hu⟩ := h.remove hx
    exact ⟨_, by rw [hD]; rfl, hu, ⟨rfl, rfl⟩, hl, rfl, rfl⟩
  | false =>
    have hu := h.unlisted hex hl true
    rw [List.erase_of_not_mem (hu.not_mem k), Function.update_eq_self]
    exact ⟨_, rfl, hu, ⟨rfl, rfl⟩, by simp [Timers.setListed], rfl, rfl⟩

/-- What `set_timeout` does: the timeout ends at `e`, and is listed behind
those that end before it. -/
structure Arms (k : κ) (x : Timeout κ τ) (e : UInt64) (s : Timers κ τ)
    (L : κ → List (Timeout κ τ)) (s' : Timers κ τ) (L' : κ → List (Timeout κ τ)) : Prop where
  inv : Inv s' L'
  objects : SameObjects s s'
  endTime : s'.endTime = Function.update s.endTime x e
  time : s'.time = s.time
  list : ∃ xs zs, L' = Function.update L k (xs ++ x :: zs) ∧ (L k).erase x = xs ++ zs ∧
    (∀ y ∈ xs, s'.endTime y < e) ∧ ∀ z ∈ zs.head?, ¬ s'.endTime z < e

theorem Inv.setTimeout (h : Inv s L) (hex : s.Exists x) (hon : s.on x = some k)
    (duration d : UInt64) :
    ∃ s' L', s.setTimeout k x duration d = .ok s' ∧ Arms k x (s.now k d + duration) s L s' L' := by
  obtain ⟨s₁, hs₁, h₁, hsame, hl₁, hend, htime⟩ := h.takeOut hex hon
  have hnow : s₁.now k d = s.now k d := congrArg (· k + d) htime
  have h₂ : Unlisted x (s₁.setEnd x (s₁.now k d + duration))
      (Function.update L k ((L k).erase x)) := ⟨h₁.repr, h₁.mem, h₁.listed, h₁.not_mem⟩
  obtain ⟨t1, xs, zs, hp, hinv, hk, hbefore, hbehind⟩ := h₂.insert (h₂.length_le k)
    (hsame.exists_iff.mpr hex) (hsame.on_eq.trans hon) hl₁
    ((s₁.setEnd x (s₁.now k d + duration)).endTime x)
  have hself : (s₁.setEnd x (s₁.now k d + duration)).endTime x = s.now k d + duration := by
    rw [← hnow]
    exact Function.update_self ..
  rw [Function.update_idem] at hinv
  rw [Function.update_self] at hk
  rw [hself] at hbefore hbehind
  refine ⟨_, _, ?_, ⟨hinv, hsame, ?_, htime, xs, zs, rfl, hk, hbefore, hbehind⟩⟩
  · unfold Timers.setTimeout
    rw [hs₁, Exec.ok_bind]
    dsimp only
    rw [hp]
    rfl
  · rw [← hend, ← hnow]
    rfl

omit [Fintype κ] in
theorem Arms.mem {e : UInt64} {s' : Timers κ τ} {L' : κ → List (Timeout κ τ)}
    (h : Arms k x e s L s' L') : x ∈ L' k := by
  obtain ⟨xs, zs, rfl, -⟩ := h.list
  simp

/-- The timeouts that the loop of `process_timeouts` triggers, in this
order. -/
def triggerLoop (k : κ) (t : UInt64) (n : Nat) (s : Timers κ τ) :
    Exec (List (Timeout κ τ) × Timers κ τ) :=
  match s.list.first k with
  | none => .ok ([], s)
  | some timeout =>
    if s.endTime timeout > t then .ok ([], s)
    else
      match n with
      | 0 => .error .endless
      | n + 1 => do
        let list ← s.list.remove s.fuel k timeout
        let r ← triggerLoop k t n ((s.withList list).setListed timeout false)
        .ok (timeout :: r.1, r.2)

theorem processLoop_eq (t : UInt64) (n : Nat) (s : Timers κ τ) (submits : List (τ × UInt16)) :
    processLoop k t n s submits = (do
      let r ← triggerLoop k t n s
      .ok (submits ++ r.1.flatMap s.timeoutTriggered, r.2)) := by
  induction n generalizing s submits with
  | zero =>
    unfold processLoop triggerLoop
    cases s.list.first k with
    | none => simp
    | some x =>
      dsimp only
      split
      · simp
      · rfl
  | succ n ih =>
    unfold processLoop triggerLoop
    cases s.list.first k with
    | none => simp
    | some x =>
      dsimp only
      split
      · simp
      · cases s.list.remove s.fuel k x with
        | error e => rfl
        | ok D =>
          have hsame : ((s.withList D).setListed x false).timeoutTriggered = s.timeoutTriggered := by
            funext y
            cases y <;> rfl
          rw [Exec.ok_bind, Exec.ok_bind, ih, hsame]
          cases triggerLoop k t n ((s.withList D).setListed x false) with
          | error e => rfl
          | ok r => simp

/-- What `process_timeouts` does at time `t`: it takes the timeouts `ts`
off the front of the list. -/
structure Triggers (k : κ) (t : UInt64) (ts : List (Timeout κ τ)) (s : Timers κ τ)
    (L : κ → List (Timeout κ τ)) (s' : Timers κ τ) (L' : κ → List (Timeout κ τ)) : Prop where
  inv : Inv s' L'
  objects : SameObjects s s'
  endTime : s'.endTime = s.endTime
  time : s'.time = s.time
  list : L' = Function.update L k ((L k).dropWhile (s.endTime · ≤ t))
  triggered : ts = (L k).takeWhile (s.endTime · ≤ t)

omit [DecidableEq τ] [Fintype κ] in
theorem Inv.triggers_nothing {t : UInt64} (h : Inv s L)
    (htake : (L k).takeWhile (s.endTime · ≤ t) = []) : Triggers k t [] s L s L := by
  have hdrop := List.takeWhile_append_dropWhile (p := (s.endTime · ≤ t)) (l := L k)
  rw [htake, List.nil_append] at hdrop
  exact ⟨h, ⟨rfl, rfl⟩, rfl, rfl, by rw [hdrop, Function.update_eq_self], htake.symm⟩

theorem Inv.triggerLoop (h : Inv s L) {n : Nat} (hn : (L k).length ≤ n) (t : UInt64) :
    ∃ ts s' L', triggerLoop k t n s = .ok (ts, s') ∧ Triggers k t ts s L s' L' := by
  induction n generalizing s L with
  | zero =>
    have hnil : L k = [] := List.length_eq_zero_iff.mp (Nat.le_zero.mp hn)
    have hfirst : s.list.first k = none := by simp [h.repr.first_eq, hnil]
    exact ⟨[], s, L, by simp [Timers.triggerLoop, hfirst],
      h.triggers_nothing (by rw [hnil]; rfl)⟩
  | succ n ih =>
    unfold Timers.triggerLoop
    cases hk : L k with
    | nil =>
      rw [h.repr.first_eq, hk]
      exact ⟨[], s, L, rfl, h.triggers_nothing (by rw [hk]; rfl)⟩
    | cons x xs =>
      rw [h.repr.first_eq, hk]
      dsimp only [List.head?_cons]
      split
      · rename_i hgt
        refine ⟨[], s, L, rfl, h.triggers_nothing ?_⟩
        rw [hk, List.takeWhile_cons_of_neg]
        simpa using hgt
      · rename_i hle
        have hx : x ∈ L k := by simp [hk]
        obtain ⟨D, hD, hu⟩ := h.remove hx
        have hrest : Function.update L k ((L k).erase x) k = xs := by
          rw [Function.update_self, hk, List.erase_cons_head]
        have hlen : (Function.update L k ((L k).erase x) k).length ≤ n := by
          rw [hrest]
          simpa [hk] using hn
        have hdue : decide (s.endTime x ≤ t) = true := by simpa using hle
        rw [hD, Exec.ok_bind]
        obtain ⟨ts, s', L', hr, ht⟩ := ih hu.setListed hlen
        rw [hr, Exec.ok_bind]
        refine ⟨x :: ts, s', L', rfl, ht.inv, .trans ⟨rfl, rfl⟩ ht.objects, ht.endTime, ht.time,
          ?_, ?_⟩
        · rw [ht.list, hrest, Function.update_idem, hk,
            List.dropWhile_cons_of_pos (p := (s.endTime · ≤ t)) hdue]
          rfl
        · rw [ht.triggered, hrest, hk, List.takeWhile_cons_of_pos (p := (s.endTime · ≤ t)) hdue]
          rfl

theorem Inv.processLoop (h : Inv s L) {n : Nat} (hn : (L k).length ≤ n) (t : UInt64)
    (submits : List (τ × UInt16)) :
    ∃ r L', processLoop k t n s submits = .ok r ∧ Inv r.2 L' ∧ SameObjects s r.2 := by
  obtain ⟨ts, s', L', hr, ht⟩ := h.triggerLoop hn t
  exact ⟨(submits ++ ts.flatMap s.timeoutTriggered, s'), L', by rw [processLoop_eq, hr]; rfl, ht.inv,
    ht.objects⟩

theorem Inv.processTimeouts (h : Inv s L) (k : κ) (d : UInt64) :
    ∃ r L', s.processTimeouts k d = .ok r ∧ Inv r.2 L' ∧ SameObjects s r.2 :=
  h.processLoop (h.length_le k) _ _

theorem Inv.schedule (h : Inv s L) (k : κ) (q d₁ d₂ d₃ : UInt64) :
    ∃ s' L', s.schedule k q d₁ d₂ d₃ = .ok s' ∧ Inv s' L' := by
  obtain ⟨r, L₁, hr, h₁, -⟩ := h.processTimeouts k d₁
  obtain ⟨s₂, L₂, hs₂, harms⟩ := h₁.setTimeout (x := .cpu k) (k := k) trivial rfl q d₂
  have h₂ := harms.inv
  have hfirst : s₂.list.first k ≠ none := by
    rw [h₂.repr.first_eq, Ne, List.head?_eq_none_iff]
    exact List.ne_nil_of_mem harms.mem
  obtain ⟨y, hy⟩ := Option.ne_none_iff_exists'.mp hfirst
  unfold Timers.schedule
  rw [hr, Exec.ok_bind]
  dsimp only
  rw [hs₂, Exec.ok_bind, scheduleTimeout, hy]
  exact ⟨_, L₂, rfl, h₂.repr, h₂.mem, h₂.listed⟩

omit [Fintype κ] in
/-- A new thread is in no list. -/
theorem Inv.newThread (h : Inv s L) {t : τ} (ht : t ∉ s.live) : Inv (s.newThread t) L := by
  have hno : ∀ k, Timeout.thread t ∉ L k := fun k hm => ht (h.mem hm).1
  refine ⟨h.repr.constructElement hno, fun {k x} hx => ?_, fun {x} hx => ?_⟩
  · have hold := h.mem hx
    cases x with
    | cpu k => exact hold
    | thread t' =>
      have hne : t' ≠ t := fun he => hno k (he ▸ hx)
      exact ⟨Finset.mem_insert_of_mem hold.1, by simpa [on, Timers.newThread, hne] using hold.2⟩
  · by_cases hxt : x = .thread t
    · subst hxt
      simp [Timers.newThread, hno]
    · have hex : s.Exists x := by
        cases x with
        | cpu k => trivial
        | thread t' =>
          have hne : t' ≠ t := fun he => hxt (he ▸ rfl)
          simpa [Exists, Timers.newThread, hne] using hx
      simp only [Timers.newThread, Function.update_of_ne hxt]
      exact h.listed hex

omit [DecidableEq κ] [Fintype κ] in
/-- A thread without a CPU is in no list. -/
theorem Inv.startThread (h : Inv s L) {t : τ} (ht : s.cpu t = none) (k : κ) :
    Inv (s.startThread t k) L := by
  refine ⟨h.repr, fun {k' x} hx => ?_, h.listed⟩
  have hold := h.mem hx
  cases x with
  | cpu k => exact hold
  | thread t' =>
    have hne : t' ≠ t := by
      rintro rfl
      exact absurd (ht.symm.trans hold.2) (by simp)
    exact ⟨hold.1, by simpa [on, Timers.startThread, hne] using hold.2⟩

theorem Inv.callTimeout (h : Inv s L) {t : τ} (ht : t ∈ s.live) (hk : s.cpu t = some k)
    (ticks : UInt64) (sigid : UInt16) (d : UInt64) :
    ∃ s' L', s.callTimeout t ticks sigid d = .ok s' ∧ Inv s' L' := by
  have h₁ : Inv { s with timeoutSigid := Function.update s.timeoutSigid t sigid } L :=
    ⟨h.repr, h.mem, h.listed⟩
  obtain ⟨s', L', hs', h'⟩ := h₁.setTimeout (x := .thread t) ht hk ticks d
  refine ⟨s', L', ?_, h'.inv⟩
  unfold Timers.callTimeout
  rw [hk]
  exact hs'

omit [DecidableEq κ] [Fintype κ] in
/-- A thread may go if its timeout is not listed. -/
theorem Inv.deleteThread (h : Inv s L) {t : τ} (ht : t ∈ s.live)
    (hl : s.listed (.thread t) = false) : Inv (s.deleteThread t) L := by
  have hno : ∀ k, Timeout.thread t ∉ L k := fun k hm => by
    have := (h.listed (x := .thread t) ht).mpr ⟨k, hm⟩
    simp [hl] at this
  refine ⟨h.repr, fun {k x} hx => ?_, fun {x} hx => ?_⟩
  · have hold := h.mem hx
    cases x with
    | cpu k => exact hold
    | thread t' =>
      have hne : t' ≠ t := fun he => hno k (he ▸ hx)
      exact ⟨Finset.mem_erase.mpr ⟨hne, hold.1⟩, hold.2⟩
  · refine h.listed ?_
    cases x with
    | cpu k => trivial
    | thread t' => exact Finset.mem_of_mem_erase hx

end Timers

/-! ## Runs -/

/-- The operations of the kernel that concern timeouts. -/
inductive TimerOp (κ τ : Type) where
  | newThread (t : τ)
  | startThread (t : τ) (k : κ)
  | timeout (t : τ) (ticks : UInt64) (sigid : UInt16) (d : UInt64)
  | process (k : κ) (d : UInt64)
  | schedule (k : κ) (q d₁ d₂ d₃ : UInt64)
  | deleteThread (t : τ)
  deriving DecidableEq, Repr

variable {κ τ : Type} [DecidableEq κ] [DecidableEq τ] [Fintype κ]

namespace TimerOp

/-- A thread is created once, is started once, does kernel calls only
after that, and is deleted once. -/
def Allowed (s : Timers κ τ) : TimerOp κ τ → Prop
  | newThread t => t ∉ s.live
  | startThread t _ => t ∈ s.live ∧ s.cpu t = none
  | timeout t _ _ _ => t ∈ s.live ∧ s.cpu t ≠ none
  | deleteThread t => t ∈ s.live
  | process _ _ | schedule _ _ _ _ _ => True

instance (s : Timers κ τ) : (op : TimerOp κ τ) → Decidable (op.Allowed s)
  | newThread t => inferInstanceAs (Decidable (t ∉ s.live))
  | startThread t _ => inferInstanceAs (Decidable (t ∈ s.live ∧ s.cpu t = none))
  | timeout t _ _ _ => inferInstanceAs (Decidable (t ∈ s.live ∧ s.cpu t ≠ none))
  | deleteThread t => inferInstanceAs (Decidable (t ∈ s.live))
  | process _ _ | schedule _ _ _ _ _ => .isTrue trivial

def run (s : Timers κ τ) : TimerOp κ τ → Exec (Timers κ τ)
  | newThread t => .ok (s.newThread t)
  | startThread t k => .ok (s.startThread t k)
  | timeout t ticks sigid d => s.callTimeout t ticks sigid d
  | process k d => do
    let (_, s) ← s.processTimeouts k d
    .ok s
  | schedule k q d₁ d₂ d₃ => s.schedule k q d₁ d₂ d₃
  | deleteThread t => .ok (s.deleteThread t)

/-- No thread is deleted while its timeout is listed. -/
def DeletesUnlisted (s : Timers κ τ) : TimerOp κ τ → Prop
  | deleteThread t => s.listed (.thread t) = false
  | _ => True

instance (s : Timers κ τ) : (op : TimerOp κ τ) → Decidable (op.DeletesUnlisted s)
  | deleteThread t => inferInstanceAs (Decidable (s.listed (.thread t) = false))
  | newThread _ | startThread _ _ | timeout _ _ _ _ | process _ _ | schedule _ _ _ _ _ =>
    .isTrue trivial

end TimerOp

namespace Timers

variable {s s' : Timers κ τ} {L : κ → List (Timeout κ τ)} {op : TimerOp κ τ}

/-- An operation that is allowed returns and keeps the invariant, unless
it deletes a thread whose timeout is listed. -/
theorem Inv.run (h : Inv s L) (ha : op.Allowed s) :
    ∃ s', op.run s = .ok s' ∧ (op.DeletesUnlisted s → ∃ L', Inv s' L') := by
  cases op with
  | newThread t => exact ⟨_, rfl, fun _ => ⟨L, h.newThread ha⟩⟩
  | startThread t k => exact ⟨_, rfl, fun _ => ⟨L, h.startThread ha.2 k⟩⟩
  | timeout t ticks sigid d =>
    obtain ⟨k, hk⟩ := Option.ne_none_iff_exists'.mp ha.2
    obtain ⟨s', L', hs', h'⟩ := h.callTimeout ha.1 hk ticks sigid d
    exact ⟨s', hs', fun _ => ⟨L', h'⟩⟩
  | process k d =>
    obtain ⟨r, L', hr, h', -⟩ := h.processTimeouts k d
    exact ⟨r.2, by simp [TimerOp.run, hr], fun _ => ⟨L', h'⟩⟩
  | schedule k q d₁ d₂ d₃ =>
    obtain ⟨s', L', hs', h'⟩ := h.schedule k q d₁ d₂ d₃
    exact ⟨s', hs', fun _ => ⟨L', h'⟩⟩
  | deleteThread t => exact ⟨_, rfl, fun hl => ⟨L, h.deleteThread ha hl⟩⟩

def Init (s : Timers κ τ) : Prop := ∃ time last, s = init time last

def Trans : Timers κ τ → TimerOp κ τ → Timers κ τ → Prop :=
  Guarded (fun s op => op.Allowed s) fun s op => op.run s

/-- What is in the lists belongs to existing objects, and the flags of
these say whether they are in a list. -/
def Consistent (s : Timers κ τ) : Prop :=
  ∃ L, s.list.Repr L ∧ (∀ k, ∀ x ∈ L k, s.Exists x) ∧
    ∀ x, s.Exists x → (s.listed x = true ↔ ∃ k, x ∈ L k)

theorem Trans.inv (h : ∃ L, Inv s L) (ht : Trans s op s') (hop : op.DeletesUnlisted s) :
    ∃ L, Inv s' L := by
  obtain ⟨L, h⟩ := h
  obtain ⟨s₁, hs₁, hinv⟩ := h.run ht.1
  obtain rfl : s₁ = s' := Except.ok.inj (hs₁.symm.trans ht.2)
  exact hinv hop

/-- Deleting a thread does not change the list it is in. -/
theorem Trans.not_consistent (h : ∃ L, Inv s L) (ht : Trans s op s')
    (hop : ¬ op.DeletesUnlisted s) : ¬ Consistent s' := by
  obtain ⟨L, h⟩ := h
  rintro ⟨L', hrepr, hmem, -⟩
  cases op with
  | deleteThread t =>
    obtain rfl : s.deleteThread t = s' := Except.ok.inj ht.2
    obtain ⟨k, hx⟩ := (h.listed (x := .thread t) ht.1).mp (Bool.eq_true_of_not_eq_false hop)
    have hL : L' = L := hrepr.unique h.repr
    have hex : t ∈ s.live.erase t := hmem k (.thread t) (hL ▸ hx)
    simp at hex
  | _ => exact hop trivial

variable {hist : List (Timers κ τ × TimerOp κ τ)}

/-- The lists hold only existing objects, and the flags are right, in
every state of a run exactly if the run deletes no thread whose timeout
is listed. In such a run every operation returns. -/
theorem consistent_iff (h : Run Init Trans hist s) :
    ((∀ t ∈ reached hist s, Consistent t) ↔ ∀ e ∈ hist, e.2.DeletesUnlisted e.1) ∧
    ((∀ e ∈ hist, e.2.DeletesUnlisted e.1) →
      ∀ op : TimerOp κ τ, op.Allowed s → ∃ s', op.run s = .ok s') := by
  have hinit : ∀ s : Timers κ τ, Init s → ∃ L, Inv s L := by
    rintro s ⟨time, last, rfl⟩
    exact ⟨_, inv_init time last⟩
  have hstep : ∀ (s : Timers κ τ) op s', (∃ L, Inv s L) → Trans s op s' →
      op.DeletesUnlisted s → ∃ L, Inv s' L := fun _ _ _ => Trans.inv
  constructor
  · refine Run.forall_reached_iff (C := fun s op => op.DeletesUnlisted s) hinit hstep ?_
      (fun _ _ _ => Trans.not_consistent) h
    rintro s ⟨L, hinv⟩
    exact ⟨L, hinv.repr, fun k x hx => (hinv.mem hx).1, fun x => hinv.listed⟩
  · intro hc op hop
    obtain ⟨L, hinv⟩ := h.invariant_of hinit hstep hc
    obtain ⟨s', hs', -⟩ := hinv.run hop
    exact ⟨s', hs'⟩

theorem exists_run (time last : κ → UInt64) (ops : List (TimerOp κ τ))
    {p : List (Timers κ τ × TimerOp κ τ) × Timers κ τ → Prop} [DecidablePred p]
    (h : (replay (perform (fun s op => op.Allowed s) fun s op => op.run s) ops
      ([], init time last)).any (fun r => decide (p r)) = true) :
    ∃ hist s, Run Init Trans hist s ∧ p (hist, s) :=
  exists_guarded_run ⟨time, last, rfl⟩ h

/-- The timeout of a thread triggers before the thread is deleted. -/
theorem consistent_iff_triggered :
    ∃ (hist : List (Timers (Fin 1) (Fin 2) × TimerOp (Fin 1) (Fin 2)))
      (s : Timers (Fin 1) (Fin 2)), Run Init Trans hist s ∧
      (s.live = {1} ∧ s.listed (.thread 1) = true) ∧ ∀ t ∈ reached hist s, Consistent t := by
  obtain ⟨hist, s, h, hp, hdel⟩ := exists_run (fun _ : Fin 1 => 0) (fun _ => 0)
    [.newThread (0 : Fin 2), .newThread 1, .startThread 0 0, .startThread 1 0, .timeout 0 50 7 0,
      .timeout 1 90 8 0, .schedule 0 60 10 10 10, .schedule 0 60 45 45 45, .deleteThread 0]
    (p := fun r => (r.2.live = {1} ∧ r.2.listed (.thread 1) = true) ∧
      ∀ e ∈ r.1, e.2.DeletesUnlisted e.1) (by decide +kernel)
  exact ⟨hist, s, h, hp, (consistent_iff h).1.mpr hdel⟩

/-- A thread is deleted while it waits for its timeout: the list of the
timer then holds an object that does not exist. -/
theorem deleted_thread_stays_listed :
    ∃ (hist : List (Timers (Fin 1) (Fin 1) × TimerOp (Fin 1) (Fin 1)))
      (s : Timers (Fin 1) (Fin 1)), Run Init Trans hist s ∧
      (s.list.first 0 = some (.thread 0) ∧ ¬ s.Exists (.thread 0)) ∧
      ¬ ∀ t ∈ reached hist s, Consistent t := by
  obtain ⟨hist, s, h, hfirst, hlive⟩ := exists_run (fun _ : Fin 1 => 0)
    (fun _ => 0) [.newThread (0 : Fin 1), .startThread 0 0, .timeout 0 50 7 0, .deleteThread 0]
    (p := fun r => r.2.list.first 0 = some (.thread 0) ∧ 0 ∉ r.2.live) (by decide)
  refine ⟨hist, s, h, ⟨hfirst, hlive⟩, fun hall => ?_⟩
  obtain ⟨L, hrepr, hmem, -⟩ := hall s (by simp [reached])
  have hx : .thread 0 ∈ L 0 := List.mem_of_mem_head? (hrepr.first_eq 0 ▸ hfirst)
  exact hlive (hmem 0 _ hx)

end Timers

end Genode.Kernel
