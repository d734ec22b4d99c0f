import Mathlib.Algebra.Order.Ring.Nat
import Genode.Kernel.Timer

/-!
# Timer — order and punctuality of the timeouts

The list of a timer is searched from its front only, so it has to be
ordered by end time. An end time is a machine sum: it is the time at
which the timeout was set plus its duration only as long as this sum
does not wrap around.
-/

namespace Genode.Kernel

open Lib Util

namespace Timers

variable {κ τ : Type} [DecidableEq κ] [DecidableEq τ] [Fintype κ]
variable {s s' : Timers κ τ} {L L' : κ → List (Timeout κ τ)} {k : κ} {x : Timeout κ τ}

/-! ## The order of the lists -/

/-- Each list is ordered by end time. -/
def Sorted (s : Timers κ τ) (L : κ → List (Timeout κ τ)) : Prop :=
  ∀ k, (L k).Pairwise fun x y => s.endTime x ≤ s.endTime y

omit [DecidableEq κ] [DecidableEq τ] [Fintype κ] in
theorem Sorted.of_sublist (h : Sorted s L) (hend : s'.endTime = s.endTime)
    (hsub : ∀ k, (L' k).Sublist (L k)) : Sorted s' L' := by
  intro k
  rw [hend]
  exact (h k).sublist (hsub k)

omit [Fintype κ] in
theorem Arms.endTime_of_ne {e : UInt64} {y : Timeout κ τ} (h : Arms k x e s L s' L')
    (hy : y ≠ x) : s'.endTime y = s.endTime y := by
  rw [h.endTime, Function.update_of_ne hy]

omit [Fintype κ] in
theorem Arms.endTime_self {e : UInt64} (h : Arms k x e s L s' L') : s'.endTime x = e := by
  rw [h.endTime, Function.update_self]

omit [Fintype κ] in
/-- A timeout stays in its list, also when another one is set. -/
theorem Arms.mem_iff {e : UInt64} {y : Timeout κ τ} {k' : κ} (h : Arms k x e s L s' L')
    (hy : y ≠ x) : y ∈ L' k' ↔ y ∈ L k' := by
  obtain ⟨xs, zs, hL, herase, -⟩ := h.list
  by_cases hk : k' = k
  · have hold : y ∈ (L k).erase x ↔ y ∈ L k := List.mem_erase_of_ne hy
    rw [hL, hk, Function.update_self, ← hold, herase]
    simp [hy]
  · rw [hL, Function.update_of_ne hk]

omit [Fintype κ] in
theorem Arms.sorted {e : UInt64} (h : Arms k x e s L s' L') (hs : Sorted s L) :
    Sorted s' L' := by
  intro k'
  obtain ⟨xs, zs, hL, herase, hbefore, hbehind⟩ := h.list
  by_cases hk : k' = k
  · have hnodup := h.inv.repr.nodup k
    rw [hL, Function.update_self, List.nodup_middle, List.nodup_cons] at hnodup
    have hne : ∀ y ∈ xs ++ zs, y ≠ x := by
      intro y hy he
      exact hnodup.1 (he ▸ hy)
    have hrest : (xs ++ zs).Pairwise fun y z => s'.endTime y ≤ s'.endTime z := by
      have hold : (xs ++ zs).Pairwise fun y z => s.endTime y ≤ s.endTime z :=
        herase ▸ (hs k).sublist List.erase_sublist
      refine hold.imp_of_mem fun hy hz hle => ?_
      rwa [h.endTime_of_ne (hne _ hy), h.endTime_of_ne (hne _ hz)]
    obtain ⟨hxs, hzs, hcross⟩ := List.pairwise_append.mp hrest
    rw [hL, hk, Function.update_self]
    refine List.pairwise_append.mpr ⟨hxs, List.pairwise_cons.mpr ⟨?_, hzs⟩, ?_⟩
    · -- the first timeout behind `x` does not end before it, and so none does
      rw [h.endTime_self]
      cases zs with
      | nil => simp
      | cons z zs =>
        have hz : e ≤ s'.endTime z := UInt64.not_lt.mp (hbehind z rfl)
        intro y hy
        rcases List.mem_cons.mp hy with rfl | hy
        · exact hz
        · exact UInt64.le_trans hz ((List.pairwise_cons.mp hzs).1 y hy)
    · intro y hy z hz
      rcases List.mem_cons.mp hz with rfl | hz
      · rw [h.endTime_self]
        exact UInt64.le_of_lt (hbefore y hy)
      · exact hcross y hy z hz
  · -- another list does not hold `x`
    have hsame : L' k' = L k' := by rw [hL, Function.update_of_ne hk]
    have hne : ∀ y ∈ L' k', y ≠ x := by
      intro y hy he
      exact hk (h.inv.repr.disj (he ▸ hy) h.mem)
    rw [hsame] at hne ⊢
    refine (hs k').imp_of_mem fun hy hz hle => ?_
    rwa [h.endTime_of_ne (hne _ hy), h.endTime_of_ne (hne _ hz)]

omit [DecidableEq τ] [Fintype κ] in
theorem Triggers.sorted {t : UInt64} {ts : List (Timeout κ τ)} (h : Triggers k t ts s L s' L')
    (hs : Sorted s L) : Sorted s' L' := by
  apply hs.of_sublist h.endTime
  intro k'
  by_cases hk : k' = k
  · rw [h.list, hk, Function.update_self]
    exact List.dropWhile_sublist _
  · rw [h.list, Function.update_of_ne hk]

/-- In an ordered list, what is found from the front is all there is. -/
theorem takeWhile_eq_filter {α : Type} {f : α → UInt64} {xs : List α}
    (h : xs.Pairwise fun x y => f x ≤ f y) (t : UInt64) :
    xs.takeWhile (f · ≤ t) = xs.filter (f · ≤ t) := by
  induction xs with
  | nil => rfl
  | cons x xs ih =>
    obtain ⟨hx, hxs⟩ := List.pairwise_cons.mp h
    by_cases hle : f x ≤ t
    · have hd : decide (f x ≤ t) = true := decide_eq_true hle
      rw [List.takeWhile_cons_of_pos (p := (f · ≤ t)) hd,
        List.filter_cons_of_pos (p := (f · ≤ t)) hd, ih hxs]
    · have hnone : ∀ y ∈ x :: xs, ¬ decide (f y ≤ t) = true := by
        intro y hy
        rcases List.mem_cons.mp hy with rfl | hy
        · simpa using hle
        · have := hx y hy
          simp only [decide_eq_true_eq]
          exact fun hyt => hle (UInt64.le_trans this hyt)
      rw [List.filter_eq_nil_iff.mpr hnone,
        List.takeWhile_cons_of_neg (p := (f · ≤ t)) (hnone x (List.mem_cons_self ..))]

omit [DecidableEq τ] [Fintype κ] in
/-- `process_timeouts` triggers the timeouts of its list whose end time
has come, in the order of the end times. -/
theorem Triggers.mem_iff {t : UInt64} {ts : List (Timeout κ τ)} (h : Triggers k t ts s L s' L')
    (hs : Sorted s L) : x ∈ ts ↔ x ∈ L k ∧ s.endTime x ≤ t := by
  rw [h.triggered, takeWhile_eq_filter (hs k), List.mem_filter, decide_eq_true_eq]

omit [DecidableEq τ] [Fintype κ] in
theorem Triggers.ordered {t : UInt64} {ts : List (Timeout κ τ)} (h : Triggers k t ts s L s' L')
    (hs : Sorted s L) : ts.Pairwise fun x y => s.endTime x ≤ s.endTime y := by
  rw [h.triggered]
  exact (hs k).sublist (List.takeWhile_sublist _)

omit [DecidableEq τ] [Fintype κ] in
theorem Triggers.nodup {t : UInt64} {ts : List (Timeout κ τ)} (h : Triggers k t ts s L s' L')
    (hinv : Inv s L) : ts.Nodup := by
  rw [h.triggered]
  exact (hinv.repr.nodup k).sublist (List.takeWhile_sublist _)

omit [DecidableEq τ] [Fintype κ] in
/-- What is still listed was not triggered. -/
theorem Triggers.still_iff {t : UInt64} {ts : List (Timeout κ τ)} {k' : κ}
    (h : Triggers k t ts s L s' L') (hinv : Inv s L) : x ∈ L' k' ↔ x ∈ L k' ∧ x ∉ ts := by
  by_cases hk : k' = k
  · have hnodup := hinv.repr.nodup k
    have hsplit := List.takeWhile_append_dropWhile (p := (s.endTime · ≤ t)) (l := L k)
    rw [h.list, hk, Function.update_self, h.triggered]
    rw [← hsplit] at hnodup
    constructor
    · intro hx
      refine ⟨(List.dropWhile_sublist _).mem hx, fun hx' => ?_⟩
      exact (List.nodup_append.mp hnodup).2.2 x hx' x hx rfl
    · rintro ⟨hx, hnot⟩
      rw [← hsplit] at hx
      exact (List.mem_append.mp hx).resolve_left hnot
  · rw [h.list, Function.update_of_ne hk]
    refine ⟨fun hx => ⟨hx, fun hts => hk ?_⟩, And.left⟩
    rw [h.triggered] at hts
    exact hinv.repr.disj hx ((List.takeWhile_sublist _).mem hts)

/-- `process_timeouts` with the timeouts it triggers. -/
def triggerTimeouts (s : Timers κ τ) (k : κ) (d : UInt64) :
    Exec (List (Timeout κ τ) × Timers κ τ) :=
  triggerLoop k (s.now k d) s.fuel s

/-- `process_timeouts` triggers these timeouts, and submits for them. -/
theorem processTimeouts_eq (k : κ) (d : UInt64) : s.processTimeouts k d = (do
    let r ← s.triggerTimeouts k d
    .ok (r.1.flatMap s.timeoutTriggered, r.2)) := by
  have h := processLoop_eq (k := k) (s.now k d) s.fuel s []
  simp only [List.nil_append] at h
  exact h

theorem Inv.triggerTimeouts (h : Inv s L) (k : κ) (d : UInt64) :
    ∃ ts s' L', s.triggerTimeouts k d = .ok (ts, s') ∧ Triggers k (s.now k d) ts s L s' L' :=
  h.triggerLoop (h.length_le k) _

end Timers

/-! ## Runs -/

/-- The timers, the last time that each of them has shown, and when the
armed timeouts are due: the time at which they were set plus their
duration. -/
structure Clock (κ τ : Type) where
  timers : Timers κ τ
  last : κ → UInt64
  due : Timeout κ τ → Option Nat

/-- The calls of a timer; `d` is the value of the counter. -/
inductive TimeoutOp (κ τ : Type) where
  | set (k : κ) (x : Timeout κ τ) (duration d : UInt64)
  | process (k : κ) (d : UInt64)
  | schedule (k : κ) (d : UInt64)
  deriving DecidableEq, Repr

variable {κ τ : Type} [DecidableEq κ] [DecidableEq τ] [Fintype κ]

namespace TimeoutOp

/-- The time of a timer does not go back, a timeout is set at the timer of
its CPU, and `schedule_timeout` needs a timeout. -/
def Allowed (s : Clock κ τ) : TimeoutOp κ τ → Prop
  | set k x _ d => s.timers.Exists x ∧ s.timers.on x = some k ∧ s.last k ≤ s.timers.now k d
  | process k d => s.last k ≤ s.timers.now k d
  | schedule k d => s.last k ≤ s.timers.now k d ∧ s.timers.list.first k ≠ none

instance (s : Timers κ τ) : (x : Timeout κ τ) → Decidable (s.Exists x)
  | .cpu _ => .isTrue trivial
  | .thread t => inferInstanceAs (Decidable (t ∈ s.live))

instance (s : Clock κ τ) : (op : TimeoutOp κ τ) → Decidable (op.Allowed s)
  | set k x _ d => inferInstanceAs (Decidable
      (s.timers.Exists x ∧ s.timers.on x = some k ∧ s.last k ≤ s.timers.now k d))
  | process k d => inferInstanceAs (Decidable (s.last k ≤ s.timers.now k d))
  | schedule k d => inferInstanceAs (Decidable
      (s.last k ≤ s.timers.now k d ∧ s.timers.list.first k ≠ none))

def run (s : Clock κ τ) : TimeoutOp κ τ → Exec (Clock κ τ)
  | set k x duration d => do
    let timers ← s.timers.setTimeout k x duration d
    .ok { timers
          last := Function.update s.last k (s.timers.now k d)
          due := Function.update s.due x
            (some ((s.timers.now k d).toNat + duration.toNat)) }
  | process k d => do
    let (ts, timers) ← s.timers.triggerTimeouts k d
    .ok { timers
          last := Function.update s.last k (s.timers.now k d)
          due := fun x => if x ∈ ts then none else s.due x }
  | schedule k d => do
    let timers ← s.timers.scheduleTimeout k d
    .ok { s with timers, last := Function.update s.last k (s.timers.now k d) }

/-- The end time of a timeout that is set does not wrap around. -/
def EndsInRange (s : Clock κ τ) : TimeoutOp κ τ → Prop
  | set k _ duration d => (s.timers.now k d).toNat + duration.toNat < 2 ^ 64
  | process _ _ | schedule _ _ => True

instance (s : Clock κ τ) : (op : TimeoutOp κ τ) → Decidable (op.EndsInRange s)
  | set k _ duration d =>
    inferInstanceAs (Decidable ((s.timers.now k d).toNat + duration.toNat < 2 ^ 64))
  | process _ _ | schedule _ _ => .isTrue trivial

end TimeoutOp

namespace Clock

/-- No timeout was set yet. -/
def Init (s : Clock κ τ) : Prop :=
  (∀ k, s.timers.list.first k = none) ∧ (∀ x, s.timers.listed x = false) ∧ ∀ x, s.due x = none

def Trans : Clock κ τ → TimeoutOp κ τ → Clock κ τ → Prop :=
  Guarded (fun s op => op.Allowed s) fun s op => op.run s

/-- The lists are ordered by end time, and at any time from now on
`process_timeouts` would trigger exactly the timeouts that are due, each
once and in the order in which they became due. -/
structure Punctual (s : Clock κ τ) : Prop where
  sorted : ∃ L, s.timers.list.Repr L ∧ s.timers.Sorted L
  triggers : ∀ k d, s.last k ≤ s.timers.now k d →
    ∃ ts timers, s.timers.triggerTimeouts k d = .ok (ts, timers) ∧ ts.Nodup ∧
      (∀ x, x ∈ ts ↔ s.timers.on x = some k ∧ ∃ n, s.due x = some n ∧
        n ≤ (s.timers.now k d).toNat) ∧
      ts.Pairwise fun x y => ∀ m n, s.due x = some m → s.due y = some n → m ≤ n

/-- A timeout is due at its end time if it is listed, and else not at
all. -/
structure Timed (s : Clock κ τ) (L : κ → List (Timeout κ τ)) : Prop where
  inv : s.timers.Inv L
  sorted : s.timers.Sorted L
  due : ∀ {k x}, x ∈ L k → s.due x = some (s.timers.endTime x).toNat
  idle : ∀ {x}, (∀ k, x ∉ L k) → s.due x = none

variable {s s' : Clock κ τ} {L : κ → List (Timeout κ τ)} {op : TimeoutOp κ τ}

omit [DecidableEq κ] [DecidableEq τ] [Fintype κ] in
theorem Init.timed (h : Init s) : Timed s fun _ => [] where
  inv := by
    refine ⟨⟨h.1, fun _ => .nil, by simp⟩, by simp, fun {x} _ => ?_⟩
    simp [h.2.1 x]
  sorted := fun _ => .nil
  due := by simp
  idle := fun {x} _ => h.2.2 x

theorem Timed.punctual (h : Timed s L) : Punctual s where
  sorted := ⟨L, h.inv.repr, h.sorted⟩
  triggers := by
    intro k d _
    obtain ⟨ts, timers, L', hr, ht⟩ := h.inv.triggerTimeouts k d
    have hlist : ∀ x ∈ ts, x ∈ L k := fun x hx => ((ht.mem_iff h.sorted).mp hx).1
    refine ⟨ts, timers, hr, ht.nodup h.inv, fun x => ?_, ?_⟩
    · rw [ht.mem_iff h.sorted]
      constructor
      · rintro ⟨hx, hle⟩
        exact ⟨(h.inv.mem hx).2, _, h.due hx, UInt64.le_iff_toNat_le.mp hle⟩
      · rintro ⟨hon, n, hn, hle⟩
        obtain ⟨k', hx⟩ : ∃ k', x ∈ L k' := by
          by_contra hno
          rw [h.idle fun k' hx => hno ⟨k', hx⟩] at hn
          cases hn
        obtain rfl : k = k' := Option.some.inj (hon.symm.trans (h.inv.mem hx).2)
        rw [h.due hx] at hn
        obtain rfl := Option.some.inj hn
        exact ⟨hx, UInt64.le_iff_toNat_le.mpr hle⟩
    · refine (ht.ordered h.sorted).imp_of_mem fun hx hy hle m n hm hn => ?_
      rw [h.due (hlist _ hx)] at hm
      rw [h.due (hlist _ hy)] at hn
      rw [← Option.some.inj hm, ← Option.some.inj hn]
      exact UInt64.le_iff_toNat_le.mp hle

omit [Fintype κ] in
/-- A timeout is set whose end time does not wrap around. -/
theorem Timed.set {L' : κ → List (Timeout κ τ)} {k : κ} {x : Timeout κ τ} {duration d : UInt64}
    (h : Timed s L)
    (ha : Timers.Arms k x (s.timers.now k d + duration) s.timers L s'.timers L')
    (hdue : s'.due =
      Function.update s.due x (some ((s.timers.now k d).toNat + duration.toNat)))
    (hr : (s.timers.now k d).toNat + duration.toNat < 2 ^ 64) : Timed s' L' where
  inv := ha.inv
  sorted := ha.sorted h.sorted
  due := by
    intro k' y hy
    by_cases hyx : y = x
    · rw [hdue, hyx, Function.update_self, ha.endTime_self, UInt64.toNat_add,
        Nat.mod_eq_of_lt hr]
    · rw [hdue, Function.update_of_ne hyx, ha.endTime_of_ne hyx]
      exact h.due ((ha.mem_iff hyx).mp hy)
  idle := by
    intro y hy
    have hyx : y ≠ x := by
      rintro rfl
      exact hy k ha.mem
    rw [hdue, Function.update_of_ne hyx]
    exact h.idle fun k' hk' => hy k' ((ha.mem_iff hyx).mpr hk')

/-- A timeout whose end time has wrapped around would trigger at once,
long before it is due. -/
theorem Timed.not_punctual {L' : κ → List (Timeout κ τ)} {k : κ} {x : Timeout κ τ}
    {duration d : UInt64} (h : Timed s L)
    (ha : Timers.Arms k x (s.timers.now k d + duration) s.timers L s'.timers L')
    (hdue : s'.due =
      Function.update s.due x (some ((s.timers.now k d).toNat + duration.toNat)))
    (hlast : s'.last = Function.update s.last k (s.timers.now k d))
    (hr : ¬ (s.timers.now k d).toNat + duration.toNat < 2 ^ 64) : ¬ Punctual s' := by
  intro hp
  have hnow : s'.timers.now k d = s.timers.now k d := congrArg (· k + d) ha.time
  have hwrap : (s.timers.now k d + duration).toNat < (s.timers.now k d).toNat := by
    have h₁ : (s.timers.now k d).toNat < 2 ^ 64 := UInt64.toNat_lt _
    have h₂ : duration.toNat < 2 ^ 64 := UInt64.toNat_lt _
    rw [UInt64.toNat_add]
    omega
  obtain ⟨ts, timers, hr', -, hmem, -⟩ := hp.triggers k d
    (by rw [hlast, Function.update_self, hnow]; exact UInt64.le_refl _)
  obtain ⟨ts', timers', L'', hr'', ht⟩ := ha.inv.triggerTimeouts k d
  obtain rfl : ts' = ts := congrArg Prod.fst (Except.ok.inj (hr''.symm.trans hr'))
  have hx : x ∈ ts' := by
    rw [ht.mem_iff (ha.sorted h.sorted), ha.endTime_self, hnow]
    exact ⟨ha.mem, UInt64.le_iff_toNat_le.mpr (Nat.le_of_lt hwrap)⟩
  obtain ⟨-, n, hn, hle⟩ := (hmem x).mp hx
  rw [hdue, Function.update_self] at hn
  obtain rfl := Option.some.inj hn
  rw [hnow] at hle
  have hlt : (s.timers.now k d).toNat < 2 ^ 64 := UInt64.toNat_lt _
  omega

omit [Fintype κ] in
theorem Timed.process {L' : κ → List (Timeout κ τ)} {k : κ} {t : UInt64}
    {ts : List (Timeout κ τ)} (h : Timed s L)
    (ht : Timers.Triggers k t ts s.timers L s'.timers L')
    (hdue : s'.due = fun x => if x ∈ ts then none else s.due x) : Timed s' L' where
  inv := ht.inv
  sorted := ht.sorted h.sorted
  due := by
    intro k' x hx
    obtain ⟨hx, hnot⟩ := (ht.still_iff h.inv).mp hx
    rw [hdue, ht.endTime]
    simpa [hnot] using h.due hx
  idle := by
    intro x hx
    rw [hdue]
    by_cases hts : x ∈ ts
    · simp [hts]
    · simpa [hts] using h.idle fun k' hk' => hx k' ((ht.still_iff h.inv).mpr ⟨hk', hts⟩)

/-- An operation keeps the timeouts punctual, unless it lets an end time
wrap around. -/
theorem Timed.step (h : Timed s L) (ht : Trans s op s') :
    (op.EndsInRange s → ∃ L', Timed s' L') ∧ (¬ op.EndsInRange s → ¬ Punctual s') := by
  obtain ⟨hallowed, hrun⟩ := ht
  cases op with
  | set k x duration d =>
    obtain ⟨timers, L', hset, ha⟩ := h.inv.setTimeout hallowed.1 hallowed.2.1 duration d
    simp only [TimeoutOp.run, hset, Exec.ok_bind] at hrun
    obtain rfl := Except.ok.inj hrun
    exact ⟨fun hr => ⟨L', h.set ha rfl hr⟩, h.not_punctual ha rfl rfl⟩
  | process k d =>
    obtain ⟨ts, timers, L', htr, ht⟩ := h.inv.triggerTimeouts k d
    simp only [TimeoutOp.run, htr, Exec.ok_bind] at hrun
    obtain rfl := Except.ok.inj hrun
    exact ⟨fun _ => ⟨L', h.process ht rfl⟩, fun hno => absurd trivial hno⟩
  | schedule k d =>
    obtain ⟨x, hx⟩ := Option.ne_none_iff_exists'.mp hallowed.2
    simp only [TimeoutOp.run, Timers.scheduleTimeout, hx, Exec.ok_bind] at hrun
    obtain rfl := Except.ok.inj hrun
    exact ⟨fun _ => ⟨L, ⟨h.inv.repr, h.inv.mem, h.inv.listed⟩, h.sorted, h.due, h.idle⟩,
      fun hno => absurd trivial hno⟩

variable {hist : List (Clock κ τ × TimeoutOp κ τ)}

/-- The timeouts are punctual in every state of a run exactly if no end
time wraps around in it. In such a run every operation returns. -/
theorem punctual_iff (h : Run Init Trans hist s) :
    ((∀ t ∈ reached hist s, Punctual t) ↔ ∀ e ∈ hist, e.2.EndsInRange e.1) ∧
    ((∀ e ∈ hist, e.2.EndsInRange e.1) →
      ∀ op : TimeoutOp κ τ, op.Allowed s → ∃ s', op.run s = .ok s') := by
  have hinit : ∀ s : Clock κ τ, Init s → ∃ L, Timed s L := fun _ h => ⟨_, h.timed⟩
  have hstep : ∀ (s : Clock κ τ) op s', (∃ L, Timed s L) → Trans s op s' →
      op.EndsInRange s → ∃ L, Timed s' L := by
    intro s op s' hI ht hc
    obtain ⟨L, h⟩ := hI
    exact (h.step ht).1 hc
  constructor
  · apply Run.forall_reached_iff hinit hstep _ _ h
    · intro s hI
      obtain ⟨L, h⟩ := hI
      exact h.punctual
    · intro s op s' hI ht hc
      obtain ⟨L, h⟩ := hI
      exact (h.step ht).2 hc
  · intro hc op hop
    obtain ⟨L, hL⟩ := h.invariant_of hinit hstep hc
    cases op with
    | set k x duration d =>
      obtain ⟨timers, L', hset, -⟩ := hL.inv.setTimeout hop.1 hop.2.1 duration d
      exact ⟨_, by simp only [TimeoutOp.run, hset, Exec.ok_bind]; rfl⟩
    | process k d =>
      obtain ⟨ts, timers, L', htr, -⟩ := hL.inv.triggerTimeouts k d
      exact ⟨_, by simp only [TimeoutOp.run, htr, Exec.ok_bind]; rfl⟩
    | schedule k d =>
      obtain ⟨x, hx⟩ := Option.ne_none_iff_exists'.mp hop.2
      exact ⟨_, by simp only [TimeoutOp.run, Timers.scheduleTimeout, hx, Exec.ok_bind]; rfl⟩

theorem exists_run {s : Clock κ τ} (hs : Init s) (ops : List (TimeoutOp κ τ))
    {p : List (Clock κ τ × TimeoutOp κ τ) × Clock κ τ → Prop} [DecidablePred p]
    (h : (replay (perform (fun s op => op.Allowed s) fun s op => op.run s) ops
      ([], s)).any (fun r => decide (p r)) = true) :
    ∃ hist s, Run Init Trans hist s ∧ p (hist, s) :=
  exists_guarded_run hs h

/-- A CPU with two threads that have set no timeout. -/
def sample : Clock (Fin 1) (Fin 2) where
  timers := { Timers.init (fun _ => 0) (fun _ => 0) with
    live := Finset.univ, cpu := fun _ => some (Fin.last 0) }
  last := fun _ => 0
  due := fun _ => none

theorem sample_init : Init sample := ⟨fun _ => rfl, fun _ => rfl, fun _ => rfl⟩

/-- The first thread sets its timeout a second time, and it triggers
before that of the second thread. -/
theorem punctual_iff_rearmed :
    ∃ (hist : List (Clock (Fin 1) (Fin 2) × TimeoutOp (Fin 1) (Fin 2)))
      (s : Clock (Fin 1) (Fin 2)), Run Init Trans hist s ∧
      (s.due (.thread 0) = none ∧ s.due (.thread 1) = some 35) ∧
      ∀ t ∈ reached hist s, Punctual t := by
  obtain ⟨hist, s, h, hdue, hrange⟩ := exists_run sample_init
    [.set 0 (.thread 0) 50 0, .set 0 (.thread 1) 30 5, .set 0 (.cpu 0) 60 10,
      .schedule 0 11, .set 0 (.thread 0) 20 1, .process 0 20, .process 0 22]
    (p := fun r => (r.2.due (.thread 0) = none ∧ r.2.due (.thread 1) = some 35) ∧
      ∀ e ∈ r.1, e.2.EndsInRange e.1) (by decide +kernel)
  exact ⟨hist, s, h, hdue, (punctual_iff h).1.mpr hrange⟩

/-- A thread sets its timeout as late as it can. It is the next one to
trigger, after no time at all. -/
theorem late_timeout_triggers_at_once :
    ∃ (hist : List (Clock (Fin 1) (Fin 2) × TimeoutOp (Fin 1) (Fin 2)))
      (s : Clock (Fin 1) (Fin 2)), Run Init Trans hist s ∧
      ¬ ∀ t ∈ reached hist s, Punctual t := by
  obtain ⟨hist, s, h, hlast, hts, hdue⟩ := exists_run sample_init
    [.set 0 (.thread 0) 18446744073709551615 10]
    (p := fun r => (r.2.last 0 ≤ r.2.timers.now 0 10) ∧
      ((r.2.timers.triggerTimeouts 0 10).toOption.map Prod.fst = some [.thread 0]) ∧
      ∀ n ∈ r.2.due (.thread 0), (r.2.timers.now 0 10).toNat < n) (by decide +kernel)
  refine ⟨hist, s, h, fun hall => ?_⟩
  obtain ⟨ts, timers, hr, -, hmem, -⟩ := (hall s (by simp [reached])).triggers 0 10 hlast
  rw [hr] at hts
  obtain rfl : ts = [.thread 0] := Option.some.inj hts
  obtain ⟨-, n, hn, hle⟩ := (hmem (.thread 0)).mp (List.mem_singleton_self _)
  exact absurd (hdue n hn) (Nat.not_lt_of_le hle)

end Clock

end Genode.Kernel
