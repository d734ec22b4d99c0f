import Mathlib.Data.List.Basic
import Mathlib.Data.Nat.ModEq
import Mathlib.Logic.Function.Basic
import Genode.Lib.Run

/-!
# PacketQueue — the packet-descriptor queue and its two sides

`os/include/os/packet_stream.h`. The queue lies in memory that two
components share: the transmitter writes the slots and `_head`, the
receiver writes `_tail`. Each side has a mutex of its own, so at most one
method of each side is under way, at a place that `TxPc` and `RxPc` tell;
the two sides interleave at every access to the shared indices.

`wakeup` of the receiving component is `rx_wakeup(tx_wakeup())`, with the
transmitter of the queue that leads back. The two calls take two mutexes,
so other threads of the component may come in between. What the first
call returned is kept in `wakeups`.

Both signal handlers are registered, and one handler of a component
serves both of its queues, as the comments on `wakeup` ask for.
-/

namespace Genode.Os

open Lib

variable {α : Type}

/-- `Packet_descriptor_queue`. -/
structure PacketDescriptorQueue (α : Type) where
  head : Nat
  tail : Nat
  queue : Nat → α

namespace PacketDescriptorQueue

variable (N : Nat) (q : PacketDescriptorQueue α)

def empty : Bool := q.tail = q.head

def full : Bool := (q.head + 1) % N = q.tail

def singleElement : Bool := (q.tail + 1) % N = q.head

def singleSlotFree : Bool := (q.head + 2) % N = q.tail

/-- The first half of `add`. -/
def write (p : α) : PacketDescriptorQueue α :=
  { q with queue := Function.update q.queue (q.head % N) p }

/-- The second half of `add`. -/
def advanceHead : PacketDescriptorQueue α := { q with head := (q.head + 1) % N }

def peek : α := q.queue (q.tail % N)

/-- The second half of `get`. -/
def advanceTail : PacketDescriptorQueue α := { q with tail := (q.tail + 1) % N }

end PacketDescriptorQueue

/-- Where the transmitter stands; `direct` tells `tx` from `try_tx`. -/
inductive TxPc (α : Type) where
  | idle
  | check (p : α) (direct : Bool)
  | recheck (p : α) (direct : Bool)
  | write (p : α) (direct : Bool)
  | advance (p : α) (direct : Bool)
  | single (direct : Bool)
  | submit
  | look
  | wakeup
  | clear

/-- Where the receiver stands; `direct` tells `rx` from `try_rx`. -/
inductive RxPc (α : Type) where
  | idle
  | check (direct : Bool)
  | take (direct : Bool)
  | advance (p : α) (direct : Bool)
  | single (direct : Bool)
  | submit
  | look
  | wakeup (omitSignal : Bool)
  | clear

/-- The queue, its two sides, and what an observer notes. -/
structure PacketQueue (α : Type) where
  q : PacketDescriptorQueue α
  txPc : TxPc α
  txWakeupNeeded : Bool
  rxPc : RxPc α
  rxWakeupNeeded : Bool
  /-- The results of `tx_wakeup` in the calls of the receiver's `wakeup` under way. -/
  wakeups : List Bool
  /-- All descriptors added and taken so far. -/
  added : List α
  taken : List α
  /-- The transmitter has last seen the queue full, the receiver empty. -/
  sawFull : Bool
  sawEmpty : Bool
  /-- A signal was sent to the side since it last looked at the queue. -/
  txReady : Bool
  rxReady : Bool

namespace PacketQueue

variable (N : Nat) (s : PacketQueue α)

/-- The transmitter evaluates `full`. -/
def lookFull : PacketQueue α := { s with sawFull := s.q.full N, txReady := false }

/-- The receiver evaluates `empty`. -/
def lookEmpty : PacketQueue α := { s with sawEmpty := s.q.empty, rxReady := false }

/-- The next step of the method that the transmitter executes. -/
def txStep : Option (PacketQueue α) :=
  match s.txPc with
  | .idle => none
  | .check p direct =>
    some { s.lookFull N with txPc := if s.q.full N then .idle else .recheck p direct }
  -- `add` looks again, and its result is not used
  | .recheck p direct =>
    some { s.lookFull N with txPc := if s.q.full N then .single direct else .write p direct }
  | .write p direct => some { s with q := s.q.write N p, txPc := .advance p direct }
  | .advance p direct =>
    some { s with q := s.q.advanceHead N, added := s.added ++ [p], txPc := .single direct }
  | .single direct =>
    if s.q.singleElement N then
      if direct then some { s with txPc := .submit }
      else some { s with txWakeupNeeded := true, txPc := .idle }
    else some { s with txPc := .idle }
  | .submit => some { s with rxReady := true, txPc := .idle }
  | .look => some { s.lookFull N with txPc := .idle }
  | .wakeup => some { s with rxReady := s.rxReady || s.txWakeupNeeded, txPc := .clear }
  | .clear => some { s with txWakeupNeeded := false, txPc := .idle }

/-- The next step of the method that the receiver executes. -/
def rxStep : Option (PacketQueue α) :=
  match s.rxPc with
  | .idle => none
  -- on an empty queue `rx` throws, and `try_rx` goes on behind `get`
  | .check direct =>
    some { s.lookEmpty with rxPc :=
      if s.q.empty then (if direct then .idle else .single direct) else .take direct }
  | .take direct => some { s with rxPc := .advance (s.q.peek N) direct }
  | .advance p direct =>
    some { s with q := s.q.advanceTail N, taken := s.taken ++ [p], rxPc := .single direct }
  | .single direct =>
    if s.q.singleSlotFree N then
      if direct then some { s with rxPc := .submit }
      else some { s with rxWakeupNeeded := true, rxPc := .idle }
    else some { s with rxPc := .idle }
  | .submit => some { s with txReady := true, rxPc := .idle }
  | .look => some { s.lookEmpty with rxPc := .idle }
  | .wakeup omitSignal =>
    some { s with
      txReady := s.txReady || (s.rxWakeupNeeded && !omitSignal)
      rxPc := .clear }
  | .clear => some { s with rxWakeupNeeded := false, rxPc := .idle }

/-- Calls of the methods, and the steps of the methods under way. -/
inductive Op (α : Type) where
  | tx (p : α)
  | tryTx (p : α)
  | readyForTx
  | txWakeup
  | txStep
  | rx
  | tryRx
  | readyForRx
  | wakeup (signalSubmitted : Bool)
  | rxWakeup (omitSignal : Bool)
  | rxStep

/-- A method of the transmitter takes the mutex. -/
def enterTx (pc : TxPc α) : Option (PacketQueue α) :=
  match s.txPc with
  | .idle => some { s with txPc := pc }
  | _ => none

/-- A method of the receiver takes the mutex. -/
def enterRx (pc : RxPc α) : Option (PacketQueue α) :=
  match s.rxPc with
  | .idle => some { s with rxPc := pc }
  | _ => none

def step : Op α → Option (PacketQueue α)
  | .tx p => s.enterTx (.check p true)
  | .tryTx p => s.enterTx (.check p false)
  | .readyForTx => s.enterTx .look
  | .txWakeup => s.enterTx .wakeup
  | .txStep => s.txStep N
  | .rx => s.enterRx (.check true)
  | .tryRx => s.enterRx (.check false)
  | .readyForRx => s.enterRx .look
  -- the signal that `tx_wakeup` of the other queue submits goes to the same handler
  | .wakeup signalSubmitted =>
    some { s with
      txReady := s.txReady || signalSubmitted
      wakeups := signalSubmitted :: s.wakeups }
  | .rxWakeup omitSignal =>
    if omitSignal ∈ s.wakeups then
      { s with wakeups := s.wakeups.erase omitSignal }.enterRx (.wakeup omitSignal)
    else none
  | .rxStep => s.rxStep N

def Trans (s : PacketQueue α) (a : Op α) (s' : PacketQueue α) : Prop :=
  s.step N a = some s'

/-- Both sides were constructed; the content of the slots does not matter. -/
def Init (s : PacketQueue α) : Prop :=
  ∃ queue, s =
    { q := ⟨0, 0, queue⟩, txPc := .idle, txWakeupNeeded := false, rxPc := .idle,
      rxWakeupNeeded := false, wakeups := [], added := [], taken := [], sawFull := false,
      sawEmpty := false, txReady := false, rxReady := false }

/-! ## First in, first out -/

/-- What the transmitter relies on after it has seen a free slot. -/
def TxSound : Prop :=
  match s.txPc with
  | .recheck _ _ | .write _ _ => s.sawFull = false ∧ s.added.length + 1 < s.taken.length + N
  | .advance p _ =>
    s.sawFull = false ∧ s.added.length + 1 < s.taken.length + N ∧
      s.q.queue (s.added.length % N) = p
  | _ => True

/-- What the receiver relies on after it has seen an element. -/
def RxSound : Prop :=
  match s.rxPc with
  | .take _ => s.sawEmpty = false ∧ s.taken.length < s.added.length
  | .advance p _ =>
    s.sawEmpty = false ∧ s.taken.length < s.added.length ∧ s.added[s.taken.length]? = some p
  | _ => True

/-- The indices count the descriptors, and the slots between them hold those
that were added and not yet taken. -/
structure Inv (s : PacketQueue α) : Prop where
  head_eq : s.q.head = s.added.length % N
  tail_eq : s.q.tail = s.taken.length % N
  le : s.taken.length ≤ s.added.length
  lt : s.added.length < s.taken.length + N
  slots : ∀ i, s.taken.length ≤ i → i < s.added.length → s.added[i]? = some (s.q.queue (i % N))
  taken_eq : s.taken = s.added.take s.taken.length
  tx : s.TxSound N
  rx : s.RxSound

variable {N s} {s' : PacketQueue α} {a : Op α}

/-- Numbers less than a round apart that agree as indices. -/
theorem mod_eq_mod_iff {b t : Nat} (h : t ≤ b) (h' : b ≤ t + N) (hN : 0 < N) :
    b % N = t % N ↔ b = t ∨ b = t + N := by
  constructor
  · intro he
    obtain ⟨k, hk⟩ := (Nat.modEq_iff_dvd' h).mp (Eq.symm he : t ≡ b [MOD N])
    have hk2 : k < 2 := by
      by_contra hk2
      have : N * 2 ≤ N * k := Nat.mul_le_mul_left N (by omega)
      omega
    obtain rfl | rfl : k = 0 ∨ k = 1 := by omega
    · left
      omega
    · right
      omega
  · rintro (rfl | rfl)
    · rfl
    · exact Nat.add_mod_right t N

namespace Inv

theorem pos (h : s.Inv N) : 0 < N := by
  have h₁ := h.le
  have h₂ := h.lt
  omega

theorem empty_eq (h : s.Inv N) : s.q.empty = true ↔ s.added.length = s.taken.length := by
  rw [PacketDescriptorQueue.empty, decide_eq_true_iff, h.head_eq, h.tail_eq, eq_comm,
    mod_eq_mod_iff h.le h.lt.le h.pos]
  have := h.lt
  omega

theorem full_eq (h : s.Inv N) :
    s.q.full N = true ↔ s.added.length + 1 = s.taken.length + N := by
  have h₁ := h.le
  have h₂ := h.lt
  rw [PacketDescriptorQueue.full, decide_eq_true_iff, h.head_eq, h.tail_eq, Nat.mod_add_mod,
    mod_eq_mod_iff (by omega) (by omega) h.pos]
  omega

theorem singleElement_of (h : s.Inv N) (h' : s.added.length = s.taken.length + 1) :
    s.q.singleElement N = true := by
  rw [PacketDescriptorQueue.singleElement, decide_eq_true_iff, h.head_eq, h.tail_eq,
    Nat.mod_add_mod, h']

theorem singleSlotFree_of (h : s.Inv N) (h' : s.added.length + 2 = s.taken.length + N) :
    s.q.singleSlotFree N = true := by
  rw [PacketDescriptorQueue.singleSlotFree, decide_eq_true_iff, h.head_eq, h.tail_eq,
    Nat.mod_add_mod, h', Nat.add_mod_right]

/-- The steps that neither touch the queue nor its history. -/
theorem frame (h : s.Inv N) (hq : s'.q = s.q) (ha : s'.added = s.added) (ht : s'.taken = s.taken)
    (htx : s'.TxSound N) (hrx : s'.RxSound) : s'.Inv N :=
  ⟨by rw [hq, ha, h.head_eq], by rw [hq, ht, h.tail_eq], by rw [ha, ht]; exact h.le,
    by rw [ha, ht]; exact h.lt, by rw [hq, ha, ht]; exact h.slots,
    by rw [ha, ht]; exact h.taken_eq, htx, hrx⟩

/-- The slot behind the last one is not in use. -/
theorem write (h : s.Inv N) {p : α} {direct : Bool} (hpc : s.txPc = .write p direct) :
    Inv N { s with q := s.q.write N p, txPc := .advance p direct } := by
  have htx := h.tx
  rw [TxSound, hpc] at htx
  have hhead : s.q.head % N = s.added.length % N := by rw [h.head_eq, Nat.mod_mod]
  refine ⟨h.head_eq, h.tail_eq, h.le, h.lt, fun i hi hi' => ?_, h.taken_eq,
    ⟨htx.1, htx.2, ?_⟩, h.rx⟩
  · have hne : i % N ≠ s.added.length % N := by
      intro he
      have hi₁ : s.taken.length ≤ i := hi
      have hi₂ : i < s.added.length := hi'
      have := (mod_eq_mod_iff hi₂.le (by omega) h.pos).mp he.symm
      omega
    change s.added[i]? = some (Function.update s.q.queue (s.q.head % N) p (i % N))
    rw [hhead, Function.update_of_ne hne]
    exact h.slots i hi hi'
  · change Function.update s.q.queue (s.q.head % N) p (s.added.length % N) = p
    rw [hhead, Function.update_self]

theorem advanceHead (h : s.Inv N) {p : α} {direct : Bool} (hpc : s.txPc = .advance p direct) :
    Inv N { s with
      q := s.q.advanceHead N, added := s.added ++ [p], txPc := .single direct } := by
  have htx := h.tx
  rw [TxSound, hpc] at htx
  obtain ⟨-, hlt, hp⟩ := htx
  have hle := h.le
  refine ⟨?_, h.tail_eq, ?_, ?_, fun i hi hi' => ?_, ?_, trivial, ?_⟩
  · change (s.q.head + 1) % N = _
    rw [h.head_eq, Nat.mod_add_mod, List.length_append, List.length_singleton]
  · simp only [List.length_append, List.length_singleton]
    omega
  · simpa only [List.length_append, List.length_singleton] using hlt
  · simp only [List.length_append, List.length_singleton] at hi'
    change (s.added ++ [p])[i]? = some (s.q.queue (i % N))
    by_cases hi₂ : i < s.added.length
    · rw [List.getElem?_append_left hi₂]
      exact h.slots i hi hi₂
    · obtain rfl : i = s.added.length := by omega
      rw [hp, List.getElem?_concat_length]
  · rw [List.take_append_of_le_length hle]
    exact h.taken_eq
  · have hrx := h.rx
    unfold RxSound at hrx ⊢
    dsimp only
    split
    · rename_i hr
      rw [hr] at hrx
      simp only [List.length_append, List.length_singleton]
      exact ⟨hrx.1, by omega⟩
    · rename_i hr
      rw [hr] at hrx
      simp only [List.length_append, List.length_singleton]
      refine ⟨hrx.1, by omega, ?_⟩
      rw [List.getElem?_append_left hrx.2.1]
      exact hrx.2.2
    · trivial

theorem take (h : s.Inv N) {direct : Bool} (hpc : s.rxPc = .take direct) :
    Inv N { s with rxPc := .advance (s.q.peek N) direct } := by
  have hrx := h.rx
  rw [RxSound, hpc] at hrx
  refine h.frame rfl rfl rfl h.tx ⟨hrx.1, hrx.2, ?_⟩
  rw [h.slots _ le_rfl hrx.2, PacketDescriptorQueue.peek, h.tail_eq, Nat.mod_mod]

theorem advanceTail (h : s.Inv N) {p : α} {direct : Bool} (hpc : s.rxPc = .advance p direct) :
    Inv N { s with
      q := s.q.advanceTail N, taken := s.taken ++ [p], rxPc := .single direct } := by
  have hrx := h.rx
  rw [RxSound, hpc] at hrx
  obtain ⟨-, hlt, hp⟩ := hrx
  have hlt' := h.lt
  refine ⟨h.head_eq, ?_, ?_, ?_, fun i hi hi' => ?_, ?_, ?_, trivial⟩
  · change (s.q.tail + 1) % N = _
    rw [h.tail_eq, Nat.mod_add_mod, List.length_append, List.length_singleton]
  · rw [List.length_append, List.length_singleton]
    exact Nat.succ_le_of_lt hlt
  · simp only [List.length_append, List.length_singleton]
    omega
  · simp only [List.length_append, List.length_singleton] at hi
    exact h.slots i (by omega) hi'
  · rw [List.length_append, List.length_singleton, List.take_add_one, hp, ← h.taken_eq]
    rfl
  · have htx := h.tx
    unfold TxSound at htx ⊢
    dsimp only
    rw [List.length_append, List.length_singleton]
    cases hr : s.txPc <;> rw [hr] at htx <;> first | trivial | skip
    · exact ⟨htx.1, by omega⟩
    · exact ⟨htx.1, by omega⟩
    · exact ⟨htx.1, by omega, htx.2.2⟩

/-- A look of the transmitter that finds a free slot. -/
theorem of_not_full (h : s.Inv N) (hf : ¬ s.q.full N = true) :
    s.added.length + 1 < s.taken.length + N := by
  rw [h.full_eq] at hf
  have := h.lt
  omega

/-- A look of the receiver that finds an element. -/
theorem of_not_empty (h : s.Inv N) (he : ¬ s.q.empty = true) :
    s.taken.length < s.added.length := by
  rw [h.empty_eq] at he
  have := h.le
  omega

theorem txStep (h : s.Inv N) (hs : s.txStep N = some s') : s'.Inv N := by
  unfold PacketQueue.txStep at hs
  split at hs
  · cases hs
  · cases hs
    refine h.frame rfl rfl rfl ?_ h.rx
    by_cases hf : s.q.full N = true
    · simp [TxSound, hf]
    · simpa [TxSound, lookFull, hf] using h.of_not_full hf
  · cases hs
    refine h.frame rfl rfl rfl ?_ h.rx
    by_cases hf : s.q.full N = true
    · simp [TxSound, hf]
    · simpa [TxSound, lookFull, hf] using h.of_not_full hf
  · rename_i hpc
    cases hs
    exact h.write hpc
  · rename_i hpc
    cases hs
    exact h.advanceHead hpc
  · split at hs
    · split at hs
      · cases hs
        exact h.frame rfl rfl rfl trivial h.rx
      · cases hs
        exact h.frame rfl rfl rfl trivial h.rx
    · cases hs
      exact h.frame rfl rfl rfl trivial h.rx
  all_goals
    cases hs
    exact h.frame rfl rfl rfl trivial h.rx

theorem rxStep (h : s.Inv N) (hs : s.rxStep N = some s') : s'.Inv N := by
  unfold PacketQueue.rxStep at hs
  split at hs
  · cases hs
  · rename_i direct _
    cases hs
    refine h.frame rfl rfl rfl h.tx ?_
    by_cases he : s.q.empty = true
    · cases direct <;> simp [RxSound, he]
    · simpa [RxSound, lookEmpty, he] using h.of_not_empty he
  · rename_i hpc
    cases hs
    exact h.take hpc
  · rename_i hpc
    cases hs
    exact h.advanceTail hpc
  · split at hs
    · split at hs
      · cases hs
        exact h.frame rfl rfl rfl h.tx trivial
      · cases hs
        exact h.frame rfl rfl rfl h.tx trivial
    · cases hs
      exact h.frame rfl rfl rfl h.tx trivial
  all_goals
    cases hs
    exact h.frame rfl rfl rfl h.tx trivial

end Inv

theorem enterTx_eq_some {pc : TxPc α} :
    s.enterTx pc = some s' ↔ s.txPc = .idle ∧ s' = { s with txPc := pc } := by
  unfold enterTx
  split
  · rename_i h
    simp [h, eq_comm]
  · rename_i h
    exact ⟨fun h' => (nomatch h'), fun h' => (h h'.1).elim⟩

theorem enterRx_eq_some {pc : RxPc α} :
    s.enterRx pc = some s' ↔ s.rxPc = .idle ∧ s' = { s with rxPc := pc } := by
  unfold enterRx
  split
  · rename_i h
    simp [h, eq_comm]
  · rename_i h
    exact ⟨fun h' => (nomatch h'), fun h' => (h h'.1).elim⟩

/-- What a step can be: a method of either side begins, or goes on. -/
theorem trans_cases (h : Trans N s a s') :
    (∃ pc, s.txPc = .idle ∧ s' = { s with txPc := pc } ∧ a ≠ .txStep ∧ a ≠ .rxStep ∧
        (pc = .look ∨ pc = .wakeup ∨ ∃ p direct, pc = .check p direct)) ∨
      (∃ pc, s.rxPc = .idle ∧ s' = { s with rxPc := pc } ∧ a ≠ .txStep ∧ a ≠ .rxStep ∧
        (pc = .look ∨ ∃ direct, pc = .check direct)) ∨
      (∃ signalSubmitted, a = .wakeup signalSubmitted ∧ s' = { s with
        txReady := s.txReady || signalSubmitted, wakeups := signalSubmitted :: s.wakeups }) ∨
      (∃ omitSignal, a = .rxWakeup omitSignal ∧ omitSignal ∈ s.wakeups ∧ s.rxPc = .idle ∧
        s' = { s with
          wakeups := s.wakeups.erase omitSignal, rxPc := .wakeup omitSignal }) ∨
      (a = .txStep ∧ s.txStep N = some s') ∨ (a = .rxStep ∧ s.rxStep N = some s') := by
  unfold Trans at h
  cases a with
  | tx p =>
    obtain ⟨hi, rfl⟩ := enterTx_eq_some.mp h
    exact .inl ⟨_, hi, rfl, by simp, by simp, .inr (.inr ⟨_, _, rfl⟩)⟩
  | tryTx p =>
    obtain ⟨hi, rfl⟩ := enterTx_eq_some.mp h
    exact .inl ⟨_, hi, rfl, by simp, by simp, .inr (.inr ⟨_, _, rfl⟩)⟩
  | readyForTx =>
    obtain ⟨hi, rfl⟩ := enterTx_eq_some.mp h
    exact .inl ⟨_, hi, rfl, by simp, by simp, .inl rfl⟩
  | txWakeup =>
    obtain ⟨hi, rfl⟩ := enterTx_eq_some.mp h
    exact .inl ⟨_, hi, rfl, by simp, by simp, .inr (.inl rfl)⟩
  | txStep => exact .inr (.inr (.inr (.inr (.inl ⟨rfl, h⟩))))
  | rx =>
    obtain ⟨hi, rfl⟩ := enterRx_eq_some.mp h
    exact .inr (.inl ⟨_, hi, rfl, by simp, by simp, .inr ⟨_, rfl⟩⟩)
  | tryRx =>
    obtain ⟨hi, rfl⟩ := enterRx_eq_some.mp h
    exact .inr (.inl ⟨_, hi, rfl, by simp, by simp, .inr ⟨_, rfl⟩⟩)
  | readyForRx =>
    obtain ⟨hi, rfl⟩ := enterRx_eq_some.mp h
    exact .inr (.inl ⟨_, hi, rfl, by simp, by simp, .inl rfl⟩)
  | wakeup b =>
    cases h
    exact .inr (.inr (.inl ⟨b, rfl, rfl⟩))
  | rxWakeup b =>
    simp only [step] at h
    split at h
    · rename_i hb
      obtain ⟨hi, rfl⟩ := enterRx_eq_some.mp h
      exact .inr (.inr (.inr (.inl ⟨b, rfl, hb, hi, rfl⟩)))
    · cases h
  | rxStep => exact .inr (.inr (.inr (.inr (.inr ⟨rfl, h⟩))))

theorem Inv.step (h : s.Inv N) (ht : Trans N s a s') : s'.Inv N := by
  rcases trans_cases ht with ⟨pc, -, rfl, -, -, hpc⟩ | ⟨pc, -, rfl, -, -, hpc⟩ | ⟨b, -, rfl⟩ |
    ⟨b, -, -, -, rfl⟩ | ⟨-, hs⟩ | ⟨-, hs⟩
  · refine h.frame rfl rfl rfl ?_ h.rx
    rcases hpc with rfl | rfl | ⟨p, direct, rfl⟩ <;> trivial
  · refine h.frame rfl rfl rfl h.tx ?_
    rcases hpc with rfl | ⟨direct, rfl⟩ <;> trivial
  · exact h.frame rfl rfl rfl h.tx h.rx
  · exact h.frame rfl rfl rfl h.tx trivial
  · exact h.txStep hs
  · exact h.rxStep hs

theorem Inv.init (hN : 0 < N) (h : s.Init) : s.Inv N := by
  obtain ⟨queue, rfl⟩ := h
  exact ⟨(Nat.zero_mod N).symm, (Nat.zero_mod N).symm, le_rfl, by simpa using hN, by simp, rfl,
    trivial, trivial⟩

/-- What was taken and what the queue holds, from `_tail` on, is what was added. -/
def Fifo (N : Nat) (s : PacketQueue α) : Prop :=
  ∃ k < N, s.q.head = (s.q.tail + k) % N ∧
    s.added = s.taken ++ (List.range k).map fun i => s.q.queue ((s.q.tail + i) % N)

theorem Inv.fifo (h : s.Inv N) : s.Fifo N := by
  have hle := h.le
  have hlt := h.lt
  refine ⟨s.added.length - s.taken.length, by omega, ?_, ?_⟩
  · rw [h.head_eq, h.tail_eq, Nat.mod_add_mod, Nat.add_sub_cancel' hle]
  · conv_lhs => rw [← List.take_append_drop s.taken.length s.added, ← h.taken_eq]
    congr 1
    apply List.ext_getElem?
    intro i
    rw [List.getElem?_drop, List.getElem?_map]
    by_cases hi : i < s.added.length - s.taken.length
    · rw [List.getElem?_range hi, h.slots _ (Nat.le_add_right _ _) (by omega), h.tail_eq,
        Option.map_some, Nat.mod_add_mod]
    · rw [List.getElem?_eq_none (by omega),
        List.getElem?_eq_none (by rw [List.length_range]; omega)]
      rfl

/-! ## Signals -/

variable (s) in
/-- The transmitter evaluates `full` in this step. -/
def txLooks : Op α → Bool
  | .txStep =>
    match s.txPc with
    | .check _ _ | .recheck _ _ | .look => true
    | _ => false
  | _ => false

variable (s) in
/-- The receiver evaluates `empty` in this step. -/
def rxLooks : Op α → Bool
  | .rxStep =>
    match s.rxPc with
    | .check _ | .look => true
    | _ => false
  | _ => false

variable (s) in
/-- `tx_wakeup` is done with this step. -/
def txWakes : Op α → Bool
  | .txStep =>
    match s.txPc with
    | .clear => true
    | _ => false
  | _ => false

variable (s) in
/-- `rx_wakeup` is done with this step. -/
def rxWakes : Op α → Bool
  | .rxStep =>
    match s.rxPc with
    | .clear => true
    | _ => false
  | _ => false

variable (s) in
/-- The transmitter is going to signal that there is an element. -/
def RxDue : Prop :=
  (s.txWakeupNeeded = true ∧ s.txPc ≠ .clear) ∨
    ((∃ direct, s.txPc = .single direct) ∧ s.added.length = s.taken.length + 1) ∨
    s.txPc = .submit

variable (N s) in
/-- The receiver is going to signal that there is a free slot, and no
`wakeup` under way can prevent it. -/
def TxDue : Prop :=
  true ∉ s.wakeups ∧ s.rxPc ≠ .wakeup true ∧
    ((s.rxWakeupNeeded = true ∧ s.rxPc ≠ .clear) ∨
      ((∃ direct, s.rxPc = .single direct) ∧ s.added.length + 2 = s.taken.length + N) ∨
      s.rxPc = .submit)

variable (s) in
/-- The receiver has not missed an element. -/
def RxTold : Prop :=
  s.sawEmpty = true → s.added.length = s.taken.length ∨ s.rxReady = true ∨ s.RxDue

variable (N s) in
/-- The transmitter has not missed a free slot. -/
def TxTold : Prop :=
  s.sawFull = true → s.added.length + 1 = s.taken.length + N ∨ s.txReady = true ∨ s.TxDue N

theorem RxDue.needed (h : s.RxDue) (hsingle : ∀ direct, s.txPc ≠ .single direct)
    (hsubmit : s.txPc ≠ .submit) : s.txWakeupNeeded = true ∧ s.txPc ≠ .clear := by
  rcases h with h | ⟨⟨direct, h⟩, -⟩ | h
  · exact h
  · exact (hsingle direct h).elim
  · exact (hsubmit h).elim

theorem TxDue.needed (h : s.TxDue N) (hsingle : ∀ direct, s.rxPc ≠ .single direct)
    (hsubmit : s.rxPc ≠ .submit) : s.rxWakeupNeeded = true ∧ s.rxPc ≠ .clear := by
  rcases h.2.2 with h | ⟨⟨direct, h⟩, -⟩ | h
  · exact h
  · exact (hsingle direct h).elim
  · exact (hsubmit h).elim

/-- The steps of the transmitter that do not concern the receiver. -/
theorem RxTold.frame {pc : TxPc α} {q : PacketDescriptorQueue α} {sawFull txReady : Bool}
    (h : s.RxTold) (hsingle : ∀ direct, s.txPc ≠ .single direct) (hsubmit : s.txPc ≠ .submit)
    (hclear : s.txPc ≠ .clear → pc ≠ .clear) :
    RxTold { s with q := q, sawFull := sawFull, txReady := txReady, txPc := pc } := by
  intro hempty
  refine (h hempty).imp_right (Or.imp_right fun hd => ?_)
  obtain ⟨hn, hc⟩ := hd.needed hsingle hsubmit
  exact .inl ⟨hn, hclear hc⟩

/-- The transmitter announces what it adds. -/
theorem RxTold.txStep (h : s.RxTold) (hI : s.Inv N) (hs : s.txStep N = some s') : s'.RxTold := by
  unfold PacketQueue.txStep at hs
  split at hs
  · cases hs
  all_goals rename_i hpc
  · cases hs
    exact h.frame (by simp [hpc]) (by simp [hpc]) (by split <;> simp)
  · cases hs
    exact h.frame (by simp [hpc]) (by simp [hpc]) (by split <;> simp)
  · cases hs
    exact h.frame (by simp [hpc]) (by simp [hpc]) (by simp)
  · cases hs
    intro hempty
    rcases h hempty with ha | hr | hd
    -- the queue was empty, so there is a single element now
    · exact .inr (.inr (.inr (.inl ⟨⟨_, rfl⟩, by simpa using ha⟩)))
    · exact .inr (.inl hr)
    · exact .inr (.inr (.inl ⟨(hd.needed (by simp [hpc]) (by simp [hpc])).1, by simp⟩))
  · intro hempty
    split at hs
    · split at hs
      · cases hs
        exact .inr (.inr (.inr (.inr rfl)))
      · cases hs
        exact .inr (.inr (.inl ⟨rfl, by simp⟩))
    · rename_i hsingle
      cases hs
      rcases h hempty with ha | hr | ⟨hn, -⟩ | ⟨-, ha⟩ | hsubmit
      · exact .inl ha
      · exact .inr (.inl hr)
      · exact .inr (.inr (.inl ⟨hn, by simp⟩))
      · exact (hsingle (hI.singleElement_of ha)).elim
      · simp [hpc] at hsubmit
  · cases hs
    exact fun _ => .inr (.inl rfl)
  · cases hs
    exact h.frame (by simp [hpc]) (by simp [hpc]) (by simp)
  · cases hs
    intro hempty
    rcases h hempty with ha | hr | hd
    · exact .inl ha
    · exact .inr (.inl (by simp [hr]))
    · exact .inr (.inl (by simp [(hd.needed (by simp [hpc]) (by simp [hpc])).1]))
  · cases hs
    intro hempty
    rcases h hempty with ha | hr | hd
    · exact .inl ha
    · exact .inr (.inl hr)
    · exact ((hd.needed (by simp [hpc]) (by simp [hpc])).2 hpc).elim

/-- The receiver has seen an element before it takes one. -/
theorem RxTold.rxStep (h : s.RxTold) (hI : s.Inv N) (hs : s.rxStep N = some s') : s'.RxTold := by
  unfold PacketQueue.rxStep at hs
  split at hs
  · cases hs
  all_goals rename_i hpc
  · cases hs
    exact fun he => .inl (hI.empty_eq.mp he)
  · cases hs
    exact h
  · cases hs
    intro hempty
    have hrx := hI.rx
    rw [RxSound, hpc] at hrx
    exact absurd (hrx.1.symm.trans hempty) (by simp)
  · split at hs
    · split at hs
      · cases hs
        exact h
      · cases hs
        exact h
    · cases hs
      exact h
  · cases hs
    exact h
  · cases hs
    exact fun he => .inl (hI.empty_eq.mp he)
  · cases hs
    exact h
  · cases hs
    exact h

theorem RxTold.step (h : s.RxTold) (hI : s.Inv N) (ht : Trans N s a s') : s'.RxTold := by
  rcases trans_cases ht with ⟨pc, hi, rfl, -, -, hpc⟩ | ⟨pc, -, rfl, -, -, -⟩ | ⟨b, -, rfl⟩ |
    ⟨b, -, -, -, rfl⟩ | ⟨-, hs⟩ | ⟨-, hs⟩
  · refine h.frame (by simp [hi]) (by simp [hi]) fun _ => ?_
    rcases hpc with rfl | rfl | ⟨p, direct, rfl⟩ <;> simp
  · exact h
  · exact h
  · exact h
  · exact h.txStep hI hs
  · exact h.rxStep hI hs

variable (N) in
/-- No packet is taken from a full queue while a `wakeup` of the receiver is
between its two calls with a signal submitted. -/
def Undisturbed (s : PacketQueue α) (a : Op α) : Prop :=
  ∀ p direct, a = .rxStep → s.rxPc = .advance p direct → s.q.full N = true → true ∉ s.wakeups

/-- The steps of the receiver that do not concern the transmitter. -/
theorem TxTold.frame {pc : RxPc α} {sawEmpty rxReady : Bool} (h : s.TxTold N)
    (hsingle : ∀ direct, s.rxPc ≠ .single direct) (hsubmit : s.rxPc ≠ .submit)
    (hclear : s.rxPc ≠ .clear → pc ≠ .clear) (hwakeup : pc ≠ .wakeup true) :
    TxTold N { s with sawEmpty := sawEmpty, rxReady := rxReady, rxPc := pc } := by
  intro hfull
  refine (h hfull).imp_right (Or.imp_right fun hd => ?_)
  obtain ⟨hn, hc⟩ := hd.needed hsingle hsubmit
  exact ⟨hd.1, hwakeup, .inl ⟨hn, hclear hc⟩⟩

/-- The receiver announces the slot that it frees, unless a call of
`wakeup` comes in between. -/
theorem TxTold.rxStep (h : s.TxTold N) (hI : s.Inv N)
    (hc : s.Undisturbed N .rxStep)
    (hs : s.rxStep N = some s') : s'.TxTold N := by
  unfold PacketQueue.rxStep at hs
  split at hs
  · cases hs
  all_goals rename_i hpc
  · cases hs
    refine h.frame (by simp [hpc]) (by simp [hpc]) (fun _ => ?_) ?_
    · split <;> [split; skip] <;> simp
    · split <;> [split; skip] <;> simp
  · cases hs
    exact h.frame (by simp [hpc]) (by simp [hpc]) (by simp) (by simp)
  · cases hs
    intro hfull
    rcases h hfull with ha | hr | hd
    -- the queue was full, so there is a single free slot now
    · refine .inr (.inr ⟨hc _ _ rfl hpc (hI.full_eq.mpr ha), by simp, .inr (.inl ⟨⟨_, rfl⟩, ?_⟩)⟩)
      simp only [List.length_append, List.length_singleton]
      omega
    · exact .inr (.inl hr)
    · have hn := (hd.needed (by simp [hpc]) (by simp [hpc])).1
      exact .inr (.inr ⟨hd.1, by simp, .inl ⟨hn, by simp⟩⟩)
  · intro hfull
    split at hs
    · rename_i hsingle
      split at hs
      · cases hs
        exact (h hfull).imp_right (Or.imp_right fun hd => ⟨hd.1, by simp, .inr (.inr rfl)⟩)
      · cases hs
        exact (h hfull).imp_right (Or.imp_right fun hd => ⟨hd.1, by simp, .inl ⟨rfl, by simp⟩⟩)
    · rename_i hsingle
      cases hs
      rcases h hfull with ha | hr | ⟨hw, -, ⟨hn, -⟩ | ⟨-, ha⟩ | hsubmit⟩
      · exact .inl ha
      · exact .inr (.inl hr)
      · exact .inr (.inr ⟨hw, by simp, .inl ⟨hn, by simp⟩⟩)
      · exact (hsingle (hI.singleSlotFree_of ha)).elim
      · simp [hpc] at hsubmit
  · cases hs
    exact fun _ => .inr (.inl rfl)
  · cases hs
    exact h.frame (by simp [hpc]) (by simp [hpc]) (by simp) (by simp)
  · rename_i omitSignal
    cases hs
    intro hfull
    rcases h hfull with ha | hr | hd
    · exact .inl ha
    · exact .inr (.inl (by simp [hr]))
    · have homit : omitSignal = false := by simpa [hpc] using hd.2.1
      have hn := (hd.needed (by simp [hpc]) (by simp [hpc])).1
      exact .inr (.inl (by simp [hn, homit]))
  · cases hs
    intro hfull
    rcases h hfull with ha | hr | hd
    · exact .inl ha
    · exact .inr (.inl hr)
    · exact ((hd.needed (by simp [hpc]) (by simp [hpc])).2 hpc).elim

/-- The transmitter has seen a free slot before it adds a descriptor. -/
theorem TxTold.txStep (h : s.TxTold N) (hI : s.Inv N) (hs : s.txStep N = some s') :
    s'.TxTold N := by
  unfold PacketQueue.txStep at hs
  split at hs
  · cases hs
  all_goals rename_i hpc
  · cases hs
    exact fun hf => .inl (hI.full_eq.mp hf)
  · cases hs
    exact fun hf => .inl (hI.full_eq.mp hf)
  · cases hs
    exact h
  · cases hs
    intro hfull
    have htx := hI.tx
    rw [TxSound, hpc] at htx
    exact absurd (htx.1.symm.trans hfull) (by simp)
  · split at hs
    · split at hs
      · cases hs
        exact h
      · cases hs
        exact h
    · cases hs
      exact h
  · cases hs
    exact h
  · cases hs
    exact fun hf => .inl (hI.full_eq.mp hf)
  · cases hs
    exact h
  · cases hs
    exact h

theorem TxTold.step (h : s.TxTold N) (hI : s.Inv N) (hc : s.Undisturbed N a)
    (ht : Trans N s a s') : s'.TxTold N := by
  rcases trans_cases ht with ⟨pc, -, rfl, -, -, -⟩ | ⟨pc, hi, rfl, -, -, hpc⟩ | ⟨b, -, rfl⟩ |
    ⟨b, -, hb, hi, rfl⟩ | ⟨-, hs⟩ | ⟨rfl, hs⟩
  · exact h
  · refine h.frame (by simp [hi]) (by simp [hi]) (fun _ => ?_) ?_
    · rcases hpc with rfl | ⟨direct, rfl⟩ <;> simp
    · rcases hpc with rfl | ⟨direct, rfl⟩ <;> simp
  · intro hfull
    rcases h hfull with ha | hr | hd
    · exact .inl ha
    · exact .inr (.inl (by simp [hr]))
    · cases b with
      | false => exact .inr (.inr ⟨by simpa using hd.1, hd.2⟩)
      | true => exact .inr (.inl (by simp))
  · intro hfull
    rcases h hfull with ha | hr | hd
    · exact .inl ha
    · exact .inr (.inl hr)
    · have hb' : b ≠ true := by
        rintro rfl
        exact hd.1 hb
      have hn := (hd.needed (by simp [hi]) (by simp [hi])).1
      exact .inr (.inr ⟨fun hw => hd.1 (List.mem_of_mem_erase hw), by simpa using hb',
        .inl ⟨hn, by simp⟩⟩)
  · exact h.txStep hI hs
  · exact h.rxStep hI hc hs

/-! ## Whole runs -/

/-- However the two sides go on: if the one side does not look at the
queue, then it has been sent a signal as soon as a wakeup of the other
side is done. -/
def SentByNextWakeup (N : Nat) (looks wakes : PacketQueue α → Op α → Bool)
    (ready : PacketQueue α → Bool) (s : PacketQueue α) : Prop :=
  ∀ later s', Run (· = s) (Trans N) later s' → (∀ e ∈ later, looks e.1 e.2 = false) →
    (∃ e ∈ later, wakes e.1 e.2 = true) → ready s' = true

/-- A side that has seen nothing to do, while there is something, is signalled. -/
structure Signalled (N : Nat) (s : PacketQueue α) : Prop where
  rx : s.q.empty = false → s.sawEmpty = true →
    s.rxReady = true ∨ SentByNextWakeup N rxLooks txWakes rxReady s
  tx : s.q.full N = false → s.sawFull = true →
    s.txReady = true ∨ SentByNextWakeup N txLooks rxWakes txReady s

/-- What the transmitter changes besides its own place. -/
theorem txStep_frame (hs : s.txStep N = some s') :
    s'.taken = s.taken ∧ s'.sawEmpty = s.sawEmpty ∧ (s.rxReady = true → s'.rxReady = true) ∧
      (s.txLooks .txStep = false → s'.sawFull = s.sawFull ∧ s'.txReady = s.txReady) ∧
      (s'.added = s.added ∨
        ∃ p direct, s.txPc = .advance p direct ∧ s'.added = s.added ++ [p]) := by
  unfold txStep at hs
  unfold txLooks
  split at hs
  · cases hs
  all_goals rename_i hpc; rw [hpc]
  · cases hs
    exact ⟨rfl, rfl, id, by simp, .inl rfl⟩
  · cases hs
    exact ⟨rfl, rfl, id, by simp, .inl rfl⟩
  · cases hs
    exact ⟨rfl, rfl, id, fun _ => ⟨rfl, rfl⟩, .inl rfl⟩
  · cases hs
    exact ⟨rfl, rfl, id, fun _ => ⟨rfl, rfl⟩, .inr ⟨_, _, rfl, rfl⟩⟩
  · split at hs
    · split at hs <;> cases hs <;> exact ⟨rfl, rfl, id, fun _ => ⟨rfl, rfl⟩, .inl rfl⟩
    · cases hs
      exact ⟨rfl, rfl, id, fun _ => ⟨rfl, rfl⟩, .inl rfl⟩
  · cases hs
    exact ⟨rfl, rfl, fun _ => rfl, fun _ => ⟨rfl, rfl⟩, .inl rfl⟩
  · cases hs
    exact ⟨rfl, rfl, id, by simp, .inl rfl⟩
  · cases hs
    exact ⟨rfl, rfl, fun h => by simp [h], fun _ => ⟨rfl, rfl⟩, .inl rfl⟩
  · cases hs
    exact ⟨rfl, rfl, id, fun _ => ⟨rfl, rfl⟩, .inl rfl⟩

/-- What the receiver changes besides its own place. -/
theorem rxStep_frame (hs : s.rxStep N = some s') :
    s'.added = s.added ∧ s'.sawFull = s.sawFull ∧ (s.txReady = true → s'.txReady = true) ∧
      (s.rxLooks .rxStep = false → s'.sawEmpty = s.sawEmpty ∧ s'.rxReady = s.rxReady) ∧
      (s'.taken = s.taken ∨
        ∃ p direct, s.rxPc = .advance p direct ∧ s'.taken = s.taken ++ [p]) := by
  unfold rxStep at hs
  unfold rxLooks
  split at hs
  · cases hs
  all_goals rename_i hpc; rw [hpc]
  · cases hs
    exact ⟨rfl, rfl, id, by simp, .inl rfl⟩
  · cases hs
    exact ⟨rfl, rfl, id, fun _ => ⟨rfl, rfl⟩, .inl rfl⟩
  · cases hs
    exact ⟨rfl, rfl, id, fun _ => ⟨rfl, rfl⟩, .inr ⟨_, _, rfl, rfl⟩⟩
  · split at hs
    · split at hs <;> cases hs <;> exact ⟨rfl, rfl, id, fun _ => ⟨rfl, rfl⟩, .inl rfl⟩
    · cases hs
      exact ⟨rfl, rfl, id, fun _ => ⟨rfl, rfl⟩, .inl rfl⟩
  · cases hs
    exact ⟨rfl, rfl, fun _ => rfl, fun _ => ⟨rfl, rfl⟩, .inl rfl⟩
  · cases hs
    exact ⟨rfl, rfl, id, by simp, .inl rfl⟩
  · cases hs
    exact ⟨rfl, rfl, fun h => by simp [h], fun _ => ⟨rfl, rfl⟩, .inl rfl⟩
  · cases hs
    exact ⟨rfl, rfl, id, fun _ => ⟨rfl, rfl⟩, .inl rfl⟩

/-- There is an element that the receiver has not seen. -/
structure RxWaits (N : Nat) (s : PacketQueue α) : Prop where
  inv : s.Inv N
  sawEmpty : s.sawEmpty = true
  element : s.taken.length < s.added.length
  told : s.RxTold

/-- There is a free slot that the transmitter has not seen. -/
structure TxWaits (N : Nat) (s : PacketQueue α) : Prop where
  inv : s.Inv N
  sawFull : s.sawFull = true
  slot : s.added.length + 1 < s.taken.length + N
  told : s.TxTold N

/-- As long as the receiver does not look, the element stays. -/
theorem RxWaits.step (h : s.RxWaits N) (ht : Trans N s a s') (hl : s.rxLooks a = false) :
    s'.RxWaits N := by
  have hlt := h.element
  suffices hs : s'.sawEmpty = true ∧ s'.taken.length < s'.added.length from
    ⟨h.inv.step ht, hs.1, hs.2, h.told.step h.inv ht⟩
  rcases trans_cases ht with ⟨pc, -, rfl, -, -, -⟩ | ⟨pc, -, rfl, -, -, -⟩ | ⟨b, -, rfl⟩ |
    ⟨b, -, -, -, rfl⟩ | ⟨-, hs⟩ | ⟨rfl, hs⟩
  · exact ⟨h.sawEmpty, hlt⟩
  · exact ⟨h.sawEmpty, hlt⟩
  · exact ⟨h.sawEmpty, hlt⟩
  · exact ⟨h.sawEmpty, hlt⟩
  · obtain ⟨ht, he, -, -, ha⟩ := txStep_frame hs
    rw [ht, he]
    refine ⟨h.sawEmpty, ?_⟩
    rcases ha with ha | ⟨p, direct, -, ha⟩ <;> rw [ha]
    · exact hlt
    · simp only [List.length_append, List.length_singleton]
      omega
  · obtain ⟨ha, -, -, he, ht⟩ := rxStep_frame hs
    rw [ha, (he hl).1]
    refine ⟨h.sawEmpty, ?_⟩
    rcases ht with ht | ⟨p, direct, hpc, -⟩
    · rwa [ht]
    · have hrx := h.inv.rx
      rw [RxSound, hpc] at hrx
      exact absurd (hrx.1.symm.trans h.sawEmpty) (by simp)

/-- As long as the transmitter does not look, the free slot stays. -/
theorem TxWaits.step (h : s.TxWaits N) (ht : Trans N s a s') (hl : s.txLooks a = false) :
    s'.TxWaits N := by
  have hlt := h.slot
  have hc : s.Undisturbed N a := by
    intro _ _ _ _ hfull
    have heq := h.inv.full_eq.mp hfull
    omega
  suffices hs : s'.sawFull = true ∧ s'.added.length + 1 < s'.taken.length + N from
    ⟨h.inv.step ht, hs.1, hs.2, h.told.step h.inv hc ht⟩
  rcases trans_cases ht with ⟨pc, -, rfl, -, -, -⟩ | ⟨pc, -, rfl, -, -, -⟩ | ⟨b, -, rfl⟩ |
    ⟨b, -, -, -, rfl⟩ | ⟨rfl, hs⟩ | ⟨-, hs⟩
  · exact ⟨h.sawFull, hlt⟩
  · exact ⟨h.sawFull, hlt⟩
  · exact ⟨h.sawFull, hlt⟩
  · exact ⟨h.sawFull, hlt⟩
  · obtain ⟨ht, -, -, hf, ha⟩ := txStep_frame hs
    rw [ht, (hf hl).1]
    refine ⟨h.sawFull, ?_⟩
    rcases ha with ha | ⟨p, direct, hpc, -⟩
    · rwa [ha]
    · have htx := h.inv.tx
      rw [TxSound, hpc] at htx
      exact absurd (htx.1.symm.trans h.sawFull) (by simp)
  · obtain ⟨ha, hf, -, -, ht⟩ := rxStep_frame hs
    rw [ha, hf]
    refine ⟨h.sawFull, ?_⟩
    rcases ht with ht | ⟨p, direct, -, ht⟩ <;> rw [ht]
    · exact hlt
    · simp only [List.length_append, List.length_singleton]
      omega

/-- A signal stays sent until the receiver looks. -/
theorem rxReady_of_trans (ht : Trans N s a s') (hl : s.rxLooks a = false)
    (hr : s.rxReady = true) : s'.rxReady = true := by
  rcases trans_cases ht with ⟨pc, -, rfl, -, -, -⟩ | ⟨pc, -, rfl, -, -, -⟩ | ⟨b, -, rfl⟩ |
    ⟨b, -, -, -, rfl⟩ | ⟨-, hs⟩ | ⟨rfl, hs⟩
  · exact hr
  · exact hr
  · exact hr
  · exact hr
  · exact (txStep_frame hs).2.2.1 hr
  · rw [((rxStep_frame hs).2.2.2.1 hl).2, hr]

/-- A signal stays sent until the transmitter looks. -/
theorem txReady_of_trans (ht : Trans N s a s') (hl : s.txLooks a = false)
    (hr : s.txReady = true) : s'.txReady = true := by
  rcases trans_cases ht with ⟨pc, -, rfl, -, -, -⟩ | ⟨pc, -, rfl, -, -, -⟩ | ⟨b, -, rfl⟩ |
    ⟨b, -, -, -, rfl⟩ | ⟨rfl, hs⟩ | ⟨-, hs⟩
  · exact hr
  · exact hr
  · simp [hr]
  · exact hr
  · rw [((txStep_frame hs).2.2.2.1 hl).2, hr]
  · exact (rxStep_frame hs).2.2.1 hr

/-- A wakeup is done only after the signal was sent. -/
theorem RxWaits.ready_of_wakes (h : s.RxWaits N) (hw : s.txWakes a = true) :
    s.rxReady = true := by
  have hpc : s.txPc = .clear := by
    unfold txWakes at hw
    split at hw
    · split at hw
      · assumption
      · cases hw
    · cases hw
  rcases h.told h.sawEmpty with ha | hr | hd
  · have := h.element
    omega
  · exact hr
  · exact ((hd.needed (by simp [hpc]) (by simp [hpc])).2 hpc).elim

theorem TxWaits.ready_of_wakes (h : s.TxWaits N) (hw : s.rxWakes a = true) :
    s.txReady = true := by
  have hpc : s.rxPc = .clear := by
    unfold rxWakes at hw
    split at hw
    · split at hw
      · assumption
      · cases hw
    · cases hw
  rcases h.told h.sawFull with ha | hr | hd
  · have := h.slot
    omega
  · exact hr
  · exact ((hd.needed (by simp [hpc]) (by simp [hpc])).2 hpc).elim

/-- The rule for what comes later: something holds until the side looks,
and a wakeup of the other side is done only after the signal. -/
theorem sentByNextWakeup_of {looks wakes : PacketQueue α → Op α → Bool}
    {ready : PacketQueue α → Bool} {I : PacketQueue α → Prop} (hI : I s)
    (hstep : ∀ s a s', I s → Trans N s a s' → looks s a = false → I s')
    (hready : ∀ s a s', Trans N s a s' → looks s a = false → ready s = true → ready s' = true)
    (hwake : ∀ s a, I s → wakes s a = true → ready s = true) :
    SentByNextWakeup N looks wakes ready s := by
  intro later s' hrun hl hw
  have hall : I s' ∧ ((∃ e ∈ later, wakes e.1 e.2 = true) → ready s' = true) := by
    clear hw
    induction hrun with
    | start hs =>
      subst hs
      exact ⟨hI, fun ⟨e, he, _⟩ => absurd he List.not_mem_nil⟩
    | step hr ht ih =>
      rw [List.forall_mem_cons] at hl
      obtain ⟨hI', hr'⟩ := ih hl.2
      refine ⟨hstep _ _ _ hI' ht hl.1, ?_⟩
      rintro ⟨e, he, hw⟩
      refine hready _ _ _ ht hl.1 ?_
      rcases List.mem_cons.mp he with rfl | he
      · exact hwake _ _ hI' hw
      · exact hr' ⟨e, he, hw⟩
  exact hall.2 hw

theorem signalled_of (hI : s.Inv N) (hrx : s.RxTold) (htx : s.TxTold N) : s.Signalled N where
  rx he hs := by
    have hw : s.RxWaits N := ⟨hI, hs, hI.of_not_empty (by simp [he]), hrx⟩
    exact .inr (sentByNextWakeup_of hw (fun _ _ _ h => h.step) (fun _ _ _ => rxReady_of_trans)
      fun _ _ => RxWaits.ready_of_wakes)
  tx hf hs := by
    have hw : s.TxWaits N := ⟨hI, hs, hI.of_not_full (by simp [hf]), htx⟩
    exact .inr (sentByNextWakeup_of hw (fun _ _ _ h => h.step) (fun _ _ _ => txReady_of_trans)
      fun _ _ => TxWaits.ready_of_wakes)

/-- The descriptors come out as they went in, in every run. If no packet
is taken from a full queue within a `wakeup` of the receiver, then no side
waits in vain. -/
theorem fifo_signalled_of_run {hist : List (PacketQueue α × Op α)} (hN : 0 < N)
    (h : Run Init (Trans N) hist s) :
    (∀ t ∈ reached hist s, t.Fifo N) ∧
      ((∀ e ∈ hist, e.1.Undisturbed N e.2) → ∀ t ∈ reached hist s, t.Signalled N) := by
  constructor
  · exact h.forall_reached_of (C := fun _ _ => True) (fun _ => Inv.init hN)
      (fun _ _ _ hI ht _ => hI.step ht) (fun _ => Inv.fifo) fun _ _ => trivial
  · intro hc
    refine h.forall_reached_of (I := fun s => s.Inv N ∧ s.RxTold ∧ s.TxTold N) ?_ ?_ ?_ hc
    · intro s hs
      refine ⟨Inv.init hN hs, ?_⟩
      obtain ⟨queue, rfl⟩ := hs
      exact ⟨fun hempty => by simp at hempty, fun hfull => by simp at hfull⟩
    · rintro s a s' ⟨hI, hrx, htx⟩ ht hc
      exact ⟨hI.step ht, hrx.step hI ht, htx.step hI hc ht⟩
    · rintro s ⟨hI, hrx, htx⟩
      exact signalled_of hI hrx htx

/-- Execute a step and note it. -/
def exec (N : Nat) (s : PacketQueue α) (a : Op α) : Option (Op α × PacketQueue α) :=
  (s.step N a).map fun s' => (a, s')

theorem trans_of_exec (s : PacketQueue α) (b a : Op α) (s' : PacketQueue α)
    (h : s.exec N b = some (a, s')) : Trans N s a s' := by
  simp only [exec, Option.map_eq_some_iff, Prod.mk.injEq] at h
  obtain ⟨t, ht, rfl, rfl⟩ := h
  exact ht

/-- The state after the construction, with zeros in all slots. -/
def constructed : PacketQueue Nat :=
  { q := ⟨0, 0, fun _ => 0⟩, txPc := .idle, txWakeupNeeded := false, rxPc := .idle,
    rxWakeupNeeded := false, wakeups := [], added := [], taken := [], sawFull := false,
    sawEmpty := false, txReady := false, rxReady := false }

/-- A thread of the receiver is within `wakeup` and has signalled the
transmitter, which fills the queue and looks. A second thread takes a
packet, and the first one then drops the signal that is due. -/
def disturbed : List (Op Nat) :=
  ((List.range 31).flatMap fun p => .tryTx p :: List.replicate 5 .txStep) ++
    [.wakeup true, .tryTx 31, .txStep] ++
    (.tryRx :: List.replicate 4 .rxStep) ++ (.rxWakeup true :: List.replicate 2 .rxStep)

theorem not_signalled_of_disturbed :
    ∃ hist, ∃ s : PacketQueue Nat, Run Init (Trans 32) hist s ∧ ¬ s.Signalled 32 := by
  have hrun : ((replay (exec 32) disturbed ([], constructed)).bind fun r =>
      (replay (exec 32) [.wakeup false, .rxWakeup false, .rxStep, .rxStep] ([], r.2)).map
        fun r' => (r, r')).any (fun r => decide (r.1.2.q.full 32 = false ∧ r.1.2.sawFull = true ∧
          r.1.2.txReady = false ∧ (∀ e ∈ r.2.1, e.1.txLooks e.2 = false) ∧
          (∃ e ∈ r.2.1, e.1.rxWakes e.2 = true) ∧ r.2.2.txReady = false)) = true := by
    decide +kernel
  rw [Option.any_eq_true] at hrun
  obtain ⟨⟨r, r'⟩, hr, hp⟩ := hrun
  obtain ⟨hf, hs, hready, hl, hw, hready'⟩ := of_decide_eq_true hp
  obtain ⟨r₁, hr₁, hr₂⟩ := Option.bind_eq_some_iff.mp hr
  obtain ⟨r₂, hlater, he⟩ := Option.map_eq_some_iff.mp hr₂
  obtain ⟨rfl, rfl⟩ := Prod.mk.inj he
  have hrun₁ : Run Init (Trans 32) r₁.1 r₁.2 :=
    Run.replay trans_of_exec (r := ([], constructed)) (.start ⟨_, rfl⟩) hr₁
  have hrun₂ : Run (· = r₁.2) (Trans 32) r₂.1 r₂.2 :=
    Run.replay trans_of_exec (r := ([], r₁.2)) (.start rfl) hlater
  refine ⟨r₁.1, r₁.2, hrun₁, fun h => ?_⟩
  rcases h.tx hf hs with h | hnext
  · exact absurd (hready.symm.trans h) (by simp)
  · exact absurd (hready'.symm.trans (hnext _ _ hrun₂ hl hw)) (by simp)

/-- The only slot is filled and freed again. -/
theorem fifo_signalled_of_run_freed :
    ∃ hist, ∃ s : PacketQueue Nat, Run Init (Trans 2) hist s ∧ s.added = [7] ∧ s.taken = [7] ∧
      ∀ t ∈ reached hist s, t.Fifo 2 ∧ t.Signalled 2 := by
  have hrun : ((replay (exec 2) [.tryTx 7, .txStep, .txStep, .txStep, .txStep, .txStep,
      .tryTx 8, .txStep, .tryRx, .rxStep, .rxStep, .rxStep, .rxStep] ([], constructed)).any
        fun r => decide (r.2.added = [7] ∧ r.2.taken = [7] ∧ ∀ e ∈ r.1, e.1.wakeups = [])) =
      true := by
    decide
  rw [Option.any_eq_true] at hrun
  obtain ⟨r, hr, hp⟩ := hrun
  obtain ⟨ha, ht, hw⟩ := of_decide_eq_true hp
  have hrun : Run Init (Trans 2) r.1 r.2 :=
    Run.replay trans_of_exec (r := ([], constructed)) (.start ⟨_, rfl⟩) hr
  obtain ⟨hfifo, hsig⟩ := fifo_signalled_of_run (by decide) hrun
  have hc : ∀ e ∈ r.1, e.1.Undisturbed 2 e.2 := fun e he p direct _ _ _ => by simp [hw e he]
  exact ⟨r.1, r.2, hrun, ha, ht, fun t htr => ⟨hfifo t htr, hsig hc t htr⟩⟩

end PacketQueue

end Genode.Os
