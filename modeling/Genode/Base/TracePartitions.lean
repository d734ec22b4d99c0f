import Genode.Lib.Run

/-!
# TracePartitions — the two partitions of a trace buffer

`base/src/lib/base/trace_buffer.cc`. Producer and consumer are in one of two
partitions each. When its partition is full, the producer goes to the other
one if the consumer is in the same as itself, and else starts again in its
own. A spin lock shall keep a consumer that switches meanwhile from reading.
-/

namespace Genode.Base

open Lib

/-- The bits of `_state`; the primary partition is `false`. -/
structure PartitionState where
  producer : Bool
  consumer : Bool
  deriving DecidableEq, Repr

namespace PartitionState

def toggleConsumer (old : PartitionState) : PartitionState := { old with consumer := !old.consumer }

def toggleProducer (old : PartitionState) : PartitionState := { old with producer := !old.producer }

end PartitionState

/-- Where the producer stands: outside of `_switch_producer`, after it has
stored `SPINLOCK_LOCKED`, with the state it read, before `_buffer_wrapped`
and after it. -/
inductive ProducerPc where
  | outside
  | locked
  | looked (old : PartitionState)
  | wraps
  | wrapped
  deriving DecidableEq, Repr

/-- Where the consumer stands: it reads entries, or is in `_switch_consumer`,
before it reads the state, with the state it read, after the switch, and with
the spin lock. -/
inductive ConsumerPc where
  | reads
  | retries
  | looked (old : PartitionState)
  | switched
  | holds
  deriving DecidableEq, Repr

/-- `Partitioned_buffer`, as far as the two sides share it. -/
structure PartitionedBuffer where
  state : PartitionState
  consumerLock : Bool
  producer : ProducerPc
  consumer : ConsumerPc
  deriving DecidableEq, Repr

namespace PartitionedBuffer

inductive Side where
  | producer
  | consumer
  deriving DecidableEq, Repr

/-- `init`. The consumer starts to read its partition. -/
def init : PartitionedBuffer := ⟨⟨false, true⟩, false, .outside, .reads⟩

variable (s : PartitionedBuffer)

/-- The next step of `_switch_producer`. -/
def producerStep : PartitionedBuffer :=
  match s.producer with
  | .outside => { s with consumerLock := true, producer := .locked }
  | .locked => { s with producer := .looked s.state }
  | .looked old =>
    if old.producer = old.consumer then
      -- `cmpxchg`
      if s.state = old then { s with state := old.toggleProducer, producer := .wraps }
      else { s with producer := .locked }
    else { s with producer := .wraps }
  | .wraps => { s with producer := .wrapped }
  | .wrapped => { s with consumerLock := false, producer := .outside }

/-- The next step of `_switch_consumer`, with `spinlock_lock` and
`spinlock_unlock`. -/
def consumerStep : PartitionedBuffer :=
  match s.consumer with
  | .reads | .retries => { s with consumer := .looked s.state }
  | .looked old =>
    if s.state = old then { s with state := old.toggleConsumer, consumer := .switched }
    else { s with consumer := .retries }
  | .switched => if s.consumerLock then s else { s with consumerLock := true, consumer := .holds }
  | .holds => { s with consumerLock := false, consumer := .reads }

def step : Side → PartitionedBuffer
  | .producer => s.producerStep
  | .consumer => s.consumerStep

def Trans (s : PartitionedBuffer) (a : Side) (s' : PartitionedBuffer) : Prop := s.step a = s'

/-- The producer does not start again in the partition that is read. -/
def Exclusive : Prop :=
  ¬ (s.producer = .wraps ∧ s.consumer = .reads ∧ s.state.producer = s.state.consumer)

/-- The producer does not begin to switch while the consumer has the lock. -/
def Undisturbed (a : Side) : Prop :=
  ¬ (a = .producer ∧ s.producer = .outside ∧ s.consumer = .holds)

instance : Decidable s.Exclusive := inferInstanceAs (Decidable (¬ _))

instance (a : Side) : Decidable (s.Undisturbed a) := inferInstanceAs (Decidable (¬ _))

/-- As long as the producer switches, a consumer that has switched waits. -/
structure Sound : Prop where
  lock : s.producer ≠ .outside → s.consumerLock = true ∧ s.consumer ≠ .holds
  looked : ∀ old, s.producer = .looked old → s.consumer ≠ .switched → old = s.state
  wraps : s.producer = .wraps → s.consumer ≠ .switched → s.state.producer ≠ s.state.consumer

variable {s}

theorem sound_init : Sound init := by
  constructor <;> simp [init]

theorem Sound.exclusive (h : s.Sound) : s.Exclusive := fun ⟨hp, hc, he⟩ =>
  h.wraps hp (by simp [hc]) he

theorem Sound.producerStep (h : s.Sound) (hc : s.Undisturbed .producer) : s.producerStep.Sound := by
  unfold PartitionedBuffer.producerStep
  cases hp : s.producer with
  | outside =>
    have hne : s.consumer ≠ .holds := fun he => hc ⟨rfl, hp, he⟩
    exact ⟨fun _ => ⟨rfl, hne⟩, fun _ h => by simp at h, fun h => by simp at h⟩
  | locked =>
    have hlock := h.lock (by simp [hp])
    exact ⟨fun _ => hlock, fun _ h _ => by simpa using h.symm, fun h => by simp at h⟩
  | looked old =>
    have hlock := h.lock (by simp [hp])
    have hold := h.looked old hp
    dsimp only
    split
    · next heq =>
      split
      · next hs =>
        refine ⟨fun _ => hlock, fun _ h => by simp at h, fun _ _ => ?_⟩
        simp [PartitionState.toggleProducer, heq]
      · exact ⟨fun _ => hlock, fun _ h => by simp at h, fun h => by simp at h⟩
    · next hne =>
      refine ⟨fun _ => hlock, fun _ h => by simp at h, fun _ hs => ?_⟩
      exact hold hs ▸ hne
  | wraps =>
    have hlock := h.lock (by simp [hp])
    exact ⟨fun _ => hlock, fun _ h => by simp at h, fun h => by simp at h⟩
  | wrapped => exact ⟨fun h => absurd rfl h, fun _ h => by simp at h, fun h => by simp at h⟩

theorem Sound.consumerStep (h : s.Sound) : s.consumerStep.Sound := by
  unfold PartitionedBuffer.consumerStep
  cases hc : s.consumer with
  | reads =>
    exact ⟨fun hp => ⟨(h.lock hp).1, by simp⟩, fun old hp _ => h.looked old hp (by simp [hc]),
      fun hp _ => h.wraps hp (by simp [hc])⟩
  | retries =>
    exact ⟨fun hp => ⟨(h.lock hp).1, by simp⟩, fun old hp _ => h.looked old hp (by simp [hc]),
      fun hp _ => h.wraps hp (by simp [hc])⟩
  | looked old =>
    dsimp only
    split
    · exact ⟨fun hp => ⟨(h.lock hp).1, by simp⟩, fun _ _ hs => absurd rfl hs, fun _ hs => absurd rfl hs⟩
    · exact ⟨fun hp => ⟨(h.lock hp).1, by simp⟩, fun old hp _ => h.looked old hp (by simp [hc]),
        fun hp _ => h.wraps hp (by simp [hc])⟩
  | switched =>
    dsimp only
    split
    · exact h
    · next hlock =>
      have hp : s.producer = .outside := by
        by_contra hne
        exact hlock (h.lock hne).1
      refine ⟨fun hne => absurd hp hne, fun _ he => ?_, fun he => ?_⟩
      · simp [hp] at he
      · simp [hp] at he
  | holds =>
    have hp : s.producer = .outside := by
      by_contra hne
      exact (h.lock hne).2 hc
    refine ⟨fun hne => absurd hp hne, fun _ he => ?_, fun he => ?_⟩
    · simp [hp] at he
    · simp [hp] at he

theorem Sound.step (h : s.Sound) {a : Side} (hc : s.Undisturbed a) : (s.step a).Sound := by
  cases a with
  | producer => exact h.producerStep hc
  | consumer => exact h.consumerStep

/-- The steps after which the two sides meet: the consumer gives the lock
back and so takes it from the producer. -/
def racing : List Side :=
  [.producer, .producer, .producer, .consumer, .consumer, .consumer, .consumer, .consumer]

/-- The states of a run of steps. -/
def stepAll (s : PartitionedBuffer) : List Side → PartitionedBuffer
  | [] => s
  | a :: as => (s.step a).stepAll as

theorem run_stepAll {hist : List (PartitionedBuffer × Side)} (h : Run (· = init) Trans hist s)
    (a : Side) (as : List Side) :
    ∃ later, Run (· = init) Trans (later ++ (s, a) :: hist) (s.stepAll (a :: as)) := by
  induction as generalizing s a hist with
  | nil => exact ⟨[], .step h rfl⟩
  | cons b bs ih =>
    obtain ⟨later, hlater⟩ := ih (.step h rfl) b
    refine ⟨later ++ [(s.step a, b)], ?_⟩
    rw [List.append_assoc]
    exact hlater

theorem not_exclusive_racing (hp : s.producer = .outside) (hc : s.consumer = .holds) :
    ¬ (s.stepAll racing).Exclusive := by
  obtain ⟨⟨p, c⟩, lock, producer, consumer⟩ := s
  obtain rfl : producer = .outside := hp
  obtain rfl : consumer = .holds := hc
  cases p <;> cases c <;> cases lock <;> decide

variable {hist : List (PartitionedBuffer × Side)}

/-- The partition that is read is not overwritten, as long as the producer
never begins to switch while the consumer has the lock. Once it does, it may
be. -/
theorem exclusive_of_run (h : Run (· = init) Trans hist s)
    (hc : ∀ e ∈ hist, e.1.Undisturbed e.2) :
    (∀ t ∈ reached hist s, t.Exclusive) ∧
      (¬ s.Undisturbed .producer → ∃ later s',
        Run (· = init) Trans (later ++ (s, .producer) :: hist) s' ∧ ¬ s'.Exclusive) := by
  refine ⟨?_, fun hd => ?_⟩
  · refine h.forall_reached_of (I := Sound) (fun s hs => ?_) (fun s a s' hs ht hc => ?_)
      (fun s hs => hs.exclusive) hc
    · subst hs
      exact sound_init
    · obtain rfl := ht
      exact hs.step hc
  · obtain ⟨-, hp, hconsumer⟩ := not_not.mp hd
    obtain ⟨later, hlater⟩ := run_stepAll h .producer racing.tail
    exact ⟨later, _, hlater, not_exclusive_racing hp hconsumer⟩

theorem exists_step_run (sides : List Side)
    {p : List (PartitionedBuffer × Side) × PartitionedBuffer → Prop} [DecidablePred p]
    (h : (replay (fun s a => some (a, s.step a)) sides ([], init)).any
      (fun r => decide (p r)) = true) : ∃ hist s, Run (· = init) Trans hist s ∧ p (hist, s) := by
  refine exists_run (fun s b a s' he => ?_) ?_ h
  · obtain ⟨rfl, rfl⟩ : b = a ∧ s.step b = s' := by simpa using he
    rfl
  · rfl

/-- The consumer switches to the partition of the producer and has the lock. -/
theorem exclusive_of_run_holds :
    ∃ (hist : List (PartitionedBuffer × Side)) (s : PartitionedBuffer), hist.length = 3 ∧
      (∀ t ∈ reached hist s, t.Exclusive) ∧
      ∃ later s', Run (· = init) Trans (later ++ (s, .producer) :: hist) s' ∧ ¬ s'.Exclusive := by
  obtain ⟨hist, s, h, hlen, hall, hholds⟩ := exists_step_run [.consumer, .consumer, .consumer]
    (p := fun r => r.1.length = 3 ∧ (∀ e ∈ r.1, e.1.Undisturbed e.2) ∧ ¬ r.2.Undisturbed .producer)
    (by decide +kernel)
  obtain ⟨hex, hrace⟩ := exclusive_of_run h hall
  exact ⟨hist, s, hlen, hex, hrace hholds⟩

end PartitionedBuffer

end Genode.Base
