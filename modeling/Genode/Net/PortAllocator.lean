import Mathlib.Data.Finset.Card
import Mathlib.Order.Interval.Finset.Nat
import Genode.Lib.Run
import Genode.Util.BitAllocator

/-!
# PortAllocator — ports for address translation

`os/src/server/nic_router/port_allocator.cc`. The NAT rules of the other
domains take ports of a domain from one allocator, each of them through a
guard with a limit of its own. The allocator goes round, so that a port that
was given back is not used again too soon.
-/

namespace Genode.Net

open Lib Util

/-- The exceptions. Those of the bit allocator that are not caught get
through. -/
inductive PortError where
  | outOfIndices
  | allocationConflict
  | bits (e : BitAllocFault)
  deriving DecidableEq, Repr

structure PortAllocator where
  bitAllocator : BitAllocator
  nextPortOffset : Nat

namespace PortAllocator

def firstPort : Nat := 49152

def nrOfPorts : Nat := 16384

/-- `dynamic_port`, for 16-bit numbers. -/
def DynamicPort (port : Nat) : Prop := firstPort ≤ port ∧ port < 65536

def init : PortAllocator := ⟨.init nrOfPorts, 0⟩

variable (s : PortAllocator)

/-- The loop of `alloc`, with `n` trials left. -/
def allocLoop : Nat → PortAllocator → Except PortError Nat × PortAllocator
  | 0, s => (.error .outOfIndices, s)
  | n + 1, s =>
    let nextPortOffset := (s.nextPortOffset + 1) % nrOfPorts
    match s.bitAllocator.allocAddr s.nextPortOffset 0 with
    | (.ok (), b) => (.ok (firstPort + s.nextPortOffset), ⟨b, nextPortOffset⟩)
    | (.error .rangeConflict, b) => allocLoop n ⟨b, nextPortOffset⟩
    | (.error e, b) => (.error (.bits e), ⟨b, nextPortOffset⟩)

/-- `alloc()` -/
def alloc : Except PortError Nat × PortAllocator := allocLoop nrOfPorts s

/-- `port.value - FIRST_PORT`, as the `addr_t` that the bit allocator gets. -/
def offset (port : Nat) : Nat := (port + 18446744073709551616 - firstPort) % 18446744073709551616

/-- `alloc(port)` -/
def allocPort (port : Nat) : Except PortError Unit × PortAllocator :=
  match s.bitAllocator.allocAddr (offset port) 0 with
  | (.ok (), b) => (.ok (), { s with bitAllocator := b })
  | (.error .rangeConflict, b) => (.error .allocationConflict, { s with bitAllocator := b })
  | (.error e, b) => (.error (.bits e), { s with bitAllocator := b })

/-- `free` -/
def free (port : Nat) : Except PortError Unit × PortAllocator :=
  match s.bitAllocator.free (offset port) 0 with
  | (.ok (), b) => (.ok (), { s with bitAllocator := b })
  | (.error e, b) => (.error (.bits e), { s with bitAllocator := b })

end PortAllocator

open PortAllocator (firstPort nrOfPorts DynamicPort)

/-- The guards `γ` of one allocator. -/
structure PortAllocatorGuards (γ : Type) where
  portAlloc : PortAllocator
  usedNrOfPorts : γ → Nat

namespace PortAllocatorGuards

variable {γ : Type} [DecidableEq γ] (ports : γ → Nat) (s : PortAllocatorGuards γ) (g : γ)

/-- `_max_nr_of_ports` of a guard, as it was configured. -/
def maxNrOfPorts : Nat := min (ports g) nrOfPorts

/-- `alloc()` -/
def alloc : Except PortError Nat × PortAllocatorGuards γ :=
  if s.usedNrOfPorts g = maxNrOfPorts ports g then (.error .outOfIndices, s)
  else
    match s.portAlloc.alloc with
    | (.ok port, a) =>
      (.ok port, ⟨a, Function.update s.usedNrOfPorts g (s.usedNrOfPorts g + 1)⟩)
    | (.error e, a) => (.error e, { s with portAlloc := a })

/-- `alloc(port)` -/
def allocPort (port : Nat) : Except PortError Unit × PortAllocatorGuards γ :=
  if s.usedNrOfPorts g = maxNrOfPorts ports g then (.error .outOfIndices, s)
  else
    match s.portAlloc.allocPort port with
    | (.ok (), a) => (.ok (), ⟨a, Function.update s.usedNrOfPorts g (s.usedNrOfPorts g + 1)⟩)
    | (.error e, a) => (.error e, { s with portAlloc := a })

/-- `free` -/
def free (port : Nat) : Except PortError Unit × PortAllocatorGuards γ :=
  match s.portAlloc.free port with
  | (.ok (), a) =>
    (.ok (), ⟨a, Function.update s.usedNrOfPorts g
      (if s.usedNrOfPorts g ≠ 0 then s.usedNrOfPorts g - 1 else 0)⟩)
  | (.error e, a) => (.error e, { s with portAlloc := a })

end PortAllocatorGuards

/-! ## One bit -/

section Bit

variable {b : BitAllocator} {j : Nat}

theorem inRange_one_iff {i : Nat} : BitArray.InRange j 1 i ↔ i = j := by
  unfold BitArray.InRange
  omega

/-- One bit was changed. -/
structure Flipped (b b' : BitAllocator) (j : Nat) (v : Bool) : Prop where
  bits : b'.array.bits = b.array.bits
  bit : ∀ i, b'.array.bit i = if i = j then v else b.array.bit i

theorem flipped_of_changed {array : BitArray} {v : Bool} (next : Nat)
    (h : BitArray.Changed b.array array (BitArray.InRange j 1) v) : Flipped b ⟨next, array⟩ j v := by
  refine ⟨by rw [BitArray.bits, h.wordCnt, BitArray.bits], fun i => ?_⟩
  split
  · next hi => exact h.inside i (inRange_one_iff.mpr hi)
  · next hi => exact h.outside i (mt inRange_one_iff.mp hi)

theorem allocAddr_taken (hj : j < b.array.bits) (hbit : b.array.bit j = true) :
    b.allocAddr j 0 = (.error .rangeConflict, b) := by
  obtain ⟨used, hget, hused⟩ := BitArray.get_spec hj (show j + 1 ≤ b.array.bits from hj)
  obtain rfl : used = true := hused.mpr ⟨j, inRange_one_iff.mpr rfl, hbit⟩
  rw [BitAllocator.allocAddr, Nat.pow_zero, hget]

theorem allocAddr_free (hj : j < b.array.bits) (hbit : b.array.bit j = false) :
    ∃ b', b.allocAddr j 0 = (.ok (), b') ∧ Flipped b b' j true := by
  have hone : ∀ i, BitArray.InRange j 1 i → b.array.bit i = false := fun i hi =>
    inRange_one_iff.mp hi ▸ hbit
  obtain ⟨used, hget, hused⟩ := BitArray.get_spec hj (show j + 1 ≤ b.array.bits from hj)
  obtain rfl : used = false := (BitAllocator.free_of_get hused).mpr hone
  obtain ⟨array, hset, hchanged⟩ := BitArray.setRange_spec false hj
    (show j + 1 ≤ b.array.bits from hj) hone
  refine ⟨⟨j + 1, array⟩, ?_, flipped_of_changed _ hchanged⟩
  rw [BitAllocator.allocAddr, Nat.pow_zero, hget]
  dsimp only
  rw [BitArray.set, hset]

theorem free_taken (hj : j < b.array.bits) (hbit : b.array.bit j = true) :
    ∃ b', b.free j 0 = (.ok (), b') ∧ Flipped b b' j false := by
  have hone : ∀ i, BitArray.InRange j 1 i → b.array.bit i = true := fun i hi =>
    inRange_one_iff.mp hi ▸ hbit
  obtain ⟨array, hset, hchanged⟩ := BitArray.setRange_spec true hj
    (show j + 1 ≤ b.array.bits from hj) hone
  refine ⟨⟨if j < b.next then j else b.next, array⟩, ?_, flipped_of_changed _ hchanged⟩
  rw [BitAllocator.free, Nat.pow_zero, BitArray.clear, hset]

end Bit

/-! ## The allocator -/

namespace PortAllocator

/-- The ports `taken` are in use. -/
structure Holds (s : PortAllocator) (taken : Nat → Prop) : Prop where
  bits : s.bitAllocator.array.bits = nrOfPorts
  next : s.nextPortOffset < nrOfPorts
  bit : ∀ j < nrOfPorts, (s.bitAllocator.array.bit j = true ↔ taken (firstPort + j))

variable {s : PortAllocator} {taken : Nat → Prop}

theorem dynamic_iff {port : Nat} : DynamicPort port ↔ ∃ j < nrOfPorts, port = firstPort + j := by
  unfold DynamicPort firstPort nrOfPorts
  constructor
  · rintro ⟨h₁, h₂⟩
    exact ⟨port - 49152, by omega, by omega⟩
  · rintro ⟨j, hj, rfl⟩
    omega

theorem offset_add {j : Nat} (hj : j < nrOfPorts) : offset (firstPort + j) = j := by
  unfold offset firstPort
  unfold nrOfPorts at hj
  omega

theorem holds_init : Holds init fun _ => False := by
  have hbits : nrOfPorts = BitAllocator.alignedBits nrOfPorts := by decide
  have h := BitAllocator.inv_init nrOfPorts
  refine ⟨h.wordCnt.trans hbits.symm, by decide, fun j hj => ?_⟩
  have := h.bit j (by rw [h.wordCnt, ← hbits]; exact hj)
  rw [show init.bitAllocator = BitAllocator.init nrOfPorts from rfl, this]
  simp only [Finset.notMem_empty, false_and, exists_false, or_false, iff_false, not_le]
  exact hj

/-- The port at offset `j` is taken or given back. -/
theorem Holds.flipped {b : BitAllocator} {j : Nat} {v : Bool} {taken' : Nat → Prop} {next : Nat}
    (h : Holds s taken) (hb : Flipped s.bitAllocator b j v) (hnext : next < nrOfPorts)
    (hj : taken' (firstPort + j) ↔ v = true) (hne : ∀ p, p ≠ firstPort + j → (taken' p ↔ taken p)) :
    Holds ⟨b, next⟩ taken' := by
  refine ⟨hb.bits.trans h.bits, hnext, fun i hi => ?_⟩
  dsimp only
  rw [hb.bit]
  split
  · next hij => rw [hij, hj]
  · next hij => rw [h.bit i hi, hne _ (by omega)]

theorem holds_next {next : Nat} (h : Holds s taken) (hnext : next < nrOfPorts) :
    Holds ⟨s.bitAllocator, next⟩ taken := ⟨h.bits, hnext, h.bit⟩

/-- The port that the trial number `d` is about. -/
def nth (i d : Nat) : Nat := firstPort + (i + d) % nrOfPorts

theorem nth_succ (i d : Nat) : nth ((i + 1) % nrOfPorts) d = nth i (d + 1) := by
  unfold nth nrOfPorts
  omega

/-- The first port that is not in use is found. -/
theorem allocLoop_spec (n : Nat) (h : Holds s taken) :
    (∃ d s', d < n ∧ allocLoop n s = (.ok (nth s.nextPortOffset d), s') ∧
      (∀ e < d, taken (nth s.nextPortOffset e)) ∧ ¬ taken (nth s.nextPortOffset d) ∧
      Holds s' (fun p => p = nth s.nextPortOffset d ∨ taken p) ∧
      s'.nextPortOffset = (s.nextPortOffset + d + 1) % nrOfPorts) ∨
    ∃ s', allocLoop n s = (.error .outOfIndices, s') ∧
      (∀ e < n, taken (nth s.nextPortOffset e)) ∧ Holds s' taken := by
  induction n generalizing s with
  | zero => exact .inr ⟨s, rfl, by simp, h⟩
  | succ n ih =>
    have hnext : (s.nextPortOffset + 1) % nrOfPorts < nrOfPorts := Nat.mod_lt _ (by decide)
    have hlt := h.next
    have hfirst : nth s.nextPortOffset 0 = firstPort + s.nextPortOffset := by
      rw [nth, Nat.add_zero, Nat.mod_eq_of_lt hlt]
    cases hbit : s.bitAllocator.array.bit s.nextPortOffset with
    | false =>
      obtain ⟨b, hb, hflip⟩ := allocAddr_free (by rw [h.bits]; exact hlt) hbit
      have hfree : ¬ taken (firstPort + s.nextPortOffset) := by
        rw [← h.bit _ hlt, hbit]
        simp
      refine .inl ⟨0, ⟨b, (s.nextPortOffset + 1) % nrOfPorts⟩, by omega, ?_, by simp, ?_, ?_, rfl⟩
      · rw [allocLoop, hb, hfirst]
      · rwa [hfirst]
      · rw [hfirst]
        exact h.flipped hflip hnext (by simp) fun p hp => by simp [hp]
    | true =>
      have htaken : taken (nth s.nextPortOffset 0) := by
        rw [hfirst]
        exact (h.bit _ hlt).mp hbit
      have hloop : allocLoop (n + 1) s =
          allocLoop n ⟨s.bitAllocator, (s.nextPortOffset + 1) % nrOfPorts⟩ := by
        rw [allocLoop, allocAddr_taken (by rw [h.bits]; exact hlt) hbit]
      have hall : ∀ m, (∀ e < m, taken (nth ((s.nextPortOffset + 1) % nrOfPorts) e)) →
          ∀ e < m + 1, taken (nth s.nextPortOffset e) := by
        intro m hm e he
        cases e with
        | zero => exact htaken
        | succ e =>
          rw [← nth_succ]
          exact hm e (by omega)
      rw [hloop]
      rcases ih (holds_next h hnext) with ⟨d, s', hd, hs', hbelow, hfree, hholds, hn⟩ |
        ⟨s', hs', hbelow, hholds⟩
      · dsimp only at hs' hbelow hfree hholds hn
        rw [nth_succ] at hs' hfree hholds
        refine .inl ⟨d + 1, s', by omega, hs', hall d hbelow, hfree, hholds, ?_⟩
        rw [hn]
        unfold nrOfPorts
        omega
      · exact .inr ⟨s', hs', hall n hbelow, hholds⟩

theorem exists_nth {i p : Nat} (hi : i < nrOfPorts) (hp : DynamicPort p) :
    ∃ d < nrOfPorts, nth i d = p := by
  obtain ⟨j, hj, rfl⟩ := dynamic_iff.mp hp
  refine ⟨(j + nrOfPorts - i) % nrOfPorts, Nat.mod_lt _ (by decide), ?_⟩
  unfold nth nrOfPorts at *
  omega

theorem dynamic_nth (i d : Nat) : DynamicPort (nth i d) :=
  dynamic_iff.mpr ⟨_, Nat.mod_lt _ (by decide), rfl⟩

theorem Holds.allocPort {port : Nat} (h : Holds s taken) (hp : DynamicPort port) :
    (taken port → s.allocPort port = (.error .allocationConflict, s)) ∧
      (¬ taken port → ∃ s', s.allocPort port = (.ok (), s') ∧
        Holds s' (fun p => p = port ∨ taken p) ∧ s'.nextPortOffset = s.nextPortOffset) := by
  obtain ⟨j, hj, rfl⟩ := dynamic_iff.mp hp
  have hbits : j < s.bitAllocator.array.bits := by rwa [h.bits]
  refine ⟨fun ht => ?_, fun ht => ?_⟩
  · rw [PortAllocator.allocPort, offset_add hj, allocAddr_taken hbits ((h.bit j hj).mpr ht)]
  · obtain ⟨b, hb, hflip⟩ := allocAddr_free hbits
      (Bool.eq_false_of_not_eq_true fun hne => ht ((h.bit j hj).mp hne))
    refine ⟨{ s with bitAllocator := b }, ?_, ?_, rfl⟩
    · rw [PortAllocator.allocPort, offset_add hj, hb]
    · exact h.flipped hflip h.next (by simp) fun p hne => by simp [hne]

/-- Other ports are behind the array. -/
theorem Holds.allocPort_static {port : Nat} (h : Holds s taken) (hp : port < firstPort) :
    s.allocPort port = (.error (.bits (.array .invalidIndexAccess)), s) := by
  have hout : ¬ (offset port < s.bitAllocator.array.bits ∧
      offset port + 1 ≤ s.bitAllocator.array.bits) := by
    rw [h.bits]
    unfold offset nrOfPorts
    unfold firstPort at *
    omega
  rw [PortAllocator.allocPort, BitAllocator.allocAddr, Nat.pow_zero, BitArray.get_outOfRange hout]

theorem Holds.free {port : Nat} (h : Holds s taken) (hp : DynamicPort port) (ht : taken port) :
    ∃ s', s.free port = (.ok (), s') ∧ Holds s' (fun p => p ≠ port ∧ taken p) ∧
      s'.nextPortOffset = s.nextPortOffset := by
  obtain ⟨j, hj, rfl⟩ := dynamic_iff.mp hp
  obtain ⟨b, hb, hflip⟩ := free_taken (by rwa [h.bits]) ((h.bit j hj).mpr ht)
  refine ⟨{ s with bitAllocator := b }, ?_, ?_, rfl⟩
  · rw [PortAllocator.free, offset_add hj, hb]
  · exact h.flipped hflip h.next (by simp) fun p hne => by simp [hne]

end PortAllocator

/-! ## Guards -/

namespace PortAllocatorGuards

open PortAllocator (Holds nth)

inductive Call (γ : Type) where
  | alloc (g : γ)
  | allocPort (g : γ) (port : Nat)
  | free (g : γ) (port : Nat)
  deriving DecidableEq

/-- The guards, and which of them holds a port. -/
structure Held (γ : Type) where
  guards : PortAllocatorGuards γ
  holder : Nat → Option γ

namespace Held

variable {γ : Type} [DecidableEq γ]

/-- Ports are 16-bit numbers, and a guard gets back what it holds. -/
def Allowed (s : Held γ) : Call γ → Prop
  | .alloc _ => True
  | .allocPort _ port => port < 65536
  | .free g port => s.holder port = some g

/-- The port goes to `o`, unless the call threw. -/
def hand (holder : Nat → Option γ) (o : Option γ) : Except PortError Nat → Nat → Option γ
  | .ok port => Function.update holder port o
  | .error _ => holder

def call (ports : γ → Nat) (s : Held γ) : Call γ → Exec (Except PortError Nat × Held γ)
  | .alloc g =>
    let (r, guards) := s.guards.alloc ports g
    .ok (r, ⟨guards, hand s.holder (some g) r⟩)
  | .allocPort g port =>
    let (r, guards) := s.guards.allocPort ports g port
    .ok (r.map fun _ => port, ⟨guards, hand s.holder (some g) (r.map fun _ => port)⟩)
  | .free g port =>
    let (r, guards) := s.guards.free g port
    .ok (r.map fun _ => port, ⟨guards, hand s.holder none (r.map fun _ => port)⟩)

def Init (s : Held γ) : Prop := s = ⟨⟨.init, fun _ => 0⟩, fun _ => none⟩

/-- The ports that a guard holds. -/
def portsOf (holder : Nat → Option γ) (g : γ) : Finset Nat :=
  (Finset.Ico firstPort 65536).filter fun p => holder p = some g

theorem mem_portsOf {holder : Nat → Option γ} {g : γ} {p : Nat} :
    p ∈ portsOf holder g ↔ DynamicPort p ∧ holder p = some g := by
  unfold portsOf DynamicPort
  rw [Finset.mem_filter, Finset.mem_Ico]

theorem portsOf_take {holder : Nat → Option γ} {p : Nat} (hp : DynamicPort p)
    (hfree : holder p = none) (g g' : γ) :
    portsOf (Function.update holder p (some g)) g' =
      if g' = g then insert p (portsOf holder g') else portsOf holder g' := by
  split
  · next hg =>
    ext q
    rw [Finset.mem_insert, mem_portsOf, mem_portsOf]
    by_cases hq : q = p
    · simp [hq, hg, hp]
    · simp [hq]
  · next hg =>
    ext q
    rw [mem_portsOf, mem_portsOf]
    by_cases hq : q = p
    · simp [hq, hfree, Ne.symm hg]
    · simp [hq]

theorem portsOf_give {holder : Nat → Option γ} {p : Nat} {g : γ} (hp : holder p = some g) (g' : γ) :
    portsOf (Function.update holder p none) g' =
      if g' = g then (portsOf holder g').erase p else portsOf holder g' := by
  split
  · next hg =>
    ext q
    rw [Finset.mem_erase, mem_portsOf, mem_portsOf]
    by_cases hq : q = p
    · simp [hq]
    · simp [hq]
  · next hg =>
    ext q
    rw [mem_portsOf, mem_portsOf]
    by_cases hq : q = p
    · simp [hq, hp, Ne.symm hg]
    · simp [hq]

/-- The bit allocator knows the ports that are held, and each guard how
many it holds. -/
structure Sound (ports : γ → Nat) (s : Held γ) : Prop where
  dynamic : ∀ p, s.holder p ≠ none → DynamicPort p
  holds : s.guards.portAlloc.Holds fun p => s.holder p ≠ none
  used : ∀ g, s.guards.usedNrOfPorts g = (portsOf s.holder g).card
  limit : ∀ g, s.guards.usedNrOfPorts g ≤ maxNrOfPorts ports g

variable {ports : γ → Nat} {s : Held γ} {g : γ} {p : Nat}

theorem sound_init (h : Init s) : Sound ports s := by
  subst h
  refine ⟨by simp, ?_, fun g => ?_, fun g => Nat.zero_le _⟩
  · simpa using PortAllocator.holds_init
  · simp [portsOf]

theorem Sound.card_lt (h : Sound ports s)
    (hlimit : s.guards.usedNrOfPorts g ≠ maxNrOfPorts ports g) :
    (portsOf s.holder g).card < maxNrOfPorts ports g := by
  rw [← h.used]
  exact lt_of_le_of_ne (h.limit g) hlimit

theorem Sound.take (h : Sound ports s) (hp : DynamicPort p) (hfree : s.holder p = none)
    (hlimit : s.guards.usedNrOfPorts g ≠ maxNrOfPorts ports g) {a : PortAllocator}
    (ha : a.Holds fun q => q = p ∨ s.holder q ≠ none) :
    Sound ports ⟨⟨a, Function.update s.guards.usedNrOfPorts g (s.guards.usedNrOfPorts g + 1)⟩,
      Function.update s.holder p (some g)⟩ := by
  refine ⟨fun q hq => ?_, ⟨ha.bits, ha.next, fun j hj => ?_⟩, fun g' => ?_, fun g' => ?_⟩
  · dsimp only at hq
    by_cases hqp : q = p
    · exact hqp ▸ hp
    · exact h.dynamic q (by simpa [hqp] using hq)
  · dsimp only
    rw [ha.bit j hj]
    by_cases hj : firstPort + j = p
    · simp [hj]
    · simp [hj]
  · dsimp only
    rw [portsOf_take hp hfree]
    by_cases hg : g' = g
    · subst hg
      have hnot : p ∉ portsOf s.holder g' := by
        rw [mem_portsOf, hfree]
        simp
      rw [Function.update_self, if_pos rfl, Finset.card_insert_of_notMem hnot, h.used]
    · rw [Function.update_of_ne hg, if_neg hg, h.used]
  · have := h.limit g'
    dsimp only
    by_cases hg : g' = g
    · subst hg
      rw [Function.update_self]
      omega
    · rwa [Function.update_of_ne hg]

theorem Sound.give (h : Sound ports s) (hp : s.holder p = some g) {a : PortAllocator}
    (ha : a.Holds fun q => q ≠ p ∧ s.holder q ≠ none) :
    Sound ports ⟨⟨a, Function.update s.guards.usedNrOfPorts g
      (if s.guards.usedNrOfPorts g ≠ 0 then s.guards.usedNrOfPorts g - 1 else 0)⟩,
      Function.update s.holder p none⟩ := by
  have hmem : p ∈ portsOf s.holder g := mem_portsOf.mpr ⟨h.dynamic p (by simp [hp]), hp⟩
  refine ⟨fun q hq => ?_, ⟨ha.bits, ha.next, fun j hj => ?_⟩, fun g' => ?_, fun g' => ?_⟩
  · dsimp only at hq
    by_cases hqp : q = p
    · simp [hqp] at hq
    · exact h.dynamic q (by simpa [hqp] using hq)
  · dsimp only
    rw [ha.bit j hj]
    by_cases hj : firstPort + j = p
    · simp [hj]
    · simp [hj]
  · dsimp only
    rw [portsOf_give hp]
    by_cases hg : g' = g
    · subst hg
      rw [Function.update_self, if_pos rfl, Finset.card_erase_of_mem hmem, h.used]
      split <;> omega
    · rw [Function.update_of_ne hg, if_neg hg, h.used]
  · have := h.limit g'
    dsimp only
    by_cases hg : g' = g
    · subst hg
      rw [Function.update_self]
      split <;> omega
    · rwa [Function.update_of_ne hg]

/-- The spec of `alloc()`: the first port on the way round, if the guard is
below its limit. -/
theorem Sound.alloc (h : Sound ports s) (g : γ) :
    ∃ r s', call ports s (.alloc g) = .ok (r, s') ∧ Sound ports s' ∧
      ((∃ d < nrOfPorts, r = .ok (nth s.guards.portAlloc.nextPortOffset d) ∧
          (∀ e < d, s.holder (nth s.guards.portAlloc.nextPortOffset e) ≠ none) ∧
          s.holder (nth s.guards.portAlloc.nextPortOffset d) = none ∧
          (portsOf s.holder g).card < maxNrOfPorts ports g ∧
          s'.holder = Function.update s.holder (nth s.guards.portAlloc.nextPortOffset d) (some g) ∧
          s'.guards.portAlloc.nextPortOffset =
            (s.guards.portAlloc.nextPortOffset + d + 1) % nrOfPorts) ∨
        r = .error .outOfIndices ∧ s'.holder = s.holder ∧
          ((portsOf s.holder g).card = maxNrOfPorts ports g ∧ s' = s ∨
            ∀ p, DynamicPort p → s.holder p ≠ none)) := by
  unfold call PortAllocatorGuards.alloc
  dsimp only
  by_cases hlimit : s.guards.usedNrOfPorts g = maxNrOfPorts ports g
  · rw [if_pos hlimit]
    exact ⟨_, _, rfl, h, .inr ⟨rfl, rfl, .inl ⟨by rw [← h.used, hlimit], rfl⟩⟩⟩
  · have hlt := h.card_lt hlimit
    rw [if_neg hlimit]
    rcases PortAllocator.allocLoop_spec nrOfPorts h.holds with
      ⟨d, a, hd, ha, htaken, hfree, hholds, hnext⟩ | ⟨a, ha, htaken, hholds⟩
    · rw [PortAllocator.alloc, ha]
      have hfree := not_not.mp hfree
      exact ⟨_, _, rfl, h.take (PortAllocator.dynamic_nth _ d) hfree hlimit hholds,
        .inl ⟨d, hd, rfl, htaken, hfree, hlt, rfl, hnext⟩⟩
    · rw [PortAllocator.alloc, ha]
      refine ⟨_, _, rfl, ⟨h.dynamic, hholds, h.used, h.limit⟩, .inr ⟨rfl, rfl, .inr fun p hp => ?_⟩⟩
      obtain ⟨d, hd, rfl⟩ := PortAllocator.exists_nth h.holds.next hp
      exact htaken d hd

/-- The spec of `alloc(port)`. -/
theorem Sound.allocPort (h : Sound ports s) (g : γ) (port : Nat) (hport : port < 65536) :
    ∃ r s', call ports s (.allocPort g port) = .ok (r, s') ∧ Sound ports s' ∧
      s'.guards.portAlloc.nextPortOffset = s.guards.portAlloc.nextPortOffset ∧
      (r = .ok port ∧ DynamicPort port ∧ s.holder port = none ∧
          (portsOf s.holder g).card < maxNrOfPorts ports g ∧
          s'.holder = Function.update s.holder port (some g) ∨
        (∃ e, r = .error e) ∧ s' = s ∧ ((portsOf s.holder g).card = maxNrOfPorts ports g ∨
          port < firstPort ∨ s.holder port ≠ none)) := by
  unfold call PortAllocatorGuards.allocPort
  dsimp only
  by_cases hlimit : s.guards.usedNrOfPorts g = maxNrOfPorts ports g
  · rw [if_pos hlimit]
    exact ⟨_, _, rfl, h, rfl, .inr ⟨⟨_, rfl⟩, rfl, .inl (by rw [← h.used, hlimit])⟩⟩
  · have hlt := h.card_lt hlimit
    rw [if_neg hlimit]
    by_cases hp : port < firstPort
    · rw [h.holds.allocPort_static hp]
      exact ⟨_, _, rfl, h, rfl, .inr ⟨⟨_, rfl⟩, rfl, .inr (.inl hp)⟩⟩
    · have hp : DynamicPort port := ⟨by omega, hport⟩
      obtain ⟨htaken, hfree⟩ := h.holds.allocPort hp
      by_cases ht : s.holder port = none
      · obtain ⟨a, ha, hholds, hnext⟩ := hfree (not_not.mpr ht)
        rw [ha]
        exact ⟨_, _, rfl, h.take hp ht hlimit hholds, hnext, .inl ⟨rfl, hp, ht, hlt, rfl⟩⟩
      · rw [htaken ht]
        exact ⟨_, _, rfl, h, rfl, .inr ⟨⟨_, rfl⟩, rfl, .inr (.inr ht)⟩⟩

/-- The spec of `free`. -/
theorem Sound.free (h : Sound ports s) (hp : s.holder p = some g) :
    ∃ s', call ports s (.free g p) = .ok (.ok p, s') ∧ Sound ports s' ∧
      s'.guards.portAlloc.nextPortOffset = s.guards.portAlloc.nextPortOffset ∧
      s'.holder = Function.update s.holder p none := by
  have hne : s.holder p ≠ none := by simp [hp]
  obtain ⟨a, ha, hholds, hnext⟩ := h.holds.free (h.dynamic p hne) hne
  unfold call PortAllocatorGuards.free
  dsimp only
  rw [ha]
  exact ⟨_, rfl, h.give hp hholds, hnext, rfl⟩

theorem Sound.step (h : Sound ports s) {c : Call γ} (hc : s.Allowed c) :
    ∃ r s', call ports s c = .ok (r, s') ∧ Sound ports s' := by
  cases c with
  | alloc g =>
    obtain ⟨r, s', hr, h', -⟩ := h.alloc g
    exact ⟨r, s', hr, h'⟩
  | allocPort g port =>
    obtain ⟨r, s', hr, h', -⟩ := h.allocPort g port hc
    exact ⟨r, s', hr, h'⟩
  | free g port =>
    obtain ⟨s', hr, h', -⟩ := h.free hc
    exact ⟨_, s', hr, h'⟩

/-! ## Runs -/

abbrev History (γ : Type) := List (Held γ × Call γ × Except PortError Nat)

abbrev Trans (ports : γ → Nat) := Called Allowed (call ports)

variable {hist : History γ} {s' : Held γ}

theorem sound_of_run (h : Run Init (Trans ports) hist s) : Sound ports s := by
  refine h.invariant (I := Sound ports) (fun _ => sound_init) fun s e s' hs ht => ?_
  obtain ⟨r, t, hr, h'⟩ := hs.step ht.1
  obtain ⟨-, rfl⟩ : r = e.2 ∧ t = s' := by simpa [hr] using ht.2
  exact h'

/-- A port is given only if no guard holds it. A guard counts what it holds,
and gets a port exactly if it is below its limit and there is one left. -/
theorem ports_of_run (h : Run Init (Trans ports) hist s) :
    (∀ g, s.guards.usedNrOfPorts g = (portsOf s.holder g).card ∧
      (portsOf s.holder g).card ≤ maxNrOfPorts ports g) ∧
    (∀ g, ∃ r s', call ports s (.alloc g) = .ok (r, s') ∧
      ((∃ p, r = .ok p ∧ DynamicPort p ∧ s.holder p = none ∧
          (portsOf s.holder g).card < maxNrOfPorts ports g ∧
          s'.holder = Function.update s.holder p (some g)) ∨
        r = .error .outOfIndices ∧ s'.holder = s.holder ∧
          ((portsOf s.holder g).card = maxNrOfPorts ports g ∨
            ∀ p, DynamicPort p → s.holder p ≠ none))) ∧
    (∀ g, ∀ port < 65536, ∃ r s', call ports s (.allocPort g port) = .ok (r, s') ∧
      (r = .ok port ∧ DynamicPort port ∧ s.holder port = none ∧
          (portsOf s.holder g).card < maxNrOfPorts ports g ∧
          s'.holder = Function.update s.holder port (some g) ∨
        (∃ e, r = .error e) ∧ s' = s ∧ ((portsOf s.holder g).card = maxNrOfPorts ports g ∨
          port < firstPort ∨ s.holder port ≠ none))) ∧
    ∀ g p, s.holder p = some g → ∃ s', call ports s (.free g p) = .ok (.ok p, s') ∧
      s'.holder = Function.update s.holder p none := by
  have hs := sound_of_run h
  refine ⟨fun g => ⟨hs.used g, hs.used g ▸ hs.limit g⟩, fun g => ?_, fun g port hport => ?_,
    fun g p hp => ?_⟩
  · obtain ⟨r, s', hr, -, ⟨d, -, rfl, -, hfree, hlt, hupdate, -⟩ | ⟨rfl, hsame, hwhy⟩⟩ := hs.alloc g
    · exact ⟨_, s', hr, .inl ⟨_, rfl, PortAllocator.dynamic_nth _ d, hfree, hlt, hupdate⟩⟩
    · exact ⟨_, s', hr, .inr ⟨rfl, hsame, hwhy.imp_left And.left⟩⟩
  · obtain ⟨r, s', hr, -, -, hcases⟩ := hs.allocPort g port hport
    exact ⟨r, s', hr, hcases⟩
  · obtain ⟨s', hr, -, -, hupdate⟩ := hs.free hp
    exact ⟨s', hr, hupdate⟩

/-! ## Going round -/

/-- How far the offset `x` is behind the one after `i`, on the way round. -/
def ahead (i x : Nat) : Nat := (x + nrOfPorts - 1 - i) % nrOfPorts

theorem nth_ahead {i x j : Nat} (hi : i < nrOfPorts) (hx : x < nrOfPorts) (hj : j < nrOfPorts)
    (hle : ahead i x ≤ ahead i j) : nth x (ahead i j - ahead i x) = firstPort + j := by
  unfold ahead nth nrOfPorts at *
  omega

theorem ahead_next {i x d : Nat} (hi : i < nrOfPorts) (hx : x < nrOfPorts)
    (hd : ahead i x + d + 1 < nrOfPorts) :
    ahead i ((x + d + 1) % nrOfPorts) = ahead i x + d + 1 := by
  unfold ahead nrOfPorts at *
  omega

/-- The way to another port is shorter than the one to the port itself. -/
theorem ahead_lt {i x j e : Nat} (hi : i < nrOfPorts) (hx : x < nrOfPorts) (hj : j < nrOfPorts)
    (hne : j ≠ i) (he : e < nrOfPorts) (h : nth x e = firstPort + i) (hle : ahead i x ≤ ahead i j) :
    ahead i j - ahead i x < e := by
  unfold ahead nth nrOfPorts at *
  omega

/-- A port that stays free is not passed. -/
theorem Sound.not_passed (h : Sound ports s) {c : Call γ} {r : Except PortError Nat} {s' : Held γ}
    (hc : s.Allowed c) (hcall : call ports s c = .ok (r, s')) {i j : Nat} (hi : i < nrOfPorts)
    (hj : j < nrOfPorts) (hfree : s.holder (firstPort + j) = none)
    (hfree' : s'.holder (firstPort + j) = none)
    (hle : ahead i s.guards.portAlloc.nextPortOffset ≤ ahead i j) :
    ahead i s'.guards.portAlloc.nextPortOffset ≤ ahead i j := by
  have hx := h.holds.next
  cases c with
  | alloc g =>
    obtain ⟨r₁, t, hr, -, hcases⟩ := h.alloc g
    obtain ⟨rfl, rfl⟩ : r₁ = r ∧ t = s' := by simpa [hr] using hcall
    have hq := nth_ahead hi hx hj hle
    rcases hcases with ⟨d, -, -, htaken, -, -, hupdate, hnext⟩ | ⟨-, -, ⟨-, rfl⟩ | hall⟩
    · have hlt : d < ahead i j - ahead i s.guards.portAlloc.nextPortOffset := by
        rcases Nat.lt_trichotomy d (ahead i j - ahead i s.guards.portAlloc.nextPortOffset) with
          hlt | rfl | hgt
        · exact hlt
        · rw [hupdate, hq, Function.update_self] at hfree'
          cases hfree'
        · exact absurd (hq ▸ hfree) (htaken _ hgt)
      have hbound : ahead i j < nrOfPorts := Nat.mod_lt _ (by decide)
      rw [hnext, ahead_next hi hx (by omega)]
      omega
    · exact hle
    · exact absurd hfree (hall _ (PortAllocator.dynamic_iff.mpr ⟨j, hj, rfl⟩))
  | allocPort g port =>
    obtain ⟨r₁, t, hr, -, hnext, -⟩ := h.allocPort g port hc
    obtain ⟨-, rfl⟩ : r₁ = r ∧ t = s' := by simpa [hr] using hcall
    rwa [hnext]
  | free g port =>
    obtain ⟨t, hr, -, hnext, -⟩ := h.free hc
    obtain ⟨-, rfl⟩ : Except.ok port = r ∧ t = s' := by simpa [hr] using hcall
    rwa [hnext]

/-- A port that was chosen is not chosen again as long as another one has
been free since. -/
theorem not_reused_of_run {earlier later : History γ}
    (h : Run Init (Trans ports) (later ++ (s, .alloc g, .ok p) :: earlier) s') {q : Nat}
    (hq : DynamicPort q) (hne : q ≠ p) (hfree : ∀ t ∈ reached later s', t.holder q = none) (g' : γ) :
    ∃ r t, call ports s' (.alloc g') = .ok (r, t) ∧ r ≠ .ok p := by
  obtain ⟨hearlier, s₁, hfirst, -⟩ := h.cut
  obtain ⟨r, t, hr, hs₁, hcases⟩ := (sound_of_run hearlier).alloc g
  obtain ⟨rfl, rfl⟩ := Prod.mk.inj (Except.ok.inj (hr.symm.trans hfirst.2))
  rcases hcases with ⟨d, -, hp, -, -, -, -, hnext⟩ | ⟨hp, -⟩
  · obtain ⟨i, hi, rfl, hnext⟩ : ∃ i < nrOfPorts, p = firstPort + i ∧
        t.guards.portAlloc.nextPortOffset = (i + 1) % nrOfPorts :=
      ⟨_, Nat.mod_lt _ (by decide), Except.ok.inj hp, by rw [hnext, Nat.mod_add_mod]⟩
    obtain ⟨j, hj, rfl⟩ := PortAllocator.dynamic_iff.mp hq
    obtain ⟨hs', hle⟩ : Sound ports s' ∧ (s'.holder (firstPort + j) = none →
        ahead i s'.guards.portAlloc.nextPortOffset ≤ ahead i j) := by
      refine h.since (P := fun s => Sound ports s ∧ (s.holder (firstPort + j) = none →
        ahead i s.guards.portAlloc.nextPortOffset ≤ ahead i j))
        (C := fun s _ => s.holder (firstPort + j) = none) (fun t' ht => ?_)
        (fun s e s' ⟨hs, hle⟩ ht hf => ?_)
        fun e he => hfree e.1 (List.mem_cons_of_mem _ (List.mem_map_of_mem he))
      · obtain ⟨-, rfl⟩ := Prod.mk.inj (Except.ok.inj (hr.symm.trans ht.2))
        refine ⟨hs₁, fun _ => ?_⟩
        rw [hnext]
        unfold ahead nrOfPorts at *
        omega
      · obtain ⟨r, t, hr, h'⟩ := hs.step ht.1
        obtain ⟨-, rfl⟩ := Prod.mk.inj (Except.ok.inj (hr.symm.trans ht.2))
        exact ⟨h', fun hf' => hs.not_passed ht.1 ht.2 hi hj hf hf' (hle hf)⟩
    have hlast := hfree s' List.mem_cons_self
    have hle := hle hlast
    obtain ⟨r, t, hr, -, hcases⟩ := hs'.alloc g'
    refine ⟨r, t, hr, fun hp' => ?_⟩
    rcases hcases with ⟨e, he, rfl, htaken, -⟩ | ⟨rfl, -⟩
    · have hx := hs'.holds.next
      have hheld := htaken _ (ahead_lt hi hx hj (by omega) he (Except.ok.inj hp') hle)
      rw [nth_ahead hi hx hj hle] at hheld
      exact hheld hlast
    · cases hp'
  · cases hp

/-! ## An executed run -/

instance (s : Held γ) : DecidablePred s.Allowed
  | .alloc _ => inferInstanceAs (Decidable True)
  | .allocPort .. => inferInstanceAs (Decidable (_ < _))
  | .free .. => inferInstanceAs (Decidable (_ = _))

/-- A limit of two ports and one of one port. -/
def twoGuards : Bool → Nat
  | false => 2
  | true => 1

theorem exists_held_run (calls : List (Call Bool)) {p : History Bool × Held Bool → Prop}
    [DecidablePred p]
    (h : (replay (attempt Allowed (call twoGuards)) calls
      ([], ⟨⟨.init, fun _ => 0⟩, fun _ => none⟩)).any (fun r => decide (p r)) = true) :
    ∃ hist s, Run Init (Trans twoGuards) hist s ∧ p (hist, s) :=
  exists_called_run (show Init _ from rfl) calls h

theorem ports_of_run_limit :
    ∃ (hist : History Bool) (s : Held Bool),
      hist.map (·.2.2) = [.error .allocationConflict, .error .outOfIndices, .ok 49153, .ok 49152] ∧
      s.guards.usedNrOfPorts true = (portsOf s.holder true).card ∧
      ∀ p, s.holder p = some false → ∃ s', call twoGuards s (.free false p) = .ok (.ok p, s') ∧
        s'.holder = Function.update s.holder p none := by
  obtain ⟨hist, s, h, hp⟩ := exists_held_run [.alloc false, .alloc true, .alloc true, .allocPort false 49153]
    (p := fun r => r.1.map (·.2.2) =
      [.error .allocationConflict, .error .outOfIndices, .ok 49153, .ok 49152]) (by decide +kernel)
  obtain ⟨hcount, -, -, hfree⟩ := ports_of_run h
  exact ⟨hist, s, hp, (hcount true).1, hfree false⟩

/-- The port 49153 was not used, so 49152 is not chosen again. -/
theorem not_reused_of_run_given_back :
    ∃ (hist : History Bool) (s : Held Bool),
      hist.map (·.2) = [(.free false 49152, .ok 49152), (.alloc false, .ok 49152)] ∧
      ∃ r t, call twoGuards s (.alloc true) = .ok (r, t) ∧ r ≠ .ok 49152 := by
  obtain ⟨hist, s, h, hmap, hfree⟩ := exists_held_run [.alloc false, .free false 49152]
    (p := fun r => r.1.map (·.2) = [(.free false 49152, .ok 49152), (.alloc false, .ok 49152)] ∧
      ∀ t ∈ reached r.1 r.2, t.holder 49153 = none) (by decide +kernel)
  refine ⟨hist, s, hmap, ?_⟩
  obtain ⟨e₂, rest, rfl, -, hrest⟩ := List.map_eq_cons_iff.mp hmap
  obtain ⟨⟨t, a⟩, earlier, rfl, rfl, -⟩ := List.map_eq_cons_iff.mp hrest
  have h : Run Init (Trans twoGuards) ([e₂] ++ (t, .alloc false, .ok 49152) :: earlier) s := h
  refine not_reused_of_run h (q := 49153) ⟨by decide, by decide⟩ (by decide)
    (fun u hu => hfree u ?_) true
  simp only [reached, List.map_cons, List.map_nil, List.mem_cons, List.not_mem_nil, or_false] at hu ⊢
  rcases hu with rfl | rfl
  · exact .inl rfl
  · exact .inr (.inl rfl)

end Held

end PortAllocatorGuards

end Genode.Net
