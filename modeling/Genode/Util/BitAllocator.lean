import Mathlib.Data.Finset.Basic
import Mathlib.Order.Bounds.Basic
import Genode.Lib.Run
import Genode.Util.BitArray

/-!
# BitAllocator — blocks of bits

`util/bit_allocator.h`. Blocks have a size of 2^k bits and begin at a
multiple of it. The search for a free block begins at `_next`, which is
only a hint: at the end of the array it starts again from the front, up
to the hint. The number of bits need not be a multiple of the word
width; the bits behind it are reserved.
-/

namespace Genode.Util

open Lib

/-- The exceptions of `Bit_allocator`. -/
inductive BitAllocFault where
  | outOfIndices
  | rangeConflict
  | array (e : BitFault)
  deriving DecidableEq, Repr

structure BitAllocator where
  next : Nat
  array : BitArray

namespace BitAllocator

/-- `BITS_ALIGNED`. -/
def alignedBits (bits : Nat) : Nat := (bits + 63) / 64 * 64

/-- `_reserve`. -/
def reserve (array : BitArray) (start num : Nat) : BitArray :=
  if num = 0 then array else (array.set start num).2

def init (bits : Nat) : BitAllocator :=
  ⟨0, reserve (.init (alignedBits bits)) bits (alignedBits bits - bits)⟩

/-- The loop of `alloc` over the blocks of size `step` from `i` on, for
at most `n` of them. -/
def scan (array : BitArray) (step max : Nat) : Nat → Nat → Except BitFault (Option Nat)
  | 0, _ => .error .endless
  | n + 1, i =>
    if i < max then
      match array.get i step with
      | .error e => .error e
      | .ok true => scan array step max n (i + step)
      | .ok false => .ok (some i)
    else .ok none

variable (s : BitAllocator)

/-- The body of the outer loop of `alloc`. It ends without a block also
by the exception of an access behind the array. -/
def pass (step max : Nat) : Except BitFault (Option Nat) × BitAllocator :=
  match scan s.array step max (s.array.bits + 1) (s.next / step * step) with
  | .error .invalidIndexAccess => (.ok none, s)
  | .error e => (.error e, s)
  | .ok none => (.ok none, s)
  | .ok (some i) =>
    match s.array.set i step with
    | (.ok (), array) => (.ok (some i), ⟨i + step, array⟩)
    | (.error .invalidIndexAccess, array) => (.ok none, { s with array })
    | (.error e, array) => (.error e, { s with array })

/-- `alloc`. The second pass runs up to the hint of the first one. It
leaves the hint at zero, which ends the loop. -/
def alloc (k : Nat) : Except BitAllocFault Nat × BitAllocator :=
  match s.pass (2 ^ k) 18446744073709551615 with
  | (.error e, s) => (.error (.array e), s)
  | (.ok (some i), s) => (.ok i, s)
  | (.ok none, s) =>
    if s.next = 0 then (.error .outOfIndices, s)
    else
      match pass { s with next := 0 } (2 ^ k) s.next with
      | (.error e, s) => (.error (.array e), s)
      | (.ok (some i), s) => (.ok i, s)
      | (.ok none, s) => (.error .outOfIndices, { s with next := 0 })

/-- `alloc_addr`. -/
def allocAddr (start k : Nat) : Except BitAllocFault Unit × BitAllocator :=
  match s.array.get start (2 ^ k) with
  | .error e => (.error (.array e), s)
  | .ok true => (.error .rangeConflict, s)
  | .ok false =>
    match s.array.set start (2 ^ k) with
    | (.error e, array) => (.error (.array e), { s with array })
    | (.ok (), array) => (.ok (), ⟨start + 2 ^ k, array⟩)

/-- `free`. -/
def free (start k : Nat) : Except BitAllocFault Unit × BitAllocator :=
  match s.array.clear start (2 ^ k) with
  | (.error e, array) => (.error (.array e), { s with array })
  | (.ok (), array) => (.ok (), ⟨if start < s.next then start else s.next, array⟩)

/-! ## The search -/

/-- No bit of the block is set. -/
def Free (array : BitArray) (i step : Nat) : Prop :=
  ∀ j, BitArray.InRange i step j → array.bit j = false

variable {s} {array : BitArray} {step max i n : Nat}

theorem free_of_get {used : Bool}
    (h : used = true ↔ ∃ j, BitArray.InRange i step j ∧ array.bit j = true) :
    used = false ↔ Free array i step := by
  constructor
  · rintro rfl j hj
    by_contra hne
    exact absurd (h.mpr ⟨j, hj, Bool.eq_true_of_not_eq_false hne⟩) (by simp)
  · intro hfree
    by_contra hne
    obtain ⟨j, hj, hbit⟩ := h.mp (Bool.eq_true_of_not_eq_false hne)
    simp [hfree j hj] at hbit

/-- What a search for a block from `i` on may find. -/
def Found (array : BitArray) (step max i m : Nat) : Prop :=
  i ≤ m ∧ step ∣ m ∧ m < max ∧ m + step ≤ array.bits ∧ Free array m step

/-- The search finds the first block if there is one. -/
theorem scan_spec (array : BitArray) (max : Nat) (hstep : 0 < step) (hi : step ∣ i)
    (hpos : 0 < n) (hn : array.bits < n + i) :
    (∃ m, scan array step max n i = .ok (some m) ∧ IsLeast {m | Found array step max i m} m) ∨
      (scan array step max n i = .ok none ∨
        scan array step max n i = .error .invalidIndexAccess) ∧
        ∀ m, ¬ Found array step max i m := by
  induction n generalizing i with
  | zero => omega
  | succ n ih =>
    unfold scan
    by_cases hmax : i < max
    · rw [if_pos hmax]
      by_cases hin : i < array.bits ∧ i + step ≤ array.bits
      · obtain ⟨used, hget, hused⟩ := BitArray.get_spec hin.1 hin.2
        rw [hget]
        cases used with
        | false =>
          have hfree := (free_of_get hused).mp rfl
          exact .inl ⟨i, rfl, ⟨le_rfl, hi, hmax, hin.2, hfree⟩, fun m hm => hm.1⟩
        | true =>
          have hnot : ¬ Free array i step := fun hf => by simpa using (free_of_get hused).mpr hf
          -- a block behind this one begins at least one step later
          have hlater : ∀ {m}, Found array step max i m → Found array step max (i + step) m := by
            rintro m ⟨hle, hdvd, hrest⟩
            have hne : m ≠ i := fun he => hnot (he ▸ hrest.2.2)
            obtain ⟨q, hq⟩ := (Nat.dvd_sub hdvd hi)
            refine ⟨?_, hdvd, hrest⟩
            have hq0 : q ≠ 0 := by
              rintro rfl
              omega
            have : step * 1 ≤ step * q := Nat.mul_le_mul_left _ (by omega)
            omega
          rcases ih (Nat.dvd_add hi (Nat.dvd_refl step)) (by omega) (by omega) with
            ⟨m, hm, hfound, hleast⟩ | ⟨hend, hno⟩
          · exact .inl ⟨m, hm, ⟨Nat.le_of_add_right_le hfound.1, hfound.2⟩,
              fun m' hm' => hleast (hlater hm')⟩
          · exact .inr ⟨hend, fun m hm => hno m (hlater hm)⟩
      · rw [BitArray.get_outOfRange hin]
        refine .inr ⟨.inr rfl, ?_⟩
        rintro m ⟨hle, -, -, hend, -⟩
        omega
    · rw [if_neg hmax]
      refine .inr ⟨.inl rfl, ?_⟩
      rintro m ⟨hle, -, hlt, -⟩
      omega

/-- A pass takes the first free block, if there is one between the hint
and `max`. -/
theorem pass_spec (s : BitAllocator) (max : Nat) (hstep : 0 < step) :
    (∃ m b, s.pass step max = (.ok (some m), ⟨m + step, b⟩) ∧
      IsLeast {m | Found s.array step max (s.next / step * step) m} m ∧
      BitArray.Changed s.array b (BitArray.InRange m step) true) ∨
    s.pass step max = (.ok none, s) ∧
      ∀ m, ¬ Found s.array step max (s.next / step * step) m := by
  unfold pass
  rcases scan_spec s.array max hstep (Nat.dvd_mul_left step (s.next / step))
    (n := s.array.bits + 1) (by omega) (by omega) with ⟨m, hm, hleast⟩ | ⟨hend, hno⟩
  · have hfound : Found s.array step max (s.next / step * step) m := hleast.1
    obtain ⟨b, hb, hchanged⟩ := BitArray.setRange_spec false
      (show m < s.array.bits by have := hfound.2.2.2.1; omega) hfound.2.2.2.1 hfound.2.2.2.2
    rw [hm]
    dsimp only
    rw [BitArray.set, hb]
    exact .inl ⟨m, b, rfl, hleast, hchanged⟩
  · rcases hend with hend | hend
    · rw [hend]
      exact .inr ⟨rfl, hno⟩
    · rw [hend]
      exact .inr ⟨rfl, hno⟩

/-- The blocks that `alloc` may return. -/
def Candidate (array : BitArray) (step m : Nat) : Prop :=
  step ∣ m ∧ m + step ≤ array.bits ∧ Free array m step

/-- `alloc` takes a candidate if there is one. Both passes together look
at every block: the second one ends at the hint where the first one
began. -/
theorem alloc_spec {k : Nat} (hbits : s.array.bits < 18446744073709551615) :
    (∃ m b, s.alloc k = (.ok m, ⟨m + 2 ^ k, b⟩) ∧ Candidate s.array (2 ^ k) m ∧
      BitArray.Changed s.array b (BitArray.InRange m (2 ^ k)) true) ∨
    s.alloc k = (.error .outOfIndices, { s with next := 0 }) ∧
      ∀ m, ¬ Candidate s.array (2 ^ k) m := by
  have hstep : 0 < 2 ^ k := Nat.two_pow_pos k
  unfold alloc
  rcases pass_spec s 18446744073709551615 hstep with
    ⟨m, b, hpass, ⟨hfound, -⟩, hchanged⟩ | ⟨hpass, hno⟩
  · rw [hpass]
    exact .inl ⟨m, b, rfl, ⟨hfound.2.1, hfound.2.2.2⟩, hchanged⟩
  · rw [hpass]
    dsimp only
    have hbelow : ∀ m, Candidate s.array (2 ^ k) m → m < s.next := by
      rintro m ⟨hdvd, hend, hfree⟩
      have hlt : ¬ s.next / 2 ^ k * 2 ^ k ≤ m := fun hle =>
        hno m ⟨hle, hdvd, by omega, hend, hfree⟩
      have := Nat.div_mul_le_self s.next (2 ^ k)
      omega
    by_cases h0 : s.next = 0
    · rw [if_pos h0]
      refine .inr ⟨?_, fun m hm => ?_⟩
      · rw [← h0]
      · have := hbelow m hm
        omega
    · rw [if_neg h0]
      rcases pass_spec { s with next := 0 } s.next hstep with
        ⟨m, b, hpass', ⟨hfound, -⟩, hchanged⟩ | ⟨hpass', hno'⟩
      · rw [hpass']
        exact .inl ⟨m, b, rfl, ⟨hfound.2.1, hfound.2.2.2⟩, hchanged⟩
      · rw [hpass']
        refine .inr ⟨rfl, fun m hm => hno' m ⟨by simp, hm.1, hbelow m hm, hm.2⟩⟩

/-! ## Live blocks -/

/-- The bits of a block, given by its first bit and the logarithm of its
size. -/
def Covers (b : Nat × Nat) (j : Nat) : Prop := BitArray.InRange b.1 (2 ^ b.2) j

/-- Two blocks have no bit in common. -/
def Apart (b c : Nat × Nat) : Prop := ∀ j, ¬ (Covers b j ∧ Covers c j)

/-- The bits that are set are those of the live blocks and the reserved
ones. -/
structure Inv (bits : Nat) (s : BitAllocator) (live : Finset (Nat × Nat)) : Prop where
  wordCnt : s.array.bits = alignedBits bits
  bit : ∀ j, j < s.array.bits → (s.array.bit j = true ↔ bits ≤ j ∨ ∃ b ∈ live, Covers b j)
  below : ∀ b ∈ live, b.1 + 2 ^ b.2 ≤ bits
  apart : ∀ b ∈ live, ∀ c ∈ live, b ≠ c → Apart b c

theorem le_alignedBits (bits : Nat) : bits ≤ alignedBits bits := by
  unfold alignedBits
  omega

theorem bits_init (bits : Nat) : (BitArray.init (alignedBits bits)).bits = alignedBits bits := by
  unfold BitArray.init BitArray.bits alignedBits
  dsimp only
  omega

theorem bit_init (bits j : Nat) : (BitArray.init bits).bit j = false := by
  simp [BitArray.bit, BitArray.init]

/-- The bits behind the first ones of a new array are reserved. -/
theorem set_init {bits : Nat} (h : bits < alignedBits bits) :
    ∃ b, (BitArray.init (alignedBits bits)).set bits (alignedBits bits - bits) = (.ok (), b) ∧
      b.bits = alignedBits bits ∧ ∀ j, j < alignedBits bits → (b.bit j = true ↔ bits ≤ j) := by
  have hend : bits + (alignedBits bits - bits) ≤ (BitArray.init (alignedBits bits)).bits := by
    rw [bits_init]
    omega
  obtain ⟨b, hb, hchanged⟩ := BitArray.setRange_spec false (by rwa [bits_init]) hend fun j _ =>
    bit_init _ j
  have hbits : b.bits = alignedBits bits := by
    rw [BitArray.bits, hchanged.wordCnt]
    exact bits_init bits
  refine ⟨b, hb, hbits, fun j hj => ?_⟩
  by_cases hr : BitArray.InRange bits (alignedBits bits - bits) j
  · rw [hchanged.inside j hr]
    simp [hr.1]
  · rw [hchanged.outside j hr, bit_init]
    have : ¬ bits ≤ j := fun hge => hr ⟨hge, by omega⟩
    simp [this]

theorem inv_init (bits : Nat) : Inv bits (init bits) ∅ := by
  have hle := le_alignedBits bits
  unfold init reserve
  by_cases h0 : alignedBits bits - bits = 0
  · rw [if_pos h0]
    refine ⟨bits_init bits, fun j hj => ?_, by simp, by simp⟩
    dsimp only at hj ⊢
    rw [bits_init] at hj
    have : ¬ bits ≤ j := by omega
    simp [bit_init, this]
  · rw [if_neg h0]
    obtain ⟨b, hb, hbits, hbit⟩ := set_init (show bits < alignedBits bits by omega)
    rw [hb]
    refine ⟨hbits, fun j hj => ?_, by simp, by simp⟩
    dsimp only at hj ⊢
    rw [hbits] at hj
    simp [hbit j hj]

section Inv

variable {bits : Nat} {live : Finset (Nat × Nat)} (h : Inv bits s live)
include h

/-- A block without set bits has no reserved bits and is apart from the
live blocks. -/
theorem Inv.free_iff {m k : Nat} (hend : m + 2 ^ k ≤ s.array.bits) :
    Free s.array m (2 ^ k) ↔ m + 2 ^ k ≤ bits ∧ ∀ b ∈ live, Apart b (m, k) := by
  have hpos : 0 < 2 ^ k := Nat.two_pow_pos k
  constructor
  · intro hfree
    refine ⟨?_, fun b hb j hj => ?_⟩
    · by_contra hlt
      have hlast := hfree (m + 2 ^ k - 1) ⟨by omega, by omega⟩
      have := (h.bit (m + 2 ^ k - 1) (by omega)).mpr (.inl (by omega))
      simp [hlast] at this
    · have hbit := hfree j hj.2
      have hlt : j < s.array.bits := by have := hj.2.2; dsimp only at this; omega
      have := (h.bit j hlt).mpr (.inr ⟨b, hb, hj.1⟩)
      simp [hbit] at this
  · rintro ⟨hle, hapart⟩ j hj
    by_contra hne
    have hlt : j < m + 2 ^ k := hj.2
    rcases (h.bit j (by omega)).mp (Bool.eq_true_of_not_eq_false hne) with hres | ⟨b, hb, hcov⟩
    · omega
    · exact hapart b hb j ⟨hcov, hj⟩

/-- A free block becomes a live one. -/
theorem Inv.insert {m k next : Nat} {b : BitArray} (hend : m + 2 ^ k ≤ s.array.bits)
    (hfree : Free s.array m (2 ^ k))
    (hchanged : BitArray.Changed s.array b (BitArray.InRange m (2 ^ k)) true) :
    Inv bits ⟨next, b⟩ (Insert.insert (m, k) live) := by
  obtain ⟨hle, hapart⟩ := (h.free_iff hend).mp hfree
  have hbits : b.bits = s.array.bits := by rw [BitArray.bits, hchanged.wordCnt, BitArray.bits]
  refine ⟨hbits.trans h.wordCnt, fun j hj => ?_, fun c hc => ?_, fun c hc d hd hcd => ?_⟩
  · dsimp only at hj ⊢
    by_cases hr : BitArray.InRange m (2 ^ k) j
    · rw [hchanged.inside j hr]
      simp only [true_iff]
      exact .inr ⟨(m, k), Finset.mem_insert_self _ _, hr⟩
    · rw [hchanged.outside j hr, h.bit j (by omega)]
      simp only [Finset.mem_insert, exists_eq_or_imp]
      have : ¬ Covers (m, k) j := hr
      simp [this]
  · rcases Finset.mem_insert.mp hc with rfl | hc
    · exact hle
    · exact h.below c hc
  · rcases Finset.mem_insert.mp hc with rfl | hc
    · rcases Finset.mem_insert.mp hd with rfl | hd
      · exact absurd rfl hcd
      · exact fun j hj => hapart d hd j ⟨hj.2, hj.1⟩
    · rcases Finset.mem_insert.mp hd with rfl | hd
      · exact hapart c hc
      · exact h.apart c hc d hd hcd

theorem Inv.setNext (next : Nat) : Inv bits { s with next } live :=
  ⟨h.wordCnt, h.bit, h.below, h.apart⟩

/-- Freeing a live block clears its bits and nothing else. -/
theorem Inv.free {m k : Nat} (hlive : (m, k) ∈ live) :
    ∃ t, s.free m k = (.ok (), t) ∧ Inv bits t (live.erase (m, k)) := by
  have hpos : 0 < 2 ^ k := Nat.two_pow_pos k
  have hle : m + 2 ^ k ≤ bits := h.below _ hlive
  have hbits : m + 2 ^ k ≤ s.array.bits := by
    rw [h.wordCnt]
    exact hle.trans (le_alignedBits bits)
  have hlt : m < s.array.bits := by omega
  obtain ⟨b, hb, hchanged⟩ := BitArray.setRange_spec true hlt hbits (fun j hj =>
    (h.bit j (by have := hj.2; omega)).mpr (.inr ⟨(m, k), hlive, hj⟩))
  have hcnt : b.bits = s.array.bits := by rw [BitArray.bits, hchanged.wordCnt, BitArray.bits]
  unfold BitAllocator.free
  rw [BitArray.clear, hb]
  refine ⟨_, rfl, hcnt.trans h.wordCnt, fun j hj => ?_,
    fun c hc => h.below c (Finset.mem_of_mem_erase hc),
    fun c hc d hd => h.apart c (Finset.mem_of_mem_erase hc) d (Finset.mem_of_mem_erase hd)⟩
  dsimp only at hj ⊢
  by_cases hr : BitArray.InRange m (2 ^ k) j
  · rw [hchanged.inside j hr]
    simp only [Bool.not_true, Bool.false_eq_true, false_iff, not_or, not_exists, not_and]
    refine ⟨by have := hr.2; omega, fun c hc hcov => ?_⟩
    exact h.apart c (Finset.mem_of_mem_erase hc) (m, k) hlive (Finset.ne_of_mem_erase hc) j
      ⟨hcov, hr⟩
  · rw [hchanged.outside j hr, h.bit j (by omega)]
    refine or_congr Iff.rfl ⟨?_, ?_⟩
    · rintro ⟨c, hc, hcov⟩
      refine ⟨c, Finset.mem_erase.mpr ⟨?_, hc⟩, hcov⟩
      rintro rfl
      exact hr hcov
    · rintro ⟨c, hc, hcov⟩
      exact ⟨c, Finset.mem_of_mem_erase hc, hcov⟩

end Inv

/-! ## Runs -/

/-- The operations, and an allocator with the blocks that are live. -/
inductive Op where
  | alloc (k : Nat)
  | allocAddr (start k : Nat)
  | free (start k : Nat)
  deriving DecidableEq, Repr

structure Tracked where
  allocator : BitAllocator
  live : Finset (Nat × Nat)

/-- Sizes are below the word width, `alloc_addr` is called with naturally
aligned blocks, and only live blocks are freed. -/
def Op.Allowed (p : Tracked) : Op → Prop
  | .alloc k => k < 64
  | .allocAddr start k => k < 64 ∧ 2 ^ k ∣ start
  | .free start k => (start, k) ∈ p.live

instance (p : Tracked) : (op : Op) → Decidable (op.Allowed p)
  | .alloc k => inferInstanceAs (Decidable (k < 64))
  | .allocAddr start k => inferInstanceAs (Decidable (k < 64 ∧ 2 ^ k ∣ start))
  | .free start k => inferInstanceAs (Decidable ((start, k) ∈ p.live))

/-- The state after an operation, whether or not it throws. -/
def Op.run (p : Tracked) : Op → Tracked
  | .alloc k =>
    match p.allocator.alloc k with
    | (.ok m, s) => ⟨s, Insert.insert (m, k) p.live⟩
    | (.error _, s) => { p with allocator := s }
  | .allocAddr start k =>
    match p.allocator.allocAddr start k with
    | (.ok (), s) => ⟨s, Insert.insert (start, k) p.live⟩
    | (.error _, s) => { p with allocator := s }
  | .free start k =>
    match p.allocator.free start k with
    | (.ok (), s) => ⟨s, p.live.erase (start, k)⟩
    | (.error _, s) => { p with allocator := s }

def Init (bits : Nat) (p : Tracked) : Prop := p = ⟨init bits, ∅⟩

def Trans (p : Tracked) (op : Op) (p' : Tracked) : Prop := op.Allowed p ∧ op.run p = p'

theorem Inv.allocAddr {bits : Nat} {live : Finset (Nat × Nat)} (h : Inv bits s live)
    {start k : Nat} : Inv bits (Op.run ⟨s, live⟩ (.allocAddr start k)).allocator
      (Op.run ⟨s, live⟩ (.allocAddr start k)).live := by
  unfold Op.run BitAllocator.allocAddr
  dsimp only
  by_cases hin : start < s.array.bits ∧ start + 2 ^ k ≤ s.array.bits
  · obtain ⟨used, hget, hused⟩ := BitArray.get_spec hin.1 hin.2
    rw [hget]
    cases used with
    | true => exact h
    | false =>
      have hfree := (free_of_get hused).mp rfl
      obtain ⟨b, hb, hchanged⟩ := BitArray.setRange_spec false hin.1 hin.2 hfree
      dsimp only
      rw [BitArray.set, hb]
      exact h.insert hin.2 hfree hchanged
  · rw [BitArray.get_outOfRange hin]
    exact h

theorem Trans.inv {bits : Nat} (hbits : bits < 2 ^ 32) {p p' : Tracked} {op : Op}
    (h : Inv bits p.allocator p.live) (ht : Trans p op p') : Inv bits p'.allocator p'.live := by
  obtain ⟨s, live⟩ := p
  obtain ⟨hallowed, rfl⟩ := ht
  cases op with
  | alloc k =>
    have hsize : s.array.bits < 18446744073709551615 := by
      rw [h.wordCnt, alignedBits]
      omega
    unfold Op.run
    dsimp only
    rcases alloc_spec (k := k) hsize with ⟨m, b, halloc, hcand, hchanged⟩ | ⟨halloc, -⟩
    · rw [halloc]
      exact h.insert hcand.2.1 hcand.2.2 hchanged
    · rw [halloc]
      exact h.setNext 0
  | allocAddr start k => exact h.allocAddr
  | free start k =>
    obtain ⟨t, ht, hinv⟩ := h.free hallowed
    unfold Op.run
    dsimp only
    rw [ht]
    exact hinv

/-- In every run, `alloc` succeeds exactly if a naturally aligned block
of the size is apart from all live blocks. It returns such a block, and
the only exception that leaves it is `Out_of_indices`. -/
theorem alloc_of_run {bits : Nat} (hbits : bits < 2 ^ 32) {hist : List (Tracked × Op)}
    {p : Tracked} (h : Run (Init bits) Trans hist p) (k : Nat) :
    ((∃ m, (p.allocator.alloc k).1 = .ok m) ↔
      ∃ m, 2 ^ k ∣ m ∧ m + 2 ^ k ≤ bits ∧ ∀ b ∈ p.live, Apart b (m, k)) ∧
    (∀ m, (p.allocator.alloc k).1 = .ok m →
      2 ^ k ∣ m ∧ m + 2 ^ k ≤ bits ∧ ∀ b ∈ p.live, Apart b (m, k)) ∧
    ∀ e, (p.allocator.alloc k).1 = .error e → e = .outOfIndices := by
  have hinv : Inv bits p.allocator p.live := Run.invariant (I := fun p => Inv bits p.allocator p.live)
    (fun p hp => by rw [hp]; exact inv_init bits) (fun _ _ _ => Trans.inv hbits) h
  have hsize : p.allocator.array.bits < 18446744073709551615 := by
    rw [hinv.wordCnt, alignedBits]
    omega
  rcases alloc_spec (k := k) hsize with ⟨m, b, halloc, ⟨hdvd, hend, hfree⟩, -⟩ | ⟨halloc, hno⟩
  · have hm : 2 ^ k ∣ m ∧ m + 2 ^ k ≤ bits ∧ ∀ b ∈ p.live, Apart b (m, k) :=
      ⟨hdvd, (hinv.free_iff hend).mp hfree⟩
    rw [halloc]
    refine ⟨⟨fun _ => ⟨m, hm⟩, fun _ => ⟨m, rfl⟩⟩, ?_, ?_⟩
    · rintro m' ⟨⟩
      exact hm
    · rintro e ⟨⟩
  · rw [halloc]
    refine ⟨⟨?_, ?_⟩, ?_, ?_⟩
    · rintro ⟨m, ⟨⟩⟩
    · rintro ⟨m, hdvd, hle, hapart⟩
      have hend : m + 2 ^ k ≤ p.allocator.array.bits := by
        rw [hinv.wordCnt]
        exact hle.trans (le_alignedBits bits)
      exact absurd ⟨hdvd, hend, (hinv.free_iff hend).mpr ⟨hle, hapart⟩⟩ (hno m)
    · rintro m ⟨⟩
    · rintro e ⟨⟩
      rfl

/-- Execute an operation, if it is allowed. -/
def exec (p : Tracked) (op : Op) : Option (Op × Tracked) :=
  if op.Allowed p then some (op, op.run p) else none

theorem trans_of_exec {p p' : Tracked} {op op' : Op} (h : exec p op = some (op', p')) :
    Trans p op' p' := by
  unfold exec at h
  split at h
  · rename_i hallowed
    obtain ⟨rfl, rfl⟩ : op = op' ∧ op.run p = p' := by simpa using h
    exact ⟨hallowed, rfl⟩
  · simp at h

theorem exists_run (bits : Nat) (ops : List Op) {p : List (Tracked × Op) × Tracked → Prop}
    [DecidablePred p]
    (h : (replay exec ops ([], ⟨init bits, ∅⟩)).any (fun r => decide (p r)) = true) :
    ∃ hist t, Run (Init bits) Trans hist t ∧ p (hist, t) := by
  have hexec : ∀ p op op' p', exec p op = some (op', p') → Trans p op' p' :=
    fun _ _ _ _ => trans_of_exec
  have hinit : Init bits ⟨init bits, ∅⟩ := rfl
  exact Lib.exists_run hexec hinit h

/-- In an array of 70 bits the hint is behind the last block of eight
bits, and the search wraps around to a block that was freed before it. -/
theorem alloc_of_run_wrapped :
    ∃ hist p, Run (Init 70) Trans hist p ∧ p.allocator.next = 64 ∧
      ∃ m, 2 ^ 3 ∣ m ∧ m + 2 ^ 3 ≤ 70 ∧ ∀ b ∈ p.live, Apart b (m, 3) := by
  obtain ⟨hist, p, h, hnext, hsome⟩ := exists_run 70
    [.alloc 4, .alloc 4, .alloc 3, .alloc 3, .alloc 3, .alloc 3, .free 32 3, .free 56 3,
      .allocAddr 56 3]
    (p := fun r => r.2.allocator.next = 64 ∧
      (r.2.allocator.alloc 3).1.toOption.isSome = true) (by decide +kernel)
  refine ⟨hist, p, h, hnext, (alloc_of_run (by decide) h 3).1.mp ?_⟩
  cases halloc : (p.allocator.alloc 3).1 with
  | error e => simp [halloc, Except.toOption] at hsome
  | ok m => exact ⟨m, rfl⟩

/-! ## The hint

The documentation of `alloc` promises the block at the lowest available
index. The arguments of the operations are arbitrary here: an operation
may throw in the middle of its work, and `free` may clear any bits. -/

/-- The block where the first pass of `alloc` begins. -/
def start (s : BitAllocator) (k : Nat) : Nat := s.next / 2 ^ k * 2 ^ k

/-- If there is a free block, `alloc` takes the lowest one. -/
def TakesLowest (s : BitAllocator) (k : Nat) : Prop :=
  ∀ m, IsLeast {m | Candidate s.array (2 ^ k) m} m → (s.alloc k).1 = .ok m

/-- The free blocks are all before the hint, if one of them is. -/
def HintFits (s : BitAllocator) (k : Nat) : Prop :=
  ∀ m m', Candidate s.array (2 ^ k) m → Candidate s.array (2 ^ k) m' → m < s.start k →
    m' < s.start k

instance (array : BitArray) (i step : Nat) : Decidable (Free array i step) :=
  decidable_of_iff (∀ j < i + step, i ≤ j → array.bit j = false)
    ⟨fun h j hj => h j hj.2 hj.1, fun h j hlt hle => h j ⟨hle, hlt⟩⟩

instance (array : BitArray) (step m : Nat) : Decidable (Candidate array step m) :=
  inferInstanceAs (Decidable (_ ∧ _ ∧ _))

theorem Candidate.lt {k m : Nat} (h : Candidate array (2 ^ k) m) : m < array.bits := by
  have hpos : 0 < 2 ^ k := Nat.two_pow_pos k
  have hend : m + 2 ^ k ≤ array.bits := h.2.1
  omega

theorem hintFits_iff {k : Nat} : s.HintFits k ↔
    (∀ m < s.array.bits, Candidate s.array (2 ^ k) m → s.start k ≤ m) ∨
      ∀ m < s.array.bits, Candidate s.array (2 ^ k) m → m < s.start k := by
  constructor
  · intro h
    by_cases hex : ∃ m, Candidate s.array (2 ^ k) m ∧ m < s.start k
    · obtain ⟨m, hm, hlt⟩ := hex
      exact .inr fun m' _ hm' => h m m' hm hm' hlt
    · exact .inl fun m _ hm => Nat.le_of_not_lt fun hlt => hex ⟨m, hm, hlt⟩
  · intro h m m' hm hm' hlt
    rcases h with h | h
    · exact absurd (h m hm.lt hm) (Nat.not_le_of_lt hlt)
    · exact h m' hm'.lt hm'

instance (s : BitAllocator) (k : Nat) : Decidable (s.HintFits k) :=
  decidable_of_iff _ hintFits_iff.symm

/-- What the two passes find. -/
theorem alloc_cases {k : Nat} (hbits : s.array.bits < 18446744073709551615) :
    (∃ m, (s.alloc k).1 = .ok m ∧
      IsLeast {m | Candidate s.array (2 ^ k) m ∧ s.start k ≤ m} m) ∨
    (∀ m, Candidate s.array (2 ^ k) m → m < s.start k) ∧
      ∀ m, IsLeast {m | Candidate s.array (2 ^ k) m} m → (s.alloc k).1 = .ok m := by
  have hstep : 0 < 2 ^ k := Nat.two_pow_pos k
  unfold alloc
  rcases pass_spec s 18446744073709551615 hstep with
    ⟨m, b, hpass, hleast, -⟩ | ⟨hpass, hno⟩
  · rw [hpass]
    left
    have hfound : Found s.array (2 ^ k) 18446744073709551615 (s.start k) m := hleast.1
    refine ⟨m, rfl, ⟨⟨hfound.2.1, hfound.2.2.2⟩, hfound.1⟩, ?_⟩
    intro m' hm'
    obtain ⟨⟨hdvd, hend, hfree⟩, hge⟩ := hm'
    exact hleast.2 ⟨hge, hdvd, by omega, hend, hfree⟩
  · rw [hpass]
    right
    have hbelow : ∀ m, Candidate s.array (2 ^ k) m → m < s.start k := by
      intro m hm
      obtain ⟨hdvd, hend, hfree⟩ := hm
      by_contra hge
      exact hno m ⟨Nat.le_of_not_lt hge, hdvd, by omega, hend, hfree⟩
    refine ⟨hbelow, fun m hleast => ?_⟩
    -- a free block is before the hint, so the second pass sees it
    have hlt : m < s.next := (hbelow m hleast.1).trans_le (Nat.div_mul_le_self s.next (2 ^ k))
    have hfound : Found s.array (2 ^ k) s.next (0 / 2 ^ k * 2 ^ k) m :=
      ⟨by simp, hleast.1.1, hlt, hleast.1.2⟩
    dsimp only
    rw [if_neg (by omega)]
    rcases pass_spec { s with next := 0 } s.next hstep with
      ⟨m', b, hpass', hleast', -⟩ | ⟨-, hno'⟩
    · rw [hpass']
      have hcand : Candidate s.array (2 ^ k) m' := ⟨hleast'.1.2.1, hleast'.1.2.2.2⟩
      have heq : m' = m := Nat.le_antisymm (hleast'.2 hfound) (hleast.2 hcand)
      rw [heq]
    · exact absurd hfound (hno' m)

theorem takesLowest_iff {k : Nat} (hbits : s.array.bits < 18446744073709551615) :
    s.TakesLowest k ↔ s.HintFits k := by
  rcases alloc_cases (k := k) hbits with ⟨m₀, halloc, hleast⟩ | ⟨hbelow, htakes⟩
  · constructor
    · intro htakes m m' hm hm' hlt
      by_contra hge
      obtain ⟨m₁, hm₁⟩ : ∃ m, IsLeast {m | Candidate s.array (2 ^ k) m} m := by
        classical
        exact ⟨_, Nat.find_spec ⟨m, hm⟩, fun _ => Nat.find_min' ⟨m, hm⟩⟩
      have heq : m₀ = m₁ := Except.ok.inj (halloc.symm.trans (htakes m₁ hm₁))
      have hle : m₁ ≤ m := hm₁.2 hm
      have hstart : s.start k ≤ m₀ := hleast.1.2
      omega
    · intro hfits m hm
      have hge : s.start k ≤ m := by
        by_contra hlt
        have := hfits m m₀ hm.1 hleast.1.1 (Nat.lt_of_not_le hlt)
        have hstart : s.start k ≤ m₀ := hleast.1.2
        omega
      have heq : m₀ = m := Nat.le_antisymm (hleast.2 ⟨hm.1, hge⟩) (hm.2 hleast.1.1)
      rw [halloc, heq]
  · exact ⟨fun _ m m' _ hm' _ => hbelow m' hm', fun _ => htakes⟩

/-- No operation changes the number of bits. -/
theorem bits_pass (step max : Nat) : (s.pass step max).2.array.bits = s.array.bits := by
  unfold pass
  cases scan s.array step max (s.array.bits + 1) (s.next / step * step) with
  | error e => cases e <;> rfl
  | ok found =>
    cases found with
    | none => rfl
    | some i =>
      have hset := BitArray.wordCnt_setRange s.array i step false
      dsimp only
      unfold BitArray.set
      cases hr : s.array.setRange i step false with
      | mk r array =>
        rw [hr] at hset
        cases r with
        | ok u => exact congrArg (· * 64) hset
        | error e => cases e <;> exact congrArg (· * 64) hset

theorem bits_alloc (k : Nat) : (s.alloc k).2.array.bits = s.array.bits := by
  unfold alloc
  have h₁ := bits_pass (s := s) (2 ^ k) 18446744073709551615
  cases hp : s.pass (2 ^ k) 18446744073709551615 with
  | mk r s₁ =>
    rw [hp] at h₁
    have h₂ := bits_pass (s := { s₁ with next := 0 }) (2 ^ k) s₁.next
    cases r with
    | error e => exact h₁
    | ok found =>
      cases found with
      | some i => exact h₁
      | none =>
        dsimp only
        split
        · exact h₁
        · cases hq : pass { s₁ with next := 0 } (2 ^ k) s₁.next with
          | mk r s₂ =>
            rw [hq] at h₂
            cases r with
            | error e => exact h₂.trans h₁
            | ok found => cases found <;> exact h₂.trans h₁

theorem bits_allocAddr (start k : Nat) : (s.allocAddr start k).2.array.bits = s.array.bits := by
  unfold allocAddr
  cases s.array.get start (2 ^ k) with
  | error e => rfl
  | ok used =>
    cases used with
    | true => rfl
    | false =>
      have hset := BitArray.wordCnt_setRange s.array start (2 ^ k) false
      dsimp only
      unfold BitArray.set
      cases hr : s.array.setRange start (2 ^ k) false with
      | mk r array =>
        rw [hr] at hset
        cases r <;> exact congrArg (· * 64) hset

theorem bits_free (start k : Nat) : (s.free start k).2.array.bits = s.array.bits := by
  have hclear := BitArray.wordCnt_setRange s.array start (2 ^ k) true
  unfold free BitArray.clear
  cases hr : s.array.setRange start (2 ^ k) true with
  | mk r array =>
    rw [hr] at hclear
    cases r <;> exact congrArg (· * 64) hclear

/-- The size of a block is below the word width. -/
def Op.Sized : Op → Prop
  | .alloc k | .allocAddr _ k | .free _ k => k < 64

instance : (op : Op) → Decidable op.Sized
  | .alloc k | .allocAddr _ k | .free _ k => inferInstanceAs (Decidable (k < 64))

/-- The allocator after an operation, whether or not it throws. -/
def Op.after (s : BitAllocator) : Op → BitAllocator
  | .alloc k => (s.alloc k).2
  | .allocAddr start k => (s.allocAddr start k).2
  | .free start k => (s.free start k).2

def Calls (s : BitAllocator) (op : Op) (s' : BitAllocator) : Prop := op.Sized ∧ op.after s = s'

theorem Calls.bits {s' : BitAllocator} {op : Op} (h : Calls s op s') :
    s'.array.bits = s.array.bits := by
  rw [← h.2]
  cases op with
  | alloc k => exact bits_alloc k
  | allocAddr start k => exact bits_allocAddr start k
  | free start k => exact bits_free start k

theorem bits_init_array (bits : Nat) : (init bits).array.bits = alignedBits bits := by
  unfold init reserve
  split
  · exact bits_init bits
  · exact (congrArg (· * 64) (BitArray.wordCnt_setRange _ _ _ _)).trans (bits_init bits)

/-- An `alloc` finds the lowest free block. -/
def Op.TakesLowest (s : BitAllocator) : Op → Prop
  | .alloc k => s.TakesLowest k
  | .allocAddr _ _ | .free _ _ => True

/-- An `alloc` is called with a hint that fits. -/
def Op.HintFits (s : BitAllocator) : Op → Prop
  | .alloc k => s.HintFits k
  | .allocAddr _ _ | .free _ _ => True

instance (s : BitAllocator) : (op : Op) → Decidable (op.HintFits s)
  | .alloc k => inferInstanceAs (Decidable (s.HintFits k))
  | .allocAddr _ _ | .free _ _ => .isTrue trivial

/-- The calls of `alloc` in a run all find the lowest free block exactly
if the hint fits whenever one is made. -/
theorem alloc_lowest_iff {bits : Nat} (hbits : bits < 2 ^ 32) {hist : List (BitAllocator × Op)}
    {s : BitAllocator} (h : Run (Eq (init bits)) Calls hist s) :
    (∀ e ∈ hist, e.2.TakesLowest e.1) ↔ ∀ e ∈ hist, e.2.HintFits e.1 := by
  have hsize : ∀ t ∈ reached hist s, t.array.bits < 18446744073709551615 := by
    refine h.forall_reached_of (I := fun t => t.array.bits = alignedBits bits)
      (C := fun _ _ => True) (fun t ht => ht ▸ bits_init_array bits)
      (fun t op t' ht hcall _ => hcall.bits.trans ht) (fun t ht => ?_) fun _ _ => trivial
    rw [ht, alignedBits]
    omega
  have hstep : ∀ e ∈ hist, e.2.TakesLowest e.1 ↔ e.2.HintFits e.1 := by
    intro e he
    obtain ⟨t, op⟩ := e
    cases op with
    | alloc k => exact takesLowest_iff (hsize t (List.mem_cons_of_mem _ (List.mem_map_of_mem he)))
    | allocAddr start k => exact Iff.rfl
    | free start k => exact Iff.rfl
  exact forall₂_congr hstep

def call (s : BitAllocator) (op : Op) : Option (Op × BitAllocator) :=
  if op.Sized then some (op, op.after s) else none

theorem exists_calls (bits : Nat) (ops : List Op)
    {p : List (BitAllocator × Op) × BitAllocator → Prop} [DecidablePred p]
    (h : (replay call ops ([], init bits)).any (fun r => decide (p r)) = true) :
    ∃ hist t, Run (Eq (init bits)) Calls hist t ∧ p (hist, t) := by
  have hcall : ∀ s op op' s', call s op = some (op', s') → Calls s op' s' := by
    intro s op op' s' h
    unfold call at h
    split at h
    · rename_i hsized
      obtain ⟨rfl, rfl⟩ : op = op' ∧ op.after s = s' := by simpa using h
      exact ⟨hsized, rfl⟩
    · simp at h
  exact Lib.exists_run hcall rfl h

/-- The first block is freed, which moves the hint back to it. -/
theorem alloc_lowest_iff_rewound :
    ∃ hist s, Run (Eq (init 16)) Calls hist s ∧ s.next = 16 ∧
      ∀ e ∈ hist, e.2.TakesLowest e.1 := by
  obtain ⟨hist, s, h, hnext, hfits⟩ := exists_calls 16
    [.alloc 3, .free 0 3, .alloc 3, .alloc 3]
    (p := fun r => r.2.next = 16 ∧ ∀ e ∈ r.1, e.2.HintFits e.1) (by decide +kernel)
  exact ⟨hist, s, h, hnext, (alloc_lowest_iff (by decide) h).mpr hfits⟩

/-- A block of four bits is taken behind a hole. The next bit is then
taken from behind it, although the bits of the hole are free. -/
theorem alloc_skips_hole :
    ∃ hist s, Run (Eq (init 16)) Calls hist s ∧ ¬ ∀ e ∈ hist, e.2.TakesLowest e.1 := by
  obtain ⟨hist, s, h, e, he, hop, hone, hzero, hres⟩ := exists_calls 16
    [.alloc 0, .alloc 2, .alloc 0]
    (p := fun r => ∃ e ∈ r.1, e.2 = .alloc 0 ∧ Candidate e.1.array (2 ^ 0) 1 ∧
      ¬ Candidate e.1.array (2 ^ 0) 0 ∧ (e.1.alloc 0).1.toOption = some 8) (by decide +kernel)
  refine ⟨hist, s, h, fun hall => ?_⟩
  have htakes := hall e he
  rw [hop] at htakes
  have hleast : IsLeast {m | Candidate e.1.array (2 ^ 0) m} 1 := by
    refine ⟨hone, fun m hm => Nat.one_le_iff_ne_zero.mpr ?_⟩
    rintro rfl
    exact hzero hm
  have halloc : (e.1.alloc 0).1 = .ok 1 := htakes 1 hleast
  rw [halloc] at hres
  cases hres

end BitAllocator

end Genode.Util
