import Mathlib.Data.Finset.Option
import Genode.Os.PacketAllocator

/-!
# PacketAllocatorRuns — packets are apart, and a range goes as it came

The calls of a packet allocator, one after the other. The packets that
are live are kept beside it, and so is the range that it manages. Its
metadata are two entries of the metadata allocator.
-/

namespace Genode.Os

open Base Lib Util

/-- A packet, as its user knows it. -/
structure Packet where
  addr : Nat
  size : Nat
  deriving DecidableEq, Repr

/-- A packet allocator with the range that it manages, given by its base
and its size, and the live packets. -/
structure Packets (ι μ : Type) where
  allocator : PacketAllocator ι μ
  range : Option (Nat × Nat)
  live : Multiset Packet

namespace PacketAllocator

variable {ι μ : Type} [DecidableEq ι]

/-- The distance of an address from the base of the range. -/
def offset (base addr : Nat) : Nat := (addr + 2 ^ 64 - base) % 2 ^ 64

theorem offset_of {base a : Nat} (hb : base < 2 ^ 64) (ha : a < 2 ^ 64) :
    offset base ((a + base) % 2 ^ 64) = a := by
  unfold offset
  omega

theorem index_eq (blockSize base addr : Nat) :
    index blockSize base addr = offset base addr / blockSize := rfl

/-- A block that the packet occupies. -/
def Covers (blockSize base : Nat) (p : Packet) (j : Nat) : Prop :=
  BitArray.InRange (index blockSize base p.addr) (blocks blockSize p.size) j

instance (blockSize base : Nat) (p : Packet) (j : Nat) : Decidable (Covers blockSize base p j) :=
  inferInstanceAs (Decidable (_ ∧ _))

/-- A byte that the packet occupies, by its distance from the base. -/
def Bytes (blockSize base : Nat) (p : Packet) (o : Nat) : Prop :=
  offset base p.addr ≤ o ∧ o < offset base p.addr + blocks blockSize p.size * blockSize

instance (blockSize base : Nat) (p : Packet) (o : Nat) : Decidable (Bytes blockSize base p o) :=
  inferInstanceAs (Decidable (_ ∧ _))

/-! ## The blocks in use -/

/-- The bits that are set are those of the live packets, and those behind
the `n` blocks of the range. -/
structure Packed (blockSize base n : Nat) (array : BitArray) (live : Multiset Packet) : Prop where
  bits : array.bits = BitAllocator.alignedBits n
  bit : ∀ j, j < array.bits →
    (array.bit j = true ↔ n ≤ j ∨ ∃ p ∈ live, Covers blockSize base p j)
  below : ∀ p ∈ live, index blockSize base p.addr + blocks blockSize p.size ≤ n
  first : ∀ p ∈ live, index blockSize base p.addr < n
  addr : ∀ p ∈ live, p.addr = (index blockSize base p.addr * blockSize + base) % 2 ^ 64
  apart : Apart (Covers blockSize base) live

section Packed

variable {blockSize base n m size next : Nat} {array array' : BitArray} {live : Multiset Packet}
  {p : Packet}

theorem Packed.le_bits (h : Packed blockSize base n array live) : n ≤ array.bits := by
  rw [h.bits]
  exact BitAllocator.le_alignedBits n

/-- Blocks in the range are all free, or one of them is that of a packet. -/
theorem Packed.covered (h : Packed blockSize base n array live) {k : Nat} (hle : m + k ≤ n)
    (hfree : ¬ BitAllocator.Free array m k) :
    ∃ p ∈ live, ∃ j, BitArray.InRange m k j ∧ Covers blockSize base p j := by
  simp only [BitAllocator.Free, not_forall, exists_prop] at hfree
  obtain ⟨j, hj, hbit⟩ := hfree
  have hlt : j < n := by have := hj.2; omega
  have hset := (h.bit j (by have := h.le_bits; omega)).mp (Bool.eq_true_of_not_eq_false hbit)
  obtain ⟨p, hp, hcov⟩ := hset.resolve_left (by omega)
  exact ⟨p, hp, j, hj, hcov⟩

/-- Free blocks are in the range, and no packet has one of them. -/
theorem Packed.not_covers (h : Packed blockSize base n array live) {k : Nat}
    (hle : m + k ≤ array.bits) (hfree : BitAllocator.Free array m k) {j : Nat}
    (hj : BitArray.InRange m k j) : j < n ∧ ∀ p ∈ live, ¬ Covers blockSize base p j := by
  have hbit := hfree j hj
  have hlt : j < array.bits := by have := hj.2; omega
  have hset : ¬ (n ≤ j ∨ ∃ p ∈ live, Covers blockSize base p j) := by
    rw [← h.bit j hlt, hbit]
    simp
  rw [not_or] at hset
  exact ⟨by omega, fun p hp hcov => hset.2 ⟨p, hp, hcov⟩⟩

/-- What `try_alloc` takes becomes a packet. -/
theorem Packed.take (h : Packed blockSize base n array live) (hb : base < 2 ^ 64)
    (hn : 0 < n) (hs : n * blockSize < 2 ^ 64) (hpos : 0 < blockSize)
    (ht : Takes array array' m (blocks blockSize size)) :
    Packed blockSize base n array' (⟨(m * blockSize + base) % 2 ^ 64, size⟩ ::ₘ live) := by
  have hbits : array'.bits = array.bits := by
    rw [BitArray.bits, ht.changed.wordCnt, BitArray.bits]
  have hend : m + blocks blockSize size ≤ n := by
    by_cases h0 : blocks blockSize size = 0
    · rw [h0, ht.first h0]
      omega
    · have hlast := (h.not_covers ht.le ht.free
        (j := m + blocks blockSize size - 1) ⟨by omega, by omega⟩).1
      omega
  have hindex : index blockSize base ((m * blockSize + base) % 2 ^ 64) = m := by
    have hm : m * blockSize ≤ n * blockSize := Nat.mul_le_mul_right _ (by omega)
    rw [index_eq, offset_of hb (by omega), Nat.mul_div_cancel _ hpos]
  have hcovers : ∀ j, Covers blockSize base ⟨(m * blockSize + base) % 2 ^ 64, size⟩ j ↔
      BitArray.InRange m (blocks blockSize size) j := by
    intro j
    unfold Covers
    dsimp only
    rw [hindex]
  refine ⟨hbits.trans h.bits, fun j hj => ?_, ?_, ?_, ?_, fun j => ?_⟩
  · simp only [Multiset.mem_cons, exists_eq_or_imp, hcovers]
    by_cases hr : BitArray.InRange m (blocks blockSize size) j
    · simp [ht.changed.inside j hr, hr]
    · rw [ht.changed.outside j hr, h.bit j (hbits ▸ hj)]
      simp [hr]
  · rw [Multiset.forall_mem_cons]
    exact ⟨by dsimp only; rwa [hindex], h.below⟩
  · rw [Multiset.forall_mem_cons]
    refine ⟨?_, h.first⟩
    dsimp only
    rw [hindex]
    by_cases h0 : blocks blockSize size = 0
    · rwa [ht.first h0]
    · omega
  · rw [Multiset.forall_mem_cons]
    exact ⟨by dsimp only; rw [hindex], h.addr⟩
  · rw [cover_cons]
    by_cases hr : BitArray.InRange m (blocks blockSize size) j
    · rw [cover_eq_zero.mpr (h.not_covers ht.le ht.free hr).2]
      split <;> omega
    · rw [if_neg (mt (hcovers j).mp hr)]
      simpa using h.apart j

/-- A packet is freed: its bits are cleared and nothing else. -/
theorem Packed.free (h : Packed blockSize base n array (p ::ₘ live)) :
    ∃ b, array.clear (index blockSize base p.addr) (blocks blockSize p.size) = (.ok (), b) ∧
      Packed blockSize base n b live := by
  have hmem : p ∈ p ::ₘ live := Multiset.mem_cons_self p live
  have hend := h.below p hmem
  have hle := h.le_bits
  obtain ⟨b, hb, hchanged⟩ := BitArray.setRange_spec true ((h.first p hmem).trans_le hle) (by omega)
    fun j hj => (h.bit j (by have := hj.2; omega)).mpr (.inr ⟨p, hmem, hj⟩)
  have hbits : b.bits = array.bits := by rw [BitArray.bits, hchanged.wordCnt, BitArray.bits]
  have hrest : ∀ q ∈ live, q ∈ p ::ₘ live := fun q hq => Multiset.mem_cons_of_mem hq
  refine ⟨b, hb, hbits.trans h.bits, fun j hj => ?_, fun q hq => h.below q (hrest q hq),
    fun q hq => h.first q (hrest q hq), fun q hq => h.addr q (hrest q hq),
    h.apart.le (Multiset.le_cons_self live p)⟩
  by_cases hr : Covers blockSize base p j
  · rw [hchanged.inside j hr]
    have hlt : ¬ n ≤ j := by have := hr.2; omega
    have hno : ¬ ∃ q ∈ live, Covers blockSize base q j := by
      rintro ⟨q, hq, hcov⟩
      exact h.apart.rest hr hq hcov
    simp [hlt, hno]
  · rw [hchanged.outside j hr, h.bit j (hbits ▸ hj)]
    simp [hr]

/-- The bits behind the blocks of a new range are reserved. -/
theorem packed_init (blockSize base n : Nat) :
    ∃ b, reserve (.init (BitAllocator.alignedBits n)) (BitAllocator.alignedBits n) n = (.ok (), b) ∧
      Packed blockSize base n b 0 := by
  unfold reserve
  by_cases hlt : n < BitAllocator.alignedBits n
  · obtain ⟨b, hb, hbits, hbit⟩ := BitAllocator.set_init hlt
    rw [if_pos hlt]
    refine ⟨b, hb, hbits, fun j hj => ?_, by simp, by simp, by simp, fun j => by simp⟩
    rw [hbits] at hj
    simp [hbit j hj]
  · rw [if_neg hlt]
    refine ⟨_, rfl, BitAllocator.bits_init n, fun j hj => ?_, by simp, by simp, by simp,
      fun j => by simp⟩
    rw [BitAllocator.bits_init] at hj
    have : ¬ n ≤ j := by omega
    simp [BitAllocator.bit_init, this]

end Packed

/-! ## Calls -/

inductive Call where
  | addRange (base size : Nat)
  | removeRange (base size : Nat)
  | tryAlloc (size : Nat)
  | free (p : Packet)
  deriving DecidableEq, Repr

inductive Reply where
  | range (r : Except AllocError Unit)
  | packet (r : Except AllocError Nat)
  | freed

/-- Addresses and sizes of ranges are words. The range that was added is
removed, packets are allocated while there is one, and live packets are
freed. -/
def Call.Allowed (s : Packets ι μ) : Call → Prop
  | .addRange base size => base < 2 ^ 64 ∧ size < 2 ^ 64
  | .removeRange base size => s.range = some (base, size)
  | .tryAlloc _ => s.range.isSome
  | .free p => p ∈ s.live

instance (s : Packets ι μ) : (c : Call) → Decidable (c.Allowed s)
  | .addRange base size => inferInstanceAs (Decidable (base < 2 ^ 64 ∧ size < 2 ^ 64))
  | .removeRange base size => inferInstanceAs (Decidable (s.range = some (base, size)))
  | .tryAlloc _ => inferInstanceAs (Decidable (s.range.isSome = true))
  | .free p => inferInstanceAs (Decidable (p ∈ s.live))

section Calls

variable (D : Md ι μ) (blockSize : Nat)

def call (s : Packets ι μ) : Call → Exec (Reply × Packets ι μ)
  | .addRange base size => do
    let (r, allocator) ← s.allocator.addRange D blockSize base size
    match r with
    | .ok () => .ok (.range r, { s with allocator, range := some (base, size) })
    | .error _ => .ok (.range r, { s with allocator })
  | .removeRange base _ => do
    let (r, allocator) ← s.allocator.removeRange D base
    match r with
    | .ok () => .ok (.range r, ⟨allocator, none, 0⟩)
    | .error _ => .ok (.range r, { s with allocator })
  | .tryAlloc size => do
    let (r, allocator) ← s.allocator.tryAlloc blockSize size
    match r with
    | .ok addr => .ok (.packet r, { s with allocator, live := ⟨addr, size⟩ ::ₘ s.live })
    | .error _ => .ok (.packet r, { s with allocator })
  | .free p => do
    let allocator ← s.allocator.free blockSize p.addr p.size
    .ok (.freed, { s with allocator, live := s.live.erase p })

/-- Both requests of `add_range` succeed. -/
def Supplied (m : μ) : Prop := (D.take m).1.isOk ∧ (D.take (D.take m).2).1.isOk

instance (m : μ) : Decidable (Supplied D m) := inferInstanceAs (Decidable (_ ∧ _))

/-- The array has a bit for each block of a range of this size. -/
def Sized (size : Nat) : Prop := 0 < size / blockSize ∧ size / blockSize ≤ 2 ^ 32 - 64

instance (size : Nat) : Decidable (Sized blockSize size) := inferInstanceAs (Decidable (_ ∧ _))

/-- `add_range` is denied because there is a range, or it fails at its
first request with a base of zero, or it does not fail. -/
def Call.Tidy (s : Packets ι μ) : Call → Prop
  | .addRange base size => s.range.isSome ∨ ((D.take s.allocator.md).1.isOk = false ∧ base = 0) ∨
      (Supplied D s.allocator.md ∧ Sized blockSize size)
  | .removeRange _ _ | .tryAlloc _ | .free _ => True

instance (s : Packets ι μ) : (c : Call) → Decidable (c.Tidy D blockSize s)
  | .addRange _ _ => inferInstanceAs (Decidable (_ ∨ (_ ∧ _) ∨ (_ ∧ _)))
  | .removeRange _ _ | .tryAlloc _ | .free _ => .isTrue trivial

/-- Nothing but the state of the metadata allocator differs, which has the
same entries in use. -/
structure Unchanged (s s' : Packets ι μ) : Prop where
  eq : s' = { s with allocator := { s.allocator with md := s'.allocator.md } }
  taken : D.taken s'.allocator.md = D.taken s.allocator.md

end Calls

/-! ## The invariant -/

/-- Without a range, the allocator is as it was constructed. With one, it
has two entries of the metadata allocator. -/
inductive Inv (D : Md ι μ) (blockSize : Nat) (T : Finset ι) : Packets ι μ → Prop where
  | empty {m : μ} (hm : D.taken m = T) : Inv D blockSize T ⟨⟨none, none, 0, 0, m⟩, none, 0⟩
  | managed {x y : ι} {array : BitArray} {base size next : Nat} {m : μ} {live : Multiset Packet}
      (hx : x ∉ T) (hy : y ∉ insert x T) (hm : D.taken m = insert y (insert x T))
      (hbase : base < 2 ^ 64) (hsize : size < 2 ^ 64) (hsized : Sized blockSize size)
      (hnext : next ≤ array.bits) (hp : Packed blockSize base (size / blockSize) array live) :
      Inv D blockSize T ⟨⟨some x, some (y, array), base, next, m⟩, some (base, size), live⟩

section Inv

variable {D : Md ι μ} {blockSize : Nat} {T : Finset ι} {s : Packets ι μ}

theorem Sized.bits_lt {size : Nat} (h : Sized blockSize size) :
    0 < BitAllocator.alignedBits (size / blockSize) ∧
      BitAllocator.alignedBits (size / blockSize) < 2 ^ 32 := by
  obtain ⟨hpos, hle⟩ := h
  unfold BitAllocator.alignedBits
  omega

theorem Sized.pos {size : Nat} (h : Sized blockSize size) : 0 < blockSize := by
  refine Nat.pos_of_ne_zero ?_
  rintro rfl
  simp [Sized] at h

theorem Sized.bitsCnt {size : Nat} (h : Sized blockSize size) :
    bitsCnt blockSize size = BitAllocator.alignedBits (size / blockSize) := by
  obtain ⟨hpos, hle⟩ := h
  have hcnt : size / blockSize % 2 ^ 32 = size / blockSize := Nat.mod_eq_of_lt (by omega)
  unfold PacketAllocator.bitsCnt BitAllocator.alignedBits
  dsimp only
  rw [hcnt]
  split <;> omega

theorem addRange_first_fails {m m' : μ} {base size : Nat} {e : AllocError}
    (h : D.take m = (.error e, m')) :
    addRange D blockSize ⟨none, none, 0, 0, m⟩ base size =
      .ok (.error e, ⟨none, none, base, 0, m'⟩) := by
  simp [addRange, h, giveUp]

theorem addRange_succeeds {m m₁ m₂ : μ} {x y : ι} {size : Nat} (base : Nat)
    (hs : Sized blockSize size) (h₁ : D.take m = (.ok x, m₁)) (h₂ : D.take m₁ = (.ok y, m₂)) :
    ∃ b, addRange D blockSize ⟨none, none, 0, 0, m⟩ base size =
        .ok (.ok (), ⟨some x, some (y, b), base, 0, m₂⟩) ∧
      Packed blockSize base (size / blockSize) b 0 := by
  obtain ⟨b, hb, hp⟩ := packed_init blockSize base (size / blockSize)
  refine ⟨b, ?_, hp⟩
  have hvalid : ¬ (BitAllocator.alignedBits (size / blockSize) = 0 ∨
      BitAllocator.alignedBits (size / blockSize) % 64 ≠ 0) := by
    have hpos := hs.bits_lt.1
    have hdvd : BitAllocator.alignedBits (size / blockSize) % 64 = 0 := Nat.mul_mod_left _ 64
    omega
  simp only [addRange, h₁, h₂, hs.bitsCnt, hb]
  rw [if_neg (by simp), if_neg hvalid]

/-- A range is added if the requests succeed. -/
theorem add_of_supplied {m : μ} {base size : Nat} (hm : D.taken m = T) (hbase : base < 2 ^ 64)
    (hsize : size < 2 ^ 64) (hs : Sized blockSize size) (hsup : Supplied D m) :
    ∃ s', addRange D blockSize ⟨none, none, 0, 0, m⟩ base size = .ok (.ok (), s') ∧
      Inv D blockSize T ⟨s', some (base, size), 0⟩ := by
  obtain ⟨h₁, h₂⟩ := hsup
  cases hx : D.take m with
  | mk r m₁ =>
    cases r with
    | error e => simp [hx, Except.isOk, Except.toBool] at h₁
    | ok x =>
      rw [hx] at h₂
      cases hy : D.take m₁ with
      | mk r m₂ =>
        cases r with
        | error e => simp [hy, Except.isOk, Except.toBool] at h₂
        | ok y =>
          obtain ⟨b, hb, hp⟩ := addRange_succeeds base hs hx hy
          obtain ⟨hxT, hm₁⟩ := D.take_ok m x m₁ hx
          obtain ⟨hyT, hm₂⟩ := D.take_ok m₁ y m₂ hy
          rw [hm] at hxT hm₁
          rw [hm₁] at hyT hm₂
          exact ⟨_, hb, .managed hxT hyT hm₂ hbase hsize hs (Nat.zero_le _) hp⟩

theorem Inv.addRange (h : Inv D blockSize T s) {base size : Nat}
    (hc : Call.Allowed s (.addRange base size)) (ht : Call.Tidy D blockSize s (.addRange base size)) :
    ∃ r s', call D blockSize s (.addRange base size) = .ok (.range r, s') ∧ Inv D blockSize T s' ∧
      ∀ e, r = .error e → Unchanged D s s' := by
  cases h with
  | managed hx hy hm hbase hsize hsized hnext hp =>
    refine ⟨.error .denied, _, ?_, .managed hx hy hm hbase hsize hsized hnext hp,
      fun _ _ => ⟨rfl, rfl⟩⟩
    simp [call, PacketAllocator.addRange]
  | @empty m hm =>
    rcases ht with hrange | ⟨hfail, rfl⟩ | ⟨hsup, hsized⟩
    · simp at hrange
    · cases hx : D.take m with
      | mk r m' =>
        cases r with
        | ok x => simp [hx, Except.isOk, Except.toBool] at hfail
        | error e =>
          have htaken := D.take_error m e m' hx
          refine ⟨.error e, _, ?_, .empty (m := m') (htaken.trans hm), fun _ _ => ⟨rfl, htaken⟩⟩
          simp only [call, addRange_first_fails hx, Exec.ok_bind]
    · obtain ⟨s', hs', hinv⟩ := add_of_supplied hm hc.1 hc.2 hsized hsup
      refine ⟨.ok (), _, ?_, hinv, fun e he => by cases he⟩
      simp only [call, hs', Exec.ok_bind]

theorem Inv.removeRange (h : Inv D blockSize T s) {base size : Nat}
    (hc : Call.Allowed s (.removeRange base size)) :
    ∃ s', call D blockSize s (.removeRange base size) = .ok (.range (.ok ()), s') ∧
      Inv D blockSize T s' := by
  cases h with
  | empty hm => cases hc
  | @managed x y array base' size' next m live hx hy hm =>
    have hrange : some (base', size') = some (base, size) := hc
    obtain ⟨rfl, rfl⟩ := Prod.mk.inj (Option.some.inj hrange)
    -- the array goes back first, then the bits
    obtain ⟨m₁, hm₁, htaken₁⟩ := D.give_taken m y (hm ▸ Finset.mem_insert_self y _)
    rw [hm, Finset.erase_insert hy] at htaken₁
    obtain ⟨m₂, hm₂, htaken₂⟩ := D.give_taken m₁ x (htaken₁ ▸ Finset.mem_insert_self x _)
    rw [htaken₁, Finset.erase_insert hx] at htaken₂
    refine ⟨_, ?_, .empty htaken₂⟩
    simp [call, PacketAllocator.removeRange, hm₁, hm₂]

theorem Inv.tryAlloc (h : Inv D blockSize T s) {size : Nat} (hc : Call.Allowed s (.tryAlloc size)) :
    ∃ r s', call D blockSize s (.tryAlloc size) = .ok (.packet r, s') ∧ Inv D blockSize T s' := by
  cases h with
  | empty hm => cases hc
  | @managed x y array base n next m live hx hy hm hbase hsize hsized hnext hp =>
    obtain ⟨hpos, hlt⟩ := hsized.bits_lt
    rw [← hp.bits] at hpos hlt
    rcases tryAlloc_spec blockSize size (s := ⟨some x, some (y, array), base, next, m⟩)
      rfl hpos (by omega) hnext with ⟨i, array', hs', htakes⟩ | ⟨hs', -⟩
    · have hmul := (Nat.div_mul_le_self _ blockSize).trans_lt hsize
      have hp' := hp.take hbase hsized.1 hmul hsized.pos htakes
      have hle : i + blocks blockSize size ≤ array'.bits := by
        rw [hp'.bits, ← hp.bits]
        exact htakes.le
      refine ⟨.ok ((i * blockSize + base) % 2 ^ 64), _, ?_,
        .managed hx hy hm hbase hsize hsized hle hp'⟩
      simp only [call, hs', Exec.ok_bind]
    · refine ⟨.error .denied, _, ?_, .managed hx hy hm hbase hsize hsized (Nat.zero_le _) hp⟩
      simp only [call, hs', Exec.ok_bind]

theorem Inv.free (h : Inv D blockSize T s) {p : Packet} (hc : Call.Allowed s (.free p)) :
    ∃ s', call D blockSize s (.free p) = .ok (.freed, s') ∧ Inv D blockSize T s' := by
  cases h with
  | empty hm => simp [Call.Allowed] at hc
  | @managed x y array base size next m live hx hy hm hbase hsize hsized hnext hp =>
    obtain ⟨rest, rfl⟩ := Multiset.exists_cons_of_mem hc
    have hfirst := hp.first p hc
    obtain ⟨b, hb, hp'⟩ := hp.free
    have hle : index blockSize base p.addr ≤ b.bits := by
      exact hfirst.le.trans hp'.le_bits
    refine ⟨_, ?_, .managed hx hy hm hbase hsize hsized hle hp'⟩
    simp only [call, PacketAllocator.free, Exec.deref_some, Exec.ok_bind, hb,
      Multiset.erase_cons_head]

/-- Every call returns and keeps the invariant, and a range that is not
added leaves everything as it was. -/
theorem Inv.step (h : Inv D blockSize T s) {c : Call} (hc : c.Allowed s)
    (ht : c.Tidy D blockSize s) :
    ∃ r s', call D blockSize s c = .ok (r, s') ∧ Inv D blockSize T s' ∧
      ∀ e, r = .range (.error e) → Unchanged D s s' := by
  cases c with
  | addRange base size =>
    obtain ⟨r, s', hs', hinv, hun⟩ := h.addRange hc ht
    exact ⟨_, s', hs', hinv, fun e he => hun e (Reply.range.inj he)⟩
  | removeRange base size =>
    obtain ⟨s', hs', hinv⟩ := h.removeRange hc
    exact ⟨_, s', hs', hinv, fun e he => by cases he⟩
  | tryAlloc size =>
    obtain ⟨r, s', hs', hinv⟩ := h.tryAlloc hc
    exact ⟨_, s', hs', hinv, fun e he => by cases he⟩
  | free p =>
    obtain ⟨s', hs', hinv⟩ := h.free hc
    exact ⟨_, s', hs', hinv, fun e he => by cases he⟩

end Inv

/-! ## Runs -/

/-- A new packet allocator. -/
def new (m : μ) : Packets ι μ := ⟨⟨none, none, 0, 0, m⟩, none, 0⟩

/-- The packets consist of whole blocks of the range, and no two of them
have a byte in common. Distances are computed as the code does it. In a
range that does not exceed the address space, an address is the base and
its distance. -/
structure Fits (blockSize base size : Nat) (live : Multiset Packet) : Prop where
  aligned : ∀ p ∈ live, blockSize ∣ offset base p.addr
  inside : ∀ p ∈ live, offset base p.addr + blocks blockSize p.size * blockSize ≤ size
  apart : Apart (Bytes blockSize base) live
  addr : base + size ≤ 2 ^ 64 → ∀ p ∈ live, p.addr = base + offset base p.addr

/-- If `try_alloc` fails for a power of two, each aligned run of so many
blocks has a byte that is in use. -/
def Serves (blockSize base size : Nat) (s : Packets ι μ) : Prop :=
  ∀ n k e s', blocks blockSize n = 2 ^ k → s.allocator.tryAlloc blockSize n = .ok (.error e, s') →
    ∀ m, 2 ^ k ∣ m → (m + 2 ^ k) * blockSize ≤ size →
      ∃ p ∈ s.live, ∃ o, m * blockSize ≤ o ∧ o < (m + 2 ^ k) * blockSize ∧ Bytes blockSize base p o

/-- The entries that the allocator has from the metadata allocator. -/
def held (s : PacketAllocator ι μ) : Finset ι :=
  s.bits.toFinset ∪ (s.array.map Prod.fst).toFinset

/-- Besides the entries `T` of others, just those of the allocator are in
use: two for a range, and none without one. -/
structure Accounted (D : Md ι μ) (T : Finset ι) (s : Packets ι μ) : Prop where
  taken : D.taken s.allocator.md = T ∪ held s.allocator
  others : Disjoint T (held s.allocator)
  card : (held s.allocator).card = if s.range.isSome then 2 else 0

structure Correct (D : Md ι μ) (blockSize : Nat) (T : Finset ι) (s : Packets ι μ) : Prop where
  fits : ∀ base size, s.range = some (base, size) → Fits blockSize base size s.live
  gone : s.range = none → s.live = 0
  serves : ∀ base size, s.range = some (base, size) → Serves blockSize base size s
  accepts : ∀ base size, s.range = none → base < 2 ^ 64 → size < 2 ^ 64 → Sized blockSize size →
    Supplied D s.allocator.md →
    ∃ s', s.allocator.addRange D blockSize base size = .ok (.ok (), s')
  accounted : Accounted D T s
  returns : ∀ c, c.Allowed s → c.Tidy D blockSize s → ∃ r s', call D blockSize s c = .ok (r, s')

/-- If a range is not added, the allocator is as it was. -/
def Restores (D : Md ι μ) (blockSize : Nat) (s : Packets ι μ) (c : Call) : Prop :=
  ∀ e s', call D blockSize s c = .ok (.range (.error e), s') → Unchanged D s s'

section Correct

variable {D : Md ι μ} {blockSize : Nat} {T : Finset ι} {s : Packets ι μ} {base size n : Nat}
  {array : BitArray} {live : Multiset Packet} {p : Packet}

theorem Packed.offset_eq (h : Packed blockSize base n array live) (hb : base < 2 ^ 64)
    (hs : n * blockSize < 2 ^ 64) (hp : p ∈ live) :
    offset base p.addr = index blockSize base p.addr * blockSize := by
  have hle : index blockSize base p.addr * blockSize ≤ n * blockSize :=
    Nat.mul_le_mul_right _ (Nat.le_of_add_right_le (h.below p hp))
  conv_lhs => rw [h.addr p hp]
  exact offset_of hb (by omega)

/-- A byte is in use if its block is. -/
theorem Packed.bytes_iff (h : Packed blockSize base n array live) (hb : base < 2 ^ 64)
    (hs : n * blockSize < 2 ^ 64) (hpos : 0 < blockSize) (hp : p ∈ live) (o : Nat) :
    Bytes blockSize base p o ↔ Covers blockSize base p (o / blockSize) := by
  unfold Bytes Covers BitArray.InRange
  rw [h.offset_eq hb hs hp, ← Nat.add_mul, Nat.le_div_iff_mul_le hpos, Nat.div_lt_iff_lt_mul hpos]

theorem Packed.fits (h : Packed blockSize base (size / blockSize) array live) (hb : base < 2 ^ 64)
    (hs : size < 2 ^ 64) (hpos : 0 < blockSize) : Fits blockSize base size live := by
  have hle : size / blockSize * blockSize ≤ size := Nat.div_mul_le_self size blockSize
  have hmul : size / blockSize * blockSize < 2 ^ 64 := hle.trans_lt hs
  refine ⟨fun p hp => ?_, fun p hp => ?_, fun o => ?_, fun hend p hp => ?_⟩
  · rw [h.offset_eq hb hmul hp]
    exact Nat.dvd_mul_left _ _
  · rw [h.offset_eq hb hmul hp, ← Nat.add_mul]
    exact (Nat.mul_le_mul_right _ (h.below p hp)).trans hle
  · have hcover : cover (Bytes blockSize base) live o =
        cover (Covers blockSize base) live (o / blockSize) :=
      Multiset.countP_congr rfl fun p hp => by simpa using h.bytes_iff hb hmul hpos hp o
    rw [hcover]
    exact h.apart _
  · have hoff := h.offset_eq hb hmul hp
    have hlt := Nat.mul_lt_mul_of_pos_right (h.first p hp) hpos
    have haddr := h.addr p hp
    rw [← hoff] at haddr hlt
    omega

/-- Blocks that are not all free have a byte of a packet. -/
theorem Packed.bytes_of_not_free (h : Packed blockSize base (size / blockSize) array live)
    (hb : base < 2 ^ 64) (hs : size < 2 ^ 64) (hpos : 0 < blockSize) {m k : Nat}
    (hle : (m + k) * blockSize ≤ size) (hfree : ¬ BitAllocator.Free array m k) :
    ∃ p ∈ live, ∃ o, m * blockSize ≤ o ∧ o < (m + k) * blockSize ∧ Bytes blockSize base p o := by
  have hmul := (Nat.div_mul_le_self size blockSize).trans_lt hs
  have hend : m + k ≤ size / blockSize := (Nat.le_div_iff_mul_le hpos).mpr hle
  obtain ⟨p, hp, j, hj, hcov⟩ := h.covered hend hfree
  refine ⟨p, hp, j * blockSize, Nat.mul_le_mul_right _ hj.1,
    Nat.mul_lt_mul_of_pos_right hj.2 hpos, ?_⟩
  rwa [h.bytes_iff hb hmul hpos hp, Nat.mul_div_cancel _ hpos]

theorem Inv.fits (h : Inv D blockSize T s) (hrange : s.range = some (base, size)) :
    Fits blockSize base size s.live := by
  cases h with
  | empty hm => cases hrange
  | managed hx hy hm hbase hsize hsized hnext hp =>
    obtain ⟨rfl, rfl⟩ := Prod.mk.inj (Option.some.inj hrange)
    exact hp.fits hbase hsize hsized.pos

theorem Inv.serves (h : Inv D blockSize T s) (hrange : s.range = some (base, size)) :
    Serves blockSize base size s := by
  cases h with
  | empty hm => cases hrange
  | @managed x y array base' size' next m live hx hy hm hbase hsize hsized hnext hp =>
    obtain ⟨rfl, rfl⟩ := Prod.mk.inj (Option.some.inj hrange)
    intro n k e s' hk hs' i hdvd hle
    obtain ⟨hpos, hlt⟩ := hsized.bits_lt
    rw [← hp.bits] at hpos hlt
    have hend : i + 2 ^ k ≤ size' / blockSize := (Nat.le_div_iff_mul_le hsized.pos).mpr hle
    rcases tryAlloc_spec blockSize n (s := ⟨some x, some (y, array), base', next, m⟩)
      rfl hpos (by omega) hnext with ⟨i, array', hs'', -⟩ | ⟨-, hno⟩
    · cases hs'.symm.trans hs''
    · exact hp.bytes_of_not_free hbase hsize hsized.pos hle
        (hno k i hk hdvd (hend.trans hp.le_bits))

theorem Inv.accounted (h : Inv D blockSize T s) : Accounted D T s := by
  cases h with
  | empty hm => exact ⟨by simp [held, hm], by simp [held], by simp [held]⟩
  | @managed x y array base size next m live hx hy hm =>
    have hheld : held ⟨some x, some (y, array), base, next, m⟩ = {x, y} := rfl
    rw [Finset.mem_insert, not_or] at hy
    refine ⟨?_, ?_, ?_⟩
    · dsimp only
      rw [hheld, hm]
      ext z
      simp only [Finset.mem_insert, Finset.mem_union, Finset.mem_singleton]
      tauto
    · dsimp only
      rw [hheld]
      simp [hx, hy.2]
    · dsimp only
      rw [hheld, Finset.card_pair (Ne.symm hy.1)]
      rfl

theorem Inv.correct (h : Inv D blockSize T s) : Correct D blockSize T s := by
  refine ⟨fun _ _ => h.fits, fun hnone => ?_, fun _ _ => h.serves, ?_, h.accounted, ?_⟩
  · cases h with
    | empty hm => rfl
    | managed => cases hnone
  · intro base size hnone hbase hsize hsized hsup
    cases h with
    | empty hm =>
      obtain ⟨s', hs', -⟩ := add_of_supplied hm hbase hsize hsized hsup
      exact ⟨s', hs'⟩
    | managed => cases hnone
  · intro c hc ht
    obtain ⟨r, s', hs', -⟩ := h.step hc ht
    exact ⟨r, s', hs'⟩

end Correct

section Runs

variable {D : Md ι μ} {blockSize : Nat} {m₀ : μ} {s : Packets ι μ}
  {hist : List (Packets ι μ × Call × Reply)}

theorem Inv.called {T : Finset ι} {s' : Packets ι μ} {e : Call × Reply} (h : Inv D blockSize T s)
    (htr : Called Call.Allowed (call D blockSize) s e s') (ht : e.1.Tidy D blockSize s) :
    Inv D blockSize T s' ∧ Restores D blockSize s e.1 := by
  obtain ⟨r, s₁, hs₁, hinv, hun⟩ := h.step htr.1 ht
  refine ⟨?_, fun err s₂ hs₂ => ?_⟩
  · obtain ⟨-, rfl⟩ := Prod.mk.inj (Except.ok.inj (hs₁.symm.trans htr.2))
    exact hinv
  · obtain ⟨rfl, rfl⟩ := Prod.mk.inj (Except.ok.inj (hs₁.symm.trans hs₂))
    exact hun err rfl

/-- If every range is added or its request fails without a trace, the
packets of a run are apart, free blocks are found, and a range leaves
nothing behind when it is removed or not added. -/
theorem packets_correct_of_run (h : Run (Eq (new m₀)) (Called Call.Allowed (call D blockSize)) hist s)
    (hc : ∀ e ∈ hist, e.2.1.Tidy D blockSize e.1) :
    (∀ t ∈ reached hist s, Correct D blockSize (D.taken m₀) t) ∧
      ∀ e ∈ hist, Restores D blockSize e.1 e.2.1 := by
  have hinit : ∀ t : Packets ι μ, new m₀ = t → Inv D blockSize (D.taken m₀) t := by
    rintro t rfl
    exact .empty rfl
  have hstep : ∀ t e t', Inv D blockSize (D.taken m₀) t →
      Called Call.Allowed (call D blockSize) t e t' → e.1.Tidy D blockSize t →
      Inv D blockSize (D.taken m₀) t' := fun t e t' ht htr htidy => (ht.called htr htidy).1
  refine ⟨h.forall_reached_of hinit hstep (fun t ht => ht.correct) hc, fun e he => ?_⟩
  obtain ⟨later, earlier, rfl⟩ := List.append_of_mem he
  obtain ⟨hr, t', htr, -⟩ := h.cut
  have hinv := hr.invariant_of hinit hstep fun e' he' =>
    hc e' (List.mem_append_right _ (List.mem_cons_of_mem _ he'))
  exact (hinv.called htr (hc e he)).2

theorem exists_run (D : Md ι μ) (blockSize : Nat) (m₀ : μ) (cs : List Call)
    {p : List (Packets ι μ × Call × Reply) × Packets ι μ → Prop} [DecidablePred p]
    (h : (replay (attempt Call.Allowed (call D blockSize)) cs ([], new m₀)).any
      (fun r => decide (p r)) = true) :
    ∃ hist s, Run (Eq (new m₀)) (Called Call.Allowed (call D blockSize)) hist s ∧ p (hist, s) :=
  Lib.exists_run (fun _ _ _ _ => called_of_attempt) rfl h

/-- A request fails without a trace. Later packets come and go in a range
of 70 blocks, whose bits are in two words. -/
theorem packets_correct_of_run_freed : ∃ hist s,
    Run (Eq (new ((∅ : Finset (Fin 4)), [true])))
      (Called Call.Allowed (call (flakyStock 4) 0x1000)) hist s ∧
    Multiset.card s.live = 3 ∧
    (∀ t ∈ reached hist s, Correct (flakyStock 4) 0x1000 ∅ t) ∧
      ∀ e ∈ hist, Restores (flakyStock 4) 0x1000 e.1 e.2.1 := by
  obtain ⟨hist, s, h, hcard, hc⟩ := exists_run (flakyStock 4) 0x1000 (∅, [true])
    [.addRange 0 0x46000, .addRange 0x10000 0x46000, .tryAlloc 0x1000, .tryAlloc 0x4000,
      .free ⟨0x10000, 0x1000⟩, .tryAlloc 0x3c000, .tryAlloc 0x20000, .removeRange 0x10000 0x46000,
      .addRange 0 0x46000, .tryAlloc 0x2000, .tryAlloc 0x7000, .tryAlloc 0x800, .addRange 0 0x1000]
    (p := fun r => Multiset.card r.2.live = 3 ∧
      ∀ e ∈ r.1, e.2.1.Tidy (flakyStock 4) 0x1000 e.1) (by decide +kernel)
  exact ⟨hist, s, h, hcard, packets_correct_of_run h hc⟩

/-- When the first request fails, the base stays, and so no range is added
any more. When only the second one fails, the pointer to the bits stays,
and they are given back once more with the next request that fails. -/
theorem failed_range_remains :
    (∃ hist s, Run (Eq (new ((∅ : Finset (Fin 4)), [true])))
      (Called Call.Allowed (call (flakyStock 4) 0x1000)) hist s ∧
      ¬ Correct (flakyStock 4) 0x1000 ∅ s) ∧
    ∃ hist s, Run (Eq (new ((∅ : Finset (Fin 4)), [false, true, true])))
      (Called Call.Allowed (call (flakyStock 4) 0x1000)) hist s ∧
      call (flakyStock 4) 0x1000 s (.addRange 0 0x4000) = .error .pointer := by
  constructor
  · obtain ⟨hist, s, h, hrange, hsup, hdenied⟩ := exists_run (flakyStock 4) 0x1000 (∅, [true])
      [.addRange 0x1000 0x4000]
      (p := fun r => r.2.range = none ∧ Supplied (flakyStock 4) r.2.allocator.md ∧
        ((r.2.allocator.addRange (flakyStock 4) 0x1000 0x1000 0x4000).toOption.map
          fun a => a.1.isOk) = some false) (by decide +kernel)
    refine ⟨hist, s, h, fun hcorrect => ?_⟩
    obtain ⟨s', hs'⟩ := hcorrect.accepts 0x1000 0x4000 hrange (by decide) (by decide) (by decide) hsup
    rw [hs'] at hdenied
    simp [Except.toOption, Except.isOk, Except.toBool] at hdenied
  · obtain ⟨hist, s, h, hfault⟩ := exists_run (flakyStock 4) 0x1000 (∅, [false, true, true])
      [.addRange 0 0x4000]
      (p := fun r => ((call (flakyStock 4) 0x1000 r.2 (.addRange 0 0x4000)).map fun _ => ()) =
        .error .pointer) (by decide +kernel)
    refine ⟨hist, s, h, ?_⟩
    cases hcall : call (flakyStock 4) 0x1000 s (.addRange 0 0x4000) with
    | error f =>
      rw [hcall] at hfault
      exact congrArg _ (Except.error.inj hfault)
    | ok r => simp [hcall, Except.map] at hfault

end Runs

end PacketAllocator

end Genode.Os
