import Mathlib.Algebra.Order.Group.Multiset
import Genode.Base.AllocatorAvl
import Genode.Lib.Cover

/-!
# BlockRanges — the addresses of a block

A block is a range of numbers, and the code computes with the lower 64
bits of them. Where a range ends at the end of the address space, the
number after its last address does not fit into 64 bits (`stop`). The
block of the whole address space has the size 0.
-/

namespace Genode.Base

open Lib

variable {a b n lo hi align beg fin : Nat}

/-! ## 64-bit numbers -/

theorem add64_eq (h : a + b < 2 ^ 64) : add64 a b = a + b := Nat.mod_eq_of_lt h

theorem add64_lt : add64 a b < 2 ^ 64 := Nat.mod_lt _ (by omega)

theorem sub64_lt : sub64 a b < 2 ^ 64 := Nat.mod_lt _ (by omega)

theorem sub64_eq (h : b ≤ a) (ha : a < 2 ^ 64) : sub64 a b = a - b := by
  unfold sub64
  omega

theorem last_eq (h : 0 < b) (hb : a + b ≤ 2 ^ 64) : sub64 (add64 a b) 1 = a + b - 1 := by
  unfold sub64 add64
  omega

theorem sumInRange_iff (ha : a < 2 ^ 64) (hn : n < 2 ^ 64) :
    sumInRange a n = true ↔ (0 < n ∧ a + n ≤ 2 ^ 64) ∨ (n = 0 ∧ a = 0) := by
  rw [sumInRange, decide_eq_true_eq, sub64, add64]
  omega

theorem alignAddr_lt : alignAddr a align < 2 ^ 64 := lt_of_le_of_lt (Nat.sub_le _ _) add64_lt

/-- An aligned address is not below the address, unless the alignment wraps. -/
theorem alignAddr_cases (ha : a < 2 ^ 64) : alignAddr a align = 0 ∨ a ≤ alignAddr a align := by
  have hpos : 0 < 2 ^ align := Nat.two_pow_pos align
  have hmod := Nat.mod_lt (add64 a (2 ^ align - 1)) hpos
  by_cases h : a + (2 ^ align - 1) < 2 ^ 64
  · right
    rw [alignAddr, add64_eq h] at *
    omega
  · left
    -- what is left of the sum is less than the alignment
    have hlt : add64 a (2 ^ align - 1) < 2 ^ align := by
      unfold add64
      generalize 2 ^ align = p at *
      omega
    rw [alignAddr, Nat.mod_eq_of_lt hlt, Nat.sub_self]

theorem dvd_alignAddr : 2 ^ align ∣ alignAddr a align := Nat.dvd_sub_mod _

theorem alignAddr_zero (ha : a < 2 ^ 64) : alignAddr a 0 = a := by
  rw [alignAddr, Nat.pow_zero, Nat.sub_self, add64_eq ha, Nat.mod_one, Nat.sub_zero, Nat.add_zero]

/-! ## The range of a block -/

namespace Block

variable {x y : Block}

/-- The number after the last address. -/
def stop (x : Block) : Nat := if x.addr = 0 ∧ x.size = 0 then 2 ^ 64 else x.addr + x.size

/-- A range of addresses. No allocation has the size of the whole address space. -/
structure Valid (x : Block) : Prop where
  size_lt : x.size < 2 ^ 64
  lt_stop : x.addr < x.stop
  stop_le : x.stop ≤ 2 ^ 64
  used : x.used = true → 0 < x.size

def Covers (x : Block) (a : Nat) : Prop := x.addr ≤ a ∧ a < x.stop

instance (x : Block) (a : Nat) : Decidable (x.Covers a) := inferInstanceAs (Decidable (_ ∧ _))

/-- The block of a range. -/
def range (lo hi : Nat) (used : Bool) : Block := ⟨lo, (hi - lo) % 2 ^ 64, used⟩

theorem Valid.addr_lt (h : x.Valid) : x.addr < 2 ^ 64 := h.lt_stop.trans_le h.stop_le

/-- A block of the whole address space, or one whose size says where it stops. -/
theorem Valid.cases (h : x.Valid) : (x.addr = 0 ∧ x.size = 0 ∧ x.stop = 2 ^ 64) ∨
    (0 < x.size ∧ x.stop = x.addr + x.size) := by
  have hlt := h.lt_stop
  by_cases hw : x.addr = 0 ∧ x.size = 0
  · exact .inl ⟨hw.1, hw.2, if_pos hw⟩
  · have hs : x.stop = x.addr + x.size := if_neg hw
    exact .inr ⟨by omega, hs⟩

theorem Valid.last_eq (h : x.Valid) : x.last = x.stop - 1 := by
  have hle := h.stop_le
  unfold last sub64 add64
  rcases h.cases with ⟨h₁, h₂, h₃⟩ | ⟨h₁, h₂⟩ <;> omega

theorem Valid.covers_last (h : x.Valid) : x.Covers (x.stop - 1) := by
  have := h.lt_stop
  exact ⟨by omega, by omega⟩

theorem Valid.covers_addr (h : x.Valid) : x.Covers x.addr := ⟨le_rfl, h.lt_stop⟩

theorem stop_eq (hs : 0 < x.size) : x.stop = x.addr + x.size := if_neg (by omega)

@[simp] theorem addr_range {u : Bool} : (range lo hi u).addr = lo := rfl

@[simp] theorem used_range {u : Bool} : (range lo hi u).used = u := rfl

theorem stop_range (h : lo < hi) (hhi : hi ≤ 2 ^ 64) {u : Bool} : (range lo hi u).stop = hi := by
  unfold stop range
  dsimp only
  split <;> omega

theorem valid_range (h : lo < hi) (hhi : hi ≤ 2 ^ 64) {u : Bool}
    (hu : u = true → hi - lo < 2 ^ 64) : (range lo hi u).Valid := by
  refine ⟨Nat.mod_lt _ (by omega), by rwa [stop_range h hhi], by rwa [stop_range h hhi], ?_⟩
  intro h'
  have := hu h'
  simp only [range]
  omega

theorem Valid.range_eq (h : x.Valid) : range x.addr x.stop x.used = x := by
  have hs : (x.stop - x.addr) % 2 ^ 64 = x.size := by
    have hlt := h.size_lt
    rcases h.cases with ⟨h₁, h₂, h₃⟩ | ⟨h₁, h₂⟩ <;> omega
  rw [range, hs]

end Block

/-! ## Blocks side by side -/

open Block

/-- What is free from `lo` up to `hi`. -/
def gap (lo hi : Nat) : Multiset Block := if lo < hi then {range lo hi false} else 0

/-- What `_add_block` leaves of a part with the size `size`, which may be nothing. -/
def piece (addr size : Nat) : Multiset Block := if 0 < size then {⟨addr, size, false⟩} else 0

abbrev blockCover (B : Multiset Block) (a : Nat) : Nat := cover Block.Covers B a

/-- No two blocks have an address in common. -/
structure Sane (B : Multiset Block) : Prop where
  valid : ∀ x ∈ B, x.Valid
  apart : Apart Block.Covers B

variable {B C : Multiset Block} {x y : Block}

theorem blockCover_cons : blockCover (x ::ₘ B) a =
    (if x.addr ≤ a ∧ a < x.stop then 1 else 0) + blockCover B a := cover_cons

theorem cover_range (h : lo < hi) (hhi : hi ≤ 2 ^ 64) {u : Bool} :
    (if (range lo hi u).Covers a then 1 else 0) = if lo ≤ a ∧ a < hi then 1 else 0 := by
  simp only [Block.Covers, stop_range h hhi, addr_range]

theorem cover_gap (hhi : hi ≤ 2 ^ 64) : blockCover (gap lo hi) a = if lo ≤ a ∧ a < hi then 1 else 0 := by
  unfold gap blockCover
  split
  · next h => rw [← Multiset.cons_zero, cover_cons, cover_range h hhi, cover_zero, Nat.add_zero]
  · rw [cover_zero, if_neg (by omega)]

theorem valid_of_mem_gap (hhi : hi ≤ 2 ^ 64) (hx : x ∈ gap lo hi) : x.Valid := by
  unfold gap at hx
  split at hx
  · next h =>
    rw [Multiset.mem_singleton.mp hx]
    exact valid_range h hhi (by simp)
  · simp at hx

theorem mem_gap : x ∈ gap lo hi ↔ lo < hi ∧ x = range lo hi false := by
  unfold gap
  split <;> simp [*]

theorem Sane.le (h : Sane B) (hC : C ≤ B) : Sane C :=
  ⟨fun x hx => h.valid x (Multiset.mem_of_le hC hx), h.apart.le hC⟩

/-! ## Parts of a block -/

namespace Block

/-- The size of the alignment padding that `_cut_from_block` leaves. -/
def padding (x : Block) (addr : Nat) : Nat := if x.addr < addr then sub64 addr x.addr else 0

/-- The size of what remains behind the part that `_cut_from_block` takes. -/
def remaining (x : Block) (addr size : Nat) : Nat :=
  let rest := if x.padding addr < x.size then sub64 x.size (x.padding addr) else 0
  if x.addr = 0 ∧ x.size = 0 then sub64 (sub64 x.size size) (x.padding addr)
  else if size < rest then sub64 rest size else 0

/-- The parts that are left of a block. -/
def pieces (x : Block) (addr size : Nat) : Multiset Block :=
  piece x.addr (x.padding addr) + piece (add64 addr size) (x.remaining addr size)

theorem padding_eq (h : x.Valid) (ha : x.addr ≤ a) (hs : a < x.stop) : x.padding a = a - x.addr := by
  have := h.stop_le
  unfold padding
  split
  · rw [sub64_eq ha (by omega)]
  · omega

theorem remaining_eq (h : x.Valid) (ha : x.addr ≤ a) (hn : 0 < n) (hs : a + n ≤ x.stop) :
    x.remaining a n = x.stop - (a + n) := by
  have hle := h.stop_le
  have hlt := h.size_lt
  unfold remaining
  rw [padding_eq h ha (by omega)]
  rcases h.cases with ⟨h₁, h₂, h₃⟩ | ⟨h₁, h₂⟩
  · rw [if_pos ⟨h₁, h₂⟩, h₁, h₂, h₃]
    unfold sub64
    omega
  · have hrest : (if a - x.addr < x.size then sub64 x.size (a - x.addr) else 0) =
        x.size - (a - x.addr) := by rw [if_pos (by omega), sub64_eq (by omega) hlt]
    simp only [hrest]
    rw [if_neg (by omega)]
    split
    · rw [sub64_eq (by omega) (by omega)]
      omega
    · omega

/-- A part inside of the block leaves what is in front of it and what is behind it. -/
theorem pieces_eq (h : x.Valid) (ha : x.addr ≤ a) (hn : 0 < n) (hs : a + n ≤ x.stop) :
    x.pieces a n = gap x.addr a + gap (a + n) x.stop := by
  have hle := h.stop_le
  unfold pieces
  rw [padding_eq h ha (by omega), remaining_eq h ha hn hs]
  congr 1
  · unfold piece gap range
    rw [Nat.mod_eq_of_lt (by omega)]
    split <;> split <;> first | rfl | omega
  · unfold piece gap range
    rw [Nat.mod_eq_of_lt (by omega)]
    by_cases hlt : a + n < x.stop
    · rw [if_pos (by omega), if_pos hlt, add64_eq (by omega)]
    · rw [if_neg (by omega), if_neg hlt]

/-! ## The check of an allocation -/

/-- The range of the size `n` at `a` lies inside of the block and of the requested range. -/
structure Offers (x : Block) (a n beg fin : Nat) : Prop where
  pos : 0 < n
  addr_le : x.addr ≤ a
  le_stop : a + n ≤ x.stop
  beg_le : beg ≤ a
  le_fin : a + n ≤ fin + 1

/-- Where `_allocate` puts the new block. -/
def place (x : Block) (align beg : Nat) : Nat := alignAddr (max x.addr beg) align

/-- The arguments of an allocation from a block at address 0 that do not
wrap around. An allocation up to the end of the address space needs the
block of all addresses. -/
structure Unwrapped (x : Block) (n align beg : Nat) : Prop where
  pos : 0 < n
  beg_le : beg ≤ alignAddr beg align
  whole : alignAddr beg align + n = 2 ^ 64 → x.size = 0

theorem fits_iff : x.fits n align beg fin = true ↔ x.addr ≤ x.place align beg ∧
    sumInRange (x.place align beg) n = true ∧ add64 (sub64 (x.place align beg) x.addr) n ≤ x.avail ∧
      sub64 (add64 (x.place align beg) n) 1 ≤ fin := by
  simp only [fits, place, Bool.and_eq_true, decide_eq_true_eq, and_assoc]

theorem place_of_addr (h : x.addr = 0) : x.place align beg = alignAddr beg align := by
  rw [place, h, Nat.zero_max]

/-- Above the first address, what `_fits` says of a free block is right. -/
theorem offers_of_addr_ne (h : x.Valid) (hu : x.used = false) (hn : n < 2 ^ 64)
    (hbeg : beg < 2 ^ 64) (hf : x.fits n align beg fin = true) (h0 : x.addr ≠ 0) :
    x.Offers (x.place align beg) n beg fin := by
  have hstop : x.stop = x.addr + x.size := stop_eq (h.cases.elim (fun hc => absurd hc.1 h0) And.left)
  have hp : x.place align beg < 2 ^ 64 := alignAddr_lt
  obtain ⟨h₁, h₂, h₃, h₄⟩ := fits_iff.mp hf
  obtain ⟨hpos, hle⟩ := ((sumInRange_iff hp hn).mp h₂).resolve_right fun hc => by omega
  have hmax : max x.addr beg ≤ x.place align beg :=
    (alignAddr_cases (max_lt h.addr_lt hbeg)).resolve_left fun hc => by unfold place at h₁; omega
  rw [last_eq hpos hle] at h₄
  rw [sub64_eq h₁ hp, add64_eq (by omega), avail, hu, if_neg (by simp)] at h₃
  exact ⟨hpos, h₁, by omega, by omega, by omega⟩

/-- At the first address, the sums that are compared may wrap. -/
theorem offers_of_addr_eq (h : x.Valid) (hu : x.used = false) (hn : n < 2 ^ 64)
    (hf : x.fits n align beg fin = true) (h0 : x.addr = 0) :
    x.Offers (x.place align beg) n beg fin ↔ x.Unwrapped n align beg := by
  have hp : x.place align beg < 2 ^ 64 := alignAddr_lt
  have hlt := h.size_lt
  obtain ⟨h₁, h₂, h₃, h₄⟩ := fits_iff.mp hf
  rw [sub64_eq h₁ hp, avail, hu, if_neg (by simp), h0, Nat.sub_zero] at h₃
  rw [sumInRange_iff hp hn] at h₂
  have hpl : x.place align beg = alignAddr beg align := place_of_addr h0
  constructor
  · intro ho
    refine ⟨ho.pos, hpl ▸ ho.beg_le, fun hw => ?_⟩
    have hle := ho.le_stop
    rcases h.cases with hc | hc
    · exact hc.2.1
    · omega
  · intro hw
    obtain ⟨hpos, hle⟩ := h₂.resolve_right fun hc => absurd hc.1 hw.pos.ne'
    have hbeg : beg ≤ x.place align beg := hpl ▸ hw.beg_le
    rw [last_eq hpos hle] at h₄
    refine ⟨hpos, h₁, ?_, hbeg, by omega⟩
    by_cases hend : x.place align beg + n = 2 ^ 64
    · have hs := hw.whole (hpl ▸ hend)
      rw [hend, stop, if_pos ⟨h0, hs⟩]
    · rw [add64_eq (by omega)] at h₃
      rw [stop_eq (by omega)]
      omega

/-- What `_fits` says of a free block is right, but for a block at
address 0 where the sums wrap. -/
theorem offers_iff (h : x.Valid) (hu : x.used = false) (hn : n < 2 ^ 64) (hbeg : beg < 2 ^ 64)
    (hf : x.fits n align beg fin = true) :
    x.Offers (x.place align beg) n beg fin ↔ (x.addr = 0 → x.Unwrapped n align beg) := by
  by_cases h0 : x.addr = 0
  · rw [offers_of_addr_eq h hu hn hf h0]
    exact (imp_iff_right h0).symm
  · exact iff_of_true (offers_of_addr_ne h hu hn hbeg hf h0) fun hc => absurd hc h0

end Block

end Genode.Base
