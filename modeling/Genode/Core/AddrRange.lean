import Genode.Lib.Word

/-!
# AddrRange — ranges of addresses, and flexpages around an address

`core/include/types.h`, `core/include/addr_range.h` and
`core/include/log2_range.h`. A range is given by its first and its last
byte. A flexpage is a range whose size is a power of two and whose base
is a multiple of the size; it is found by growing it around a hotspot.
-/

namespace Genode.Core

open Lib

def pageSizeLog2 : Nat := 12

namespace Addr

def reducedBy (value offset : Nat) : Nat := if offset ≤ value then value - offset else 0

def increasedBy (value offset : Nat) : Nat :=
  if offset ≤ add64 value offset then add64 value offset else 0

theorem reducedBy_of_le {value offset : Nat} (h : offset ≤ value) :
    reducedBy value offset = value - offset := if_pos h

theorem increasedBy_of_lt {value offset : Nat} (h : value + offset < 2 ^ 64) :
    increasedBy value offset = value + offset := by
  rw [increasedBy, add64_of_lt h, if_pos (Nat.le_add_left _ _)]

end Addr

/-- `Addr_range`; `last` is the member `end`. -/
structure AddrRange where
  start : Nat
  last : Nat
  deriving DecidableEq, Repr

namespace AddrRange

variable (r other : AddrRange) (offset : Nat)

def valid : Bool := r.start < r.last

def intersected : AddrRange :=
  if !r.valid || !other.valid then ⟨0, 0⟩
  else ⟨max r.start other.start, min r.last other.last⟩

def reducedBy : AddrRange :=
  if !r.valid || decide (r.start < offset) then ⟨0, 0⟩
  else ⟨r.start - offset, sub64 r.last offset⟩

def increasedBy : AddrRange :=
  if !r.valid || decide (add64 offset r.start < offset) || decide (add64 offset r.last < offset)
  then ⟨0, 0⟩
  else ⟨add64 r.start offset, add64 r.last offset⟩

/-- A valid range that holds an address. -/
structure Holds (r : AddrRange) (a : Nat) : Prop where
  lt : r.start < r.last
  start_le : r.start ≤ a
  le_last : a ≤ r.last

variable {r other offset} {a : Nat}

/-- Both ends of the range are 64-bit numbers. -/
structure Sized (r : AddrRange) : Prop where
  start_lt : r.start < 2 ^ 64
  last_lt : r.last < 2 ^ 64

theorem sized_zero : Sized ⟨0, 0⟩ := ⟨by decide, by decide⟩

theorem Sized.intersected (h : r.Sized) (h' : other.Sized) : (r.intersected other).Sized := by
  unfold AddrRange.intersected
  split
  · exact sized_zero
  · have h₁ := h.start_lt
    have h₂ := h.last_lt
    have h₃ := h'.start_lt
    exact ⟨by dsimp only; omega, by dsimp only; omega⟩

theorem Sized.reducedBy (h : r.Sized) : (r.reducedBy offset).Sized := by
  unfold AddrRange.reducedBy
  split
  · exact sized_zero
  · exact ⟨(Nat.sub_le _ _).trans_lt h.start_lt, Nat.mod_lt _ (Nat.two_pow_pos 64)⟩

theorem sized_increasedBy : (r.increasedBy offset).Sized := by
  unfold AddrRange.increasedBy
  split
  · exact sized_zero
  · exact ⟨Nat.mod_lt _ (Nat.two_pow_pos 64), Nat.mod_lt _ (Nat.two_pow_pos 64)⟩

theorem not_holds_zero : ¬ Holds ⟨0, 0⟩ a := fun h => absurd h.lt (Nat.lt_irrefl 0)

theorem holds_intersected (h : (r.intersected other).Holds a) : r.Holds a ∧ other.Holds a := by
  unfold intersected at h
  split at h
  · exact (not_holds_zero h).elim
  · rename_i hv
    simp only [valid, Bool.or_eq_true, Bool.not_eq_true', decide_eq_false_iff_not] at hv
    have h₁ := h.start_le
    have h₂ := h.le_last
    dsimp only at h₁ h₂
    exact ⟨⟨by omega, by omega, by omega⟩, ⟨by omega, by omega, by omega⟩⟩

theorem holds_reducedBy (hr : r.Sized) (h : (r.reducedBy offset).Holds a) :
    r.Holds (a + offset) := by
  unfold reducedBy at h
  split at h
  · exact (not_holds_zero h).elim
  · rename_i hv
    simp only [valid, Bool.or_eq_true, Bool.not_eq_true', decide_eq_false_iff_not,
      decide_eq_true_eq] at hv
    have h₁ := h.start_le
    have h₂ := h.le_last
    dsimp only at h₁ h₂
    rw [sub64_of_le (by omega) hr.last_lt] at h₂
    exact ⟨by omega, by omega, by omega⟩

theorem holds_increasedBy (hr : r.Sized)
    (h : (r.increasedBy offset).Holds a) : offset ≤ a ∧ r.Holds (a - offset) := by
  unfold increasedBy at h
  split at h
  · exact (not_holds_zero h).elim
  · rename_i hv
    simp only [valid, Bool.or_eq_true, Bool.not_eq_true', decide_eq_false_iff_not,
      decide_eq_true_eq] at hv
    have hs := hr.start_lt
    have hl := hr.last_lt
    have hs' : offset + r.start < 2 ^ 64 := by
      unfold add64 at hv
      omega
    have hl' : offset + r.last < 2 ^ 64 := by
      unfold add64 at hv
      omega
    have h₁ := h.start_le
    have h₂ := h.le_last
    dsimp only at h₁ h₂
    rw [add64_of_lt (by omega)] at h₁ h₂
    exact ⟨by omega, ⟨by omega, by omega, by omega⟩⟩

end AddrRange

/-- `Log2_range`. -/
structure Log2Range where
  hotspot : Nat := 0
  base : Nat := 0
  size : Nat := 0
  deriving DecidableEq, Repr

namespace Log2Range

/-- `UNCONSTRAINED`, the largest 8-bit number. -/
def unconstrained : Nat := 255

variable (r r₁ r₂ : Log2Range) (region : AddrRange)

def valid : Bool := pageSizeLog2 ≤ r.size

/-- The constructor that spans the maximum address-space size. -/
def ofHotspot (hotspot : Nat) : Log2Range := { hotspot := hotspot, size := unconstrained }

def upperBound : Nat :=
  if r.size = unconstrained then 2 ^ 64 - 1 else sub64 (add64 r.base (2 ^ r.size)) 1

/-- The flexpage of size `n` around the hotspot lies within the range and the region. -/
def compatible (n : Nat) : Bool :=
  let tryBase := clearLow r.hotspot n
  let tryLast := sub64 (add64 tryBase (2 ^ n)) 1
  r.base ≤ tryBase && tryLast ≤ r.upperBound && region.start ≤ tryBase && tryLast ≤ region.last

/-- The loop of `constrained`; at most `k` sizes from `n` on are left to try. -/
def constrainedFrom : Nat → Nat → Log2Range → Log2Range
  | 0, _, result => result
  | k + 1, n, result =>
    if r.compatible region n then
      constrainedFrom k (n + 1) { result with base := clearLow r.hotspot n, size := n }
    else result

/-- `constrained` to a region. -/
def constrained : Log2Range :=
  let result := r.constrainedFrom region (64 - pageSizeLog2) pageSizeLog2
    { hotspot := r.hotspot, size := pageSizeLog2 - 1 }
  if result.valid then result else {}

/-- `constrained` to a size. -/
def constrainedSize (n : Nat) : Log2Range :=
  if r.size ≤ n then r else { r with base := clearLow r.hotspot n, size := n }

/-- The loop of `common_log2`; at most `k` sizes from `n` on are left to try. -/
def commonFrom (diff : Nat) : Nat → Nat → Nat
  | 0, n => n
  | k + 1, n => if diff.testBit n then n else commonFrom diff k (n + 1)

def commonLog2 : Nat :=
  let diff := sub64 r₁.hotspot r₁.base ^^^ sub64 r₂.hotspot r₂.base
  commonFrom diff (min r₁.size r₂.size - pageSizeLog2) pageSizeLog2

/-- A flexpage of at least a page around its hotspot, within the region. -/
structure Within (r : Log2Range) (region : AddrRange) : Prop where
  size_ge : pageSizeLog2 ≤ r.size
  size_lt : r.size < 64
  base_eq : r.base = clearLow r.hotspot r.size
  start_le : region.start ≤ r.base
  le_last : r.base + 2 ^ r.size ≤ region.last + 1

variable {r r₁ r₂ region} {n k : Nat}

/-- A block around an address does not reach beyond the last address. -/
theorem clearLow_add_le_max {a : Nat} (ha : a < 2 ^ 64) (hn : n < 64) :
    clearLow a n + 2 ^ n ≤ 2 ^ 64 := by
  have h := clearLow_add_le (a := a) hn.le
  have h₀ : clearLow a 64 = 0 := by
    unfold clearLow
    omega
  omega

theorem compatible_within (hr : r.hotspot < 2 ^ 64) (hn : pageSizeLog2 ≤ n) (hn' : n < 64)
    (h : r.compatible region n = true) :
    Within ⟨r.hotspot, clearLow r.hotspot n, n⟩ region := by
  have hmax := clearLow_add_le_max hr hn'
  have hpos := Nat.two_pow_pos n
  simp only [compatible, Bool.and_eq_true, decide_eq_true_eq] at h
  rw [sub64_add64_one hpos hmax] at h
  exact ⟨hn, hn', rfl, h.1.2, by dsimp only; omega⟩

theorem constrainedFrom_spec (hr : r.hotspot < 2 ^ 64) (hn : pageSizeLog2 ≤ n) (hk : n + k ≤ 64)
    (result : Log2Range) (hh : result.hotspot = r.hotspot)
    (h : result.valid = true → result.Within region) :
    (r.constrainedFrom region k n result).hotspot = r.hotspot ∧
      ((r.constrainedFrom region k n result).valid = true →
        (r.constrainedFrom region k n result).Within region) := by
  induction k generalizing n result with
  | zero => exact ⟨hh, h⟩
  | succ k ih =>
    unfold constrainedFrom
    split
    · rename_i hc
      refine ih (by omega) (by omega) _ hh fun _ => ?_
      rw [hh]
      exact compatible_within hr hn (by omega) hc
    · exact ⟨hh, h⟩

/-- A range that is constrained to a region is invalid, or a flexpage within it. -/
theorem constrained_spec (hr : r.hotspot < 2 ^ 64) (region : AddrRange) :
    r.constrained region = {} ∨
      (r.constrained region).hotspot = r.hotspot ∧ (r.constrained region).Within region := by
  unfold constrained
  dsimp only
  split
  · rename_i hv
    have hinit : valid { hotspot := r.hotspot, size := pageSizeLog2 - 1 } = true →
        Within { hotspot := r.hotspot, size := pageSizeLog2 - 1 } region := by
      intro hv
      simp [valid, pageSizeLog2] at hv
    have h := constrainedFrom_spec hr le_rfl
      (by decide : pageSizeLog2 + (64 - pageSizeLog2) ≤ 64) (.mk r.hotspot 0 (pageSizeLog2 - 1))
      rfl hinit
    exact .inr ⟨h.1, h.2 hv⟩
  · exact .inl rfl

/-- The smaller flexpage around the same hotspot. -/
theorem Within.constrainedSize (h : r.Within region) (hn : pageSizeLog2 ≤ n) (hn' : n ≤ r.size) :
    (r.constrainedSize n).Within region ∧
      r.constrainedSize n = ⟨r.hotspot, clearLow r.hotspot n, n⟩ := by
  have heq : r.constrainedSize n = ⟨r.hotspot, clearLow r.hotspot n, n⟩ := by
    unfold Log2Range.constrainedSize
    split
    · rename_i hle
      obtain rfl : n = r.size := le_antisymm hn' hle
      rw [← h.base_eq]
    · rfl
  rw [heq]
  refine ⟨⟨hn, hn'.trans_lt h.size_lt, rfl, ?_, ?_⟩, rfl⟩
  · exact h.start_le.trans (h.base_eq.le.trans (clearLow_mono hn'))
  · have h₁ := clearLow_add_le (a := r.hotspot) hn'
    have h₂ := h.le_last
    rw [h.base_eq] at h₂
    exact h₁.trans h₂

/-- All bits below the common size agree, if those below the page size do. -/
theorem commonFrom_spec {a b : Nat} (h : a % 2 ^ n = b % 2 ^ n) :
    n ≤ commonFrom (a ^^^ b) k n ∧ commonFrom (a ^^^ b) k n ≤ n + k ∧
      a % 2 ^ commonFrom (a ^^^ b) k n = b % 2 ^ commonFrom (a ^^^ b) k n := by
  induction k generalizing n with
  | zero => exact ⟨le_rfl, le_rfl, h⟩
  | succ k ih =>
    unfold commonFrom
    split
    · exact ⟨le_rfl, Nat.le_add_right _ _, h⟩
    · rename_i hbit
      have heq : a.testBit n = b.testBit n := by
        simpa [Nat.testBit_xor] using hbit
      obtain ⟨h₁, h₂, h₃⟩ := ih (mod_two_pow_succ_eq h heq)
      exact ⟨by omega, by omega, h₃⟩

/-- The flexpages of the common size around the two hotspots are at the same offset. -/
theorem commonLog2_spec {a : Nat} (ha : a < 2 ^ 64) (hr : r.hotspot < 2 ^ 64)
    (h : r.Within region) (hmod : a % 2 ^ pageSizeLog2 = r.hotspot % 2 ^ pageSizeLog2) :
    pageSizeLog2 ≤ commonLog2 (ofHotspot a) r ∧ commonLog2 (ofHotspot a) r ≤ r.size ∧
      a % 2 ^ commonLog2 (ofHotspot a) r = r.hotspot % 2 ^ commonLog2 (ofHotspot a) r := by
  have hge := h.size_ge
  have hlt := h.size_lt
  have hmin : min (ofHotspot a).size r.size = r.size := by
    simp only [ofHotspot, unconstrained]
    omega
  have ha₀ : sub64 (ofHotspot a).hotspot (ofHotspot a).base = a := sub64_of_le (Nat.zero_le _) ha
  have hr₀ : sub64 r.hotspot r.base = r.hotspot % 2 ^ r.size := by
    rw [h.base_eq, sub64_of_le clearLow_le hr]
    have := clearLow_add_mod (a := r.hotspot) (n := r.size)
    omega
  have hdvd : ∀ n ≤ r.size, r.hotspot % 2 ^ r.size % 2 ^ n = r.hotspot % 2 ^ n :=
    fun n hn => Nat.mod_mod_of_dvd _ (pow_dvd_pow 2 hn)
  have hspec := commonFrom_spec (k := r.size - pageSizeLog2) (hmod.trans (hdvd _ hge).symm)
  unfold commonLog2
  dsimp only
  rw [hmin, ha₀, hr₀]
  have hle := hspec.2.1
  rw [Nat.add_sub_cancel' hge] at hle
  exact ⟨hspec.1, hle, hspec.2.2.trans (hdvd _ hle)⟩

end Log2Range

end Genode.Core
