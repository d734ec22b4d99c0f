import Mathlib.Data.Nat.Bitwise

/-!
# Register — bitfields of a register

`util/register.h`. A bitfield is a range of the bits of a register. Values
are shifted to the range and cut off at its ends.
-/

namespace Genode.Util

/-- `Register::Bitfield`, for a register of `n` bits. -/
structure Bitfield (n : Nat) where
  shift : Nat
  width : Nat

namespace Bitfield

variable {n : Nat} (f : Bitfield n)

def mask : Nat := 2 ^ f.width - 1

/-- `reg_mask`. -/
def regMask : Nat := (f.mask <<< f.shift) % 2 ^ n

/-- `clear_mask`. -/
def clearMask : Nat := (2 ^ n - 1) ^^^ f.regMask

def bits (value : Nat) : Nat := ((value &&& f.mask) <<< f.shift) % 2 ^ n

def masked (reg : Nat) : Nat := reg &&& f.regMask

def get (reg : Nat) : Nat := (reg >>> f.shift) &&& f.mask

def clear (reg : Nat) : Nat := reg &&& f.clearMask

/-- The bits of the register that belong to the field. -/
def Has (i : Nat) : Prop := f.shift ≤ i ∧ i - f.shift < f.width ∧ i < n

instance (i : Nat) : Decidable (f.Has i) := inferInstanceAs (Decidable (_ ∧ _))

theorem testBit_regMask (i : Nat) : f.regMask.testBit i = decide (f.Has i) := by
  rw [regMask, Nat.testBit_mod_two_pow, Nat.testBit_shiftLeft, mask, Nat.testBit_two_pow_sub_one]
  unfold Has
  by_cases h₁ : i < n <;> by_cases h₂ : f.shift ≤ i <;> simp [h₁, h₂]

theorem testBit_bits (value i : Nat) :
    (f.bits value).testBit i = (decide (f.Has i) && value.testBit (i - f.shift)) := by
  rw [bits, Nat.testBit_mod_two_pow, Nat.testBit_shiftLeft, Nat.testBit_and, mask,
    Nat.testBit_two_pow_sub_one]
  unfold Has
  by_cases h₁ : i < n <;> by_cases h₂ : f.shift ≤ i <;> simp [h₁, h₂, Bool.and_comm]

theorem testBit_masked (reg i : Nat) :
    (f.masked reg).testBit i = (decide (f.Has i) && reg.testBit i) := by
  rw [masked, Nat.testBit_and, testBit_regMask, Bool.and_comm]

theorem testBit_clear (reg i : Nat) :
    (f.clear reg).testBit i = (decide (i < n) && !decide (f.Has i) && reg.testBit i) := by
  rw [clear, Nat.testBit_and, clearMask, Nat.testBit_xor, Nat.testBit_two_pow_sub_one,
    testBit_regMask]
  by_cases hi : i < n
  · simp [hi, Bool.and_comm]
  · simp [hi, show ¬ f.Has i from fun h => hi h.2.2]

/-- There is nothing to be cut off. -/
theorem masked_eq {reg : Nat} (h : ∀ i, reg.testBit i = true → f.Has i) : f.masked reg = reg := by
  apply Nat.eq_of_testBit_eq
  intro i
  rw [testBit_masked]
  cases hi : reg.testBit i with
  | false => simp
  | true => simp [h i hi]

/-- A field of a single bit. -/
theorem get_bit {reg : Nat} (h : f.width = 1) :
    f.get reg = if reg.testBit f.shift then 1 else 0 := by
  rw [get, mask, h, Nat.pow_one, Nat.and_one_is_mod, Nat.testBit, Nat.one_and_eq_mod_two]
  rcases Nat.mod_two_eq_zero_or_one (reg >>> f.shift) with h | h <;> simp [h]

end Bitfield

end Genode.Util
