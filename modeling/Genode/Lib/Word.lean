import Mathlib.Algebra.Order.Ring.Nat

/-!
# Word — 64-bit numbers as naturals

Sums and differences as a 64-bit machine computes them, the clearing of
lower bits, and the agreement of two numbers in their lower bits.
-/

namespace Genode.Lib

def add64 (a b : Nat) : Nat := (a + b) % 2 ^ 64

def sub64 (a b : Nat) : Nat := (a + 2 ^ 64 - b) % 2 ^ 64

variable {a b c n m i : Nat}

theorem add64_of_lt (h : a + b < 2 ^ 64) : add64 a b = a + b := Nat.mod_eq_of_lt h

theorem sub64_of_le (h : b ≤ a) (ha : a < 2 ^ 64) : sub64 a b = a - b := by
  unfold sub64
  omega

/-- The sum may wrap, if the difference makes up for it. -/
theorem sub64_add64 (hle : c ≤ b) (hb : b < 2 ^ 64) (h : a + (b - c) < 2 ^ 64) :
    sub64 (add64 a b) c = a + (b - c) := by
  unfold sub64 add64
  omega

/-- The last number of a range that may reach up to the end. -/
theorem sub64_add64_one (hb : 0 < b) (h : a + b ≤ 2 ^ 64) : sub64 (add64 a b) 1 = a + b - 1 := by
  unfold sub64 add64
  omega

/-- The number with its lower `n` bits cleared. -/
def clearLow (a n : Nat) : Nat := a - a % 2 ^ n

theorem clearLow_le : clearLow a n ≤ a := Nat.sub_le _ _

theorem clearLow_add_mod : clearLow a n + a % 2 ^ n = a :=
  Nat.sub_add_cancel (Nat.mod_le _ _)

theorem lt_clearLow_add : a < clearLow a n + 2 ^ n := by
  have h := clearLow_add_mod (a := a) (n := n)
  have hlt := Nat.mod_lt a (Nat.two_pow_pos n)
  omega

theorem clearLow_mono (h : m ≤ n) : clearLow a n ≤ clearLow a m := by
  have hle : a % 2 ^ m ≤ a % 2 ^ n := by
    rw [← Nat.mod_mod_of_dvd a (pow_dvd_pow 2 h)]
    exact Nat.mod_le _ _
  unfold clearLow
  omega

/-- A smaller block around the same number lies within the larger one. -/
theorem clearLow_add_le (h : m ≤ n) : clearLow a m + 2 ^ m ≤ clearLow a n + 2 ^ n := by
  have hm : clearLow a m = 2 ^ m * (a / 2 ^ m) := by
    have := Nat.div_add_mod a (2 ^ m)
    unfold clearLow
    omega
  have hn : clearLow a n = 2 ^ n * (a / 2 ^ n) := by
    have := Nat.div_add_mod a (2 ^ n)
    unfold clearLow
    omega
  obtain ⟨k, rfl⟩ := Nat.exists_eq_add_of_le h
  have hlt : a / 2 ^ m < 2 ^ k * (a / 2 ^ (m + k)) + 2 ^ k := by
    rw [pow_add, ← Nat.div_div_eq_div_mul]
    have h₁ := Nat.div_add_mod (a / 2 ^ m) (2 ^ k)
    have h₂ := Nat.mod_lt (a / 2 ^ m) (Nat.two_pow_pos k)
    omega
  rw [hm, hn, pow_add]
  calc 2 ^ m * (a / 2 ^ m) + 2 ^ m = 2 ^ m * (a / 2 ^ m + 1) := by rw [Nat.mul_add, Nat.mul_one]
    _ ≤ 2 ^ m * (2 ^ k * (a / 2 ^ (m + k)) + 2 ^ k) := Nat.mul_le_mul_left _ hlt
    _ = 2 ^ m * 2 ^ k * (a / (2 ^ m * 2 ^ k)) + 2 ^ m * 2 ^ k := by
      rw [Nat.mul_add, ← Nat.mul_assoc, pow_add]

/-- One more bit in which two numbers agree. -/
theorem mod_two_pow_succ_eq (h : a % 2 ^ n = b % 2 ^ n) (hbit : a.testBit n = b.testBit n) :
    a % 2 ^ (n + 1) = b % 2 ^ (n + 1) := by
  apply Nat.eq_of_testBit_eq
  intro i
  have hi := congrArg (fun x => x.testBit i) h
  simp only [Nat.testBit_mod_two_pow] at hi ⊢
  by_cases hin : i < n
  · have hin' : i < n + 1 := by omega
    simpa [hin, hin'] using hi
  · by_cases he : i = n
    · subst he
      simp [hbit]
    · have hin' : ¬ i < n + 1 := by omega
      simp [hin']

end Genode.Lib
