import Genode.Lib.EndAroundCarry
import Mathlib.Algebra.Order.Ring.Nat
import Mathlib.Data.BitVec

/-!
# InternetChecksum — one's-complement sums of packet data

`net/internet_checksum.cc`. Data is added up in 16-bit words of the host,
as a signed 64-bit number. Folding that number adds what is above its
lower 16 bits to them; the shift that fetches it keeps the sign.
-/

namespace Genode.Net

open Genode.Lib

/-- The value of a `Packed_uint16`, on a little-endian host. -/
def packedUint16 (first second : BitVec 8) : BitVec 16 := second ++ first

/-! ## Folding -/

/-- The body of the loop in `fold_checksum_to_16_bits`. -/
def foldRound (sum : BitVec 64) : BitVec 64 := (sum &&& 0xffff) + sum.sshiftRight 16

/-- The loop in `fold_checksum_to_16_bits` turns a sum into another one and ends. -/
inductive Folds : BitVec 64 → BitVec 64 → Prop
  | done {sum : BitVec 64} : sum.sshiftRight 16 = 0 → Folds sum sum
  | round {sum result : BitVec 64} : sum.sshiftRight 16 ≠ 0 → Folds (foldRound sum) result →
      Folds sum result

theorem toInt_sshiftRight (sum : BitVec 64) : (sum.sshiftRight 16).toInt = sum.toInt / 65536 := by
  rw [BitVec.toInt_sshiftRight, Int.shiftRight_eq_div_pow]
  rfl

theorem toNat_low (sum : BitVec 64) : (sum &&& 0xffff).toNat = sum.toNat % 65536 := by
  rw [BitVec.toNat_and]
  exact Nat.and_two_pow_sub_one_eq_mod sum.toNat 16

theorem toInt_low (sum : BitVec 64) : (sum &&& 0xffff).toInt = sum.toInt % 65536 := by
  have hlow := BitVec.toInt_eq_toNat_cond (sum &&& 0xffff)
  have hsum := BitVec.toInt_eq_toNat_cond sum
  rw [toNat_low] at hlow
  split at hlow <;> split at hsum <;> omega

theorem toInt_foldRound (sum : BitVec 64) : (foldRound sum).toInt = foldOnce 65536 sum.toInt := by
  have hmin := BitVec.le_toInt sum
  have hmax := BitVec.toInt_lt (x := sum)
  unfold foldRound
  rw [BitVec.toInt_add, toInt_low, toInt_sshiftRight]
  unfold foldOnce
  rw [Int.bmod_eq_of_le] <;> omega

theorem sshiftRight_eq_zero_iff (sum : BitVec 64) :
    sum.sshiftRight 16 = 0 ↔ 0 ≤ sum.toInt ∧ sum.toInt < 65536 := by
  rw [← ediv_eq_zero_iff (by decide), ← toInt_sshiftRight, ← BitVec.toInt_inj]
  rfl

/-- `fold_checksum_to_16_bits`. -/
def foldChecksumTo16Bits (sum : BitVec 64) : BitVec 64 :=
  if sum.sshiftRight 16 = 0 then sum else foldChecksumTo16Bits (foldRound sum)
termination_by foldLeft 65536 sum.toInt
decreasing_by
  rename_i h
  rw [toInt_foldRound]
  apply foldLeft_lt (by decide)
  rw [← toInt_sshiftRight]
  intro hzero
  exact h (BitVec.eq_of_toInt_eq hzero)

/-- The loop ends for every sum. -/
theorem folds_foldChecksumTo16Bits (sum : BitVec 64) : Folds sum (foldChecksumTo16Bits sum) := by
  induction sum using foldChecksumTo16Bits.induct with
  | case1 sum h =>
    rw [foldChecksumTo16Bits, if_pos h]
    exact .done h
  | case2 sum h ih =>
    rw [foldChecksumTo16Bits, if_neg h]
    exact .round h ih

theorem foldChecksumTo16Bits_small {sum : BitVec 64} (h : 0 ≤ sum.toInt ∧ sum.toInt < 65536) :
    foldChecksumTo16Bits sum = sum := by
  rw [foldChecksumTo16Bits, if_pos ((sshiftRight_eq_zero_iff sum).mpr h)]

namespace Folds

variable {sum result : BitVec 64}

theorem range (h : Folds sum result) : 0 ≤ result.toInt ∧ result.toInt < 65536 := by
  induction h with
  | done h => exact (sshiftRight_eq_zero_iff _).mp h
  | round _ _ ih => exact ih

theorem modEq (h : Folds sum result) : result.toInt ≡ sum.toInt [ZMOD 0xffff] := by
  induction h with
  | done => exact Int.ModEq.refl _
  | round _ _ ih =>
    rw [toInt_foldRound] at ih
    exact ih.trans (foldOnce_modEq 65536 _)

/-- A sum above zero does not become zero. -/
theorem pos (h : Folds sum result) (hsum : 0 < sum.toInt) : 0 < result.toInt := by
  induction h with
  | done => exact hsum
  | round _ _ ih =>
    apply ih
    rw [toInt_foldRound]
    exact foldOnce_pos (by decide) hsum

end Folds

/-! ## Checksums -/

/-- The loop of `checksum_of_raw_data`, with the left-over byte. -/
def addUp : List (BitVec 8) → BitVec 64 → BitVec 64
  | first :: second :: rest, sum =>
    addUp rest (sum + (packedUint16 first second).setWidth 64)
  | [left], sum => sum + left.setWidth 64
  | [], sum => sum

def checksumOfRawData (data : List (BitVec 8)) (sum : BitVec 64) : BitVec 16 :=
  (~~~(foldChecksumTo16Bits (addUp data sum))).setWidth 16

def internetChecksum (data : List (BitVec 8)) : BitVec 16 := checksumOfRawData data 0

/-- `Internet_checksum_diff`. -/
structure InternetChecksumDiff where
  value : BitVec 64 := 0
  deriving DecidableEq, Repr

namespace InternetChecksumDiff

/-- The difference that `add_up_diff` adds up. The words are promoted to `int`. -/
def diffOf : List (BitVec 8) → List (BitVec 8) → BitVec 64 → BitVec 64
  | new₁ :: new₂ :: new, old₁ :: old₂ :: old, diff =>
    diffOf new old (diff + ((packedUint16 old₁ old₂).setWidth 32 -
      (packedUint16 new₁ new₂).setWidth 32).signExtend 64)
  | [new], [old], diff => diff + (old.setWidth 32 - new.setWidth 32).signExtend 64
  | _, _, diff => diff

/-- `add_up_diff` for data of one size. -/
def addUpDiff (icd : InternetChecksumDiff) (new old : List (BitVec 8)) : InternetChecksumDiff :=
  ⟨icd.value + diffOf new old 0⟩

def applyTo (icd : InternetChecksumDiff) (sum : BitVec 64) : BitVec 16 :=
  (foldChecksumTo16Bits (sum + icd.value)).setWidth 16

end InternetChecksumDiff

/-! ## Sums of words -/

/-- The words of the data added up. -/
def wordSum : List (BitVec 8) → Int
  | first :: second :: rest => (packedUint16 first second).toNat + wordSum rest
  | [left] => left.toNat
  | [] => 0

theorem wordSum_nonneg (data : List (BitVec 8)) : 0 ≤ wordSum data := by
  induction data using wordSum.induct with
  | case1 first second rest ih =>
    rw [wordSum]
    omega
  | case2 left => exact Int.natCast_nonneg _
  | case3 => exact le_refl _

theorem wordSum_le (data : List (BitVec 8)) : wordSum data ≤ 0xffff * data.length := by
  induction data using wordSum.induct with
  | case1 first second rest ih =>
    have hlt := (packedUint16 first second).isLt
    simp only [wordSum, List.length_cons, Nat.cast_add, Nat.cast_one]
    omega
  | case2 left =>
    have hlt := left.isLt
    simp only [wordSum, List.length_cons, List.length_nil]
    omega
  | case3 => exact le_refl _

theorem wordSum_append {data : List (BitVec 8)} (rest : List (BitVec 8))
    (h : data.length % 2 = 0) : wordSum (data ++ rest) = wordSum data + wordSum rest := by
  induction data using wordSum.induct with
  | case1 first second data ih =>
    simp only [List.length_cons] at h
    simp only [List.cons_append, wordSum]
    rw [ih (by omega), add_assoc]
  | case2 left => exact absurd h (by simp)
  | case3 => simp [wordSum]

theorem toNat_packedUint16 (first second : BitVec 8) :
    (packedUint16 first second).toNat = second.toNat * 256 + first.toNat := by
  unfold packedUint16
  rw [BitVec.toNat_append, ← Nat.shiftLeft_add_eq_or_of_lt first.isLt, Nat.shiftLeft_eq]

theorem byte_eq_zero_iff (b : BitVec 8) : b = 0 ↔ b.toNat = 0 := by
  rw [← BitVec.toNat_inj]
  rfl

/-- Only data that is all zero has the sum zero. -/
theorem wordSum_eq_zero_iff (data : List (BitVec 8)) : wordSum data = 0 ↔ ∀ b ∈ data, b = 0 := by
  induction data using wordSum.induct with
  | case1 first second rest ih =>
    have hrest := wordSum_nonneg rest
    rw [wordSum, List.forall_mem_cons, List.forall_mem_cons, ← ih, byte_eq_zero_iff,
      byte_eq_zero_iff, toNat_packedUint16]
    omega
  | case2 left =>
    rw [wordSum, List.forall_mem_singleton, byte_eq_zero_iff]
    omega
  | case3 => simp [wordSum]

theorem toInt_add_small {sum : BitVec 64} {w : Nat} (b : BitVec w) (hw : w ≤ 16)
    (hmin : 0 ≤ sum.toInt) (hmax : sum.toInt + b.toNat < 2 ^ 63) :
    (sum + b.setWidth 64).toInt = sum.toInt + b.toNat := by
  have hb : b.toNat < 2 ^ 16 :=
    Nat.lt_of_lt_of_le b.isLt (Nat.pow_le_pow_right (by decide) hw)
  have hnat : (sum + b.setWidth 64).toNat = (sum.toNat + b.toNat) % 2 ^ 64 := by
    rw [BitVec.toNat_add, BitVec.toNat_setWidth, Nat.mod_eq_of_lt (a := b.toNat) (by omega)]
  have hsum := BitVec.toInt_eq_toNat_cond sum
  have hres := BitVec.toInt_eq_toNat_cond (sum + b.setWidth 64)
  split at hsum <;> split at hres <;> omega

/-- The data is added up exactly, as long as the sum stays below 2^63. -/
theorem toInt_addUp {data : List (BitVec 8)} {sum : BitVec 64} (hmin : 0 ≤ sum.toInt)
    (hmax : sum.toInt + wordSum data < 2 ^ 63) :
    (addUp data sum).toInt = sum.toInt + wordSum data := by
  induction data using wordSum.induct generalizing sum with
  | case1 first second rest ih =>
    have hrest := wordSum_nonneg rest
    rw [wordSum] at hmax
    have hstep := toInt_add_small (packedUint16 first second) (by decide) hmin (by omega)
    rw [addUp, wordSum, ih (by omega) (by omega), hstep, add_assoc]
  | case2 left =>
    rw [wordSum] at hmax
    rw [addUp, wordSum, toInt_add_small left (by decide) hmin hmax]
  | case3 => rw [addUp, wordSum, add_zero]

/-- The one's complement of what a sum is folded to. -/
theorem toNat_checksumOfRawData (data : List (BitVec 8)) (sum : BitVec 64) :
    ((checksumOfRawData data sum).toNat : Int) =
      0xffff - (foldChecksumTo16Bits (addUp data sum)).toInt := by
  have hrange := (folds_foldChecksumTo16Bits (addUp data sum)).range
  have hfold := BitVec.toInt_eq_toNat_cond (foldChecksumTo16Bits (addUp data sum))
  have hnat : (checksumOfRawData data sum).toNat =
      (2 ^ 64 - 1 - (foldChecksumTo16Bits (addUp data sum)).toNat) % 2 ^ 16 := by
    unfold checksumOfRawData
    rw [BitVec.toNat_setWidth, BitVec.toNat_not]
  split at hfold <;> omega

theorem internetChecksum_modEq {data : List (BitVec 8)} (hmax : wordSum data < 2 ^ 63) :
    ((internetChecksum data).toNat : Int) ≡ - wordSum data [ZMOD 0xffff] := by
  have hsum : (addUp data 0).toInt = 0 + wordSum data := toInt_addUp (by decide) (by simpa)
  have hmod := (folds_foldChecksumTo16Bits (addUp data 0)).modEq
  rw [hsum, zero_add] at hmod
  unfold internetChecksum
  rw [toNat_checksumOfRawData]
  calc (0xffff : Int) - (foldChecksumTo16Bits (addUp data 0)).toInt
      ≡ 0 - (foldChecksumTo16Bits (addUp data 0)).toInt [ZMOD 0xffff] :=
        Int.ModEq.sub_right _ (by decide)
    _ ≡ 0 - wordSum data [ZMOD 0xffff] := Int.ModEq.sub_left 0 hmod
    _ = - wordSum data := zero_sub _

/-- The checksum over data that holds its checksum is zero exactly if the data is
not all zero and its sum is a multiple of 0xffff. -/
theorem internetChecksum_eq_zero_iff {data : List (BitVec 8)} (hmax : wordSum data < 2 ^ 63) :
    internetChecksum data = 0 ↔
      (∃ b ∈ data, b ≠ 0) ∧ wordSum data ≡ 0 [ZMOD 0xffff] := by
  have hsum : (addUp data 0).toInt = 0 + wordSum data := toInt_addUp (by decide) (by simpa)
  have hfolds := folds_foldChecksumTo16Bits (addUp data 0)
  have hrange := hfolds.range
  have hval : ((internetChecksum data).toNat : Int) =
      0xffff - (foldChecksumTo16Bits (addUp data 0)).toInt := toNat_checksumOfRawData data 0
  have hzero : (∃ b ∈ data, b ≠ 0) ↔ wordSum data ≠ 0 := by
    rw [ne_eq, wordSum_eq_zero_iff]
    simp
  have hmul : wordSum data ≡ 0 [ZMOD 0xffff] ↔
      (foldChecksumTo16Bits (addUp data 0)).toInt ≡ 0 [ZMOD 0xffff] := by
    have hmod := hfolds.modEq
    rw [hsum, zero_add] at hmod
    exact ⟨hmod.trans, hmod.symm.trans⟩
  rw [← BitVec.toNat_inj, hzero, hmul, Int.modEq_zero_iff_dvd]
  constructor
  · intro h
    have hfull : (foldChecksumTo16Bits (addUp data 0)).toInt = 0xffff := by
      rw [show (0 : BitVec 16).toNat = 0 from rfl] at h
      omega
    refine ⟨?_, by omega⟩
    intro hnone
    rw [foldChecksumTo16Bits_small (by omega)] at hfull
    omega
  · intro h
    have hpos := hfolds.pos (by have := wordSum_nonneg data; omega)
    rw [show (0 : BitVec 16).toNat = 0 from rfl]
    omega

/-! ## Differences of sums -/

namespace InternetChecksumDiff

/-- The difference of two words, in `int` and then in `long`. -/
theorem toInt_difference {w : Nat} (old new : BitVec w) (hw : w ≤ 16) :
    ((old.setWidth 32 - new.setWidth 32).signExtend 64).toInt = (old.toNat : Int) - new.toNat := by
  have hpow : (2 : Nat) ^ w ≤ 2 ^ 16 := Nat.pow_le_pow_right (by decide) hw
  have hold := old.isLt
  have hnew := new.isLt
  have hdiff := BitVec.toInt_eq_toNat_cond (old.setWidth 32 - new.setWidth 32)
  have hnat : (old.setWidth 32 - new.setWidth 32).toNat =
      (2 ^ 32 - new.toNat + old.toNat) % 2 ^ 32 := by
    rw [BitVec.toNat_sub, BitVec.toNat_setWidth, BitVec.toNat_setWidth,
      Nat.mod_eq_of_lt (a := new.toNat) (by omega), Nat.mod_eq_of_lt (a := old.toNat) (by omega)]
  rw [BitVec.toInt_signExtend_of_le (by decide)]
  split at hdiff <;> omega

theorem toInt_add_exact {a b : BitVec 64} (hmin : -2 ^ 63 ≤ a.toInt + b.toInt)
    (hmax : a.toInt + b.toInt < 2 ^ 63) : (a + b).toInt = a.toInt + b.toInt := by
  rw [BitVec.toInt_add, Int.bmod_eq_of_le] <;> omega

theorem toInt_add_difference {w : Nat} (diff : BitVec 64) (old new : BitVec w) (hw : w ≤ 16)
    (hmin : -2 ^ 63 + 0xffff ≤ diff.toInt) (hmax : diff.toInt + 0xffff < 2 ^ 63) :
    (diff + (old.setWidth 32 - new.setWidth 32).signExtend 64).toInt =
      diff.toInt + (old.toNat - new.toNat) := by
  have hpow : (2 : Nat) ^ w ≤ 2 ^ 16 := Nat.pow_le_pow_right (by decide) hw
  have hold := old.isLt
  have hnew := new.isLt
  rw [toInt_add_exact] <;> rw [toInt_difference old new hw] <;> omega

/-- The words' differences are added up exactly, within 64 bits. -/
theorem toInt_diffOf {new old : List (BitVec 8)} {diff : BitVec 64}
    (hlen : new.length = old.length)
    (hmin : -2 ^ 63 + 0xffff * new.length ≤ diff.toInt)
    (hmax : diff.toInt + 0xffff * new.length < 2 ^ 63) :
    (diffOf new old diff).toInt = diff.toInt + (wordSum old - wordSum new) := by
  induction new, old, diff using diffOf.induct with
  | case1 new₁ new₂ new old₁ old₂ old diff ih =>
    have hold := (packedUint16 old₁ old₂).isLt
    have hnew := (packedUint16 new₁ new₂).isLt
    simp only [List.length_cons] at hlen hmin hmax
    have hstep := toInt_add_difference diff (packedUint16 old₁ old₂)
      (packedUint16 new₁ new₂) (by decide) (by omega) (by omega)
    rw [diffOf, wordSum, wordSum, ih (by omega) (by omega) (by omega), hstep]
    omega
  | case2 new old diff =>
    simp only [List.length_cons, List.length_nil] at hmin hmax
    rw [diffOf, wordSum, wordSum, toInt_add_difference diff old new (by decide) (by omega) (by omega)]
  | case3 new old diff hpairs hbytes =>
    -- two lists of one length, with neither two bytes nor one left
    cases new with
    | nil =>
      obtain rfl : old = [] := List.length_eq_zero_iff.mp hlen.symm
      simp [diffOf, wordSum]
    | cons new₁ new =>
      cases old with
      | nil => cases hlen
      | cons old₁ old =>
        cases new with
        | nil =>
          obtain rfl : old = [] := List.length_eq_zero_iff.mp (by simpa using hlen.symm)
          exact (hbytes new₁ old₁ rfl rfl).elim
        | cons new₂ new =>
          cases old with
          | nil => cases hlen
          | cons old₂ old => exact (hpairs new₁ new₂ new old₁ old₂ old rfl rfl).elim

theorem toInt_addUpDiff {icd : InternetChecksumDiff} {new old : List (BitVec 8)}
    (hlen : new.length = old.length) (hmin : -2 ^ 62 ≤ icd.value.toInt)
    (hmax : icd.value.toInt < 2 ^ 62) (hsize : 0xffff * (new.length : Int) < 2 ^ 62) :
    (icd.addUpDiff new old).value.toInt = icd.value.toInt + (wordSum old - wordSum new) := by
  have hold := wordSum_nonneg old
  have hold' := wordSum_le old
  have hnew := wordSum_nonneg new
  have hnew' := wordSum_le new
  have hdiff : (diffOf new old 0).toInt = 0 + (wordSum old - wordSum new) := by
    have hzero : (0 : BitVec 64).toInt = 0 := rfl
    exact toInt_diffOf hlen (by omega) (by omega)
  unfold addUpDiff
  rw [toInt_add_exact] <;> rw [hdiff] <;> omega

/-- The modified checksum, up to the two zeros of one's complement. -/
theorem applyTo_modEq {icd : InternetChecksumDiff} (sum : BitVec 16)
    (hmin : -2 ^ 63 ≤ icd.value.toInt) (hmax : icd.value.toInt + 0xffff < 2 ^ 63) :
    ((icd.applyTo (sum.setWidth 64)).toNat : Int) ≡ sum.toNat + icd.value.toInt
      [ZMOD 0xffff] := by
  have hlt := sum.isLt
  have hsum : (sum.setWidth 64 + icd.value).toInt = sum.toNat + icd.value.toInt := by
    have hwide : (sum.setWidth 64).toInt = sum.toNat := by
      rw [BitVec.toInt_setWidth, Int.bmod_eq_of_le] <;> omega
    rw [toInt_add_exact] <;> rw [hwide] <;> omega
  have hfolds := folds_foldChecksumTo16Bits (sum.setWidth 64 + icd.value)
  have hrange := hfolds.range
  have hmod := hfolds.modEq
  have hresult := BitVec.toInt_eq_toNat_cond (foldChecksumTo16Bits (sum.setWidth 64 + icd.value))
  have hnat : ((icd.applyTo (sum.setWidth 64)).toNat : Int) =
      (foldChecksumTo16Bits (sum.setWidth 64 + icd.value)).toInt := by
    unfold applyTo
    rw [BitVec.toNat_setWidth]
    split at hresult <;> omega
  rw [hnat, ← hsum]
  exact hmod

end InternetChecksumDiff

end Genode.Net
