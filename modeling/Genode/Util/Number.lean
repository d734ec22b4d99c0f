import Mathlib.Data.BitVec
import Mathlib.Data.Nat.Digits.Defs
import Genode.Lib.Reach
import Genode.Util.Token

/-!
# Number — numbers as text

`ascii_to` of `util/string.h` and the output functions of
`base/internal/output.h`. Both numbers of bytes and numbers of type
`long` have 64 bits here. Arithmetic wraps around in unsigned types only:
in signed ones an overflow is undefined, and the code is built without
`-fwrapv`. A computation that overflows has no result. A text ends with a
zero, or at the end of the list.
-/

namespace Genode.Util

open Lib Ascii

/-! ## Arithmetic -/

/-- The types of the numbers that are printed and read. -/
inductive NumberType where
  | long
  | unsignedLong
  deriving DecidableEq

namespace NumberType

/-- The number that the bits stand for. -/
def value (T : NumberType) (v : BitVec 64) : Int :=
  match T with
  | long => v.toInt
  | unsignedLong => v.toNat

/-- The result of an operation, undefined for an overflow of a signed type. -/
def result (T : NumberType) (n : Int) : Option (BitVec 64) :=
  match T with
  | long => if -2 ^ 63 ≤ n ∧ n < 2 ^ 63 then some (BitVec.ofInt 64 n) else none
  | unsignedLong => some (BitVec.ofInt 64 n)

/-- All numbers below it have the type. -/
def bound : NumberType → Nat
  | long => 2 ^ 63
  | unsignedLong => 2 ^ 64

variable {T : NumberType} {n : Nat}

theorem result_of_lt (h : n < T.bound) : T.result n = some (BitVec.ofNat 64 n) := by
  cases T with
  | long =>
    have hlt : n < 2 ^ 63 := h
    rw [result, if_pos (by omega), BitVec.ofInt_natCast]
  | unsignedLong => rw [result, BitVec.ofInt_natCast]

theorem value_ofNat (h : n < T.bound) : T.value (BitVec.ofNat 64 n) = n := by
  cases T with
  | long =>
    have hlt : n < 2 ^ 63 := h
    have hn : (BitVec.ofNat 64 n).toNat = n := Nat.mod_eq_of_lt (by omega)
    rw [value, BitVec.toInt_eq_toNat_of_lt (by omega), hn]
  | unsignedLong =>
    have hlt : n < 2 ^ 64 := h
    rw [value, BitVec.toNat_ofNat, Nat.mod_eq_of_lt hlt]

end NumberType

/-! ## Output -/

/-- `ascii`. -/
def asciiDigit (digit : Nat) : UInt8 :=
  if 9 < digit then UInt8.ofNat (digit + 0x61 - 10) else UInt8.ofNat (digit + 0x30)

/-- The loop that fills the buffer, the least significant digit first. -/
def digitLoop (base : Nat) : Nat → Nat → List UInt8
  | 0, _ => []
  | n + 1, value =>
    if 0 < value then asciiDigit (value % base) :: digitLoop base n (value / base) else []

/-- `out_unsigned`. -/
def outUnsigned (value : BitVec 64) (base pad : Nat) : List UInt8 :=
  let buf := if value = 0 then [asciiDigit 0] else digitLoop base 64 value.toNat
  List.replicate (pad - buf.length) (asciiDigit 0) ++ buf.reverse

def minus : UInt8 := 0x2d

def plus : UInt8 := 0x2b

/-- The absolute value in `out_signed`, for a number of type `long`. -/
def absolute (value : BitVec 64) : Option (BitVec 64) :=
  if value.slt 0 then NumberType.long.result (-value.toInt) else some value

/-- `out_signed`. -/
def outSigned (value : BitVec 64) (base : Nat) : Option (List UInt8) := do
  let neg := value.slt 0
  let value ← absolute value
  let buf := if value = 0 then [asciiDigit 0] else digitLoop base 64 value.toInt.toNat
  some ((if neg then [minus] else []) ++ buf.reverse)

/-- `print` of a number of type `long`. -/
def printLong (value : BitVec 64) : Option (List UInt8) := outSigned value 10

/-- `print` of a number of type `unsigned long`. -/
def printUnsignedLong (value : BitVec 64) : List UInt8 := outUnsigned value 10 0

/-- `Number_of_bytes::print`. -/
def printNumberOfBytes (n : BitVec 64) : Option (List UInt8) :=
  let kb : BitVec 64 := 1024
  let mb := kb * 1024
  let gb := mb * 1024
  if n = 0 then printLong 0
  else if n % gb = 0 then some (printUnsignedLong (n / gb) ++ bytes ['G'])
  else if n % mb = 0 then some (printUnsignedLong (n / mb) ++ bytes ['M'])
  else if n % kb = 0 then some (printUnsignedLong (n / kb) ++ bytes ['K'])
  else some (printUnsignedLong n)

/-! ## Input -/

/-- `digit`. -/
def digit (c : UInt8) (hex : Bool) : Option Nat :=
  if 0x30 ≤ c ∧ c ≤ 0x39 then some (c.toNat - 0x30)
  else if hex ∧ 0x61 ≤ c ∧ c ≤ 0x66 then some (c.toNat - 0x61 + 10)
  else if hex ∧ 0x41 ≤ c ∧ c ≤ 0x46 then some (c.toNat - 0x41 + 10)
  else none

/-- The loop of `ascii_to_unsigned`: the value and the number of digits. -/
def readDigits (T : NumberType) (base : Nat) : List UInt8 → BitVec 64 → Option (BitVec 64 × Nat)
  | [], value => some (value, 0)
  | c :: s, value =>
    match digit c (base = 16) with
    | none => some (value, 0)
    | some d => do
      let value ← T.result (T.value value * base + d)
      let r ← readDigits T base s value
      some (r.1, r.2 + 1)

/-- `ascii_to_unsigned`: the number of consumed characters and the
result, which stays as it is if there are none. -/
def asciiToUnsigned (T : NumberType) (s : List UInt8) (result : BitVec 64) (base : Nat) :
    Option (Nat × BitVec 64) :=
  if charAt s 0 = 0 then some (0, result)
  else do
    let hex := base = 0 ∧ charAt s 0 = 0x30 ∧ (charAt s 1 = 0x78 ∨ charAt s 1 = 0x58)
    let i := if hex then 2 else 0
    let base := if hex then 16 else if base = 0 then 10 else base
    let r ← readDigits T base (s.drop i) 0
    some (i + r.2, r.1)

/-- `ascii_to_signed` of a number of type `long`. -/
def asciiToSigned (s : List UInt8) (result : BitVec 64) : Option (Nat × BitVec 64) := do
  let sign : Int := if charAt s 0 = minus then -1 else 1
  let i := if charAt s 0 = minus ∨ charAt s 0 = plus then 1 else 0
  let r ← asciiToUnsigned .long (s.drop i) 0 0
  if r.1 = 0 then some (i, result)
  else
    let value ← NumberType.long.result (sign * r.2.toInt)
    some (i + r.1, value)

/-- `ascii_to` of a number of bytes. -/
def asciiToNumberOfBytes (s : List UInt8) : Option (Nat × BitVec 64) := do
  let r ← asciiToUnsigned .unsignedLong s 0 0
  let c := charAt s r.1
  if r.1 = 0 then some r
  else if c = 0x47 then some (r.1 + 1, r.2 * (1024 * 1024 * 1024))
  else if c = 0x4d then some (r.1 + 1, r.2 * (1024 * 1024))
  else if c = 0x4b then some (r.1 + 1, r.2 * 1024)
  else some r

/-! ## Digits -/

/-- The text of the digits of a number, the most significant one first. -/
def decimal (n : Nat) : List UInt8 := (Nat.digits 10 n).reverse.map asciiDigit

theorem digitLoop_eq {fuel n : Nat} (h : n < 2 ^ fuel) :
    digitLoop 10 fuel n = (Nat.digits 10 n).map asciiDigit := by
  induction fuel generalizing n with
  | zero =>
    obtain rfl : n = 0 := by simpa using h
    rfl
  | succ fuel ih =>
    by_cases hn : 0 < n
    · have hlt : n / 10 < 2 ^ fuel := by
        rw [Nat.pow_succ] at h
        omega
      rw [digitLoop, if_pos hn, Nat.digits_def' (by simp) hn, List.map_cons, ih hlt]
    · obtain rfl : n = 0 := by omega
      rfl

theorem digit_asciiDigit {d : Nat} (hd : d < 10) : digit (asciiDigit d) false = some d := by
  have hall : ∀ d < 10, digit (asciiDigit d) false = some d := by decide
  exact hall d hd

theorem asciiDigit_ne {d : Nat} (hd : d < 10) : asciiDigit d ≠ 0 ∧ asciiDigit d ≠ minus ∧
    asciiDigit d ≠ plus ∧ asciiDigit d ≠ 0x78 ∧ asciiDigit d ≠ 0x58 := by
  have hall : ∀ d < 10, asciiDigit d ≠ 0 ∧ asciiDigit d ≠ minus ∧ asciiDigit d ≠ plus ∧
    asciiDigit d ≠ 0x78 ∧ asciiDigit d ≠ 0x58 := by decide
  exact hall d hd

/-- What may follow the digits of a number that is read. -/
structure EndsNumber (rest : List UInt8) : Prop where
  digit : digit (charAt rest 0) false = none
  lower : charAt rest 0 ≠ 0x78
  upper : charAt rest 0 ≠ 0x58

section Digits

variable {T : NumberType} {ds : List Nat} {rest : List UInt8} {n : Nat}

/-- A number with one more digit. -/
def appendDigit (value d : Nat) : Nat := value * 10 + d

theorem le_foldl_appendDigit (value : Nat) : value ≤ ds.foldl appendDigit value := by
  induction ds generalizing value with
  | nil => exact le_rfl
  | cons d ds ih =>
    have hle : value ≤ appendDigit value d := by
      unfold appendDigit
      omega
    exact hle.trans (ih _)

theorem foldl_digits (L : List Nat) : L.reverse.foldl appendDigit 0 = Nat.ofDigits 10 L := by
  induction L with
  | nil => rfl
  | cons d L ih =>
    rw [List.reverse_cons, List.foldl_append, ih, List.foldl_cons, List.foldl_nil,
      Nat.ofDigits_cons, appendDigit, Nat.mul_comm, Nat.add_comm]

theorem readDigits_stop (hr : digit (charAt rest 0) false = none) (value : BitVec 64) :
    readDigits T 10 rest value = some (value, 0) := by
  cases rest with
  | nil => rfl
  | cons c s =>
    rw [charAt_cons_zero] at hr
    simp [readDigits, hr]

/-- The digits of a number of the type are read without an overflow on the way. -/
theorem readDigits_map (hds : ∀ d ∈ ds, d < 10) (hr : digit (charAt rest 0) false = none)
    {value : Nat} (hvalue : ds.foldl appendDigit value < T.bound) :
    readDigits T 10 (ds.map asciiDigit ++ rest) (BitVec.ofNat 64 value) =
      some (BitVec.ofNat 64 (ds.foldl appendDigit value), ds.length) := by
  induction ds generalizing value with
  | nil => exact readDigits_stop hr _
  | cons d ds ih =>
    have hd : d < 10 := hds d (by simp)
    have hrest : ∀ d ∈ ds, d < 10 := fun e he => hds e (by simp [he])
    rw [List.foldl_cons] at hvalue ⊢
    have hnext : appendDigit value d < T.bound :=
      (le_foldl_appendDigit _).trans_lt hvalue
    have hle : value ≤ appendDigit value d := by
      unfold appendDigit
      omega
    have hstep : T.result (T.value (BitVec.ofNat 64 value) * (10 : Nat) + d) =
        some (BitVec.ofNat 64 (appendDigit value d)) := by
      rw [NumberType.value_ofNat (hle.trans_lt hnext)]
      exact NumberType.result_of_lt hnext
    rw [List.map_cons, List.cons_append, readDigits, decide_eq_false (by simp),
      digit_asciiDigit hd]
    dsimp only
    rw [hstep, Option.bind_eq_bind, Option.bind_some, ih hrest hvalue]
    rfl

theorem length_decimal : (decimal n).length = (Nat.digits 10 n).length := by simp [decimal]

/-- The digits of a number are read back. -/
theorem asciiToUnsigned_decimal (hn : 0 < n) (hbound : n < T.bound) (hr : EndsNumber rest)
    (result : BitVec 64) : asciiToUnsigned T (decimal n ++ rest) result 0 =
      some ((decimal n).length, BitVec.ofNat 64 n) := by
  have hlt : ∀ d ∈ (Nat.digits 10 n).reverse, d < 10 := fun d hd =>
    Nat.digits_lt_base (by simp) (List.mem_reverse.mp hd)
  have hvalue : (Nat.digits 10 n).reverse.foldl appendDigit 0 = n := by
    rw [foldl_digits, Nat.ofDigits_digits]
  have hread : readDigits T 10 (decimal n ++ rest) 0#64 =
      some (BitVec.ofNat 64 n, (decimal n).length) := by
    have hsmall : (Nat.digits 10 n).reverse.foldl appendDigit 0 < T.bound := by rwa [hvalue]
    have hmap := readDigits_map (T := T) hlt hr.digit hsmall
    rwa [hvalue, ← List.length_map] at hmap
  obtain ⟨d, ds, hds⟩ : ∃ d ds, (Nat.digits 10 n).reverse = d :: ds := by
    apply List.exists_cons_of_ne_nil
    simp [Nat.digits_ne_nil_iff_ne_zero, Nat.pos_iff_ne_zero.mp hn]
  rw [hds] at hlt
  have hfirst : charAt (decimal n ++ rest) 0 = asciiDigit d := by simp [decimal, hds]
  -- the second character is a digit, too, or what follows the number
  have hsecond : charAt (decimal n ++ rest) 1 ≠ 0x78 ∧ charAt (decimal n ++ rest) 1 ≠ 0x58 := by
    cases ds with
    | nil => simpa [decimal, hds] using ⟨hr.lower, hr.upper⟩
    | cons e ds =>
      have he := asciiDigit_ne (hlt e (by simp))
      simpa [decimal, hds] using ⟨he.2.2.2.1, he.2.2.2.2⟩
  have hd := asciiDigit_ne (hlt d (by simp))
  rw [asciiToUnsigned, hfirst, if_neg hd.1]
  simp [hsecond, hread]

end Digits

/-! ## Round trips -/

variable {n v : BitVec 64}

theorem printUnsignedLong_eq (hn : n ≠ 0) : printUnsignedLong n = decimal n.toNat := by
  rw [printUnsignedLong, outUnsigned, if_neg hn, digitLoop_eq n.isLt]
  simp [decimal]

theorem printLong_zero : printLong 0 = some (bytes ['0']) := by decide

/-- The number in front of a suffix. -/
theorem asciiToNumberOfBytes_suffix {k m : Nat} {c : Char} (hk : 0 < k) (hn : n.toNat = k * m)
    (hc : c.toUInt8 = 0x47 ∧ m = 2 ^ 30 ∨ c.toUInt8 = 0x4d ∧ m = 2 ^ 20 ∨
      c.toUInt8 = 0x4b ∧ m = 2 ^ 10) :
    asciiToNumberOfBytes (decimal k ++ bytes [c]) =
      some ((decimal k ++ bytes [c]).length, n) := by
  have hends : EndsNumber (bytes [c]) := by
    rcases hc with ⟨hc, -⟩ | ⟨hc, -⟩ | ⟨hc, -⟩ <;> constructor <;> simp [bytes, hc, digit]
  have hm : 0 < m := by
    rcases hc with ⟨-, rfl⟩ | ⟨-, rfl⟩ | ⟨-, rfl⟩ <;> norm_num
  have hbound : k < 2 ^ 64 := calc
    k ≤ k * m := Nat.le_mul_of_pos_right k hm
    _ = n.toNat := hn.symm
    _ < 2 ^ 64 := n.isLt
  have hlen : (decimal k).length ≠ 0 := by
    simp [length_decimal, Nat.digits_eq_nil_iff_eq_zero, Nat.pos_iff_ne_zero.mp hk]
  have hnext : charAt (decimal k ++ bytes [c]) (decimal k).length = c.toUInt8 := by
    rw [charAt_append_right le_rfl, Nat.sub_self]
    rfl
  have hvalue : BitVec.ofNat 64 k * BitVec.ofNat 64 m = n := by
    apply BitVec.eq_of_toNat_eq
    rw [BitVec.toNat_mul, BitVec.toNat_ofNat, BitVec.toNat_ofNat, ← Nat.mul_mod, ← hn,
      Nat.mod_eq_of_lt n.isLt]
  rw [asciiToNumberOfBytes, asciiToUnsigned_decimal (T := .unsignedLong) hk hbound hends]
  dsimp only [Option.bind_eq_bind, Option.bind_some]
  rw [if_neg hlen, hnext]
  rcases hc with ⟨hc, rfl⟩ | ⟨hc, rfl⟩ | ⟨hc, rfl⟩
  · simpa [hc, bytes] using hvalue
  · simpa [hc, bytes] using hvalue
  · simpa [hc, bytes] using hvalue

theorem asciiToNumberOfBytes_decimal (hn : n ≠ 0) :
    asciiToNumberOfBytes (decimal n.toNat) = some ((decimal n.toNat).length, n) := by
  have hpos : 0 < n.toNat := Nat.pos_of_ne_zero fun h => hn (BitVec.eq_of_toNat_eq h)
  have hread := asciiToUnsigned_decimal (T := .unsignedLong) hpos n.isLt
    (show EndsNumber [] from ⟨rfl, by simp, by simp⟩) 0
  rw [List.append_nil] at hread
  rw [asciiToNumberOfBytes, hread]
  simp [charAt_of_le]

/-- The quotient by a unit that divides the number. -/
theorem udiv_of_umod {unit : BitVec 64} (hn : n ≠ 0) (h : n % unit = 0) :
    n / unit ≠ 0 ∧ 0 < (n / unit).toNat ∧ n.toNat = (n / unit).toNat * unit.toNat := by
  have hmod : n.toNat % unit.toNat = 0 := by
    have := congrArg BitVec.toNat h
    rwa [BitVec.toNat_umod] at this
  have hdvd : (n / unit).toNat * unit.toNat = n.toNat := by
    rw [BitVec.toNat_udiv]
    exact Nat.div_mul_cancel (Nat.dvd_of_mod_eq_zero hmod)
  have hne : n / unit ≠ 0 := by
    intro h0
    rw [h0] at hdvd
    apply hn
    apply BitVec.eq_of_toNat_eq
    simpa using hdvd.symm
  exact ⟨hne, Nat.pos_of_ne_zero fun h0 => hne (BitVec.eq_of_toNat_eq h0), hdvd.symm⟩

/-- A number of bytes is read back from what is printed. -/
theorem asciiToNumberOfBytes_print (n : BitVec 64) : ∃ text, printNumberOfBytes n = some text ∧
    asciiToNumberOfBytes text = some (text.length, n) := by
  unfold printNumberOfBytes
  by_cases hn : n = 0
  · rw [if_pos hn, hn]
    exact ⟨bytes ['0'], printLong_zero, by decide⟩
  rw [if_neg hn]
  by_cases hg : n % (1024 * 1024 * 1024) = 0
  · obtain ⟨hne, hpos, heq⟩ := udiv_of_umod hn hg
    rw [if_pos hg, printUnsignedLong_eq hne]
    exact ⟨_, rfl, asciiToNumberOfBytes_suffix hpos heq (.inl ⟨rfl, rfl⟩)⟩
  rw [if_neg hg]
  by_cases hm : n % (1024 * 1024) = 0
  · obtain ⟨hne, hpos, heq⟩ := udiv_of_umod hn hm
    rw [if_pos hm, printUnsignedLong_eq hne]
    exact ⟨_, rfl, asciiToNumberOfBytes_suffix hpos heq (.inr (.inl ⟨rfl, rfl⟩))⟩
  rw [if_neg hm]
  by_cases hk : n % 1024 = 0
  · obtain ⟨hne, hpos, heq⟩ := udiv_of_umod hn hk
    rw [if_pos hk, printUnsignedLong_eq hne]
    exact ⟨_, rfl, asciiToNumberOfBytes_suffix hpos heq (.inr (.inr ⟨rfl, rfl⟩))⟩
  rw [if_neg hk, printUnsignedLong_eq hn]
  exact ⟨_, rfl, asciiToNumberOfBytes_decimal hn⟩

/-- The smallest number of type `long`, whose negation overflows. -/
def longMin : BitVec 64 := BitVec.intMin 64

theorem toInt_bounds (hmin : v ≠ longMin) : -2 ^ 63 < v.toInt ∧ v.toInt < 2 ^ 63 := by
  have hle : -2 ^ 63 ≤ v.toInt := BitVec.le_toInt v
  have hlt : v.toInt < 2 ^ 63 := BitVec.toInt_lt
  have hne : v.toInt ≠ -2 ^ 63 := fun h => hmin (BitVec.eq_of_toInt_eq h)
  omega

theorem absolute_eq (hmin : v ≠ longMin) :
    absolute v = some (BitVec.ofNat 64 v.toInt.natAbs) := by
  unfold absolute
  obtain ⟨hlow, hhigh⟩ := toInt_bounds hmin
  have hslt : v.slt 0 = decide (v.toInt < 0) := rfl
  by_cases hneg : v.toInt < 0
  · rw [hslt, decide_eq_true hneg, if_pos rfl]
    have habs : -v.toInt = (v.toInt.natAbs : Int) := by omega
    rw [habs]
    apply NumberType.result_of_lt
    show _ < 2 ^ 63
    omega
  · rw [hslt, decide_eq_false hneg, if_neg Bool.false_ne_true, ← BitVec.ofInt_natCast]
    have habs : (v.toInt.natAbs : Int) = v.toInt := by omega
    rw [habs, BitVec.ofInt_toInt]

theorem printLong_eq (hv : v ≠ 0) (hmin : v ≠ longMin) :
    printLong v = some ((if v.slt 0 then [minus] else []) ++ decimal v.toInt.natAbs) := by
  obtain ⟨hlow, hhigh⟩ := toInt_bounds hmin
  have hne : v.toInt ≠ 0 := fun h => hv (BitVec.eq_of_toInt_eq h)
  have hlt : v.toInt.natAbs < 2 ^ 63 := by omega
  have hvalue := NumberType.value_ofNat (T := .long) hlt
  have habs : BitVec.ofNat 64 v.toInt.natAbs ≠ 0 := by
    intro h
    rw [h] at hvalue
    have : (0 : Int) = v.toInt.natAbs := hvalue
    omega
  have hnat : (BitVec.ofNat 64 v.toInt.natAbs).toInt.toNat = v.toInt.natAbs :=
    congrArg Int.toNat hvalue
  rw [printLong, outSigned, absolute_eq hmin]
  simp only [Option.bind_eq_bind, Option.bind_some, habs, if_false, hnat]
  rw [digitLoop_eq (by omega), decimal, List.map_reverse]

/-- A text that is read as a number is also read with a sign. -/
theorem asciiToSigned_of_unsigned {text : List UInt8} {a : Nat} (ha : a < 2 ^ 63)
    (hread : asciiToUnsigned .long text 0 0 = some (text.length, BitVec.ofNat 64 a))
    (hlen : text.length ≠ 0) (hminus : charAt text 0 ≠ minus) (hplus : charAt text 0 ≠ plus)
    (result : BitVec 64) :
    asciiToSigned text result = some (text.length, BitVec.ofInt 64 a) ∧
      asciiToSigned (minus :: text) result = some (text.length + 1, BitVec.ofInt 64 (-a)) := by
  have hvalue : (BitVec.ofNat 64 a).toInt = a := NumberType.value_ofNat (T := .long) ha
  have hpos : NumberType.long.result (1 * a) = some (BitVec.ofInt 64 a) := by
    rw [one_mul, NumberType.result, if_pos (by omega)]
  have hneg : NumberType.long.result (-1 * a) = some (BitVec.ofInt 64 (-a)) := by
    rw [neg_one_mul, NumberType.result, if_pos (by omega)]
  constructor
  · rw [asciiToSigned]
    simp only [hminus, hplus, or_self, if_false, List.drop_zero, hread, Option.bind_eq_bind,
      Option.bind_some, hlen, hvalue, hpos, Nat.zero_add]
  · rw [asciiToSigned]
    simp only [charAt_cons_zero, true_or, if_true, List.drop_succ_cons, List.drop_zero, hread,
      Option.bind_eq_bind, Option.bind_some, hlen, if_false, hvalue, hneg, Nat.add_comm 1]

theorem asciiToSigned_print (hv : v ≠ 0) (hmin : v ≠ longMin) : ∃ text,
    printLong v = some text ∧ ∀ result, asciiToSigned text result = some (text.length, v) := by
  obtain ⟨hlow, hhigh⟩ := toInt_bounds hmin
  have hne : v.toInt ≠ 0 := fun h => hv (BitVec.eq_of_toInt_eq h)
  have hpos : 0 < v.toInt.natAbs := by omega
  have hlt : v.toInt.natAbs < 2 ^ 63 := by omega
  have hread := asciiToUnsigned_decimal (T := .long) hpos hlt
    (show EndsNumber [] from ⟨rfl, by simp, by simp⟩) 0
  rw [List.append_nil] at hread
  obtain ⟨d, ds, hds⟩ : ∃ d ds, (Nat.digits 10 v.toInt.natAbs).reverse = d :: ds := by
    apply List.exists_cons_of_ne_nil
    simp [hne]
  have hd : d < 10 := Nat.digits_lt_base (b := 10) (by simp)
    (List.mem_reverse.mp (hds ▸ List.mem_cons_self))
  have hfirst : charAt (decimal v.toInt.natAbs) 0 = asciiDigit d := by simp [decimal, hds]
  have hlen : (decimal v.toInt.natAbs).length ≠ 0 := by simp [decimal, hds]
  obtain ⟨-, hminus, hplus, -⟩ := asciiDigit_ne hd
  have hsigned := asciiToSigned_of_unsigned hlt hread hlen (hfirst ▸ hminus) (hfirst ▸ hplus)
  refine ⟨_, printLong_eq hv hmin, fun result => ?_⟩
  have hslt : v.slt 0 = decide (v.toInt < 0) := rfl
  by_cases hneg : v.toInt < 0
  · have habs : -(v.toInt.natAbs : Int) = v.toInt := by omega
    have h := (hsigned result).2
    rw [habs, BitVec.ofInt_toInt] at h
    rw [hslt, decide_eq_true hneg]
    exact h
  · have habs : (v.toInt.natAbs : Int) = v.toInt := by omega
    have h := (hsigned result).1
    rw [habs, BitVec.ofInt_toInt] at h
    rw [hslt, decide_eq_false hneg]
    exact h

theorem printLong_none : printLong longMin = none := by decide

/-- Of a number of type `long`, all but the smallest one are read back. -/
theorem asciiToSigned_print_iff (v : BitVec 64) :
    (∃ text, printLong v = some text ∧
      ∀ result, asciiToSigned text result = some (text.length, v)) ↔ v ≠ longMin := by
  constructor
  · intro h hv
    obtain ⟨text, htext, -⟩ := h
    rw [hv, printLong_none] at htext
    cases htext
  · intro hmin
    by_cases hv : v = 0
    · have hread : asciiToUnsigned .long (bytes ['0']) 0 0 =
          some ((bytes ['0']).length, BitVec.ofNat 64 0) := by decide
      have hsigned := asciiToSigned_of_unsigned (by simp) hread (by simp [bytes]) (by decide)
        (by decide)
      rw [hv]
      exact ⟨bytes ['0'], printLong_zero, fun result => (hsigned result).1⟩
    · exact asciiToSigned_print hv hmin

/-- What is printed is read back, for all numbers of bytes, and for all
numbers of type `long` except for the smallest one. -/
theorem print_read_iff (n v : BitVec 64) :
    (∃ text, printNumberOfBytes n = some text ∧
      asciiToNumberOfBytes text = some (text.length, n)) ∧
    ((∃ text, printLong v = some text ∧
      ∀ result, asciiToSigned text result = some (text.length, v)) ↔ v ≠ longMin) :=
  ⟨asciiToNumberOfBytes_print n, asciiToSigned_print_iff v⟩

/-- The negation of the smallest number overflows, so that what is printed is not defined. -/
theorem printLong_longMin : printLong longMin = none ∧ ¬ ∃ text, printLong longMin = some text ∧
    ∀ result, asciiToSigned text result = some (text.length, longMin) := by
  refine ⟨printLong_none, ?_⟩
  rw [printLong_none]
  simp

end Genode.Util
