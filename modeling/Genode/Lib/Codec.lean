import Mathlib.Algebra.Order.Ring.Nat
import Mathlib.Data.List.OfFn

/-!
# Codec — fixed-size records as bytes

A codec writes a value as a fixed number of bytes and reads it back from
the front of a longer sequence. Codecs are put together the way records
are: one field after the other, padding in between, arrays of records.
The round trip comes with each codec, so a record format needs no proof
of its own.
-/

namespace Genode.Lib

/-- How the values of `α` are stored: `decode` reads from the front of a
sequence, `accepts` tells whether it may do so. -/
structure Codec (α : Type) where
  size : Nat
  encode : α → List UInt8
  decode : List UInt8 → α
  accepts : List UInt8 → Bool
  length_encode : ∀ a, (encode a).length = size
  decode_encode : ∀ a rest, decode (encode a ++ rest) = a
  accepts_encode : ∀ a rest, accepts (encode a ++ rest) = true

/-- The lower `n` bytes of a number, least significant first. -/
def toBytes : Nat → Nat → List UInt8
  | 0, _ => []
  | n + 1, x => UInt8.ofNat x :: toBytes n (x / 256)

def ofBytes : List UInt8 → Nat
  | [] => 0
  | b :: bs => b.toNat + 256 * ofBytes bs

theorem length_toBytes (n x : Nat) : (toBytes n x).length = n := by
  induction n generalizing x with
  | zero => rfl
  | succ n ih => rw [toBytes, List.length_cons, ih]

theorem ofBytes_toBytes (n x : Nat) (h : x < 256 ^ n) : ofBytes (toBytes n x) = x := by
  induction n generalizing x with
  | zero =>
    have hx : x = 0 := by simpa using h
    rw [hx]
    rfl
  | succ n ih =>
    have hdiv : x / 256 < 256 ^ n := by
      apply Nat.div_lt_of_lt_mul
      rwa [Nat.pow_succ, Nat.mul_comm] at h
    rw [toBytes, ofBytes, ih _ hdiv, UInt8.toNat_ofNat']
    omega

theorem ofBytes_lt (l : List UInt8) : ofBytes l < 256 ^ l.length := by
  induction l with
  | nil => exact Nat.one_pos
  | cons b l ih =>
    have hb := b.toNat_lt
    rw [ofBytes, List.length_cons, Nat.pow_succ]
    omega

theorem toBytes_ofBytes (l : List UInt8) : toBytes l.length (ofBytes l) = l := by
  induction l with
  | nil => rfl
  | cons b l ih =>
    have hb := b.toNat_lt
    have hmod : UInt8.ofNat (b.toNat + 256 * ofBytes l) = b := by
      rw [← UInt8.toNat_inj, UInt8.toNat_ofNat']
      omega
    have hdiv : (b.toNat + 256 * ofBytes l) / 256 = ofBytes l := by omega
    rw [List.length_cons, ofBytes, toBytes, hmod, hdiv, ih]

theorem take_toBytes_append (n x : Nat) (rest : List UInt8) :
    (toBytes n x ++ rest).take n = toBytes n x := by
  rw [List.take_append_of_le_length (length_toBytes n x).ge,
    List.take_of_length_le (length_toBytes n x).le]

namespace Codec

variable {α β : Type}

/-- Little-endian 64-bit words. -/
def word64 : Codec UInt64 where
  size := 8
  encode x := toBytes 8 x.toNat
  decode l := UInt64.ofNat (ofBytes (l.take 8))
  accepts _ := true
  length_encode _ := length_toBytes _ _
  decode_encode x rest := by
    rw [take_toBytes_append, ofBytes_toBytes 8 _ x.toNat_lt, UInt64.ofNat_toNat]
  accepts_encode _ _ := rfl

/-- Little-endian 32-bit words. -/
def word32 : Codec UInt32 where
  size := 4
  encode x := toBytes 4 x.toNat
  decode l := UInt32.ofNat (ofBytes (l.take 4))
  accepts _ := true
  length_encode _ := length_toBytes _ _
  decode_encode x rest := by
    rw [take_toBytes_append, ofBytes_toBytes 4 _ x.toNat_lt, UInt32.ofNat_toNat]
  accepts_encode _ _ := rfl

/-- One byte that is `0` or `1`. -/
def bool : Codec Bool where
  size := 1
  encode b := [if b then 1 else 0]
  decode l := l.headD 0 == 1
  accepts l := l.headD 0 == 0 || l.headD 0 == 1
  length_encode _ := rfl
  decode_encode b rest := by cases b <;> rfl
  accepts_encode b rest := by cases b <;> rfl

def byte : Codec UInt8 where
  size := 1
  encode b := [b]
  decode l := l.headD 0
  accepts _ := true
  length_encode _ := rfl
  decode_encode _ _ := rfl
  accepts_encode _ _ := rfl

/-- A number of plain bytes. -/
def bytes (n : Nat) : Codec (Fin n → UInt8) where
  size := n
  encode f := List.ofFn f
  decode l i := l.getD i 0
  accepts _ := true
  length_encode _ := List.length_ofFn
  decode_encode f rest := by
    funext i
    have hi : i.val < (List.ofFn f).length := by rw [List.length_ofFn]; exact i.isLt
    rw [List.getD_eq_getElem?_getD, List.getElem?_append_left hi, List.getElem?_eq_getElem hi,
      List.getElem_ofFn, Option.getD_some]
  accepts_encode _ _ := rfl

/-- Zero bytes, which are skipped when reading. -/
def padding (n : Nat) : Codec Unit where
  size := n
  encode _ := List.replicate n 0
  decode _ := ()
  accepts _ := true
  length_encode _ := List.length_replicate
  decode_encode _ _ := rfl
  accepts_encode _ _ := rfl

/-- One field after the other. -/
def seq (c : Codec α) (d : Codec β) : Codec (α × β) where
  size := c.size + d.size
  encode p := c.encode p.1 ++ d.encode p.2
  decode l := (c.decode l, d.decode (l.drop c.size))
  accepts l := c.accepts l && d.accepts (l.drop c.size)
  length_encode p := by rw [List.length_append, c.length_encode, d.length_encode]
  decode_encode p rest := by
    rw [List.append_assoc, c.decode_encode, List.drop_left' (c.length_encode p.1),
      d.decode_encode]
  accepts_encode p rest := by
    rw [List.append_assoc, c.accepts_encode, List.drop_left' (c.length_encode p.1),
      d.accepts_encode, Bool.and_true]

/-- The same bytes for values of another type. -/
def map (c : Codec α) (build : α → β) (split : β → α) (h : ∀ b, build (split b) = b) :
    Codec β where
  size := c.size
  encode b := c.encode (split b)
  decode l := build (c.decode l)
  accepts := c.accepts
  length_encode b := c.length_encode _
  decode_encode b rest := by rw [c.decode_encode, h]
  accepts_encode b rest := c.accepts_encode _ rest

/-- The same bytes for the values of another type. Not all bytes stand for a
value, and reading asserts that they do. -/
def mapPartial (c : Codec α) (build : α → Option β) (other : β) (split : β → α)
    (h : ∀ b, build (split b) = some b) : Codec β where
  size := c.size
  encode b := c.encode (split b)
  decode l := (build (c.decode l)).getD other
  accepts l := c.accepts l && (build (c.decode l)).isSome
  length_encode b := c.length_encode _
  decode_encode b rest := by rw [c.decode_encode, h, Option.getD_some]
  accepts_encode b rest := by
    rw [c.accepts_encode, c.decode_encode, h, Option.isSome_some, Bool.and_true]

theorem length_flatMap_encode (c : Codec α) (l : List α) :
    (l.flatMap c.encode).length = l.length * c.size := by
  induction l with
  | nil => rw [List.flatMap_nil, List.length_nil, List.length_nil, Nat.zero_mul]
  | cons a l ih =>
    rw [List.flatMap_cons, List.length_append, ih, c.length_encode, List.length_cons,
      Nat.succ_mul, Nat.add_comm]

/-- An array element starts where the elements before it end. -/
theorem drop_flatMap_encode (c : Codec α) (l : List α) (i : Nat) (hi : i < l.length)
    (rest : List UInt8) : ((l.flatMap c.encode) ++ rest).drop (i * c.size) =
      c.encode l[i] ++ ((l.drop (i + 1)).flatMap c.encode ++ rest) := by
  induction l generalizing i with
  | nil => cases hi
  | cons a l ih =>
    cases i with
    | zero =>
      rw [Nat.zero_mul, List.drop_zero, List.flatMap_cons, List.append_assoc]
      rfl
    | succ i =>
      rw [List.flatMap_cons, List.append_assoc, Nat.succ_mul, Nat.add_comm, ← List.drop_drop,
        List.drop_left' (c.length_encode a), ih i (Nat.lt_of_succ_lt_succ hi)]
      rfl

/-- A number of records one after the other. -/
def array (n : Nat) (c : Codec α) : Codec (Fin n → α) where
  size := n * c.size
  encode f := (List.ofFn f).flatMap c.encode
  decode l i := c.decode (l.drop (i * c.size))
  accepts l := (List.finRange n).all fun i => c.accepts (l.drop (i * c.size))
  length_encode f := by rw [length_flatMap_encode, List.length_ofFn]
  decode_encode f rest := by
    ext i
    have hi : i.val < (List.ofFn f).length := by rw [List.length_ofFn]; exact i.isLt
    rw [drop_flatMap_encode c _ _ hi, c.decode_encode, List.getElem_ofFn]
  accepts_encode f rest := by
    rw [List.all_eq_true]
    intro i _
    have hi : i.val < (List.ofFn f).length := by rw [List.length_ofFn]; exact i.isLt
    rw [drop_flatMap_encode c _ _ hi, c.accepts_encode]

end Codec

end Genode.Lib
