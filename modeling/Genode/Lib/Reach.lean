import Mathlib.Order.Lattice
import Mathlib.Data.List.Basic

/-!
# Reach — how far a computation looks into a text

A computation that reads a text by index is kept with its reach: all
indices that it reads lie below it. So a function is written once, and
both its result and the part of the text that it inspects can be spoken
about.
-/

namespace Genode.Lib

/-- The character at an index; outside of the text it is zero. -/
def charAt (s : List UInt8) (i : Nat) : UInt8 := s[i]?.getD 0

section CharAt

variable {s t : List UInt8} {c : UInt8} {i o : Nat}

@[simp] theorem charAt_nil : charAt [] i = 0 := rfl

@[simp] theorem charAt_cons_zero : charAt (c :: s) 0 = c := rfl

@[simp] theorem charAt_cons_succ : charAt (c :: s) (i + 1) = charAt s i := rfl

@[simp] theorem charAt_drop : charAt (s.drop o) i = charAt s (o + i) := by
  rw [charAt, charAt, List.getElem?_drop]

theorem charAt_of_le (h : s.length ≤ i) : charAt s i = 0 := by
  rw [charAt, List.getElem?_eq_none h]
  rfl

theorem charAt_append_left (h : i < s.length) : charAt (s ++ t) i = charAt s i := by
  rw [charAt, charAt, List.getElem?_append_left h]

theorem charAt_append_right (h : s.length ≤ i) : charAt (s ++ t) i = charAt t (i - s.length) := by
  rw [charAt, charAt, List.getElem?_append_right h]

theorem charAt_mem (h : i < s.length) : charAt s i ∈ s := by
  rw [charAt, List.getElem?_eq_getElem h]
  exact List.getElem_mem h

theorem drop_eq_charAt_cons (h : i < s.length) : s.drop i = charAt s i :: s.drop (i + 1) := by
  rw [List.drop_eq_getElem_cons h, charAt, List.getElem?_eq_getElem h]
  rfl

end CharAt

/-- A result, and a bound for the indices that were read to obtain it. -/
structure Reach (α : Type) where
  val : α
  reach : Nat
  deriving DecidableEq, Repr

namespace Reach

variable {α β : Type}

instance : Monad Reach where
  pure a := ⟨a, 0⟩
  bind x f := ⟨(f x.val).val, max x.reach (f x.val).reach⟩

/-- Read the character at an index. -/
def read (s : List UInt8) (i : Nat) : Reach UInt8 := ⟨charAt s i, i + 1⟩

/-- The computation reads a text that begins at index `o`. -/
def shift (o : Nat) (x : Reach α) : Reach α :=
  ⟨x.val, if x.reach = 0 then 0 else o + x.reach⟩

@[simp] theorem pure_val (a : α) : (pure a : Reach α).val = a := rfl

@[simp] theorem pure_reach (a : α) : (pure a : Reach α).reach = 0 := rfl

@[simp] theorem bind_val (x : Reach α) (f : α → Reach β) : (x >>= f).val = (f x.val).val := rfl

@[simp] theorem bind_reach (x : Reach α) (f : α → Reach β) :
    (x >>= f).reach = max x.reach (f x.val).reach := rfl

@[simp] theorem map_val (f : α → β) (x : Reach α) : (f <$> x).val = f x.val := rfl

@[simp] theorem map_reach (f : α → β) (x : Reach α) : (f <$> x).reach = x.reach :=
  max_eq_left (Nat.zero_le _)

@[simp] theorem read_val (s : List UInt8) (i : Nat) : (read s i).val = charAt s i := rfl

@[simp] theorem read_reach (s : List UInt8) (i : Nat) : (read s i).reach = i + 1 := rfl

@[simp] theorem shift_val (o : Nat) (x : Reach α) : (x.shift o).val = x.val := rfl

theorem shift_reach_le {o n : Nat} {x : Reach α} (h : o + x.reach ≤ n) : (x.shift o).reach ≤ n := by
  unfold shift
  dsimp only
  split
  · exact Nat.zero_le _
  · exact h

theorem shift_shift (o o' : Nat) (x : Reach α) : (x.shift o').shift o = x.shift (o + o') := by
  unfold shift
  dsimp only
  split
  · simp
  · rw [if_neg (by omega), Nat.add_assoc]

theorem shift_reach_of_pos {o : Nat} {x : Reach α} (h : 0 < x.reach) :
    (x.shift o).reach = o + x.reach := if_neg (by omega)

end Reach

end Genode.Lib
