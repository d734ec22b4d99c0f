import Mathlib.Logic.Function.Basic
import Mathlib.Data.List.Basic

/-!
# Bytes — texts in memory

A memory maps addresses to bytes. A text in it is given by its address and
its length.
-/

namespace Genode.Lib

/-- The bytes at all addresses. -/
abbrev Memory := Nat → UInt8

namespace Memory

variable (m : Memory)

/-- The `n` bytes from address `a` on. -/
def slice (a n : Nat) : List UInt8 := (List.range n).map fun i => m (a + i)

/-- `memmove`: copy `n` bytes, where the two areas may overlap. -/
def move (dst src n : Nat) : Memory :=
  fun x => if dst ≤ x ∧ x < dst + n then m (src + (x - dst)) else m x

/-- Write bytes from address `a` on. -/
def write (a : Nat) (bs : List UInt8) : Memory :=
  fun x => if a ≤ x then (bs[x - a]?).getD (m x) else m x

/-- All bytes from address `n` on are zero. -/
def cut (n : Nat) : Memory := fun x => if x < n then m x else 0

variable {m} {m' : Memory} {a b n k : Nat} {bs : List UInt8}

@[simp] theorem slice_zero : m.slice a 0 = [] := rfl

@[simp] theorem length_slice : (m.slice a n).length = n := by simp [slice]

theorem slice_add (m : Memory) (a n k : Nat) :
    m.slice a (n + k) = m.slice a n ++ m.slice (a + n) k := by
  unfold slice
  rw [List.range_add, List.map_append, List.map_map]
  congr 2
  ext i
  simp [Nat.add_assoc]

theorem slice_one (m : Memory) (a : Nat) : m.slice a 1 = [m a] := rfl

/-- A text depends on the bytes within it only. -/
theorem slice_congr (h : ∀ x, a ≤ x → x < a + n → m' x = m x) : m'.slice a n = m.slice a n := by
  unfold slice
  apply List.map_congr_left
  intro i hi
  rw [List.mem_range] at hi
  exact h _ (by omega) (by omega)

/-- A text that has been moved. -/
theorem slice_move (m : Memory) (a b n : Nat) : (m.move b a n).slice b n = m.slice a n := by
  unfold slice
  apply List.map_congr_left
  intro i hi
  rw [List.mem_range] at hi
  unfold move
  rw [if_pos (by omega)]
  congr 1
  omega

theorem move_of_lt {x : Nat} (h : x < b) : m.move b a n x = m x := by
  unfold move
  rw [if_neg (by omega)]

theorem write_of_lt {x : Nat} (h : x < a) : m.write a bs x = m x := if_neg (Nat.not_le_of_lt h)

theorem write_of_ge {x : Nat} (h : a + bs.length ≤ x) : m.write a bs x = m x := by
  have hnone : bs[x - a]? = none := List.getElem?_eq_none (by omega)
  unfold write
  rw [hnone]
  simp

@[simp] theorem write_nil (m : Memory) (a : Nat) : m.write a [] = m := by
  funext x
  simp [write]

/-- One text after the other. -/
theorem write_write (m : Memory) (a : Nat) (bs cs : List UInt8) :
    (m.write a bs).write (a + bs.length) cs = m.write a (bs ++ cs) := by
  funext x
  unfold write
  by_cases h₁ : a ≤ x
  · by_cases h₂ : a + bs.length ≤ x
    · rw [if_pos h₂, if_pos h₁, if_pos h₁, List.getElem?_append_right (by omega),
        List.getElem?_eq_none (show bs.length ≤ x - a by omega), Option.getD_none, Nat.sub_sub]
    · have hget : bs[x - a]? = some (bs.get ⟨x - a, by omega⟩) := List.getElem?_eq_getElem _
      rw [if_neg h₂, if_pos h₁, if_pos h₁, List.getElem?_append_left (by omega), hget]
  · rw [if_neg (by omega), if_neg h₁, if_neg h₁]

/-- What has been written. -/
theorem slice_write (m : Memory) (a : Nat) (bs : List UInt8) :
    (m.write a bs).slice a bs.length = bs := by
  unfold slice
  apply List.ext_getElem
  · simp
  · intro i hi hi'
    simp [write, hi']

/-- Text before the written bytes stays. -/
theorem slice_write_of_le (h : a + n ≤ b) : (m.write b bs).slice a n = m.slice a n :=
  slice_congr fun _ _ hx => write_of_lt (by omega)

/-- Text behind the written bytes stays. -/
theorem slice_write_of_ge (h : b + bs.length ≤ a) : (m.write b bs).slice a n = m.slice a n :=
  slice_congr fun _ hx _ => write_of_ge (by omega)

/-- A byte of a text. -/
theorem getElem?_slice {i : Nat} (h : i < n) : (m.slice a n)[i]? = some (m (a + i)) := by
  simp [slice, h]

end Memory

end Genode.Lib
