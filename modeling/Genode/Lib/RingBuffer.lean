import Mathlib.Data.List.Basic
import Mathlib.Data.Nat.ModEq
import Mathlib.Logic.Function.Basic

/-!
# RingBuffer — a queue in a fixed number of slots

The items lie in consecutive slots from `head` on, and the slot after the
last one is the first again. `toList` is what the buffer stands for.
-/

namespace Genode.Lib

structure RingBuffer (N : Nat) (α : Type) where
  head : Nat
  tail : Nat
  used : Nat
  slots : Nat → α
  head_lt : head < N
  used_le : used ≤ N
  tail_eq : tail = (head + used) % N

namespace RingBuffer

variable {N : Nat} {α : Type} (q : RingBuffer N α)

/-- The slot of the `k`-th item. -/
def slot (k : Nat) : Nat := (q.head + k) % N

def toList : List α := (List.range q.used).map fun k => q.slots (q.slot k)

@[simp] theorem length_toList : q.toList.length = q.used := by simp [toList]

theorem getElem?_toList {k : Nat} (h : k < q.used) : q.toList[k]? = some (q.slots (q.slot k)) := by
  simp [toList, List.getElem?_range h]

theorem slot_zero : q.slot 0 = q.head := Nat.mod_eq_of_lt q.head_lt

theorem slot_lt (k : Nat) : q.slot k < N := Nat.mod_lt _ (Nat.zero_lt_of_lt q.head_lt)

theorem slot_used : q.slot q.used = q.tail := q.tail_eq.symm

/-- Different items lie in different slots. -/
theorem slot_inj {i j : Nat} (hi : i < N) (hj : j < N) (h : q.slot i = q.slot j) : i = j := by
  have hmod : i ≡ j [MOD N] := Nat.ModEq.add_left_cancel' q.head h
  exact Nat.ModEq.eq_of_lt_of_lt hmod hi hj

/-- The slot after a slot. -/
theorem slot_succ (k : Nat) :
    q.slot (k + 1) = if q.slot k < N - 1 then q.slot k + 1 else 0 := by
  have hlt := q.slot_lt k
  have hadd : q.slot (k + 1) = (q.slot k + 1) % N := by
    rw [slot, slot, Nat.mod_add_mod, Nat.add_assoc]
  rw [hadd]
  split
  · exact Nat.mod_eq_of_lt (by omega)
  · have : q.slot k + 1 = N := by omega
    rw [this, Nat.mod_self]

/-- The slot before `tail` is that of the last item. -/
theorem slot_pred_used {k : Nat} (h : q.used = k + 1) :
    q.slot k = if 0 < q.tail then q.tail - 1 else N - 1 := by
  have hs := q.slot_succ k
  rw [← h, q.slot_used] at hs
  have hlt := q.slot_lt k
  split at hs <;> split <;> omega

/-- The slot after that of an item is `tail` for the last item only. -/
theorem slot_succ_eq_tail_iff {k : Nat} (h : k < q.used) :
    q.slot (k + 1) = q.tail ↔ k + 1 = q.used := by
  refine ⟨fun hs => ?_, fun hk => hk ▸ q.slot_used⟩
  have hle := q.used_le
  rw [← q.slot_used] at hs
  have hmod : k + 1 ≡ q.used [MOD N] := Nat.ModEq.add_left_cancel' q.head hs
  by_contra hne
  -- the two numbers differ by less than the number of slots
  have hdvd : N ∣ q.used - (k + 1) := (Nat.modEq_iff_dvd' h).mp hmod
  have := Nat.le_of_dvd (by omega) hdvd
  omega

theorem toList_eq_nil_iff : q.toList = [] ↔ q.used = 0 := by
  rw [← List.length_eq_zero_iff, length_toList]

/-- The item at a position that the list tells. -/
theorem slots_of_toList {xs ys : List α} {a : α} (h : q.toList = xs ++ a :: ys) :
    q.slots (q.slot xs.length) = a := by
  have hlt : xs.length < q.used := by
    rw [← length_toList, h]
    simp
  have hget := q.getElem?_toList hlt
  rw [h, List.getElem?_append_right le_rfl, Nat.sub_self] at hget
  exact (Option.some.inj hget).symm

section Push

/-- Put an item behind the last one. -/
def push (a : α) (h : q.used < N) : RingBuffer N α where
  head := q.head
  tail := (q.tail + 1) % N
  used := q.used + 1
  slots := Function.update q.slots q.tail a
  head_lt := q.head_lt
  used_le := h
  tail_eq := by rw [q.tail_eq, Nat.mod_add_mod, Nat.add_assoc]

theorem toList_push {a : α} (h : q.used < N) : (q.push a h).toList = q.toList ++ [a] := by
  have hlast : (q.push a h).slots (q.slot q.used) = a := by
    rw [q.slot_used]
    exact Function.update_self ..
  have hold : (List.range q.used).map (fun k => (q.push a h).slots (q.slot k)) = q.toList := by
    refine List.map_congr_left fun k hk => Function.update_of_ne ?_ _ _
    rw [List.mem_range] at hk
    intro hs
    have := q.slot_inj (hk.trans h) h (hs.trans q.slot_used.symm)
    omega
  change (List.range (q.used + 1)).map (fun k => (q.push a h).slots (q.slot k)) = _
  rw [List.range_succ, List.map_append, hold, List.map_singleton, hlast]

end Push

section Pop

/-- Take the first item out. -/
def pop (h : 0 < q.used) : RingBuffer N α where
  head := (q.head + 1) % N
  tail := q.tail
  used := q.used - 1
  slots := q.slots
  head_lt := Nat.mod_lt _ (Nat.zero_lt_of_lt q.head_lt)
  used_le := (Nat.sub_le ..).trans q.used_le
  tail_eq := by
    rw [q.tail_eq, Nat.mod_add_mod, Nat.add_assoc, Nat.add_sub_cancel' h]

theorem slot_pop (h : 0 < q.used) (k : Nat) : (q.pop h).slot k = q.slot (k + 1) := by
  change ((q.head + 1) % N + k) % N = (q.head + (k + 1)) % N
  rw [Nat.mod_add_mod, Nat.add_assoc, Nat.add_comm 1 k]

theorem toList_pop (h : 0 < q.used) : q.toList = q.slots q.head :: (q.pop h).toList := by
  have hused : q.used = (q.used - 1) + 1 := (Nat.sub_add_cancel h).symm
  have htail : (q.pop h).toList = (List.range (q.used - 1)).map fun k => q.slots (q.slot (k + 1)) :=
    List.map_congr_left fun k _ => congrArg q.slots (q.slot_pop h k)
  rw [htail, toList, hused, List.range_succ_eq_map, List.map_cons, List.map_map, slot_zero]
  rfl

end Pop

section Swap

/-- Exchange what lies in two slots. -/
def swap (s t : Nat) : RingBuffer N α :=
  { q with slots := Function.update (Function.update q.slots t (q.slots s)) s (q.slots t) }

theorem slot_swap (s t k : Nat) : (q.swap s t).slot k = q.slot k := rfl

theorem slots_swap (s t : Nat) : (q.swap s t).slots =
    Function.update (Function.update q.slots t (q.slots s)) s (q.slots t) := rfl

/-- Two neighbours change places. -/
theorem toList_swap {xs ys : List α} {a b : α} (h : q.toList = xs ++ a :: b :: ys) :
    (q.swap (q.slot xs.length) (q.slot (xs.length + 1))).toList = xs ++ b :: a :: ys := by
  have hlen : xs.length + 1 < q.used := by
    rw [← length_toList, h]
    simp
  have hle := q.used_le
  have ha := q.slots_of_toList h
  have hb : q.slots (q.slot (xs.length + 1)) = b := by
    have hsplit : q.toList = (xs ++ [a]) ++ b :: ys := by rw [h, List.append_assoc]; rfl
    have hb := q.slots_of_toList hsplit
    rwa [List.length_append, List.length_singleton] at hb
  have hne : q.slot (xs.length + 1) ≠ q.slot xs.length := by
    intro hs
    have := q.slot_inj (by omega) (by omega) hs
    omega
  ext k x
  by_cases hk : k < q.used
  · have hother : ∀ j, j < q.used → k ≠ j → q.slot k ≠ q.slot j := fun j hj hkj hs =>
      hkj (q.slot_inj (by omega) (by omega) hs)
    have hget := q.getElem?_toList hk
    rw [getElem?_toList (q.swap ..) hk, slot_swap, slots_swap]
    rw [h] at hget
    by_cases h₀ : k = xs.length
    · subst h₀
      rw [Function.update_self, hb, List.getElem?_append_right le_rfl, Nat.sub_self]
      rfl
    · rw [Function.update_of_ne (hother _ (by omega) h₀)]
      by_cases h₁ : k = xs.length + 1
      · subst h₁
        rw [Function.update_self, ha, List.getElem?_append_right (by omega),
          Nat.add_sub_cancel_left]
        rfl
      · rw [Function.update_of_ne (hother _ (by omega) h₁), ← hget]
        by_cases hlt : k < xs.length
        · rw [List.getElem?_append_left hlt, List.getElem?_append_left hlt]
        · obtain ⟨j, rfl⟩ : ∃ j, k = xs.length + (j + 2) := ⟨k - xs.length - 2, by omega⟩
          rw [List.getElem?_append_right (by omega), List.getElem?_append_right (by omega),
            Nat.add_sub_cancel_left]
          rfl
  · have hlen' := congrArg List.length h
    rw [length_toList] at hlen'
    rw [List.getElem?_eq_none (by rw [length_toList]; exact Nat.le_of_not_lt hk),
      List.getElem?_eq_none (by simpa [hlen'] using hk)]

end Swap

end RingBuffer

end Genode.Lib
