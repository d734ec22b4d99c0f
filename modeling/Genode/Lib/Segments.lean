import Mathlib.Data.List.Basic

/-!
# Segments — a text that is cut at a separator

The parts of the text between the separators, and the text of parts that have
a separator in front of each. Parts are free of the separator.
-/

namespace Genode.Lib

variable {α : Type} {sep : α} {p : List α} {ps qs : List (List α)}

/-- The parts, each with a separator in front. -/
def segments (sep : α) (ps : List (List α)) : List α := ps.flatMap (sep :: ·)

/-- No part has a separator in it. -/
def Separated (sep : α) (ps : List (List α)) : Prop := ∀ p ∈ ps, sep ∉ p

@[simp] theorem segments_nil : segments sep [] = [] := rfl

@[simp] theorem segments_cons : segments sep (p :: ps) = sep :: (p ++ segments sep ps) := rfl

@[simp] theorem segments_append :
    segments sep (ps ++ qs) = segments sep ps ++ segments sep qs := by
  unfold segments
  rw [List.flatMap_append]

theorem segments_head? (h : ps ≠ []) : (segments sep ps).head? = some sep := by
  cases ps with
  | nil => exact absurd rfl h
  | cons p ps => rfl

theorem Separated.tail (h : Separated sep (p :: ps)) : Separated sep ps :=
  fun q hq => h q (List.mem_cons_of_mem p hq)

theorem Separated.head (h : Separated sep (p :: ps)) : sep ∉ p := h p List.mem_cons_self

theorem Separated.subset (h : Separated sep ps) (hs : qs ⊆ ps) : Separated sep qs :=
  fun q hq => h q (hs hq)

/-- A part ends at the first separator. -/
theorem head?_append_segments (h : sep ∉ p) :
    (p ++ segments sep ps).head? = some sep ↔ p = [] ∧ ps ≠ [] := by
  cases p with
  | nil =>
    cases ps with
    | nil => simp
    | cons q qs => simp
  | cons c p =>
    have hc : c ≠ sep := fun hc => h (hc ▸ List.mem_cons_self)
    simp [hc]

/-! ## Cutting a text -/

variable [DecidableEq α]

theorem separated_splitOn (s : List α) : Separated sep (s.splitOn sep) := by
  induction s with
  | nil => simp [Separated]
  | cons c s ih =>
    rw [List.splitOn_cons_eq_if_modifyHead]
    split
    · intro p hp
      rcases List.mem_cons.mp hp with rfl | hp
      · exact List.not_mem_nil
      · exact ih p hp
    · rename_i hc
      obtain ⟨q, qs, hqs⟩ := List.exists_cons_of_ne_nil (List.splitOn_ne_nil sep s)
      rw [hqs] at ih ⊢
      intro p hp
      rcases List.mem_cons.mp hp with rfl | hp
      · intro hmem
        rcases List.mem_cons.mp hmem with rfl | hmem
        · exact hc (beq_self_eq_true _)
        · exact ih.head hmem
      · exact ih.tail p hp

/-- A text with a separator in front is the text of its parts. -/
theorem segments_splitOn (s : List α) : segments sep (s.splitOn sep) = sep :: s := by
  induction s with
  | nil => simp
  | cons c s ih =>
    rw [List.splitOn_cons_eq_if_modifyHead]
    split
    · rename_i hc
      rw [segments_cons, ih, List.nil_append, eq_of_beq hc]
    · obtain ⟨q, qs, hqs⟩ := List.exists_cons_of_ne_nil (List.splitOn_ne_nil sep s)
      rw [hqs, segments_cons] at ih
      rw [hqs, List.modifyHead_cons, segments_cons, List.cons_append,
        List.tail_eq_of_cons_eq ih]

/-- Cutting the text of parts gives them back, behind an empty one. -/
theorem splitOn_segments (h : Separated sep ps) : (segments sep ps).splitOn sep = [] :: ps := by
  induction ps with
  | nil => simp
  | cons p ps ih =>
    rw [segments_cons, ← List.nil_append (sep :: _), List.splitOn_append_cons_self,
      List.splitOn_nil, List.singleton_append]
    congr 1
    cases ps with
    | nil => rw [segments_nil, List.append_nil, List.splitOn_eq_singleton h.head]
    | cons q qs =>
      have hrec := ih h.tail
      rw [segments_cons, ← List.nil_append (sep :: _), List.splitOn_append_cons_self,
        List.splitOn_nil, List.singleton_append] at hrec
      rw [segments_cons, List.splitOn_append_cons_self, List.splitOn_eq_singleton h.head,
        List.singleton_append, List.tail_eq_of_cons_eq hrec]

end Genode.Lib
