import Mathlib.Data.List.Basic

/-!
# Nesting — words of opening and closing marks

A word of marks is read with a counter for the depth. The nodes at the
first level are found in two ways: by counting while the end of the
word is searched, and by going from one node to the next, which needs
that every node is closed by a mark that fits. The two agree exactly if
all nodes of the first level are closed so.
-/

namespace Genode.Lib

/-- What an element does to the depth. -/
inductive Mark where
  | opens
  | closes
  | single
  deriving DecidableEq, Repr

namespace Nesting

variable {ε : Type} (mark : ε → Mark) (fits : ε → ε → Bool)

/-- The element that closes the level around `d` further open nodes, and the
word behind it. -/
def close : Nat → List ε → Option (ε × List ε)
  | _, [] => none
  | d, e :: es =>
    match mark e with
    | .opens => close (d + 1) es
    | .single => close d es
    | .closes => if d = 0 then some (e, es) else close (d - 1) es

/-- The number of nodes that begin directly at the level that is closed so. -/
def count : Nat → List ε → Nat
  | _, [] => 0
  | d, e :: es =>
    match mark e with
    | .opens => (if d = 0 then 1 else 0) + count (d + 1) es
    | .single => (if d = 0 then 1 else 0) + count d es
    | .closes => if d = 0 then 0 else count (d - 1) es

variable {mark fits} {es r : List ε} {e c : ε} {d : Nat}

theorem close_suffix (h : close mark d es = some (c, r)) : c :: r <:+ es := by
  induction es generalizing d with
  | nil => cases h
  | cons e es ih =>
    rw [close] at h
    split at h
    · exact (ih h).trans (List.suffix_cons _ _)
    · exact (ih h).trans (List.suffix_cons _ _)
    · split at h
      · cases h
        exact List.suffix_rfl
      · exact (ih h).trans (List.suffix_cons _ _)

theorem length_lt_of_close (h : close mark d es = some (c, r)) : r.length < es.length :=
  (close_suffix h).length_le

theorem mark_of_close (h : close mark d es = some (c, r)) : mark c = .closes := by
  induction es generalizing d with
  | nil => cases h
  | cons e es ih =>
    rw [close] at h
    split at h
    · exact ih h
    · exact ih h
    · rename_i hm
      split at h
      · cases h
        exact hm
      · exact ih h

/-- To leave several levels, leave one after the other. -/
theorem close_add (mark : ε → Mark) (d k : Nat) (es : List ε) :
    close mark (k + (d + 1)) es = (close mark k es).bind fun p => close mark d p.2 := by
  induction es generalizing k with
  | nil => rfl
  | cons e es ih =>
    rw [close, close]
    cases mark e with
    | opens =>
      have hc := ih (k + 1)
      rw [Nat.add_right_comm] at hc
      exact hc
    | single => exact ih k
    | closes =>
      cases k with
      | zero => simp
      | succ k =>
        rw [Nat.add_right_comm k 1 (d + 1)]
        exact ih k

/-- Behind a node its level goes on. -/
theorem close_opens (h : mark e = .opens) (hc : close mark 0 es = some (c, r)) :
    close mark 0 (e :: es) = close mark 0 r := by
  have hadd := close_add mark 0 0 es
  rw [hc] at hadd
  rw [close, h]
  exact hadd

theorem count_le_length (mark : ε → Mark) (d : Nat) (es : List ε) :
    count mark d es ≤ es.length := by
  induction es generalizing d with
  | nil => exact Nat.le_refl _
  | cons e es ih =>
    have h₁ := ih (d + 1)
    have h₂ := ih d
    have h₃ := ih (d - 1)
    rw [count, List.length_cons]
    split
    · split <;> omega
    · split <;> omega
    · split <;> omega

/-- Within a node nothing is counted. -/
theorem count_add {k : Nat} (h : close mark k es = some (c, r)) (d : Nat) :
    count mark (k + (d + 1)) es = count mark d r := by
  induction es generalizing k with
  | nil => cases h
  | cons e es ih =>
    rw [close] at h
    rw [count]
    cases hm : mark e with
    | opens =>
      rw [hm] at h
      have hc := ih h
      rw [Nat.add_right_comm] at hc
      simpa using hc
    | single =>
      rw [hm] at h
      simpa using ih h
    | closes =>
      rw [hm] at h
      cases k with
      | zero =>
        cases h
        simp
      | succ k =>
        rw [Nat.add_right_comm k 1 (d + 1)]
        exact ih h

variable (mark fits)

/-- The nodes of a level, one after the other, with their first and last element
and the word behind. The first node that is not closed properly ends it. -/
def siblings (es : List ε) : List (ε × ε × List ε) :=
  match es with
  | [] => []
  | e :: es =>
    match mark e with
    | .closes => []
    | .single => (e, e, es) :: siblings es
    | .opens =>
      match _h : close mark 0 es with
      | none => []
      | some (c, r) => if fits e c then (e, c, r) :: siblings r else []
termination_by es.length
decreasing_by
  · simp
  · have := length_lt_of_close _h
    simp only [List.length_cons]
    omega

/-- All nodes of a level are closed by an element that fits. -/
inductive Paired : List ε → Prop
  | nil : Paired []
  | closes {e : ε} {es : List ε} : mark e = .closes → Paired (e :: es)
  | single {e : ε} {es : List ε} : mark e = .single → Paired es → Paired (e :: es)
  | node {e c : ε} {es r : List ε} : mark e = .opens → close mark 0 es = some (c, r) →
      fits e c = true → Paired r → Paired (e :: es)

variable {mark fits}

@[simp] theorem siblings_nil : siblings mark fits [] = [] := by rw [siblings]

theorem siblings_closes (h : mark e = .closes) : siblings mark fits (e :: es) = [] := by
  rw [siblings, h]

theorem siblings_single (h : mark e = .single) :
    siblings mark fits (e :: es) = (e, e, es) :: siblings mark fits es := by
  rw [siblings, h]

theorem siblings_opens (h : mark e = .opens) (hc : close mark 0 es = some (c, r)) :
    siblings mark fits (e :: es) =
      if fits e c then (e, c, r) :: siblings mark fits r else [] := by
  rw [siblings, h]
  dsimp only
  split
  · rename_i hn
    rw [hn] at hc
    cases hc
  · rename_i c' r' hs
    rw [hs] at hc
    cases hc
    rfl

theorem siblings_open (h : mark e = .opens) (hc : close mark 0 es = none) :
    siblings mark fits (e :: es) = [] := by
  rw [siblings, h]
  dsimp only
  split
  · rfl
  · rename_i c' r' hs
    rw [hs] at hc
    cases hc

/-- A level that is closed begins with its end or with a node that is closed,
too. -/
theorem close_cases (h : close mark 0 es = some (c, r)) :
    (mark c = .closes ∧ es = c :: r) ∨
      (∃ e es', mark e = .single ∧ es = e :: es' ∧ close mark 0 es' = some (c, r)) ∨
      (∃ e es' c' r', mark e = .opens ∧ es = e :: es' ∧ close mark 0 es' = some (c', r') ∧
        close mark 0 r' = some (c, r)) := by
  cases es with
  | nil => cases h
  | cons e es =>
    rw [close] at h
    cases hm : mark e with
    | opens =>
      rw [hm] at h
      have h : close mark (0 + (0 + 1)) es = some (c, r) := h
      rw [close_add, Option.bind_eq_some_iff] at h
      obtain ⟨⟨c', r'⟩, h₁, h₂⟩ := h
      exact .inr (.inr ⟨e, es, c', r', hm, rfl, h₁, h₂⟩)
    | single =>
      rw [hm] at h
      exact .inr (.inl ⟨e, es, hm, rfl, h⟩)
    | closes =>
      rw [hm] at h
      cases h
      exact .inl ⟨hm, rfl⟩

theorem count_closes (h : mark e = .closes) : count mark 0 (e :: es) = 0 := by
  rw [count, h]
  rfl

theorem count_single (h : mark e = .single) :
    count mark 0 (e :: es) = count mark 0 es + 1 := by
  rw [count, h]
  exact Nat.add_comm _ _

theorem count_opens (h : mark e = .opens) (hc : close mark 0 es = some (c, r)) :
    count mark 0 (e :: es) = count mark 0 r + 1 := by
  have hadd := count_add hc 0
  rw [count, h]
  dsimp only
  rw [hadd]
  exact Nat.add_comm _ _

/-- Going from node to node never comes to more nodes than there are, and all of
them lie before the end of the level. -/
theorem siblings_le_count (h : close mark 0 es = some (c, r)) :
    (siblings mark fits es).length ≤ count mark 0 es ∧
      ∀ p ∈ siblings mark fits es, c :: r <:+ p.2.2 := by
  induction hn : es.length using Nat.strongRecOn generalizing es with
  | _ n ih =>
    obtain ⟨hm, rfl⟩ | ⟨e, es', hm, rfl, h'⟩ | ⟨e, es', c', r', hm, rfl, h₁, h₂⟩ := close_cases h
    · rw [siblings_closes hm]
      exact ⟨Nat.zero_le _, fun p hp => by cases hp⟩
    · obtain ⟨hle, hin⟩ := ih es'.length (by simp [← hn]) h' rfl
      rw [siblings_single hm, count_single hm]
      refine ⟨Nat.succ_le_succ hle, fun p hp => ?_⟩
      rcases List.mem_cons.mp hp with rfl | hp
      · exact close_suffix h'
      · exact hin p hp
    · have hlt := length_lt_of_close h₁
      obtain ⟨hle, hin⟩ := ih r'.length (by simp only [← hn, List.length_cons]; omega) h₂ rfl
      rw [siblings_opens hm h₁, count_opens hm h₁]
      split
      · refine ⟨Nat.succ_le_succ hle, fun p hp => ?_⟩
        rcases List.mem_cons.mp hp with rfl | hp
        · exact close_suffix h₂
        · exact hin p hp
      · exact ⟨Nat.zero_le _, fun p hp => by cases hp⟩

/-- A node lies in the word, with its end behind its beginning. -/
theorem mem_siblings {p : ε × ε × List ε} (h : p ∈ siblings mark fits es) :
    ∃ r, p.1 :: r <:+ es ∧ p.2.1 :: p.2.2 <:+ p.1 :: r := by
  induction hn : es.length using Nat.strongRecOn generalizing es with
  | _ n ih =>
    cases es with
    | nil =>
      rw [siblings_nil] at h
      cases h
    | cons e es =>
      cases hm : mark e with
      | closes =>
        rw [siblings_closes hm] at h
        cases h
      | single =>
        rw [siblings_single hm] at h
        rcases List.mem_cons.mp h with rfl | h
        · exact ⟨es, List.suffix_rfl, List.suffix_rfl⟩
        · obtain ⟨r, h₁, h₂⟩ := ih es.length (by simp [← hn]) h rfl
          exact ⟨r, h₁.trans (List.suffix_cons _ _), h₂⟩
      | opens =>
        cases hc : close mark 0 es with
        | none =>
          rw [siblings_open hm hc] at h
          cases h
        | some q =>
          obtain ⟨c, r⟩ := q
          have hlt := length_lt_of_close hc
          have hsuf := (close_suffix hc).trans (List.suffix_cons e es)
          rw [siblings_opens hm hc] at h
          split at h
          · rcases List.mem_cons.mp h with rfl | h
            · exact ⟨es, List.suffix_rfl, hsuf⟩
            · obtain ⟨r', h₁, h₂⟩ :=
                ih r.length (by simp only [← hn, List.length_cons]; omega) h rfl
              exact ⟨r', (h₁.trans (List.suffix_cons c r)).trans hsuf, h₂⟩
          · cases h

theorem length_siblings_le (mark : ε → Mark) (fits : ε → ε → Bool) (es : List ε) :
    (siblings mark fits es).length ≤ es.length := by
  induction hn : es.length using Nat.strongRecOn generalizing es with
  | _ n ih =>
    cases es with
    | nil => simp
    | cons e es =>
      cases hm : mark e with
      | closes => simp [siblings_closes hm]
      | single =>
        have hle := ih es.length (by simp [← hn]) es rfl
        rw [siblings_single hm, ← hn]
        exact Nat.succ_le_succ hle
      | opens =>
        cases hc : close mark 0 es with
        | none => simp [siblings_open hm hc]
        | some q =>
          obtain ⟨c, r⟩ := q
          have hlt := length_lt_of_close hc
          have hle := ih r.length (by simp only [← hn, List.length_cons]; omega) r rfl
          rw [siblings_opens hm hc, ← hn]
          split
          · simp only [List.length_cons]
            omega
          · simp

/-- All nodes are visited exactly if they are closed properly. -/
theorem length_siblings_eq_iff (h : close mark 0 es = some (c, r)) :
    (siblings mark fits es).length = count mark 0 es ↔ Paired mark fits es := by
  induction hn : es.length using Nat.strongRecOn generalizing es with
  | _ n ih =>
    obtain ⟨hm, rfl⟩ | ⟨e, es', hm, rfl, h'⟩ | ⟨e, es', c', r', hm, rfl, h₁, h₂⟩ := close_cases h
    · rw [siblings_closes hm, count_closes hm]
      exact ⟨fun _ => .closes hm, fun _ => rfl⟩
    · have hiff := ih es'.length (by simp [← hn]) h' rfl
      rw [siblings_single hm, count_single hm, List.length_cons, Nat.add_right_cancel_iff, hiff]
      refine ⟨.single hm, fun hp => ?_⟩
      cases hp with
      | closes hm' => simp [hm'] at hm
      | single _ hp => exact hp
      | node hm' => simp [hm'] at hm
    · have hlt := length_lt_of_close h₁
      have hiff := ih r'.length (by simp only [← hn, List.length_cons]; omega) h₂ rfl
      rw [siblings_opens hm h₁, count_opens hm h₁]
      by_cases hf : fits e c' = true
      · rw [if_pos hf, List.length_cons, Nat.add_right_cancel_iff, hiff]
        refine ⟨.node hm h₁ hf, fun hp => ?_⟩
        cases hp with
        | closes hm' => simp [hm'] at hm
        | single hm' => simp [hm'] at hm
        | node _ hc _ hp =>
          rw [h₁] at hc
          cases hc
          exact hp
      · rw [if_neg hf]
        refine ⟨fun hl => by simp at hl, fun hp => ?_⟩
        cases hp with
        | closes hm' => simp [hm'] at hm
        | single hm' => simp [hm'] at hm
        | node _ hc hf' =>
          rw [h₁] at hc
          cases hc
          exact (hf hf').elim

end Nesting

end Genode.Lib
