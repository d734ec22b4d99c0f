import Mathlib.Data.List.Nodup
import Mathlib.Logic.Function.Basic

/-!
# Chain — linked lists as paths through a successor function

An intrusive list stores its links in the listed objects themselves, so
the memory it lives in is a function `next : ι → Option ι` from an
object to the pointer it holds (`none` is the null pointer). This
module relates such a function to the list of objects a traversal
visits. `Path` also covers segments that end somewhere in the middle of
a list, which is what an unlink in the middle needs.

Traversals run on fuel: a walk that visits more cells than there are
objects has come back to a cell it saw before and never ends.
-/

namespace Genode.Lib

variable {ι : Type*} {next next' : ι → Option ι} {p q : Option ι} {xs ys : List ι}

/-- Following `next` from the pointer `p` visits exactly the cells `xs`,
in this order, and arrives at the pointer `q`. -/
def Path (next : ι → Option ι) : Option ι → List ι → Option ι → Prop
  | p, [], q => p = q
  | p, x :: xs, q => p = some x ∧ Path next (next x) xs q

/-- A complete list: the path ends at the null pointer. -/
abbrev Chain (next : ι → Option ι) (p : Option ι) (xs : List ι) : Prop :=
  Path next p xs none

@[simp] theorem path_nil : Path next p [] q ↔ p = q := Iff.rfl

@[simp] theorem path_cons {x : ι} :
    Path next p (x :: xs) q ↔ p = some x ∧ Path next (next x) xs q := Iff.rfl

theorem path_append :
    Path next p (xs ++ ys) q ↔ ∃ r, Path next p xs r ∧ Path next r ys q := by
  induction xs generalizing p with
  | nil => simp
  | cons x xs ih =>
    simp only [List.cons_append, path_cons, ih]
    constructor
    · rintro ⟨hp, r, h1, h2⟩
      exact ⟨r, ⟨hp, h1⟩, h2⟩
    · rintro ⟨r, ⟨hp, h1⟩, h2⟩
      exact ⟨hp, r, h1, h2⟩

theorem path_concat {x : ι} :
    Path next p (xs ++ [x]) q ↔ Path next p xs (some x) ∧ next x = q := by
  rw [path_append]
  constructor
  · rintro ⟨r, h, hr, hq⟩
    exact ⟨hr ▸ h, hq⟩
  · rintro ⟨h, hq⟩
    exact ⟨some x, h, rfl, hq⟩

/-- A path only depends on the links of the cells it visits. -/
theorem Path.congr (h : Path next p xs q) (hn : ∀ x ∈ xs, next' x = next x) :
    Path next' p xs q := by
  induction xs generalizing p with
  | nil => exact h
  | cons x xs ih =>
    refine ⟨h.1, ?_⟩
    rw [hn x (by simp)]
    exact ih h.2 (fun y hy => hn y (by simp [hy]))

theorem Path.update [DecidableEq ι] (h : Path next p xs q) {x : ι} (hx : x ∉ xs)
    (v : Option ι) : Path (Function.update next x v) p xs q := by
  refine h.congr fun y hy => Function.update_of_ne ?_ _ _
  rintro rfl
  exact hx hy

/-- Redirecting the link of the last cell redirects the path. -/
theorem Path.update_last [DecidableEq ι] {x : ι} (h : Path next p (xs ++ [x]) q)
    (hx : x ∉ xs) (r : Option ι) : Path (Function.update next x r) p (xs ++ [x]) r := by
  rw [path_concat] at h ⊢
  exact ⟨h.1.update hx r, by simp⟩

theorem Path.head (h : Path next p xs q) (hne : xs ≠ []) : p = xs.head? := by
  cases xs with
  | nil => exact absurd rfl hne
  | cons x xs => simpa using h.1

theorem Chain.head_eq (h : Chain next p xs) : p = xs.head? := by
  cases xs with
  | nil => exact h
  | cons x xs => simpa using h.1

theorem Chain.unique (h : Chain next p xs) (h' : Chain next p ys) : xs = ys := by
  induction xs generalizing p ys with
  | nil =>
    cases ys with
    | nil => rfl
    | cons y ys => exact absurd (h.symm.trans h'.1) (by simp)
  | cons x xs ih =>
    cases ys with
    | nil => exact absurd (h.1.symm.trans h') (by simp)
    | cons y ys =>
      have hxy : x = y := by simpa using h.1.symm.trans h'.1
      subst hxy
      rw [ih h.2 h'.2]

/-- In a list without repetitions the link of a cell leads to the cell
behind it. -/
theorem Chain.next_eq {x : ι} (h : Chain next p (xs ++ x :: ys)) : next x = ys.head? := by
  obtain ⟨r, -, -, h2⟩ := path_append.mp h
  exact Chain.head_eq h2

/-! ## Linking and unlinking -/

theorem Chain.cons_update [DecidableEq ι] {x : ι} (h : Chain next p xs) (hx : x ∉ xs) :
    Chain (Function.update next x p) (some x) (x :: xs) := by
  refine ⟨rfl, ?_⟩
  rw [Function.update_self]
  exact h.update hx p

theorem Chain.concat_update [DecidableEq ι] {x t : ι} (h : Chain next p (xs ++ [t]))
    (ht : t ∉ xs) (hx : x ∉ xs ++ [t]) :
    Chain (Function.update (Function.update next t (some x)) x none) p (xs ++ [t] ++ [x]) := by
  refine path_concat.mpr ⟨(h.update_last ht (some x)).update hx none, ?_⟩
  exact Function.update_self ..

theorem Chain.unlink [DecidableEq ι] {a x : ι} (h : Chain next p (xs ++ a :: x :: ys))
    (hxs : a ∉ xs) (hys : a ∉ ys) : Chain (Function.update next a (next x)) p (xs ++ a :: ys) := by
  obtain ⟨r, h1, rfl, h2⟩ := path_append.mp h
  refine path_append.mpr ⟨some a, h1.update hxs _, rfl, ?_⟩
  rw [Function.update_self]
  exact h2.2.update hys _

/-- A family of disjoint lists stays disjoint if one of them gets only
members of its own or of none. -/
theorem disjoint_update {κ : Type*} [DecidableEq κ] {L : κ → List ι} {k : κ}
    (hdisj : ∀ {k k' x}, x ∈ L k → x ∈ L k' → k = k')
    (hsub : ∀ x ∈ xs, x ∈ L k ∨ ∀ k', x ∉ L k') {k₁ k₂ : κ} {x : ι}
    (h1 : x ∈ Function.update L k xs k₁) (h2 : x ∈ Function.update L k xs k₂) : k₁ = k₂ := by
  have hother : ∀ k', k' ≠ k → x ∈ L k' → x ∉ xs := by
    intro k' hk hx hxs
    rcases hsub x hxs with hxk | hno
    · exact hk (hdisj hx hxk)
    · exact hno k' hx
  by_cases hk1 : k₁ = k <;> by_cases hk2 : k₂ = k
  · rw [hk1, hk2]
  · subst hk1
    rw [Function.update_self] at h1
    rw [Function.update_of_ne hk2] at h2
    exact absurd h1 (hother k₂ hk2 h2)
  · subst hk2
    rw [Function.update_self] at h2
    rw [Function.update_of_ne hk1] at h1
    exact absurd h2 (hother k₁ hk1 h1)
  · rw [Function.update_of_ne hk1] at h1
    rw [Function.update_of_ne hk2] at h2
    exact hdisj h1 h2

/-! ## Traversals -/

/-- The cells a traversal from `p` visits, as far as it ends after at
most `n` cells. -/
def walk (next : ι → Option ι) : Nat → Option ι → Option (List ι)
  | _, none => some []
  | 0, some _ => none
  | n + 1, some x => (walk next n (next x)).map (x :: ·)

theorem Chain.walk_eq {n : Nat} (h : Chain next p xs) (hn : xs.length ≤ n) :
    walk next n p = some xs := by
  induction xs generalizing p n with
  | nil =>
    obtain rfl : p = none := h
    cases n <;> rfl
  | cons x xs ih =>
    cases n with
    | zero => simp at hn
    | succ n =>
      rw [h.1]
      simp only [walk, ih h.2 (by simpa using hn), Option.map_some]

/-- The loop that looks for the predecessor of `x`: advance from `e`
while there is a next cell and that cell is not `x`. -/
def seek [DecidableEq ι] (next : ι → Option ι) (x : ι) : Nat → ι → Option ι
  | 0, _ => none
  | n + 1, e =>
    match next e with
    | none => some e
    | some y => if y = x then some e else seek next x n y

/-- The search stops at the cell in front of `x`. -/
theorem Chain.seek_mem [DecidableEq ι] {n : Nat} {e a x : ι}
    (h : Chain next (some e) (xs ++ a :: x :: ys)) (hx : x ∉ xs ++ [a])
    (hn : xs.length < n) : seek next x n e = some a := by
  induction xs generalizing e n with
  | nil =>
    obtain ⟨n, rfl⟩ : ∃ m, n = m + 1 := ⟨n - 1, by simp at hn; omega⟩
    have hea : e = a := by simpa using h.1
    have hax : next a = some x := h.2.1
    subst hea
    simp [seek, hax]
  | cons b xs ih =>
    obtain ⟨n, rfl⟩ : ∃ m, n = m + 1 := ⟨n - 1, by simp at hn; omega⟩
    have heb : e = b := by simpa using h.1
    subst heb
    obtain ⟨c, hc⟩ : ∃ c, next e = some c := by
      have h2 := h.2.head (by simp)
      cases xs with
      | nil => exact ⟨a, by simpa using h2⟩
      | cons c xs => exact ⟨c, by simpa using h2⟩
    have hcx : c ≠ x := by
      have h2 := h.2.head (by simp)
      rw [hc] at h2
      rintro rfl
      cases xs with
      | nil => exact hx (by simp at h2; simp [h2])
      | cons d xs => exact hx (by simp at h2; simp [h2])
    have h2 : Chain next (some c) (xs ++ a :: x :: ys) := hc ▸ h.2
    simp only [seek, hc, if_neg hcx]
    exact ih h2 (fun hm => hx (by simp at hm ⊢; tauto)) (by simpa using hn)

/-- A search for a cell that does not follow runs to the last cell. -/
theorem Chain.seek_not_mem [DecidableEq ι] {n : Nat} {e x : ι}
    (h : Chain next (some e) xs) (hx : x ∉ xs.tail) (hn : xs.length ≤ n) :
    ∃ a, seek next x n e = some a ∧ next a = none := by
  induction xs generalizing e n with
  | nil => simp at h
  | cons b xs ih =>
    obtain ⟨n, rfl⟩ : ∃ m, n = m + 1 := ⟨n - 1, by simp at hn; omega⟩
    have heb : e = b := by simpa using h.1
    subst heb
    cases xs with
    | nil =>
      have he : next e = none := h.2
      exact ⟨e, by simp [seek, he], he⟩
    | cons c xs =>
      have hc : next e = some c := h.2.1
      have hcx : c ≠ x := by
        rintro rfl
        exact hx (by simp)
      have h2 : Chain next (some c) (c :: xs) := hc ▸ h.2
      obtain ⟨a, ha, hl⟩ := ih h2 (fun hm => hx (by simp at hm ⊢; tauto)) (by simpa using hn)
      exact ⟨a, by simp only [seek, hc, if_neg hcx, ha], hl⟩

end Genode.Lib
