import Genode.Os.Path

/-!
# PathCanonical — which paths are imported as their canonical form

The elements of a path are resolved from left to right. The passes keep a path
as a sequence of elements, up to two ends: where everything is cancelled no
slash is left, and a dot at the end of a name is taken for an element of its
own. An absolute path that is too long for the buffer is cut off.
-/

namespace Genode.Os

open Genode.Lib

namespace Path

/-! ## Resolved elements -/

/-- The element for the parent directory. -/
def doubleDot : List UInt8 := [dot, dot]

/-- One element is resolved behind the elements `es`. -/
def resolveStep (es : List (List UInt8)) (e : List UInt8) : List (List UInt8) :=
  if e = [] ∨ e = [dot] then es else if e = doubleDot then es.dropLast else es ++ [e]

def elements (path : List UInt8) : List (List UInt8) := path.splitOn slash

/-- The elements that are left of a path. -/
def resolve (path : List UInt8) : List (List UInt8) := (elements path).foldl resolveStep []

/-- The absolute path of resolved elements. -/
def canonical (es : List (List UInt8)) : List UInt8 :=
  if es = [] then [slash] else segments slash es

/-- The path names a directory by a slash or a single dot at its end, or else an element
is left and the last one does not end with a dot. -/
def KeepsEnd (path : List UInt8) : Prop :=
  (elements path).getLast? = some [] ∨ (elements path).getLast? = some [dot] ∨
    (∃ e, (resolve path).getLast? = some e ∧ e.getLast? ≠ some dot)

/-- An element that stands for itself. -/
def IsName (e : List UInt8) : Prop := slash ∉ e ∧ e ≠ [] ∧ e ≠ [dot] ∧ e ≠ doubleDot

/-- What `strip_double_dot_dirs` makes of an element behind the elements `es`. -/
def popStep (es : List (List UInt8)) (e : List UInt8) : List (List UInt8) :=
  if e = doubleDot then es.dropLast else es ++ [e]

variable {p l e s path : List UInt8} {ps qs es : List (List UInt8)} {n i : Nat}

/-! ## The passes over elements -/

theorem stripSuperfluousSlashes_append (hp : slash ∉ p) :
    stripSuperfluousSlashes (p ++ s) = p ++ stripSuperfluousSlashes s := by
  induction p with
  | nil => rfl
  | cons c p ih =>
    have hc : c ≠ slash := fun hc => hp (hc ▸ List.mem_cons_self)
    rw [List.cons_append, stripSuperfluousSlashes, if_neg (fun h => hc h.1),
      ih (fun h => hp (List.mem_cons_of_mem c h)), List.cons_append]

theorem stripSuperfluousSlashes_segments (h : Separated slash (ps ++ [l])) :
    stripSuperfluousSlashes (segments slash (ps ++ [l])) =
      segments slash (ps.filter (fun p => decide (p ≠ [])) ++ [l]) := by
  induction ps with
  | nil =>
    have hl : slash ∉ l := h.head
    have hhead : ¬ (l ++ segments slash []).head? = some slash := by
      rw [head?_append_segments hl]
      simp
    rw [List.nil_append, segments_cons, stripSuperfluousSlashes, if_neg (fun h => hhead h.2),
      stripSuperfluousSlashes_append hl]
    rfl
  | cons p ps ih =>
    have hp : slash ∉ p := Separated.head h
    have hhead : (p ++ segments slash (ps ++ [l])).head? = some slash ↔ p = [] := by
      rw [head?_append_segments hp]
      simp
    rw [List.cons_append, segments_cons, stripSuperfluousSlashes]
    by_cases hnil : p = []
    · rw [if_pos ⟨rfl, hhead.mpr hnil⟩, hnil, List.nil_append, ih h.tail]
      simp
    · rw [if_neg (fun h => hnil (hhead.mp h.2)), stripSuperfluousSlashes_append hp, ih h.tail]
      simp [hnil]

theorem stripSuperfluousDotslashes_cons {c : UInt8} (hc : c ≠ slash) :
    stripSuperfluousDotslashes (c :: s) = c :: stripSuperfluousDotslashes s := by
  cases s with
  | nil => rfl
  | cons d s => rw [stripSuperfluousDotslashes, if_neg (fun h => hc h.1)]

theorem stripSuperfluousDotslashes_append (hp : slash ∉ p) :
    stripSuperfluousDotslashes (p ++ s) = p ++ stripSuperfluousDotslashes s := by
  induction p with
  | nil => rfl
  | cons c p ih =>
    have hc : c ≠ slash := fun hc => hp (hc ▸ List.mem_cons_self)
    rw [List.cons_append, stripSuperfluousDotslashes_cons hc,
      ih (fun h => hp (List.mem_cons_of_mem c h)), List.cons_append]

/-- A slash is kept unless a dot and another slash follow. -/
theorem stripSuperfluousDotslashes_slash (hp : slash ∉ p)
    (h : ¬ (p = [dot] ∧ ps ≠ [])) :
    stripSuperfluousDotslashes (segments slash (p :: ps)) =
      slash :: p ++ stripSuperfluousDotslashes (segments slash ps) := by
  rw [segments_cons, List.cons_append, ← stripSuperfluousDotslashes_append hp]
  cases p with
  | nil =>
    cases ps with
    | nil => rfl
    | cons q qs => rw [List.nil_append, segments_cons, stripSuperfluousDotslashes,
        if_neg (fun h => absurd h.2.1 (by decide))]
  | cons c p =>
    rw [List.cons_append, stripSuperfluousDotslashes]
    apply if_neg
    intro hdot
    have hp' : slash ∉ p := fun hmem => hp (List.mem_cons_of_mem c hmem)
    obtain ⟨rfl, hne⟩ := (head?_append_segments hp').mp hdot.2.2
    exact h ⟨by rw [hdot.2.1], hne⟩

theorem stripSuperfluousDotslashes_segments (h : Separated slash (ps ++ [l])) :
    stripSuperfluousDotslashes (segments slash (ps ++ [l])) =
      segments slash (ps.filter (fun p => decide (p ≠ [dot])) ++ [l]) := by
  induction ps with
  | nil =>
    rw [List.nil_append, stripSuperfluousDotslashes_slash h.head (by simp)]
    simp [stripSuperfluousDotslashes]
  | cons p ps ih =>
    by_cases hdot : p = [dot]
    · subst hdot
      have hhead : (segments slash (ps ++ [l])).head? = some slash := segments_head? (by simp)
      rw [List.cons_append, segments_cons, List.singleton_append, stripSuperfluousDotslashes,
        if_pos ⟨rfl, rfl, hhead⟩, ih h.tail]
      simp
    · rw [List.cons_append, stripSuperfluousDotslashes_slash (Separated.head h)
        (fun h => hdot h.1), ih h.tail]
      simp [hdot]

/-! ## Double dots -/

theorem startsWithDoubleDot_segments (hp : slash ∉ p) :
    startsWithDoubleDot (segments slash (p :: ps)) = true ↔ p = doubleDot := by
  rcases p with _ | ⟨c, _ | ⟨d, _ | ⟨x, p⟩⟩⟩
  · cases ps <;> simp [startsWithDoubleDot, doubleDot, slash, dot]
  · cases ps <;> simp [startsWithDoubleDot, doubleDot, slash, dot]
  · cases ps <;> simp [startsWithDoubleDot, doubleDot]
  · have hx : x ≠ slash := fun hx => hp (by simp [hx])
    simp [startsWithDoubleDot, doubleDot, hx]

theorem findDoubleDotDirFrom_append (hp : slash ∉ p) :
    findDoubleDotDirFrom i (p ++ s) = findDoubleDotDirFrom (i + p.length) s := by
  induction p generalizing i with
  | nil => rfl
  | cons c p ih =>
    have hc : c ≠ slash := fun hc => hp (hc ▸ List.mem_cons_self)
    rw [List.cons_append, findDoubleDotDirFrom, if_neg (by simp [startsWithDoubleDot, hc]),
      ih (fun h => hp (List.mem_cons_of_mem c h)), List.length_cons]
    congr 1
    omega

theorem findDoubleDotDirFrom_cons (hp : slash ∉ p) (hne : p ≠ doubleDot) :
    findDoubleDotDirFrom i (segments slash (p :: ps)) =
      findDoubleDotDirFrom (i + (segments slash [p]).length) (segments slash ps) := by
  have hstart : ¬ startsWithDoubleDot (segments slash (p :: ps)) = true :=
    fun h => hne ((startsWithDoubleDot_segments hp).mp h)
  rw [segments_cons] at hstart ⊢
  rw [findDoubleDotDirFrom, if_neg hstart, findDoubleDotDirFrom_append hp]
  congr 1
  simp
  omega

theorem findDoubleDotDirFrom_eq_zero (h : Separated slash ps) (hnone : doubleDot ∉ ps) :
    findDoubleDotDirFrom i (segments slash ps) = 0 := by
  induction ps generalizing i with
  | nil => rfl
  | cons p ps ih =>
    have hne : p ≠ doubleDot := fun hp => hnone (hp ▸ List.mem_cons_self)
    rw [findDoubleDotDirFrom_cons h.head hne]
    exact ih h.tail fun hmem => hnone (List.mem_cons_of_mem p hmem)

/-- The first double dot is found, the index is the one behind its slash. -/
theorem findDoubleDotDirFrom_eq (h : Separated slash ps) (hnone : doubleDot ∉ ps) :
    findDoubleDotDirFrom i (segments slash (ps ++ doubleDot :: qs)) =
      i + (segments slash ps).length + 1 := by
  induction ps generalizing i with
  | nil =>
    have hstart : startsWithDoubleDot (segments slash (doubleDot :: qs)) = true :=
      (startsWithDoubleDot_segments (by decide)).mpr rfl
    rw [List.nil_append, segments_cons] at *
    rw [findDoubleDotDirFrom, if_pos hstart]
    rfl
  | cons p ps ih =>
    have hne : p ≠ doubleDot := fun hp => hnone (hp ▸ List.mem_cons_self)
    rw [List.cons_append, findDoubleDotDirFrom_cons h.head hne,
      ih h.tail fun hmem => hnone (List.mem_cons_of_mem p hmem)]
    simp
    omega

/-- The previous element is skipped back to its slash. -/
theorem skipElement_eq (hp : slash ∉ p) (hn : n ≤ p.length) :
    skipElement (s ++ slash :: p ++ l) (s.length + 1 + n) = s.length + 1 := by
  induction n with
  | zero =>
    rw [Nat.add_zero, skipElement]
    apply if_pos
    simp
  | succ n ih =>
    have hlt : n < p.length := hn
    have hget : (s ++ slash :: p ++ l)[s.length + 1 + n]? = some p[n] := by
      rw [List.append_assoc, List.getElem?_append_right (by omega),
        show s.length + 1 + n - s.length = n + 1 by omega]
      simp [List.getElem?_append, hlt]
    have hne : some p[n] ≠ some slash := by
      intro h
      exact hp (Option.some.inj h ▸ List.getElem_mem hlt)
    rw [← Nat.add_assoc, skipElement, hget, if_neg hne, ih (Nat.le_of_lt hlt)]

/-- A double dot is removed together with the element in front of it, if there is one. -/
theorem stripDoubleDotDir_eq (h : Separated slash ps) :
    stripDoubleDotDir (segments slash (ps ++ doubleDot :: qs))
      ((segments slash ps).length + 1) = segments slash (ps.dropLast ++ qs) := by
  rcases List.eq_nil_or_concat ps with rfl | ⟨ps, p, rfl⟩
  · rfl
  · have hp : slash ∉ p := h p (by simp)
    have hpath : segments slash (ps.concat p ++ doubleDot :: qs) =
        segments slash ps ++ slash :: p ++ (slash :: doubleDot ++ segments slash qs) := by
      simp
    have hlen : (segments slash (ps.concat p)).length =
        (segments slash ps).length + 1 + p.length := by
      simp
      omega
    rw [stripDoubleDotDir, hpath, hlen, Nat.add_sub_cancel, skipElement_eq hp (Nat.le_refl _)]
    simp only [Nat.succ_pos, if_true, Nat.add_sub_cancel, strip]
    rw [List.concat_eq_append, List.dropLast_concat, segments_append, List.append_assoc,
      List.take_left, List.drop_append]
    have hdrop : (segments slash ps).length +
        ((segments slash ps).length + 1 + p.length + 1 + 2 - (segments slash ps).length) =
        (segments slash ps).length + (slash :: p ++ slash :: doubleDot).length := by
      simp [doubleDot]
      omega
    rw [hdrop]
    simp

theorem foldl_popStep_of_not_mem (hnone : doubleDot ∉ ps) :
    ps.foldl popStep es = es ++ ps := by
  induction ps generalizing es with
  | nil => simp
  | cons p ps ih =>
    have hne : p ≠ doubleDot := fun hp => hnone (hp ▸ List.mem_cons_self)
    rw [List.foldl_cons, popStep, if_neg hne, ih fun hmem => hnone (List.mem_cons_of_mem p hmem)]
    simp

/-- Each round removes a double dot, and the elements that are left give the same. -/
theorem stripDoubleDotDirsLoop_eq (h : Separated slash ps) (hn : ps.count doubleDot ≤ n) :
    stripDoubleDotDirsLoop n (segments slash ps) = segments slash (ps.foldl popStep []) := by
  induction n generalizing ps with
  | zero =>
    have hnone : doubleDot ∉ ps := List.count_eq_zero.mp (Nat.le_zero.mp hn)
    rw [stripDoubleDotDirsLoop, foldl_popStep_of_not_mem hnone, List.nil_append]
  | succ n ih =>
    rw [stripDoubleDotDirsLoop]
    by_cases hmem : doubleDot ∈ ps
    · obtain ⟨as, bs, rfl, hnone⟩ := List.eq_append_cons_of_mem hmem
      have has : Separated slash as := h.subset (List.subset_append_left _ _)
      have hfind : findDoubleDotDir (segments slash (as ++ doubleDot :: bs)) =
          (segments slash as).length + 1 := by
        rw [findDoubleDotDir, findDoubleDotDirFrom_eq has hnone, Nat.zero_add]
      have hsub : as.dropLast ++ bs ⊆ as ++ doubleDot :: bs := by
        intro x hx
        rcases List.mem_append.mp hx with hx | hx
        · exact List.mem_append_left _ (List.dropLast_subset as hx)
        · exact List.mem_append_right _ (List.mem_cons_of_mem _ hx)
      have hnone' : doubleDot ∉ as.dropLast := fun hx => hnone (List.dropLast_subset as hx)
      have hcount : (as.dropLast ++ bs).count doubleDot ≤ n := by
        rw [List.count_append, List.count_eq_zero.mpr hnone, List.count_cons_self] at hn
        rw [List.count_append, List.count_eq_zero.mpr hnone']
        omega
      rw [hfind, if_neg (Nat.succ_ne_zero _), stripDoubleDotDir_eq has, ih (h.subset hsub) hcount,
        List.foldl_append, List.foldl_append, List.foldl_cons,
        foldl_popStep_of_not_mem hnone, foldl_popStep_of_not_mem hnone', popStep, if_pos rfl]
      rfl
    · rw [findDoubleDotDir, if_pos (findDoubleDotDirFrom_eq_zero h hmem),
        foldl_popStep_of_not_mem hmem, List.nil_append]

theorem count_le_length_segments : ps.count e ≤ (segments slash ps).length := by
  induction ps with
  | nil => exact Nat.le_refl _
  | cons p ps ih =>
    rw [List.count_cons, segments_cons, List.length_cons, List.length_append]
    split <;> omega

theorem foldl_popStep_filter :
    ((ps.filter fun p => decide (p ≠ [])).filter fun p => decide (p ≠ [dot])).foldl popStep es =
      ps.foldl resolveStep es := by
  induction ps generalizing es with
  | nil => rfl
  | cons p ps ih =>
    rw [List.foldl_cons, ← ih]
    by_cases hnil : p = []
    · simp [hnil, resolveStep]
    · by_cases hdot : p = [dot]
      · simp [hdot, resolveStep]
      · simp [hnil, hdot, resolveStep, popStep]

/-- The passes resolve the elements in front of the last one. The last one is only
resolved if it is a double dot. -/
theorem canonicalize_segments (h : Separated slash (ps ++ [l])) :
    canonicalize (segments slash (ps ++ [l])) =
      removeTrailing dot (segments slash (popStep (ps.foldl resolveStep []) l)) := by
  have hsub (f : List UInt8 → Bool) (qs : List (List UInt8)) :
      qs.filter f ++ [l] ⊆ qs ++ [l] :=
    (List.filter_sublist.append_right [l]).subset
  have hslashes := h.subset (hsub (fun p => decide (p ≠ [])) ps)
  have hdots := hslashes.subset (hsub (fun p => decide (p ≠ [dot])) _)
  rw [canonicalize, stripSuperfluousSlashes_segments h,
    stripSuperfluousDotslashes_segments hslashes, stripDoubleDotDirs,
    stripDoubleDotDirsLoop_eq hdots count_le_length_segments, List.foldl_append,
    foldl_popStep_filter]
  rfl

/-! ## The elements of an absolute path -/

theorem exists_segments (h : path.head? = some slash) :
    ∃ ps l, path = segments slash (ps ++ [l]) ∧ Separated slash (ps ++ [l]) := by
  obtain ⟨u, rfl⟩ : ∃ u, path = slash :: u := List.head?_eq_some_iff.mp h
  rcases List.eq_nil_or_concat (u.splitOn slash) with hnil | ⟨ps, l, hl⟩
  · exact absurd hnil (List.splitOn_ne_nil slash u)
  · rw [List.concat_eq_append] at hl
    refine ⟨ps, l, ?_, ?_⟩
    · rw [← hl, segments_splitOn]
    · rw [← hl]
      exact separated_splitOn u

theorem getLast?_elements (h : Separated slash (ps ++ [l])) :
    (elements (segments slash (ps ++ [l]))).getLast? = some l := by
  rw [elements, splitOn_segments h, ← List.cons_append, List.getLast?_concat]

theorem resolve_segments (h : Separated slash (ps ++ [l])) :
    resolve (segments slash (ps ++ [l])) = resolveStep (ps.foldl resolveStep []) l := by
  rw [resolve, elements, splitOn_segments h, List.foldl_cons, List.foldl_append]
  rfl

theorem isName_resolveStep (hes : ∀ e ∈ es, IsName e) (hp : slash ∉ p) :
    ∀ e ∈ resolveStep es p, IsName e := by
  intro e he
  unfold resolveStep at he
  split at he
  · exact hes e he
  · rename_i hdot
    split at he
    · exact hes e (List.dropLast_subset es he)
    · rename_i hdouble
      rcases List.mem_append.mp he with he | he
      · exact hes e he
      · obtain rfl := List.mem_singleton.mp he
        exact ⟨hp, fun h => hdot (.inl h), fun h => hdot (.inr h), hdouble⟩

theorem isName_foldl_resolveStep (hes : ∀ e ∈ es, IsName e) (h : Separated slash ps) :
    ∀ e ∈ ps.foldl resolveStep es, IsName e := by
  induction ps generalizing es with
  | nil => exact hes
  | cons p ps ih => exact ih (isName_resolveStep hes h.head) h.tail

/-- Names are resolved to themselves. -/
theorem foldl_resolveStep_names (h : ∀ p ∈ ps, IsName p) :
    ps.foldl resolveStep es = es ++ ps := by
  induction ps generalizing es with
  | nil => simp
  | cons p ps ih =>
    obtain ⟨-, hnil, hdot, hdouble⟩ := h p List.mem_cons_self
    rw [List.foldl_cons, resolveStep, if_neg (by simp [hnil, hdot]), if_neg hdouble,
      ih fun q hq => h q (List.mem_cons_of_mem p hq)]
    simp

/-! ## The end of a path -/

theorem removeTrailing_of_ne {c : UInt8} (h : s.getLast? ≠ some c) : removeTrailing c s = s :=
  if_neg fun hc => h hc.2

theorem getLast?_segments (he : e ≠ []) :
    (segments slash (es ++ [e])).getLast? = e.getLast? := by
  rcases List.eq_nil_or_concat e with rfl | ⟨e, c, rfl⟩
  · exact absurd rfl he
  · rw [segments_append, segments_cons, segments_nil, List.append_nil, List.concat_eq_append,
      ← List.cons_append, ← List.append_assoc, List.getLast?_concat, List.getLast?_concat]

/-- A slash behind names is kept. -/
theorem canonicalize_slash (h : ∀ e ∈ es, IsName e) :
    canonicalize (segments slash es ++ [slash]) = segments slash es ++ [slash] := by
  have htext : segments slash es ++ [slash] = segments slash (es ++ [[]]) := by simp
  have hsep : Separated slash (es ++ [[]]) := by
    intro p hp
    rcases List.mem_append.mp hp with hp | hp
    · exact (h p hp).1
    · rw [List.mem_singleton.mp hp]
      exact List.not_mem_nil
  rw [htext, canonicalize_segments hsep, foldl_resolveStep_names h, List.nil_append, popStep,
    if_neg (by decide), ← htext]
  apply removeTrailing_of_ne
  simp [slash, dot]

/-- Names are kept if the last one does not end with a dot. -/
theorem canonicalize_names (h : ∀ e ∈ es ++ [l], IsName e) (hl : l.getLast? ≠ some dot) :
    canonicalize (segments slash (es ++ [l])) = segments slash (es ++ [l]) := by
  have hname := h l (by simp)
  rw [canonicalize_segments fun p hp => (h p hp).1,
    foldl_resolveStep_names fun e he => h e (List.mem_append_left _ he), List.nil_append,
    popStep, if_neg hname.2.2.2]
  apply removeTrailing_of_ne
  rw [getLast?_segments hname.2.1]
  exact hl

/-- The canonical path of resolved elements, with or without a slash at its end. -/
def IsCanonical (es : List (List UInt8)) (s : List UInt8) : Prop :=
  s = canonical es ∨ es ≠ [] ∧ s = canonical es ++ [slash]

theorem head?_of_isCanonical (h : IsCanonical es s) : s.head? = some slash := by
  have hcanonical : (canonical es).head? = some slash := by
    unfold canonical
    split
    · rfl
    · rename_i hne
      exact segments_head? hne
  obtain rfl | ⟨-, rfl⟩ := h
  · exact hcanonical
  · rw [List.head?_append, hcanonical]
    rfl

theorem isName_resolve (h : Separated slash (ps ++ [l])) :
    ∀ e ∈ resolve (segments slash (ps ++ [l])), IsName e := by
  rw [resolve_segments h]
  apply isName_resolveStep _ (h l (by simp))
  exact isName_foldl_resolveStep (by simp) (h.subset (List.subset_append_left ps [l]))

/-- A path that ends with a slash or a single dot. -/
theorem canonicalize_directory (h : Separated slash (ps ++ [l])) (hl : l = [] ∨ l = [dot]) :
    canonicalize (segments slash (ps ++ [l])) =
      segments slash (resolve (segments slash (ps ++ [l]))) ++ [slash] := by
  rw [canonicalize_segments h, resolve_segments h, resolveStep, if_pos hl]
  obtain rfl | rfl := hl
  · rw [popStep, if_neg (by decide), segments_append]
    apply removeTrailing_of_ne
    simp [slash, dot]
  · rw [popStep, if_neg (by decide), segments_append, removeTrailing, if_pos (by simp)]
    simp

/-- Every other path. -/
theorem canonicalize_name (h : Separated slash (ps ++ [l])) (hl : ¬ (l = [] ∨ l = [dot])) :
    canonicalize (segments slash (ps ++ [l])) =
      removeTrailing dot (segments slash (resolve (segments slash (ps ++ [l])))) := by
  rw [canonicalize_segments h, resolve_segments h, resolveStep, if_neg hl]
  rfl

theorem canonicalize_of_keepsEnd (h : path.head? = some slash) (hend : KeepsEnd path) :
    IsCanonical (resolve path) (canonicalize path) ∧
      canonicalize (canonicalize path) = canonicalize path := by
  obtain ⟨ps, l, rfl, hsep⟩ := exists_segments h
  have hnames := isName_resolve hsep
  unfold KeepsEnd at hend
  rw [getLast?_elements hsep] at hend
  by_cases hl : l = [] ∨ l = [dot]
  · rw [canonicalize_directory hsep hl]
    refine ⟨?_, canonicalize_slash hnames⟩
    unfold IsCanonical canonical
    split
    · rename_i hnil
      left
      rw [hnil]
      rfl
    · rename_i hne
      exact .inr ⟨hne, rfl⟩
  · obtain ⟨e, hlast, hdot⟩ : ∃ e, (resolve (segments slash (ps ++ [l]))).getLast? = some e ∧
        e.getLast? ≠ some dot := by
      rcases hend with hnil | hdot | hkept
      · exact absurd (.inl (Option.some.inj hnil)) hl
      · exact absurd (.inr (Option.some.inj hdot)) hl
      · exact hkept
    rw [canonicalize_name hsep hl]
    obtain ⟨es, hes⟩ := List.getLast?_eq_some_iff.mp hlast
    rw [hes] at hnames ⊢
    have hkeep : removeTrailing dot (segments slash (es ++ [e])) = segments slash (es ++ [e]) := by
      apply removeTrailing_of_ne
      rw [getLast?_segments (hnames e (by simp)).2.1]
      exact hdot
    rw [hkeep]
    refine ⟨.inl ?_, canonicalize_names hnames hdot⟩
    rw [canonical, if_neg (by simp)]

/-- Otherwise nothing is left, or the last name loses its dot. -/
theorem canonicalize_of_not_keepsEnd (h : path.head? = some slash) (hend : ¬ KeepsEnd path) :
    ¬ IsCanonical (resolve path) (canonicalize path) := by
  obtain ⟨ps, l, rfl, hsep⟩ := exists_segments h
  unfold KeepsEnd at hend
  rw [getLast?_elements hsep] at hend
  have hl : ¬ (l = [] ∨ l = [dot]) := by
    rintro (rfl | rfl)
    · exact hend (.inl rfl)
    · exact hend (.inr (.inl rfl))
  have hnames := isName_resolve hsep
  rw [canonicalize_name hsep hl]
  rcases List.eq_nil_or_concat (resolve (segments slash (ps ++ [l]))) with hnil | ⟨es, e, hes⟩
  · rw [hnil]
    simp [IsCanonical, canonical, removeTrailing]
  · rw [List.concat_eq_append] at hes
    rw [hes] at hnames hend ⊢
    have hdot : e.getLast? = some dot := by
      by_contra hne
      exact hend (.inr (.inr ⟨e, List.getLast?_concat, hne⟩))
    have hlast : (segments slash (es ++ [e])).getLast? = some dot := by
      rw [getLast?_segments (hnames e (by simp)).2.1]
      exact hdot
    have hlong : 1 < (segments slash (es ++ [e])).length := by
      have hpos := List.length_pos_of_ne_nil (hnames e (by simp)).2.1
      simp
      omega
    rw [removeTrailing, if_pos ⟨hlong, hlast⟩]
    -- the path is one character shorter than the canonical one
    intro hcanonical
    have hlen : (segments slash (es ++ [e])).dropLast.length =
        (segments slash (es ++ [e])).length - 1 := List.length_dropLast
    obtain heq | ⟨-, heq⟩ := hcanonical
    · rw [heq, canonical, if_neg (by simp)] at hlen
      omega
    · rw [heq, canonical, if_neg (by simp), List.length_append] at hlen
      omega

end Path

/-! ## The import -/

namespace PathBase

open Genode.Os.Path

variable {maxLen : Nat}

/-- The path, appended to the working directory if it is relative. -/
def fullPath (path : List UInt8) (pwd : Option (List UInt8)) : List UInt8 :=
  if absolute path then path
  else if path = [] then orRoot pwd
  else if endsWith slash (orRoot pwd) then orRoot pwd ++ path
  else orRoot pwd ++ slash :: path

/-- A working directory that is missing or absolute. -/
def AbsolutePwd (pwd : Option (List UInt8)) : Prop :=
  ∀ w ∈ pwd, w = [] ∨ absolute w = true

/-- The import of a path is refused, or all of the path is imported and becomes its
canonical form, which another import keeps. -/
def Canonicalizes (self : PathBase maxLen) (path : List UInt8) (pwd : Option (List UInt8)) :
    Prop :=
  self.import (some path) pwd = .error .tooLong ∨
    ∃ p, self.import (some path) pwd = .ok p ∧
      (∃ text, self.importText path pwd = .ok text ∧ text.path = fullPath path pwd) ∧
      IsCanonical (resolve (fullPath path pwd)) p.path ∧
      ∀ pwd', p.import (some p.path) pwd' = .ok p

/-- `import` checks whether the buffer takes the path, and it does not. -/
def Refused (maxLen : Nat) (path : List UInt8) (pwd : Option (List UInt8)) : Prop :=
  absolute path = false ∧ path ≠ [] ∧ maxLen ≤ (fullPath path pwd).length + 1

variable {self : PathBase maxLen} {path : List UInt8} {pwd : Option (List UInt8)}

theorem absolute_orRoot (h : AbsolutePwd pwd) : absolute (orRoot pwd) = true := by
  unfold orRoot
  cases pwd with
  | none => rfl
  | some w =>
    dsimp only
    split
    · rfl
    · rename_i hlen
      obtain rfl | hw := h w rfl
      · exact absurd rfl hlen
      · exact hw

theorem head?_fullPath (path : List UInt8) (h : AbsolutePwd pwd) : (fullPath path pwd).head? = some slash := by
  have hroot : (orRoot pwd).head? = some slash := of_decide_eq_true (absolute_orRoot h)
  unfold fullPath
  split
  · rename_i habs
    exact of_decide_eq_true habs
  · split
    · exact hroot
    · split <;> rw [List.head?_append, hroot] <;> rfl

/-- A path that is absolute or empty is cut to the size of the buffer. -/
theorem importText_eq (h : absolute path = true ∨ path = []) :
    ∃ text, self.importText path pwd = .ok text ∧
      text.path = (fullPath path pwd).take (maxLen - 1) := by
  unfold importText fullPath
  by_cases habs : absolute path = true
  · rw [if_pos habs, if_pos habs]
    exact ⟨_, rfl, rfl⟩
  · obtain rfl := h.resolve_left habs
    exact ⟨_, rfl, rfl⟩

theorem append_eq_error (h : maxLen ≤ path.length + self.path.length + 1) :
    self.append path = .error .tooLong := dif_pos h

theorem append_eq_ok (self : PathBase maxLen) (h : path.length + self.path.length + 1 < maxLen) :
    ∃ p, self.append path = .ok p ∧ p.path = self.path ++ path := by
  unfold append
  rw [dif_neg (Nat.not_le.mpr h)]
  refine ⟨_, rfl, ?_⟩
  dsimp only
  rw [List.take_of_length_le (by omega)]

/-- What `import` appends to the working directory. -/
theorem appendRelative_eq (self : PathBase maxLen) (hne : path ≠ []) :
    (maxLen ≤ (if endsWith slash self.path then self.path ++ path
        else self.path ++ slash :: path).length + 1 ∧
      (self.appendSlashIfNeeded >>= fun p => p.append path) = .error .tooLong) ∨
    ((if endsWith slash self.path then self.path ++ path
        else self.path ++ slash :: path).length + 1 < maxLen ∧
      ∃ p, (self.appendSlashIfNeeded >>= fun p => p.append path) = .ok p ∧
        p.path = if endsWith slash self.path then self.path ++ path
          else self.path ++ slash :: path) := by
  have hlen := List.length_pos_of_ne_nil hne
  unfold appendSlashIfNeeded
  by_cases hend : endsWith slash self.path = true
  · simp only [hend, if_true, List.length_append]
    by_cases hlong : maxLen ≤ path.length + self.path.length + 1
    · exact .inl ⟨by omega, append_eq_error hlong⟩
    · exact .inr ⟨by omega, append_eq_ok _ (Nat.lt_of_not_le hlong)⟩
  · simp only [hend, Bool.false_eq_true, if_false, List.length_append, List.length_cons]
    by_cases hslash : maxLen ≤ [slash].length + self.path.length + 1
    · rw [append_eq_error hslash]
      rw [List.length_singleton] at hslash
      exact .inl ⟨by omega, rfl⟩
    · obtain ⟨p, hp, hpath⟩ := append_eq_ok self (Nat.lt_of_not_le hslash)
      have hplen : p.path.length = self.path.length + 1 := by rw [hpath]; simp
      rw [hp]
      by_cases hlong : maxLen ≤ path.length + p.path.length + 1
      · exact .inl ⟨by omega, append_eq_error hlong⟩
      · obtain ⟨p', hp', hpath'⟩ := append_eq_ok _ (Nat.lt_of_not_le hlong)
        refine .inr ⟨by omega, p', hp', ?_⟩
        rw [hpath', hpath, List.append_assoc, List.singleton_append]

/-- Any other path is appended as a whole or refused. -/
theorem importText_relative (habs : absolute path = false) (hne : path ≠ []) :
    (maxLen ≤ (fullPath path pwd).length + 1 ∧ self.importText path pwd = .error .tooLong) ∨
      (fullPath path pwd).length + 1 < maxLen ∧
        ∃ text, self.importText path pwd = .ok text ∧ text.path = fullPath path pwd := by
  have hlen : path.length ≠ 0 := fun h => hne (List.length_eq_zero_iff.mp h)
  have happend := appendRelative_eq (self.copyCstring (orRoot pwd)) hne
  unfold importText
  rw [if_neg (by simp [habs]), if_neg hlen]
  by_cases hfits : (orRoot pwd).length < maxLen
  · have hcopy : (self.copyCstring (orRoot pwd)).path = orRoot pwd :=
      List.take_of_length_le (by omega)
    have hfull : fullPath path pwd = if endsWith slash (orRoot pwd) then orRoot pwd ++ path
        else orRoot pwd ++ slash :: path := by
      rw [fullPath, if_neg (by simp [habs]), if_neg hne]
    rw [hcopy] at happend
    rw [hfull]
    exact happend
  · -- the working directory alone fills the buffer
    have hpos := self.fits
    have hcopy : (self.copyCstring (orRoot pwd)).path.length = maxLen - 1 := by
      simp [copyCstring]
      omega
    left
    constructor
    · unfold fullPath
      rw [if_neg (by simp [habs]), if_neg hne]
      split <;> simp <;> omega
    · obtain ⟨-, herror⟩ | ⟨hlt, -⟩ := happend
      · exact herror
      · exfalso
        have hpath := List.length_pos_of_ne_nil hne
        split at hlt <;> simp at hlt <;> omega

/-- What is imported is the canonicalized text; it is imported again as it is, if the
canonicalization keeps it. -/
theorem import_eq {text : PathBase maxLen} (h : self.importText path pwd = .ok text) :
    self.import (some path) pwd = .ok text.canonicalized := by
  show (self.importText path pwd).map canonicalized = _
  rw [h]
  rfl

theorem import_again {p : PathBase maxLen} (habs : p.path.head? = some slash)
    (hkept : canonicalize p.path = p.path) (pwd : Option (List UInt8)) :
    p.import (some p.path) pwd = .ok p := by
  have hfits := p.fits
  have htext : p.importText p.path pwd = .ok p := by
    have habs : absolute p.path = true := decide_eq_true habs
    unfold importText
    rw [if_pos habs]
    congr 1
    ext1
    exact List.take_of_length_le (by omega)
  rw [import_eq htext]
  congr 1
  ext1
  exact hkept

/-- A path that is not refused is imported as far as the buffer takes it. -/
theorem importText_cases (self : PathBase maxLen) (path : List UInt8)
    (pwd : Option (List UInt8)) :
    (Refused maxLen path pwd ∧ self.importText path pwd = .error .tooLong) ∨
      ¬ Refused maxLen path pwd ∧ ∃ text, self.importText path pwd = .ok text ∧
        text.path = (fullPath path pwd).take (maxLen - 1) := by
  by_cases hcut : absolute path = true ∨ path = []
  · right
    refine ⟨fun hrefused => ?_, importText_eq hcut⟩
    obtain habs | hnil := hcut
    · exact absurd hrefused.1 (by simp [habs])
    · exact hrefused.2.1 hnil
  · have habs : absolute path = false := by
      cases h : absolute path
      · rfl
      · exact absurd (.inl h) hcut
    have hne : path ≠ [] := fun hnil => hcut (.inr hnil)
    obtain ⟨hlong, herror⟩ | ⟨hlt, text, htext, hpath⟩ := importText_relative habs hne
    · exact .inl ⟨⟨habs, hne, hlong⟩, herror⟩
    · refine .inr ⟨fun hrefused => absurd hrefused.2.2 (by omega), text, htext, ?_⟩
      rw [hpath, List.take_of_length_le (by omega)]

/-- For every buffer and path, and every working directory that is absolute or missing:
the import is right exactly if it refuses the path, or the buffer takes all of it and the
canonicalization keeps its end. Buffers are shorter than 2^31, as an `int` counts within
them. -/
theorem canonicalizes_iff (self : PathBase maxLen) (path : List UInt8)
    (pwd : Option (List UInt8)) (h : AbsolutePwd pwd) :
    self.Canonicalizes path pwd ↔ Refused maxLen path pwd ∨
      (fullPath path pwd).length < maxLen ∧ KeepsEnd (fullPath path pwd) := by
  have hhead := head?_fullPath path h
  obtain ⟨hrefused, herror⟩ | ⟨hpassed, text, htext, hpath⟩ := importText_cases self path pwd
  · apply iff_of_true _ (.inl hrefused)
    left
    show (self.importText path pwd).map canonicalized = _
    rw [herror]
    rfl
  · have himport := import_eq htext
    constructor
    · intro hright
      right
      obtain herror | ⟨p, hp, ⟨text', htext', hwhole⟩, hcanonical, -⟩ := hright
      · rw [himport] at herror
        cases herror
      · obtain rfl := Except.ok.inj (himport.symm.trans hp)
        obtain rfl := Except.ok.inj (htext.symm.trans htext')
        refine ⟨hwhole ▸ text.fits, ?_⟩
        by_contra hend
        apply canonicalize_of_not_keepsEnd hhead hend
        rw [← hwhole]
        rw [← hwhole] at hcanonical
        exact hcanonical
    · intro hcond
      obtain ⟨hfits, hend⟩ := hcond.resolve_left hpassed
      have hwhole : text.path = fullPath path pwd := by
        rw [hpath, List.take_of_length_le (by omega)]
      obtain ⟨hcanonical, hkept⟩ := canonicalize_of_keepsEnd hhead hend
      rw [← hwhole] at hcanonical hkept
      refine .inr ⟨_, himport, ⟨text, htext, hwhole⟩, hwhole ▸ hcanonical, ?_⟩
      exact import_again (head?_of_isCanonical hcanonical) hkept

def emptyPath : PathBase 64 := ⟨[], by decide⟩

theorem canonicalizes_iff_relative : emptyPath.Canonicalizes [0x61] (some [slash, 0x62]) ↔
    Refused 64 [0x61] (some [slash, 0x62]) ∨
      (fullPath [0x61] (some [slash, 0x62])).length < 64 ∧
        KeepsEnd (fullPath [0x61] (some [slash, 0x62])) :=
  canonicalizes_iff emptyPath [0x61] (some [slash, 0x62]) fun w hw => .inr (by
    obtain rfl := Option.some.inj hw
    rfl)

/-- A directory `a` below the root, and its parent. -/
def parentOfTop : List UInt8 := [slash, 0x61, slash, dot, dot]

/-- What is imported is the empty string. -/
theorem parentOfTop_not_canonical : emptyPath.import (some parentOfTop) none = .ok emptyPath ∧
    ¬ emptyPath.Canonicalizes parentOfTop none := by
  have himport : emptyPath.import (some parentOfTop) none = .ok emptyPath := by decide
  refine ⟨himport, ?_⟩
  intro hright
  obtain herror | ⟨p, hp, -, hcanonical, -⟩ := hright
  · rw [himport] at herror
    cases herror
  · rw [himport] at hp
    obtain rfl := Except.ok.inj hp
    have hhead := head?_of_isCanonical hcanonical
    cases hhead

end PathBase

end Genode.Os
