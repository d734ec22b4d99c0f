import Mathlib.Data.List.Induction
import Genode.Util.ArgFind

/-!
# ArgRemove — the removal of an argument

The removal either moves the arguments behind the removed one to its
place, or ends the string in front of it. The tokens that stay are the
same, except for whitespace.
-/

namespace Genode.Util.Arg

open Lib Ascii ArgString

section Removal

variable {ts xs ys as bs sp p : List (List UInt8)} {x key s r g : List UInt8} {n : Nat}

theorem Tokens.zero_not_mem (h : Tokens ts) : (0 : UInt8) ∉ ts.flatten := by
  induction ts with
  | nil => simp
  | cons x xs ih =>
    rw [List.flatten_cons, List.mem_append, not_or]
    exact ⟨h.2.1, ih h.2.2.2⟩

theorem strlen_append (hs : (0 : UInt8) ∉ s) : strlen (s ++ 0 :: g) = s.length := by
  induction s with
  | nil => rfl
  | cons c s ih =>
    have hc : c ≠ 0 := fun hc => hs (hc ▸ List.mem_cons_self)
    rw [List.cons_append, strlen, if_neg hc, ih fun hz => hs (List.mem_cons_of_mem c hz),
      List.length_cons]

/-- A separator is a token whatever follows. -/
theorem Tokens.comma_cons (h : Tokens ts) : Tokens (commaToken :: ts) := by
  exact ⟨List.cons_ne_nil _ _, by decide, lexeme_comma ts.flatten, h⟩

/-- What stands behind a separator may be replaced. -/
theorem Tokens.replace (h : Tokens (bs ++ commaToken :: xs)) (hys : Tokens ys) :
    Tokens (bs ++ commaToken :: ys) :=
  h.append_congr hys.comma_cons (.inl rfl)

/-- Tokens may follow whitespace unless they begin with some. -/
theorem Tokens.space_cons (h : Tokens (x :: xs)) (hx : isSpace x = true) (hys : Tokens ys)
    (hdrop : Arg.dropSpace ys = ys) : Tokens (x :: ys) := by
  refine ⟨h.1, h.2.1, ?_, hys⟩
  have hlen := h.2.2.1
  cases x with
  | nil => exact absurd rfl h.1
  | cons c cs =>
    rw [List.cons_append, lexeme_space (c := c) hx, List.length_cons, Nat.add_right_cancel_iff,
      takeWhile_length_eq_iff rfl] at hlen ⊢
    refine ⟨hlen.1, ?_⟩
    cases ys with
    | nil => rfl
    | cons y ys =>
      rw [List.flatten_cons, charAt_append_left (List.length_pos_of_ne_nil hys.1)]
      rw [Arg.dropSpace] at hdrop
      split at hdrop
      · exact absurd (congrArg List.length hdrop) (by simp)
      · rename_i hy
        exact Bool.eq_false_iff.mpr hy

/-- The tokens in front of an argument may be followed by others. -/
theorem Front.replace (has : Front as) (h : Tokens (as ++ xs)) (hys : Tokens ys)
    (hdrop : dropSpace ys = ys) : Tokens (as ++ ys) := by
  rcases has with rfl | ⟨bs, sp, rfl, hsp⟩
  · exact hys
  · rw [List.append_assoc, List.cons_append] at h ⊢
    apply h.replace
    rcases hsp with rfl | ⟨x, hx, rfl⟩
    · exact hys
    · exact Tokens.space_cons (h.right.2.2.2) hx hys hdrop

/-! ## The end of the string -/

/-- The loop stops at the last character that is no space. -/
theorem eatSpaces_eq {c : UInt8} (hc : c ≠ space) (s r : List UInt8) (n : Nat) :
    eatSpaces (s ++ c :: (List.replicate n space ++ r)) (s.length + n) = s.length := by
  induction n generalizing r with
  | zero =>
    cases hs : s.length with
    | zero => rfl
    | succ k =>
      have hchar : charAt (s ++ c :: (List.replicate 0 space ++ r)) (k + 1) = c := by
        rw [charAt_append_right (by omega), hs, Nat.sub_self, charAt_cons_zero]
      rw [Nat.add_zero, eatSpaces, hchar, if_neg hc]
  | succ n ih =>
    have hchar : charAt (s ++ c :: (List.replicate (n + 1) space ++ r)) (s.length + n + 1) =
        space := by
      rw [charAt_append_right (by omega), show s.length + n + 1 - s.length = n + 1 by omega,
        charAt_cons_succ, charAt_append_left (by simp), charAt]
      simp
    rw [← Nat.add_assoc, eatSpaces, if_pos hchar, List.replicate_succ', List.append_assoc]
    exact ih (space :: r)

theorem exists_last_not_space {c : UInt8} (hc : c ≠ space) (s : List UInt8) :
    ∃ u d n, c :: s = u ++ d :: List.replicate n space ∧ d ≠ space := by
  induction s using List.reverseRecOn with
  | nil => exact ⟨[], c, 0, rfl, hc⟩
  | append_singleton s d ih =>
    by_cases hd : d = space
    · obtain ⟨u, e, n, hs, he⟩ := ih
      refine ⟨u, e, n + 1, ?_, he⟩
      rw [← List.cons_append, hs, hd, List.replicate_succ']
      simp
    · exact ⟨c :: s, d, 0, rfl, hd⟩

theorem memory_split (as xs : List (List UInt8)) (g : List UInt8) :
    (memory (as ++ xs) g).length - (memory xs g).length = as.flatten.length := by
  rw [memory_append, List.length_append]
  omega

theorem take_strlen (hs : (0 : UInt8) ∉ s) : (s ++ 0 :: g).take (strlen (s ++ 0 :: g) + 1) =
    s ++ [0] := by
  rw [strlen_append hs, List.take_length_add_append]
  rfl

theorem length_memcpy {mem src : List UInt8} {o : Nat} (h : o + src.length ≤ mem.length) :
    (memcpy mem o src).length = mem.length := by
  simp only [memcpy, List.length_append, List.length_take, List.length_drop]
  omega

/-- The arguments behind are moved to the place of the removed one. -/
theorem memcpy_memory (h : Tokens ys) (as xs : List (List UInt8)) (g : List UInt8) :
    ∃ g', memcpy (memory (as ++ xs) g) as.flatten.length
      ((memory ys g).take (strlen (memory ys g) + 1)) = memory (as ++ ys) g' := by
  have hstr : (memory ys g).take (strlen (memory ys g) + 1) = ys.flatten ++ [0] :=
    take_strlen h.zero_not_mem
  refine ⟨(memory (as ++ xs) g).drop (as.flatten.length + (ys.flatten ++ [0]).length), ?_⟩
  rw [hstr, memcpy, memory_append, memory_append, List.take_left, memory, List.append_assoc,
    List.append_assoc, List.singleton_append]
  rfl

/-- The tokens of a text of whitespace. -/
theorem exists_gap {u : List UInt8} (hu : u.all isWhitespace = true) :
    ∃ sp, IsGap sp ∧ Tokens sp ∧ sp.flatten = u := by
  cases u with
  | nil => exact ⟨[], .inl rfl, trivial, rfl⟩
  | cons c cs =>
    have hall := List.all_cons ▸ hu
    rw [Bool.and_eq_true] at hall
    have hspace : isSpace (c :: cs) = true := hall.1
    refine ⟨[c :: cs], .inr ⟨_, hspace, rfl⟩, ⟨List.cons_ne_nil c cs, ?_, ?_, trivial⟩, by simp⟩
    · exact fun hz => absurd (List.all_eq_true.mp hu 0 hz) (by decide)
    · rw [List.cons_append, lexeme_space hall.1, List.length_cons, Nat.add_right_cancel_iff,
        takeWhile_length_eq_iff rfl]
      exact ⟨hall.2, rfl⟩

theorem IsGap.all_space (hsp : IsGap sp) (h : Tokens (sp ++ xs)) :
    sp.flatten.all isWhitespace = true := by
  rcases hsp with rfl | ⟨x, hx, rfl⟩
  · rfl
  · have hlen := h.2.2.1
    cases x with
    | nil => exact absurd rfl h.1
    | cons c cs =>
      rw [List.cons_append, lexeme_space (c := c) hx, List.length_cons, Nat.add_right_cancel_iff,
        takeWhile_length_eq_iff rfl] at hlen
      have hc : isWhitespace c = true := hx
      simpa [hc] using hlen.1

/-- The string ends in front of the removed argument. -/
theorem cut_memory (h : Tokens (as ++ xs)) (has : Front as) (hxs : xs ≠ []) (g : List UInt8) :
    ∃ ts' g', (memory (as ++ xs) g).set
        (eatSpaces (memory (as ++ xs) g) (as.flatten.length - 1)) 0 = memory ts' g' ∧
      Tokens ts' ∧ hidden ts' = hidden as ∧ arguments ts' = arguments as ∧
      ts'.flatten.length ≤ as.flatten.length := by
  rcases has with rfl | ⟨bs, sp, rfl, hsp⟩
  · obtain ⟨x, xs, rfl⟩ := List.exists_cons_of_ne_nil hxs
    obtain ⟨c, cs, rfl⟩ := List.exists_cons_of_ne_nil h.1
    exact ⟨[], cs ++ memory xs g, by simp [memory, eatSpaces], trivial, rfl, rfl, le_rfl⟩
  · rw [List.append_assoc, List.cons_append] at h
    have htokens : Tokens (sp ++ xs) := h.right.2.2.2
    obtain ⟨u, d, n, hsplit, hd⟩ := exists_last_not_space (c := comma) (by decide) sp.flatten
    have hmemory : memory (bs ++ commaToken :: sp ++ xs) g =
        (bs.flatten ++ u) ++ d :: (List.replicate n space ++ memory xs g) := by
      have hflat : (bs ++ commaToken :: sp).flatten = bs.flatten ++ (comma :: sp.flatten) := by
        simp [commaToken]
      rw [memory_append, hflat, hsplit]
      simp
    have hpos : (bs ++ commaToken :: sp).flatten.length - 1 = (bs.flatten ++ u).length + n := by
      have hlen := congrArg List.length hsplit
      simp only [List.length_cons, List.length_append, List.length_replicate] at hlen
      simp only [List.flatten_append, List.flatten_cons, List.length_append, commaToken,
        List.length_singleton]
      omega
    have hset : (memory (bs ++ commaToken :: sp ++ xs) g).set (eatSpaces
        (memory (bs ++ commaToken :: sp ++ xs) g) ((bs ++ commaToken :: sp).flatten.length - 1)) 0 =
        (bs.flatten ++ u) ++ 0 :: (List.replicate n space ++ memory xs g) := by
      rw [hpos, hmemory, eatSpaces_eq hd, List.set_append_right _ _ le_rfl, Nat.sub_self]
      rfl
    rw [hset, hidden_append, arguments_append, hsp.arguments_eq_nil htokens.left, List.append_nil]
    cases u with
    | nil =>
      refine ⟨bs, _, by rw [List.append_nil]; rfl, h.left, rfl, rfl, ?_⟩
      rw [List.flatten_append, List.length_append]
      exact Nat.le_add_right _ _
    | cons c u =>
      -- some whitespace in front of the spaces stays
      obtain rfl : comma = c := (List.cons.inj hsplit).1
      have hflat : sp.flatten = u ++ d :: List.replicate n space := (List.cons.inj hsplit).2
      have hall := hsp.all_space htokens
      rw [hflat, List.all_append, Bool.and_eq_true] at hall
      obtain ⟨sp', hsp', hsptokens, rfl⟩ := exists_gap hall.1
      refine ⟨bs ++ commaToken :: sp', List.replicate n space ++ memory xs g, ?_,
        h.replace hsptokens, hidden_append bs sp', ?_, ?_⟩
      · simp [memory, commaToken]
      · rw [arguments_append, hsp'.arguments_eq_nil hsptokens, List.append_nil]
      · have hle := congrArg List.length hflat
        rw [List.length_append] at hle
        rw [List.flatten_append, List.flatten_append, List.flatten_cons, List.flatten_cons,
          List.length_append, List.length_append, List.length_append, List.length_append]
        omega

theorem dropSpace_of_startsIdent (h : startsIdent xs = true) : dropSpace xs = xs := by
  cases xs with
  | nil => rfl
  | cons x xs =>
    rw [dropSpace, if_neg]
    intro hx
    rw [startsIdent, not_isIdent_of_isSpace hx] at h
    cases h

/-- An argument reaches up to the next separator. -/
theorem arguments_of_startsIdent (h : startsIdent (p ++ commaToken :: ys) = true)
    (hc : commaToken ∉ p) :
    arguments (p ++ commaToken :: ys) = p :: arguments ys ∧
      keyOf p = keyOf (p ++ commaToken :: ys) := by
  cases p with
  | nil => cases h
  | cons x p =>
    have hp : startsIdent (x :: p) = true := h
    rw [arguments_append, arguments_piece hc, dropSpace_of_startsIdent hp, if_pos hp]
    exact ⟨rfl, rfl⟩

theorem Tokens.eq_nil_of_flatten {as xs : List (List UInt8)} (h : Tokens (as ++ xs))
    (hlen : as.flatten = []) : as = [] := by
  cases as with
  | nil => rfl
  | cons x as => exact absurd (List.append_eq_nil_iff.mp hlen).1 h.1

/-- The result of the removal of the argument at the beginning of `xs`. -/
structure Removed (as xs : List (List UInt8)) (g key : List UInt8) (ts' : List (List UInt8))
    (g' : List UInt8) : Prop where
  run : removeArg (memory (as ++ xs) g) key = (true, memory ts' g')
  tokens : Tokens ts'
  hidden : hidden ts' = hidden as
  args : ∃ a Q, arguments xs = a :: Q ∧ keyOf a = keyOf xs ∧ arguments ts' = arguments as ++ Q
  length : (memory ts' g').length = (memory (as ++ xs) g).length
  shorter : ts'.flatten.length < (as ++ xs).flatten.length

theorem removeArg_spec (h : Tokens (as ++ xs)) (has : Front as) (hxs : startsIdent xs = true)
    (hfind : findKey (memory (as ++ xs) g) key = tok (memory xs g)) :
    ∃ ts' g', Removed as xs g key ts' g' := by
  have hne : xs ≠ [] := by
    rintro rfl
    cases hxs
  have hbeg : (tok (memory xs g)).valid = true := (valid_tok h.right).mpr hne
  have hpos : 0 < xs.flatten.length := by
    apply List.length_pos_of_ne_nil
    intro hflat
    have htokens : Tokens (xs ++ []) := (List.append_nil xs).symm ▸ h.right
    exact hne (htokens.eq_nil_of_flatten hflat)
  have hcut : (nextKey (tok (memory xs g))).valid = false → ∃ ts' g',
      removeArg (memory (as ++ xs) g) key = (true, memory ts' g') ∧ Tokens ts' ∧
        Arg.hidden ts' = Arg.hidden as ∧ arguments ts' = arguments as ∧
        (memory ts' g').length = (memory (as ++ xs) g).length ∧
        ts'.flatten.length < (as ++ xs).flatten.length := by
    intro hlast
    obtain ⟨ts', g', hset, htokens, hhidden, hargs, hle⟩ := cut_memory h has hne g
    refine ⟨ts', g', ?_, htokens, hhidden, hargs, ?_, ?_⟩
    · simp only [removeArg, hfind, hbeg, hlast, rest_tok, memory_split, hset, Bool.not_true,
        Bool.not_false, Bool.false_eq_true, if_false, if_true]
    · rw [← hset, List.length_set]
    · rw [List.flatten_append, List.length_append]
      omega
  rcases eq_piece_or_split xs with hc | ⟨p, ys, rfl, hc⟩
  · have hlast : nextKey (tok (memory xs g)) = .null := nextKeyLoop_piece h.right hc
    obtain ⟨ts', g', hremove, htokens, hhidden, hargs, hlen, hlt⟩ := hcut (by rw [hlast]; rfl)
    refine ⟨ts', g', hremove, htokens, hhidden, ⟨xs, [], ?_, rfl, ?_⟩, hlen, hlt⟩
    · rw [arguments_piece hc, dropSpace_of_startsIdent hxs, if_pos hxs]
    · rw [hargs, List.append_nil]
  · obtain ⟨hargs, hkey⟩ := arguments_of_startsIdent hxs hc
    have hys : Tokens ys := h.right.right.2.2.2
    have hnext : nextKey (tok (memory (p ++ commaToken :: ys) g)) =
        tok (memory (dropSpace ys) g) := nextKey_comma h.right hc
    by_cases hend : dropSpace ys = []
    · obtain ⟨ts', g', hremove, htokens, hhidden, hargs', hlen, hlt⟩ := hcut (by
        rw [hnext, hend]
        exact Bool.eq_false_iff.mpr fun hv => (valid_tok (show Tokens [] from trivial)).mp hv rfl)
      refine ⟨ts', g', hremove, htokens, hhidden, ⟨p, arguments ys, hargs, hkey, ?_⟩, hlen, hlt⟩
      rw [hargs', ← hys.arguments_dropSpace, hend, arguments_nil, List.append_nil]
    · have hvalid := (valid_tok hys.dropSpace (g := g)).mpr hend
      obtain ⟨g', hmemcpy⟩ := memcpy_memory hys.dropSpace as (p ++ commaToken :: ys) g
      have htokens := has.replace h hys.dropSpace hys.dropSpace_dropSpace
      have hle : (dropSpace ys).flatten.length ≤ ys.flatten.length := by
        obtain ⟨sp, -, hsplit⟩ := isGap_dropSpace ys
        rw [congrArg List.flatten hsplit, List.flatten_append, List.length_append]
        exact Nat.le_add_left _ _
      have hstr : (memory (dropSpace ys) g).take (strlen (memory (dropSpace ys) g) + 1) =
          (dropSpace ys).flatten ++ [0] := take_strlen hys.dropSpace.zero_not_mem
      refine ⟨as ++ dropSpace ys, g', ?_, htokens, ?_, ⟨p, arguments ys, hargs, hkey, ?_⟩, ?_, ?_⟩
      · simp only [removeArg, hfind, hbeg, hnext, hvalid, rest_tok, memory_split, hmemcpy,
          Bool.not_true, Bool.false_eq_true, if_false]
      · rcases has with rfl | ⟨bs, sp, rfl, -⟩
        · exact hidden_of_dropSpace hys.dropSpace_dropSpace
        · rw [List.append_assoc, List.cons_append, hidden_append, hidden_append]
      · rw [has.arguments_append htokens, hys.arguments_dropSpace]
      · rw [← hmemcpy, length_memcpy]
        rw [hstr, memory, List.flatten_append, List.flatten_append, List.flatten_cons]
        simp only [List.length_append, List.length_cons, List.length_nil]
        omega
      · simp only [List.flatten_append, List.flatten_cons, List.length_append, commaToken,
          List.length_singleton]
        omega

end Removal

/-! ## What the functions promise -/

/-- The first argument that fits, if the search passes over the first one of
all when `h` is set. -/
def firstSeen (h : Bool) (l : List (List (List UInt8))) (p : List (List UInt8) → Bool) :
    Option Nat :=
  if h then (l.tail.findIdx? p).map (· + 1) else l.findIdx? p

/-- The argument at which the search for a key stops. -/
def foundIdx (ts : List (List UInt8)) (key : List UInt8) : Option Nat :=
  firstSeen (hidden ts) (arguments ts) (isPrefixOf key)

/-- The first argument with a key. -/
def exactIdx (ts : List (List UInt8)) (key : List UInt8) : Option Nat :=
  (arguments ts).findIdx? fun a => decide (keyOf a = key)

/-- `find_arg` yields the argument with the index, or none. -/
def Finds (ts : List (List UInt8)) (g key : List UInt8) : Option Nat → Prop
  | none => (findArg (memory ts g) key).valid = false
  | some i => ∃ as xs, ts = as ++ xs ∧ startsIdent xs = true ∧
      arguments xs = (arguments ts).drop i ∧ (findArg (memory ts g) key).key = tok (memory xs g)

/-- The arguments without one of them. -/
def eraseAt (l : List (List (List UInt8))) : Option Nat → List (List (List UInt8))
  | none => l
  | some i => l.eraseIdx i

/-- The index of an argument after the removal of another one. -/
def idxAfter : Option Nat → Nat → Nat
  | none, j => j
  | some i, j => if i < j then j - 1 else j

/-- `find_arg` finds the first argument with the key, and `remove_arg` removes
exactly this one, so that the search for another key yields the same as
before. -/
structure FindsAndRemoves (ts : List (List UInt8)) (g key other : List UInt8) : Prop where
  valid_iff : (findArg (memory ts g) key).valid = true ↔ ∃ a ∈ arguments ts, keyOf a = key
  finds : Finds ts g key (exactIdx ts key)
  removes : ∃ ts' g', removeArg (memory ts g) key = (true, memory ts' g') ∧ Tokens ts' ∧
    arguments ts' = eraseAt (arguments ts) (exactIdx ts key) ∧
    ∃ j, Finds ts g other j ∧ (∀ i, exactIdx ts key = some i → j ≠ some i) ∧
      Finds ts' g' other (j.map (idxAfter (exactIdx ts key)))

/-- No argument with another key is found, and none with the key is passed over. -/
def Clear (ts : List (List UInt8)) (key : List UInt8) : Prop :=
  (∀ a, (visible ts).find? (isPrefixOf key) = some a → keyOf a = key) ∧
    (hidden ts = true → keyOf (dropSpace ts) ≠ key)

/-- The argument that is found for the other key does not have the key. -/
def Untouched (ts : List (List UInt8)) (key other : List UInt8) : Prop :=
  ∀ a, (visible ts).find? (isPrefixOf other) = some a → keyOf a ≠ key

section FirstSeen

variable {h : Bool} {l P Q : List (List (List UInt8))} {a : List (List UInt8)}
  {p q : List (List UInt8) → Bool}

theorem firstSeen_append (hP : h = true → P ≠ [])
    (hfirst : ∀ b ∈ (if h then P.tail else P), p b = false) (ha : p a = true) :
    firstSeen h (P ++ a :: Q) p = some P.length := by
  have hgen : ∀ R : List (List (List UInt8)), (∀ b ∈ R, p b = false) →
      (R ++ a :: Q).findIdx? p = some R.length := by
    intro R hR
    rw [List.findIdx?_append, List.findIdx?_eq_none_iff.mpr hR, List.findIdx?_cons, if_pos ha]
    simp
  cases h with
  | false => exact hgen P hfirst
  | true =>
    obtain ⟨b, P, rfl⟩ := List.exists_cons_of_ne_nil (hP rfl)
    rw [firstSeen, if_pos rfl]
    show ((P ++ a :: Q).findIdx? p).map (· + 1) = _
    rw [hgen P hfirst]
    rfl

theorem firstSeen_eq_none (hnone : ∀ b ∈ (if h then l.tail else l), p b = false) :
    firstSeen h l p = none := by
  cases h with
  | false => exact List.findIdx?_eq_none_iff.mpr hnone
  | true =>
    have hnone' : l.tail.findIdx? p = none := List.findIdx?_eq_none_iff.mpr hnone
    rw [firstSeen, if_pos rfl, hnone']
    rfl

theorem idxAfter_succ (n j : Nat) : idxAfter (some n) j + 1 = idxAfter (some (n + 1)) (j + 1) := by
  simp only [idxAfter, Nat.add_lt_add_iff_right]
  split <;> omega

theorem findIdx?_erase (hne : (P ++ a :: Q).findIdx? p ≠ some P.length) :
    (P ++ Q).findIdx? p = ((P ++ a :: Q).findIdx? p).map (idxAfter (some P.length)) := by
  rw [List.findIdx?_append, List.findIdx?_append, List.findIdx?_cons] at *
  cases hP : P.findIdx? p with
  | some j =>
    have hj : j < P.length := (List.findIdx?_eq_some_iff_getElem.mp hP).1
    simp [idxAfter, Nat.not_lt_of_gt hj]
  | none =>
    by_cases ha : p a = true
    · simp [hP, ha] at hne
    · rw [if_neg ha]
      cases hQ : Q.findIdx? p with
      | none => rfl
      | some j =>
        simp [idxAfter]

/-- The search after the removal of an argument that it does not stop at. -/
theorem firstSeen_erase (hP : h = true → P ≠ [])
    (hne : firstSeen h (P ++ a :: Q) p ≠ some P.length) :
    firstSeen h (P ++ Q) p = (firstSeen h (P ++ a :: Q) p).map (idxAfter (some P.length)) := by
  cases h with
  | false => exact findIdx?_erase hne
  | true =>
    obtain ⟨b, P, rfl⟩ := List.exists_cons_of_ne_nil (hP rfl)
    have hcons : ∀ R, firstSeen true (b :: P ++ R) p = ((P ++ R).findIdx? p).map (· + 1) :=
      fun _ => rfl
    rw [hcons, hcons] at *
    rw [findIdx?_erase, Option.map_map, Option.map_map]
    · exact congrArg (Option.map · _) (funext fun j => idxAfter_succ P.length j)
    · intro heq
      rw [heq] at hne
      exact hne rfl

/-- Both searches stop at the same argument if the first one stops at one that
is right for the second one. -/
theorem findIdx?_eq_iff (hqp : ∀ b, q b = true → p b = true) :
    l.findIdx? p = l.findIdx? q ↔ ∀ b, l.find? p = some b → q b = true := by
  induction l with
  | nil => simp
  | cons b l ih =>
    rw [List.findIdx?_cons, List.findIdx?_cons, List.find?_cons]
    by_cases hp : p b = true
    · by_cases hq : q b = true
      · simp [hp, hq]
      · cases l.findIdx? q <;> simp [hp, hq]
    · have hq : q b = false := Bool.eq_false_iff.mpr fun hq => hp (hqp b hq)
      rw [if_neg hp, hq, if_neg Bool.false_ne_true, Bool.eq_false_iff.mpr hp, ← ih]
      exact (Option.map_injective Nat.succ_injective).eq_iff

end FirstSeen

section Keys

variable {ts : List (List UInt8)} {g key other : List UInt8}

theorem isPrefixOf_of_eq {b : List (List UInt8)} (h : keyOf b = key) : isPrefixOf key b = true := by
  rw [isPrefixOf, h]
  exact List.isPrefixOf_iff_prefix.mpr List.prefix_rfl

/-- The first argument behind whitespace. -/
theorem hidden_cons (h : hidden ts = true) :
    ∃ a l, arguments ts = a :: l ∧ keyOf a = keyOf (dropSpace ts) := by
  rw [hidden, Bool.and_eq_true] at h
  rcases eq_piece_or_split ts with hc | ⟨p, ys, rfl, hc⟩
  · rw [arguments_piece hc, if_pos h.1]
    exact ⟨_, [], rfl, rfl⟩
  · rw [dropSpace_append (.inr dropSpace_comma)] at h ⊢
    rw [arguments_append, arguments_piece hc]
    cases hp : dropSpace p with
    | nil =>
      rw [hp] at h
      cases h.1
    | cons x q =>
      rw [hp] at h
      have hident : startsIdent (x :: q) = true := h.1
      rw [if_pos hident]
      exact ⟨_, _, rfl, rfl⟩

theorem clear_iff : foundIdx ts key = exactIdx ts key ↔ Clear ts key := by
  have hiff : ∀ l : List (List (List UInt8)), l.findIdx? (isPrefixOf key) =
      l.findIdx? (fun a => decide (keyOf a = key)) ↔
        ∀ b, l.find? (isPrefixOf key) = some b → keyOf b = key := by
    intro l
    rw [findIdx?_eq_iff fun b hb => isPrefixOf_of_eq (of_decide_eq_true hb)]
    simp only [decide_eq_true_eq]
  unfold foundIdx exactIdx Clear visible
  cases hh : hidden ts with
  | false => simp [firstSeen, hiff]
  | true =>
    obtain ⟨a, l, hargs, hkey⟩ := hidden_cons hh
    rw [hargs, ← hkey, ← hiff, firstSeen, if_pos rfl, List.findIdx?_cons]
    by_cases ha : keyOf a = key
    · simp [ha]
    · simp only [ha, decide_false, Bool.false_eq_true, if_false, ne_eq, not_false_eq_true,
        implies_true, and_true]
      exact (Option.map_injective Nat.succ_injective).eq_iff

theorem map_succ_ne_iff {o o' : Option Nat} :
    (∀ i, o.map (· + 1) = some i → o'.map (· + 1) ≠ some i) ↔ ∀ i, o = some i → o' ≠ some i := by
  cases o <;> cases o' <;> simp

theorem findIdx?_ne_iff {l : List (List (List UInt8))}
    (hclear : ∀ b, l.find? (isPrefixOf key) = some b → keyOf b = key) :
    (∀ i, l.findIdx? (isPrefixOf key) = some i → l.findIdx? (isPrefixOf other) ≠ some i) ↔
      ∀ b, l.find? (isPrefixOf other) = some b → keyOf b ≠ key := by
  induction l with
  | nil => simp
  | cons b l ih =>
    rw [List.findIdx?_cons, List.findIdx?_cons, List.find?_cons]
    rw [List.find?_cons] at hclear
    by_cases hother : isPrefixOf other b = true
    · by_cases hkey : keyOf b = key
      · simp [hother, hkey, isPrefixOf_of_eq hkey]
      · have hpre : isPrefixOf key b = false := by
          by_contra hpre
          rw [Bool.not_eq_false] at hpre
          exact hkey (hclear b (by rw [hpre]))
        cases l.findIdx? (isPrefixOf key) <;> simp [hother, hpre, hkey]
    · by_cases hpre : isPrefixOf key b = true
      · have hkey : keyOf b = key := hclear b (by rw [hpre])
        have hne : ∀ c, l.find? (isPrefixOf other) = some c → keyOf c ≠ key := by
          intro c hc hck
          have hfits := List.find?_some hc
          rw [isPrefixOf, hck, ← hkey] at hfits
          exact hother hfits
        cases l.findIdx? (isPrefixOf other) <;> simpa [hother, hpre] using hne
      · rw [Bool.not_eq_true] at hother hpre
        rw [hpre] at hclear
        rw [hother, hpre, if_neg Bool.false_ne_true, if_neg Bool.false_ne_true, ← ih hclear]
        exact map_succ_ne_iff

theorem untouched_iff (hclear : Clear ts key) :
    (∀ i, exactIdx ts key = some i → foundIdx ts other ≠ some i) ↔ Untouched ts key other := by
  rw [← clear_iff.mpr hclear]
  unfold foundIdx Untouched
  have hfirst := hclear.1
  unfold visible at hfirst ⊢
  cases hh : hidden ts with
  | false =>
    rw [hh] at hfirst
    exact findIdx?_ne_iff hfirst
  | true =>
    rw [hh] at hfirst
    exact map_succ_ne_iff.trans (findIdx?_ne_iff hfirst)

/-! ## The search for a key, and the removal -/

theorem arguments_ne_nil_of_hidden (h : hidden ts = true) : arguments ts ≠ [] := by
  obtain ⟨a, l, hargs, -⟩ := hidden_cons h
  rw [hargs]
  exact List.cons_ne_nil a l

theorem tail_append_of_hidden (as : List (List UInt8)) (Q : List (List (List UInt8))) :
    (if hidden as then (arguments as ++ Q).tail else arguments as ++ Q) =
      (if hidden as then (arguments as).tail else arguments as) ++ Q := by
  split
  · rename_i hh
    exact List.tail_append_of_ne_nil (arguments_ne_nil_of_hidden hh)
  · rfl

theorem arguments_ne_nil {xs : List (List UInt8)} (h : startsIdent xs = true) :
    arguments xs ≠ [] := by
  rcases eq_piece_or_split xs with hc | ⟨p, ys, rfl, hc⟩
  · rw [arguments_piece hc, dropSpace_of_startsIdent h, if_pos h]
    exact List.cons_ne_nil xs []
  · rw [(arguments_of_startsIdent h hc).1]
    exact List.cons_ne_nil p (arguments ys)

/-- A place in the string determines the tokens from there on. -/
theorem Tokens.suffix_unique {as xs bs ys : List (List UInt8)} (h : Tokens (as ++ xs))
    (hsplit : as ++ xs = bs ++ ys) (hmemory : memory xs g = memory ys g) : xs = ys := by
  have hflat : xs.flatten = ys.flatten := List.append_cancel_right hmemory
  rcases List.append_eq_append_iff.mp hsplit with ⟨cs, rfl, rfl⟩ | ⟨cs, rfl, rfl⟩
  · rw [List.flatten_append] at hflat
    rw [h.right.eq_nil_of_flatten (List.append_left_eq_self.mp hflat), List.nil_append]
  · rw [hsplit] at h
    rw [List.flatten_append] at hflat
    rw [h.right.eq_nil_of_flatten (List.append_left_eq_self.mp hflat.symm), List.nil_append]

/-- The outcome of the search. -/
theorem foundIdx_spec (h : Tokens ts) (g key : List UInt8) :
    (foundIdx ts key = none ∧ (findKey (memory ts g) key).valid = false) ∨
      ∃ as xs, ts = as ++ xs ∧ Front as ∧ hidden as = hidden ts ∧
        (∀ a ∈ visible as, isPrefixOf key a = false) ∧ startsIdent xs = true ∧
        isPrefixOf key xs = true ∧ foundIdx ts key = some (arguments as).length ∧
        findKey (memory ts g) key = tok (memory xs g) := by
  rcases findKey_spec h g key with ⟨hnone, hvalid⟩ |
    ⟨as, xs, rfl, has, hhidden, hfirst, hident, hpre, hfound⟩
  · exact .inl ⟨firstSeen_eq_none hnone, hvalid⟩
  · obtain ⟨-, -, -, -, -, ⟨a, Q, hargs, hkey, -⟩, -⟩ := removeArg_spec h has hident hfound
    have ha : isPrefixOf key a = true := by rwa [isPrefixOf, hkey]
    refine .inr ⟨as, xs, rfl, has, hhidden, hfirst, hident, hpre, ?_, hfound⟩
    rw [foundIdx, has.arguments_append h, hargs, ← hhidden]
    exact firstSeen_append arguments_ne_nil_of_hidden hfirst ha

theorem finds_foundIdx (h : Tokens ts) (g key : List UInt8) :
    Finds ts g key (foundIdx ts key) := by
  rcases foundIdx_spec h g key with ⟨hnone, hvalid⟩ |
    ⟨as, xs, rfl, has, -, -, hident, -, hidx, hfound⟩
  · rw [hnone]
    exact hvalid
  · rw [hidx]
    refine ⟨as, xs, rfl, hident, ?_, hfound⟩
    rw [has.arguments_append h, List.drop_left]

theorem Finds.valid_iff (h : Tokens ts) {i : Option Nat} (hf : Finds ts g key i) :
    (findArg (memory ts g) key).valid = true ↔ i.isSome = true := by
  cases i with
  | none => exact iff_of_false (Bool.eq_false_iff.mp hf) Bool.false_ne_true
  | some i =>
    obtain ⟨as, xs, rfl, hident, -, hkey⟩ := hf
    refine iff_of_true ?_ rfl
    rw [Arg.valid, hkey, valid_tok h.right]
    rintro rfl
    cases hident

theorem Finds.unique (h : Tokens ts) {i j : Option Nat} (hi : Finds ts g key i)
    (hj : Finds ts g key j) : i = j := by
  have hsome := (hi.valid_iff h).symm.trans (hj.valid_iff h)
  cases i with
  | none =>
    cases j with
    | none => rfl
    | some j => cases hsome.mpr rfl
  | some i =>
    cases j with
    | none => cases hsome.mp rfl
    | some j =>
      obtain ⟨as, xs, rfl, hident, hargs, hkey⟩ := hi
      obtain ⟨bs, ys, hts, -, hargs', hkey'⟩ := hj
      have hmemory : memory xs g = memory ys g := by
        rw [← rest_tok (memory xs g), ← hkey, hkey', rest_tok]
      obtain rfl : xs = ys := h.suffix_unique hts hmemory
      have hlen := congrArg List.length (hargs.symm.trans hargs')
      have hpos := List.length_pos_of_ne_nil (arguments_ne_nil hident)
      rw [hargs] at hpos
      rw [List.length_drop] at hpos
      rw [List.length_drop, List.length_drop] at hlen
      congr 1
      omega

/-- What the removal leaves behind: the arguments without the one at which the
search stops, so that a search that stops at another one still does. -/
structure Leaves (ts : List (List UInt8)) (g key : List UInt8) (ts' : List (List UInt8))
    (g' : List UInt8) : Prop where
  run : removeArg (memory ts g) key = (true, memory ts' g')
  tokens : Tokens ts'
  length : (memory ts' g').length = (memory ts g).length
  args : arguments ts' = eraseAt (arguments ts) (foundIdx ts key)
  keeps : ∀ p, (∀ i, foundIdx ts key = some i → firstSeen (hidden ts) (arguments ts) p ≠ some i) →
    firstSeen (hidden ts') (arguments ts') p =
      (firstSeen (hidden ts) (arguments ts) p).map (idxAfter (foundIdx ts key))
  same : foundIdx ts key = none → ts' = ts ∧ g' = g
  visible : foundIdx ts key ≠ none → ∃ P a Q, visible ts = P ++ a :: Q ∧ visible ts' = P ++ Q ∧
    (∀ b ∈ P, isPrefixOf key b = false) ∧ isPrefixOf key a = true
  shorter : foundIdx ts key ≠ none → ts'.flatten.length < ts.flatten.length

theorem removeArg_leaves (h : Tokens ts) (g key : List UInt8) :
    ∃ ts' g', Leaves ts g key ts' g' := by
  rcases foundIdx_spec h g key with ⟨hnone, hvalid⟩ |
    ⟨as, xs, rfl, has, hhidden, hfirst, hident, hpre, hidx, hfound⟩
  · refine ⟨ts, g, ?_, h, rfl, ?_, fun p _ => ?_, fun _ => ⟨rfl, rfl⟩, absurd hnone,
      absurd hnone⟩
    · rw [removeArg]
      simp [hvalid]
    · rw [hnone]
      rfl
    · rw [hnone, show idxAfter none = id from rfl, Option.map_id, id_eq]
  · obtain ⟨ts', g', hremove, htokens, hhidden', ⟨a, Q, hargs, hkey, hargs'⟩, hlen, hlt⟩ :=
      removeArg_spec h has hident hfound
    have happend := has.arguments_append h
    refine ⟨ts', g', hremove, htokens, hlen, ?_, fun p hstop => ?_, fun hnone => ?_, fun _ => ?_,
      fun _ => hlt⟩
    · rw [happend, hargs, hargs', hidx, eraseAt, List.eraseIdx_append_of_length_le le_rfl]
      simp
    · have hne := hstop _ hidx
      rw [happend, hargs, ← hhidden] at hne
      rw [hhidden', hargs', happend, hargs, ← hhidden, hidx]
      exact firstSeen_erase arguments_ne_nil_of_hidden hne
    · rw [hidx] at hnone
      cases hnone
    · have hvisible : Arg.visible (as ++ xs) = Arg.visible as ++ a :: Q := by
        rw [Arg.visible, Arg.visible, happend, hargs, ← hhidden]
        exact tail_append_of_hidden as (a :: Q)
      have hvisible' : Arg.visible ts' = Arg.visible as ++ Q := by
        rw [Arg.visible, Arg.visible, hargs', hhidden']
        exact tail_append_of_hidden as Q
      have ha : isPrefixOf key a = true := by rwa [isPrefixOf, hkey]
      exact ⟨Arg.visible as, a, Q, hvisible, hvisible', hfirst, ha⟩

theorem exactIdx_isSome : (exactIdx ts key).isSome = true ↔ ∃ a ∈ arguments ts, keyOf a = key := by
  rw [exactIdx, List.findIdx?_isSome]
  simp

/-- `find_arg` and `remove_arg` do what they promise exactly if no argument
is passed over, and if neither the key nor the other one has the key of an
argument in front as a proper prefix. The string has no open quotation, and
its tokens are shorter than 4 GiB. -/
theorem findsAndRemoves_iff (h : Tokens ts) :
    FindsAndRemoves ts g key other ↔ Clear ts key ∧ Untouched ts key other := by
  have hfinds := finds_foundIdx h g
  constructor
  · intro hp
    obtain ⟨-, -, -, -, -, j, hj, hne, -⟩ := hp.removes
    have hclear : Clear ts key := clear_iff.mp ((hfinds key).unique h hp.finds)
    obtain rfl : foundIdx ts other = j := (hfinds other).unique h hj
    exact ⟨hclear, (untouched_iff hclear).mp hne⟩
  · intro hc
    obtain ⟨hclear, hother⟩ := hc
    have hexact : foundIdx ts key = exactIdx ts key := clear_iff.mpr hclear
    have hne := (untouched_iff hclear).mpr hother
    have hfind : Finds ts g key (exactIdx ts key) := hexact ▸ hfinds key
    refine ⟨(hfind.valid_iff h).trans exactIdx_isSome, hfind, ?_⟩
    obtain ⟨ts', g', hl⟩ := removeArg_leaves h g key
    have hargs := hl.args
    have hkeeps := hl.keeps (isPrefixOf other)
    rw [hexact] at hargs hkeeps
    refine ⟨ts', g', hl.run, hl.tokens, hargs, foundIdx ts other, hfinds other, hne, ?_⟩
    have hfinds' := finds_foundIdx hl.tokens g' other
    rwa [foundIdx, hkeeps hne] at hfinds'

end Keys

/-- A string with two arguments. -/
def twoArguments : List (List UInt8) :=
  [bytes ['a'], [equalSign], bytes ['1'], commaToken, [space], bytes ['b'], [equalSign], bytes ['2']]

theorem findsAndRemoves_two : Tokens twoArguments ∧
    FindsAndRemoves twoArguments [] (bytes ['a']) (bytes ['b']) := by
  have htokens : Tokens twoArguments := by decide
  refine ⟨htokens, (findsAndRemoves_iff htokens).mpr ⟨⟨?_, ?_⟩, ?_⟩⟩
  · intro a ha
    cases ha
    rfl
  · intro hh
    cases hh
  · intro a ha
    cases ha
    decide

/-- The key of the only argument is a proper prefix of the one that is asked for. -/
theorem findsAndRemoves_prefix_fails :
    Tokens [bytes ['a'], [equalSign], bytes ['1']] ∧ ¬ FindsAndRemoves
      [bytes ['a'], [equalSign], bytes ['1']] [] (bytes ['a', 'b']) (bytes ['c']) := by
  refine ⟨by decide, fun h => ?_⟩
  obtain ⟨a, ha, hkey⟩ := h.valid_iff.mp (by decide)
  have hall : ∀ a ∈ arguments [bytes ['a'], [equalSign], bytes ['1']],
      keyOf a ≠ bytes ['a', 'b'] := by decide
  exact hall a ha hkey

end Genode.Util.Arg
