import Mathlib.Data.List.Basic
import Genode.Util.ArgString

/-!
# ArgFind — the search for an argument and its removal

The arguments of a string are the pieces between the commas that begin
with an identifier. The search compares keys with `strcmp` for the length
of the token only, so that it also stops at a key that is a proper prefix
of the one that it looks for; and it does not skip whitespace in front of
the first argument.
-/

namespace Genode.Util.Arg

open Lib Ascii ArgString

/-- The argument begins with its key. -/
def startsIdent : List (List UInt8) → Bool
  | [] => false
  | x :: _ => isIdent x

def keyOf (a : List (List UInt8)) : List UInt8 := a.headD []

/-- The arguments of a string. -/
def arguments (ts : List (List UInt8)) : List (List (List UInt8)) :=
  ((ts.splitOn commaToken).map dropSpace).filter startsIdent

section Pieces

variable {ts xs ys p : List (List UInt8)} {x : List UInt8} {g : List UInt8} {n : Nat}

theorem Tokens.right (h : Tokens (xs ++ ys)) : Tokens ys := by
  induction xs with
  | nil => exact h
  | cons x xs ih => exact ih h.2.2.2

/-- What follows a sequence of tokens may be replaced. -/
theorem Tokens.append_congr {zs : List (List UInt8)} (h : Tokens (xs ++ ys)) (hz : Tokens zs)
    (hc : charAt zs.flatten 0 = charAt ys.flatten 0 ∨ isSeparator (charAt zs.flatten 0)) :
    Tokens (xs ++ zs) := by
  induction xs with
  | nil => exact hz
  | cons x xs ih =>
    refine ⟨h.1, h.2.1, (lexeme_append_congr h.2.2.1 h.1 ?_).1, ih h.2.2.2⟩
    show charAt (xs ++ zs).flatten 0 = charAt (xs ++ ys).flatten 0 ∨
      isSeparator (charAt (xs ++ zs).flatten 0)
    rw [List.flatten_append, List.flatten_append]
    cases hxs : xs.flatten with
    | nil => exact hc
    | cons c cs => exact .inl rfl

theorem Tokens.left (h : Tokens (xs ++ ys)) : Tokens xs := by
  have happend := h.append_congr (show Tokens [] from trivial) (.inr (by decide))
  rwa [List.append_nil] at happend

theorem Tokens.length_lt (h : Tokens ts) : ts.length < (memory ts g).length := by
  induction ts with
  | nil => simp [memory]
  | cons x xs ih =>
    have hx := List.length_pos_of_ne_nil h.1
    have hxs := ih h.2.2.2
    rw [memory_cons, List.length_append, List.length_cons]
    omega

theorem isSpace_comma : isSpace commaToken = false := by decide

theorem dropSpace_append (hp : p ≠ [] ∨ dropSpace ys = ys) :
    dropSpace (p ++ ys) = dropSpace p ++ ys := by
  cases p with
  | nil => simpa [dropSpace] using hp
  | cons x p =>
    rw [List.cons_append, dropSpace, dropSpace]
    split <;> rfl

theorem dropSpace_comma : dropSpace (commaToken :: xs) = commaToken :: xs := by
  rw [dropSpace, isSpace_comma]
  rfl

theorem lexeme_space {c : UInt8} (hc : isWhitespace c = true) (s : List UInt8) :
    lexeme identifierWithUnderline (c :: s) = (s.takeWhile isWhitespace).length + 1 := by
  have hcases : c = 0x09 ∨ c = 0x20 ∨ c = 0x0a := by simpa [isWhitespace, or_assoc] using hc
  rcases hcases with rfl | rfl | rfl <;> rfl

/-- Behind whitespace there is another kind of token. -/
theorem Tokens.not_space (h : Tokens (x :: xs)) (hx : isSpace x = true) : dropSpace xs = xs := by
  cases x with
  | nil => exact absurd rfl h.1
  | cons c cs =>
    have hlen := h.2.2.1
    rw [List.cons_append, lexeme_space (c := c) hx, List.length_cons, Nat.add_right_cancel_iff,
      takeWhile_length_eq_iff rfl] at hlen
    cases xs with
    | nil => rfl
    | cons y ys =>
      have hy := List.length_pos_of_ne_nil h.2.2.2.1
      rw [List.flatten_cons, charAt_append_left hy] at hlen
      rw [dropSpace, isSpace, hlen.2]
      rfl

theorem arguments_append (xs ys : List (List UInt8)) :
    arguments (xs ++ commaToken :: ys) = arguments xs ++ arguments ys := by
  rw [arguments, List.splitOn_append_cons_self, List.map_append, List.filter_append]
  rfl

theorem arguments_piece (hp : commaToken ∉ p) :
    arguments p = if startsIdent (dropSpace p) then [dropSpace p] else [] := by
  rw [arguments, List.splitOn_eq_singleton hp, List.map_singleton]
  by_cases h : startsIdent (dropSpace p) = true
  · simp [h]
  · simp [h]

theorem eq_piece_or_split (ts : List (List UInt8)) :
    commaToken ∉ ts ∨ ∃ p xs, ts = p ++ commaToken :: xs ∧ commaToken ∉ p := by
  by_cases h : commaToken ∈ ts
  · obtain ⟨p, xs, hts, hp⟩ := List.eq_append_cons_of_mem h
    exact .inr ⟨p, xs, hts, hp⟩
  · exact .inl h

theorem dropSpace_suffix (xs : List (List UInt8)) :
    dropSpace xs = xs ∨ ∃ x, isSpace x = true ∧ xs = x :: dropSpace xs := by
  cases xs with
  | nil => exact .inl rfl
  | cons x xs =>
    rw [dropSpace]
    split
    · rename_i hx
      exact .inr ⟨x, hx, rfl⟩
    · exact .inl rfl

theorem dropSpace_sublist (xs : List (List UInt8)) : (dropSpace xs).Sublist xs := by
  cases xs with
  | nil => exact .refl []
  | cons x xs =>
    rw [dropSpace]
    split
    · exact List.sublist_cons_self x xs
    · exact .refl (x :: xs)

theorem Tokens.dropSpace (h : Tokens xs) : Tokens (Arg.dropSpace xs) := by
  rcases dropSpace_suffix xs with hxs | ⟨x, -, hxs⟩
  · rwa [hxs]
  · rw [hxs] at h
    exact h.2.2.2

theorem Tokens.dropSpace_dropSpace (h : Tokens xs) :
    Arg.dropSpace (Arg.dropSpace xs) = Arg.dropSpace xs := by
  rcases dropSpace_suffix xs with hxs | ⟨x, hx, hxs⟩
  · rw [hxs, hxs]
  · rw [hxs] at h
    exact Tokens.not_space h hx

/-- Whitespace at the beginning belongs to no argument. -/
theorem Tokens.arguments_dropSpace (h : Tokens xs) : arguments (Arg.dropSpace xs) = arguments xs := by
  have hpiece : ∀ {p : List (List UInt8)}, Tokens p → commaToken ∉ p →
      arguments (Arg.dropSpace p) = arguments p := by
    intro p h hp
    have hp' : commaToken ∉ Arg.dropSpace p := fun hc => hp ((dropSpace_sublist p).mem hc)
    rw [arguments_piece hp, arguments_piece hp', h.dropSpace_dropSpace]
  rcases eq_piece_or_split xs with hp | ⟨p, ys, rfl, hp⟩
  · exact hpiece h hp
  · rw [dropSpace_append (.inr dropSpace_comma), arguments_append, arguments_append,
      hpiece h.left hp]

/-! ## The next key -/

theorem nextKeyLoop_comma (h : Tokens (p ++ commaToken :: xs)) (hp : commaToken ∉ p)
    (hn : p.length < n) :
    nextKeyLoop n (tok (memory (p ++ commaToken :: xs) g)) = tok (memory (dropSpace xs) g) := by
  induction n generalizing p with
  | zero => omega
  | succ n ih =>
    rw [nextKeyLoop, if_pos ((valid_tok h).mpr (by simp))]
    cases p with
    | nil =>
      rw [List.nil_append] at h ⊢
      rw [char_tok h, if_pos (h.comma_iff.mpr rfl), next_tok h, eatWhitespace_tok h.2.2.2]
    | cons x p =>
      rw [List.cons_append] at h ⊢
      have hx : charAt x 0 ≠ comma := fun hx => hp (by simp [h.comma_iff.mp hx])
      rw [char_tok h, if_neg hx, next_tok h, eatWhitespace_tok h.2.2.2,
        dropSpace_append (.inr dropSpace_comma)]
      have hdrop := h.2.2.2.dropSpace
      rw [dropSpace_append (.inr dropSpace_comma)] at hdrop
      apply ih hdrop
      · exact fun hc => hp (List.mem_cons_of_mem _ ((dropSpace_sublist p).mem hc))
      · have hle := (dropSpace_sublist p).length_le
        rw [List.length_cons] at hn
        omega

theorem nextKeyLoop_piece (h : Tokens p) (hp : commaToken ∉ p) :
    nextKeyLoop n (tok (memory p g)) = .null := by
  induction n generalizing p with
  | zero => rfl
  | succ n ih =>
    rw [nextKeyLoop]
    cases p with
    | nil => rw [if_neg fun hv => (valid_tok h).mp hv rfl]
    | cons x p =>
      have hx : charAt x 0 ≠ comma := fun hx => hp (by simp [h.comma_iff.mp hx])
      rw [if_pos ((valid_tok h).mpr (List.cons_ne_nil x p)), char_tok h, if_neg hx, next_tok h,
        eatWhitespace_tok h.2.2.2]
      exact ih h.2.2.2.dropSpace fun hc =>
        hp (List.mem_cons_of_mem _ ((dropSpace_sublist p).mem hc))

theorem nextKey_comma (h : Tokens (p ++ commaToken :: xs)) (hp : commaToken ∉ p) :
    nextKey (tok (memory (p ++ commaToken :: xs) g)) = tok (memory (dropSpace xs) g) := by
  have hlen := h.length_lt (g := g)
  rw [List.length_append] at hlen
  exact nextKeyLoop_comma h hp (by rw [rest_tok]; omega)

end Pieces

/-! ## The search -/

/-- The key of the argument is a prefix of the text. -/
def isPrefixOf (key : List UInt8) (a : List (List UInt8)) : Bool := (keyOf a).isPrefixOf key

/-- At most one token of whitespace. -/
def IsGap (sp : List (List UInt8)) : Prop := sp = [] ∨ ∃ x, isSpace x = true ∧ sp = [x]

/-- The tokens in front of an argument: none, or a separator and whitespace
at their end. -/
def Front (as : List (List UInt8)) : Prop :=
  as = [] ∨ ∃ bs sp, as = bs ++ commaToken :: sp ∧ IsGap sp

section Search

variable {ts xs ys p : List (List UInt8)} {x key r g : List UInt8} {n : Nat}

theorem strcmpLen_iff (hx : (0 : UInt8) ∉ x) :
    strcmpLen key (x ++ r) x.length 0 = true ↔ x <+: key := by
  have hgen : ∀ len i, i + len = x.length → (strcmpLen key (x ++ r) len i = true ↔
      ∀ j, i ≤ j → j < x.length → charAt key j = charAt x j) := by
    intro len
    induction len with
    | zero =>
      intro i hi
      simp only [strcmpLen, true_iff]
      intro j hij hj
      omega
    | succ len ih =>
      intro i hi
      have hxi : charAt x i ∈ x := charAt_mem (by omega)
      have hne : charAt x i ≠ 0 := fun h₀ => hx (h₀ ▸ hxi)
      rw [strcmpLen, charAt_append_left (by omega)]
      by_cases heq : charAt key i = charAt x i
      · rw [if_pos ⟨heq ▸ hne, heq⟩, ih (i + 1) (by omega)]
        constructor
        · intro h j hij hj
          rcases Nat.eq_or_lt_of_le hij with rfl | hlt
          · exact heq
          · exact h j hlt hj
        · exact fun h j hij hj => h j (by omega) hj
      · rw [if_neg fun h => heq h.2]
        simp only [heq, decide_false, Bool.false_eq_true, false_iff]
        exact fun h => heq (h i le_rfl (by omega))
  rw [hgen x.length 0 (by omega), List.prefix_iff_getElem?]
  constructor
  · intro h i hi
    have heq := h i (Nat.zero_le i) hi
    have hxi : charAt x i = x[i] := by simp [charAt, List.getElem?_eq_getElem hi]
    rw [hxi, charAt] at heq
    cases hkey : key[i]? with
    | none =>
      rw [hkey] at heq
      exact absurd (List.getElem_mem hi) (heq ▸ hx)
    | some c =>
      rw [hkey] at heq
      exact congrArg some heq
  · intro h j _ hj
    rw [charAt, h j hj, charAt, List.getElem?_eq_getElem hj]

theorem isGap_dropSpace (xs : List (List UInt8)) : ∃ sp, IsGap sp ∧ xs = sp ++ dropSpace xs := by
  rcases dropSpace_suffix xs with hxs | ⟨x, hx, hxs⟩
  · exact ⟨[], .inl rfl, hxs.symm⟩
  · exact ⟨[x], .inr ⟨x, hx, rfl⟩, hxs⟩

/-- Whitespace in front of tokens belongs to no argument. -/
theorem IsGap.arguments_append {sp : List (List UInt8)} (hsp : IsGap sp) (h : Tokens (sp ++ xs)) :
    arguments (sp ++ xs) = arguments xs := by
  rcases hsp with rfl | ⟨x, hx, rfl⟩
  · rfl
  · rw [← h.arguments_dropSpace]
    simp [dropSpace, hx]

theorem arguments_nil : arguments [] = [] := rfl

theorem IsGap.arguments_eq_nil {sp : List (List UInt8)} (hsp : IsGap sp) (h : Tokens sp) :
    arguments sp = [] := by
  rw [← List.append_nil sp] at h ⊢
  exact hsp.arguments_append h

theorem Front.arguments_append {as : List (List UInt8)} (has : Front as) (h : Tokens (as ++ xs)) :
    arguments (as ++ xs) = arguments as ++ arguments xs := by
  rcases has with rfl | ⟨bs, sp, rfl, hsp⟩
  · rfl
  · rw [List.append_assoc, List.cons_append] at h ⊢
    have hxs : Tokens (sp ++ xs) := h.right.2.2.2
    rw [Arg.arguments_append, Arg.arguments_append, hsp.arguments_append hxs,
      hsp.arguments_eq_nil hxs.left, List.append_nil]

theorem Front.comma {as : List (List UInt8)} (has : Front as) (ts : List (List UInt8))
    {sp : List (List UInt8)} (hsp : IsGap sp) : Front (ts ++ commaToken :: (sp ++ as)) := by
  rcases has with rfl | ⟨bs, sp', rfl, hsp'⟩
  · exact .inr ⟨ts, sp, by simp, hsp⟩
  · exact .inr ⟨ts ++ commaToken :: (sp ++ bs), sp', by simp, hsp'⟩

/-- The key at the beginning of the memory is examined. -/
theorem matches_iff (h : Tokens (x :: xs)) :
    typeOf (tok (memory (x :: xs) g)) = .ident ∧
        strcmpLen key (rest (tok (memory (x :: xs) g))) (tok (memory (x :: xs) g)).len 0 = true ↔
      startsIdent (x :: xs) = true ∧ isPrefixOf key (x :: xs) = true := by
  have hlen : (tok (memory (x :: xs) g)).len = x.length := h.lexeme g
  rw [typeOf_eq_ident_iff h, hlen, rest_tok, memory_cons, strcmpLen_iff h.2.1]
  exact and_congr_right fun _ => List.isPrefixOf_iff_prefix.symm

theorem findKeyLoop_null : findKeyLoop key n .null = .null := by
  cases n <;> rfl

/-- The search from the beginning of an argument on. -/
theorem findKeyLoop_spec (key g : List UInt8) (h : Tokens ts) (hts : dropSpace ts = ts) (hn : ts.length < n) :
    ((∀ a ∈ arguments ts, isPrefixOf key a = false) ∧
        (findKeyLoop key n (tok (memory ts g))).valid = false) ∨
      ∃ as xs, ts = as ++ xs ∧ Front as ∧ (∀ a ∈ arguments as, isPrefixOf key a = false) ∧
        startsIdent xs = true ∧ isPrefixOf key xs = true ∧
        findKeyLoop key n (tok (memory ts g)) = tok (memory xs g) := by
  induction n generalizing ts with
  | zero => omega
  | succ n ih =>
    rw [findKeyLoop]
    cases ts with
    | nil =>
      rw [if_neg fun hv => (valid_tok h).mp hv rfl]
      exact .inl ⟨by simp [arguments_nil], rfl⟩
    | cons x xs =>
      rw [if_pos ((valid_tok h).mpr (List.cons_ne_nil x xs))]
      by_cases hm : startsIdent (x :: xs) = true ∧ isPrefixOf key (x :: xs) = true
      · rw [if_pos ((matches_iff h).mpr hm)]
        exact .inr ⟨[], x :: xs, rfl, .inl rfl, by simp [arguments_nil], hm.1, hm.2, rfl⟩
      · rw [if_neg fun hm' => hm ((matches_iff h).mp hm')]
        generalize x :: xs = ts at h hts hn hm
        have hpiece : ∀ p ys, ts = p ++ ys → commaToken ∉ p → dropSpace p = p →
            ∀ a ∈ arguments p, isPrefixOf key a = false := by
          intro p ys hp hc hdrop a ha
          rw [arguments_piece hc, hdrop] at ha
          split at ha
          · rename_i hident
            obtain rfl := List.mem_singleton.mp ha
            cases a with
            | nil => cases hident
            | cons y ys' =>
              rw [hp, List.cons_append] at hm
              exact Bool.eq_false_iff.mpr fun hpre => hm ⟨hident, hpre⟩
          · cases ha
        rcases eq_piece_or_split ts with hc | ⟨p, ys, rfl, hc⟩
        · rw [nextKey, nextKeyLoop_piece h hc, findKeyLoop_null]
          exact .inl ⟨hpiece ts [] (List.append_nil ts).symm hc hts, rfl⟩
        · have hdrop : dropSpace p = p := by
            rw [dropSpace_append (.inr dropSpace_comma)] at hts
            exact List.append_cancel_right hts
          have hys : Tokens ys := h.right.2.2.2
          obtain ⟨sp, hsp, hsplit⟩ := isGap_dropSpace ys
          have hlen := (dropSpace_sublist ys).length_le
          rw [List.length_append, List.length_cons] at hn
          have hp := hpiece p _ rfl hc hdrop
          rw [nextKey_comma h hc, arguments_append]
          rcases ih hys.dropSpace hys.dropSpace_dropSpace (by omega) with
            ⟨hnone, hvalid⟩ | ⟨as, xs, hys', has, hfirst, hfound⟩
          · rw [hys.arguments_dropSpace] at hnone
            exact .inl ⟨fun a ha => (List.mem_append.mp ha).elim (hp a) (hnone a), hvalid⟩
          · refine .inr ⟨p ++ commaToken :: (sp ++ as), xs, ?_, has.comma p hsp, ?_, hfound⟩
            · rw [List.append_assoc, List.cons_append, List.append_assoc, ← hys', ← hsplit]
            · have htokens : Tokens (sp ++ as) := by
                rw [hsplit, hys', ← List.append_assoc] at hys
                exact hys.left
              rw [arguments_append, hsp.arguments_append htokens]
              exact fun a ha => (List.mem_append.mp ha).elim (hp a) (hfirst a)

/-- The first argument stands behind whitespace. -/
def hidden (ts : List (List UInt8)) : Bool := startsIdent (dropSpace ts) && !startsIdent ts

theorem hidden_append (bs ys : List (List UInt8)) : hidden (bs ++ commaToken :: ys) = hidden bs := by
  cases bs with
  | nil =>
    rw [List.nil_append, hidden, dropSpace_comma]
    rfl
  | cons x bs =>
    by_cases hx : isSpace x = true
    · cases bs with
      | nil => simp [hidden, dropSpace, hx, startsIdent, show isIdent commaToken = false by decide]
      | cons y bs => simp [hidden, dropSpace, hx, startsIdent]
    · simp [hidden, dropSpace, hx, startsIdent]

theorem hidden_of_dropSpace (h : dropSpace ts = ts) : hidden ts = false := by
  rw [hidden, h, Bool.and_not_self]

/-- The arguments that the search looks at. -/
def visible (ts : List (List UInt8)) : List (List (List UInt8)) :=
  if hidden ts then (arguments ts).tail else arguments ts

/-- Whitespace is no key. -/
theorem not_isIdent_of_isSpace (h : isSpace x = true) : isIdent x = false := by
  have hc : charAt x 0 = 0x09 ∨ charAt x 0 = 0x20 ∨ charAt x 0 = 0x0a := by
    simpa [isSpace, isWhitespace, or_assoc] using h
  unfold isIdent
  rcases hc with hc | hc | hc <;> rw [hc] <;> decide

theorem hidden_space (hx : isSpace x = true) (p : List (List UInt8)) :
    hidden (x :: p) = startsIdent p := by
  simp [hidden, dropSpace, hx, startsIdent, not_isIdent_of_isSpace hx]

/-- No key in front of the first separator is examined if whitespace comes first. -/
theorem visible_space (hx : isSpace x = true) (hp : commaToken ∉ x :: p) :
    visible (x :: p) = [] ∧
      ∀ ys, visible ((x :: p) ++ commaToken :: ys) = arguments ys := by
  have hargs := arguments_piece hp
  have hhidden : ∀ ys, hidden ((x :: p) ++ commaToken :: ys) = startsIdent p := fun ys =>
    (hidden_append (x :: p) ys).trans (hidden_space hx p)
  rw [dropSpace, if_pos hx] at hargs
  constructor
  · rw [visible, hidden_space hx, hargs]
    by_cases hident : startsIdent p = true <;> simp [hident]
  · intro ys
    rw [visible, hhidden ys, arguments_append, hargs]
    by_cases hident : startsIdent p = true <;> simp [hident]

/-- The search for a key in a string. -/
theorem findKey_spec (h : Tokens ts) (g key : List UInt8) :
    ((∀ a ∈ visible ts, isPrefixOf key a = false) ∧
        (findKey (memory ts g) key).valid = false) ∨
      ∃ as xs, ts = as ++ xs ∧ Front as ∧ hidden as = hidden ts ∧
        (∀ a ∈ visible as, isPrefixOf key a = false) ∧ startsIdent xs = true ∧
        isPrefixOf key xs = true ∧ findKey (memory ts g) key = tok (memory xs g) := by
  have hlen := h.length_lt (g := g)
  rw [findKey, tokenAt_eq]
  rcases dropSpace_suffix ts with hts | ⟨x, hx, hts⟩
  · rw [visible, hidden_of_dropSpace hts]
    rcases findKeyLoop_spec key g h hts hlen with
      hnone | ⟨as, xs, rfl, has, hfirst, hident, hfound⟩
    · exact .inl hnone
    · have hhidden : hidden as = false := by
        rcases has with rfl | ⟨bs, sp, rfl, -⟩
        · rfl
        · rw [← hidden_of_dropSpace hts, List.append_assoc, List.cons_append, hidden_append,
            hidden_append]
      refine .inr ⟨as, xs, rfl, has, hhidden, ?_, hident, hfound⟩
      rwa [visible, hhidden]
  · -- the first token is no key, so that the search goes on behind the first comma
    have hfirst : ∀ n, findKeyLoop key (n + 1) (tok (memory ts g)) =
        findKeyLoop key n (nextKey (tok (memory ts g))) := by
      intro n
      rw [hts] at h ⊢
      rw [findKeyLoop, if_pos ((valid_tok h).mpr (List.cons_ne_nil _ _)), if_neg]
      rw [matches_iff h]
      exact fun hm => by simp [startsIdent, not_isIdent_of_isSpace hx] at hm
    obtain ⟨n, hn⟩ := Nat.exists_eq_add_of_lt hlen
    rw [show (memory ts g).length = (ts.length + n) + 1 from hn, hfirst]
    rcases eq_piece_or_split ts with hc | ⟨p, ys, hsplit, hc⟩
    · rw [nextKey, nextKeyLoop_piece h hc, findKeyLoop_null]
      rw [hts] at hc ⊢
      exact .inl ⟨by simp [(visible_space hx hc).1], rfl⟩
    · cases p with
      | nil =>
        rw [hsplit, List.nil_append] at hts
        obtain rfl : commaToken = x := (List.cons.inj hts).1
        cases isSpace_comma.symm.trans hx
      | cons y p =>
        obtain rfl : y = x := by
          rw [hsplit] at hts
          exact (List.cons.inj hts).1
        subst hsplit
        have hys : Tokens ys := h.right.2.2.2
        obtain ⟨sp, hsp, hsplit⟩ := isGap_dropSpace ys
        have hle := (dropSpace_sublist ys).length_le
        have hlength : ((y :: p) ++ commaToken :: ys).length = p.length + ys.length + 2 := by
          simp only [List.length_append, List.length_cons]
          omega
        rw [nextKey_comma h hc, (visible_space hx hc).2]
        rcases findKeyLoop_spec key g hys.dropSpace hys.dropSpace_dropSpace
          (n := ((y :: p) ++ commaToken :: ys).length + n) (by omega) with
          ⟨hnone, hvalid⟩ | ⟨as, xs, hys', has, hfirst, hfound⟩
        · rw [hys.arguments_dropSpace] at hnone
          exact .inl ⟨hnone, hvalid⟩
        · have hassoc : (y :: p) ++ commaToken :: ys =
              ((y :: p) ++ commaToken :: (sp ++ as)) ++ xs := by
            rw [hsplit, hys']
            simp
          have htokens : Tokens (sp ++ as) := by
            rw [hsplit, hys', ← List.append_assoc] at hys
            exact hys.left
          refine .inr ⟨_, xs, hassoc, has.comma (y :: p) hsp, ?_, ?_, hfound⟩
          · rw [hidden_append, hidden_append]
          · rwa [(visible_space hx hc).2, hsp.arguments_append htokens]

end Search

end Genode.Util.Arg
