import Genode.Util.ArgRemove

/-!
# ArgUpdate — adding an argument, and assigning a new value

`add_arg` checks the capacity for the key, the value and what stands
around them, but not for the separator in front of them. `set_arg` first
removes the argument, and does so even if there is no room for the new one.
-/

namespace Genode.Util.Arg

open Lib Ascii ArgString

/-- The functions that change a string in a buffer. -/
inductive ArgUpdate where
  | add
  | addString
  | set
  | setString
  deriving DecidableEq, Repr

namespace ArgUpdate

def run : ArgUpdate → List UInt8 → Nat → List UInt8 → List UInt8 → Bool × List UInt8
  | add, args, argsLen, key, value => addArg args argsLen key value .ident
  | addString, args, argsLen, key, value => addArg args argsLen key value .string
  | set, args, argsLen, key, value => setArg args argsLen key value
  | setString, args, argsLen, key, value => setArgString args argsLen key value

/-- The argument with the key is removed first. -/
def removes : ArgUpdate → Bool
  | set | setString => true
  | add | addString => false

/-- The characters besides the key and the value, with the terminating zero. -/
def extra : ArgUpdate → Nat
  | add | set => 2
  | addString | setString => 4

def type : ArgUpdate → TokenType
  | add | set => .ident
  | addString | setString => .string

/-- The buffer that the new argument is added to. -/
def base (u : ArgUpdate) (args key : List UInt8) : List UInt8 :=
  if u.removes then (removeArg args key).2 else args

end ArgUpdate

/-- The text of a new argument. -/
def argText (type : TokenType) (key value : List UInt8) : List UInt8 :=
  key ++ if type = .string then equalSign :: quote :: (value ++ [quote]) else equalSign :: value

section Add

variable {s key value g : List UInt8} {type : TokenType} {n : Nat}

theorem strlen_eq (hs : (0 : UInt8) ∉ s) : strlen s = s.length := by
  induction s with
  | nil => rfl
  | cons c s ih =>
    have hc : c ≠ 0 := fun hc => hs (hc ▸ List.mem_cons_self)
    rw [strlen, if_neg hc, ih fun hz => hs (List.mem_cons_of_mem c hz), List.length_cons]

theorem append_eq (s src g : List UInt8) :
    append (s ++ 0 :: g) s.length src = (s ++ src ++ 0 :: g.drop src.length, (s ++ src).length) := by
  have hdrop : (s ++ 0 :: g).drop s.length = 0 :: g := List.drop_left
  have hrest : (s ++ 0 :: g).drop (s.length + (src ++ [0]).length) = g.drop src.length := by
    rw [← List.drop_drop, hdrop, List.length_append]
    rfl
  have hstr : strlen (0 :: g) = 0 := rfl
  rw [append, hdrop, hstr, Nat.add_zero, memcpy, List.take_left, hrest, List.length_append]
  simp

/-- The string is extended by the separator and the argument if the check
of the capacity succeeds. -/
theorem addArg_eq (hs : (0 : UInt8) ∉ s) (hkey : (0 : UInt8) ∉ key) (hvalue : (0 : UInt8) ∉ value) :
    addArg (s ++ 0 :: g) n key value type =
      if n < s.length + (argText type key value).length + 1 then (false, s ++ 0 :: g)
      else
        let t := (if s = [] then [] else [comma, space]) ++ argText type key value
        (true, s ++ t ++ 0 :: g.drop t.length) := by
  have hroom : (type = .string ∧ n < s.length + key.length + value.length + 4) ∨
      n < s.length + key.length + value.length + 2 ↔
      n < s.length + (argText type key value).length + 1 := by
    by_cases htype : type = .string
    · simp only [argText, htype, true_and, if_true, List.length_append, List.length_cons,
        List.length_nil]
      omega
    · simp only [argText, htype, false_and, false_or, if_false, List.length_append,
        List.length_cons]
      omega
  rw [addArg, strlen_append hs, strlen_eq hkey, strlen_eq hvalue, List.take_length,
    List.take_length]
  by_cases hn : n < s.length + (argText type key value).length + 1
  · rw [if_pos (hroom.mpr hn), if_pos hn]
  · rw [if_neg fun h => hn (hroom.mp h), if_neg hn]
    have hstart : (if s.length = 0 then (s ++ 0 :: g, s.length)
        else append (s ++ 0 :: g) s.length [comma, space]) =
        (s ++ (if s = [] then [] else [comma, space]) ++
          0 :: g.drop (if s = [] then [] else [comma, space]).length,
          (s ++ (if s = [] then [] else [comma, space])).length) := by
      by_cases hnil : s = []
      · simp [hnil]
      · rw [if_neg fun h => hnil (List.length_eq_zero_iff.mp h), if_neg hnil, append_eq]
    simp only [hstart]
    generalize (if s = [] then [] else [comma, space]) = sep
    by_cases htype : type = .string
    · simp only [htype, if_true, append_eq, List.drop_drop, argText]
      simp [Nat.add_assoc]
      omega
    · simp only [htype, if_false, append_eq, List.drop_drop, argText]
      simp [Nat.add_assoc]
      omega

end Add

/-! ## The new argument -/

/-- A key that is one identifier. -/
def isName : List UInt8 → Bool
  | [] => false
  | c :: cs => identifierWithUnderline.identifierChar c 0 &&
      cs.all (identifierWithUnderline.identifierChar · 1)

/-- A value without quotes, commas or whitespace. -/
def isPlain (value : List UInt8) : Bool :=
  value.all fun c => decide (c ≠ quote) && decide (c ≠ comma) && !isWhitespace c

section NewArgument

variable {ts xs vt : List (List UInt8)} {key value g : List UInt8}

theorem not_whitespace_of_identifierChar {c : UInt8}
    (h : identifierWithUnderline.identifierChar c 0 = true) : isWhitespace c = false := by
  by_contra hc
  rw [Bool.not_eq_false] at hc
  have hident := not_isIdent_of_isSpace (x := [c]) hc
  rw [isIdent, charAt_cons_zero, h] at hident
  cases hident

theorem isIdent_of_isName (h : isName key = true) : isIdent key = true := by
  cases key with
  | nil => cases h
  | cons c cs => exact (Bool.and_eq_true_iff.mp h).1

theorem tokens_of_isName (h : isName key = true) (hz : (0 : UInt8) ∉ key) (hvt : Tokens vt) :
    Tokens (key :: [equalSign] :: vt) := by
  cases key with
  | nil => cases h
  | cons c cs =>
    obtain ⟨hc, hcs⟩ := Bool.and_eq_true_iff.mp h
    have h₀ : c ≠ 0 := fun h₀ => hz (h₀ ▸ List.mem_cons_self)
    refine ⟨List.cons_ne_nil c cs, hz, ?_, List.cons_ne_nil _ _, by decide, ?_, hvt⟩
    · rw [List.cons_append, lexeme, if_neg h₀, if_pos hc, List.length_cons,
        Nat.add_right_cancel_iff, takeWhile_length_eq_iff rfl]
      exact ⟨hcs, rfl⟩
    · simp [lexeme, equalSign, identifierWithUnderline, isLetter, isDigit, isWhitespace, quote]

/-- A space may stand in front of an argument. -/
theorem Tokens.space_ident {x : List UInt8} (h : Tokens (x :: xs)) (hx : isIdent x = true) :
    Tokens ([space] :: x :: xs) := by
  refine ⟨List.cons_ne_nil _ _, by decide, ?_, h⟩
  rw [List.singleton_append, lexeme_space (by decide), List.flatten_cons]
  cases x with
  | nil => exact absurd rfl h.1
  | cons c cs =>
    rw [List.cons_append, List.takeWhile_cons, not_whitespace_of_identifierChar (c := c) hx]
    rfl

theorem exists_tokens_of_isPlain (h : isPlain value = true) (hz : (0 : UInt8) ∉ value) :
    ∃ vt, vt.flatten = value ∧ Tokens vt ∧ commaToken ∉ vt ∧ dropSpace vt = vt := by
  have hall : ∀ c ∈ value, c ≠ quote ∧ c ≠ comma ∧ isWhitespace c = false := by
    intro c hc
    have hplain := List.all_eq_true.mp h c hc
    simpa [and_assoc] using hplain
  obtain ⟨vt, r, hsplit, htokens, hr⟩ := exists_tokens hz
  obtain rfl : r = [] := by
    refine hr.resolve_right fun hquote => ?_
    cases r with
    | nil => exact absurd hquote.1 (by decide)
    | cons c cs => exact (hall c (by rw [hsplit]; simp)).1 hquote.1
  rw [List.append_nil] at hsplit
  refine ⟨vt, hsplit.symm, htokens, fun hc => ?_, ?_⟩
  · have hmem : comma ∈ vt.flatten := List.mem_flatten.mpr ⟨_, hc, List.mem_singleton_self comma⟩
    exact (hall comma (hsplit ▸ hmem)).2.1 rfl
  · cases vt with
    | nil => rfl
    | cons x vt =>
      cases x with
      | nil => exact absurd rfl htokens.1
      | cons c cs =>
        have hc : isWhitespace c = false := (hall c (by rw [hsplit]; simp)).2.2
        rw [dropSpace, isSpace, charAt_cons_zero, hc]
        rfl

/-- The tokens of the string with a new argument at its end. -/
def withArgument (ts : List (List UInt8)) (key : List UInt8) (vt : List (List UInt8)) :
    List (List UInt8) :=
  (if ts = [] then [] else ts ++ [commaToken, [space]]) ++ key :: [equalSign] :: vt

theorem tokens_withArgument (h : Tokens ts) (hkey : isName key = true)
    (hz : (0 : UInt8) ∉ key) (hvt : Tokens vt) : Tokens (withArgument ts key vt) := by
  have hnew := tokens_of_isName hkey hz hvt
  unfold withArgument
  split
  · exact hnew
  · rw [List.append_assoc]
    rw [← List.append_nil ts] at h
    exact h.append_congr (hnew.space_ident (isIdent_of_isName hkey)).comma_cons
      (.inr (show isSeparator comma = true by decide))

/-- The new argument is the last one. -/
theorem arguments_withArgument (hkey : isName key = true) (hz : (0 : UInt8) ∉ key)
    (hvt : Tokens vt) (hc : commaToken ∉ vt) (ts : List (List UInt8)) :
    arguments (withArgument ts key vt) = arguments ts ++ [key :: [equalSign] :: vt] := by
  have hident : startsIdent (key :: [equalSign] :: vt) = true := isIdent_of_isName hkey
  have hpiece : commaToken ∉ key :: [equalSign] :: vt := by
    have hne : commaToken ≠ key := by
      rintro rfl
      exact absurd hkey (by decide)
    simp [hne, hc, show commaToken ≠ [equalSign] by decide]
  have hnew : arguments (key :: [equalSign] :: vt) = [key :: [equalSign] :: vt] := by
    rw [arguments_piece hpiece, dropSpace_of_startsIdent hident, if_pos hident]
  unfold withArgument
  split
  · rename_i hts
    rw [hts, List.nil_append, hnew]
    rfl
  · have htokens := (tokens_of_isName hkey hz hvt).space_ident (isIdent_of_isName hkey)
    have hgap : IsGap [[space]] := .inr ⟨[space], by decide, rfl⟩
    rw [List.append_assoc, List.cons_append, arguments_append, hgap.arguments_append htokens, hnew]

theorem hidden_withArgument (hkey : isName key = true) (ts vt : List (List UInt8)) :
    hidden (withArgument ts key vt) = hidden ts := by
  have hident : startsIdent (key :: [equalSign] :: vt) = true := isIdent_of_isName hkey
  unfold withArgument
  split
  · rename_i hts
    rw [hts, List.nil_append, hidden_of_dropSpace (dropSpace_of_startsIdent hident)]
    rfl
  · rw [List.append_assoc, List.cons_append, hidden_append]

/-- The value of the argument at the beginning of the memory. -/
theorem rest_value (hkey : isName key = true) (hz : (0 : UInt8) ∉ key) (hvt : Tokens vt)
    (hdrop : dropSpace vt = vt) (g : List UInt8) :
    rest (Arg.construct (tok (memory (key :: [equalSign] :: vt) g))).value = memory vt g := by
  have htokens := tokens_of_isName hkey hz hvt
  have hlen := htokens.length_lt (g := g)
  have hident := isIdent_of_isName hkey
  have hcomma : charAt key 0 ≠ comma := by
    intro hc
    rw [isIdent, hc] at hident
    cases hident
  have hequal : charAt key 0 ≠ equalSign := by
    intro hc
    rw [isIdent, hc] at hident
    cases hident
  have hgap : dropSpace ([equalSign] :: vt) = [equalSign] :: vt := rfl
  obtain ⟨n, hn⟩ := Nat.exists_eq_add_of_lt hlen
  rw [Arg.construct, rest_tok, hn]
  simp only [List.length_cons]
  rw [show vt.length + 1 + 1 + n + 1 = (vt.length + n + 1) + 1 + 1 by omega]
  rw [valueLoop, (valid_tok htokens).mpr (by simp), char_tok htokens, if_pos (by simpa using hcomma),
    if_neg hequal, next_tok htokens, eatWhitespace_tok htokens.2.2.2, hgap, valueLoop,
    (valid_tok htokens.2.2.2).mpr (by simp), char_tok htokens.2.2.2, if_pos (by decide),
    if_pos (show charAt [equalSign] 0 = equalSign from rfl), next_tok htokens.2.2.2,
    eatWhitespace_tok hvt, hdrop, rest_tok]

end NewArgument

/-! ## What the functions promise -/

/-- The effect of an assignment of a new value: `find_arg` yields it, a new
argument takes the place of the one with the key, all others stay as they are,
and `find_arg` yields the same one of them as before for another key. -/
def Assigned (ts : List (List UInt8)) (g key value other : List UInt8)
    (ts' : List (List UInt8)) (g' : List UInt8) : Prop :=
  Finds ts' g' key (some ((arguments ts').length - 1)) ∧
    (∃ g'', rest (findArg (memory ts' g') key).value = value ++ 0 :: g'') ∧
    ∃ r j, Finds ts g key r ∧ Finds ts g other j ∧ (∀ i, r = some i → j ≠ some i) ∧
      (∃ a, keyOf a = key ∧ arguments ts' = eraseAt (arguments ts) r ++ [a]) ∧
      Finds ts' g' other (j.map (idxAfter r))

/-- An identifier that is the key of at most one argument, and a plain value. -/
def Assignable (ts : List (List UInt8)) (key value : List UInt8) : Prop :=
  isName key = true ∧ (arguments ts).countP (fun a => decide (keyOf a = key)) ≤ 1 ∧
    isPlain value = true

/-- The functions do not write behind the buffer, leave the string unchanged
if they fail, and assign the value otherwise. -/
structure UpdatesRight (u : ArgUpdate) (ts : List (List UInt8)) (g key value other : List UInt8) :
    Prop where
  inBounds : (u.run (memory ts g) (memory ts g).length key value).2.length = (memory ts g).length
  unchanged : (u.run (memory ts g) (memory ts g).length key value).1 = false →
    ∃ g', (u.run (memory ts g) (memory ts g).length key value).2 = memory ts g'
  assigned : u = .set → (u.run (memory ts g) (memory ts g).length key value).1 = true →
    Assignable ts key value → ∃ ts' g', Tokens ts' ∧ Assigned ts g key value other ts' g' ∧
      (u.run (memory ts g) (memory ts g).length key value).2 = memory ts' g'

namespace ArgUpdate

/-- The bytes that the check of the capacity asks for. -/
def needed (u : ArgUpdate) (args key value : List UInt8) : Nat :=
  strlen (u.base args key) + key.length + value.length + u.extra

end ArgUpdate

/-- The arguments that a search for one of the keys could stop at. -/
structure Distinct (ts : List (List UInt8)) (key other : List UInt8) : Prop where
  atMostOne : (visible ts).countP (isPrefixOf key) ≤ 1
  found : ∀ a, (visible ts).find? (isPrefixOf other) = some a → isPrefixOf key a = false
  absent : (visible ts).find? (isPrefixOf other) = none → ¬ key <+: other

/-- There is room for the separator, too, nothing is removed in vain, and the
keys are no prefixes of each other. -/
structure Roomy (u : ArgUpdate) (ts : List (List UInt8)) (g key value other : List UInt8) :
    Prop where
  separator : (memory ts g).length < u.needed (memory ts g) key value ∨
    strlen (u.base (memory ts g) key) = 0 ∨
    u.needed (memory ts g) key value + 2 ≤ (memory ts g).length
  removed : u.removes = true → (memory ts g).length < u.needed (memory ts g) key value →
    ∀ a ∈ visible ts, isPrefixOf key a = false
  distinct : u = .set → u.needed (memory ts g) key value ≤ (memory ts g).length →
    Assignable ts key value → Distinct ts key other

section Update

variable {u : ArgUpdate} {ts : List (List UInt8)} {g key value other : List UInt8} {n : Nat}

theorem removeArg_fst (args key : List UInt8) : (removeArg args key).1 = true := by
  simp only [removeArg]
  split
  · rfl
  · split <;> rfl

theorem ArgUpdate.run_eq (args : List UInt8) : u.run args n key value =
    addArg (u.base args key) n key value u.type := by
  cases u with
  | add => rfl
  | addString => rfl
  | set =>
    show setArg args n key value = addArg (removeArg args key).2 n key value .ident
    simp only [setArg, removeArg_fst, if_true]
  | setString =>
    show setArgString args n key value = addArg (removeArg args key).2 n key value .string
    simp only [setArgString, removeArg_fst, if_true]

theorem ArgUpdate.length_argText :
    (argText u.type key value).length + 1 = key.length + value.length + u.extra := by
  cases u <;> simp [argText, type, extra] <;> omega

theorem Tokens.flatten_eq {ts' : List (List UInt8)} {g' : List UInt8} (h : Tokens ts)
    (h' : Tokens ts') (hm : memory ts g = memory ts' g') : ts.flatten = ts'.flatten := by
  have hlen : ts.flatten.length = ts'.flatten.length := by
    rw [← strlen_append h.zero_not_mem (g := g), ← strlen_append h'.zero_not_mem (g := g')]
    exact congrArg strlen hm
  exact (List.append_inj hm hlen).1

/-- The text determines the tokens. -/
theorem Tokens.unique {ts' : List (List UInt8)} (h : Tokens ts) (h' : Tokens ts')
    (heq : ts.flatten = ts'.flatten) : ts = ts' := by
  induction ts generalizing ts' with
  | nil =>
    have hnil : Tokens (ts' ++ []) := (List.append_nil ts').symm ▸ h'
    exact (hnil.eq_nil_of_flatten heq.symm).symm
  | cons x xs ih =>
    cases ts' with
    | nil =>
      have hnil : Tokens ((x :: xs) ++ []) := (List.append_nil (x :: xs)).symm ▸ h
      exact hnil.eq_nil_of_flatten heq
    | cons y ys =>
      rw [List.flatten_cons, List.flatten_cons] at heq
      have hlen : x.length = y.length := by
        rw [← h.2.2.1, ← h'.2.2.1, heq]
      obtain ⟨rfl, hflat⟩ := List.append_inj heq hlen
      rw [ih h.2.2.2 h'.2.2.2 hflat]

theorem foundIdx_eq_none_iff :
    foundIdx ts key = none ↔ ∀ a ∈ visible ts, isPrefixOf key a = false := by
  unfold foundIdx visible firstSeen
  split <;> simp

/-- The string that the new argument is added to. -/
theorem ArgUpdate.base_spec (h : Tokens ts) (u : ArgUpdate) (g key : List UInt8) :
    ∃ ts₁ g₁, u.base (memory ts g) key = memory ts₁ g₁ ∧ Tokens ts₁ ∧
      (memory ts₁ g₁).length = (memory ts g).length ∧
      ((∃ g', memory ts₁ g₁ = memory ts g') ↔ (u.removes = true → foundIdx ts key = none)) := by
  by_cases hu : u.removes = true
  · obtain ⟨ts₁, g₁, hl⟩ := removeArg_leaves h g key
    refine ⟨ts₁, g₁, by rw [ArgUpdate.base, if_pos hu, hl.run], hl.tokens, hl.length, ?_⟩
    constructor
    · intro hsame _
      obtain ⟨g', hg'⟩ := hsame
      by_contra hne
      have hflat := hl.tokens.flatten_eq h hg'
      exact absurd (congrArg List.length hflat) (Nat.ne_of_lt (hl.shorter hne))
    · intro hnone
      obtain ⟨rfl, rfl⟩ := hl.same (hnone hu)
      exact ⟨g₁, rfl⟩
  · exact ⟨ts, g, by rw [ArgUpdate.base, if_neg hu], h, rfl,
      iff_of_true ⟨g, rfl⟩ fun hu' => absurd hu' hu⟩

/-! ## The search in the new string -/

theorem firstSeen_concat {hid : Bool} {l : List (List (List UInt8))} {b : List (List UInt8)}
    {p : List (List UInt8) → Bool} (hl : hid = true → l ≠ []) :
    firstSeen hid (l ++ [b]) p =
      (firstSeen hid l p).or (if p b = true then some l.length else none) := by
  cases hid with
  | false =>
    rw [firstSeen, firstSeen, if_neg Bool.false_ne_true, if_neg Bool.false_ne_true,
      List.findIdx?_append]
    by_cases hb : p b = true <;> simp [hb]
  | true =>
    obtain ⟨a, l, rfl⟩ := List.exists_cons_of_ne_nil (hl rfl)
    rw [firstSeen, firstSeen, if_pos rfl, if_pos rfl, List.cons_append, List.tail_cons,
      List.tail_cons, List.findIdx?_append]
    cases l.findIdx? p <;> by_cases hb : p b = true <;> simp [hb]

theorem findIdx?_middle_ne_iff {P Q : List (List (List UInt8))} {a : List (List UInt8)}
    {p q : List (List UInt8) → Bool} (hP : ∀ b ∈ P, q b = false) (ha : q a = true)
    (hQ : ∀ b ∈ Q, q b = false) :
    (P ++ a :: Q).findIdx? p ≠ some P.length ↔
      ∀ b, (P ++ a :: Q).find? p = some b → q b = false := by
  induction P with
  | nil =>
    rw [List.nil_append, List.findIdx?_cons, List.find?_cons]
    by_cases hp : p a = true
    · simp [hp, ha]
    · have hrest : ∀ b, Q.find? p = some b → q b = false := fun b hb =>
        hQ b (List.mem_of_find?_eq_some hb)
      cases Q.findIdx? p <;> simpa [hp] using hrest
  | cons c P ih =>
    rw [List.cons_append, List.findIdx?_cons, List.find?_cons]
    by_cases hp : p c = true
    · simp [hp, hP c List.mem_cons_self]
    · rw [Bool.not_eq_true] at hp
      rw [hp, if_neg Bool.false_ne_true, ← ih fun b hb => hP b (List.mem_cons_of_mem c hb)]
      cases (P ++ a :: Q).findIdx? p <;> simp

/-- The search for the other key stops at another argument. -/
theorem foundIdx_ne_iff {ts₁ : List (List UInt8)} {g₁ : List UInt8} (hl : Leaves ts g key ts₁ g₁)
    (hone : ∀ b ∈ visible ts₁, isPrefixOf key b = false) :
    (∀ i, foundIdx ts key = some i → foundIdx ts other ≠ some i) ↔
      ∀ a, (visible ts).find? (isPrefixOf other) = some a → isPrefixOf key a = false := by
  by_cases hnone : foundIdx ts key = none
  · refine iff_of_true (fun i hi => ?_) fun a ha => ?_
    · rw [hnone] at hi
      cases hi
    · exact foundIdx_eq_none_iff.mp hnone a (List.mem_of_find?_eq_some ha)
  · obtain ⟨P, a, Q, hvis, hvis', hP, ha⟩ := hl.visible hnone
    rw [hvis'] at hone
    have hQ : ∀ b ∈ Q, isPrefixOf key b = false := fun b hb => hone b (List.mem_append_right P hb)
    rw [hvis, ← findIdx?_middle_ne_iff hP ha hQ]
    have hkey : (P ++ a :: Q).findIdx? (isPrefixOf key) = some P.length := by
      rw [List.findIdx?_append, List.findIdx?_eq_none_iff.mpr hP, List.findIdx?_cons, if_pos ha]
      simp
    have hsplit : ∀ k, foundIdx ts k = if hidden ts then
        ((P ++ a :: Q).findIdx? (isPrefixOf k)).map (· + 1)
        else (P ++ a :: Q).findIdx? (isPrefixOf k) := by
      intro k
      rw [← hvis, foundIdx, firstSeen, visible]
      split <;> rfl
    have hforall : ∀ o : Option Nat,
        (∀ i, some P.length = some i → o ≠ some i) ↔ o ≠ some P.length := by
      intro o
      constructor
      · exact fun h => h P.length rfl
      · exact fun h i hi => hi ▸ h
    rw [hsplit key, hsplit other, ← hforall]
    cases hidden ts with
    | true => rw [if_pos rfl, if_pos rfl, map_succ_ne_iff, hkey]
    | false => rw [if_neg Bool.false_ne_true, if_neg Bool.false_ne_true, hkey]

theorem visible_erased_iff {ts₁ : List (List UInt8)} {g₁ : List UInt8}
    (hl : Leaves ts g key ts₁ g₁) : (∀ b ∈ visible ts₁, isPrefixOf key b = false) ↔
      (visible ts).countP (isPrefixOf key) ≤ 1 := by
  have hzero : ∀ l : List (List (List UInt8)), (∀ b ∈ l, isPrefixOf key b = false) ↔
      l.countP (isPrefixOf key) = 0 := by
    intro l
    simp [List.countP_eq_zero]
  rw [hzero]
  by_cases hnone : foundIdx ts key = none
  · have hcount := (hzero _).mp (foundIdx_eq_none_iff.mp hnone)
    obtain ⟨rfl, -⟩ := hl.same hnone
    omega
  · obtain ⟨P, a, Q, hvis, hvis', -, ha⟩ := hl.visible hnone
    rw [hvis, hvis', List.countP_append, List.countP_append, List.countP_cons, if_pos ha]
    omega

/-! ## The assignment -/

theorem firstSeen_lt {hid : Bool} {l : List (List (List UInt8))} {p : List (List UInt8) → Bool}
    {i : Nat} (h : firstSeen hid l p = some i) : i < l.length := by
  have hlt : ∀ {m : List (List (List UInt8))} {j : Nat}, m.findIdx? p = some j → j < m.length :=
    fun hj => (List.findIdx?_eq_some_iff_getElem.mp hj).1
  cases hid with
  | false => exact hlt h
  | true =>
    obtain ⟨j, hj, rfl⟩ := Option.map_eq_some_iff.mp h
    have hj' := hlt hj
    rw [List.length_tail] at hj'
    omega

/-- The last argument is found where it was put. -/
theorem last_argument {as xs bs new : List (List UInt8)} (h : Tokens (bs ++ new))
    (hsplit : as ++ xs = bs ++ new) (has : Front as) (hxs : startsIdent xs = true)
    (hnew : startsIdent new = true) (hc : commaToken ∉ new)
    (hlen : (arguments as).length = (arguments bs).length) : xs = new := by
  rcases List.append_eq_append_iff.mp hsplit with ⟨cs, rfl, rfl⟩ | ⟨cs, rfl, rfl⟩
  · -- the tokens between the two places begin with a key unless there are none
    cases cs with
    | nil => rfl
    | cons x cs =>
      have hident : startsIdent (x :: cs) = true := hxs
      rw [has.arguments_append h.left, List.length_append] at hlen
      have hpos := List.length_pos_of_ne_nil (arguments_ne_nil hident)
      omega
  · cases cs with
    | nil => rfl
    | cons x cs =>
      have hx : isIdent x = true := hnew
      rcases has with has | ⟨ds, sp, has, hsp⟩
      · cases (List.append_eq_nil_iff.mp has).2
      · have hmem : ∀ ys, commaToken ∉ ys ++ xs → ∀ zs, ys ≠ zs ++ commaToken :: sp := by
          rintro ys hys zs rfl
          exact hys (by simp)
        rcases List.append_eq_append_iff.mp has with ⟨es, rfl, hes⟩ | ⟨es, rfl, hes⟩
        · exact absurd hes (hmem _ hc es)
        · cases es with
          | nil => exact absurd hes.symm (hmem _ hc [])
          | cons e es =>
            obtain ⟨-, hsp'⟩ := List.cons.inj hes
            rcases hsp with rfl | ⟨y, hy, rfl⟩
            · cases (List.append_eq_nil_iff.mp hsp'.symm).2
            · have hyx : y = x := by
                cases es with
                | nil => exact (List.cons.inj hsp').1
                | cons e' es => cases (List.append_eq_nil_iff.mp (List.cons.inj hsp').2.symm).2
              rw [← hyx, not_isIdent_of_isSpace hy] at hx
              cases hx

/-- The value of the last argument. -/
theorem found_value {vt : List (List UInt8)} (h : Tokens (withArgument ts key vt))
    (hkey : isName key = true) (hz : (0 : UInt8) ∉ key) (hvt : Tokens vt) (hc : commaToken ∉ vt)
    (hdrop : dropSpace vt = vt)
    (hidx : foundIdx (withArgument ts key vt) key = some (arguments ts).length) :
    ∃ g', rest (findArg (memory (withArgument ts key vt) g) key).value =
      vt.flatten ++ 0 :: g' := by
  have hident : startsIdent (key :: [equalSign] :: vt) = true := isIdent_of_isName hkey
  have hne : commaToken ≠ key := by
    rintro rfl
    exact absurd hkey (by decide)
  have hpiece : commaToken ∉ key :: [equalSign] :: vt := by
    simp [hne, hc, show commaToken ≠ [equalSign] by decide]
  rcases foundIdx_spec h g key with ⟨hnone, -⟩ |
    ⟨as, xs, hsplit, has, -, -, hxs, -, hlen, hfound⟩
  · rw [hnone] at hidx
    cases hidx
  · rw [hlen, Option.some_inj] at hidx
    have hbs : ∃ bs, withArgument ts key vt = bs ++ key :: [equalSign] :: vt ∧
        arguments bs = arguments ts := by
      unfold withArgument at h ⊢
      split
      · rename_i hts
        exact ⟨[], rfl, by rw [hts]⟩
      · rename_i hts
        rw [if_neg hts] at h
        have hgap : IsGap [[space]] := .inr ⟨[space], by decide, rfl⟩
        refine ⟨_, rfl, ?_⟩
        rw [arguments_append, hgap.arguments_eq_nil h.left.right.2.2.2, List.append_nil]
    obtain ⟨bs, hbs, hargs⟩ := hbs
    rw [hbs] at h hsplit
    have hxs' := last_argument h hsplit.symm has hxs hident hpiece (by rw [hidx, hargs])
    refine ⟨g, ?_⟩
    rw [findArg, hfound, hxs', rest_value hkey hz hvt hdrop, memory]

theorem assigned_iff {ts₁ vt : List (List UInt8)} {g₁ : List UInt8} (h : Tokens ts)
    (hl : Leaves ts g key ts₁ g₁) (hkey : isName key = true) (hz : (0 : UInt8) ∉ key)
    (hvt : Tokens vt) (hc : commaToken ∉ vt) (hdrop : dropSpace vt = vt) (g' : List UInt8) :
    Assigned ts g key vt.flatten other (withArgument ts₁ key vt) g' ↔ Distinct ts key other := by
  have htokens := tokens_withArgument hl.tokens hkey hz hvt
  have hargs := arguments_withArgument hkey hz hvt hc ts₁
  have hnew : isPrefixOf key (key :: [equalSign] :: vt) = true := isPrefixOf_of_eq rfl
  have hfinds := finds_foundIdx h g
  have hfinds' := finds_foundIdx htokens g'
  -- the search in the new string
  have hfound : ∀ k, foundIdx (withArgument ts₁ key vt) k = (foundIdx ts₁ k).or
      (if isPrefixOf k (key :: [equalSign] :: vt) then some (arguments ts₁).length else none) := by
    intro k
    rw [foundIdx, foundIdx, hargs, hidden_withArgument hkey]
    exact firstSeen_concat arguments_ne_nil_of_hidden
  have hlast : (arguments (withArgument ts₁ key vt)).length - 1 = (arguments ts₁).length := by
    rw [hargs]
    simp
  have hfirst : foundIdx (withArgument ts₁ key vt) key = some (arguments ts₁).length ↔
      (visible ts).countP (isPrefixOf key) ≤ 1 := by
    rw [← visible_erased_iff hl, ← foundIdx_eq_none_iff, hfound, if_pos hnew]
    cases hidx : foundIdx ts₁ key with
    | none => simp
    | some i =>
      have hlt := firstSeen_lt hidx
      simp
      omega
  have habsent : (visible ts).find? (isPrefixOf other) = none ↔ foundIdx ts other = none := by
    rw [foundIdx_eq_none_iff]
    simp
  constructor
  · intro ha
    obtain ⟨hkeyfound, -, r, j, hr, hj, hne, -, hj'⟩ := ha
    rw [hlast] at hkeyfound
    have hone := hfirst.mp ((hfinds' key).unique htokens hkeyfound)
    obtain rfl := (hfinds key).unique h hr
    obtain rfl := (hfinds other).unique h hj
    refine ⟨hone, (foundIdx_ne_iff hl ((visible_erased_iff hl).mpr hone)).mp hne, fun hnone => ?_⟩
    -- otherwise the new argument is found for the other key
    intro hpre
    rw [habsent.mp hnone, Option.map_none] at hj'
    have hnone' := (hfinds' other).unique htokens hj'
    have hpre' : isPrefixOf other (key :: [equalSign] :: vt) = true :=
      List.isPrefixOf_iff_prefix.mpr hpre
    rw [hfound, if_pos hpre'] at hnone'
    cases hidx : foundIdx ts₁ other <;> simp [hidx] at hnone'
  · intro hd
    have hkeyfound := hfirst.mpr hd.atMostOne
    have hfind : Finds (withArgument ts₁ key vt) g' key
        (some ((arguments (withArgument ts₁ key vt)).length - 1)) := by
      rw [hlast, ← hkeyfound]
      exact hfinds' key
    refine ⟨hfind, ?_, foundIdx ts key, foundIdx ts other, hfinds key, hfinds other,
      (foundIdx_ne_iff hl ((visible_erased_iff hl).mpr hd.atMostOne)).mpr hd.found, ?_, ?_⟩
    · exact found_value htokens hkey hz hvt hc hdrop hkeyfound
    · exact ⟨key :: [equalSign] :: vt, rfl, by rw [hargs, hl.args]⟩
    · have hne := (foundIdx_ne_iff hl ((visible_erased_iff hl).mpr hd.atMostOne)).mpr hd.found
      have hkeeps : foundIdx ts₁ other = (foundIdx ts other).map (idxAfter (foundIdx ts key)) :=
        hl.keeps (isPrefixOf other) hne
      have hsame : foundIdx (withArgument ts₁ key vt) other =
          (foundIdx ts other).map (idxAfter (foundIdx ts key)) := by
        rw [hfound, hkeeps]
        cases hidx : foundIdx ts other with
        | some j => rfl
        | none =>
          have hpre : ¬ isPrefixOf other (key :: [equalSign] :: vt) = true := fun hpre =>
            hd.absent (habsent.mpr hidx) (List.isPrefixOf_iff_prefix.mp hpre)
          rw [if_neg hpre]
          rfl
      rw [← hsame]
      exact hfinds' other

/-! ## The bytes that are written -/

/-- What the functions write behind the string. -/
def ArgUpdate.written (u : ArgUpdate) (s key value : List UInt8) : List UInt8 :=
  (if s = [] then [] else [comma, space]) ++ argText u.type key value

theorem ArgUpdate.needed_eq {ts₁ : List (List UInt8)} {g₁ : List UInt8} (h : Tokens ts₁)
    (hbase : u.base (memory ts g) key = memory ts₁ g₁) :
    u.needed (memory ts g) key value =
      ts₁.flatten.length + (argText u.type key value).length + 1 := by
  have hlen : (argText u.type key value).length + 1 = key.length + value.length + u.extra :=
    ArgUpdate.length_argText
  rw [needed, hbase, memory, strlen_append h.zero_not_mem]
  omega

theorem ArgUpdate.run_memory {ts₁ : List (List UInt8)} {g₁ : List UInt8} (h : Tokens ts₁)
    (hz : (0 : UInt8) ∉ key) (hvalue : (0 : UInt8) ∉ value)
    (hbase : u.base (memory ts g) key = memory ts₁ g₁) :
    u.run (memory ts g) n key value =
      if n < u.needed (memory ts g) key value then (false, memory ts₁ g₁)
      else (true, ts₁.flatten ++ u.written ts₁.flatten key value ++
        0 :: g₁.drop (u.written ts₁.flatten key value).length) := by
  rw [run_eq, hbase, memory, addArg_eq h.zero_not_mem hz hvalue, needed_eq h hbase]
  rfl

/-- The bytes behind the string reach as far as the memory does. -/
theorem length_written_iff {s t : List UInt8} :
    (s ++ t ++ 0 :: g.drop t.length).length = (s ++ 0 :: g).length ↔ t.length ≤ g.length := by
  simp only [List.length_append, List.length_cons, List.length_drop]
  omega

theorem flatten_withArgument {ts₁ vt : List (List UInt8)} (h : Tokens ts₁) :
    (withArgument ts₁ key vt).flatten =
      ts₁.flatten ++ ArgUpdate.set.written ts₁.flatten key vt.flatten := by
  have hnil : ts₁ = [] ↔ ts₁.flatten = [] := by
    constructor
    · rintro rfl
      rfl
    · intro hflat
      rw [← List.append_nil ts₁] at h
      exact h.eq_nil_of_flatten hflat
  unfold withArgument ArgUpdate.written
  by_cases hts : ts₁ = []
  · rw [if_pos hts, if_pos (hnil.mp hts), hnil.mp hts]
    simp [argText, ArgUpdate.type]
  · rw [if_neg hts, if_neg fun hflat => hts (hnil.mpr hflat)]
    simp [argText, ArgUpdate.type, commaToken]

/-- An assignment that is not refused. -/
theorem set_assigned_iff (h : Tokens ts) (hz : (0 : UInt8) ∉ key) (hvalue : (0 : UInt8) ∉ value)
    (hn : ArgUpdate.set.needed (memory ts g) key value ≤ n) (ha : Assignable ts key value) :
    (∃ ts' g', Tokens ts' ∧ Assigned ts g key value other ts' g' ∧
        (ArgUpdate.set.run (memory ts g) n key value).2 = memory ts' g') ↔
      Distinct ts key other := by
  obtain ⟨hkey, -, hplain⟩ := ha
  obtain ⟨ts₁, g₁, hl⟩ := removeArg_leaves h g key
  obtain ⟨vt, rfl, hvt, hc, hdrop⟩ := exists_tokens_of_isPlain hplain hvalue
  have hbase : ArgUpdate.set.base (memory ts g) key = memory ts₁ g₁ := by
    rw [ArgUpdate.base, if_pos (show ArgUpdate.set.removes = true from rfl), hl.run]
  have htokens := tokens_withArgument hl.tokens hkey hz hvt
  have hrun : (ArgUpdate.set.run (memory ts g) n key vt.flatten).2 =
      memory (withArgument ts₁ key vt)
        (g₁.drop (ArgUpdate.set.written ts₁.flatten key vt.flatten).length) := by
    rw [ArgUpdate.run_memory hl.tokens hz hvalue hbase, if_neg (Nat.not_lt.mpr hn), memory,
      flatten_withArgument hl.tokens]
  rw [hrun]
  constructor
  · intro hset
    obtain ⟨ts', g', htokens', hassigned, hmemory⟩ := hset
    obtain rfl := htokens.unique htokens' (htokens.flatten_eq htokens' hmemory)
    exact (assigned_iff h hl hkey hz hvt hc hdrop g').mp hassigned
  · intro hd
    exact ⟨_, _, htokens, (assigned_iff h hl hkey hz hvt hc hdrop _).mpr hd, rfl⟩

/-- The functions keep their promises exactly if there is room for the
separator, too, if nothing is removed in vain, and if the keys can be told
apart. -/
theorem updatesRight_iff (h : Tokens ts) (hz : (0 : UInt8) ∉ key) (hvalue : (0 : UInt8) ∉ value) :
    UpdatesRight u ts g key value other ↔ Roomy u ts g key value other := by
  obtain ⟨ts₁, g₁, hbase, htokens, hlen, hsame⟩ := ArgUpdate.base_spec h u g key
  have hrun := ArgUpdate.run_memory (n := (memory ts g).length) htokens hz hvalue hbase
  have hneeded : u.needed (memory ts g) key value = _ := ArgUpdate.needed_eq htokens hbase
  by_cases hn : (memory ts g).length < u.needed (memory ts g) key value
  · rw [if_pos hn] at hrun
    constructor
    · intro hp
      have hunchanged := hp.unchanged
      rw [hrun] at hunchanged
      refine ⟨.inl hn, fun hremoves _ => ?_, fun _ hle => absurd hn (Nat.not_lt.mpr hle)⟩
      exact foundIdx_eq_none_iff.mp (hsame.mp (hunchanged rfl) hremoves)
    · intro hr
      refine ⟨?_, ?_, ?_⟩
      · rw [hrun]
        exact hlen
      · rw [hrun]
        exact fun _ => hsame.mpr fun hremoves => foundIdx_eq_none_iff.mpr (hr.removed hremoves hn)
      · rw [hrun]
        exact fun _ htrue => absurd htrue Bool.false_ne_true
  · rw [if_neg hn] at hrun
    have hbounds : (u.run (memory ts g) (memory ts g).length key value).2.length =
        (memory ts g).length ↔ (memory ts g).length < u.needed (memory ts g) key value ∨
          strlen (u.base (memory ts g) key) = 0 ∨
          u.needed (memory ts g) key value + 2 ≤ (memory ts g).length := by
      rw [hrun, hbase, ← hlen, memory, length_written_iff, strlen_append htokens.zero_not_mem,
        hneeded, ArgUpdate.written, List.length_append, List.length_append, List.length_cons]
      rw [← hlen, hneeded, memory, List.length_append, List.length_cons] at hn
      by_cases hnil : ts₁.flatten = []
      · have hzero := congrArg List.length hnil
        rw [List.length_nil] at hzero
        rw [if_pos hnil, List.length_nil]
        omega
      · have hpos := List.length_pos_of_ne_nil hnil
        rw [if_neg hnil]
        simp only [List.length_cons, List.length_nil]
        omega
    constructor
    · intro hp
      refine ⟨hbounds.mp hp.inBounds, fun _ hlt => absurd hlt hn, ?_⟩
      rintro rfl hle ha
      exact (set_assigned_iff h hz hvalue hle ha).mp (hp.assigned rfl (by rw [hrun]) ha)
    · intro hr
      refine ⟨hbounds.mpr hr.separator, ?_, ?_⟩
      · rw [hrun]
        exact fun hfalse => absurd hfalse.symm Bool.false_ne_true
      · rintro rfl - ha
        exact (set_assigned_iff h hz hvalue (Nat.not_lt.mp hn) ha).mpr
          (hr.distinct rfl (Nat.not_lt.mp hn) ha)

end Update

/-- A string with one argument, in a buffer of 16 bytes. -/
def oneArgument : List (List UInt8) := [bytes ['a'], [equalSign], bytes ['1']]

theorem updatesRight_one : Tokens oneArgument ∧
    UpdatesRight .set oneArgument (List.replicate 12 0) (bytes ['a']) (bytes ['2'])
      (bytes ['b']) := by
  have htokens : Tokens oneArgument := by decide
  refine ⟨htokens, (updatesRight_iff htokens (by decide) (by decide)).mpr ⟨?_, ?_, ?_⟩⟩
  · decide
  · intro _ hlt
    exact absurd hlt (by decide)
  · intro _ _ _
    exact ⟨by decide, by decide, by decide⟩

/-- The separator does not fit, so that the end of the string is written
behind the buffer. -/
theorem add_writes_behind_buffer : Tokens oneArgument ∧
    ¬ UpdatesRight .add oneArgument (List.replicate 4 0) (bytes ['b']) (bytes ['1', '2'])
      (bytes ['c']) := by
  refine ⟨by decide, fun h => ?_⟩
  exact absurd h.inBounds (by decide)

end Genode.Util.Arg
