import Genode.Util.Token

/-!
# ArgString — strings of session arguments

`util/arg_string.h`. The memory at `args` is the list of its bytes, a
pointer into it is the list from there on. The string ends at the first
zero; the bytes behind it belong to the memory, too, for the functions
edit the string in place. None of the pointers is null.
-/

namespace Genode.Util

open Lib Ascii

/-- `strlen`. -/
def strlen : List UInt8 → Nat
  | [] => 0
  | c :: s => if c = 0 then 0 else strlen s + 1

/-- `memcpy` to an offset of the memory. What is written behind the end of
the memory makes the list longer. -/
def memcpy (mem : List UInt8) (o : Nat) (src : List UInt8) : List UInt8 :=
  mem.take o ++ src ++ mem.drop (o + src.length)

/-- Whether `strcmp` of a string and a text yields zero for at most `len`
characters, from index `i` on. -/
def strcmpLen (s1 s2 : List UInt8) : Nat → Nat → Bool
  | 0, _ => true
  | len + 1, i =>
    if charAt s1 i ≠ 0 ∧ charAt s1 i = charAt s2 i then strcmpLen s1 s2 len (i + 1)
    else decide (charAt s1 i = charAt s2 i)

namespace Arg

def equalSign : UInt8 := 0x3d

def comma : UInt8 := 0x2c

def space : UInt8 := 0x20

/-! ## Tokens -/

def tokenAt (s : List UInt8) : Token := (Token.construct identifierWithUnderline s).val

def next (t : Token) : Token := (t.next identifierWithUnderline).val

def eatWhitespace (t : Token) : Token := (t.eatWhitespace identifierWithUnderline).val

def typeOf (t : Token) : TokenType := (t.type identifierWithUnderline).val

def char (t : Token) (i : Nat) : UInt8 := (t.at' i).val

/-- The memory from the start of a token on. -/
def rest (t : Token) : List UInt8 := t.start.getD []

end Arg

open Arg

/-- `Arg`. -/
structure Arg where
  key : Token
  value : Token
  deriving DecidableEq, Repr

namespace Arg

/-- The loop of the constructor. -/
def valueLoop : Nat → Token → Token
  | 0, _ => .null
  | n + 1, t =>
    if t.valid && decide (char t 0 ≠ comma) then
      if char t 0 = equalSign then eatWhitespace (next t)
      else valueLoop n (eatWhitespace (next t))
    else .null

/-- The constructor. -/
def construct (t : Token) : Arg := ⟨t, valueLoop (rest t).length t⟩

def valid (a : Arg) : Bool := a.key.valid

end Arg

namespace ArgString

/-- The loop of `_next_key`. -/
def nextKeyLoop : Nat → Token → Token
  | 0, _ => .null
  | n + 1, t =>
    if t.valid then
      -- if we find a comma, return token after comma
      if char t 0 = comma then eatWhitespace (next t)
      else nextKeyLoop n (eatWhitespace (next t))
    else .null

/-- `_next_key`. -/
def nextKey (t : Token) : Token := nextKeyLoop (rest t).length t

/-- The loop of `_find_key`. -/
def findKeyLoop (key : List UInt8) : Nat → Token → Token
  | 0, _ => .null
  | n + 1, t =>
    if t.valid then
      -- check if key matches
      if typeOf t = .ident ∧ strcmpLen key (rest t) t.len 0 then t
      else findKeyLoop key n (nextKey t)
    else .null

/-- `_find_key`. -/
def findKey (args key : List UInt8) : Token := findKeyLoop key args.length (tokenAt args)

def findArg (args key : List UInt8) : Arg := Arg.construct (findKey args key)

/-- `_append` at an offset; the offset of the terminating zero afterwards. -/
def append (args : List UInt8) (dst : Nat) (src : List UInt8) : List UInt8 × Nat :=
  let dst := dst + strlen (args.drop dst)
  (memcpy args dst (src ++ [0]), dst + src.length)

/-- The loop of `remove_arg` that eats the spaces in front of the argument. -/
def eatSpaces (args : List UInt8) : Nat → Nat
  | 0 => 0
  | s + 1 => if charAt args (s + 1) = space then eatSpaces args s else s + 1

/-- `remove_arg`. -/
def removeArg (args key : List UInt8) : Bool × List UInt8 :=
  let beg := findKey args key
  let next := nextKey beg
  let pos := args.length - (rest beg).length
  -- no such key to remove
  if !beg.valid then (true, args)
  -- if argument is the last one, null-terminate string right here
  else if !next.valid then (true, args.set (eatSpaces args (pos - 1)) 0)
  else (true, memcpy args pos ((rest next).take (strlen (rest next) + 1)))

/-- `add_arg`. -/
def addArg (args : List UInt8) (argsLen : Nat) (key value : List UInt8) (type : TokenType) :
    Bool × List UInt8 :=
  let oldLen := strlen args
  -- check if args string has enough capacity
  if (type = .string ∧ argsLen < oldLen + strlen key + strlen value + 4) ∨
      argsLen < oldLen + strlen key + strlen value + 2 then (false, args)
  else
    let r := if oldLen = 0 then (args, oldLen) else append args oldLen [comma, space]
    let r := append r.1 r.2 (key.take (strlen key))
    let r := append r.1 r.2 (if type = .string then [equalSign, quote] else [equalSign])
    let r := append r.1 r.2 (value.take (strlen value))
    (true, (if type = .string then append r.1 r.2 [quote] else r).1)

/-- `set_arg`. -/
def setArg (args : List UInt8) (argsLen : Nat) (key value : List UInt8) : Bool × List UInt8 :=
  let r := removeArg args key
  if r.1 then addArg r.2 argsLen key value .ident else (false, r.2)

/-- `set_arg_string`. -/
def setArgString (args : List UInt8) (argsLen : Nat) (key value : List UInt8) :
    Bool × List UInt8 :=
  let r := removeArg args key
  if r.1 then addArg r.2 argsLen key value .string else (false, r.2)

end ArgString

/-! ## Strings as sequences of tokens -/

namespace Arg

/-- The type of a token shows at its first character, unless it is a quotation. -/
def isIdent (x : List UInt8) : Bool := identifierWithUnderline.identifierChar (charAt x 0) 0

def isSpace (x : List UInt8) : Bool := isWhitespace (charAt x 0)

/-- The texts are the tokens of the string that they form. -/
def Tokens : List (List UInt8) → Prop
  | [] => True
  | x :: xs => x ≠ [] ∧ (0 : UInt8) ∉ x ∧
      lexeme identifierWithUnderline (x ++ xs.flatten) = x.length ∧ Tokens xs

instance decidableTokens : DecidablePred Tokens
  | [] => isTrue trivial
  | x :: xs =>
    have := decidableTokens xs
    inferInstanceAs (Decidable (x ≠ [] ∧ (0 : UInt8) ∉ x ∧
      lexeme identifierWithUnderline (x ++ xs.flatten) = x.length ∧ Tokens xs))

/-- The memory with the string at its beginning. -/
def memory (ts : List (List UInt8)) (g : List UInt8) : List UInt8 := ts.flatten ++ 0 :: g

/-- The token at the beginning of the memory. -/
def tok (s : List UInt8) : Token := lex identifierWithUnderline s

/-- No identifier, number or whitespace goes on with the character. -/
def isSeparator (c : UInt8) : Bool :=
  !identifierWithUnderline.identifierChar c 1 && !isDigit c && !isWhitespace c

section Lexing

variable {x r r' : List UInt8} {c : UInt8}

theorem takeWhile_length_eq_iff {p : UInt8 → Bool} (hp : p 0 = false) :
    ((x ++ r).takeWhile p).length = x.length ↔ x.all p = true ∧ p (charAt r 0) = false := by
  induction x with
  | nil =>
    cases r with
    | nil => simp [hp]
    | cons d ds => by_cases hd : p d = true <;> simp [hd]
  | cons d ds ih =>
    by_cases hd : p d = true
    · simpa [hd] using ih
    · simp [hd]

theorem endOfQuote_val (s : List UInt8) (i : Nat) :
    (identifierWithUnderline.endOfQuote s i).val =
      (decide (charAt s i ≠ backslash) && decide (charAt s (i + 1) = quote)) := by
  unfold identifierWithUnderline
  dsimp only [Reach.bind_val]
  split
  · rename_i hc
    rw [decide_eq_true (p := charAt s i ≠ backslash) hc, Bool.true_and]
    rfl
  · rename_i hc
    rw [decide_eq_false (p := charAt s i ≠ backslash) hc, Bool.false_and]
    rfl

/-- A quotation that ends with the text ends there whatever follows. -/
theorem quotedLen_append_congr (h : quotedLen identifierWithUnderline (x ++ r) = x.length)
    (hx : x ≠ []) (r' : List UInt8) :
    quotedLen identifierWithUnderline (x ++ r') = x.length := by
  have hpos := List.length_pos_of_ne_nil hx
  obtain ⟨e, ho, he, -, hlen⟩ | ⟨-, -, -, -, -, hzero⟩ | ⟨-, hzero⟩ :=
    quotedLen_cases identifierWithUnderline (x ++ r)
  · have hchar : ∀ j < x.length, charAt (x ++ r) j = charAt (x ++ r') j := by
      intro j hj
      rw [charAt_append_left hj, charAt_append_left hj]
    have hend : ∀ j ≤ e, (identifierWithUnderline.endOfQuote (x ++ r) j).val =
        (identifierWithUnderline.endOfQuote (x ++ r') j).val := by
      intro j hj
      rw [endOfQuote_val, endOfQuote_val, hchar j (by omega), hchar (j + 1) (by omega)]
    have hopen : ∀ j < e, (identifierWithUnderline.endOfQuote (x ++ r') j).val = false ∧
        charAt (x ++ r') j ≠ 0 := by
      intro j hj
      rw [← hend j (by omega), ← hchar j (by omega)]
      exact ho j hj
    rw [hend e le_rfl] at he
    have hlength : (x ++ r').length = x.length + r'.length := List.length_append
    obtain ⟨e', ho', he', -, hlen'⟩ | ⟨e', ho', he', hz', -, -⟩ | ⟨ho', -⟩ :=
      quotedLen_cases identifierWithUnderline (x ++ r')
    · rcases Nat.lt_trichotomy e e' with hlt | rfl | hlt
      · simp [(ho' e hlt).1] at he
      · omega
      · simp [(hopen e' hlt).1] at he'
    · rcases Nat.lt_trichotomy e e' with hlt | rfl | hlt
      · simp [(ho' e hlt).1] at he
      · simp [he'] at he
      · exact absurd hz' (hopen e' hlt).2
    · simp [(ho' e (by omega)).1] at he
  · omega
  · omega

/-- A token stays one if what follows begins with the same character or with
a separator. -/
theorem lexeme_append_congr (h : lexeme identifierWithUnderline (x ++ r) = x.length)
    (hx : x ≠ []) (hr : charAt r' 0 = charAt r 0 ∨ isSeparator (charAt r' 0)) :
    lexeme identifierWithUnderline (x ++ r') = x.length ∧
      lexType identifierWithUnderline (x ++ r') = lexType identifierWithUnderline (x ++ r) := by
  cases x with
  | nil => exact absurd rfl hx
  | cons c cs =>
    have hstop : ∀ p : UInt8 → Bool, p 0 = false → (isSeparator (charAt r' 0) →
        p (charAt r' 0) = false) → ((cs ++ r).takeWhile p).length = cs.length →
        ((cs ++ r').takeWhile p).length = cs.length := by
      intro p hp hsep htake
      rw [takeWhile_length_eq_iff hp] at htake ⊢
      refine ⟨htake.1, ?_⟩
      rcases hr with hr | hr
      · rw [hr]
        exact htake.2
      · exact hsep hr
    simp only [isSeparator, Bool.and_eq_true, Bool.not_eq_true'] at hstop
    simp only [List.cons_append, lexeme, lexType] at h ⊢
    by_cases h₀ : c = 0
    · simp [h₀] at h
    by_cases h₁ : identifierWithUnderline.identifierChar c 0 = true
    · simp only [h₀, h₁, if_true, if_false, List.length_cons, Nat.add_right_cancel_iff] at h ⊢
      exact ⟨hstop _ rfl (fun hsep => hsep.1.1) h, trivial⟩
    by_cases h₂ : isDigit c = true
    · simp only [h₀, h₁, h₂, if_true, if_false, Bool.false_eq_true, List.length_cons,
        Nat.add_right_cancel_iff] at h ⊢
      exact ⟨hstop _ rfl (fun hsep => hsep.1.2) h, trivial⟩
    by_cases h₃ : isWhitespace c = true
    · simp only [h₀, h₁, h₂, h₃, if_true, if_false, Bool.false_eq_true, List.length_cons,
        Nat.add_right_cancel_iff] at h ⊢
      exact ⟨hstop _ rfl (fun hsep => hsep.2) h, trivial⟩
    by_cases h₄ : c = quote
    · simp only [h₀, h₁, h₂, h₃, if_neg, not_false_eq_true, if_pos h₄, Bool.false_eq_true] at h ⊢
      have hquoted := quotedLen_append_congr (x := c :: cs) h hx r'
      rw [List.cons_append] at hquoted
      rw [hquoted, h]
      exact ⟨rfl, rfl⟩
    · simp only [h₀, h₁, h₂, h₃, h₄, if_false, Bool.false_eq_true] at h ⊢
      exact ⟨h, trivial⟩

theorem lexType_eq_ident_iff (hz : (0 : UInt8) ∉ x) (hx : x ≠ []) :
    lexType identifierWithUnderline (x ++ r) = .ident ↔ isIdent x = true := by
  cases x with
  | nil => exact absurd rfl hx
  | cons c cs =>
    have h₀ : c ≠ 0 := fun h₀ => hz (h₀ ▸ List.mem_cons_self)
    simp only [List.cons_append, lexType, if_neg h₀, isIdent, charAt_cons_zero]
    by_cases h₁ : identifierWithUnderline.identifierChar c 0 = true
    · simp [h₁]
    · rw [if_neg h₁]
      simp only [h₁, Bool.false_eq_true, iff_false]
      repeat' split
      all_goals simp

theorem lexType_eq_whitespace_iff (hz : (0 : UInt8) ∉ x) (hx : x ≠ []) :
    lexType identifierWithUnderline (x ++ r) = .whitespace ↔ isSpace x = true := by
  cases x with
  | nil => exact absurd rfl hx
  | cons c cs =>
    have h₀ : c ≠ 0 := fun h₀ => hz (h₀ ▸ List.mem_cons_self)
    simp only [List.cons_append, lexType, if_neg h₀, isSpace, charAt_cons_zero]
    by_cases h₃ : isWhitespace c = true
    · have hc : c = 0x09 ∨ c = 0x20 ∨ c = 0x0a := by
        simpa [isWhitespace, or_assoc] using h₃
      rcases hc with rfl | rfl | rfl <;> exact iff_of_true rfl rfl
    · simp only [h₃, Bool.false_eq_true, if_false, iff_false]
      repeat' split
      all_goals simp

end Lexing

/-- The separator of the arguments. -/
def commaToken : List UInt8 := [comma]

/-- `eat_whitespace`. -/
def dropSpace : List (List UInt8) → List (List UInt8)
  | [] => []
  | x :: xs => if isSpace x then xs else x :: xs

section Tokens

variable {x r g : List UInt8} {xs ts : List (List UInt8)}

theorem memory_cons : memory (x :: xs) g = x ++ memory xs g := by
  simp [memory]

theorem memory_append {ys : List (List UInt8)} :
    memory (xs ++ ys) g = xs.flatten ++ memory ys g := by
  simp [memory]

theorem charAt_memory (xs : List (List UInt8)) (g : List UInt8) :
    charAt (memory xs g) 0 = charAt xs.flatten 0 := by
  cases hxs : xs.flatten with
  | nil => simp [memory, hxs]
  | cons c cs => simp [memory, hxs]

theorem Tokens.lexeme (h : Tokens (x :: xs)) (g : List UInt8) :
    Util.lexeme identifierWithUnderline (memory (x :: xs) g) = x.length := by
  rw [memory_cons]
  exact (lexeme_append_congr h.2.2.1 h.1 (.inl (charAt_memory xs g))).1

theorem tokenAt_eq (s : List UInt8) : tokenAt s = tok s :=
  construct_val lawful_identifierWithUnderline

@[simp] theorem rest_tok (s : List UInt8) : rest (tok s) = s := rfl

theorem valid_tok (h : Tokens xs) : (tok (memory xs g)).valid = true ↔ xs ≠ [] := by
  have hvalid : (tok (memory xs g)).valid = true ↔
      Util.lexeme identifierWithUnderline (memory xs g) ≠ 0 := by
    simp only [Token.valid, tok, lex, Option.isSome_some, Bool.true_and]
    exact decide_eq_true_iff
  rw [hvalid]
  cases xs with
  | nil => simp [memory, Util.lexeme]
  | cons x xs => simp [h.lexeme, h.1]

theorem next_tok (h : Tokens (x :: xs)) : next (tok (memory (x :: xs) g)) = tok (memory xs g) := by
  have hnext : next (tok (memory (x :: xs) g)) = tok ((memory (x :: xs) g).drop _) :=
    lex_next_val lawful_identifierWithUnderline
  rw [hnext, h.lexeme, memory_cons, List.drop_left]

theorem char_tok (h : Tokens (x :: xs)) : char (tok (memory (x :: xs) g)) 0 = charAt x 0 := by
  have hpos := List.length_pos_of_ne_nil h.1
  have hlen : (tok (memory (x :: xs) g)).len = x.length := h.lexeme g
  show (if 0 < (tok (memory (x :: xs) g)).len then Reach.read _ 0 else pure 0).val = _
  rw [hlen, if_pos hpos, Reach.read_val, memory_cons, charAt_append_left hpos]

theorem typeOf_tok (s : List UInt8) : typeOf (tok s) = lexType identifierWithUnderline s :=
  lex_type_val lawful_identifierWithUnderline

theorem typeOf_eq_ident_iff (h : Tokens (x :: xs)) :
    typeOf (tok (memory (x :: xs) g)) = .ident ↔ isIdent x = true := by
  rw [typeOf_tok, memory_cons]
  exact lexType_eq_ident_iff h.2.1 h.1

theorem eatWhitespace_tok (h : Tokens xs) :
    eatWhitespace (tok (memory xs g)) = tok (memory (dropSpace xs) g) := by
  have heat : eatWhitespace (tok (memory xs g)) =
      if typeOf (tok (memory xs g)) = .whitespace then next (tok (memory xs g))
      else tok (memory xs g) := by
    unfold eatWhitespace Token.eatWhitespace
    rw [Reach.bind_val]
    show (if typeOf (tok (memory xs g)) = .whitespace then _ else _ : Reach Token).val = _
    split <;> rfl
  rw [heat]
  cases xs with
  | nil => simp [typeOf_tok, memory, lexType, dropSpace]
  | cons x xs =>
    rw [typeOf_tok, next_tok h, dropSpace]
    simp only [memory_cons, lexType_eq_whitespace_iff h.2.1 h.1]
    split <;> simp [memory_cons]

theorem lexeme_comma (s : List UInt8) : lexeme identifierWithUnderline (comma :: s) = 1 := by
  simp [lexeme, comma, identifierWithUnderline, isLetter, isDigit, isWhitespace, quote]

/-- A token that begins with a comma is the comma. -/
theorem Tokens.comma_iff (h : Tokens (x :: xs)) : charAt x 0 = comma ↔ x = commaToken := by
  constructor
  · intro hc
    cases x with
    | nil => exact absurd rfl h.1
    | cons c cs =>
      obtain rfl : c = comma := hc
      have hlen := h.2.2.1
      rw [List.cons_append, lexeme_comma, List.length_cons] at hlen
      obtain rfl : cs = [] := List.length_eq_zero_iff.mp (by omega)
      rfl
  · intro hx
    rw [hx]
    rfl

/-- Every string is a sequence of tokens, up to a quotation that does not end. -/
theorem exists_tokens {s : List UInt8} (hs : (0 : UInt8) ∉ s) :
    ∃ ts r, s = ts.flatten ++ r ∧ Tokens ts ∧
      (r = [] ∨ charAt r 0 = quote ∧ quotedLen identifierWithUnderline r = 0) := by
  induction hn : s.length using Nat.strong_induction_on generalizing s with
  | _ n ih =>
    subst hn
    by_cases hlen : Util.lexeme identifierWithUnderline s = 0
    · refine ⟨[], s, rfl, trivial, ?_⟩
      cases s with
      | nil => exact .inl rfl
      | cons c cs =>
        have h₀ : c ≠ 0 := fun h₀ => hs (h₀ ▸ List.mem_cons_self)
        rw [Util.lexeme, if_neg h₀] at hlen
        repeat' split at hlen
        all_goals first
          | cases hlen
          | exact .inr ⟨‹_›, hlen⟩
    · have hle := lexeme_le_length identifierWithUnderline s
      have hshort : (s.drop (Util.lexeme identifierWithUnderline s)).length < s.length := by
        rw [List.length_drop]
        omega
      obtain ⟨ts, r, hsplit, htokens, hr⟩ :=
        ih _ hshort (fun hz => hs (List.mem_of_mem_drop hz)) rfl
      have hx : s.take (Util.lexeme identifierWithUnderline s) ≠ [] := by
        apply List.ne_nil_of_length_pos
        rw [List.length_take]
        omega
      have hlex : Util.lexeme identifierWithUnderline
          (s.take (Util.lexeme identifierWithUnderline s) ++ (ts.flatten ++ r)) =
          (s.take (Util.lexeme identifierWithUnderline s)).length := by
        rw [← hsplit, List.take_append_drop, List.length_take]
        omega
      refine ⟨s.take (Util.lexeme identifierWithUnderline s) :: ts, r, ?_, ⟨hx, ?_, ?_, htokens⟩, hr⟩
      · rw [List.flatten_cons, List.append_assoc, ← hsplit, List.take_append_drop]
      · exact fun hz => hs (List.mem_of_mem_take hz)
      · refine (lexeme_append_congr hlex hx ?_).1
        cases hflat : ts.flatten with
        | nil => exact .inr (by decide)
        | cons c cs => exact .inl rfl

end Tokens

end Arg

end Genode.Util
