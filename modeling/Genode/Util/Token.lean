import Genode.Lib.Reach

/-!
# Token — splitting a text into tokens

`util/token.h`, with the two scanner policies of the repository. A token
is the text from its first character on, up to the end of the buffer, and
the number of characters that belong to it. So `_max_len` is the length of
that text, and the start pointer moves by dropping characters.

All functions tell how far they look into the text, for the text may end
with a zero before the end of the buffer. The loop indices are natural
numbers here. `TokenLoops` has them with the 32 bits of the code, and
`TokenReturns` tells where both agree.
-/

namespace Genode.Util

open Lib

/-! ## Characters -/

namespace Ascii

def quote : UInt8 := 0x22

def backslash : UInt8 := 0x5c

/-- The bytes of a string. -/
def bytes (cs : List Char) : List UInt8 := cs.map Char.toUInt8

end Ascii

open Ascii

def isLetter (c : UInt8) : Bool :=
  (0x61 ≤ c && c ≤ 0x7a) || (0x41 ≤ c && c ≤ 0x5a)

def isDigit (c : UInt8) : Bool := 0x30 ≤ c && c ≤ 0x39

/-- Tab, space and newline. -/
def isWhitespace (c : UInt8) : Bool := c = 0x09 || c = 0x20 || c = 0x0a

/-- The policy of a scanner. The functions of the source are static members
of a class; `end_of_quote` gets a pointer into the text. -/
structure ScannerPolicy where
  identifierChar : UInt8 → Nat → Bool
  endOfQuote : List UInt8 → Nat → Reach Bool

/-- `Scanner_policy_identifier_with_underline`. -/
def identifierWithUnderline : ScannerPolicy where
  identifierChar c i := isLetter c || c = 0x5f || (i ≠ 0 && isDigit c)
  endOfQuote s i := do
    if (← Reach.read s i) ≠ backslash then
      return (← Reach.read s (i + 1)) = quote
    else return false

/-- `Scanner_policy_xml_identifier`; underline, colon, hyphen and dot belong
to identifiers. -/
def xmlIdentifier : ScannerPolicy where
  identifierChar c i :=
    isLetter c || c = 0x5f || c = 0x3a || (i ≠ 0 && (c = 0x2d || c = 0x2e || isDigit c))
  endOfQuote s i := do return (← Reach.read s (i + 1)) = quote

/-- `Token::Type`. -/
inductive TokenType where
  | singlechar
  | number
  | ident
  | string
  | whitespace
  | end'
  deriving DecidableEq, Repr

/-- `Token`; without a start it is the one of the default constructor. -/
structure Token where
  start : Option (List UInt8)
  len : Nat
  deriving DecidableEq, Repr

/-! ## Scanning -/

/-- The loops that end at the first character that does not fit. At most `k`
characters from index `i` on are left. -/
def scanWhile (p : UInt8 → Nat → Bool) (s : List UInt8) : Nat → Nat → Reach Nat
  | 0, i => pure i
  | k + 1, i => do
    if p (← Reach.read s i) i then scanWhile p s k (i + 1) else return i

variable (pol : ScannerPolicy)

/-- The loop of `_quoted_string_len`. At most `k` rounds from index `i` on are
left, as the bound for the index is `max_len - 2`. -/
def quotedLoop (s : List UInt8) (maxLen : Nat) : Nat → Nat → Reach Nat
  | 0, i => return if i + 1 = maxLen then 0 else i + 2
  | k + 1, i => do
    if ← pol.endOfQuote s i then return if i + 1 = maxLen then 0 else i + 2
    -- string ends without final quotation mark? too bad!
    else if (← Reach.read s i) = 0 then return 0
    else quotedLoop s maxLen k (i + 1)

/-- `_quoted_string_len`. -/
def quotedStringLen (s : List UInt8) (maxLen : Nat) : Reach Nat :=
  quotedLoop pol s maxLen (maxLen - 1) 0

/-- `_type` of a token that has a start. -/
def typeAt (s : List UInt8) (maxLen : Nat) : Reach TokenType :=
  if maxLen < 1 then return .end'
  else do
    let c ← Reach.read s 0
    if c = 0 then return .end'
    -- determine the type based on the first character
    else if pol.identifierChar c 0 then return .ident
    else if isDigit c then return .number
    else if isWhitespace c then return .whitespace
    -- if string is incomplete, discard it
    else if c = quote then
      return if (← quotedStringLen pol s maxLen) ≠ 0 then .string else .end'
    else return .singlechar

/-- `_calc_len`. -/
def calcLen (s : List UInt8) (maxLen : Nat) : Reach Nat := do
  match ← typeAt pol s maxLen with
  | .singlechar => return 1
  | .number => scanWhile (fun c _ => isDigit c) s maxLen 0
  | .ident => scanWhile pol.identifierChar s maxLen 0
  | .string => quotedStringLen pol s maxLen
  | .whitespace => scanWhile (fun c _ => isWhitespace c) s maxLen 0
  | .end' => return 0

namespace Token

/-- The default constructor. -/
def null : Token := ⟨none, 0⟩

/-- The constructor. -/
def construct (s : List UInt8) : Reach Token := do return ⟨some s, ← calcLen pol s s.length⟩

variable (t : Token)

def type : Reach TokenType :=
  match t.start with
  | none => return .end'
  | some s => typeAt pol s t.len

def valid : Bool := t.start.isSome && t.len ≠ 0

/-- Access single characters of the token. -/
def at' (idx : Nat) : Reach UInt8 :=
  match t.start with
  | none => return 0
  | some s => if idx < t.len then Reach.read s idx else return 0

def next : Reach Token :=
  match t.start with
  | none => return null
  | some s => (construct pol (s.drop t.len)).shift t.len

def eatWhitespace : Reach Token := do
  if (← t.type pol) = .whitespace then t.next pol else return t

end Token

/-- `strcmp` of a text with a zero-terminated pattern, for as many characters
as the pattern has: whether they are equal. If the text is the first
argument of `strcmp`, the character behind the pattern is read, too. -/
def strcmpEq (textFirst : Bool) (s : List UInt8) : List UInt8 → Nat → Reach Bool
  | [], i => do
    if textFirst then
      let _ ← Reach.read s i
    return true
  | c :: pattern, i => do
    if (← Reach.read s i) = c then strcmpEq textFirst s pattern (i + 1) else return false

/-- The loop of `next_after`; at most `k` positions from `o` on are left. -/
def nextAfterLoop (s delim : List UInt8) : Nat → Nat → Reach Token
  | 0, _ => return .null
  | k + 1, o => do
    if ← (strcmpEq true (s.drop o) delim 0).shift o then
      let t ← (Token.construct pol (s.drop o)).shift o
      (t.next pol).shift o
    else nextAfterLoop s delim k (o + 1)

namespace Token

/-- `next_after`. -/
def nextAfter (t : Token) (delim : List UInt8) : Reach Token :=
  match t.start with
  | none => return null
  | some s =>
    if !t.valid || decide (s.length < delim.length) then return null
    else nextAfterLoop pol s delim (s.length + 1 - delim.length) 0

/-- `matches`. -/
def matches' (t : Token) (pattern : List UInt8) : Reach Bool :=
  match t.start with
  | none => return false
  | some s =>
    if !t.valid || decide (s.length < pattern.length) then return false
    else strcmpEq false s pattern 0

end Token

/-! ## What a token is -/

/-- Where the quoted string at the beginning of the text ends: behind the first
end of a quotation, unless there is a zero before. -/
def quotedLen (s : List UInt8) : Nat :=
  match (List.range (s.length - 1)).find? fun i =>
      (pol.endOfQuote s i).val || decide (charAt s i = 0) with
  | none => 0
  | some i => if (pol.endOfQuote s i).val then i + 2 else 0

/-- The number of characters of the token at the beginning of the text. -/
def lexeme : List UInt8 → Nat
  | [] => 0
  | c :: cs =>
    if c = 0 then 0
    else if pol.identifierChar c 0 then (cs.takeWhile (pol.identifierChar · 1)).length + 1
    else if isDigit c then (cs.takeWhile isDigit).length + 1
    else if isWhitespace c then (cs.takeWhile isWhitespace).length + 1
    else if c = quote then quotedLen pol (c :: cs)
    else 1

/-- The type of the token at the beginning of the text. -/
def lexType : List UInt8 → TokenType
  | [] => .end'
  | c :: cs =>
    if c = 0 then .end'
    else if pol.identifierChar c 0 then .ident
    else if isDigit c then .number
    else if isWhitespace c then .whitespace
    else if c = quote then if quotedLen pol (c :: cs) ≠ 0 then .string else .end'
    else .singlechar

/-- What the two policies have in common. -/
structure ScannerPolicy.Lawful (pol : ScannerPolicy) : Prop where
  identifierChar_zero : ∀ i, pol.identifierChar 0 i = false
  identifierChar_quote : ∀ i, pol.identifierChar quote i = false
  identifierChar_succ : ∀ c i, pol.identifierChar c (i + 1) = pol.identifierChar c 1
  quote_of_end : ∀ s i, (pol.endOfQuote s i).val = true → charAt s (i + 1) = quote
  reach_le : ∀ s i, (pol.endOfQuote s i).reach ≤ i + 2
  reach_of_zero : ∀ s i, charAt s i = 0 → (pol.endOfQuote s i).reach = i + 2

theorem lawful_identifierWithUnderline : identifierWithUnderline.Lawful where
  identifierChar_zero i := by simp [identifierWithUnderline, isLetter, isDigit]
  identifierChar_quote i := by simp [identifierWithUnderline, isLetter, isDigit, quote]
  identifierChar_succ c i := by simp [identifierWithUnderline]
  quote_of_end s i h := by
    unfold identifierWithUnderline at h
    dsimp only [Reach.bind_val] at h
    split at h
    · exact of_decide_eq_true h
    · simp at h
  reach_le s i := by
    unfold identifierWithUnderline
    dsimp only [Reach.bind_reach]
    split
    · simp
    · simp
  reach_of_zero s i h := by
    have hne : (0 : UInt8) ≠ backslash := by decide
    simp [identifierWithUnderline, h, hne]

theorem lawful_xmlIdentifier : xmlIdentifier.Lawful where
  identifierChar_zero i := by simp [xmlIdentifier, isLetter, isDigit]
  identifierChar_quote i := by simp [xmlIdentifier, isLetter, isDigit, quote]
  identifierChar_succ c i := by simp [xmlIdentifier]
  quote_of_end s i h := of_decide_eq_true h
  reach_le s i := by simp [xmlIdentifier]
  reach_of_zero s i _ := by simp [xmlIdentifier]

section Value

variable {pol : ScannerPolicy} {s : List UInt8} {i k n : Nat}

/-- The loops count the characters that fit. -/
theorem scanWhile_val {p : UInt8 → Nat → Bool} {q : UInt8 → Bool}
    (hp : ∀ c j, i ≤ j → p c j = q c) (hk : i + k ≤ s.length) :
    (scanWhile p s k i).val = i + (((s.drop i).take k).takeWhile q).length := by
  induction k generalizing i with
  | zero => simp [scanWhile]
  | succ k ih =>
    have hdrop := drop_eq_charAt_cons (s := s) (i := i) (by omega)
    rw [scanWhile, Reach.bind_val, Reach.read_val, hp _ _ le_rfl, hdrop, List.take_succ_cons,
      List.takeWhile_cons]
    split
    · rw [ih (fun c j hj => hp c j (by omega)) (by omega), List.length_cons]
      omega
    · simp

/-- There is no end of a quotation and no zero up to index `i`. -/
def Open (pol : ScannerPolicy) (s : List UInt8) (i : Nat) : Prop :=
  ∀ j < i, (pol.endOfQuote s j).val = false ∧ charAt s j ≠ 0

/-- The quotation ends at index `i`. -/
theorem quotedLoop_val_of_end {e : Nat} (ho : Open pol s e) (he : (pol.endOfQuote s e).val = true)
    (hie : i ≤ e) (hk : e < i + k) (hn : e + 1 ≠ n) : (quotedLoop pol s n k i).val = e + 2 := by
  induction k generalizing i with
  | zero => omega
  | succ k ih =>
    rw [quotedLoop, Reach.bind_val]
    by_cases heq : i = e
    · subst heq
      simp [he, hn]
    · obtain ⟨h₁, h₂⟩ := ho i (by omega)
      simp only [h₁, Bool.false_eq_true, if_false, Reach.bind_val, Reach.read_val, h₂]
      exact ih (by omega) (by omega)

/-- There is a zero before the quotation ends. -/
theorem quotedLoop_val_of_zero {e : Nat} (ho : Open pol s e)
    (he : (pol.endOfQuote s e).val = false) (hz : charAt s e = 0) (hie : i ≤ e) (hk : e < i + k) :
    (quotedLoop pol s n k i).val = 0 := by
  induction k generalizing i with
  | zero => omega
  | succ k ih =>
    rw [quotedLoop, Reach.bind_val]
    by_cases heq : i = e
    · subst heq
      simp only [he, Bool.false_eq_true, if_false, Reach.bind_val, Reach.read_val, hz, if_true,
        Reach.pure_val]
    · obtain ⟨h₁, h₂⟩ := ho i (by omega)
      simp only [h₁, Bool.false_eq_true, if_false, Reach.bind_val, Reach.read_val, h₂]
      exact ih (by omega) (by omega)

/-- The quotation does not end within the text. -/
theorem quotedLoop_val_of_open (ho : Open pol s (i + k)) (hn : i + k + 1 = n) :
    (quotedLoop pol s n k i).val = 0 := by
  induction k generalizing i with
  | zero => simp [quotedLoop, ← hn]
  | succ k ih =>
    obtain ⟨h₁, h₂⟩ := ho i (by omega)
    rw [quotedLoop, Reach.bind_val]
    simp only [h₁, Bool.false_eq_true, if_false, Reach.bind_val, Reach.read_val, h₂]
    exact ih (by rwa [Nat.add_right_comm, Nat.add_assoc]) (by omega)

/-- The search for the end of the quotation, and its outcome. -/
theorem quotedLen_cases (pol : ScannerPolicy) (s : List UInt8) :
    (∃ e, Open pol s e ∧ (pol.endOfQuote s e).val = true ∧ e + 1 < s.length ∧
        quotedLen pol s = e + 2) ∨
      (∃ e, Open pol s e ∧ (pol.endOfQuote s e).val = false ∧ charAt s e = 0 ∧
        e + 1 < s.length ∧ quotedLen pol s = 0) ∨
      (Open pol s (s.length - 1) ∧ quotedLen pol s = 0) := by
  unfold quotedLen
  cases hf : (List.range (s.length - 1)).find? fun i =>
      (pol.endOfQuote s i).val || decide (charAt s i = 0) with
  | none =>
    rw [List.find?_eq_none] at hf
    refine .inr (.inr ⟨fun j hj => ?_, rfl⟩)
    simpa using hf j (List.mem_range.mpr hj)
  | some e =>
    obtain ⟨he, hlt, hall⟩ := List.find?_range_eq_some.mp hf
    have hopen : Open pol s e := fun j hj => by simpa using hall j hj
    have hlt : e + 1 < s.length := by
      rw [List.mem_range] at hlt
      omega
    by_cases hend : (pol.endOfQuote s e).val = true
    · exact .inl ⟨e, hopen, hend, hlt, by simp [hend]⟩
    · have hend : (pol.endOfQuote s e).val = false := by simpa using hend
      have hz : charAt s e = 0 := by simpa [hend] using he
      exact .inr (.inl ⟨e, hopen, hend, hz, hlt, by simp [hend]⟩)

theorem quotedStringLen_val (hs : s ≠ []) :
    (quotedStringLen pol s s.length).val = quotedLen pol s := by
  have hpos := List.length_pos_of_ne_nil hs
  unfold quotedStringLen
  rcases quotedLen_cases pol s with ⟨e, ho, he, hlt, hq⟩ | ⟨e, ho, he, hz, hlt, hq⟩ | ⟨ho, hq⟩
  · rw [hq, quotedLoop_val_of_end ho he (Nat.zero_le _) (by omega) (by omega)]
  · rw [hq, quotedLoop_val_of_zero ho he hz (Nat.zero_le _) (by omega)]
  · rw [hq, quotedLoop_val_of_open (by rwa [Nat.zero_add]) (by omega)]

/-- The string that was found is found again within its own bounds. -/
theorem quotedStringLen_val_self (h : quotedLen pol s ≠ 0) :
    (quotedStringLen pol s (quotedLen pol s)).val = quotedLen pol s := by
  unfold quotedStringLen
  rcases quotedLen_cases pol s with ⟨e, ho, he, hlt, hq⟩ | ⟨e, -, -, -, -, hq⟩ | ⟨-, hq⟩
  · rw [hq, quotedLoop_val_of_end ho he (Nat.zero_le _) (by omega) (by omega)]
  · exact (h hq).elim
  · exact (h hq).elim

theorem scanWhile_val_cons {p : UInt8 → Nat → Bool} {c : UInt8} {cs : List UInt8}
    (hp : ∀ c j, p c (j + 1) = p c 1) (hc : p c 0 = true) :
    (scanWhile p (c :: cs) (c :: cs).length 0).val = (cs.takeWhile (p · 1)).length + 1 := by
  have hp' : ∀ c j, 0 + 1 ≤ j → p c j = p c 1 := by
    intro c j hj
    obtain ⟨j, rfl⟩ := Nat.exists_eq_add_of_le hj
    rw [Nat.add_comm, Nat.zero_add, hp]
  rw [List.length_cons, scanWhile, Reach.bind_val, Reach.read_val, charAt_cons_zero, if_pos hc,
    scanWhile_val hp' (by rw [List.length_cons]; omega)]
  simp [Nat.add_comm]

/-- The type is the same for every bound at which strings are found. -/
theorem typeAt_val {c : UInt8} {cs : List UInt8} (hn : 0 < n)
    (hq : c = quote →
      ((quotedStringLen pol (c :: cs) n).val = 0 ↔ quotedLen pol (c :: cs) = 0)) :
    (typeAt pol (c :: cs) n).val = lexType pol (c :: cs) := by
  unfold typeAt lexType
  rw [if_neg (by omega), Reach.bind_val, Reach.read_val, charAt_cons_zero]
  repeat' split
  all_goals simp_all

theorem typeAt_val_length : (typeAt pol s s.length).val = lexType pol s := by
  cases s with
  | nil => rfl
  | cons c cs => exact typeAt_val (by simp) fun _ => by rw [quotedStringLen_val (by simp)]

theorem calcLen_val (hpol : pol.Lawful) : (calcLen pol s s.length).val = lexeme pol s := by
  rw [calcLen, Reach.bind_val, typeAt_val_length]
  cases s with
  | nil => rfl
  | cons c cs =>
    unfold lexType lexeme
    by_cases h₀ : c = 0
    · simp [h₀]
    by_cases h₁ : pol.identifierChar c 0 = true
    · simp only [h₀, h₁, if_true, if_false]
      exact scanWhile_val_cons hpol.identifierChar_succ h₁
    by_cases h₂ : isDigit c = true
    · simp only [h₀, h₁, h₂, if_true, if_false]
      exact scanWhile_val_cons (fun _ _ => rfl) h₂
    by_cases h₃ : isWhitespace c = true
    · simp only [h₀, h₁, h₂, h₃, if_true, if_false]
      exact scanWhile_val_cons (fun _ _ => rfl) h₃
    by_cases h₄ : c = quote
    · by_cases h₅ : quotedLen pol (c :: cs) = 0
      · simp only [h₀, h₁, h₂, h₃, if_pos h₄, if_false, ne_eq, h₅, not_true_eq_false,
          Bool.false_eq_true, Reach.pure_val]
      · simp only [h₀, h₁, h₂, h₃, if_pos h₄, if_false, ne_eq, h₅, not_false_eq_true, if_true]
        exact quotedStringLen_val (by simp)
    · simp [h₀, h₁, h₂, h₃, h₄]

/-- The token at the beginning of the text. -/
def lex (pol : ScannerPolicy) (s : List UInt8) : Token := ⟨some s, lexeme pol s⟩

theorem construct_val (hpol : pol.Lawful) : (Token.construct pol s).val = lex pol s := by
  rw [Token.construct, Reach.bind_val, calcLen_val hpol]
  rfl

theorem lex_next_val (hpol : pol.Lawful) :
    ((lex pol s).next pol).val = lex pol (s.drop (lexeme pol s)) := construct_val hpol

theorem lexeme_eq_zero_iff : lexeme pol s = 0 ↔ lexType pol s = .end' := by
  cases s with
  | nil => simp [lexeme, lexType]
  | cons c cs =>
    unfold lexeme lexType
    repeat' split
    all_goals simp_all

theorem lexeme_quote (hpol : pol.Lawful) {cs : List UInt8} :
    lexeme pol (quote :: cs) = quotedLen pol (quote :: cs) := by
  have h₀ : quote ≠ 0 := by decide
  have h₂ : isDigit quote = false := by decide
  have h₃ : isWhitespace quote = false := by decide
  simp [lexeme, h₀, hpol.identifierChar_quote, h₂, h₃]

/-- A token ends within the buffer. -/
theorem lexeme_le_length (pol : ScannerPolicy) (s : List UInt8) : lexeme pol s ≤ s.length := by
  have hq : quotedLen pol s ≤ s.length := by
    rcases quotedLen_cases pol s with ⟨e, -, -, hlt, h⟩ | ⟨e, -, -, -, -, h⟩ | ⟨-, h⟩ <;> omega
  cases s with
  | nil => exact Nat.zero_le _
  | cons c cs =>
    have htake (p : UInt8 → Bool) : (cs.takeWhile p).length + 1 ≤ (c :: cs).length :=
      Nat.succ_le_succ (List.takeWhile_prefix p).length_le
    rw [lexeme]
    repeat' split
    all_goals first
      | exact Nat.zero_le _
      | exact htake _
      | exact hq
      | exact Nat.succ_le_succ (Nat.zero_le _)

theorem lex_type_val (hpol : pol.Lawful) : ((lex pol s).type pol).val = lexType pol s := by
  by_cases h : lexeme pol s = 0
  · rw [lexeme_eq_zero_iff.mp h]
    simp [lex, Token.type, typeAt, h]
  · cases s with
    | nil => rfl
    | cons c cs =>
      refine typeAt_val (Nat.pos_of_ne_zero h) ?_
      rintro rfl
      rw [lexeme_quote hpol] at h
      change (quotedStringLen pol (quote :: cs) (lexeme pol (quote :: cs))).val = 0 ↔ _
      rw [lexeme_quote hpol, quotedStringLen_val_self h]

end Value

end Genode.Util
