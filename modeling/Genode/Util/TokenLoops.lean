import Mathlib.Algebra.Order.Ring.Nat
import Genode.Util.Token
import Genode.Lib.Looping

/-!
# TokenLoops — the tokenizer with its 32-bit indices

`util/token.h` again, with the loops as they are in the code. A buffer has
a length of 64 bits, but the indices of the scanning loops are numbers of
type `unsigned` and start over at zero. What a loop has left is the part
of the text behind its index.
-/

namespace Genode.Util.Looped

open Lib Ascii Looping

/-- `i++` for an index of type `unsigned`. -/
def incr (i : Nat) : Nat := (i + 1) % 2 ^ 32

/-! ## Scanning -/

/-- The body of the loops of `_calc_len`. -/
def scanBody (p : UInt8 → Nat → Bool) (s : List UInt8) (maxLen i : Nat) : Looping (Nat ⊕ Nat) :=
  if i < maxLen ∧ p (charAt s i) i then return .inl (incr i) else return .inr i

def scan (p : UInt8 → Nat → Bool) (s : List UInt8) (maxLen : Nat) : Looping Nat :=
  loop (s.length - ·) (scanBody p s maxLen) 0

variable (pol : ScannerPolicy)

/-- The body of the loop of `_quoted_string_len`, with what follows the loop. -/
def quotedBody (s : List UInt8) (maxLen i : Nat) : Looping (Nat ⊕ Nat) :=
  if incr i < maxLen ∧ (pol.endOfQuote s i).val = false then
    -- string ends without final quotation mark? too bad!
    if charAt s i = 0 then return .inr 0 else return .inl (incr i)
  -- exceeded maximum token length
  else if incr i = maxLen then return .inr 0
  else return .inr ((i + 2) % 2 ^ 32)

/-- `_quoted_string_len`. -/
def quotedStringLen (s : List UInt8) (maxLen : Nat) : Looping Nat :=
  loop (s.length - ·) (quotedBody pol s maxLen) 0

/-- `_type` of a token that has a start. -/
def typeAt (s : List UInt8) (maxLen : Nat) : Looping TokenType :=
  if maxLen < 1 ∨ charAt s 0 = 0 then return .end'
  -- determine the type based on the first character
  else if pol.identifierChar (charAt s 0) 0 then return .ident
  else if isDigit (charAt s 0) then return .number
  else if isWhitespace (charAt s 0) then return .whitespace
  -- if string is incomplete, discard it
  else if charAt s 0 = quote then do
    return if (← quotedStringLen pol s maxLen) ≠ 0 then .string else .end'
  else return .singlechar

/-- `_calc_len`. -/
def calcLen (s : List UInt8) (maxLen : Nat) : Looping Nat := do
  match ← typeAt pol s maxLen with
  | .singlechar => return 1
  | .number => scan (fun c _ => isDigit c) s maxLen
  | .ident => scan pol.identifierChar s maxLen
  | .string => quotedStringLen pol s maxLen
  | .whitespace => scan (fun c _ => isWhitespace c) s maxLen
  | .end' => return 0

/-! ## Tokens -/

/-- The constructor of `Token`. -/
def token (s : List UInt8) : Looping Token := do return ⟨some s, ← calcLen pol s s.length⟩

def typeOf (t : Token) : Looping TokenType :=
  match t.start with
  | none => return .end'
  | some s => typeAt pol s t.len

def next (t : Token) : Looping Token :=
  match t.start with
  | none => return .null
  | some s => token pol (s.drop t.len)

def eatWhitespace (t : Token) : Looping Token := do
  if (← typeOf pol t) = .whitespace then next pol t else return t

/-- The body of the loop of `next_after`. -/
def nextAfterBody (delim s : List UInt8) : Looping (List UInt8 ⊕ Token) :=
  if s.length < delim.length then return .inr .null
  else if (strcmpEq true s delim 0).val then do return .inr (← next pol (← token pol s))
  else return .inl (s.drop 1)

/-- `next_after`. -/
def nextAfter (t : Token) (delim : List UInt8) : Looping Token :=
  match t.start with
  | none => return .null
  | some s =>
    if !t.valid || decide (s.length < delim.length) then return .null
    else loop List.length (nextAfterBody pol delim) s

/-! ## When scanning ends -/

/-- The token at the beginning of the text takes less than 2^32 rounds to scan. -/
structure Short (s : List UInt8) : Prop where
  ident : pol.identifierChar (charAt s 0) 0 = true →
    ((s.drop 1).takeWhile (pol.identifierChar · 1)).length + 1 < 2 ^ 32
  number : (s.takeWhile isDigit).length < 2 ^ 32
  whitespace : (s.takeWhile isWhitespace).length < 2 ^ 32
  quotation : charAt s 0 = quote → ¬ Open pol s (2 ^ 32)

section Scans

variable {pol : ScannerPolicy} {p : UInt8 → Nat → Bool} {s : List UInt8} {maxLen i n : Nat}

theorem incr_of_lt (h : i + 1 < 2 ^ 32) : incr i = i + 1 := Nat.mod_eq_of_lt h

theorem scanBody_of_fits (h : i < maxLen ∧ p (charAt s i) i = true) :
    scanBody p s maxLen i = pure (.inl (incr i)) := if_pos h

theorem scanBody_of_not_fits (h : ¬ (i < maxLen ∧ p (charAt s i) i = true)) :
    scanBody p s maxLen i = pure (.inr i) := if_neg h

/-- A scan ends if some index below 2^32 is out of bounds or has a character
that does not fit. -/
theorem scan_gives (hn : n < 2 ^ 32) (hstop : ¬ (n < maxLen ∧ p (charAt s n) n = true))
    (hlen : maxLen ≤ s.length) : (scan p s maxLen).Gives (· ≤ maxLen) := by
  apply loop_gives (I := fun i => i ≤ n ∧ i ≤ maxLen)
  · intro i hi
    by_cases hfits : i < maxLen ∧ p (charAt s i) i = true
    · have hne : i ≠ n := by
        rintro rfl
        exact hstop hfits
      have hincr : incr i = i + 1 := incr_of_lt (by omega)
      rw [scanBody_of_fits hfits, gives_pure]
      show (incr i ≤ n ∧ incr i ≤ maxLen) ∧ s.length - incr i < s.length - i
      omega
    · rw [scanBody_of_not_fits hfits, gives_pure]
      exact hi.2
  · exact ⟨Nat.zero_le n, Nat.zero_le maxLen⟩

/-- A scan does not end if the characters at all indices below 2^32 fit. -/
theorem scan_endless (h : ∀ i < 2 ^ 32, i < maxLen ∧ p (charAt s i) i = true) :
    ¬ (scan p s maxLen).Ends := by
  apply endless (I := fun i => i < 2 ^ 32)
  · intro i hi
    exact ⟨incr i, scanBody_of_fits (h i hi), Nat.mod_lt _ (by decide)⟩
  · decide

theorem quotedBody_of_end (h : (pol.endOfQuote s i).val = true) :
    quotedBody pol s maxLen i =
      pure (.inr (if incr i = maxLen then 0 else (i + 2) % 2 ^ 32)) := by
  unfold quotedBody
  rw [if_neg (by simp [h])]
  split <;> rfl

theorem quotedBody_of_le (h : maxLen ≤ incr i) :
    quotedBody pol s maxLen i =
      pure (.inr (if incr i = maxLen then 0 else (i + 2) % 2 ^ 32)) := by
  unfold quotedBody
  rw [if_neg (by omega)]
  split <;> rfl

theorem quotedBody_of_open (hlt : incr i < maxLen) (he : (pol.endOfQuote s i).val = false)  :
    quotedBody pol s maxLen i =
      pure (if charAt s i = 0 then .inr 0 else .inl (incr i)) := by
  unfold quotedBody
  rw [if_pos ⟨hlt, he⟩]
  split <;> rfl

/-- The search ends if the quotation is not open for 2^32 characters. -/
theorem quotedStringLen_gives (h : ¬ Open pol s (2 ^ 32)) (hpos : 0 < maxLen)
    (hlen : maxLen ≤ s.length) : (quotedStringLen pol s maxLen).Gives (· ≤ maxLen) := by
  obtain ⟨n, hn, hstop⟩ : ∃ n < 2 ^ 32,
      ¬ ((pol.endOfQuote s n).val = false ∧ charAt s n ≠ 0) := by
    simpa only [Open, not_forall, exists_prop] using h
  apply loop_gives (I := fun i => i ≤ n ∧ i < maxLen)
  · intro i hi
    have hfound : (if incr i = maxLen then 0 else (i + 2) % 2 ^ 32) ≤ maxLen := by
      unfold incr
      split <;> omega
    by_cases hlt : incr i < maxLen
    · cases he : (pol.endOfQuote s i).val with
      | true =>
        rw [quotedBody_of_end he, gives_pure]
        exact hfound
      | false =>
        rw [quotedBody_of_open hlt he, gives_pure]
        split
        · exact Nat.zero_le maxLen
        · rename_i hz
          have hne : i ≠ n := by
            rintro rfl
            exact hstop ⟨he, hz⟩
          have hincr : incr i = i + 1 := incr_of_lt (by omega)
          show (incr i ≤ n ∧ incr i < maxLen) ∧ s.length - incr i < s.length - i
          omega
    · rw [quotedBody_of_le (Nat.le_of_not_lt hlt), gives_pure]
      exact hfound
  · exact ⟨Nat.zero_le n, hpos⟩

/-- The search does not end if the quotation is open for 2^32 characters. -/
theorem quotedStringLen_endless (h : Open pol s (2 ^ 32)) (hlen : 2 ^ 32 ≤ maxLen) :
    ¬ (quotedStringLen pol s maxLen).Ends := by
  apply endless (I := fun i => i < 2 ^ 32)
  · intro i hi
    have hincr : incr i < 2 ^ 32 := Nat.mod_lt _ (by decide)
    obtain ⟨he, hz⟩ := h i hi
    exact ⟨incr i, by rw [quotedBody_of_open (by omega) he, if_neg hz], hincr⟩
  · decide

theorem takeWhile_stops {q : UInt8 → Bool} (s : List UInt8) :
    ¬ ((s.takeWhile q).length < s.length ∧ q (charAt s (s.takeWhile q).length) = true) := by
  induction s with
  | nil => simp
  | cons c cs ih =>
    rw [List.takeWhile_cons]
    cases hc : q c with
    | true => simpa using ih
    | false => simp [hc]

theorem charAt_takeWhile {q : UInt8 → Bool} (h : i < (s.takeWhile q).length) :
    i < s.length ∧ q (charAt s i) = true := by
  induction s generalizing i with
  | nil => cases h
  | cons c cs ih =>
    rw [List.takeWhile_cons] at h
    cases hc : q c with
    | false =>
      rw [hc] at h
      cases h
    | true =>
      rw [hc] at h
      cases i with
      | zero => exact ⟨Nat.succ_pos _, hc⟩
      | succ i =>
        have := ih (Nat.lt_of_succ_lt_succ h)
        exact ⟨Nat.succ_lt_succ this.1, this.2⟩

/-- What the type of a token tells about its first character. -/
structure TypeOf (pol : ScannerPolicy) (s : List UInt8) (maxLen : Nat) (ty : TokenType) :
    Prop where
  pos : ty ≠ .end' → 0 < maxLen
  ident : ty = .ident → pol.identifierChar (charAt s 0) 0 = true
  string : ty = .string → charAt s 0 = quote

theorem typeAt_gives (hs : Short pol s) (hlen : maxLen ≤ s.length) :
    (typeAt pol s maxLen).Gives (TypeOf pol s maxLen) := by
  unfold typeAt
  by_cases hend : maxLen < 1 ∨ charAt s 0 = 0
  · rw [if_pos hend, gives_pure]
    exact ⟨fun h => (h rfl).elim, nofun, nofun⟩
  rw [if_neg hend]
  have hpos : 0 < maxLen := by omega
  by_cases hi : pol.identifierChar (charAt s 0) 0 = true
  · rw [if_pos hi, gives_pure]
    exact ⟨fun _ => hpos, fun _ => hi, nofun⟩
  rw [if_neg hi]
  by_cases hd : isDigit (charAt s 0) = true
  · rw [if_pos hd, gives_pure]
    exact ⟨fun _ => hpos, nofun, nofun⟩
  rw [if_neg hd]
  by_cases hw : isWhitespace (charAt s 0) = true
  · rw [if_pos hw, gives_pure]
    exact ⟨fun _ => hpos, nofun, nofun⟩
  rw [if_neg hw]
  by_cases hq : charAt s 0 = quote
  · rw [if_pos hq]
    apply (quotedStringLen_gives (hs.quotation hq) hpos hlen).bind
    intro n _
    rw [gives_pure]
    split
    · exact ⟨fun _ => hpos, nofun, fun _ => hq⟩
    · exact ⟨fun h => (h rfl).elim, nofun, nofun⟩
  · rw [if_neg hq, gives_pure]
    exact ⟨fun _ => hpos, nofun, nofun⟩

theorem calcLen_gives (hpol : pol.Lawful) (hs : Short pol s) :
    (calcLen pol s s.length).Gives (· ≤ s.length) := by
  apply (typeAt_gives hs le_rfl).bind
  intro ty hty
  cases ty with
  | singlechar =>
    rw [gives_pure]
    exact hty.pos nofun
  | number => exact scan_gives hs.number (takeWhile_stops s) le_rfl
  | ident =>
    cases s with
    | nil => cases hty.pos nofun
    | cons c cs =>
      apply scan_gives (hs.ident (hty.ident rfl)) _ le_rfl
      have hstop := takeWhile_stops (q := (pol.identifierChar · 1)) cs
      simpa [hpol.identifierChar_succ] using hstop
  | string => exact quotedStringLen_gives (hs.quotation (hty.string rfl)) (hty.pos nofun) le_rfl
  | whitespace => exact scan_gives hs.whitespace (takeWhile_stops s) le_rfl
  | end' =>
    rw [gives_pure]
    exact Nat.zero_le _

end Scans

/-! ## Tokens within a buffer -/

/-- The number of characters from the start of a token on. -/
def left (t : Token) : Nat := (t.start.getD []).length

/-- The token starts within the buffer and does not exceed it. -/
structure InBuffer (buffer : List UInt8) (t : Token) : Prop where
  start : ∀ s, t.start = some s → s <:+ buffer
  len : t.len ≤ left t

section Buffer

variable {pol : ScannerPolicy} {buffer s delim : List UInt8} {t : Token}

theorem inBuffer_null : InBuffer buffer .null := ⟨nofun, le_rfl⟩

theorem token_gives (hpol : pol.Lawful) (hb : ∀ s, s <:+ buffer → Short pol s)
    (hs : s <:+ buffer) :
    (token pol s).Gives fun t => InBuffer buffer t ∧ left t = s.length := by
  apply (calcLen_gives hpol (hb s hs)).bind
  intro n hn
  rw [gives_pure]
  refine ⟨⟨?_, hn⟩, rfl⟩
  intro s' heq
  cases heq
  exact hs

theorem next_gives (hpol : pol.Lawful) (hb : ∀ s, s <:+ buffer → Short pol s)
    (ht : InBuffer buffer t) :
    (next pol t).Gives fun t' => InBuffer buffer t' ∧ left t' + t.len = left t := by
  obtain ⟨start, len⟩ := t
  cases start with
  | none =>
    show (pure .null : Looping Token).Gives _
    rw [gives_pure]
    exact ⟨inBuffer_null, (Nat.zero_add len).trans (Nat.le_zero.mp ht.len)⟩
  | some s =>
    have hs := (List.drop_suffix len s).trans (ht.start s rfl)
    have hlen : len ≤ s.length := ht.len
    apply (token_gives hpol hb hs).mono
    intro t' ht'
    refine ⟨ht'.1, ?_⟩
    rw [ht'.2, List.length_drop]
    exact Nat.sub_add_cancel hlen

theorem typeOf_gives (hb : ∀ s, s <:+ buffer → Short pol s) (ht : InBuffer buffer t) :
    (typeOf pol t).Gives fun ty => ty ≠ .end' → 0 < t.len := by
  obtain ⟨start, len⟩ := t
  cases start with
  | none =>
    show (pure .end' : Looping TokenType).Gives _
    rw [gives_pure]
    exact fun h => (h rfl).elim
  | some s =>
    apply (typeAt_gives (hb s (ht.start s rfl)) ht.len).mono
    exact fun _ h => h.pos

theorem eatWhitespace_gives (hpol : pol.Lawful) (hb : ∀ s, s <:+ buffer → Short pol s)
    (ht : InBuffer buffer t) :
    (eatWhitespace pol t).Gives fun t' => InBuffer buffer t' ∧ left t' ≤ left t := by
  apply (typeOf_gives hb ht).bind
  intro ty _
  split
  · apply (next_gives hpol hb ht).mono
    exact fun t' ht' => ⟨ht'.1, Nat.le.intro ht'.2⟩
  · rw [gives_pure]
    exact ⟨ht, le_rfl⟩

theorem nextAfter_gives (hpol : pol.Lawful) (hb : ∀ s, s <:+ buffer → Short pol s)
    (hdelim : delim ≠ []) (ht : InBuffer buffer t) :
    (nextAfter pol t delim).Gives fun t' => InBuffer buffer t' ∧ left t' ≤ left t := by
  obtain ⟨start, len⟩ := t
  have hnull : (pure .null : Looping Token).Gives fun t' =>
      InBuffer buffer t' ∧ left t' ≤ left ⟨start, len⟩ := by
    rw [gives_pure]
    exact ⟨inBuffer_null, Nat.zero_le _⟩
  cases start with
  | none => exact hnull
  | some s =>
    show (if _ then _ else _ : Looping Token).Gives _
    split
    · exact hnull
    apply loop_gives (I := fun s' => s' <:+ s)
    · intro s' hs'
      unfold nextAfterBody
      split
      · rw [gives_pure]
        exact ⟨inBuffer_null, Nat.zero_le _⟩
      · rename_i hlen
        have hpos := List.length_pos_of_ne_nil hdelim
        split
        · apply (token_gives hpol hb (hs'.trans (ht.start s rfl))).bind
          intro t₁ h₁
          apply (next_gives hpol hb h₁.1).bind
          intro t₂ h₂
          rw [gives_pure]
          refine ⟨h₂.1, ?_⟩
          have hle : s'.length ≤ left ⟨some s, len⟩ := hs'.length_le
          omega
        · rw [gives_pure]
          refine ⟨(List.drop_suffix 1 s').trans hs', ?_⟩
          show (s'.drop 1).length < s'.length
          rw [List.length_drop]
          omega
    · exact List.suffix_rfl

end Buffer

/-! ## Tokens that are too long -/

section TooLong

variable {s : List UInt8}

/-- A digit begins a number. -/
theorem ident_of_isDigit {c : UInt8} (h : isDigit c = true) :
    c ≠ 0 ∧ xmlIdentifier.identifierChar c 0 = false := by
  simp only [isDigit, Bool.and_eq_true, decide_eq_true_eq, UInt8.le_iff_toNat_le] at h
  constructor
  · rintro rfl
    exact absurd h.1 (by decide)
  · simp [xmlIdentifier, isLetter, UInt8.le_iff_toNat_le, ← UInt8.toNat_inj] at h ⊢
    omega

/-- A blank begins a token of its kind. -/
theorem type_of_isWhitespace {c : UInt8} (h : isWhitespace c = true) :
    c ≠ 0 ∧ xmlIdentifier.identifierChar c 0 = false ∧ isDigit c = false := by
  have hc : (c = 0x09 ∨ c = 0x20) ∨ c = 0x0a := by simpa [isWhitespace] using h
  rcases hc with (rfl | rfl) | rfl <;> decide

theorem charAt_ne_zero_length (h : charAt s 0 ≠ 0) : 0 < s.length := by
  apply Nat.pos_of_ne_zero
  intro hlen
  exact h (charAt_of_le (Nat.le_of_eq hlen))

/-- The scan of identifiers ends with the token. -/
theorem ends_ident (h : (token xmlIdentifier s).Ends)
    (hc : xmlIdentifier.identifierChar (charAt s 0) 0 = true) :
    (scan xmlIdentifier.identifierChar s s.length).Ends := by
  have hz : charAt s 0 ≠ 0 := by
    intro hz
    rw [hz, lawful_xmlIdentifier.identifierChar_zero] at hc
    cases hc
  have hpos := charAt_ne_zero_length hz
  have hcalc : (calcLen xmlIdentifier s s.length).Ends := Ends.of_bind h
  have htype : typeAt xmlIdentifier s s.length = pure .ident := by
    unfold typeAt
    rw [if_neg (not_or.mpr ⟨Nat.not_lt.mpr hpos, hz⟩), if_pos hc]
  rw [calcLen, htype, ends_pure_bind] at hcalc
  exact hcalc

theorem ends_number (h : (token xmlIdentifier s).Ends) (hc : isDigit (charAt s 0) = true) :
    (scan (fun c _ => isDigit c) s s.length).Ends := by
  obtain ⟨hz, hi⟩ := ident_of_isDigit hc
  have hpos := charAt_ne_zero_length hz
  have hcalc : (calcLen xmlIdentifier s s.length).Ends := Ends.of_bind h
  have htype : typeAt xmlIdentifier s s.length = pure .number := by
    unfold typeAt
    rw [if_neg (not_or.mpr ⟨Nat.not_lt.mpr hpos, hz⟩), if_neg (by simp [hi]), if_pos hc]
  rw [calcLen, htype, ends_pure_bind] at hcalc
  exact hcalc

theorem ends_whitespace (h : (token xmlIdentifier s).Ends) (hc : isWhitespace (charAt s 0) = true) :
    (scan (fun c _ => isWhitespace c) s s.length).Ends := by
  obtain ⟨hz, hi, hd⟩ := type_of_isWhitespace hc
  have hpos := charAt_ne_zero_length hz
  have hcalc : (calcLen xmlIdentifier s s.length).Ends := Ends.of_bind h
  have htype : typeAt xmlIdentifier s s.length = pure .whitespace := by
    unfold typeAt
    rw [if_neg (not_or.mpr ⟨Nat.not_lt.mpr hpos, hz⟩), if_neg (by simp [hi]),
      if_neg (by simp [hd]), if_pos hc]
  rw [calcLen, htype, ends_pure_bind] at hcalc
  exact hcalc

theorem ends_quotation (h : (token xmlIdentifier s).Ends) (hc : charAt s 0 = quote) :
    (quotedStringLen xmlIdentifier s s.length).Ends := by
  have hq : quote ≠ 0 ∧ isDigit quote = false ∧ isWhitespace quote = false := by decide
  have hpos := charAt_ne_zero_length (hc ▸ hq.1)
  have htype : (typeAt xmlIdentifier s s.length).Ends := Ends.of_bind (Ends.of_bind h)
  unfold typeAt at htype
  rw [hc, if_neg (not_or.mpr ⟨Nat.not_lt.mpr hpos, hq.1⟩),
    lawful_xmlIdentifier.identifierChar_quote, hq.2.1, hq.2.2] at htype
  exact Ends.of_bind htype

/-- A run of 2^32 characters is scanned forever. -/
theorem lt_of_scan_ends {q : UInt8 → Bool} (h : q (charAt s 0) = true →
    (scan (fun c _ => q c) s s.length).Ends) : (s.takeWhile q).length < 2 ^ 32 := by
  by_contra hlt
  have hall : ∀ i < 2 ^ 32, i < s.length ∧ q (charAt s i) = true :=
    fun i hi => charAt_takeWhile (hi.trans_le (Nat.le_of_not_lt hlt))
  exact scan_endless hall (h (hall 0 (by decide)).2)

/-- If the constructor of a token ends, the token is short. -/
theorem short_of_ends (h : (token xmlIdentifier s).Ends) : Short xmlIdentifier s where
  ident hc := by
    by_contra hlt
    apply scan_endless _ (ends_ident h hc)
    intro i hi
    cases s with
    | nil =>
      rw [charAt_nil, lawful_xmlIdentifier.identifierChar_zero] at hc
      cases hc
    | cons c cs =>
      cases i with
      | zero => exact ⟨Nat.succ_pos _, hc⟩
      | succ i =>
        have hin : i < (cs.takeWhile (xmlIdentifier.identifierChar · 1)).length := by
          have hle := Nat.le_of_not_lt hlt
          rw [List.drop_one, List.tail_cons] at hle
          omega
        obtain ⟨hlen, hfit⟩ := charAt_takeWhile hin
        refine ⟨Nat.succ_lt_succ hlen, ?_⟩
        rw [charAt_cons_succ, lawful_xmlIdentifier.identifierChar_succ]
        exact hfit
  number := lt_of_scan_ends (ends_number h)
  whitespace := lt_of_scan_ends (ends_whitespace h)
  quotation hc := by
    intro hopen
    apply quotedStringLen_endless hopen _ (ends_quotation h hc)
    by_contra hlt
    exact (hopen s.length (Nat.lt_of_not_le hlt)).2 (charAt_of_le le_rfl)

end TooLong

end Genode.Util.Looped
