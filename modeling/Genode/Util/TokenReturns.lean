import Genode.Util.TokenBounds
import Genode.Util.TokenLoops

/-!
# TokenReturns — the tokenizer where its indices do not wrap

The functions of `util/token.h` are modelled twice: with natural numbers as
indices, to tell how far they look into a text, and with the 32-bit indices
of the code, to tell whether they end. Both agree wherever the scan of a
token needs no index from 2^32 on.
-/

namespace Genode.Util.Looped

open Lib Ascii Looping

/-- Neither the scan of the token at the beginning of the text nor its length
makes an index wrap around. -/
structure Narrow (pol : ScannerPolicy) (s : List UInt8) : Prop extends Short pol s where
  quoted : charAt s 0 = quote → ¬ Open pol s (2 ^ 32 - 2)

section Scans

variable {pol : ScannerPolicy} {p : UInt8 → Nat → Bool} {s : List UInt8} {maxLen i n : Nat}

theorem scanWhile_of_fits {k : Nat} (h : p (charAt s i) i = true) :
    (scanWhile p s (k + 1) i).val = (scanWhile p s k (i + 1)).val := by
  rw [scanWhile, Reach.bind_val, Reach.read_val, if_pos h]

theorem scanWhile_of_not_fits (k : Nat) (h : p (charAt s i) i ≠ true) :
    (scanWhile p s k i).val = i := by
  cases k with
  | zero => rfl
  | succ k =>
    rw [scanWhile, Reach.bind_val, Reach.read_val, if_neg h]
    rfl

/-- A scan that stops at an index below 2^32. -/
theorem scan_returns (hn : n < 2 ^ 32) (hstop : ¬ (n < maxLen ∧ p (charAt s n) n = true))
    (hlen : maxLen ≤ s.length) : (scan p s maxLen).Returns (scanWhile p s maxLen 0).val := by
  apply loop_gives (I := fun i => i ≤ n ∧ i ≤ maxLen ∧
    (scanWhile p s maxLen 0).val = (scanWhile p s (maxLen - i) i).val)
  · intro i hi
    obtain ⟨hin, hle, hsame⟩ := hi
    by_cases hfits : i < maxLen ∧ p (charAt s i) i = true
    · have hne : i ≠ n := by
        rintro rfl
        exact hstop hfits
      have hincr : incr i = i + 1 := incr_of_lt (by omega)
      rw [scanBody_of_fits hfits, gives_pure, hincr]
      obtain ⟨k, hk⟩ := Nat.exists_eq_add_of_lt hfits.1
      have hrest : maxLen - i = maxLen - (i + 1) + 1 := by omega
      rw [hrest, scanWhile_of_fits hfits.2] at hsame
      show (i + 1 ≤ n ∧ i + 1 ≤ maxLen ∧ _) ∧ s.length - (i + 1) < s.length - i
      exact ⟨⟨by omega, by omega, hsame⟩, by omega⟩
    · rw [scanBody_of_not_fits hfits, gives_pure]
      show i = _
      rw [hsame]
      by_cases hlt : i < maxLen
      · exact (scanWhile_of_not_fits _ fun hp => hfits ⟨hlt, hp⟩).symm
      · obtain rfl : i = maxLen := by omega
        rw [Nat.sub_self]
        rfl
  · exact ⟨Nat.zero_le n, Nat.zero_le maxLen, by rw [Nat.sub_zero]⟩

/-- A quotation that is closed, or ends with a zero, in time. -/
theorem quotedStringLen_returns (h : ¬ Open pol s (2 ^ 32 - 2)) (hpos : 0 < maxLen)
    (hlen : maxLen ≤ s.length) :
    (quotedStringLen pol s maxLen).Returns (Util.quotedStringLen pol s maxLen).val := by
  obtain ⟨n, hn, hstop⟩ : ∃ n < 2 ^ 32 - 2,
      ¬ ((pol.endOfQuote s n).val = false ∧ charAt s n ≠ 0) := by
    simpa only [Open, not_forall, exists_prop] using h
  apply loop_gives (I := fun i => i ≤ n ∧ i < maxLen ∧
    (Util.quotedStringLen pol s maxLen).val = (quotedLoop pol s maxLen (maxLen - 1 - i) i).val)
  · intro i hi
    obtain ⟨hin, hlt, hsame⟩ := hi
    have hincr : incr i = i + 1 := incr_of_lt (by omega)
    by_cases hend : i + 1 = maxLen
    · rw [quotedBody_of_le (by omega), gives_pure, hsame, hincr, if_pos hend]
      rw [show maxLen - 1 - i = 0 by omega, quotedLoop, if_pos hend]
      rfl
    · have hrest : maxLen - 1 - i = maxLen - 1 - (i + 1) + 1 := by omega
      rw [hrest, quotedLoop, Reach.bind_val] at hsame
      cases he : (pol.endOfQuote s i).val with
      | true =>
        rw [he, if_pos rfl, if_neg hend] at hsame
        rw [quotedBody_of_end he, gives_pure, hsame, hincr, if_neg hend]
        show (i + 2) % 2 ^ 32 = i + 2
        omega
      | false =>
        rw [he, if_neg Bool.false_ne_true, Reach.bind_val, Reach.read_val] at hsame
        rw [quotedBody_of_open (by omega) he, gives_pure]
        by_cases hz : charAt s i = 0
        · rw [if_pos hz] at hsame ⊢
          exact hsame.symm
        · have hne : i ≠ n := by
            rintro rfl
            exact hstop ⟨he, hz⟩
          rw [if_neg hz] at hsame ⊢
          rw [hincr]
          show (i + 1 ≤ n ∧ i + 1 < maxLen ∧ _) ∧ s.length - (i + 1) < s.length - i
          exact ⟨⟨by omega, by omega, hsame⟩, by omega⟩
  · exact ⟨Nat.zero_le n, hpos, rfl⟩

theorem typeAt_returns (hs : Narrow pol s) (hlen : maxLen ≤ s.length) :
    (typeAt pol s maxLen).Returns (Util.typeAt pol s maxLen).val := by
  unfold typeAt Util.typeAt
  by_cases hend : maxLen < 1
  · rw [if_pos (.inl hend), if_pos hend]
    exact returns_pure _
  rw [if_neg hend, Reach.bind_val, Reach.read_val]
  by_cases hz : charAt s 0 = 0
  · rw [if_pos (.inr hz), if_pos hz]
    exact returns_pure _
  rw [if_neg (not_or.mpr ⟨hend, hz⟩), if_neg hz]
  by_cases hi : pol.identifierChar (charAt s 0) 0 = true
  · rw [if_pos hi, if_pos hi]
    exact returns_pure _
  rw [if_neg hi, if_neg hi]
  by_cases hd : isDigit (charAt s 0) = true
  · rw [if_pos hd, if_pos hd]
    exact returns_pure _
  rw [if_neg hd, if_neg hd]
  by_cases hw : isWhitespace (charAt s 0) = true
  · rw [if_pos hw, if_pos hw]
    exact returns_pure _
  rw [if_neg hw, if_neg hw]
  by_cases hq : charAt s 0 = quote
  · rw [if_pos hq, if_pos hq]
    exact (quotedStringLen_returns (hs.quoted hq) (by omega) hlen).bind (returns_pure _)
  · rw [if_neg hq, if_neg hq]
    exact returns_pure _

theorem calcLen_returns (hpol : pol.Lawful) (hs : Narrow pol s) :
    (calcLen pol s s.length).Returns (Util.calcLen pol s s.length).val := by
  have htype := typeAt_returns hs le_rfl
  have hspec := htype.spec (typeAt_gives hs.toShort le_rfl)
  unfold calcLen Util.calcLen
  rw [Reach.bind_val]
  apply htype.bind
  cases hty : (Util.typeAt pol s s.length).val with
  | singlechar => exact returns_pure _
  | number => exact scan_returns hs.number (takeWhile_stops s) le_rfl
  | ident =>
    cases s with
    | nil => cases hspec.pos (by rw [hty]; nofun)
    | cons c cs =>
      apply scan_returns (hs.ident (hspec.ident hty)) _ le_rfl
      have hstop := takeWhile_stops (q := (pol.identifierChar · 1)) cs
      simpa [hpol.identifierChar_succ] using hstop
  | string =>
    exact quotedStringLen_returns (hs.quoted (hspec.string hty))
      (hspec.pos (by rw [hty]; nofun)) le_rfl
  | whitespace => exact scan_returns hs.whitespace (takeWhile_stops s) le_rfl
  | end' => exact returns_pure _

theorem token_returns (hpol : pol.Lawful) (hs : Narrow pol s) :
    (token pol s).Returns (lex pol s) := by
  rw [← construct_val hpol]
  exact (calcLen_returns hpol hs).bind (returns_pure _)

end Scans

/-! ## Tokens -/

section Tokens

variable {pol : ScannerPolicy} {s delim : List UInt8}

/-- The token behind the one at the beginning of the text. -/
theorem next_returns (hpol : pol.Lawful) (hs : Narrow pol (s.drop (lexeme pol s))) :
    (next pol (lex pol s)).Returns (lex pol (s.drop (lexeme pol s))) := token_returns hpol hs

theorem typeOf_returns (hpol : pol.Lawful) (hs : Narrow pol s) :
    (typeOf pol (lex pol s)).Returns (lexType pol s) := by
  rw [← lex_type_val hpol]
  exact typeAt_returns hs (lexeme_le_length pol s)

theorem eatWhitespace_returns (hpol : pol.Lawful) (hs : Narrow pol s)
    (hnext : lexType pol s = .whitespace → Narrow pol (s.drop (lexeme pol s))) :
    (eatWhitespace pol (lex pol s)).Returns ((lex pol s).eatWhitespace pol).val := by
  unfold eatWhitespace Token.eatWhitespace
  rw [Reach.bind_val, lex_type_val hpol]
  apply (typeOf_returns hpol hs).bind
  split
  · rename_i hw
    rw [lex_next_val hpol]
    exact next_returns hpol (hnext hw)
  · exact returns_pure _

/-- The delimiter is found at an index, and nowhere before. -/
structure FoundAt (s delim : List UInt8) (o : Nat) : Prop where
  before : ∀ o' < o, (strcmpEq true (s.drop o') delim 0).val = false
  found : (strcmpEq true (s.drop o) delim 0).val = true
  inside : o + delim.length ≤ s.length

theorem nextAfterLoop_of_found {o o' k : Nat} (hpol : pol.Lawful) (h : FoundAt s delim o)
    (ho : o' ≤ o) (hk : o < o' + k) :
    (nextAfterLoop pol s delim k o').val = lex pol (s.drop (o + lexeme pol (s.drop o))) := by
  induction k generalizing o' with
  | zero => omega
  | succ k ih =>
    rw [nextAfterLoop, Reach.bind_val, Reach.shift_val]
    rcases Nat.lt_or_eq_of_le ho with hlt | rfl
    · rw [h.before o' hlt, if_neg Bool.false_ne_true]
      exact ih hlt (by omega)
    · rw [h.found, if_pos rfl, Reach.bind_val, Reach.shift_val, Reach.shift_val,
        construct_val hpol, lex_next_val hpol, List.drop_drop]

/-- What the search returns. -/
theorem nextAfter_of_found {o : Nat} (hpol : pol.Lawful) (hvalid : (lex pol s).valid = true)
    (h : FoundAt s delim o) :
    ((lex pol s).nextAfter pol delim).val = lex pol (s.drop (o + lexeme pol (s.drop o))) := by
  have hin := h.inside
  have hgo : ¬ (!(lex pol s).valid || decide (s.length < delim.length)) = true := by
    simp only [hvalid, Bool.not_true, Bool.false_or, decide_eq_true_eq]
    omega
  show (if _ then _ else _ : Reach Token).val = _
  rw [if_neg hgo]
  exact nextAfterLoop_of_found hpol h (Nat.zero_le o) (by omega)

/-- One round of `next_after`. -/
theorem nextAfterBody_gives {o : Nat} (hpol : pol.Lawful)
    (hbefore : ∀ o' < o, (strcmpEq true (s.drop o') delim 0).val = false) (ho : o ≤ s.length)
    (hs : ∀ o, FoundAt s delim o →
      Narrow pol (s.drop o) ∧ Narrow pol (s.drop (o + lexeme pol (s.drop o)))) :
    (nextAfterBody pol delim (s.drop o)).Gives (Sum.elim
      (fun s' => s' = s.drop (o + 1) ∧ o + 1 ≤ s.length ∧
        (strcmpEq true (s.drop o) delim 0).val = false ∧
        (nextAfterLoop pol s delim (s.length + 1 - delim.length - o) o).val =
          (nextAfterLoop pol s delim (s.length + 1 - delim.length - (o + 1)) (o + 1)).val)
      (· = (nextAfterLoop pol s delim (s.length + 1 - delim.length - o) o).val)) := by
  unfold nextAfterBody
  split
  · rename_i hlen
    rw [List.length_drop] at hlen
    rw [gives_pure, show s.length + 1 - delim.length - o = 0 by omega]
    rfl
  · rename_i hlen
    rw [List.length_drop] at hlen
    have hrest : s.length + 1 - delim.length - o =
        s.length + 1 - delim.length - (o + 1) + 1 := by omega
    rw [hrest, nextAfterLoop, Reach.bind_val, Reach.shift_val]
    split
    · rename_i hfound
      obtain ⟨hat, hbehind⟩ := hs o ⟨hbefore, hfound, by omega⟩
      rw [Reach.bind_val, Reach.shift_val, Reach.shift_val, construct_val hpol, lex_next_val hpol,
        List.drop_drop]
      have hnext : (next pol (lex pol (s.drop o))).Returns
          (lex pol (s.drop (o + lexeme pol (s.drop o)))) := by
        rw [← List.drop_drop] at hbehind ⊢
        exact next_returns hpol hbehind
      apply (token_returns hpol hat).bind
      apply hnext.bind
      exact gives_pure.mpr rfl
    · rename_i hno
      have hno : (strcmpEq true (s.drop o) delim 0).val = false := Bool.eq_false_iff.mpr hno
      have hpos : 0 < delim.length := by
        apply List.length_pos_of_ne_nil
        rintro rfl
        cases hno
      rw [gives_pure]
      exact ⟨List.drop_drop, by omega, hno, rfl⟩

/-- The search needs the tokens where it finds the delimiter only. -/
theorem nextAfter_returns (hpol : pol.Lawful) (hs : ∀ o, (lex pol s).valid = true →
      FoundAt s delim o →
      Narrow pol (s.drop o) ∧ Narrow pol (s.drop (o + lexeme pol (s.drop o)))) :
    (nextAfter pol (lex pol s) delim).Returns ((lex pol s).nextAfter pol delim).val := by
  show (if _ then _ else _ : Looping Token).Returns (if _ then _ else _ : Reach Token).val
  split
  · exact returns_pure _
  · rename_i hgo
    have hvalid : (lex pol s).valid = true := by
      rw [Bool.not_eq_true, Bool.or_eq_false_iff, Bool.not_eq_false'] at hgo
      exact hgo.1
    apply loop_gives (I := fun s' => ∃ o ≤ s.length, s' = s.drop o ∧
      (∀ o' < o, (strcmpEq true (s.drop o') delim 0).val = false) ∧
      (nextAfterLoop pol s delim (s.length + 1 - delim.length) 0).val =
        (nextAfterLoop pol s delim (s.length + 1 - delim.length - o) o).val)
    · intro s' hs'
      obtain ⟨o, ho, rfl, hbefore, hsame⟩ := hs'
      apply (nextAfterBody_gives hpol hbefore ho fun o => hs o hvalid).mono
      intro r hr
      cases r with
      | inl s'' =>
        obtain ⟨rfl, hlt, hno, hstep⟩ := hr
        refine ⟨⟨o + 1, hlt, rfl, fun o' ho' => ?_, hsame.trans hstep⟩, ?_⟩
        · rcases Nat.lt_succ_iff_lt_or_eq.mp ho' with h | rfl
          · exact hbefore o' h
          · exact hno
        · rw [List.length_drop, List.length_drop]
          omega
      | inr t => exact hr.trans hsame.symm
    · exact ⟨0, Nat.zero_le _, rfl, nofun, by rw [Nat.sub_zero]⟩

end Tokens

/-! ## Texts of less than 4 GiB -/

section Texts

variable {pol : ScannerPolicy} {s : List UInt8}

theorem takeWhile_length_le_nulPos {q : UInt8 → Bool} (hq : q 0 = false) (s : List UInt8) :
    (s.takeWhile q).length ≤ nulPos s := by
  by_contra hlt
  have hfit := (charAt_takeWhile (Nat.lt_of_not_le hlt)).2
  rw [charAt_nulPos, hq] at hfit
  cases hfit

/-- A character that is a token by itself. -/
theorem narrow_of_single {c : UInt8} (hi : pol.identifierChar c 0 = false)
    (hd : isDigit c = false) (hw : isWhitespace c = false) (hq : c ≠ quote) :
    Narrow pol (c :: s) where
  ident hc := by
    rw [charAt_cons_zero, hi] at hc
    cases hc
  number := by
    rw [List.takeWhile_cons, hd]
    exact Nat.zero_lt_succ _
  whitespace := by
    rw [List.takeWhile_cons, hw]
    exact Nat.zero_lt_succ _
  quotation hc := (hq hc).elim
  quoted hc := (hq hc).elim

/-- A token ends at the first zero at the latest. -/
theorem narrow_of_nulPos (hpol : pol.Lawful) (h : nulPos s < 2 ^ 32 - 2) : Narrow pol s where
  ident hc := by
    cases s with
    | nil => simp
    | cons c cs =>
      have hc : c ≠ 0 := by
        rintro rfl
        rw [charAt_cons_zero, hpol.identifierChar_zero] at hc
        cases hc
      have hle := takeWhile_length_le_nulPos (q := (pol.identifierChar · 1))
        (hpol.identifierChar_zero 1) cs
      have hpos : 1 ≤ nulPos (c :: cs) := lt_nulPos (Nat.zero_le _) hc
      have hnul : nulPos cs = nulPos (c :: cs) - 1 := nulPos_drop hpos
      rw [List.drop_one, List.tail_cons]
      omega
  number := by
    have hle := takeWhile_length_le_nulPos (q := isDigit) (by decide) s
    omega
  whitespace := by
    have hle := takeWhile_length_le_nulPos (q := isWhitespace) (by decide) s
    omega
  quotation _ hopen := (hopen _ (by omega)).2 charAt_nulPos
  quoted _ hopen := (hopen _ h).2 charAt_nulPos

end Texts

/-! ## The operations of the code -/

/-- The operation with the indices of the code. -/
def TokenOp.looped (pol : ScannerPolicy) (s : List UInt8) : TokenOp → Looping Token
  | .construct => token pol s
  | .next => do next pol (← token pol s)
  | .eatWhitespace => do eatWhitespace pol (← token pol s)
  | .nextAfter delim => do nextAfter pol (← token pol s) delim

/-- The operation ends and returns the token of the text, and it keeps to the text. -/
structure Sound (pol : ScannerPolicy) (s : List UInt8) (op : TokenOp) : Prop
    extends Right pol s op where
  returns : (TokenOp.looped pol s op).Returns (op.run pol s).val

section Operations

variable {pol : ScannerPolicy} {s delim : List UInt8} {o : Nat}

theorem not_foundAt_of_absent (hd : (0 : UInt8) ∉ delim) (hno : ∀ o, ¬ OccursAt s delim o)
    (hlen : s.length < nulPos s + 1 + delim.length) : ¬ FoundAt s delim o := by
  intro h
  have hin := h.inside
  have hprefix := (strcmpEq_val hd).mp h.found
  exact hno o (occursAt_of_starts hd (by omega) (by simpa using hprefix))

/-- What `strcmp` finds within the text is the first occurrence. -/
theorem FoundAt.eq_of_firstAt {o' : Nat} (hd : (0 : UInt8) ∉ delim) (h : FoundAt s delim o)
    (hf : FirstAt s delim o') : o = o' := by
  have hle := hf.le_nulPos
  rcases Nat.lt_trichotomy o o' with hlt | heq | hlt
  · have hprefix := (strcmpEq_val hd).mp h.found
    exact (hf.2 o hlt (occursAt_of_starts hd (by omega) (by simpa using hprefix))).elim
  · exact heq
  · have hfound : (strcmpEq true (s.drop o') delim 0).val = true :=
      (strcmpEq_val hd).mpr (by simpa using hf.1.2)
    rw [h.before o' hlt] at hfound
    cases hfound

/-- For the texts that an operation is made for, it constructs tokens of the text only. -/
theorem looped_returns (hpol : pol.Lawful) (op : TokenOp)
    (hop : ∀ delim, op = .nextAfter delim → (0 : UInt8) ∉ delim)
    (hn : ∀ o ≤ nulPos s, Narrow pol (s.drop o)) (hf : Fine pol s op) :
    (TokenOp.looped pol s op).Returns (op.run pol s).val := by
  have hfirst : Narrow pol s := hn 0 (Nat.zero_le _)
  have htoken := token_returns hpol hfirst
  have hnext (hq : ¬ OpenQuote pol s) : Narrow pol (s.drop (lexeme pol s)) :=
    hn _ (construct_bounds hpol hq).2
  cases op with
  | construct =>
    show (token pol s).Returns (Token.construct pol s).val
    rw [construct_val hpol]
    exact htoken
  | next =>
    show (token pol s >>= next pol).Returns (Token.construct pol s >>= (·.next pol)).val
    rw [Reach.bind_val, construct_val hpol, lex_next_val hpol]
    exact htoken.bind (next_returns hpol (hnext hf.1))
  | eatWhitespace =>
    show (token pol s >>= eatWhitespace pol).Returns
      (Token.construct pol s >>= (·.eatWhitespace pol)).val
    rw [Reach.bind_val, construct_val hpol]
    exact htoken.bind (eatWhitespace_returns hpol hfirst fun _ => hnext hf.1)
  | nextAfter delim =>
    have hd := hop delim rfl
    show (token pol s >>= (nextAfter pol · delim)).Returns
      (Token.construct pol s >>= (·.nextAfter pol delim)).val
    rw [Reach.bind_val, construct_val hpol]
    apply htoken.bind
    rcases hf.2 with ⟨o, hfirst, -, -, hlen, -, -⟩ | ⟨hno, hzero | hshort⟩
    · apply nextAfter_returns hpol
      intro o' _ hfound
      obtain rfl := hfound.eq_of_firstAt hd hfirst
      have hle := hfirst.le_nulPos
      rw [hlen]
      exact ⟨hn _ hle, hn _ (add_length_le_nulPos hd hle hfirst.1.2)⟩
    · apply nextAfter_returns hpol
      intro o' hvalid _
      exact absurd hzero (of_decide_eq_true hvalid)
    · apply nextAfter_returns hpol
      exact fun o' _ hfound => (not_foundAt_of_absent hd hno hshort hfound).elim

end Operations

end Genode.Util.Looped
