import Mathlib.Data.Nat.Find
import Genode.Util.Token

/-!
# TokenBounds — how far the tokenizer looks

A text ends with the buffer or with its first zero, whichever comes
first. The scanner keeps to this, except for two places: the end of a
quoted string is looked for one character ahead of the check for the
zero, and `next_after` does not check for the zero at all. Besides,
`next_after` returns the token behind the first token of the delimiter,
which is not always the whole delimiter.
-/

namespace Genode.Util

open Lib Ascii

/-- The position of the first zero, or the length if there is none. -/
def nulPos (s : List UInt8) : Nat := s.findIdx fun c => decide (c = 0)

/-- The number of characters that may be looked at. -/
def limit (s : List UInt8) : Nat := min s.length (nulPos s + 1)

section Limit

variable {s : List UInt8} {i o : Nat}

theorem nulPos_le : nulPos s ≤ s.length := List.findIdx_le_length

theorem charAt_nulPos : charAt s (nulPos s) = 0 := by
  by_cases h : nulPos s < s.length
  · have hz := List.findIdx_getElem (w := h)
    rw [charAt, List.getElem?_eq_getElem h]
    exact of_decide_eq_true hz
  · exact charAt_of_le (Nat.le_of_not_lt h)

theorem charAt_ne_zero (h : i < nulPos s) : charAt s i ≠ 0 := by
  have hlt : i < s.length := h.trans_le nulPos_le
  have hz := List.not_of_lt_findIdx h
  rw [charAt, List.getElem?_eq_getElem hlt]
  simpa using hz

theorem lt_nulPos (h : i ≤ nulPos s) (hc : charAt s i ≠ 0) : i < nulPos s := by
  rcases Nat.lt_or_eq_of_le h with h | rfl
  · exact h
  · exact (hc charAt_nulPos).elim

theorem nulPos_eq (hc : charAt s i = 0) (h : ∀ j < i, charAt s j ≠ 0) : nulPos s = i := by
  apply le_antisymm
  · by_contra hlt
    exact charAt_ne_zero (Nat.lt_of_not_le hlt) hc
  · by_contra hlt
    exact h _ (Nat.lt_of_not_le hlt) charAt_nulPos

theorem nulPos_drop (h : o ≤ nulPos s) : nulPos (s.drop o) = nulPos s - o := by
  apply nulPos_eq
  · rw [charAt_drop, Nat.add_sub_cancel' h, charAt_nulPos]
  · intro j hj
    rw [charAt_drop]
    exact charAt_ne_zero (by omega)

theorem limit_drop (h : o ≤ nulPos s) : limit (s.drop o) = limit s - o := by
  unfold limit
  rw [nulPos_drop h, List.length_drop]
  have hle := nulPos_le (s := s)
  omega

theorem nulPos_le_limit : nulPos s ≤ limit s := by
  have hle := nulPos_le (s := s)
  unfold limit
  omega

theorem lt_limit (h : i ≤ nulPos s) (hi : i < s.length) : i < limit s := by
  unfold limit
  omega

end Limit

/-! ## The constructor -/

variable {pol : ScannerPolicy} {s : List UInt8} {i k n : Nat}

/-- The loops stop at the zero. -/
theorem scanWhile_bounds {p : UInt8 → Nat → Bool} (hp : ∀ j, p 0 j = false) (hi : i ≤ nulPos s)
    (hk : i + k ≤ s.length) :
    (scanWhile p s k i).reach ≤ limit s ∧ (scanWhile p s k i).val ≤ nulPos s := by
  induction k generalizing i with
  | zero => exact ⟨Nat.zero_le _, hi⟩
  | succ k ih =>
    have hlt := lt_limit hi (by omega)
    rw [scanWhile, Reach.bind_reach, Reach.bind_val, Reach.read_val, Reach.read_reach]
    split
    · rename_i hc
      have hne : charAt s i ≠ 0 := by
        intro h₀
        rw [h₀, hp] at hc
        cases hc
      obtain ⟨h₁, h₂⟩ := ih (lt_nulPos hi hne) (by omega)
      exact ⟨max_le hlt h₁, h₂⟩
    · exact ⟨max_le hlt (Nat.zero_le _), hi⟩

/-- A quoted string that is not closed before the zero, which is not at the end
of the buffer. -/
def OpenQuote (pol : ScannerPolicy) (s : List UInt8) : Prop :=
  charAt s 0 = quote ∧ nulPos s + 1 < s.length ∧
    ∀ i < nulPos s, (pol.endOfQuote s i).val = false

/-- The search for the end of the quotation keeps to the text, if it is closed
or if the buffer ends with the zero. -/
theorem quotedLoop_bounds (hpol : pol.Lawful) (hi : i ≤ nulPos s) (hk : i + k + 1 = s.length)
    (hopen : ∀ j < i, (pol.endOfQuote s j).val = false)
    (hq : s.length ≤ nulPos s + 1 ∨ ∃ j < nulPos s, (pol.endOfQuote s j).val = true) :
    (quotedLoop pol s s.length k i).reach ≤ limit s ∧
      (quotedLoop pol s s.length k i).val ≤ nulPos s := by
  induction k generalizing i with
  | zero => simp [quotedLoop, hk]
  | succ k ih =>
    -- the zero is not reached
    have hlt : i < nulPos s := by
      refine Nat.lt_of_le_of_ne hi fun heq => ?_
      rcases hq with hq | ⟨j, hj, hend⟩
      · omega
      · rw [hopen j (by omega)] at hend
        cases hend
    have hend := hpol.reach_le s i
    have hlim : i + 2 ≤ limit s := lt_limit hlt (by omega)
    rw [quotedLoop, Reach.bind_reach, Reach.bind_val]
    split
    · rename_i he
      have hquote := hpol.quote_of_end s i he
      have hne : charAt s (i + 1) ≠ 0 := by
        rw [hquote]
        decide
      refine ⟨max_le (hend.trans hlim) (Nat.zero_le _), ?_⟩
      have := lt_nulPos hlt hne
      simp only [Reach.pure_val]
      split <;> omega
    · rename_i he
      have hc := charAt_ne_zero hlt
      simp only [Reach.bind_reach, Reach.bind_val, Reach.read_val, Reach.read_reach, hc, if_false]
      obtain ⟨h₁, h₂⟩ := ih hlt (by omega) (fun j hj => by
        rcases Nat.lt_succ_iff_lt_or_eq.mp hj with hj | rfl
        · exact hopen j hj
        · simpa using he)
      exact ⟨max_le (hend.trans hlim) (max_le (by omega) h₁), h₂⟩

/-- Otherwise it looks at the character behind the zero. -/
theorem quotedLoop_beyond (hpol : pol.Lawful) (hi : i ≤ nulPos s) (hk : i + k + 1 = s.length)
    (hlen : nulPos s + 1 < s.length) (hopen : ∀ j < nulPos s, (pol.endOfQuote s j).val = false) :
    nulPos s + 2 ≤ (quotedLoop pol s n k i).reach := by
  induction k generalizing i with
  | zero => omega
  | succ k ih =>
    rw [quotedLoop, Reach.bind_reach]
    rcases Nat.lt_or_eq_of_le hi with hlt | rfl
    · have hc := charAt_ne_zero hlt
      simp only [hopen i hlt, Bool.false_eq_true, if_false, Reach.bind_reach,
        Reach.read_val, hc]
      exact (ih hlt (by omega)).trans ((le_max_right _ _).trans (le_max_right _ _))
    · rw [hpol.reach_of_zero s _ charAt_nulPos]
      exact le_max_left _ _

theorem quotedStringLen_bounds (hpol : pol.Lawful) (hs : s ≠ []) (hc : charAt s 0 = quote)
    (hq : ¬ OpenQuote pol s) :
    (quotedStringLen pol s s.length).reach ≤ limit s ∧
      (quotedStringLen pol s s.length).val ≤ nulPos s := by
  have hpos := List.length_pos_of_ne_nil hs
  refine quotedLoop_bounds hpol (Nat.zero_le _) (by omega) (fun j hj => by omega) ?_
  by_contra hno
  push Not at hno
  refine hq ⟨hc, hno.1, fun i hi => ?_⟩
  simpa using hno.2 i hi

/-- The first character is looked at only if there is one. -/
theorem typeAt_bounds (hpol : pol.Lawful) (hq : ¬ OpenQuote pol s) :
    (typeAt pol s s.length).reach ≤ limit s := by
  by_cases hs : s = []
  · subst hs
    exact Nat.zero_le _
  · have hpos := List.length_pos_of_ne_nil hs
    have hone : 0 + 1 ≤ limit s := lt_limit (Nat.zero_le _) hpos
    rw [typeAt, if_neg (by omega), Reach.bind_reach, Reach.read_val, Reach.read_reach]
    refine max_le hone ?_
    repeat' split
    all_goals try exact Nat.zero_le _
    rename_i hc
    rw [Reach.bind_reach]
    exact max_le (quotedStringLen_bounds hpol hs hc hq).1 (Nat.zero_le _)

theorem calcLen_bounds (hpol : pol.Lawful) (hq : ¬ OpenQuote pol s) :
    (calcLen pol s s.length).reach ≤ limit s ∧ (calcLen pol s s.length).val ≤ nulPos s := by
  have htype := typeAt_bounds hpol hq
  rw [calcLen, Reach.bind_reach, Reach.bind_val, typeAt_val_length]
  suffices h : ∀ x : Reach Nat, x.reach ≤ limit s ∧ x.val ≤ nulPos s →
      max (typeAt pol s s.length).reach x.reach ≤ limit s ∧ x.val ≤ nulPos s by
    apply h
    cases hl : lexType pol s with
    | singlechar =>
      refine ⟨Nat.zero_le _, lt_nulPos (Nat.zero_le _) fun h₀ => ?_⟩
      cases s with
      | nil => cases hl
      | cons c cs =>
        rw [charAt_cons_zero] at h₀
        simp [lexType, h₀] at hl
    | number =>
      exact scanWhile_bounds (fun _ => by decide) (Nat.zero_le _) (by omega)
    | ident =>
      exact scanWhile_bounds hpol.identifierChar_zero (Nat.zero_le _) (by omega)
    | string =>
      cases s with
      | nil => cases hl
      | cons c cs =>
        refine quotedStringLen_bounds hpol (by simp) ?_ hq
        by_contra hne
        rw [charAt_cons_zero] at hne
        unfold lexType at hl
        repeat' split at hl
        all_goals simp_all
    | whitespace =>
      exact scanWhile_bounds (fun _ => by decide) (Nat.zero_le _) (by omega)
    | end' => exact ⟨Nat.zero_le _, Nat.zero_le _⟩
  intro x hx
  exact ⟨max_le htype hx.1, hx.2⟩

/-- The constructor keeps to the text. -/
theorem construct_bounds (hpol : pol.Lawful) (hq : ¬ OpenQuote pol s) :
    (Token.construct pol s).reach ≤ limit s ∧ lexeme pol s ≤ nulPos s := by
  obtain ⟨h₁, h₂⟩ := calcLen_bounds hpol hq
  rw [calcLen_val hpol] at h₂
  exact ⟨max_le h₁ (Nat.zero_le _), h₂⟩

/-- Or it looks beyond the zero. -/
theorem construct_beyond (hpol : pol.Lawful) (hq : OpenQuote pol s) :
    limit s < (Token.construct pol s).reach := by
  obtain ⟨hc, hlen, hopen⟩ := hq
  have hs : s ≠ [] := by
    rintro rfl
    simp at hlen
  have hpos := List.length_pos_of_ne_nil hs
  have hbeyond : nulPos s + 2 ≤ (quotedStringLen pol s s.length).reach :=
    quotedLoop_beyond hpol (Nat.zero_le _) (by omega) hlen hopen
  have htype : (quotedStringLen pol s s.length).reach ≤ (typeAt pol s s.length).reach := by
    have h₀ : quote ≠ 0 := by decide
    have h₂ : isDigit quote = false := by decide
    have h₃ : isWhitespace quote = false := by decide
    rw [typeAt, if_neg (by omega), Reach.bind_reach, Reach.read_val, hc]
    simp only [h₀, hpol.identifierChar_quote, h₂, h₃, if_false, if_true, Bool.false_eq_true,
      Reach.bind_reach]
    exact (le_max_left _ _).trans (le_max_right _ _)
  have hcalc : (typeAt pol s s.length).reach ≤ (Token.construct pol s).reach := by
    rw [Token.construct, Reach.bind_reach, calcLen, Reach.bind_reach]
    exact (le_max_left _ _).trans (le_max_left _ _)
  unfold limit
  omega

/-! ## The next token -/

/-- The constructor for a later part of the text. -/
theorem construct_shift_le_iff {o : Nat} (hpol : pol.Lawful) (ho : o ≤ nulPos s) :
    ((Token.construct pol (s.drop o)).shift o).reach ≤ limit s ↔ ¬ OpenQuote pol (s.drop o) := by
  have hle := nulPos_le_limit (s := s)
  have hlim := limit_drop ho
  constructor
  · intro h hq
    have hb := construct_beyond hpol hq
    rw [Reach.shift, if_neg (by omega)] at h
    dsimp only at h
    omega
  · intro hq
    exact Reach.shift_reach_le (by have := (construct_bounds hpol hq).1; omega)

theorem quotedLoop_reach_le (hpol : pol.Lawful) : (quotedLoop pol s n k i).reach ≤ i + k + 1 := by
  induction k generalizing i with
  | zero => exact Nat.zero_le _
  | succ k ih =>
    have hend := hpol.reach_le s i
    rw [quotedLoop, Reach.bind_reach]
    refine max_le (by omega) ?_
    split
    · exact Nat.zero_le _
    · rw [Reach.bind_reach, Reach.read_reach]
      refine max_le (by omega) ?_
      split
      · exact Nat.zero_le _
      · exact ih.trans (by omega)

/-- The type of a token is determined by the token. -/
theorem typeAt_reach_le (hpol : pol.Lawful) : (typeAt pol s n).reach ≤ n := by
  unfold typeAt
  split
  · exact Nat.zero_le _
  · rw [Reach.bind_reach, Reach.read_reach]
    refine max_le (by omega) ?_
    repeat' split
    all_goals try exact Nat.zero_le _
    rw [Reach.bind_reach]
    refine max_le ?_ (Nat.zero_le _)
    have h : (quotedStringLen pol s n).reach ≤ 0 + (n - 1) + 1 := quotedLoop_reach_le hpol
    omega

/-! ## The search for a delimiter -/

variable {delim : List UInt8} {o : Nat}

/-- The comparison finds the delimiter at the beginning of the text. -/
theorem strcmpEq_val {b : Bool} (hd : (0 : UInt8) ∉ delim) :
    (strcmpEq b s delim i).val = true ↔ delim <+: s.drop i := by
  induction delim generalizing i with
  | nil => cases b <;> simp [strcmpEq]
  | cons c delim ih =>
    rw [List.mem_cons, not_or] at hd
    rw [strcmpEq, Reach.bind_val, Reach.read_val]
    by_cases hi : i < s.length
    · rw [drop_eq_charAt_cons hi, List.cons_prefix_cons]
      split
      · rename_i hc
        rw [ih hd.2, hc]
        simp
      · rename_i hc
        simp [Ne.symm hc]
    · have hle := Nat.le_of_not_lt hi
      rw [charAt_of_le hle, if_neg hd.1, List.drop_eq_nil_of_le hle]
      simp

theorem strcmpEq_reach_of_eq (h : (strcmpEq true s delim i).val = true) :
    (strcmpEq true s delim i).reach = i + delim.length + 1 := by
  induction delim generalizing i with
  | nil => simp [strcmpEq]
  | cons c delim ih =>
    rw [strcmpEq, Reach.bind_val, Reach.read_val] at h
    rw [strcmpEq, Reach.bind_reach, Reach.read_reach, Reach.read_val]
    split at h
    · rename_i hc
      rw [if_pos hc, ih h, List.length_cons]
      omega
    · cases h

/-- A comparison that fails does not go beyond the zero. -/
theorem strcmpEq_reach_le (hd : (0 : UInt8) ∉ delim) (hi : i ≤ nulPos s)
    (hlen : i + delim.length ≤ s.length) (h : (strcmpEq true s delim i).val = false) :
    (strcmpEq true s delim i).reach ≤ limit s := by
  induction delim generalizing i with
  | nil => simp [strcmpEq] at h
  | cons c delim ih =>
    rw [List.mem_cons, not_or] at hd
    rw [List.length_cons] at hlen
    have hlt := lt_limit hi (by omega)
    rw [strcmpEq, Reach.bind_val, Reach.read_val] at h
    rw [strcmpEq, Reach.bind_reach, Reach.read_reach, Reach.read_val]
    refine max_le hlt ?_
    split at h
    · rename_i hc
      rw [if_pos hc]
      exact ih hd.2 (lt_nulPos hi (by rw [hc]; exact Ne.symm hd.1)) (by omega) h
    · rename_i hc
      rw [if_neg hc]
      exact Nat.zero_le _

theorem strcmpEq_reach_pos (s delim : List UInt8) (i : Nat) :
    i + 1 ≤ (strcmpEq true s delim i).reach := by
  cases delim with
  | nil => simp [strcmpEq]
  | cons c delim =>
    rw [strcmpEq, Reach.bind_reach]
    exact le_max_left _ _

/-- The delimiter occurs within the text. -/
def OccursAt (s delim : List UInt8) (o : Nat) : Prop :=
  o + delim.length ≤ limit s ∧ delim <+: s.drop o

/-- The delimiter occurs for the first time. -/
def FirstAt (s delim : List UInt8) (o : Nat) : Prop :=
  OccursAt s delim o ∧ ∀ o' < o, ¬ OccursAt s delim o'

/-- A delimiter that begins before the zero also ends before it. -/
theorem add_length_le_nulPos (hd : (0 : UInt8) ∉ delim) (ho : o ≤ nulPos s)
    (h : delim <+: s.drop o) : o + delim.length ≤ nulPos s := by
  by_contra hlt
  obtain ⟨rest, hrest⟩ := h
  have hz : charAt (s.drop o) (nulPos s - o) = 0 := by
    rw [charAt_drop, Nat.add_sub_cancel' ho, charAt_nulPos]
  have hi : nulPos s - o < delim.length := by omega
  rw [← hrest, charAt_append_left hi] at hz
  exact hd (hz ▸ charAt_mem hi)

theorem occursAt_of_starts (hd : (0 : UInt8) ∉ delim) (ho : o ≤ nulPos s)
    (h : delim <+: s.drop o) : OccursAt s delim o :=
  ⟨(add_length_le_nulPos hd ho h).trans nulPos_le_limit, h⟩

theorem FirstAt.le_nulPos (h : FirstAt s delim o) : o ≤ nulPos s := by
  by_contra hlt
  have hle := h.1.1
  have hlim : limit s ≤ nulPos s + 1 := min_le_right _ _
  have hnil : delim = [] := List.length_eq_zero_iff.mp (by omega)
  subst hnil
  exact h.2 0 (by omega) ⟨Nat.zero_le _, List.nil_prefix⟩

/-- A position at which the delimiter does not occur. -/
theorem strcmpEq_shift_of_not_occursAt (hd : (0 : UInt8) ∉ delim) (ho : o ≤ nulPos s)
    (hlen : o + delim.length ≤ s.length) (h : ¬ OccursAt s delim o) :
    (strcmpEq true (s.drop o) delim 0).val = false ∧
      ((strcmpEq true (s.drop o) delim 0).shift o).reach ≤ limit s := by
  have hval : (strcmpEq true (s.drop o) delim 0).val = false := by
    rw [Bool.eq_false_iff]
    intro ht
    exact h (occursAt_of_starts hd ho (by simpa using (strcmpEq_val hd).mp ht))
  have hreach := strcmpEq_reach_le hd (Nat.zero_le _) (by rw [List.length_drop]; omega) hval
  rw [limit_drop ho] at hreach
  have hle := nulPos_le_limit (s := s)
  exact ⟨hval, Reach.shift_reach_le (by omega)⟩

/-- The search comes to the first occurrence, and returns the token behind the
first token of it. -/
theorem nextAfterLoop_of_firstAt (hpol : pol.Lawful) (hd : (0 : UInt8) ∉ delim) {o₀ : Nat}
    (hf : FirstAt s delim o₀) (ho : o ≤ o₀) (hk : o₀ < o + k) :
    (nextAfterLoop pol s delim k o).val = lex pol (s.drop (o₀ + lexeme pol (s.drop o₀))) ∧
      ((nextAfterLoop pol s delim k o).reach ≤ limit s ↔
        o₀ + delim.length < limit s ∧
        ((Token.construct pol (s.drop o₀)).shift o₀).reach ≤ limit s ∧
        ((Token.construct pol (s.drop (o₀ + lexeme pol (s.drop o₀)))).shift
          (o₀ + lexeme pol (s.drop o₀))).reach ≤ limit s) := by
  have hle := hf.le_nulPos
  induction k generalizing o with
  | zero => omega
  | succ k ih =>
    rw [nextAfterLoop, Reach.bind_val, Reach.bind_reach, Reach.shift_val, Nat.max_le]
    rcases Nat.lt_or_eq_of_le ho with hlt | rfl
    · have hocc := hf.1.1
      have hlim : limit s ≤ s.length := min_le_left _ _
      obtain ⟨hval, hreach⟩ := strcmpEq_shift_of_not_occursAt hd (by omega) (by omega)
        (hf.2 o hlt)
      rw [hval]
      simp only [Bool.false_eq_true, if_false, hreach, true_and]
      exact ih hlt (by omega)
    · have hval : (strcmpEq true (s.drop o) delim 0).val = true :=
        (strcmpEq_val hd).mpr (by simpa using hf.1.2)
      have hreach := strcmpEq_reach_of_eq hval
      rw [hval, Reach.shift_reach_of_pos (by omega), hreach]
      simp only [if_true, Reach.bind_val, Reach.bind_reach, Reach.shift_val, construct_val hpol,
        Nat.max_le, lex_next_val hpol, List.drop_drop, true_and]
      refine and_congr (by omega) (and_congr_right fun _ => ?_)
      rw [lex, Token.next, Reach.shift_shift, List.drop_drop]

/-- Without an occurrence the search keeps to the text, if it cannot get behind
the zero. -/
theorem nextAfterLoop_bounds (pol : ScannerPolicy) (hd : (0 : UInt8) ∉ delim)
    (hno : ∀ o, ¬ OccursAt s delim o)
    (hlen : s.length < nulPos s + 1 + delim.length) (hk : o + k + delim.length = s.length + 1) :
    (nextAfterLoop pol s delim k o).val = .null ∧
      (nextAfterLoop pol s delim k o).reach ≤ limit s := by
  induction k generalizing o with
  | zero => exact ⟨rfl, Nat.zero_le _⟩
  | succ k ih =>
    obtain ⟨hval, hreach⟩ := strcmpEq_shift_of_not_occursAt hd (by omega) (by omega) (hno o)
    rw [nextAfterLoop, Reach.bind_val, Reach.bind_reach, Reach.shift_val, hval]
    obtain ⟨h₁, h₂⟩ := ih (o := o + 1) (by omega)
    exact ⟨h₁, max_le hreach h₂⟩

/-- Otherwise it goes on behind the zero. -/
theorem nextAfterLoop_beyond (pol : ScannerPolicy) (hd : (0 : UInt8) ∉ delim)
    (hno : ∀ o, ¬ OccursAt s delim o)
    (hlen : nulPos s + 1 + delim.length ≤ s.length) (ho : o ≤ nulPos s + 1)
    (hk : o + k + delim.length = s.length + 1) :
    limit s < (nextAfterLoop pol s delim k o).reach := by
  have hlim : limit s ≤ nulPos s + 1 := min_le_right _ _
  induction k generalizing o with
  | zero => omega
  | succ k ih =>
    rw [nextAfterLoop, Reach.bind_reach, Reach.shift_val]
    rcases Nat.lt_or_eq_of_le ho with hlt | rfl
    · obtain ⟨hval, -⟩ := strcmpEq_shift_of_not_occursAt hd (by omega) (by omega) (hno o)
      rw [hval]
      exact (ih hlt (by omega)).trans_le (le_max_right _ _)
    · have hpos := strcmpEq_reach_pos (s.drop (nulPos s + 1)) delim 0
      rw [Reach.shift_reach_of_pos (by omega)]
      exact lt_of_lt_of_le (by omega) (le_max_left _ _)

/-! ## All operations -/

/-- What a user does with a text. -/
inductive TokenOp where
  | construct
  | next
  | eatWhitespace
  | nextAfter (delim : List UInt8)
  deriving DecidableEq, Repr

/-- The operation, for the first token of the text. -/
def TokenOp.run (pol : ScannerPolicy) (s : List UInt8) : TokenOp → Reach Token
  | .construct => Token.construct pol s
  | .next => do (← Token.construct pol s).next pol
  | .eatWhitespace => do (← Token.construct pol s).eatWhitespace pol
  | .nextAfter delim => do (← Token.construct pol s).nextAfter pol delim

/-- The token lies within the text. -/
def Lies (s : List UInt8) (t : Token) : Prop :=
  t.start = none ∨ ∃ o, t.start = some (s.drop o) ∧ o + t.len ≤ limit s

/-- The operation keeps to the text, and `next_after` returns the token that
starts directly after the first occurrence of the delimiter. -/
structure Right (pol : ScannerPolicy) (s : List UInt8) (op : TokenOp) : Prop where
  reach_le : (op.run pol s).reach ≤ limit s
  lies : Lies s (op.run pol s).val
  after : ∀ delim o, op = .nextAfter delim → FirstAt s delim o →
    (op.run pol s).val = lex pol (s.drop (o + delim.length))
  absent : ∀ delim, op = .nextAfter delim → (∀ o, ¬ OccursAt s delim o) →
    (op.run pol s).val.valid = false

/-- The texts that the operation is made for. -/
def Fine (pol : ScannerPolicy) (s : List UInt8) : TokenOp → Prop
  | .construct => ¬ OpenQuote pol s
  | .next => ¬ OpenQuote pol s ∧ ¬ OpenQuote pol (s.drop (lexeme pol s))
  | .eatWhitespace =>
    ¬ OpenQuote pol s ∧
      (lexType pol s = .whitespace → ¬ OpenQuote pol (s.drop (lexeme pol s)))
  | .nextAfter delim =>
    ¬ OpenQuote pol s ∧
      ((∃ o, FirstAt s delim o ∧ lexeme pol s ≠ 0 ∧ o + delim.length < limit s ∧
          lexeme pol (s.drop o) = delim.length ∧ ¬ OpenQuote pol (s.drop o) ∧
          ¬ OpenQuote pol (s.drop (o + delim.length))) ∨
        (∀ o, ¬ OccursAt s delim o) ∧
          (lexeme pol s = 0 ∨ s.length < nulPos s + 1 + delim.length))

theorem construct_le_iff (hpol : pol.Lawful) :
    (Token.construct pol s).reach ≤ limit s ↔ ¬ OpenQuote pol s := by
  constructor
  · intro h hq
    have := construct_beyond hpol hq
    omega
  · exact fun hq => (construct_bounds hpol hq).1

theorem lies_lex_drop (hpol : pol.Lawful) (ho : o ≤ nulPos s)
    (hq : ¬ OpenQuote pol (s.drop o)) : Lies s (lex pol (s.drop o)) := by
  have h := (construct_bounds hpol hq).2
  rw [nulPos_drop ho] at h
  have hle := nulPos_le_limit (s := s)
  exact .inr ⟨o, rfl, by rw [lex]; dsimp only; omega⟩

/-- The operations on the first token begin with its construction. -/
theorem run_le_iff {f : Token → Reach Token} (op : TokenOp) (hpol : pol.Lawful)
    (hop : op.run pol s = Token.construct pol s >>= f) :
    (op.run pol s).val = (f (lex pol s)).val ∧
      ((op.run pol s).reach ≤ limit s ↔
        ¬ OpenQuote pol s ∧ (f (lex pol s)).reach ≤ limit s) := by
  rw [hop, Reach.bind_val, Reach.bind_reach, construct_val hpol, Nat.max_le, construct_le_iff hpol]
  exact ⟨rfl, Iff.rfl⟩

/-- What the operations other than `next_after` have to do. -/
theorem right_iff {op : TokenOp} (hop : ∀ delim, op ≠ .nextAfter delim) :
    Right pol s op ↔ (op.run pol s).reach ≤ limit s ∧ Lies s (op.run pol s).val := by
  constructor
  · exact fun h => ⟨h.reach_le, h.lies⟩
  · exact fun h => ⟨h.1, h.2, fun d _ he => (hop d he).elim, fun d he => (hop d he).elim⟩

theorem right_construct_iff (hpol : pol.Lawful) :
    Right pol s .construct ↔ Fine pol s .construct := by
  rw [right_iff (fun _ h => by cases h)]
  constructor
  · exact fun h => (construct_le_iff hpol).mp h.1
  · intro hq
    refine ⟨(construct_le_iff hpol).mpr hq, ?_⟩
    change Lies s (Token.construct pol s).val
    rw [construct_val hpol]
    exact lies_lex_drop hpol (o := 0) (Nat.zero_le _) hq

/-- The step to the next token. -/
theorem next_le_iff (hpol : pol.Lawful) (hq : ¬ OpenQuote pol s) :
    ((lex pol s).next pol).reach ≤ limit s ↔ ¬ OpenQuote pol (s.drop (lexeme pol s)) :=
  construct_shift_le_iff hpol (construct_bounds hpol hq).2

theorem right_next_iff (hpol : pol.Lawful) : Right pol s .next ↔ Fine pol s .next := by
  obtain ⟨hval, hreach⟩ :=
    run_le_iff (s := s) (f := fun t => t.next pol) .next hpol rfl
  rw [right_iff (fun _ h => by cases h), hreach, hval]
  constructor
  · rintro ⟨⟨hq, hn⟩, -⟩
    exact ⟨hq, (next_le_iff hpol hq).mp hn⟩
  · rintro ⟨hq, hn⟩
    refine ⟨⟨hq, (next_le_iff hpol hq).mpr hn⟩, ?_⟩
    rw [lex_next_val hpol]
    exact lies_lex_drop hpol (construct_bounds hpol hq).2 hn

theorem right_eatWhitespace_iff (hpol : pol.Lawful) :
    Right pol s .eatWhitespace ↔ Fine pol s .eatWhitespace := by
  obtain ⟨hval, hreach⟩ :=
    run_le_iff (s := s) (f := fun t => t.eatWhitespace pol) .eatWhitespace hpol rfl
  rw [right_iff (fun _ h => by cases h), hreach, hval]
  -- the type is looked up within the token
  have htype (hq : ¬ OpenQuote pol s) : ((lex pol s).type pol).reach ≤ limit s := by
    have hlen := (construct_bounds hpol hq).2
    have hle : ((lex pol s).type pol).reach ≤ lexeme pol s := typeAt_reach_le hpol
    exact hle.trans (hlen.trans nulPos_le_limit)
  rw [Token.eatWhitespace, Reach.bind_reach, Reach.bind_val, lex_type_val hpol, Nat.max_le]
  by_cases hw : lexType pol s = .whitespace
  · simp only [hw, if_true, Fine, true_implies]
    constructor
    · rintro ⟨⟨hq, -, hn⟩, -⟩
      exact ⟨hq, (next_le_iff hpol hq).mp hn⟩
    · rintro ⟨hq, hn⟩
      refine ⟨⟨hq, htype hq, (next_le_iff hpol hq).mpr hn⟩, ?_⟩
      rw [lex_next_val hpol]
      exact lies_lex_drop hpol (construct_bounds hpol hq).2 hn
  · simp only [hw, if_false, Fine, false_implies, and_true]
    constructor
    · exact fun h => h.1.1
    · intro hq
      refine ⟨⟨hq, htype hq, Nat.zero_le _⟩, ?_⟩
      exact lies_lex_drop hpol (o := 0) (Nat.zero_le _) hq

theorem FirstAt.unique {o' : Nat} (h : FirstAt s delim o) (h' : FirstAt s delim o') : o = o' := by
  rcases Nat.lt_trichotomy o o' with hlt | heq | hlt
  · exact (h'.2 o hlt h.1).elim
  · exact heq
  · exact (h.2 o' hlt h'.1).elim

theorem exists_firstAt (h : OccursAt s delim o) : ∃ o, FirstAt s delim o := by
  classical
  have hex : ∃ o, OccursAt s delim o := ⟨o, h⟩
  exact ⟨Nat.find hex, Nat.find_spec hex, fun o' hlt => Nat.find_min hex hlt⟩

theorem lex_drop_inj {o' : Nat} (ho : o ≤ s.length) (ho' : o' ≤ s.length)
    (h : lex pol (s.drop o) = lex pol (s.drop o')) : o = o' := by
  have hdrop : s.drop o = s.drop o' := Option.some.inj (congrArg Token.start h)
  have hlen := congrArg List.length hdrop
  rw [List.length_drop, List.length_drop] at hlen
  omega

/-- There is nothing to search in, or the delimiter is searched. -/
theorem lex_nextAfter_cases (pol : ScannerPolicy) (s delim : List UInt8) :
    ((lexeme pol s = 0 ∨ s.length < delim.length) ∧
        (lex pol s).nextAfter pol delim = pure .null) ∨
      (lexeme pol s ≠ 0 ∧ delim.length ≤ s.length ∧
        (lex pol s).nextAfter pol delim =
          nextAfterLoop pol s delim (s.length + 1 - delim.length) 0) := by
  by_cases h : lexeme pol s = 0 ∨ s.length < delim.length
  · refine .inl ⟨h, ?_⟩
    rcases h with h | h
    · simp [Token.nextAfter, lex, Token.valid, h]
    · simp [Token.nextAfter, lex, h]
  · push Not at h
    refine .inr ⟨h.1, h.2, ?_⟩
    simp [Token.nextAfter, lex, Token.valid, h.1, Nat.not_lt.mpr h.2]

/-- The delimiter occurs. -/
theorem right_nextAfter_iff_of_firstAt (hpol : pol.Lawful) (hd : (0 : UInt8) ∉ delim)
    (hf : FirstAt s delim o) :
    Right pol s (.nextAfter delim) ↔
      ¬ OpenQuote pol s ∧ lexeme pol s ≠ 0 ∧ o + delim.length < limit s ∧
        lexeme pol (s.drop o) = delim.length ∧ ¬ OpenQuote pol (s.drop o) ∧
        ¬ OpenQuote pol (s.drop (o + delim.length)) := by
  obtain ⟨hval, hreach⟩ := run_le_iff (s := s) (f := fun t => t.nextAfter pol delim)
    (.nextAfter delim) hpol rfl
  have ho := hf.le_nulPos
  have hend := add_length_le_nulPos hd ho hf.1.2
  have hnul := nulPos_le (s := s)
  rcases lex_nextAfter_cases pol s delim with ⟨h, hnone⟩ | ⟨hlex, -, hloop⟩
  · have hzero : lexeme pol s = 0 := by omega
    constructor
    · intro hr
      have hafter := hr.after delim o rfl hf
      rw [hval, hnone] at hafter
      cases hafter
    · exact fun h => (h.2.1 hzero).elim
  · rw [hloop] at hval hreach
    obtain ⟨hlval, hlreach⟩ :=
      nextAfterLoop_of_firstAt (k := s.length + 1 - delim.length) (o := 0) hpol hd hf
        (Nat.zero_le _) (by omega)
    have hbound := lexeme_le_length pol (s.drop o)
    rw [List.length_drop] at hbound
    constructor
    · intro hr
      obtain ⟨hq, hle⟩ := hreach.mp hr.reach_le
      obtain ⟨hlt, hc, hn⟩ := hlreach.mp hle
      have hafter := hr.after delim o rfl hf
      rw [hval, hlval] at hafter
      have hlen : lexeme pol (s.drop o) = delim.length := by
        have := lex_drop_inj (by omega) (by omega) hafter
        omega
      rw [hlen] at hn
      exact ⟨hq, hlex, hlt, hlen, (construct_shift_le_iff hpol ho).mp hc,
        (construct_shift_le_iff hpol hend).mp hn⟩
    · rintro ⟨hq, -, hlt, hlen, hc, hn⟩
      rw [hlen] at hlval hlreach
      have hle := hlreach.mpr ⟨hlt, (construct_shift_le_iff hpol ho).mpr hc,
        (construct_shift_le_iff hpol hend).mpr hn⟩
      constructor
      · exact hreach.mpr ⟨hq, hle⟩
      · rw [hval, hlval]
        exact lies_lex_drop hpol hend hn
      · intro d o' heq hf'
        cases heq
        rw [hval, hlval, hf.unique hf']
      · intro d heq hno
        cases heq
        exact (hno o hf.1).elim

/-- The delimiter does not occur. -/
theorem right_nextAfter_iff_of_absent (hpol : pol.Lawful) (hd : (0 : UInt8) ∉ delim)
    (hno : ∀ o, ¬ OccursAt s delim o) :
    Right pol s (.nextAfter delim) ↔
      ¬ OpenQuote pol s ∧ (lexeme pol s = 0 ∨ s.length < nulPos s + 1 + delim.length) := by
  obtain ⟨hval, hreach⟩ := run_le_iff (s := s) (f := fun t => t.nextAfter pol delim)
    (.nextAfter delim) hpol rfl
  -- the result is the invalid token, so that only the reach matters
  have hright (hnull : ((lex pol s).nextAfter pol delim).val = .null) :
      Right pol s (.nextAfter delim) ↔ (TokenOp.run pol s (.nextAfter delim)).reach ≤ limit s := by
    constructor
    · exact Right.reach_le
    · intro hle
      rw [hnull] at hval
      constructor
      · exact hle
      · exact .inl (by rw [hval]; rfl)
      · intro d o heq hf
        cases heq
        exact (hno o hf.1).elim
      · intro d heq _
        rw [hval]
        rfl
  rcases lex_nextAfter_cases pol s delim with ⟨h, hnone⟩ | ⟨hlex, hlen, hloop⟩
  · rw [hright (by rw [hnone]; rfl), hreach, hnone]
    refine and_congr_right fun _ => ⟨fun _ => ?_, fun _ => Nat.zero_le _⟩
    omega
  · rw [hloop] at hreach hright
    by_cases hshort : s.length < nulPos s + 1 + delim.length
    · obtain ⟨hnull, hle⟩ :=
        nextAfterLoop_bounds pol (k := s.length + 1 - delim.length) (o := 0) hd hno
          hshort (by omega)
      rw [hright hnull, hreach]
      exact and_congr_right fun _ => ⟨fun _ => .inr hshort, fun _ => hle⟩
    · have hbeyond :=
        nextAfterLoop_beyond pol (k := s.length + 1 - delim.length) (o := 0) hd hno
          (by omega) (Nat.zero_le _) (by omega)
      constructor
      · intro hr
        have := (hreach.mp hr.reach_le).2
        omega
      · rintro ⟨-, h | h⟩
        · exact (hlex h).elim
        · exact (hshort h).elim

theorem right_nextAfter_iff (hpol : pol.Lawful) (hd : (0 : UInt8) ∉ delim) :
    Right pol s (.nextAfter delim) ↔ Fine pol s (.nextAfter delim) := by
  by_cases hocc : ∃ o, OccursAt s delim o
  · obtain ⟨o₁, h₁⟩ := hocc
    obtain ⟨o, hf⟩ := exists_firstAt h₁
    rw [right_nextAfter_iff_of_firstAt hpol hd hf]
    refine and_congr_right fun _ => ⟨fun h => .inl ⟨o, hf, h⟩, fun h => ?_⟩
    rcases h with ⟨o', hf', h⟩ | ⟨hno, -⟩
    · rw [hf.unique hf']
      exact h
    · exact (hno o hf.1).elim
  · push Not at hocc
    rw [right_nextAfter_iff_of_absent hpol hd hocc]
    refine and_congr_right fun _ => ⟨fun h => .inr ⟨hocc, h⟩, fun h => ?_⟩
    rcases h with ⟨o, hf, -⟩ | ⟨-, h⟩
    · exact (hocc o hf.1).elim
    · exact h

/-- A valid token that is returned is the first token of the text from a later
position on. So what holds for the first token of a text holds for all tokens
that are obtained one from another. -/
theorem exists_lex_drop {op : TokenOp} (hpol : pol.Lawful)
    (hop : ∀ delim, op = .nextAfter delim → (0 : UInt8) ∉ delim) (h : Right pol s op)
    (hv : (op.run pol s).val.valid = true) :
    ∃ o ≤ nulPos s, (op.run pol s).val = lex pol (s.drop o) := by
  have hfirst : lex pol s = lex pol (s.drop 0) := rfl
  cases op with
  | construct => exact ⟨0, Nat.zero_le _, construct_val hpol⟩
  | next =>
    have hq := (right_next_iff hpol).mp h
    exact ⟨lexeme pol s, (construct_bounds hpol hq.1).2,
      (run_le_iff (f := fun t => t.next pol) .next hpol rfl).1.trans (lex_next_val hpol)⟩
  | eatWhitespace =>
    have hq := (right_eatWhitespace_iff hpol).mp h
    rw [(run_le_iff (f := fun t => t.eatWhitespace pol) .eatWhitespace hpol rfl).1,
      Token.eatWhitespace, Reach.bind_val, lex_type_val hpol]
    split
    · exact ⟨lexeme pol s, (construct_bounds hpol hq.1).2, lex_next_val hpol⟩
    · exact ⟨0, Nat.zero_le _, hfirst⟩
  | nextAfter delim =>
    by_cases hocc : ∃ o, OccursAt s delim o
    · obtain ⟨o₁, h₁⟩ := hocc
      obtain ⟨o, hf⟩ := exists_firstAt h₁
      exact ⟨o + delim.length, add_length_le_nulPos (hop delim rfl) hf.le_nulPos hf.1.2,
        h.after delim o rfl hf⟩
    · push Not at hocc
      rw [h.absent delim rfl hocc] at hv
      cases hv

theorem right_iff_fine (hpol : pol.Lawful) (op : TokenOp)
    (hop : ∀ delim, op = .nextAfter delim → (0 : UInt8) ∉ delim) :
    Right pol s op ↔ Fine pol s op := by
  cases op with
  | construct => exact right_construct_iff hpol
  | next => exact right_next_iff hpol
  | eatWhitespace => exact right_eatWhitespace_iff hpol
  | nextAfter delim => exact right_nextAfter_iff hpol (hop delim rfl)

end Genode.Util
