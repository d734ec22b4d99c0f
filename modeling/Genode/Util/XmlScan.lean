import Mathlib.Data.List.Forall2
import Genode.Util.XmlNode
import Genode.Lib.Nesting

/-!
# XmlScan — the tags of a text, and the sub nodes of a node

All loops of the parser go through the same tags of the text. The number
of sub nodes is counted while the end tag is searched, by depth only. The
iteration over the sub nodes parses each of them, and so stops at the
first one that is not closed by its own name.
-/

namespace Genode.Util.Xml

open Lib Ascii Nesting

/-- The length of the token at the beginning of the text. -/
def len (s : List UInt8) : Nat := lexeme xmlIdentifier s

/-- The token at the beginning of the text. -/
def tok (s : List UInt8) : Token := lex xmlIdentifier s

section Tokens

variable {s s' delim : List UInt8} {t : Token}

theorem tokenAt_eq (s : List UInt8) : tokenAt s = tok s := construct_val lawful_xmlIdentifier

@[simp] theorem rest_tok : rest (tok s) = s := rfl

@[simp] theorem start_tok : (tok s).start = some s := rfl

@[simp] theorem len_tok : (tok s).len = len s := rfl

@[simp] theorem next_tok : next (tok s) = tok (s.drop (len s)) :=
  lex_next_val lawful_xmlIdentifier

@[simp] theorem typeOf_tok : typeOf (tok s) = lexType xmlIdentifier s :=
  lex_type_val lawful_xmlIdentifier

theorem valid_tok : (tok s).valid = true ↔ len s ≠ 0 := by
  simp only [Token.valid, start_tok, len_tok, Option.isSome_some, Bool.true_and]
  exact decide_eq_true_iff

theorem typeOf_eq_end_iff : typeOf (tok s) = .end' ↔ len s = 0 := by
  rw [typeOf_tok]
  exact lexeme_eq_zero_iff.symm

theorem eatWhitespace_tok :
    eatWhitespace (tok s) =
      if lexType xmlIdentifier s = .whitespace then tok (s.drop (len s)) else tok s := by
  rw [eatWhitespace, Token.eatWhitespace, Reach.bind_val]
  change (if typeOf (tok s) = .whitespace then _ else _ : Reach Token).val = _
  rw [typeOf_tok]
  split
  · exact next_tok
  · rfl

theorem char_tok : char (tok s) 0 = if len s = 0 then 0 else charAt s 0 := by
  unfold char Token.at'
  by_cases h : len s = 0
  · simp [h]
  · simp [h, Nat.pos_of_ne_zero h]

theorem len_ne_zero_of_char {c : UInt8} (hc : c ≠ 0) (h : char (tok s) 0 = c) : len s ≠ 0 := by
  intro h₀
  rw [char_tok, if_pos h₀] at h
  exact hc h.symm

theorem drop_len_length_lt (h : len s ≠ 0) : (s.drop (len s)).length < s.length := by
  have hle : len s ≤ s.length := lexeme_le_length xmlIdentifier s
  rw [List.length_drop]
  omega

/-- A token of a later part of the text. -/
def Later (s : List UInt8) (t : Token) : Prop := ∃ s', t = tok s' ∧ s' <:+ s

theorem later_tok : Later s (tok s) := ⟨s, rfl, List.suffix_rfl⟩

theorem Later.next (h : Later s t) : Later s (next t) := by
  obtain ⟨s', rfl, hs⟩ := h
  exact ⟨s'.drop (len s'), next_tok, (List.drop_suffix _ _).trans hs⟩

theorem Later.trans (hs : s' <:+ s) (h : Later s' t) : Later s t := by
  obtain ⟨s'', rfl, h⟩ := h
  exact ⟨s'', rfl, h.trans hs⟩

theorem ne_null_of_valid (h : t.valid = true) : t ≠ .null := by
  rintro rfl
  cases h

theorem nextAfterLoop_later {k o : Nat}
    (h : (nextAfterLoop xmlIdentifier s delim k o).val ≠ .null) :
    Later s (nextAfterLoop xmlIdentifier s delim k o).val := by
  induction k generalizing o with
  | zero => exact (h rfl).elim
  | succ k ih =>
    rw [nextAfterLoop, Reach.bind_val] at h ⊢
    split
    · rw [Reach.bind_val, Reach.shift_val, Reach.shift_val, construct_val lawful_xmlIdentifier]
      exact Later.trans (List.drop_suffix o s) later_tok.next
    · rename_i hc
      rw [if_neg hc] at h
      exact ih h

theorem nextAfter_later (h : nextAfter (tok s) delim ≠ .null) :
    Later s (nextAfter (tok s) delim) := by
  unfold nextAfter Token.nextAfter at h ⊢
  simp only [start_tok] at h ⊢
  split
  · rename_i hc
    rw [if_pos hc] at h
    exact (h rfl).elim
  · rename_i hc
    rw [if_neg hc] at h
    exact nextAfterLoop_later h

end Tokens

/-! ## Comments and tags -/

section Tags

variable {s s' : List UInt8} {t : Token} {n : Nat}

/-- A comment is searched behind its start. -/
theorem comment_suffix (h : (Comment.construct (tok s)).next = tok s') : s' <:+ s := by
  unfold Comment.construct at h
  split at h
  · cases h
  · have h₄ : Later s (next (next (next (next (tok s))))) := later_tok.next.next.next.next
    obtain ⟨s₄, heq, hs₄⟩ := h₄
    rw [heq] at h
    have hlater : Later s₄ (nextAfter (tok s₄) commentEnd) := by
      apply nextAfter_later
      intro hnull
      rw [hnull] at h
      cases h
    obtain ⟨s'', heq', hs''⟩ := hlater
    rw [heq'] at h
    have hsame : s'' = s' := congrArg rest h
    exact hsame ▸ hs''.trans hs₄

/-- Behind a comment the text is shorter. -/
theorem comment_later (h : (Comment.construct (tok s)).valid = true) :
    len s ≠ 0 ∧
      ∃ s', (Comment.construct (tok s)).next = tok s' ∧ s' <:+ s ∧ s'.length < s.length := by
  unfold Comment.construct at h ⊢
  split
  · rename_i hm
    rw [if_pos hm] at h
    cases h
  · rename_i hm
    rw [if_neg hm] at h
    have hlen : len s ≠ 0 := by
      intro h₀
      apply hm
      have hv : (tok s).valid = false := by simp [Token.valid, h₀]
      simp [Token.matches', hv]
    have h₄ : Later (s.drop (len s)) (next (next (next (next (tok s))))) := by
      rw [next_tok]
      exact later_tok.next.next.next
    obtain ⟨s', heq, hs'⟩ := h₄
    rw [heq] at h ⊢
    obtain ⟨s'', heq', hs''⟩ := nextAfter_later (ne_null_of_valid h)
    have hle := (hs''.trans hs').length_le
    have hlt := drop_len_length_lt hlen
    exact ⟨hlen, s'', heq', (hs''.trans hs').trans (List.drop_suffix _ _), by omega⟩

/-- The loops stay where they end, however many rounds are left. -/
theorem skipAttributes_of_invalid {t : Token} (h : (XmlAttribute.tokens t).valid = false) (n : Nat) :
    skipAttributes n t = t := by
  cases n with
  | zero => rfl
  | succ n => rw [skipAttributes, if_neg (by simp [h])]

theorem skipToDelimiter_of_end {t : Token} (h : ¬ (t.valid = true ∧ char t 0 ≠ gt)) (n : Nat) :
    skipToDelimiter n t = t := by
  cases n with
  | zero => rfl
  | succ n => rw [skipToDelimiter, if_neg (by simpa using h)]

theorem attributesFrom_of_invalid {t : Token} (h : (XmlAttribute.tokens t).valid = false)
    (n : Nat) : XmlNode.attributesFrom n t = [] := by
  cases n with
  | zero => rfl
  | succ n => rw [XmlNode.attributesFrom, if_neg (by simp [h])]

theorem skipToDelimiter_closed {P : Token → Prop} (hP : ∀ t, P t → P (next t)) (h : P t) :
    P (skipToDelimiter n t) := by
  induction n generalizing t with
  | zero => exact h
  | succ n ih =>
    rw [skipToDelimiter]
    split
    · exact ih (hP t h)
    · exact h

/-- A tag begins at the token, and its name is one of the next tokens. -/
theorem tag_name_closed {P : Token → Prop} (hP : ∀ t, P t → P (next t))
    (hs : P (next (tok s))) (h : (Tag.construct (tok s)).type ≠ .invalid) :
    (Tag.construct (tok s)).token = tok s ∧ len s ≠ 0 ∧ P (Tag.construct (tok s)).name := by
  unfold Tag.construct at h ⊢
  by_cases hc : char (tok s) 0 ≠ lt
  · rw [if_pos hc] at h
    exact (h rfl).elim
  · have hlen := len_ne_zero_of_char (by decide) (not_not.mp hc)
    rw [if_neg hc] at h ⊢
    have hname : P (if decide (char (next (tok s)) 0 = slash) = true then next (next (tok s))
          else next (tok s)) := by
      split
      · exact hP _ hs
      · exact hs
    dsimp only at h ⊢
    repeat' split at h
    all_goals first
      | exact (h rfl).elim
      | simp_all

theorem tag_name_later (h : (Tag.construct (tok s)).type ≠ .invalid) :
    (Tag.construct (tok s)).token = tok s ∧ len s ≠ 0 ∧
      Later (s.drop (len s)) (Tag.construct (tok s)).name :=
  tag_name_closed (fun _ => Later.next) (next_tok ▸ later_tok) h

/-- Behind a tag the text is shorter. -/
theorem tag_later (h : (Tag.construct (tok s)).type ≠ .invalid) :
    ∃ s', (Tag.construct (tok s)).nextToken = tok s' ∧ s' <:+ s ∧ s'.length < s.length := by
  obtain ⟨-, hlen, hname⟩ := tag_name_later h
  have hdelimiter : Later (s.drop (len s)) (skipToDelimiter
      (rest (Tag.construct (tok s)).name).length (Tag.construct (tok s)).name) :=
    skipToDelimiter_closed (fun _ => Later.next) hname
  obtain ⟨s', heq, hs'⟩ := hdelimiter.next
  have hle := hs'.length_le
  have hlt := drop_len_length_lt hlen
  exact ⟨s', heq, hs'.trans (List.drop_suffix _ _), by omega⟩

end Tags

/-! ## The tags of a text -/

/-- The tags of a text, without those in comments. Behind each tag the search
goes on with the next token. -/
def tagsFrom : Nat → List UInt8 → List Tag
  | 0, _ => []
  | n + 1, s =>
    if len s = 0 then []
    else if (Comment.construct (tok s)).valid then
      tagsFrom n (rest (Comment.construct (tok s)).next)
    else if (Tag.construct (tok s)).type = .invalid then tagsFrom n (s.drop (len s))
    else Tag.construct (tok s) :: tagsFrom n (rest (Tag.construct (tok s)).nextToken)

/-- The tags of a text. -/
def tags (s : List UInt8) : List Tag := tagsFrom s.length s

section Stream

variable {s s' : List UInt8} {n : Nat} {t : Tag} {ts : List Tag}

/-- The result does not depend on the bound for the rounds, if it is large
enough. -/
theorem tagsFrom_congr {m : Nat} (hn : s.length ≤ n) (hm : s.length ≤ m) :
    tagsFrom n s = tagsFrom m s := by
  induction n generalizing m s with
  | zero =>
    obtain rfl : s = [] := List.length_eq_zero_iff.mp (by omega)
    cases m <;> rfl
  | succ n ih =>
    cases m with
    | zero =>
      obtain rfl : s = [] := List.length_eq_zero_iff.mp (by omega)
      rfl
    | succ m =>
      rw [tagsFrom, tagsFrom]
      split
      · rfl
      · rename_i hlen
        have hlt := drop_len_length_lt hlen
        split
        · rename_i hc
          obtain ⟨-, s', heq, -, hlt'⟩ := comment_later hc
          rw [heq, rest_tok]
          exact ih (by omega) (by omega)
        · split
          · exact ih (by omega) (by omega)
          · rename_i ht
            obtain ⟨s', heq, -, hlt'⟩ := tag_later ht
            rw [heq, rest_tok]
            exact congrArg _ (ih (by omega) (by omega))

theorem tagsFrom_eq_tags (h : s.length ≤ n) : tagsFrom n s = tags s := tagsFrom_congr h le_rfl

theorem tags_eq (s : List UInt8) :
    tags s =
      if len s = 0 then []
      else if (Comment.construct (tok s)).valid then tags (rest (Comment.construct (tok s)).next)
      else if (Tag.construct (tok s)).type = .invalid then tags (s.drop (len s))
      else Tag.construct (tok s) :: tags (rest (Tag.construct (tok s)).nextToken) := by
  rw [← tagsFrom_eq_tags (Nat.le_succ s.length), tagsFrom]
  split
  · rfl
  · rename_i hlen
    have hlt := drop_len_length_lt hlen
    split
    · rename_i hc
      obtain ⟨-, s', heq, -, hlt'⟩ := comment_later hc
      rw [heq, rest_tok, tagsFrom_eq_tags (by omega)]
    · split
      · rw [tagsFrom_eq_tags (by omega)]
      · rename_i ht
        obtain ⟨s', heq, -, hlt'⟩ := tag_later ht
        rw [heq, rest_tok, tagsFrom_eq_tags (by omega)]

theorem tags_of_len (h : len s = 0) : tags s = [] := by rw [tags_eq, if_pos h]

theorem tags_of_comment (h : (Comment.construct (tok s)).valid = true)
    (heq : (Comment.construct (tok s)).next = tok s') : tags s = tags s' := by
  rw [tags_eq, if_neg (comment_later h).1, if_pos h, heq, rest_tok]

theorem tags_of_no_tag (hc : (Comment.construct (tok s)).valid = false)
    (h : (Tag.construct (tok s)).type = .invalid) : tags s = tags (s.drop (len s)) := by
  by_cases hlen : len s = 0
  · rw [hlen, List.drop_zero]
  · rw [tags_eq, if_neg hlen, if_neg (by simp [hc]), if_pos h]

theorem tags_of_tag (hc : (Comment.construct (tok s)).valid = false)
    (h : (Tag.construct (tok s)).type ≠ .invalid) :
    tags s = Tag.construct (tok s) :: tags (rest (Tag.construct (tok s)).nextToken) := by
  rw [tags_eq, if_neg (tag_name_later h).2.1, if_neg (by simp [hc]), if_neg h]

/-- Each tag of the text, with the tags behind it. -/
theorem tags_cons (h : tags s = t :: ts) :
    ts = tags (rest t.nextToken) ∧ t.type ≠ .invalid ∧
      ∃ s', s' <:+ s ∧ t = Tag.construct (tok s') := by
  induction hn : s.length using Nat.strongRecOn generalizing s with
  | _ n ih =>
    rw [tags_eq] at h
    split at h
    · cases h
    · rename_i hlen
      have hlt := drop_len_length_lt hlen
      split at h
      · rename_i hc
        obtain ⟨-, s', heq, hs', hlt'⟩ := comment_later hc
        rw [heq, rest_tok] at h
        obtain ⟨h₁, h₂, s'', hs'', h₃⟩ := ih s'.length (by omega) h rfl
        exact ⟨h₁, h₂, s'', hs''.trans hs', h₃⟩
      · split at h
        · obtain ⟨h₁, h₂, s'', hs'', h₃⟩ := ih _ (by omega) h rfl
          exact ⟨h₁, h₂, s'', hs''.trans (List.drop_suffix _ _), h₃⟩
        · rename_i ht
          cases h
          exact ⟨rfl, ht, s, List.suffix_rfl, rfl⟩

/-- The tags of a text come one after the other. -/
theorem tags_suffix (h : t :: ts <:+ tags s) :
    ts = tags (rest t.nextToken) ∧ t.type ≠ .invalid ∧
      ∃ s', s' <:+ s ∧ t = Tag.construct (tok s') := by
  induction hn : (tags s).length using Nat.strongRecOn generalizing s with
  | _ n ih =>
    cases hs : tags s with
    | nil =>
      rw [hs] at h
      cases List.suffix_nil.mp h
    | cons t' ts' =>
      obtain ⟨h₁, h₂, s', hs', h₃⟩ := tags_cons hs
      rw [hs, List.suffix_cons_iff] at h
      rcases h with h | h
      · cases h
        exact ⟨h₁, h₂, s', hs', h₃⟩
      · obtain ⟨s'', heq, hs'', -⟩ := tag_later (h₃ ▸ h₂)
        rw [h₁, h₃, heq, rest_tok] at h
        rw [h₃, heq, rest_tok] at h₁
        obtain ⟨g₁, g₂, q, hq, g₃⟩ := ih (tags s'').length (by
          rw [← hn, hs, ← h₁, List.length_cons]
          omega) h rfl
        exact ⟨g₁, g₂, q, (hq.trans hs'').trans hs', g₃⟩

/-- What a tag does to the depth. -/
def markOf (t : Tag) : Mark :=
  match t.type with
  | .start => .opens
  | .end' => .closes
  | _ => .single

/-- The comparison of the names of a start tag and an end tag. -/
def sameName (startTag endTag : Tag) : Bool :=
  decide (startTag.name.len = endTag.name.len) &&
    (strcmpEq true (rest startTag.name) (chars endTag.name) 0).val

/-- The end tag, if it is found and its name fits. -/
def endTagOf (startTag : Tag) (ts : List Tag) : Tag :=
  match close markOf 0 ts with
  | none => .null
  | some (c, _) => if sameName startTag c then c else .null

/-- The search for the end tag goes through the tags of the text. -/
theorem searchLoop_eq {startTag : Tag} {d c : Nat} :
    searchLoop startTag n (d + 1) c (tok s) =
      ((match close markOf d (tagsFrom n s) with
        | none => .null
        | some (e, _) => if sameName startTag e then e else .null),
        c + count markOf d (tagsFrom n s)) := by
  induction n generalizing d c s with
  | zero => rfl
  | succ n ih =>
    rw [searchLoop, tagsFrom]
    by_cases hlen : len s = 0
    · rw [if_pos (typeOf_eq_end_iff.mpr hlen), if_pos hlen]
      rfl
    rw [if_neg (mt typeOf_eq_end_iff.mp hlen), if_neg hlen]
    by_cases hc : (Comment.construct (tok s)).valid = true
    · obtain ⟨-, s', heq, -, -⟩ := comment_later hc
      rw [if_pos hc, if_pos hc, heq, rest_tok]
      exact ih
    rw [if_neg hc, if_neg hc]
    by_cases ht : (Tag.construct (tok s)).type = .invalid
    · rw [if_pos ht, if_pos ht, next_tok]
      exact ih
    obtain ⟨s', heq, -, -⟩ := tag_later ht
    rw [if_neg ht, if_neg ht, heq, rest_tok, close, count]
    generalize Tag.construct (tok s) = tag at ht heq ⊢
    have hadd (k : Nat) :
        (if d = 0 then c + 1 else c) + k = c + ((if d = 0 then 1 else 0) + k) := by
      split <;> omega
    -- one case for each type of the tag
    cases htype : tag.type with
    | invalid => exact (ht htype).elim
    | start =>
      simp only [markOf, htype, heq, Tag.node, ih, Nat.add_eq_right, Nat.zero_lt_succ,
        Nat.sub_zero, if_true, decide_true, Bool.true_or, and_true, reduceCtorEq, if_false]
      rw [hadd]
    | empty =>
      simp only [markOf, htype, heq, Tag.node, ih, Nat.add_eq_right, Nat.zero_lt_succ,
        Nat.sub_zero, if_true, decide_true, Bool.or_true, and_true, reduceCtorEq, if_false,
        Nat.add_zero]
      rw [hadd]
    | end' =>
      cases d with
      | zero =>
        simp only [markOf, htype, Tag.node, reduceCtorEq, decide_false, Bool.or_self,
          Bool.false_eq_true, and_false, if_false, if_true, Nat.add_zero, Nat.zero_add,
          Nat.sub_self, Nat.lt_irrefl, sameName]
        by_cases hname : startTag.name.len = tag.name.len
        · by_cases hcmp : (strcmpEq true (rest startTag.name) (chars tag.name) 0).val = true
          · simp [hname, hcmp]
          · simp [hname, hcmp]
        · simp [hname]
      | succ d =>
        have hdepth : d + 1 + 1 - 1 = d + 1 := rfl
        simp only [markOf, htype, heq, Tag.node, reduceCtorEq, decide_false, Bool.or_self,
          Bool.false_eq_true, and_false, if_false, if_true, Nat.add_zero, hdepth,
          Nat.zero_lt_succ, Nat.succ_ne_zero]
        exact ih

theorem searchEndTag_eq {startTag : Tag} (h : startTag.type = .start)
    (hnext : startTag.nextToken = tok s) :
    searchEndTag startTag = (endTagOf startTag (tags s), count markOf 0 (tags s)) := by
  rw [searchEndTag, if_neg (by simp [h]), hnext, rest_tok, searchLoop_eq, Nat.zero_add]
  rfl

theorem tag_type_of_len (h : len s = 0) : (Tag.construct (tok s)).type = .invalid := by
  by_contra ht
  exact (tag_name_later ht).2.1 h

theorem tag_token (t : Token) : (Tag.construct t).token = t := by
  unfold Tag.construct
  dsimp only
  repeat' split
  all_goals rfl

theorem lexType_of_lt (h : charAt s 0 = lt) : lexType xmlIdentifier s = .singlechar := by
  cases s with
  | nil => cases h
  | cons c cs =>
    obtain rfl : c = lt := h
    have h₀ : ¬ lt = 0 := by decide
    have h₁ : ¬ xmlIdentifier.identifierChar lt 0 = true := by decide
    have h₂ : ¬ isDigit lt = true := by decide
    have h₃ : ¬ isWhitespace lt = true := by decide
    have h₄ : ¬ lt = quote := by decide
    rw [lexType, if_neg h₀, if_neg h₁, if_neg h₂, if_neg h₃, if_neg h₄]

/-- Comments and tags begin with `<`. -/
theorem comment_char (h : (Comment.construct (tok s)).valid = true) : charAt s 0 = lt := by
  by_contra hne
  unfold Comment.construct at h
  rw [if_pos] at h
  · cases h
  · rw [Bool.not_eq_true', Token.matches']
    simp only [start_tok]
    split
    · rfl
    · have hlt : Char.toUInt8 '<' = lt := by decide
      rw [commentStart, bytes, List.map_cons, strcmpEq, Reach.bind_val, Reach.read_val, hlt,
        if_neg hne]
      rfl

theorem tag_char (h : (Tag.construct (tok s)).type ≠ .invalid) : charAt s 0 = lt := by
  by_contra hne
  unfold Tag.construct at h
  rw [if_pos] at h
  · exact h rfl
  · rw [char_tok]
    split
    · decide
    · exact hne

/-- White space is no tag. -/
theorem tags_of_whitespace (h : lexType xmlIdentifier s = .whitespace) :
    tags s = tags (s.drop (len s)) := by
  have hne : charAt s 0 ≠ lt := by
    intro hlt
    rw [lexType_of_lt hlt] at h
    cases h
  apply tags_of_no_tag
  · by_contra hc
    exact hne (comment_char (Bool.eq_true_of_not_eq_false hc))
  · by_contra ht
    exact hne (tag_char ht)

/-- Characters that are no tag are skipped up to the first tag. -/
theorem skipLoop_spec (hn : s.length ≤ n) :
    ∃ s', skipLoop n (tok s) = tok s' ∧ s' <:+ s ∧ tags s' = tags s ∧
      (len s' = 0 ∨ (Comment.construct (tok s')).valid = false ∧
        (Tag.construct (tok s')).type ≠ .invalid) := by
  induction n generalizing s with
  | zero =>
    obtain rfl : s = [] := List.length_eq_zero_iff.mp (by omega)
    exact ⟨[], rfl, List.suffix_rfl, rfl, .inl rfl⟩
  | succ n ih =>
    obtain ⟨s₁, heq₁, hs₁, htags₁⟩ :
        ∃ s₁, eatWhitespace (tok s) = tok s₁ ∧ s₁ <:+ s ∧ tags s₁ = tags s := by
      rw [eatWhitespace_tok]
      split
      · rename_i hw
        exact ⟨_, rfl, List.drop_suffix _ _, (tags_of_whitespace hw).symm⟩
      · exact ⟨s, rfl, List.suffix_rfl, rfl⟩
    have hle := hs₁.length_le
    rw [skipLoop, heq₁]
    split
    · rename_i hc
      obtain ⟨-, s₂, heq₂, hs₂, hlt⟩ := comment_later hc
      rw [heq₂]
      obtain ⟨s', h₁, h₂, h₃, h₄⟩ := ih (s := s₂) (by omega)
      have htags₂ := (tags_of_comment hc heq₂).symm
      exact ⟨s', h₁, (h₂.trans hs₂).trans hs₁, (h₃.trans htags₂).trans htags₁, h₄⟩
    · rename_i hc
      have hc : (Comment.construct (tok s₁)).valid = false := by simpa using hc
      split
      · rename_i ht
        have hlen : len s₁ ≠ 0 := by
          rw [tag_token] at ht
          exact valid_tok.mp ht.2
        have hlt := drop_len_length_lt hlen
        rw [next_tok]
        obtain ⟨s', h₁, h₂, h₃, h₄⟩ := ih (s := s₁.drop (len s₁)) (by omega)
        exact ⟨s', h₁, (h₂.trans (List.drop_suffix _ _)).trans hs₁,
          (h₃.trans (tags_of_no_tag hc ht.1).symm).trans htags₁, h₄⟩
      · rename_i ht
        refine ⟨s₁, rfl, hs₁, htags₁, ?_⟩
        by_cases hlen : len s₁ = 0
        · exact .inl hlen
        · refine .inr ⟨hc, fun hinv => ht ⟨hinv, ?_⟩⟩
          rw [tag_token]
          exact valid_tok.mpr hlen

theorem skipNonTagCharacters_spec (s : List UInt8) :
    ∃ s', skipNonTagCharacters (tok s) = tok s' ∧ s' <:+ s ∧ tags s' = tags s ∧
      (len s' = 0 ∨ (Comment.construct (tok s')).valid = false ∧
        (Tag.construct (tok s')).type ≠ .invalid) := skipLoop_spec le_rfl

/-- The start tag of a node is the first tag of the text. -/
theorem construct_start (s : List UInt8) :
    ((Tags.construct s).start.type = .invalid ∧ tags s = []) ∨
      ∃ ts, tags s = (Tags.construct s).start :: ts := by
  obtain ⟨s', heq, -, htags, h⟩ := skipNonTagCharacters_spec s
  rw [Tags.construct, tokenAt_eq, heq]
  dsimp only
  rcases h with h | ⟨hc, ht⟩
  · exact .inl ⟨tag_type_of_len h, by rw [← htags, tags_of_len h]⟩
  · exact .inr ⟨_, by rw [← htags, tags_of_tag hc ht]⟩

theorem construct_valid_of_type (h : (Tags.construct s).start.type ≠ .start) :
    ((Tags.construct s).valid = true ↔ (Tags.construct s).start.type = .empty) ∧
      (Tags.construct s).endTag = (Tags.construct s).start ∧ (Tags.construct s).numSubNodes = 0 := by
  have hend : searchEndTag (Tags.construct s).start = ((Tags.construct s).start, 0) := by
    rw [searchEndTag, if_pos h]
  refine ⟨?_, congrArg Prod.fst hend, congrArg Prod.snd hend⟩
  simp [Tags.valid, h]

theorem markOf_start (h : t.type = .start) : markOf t = .opens := by rw [markOf, h]

theorem markOf_empty (h : t.type = .empty) : markOf t = .single := by rw [markOf, h]

theorem markOf_end (h : t.type = .end') : markOf t = .closes := by rw [markOf, h]

theorem type_of_markOf (h : markOf t = .closes) : t.type = .end' := by
  unfold markOf at h
  split at h
  · cases h
  · assumption
  · cases h

/-- The node at the beginning of a text, as one of the nodes of its level. -/
theorem construct_siblings (s : List UInt8) :
    ((Tags.construct s).valid = false ∧ siblings markOf sameName (tags s) = []) ∨
      ((Tags.construct s).valid = true ∧
        siblings markOf sameName (tags s) =
          ((Tags.construct s).start, (Tags.construct s).endTag,
              tags (rest (Tags.construct s).endTag.nextToken)) ::
            siblings markOf sameName (tags (rest (Tags.construct s).endTag.nextToken))) := by
  rcases construct_start s with ⟨hinv, hnil⟩ | ⟨ts, hcons⟩
  · refine .inl ⟨?_, by rw [hnil, siblings_nil]⟩
    simp [Tags.valid, hinv]
  · obtain ⟨hts, hne, s₁, -, h₁⟩ := tags_cons hcons
    obtain ⟨s₂, h₂, -, -⟩ := tag_later (h₁ ▸ hne)
    rw [← h₁] at h₂
    by_cases hs : (Tags.construct s).start.type = .start
    · -- the search for the end tag
      have hend := searchEndTag_eq hs h₂
      rw [h₂, rest_tok] at hts
      rw [← hts] at hend
      have hendTag : (Tags.construct s).endTag = endTagOf (Tags.construct s).start ts :=
        congrArg Prod.fst hend
      rw [hcons]
      cases hclose : close markOf 0 ts with
      | none =>
        refine .inl ⟨?_, siblings_open (markOf_start hs) hclose⟩
        simp [Tags.valid, hs, hendTag, endTagOf, hclose, Tag.null]
      | some p =>
        obtain ⟨c, r⟩ := p
        rw [siblings_opens (markOf_start hs) hclose]
        by_cases hname : sameName (Tags.construct s).start c = true
        · have hc : (Tags.construct s).endTag = c := by simp [hendTag, endTagOf, hclose, hname]
          have hr := (tags_suffix (hts ▸ close_suffix hclose)).1
          rw [if_pos hname, hc, ← hr]
          refine .inr ⟨?_, rfl⟩
          simp [Tags.valid, hs, hc, type_of_markOf (mark_of_close hclose)]
        · rw [if_neg hname]
          refine .inl ⟨?_, rfl⟩
          simp [Tags.valid, hs, hendTag, endTagOf, hclose, hname, Tag.null]
    · obtain ⟨hvalid, hendTag, -⟩ := construct_valid_of_type hs
      by_cases he : (Tags.construct s).start.type = .empty
      · refine .inr ⟨hvalid.mpr he, ?_⟩
        rw [hcons, siblings_single (markOf_empty he), hendTag, ← hts]
      · have hend : (Tags.construct s).start.type = .end' := by
          cases htype : (Tags.construct s).start.type with
          | start => exact (hs htype).elim
          | end' => rfl
          | empty => exact (he htype).elim
          | invalid => exact (hne htype).elim
        refine .inl ⟨Bool.eq_false_of_not_eq_true fun h => he (hvalid.mp h), ?_⟩
        rw [hcons, siblings_closes (markOf_end hend)]

end Stream

/-! ## Nodes -/

section Nodes

variable {s s' addr : List UInt8} {n : Nat}

/-- The node at the beginning of a text. -/
def nodeOf (s : List UInt8) : XmlNode := ⟨s, Tags.construct s⟩

/-- The nodes of the level at the beginning of the text. -/
def level (s : List UInt8) : List (Tag × Tag × List Tag) := siblings markOf sameName (tags s)

theorem valid_iff_level : (Tags.construct s).valid = true ↔ level s ≠ [] := by
  unfold level
  rcases construct_siblings s with ⟨hv, h⟩ | ⟨hv, h⟩
  · simp [hv, h]
  · simp [hv, h]

theorem level_eq_nil (h : (Tags.construct s).valid = false) : level s = [] := by
  by_contra hne
  rw [valid_iff_level.mpr hne] at h
  cases h

theorem tags_length_le (s : List UInt8) : (tags s).length ≤ s.length := by
  induction hn : s.length using Nat.strongRecOn generalizing s with
  | _ n ih =>
    cases hs : tags s with
    | nil => exact Nat.zero_le _
    | cons t ts =>
      obtain ⟨h₁, h₂, s', hs', h₃⟩ := tags_cons hs
      obtain ⟨s'', heq, -, hlt⟩ := tag_later (h₃ ▸ h₂)
      have hle := hs'.length_le
      rw [h₃, heq, rest_tok] at h₁
      have := ih s''.length (by omega) s'' rfl
      rw [h₁, List.length_cons]
      omega

theorem level_length_le (s : List UInt8) : (level s).length ≤ s.length :=
  (length_siblings_le _ _ _).trans (tags_length_le s)

/-- Behind a node there is a later part of the text. -/
theorem endTag_later (h : (Tags.construct s).valid = true) :
    ∃ s', (Tags.construct s).endTag.nextToken = tok s' ∧ s' <:+ s := by
  rcases construct_siblings s with ⟨hv, -⟩ | ⟨-, hsib⟩
  · rw [hv] at h
    cases h
  · obtain ⟨r, h₁, h₂⟩ := mem_siblings (hsib ▸ List.mem_cons_self)
    obtain ⟨-, hne, q, hq, heq⟩ := tags_suffix (h₂.trans h₁)
    dsimp only at hne heq
    obtain ⟨s', hs', hsuf, -⟩ := tag_later (heq ▸ hne)
    exact ⟨s', by rw [heq, hs'], hsuf.trans hq⟩

/-- The iteration continues with the rest of the level. -/
theorem after_spec (h : (Tags.construct s).valid = true) :
    ∃ s', (nodeOf s).after = tok s' ∧ s' <:+ s ∧
      level s = ((Tags.construct s).start, (Tags.construct s).endTag,
        tags (rest (Tags.construct s).endTag.nextToken)) :: level s' := by
  obtain ⟨s₁, heq, hs₁⟩ := endTag_later h
  obtain ⟨s', heq', hs', htags, -⟩ := skipNonTagCharacters_spec s₁
  refine ⟨s', ?_, hs'.trans hs₁, ?_⟩
  · rw [XmlNode.after, nodeOf, heq, heq']
  · rcases construct_siblings s with ⟨hv, -⟩ | ⟨-, hsib⟩
    · rw [hv] at h
      cases h
    · unfold level
      rw [hsib, heq, rest_tok, htags]

theorem validNodeAt_iff (h : s' <:+ addr) (tags : Tags) :
    (XmlNode.mk addr tags).validNodeAt (some s') = (Tags.construct s').valid := by
  have hle := h.length_le
  by_cases hnil : s' = []
  · subst hnil
    have hv : (Tags.construct []).valid = false := by decide +kernel
    simp [XmlNode.validNodeAt, hv]
  · have hpos := List.length_pos_of_ne_nil hnil
    simp only [XmlNode.validNodeAt, hle, decide_true, Bool.true_and, Bool.and_eq_right_iff_imp,
      decide_eq_true_eq]
    omega

theorem nodeAt_eq (h : s' <:+ addr) (tags : Tags) :
    (XmlNode.mk addr tags).nodeAt (some s') =
      if (Tags.construct s').valid then .ok (nodeOf s') else .error .nonexistentSubNode := by
  rw [XmlNode.nodeAt, validNodeAt_iff h]
  cases hv : (Tags.construct s').valid with
  | false => rfl
  | true =>
    simp only [Bool.not_true, Bool.false_eq_true, if_false, Option.getD_some, if_true,
      XmlNode.construct, hv]
    rfl

/-- The step to the next node. -/
theorem next_eq (ha : (nodeOf s).after = tok s') (hs : s' <:+ s) :
    (nodeOf s).next =
      if (Tags.construct s').valid then .ok (nodeOf s') else .error .nonexistentSubNode := by
  rw [XmlNode.next, ha, start_tok, nodeOf, nodeAt_eq hs]
  cases (Tags.construct s').valid <;> rfl

/-- The last node of a level. -/
theorem last_eq (ha : (nodeOf s).after = tok s') (hs : s' <:+ s) :
    (nodeOf s).last none = .ok (!(Tags.construct s').valid) := by
  rw [XmlNode.last, ha, rest_tok]
  cases hn : s'.length with
  | zero =>
    obtain rfl : s' = [] := List.length_eq_zero_iff.mp hn
    have hv : (Tags.construct []).valid = false := by decide +kernel
    rw [hv]
    rfl
  | succ n =>
    rw [XmlNode.lastLoop, start_tok, nodeOf, validNodeAt_iff hs, nodeAt_eq hs]
    cases (Tags.construct s').valid <;> rfl

/-- A node that is visited, as one of the level. -/
def Visits (m : XmlNode) (p : Tag × Tag × List Tag) : Prop :=
  m.tags.start = p.1 ∧ m.tags.endTag = p.2.1

theorem exists_mem_of_visits {visited : List XmlNode} {ps : List (Tag × Tag × List Tag)}
    (h : List.Forall₂ Visits visited ps) {m : XmlNode} (hm : m ∈ visited) :
    ∃ p ∈ ps, Visits m p := by
  induction h with
  | nil => cases hm
  | cons hv _ ih =>
    rcases List.mem_cons.mp hm with rfl | hm
    · exact ⟨_, List.mem_cons_self, hv⟩
    · obtain ⟨p, hp, hmp⟩ := ih hm
      exact ⟨p, List.mem_cons_of_mem _ hp, hmp⟩

/-- One round of the iteration. -/
theorem forEachLoop_succ (ha : (nodeOf s).after = tok s') (hs : s' <:+ s) :
    XmlNode.forEachLoop none (n + 1) (nodeOf s) =
      if (Tags.construct s').valid then
        (nodeOf s :: ·) <$> XmlNode.forEachLoop none n (nodeOf s')
      else .ok [nodeOf s] := by
  rw [XmlNode.forEachLoop, last_eq ha hs, next_eq ha hs]
  cases (Tags.construct s').valid with
  | false => rfl
  | true =>
    change (do
      let rest ← XmlNode.forEachLoop none n (nodeOf s')
      return [nodeOf s] ++ rest : Except XmlError (List XmlNode)) = _
    cases XmlNode.forEachLoop none n (nodeOf s') <;> rfl

/-- The iteration visits all nodes of the level. -/
theorem forEachLoop_spec (hv : (Tags.construct s).valid = true) (hn : (level s).length ≤ n) :
    ∃ visited, XmlNode.forEachLoop none n (nodeOf s) = .ok visited ∧
      List.Forall₂ Visits visited (level s) := by
  induction n generalizing s with
  | zero =>
    have hnil : level s = [] := List.length_eq_zero_iff.mp (by omega)
    exact (valid_iff_level.mp hv hnil).elim
  | succ n ih =>
    obtain ⟨s', ha, hs, hlevel⟩ := after_spec hv
    rw [hlevel, List.length_cons] at hn
    rw [hlevel, forEachLoop_succ ha hs]
    have hvisit : Visits (nodeOf s) ((Tags.construct s).start, (Tags.construct s).endTag,
        tags (rest (Tags.construct s).endTag.nextToken)) := ⟨rfl, rfl⟩
    cases hv' : (Tags.construct s').valid with
    | false =>
      rw [level_eq_nil hv']
      exact ⟨[nodeOf s], rfl, .cons hvisit .nil⟩
    | true =>
      obtain ⟨visited, hloop, hall⟩ := ih hv' (by omega)
      refine ⟨nodeOf s :: visited, ?_, .cons hvisit hall⟩
      rw [hloop]
      rfl

/-- The nodes of the level are reached by their index. -/
theorem nextTimes_spec (hv : (Tags.construct s).valid = true) (i : Nat) :
    (∃ m, XmlNode.nextTimes i (nodeOf s) = .ok m) ↔ i < (level s).length := by
  induction i generalizing s with
  | zero =>
    refine ⟨fun _ => List.length_pos_of_ne_nil (valid_iff_level.mp hv), fun _ => ⟨_, rfl⟩⟩
  | succ i ih =>
    obtain ⟨s', ha, hs, hlevel⟩ := after_spec hv
    have hnext := next_eq ha hs
    rw [hlevel, List.length_cons, Nat.add_lt_add_iff_right, XmlNode.nextTimes, hnext]
    cases hv' : (Tags.construct s').valid with
    | false =>
      rw [level_eq_nil hv']
      constructor
      · rintro ⟨m, h⟩
        cases h
      · intro h
        cases h
    | true => exact ih hv'

theorem construct_eq_ok {node : XmlNode} (h : XmlNode.construct s = .ok node) :
    node = nodeOf s ∧ (Tags.construct s).valid = true := by
  unfold XmlNode.construct at h
  split at h
  · cases h
  · rename_i hv
    cases h
    exact ⟨rfl, by simpa using hv⟩

/-- The content of a node, with the end tag of the node at its end. -/
theorem content_spec (hv : (Tags.construct s).valid = true)
    (ht : (Tags.construct s).start.type = .start) :
    ∃ content r, (Tags.construct s).start.nextToken = tok content ∧ content <:+ s ∧
      close markOf 0 (tags content) = some ((Tags.construct s).endTag, r) ∧
      (Tags.construct s).numSubNodes = count markOf 0 (tags content) := by
  rcases construct_start s with ⟨hinv, -⟩ | ⟨ts, hcons⟩
  · rw [hinv] at ht
    cases ht
  · obtain ⟨-, hne, s₁, hs₁, h₁⟩ := tags_cons hcons
    obtain ⟨content, h₂, hs₂, -⟩ := tag_later (h₁ ▸ hne)
    rw [← h₁] at h₂
    have hend := searchEndTag_eq ht h₂
    have hendTag : (Tags.construct s).endTag =
        endTagOf (Tags.construct s).start (tags content) := congrArg Prod.fst hend
    have hnum : (Tags.construct s).numSubNodes = count markOf 0 (tags content) :=
      congrArg Prod.snd hend
    have htype : (Tags.construct s).endTag.type = .end' := by simpa [Tags.valid, ht] using hv
    rw [hendTag, endTagOf] at htype
    cases hclose : close markOf 0 (tags content) with
    | none =>
      rw [hclose] at htype
      cases htype
    | some p =>
      rw [hclose] at htype
      dsimp only at htype
      split at htype
      · rename_i hname
        refine ⟨content, p.2, h₂, hs₂.trans hs₁, ?_, hnum⟩
        rw [hendTag, endTagOf, hclose]
        dsimp only
        rw [if_pos hname]
      · cases htype

theorem level_length_le_count {content : List UInt8} {p : Tag × List Tag}
    (h : close markOf 0 (tags content) = some p) :
    (level content).length ≤ count markOf 0 (tags content) := (siblings_le_count h).1

/-- The iteration over the sub nodes starts at the content. -/
theorem forEachSubNode_eq {content : List UInt8} (hs : content <:+ s)
    (hnext : (Tags.construct s).start.nextToken = tok content) :
    (nodeOf s).forEachSubNode none =
      if (Tags.construct s).numSubNodes = 0 ∨ (Tags.construct content).valid = false then .ok []
      else XmlNode.forEachLoop none s.length (nodeOf content) := by
  have hbase : (nodeOf s).contentBase = some content := congrArg Token.start hnext
  have hvalid : (nodeOf s).validNodeAt (some content) = (Tags.construct content).valid :=
    validNodeAt_iff hs (Tags.construct s)
  unfold XmlNode.forEachSubNode XmlNode.hasSubNode
  rw [hbase, hvalid]
  by_cases hnum : (nodeOf s).numSubNodes = 0
  · rw [if_pos hnum, if_pos (.inl hnum)]
    rfl
  · rw [if_neg hnum]
    cases hv : (Tags.construct content).valid with
    | false =>
      have hor : (Tags.construct s).numSubNodes = 0 ∨ false = false := .inr rfl
      rw [if_pos hor]
      rfl
    | true =>
      have hor : ¬ ((Tags.construct s).numSubNodes = 0 ∨ true = false) :=
        not_or.mpr ⟨hnum, by decide⟩
      rw [if_neg hor]
      have hpos : 0 < s.length := by
        have := List.length_pos_of_ne_nil (valid_iff_level.mp hv)
        have := level_length_le content
        have := hs.length_le
        omega
      have hat : (nodeOf s).nodeAt (some content) = .ok (nodeOf content) := by
        rw [nodeOf, nodeAt_eq hs, hv]
        rfl
      have hloop : XmlNode.findLoop none s.length (nodeOf content) = .ok (nodeOf content) := by
        obtain ⟨k, hk⟩ := Nat.exists_eq_succ_of_ne_zero (Nat.ne_of_gt hpos)
        rw [hk]
        rfl
      have hfind : (nodeOf s).subNodeOf none = .ok (nodeOf content) := by
        rw [XmlNode.subNodeOf, if_pos (Nat.pos_of_ne_zero hnum), hbase, hat]
        change catchAll (XmlNode.findLoop none s.length (nodeOf content)) = _
        rw [hloop]
        rfl
      rw [hfind]
      rfl

/-- The functor is called for the nodes of the content. -/
theorem forEachSubNode_spec {content : List UInt8} (hs : content <:+ s)
    (hnext : (Tags.construct s).start.nextToken = tok content)
    (hle : (level content).length ≤ (Tags.construct s).numSubNodes) :
    ∃ visited, (nodeOf s).forEachSubNode none = .ok visited ∧
      List.Forall₂ Visits visited (level content) := by
  rw [forEachSubNode_eq hs hnext]
  split
  · rename_i h
    have hnil : level content = [] := by
      rcases h with hnum | hv
      · exact List.length_eq_zero_iff.mp (Nat.le_zero.mp (hle.trans (Nat.le_of_eq hnum)))
      · exact level_eq_nil hv
    rw [hnil]
    exact ⟨[], rfl, .nil⟩
  · rename_i h
    have hv : (Tags.construct content).valid = true := by simpa using (not_or.mp h).2
    exact forEachLoop_spec hv ((level_length_le content).trans hs.length_le)

theorem subNode_spec {content : List UInt8} (hs : content <:+ s)
    (hnext : (Tags.construct s).start.nextToken = tok content)
    (hle : (level content).length ≤ (Tags.construct s).numSubNodes) (i : Nat) :
    (∃ m, (nodeOf s).subNode i = .ok m) ↔ i < (level content).length := by
  have hbase : (nodeOf s).contentBase = some content := congrArg Token.start hnext
  unfold XmlNode.subNode
  by_cases hnum : 0 < (nodeOf s).numSubNodes
  · rw [if_pos hnum, hbase, nodeOf, nodeAt_eq hs]
    cases hv : (Tags.construct content).valid with
    | false =>
      rw [level_eq_nil hv]
      constructor
      · rintro ⟨m, h⟩
        cases h
      · intro h
        cases h
    | true =>
      rw [← nextTimes_spec hv]
      change (∃ m, catchInvalidSyntax (XmlNode.nextTimes i (nodeOf content)) = .ok m) ↔ _
      cases h : XmlNode.nextTimes i (nodeOf content) with
      | ok m => simp [catchInvalidSyntax]
      | error e => cases e <;> simp [catchInvalidSyntax]
  · have hzero : (Tags.construct s).numSubNodes = 0 := Nat.eq_zero_of_not_pos hnum
    rw [if_neg hnum]
    constructor
    · rintro ⟨m, h⟩
      cases h
    · intro h
      omega

/-- The sub node lies between the start tag and the end tag of its parent. -/
structure Within (node m : XmlNode) : Prop where
  start : rest m.tags.start.token <:+ rest node.tags.start.nextToken
  span : rest m.tags.endTag.nextToken <:+ rest m.tags.start.token
  stop : rest node.tags.endTag.token <:+ rest m.tags.endTag.nextToken

theorem within_of_mem {content : List UInt8} {r : List Tag} {m : XmlNode}
    {p : Tag × Tag × List Tag} (hnext : (Tags.construct s).start.nextToken = tok content)
    (hclose : close markOf 0 (tags content) = some ((Tags.construct s).endTag, r))
    (hp : p ∈ level content) (hm : Visits m p) : Within (nodeOf s) m := by
  obtain ⟨ts, h₁, h₂⟩ := mem_siblings hp
  obtain ⟨hts, hne₁, q₁, hq₁, heq₁⟩ := tags_suffix h₁
  obtain ⟨hts₂, hne₂, q₂, hq₂, heq₂⟩ := tags_suffix (h₂.trans h₁)
  obtain ⟨n₂, hn₂, hsuf₂, -⟩ := tag_later (heq₂ ▸ hne₂)
  rw [← heq₂] at hn₂
  have htok₁ : rest m.tags.start.token = q₁ := by rw [hm.1, heq₁, tag_token, rest_tok]
  have hend : rest m.tags.endTag.nextToken = n₂ := by rw [hm.2, hn₂, rest_tok]
  constructor
  · change _ <:+ rest (Tags.construct s).start.nextToken
    rw [htok₁, hnext, rest_tok]
    exact hq₁
  · rw [htok₁, hend]
    rcases List.suffix_cons_iff.mp h₂ with h₂ | h₂
    · -- the node is an empty-element tag
      have heq : p.2.1 = p.1 := (List.cons.inj h₂).1
      obtain ⟨n₁, hn₁, hsuf₁, -⟩ := tag_later (heq₁ ▸ hne₁)
      rw [← heq₁, ← heq, hn₂] at hn₁
      have : n₂ = n₁ := congrArg rest hn₁
      rw [this]
      exact hsuf₁
    · obtain ⟨n₁, hn₁, hsuf₁, -⟩ := tag_later (heq₁ ▸ hne₁)
      rw [← heq₁] at hn₁
      rw [hts, hn₁, rest_tok] at h₂
      obtain ⟨-, hne₃, q₃, hq₃, heq₃⟩ := tags_suffix h₂
      obtain ⟨n₃, hn₃, hsuf₃, -⟩ := tag_later (heq₃ ▸ hne₃)
      rw [← heq₃, hn₂] at hn₃
      have : n₂ = n₃ := congrArg rest hn₃
      rw [this]
      exact (hsuf₃.trans hq₃).trans hsuf₁
  · have hstop := (siblings_le_count hclose).2 p hp
    rw [hts₂, hn₂, rest_tok] at hstop
    obtain ⟨-, -, q, hq, heq⟩ := tags_suffix hstop
    change rest (Tags.construct s).endTag.token <:+ _
    rw [hend, heq, tag_token, rest_tok]
    exact hq

/-- Every sub node of the node is closed by an end tag with its own name. -/
def Matched (node : XmlNode) : Prop :=
  node.tags.start.type = .start →
    Paired markOf sameName (tags (rest node.tags.start.nextToken))

/-- The iteration stays between the tags of the node. It comes to as many sub
nodes as were counted, and `sub_node` finds just these, exactly if all of them
are closed by their own name. -/
theorem forEachSubNode_iff_matched {node : XmlNode} (h : XmlNode.construct s = .ok node) :
    ∃ visited, node.forEachSubNode none = .ok visited ∧ (∀ m ∈ visited, Within node m) ∧
      ((visited.length = node.numSubNodes ∧
          ∀ i, (∃ m, node.subNode i = .ok m) ↔ i < node.numSubNodes) ↔ Matched node) := by
  obtain ⟨rfl, hv⟩ := construct_eq_ok h
  by_cases ht : (Tags.construct s).start.type = .start
  · obtain ⟨content, r, hnext, hs, hclose, hnum⟩ := content_spec hv ht
    have hle : (level content).length ≤ (Tags.construct s).numSubNodes :=
      hnum ▸ level_length_le_count hclose
    obtain ⟨visited, hvisited, hall⟩ := forEachSubNode_spec hs hnext hle
    refine ⟨visited, hvisited, fun m hm => ?_, ?_⟩
    · obtain ⟨p, hp, hmp⟩ := exists_mem_of_visits hall hm
      exact within_of_mem hnext hclose hp hmp
    · have hiff : (level content).length = count markOf 0 (tags content) ↔
          Paired markOf sameName (tags content) := length_siblings_eq_iff hclose
      have hcount : (nodeOf s).numSubNodes = count markOf 0 (tags content) := hnum
      have hmatched : Matched (nodeOf s) ↔ Paired markOf sameName (tags content) := by
        unfold Matched
        rw [show (nodeOf s).tags.start.nextToken = tok content from hnext, rest_tok]
        exact ⟨fun hm => hm ht, fun hp _ => hp⟩
      rw [hmatched, ← hiff, hall.length_eq, hcount]
      constructor
      · exact And.left
      · intro heq
        refine ⟨heq, fun i => ?_⟩
        rw [subNode_spec hs hnext hle, ← heq]
  · obtain ⟨-, -, hnum⟩ := construct_valid_of_type ht
    have hnum : (nodeOf s).numSubNodes = 0 := hnum
    refine ⟨[], ?_, fun m hm => (by cases hm), ?_⟩
    · simp [XmlNode.forEachSubNode, XmlNode.hasSubNode, hnum]
      rfl
    · refine ⟨fun _ hstart => (ht hstart).elim, fun _ => ⟨by rw [hnum]; rfl, fun i => ?_⟩⟩
      rw [hnum, XmlNode.subNode, hnum, if_neg (Nat.lt_irrefl 0)]
      constructor
      · rintro ⟨m, hm⟩
        cases hm
      · intro hi
        cases hi

end Nodes

end Genode.Util.Xml
