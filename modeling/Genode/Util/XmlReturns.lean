import Genode.Util.TokenReturns
import Genode.Util.XmlLoops
import Genode.Util.XmlScan

/-!
# XmlReturns — the XML parser where its indices do not wrap

The parser with the 32-bit indices and counters of the code returns what the
parser with natural numbers does, as long as no token that it comes to is
too long, and the tags are not too many. All places that the parser comes
to are reached by going on to the next token, or to the end of a comment.
-/

namespace Genode.Util.Xml

open Lib Ascii Looping

/-! ## The places that the parser comes to -/

/-- The places that the parser comes to from the beginning of a text on. -/
inductive Visited (s : List UInt8) : List UInt8 → Prop
  | start : Visited s s
  | next {t : List UInt8} : Visited s t → Visited s (t.drop (len t))
  | comment {t t' : List UInt8} : Visited s t → (Comment.construct (tok t)).next = tok t' →
      Visited s t'

/-- At no place that the parser comes to, an index or a counter wraps around. -/
structure Moderate (s : List UInt8) : Prop where
  narrow : ∀ t, Visited s t → Looped.Narrow xmlIdentifier t
  tags : ∀ t, Visited s t → (tags t).length + 1 < 2 ^ 31

/-- A property of places that the parser does not leave, and where nothing
wraps around. -/
structure Closed (G : List UInt8 → Prop) : Prop where
  next : ∀ {s}, G s → G (s.drop (len s))
  comment : ∀ {s s'}, G s → (Comment.construct (tok s)).next = tok s' → G s'
  narrow : ∀ {s}, G s → Looped.Narrow xmlIdentifier s
  tags : ∀ {s}, G s → (tags s).length + 1 < 2 ^ 31

section Places

variable {s t : List UInt8}

theorem Moderate.closed (h : Moderate s) : Closed (Visited s) :=
  ⟨.next, .comment, h.narrow _, h.tags _⟩

theorem Visited.suffix (h : Visited s t) : t <:+ s := by
  induction h with
  | start => exact List.suffix_rfl
  | next _ ih => exact (List.drop_suffix _ _).trans ih
  | comment _ heq ih => exact (comment_suffix heq).trans ih

/-- Texts of less than 2 GiB are moderate. -/
theorem moderate_of_length (h : s.length + 1 < 2 ^ 31) : Moderate s where
  narrow t ht := by
    apply Looped.narrow_of_nulPos lawful_xmlIdentifier
    have hle := nulPos_le (s := t)
    have hlen := ht.suffix.length_le
    omega
  tags t ht := by
    have hle := tags_length_le t
    have hlen := ht.suffix.length_le
    omega

end Places

/-- The first token of a later place with the property. -/
def Ahead (G : List UInt8 → Prop) (s : List UInt8) (t : Token) : Prop :=
  ∃ s', t = tok s' ∧ s' <:+ s ∧ G s'

/-- The tokens of an attribute have the property. -/
structure AttributeAhead (G : List UInt8 → Prop) (s : List UInt8) (a : XmlAttribute) : Prop where
  name : Ahead G s a.name
  value : Ahead G (rest a.name) a.value

section Ahead

variable {G : List UInt8 → Prop} {s s' : List UInt8} {t : Token} {a : XmlAttribute}

theorem ahead_tok (hs : G s) : Ahead G s (tok s) := ⟨s, rfl, List.suffix_rfl, hs⟩

theorem Ahead.trans (hs : s' <:+ s) (h : Ahead G s' t) : Ahead G s t := by
  obtain ⟨s'', rfl, hsuf, hG⟩ := h
  exact ⟨s'', rfl, hsuf.trans hs, hG⟩

theorem Ahead.suffix (h : Ahead G s t) : rest t <:+ s := by
  obtain ⟨s', rfl, hsuf, -⟩ := h
  exact hsuf

theorem Ahead.self (h : Ahead G s t) : Ahead G (rest t) t := by
  obtain ⟨s', rfl, -, hs'⟩ := h
  exact ahead_tok hs'

theorem Ahead.len_ne_zero (h : Ahead G s t) {ty : TokenType} (hty : typeOf t = ty)
    (hne : ty ≠ .end') : t.len ≠ 0 := by
  obtain ⟨s', rfl, -, -⟩ := h
  intro hlen
  exact hne (hty ▸ typeOf_eq_end_iff.mpr hlen)

/-- Behind a token that is not empty there is less left. -/
theorem Ahead.length_next_lt (h : Ahead G s t) (hlen : t.len ≠ 0) :
    (rest (next t)).length < (rest t).length := by
  obtain ⟨s', rfl, -, -⟩ := h
  rw [next_tok]
  exact drop_len_length_lt hlen

variable (hG : Closed G)
include hG

theorem Ahead.next (h : Ahead G s t) : Ahead G s (next t) := by
  obtain ⟨s', rfl, hsuf, hs'⟩ := h
  exact ⟨_, next_tok, (List.drop_suffix _ _).trans hsuf, hG.next hs'⟩

theorem Ahead.eatWhitespace (h : Ahead G s t) : Ahead G s (eatWhitespace t) := by
  obtain ⟨s', rfl, hsuf, hs'⟩ := h
  rw [eatWhitespace_tok]
  split
  · exact ⟨_, rfl, (List.drop_suffix _ _).trans hsuf, hG.next hs'⟩
  · exact ⟨_, rfl, hsuf, hs'⟩

theorem Ahead.tokens (h : Ahead G s t) : AttributeAhead G s (XmlAttribute.tokens t) := by
  have hname := h.eatWhitespace hG
  exact ⟨hname, (((hname.self.next hG).eatWhitespace hG).next hG).eatWhitespace hG⟩

/-- Behind a valid attribute there is less left. -/
theorem AttributeAhead.nextToken (h : AttributeAhead G s a) (hv : a.valid = true) :
    Ahead G s a.nextToken ∧ (rest a.nextToken).length < (rest a.name).length := by
  have hty : typeOf a.value = .string := by
    simp only [XmlAttribute.valid, Bool.and_eq_true, decide_eq_true_eq] at hv
    exact hv.2
  have hlt := h.value.length_next_lt (h.value.len_ne_zero hty nofun)
  exact ⟨(h.value.next hG).trans h.name.suffix, hlt.trans_le h.value.suffix.length_le⟩

theorem skipAttributes_ahead {n : Nat} (h : Ahead G s t) : Ahead G s (skipAttributes n t) := by
  induction n generalizing t with
  | zero => exact h
  | succ n ih =>
    rw [skipAttributes]
    split
    · rename_i hv
      exact ih ((h.tokens hG).nextToken hG hv).1
    · exact h

theorem skipLoop_ahead {n : Nat} (h : Ahead G s t) : Ahead G s (skipLoop n t) := by
  induction n generalizing t with
  | zero => exact h
  | succ n ih =>
    have heat := h.eatWhitespace hG
    rw [skipLoop]
    split
    · rename_i hc
      obtain ⟨s₁, heq, hs₁, hG₁⟩ := heat
      rw [heq] at hc ⊢
      obtain ⟨-, s₂, heq₂, hs₂, -⟩ := comment_later hc
      rw [heq₂]
      exact ih ⟨s₂, rfl, hs₂.trans hs₁, hG.comment hG₁ heq₂⟩
    · split
      · exact ih (heat.next hG)
      · exact heat

theorem tag_name_ahead (hs : G s) (h : (Tag.construct (tok s)).type ≠ .invalid) :
    Ahead G (s.drop (len s)) (Tag.construct (tok s)).name := by
  have hfirst : Ahead G (s.drop (len s)) (Xml.next (tok s)) := by
    rw [next_tok]
    exact ahead_tok (hG.next hs)
  exact (tag_name_closed (fun _ ht => ht.next hG) hfirst h).2.2

/-- Behind a tag there is less left. -/
theorem tag_ahead (hs : G s) (h : (Tag.construct (tok s)).type ≠ .invalid) :
    ∃ s', (Tag.construct (tok s)).nextToken = tok s' ∧ s' <:+ s ∧ s'.length < s.length ∧ G s' := by
  have hname := tag_name_ahead hG hs h
  have hdelimiter : Ahead G (s.drop (len s)) (skipToDelimiter
      (rest (Tag.construct (tok s)).name).length (Tag.construct (tok s)).name) :=
    skipToDelimiter_closed (fun _ ht => ht.next hG) hname
  obtain ⟨s', heq, hsuf, hs'⟩ := hdelimiter.next hG
  have hle := hsuf.length_le
  have hlt := drop_len_length_lt (tag_name_later h).2.1
  exact ⟨s', heq, hsuf.trans (List.drop_suffix _ _), by omega, hs'⟩

end Ahead

end Genode.Util.Xml

namespace Genode.Util.Xml.Looped

open Lib Ascii Looping Util.Looped

/-! ## Tokens and attributes -/

section Tokens

variable {G : List UInt8 → Prop} {s : List UInt8} {t : Token} {a : XmlAttribute}

variable (hG : Closed G)
include hG

theorem token_returns (hs : G s) : (token s).Returns (tok s) :=
  Util.Looped.token_returns lawful_xmlIdentifier (hG.narrow hs)

theorem next_returns (h : Ahead G s t) : (next t).Returns (Xml.next t) := by
  obtain ⟨s', rfl, -, hs'⟩ := h
  rw [next_tok]
  exact Util.Looped.next_returns lawful_xmlIdentifier (hG.narrow (hG.next hs'))

theorem typeOf_returns (h : Ahead G s t) : (typeOf t).Returns (Xml.typeOf t) := by
  obtain ⟨s', rfl, -, hs'⟩ := h
  rw [typeOf_tok]
  exact Util.Looped.typeOf_returns lawful_xmlIdentifier (hG.narrow hs')

theorem eatWhitespace_returns (h : Ahead G s t) :
    (eatWhitespace t).Returns (Xml.eatWhitespace t) := by
  obtain ⟨s', rfl, -, hs'⟩ := h
  exact Util.Looped.eatWhitespace_returns lawful_xmlIdentifier (hG.narrow hs')
    fun _ => hG.narrow (hG.next hs')

theorem tokens_returns (h : Ahead G s t) :
    (XmlAttribute.tokens t).Returns (Xml.XmlAttribute.tokens t) := by
  have hname := h.eatWhitespace hG
  have hequals := (hname.next hG).eatWhitespace hG
  unfold XmlAttribute.tokens Xml.XmlAttribute.tokens
  apply (eatWhitespace_returns hG h).bind
  apply (next_returns hG hname).bind
  apply (eatWhitespace_returns hG (hname.next hG)).bind
  apply (next_returns hG hequals).bind
  apply (eatWhitespace_returns hG (hequals.next hG)).bind
  exact returns_pure _

theorem valid_returns (h : AttributeAhead G s a) : (XmlAttribute.valid a).Returns a.valid := by
  unfold XmlAttribute.valid Xml.XmlAttribute.valid
  apply (typeOf_returns hG h.name).bind
  split
  · rename_i hc
    apply (typeOf_returns hG h.value).bind
    rw [hc.1, hc.2]
    exact returns_pure _
  · rename_i hc
    rw [gives_pure]
    by_cases hname : Xml.typeOf a.name = .ident
    · have hequals : char a.equals 0 ≠ equalSign := fun he => hc ⟨hname, he⟩
      simp [hequals]
    · simp [hname]

theorem attributeNext_returns (h : AttributeAhead G s a) :
    (XmlAttribute.nextToken a).Returns a.nextToken := next_returns hG h.value

theorem validAt_returns (h : Ahead G s t) :
    (XmlAttribute.validAt t).Returns (Xml.XmlAttribute.tokens t).valid :=
  (tokens_returns hG h).bind (valid_returns hG (h.tokens hG))

theorem attribute_returns (h : Ahead G s t) :
    (XmlAttribute.construct t).Returns (Xml.XmlAttribute.construct t) := by
  unfold XmlAttribute.construct Xml.XmlAttribute.construct
  apply (tokens_returns hG h).bind
  apply (typeOf_returns hG (h.tokens hG).name).bind
  split
  · exact returns_pure _
  · apply (valid_returns hG (h.tokens hG)).bind
    cases (Xml.XmlAttribute.tokens t).valid with
    | false => exact returns_pure _
    | true => exact returns_pure _

/-- The loop that skips attributes. -/
theorem skipAttributes_returns (h : Ahead G s t) {n : Nat} (hn : (rest t).length ≤ n) :
    (loop left Tag.skipBody t).Returns (Xml.skipAttributes n t) := by
  apply loop_bounded (I := Ahead G s) _ h hn
  intro n t ht _
  unfold Tag.skipBody
  apply (tokens_returns hG ht).bind
  apply (valid_returns hG (ht.tokens hG)).bind
  cases hv : (Xml.XmlAttribute.tokens t).valid with
  | false =>
    rw [if_neg Bool.false_ne_true, gives_pure]
    exact skipAttributes_of_invalid hv n
  | true =>
    obtain ⟨hnext, hlt⟩ := (ht.tokens hG).nextToken hG hv
    have hle := (ht.self.tokens hG).name.suffix.length_le
    rw [if_pos rfl]
    apply (attributeNext_returns hG (ht.tokens hG)).bind
    rw [gives_pure]
    refine ⟨⟨hnext, hlt.trans_le hle⟩, ?_⟩
    rintro m rfl
    rw [Xml.skipAttributes, if_pos hv]

end Tokens

/-! ## Tags and comments -/

section Tags

variable {G : List UInt8 → Prop} {s : List UInt8} {start name t : Token} {tag : Tag}

variable (hG : Closed G)
include hG

/-- The part of the constructor that comes after the name. -/
theorem constructFrom_returns (hname : Ahead G s name) (closing : Bool) :
    (Tag.constructFrom start name closing).Returns
      (let delimiter := Xml.eatWhitespace (if closing then Xml.next name
          else Xml.skipAttributes (rest (Xml.next name)).length (Xml.next name))
        if char delimiter 0 = slash then
          if closing then ⟨start, name, .invalid⟩
          else if char (Xml.next delimiter) 0 ≠ gt then ⟨start, name, .invalid⟩
          else ⟨start, name, .empty⟩
        else if char delimiter 0 ≠ gt then ⟨start, name, .invalid⟩
        else ⟨start, name, if closing then .end' else .start⟩) := by
  have hnext := hname.next hG
  unfold Tag.constructFrom
  apply (next_returns hG hname).bind
  cases closing with
  | true =>
    apply Returns.bind (returns_pure (Xml.next name))
    apply (eatWhitespace_returns hG hnext).bind
    simp only [if_true]
    split
    · exact returns_pure _
    · split
      · exact returns_pure _
      · exact returns_pure _
  | false =>
    have hskip := skipAttributes_ahead hG (n := (rest (Xml.next name)).length) hnext
    apply Returns.bind (skipAttributes_returns hG hnext le_rfl)
    apply (eatWhitespace_returns hG hskip).bind
    simp only [Bool.false_eq_true, if_false]
    split
    · apply (next_returns hG (hskip.eatWhitespace hG)).bind
      split
      · exact returns_pure _
      · exact returns_pure _
    · split
      · exact returns_pure _
      · exact returns_pure _

theorem tag_returns (h : Ahead G s t) : (Tag.construct t).Returns (Xml.Tag.construct t) := by
  have hnext := h.next hG
  unfold Tag.construct Xml.Tag.construct
  split
  · exact returns_pure _
  apply (next_returns hG h).bind
  apply (typeOf_returns hG hnext).bind
  cases hclosing : decide (char (Xml.next t) 0 = slash) with
  | true =>
    simp only [Bool.not_true, Bool.and_false, Bool.false_eq_true, and_false, if_false, if_true,
      reduceCtorEq]
    apply Returns.bind (next_returns hG hnext)
    apply (typeOf_returns hG (hnext.next hG)).bind
    split
    · exact returns_pure _
    · exact constructFrom_returns hG (hnext.next hG) true
  | false =>
    simp only [Bool.not_false, Bool.and_true, decide_eq_true_eq, and_true, Bool.false_eq_true,
      if_false]
    by_cases hident : Xml.typeOf (Xml.next t) = .ident
    · simp only [hident, ne_eq, not_true_eq_false, if_false]
      apply Returns.bind (returns_pure (Xml.next t))
      apply (typeOf_returns hG hnext).bind
      simp only [hident, not_true_eq_false, if_false]
      exact constructFrom_returns hG hnext false
    · simp only [hident, ne_eq, not_false_eq_true, if_true]
      exact returns_pure _

theorem skipToDelimiter_returns (h : Ahead G s t) {n : Nat} (hn : (rest t).length ≤ n) :
    (loop left Tag.delimiterBody t).Returns (Xml.skipToDelimiter n t) := by
  apply loop_bounded (I := Ahead G s) _ h hn
  intro n t ht _
  unfold Tag.delimiterBody
  by_cases hgo : t.valid = true ∧ char t 0 ≠ gt
  · rw [if_pos hgo]
    apply (next_returns hG ht).bind
    rw [gives_pure]
    have hlen : t.len ≠ 0 := by
      obtain ⟨s', rfl, -, -⟩ := ht
      exact valid_tok.mp hgo.1
    refine ⟨⟨ht.next hG, ht.length_next_lt hlen⟩, ?_⟩
    rintro m rfl
    rw [Xml.skipToDelimiter, if_pos (by simp [hgo.1, hgo.2])]
  · rw [if_neg hgo, gives_pure]
    exact skipToDelimiter_of_end hgo n

theorem tagNextToken_returns (h : Ahead G s tag.name) :
    (Tag.nextToken tag).Returns tag.nextToken :=
  Returns.bind (skipToDelimiter_returns hG h le_rfl)
    (next_returns hG (skipToDelimiter_closed (fun _ ht => ht.next hG) h))

omit hG in
/-- A text that begins with the end of a comment. -/
theorem narrow_of_found (h : (strcmpEq true s commentEnd 0).val = true) :
    Narrow xmlIdentifier s ∧ lexeme xmlIdentifier s = 1 := by
  obtain ⟨r, rfl⟩ := (strcmpEq_val (by decide)).mp h
  exact ⟨narrow_of_single (by decide) (by decide) (by decide) (by decide), rfl⟩

theorem comment_returns (h : Ahead G s t) :
    (Comment.construct t).Returns (Xml.Comment.construct t) := by
  have h₁ := h.next hG
  have h₂ := h₁.next hG
  have h₃ := h₂.next hG
  have h₄ := h₃.next hG
  unfold Comment.construct
  by_cases hm : (!(t.matches' commentStart).val) = true
  · have hval : Xml.Comment.construct t = ⟨.null, false⟩ := if_pos hm
    rw [if_pos hm, hval]
    exact returns_pure _
  · have hval : Xml.Comment.construct t =
        ⟨Xml.nextAfter (Xml.next (Xml.next (Xml.next (Xml.next t)))) commentEnd,
          (Xml.nextAfter (Xml.next (Xml.next (Xml.next (Xml.next t)))) commentEnd).valid⟩ :=
      if_neg hm
    rw [if_neg hm, hval]
    apply (next_returns hG h).bind
    apply (next_returns hG h₁).bind
    apply (next_returns hG h₂).bind
    apply (next_returns hG h₃).bind
    have hafter : (nextAfter (Xml.next (Xml.next (Xml.next (Xml.next t)))) commentEnd).Returns
        (Xml.nextAfter (Xml.next (Xml.next (Xml.next (Xml.next t)))) commentEnd) := by
      obtain ⟨s', heq, -, hs'⟩ := h₄
      rw [heq] at hval ⊢
      apply nextAfter_returns lawful_xmlIdentifier
      intro o hvalid hfound
      obtain ⟨hnarrow, hlen⟩ := narrow_of_found hfound.found
      refine ⟨hnarrow, hG.narrow ?_⟩
      have hnext := nextAfter_of_found lawful_xmlIdentifier hvalid hfound
      obtain ⟨s'', rfl, -, hs''⟩ := h
      exact hG.comment hs'' ((congrArg Comment.next hval).trans hnext)
    exact hafter.bind (returns_pure _)

end Tags

/-! ## The tags of a node -/

section Search

variable {G : List UInt8 → Prop} {s : List UInt8} {t : Token} {startTag tag : Tag} {d c : Nat}

theorem int_of_lt {n : Nat} (h : n < 2 ^ 31) : int n = n := by
  unfold int
  exact Int.bmod_eq_of_le (by omega) (by omega)

theorem countWith_eq (hc : c + 1 < 2 ^ 31) : Search.countWith ⟨d, c, t⟩ tag =
    ((if d = 1 ∧ tag.node then c + 1 else c : Nat) : Int) := by
  have hint : int (c + 1) = c + 1 := int_of_lt hc
  have hone : (d : Int) = 1 ↔ d = 1 := by omega
  simp only [Search.countWith, hone, hint]
  split <;> rfl

theorem depthWith_eq (hd : 0 < d) (hlt : d + 1 < 2 ^ 31) : Search.depthWith ⟨d, c, t⟩ tag =
    ((d + (if tag.type = .start then 1 else 0) - (if tag.type = .end' then 1 else 0) : Nat) :
      Int) := by
  have hint : int (d + 1) = d + 1 := int_of_lt hlt
  have hself : int d = d := int_of_lt (Nat.lt_of_succ_lt hlt)
  have hpred : int (d - 1) = (d - 1 : Nat) := by
    have hcast : (d : Int) - 1 = (d - 1 : Nat) := by omega
    rw [hcast]
    exact int_of_lt (by omega)
  unfold Search.depthWith
  cases tag.type <;> simp [hint, hself, hpred]

/-- The state of the search, with counters that stay small. -/
def Counts (G : List UInt8 → Prop) (st : Search) : Prop :=
  ∃ (d c : Nat) (s : List UInt8), st = ⟨d, c, tok s⟩ ∧ G s ∧ 0 < d ∧
    d + (tags s).length < 2 ^ 31 ∧ c + (tags s).length < 2 ^ 31

/-- The search with a bound for its rounds. -/
def searchWithin (startTag : Tag) (n : Nat) (st : Search) : Tag × Int :=
  ((searchLoop startTag n st.depth.toNat st.count.toNat st.curr).1,
    (searchLoop startTag n st.depth.toNat st.count.toNat st.curr).2)

theorem searchWithin_eq (n : Nat) : searchWithin startTag n ⟨d, c, t⟩ =
    ((searchLoop startTag n d c t).1, ((searchLoop startTag n d c t).2 : Int)) := rfl

/-- What a round of the search does, with a bound for the rounds left. -/
def SearchRound (G : List UInt8 → Prop) (startTag : Tag) (n : Nat) (st : Search) :
    Search ⊕ (Tag × Int) → Prop :=
  Sum.elim (fun st' => (Counts G st' ∧ left st'.curr < left st.curr) ∧
      searchWithin startTag (n + 1) st = searchWithin startTag n st')
    (searchWithin startTag (n + 1) st = ·)

variable (hG : Closed G)
include hG

/-- A round of the search at a tag. -/
theorem searchTag_gives (hs : G s) (hc : (Xml.Comment.construct (tok s)).valid = false)
    (ht : (Xml.Tag.construct (tok s)).type ≠ .invalid) (hd : 0 < d)
    (hdepth : d + (tags s).length < 2 ^ 31) (hcount : c + (tags s).length < 2 ^ 31) (n : Nat) :
    (searchTag startTag (Xml.Tag.construct (tok s)) ⟨d, c, tok s⟩).Gives
      (SearchRound G startTag n ⟨d, c, tok s⟩) := by
  obtain ⟨s', heq, -, hlt, hs'⟩ := tag_ahead hG hs ht
  have htags := tags_of_tag hc ht
  rw [heq, rest_tok] at htags
  rw [htags, List.length_cons] at hdepth hcount
  have hlen := (tag_name_later ht).2.1
  have hname := tag_name_ahead hG hs ht
  unfold SearchRound
  rw [searchWithin_eq, searchLoop, if_neg (mt typeOf_eq_end_iff.mp hlen), if_neg (by simp [hc]),
    if_neg ht]
  unfold searchTag
  rw [countWith_eq (by omega), depthWith_eq hd (by omega)]
  dsimp only
  generalize Xml.Tag.construct (tok s) = tag at ht heq hname ⊢
  have hcount' : (if d = 1 ∧ tag.node then c + 1 else c) ≤ c + 1 := by
    split
    · exact le_rfl
    · exact Nat.le_succ c
  have hdepth' : d + (if tag.type = .start then 1 else 0) - (if tag.type = .end' then 1 else 0) ≤
      d + 1 := by
    split <;> split <;> omega
  generalize (if d = 1 ∧ tag.node then c + 1 else c) = count at hcount' ⊢
  generalize d + (if tag.type = .start then 1 else 0) - (if tag.type = .end' then 1 else 0) =
    depth at hdepth' ⊢
  by_cases hpos : 0 < depth
  · rw [if_pos hpos, if_pos (Int.natCast_pos.mpr hpos)]
    apply (tagNextToken_returns hG hname).bind
    rw [gives_pure, heq]
    exact ⟨⟨⟨depth, count, s', rfl, hs', hpos, by omega, by omega⟩, hlt⟩, rfl⟩
  · rw [if_neg hpos, if_neg (mt Int.natCast_pos.mp hpos)]
    split
    · exact gives_pure.mpr rfl
    · exact gives_pure.mpr rfl

theorem searchBody_gives (hs : G s) (hlen : len s ≠ 0) (hd : 0 < d)
    (hdepth : d + (tags s).length < 2 ^ 31) (hcount : c + (tags s).length < 2 ^ 31) (n : Nat) :
    (searchBody startTag ⟨d, c, tok s⟩).Gives (SearchRound G startTag n ⟨d, c, tok s⟩) := by
  have hself : Ahead G s (tok s) := ahead_tok hs
  have hend := mt typeOf_eq_end_iff.mp hlen
  unfold searchBody
  apply (typeOf_returns hG hself).bind
  rw [if_neg hend]
  apply (comment_returns hG hself).bind
  by_cases hc : (Xml.Comment.construct (tok s)).valid = true
  · obtain ⟨-, s', heq, -, hlt⟩ := comment_later hc
    rw [if_pos hc, gives_pure]
    rw [tags_of_comment hc heq] at hdepth hcount
    refine ⟨⟨⟨d, c, s', by rw [heq], hG.comment hs heq, hd, hdepth, hcount⟩, ?_⟩, ?_⟩
    · rw [heq]
      exact hlt
    · rw [searchWithin_eq, searchWithin_eq, searchLoop, if_neg hend, if_pos hc]
  rw [if_neg hc]
  have hc : (Xml.Comment.construct (tok s)).valid = false := Bool.eq_false_iff.mpr hc
  apply (tag_returns hG hself).bind
  by_cases ht : (Xml.Tag.construct (tok s)).type = .invalid
  · rw [if_pos ht]
    apply (next_returns hG hself).bind
    rw [gives_pure, next_tok]
    rw [tags_of_no_tag hc ht] at hdepth hcount
    refine ⟨⟨⟨d, c, _, rfl, hG.next hs, hd, hdepth, hcount⟩, drop_len_length_lt hlen⟩, ?_⟩
    rw [searchWithin_eq, searchWithin_eq, searchLoop, if_neg hend, if_neg (by simp [hc]),
      if_pos ht, next_tok]
  · rw [if_neg ht]
    exact searchTag_gives hG hs hc ht hd hdepth hcount n

/-- The search with the counters of the code. -/
theorem searchEndTag_returns (h : tag.type = .start → Ahead G s tag.name) :
    (searchEndTag tag).Returns ((Xml.searchEndTag tag).1, ((Xml.searchEndTag tag).2 : Int)) := by
  unfold searchEndTag Xml.searchEndTag
  by_cases hstart : tag.type = .start
  · rw [if_neg (not_not.mpr hstart), if_neg (not_not.mpr hstart)]
    have hname := h hstart
    have hcurr : Ahead G s tag.nextToken :=
      Ahead.next hG (skipToDelimiter_closed (fun _ ht => ht.next hG) hname)
    apply (tagNextToken_returns hG hname).bind
    obtain ⟨content, heq, -, hcontent⟩ := hcurr
    rw [heq]
    have hfirst : Counts G ⟨1, 0, tok content⟩ := by
      have hlt := hG.tags hcontent
      exact ⟨1, 0, content, rfl, hcontent, Nat.one_pos, by omega, by omega⟩
    show (loop (fun st => left st.curr) (searchBody tag) ⟨1, 0, tok content⟩).Returns
      (searchWithin tag (left (tok content)) ⟨1, 0, tok content⟩)
    apply loop_bounded (I := Counts G) _ hfirst le_rfl
    intro n st hst hn
    obtain ⟨d, c, s', rfl, hs', hd, hdepth, hcount⟩ := hst
    by_cases hlen : len s' = 0
    · unfold searchBody
      apply (typeOf_returns hG (ahead_tok hs')).bind
      rw [if_pos (typeOf_eq_end_iff.mpr hlen), gives_pure]
      cases n with
      | zero => rfl
      | succ n =>
        show searchWithin tag (n + 1) ⟨d, c, tok s'⟩ = _
        rw [searchWithin_eq, searchLoop, if_pos (typeOf_eq_end_iff.mpr hlen)]
    · have hpos : 0 < s'.length := (Nat.zero_le _).trans_lt (drop_len_length_lt hlen)
      have hn : s'.length ≤ n := hn
      obtain ⟨n, rfl⟩ := Nat.exists_eq_add_of_lt (hpos.trans_le hn)
      rw [Nat.zero_add]
      apply (searchBody_gives hG hs' hlen hd hdepth hcount n).mono
      intro r hr
      cases r with
      | inl st' =>
        refine ⟨hr.1, ?_⟩
        intro m hm
        cases hm
        exact hr.2
      | inr r => exact hr
  · rw [if_pos hstart, if_pos hstart]
    exact returns_pure _

end Search

section Skip

variable {G : List UInt8 → Prop} {s : List UInt8} {t : Token}

variable (hG : Closed G)
include hG

/-- A round of the loop that skips what is no tag. -/
theorem skipBody_gives (ht : Ahead G s t) {n : Nat} (hn : (rest t).length ≤ n) :
    (skipBody t).Gives (Sum.elim
      (fun t' => (Ahead G s t' ∧ left t' < left t) ∧
        ∀ m, n = m + 1 → skipLoop n t = skipLoop m t')
      (skipLoop n t = ·)) := by
  have heat := ht.eatWhitespace hG
  have hle : (rest (Xml.eatWhitespace t)).length ≤ (rest t).length :=
    (ht.self.eatWhitespace hG).suffix.length_le
  obtain ⟨s₁, heq, hs₁, hG₁⟩ := heat
  rw [heq, rest_tok] at hle
  unfold skipBody
  apply (eatWhitespace_returns hG ht).bind
  rw [heq]
  have hself : Ahead G s₁ (tok s₁) := ahead_tok hG₁
  apply (comment_returns hG hself).bind
  by_cases hc : (Xml.Comment.construct (tok s₁)).valid = true
  · obtain ⟨-, s₂, heq₂, hs₂, hlt⟩ := comment_later hc
    rw [if_pos hc, gives_pure, heq₂]
    refine ⟨⟨⟨s₂, rfl, hs₂.trans hs₁, hG.comment hG₁ heq₂⟩, hlt.trans_le hle⟩, ?_⟩
    rintro m rfl
    rw [skipLoop, heq, if_pos hc, heq₂]
  rw [if_neg hc]
  apply (tag_returns hG hself).bind
  by_cases hgo : (Xml.Tag.construct (tok s₁)).type = .invalid ∧
      (Xml.Tag.construct (tok s₁)).token.valid = true
  · have hlen : len s₁ ≠ 0 := by
      rw [tag_token] at hgo
      exact valid_tok.mp hgo.2
    rw [if_pos hgo]
    apply (next_returns hG hself).bind
    rw [gives_pure, next_tok]
    refine ⟨⟨⟨_, rfl, (List.drop_suffix _ _).trans hs₁, hG.next hG₁⟩,
      (drop_len_length_lt hlen).trans_le hle⟩, ?_⟩
    rintro m rfl
    rw [skipLoop, heq, if_neg hc, if_pos hgo, next_tok]
  · rw [if_neg hgo, gives_pure]
    cases n with
    | zero =>
      -- nothing is left, so that there is no whitespace
      obtain ⟨s', rfl, -, -⟩ := ht
      obtain rfl : s' = [] := List.length_eq_zero_iff.mp (Nat.le_zero.mp hn)
      exact heq
    | succ n =>
      show skipLoop (n + 1) t = tok s₁
      rw [skipLoop, heq, if_neg hc, if_neg hgo]

theorem skipNonTagCharacters_returns (h : Ahead G s t) :
    (skipNonTagCharacters t).Returns (Xml.skipNonTagCharacters t) := by
  unfold skipNonTagCharacters Xml.skipNonTagCharacters
  apply loop_bounded (I := Ahead G s) _ h le_rfl
  exact fun n t ht hn => skipBody_gives hG ht hn

/-- The tags of the node at the beginning of a text. -/
theorem tags_returns (hs : G s) : (Tags.construct s).Returns (Xml.Tags.construct s) := by
  have hself : Ahead G s (tok s) := ahead_tok hs
  have hskip : Ahead G s (Xml.skipNonTagCharacters (tok s)) := skipLoop_ahead hG hself
  unfold Tags.construct Xml.Tags.construct
  rw [tokenAt_eq]
  apply (token_returns hG hs).bind
  apply (skipNonTagCharacters_returns hG hself).bind
  apply (tag_returns hG hskip).bind
  obtain ⟨s', heq, hs', hG'⟩ := hskip
  rw [heq]
  have hname (hstart : (Xml.Tag.construct (tok s')).type = .start) :
      Ahead G (s'.drop (len s')) (Xml.Tag.construct (tok s')).name :=
    tag_name_ahead hG hG' (by rw [hstart]; nofun)
  apply (searchEndTag_returns hG hname).bind
  exact returns_pure _

end Skip

end Genode.Util.Xml.Looped
