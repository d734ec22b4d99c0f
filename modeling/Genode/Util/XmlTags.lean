import Genode.Util.TokenBounds
import Genode.Util.XmlScan
import Genode.Util.XmlText

/-!
# XmlTags — how the parser reads the tags that the generator writes

Each piece of the text is a token by itself, whatever stands before and
behind it. From this the tags of the text are read off, with their names
and attributes.
-/

namespace Genode.Util.Xml

open Lib Ascii

/-! ## Tokens -/

/-- A text is one token of the text that it begins. -/
structure Lexes (x r : List UInt8) (ty : TokenType) : Prop where
  ne_nil : x ≠ []
  len : len (x ++ r) = x.length
  type : lexType xmlIdentifier (x ++ r) = ty

section Lexes

variable {x r : List UInt8} {ty : TokenType}

theorem Lexes.len_ne_zero (h : Lexes x r ty) : Xml.len (x ++ r) ≠ 0 := by
  rw [h.len]
  exact fun h₀ => h.ne_nil (List.length_eq_zero_iff.mp h₀)

theorem Lexes.drop (h : Lexes x r ty) : (x ++ r).drop (Xml.len (x ++ r)) = r := by
  rw [h.len, List.drop_left]

theorem Lexes.next (h : Lexes x r ty) : next (tok (x ++ r)) = tok r := by
  rw [next_tok, h.drop]

theorem Lexes.typeOf (h : Lexes x r ty) : typeOf (tok (x ++ r)) = ty := by
  rw [typeOf_tok, h.type]

theorem Lexes.char (h : Lexes x r ty) : char (tok (x ++ r)) 0 = charAt x 0 := by
  rw [char_tok, if_neg h.len_ne_zero, charAt_append_left (List.length_pos_of_ne_nil h.ne_nil)]

theorem Lexes.eatWhitespace (h : Lexes x r ty) (hty : ty ≠ .whitespace) :
    eatWhitespace (tok (x ++ r)) = tok (x ++ r) := by
  rw [eatWhitespace_tok, h.type, if_neg hty]

theorem Lexes.chars (h : Lexes x r ty) : chars (tok (x ++ r)) = x := by
  rw [Xml.chars, rest_tok, len_tok, h.len, List.take_left]

end Lexes

/-- The valid names. -/
def isIdentifier : List UInt8 → Bool
  | [] => false
  | c :: cs => xmlIdentifier.identifierChar c 0 && cs.all (xmlIdentifier.identifierChar · 1)

/-- A character that is a token by itself. -/
def isSingle (c : UInt8) : Bool :=
  decide (c ≠ 0) && !xmlIdentifier.identifierChar c 0 && !isDigit c && !isWhitespace c &&
    decide (c ≠ quote)

section Kinds

variable {name value r : List UInt8} {c : UInt8}

theorem takeWhile_append_stop {p : UInt8 → Bool} {xs : List UInt8} (hx : xs.all p = true)
    (hr : p (charAt r 0) = false) : (xs ++ r).takeWhile p = xs := by
  rw [List.takeWhile_append_of_pos (by simpa using hx)]
  cases r with
  | nil => simp
  | cons d ds =>
    rw [charAt_cons_zero] at hr
    simp [hr]

theorem lexes_identifier (hname : isIdentifier name = true)
    (hr : xmlIdentifier.identifierChar (charAt r 0) 1 = false) : Lexes name r .ident := by
  cases name with
  | nil => cases hname
  | cons c cs =>
    simp only [isIdentifier, Bool.and_eq_true] at hname
    have h₀ : c ≠ 0 := by
      rintro rfl
      rw [lawful_xmlIdentifier.identifierChar_zero] at hname
      cases hname.1
    constructor
    · exact List.cons_ne_nil _ _
    · rw [len, List.cons_append, lexeme, if_neg h₀, if_pos hname.1,
        takeWhile_append_stop hname.2 hr, List.length_cons]
    · rw [List.cons_append, lexType, if_neg h₀, if_pos hname.1]

theorem lexes_single (hc : isSingle c = true) : Lexes [c] r .singlechar := by
  simp only [isSingle, Bool.and_eq_true, decide_eq_true_eq, Bool.not_eq_true'] at hc
  obtain ⟨⟨⟨⟨h₀, h₁⟩, h₂⟩, h₃⟩, h₄⟩ := hc
  constructor
  · exact List.cons_ne_nil _ _
  · simp [len, lexeme, h₀, h₁, h₂, h₃, h₄]
  · simp [lexType, h₀, h₁, h₂, h₃, h₄]

theorem lexes_space (hr : isWhitespace (charAt r 0) = false) : Lexes [space] r .whitespace := by
  have h₀ : ¬ space = 0 := by decide
  have h₁ : ¬ xmlIdentifier.identifierChar space 0 = true := by decide
  have h₂ : ¬ isDigit space = true := by decide
  have h₃ : isWhitespace space = true := by decide
  constructor
  · exact List.cons_ne_nil _ _
  · have hstop : ([] ++ r).takeWhile isWhitespace = [] := takeWhile_append_stop rfl hr
    rw [List.nil_append] at hstop
    rw [len, List.singleton_append, lexeme, if_neg h₀, if_neg h₁, if_neg h₂, if_pos h₃, hstop]
    rfl
  · rw [List.singleton_append, lexType, if_neg h₀, if_neg h₁, if_neg h₂, if_pos h₃]

/-- The quotation ends at the first quotation mark. -/
theorem quotedLen_eq (hq : quote ∉ value) (hz : (0 : UInt8) ∉ value) :
    quotedLen xmlIdentifier (quote :: (value ++ quote :: r)) = value.length + 2 := by
  -- the characters up to the end of the quotation
  have hend (i : Nat) : (xmlIdentifier.endOfQuote (quote :: (value ++ quote :: r)) i).val =
      decide (charAt (value ++ quote :: r) i = quote) := rfl
  have hin (i : Nat) (hi : i < value.length) : charAt (value ++ quote :: r) i ∈ value := by
    rw [charAt_append_left hi]
    exact charAt_mem hi
  have hat : charAt (value ++ quote :: r) value.length = quote := by
    rw [charAt_append_right le_rfl, Nat.sub_self, charAt_cons_zero]
  have hlen : (quote :: (value ++ quote :: r)).length = value.length + r.length + 2 := by
    simp only [List.length_cons, List.length_append]
    omega
  have hclosed : ¬ Open xmlIdentifier (quote :: (value ++ quote :: r)) (value.length + 1) := by
    intro ho
    have := (ho value.length (by omega)).1
    rw [hend, hat] at this
    simp at this
  rcases quotedLen_cases xmlIdentifier (quote :: (value ++ quote :: r)) with
    ⟨e, ho, he, -, h⟩ | ⟨e, ho, he, hzero, -, h⟩ | ⟨ho, -⟩
  · rw [hend, decide_eq_true_eq] at he
    rcases Nat.lt_trichotomy e value.length with hlt | rfl | hlt
    · exact (hq (he ▸ hin e hlt)).elim
    · exact h
    · exact (hclosed fun j hj => ho j (by omega)).elim
  · by_cases hle : e ≤ value.length
    · cases e with
      | zero => cases hzero
      | succ e =>
        rw [charAt_cons_succ] at hzero
        exact (hz (hzero ▸ hin e (by omega))).elim
    · exact (hclosed fun j hj => ho j (by omega)).elim
  · exact (hclosed fun j hj => ho j (by omega)).elim

theorem lexes_string (hq : quote ∉ value) (hz : (0 : UInt8) ∉ value) :
    Lexes (quote :: (value ++ [quote])) r .string := by
  have h₀ : ¬ quote = 0 := by decide
  have h₁ : ¬ xmlIdentifier.identifierChar quote 0 = true := by decide
  have h₂ : ¬ isDigit quote = true := by decide
  have h₃ : ¬ isWhitespace quote = true := by decide
  have hquoted := quotedLen_eq (r := r) hq hz
  have happ : quote :: (value ++ [quote]) ++ r = quote :: (value ++ quote :: r) := by simp
  constructor
  · exact List.cons_ne_nil _ _
  · rw [happ, len, lexeme_quote lawful_xmlIdentifier, hquoted]
    simp
  · rw [happ, lexType, if_neg h₀, if_neg h₁, if_neg h₂, if_neg h₃, if_pos rfl, hquoted]
    simp

end Kinds

/-! ## Text without tags -/

/-- Text with neither tags nor quotations. -/
def Plain (x : List UInt8) : Prop := ∀ c ∈ x, c ≠ 0 ∧ c ≠ lt ∧ c ≠ quote

section Plain

variable {x y r : List UInt8}

theorem Plain.append (hx : Plain x) (hy : Plain y) : Plain (x ++ y) := by
  intro c hc
  rcases List.mem_append.mp hc with hc | hc
  · exact hx c hc
  · exact hy c hc

/-- Before a tag every token of a plain text ends. -/
theorem len_plain {c : UInt8} (hx : Plain (c :: x)) :
    len (c :: x ++ lt :: r) ≠ 0 ∧ len (c :: x ++ lt :: r) ≤ (c :: x).length := by
  obtain ⟨h₀, -, h₄⟩ := hx c List.mem_cons_self
  have htake (p : UInt8 → Bool) (hp : p lt = false) :
      ((x ++ lt :: r).takeWhile p).length ≤ x.length := by
    rw [List.takeWhile_append]
    split
    · simp [hp]
    · exact (List.takeWhile_prefix p).length_le
  have h₁ := htake (xmlIdentifier.identifierChar · 1) (by decide)
  have h₂ := htake isDigit (by decide)
  have h₃ := htake isWhitespace (by decide)
  rw [len, List.cons_append, lexeme, if_neg h₀, List.length_cons]
  repeat' split
  all_goals omega

/-- Plain text is skipped. -/
theorem tags_plain (hx : Plain x) : tags (x ++ lt :: r) = tags (lt :: r) := by
  induction hn : x.length using Nat.strongRecOn generalizing x with
  | _ n ih =>
    cases x with
    | nil => rfl
    | cons c x =>
      have hlt : charAt (c :: x ++ lt :: r) 0 ≠ lt := (hx c List.mem_cons_self).2.1
      obtain ⟨hpos, hle⟩ := len_plain (r := r) hx
      have hskip : tags (c :: x ++ lt :: r) =
          tags ((c :: x ++ lt :: r).drop (len (c :: x ++ lt :: r))) := by
        apply tags_of_no_tag
        · by_contra hc
          exact hlt (comment_char (Bool.eq_true_of_not_eq_false hc))
        · by_contra ht
          exact hlt (tag_char ht)
      rw [hskip, List.drop_append_of_le_length hle]
      apply ih _ _ _ rfl
      · rw [List.length_drop]
        omega
      · intro d hd
        exact hx d (List.mem_of_mem_drop hd)

end Plain

/-! ## Attributes -/

/-- An attribute that the parser can read. -/
def AttributeOk (a : List UInt8 × List UInt8) : Prop :=
  isIdentifier a.1 = true ∧ quote ∉ a.2 ∧ (0 : UInt8) ∉ a.2

/-- The end of a list of attributes. -/
def isDelimiter (c : UInt8) : Bool := decide (c = gt) || decide (c = slash)

section Attributes

variable {a : List UInt8 × List UInt8} {as : List (List UInt8 × List UInt8)} {r : List UInt8}
  {c : UInt8} {n : Nat}

theorem attributesText_cons_append :
    attributesText (a :: as) ++ r =
      [space] ++ (a.1 ++ ([equalSign] ++
        (quote :: (a.2 ++ [quote]) ++ (attributesText as ++ r)))) := by
  simp [attributesText]

theorem isSingle_of_isDelimiter (h : isDelimiter c = true) : isSingle c = true := by
  simp only [isDelimiter, Bool.or_eq_true, decide_eq_true_eq] at h
  rcases h with rfl | rfl <;> decide

/-- What follows a name ends it. -/
theorem not_identifierChar_attributes (hc : isDelimiter c = true) :
    xmlIdentifier.identifierChar (charAt (attributesText as ++ c :: r) 0) 1 = false := by
  cases as with
  | nil =>
    change xmlIdentifier.identifierChar c 1 = false
    simp only [isDelimiter, Bool.or_eq_true, decide_eq_true_eq] at hc
    rcases hc with rfl | rfl <;> decide
  | cons a as =>
    change xmlIdentifier.identifierChar space 1 = false
    decide

/-- The first character of a name. -/
theorem charAt_identifier_ne {name : List UInt8} (h : isIdentifier name = true)
    (hc : xmlIdentifier.identifierChar c 0 = false) : charAt name 0 ≠ c := by
  cases name with
  | nil => cases h
  | cons d ds =>
    simp only [isIdentifier, Bool.and_eq_true] at h
    rintro rfl
    rw [charAt_cons_zero] at hc
    rw [hc] at h
    cases h.1

theorem charAt_identifier_append {name : List UInt8} (h : isIdentifier name = true) :
    charAt (name ++ r) 0 = charAt name 0 := by
  cases name with
  | nil => cases h
  | cons d ds => rfl

theorem isWhitespace_identifier {name : List UInt8} (h : isIdentifier name = true) :
    isWhitespace (charAt (name ++ r) 0) = false := by
  rw [charAt_identifier_append h]
  have h₁ := charAt_identifier_ne (c := 0x09) h (by decide)
  have h₂ := charAt_identifier_ne (c := 0x20) h (by decide)
  have h₃ := charAt_identifier_ne (c := 0x0a) h (by decide)
  simp [isWhitespace, h₁, h₂, h₃]

/-- The tokens of an attribute. -/
theorem tokens_attribute (as : List (List UInt8 × List UInt8)) (r : List UInt8)
    (ha : AttributeOk a) :
    let t := XmlAttribute.tokens (tok (attributesText (a :: as) ++ r))
    t.valid = true ∧ t.nextToken = tok (attributesText as ++ r) ∧ chars t.name = a.1 ∧
      t.rawValue = a.2 := by
  obtain ⟨hname, hq, hz⟩ := ha
  rw [attributesText_cons_append]
  generalize attributesText as ++ r = rest
  have hstring : Lexes (quote :: (a.2 ++ [quote])) rest .string := lexes_string hq hz
  have hequals : Lexes [equalSign] (quote :: (a.2 ++ [quote]) ++ rest) .singlechar :=
    lexes_single (by decide)
  have hident : Lexes a.1 ([equalSign] ++ (quote :: (a.2 ++ [quote]) ++ rest)) .ident :=
    lexes_identifier hname (by change xmlIdentifier.identifierChar equalSign 1 = false; decide)
  have hspace : Lexes [space] (a.1 ++ ([equalSign] ++ (quote :: (a.2 ++ [quote]) ++ rest)))
      .whitespace := lexes_space (isWhitespace_identifier hname)
  have heat : eatWhitespace (tok ([space] ++ (a.1 ++ ([equalSign] ++
      (quote :: (a.2 ++ [quote]) ++ rest))))) =
      tok (a.1 ++ ([equalSign] ++ (quote :: (a.2 ++ [quote]) ++ rest))) := by
    rw [eatWhitespace_tok, hspace.type, if_pos rfl, hspace.drop]
  intro t
  have ht : t = ⟨tok (a.1 ++ ([equalSign] ++ (quote :: (a.2 ++ [quote]) ++ rest))),
      tok ([equalSign] ++ (quote :: (a.2 ++ [quote]) ++ rest)),
      tok (quote :: (a.2 ++ [quote]) ++ rest)⟩ := by
    change XmlAttribute.tokens _ = _
    unfold XmlAttribute.tokens
    rw [heat]
    dsimp only
    rw [hident.next, hequals.eatWhitespace (by decide), hequals.next,
      hstring.eatWhitespace (by decide)]
  rw [ht]
  refine ⟨?_, hstring.next, hident.chars, ?_⟩
  · simp only [XmlAttribute.valid, hident.typeOf, hequals.char, hstring.typeOf]
    decide
  · simp only [XmlAttribute.rawValue, rest_tok, len_tok, hstring.len]
    simp

/-- There is no attribute at the end of the list. -/
theorem tokens_delimiter (hc : isDelimiter c = true) :
    (XmlAttribute.tokens (tok (c :: r))).valid = false := by
  have hsingle : Lexes [c] r .singlechar := lexes_single (isSingle_of_isDelimiter hc)
  have htype : typeOf (XmlAttribute.tokens (tok (c :: r))).name = .singlechar := by
    change typeOf (eatWhitespace (tok ([c] ++ r))) = _
    rw [hsingle.eatWhitespace (by decide), hsingle.typeOf]
  rw [XmlAttribute.valid, htype]
  rfl

theorem skipAttributes_eq (has : ∀ a ∈ as, AttributeOk a) (hc : isDelimiter c = true)
    (hn : as.length ≤ n) :
    skipAttributes n (tok (attributesText as ++ c :: r)) = tok (c :: r) := by
  induction as generalizing n with
  | nil => exact skipAttributes_of_invalid (tokens_delimiter hc) n
  | cons a as ih =>
    cases n with
    | zero => cases hn
    | succ n =>
      obtain ⟨hvalid, hnext, -, -⟩ :=
        tokens_attribute as (c :: r) (has a List.mem_cons_self)
      rw [skipAttributes, hvalid, if_pos rfl, hnext]
      exact ih (fun a ha => has a (List.mem_cons_of_mem _ ha)) (Nat.le_of_succ_le_succ hn)

/-- The attributes are read in their order, with their values. -/
theorem attributesFrom_eq (has : ∀ a ∈ as, AttributeOk a) (hc : isDelimiter c = true)
    (hn : as.length ≤ n) :
    (XmlNode.attributesFrom n (tok (attributesText as ++ c :: r))).map
      (fun a => (chars a.name, a.rawValue)) = as := by
  induction as generalizing n with
  | nil =>
    change (XmlNode.attributesFrom n (tok (c :: r))).map _ = _
    rw [attributesFrom_of_invalid (tokens_delimiter hc)]
    rfl
  | cons a as ih =>
    cases n with
    | zero => cases hn
    | succ n =>
      obtain ⟨hvalid, hnext, hname, hvalue⟩ :=
        tokens_attribute as (c :: r) (has a List.mem_cons_self)
      rw [XmlNode.attributesFrom, hvalid, if_pos rfl, hnext, List.map_cons, hname, hvalue,
        ih (fun a ha => has a (List.mem_cons_of_mem _ ha)) (Nat.le_of_succ_le_succ hn)]

end Attributes

/-! ## Tags -/

/-- The search for the delimiter comes to the one before `r`. -/
def Delimits (s r : List UInt8) : Prop :=
  ∀ n, s.length ≤ n → skipToDelimiter n (tok s) = tok (gt :: r)

section Tags

variable {x s r name : List UInt8} {as : List (List UInt8 × List UInt8)} {ty : TokenType}
  {c : UInt8}

theorem delimits_gt (r : List UInt8) : Delimits (gt :: r) r := by
  intro n hn
  have hgt : Lexes [gt] r .singlechar := lexes_single (by decide)
  have hchar : char (tok (gt :: r)) 0 = gt := hgt.char
  cases n with
  | zero => cases hn
  | succ n =>
    rw [skipToDelimiter, hchar]
    simp

/-- Tokens before the delimiter are skipped. -/
theorem Delimits.step (h : Lexes x s ty) (hc : charAt x 0 ≠ gt) (hs : Delimits s r) :
    Delimits (x ++ s) r := by
  intro n hn
  have hpos := List.length_pos_of_ne_nil h.ne_nil
  rw [List.length_append] at hn
  cases n with
  | zero => omega
  | succ n =>
    have hvalid : (tok (x ++ s)).valid = true := valid_tok.mpr h.len_ne_zero
    rw [skipToDelimiter, hvalid, h.char, h.next]
    simp only [Bool.true_and, decide_eq_true_eq, ne_eq, hc, not_false_eq_true, if_true]
    exact hs n (by omega)

theorem Delimits.attributes (has : ∀ a ∈ as, AttributeOk a) (hs : Delimits s r) :
    Delimits (attributesText as ++ s) r := by
  induction as with
  | nil => exact hs
  | cons a as ih =>
    obtain ⟨hname, hq, hz⟩ := has a List.mem_cons_self
    have hrest := ih fun a ha => has a (List.mem_cons_of_mem _ ha)
    rw [attributesText_cons_append]
    apply Delimits.step (lexes_space (isWhitespace_identifier hname)) (by decide)
    apply Delimits.step (lexes_identifier hname _) (charAt_identifier_ne hname (by decide))
    · apply Delimits.step (lexes_single (by decide)) (by decide)
      exact Delimits.step (lexes_string hq hz) (by change quote ≠ gt; decide) hrest
    · change xmlIdentifier.identifierChar equalSign 1 = false
      decide

theorem not_commentStart (hc : c ≠ 0x21) :
    ((tok (lt :: c :: s)).matches' commentStart).val = false := by
  simp only [Token.matches', start_tok]
  split
  · rfl
  · have h₁ : Char.toUInt8 '<' = lt := by decide
    have h₂ : Char.toUInt8 '!' = 0x21 := by decide
    rw [commentStart, bytes, List.map_cons, List.map_cons, strcmpEq, h₁, h₂]
    simp [strcmpEq, hc]

/-- The text of a tag is no comment. -/
theorem comment_of_ne (hc : c ≠ 0x21) : (Comment.construct (tok (lt :: c :: s))).valid = false := by
  rw [Comment.construct, not_commentStart hc]
  rfl

/-- A tag that begins with a name. -/
theorem tag_construct_open {t d : Token} (hlt : char t 0 = lt) (hname : char (next t) 0 ≠ slash)
    (htype : typeOf (next t) = .ident)
    (hd : eatWhitespace
      (skipAttributes (rest (next (next t))).length (next (next t))) = d) :
    Tag.construct t =
      ⟨t, next t,
        if char d 0 = slash then if char (next d) 0 ≠ gt then .invalid else .empty
        else if char d 0 ≠ gt then .invalid else .start⟩ := by
  unfold Tag.construct
  simp only [hlt, hname, htype, ne_eq, not_true_eq_false, decide_false, if_false, Bool.not_false,
    Bool.false_eq_true, Bool.and_true, hd]
  repeat' split
  all_goals rfl

/-- A tag that begins with a slash. -/
theorem tag_construct_close {t d : Token} (hlt : char t 0 = lt) (hslash : char (next t) 0 = slash)
    (htype : typeOf (next (next t)) = .ident) (hd : eatWhitespace (next (next (next t))) = d)
    (hgt : char d 0 = gt) : Tag.construct t = ⟨t, next (next t), .end'⟩ := by
  have hne : ¬ gt = slash := by decide
  unfold Tag.construct
  simp only [hlt, hslash, htype, ne_eq, not_true_eq_false, decide_true, if_false, if_true,
    Bool.not_true, Bool.false_eq_true, Bool.and_false, hd, hgt, hne]

theorem length_le_attributesText (as : List (List UInt8 × List UInt8)) :
    as.length ≤ (attributesText as).length := by
  induction as with
  | nil => exact Nat.zero_le _
  | cons a as ih =>
    have hcons : attributesText (a :: as) = attributesText [a] ++ attributesText as := by
      simp [attributesText]
    have hpos : 1 ≤ (attributesText [a]).length := by
      simp [attributesText]
    rw [hcons, List.length_append, List.length_cons]
    omega

/-- A tag with a name and attributes. -/
theorem tag_of_name (hname : isIdentifier name = true) (has : ∀ a ∈ as, AttributeOk a)
    (hc : isDelimiter c = true) :
    Tag.construct (tok (lt :: (name ++ (attributesText as ++ c :: r)))) =
      ⟨tok (lt :: (name ++ (attributesText as ++ c :: r))),
        tok (name ++ (attributesText as ++ c :: r)),
        if c = slash then if char (tok r) 0 ≠ gt then .invalid else .empty else .start⟩ := by
  have hlt : Lexes [lt] (name ++ (attributesText as ++ c :: r)) .singlechar :=
    lexes_single (by decide)
  have hident : Lexes name (attributesText as ++ c :: r) .ident :=
    lexes_identifier hname (not_identifierChar_attributes hc)
  have hsingle : Lexes [c] r .singlechar := lexes_single (isSingle_of_isDelimiter hc)
  have hfuel : as.length ≤ (attributesText as ++ c :: r).length := by
    have := length_le_attributesText as
    rw [List.length_append]
    omega
  have hskip : eatWhitespace (skipAttributes (attributesText as ++ c :: r).length
      (tok (attributesText as ++ c :: r))) = tok ([c] ++ r) := by
    rw [skipAttributes_eq has hc hfuel]
    exact hsingle.eatWhitespace (by decide)
  have htag := tag_construct_open (t := tok ([lt] ++ (name ++ (attributesText as ++ c :: r))))
    (d := tok ([c] ++ r)) hlt.char
    (by rw [hlt.next, hident.char]; exact charAt_identifier_ne hname (by decide))
    (by rw [hlt.next, hident.typeOf]) (by rw [hlt.next, hident.next, rest_tok, hskip])
  rw [hlt.next, hsingle.char, hsingle.next, charAt_cons_zero] at htag
  refine htag.trans ?_
  congr 1
  by_cases hslash : c = slash
  · rw [if_pos hslash, if_pos hslash]
  · have hgt : c = gt := by simpa [isDelimiter, hslash] using hc
    rw [if_neg hslash, if_neg hslash, if_neg (by simp [hgt])]

/-- The text of a tag. -/
structure TagText (s : List UInt8) (t : Tag) (r : List UInt8) : Prop where
  tag : Tag.construct (tok s) = t
  type : t.type ≠ .invalid
  comment : (Comment.construct (tok s)).valid = false
  nextToken : t.nextToken = tok r

theorem TagText.tags {t : Tag} (h : TagText s t r) : tags s = t :: tags r := by
  rw [tags_of_tag h.comment (by rw [h.tag]; exact h.type), h.tag, h.nextToken, rest_tok]

theorem comment_of_name (hname : isIdentifier name = true) :
    (Comment.construct (tok (lt :: (name ++ s)))).valid = false := by
  have hne := charAt_identifier_ne (c := 0x21) hname (by decide)
  cases name with
  | nil => cases hname
  | cons c cs => exact comment_of_ne hne

theorem tagText_start (hname : isIdentifier name = true) (has : ∀ a ∈ as, AttributeOk a)
    (r : List UInt8) :
    TagText (lt :: (name ++ (attributesText as ++ gt :: r)))
      ⟨tok (lt :: (name ++ (attributesText as ++ gt :: r))),
        tok (name ++ (attributesText as ++ gt :: r)), .start⟩ r := by
  have hident : Lexes name (attributesText as ++ gt :: r) .ident :=
    lexes_identifier hname (not_identifierChar_attributes (by decide))
  have hgt : Lexes [gt] r .singlechar := lexes_single (by decide)
  have hdel : Delimits (name ++ (attributesText as ++ gt :: r)) r :=
    Delimits.step hident (charAt_identifier_ne hname (by decide))
      (Delimits.attributes has (delimits_gt r))
  constructor
  · exact tag_of_name hname has (by decide)
  · simp
  · exact comment_of_name hname
  · rw [Tag.nextToken, rest_tok, hdel _ le_rfl]
    exact hgt.next

theorem tagText_empty (hname : isIdentifier name = true) (has : ∀ a ∈ as, AttributeOk a)
    (r : List UInt8) :
    TagText (lt :: (name ++ (attributesText as ++ slash :: gt :: r)))
      ⟨tok (lt :: (name ++ (attributesText as ++ slash :: gt :: r))),
        tok (name ++ (attributesText as ++ slash :: gt :: r)), .empty⟩ r := by
  have hident : Lexes name (attributesText as ++ slash :: gt :: r) .ident :=
    lexes_identifier hname (not_identifierChar_attributes (by decide))
  have hgt : Lexes [gt] r .singlechar := lexes_single (by decide)
  have hchar : char (tok (gt :: r)) 0 = gt := hgt.char
  have hdel : Delimits (name ++ (attributesText as ++ slash :: gt :: r)) r :=
    Delimits.step hident (charAt_identifier_ne hname (by decide))
      (Delimits.attributes has
        (Delimits.step (x := [slash]) (lexes_single (by decide)) (by decide) (delimits_gt r)))
  constructor
  · have htag := tag_of_name (r := gt :: r) hname has (show isDelimiter slash = true by decide)
    rw [if_pos rfl, hchar, if_neg (by simp)] at htag
    exact htag
  · simp
  · exact comment_of_name hname
  · rw [Tag.nextToken, rest_tok, hdel _ le_rfl]
    exact hgt.next

theorem tagText_end (hname : isIdentifier name = true) (r : List UInt8) :
    TagText (lt :: slash :: (name ++ gt :: r))
      ⟨tok (lt :: slash :: (name ++ gt :: r)), tok (name ++ gt :: r), .end'⟩ r := by
  have hlt : Lexes [lt] ([slash] ++ (name ++ gt :: r)) .singlechar := lexes_single (by decide)
  have hslash : Lexes [slash] (name ++ gt :: r) .singlechar := lexes_single (by decide)
  have hident : Lexes name (gt :: r) .ident :=
    lexes_identifier hname (by change xmlIdentifier.identifierChar gt 1 = false; decide)
  have hgt : Lexes [gt] r .singlechar := lexes_single (by decide)
  have hdel : Delimits (name ++ gt :: r) r :=
    Delimits.step hident (charAt_identifier_ne hname (by decide)) (delimits_gt r)
  constructor
  · have htag := tag_construct_close (t := tok ([lt] ++ ([slash] ++ (name ++ gt :: r))))
      (d := tok ([gt] ++ r)) hlt.char (by rw [hlt.next]; exact hslash.char)
      (by rw [hlt.next, hslash.next]; exact hident.typeOf)
      (by rw [hlt.next, hslash.next, hident.next]; exact hgt.eatWhitespace (by decide)) hgt.char
    rw [hlt.next, hslash.next] at htag
    exact htag
  · simp
  · exact comment_of_ne (by decide)
  · rw [Tag.nextToken, rest_tok, hdel _ le_rfl]
    exact hgt.next

theorem zero_not_mem_identifier (hname : isIdentifier name = true) : (0 : UInt8) ∉ name := by
  intro hz
  cases name with
  | nil => cases hz
  | cons c cs =>
    simp only [isIdentifier, Bool.and_eq_true, List.all_eq_true] at hname
    rcases List.mem_cons.mp hz with rfl | hz
    · exact absurd hname.1 (by decide)
    · exact absurd (hname.2 0 hz) (by decide)

/-- The names of a start tag and of its end tag agree. -/
theorem sameName_eq {t e : Tag} {q : List UInt8} (hname : isIdentifier name = true)
    (ht : t.name = tok (name ++ s)) (hs : Lexes name s .ident)
    (he : e.name = tok (name ++ q)) (hq : Lexes name q .ident) : sameName t e = true := by
  rw [sameName, ht, he, hq.chars, rest_tok, len_tok, len_tok, hs.len, hq.len, decide_eq_true rfl,
    Bool.true_and, strcmpEq_val (zero_not_mem_identifier hname), List.drop_zero]
  exact List.prefix_append _ _

/-- The name is recognised, and no other one. -/
theorem hasChars_iff (hname : isIdentifier name = true) (hs : Lexes name s .ident)
    (q : List UInt8) : hasChars q (tok (name ++ s)) = true ↔ q = name := by
  rw [hasChars, hs.chars, len_tok, hs.len, Bool.and_eq_true, decide_eq_true_eq,
    strcmpEq_val (zero_not_mem_identifier hname), List.drop_zero]
  constructor
  · rintro ⟨hlen, hpre⟩
    exact (hpre.eq_of_length hlen.symm).symm
  · rintro rfl
    exact ⟨rfl, List.prefix_rfl⟩

end Tags

end Genode.Util.Xml
