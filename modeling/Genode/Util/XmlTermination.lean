import Genode.Util.XmlLoops

/-!
# XmlTermination — where the XML parser ends

A buffer with a token of 2^32 or more characters stops the tokenizer from
ending. In all other buffers every function of the parser returns: what a
token has left never grows, and each round of a loop goes on behind a
token that is not empty.
-/

namespace Genode.Util.Xml.Looped

open Lib Ascii Looping Util.Looped

/-- Everywhere in the buffer, the token takes less than 2^32 rounds to scan. -/
def Fits (buffer : List UInt8) : Prop := ∀ s, s <:+ buffer → Short xmlIdentifier s

/-- The token is within the buffer and has less than `n` characters left. -/
structure Below (buffer : List UInt8) (n : Nat) (t : Token) : Prop extends InBuffer buffer t where
  lt : left t < n

section Tokens

variable {buffer s : List UInt8} {n m : Nat} {t : Token} {c : UInt8}

theorem Below.le (h : Below buffer n t) (hle : n ≤ m) : Below buffer m t :=
  ⟨h.toInBuffer, h.lt.trans_le hle⟩

theorem len_pos_of_char (hc : c ≠ 0) (h : char t 0 = c) : 0 < t.len := by
  apply Nat.pos_of_ne_zero
  intro h₀
  have hz : char t 0 = 0 := by
    unfold char Token.at'
    cases t.start with
    | none => rfl
    | some s => simp [h₀]
  exact hc (h.symm.trans hz)

theorem len_pos_of_valid (h : t.valid = true) : 0 < t.len := by
  simp only [Token.valid, Bool.and_eq_true] at h
  exact Nat.pos_of_ne_zero (of_decide_eq_true h.2)

theorem len_pos_of_matches {pattern : List UInt8} (h : (t.matches' pattern).val = true) :
    0 < t.len := by
  apply len_pos_of_valid
  cases hv : t.valid with
  | true => rfl
  | false =>
    have hm : (t.matches' pattern).val = false := by
      unfold Token.matches'
      cases t.start with
      | none => rfl
      | some s => simp [hv]
    exact hm.symm.trans h

variable (hb : Fits buffer)
include hb

theorem token_below (hs : s <:+ buffer) : (token s).Gives (Below buffer (s.length + 1)) := by
  apply (token_gives lawful_xmlIdentifier hb hs).mono
  exact fun t h => ⟨h.1, Nat.lt_succ_of_le (Nat.le_of_eq h.2)⟩

theorem typeOf_pos (ht : InBuffer buffer t) :
    (typeOf t).Gives fun ty => ty ≠ .end' → 0 < t.len := typeOf_gives hb ht

theorem next_below (ht : Below buffer n t) : (next t).Gives (Below buffer n) := by
  apply (next_gives lawful_xmlIdentifier hb ht.toInBuffer).mono
  exact fun t' h => ⟨h.1, (Nat.le.intro h.2).trans_lt ht.lt⟩

/-- Behind a token that is not empty there is less left. -/
theorem next_forward (ht : InBuffer buffer t) (hlen : 0 < t.len) :
    (next t).Gives (Below buffer (left t)) := by
  apply (next_gives lawful_xmlIdentifier hb ht).mono
  exact fun t' h => ⟨h.1, by omega⟩

theorem eatWhitespace_below (ht : Below buffer n t) :
    (eatWhitespace t).Gives (Below buffer n) := by
  apply (eatWhitespace_gives lawful_xmlIdentifier hb ht.toInBuffer).mono
  exact fun t' h => ⟨h.1, h.2.trans_lt ht.lt⟩

theorem nextAfter_below (ht : Below buffer n t) :
    (nextAfter t commentEnd).Gives (Below buffer n) := by
  apply (nextAfter_gives lawful_xmlIdentifier hb (by decide) ht.toInBuffer).mono
  exact fun t' h => ⟨h.1, h.2.trans_lt ht.lt⟩

end Tokens

/-! ## Attributes and tags -/

/-- The tokens of an attribute come one after the other. -/
structure AttributeBelow (buffer : List UInt8) (n : Nat) (a : XmlAttribute) : Prop where
  name : Below buffer n a.name
  value : Below buffer (left a.name + 1) a.value

section Tags

variable {buffer s : List UInt8} {n : Nat} {t start name : Token} {a : XmlAttribute} {tag : Tag}

variable (hb : Fits buffer)
include hb

theorem tokens_below (ht : Below buffer n t) :
    (XmlAttribute.tokens t).Gives (AttributeBelow buffer n) := by
  unfold XmlAttribute.tokens
  apply (eatWhitespace_below hb ht).bind
  intro name hname
  have hself : Below buffer (left name + 1) name := ⟨hname.toInBuffer, Nat.lt_succ_self _⟩
  apply (next_below hb hself).bind
  intro t₁ h₁
  apply (eatWhitespace_below hb h₁).bind
  intro equals hequals
  apply (next_below hb hequals).bind
  intro t₂ h₂
  apply (eatWhitespace_below hb h₂).bind
  intro value hvalue
  rw [gives_pure]
  exact ⟨hname, hvalue⟩

/-- The value of a valid attribute is not empty. -/
theorem valid_pos (ha : AttributeBelow buffer n a) :
    (XmlAttribute.valid a).Gives fun b => b = true → 0 < a.value.len := by
  unfold XmlAttribute.valid
  apply (typeOf_pos hb ha.name.toInBuffer).bind
  intro ty _
  split
  · apply (typeOf_pos hb ha.value.toInBuffer).bind
    intro ty hty
    rw [gives_pure]
    intro h
    apply hty
    rw [of_decide_eq_true h]
    nofun
  · rw [gives_pure]
    nofun

theorem validAt_forward (ht : Below buffer n t) : (XmlAttribute.validAt t).Forward := by
  apply Gives.bind (tokens_below hb ht)
  exact fun a ha => (valid_pos hb ha).forward

/-- Behind a valid attribute there is less left than at its name. -/
theorem nextToken_forward (ha : AttributeBelow buffer n a) (hlen : 0 < a.value.len) :
    (XmlAttribute.nextToken a).Gives (Below buffer (left a.name)) := by
  apply (next_forward hb ha.value.toInBuffer hlen).mono
  exact fun t ht => ht.le (Nat.le_of_lt_succ ha.value.lt)

theorem attribute_below (ht : Below buffer n t) :
    (XmlAttribute.construct t).Gives fun r => ∀ a, r = .ok a →
      AttributeBelow buffer n a ∧ 0 < a.value.len := by
  unfold XmlAttribute.construct
  apply (tokens_below hb ht).bind
  intro a ha
  apply (typeOf_pos hb ha.name.toInBuffer).bind
  intro ty _
  split
  · rw [gives_pure]
    nofun
  · apply (valid_pos hb ha).bind
    intro b hpos
    cases b with
    | false =>
      show (pure (.error .invalidSyntax) : Looping (Except XmlError XmlAttribute)).Gives _
      rw [gives_pure]
      nofun
    | true =>
      show (pure (.ok a) : Looping (Except XmlError XmlAttribute)).Gives _
      rw [gives_pure]
      intro a' h
      cases h
      exact ⟨ha, hpos rfl⟩

theorem skipAttributes_below (ht : Below buffer n t) (closing : Bool) :
    (Tag.skipAttributes closing t).Gives (Below buffer n) := by
  unfold Tag.skipAttributes
  split
  · rw [gives_pure]
    exact ht
  apply loop_gives (I := Below buffer n) _ ht
  intro t ht
  unfold Tag.skipBody
  have hself : Below buffer (left t + 1) t := ⟨ht.toInBuffer, Nat.lt_succ_self _⟩
  apply (tokens_below hb hself).bind
  intro a ha
  apply (valid_pos hb ha).bind
  intro b hpos
  cases b with
  | false =>
    show (pure (.inr t) : Looping (Token ⊕ Token)).Gives _
    rw [gives_pure]
    exact ht
  | true =>
    apply (nextToken_forward hb ha (hpos rfl)).bind
    intro t' ht'
    rw [gives_pure]
    have hlt : left t' < left t := ht'.lt.trans_le (Nat.le_of_lt_succ ha.name.lt)
    exact ⟨⟨ht'.toInBuffer, hlt.trans ht.lt⟩, hlt⟩

theorem nameFrom_below (ht : Below buffer n t) (closing : Bool) :
    (Tag.nameFrom closing t).Gives (Below buffer n) := by
  unfold Tag.nameFrom
  split
  · exact next_below hb ht
  · rw [gives_pure]
    exact ht

theorem constructFrom_gives (hname : Below buffer n name) (closing : Bool) :
    (Tag.constructFrom start name closing).Gives fun tag =>
      tag.token = start ∧ tag.name = name := by
  unfold Tag.constructFrom
  apply (next_below hb hname).bind
  intro d₁ h₁
  apply (skipAttributes_below hb h₁ closing).bind
  intro d₂ h₂
  apply (eatWhitespace_below hb h₂).bind
  intro d₃ h₃
  have hpure : ∀ type, (pure ⟨start, name, type⟩ : Looping Tag).Gives fun tag =>
      tag.token = start ∧ tag.name = name := fun _ => gives_pure.mpr ⟨rfl, rfl⟩
  split
  · split
    · exact hpure _
    · apply (next_below hb h₃).bind
      intro d₄ _
      split
      · exact hpure _
      · exact hpure _
  · split
    · exact hpure _
    · exact hpure _

/-- The name of a tag comes behind the start of the tag. -/
theorem tag_gives (ht : InBuffer buffer start) :
    (Tag.construct start).Gives fun tag =>
      tag.token = start ∧ (tag.type ≠ .invalid → Below buffer (left start) tag.name) := by
  have hpure : ∀ name, (pure ⟨start, name, .invalid⟩ : Looping Tag).Gives fun tag =>
      tag.token = start ∧ (tag.type ≠ .invalid → Below buffer (left start) tag.name) :=
    fun _ => gives_pure.mpr ⟨rfl, fun h => (h rfl).elim⟩
  unfold Tag.construct
  split
  · exact hpure _
  · rename_i hc
    apply (next_forward hb ht (len_pos_of_char (by decide) (not_not.mp hc))).bind
    intro second hsecond
    apply (typeOf_pos hb hsecond.toInBuffer).bind
    intro ty _
    split
    · exact hpure _
    · apply (nameFrom_below hb hsecond _).bind
      intro name hname
      apply (typeOf_pos hb hname.toInBuffer).bind
      intro ty _
      split
      · exact hpure _
      · apply (constructFrom_gives hb hname _).mono
        intro tag h
        exact ⟨h.1, fun _ => h.2 ▸ hname⟩

theorem tagNextToken_below (h : Below buffer n tag.name) :
    (Tag.nextToken tag).Gives (Below buffer n) := by
  have hloop : (loop left Tag.delimiterBody tag.name).Gives (Below buffer n) := by
    apply loop_gives (I := Below buffer n) _ h
    intro t ht
    unfold Tag.delimiterBody
    split
    · rename_i hgo
      apply (next_forward hb ht.toInBuffer (len_pos_of_valid hgo.1)).bind
      intro t' ht'
      rw [gives_pure]
      exact ⟨ht'.le (Nat.le_of_lt ht.lt), ht'.lt⟩
    · rw [gives_pure]
      exact ht
  exact hloop.bind fun t ht => next_below hb ht

/-- Behind a comment there is less left. -/
theorem comment_gives (ht : InBuffer buffer t) :
    (Comment.construct t).Gives fun c =>
      c.valid = true → Below buffer (left t) c.next := by
  unfold Comment.construct
  split
  · rw [gives_pure]
    nofun
  · rename_i hm
    apply (next_forward hb ht (len_pos_of_matches (by simpa using hm))).bind
    intro t₁ h₁
    apply (next_below hb h₁).bind
    intro t₂ h₂
    apply (next_below hb h₂).bind
    intro t₃ h₃
    apply (next_below hb h₃).bind
    intro t₄ h₄
    apply (nextAfter_below hb h₄).bind
    intro t₅ h₅
    rw [gives_pure]
    exact fun _ => h₅

/-- The end tag is a tag behind the same place as the start tag. -/
theorem searchEndTag_gives (h : tag.type ≠ .invalid → Below buffer n tag.name) :
    (searchEndTag tag).Gives fun found =>
      (tag.type ≠ .start → found.1 = tag) ∧
        (found.1.type ≠ .invalid → Below buffer n found.1.name) := by
  unfold searchEndTag
  split
  · rw [gives_pure]
    exact ⟨fun _ => rfl, h⟩
  · rename_i hstart
    have hstart : tag.type = .start := not_not.mp hstart
    have hnull : (Tag.null.type ≠ .invalid → Below buffer n Tag.null.name) :=
      fun hne => (hne rfl).elim
    apply (tagNextToken_below hb (h (by rw [hstart]; nofun))).bind
    intro curr hcurr
    apply loop_gives (I := fun st => Below buffer n st.curr) _ hcurr
    intro st hst
    unfold searchBody
    apply (typeOf_pos hb hst.toInBuffer).bind
    intro ty hlen
    split
    · rw [gives_pure]
      exact ⟨fun hne => (hne hstart).elim, hnull⟩
    · rename_i hty
      apply (comment_gives hb hst.toInBuffer).bind
      intro comment hcomment
      split
      · rename_i hvalid
        have hnext := hcomment hvalid
        rw [gives_pure]
        exact ⟨hnext.le (Nat.le_of_lt hst.lt), hnext.lt⟩
      · apply (tag_gives hb hst.toInBuffer).bind
        intro curr hcurr
        split
        · apply (next_forward hb hst.toInBuffer (hlen hty)).bind
          intro t' ht'
          rw [gives_pure]
          exact ⟨ht'.le (Nat.le_of_lt hst.lt), ht'.lt⟩
        · rename_i hinv
          have hname := hcurr.2 hinv
          unfold searchTag
          split
          · apply (tagNextToken_below hb hname).bind
            intro t' ht'
            rw [gives_pure]
            exact ⟨ht'.le (Nat.le_of_lt hst.lt), ht'.lt⟩
          · split
            · rw [gives_pure]
              exact ⟨fun hne => (hne hstart).elim, hnull⟩
            · rw [gives_pure]
              exact ⟨fun hne => (hne hstart).elim, fun _ => hname.le (Nat.le_of_lt hst.lt)⟩

theorem skipNonTagCharacters_below (ht : Below buffer n t) :
    (skipNonTagCharacters t).Gives (Below buffer n) := by
  apply loop_gives (I := Below buffer n) _ ht
  intro t ht
  unfold skipBody
  have hself : Below buffer (left t + 1) t := ⟨ht.toInBuffer, Nat.lt_succ_self _⟩
  apply (eatWhitespace_below hb hself).bind
  intro t₁ h₁
  have hle : left t₁ ≤ left t := Nat.le_of_lt_succ h₁.lt
  apply (comment_gives hb h₁.toInBuffer).bind
  intro comment hcomment
  split
  · rename_i hvalid
    have hnext := (hcomment hvalid).le hle
    rw [gives_pure]
    exact ⟨hnext.le (Nat.le_of_lt ht.lt), hnext.lt⟩
  · apply (tag_gives hb h₁.toInBuffer).bind
    intro tag htag
    split
    · rename_i hgo
      have hlen := len_pos_of_valid (htag.1 ▸ hgo.2)
      apply (next_forward hb h₁.toInBuffer hlen).bind
      intro t' ht'
      have ht' := ht'.le hle
      rw [gives_pure]
      exact ⟨ht'.le (Nat.le_of_lt ht.lt), ht'.lt⟩
    · rw [gives_pure]
      exact ⟨h₁.toInBuffer, hle.trans_lt ht.lt⟩

end Tags

/-! ## Nodes -/

/-- The names of the tags of a valid node come behind its start. -/
structure TagsBelow (buffer : List UInt8) (n : Nat) (tags : Tags) : Prop where
  start : Below buffer n tags.start.name
  endTag : Below buffer n tags.endTag.name

/-- A node within the buffer, at whose start less than `n` characters are left. -/
structure NodeBelow (buffer : List UInt8) (n : Nat) (node : XmlNode) : Prop where
  addr : node.addr <:+ buffer
  lt : node.addr.length < n
  tags : TagsBelow buffer node.addr.length node.tags

section Nodes

variable {buffer s : List UInt8} {n m : Nat} {node : XmlNode} {type : Option (List UInt8)}

theorem NodeBelow.le (h : NodeBelow buffer n node) (hle : n ≤ m) : NodeBelow buffer m node :=
  ⟨h.addr, h.lt.trans_le hle, h.tags⟩

variable (hb : Fits buffer)
include hb

theorem tags_gives (hs : s <:+ buffer) :
    (Tags.construct s).Gives fun tags =>
      tags.valid = true → TagsBelow buffer s.length tags := by
  unfold Tags.construct
  apply (token_below hb hs).bind
  intro t₁ h₁
  apply (skipNonTagCharacters_below hb h₁).bind
  intro t₂ h₂
  apply (tag_gives hb h₂.toInBuffer).bind
  intro start hstart
  have hname : start.type ≠ .invalid → Below buffer s.length start.name :=
    fun h => (hstart.2 h).le (Nat.le_of_lt_succ h₂.lt)
  apply (searchEndTag_gives hb hname).bind
  intro found hfound
  rw [gives_pure]
  intro hvalid
  simp only [Tags.valid, Bool.or_eq_true, Bool.and_eq_true, decide_eq_true_eq] at hvalid
  rcases hvalid with hempty | ⟨hopen, hend⟩
  · have hsame : found.1 = start := hfound.1 (by rw [hempty]; nofun)
    have hbelow := hname (by rw [hempty]; nofun)
    exact ⟨hbelow, hsame ▸ hbelow⟩
  · exact ⟨hname (by rw [hopen]; nofun), hfound.2 (by rw [hend]; nofun)⟩

/-- What the constructor returns is a node at this place. -/
theorem construct_gives (hs : s <:+ buffer) :
    (XmlNode.construct s).Gives fun r => ∀ node, r = .ok node →
      NodeBelow buffer (s.length + 1) node := by
  unfold XmlNode.construct
  apply (tags_gives hb hs).bind
  intro tags htags
  cases hv : tags.valid with
  | false =>
    show (pure (.error .invalidSyntax) : Looping (Except XmlError XmlNode)).Gives _
    rw [gives_pure]
    intro m h
    cases h
  | true =>
    show (pure (.ok ⟨s, tags⟩) : Looping (Except XmlError XmlNode)).Gives _
    rw [gives_pure]
    intro node h
    cases h
    exact ⟨hs, Nat.lt_succ_self _, htags hv⟩

theorem validNodeAt_gives {at' : Option (List UInt8)} (hat : ∀ s, at' = some s → s <:+ buffer) :
    (XmlNode.validNodeAt node at').Gives fun b => b = true → at' ≠ none := by
  cases at' with
  | none =>
    show (pure false : Looping Bool).Gives _
    rw [gives_pure]
    nofun
  | some s =>
    show (if _ then _ else _ : Looping Bool).Gives _
    split
    · apply (tags_gives hb (hat s rfl)).bind
      intro tags _
      rw [gives_pure]
      nofun
    · rw [gives_pure]
      nofun

/-- A node that is returned is the one at the given place. -/
theorem nodeAt_gives {at' : Option (List UInt8)} (hat : ∀ s, at' = some s → s <:+ buffer)
    (hlt : ∀ s, at' = some s → s.length < n) :
    (XmlNode.nodeAt node at').Gives fun r => ∀ m, r = .ok m → NodeBelow buffer n m := by
  unfold XmlNode.nodeAt
  apply (validNodeAt_gives hb hat).bind
  intro b hsome
  cases b with
  | false =>
    show (pure (.error .nonexistentSubNode) : Looping (Except XmlError XmlNode)).Gives _
    rw [gives_pure]
    intro m h
    cases h
  | true =>
    obtain ⟨s, rfl⟩ := Option.ne_none_iff_exists'.mp (hsome rfl)
    apply (construct_gives hb (hat s rfl)).mono
    exact fun r h m hm => (h m hm).le (hlt s rfl)

theorem nodeAt_below {t : Token} (ht : Below buffer n t) :
    (XmlNode.nodeAt node t.start).Gives fun r => ∀ m, r = .ok m → NodeBelow buffer n m := by
  apply nodeAt_gives hb ht.start
  intro s hs
  have hleft : left t = s.length := by rw [left, hs, Option.getD_some]
  exact hleft ▸ ht.lt

variable (hn : NodeBelow buffer n node)
include hn

theorem after_below : (XmlNode.after node).Gives (Below buffer node.addr.length) :=
  (tagNextToken_below hb hn.tags.endTag).bind fun _ ht => skipNonTagCharacters_below hb ht

theorem contentBase_gives : (XmlNode.contentBase node).Gives fun base => ∃ t,
    base = Token.start t ∧ Below buffer node.addr.length t := by
  apply (tagNextToken_below hb hn.tags.start).bind
  intro t ht
  rw [gives_pure]
  exact ⟨t, rfl, ht⟩

/-- The next node starts behind this one. -/
theorem next_node_gives :
    (XmlNode.next node).Gives fun r => ∀ m, r = .ok m → NodeBelow buffer node.addr.length m := by
  unfold XmlNode.next
  apply (after_below hb hn).bind
  intro t ht
  apply (nodeAt_below hb ht).bind
  intro r hr
  rw [gives_pure]
  intro m hm
  cases r with
  | ok m' => exact hr m hm
  | error e => cases e <;> cases hm

theorem onward_gives {α : Type} {P : Except XmlError α → Prop} (hP : ∀ e, P (.error e)) :
    (XmlNode.onward node).Gives
      (Sum.elim (fun m => NodeBelow buffer n m ∧ m.addr.length < node.addr.length) P) := by
  unfold XmlNode.onward
  apply (next_node_gives hb hn).bind
  intro r hr
  cases r with
  | ok m =>
    have hm := hr m rfl
    show (pure (.inl m) : Looping (XmlNode ⊕ Except XmlError α)).Gives _
    rw [gives_pure]
    exact ⟨hm.le (Nat.le_of_lt hn.lt), hm.lt⟩
  | error e =>
    show (pure (.inr (.error e)) : Looping (XmlNode ⊕ Except XmlError α)).Gives _
    rw [gives_pure]
    exact hP e

omit hn in
theorem find_gives {first : Except XmlError XmlNode}
    (hfirst : ∀ m, first = .ok m → NodeBelow buffer n m) :
    (XmlNode.find type first).Gives fun r => ∀ m, r = .ok m → NodeBelow buffer n m := by
  cases first with
  | error e =>
    show (pure (.error e) : Looping (Except XmlError XmlNode)).Gives _
    rw [gives_pure]
    intro m h
    cases h
  | ok node =>
    apply loop_gives (I := NodeBelow buffer n) _ (hfirst node rfl)
    intro node hn
    unfold XmlNode.findBody
    split
    · rw [gives_pure]
      intro m h
      cases h
      exact hn
    · apply onward_gives hb hn
      intro e m h
      cases h

theorem nextOf_forward : (XmlNode.nextOf node type).Forward := by
  apply Gives.bind (next_node_gives hb hn)
  exact fun r hr => (find_gives hb hr).forward

theorem last_forward : (XmlNode.last node type).Forward := by
  apply Gives.bind (after_below hb hn)
  intro t ht
  apply loop_gives (I := Below buffer node.addr.length) _ ht
  intro t ht
  have hself : Below buffer (left t + 1) t := ⟨ht.toInBuffer, Nat.lt_succ_self _⟩
  unfold XmlNode.lastBody
  apply (validNodeAt_gives hb ht.start).bind
  intro b _
  cases b with
  | false =>
    show (pure (.inr (.ok true)) : Looping (Token ⊕ Except XmlError Bool)).Gives _
    rw [gives_pure]
    trivial
  | true =>
    apply (nodeAt_below hb hself).bind
    intro r hr
    cases r with
    | error e =>
      show (pure (.inr (.error e)) : Looping (Token ⊕ Except XmlError Bool)).Gives _
      rw [gives_pure]
      trivial
    | ok other =>
      have hother := hr other rfl
      show (if _ then _ else _ : Looping (Token ⊕ Except XmlError Bool)).Gives _
      split
      · rw [gives_pure]
        trivial
      · apply (after_below hb hother).bind
        intro t' ht'
        rw [gives_pure]
        have hlt : left t' < left t := ht'.lt.trans_le (Nat.le_of_lt_succ hother.lt)
        exact ⟨⟨ht'.toInBuffer, hlt.trans ht.lt⟩, hlt⟩

theorem subNodeOf_gives :
    (XmlNode.subNodeOf node type).Gives fun r => ∀ m, r = .ok m → NodeBelow buffer n m := by
  unfold XmlNode.subNodeOf
  split
  · apply (contentBase_gives hb hn).bind
    intro base hbase
    obtain ⟨t, rfl, ht⟩ := hbase
    apply (nodeAt_below hb (ht.le (Nat.le_of_lt hn.lt))).bind
    intro first hfirst
    apply (find_gives hb hfirst).bind
    intro r hr
    rw [gives_pure]
    intro m hm
    cases r with
    | ok m' => exact hr m hm
    | error e => cases hm
  · rw [gives_pure]
    intro m h
    cases h

omit hn in
theorem hasLoop_forward {type : List UInt8} (hn : NodeBelow buffer n node) :
    (loop (fun node => node.addr.length) (XmlNode.hasBody type) node).Forward := by
  apply loop_gives (I := NodeBelow buffer n) _ hn
  intro node hn
  unfold XmlNode.hasBody
  split
  · rw [gives_pure]
    trivial
  · apply Gives.bind (last_forward hb hn)
    intro r _
    cases r with
    | error e =>
      show (pure (.inr (.error e)) : Looping (XmlNode ⊕ Except XmlError Bool)).Gives _
      rw [gives_pure]
      trivial
    | ok b =>
      cases b with
      | true =>
        show (pure (.inr (.ok false)) : Looping (XmlNode ⊕ Except XmlError Bool)).Gives _
        rw [gives_pure]
        trivial
      | false => exact onward_gives hb hn fun _ => trivial

theorem hasSubNode_forward : (XmlNode.hasSubNode node type).Forward := by
  unfold XmlNode.hasSubNode
  split
  · exact gives_pure.mpr trivial
  · apply Gives.bind (contentBase_gives hb hn)
    intro base hbase
    obtain ⟨t, rfl, ht⟩ := hbase
    apply (validNodeAt_gives hb ht.start).bind
    intro b _
    cases b with
    | false => exact gives_pure.mpr trivial
    | true =>
      cases type with
      | none => exact gives_pure.mpr trivial
      | some type =>
        apply (contentBase_gives hb hn).bind
        intro base hbase
        obtain ⟨t, rfl, ht⟩ := hbase
        apply (nodeAt_below hb ht).bind
        intro r hr
        cases r with
        | error e => exact gives_pure.mpr trivial
        | ok first => exact hasLoop_forward hb (hr first rfl)

omit hn in
theorem forEachLoop_forward (hn : NodeBelow buffer n node) (hits : List XmlNode) :
    (loop (fun st => st.1.addr.length) (XmlNode.forEachBody type) (node, hits)).Forward := by
  apply loop_gives (I := fun st => NodeBelow buffer n st.1) _ hn
  intro st hst
  unfold XmlNode.forEachBody
  apply Gives.bind (last_forward hb hst)
  intro r _
  cases r with
  | error e => exact gives_pure.mpr trivial
  | ok b =>
    cases b with
    | true => exact gives_pure.mpr trivial
    | false =>
      apply (next_node_gives hb hst).bind
      intro r hr
      cases r with
      | error e => exact gives_pure.mpr trivial
      | ok m =>
        have hm := hr m rfl
        exact gives_pure.mpr ⟨hm.le (Nat.le_of_lt hst.lt), hm.lt⟩

theorem forEachSubNode_forward : (XmlNode.forEachSubNode node type).Forward := by
  apply Gives.bind (hasSubNode_forward hb hn)
  intro r _
  cases r with
  | error e => exact gives_pure.mpr trivial
  | ok b =>
    cases b with
    | false => exact gives_pure.mpr trivial
    | true =>
      apply (subNodeOf_gives hb hn).bind
      intro r hr
      cases r with
      | error e => exact gives_pure.mpr trivial
      | ok first => exact forEachLoop_forward hb (hr first rfl) []

end Nodes

section Attributes

variable {buffer : List UInt8} {n : Nat} {tag : Tag} {a : XmlAttribute} {node : XmlNode}

variable (hb : Fits buffer)
include hb

theorem firstAttribute_gives (ht : Below buffer n tag.name) :
    (Tag.attribute' tag).Gives fun r => ∀ a, r = .ok a →
      AttributeBelow buffer n a ∧ 0 < a.value.len := by
  apply Gives.bind (next_below hb ht)
  exact fun t ht => attribute_below hb ht

/-- One round of the iterations over the attributes of a tag. -/
theorem nextAttribute_gives
    (ha : AttributeBelow buffer n a ∧ 0 < a.value.len) :
    (XmlAttribute.nextToken a).Gives fun t => (XmlAttribute.validAt t).Forward ∧
      (XmlAttribute.construct t).Gives fun r => ∀ a', r = .ok a' →
        (AttributeBelow buffer n a' ∧ 0 < a'.value.len) ∧ left a'.name < left a.name := by
  apply (nextToken_forward hb ha.1 ha.2).mono
  intro t ht
  refine ⟨validAt_forward hb ht, ?_⟩
  apply (attribute_below hb ht).mono
  intro r hr a' h
  obtain ⟨ha', hlen⟩ := hr a' h
  exact ⟨⟨⟨ha'.name.le (Nat.le_of_lt ha.1.name.lt), ha'.value⟩, hlen⟩, ha'.name.lt⟩

theorem attribute_forward {type : List UInt8} (hn : NodeBelow buffer n node) :
    (XmlNode.attribute' node type).Forward := by
  apply Gives.bind (firstAttribute_gives hb hn.tags.start)
  intro r hr
  cases r with
  | error e => exact gives_pure.mpr trivial
  | ok a =>
    apply loop_gives (I := fun a =>
      AttributeBelow buffer node.addr.length a ∧ 0 < a.value.len) _ (hr a rfl)
    intro a ha
    unfold XmlNode.attributeBody
    split
    · exact gives_pure.mpr trivial
    · apply (nextAttribute_gives hb ha).bind
      intro t ht
      apply ht.2.bind
      intro r hr
      cases r with
      | error e => exact gives_pure.mpr trivial
      | ok a' => exact gives_pure.mpr (hr a' rfl)

theorem forEachAttribute_forward (hn : NodeBelow buffer n node) :
    (XmlNode.forEachAttribute node).Forward := by
  have hnext := next_below hb hn.tags.start
  apply Gives.bind (hnext.bind fun _ ht => validAt_forward hb ht)
  intro b _
  cases b with
  | false => exact gives_pure.mpr trivial
  | true =>
    apply (firstAttribute_gives hb hn.tags.start).bind
    intro r hr
    cases r with
    | error e => exact gives_pure.mpr trivial
    | ok a =>
      apply loop_gives (I := fun st =>
        AttributeBelow buffer node.addr.length st.1 ∧ 0 < st.1.value.len) _ (hr a rfl)
      intro st ha
      unfold XmlNode.forEachAttributeBody
      apply (nextAttribute_gives hb ha).bind
      intro t ht
      apply Gives.bind ht.1
      intro b _
      cases b with
      | false => exact gives_pure.mpr trivial
      | true =>
        apply ht.2.bind
        intro r hr
        cases r with
        | error e => exact gives_pure.mpr trivial
        | ok a' => exact gives_pure.mpr (hr a' rfl)

end Attributes

/-! ## Buffers in which the parser always ends -/

/-- The traversals of a node end, and each round of their loops moves forward. -/
structure Traversable (node : XmlNode) : Prop where
  next : ∀ type, (XmlNode.nextOf node type).Forward
  last : ∀ type, (XmlNode.last node type).Forward
  forEachSubNode : ∀ type, (XmlNode.forEachSubNode node type).Forward
  forEachAttribute : (XmlNode.forEachAttribute node).Forward
  attribute' : ∀ type, (XmlNode.attribute' node type).Forward

/-- Wherever in the buffer a node is constructed, the constructor ends, and so do
the traversals of the node; each round of a loop moves forward. -/
def Terminates (buffer : List UInt8) : Prop :=
  ∀ s, s <:+ buffer →
    (XmlNode.construct s).Gives fun r => ∀ node, r = .ok node → Traversable node

theorem terminates_of_fits {buffer : List UInt8} (hb : Fits buffer) : Terminates buffer := by
  intro s hs
  apply (construct_gives hb hs).mono
  intro r hr node h
  have hn := hr node h
  exact ⟨fun _ => nextOf_forward hb hn, fun _ => last_forward hb hn,
    fun _ => forEachSubNode_forward hb hn, forEachAttribute_forward hb hn,
    fun _ => attribute_forward hb hn⟩

theorem token_ends_of_construct {s : List UInt8} (h : (XmlNode.construct s).Ends) :
    (token s).Ends := Ends.of_bind (Ends.of_bind h)

/-- For every buffer: the parser ends wherever it is put in, with each round of
its loops moving forward, exactly if no token of the buffer takes 2^32 rounds to
scan. -/
theorem terminates_iff (buffer : List UInt8) : Terminates buffer ↔ Fits buffer := by
  constructor
  · intro h s hs
    exact short_of_ends (token_ends_of_construct (h s hs).ends)
  · exact terminates_of_fits

/-- The constructor does not end on a text that begins with as many blanks. -/
theorem construct_endless {n : Nat} (hn : 2 ^ 32 ≤ n) :
    ¬ (XmlNode.construct (List.replicate n 0x20)).Ends := by
  intro h
  have hlt := (short_of_ends (token_ends_of_construct h)).whitespace
  rw [List.takeWhile_replicate, if_pos (by decide), List.length_replicate] at hlt
  omega

/-- The constructor does not end on 4 GiB of blanks. -/
theorem construct_blanks_endless :
    ¬ (XmlNode.construct (List.replicate (2 ^ 32) 0x20)).Ends := construct_endless le_rfl

end Genode.Util.Xml.Looped
