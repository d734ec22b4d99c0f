import Genode.Util.XmlTags

/-!
# XmlRoundTrip — the parser reads what the generator writes

A script stands for a tree of nodes. The text that the generator writes
for it is accepted by the parser, and the nodes that the parser finds are
those of the tree, with their names, attributes and contents.
-/

namespace Genode.Util.Xml

open Lib Ascii Nesting

/-! ## Trees -/

/-- A tree of XML nodes. A node has sub nodes or content, or neither. -/
inductive Tree where
  | node (name : List UInt8) (attributes : List (List UInt8 × List UInt8)) (subNodes : List Tree)
      (content : Option (List UInt8))

namespace Script

/-- The bytes appended to the current node. -/
def content : Script → Option (List UInt8)
  | .done => none
  | .attr _ _ rest => rest.content
  | .appendSanitized src rest => some (src ++ rest.content.getD [])
  | .node _ _ rest => rest.content

/-- The sub nodes of the current node. -/
def subNodes : Script → List Tree
  | .done => []
  | .attr _ _ rest => rest.subNodes
  | .appendSanitized _ rest => rest.subNodes
  | .node name body rest =>
    .node name body.attributes body.subNodes body.content :: rest.subNodes

/-- The node with a name and a functor. -/
def tree (name : List UInt8) (body : Script) : Tree :=
  .node name body.attributes body.subNodes body.content

/-- The names are identifiers, the values of attributes have no quotation mark,
and no node has both sub nodes and content. -/
def Ok : Script → Prop
  | .done => True
  | .attr name value rest => AttributeOk (name, value) ∧ rest.Ok
  | .appendSanitized _ rest => rest.subNodes = [] ∧ rest.Ok
  | .node name body rest =>
    rest.content = none ∧ isIdentifier name = true ∧ body.Ok ∧ rest.Ok

end Script

/-- What the interface of the node tells, over natural numbers, is the tree. -/
inductive Reads : XmlNode → Tree → Prop
  | mk {m : XmlNode} {name : List UInt8} {attributes : List (List UInt8 × List UInt8)}
      {subNodes : List Tree} {content : Option (List UInt8)} {visited : List XmlNode} :
      (∀ q, m.hasType q = true ↔ q = name) →
      m.forEachAttribute.map (fun a => (chars a.name, a.rawValue)) = attributes →
      m.numSubNodes = subNodes.length →
      m.forEachSubNode none = .ok visited →
      List.Forall₂ Reads visited subNodes →
      (∀ c, content = some c → ∀ n, c.length ≤ n → m.decodedContent n = c) →
      Reads m (.node name attributes subNodes content)

/-! ## Content -/

section Content

/-- A character is decoded as it was encoded. -/
theorem decodedCharacter_sanitized (c : UInt8) (r : List UInt8) :
    decodedCharacter (OutBuffer.sanitized c ++ r) = (c, (OutBuffer.sanitized c).length) := by
  unfold OutBuffer.sanitized
  split
  · rename_i h
    subst h
    rfl
  split
  · rename_i h
    subst h
    rfl
  split
  · rename_i h
    subst h
    rfl
  split
  · rename_i h
    subst h
    rfl
  split
  · rename_i h
    subst h
    rfl
  split
  · rename_i h
    subst h
    rfl
  · rename_i h _ _
    rw [decodedCharacter, if_pos]
    · rfl
    · exact h

theorem sanitized_ne_nil (c : UInt8) : OutBuffer.sanitized c ≠ [] := by
  unfold OutBuffer.sanitized
  repeat' split
  all_goals exact List.cons_ne_nil _ _

theorem decode_sanitizedText {src : List UInt8} {n : Nat} (hn : src.length ≤ n) :
    decode n (sanitizedText src) = src := by
  induction src generalizing n with
  | nil => cases n <;> rfl
  | cons c src ih =>
    cases n with
    | zero => cases hn
    | succ n =>
      have hcons : sanitizedText (c :: src) = OutBuffer.sanitized c ++ sanitizedText src := rfl
      obtain ⟨d, ds, hd⟩ := List.exists_cons_of_ne_nil
        (List.append_ne_nil_of_left_ne_nil (sanitized_ne_nil c) (sanitizedText src))
      rw [hcons, hd, decode, ← hd, decodedCharacter_sanitized, List.drop_left,
        ih (Nat.le_of_succ_le_succ hn)]

theorem plain_sanitized (c : UInt8) : Plain (OutBuffer.sanitized c) := by
  unfold OutBuffer.sanitized
  by_cases h₀ : c = 0x00
  · rw [if_pos h₀]
    unfold Plain
    decide +kernel
  by_cases h₁ : c = 0x3e
  · rw [if_neg h₀, if_pos h₁]
    unfold Plain
    decide +kernel
  by_cases h₂ : c = 0x3c
  · rw [if_neg h₀, if_neg h₁, if_pos h₂]
    unfold Plain
    decide +kernel
  by_cases h₃ : c = 0x26
  · rw [if_neg h₀, if_neg h₁, if_neg h₂, if_pos h₃]
    unfold Plain
    decide +kernel
  by_cases h₄ : c = 0x22
  · rw [if_neg h₀, if_neg h₁, if_neg h₂, if_neg h₃, if_pos h₄]
    unfold Plain
    decide +kernel
  rw [if_neg h₀, if_neg h₁, if_neg h₂, if_neg h₃, if_neg h₄]
  split
  · unfold Plain
    decide +kernel
  · intro d hd
    obtain rfl := List.mem_singleton.mp hd
    exact ⟨h₀, h₂, h₄⟩

/-- Sanitized content has no tags and no quotations. -/
theorem plain_sanitizedText (src : List UInt8) : Plain (sanitizedText src) := by
  intro d hd
  obtain ⟨c, -, hc⟩ := List.mem_flatMap.mp hd
  exact plain_sanitized c d hc

end Content

section Scripts

variable {s : Script} {i : Nat} {b : Bool}

theorem Script.Ok.unmixed (h : s.Ok) : s.subNodes = [] ∨ s.content = none := by
  induction s with
  | done => exact .inl rfl
  | attr name value rest ih => exact ih h.2
  | appendSanitized src rest ih => exact .inl h.1
  | node name body rest ihBody ihRest => exact .inr h.1

theorem Script.Ok.attributes (h : s.Ok) : ∀ a ∈ s.attributes, AttributeOk a := by
  induction s with
  | done =>
    intro a ha
    cases ha
  | attr name value rest ih =>
    intro a ha
    rcases List.mem_cons.mp ha with rfl | ha
    · exact h.1
    · exact ih h.2 a ha
  | appendSanitized src rest ih => exact ih h.2
  | node name body rest ihBody ihRest => exact ihRest h.2.2.2

/-- The start tag is closed before the content. -/
theorem contentText_false (s : Script) (i : Nat) :
    s.contentText i false = if s.hasContent then gt :: s.contentText i true else [] := by
  induction s with
  | done => rfl
  | attr name value rest ih => exact ih
  | appendSanitized src rest ih => rfl
  | node name body rest ihBody ihRest => rfl

theorem isIndented_of_no_content (h : s.hasContent = false) : s.isIndented b = b := by
  induction s with
  | done => rfl
  | attr name value rest ih => exact ih h
  | appendSanitized src rest ih => cases h
  | node name body rest ihBody ihRest => cases h

theorem isIndented_of_no_nodes (h : s.subNodes = []) : s.isIndented false = false := by
  induction s with
  | done => rfl
  | attr name value rest ih => exact ih h
  | appendSanitized src rest ih => exact ih h
  | node name body rest ihBody ihRest => cases h

theorem contentText_of_no_nodes (h : s.subNodes = []) :
    s.contentText i true = sanitizedText (s.content.getD []) := by
  induction s with
  | done => rfl
  | attr name value rest ih => exact ih h
  | appendSanitized src rest ih =>
    change [] ++ sanitizedText src ++ rest.contentText i true =
      sanitizedText (src ++ rest.content.getD [])
    rw [ih h, sanitizedText, sanitizedText, sanitizedText, List.flatMap_append, List.nil_append]
  | node name body rest ihBody ihRest => cases h

end Scripts

/-! ## Nodes -/

section Nodes

variable {s w x y r : List UInt8} {t e : Tag} {ts : List Tag}

theorem plain_indentation (k : Nat) : Plain (List.replicate k tab) := by
  intro c hc
  rw [List.eq_of_mem_replicate hc]
  decide

theorem plain_newline : Plain [newline] := by
  intro c hc
  rw [List.mem_singleton.mp hc]
  decide

/-- The tags of a text before which there is plain text. -/
theorem TagText.tags_append (h : TagText x t r) (hw : Plain w) :
    Xml.tags (w ++ x) = t :: Xml.tags r := by
  have hlt : charAt x 0 = lt := tag_char (by rw [h.tag]; exact h.type)
  cases x with
  | nil => cases hlt
  | cons c x =>
    obtain rfl : c = lt := hlt
    rw [tags_plain hw, h.tags]

/-- Plain text is skipped up to the tag. -/
theorem TagText.skip (h : TagText x t r) (hw : Plain w) :
    skipNonTagCharacters (tok (w ++ x)) = tok x := by
  obtain ⟨s', heq, -, htags, hor⟩ := skipNonTagCharacters_spec (w ++ x)
  rw [h.tags_append hw] at htags
  rcases hor with hlen | ⟨hc, ht⟩
  · rw [tags_of_len hlen] at htags
    cases htags
  · rw [tags_of_tag hc ht] at htags
    have htag : Tag.construct (tok s') = Tag.construct (tok x) := by
      rw [h.tag]
      exact (List.cons.inj htags).1
    have htok := congrArg Tag.token htag
    rw [tag_token, tag_token] at htok
    rw [heq, htok]

/-- The start tag is the first one. -/
theorem construct_of_tags (hs : tags s = t :: ts) : (Tags.construct s).start = t := by
  rcases construct_start s with ⟨-, hnil⟩ | ⟨ts', hcons⟩
  · rw [hs] at hnil
    cases hnil
  · rw [hs] at hcons
    exact (List.cons.inj hcons).1.symm

theorem construct_of_empty (hs : tags s = t :: ts) (ht : t.type = .empty) :
    Tags.construct s = ⟨0, t, t⟩ := by
  have hstart := construct_of_tags hs
  have hend : searchEndTag t = (t, 0) := by rw [searchEndTag, if_pos (by simp [ht])]
  change Tags.mk (searchEndTag (Tags.construct s).start).2 (Tags.construct s).start
    (searchEndTag (Tags.construct s).start).1 = _
  rw [hstart, hend]

/-- The end tag closes the level of the content. -/
theorem construct_of_close {content : List UInt8} {es : List Tag} (hs : tags s = t :: ts)
    (ht : t.type = .start) (hnext : t.nextToken = tok content)
    (hclose : close markOf 0 (tags content) = some (e, es)) (hname : sameName t e = true) :
    Tags.construct s = ⟨count markOf 0 (tags content), t, e⟩ := by
  have hstart := construct_of_tags hs
  have hend := searchEndTag_eq ht hnext
  have hendTag : endTagOf t (tags content) = e := by
    rw [endTagOf, hclose]
    exact if_pos hname
  rw [hendTag] at hend
  change Tags.mk (searchEndTag (Tags.construct s).start).2 (Tags.construct s).start
    (searchEndTag (Tags.construct s).start).1 = _
  rw [hstart, hend]

/-- The text of a node, up to the text behind it, with any plain text before. -/
structure NodeText (x y : List UInt8) (t : Tree) : Prop where
  tag : ∃ tag q, TagText x tag q
  valid : ∀ w, Plain w → (Tags.construct (w ++ x)).valid = true
  next : ∀ w, Plain w → (Tags.construct (w ++ x)).endTag.nextToken = tok y
  reads : ∀ w, Plain w → Reads (nodeOf (w ++ x)) t
  close_eq : close markOf 0 (tags x) = close markOf 0 (tags y)
  count_eq : count markOf 0 (tags x) = count markOf 0 (tags y) + 1
  suffix : y <:+ x

/-- Nodes one after the other, up to the end tag of their parent. -/
inductive Walk (e : Tag) (r : List UInt8) : List UInt8 → List Tree → Prop
  | stop {w x : List UInt8} : Plain w → TagText x e r → e.type = .end' → Walk e r (w ++ x) []
  | step {w x y : List UInt8} {t : Tree} {ts : List Tree} : Plain w → NodeText x y t →
      Walk e r y ts → Walk e r (w ++ x) (t :: ts)

variable {trees : List Tree}

/-- The end tag of the parent closes the level, and the nodes are counted. -/
theorem Walk.close_count (h : Walk e r s trees) :
    close markOf 0 (tags s) = some (e, tags r) ∧
      count markOf 0 (tags s) = trees.length := by
  induction h with
  | stop hw hx he =>
    rw [hx.tags_append hw]
    have hm := markOf_end he
    constructor
    · rw [close, hm]
      rfl
    · rw [count_closes hm]
      rfl
  | step hw hnode _ ih =>
    obtain ⟨tag, q, htag⟩ := hnode.tag
    rw [htag.tags_append hw, ← htag.tags, hnode.close_eq, hnode.count_eq, ih.2]
    exact ⟨ih.1, rfl⟩

/-- Plain text before the next node is skipped. -/
theorem Walk.skip (h : Walk e r s trees) :
    ∃ x, skipNonTagCharacters (tok s) = tok x ∧ x <:+ s ∧ Walk e r x trees := by
  cases h with
  | @stop w x hw hx he =>
    exact ⟨x, hx.skip hw, List.suffix_append _ _,
      Walk.stop (w := []) (fun _ hc => by cases hc) hx he⟩
  | @step w x y t ts hw hnode hrest =>
    obtain ⟨tag, q, htag⟩ := hnode.tag
    exact ⟨x, htag.skip hw, List.suffix_append _ _,
      Walk.step (w := []) (fun _ hc => by cases hc) hnode hrest⟩

theorem Walk.not_valid (h : Walk e r s []) : (Tags.construct s).valid = false := by
  cases h with
  | stop hw hx he =>
    by_contra hv
    apply valid_iff_level.mp (Bool.eq_true_of_not_eq_false hv)
    rw [level, hx.tags_append hw, siblings_closes (markOf_end he)]

theorem Walk.valid {t : Tree} (h : Walk e r s (t :: trees)) :
    (Tags.construct s).valid = true := by
  cases h with
  | step hw hnode _ => exact hnode.valid _ hw

/-- The iteration visits the nodes of the walk. -/
theorem Walk.forEachLoop {t : Tree} {n : Nat} (h : Walk e r s (t :: trees))
    (hn : trees.length < n) :
    ∃ visited, XmlNode.forEachLoop none n (nodeOf s) = .ok visited ∧
      List.Forall₂ Reads visited (t :: trees) := by
  induction n generalizing s t trees with
  | zero => cases hn
  | succ n ih =>
    cases h with
    | @step w x y _ _ hw hnode hrest =>
      obtain ⟨x', hskip, hsuf, hwalk⟩ := hrest.skip
      have hafter : (nodeOf (w ++ x)).after = tok x' := by
        rw [XmlNode.after, nodeOf, hnode.next w hw, hskip]
      have hs : x' <:+ w ++ x := (hsuf.trans hnode.suffix).trans (List.suffix_append _ _)
      rw [forEachLoop_succ hafter hs]
      cases trees with
      | nil =>
        rw [hwalk.not_valid]
        exact ⟨[nodeOf (w ++ x)], rfl, .cons (hnode.reads w hw) .nil⟩
      | cons t' trees =>
        rw [List.length_cons] at hn
        obtain ⟨visited, hloop, hall⟩ := ih hwalk (by omega)
        refine ⟨nodeOf (w ++ x) :: visited, ?_, .cons (hnode.reads w hw) hall⟩
        rw [hwalk.valid, hloop]
        rfl

/-- The iteration over the sub nodes of a node whose content is a walk. -/
theorem Walk.forEachSubNode {content : List UInt8} (h : Walk e r content trees)
    (hs : content <:+ s) (hnext : (Tags.construct s).start.nextToken = tok content)
    (hnum : (Tags.construct s).numSubNodes = trees.length) :
    ∃ visited, (nodeOf s).forEachSubNode none = .ok visited ∧
      List.Forall₂ Reads visited trees := by
  rw [forEachSubNode_eq hs hnext, hnum]
  cases trees with
  | nil => exact ⟨[], rfl, .nil⟩
  | cons t trees =>
    have hlen : trees.length < s.length := by
      have hcount := h.close_count.2
      have h₁ := count_le_length markOf 0 (tags content)
      have h₂ := tags_length_le content
      have h₃ := hs.length_le
      rw [List.length_cons] at hcount
      omega
    rw [h.valid, if_neg (by simp)]
    exact h.forEachLoop hlen

/-- The text of a node without its indentation. -/
def coreText (i : Nat) (name : List UInt8) (body : Script) : List UInt8 :=
  lt :: (name ++ (attributesText body.attributes ++ (body.contentText i false ++
    endText i name (body.isIndented false) body.hasContent)))

theorem nodeText_eq (i : Nat) (name : List UInt8) (body : Script) :
    nodeText i name body = List.replicate i tab ++ coreText i name body := by
  simp [nodeText, startText, coreText]

/-- The white space before an end tag. -/
def beforeEnd (i : Nat) (indented : Bool) : List UInt8 :=
  if indented then newline :: List.replicate i tab else []

theorem plain_beforeEnd (i : Nat) (indented : Bool) : Plain (beforeEnd i indented) := by
  unfold beforeEnd
  split
  · exact plain_newline.append (plain_indentation i)
  · intro c hc
    cases hc

theorem coreText_of_content {i : Nat} {name : List UInt8} {body : Script}
    (h : body.hasContent = true) (y : List UInt8) :
    coreText i name body ++ y =
      lt :: (name ++ (attributesText body.attributes ++ gt :: (body.contentText i true ++
        (beforeEnd i (body.isIndented false) ++ lt :: slash :: (name ++ gt :: y))))) := by
  simp [coreText, contentText_false, endText, beforeEnd, h]

theorem coreText_of_no_content {i : Nat} {name : List UInt8} {body : Script}
    (h : body.hasContent = false) (y : List UInt8) :
    coreText i name body ++ y =
      lt :: (name ++ (attributesText body.attributes ++ slash :: gt :: y)) := by
  simp [coreText, contentText_false, endText, h, isIndented_of_no_content h]

theorem subNodes_of_no_content {s : Script} (h : s.hasContent = false) :
    s.subNodes = [] ∧ s.content = none := by
  induction s with
  | done => exact ⟨rfl, rfl⟩
  | attr name value rest ih => exact ih h
  | appendSanitized src rest ih => cases h
  | node name body rest ihBody ihRest => cases h

/-- The attributes of a node. -/
theorem forEachAttribute_eq {m : XmlNode} {name y : List UInt8} {c : UInt8}
    {as : List (List UInt8 × List UInt8)} (hname : isIdentifier name = true)
    (has : ∀ a ∈ as, AttributeOk a) (hc : isDelimiter c = true)
    (hm : m.tags.start.name = tok (name ++ (attributesText as ++ c :: y))) :
    (∀ q, m.hasType q = true ↔ q = name) ∧
      m.forEachAttribute.map (fun a => (chars a.name, a.rawValue)) = as := by
  have hident : Lexes name (attributesText as ++ c :: y) .ident :=
    lexes_identifier hname (not_identifierChar_attributes hc)
  constructor
  · intro q
    rw [XmlNode.hasType, hm]
    exact hasChars_iff hname hident q
  · have hfuel : as.length ≤ (attributesText as ++ c :: y).length := by
      have := length_le_attributesText as
      rw [List.length_append]
      omega
    rw [XmlNode.forEachAttribute, hm, hident.next, rest_tok]
    exact attributesFrom_eq has hc hfuel

/-- A node without content. -/
theorem nodeText_empty {i : Nat} {name y : List UInt8} {body : Script}
    (hname : isIdentifier name = true) (hok : body.Ok) (h : body.hasContent = false) :
    NodeText (coreText i name body ++ y) y (Script.tree name body) := by
  obtain ⟨hsub, hcont⟩ := subNodes_of_no_content h
  rw [coreText_of_no_content h]
  have htag := tagText_empty hname hok.attributes y
  have hcons (w : List UInt8) (hw : Plain w) := construct_of_empty (htag.tags_append hw) rfl
  have hmark : markOf ⟨tok (lt :: (name ++ (attributesText body.attributes ++ slash :: gt :: y))),
      tok (name ++ (attributesText body.attributes ++ slash :: gt :: y)), .empty⟩ = .single := rfl
  refine ⟨⟨_, _, htag⟩, fun w hw => ?_, fun w hw => ?_, fun w hw => ?_, ?_, ?_, ?_⟩
  · rw [hcons w hw]
    rfl
  · rw [hcons w hw]
    exact htag.nextToken
  · have hstart : (nodeOf (w ++ lt :: (name ++ (attributesText body.attributes ++
        slash :: gt :: y)))).tags.start.name =
        tok (name ++ (attributesText body.attributes ++ slash :: gt :: y)) := by
      rw [nodeOf, hcons w hw]
    have hnum : (nodeOf (w ++ lt :: (name ++ (attributesText body.attributes ++
        slash :: gt :: y)))).numSubNodes = 0 := by
      rw [XmlNode.numSubNodes, nodeOf, hcons w hw]
    obtain ⟨h₁, h₂⟩ := forEachAttribute_eq hname hok.attributes (by decide) hstart
    have h₃ : (nodeOf (w ++ lt :: (name ++ (attributesText body.attributes ++
        slash :: gt :: y)))).forEachSubNode none = .ok [] := by
      simp only [XmlNode.forEachSubNode, XmlNode.hasSubNode, hnum, if_true]
      rfl
    rw [Script.tree, hsub, hcont]
    exact .mk h₁ h₂ hnum h₃ .nil (fun c hc => by cases hc)
  · rw [htag.tags, close, hmark]
  · rw [htag.tags, count_single hmark]
  · exact ⟨lt :: (name ++ (attributesText body.attributes ++ [slash, gt])), by simp⟩

/-- The end tag of a node. -/
def endTagAt (name y : List UInt8) : Tag :=
  ⟨tok (lt :: slash :: (name ++ gt :: y)), tok (name ++ gt :: y), .end'⟩

/-- The content of a node, up to its end tag and the text behind. -/
def contentOf (i : Nat) (name : List UInt8) (body : Script) (y : List UInt8) : List UInt8 :=
  body.contentText i true ++
    (beforeEnd i (body.isIndented false) ++ lt :: slash :: (name ++ gt :: y))

/-- The content of a node that was written with `append_sanitized`. -/
theorem decodedContent_eq {m : XmlNode} {i n : Nat} {name y c : List UInt8} {body : Script}
    (hok : body.Ok) (hc : body.content = some c) (hn : c.length ≤ n)
    (hstart : m.tags.start.type = .start)
    (hnext : m.tags.start.nextToken = tok (contentOf i name body y))
    (hend : m.tags.endTag = endTagAt name y) : m.decodedContent n = c := by
  have hsub : body.subNodes = [] := by
    rcases hok.unmixed with h | h
    · exact h
    · rw [h] at hc
      cases hc
  have htext : contentOf i name body y =
      sanitizedText c ++ lt :: slash :: (name ++ gt :: y) := by
    rw [contentOf, contentText_of_no_nodes hsub, hc, isIndented_of_no_nodes hsub]
    rfl
  have hbase : m.contentBase = some (sanitizedText c ++ lt :: slash :: (name ++ gt :: y)) := by
    rw [XmlNode.contentBase, hnext, htext, start_tok]
  have hsize : m.contentSize = (sanitizedText c).length := by
    rw [XmlNode.contentSize, hbase, hend, if_neg (by rw [hstart]; decide), Option.getD_some,
      List.length_append]
    exact Nat.add_sub_cancel _ _
  rw [XmlNode.decodedContent, hbase, hsize, Option.getD_some, List.take_left,
    decode_sanitizedText hn]

/-- A node with content or sub nodes. -/
theorem nodeText_content {i : Nat} {name y : List UInt8} {body : Script}
    (hname : isIdentifier name = true) (hok : body.Ok) (h : body.hasContent = true)
    (hwalk : Walk (endTagAt name y) y (contentOf i name body y) body.subNodes) :
    NodeText (coreText i name body ++ y) y (Script.tree name body) := by
  have htext : coreText i name body ++ y =
      lt :: (name ++ (attributesText body.attributes ++ gt :: contentOf i name body y)) :=
    coreText_of_content h y
  rw [htext]
  have htag := tagText_start hname hok.attributes (contentOf i name body y)
  have hident : Lexes name (attributesText body.attributes ++ gt :: contentOf i name body y)
      .ident := lexes_identifier hname (not_identifierChar_attributes (by decide))
  have hidentEnd : Lexes name (gt :: y) .ident :=
    lexes_identifier hname (by change xmlIdentifier.identifierChar gt 1 = false; decide)
  obtain ⟨hclose, hcount⟩ := hwalk.close_count
  have hsame : sameName ⟨tok (lt :: (name ++ (attributesText body.attributes ++
      gt :: contentOf i name body y))), tok (name ++ (attributesText body.attributes ++
      gt :: contentOf i name body y)), .start⟩ (endTagAt name y) = true :=
    sameName_eq hname rfl hident rfl hidentEnd
  have hcons (w : List UInt8) (hw : Plain w) :=
    construct_of_close (htag.tags_append hw) rfl htag.nextToken hclose hsame
  have hmark : markOf ⟨tok (lt :: (name ++ (attributesText body.attributes ++
      gt :: contentOf i name body y))), tok (name ++ (attributesText body.attributes ++
      gt :: contentOf i name body y)), .start⟩ = .opens := rfl
  refine ⟨⟨_, _, htag⟩, fun w hw => ?_, fun w hw => ?_, fun w hw => ?_, ?_, ?_, ?_⟩
  · rw [hcons w hw]
    rfl
  · rw [hcons w hw]
    exact (tagText_end hname y).nextToken
  · generalize hs : w ++ lt :: (name ++ (attributesText body.attributes ++
      gt :: contentOf i name body y)) = s
    have hc := hcons w hw
    rw [hs] at hc
    have hsuf : contentOf i name body y <:+ s := by
      rw [← hs]
      exact ⟨w ++ lt :: (name ++ (attributesText body.attributes ++ [gt])), by simp⟩
    have hstart : (nodeOf s).tags.start.name = tok (name ++ (attributesText body.attributes ++
        gt :: contentOf i name body y)) := by rw [nodeOf, hc]
    have hnext : (Tags.construct s).start.nextToken = tok (contentOf i name body y) := by
      rw [hc]
      exact htag.nextToken
    have hnum : (Tags.construct s).numSubNodes = body.subNodes.length := by rw [hc, hcount]
    obtain ⟨h₁, h₂⟩ := forEachAttribute_eq hname hok.attributes (by decide) hstart
    obtain ⟨visited, h₃, h₄⟩ := hwalk.forEachSubNode hsuf hnext hnum
    refine .mk h₁ h₂ hnum h₃ h₄ fun c hcontent n hn => ?_
    exact decodedContent_eq hok hcontent hn (by rw [nodeOf, hc]) hnext (by rw [nodeOf, hc])
  · rw [htag.tags]
    exact close_opens hmark hclose
  · rw [htag.tags]
    exact count_opens hmark hclose
  · exact ⟨lt :: (name ++ (attributesText body.attributes ++ gt :: (body.contentText i true ++
      (beforeEnd i (body.isIndented false) ++ lt :: slash :: (name ++ [gt]))))), by
      simp [contentOf]⟩

/-- Content without sub nodes is skipped up to the end tag. -/
theorem walk_of_no_nodes {i : Nat} {name y : List UInt8} {body : Script}
    (hname : isIdentifier name = true) (hsub : body.subNodes = []) :
    Walk (endTagAt name y) y (contentOf i name body y) body.subNodes := by
  have hplain := (plain_sanitizedText (body.content.getD [])).append
    (plain_beforeEnd i (body.isIndented false))
  rw [hsub, contentOf, contentText_of_no_nodes hsub, ← List.append_assoc]
  exact .stop hplain (tagText_end hname y) rfl

/-- The content of a node is a walk over its sub nodes. -/
theorem walk_contentText {s : Script} {i : Nat} {z w x : List UInt8} (hok : s.Ok)
    (hcont : s.content = none) (hw : Plain w) (hz : Plain z) (hx : TagText x e r)
    (he : e.type = .end') : Walk e r (w ++ (s.contentText i true ++ (z ++ x))) s.subNodes := by
  induction s generalizing i w z x e r with
  | done =>
    change Walk e r (w ++ (z ++ x)) []
    rw [← List.append_assoc]
    exact .stop (hw.append hz) hx he
  | attr name value rest ih => exact ih hok.2 hcont hw hz hx he
  | appendSanitized src rest ih => cases hcont
  | node name body rest ihBody ihRest =>
    obtain ⟨hrest, hname, hbody, hokRest⟩ := hok
    have hwalkRest : Walk e r (rest.contentText i true ++ (z ++ x)) rest.subNodes :=
      ihRest (w := []) hokRest hrest (fun _ hc => by cases hc) hz hx he
    -- the sub node, with the text of the others behind it
    have hnode : NodeText (coreText (i + 1) name body ++ (rest.contentText i true ++ (z ++ x)))
        (rest.contentText i true ++ (z ++ x)) (Script.tree name body) := by
      cases hc : body.hasContent with
      | false => exact nodeText_empty hname hbody hc
      | true =>
        refine nodeText_content hname hbody hc ?_
        rcases hbody.unmixed with hsub | hnone
        · exact walk_of_no_nodes hname hsub
        · exact ihBody (w := []) hbody hnone (fun _ hc => by cases hc) (plain_beforeEnd _ _)
            (tagText_end hname _) rfl
    have htext : w ++ ((Script.node name body rest).contentText i true ++ (z ++ x)) =
        (w ++ ([newline] ++ List.replicate (i + 1) tab)) ++
          (coreText (i + 1) name body ++ (rest.contentText i true ++ (z ++ x))) := by
      rw [Script.contentText_node, nodeText_eq]
      simp
    rw [htext]
    exact .step (hw.append (plain_newline.append (plain_indentation _))) hnode hwalkRest

/-- The text of a node is read as the node. -/
theorem nodeText_reads {i : Nat} {name y : List UInt8} {body : Script}
    (hname : isIdentifier name = true) (hok : body.Ok) :
    NodeText (coreText i name body ++ y) y (Script.tree name body) := by
  cases hc : body.hasContent with
  | false => exact nodeText_empty hname hok hc
  | true =>
    refine nodeText_content hname hok hc ?_
    rcases hok.unmixed with hsub | hnone
    · exact walk_of_no_nodes hname hsub
    · exact walk_contentText (w := []) hok hnone (fun _ hc => by cases hc) (plain_beforeEnd _ _)
        (tagText_end hname y) rfl

/-- Whatever the generator has finished is accepted by the parser, also with
other bytes behind it, and read as the tree that was written. -/
theorem construct_generated {dst dstLen used : Nat} {name : List UInt8} {func : Script}
    {m m' : Memory} (hdst : dst ≠ 0) (hname : isIdentifier name = true) (hok : func.Ok)
    (h : generate dst dstLen name func m = some (used, m')) (behind : List UInt8) :
    XmlNode.construct (m'.slice dst used ++ behind) =
        .ok (nodeOf (m'.slice dst used ++ behind)) ∧
      Reads (nodeOf (m'.slice dst used ++ behind)) (func.tree name) := by
  have htext : m'.slice dst used ++ behind =
      [] ++ (coreText 0 name func ++ ([newline, 0] ++ behind)) := by
    rw [generate_text hdst h, nodeText_eq]
    simp
  have hnode : NodeText (coreText 0 name func ++ ([newline, 0] ++ behind))
      ([newline, 0] ++ behind) (func.tree name) := nodeText_reads hname hok
  have hplain : Plain [] := fun _ hc => by cases hc
  constructor
  · have hvalid := hnode.valid [] hplain
    rw [← htext] at hvalid
    rw [XmlNode.construct, hvalid]
    rfl
  · rw [htext]
    exact hnode.reads [] hplain

end Nodes

end Genode.Util.Xml
