import Genode.Util.XmlGenerator

/-!
# XmlText — the text that the generator writes

The text of a script is given without buffers and without insertions: the
attributes of a node stand together behind its name, in the order of the
calls, wherever they were issued.
-/

namespace Genode.Util.Xml

open Lib Ascii

/-! ## The text of a script -/

/-- The names and values of the attributes, as text. -/
def attributesText (attrs : List (List UInt8 × List UInt8)) : List UInt8 :=
  attrs.flatMap fun a => space :: a.1 ++ equalSign :: quote :: (a.2 ++ [quote])

/-- The content as text, where special characters are encoded. -/
def sanitizedText (src : List UInt8) : List UInt8 := src.flatMap OutBuffer.sanitized

namespace Script

/-- The attributes of the current node. -/
def attributes : Script → List (List UInt8 × List UInt8)
  | .done => []
  | .attr name value rest => (name, value) :: rest.attributes
  | .appendSanitized _ rest => rest.attributes
  | .node _ _ rest => rest.attributes

/-- The current node gets content or sub nodes. -/
def hasContent : Script → Bool
  | .done => false
  | .attr _ _ rest => rest.hasContent
  | .appendSanitized _ _ => true
  | .node _ _ _ => true

/-- The end tag of the current node starts at a fresh line. -/
def isIndented : Script → Bool → Bool
  | .done, indented => indented
  | .attr _ _ rest, indented => rest.isIndented indented
  | .appendSanitized _ rest, _ => rest.isIndented false
  | .node _ _ rest, _ => rest.isIndented true

end Script

/-- The beginning of a node. -/
def startText (indentLevel : Nat) (name : List UInt8) : List UInt8 :=
  List.replicate indentLevel tab ++ lt :: name

/-- The end of a node. -/
def endText (indentLevel : Nat) (name : List UInt8) (indented content : Bool) : List UInt8 :=
  (if indented then newline :: List.replicate indentLevel tab else []) ++
    if content then lt :: slash :: (name ++ [gt]) else [slash, gt]

/-- The content of the current node, from the end of its start tag on. The flag
tells whether the start tag is closed already. -/
def Script.contentText : Script → Nat → Bool → List UInt8
  | .done, _, _ => []
  | .attr _ _ rest, i, content => rest.contentText i content
  | .appendSanitized src rest, i, content =>
    (if content then [] else [gt]) ++ sanitizedText src ++ rest.contentText i true
  | .node name body rest, i, content =>
    (if content then [] else [gt]) ++ newline ::
      (startText (i + 1) name ++ attributesText body.attributes ++
        body.contentText (i + 1) false ++
        endText (i + 1) name (body.isIndented false) body.hasContent) ++
      rest.contentText i true

/-- The text of a node. -/
def nodeText (indentLevel : Nat) (name : List UInt8) (body : Script) : List UInt8 :=
  startText indentLevel name ++ attributesText body.attributes ++
    body.contentText indentLevel false ++
    endText indentLevel name (body.isIndented false) body.hasContent

theorem Script.contentText_node (name : List UInt8) (body rest : Script) (i : Nat)
    (content : Bool) :
    (Script.node name body rest).contentText i content =
      ((if content then [] else [gt]) ++ [newline]) ++ nodeText (i + 1) name body ++
        rest.contentText i true := by
  simp [Script.contentText, nodeText]

/-! ## Writing into a buffer -/

/-- The text was appended to the buffer, and the memory before is unchanged. -/
structure Appended (b : OutBuffer) (m : Memory) (b' : OutBuffer) (m' : Memory)
    (t : List UInt8) : Prop where
  dst : b'.dst = b.dst
  used : b'.used = b.used + t.length
  text : m'.slice (b.dst + b.used) t.length = t
  below : ∀ x < b.dst + b.used, m' x = m x

/-- The text was appended to the buffer, and the memory is unchanged elsewhere. -/
structure Wrote (b : OutBuffer) (m : Memory) (b' : OutBuffer) (m' : Memory)
    (t : List UInt8) : Prop extends Appended b m b' m' t where
  above : ∀ x, b.dst + b.used + t.length ≤ x → m' x = m x

section Writing

variable {b b' : OutBuffer} {m m' : Memory} {t t' : List UInt8} {c : UInt8}

theorem Wrote.refl (b : OutBuffer) (m : Memory) : Wrote b m b m [] :=
  ⟨⟨rfl, rfl, rfl, fun _ _ => rfl⟩, fun _ _ => rfl⟩

theorem Appended.trans {b'' : OutBuffer} {m'' : Memory} (h : Appended b m b' m' t)
    (h' : Appended b' m' b'' m'' t') : Appended b m b'' m'' (t ++ t') := by
  have hpos : b'.dst + b'.used = b.dst + b.used + t.length := by
    rw [h.dst, h.used, Nat.add_assoc]
  constructor
  · rw [h'.dst, h.dst]
  · rw [h'.used, h.used, List.length_append, Nat.add_assoc]
  · have htext := h'.text
    rw [hpos] at htext
    rw [List.length_append, Memory.slice_add, htext]
    congr 1
    rw [← h.text, Memory.length_slice]
    exact Memory.slice_congr fun x _ hx => h'.below x (by omega)
  · intro x hx
    rw [h'.below x (by omega), h.below x hx]

theorem Wrote.trans {b'' : OutBuffer} {m'' : Memory} (h : Wrote b m b' m' t)
    (h' : Wrote b' m' b'' m'' t') : Wrote b m b'' m'' (t ++ t') := by
  refine ⟨h.toAppended.trans h'.toAppended, fun x hx => ?_⟩
  rw [List.length_append] at hx
  rw [h'.above x (by rw [h.dst, h.used]; omega), h.above x (by omega)]

theorem advance_eq_some {k : Nat} (h : b.advance k = some b') :
    b'.dst = b.dst ∧ b'.used = b.used + k := by
  unfold OutBuffer.advance at h
  split at h
  · cases h
  · cases h
    exact ⟨rfl, rfl⟩

theorem wrote_append (h : b.append m c = some (b', m')) : Wrote b m b' m' [c] := by
  unfold OutBuffer.append at h
  cases ha : b.advance 1 with
  | none =>
    rw [ha] at h
    cases h
  | some b₁ =>
    rw [ha] at h
    cases h
    obtain ⟨hdst, hused⟩ := advance_eq_some ha
    refine ⟨⟨hdst, hused, ?_, ?_⟩, ?_⟩
    · exact congrArg (fun x => [x]) (Function.update_self _ _ _)
    · intro x hx
      exact Function.update_of_ne (by omega) _ _
    · intro x hx
      rw [List.length_singleton] at hx
      exact Function.update_of_ne (by omega) _ _

theorem wrote_appendBytes (h : b.appendBytes m t = some (b', m')) : Wrote b m b' m' t := by
  induction t generalizing b m with
  | nil =>
    cases h
    exact Wrote.refl _ _
  | cons c t ih =>
    unfold OutBuffer.appendBytes at h
    cases ha : b.append m c with
    | none =>
      rw [ha] at h
      cases h
    | some p =>
      rw [ha] at h
      exact (wrote_append ha).trans (ih h)

/-- The calls of a do block succeed one after the other. -/
theorem bind_eq_some {α β : Type} {x : Option α} {f : α → Option β} {y : β}
    (h : x >>= f = some y) : ∃ a, x = some a ∧ f a = some y := Option.bind_eq_some_iff.mp h

theorem wrote_contentBuffer {node node' : Node} {indented : Bool}
    (h : node.contentBuffer m indented = some (node', m')) :
    Wrote node.outBuffer m node'.outBuffer m'
        ((if node.hasContent then [] else [gt]) ++ if indented then [newline] else []) ∧
      node' = { node with
        outBuffer := node'.outBuffer, hasContent := true, isIndented := indented } := by
  obtain ⟨⟨b₁, m₁⟩, h₁, h⟩ := bind_eq_some h
  obtain ⟨⟨b₂, m₂⟩, h₂, h⟩ := bind_eq_some h
  cases h
  have hw₁ : Wrote node.outBuffer m b₁ m₁ (if node.hasContent then [] else [gt]) := by
    by_cases hc : node.hasContent = true
    · rw [if_pos hc] at h₁ ⊢
      cases h₁
      exact Wrote.refl _ _
    · rw [if_neg hc] at h₁ ⊢
      exact wrote_append h₁
  have hw₂ : Wrote b₁ m₁ b₂ m' (if indented then [newline] else []) := by
    by_cases hi : indented = true
    · rw [if_pos hi] at h₂ ⊢
      exact wrote_append h₂
    · rw [if_neg hi] at h₂ ⊢
      cases h₂
      exact Wrote.refl _ _
  exact ⟨hw₁.trans hw₂, rfl⟩

theorem wrote_start {i : Nat} {name : List UInt8} {node : Node}
    (h : Node.start i name b m = some (node, m')) :
    Wrote b m node.outBuffer m' (startText i name) ∧
      node = ⟨i, node.outBuffer, false, false, node.outBuffer.used⟩ := by
  obtain ⟨⟨b₁, m₁⟩, h₁, h⟩ := bind_eq_some h
  obtain ⟨⟨b₂, m₂⟩, h₂, h⟩ := bind_eq_some h
  obtain ⟨⟨b₃, m₃⟩, h₃, h⟩ := bind_eq_some h
  cases h
  exact ⟨(wrote_appendBytes h₁).trans ((wrote_append h₂).trans (wrote_appendBytes h₃)), rfl⟩

theorem wrote_finish {name : List UInt8} {node : Node}
    (h : node.finish m name = some (b', m')) :
    Wrote node.outBuffer m b' m'
      (endText node.indentLevel name node.isIndented node.hasContent) := by
  obtain ⟨⟨b₁, m₁⟩, h₁, h⟩ := bind_eq_some h
  have hw₁ : Wrote node.outBuffer m b₁ m₁
      (if node.isIndented then newline :: List.replicate node.indentLevel tab else []) := by
    by_cases hi : node.isIndented = true
    · rw [if_pos hi] at h₁ ⊢
      obtain ⟨⟨b₂, m₂⟩, h₂, h₃⟩ := bind_eq_some h₁
      exact (wrote_append h₂).trans (wrote_appendBytes h₃)
    · rw [if_neg hi] at h₁ ⊢
      cases h₁
      exact Wrote.refl _ _
  have hw₂ : Wrote b₁ m₁ b' m'
      (if node.hasContent then lt :: slash :: (name ++ [gt]) else [slash, gt]) := by
    dsimp only at h
    by_cases hc : node.hasContent = true
    · rw [if_pos hc] at h ⊢
      obtain ⟨⟨b₂, m₂⟩, h₂, h⟩ := bind_eq_some h
      obtain ⟨⟨b₃, m₃⟩, h₃, h⟩ := bind_eq_some h
      exact (wrote_appendBytes h₂).trans ((wrote_appendBytes h₃).trans (wrote_append h))
    · rw [if_neg hc] at h ⊢
      exact wrote_appendBytes h
  exact hw₁.trans hw₂

/-- The buffer of the node holds the text of the attributes so far and the text
behind. -/
structure Holds (node : Node) (m : Memory) (attrs content : List UInt8) : Prop where
  text : m.slice node.outBuffer.dst node.outBuffer.used = attrs ++ content
  attrOffset : node.attrOffset = attrs.length

variable {node node' : Node} {attrs content : List UInt8}

theorem Holds.used (h : Holds node m attrs content) :
    node.outBuffer.used = attrs.length + content.length := by
  have hlen := congrArg List.length h.text
  rwa [Memory.length_slice, List.length_append] at hlen

/-- Text that is appended belongs to the content. -/
theorem Holds.appended (h : Holds node m attrs content) (hw : Appended node.outBuffer m b' m' t)
    (hb : node'.outBuffer = b') (ha : node'.attrOffset = node.attrOffset) :
    Holds node' m' attrs (content ++ t) := by
  constructor
  · rw [hb, hw.dst, hw.used, Memory.slice_add, hw.text, ← List.append_assoc, ← h.text]
    congr 1
    exact Memory.slice_congr fun x _ hx => hw.below x hx
  · rw [ha, h.attrOffset]

/-- The text of an attribute is inserted behind the others. -/
theorem holds_insertAttribute {name value : List UInt8} (h : Holds node m attrs content)
    (hrun : node.insertAttribute m name value = some (node', m')) :
    Holds node' m' (attrs ++ attributesText [(name, value)]) content ∧
      node'.outBuffer.dst = node.outBuffer.dst ∧
      (∀ x < node.outBuffer.dst, m' x = m x) ∧
      node' = { node with outBuffer := node'.outBuffer, attrOffset := node'.attrOffset } := by
  have hused := h.used
  have hoff := h.attrOffset
  obtain ⟨⟨g, b, m₁⟩, hgap, hrun⟩ := bind_eq_some hrun
  obtain ⟨⟨g₁, m₂⟩, h₁, hrun⟩ := bind_eq_some hrun
  obtain ⟨⟨g₂, m₃⟩, h₂, hrun⟩ := bind_eq_some hrun
  obtain ⟨⟨g₃, m₄⟩, h₃, hrun⟩ := bind_eq_some hrun
  obtain ⟨⟨g₄, m₅⟩, h₄, hrun⟩ := bind_eq_some hrun
  obtain ⟨⟨g₅, m₆⟩, h₅, hrun⟩ := bind_eq_some hrun
  cases hrun
  dsimp only at *
  unfold OutBuffer.insertGap at hgap
  rw [if_neg (by omega)] at hgap
  obtain ⟨b₁, hadv, hgap⟩ := bind_eq_some hgap
  cases hgap
  obtain ⟨hdst, hlen⟩ := advance_eq_some hadv
  have hw := ((((wrote_append h₁).trans (wrote_appendBytes h₂)).trans
    (wrote_appendBytes h₃)).trans (wrote_appendBytes h₄)).trans (wrote_appendBytes h₅)
  have htext : [space] ++ name ++ [equalSign, quote] ++ value ++ [quote] =
      attributesText [(name, value)] := by simp [attributesText]
  have hgaplen : (attributesText [(name, value)]).length =
      1 + name.length + 1 + 1 + value.length + 1 := by
    simp only [← htext, List.length_append, List.length_cons, List.length_nil]
  rw [htext] at hw
  have hgapText := hw.text
  have hbelow := hw.below
  have habove := hw.above
  dsimp only [Nat.add_zero] at hgapText hbelow habove
  rw [hgaplen] at hgapText habove
  -- the parts of the old text
  have hold := h.text
  rw [hused, Memory.slice_add] at hold
  obtain ⟨hattrs, hcontent⟩ := List.append_inj hold (by rw [Memory.length_slice])
  refine ⟨⟨?_, ?_⟩, hdst, ?_, rfl⟩
  · dsimp only
    have hsplit : b.used =
        attrs.length + (1 + name.length + 1 + 1 + value.length + 1) + content.length := by omega
    rw [hdst, hsplit, Memory.slice_add, Memory.slice_add]
    rw [hoff] at hgapText hbelow habove
    rw [hgapText]
    congr 1
    · congr 1
      rw [← hattrs, Memory.length_slice]
      refine Memory.slice_congr fun x _ hx => ?_
      rw [hbelow x hx]
      exact Memory.move_of_lt (by omega)
    · have hrest : node.outBuffer.used - attrs.length = content.length := by omega
      rw [hrest] at habove
      rw [← hcontent, Memory.length_slice, ← Memory.slice_move m _
        (node.outBuffer.dst + attrs.length + (1 + name.length + 1 + 1 + value.length + 1)),
        ← Nat.add_assoc]
      exact Memory.slice_congr fun x hx _ => habove x hx
  · dsimp only
    rw [hoff, List.length_append, hgaplen]
  · intro x hx
    rw [hbelow x (by omega)]
    exact Memory.move_of_lt (by omega)

/-- A node and the memory after the calls of a script. -/
structure Written (s : Script) (node : Node) (m : Memory) (node' : Node) (m' : Memory)
    (attrs content : List UInt8) : Prop where
  holds : Holds node' m' (attrs ++ attributesText s.attributes)
    (content ++ s.contentText node.indentLevel node.hasContent)
  dst : node'.outBuffer.dst = node.outBuffer.dst
  indentLevel : node'.indentLevel = node.indentLevel
  hasContent : node'.hasContent = (node.hasContent || s.hasContent)
  isIndented : node'.isIndented = s.isIndented node.isIndented
  below : ∀ x < node.outBuffer.dst, m' x = m x

/-- The beginning of a node is written into an empty buffer. -/
theorem holds_start {i : Nat} {name : List UInt8} {sub : Node} (hused : b.used = 0)
    (h : Node.start i name b m = some (sub, m')) : Holds sub m' (startText i name) [] := by
  obtain ⟨hw, hsub⟩ := wrote_start h
  have hlen := hw.used
  have htext := hw.text
  rw [hused, Nat.zero_add] at hlen
  rw [hused, Nat.add_zero] at htext
  constructor
  · rw [hw.dst, hlen, htext, List.append_nil]
  · rw [hsub]
    exact hlen

/-- A whole node is written into an empty buffer. -/
theorem nodeText_written {i : Nat} {name : List UInt8} {body : Script} {sub sub' : Node}
    {m₁ m₂ : Memory} (hused : b.used = 0) (hstart : Node.start i name b m = some (sub, m₁))
    (hbody : Written body sub m₁ sub' m₂ (startText i name) [])
    (hfinish : sub'.finish m₂ name = some (b', m')) :
    b'.dst = b.dst ∧ m'.slice b.dst b'.used = nodeText i name body ∧
      ∀ x < b.dst, m' x = m x := by
  obtain ⟨hw₁, hsub⟩ := wrote_start hstart
  have hw₃ := wrote_finish hfinish
  have hlevel : sub.indentLevel = i := by rw [hsub]
  have hno : sub.hasContent = false := by rw [hsub]
  have hnot : sub.isIndented = false := by rw [hsub]
  have hholds : Holds { sub' with outBuffer := b' } m' _ _ :=
    hbody.holds.appended hw₃.toAppended rfl rfl
  rw [hlevel, hno, hbody.indentLevel, hlevel, hbody.hasContent, hno, hbody.isIndented, hnot,
    Bool.false_or, List.nil_append] at hholds
  have hdst : b'.dst = b.dst := by rw [hw₃.dst, hbody.dst, hw₁.dst]
  have htext := hholds.text
  dsimp only at htext
  rw [← List.append_assoc, hdst] at htext
  refine ⟨hdst, htext, fun x hx => ?_⟩
  rw [hw₃.below x (by rw [hbody.dst, hw₁.dst]; omega), hbody.below x (by rw [hw₁.dst]; exact hx),
    hw₁.below x (by omega)]

/-- The text of a committed buffer follows the text of the node. -/
theorem appended_commit {c : OutBuffer} (hdst : c.dst = b.dst + b.used)
    (htext : m'.slice c.dst c.used = t) (hbelow : ∀ x < b.dst + b.used, m' x = m x)
    (h : b.advance c.used = some b') : Appended b m b' m' t := by
  obtain ⟨h₁, h₂⟩ := advance_eq_some h
  have hlen : c.used = t.length := by rw [← htext, Memory.length_slice]
  rw [hdst, hlen] at htext
  exact ⟨h₁, by rw [h₂, hlen], htext, hbelow⟩

/-- Sanitized content is appended. -/
theorem appended_appendSanitized {src : List UInt8}
    (h : node.appendSanitized m src = some (node', m')) :
    Appended node.outBuffer m node'.outBuffer m'
        ((if node.hasContent then [] else [gt]) ++ sanitizedText src) ∧
      node' = { node with
        outBuffer := node'.outBuffer, hasContent := true, isIndented := false } := by
  obtain ⟨⟨node₁, m₁⟩, h₁, h⟩ := bind_eq_some h
  obtain ⟨⟨c, m₂⟩, h₂, h⟩ := bind_eq_some h
  obtain ⟨node₂, h₃, h⟩ := bind_eq_some h
  obtain ⟨b₃, h₄, h₃⟩ := bind_eq_some h₃
  cases h₃
  cases h
  obtain ⟨hw₁, hnode₁⟩ := wrote_contentBuffer h₁
  have hw₂ := wrote_appendBytes h₂
  have htext := hw₂.text
  have hlen : c.used = (sanitizedText src).length := hw₂.used.trans (Nat.zero_add _)
  have hw₃ : Appended node₁.outBuffer m₁ b₃ m' (sanitizedText src) :=
    appended_commit hw₂.dst (by rw [hw₂.dst, hlen]; exact htext) hw₂.below h₄
  refine ⟨?_, by rw [hnode₁]⟩
  have hw := hw₁.toAppended.trans hw₃
  simp only [Bool.false_eq_true, if_false, List.append_nil] at hw
  exact hw

/-- A script writes the attributes and the content of the current node. -/
theorem run_written {s : Script} (h : s.run node m = some (node', m'))
    (hholds : Holds node m attrs content) : Written s node m node' m' attrs content := by
  induction s generalizing node m node' m' attrs content with
  | done =>
    cases h
    refine ⟨?_, rfl, rfl, (Bool.or_false _).symm, rfl, fun _ _ => rfl⟩
    simpa [Script.attributes, attributesText, Script.contentText] using hholds
  | attr name value rest ih =>
    obtain ⟨⟨node₁, m₁⟩, h₁, h⟩ := bind_eq_some h
    obtain ⟨hholds₁, hdst, hbelow, hnode⟩ := holds_insertAttribute hholds h₁
    have hrest := ih h hholds₁
    have hlevel : node₁.indentLevel = node.indentLevel := by rw [hnode]
    have hcont : node₁.hasContent = node.hasContent := by rw [hnode]
    have hind : node₁.isIndented = node.isIndented := by rw [hnode]
    have hattrs : attributesText (Script.attr name value rest).attributes =
        attributesText [(name, value)] ++ attributesText rest.attributes := by
      simp [Script.attributes, attributesText]
    constructor
    · have hh := hrest.holds
      rwa [List.append_assoc, ← hattrs, hlevel, hcont] at hh
    · rw [hrest.dst, hdst]
    · rw [hrest.indentLevel, hlevel]
    · rw [hrest.hasContent, hcont]
      rfl
    · rw [hrest.isIndented, hind]
      rfl
    · intro x hx
      rw [hrest.below x (by rw [hdst]; exact hx), hbelow x hx]
  | appendSanitized src rest ih =>
    obtain ⟨⟨node₁, m₁⟩, h₁, h⟩ := bind_eq_some h
    obtain ⟨hw, hnode⟩ := appended_appendSanitized h₁
    have hrest := ih h (hholds.appended hw rfl (by rw [hnode]))
    have hlevel : node₁.indentLevel = node.indentLevel := by rw [hnode]
    have hcont : node₁.hasContent = true := by rw [hnode]
    have hind : node₁.isIndented = false := by rw [hnode]
    constructor
    · have hh := hrest.holds
      rwa [List.append_assoc, hlevel, hcont] at hh
    · rw [hrest.dst, hw.dst]
    · rw [hrest.indentLevel, hlevel]
    · rw [hrest.hasContent, hcont]
      simp [Script.hasContent]
    · rw [hrest.isIndented, hind]
      rfl
    · intro x hx
      rw [hrest.below x (by rw [hw.dst]; exact hx), hw.below x (by omega)]
  | node name body rest ihBody ihRest =>
    obtain ⟨⟨node₁, m₁⟩, h₁, h⟩ := bind_eq_some h
    obtain ⟨⟨sub, m₂⟩, h₂, h⟩ := bind_eq_some h
    obtain ⟨⟨sub', m₃⟩, h₃, h⟩ := bind_eq_some h
    obtain ⟨⟨b₄, m₄⟩, h₄, h⟩ := bind_eq_some h
    obtain ⟨node₅, h₅, h⟩ := bind_eq_some h
    obtain ⟨⟨b₆, m₆⟩, h₆, h⟩ := bind_eq_some h
    obtain ⟨b₅, h₅', h₅⟩ := bind_eq_some h₅
    cases h₅
    obtain ⟨hw₁, hnode⟩ := wrote_contentBuffer h₁
    -- the sub node in the remainder of the buffer
    have hstart := holds_start rfl h₂
    have hsub := ihBody h₃ hstart
    obtain ⟨hdst, htext, hbelow⟩ := nodeText_written rfl h₂ hsub h₄
    have hw₆ := wrote_append h₆
    have hw₅ : Appended node₁.outBuffer m₁ b₅ m₆
        (nodeText (node₁.indentLevel + 1) name body) := by
      refine appended_commit hdst ?_ (fun x hx => ?_) h₅'
      · rw [← htext, hdst]
        exact Memory.slice_congr fun x _ hx => hw₆.below x (by rw [hdst]; exact hx)
      · rw [hw₆.below x (by rw [hdst]; exact Nat.lt_of_lt_of_le hx (Nat.le_add_right _ _)),
          hbelow x hx]
    have hw := hw₁.toAppended.trans hw₅
    have hrest := ihRest h (hholds.appended hw rfl (by rw [hnode]))
    have hlevel : node₁.indentLevel = node.indentLevel := by rw [hnode]
    have hcont : node₁.hasContent = true := by rw [hnode]
    have hind : node₁.isIndented = true := by rw [hnode]
    constructor
    · have hh := hrest.holds
      dsimp only at hh
      rw [List.append_assoc, hlevel, hcont] at hh
      rw [Script.contentText_node]
      exact hh
    · rw [hrest.dst]
      exact hw.dst
    · rw [hrest.indentLevel]
      exact hlevel
    · rw [hrest.hasContent]
      simp [Script.hasContent, hcont]
    · rw [hrest.isIndented]
      exact congrArg _ hind
    · intro x hx
      rw [hrest.below x (by dsimp only; rw [hw.dst]; exact hx), hw.below x (by omega)]

/-- The generator writes the text of the node, a newline and a zero. -/
theorem generate_text {dst dstLen used : Nat} {name : List UInt8} {func : Script}
    (hdst : dst ≠ 0) (h : generate dst dstLen name func m = some (used, m')) :
    m'.slice dst used = nodeText 0 name func ++ [newline, 0] := by
  rw [generate, if_neg hdst] at h
  obtain ⟨⟨node, m₁⟩, h₁, h⟩ := bind_eq_some h
  obtain ⟨⟨node', m₂⟩, h₂, h⟩ := bind_eq_some h
  obtain ⟨⟨b, m₃⟩, h₃, h⟩ := bind_eq_some h
  obtain ⟨⟨b₄, m₄⟩, h₄, h⟩ := bind_eq_some h
  obtain ⟨⟨b₅, m₅⟩, h₅, h⟩ := bind_eq_some h
  obtain ⟨⟨b₆, m₆⟩, h₆, h⟩ := bind_eq_some h
  cases h
  have hrun := run_written h₂ (holds_start rfl h₁)
  obtain ⟨hb, htext, -⟩ := nodeText_written rfl h₁ hrun h₃
  have hw₄ := wrote_append h₄
  have hw := (wrote_append h₅).trans (wrote_append h₆)
  have hb : b.dst = dst := hb
  have hend := hw.text
  rw [hb] at hend
  rw [hw.used, Memory.slice_add, ← htext, hend]
  congr 1
  -- neither the zero of the node nor the end of the text changes the text before
  refine Memory.slice_congr fun x _ hx => ?_
  rw [hw.below x (by rw [hb]; exact hx), hw₄.below x (by rw [hb]; exact hx)]

end Writing

end Genode.Util.Xml
