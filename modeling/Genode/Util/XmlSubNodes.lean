import Genode.Util.XmlReturns

/-!
# XmlSubNodes — the nodes that the parser comes to

The traversals of a node, with the 32-bit indices and counters of the code,
return what they do over natural numbers. A node counts its sub nodes with
one scan that follows the depth only, and visits them with a scan for each.
The two agree exactly if each sub node is closed by its own name.
-/

namespace Genode.Util.Xml

open Lib Ascii Nesting

/-- A valid attribute can be constructed. -/
theorem construct_of_valid {t : Token} (h : (XmlAttribute.tokens t).valid = true) :
    XmlAttribute.construct t = .ok (XmlAttribute.tokens t) := by
  have hname : typeOf (XmlAttribute.tokens t).name = .ident := by
    simp only [XmlAttribute.valid, Bool.and_eq_true, decide_eq_true_eq] at h
    exact h.1.1
  rw [XmlAttribute.construct, if_neg (not_not.mpr hname), if_neg (by simp [h])]
  rfl

/-! ## The places of nodes -/

section Places

variable {G : List UInt8 → Prop} {s s' : List UInt8} {t : Tag} {ts : List Tag}

variable (hG : Closed G)
include hG

/-- The tags of a text begin at places with the property. -/
theorem mem_tags_ahead (hs : G s) (h : t ∈ tags s) :
    ∃ s', t = Tag.construct (tok s') ∧ t.type ≠ .invalid ∧ s' <:+ s ∧ G s' := by
  induction hn : s.length using Nat.strongRecOn generalizing s with
  | _ n ih =>
    by_cases hlen : len s = 0
    · rw [tags_of_len hlen] at h
      cases h
    have hdrop := drop_len_length_lt hlen
    by_cases hc : (Comment.construct (tok s)).valid = true
    · obtain ⟨-, s₁, heq, hsuf, hlt⟩ := comment_later hc
      rw [tags_of_comment hc heq] at h
      obtain ⟨s', h₁, h₂, h₃, h₄⟩ := ih s₁.length (hn ▸ hlt) (hG.comment hs heq) h rfl
      exact ⟨s', h₁, h₂, h₃.trans hsuf, h₄⟩
    have hc : (Comment.construct (tok s)).valid = false := Bool.eq_false_iff.mpr hc
    by_cases ht : (Tag.construct (tok s)).type = .invalid
    · rw [tags_of_no_tag hc ht] at h
      obtain ⟨s', h₁, h₂, h₃, h₄⟩ := ih _ (hn ▸ hdrop) (hG.next hs) h rfl
      exact ⟨s', h₁, h₂, h₃.trans (List.drop_suffix _ _), h₄⟩
    rw [tags_of_tag hc ht] at h
    rcases List.mem_cons.mp h with rfl | h
    · exact ⟨s, rfl, ht, List.suffix_rfl, hs⟩
    · obtain ⟨s₁, heq, hsuf, hlt, hs₁⟩ := tag_ahead hG hs ht
      rw [heq, rest_tok] at h
      obtain ⟨s', h₁, h₂, h₃, h₄⟩ := ih s₁.length (hn ▸ hlt) hs₁ h rfl
      exact ⟨s', h₁, h₂, h₃.trans hsuf, h₄⟩

/-- Behind a tag of a text there is less left. -/
theorem nextToken_ahead (hs : G s) (h : t ∈ tags s) :
    Ahead G s t.name ∧
      ∃ s', t.nextToken = tok s' ∧ s' <:+ s ∧ s'.length < s.length ∧ G s' := by
  obtain ⟨s₁, rfl, hne, hs₁, hG₁⟩ := mem_tags_ahead hG hs h
  obtain ⟨s', heq, hsuf, hlt, hs'⟩ := tag_ahead hG hG₁ hne
  have hname := (tag_name_ahead hG hG₁ hne).trans ((List.drop_suffix _ _).trans hs₁)
  exact ⟨hname, s', heq, hsuf.trans hs₁, hlt.trans_le hs₁.length_le, hs'⟩

omit hG in
theorem start_mem (h : (Tags.construct s).valid = true) : (Tags.construct s).start ∈ tags s := by
  rcases construct_start s with ⟨hinv, -⟩ | ⟨ts, hcons⟩
  · simp [Tags.valid, hinv] at h
  · rw [hcons]
    exact List.mem_cons_self

omit hG in
theorem endTag_mem (h : (Tags.construct s).valid = true) : (Tags.construct s).endTag ∈ tags s := by
  rcases construct_siblings s with ⟨hv, -⟩ | ⟨-, hsib⟩
  · rw [hv] at h
    cases h
  · obtain ⟨r, h₁, h₂⟩ := mem_siblings (hsib ▸ List.mem_cons_self)
    exact (h₂.trans h₁).subset List.mem_cons_self

/-- Behind a node and all that is no tag there is less left. -/
theorem after_ahead (hs : G s) (h : (Tags.construct s).valid = true) :
    ∃ s', (nodeOf s).after = tok s' ∧ s' <:+ s ∧ s'.length < s.length ∧ G s' := by
  obtain ⟨-, s₁, heq, hsuf, hlt, hs₁⟩ := nextToken_ahead hG hs (endTag_mem h)
  obtain ⟨s', heq', hsuf', hs'⟩ := skipLoop_ahead hG (n := s₁.length) (ahead_tok hs₁)
  refine ⟨s', ?_, hsuf'.trans hsuf, hsuf'.length_le.trans_lt hlt, hs'⟩
  rw [XmlNode.after, nodeOf, heq]
  exact heq'

/-- A node that is visited, below a number of bytes. -/
def NodeAhead (G : List UInt8 → Prop) (n : Nat) (m : XmlNode) : Prop :=
  ∃ s, m = nodeOf s ∧ (Tags.construct s).valid = true ∧ s.length < n ∧ G s

theorem forEachLoop_ahead {visited : List XmlNode} {k n : Nat} (hs : G s)
    (hv : (Tags.construct s).valid = true) (hlt : s.length < n)
    (h : XmlNode.forEachLoop none k (nodeOf s) = .ok visited) :
    ∀ m ∈ visited, NodeAhead G n m := by
  induction k generalizing s visited with
  | zero =>
    cases h
    intro m hm
    cases hm
  | succ k ih =>
    obtain ⟨s', heq, hsuf, hlt', hs'⟩ := after_ahead hG hs hv
    rw [forEachLoop_succ heq hsuf] at h
    have hself : NodeAhead G n (nodeOf s) := ⟨s, rfl, hv, hlt, hs⟩
    cases hv' : (Tags.construct s').valid with
    | false =>
      rw [hv'] at h
      cases h
      intro m hm
      rw [List.mem_singleton.mp hm]
      exact hself
    | true =>
      rw [hv', if_pos rfl] at h
      cases hrest : XmlNode.forEachLoop none k (nodeOf s') with
      | error e =>
        rw [hrest] at h
        cases h
      | ok later =>
        rw [hrest] at h
        cases h
        intro m hm
        rcases List.mem_cons.mp hm with rfl | hm
        · exact hself
        · exact ih hs' hv' (hlt'.trans hlt) hrest m hm

/-- The visited sub nodes have the property, too. -/
theorem forEachSubNode_ahead {visited : List XmlNode} (hs : G s)
    (hv : (Tags.construct s).valid = true)
    (h : (nodeOf s).forEachSubNode none = .ok visited) :
    ∀ m ∈ visited, NodeAhead G s.length m := by
  obtain ⟨-, content, heq, hsuf, hlt, hcontent⟩ := nextToken_ahead hG hs (start_mem hv)
  rw [forEachSubNode_eq hsuf heq] at h
  split at h
  · cases h
    intro m hm
    cases hm
  · rename_i hne
    have hv' : (Tags.construct content).valid = true := by simpa using (not_or.mp hne).2
    exact forEachLoop_ahead hG hcontent hv' hlt h

end Places

end Genode.Util.Xml

namespace Genode.Util.Xml.Looped

open Lib Ascii Looping Util.Looped

/-! ## The traversals of a node -/

section Nodes

variable {G : List UInt8 → Prop} {s s' addr : List UInt8} {ts : Tags} {n : Nat}

variable (hG : Closed G)
include hG

theorem construct_returns (hs : G s) : (XmlNode.construct s).Returns (Xml.XmlNode.construct s) := by
  unfold XmlNode.construct Xml.XmlNode.construct
  apply (tags_returns hG hs).bind
  split
  · exact returns_pure _
  · exact returns_pure _

theorem validNodeAt_returns (hs : G s') :
    (XmlNode.validNodeAt ⟨addr, ts⟩ (some s')).Returns
      (Xml.XmlNode.validNodeAt ⟨addr, ts⟩ (some s')) := by
  unfold XmlNode.validNodeAt Xml.XmlNode.validNodeAt
  dsimp only
  split
  · rename_i h
    apply (tags_returns hG hs).bind
    rw [gives_pure, decide_eq_true h.1, decide_eq_true h.2]
    rfl
  · rename_i h
    rw [← Bool.decide_and, decide_eq_false h]
    exact returns_pure false

theorem nodeAt_returns (hs : G s') :
    (XmlNode.nodeAt ⟨addr, ts⟩ (some s')).Returns (Xml.XmlNode.nodeAt ⟨addr, ts⟩ (some s')) := by
  unfold XmlNode.nodeAt Xml.XmlNode.nodeAt
  apply (validNodeAt_returns hG hs).bind
  split
  · exact returns_pure _
  · exact construct_returns hG hs

theorem contentBase_returns (hs : G s) (h : (Xml.Tags.construct s).valid = true) :
    (XmlNode.contentBase (nodeOf s)).Returns (nodeOf s).contentBase :=
  (tagNextToken_returns hG (nextToken_ahead hG hs (start_mem h)).1).bind (returns_pure _)

theorem after_returns (hs : G s) (h : (Xml.Tags.construct s).valid = true) :
    (XmlNode.after (nodeOf s)).Returns (nodeOf s).after := by
  obtain ⟨hname, s', heq, hsuf, -, hs'⟩ := nextToken_ahead hG hs (endTag_mem h)
  have hnext : Ahead G s (nodeOf s).tags.endTag.nextToken := ⟨s', heq, hsuf, hs'⟩
  exact (tagNextToken_returns hG hname).bind (skipNonTagCharacters_returns hG hnext)

theorem next_node_returns (hs : G s) (h : (Xml.Tags.construct s).valid = true) :
    (XmlNode.next (nodeOf s)).Returns (nodeOf s).next := by
  have hafter := after_returns hG hs h
  obtain ⟨s', heq, -, -, hs'⟩ := after_ahead hG hs h
  unfold XmlNode.next Xml.XmlNode.next
  rw [heq] at hafter ⊢
  apply Returns.bind hafter
  exact (nodeAt_returns hG hs').bind (returns_pure _)

/-- The loop of `last` has one round, if nodes of any type are asked for. -/
theorem last_returns (hs : G s) (h : (Xml.Tags.construct s).valid = true) :
    (XmlNode.last (nodeOf s) none).Returns ((nodeOf s).last none) := by
  have hafter := after_returns hG hs h
  obtain ⟨s', heq, hsuf, -, hs'⟩ := after_ahead hG hs h
  rw [last_eq heq hsuf]
  unfold XmlNode.last
  rw [heq] at hafter
  apply hafter.bind
  apply loop_gives_of
  unfold XmlNode.lastBody
  apply (validNodeAt_returns hG hs').bind
  apply Gives.mono (P := (· = .inr (.ok (!(Xml.Tags.construct s').valid))))
  · rw [validNodeAt_iff hsuf]
    cases hv : (Xml.Tags.construct s').valid with
    | false => exact returns_pure _
    | true =>
      apply Returns.bind (nodeAt_returns hG hs')
      rw [nodeAt_eq hsuf, hv]
      exact returns_pure _
  · rintro r rfl
    rfl

/-- The loop of the iteration, with the nodes that were visited before. -/
theorem forEachLoop_returns (hs : G s) (h : (Xml.Tags.construct s).valid = true)
    (hits : List XmlNode) {n : Nat} (hn : s.length ≤ n) :
    (loop (fun st => st.1.addr.length) (XmlNode.forEachBody none) (nodeOf s, hits)).Returns
      ((hits ++ ·) <$> Xml.XmlNode.forEachLoop none n (nodeOf s)) := by
  induction n generalizing s hits with
  | zero =>
    have hnil := level_length_le s
    have hpos := List.length_pos_of_ne_nil (valid_iff_level.mp h)
    omega
  | succ n ih =>
    obtain ⟨s', heq, hsuf, hlt, hs'⟩ := after_ahead hG hs h
    have hlast := last_returns hG hs h
    have hnext := next_node_returns hG hs h
    rw [last_eq heq hsuf] at hlast
    rw [next_eq heq hsuf] at hnext
    rw [forEachLoop_succ heq hsuf]
    apply loop_gives_of
    unfold XmlNode.forEachBody
    apply Returns.bind hlast
    cases hv : (Xml.Tags.construct s').valid with
    | false => exact gives_pure.mpr rfl
    | true =>
      rw [hv, if_pos rfl] at hnext
      apply hnext.bind
      refine gives_pure.mpr ⟨hlt, ?_⟩
      have hrest := ih hs' hv (hits ++ [nodeOf s]) (by omega)
      cases hall : Xml.XmlNode.forEachLoop none n (nodeOf s') with
      | error e =>
        rw [hall] at hrest
        exact hrest
      | ok visited =>
        rw [hall] at hrest
        have hrest : Returns _ (Except.ok (hits ++ [nodeOf s] ++ visited)) := hrest
        rw [List.append_assoc] at hrest
        exact hrest

theorem nextTimes_returns (hs : G s) (h : (Xml.Tags.construct s).valid = true) (i : Nat) :
    (XmlNode.nextTimes i (nodeOf s)).Returns (Xml.XmlNode.nextTimes i (nodeOf s)) := by
  induction i generalizing s with
  | zero => exact returns_pure _
  | succ i ih =>
    obtain ⟨s', heq, hsuf, -, hs'⟩ := after_ahead hG hs h
    have hnext := next_node_returns hG hs h
    unfold XmlNode.nextTimes Xml.XmlNode.nextTimes
    apply Returns.bind hnext
    rw [next_eq heq hsuf]
    cases hv : (Xml.Tags.construct s').valid with
    | false => exact returns_pure _
    | true => exact ih hs' hv

/-- The sub nodes of a node begin at its content. -/
theorem subNode_returns (hs : G s) (h : (Xml.Tags.construct s).valid = true) (i : Nat) :
    (XmlNode.subNode (nodeOf s) i).Returns ((nodeOf s).subNode i) := by
  obtain ⟨-, content, heq, hsuf, -, hcontent⟩ := nextToken_ahead hG hs (start_mem h)
  have hbase : (nodeOf s).contentBase = some content := congrArg Token.start heq
  have hbaseReturns := contentBase_returns hG hs h
  rw [hbase] at hbaseReturns
  unfold XmlNode.subNode Xml.XmlNode.subNode
  split
  · apply hbaseReturns.bind
    rw [hbase]
    apply Returns.bind (nodeAt_returns hG hcontent)
    unfold nodeOf
    rw [nodeAt_eq hsuf]
    cases hv : (Xml.Tags.construct content).valid with
    | false => exact returns_pure _
    | true => exact (nextTimes_returns hG hcontent hv i).bind (returns_pure _)
  · exact returns_pure _

/-- The first sub node of any type takes one round to find. -/
theorem subNodeOf_returns {content : List UInt8} (hs : G s)
    (h : (Xml.Tags.construct s).valid = true) (hnum : (nodeOf s).numSubNodes ≠ 0)
    (heq : (Xml.Tags.construct s).start.nextToken = tok content) (hsuf : content <:+ s)
    (hcontent : G content) (hv : (Xml.Tags.construct content).valid = true) :
    (XmlNode.subNodeOf (nodeOf s) none).Returns (.ok (nodeOf content)) := by
  have hbase : (nodeOf s).contentBase = some content := congrArg Token.start heq
  have hfirst : (XmlNode.nodeAt (nodeOf s) (some content)).Returns (.ok (nodeOf content)) := by
    have hat : (XmlNode.nodeAt (nodeOf s) (some content)).Returns
        ((nodeOf s).nodeAt (some content)) := nodeAt_returns hG hcontent
    unfold nodeOf at hat ⊢
    rwa [nodeAt_eq hsuf, hv] at hat
  have hfind : (XmlNode.find none (.ok (nodeOf content))).Returns (.ok (nodeOf content)) := by
    apply loop_gives_of
    exact gives_pure.mpr rfl
  unfold XmlNode.subNodeOf
  rw [if_pos (Nat.pos_of_ne_zero hnum)]
  apply (contentBase_returns hG hs h).bind
  rw [hbase]
  apply Returns.bind hfirst
  exact hfind.bind (returns_pure _)

/-- The iteration over all sub nodes. -/
theorem forEachSubNode_returns (hs : G s) (h : (Xml.Tags.construct s).valid = true) :
    (XmlNode.forEachSubNode (nodeOf s) none).Returns ((nodeOf s).forEachSubNode none) := by
  obtain ⟨-, content, heq, hsuf, -, hcontent⟩ := nextToken_ahead hG hs (start_mem h)
  have hbase : (nodeOf s).contentBase = some content := congrArg Token.start heq
  rw [forEachSubNode_eq hsuf heq]
  by_cases hzero : (Xml.Tags.construct s).numSubNodes = 0
  · have hnum : (nodeOf s).numSubNodes = 0 := hzero
    have hhas : (XmlNode.hasSubNode (nodeOf s) none).Returns (.ok false) := by
      unfold XmlNode.hasSubNode
      rw [if_pos hnum]
      exact returns_pure _
    rw [if_pos (Or.inl hzero)]
    exact hhas.bind (returns_pure _)
  have hnum : (nodeOf s).numSubNodes ≠ 0 := hzero
  have hhas : (XmlNode.hasSubNode (nodeOf s) none).Returns
      (.ok (Xml.Tags.construct content).valid) := by
    unfold XmlNode.hasSubNode
    rw [if_neg hnum]
    apply (contentBase_returns hG hs h).bind
    rw [hbase]
    apply Returns.bind (validNodeAt_returns hG hcontent)
    rw [validNodeAt_iff hsuf]
    cases (Xml.Tags.construct content).valid with
    | false => exact returns_pure _
    | true => exact returns_pure _
  apply Returns.bind hhas
  cases hv : (Xml.Tags.construct content).valid with
  | false =>
    rw [if_pos (Or.inr rfl)]
    exact returns_pure _
  | true =>
    rw [if_neg (not_or.mpr ⟨hzero, by decide⟩)]
    apply (subNodeOf_returns hG hs h hnum heq hsuf hcontent hv).bind
    have hloop := forEachLoop_returns hG hcontent hv [] hsuf.length_le
    have hmap : ([] ++ ·) <$> Xml.XmlNode.forEachLoop none s.length (nodeOf content) =
        Xml.XmlNode.forEachLoop none s.length (nodeOf content) := id_map _
    rw [hmap] at hloop
    exact hloop

theorem contentSize_returns (hs : G s) (h : (Xml.Tags.construct s).valid = true) :
    (XmlNode.contentSize (nodeOf s)).Returns (nodeOf s).contentSize := by
  unfold XmlNode.contentSize Xml.XmlNode.contentSize
  split
  · exact returns_pure _
  · exact (contentBase_returns hG hs h).bind (returns_pure _)

theorem decodedContent_returns (hs : G s) (h : (Xml.Tags.construct s).valid = true)
    (dstLen : Nat) : (XmlNode.decodedContent (nodeOf s) dstLen).Returns
      ((nodeOf s).decodedContent dstLen) :=
  (contentBase_returns hG hs h).bind ((contentSize_returns hG hs h).bind (returns_pure _))

/-- The loop of the iteration over attributes, with those that were visited
before. -/
theorem attributesFrom_returns {t : Token} (ht : Ahead G s t)
    (hv : (Xml.XmlAttribute.tokens t).valid = true) (calls : List XmlAttribute) {n : Nat}
    (hn : (rest t).length ≤ n) :
    (loop (fun st => left st.1.name) XmlNode.forEachAttributeBody
      (Xml.XmlAttribute.tokens t, calls)).Returns
        (.ok (calls ++ Xml.XmlNode.attributesFrom n t)) := by
  have ha := ht.tokens hG
  obtain ⟨hnext, hlt⟩ := ha.nextToken hG hv
  have hle := (ht.self.tokens hG).name.suffix.length_le
  induction n generalizing t calls with
  | zero => omega
  | succ n ih =>
    rw [Xml.XmlNode.attributesFrom, if_pos hv]
    apply loop_gives_of
    unfold XmlNode.forEachAttributeBody
    apply (attributeNext_returns hG ha).bind
    apply (validAt_returns hG hnext).bind
    cases hv' : (Xml.XmlAttribute.tokens (Xml.XmlAttribute.tokens t).nextToken).valid with
    | false =>
      rw [attributesFrom_of_invalid hv']
      exact gives_pure.mpr rfl
    | true =>
      have hnext' := hnext.tokens hG
      obtain ⟨hlater, hlt'⟩ := hnext'.nextToken hG hv'
      have hle' := (hnext.self.tokens hG).name.suffix.length_le
      have hconstruct := attribute_returns hG hnext
      rw [construct_of_valid hv'] at hconstruct
      apply hconstruct.bind
      refine gives_pure.mpr ⟨hle'.trans_lt hlt, ?_⟩
      have hrest := ih hnext hv' (calls ++ [Xml.XmlAttribute.tokens t]) (by omega) hnext' hlater
        hlt' hle'
      rw [List.append_assoc] at hrest
      exact hrest

/-- The iteration over the attributes of a node. -/
theorem forEachAttribute_returns (hs : G s) (h : (Xml.Tags.construct s).valid = true) :
    (XmlNode.forEachAttribute (nodeOf s)).Returns (.ok (nodeOf s).forEachAttribute) := by
  have hname : Ahead G s (nodeOf s).tags.start.name := (nextToken_ahead hG hs (start_mem h)).1
  have hfirst := next_returns hG hname
  have hahead := hname.next hG
  unfold XmlNode.forEachAttribute Tag.hasAttribute Tag.attribute' Xml.XmlNode.forEachAttribute
  apply Returns.bind (hfirst.bind (validAt_returns hG hahead))
  cases hv : (Xml.XmlAttribute.tokens (Xml.next (nodeOf s).tags.start.name)).valid with
  | false =>
    rw [attributesFrom_of_invalid hv]
    exact returns_pure _
  | true =>
    have hconstruct := attribute_returns hG hahead
    rw [construct_of_valid hv] at hconstruct
    apply Returns.bind (hfirst.bind hconstruct)
    exact attributesFrom_returns hG hahead hv [] le_rfl

end Nodes

/-! ## The sub nodes that are counted and visited -/

/-- A node with two sub nodes. -/
def twoSubNodes : List UInt8 :=
  bytes ['<', 'a', '>', '<', 'b', '>', '<', '/', 'b', '>', '<', 'c', '/', '>', '<', '/', 'a', '>']

/-- A node with a sub node that is closed by another name. -/
def foreignEndTag : List UInt8 :=
  bytes ['<', 'a', '>', '<', 'b', '>', '<', '/', 'c', '>', '<', '/', 'a', '>']

end Genode.Util.Xml.Looped
