import Genode.Util.XmlRoundTrip
import Genode.Util.XmlSubNodes

/-!
# XmlReadBack — generated text in the parser with 32-bit indices

The parser of the code reads what the generator has written as long as no
token makes an index wrap around. A name of 4 GiB is too long: the generator
writes it, and the parser never comes to its end.
-/

namespace Genode.Util.Xml.Looped

open Lib Ascii Looping Util.Looped

/-- What the interface of the node tells is the tree. -/
inductive Reads : XmlNode → Tree → Prop
  | mk {m : XmlNode} {name : List UInt8} {as : List XmlAttribute}
      {attributes : List (List UInt8 × List UInt8)} {subNodes : List Tree}
      {content : Option (List UInt8)} {visited : List XmlNode} :
      (∀ q, m.hasType q = true ↔ q = name) →
      (XmlNode.forEachAttribute m).Returns (.ok as) →
      as.map (fun a => (chars a.name, a.rawValue)) = attributes →
      m.numSubNodes = subNodes.length →
      (XmlNode.forEachSubNode m none).Returns (.ok visited) →
      List.Forall₂ Reads visited subNodes →
      (∀ c, content = some c → ∀ n, c.length ≤ n → (XmlNode.decodedContent m n).Returns c) →
      Reads m (.node name attributes subNodes content)

/-- Where nothing wraps around, the tree is read with the indices of the code, too. -/
theorem reads_of_reads {G : List UInt8 → Prop} (hG : Closed G) {s : List UInt8} {t : Tree}
    (hs : G s) (hv : (Xml.Tags.construct s).valid = true) (h : Xml.Reads (nodeOf s) t) :
    Reads (nodeOf s) t := by
  induction hn : s.length using Nat.strongRecOn generalizing s t with
  | _ n ih =>
    cases h with
    | mk hname hattributes hnum hvisited hall hcontent =>
      have hsub := forEachSubNode_ahead hG hs hv hvisited
      have hforEach := forEachSubNode_returns hG hs hv
      rw [hvisited] at hforEach
      refine .mk hname (forEachAttribute_returns hG hs hv) hattributes hnum hforEach ?_ ?_
      · apply List.Forall₂.imp _ ((List.forall₂_and_left _ _).mpr ⟨hsub, hall⟩)
        rintro m t ⟨⟨s', rfl, hv', hlt, hs'⟩, hm⟩
        exact ih s'.length (hn ▸ hlt) hs' hv' hm rfl
      · intro c hc k hk
        have hreturns := decodedContent_returns hG hs hv k
        rwa [hcontent c hc k hk] at hreturns

/-- A node with an attribute that is inserted behind a sub node with content. -/
def smallScript : Script :=
  .node (bytes ['b']) (.appendSanitized (bytes ['<', '"']) .done)
    (.attr (bytes ['k']) (bytes ['<', 'v', '>']) .done)

section LongNames

variable {name r : List UInt8}

/-- The constructor ends on a text that begins with a start tag only if the name
of the tag is shorter than 4 GiB. -/
theorem length_lt_of_ends (hname : isIdentifier name = true)
    (h : (XmlNode.construct (lt :: (name ++ r))).Ends) : name.length < 2 ^ 32 := by
  obtain ⟨c, cs, rfl⟩ : ∃ c cs, name = c :: cs := by
    cases name with
    | nil => cases hname
    | cons c cs => exact ⟨c, cs, rfl⟩
  have hne : c ≠ 0x21 := charAt_identifier_ne hname (by decide)
  simp only [isIdentifier, Bool.and_eq_true] at hname
  have hlt : Narrow xmlIdentifier (lt :: (c :: cs ++ r)) :=
    narrow_of_single (by decide) (by decide) (by decide) (by decide)
  have htoken : (token (lt :: (c :: cs ++ r))).Returns (tok (lt :: (c :: cs ++ r))) :=
    Util.Looped.token_returns lawful_xmlIdentifier hlt
  have htype : lexType xmlIdentifier (lt :: (c :: cs ++ r)) = .singlechar := lexType_of_lt rfl
  have heat : (eatWhitespace (tok (lt :: (c :: cs ++ r)))).Returns
      (Xml.eatWhitespace (tok (lt :: (c :: cs ++ r)))) := by
    apply Util.Looped.eatWhitespace_returns lawful_xmlIdentifier hlt
    intro hw
    rw [htype] at hw
    cases hw
  rw [eatWhitespace_tok, htype, if_neg (by decide)] at heat
  -- the constructor of the tag is the first to look at the name
  have htags : (Tags.construct (lt :: (c :: cs ++ r))).Ends := Ends.of_bind h
  have hskip : (skipNonTagCharacters (tok (lt :: (c :: cs ++ r)))).Ends :=
    Ends.of_bind (htoken.ends_of_bind htags)
  have hcomment : (Comment.construct (tok (lt :: (c :: cs ++ r)))).Returns ⟨.null, false⟩ := by
    unfold Comment.construct
    rw [List.cons_append, not_commentStart hne]
    exact returns_pure _
  have htag : (Tag.construct (tok (lt :: (c :: cs ++ r)))).Ends :=
    Ends.of_bind (hcomment.ends_of_bind (heat.ends_of_bind (Ends.of_loop hskip)))
  have hsecond : (token (c :: cs ++ r)).Ends := by
    unfold Tag.construct at htag
    have hchar : char (tok (lt :: (c :: cs ++ r))) 0 = lt := rfl
    rw [if_neg (not_not.mpr hchar)] at htag
    exact Ends.of_bind htag
  have hshort := (short_of_ends hsecond).ident hname.1
  have hdrop : (c :: cs ++ r).drop 1 = cs ++ r := rfl
  rw [hdrop, List.takeWhile_append_of_pos (by simpa using hname.2), List.length_append] at hshort
  rw [List.length_cons]
  omega

theorem append_of_lt {b : OutBuffer} (h : b.used < b.capacity) (m : Memory) (c : UInt8) :
    ∃ m', b.append m c = some (⟨b.dst, b.capacity, b.used + 1⟩, m') := by
  unfold OutBuffer.append OutBuffer.advance
  rw [if_neg (by omega)]
  exact ⟨_, rfl⟩

theorem appendBytes_of_le {b : OutBuffer} (src : List UInt8) (m : Memory)
    (h : b.used + src.length ≤ b.capacity) :
    ∃ m', b.appendBytes m src = some (⟨b.dst, b.capacity, b.used + src.length⟩, m') := by
  induction src generalizing b m with
  | nil => exact ⟨m, rfl⟩
  | cons c src ih =>
    rw [List.length_cons] at h
    obtain ⟨m₁, h₁⟩ := append_of_lt (b := b) (by omega) m c
    obtain ⟨m₂, h₂⟩ := ih (b := ⟨b.dst, b.capacity, b.used + 1⟩) m₁ (by
      show b.used + 1 + src.length ≤ b.capacity
      omega)
    refine ⟨m₂, ?_⟩
    rw [OutBuffer.appendBytes, h₁]
    show OutBuffer.appendBytes _ m₁ src = _
    rw [h₂, List.length_cons]
    simp only [Nat.add_assoc, Nat.add_comm 1]

/-- A node without attributes and content takes five bytes besides its name. -/
theorem generate_done {dst dstLen : Nat} (hdst : dst ≠ 0) (name : List UInt8) (m : Memory)
    (hlen : name.length + 5 ≤ dstLen) :
    ∃ m', generate dst dstLen name .done m = some (name.length + 5, m') := by
  obtain ⟨m₁, h₁⟩ := append_of_lt (b := ⟨dst, dstLen, 0⟩) (by show 0 < dstLen; omega) m lt
  obtain ⟨m₂, h₂⟩ := appendBytes_of_le (b := ⟨dst, dstLen, 1⟩) name m₁
    (by show 1 + name.length ≤ dstLen; omega)
  obtain ⟨m₃, h₃⟩ := appendBytes_of_le (b := ⟨dst, dstLen, 1 + name.length⟩) [slash, gt] m₂
    (by show 1 + name.length + 2 ≤ dstLen; omega)
  obtain ⟨m₄, h₄⟩ := append_of_lt (b := ⟨dst, dstLen, 1 + name.length + 2⟩)
    (by show 1 + name.length + 2 < dstLen; omega) m₃ 0
  obtain ⟨m₅, h₅⟩ := append_of_lt (b := ⟨dst, dstLen, 1 + name.length + 2⟩)
    (by show 1 + name.length + 2 < dstLen; omega) m₄ newline
  obtain ⟨m₆, h₆⟩ := append_of_lt (b := ⟨dst, dstLen, 1 + name.length + 2 + 1⟩)
    (by show 1 + name.length + 2 + 1 < dstLen; omega) m₅ 0
  have hstart : Node.start 0 name ⟨dst, dstLen, 0⟩ m =
      some (⟨0, ⟨dst, dstLen, 1 + name.length⟩, false, false, 1 + name.length⟩, m₂) := by
    simp only [Node.start, OutBuffer.appendTimes, List.replicate_zero, OutBuffer.appendBytes,
      Option.bind_eq_bind, Option.bind_some, h₁, h₂]
    rfl
  have hfinish : Node.finish ⟨0, ⟨dst, dstLen, 1 + name.length⟩, false, false, 1 + name.length⟩
      m₂ name = some (⟨dst, dstLen, 1 + name.length + 2⟩, m₃) := h₃
  have hused : 1 + name.length + 2 + 1 + 1 = name.length + 5 := by omega
  refine ⟨m₆, ?_⟩
  simp only [generate, if_neg hdst, hstart, Script.run, hfinish, h₄, h₅, h₆,
    Option.bind_eq_bind, Option.bind_some, hused]
  rfl

/-- The text of a node with a name of 4 GiB or more is written, but the parser
does not come to the end of the name. -/
theorem generated_endless {n : Nat} (hn : 2 ^ 32 ≤ n) :
    isIdentifier (List.replicate n 0x61) = true ∧
      ∃ used m', generate 1 (n + 5) (List.replicate n 0x61) .done (fun _ => 0) =
          some (used, m') ∧
        ¬ (XmlNode.construct (m'.slice 1 used)).Ends := by
  have hident : isIdentifier (List.replicate n 0x61) = true := by
    obtain ⟨k, rfl⟩ := Nat.exists_eq_add_of_lt (Nat.lt_of_lt_of_le (Nat.two_pow_pos 32) hn)
    rw [Nat.zero_add, List.replicate_succ, isIdentifier, List.all_replicate]
    have hone : xmlIdentifier.identifierChar 0x61 0 = true ∧
        xmlIdentifier.identifierChar 0x61 1 = true := by decide
    simp [hone]
  refine ⟨hident, ?_⟩
  have hlen : (List.replicate n (0x61 : UInt8)).length + 5 ≤ n + 5 := by
    rw [List.length_replicate]
  obtain ⟨m', hgen⟩ := generate_done Nat.one_ne_zero _ (fun _ => 0) hlen
  refine ⟨_, m', hgen, ?_⟩
  have hcore : coreText 0 (List.replicate n 0x61) .done ++ [newline, 0] =
      lt :: (List.replicate n 0x61 ++ [slash, gt, newline, 0]) := coreText_of_no_content rfl _
  rw [generate_text Nat.one_ne_zero hgen, nodeText_eq]
  intro hends
  have hlt := length_lt_of_ends hident (hcore ▸ hends)
  rw [List.length_replicate] at hlt
  omega

end LongNames

end Genode.Util.Xml.Looped
