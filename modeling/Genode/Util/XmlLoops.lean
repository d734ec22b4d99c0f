import Genode.Util.XmlNode
import Genode.Util.TokenLoops

/-!
# XmlLoops — the loops of the XML parser

`util/xml_node.h` again, over the tokenizer with its 32-bit indices. No loop
has a bound for its rounds: whether it ends is a statement about the
model. What a loop over tokens has left is the text from the token on,
and a loop over nodes has the text from the start of the node on.
-/

namespace Genode.Util.Xml.Looped

open Lib Ascii Looping Util.Looped

/-! ## Tokens -/

def token (s : List UInt8) : Looping Token := Util.Looped.token xmlIdentifier s

def typeOf (t : Token) : Looping TokenType := Util.Looped.typeOf xmlIdentifier t

def next (t : Token) : Looping Token := Util.Looped.next xmlIdentifier t

def eatWhitespace (t : Token) : Looping Token := Util.Looped.eatWhitespace xmlIdentifier t

def nextAfter (t : Token) (delim : List UInt8) : Looping Token :=
  Util.Looped.nextAfter xmlIdentifier t delim

/-! ## Attributes -/

namespace XmlAttribute

def tokens (t : Token) : Looping XmlAttribute := do
  let name ← eatWhitespace t
  let equals ← eatWhitespace (← next name)
  return { name, equals, value := ← eatWhitespace (← next equals) }

/-- `Tokens::valid`. -/
def valid (a : XmlAttribute) : Looping Bool := do
  if (← typeOf a.name) = .ident ∧ char a.equals 0 = equalSign then
    return decide ((← typeOf a.value) = .string)
  else return false

/-- `_valid`. -/
def validAt (t : Token) : Looping Bool := do valid (← tokens t)

/-- The constructor. -/
def construct (t : Token) : Looping (Except XmlError XmlAttribute) := do
  let a ← tokens t
  if (← typeOf a.name) ≠ .ident then return .error .nonexistentAttribute
  else if !(← valid a) then return .error .invalidSyntax
  else return .ok a

def nextToken (a : XmlAttribute) : Looping Token := next a.value

end XmlAttribute

/-! ## Tags -/

namespace Tag

/-- The body of the loop that skips attributes to find the tag delimiter. An
attribute that is valid can be constructed. -/
def skipBody (t : Token) : Looping (Token ⊕ Token) := do
  let a ← XmlAttribute.tokens t
  if ← XmlAttribute.valid a then return .inl (← XmlAttribute.nextToken a) else return .inr t

/-- An end tag has no attributes. -/
def skipAttributes (closing : Bool) (t : Token) : Looping Token :=
  if closing then return t else loop left skipBody t

/-- The name comes behind the '/' of an end tag. -/
def nameFrom (closing : Bool) (second : Token) : Looping Token :=
  if closing then next second else return second

/-- The part of the constructor that comes after the name. -/
def constructFrom (start name : Token) (closing : Bool) : Looping Tag := do
  let delimiter ← eatWhitespace (← skipAttributes closing (← next name))
  if char delimiter 0 = slash then
    -- if a '/' was already at the start, the tag is invalid
    if closing then return ⟨start, name, .invalid⟩
    else if char (← next delimiter) 0 ≠ gt then return ⟨start, name, .invalid⟩
    else return ⟨start, name, .empty⟩
  else if char delimiter 0 ≠ gt then return ⟨start, name, .invalid⟩
  else return ⟨start, name, if closing then .end' else .start⟩

/-- The constructor. -/
def construct (start : Token) : Looping Tag := do
  if char start 0 ≠ lt then return ⟨start, .null, .invalid⟩
  else
    let second ← next start
    let closing := decide (char second 0 = slash)
    if (← typeOf second) ≠ .ident ∧ closing = false then return ⟨start, .null, .invalid⟩
    else
      let name ← nameFrom closing second
      if (← typeOf name) ≠ .ident then return ⟨start, name, .invalid⟩
      else constructFrom start name closing

/-- The body of the loop that searches for the closing delimiter. -/
def delimiterBody (t : Token) : Looping (Token ⊕ Token) :=
  if t.valid ∧ char t 0 ≠ gt then do return .inl (← next t) else return .inr t

def nextToken (tag : Tag) : Looping Token := do next (← loop left delimiterBody tag.name)

def hasAttribute (tag : Tag) : Looping Bool := do XmlAttribute.validAt (← next tag.name)

def attribute' (tag : Tag) : Looping (Except XmlError XmlAttribute) := do
  XmlAttribute.construct (← next tag.name)

end Tag

/-- The constructor of `Comment`. -/
def Comment.construct (t : Token) : Looping Comment := do
  if !(t.matches' commentStart).val then return ⟨.null, false⟩
  else
    -- skip four single characters
    let t ← next (← next (← next (← next t)))
    let after ← nextAfter t commentEnd
    return ⟨after, after.valid⟩

/-! ## The tags of a node -/

/-- A result of type `int`; an overflow, undefined in the code, wraps around here. -/
def int (n : Int) : Int := n.bmod (2 ^ 32)

/-- The state of the loop of `_search_end_tag`. -/
structure Search where
  depth : Int
  count : Int
  curr : Token
  deriving DecidableEq, Repr

namespace Search

variable (st : Search) (tag : Tag)

/-- Count sub nodes at depth 1. -/
def countWith : Int := if st.depth = 1 ∧ tag.node then int (st.count + 1) else st.count

/-- Keep track of the current depth. -/
def depthWith : Int :=
  int (int (st.depth + if tag.type = .start then 1 else 0) - if tag.type = .end' then 1 else 0)

end Search

/-- The rest of a round of `_search_end_tag`, at a tag. -/
def searchTag (startTag tag : Tag) (st : Search) : Looping (Search ⊕ (Tag × Int)) := do
  -- within sub nodes, continue after current token
  if 0 < st.depthWith tag then
    return .inl ⟨st.depthWith tag, st.countWith tag, ← Tag.nextToken tag⟩
  else if startTag.name.len ≠ tag.name.len ∨
      (strcmpEq true (rest startTag.name) (chars tag.name) 0).val = false then
    return .inr (.null, st.countWith tag)
  else return .inr (tag, st.countWith tag)

/-- The body of the loop of `_search_end_tag`. -/
def searchBody (startTag : Tag) (st : Search) : Looping (Search ⊕ (Tag × Int)) := do
  if (← typeOf st.curr) = .end' then return .inr (.null, st.count)
  else
    -- eat XML comment
    let comment ← Comment.construct st.curr
    if comment.valid then return .inl { st with curr := comment.next }
    else
      let tag ← Tag.construct st.curr
      -- skip all tokens that are no tags
      if tag.type = .invalid then return .inl { st with curr := ← next st.curr }
      else searchTag startTag tag st

/-- `_search_end_tag`, with the number of sub nodes. -/
def searchEndTag (startTag : Tag) : Looping (Tag × Int) := do
  if startTag.type ≠ .start then return (startTag, 0)
  else
    let curr ← Tag.nextToken startTag
    loop (fun st => left st.curr) (searchBody startTag) ⟨1, 0, curr⟩

/-- The body of the loop of `skip_non_tag_characters`. -/
def skipBody (t : Token) : Looping (Token ⊕ Token) := do
  let t ← eatWhitespace t
  let comment ← Comment.construct t
  if comment.valid then return .inl comment.next
  else
    let tag ← Tag.construct t
    -- skip token if it is valid but does not start a tag
    if tag.type = .invalid ∧ tag.token.valid then return .inl (← next t) else return .inr t

def skipNonTagCharacters (t : Token) : Looping Token := loop left skipBody t

/-- The constructor of `Tags`. -/
def Tags.construct (s : List UInt8) : Looping Tags := do
  let t ← token s
  let start ← Tag.construct (← skipNonTagCharacters t)
  let found ← searchEndTag start
  return { numSubNodes := found.2.toNat, start, endTag := found.1 }

/-! ## Nodes -/

namespace XmlNode

/-- The constructor. -/
def construct (s : List UInt8) : Looping (Except XmlError XmlNode) := do
  let tags ← Tags.construct s
  if !tags.valid then return .error .invalidSyntax else return .ok ⟨s, tags⟩

variable (node : XmlNode)

/-- `_valid_node_at`. -/
def validNodeAt : Option (List UInt8) → Looping Bool
  | none => return false
  | some at' =>
    if at'.length ≤ node.addr.length ∧ node.addr.length - at'.length < node.addr.length then do
      return (← Tags.construct at').valid
    else return false

/-- `_node_at`. -/
def nodeAt (at' : Option (List UInt8)) : Looping (Except XmlError XmlNode) := do
  if !(← validNodeAt node at') then return .error .nonexistentSubNode
  else construct (at'.getD [])

/-- `_content_base`. -/
def contentBase : Looping (Option (List UInt8)) := do
  return (← Tag.nextToken node.tags.start).start

/-- `content_size`. -/
def contentSize : Looping Nat := do
  if node.tags.start.type = .empty then return 0
  else return ((← contentBase node).getD []).length - (rest node.tags.endTag.token).length

/-- `decoded_content` for a destination of `dstLen` bytes. -/
def decodedContent (dstLen : Nat) : Looping (List UInt8) := do
  let base ← contentBase node
  let size ← contentSize node
  return decode dstLen ((base.getD []).take size)

/-- The token that follows the node and all that is no tag. -/
def after : Looping Token := do skipNonTagCharacters (← Tag.nextToken node.tags.endTag)

/-- `next` without a type. -/
def next : Looping (Except XmlError XmlNode) := do
  return catchInvalidSyntax (← nodeAt node (← after node).start)

/-- A round that ends with the next node. -/
def onward {α : Type} : Looping (XmlNode ⊕ Except XmlError α) := do
  match ← next node with
  | .ok node' => return .inl node'
  | .error e => return .inr (.error e)

/-- The body of the loops that look for a node of a type; without a type every
node is one. -/
def findBody (type : Option (List UInt8)) (node : XmlNode) :
    Looping (XmlNode ⊕ Except XmlError XmlNode) :=
  if type.all node.hasType then return .inr (.ok node) else onward node

/-- The loop that looks for a node of a type, from a node on. -/
def find (type : Option (List UInt8)) (first : Except XmlError XmlNode) :
    Looping (Except XmlError XmlNode) :=
  match first with
  | .ok node => loop (fun node => node.addr.length) (findBody type) node
  | .error e => return .error e

/-- `next` with a type. -/
def nextOf (type : Option (List UInt8)) : Looping (Except XmlError XmlNode) := do
  find type (← next node)

/-- The body of the loop of `last`. -/
def lastBody (type : Option (List UInt8)) (t : Token) :
    Looping (Token ⊕ Except XmlError Bool) := do
  if !(← validNodeAt node t.start) then return .inr (.ok true)
  else
    match ← nodeAt node t.start with
    | .error e => return .inr (.error e)
    | .ok other =>
      if type.all other.hasType then return .inr (.ok false) else return .inl (← after other)

def last (type : Option (List UInt8)) : Looping (Except XmlError Bool) := do
  loop left (lastBody node type) (← after node)

/-- The loop of `sub_node` with an index. -/
def nextTimes : Nat → XmlNode → Looping (Except XmlError XmlNode)
  | 0, node => return .ok node
  | n + 1, node => do
    match ← next node with
    | .error e => return .error e
    | .ok node' => nextTimes n node'

/-- `sub_node` with an index. -/
def subNode (idx : Nat) : Looping (Except XmlError XmlNode) := do
  if 0 < node.numSubNodes then
    match ← nodeAt node (← contentBase node) with
    | .error e => return catchInvalidSyntax (.error e)
    | .ok first => return catchInvalidSyntax (← nextTimes idx first)
  else return .error .nonexistentSubNode

/-- `sub_node` with a type. -/
def subNodeOf (type : Option (List UInt8)) : Looping (Except XmlError XmlNode) := do
  if 0 < node.numSubNodes then
    return catchAll (← find type (← nodeAt node (← contentBase node)))
  else return .error .nonexistentSubNode

/-- The body of the loop of `has_sub_node`. -/
def hasBody (type : List UInt8) (node : XmlNode) : Looping (XmlNode ⊕ Except XmlError Bool) := do
  if node.hasType type then return .inr (.ok true)
  else
    match ← last node none with
    | .error e => return .inr (.error e)
    | .ok true => return .inr (.ok false)
    | .ok false => onward node

def hasSubNode (type : Option (List UInt8)) : Looping (Except XmlError Bool) := do
  if node.numSubNodes = 0 then return .ok false
  else if !(← validNodeAt node (← contentBase node)) then return .ok false
  else
    match type with
    | none => return .ok true
    | some type =>
      match ← nodeAt node (← contentBase node) with
      | .error e => return .error e
      | .ok first => loop (fun node => node.addr.length) (hasBody type) first

/-- The body of the loop of `for_each_sub_node`, with the nodes that the functor
has been called for. -/
def forEachBody (type : Option (List UInt8)) (st : XmlNode × List XmlNode) :
    Looping ((XmlNode × List XmlNode) ⊕ Except XmlError (List XmlNode)) := do
  let hits := if type.all st.1.hasType then st.2 ++ [st.1] else st.2
  match ← last st.1 none with
  | .error e => return .inr (.error e)
  | .ok true => return .inr (.ok hits)
  | .ok false =>
    match ← next st.1 with
    | .error e => return .inr (.error e)
    | .ok node' => return .inl (node', hits)

/-- The nodes that `for_each_sub_node` calls the functor for. -/
def forEachSubNode (type : Option (List UInt8)) : Looping (Except XmlError (List XmlNode)) := do
  match ← hasSubNode node type with
  | .error e => return .error e
  | .ok false => return .ok []
  | .ok true =>
    match ← subNodeOf node type with
    | .error e => return .error e
    | .ok first => loop (fun st => st.1.addr.length) (forEachBody type) (first, [])

/-- The body of the loop of `attribute` with a type. -/
def attributeBody (type : List UInt8) (a : XmlAttribute) :
    Looping (XmlAttribute ⊕ Except XmlError XmlAttribute) := do
  if a.hasType type then return .inr (.ok a)
  else
    match ← XmlAttribute.construct (← XmlAttribute.nextToken a) with
    | .error e => return .inr (.error e)
    | .ok a' => return .inl a'

/-- `attribute` with a type. -/
def attribute' (type : List UInt8) : Looping (Except XmlError XmlAttribute) := do
  match ← Tag.attribute' node.tags.start with
  | .error e => return .error e
  | .ok a => loop (fun a => left a.name) (attributeBody type) a

/-- The body of the loop of `for_each_attribute`, with the attributes that the
functor has been called for. -/
def forEachAttributeBody (st : XmlAttribute × List XmlAttribute) :
    Looping ((XmlAttribute × List XmlAttribute) ⊕ Except XmlError (List XmlAttribute)) := do
  let calls := st.2 ++ [st.1]
  let next ← XmlAttribute.nextToken st.1
  if !(← XmlAttribute.validAt next) then return .inr (.ok calls)
  else
    match ← XmlAttribute.construct next with
    | .error e => return .inr (.error e)
    | .ok a => return .inl (a, calls)

/-- The attributes that `for_each_attribute` calls the functor for. -/
def forEachAttribute : Looping (Except XmlError (List XmlAttribute)) := do
  if !(← Tag.hasAttribute node.tags.start) then return .ok []
  else
    match ← Tag.attribute' node.tags.start with
    | .error e => return .error e
    | .ok a => loop (fun st => left st.1.name) forEachAttributeBody (a, [])

end XmlNode

end Genode.Util.Xml.Looped
