import Genode.Util.Token

/-!
# XmlNode — the XML parser

`util/xml_node.h`. A pointer into the XML data is the text from there on up
to the end of the buffer, so the remaining length comes with it. Only the
results of the tokenizer matter here. The loops have a bound for their
rounds, the length of the text; in every round the text becomes shorter.
The indices of the tokenizer and the counters for depth and sub nodes are
natural numbers here. `XmlLoops` has them as in the code, and
`XmlReturns` tells where both agree.
-/

namespace Genode.Util.Xml

open Lib Ascii

/-! ## Tokens -/

def lt : UInt8 := 0x3c

def gt : UInt8 := 0x3e

def slash : UInt8 := 0x2f

def equalSign : UInt8 := 0x3d

/-- `Xml_attribute::Token`. -/
def tokenAt (s : List UInt8) : Token := (Token.construct xmlIdentifier s).val

def next (t : Token) : Token := (t.next xmlIdentifier).val

def eatWhitespace (t : Token) : Token := (t.eatWhitespace xmlIdentifier).val

def nextAfter (t : Token) (delim : List UInt8) : Token := (t.nextAfter xmlIdentifier delim).val

def typeOf (t : Token) : TokenType := (t.type xmlIdentifier).val

def char (t : Token) (i : Nat) : UInt8 := (t.at' i).val

/-- The text from the start of a token on. -/
def rest (t : Token) : List UInt8 := t.start.getD []

/-- The characters of a token. -/
def chars (t : Token) : List UInt8 := (rest t).take t.len

/-- Compare a name with the characters of a token. -/
def hasChars (name : List UInt8) (t : Token) : Bool :=
  decide (name.length = t.len) && (strcmpEq true name (chars t) 0).val

inductive XmlError where
  | invalidSyntax
  | nonexistentAttribute
  | nonexistentSubNode
  deriving DecidableEq, Repr

/-- A handler that turns invalid syntax into a missing sub node. -/
def catchInvalidSyntax {α : Type} : Except XmlError α → Except XmlError α
  | .error .invalidSyntax => .error .nonexistentSubNode
  | r => r

/-- A handler that turns every exception into a missing sub node. -/
def catchAll {α : Type} : Except XmlError α → Except XmlError α
  | .error _ => .error .nonexistentSubNode
  | r => r

/-! ## Attributes -/

/-- `Xml_attribute::Tokens`. -/
structure XmlAttribute where
  name : Token
  equals : Token
  value : Token
  deriving DecidableEq, Repr

namespace XmlAttribute

def tokens (t : Token) : XmlAttribute :=
  let name := eatWhitespace t
  let equals := eatWhitespace (next name)
  { name, equals, value := eatWhitespace (next equals) }

def valid (a : XmlAttribute) : Bool :=
  decide (typeOf a.name = .ident) && decide (char a.equals 0 = equalSign) &&
    decide (typeOf a.value = .string)

/-- The constructor. -/
def construct (t : Token) : Except XmlError XmlAttribute :=
  if typeOf (tokens t).name ≠ .ident then throw .nonexistentAttribute
  else if !(tokens t).valid then throw .invalidSyntax
  else return tokens t

def nextToken (a : XmlAttribute) : Token := next a.value

def hasType (a : XmlAttribute) (name : List UInt8) : Bool := hasChars name a.name

/-- `with_raw_value`; the value without the quotation marks. -/
def rawValue (a : XmlAttribute) : List UInt8 := ((rest a.value).drop 1).take (a.value.len - 2)

end XmlAttribute

/-! ## Tags -/

/-- `Tag::Type`. -/
inductive TagType where
  | start
  | end'
  | empty
  | invalid
  deriving DecidableEq, Repr

structure Tag where
  token : Token
  name : Token
  type : TagType
  deriving DecidableEq, Repr

/-- Skip attributes to find the tag delimiter. -/
def skipAttributes : Nat → Token → Token
  | 0, t => t
  | n + 1, t =>
    if (XmlAttribute.tokens t).valid then skipAttributes n (XmlAttribute.tokens t).nextToken
    else t

/-- Search for the closing delimiter. -/
def skipToDelimiter : Nat → Token → Token
  | 0, t => t
  | n + 1, t => if t.valid && decide (char t 0 ≠ gt) then skipToDelimiter n (next t) else t

namespace Tag

/-- The default constructor. -/
def null : Tag := ⟨.null, .null, .invalid⟩

/-- The constructor. -/
def construct (start : Token) : Tag :=
  if char start 0 ≠ lt then ⟨start, .null, .invalid⟩
  else
    let closing := decide (char (next start) 0 = slash)
    if typeOf (next start) ≠ .ident && !closing then ⟨start, .null, .invalid⟩
    else
      let name := if closing then next (next start) else next start
      if typeOf name ≠ .ident then ⟨start, name, .invalid⟩
      else
        -- an end tag has no attributes
        let delimiter := eatWhitespace
          (if closing then next name else skipAttributes (rest (next name)).length (next name))
        if char delimiter 0 = slash then
          if closing then ⟨start, name, .invalid⟩
          else if char (next delimiter) 0 ≠ gt then ⟨start, name, .invalid⟩
          else ⟨start, name, .empty⟩
        else if char delimiter 0 ≠ gt then ⟨start, name, .invalid⟩
        else ⟨start, name, if closing then .end' else .start⟩

/-- The tag is the start of a node. -/
def node (t : Tag) : Bool := decide (t.type = .start) || decide (t.type = .empty)

def nextToken (t : Tag) : Token := next (skipToDelimiter (rest t.name).length t.name)

end Tag

structure Comment where
  next : Token
  valid : Bool
  deriving DecidableEq, Repr

def commentStart : List UInt8 := bytes ['<', '!', '-', '-']

def commentEnd : List UInt8 := bytes ['-', '-', '>']

/-- The constructor of `Comment`. -/
def Comment.construct (t : Token) : Comment :=
  if !(t.matches' commentStart).val then ⟨.null, false⟩
  else
    -- skip four single characters
    let t := nextAfter (Xml.next (Xml.next (Xml.next (Xml.next t)))) commentEnd
    ⟨t, t.valid⟩

/-! ## Decoding of characters -/

/-- The table of `Decoded_character::translate`. -/
def translations : List (UInt8 × List UInt8) :=
  [(0x3e, bytes ['&', 'g', 't', ';']),
   (0x3c, bytes ['&', 'l', 't', ';']),
   (0x26, bytes ['&', 'a', 'm', 'p', ';']),
   (0x22, bytes ['&', 'q', 'u', 'o', 't', ';']),
   (0x27, bytes ['&', 'a', 'p', 'o', 's', ';']),
   (0x00, bytes ['&', '#', 'x', '0', '0', ';'])]

/-- `Decoded_character` of a text that is not empty: the character, and the
length of its code. -/
def decodedCharacter (src : List UInt8) : UInt8 × Nat :=
  if charAt src 0 ≠ 0x26 then (charAt src 0, 1)
  else
    match translations.find? fun t => t.2.isPrefixOf src with
    | some t => (t.1, t.2.length)
    | none => (charAt src 0, 1)

/-- The loop of `decoded_content`; at most `n` characters are left in the
destination. -/
def decode : Nat → List UInt8 → List UInt8
  | 0, _ => []
  | _ + 1, [] => []
  | n + 1, c :: src =>
    (decodedCharacter (c :: src)).1 :: decode n ((c :: src).drop (decodedCharacter (c :: src)).2)

/-! ## The tags of a node -/

/-- The loop of `_search_end_tag`. -/
def searchLoop (startTag : Tag) : Nat → Nat → Nat → Token → Tag × Nat
  | 0, _, count, _ => (.null, count)
  | n + 1, depth, count, curr =>
    if typeOf curr = .end' then (.null, count)
    -- eat XML comment
    else if (Comment.construct curr).valid then
      searchLoop startTag n depth count (Comment.construct curr).next
    -- skip all tokens that are no tags
    else if (Tag.construct curr).type = .invalid then searchLoop startTag n depth count (next curr)
    else
      let tag := Tag.construct curr
      let count := if depth = 1 ∧ tag.node then count + 1 else count
      let depth := depth + (if tag.type = .start then 1 else 0) -
        (if tag.type = .end' then 1 else 0)
      -- within sub nodes, continue after current token
      if 0 < depth then searchLoop startTag n depth count tag.nextToken
      else if startTag.name.len ≠ tag.name.len ∨
          (strcmpEq true (rest startTag.name) (chars tag.name) 0).val = false then (.null, count)
      else (tag, count)

/-- `_search_end_tag`, with the number of sub nodes. -/
def searchEndTag (startTag : Tag) : Tag × Nat :=
  if startTag.type ≠ .start then (startTag, 0)
  else searchLoop startTag (rest startTag.nextToken).length 1 0 startTag.nextToken

/-- The loop of `skip_non_tag_characters`. -/
def skipLoop : Nat → Token → Token
  | 0, t => t
  | n + 1, t =>
    let t := eatWhitespace t
    if (Comment.construct t).valid then skipLoop n (Comment.construct t).next
    else if (Tag.construct t).type = .invalid ∧ (Tag.construct t).token.valid then
      skipLoop n (next t)
    else t

/-- `skip_non_tag_characters`. -/
def skipNonTagCharacters (t : Token) : Token := skipLoop (rest t).length t

structure Tags where
  numSubNodes : Nat
  start : Tag
  endTag : Tag
  deriving DecidableEq, Repr

/-- The constructor of `Tags`. -/
def Tags.construct (s : List UInt8) : Tags :=
  let start := Tag.construct (skipNonTagCharacters (tokenAt s))
  { numSubNodes := (searchEndTag start).2, start, endTag := (searchEndTag start).1 }

/-- `_valid`. -/
def Tags.valid (t : Tags) : Bool :=
  decide (t.start.type = .empty) ||
    (decide (t.start.type = .start) && decide (t.endTag.type = .end'))

/-! ## Nodes -/

/-- `Xml_node`. -/
structure XmlNode where
  addr : List UInt8
  tags : Tags
  deriving DecidableEq, Repr

namespace XmlNode

/-- The constructor. -/
def construct (s : List UInt8) : Except XmlError XmlNode :=
  if !(Tags.construct s).valid then throw .invalidSyntax else return ⟨s, Tags.construct s⟩

variable (node : XmlNode)

/-- `_valid_node_at`. -/
def validNodeAt : Option (List UInt8) → Bool
  | none => false
  | some at' =>
    decide (at'.length ≤ node.addr.length) &&
      decide (node.addr.length - at'.length < node.addr.length) && (Tags.construct at').valid

/-- `_node_at`. -/
def nodeAt (at' : Option (List UInt8)) : Except XmlError XmlNode :=
  if !node.validNodeAt at' then throw .nonexistentSubNode else construct (at'.getD [])

/-- `_content_base`. -/
def contentBase : Option (List UInt8) := node.tags.start.nextToken.start

def contentSize : Nat :=
  if node.tags.start.type = .empty then 0
  else (node.contentBase.getD []).length - (rest node.tags.endTag.token).length

/-- `type`, a string of at most 63 characters. -/
def type : List UInt8 := (chars node.tags.start.name).take 63

def hasType (name : List UInt8) : Bool := hasChars name node.tags.start.name

/-- `decoded_content` for a destination of `dstLen` bytes. -/
def decodedContent (dstLen : Nat) : List UInt8 :=
  decode dstLen ((node.contentBase.getD []).take node.contentSize)

def numSubNodes : Nat := node.tags.numSubNodes

/-- The token that follows the node and all that is no tag. -/
def after : Token := skipNonTagCharacters node.tags.endTag.nextToken

def next : Except XmlError XmlNode := catchInvalidSyntax (node.nodeAt node.after.start)

/-- The loop of `last`. -/
def lastLoop (name : Option (List UInt8)) : Nat → Token → Except XmlError Bool
  | 0, _ => return true
  | n + 1, t => do
    if !node.validNodeAt t.start then return true
    else
      let other ← node.nodeAt t.start
      if name.all other.hasType then return false else lastLoop name n other.after

/-- `last`; without a name it is about nodes of any type. -/
def last (name : Option (List UInt8)) : Except XmlError Bool :=
  node.lastLoop name (rest node.after).length node.after

/-- The `n`th node after this one. -/
def nextTimes : Nat → XmlNode → Except XmlError XmlNode
  | 0, node => return node
  | n + 1, node => do nextTimes n (← node.next)

/-- `sub_node` with an index. -/
def subNode (idx : Nat) : Except XmlError XmlNode :=
  if 0 < node.numSubNodes then
    catchInvalidSyntax do nextTimes idx (← node.nodeAt node.contentBase)
  else throw .nonexistentSubNode

/-- The loop of `sub_node` with a name. -/
def findLoop (name : Option (List UInt8)) : Nat → XmlNode → Except XmlError XmlNode
  | 0, _ => throw .nonexistentSubNode
  | n + 1, node => do if name.all node.hasType then return node else findLoop name n (← node.next)

/-- `sub_node` with a name. -/
def subNodeOf (name : Option (List UInt8)) : Except XmlError XmlNode :=
  if 0 < node.numSubNodes then
    catchAll do findLoop name node.addr.length (← node.nodeAt node.contentBase)
  else throw .nonexistentSubNode

/-- The loop of `has_sub_node`. -/
def hasLoop (name : List UInt8) : Nat → XmlNode → Except XmlError Bool
  | 0, _ => return false
  | n + 1, node => do
    if node.hasType name then return true
    else if ← node.last none then return false
    else hasLoop name n (← node.next)

def hasSubNode (name : Option (List UInt8)) : Except XmlError Bool :=
  if node.numSubNodes = 0 then return false
  else if !node.validNodeAt node.contentBase then return false
  else
    match name with
    | none => return true
    | some name => do hasLoop name node.addr.length (← node.nodeAt node.contentBase)

/-- The loop of `for_each_sub_node`; the nodes that the functor is called for. -/
def forEachLoop (name : Option (List UInt8)) : Nat → XmlNode → Except XmlError (List XmlNode)
  | 0, _ => return []
  | n + 1, node => do
    let hits := if name.all node.hasType then [node] else []
    if ← node.last none then return hits
    else return hits ++ (← forEachLoop name n (← node.next))

def forEachSubNode (name : Option (List UInt8)) : Except XmlError (List XmlNode) := do
  if ← node.hasSubNode name then
    forEachLoop name node.addr.length (← node.subNodeOf name)
  else return []

/-- The loop of `for_each_attribute`. -/
def attributesFrom : Nat → Token → List XmlAttribute
  | 0, _ => []
  | n + 1, t =>
    if (XmlAttribute.tokens t).valid then
      XmlAttribute.tokens t :: attributesFrom n (XmlAttribute.tokens t).nextToken
    else []

/-- `for_each_attribute`; the attributes that the functor is called for. -/
def forEachAttribute : List XmlAttribute :=
  attributesFrom (rest (Xml.next node.tags.start.name)).length (Xml.next node.tags.start.name)

end XmlNode

end Genode.Util.Xml
