import Genode.Lib.Bytes
import Genode.Util.XmlNode

/-!
# XmlGenerator — the XML generator

`util/xml_generator.h` and `xml_generator.cc`. All buffers are windows of
the same memory. The buffer of a sub node is the unused part of the buffer
of its parent, and an attribute is inserted into text that is already
written. The calls that a functor issues are given as a script; an
exception `Buffer_exceeded` ends the generation.
-/

namespace Genode.Util.Xml

open Lib Ascii

/-- `Out_buffer`. -/
structure OutBuffer where
  dst : Nat
  capacity : Nat
  used : Nat
  deriving DecidableEq, Repr

namespace OutBuffer

variable (b : OutBuffer) (m : Memory)

/-- `advance`, with `_check_advance`. -/
def advance (len : Nat) : Option OutBuffer :=
  if b.capacity < b.used + len then none else some { b with used := b.used + len }

/-- `append` of a character. -/
def append (c : UInt8) : Option (OutBuffer × Memory) := do
  let b' ← b.advance 1
  return (b', Function.update m (b.dst + b.used) c)

/-- `append` of a character buffer. -/
def appendBytes (b : OutBuffer) (m : Memory) : List UInt8 → Option (OutBuffer × Memory)
  | [] => some (b, m)
  | c :: src => do
    let (b, m) ← b.append m c
    b.appendBytes m src

/-- `append` of a character that is repeated `n` times. -/
def appendTimes (c : UInt8) (n : Nat) : Option (OutBuffer × Memory) :=
  b.appendBytes m (List.replicate n c)

/-- What `append_sanitized` writes for a character. -/
def sanitized (c : UInt8) : List UInt8 :=
  if c = 0x00 then bytes ['&', '#', 'x', '0', '0', ';']
  else if c = 0x3e then bytes ['&', 'g', 't', ';']
  else if c = 0x3c then bytes ['&', 'l', 't', ';']
  else if c = 0x26 then bytes ['&', 'a', 'm', 'p', ';']
  else if c = 0x22 then bytes ['&', 'q', 'u', 'o', 't', ';']
  else if c = 0x27 then bytes ['&', 'a', 'p', 'o', 's', ';']
  else [c]

/-- `append_sanitized` of a character buffer. -/
def appendSanitized (src : List UInt8) : Option (OutBuffer × Memory) :=
  b.appendBytes m (src.flatMap sanitized)

/-- The unused part of the buffer. -/
def remainder : OutBuffer := ⟨b.dst + b.used, b.capacity - b.used, 0⟩

/-- `insert_gap`; the buffer that spans the gap comes first. -/
def insertGap (at' len : Nat) : Option (OutBuffer × OutBuffer × Memory) :=
  -- don't allow the insertion into non-populated part
  if b.used < at' then some (⟨b.dst + at', 0, 0⟩, b, m)
  else do
    let b' ← b.advance len
    return (⟨b.dst + at', len, 0⟩, b', m.move (b.dst + at' + len) (b.dst + at') (b.used - at'))

end OutBuffer

/-- `Xml_generator::Node`. -/
structure Node where
  indentLevel : Nat
  outBuffer : OutBuffer
  hasContent : Bool
  isIndented : Bool
  attrOffset : Nat
  deriving DecidableEq, Repr

def newline : UInt8 := 0x0a

def tab : UInt8 := 0x09

def space : UInt8 := 0x20

namespace Node

variable (node : Node) (m : Memory)

/-- `_content_buffer`; the buffer that it returns is the remainder. -/
def contentBuffer (indented : Bool) : Option (Node × Memory) := do
  let (b, m) ← (if node.hasContent then some (node.outBuffer, m) else node.outBuffer.append m gt)
  let (b, m) ← (if indented then b.append m newline else some (b, m))
  return ({ node with outBuffer := b, hasContent := true, isIndented := indented }, m)

/-- `_commit_content`. -/
def commitContent (content : OutBuffer) : Option Node := do
  return { node with outBuffer := ← node.outBuffer.advance content.used }

/-- `insert_attribute`. -/
def insertAttribute (name value : List UInt8) : Option (Node × Memory) := do
  let gap := 1 + name.length + 1 + 1 + value.length + 1
  let (dst, b, m) ← node.outBuffer.insertGap m node.attrOffset gap
  let (dst, m) ← dst.append m space
  let (dst, m) ← dst.appendBytes m name
  let (dst, m) ← dst.appendBytes m [equalSign, quote]
  let (dst, m) ← dst.appendBytes m value
  let (_, m) ← dst.appendBytes m [quote]
  return ({ node with outBuffer := b, attrOffset := node.attrOffset + gap }, m)

/-- `append_sanitized`. -/
def appendSanitized (src : List UInt8) : Option (Node × Memory) := do
  let (node, m) ← node.contentBuffer m false
  let (content, m) ← node.outBuffer.remainder.appendSanitized m src
  return (← node.commitContent content, m)

/-- The constructor up to the call of the functor. -/
def start (indentLevel : Nat) (name : List UInt8) (b : OutBuffer) (m : Memory) :
    Option (Node × Memory) := do
  let (b, m) ← b.appendTimes m tab indentLevel
  let (b, m) ← b.append m lt
  let (b, m) ← b.appendBytes m name
  return (⟨indentLevel, b, false, false, b.used⟩, m)

/-- The constructor from the return of the functor to the commit. -/
def finish (name : List UInt8) : Option (OutBuffer × Memory) := do
  let (b, m) ←
    (if node.isIndented then do
      let (b, m) ← node.outBuffer.append m newline
      b.appendTimes m tab node.indentLevel
    else some (node.outBuffer, m))
  if node.hasContent then
    let (b, m) ← b.appendBytes m [lt, slash]
    let (b, m) ← b.appendBytes m name
    b.append m gt
  else b.appendBytes m [slash, gt]

end Node

/-- The calls of a functor, one after the other. The functor of a sub node is a
part of the script. -/
inductive Script where
  | done
  | attr (name value : List UInt8) (rest : Script)
  | appendSanitized (src : List UInt8) (rest : Script)
  | node (name : List UInt8) (body rest : Script)
  deriving DecidableEq, Repr

/-- The calls at the current node. -/
def Script.run : Script → Node → Memory → Option (Node × Memory)
  | .done, curr, m => some (curr, m)
  | .attr name value rest, curr, m => do
    let (curr, m) ← curr.insertAttribute m name value
    rest.run curr m
  | .appendSanitized src rest, curr, m => do
    let (curr, m) ← curr.appendSanitized m src
    rest.run curr m
  | .node name body rest, curr, m => do
    let (curr, m) ← curr.contentBuffer m true
    let (sub, m) ← Node.start (curr.indentLevel + 1) name curr.outBuffer.remainder m
    let (sub, m) ← body.run sub m
    let (b, m) ← sub.finish m name
    let curr ← curr.commitContent b
    -- the sub node is terminated behind the committed text
    let (_, m) ← b.append m 0
    rest.run curr m

/-- The constructor of `Xml_generator`; the number of bytes used. Nothing is
written to a null pointer. -/
def generate (dst dstLen : Nat) (name : List UInt8) (func : Script) (m : Memory) :
    Option (Nat × Memory) :=
  if dst = 0 then some (0, m)
  else do
    let (node, m) ← Node.start 0 name ⟨dst, dstLen, 0⟩ m
    let (node, m) ← func.run node m
    let (b, m) ← node.finish m name
    let (_, m) ← b.append m 0
    let (b, m) ← b.append m newline
    let (b, m) ← b.append m 0
    return (b.used, m)

end Genode.Util.Xml
