import Genode.Util.XmlGenerator

/-!
# XmlException — sub nodes whose generation ends with an exception

`util/xml_generator.h` and `xml_generator.cc`. Any write may exceed the
buffer, in the middle of a text. Here the calls of the generator yield
the exception together with the state that they leave behind. A functor
gets to know whether a call threw, and so it may catch the exception and
go on.

The constructor of a node undoes its changes of the parent only if the
functor throws. What it writes before and after the functor is outside of
its `try` block.
-/

namespace Genode.Util.Xml

open Lib Ascii

/-- `Buffer_exceeded`, or an exception of a functor. -/
inductive Thrown (ε : Type) where
  | bufferExceeded
  | other (e : ε)
  deriving DecidableEq, Repr

/-- What a functor does. How it goes on depends on the exceptions of its calls. -/
inductive Calls (ε : Type) where
  | done
  | throw (e : Thrown ε)
  | attr (name value : List UInt8) (next : Option (Thrown ε) → Calls ε)
  | append (src : List UInt8) (next : Option (Thrown ε) → Calls ε)
  | appendSanitized (src : List UInt8) (next : Option (Thrown ε) → Calls ε)
  | node (name : List UInt8) (func : Calls ε) (next : Option (Thrown ε) → Calls ε)

/-! ## Writes that may stop midway -/

/-- The buffer and the memory after some appends; `ok` unless one of them threw. -/
structure Put where
  ok : Bool
  buffer : OutBuffer
  memory : Memory

/-- `append` of a character buffer, up to the first character that does not fit. -/
def OutBuffer.put (b : OutBuffer) (m : Memory) : List UInt8 → Put
  | [] => ⟨true, b, m⟩
  | c :: src =>
    match b.append m c with
    | none => ⟨false, b, m⟩
    | some (b, m) => b.put m src

/-- The next append, unless there was an exception. -/
def Put.append (p : Put) (src : List UInt8) : Put :=
  if p.ok then p.buffer.put p.memory src else p

/-- `undo_append`. -/
def OutBuffer.undoAppend (b : OutBuffer) (len : Nat) : OutBuffer :=
  { b with used := if len < b.used then b.used - len else 0 }

namespace Node

/-- A node and the memory after a call; `ok` unless it threw. -/
structure Result where
  ok : Bool
  node : Node
  memory : Memory

variable (node : Node) (m : Memory)

/-- `_content_buffer`; the buffer that it returns is the remainder. -/
def openContent (indented : Bool) : Result :=
  let p : Put := ⟨true, node.outBuffer, m⟩
  let p := if node.hasContent then p else p.append [gt]
  let p := if indented then p.append [newline] else p
  if p.ok then ⟨true, { node with
    outBuffer := p.buffer, hasContent := true, isIndented := indented }, p.memory⟩
  else ⟨false, { node with outBuffer := p.buffer }, p.memory⟩

/-- `_undo_content_buffer`. -/
def undoContent (indented wasIndented hadContent : Bool) : Node :=
  let b := if indented then node.outBuffer.undoAppend 1 else node.outBuffer
  let b := if hadContent then b else b.undoAppend 1
  { node with outBuffer := b, hasContent := hadContent, isIndented := wasIndented }

/-- `insert_attribute`. -/
def addAttribute (name value : List UInt8) : Result :=
  let gap := 1 + name.length + 1 + 1 + value.length + 1
  match node.outBuffer.insertGap m node.attrOffset gap with
  | none => ⟨false, node, m⟩
  | some (dst, b, m) =>
    let p := (((((dst.put m [space]).append name).append [equalSign, quote]).append value).append
      [quote])
    if p.ok then ⟨true, { node with outBuffer := b, attrOffset := node.attrOffset + gap }, p.memory⟩
    else ⟨false, { node with outBuffer := b }, p.memory⟩

/-- `append` and `append_sanitized`, given the characters to be written. -/
def addContent (text : List UInt8) : Result :=
  let r := node.openContent m false
  if r.ok then
    let p := r.node.outBuffer.remainder.put r.memory text
    if p.ok then
      match r.node.commitContent p.buffer with
      | none => ⟨false, r.node, p.memory⟩
      | some node => ⟨true, node, p.memory⟩
    else ⟨false, r.node, p.memory⟩
  else r

/-- The text in front of the attributes. -/
def header (indent : Nat) (name : List UInt8) (b : OutBuffer) (m : Memory) : Put :=
  ((b.put m (List.replicate indent tab)).append [lt]).append name

/-- The text behind the content. -/
def footer (name : List UInt8) : Put :=
  let p : Put := ⟨true, node.outBuffer, m⟩
  let p := if node.isIndented then
    (p.append [newline]).append (List.replicate node.indentLevel tab) else p
  if node.hasContent then ((p.append [lt, slash]).append name).append [gt]
  else p.append [slash, gt]

end Node

/-! ## The generator -/

/-- `Xml_generator`. The nodes are objects on the stack, counted from the
outermost one; `depth` of them exist. -/
structure Generator where
  outBuffer : OutBuffer
  node : Nat → Node
  depth : Nat
  currNode : Option Nat
  currIndent : Nat
  memory : Memory

namespace Generator

variable {ε : Type} (g : Generator)

/-- A node object and the memory change. -/
def write (i : Nat) (node : Node) (m : Memory) : Generator :=
  { g with node := Function.update g.node i node, memory := m }

/-- A call at the current node; there is one while a functor is called. -/
def atCurr (call : Node → Memory → Node.Result) : Option (Thrown ε) × Generator :=
  match g.currNode with
  | none => (none, g)
  | some i =>
    let r := call (g.node i) g.memory
    (if r.ok then none else some .bufferExceeded, g.write i r.node r.memory)

/-- A new node with a buffer becomes the current one. -/
def enter (name : List UInt8) (b : OutBuffer) : Bool × Generator :=
  let p := Node.header g.currIndent name b g.memory
  if p.ok then
    let g' := g.write g.depth ⟨g.currIndent, p.buffer, false, false, p.buffer.used⟩ p.memory
    (true, { g' with
      depth := g.depth + 1, currNode := some g.depth, currIndent := g.currIndent + 1 })
  else (false, { g with memory := p.memory })

/-- The constructor of a node up to the call of the functor. -/
def openNode (name : List UInt8) : Bool × Generator :=
  match g.currNode with
  | none => g.enter name g.outBuffer
  | some i =>
    let r := (g.node i).openContent g.memory true
    if r.ok then (g.write i r.node r.memory).enter name r.node.outBuffer.remainder
    else (false, g.write i r.node r.memory)

/-- The node `this` is no longer the current one. -/
def leave (this : Nat) (parent : Option Nat) : Generator :=
  { g with depth := this, currNode := parent, currIndent := g.currIndent - 1 }

/-- The `catch` block; `old` is the parent as it was before. -/
def undo (old : Nat → Node) (this : Nat) (parent : Option Nat) : Generator :=
  let g := g.leave this parent
  match parent with
  | none => g
  | some i =>
    g.write i ((g.node i).undoContent true (old i).isIndented (old i).hasContent) g.memory

/-- The constructor of a node from the return of the functor on. -/
def closeNode (name : List UInt8) (this : Nat) (parent : Option Nat) :
    Option (Thrown ε) × Generator :=
  let g := g.leave this parent
  let p := (g.node this).footer g.memory name
  if p.ok then
    -- the node is terminated behind the committed text
    let ended := p.buffer.put p.memory [0]
    let result := if ended.ok then none else some .bufferExceeded
    match parent with
    | none => (result, { g with outBuffer := p.buffer, memory := ended.memory })
    | some i =>
      match (g.node i).commitContent p.buffer with
      | none => (some .bufferExceeded, { g with memory := p.memory })
      | some node => (result, g.write i node ended.memory)
  else (some .bufferExceeded, { g with memory := p.memory })

/-- The constructor of a node. -/
def construct (call : Generator → Option (Thrown ε) × Generator) (name : List UInt8) :
    Option (Thrown ε) × Generator :=
  let this := g.depth
  let parent := g.currNode
  let opened := g.openNode name
  if opened.1 then
    let called := call opened.2
    match called.1 with
    | some e =>
      -- reset and drop changes by not committing it
      (some e, called.2.undo g.node this parent)
    | none => called.2.closeNode name this parent
  else (some .bufferExceeded, opened.2)

end Generator

/-- The calls of a functor, and the exception that leaves it. -/
def Calls.run {ε : Type} : Calls ε → Generator → Option (Thrown ε) × Generator
  | .done, g => (none, g)
  | .throw e, g => (some e, g)
  | .attr name value next, g =>
    let r := g.atCurr fun node m => node.addAttribute m name value
    (next r.1).run r.2
  | .append src next, g =>
    let r := g.atCurr fun node m => node.addContent m src
    (next r.1).run r.2
  | .appendSanitized src next, g =>
    let r := g.atCurr fun node m => node.addContent m (src.flatMap OutBuffer.sanitized)
    (next r.1).run r.2
  | .node name func next, g =>
    let r := g.construct func.run name
    (next r.1).run r.2

/-- The constructor of `Xml_generator`. -/
def Generator.create {ε : Type} (dst dstLen : Nat) (name : List UInt8) (func : Calls ε)
    (m : Memory) : Option (Thrown ε) × Generator :=
  let g : Generator := ⟨⟨dst, dstLen, 0⟩, fun _ => ⟨0, ⟨0, 0, 0⟩, false, false, 0⟩, 0, none, 0, m⟩
  let r := g.construct func.run name
  match r.1 with
  | some e => (some e, r.2)
  | none =>
    let p := (r.2.outBuffer.put r.2.memory [newline]).append [0]
    (if p.ok then none else some .bufferExceeded,
      { r.2 with outBuffer := p.buffer, memory := p.memory })

/-! ## What the writes change -/

section Writes

variable {b : OutBuffer} {m : Memory} {s src src' name value : List UInt8} {node : Node}

/-- The buffer keeps its place, grows by `n` characters, and nothing else is written. -/
structure Writes (b : OutBuffer) (m : Memory) (n : Nat) (p : Put) : Prop where
  buffer : p.buffer = { b with used := b.used + n }
  memory : ∀ a, a < b.dst + b.used ∨ b.dst + b.capacity ≤ a → p.memory a = m a

/-- As many characters are written as fit. -/
theorem put_spec (b : OutBuffer) (m : Memory) (src : List UInt8) :
    ((b.put m src).ok = true ↔ src.length ≤ b.capacity - b.used) ∧
      Writes b m (min src.length (b.capacity - b.used)) (b.put m src) := by
  induction src generalizing b m with
  | nil => exact ⟨by simp [OutBuffer.put], ⟨by simp [OutBuffer.put], fun _ _ => rfl⟩⟩
  | cons c src ih =>
    rw [OutBuffer.put]
    by_cases hfull : b.capacity < b.used + 1
    · have hnone : b.append m c = none := by simp [OutBuffer.append, OutBuffer.advance, hfull]
      have hzero : b.capacity - b.used = 0 := by omega
      rw [hnone, hzero]
      exact ⟨by simp, ⟨by simp, fun _ _ => rfl⟩⟩
    · have hsome : b.append m c = some ({ b with used := b.used + 1 },
          Function.update m (b.dst + b.used) c) := by
        simp [OutBuffer.append, OutBuffer.advance, hfull]
      rw [hsome]
      obtain ⟨hok, hbuffer, hmemory⟩ :=
        ih { b with used := b.used + 1 } (Function.update m (b.dst + b.used) c)
      dsimp only at hok hbuffer hmemory ⊢
      refine ⟨?_, ?_, fun a ha => ?_⟩
      · rw [hok, List.length_cons]
        omega
      · rw [hbuffer, List.length_cons]
        congr 1
        omega
      · rw [hmemory a (by omega)]
        exact Function.update_of_ne (by omega) _ _

theorem put_append : (b.put m src).append src' = b.put m (src ++ src') := by
  induction src generalizing b m with
  | nil => rfl
  | cons c src ih =>
    rw [List.cons_append, OutBuffer.put, OutBuffer.put]
    cases b.append m c with
    | none => rfl
    | some r => exact ih

/-- What a node writes in front of new content. -/
def Node.opening (node : Node) (indented : Bool) : List UInt8 :=
  (if node.hasContent then [] else [gt]) ++ if indented then [newline] else []

theorem openContent_eq (node : Node) (m : Memory) (indented : Bool) :
    node.openContent m indented =
      if (node.outBuffer.put m (node.opening indented)).ok then
        ⟨true, { node with
          outBuffer := (node.outBuffer.put m (node.opening indented)).buffer,
          hasContent := true, isIndented := indented },
          (node.outBuffer.put m (node.opening indented)).memory⟩
      else ⟨false, { node with
          outBuffer := (node.outBuffer.put m (node.opening indented)).buffer },
          (node.outBuffer.put m (node.opening indented)).memory⟩ := by
  have hnil : (⟨true, node.outBuffer, m⟩ : Put) = node.outBuffer.put m [] := rfl
  unfold Node.openContent Node.opening
  simp only [hnil]
  cases node.hasContent <;> cases indented <;> simp [put_append]

theorem header_eq (indent : Nat) (name : List UInt8) (b : OutBuffer) (m : Memory) :
    Node.header indent name b m = b.put m (List.replicate indent tab ++ [lt] ++ name) := by
  rw [Node.header, put_append, put_append]

/-- A call of a node that writes from an offset of its buffer on. -/
structure Node.Kept (node : Node) (m : Memory) (lo : Nat) (r : Node.Result) : Prop where
  indentLevel : r.node.indentLevel = node.indentLevel
  dst : r.node.outBuffer.dst = node.outBuffer.dst
  capacity : r.node.outBuffer.capacity = node.outBuffer.capacity
  memory : ∀ a, a < node.outBuffer.dst + lo ∨ node.outBuffer.dst + node.outBuffer.capacity ≤ a →
    r.memory a = m a

theorem openContent_kept (node : Node) (m : Memory) (indented : Bool) :
    node.Kept m node.outBuffer.used (node.openContent m indented) := by
  obtain ⟨-, hbuffer, hmemory⟩ := put_spec node.outBuffer m (node.opening indented)
  rw [openContent_eq]
  split <;> exact ⟨rfl, by simp [hbuffer], by simp [hbuffer], hmemory⟩

theorem commitContent_eq_some {content : OutBuffer} {node' : Node} :
    node.commitContent content = some node' ↔
      node.outBuffer.used + content.used ≤ node.outBuffer.capacity ∧ node' = { node with
        outBuffer := { node.outBuffer with used := node.outBuffer.used + content.used } } := by
  unfold Node.commitContent OutBuffer.advance
  by_cases h : node.outBuffer.capacity < node.outBuffer.used + content.used
  · simp [h]
  · simp [h, Nat.not_lt.mp h, eq_comm]

theorem addContent_kept (node : Node) (m : Memory) (text : List UInt8) :
    node.Kept m 0 (node.addContent m text) := by
  have hopen := openContent_kept node m false
  unfold Node.addContent
  generalize node.openContent m false = r at hopen
  obtain ⟨hindent, hdst, hcapacity, hmemory⟩ := hopen
  obtain ⟨-, -, hput⟩ := put_spec r.node.outBuffer.remainder r.memory text
  have hmemory' : ∀ a, a < node.outBuffer.dst + 0 ∨
      node.outBuffer.dst + node.outBuffer.capacity ≤ a →
      (r.node.outBuffer.remainder.put r.memory text).memory a = m a := by
    intro a ha
    rw [hput a, hmemory a (by omega)]
    simp only [OutBuffer.remainder]
    omega
  dsimp only
  split
  · split
    · cases hcommit : r.node.commitContent
        (r.node.outBuffer.remainder.put r.memory text).buffer with
      | none => exact ⟨hindent, hdst, hcapacity, hmemory'⟩
      | some node' =>
        obtain ⟨-, rfl⟩ := commitContent_eq_some.mp hcommit
        exact ⟨hindent, hdst, hcapacity, hmemory'⟩
    · exact ⟨hindent, hdst, hcapacity, hmemory'⟩
  · exact ⟨hindent, hdst, hcapacity, fun a ha => hmemory a (by omega)⟩

theorem addAttribute_kept (node : Node) (m : Memory) (name value : List UInt8) :
    node.Kept m 0 (node.addAttribute m name value) := by
  have hputs : ∀ (dst : OutBuffer) (m : Memory),
      (((((dst.put m [space]).append name).append [equalSign, quote]).append value).append
        [quote]) = dst.put m ([space] ++ name ++ [equalSign, quote] ++ value ++ [quote]) := by
    intro dst m
    simp only [put_append]
  unfold Node.addAttribute
  simp only [hputs]
  generalize [space] ++ name ++ [equalSign, quote] ++ value ++ [quote] = text
  generalize 1 + name.length + 1 + 1 + value.length + 1 = gap
  -- the gap is within the buffer, and nothing is written if it is behind the text
  have hgap : ∀ dst b m', node.outBuffer.insertGap m node.attrOffset gap = some (dst, b, m') →
      b.dst = node.outBuffer.dst ∧ b.capacity = node.outBuffer.capacity ∧
        ∀ a, a < node.outBuffer.dst ∨ node.outBuffer.dst + node.outBuffer.capacity ≤ a →
          (dst.put m' text).memory a = m a := by
    intro dst b m' hb
    unfold OutBuffer.insertGap OutBuffer.advance at hb
    split at hb
    · cases hb
      obtain ⟨-, -, hput⟩ := put_spec ⟨node.outBuffer.dst + node.attrOffset, 0, 0⟩ m text
      exact ⟨rfl, rfl, fun a _ => hput a (by dsimp only; omega)⟩
    · split at hb
      · cases hb
      · cases hb
        obtain ⟨-, -, hput⟩ := put_spec ⟨node.outBuffer.dst + node.attrOffset, gap, 0⟩
          (m.move (node.outBuffer.dst + node.attrOffset + gap)
            (node.outBuffer.dst + node.attrOffset) (node.outBuffer.used - node.attrOffset)) text
        refine ⟨rfl, rfl, fun a ha => ?_⟩
        rw [hput a (by dsimp only; omega), Memory.move, if_neg (by omega)]
  cases hb : node.outBuffer.insertGap m node.attrOffset gap with
  | none => exact ⟨rfl, rfl, rfl, fun _ _ => rfl⟩
  | some r =>
    obtain ⟨dst, b, m'⟩ := r
    obtain ⟨hdst, hcapacity, hmemory⟩ := hgap dst b m' hb
    dsimp only
    split <;> exact ⟨rfl, hdst, hcapacity, hmemory⟩

end Writes

/-! ## What the calls of a functor change -/

namespace Generator

variable {ε : Type} {g g' g'' : Generator} {i lo : Nat} {name : List UInt8}

/-- The node `i` is the innermost one, and the current one. -/
structure At (i : Nat) (g : Generator) : Prop where
  currNode : g.currNode = some i
  depth : g.depth = i + 1

/-- Only the node `i` changes, and the memory within its buffer from an offset on. -/
structure Frame (i lo : Nat) (g g' : Generator) : Prop where
  outBuffer : g'.outBuffer = g.outBuffer
  depth : g'.depth = g.depth
  currNode : g'.currNode = g.currNode
  currIndent : g'.currIndent = g.currIndent
  others : ∀ j < i, g'.node j = g.node j
  indentLevel : (g'.node i).indentLevel = (g.node i).indentLevel
  dst : (g'.node i).outBuffer.dst = (g.node i).outBuffer.dst
  capacity : (g'.node i).outBuffer.capacity = (g.node i).outBuffer.capacity
  memory : ∀ a, a < (g.node i).outBuffer.dst + lo ∨
    (g.node i).outBuffer.dst + (g.node i).outBuffer.capacity ≤ a → g'.memory a = g.memory a

theorem Frame.refl (i lo : Nat) (g : Generator) : Frame i lo g g :=
  ⟨rfl, rfl, rfl, rfl, fun _ _ => rfl, rfl, rfl, rfl, fun _ _ => rfl⟩

theorem Frame.trans (h : Frame i 0 g g') (h' : Frame i 0 g' g'') : Frame i 0 g g'' := by
  refine ⟨h'.outBuffer.trans h.outBuffer, h'.depth.trans h.depth, h'.currNode.trans h.currNode,
    h'.currIndent.trans h.currIndent, fun j hj => (h'.others j hj).trans (h.others j hj),
    h'.indentLevel.trans h.indentLevel, h'.dst.trans h.dst, h'.capacity.trans h.capacity,
    fun a ha => ?_⟩
  rw [h'.memory a (by rw [h.dst, h.capacity]; exact ha), h.memory a ha]

theorem Frame.mono {lo' : Nat} (h : Frame i lo g g') (hlo : lo' ≤ lo) : Frame i lo' g g' :=
  ⟨h.outBuffer, h.depth, h.currNode, h.currIndent, h.others, h.indentLevel, h.dst, h.capacity,
    fun a ha => h.memory a (by omega)⟩

theorem Frame.at (h : Frame i lo g g') (hg : At i g) : At i g' :=
  ⟨h.currNode.trans hg.currNode, h.depth.trans hg.depth⟩

theorem node_write {node : Node} {m : Memory} : (g.write i node m).node i = node :=
  Function.update_self _ _ _

theorem node_write_of_ne {node : Node} {m : Memory} {j : Nat} (h : j ≠ i) :
    (g.write i node m).node j = g.node j := Function.update_of_ne h _ _

theorem write_frame {r : Node.Result} (hr : (g.node i).Kept g.memory lo r) :
    Frame i lo g (g.write i r.node r.memory) :=
  ⟨rfl, rfl, rfl, rfl, fun _ hj => node_write_of_ne (Nat.ne_of_lt hj),
    by rw [node_write, hr.indentLevel], by rw [node_write, hr.dst], by rw [node_write, hr.capacity],
    hr.memory⟩

theorem atCurr_frame {call : Node → Memory → Node.Result} (hg : At i g)
    (hcall : ∀ (node : Node) m, node.Kept m 0 (call node m)) :
    Frame i 0 g (g.atCurr (ε := ε) call).2 := by
  rw [atCurr, hg.currNode]
  exact write_frame (hcall (g.node i) g.memory)

/-- The state in which the functor of a sub node is called. -/
structure Opened (i : Nat) (g g' : Generator) : Prop where
  at' : At (i + 1) g'
  outBuffer : g'.outBuffer = g.outBuffer
  currIndent : g'.currIndent = g.currIndent + 1
  others : ∀ j < i, g'.node j = g.node j
  ok : ((g.node i).openContent g.memory true).ok = true
  parent : g'.node i = ((g.node i).openContent g.memory true).node
  dst : (g'.node (i + 1)).outBuffer.dst = (g'.node i).outBuffer.dst + (g'.node i).outBuffer.used
  capacity : (g'.node (i + 1)).outBuffer.capacity =
    (g'.node i).outBuffer.capacity - (g'.node i).outBuffer.used
  memory : ∀ a, a < (g.node i).outBuffer.dst + (g.node i).outBuffer.used ∨
    (g.node i).outBuffer.dst + (g.node i).outBuffer.capacity ≤ a → g'.memory a = g.memory a

theorem openContent_used (node : Node) (m : Memory) :
    (node.openContent m true).node.outBuffer.used = node.outBuffer.used +
      min (if node.hasContent then 1 else 2) (node.outBuffer.capacity - node.outBuffer.used) := by
  have hlen : (node.opening true).length = if node.hasContent then 1 else 2 := by
    unfold Node.opening
    cases node.hasContent <;> rfl
  obtain ⟨-, hbuffer, -⟩ := put_spec node.outBuffer m (node.opening true)
  rw [openContent_eq, ← hlen]
  split <;> simp [hbuffer]

/-- The header of a new node in the unused part of a buffer. -/
theorem header_memory {b : OutBuffer} {m : Memory} {a indent : Nat}
    (ha : a < b.dst + b.used ∨ b.dst + b.capacity ≤ a) :
    (Node.header indent name b.remainder m).memory a = m a := by
  obtain ⟨-, -, hmemory⟩ :=
    put_spec b.remainder m (List.replicate indent tab ++ [lt] ++ name)
  rw [header_eq, hmemory a]
  simp only [OutBuffer.remainder]
  omega

/-- A new node with a buffer. -/
structure Entered (b : OutBuffer) (name : List UInt8) (g g' : Generator) : Prop where
  outBuffer : g'.outBuffer = g.outBuffer
  depth : g'.depth = g.depth + 1
  currNode : g'.currNode = some g.depth
  currIndent : g'.currIndent = g.currIndent + 1
  others : ∀ j, j ≠ g.depth → g'.node j = g.node j
  dst : (g'.node g.depth).outBuffer.dst = b.dst
  capacity : (g'.node g.depth).outBuffer.capacity = b.capacity
  memory : g'.memory = (Node.header g.currIndent name b g.memory).memory

theorem enter_cases (g : Generator) (name : List UInt8) (b : OutBuffer) :
    ((Node.header g.currIndent name b g.memory).ok = false ∧ g.enter name b =
        (false, { g with memory := (Node.header g.currIndent name b g.memory).memory })) ∨
      ((Node.header g.currIndent name b g.memory).ok = true ∧ (g.enter name b).1 = true ∧
        Entered b name g (g.enter name b).2) := by
  obtain ⟨-, hbuffer, -⟩ := put_spec b g.memory (List.replicate g.currIndent tab ++ [lt] ++ name)
  rw [← header_eq] at hbuffer
  rw [enter]
  dsimp only
  by_cases hok : (Node.header g.currIndent name b g.memory).ok = true
  · rw [if_pos hok]
    refine .inr ⟨hok, rfl, rfl, rfl, rfl, rfl, fun j hj => Function.update_of_ne hj _ _, ?_, ?_,
      rfl⟩
    · show (Function.update g.node g.depth _ g.depth).outBuffer.dst = b.dst
      rw [Function.update_self, hbuffer]
    · show (Function.update g.node g.depth _ g.depth).outBuffer.capacity = b.capacity
      rw [Function.update_self, hbuffer]
  · rw [if_neg hok]
    exact .inl ⟨Bool.eq_false_iff.mpr hok, rfl⟩

theorem openNode_cases (hg : At i g) (name : List UInt8) :
    ((g.openNode name).1 = false ∧ Frame i (g.node i).outBuffer.used g (g.openNode name).2 ∧
        (g.openNode name).2.node i = ((g.node i).openContent g.memory true).node) ∨
      ((g.openNode name).1 = true ∧ Opened i g (g.openNode name).2) := by
  have hkept := openContent_kept (g.node i) g.memory true
  have hused := openContent_used (g.node i) g.memory
  rw [openNode, hg.currNode]
  dsimp only
  generalize hr : (g.node i).openContent g.memory true = r at hkept hused ⊢
  by_cases hok : r.ok = true
  swap
  · rw [if_neg hok]
    exact .inl ⟨rfl, write_frame hkept, node_write⟩
  rw [if_pos hok]
  have hmemory : ∀ a, a < (g.node i).outBuffer.dst + (g.node i).outBuffer.used ∨
      (g.node i).outBuffer.dst + (g.node i).outBuffer.capacity ≤ a →
      (Node.header g.currIndent name r.node.outBuffer.remainder r.memory).memory a =
        g.memory a := by
    intro a ha
    rw [header_memory (by rw [hkept.dst, hkept.capacity]; omega), hkept.memory a ha]
  rcases enter_cases (g.write i r.node r.memory) name r.node.outBuffer.remainder with
    ⟨-, henter⟩ | ⟨-, henter, he⟩
  · rw [henter]
    exact .inl ⟨rfl, ⟨rfl, rfl, rfl, rfl, fun j hj => node_write_of_ne (by omega),
      by rw [node_write, hkept.indentLevel], by rw [node_write, hkept.dst],
      by rw [node_write, hkept.capacity], hmemory⟩, node_write⟩
  · have hdepth : (g.write i r.node r.memory).depth = i + 1 := hg.depth
    have hparent := (he.others i (by omega)).trans node_write
    have hsub := he.dst
    have hsub' := he.capacity
    rw [hdepth] at hsub hsub'
    refine .inr ⟨henter, ⟨?_, ?_⟩, he.outBuffer, he.currIndent, fun j hj => ?_, by rw [hr, hok],
      by rw [hr, hparent], ?_, ?_, fun a ha => ?_⟩
    · rw [he.currNode, hdepth]
    · rw [he.depth, hdepth]
    · rw [he.others j (by omega), node_write_of_ne (by omega)]
    · rw [hsub, hparent]
      rfl
    · rw [hsub', hparent]
      rfl
    · rw [he.memory]
      exact hmemory a ha

theorem openContent_ok (node : Node) (m : Memory) : (node.openContent m true).ok = true ↔
    (if node.hasContent then 1 else 2) ≤ node.outBuffer.capacity - node.outBuffer.used := by
  have hlen : (node.opening true).length = if node.hasContent then 1 else 2 := by
    unfold Node.opening
    cases node.hasContent <;> rfl
  have hput := (put_spec node.outBuffer m (node.opening true)).1
  rw [← hlen, ← hput, openContent_eq]
  split <;> simp_all

/-- Nothing is written into a full buffer. -/
theorem openContent_full {node : Node} (m : Memory)
    (h : node.outBuffer.capacity ≤ node.outBuffer.used) :
    (node.openContent m true).node = node := by
  obtain ⟨-, hbuffer, -⟩ := put_spec node.outBuffer m (node.opening true)
  have hok := openContent_ok node m
  rw [openContent_eq] at hok ⊢
  split
  · rename_i hput
    rw [if_pos hput, Nat.sub_eq_zero_of_le h] at hok
    have hle := hok.mp rfl
    split at hle <;> omega
  · rw [hbuffer, Nat.sub_eq_zero_of_le h]
    simp

theorem undoAppend_eq (b : OutBuffer) (len : Nat) :
    b.undoAppend len = { b with used := b.used - len } := by
  unfold OutBuffer.undoAppend
  congr 1
  split <;> omega

/-- The undone node is the one from before. -/
theorem undoContent_openContent (node : Node) (m : Memory)
    (h : (node.openContent m true).ok = true) :
    (node.openContent m true).node.undoContent true node.isIndented node.hasContent = node := by
  have hused := openContent_used node m
  have hroom := (openContent_ok node m).mp h
  obtain ⟨-, hbuffer, -⟩ := put_spec node.outBuffer m (node.opening true)
  rw [openContent_eq] at h hused ⊢
  split at h
  · rename_i hok
    rw [if_pos hok] at hused ⊢
    rw [hbuffer] at hused ⊢
    dsimp only at hused
    rw [hused]
    obtain ⟨indentLevel, ⟨dst, capacity, used⟩, hasContent, isIndented, attrOffset⟩ := node
    cases hasContent
    · simp [Node.undoContent, undoAppend_eq] at hroom ⊢
      omega
    · simp [Node.undoContent, undoAppend_eq] at hroom ⊢
      omega
  · cases h

theorem footer_memory (node : Node) (m : Memory) (name : List UInt8) :
    (node.footer m name).buffer.dst = node.outBuffer.dst ∧
      (node.footer m name).buffer.capacity = node.outBuffer.capacity ∧
      ∀ a, a < node.outBuffer.dst ∨ node.outBuffer.dst + node.outBuffer.capacity ≤ a →
        (node.footer m name).memory a = m a := by
  have hfooter : ∃ text, node.footer m name = node.outBuffer.put m text := by
    have hnil : (⟨true, node.outBuffer, m⟩ : Put) = node.outBuffer.put m [] := rfl
    unfold Node.footer
    simp only [hnil]
    cases node.isIndented <;> cases node.hasContent <;>
      simp only [put_append, if_true, if_false, Bool.false_eq_true] <;> exact ⟨_, rfl⟩
  obtain ⟨text, htext⟩ := hfooter
  obtain ⟨-, hbuffer, hmemory⟩ := put_spec node.outBuffer m text
  rw [htext]
  exact ⟨by rw [hbuffer], by rw [hbuffer], fun a ha => hmemory a (by omega)⟩

/-- The state after the functor of a sub node. -/
structure Called (i : Nat) (g g' : Generator) : Prop where
  opened : ∃ g₁, Opened i g g₁ ∧ Frame (i + 1) 0 g₁ g'

namespace Called

variable (h : Called i g g')

include h

theorem parent : g'.node i = ((g.node i).openContent g.memory true).node := by
  obtain ⟨g₁, ho, hf⟩ := h.opened
  rw [hf.others i (by omega), ho.parent]

theorem ok : ((g.node i).openContent g.memory true).ok = true := by
  obtain ⟨g₁, ho, -⟩ := h.opened
  exact ho.ok

theorem sub : (g'.node (i + 1)).outBuffer.dst =
      (g.node i).outBuffer.dst + (g'.node i).outBuffer.used ∧
    (g'.node (i + 1)).outBuffer.capacity =
      (g.node i).outBuffer.capacity - (g'.node i).outBuffer.used := by
  obtain ⟨g₁, ho, hf⟩ := h.opened
  have hkept := openContent_kept (g.node i) g.memory true
  have hsame := hf.others i (by omega)
  rw [hf.dst, hf.capacity, ho.dst, ho.capacity, hsame, ho.parent, hkept.dst, hkept.capacity]
  exact ⟨rfl, rfl⟩

theorem used : (g'.node i).outBuffer.used =
    (g.node i).outBuffer.used + if (g.node i).hasContent then 1 else 2 := by
  have hroom := (openContent_ok (g.node i) g.memory).mp h.ok
  rw [h.parent, openContent_used, Nat.min_eq_left hroom]

theorem memory {m : Memory} (hm : ∀ a, a < (g'.node (i + 1)).outBuffer.dst ∨
      (g'.node (i + 1)).outBuffer.dst + (g'.node (i + 1)).outBuffer.capacity ≤ a →
      m a = g'.memory a) {a : Nat}
    (ha : a < (g.node i).outBuffer.dst + (g.node i).outBuffer.used ∨
      (g.node i).outBuffer.dst + (g.node i).outBuffer.capacity ≤ a) : m a = g.memory a := by
  have hroom := (openContent_ok (g.node i) g.memory).mp h.ok
  obtain ⟨hdst, hcapacity⟩ := h.sub
  have hused := h.used
  obtain ⟨g₁, ho, hf⟩ := h.opened
  have hd := hf.dst
  have hc := hf.capacity
  have hout : a < (g'.node (i + 1)).outBuffer.dst ∨
      (g'.node (i + 1)).outBuffer.dst + (g'.node (i + 1)).outBuffer.capacity ≤ a := by
    rw [hdst, hcapacity, hused]
    omega
  rw [hm a hout, hf.memory a (by rw [← hd, ← hc]; exact hout), ho.memory a ha]

/-- A new state of the parent and of the memory behind its text. -/
theorem frame (hg : At i g) {node : Node} {m : Memory}
    (hindent : node.indentLevel = (g.node i).indentLevel)
    (hdst : node.outBuffer.dst = (g.node i).outBuffer.dst)
    (hcapacity : node.outBuffer.capacity = (g.node i).outBuffer.capacity)
    (hm : ∀ a, a < (g'.node (i + 1)).outBuffer.dst ∨
      (g'.node (i + 1)).outBuffer.dst + (g'.node (i + 1)).outBuffer.capacity ≤ a →
      m a = g'.memory a) :
    Frame i (g.node i).outBuffer.used g ((g'.leave (i + 1) (some i)).write i node m) := by
  obtain ⟨g₁, ho, hf⟩ := h.opened
  refine ⟨hf.outBuffer.trans ho.outBuffer, hg.depth.symm, hg.currNode.symm, ?_, fun j hj => ?_, ?_,
    ?_, ?_, fun a ha => h.memory hm ha⟩
  · show g'.currIndent - 1 = g.currIndent
    rw [hf.currIndent, ho.currIndent, Nat.add_sub_cancel]
  · rw [node_write_of_ne (by omega)]
    show g'.node j = g.node j
    rw [hf.others j (by omega), ho.others j hj]
  · rw [node_write, hindent]
  · rw [node_write, hdst]
  · rw [node_write, hcapacity]

end Called

theorem write_same (g : Generator) (i : Nat) (m : Memory) :
    { g with memory := m } = g.write i (g.node i) m := by
  rw [write, Function.update_eq_self]

/-- What the constructor writes behind the content is not undone. -/
theorem Called.closeNode (h : Called i g g') (hg : At i g) (name : List UInt8) :
    Frame i (g.node i).outBuffer.used g (g'.closeNode (ε := ε) name (i + 1) (some i)).2 ∧
      (g.node i).outBuffer.used <
        ((g'.closeNode (ε := ε) name (i + 1) (some i)).2.node i).outBuffer.used := by
  have hkept := openContent_kept (g.node i) g.memory true
  have hparent := h.parent
  have hmore : (g.node i).outBuffer.used < (g'.node i).outBuffer.used := by
    rw [h.used]
    split <;> omega
  have hindent : (g'.node i).indentLevel = (g.node i).indentLevel := by
    rw [hparent, hkept.indentLevel]
  have hdst : (g'.node i).outBuffer.dst = (g.node i).outBuffer.dst := by rw [hparent, hkept.dst]
  have hcapacity : (g'.node i).outBuffer.capacity = (g.node i).outBuffer.capacity := by
    rw [hparent, hkept.capacity]
  -- the footer and the terminating zero stay within the buffer of the sub node
  obtain ⟨hfdst, hfcapacity, hfooter⟩ := footer_memory (g'.node (i + 1)) g'.memory name
  obtain ⟨-, -, hended⟩ := put_spec ((g'.node (i + 1)).footer g'.memory name).buffer
    ((g'.node (i + 1)).footer g'.memory name).memory [0]
  have hmemory : ∀ a, a < (g'.node (i + 1)).outBuffer.dst ∨
      (g'.node (i + 1)).outBuffer.dst + (g'.node (i + 1)).outBuffer.capacity ≤ a →
      (((g'.node (i + 1)).footer g'.memory name).buffer.put
        ((g'.node (i + 1)).footer g'.memory name).memory [0]).memory a = g'.memory a := by
    intro a ha
    rw [hended a (by rw [hfdst, hfcapacity]; omega), hfooter a ha]
  unfold Generator.closeNode
  dsimp only
  rw [write_same (g'.leave (i + 1) (some i)) i]
  split
  · cases hcommit : ((g'.leave (i + 1) (some i)).node i).commitContent
      (((g'.leave (i + 1) (some i)).node (i + 1)).footer (g'.leave (i + 1) (some i)).memory
        name).buffer with
    | none => exact ⟨h.frame hg hindent hdst hcapacity hfooter, by rw [node_write]; exact hmore⟩
    | some node =>
      obtain ⟨-, rfl⟩ := commitContent_eq_some.mp hcommit
      refine ⟨h.frame hg hindent hdst hcapacity hmemory, ?_⟩
      rw [node_write]
      exact hmore.trans_le (Nat.le_add_right _ _)
  · exact ⟨h.frame hg hindent hdst hcapacity hfooter, by rw [node_write]; exact hmore⟩

/-- The outcomes of the constructor of a sub node. -/
theorem construct_cases {call : Generator → Option (Thrown ε) × Generator} (hg : At i g)
    (hcall : ∀ g', At (i + 1) g' → Frame (i + 1) 0 g' (call g').2) (name : List UInt8) :
    Frame i (g.node i).outBuffer.used g (g.construct call name).2 ∧
      (((g.openNode name).1 = false ∧
          (g.construct call name).2.node i = ((g.node i).openContent g.memory true).node) ∨
        ((g.openNode name).1 = true ∧ (call (g.openNode name).2).1.isSome = true ∧
          (g.construct call name).2.node i = g.node i) ∨
        ((g.openNode name).1 = true ∧ (call (g.openNode name).2).1.isSome = false ∧
          (g.node i).outBuffer.used < ((g.construct call name).2.node i).outBuffer.used)) := by
  rw [construct, hg.currNode, hg.depth]
  dsimp only
  rcases openNode_cases hg name with ⟨hfalse, hframe, hnode⟩ | ⟨htrue, hopened⟩
  · rw [if_neg (by rw [hfalse]; exact Bool.false_ne_true)]
    exact ⟨hframe, .inl ⟨hfalse, hnode⟩⟩
  · have hcalled : Called i g (call (g.openNode name).2).2 :=
      ⟨_, hopened, hcall _ hopened.at'⟩
    rw [if_pos htrue]
    cases hthrown : (call (g.openNode name).2).1 with
    | none =>
      obtain ⟨hframe, hmore⟩ := hcalled.closeNode (ε := ε) hg name
      exact ⟨hframe, .inr (.inr ⟨htrue, rfl, hmore⟩)⟩
    | some e =>
      have hback : ((call (g.openNode name).2).2.node i).undoContent true (g.node i).isIndented
          (g.node i).hasContent = g.node i := by
        rw [hcalled.parent]
        exact undoContent_openContent (g.node i) g.memory hcalled.ok
      rw [undo]
      dsimp only
      refine ⟨hcalled.frame hg ?_ ?_ ?_ (fun _ _ => rfl), .inr (.inl ⟨htrue, rfl, ?_⟩)⟩
      · exact congrArg Node.indentLevel hback
      · exact congrArg (fun node => node.outBuffer.dst) hback
      · exact congrArg (fun node => node.outBuffer.capacity) hback
      · rw [node_write]
        exact hback

/-- A functor changes its node only. -/
theorem run_frame (c : Calls ε) (hg : At i g) : Frame i 0 g (c.run g).2 := by
  induction c generalizing i g with
  | done => exact .refl i 0 g
  | throw e => exact .refl i 0 g
  | attr name value next ih =>
    have hf := atCurr_frame (ε := ε) hg fun node m => addAttribute_kept node m name value
    exact hf.trans (ih _ (hf.at hg))
  | append src next ih =>
    have hf := atCurr_frame (ε := ε) hg fun node m => addContent_kept node m src
    exact hf.trans (ih _ (hf.at hg))
  | appendSanitized src next ih =>
    have hf := atCurr_frame (ε := ε) hg fun node m =>
      addContent_kept node m (src.flatMap OutBuffer.sanitized)
    exact hf.trans (ih _ (hf.at hg))
  | node name func next ihf ih =>
    have hf := (construct_cases hg (fun g' hg' => ihf hg') name).1
    exact (hf.mono (Nat.zero_le _)).trans (ih _ (hf.at hg))

/-- The functor of the outermost node is called at this node. -/
theorem at_of_outermost (hg : g.currNode = none) (hdepth : g.depth = 0)
    (h : (g.openNode name).1 = true) : At 0 (g.openNode name).2 := by
  rw [openNode, hg] at h ⊢
  dsimp only at h ⊢
  rcases enter_cases g name g.outBuffer with ⟨-, henter⟩ | ⟨-, -, he⟩
  · rw [henter] at h
    cases h
  · exact ⟨by rw [he.currNode, hdepth], by rw [he.depth, hdepth]⟩

/-! ## What an exception leaves behind -/

/-- The generator is as it was, and so is the text of the node `i`. -/
structure Restored (i : Nat) (g g' : Generator) : Prop where
  currNode : g'.currNode = g.currNode
  currIndent : g'.currIndent = g.currIndent
  depth : g'.depth = g.depth
  outBuffer : g'.outBuffer = g.outBuffer
  nodes : ∀ j < g.depth, g'.node j = g.node j
  text : ∀ k < (g.node i).outBuffer.used, g'.memory ((g.node i).outBuffer.dst + k) =
    g.memory ((g.node i).outBuffer.dst + k)

/-- There is room for what is written in front of the attributes of a sub node. -/
def HeaderFits (g : Generator) (i : Nat) (name : List UInt8) : Prop :=
  (g.node i).outBuffer.used + (if (g.node i).hasContent then 1 else 2) +
    (g.currIndent + 1 + name.length) ≤ (g.node i).outBuffer.capacity

/-- The functor is called, and an exception leaves it. -/
def ThrownByFunctor (g : Generator) (i : Nat) (name : List UInt8) (func : Calls ε) : Prop :=
  g.HeaderFits i name ∧ (func.run (g.openNode name).2).1.isSome = true

theorem openNode_iff (hg : At i g) : (g.openNode name).1 = true ↔ g.HeaderFits i name := by
  have hok := openContent_ok (g.node i) g.memory
  have hused := openContent_used (g.node i) g.memory
  have hcapacity := (openContent_kept (g.node i) g.memory true).capacity
  rw [openNode, hg.currNode, HeaderFits]
  dsimp only
  generalize (g.node i).openContent g.memory true = r at hok hused hcapacity ⊢
  have hheader : (Node.header g.currIndent name r.node.outBuffer.remainder r.memory).ok = true ↔
      g.currIndent + 1 + name.length ≤ r.node.outBuffer.capacity - r.node.outBuffer.used := by
    rw [header_eq, (put_spec _ _ _).1]
    simp [OutBuffer.remainder, Nat.add_assoc, Nat.add_comm 1]
  by_cases hr : r.ok = true
  · have hroom := hok.mp hr
    rw [hcapacity, hused, Nat.min_eq_left hroom] at hheader
    rw [if_pos hr]
    have hwritten : (Node.header (g.write i r.node r.memory).currIndent name
        r.node.outBuffer.remainder (g.write i r.node r.memory).memory).ok = true ↔ _ := hheader
    rcases enter_cases (g.write i r.node r.memory) name r.node.outBuffer.remainder with
      ⟨hno, henter⟩ | ⟨hyes, henter, -⟩
    · rw [henter]
      rw [hno] at hwritten
      simp only [Bool.false_eq_true, false_iff] at hwritten ⊢
      omega
    · have hfits := hwritten.mp hyes
      refine iff_of_true henter ?_
      omega
  · have hroom : ¬ (if (g.node i).hasContent then 1 else 2) ≤
        (g.node i).outBuffer.capacity - (g.node i).outBuffer.used := fun h => hr (hok.mpr h)
    rw [if_neg hr]
    simp only [Bool.false_eq_true, false_iff]
    omega

/-- If the generation of a sub node ends with an exception, the generator is as
before exactly if nothing could be written at all, or if the exception comes
from the functor. -/
theorem restored_iff {func : Calls ε} {e : Thrown ε} (hg : At i g)
    (hx : g.construct func.run name = (some e, g')) :
    Restored i g g' ↔ (g.node i).outBuffer.capacity ≤ (g.node i).outBuffer.used ∨
      g.ThrownByFunctor i name func := by
  have hcases := construct_cases hg (fun g' hg' => run_frame func hg') name
  rw [hx] at hcases
  obtain ⟨hframe, hcases⟩ := hcases
  have hback : g'.node i = g.node i → Restored i g g' := by
    intro hnode
    refine ⟨hframe.currNode, hframe.currIndent, hframe.depth, hframe.outBuffer, fun j hj => ?_,
      fun k hk => hframe.memory _ (.inl (by omega))⟩
    rw [hg.depth] at hj
    rcases Nat.lt_succ_iff_lt_or_eq.mp hj with hlt | rfl
    · exact hframe.others j hlt
    · exact hnode
  rw [ThrownByFunctor, ← openNode_iff hg]
  constructor
  · intro hr
    have hsame : (g'.node i).outBuffer.used = (g.node i).outBuffer.used := by
      rw [hr.nodes i (by rw [hg.depth]; exact Nat.lt_succ_self i)]
    rcases hcases with ⟨-, hnode⟩ | ⟨hopen, hthrown, -⟩ | ⟨-, -, hmore⟩
    · -- not even one character was written
      left
      have hused := openContent_used (g.node i) g.memory
      dsimp only at hnode
      rw [← hnode, hsame] at hused
      split at hused <;> omega
    · exact .inr ⟨hopen, hthrown⟩
    · exact absurd hsame hmore.ne'
  · intro hc
    apply hback
    rcases hcases with ⟨hclosed, hnode⟩ | ⟨-, -, hnode⟩ | ⟨hopen, hreturned, -⟩
    · have hfull := hc.resolve_right fun h => Bool.false_ne_true (hclosed.symm.trans h.1)
      exact hnode.trans (openContent_full g.memory hfull)
    · exact hnode
    · rcases hc with hfull | hthrown
      · have hfits := (openNode_iff hg).mp hopen
        rw [HeaderFits] at hfits
        omega
      · rw [hreturned] at hthrown
        exact absurd hthrown.2 Bool.false_ne_true

/-- The functor of the outermost node is called; the buffer has `capacity` bytes. -/
def outermost (capacity : Nat) : Generator :=
  ⟨⟨0, capacity, 0⟩, fun _ => ⟨0, ⟨0, capacity, 2⟩, false, false, 2⟩, 1, some 0, 1, fun _ => 0⟩

theorem at_outermost (capacity : Nat) : At 0 (outermost capacity) := ⟨rfl, rfl⟩

/-- A functor that throws an exception after an attribute. -/
def throwing : Calls Unit := .attr (bytes ['k']) (bytes ['v']) fun _ => .throw (.other ())

theorem restored_throwing : ∃ g', (outermost 32).construct throwing.run (bytes ['b']) =
      (some (.other ()), g') ∧ Restored 0 (outermost 32) g' := by
  have hx : (outermost 32).construct throwing.run (bytes ['b']) =
      (some (.other ()), ((outermost 32).construct throwing.run (bytes ['b'])).2) :=
    Prod.ext rfl rfl
  refine ⟨_, hx, (restored_iff (at_outermost 32) hx).mpr (.inr ⟨?_, rfl⟩)⟩
  show 2 + 2 + (1 + 1 + 1) ≤ 32
  omega

/-- The header of the sub node exceeds the buffer. -/
theorem header_not_undone : ∃ g', (outermost 8).construct throwing.run
      (bytes ['a', 'b', 'c', 'd']) = (some .bufferExceeded, g') ∧
    ¬ Restored 0 (outermost 8) g' := by
  refine ⟨_, Prod.ext rfl rfl, fun h => ?_⟩
  have hsame := congrArg (fun node => node.outBuffer.used) (h.nodes 0 (by decide))
  exact absurd hsame (by decide)

end Generator

/-! ## Scripts that never exceed the buffer -/

section Scripts

variable {ε : Type} {b b' : OutBuffer} {m m' : Memory} {node node' : Node} {src name : List UInt8}

/-- The calls of a script. An exception is not caught. -/
def Calls.ofScript : Script → Calls ε
  | .done => .done
  | .attr name value rest => .attr name value fun e => e.elim (ofScript rest) .throw
  | .appendSanitized src rest => .appendSanitized src fun e => e.elim (ofScript rest) .throw
  | .node name body rest => .node name (ofScript body) fun e => e.elim (ofScript rest) .throw

theorem put_of_appendBytes (h : b.appendBytes m src = some (b', m')) :
    b.put m src = ⟨true, b', m'⟩ := by
  induction src generalizing b m with
  | nil =>
    cases h
    rfl
  | cons c src ih =>
    rw [OutBuffer.appendBytes] at h
    cases hc : b.append m c with
    | none => simp [hc] at h
    | some r =>
      rw [OutBuffer.put, hc]
      rw [hc] at h
      exact ih h

theorem put_of_append {c : UInt8} (h : b.append m c = some (b', m')) :
    b.put m [c] = ⟨true, b', m'⟩ := by
  rw [OutBuffer.put, h]
  rfl

theorem append_of_ok : (⟨true, b, m⟩ : Put).append src = b.put m src := rfl

theorem openContent_of_contentBuffer {indented : Bool}
    (h : node.contentBuffer m indented = some (node', m')) :
    node.openContent m indented = ⟨true, node', m'⟩ := by
  obtain ⟨⟨b₁, m₁⟩, h₁, h⟩ := Option.bind_eq_some_iff.mp h
  obtain ⟨⟨b₂, m₂⟩, h₂, h⟩ := Option.bind_eq_some_iff.mp h
  have hfirst : (if node.hasContent then (⟨true, node.outBuffer, m⟩ : Put)
      else (⟨true, node.outBuffer, m⟩ : Put).append [gt]) = ⟨true, b₁, m₁⟩ := by
    cases hc : node.hasContent
    · rw [hc] at h₁
      exact put_of_append h₁
    · rw [hc] at h₁
      cases h₁
      rfl
  have hsecond : (if indented then (⟨true, b₁, m₁⟩ : Put).append [newline]
      else ⟨true, b₁, m₁⟩) = ⟨true, b₂, m₂⟩ := by
    cases indented
    · cases h₂
      rfl
    · exact put_of_append h₂
  cases h
  rw [Node.openContent]
  rw [hfirst, hsecond]
  rfl

theorem header_of_start {indent : Nat} (h : Node.start indent name b m = some (node, m')) :
    ∃ b', Node.header indent name b m = ⟨true, b', m'⟩ ∧
      node = ⟨indent, b', false, false, b'.used⟩ := by
  obtain ⟨⟨b₁, m₁⟩, h₁, h⟩ := Option.bind_eq_some_iff.mp h
  obtain ⟨⟨b₂, m₂⟩, h₂, h⟩ := Option.bind_eq_some_iff.mp h
  obtain ⟨⟨b₃, m₃⟩, h₃, h⟩ := Option.bind_eq_some_iff.mp h
  cases h
  refine ⟨b₃, ?_, rfl⟩
  rw [Node.header, put_of_appendBytes h₁, append_of_ok, put_of_append h₂, append_of_ok,
    put_of_appendBytes h₃]

theorem footer_of_finish (h : node.finish m name = some (b', m')) :
    node.footer m name = ⟨true, b', m'⟩ := by
  obtain ⟨⟨b₁, m₁⟩, h₁, h⟩ := Option.bind_eq_some_iff.mp h
  have hfirst : (if node.isIndented then ((⟨true, node.outBuffer, m⟩ : Put).append
      [newline]).append (List.replicate node.indentLevel tab)
      else ⟨true, node.outBuffer, m⟩) = ⟨true, b₁, m₁⟩ := by
    cases hi : node.isIndented
    · rw [hi] at h₁
      cases h₁
      rfl
    · rw [hi, if_pos rfl] at h₁
      obtain ⟨⟨b₀, m₀⟩, h₀, h₁⟩ := Option.bind_eq_some_iff.mp h₁
      rw [if_pos rfl, append_of_ok, put_of_append h₀, append_of_ok]
      exact put_of_appendBytes h₁
  rw [Node.footer, hfirst]
  cases hc : node.hasContent
  · rw [hc] at h
    exact put_of_appendBytes h
  · rw [hc] at h
    obtain ⟨⟨b₂, m₂⟩, h₂, h⟩ := Option.bind_eq_some_iff.mp h
    obtain ⟨⟨b₃, m₃⟩, h₃, h⟩ := Option.bind_eq_some_iff.mp h
    rw [if_pos rfl, append_of_ok, put_of_appendBytes h₂, append_of_ok, put_of_appendBytes h₃,
      append_of_ok]
    exact put_of_append h

theorem addAttribute_of_insertAttribute {value : List UInt8}
    (h : node.insertAttribute m name value = some (node', m')) :
    node.addAttribute m name value = ⟨true, node', m'⟩ := by
  obtain ⟨⟨dst, b₀, m₀⟩, h₀, h⟩ := Option.bind_eq_some_iff.mp h
  obtain ⟨⟨b₁, m₁⟩, h₁, h⟩ := Option.bind_eq_some_iff.mp h
  obtain ⟨⟨b₂, m₂⟩, h₂, h⟩ := Option.bind_eq_some_iff.mp h
  obtain ⟨⟨b₃, m₃⟩, h₃, h⟩ := Option.bind_eq_some_iff.mp h
  obtain ⟨⟨b₄, m₄⟩, h₄, h⟩ := Option.bind_eq_some_iff.mp h
  obtain ⟨⟨b₅, m₅⟩, h₅, h⟩ := Option.bind_eq_some_iff.mp h
  cases h
  rw [Node.addAttribute, h₀]
  dsimp only
  rw [put_of_append h₁, append_of_ok, put_of_appendBytes h₂, append_of_ok, put_of_appendBytes h₃,
    append_of_ok, put_of_appendBytes h₄, append_of_ok, put_of_appendBytes h₅]
  rfl

theorem addContent_of_appendSanitized (h : node.appendSanitized m src = some (node', m')) :
    node.addContent m (src.flatMap OutBuffer.sanitized) = ⟨true, node', m'⟩ := by
  obtain ⟨⟨node₁, m₁⟩, h₁, h⟩ := Option.bind_eq_some_iff.mp h
  obtain ⟨⟨content, m₂⟩, h₂, h⟩ := Option.bind_eq_some_iff.mp h
  obtain ⟨node₂, h₃, h⟩ := Option.bind_eq_some_iff.mp h
  cases h
  rw [Node.addContent, openContent_of_contentBuffer h₁]
  dsimp only
  rw [put_of_appendBytes h₂]
  dsimp only
  rw [h₃]
  rfl

variable {g : Generator} {i : Nat}

open Generator

theorem atCurr_of_ok {call : Node → Memory → Node.Result} (hg : At i g)
    (h : call (g.node i) g.memory = ⟨true, node', m'⟩) :
    g.atCurr (ε := ε) call = (none, g.write i node' m') := by
  rw [atCurr, hg.currNode]
  dsimp only
  rw [h]
  rfl

theorem openNode_of_start {sub parent : Node} {m₁ m₂ : Memory} (hg : At i g)
    (h : (g.node i).contentBuffer g.memory true = some (parent, m₁))
    (hs : Node.start g.currIndent name parent.outBuffer.remainder m₁ = some (sub, m₂)) :
    ∃ g₁, g.openNode name = (true, g₁) ∧ g₁.node (i + 1) = sub ∧
      sub.indentLevel = g.currIndent ∧ g₁.memory = m₂ := by
  obtain ⟨b, hheader, rfl⟩ := header_of_start hs
  have hheader' : Node.header (g.write i parent m₁).currIndent name parent.outBuffer.remainder
      (g.write i parent m₁).memory = ⟨true, b, m₂⟩ := hheader
  rw [openNode, hg.currNode]
  dsimp only
  rw [openContent_of_contentBuffer h, if_pos rfl, enter, hheader']
  refine ⟨_, rfl, ?_, rfl, rfl⟩
  show Function.update _ g.depth _ (i + 1) = _
  rw [hg.depth, Function.update_self]
  rfl

theorem closeNode_of_finish {sub parent parent' : Node} {m₁ m₂ m₃ : Memory} {ended : OutBuffer}
    (hnode : g.node (i + 1) = sub) (hmemory : g.memory = m₁) (hparent : g.node i = parent)
    (hf : sub.finish m₁ name = some (b, m₂)) (hc : parent.commitContent b = some parent')
    (he : b.append m₂ 0 = some (ended, m₃)) : g.closeNode (ε := ε) name (i + 1) (some i) =
      (none, (g.leave (i + 1) (some i)).write i parent' m₃) := by
  have hfooter : ((g.leave (i + 1) (some i)).node (i + 1)).footer
      (g.leave (i + 1) (some i)).memory name = ⟨true, b, m₂⟩ := by
    show (g.node (i + 1)).footer g.memory name = _
    rw [hnode, hmemory]
    exact footer_of_finish hf
  have hcommit : ((g.leave (i + 1) (some i)).node i).commitContent b = some parent' := by
    show (g.node i).commitContent b = _
    rw [hparent, hc]
  unfold Generator.closeNode
  dsimp only
  rw [hfooter]
  dsimp only
  rw [hcommit, put_of_append he]
  rfl

/-- The generator does what a script says as long as nothing exceeds the buffer. -/
theorem run_ofScript {script : Script} (hg : At i g)
    (hindent : g.currIndent = (g.node i).indentLevel + 1)
    (h : script.run (g.node i) g.memory = some (node', m')) :
    ((Calls.ofScript (ε := ε) script).run g).1 = none ∧
      ((Calls.ofScript (ε := ε) script).run g).2.node i = node' ∧
      ((Calls.ofScript (ε := ε) script).run g).2.memory = m' := by
  induction script generalizing i g node' m' with
  | done =>
    cases h
    exact ⟨rfl, rfl, rfl⟩
  | attr name value rest ih =>
    obtain ⟨⟨node₁, m₁⟩, h₁, h⟩ := Option.bind_eq_some_iff.mp h
    have hcall : g.atCurr (ε := ε) (fun node m => node.addAttribute m name value) = _ :=
      atCurr_of_ok hg (addAttribute_of_insertAttribute h₁)
    have hf := atCurr_frame (ε := ε) hg fun node m => addAttribute_kept node m name value
    rw [hcall] at hf
    rw [Calls.ofScript, Calls.run, hcall]
    apply ih (hf.at hg)
    · rw [hf.currIndent, hindent, hf.indentLevel]
    · rw [node_write]
      exact h
  | appendSanitized src rest ih =>
    obtain ⟨⟨node₁, m₁⟩, h₁, h⟩ := Option.bind_eq_some_iff.mp h
    have hcall : g.atCurr (ε := ε)
        (fun node m => node.addContent m (src.flatMap OutBuffer.sanitized)) = _ :=
      atCurr_of_ok hg (addContent_of_appendSanitized h₁)
    have hf := atCurr_frame (ε := ε) hg fun node m =>
      addContent_kept node m (src.flatMap OutBuffer.sanitized)
    rw [hcall] at hf
    rw [Calls.ofScript, Calls.run, hcall]
    apply ih (hf.at hg)
    · rw [hf.currIndent, hindent, hf.indentLevel]
    · rw [node_write]
      exact h
  | node name body rest ihb ih =>
    obtain ⟨⟨parent, m₁⟩, h₁, h⟩ := Option.bind_eq_some_iff.mp h
    obtain ⟨⟨sub, m₂⟩, h₂, h⟩ := Option.bind_eq_some_iff.mp h
    obtain ⟨⟨sub', m₃⟩, h₃, h⟩ := Option.bind_eq_some_iff.mp h
    obtain ⟨⟨b, m₄⟩, h₄, h⟩ := Option.bind_eq_some_iff.mp h
    obtain ⟨parent', h₅, h⟩ := Option.bind_eq_some_iff.mp h
    obtain ⟨⟨b', m₅⟩, h₆, h⟩ := Option.bind_eq_some_iff.mp h
    have hkept := openContent_kept (g.node i) g.memory true
    rw [openContent_of_contentBuffer h₁] at hkept
    rw [show parent.indentLevel + 1 = g.currIndent by rw [hindent, ← hkept.indentLevel]] at h₂
    obtain ⟨g₁, hopen, hsub, hsubindent, hmemory⟩ := openNode_of_start hg h₁ h₂
    have hopened : Opened i g g₁ := by
      rcases openNode_cases hg name with ⟨hfalse, -⟩ | ⟨-, hopened⟩
      · rw [hopen] at hfalse
        cases hfalse
      · rwa [hopen] at hopened
    obtain ⟨hnone, hnode, hmemory'⟩ := ihb hopened.at'
      (by rw [hopened.currIndent, hsub, hsubindent]) (by rw [hsub, hmemory]; exact h₃)
    have hcalled : Called i g ((Calls.ofScript (ε := ε) body).run g₁).2 :=
      ⟨g₁, hopened, run_frame _ hopened.at'⟩
    have hparent := hcalled.parent
    rw [openContent_of_contentBuffer h₁] at hparent
    have hconstruct : g.construct (Calls.ofScript (ε := ε) body).run name = (none,
        (((Calls.ofScript (ε := ε) body).run g₁).2.leave (i + 1) (some i)).write i parent' m₅) := by
      rw [construct, hg.currNode, hg.depth, hopen]
      dsimp only
      rw [hnone]
      exact closeNode_of_finish hnode hmemory' hparent h₄ h₅ h₆
    have hf := (construct_cases hg (fun g' hg' => run_frame (Calls.ofScript (ε := ε) body) hg')
      name).1
    rw [hconstruct] at hf
    rw [Calls.ofScript, Calls.run, hconstruct]
    apply ih (hf.at hg)
    · rw [hf.currIndent, hindent, hf.indentLevel]
    · rw [node_write]
      exact h

end Scripts

end Genode.Util.Xml
