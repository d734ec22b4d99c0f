import Genode.Tresor.Types

/-!
# MetaTree — new addresses for the nodes of the free tree

The meta tree keeps the blocks that the free tree may move its nodes to. A
request gives up one block for another: the tree is searched depth first
for an entry of an older generation. On the way to it the meta tree moves
its own nodes with the help of other entries of the same node block, and
writes back what it has changed.
-/

namespace Genode.Tresor.MetaTree

open Genode.Lib

/-! ## Requests and channels -/

/-- `Meta_tree_request`, for an update. The root of the tree is passed by
reference and kept in the channel, as are the results. -/
structure Request where
  mtMaxLvl : Nat
  mtEdges : UInt64
  currentGen : Generation
  oldPba : PhysicalBlockAddress
  deriving DecidableEq, Repr

/-- `T2_NODE_LVL` -/
def t2NodeLvl : Nat := 1

/-- `MT_LOWEST_T1_LVL` -/
def mtLowestT1Lvl : Nat := 2

/-- `INVALID_NODE_INDEX` -/
def invalidNodeIndex : Nat := 0xff

/-- The state of a node on the way down, `Type_1_info::State` and
`Type_2_info::State`. -/
inductive NodeState where
  | invalid
  | read
  | readComplete
  | write
  | writeComplete
  | complete
  deriving DecidableEq, Repr

/-- `Type_1_info` -/
structure Type1Info where
  state : NodeState := .invalid
  node : Type1Node := {}
  entries : Type1NodeBlock := fun _ => {}
  index : Nat := invalidNodeIndex
  dirty : Bool := false
  volatil : Bool := false

/-- `Type_2_info` -/
structure Type2Info where
  state : NodeState := .invalid
  node : Type1Node := {}
  entries : Type2NodeBlock := fun _ => {}
  index : Nat := invalidNodeIndex
  volatil : Bool := false

inductive CacheState where
  | invalid
  | pending
  | inProgress
  deriving DecidableEq, Repr

inductive CacheOp where
  | read
  | write
  deriving DecidableEq, Repr

/-- `Local_cache_request` -/
structure LocalCacheRequest where
  state : CacheState := .invalid
  op : CacheOp := .read
  pba : PhysicalBlockAddress := 0
  level : Nat := 0
  blockData : Block := default
  deriving DecidableEq

/-- `Meta_tree_channel::State` -/
inductive State where
  | invalid
  | update
  | complete
  | treeHashMismatch
  deriving DecidableEq, Repr

/-- `Meta_tree_channel`, with the results of its request and the root that
the request refers to. -/
structure Channel where
  state : State := .invalid
  request : Request
  newPba : PhysicalBlockAddress := invalidPba
  success : Bool := false
  mtRoot : Type1Node
  cacheRequest : LocalCacheRequest := {}
  level1Node : Type2Info := {}
  levelNNodes : Nat → Type1Info := fun _ => {}
  finished : Bool := false
  rootDirty : Bool := false

namespace Channel

def setLevel (c : Channel) (lvl : Nat) (info : Type1Info) : Channel :=
  { c with levelNNodes := Function.update c.levelNNodes lvl info }

end Channel

/-- `_node_volatile` -/
def nodeVolatile (node : Type1Node) (gen : Generation) : Bool :=
  decide (node.gen = 0 ∨ node.gen ≠ gen)

/-- `check_level_0_usable` -/
def checkLevel0Usable (gen : Generation) (node : Type2Node) : Bool := decide (node.allocGen ≠ gen)

/-- An entry of a node block. -/
def entryIndex (index : Nat) : Exec (Fin nrOfNodesPerBlk) :=
  if h : index < nrOfNodesPerBlk then .ok ⟨index, h⟩ else .error .pointer

/-- `submit_request` -/
def submitRequest (c : Channel) (req : Request) (mtRoot : Type1Node) : Exec Channel := do
  Exec.assert (decide (c.state = .invalid))
  if req.mtMaxLvl < treeMaxNrOfLevels then
    let root := { state := .read
                  node := mtRoot
                  volatil := nodeVolatile mtRoot req.currentGen }
    pure { c with
      state := .update
      request := req
      newPba := invalidPba
      success := false
      mtRoot := mtRoot
      level1Node := {}
      levelNNodes := Function.update (fun _ => {}) req.mtMaxLvl root
      finished := false }
  else .error .pointer

/-! ## The exchange of addresses -/

/-- What an entry becomes that takes over an address. -/
def exchangedEntry (gen : Generation) (pba : PhysicalBlockAddress) (t2Entry : Type2Node) :
    Type2Node :=
  { t2Entry with pba := pba, allocGen := gen, freeGen := gen, reserved := false }

/-- A level whose node `_exchange_nv_inner_nodes` moves. -/
def Type1Info.movable (info : Type1Info) : Bool := info.node.valid && !info.volatil

/-- `_exchange_nv_inner_nodes` -/
def exchangeNvInnerNodes (c : Channel) (t2Entry : Type2Node) : Option (Channel × Type2Node) :=
  match (List.range' mtLowestT1Lvl (treeMaxLevel - 1)).find? fun lvl =>
      (c.levelNNodes lvl).movable with
  | none => none
  | some lvl =>
    let info := c.levelNNodes lvl
    let gen := c.request.currentGen
    let node := { info.node with pba := t2Entry.pba, gen := gen }
    some (c.setLevel lvl { info with node := node, volatil := true },
      exchangedEntry gen info.node.pba t2Entry)

/-- `_exchange_nv_level_1_node` -/
def exchangeNvLevel1Node (c : Channel) (t2Entry : Type2Node) : Option (Channel × Type2Node) :=
  let info := c.level1Node
  if info.volatil then none
  else
    let node := { info.node with pba := t2Entry.pba }
    some ({ c with level1Node := { info with node := node, volatil := true } },
      exchangedEntry c.request.currentGen info.node.pba t2Entry)

/-- `_exchange_request_pba` -/
def exchangeRequestPba (c : Channel) (t2Entry : Type2Node) : Channel × Type2Node :=
  ({ c with success := true, newPba := t2Entry.pba, finished := true },
    exchangedEntry c.request.currentGen c.request.oldPba t2Entry)

/-- Put an entry back into the node block of level 1. -/
def Channel.setEntry (c : Channel) (i : Fin nrOfNodesPerBlk) (t2Entry : Type2Node) : Channel :=
  { c with level1Node := { c.level1Node with
      entries := Function.update c.level1Node.entries i t2Entry } }

/-- The loop of `_handle_level_0_nodes` over the remaining entries. It
returns whether an entry was exchanged. -/
def handleLevel0Loop : List (Fin nrOfNodesPerBlk) → Channel → Bool → Exec (Channel × Bool)
  | [], c, handled => do
    Exec.assert (decide (c.request.mtEdges - 1 < UInt64.ofNat nrOfNodesPerBlk))
    pure (c, handled)
  | i :: is, c, handled =>
    let t2Entry := c.level1Node.entries i
    if t2Entry.valid && checkLevel0Usable c.request.currentGen t2Entry then
      match exchangeNvLevel1Node c t2Entry with
      | some r => handleLevel0Loop is (r.1.setEntry i r.2) true
      | none =>
        match exchangeNvInnerNodes c t2Entry with
        | some r => handleLevel0Loop is (r.1.setEntry i r.2) true
        | none =>
          let r := exchangeRequestPba c t2Entry
          pure (r.1.setEntry i r.2, true)
    else handleLevel0Loop is c handled

/-- `_handle_level_0_nodes` -/
def handleLevel0Nodes (c : Channel) : Exec (Channel × Bool) :=
  handleLevel0Loop ((List.finRange nrOfNodesPerBlk).filter fun i =>
    decide (UInt64.ofNat i ≤ c.request.mtEdges - 1)) c false

/-! ## The walk through the tree -/

def newCacheRequest (pba : PhysicalBlockAddress) (lvl : Nat) : LocalCacheRequest :=
  { state := .pending, op := .read, pba := pba, level := lvl }

def newCacheWrite (pba : PhysicalBlockAddress) (lvl : Nat) (blk : Block) : LocalCacheRequest :=
  { state := .pending, op := .write, pba := pba, level := lvl, blockData := blk }

section Hash

variable (sha : Block → Hash)

/-- `_update_parent` -/
def updateParent (blk : Block) (gen : Generation) (pba : PhysicalBlockAddress) : Type1Node :=
  { pba := pba, gen := gen, hash := sha blk }

/-- Note in the parent where the node at its index is written to. -/
def updateEntry (parent : Type1Info) (node : Type1Node) : Exec Type1Info := do
  let i ← entryIndex parent.index
  pure { parent with entries := Function.update parent.entries i node, dirty := true }

/-- `_handle_level_1_node`, which returns nothing if there is nothing to do. -/
def handleLevel1Node (c : Channel) : Exec (Option Channel) :=
  let t1Info := c.levelNNodes mtLowestT1Lvl
  let t2Info := c.level1Node
  match t2Info.state with
  | .invalid => pure none
  | .read => pure (some { c with cacheRequest := newCacheRequest t2Info.node.pba t2NodeLvl })
  | .readComplete => do
    let r ← handleLevel0Nodes c
    let state := if r.2 then NodeState.write else .complete
    pure (some { r.1 with level1Node := { r.1.level1Node with state := state } })
  | .write => do
    let blk := Type2NodeBlock.encodeToBlk t2Info.entries
    let parent ← updateEntry t1Info (updateParent sha blk c.request.currentGen t2Info.node.pba)
    pure (some { c.setLevel mtLowestT1Lvl parent with
      cacheRequest := newCacheWrite t2Info.node.pba t2NodeLvl blk })
  | .writeComplete | .complete =>
    pure (some { c.setLevel mtLowestT1Lvl { t1Info with index := t1Info.index + 1 } with
      level1Node := { t2Info with state := .invalid } })

/-- Whether the walk goes on to the child at the index of a node. -/
def descends (c : Channel) (info : Type1Info) : Exec Bool :=
  if info.index < c.request.mtEdges.toNat then do
    let i ← entryIndex info.index
    pure ((info.entries i).valid && !c.finished)
  else pure false

/-- Enter the child at the index of a node. -/
def enterChild (c : Channel) (lvl : Nat) (info : Type1Info) : Exec Channel := do
  let i ← entryIndex info.index
  let volatil := nodeVolatile info.node c.request.currentGen
  if lvl = mtLowestT1Lvl then
    pure { c with level1Node :=
      { state := .read, node := info.entries i, index := 0, volatil := volatil } }
  else
    pure (c.setLevel (lvl - 1)
      { state := .read, node := info.entries i, index := 0, volatil := volatil })

/-- Go on to the next child of the parent, or complete the request. -/
def leaveNode (c : Channel) (lvl : Nat) (info : Type1Info) : Channel :=
  let c :=
    if lvl = c.request.mtMaxLvl then { c with state := .complete }
    else
      let parent := c.levelNNodes (lvl + 1)
      c.setLevel (lvl + 1) { parent with index := parent.index + 1 }
  c.setLevel lvl { info with state := .invalid }

/-- One node of `_handle_level_n_nodes`. -/
def handleLevelNNode (c : Channel) (lvl : Nat) (info : Type1Info) : Exec Channel :=
  match info.state with
  | .invalid => pure c
  | .read => pure { c with cacheRequest := newCacheRequest info.node.pba lvl }
  | .readComplete => do
    if ← descends c info then enterChild c lvl info
    else
      let state := if info.dirty then NodeState.write else .complete
      pure (c.setLevel lvl { info with state := state })
  | .write => do
    let blk := Type1NodeBlock.encodeToBlk info.entries
    let node := updateParent sha blk c.request.currentGen info.node.pba
    let cacheRequest := newCacheWrite info.node.pba lvl blk
    if lvl = c.request.mtMaxLvl then
      pure { c with mtRoot := node, rootDirty := true, cacheRequest := cacheRequest }
    else do
      let parent ← updateEntry (c.levelNNodes (lvl + 1)) node
      pure { c.setLevel (lvl + 1) parent with cacheRequest := cacheRequest }
  | .writeComplete => pure { leaveNode c lvl info with cacheRequest := {} }
  | .complete => pure (leaveNode c lvl info)

/-- `_handle_level_n_nodes` -/
def handleLevelNNodes (c : Channel) : Exec Channel :=
  match (List.range' mtLowestT1Lvl (treeMaxLevel - 1)).find? fun lvl =>
      decide ((c.levelNNodes lvl).state ≠ .invalid) with
  | none => pure c
  | some lvl => handleLevelNNode sha c lvl (c.levelNNodes lvl)

/-- `_execute_update` -/
def executeUpdate (c : Channel) : Exec Channel := do
  match ← handleLevel1Node sha c with
  | some c => pure c
  | none => handleLevelNNodes sha c

/-- `execute` -/
def execute (c : Channel) : Exec Channel :=
  if c.cacheRequest.state ≠ .invalid then pure c
  else match c.state with
    | .invalid => pure c
    | .update => executeUpdate sha c
    | .complete => pure c
    | .treeHashMismatch => pure { c with success := false, state := .complete }

/-! ## Block I/O -/

/-- What block I/O stores. -/
abbrev Disk := PhysicalBlockAddress → Block

/-- `_drop_generated_request` -/
def dropGeneratedRequest (c : Channel) : Exec Channel := do
  Exec.assert (decide (c.cacheRequest.state = .pending))
  pure { c with cacheRequest := { c.cacheRequest with state := .inProgress } }

/-- A block that was read for a node. -/
def readComplete (c : Channel) (blk : Block) : Exec Channel :=
  let lvl := c.cacheRequest.level
  let c' := { c with cacheRequest := {} }
  if t2NodeLvl < lvl then
    let info := c.levelNNodes lvl
    if sha blk = info.node.hash then
      pure (c'.setLevel lvl { info with
        entries := Type1NodeBlock.decodeFromBlk blk, index := 0, state := .readComplete })
    else pure { c' with state := .treeHashMismatch }
  else if lvl = t2NodeLvl then
    let info := c.level1Node
    if sha blk = info.node.hash then do
      let entries ← Type2NodeBlock.decodeFromBlk blk
      pure { c' with level1Node := { info with
        entries := entries, index := 0, state := .readComplete } }
    else pure { c' with state := .treeHashMismatch }
  else .error .assertion

/-- The block of a node was written. -/
def writeComplete (c : Channel) : Exec Channel :=
  let lvl := c.cacheRequest.level
  let c' := { c with cacheRequest := {} }
  if t2NodeLvl < lvl then
    pure (c'.setLevel lvl { c.levelNNodes lvl with state := .writeComplete })
  else if lvl = t2NodeLvl then
    pure { c' with level1Node := { c.level1Node with state := .writeComplete } }
  else .error .assertion

/-- A request to block I/O that has failed ends the request. -/
def blockIoFailed (c : Channel) : Channel :=
  { c with success := false, newPba := invalidPba, state := .complete }

/-- A channel with the blocks on disc. -/
structure Config where
  chan : Channel
  disk : Disk

/-- What happens next: the module is executed, block I/O accepts its request
or is done with it. -/
inductive Event where
  | execute
  | dropGeneratedRequest
  | generatedRequestComplete (success : Bool)
  deriving DecidableEq, Repr

/-- `generated_request_complete` -/
def generatedRequestComplete (s : Config) (success : Bool) : Exec Config := do
  Exec.assert (decide (s.chan.cacheRequest.state = .inProgress))
  if success then
    match s.chan.cacheRequest.op with
    | .read => do
      let c ← readComplete sha s.chan (s.disk s.chan.cacheRequest.pba)
      pure { s with chan := c }
    | .write => do
      let c ← writeComplete s.chan
      pure {
        chan := c
        disk := Function.update s.disk s.chan.cacheRequest.pba s.chan.cacheRequest.blockData }
  else pure { s with chan := blockIoFailed s.chan }

def step (s : Config) : Event → Exec Config
  | .execute => do
    let c ← execute sha s.chan
    pure { s with chan := c }
  | .dropGeneratedRequest => do
    let c ← dropGeneratedRequest s.chan
    pure { s with chan := c }
  | .generatedRequestComplete success => generatedRequestComplete sha s success

end Hash

end Genode.Tresor.MetaTree
