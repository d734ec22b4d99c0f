import Genode.Tresor.Types

/-!
# FreeTree — allocation of physical blocks

The free tree keeps, as its leaves, the blocks that may be handed out,
each with the history of its last use. An allocation first scans the tree
for enough usable leaves and then goes through it a second time to
exchange them for the blocks that are given up. Both passes walk the tree
depth first on one stack for each level and wait at each node block for
block I/O and, where a node needs a new address, for the meta tree.
-/

namespace Genode.Tresor.FreeTree

open Genode.Lib

/-! ## Blocks of the virtual block device below a node -/

/-- `vbd_node_lowest_vba` -/
def vbdNodeLowestVba (vbdDegree : TreeDegree) (vbdLevel : Nat)
    (vbdLeafVba : VirtualBlockAddress) : VirtualBlockAddress :=
  vbdLeafVba &&& (0xffffffffffffffff <<< UInt64.ofNat (vbdDegree.log2 * vbdLevel))

/-- `vbd_node_nr_of_vbas` -/
def vbdNodeNrOfVbas (vbdDegree : TreeDegree) (vbdLevel : Nat) : UInt64 :=
  1 <<< UInt64.ofNat (vbdLevel * vbdDegree.log2)

/-- `vbd_node_highest_vba` -/
def vbdNodeHighestVba (vbdDegree : TreeDegree) (vbdLevel : Nat)
    (vbdLeafVba : VirtualBlockAddress) : VirtualBlockAddress :=
  vbdNodeLowestVba vbdDegree vbdLevel vbdLeafVba + (vbdNodeNrOfVbas vbdDegree vbdLevel - 1)

/-! ## Requests -/

/-- `Free_tree_request::Type` -/
inductive ReqType where
  | allocForNonRkg
  | allocForRkgCurrGenBlks
  | allocForRkgOldGenBlks
  deriving DecidableEq, Repr

/-- `Free_tree_request`. The blocks that are given up, the addresses to fill
in and the root of the tree are passed by reference: the former is only
read, the other two are kept in the channel. -/
structure Request where
  type : ReqType
  ftMaxLevel : Nat
  currentGen : Generation
  freeGen : Generation
  requestedBlocks : Nat
  oldBlocks : Nat → Type1Node
  maxLevel : Nat
  vba : VirtualBlockAddress
  vbdDegree : TreeDegree
  vbdHighestVba : VirtualBlockAddress
  rekeying : Bool
  previousKeyId : KeyId
  currentKeyId : KeyId
  rekeyingVba : VirtualBlockAddress
  snapshots : Snapshots
  lastSecuredGeneration : Generation

/-! ## Channels -/

/-- `Free_tree_channel::State` -/
inductive State where
  | scan
  | scanComplete
  | update
  | updateComplete
  | complete
  | notEnoughFreeBlocks
  | treeHashMismatch
  deriving DecidableEq, Repr

inductive NodeState where
  | invalid
  | available
  | read
  | write
  | complete
  deriving DecidableEq, Repr

/-- `Type_1_info`: a node on the stack of its level. -/
structure Type1Info where
  state : NodeState
  node : Type1Node
  index : Fin nrOfNodesPerBlk
  volatil : Bool
  deriving DecidableEq

/-- `Type_2_info`: a usable leaf. -/
structure Type2Info where
  node : Type2Node
  index : Fin nrOfNodesPerBlk
  deriving DecidableEq

/-- The progress of a request to another module. -/
inductive LocalState where
  | invalid
  | pending
  | complete
  deriving DecidableEq, Repr

inductive CacheOp where
  | read
  | write
  deriving DecidableEq, Repr

/-- `Local_cache_request` -/
structure LocalCacheRequest where
  state : LocalState := .invalid
  op : CacheOp := .read
  pba : PhysicalBlockAddress := 0
  level : Nat := 0
  deriving DecidableEq, Repr

/-- `Local_meta_tree_request` -/
structure LocalMetaTreeRequest where
  state : LocalState := .invalid
  pba : PhysicalBlockAddress := 0
  deriving DecidableEq, Repr

/-- `Free_tree_channel`, with what the references of its request lead to.
The head of a list is the top of the stack. -/
structure Channel where
  state : State
  request : Request
  neededBlocks : Nat := 0
  foundBlocks : Nat := 0
  exchangedBlocks : Nat := 0
  metaTreeRequest : LocalMetaTreeRequest := {}
  cacheRequest : LocalCacheRequest := {}
  cacheBlockData : Block := default
  levelNStacks : Nat → List Type1Info := fun _ => []
  level0Stack : List Type2Info := []
  levelNNodes : Nat → Type1NodeBlock := fun _ _ => {}
  levelNNode : Type1NodeBlock := fun _ => {}
  level0Node : Type2NodeBlock := fun _ => {}
  type2Leafs : List Type2Info := []
  success : Bool := false
  ftRoot : Type1Node
  newBlocks : Nat → PhysicalBlockAddress

namespace Channel

/-- Replace the top of the stack of a level. -/
def updateTop (c : Channel) (lvl : Nat) (info : Type1Info) : Channel :=
  { c with levelNStacks := Function.update c.levelNStacks lvl (info :: (c.levelNStacks lvl).tail) }

def setStack (c : Channel) (lvl : Nat) (stack : List Type1Info) : Channel :=
  { c with levelNStacks := Function.update c.levelNStacks lvl stack }

end Channel

/-- `_node_volatile`: a node that this generation may overwrite. -/
def nodeVolatile (node : Type1Node) (gen : Generation) : Bool :=
  decide (node.gen = 0 ∨ node.gen = gen)

/-- A node that has not been read yet. -/
def fresh (node : Type1Node) (index : Fin nrOfNodesPerBlk) (gen : Generation) : Type1Info :=
  { state := .invalid, node := node, index := index, volatil := nodeVolatile node gen }

/-- The nodes of a node block in the order in which a stack yields them that
they were pushed to. -/
def stacked (p : Fin nrOfNodesPerBlk → Bool) : List (Fin nrOfNodesPerBlk) :=
  ((List.finRange nrOfNodesPerBlk).filter p).reverse

/-- The stack of a node block's children. -/
def childStack (entries : Type1NodeBlock) (currentGen : Generation) : List Type1Info :=
  (stacked fun idx => decide ((entries idx).pba ≠ 0)).map fun idx =>
    fresh (entries idx) idx currentGen

/-- `_check_type_2_leaf_usable` -/
def checkType2LeafUsable (snapshots : Snapshots) (lastSecuredGen : Generation) (node : Type2Node)
    (rekeying : Bool) (previousKeyId : KeyId) (rekeyingVba : VirtualBlockAddress) : Bool :=
  if node.pba = 0 ∨ node.pba = invalidPba ∨ lastSecuredGen < node.freeGen then false
  else if !node.reserved then true
  else if rekeying && decide (node.lastKeyId = previousKeyId) &&
      decide (node.lastVba < rekeyingVba) then true
  else !(List.finRange maxNrOfSnapshots).any fun idx =>
    (snapshots idx).valid && decide ((snapshots idx).gen < node.freeGen) &&
      decide (node.allocGen < (snapshots idx).gen + 1)

/-- A leaf that the request may be given. -/
def usable (req : Request) (node : Type2Node) : Bool :=
  checkType2LeafUsable req.snapshots req.lastSecuredGeneration node req.rekeying
    req.previousKeyId req.rekeyingVba

/-- The stack of a node block's usable leaves. -/
def leafStack (req : Request) (entries : Type2NodeBlock) : List Type2Info :=
  (stacked fun idx => usable req (entries idx)).map fun idx =>
    { node := entries idx, index := idx }

/-- `_check_type_2_stack`: count the usable leaves of a node block. The queue
of leaves takes as many as fit. -/
def checkType2Stack (c : Channel) : Channel :=
  let leafs := c.level0Stack.foldl
    (fun q info => if q.length = treeMaxDegree - 1 then q else q ++ [info]) c.type2Leafs
  let c' := { c with
    type2Leafs := leafs
    foundBlocks := c.foundBlocks + c.level0Stack.length
    level0Stack := [] }
  match c'.levelNStacks 1 with
  | [] => c'
  | n :: _ => if n.state = .read then c'.updateTop 1 { n with state := .complete } else c'

/-- The lowest level whose stack is not empty. -/
def activeLevel (c : Channel) : Option Nat :=
  (List.range' 1 treeMaxLevel).find? fun lvl => !(c.levelNStacks lvl).isEmpty

/-- `_new_cache_request` -/
def newCacheRequest (pba : PhysicalBlockAddress) (op : CacheOp) (lvl : Nat) : LocalCacheRequest :=
  { state := .pending, op := op, pba := pba, level := lvl }

/-- `_root_node`, on the stack of the highest level. -/
def Channel.pushRoot (c : Channel) : Channel :=
  let root := fresh c.ftRoot ⟨0, nrOfNodesPerBlk_pos⟩ c.request.currentGen
  { c with levelNStacks := Function.update (fun _ => []) c.request.ftMaxLevel [root] }

/-- The second part of `_execute_scan`: what to do when enough leaves have
been found or the whole tree has been scanned. -/
def scanFinish (c : Channel) (endOfTree enoughFound : Bool) : Channel :=
  if enoughFound then
    { c with state := .scanComplete, levelNNodes := fun _ _ => {} }.pushRoot
  else if endOfTree then { c with state := .notEnoughFreeBlocks }
  else c

/-- One node of `_execute_scan`. -/
def scanNode (c : Channel) (lvl : Nat) (info : Type1Info) : Exec Channel :=
  match info.state with
  | .invalid => do
    Exec.assert (decide (c.cacheRequest.state = .invalid))
    pure { c with cacheRequest := newCacheRequest info.node.pba .read lvl }
  | .available =>
    let c := { c with cacheRequest := { c.cacheRequest with state := .invalid } }
    if 2 ≤ lvl then
      let entries := Type1NodeBlock.decodeFromBlk c.cacheBlockData
      pure (({ c with levelNNode := entries }.setStack (lvl - 1)
        (childStack entries c.request.currentGen)).updateTop lvl { info with state := .read })
    else do
      let entries ← Type2NodeBlock.decodeFromBlk c.cacheBlockData
      pure ({ c with level0Node := entries, level0Stack := leafStack c.request entries }.updateTop
        lvl { info with state := .read })
  | .read => pure (c.updateTop lvl { info with state := .complete })
  | .write => .error .assertion
  | .complete =>
    let endOfTree := decide (lvl = c.request.ftMaxLevel)
    let enoughFound := decide (c.neededBlocks ≤ c.foundBlocks)
    pure (scanFinish (c.setStack lvl (c.levelNStacks lvl).tail) endOfTree enoughFound)

/-- `_execute_scan` -/
def executeScan (c : Channel) : Exec Channel :=
  let c := checkType2Stack c
  match activeLevel c with
  | none => pure c
  | some lvl => match c.levelNStacks lvl with
    | [] => pure c
    | info :: _ => scanNode c lvl info

/-! ## The exchange of leaves -/

/-- What the leaf of a block becomes that is handed out in exchange for the
block `old` of level `lvl`. -/
def exchangedLeaf (req : Request) (lvl : Nat) (old : Type1Node) (leaf : Type2Node) :
    Exec Type2Node :=
  match req.type with
  | .allocForNonRkg => pure
    { pba := old.pba
      allocGen := old.gen
      freeGen := req.freeGen
      lastVba := vbdNodeLowestVba req.vbdDegree lvl req.vba
      lastKeyId :=
        if req.rekeying then
          if req.vba < req.rekeyingVba then req.currentKeyId else req.previousKeyId
        else req.currentKeyId
      reserved := true }
  | .allocForRkgCurrGenBlks => pure
    { pba := old.pba
      allocGen := old.gen
      freeGen := req.freeGen
      lastVba := vbdNodeLowestVba req.vbdDegree lvl req.vba
      lastKeyId := req.previousKeyId
      reserved := false }
  | .allocForRkgOldGenBlks =>
    let nodeHighestVba := vbdNodeHighestVba req.vbdDegree lvl req.vba
    if req.rekeyingVba < nodeHighestVba ∧ req.rekeyingVba < req.vbdHighestVba then pure
      { leaf with
        allocGen := old.gen
        freeGen := req.freeGen
        lastKeyId := req.previousKeyId
        lastVba := req.rekeyingVba + 1
        reserved := true }
    else if req.rekeyingVba = nodeHighestVba ∨ req.rekeyingVba = req.vbdHighestVba then pure
      { leaf with
        allocGen := old.gen
        freeGen := req.freeGen
        lastKeyId := req.currentKeyId
        lastVba := vbdNodeLowestVba req.vbdDegree lvl req.vba
        reserved := true }
    else .error .assertion

/-- The state of the exchange loop. -/
structure Exchange where
  newBlocks : Nat → PhysicalBlockAddress
  stack : List Type2Info
  entries : Type2NodeBlock
  exchanged : Nat

/-- The loop of `_exchange_type_2_leaves` over the remaining levels. -/
def exchangeLoop (req : Request) : List Nat → Exchange → Exec Exchange
  | [], e => pure e
  | lvl :: lvls, e =>
    if e.newBlocks lvl = 0 then
      match e.stack with
      | [] => pure e
      | info :: stack => do
        let leaf := e.entries info.index
        Exec.assert (decide (leaf.pba = info.node.pba))
        let leaf' ← exchangedLeaf req lvl (req.oldBlocks lvl) leaf
        exchangeLoop req lvls
          { newBlocks := Function.update e.newBlocks lvl leaf.pba
            stack := stack
            entries := Function.update e.entries info.index leaf'
            exchanged := e.exchanged + 1 }
    else exchangeLoop req lvls e

/-- `_exchange_type_2_leaves` -/
def exchangeType2Leaves (c : Channel) : Exec Channel := do
  let e ← exchangeLoop c.request (List.range (c.request.maxLevel + 1))
    { newBlocks := c.newBlocks, stack := c.level0Stack, entries := c.level0Node, exchanged := 0 }
  pure { c with
    newBlocks := e.newBlocks
    level0Stack := e.stack
    level0Node := e.entries
    exchangedBlocks := c.exchangedBlocks + e.exchanged }

/-! ## The second pass -/

section Hash

variable (sha : Block → Hash)

/-- `_update_upper_n_stack`: the entry of a node in the node block above. -/
def updateUpperNStack (info : Type1Info) (gen : Generation) (blk : Block)
    (entries : Type1NodeBlock) : Type1NodeBlock :=
  Function.update entries info.index { pba := info.node.pba, gen := gen, hash := sha blk }

/-- Write a node back whose address is settled. -/
def writeNode (c : Channel) (lvl : Nat) (info : Type1Info) : Channel :=
  let c :=
    if 2 ≤ lvl then
      let blk := Type1NodeBlock.encodeToBlk (c.levelNNodes (lvl - 1))
      let c := { c with cacheBlockData := blk }
      if lvl < c.request.ftMaxLevel then
        let entries := updateUpperNStack sha info c.request.currentGen blk (c.levelNNodes lvl)
        { c with levelNNodes := Function.update c.levelNNodes lvl entries }
      else
        let root := { pba := info.node.pba, gen := c.request.currentGen, hash := sha blk }
        { c with ftRoot := root }
    else
      let blk := Type2NodeBlock.encodeToBlk c.level0Node
      let entries := updateUpperNStack sha info c.request.currentGen blk (c.levelNNodes lvl)
      let nodes := Function.update c.levelNNodes lvl entries
      { c with cacheBlockData := blk, levelNNodes := nodes }
  { c with cacheRequest := newCacheRequest info.node.pba .write lvl }

/-- One node of `_execute_update`. -/
def updateNode (c : Channel) (lvl : Nat) (info : Type1Info) (exchangeFinished : Bool) :
    Exec Channel :=
  match info.state with
  | .invalid => do
    Exec.assert (decide (c.cacheRequest.state = .invalid))
    pure { c with cacheRequest := newCacheRequest info.node.pba .read lvl }
  | .available =>
    let c := { c with cacheRequest := { c.cacheRequest with state := .invalid } }
    if 2 ≤ lvl then
      let entries := Type1NodeBlock.decodeFromBlk c.cacheBlockData
      let stack := childStack entries c.request.currentGen
      let next := if stack.isEmpty then NodeState.complete else .write
      pure (({ c with levelNNodes := Function.update c.levelNNodes (lvl - 1) entries }.setStack
        (lvl - 1) stack).updateTop lvl { info with state := next })
    else do
      let entries ← Type2NodeBlock.decodeFromBlk c.cacheBlockData
      let stack := leafStack c.request entries
      let next := if stack.isEmpty then NodeState.complete else .write
      pure ({ c with level0Node := entries, level0Stack := stack }.updateTop lvl
        { info with state := next })
  | .read => .error .assertion
  | .write =>
    if info.volatil then pure (writeNode sha c lvl info)
    else match c.metaTreeRequest.state with
      | .invalid =>
        pure { c with metaTreeRequest := { state := .pending, pba := info.node.pba } }
      | .complete =>
        let info := { info with
          volatil := true, node := { info.node with pba := c.metaTreeRequest.pba } }
        let c := { c with metaTreeRequest := { c.metaTreeRequest with state := .invalid } }
        pure (writeNode sha (c.updateTop lvl info) lvl info)
      | .pending => .error .assertion
  | .complete =>
    let c := { c with cacheRequest := { c.cacheRequest with state := .invalid } }
    let stack := if exchangeFinished then [] else (c.levelNStacks lvl).tail
    let c := c.setStack lvl stack
    if lvl = c.request.ftMaxLevel ∧ exchangeFinished = true then
      pure { c with state := .updateComplete }
    else pure c

/-- `_execute_update` -/
def executeUpdate (c : Channel) : Exec Channel := do
  let c ← exchangeType2Leaves c
  let exchangeFinished := decide (c.exchangedBlocks = c.neededBlocks)
  match activeLevel c with
  | none => pure c
  | some lvl => match c.levelNStacks lvl with
    | [] => pure c
    | info :: _ => updateNode sha c lvl info exchangeFinished

/-- `_execute`, for a channel that does not wait for another module. -/
def execute (c : Channel) : Exec Channel :=
  match c.state with
  | .scan => executeScan c
  | .scanComplete => pure { c with state := .update }
  | .update => executeUpdate sha c
  | .updateComplete => pure { c with success := true, state := .complete }
  | .complete => pure c
  | .notEnoughFreeBlocks => pure { c with success := false, state := .complete }
  | .treeHashMismatch => pure { c with success := false, state := .complete }

/-- `submit_request`, with `_reset_block_state`. Where the channel stands with
its requests to other modules is left from before. -/
def submitRequest (c : Channel) (req : Request) (ftRoot : Type1Node)
    (newBlocks : Nat → PhysicalBlockAddress) : Channel :=
  { c with
    request := req
    ftRoot := ftRoot
    newBlocks := newBlocks
    exchangedBlocks := 0
    neededBlocks := req.requestedBlocks
    foundBlocks := 0
    levelNNodes := fun _ _ => {}
    level0Stack := []
    levelNNode := fun _ => {}
    level0Node := fun _ => {}
    state := .scan }.pushRoot

/-! ## The other modules -/

/-- What block I/O stores. -/
abbrev Disk := PhysicalBlockAddress → Block

/-- The completion of a read: the block has to match the node's hash. -/
def readComplete (c : Channel) (blk : Block) : Exec Channel :=
  let lvl := c.cacheRequest.level
  match c.levelNStacks lvl with
  | [] => .error .assertion
  | n :: _ =>
    let c := { c with
      cacheBlockData := blk
      cacheRequest := { c.cacheRequest with state := .complete } }
    if sha blk = n.node.hash then pure (c.updateTop lvl { n with state := .available })
    else pure { c with state := .treeHashMismatch }

/-- The completion of a write. -/
def writeComplete (c : Channel) : Exec Channel :=
  let lvl := c.cacheRequest.level
  match c.levelNStacks lvl with
  | [] => .error .assertion
  | n :: _ => pure ({ c with cacheRequest := { c.cacheRequest with state := .complete } }.updateTop
      lvl { n with state := .complete })

/-- The completion of a request to the meta tree. -/
def metaTreeComplete (c : Channel) (newPba : PhysicalBlockAddress) : Channel :=
  { c with metaTreeRequest := { state := .complete, pba := newPba } }

/-- A channel with the blocks on disc and the number of requests that the
meta tree has answered so far. -/
structure Config where
  chan : Channel
  disk : Disk
  answers : Nat

/-- What the meta tree does for its `n`-th request: it hands out an address
and works on its own blocks. -/
structure MetaTree where
  newPba : Nat → PhysicalBlockAddress
  work : Nat → Disk → Disk

/-- One step of the channel: the answer to a request that it waits for, or
`_execute`. -/
def step (mt : MetaTree) (s : Config) : Exec Config :=
  match s.chan.cacheRequest.state, s.chan.metaTreeRequest.state with
  | .pending, _ =>
    match s.chan.cacheRequest.op with
    | .read => do
      let c ← readComplete sha s.chan (s.disk s.chan.cacheRequest.pba)
      pure { s with chan := c }
    | .write => do
      let c ← writeComplete s.chan
      pure { s with
        chan := c
        disk := Function.update s.disk s.chan.cacheRequest.pba s.chan.cacheBlockData }
  | _, .pending => pure
    { chan := metaTreeComplete s.chan (mt.newPba s.answers)
      disk := mt.work s.answers s.disk
      answers := s.answers + 1 }
  | _, _ => do
    let c ← execute sha s.chan
    pure { s with chan := c }

end Hash

end Genode.Tresor.FreeTree
