import Mathlib.Logic.Relation
import Genode.Tresor.FreeTree

/-!
# VirtualBlockDevice — the trees of the virtual block device

The module that reads, writes, re-encrypts and extends the hash trees of
the snapshots. A request is worked off by a channel in small steps: the
channel generates a request to another module (block I/O, crypto, free
tree), waits for its completion, and continues with what came back. Here
a step either executes the channel or hands it the answer to the request
that it generated. As nothing happens to a channel while the other module
works, the states that only say "in progress" are left out.
-/

namespace Genode.Tresor.Vbd

open Genode.Lib

/-- Access to an array of the given size. -/
def inBounds (idx size : Nat) : Exec Unit := Exec.access (Finset.range size) idx

theorem inBounds_of_lt {idx size : Nat} (h : idx < size) : inBounds idx size = .ok () :=
  Exec.access_of_mem (Finset.mem_range.mpr h)

theorem inBounds_eq_ok {idx size : Nat} {u : Unit} : inBounds idx size = .ok u ↔ idx < size := by
  rw [inBounds, Exec.access_eq_ok, Finset.mem_range]

/-! ## Requests -/

/-- `Virtual_block_device_request::Type` -/
inductive ReqType where
  | readVba
  | writeVba
  | rekeyVba
  | vbdExtensionStep
  deriving DecidableEq, Repr

/-- The shape of the free tree and the meta tree, which is handed through. -/
structure TreeParams where
  ftMaxLevel : Nat
  ftDegree : Nat
  ftLeaves : Nat
  mtMaxLevel : Nat
  mtDegree : Nat
  mtLeaves : Nat
  deriving DecidableEq, Repr

/-- `Virtual_block_device_request`. The roots of the free tree and the
meta tree are passed by reference and belong to the environment. -/
structure Request where
  type : ReqType
  vba : VirtualBlockAddress := 0
  snapshots : Snapshots := Snapshots.none
  snapshotsDegree : TreeDegree
  currGen : Generation := invalidGeneration
  newKeyId : KeyId := 0
  oldKeyId : KeyId := 0
  trees : TreeParams
  vbdDegree : TreeDegree
  vbdHighestVba : VirtualBlockAddress := 0
  rekeying : Bool := false
  clientReqOffset : UInt64 := 0
  clientReqTag : UInt64 := 0
  lastSecuredGeneration : Generation := invalidGeneration
  pba : PhysicalBlockAddress := 0
  nrOfPbas : UInt64 := 0
  nrOfLeaves : UInt64 := 0
  success : Bool := false

/-- The arguments of `Virtual_block_device_request::create`. -/
structure CreateArgs where
  reqType : ReqType
  clientReqOffset : UInt64
  clientReqTag : UInt64
  lastSecuredGeneration : Generation
  trees : TreeParams
  vbdDegree : TreeDegree
  vbdHighestVba : VirtualBlockAddress
  rekeying : Bool
  vba : VirtualBlockAddress
  snapshot : Snapshot
  snapshots : Snapshots
  snapshotsDegree : TreeDegree
  oldKeyId : KeyId
  newKeyId : KeyId
  currentGen : Generation
  keyId : KeyId
  firstPba : PhysicalBlockAddress
  nrOfPbas : UInt64

/-- `Virtual_block_device_request::create`: which of the arguments end up in
the request depends on its type. -/
def Request.create (a : CreateArgs) : Request :=
  let req : Request :=
    { type := a.reqType
      lastSecuredGeneration := a.lastSecuredGeneration
      trees := a.trees
      vbdDegree := a.vbdDegree
      vbdHighestVba := a.vbdHighestVba
      rekeying := a.rekeying
      vba := a.vba
      snapshotsDegree := a.snapshotsDegree
      clientReqOffset := a.clientReqOffset
      clientReqTag := a.clientReqTag
      currGen := a.currentGen }
  match a.reqType with
  | .readVba | .writeVba =>
    { req with
      snapshots := Function.update Snapshots.none ⟨0, maxNrOfSnapshots_pos⟩ a.snapshot
      newKeyId := a.keyId }
  | .rekeyVba =>
    { req with snapshots := a.snapshots, oldKeyId := a.oldKeyId, newKeyId := a.newKeyId }
  | .vbdExtensionStep =>
    { req with snapshots := a.snapshots, pba := a.firstPba, nrOfPbas := a.nrOfPbas }

/-! ## Channels -/

/-- The requests that a channel waits for. -/
inductive Op where
  | readRootNode
  | readInnerNode
  | readLeafNode
  | readClientDataFromLeafNode
  | writeClientDataToLeafNode
  | decryptLeafNode
  | allocPbasAtLeafLvl
  | allocPbasAtLowestInnerLvl
  | allocPbasAtHigherInnerLvl
  | encryptLeafNode
  | writeLeafNode
  | writeInnerNode
  | writeRootNode
  deriving DecidableEq, Repr

/-- `Virtual_block_device_channel::State` -/
inductive State where
  | submitted
  | pending (op : Op)
  | done (op : Op)
  | completed
  deriving DecidableEq, Repr

/-- `Tag_type` -/
inductive Tag where
  | invalid
  | cache
  | blkIoWriteClientData
  | blkIoReadClientData
  | blkIo
  | ftAllocForNonRkg
  | ftAllocForRkgCurrGenBlks
  | ftAllocForRkgOldGenBlks
  | cryptoEncrypt
  | cryptoDecrypt
  deriving DecidableEq, Repr

structure GeneratedPrim where
  succ : Bool := false
  tg : Tag := .invalid
  blkNr : UInt64 := 0
  deriving DecidableEq, Repr

/-- `Virtual_block_device_channel`. The buffers `t1Blks` and `t1BlksOldPbas`
have room for the levels below `treeMaxLevel`. -/
structure Channel where
  request : Request
  state : State := .submitted
  generatedPrim : GeneratedPrim := {}
  snapshotIdx : SnapshotIndex := ⟨0, maxNrOfSnapshots_pos⟩
  t1Blks : Nat → Type1NodeBlock := fun _ _ => {}
  t1BlksOldPbas : Nat → PhysicalBlockAddress := fun _ => 0
  t1BlkIdx : Nat := 0
  vba : VirtualBlockAddress := 0
  t1NodeWalk : Nat → Type1Node := fun _ => {}
  newPbas : Nat → PhysicalBlockAddress := fun _ => 0
  hash : Hash := default
  nrOfBlks : Nat := 0
  freeGen : Generation := 0
  encodedBlk : Block := default
  dataBlk : Block := default
  dataBlkOldPba : PhysicalBlockAddress := 0
  firstSnapshot : Bool := false

namespace Channel

/-- `submit_request`: of the channel only the request and the state are
set, everything else stays from the request before. -/
def submitRequest (c : Channel) (req : Request) : Channel :=
  { c with request := req, state := .submitted }

/-- `Channel::snap` -/
def snap (c : Channel) : Snapshot := c.request.snapshots c.snapshotIdx

def maxLevel (c : Channel) : Nat := c.snap.maxLevel.toNat

/-- The child that leads to `vba` in the buffered node block of level `lvl`. -/
def child (c : Channel) (vba : VirtualBlockAddress) (lvl : Nat) : Type1Node :=
  c.t1Blks lvl (t1ChildIdxForVba vba lvl c.request.snapshotsDegree)

def setSnap (c : Channel) (s : Snapshot) : Channel :=
  { c with request := { c.request with
      snapshots := Function.update c.request.snapshots c.snapshotIdx s } }

/-- Replace the child that leads to `vba` in the buffered node block. -/
def setChild (c : Channel) (vba : VirtualBlockAddress) (lvl : Nat) (n : Type1Node) : Channel :=
  { c with t1Blks := Function.update c.t1Blks lvl (Function.update (c.t1Blks lvl)
      (t1ChildIdxForVba vba lvl c.request.snapshotsDegree) n) }

/-- Generate a request for the given operation. -/
def generate (c : Channel) (op : Op) (tg : Tag) (blkNr : UInt64) : Channel :=
  { c with generatedPrim := { succ := false, tg := tg, blkNr := blkNr }, state := .pending op }

/-- `_mark_req_failed` -/
def markReqFailed (c : Channel) : Channel :=
  { c with request := { c.request with success := false }, state := .completed }

/-- `_mark_req_successful` -/
def markReqSuccessful (c : Channel) : Channel :=
  { c with request := { c.request with success := true }, state := .completed }

/-- `_set_args_for_write_back_of_t1_lvl` -/
def setArgsForWriteBackOfT1Lvl (c : Channel) : Channel :=
  c.generate (if c.t1BlkIdx < c.maxLevel then .writeInnerNode else .writeRootNode) .cache
    (c.newPbas c.t1BlkIdx)

end Channel

namespace Channel

/-- `_check_that_primitive_was_successful` -/
def checkThatPrimitiveWasSuccessful (c : Channel) : Exec Unit := Exec.assert c.generatedPrim.succ

/-- `_handle_failed_generated_req`, around what happens otherwise. -/
def handleFailedGeneratedReq (c : Channel) (next : Exec Channel) : Exec Channel :=
  if c.generatedPrim.succ then next else pure c.markReqFailed

/-- The node that refers to the node block of the current level. -/
def readNode (c : Channel) (vba : VirtualBlockAddress) : Type1Node :=
  if c.t1BlkIdx = c.maxLevel then { pba := c.snap.pba, gen := c.snap.gen, hash := c.snap.hash }
  else c.child vba (c.t1BlkIdx + 1)

end Channel

section Hash

variable (sha : Block → Hash)

/-- `_check_hash_of_read_type_1_node` -/
def checkHashOfReadType1Node (c : Channel) : Exec Unit :=
  Exec.assert (decide (sha c.encodedBlk = (c.readNode c.vba).hash))

/-! ## Reading -/

/-- `_execute_read_vba_read_inner_node_completed` -/
def executeReadVbaReadInnerNodeCompleted (c : Channel) : Exec Channel := do
  c.checkThatPrimitiveWasSuccessful
  checkHashOfReadType1Node sha c
  let child := c.child c.request.vba c.t1BlkIdx
  if 1 < c.t1BlkIdx then
    pure ({ c with t1BlkIdx := c.t1BlkIdx - 1 }.generate .readInnerNode .cache child.pba)
  else pure (c.generate .readClientDataFromLeafNode .blkIoReadClientData child.pba)

/-- `_execute_read_vba` -/
def executeReadVba (c : Channel) : Exec Channel :=
  match c.state with
  | .submitted =>
    let c := { c with snapshotIdx := ⟨0, maxNrOfSnapshots_pos⟩, vba := c.request.vba }
    pure ({ c with t1BlkIdx := c.maxLevel }.generate .readRootNode .cache c.snap.pba)
  | .done .readRootNode => executeReadVbaReadInnerNodeCompleted sha c
  | .done .readInnerNode => executeReadVbaReadInnerNodeCompleted sha c
  | .done .readClientDataFromLeafNode => do
    c.checkThatPrimitiveWasSuccessful
    pure { c with
      request := { c.request with success := c.generatedPrim.succ }
      state := .completed }
  | _ => pure c

/-! ## Writing -/

/-- `_set_args_in_order_to_read_type_1_node` -/
def setArgsInOrderToReadType1Node (c : Channel) : Channel :=
  c.generate .readInnerNode .cache (c.readNode c.vba).pba

/-- The node of level `lvl` on the branch of `vba`. -/
def branchNode (c : Channel) (vba : VirtualBlockAddress) (lvl : Nat) : Type1Node :=
  if c.maxLevel < lvl then {}
  else if lvl = c.maxLevel then { pba := c.snap.pba, gen := c.snap.gen, hash := c.snap.hash }
  else c.child vba (lvl + 1)

/-- A level that needs a new block, as its block must stay for an older
generation. A leaf that was never written is taken over. -/
def needsNewPba (c : Channel) (lvl : Nat) : Bool :=
  let node := branchNode c c.vba lvl
  decide (lvl ≤ c.maxLevel) && decide (node.gen < c.request.currGen) &&
    !(decide (lvl ≠ c.maxLevel) && decide (lvl = 0 ∧ node.gen = invalidGeneration))

/-- `_initialize_new_pbas_and_determine_nr_of_pbas_to_allocate`. No node may
be newer than the current generation. -/
def initializeNewPbas (c : Channel) : Exec Channel := do
  Exec.assert ((List.range (c.maxLevel + 1)).all fun lvl =>
    decide ((branchNode c c.vba lvl).gen ≤ c.request.currGen))
  pure { c with
    newPbas := fun lvl =>
      if c.maxLevel < lvl ∨ needsNewPba c lvl = true then 0 else (branchNode c c.vba lvl).pba
    nrOfBlks := ((List.range (c.maxLevel + 1)).filter (needsNewPba c)).length }

/-- `_set_args_for_alloc_of_new_pbas_for_branch_of_written_vba` -/
def setArgsForAllocForBranchOfWrittenVba (c : Channel) : Channel :=
  { c with
    t1NodeWalk := branchNode c c.vba
    freeGen := c.request.currGen }.generate .allocPbasAtLeafLvl .ftAllocForNonRkg 0

/-- `_set_args_in_order_to_write_client_data_to_leaf_node` -/
def setArgsInOrderToWriteClientDataToLeafNode (c : Channel) : Channel :=
  c.generate .writeClientDataToLeafNode .blkIoWriteClientData (c.newPbas 0)

/-- One level of `_update_nodes_of_branch_of_written_vba`. -/
def updateNode (c : Channel) (lvl : Nat) : Channel :=
  let hash := if lvl = 0 then c.hash else sha (Type1NodeBlock.encodeToBlk (c.t1Blks lvl))
  if lvl = 0 ∨ lvl < c.maxLevel then
    c.setChild c.vba (lvl + 1) { pba := c.newPbas lvl, gen := c.request.currGen, hash := hash }
  else
    c.setSnap { c.snap with pba := c.newPbas lvl, gen := c.request.currGen, hash := hash }

/-- `_update_nodes_of_branch_of_written_vba` -/
def updateNodesOfBranchOfWrittenVba (c : Channel) : Channel :=
  (List.range (c.maxLevel + 1)).foldl (updateNode sha) c

/-- `_execute_write_vba` -/
def executeWriteVba (c : Channel) : Exec Channel :=
  match c.state with
  | .submitted =>
    let c := { c with snapshotIdx := ⟨0, maxNrOfSnapshots_pos⟩, vba := c.request.vba }
    pure (setArgsInOrderToReadType1Node { c with t1BlkIdx := c.maxLevel })
  | .done .readInnerNode => do
    c.checkThatPrimitiveWasSuccessful
    checkHashOfReadType1Node sha c
    if 1 < c.t1BlkIdx then
      pure (setArgsInOrderToReadType1Node { c with t1BlkIdx := c.t1BlkIdx - 1 })
    else do
      let c ← initializeNewPbas c
      if 0 < c.nrOfBlks then pure (setArgsForAllocForBranchOfWrittenVba c)
      else pure (setArgsInOrderToWriteClientDataToLeafNode c)
  | .done .allocPbasAtLeafLvl => do
    c.checkThatPrimitiveWasSuccessful
    pure (setArgsInOrderToWriteClientDataToLeafNode c)
  | .done .writeClientDataToLeafNode => do
    c.checkThatPrimitiveWasSuccessful
    pure (updateNodesOfBranchOfWrittenVba sha c).setArgsForWriteBackOfT1Lvl
  | .done .writeInnerNode => do
    c.checkThatPrimitiveWasSuccessful
    pure { c with t1BlkIdx := c.t1BlkIdx + 1 }.setArgsForWriteBackOfT1Lvl
  | .done .writeRootNode => do
    c.checkThatPrimitiveWasSuccessful
    pure c.markReqSuccessful
  | _ => pure c

/-! ## Re-encryption -/

/-- One round of the search for the snapshot to start with. -/
def firstSnap (snaps : Snapshots) (result : Option SnapshotIndex) (idx : SnapshotIndex) :
    Option SnapshotIndex :=
  if !(snaps idx).valid then result
  else match result with
    | some r => if (snaps r).gen < (snaps idx).gen then some idx else some r
    | none => some idx

/-- One round of `_find_next_snap_to_rekey_vba_at`. -/
def nextSnap (snaps : Snapshots) (vba : VirtualBlockAddress) (oldGen : Generation)
    (result : Option SnapshotIndex) (idx : SnapshotIndex) : Option SnapshotIndex :=
  if !((snaps idx).valid && (snaps idx).containsVba vba) then result
  else match result with
    | some r =>
      if (snaps r).gen < (snaps idx).gen ∧ (snaps idx).gen < oldGen then some idx else some r
    | none => if (snaps idx).gen < oldGen then some idx else none

/-- `_find_next_snap_to_rekey_vba_at` -/
def findNextSnapToRekeyVbaAt (c : Channel) : Option SnapshotIndex :=
  (List.finRange maxNrOfSnapshots).foldl
    (nextSnap c.request.snapshots c.request.vba c.snap.gen) none

/-- `_set_args_for_alloc_of_new_pbas_for_rekeying`, for the levels from
`minLvl` on. The levels below keep the blocks they have got. -/
def setArgsForAllocForRekeying (c : Channel) (minLvl : Nat) (op : Op) : Exec Channel := do
  Exec.assert (decide (minLvl ≤ c.maxLevel))
  let vba := c.request.vba
  let c' := { c with
    freeGen := if c.firstSnapshot then c.request.currGen else c.snap.gen + 1
    nrOfBlks := c.maxLevel + 1 - minLvl
    newPbas := fun lvl => if c.maxLevel < lvl ∨ minLvl ≤ lvl then 0 else c.newPbas lvl
    t1NodeWalk := fun lvl =>
      if c.maxLevel < lvl ∨ minLvl ≤ lvl then branchNode c vba lvl
      else { branchNode c vba lvl with pba := c.newPbas lvl } }
  pure (c'.generate op
    (if c.firstSnapshot then .ftAllocForRkgCurrGenBlks else .ftAllocForRkgOldGenBlks) 0)

/-- Read the node block of the current level and remember where it was. -/
def readAndRemember (c : Channel) (op : Op) (pba : PhysicalBlockAddress) : Exec Channel := do
  inBounds c.t1BlkIdx treeMaxLevel
  pure ({ c with t1BlksOldPbas := Function.update c.t1BlksOldPbas c.t1BlkIdx pba }.generate op
    .cache pba)

/-- The part of `_execute_rekey_vba` for a node block that was read. -/
def rekeyNodeRead (c : Channel) : Exec Channel :=
  if sha c.encodedBlk ≠ (c.readNode c.request.vba).hash then pure c.markReqFailed
  else
    let parentLvl := c.t1BlkIdx
    let child := c.child c.request.vba parentLvl
    if 1 < parentLvl then
      let childLvl := parentLvl - 1
      let c' := { c with t1BlkIdx := childLvl }
      -- the rest of the branch was rekeyed at another snapshot already
      if c.firstSnapshot = false ∧ c.t1BlksOldPbas childLvl = child.pba then
        setArgsForAllocForRekeying c' parentLvl .allocPbasAtHigherInnerLvl
      else readAndRemember c' .readInnerNode child.pba
    else if c.firstSnapshot = false ∧ c.dataBlkOldPba = child.pba then
      setArgsForAllocForRekeying c parentLvl .allocPbasAtLowestInnerLvl
    -- the leaf is still unused
    else if child.gen = initialGeneration then
      setArgsForAllocForRekeying c 0 .allocPbasAtLowestInnerLvl
    else pure ({ c with dataBlkOldPba := child.pba }.generate .readLeafNode .blkIo child.pba)

/-- The part of `_execute_rekey_vba` for a leaf that was written, or whose new
address was settled before. -/
def rekeyLeafWritten (c : Channel) : Channel :=
  let node := c.child c.request.vba 1
  (c.setChild c.request.vba 1
    { node with pba := c.newPbas 0, hash := sha c.dataBlk }).generate .writeInnerNode .cache
      (c.newPbas 1)

/-- The part of `_execute_rekey_vba` for an inner node that was written. -/
def rekeyInnerNodeWritten (c : Channel) : Channel :=
  let parentLvl := c.t1BlkIdx + 1
  let node := c.child c.request.vba parentLvl
  let c' := { c.setChild c.request.vba parentLvl
    { node with pba := c.newPbas c.t1BlkIdx, hash := sha c.encodedBlk } with
      t1BlkIdx := parentLvl }
  c'.generate (if parentLvl < c.maxLevel then .writeInnerNode else .writeRootNode) .cache
    (c.newPbas parentLvl)

/-- The part of `_execute_rekey_vba` for a root that was written. If the next
snapshot has the same root, the state is kept and it is taken over. -/
def rekeyRootWritten (c : Channel) : Exec Channel :=
  let c := c.setSnap { c.snap with pba := c.newPbas c.t1BlkIdx, hash := sha c.encodedBlk }
  match findNextSnapToRekeyVbaAt c with
  | none => pure c.markReqSuccessful
  | some idx => do
    let c := { c with snapshotIdx := idx, firstSnapshot := false }
    let c := { c with t1BlkIdx := c.maxLevel }
    inBounds c.t1BlkIdx treeMaxLevel
    if c.t1BlksOldPbas c.t1BlkIdx = c.snap.pba then pure c
    else readAndRemember c .readRootNode c.snap.pba

/-- `_execute_rekey_vba` -/
def executeRekeyVba (c : Channel) : Exec Channel :=
  match c.state with
  | .submitted =>
    let snaps := Snapshots.discardDisposableSnapshots c.request.snapshots c.request.currGen
      c.request.lastSecuredGeneration
    let c := { c with request := { c.request with snapshots := snaps } }
    match (List.finRange maxNrOfSnapshots).foldl (firstSnap snaps) none with
    | none => .error .assertion
    | some idx =>
      let c := { c with snapshotIdx := idx, firstSnapshot := true }
      readAndRemember { c with t1BlkIdx := c.maxLevel } .readRootNode c.snap.pba
  | .done .readRootNode => c.handleFailedGeneratedReq (rekeyNodeRead sha c)
  | .done .readInnerNode => c.handleFailedGeneratedReq (rekeyNodeRead sha c)
  | .done .readLeafNode => c.handleFailedGeneratedReq <|
    if sha c.dataBlk ≠ (c.child c.request.vba 1).hash then pure c.markReqFailed
    else pure (c.generate .decryptLeafNode .cryptoDecrypt c.dataBlkOldPba)
  | .done .decryptLeafNode => c.handleFailedGeneratedReq
    (setArgsForAllocForRekeying c 0 .allocPbasAtLeafLvl)
  | .done .allocPbasAtLowestInnerLvl => c.handleFailedGeneratedReq <|
    pure { c with state := .done .writeLeafNode }
  | .done .allocPbasAtLeafLvl => c.handleFailedGeneratedReq <|
    pure (c.generate .encryptLeafNode .cryptoEncrypt (c.newPbas 0))
  | .done .encryptLeafNode => c.handleFailedGeneratedReq <|
    pure (c.generate .writeLeafNode .blkIo (c.newPbas 0))
  | .done .writeLeafNode => c.handleFailedGeneratedReq <| pure (rekeyLeafWritten sha c)
  | .done .writeInnerNode => c.handleFailedGeneratedReq <| pure (rekeyInnerNodeWritten sha c)
  | .done .writeRootNode => c.handleFailedGeneratedReq <| rekeyRootWritten sha c
  | .done .allocPbasAtHigherInnerLvl => c.handleFailedGeneratedReq <|
    pure { c with state := .done .writeInnerNode }
  | _ => pure c

/-! ## Extension -/

/-- `tree_max_max_vba` -/
def treeMaxMaxVba (degree : TreeDegree) (maxLvl : Nat) : VirtualBlockAddress :=
  UInt64.ofNat ((2 ^ degree.log2) ^ maxLvl) - 1

/-- `_alloc_pba_from_resizing_contingent` -/
def allocPbaFromResizingContingent (c : Channel) : Exec (PhysicalBlockAddress × Channel) := do
  Exec.assert (decide (c.request.nrOfPbas ≠ 0))
  pure (c.request.pba, { c with request := { c.request with
    pba := c.request.pba + 1, nrOfPbas := c.request.nrOfPbas - 1 } })

/-- The snapshot that a changed tree is kept in: a new one if the current one
is from an older generation. -/
def snapshotIdxForCurrGen (c : Channel) : Exec SnapshotIndex :=
  if c.snap.gen < c.request.currGen then
    match c.request.snapshots.idxOfInvalidOrLowestGenEvictableSnap c.request.currGen
      c.request.lastSecuredGeneration with
    | some idx => pure idx
    | none => .error .assertion
  else pure c.snapshotIdx

/-- `_add_new_root_lvl_to_snap_using_pba_contingent` -/
def addNewRootLvlToSnapUsingPbaContingent (c : Channel) : Exec Channel := do
  Exec.assert (decide (c.maxLevel ≠ treeMaxLevel))
  let old := c.snap
  let newLvl := c.maxLevel + 1
  inBounds newLvl treeMaxLevel
  let blk : Type1NodeBlock := Function.update (fun _ => {}) ⟨0, nrOfNodesPerBlk_pos⟩
    { pba := old.pba, gen := old.gen, hash := old.hash }
  let idx ← snapshotIdxForCurrGen c
  let (newPba, c) ← allocPbaFromResizingContingent { c with
    t1Blks := Function.update c.t1Blks newLvl blk, snapshotIdx := idx }
  pure (c.setSnap
    { hash := default
      pba := newPba
      gen := c.request.currGen
      nrOfLeaves := old.nrOfLeaves
      maxLevel := old.maxLevel + 1
      valid := true
      id := 0
      keep := false })

/-- `add_child_at_curr_lvl_and_child_idx` -/
def addChildAtCurrLvlAndChildIdx (c : Channel) (lvl : Nat) (idx : Fin nrOfNodesPerBlk) :
    Exec Channel := do
  let (childPba, c) ← allocPbaFromResizingContingent c
  pure { c with t1Blks := Function.update c.t1Blks lvl (Function.update (c.t1Blks lvl) idx
    { pba := childPba, gen := initialGeneration, hash := default }) }

/-- Fill a node block of level 1 with leaves, as far as there are blocks. -/
def addLeaves : List (Fin nrOfNodesPerBlk) → Channel → Exec Channel
  | [], c => pure c
  | idx :: rest, c =>
    if c.request.nrOfPbas = 0 then pure c
    else do
      let c ← addChildAtCurrLvlAndChildIdx c 1 idx
      addLeaves rest { c with request := { c.request with
        nrOfLeaves := c.request.nrOfLeaves + 1 } }

/-- The levels of `_add_new_branch_to_snap_using_pba_contingent` from `lvl`
down. -/
def addBranch (c : Channel) (childIdx : Fin nrOfNodesPerBlk) : Nat → Exec Channel
  | 0 => pure c
  | 1 => addLeaves ((List.finRange nrOfNodesPerBlk).filter fun idx =>
      decide (childIdx.val ≤ idx.val ∧ idx.val < 2 ^ c.request.snapshotsDegree.log2))
      { c with t1BlkIdx := 1 }
  | lvl + 2 =>
    if c.request.nrOfPbas = 0 then pure { c with t1BlkIdx := lvl + 2 }
    else do
      let c ← addChildAtCurrLvlAndChildIdx { c with t1BlkIdx := lvl + 2 } (lvl + 2) childIdx
      addBranch c ⟨0, nrOfNodesPerBlk_pos⟩ (lvl + 1)

/-- `_add_new_branch_to_snap_using_pba_contingent` -/
def addNewBranchToSnapUsingPbaContingent (c : Channel) (mountAtLvl : Nat)
    (mountAtChildIdx : Fin nrOfNodesPerBlk) : Exec Channel :=
  let c := { c with
    request := { c.request with nrOfLeaves := 0 }
    t1BlkIdx := mountAtLvl
    t1Blks := fun lvl => if 1 ≤ lvl ∧ lvl < mountAtLvl then fun _ => {} else c.t1Blks lvl }
  if c.request.nrOfPbas = 0 then pure c else addBranch c mountAtChildIdx mountAtLvl

/-- `_set_new_pbas_identical_to_current_pbas` -/
def setNewPbasIdenticalToCurrentPbas (c : Channel) : Channel :=
  { c with newPbas := fun lvl => if c.maxLevel < lvl then 0 else (branchNode c c.vba lvl).pba }

/-- `_set_args_for_alloc_of_new_pbas_for_resizing`. The free tree would not
get past an address that is zero below `minLvl`. -/
def setArgsForAllocForResizing (c : Channel) (minLvl : Nat) : Channel :=
  if c.maxLevel < minLvl then c.markReqFailed
  else
    let kept (lvl : Nat) : Type1Node :=
      let node := branchNode c c.vba lvl
      if node.pba = 0 then { node with pba := invalidPba } else node
    { c with
      nrOfBlks := c.maxLevel + 1 - minLvl
      freeGen := c.request.currGen
      newPbas := fun lvl => if c.maxLevel < lvl ∨ minLvl ≤ lvl then 0 else (kept lvl).pba
      t1NodeWalk := fun lvl =>
        if c.maxLevel < lvl ∨ minLvl ≤ lvl then branchNode c c.vba lvl else kept lvl }.generate
          .allocPbasAtLowestInnerLvl .ftAllocForNonRkg 0

/-- The part of `_execute_vbd_extension_step` for a node block that was read. -/
def extensionNodeRead (c : Channel) : Exec Channel :=
  if sha c.encodedBlk ≠ (c.readNode c.vba).hash then pure c.markReqFailed
  else
    let parentLvl := c.t1BlkIdx
    let child := c.child c.vba parentLvl
    if 1 < parentLvl ∧ child.valid = true then
      readAndRemember { c with t1BlkIdx := parentLvl - 1 } .readInnerNode child.pba
    else do
      let c ← addNewBranchToSnapUsingPbaContingent c parentLvl
        (t1ChildIdxForVba c.vba parentLvl c.request.snapshotsDegree)
      pure (setArgsForAllocForResizing c parentLvl)

/-- The part of `_execute_vbd_extension_step` for an inner node that was
written. -/
def extensionInnerNodeWritten (c : Channel) : Channel :=
  let parentLvl := c.t1BlkIdx + 1
  let child := c.child c.vba parentLvl
  let c' := { c.setChild c.vba parentLvl
    { child with pba := c.newPbas c.t1BlkIdx, hash := sha c.encodedBlk } with
      t1BlkIdx := parentLvl }
  c'.generate (if parentLvl < c.maxLevel then .writeInnerNode else .writeRootNode) .cache
    (c.newPbas parentLvl)

/-- `_execute_vbd_extension_step` -/
def executeVbdExtensionStep (c : Channel) : Exec Channel :=
  match c.state with
  | .submitted =>
    let snaps := Snapshots.discardDisposableSnapshots c.request.snapshots c.request.currGen
      c.request.lastSecuredGeneration
    match snaps.newestSnapshotIdx with
    | none => .error .assertion
    | some idx => do
      let c := { c with
        request := { c.request with snapshots := snaps, nrOfLeaves := 0 }
        snapshotIdx := idx }
      let c := { c with vba := c.snap.nrOfLeaves, t1BlkIdx := c.maxLevel }
      inBounds c.t1BlkIdx treeMaxLevel
      let c := { c with t1BlksOldPbas := Function.update c.t1BlksOldPbas c.t1BlkIdx c.snap.pba }
      if c.vba ≤ treeMaxMaxVba c.request.snapshotsDegree c.maxLevel then
        pure (c.generate .readRootNode .cache c.snap.pba)
      else do
        let c ← addNewRootLvlToSnapUsingPbaContingent c
        let c ← addNewBranchToSnapUsingPbaContingent c c.maxLevel ⟨1, one_lt_nrOfNodesPerBlk⟩
        pure (setNewPbasIdenticalToCurrentPbas c).setArgsForWriteBackOfT1Lvl
  | .done .readRootNode => c.handleFailedGeneratedReq (extensionNodeRead sha c)
  | .done .readInnerNode => c.handleFailedGeneratedReq (extensionNodeRead sha c)
  | .done .allocPbasAtLowestInnerLvl => c.handleFailedGeneratedReq <|
    pure c.setArgsForWriteBackOfT1Lvl
  | .done .writeInnerNode => c.handleFailedGeneratedReq <| pure (extensionInnerNodeWritten sha c)
  | .done .writeRootNode => c.handleFailedGeneratedReq do
    let old := c.snap
    let idx ← snapshotIdxForCurrGen c
    pure ({ c with snapshotIdx := idx }.setSnap
      { hash := sha c.encodedBlk
        pba := c.newPbas c.t1BlkIdx
        gen := c.request.currGen
        nrOfLeaves := old.nrOfLeaves + c.request.nrOfLeaves
        maxLevel := old.maxLevel
        valid := true
        id := 0
        keep := false }).markReqSuccessful
  | _ => pure c

/-- `execute` for the one channel. -/
def execute (c : Channel) : Exec Channel :=
  match c.request.type with
  | .readVba => executeReadVba sha c
  | .writeVba => executeWriteVba sha c
  | .rekeyVba => executeRekeyVba sha c
  | .vbdExtensionStep => executeVbdExtensionStep sha c

end Hash

/-! ## The other modules -/

/-- What a channel asks of block I/O, of the crypto module and of the free
tree. The data of the client does not go through the channel. -/
inductive GeneratedRequest where
  | read (pba : PhysicalBlockAddress)
  | write (pba : PhysicalBlockAddress) (blk : Block)
  | readClientData (pba : PhysicalBlockAddress) (vba : VirtualBlockAddress) (keyId : KeyId)
  | writeClientData (pba : PhysicalBlockAddress) (vba : VirtualBlockAddress) (keyId : KeyId)
  | decrypt (keyId : KeyId) (pba : PhysicalBlockAddress) (blk : Block)
  | encrypt (keyId : KeyId) (pba : PhysicalBlockAddress) (blk : Block)
  | alloc (req : FreeTree.Request) (newPbas : Nat → PhysicalBlockAddress)

/-- The type of the request to the free tree. -/
def freeTreeType : Tag → Exec FreeTree.ReqType
  | .ftAllocForNonRkg => pure .allocForNonRkg
  | .ftAllocForRkgCurrGenBlks => pure .allocForRkgCurrGenBlks
  | .ftAllocForRkgOldGenBlks => pure .allocForRkgOldGenBlks
  | _ => .error .assertion

/-- The request to the free tree in `_peek_generated_request`. -/
def freeTreeRequest (c : Channel) (type : FreeTree.ReqType) : FreeTree.Request :=
  { type := type
    ftMaxLevel := c.request.trees.ftMaxLevel
    currentGen := c.request.currGen
    freeGen := c.freeGen
    requestedBlocks := c.nrOfBlks
    oldBlocks := c.t1NodeWalk
    maxLevel := c.maxLevel
    vba := c.vba
    vbdDegree := c.request.vbdDegree
    vbdHighestVba := c.request.vbdHighestVba
    rekeying := c.request.rekeying
    previousKeyId := c.request.oldKeyId
    currentKeyId := c.request.newKeyId
    rekeyingVba := c.vba
    snapshots := c.request.snapshots
    lastSecuredGeneration := c.request.lastSecuredGeneration }

/-- The node block of the current level, as it is written. -/
def Channel.blockToWrite (c : Channel) : Block := Type1NodeBlock.encodeToBlk (c.t1Blks c.t1BlkIdx)

/-- `_peek_generated_request` for the operation that a channel waits for. -/
def peekGeneratedRequest (c : Channel) (op : Op) : Exec GeneratedRequest :=
  let blkNr := c.generatedPrim.blkNr
  match op with
  | .writeRootNode => pure (.write blkNr c.blockToWrite)
  | .writeInnerNode => pure (.write blkNr c.blockToWrite)
  | .writeLeafNode => pure (.write blkNr c.dataBlk)
  | .writeClientDataToLeafNode => pure (.writeClientData blkNr c.vba c.request.newKeyId)
  | .readRootNode => pure (.read blkNr)
  | .readInnerNode => pure (.read blkNr)
  | .readLeafNode => pure (.read blkNr)
  | .readClientDataFromLeafNode => pure (.readClientData blkNr c.vba c.request.newKeyId)
  | .decryptLeafNode => pure (.decrypt c.request.oldKeyId blkNr c.dataBlk)
  | .encryptLeafNode => pure (.encrypt c.request.newKeyId blkNr c.dataBlk)
  | .allocPbasAtLeafLvl => do
    let type ← freeTreeType c.generatedPrim.tg
    pure (.alloc (freeTreeRequest c type) c.newPbas)
  | .allocPbasAtLowestInnerLvl => do
    let type ← freeTreeType c.generatedPrim.tg
    pure (.alloc (freeTreeRequest c type) c.newPbas)
  | .allocPbasAtHigherInnerLvl => do
    let type ← freeTreeType c.generatedPrim.tg
    pure (.alloc (freeTreeRequest c type) c.newPbas)

/-- What comes back from another module: a block that was read, decrypted or
encrypted, the hash of client data that was written, or new addresses. -/
structure Answer where
  success : Bool := true
  blk : Block := default
  hash : Hash := default
  newPbas : Nat → PhysicalBlockAddress := fun _ => 0

/-- `generated_request_complete`, with what the other module has written to
the channel. A node block goes to the buffer of the current level. -/
def generatedRequestComplete (c : Channel) (op : Op) (a : Answer) : Exec Channel :=
  let c := { c with generatedPrim := { c.generatedPrim with succ := a.success }, state := .done op }
  let nodeRead : Exec Channel := do
    inBounds c.t1BlkIdx treeMaxLevel
    pure { c with
      encodedBlk := a.blk
      t1Blks := Function.update c.t1Blks c.t1BlkIdx (Type1NodeBlock.decodeFromBlk a.blk) }
  match op with
  | .readRootNode => nodeRead
  | .readInnerNode => nodeRead
  | .readLeafNode => pure { c with dataBlk := a.blk }
  | .decryptLeafNode => pure { c with dataBlk := a.blk }
  | .encryptLeafNode => pure { c with dataBlk := a.blk }
  | .writeRootNode => pure { c with encodedBlk := c.blockToWrite }
  | .writeInnerNode => pure { c with encodedBlk := c.blockToWrite }
  | .writeLeafNode => pure c
  | .readClientDataFromLeafNode => pure c
  | .writeClientDataToLeafNode => pure { c with hash := a.hash }
  | .allocPbasAtLeafLvl => pure { c with newPbas := a.newPbas }
  | .allocPbasAtLowestInnerLvl => pure { c with newPbas := a.newPbas }
  | .allocPbasAtHigherInnerLvl => pure { c with newPbas := a.newPbas }

/-! ## Steps -/

/-- One step of a channel: it is executed, or it gets an answer to the
request that it waits for. -/
inductive Step (sha : Block → Hash) (answers : GeneratedRequest → Answer → Prop) :
    Channel → Channel → Prop where
  | execute {c c' : Channel} (h : execute sha c = .ok c') : Step sha answers c c'
  | answer {c c' : Channel} {op : Op} {r : GeneratedRequest} {a : Answer}
      (hs : c.state = .pending op) (hr : peekGeneratedRequest c op = .ok r) (ha : answers r a)
      (h : generatedRequestComplete c op a = .ok c') : Step sha answers c c'

/-- What a channel gets to with the request that was submitted to it. -/
def Processes (sha : Block → Hash) (answers : GeneratedRequest → Answer → Prop) (c : Channel)
    (req : Request) (c' : Channel) : Prop :=
  Relation.ReflTransGen (Step sha answers) (c.submitRequest req) c'

end Genode.Tresor.Vbd
