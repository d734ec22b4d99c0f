import Genode.Tresor.Superblock
import Genode.Tresor.VirtualBlockDevice

/-!
# SuperblockControl — the management of the superblock

The module that all requests of clients go through. It keeps the
superblock in memory, hands reading, writing, re-encryption and extension
over to the modules for the trees, and secures the superblock: the keys
are encrypted, the superblock is written to the next slot, and its hash is
handed to the trust anchor. Exceptions end the program and show as faults.
-/

namespace Genode.Tresor.SbControl

open Genode.Lib

/-- `Superblock_control_request::Type` -/
inductive ReqType where
  | invalid
  | readVba
  | writeVba
  | sync
  | init
  | deinit
  | vbdExtensionStep
  | ftExtensionStep
  | createSnapshot
  | discardSnapshot
  | initializeRekeying
  | rekeyVba
  deriving DecidableEq, Repr

/-- `Superblock_control_request` -/
structure Request where
  type : ReqType := .invalid
  clientReqOffset : UInt64 := 0
  clientReqTag : UInt64 := 0
  vba : VirtualBlockAddress := 0
  sbState : SuperblockState := .invalid
  nrOfBlks : UInt64 := 0
  success : Bool := false
  requestFinished : Bool := false
  deriving DecidableEq

/-- The requests that the channel waits for. -/
inductive Op where
  | readVbaAtVbd
  | writeVbaAtVbd
  | readSb
  | readCurrentSb
  | rekeyVbaInVbd
  | vbdExtStepInVbd
  | ftExtStepInFt
  | createKey
  | encryptCurrentKey
  | encryptPreviousKey
  | decryptCurrentKey
  | decryptPreviousKey
  | syncCache
  | addKeyAtCryptoModule
  | addPreviousKeyAtCryptoModule
  | addCurrentKeyAtCryptoModule
  | removePreviousKeyAtCryptoModule
  | removeCurrentKeyAtCryptoModule
  | writeSb
  | syncBlkIo
  | secureSb
  | maxSbHash
  deriving DecidableEq, Repr

/-- `Superblock_control_channel::State` -/
inductive State where
  | submitted
  | pending (op : Op)
  | done (op : Op)
  | completed
  deriving DecidableEq, Repr

structure GeneratedPrim where
  succ : Bool := false
  blkNr : UInt64 := 0
  deriving DecidableEq, Repr

abbrev SuperblockIndex := Fin nrOfSuperblockSlots

/-- `Superblock_control_channel` -/
structure Channel where
  state : State := .submitted
  request : Request := {}
  generatedPrim : GeneratedPrim := {}
  keyPlaintext : Key := {}
  sbCiphertext : Superblock := {}
  encodedBlk : Block := default
  sbIdx : SuperblockIndex := ⟨0, nrOfSuperblockSlots_pos⟩
  sbFound : Bool := false
  readSbIdx : SuperblockIndex := ⟨0, nrOfSuperblockSlots_pos⟩
  generation : Generation := 0
  snapshots : Snapshots := Snapshots.none
  hash : Hash := default
  currKeyPlaintext : Key := {}
  prevKeyPlaintext : Key := {}
  pba : PhysicalBlockAddress := 0
  nrOfLeaves : UInt64 := 0
  ftRoot : Type1Node := {}
  ftMaxLvl : UInt32 := 0
  ftNrOfLeaves : UInt64 := 0

/-- `Superblock_control`, with its one channel. -/
structure Control where
  sb : Superblock := {}
  sbIdx : SuperblockIndex := ⟨0, nrOfSuperblockSlots_pos⟩
  currGen : Generation := 0
  chan : Channel := {}

/-- The slot that is written after the given one. -/
def nextSlot (i : SuperblockIndex) : SuperblockIndex :=
  if h : i.val < nrOfSuperblockSlots - 1 then ⟨i.val + 1, Nat.add_lt_of_lt_sub h⟩
  else ⟨0, nrOfSuperblockSlots_pos⟩

namespace Control

/-- Generate a request for the given operation. -/
def generate (c : Control) (op : Op) (blkNr : UInt64) : Control :=
  { c with chan := { c.chan with
      generatedPrim := { succ := false, blkNr := blkNr }
      state := .pending op } }

/-- The request of the channel is done. -/
def complete (c : Control) (success : Bool) : Control :=
  { c with chan := { c.chan with
      request := { c.chan.request with success := success }
      state := .completed } }

/-- `_mark_req_failed` -/
def markReqFailed (c : Control) : Control := c.complete false

/-- `_mark_req_successful` -/
def markReqSuccessful (c : Control) : Control := c.complete true

def setFinished (c : Control) (finished : Bool) : Control :=
  { c with chan := { c.chan with
      request := { c.chan.request with requestFinished := finished } } }

/-- What to do when the generated request was successful, or else. -/
def checked (c : Control) (fail : Control → Exec Control) (next : Exec Control) : Exec Control :=
  if c.chan.generatedPrim.succ then next else fail c

/-- A failed request fails the request that generated it. -/
def failing (c : Control) : Exec Control := pure c.markReqFailed

/-- A failed request is met with an exception. -/
def throwing (_ : Control) : Exec Control := .error .assertion

/-! ## Access to the virtual block device -/

/-- The start of `_execute_read_vba` and `_execute_write_vba`: choose the key
and go on to the given operation. -/
def startVbaAccess (c : Control) (op : Op) : Exec Control :=
  let vba := c.chan.request.vba
  let go (id : KeyId) : Exec Control :=
    pure ({ c with chan := { c.chan with
      currKeyPlaintext := { c.chan.currKeyPlaintext with id := id } } }.generate op vba)
  match c.sb.state with
  | .rekeying => go (if vba < c.sb.rekeyingVba then c.sb.currentKey.id else c.sb.previousKey.id)
  | .normal => if c.sb.maxVba < vba then pure c.markReqFailed else go c.sb.currentKey.id
  | .extendingFt => go c.sb.currentKey.id
  | .extendingVbd => go c.sb.currentKey.id
  | .invalid => .error .assertion

/-- `_execute_read_vba` -/
def executeReadVba (c : Control) : Exec Control :=
  match c.chan.state with
  | .submitted => c.startVbaAccess .readVbaAtVbd
  | .done .readVbaAtVbd => pure (c.complete c.chan.generatedPrim.succ)
  | _ => pure c

/-- Take over the snapshot that was written: a new one if the current one is
from an older generation. -/
def takeOverSnapshot (c : Control) : Exec Superblock :=
  let written := c.chan.snapshots ⟨0, maxNrOfSnapshots_pos⟩
  if c.sb.snap.gen < c.currGen then
    match c.sb.snapshots.idxOfInvalidOrLowestGenEvictableSnap c.currGen
      c.sb.lastSecuredGeneration with
    | some idx => pure ({ c.sb with currSnap := idx }.setSnap { written with keep := false })
    | none => .error .assertion
  else if c.sb.snap.gen = c.currGen then pure (c.sb.setSnap written)
  else .error .assertion

/-- `_execute_write_vba` -/
def executeWriteVba (c : Control) : Exec Control :=
  match c.chan.state with
  | .submitted => c.startVbaAccess .writeVbaAtVbd
  | .done .writeVbaAtVbd => do
    let sb ← c.takeOverSnapshot
    pure ({ c with sb := sb }.complete c.chan.generatedPrim.succ)
  | _ => pure c

/-! ## Securing the superblock -/

/-- `_secure_sb_init` -/
def secureSbInit (c : Control) : Control :=
  let sb := c.sb.setSnap { c.sb.snap with gen := c.currGen }
  { c with
    sb := sb
    chan := { c.chan with
      sbCiphertext := sb.initSbWithoutKeyValues
      keyPlaintext := sb.currentKey } }.generate .encryptCurrentKey 0

/-- `_secure_sb_encr_curr_key_compl` and its kind, up to the trust anchor.
SYNC and DEINITIALIZE differ from the others in how they take a failure. -/
def secureSb (sha : Block → Hash) (fail : Control → Exec Control) (c : Control) : Op → Exec Control
  | .encryptCurrentKey => c.checked fail <|
    if c.sb.state = .rekeying then
      pure ({ c with chan := { c.chan with keyPlaintext := c.sb.previousKey } }.generate
        .encryptPreviousKey 0)
    else pure (c.generate .syncCache 0)
  | .encryptPreviousKey => c.checked fail <| pure (c.generate .syncCache 0)
  | .syncCache => c.checked fail <| pure (c.generate .writeSb (UInt64.ofNat c.sbIdx.val))
  | .writeSb => c.checked fail <| pure (c.generate .syncBlkIo (UInt64.ofNat c.sbIdx.val))
  | .syncBlkIo => c.checked fail <|
    pure ({ c with
      chan := { c.chan with
        hash := sha c.chan.sbCiphertext.encodeToBlk
        generation := c.currGen }
      sbIdx := nextSlot c.sbIdx
      currGen := c.currGen + 1 }.generate .secureSb 0)
  | _ => pure c

/-- The end of securing. -/
def superblockSecured (c : Control) : Control :=
  { c with sb := { c.sb with lastSecuredGeneration := c.chan.generation } }

/-! ## Extension -/

/-- `_execute_tree_ext_step`, at its start. -/
def startTreeExtStep (c : Control) (extState : SuperblockState) (op : Op) : Exec Control :=
  let lastUsedPba := c.sb.firstPba + (c.sb.nrOfPbas - 1)
  let nrOfUnusedPbas := maxPba - lastUsedPba
  if nrOfUnusedPbas < c.chan.request.nrOfBlks then pure c.markReqFailed
  else if c.sb.state = .normal then
    let c := c.setFinished false
    pure { c with
      sb := { c.sb with
        state := extState
        resizingNrOfPbas := c.chan.request.nrOfBlks
        resizingNrOfLeaves := 0 }
      chan := { c.chan with pba := lastUsedPba + 1 } }.secureSbInit
  else if c.sb.state = extState then
    pure ({ c with chan := { c.chan with
      pba := lastUsedPba + 1
      request := { c.chan.request with nrOfBlks := c.sb.resizingNrOfPbas } } }.generate op 0)
  else pure c.markReqFailed

/-- Take over the tree that was extended. -/
def takeOverTree (c : Control) (op : Op) (sb : Superblock) : Exec Superblock :=
  if op = .vbdExtStepInVbd then
    match c.chan.snapshots.newestSnapshotIdx with
    | some idx => pure { sb with snapshots := c.chan.snapshots, currSnap := idx }
    | none => .error .assertion
  else pure { sb with free := { sb.free with
      gen := c.chan.ftRoot.gen
      number := c.chan.ftRoot.pba
      hash := c.chan.ftRoot.hash
      maxLevel := c.chan.ftMaxLvl
      leaves := c.chan.ftNrOfLeaves } }

/-- `_execute_tree_ext_step`, after the tree was extended. -/
def treeExtStepCompleted (c : Control) (op : Op) : Exec Control :=
  let nrOfBlks := c.chan.request.nrOfBlks
  if c.sb.resizingNrOfPbas ≤ nrOfBlks then pure c.markReqFailed
  else
    let nrOfAddedPbas := c.sb.resizingNrOfPbas - nrOfBlks
    let newFirstUnusedPba := c.sb.firstPba + (c.sb.nrOfPbas + nrOfAddedPbas)
    if c.chan.pba ≠ newFirstUnusedPba then pure c.markReqFailed
    else do
      let sb ← c.takeOverTree op { c.sb with
        nrOfPbas := c.sb.nrOfPbas + nrOfAddedPbas
        resizingNrOfPbas := nrOfBlks
        resizingNrOfLeaves := c.sb.resizingNrOfLeaves + c.chan.nrOfLeaves }
      if nrOfBlks = 0 then
        pure ({ c with sb := { sb with state := .normal } }.setFinished true).secureSbInit
      else pure { c with sb := sb }.secureSbInit

/-- `_execute_tree_ext_step` -/
def executeTreeExtStep (sha : Block → Hash) (c : Control) (extState : SuperblockState) (op : Op) :
    Exec Control :=
  match c.chan.state with
  | .submitted => c.startTreeExtStep extState op
  | .done .vbdExtStepInVbd => c.checked failing (c.treeExtStepCompleted op)
  | .done .ftExtStepInFt => c.checked failing (c.treeExtStepCompleted op)
  | .done .secureSb => c.checked failing (pure c.superblockSecured.markReqSuccessful)
  | .done o => c.secureSb sha failing o
  | _ => pure c

/-! ## Re-encryption -/

/-- The number of leaves of the largest snapshot. -/
def maxNrOfLeaves (snaps : Snapshots) : UInt64 :=
  (List.finRange maxNrOfSnapshots).foldl (fun n idx =>
    if (snaps idx).valid && decide (n < (snaps idx).nrOfLeaves) then (snaps idx).nrOfLeaves
    else n) 0

/-- `_execute_rekey_vba` -/
def executeRekeyVba (sha : Block → Hash) (c : Control) : Exec Control :=
  match c.chan.state with
  | .submitted =>
    if c.sb.state ≠ .rekeying then pure c.markReqFailed
    else pure (c.generate .rekeyVbaInVbd c.sb.rekeyingVba)
  | .done .rekeyVbaInVbd => c.checked failing <|
    let c := { c with sb := { c.sb with snapshots := c.chan.snapshots } }
    if c.sb.rekeyingVba < maxNrOfLeaves c.sb.snapshots - 1 then
      let c := c.setFinished false
      pure { c with sb := { c.sb with rekeyingVba := c.sb.rekeyingVba + 1 } }.secureSbInit
    else pure ({ c with chan := { c.chan with
      prevKeyPlaintext := { c.chan.prevKeyPlaintext with id := c.sb.previousKey.id } } }.generate
        .removePreviousKeyAtCryptoModule 0)
  | .done .removePreviousKeyAtCryptoModule => c.checked failing <|
    let c := c.setFinished true
    pure { c with sb := { c.sb with previousKey := {}, state := .normal } }.secureSbInit
  | .done .secureSb => c.checked failing (pure c.superblockSecured.markReqSuccessful)
  | .done o => c.secureSb sha failing o
  | _ => pure c

/-- `_execute_initialize_rekeying` -/
def executeInitializeRekeying (sha : Block → Hash) (c : Control) : Exec Control :=
  match c.chan.state with
  | .submitted => pure (c.generate .createKey 0)
  | .done .createKey => c.checked failing <|
    if c.sb.state ≠ .normal then pure c.markReqFailed
    else
      let key : Key := { value := c.chan.keyPlaintext.value, id := c.sb.currentKey.id + 1 }
      pure ({ c with
        sb := { c.sb with
          state := .rekeying
          rekeyingVba := 0
          previousKey := c.sb.currentKey
          currentKey := key }
        chan := { c.chan with keyPlaintext := key } }.generate .addKeyAtCryptoModule 0)
  | .done .addKeyAtCryptoModule => c.checked failing (pure c.secureSbInit)
  | .done .secureSb => c.checked failing (pure c.superblockSecured.markReqSuccessful)
  | .done o => c.secureSb sha failing o
  | _ => pure c

/-! ## Synchronization and the end -/

/-- The start of `_execute_sync` and `_execute_deinitialize`. The arguments
for the generations are swapped, which makes no difference. -/
def startSync (c : Control) : Control :=
  let snaps := Snapshots.discardDisposableSnapshots c.sb.snapshots c.sb.lastSecuredGeneration
    c.currGen
  { c with sb := { c.sb with snapshots := snaps, lastSecuredGeneration := c.currGen } }.secureSbInit

/-- `_execute_sync` -/
def executeSync (sha : Block → Hash) (c : Control) : Exec Control :=
  match c.chan.state with
  | .submitted => pure c.startSync
  | .done .secureSb => c.checked throwing (pure c.superblockSecured.markReqSuccessful)
  | .done o => c.secureSb sha throwing o
  | _ => pure c

/-- `_execute_deinitialize`. Only a superblock that is being re-encrypted is
invalid afterwards. -/
def executeDeinit (sha : Block → Hash) (c : Control) : Exec Control :=
  match c.chan.state with
  | .submitted => pure c.startSync
  | .done .secureSb => c.checked throwing <|
    let c := c.superblockSecured
    pure ({ c with chan := { c.chan with
      request := { c.chan.request with success := true }
      currKeyPlaintext := { c.chan.currKeyPlaintext with id := c.sb.currentKey.id } } }.generate
        .removeCurrentKeyAtCryptoModule 0)
  | .done .removeCurrentKeyAtCryptoModule => c.checked throwing <|
    match c.sb.state with
    | .invalid => .error .assertion
    | .rekeying =>
      pure ({ c with chan := { c.chan with
        prevKeyPlaintext := { c.chan.prevKeyPlaintext with id := c.sb.previousKey.id } } }.generate
          .removePreviousKeyAtCryptoModule 0)
    | _ => pure c.markReqSuccessful
  | .done .removePreviousKeyAtCryptoModule => c.checked throwing <|
    pure { c with sb := { c.sb with state := .invalid } }.markReqSuccessful
  | .done o => c.secureSb sha throwing o
  | _ => pure c

/-! ## Initialization -/

/-- A slot was read: remember it if its hash is the one that was secured. -/
def checkSlot (sha : Block → Hash) (c : Control) : Exec Control :=
  let cipher := c.chan.sbCiphertext
  if cipher.state = .invalid then pure c
  else
    match cipher.snapshots.newestSnapshotIdx with
    | none => .error .assertion
    | some idx =>
      if sha c.chan.encodedBlk = c.chan.hash then
        pure { c with chan := { c.chan with
          generation := (cipher.snapshots idx).gen
          sbIdx := c.chan.readSbIdx
          sbFound := true } }
      else pure c

/-- Take over the superblock that was found. -/
def takeOverSuperblock (c : Control) (previousKey : Bool) : Control :=
  let sb := c.chan.sbCiphertext.initSbWithoutKeyValues
  let sb := { sb with currentKey := { sb.currentKey with value := c.chan.currKeyPlaintext.value } }
  { c with
    sb := if previousKey then
        { sb with previousKey := { sb.previousKey with value := c.chan.prevKeyPlaintext.value } }
      else sb
    sbIdx := c.chan.sbIdx
    currGen := c.chan.generation + 1 }

def initialized (c : Control) : Control :=
  { c with chan := { c.chan with
      request := { c.chan.request with sbState := c.sb.state } } }.markReqSuccessful

/-- `_execute_initialize` -/
def executeInitialize (sha : Block → Hash) (c : Control) : Exec Control :=
  match c.chan.state with
  | .submitted => pure ({ c with chan := { c.chan with sbFound := false } }.generate .maxSbHash 0)
  | .done .maxSbHash =>
    pure ({ c with chan := { c.chan with readSbIdx := ⟨0, nrOfSuperblockSlots_pos⟩ } }.generate
      .readSb 0)
  | .done .readSb => c.checked throwing do
    let c ← c.checkSlot sha
    if c.chan.readSbIdx.val < nrOfSuperblockSlots - 1 then
      let next := nextSlot c.chan.readSbIdx
      pure ({ c with chan := { c.chan with readSbIdx := next } }.generate .readSb
        (UInt64.ofNat next.val))
    else do
      Exec.assert c.chan.sbFound
      pure (c.generate .readCurrentSb (UInt64.ofNat c.chan.sbIdx.val))
  | .done .readCurrentSb => c.checked throwing (pure (c.generate .decryptCurrentKey 0))
  | .done .decryptCurrentKey => c.checked throwing <|
    pure ({ c with chan := { c.chan with currKeyPlaintext :=
      { c.chan.currKeyPlaintext with id := c.chan.sbCiphertext.currentKey.id } } }.generate
        .addCurrentKeyAtCryptoModule 0)
  | .done .addCurrentKeyAtCryptoModule => c.checked throwing <|
    match c.chan.sbCiphertext.state with
    | .invalid => .error .assertion
    | .rekeying => pure (c.generate .decryptPreviousKey 0)
    | _ => do
      let c := c.takeOverSuperblock false
      Exec.assert (decide (freeTreeMinMaxLevel ≤ c.sb.free.maxLevel))
      pure c.initialized
  | .done .decryptPreviousKey => c.checked throwing <|
    pure (c.generate .addPreviousKeyAtCryptoModule 0)
  | .done .addPreviousKeyAtCryptoModule => c.checked throwing <|
    pure (c.takeOverSuperblock true).initialized
  | _ => pure c

/-- `execute` for the one channel. -/
def execute (sha : Block → Hash) (c : Control) : Exec Control :=
  match c.chan.request.type with
  | .readVba => c.executeReadVba
  | .writeVba => c.executeWriteVba
  | .sync => c.executeSync sha
  | .initializeRekeying => c.executeInitializeRekeying sha
  | .rekeyVba => c.executeRekeyVba sha
  | .vbdExtensionStep => c.executeTreeExtStep sha .extendingVbd .vbdExtStepInVbd
  | .ftExtensionStep => c.executeTreeExtStep sha .extendingFt .ftExtStepInFt
  | .createSnapshot => .error .assertion
  | .discardSnapshot => .error .assertion
  | .init => c.executeInitialize sha
  | .deinit => c.executeDeinit sha
  | .invalid => pure c

/-- `submit_request` -/
def submitRequest (c : Control) (req : Request) : Control :=
  { c with chan := { c.chan with request := req, state := .submitted } }

/-- `_drop_completed_request` -/
def dropCompletedRequest (c : Control) : Control :=
  { c with chan := { c.chan with request := { c.chan.request with type := .invalid } } }

end Control

/-! ## The other modules -/

/-- `Ft_resizing_request`. The root of the meta tree is passed by reference. -/
structure FtExtensionRequest where
  currGen : Generation
  ftRoot : Type1Node
  ftMaxLvl : UInt32
  ftNrOfLeaves : UInt64
  ftDegree : UInt32
  mtMaxLvl : UInt32
  mtDegree : UInt32
  mtNrOfLeaves : UInt64
  pba : PhysicalBlockAddress
  nrOfPbas : UInt64

/-- What the channel asks of the trust anchor, of the crypto module, of the
modules for the trees and of block I/O. -/
inductive GeneratedRequest where
  | createKey
  | encryptKey (key : Fin 32 → UInt8)
  | decryptKey (key : Fin 32 → UInt8)
  | secureSuperblock (hash : Hash)
  | getLastSbHash
  | addKey (key : Key)
  | removeKey (id : KeyId)
  | vbd (args : Vbd.CreateArgs)
  | ftExtensionStep (req : FtExtensionRequest)
  | read (pba : PhysicalBlockAddress)
  | sync (pba : PhysicalBlockAddress)
  | write (pba : PhysicalBlockAddress) (blk : Block)

namespace Control

/-- The shape of the free tree and the meta tree. -/
def treeParams (c : Control) : Vbd.TreeParams where
  ftMaxLevel := c.sb.free.maxLevel.toNat
  ftDegree := c.sb.free.degree.toNat
  ftLeaves := c.sb.free.leaves.toNat
  mtMaxLevel := c.sb.metaTree.maxLevel.toNat
  mtDegree := c.sb.metaTree.degree.toNat
  mtLeaves := c.sb.metaTree.leaves.toNat

/-- The arguments that are the same for all requests to the virtual block
device. -/
def vbdArgs (c : Control) (reqType : Vbd.ReqType) : Vbd.CreateArgs where
  reqType := reqType
  clientReqOffset := c.chan.request.clientReqOffset
  clientReqTag := c.chan.request.clientReqTag
  lastSecuredGeneration := c.sb.lastSecuredGeneration
  trees := c.treeParams
  vbdDegree := c.sb.degree
  vbdHighestVba := c.sb.maxVba
  rekeying := decide (c.sb.state = .rekeying)
  vba := 0
  snapshot := {}
  snapshots := Snapshots.none
  snapshotsDegree := c.sb.degree
  oldKeyId := 0
  newKeyId := 0
  currentGen := c.currGen
  keyId := c.chan.currKeyPlaintext.id
  firstPba := 0
  nrOfPbas := 0

/-- Reading and writing get the current snapshot only. -/
def vbaAccessArgs (c : Control) (reqType : Vbd.ReqType) : Vbd.CreateArgs :=
  { c.vbdArgs reqType with vba := c.chan.request.vba, snapshot := c.sb.snap }

def rekeyVbaArgs (c : Control) : Vbd.CreateArgs :=
  { c.vbdArgs .rekeyVba with
    vba := c.sb.rekeyingVba
    snapshots := c.sb.snapshots
    oldKeyId := c.sb.previousKey.id
    newKeyId := c.sb.currentKey.id }

def vbdExtensionArgs (c : Control) : Vbd.CreateArgs :=
  { c.vbdArgs .vbdExtensionStep with
    snapshots := c.sb.snapshots
    keyId := 0
    firstPba := c.sb.firstPba + c.sb.nrOfPbas
    nrOfPbas := c.sb.resizingNrOfPbas }

def ftExtensionRequest (c : Control) : FtExtensionRequest where
  currGen := c.currGen
  ftRoot := { pba := c.sb.free.number, gen := c.sb.free.gen, hash := c.sb.free.hash }
  ftMaxLvl := c.sb.free.maxLevel
  ftNrOfLeaves := c.sb.free.leaves
  ftDegree := c.sb.free.degree
  mtMaxLvl := c.sb.metaTree.maxLevel
  mtDegree := c.sb.metaTree.degree
  mtNrOfLeaves := c.sb.metaTree.leaves
  pba := c.sb.firstPba + c.sb.nrOfPbas
  nrOfPbas := c.sb.resizingNrOfPbas

/-- `_peek_generated_request` for the operation that the channel waits for. -/
def peekGeneratedRequest (c : Control) : Op → GeneratedRequest
  | .createKey => .createKey
  | .encryptCurrentKey => .encryptKey c.chan.keyPlaintext.value
  | .encryptPreviousKey => .encryptKey c.chan.keyPlaintext.value
  | .decryptCurrentKey => .decryptKey c.chan.sbCiphertext.currentKey.value
  | .decryptPreviousKey => .decryptKey c.chan.sbCiphertext.previousKey.value
  | .secureSb => .secureSuperblock c.chan.hash
  | .maxSbHash => .getLastSbHash
  | .addKeyAtCryptoModule => .addKey c.chan.keyPlaintext
  | .addCurrentKeyAtCryptoModule => .addKey c.chan.currKeyPlaintext
  | .addPreviousKeyAtCryptoModule => .addKey c.chan.prevKeyPlaintext
  | .removePreviousKeyAtCryptoModule => .removeKey c.chan.prevKeyPlaintext.id
  | .removeCurrentKeyAtCryptoModule => .removeKey c.chan.currKeyPlaintext.id
  | .readVbaAtVbd => .vbd (c.vbaAccessArgs .readVba)
  | .writeVbaAtVbd => .vbd (c.vbaAccessArgs .writeVba)
  | .rekeyVbaInVbd => .vbd c.rekeyVbaArgs
  | .vbdExtStepInVbd => .vbd c.vbdExtensionArgs
  | .ftExtStepInFt => .ftExtensionStep c.ftExtensionRequest
  | .readSb => .read c.chan.generatedPrim.blkNr
  | .readCurrentSb => .read c.chan.generatedPrim.blkNr
  | .syncBlkIo => .sync c.chan.generatedPrim.blkNr
  | .syncCache => .sync c.chan.generatedPrim.blkNr
  | .writeSb => .write c.chan.generatedPrim.blkNr c.chan.sbCiphertext.encodeToBlk

end Control

/-- What comes back from another module: a key, a hash, a block, or the
outcome of working on a tree. The roots of the free tree and the meta tree
are changed by reference. -/
structure Answer where
  success : Bool := true
  key : Fin 32 → UInt8 := fun _ => 0
  hash : Hash := default
  blk : Block := default
  snapshots : Snapshots := Snapshots.none
  pba : PhysicalBlockAddress := 0
  nrOfPbas : UInt64 := 0
  nrOfLeaves : UInt64 := 0
  ftRoot : Type1Node := {}
  ftMaxLvl : UInt32 := 0
  ftNrOfLeaves : UInt64 := 0
  ftRootByReference : Type1Node := {}
  mtRootByReference : Type1Node := {}

/-- A tree with another root node. -/
def withRoot (r : TreeRoot) (n : Type1Node) : TreeRoot :=
  { r with gen := n.gen, number := n.pba, hash := n.hash }

namespace Control

/-- What the other modules have changed in the superblock. -/
def changeRoots (c : Control) (op : Op) (a : Answer) : Superblock :=
  match op with
  | .writeVbaAtVbd | .rekeyVbaInVbd | .vbdExtStepInVbd =>
    { c.sb with
      free := withRoot c.sb.free a.ftRootByReference
      metaTree := withRoot c.sb.metaTree a.mtRootByReference }
  | .ftExtStepInFt => { c.sb with metaTree := withRoot c.sb.metaTree a.mtRootByReference }
  | _ => c.sb

/-- `generated_request_complete`. A superblock that was read is decoded right
away. -/
def generatedRequestComplete (c : Control) (op : Op) (a : Answer) : Exec Control :=
  let c := { c with sb := c.changeRoots op a }
  let chan := { c.chan with generatedPrim.succ := a.success, state := .done op }
  match op with
  | .createKey =>
    pure { c with chan := { chan with keyPlaintext := { chan.keyPlaintext with value := a.key } } }
  | .encryptCurrentKey =>
    pure { c with chan := { chan with sbCiphertext := { chan.sbCiphertext with
      currentKey := { chan.sbCiphertext.currentKey with value := a.key } } } }
  | .encryptPreviousKey =>
    pure { c with chan := { chan with sbCiphertext := { chan.sbCiphertext with
      previousKey := { chan.sbCiphertext.previousKey with value := a.key } } } }
  | .decryptCurrentKey =>
    pure { c with chan := { chan with
      currKeyPlaintext := { chan.currKeyPlaintext with value := a.key } } }
  | .decryptPreviousKey =>
    pure { c with chan := { chan with
      prevKeyPlaintext := { chan.prevKeyPlaintext with value := a.key } } }
  | .maxSbHash => pure { c with chan := { chan with hash := a.hash } }
  | .writeVbaAtVbd =>
    let first := a.snapshots ⟨0, maxNrOfSnapshots_pos⟩
    pure { c with chan := { chan with
      snapshots := Function.update chan.snapshots ⟨0, maxNrOfSnapshots_pos⟩ first } }
  | .rekeyVbaInVbd => pure { c with chan := { chan with snapshots := a.snapshots } }
  | .vbdExtStepInVbd =>
    pure { c with chan := { chan with
      snapshots := a.snapshots
      pba := a.pba
      request := { chan.request with nrOfBlks := a.nrOfPbas }
      nrOfLeaves := a.nrOfLeaves } }
  | .ftExtStepInFt =>
    pure { c with chan := { chan with
      ftRoot := a.ftRoot
      ftMaxLvl := a.ftMaxLvl
      ftNrOfLeaves := a.ftNrOfLeaves
      pba := a.pba
      request := { chan.request with nrOfBlks := a.nrOfPbas }
      nrOfLeaves := a.nrOfLeaves } }
  | .readSb => do
    let sb ← Superblock.decodeFromBlk a.blk
    pure { c with chan := { chan with encodedBlk := a.blk, sbCiphertext := sb } }
  | .readCurrentSb => do
    let sb ← Superblock.decodeFromBlk a.blk
    pure { c with chan := { chan with encodedBlk := a.blk, sbCiphertext := sb } }
  | .writeSb => pure { c with chan := { chan with
      encodedBlk := chan.sbCiphertext.encodeToBlk } }
  | _ => pure { c with chan := chan }

end Control

end Genode.Tresor.SbControl
