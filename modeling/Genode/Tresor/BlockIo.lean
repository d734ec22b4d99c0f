import Mathlib.Logic.Relation
import Genode.Tresor.Types

/-!
# BlockIo — reading blocks from the back-end file

Block I/O reads a block piece by piece, as the file system delivers it. A
node block goes to the one who asked for it; client data is decrypted
before it goes to the client. What a completed read has seen is the block
as the file stores it.
-/

namespace Genode.Tresor.BlockIo

/-- The content of the back-end file. -/
abbrev File := Nat → UInt8

/-- The block of the file at an address. -/
def storedBlock (file : File) (pba : PhysicalBlockAddress) : Block where
  bytes := (List.range blockSize).map fun i => file ((pba * 4096).toNat + i)
  length_eq := by rw [List.length_map, List.length_range]

inductive ReqType where
  | read
  | readClientData
  deriving DecidableEq, Repr

/-- `Block_io_request`, for one block. -/
structure Request where
  type : ReqType
  pba : PhysicalBlockAddress
  deriving DecidableEq, Repr

/-- `Block_io_channel::State` -/
inductive State where
  | submitted
  | pending
  | inProgress
  | decryptClientDataPending
  | decryptClientDataComplete
  | complete
  deriving DecidableEq, Repr

/-- `Block_io_channel`. The buffer holds the bytes that were read. -/
structure Channel where
  request : Request
  state : State := .submitted
  seek : UInt64 := 0
  buf : List UInt8 := []
  nrOfRemainingBytes : Nat := 0
  generatedReqSuccess : Bool := false
  success : Bool := false
  deriving DecidableEq

/-- What the file system or the crypto module answers. -/
inductive Event where
  | again
  | ok (nrOfBytes : Nat)
  | error
  deriving DecidableEq, Repr

namespace Channel

def finish (c : Channel) (success : Bool) : Channel :=
  { c with state := .complete, success := success }

/-- Seek to the first byte that is missing and queue the read. -/
def queueRead (c : Channel) (ev : Event) : Channel :=
  let c := { c with seek := c.request.pba * 4096 + UInt64.ofNat c.buf.length }
  match ev with
  | .again => c
  | _ => { c with state := .inProgress }

/-- Take over the bytes that were read, which are no more than asked for. -/
def fetch (file : File) (c : Channel) (n : Nat) : Channel :=
  let n := min n c.nrOfRemainingBytes
  { c with
    buf := c.buf ++ (List.range n).map fun i => file (c.seek.toNat + i)
    nrOfRemainingBytes := c.nrOfRemainingBytes - n }

end Channel

/-- The last address that a read can seek to. -/
def maxPbaForRead : PhysicalBlockAddress := 0x7fffffffffffffff / 4096

/-- `_execute_read` -/
def executeRead (file : File) (c : Channel) (ev : Event) : Channel :=
  match c.state with
  | .pending => if maxPbaForRead < c.request.pba then c.finish false else c.queueRead ev
  | .inProgress =>
    match ev with
    | .again => c
    | .error => c.finish false
    | .ok n =>
      if n = 0 then c.finish false
      else
        let c := c.fetch file n
        if c.nrOfRemainingBytes = 0 then c.finish true else { c with state := .pending }
  | _ => c

/-- `_execute_read_client_data`. The completion of the decryption is an event
of its own. -/
def executeReadClientData (file : File) (c : Channel) (ev : Event) : Channel :=
  match c.state with
  | .pending => c.queueRead ev
  | .inProgress =>
    match ev with
    | .again => c
    | .error => c.finish false
    | .ok n =>
      let c := c.fetch file n
      { c with
        state := if c.nrOfRemainingBytes = 0 then .decryptClientDataPending else .pending }
  | .decryptClientDataPending =>
    match ev with
    | .again => c
    | .error => { c with state := .decryptClientDataComplete, generatedReqSuccess := false }
    | .ok _ => { c with state := .decryptClientDataComplete, generatedReqSuccess := true }
  | .decryptClientDataComplete => c.finish c.generatedReqSuccess
  | _ => c

/-- `execute` for a channel, with the answer that it gets. -/
def execute (file : File) (c : Channel) (ev : Event) : Channel :=
  let c := match c.state with
    | .submitted => { c with state := .pending, buf := [], nrOfRemainingBytes := blockSize }
    | _ => c
  match c.request.type with
  | .read => executeRead file c ev
  | .readClientData => executeReadClientData file c ev

/-- A request comes to its end in the given state of its channel. -/
def Completes (file : File) (req : Request) (c : Channel) : Prop :=
  Relation.ReflTransGen (fun c c' => ∃ ev, execute file c ev = c') { request := req } c ∧
    c.state = .complete

/-! ## What was read -/

section Reading

variable {file : File} {req : Request} {c c' : Channel} {ev : Event}

/-- What has been read is the beginning of the block, and some is missing. -/
structure Part (file : File) (req : Request) (c : Channel) : Prop where
  buf : c.buf = (storedBlock file req.pba).bytes.take c.buf.length
  length : c.buf.length + c.nrOfRemainingBytes = blockSize
  missing : 0 < c.nrOfRemainingBytes

/-- A block that block I/O does not refuse to read. -/
def Readable (req : Request) : Prop := req.type = .read → req.pba ≤ maxPbaForRead

/-- What was read at a state of the channel. -/
def Expected (file : File) (req : Request) (c : Channel) : Prop :=
  match c.state with
  | .submitted => True
  | .pending => Part file req c
  | .inProgress => Part file req c ∧ Readable req ∧
      c.seek = req.pba * 4096 + UInt64.ofNat c.buf.length
  | .decryptClientDataPending => c.buf = (storedBlock file req.pba).bytes ∧ Readable req
  | .decryptClientDataComplete => c.buf = (storedBlock file req.pba).bytes ∧ Readable req
  | .complete => c.success = true → c.buf = (storedBlock file req.pba).bytes ∧ Readable req

/-- The channel works for the request. -/
structure Reading (file : File) (req : Request) (c : Channel) : Prop where
  request : c.request = req
  expected : Expected file req c

theorem storedBlock_getElem? (file : File) (pba : PhysicalBlockAddress) (i : Nat)
    (hi : i < blockSize) :
    (storedBlock file pba).bytes[i]? = some (file ((pba * 4096).toNat + i)) := by
  simp only [storedBlock, List.getElem?_map, List.getElem?_range hi, Option.map_some]

/-- A block does not go round the end of the addresses. -/
theorem seek_toNat (pba : PhysicalBlockAddress) {n : Nat} (hn : n < blockSize) :
    (pba * 4096 + UInt64.ofNat n).toNat = (pba * 4096).toNat + n := by
  have hb : n < 4096 := hn
  have hmul : (pba * 4096).toNat = pba.toNat * 4096 % 18446744073709551616 := by
    rw [UInt64.toNat_mul]
    rfl
  have hn' : n % 2 ^ 64 = n := Nat.mod_eq_of_lt (by omega)
  have hadd : (pba * 4096 + UInt64.ofNat n).toNat =
      ((pba * 4096).toNat + n) % 18446744073709551616 := by
    rw [UInt64.toNat_add, UInt64.toNat_ofNat', hn']
  rw [hadd, hmul]
  omega

/-- A file that holds the given blocks. -/
def fileOf (blocks : PhysicalBlockAddress → Block) : File := fun n =>
  (blocks (UInt64.ofNat (n / 4096))).bytes.getD (n % 4096) 0

theorem storedBlock_fileOf (blocks : PhysicalBlockAddress → Block) {pba : PhysicalBlockAddress}
    (h : pba ≤ maxPbaForRead) : storedBlock (fileOf blocks) pba = blocks pba := by
  have hle : pba.toNat ≤ 2251799813685247 := UInt64.le_iff_toNat_le.mp h
  have hmul : (pba * 4096).toNat = pba.toNat * 4096 := by
    rw [UInt64.toNat_mul]
    change pba.toNat * 4096 % 18446744073709551616 = _
    omega
  apply Block.ext
  apply List.ext_getElem?
  intro i
  by_cases hi : i < blockSize
  · have hi' : i < 4096 := hi
    have hdiv : (pba.toNat * 4096 + i) / 4096 = pba.toNat := by omega
    have hmod : (pba.toNat * 4096 + i) % 4096 = i := by omega
    have hlen : i < (blocks pba).bytes.length := by rw [(blocks pba).length_eq]; exact hi
    rw [storedBlock_getElem? _ _ _ hi, hmul, fileOf, hdiv, hmod, UInt64.ofNat_toNat,
      List.getD_eq_getElem?_getD, List.getElem?_eq_getElem hlen, Option.getD_some]
  · rw [List.getElem?_eq_none (by rw [(storedBlock _ _).length_eq]; omega),
      List.getElem?_eq_none (by rw [(blocks pba).length_eq]; omega)]

/-- The bytes that are read next continue the block. -/
theorem append_take_storedBlock {pba : PhysicalBlockAddress} {buf : List UInt8} {n : Nat}
    (hbuf : buf = (storedBlock file pba).bytes.take buf.length) (hn : buf.length + n ≤ blockSize) :
    buf ++ (List.range n).map (fun i => file ((pba * 4096).toNat + buf.length + i)) =
      (storedBlock file pba).bytes.take (buf.length + n) := by
  rw [List.take_add, ← hbuf]
  congr 1
  apply List.ext_getElem?
  intro i
  by_cases hi : i < n
  · rw [List.getElem?_map, List.getElem?_range hi, List.getElem?_take_of_lt hi,
      List.getElem?_drop, storedBlock_getElem? _ _ _ (by omega), Option.map_some, Nat.add_assoc]
  · rw [List.getElem?_eq_none (by rw [List.length_map, List.length_range]; omega),
      List.getElem?_eq_none (by rw [List.length_take]; omega)]

theorem Part.fetch (h : Part file req c)
    (hseek : c.seek = req.pba * 4096 + UInt64.ofNat c.buf.length) (n : Nat) :
    (c.fetch file n).buf = (storedBlock file req.pba).bytes.take (c.fetch file n).buf.length ∧
      (c.fetch file n).buf.length + (c.fetch file n).nrOfRemainingBytes = blockSize := by
  have hlen := h.length
  have hpos := h.missing
  have hs : c.seek.toNat = (req.pba * 4096).toNat + c.buf.length := by
    rw [hseek, seek_toNat _ (by omega)]
  have hbuf := append_take_storedBlock (n := min n c.nrOfRemainingBytes) h.buf (by omega)
  simp only [Channel.fetch, List.length_append, List.length_map, List.length_range, hs]
  exact ⟨hbuf, by omega⟩

/-- What was fetched is the whole block, or some of it is still missing. -/
theorem Part.fetched (h : Part file req c)
    (hseek : c.seek = req.pba * 4096 + UInt64.ofNat c.buf.length) (n : Nat) :
    if (c.fetch file n).nrOfRemainingBytes = 0 then
      (c.fetch file n).buf = (storedBlock file req.pba).bytes
    else Part file req (c.fetch file n) := by
  obtain ⟨hbuf, hlen⟩ := h.fetch hseek n
  split
  · rename_i hz
    rw [hbuf, List.take_of_length_le]
    rw [(storedBlock file req.pba).length_eq]
    omega
  · rename_i hz
    exact ⟨hbuf, hlen, Nat.pos_of_ne_zero hz⟩

theorem Part.congr (h : Part file req c) (hbuf : c'.buf = c.buf)
    (hrem : c'.nrOfRemainingBytes = c.nrOfRemainingBytes) : Part file req c' := by
  obtain ⟨h₁, h₂, h₃⟩ := h
  constructor
  · rw [hbuf]
    exact h₁
  · rw [hbuf, hrem]
    exact h₂
  · rw [hrem]
    exact h₃

theorem Reading.finish_false (h : c.request = req) : Reading file req (c.finish false) :=
  ⟨h, fun h => by cases h⟩

theorem Reading.queueRead (h : c.request = req) (hs : c.state = .pending)
    (hp : Part file req c) (hr : Readable req) : Reading file req (c.queueRead ev) := by
  have hseek : c.request.pba * 4096 + UInt64.ofNat c.buf.length =
      req.pba * 4096 + UInt64.ofNat c.buf.length := by rw [h]
  cases ev with
  | again =>
    refine ⟨h, ?_⟩
    simp only [Expected, Channel.queueRead, hs]
    exact hp.congr rfl rfl
  | ok n => exact ⟨h, hp.congr rfl rfl, hr, hseek⟩
  | error => exact ⟨h, hp.congr rfl rfl, hr, hseek⟩

/-- Each step of a read keeps to the block. -/
theorem Reading.executeRead (h : Reading file req c) :
    Reading file req (executeRead file c ev) := by
  have hreq := h.request
  have he := h.expected
  simp only [Expected] at he
  cases hs : c.state with
  | pending =>
    simp only [hs] at he
    simp only [BlockIo.executeRead, hs]
    split
    · exact .finish_false hreq
    · rename_i hle
      rw [hreq] at hle
      exact .queueRead hreq hs he fun _ => UInt64.not_lt.mp hle
  | inProgress =>
    simp only [hs] at he
    obtain ⟨hp, hr, hseek⟩ := he
    simp only [BlockIo.executeRead, hs]
    cases ev with
    | again => exact h
    | error => exact .finish_false hreq
    | ok n =>
      have hf := hp.fetched hseek n
      dsimp only
      split
      · exact .finish_false hreq
      · split
        · rename_i hz
          rw [if_pos hz] at hf
          exact ⟨hreq, fun _ => ⟨hf, hr⟩⟩
        · rename_i hz
          rw [if_neg hz] at hf
          exact ⟨hreq, hf.congr rfl rfl⟩
  | _ =>
    simp only [BlockIo.executeRead, hs]
    exact h

theorem Reading.executeReadClientData (h : Reading file req c) (ht : req.type = .readClientData) :
    Reading file req (executeReadClientData file c ev) := by
  have hr : Readable req := fun h => by rw [ht] at h; cases h
  have hreq := h.request
  have he := h.expected
  simp only [Expected] at he
  cases hs : c.state with
  | pending =>
    simp only [hs] at he
    simp only [BlockIo.executeReadClientData, hs]
    exact .queueRead hreq hs he hr
  | inProgress =>
    simp only [hs] at he
    obtain ⟨hp, hr, hseek⟩ := he
    simp only [BlockIo.executeReadClientData, hs]
    cases ev with
    | again => exact h
    | error => exact .finish_false hreq
    | ok n =>
      have hf := hp.fetched hseek n
      refine ⟨hreq, ?_⟩
      by_cases hz : (c.fetch file n).nrOfRemainingBytes = 0
      · rw [if_pos hz] at hf
        simp only [Expected, if_pos hz]
        exact ⟨hf, hr⟩
      · rw [if_neg hz] at hf
        simp only [Expected, if_neg hz]
        exact hf.congr rfl rfl
  | decryptClientDataPending =>
    simp only [hs] at he
    simp only [BlockIo.executeReadClientData, hs]
    cases ev with
    | again => exact h
    | ok n => exact ⟨hreq, he⟩
    | error => exact ⟨hreq, he⟩
  | decryptClientDataComplete =>
    simp only [hs] at he
    simp only [BlockIo.executeReadClientData, hs]
    exact ⟨hreq, fun _ => he⟩
  | _ =>
    simp only [BlockIo.executeReadClientData, hs]
    exact h

/-- Each step keeps to the block. -/
theorem Reading.execute (h : Reading file req c) : Reading file req (execute file c ev) := by
  have hstart : Reading file req (match c.state with
      | .submitted => { c with state := .pending, buf := [], nrOfRemainingBytes := blockSize }
      | _ => c) := by
    cases hs : c.state with
    | submitted => exact ⟨h.request, rfl, rfl, Nat.succ_pos 4095⟩
    | _ => exact h
  simp only [BlockIo.execute]
  split
  · exact hstart.executeRead
  · rename_i ht
    rw [hstart.request] at ht
    exact hstart.executeReadClientData ht

theorem Reading.of_reaches
    (h : Relation.ReflTransGen (fun c c' => ∃ ev, BlockIo.execute file c ev = c')
      { request := req } c) : Reading file req c := by
  induction h with
  | refl => exact ⟨rfl, trivial⟩
  | tail _ hstep ih =>
    obtain ⟨ev, rfl⟩ := hstep
    exact ih.execute

/-- A request that was successful has read the block as it is stored. -/
theorem Completes.buf_eq (h : Completes file req c) (hs : c.success = true) :
    c.buf = (storedBlock file req.pba).bytes ∧ Readable req := by
  have he := (Reading.of_reaches h.1).expected
  simp only [Expected, h.2] at he
  exact he hs

/-- The steps of a request, one for each answer. -/
def executeAll (file : File) (c : Channel) (evs : List Event) : Channel :=
  evs.foldl (BlockIo.execute file) c

theorem reaches_executeAll (evs : List Event) : Relation.ReflTransGen
    (fun c c' => ∃ ev, BlockIo.execute file c ev = c') c (executeAll file c evs) := by
  induction evs generalizing c with
  | nil => exact .refl
  | cons ev evs ih => exact .head ⟨ev, rfl⟩ ih

/-- If the file system delivers, a request comes to a good end. -/
theorem exists_completes (file : File) (hr : Readable req) :
    ∃ c, Completes file req c ∧ c.success = true := by
  obtain ⟨type, pba⟩ := req
  cases type with
  | read =>
    have hle : ¬ maxPbaForRead < pba := UInt64.not_lt.mpr (hr rfl)
    refine ⟨executeAll file { request := ⟨.read, pba⟩ } [.ok blockSize, .ok blockSize],
      ⟨reaches_executeAll _, ?_⟩, ?_⟩
    all_goals simp [executeAll, BlockIo.execute, BlockIo.executeRead, hle, Channel.queueRead,
      Channel.fetch, Channel.finish, blockSize]
  | readClientData =>
    refine ⟨executeAll file { request := ⟨.readClientData, pba⟩ }
      [.ok blockSize, .ok blockSize, .ok 0, .ok 0], ⟨reaches_executeAll _, ?_⟩, ?_⟩
    all_goals simp [executeAll, BlockIo.execute, BlockIo.executeReadClientData,
      Channel.queueRead, Channel.fetch, Channel.finish, blockSize]

end Reading

end Genode.Tresor.BlockIo
