import Genode.Tresor.BlockIo
import Genode.Tresor.VirtualBlockDevice

/-!
# VbdRead — what a read has checked

A read goes down from the root of a snapshot to the block of the client.
The node blocks come from a back-end file that nobody can be trusted to
have left alone. What a read that was successful says about the file is
stated here for any content of the file.
-/

namespace Genode.Tresor.Vbd

open Genode.Lib
open BlockIo (File storedBlock maxPbaForRead)

/-- What block I/O answers to a read from the file. -/
def Answered (file : File) (r : GeneratedRequest) (a : Answer) : Prop :=
  match r with
  | .read pba => ∃ b, BlockIo.Completes file ⟨.read, pba⟩ b ∧ a.success = b.success ∧
      (a.success = true → a.blk.bytes = b.buf)
  | .readClientData pba _ _ =>
    ∃ b, BlockIo.Completes file ⟨.readClientData, pba⟩ b ∧ a.success = b.success
  | _ => True

/-- The node at depth `k` of the path to `vba`, as the file has it. Depth 0
is the snapshot itself, and the last node refers to the block of the client. -/
def pathNode (file : File) (degree : TreeDegree) (vba : VirtualBlockAddress) (snap : Snapshot) :
    Nat → Type1Node
  | 0 => { pba := snap.pba, gen := snap.gen, hash := snap.hash }
  | k + 1 =>
    Type1NodeBlock.decodeFromBlk (storedBlock file (pathNode file degree vba snap k).pba)
      (t1ChildIdxForVba vba (snap.maxLevel.toNat - k) degree)

section Read

variable {sha : Block → Hash} {file : File} {a : CreateArgs} {c c' : Channel}

/-- The path of a request to read. -/
def readPath (file : File) (a : CreateArgs) (k : Nat) : Type1Node :=
  pathNode file a.snapshotsDegree a.vba a.snapshot k

def depth (a : CreateArgs) : Nat := a.snapshot.maxLevel.toNat

/-- The block at depth `k` of the path has the hash that its parent records. -/
def Authentic (sha : Block → Hash) (file : File) (a : CreateArgs) (k : Nat) : Prop :=
  sha (storedBlock file (readPath file a k).pba) = (readPath file a k).hash

/-- All node blocks of the path can be read, have a buffer, and have the hash
that is recorded for them. -/
structure Verified (sha : Block → Hash) (file : File) (a : CreateArgs) : Prop where
  buffered : depth a < treeMaxLevel
  readable : ∀ k < depth a, (readPath file a k).pba ≤ maxPbaForRead
  authentic : ∀ k < depth a, Authentic sha file a k

/-- The channel works for the request. -/
structure Serves (a : CreateArgs) (c : Channel) : Prop where
  type : c.request.type = .readVba
  snap : c.snap = a.snapshot
  degree : c.request.snapshotsDegree = a.snapshotsDegree
  requestVba : c.request.vba = a.vba
  vba : c.vba = a.vba

/-- The channel is about the node block at depth `k` of the path, and the ones
above it were found to be authentic. -/
structure AtNode (sha : Block → Hash) (file : File) (a : CreateArgs) (k : Nat) (c : Channel) :
    Prop extends Serves a c where
  lt : k < depth a
  idx : c.t1BlkIdx = depth a - k
  node : c.readNode a.vba = readPath file a k
  above : ∀ j < k, depth a < treeMaxLevel ∧ (readPath file a j).pba ≤ maxPbaForRead ∧
    Authentic sha file a j

/-- The node block was read, and has a buffer. -/
structure NodeRead (file : File) (a : CreateArgs) (k : Nat) (c : Channel) : Prop where
  buffered : depth a < treeMaxLevel
  readable : (readPath file a k).pba ≤ maxPbaForRead
  encoded : c.encodedBlk = storedBlock file (readPath file a k).pba
  decoded : c.t1Blks c.t1BlkIdx = Type1NodeBlock.decodeFromBlk c.encodedBlk

/-- What is known at a state of the channel. -/
def ReadKnows (sha : Block → Hash) (file : File) (a : CreateArgs) (c : Channel) : Prop :=
  match c.state with
  | .submitted => c.request = Request.create a
  | .pending .readRootNode => ∃ k, AtNode sha file a k c ∧
      c.generatedPrim.blkNr = (readPath file a k).pba
  | .pending .readInnerNode => ∃ k, AtNode sha file a k c ∧
      c.generatedPrim.blkNr = (readPath file a k).pba
  | .done .readRootNode => ∃ k, AtNode sha file a k c ∧
      (c.generatedPrim.succ = true → NodeRead file a k c)
  | .done .readInnerNode => ∃ k, AtNode sha file a k c ∧
      (c.generatedPrim.succ = true → NodeRead file a k c)
  | .pending .readClientDataFromLeafNode => Serves a c ∧ Verified sha file a
  | .done .readClientDataFromLeafNode => Serves a c ∧ Verified sha file a
  | .completed => c.request.type = .readVba ∧ Verified sha file a
  | _ => False

theorem execute_readVba (h : c.request.type = .readVba) : execute sha c = executeReadVba sha c := by
  simp only [execute, h]

/-- What a channel does with a node block that is authentic. -/
def descend (c : Channel) : Channel :=
  if 1 < c.t1BlkIdx then
    { c with t1BlkIdx := c.t1BlkIdx - 1 }.generate .readInnerNode .cache
      (c.child c.request.vba c.t1BlkIdx).pba
  else c.generate .readClientDataFromLeafNode .blkIoReadClientData
    (c.child c.request.vba c.t1BlkIdx).pba

/-- A node block that was read leads on exactly if it is authentic. -/
theorem executeReadVbaReadInnerNodeCompleted_eq_ok {k : Nat} (h : AtNode sha file a k c)
    (hr : c.generatedPrim.succ = true → NodeRead file a k c) :
    executeReadVbaReadInnerNodeCompleted sha c = .ok c' ↔
      c.generatedPrim.succ = true ∧ Authentic sha file a k ∧ c' = descend c := by
  unfold executeReadVbaReadInnerNodeCompleted Channel.checkThatPrimitiveWasSuccessful
    checkHashOfReadType1Node
  cases hs : c.generatedPrim.succ with
  | false => simp
  | true =>
    have hn := hr hs
    have hauth : sha c.encodedBlk = (c.readNode c.vba).hash ↔ Authentic sha file a k := by
      rw [h.vba, h.node, hn.encoded, Authentic]
    by_cases hm : Authentic sha file a k
    · rw [decide_eq_true (hauth.mpr hm)]
      simp only [Exec.assert_true, Exec.ok_bind, Exec.pure_eq, descend, hm, true_and]
      split
      · simp only [Except.ok.injEq, eq_comm]
      · simp only [Except.ok.injEq, eq_comm]
    · rw [decide_eq_false (mt hauth.mp hm)]
      simp [hm]

/-- The child of a node block that was read is the next node of the path. -/
theorem NodeRead.child {k : Nat} (hr : NodeRead file a k c) (h : AtNode sha file a k c) :
    c.child c.request.vba c.t1BlkIdx = readPath file a (k + 1) := by
  rw [Channel.child, hr.decoded, hr.encoded, h.requestVba, h.degree, h.idx]
  rfl

theorem Serves.maxLevel (h : Serves a c) : c.maxLevel = depth a := by
  rw [Channel.maxLevel, h.snap, depth]

theorem ReadKnows.descend {k : Nat} (h : AtNode sha file a k c) (hr : NodeRead file a k c)
    (hm : Authentic sha file a k) : ReadKnows sha file a (descend c) := by
  have habove : ∀ j < k + 1, depth a < treeMaxLevel ∧ (readPath file a j).pba ≤ maxPbaForRead ∧
      Authentic sha file a j := by
    intro j hj
    rcases Nat.lt_succ_iff_lt_or_eq.mp hj with hj | rfl
    · exact h.above j hj
    · exact ⟨hr.buffered, hr.readable, hm⟩
  have hlt := h.lt
  have hidx := h.idx
  have hchild := hr.child h
  unfold Vbd.descend
  split
  · rename_i hk
    refine ⟨k + 1, { h with
      lt := by omega
      idx := ?_
      node := ?_
      above := habove }, ?_⟩
    · change c.t1BlkIdx - 1 = _
      omega
    · have hne : c.t1BlkIdx - 1 ≠ c.maxLevel := by
        rw [h.maxLevel]
        omega
      have hadd : c.t1BlkIdx - 1 + 1 = c.t1BlkIdx := by omega
      rw [← hchild, h.requestVba]
      change (if c.t1BlkIdx - 1 = c.maxLevel then _ else c.child a.vba (c.t1BlkIdx - 1 + 1)) = _
      rw [if_neg hne, hadd]
    · exact congrArg Type1Node.pba hchild
  · rename_i hk
    have hdepth : k + 1 = depth a := by omega
    refine ⟨{ h with }, hr.buffered, ?_, ?_⟩
    · intro j hj
      exact (habove j (by omega)).2.1
    · intro j hj
      exact (habove j (by omega)).2.2

theorem create_readVba (ht : a.reqType = .readVba) :
    (Request.create a).type = .readVba ∧
      (Request.create a).snapshots ⟨0, maxNrOfSnapshots_pos⟩ = a.snapshot ∧
      (Request.create a).snapshotsDegree = a.snapshotsDegree ∧ (Request.create a).vba = a.vba := by
  simp [Request.create, ht]

/-- The channel that has started to read, at the root. -/
def startRead (c : Channel) : Channel :=
  let c := { c with snapshotIdx := ⟨0, maxNrOfSnapshots_pos⟩, vba := c.request.vba }
  { c with t1BlkIdx := c.maxLevel }.generate .readRootNode .cache c.snap.pba

theorem ReadKnows.startRead (h : c.request = Request.create a) (ht : a.reqType = .readVba)
    (hd : 0 < depth a) : ReadKnows sha file a (startRead c) := by
  obtain ⟨htype, hsnap, hdegree, hvba⟩ := create_readVba ht
  rw [← h] at htype hsnap hdegree hvba
  have hs : Serves a (Vbd.startRead c) := ⟨htype, hsnap, hdegree, hvba, hvba⟩
  refine ⟨0, { hs with
    lt := hd
    idx := hs.maxLevel
    node := ?_
    above := fun j hj => absurd hj (Nat.not_lt_zero j) }, congrArg Snapshot.pba hsnap⟩
  have hidx : (Vbd.startRead c).t1BlkIdx = (Vbd.startRead c).maxLevel := rfl
  rw [Channel.readNode, if_pos hidx, hs.snap]
  rfl

/-- The channel with a node block that was read. -/
def withNode (c : Channel) (op : Op) (ans : Answer) : Channel :=
  { c with
    generatedPrim := { c.generatedPrim with succ := ans.success }
    state := .done op
    encodedBlk := ans.blk
    t1Blks := Function.update c.t1Blks c.t1BlkIdx (Type1NodeBlock.decodeFromBlk ans.blk) }

/-- The buffers of the levels above stay as they are. -/
theorem AtNode.withNode {k : Nat} (h : AtNode sha file a k c) (op : Op) (ans : Answer) :
    AtNode sha file a k (withNode c op ans) := by
  have hnode : (Vbd.withNode c op ans).readNode a.vba = c.readNode a.vba := by
    have hne : c.t1BlkIdx + 1 ≠ c.t1BlkIdx := Nat.succ_ne_self _
    simp only [Channel.readNode, Channel.child, Vbd.withNode, Function.update_of_ne hne]
    rfl
  exact { h with
    node := hnode.trans h.node }

/-- A node block that was read is the one of the file. -/
theorem AtNode.nodeRead {k : Nat} (h : AtNode sha file a k c) {op : Op} {ans : Answer}
    (hblk : c.generatedPrim.blkNr = (readPath file a k).pba)
    (ha : Answered file (.read c.generatedPrim.blkNr) ans) (hlvl : c.t1BlkIdx < treeMaxLevel)
    (hs : ans.success = true) : NodeRead file a k (Vbd.withNode c op ans) := by
  rw [hblk] at ha
  obtain ⟨b, hb, hsucc, hbuf⟩ := ha
  rw [hs] at hsucc
  obtain ⟨hbytes, hread⟩ := hb.buf_eq hsucc.symm
  have hblock : ans.blk = storedBlock file (readPath file a k).pba :=
    Block.ext ((hbuf hs).trans hbytes)
  have hdepth : depth a < treeMaxLevel := by
    rcases Nat.eq_zero_or_pos k with rfl | hk
    · rw [h.idx] at hlvl
      exact hlvl
    · exact (h.above 0 hk).1
  exact ⟨hdepth, hread rfl, hblock, Function.update_self _ _ _⟩

/-- What the channel does with an answer. -/
theorem ReadKnows.answer {op : Op} {r : GeneratedRequest} {ans : Answer}
    (h : ReadKnows sha file a c) (hs : c.state = .pending op)
    (hr : peekGeneratedRequest c op = .ok r) (ha : Answered file r ans)
    (he : generatedRequestComplete c op ans = .ok c') : ReadKnows sha file a c' := by
  unfold ReadKnows at h
  rw [hs] at h
  cases op with
  | readRootNode =>
    obtain ⟨k, hk, hblk⟩ := h
    obtain ⟨u, hu, he⟩ := Exec.bind_eq_ok.mp he
    cases hr
    cases he
    exact ⟨k, hk.withNode _ ans, hk.nodeRead hblk ha (inBounds_eq_ok.mp hu)⟩
  | readInnerNode =>
    obtain ⟨k, hk, hblk⟩ := h
    obtain ⟨u, hu, he⟩ := Exec.bind_eq_ok.mp he
    cases hr
    cases he
    exact ⟨k, hk.withNode _ ans, hk.nodeRead hblk ha (inBounds_eq_ok.mp hu)⟩
  | readClientDataFromLeafNode =>
    cases he
    exact ⟨{ h.1 with }, h.2⟩
  | _ => exact h.elim

theorem ReadKnows.type (h : ReadKnows sha file a c) (ht : a.reqType = .readVba) :
    c.request.type = .readVba := by
  unfold ReadKnows at h
  split at h
  · rw [h, (create_readVba ht).1]
  all_goals first
    | exact h.elim
    | exact h.1.type
    | exact h.1
    | exact h.choose_spec.1.type

/-- What the channel does on its own. -/
theorem ReadKnows.execute (h : ReadKnows sha file a c) (ht : a.reqType = .readVba)
    (hd : 0 < depth a) (he : execute sha c = .ok c') : ReadKnows sha file a c' := by
  rw [execute_readVba (h.type ht), executeReadVba] at he
  split at he
  · rename_i hs
    cases he
    simp only [ReadKnows, hs] at h
    exact .startRead h ht hd
  · rename_i hs
    simp only [ReadKnows, hs] at h
    obtain ⟨k, hk, hn⟩ := h
    obtain ⟨hsucc, hm, rfl⟩ := (executeReadVbaReadInnerNodeCompleted_eq_ok hk hn).mp he
    exact .descend hk (hn hsucc) hm
  · rename_i hs
    simp only [ReadKnows, hs] at h
    obtain ⟨k, hk, hn⟩ := h
    obtain ⟨hsucc, hm, rfl⟩ := (executeReadVbaReadInnerNodeCompleted_eq_ok hk hn).mp he
    exact .descend hk (hn hsucc) hm
  · rename_i hs
    simp only [ReadKnows, hs] at h
    obtain ⟨u, hu, he⟩ := Exec.bind_eq_ok.mp he
    cases he
    exact ⟨h.1.type, h.2⟩
  · cases he
    exact h

theorem ReadKnows.step (h : ReadKnows sha file a c) (ht : a.reqType = .readVba)
    (hd : 0 < depth a) (hs : Step sha (Answered file) c c') : ReadKnows sha file a c' := by
  cases hs with
  | execute he => exact h.execute ht hd he
  | answer hs hr ha he => exact h.answer hs hr ha he

theorem ReadKnows.of_processes (ht : a.reqType = .readVba) (hd : 0 < depth a)
    (h : Processes sha (Answered file) c (Request.create a) c') : ReadKnows sha file a c' := by
  induction h with
  | refl => exact rfl
  | tail _ hs ih => exact ih.step ht hd hs

/-! ## A read that gets through -/

/-- The channel waits for the node block at depth `k` of the path. -/
structure Awaits (sha : Block → Hash) (file : File) (a : CreateArgs) (k : Nat) (op : Op)
    (c : Channel) : Prop where
  atNode : AtNode sha file a k c
  state : c.state = .pending op
  op : op = .readRootNode ∨ op = .readInnerNode
  blkNr : c.generatedPrim.blkNr = (readPath file a k).pba

/-- If the node block is authentic, the channel gets past it. -/
theorem Awaits.exists_descend {k : Nat} {op : Op} (h : Awaits sha file a k op c)
    (hv : Verified sha file a) : ∃ c', Relation.ReflTransGen (Step sha (Answered file)) c
      (descend c') ∧ c'.t1BlkIdx = c.t1BlkIdx ∧ AtNode sha file a k c' ∧ NodeRead file a k c' := by
  have hk := h.atNode.lt
  have hread : BlockIo.Readable ⟨.read, (readPath file a k).pba⟩ := fun _ => hv.readable k hk
  obtain ⟨b, hb, hbs⟩ := BlockIo.exists_completes file hread
  have ha : Answered file (.read c.generatedPrim.blkNr)
      { blk := storedBlock file (readPath file a k).pba } := by
    rw [h.blkNr]
    exact ⟨b, hb, hbs.symm, fun _ => (hb.buf_eq hbs).1.symm⟩
  have hlvl : c.t1BlkIdx < treeMaxLevel := by
    have := h.atNode.idx
    have := hv.buffered
    omega
  have hn : NodeRead file a k (withNode c op { blk := storedBlock file (readPath file a k).pba }) :=
    h.atNode.nodeRead h.blkNr ha hlvl rfl
  have hat := h.atNode.withNode op { blk := storedBlock file (readPath file a k).pba }
  have hstep : Step sha (Answered file) c
      (withNode c op { blk := storedBlock file (readPath file a k).pba }) := by
    rcases h.op with rfl | rfl
    all_goals
      refine .answer h.state rfl ha ?_
      simp only [generatedRequestComplete, inBounds_of_lt hlvl, Exec.ok_bind]
      rfl
  have hx := (executeReadVbaReadInnerNodeCompleted_eq_ok hat fun _ => hn).mpr
    ⟨rfl, hv.authentic k hk, rfl⟩
  have hexec : execute sha (withNode c op { blk := storedBlock file (readPath file a k).pba }) =
      .ok (descend (withNode c op { blk := storedBlock file (readPath file a k).pba })) := by
    rw [execute_readVba hat.type]
    rcases h.op with rfl | rfl
    · exact hx
    · exact hx
  exact ⟨withNode c op { blk := storedBlock file (readPath file a k).pba },
    .tail (.single hstep) (.execute hexec), rfl, hat, hn⟩

/-- The block of the client is read without any further check. -/
theorem exists_completed (h : Serves a c) (hs : c.state = .pending .readClientDataFromLeafNode) :
    ∃ c', Relation.ReflTransGen (Step sha (Answered file)) c c' ∧ c'.state = .completed ∧
      c'.request.success = true := by
  have hread : BlockIo.Readable ⟨.readClientData, c.generatedPrim.blkNr⟩ := fun h => by cases h
  obtain ⟨b, hb, hbs⟩ := BlockIo.exists_completes file hread
  let c₁ : Channel := { c with
    generatedPrim := { c.generatedPrim with succ := true }
    state := .done .readClientDataFromLeafNode }
  have hans : Step sha (Answered file) c c₁ := .answer (a := {}) hs rfl ⟨b, hb, hbs.symm⟩ rfl
  refine ⟨{ c₁ with request := { c₁.request with success := true }, state := .completed },
    .tail (.single hans) (.execute ?_), rfl, rfl⟩
  have ht : c₁.request.type = .readVba := h.type
  rw [execute_readVba ht]
  rfl

theorem Awaits.exists_completed {k : Nat} {op : Op} (h : Awaits sha file a k op c)
    (hv : Verified sha file a) : ∃ c', Relation.ReflTransGen (Step sha (Answered file)) c c' ∧
      c'.state = .completed ∧ c'.request.success = true := by
  induction hn : c.t1BlkIdx generalizing c k op with
  | zero =>
    have := h.atNode.idx
    have := h.atNode.lt
    omega
  | succ n ih =>
    obtain ⟨c₁, hr, hidx, hat, hread⟩ := h.exists_descend hv
    have hknows := ReadKnows.descend hat hread (hv.authentic k hat.lt)
    by_cases hlast : 1 < c₁.t1BlkIdx
    · have hs : (descend c₁).state = .pending .readInnerNode := by
        simp only [descend, if_pos hlast]
        rfl
      have hidx' : (descend c₁).t1BlkIdx = n := by
        simp only [descend, if_pos hlast]
        change c₁.t1BlkIdx - 1 = n
        omega
      simp only [ReadKnows, hs] at hknows
      obtain ⟨k', hat', hblk⟩ := hknows
      obtain ⟨c₂, hr₂, hc₂⟩ := ih ⟨hat', hs, .inr rfl, hblk⟩ hidx'
      exact ⟨c₂, hr.trans hr₂, hc₂⟩
    · have hs : (descend c₁).state = .pending .readClientDataFromLeafNode := by
        simp only [descend, if_neg hlast]
        rfl
      simp only [ReadKnows, hs] at hknows
      obtain ⟨c₂, hr₂, hc₂⟩ := Vbd.exists_completed hknows.1 hs
      exact ⟨c₂, hr.trans hr₂, hc₂⟩

/-- A read gets through exactly if the node blocks of the path are authentic. -/
theorem exists_success_iff_verified (ht : a.reqType = .readVba) (hd : 0 < depth a) :
    (∃ c', Processes sha (Answered file) c (Request.create a) c' ∧ c'.state = .completed ∧
      c'.request.success = true) ↔ Verified sha file a := by
  constructor
  · rintro ⟨c', hp, hs, -⟩
    have h := ReadKnows.of_processes ht hd hp
    simp only [ReadKnows, hs] at h
    exact h.2
  · intro hv
    have hreq : (c.submitRequest (Request.create a)).request = Request.create a := rfl
    have hknows : ReadKnows sha file a (startRead (c.submitRequest (Request.create a))) :=
      .startRead hreq ht hd
    obtain ⟨k, hat, hblk⟩ := hknows
    obtain ⟨c', hr, hc'⟩ := Awaits.exists_completed ⟨hat, rfl, .inl rfl, hblk⟩ hv
    refine ⟨c', .head (.execute ?_) hr, hc'⟩
    rw [execute_readVba (create_readVba ht).1]
    rfl

/-- Success of a read attests the path from the snapshot down to the block of
the client. -/
def AttestsPath (sha : Block → Hash) (file : File) (a : CreateArgs) : Prop :=
  ∀ c c', Processes sha (Answered file) c (Request.create a) c' → c'.state = .completed →
    c'.request.success = true → ∀ k ≤ depth a, Authentic sha file a k

/-- The storage was changed at the block of the client, and nowhere above. -/
def OnlyDataTampered (sha : Block → Hash) (file : File) (a : CreateArgs) : Prop :=
  Verified sha file a ∧ ¬ Authentic sha file a (depth a)

theorem OnlyDataTampered.not_attestsPath (h : OnlyDataTampered sha file a)
    (ht : a.reqType = .readVba) (hd : 0 < depth a) : ¬ AttestsPath sha file a := by
  intro hall
  obtain ⟨c', hp, hs, hsucc⟩ :=
    (exists_success_iff_verified (c := { request := Request.create a }) ht hd).mpr h.1
  exact h.2 (hall _ _ hp hs hsucc _ le_rfl)

/-- The block of the client itself is not checked: a read attests its path
except if just that block was tampered with. -/
theorem read_vba_attests_path_iff (sha : Block → Hash) (file : File) (a : CreateArgs)
    (ht : a.reqType = .readVba) (hd : 0 < depth a) :
    AttestsPath sha file a ↔ ¬ OnlyDataTampered sha file a := by
  constructor
  · intro hall ho
    exact ho.not_attestsPath ht hd hall
  · intro hno c c' hp hs hsucc k hk
    have hv := (exists_success_iff_verified ht hd).mp ⟨c', hp, hs, hsucc⟩
    rcases Nat.lt_or_eq_of_le hk with hlt | rfl
    · exact hv.authentic k hlt
    · by_contra hdata
      exact hno ⟨hv, hdata⟩

end Read

/-! ## A tampered block -/

/-- A hash that is the beginning of the block. -/
def sampleSha (blk : Block) : Hash := ⟨fun i => blk.bytes.getD i 0⟩

def sampleData : Block := ⟨List.replicate blockSize 7, List.length_replicate⟩

def sampleLeafParent : Type1NodeBlock := fun _ =>
  { pba := 2, gen := 1, hash := sampleSha sampleData }

def sampleRoot : Type1NodeBlock := fun _ =>
  { pba := 1, gen := 1, hash := sampleSha (Type1NodeBlock.encodeToBlk sampleLeafParent) }

/-- Two levels of node blocks, but someone has zeroed the data. -/
def sampleFile : File := BlockIo.fileOf fun pba =>
  if pba = 0 then Type1NodeBlock.encodeToBlk sampleRoot
  else if pba = 1 then Type1NodeBlock.encodeToBlk sampleLeafParent
  else default

def sampleReadArgs : CreateArgs where
  reqType := .readVba
  clientReqOffset := 0
  clientReqTag := 0
  lastSecuredGeneration := 1
  trees := ⟨2, 64, 64, 2, 64, 64⟩
  vbdDegree := .max
  vbdHighestVba := 4095
  rekeying := false
  vba := 0
  snapshot := { hash := sampleSha (Type1NodeBlock.encodeToBlk sampleRoot), pba := 0, gen := 1,
                nrOfLeaves := 4096, maxLevel := 2, valid := true }
  snapshots := Snapshots.none
  snapshotsDegree := .max
  oldKeyId := 0
  newKeyId := 0
  currentGen := 2
  keyId := 1
  firstPba := 0
  nrOfPbas := 0

theorem sample_pathNode_one : readPath sampleFile sampleReadArgs 1 = sampleRoot ⟨0, nrOfNodesPerBlk_pos⟩ := by
  have h : storedBlock sampleFile 0 = Type1NodeBlock.encodeToBlk sampleRoot :=
    BlockIo.storedBlock_fileOf _ (by decide)
  change Type1NodeBlock.decodeFromBlk (storedBlock sampleFile 0) _ = _
  rw [h, Type1NodeBlock.decode_encode]
  rfl

theorem sample_pathNode_two : readPath sampleFile sampleReadArgs 2 = sampleLeafParent ⟨0, nrOfNodesPerBlk_pos⟩ := by
  have h : storedBlock sampleFile 1 = Type1NodeBlock.encodeToBlk sampleLeafParent :=
    BlockIo.storedBlock_fileOf _ (by decide)
  change Type1NodeBlock.decodeFromBlk
    (storedBlock sampleFile (readPath sampleFile sampleReadArgs 1).pba) _ = _
  rw [sample_pathNode_one]
  change Type1NodeBlock.decodeFromBlk (storedBlock sampleFile 1) _ = _
  rw [h, Type1NodeBlock.decode_encode]
  rfl

theorem sample_onlyDataTampered : OnlyDataTampered sampleSha sampleFile sampleReadArgs := by
  have hdepth : depth sampleReadArgs = 2 := rfl
  have h0 : storedBlock sampleFile 0 = Type1NodeBlock.encodeToBlk sampleRoot :=
    BlockIo.storedBlock_fileOf _ (by decide)
  have h1 : storedBlock sampleFile 1 = Type1NodeBlock.encodeToBlk sampleLeafParent :=
    BlockIo.storedBlock_fileOf _ (by decide)
  have h2 : storedBlock sampleFile 2 = default := BlockIo.storedBlock_fileOf _ (by decide)
  refine ⟨⟨by decide, ?_, ?_⟩, ?_⟩
  · intro k hk
    rw [hdepth] at hk
    have hcases : k = 0 ∨ k = 1 := by omega
    rcases hcases with rfl | rfl
    · decide
    · rw [sample_pathNode_one]
      decide
  · intro k hk
    rw [hdepth] at hk
    have hcases : k = 0 ∨ k = 1 := by omega
    rcases hcases with rfl | rfl
    · exact congrArg sampleSha h0
    · rw [Authentic, sample_pathNode_one]
      exact congrArg sampleSha h1
  · rw [Authentic, hdepth, sample_pathNode_two]
    intro h
    have hblock : storedBlock sampleFile (sampleLeafParent ⟨0, nrOfNodesPerBlk_pos⟩).pba = default := h2
    rw [hblock] at h
    have hzero : (sampleSha default).bytes 0 = (sampleSha sampleData).bytes 0 :=
      congrArg (fun v : Hash => v.bytes 0) h
    have hl : (sampleSha default).bytes 0 = 0 := rfl
    have hr : (sampleSha sampleData).bytes 0 = 7 := rfl
    rw [hl, hr] at hzero
    exact absurd hzero (by decide)

theorem read_vba_accepts_tampered_data : ¬ ∀ (sha : Block → Hash) (file : File) (a : CreateArgs),
    a.reqType = .readVba → 0 < depth a → AttestsPath sha file a := by
  intro h
  exact sample_onlyDataTampered.not_attestsPath rfl (by decide)
    (h sampleSha sampleFile sampleReadArgs rfl (by decide))

theorem read_vba_attests_path_iff_sample : sampleReadArgs.reqType = .readVba ∧
    0 < depth sampleReadArgs ∧ (AttestsPath sampleSha sampleFile sampleReadArgs ↔
      ¬ OnlyDataTampered sampleSha sampleFile sampleReadArgs) :=
  ⟨rfl, by decide, read_vba_attests_path_iff _ _ _ rfl (by decide)⟩

end Genode.Tresor.Vbd
