import Genode.Lib.Steps
import Genode.Tresor.FreeTree

/-!
# FreeTreeScan — the first pass over the free tree

What the free tree on disc consists of, and that the scan ends with
`scanComplete` exactly if the tree has as many usable leaves as needed.
-/

namespace Genode.Tresor.FreeTree

open Genode.Lib

/-! ## The tree on disc -/

/-- The nodes of a node block of level 2 and above. -/
def innerEntries (disk : Disk) (pba : PhysicalBlockAddress) : Type1NodeBlock :=
  Type1NodeBlock.decodeFromBlk (disk pba)

/-- The leaves of a node block of level 1. -/
def leafEntries (disk : Disk) (pba : PhysicalBlockAddress) : Type2NodeBlock :=
  Type2NodeBlock.codec.decode (disk pba).bytes

/-- The children of a node block that exist. -/
def childIndices (entries : Type1NodeBlock) : List (Fin nrOfNodesPerBlk) :=
  stacked fun idx => decide ((entries idx).pba ≠ 0)

/-- The leaves below a node in the order of the scan. -/
def leavesOf (disk : Disk) : Nat → Type1Node → List Type2Node
  | 0, _ => []
  | 1, n => (List.finRange nrOfNodesPerBlk).reverse.map (leafEntries disk n.pba)
  | l + 2, n => (childIndices (innerEntries disk n.pba)).flatMap fun idx =>
      leavesOf disk (l + 1) (innerEntries disk n.pba idx)

/-- The node blocks at and below a node. -/
def blocksOf (disk : Disk) : Nat → Type1Node → List PhysicalBlockAddress
  | 0, _ => []
  | 1, n => [n.pba]
  | l + 2, n => n.pba :: (childIndices (innerEntries disk n.pba)).flatMap fun idx =>
      blocksOf disk (l + 1) (innerEntries disk n.pba idx)

section Hash

variable (sha : Block → Hash)

/-- Every node block at and below a node matches the hash in its parent. -/
def Consistent (disk : Disk) : Nat → Type1Node → Prop
  | 0, _ => False
  | 1, n => sha (disk n.pba) = n.hash ∧ Type2NodeBlock.codec.accepts (disk n.pba).bytes = true
  | l + 2, n => sha (disk n.pba) = n.hash ∧ ∀ idx, (innerEntries disk n.pba idx).pba ≠ 0 →
      Consistent disk (l + 1) (innerEntries disk n.pba idx)

end Hash

/-- The leaves below a node that the request may be given. -/
def usableLeaves (req : Request) (disk : Disk) (l : Nat) (n : Type1Node) : List Type2Node :=
  (leavesOf disk l n).filter (usable req)

theorem length_leafStack (req : Request) (disk : Disk) (n : Type1Node) :
    (leafStack req (leafEntries disk n.pba)).length = (usableLeaves req disk 1 n).length := by
  rw [usableLeaves, leavesOf, List.filter_map, leafStack, stacked, List.length_map,
    List.length_map, List.filter_reverse]
  rfl

/-- The usable leaves below the nodes of a stack. -/
def stackLeaves (req : Request) (disk : Disk) (l : Nat) (stack : List Type1Info) :
    List Type2Node :=
  stack.flatMap fun info => usableLeaves req disk l info.node

theorem usableLeaves_inner (req : Request) (disk : Disk) (l : Nat) (n : Type1Node) :
    usableLeaves req disk (l + 2) n = stackLeaves req disk (l + 1)
      (childStack (innerEntries disk n.pba) req.currentGen) := by
  rw [usableLeaves, leavesOf, List.filter_flatMap, stackLeaves, childStack, List.flatMap_map]
  rfl

/-! ## Steps of the machine -/

section Machine

variable {sha : Block → Hash} {mt : MetaTree} {c c' : Channel} {disk : Disk} {answers lvl : Nat}
  {info : Type1Info} {rest : List Type1Info}

theorem step_execute (hc : c.cacheRequest.state ≠ .pending)
    (hm : c.metaTreeRequest.state ≠ .pending) (h : execute sha c = .ok c') :
    step sha mt ⟨c, disk, answers⟩ = .ok ⟨c', disk, answers⟩ := by
  unfold step
  cases hcs : c.cacheRequest.state with
  | pending => exact absurd hcs hc
  | invalid =>
    cases hms : c.metaTreeRequest.state with
    | pending => exact absurd hms hm
    | invalid => simp only [h, Exec.ok_bind, Exec.pure_eq]
    | complete => simp only [h, Exec.ok_bind, Exec.pure_eq]
  | complete =>
    cases hms : c.metaTreeRequest.state with
    | pending => exact absurd hms hm
    | invalid => simp only [h, Exec.ok_bind, Exec.pure_eq]
    | complete => simp only [h, Exec.ok_bind, Exec.pure_eq]

/-- The channel after a node block has been read. -/
def gotBlock (c : Channel) (lvl : Nat) (info : Type1Info) (blk : Block) : Channel :=
  { c with
    cacheBlockData := blk
    cacheRequest := { c.cacheRequest with state := .complete } }.updateTop lvl
      { info with state := .available }

theorem step_read {pba : PhysicalBlockAddress}
    (hc : c.cacheRequest = newCacheRequest pba .read lvl) (htop : c.levelNStacks lvl = info :: rest)
    (hash : sha (disk pba) = info.node.hash) :
    step sha mt ⟨c, disk, answers⟩ = .ok ⟨gotBlock c lvl info (disk pba), disk, answers⟩ := by
  have hread : readComplete sha c (disk pba) = .ok (gotBlock c lvl info (disk pba)) := by
    unfold readComplete
    rw [hc]
    simp only [newCacheRequest, htop, hash, if_true, Exec.pure_eq, gotBlock, hc]
  unfold step
  simp only [hc, newCacheRequest]
  rw [hread]
  rfl

theorem activeLevel_eq (hl : 1 ≤ lvl) (hle : lvl ≤ treeMaxLevel)
    (hlow : ∀ k, 1 ≤ k → k < lvl → c.levelNStacks k = []) (htop : c.levelNStacks lvl = info :: rest) :
    activeLevel c = some lvl := by
  unfold activeLevel
  rw [List.find?_eq_some_iff_getElem]
  have hlen : lvl - 1 < (List.range' 1 treeMaxLevel).length := by
    rw [List.length_range']
    omega
  refine ⟨by rw [htop]; rfl, lvl - 1, hlen, ?_, fun j hj => ?_⟩
  · rw [List.getElem_range']
    omega
  · rw [List.getElem_range', hlow _ (by omega) (by omega)]
    rfl

theorem checkType2Stack_eq (hleafs : c.level0Stack = [])
    (hread : ∀ n ∈ (c.levelNStacks 1).head?, n.state ≠ .read) : checkType2Stack c = c := by
  unfold checkType2Stack
  simp only [hleafs, List.foldl_nil, List.length_nil, Nat.add_zero]
  have hc : { c with level0Stack := [] } = c := by rw [← hleafs]
  rw [hc]
  cases hs : c.levelNStacks 1 with
  | nil => rfl
  | cons n rest =>
    rw [hs] at hread
    exact if_neg (hread n rfl)

/-- What a request comes with, and what the first pass leaves as it is. -/
structure Task where
  req : Request
  root : Type1Node
  newBlocks : Nat → PhysicalBlockAddress

/-- The stacks at the start of a pass. -/
def Task.rootStack (t : Task) : Nat → List Type1Info :=
  Function.update (fun _ => []) t.req.ftMaxLevel [fresh t.root ⟨0, nrOfNodesPerBlk_pos⟩ t.req.currentGen]

/-- A channel in the first pass. -/
structure Scanning (t : Task) (st : State) (stk : Nat → List Type1Info) (found : Nat)
    (c : Channel) : Prop where
  state : c.state = st
  request : c.request = t.req
  needed : c.neededBlocks = t.req.requestedBlocks
  exchanged : c.exchangedBlocks = 0
  found : c.foundBlocks = found
  metaTree : c.metaTreeRequest.state = .invalid
  stk : c.levelNStacks = stk
  root : c.ftRoot = t.root
  newBlocks : c.newBlocks = t.newBlocks

/-- The outcome for a channel that is done with a node of level `lvl`. When
enough leaves are found it may leave out the rest of the node. -/
def ScanAfter (t : Task) (lvl : Nat) (stk : Nat → List Type1Info) (found : Nat)
    (c : Channel) : Prop :=
  if t.req.requestedBlocks ≤ found then ∃ n, Scanning t .scanComplete t.rootStack n c
  else if lvl = t.req.ftMaxLevel then Scanning t .notEnoughFreeBlocks stk found c
  else Scanning t .scan stk found c

/-- Nothing is on the way to other modules, and no leaf waits to be counted. -/
structure Resting (c : Channel) : Prop where
  cache : c.cacheRequest.state = .invalid
  leafs : c.level0Stack = []

variable {t : Task} {stk : Nat → List Type1Info} {found : Nat}

theorem Scanning.executeScan_eq (h : Scanning t .scan stk found c) (hleafs : c.level0Stack = [])
    (hl : 1 ≤ lvl) (hle : lvl ≤ treeMaxLevel) (hlow : ∀ k, 1 ≤ k → k < lvl → stk k = [])
    (htop : stk lvl = info :: rest) (hread : lvl = 1 → info.state ≠ .read) :
    execute sha c = scanNode c lvl info := by
  have htop' : c.levelNStacks lvl = info :: rest := by rw [h.stk, htop]
  have hcheck : checkType2Stack c = c := by
    apply checkType2Stack_eq hleafs
    intro n hn
    rw [h.stk] at hn
    by_cases h1 : lvl = 1
    · subst h1
      rw [htop, List.head?_cons, Option.mem_some_iff] at hn
      exact hn ▸ hread rfl
    · rw [hlow 1 le_rfl (by omega)] at hn
      cases hn
  have hactive := activeLevel_eq hl hle (by rw [h.stk]; exact hlow) htop'
  simp only [execute, h.state, executeScan, hcheck, hactive, htop']

/-- A node that has not been read is read. -/
theorem Scanning.reads (sha : Block → Hash) (mt : MetaTree) (answers : Nat) (h : Scanning t .scan stk found c) (hr : Resting c) (hl : 1 ≤ lvl)
    (hle : lvl ≤ treeMaxLevel) (hlow : ∀ k, 1 ≤ k → k < lvl → stk k = [])
    (htop : stk lvl = info :: rest) (hinfo : info.state = .invalid)
    (hash : sha (disk info.node.pba) = info.node.hash) :
    ∃ c', Reaches (step sha mt) ⟨c, disk, answers⟩ ⟨c', disk, answers⟩ ∧
      Scanning t .scan (Function.update stk lvl ({ info with state := .available } :: rest))
        found c' ∧
      c'.level0Stack = [] ∧ c'.cacheRequest.state = .complete ∧
      c'.cacheBlockData = disk info.node.pba := by
  have hexec : execute sha c =
      .ok { c with cacheRequest := newCacheRequest info.node.pba .read lvl } := by
    rw [h.executeScan_eq hr.leafs hl hle hlow htop (by rw [hinfo]; intro _ h; cases h)]
    simp only [scanNode, hinfo, hr.cache, decide_true, Exec.assert_true, Exec.ok_bind,
      Exec.pure_eq]
  have htop' : c.levelNStacks lvl = info :: rest := by rw [h.stk, htop]
  refine ⟨_, .head (step_execute (by rw [hr.cache]; intro h; cases h)
    (by rw [h.metaTree]; intro h; cases h) hexec) (.single (step_read rfl htop' hash)), ?_, hr.leafs,
    rfl, rfl⟩
  exact ⟨h.state, h.request, h.needed, h.exchanged, h.found, h.metaTree,
    by simp only [gotBlock, Channel.updateTop, htop', List.tail_cons, h.stk], h.root, h.newBlocks⟩

theorem scanFinish_after (h : Scanning t .scan stk found c) :
    ScanAfter t lvl stk found (scanFinish c (decide (lvl = t.req.ftMaxLevel))
      (decide (t.req.requestedBlocks ≤ found))) := by
  unfold ScanAfter scanFinish
  by_cases hn : t.req.requestedBlocks ≤ found
  · simp only [hn, decide_true, if_true]
    exact ⟨found, rfl, h.request, h.needed, h.exchanged, h.found, h.metaTree,
      by simp only [Channel.pushRoot, Task.rootStack, h.request, h.root], h.root, h.newBlocks⟩
  · by_cases hl : lvl = t.req.ftMaxLevel
    · simp only [hn, hl, decide_false, decide_true, if_true, if_false, Bool.false_eq_true]
      exact ⟨rfl, h.request, h.needed, h.exchanged, h.found, h.metaTree, h.stk, h.root,
        h.newBlocks⟩
    · simp only [hn, hl, decide_false, if_false, Bool.false_eq_true]
      exact h

theorem resting_scanFinish (h : Resting c) (e n : Bool) : Resting (scanFinish c e n) := by
  unfold scanFinish
  split
  · exact ⟨h.cache, h.leafs⟩
  · split
    · exact ⟨h.cache, h.leafs⟩
    · exact h

/-- A node that is done is taken off its stack. -/
theorem Scanning.scanNode_complete (h : Scanning t .scan stk found c) (hr : Resting c)
    (htop : stk lvl = info :: rest) (hinfo : info.state = .complete) :
    ∃ c', scanNode c lvl info = .ok c' ∧ Resting c' ∧
      ScanAfter t lvl (Function.update stk lvl rest) found c' := by
  have hs : Scanning t .scan (Function.update stk lvl rest) found
      (c.setStack lvl (c.levelNStacks lvl).tail) :=
    ⟨h.state, h.request, h.needed, h.exchanged, h.found, h.metaTree,
      by simp only [Channel.setStack, h.stk, htop, List.tail_cons], h.root, h.newBlocks⟩
  refine ⟨_, ?_, resting_scanFinish (c := c.setStack lvl (c.levelNStacks lvl).tail)
    ⟨hr.cache, hr.leafs⟩ _ _, scanFinish_after hs⟩
  simp only [scanNode, hinfo, Exec.pure_eq, h.request, h.needed, h.found]

/-- The scan of a node block of level 1. -/
theorem Scanning.leafBlock (h : Scanning t .scan stk found c) (hr : Resting c)
    (htop : stk 1 = info :: rest) (hinfo : info.state = .invalid)
    (hcons : Consistent sha disk 1 info.node) :
    ∃ c', Reaches (step sha mt) ⟨c, disk, answers⟩ ⟨c', disk, answers⟩ ∧ Resting c' ∧
      ScanAfter t 1 (Function.update stk 1 rest)
        (found + (usableLeaves t.req disk 1 info.node).length) c' := by
  obtain ⟨c₁, hreach, h₁, hleafs, hcache, hdata⟩ := h.reads sha mt answers hr le_rfl (by decide) (fun k hk hk' => absurd hk' (by omega)) htop hinfo
    hcons.1
  -- the leaves are put on the stack of level 0
  let info₁ : Type1Info := { info with state := .available }
  let c₂ : Channel := { c₁ with
    cacheRequest := { c₁.cacheRequest with state := .invalid }
    level0Node := leafEntries disk info.node.pba
    level0Stack := leafStack c₁.request (leafEntries disk info.node.pba) }.updateTop 1
      { info with state := .read }
  have hdec : Type2NodeBlock.decodeFromBlk c₁.cacheBlockData =
      .ok (leafEntries disk info.node.pba) := by
    rw [Type2NodeBlock.decodeFromBlk, hdata, hcons.2]
    rfl
  have hexec₁ : execute sha c₁ = .ok c₂ := by
    have htop₁ : Function.update stk 1 (info₁ :: rest) 1 = info₁ :: rest :=
      Function.update_self ..
    rw [h₁.executeScan_eq hleafs le_rfl (by decide) (fun k hk hk' => absurd hk' (by omega)) htop₁
      (by intro _ h; cases h)]
    simp only [scanNode, info₁, hdec, Exec.ok_bind, Exec.pure_eq, show ¬ 2 ≤ 1 by omega, if_false,
      c₂]
  -- they are counted before the node is taken off
  let info₂ : Type1Info := { info with state := .complete }
  have hstk₂ : c₂.levelNStacks 1 = { info with state := .read } :: rest := by
    simp only [c₂, Channel.updateTop, h₁.stk, Function.update_self, List.tail_cons]
  have hcheck : Scanning t .scan (Function.update stk 1 (info₂ :: rest))
      (found + (usableLeaves t.req disk 1 info.node).length) (checkType2Stack c₂) ∧
      Resting (checkType2Stack c₂) := by
    unfold checkType2Stack
    simp only [hstk₂, if_true]
    refine ⟨⟨h₁.state, h₁.request, h₁.needed, h₁.exchanged, ?_, h₁.metaTree, ?_, h₁.root,
      h₁.newBlocks⟩, rfl, rfl⟩
    · simp only [Channel.updateTop, c₂, h₁.found, h₁.request, length_leafStack]
    · simp only [Channel.updateTop, c₂, h₁.stk, Function.update_idem, Function.update_self,
        List.tail_cons, info₂]
  have htop₂ : Function.update stk 1 (info₂ :: rest) 1 = info₂ :: rest := Function.update_self ..
  obtain ⟨c₃, hnode, hr₃, hafter⟩ := hcheck.1.scanNode_complete hcheck.2 htop₂ rfl
  rw [Function.update_idem] at hafter
  have hexec₂ : execute sha c₂ = .ok c₃ := by
    have htop : (checkType2Stack c₂).levelNStacks 1 = info₂ :: rest := by
      rw [hcheck.1.stk, Function.update_self]
    have hactive := activeLevel_eq (c := checkType2Stack c₂) le_rfl (by decide)
      (fun k hk hk' => absurd hk' (by omega)) htop
    have hstate : c₂.state = .scan := h₁.state
    simp only [execute, hstate, executeScan, hactive, htop, hnode]
  have hm : c₂.metaTreeRequest.state = .invalid := h₁.metaTree
  refine ⟨c₃, (hreach.tail (step_execute ?_ ?_ hexec₁)).tail (step_execute ?_ ?_ hexec₂), hr₃,
    hafter⟩
  · simp only [hcache, ne_eq, reduceCtorEq, not_false_eq_true]
  · simp only [h₁.metaTree, ne_eq, reduceCtorEq, not_false_eq_true]
  · simp only [c₂, Channel.updateTop, ne_eq, reduceCtorEq, not_false_eq_true]
  · simp only [hm, ne_eq, reduceCtorEq, not_false_eq_true]

/-- The scan of one node, as it is used for the nodes of a stack. -/
def ScansNode (sha : Block → Hash) (mt : MetaTree) (disk : Disk) (answers : Nat) (t : Task)
    (lvl : Nat) : Prop :=
  ∀ {stk : Nat → List Type1Info} {found : Nat} {c : Channel} {info : Type1Info}
    {rest : List Type1Info}, Scanning t .scan stk found c → Resting c →
    (∀ k, 1 ≤ k → k < lvl → stk k = []) → stk lvl = info :: rest → info.state = .invalid →
    Consistent sha disk lvl info.node →
    ∃ c', Reaches (step sha mt) ⟨c, disk, answers⟩ ⟨c', disk, answers⟩ ∧ Resting c' ∧
      ScanAfter t lvl (Function.update stk lvl rest)
        (found + (usableLeaves t.req disk lvl info.node).length) c'

/-- The scan of the nodes of a stack below the root: it stops at the node
that brings the number of leaves up to what is needed. -/
theorem Scanning.stack (hnode : ScansNode sha mt disk answers t lvl) (hlt : lvl < t.req.ftMaxLevel)
    (cs : List Type1Info) (h : Scanning t .scan stk found c) (hr : Resting c)
    (hlow : ∀ k, 1 ≤ k → k < lvl → stk k = []) (htop : stk lvl = cs)
    (hcs : ∀ info ∈ cs, info.state = .invalid ∧ Consistent sha disk lvl info.node) :
    ∃ c', Reaches (step sha mt) ⟨c, disk, answers⟩ ⟨c', disk, answers⟩ ∧ Resting c' ∧
      ((t.req.requestedBlocks ≤ found + (stackLeaves t.req disk lvl cs).length ∧
          ∃ n, Scanning t .scanComplete t.rootStack n c') ∨
        Scanning t .scan (Function.update stk lvl [])
          (found + (stackLeaves t.req disk lvl cs).length) c') := by
  induction cs generalizing stk found c with
  | nil =>
    refine ⟨c, .refl _, hr, .inr ?_⟩
    have hstk : Function.update stk lvl [] = stk := by rw [← htop, Function.update_eq_self]
    rw [hstk]
    exact h
  | cons info rest ih =>
    obtain ⟨hinv, hcons⟩ := hcs info List.mem_cons_self
    obtain ⟨c₁, hreach, hr₁, hafter⟩ := hnode h hr hlow htop hinv hcons
    have hlen : (stackLeaves t.req disk lvl (info :: rest)).length =
        (usableLeaves t.req disk lvl info.node).length + (stackLeaves t.req disk lvl rest).length := by
      rw [stackLeaves, List.flatMap_cons, List.length_append]
      rfl
    unfold ScanAfter at hafter
    split at hafter
    · rename_i henough
      exact ⟨c₁, hreach, hr₁, .inl ⟨by omega, hafter⟩⟩
    · rw [if_neg hlt.ne] at hafter
      have hlow₁ : ∀ k, 1 ≤ k → k < lvl → Function.update stk lvl rest k = [] := by
        intro k hk hk'
        rw [Function.update_of_ne hk'.ne, hlow k hk hk']
      obtain ⟨c₂, hreach₂, hr₂, hout⟩ := ih hafter hr₁ hlow₁ (Function.update_self ..)
        fun info' hm => hcs info' (List.mem_cons_of_mem _ hm)
      rw [Function.update_idem, Nat.add_assoc, ← hlen] at hout
      exact ⟨c₂, hreach.trans hreach₂, hr₂, hout⟩

theorem mem_childStack {entries : Type1NodeBlock} {gen : Generation}
    (h : info ∈ childStack entries gen) : info.state = .invalid ∧
      info.node = entries info.index ∧ (entries info.index).pba ≠ 0 ∧
      info.volatil = nodeVolatile info.node gen := by
  obtain ⟨idx, hidx, rfl⟩ := List.mem_map.mp h
  rw [stacked, List.mem_reverse, List.mem_filter] at hidx
  exact ⟨rfl, rfl, of_decide_eq_true hidx.2, rfl⟩

/-- The scan of a node whose children are node blocks. -/
theorem Scanning.innerBlock {l : Nat} (hnode : ScansNode sha mt disk answers t (l + 1))
    (hle : l + 2 ≤ t.req.ftMaxLevel) (hmax : l + 2 ≤ treeMaxLevel)
    (h : Scanning t .scan stk found c) (hr : Resting c)
    (hlow : ∀ k, 1 ≤ k → k < l + 2 → stk k = []) (htop : stk (l + 2) = info :: rest)
    (hinfo : info.state = .invalid) (hcons : Consistent sha disk (l + 2) info.node) :
    ∃ c', Reaches (step sha mt) ⟨c, disk, answers⟩ ⟨c', disk, answers⟩ ∧ Resting c' ∧
      ScanAfter t (l + 2) (Function.update stk (l + 2) rest)
        (found + (usableLeaves t.req disk (l + 2) info.node).length) c' := by
  obtain ⟨c₁, hreach, h₁, hleafs, hcache, hdata⟩ := h.reads sha mt answers hr (by omega) hmax hlow htop hinfo hcons.1
  let entries := innerEntries disk info.node.pba
  let cs := childStack entries t.req.currentGen
  let stk₂ := Function.update (Function.update stk (l + 1) cs) (l + 2)
    ({ info with state := .read } :: rest)
  have hlow' : ∀ k, 1 ≤ k → k < l + 2 →
      Function.update stk (l + 2) ({ info with state := .available } :: rest) k = [] := by
    intro k hk hk'
    rw [Function.update_of_ne hk'.ne, hlow k hk hk']
  -- the children are put on the stack below
  let c₂ : Channel := ({ c₁ with
    cacheRequest := { c₁.cacheRequest with state := .invalid }
    levelNNode := entries }.setStack (l + 1) cs).updateTop (l + 2) { info with state := .read }
  have hexec₁ : execute sha c₁ = .ok c₂ := by
    have hdec : Type1NodeBlock.decodeFromBlk c₁.cacheBlockData = entries := by rw [hdata]; rfl
    have htop₁ : Function.update stk (l + 2) ({ info with state := .available } :: rest) (l + 2) =
        { info with state := .available } :: rest := Function.update_self ..
    rw [h₁.executeScan_eq hleafs (by omega) hmax hlow' htop₁ (by intro _ h; cases h)]
    simp only [scanNode, hdec, Exec.pure_eq, show 2 ≤ l + 2 by omega, if_true, h₁.request, c₂, cs,
      show l + 2 - 1 = l + 1 by omega]
  have h₂ : Scanning t .scan stk₂ found c₂ := by
    refine ⟨h₁.state, h₁.request, h₁.needed, h₁.exchanged, h₁.found, h₁.metaTree, ?_, h₁.root,
      h₁.newBlocks⟩
    have hne : (l + 2) ≠ l + 1 := by omega
    simp only [c₂, Channel.updateTop, Channel.setStack, h₁.stk, stk₂]
    rw [Function.update_of_ne hne, Function.update_self, List.tail_cons,
      Function.update_comm hne, Function.update_idem, Function.update_comm hne.symm]
  have hr₂ : Resting c₂ := ⟨rfl, hleafs⟩
  have hlow₂ : ∀ k, 1 ≤ k → k < l + 1 → stk₂ k = [] := by
    intro k hk hk'
    simp only [stk₂]
    rw [Function.update_of_ne (by omega), Function.update_of_ne (by omega), hlow k hk (by omega)]
  have htop₂ : stk₂ (l + 1) = cs := by
    simp only [stk₂]
    rw [Function.update_of_ne (by omega), Function.update_self]
  obtain ⟨c₃, hreach₃, hr₃, hout⟩ := Scanning.stack hnode (by omega) cs h₂ hr₂ hlow₂ htop₂
    fun child hm => by
      obtain ⟨hs, hn, hp, -⟩ := mem_childStack hm
      exact ⟨hs, hn ▸ hcons.2 _ hp⟩
  have hreach' := (hreach.tail (step_execute (by rw [hcache]; intro h; cases h)
    (by rw [h₁.metaTree]; intro h; cases h) hexec₁)).trans hreach₃
  rw [usableLeaves_inner]
  rcases hout with ⟨henough, hdone⟩ | h₃
  · exact ⟨c₃, hreach', hr₃, by rw [ScanAfter, if_pos henough]; exact hdone⟩
  -- no child is left: the node itself is done
  have hlow₃ : ∀ k, 1 ≤ k → k < l + 2 → Function.update stk₂ (l + 1) [] k = [] := by
    intro k hk hk'
    by_cases hkl : k = l + 1
    · rw [hkl, Function.update_self]
    · rw [Function.update_of_ne hkl, hlow₂ k hk (by omega)]
  have htop₃ : Function.update stk₂ (l + 1) [] (l + 2) = { info with state := .read } :: rest := by
    rw [Function.update_of_ne (by omega)]
    exact Function.update_self ..
  let c₄ : Channel := c₃.updateTop (l + 2) { info with state := .complete }
  have hexec₃ : execute sha c₃ = .ok c₄ := by
    rw [h₃.executeScan_eq hr₃.leafs (by omega) hmax hlow₃ htop₃ (by intro h; omega)]
    simp only [scanNode, Exec.pure_eq, c₄]
  have h₄ : Scanning t .scan (Function.update stk (l + 2) ({ info with state := .complete } :: rest))
      (found + (stackLeaves t.req disk (l + 1) cs).length) c₄ := by
    refine ⟨h₃.state, h₃.request, h₃.needed, h₃.exchanged, h₃.found, h₃.metaTree, ?_, h₃.root,
      h₃.newBlocks⟩
    simp only [c₄, Channel.updateTop]
    rw [h₃.stk, htop₃, List.tail_cons]
    simp only [stk₂]
    rw [Function.update_comm (show l + 2 ≠ l + 1 by omega), Function.update_idem,
      Function.update_idem, ← hlow (l + 1) (by omega) (by omega), Function.update_eq_self]
  have hr₄ : Resting c₄ := ⟨hr₃.cache, hr₃.leafs⟩
  obtain ⟨c₅, hscan, hr₅, hafter⟩ := h₄.scanNode_complete hr₄ (Function.update_self ..) rfl
  rw [Function.update_idem] at hafter
  have hlow₄ : ∀ k, 1 ≤ k → k < l + 2 →
      Function.update stk (l + 2) ({ info with state := .complete } :: rest) k = [] := by
    intro k hk hk'
    rw [Function.update_of_ne hk'.ne, hlow k hk hk']
  have hexec₄ : execute sha c₄ = .ok c₅ := by
    rw [h₄.executeScan_eq hr₄.leafs (by omega) hmax hlow₄ (Function.update_self ..)
      (by intro h; omega), hscan]
  refine ⟨c₅, (hreach'.tail (step_execute ?_ ?_ hexec₃)).tail (step_execute ?_ ?_ hexec₄), hr₅,
    hafter⟩
  · rw [hr₃.cache]; intro h; cases h
  · rw [h₃.metaTree]; intro h; cases h
  · rw [hr₄.cache]; intro h; cases h
  · rw [h₄.metaTree]; intro h; cases h

/-- Every node is scanned in full or up to the leaf that is enough. -/
theorem scansNode (sha : Block → Hash) (mt : MetaTree) (disk : Disk) (answers : Nat)
    (hmax : t.req.ftMaxLevel ≤ treeMaxLevel) (hle : lvl ≤ t.req.ftMaxLevel) :
    ScansNode sha mt disk answers t lvl := by
  induction lvl with
  | zero =>
    intro stk found c info rest _ _ _ _ _ hcons
    exact hcons.elim
  | succ l ih =>
    cases l with
    | zero =>
      intro stk found c info rest h hr _ htop hinfo hcons
      exact h.leafBlock hr htop hinfo hcons
    | succ l =>
      intro stk found c info rest h hr hlow htop hinfo hcons
      exact h.innerBlock (ih (by omega)) hle (by omega) hr hlow htop hinfo hcons

end Machine

end Genode.Tresor.FreeTree
