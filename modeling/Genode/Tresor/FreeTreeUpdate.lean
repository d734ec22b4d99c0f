import Genode.Tresor.FreeTreePass

/-!
# FreeTreeUpdate — allocation as a whole

The machine of the second pass does what the recursion says, and an
allocation either hands out exactly the addresses that are needed or fails
with everything unchanged.
-/

namespace Genode.Tresor.FreeTree

open Genode.Lib

section Machine

variable {sha : Block → Hash} {mt : MetaTree} {blocks : List PhysicalBlockAddress} {t : Task}
  {c c' : Channel} {disk : Disk} {answers lvl : Nat} {info : Type1Info} {rest : List Type1Info}
  {stk : Nat → List Type1Info} {first : Nat}

/-- An exchange without leaves to hand out, or without levels to fill. -/
theorem exchangeLoop_idle {req : Request} {lvls : List Nat} {e : Exchange}
    (h : e.stack = [] ∨ ∀ k ∈ lvls, e.newBlocks k ≠ 0) : exchangeLoop req lvls e = .ok e := by
  induction lvls with
  | nil => rfl
  | cons lvl lvls ih =>
    have hrest : exchangeLoop req lvls e = .ok e :=
      ih (h.imp_right fun hk k hm => hk k (List.mem_cons_of_mem _ hm))
    rw [exchangeLoop]
    by_cases hz : e.newBlocks lvl = 0
    · rw [if_pos hz]
      rcases h with hs | hk
      · simp only [hs, Exec.pure_eq]
      · exact absurd hz (hk lvl List.mem_cons_self)
    · rw [if_neg hz, hrest]

theorem exchangeType2Leaves_idle
    (h : c.level0Stack = [] ∨ levels c.request c.newBlocks = []) :
    exchangeType2Leaves c = .ok c := by
  unfold exchangeType2Leaves
  rw [exchangeLoop_idle (h.imp_right fun hl k hk => ?_)]
  · rfl
  · have := List.filter_eq_nil_iff.mp hl k hk
    simpa using this

theorem execute_update (hstate : c.state = .update)
    (hidle : c.level0Stack = [] ∨ levels c.request c.newBlocks = []) (hl : 1 ≤ lvl)
    (hle : lvl ≤ treeMaxLevel) (hlow : ∀ k, 1 ≤ k → k < lvl → c.levelNStacks k = [])
    (htop : c.levelNStacks lvl = info :: rest) :
    execute sha c =
      updateNode sha c lvl info (decide (c.exchangedBlocks = c.neededBlocks)) := by
  simp only [execute, hstate, executeUpdate, exchangeType2Leaves_idle hidle, Exec.ok_bind,
    activeLevel_eq hl hle hlow htop, htop]

/-! ## A channel in the second pass -/

/-- A channel in the second pass that has exchanged what it could. -/
structure Updating (t : Task) (stk : Nat → List Type1Info) (c : Channel) : Prop where
  state : c.state = .update
  request : c.request = t.req
  needed : c.neededBlocks = t.req.requestedBlocks
  exchanged : c.exchangedBlocks + (levels t.req c.newBlocks).length = t.req.requestedBlocks
  metaTree : c.metaTreeRequest.state = .invalid
  stk : c.levelNStacks = stk
  idle : c.level0Stack = [] ∨ levels t.req c.newBlocks = []

/-- What the machine knows of the exchange. -/
def finished (t : Task) (c : Channel) : Bool := (levels t.req c.newBlocks).isEmpty

theorem Updating.decide_exchanged (h : Updating t stk c) :
    decide (c.exchangedBlocks = c.neededBlocks) = finished t c := by
  have he := h.exchanged
  rw [h.needed, finished]
  cases hl : levels t.req c.newBlocks with
  | nil =>
    rw [hl, List.length_nil] at he
    exact decide_eq_true he
  | cons a as =>
    rw [hl, List.length_cons] at he
    exact decide_eq_false (by omega)

theorem Updating.execute_eq (h : Updating t stk c) (hl : 1 ≤ lvl) (hle : lvl ≤ treeMaxLevel)
    (hlow : ∀ k, 1 ≤ k → k < lvl → stk k = []) (htop : stk lvl = info :: rest) :
    execute sha c = updateNode sha c lvl info (finished t c) := by
  rw [← h.decide_exchanged]
  apply execute_update h.state (h.request ▸ h.idle) hl hle
  · rw [h.stk]
    exact hlow
  · rw [h.stk]
    exact htop

/-- A node that has not been read is read. -/
theorem Updating.reads (sha : Block → Hash) (mt : MetaTree) (answers : Nat) (h : Updating t stk c) (hcache : c.cacheRequest.state = .invalid)
    (hl : 1 ≤ lvl) (hle : lvl ≤ treeMaxLevel) (hlow : ∀ k, 1 ≤ k → k < lvl → stk k = [])
    (htop : stk lvl = info :: rest) (hinfo : info.state = .invalid)
    (hash : sha (disk info.node.pba) = info.node.hash) :
    ∃ c', Reaches (step sha mt) ⟨c, disk, answers⟩ ⟨c', disk, answers⟩ ∧
      Updating t (Function.update stk lvl ({ info with state := .available } :: rest)) c' ∧
      c'.cacheRequest.state = .complete ∧ c'.cacheBlockData = disk info.node.pba ∧
      c'.newBlocks = c.newBlocks ∧ c'.levelNNodes = c.levelNNodes ∧ c'.ftRoot = c.ftRoot := by
  have hexec : execute sha c =
      .ok { c with cacheRequest := newCacheRequest info.node.pba .read lvl } := by
    rw [h.execute_eq hl hle hlow htop]
    simp only [updateNode, hinfo, hcache, decide_true, Exec.assert_true, Exec.ok_bind,
      Exec.pure_eq]
  have htop' : c.levelNStacks lvl = info :: rest := by rw [h.stk, htop]
  refine ⟨_, .head (step_execute (by rw [hcache]; intro h; cases h)
    (by rw [h.metaTree]; intro h; cases h) hexec) (.single (step_read rfl htop' hash)), ?_, rfl,
    rfl, rfl, rfl, rfl⟩
  exact ⟨h.state, h.request, h.needed, h.exchanged, h.metaTree,
    by simp only [gotBlock, Channel.updateTop, htop', List.tail_cons, h.stk], h.idle⟩

/-! ## Writing a node back -/

/-- What a node is written back as. -/
def backBlock (c : Channel) (lvl : Nat) : Block :=
  if 2 ≤ lvl then Type1NodeBlock.encodeToBlk (c.levelNNodes (lvl - 1))
  else Type2NodeBlock.encodeToBlk c.level0Node

/-- The level above a node learns about the node that replaces it. -/
structure Upper (t : Task) (lvl : Nat) (idx : Fin nrOfNodesPerBlk) (n : Type1Node)
    (c c' : Channel) : Prop where
  nodes : ∀ k, lvl < k → c'.levelNNodes k = c.levelNNodes k
  entry : lvl < t.req.ftMaxLevel → c'.levelNNodes lvl = Function.update (c.levelNNodes lvl) idx n
  root : c'.ftRoot = if lvl = t.req.ftMaxLevel then n else c.ftRoot

/-- A node that has been written back, or did not need to be. -/
structure NodeDone (t : Task) (lvl : Nat) (info : Type1Info) (stk : Nat → List Type1Info)
    (rest : List Type1Info) (c : Channel) (r : Pass × Type1Node) (c' : Channel) : Prop where
  updating : ∃ top : Type1Info, top.state = .complete ∧
    Updating t (Function.update stk lvl (top :: rest)) c'
  cache : c'.cacheRequest.state ≠ .pending
  newBlocks : c'.newBlocks = r.1.newBlocks
  upper : Upper t lvl info.index r.2 c c'

theorem writeNode_spec (sha : Block → Hash) (info : Type1Info) (h : Updating t stk c) (hlt : 1 < t.req.ftMaxLevel)
    (hle : lvl ≤ t.req.ftMaxLevel) :
    Updating t stk (writeNode sha c lvl info) ∧
      (writeNode sha c lvl info).cacheRequest = newCacheRequest info.node.pba .write lvl ∧
      (writeNode sha c lvl info).cacheBlockData = backBlock c lvl ∧
      (writeNode sha c lvl info).newBlocks = c.newBlocks ∧
      Upper t lvl info.index
        { pba := info.node.pba, gen := t.req.currentGen, hash := sha (backBlock c lvl) } c
        (writeNode sha c lvl info) := by
  unfold writeNode backBlock
  by_cases h2 : 2 ≤ lvl
  · by_cases hmax : lvl < t.req.ftMaxLevel
    · simp only [h2, if_true, h.request, hmax]
      refine ⟨⟨h.state, rfl, h.needed, h.exchanged, h.metaTree, h.stk, h.idle⟩, trivial, trivial,
        trivial, ?_, ?_, ?_⟩
      · exact fun k hk => Function.update_of_ne hk.ne' _ _
      · exact fun _ => Function.update_self ..
      · rw [if_neg hmax.ne]
    · simp only [h2, if_true, h.request, hmax, if_false]
      refine ⟨⟨h.state, rfl, h.needed, h.exchanged, h.metaTree, h.stk, h.idle⟩, trivial, trivial,
        trivial, ?_, ?_, ?_⟩
      · exact fun k _ => rfl
      · exact fun hlt => absurd hlt hmax
      · rw [if_pos (by omega)]
  · simp only [h2, if_false, h.request]
    refine ⟨⟨h.state, rfl, h.needed, h.exchanged, h.metaTree, h.stk, h.idle⟩, trivial, trivial,
      trivial, ?_, ?_, ?_⟩
    · exact fun k hk => Function.update_of_ne hk.ne' _ _
    · exact fun _ => Function.update_self ..
    · rw [if_neg (by omega)]

/-- The channel after a node block has been written. -/
def wroteBlock (c : Channel) (lvl : Nat) (info : Type1Info) : Channel :=
  { c with cacheRequest := { c.cacheRequest with state := .complete } }.updateTop lvl
    { info with state := .complete }

theorem step_write (sha : Block → Hash) (mt : MetaTree) (disk : Disk) (answers : Nat)
    {pba : PhysicalBlockAddress} (h : Updating t stk c)
    (hc : c.cacheRequest = newCacheRequest pba .write lvl) (htop : stk lvl = info :: rest) :
    ∃ c', step sha mt ⟨c, disk, answers⟩ =
        .ok ⟨c', Function.update disk pba c.cacheBlockData, answers⟩ ∧
      Updating t (Function.update stk lvl ({ info with state := .complete } :: rest)) c' ∧
      c'.cacheRequest.state = .complete ∧ c'.newBlocks = c.newBlocks ∧
      c'.levelNNodes = c.levelNNodes ∧ c'.ftRoot = c.ftRoot := by
  have htop' : c.levelNStacks lvl = info :: rest := by rw [h.stk, htop]
  have hwrite : writeComplete c = .ok (wroteBlock c lvl info) := by
    unfold writeComplete
    rw [hc]
    simp only [newCacheRequest, htop', Exec.pure_eq, wroteBlock, hc]
  refine ⟨wroteBlock c lvl info, ?_, ?_, rfl, rfl, rfl, rfl⟩
  · unfold step
    simp only [hc, newCacheRequest]
    rw [hwrite]
    rfl
  · exact ⟨h.state, h.request, h.needed, h.exchanged, h.metaTree,
      by simp only [wroteBlock, Channel.updateTop, htop', List.tail_cons, h.stk], h.idle⟩

/-- A node whose address is settled is written. -/
theorem Updating.writesNode (sha : Block → Hash) (mt : MetaTree) (disk : Disk) (answers : Nat)
    (h : Updating t stk c) (hlt : 1 < t.req.ftMaxLevel)
    (hle : lvl ≤ t.req.ftMaxLevel) (htop : stk lvl = info :: rest) :
    ∃ c', step sha mt ⟨writeNode sha c lvl info, disk, answers⟩ =
        .ok ⟨c', Function.update disk info.node.pba (backBlock c lvl), answers⟩ ∧
      Updating t (Function.update stk lvl ({ info with state := .complete } :: rest)) c' ∧
      c'.cacheRequest.state ≠ .pending ∧ c'.newBlocks = c.newBlocks ∧
      Upper t lvl info.index
        { pba := info.node.pba, gen := t.req.currentGen, hash := sha (backBlock c lvl) } c c' := by
  obtain ⟨hw, hreq, hblk, hnew, hupper⟩ := writeNode_spec sha info h hlt hle
  obtain ⟨c', hstep, hupd, hcache, hnew', hnodes, hroot⟩ :=
    step_write sha mt disk answers hw hreq htop
  rw [hblk] at hstep
  refine ⟨c', hstep, hupd, ?_, by rw [hnew', hnew], ?_⟩
  · rw [hcache]
    intro h
    cases h
  · exact ⟨fun k hk => by rw [hnodes, hupper.nodes k hk],
      fun hl => by rw [hnodes, hupper.entry hl], by rw [hroot, hupper.root]⟩

/-- A node whose children are done is written back, if need be at an address
that the meta tree is asked for. -/
theorem Updating.settles (mt : MetaTree) (disk : Disk) (answers : Nat) {c₀ : Channel} (h : Updating t stk c)
    (hexec : execute sha c₀ = updateNode sha c lvl info (finished t c))
    (hcache₀ : c₀.cacheRequest.state ≠ .pending) (hmeta₀ : c₀.metaTreeRequest.state = .invalid)
    (hcache : c.cacheRequest.state ≠ .pending) (hlt : 1 < t.req.ftMaxLevel) (hl : 1 ≤ lvl)
    (hle : lvl ≤ t.req.ftMaxLevel) (hmax : lvl ≤ treeMaxLevel)
    (hlow : ∀ k, 1 ≤ k → k < lvl → stk k = []) (htop : stk lvl = info :: rest)
    (hinfo : info.state = .write) :
    let r := settle sha mt t.req info (backBlock c lvl) ⟨disk, answers, c.newBlocks⟩
    ∃ c', Reaches (step sha mt) ⟨c₀, disk, answers⟩ ⟨c', r.1.disk, r.1.answers⟩ ∧
      NodeDone t lvl info stk rest c r c' := by
  have hmeta₀' : c₀.metaTreeRequest.state ≠ .pending := by
    rw [hmeta₀]
    intro h
    cases h
  by_cases hv : info.volatil = true
  · rw [settle, if_pos hv]
    have hstep₁ : step sha mt ⟨c₀, disk, answers⟩ = .ok ⟨writeNode sha c lvl info, disk, answers⟩ :=
      step_execute hcache₀ hmeta₀' (by simp only [hexec, updateNode, hinfo, hv, if_true, Exec.pure_eq])
    obtain ⟨c', hstep₂, hupd, hc', hnew, hupper⟩ :=
      h.writesNode sha mt disk answers hlt hle htop
    exact ⟨c', .head hstep₁ (.single hstep₂), ⟨_, rfl, hupd⟩, hc', hnew, hupper⟩
  · rw [settle, if_neg hv]
    -- the meta tree is asked, and its answer taken over into the node
    let c₁ : Channel := { c with metaTreeRequest := { state := .pending, pba := info.node.pba } }
    let c₂ : Channel := metaTreeComplete c₁ (mt.newPba answers)
    let info₃ : Type1Info := { info with
      volatil := true, node := { info.node with pba := mt.newPba answers } }
    let c₃ : Channel := { c₂ with
      metaTreeRequest := { c₂.metaTreeRequest with state := .invalid } }.updateTop lvl info₃
    have hstep₁ : step sha mt ⟨c₀, disk, answers⟩ = .ok ⟨c₁, disk, answers⟩ :=
      step_execute hcache₀ hmeta₀' (by
        simp only [hexec, updateNode, hinfo, hv, if_false, Bool.false_eq_true, h.metaTree,
          Exec.pure_eq, c₁])
    have hstep₂ : step sha mt ⟨c₁, disk, answers⟩ =
        .ok ⟨c₂, mt.work answers disk, answers + 1⟩ := by
      unfold step
      cases hs : c.cacheRequest.state with
      | pending => exact absurd hs hcache
      | invalid => simp only [c₁, c₂, Exec.pure_eq]
      | complete => simp only [c₁, c₂, Exec.pure_eq]
    have h₃ : Updating t (Function.update stk lvl (info₃ :: rest)) c₃ :=
      ⟨h.state, h.request, h.needed, h.exchanged, rfl, by
        simp only [c₃, c₂, c₁, metaTreeComplete, Channel.updateTop, h.stk, htop, List.tail_cons],
        h.idle⟩
    have hexec₂ : execute sha c₂ = .ok (writeNode sha c₃ lvl info₃) := by
      have hstk₂ : c₂.levelNStacks = stk := h.stk
      have hreq₂ : c₂.request = t.req := h.request
      rw [execute_update (c := c₂) h.state (hreq₂ ▸ h.idle) hl hmax (hstk₂ ▸ hlow) (hstk₂ ▸ htop)]
      simp only [updateNode, hinfo, hv, if_false, Bool.false_eq_true]
      rw [← hinfo]
      rfl
    have hstep₃ : step sha mt ⟨c₂, mt.work answers disk, answers + 1⟩ =
        .ok ⟨writeNode sha c₃ lvl info₃, mt.work answers disk, answers + 1⟩ :=
      step_execute hcache (by intro h; cases h) hexec₂
    obtain ⟨c', hstep₄, hupd, hc', hnew, hupper⟩ := h₃.writesNode sha mt
      (mt.work answers disk) (answers + 1) hlt hle (Function.update_self ..)
    rw [Function.update_idem] at hupd
    exact ⟨c', .head hstep₁ (.head hstep₂ (.head hstep₃ (.single hstep₄))), ⟨_, rfl, hupd⟩, hc',
      hnew, hupper.nodes, hupper.entry, hupper.root⟩

/-- Nothing that the level above knows has changed before the node was
written back. -/
theorem NodeDone.of_eq {c₁ : Channel} {info₁ : Type1Info} {stk₁ : Nat → List Type1Info}
    {r : Pass × Type1Node} (h : NodeDone t lvl info₁ stk₁ rest c₁ r c')
    (hidx : info₁.index = info.index) (hnodes : ∀ k, lvl ≤ k → c₁.levelNNodes k = c.levelNNodes k)
    (hroot : c₁.ftRoot = c.ftRoot) (hstk : ∀ k ≠ lvl, stk₁ k = stk k) :
    NodeDone t lvl info stk rest c r c' := by
  have hupd : ∀ top, Function.update stk₁ lvl top = Function.update stk lvl top := by
    intro top
    funext k
    by_cases hk : k = lvl
    · rw [hk, Function.update_self, Function.update_self]
    · rw [Function.update_of_ne hk, Function.update_of_ne hk, hstk k hk]
  obtain ⟨top, htop, h₁⟩ := h.updating
  refine ⟨⟨top, htop, hupd _ ▸ h₁⟩, h.cache, h.newBlocks, ?_, ?_, ?_⟩
  · intro k hk
    rw [h.upper.nodes k hk, hnodes k hk.le]
  · intro hlt
    rw [h.upper.entry hlt, hidx, hnodes lvl le_rfl]
  · rw [h.upper.root, hroot]

/-- A node that is done is taken off its stack, and its siblings with it once
the exchange is finished. -/
theorem Updating.updateNode_complete (sha : Block → Hash) (h : Updating t stk c) (htop : stk lvl = info :: rest)
    (hinfo : info.state = .complete) (hne : lvl ≠ t.req.ftMaxLevel) :
    ∃ c', updateNode sha c lvl info (finished t c) = .ok c' ∧
      Updating t (Function.update stk lvl (if finished t c then [] else rest)) c' ∧
      c'.cacheRequest.state = .invalid ∧ c'.newBlocks = c.newBlocks ∧
      c'.levelNNodes = c.levelNNodes ∧ c'.ftRoot = c.ftRoot := by
  refine ⟨{ c with cacheRequest := { c.cacheRequest with state := .invalid } }.setStack lvl
    (if finished t c then [] else (c.levelNStacks lvl).tail), ?_, ?_, rfl, rfl, rfl, rfl⟩
  · have hne' : ¬ (lvl = c.request.ftMaxLevel ∧ finished t c = true) := by
      rw [h.request]
      exact fun hh => hne hh.1
    simp only [updateNode, hinfo, Channel.setStack]
    rw [if_neg hne']
    rfl
  · exact ⟨h.state, h.request, h.needed, h.exchanged, h.metaTree,
      by simp only [Channel.setStack, h.stk, htop, List.tail_cons], h.idle⟩

/-! ## Node blocks of level 1 -/

theorem map_leafStack_index (req : Request) (entries : Type2NodeBlock) :
    (leafStack req entries).map Type2Info.index = stacked fun idx => usable req (entries idx) := by
  rw [leafStack, List.map_map]
  exact List.map_id _

/-- The exchange in a node block whose leaves have just been put on the stack. -/
theorem exchangeType2Leaves_leafStack (htype : t.req.type ≠ .allocForRkgOldGenBlks)
    (hreq : c.request = t.req) (hstack : c.level0Stack = leafStack t.req c.level0Node) :
    exchangeType2Leaves c = .ok { c with
      newBlocks := fill c.newBlocks (levels t.req c.newBlocks) (c.level0Stack.map Type2Info.node)
      level0Stack := c.level0Stack.drop (levels t.req c.newBlocks).length
      level0Node := exchangeEntries t.req (levels t.req c.newBlocks) c.level0Stack c.level0Node
      exchangedBlocks := c.exchangedBlocks +
        min (levels t.req c.newBlocks).length c.level0Stack.length } := by
  unfold exchangeType2Leaves
  rw [hreq, exchangeLoop_eq htype List.nodup_range]
  · simp only [Exec.ok_bind, Exec.pure_eq, Nat.zero_add]
    rfl
  · simp only [hstack, map_leafStack_index]
    exact nodup_stacked _
  · intro i hi
    simp only [hstack, leafStack, List.mem_map] at hi
    obtain ⟨idx, -, rfl⟩ := hi
    rfl

theorem levels_fill_leafStack (req : Request) (nb : Nat → PhysicalBlockAddress)
    (entries : Type2NodeBlock) :
    levels req (fill nb (levels req nb) ((leafStack req entries).map Type2Info.node)) =
      (levels req nb).drop (leafStack req entries).length := by
  rw [levels_fill, List.length_map]
  intro leaf hleaf
  simp only [leafStack, List.map_map, List.mem_map, stacked, List.mem_reverse, List.mem_filter] at hleaf
  obtain ⟨idx, ⟨-, hu⟩, rfl⟩ := hleaf
  exact usable_pba_ne hu

/-- The node block above refers to the node that is gone through. -/
def Refers (t : Task) (lvl : Nat) (info : Type1Info) (c : Channel) : Prop :=
  (lvl < t.req.ftMaxLevel → c.levelNNodes lvl info.index = info.node) ∧
    (lvl = t.req.ftMaxLevel → c.ftRoot = info.node)

theorem Refers.upper (h : Refers t lvl info c) : Upper t lvl info.index info.node c c where
  nodes := fun _ _ => rfl
  entry := fun hlt => by rw [← h.1 hlt, Function.update_eq_self]
  root := by
    split
    · rename_i he
      exact h.2 he
    · rfl

/-- The second pass over a node block of level 1. -/
theorem Updating.leafBlock (h : Updating t stk c) (hcache : c.cacheRequest.state = .invalid)
    (htype : t.req.type ≠ .allocForRkgOldGenBlks) (hlt : 1 < t.req.ftMaxLevel)
    (htop : stk 1 = info :: rest) (hinfo : info.state = .invalid) (href : Refers t 1 info c)
    (hcons : Consistent sha disk 1 info.node) :
    let r := visit sha mt t.req 1 info ⟨disk, answers, c.newBlocks⟩
    ∃ c', Reaches (step sha mt) ⟨c, disk, answers⟩ ⟨c', r.1.disk, r.1.answers⟩ ∧
      NodeDone t 1 info stk rest c r c' := by
  have hlow : ∀ (stk : Nat → List Type1Info) k, 1 ≤ k → k < 1 → stk k = [] :=
    fun _ k hk hk' => absurd hk' (by omega)
  obtain ⟨c₁, hreach, h₁, hcache₁, hdata, hnew₁, hnodes₁, hroot₁⟩ :=
    h.reads sha mt answers hcache le_rfl (by decide)
      (hlow stk) htop hinfo hcons.1
  let entries := leafEntries disk info.node.pba
  let stack := leafStack t.req entries
  have hdec : Type2NodeBlock.decodeFromBlk c₁.cacheBlockData = .ok entries := by
    rw [Type2NodeBlock.decodeFromBlk, hdata, hcons.2]
    rfl
  have hcache₁' : c₁.cacheRequest.state ≠ .pending := by
    rw [hcache₁]
    intro h
    cases h
  have hmeta₁ : c₁.metaTreeRequest.state ≠ .pending := by
    rw [h₁.metaTree]
    intro h
    cases h
  -- the leaves are put on the stack of level 0
  let next : NodeState := if stack.isEmpty then .complete else .write
  let c₂ : Channel := { c₁ with
    cacheRequest := { c₁.cacheRequest with state := .invalid }
    level0Node := entries
    level0Stack := stack }.updateTop 1 { info with state := next }
  have hexec₁ : execute sha c₁ = .ok c₂ := by
    rw [h₁.execute_eq le_rfl (by decide) (hlow _) (Function.update_self ..)]
    simp only [updateNode, hdec, Exec.ok_bind, Exec.pure_eq, show ¬ 2 ≤ 1 by omega, if_false,
      h₁.request, c₂, next, stack]
  have hreach₂ := hreach.tail (step_execute hcache₁' hmeta₁ hexec₁)
  have hstk₂ : c₂.levelNStacks = Function.update stk 1 ({ info with state := next } :: rest) := by
    simp only [c₂, Channel.updateTop, h₁.stk, Function.update_self, Function.update_idem,
      List.tail_cons]
  have htop₂ : c₂.levelNStacks 1 = { info with state := next } :: rest := by
    rw [hstk₂, Function.update_self]
  have hnew₂ : c₂.newBlocks = c.newBlocks := hnew₁
  have hnodes₂ : c₂.levelNNodes = c.levelNNodes := hnodes₁
  have hroot₂ : c₂.ftRoot = c.ftRoot := hroot₁
  have hreq₂ : c₂.request = t.req := h₁.request
  have hexch₂ : c₂.exchangedBlocks + (levels t.req c₂.newBlocks).length =
      t.req.requestedBlocks := h₁.exchanged
  by_cases hs : stack.isEmpty = true
  · -- nothing to exchange: the node is done
    have hvisit : visit sha mt t.req 1 info ⟨disk, answers, c.newBlocks⟩ =
        (⟨disk, answers, c.newBlocks⟩, info.node) := by
      rw [visit, visitLeaves]
      exact if_pos hs
    rw [hvisit]
    refine ⟨c₂, hreach₂, ⟨{ info with state := next }, ?_, ?_⟩, ?_, hnew₂, ?_⟩
    · exact if_pos hs
    · exact ⟨h₁.state, hreq₂, h₁.needed, hexch₂, h₁.metaTree, hstk₂,
        .inl (List.isEmpty_iff.mp hs)⟩
    · intro h
      cases h
    · have hu := href.upper
      exact ⟨fun k hk => by rw [hnodes₂], fun hl => by rw [hnodes₂]; exact hu.entry hl,
        by rw [hroot₂]; exact hu.root⟩
  · have hnext : next = .write := if_neg hs
    let lvls := levels t.req c.newBlocks
    let c₃ : Channel := { c₂ with
      newBlocks := fill c.newBlocks lvls (stack.map Type2Info.node)
      level0Stack := stack.drop lvls.length
      level0Node := exchangeEntries t.req lvls stack entries
      exchangedBlocks := c₂.exchangedBlocks + min lvls.length stack.length }
    have hexch : exchangeType2Leaves c₂ = .ok c₃ := by
      rw [exchangeType2Leaves_leafStack htype hreq₂ rfl, hnew₂]
      rfl
    have hlevels : levels t.req c₃.newBlocks = lvls.drop stack.length :=
      levels_fill_leafStack t.req c.newBlocks entries
    have h₃ : Updating t c₂.levelNStacks c₃ := by
      refine ⟨h₁.state, hreq₂, h₁.needed, ?_, h₁.metaTree, rfl, ?_⟩
      · rw [hlevels, List.length_drop]
        rw [hnew₂] at hexch₂
        change c₂.exchangedBlocks + min lvls.length stack.length + (lvls.length - stack.length) = _
        change c₂.exchangedBlocks + lvls.length = _ at hexch₂
        omega
      · change stack.drop lvls.length = [] ∨ _
        rw [hlevels, List.drop_eq_nil_iff, List.drop_eq_nil_iff]
        exact le_total _ _
    have hexec₂ : execute sha c₂ =
        updateNode sha c₃ 1 { info with state := next } (finished t c₃) := by
      have hstate₂ : c₂.state = .update := h₁.state
      have hactive : activeLevel c₃ = some 1 :=
        activeLevel_eq le_rfl (by decide) (fun k hk hk' => absurd hk' (by omega)) htop₂
      have htop₃ : c₃.levelNStacks 1 = { info with state := next } :: rest := htop₂
      simp only [execute, hstate₂, executeUpdate, hexch, Exec.ok_bind, hactive, htop₃,
        h₃.decide_exchanged]
    have hvisit : visit sha mt t.req 1 info ⟨disk, answers, c.newBlocks⟩ =
        settle sha mt t.req { info with state := next } (backBlock c₃ 1)
          ⟨disk, answers, c₃.newBlocks⟩ := by
      rw [visit, visitLeaves]
      exact if_neg hs
    have hcache₂ : c₂.cacheRequest.state ≠ .pending := by
      intro h
      cases h
    obtain ⟨c', hreach', hdone⟩ := h₃.settles mt disk answers hexec₂
      hcache₂ h₁.metaTree hcache₂ hlt le_rfl hlt.le (by decide) (hlow _) htop₂ hnext
    rw [hvisit]
    refine ⟨c', hreach₂.trans hreach', hdone.of_eq rfl ?_ hroot₂ ?_⟩
    · intro k _
      change c₂.levelNNodes k = _
      rw [hnodes₂]
    · intro k hk
      rw [hstk₂, Function.update_of_ne hk]

/-! ## Inner nodes -/

/-- The second pass over one node, as it is used for the nodes of a stack. -/
def UpdatesNode (sha : Block → Hash) (mt : MetaTree) (blocks : List PhysicalBlockAddress)
    (first : Nat) (t : Task) (lvl : Nat) : Prop :=
  ∀ {stk : Nat → List Type1Info} {c : Channel} {info : Type1Info} {rest : List Type1Info}
    {disk : Disk} {answers : Nat}, Updating t stk c → c.cacheRequest.state = .invalid →
    (∀ k, 1 ≤ k → k < lvl → stk k = []) → stk lvl = info :: rest → info.state = .invalid →
    Refers t lvl info c → Sub sha blocks disk lvl info.node →
    Room blocks first (blocksOf disk lvl info.node) ⟨disk, answers, c.newBlocks⟩ →
    let r := visit sha mt t.req lvl info ⟨disk, answers, c.newBlocks⟩
    ∃ c', Reaches (step sha mt) ⟨c, disk, answers⟩ ⟨c', r.1.disk, r.1.answers⟩ ∧
      NodeDone t lvl info stk rest c r c'

/-- One node of a stack below the root, which is taken off afterwards. -/
theorem UpdatesNode.pop (answers : Nat) (hnode : UpdatesNode sha mt blocks first t lvl) (hl : 1 ≤ lvl)
    (hmax : lvl ≤ treeMaxLevel) (hlt : lvl < t.req.ftMaxLevel) (h : Updating t stk c)
    (hcache : c.cacheRequest.state = .invalid) (hlow : ∀ k, 1 ≤ k → k < lvl → stk k = [])
    (htop : stk lvl = info :: rest) (hinfo : info.state = .invalid)
    (hent : c.levelNNodes lvl info.index = info.node) (hsub : Sub sha blocks disk lvl info.node)
    (hr : Room blocks first (blocksOf disk lvl info.node) ⟨disk, answers, c.newBlocks⟩) :
    let r := visit sha mt t.req lvl info ⟨disk, answers, c.newBlocks⟩
    ∃ c', Reaches (step sha mt) ⟨c, disk, answers⟩ ⟨c', r.1.disk, r.1.answers⟩ ∧
      Updating t (Function.update stk lvl
        (if (levels t.req r.1.newBlocks).isEmpty then [] else rest)) c' ∧
      c'.cacheRequest.state = .invalid ∧ c'.newBlocks = r.1.newBlocks ∧
      c'.levelNNodes lvl = Function.update (c.levelNNodes lvl) info.index r.2 ∧
      (∀ k, lvl < k → c'.levelNNodes k = c.levelNNodes k) ∧ c'.ftRoot = c.ftRoot := by
  intro r
  obtain ⟨c₁, hreach, hdone⟩ := hnode h hcache hlow htop hinfo
    ⟨fun _ => hent, fun he => absurd he hlt.ne⟩ hsub hr
  obtain ⟨top, hstate, h₁⟩ := hdone.updating
  have htop₁ : Function.update stk lvl (top :: rest) lvl = top :: rest := Function.update_self ..
  have hlow₁ : ∀ k, 1 ≤ k → k < lvl → Function.update stk lvl (top :: rest) k = [] := by
    intro k hk hk'
    rw [Function.update_of_ne hk'.ne, hlow k hk hk']
  obtain ⟨c₂, hexec, h₂, hcache₂, hnew₂, hnodes₂, hroot₂⟩ :=
    h₁.updateNode_complete sha htop₁ hstate hlt.ne
  rw [← h₁.execute_eq hl hmax hlow₁ htop₁] at hexec
  rw [Function.update_idem, finished, hdone.newBlocks] at h₂
  refine ⟨c₂, hreach.tail (step_execute hdone.cache ?_ hexec), h₂, hcache₂, ?_, ?_, ?_, ?_⟩
  · rw [h₁.metaTree]
    intro h
    cases h
  · rw [hnew₂, hdone.newBlocks]
  · rw [hnodes₂, hdone.upper.entry hlt]
  · intro k hk
    rw [hnodes₂, hdone.upper.nodes k hk]
  · rw [hroot₂, hdone.upper.root, if_neg hlt.ne]

/-- The second pass over the nodes of a stack below the root. -/
theorem Updating.stack (hmt : mt.Sound blocks first) (hnode : UpdatesNode sha mt blocks first t lvl)
    (hl : 1 ≤ lvl) (hmax : lvl ≤ treeMaxLevel) (hlt : lvl < t.req.ftMaxLevel)
    (cs : List Type1Info) (h : Updating t stk c) (hcache : c.cacheRequest.state = .invalid)
    (hlow : ∀ k, 1 ≤ k → k < lvl → stk k = []) (htop : stk lvl = cs)
    (hinv : ∀ info ∈ cs, info.state = .invalid)
    (hsubs : Subs sha blocks disk lvl cs (c.levelNNodes lvl))
    (hr : Room blocks first (stackBlocks disk lvl cs) ⟨disk, answers, c.newBlocks⟩) :
    let r := visitChildren t.req (visit sha mt t.req lvl) cs (c.levelNNodes lvl)
      ⟨disk, answers, c.newBlocks⟩
    ∃ c', Reaches (step sha mt) ⟨c, disk, answers⟩ ⟨c', r.1.disk, r.1.answers⟩ ∧
      Updating t (Function.update stk lvl []) c' ∧ c'.cacheRequest.state = .invalid ∧
      c'.newBlocks = r.1.newBlocks ∧ c'.levelNNodes lvl = r.2 ∧
      (∀ k, lvl < k → c'.levelNNodes k = c.levelNNodes k) ∧ c'.ftRoot = c.ftRoot := by
  induction cs generalizing stk c disk answers with
  | nil =>
    have hstk : Function.update stk lvl [] = stk := by rw [← htop, Function.update_eq_self]
    rw [hstk]
    exact ⟨c, .refl _, h, hcache, rfl, rfl, fun _ _ => rfl, rfl⟩
  | cons info rest ih =>
    let r₁ := visit sha mt t.req lvl info ⟨disk, answers, c.newBlocks⟩
    have hlen := length_stackBlocks disk lvl info rest
    have hr₀ : Room blocks first (blocksOf disk lvl info.node) ⟨disk, answers, c.newBlocks⟩ :=
      hr.mono (hlen ▸ Nat.le_add_right _ _)
    obtain ⟨c₁, hreach, h₁, hcache₁, hnew₁, hent₁, hnodes₁, hroot₁⟩ :=
      hnode.pop answers hl hmax hlt h hcache hlow htop
        (hinv info List.mem_cons_self) (hsubs.node info List.mem_cons_self) hsubs.head hr₀
    have hv := visit_spec sha t.req hmt lvl info ⟨disk, answers, c.newBlocks⟩ hsubs.head hr₀
    by_cases hf : (levels t.req r₁.1.newBlocks).isEmpty = true
    · rw [if_pos hf] at h₁
      simp only [visitChildren, r₁, hf, if_true]
      exact ⟨c₁, hreach, h₁, hcache₁, hnew₁, hent₁, hnodes₁, hroot₁⟩
    · rw [if_neg hf] at h₁
      obtain ⟨htail, hb, -, -⟩ := hsubs.tail t.req r₁.2 fun a ha =>
        hv.confined.disk_eq a (.inl (hsubs.subset (List.mem_append_right _ ha)))
          (hsubs.disjoint ha)
      have hr₁ : Room blocks first (stackBlocks r₁.1.disk lvl rest)
          ⟨r₁.1.disk, r₁.1.answers, c₁.newBlocks⟩ := by
        have hroom := hv.confined.room hr hlen.ge
        rw [hb]
        exact ⟨hroom.first_le, hroom.le⟩
      have hlow₁ : ∀ k, 1 ≤ k → k < lvl → Function.update stk lvl rest k = [] := by
        intro k hk hk'
        rw [Function.update_of_ne hk'.ne, hlow k hk hk']
      obtain ⟨c₂, hreach₂, h₂, hcache₂, hnew₂, hent₂, hnodes₂, hroot₂⟩ :=
        ih h₁ hcache₁ hlow₁ (Function.update_self ..)
          (fun i hi => hinv i (List.mem_cons_of_mem _ hi)) (hent₁ ▸ htail) hr₁
      have hvisit : visitChildren t.req (visit sha mt t.req lvl) (info :: rest)
          (c.levelNNodes lvl) ⟨disk, answers, c.newBlocks⟩ =
          visitChildren t.req (visit sha mt t.req lvl) rest (c₁.levelNNodes lvl)
            ⟨r₁.1.disk, r₁.1.answers, c₁.newBlocks⟩ := by
        rw [visitChildren, hent₁, hnew₁]
        exact if_neg hf
      rw [Function.update_idem] at h₂
      rw [hvisit]
      refine ⟨c₂, hreach.trans hreach₂, h₂, hcache₂, hnew₂, hent₂, ?_, ?_⟩
      · intro k hk
        rw [hnodes₂ k hk, hnodes₁ k hk]
      · rw [hroot₂, hroot₁]

/-- The second pass over a node whose children are node blocks. -/
theorem Updating.innerBlock {l : Nat} (hmt : mt.Sound blocks first)
    (hnode : UpdatesNode sha mt blocks first t (l + 1)) (hle : l + 2 ≤ t.req.ftMaxLevel)
    (hmax : l + 2 ≤ treeMaxLevel) (h : Updating t stk c)
    (hcache : c.cacheRequest.state = .invalid) (hlow : ∀ k, 1 ≤ k → k < l + 2 → stk k = [])
    (htop : stk (l + 2) = info :: rest) (hinfo : info.state = .invalid)
    (href : Refers t (l + 2) info c) (hsub : Sub sha blocks disk (l + 2) info.node)
    (hr : Room blocks first (blocksOf disk (l + 2) info.node) ⟨disk, answers, c.newBlocks⟩) :
    let r := visit sha mt t.req (l + 2) info ⟨disk, answers, c.newBlocks⟩
    ∃ c', Reaches (step sha mt) ⟨c, disk, answers⟩ ⟨c', r.1.disk, r.1.answers⟩ ∧
      NodeDone t (l + 2) info stk rest c r c' := by
  obtain ⟨c₁, hreach, h₁, hcache₁, hdata, hnew₁, hnodes₁, hroot₁⟩ :=
    h.reads sha mt answers hcache (by omega) hmax hlow
      htop hinfo hsub.consistent.1
  let entries := innerEntries disk info.node.pba
  let cs := childStack entries t.req.currentGen
  let next : NodeState := if cs.isEmpty then .complete else .write
  have hlow' : ∀ top k, 1 ≤ k → k < l + 2 → Function.update stk (l + 2) top k = [] := by
    intro top k hk hk'
    rw [Function.update_of_ne hk'.ne, hlow k hk hk']
  have hcache₁' : c₁.cacheRequest.state ≠ .pending := by
    rw [hcache₁]
    intro h
    cases h
  have hmeta₁ : c₁.metaTreeRequest.state ≠ .pending := by
    rw [h₁.metaTree]
    intro h
    cases h
  -- the children are put on the stack below
  let c₂ : Channel := ({ c₁ with
    cacheRequest := { c₁.cacheRequest with state := .invalid }
    levelNNodes := Function.update c₁.levelNNodes (l + 1) entries }.setStack (l + 1) cs).updateTop
      (l + 2) { info with state := next }
  have hexec₁ : execute sha c₁ = .ok c₂ := by
    have hdec : Type1NodeBlock.decodeFromBlk c₁.cacheBlockData = entries := by
      rw [hdata]
      rfl
    rw [h₁.execute_eq (by omega) hmax (hlow' _) (Function.update_self ..)]
    simp only [updateNode, hdec, Exec.pure_eq, show 2 ≤ l + 2 by omega, if_true, h₁.request,
      show l + 2 - 1 = l + 1 by omega, c₂, next, cs]
  have hreach₂ := hreach.tail (step_execute hcache₁' hmeta₁ hexec₁)
  let stk₂ := Function.update (Function.update stk (l + 1) cs) (l + 2)
    ({ info with state := next } :: rest)
  have hstk₂ : c₂.levelNStacks = stk₂ := by
    have hne : (l + 2) ≠ l + 1 := by omega
    simp only [c₂, Channel.updateTop, Channel.setStack, h₁.stk, stk₂]
    rw [Function.update_of_ne hne, Function.update_self, List.tail_cons, Function.update_comm hne,
      Function.update_idem, Function.update_comm hne.symm]
  have hnew₂ : c₂.newBlocks = c.newBlocks := hnew₁
  have hroot₂ : c₂.ftRoot = c.ftRoot := hroot₁
  have hnodes₂ : ∀ k, l + 2 ≤ k → c₂.levelNNodes k = c.levelNNodes k := by
    intro k hk
    rw [← hnodes₁]
    exact Function.update_of_ne (by omega) _ _
  have h₂ : Updating t stk₂ c₂ :=
    ⟨h₁.state, h₁.request, h₁.needed, h₁.exchanged, h₁.metaTree, hstk₂, h₁.idle⟩
  by_cases hs : cs.isEmpty = true
  · -- a node without children is done
    have hvisit : visit sha mt t.req (l + 2) info ⟨disk, answers, c.newBlocks⟩ =
        (⟨disk, answers, c.newBlocks⟩, info.node) := by
      rw [visit]
      exact if_pos hs
    rw [hvisit]
    have hstk : stk₂ = Function.update stk (l + 2) ({ info with state := next } :: rest) := by
      have hempty : cs = [] := List.isEmpty_iff.mp hs
      simp only [stk₂]
      rw [hempty, ← hlow (l + 1) (by omega) (by omega), Function.update_eq_self]
    refine ⟨c₂, hreach₂, ⟨{ info with state := next }, if_pos hs, hstk ▸ h₂⟩, ?_, hnew₂, ?_⟩
    · intro h
      cases h
    · have hu := href.upper
      exact ⟨fun k hk => hnodes₂ k hk.le, fun hl => by rw [hnodes₂ _ le_rfl]; exact hu.entry hl,
        by rw [hroot₂]; exact hu.root⟩
  · have hnext : next = .write := if_neg hs
    have hent₂ : c₂.levelNNodes (l + 1) = entries := Function.update_self ..
    have hlow₂ : ∀ k, 1 ≤ k → k < l + 1 → stk₂ k = [] := by
      intro k hk hk'
      simp only [stk₂]
      rw [Function.update_of_ne (by omega), Function.update_of_ne (by omega), hlow k hk (by omega)]
    have htop₂ : stk₂ (l + 1) = cs := by
      simp only [stk₂]
      rw [Function.update_of_ne (by omega), Function.update_self]
    have hsubs : Subs sha blocks disk (l + 1) cs (c₂.levelNNodes (l + 1)) := by
      rw [hent₂]
      exact (hsub.children t.req).1
    have hr₂ : Room blocks first (stackBlocks disk (l + 1) cs) ⟨disk, answers, c₂.newBlocks⟩ := by
      have hroom := hr.mono (Nat.le_of_succ_le (hsub.length_blocksOf t.req).ge)
      exact ⟨hroom.first_le, hroom.le⟩
    obtain ⟨c₃, hreach₃, h₃, hcache₃, hnew₃, hent₃, hnodes₃, hroot₃⟩ :=
      Updating.stack hmt hnode (by omega) (by omega) (by omega) cs h₂ rfl
        hlow₂ htop₂ (fun i hi => (mem_childStack hi).1) hsubs hr₂
    rw [hent₂, hnew₂] at hreach₃ hnew₃ hent₃
    let r := visitChildren t.req (visit sha mt t.req (l + 1)) cs entries
      ⟨disk, answers, c.newBlocks⟩
    have hlow₃ : ∀ k, 1 ≤ k → k < l + 2 → Function.update stk₂ (l + 1) [] k = [] := by
      intro k hk hk'
      by_cases hkl : k = l + 1
      · rw [hkl, Function.update_self]
      · rw [Function.update_of_ne hkl, hlow₂ k hk (by omega)]
    have htop₃ : Function.update stk₂ (l + 1) [] (l + 2) =
        { info with state := next } :: rest := by
      rw [Function.update_of_ne (by omega)]
      exact Function.update_self ..
    have hback : backBlock c₃ (l + 2) = Type1NodeBlock.encodeToBlk r.2 := by
      rw [backBlock, if_pos (by omega), show l + 2 - 1 = l + 1 by omega, hent₃]
    have hcache₃' : c₃.cacheRequest.state ≠ .pending := by
      rw [hcache₃]
      intro h
      cases h
    obtain ⟨c', hreach', hdone⟩ := h₃.settles mt r.1.disk r.1.answers
      (h₃.execute_eq (by omega) hmax hlow₃ htop₃) hcache₃' h₃.metaTree hcache₃' (by omega)
      (by omega) hle hmax hlow₃ htop₃ hnext
    rw [hback, hnew₃] at hreach' hdone
    have hvisit : visit sha mt t.req (l + 2) info ⟨disk, answers, c.newBlocks⟩ =
        settle sha mt t.req { info with state := next } (Type1NodeBlock.encodeToBlk r.2)
          ⟨r.1.disk, r.1.answers, r.1.newBlocks⟩ := by
      rw [visit]
      exact if_neg hs
    rw [hvisit]
    refine ⟨c', (hreach₂.trans hreach₃).trans hreach', hdone.of_eq rfl ?_ (hroot₃.trans hroot₂) ?_⟩
    · intro k hk
      rw [hnodes₃ k (by omega), hnodes₂ k hk]
    · intro k hk
      by_cases hkl : k = l + 1
      · rw [hkl, Function.update_self, hlow (l + 1) (by omega) (by omega)]
      · rw [Function.update_of_ne hkl]
        simp only [stk₂]
        rw [Function.update_of_ne hk, Function.update_of_ne hkl]

/-- The machine goes through every node as the recursion does. -/
theorem updatesNode (hmt : mt.Sound blocks first) (htype : t.req.type ≠ .allocForRkgOldGenBlks)
    (hlt : 1 < t.req.ftMaxLevel) (hmax : t.req.ftMaxLevel ≤ treeMaxLevel)
    (hle : lvl ≤ t.req.ftMaxLevel) : UpdatesNode sha mt blocks first t lvl := by
  induction lvl with
  | zero =>
    intro stk c info rest disk answers _ _ _ _ _ _ hsub _
    exact hsub.consistent.elim
  | succ l ih =>
    cases l with
    | zero =>
      intro stk c info rest disk answers h hcache _ htop hinfo href hsub _
      exact h.leafBlock hcache htype hlt htop hinfo href hsub.consistent
    | succ l =>
      intro stk c info rest disk answers h hcache hlow htop hinfo href hsub hr
      exact h.innerBlock hmt (ih (by omega)) hle (by omega) hcache hlow htop hinfo href hsub hr

end Machine

end Genode.Tresor.FreeTree
