import Genode.Lib.Run
import Genode.Tresor.MetaTreeExchange

/-!
# MetaTreeRuns — requests to the meta tree

A request that completes has exchanged one entry of the tree for the block
that was given up, and has lost or doubled no address on the way.
-/

namespace Genode.Tresor.MetaTree

open Genode.Lib

/-! ## What the module does -/

/-- The level that `_handle_level_n_nodes` works on. -/
structure Active (c : Channel) (lvl : Nat) : Prop where
  two_le : 2 ≤ lvl
  le_max : lvl ≤ treeMaxLevel
  entered : (c.levelNNodes lvl).state ≠ .invalid
  below : ∀ l, 2 ≤ l → l < lvl → (c.levelNNodes l).state = .invalid
  idle : c.level1Node.state = .invalid

/-- The cases of `_execute_update`. -/
inductive Executes (sha : Block → Hash) (c : Channel) : Channel → Prop where
  | rest (hidle : c.level1Node.state = .invalid)
      (hs : ∀ l, 2 ≤ l → l ≤ treeMaxLevel → (c.levelNNodes l).state = .invalid) : Executes sha c c
  | ask1 (hs : c.level1Node.state = .read) :
      Executes sha c { c with cacheRequest := newCacheRequest c.level1Node.node.pba t2NodeLvl }
  | exchange {r : Channel × Bool} (hs : c.level1Node.state = .readComplete)
      (hr : handleLevel0Nodes c = .ok r) : Executes sha c
        { r.1 with level1Node := { r.1.level1Node with
            state := if r.2 then NodeState.write else .complete } }
  | record1 {i : Fin nrOfNodesPerBlk} {blk : Block} {node : Type1Node}
      (hs : c.level1Node.state = .write)
      (hi : i.val = (c.levelNNodes mtLowestT1Lvl).index)
      (hblk : blk = Type2NodeBlock.encodeToBlk c.level1Node.entries)
      (hnode : node = updateParent sha blk c.request.currentGen c.level1Node.node.pba) :
      Executes sha c
        { c.setLevel mtLowestT1Lvl { c.levelNNodes mtLowestT1Lvl with
            entries := Function.update (c.levelNNodes mtLowestT1Lvl).entries i node
            dirty := true } with
          cacheRequest := newCacheWrite c.level1Node.node.pba t2NodeLvl blk }
  | leave1 (hs : c.level1Node.state = .writeComplete ∨ c.level1Node.state = .complete) :
      Executes sha c
        { c.setLevel mtLowestT1Lvl { c.levelNNodes mtLowestT1Lvl with
            index := (c.levelNNodes mtLowestT1Lvl).index + 1 } with
          level1Node := { c.level1Node with state := .invalid } }
  | ask {lvl : Nat} (hl : Active c lvl) (hs : (c.levelNNodes lvl).state = .read) :
      Executes sha c { c with cacheRequest := newCacheRequest (c.levelNNodes lvl).node.pba lvl }
  | descend {lvl : Nat} {i : Fin nrOfNodesPerBlk} {c' : Channel} (hl : Active c lvl)
      (hs : (c.levelNNodes lvl).state = .readComplete) (hi : i.val = (c.levelNNodes lvl).index)
      (hlt : i.val < c.request.mtEdges.toNat) (hv : ((c.levelNNodes lvl).entries i).valid = true)
      (hf : c.finished = false) (hc : enterChild c lvl (c.levelNNodes lvl) = .ok c') :
      Executes sha c c'
  | through {lvl : Nat} (hl : Active c lvl) (hs : (c.levelNNodes lvl).state = .readComplete)
      (hd : descends c (c.levelNNodes lvl) = .ok false) :
      Executes sha c (c.setLevel lvl { c.levelNNodes lvl with
        state := if (c.levelNNodes lvl).dirty then NodeState.write else .complete })
  | record {lvl : Nat} {i : Fin nrOfNodesPerBlk} {blk : Block} {node : Type1Node}
      (hl : Active c lvl) (hs : (c.levelNNodes lvl).state = .write)
      (hmax : lvl ≠ c.request.mtMaxLvl) (hi : i.val = (c.levelNNodes (lvl + 1)).index)
      (hblk : blk = Type1NodeBlock.encodeToBlk (c.levelNNodes lvl).entries)
      (hnode : node = updateParent sha blk c.request.currentGen (c.levelNNodes lvl).node.pba) :
      Executes sha c
        { c.setLevel (lvl + 1) { c.levelNNodes (lvl + 1) with
            entries := Function.update (c.levelNNodes (lvl + 1)).entries i node
            dirty := true } with
          cacheRequest := newCacheWrite (c.levelNNodes lvl).node.pba lvl blk }
  | recordRoot {lvl : Nat} {blk : Block} {node : Type1Node} (hl : Active c lvl)
      (hs : (c.levelNNodes lvl).state = .write) (hmax : lvl = c.request.mtMaxLvl)
      (hblk : blk = Type1NodeBlock.encodeToBlk (c.levelNNodes lvl).entries)
      (hnode : node = updateParent sha blk c.request.currentGen (c.levelNNodes lvl).node.pba) :
      Executes sha c
        { c with
          mtRoot := node
          rootDirty := true
          cacheRequest := newCacheWrite (c.levelNNodes lvl).node.pba lvl blk }
  | leave {lvl : Nat} {cacheRequest : LocalCacheRequest} (hl : Active c lvl)
      (hs : (c.levelNNodes lvl).state = .writeComplete ∨ (c.levelNNodes lvl).state = .complete)
      (hq : cacheRequest.state = .invalid) :
      Executes sha c { leaveNode c lvl (c.levelNNodes lvl) with cacheRequest := cacheRequest }

section Cases

variable {sha : Block → Hash} {c c' : Channel} {lvl : Nat}

theorem updateEntry_eq_ok {parent info : Type1Info} {node : Type1Node}
    (h : updateEntry parent node = .ok info) : ∃ i : Fin nrOfNodesPerBlk, i.val = parent.index ∧
      info = { parent with entries := Function.update parent.entries i node, dirty := true } := by
  obtain ⟨i, hi, h⟩ := Exec.bind_eq_ok.mp h
  exact ⟨i, entryIndex_eq_ok.mp hi, (Except.ok.inj h).symm⟩

theorem descends_eq_true {info : Type1Info} (h : descends c info = .ok true) :
    ∃ i : Fin nrOfNodesPerBlk, i.val = info.index ∧ i.val < c.request.mtEdges.toNat ∧
      (info.entries i).valid = true ∧ c.finished = false := by
  unfold descends at h
  split at h
  · rename_i hlt
    obtain ⟨i, hi, h⟩ := Exec.bind_eq_ok.mp h
    have hval := entryIndex_eq_ok.mp hi
    have hand := Except.ok.inj h
    rw [Bool.and_eq_true, Bool.not_eq_true'] at hand
    exact ⟨i, hval, hval ▸ hlt, hand.1, hand.2⟩
  · cases Except.ok.inj h

theorem handleLevelNNode_cases (hl : Active c lvl) (hq : c.cacheRequest.state = .invalid)
    (h : handleLevelNNode sha c lvl (c.levelNNodes lvl) = .ok c') : Executes sha c c' := by
  unfold handleLevelNNode at h
  split at h
  · rename_i hs
    exact absurd hs hl.entered
  · rename_i hs
    rw [← Except.ok.inj h]
    exact .ask hl hs
  · rename_i hs
    obtain ⟨b, hb, h⟩ := Exec.bind_eq_ok.mp h
    cases b with
    | true =>
      obtain ⟨i, hi, hlt, hv, hf⟩ := descends_eq_true hb
      exact .descend hl hs hi hlt hv hf h
    | false =>
      rw [← Except.ok.inj h]
      exact .through hl hs hb
  · rename_i hs
    dsimp only at h
    split at h
    · rename_i hmax
      rw [← Except.ok.inj h]
      exact .recordRoot hl hs hmax rfl rfl
    · rename_i hmax
      obtain ⟨info, hinfo, h⟩ := Exec.bind_eq_ok.mp h
      obtain ⟨i, hi, rfl⟩ := updateEntry_eq_ok hinfo
      rw [← Except.ok.inj h]
      exact .record hl hs hmax hi rfl rfl
  · rename_i hs
    rw [← Except.ok.inj h]
    exact .leave hl (.inl hs) rfl
  · rename_i hs
    have hc : { leaveNode c lvl (c.levelNNodes lvl) with cacheRequest := c.cacheRequest } = c' := by
      rw [← Except.ok.inj h]
      unfold leaveNode
      split <;> rfl
    rw [← hc]
    exact .leave hl (.inr hs) hq

theorem executeUpdate_cases (hq : c.cacheRequest.state = .invalid)
    (h : executeUpdate sha c = .ok c') : Executes sha c c' := by
  unfold executeUpdate at h
  obtain ⟨o, ho, h⟩ := Exec.bind_eq_ok.mp h
  unfold handleLevel1Node at ho
  dsimp only at ho
  split at ho
  · rename_i hs
    rw [← Except.ok.inj ho] at h
    change handleLevelNNodes sha c = .ok c' at h
    unfold handleLevelNNodes at h
    split at h
    · rename_i hnone
      rw [← Except.ok.inj h]
      rw [List.find?_eq_none] at hnone
      refine .rest hs fun l hl hle => ?_
      have hn := hnone l (List.mem_range'_1.mpr ⟨hl, by change l ≤ 6 at hle; change l < 2 + 5; omega⟩)
      simpa using hn
    · rename_i lvl hfind
      obtain ⟨hp, hmem, hbelow⟩ := List.find?_range'_eq_some.mp hfind
      rw [List.mem_range'_1] at hmem
      refine handleLevelNNode_cases ⟨hmem.1, ?_, of_decide_eq_true hp, fun l hl hlt => ?_, hs⟩ hq h
      · have hlt : lvl < 2 + 5 := hmem.2
        change lvl ≤ 6
        omega
      · simpa using hbelow l hl hlt
  · rename_i hs
    rw [← Except.ok.inj ho] at h
    rw [← Except.ok.inj h]
    exact .ask1 hs
  · rename_i hs
    obtain ⟨r, hr, ho⟩ := Exec.bind_eq_ok.mp ho
    rw [← Except.ok.inj ho] at h
    rw [← Except.ok.inj h]
    exact .exchange hs hr
  · rename_i hs
    obtain ⟨info, hinfo, ho⟩ := Exec.bind_eq_ok.mp ho
    obtain ⟨i, hi, rfl⟩ := updateEntry_eq_ok hinfo
    rw [← Except.ok.inj ho] at h
    rw [← Except.ok.inj h]
    exact .record1 hs hi rfl rfl
  · rename_i hs
    rw [← Except.ok.inj ho] at h
    rw [← Except.ok.inj h]
    exact .leave1 (.inl hs)
  · rename_i hs
    rw [← Except.ok.inj ho] at h
    rw [← Except.ok.inj h]
    exact .leave1 (.inr hs)

end Cases

/-! ## Every case keeps the books -/

section Walking

variable {sha : Block → Hash} {ok : PhysicalBlockAddress → Prop} {s : Config} {m lvl : Nat}
  {c' : Channel}

theorem Walking.level1 (h : Walking sha s m) (hs : s.chan.level1Node.state ≠ .invalid) :
    m = t2NodeLvl := by
  by_contra hm
  have hpos := h.path.pos
  have hbelow := h.path.below t2NodeLvl (by change 1 < m; change ¬ m = 1 at hm; omega)
  rw [view_one h.two_le] at hbelow
  exact hs hbelow

theorem Walking.inner (h : Walking sha s m) (hl : Active s.chan lvl) : m = lvl := by
  have hm1 : m ≠ t2NodeLvl := by
    intro hm
    have hentered := h.path.entered
    rw [hm, view_one h.two_le] at hentered
    exact hentered hl.idle
  have hpos := h.path.pos
  have h2 : 2 ≤ m := by
    change m ≠ 1 at hm1
    omega
  rcases Nat.lt_trichotomy m lvl with hlt | heq | hgt
  · have hentered := h.path.entered
    rw [view_inner h2 h.path.le] at hentered
    exact absurd (hl.below m h2 hlt) hentered
  · exact heq
  · have hbelow := h.path.below lvl hgt
    rw [view_inner hl.two_le (hgt.le.trans h.path.le)] at hbelow
    exact absurd hbelow hl.entered

/-- What the entry at the index of the parent refers to. -/
theorem Records.child {V : Nat → View} {l : Nat} {r : Type1Node} {i : Fin nrOfNodesPerBlk}
    (h : Records V l r) (hi : i.val = (V (l + 1)).index) : (V (l + 1)).child i = some r := by
  obtain ⟨j, hj, hc⟩ := h
  have hij : i = j := Fin.ext (hi.trans hj.symm)
  rwa [hij]

theorem updateParent_valid {blk : Block} {gen : Generation} {pba : PhysicalBlockAddress}
    (hg : gen ≠ 0) : (updateParent sha blk gen pba).valid = true := by
  unfold Type1Node.valid
  rw [decide_eq_true_iff]
  intro hn
  exact hg (congrArg Type1Node.gen hn)

/-- The level of a parent after it noted where a child is written. -/
theorem Walking.noted {i : Fin nrOfNodesPerBlk} {node : Type1Node} (h : Walking sha s m)
    (hlt : m < s.chan.request.mtMaxLvl) (hi : i.val = (s.chan.levelNNodes (m + 1)).index)
    (hv : node.valid = true) :
    ({ s.chan.levelNNodes (m + 1) with
        entries := Function.update (s.chan.levelNNodes (m + 1)).entries i node
        dirty := true } : Type1Info).view s.chan.request.mtEdges =
      { s.chan.view (m + 1) with
        dirty := true
        child := Function.update (s.chan.view (m + 1)).child i (some node) } := by
  have hpos := h.path.pos
  have hview := view_inner (c := s.chan) (l := m + 1) (by omega) hlt
  obtain ⟨_, r, hr⟩ := h.path.above_succ
  have hchild := hr.child (i := i) (by rw [hview]; exact hi)
  rw [hview] at hchild ⊢
  have hlt' := (childOf_eq_some.mp hchild).1.1
  unfold Type1Info.view
  dsimp only
  rw [childOf_update hlt' hv]

theorem layout_leaves (edges : UInt64) (entries : Type2NodeBlock) :
    (layout edges).leaves (Type2NodeBlock.encodeToBlk entries) = entriesOf edges entries := by
  have hdecode : Type2NodeBlock.codec.decode (Type2NodeBlock.encodeToBlk entries).bytes =
      entries := by
    have hd := Type2NodeBlock.codec.decode_encode entries []
    rwa [List.append_nil] at hd
  change entriesOf edges (Type2NodeBlock.codec.decode _) = _
  rw [hdecode]

theorem layout_child (edges : UInt64) (entries : Type1NodeBlock) :
    (layout edges).child (Type1NodeBlock.encodeToBlk entries) = childOf edges entries := by
  change childOf edges (Type1NodeBlock.decodeFromBlk _) = _
  rw [Type1NodeBlock.decode_encode]

theorem shows_leaves {edges : UInt64} {info : Type2Info} :
    Shows edges t2NodeLvl (Type2NodeBlock.encodeToBlk info.entries) (info.view edges) :=
  ⟨(layout_leaves edges info.entries).symm, rfl⟩

theorem shows_children {edges : UInt64} {info : Type1Info} (h2 : 2 ≤ lvl) :
    Shows edges lvl (Type1NodeBlock.encodeToBlk info.entries) (info.view edges) := by
  have hne : lvl ≠ t2NodeLvl := by
    change lvl ≠ 1
    omega
  refine ⟨?_, ?_⟩
  · rw [if_neg hne]
    rfl
  · rw [if_neg hne, layout_child]
    rfl

/-- The exchange of entries. -/
theorem Walking.exchange {r : Channel × Bool} (h : Walking sha s m)
    (hg : s.chan.request.currentGen ≠ 0) (hq : s.chan.cacheRequest.state = .invalid)
    (hs : s.chan.level1Node.state = .readComplete) (hr : handleLevel0Nodes s.chan = .ok r)
    (hc : c' = { r.1 with level1Node := { r.1.level1Node with
      state := if r.2 then NodeState.write else .complete } }) : Goes sha ok s ⟨c', s.disk⟩ := by
  obtain rfl := h.level1 (by rw [hs]; exact nofun)
  have hone := view_one h.two_le
  have hstate : (s.chan.view t2NodeLvl).state = .readComplete := by
    rw [hone]
    exact hs
  have hready : Ready s.chan := by
    refine ⟨h.two_le, h.le_max, h.off, fun l hl hle => ?_, h.unfinished (.inr hstate), h.success⟩
    by_cases hl1 : l = t2NodeLvl
    · rw [hl1, hstate]
      rfl
    · rw [(h.path.above l (by change 1 < l; change l ≠ 1 at hl1; omega) (by omega)).1]
      rfl
  -- the node was entered, so there are edges
  have hedges : 0 < s.chan.request.mtEdges.toNat := by
    obtain ⟨_, _, i, _, hchild⟩ := h.path.above_succ
    rw [view_inner (c := s.chan) (l := t2NodeLvl + 1) le_rfl h.two_le] at hchild
    exact Nat.lt_of_le_of_lt (Nat.zero_le _) (childOf_eq_some.mp hchild).1.1
  have his : ∀ i ∈ (List.finRange nrOfNodesPerBlk).filter (fun i : Fin nrOfNodesPerBlk =>
      decide (UInt64.ofNat i ≤ s.chan.request.mtEdges - 1)),
      i.val < s.chan.request.mtEdges.toNat := by
    intro i hi
    have hle := of_decide_eq_true (List.mem_filter.mp hi).2
    have hlt : i.val < 64 := i.isLt
    rw [UInt64.le_iff_toNat_le, UInt64.toNat_ofNat', UInt64.toNat_sub_of_le] at hle
    · change i.val % 2 ^ 64 ≤ s.chan.request.mtEdges.toNat - 1 at hle
      omega
    · rw [UInt64.le_iff_toNat_le]
      exact hedges
  unfold handleLevel0Nodes at hr
  obtain ⟨hre, hnot, hfin, hbooks⟩ := handleLevel0Loop_spec sha ok (d := s.disk)
    hready hg his hr
  cases hhandled : r.2 with
  | false =>
    obtain ⟨hsame, _⟩ := hnot hhandled
    rw [hhandled, hsame] at hc
    have hview := view_setLevel1 (c := s.chan)
      (x := { s.chan.level1Node with state := .complete }) h.two_le
    have hdirty : (s.chan.view t2NodeLvl).dirty = false := by
      rw [hone]
      unfold Type2Info.view
      rw [hs]
      rfl
    apply h.through hstate (t := .complete)
      (v := ({ s.chan.level1Node with state := .complete } : Type2Info).view s.chan.request.mtEdges)
    · rw [hc]
      exact Keeps.setLevel1
    · rw [hdirty]
      rfl
    · rw [hc]
      exact hview
    · rw [hone]
      unfold Type2Info.view
      rw [hs]
      rfl
    · rw [hc]
      exact hq
  | true =>
    rw [hhandled] at hc
    let info : Type2Info := { r.1.level1Node with state := .write }
    have htwo : 2 ≤ r.1.request.mtMaxLvl := by
      rw [hre.request]
      exact h.two_le
    have hview : c'.view =
        Function.update r.1.view t2NodeLvl (info.view s.chan.request.mtEdges) := by
      rw [hc, ← hre.request]
      exact view_setLevel1 (c := r.1) htwo
    have hself : (c'.view t2NodeLvl).state = .write := by
      rw [hview, Function.update_self]
      rfl
    have halike : ∀ l, l ≠ t2NodeLvl → Alike (c'.view l) (s.chan.view l) := by
      intro l hl
      rw [hview, Function.update_of_ne hl]
      exact hre.view l
    have hrequest : c'.request = s.chan.request := by
      rw [hc]
      exact hre.request
    have htouched : ∀ l, t2NodeLvl < l → Touched c'.view l := by
      intro l hl
      refine ⟨t2NodeLvl, le_rfl, hl.le, ?_, ?_⟩
      · rw [hself]
        exact nofun
      · rw [hview, Function.update_self]
        rfl
    have hfocus : Focus sha s.chan.request.mtEdges s.disk c'.view t2NodeLvl := by
      refine { entered := ?_, reading := ?_, kept := ?_, complete := ?_, written := ?_ }
      · rw [hself]
        exact nofun
      · intro hst
        rw [hself] at hst
        cases hst
      · intro hst
        rw [hself] at hst
        rcases hst with hst | hst <;> cases hst
      · intro hst
        rw [hself] at hst
        cases hst
      · intro hst
        rw [hself] at hst
        cases hst
    have hpath : Path sha s.chan.request.mtEdges s.disk s.chan.request.mtMaxLvl c'.view
        t2NodeLvl := by
      refine { toFocus := hfocus, pos := le_rfl, le := h.path.le, above := fun l hl hle => ?_,
               below := fun l hl => ?_, upper := fun l hl _ ht => absurd (htouched l hl) ht }
      · obtain ⟨hsl, rec, i, hi, hchild⟩ := h.path.above l hl hle
        have ha := halike l (Nat.ne_of_gt hl)
        have hl' : l - 1 + 1 = l := Nat.sub_add_cancel (Nat.le_of_lt hl)
        rw [hl'] at hi hchild
        refine ⟨ha.state.trans hsl, rec, i, ?_, ?_⟩
        · rw [hl', ha.index]
          exact hi
        · rw [hl', ha.child]
          exact hchild
      · rw [(halike l (Nat.ne_of_lt hl)).state]
        exact h.path.below l hl
    refine ⟨hrequest, .inl ⟨t2NodeLvl, ?_⟩, ?_⟩
    · refine ⟨?_, ?_, ?_, ?_, fun l hl => ?_, ?_, fun hst => ?_, fun hne => ?_⟩
      · change Path sha c'.request.mtEdges s.disk c'.request.mtMaxLvl c'.view _
        rw [hrequest]
        exact hpath
      · change c'.state = _
        rw [hc]
        exact hre.state.trans h.updating
      · change 2 ≤ c'.request.mtMaxLvl
        rw [hrequest]
        exact h.two_le
      · change c'.request.mtMaxLvl ≤ _
        rw [hrequest]
        exact h.le_max
      · change c'.request.mtMaxLvl < l at hl
        rw [hrequest] at hl
        change c'.levelNNodes l = _
        rw [hc]
        exact (hre.off l hl).trans (h.off l hl)
      · change c'.success = c'.finished
        rw [hc]
        exact hre.success
      · change (c'.view t2NodeLvl).state = _ ∨ (c'.view t2NodeLvl).state = _ at hst
        rw [hself] at hst
        rcases hst with hst | hst <;> cases hst
      · change c'.cacheRequest.state ≠ _ at hne
        rw [hc] at hne
        exact absurd (hre.cacheRequest ▸ hq) hne
    · have hheld : (info.view s.chan.request.mtEdges).state.held =
          (r.1.view t2NodeLvl).state.held := by
        rw [(hre.view t2NodeLvl).state, hstate]
        rfl
      have hr1 := view_one htwo
      rw [hre.request] at hr1
      have hquiet : Quiet r.1.view t2NodeLvl (info.view s.chan.request.mtEdges) := by
        refine ⟨hheld, ?_, fun _ => ?_, fun _ _ => ?_⟩ <;> rw [hr1] <;> rfl
      have hsame : Config.books ⟨c', s.disk⟩ = Config.books ⟨r.1, s.disk⟩ := by
        unfold Config.books
        dsimp only
        rw [hview, hrequest, hre.request, hquiet.stored,
          heldNodes_update hheld (by rw [hr1]; rfl), hc]
      rw [hsame]
      exact hbooks

/-- Each case of `_execute_update` keeps the books. -/
theorem Walking.executes (h : Walking sha s m) (hg : s.chan.request.currentGen ≠ 0)
    (hq : s.chan.cacheRequest.state = .invalid) (hc : Executes sha s.chan c') :
    Goes sha ok s ⟨c', s.disk⟩ := by
  have hone := view_one h.two_le
  cases hc with
  | rest hidle hs =>
    exfalso
    have hpos := h.path.pos
    have hentered := h.path.entered
    rcases h.one_or_inner with ⟨hm, hview⟩ | ⟨h2, hview⟩
    · rw [hview] at hentered
      exact hentered hidle
    · rw [hview] at hentered
      exact hentered (hs m h2 (h.path.le.trans h.le_max))
  | ask1 hs =>
    obtain rfl := h.level1 (by rw [hs]; exact nofun)
    refine h.ask (by rw [hone]; exact hs) Keeps.setCache rfl ?_
    rw [hone]
    rfl
  | exchange hs hr => exact h.exchange hg hq hs hr rfl
  | @record1 i blk node hs hi hblk hnode =>
    obtain rfl := h.level1 (by rw [hs]; exact nofun)
    have hlt : t2NodeLvl < s.chan.request.mtMaxLvl := h.two_le
    refine h.record (b := blk) (i := i) (by rw [hone]; exact hs)
      ((Keeps.setLevel h.two_le _).trans Keeps.setCache) (view_setLevel le_rfl h.two_le) ?_ ?_ ?_ ?_
    · rw [view_inner (c := s.chan) (l := t2NodeLvl + 1) le_rfl h.two_le]
      exact hi
    · rw [hone]
      change Type1Info.view _ _ = { s.chan.view (t2NodeLvl + 1) with
        dirty := true
        child := Function.update (s.chan.view (t2NodeLvl + 1)).child i
          (some (updateParent sha blk s.chan.request.currentGen s.chan.level1Node.node.pba)) }
      rw [← hnode]
      exact h.noted hlt hi (hnode ▸ updateParent_valid hg)
    · rw [hone, hblk]
      exact shows_leaves
    · rw [hone]
      rfl
  | leave1 hs =>
    obtain rfl := h.level1 (by rcases hs with hs | hs <;> rw [hs] <;> exact nofun)
    have hview := view_inner (c := s.chan) (l := t2NodeLvl + 1) le_rfl h.two_le
    refine h.ascend h.two_le (by rw [hone]; exact hs) (v :=
      ({ s.chan.level1Node with state := .invalid } : Type2Info).view s.chan.request.mtEdges) rfl
      ((Keeps.setLevel h.two_le _).trans Keeps.setLevel1) ?_ rfl hq
    rw [view_setLevel1 (c := s.chan.setLevel mtLowestT1Lvl _) h.two_le,
      view_setLevel (show 2 ≤ mtLowestT1Lvl from le_rfl) h.two_le,
      Function.update_comm (by decide), hview]
    rfl
  | ask hl hs =>
    obtain rfl := h.inner hl
    have hview := view_inner hl.two_le h.path.le
    refine h.ask (by rw [hview]; exact hs) Keeps.setCache rfl ?_
    rw [hview]
    rfl
  | @descend lvl i c' hl hs hi hlt hv hf hc =>
    obtain rfl := h.inner hl
    have hview := view_inner hl.two_le h.path.le
    have hchild : Records s.chan.view (m - 1) ((s.chan.levelNNodes m).entries i) := by
      have hsucc : m - 1 + 1 = m := Nat.sub_add_cancel h.path.pos
      refine ⟨i, ?_⟩
      rw [hsucc, hview]
      exact ⟨hi, childOf_eq_some.mpr ⟨⟨hlt, hv⟩, rfl⟩⟩
    obtain ⟨m, rfl⟩ : ∃ k, m = k + 1 := ⟨m - 1, (Nat.sub_add_cancel h.path.pos).symm⟩
    rw [Nat.add_sub_cancel] at hchild
    have hm : 1 ≤ m := by
      have := hl.two_le
      omega
    unfold enterChild at hc
    obtain ⟨i', hi', hc⟩ := Exec.bind_eq_ok.mp hc
    obtain rfl : i' = i := Fin.ext ((entryIndex_eq_ok.mp hi').trans hi.symm)
    dsimp only at hc
    split at hc
    · rename_i hlow
      obtain rfl : m = t2NodeLvl := Nat.succ.inj hlow
      rw [← Except.ok.inj hc]
      exact h.descend hm (by rw [hview]; exact hs) hf Keeps.setLevel1 (view_setLevel1 h.two_le)
        hchild rfl rfl hq
    · rename_i hlow
      have h2 : 2 ≤ m := by
        change ¬ m + 1 = 2 at hlow
        omega
      have hle : m ≤ s.chan.request.mtMaxLvl := Nat.le_of_succ_le h.path.le
      rw [← Except.ok.inj hc]
      exact h.descend hm (by rw [hview]; exact hs) hf (Keeps.setLevel hle _)
        (view_setLevel h2 hle) hchild rfl rfl hq
  | @through lvl hl hs hd =>
    obtain rfl := h.inner hl
    have hview := view_inner hl.two_le h.path.le
    refine h.through (by rw [hview]; exact hs) (Keeps.setLevel h.path.le _) rfl
      (view_setLevel hl.two_le h.path.le) ?_ hq
    rw [hview]
    rfl
  | @record lvl i blk node hl hs hmax hi hblk hnode =>
    obtain rfl := h.inner hl
    have hview := view_inner hl.two_le h.path.le
    have hlt : m < s.chan.request.mtMaxLvl := Nat.lt_of_le_of_ne h.path.le hmax
    have h2 := hl.two_le
    refine h.record (b := blk) (i := i) (by rw [hview]; exact hs)
      ((Keeps.setLevel hlt _).trans Keeps.setCache) (view_setLevel (by omega) hlt) ?_ ?_ ?_ ?_
    · rw [view_inner (c := s.chan) (l := m + 1) (by omega) hlt]
      exact hi
    · rw [hview]
      change Type1Info.view _ _ = { s.chan.view (m + 1) with
        dirty := true
        child := Function.update (s.chan.view (m + 1)).child i
          (some (updateParent sha blk s.chan.request.currentGen (s.chan.levelNNodes m).node.pba)) }
      rw [← hnode]
      exact h.noted hlt hi (hnode ▸ updateParent_valid hg)
    · rw [hview, hblk]
      exact shows_children h2
    · rw [hview]
      rfl
  | @recordRoot lvl blk node hl hs hmax hblk hnode =>
    obtain rfl := h.inner hl
    have hview := view_inner hl.two_le h.path.le
    have hroot : s.chan.view (m + 1) = rootView s.chan.mtRoot := by
      rw [hmax]
      exact view_root
    have hpos : 0 < nrOfNodesPerBlk := nrOfNodesPerBlk_pos
    refine h.record (b := blk) (i := ⟨0, hpos⟩) (v := rootView node) (by rw [hview]; exact hs) ?_ ?_ ?_ ?_ ?_ ?_
    · exact ⟨rfl, rfl, rfl, rfl, rfl, fun _ _ => rfl⟩
    · rw [hmax]
      exact view_setRoot
    · rw [hroot]
      rfl
    · rw [hroot, hview]
      change _ = { rootView s.chan.mtRoot with
        dirty := true
        child := Function.update (rootView s.chan.mtRoot).child ⟨0, hpos⟩
          (some (updateParent sha blk s.chan.request.currentGen (s.chan.levelNNodes m).node.pba)) }
      rw [← hnode]
      unfold rootView
      congr 1
      funext j
      by_cases hj : j = ⟨0, hpos⟩
      · rw [hj, Function.update_self]
        rfl
      · have hz : ¬ j.val = 0 := fun hz => hj (Fin.ext hz)
        rw [Function.update_of_ne hj]
        change (if j.val = 0 then some node else none) =
          if j.val = 0 then some s.chan.mtRoot else none
        rw [if_neg hz, if_neg hz]
    · rw [hview, hblk]
      exact shows_children hl.two_le
    · rw [hview]
      rfl
  | @leave lvl cacheRequest hl hs hq' =>
    obtain rfl := h.inner hl
    have h2 := hl.two_le
    have hview := view_inner h2 h.path.le
    unfold leaveNode
    by_cases hmax : m = s.chan.request.mtMaxLvl
    · rw [if_pos hmax]
      refine h.finish hmax (by rw [hview]; exact hs) (v :=
        ({ s.chan.levelNNodes m with state := .invalid } : Type1Info).view s.chan.request.mtEdges)
        rfl ?_ ?_ ?_
      · exact (Keeps.setLevel (c := { s.chan with state := .complete }) h.path.le _).trans
          Keeps.setCache
      · exact view_setLevel (c := { s.chan with state := .complete }) h2 h.path.le
      · exact hq'
    · rw [if_neg hmax]
      have hlt : m < s.chan.request.mtMaxLvl := Nat.lt_of_le_of_ne h.path.le hmax
      have hup := view_inner (c := s.chan) (l := m + 1) (by omega) hlt
      refine h.ascend hlt (by rw [hview]; exact hs) (v :=
        ({ s.chan.levelNNodes m with state := .invalid } : Type1Info).view s.chan.request.mtEdges)
        rfl (((Keeps.setLevel hlt _).trans (Keeps.setLevel (c := s.chan.setLevel (m + 1) _)
          h.path.le _)).trans Keeps.setCache) ?_ rfl hq'
      change Channel.view (Channel.setLevel (s.chan.setLevel (m + 1) _) m _) = _
      rw [view_setLevel (c := s.chan.setLevel (m + 1) _) h2 h.path.le,
        view_setLevel (by omega) hlt, Function.update_comm (Nat.succ_ne_self m), hup]
      rfl

/-- The answer to a read. -/
theorem Walking.readComplete (h : Walking sha s m)
    (hc : CacheRight sha s.chan.request.mtEdges s.chan.request.currentGen s.chan.view m
      s.chan.cacheRequest) (hop : s.chan.cacheRequest.op = .read)
    (hr : readComplete sha s.chan (s.disk s.chan.cacheRequest.pba) = .ok c') :
    (c'.request = s.chan.request ∧ c'.state = .treeHashMismatch) ∨
      Goes sha ok s ⟨c', s.disk⟩ := by
  have hs := hc.read hop
  have hk : Keeps s.chan { s.chan with cacheRequest := {} } := Keeps.setCache
  unfold MetaTree.readComplete at hr
  dsimp only at hr
  rw [hc.level, hc.pba] at hr
  split at hr
  · rename_i hlt
    have h2 : 2 ≤ m := hlt
    have hview := view_inner h2 h.path.le
    rw [hview] at hr
    split at hr
    · rename_i hsha
      right
      rw [← Except.ok.inj hr]
      refine h.load hs (hk.trans (Keeps.setLevel (c := { s.chan with cacheRequest := {} }) h.path.le _))
        (view_setLevel (c := { s.chan with cacheRequest := {} }) h2 h.path.le) rfl ?_ ?_ ?_ hsha rfl
      · rw [hview]
        rfl
      · rw [hview]
        rfl
      · have hne : m ≠ t2NodeLvl := by
          change m ≠ 1
          omega
        refine ⟨?_, ?_⟩
        · rw [if_neg hne]
          rfl
        · rw [if_neg hne]
          rfl
    · rw [← Except.ok.inj hr]
      exact .inl ⟨rfl, rfl⟩
  · rename_i hlt
    split at hr
    · rename_i hm
      subst hm
      have hone := view_one h.two_le
      rw [hone] at hr
      split at hr
      · rename_i hsha
        obtain ⟨entries, he, hr⟩ := Exec.bind_eq_ok.mp hr
        right
        rw [← Except.ok.inj hr]
        refine h.load hs (hk.trans Keeps.setLevel1)
          (view_setLevel1 (c := { s.chan with cacheRequest := {} }) h.two_le) rfl ?_ ?_ ?_ hsha rfl
        · rw [hone]
          rfl
        · have hst : s.chan.level1Node.state = .read := by
            rw [hone] at hs
            exact hs
          rw [hone]
          unfold Type2Info.view
          rw [hst]
          rfl
        · unfold Type2NodeBlock.decodeFromBlk at he
          obtain ⟨_, _, he⟩ := Exec.bind_eq_ok.mp he
          refine ⟨?_, rfl⟩
          rw [if_pos rfl, ← Except.ok.inj he]
          rfl
      · rw [← Except.ok.inj hr]
        exact .inl ⟨rfl, rfl⟩
    · cases hr

/-- The answer to a write. -/
theorem Walking.writeComplete (h : Walking sha s m)
    (hc : CacheRight sha s.chan.request.mtEdges s.chan.request.currentGen s.chan.view m
      s.chan.cacheRequest) (hop : s.chan.cacheRequest.op = .write)
    (hok : ok s.chan.cacheRequest.pba) (hnodup : s.books.nodeAddrs.Nodup)
    (hw : writeComplete s.chan = .ok c') : Goes sha ok s
      ⟨c', Function.update s.disk s.chan.cacheRequest.pba s.chan.cacheRequest.blockData⟩ := by
  have hk : Keeps s.chan { s.chan with cacheRequest := {} } := Keeps.setCache
  unfold MetaTree.writeComplete at hw
  dsimp only at hw
  rw [hc.level] at hw
  split at hw
  · rename_i hlt
    have h2 : 2 ≤ m := hlt
    have hview := view_inner h2 h.path.le
    rw [← Except.ok.inj hw]
    refine h.store hc hop hok hnodup (hk.trans (Keeps.setLevel (c := { s.chan with cacheRequest := {} }) h.path.le _))
      (view_setLevel (c := { s.chan with cacheRequest := {} }) h2 h.path.le) rfl ?_ rfl
    rw [hview]
    exact fun hd => hd
  · split at hw
    · rename_i hm
      subst hm
      rw [← Except.ok.inj hw]
      exact h.store hc hop hok hnodup (hk.trans Keeps.setLevel1)
        (view_setLevel1 (c := { s.chan with cacheRequest := {} }) h.two_le) rfl (fun _ => rfl) rfl
    · cases hw

/-- One step of a request that is being worked on. -/
theorem Walking.step {s' : Config} {e : Event} (h : Walking sha s m)
    (hg : s.chan.request.currentGen ≠ 0) (hnodup : s.books.nodeAddrs.Nodup)
    (hok : s.chan.cacheRequest.state ≠ .invalid → s.chan.cacheRequest.op = .write →
      ok s.chan.cacheRequest.pba) (hs : step sha s e = .ok s') :
    (s'.chan.request = s.chan.request ∧ Failed s') ∨ Goes sha ok s s' := by
  cases e with
  | execute =>
    obtain ⟨c', hc', hs⟩ := Exec.bind_eq_ok.mp hs
    rw [← Except.ok.inj hs]
    right
    unfold execute at hc'
    split at hc'
    · rw [← Except.ok.inj hc']
      exact ⟨rfl, .inl ⟨m, h⟩, .refl⟩
    · rename_i hq
      rw [h.updating] at hc'
      have hq := not_not.mp hq
      exact h.executes hg hq (executeUpdate_cases hq hc')
  | dropGeneratedRequest =>
    obtain ⟨c', hc', hs⟩ := Exec.bind_eq_ok.mp hs
    rw [← Except.ok.inj hs]
    exact .inr (h.drop hc')
  | generatedRequestComplete success =>
    obtain ⟨_, hprog, hs⟩ := Exec.bind_eq_ok.mp hs
    rw [Exec.assert_eq_ok, decide_eq_true_iff] at hprog
    have hne : s.chan.cacheRequest.state ≠ .invalid := by
      rw [hprog]
      exact nofun
    have hc := h.cache hne
    cases success with
    | false =>
      rw [← Except.ok.inj hs]
      exact .inl ⟨rfl, .inl ⟨rfl, rfl⟩⟩
    | true =>
      cases hop : s.chan.cacheRequest.op with
      | read =>
        simp only [if_true, hop] at hs
        obtain ⟨c', hc', hs⟩ := Exec.bind_eq_ok.mp hs
        rw [← Except.ok.inj hs]
        rcases (h.readComplete hc hop hc' : _ ∨ Goes sha ok s _) with ⟨hreq, hfail⟩ | hgoes
        · exact .inl ⟨hreq, .inr hfail⟩
        · exact .inr hgoes
      | write =>
        simp only [if_true, hop] at hs
        obtain ⟨c', hc', hs⟩ := Exec.bind_eq_ok.mp hs
        rw [← Except.ok.inj hs]
        exact .inr (h.writeComplete hc hop (hok hne hop) hnodup hc')

/-- A request that is done stays so. -/
theorem Done.step {s' : Config} {e : Event} (h : Done s) (hs : MetaTree.step sha s e = .ok s') :
    s' = s := by
  cases e with
  | execute =>
    obtain ⟨c', hc', hs⟩ := Exec.bind_eq_ok.mp hs
    unfold execute at hc'
    rw [if_neg (not_not.mpr h.cache), h.complete] at hc'
    rw [← Except.ok.inj hs, ← Except.ok.inj hc']
  | dropGeneratedRequest =>
    obtain ⟨c', hc', hs⟩ := Exec.bind_eq_ok.mp hs
    unfold dropGeneratedRequest at hc'
    rw [h.cache] at hc'
    cases hc'
  | generatedRequestComplete success =>
    unfold MetaTree.step generatedRequestComplete at hs
    rw [h.cache] at hs
    cases hs

/-- A request that has failed does not succeed any more, nor does it write
anything else. -/
theorem Failed.step {s' : Config} {e : Event} (h : Failed s)
    (hs : MetaTree.step sha s e = .ok s') :
    s'.chan.request = s.chan.request ∧ Failed s' ∧ (s'.chan.cacheRequest.state = .invalid ∨
      s.chan.cacheRequest.state ≠ .invalid ∧ s'.chan.cacheRequest.op = s.chan.cacheRequest.op ∧
        s'.chan.cacheRequest.pba = s.chan.cacheRequest.pba) := by
  cases e with
  | execute =>
    obtain ⟨c', hc', hs⟩ := Exec.bind_eq_ok.mp hs
    rw [← Except.ok.inj hs]
    unfold execute at hc'
    split at hc'
    · rename_i hq
      rw [← Except.ok.inj hc']
      exact ⟨rfl, h, .inr ⟨hq, rfl, rfl⟩⟩
    · rename_i hq
      have hq := not_not.mp hq
      rcases h with ⟨hst, hsucc⟩ | hst
      · rw [hst] at hc'
        rw [← Except.ok.inj hc']
        exact ⟨rfl, .inl ⟨hst, hsucc⟩, .inl hq⟩
      · rw [hst] at hc'
        rw [← Except.ok.inj hc']
        exact ⟨rfl, .inl ⟨rfl, rfl⟩, .inl hq⟩
  | dropGeneratedRequest =>
    obtain ⟨c', hc', hs⟩ := Exec.bind_eq_ok.mp hs
    obtain ⟨_, hpend, hc'⟩ := Exec.bind_eq_ok.mp hc'
    rw [Exec.assert_eq_ok, decide_eq_true_iff] at hpend
    rw [← Except.ok.inj hs, ← Except.ok.inj hc']
    refine ⟨rfl, h, .inr ⟨?_, rfl, rfl⟩⟩
    rw [hpend]
    exact nofun
  | generatedRequestComplete success =>
    obtain ⟨_, hprog, hs⟩ := Exec.bind_eq_ok.mp hs
    rw [Exec.assert_eq_ok, decide_eq_true_iff] at hprog
    cases success with
    | false =>
      rw [← Except.ok.inj hs]
      refine ⟨rfl, .inl ⟨rfl, rfl⟩, .inr ⟨?_, rfl, rfl⟩⟩
      rw [hprog]
      exact nofun
    | true =>
      cases hop : s.chan.cacheRequest.op with
      | read =>
        simp only [if_true, hop] at hs
        obtain ⟨c', hc', hs⟩ := Exec.bind_eq_ok.mp hs
        rw [← Except.ok.inj hs]
        unfold MetaTree.readComplete at hc'
        dsimp only at hc'
        split at hc'
        · split at hc'
          · rw [← Except.ok.inj hc']
            exact ⟨rfl, h, .inl rfl⟩
          · rw [← Except.ok.inj hc']
            exact ⟨rfl, .inr rfl, .inl rfl⟩
        · split at hc'
          · split at hc'
            · obtain ⟨_, _, hc'⟩ := Exec.bind_eq_ok.mp hc'
              rw [← Except.ok.inj hc']
              exact ⟨rfl, h, .inl rfl⟩
            · rw [← Except.ok.inj hc']
              exact ⟨rfl, .inr rfl, .inl rfl⟩
          · cases hc'
      | write =>
        simp only [if_true, hop] at hs
        obtain ⟨c', hc', hs⟩ := Exec.bind_eq_ok.mp hs
        rw [← Except.ok.inj hs]
        unfold MetaTree.writeComplete at hc'
        dsimp only at hc'
        split at hc'
        · rw [← Except.ok.inj hc']
          exact ⟨rfl, h, .inl rfl⟩
        · split at hc'
          · rw [← Except.ok.inj hc']
            exact ⟨rfl, h, .inl rfl⟩
          · cases hc'

end Walking

/-! ## Requests -/

/-- A meta tree whose nodes and entries have different addresses. -/
structure Distinct (disk : Disk) (req : Request) (mtRoot : Type1Node) : Prop where
  two_le : 2 ≤ req.mtMaxLvl
  nodup : ((nodesOf req.mtEdges disk req.mtMaxLvl mtRoot).map Type1Node.pba +
    (leavesOf req.mtEdges disk req.mtMaxLvl mtRoot).map Type2Node.pba).Nodup

/-- A meta tree all of whose nodes match their hashes. -/
structure WellFormed (sha : Block → Hash) (disk : Disk) (req : Request) (mtRoot : Type1Node) :
    Prop extends Distinct disk req mtRoot where
  matched : Matches sha disk (nodesOf req.mtEdges disk req.mtMaxLvl mtRoot)

/-- One step of the channel. -/
def Tr (sha : Block → Hash) (s : Config) (e : Event) (s' : Config) : Prop := step sha s e = .ok s'

section Runs

variable {sha : Block → Hash} {ok : PhysicalBlockAddress → Prop} {disk : Disk} {req : Request}
  {mtRoot : Type1Node} {c c₀ : Channel} {s s' : Config} {hist : List (Config × Event)}

/-- The books on a tree no node of which is in memory. -/
theorem books_released (hr : ∀ l, l ≤ s.chan.request.mtMaxLvl →
      (s.chan.view l).state.held = false) (hpos : 1 ≤ s.chan.request.mtMaxLvl) :
    s.books =
      { nodes := 0
        refs := nodesOf s.chan.request.mtEdges s.disk s.chan.request.mtMaxLvl s.chan.mtRoot
        leaves := leavesOf s.chan.request.mtEdges s.disk s.chan.request.mtMaxLvl s.chan.mtRoot
        disk := s.disk
        newPba := if s.chan.finished then some s.chan.newPba else none } := by
  have hheld : heldNodes s.chan.request.mtMaxLvl s.chan.view = 0 := by
    apply Finset.sum_eq_zero
    intro l hl
    unfold heldNode
    rw [hr l (Finset.mem_Icc.mp hl).2]
    rfl
  have hbelow : (layout s.chan.request.mtEdges).below s.disk (s.chan.request.mtMaxLvl - 1)
      (rootView s.chan.mtRoot).child Finset.univ =
      (layout s.chan.request.mtEdges).content s.disk (s.chan.request.mtMaxLvl - 1)
        s.chan.mtRoot := by
    unfold TreeLayout.below
    rw [Finset.sum_eq_single ⟨0, nrOfNodesPerBlk_pos⟩]
    · rfl
    · intro j _ hj
      have hz : ¬ j.val = 0 := fun hz => hj (Fin.ext hz)
      change (if j.val = 0 then some s.chan.mtRoot else none).elim 0 _ = _
      rw [if_neg hz]
      rfl
    · intro h
      exact absurd (Finset.mem_univ _) h
  have hstored : stored s.chan.request.mtEdges s.disk s.chan.request.mtMaxLvl s.chan.view =
      (layout s.chan.request.mtEdges).content s.disk (s.chan.request.mtMaxLvl - 1)
        s.chan.mtRoot := by
    unfold stored
    rw [Finset.sum_eq_single (s.chan.request.mtMaxLvl + 1)]
    · unfold part slots
      rw [view_root, Nat.add_sub_cancel, hr _ le_rfl]
      change (0, 0) + (layout _).below s.disk (s.chan.request.mtMaxLvl - 1) _ Finset.univ = _
      rw [hbelow, Prod.mk_zero_zero, zero_add]
    · intro l hl hne
      unfold part
      rw [hr l (by have := (Finset.mem_Icc.mp hl).2; omega)]
      rfl
    · intro h
      exact absurd (Finset.mem_Icc.mpr ⟨by omega, le_rfl⟩) h
  rw [books_def, hheld, hstored]
  rfl

variable (sha) in
/-- A request that was just submitted. -/
theorem submitRequest_walking (hd : Distinct disk req mtRoot)
    (hidle : c.cacheRequest.state = .invalid) (hsub : submitRequest c req mtRoot = .ok c₀) :
    Walking sha ⟨c₀, disk⟩ req.mtMaxLvl ∧ c₀.request = req ∧
      Config.books ⟨c₀, disk⟩ = Books.ofTree req.mtEdges disk req.mtMaxLvl mtRoot := by
  have htwo := hd.two_le
  unfold submitRequest at hsub
  obtain ⟨_, _, hsub⟩ := Exec.bind_eq_ok.mp hsub
  split at hsub
  · rename_i hmax
    have hmax : req.mtMaxLvl < 7 := hmax
    have hc₀ := Except.ok.inj hsub
    have hreq : c₀.request = req := by rw [← hc₀]
    have hview : ∀ l, l ≤ req.mtMaxLvl → c₀.view l =
        if l = req.mtMaxLvl then
          (⟨.read, mtRoot, fun _ => {}, invalidNodeIndex, false,
            nodeVolatile mtRoot req.currentGen⟩ : Type1Info).view req.mtEdges
        else if l = t2NodeLvl then ({} : Type2Info).view req.mtEdges
        else ({} : Type1Info).view req.mtEdges := by
      intro l hl
      unfold Channel.view
      rw [hreq, if_neg (by omega), ← hc₀]
      dsimp only
      by_cases hlm : l = req.mtMaxLvl
      · have hne : ¬ l = t2NodeLvl := by
          change ¬ l = 1
          omega
        rw [if_neg hne, if_pos hlm, hlm, Function.update_self]
      · rw [if_neg hlm, Function.update_of_ne hlm]
    have htop := hview _ le_rfl
    rw [if_pos rfl] at htop
    have hlow : ∀ l, l < req.mtMaxLvl → (c₀.view l).state = .invalid := by
      intro l hl
      rw [hview l hl.le, if_neg (Nat.ne_of_lt hl)]
      split <;> rfl
    have hroot : c₀.view (req.mtMaxLvl + 1) = rootView mtRoot := by
      have hr := view_root (c := c₀)
      rw [hreq] at hr
      rw [hr, ← hc₀]
    have hrec : Records c₀.view req.mtMaxLvl mtRoot := by
      refine ⟨⟨0, nrOfNodesPerBlk_pos⟩, ?_⟩
      rw [hroot]
      exact ⟨rfl, rfl⟩
    have hfocus : Focus sha req.mtEdges disk c₀.view req.mtMaxLvl := by
      refine { entered := ?_, reading := ?_, kept := ?_, complete := ?_, written := ?_ }
      · rw [htop]
        exact nofun
      · intro _
        rw [htop]
        exact ⟨hrec, rfl⟩
      · intro hst
        rw [htop] at hst
        rcases hst with hst | hst <;> cases hst
      · intro hst
        rw [htop] at hst
        cases hst
      · intro hst
        rw [htop] at hst
        cases hst
    have hpath : Path sha req.mtEdges disk req.mtMaxLvl c₀.view req.mtMaxLvl := by
      refine { toFocus := hfocus, pos := by omega, le := le_rfl, above := fun l hl hle => ?_,
               below := hlow, upper := fun l hl hle => by omega }
      obtain rfl : l = req.mtMaxLvl + 1 := by omega
      rw [Nat.add_sub_cancel, hroot]
      exact ⟨rfl, mtRoot, hrec⟩
    have hcache : c₀.cacheRequest.state = .invalid := by
      rw [← hc₀]
      exact hidle
    have hwalk : Walking sha ⟨c₀, disk⟩ req.mtMaxLvl := by
      refine ⟨?_, ?_, ?_, ?_, fun l hl => ?_, ?_, fun _ => ?_, fun hne => absurd hcache hne⟩
      · change Path sha c₀.request.mtEdges disk c₀.request.mtMaxLvl c₀.view _
        rw [hreq]
        exact hpath
      · rw [← hc₀]
      · change 2 ≤ c₀.request.mtMaxLvl
        rw [hreq]
        exact htwo
      · change c₀.request.mtMaxLvl ≤ 6
        rw [hreq]
        omega
      · change c₀.request.mtMaxLvl < l at hl
        rw [hreq] at hl
        change c₀.levelNNodes l = _
        rw [← hc₀]
        change Function.update (fun _ => ({} : Type1Info)) req.mtMaxLvl _ l = _
        rw [Function.update_of_ne (Nat.ne_of_gt hl)]
      · change c₀.success = c₀.finished
        rw [← hc₀]
      · rw [← hc₀]
    refine ⟨hwalk, hreq, ?_⟩
    rw [books_released]
    · change Books.mk 0 (nodesOf c₀.request.mtEdges disk c₀.request.mtMaxLvl c₀.mtRoot)
        (leavesOf c₀.request.mtEdges disk c₀.request.mtMaxLvl c₀.mtRoot) disk
        (if c₀.finished then some c₀.newPba else none) = _
      rw [hreq, ← hc₀]
      rfl
    · intro l hl
      change l ≤ c₀.request.mtMaxLvl at hl
      rw [hreq] at hl
      change (c₀.view l).state.held = false
      rcases Nat.lt_or_eq_of_le hl with hl | hl
      · rw [hlow l hl]
        rfl
      · rw [hl, htop]
        rfl
    · change 1 ≤ c₀.request.mtMaxLvl
      rw [hreq]
      omega
  · cases hsub

/-- What holds throughout a request: it has failed, or the books are in
order. -/
def InService (sha : Block → Hash) (req : Request) (b₀ : Books) (s : Config) : Prop :=
  s.chan.request = req ∧ (Failed s ∨ ((∃ m, Walking sha s m) ∨ Done s) ∧
    Books.InOrder sha req.currentGen req.oldPba b₀ s.books)

theorem InService.step {b₀ : Books} {e : Event} (h : InService sha req b₀ s)
    (hg : req.currentGen ≠ 0) (h₀ : (b₀.nodeAddrs + b₀.leafAddrs).Nodup) (hs : Tr sha s e s') :
    InService sha req b₀ s' := by
  obtain ⟨hreq, hfail | ⟨⟨m, hwalk⟩ | hdone, hbooks⟩⟩ := h
  · obtain ⟨hreq', hfail', _⟩ := hfail.step hs
    exact ⟨hreq'.trans hreq, .inl hfail'⟩
  · have hnext : _ ∨ Goes sha (fun _ => True) s s' :=
      hwalk.step (by rw [hreq]; exact hg) hbooks.nodup (fun _ _ => trivial) hs
    rcases hnext with ⟨hreq', hfail⟩ | hgoes
    · exact ⟨hreq'.trans hreq, .inl hfail⟩
    · have hreach := hgoes.books
      rw [hreq] at hreach
      exact ⟨hgoes.request.trans hreq, .inr ⟨hgoes.served, hbooks.of_reaches h₀ hreach⟩⟩
  · rw [hdone.step hs]
    exact ⟨hreq, .inr ⟨.inr hdone, hbooks⟩⟩

/-- A request that completes with success gives away the address of an
entry, keeps all other addresses and puts the block that was given up in
its place, and all nodes match their hashes as before. -/
theorem update_exchanges (htree : WellFormed sha disk req mtRoot)
    (hgen : req.currentGen ≠ invalidGeneration) (hidle : c.cacheRequest.state = .invalid)
    (hsub : submitRequest c req mtRoot = .ok c₀)
    (hrun : Run (Eq ⟨c₀, disk⟩) (Tr sha) hist s) (hdone : s.chan.state = .complete)
    (hsucc : s.chan.success = true) :
    s.chan.newPba ∈ (leavesOf req.mtEdges disk req.mtMaxLvl mtRoot).map Type2Node.pba ∧
      (nodesOf req.mtEdges s.disk req.mtMaxLvl s.chan.mtRoot).map Type1Node.pba +
        (leavesOf req.mtEdges s.disk req.mtMaxLvl s.chan.mtRoot).map Type2Node.pba +
          {s.chan.newPba} =
        (nodesOf req.mtEdges disk req.mtMaxLvl mtRoot).map Type1Node.pba +
          (leavesOf req.mtEdges disk req.mtMaxLvl mtRoot).map Type2Node.pba + {req.oldPba} ∧
      Matches sha s.disk (nodesOf req.mtEdges s.disk req.mtMaxLvl s.chan.mtRoot) := by
  obtain ⟨hwalk₀, hreq₀, hbooks₀⟩ := submitRequest_walking sha htree.toDistinct hidle hsub
  let b₀ := Books.ofTree req.mtEdges disk req.mtMaxLvl mtRoot
  have haddr : b₀.nodeAddrs = (nodesOf req.mtEdges disk req.mtMaxLvl mtRoot).map Type1Node.pba := by
    change (0 + _ : Multiset Type1Node).map _ = _
    rw [zero_add]
    rfl
  have h₀ : (b₀.nodeAddrs + b₀.leafAddrs).Nodup := by
    rw [haddr]
    exact htree.nodup
  have hinv : InService sha req b₀ s := by
    apply hrun.invariant
    · intro t ht
      rw [← ht]
      refine ⟨hreq₀, .inr ⟨.inl ⟨_, hwalk₀⟩, ?_⟩⟩
      rw [hbooks₀]
      exact Books.InOrder.ofTree (Multiset.nodup_add.mp h₀).1
    · intro t e t' ht htr
      exact ht.step hgen h₀ htr
  obtain ⟨hreq, hfail | ⟨⟨m, hwalk⟩ | hfin, hbooks⟩⟩ := hinv
  · rcases hfail with ⟨_, hf⟩ | hmis
    · rw [hsucc] at hf
      cases hf
    · rw [hdone] at hmis
      cases hmis
  · rw [hwalk.updating] at hdone
    cases hdone
  · have hfinished : s.chan.finished = true := hfin.success.symm.trans hsucc
    have hpos : 1 ≤ s.chan.request.mtMaxLvl := by
      rw [hreq]
      exact Nat.le_of_succ_le htree.two_le
    have hb := books_released hfin.released hpos
    rw [hfinished, if_pos rfl, hreq] at hb
    rw [hb] at hbooks
    refine ⟨hbooks.given_mem _ rfl, ?_, hbooks.matched htree.matched⟩
    have htotal := hbooks.total
    rw [haddr] at htotal
    unfold Books.nodeAddrs at htotal
    rw [zero_add] at htotal
    exact htotal

end Runs

/-! ### A tree with three usable entries -/

section Sample

def sampleSha (blk : Block) : Hash := ⟨fun i => blk.bytes.getD i 0⟩

def sampleEntries : Type2NodeBlock := fun i =>
  if i.val < 3 then { pba := UInt64.ofNat (100 + i), allocGen := 2, freeGen := 3 } else {}

def sampleLeaf : Type1Node :=
  { pba := 50, gen := 3, hash := sampleSha (Type2NodeBlock.encodeToBlk sampleEntries) }

def sampleInner : Type1NodeBlock := fun i => if i.val = 0 then sampleLeaf else {}

def sampleRoot (gen : Generation) : Type1Node :=
  { pba := 40, gen := gen, hash := sampleSha (Type1NodeBlock.encodeToBlk sampleInner) }

def sampleDisk : Disk := fun pba =>
  if pba = 50 then Type2NodeBlock.encodeToBlk sampleEntries
  else Type1NodeBlock.encodeToBlk sampleInner

def sampleRequest : Request := { mtMaxLvl := 2, mtEdges := 4, currentGen := 5, oldPba := 77 }

def sampleIdle : Channel := { request := sampleRequest, mtRoot := {} }

/-- A block is asked for or written. -/
def sampleIo : List Event :=
  [.execute, .dropGeneratedRequest, .generatedRequestComplete true]

def sampleEvents : List Event :=
  sampleIo ++ .execute :: sampleIo ++ .execute :: sampleIo ++ [.execute, .execute] ++ sampleIo ++
    [.execute]

def performStep (sha : Block → Hash) (s : Config) (e : Event) : Option (Event × Config) :=
  (step sha s e).toOption.map fun s' => (e, s')

theorem tr_of_performStep {sha : Block → Hash} {s s' : Config} {e e' : Event}
    (h : performStep sha s e = some (e', s')) : Tr sha s e' s' := by
  unfold performStep at h
  cases hs : step sha s e with
  | error f => simp [hs, Except.toOption] at h
  | ok s₁ =>
    obtain ⟨rfl, rfl⟩ : e = e' ∧ s₁ = s' := by simpa [hs, Except.toOption] using h
    exact hs

theorem exists_run_of (sha : Block → Hash) (s₀ : Config) (es : List Event)
    {p : List (Config × Event) × Config → Prop} [DecidablePred p]
    (h : (replay (performStep sha) es ([], s₀)).any (fun r => decide (p r)) = true) :
    ∃ hist s, Run (Eq s₀) (Tr sha) hist s ∧ p (hist, s) := by
  have hexec : ∀ s e e' s', performStep sha s e = some (e', s') → Tr sha s e' s' :=
    fun _ _ _ _ hs => tr_of_performStep hs
  exact exists_run hexec rfl h

/-- The channel after the request was submitted. -/
def sampleChannel (gen : Generation) : Channel :=
  { sampleIdle with
    state := .update
    mtRoot := sampleRoot gen
    levelNNodes := Function.update (fun _ => {}) 2
      { state := .read
        node := sampleRoot gen
        volatil := nodeVolatile (sampleRoot gen) 5 } }

theorem submit_sample (gen : Generation) :
    submitRequest sampleIdle sampleRequest (sampleRoot gen) = .ok (sampleChannel gen) := by
  unfold submitRequest
  rw [show decide (sampleIdle.state = .invalid) = true from rfl, Exec.assert_true, Exec.ok_bind,
    if_pos (by decide)]
  rfl

theorem sampleDisk_leaf :
    (layout 4).leaves (sampleDisk ((layout 4).addr sampleLeaf)) = entriesOf 4 sampleEntries := by
  have hblk : sampleDisk 50 = Type2NodeBlock.encodeToBlk sampleEntries := rfl
  change (layout 4).leaves (sampleDisk 50) = _
  rw [hblk, layout_leaves]

theorem sampleDisk_root (gen : Generation) :
    (layout 4).child (sampleDisk ((layout 4).addr (sampleRoot gen))) = childOf 4 sampleInner := by
  have hblk : sampleDisk 40 = Type1NodeBlock.encodeToBlk sampleInner := rfl
  change (layout 4).child (sampleDisk 40) = _
  rw [hblk, layout_child]

theorem sample_child : childOf 4 sampleInner ⟨0, nrOfNodesPerBlk_pos⟩ = some sampleLeaf ∧
    ∀ i, i ≠ ⟨0, nrOfNodesPerBlk_pos⟩ → childOf 4 sampleInner i = none := by
  have hleaf : sampleInner ⟨0, nrOfNodesPerBlk_pos⟩ = sampleLeaf := rfl
  refine ⟨?_, fun i hi => ?_⟩
  · rw [← hleaf, childOf_eq_some]
    refine ⟨⟨by decide, ?_⟩, rfl⟩
    rw [hleaf]
    unfold Type1Node.valid
    rw [decide_eq_true_iff]
    intro h
    have hpba : (50 : UInt64) = 0 := congrArg Type1Node.pba h
    exact absurd hpba (by decide)
  · have hz : ¬ i.val = 0 := fun hz => hi (Fin.ext hz)
    have hinner : sampleInner i = {} := if_neg hz
    unfold childOf
    rw [hinner, if_neg]
    exact fun h => absurd h.2 (by decide)

theorem sample_content (gen : Generation) : (layout 4).content sampleDisk 1 (sampleRoot gen) =
    ({sampleRoot gen} + {sampleLeaf}, entriesOf 4 sampleEntries) := by
  have hbelow : (layout 4).below sampleDisk 0 (childOf 4 sampleInner) Finset.univ =
      ({sampleLeaf}, entriesOf 4 sampleEntries) := by
    unfold TreeLayout.below
    rw [Finset.sum_eq_single ⟨0, nrOfNodesPerBlk_pos⟩]
    · rw [sample_child.1, Option.elim_some, TreeLayout.content, sampleDisk_leaf]
    · intro i _ hi
      rw [sample_child.2 i hi, Option.elim_none]
    · intro h
      exact absurd (Finset.mem_univ _) h
  rw [TreeLayout.content_succ, sampleDisk_root, hbelow, Prod.mk_add_mk, zero_add]

theorem sample_wellFormed (gen : Generation) :
    WellFormed sampleSha sampleDisk sampleRequest (sampleRoot gen) where
  two_le := le_rfl
  nodup := by
    change ((((layout 4).content sampleDisk 1 (sampleRoot gen)).1).map Type1Node.pba +
      (((layout 4).content sampleDisk 1 (sampleRoot gen)).2).map Type2Node.pba).Nodup
    rw [sample_content]
    change (({40} + {50} : Multiset PhysicalBlockAddress) +
      (entriesOf 4 sampleEntries).map Type2Node.pba).Nodup
    decide +kernel
  matched := by
    change Matches sampleSha sampleDisk ((layout 4).content sampleDisk 1 (sampleRoot gen)).1
    rw [sample_content]
    intro r hr
    rcases Multiset.mem_add.mp hr with hr | hr
    · rw [Multiset.mem_singleton.mp hr]
      rfl
    · rw [Multiset.mem_singleton.mp hr]
      rfl

theorem sample_completes : ∃ hist s, Run (Eq ⟨sampleChannel 5, sampleDisk⟩) (Tr sampleSha) hist s ∧
    s.chan.state = .complete ∧ s.chan.success = true :=
  exists_run_of sampleSha ⟨sampleChannel 5, sampleDisk⟩ sampleEvents
    (p := fun r => r.2.chan.state = .complete ∧ r.2.chan.success = true) (by decide +kernel)

set_option maxRecDepth 4000 in
theorem update_exchanges_sample : ∃ (hist : List (Config × Event)) (s : Config),
    Run (Eq ⟨sampleChannel 5, sampleDisk⟩) (Tr sampleSha) hist s ∧ s.chan.success = true ∧
    s.chan.newPba ∈ (leavesOf sampleRequest.mtEdges sampleDisk sampleRequest.mtMaxLvl
      (sampleRoot 5)).map Type2Node.pba := by
  obtain ⟨hist, s, hrun, hdone, hsucc⟩ := sample_completes
  have hgen : sampleRequest.currentGen ≠ invalidGeneration := by decide
  have hidle : sampleIdle.cacheRequest.state = .invalid := rfl
  refine ⟨hist, s, hrun, hsucc, ?_⟩
  exact And.left (update_exchanges (sample_wellFormed 5) hgen hidle (submit_sample 5) hrun hdone
    hsucc)

end Sample

end Genode.Tresor.MetaTree
