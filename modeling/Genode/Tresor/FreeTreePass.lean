import Genode.Tresor.FreeTreeExchange

/-!
# FreeTreePass — the second pass as a recursion

What the second pass does to the tree, without the stacks: the node blocks
on the way to the leaves that are exchanged are written back, in place or
at an address from the meta tree, and stay consistent with their parents.
-/

namespace Genode.Tresor.FreeTree

open Genode.Lib

/-! ## What a subtree depends on -/

section Local

variable {disk disk' : Disk} {l : Nat} {n : Type1Node}

theorem mem_childIndices {entries : Type1NodeBlock} {idx : Fin nrOfNodesPerBlk} :
    idx ∈ childIndices entries ↔ (entries idx).pba ≠ 0 := by
  rw [childIndices, stacked, List.mem_reverse, List.mem_filter, decide_eq_true_iff]
  exact and_iff_right (List.mem_finRange idx)

theorem nodup_stacked (p : Fin nrOfNodesPerBlk → Bool) : (stacked p).Nodup := by
  rw [stacked, List.nodup_reverse]
  exact (List.nodup_finRange _).filter _

theorem mem_blocksOf_child {idx : Fin nrOfNodesPerBlk}
    (hidx : (innerEntries disk n.pba idx).pba ≠ 0) {a : PhysicalBlockAddress}
    (ha : a ∈ blocksOf disk (l + 1) (innerEntries disk n.pba idx)) :
    a ∈ blocksOf disk (l + 2) n :=
  List.mem_cons_of_mem _ (List.mem_flatMap.mpr ⟨idx, mem_childIndices.mpr hidx, ha⟩)

/-- A subtree depends on its own blocks only. -/
theorem subtree_congr (sha : Block → Hash) (h : ∀ a ∈ blocksOf disk l n, disk' a = disk a) :
    blocksOf disk' l n = blocksOf disk l n ∧ leavesOf disk' l n = leavesOf disk l n ∧
      (Consistent sha disk' l n ↔ Consistent sha disk l n) := by
  induction l generalizing n with
  | zero => exact ⟨rfl, rfl, Iff.rfl⟩
  | succ l ih =>
    cases l with
    | zero =>
      have hn : disk' n.pba = disk n.pba := h _ (List.mem_singleton_self _)
      simp only [blocksOf, leavesOf, leafEntries, Consistent, hn, and_self]
    | succ l =>
      have hn : disk' n.pba = disk n.pba := h _ List.mem_cons_self
      have he : innerEntries disk' n.pba = innerEntries disk n.pba := by
        rw [innerEntries, innerEntries, hn]
      have hchild : ∀ idx, (innerEntries disk n.pba idx).pba ≠ 0 → _ := fun idx hidx =>
        ih fun a ha => h a (mem_blocksOf_child hidx ha)
      refine ⟨?_, ?_, ?_⟩
      · rw [blocksOf, blocksOf, he]
        congr 1
        apply List.flatMap_congr
        intro idx hidx
        exact (hchild idx (mem_childIndices.mp hidx)).1
      · rw [leavesOf, leavesOf, he]
        apply List.flatMap_congr
        intro idx hidx
        exact (hchild idx (mem_childIndices.mp hidx)).2.1
      · rw [Consistent, Consistent, he, hn]
        apply and_congr Iff.rfl
        apply forall_congr'
        intro idx
        apply forall_congr'
        intro hidx
        exact (hchild idx hidx).2.2

theorem pba_mem_blocksOf {sha : Block → Hash} (h : Consistent sha disk l n) : n.pba ∈ blocksOf disk l n := by
  cases l with
  | zero => exact h.elim
  | succ l =>
    cases l with
    | zero => exact List.mem_singleton_self _
    | succ l => exact List.mem_cons_self

end Local

/-! ## The pass -/

/-- The state of the pass: what is on disc, how often the meta tree was
asked and which addresses were handed out. -/
structure Pass where
  disk : Disk
  answers : Nat
  newBlocks : Nat → PhysicalBlockAddress

section Hash

variable (sha : Block → Hash) (mt : MetaTree) (req : Request)

/-- Write a node block back: in place or at an address of the meta tree. -/
def settle (info : Type1Info) (blk : Block) (p : Pass) : Pass × Type1Node :=
  if info.volatil then
    ({ p with disk := Function.update p.disk info.node.pba blk },
      { pba := info.node.pba, gen := req.currentGen, hash := sha blk })
  else
    let pba := mt.newPba p.answers
    ({ p with
        disk := Function.update (mt.work p.answers p.disk) pba blk
        answers := p.answers + 1 },
      { pba := pba, gen := req.currentGen, hash := sha blk })

/-- A node block of level 1. -/
def visitLeaves (info : Type1Info) (p : Pass) : Pass × Type1Node :=
  let entries := leafEntries p.disk info.node.pba
  let stack := leafStack req entries
  let lvls := levels req p.newBlocks
  if stack.isEmpty then (p, info.node)
  else settle sha mt req info (Type2NodeBlock.encodeToBlk (exchangeEntries req lvls stack entries))
    { p with newBlocks := fill p.newBlocks lvls (stack.map Type2Info.node) }

/-- The children of a node, up to the one at which the exchange is finished. -/
def visitChildren (visit : Type1Info → Pass → Pass × Type1Node) :
    List Type1Info → Type1NodeBlock → Pass → Pass × Type1NodeBlock
  | [], entries, p => (p, entries)
  | info :: rest, entries, p =>
    let r := visit info p
    let entries' := Function.update entries info.index r.2
    if (levels req r.1.newBlocks).isEmpty then (r.1, entries')
    else visitChildren visit rest entries' r.1

/-- A node of level `l`: what the pass makes of the subtree and the node that
refers to it from then on. -/
def visit : Nat → Type1Info → Pass → Pass × Type1Node
  | 0, info, p => (p, info.node)
  | 1, info, p => visitLeaves sha mt req info p
  | l + 2, info, p =>
    let entries := innerEntries p.disk info.node.pba
    let stack := childStack entries req.currentGen
    if stack.isEmpty then (p, info.node)
    else
      let r := visitChildren req (visit (l + 1)) stack entries p
      settle sha mt req info (Type1NodeBlock.encodeToBlk r.2) r.1

end Hash

/-! ## What the pass keeps -/

/-- From its request `first` on, the meta tree hands out addresses that are
not in use and works on its own blocks only. `blocks` are the node blocks of
the free tree, each of which may need one new address. -/
structure MetaTree.Sound (mt : MetaTree) (blocks : List PhysicalBlockAddress) (first : Nat) :
    Prop where
  not_mem : ∀ k, first ≤ k → k < first + blocks.length → mt.newPba k ∉ blocks
  distinct : ∀ j k, first ≤ j → j < k → k < first + blocks.length → mt.newPba j ≠ mt.newPba k
  ne_zero : ∀ k, first ≤ k → k < first + blocks.length → mt.newPba k ≠ 0
  work_eq : ∀ k, first ≤ k → k < first + blocks.length → ∀ disk a,
    (a ∈ blocks ∨ ∃ j, first ≤ j ∧ j < k ∧ a = mt.newPba j) → mt.work k disk a = disk a

section Spec

variable {sha : Block → Hash} {mt : MetaTree} {req : Request} {blocks : List PhysicalBlockAddress}
  {first : Nat}

/-- The addresses of the free tree, the ones it got during the pass included. -/
def Owned (mt : MetaTree) (blocks : List PhysicalBlockAddress) (first : Nat) (p : Pass)
    (a : PhysicalBlockAddress) : Prop :=
  a ∈ blocks ∨ ∃ j, first ≤ j ∧ j < p.answers ∧ a = mt.newPba j

/-- A part of the pass that may write to the blocks `own` and to the
addresses that it gets from the meta tree, at most one for each of them. -/
structure Confined (mt : MetaTree) (blocks : List PhysicalBlockAddress) (first : Nat)
    (own : List PhysicalBlockAddress) (p p' : Pass) : Prop where
  answers_le : p.answers ≤ p'.answers
  le_answers : p'.answers ≤ p.answers + own.length
  disk_eq : ∀ a, Owned mt blocks first p a → a ∉ own → p'.disk a = p.disk a

/-- There are addresses left for the blocks `own`. -/
structure Room (blocks : List PhysicalBlockAddress) (first : Nat)
    (own : List PhysicalBlockAddress) (p : Pass) : Prop where
  first_le : first ≤ p.answers
  le : p.answers + own.length ≤ first + blocks.length

theorem Room.mono {own own' : List PhysicalBlockAddress} {p : Pass}
    (h : Room blocks first own p) (hlen : own'.length ≤ own.length) : Room blocks first own' p :=
  ⟨h.first_le, (Nat.add_le_add_left hlen _).trans h.le⟩

theorem Confined.refl (own : List PhysicalBlockAddress) (p : Pass) :
    Confined mt blocks first own p p := ⟨le_rfl, Nat.le_add_right _ _, fun _ _ _ => rfl⟩

theorem Owned.mono {p p' : Pass} (h : p.answers ≤ p'.answers) {a : PhysicalBlockAddress}
    (ha : Owned mt blocks first p a) : Owned mt blocks first p' a := by
  rcases ha with ha | ⟨j, hf, hj, ha⟩
  · exact .inl ha
  · exact .inr ⟨j, hf, hj.trans_le h, ha⟩

theorem Confined.trans {own own' all : List PhysicalBlockAddress} {p p' p'' : Pass}
    (h : Confined mt blocks first own p p') (h' : Confined mt blocks first own' p' p'')
    (hown : own ⊆ all) (hown' : own' ⊆ all) (hlen : own.length + own'.length ≤ all.length) :
    Confined mt blocks first all p p'' := by
  refine ⟨h.answers_le.trans h'.answers_le, ?_, fun a ha hall => ?_⟩
  · have h₁ := h.le_answers
    have h₂ := h'.le_answers
    omega
  · rw [h'.disk_eq a (ha.mono h.answers_le) fun hm => hall (hown' hm),
      h.disk_eq a ha fun hm => hall (hown hm)]

/-- A later part of the pass finds the room that an earlier part left. -/
theorem Confined.room {own own' all : List PhysicalBlockAddress} {p p' : Pass}
    (h : Confined mt blocks first own p p') (hr : Room blocks first all p)
    (hlen : own.length + own'.length ≤ all.length) : Room blocks first own' p' := by
  have h₁ := h.answers_le
  have h₂ := h.le_answers
  have h₃ := hr.first_le
  have h₄ := hr.le
  exact ⟨by omega, by omega⟩

/-- The blocks of a subtree after its part of the pass: its own ones from
before and new ones. -/
def Within (mt : MetaTree) (own : List PhysicalBlockAddress) (p p' : Pass)
    (blks : List PhysicalBlockAddress) : Prop :=
  ∀ a ∈ blks, a ∈ own ∨ ∃ j, p.answers ≤ j ∧ j < p'.answers ∧ a = mt.newPba j

/-- What the pass makes of the subtree of a node. -/
structure Visited (sha : Block → Hash) (mt : MetaTree) (req : Request)
    (blocks : List PhysicalBlockAddress) (first l : Nat) (n : Type1Node) (p p' : Pass)
    (n' : Type1Node) : Prop where
  confined : Confined mt blocks first (blocksOf p.disk l n) p p'
  within : Within mt (blocksOf p.disk l n) p p' (blocksOf p'.disk l n')
  consistent : Consistent sha p'.disk l n'
  ne_zero : n'.pba ≠ 0
  leaves : leavesOf p'.disk l n' =
    exchangeLeaves req (levels req p.newBlocks) (leavesOf p.disk l n)
  newBlocks : p'.newBlocks =
    fill p.newBlocks (levels req p.newBlocks) (usableLeaves req p.disk l n)

/-- What the pass needs to know about a subtree. -/
structure Sub (sha : Block → Hash) (blocks : List PhysicalBlockAddress) (disk : Disk) (l : Nat)
    (n : Type1Node) : Prop where
  consistent : Consistent sha disk l n
  ne_zero : n.pba ≠ 0
  nodup : (blocksOf disk l n).Nodup
  subset : blocksOf disk l n ⊆ blocks

/-- A subtree without usable leaves is left as it is. -/
theorem Sub.visited_self {l : Nat} {n : Type1Node} {p : Pass} (h : Sub sha blocks p.disk l n)
    (hu : usableLeaves req p.disk l n = []) : Visited sha mt req blocks first l n p p n where
  confined := .refl _ _
  within := fun _ ha => .inl ha
  consistent := h.consistent
  ne_zero := h.ne_zero
  leaves := (exchangeLeaves_of_filter_eq_nil hu _).symm
  newBlocks := by rw [hu, fill_nil_right]

theorem Visited.levels_eq {l : Nat} {n n' : Type1Node} {p p' : Pass}
    (h : Visited sha mt req blocks first l n p p' n') :
    levels req p'.newBlocks =
      (levels req p.newBlocks).drop (usableLeaves req p.disk l n).length := by
  rw [h.newBlocks]
  apply levels_fill
  intro leaf hleaf
  exact usable_pba_ne (List.mem_filter.mp hleaf).2

/-! ### Writing back -/

section Settle

variable {info : Type1Info} {blk : Block} {p : Pass}

theorem settle_newBlocks : (settle sha mt req info blk p).1.newBlocks = p.newBlocks := by
  unfold settle
  split <;> rfl

theorem settle_hash : (settle sha mt req info blk p).2.hash = sha blk := by
  unfold settle
  split <;> rfl

theorem settle_disk_self :
    (settle sha mt req info blk p).1.disk (settle sha mt req info blk p).2.pba = blk := by
  unfold settle
  split
  · exact Function.update_self ..
  · exact Function.update_self ..

theorem settle_ne_zero (hmt : mt.Sound blocks first)
    (hr : Room blocks first [info.node.pba] p) (h : info.node.pba ≠ 0) :
    (settle sha mt req info blk p).2.pba ≠ 0 := by
  unfold settle
  split
  · exact h
  · exact hmt.ne_zero _ hr.first_le hr.le

theorem settle_within : Within mt [info.node.pba] p (settle sha mt req info blk p).1
    [(settle sha mt req info blk p).2.pba] := by
  intro a ha
  rw [List.mem_singleton.mp ha]
  unfold settle
  split
  · exact .inl (List.mem_singleton_self _)
  · exact .inr ⟨p.answers, le_rfl, Nat.lt_succ_self _, rfl⟩

theorem newPba_not_owned (hmt : mt.Sound blocks first)
    (hr : Room blocks first [info.node.pba] p) :
    ¬ Owned mt blocks first p (mt.newPba p.answers) := by
  rintro (h | ⟨j, hf, hj, h⟩)
  · exact hmt.not_mem _ hr.first_le hr.le h
  · exact hmt.distinct j _ hf hj hr.le h.symm

theorem settle_confined (hmt : mt.Sound blocks first)
    (hr : Room blocks first [info.node.pba] p) :
    Confined mt blocks first [info.node.pba] p (settle sha mt req info blk p).1 := by
  unfold settle
  split
  · refine ⟨le_rfl, Nat.le_succ _, fun a _ ha => ?_⟩
    exact Function.update_of_ne (fun h => ha (List.mem_singleton.mpr h)) _ _
  · refine ⟨Nat.le_succ _, le_rfl, fun a hown _ => ?_⟩
    have hne : a ≠ mt.newPba p.answers := fun h => newPba_not_owned hmt hr (h ▸ hown)
    exact (Function.update_of_ne hne _ _).trans (hmt.work_eq _ hr.first_le hr.le _ _ hown)

end Settle

/-! ### Node blocks of level 1 -/

theorem leafStack_eq (entries : Type2NodeBlock) : leafStack req entries =
    ((List.finRange nrOfNodesPerBlk).reverse.filter fun i => usable req (entries i)).map fun i =>
      { node := entries i, index := i } := by
  rw [leafStack, stacked, List.filter_reverse]

theorem map_leafStack_node (disk : Disk) (n : Type1Node) :
    (leafStack req (leafEntries disk n.pba)).map Type2Info.node = usableLeaves req disk 1 n := by
  rw [leafStack_eq, List.map_map, usableLeaves, leavesOf, List.filter_map]
  rfl

theorem usableLeaves_of_leafStack {disk : Disk} {n : Type1Node}
    (h : (leafStack req (leafEntries disk n.pba)).isEmpty = true) :
    usableLeaves req disk 1 n = [] := by
  rw [← map_leafStack_node, List.isEmpty_iff.mp h, List.map_nil]

theorem leafEntries_encode {disk : Disk} {pba : PhysicalBlockAddress} {entries : Type2NodeBlock}
    (h : disk pba = Type2NodeBlock.encodeToBlk entries) :
    leafEntries disk pba = entries ∧ Type2NodeBlock.codec.accepts (disk pba).bytes = true := by
  have hd := Type2NodeBlock.codec.decode_encode entries []
  have ha := Type2NodeBlock.codec.accepts_encode entries []
  rw [List.append_nil] at hd ha
  rw [leafEntries, h]
  exact ⟨hd, ha⟩

theorem visitLeaves_spec (hmt : mt.Sound blocks first) {info : Type1Info} {p : Pass}
    (h : Sub sha blocks p.disk 1 info.node)
    (hr : Room blocks first (blocksOf p.disk 1 info.node) p) :
    Visited sha mt req blocks first 1 info.node p (visitLeaves sha mt req info p).1
      (visitLeaves sha mt req info p).2 := by
  unfold visitLeaves
  by_cases hs : (leafStack req (leafEntries p.disk info.node.pba)).isEmpty = true
  · rw [if_pos hs]
    exact h.visited_self (usableLeaves_of_leafStack hs)
  · rw [if_neg hs]
    let entries := exchangeEntries req (levels req p.newBlocks)
      (leafStack req (leafEntries p.disk info.node.pba)) (leafEntries p.disk info.node.pba)
    let blk := Type2NodeBlock.encodeToBlk entries
    let nb := fill p.newBlocks (levels req p.newBlocks)
      ((leafStack req (leafEntries p.disk info.node.pba)).map Type2Info.node)
    let r := settle sha mt req info blk { p with newBlocks := nb }
    have hr' : Room blocks first [info.node.pba] { p with newBlocks := nb } :=
      ⟨hr.first_le, hr.le⟩
    have hconf : Confined mt blocks first [info.node.pba] { p with newBlocks := nb } r.1 :=
      settle_confined hmt hr'
    have hblk : r.1.disk r.2.pba = blk := settle_disk_self
    obtain ⟨hentries, haccepts⟩ := leafEntries_encode hblk
    refine ⟨⟨hconf.answers_le, hconf.le_answers, hconf.disk_eq⟩, settle_within, ⟨?_, haccepts⟩,
      settle_ne_zero hmt hr' h.ne_zero, ?_, ?_⟩
    · rw [settle_hash, settle_disk_self]
    · rw [leavesOf, leavesOf]
      change List.map (leafEntries r.1.disk r.2.pba) _ = _
      rw [hentries]
      simp only [entries, leafStack_eq]
      exact (map_exchangeEntries (List.nodup_reverse.mpr (List.nodup_finRange _)) _ _).1
    · rw [settle_newBlocks, map_leafStack_node]

/-! ### The children of a node -/

/-- The node blocks below the nodes of a stack. -/
def stackBlocks (disk : Disk) (l : Nat) (stack : List Type1Info) : List PhysicalBlockAddress :=
  stack.flatMap fun info => blocksOf disk l info.node

theorem length_stackBlocks (disk : Disk) (l : Nat) (info : Type1Info) (cs : List Type1Info) :
    (stackBlocks disk l (info :: cs)).length =
      (blocksOf disk l info.node).length + (stackBlocks disk l cs).length := by
  rw [stackBlocks, List.flatMap_cons, List.length_append, stackBlocks]

/-- What the pass makes of the nodes of a stack. -/
structure ChildrenVisited (sha : Block → Hash) (mt : MetaTree) (req : Request)
    (blocks : List PhysicalBlockAddress) (first l : Nat) (cs : List Type1Info)
    (entries : Type1NodeBlock) (p p' : Pass) (entries' : Type1NodeBlock) : Prop where
  confined : Confined mt blocks first (stackBlocks p.disk l cs) p p'
  other : ∀ idx, (∀ info ∈ cs, info.index ≠ idx) → entries' idx = entries idx
  consistent : ∀ info ∈ cs, Consistent sha p'.disk l (entries' info.index)
  ne_zero : ∀ info ∈ cs, (entries' info.index).pba ≠ 0
  within : ∀ info ∈ cs, Within mt (stackBlocks p.disk l cs) p p'
    (blocksOf p'.disk l (entries' info.index))
  leaves : (cs.flatMap fun info => leavesOf p'.disk l (entries' info.index)) =
    exchangeLeaves req (levels req p.newBlocks) (cs.flatMap fun info => leavesOf p.disk l info.node)
  newBlocks : p'.newBlocks =
    fill p.newBlocks (levels req p.newBlocks) (stackLeaves req p.disk l cs)

/-- What the pass needs to know about the nodes of a stack. -/
structure Subs (sha : Block → Hash) (blocks : List PhysicalBlockAddress) (disk : Disk) (l : Nat)
    (cs : List Type1Info) (entries : Type1NodeBlock) : Prop where
  consistent : ∀ info ∈ cs, Consistent sha disk l info.node
  ne_zero : ∀ info ∈ cs, info.node.pba ≠ 0
  node : ∀ info ∈ cs, entries info.index = info.node
  index : (cs.map Type1Info.index).Nodup
  nodup : (stackBlocks disk l cs).Nodup
  subset : stackBlocks disk l cs ⊆ blocks

namespace Subs

variable {l : Nat} {disk disk' : Disk} {cs : List Type1Info} {info : Type1Info}
  {entries : Type1NodeBlock}

theorem head (h : Subs sha blocks disk l (info :: cs) entries) :
    Sub sha blocks disk l info.node where
  consistent := h.consistent info List.mem_cons_self
  ne_zero := h.ne_zero info List.mem_cons_self
  nodup := (List.nodup_append.mp h.nodup).1
  subset := fun _ ha => h.subset (List.mem_append_left _ ha)

theorem disjoint (h : Subs sha blocks disk l (info :: cs) entries) {a : PhysicalBlockAddress}
    (ha : a ∈ stackBlocks disk l cs) : a ∉ blocksOf disk l info.node :=
  fun ha' => (List.nodup_append.mp h.nodup).2.2 a ha' a ha rfl

theorem index_ne (h : Subs sha blocks disk l (info :: cs) entries) {info' : Type1Info}
    (hm : info' ∈ cs) : info'.index ≠ info.index := by
  have := (List.nodup_cons.mp h.index).1
  exact fun he => this (he ▸ List.mem_map_of_mem hm)

/-- The rest of the stack, when the first subtree may have changed. -/
theorem tail (req : Request) (h : Subs sha blocks disk l (info :: cs) entries) (n : Type1Node)
    (hdisk : ∀ a ∈ stackBlocks disk l cs, disk' a = disk a) :
    Subs sha blocks disk' l cs (Function.update entries info.index n) ∧
      stackBlocks disk' l cs = stackBlocks disk l cs ∧
      stackLeaves req disk' l cs = stackLeaves req disk l cs ∧
      (cs.flatMap fun i => leavesOf disk' l i.node) = cs.flatMap fun i => leavesOf disk l i.node := by
  have hsub : ∀ i ∈ cs, ∀ a ∈ blocksOf disk l i.node, disk' a = disk a := fun i hi a ha =>
    hdisk a (List.mem_flatMap.mpr ⟨i, hi, ha⟩)
  have hblocks : stackBlocks disk' l cs = stackBlocks disk l cs := by
    apply List.flatMap_congr
    intro i hi
    exact (subtree_congr sha (hsub i hi)).1
  refine ⟨⟨?_, ?_, ?_, ?_, ?_, ?_⟩, hblocks, ?_, ?_⟩
  · intro i hi
    exact (subtree_congr sha (hsub i hi)).2.2.mpr (h.consistent i (List.mem_cons_of_mem _ hi))
  · exact fun i hi => h.ne_zero i (List.mem_cons_of_mem _ hi)
  · intro i hi
    rw [Function.update_of_ne (h.index_ne hi)]
    exact h.node i (List.mem_cons_of_mem _ hi)
  · exact (List.nodup_cons.mp h.index).2
  · rw [hblocks]
    exact (List.nodup_append.mp h.nodup).2.1
  · rw [hblocks]
    exact fun _ ha => h.subset (List.mem_append_right _ ha)
  · apply List.flatMap_congr
    intro i hi
    rw [usableLeaves, usableLeaves, (subtree_congr sha (hsub i hi)).2.1]
  · apply List.flatMap_congr
    intro i hi
    exact (subtree_congr sha (hsub i hi)).2.1

/-- When no level needs an address the nodes are left as they are. -/
theorem visited_self {p : Pass} (h : Subs sha blocks p.disk l cs entries)
    (hl : levels req p.newBlocks = []) :
    ChildrenVisited sha mt req blocks first l cs entries p p entries where
  confined := .refl _ _
  other := fun _ _ => rfl
  consistent := fun info hi => by rw [h.node info hi]; exact h.consistent info hi
  ne_zero := fun info hi => by rw [h.node info hi]; exact h.ne_zero info hi
  within := fun info hi a ha => by
    rw [h.node info hi] at ha
    exact .inl (List.mem_flatMap.mpr ⟨info, hi, ha⟩)
  leaves := by
    rw [hl, exchangeLeaves_nil]
    apply List.flatMap_congr
    intro info hi
    rw [h.node info hi]
  newBlocks := by rw [hl, fill_nil_left]

end Subs

theorem Within.mono {own own' : List PhysicalBlockAddress} {p p₁ p₂ p' : Pass}
    {blks : List PhysicalBlockAddress} (h : Within mt own p₁ p₂ blks) (hown : own ⊆ own')
    (hle : p.answers ≤ p₁.answers) (hle' : p₂.answers ≤ p'.answers) :
    Within mt own' p p' blks := by
  intro a ha
  rcases h a ha with hm | ⟨j, hj, hj', hn⟩
  · exact .inl (hown hm)
  · exact .inr ⟨j, hle.trans hj, hj'.trans_le hle', hn⟩

/-- The first subtree of a stack, then the rest. -/
theorem Visited.cons (hmt : mt.Sound blocks first) {l : Nat} {info : Type1Info} {cs : List Type1Info}
    {entries entries' : Type1NodeBlock} {p p₁ p' : Pass} {n₁ : Type1Node}
    (h : Subs sha blocks p.disk l (info :: cs) entries)
    (hr : Room blocks first (stackBlocks p.disk l (info :: cs)) p)
    (hv : Visited sha mt req blocks first l info.node p p₁ n₁)
    (hc : ChildrenVisited sha mt req blocks first l cs (Function.update entries info.index n₁) p₁ p'
      entries') :
    ChildrenVisited sha mt req blocks first l (info :: cs) entries p p' entries' := by
  have hleft : blocksOf p.disk l info.node ⊆ stackBlocks p.disk l (info :: cs) :=
    fun _ ha => List.mem_append_left _ ha
  have hright : stackBlocks p.disk l cs ⊆ stackBlocks p.disk l (info :: cs) :=
    fun _ ha => List.mem_append_right _ ha
  have hdisk : ∀ a ∈ stackBlocks p.disk l cs, p₁.disk a = p.disk a := fun a ha =>
    hv.confined.disk_eq a (.inl (h.subset (hright ha))) (h.disjoint ha)
  obtain ⟨-, hb, hsl, hll⟩ := h.tail req n₁ hdisk
  have hlen := length_stackBlocks p.disk l info cs
  have hr₁ : Room blocks first (stackBlocks p.disk l cs) p₁ := hv.confined.room hr hlen.ge
  -- the rest does not touch what became of the first subtree
  have hkeep : ∀ a ∈ blocksOf p₁.disk l n₁, p'.disk a = p₁.disk a := by
    intro a ha
    rcases hv.within a ha with hown | ⟨j, hf, hj, rfl⟩
    · apply hc.confined.disk_eq a (.inl (h.head.subset hown))
      rw [hb]
      exact fun hm => h.disjoint hm hown
    · have hj' : j < first + blocks.length := by
        have := hr₁.le
        omega
      apply hc.confined.disk_eq _ (.inr ⟨j, hr.first_le.trans hf, hj, rfl⟩)
      rw [hb]
      exact fun hm => hmt.not_mem j (hr.first_le.trans hf) hj' (h.subset (hright hm))
  obtain ⟨hkb, hkl, hkc⟩ := subtree_congr sha hkeep
  have hn₁ : entries' info.index = n₁ := by
    rw [hc.other info.index fun i hi => h.index_ne hi, Function.update_self]
  refine ⟨hv.confined.trans hc.confined hleft (by rw [hb]; exact hright) (by rw [hb, hlen]), ?_, ?_,
    ?_, ?_, ?_, ?_⟩
  · intro idx hidx
    rw [hc.other idx fun i hi => hidx i (List.mem_cons_of_mem _ hi),
      Function.update_of_ne (hidx info List.mem_cons_self).symm]
  · intro i hi
    rcases List.mem_cons.mp hi with rfl | hi
    · rw [hn₁]
      exact hkc.mpr hv.consistent
    · exact hc.consistent i hi
  · intro i hi
    rcases List.mem_cons.mp hi with rfl | hi
    · rw [hn₁]
      exact hv.ne_zero
    · exact hc.ne_zero i hi
  · intro i hi
    rcases List.mem_cons.mp hi with rfl | hi
    · rw [hn₁, hkb]
      exact hv.within.mono hleft le_rfl hc.confined.answers_le
    · exact (hc.within i hi).mono (by rw [hb]; exact hright) hv.confined.answers_le le_rfl
  · rw [List.flatMap_cons, List.flatMap_cons, exchangeLeaves_append, hn₁, hkl, hv.leaves,
      hc.leaves, hv.levels_eq, hll]
    rfl
  · rw [hc.newBlocks, hsl, hv.levels_eq, hv.newBlocks, ← fill_append]
    rfl

theorem visitChildren_spec (hmt : mt.Sound blocks first) {l : Nat}
    {f : Type1Info → Pass → Pass × Type1Node}
    (hf : ∀ info p, Sub sha blocks p.disk l info.node →
      Room blocks first (blocksOf p.disk l info.node) p →
      Visited sha mt req blocks first l info.node p (f info p).1 (f info p).2)
    (cs : List Type1Info) (entries : Type1NodeBlock) (p : Pass)
    (h : Subs sha blocks p.disk l cs entries) (hr : Room blocks first (stackBlocks p.disk l cs) p) :
    ChildrenVisited sha mt req blocks first l cs entries p (visitChildren req f cs entries p).1
      (visitChildren req f cs entries p).2 := by
  induction cs generalizing entries p with
  | nil =>
    refine ⟨.refl _ _, fun _ _ => rfl, ?_, ?_, ?_, rfl, ?_⟩
    · exact fun _ hi => absurd hi List.not_mem_nil
    · exact fun _ hi => absurd hi List.not_mem_nil
    · exact fun _ hi => absurd hi List.not_mem_nil
    · exact (fill_nil_right _ _).symm
  | cons info cs ih =>
    have hlen := length_stackBlocks p.disk l info cs
    have hv := hf info p h.head (hr.mono (hlen ▸ Nat.le_add_right _ _))
    obtain ⟨htail, hb, -, -⟩ := h.tail req (f info p).2 fun a ha =>
      hv.confined.disk_eq a (.inl (h.subset (List.mem_append_right _ ha))) (h.disjoint ha)
    rw [visitChildren]
    by_cases hl : (levels req (f info p).1.newBlocks).isEmpty = true
    · simp only [hl, if_true]
      exact hv.cons hmt h hr (htail.visited_self (List.isEmpty_iff.mp hl))
    · simp only [hl, if_false, Bool.false_eq_true]
      exact hv.cons hmt h hr (ih _ _ htail (hb ▸ hv.confined.room hr hlen.ge))

/-! ### Inner nodes -/

theorem childStack_map_index (entries : Type1NodeBlock) (gen : Generation) :
    (childStack entries gen).map Type1Info.index = childIndices entries := by
  rw [childStack, List.map_map, childIndices]
  exact List.map_id _

/-- The children of a subtree. -/
theorem Sub.children (req : Request) {l : Nat} {disk : Disk} {n : Type1Node}
    (h : Sub sha blocks disk (l + 2) n) :
    Subs sha blocks disk (l + 1) (childStack (innerEntries disk n.pba) req.currentGen)
        (innerEntries disk n.pba) ∧
      stackBlocks disk (l + 1) (childStack (innerEntries disk n.pba) req.currentGen) =
        (childIndices (innerEntries disk n.pba)).flatMap fun idx =>
          blocksOf disk (l + 1) (innerEntries disk n.pba idx) := by
  have hblocks : stackBlocks disk (l + 1) (childStack (innerEntries disk n.pba) req.currentGen) =
      (childIndices (innerEntries disk n.pba)).flatMap fun idx =>
        blocksOf disk (l + 1) (innerEntries disk n.pba idx) := by
    rw [stackBlocks, childStack, List.flatMap_map]
    rfl
  refine ⟨⟨?_, ?_, ?_, ?_, ?_, ?_⟩, hblocks⟩
  · intro info hi
    obtain ⟨-, hn, hp, -⟩ := mem_childStack hi
    rw [hn]
    exact h.consistent.2 _ hp
  · intro info hi
    obtain ⟨-, hn, hp, -⟩ := mem_childStack hi
    rw [hn]
    exact hp
  · intro info hi
    exact (mem_childStack hi).2.1.symm
  · rw [childStack_map_index]
    exact nodup_stacked _
  · rw [hblocks]
    exact (List.nodup_cons.mp h.nodup).2
  · rw [hblocks]
    exact fun _ ha => h.subset (List.mem_cons_of_mem _ ha)

theorem innerEntries_encode {disk : Disk} {pba : PhysicalBlockAddress} {entries : Type1NodeBlock}
    (h : disk pba = Type1NodeBlock.encodeToBlk entries) : innerEntries disk pba = entries := by
  rw [innerEntries, h, Type1NodeBlock.decode_encode]

theorem Sub.length_blocksOf (req : Request) {l : Nat} {disk : Disk} {n : Type1Node}
    (h : Sub sha blocks disk (l + 2) n) :
    (blocksOf disk (l + 2) n).length = (stackBlocks disk (l + 1)
      (childStack (innerEntries disk n.pba) req.currentGen)).length + 1 := by
  rw [(h.children req).2]
  rfl

/-- The existing children of a node are the same before and after. -/
theorem ChildrenVisited.childIndices_eq {l : Nat} {entries entries' : Type1NodeBlock} {p p' : Pass}
    {gen : Generation}
    (h : ChildrenVisited sha mt req blocks first l (childStack entries gen) entries p p' entries') :
    childIndices entries' = childIndices entries := by
  unfold childIndices
  congr 1
  funext idx
  by_cases hidx : idx ∈ childIndices entries
  · have hidx' := hidx
    rw [← childStack_map_index entries gen, List.mem_map] at hidx'
    obtain ⟨info, hi, rfl⟩ := hidx'
    rw [decide_eq_true (h.ne_zero info hi), decide_eq_true (mem_childIndices.mp hidx)]
  · have hne : ∀ info ∈ childStack entries gen, info.index ≠ idx := by
      intro info hi he
      apply hidx
      rw [← childStack_map_index entries gen, List.mem_map]
      exact ⟨info, hi, he⟩
    rw [h.other idx hne]

/-- An inner node, once its children have been visited. -/
theorem ChildrenVisited.settle_spec (hmt : mt.Sound blocks first) {l : Nat} {info : Type1Info}
    {p p' : Pass} {entries' : Type1NodeBlock} (hsub : Sub sha blocks p.disk (l + 2) info.node)
    (hr : Room blocks first (blocksOf p.disk (l + 2) info.node) p)
    (h : ChildrenVisited sha mt req blocks first (l + 1)
      (childStack (innerEntries p.disk info.node.pba) req.currentGen)
      (innerEntries p.disk info.node.pba) p p' entries') :
    Visited sha mt req blocks first (l + 2) info.node p
      (settle sha mt req info (Type1NodeBlock.encodeToBlk entries') p').1
      (settle sha mt req info (Type1NodeBlock.encodeToBlk entries') p').2 := by
  let r := settle sha mt req info (Type1NodeBlock.encodeToBlk entries') p'
  let cs := childStack (innerEntries p.disk info.node.pba) req.currentGen
  have hlen := hsub.length_blocksOf req
  have hr' : Room blocks first [info.node.pba] p' := h.confined.room hr hlen.ge
  have hconf : Confined mt blocks first [info.node.pba] p' r.1 := settle_confined hmt hr'
  have hentries : innerEntries r.1.disk r.2.pba = entries' := innerEntries_encode settle_disk_self
  have hown : info.node.pba ∈ blocksOf p.disk (l + 2) info.node :=
    pba_mem_blocksOf hsub.consistent
  have hblocks : stackBlocks p.disk (l + 1) cs ⊆ blocksOf p.disk (l + 2) info.node := by
    rw [(hsub.children req).2]
    exact fun _ ha => List.mem_cons_of_mem _ ha
  have hnot : info.node.pba ∉ stackBlocks p.disk (l + 1) cs := by
    rw [(hsub.children req).2]
    exact (List.nodup_cons.mp hsub.nodup).1
  -- the node block is written where no block of its children is
  have hkeep : ∀ i ∈ cs, ∀ a ∈ blocksOf p'.disk (l + 1) (entries' i.index),
      r.1.disk a = p'.disk a := by
    intro i hi a ha
    rcases h.within i hi a ha with hm | ⟨j, hf, hj, rfl⟩
    · apply hconf.disk_eq a (.inl (hsub.subset (hblocks hm)))
      rw [List.mem_singleton]
      exact fun he => hnot (he ▸ hm)
    · apply hconf.disk_eq _ (.inr ⟨j, hr.first_le.trans hf, hj, rfl⟩)
      rw [List.mem_singleton]
      exact fun he => hmt.not_mem j (hr.first_le.trans hf) (hj.trans hr'.le)
        (he ▸ hsub.subset hown)
  have hidx : childIndices entries' = cs.map Type1Info.index := by
    rw [h.childIndices_eq, childStack_map_index]
  have hle : p.answers ≤ p'.answers := h.confined.answers_le
  refine ⟨?_, ?_, ⟨?_, ?_⟩, settle_ne_zero hmt hr' hsub.ne_zero, ?_, ?_⟩
  · apply h.confined.trans hconf hblocks _ hlen.ge
    intro a ha
    rw [List.mem_singleton.mp ha]
    exact hown
  · intro a ha
    change a ∈ blocksOf r.1.disk (l + 2) r.2 at ha
    rw [blocksOf, hentries, hidx, List.flatMap_map, List.mem_cons] at ha
    rcases ha with rfl | ha
    · have hw : Within mt [info.node.pba] p' r.1 [r.2.pba] := settle_within
      rcases hw _ (List.mem_singleton_self _) with hm | ⟨j, hj, hj', he⟩
      · rw [List.mem_singleton.mp hm]
        exact .inl hown
      · exact .inr ⟨j, hle.trans hj, hj', he⟩
    · obtain ⟨i, hi, ha⟩ := List.mem_flatMap.mp ha
      rw [(subtree_congr sha (hkeep i hi)).1] at ha
      exact (h.within i hi).mono hblocks le_rfl hconf.answers_le a ha
  · rw [settle_hash, settle_disk_self]
  · intro idx hne
    change Consistent sha r.1.disk (l + 1) (innerEntries r.1.disk r.2.pba idx)
    change (innerEntries r.1.disk r.2.pba idx).pba ≠ 0 at hne
    rw [hentries] at hne ⊢
    have hm : idx ∈ cs.map Type1Info.index := by
      rw [← hidx]
      exact mem_childIndices.mpr hne
    obtain ⟨i, hi, rfl⟩ := List.mem_map.mp hm
    exact (subtree_congr sha (hkeep i hi)).2.2.mpr (h.consistent i hi)
  · change leavesOf r.1.disk (l + 2) r.2 = _
    rw [leavesOf, hentries, hidx, List.flatMap_map, leavesOf, ← childStack_map_index _
      req.currentGen, List.flatMap_map]
    rw [List.flatMap_congr fun i hi => (subtree_congr sha (hkeep i hi)).2.1, h.leaves]
    congr 1
    apply List.flatMap_congr
    intro i hi
    rw [(mem_childStack hi).2.1]
  · rw [settle_newBlocks, h.newBlocks, usableLeaves_inner]

/-- The second pass over a subtree exchanges its usable leaves as far as
needed and leaves the tree consistent. -/
theorem visit_spec (sha : Block → Hash) (req : Request) (hmt : mt.Sound blocks first) (l : Nat) (info : Type1Info) (p : Pass)
    (h : Sub sha blocks p.disk l info.node)
    (hr : Room blocks first (blocksOf p.disk l info.node) p) :
    Visited sha mt req blocks first l info.node p (visit sha mt req l info p).1
      (visit sha mt req l info p).2 := by
  induction l generalizing info p with
  | zero => exact h.consistent.elim
  | succ l ih =>
    cases l with
    | zero => exact visitLeaves_spec hmt h hr
    | succ l =>
      rw [visit]
      by_cases hs : (childStack (innerEntries p.disk info.node.pba) req.currentGen).isEmpty = true
      · rw [if_pos hs]
        apply h.visited_self
        rw [usableLeaves_inner, List.isEmpty_iff.mp hs]
        rfl
      · rw [if_neg hs]
        have hlen := h.length_blocksOf req
        have hr' := hr.mono (Nat.le_of_succ_le hlen.ge)
        exact (visitChildren_spec hmt ih _ _ p (h.children req).1 hr').settle_spec hmt h hr

end Spec

end Genode.Tresor.FreeTree
