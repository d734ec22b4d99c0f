import Genode.Tresor.FreeTreeUpdate

/-!
# FreeTreeAllocation — what an allocation guarantees

An allocation on a well-formed free tree comes to an end. It hands out an
address for each level that needs one, and puts the block that is given up
in its place, or it fails with everything unchanged.
-/

namespace Genode.Tresor.FreeTree

open Genode.Lib

/-! ## The effect of an exchange -/

section Exchange

variable {req : Request}

/-- The leaf `leaf` was handed out for the level `lvl`. -/
def HandedOut (req : Request) (nb : Nat → PhysicalBlockAddress) (leaf : Type2Node) (lvl : Nat)
    (leaf' : Type2Node) : Prop :=
  usable req leaf = true ∧ nb lvl = leaf.pba ∧ leaf' = oldLeaf req lvl

theorem map_fill {lvls : List Nat} (hnd : lvls.Nodup) (nb : Nat → PhysicalBlockAddress)
    {leaves : List Type2Node} (hlen : lvls.length ≤ leaves.length) :
    lvls.map (fill nb lvls leaves) = (leaves.take lvls.length).map Type2Node.pba := by
  induction lvls generalizing nb leaves with
  | nil => rfl
  | cons lvl lvls ih =>
    obtain ⟨hmem, hnd⟩ := List.nodup_cons.mp hnd
    cases leaves with
    | nil => exact absurd hlen (by simp)
    | cons leaf leaves =>
      rw [List.length_cons, List.length_cons, Nat.add_le_add_iff_right] at hlen
      rw [fill, List.map_cons, ih hnd _ hlen, fill_of_not_mem hmem, Function.update_self]
      rfl

/-- Every leaf stays as it is or is handed out. -/
theorem forall₂_exchangeLeaves {lvls : List Nat} (hnd : lvls.Nodup)
    (nb : Nat → PhysicalBlockAddress) (leaves : List Type2Node) :
    List.Forall₂ (fun leaf leaf' => leaf' = leaf ∨
        ∃ lvl ∈ lvls, HandedOut req (fill nb lvls (leaves.filter (usable req))) leaf lvl leaf')
      leaves (exchangeLeaves req lvls leaves) := by
  induction leaves generalizing lvls nb with
  | nil => cases lvls <;> exact .nil
  | cons leaf leaves ih =>
    cases lvls with
    | nil =>
      rw [exchangeLeaves_nil]
      exact List.forall₂_same.mpr fun _ _ => .inl rfl
    | cons lvl lvls =>
      obtain ⟨hmem, hnd'⟩ := List.nodup_cons.mp hnd
      rw [exchangeLeaves]
      by_cases hu : usable req leaf = true
      · rw [if_pos hu, List.filter_cons_of_pos hu, fill]
        refine .cons (.inr ⟨lvl, List.mem_cons_self, hu, ?_, rfl⟩) ?_
        · rw [fill_of_not_mem hmem, Function.update_self]
        · apply List.Forall₂.imp _ (ih hnd' (Function.update nb lvl leaf.pba))
          intro a b hab
          rcases hab with hab | ⟨k, hk, hh⟩
          · exact .inl hab
          · exact .inr ⟨k, List.mem_cons_of_mem _ hk, hh⟩
      · rw [if_neg hu, List.filter_cons_of_neg hu]
        exact .cons (.inl rfl) (ih hnd nb)

/-- Where a level's address comes from, the block of that level is put. -/
theorem exists_handedOut {lvls : List Nat} (hnd : lvls.Nodup) (nb : Nat → PhysicalBlockAddress)
    {leaves : List Type2Node} (hlen : lvls.length ≤ (leaves.filter (usable req)).length)
    {lvl : Nat} (hl : lvl ∈ lvls) :
    ∃ (i : Nat) (leaf : Type2Node), leaves[i]? = some leaf ∧ usable req leaf = true ∧
      fill nb lvls (leaves.filter (usable req)) lvl = leaf.pba ∧
      (exchangeLeaves req lvls leaves)[i]? = some (oldLeaf req lvl) := by
  induction leaves generalizing lvls nb with
  | nil =>
    rw [List.filter_nil, List.length_nil, Nat.le_zero, List.length_eq_zero_iff] at hlen
    rw [hlen] at hl
    cases hl
  | cons leaf leaves ih =>
    cases lvls with
    | nil => cases hl
    | cons k lvls =>
      obtain ⟨hmem, hnd'⟩ := List.nodup_cons.mp hnd
      rw [exchangeLeaves]
      by_cases hu : usable req leaf = true
      · rw [List.filter_cons_of_pos hu, List.length_cons, List.length_cons,
          Nat.add_le_add_iff_right] at hlen
        rw [if_pos hu, List.filter_cons_of_pos hu, fill]
        rcases List.mem_cons.mp hl with rfl | hl
        · refine ⟨0, leaf, rfl, hu, ?_, rfl⟩
          rw [fill_of_not_mem hmem, Function.update_self]
        · obtain ⟨i, b, hb, hbu, hf, he⟩ := ih hnd' (Function.update nb k leaf.pba) hlen hl
          exact ⟨i + 1, b, hb, hbu, hf, he⟩
      · rw [List.filter_cons_of_neg hu] at hlen
        rw [if_neg hu, List.filter_cons_of_neg hu]
        obtain ⟨i, b, hb, hbu, hf, he⟩ := ih hnd nb hlen hl
        exact ⟨i + 1, b, hb, hbu, hf, he⟩

/-- No address gets lost. -/
theorem perm_exchangeLeaves (lvls : List Nat) {leaves : List Type2Node}
    (hlen : lvls.length ≤ (leaves.filter (usable req)).length) :
    ((exchangeLeaves req lvls leaves).map Type2Node.pba ++
        ((leaves.filter (usable req)).take lvls.length).map Type2Node.pba).Perm
      (leaves.map Type2Node.pba ++ lvls.map fun lvl => (req.oldBlocks lvl).pba) := by
  induction leaves generalizing lvls with
  | nil =>
    rw [List.filter_nil, List.length_nil, Nat.le_zero, List.length_eq_zero_iff] at hlen
    rw [hlen]
    exact .refl _
  | cons leaf leaves ih =>
    cases lvls with
    | nil =>
      rw [exchangeLeaves_nil]
      exact .refl _
    | cons lvl lvls =>
      rw [exchangeLeaves]
      by_cases hu : usable req leaf = true
      · rw [List.filter_cons_of_pos hu, List.length_cons, List.length_cons,
          Nat.add_le_add_iff_right] at hlen
        rw [if_pos hu, List.filter_cons_of_pos hu, List.length_cons, List.take_succ_cons,
          List.map_cons, List.map_cons, List.map_cons, List.map_cons]
        -- the leaf moves to the addresses handed out, the old block into the tree
        have hcons := ((ih lvls hlen).cons (req.oldBlocks lvl).pba).cons leaf.pba
        exact List.perm_middle.trans (hcons.trans (List.perm_middle.symm.cons _))
      · rw [List.filter_cons_of_neg hu] at hlen
        rw [if_neg hu, List.filter_cons_of_neg hu]
        exact (ih (lvl :: lvls) hlen).cons _

end Exchange

/-! ## Allocations -/

section Allocation

variable {sha : Block → Hash} {mt : MetaTree} {disk : Disk} {answers : Nat} {c : Channel}
  {req : Request} {root : Type1Node} {nb : Nat → PhysicalBlockAddress}

/-- A free tree that a request may work on. -/
structure WellFormed (sha : Block → Hash) (disk : Disk) (maxLevel : Nat) (root : Type1Node) :
    Prop where
  two_le : 2 ≤ maxLevel
  le_max : maxLevel ≤ treeMaxLevel
  consistent : Consistent sha disk maxLevel root
  ne_zero : root.pba ≠ 0
  nodup_blocks : (blocksOf disk maxLevel root).Nodup
  nodup_leaves : (((leavesOf disk maxLevel root).map Type2Node.pba).filter fun a =>
    decide (a ≠ 0 ∧ a ≠ invalidPba)).Nodup

/-- A channel that waits for no other module. -/
structure Idle (c : Channel) : Prop where
  cache : c.cacheRequest.state = .invalid
  metaTree : c.metaTreeRequest.state = .invalid

/-- What a successful allocation leaves behind. -/
structure Allocated (sha : Block → Hash) (req : Request) (nb : Nat → PhysicalBlockAddress)
    (leaves : List Type2Node) (s : Config) : Prop where
  success : s.chan.success = true
  -- exactly the entries that were zero are filled
  kept : ∀ lvl ∉ levels req nb, s.chan.newBlocks lvl = nb lvl
  ne_zero : ∀ lvl ∈ levels req nb, s.chan.newBlocks lvl ≠ 0
  distinct : ((levels req nb).map s.chan.newBlocks).Nodup
  -- each address comes from a usable leaf, which becomes the old block of the level
  handedOut : ∀ lvl ∈ levels req nb, ∃ (i : Nat) (leaf : Type2Node), leaves[i]? = some leaf ∧
    usable req leaf = true ∧ s.chan.newBlocks lvl = leaf.pba ∧
    (leavesOf s.disk req.ftMaxLevel s.chan.ftRoot)[i]? = some (oldLeaf req lvl)
  exchanged : List.Forall₂ (fun leaf leaf' => leaf' = leaf ∨
      ∃ lvl ∈ levels req nb, HandedOut req s.chan.newBlocks leaf lvl leaf')
    leaves (leavesOf s.disk req.ftMaxLevel s.chan.ftRoot)
  perm : ((leavesOf s.disk req.ftMaxLevel s.chan.ftRoot).map Type2Node.pba ++
      (levels req nb).map s.chan.newBlocks).Perm
    (leaves.map Type2Node.pba ++ (levels req nb).map fun lvl => (req.oldBlocks lvl).pba)
  consistent : Consistent sha s.disk req.ftMaxLevel s.chan.ftRoot

/-- The addresses of the usable leaves are distinct. -/
theorem WellFormed.nodup_usable (h : WellFormed sha disk req.ftMaxLevel root) :
    ((usableLeaves req disk req.ftMaxLevel root).map Type2Node.pba).Nodup := by
  apply List.Sublist.nodup _ h.nodup_leaves
  have hsub : (usableLeaves req disk req.ftMaxLevel root).Sublist
      ((leavesOf disk req.ftMaxLevel root).filter fun leaf =>
        decide (leaf.pba ≠ 0 ∧ leaf.pba ≠ invalidPba)) := by
    apply List.monotone_filter_right
    intro leaf hu
    simp only [usable, checkType2LeafUsable] at hu
    split at hu
    · cases hu
    · rename_i hn
      exact decide_eq_true ⟨fun h => hn (.inl h), fun h => hn (.inr (.inl h))⟩
  rw [List.filter_map]
  exact hsub.map _

theorem WellFormed.sub (h : WellFormed sha disk req.ftMaxLevel root) :
    Sub sha (blocksOf disk req.ftMaxLevel root) disk req.ftMaxLevel root :=
  ⟨h.consistent, h.ne_zero, h.nodup_blocks, fun _ ha => ha⟩

theorem nodup_levels : (levels req nb).Nodup := List.nodup_range.filter _

/-- The second pass over the whole tree, when there are enough leaves. -/
theorem WellFormed.allocated (h : WellFormed sha disk req.ftMaxLevel root)
    (hlen : (levels req nb).length ≤ (usableLeaves req disk req.ftMaxLevel root).length)
    {p : Pass} {n : Type1Node} {blocks : List PhysicalBlockAddress} {first : Nat}
    (hv : Visited sha mt req blocks first req.ftMaxLevel root ⟨disk, answers, nb⟩ p n) {s : Config}
    (hsucc : s.chan.success = true) (hdisk : s.disk = p.disk) (hroot : s.chan.ftRoot = n)
    (hnew : s.chan.newBlocks = p.newBlocks) :
    Allocated sha req nb (leavesOf disk req.ftMaxLevel root) s := by
  have hnb : s.chan.newBlocks = fill nb (levels req nb)
      ((leavesOf disk req.ftMaxLevel root).filter (usable req)) := hnew.trans hv.newBlocks
  have hleaves : leavesOf s.disk req.ftMaxLevel s.chan.ftRoot =
      exchangeLeaves req (levels req nb) (leavesOf disk req.ftMaxLevel root) := by
    rw [hdisk, hroot]
    exact hv.leaves
  have hmap : (levels req nb).map s.chan.newBlocks =
      ((usableLeaves req disk req.ftMaxLevel root).take (levels req nb).length).map
        Type2Node.pba := by
    rw [hnb]
    exact map_fill nodup_levels nb hlen
  refine ⟨hsucc, ?_, ?_, ?_, ?_, ?_, ?_, ?_⟩
  · intro lvl hl
    rw [hnb, fill_of_not_mem hl]
  · intro lvl hl
    have hm : s.chan.newBlocks lvl ∈ (levels req nb).map s.chan.newBlocks := List.mem_map_of_mem hl
    rw [hmap, List.mem_map] at hm
    obtain ⟨leaf, hleaf, he⟩ := hm
    rw [← he]
    exact usable_pba_ne (List.mem_filter.mp (List.mem_of_mem_take hleaf)).2
  · rw [hmap, List.map_take]
    exact h.nodup_usable.sublist (List.take_sublist _ _)
  · intro lvl hl
    rw [hleaves, hnb]
    exact exists_handedOut nodup_levels nb hlen hl
  · rw [hleaves, hnb]
    exact forall₂_exchangeLeaves nodup_levels nb _
  · rw [hleaves, hmap]
    exact perm_exchangeLeaves _ hlen
  · rw [hdisk, hroot]
    exact hv.consistent

/-- The root is done: so is the second pass. -/
theorem Updating.updateNode_root (sha : Block → Hash) {t : Task} {stk : Nat → List Type1Info} {info : Type1Info}
    (h : Updating t stk c) (hinfo : info.state = .complete) (hf : finished t c = true) :
    ∃ c', updateNode sha c t.req.ftMaxLevel info (finished t c) = .ok c' ∧
      c'.state = .updateComplete ∧ Idle c' ∧ c'.newBlocks = c.newBlocks ∧
      c'.ftRoot = c.ftRoot := by
  have hroot : t.req.ftMaxLevel = c.request.ftMaxLevel ∧ finished t c = true := by
    rw [h.request]
    exact ⟨rfl, hf⟩
  refine ⟨{ c with cacheRequest := { c.cacheRequest with state := .invalid } }.setStack
    t.req.ftMaxLevel [] |> fun c => { c with state := .updateComplete }, ?_, rfl,
    ⟨rfl, h.metaTree⟩, rfl, rfl⟩
  simp only [updateNode, hinfo, Channel.setStack]
  rw [if_pos hroot, hf]
  rfl

/-- The second pass, from the end of the first to the end of the request. -/
theorem allocates (hft : WellFormed sha disk req.ftMaxLevel root)
    (hmt : mt.Sound (blocksOf disk req.ftMaxLevel root) answers)
    (htype : req.type ≠ .allocForRkgOldGenBlks)
    (hreq : req.requestedBlocks = (levels req nb).length)
    (hlen : req.requestedBlocks ≤ (usableLeaves req disk req.ftMaxLevel root).length)
    (hr : Resting c) {n : Nat} (hs : Scanning ⟨req, root, nb⟩ .scanComplete
      (Task.rootStack ⟨req, root, nb⟩) n c) :
    ∃ s, Reaches (step sha mt) ⟨c, disk, answers⟩ s ∧ s.chan.state = .complete ∧ Idle s.chan ∧
      Allocated sha req nb (leavesOf disk req.ftMaxLevel root) s := by
  let t : Task := ⟨req, root, nb⟩
  let c₁ : Channel := { c with state := .update }
  have hnotpending : ∀ {st : LocalState}, st = .invalid → st ≠ .pending := by
    intro st hst h
    rw [hst] at h
    cases h
  have hstep₁ : step sha mt ⟨c, disk, answers⟩ = .ok ⟨c₁, disk, answers⟩ :=
    step_execute (hnotpending hr.cache) (hnotpending hs.metaTree)
      (by simp only [execute, hs.state, Exec.pure_eq, c₁])
  have hupd : Updating t t.rootStack c₁ := by
    refine ⟨rfl, hs.request, hs.needed, ?_, hs.metaTree, hs.stk, .inl hr.leafs⟩
    change c.exchangedBlocks + (levels req c.newBlocks).length = req.requestedBlocks
    rw [hs.exchanged, hs.newBlocks, Nat.zero_add]
    exact hreq.symm
  have hlow : ∀ rest k, 1 ≤ k → k < req.ftMaxLevel →
      Function.update t.rootStack req.ftMaxLevel rest k = [] := by
    intro rest k _ hk
    rw [Function.update_of_ne hk.ne]
    exact Function.update_of_ne hk.ne _ _
  have hlow₁ : ∀ k, 1 ≤ k → k < req.ftMaxLevel → t.rootStack k = [] :=
    fun k _ hk => Function.update_of_ne hk.ne _ _
  let info := fresh root ⟨0, nrOfNodesPerBlk_pos⟩ req.currentGen
  have htop₁ : t.rootStack req.ftMaxLevel = [info] := Function.update_self ..
  obtain ⟨c₂, hreach, hdone⟩ := updatesNode (t := t) hmt htype hft.two_le
    hft.le_max le_rfl hupd hr.cache hlow₁ htop₁ rfl ⟨fun h => absurd h (lt_irrefl _), fun _ => hs.root⟩ hft.sub
    ⟨le_rfl, le_rfl⟩
  have hnew₁ : c₁.newBlocks = nb := hs.newBlocks
  rw [hnew₁] at hreach hdone
  have hv := visit_spec sha req hmt req.ftMaxLevel info ⟨disk, answers, nb⟩
    hft.sub ⟨le_rfl, le_rfl⟩
  obtain ⟨top, hcomplete, hupd₂⟩ := hdone.updating
  have hfin : finished t c₂ = true := by
    rw [finished, hdone.newBlocks, hv.levels_eq, List.isEmpty_iff, List.drop_eq_nil_iff]
    rw [← hreq]
    exact hlen
  obtain ⟨c₃, hexec₃, hstate₃, hidle₃, hnew₃, hroot₃⟩ :=
    hupd₂.updateNode_root sha hcomplete hfin
  have hexec₂ : execute sha c₂ = .ok c₃ := by
    have hle : 1 ≤ req.ftMaxLevel := by
      have := hft.two_le
      omega
    rw [hupd₂.execute_eq hle hft.le_max (hlow _) (Function.update_self ..)]
    exact hexec₃
  let r := visit sha mt req req.ftMaxLevel info ⟨disk, answers, nb⟩
  have hstep₂ : step sha mt ⟨c₂, r.1.disk, r.1.answers⟩ = .ok ⟨c₃, r.1.disk, r.1.answers⟩ :=
    step_execute hdone.cache (hnotpending hupd₂.metaTree) hexec₂
  let c₄ : Channel := { c₃ with success := true, state := .complete }
  have hexec₄ : execute sha c₃ = .ok c₄ := by
    simp only [execute, hstate₃, Exec.pure_eq, c₄]
  have hstep₃ : step sha mt ⟨c₃, r.1.disk, r.1.answers⟩ = .ok ⟨c₄, r.1.disk, r.1.answers⟩ :=
    step_execute (hnotpending hidle₃.cache) (hnotpending hidle₃.metaTree) hexec₄
  refine ⟨_, .head hstep₁ ((hreach.tail hstep₂).tail hstep₃), rfl, ⟨hidle₃.cache, hidle₃.metaTree⟩,
    hft.allocated (hreq ▸ hlen) hv rfl rfl ?_ ?_⟩
  · change c₃.ftRoot = _
    rw [hroot₃, hdone.upper.root]
    exact if_pos rfl
  · change c₃.newBlocks = _
    rw [hnew₃, hdone.newBlocks]

/-- An allocation comes to an end: with the addresses that it was asked for,
or, if there are too few usable leaves, with everything unchanged. -/
theorem allocation_terminates (hft : WellFormed sha disk req.ftMaxLevel root)
    (hmt : mt.Sound (blocksOf disk req.ftMaxLevel root) answers)
    (htype : req.type ≠ .allocForRkgOldGenBlks)
    (hreq : req.requestedBlocks = (levels req nb).length) (hidle : Idle c) :
    ∃ s, Reaches (step sha mt) ⟨submitRequest c req root nb, disk, answers⟩ s ∧
      s.chan.state = .complete ∧ Idle s.chan ∧
      (req.requestedBlocks ≤ (usableLeaves req disk req.ftMaxLevel root).length →
        Allocated sha req nb (leavesOf disk req.ftMaxLevel root) s) ∧
      ((usableLeaves req disk req.ftMaxLevel root).length < req.requestedBlocks →
        s.chan.success = false ∧ s.disk = disk ∧ s.chan.ftRoot = root ∧
          s.chan.newBlocks = nb) := by
  let t : Task := ⟨req, root, nb⟩
  have hscan : Scanning t .scan t.rootStack 0 (submitRequest c req root nb) :=
    ⟨rfl, rfl, rfl, rfl, rfl, hidle.metaTree, rfl, rfl, rfl⟩
  have hlow : ∀ k, 1 ≤ k → k < req.ftMaxLevel → t.rootStack k = [] :=
    fun k _ hk => Function.update_of_ne hk.ne _ _
  obtain ⟨c₁, hreach, hr₁, hafter⟩ := scansNode (t := t) sha mt disk answers
    hft.le_max le_rfl hscan ⟨hidle.cache, rfl⟩ hlow (Function.update_self ..)
    rfl hft.consistent
  rw [Nat.zero_add] at hafter
  unfold ScanAfter at hafter
  split at hafter
  · rename_i hn
    change req.requestedBlocks ≤ (usableLeaves req disk req.ftMaxLevel root).length at hn
    obtain ⟨n, hs⟩ := hafter
    obtain ⟨s, hreach₂, hstate, hid, halloc⟩ := allocates hft hmt htype hreq hn hr₁ hs
    exact ⟨s, hreach.trans hreach₂, hstate, hid, fun _ => halloc, fun h => absurd hn h.not_ge⟩
  · rename_i hn
    change ¬ req.requestedBlocks ≤ (usableLeaves req disk req.ftMaxLevel root).length at hn
    rw [if_pos rfl] at hafter
    let c₂ : Channel := { c₁ with success := false, state := .complete }
    have hexec : execute sha c₁ = .ok c₂ := by
      simp only [execute, hafter.state, Exec.pure_eq, c₂]
    have hstep : step sha mt ⟨c₁, disk, answers⟩ = .ok ⟨c₂, disk, answers⟩ :=
      step_execute (by rw [hr₁.cache]; intro h; cases h)
        (by rw [hafter.metaTree]; intro h; cases h) hexec
    exact ⟨⟨c₂, disk, answers⟩, hreach.tail hstep, rfl, ⟨hr₁.cache, hafter.metaTree⟩,
      fun h => absurd h hn, fun _ => ⟨rfl, rfl, hafter.root, hafter.newBlocks⟩⟩

/-- The free-tree update of an allocation, for requests that give their old
blocks up. -/
theorem free_tree_update_correct (hft : WellFormed sha disk req.ftMaxLevel root)
    (hmt : mt.Sound (blocksOf disk req.ftMaxLevel root) answers)
    (htype : req.type = .allocForNonRkg ∨ req.type = .allocForRkgCurrGenBlks)
    (hreq : req.requestedBlocks = (levels req nb).length) (hidle : Idle c) :
    ∃ s, Reaches (step sha mt) ⟨submitRequest c req root nb, disk, answers⟩ s ∧
      s.chan.state = .complete ∧ Idle s.chan ∧
      (req.requestedBlocks ≤ (usableLeaves req disk req.ftMaxLevel root).length →
        Allocated sha req nb (leavesOf disk req.ftMaxLevel root) s) ∧
      ((usableLeaves req disk req.ftMaxLevel root).length < req.requestedBlocks →
        s.chan.success = false ∧ s.disk = disk ∧ s.chan.ftRoot = root ∧
          s.chan.newBlocks = nb) := by
  apply allocation_terminates hft hmt _ hreq hidle
  intro hold
  rcases htype with h | h
  · rw [h] at hold
    cases hold
  · rw [h] at hold
    cases hold

end Allocation

/-! ### A tree with one usable leaf -/

section Sample

def sampleSha (blk : Block) : Hash := ⟨fun i => blk.bytes.getD i 0⟩

def sampleLeaves : Type2NodeBlock := fun idx => if idx = ⟨0, nrOfNodesPerBlk_pos⟩ then { pba := 100 } else {}

def sampleInner : Type1NodeBlock := fun idx =>
  if idx = ⟨0, nrOfNodesPerBlk_pos⟩ then
    { pba := 50, gen := 1, hash := sampleSha (Type2NodeBlock.encodeToBlk sampleLeaves) }
  else {}

def sampleDisk : Disk := fun pba =>
  if pba = 50 then Type2NodeBlock.encodeToBlk sampleLeaves
  else Type1NodeBlock.encodeToBlk sampleInner

def sampleRoot : Type1Node :=
  { pba := 40, gen := 1, hash := sampleSha (Type1NodeBlock.encodeToBlk sampleInner) }

def sampleRequest : Request :=
  { type := .allocForNonRkg
    ftMaxLevel := 2
    currentGen := 5
    freeGen := 5
    requestedBlocks := 1
    oldBlocks := fun _ => { pba := 77, gen := 3 }
    maxLevel := 0
    vba := 0
    vbdDegree := .max
    vbdHighestVba := 63
    rekeying := false
    previousKeyId := 0
    currentKeyId := 1
    rekeyingVba := 0
    snapshots := Snapshots.none
    lastSecuredGeneration := 4 }

def sampleMetaTree : MetaTree := { newPba := fun n => 200 + UInt64.ofNat n, work := fun _ d => d }

def sampleChannel : Channel :=
  { state := .complete
    request := sampleRequest
    ftRoot := {}
    newBlocks := fun _ => 0 }

theorem sampleDisk_inner : innerEntries sampleDisk 40 = sampleInner := innerEntries_encode rfl

theorem sampleDisk_leaves : leafEntries sampleDisk 50 = sampleLeaves ∧
    Type2NodeBlock.codec.accepts (sampleDisk 50).bytes = true := leafEntries_encode rfl

theorem childIndices_sampleInner : childIndices sampleInner = [⟨0, nrOfNodesPerBlk_pos⟩] := by
  decide +kernel

theorem sample_blocksOf : blocksOf sampleDisk 2 sampleRoot = [40, 50] := by
  rw [blocksOf]
  change (40 : PhysicalBlockAddress) :: (childIndices (innerEntries sampleDisk 40)).flatMap _ = _
  rw [sampleDisk_inner, childIndices_sampleInner]
  rfl

theorem sample_leavesOf : leavesOf sampleDisk 2 sampleRoot =
    (List.finRange nrOfNodesPerBlk).reverse.map sampleLeaves := by
  rw [leavesOf]
  change (childIndices (innerEntries sampleDisk 40)).flatMap _ = _
  rw [sampleDisk_inner, childIndices_sampleInner, List.flatMap_singleton, ← sampleDisk_leaves.1]
  rfl

theorem sample_wellFormed : WellFormed sampleSha sampleDisk 2 sampleRoot where
  two_le := le_rfl
  le_max := by decide
  consistent := by
    refine ⟨rfl, fun idx hidx => ?_⟩
    change (innerEntries sampleDisk 40 idx).pba ≠ 0 at hidx
    change Consistent sampleSha sampleDisk 1 (innerEntries sampleDisk 40 idx)
    rw [sampleDisk_inner] at hidx ⊢
    have hm := mem_childIndices.mpr hidx
    rw [childIndices_sampleInner, List.mem_singleton] at hm
    rw [hm]
    exact ⟨rfl, sampleDisk_leaves.2⟩
  ne_zero := by decide
  nodup_blocks := by
    rw [sample_blocksOf]
    decide
  nodup_leaves := by
    rw [sample_leavesOf]
    decide +kernel

theorem sample_metaTree_sound : sampleMetaTree.Sound [40, 50] 0 where
  not_mem := fun k _ hk => (by decide : ∀ k < 2, sampleMetaTree.newPba k ∉ [40, 50]) k hk
  distinct := fun j k _ hj hk =>
    (by decide : ∀ k < 2, ∀ j < k, sampleMetaTree.newPba j ≠ sampleMetaTree.newPba k) k hk j hj
  ne_zero := fun k _ hk => (by decide : ∀ k < 2, sampleMetaTree.newPba k ≠ 0) k hk
  work_eq := fun _ _ _ _ _ _ => rfl

theorem free_tree_update_correct_sample :
    ∃ s, Reaches (step sampleSha sampleMetaTree)
        ⟨submitRequest sampleChannel sampleRequest sampleRoot (fun _ => 0), sampleDisk, 0⟩ s ∧
      Allocated sampleSha sampleRequest (fun _ => 0) (leavesOf sampleDisk 2 sampleRoot) s := by
  have hft : WellFormed sampleSha sampleDisk sampleRequest.ftMaxLevel sampleRoot :=
    sample_wellFormed
  have hmt : sampleMetaTree.Sound (blocksOf sampleDisk sampleRequest.ftMaxLevel sampleRoot) 0 := by
    change sampleMetaTree.Sound (blocksOf sampleDisk 2 sampleRoot) 0
    rw [sample_blocksOf]
    exact sample_metaTree_sound
  have hlevels : sampleRequest.requestedBlocks = (levels sampleRequest fun _ => 0).length := by
    decide
  have hidle : Idle sampleChannel := ⟨rfl, rfl⟩
  obtain ⟨s, hreach, -, -, hsucc, -⟩ := free_tree_update_correct hft hmt (.inl rfl) hlevels hidle
  refine ⟨s, hreach, hsucc ?_⟩
  change 1 ≤ ((leavesOf sampleDisk 2 sampleRoot).filter (usable sampleRequest)).length
  rw [sample_leavesOf]
  decide +kernel

end Sample

end Genode.Tresor.FreeTree
