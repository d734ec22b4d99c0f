import Genode.Tresor.FreeTreeScan

/-!
# FreeTreeExchange — blocks handed out for blocks given up

What an exchange does to a sequence of leaves: the usable ones, in the
order of the scan, take the place of the blocks that are given up, until
an address is found for every level that needs one.
-/

namespace Genode.Tresor.FreeTree

open Genode.Lib

variable {req : Request}

/-! ## Exchanging leaves -/

/-- The leaf of the block of level `lvl` that is given up. -/
def oldLeaf (req : Request) (lvl : Nat) : Type2Node :=
  { pba := (req.oldBlocks lvl).pba
    allocGen := (req.oldBlocks lvl).gen
    freeGen := req.freeGen
    lastVba := vbdNodeLowestVba req.vbdDegree lvl req.vba
    lastKeyId :=
      if req.type = .allocForNonRkg ∧ (req.rekeying = true → req.vba < req.rekeyingVba) then
        req.currentKeyId
      else req.previousKeyId
    reserved := decide (req.type = .allocForNonRkg) }

theorem exchangedLeaf_eq (h : req.type ≠ .allocForRkgOldGenBlks) (lvl : Nat) (leaf : Type2Node) :
    exchangedLeaf req lvl (req.oldBlocks lvl) leaf = .ok (oldLeaf req lvl) := by
  unfold exchangedLeaf oldLeaf
  cases ht : req.type with
  | allocForNonRkg =>
    cases hr : req.rekeying with
    | false => simp
    | true => simp
  | allocForRkgCurrGenBlks => simp
  | allocForRkgOldGenBlks => exact absurd ht h

/-- The levels that still need an address. -/
def levels (req : Request) (newBlocks : Nat → PhysicalBlockAddress) : List Nat :=
  (List.range (req.maxLevel + 1)).filter fun lvl => decide (newBlocks lvl = 0)

/-- Give the levels the addresses of the leaves. -/
def fill : (Nat → PhysicalBlockAddress) → List Nat → List Type2Node → Nat → PhysicalBlockAddress
  | nb, lvl :: lvls, leaf :: leaves => fill (Function.update nb lvl leaf.pba) lvls leaves
  | nb, _, _ => nb

/-- Exchange the usable ones of a sequence of leaves. -/
def exchangeLeaves (req : Request) : List Nat → List Type2Node → List Type2Node
  | _, [] => []
  | [], leaves => leaves
  | lvl :: lvls, leaf :: leaves =>
    if usable req leaf then oldLeaf req lvl :: exchangeLeaves req lvls leaves
    else leaf :: exchangeLeaves req (lvl :: lvls) leaves

@[simp] theorem fill_nil_left (nb : Nat → PhysicalBlockAddress) (leaves : List Type2Node) :
    fill nb [] leaves = nb := by
  unfold fill
  rfl

@[simp] theorem fill_nil_right (nb : Nat → PhysicalBlockAddress) (lvls : List Nat) :
    fill nb lvls [] = nb := by
  cases lvls <;> rfl

theorem fill_of_not_mem {lvls : List Nat} {lvl : Nat} (h : lvl ∉ lvls)
    (nb : Nat → PhysicalBlockAddress) (leaves : List Type2Node) :
    fill nb lvls leaves lvl = nb lvl := by
  induction lvls generalizing nb leaves with
  | nil => rw [fill_nil_left]
  | cons l lvls ih =>
    cases leaves with
    | nil => rw [fill_nil_right]
    | cons leaf leaves =>
      rw [List.mem_cons, not_or] at h
      rw [fill, ih h.2, Function.update_of_ne h.1]

theorem fill_append (nb : Nat → PhysicalBlockAddress) (lvls : List Nat) (as bs : List Type2Node) :
    fill nb lvls (as ++ bs) = fill (fill nb lvls as) (lvls.drop as.length) bs := by
  induction as generalizing nb lvls with
  | nil => rw [List.nil_append, fill_nil_right, List.length_nil, List.drop_zero]
  | cons a as ih =>
    cases lvls with
    | nil => rw [fill_nil_left, fill_nil_left, List.drop_nil, fill_nil_left]
    | cons lvl lvls =>
      rw [List.cons_append, fill, ih, fill]
      rfl

@[simp] theorem exchangeLeaves_nil (leaves : List Type2Node) :
    exchangeLeaves req [] leaves = leaves := by
  cases leaves <;> rfl

theorem exchangeLeaves_append (lvls : List Nat) (as bs : List Type2Node) :
    exchangeLeaves req lvls (as ++ bs) = exchangeLeaves req lvls as ++
      exchangeLeaves req (lvls.drop (as.filter (usable req)).length) bs := by
  induction as generalizing lvls with
  | nil => rw [List.nil_append, List.filter_nil, List.length_nil, List.drop_zero, exchangeLeaves,
      List.nil_append]
  | cons a as ih =>
    cases lvls with
    | nil => simp only [exchangeLeaves_nil, List.drop_nil]
    | cons lvl lvls =>
      rw [List.cons_append, exchangeLeaves, exchangeLeaves]
      by_cases ha : usable req a = true
      · rw [if_pos ha, if_pos ha, ih, List.filter_cons_of_pos ha]
        rfl
      · rw [if_neg ha, if_neg ha, ih, List.filter_cons_of_neg ha]
        rfl

theorem exchangeLeaves_of_filter_eq_nil {leaves : List Type2Node}
    (h : leaves.filter (usable req) = []) (lvls : List Nat) :
    exchangeLeaves req lvls leaves = leaves := by
  induction leaves with
  | nil => rfl
  | cons a as ih =>
    have ha : ¬ usable req a = true := List.filter_eq_nil_iff.mp h a List.mem_cons_self
    rw [List.filter_cons_of_neg ha] at h
    cases lvls with
    | nil => rw [exchangeLeaves_nil]
    | cons lvl lvls => rw [exchangeLeaves, if_neg ha, ih h]

theorem usable_pba_ne {leaf : Type2Node} (h : usable req leaf = true) : leaf.pba ≠ 0 := by
  intro hp
  simp [usable, checkType2LeafUsable, hp] at h

theorem filter_update_zero {lvls : List Nat} {lvl : Nat} (h : lvl ∉ lvls)
    (nb : Nat → PhysicalBlockAddress) (pba : PhysicalBlockAddress) :
    lvls.filter (fun k => decide (Function.update nb lvl pba k = 0)) =
      lvls.filter fun k => decide (nb k = 0) := by
  apply List.filter_congr
  intro k hk
  rw [Function.update_of_ne (ne_of_mem_of_not_mem hk h)]

/-- Filling in leaves takes care of the first levels. -/
theorem filter_fill {lvls : List Nat} (hnd : lvls.Nodup) (nb : Nat → PhysicalBlockAddress)
    (leaves : List Type2Node) (hl : ∀ leaf ∈ leaves, leaf.pba ≠ 0) :
    lvls.filter (fun k => decide (fill nb (lvls.filter fun k => decide (nb k = 0)) leaves k = 0)) =
      (lvls.filter fun k => decide (nb k = 0)).drop leaves.length := by
  induction lvls generalizing nb leaves with
  | nil => rw [List.filter_nil, List.filter_nil, List.drop_nil]
  | cons lvl lvls ih =>
    obtain ⟨hmem, hnd⟩ := List.nodup_cons.mp hnd
    by_cases hz : nb lvl = 0
    · rw [List.filter_cons_of_pos (p := fun k => decide (nb k = 0)) (decide_eq_true hz)]
      cases leaves with
      | nil =>
        simp only [fill_nil_right, List.length_nil, List.drop_zero]
        rw [List.filter_cons_of_pos (p := fun k => decide (nb k = 0)) (decide_eq_true hz)]
      | cons leaf leaves =>
        have hp : leaf.pba ≠ 0 := hl leaf List.mem_cons_self
        have hfill : fill nb (lvl :: lvls.filter fun k => decide (nb k = 0)) (leaf :: leaves) lvl =
            leaf.pba := by
          rw [fill, fill_of_not_mem (fun h => hmem (List.mem_filter.mp h).1), Function.update_self]
        rw [List.filter_cons_of_neg (by rw [hfill]; exact Bool.not_eq_true _ ▸ decide_eq_false hp),
          List.length_cons, List.drop_succ_cons]
        have := ih hnd (Function.update nb lvl leaf.pba) leaves
          fun x hx => hl x (List.mem_cons_of_mem _ hx)
        rwa [filter_update_zero hmem] at this
    · rw [List.filter_cons_of_neg (p := fun k => decide (nb k = 0))
        (by rw [decide_eq_false hz]; exact Bool.false_ne_true)]
      have hfill : fill nb (lvls.filter fun k => decide (nb k = 0)) leaves lvl = nb lvl :=
        fill_of_not_mem (fun h => hmem (List.mem_filter.mp h).1) _ _
      rw [List.filter_cons_of_neg (by rw [hfill, decide_eq_false hz]; exact Bool.false_ne_true)]
      exact ih hnd nb leaves hl

theorem levels_fill (nb : Nat → PhysicalBlockAddress) (leaves : List Type2Node)
    (hl : ∀ leaf ∈ leaves, leaf.pba ≠ 0) :
    levels req (fill nb (levels req nb) leaves) = (levels req nb).drop leaves.length :=
  filter_fill List.nodup_range nb leaves hl

/-- Exchange the leaves of a stack in the node block that they come from. -/
def exchangeEntries (req : Request) (lvls : List Nat) (stack : List Type2Info)
    (entries : Type2NodeBlock) : Type2NodeBlock :=
  (lvls.zip stack).foldl (fun e p => Function.update e p.2.index (oldLeaf req p.1)) entries

theorem exchangeEntries_cons (lvl : Nat) (lvls : List Nat) (info : Type2Info)
    (stack : List Type2Info) (entries : Type2NodeBlock) :
    exchangeEntries req (lvl :: lvls) (info :: stack) entries =
      exchangeEntries req lvls stack (Function.update entries info.index (oldLeaf req lvl)) := rfl

/-- The exchange loop takes the leaves from the stack as they come. -/
theorem exchangeLoop_eq (htype : req.type ≠ .allocForRkgOldGenBlks) {lvls : List Nat}
    (hl : lvls.Nodup) (e : Exchange) (hidx : (e.stack.map Type2Info.index).Nodup)
    (hnode : ∀ i ∈ e.stack, e.entries i.index = i.node) :
    exchangeLoop req lvls e = .ok
      { newBlocks := fill e.newBlocks (lvls.filter fun k => decide (e.newBlocks k = 0))
          (e.stack.map Type2Info.node)
        stack := e.stack.drop (lvls.filter fun k => decide (e.newBlocks k = 0)).length
        entries := exchangeEntries req (lvls.filter fun k => decide (e.newBlocks k = 0)) e.stack
          e.entries
        exchanged := e.exchanged +
          min (lvls.filter fun k => decide (e.newBlocks k = 0)).length e.stack.length } := by
  induction lvls generalizing e with
  | nil =>
    simp only [exchangeLoop, List.filter_nil, fill_nil_left, List.length_nil, List.drop_zero,
      exchangeEntries, List.zip_nil_left, List.foldl_nil, Nat.zero_min, Nat.add_zero, Exec.pure_eq]
  | cons lvl lvls ih =>
    obtain ⟨hmem, hl⟩ := List.nodup_cons.mp hl
    rw [exchangeLoop]
    by_cases hz : e.newBlocks lvl = 0
    · rw [if_pos hz, List.filter_cons_of_pos (p := fun k => decide (e.newBlocks k = 0))
        (decide_eq_true hz)]
      cases hs : e.stack with
      | nil =>
        obtain ⟨nb, stack, entries, n⟩ := e
        simp only at hs
        subst hs
        simp only [List.map_nil, fill_nil_right, List.drop_nil, exchangeEntries, List.zip_nil_right,
          List.foldl_nil, List.length_nil, Nat.min_zero, Nat.add_zero, Exec.pure_eq]
      | cons info stack =>
        rw [hs] at hidx hnode
        rw [List.map_cons, List.nodup_cons] at hidx
        have hinfo := hnode info List.mem_cons_self
        simp only [hinfo, decide_true, Exec.assert_true, Exec.ok_bind, exchangedLeaf_eq htype]
        rw [ih hl _ hidx.2]
        · simp only [filter_update_zero hmem, List.map_cons, List.length_cons, exchangeEntries,
            List.zip_cons_cons, List.foldl_cons, List.drop_succ_cons, fill]
          congr 2
          omega
        · intro i hi
          have hne : i.index ≠ info.index := fun h => hidx.1 (h ▸ List.mem_map_of_mem hi)
          exact (Function.update_of_ne hne _ _).trans (hnode i (List.mem_cons_of_mem _ hi))
    · rw [if_neg hz, ih hl e hidx hnode, List.filter_cons_of_neg
        (p := fun k => decide (e.newBlocks k = 0))
        (by rw [decide_eq_false hz]; exact Bool.false_ne_true)]

/-- The leaves of the indices `is` after the exchange of the usable ones. -/
theorem map_exchangeEntries {is : List (Fin nrOfNodesPerBlk)} (hnd : is.Nodup) (lvls : List Nat)
    (entries : Type2NodeBlock) :
    is.map (exchangeEntries req lvls ((is.filter fun i => usable req (entries i)).map fun i =>
      { node := entries i, index := i }) entries) = exchangeLeaves req lvls (is.map entries) ∧
    ∀ i ∉ is, exchangeEntries req lvls ((is.filter fun i => usable req (entries i)).map fun i =>
      { node := entries i, index := i }) entries i = entries i := by
  induction is generalizing lvls entries with
  | nil => simp [exchangeEntries, exchangeLeaves]
  | cons i is ih =>
    obtain ⟨hmem, hnd⟩ := List.nodup_cons.mp hnd
    cases lvls with
    | nil => simp [exchangeEntries]
    | cons lvl lvls =>
      by_cases hu : usable req (entries i) = true
      · -- the stack of the rest does not depend on the leaf that is exchanged
        let entries' := Function.update entries i (oldLeaf req lvl)
        have hrest : ∀ j ∈ is, entries' j = entries j := fun j hj =>
          Function.update_of_ne (ne_of_mem_of_not_mem hj hmem) _ _
        have hstack : (is.filter fun j => usable req (entries' j)).map (fun j =>
            ({ node := entries' j, index := j } : Type2Info)) =
            (is.filter fun j => usable req (entries j)).map fun j =>
              { node := entries j, index := j } := by
          rw [List.filter_congr fun j hj => by rw [hrest j hj]]
          apply List.map_congr_left
          intro j hj
          rw [hrest j (List.mem_filter.mp hj).1]
        obtain ⟨hmap, hout⟩ := ih hnd lvls entries'
        rw [hstack] at hmap hout
        have hcons : ((i :: is).filter fun j => usable req (entries j)).map (fun j =>
            ({ node := entries j, index := j } : Type2Info)) = { node := entries i, index := i } ::
            (is.filter fun j => usable req (entries j)).map fun j =>
              { node := entries j, index := j } := by
          rw [List.filter_cons_of_pos (p := fun j => usable req (entries j)) hu, List.map_cons]
        rw [hcons, exchangeEntries_cons]
        refine ⟨?_, fun j hj => ?_⟩
        · rw [List.map_cons, List.map_cons, exchangeLeaves, if_pos hu, hmap, hout i hmem,
            List.map_congr_left hrest]
          simp only [entries', Function.update_self]
        · rw [List.mem_cons, not_or] at hj
          rw [hout j hj.2]
          exact Function.update_of_ne hj.1 _ _
      · obtain ⟨hmap, hout⟩ := ih hnd (lvl :: lvls) entries
        rw [List.filter_cons_of_neg (p := fun j => usable req (entries j)) hu]
        refine ⟨?_, fun j hj => ?_⟩
        · rw [List.map_cons, List.map_cons, exchangeLeaves, if_neg hu, hmap, hout i hmem]
        · rw [List.mem_cons, not_or] at hj
          exact hout j hj.2

end Genode.Tresor.FreeTree
