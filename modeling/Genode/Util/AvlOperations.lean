import Genode.Util.AvlRefinement

/-!
# AvlOperations — insertion and removal

`insert` and `remove` return, and what is linked afterwards is the tree
that `AvlShape` tells. A node takes part only while it is in the tree:
one that is inserted must be as its constructor made it, and a removed
one loses its pointers, but not its depth.
-/

namespace Genode.Util.AvlNodes

open BinaryTree Lib Lib.LinkedTree

variable {ι β : Type} {s s' : AvlNodes ι β} {P : AvlPolicy ι β} {root p q x y node : ι}
  {i j k : Bool} {n : Nat} {S : List ι} {l r t u : BinaryTree ι} {c d : List (Frame ι)}

/-- The nodes below `root` are the tree `t`. -/
structure IsTree (root : ι) (t : BinaryTree ι) (s : AvlNodes ι β) : Prop where
  root_parent : s.parent root = none
  root_right : s.child root true = none
  attached : Attached s.child s.parent root false t
  linked : Linked s.child s.parent t
  nodup : (root :: inorder t).Nodup
  depthOk : ∀ q ∈ root :: inorder t, s.DepthOk q

/-- The node has just been constructed. -/
def Fresh (s : AvlNodes ι β) (q : ι) : Prop :=
  (∀ i, s.child q i = none) ∧ s.parent q = none ∧ s.depth q = 1

theorem Fresh.depthOk (h : s.Fresh q) : s.DepthOk q := by
  unfold DepthOk newDepth childDepth
  simp [h.1, h.2.2]

theorem parent_of_linked (hl : Linked s.child s.parent t) (hn : (inorder t).Nodup)
    (hq : q ∈ inorder t) (ht : top t ≠ some q) :
    ∃ p ∈ inorder t, p ≠ q ∧ s.parent q = some p := by
  induction t with
  | nil => simp at hq
  | node y l r ihl ihr =>
    obtain ⟨h₁, h₂, h₃, h₄⟩ := hl
    have hyq : y ≠ q := fun he => ht (he ▸ rfl)
    have hsub : ∀ {i : Bool} {u : BinaryTree ι}, Attached s.child s.parent y i u →
        (top u ≠ some q → ∃ p ∈ inorder u, p ≠ q ∧ s.parent q = some p) →
        (∀ p ∈ inorder u, p ∈ inorder (node y l r)) →
        ∃ p ∈ inorder (node y l r), p ≠ q ∧ s.parent q = some p := by
      intro i u hu ih hm
      by_cases htop : top u = some q
      · exact ⟨y, by simp, hyq, hu.parent_eq q htop⟩
      · obtain ⟨p, hp, hpq⟩ := ih htop
        exact ⟨p, hm p hp, hpq⟩
    simp only [inorder, List.nodup_append, List.nodup_cons] at hn
    simp only [inorder, List.mem_append, List.mem_cons] at hq
    rcases hq with hq | rfl | hq
    · exact hsub h₁ (ihl h₃ hn.1 hq) fun p hp => by simp [hp]
    · exact absurd rfl hyq
    · exact hsub h₂ (ihr h₄ hn.2.1.2 hq) fun p hp => by simp [hp]

theorem child_of_linked (hl : Linked s.child s.parent t) (hq : q ∈ inorder t)
    (hx : s.child q i = some x) : x ∈ inorder t := by
  induction t with
  | nil => simp at hq
  | node y l r ihl ihr =>
    obtain ⟨h₁, h₂, h₃, h₄⟩ := hl
    simp only [inorder, List.mem_append, List.mem_cons] at hq ⊢
    rcases hq with hq | rfl | hq
    · exact .inl (ihl h₃ hq)
    · cases i with
      | false => exact .inl (mem_of_top (h₁.child_eq.symm.trans hx))
      | true => exact .inr (.inr (mem_of_top (h₂.child_eq.symm.trans hx)))
    · exact .inr (.inr (ihr h₄ hq))

namespace IsTree

/-- The parents of the nodes of the tree. -/
theorem parent_mem (h : IsTree root t s) (hq : q ∈ inorder t) :
    ∃ p ∈ root :: inorder t, p ≠ q ∧ s.parent q = some p := by
  have hn := List.nodup_cons.mp h.nodup
  by_cases ht : top t = some q
  · refine ⟨root, by simp, ?_, h.attached.parent_eq q ht⟩
    rintro rfl
    exact hn.1 hq
  · obtain ⟨p, hp, hpq⟩ := parent_of_linked h.linked hn.2 hq ht
    exact ⟨p, by simp [hp], hpq⟩

/-- The children of the nodes of the tree. -/
theorem child_mem (h : IsTree root t s) (hq : q ∈ root :: inorder t) (hx : s.child q i = some x) :
    x ∈ inorder t := by
  rcases List.mem_cons.mp hq with rfl | hq
  · cases i with
    | false => exact mem_of_top (h.attached.child_eq.symm.trans hx)
    | true => simp [h.root_right] at hx
  · exact child_of_linked h.linked hq hx

/-- The operations may also touch nodes without parent. -/
theorem zip (h : IsTree root t s) (hS : ∀ q ∈ root :: inorder t, q ∈ S)
    (hout : ∀ q ∈ S, q ∉ root :: inorder t → s.parent q = none ∧ s.DepthOk q) :
    Zip S root [] t s := by
  refine zip_iff.mpr ⟨⟨fun q hq => ?_, fun q hq p hp => ?_, fun q hq _ => ?_⟩,
    ⟨h.root_parent, h.root_right⟩, ⟨h.attached, h.linked⟩, h.nodup, hS⟩
  · by_cases hqt : q ∈ root :: inorder t
    · rcases List.mem_cons.mp hqt with rfl | hqt
      · simp [h.root_parent]
      · obtain ⟨p, -, hpq, hp⟩ := h.parent_mem hqt
        simpa [hp] using hpq
    · simp [(hout q hq hqt).1]
  · by_cases hqt : q ∈ root :: inorder t
    · rcases List.mem_cons.mp hqt with rfl | hqt
      · simp [h.root_parent] at hp
      · obtain ⟨p', hp', -, hpq⟩ := h.parent_mem hqt
        obtain rfl : p' = p := by simpa [hpq] using hp
        exact hS p' hp'
    · simp [(hout q hq hqt).1] at hp
  · by_cases hqt : q ∈ root :: inorder t
    · exact h.depthOk q hqt
    · exact (hout q hq hqt).2

/-- The children of a node have it as their parent. -/
theorem keeps (h : IsTree root t s) (hq : q ∈ root :: inorder t) : s.Keeps q := by
  rcases List.mem_cons.mp hq with rfl | hq
  · exact keeps_of_attached h.attached (attached_nil.mpr h.root_right)
  · obtain ⟨c, l, r, rfl⟩ := exists_plug_of_mem hq
    obtain ⟨-, -, h₁, h₂, -⟩ := linked_plug.mp ⟨h.attached, h.linked⟩
    exact keeps_of_attached h₁ h₂

theorem of_zip (h : Zip S root [] t s) : IsTree root t s := by
  obtain ⟨hI, ⟨hr, hr'⟩, ⟨ha, hl⟩, hn, hm⟩ := zip_iff.mp h
  refine ⟨hr, hr', ha, hl, hn, fun q hq => ?_⟩
  rcases List.mem_cons.mp hq with rfl | hq
  · exact hI.depthOk q (hm q (by simp)) (keeps_of_attached ha (attached_nil.mpr hr'))
  · obtain ⟨c, l, r, rfl⟩ := exists_plug_of_mem hq
    exact (zip_plug.mpr h).depthOk top_node

/-- The tree does not depend on other nodes. -/
theorem congr (h : IsTree root t s) (hc : ∀ q ∈ root :: inorder t, s'.child q = s.child q)
    (hp : ∀ q ∈ root :: inorder t, s'.parent q = s.parent q)
    (hd : ∀ q ∈ root :: inorder t, s'.depth q = s.depth q) : IsTree root t s' := by
  refine ⟨?_, ?_, ?_, ?_, h.nodup, fun q hq => ?_⟩
  · rw [hp root (by simp), h.root_parent]
  · rw [hc root (by simp), h.root_right]
  · exact h.attached.congr (by rw [hc root (by simp)]) fun q hq => hp q (by simp [mem_of_top hq])
  · exact h.linked.congr (List.nodup_cons.mp h.nodup).2 (fun q hq => hc q (by simp [hq]))
      fun q hq _ => hp q (by simp [hq])
  · have hnew : s'.newDepth q = s.newDepth q := by
      refine newDepth_congr (hc q hq) fun i a ha => hd a ?_
      exact List.mem_cons_of_mem _ (h.child_mem hq ha)
    exact (hd q hq).trans ((h.depthOk q hq).trans hnew.symm)

theorem congr_of_ne (h : IsTree root t s) (hx : x ∉ root :: inorder t)
    (hc : ∀ q, q ≠ x → s'.child q = s.child q) (hp : ∀ q, q ≠ x → s'.parent q = s.parent q)
    (hd : ∀ q, q ≠ x → s'.depth q = s.depth q) : IsTree root t s' := by
  have hne : ∀ q ∈ root :: inorder t, q ≠ x := by
    rintro q hq rfl
    exact hx hq
  exact h.congr (fun q hq => hc q (hne q hq)) (fun q hq => hp q (hne q hq))
    fun q hq => hd q (hne q hq)

end IsTree

/-- A node without children, as a tree. -/
theorem piece_leaf (h : ∀ i, s.child q i = none) (hc : q ∉ root :: frameNodes c) (hS : q ∈ S) :
    Piece S root c (BinaryTree.node q nil nil) s := by
  refine ⟨⟨attached_nil.mpr (h _), attached_nil.mpr (h _), trivial, trivial⟩, by simp, ?_, ?_⟩
  · simpa using hc
  · simpa using hS

variable [DecidableEq ι] [Fintype ι]

/-! ## Insertion -/

/-- The new computation of a depth that was right. -/
theorem Zip.recomputeDepth (h : Zip S root c t s) :
    ∃ s', AvlNodes.recomputeDepth P (fuel ι) (hole root c).1 s = .ok s' ∧ Zip S root c t s' ∧
      Outside S s s' := by
  obtain ⟨xs, hxs, hxn, -⟩ := h.context.frames.chain h.context.root_parent h.context.nodup
  have hI := h.context.inv
  obtain ⟨s', hs'⟩ := WalkEnds.returns (P := P) (.inl ⟨xs, hxs, hxn⟩)
  obtain ⟨hc, hp⟩ := recomputeDepth_links hs'
  have hx := h.context.mem _ hole_mem
  refine ⟨s', hs', ?_, recomputeDepth_outside hs' hx hI.parent_mem⟩
  have hI' : s'.Inv S := by
    refine ⟨hp ▸ hI.parent_ne, hp ▸ hI.parent_mem, ?_⟩
    exact recomputeDepth_depthOk hs' hx hI.parent_ne hI.parent_mem fun q hq _ => hI.depthOk q hq
  rw [zip_iff, hc, hp]
  exact ⟨hI', (zip_iff.mp h).2⟩

/-- The insertion into the subtree at a node of the tree. -/
theorem Zip.insertAt (h : Zip S root c t s) (ht : top t = some x) (hS : node ∈ S)
    (hc : node ∉ root :: frameNodes c) (hnt : node ∉ inorder t) (hleaf : ∀ i, s.child node i = none)
    (hn : t.numNodes ≤ n) :
    ∃ s', AvlNodes.insertAt P n x node s = .ok s' ∧
      Zip S root c (AvlShape.ins P.higher node t) s' ∧ Outside S s s' := by
  induction n generalizing c t x with
  | zero =>
    cases t with
    | nil => simp at ht
    | node y l r => simp at hn
  | succ n ih =>
    have hxn : node ≠ x := by
      rintro rfl
      exact hnt (mem_of_top ht)
    have hz := h.down ht (P.higher x node)
    have hjoin := join_sub ht (P.higher x node)
    have hnode : node ∉ inorder (sub (P.higher x node) t) ∧
        node ∉ inorder (sub (!P.higher x node) t) := by
      rw [← hjoin, mem_inorder_join] at hnt
      tauto
    have hc' : node ∉ root :: frameNodes (⟨x, P.higher x node, sub (!P.higher x node) t⟩ :: c) :=
      apart_cons.mpr ⟨hxn, hnode.2, hc⟩
    have hsize : (sub (P.higher x node) t).numNodes ≤ n := by
      cases t with
      | nil => simp at ht
      | node y l r =>
        simp only [numNodes] at hn
        cases P.higher x node
        · exact (show l.numNodes ≤ n by omega)
        · exact (show r.numNodes ≤ n by omega)
    rw [AvlNodes.insertAt, if_neg hxn, h.parent_eq ht, Option.elim_some]
    dsimp only
    rw [h.child_eq ht]
    have hstep : ∃ s₁, ((top (sub (P.higher x node) t)).elim
          (s.adopt P x (some node) (P.higher x node)) fun c => AvlNodes.insertAt P n c node s) =
          .ok s₁ ∧
        Zip S root (⟨x, P.higher x node, sub (!P.higher x node) t⟩ :: c)
          (AvlShape.ins P.higher node (sub (P.higher x node) t)) s₁ ∧ Outside S s s₁ := by
      cases hy : top (sub (P.higher x node) t) with
      | some y => exact ih hz hy hc' hnode.1 hsize
      | none =>
        rw [top_eq_none.mp hy]
        obtain ⟨s₁, h₁, hz₁, -, ho₁⟩ := hz.context.adopt (P := P) (piece_leaf hleaf hc' hS)
        exact ⟨s₁, h₁, hz₁, ho₁⟩
    obtain ⟨s₁, h₁, hz₁, ho₁⟩ := hstep
    obtain ⟨s₂, h₂, hz₂, ho₂⟩ := hz₁.recomputeDepth (P := P)
    have hz₂' := zip_cons.mp hz₂
    obtain ⟨s₃, h₃, hz₃, ho₃⟩ := hz₂'.rebalanceSubtree (P := P) top_join
    refine ⟨s₃, ?_, ?_, (ho₁.trans ho₂).trans ho₃⟩
    · simp only [hole] at h₂
      rw [h₁, Exec.ok_bind, h₂, Exec.ok_bind, hz₂'.parent_eq top_join]
      exact h₃
    · rw [AvlShape.ins_of_top ht]
      exact hz₃

/-- `insert` of a node that is not in the tree. -/
theorem IsTree.insert (h : IsTree root t s) (hnode : node ∉ root :: inorder t)
    (hf : s.Fresh node) :
    ∃ s', s.insert P root node = .ok s' ∧ IsTree root (AvlShape.ins P.higher node t) s' ∧
      Outside (node :: root :: inorder t) s s' := by
  have hz : Zip (node :: root :: inorder t) root [] t s := by
    refine h.zip (fun q hq => List.mem_cons_of_mem _ hq) fun q hq hqt => ?_
    obtain rfl : q = node := (List.mem_cons.mp hq).resolve_right hqt
    exact ⟨hf.2.1, hf.depthOk⟩
  have hrn : node ≠ root := by
    rintro rfl
    simp at hnode
  have hcard : t.numNodes < fuel ι := by
    rw [← inorder_length]
    exact Nat.lt_succ_of_le (List.nodup_cons.mp h.nodup).2.length_le_card
  unfold AvlNodes.insert
  obtain ⟨m, hm⟩ : ∃ m, fuel ι = m + 1 := ⟨Fintype.card ι, rfl⟩
  rw [hm] at hcard ⊢
  rw [AvlNodes.insertAt, if_neg hrn, h.root_parent, Option.elim_none]
  dsimp only
  rw [h.attached.child_eq]
  have hstep : ∃ s₁, ((top t).elim (s.adopt P root (some node) false)
        fun c => AvlNodes.insertAt P m c node s) = .ok s₁ ∧
      Zip (node :: root :: inorder t) root [] (AvlShape.ins P.higher node t) s₁ ∧
      Outside (node :: root :: inorder t) s s₁ := by
    cases hy : top t with
    | some y =>
      exact hz.insertAt hy (by simp) (by simpa using hrn) (fun hq => hnode (by simp [hq])) hf.1
        (by omega)
    | none =>
      obtain rfl := top_eq_none.mp hy
      have hleaf : Piece (node :: root :: inorder nil) root [] (BinaryTree.node node nil nil) s :=
        piece_leaf hf.1 (by simpa using hrn) (by simp)
      obtain ⟨s₁, h₁, hz₁, -, ho₁⟩ := hz.context.adopt (P := P) hleaf
      exact ⟨s₁, h₁, hz₁, ho₁⟩
  obtain ⟨s₁, h₁, hz₁, ho₁⟩ := hstep
  obtain ⟨s₂, h₂, hz₂, ho₂⟩ := hz₁.recomputeDepth (P := P)
  refine ⟨s₂, ?_, .of_zip hz₂, ho₁.trans ho₂⟩
  simp only [hole] at h₂
  rw [h₁, Exec.ok_bind, h₂, Exec.ok_bind, hz₂.context.root_parent]
  rfl

/-! ## Removal -/

omit [Fintype ι] [DecidableEq ι] in
/-- A node outside of the context is not at the other side of the hole. -/
theorem Hole.child_other_ne (h : Hole S root c s) (hx : x ∉ root :: frameNodes c) :
    s.child (hole root c).1 (!(hole root c).2) ≠ some x := by
  cases c with
  | nil =>
    simp only [hole, Bool.not_false]
    rw [h.root_right]
    simp
  | cons f c =>
    simp only [hole]
    rw [h.frames.1.child_eq]
    exact fun ht => (apart_cons.mp hx).2.1 (mem_of_top ht)

/-- The parent looks at both sides and adopts at the one where the node is. -/
theorem Hole.replaceChild (h : Hole S root c s) (hx : x ∉ root :: frameNodes c)
    (hxp : s.child (hole root c).1 (hole root c).2 = some x) {a : Option ι}
    (ha : ∀ y, a = some y → y ∈ S ∧ y ∉ root :: frameNodes c) :
    ∃ s', s.replaceChild P (hole root c).1 x a = .ok s' ∧ Hole S root c s' ∧
      Adopted s (hole root c).1 a (hole root c).2 s' ∧ Outside S s s' := by
  obtain ⟨s', h', hc', hs', ho'⟩ := h.adopt_node (P := P) ha
  refine ⟨s', ?_, hc', hs', ho'⟩
  have hother := h.child_other_ne hx
  unfold AvlNodes.replaceChild
  generalize (hole root c).2 = k at *
  cases k with
  | false =>
    rw [if_pos hxp, h', Exec.ok_bind, if_neg]
    rw [hs'.child, if_neg (by simp)]
    exact hother
  | true =>
    rw [Bool.not_true] at hother
    rw [if_neg hother, Exec.ok_bind, if_pos hxp, h']

omit [DecidableEq ι] [Fintype ι] in
/-- The way to the right-most node. -/
theorem Zip.rightmost (h : Zip S root c t s) (ht : top t = some x) (hn : t.numNodes ≤ n) :
    ∃ d y u, t = plug d (BinaryTree.node y u nil) ∧ (∀ f ∈ d, f.side = true) ∧
      s.rightmost n x = .ok y := by
  induction t generalizing c x n with
  | nil => simp at ht
  | node z l r _ ihr =>
    obtain rfl : z = x := by simpa using ht
    obtain _ | n := n
    · simp at hn
    rw [AvlNodes.rightmost, h.child_eq ht true, sub_true_node]
    cases hr : top r with
    | none =>
      obtain rfl := top_eq_none.mp hr
      exact ⟨[], z, l, rfl, by simp, rfl⟩
    | some w =>
      simp only [numNodes] at hn
      obtain ⟨d, y, u, rfl, hd, hw⟩ := ihr (n := n) (h.down ht true) hr (by omega)
      refine ⟨d ++ [⟨z, true, l⟩], y, u, by simp [join], ?_, hw⟩
      intro f hf
      rcases List.mem_append.mp hf with hf | hf
      · exact hd f hf
      · rw [List.mem_singleton.mp hf]

/-- The loop rebalances all subtrees on the way to the root. -/
theorem Zip.rebalanceUp (h : Zip S root c t s) (hn : c.length < n) :
    ∃ s', AvlNodes.rebalanceUp P n (some (hole root c).1) s = .ok s' ∧
      Zip S root [] (AvlShape.rebalanceFrames c t) s' ∧ Outside S s s' := by
  induction c generalizing t s n with
  | nil =>
    obtain _ | n := n
    · simp at hn
    refine ⟨s, ?_, h, .refl⟩
    have hr := h.context.root_parent
    simp [AvlNodes.rebalanceUp, hole, hr]
  | cons f c ih =>
    obtain _ | n := n
    · simp at hn
    have hz := zip_cons.mp h
    obtain ⟨s₁, h₁, hz₁, ho₁⟩ := hz.rebalanceSubtree (P := P) top_join
    obtain ⟨s₂, h₂, hz₂, ho₂⟩ := ih hz₁ (by simpa using hn)
    refine ⟨s₂, ?_, hz₂, ho₁.trans ho₂⟩
    have hp := hz.parent_eq top_join
    simp only [AvlNodes.rebalanceUp, hole] at h₂ ⊢
    rw [hp]
    dsimp only
    rw [h₁, Exec.ok_bind]
    exact h₂

/-- A node outside of the tree takes the place of `x`. -/
theorem Zip.exchange (h : Zip S root c (BinaryTree.node x l r) s) (hy : y ∈ S)
    (hyc : y ∉ root :: frameNodes c) (hyt : y ∉ inorder (BinaryTree.node x l r)) :
    ∃ s₁ s₂ s₃, s.replaceChild P (hole root c).1 x (some y) = .ok s₁ ∧
      s₁.adopt P y (s₁.child x false) false = .ok s₂ ∧
      s₂.adopt P y (s₂.child x true) true = .ok s₃ ∧
      Zip S root c (BinaryTree.node y l r) s₃ ∧ Outside S s s₃ := by
  obtain ⟨-, ⟨hl, hr⟩, ⟨hxl, hxr, hlr⟩, hxc, hxS⟩ := piece_join.mp
    (show Piece S root c (join false x l r) s from h.piece)
  simp only [inorder, List.mem_append, List.mem_cons, not_or] at hyt
  obtain ⟨hyl, hyx, hyr⟩ := hyt
  have hchild : ∀ k, s.child x k = top (sub k (BinaryTree.node x l r)) := h.child_eq top_node
  -- the parent of `x` adopts `y`
  obtain ⟨s₁, h₁, hc₁, hs₁, ho₁⟩ := h.context.replaceChild (P := P) hxc
    (h.attached.child_eq.trans top_node) (a := some y) (by rintro _ ⟨⟩; exact ⟨hy, hyc⟩)
  have hl₁ : Piece S root c l s₁ := by
    refine hs₁.piece hl (fun hq => hl.apart _ hq hole_mem) ?_
    rintro _ ⟨⟩ hq
    exact absurd hq hyl
  have hr₁ : Piece S root c r s₁ := by
    refine hs₁.piece hr (fun hq => hr.apart _ hq hole_mem) ?_
    rintro _ ⟨⟩ hq
    exact absurd hq hyr
  have hchild₁ : ∀ k, s₁.child x k = top (sub k (BinaryTree.node x l r)) := by
    intro k
    rw [hs₁.child, if_neg, hchild]
    rintro ⟨he, -⟩
    exact hxc (he ▸ hole_mem)
  have hp₁ : s₁.parent y = some (hole root c).1 := by rw [hs₁.parent, if_pos rfl]
  have hpy₁ : s₁.child (hole root c).1 (hole root c).2 = some y := by
    rw [hs₁.child, if_pos ⟨rfl, rfl⟩]
  -- `y` adopts the subtrees
  obtain ⟨s₂, h₂, hc₂, hl₂, hyl₂, hs₂, ho₂⟩ := hl₁.adopt_below (P := P) hc₁ hyc hyl hy hp₁ false
  have hr₂ : Piece S root c r s₂ :=
    hs₂.piece hr₁ hyr fun q hq hq' => absurd hq' (hlr q (mem_of_top hq))
  have hchild₂ : s₂.child x true = top r := by
    rw [hs₂.child, if_neg fun he => hyx he.1.symm, hchild₁]
    rfl
  have hp₂ : s₂.parent y = some (hole root c).1 := by
    rw [hs₂.parent, if_neg fun he => hyl (mem_of_top he), hp₁]
  have hpy₂ : s₂.child (hole root c).1 (hole root c).2 = some y := by
    rw [hs₂.child, if_neg, hpy₁]
    rintro ⟨he, -⟩
    exact hyc (he ▸ hole_mem)
  obtain ⟨s₃, h₃, hc₃, hr₃, hyr₃, hs₃, ho₃⟩ := hr₂.adopt_below (P := P) hc₂ hyc hyr hy hp₂ true
  have hl₃ : Piece S root c l s₃ :=
    hs₃.piece hl₂ hyl fun q hq hq' => absurd (mem_of_top hq) (hlr q hq')
  have hyl₃ : Attached s₃.child s₃.parent y false l :=
    hs₃.attached hyl₂ (by simp) fun q hq hq' => hlr q (mem_of_top hq) (mem_of_top hq')
  have hp₃ : s₃.parent y = some (hole root c).1 := by
    rw [hs₃.parent, if_neg fun he => hyr (mem_of_top he), hp₂]
  have hpy₃ : s₃.child (hole root c).1 (hole root c).2 = some y := by
    rw [hs₃.child, if_neg, hpy₂]
    rintro ⟨he, -⟩
    exact hyc (he ▸ hole_mem)
  refine ⟨s₁, s₂, s₃, h₁, ?_, ?_, ⟨hc₃, ?_, ?_⟩, (ho₁.trans ho₂).trans ho₃⟩
  · rw [hchild₁]
    exact h₂
  · rw [hchild₂]
    exact h₃
  · exact piece_join.mpr ⟨⟨hyl₃, hyr₃⟩, ⟨hl₃, hr₃⟩, ⟨hyl, hyr, hlr⟩, hyc, hy⟩
  · exact (attached_of_top top_node).mpr ⟨hpy₃, hp₃⟩

omit [DecidableEq ι] [Fintype ι] in
/-- The top of a tree that is not only a hole belongs to the context. -/
theorem top_plug_mem {f : Frame ι} (h : top (plug (f :: d) t) = some x) :
    x ∈ frameNodes (f :: d) := by
  induction d generalizing f t with
  | nil =>
    rw [plug_cons, plug_nil, top_join, Option.some.injEq] at h
    simp [h]
  | cons g d ih =>
    rw [plug_cons] at h
    have := ih h
    rw [frameNodes_cons]
    exact List.mem_append_right _ this

/-- The removal of a node with a left subtree, up to the rebalancing. -/
theorem Zip.unhinge (h : Zip S root c (BinaryTree.node x (plug d (BinaryTree.node y u nil)) r) s)
    (hd : ∀ f ∈ d, f.side = true) (hl : top (plug d (BinaryTree.node y u nil)) = some q)
    (hq : s.rightmost (fuel ι) q = .ok y) :
    ∃ s', s.unhinge P x =
        .ok (if d = [] then none else some (hole root (d ++ ⟨y, false, r⟩ :: c)).1, s') ∧
      Zip S root (d ++ ⟨y, false, r⟩ :: c) u s' ∧ Outside S s s' := by
  have hz : Zip S root (d ++ ⟨x, false, r⟩ :: c) (BinaryTree.node y u nil) s := by
    rw [zip_append, zip_cons]
    exact h
  obtain ⟨-, ⟨hu, -⟩, ⟨hyu, -⟩, hyc, hyS⟩ := piece_join.mp
    (show Piece S root _ (join false y u nil) s from hz.piece)
  have hyz : y ∉ root :: frameNodes c ∧ y ≠ x ∧ y ∉ frameNodes d ∧ y ∉ inorder r := by
    simp only [frameNodes_append, frameNodes_cons, List.mem_cons, List.mem_append] at hyc ⊢
    tauto
  have hyt : y ∉ inorder (BinaryTree.node x (plug d u) r) := by
    simp only [inorder, List.mem_append, List.mem_cons, mem_inorder_plug]
    tauto
  -- the right-most node leaves the left subtree
  obtain ⟨s₁, h₁, hz₁, -, ho₁⟩ := hz.context.adopt (P := P) hu
  rw [zip_append, zip_cons] at hz₁
  -- and takes the place of the removed one
  obtain ⟨s₂, s₃, s₄, h₂, h₃, h₄, hz₄, ho₄⟩ := hz₁.exchange (P := P) hyS hyz.1 hyt
  refine ⟨s₄, ?_, by rw [zip_append, zip_cons]; exact hz₄, ho₁.trans ho₄⟩
  have hisolate : (if y = q then s.adopt P x (s.child y false) false
      else s.adopt P (hole root (d ++ ⟨x, false, r⟩ :: c)).1 (s.child y false) true) = .ok s₁ := by
    rw [hz.child_eq top_node, sub_false_node, ← h₁]
    cases d with
    | nil =>
      obtain rfl : y = q := by simpa using hl
      rw [if_pos rfl]
      rfl
    | cons f d =>
      rw [if_neg]
      · simp only [List.cons_append, hole, hd f (by simp)]
      · rintro rfl
        exact hyz.2.2.1 (top_plug_mem hl)
  have hlp : (if (hole root (d ++ ⟨x, false, r⟩ :: c)).1 = x then none
        else some (hole root (d ++ ⟨x, false, r⟩ :: c)).1) =
      if d = [] then none else some (hole root (d ++ ⟨y, false, r⟩ :: c)).1 := by
    cases d with
    | nil => simp [hole]
    | cons f d =>
      have hfx : f.top ≠ x := by
        have hn := hz.context.nodup
        simp only [List.cons_append, frameNodes_cons, frameNodes_append, List.nodup_cons,
          List.mem_append, List.mem_cons, not_or] at hn
        tauto
      simp [hole, hfx]
  rw [AvlNodes.unhinge, h.parent_eq top_node, Exec.deref_some, Exec.ok_bind, h.child_eq top_node,
    sub_false_node, hl]
  dsimp only
  rw [hq, Exec.ok_bind, hz.parent_eq top_node, Exec.deref_some, Exec.ok_bind, hisolate,
    Exec.ok_bind, h₂, Exec.ok_bind, h₃, Exec.ok_bind, h₄, Exec.ok_bind, hlp]

omit [Fintype ι] in
theorem Outside.reset (h : Outside S s s') (hx : x ∈ S) : Outside S s (s'.reset x) := by
  have hne : ∀ q, q ∉ S → q ≠ x := by
    rintro q hq rfl
    exact hq hx
  exact ⟨fun q hq => (Function.update_of_ne (hne q hq) _ _).trans (h.child q hq),
    fun q hq => (Function.update_of_ne (hne q hq) _ _).trans (h.parent q hq), h.depth, h.data⟩

/-- The removal before the pointers of the node are reset. -/
theorem Zip.remove (h : Zip S root c (BinaryTree.node x l r) s) :
    ∃ s' t', s.remove P x = .ok (s'.reset x) ∧
      AvlShape.Removal x (plug c (BinaryTree.node x l r)) t' ∧ Zip S root [] t' s' ∧
      Outside S s s' := by
  have hcard : ∀ xs : List ι, xs.Nodup → xs.length < fuel ι :=
    fun xs hxs => Nat.lt_succ_of_le hxs.length_le_card
  cases hl : top l with
  | none =>
    obtain rfl := top_eq_none.mp hl
    obtain ⟨-, ⟨-, hr⟩, ⟨-, hxr, -⟩, hxc, -⟩ := piece_join.mp
      (show Piece S root c (join false x nil r) s from h.piece)
    obtain ⟨s₁, h₁, hc₁, hs₁, ho₁⟩ := h.context.replaceChild (P := P) hxc
      (h.attached.child_eq.trans top_node) (a := top r)
      fun y hy => ⟨hr.mem y (mem_of_top hy), hr.apart y (mem_of_top hy)⟩
    have hz₁ : Zip S root c r s₁ := by
      refine ⟨hc₁, hs₁.piece hr (fun hq => hr.apart _ hq hole_mem) fun y hy _ => hy, ?_⟩
      exact hs₁.attached_self rfl
    refine ⟨s₁, plug c r, ?_, .right c r, zip_plug.mp hz₁, ho₁⟩
    rw [AvlNodes.remove, AvlNodes.unhinge, h.parent_eq top_node, Exec.deref_some, Exec.ok_bind,
      h.child_eq top_node, h.child_eq top_node, sub_false_node, sub_true_node, hl]
    dsimp only
    rw [h₁]
    simp [AvlNodes.rebalanceUp]
  | some q =>
    have hz := h.down top_node false
    obtain ⟨d, y, u, rfl, hd, hq⟩ := hz.rightmost hl (n := fuel ι) (by
      rw [sub_false_node, ← inorder_length]
      exact (hcard _ hz.piece.nodup).le)
    obtain ⟨s₁, h₁, hz₁, ho₁⟩ := h.unhinge (P := P) hd hl hq
    have hup : ∃ s₂, AvlNodes.rebalanceUp P (fuel ι)
          (if d = [] then none else some (hole root (d ++ ⟨y, false, r⟩ :: c)).1) s₁ = .ok s₂ ∧
        Zip S root [] (AvlShape.exchange c d y u r) s₂ ∧ Outside S s₁ s₂ := by
      unfold AvlShape.exchange
      split
      · rename_i hd
        refine ⟨s₁, by simp [AvlNodes.rebalanceUp], ?_, .refl⟩
        rw [hd, List.nil_append, zip_cons] at hz₁
        exact zip_plug.mp hz₁
      · refine hz₁.rebalanceUp ?_
        have hn := (List.nodup_cons.mp hz₁.context.nodup).2.sublist map_top_sublist
        simpa using hcard _ hn
    obtain ⟨s₂, h₂, hz₂, ho₂⟩ := hup
    refine ⟨s₂, _, ?_, .exchange c d y u r hd, hz₂, ho₁.trans ho₂⟩
    rw [AvlNodes.remove, h₁, Exec.ok_bind]
    dsimp only
    rw [h₂, Exec.ok_bind]

/-- `remove` of a node of the tree. -/
theorem IsTree.remove (h : IsTree root t s) (hx : x ∈ inorder t) :
    ∃ s' t', s.remove P x = .ok s' ∧ AvlShape.Removal x t t' ∧ IsTree root t' s' ∧
      Outside (root :: inorder t) s s' := by
  obtain ⟨c, l, r, rfl⟩ := exists_plug_of_mem hx
  have hz : Zip (root :: inorder (plug c (BinaryTree.node x l r))) root c
      (BinaryTree.node x l r) s :=
    zip_plug.mpr (h.zip (fun q hq => hq) fun q hq hq' => absurd hq hq')
  obtain ⟨s', t', hs', hrem, hz', ho'⟩ := hz.remove (P := P)
  refine ⟨s'.reset x, t', hs', hrem, (IsTree.of_zip hz').congr_of_ne (x := x) ?_
    (fun q hq => Function.update_of_ne hq _ _) (fun q hq => Function.update_of_ne hq _ _)
    (fun _ _ => rfl), ho'.reset (List.mem_cons_of_mem _ hx)⟩
  obtain ⟨before, after, h₁, h₂⟩ := hrem.inorder_eq
  have hn := h.nodup
  rw [h₁] at hn
  rw [h₂]
  simp only [List.nodup_cons, List.nodup_append, List.mem_append, List.mem_cons] at hn ⊢
  rintro (rfl | hb | ha)
  · exact hn.1 (.inr (.inl rfl))
  · exact hn.2.2.2 x hb x (.inl rfl) rfl
  · exact hn.2.2.1.1 ha

end Genode.Util.AvlNodes
