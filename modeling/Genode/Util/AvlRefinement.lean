import Genode.Util.AvlTree
import Genode.Util.AvlShape

/-!
# AvlRefinement — the linked nodes follow the shape

Every change of pointers is an `_adopt`, and in between the pointers do
not form a tree: during a rotation two nodes can be each other's parent.
Still one thing holds after each `_adopt` (`Inv`): a node whose children
have it as their parent has the depth that they give it. So the walk
towards the root also ends where the parents form a circle, at a node
that no longer has the child the walk came from.

`Zip` is a tree that is seen from a node in it: a context and a subtree
in its hole. In between there is the context with something else in its
hole (`Hole`), and the subtrees to come are somewhere else (`Piece`).
-/

namespace Genode.Util.AvlNodes

open BinaryTree Lib Lib.LinkedTree

variable {ι β : Type} {s s' : AvlNodes ι β} {P : AvlPolicy ι β} {root p q x y z : ι}
  {node : Option ι} {i j k : Bool} {n : Nat} {S : List ι} {a b d t u : BinaryTree ι}
  {c : List (Frame ι)} {f : Frame ι}

/-! ## What holds in between -/

/-- The children of the node have it as their parent. -/
def Keeps (s : AvlNodes ι β) (q : ι) : Prop := ∀ i a, s.child q i = some a → s.parent a = some q

/-- The node has the depth that its children give it. -/
def DepthOk (s : AvlNodes ι β) (q : ι) : Prop := s.depth q = s.newDepth q

/-- What holds between two changes of pointers, of the nodes `S`. -/
structure Inv (S : List ι) (s : AvlNodes ι β) : Prop where
  parent_ne : ∀ q ∈ S, s.parent q ≠ some q
  parent_mem : ∀ q ∈ S, ∀ p, s.parent q = some p → p ∈ S
  depthOk : ∀ q ∈ S, s.Keeps q → s.DepthOk q

/-- The nodes outside of `S` stay as they are. -/
structure Outside (S : List ι) (s s' : AvlNodes ι β) : Prop where
  child : ∀ q, q ∉ S → s'.child q = s.child q
  parent : ∀ q, q ∉ S → s'.parent q = s.parent q
  depth : ∀ q, q ∉ S → s'.depth q = s.depth q
  data : ∀ q, q ∉ S → s'.data q = s.data q

theorem Outside.refl : Outside S s s :=
  ⟨fun _ _ => rfl, fun _ _ => rfl, fun _ _ => rfl, fun _ _ => rfl⟩

theorem Outside.trans {s'' : AvlNodes ι β} (h : Outside S s s') (h' : Outside S s' s'') :
    Outside S s s'' :=
  ⟨fun q hq => (h'.child q hq).trans (h.child q hq),
    fun q hq => (h'.parent q hq).trans (h.parent q hq),
    fun q hq => (h'.depth q hq).trans (h.depth q hq),
    fun q hq => (h'.data q hq).trans (h.data q hq)⟩

theorem newDepth_congr (hc : s'.child q = s.child q)
    (hd : ∀ i a, s.child q i = some a → s'.depth a = s.depth a) :
    s'.newDepth q = s.newDepth q := by
  have h : ∀ i, s'.childDepth q i = s.childDepth q i := by
    intro i
    unfold childDepth
    rw [hc]
    cases ha : s.child q i with
    | none => rfl
    | some a => exact hd i a ha
  unfold newDepth
  rw [h, h]

theorem keeps_of_attached (ha : Attached s.child s.parent x i a)
    (hb : Attached s.child s.parent x (!i) b) : s.Keeps x := by
  intro j q hq
  rcases Bool.eq_or_eq_not j i with rfl | rfl
  · exact ha.parent_eq q (ha.child_eq ▸ hq)
  · exact hb.parent_eq q (hb.child_eq ▸ hq)

theorem ne_child_of_attached (ha : Attached s.child s.parent x i a)
    (hb : Attached s.child s.parent x (!i) b) (hqa : q ∉ inorder a) (hqb : q ∉ inorder b)
    (j : Bool) : s.child x j ≠ some q := by
  intro hq
  rcases Bool.eq_or_eq_not j i with rfl | rfl
  · exact hqa (mem_of_top (ha.child_eq ▸ hq))
  · exact hqb (mem_of_top (hb.child_eq ▸ hq))

/-- The depths in a linked tree. -/
theorem childDepth_of_linked (hI : s.Inv S) (hS : ∀ q ∈ inorder t, q ∈ S)
    (ha : Attached s.child s.parent p k t) (hl : Linked s.child s.parent t) :
    s.childDepth p k = AvlShape.depth t := by
  induction t generalizing p k with
  | nil => simp [childDepth, ha.child_eq]
  | node y l r ihl ihr =>
    obtain ⟨h₁, h₂, h₃, h₄⟩ := hl
    have hy := hI.depthOk y (hS y (by simp)) (keeps_of_attached h₁ h₂)
    have hdl := ihl (fun q hq => hS q (by simp [hq])) h₁ h₃
    have hdr := ihr (fun q hq => hS q (by simp [hq])) h₂ h₄
    have hc : s.childDepth p k = s.depth y := by simp [childDepth, ha.child_eq]
    rw [hc, hy, newDepth, hdl, hdr, AvlShape.depth]

/-! ## A tree seen from a node in it -/

/-- Below `root` is a tree with the context `c`. -/
structure Hole (S : List ι) (root : ι) (c : List (Frame ι)) (s : AvlNodes ι β) : Prop where
  inv : s.Inv S
  root_parent : s.parent root = none
  root_right : s.child root true = none
  frames : FramesLinked s.child s.parent root c
  nodup : (root :: frameNodes c).Nodup
  mem : ∀ q ∈ root :: frameNodes c, q ∈ S

/-- A linked tree that is apart from the context. -/
structure Piece (S : List ι) (root : ι) (c : List (Frame ι)) (t : BinaryTree ι)
    (s : AvlNodes ι β) : Prop where
  linked : Linked s.child s.parent t
  nodup : (inorder t).Nodup
  apart : ∀ q ∈ inorder t, q ∉ root :: frameNodes c
  mem : ∀ q ∈ inorder t, q ∈ S

/-- Below `root` is the tree with the context `c` and `t` in its hole. -/
structure Zip (S : List ι) (root : ι) (c : List (Frame ι)) (t : BinaryTree ι)
    (s : AvlNodes ι β) : Prop where
  context : Hole S root c s
  piece : Piece S root c t s
  attached : Attached s.child s.parent (hole root c).1 (hole root c).2 t

private theorem nodup_zip_iff :
    (root :: (frameNodes c ++ inorder t)).Nodup ↔ (root :: frameNodes c).Nodup ∧
      (inorder t).Nodup ∧ ∀ q ∈ inorder t, q ∉ root :: frameNodes c := by
  rw [← List.cons_append, List.nodup_append]
  constructor
  · rintro ⟨h₁, h₂, h₃⟩
    exact ⟨h₁, h₂, fun q hq hq' => h₃ q hq' q hq rfl⟩
  · rintro ⟨h₁, h₂, h₃⟩
    refine ⟨h₁, h₂, ?_⟩
    rintro q hq r hr rfl
    exact h₃ q hr hq

theorem zip_iff : Zip S root c t s ↔
    s.Inv S ∧ (s.parent root = none ∧ s.child root true = none) ∧
      (Attached s.child s.parent root false (plug c t) ∧ Linked s.child s.parent (plug c t)) ∧
      (root :: inorder (plug c t)).Nodup ∧ ∀ q ∈ root :: inorder (plug c t), q ∈ S := by
  have hperm := (inorder_plug_perm (c := c) (t := t)).cons root
  simp only [linked_plug, hperm.nodup_iff, hperm.mem_iff, nodup_zip_iff]
  constructor
  · rintro ⟨⟨h₁, h₂, h₂', h₃, h₄, h₅⟩, ⟨h₆, h₇, h₈, h₉⟩, h⟩
    refine ⟨h₁, ⟨h₂, h₂'⟩, ⟨h₃, h, h₆⟩, ⟨h₄, h₇, h₈⟩, fun q hq => ?_⟩
    rw [← List.cons_append, List.mem_append] at hq
    exact hq.elim (h₅ q) (h₉ q)
  · rintro ⟨h₁, ⟨h₂, h₂'⟩, ⟨h₃, h, h₆⟩, ⟨h₄, h₇, h₈⟩, h₉⟩
    refine ⟨⟨h₁, h₂, h₂', h₃, h₄, fun q hq => h₉ q ?_⟩,
      ⟨h₆, h₇, h₈, fun q hq => h₉ q (by simp [hq])⟩, h⟩
    rw [← List.cons_append]
    exact List.mem_append_left _ hq

/-- The same tree seen from further up. -/
theorem zip_cons : Zip S root (f :: c) t s ↔ Zip S root c (join f.side f.top t f.other) s := by
  rw [zip_iff, zip_iff, plug_cons]

theorem zip_plug : Zip S root c t s ↔ Zip S root [] (plug c t) s := by
  rw [zip_iff, zip_iff, plug_nil]

theorem zip_append {c' : List (Frame ι)} : Zip S root (c' ++ c) t s ↔ Zip S root c (plug c' t) s := by
  rw [zip_iff, zip_iff, plug_append]

theorem piece_join : Piece S root c (join i x a b) s ↔
    (Attached s.child s.parent x i a ∧ Attached s.child s.parent x (!i) b) ∧
      (Piece S root c a s ∧ Piece S root c b s) ∧
      (x ∉ inorder a ∧ x ∉ inorder b ∧ ∀ q ∈ inorder a, q ∉ inorder b) ∧
      x ∉ root :: frameNodes c ∧ x ∈ S := by
  have hperm := inorder_join_perm (i := i) (x := x) (a := a) (b := b)
  have hn : (inorder (join i x a b)).Nodup ↔ (inorder a).Nodup ∧ (inorder b).Nodup ∧
      x ∉ inorder a ∧ x ∉ inorder b ∧ ∀ q ∈ inorder a, q ∉ inorder b := by
    rw [hperm.nodup_iff, List.cons_append, List.nodup_cons, List.nodup_append', List.mem_append,
      not_or, List.Disjoint]
    tauto
  constructor
  · rintro ⟨hl, hd, ha, hm⟩
    simp only [hperm.mem_iff, List.mem_append, List.mem_cons] at ha hm
    obtain ⟨h₁, h₂, h₃, h₄⟩ := linked_join.mp hl
    obtain ⟨h₅, h₆, h₇⟩ := hn.mp hd
    refine ⟨⟨h₁, h₂⟩, ⟨⟨h₃, h₅, ?_, ?_⟩, h₄, h₆, ?_, ?_⟩, h₇, ?_, hm x (by simp)⟩
    · exact fun q hq => by simpa using ha q (by simp [hq])
    · exact fun q hq => hm q (by simp [hq])
    · exact fun q hq => by simpa using ha q (by simp [hq])
    · exact fun q hq => hm q (by simp [hq])
    · simpa using ha x (by simp)
  · rintro ⟨⟨h₁, h₂⟩, ⟨⟨h₃, h₄, h₅, h₆⟩, h₇, h₈, h₉, h₁₀⟩, h₁₁, h₁₂, h₁₃⟩
    refine ⟨linked_join.mpr ⟨h₁, h₂, h₃, h₇⟩, hn.mpr ⟨h₄, h₈, h₁₁⟩, ?_, ?_⟩
    · intro q hq
      rcases mem_inorder_join.mp hq with rfl | hq | hq
      · exact h₁₂
      · exact h₅ q hq
      · exact h₉ q hq
    · intro q hq
      rcases mem_inorder_join.mp hq with rfl | hq | hq
      · exact h₁₃
      · exact h₆ q hq
      · exact h₁₀ q hq

theorem apart_cons : q ∉ root :: frameNodes (f :: c) ↔
    q ≠ f.top ∧ q ∉ inorder f.other ∧ q ∉ root :: frameNodes c := by
  simp only [frameNodes_cons, List.mem_cons, List.mem_append]
  tauto

/-- What is apart from a context is apart from the outer part of it. -/
theorem Piece.tail (h : Piece S root (f :: c) t s) : Piece S root c t s :=
  ⟨h.linked, h.nodup, fun q hq => (apart_cons.mp (h.apart q hq)).2.2, h.mem⟩

namespace Zip

variable (h : Zip S root c t s)

include h

theorem down (ht : top t = some x) (i : Bool) :
    Zip S root (⟨x, i, sub (!i) t⟩ :: c) (sub i t) s :=
  zip_cons.mpr ((join_sub ht i).symm ▸ h)

theorem child_eq (ht : top t = some x) (i : Bool) : s.child x i = top (sub i t) :=
  (h.down ht i).attached.child_eq

theorem childDepth_eq (ht : top t = some x) (i : Bool) :
    s.childDepth x i = AvlShape.depth (sub i t) := by
  have hd := h.down ht i
  exact childDepth_of_linked hd.context.inv hd.piece.mem hd.attached hd.piece.linked

theorem bias_eq (ht : top t = some x) : s.bias x = AvlShape.bias t := by
  simp only [bias, AvlShape.bias, h.childDepth_eq ht]

theorem parent_eq (ht : top t = some x) : s.parent x = some (hole root c).1 :=
  h.attached.parent_eq x ht

theorem depthOk (ht : top t = some x) : s.DepthOk x := by
  have hp := h.piece
  rw [← join_sub ht false, piece_join] at hp
  obtain ⟨⟨h₁, h₂⟩, -, -, -, hx⟩ := hp
  exact h.context.inv.depthOk x hx (keeps_of_attached h₁ h₂)

theorem child_ne (ht : top t = some x) (hy : y ∉ inorder t) (i : Bool) : s.child x i ≠ some y := by
  rw [h.child_eq ht i]
  intro hq
  rw [← join_sub ht i, mem_inorder_join] at hy
  exact hy (.inr (.inl (mem_of_top hq)))

end Zip

/-! ## The depths -/

variable [DecidableEq ι]

theorem newDepth_setDepth (h : ∀ i, s.child q i ≠ some x) :
    (s.setDepth x).newDepth q = s.newDepth q := by
  refine newDepth_congr rfl fun i a ha => Function.update_of_ne ?_ _ _
  rintro rfl
  exact h i ha

/-- The new depth of `x` matters to its parent only. -/
theorem depthOk_setDepth (h : s.Keeps q) (hx : s.parent x ≠ some q)
    (hq : q ≠ x → s.DepthOk q) : (s.setDepth x).DepthOk q := by
  have hne : ∀ i, s.child q i ≠ some x := fun i hi => hx (h i x hi)
  unfold DepthOk
  rw [newDepth_setDepth hne]
  by_cases hqx : q = x
  · rw [hqx]
    exact Function.update_self _ _ _
  · exact (Function.update_of_ne hqx _ _).trans (hq hqx)

/-! ## The walk towards the root -/

/-- What every visit of a node on the way up keeps. -/
theorem recomputeDepth_invariant {I : AvlNodes ι β → Prop} {V : ι → Prop}
    (hset : ∀ s x, V x → I s → I (s.setDepth x)) (hhook : ∀ s x, V x → I s → I (s.callHook P x))
    (hup : ∀ s x p, I s → V x → s.parent x = some p → V p) (hI : I s) (hx : V x)
    (h : recomputeDepth P n x s = .ok s') : I s' := by
  induction n generalizing x s s' with
  | zero => simp [recomputeDepth] at h
  | succ n ih =>
    rw [recomputeDepth] at h
    split at h
    · cases h
      exact hset s x hx hI
    · rename_i p hp
      split at h
      · obtain ⟨s₁, h₁, h₂⟩ := Exec.bind_eq_ok.mp h
        cases h₂
        exact hhook _ x hx (ih (hset s x hx hI) (hup s x p hI hx hp) h₁)
      · cases h
        exact hhook _ x hx (hset s x hx hI)

theorem recomputeDepth_links (h : recomputeDepth P n x s = .ok s') :
    s'.child = s.child ∧ s'.parent = s.parent :=
  recomputeDepth_invariant (I := fun t => t.child = s.child ∧ t.parent = s.parent)
    (V := fun _ => True) (fun _ _ _ h => h) (fun _ _ _ h => h) (fun _ _ _ _ _ _ => trivial)
    ⟨rfl, rfl⟩ trivial h

theorem recomputeDepth_outside (h : recomputeDepth P n x s = .ok s') (hx : x ∈ S)
    (hS : ∀ q ∈ S, ∀ p, s.parent q = some p → p ∈ S) : Outside S s s' := by
  have hne : ∀ y ∈ S, ∀ q, q ∉ S → q ≠ y := fun y hy q hq he => hq (he ▸ hy)
  refine (recomputeDepth_invariant (I := fun t => Outside S s t ∧ t.parent = s.parent)
    (V := fun y => y ∈ S) ?_ ?_ ?_ ⟨.refl, rfl⟩ hx h).1
  · rintro t y hy ⟨ho, hp⟩
    refine ⟨⟨ho.child, ho.parent, fun q hq => ?_, ho.data⟩, hp⟩
    exact (Function.update_of_ne (hne y hy q hq) _ _).trans (ho.depth q hq)
  · rintro t y hy ⟨ho, hp⟩
    refine ⟨⟨ho.child, ho.parent, ho.depth, fun q hq => ?_⟩, hp⟩
    exact (Function.update_of_ne (hne y hy q hq) _ _).trans (ho.data q hq)
  · rintro t y p ⟨-, hp⟩ hy hyp
    exact hS y hy p (hp ▸ hyp)

/-- After the walk from `x` also `x` and those above it have their depths. -/
theorem recomputeDepth_depthOk (h : recomputeDepth P n x s = .ok s') (hx : x ∈ S)
    (hne : ∀ q ∈ S, s.parent q ≠ some q) (hS : ∀ q ∈ S, ∀ p, s.parent q = some p → p ∈ S)
    (hd : ∀ q ∈ S, q ≠ x → s.Keeps q → s.DepthOk q) : ∀ q ∈ S, s'.Keeps q → s'.DepthOk q := by
  induction n generalizing x s s' with
  | zero => simp [recomputeDepth] at h
  | succ n ih =>
    rw [recomputeDepth] at h
    split at h
    · rename_i hp
      cases h
      exact fun q hq hk => depthOk_setDepth hk (by simp [hp]) fun hqx => hd q hq hqx hk
    · rename_i p hp
      have hset : ∀ q ∈ S, q ≠ p → s.Keeps q → (s.setDepth x).DepthOk q := by
        intro q hq hqp hk
        refine depthOk_setDepth hk ?_ fun hqx => hd q hq hqx hk
        rw [hp]
        simpa using hqp.symm
      split at h
      · obtain ⟨s₁, h₁, h₂⟩ := Exec.bind_eq_ok.mp h
        cases h₂
        have hup := ih h₁ (hS x hx p hp) hne hS hset
        exact hup
      · -- with the same depth as before `x` does not matter to its parent
        rename_i hsame
        cases h
        intro q hq hk
        by_cases hqp : q = p
        · have hself : (s.setDepth x).depth = s.depth := by
            rw [not_ne_iff] at hsame
            simp [setDepth, hsame]
          have hok : s.DepthOk q := by
            refine hd q hq ?_ hk
            rintro rfl
            exact hne q hq (hqp ▸ hp)
          have hnew : (s.setDepth x).newDepth q = s.newDepth q :=
            newDepth_congr rfl fun i a _ => congrFun hself a
          exact (congrFun hself q).trans (hok.trans hnew.symm)
        · exact hset q hq hqp hk

/-- The walk ends at the root. -/
theorem recomputeDepth_of_chain {xs : List ι} (hc : Chain s.parent (some x) xs)
    (hn : xs.length ≤ n) : ∃ s', recomputeDepth P n x s = .ok s' := by
  induction n generalizing x s xs with
  | zero =>
    cases xs with
    | nil => simp at hc
    | cons y ys => simp at hn
  | succ n ih =>
    cases xs with
    | nil => simp at hc
    | cons y ys =>
      obtain ⟨hy, hc⟩ := hc
      obtain rfl : x = y := by simpa using hy
      rw [recomputeDepth]
      cases hp : s.parent x with
      | none => exact ⟨_, rfl⟩
      | some p =>
        dsimp only
        split
        · obtain ⟨s₁, h₁⟩ := ih (s := s.setDepth x) (hp ▸ hc) (by simpa using hn)
          rw [h₁]
          exact ⟨_, rfl⟩
        · exact ⟨_, rfl⟩

/-- The walk ends at a parent that does not have the node as child. -/
theorem recomputeDepth_of_stop {p : ι} (hp : s.parent x = some p) (hne : p ≠ x)
    (hc : ∀ i, s.child p i ≠ some x) (hd : s.DepthOk p) :
    ∃ s', recomputeDepth P (n + 2) x s = .ok s' := by
  have hok : (s.setDepth x).newDepth p = (s.setDepth x).depth p := by
    rw [newDepth_setDepth hc]
    exact hd.symm.trans (Function.update_of_ne hne _ _).symm
  have hup : ∃ s₁, recomputeDepth P (n + 1) p (s.setDepth x) = .ok s₁ := by
    rw [recomputeDepth]
    split
    · exact ⟨_, rfl⟩
    · rw [if_neg (not_ne_iff.mpr hok)]
      exact ⟨_, rfl⟩
  obtain ⟨s₁, h₁⟩ := hup
  rw [recomputeDepth, hp]
  dsimp only
  split
  · rw [h₁]
    exact ⟨_, rfl⟩
  · exact ⟨_, rfl⟩

/-- The walk that starts at `x` comes to an end. -/
def WalkEnds (s : AvlNodes ι β) (x : ι) : Prop :=
  (∃ xs, Chain s.parent (some x) xs ∧ xs.Nodup) ∨
    ∃ p, s.parent x = some p ∧ p ≠ x ∧ (∀ i, s.child p i ≠ some x) ∧ s.DepthOk p

theorem WalkEnds.returns [Fintype ι] (h : s.WalkEnds x) :
    ∃ s', recomputeDepth P (fuel ι) x s = .ok s' := by
  rcases h with ⟨xs, hc, hn⟩ | ⟨p, hp, hne, hc, hd⟩
  · exact recomputeDepth_of_chain hc (hn.length_le_card.trans (Nat.le_succ _))
  · have hpos : 0 < Fintype.card ι := Fintype.card_pos_iff.mpr ⟨x⟩
    obtain ⟨m, hm⟩ : ∃ m, fuel ι = m + 2 := ⟨Fintype.card ι - 1, by unfold fuel; omega⟩
    rw [hm]
    exact recomputeDepth_of_stop hp hne hc hd

/-! ## Adoption -/

theorem link_child :
    (s.link x node i).child q j = if q = x ∧ j = i then node else s.child q j := by
  by_cases hq : q = x
  · subst hq
    by_cases hj : j = i <;> simp [link, hj]
  · simp [link, hq]

theorem link_parent :
    (s.link x node i).parent q = if node = some q then some x else s.parent q := by
  cases node with
  | none => simp [link]
  | some a =>
    by_cases ha : a = q
    · subst ha
      simp [link]
    · simp [link, ha, Function.update_of_ne (Ne.symm ha)]

/-- The pointers are those of an adoption. -/
structure Adopted (s : AvlNodes ι β) (x : ι) (node : Option ι) (i : Bool) (s' : AvlNodes ι β) :
    Prop where
  child : ∀ q j, s'.child q j = if q = x ∧ j = i then node else s.child q j
  parent : ∀ q, s'.parent q = if node = some q then some x else s.parent q

theorem walkEnds_link_of_chain {xs : List ι} (hc : Chain s.parent (some x) xs) (hn : xs.Nodup)
    (ha : ∀ a, node = some a → a ∉ xs) : (s.link x node i).WalkEnds x := by
  refine .inl ⟨xs, hc.congr fun y hy => ?_, hn⟩
  rw [link_parent, if_neg]
  exact fun h => ha y h hy

theorem walkEnds_link_of_stop {p : ι} (hp : s.parent x = some p) (hne : p ≠ x)
    (hc : ∀ i, s.child p i ≠ some x) (hd : s.DepthOk p) (ha : node ≠ some x) :
    (s.link x node i).WalkEnds x := by
  have hcp : (s.link x node i).child p = s.child p := by
    funext j
    rw [link_child, if_neg fun h => hne h.1]
  refine .inr ⟨p, by rw [link_parent, if_neg ha, hp], hne, by rwa [hcp], ?_⟩
  exact hd.trans (newDepth_congr hcp fun _ _ _ => rfl).symm

/-- What an adoption does. -/
theorem adopt_spec [Fintype ι] (hI : s.Inv S) (hx : x ∈ S)
    (ha : ∀ a, node = some a → a ∈ S ∧ a ≠ x) (hw : (s.link x node i).WalkEnds x) :
    ∃ s', s.adopt P x node i = .ok s' ∧ Adopted s x node i s' ∧ s'.Inv S ∧ Outside S s s' := by
  obtain ⟨s', h⟩ := hw.returns (P := P)
  obtain ⟨hc, hp⟩ := recomputeDepth_links h
  have hne : ∀ q ∈ S, (s.link x node i).parent q ≠ some q := by
    intro q hq
    rw [link_parent]
    split
    · rename_i hnode
      simpa using (ha q hnode).2.symm
    · exact hI.parent_ne q hq
  have hmem : ∀ q ∈ S, ∀ p, (s.link x node i).parent q = some p → p ∈ S := by
    intro q hq p
    rw [link_parent]
    split
    · rintro ⟨⟩
      exact hx
    · exact hI.parent_mem q hq p
  have hd : ∀ q ∈ S, q ≠ x → (s.link x node i).Keeps q → (s.link x node i).DepthOk q := by
    intro q hq hqx hk
    have hcq : (s.link x node i).child q = s.child q := by
      funext j
      rw [link_child, if_neg fun h => hqx h.1]
    -- a node that lost a child to `x` is not one of them
    have hks : s.Keeps q := by
      intro j a hj
      have hpa := hk j a (by rw [hcq, hj])
      rw [link_parent] at hpa
      split at hpa
      · exact absurd (Option.some.inj hpa).symm hqx
      · exact hpa
    exact (hI.depthOk q hq hks).trans (newDepth_congr hcq fun _ _ _ => rfl).symm
  have hout : Outside S s (s.link x node i) := by
    refine ⟨fun q hq => ?_, fun q hq => ?_, fun _ _ => rfl, fun _ _ => rfl⟩
    · funext j
      rw [link_child, if_neg]
      rintro ⟨rfl, -⟩
      exact hq hx
    · rw [link_parent, if_neg]
      exact fun h => hq (ha q h).1
  refine ⟨s', h, ⟨fun q j => by rw [hc, link_child], fun q => by rw [hp, link_parent]⟩, ?_,
    hout.trans (recomputeDepth_outside h hx hmem)⟩
  exact ⟨fun q hq => hp ▸ hne q hq, fun q hq => hp ▸ hmem q hq,
    recomputeDepth_depthOk h hx hne hmem hd⟩

theorem Adopted.linked (h : Adopted s x node i s') (hl : Linked s.child s.parent t)
    (hn : (inorder t).Nodup) (hx : x ∉ inorder t)
    (ha : ∀ a, node = some a → a ∈ inorder t → top t = some a) :
    Linked s'.child s'.parent t := by
  refine hl.congr hn (fun q hq => ?_) fun q hq ht => ?_
  · funext j
    rw [h.child, if_neg]
    rintro ⟨rfl, -⟩
    exact hx hq
  · rw [h.parent, if_neg]
    exact fun he => ht (ha q he hq)

theorem Adopted.attached (h : Adopted s x node i s') (hl : Attached s.child s.parent q j t)
    (hq : ¬ (q = x ∧ j = i)) (ha : ∀ a, top t = some a → node ≠ some a) :
    Attached s'.child s'.parent q j t := by
  refine hl.congr ?_ fun y hy => ?_
  · rw [h.child, if_neg hq]
  · rw [h.parent, if_neg (ha y hy)]

theorem Adopted.attached_self (h : Adopted s x node i s') (ht : top t = node) :
    Attached s'.child s'.parent x i t := by
  refine ⟨?_, fun y hy => ?_⟩
  · rw [h.child, if_pos ⟨rfl, rfl⟩, ht]
  · rw [h.parent, if_pos (ht ▸ hy)]

theorem Adopted.frames (h : Adopted s x node i s')
    (hf : FramesLinked s.child s.parent root c) (hn : (root :: frameNodes c).Nodup)
    (hx : x ∈ root :: frameNodes c → hole root c = (x, i))
    (ha : ∀ a, node = some a → a ∉ frameNodes c) :
    FramesLinked s'.child s'.parent root c := by
  refine hf.congr hn (fun q hq j hj => ?_) fun q hq => ?_
  · rw [h.child, if_neg]
    rintro ⟨rfl, rfl⟩
    exact hj (hx hq)
  · rw [h.parent, if_neg]
    exact fun he => ha q he hq


theorem Adopted.piece (h : Adopted s x node i s') (ht : Piece S root c t s)
    (hx : x ∉ inorder t) (ha : ∀ a, node = some a → a ∈ inorder t → top t = some a) :
    Piece S root c t s' :=
  ⟨h.linked ht.linked ht.nodup hx ha, ht.nodup, ht.apart, ht.mem⟩

/-- An adoption by a node that is not in the context. -/
theorem Adopted.hole (h : Adopted s x node i s') (hI : s'.Inv S) (hc : Hole S root c s)
    (hx : x ∉ root :: frameNodes c) (ha : ∀ a, node = some a → a ∉ root :: frameNodes c) :
    Hole S root c s' where
  inv := hI
  root_parent := by
    rw [h.parent, if_neg fun he => ha root he (by simp), hc.root_parent]
  root_right := by
    rw [h.child, if_neg fun he => hx (by simp [he.1]), hc.root_right]
  frames := h.frames hc.frames hc.nodup (fun hq => absurd hq hx)
    fun a he hq => ha a he (List.mem_cons_of_mem _ hq)
  nodup := hc.nodup
  mem := hc.mem

/-- An adoption by a node that is not in the tree. -/
theorem Adopted.zip (h : Adopted s x node i s') (hI : s'.Inv S) (hz : Zip S root c t s)
    (hx : x ∉ root :: frameNodes c) (hxt : x ∉ inorder t)
    (ha : ∀ a, node = some a → a ∉ root :: frameNodes c) (hat : ∀ a, node = some a → a ∉ inorder t) :
    Zip S root c t s' := by
  refine ⟨h.hole hI hz.context hx ha, h.piece hz.piece hxt fun a he hq => absurd hq (hat a he),
    h.attached hz.attached ?_ fun a hq he => hat a he (mem_of_top hq)⟩
  rintro ⟨rfl, -⟩
  exact hx hole_mem

/-- The walk from the hole ends. -/
theorem Hole.walkEnds (h : Hole S root c s) (ha : ∀ a, node = some a → a ∉ root :: frameNodes c) :
    (s.link (hole root c).1 node i).WalkEnds (hole root c).1 := by
  obtain ⟨xs, hxs, hxn, hxm⟩ := h.frames.chain h.root_parent h.nodup
  exact walkEnds_link_of_chain hxs hxn fun a he hq => ha a he (hxm a hq)

/-- The walk from a node below the hole ends. -/
theorem Hole.walkEnds_below (h : Hole S root c s) (hyp : s.parent y = some (hole root c).1)
    (hy : y ∉ root :: frameNodes c)
    (ha : ∀ a, node = some a → a ∉ root :: frameNodes c ∧ a ≠ y) :
    (s.link y node i).WalkEnds y := by
  obtain ⟨xs, hxs, hxn, hxm⟩ := h.frames.chain h.root_parent h.nodup
  have hchain : Chain s.parent (some y) (y :: xs) := ⟨rfl, by rwa [hyp]⟩
  have hn : (y :: xs).Nodup := List.nodup_cons.mpr ⟨fun hq => hy (hxm y hq), hxn⟩
  refine walkEnds_link_of_chain hchain hn fun a he hq => ?_
  rcases List.mem_cons.mp hq with hq | hq
  · exact (ha a he).2 hq
  · exact (ha a he).1 (hxm a hq)

section Rotation

variable [Fintype ι]

/-- An adoption into the hole. -/
theorem Hole.adopt_node (h : Hole S root c s)
    (ha : ∀ a, node = some a → a ∈ S ∧ a ∉ root :: frameNodes c) :
    ∃ s', s.adopt P (hole root c).1 node (hole root c).2 = .ok s' ∧ Hole S root c s' ∧
      Adopted s (hole root c).1 node (hole root c).2 s' ∧ Outside S s s' := by
  obtain ⟨s', h', hs', hI', ho'⟩ := adopt_spec (P := P) (i := (hole root c).2) h.inv
    (h.mem _ hole_mem) (fun a he => ⟨(ha a he).1, fun hq => (ha a he).2 (hq ▸ hole_mem)⟩)
    (h.walkEnds fun a he => (ha a he).2)
  refine ⟨s', h', ⟨hI', ?_, ?_, ?_, h.nodup, h.mem⟩, hs', ho'⟩
  · rw [hs'.parent, if_neg fun he => (ha root he).2 (by simp), h.root_parent]
  · rw [hs'.child, if_neg, h.root_right]
    have hn := h.nodup
    rintro ⟨hr, hs⟩
    cases c with
    | nil => simp [hole] at hs
    | cons f c => simp [hole] at hr hn; tauto
  · exact hs'.frames h.frames h.nodup (fun _ => rfl)
      fun a he hq => (ha a he).2 (List.mem_cons_of_mem _ hq)

/-- Fill the hole. -/
theorem Hole.adopt (h : Hole S root c s) (ht : Piece S root c t s) :
    ∃ s', s.adopt P (hole root c).1 (top t) (hole root c).2 = .ok s' ∧ Zip S root c t s' ∧
      Adopted s (hole root c).1 (top t) (hole root c).2 s' ∧ Outside S s s' := by
  obtain ⟨s', h', hc', hs', ho'⟩ := h.adopt_node (P := P)
    fun a he => ⟨ht.mem a (mem_of_top he), ht.apart a (mem_of_top he)⟩
  refine ⟨s', h', ⟨hc', ?_, hs'.attached_self rfl⟩, hs', ho'⟩
  exact hs'.piece ht (fun hq => ht.apart _ hq hole_mem) fun a he _ => he

/-- A node outside of the context adopts a tree there. -/
theorem Piece.adopt (ht : Piece S root c t s) (h : Hole S root c s)
    (hy : y ∉ root :: frameNodes c) (hyt : y ∉ inorder t) (hyS : y ∈ S)
    (hw : (s.link y (top t) i).WalkEnds y) :
    ∃ s', s.adopt P y (top t) i = .ok s' ∧ Hole S root c s' ∧ Piece S root c t s' ∧
      Attached s'.child s'.parent y i t ∧ Adopted s y (top t) i s' ∧ Outside S s s' := by
  have hxy : ∀ x, top t = some x → x ≠ y := by
    rintro x hx rfl
    exact hyt (mem_of_top hx)
  obtain ⟨s', h', hs', hI', ho'⟩ := adopt_spec (P := P) (i := i) h.inv hyS
    (fun x hx => ⟨ht.mem x (mem_of_top hx), hxy x hx⟩) hw
  refine ⟨s', h', hs'.hole hI' h hy ?_, hs'.piece ht hyt ?_, hs'.attached_self rfl, hs', ho'⟩
  · exact fun x hx => ht.apart x (mem_of_top hx)
  · exact fun x hx _ => hx

/-- Its own parent may be a node that it is not a child of, -/
theorem Piece.adopt_above (ht : Piece S root c t s) (h : Hole S root c s)
    (hy : y ∉ root :: frameNodes c) (hyt : y ∉ inorder t) (hyS : y ∈ S)
    (hyp : s.parent y = some p) (hpy : p ≠ y) (hpc : ∀ i, s.child p i ≠ some y)
    (hpd : s.DepthOk p) (i : Bool) :
    ∃ s', s.adopt P y (top t) i = .ok s' ∧ Hole S root c s' ∧ Piece S root c t s' ∧
      Attached s'.child s'.parent y i t ∧ Adopted s y (top t) i s' ∧ Outside S s s' :=
  ht.adopt h hy hyt hyS (walkEnds_link_of_stop hyp hpy hpc hpd fun hx => hyt (mem_of_top hx))

/-- or the one above the hole. -/
theorem Piece.adopt_below (ht : Piece S root c t s) (h : Hole S root c s)
    (hy : y ∉ root :: frameNodes c) (hyt : y ∉ inorder t) (hyS : y ∈ S)
    (hyp : s.parent y = some (hole root c).1) (i : Bool) :
    ∃ s', s.adopt P y (top t) i = .ok s' ∧ Hole S root c s' ∧ Piece S root c t s' ∧
      Attached s'.child s'.parent y i t ∧ Adopted s y (top t) i s' ∧ Outside S s s' := by
  refine ht.adopt h hy hyt hyS (h.walkEnds_below hyp hy fun a he => ?_)
  refine ⟨ht.apart a (mem_of_top he), ?_⟩
  rintro rfl
  exact hyt (mem_of_top he)

variable {side : Bool}

/-- The three adoptions of a simple rotation. -/
theorem Zip.simpleRotation (h : Zip S root c (join side x a (join side y b d)) s) :
    ∃ s₁ s₂ s₃, s.adopt P x (top b) (!side) = .ok s₁ ∧ s₁.adopt P y (some x) side = .ok s₂ ∧
      s₂.adopt P (hole root c).1 (some y) (hole root c).2 = .ok s₃ ∧
      Zip S root c (join side y (join side x a b) d) s₃ ∧ Outside S s s₃ := by
  have hz : Zip S root (⟨x, !side, a⟩ :: c) (join side y b d) s := by
    rw [zip_cons, join_not]
    exact h
  obtain ⟨⟨-, hyd⟩, ⟨hb, hd⟩, ⟨hyb, hyd', hbd⟩, hy, hyS⟩ := piece_join.mp hz.piece
  obtain ⟨hyx, hya, hyc⟩ := apart_cons.mp hy
  have hyt : y ∉ inorder (join side x a b) := by
    rw [mem_inorder_join]
    tauto
  have htd : ∀ q ∈ inorder (join side x a b), q ∉ inorder d := by
    intro q hq hqd
    obtain ⟨hqx, hqa, -⟩ := apart_cons.mp (hd.apart q hqd)
    rcases mem_inorder_join.mp hq with hq | hq | hq
    · exact hqx hq
    · exact hqa hq
    · exact hbd q hq hqd
  -- `x` takes over the inner subtree of its child `y`
  obtain ⟨s₁, h₁, hz₁, hs₁, ho₁⟩ := hz.context.adopt (P := P) hb
  rw [zip_cons, join_not] at hz₁
  have hyd₁ : Attached s₁.child s₁.parent y (!side) d :=
    hs₁.attached hyd (fun hq => hyx hq.1) fun q hq he => hbd q (mem_of_top he) (mem_of_top hq)
  have hd₁ : Piece S root c d s₁ :=
    hs₁.piece hd.tail (fun hq => htd x (mem_of_top top_join) hq)
      fun q he hq => absurd hq (hbd q (mem_of_top he))
  have hyx₁ : s₁.parent y = some x := by
    rw [hs₁.parent, if_neg fun he => hyb (mem_of_top he)]
    exact hz.parent_eq top_join
  -- its child becomes its parent, so these two are each other's parent
  obtain ⟨s₂, h₂, hc₂, ht₂, hyx₂, hs₂, ho₂⟩ := hz₁.piece.adopt_above (P := P) hz₁.context hyc hyt
    hyS hyx₁ hyx.symm (hz₁.child_ne top_join hyt) (hz₁.depthOk top_join) side
  have hyd₂ : Attached s₂.child s₂.parent y (!side) d :=
    hs₂.attached hyd₁ (by simp) fun q hq he => htd q (mem_of_top he) (mem_of_top hq)
  have hd₂ : Piece S root c d s₂ :=
    hs₂.piece hd₁ hyd' fun q he hq => absurd hq (htd q (mem_of_top he))
  -- and takes its place
  obtain ⟨s₃, h₃, hz₃, -, ho₃⟩ := hc₂.adopt (P := P) <|
    piece_join.mpr ⟨⟨hyx₂, hyd₂⟩, ⟨ht₂, hd₂⟩, ⟨hyt, hyd', htd⟩, hyc, hyS⟩
  rw [top_join] at h₂ h₃
  exact ⟨s₁, s₂, s₃, h₁, h₂, h₃, hz₃, (ho₁.trans ho₂).trans ho₃⟩

/-- The five adoptions of a double rotation. -/
theorem Zip.doubleRotation {e : BinaryTree ι}
    (h : Zip S root c (join side x a (join side y (join side z b e) d)) s) :
    ∃ s₁ s₂ s₃ s₄ s₅, s.adopt P x (top b) (!side) = .ok s₁ ∧ s₁.adopt P y (top e) side = .ok s₂ ∧
      s₂.adopt P z (some x) side = .ok s₃ ∧ s₃.adopt P z (some y) (!side) = .ok s₄ ∧
      s₄.adopt P (hole root c).1 (some z) (hole root c).2 = .ok s₅ ∧
      Zip S root c (join side z (join side x a b) (join side y e d)) s₅ ∧ Outside S s s₅ := by
  have hz : Zip S root (⟨x, !side, a⟩ :: c) (join side y (join side z b e) d) s := by
    rw [zip_cons, join_not]
    exact h
  obtain ⟨⟨hyz, hyd⟩, ⟨hpz, hd⟩, ⟨hyz', hyd', hzd⟩, hy, hyS⟩ := piece_join.mp hz.piece
  obtain ⟨⟨-, -⟩, ⟨hb, he⟩, ⟨hzb, hze, hbe⟩, hz', hzS⟩ := piece_join.mp hpz
  simp only [mem_inorder_join, not_or] at hyz' hzd
  obtain ⟨hyz', hyb, hye⟩ := hyz'
  obtain ⟨hyx, hya, hyc⟩ := apart_cons.mp hy
  obtain ⟨hzx, hza, hzc⟩ := apart_cons.mp hz'
  have hyt : y ∉ inorder (join side x a b) := by
    rw [mem_inorder_join]
    tauto
  have hzt : z ∉ inorder (join side x a b) := by
    rw [mem_inorder_join]
    tauto
  have hzr : z ∉ inorder (join side y e d) := by
    rw [mem_inorder_join]
    have := hzd z (.inl rfl)
    tauto
  have hte : ∀ q ∈ inorder (join side x a b), q ∉ inorder e := by
    intro q hq hqe
    obtain ⟨hqx, hqa, -⟩ := apart_cons.mp (he.apart q hqe)
    rcases mem_inorder_join.mp hq with hq | hq | hq
    · exact hqx hq
    · exact hqa hq
    · exact hbe q hq hqe
  have htd : ∀ q ∈ inorder (join side x a b), q ∉ inorder d := by
    intro q hq hqd
    obtain ⟨hqx, hqa, -⟩ := apart_cons.mp (hd.apart q hqd)
    rcases mem_inorder_join.mp hq with hq | hq | hq
    · exact hqx hq
    · exact hqa hq
    · exact hzd q (.inr (.inl hq)) hqd
  have htr : ∀ q ∈ inorder (join side x a b), q ∉ inorder (join side y e d) := by
    intro q hq hqr
    rcases mem_inorder_join.mp hqr with rfl | hqr | hqr
    · exact hyt hq
    · exact hte q hq hqr
    · exact htd q hq hqr
  -- `x` takes over the inner subtree that is next to it
  obtain ⟨s₁, h₁, hz₁, hs₁, ho₁⟩ := hz.context.adopt (P := P) hb
  rw [zip_cons, join_not] at hz₁
  have hyd₁ : Attached s₁.child s₁.parent y (!side) d :=
    hs₁.attached hyd (fun hq => hyx hq.1)
      fun q hq hq' => hzd q (.inr (.inl (mem_of_top hq'))) (mem_of_top hq)
  have hd₁ : Piece S root c d s₁ :=
    hs₁.piece hd.tail (htd x (mem_of_top top_join))
      fun q hq hq' => absurd hq' (hzd q (.inr (.inl (mem_of_top hq))))
  have he₁ : Piece S root c e s₁ :=
    hs₁.piece he.tail (hte x (mem_of_top top_join))
      fun q hq hq' => absurd hq' (hbe q (mem_of_top hq))
  have hyx₁ : s₁.parent y = some x := by
    rw [hs₁.parent, if_neg fun hq => hyb (mem_of_top hq)]
    exact hz.parent_eq top_join
  have hzy₁ : s₁.parent z = some y := by
    rw [hs₁.parent, if_neg fun hq => hzb (mem_of_top hq)]
    exact hyz.parent_eq z top_join
  -- its child `y` takes over the other one
  obtain ⟨s₂, h₂, hc₂, he₂, hye₂, hs₂, ho₂⟩ := he₁.adopt_above (P := P) hz₁.context hyc hye
    hyS hyx₁ hyx.symm (hz₁.child_ne top_join hyt) (hz₁.depthOk top_join) side
  have hz₂ : Zip S root c (join side x a b) s₂ :=
    hs₂.zip hc₂.inv hz₁ hyc hyt (fun q hq => he₁.apart q (mem_of_top hq))
      fun q hq hq' => hte q hq' (mem_of_top hq)
  have hyd₂ : Attached s₂.child s₂.parent y (!side) d :=
    hs₂.attached hyd₁ (by simp)
      fun q hq hq' => hzd q (.inr (.inr (mem_of_top hq'))) (mem_of_top hq)
  have hd₂ : Piece S root c d s₂ :=
    hs₂.piece hd₁ hyd' fun q hq hq' => absurd hq' (hzd q (.inr (.inr (mem_of_top hq))))
  have hr₂ : Piece S root c (join side y e d) s₂ :=
    piece_join.mpr ⟨⟨hye₂, hyd₂⟩, ⟨he₂, hd₂⟩, ⟨hye, hyd', fun q hq => hzd q (.inr (.inr hq))⟩,
      hyc, hyS⟩
  have hzy₂ : s₂.parent z = some y := by
    rw [hs₂.parent, if_neg fun hq => hze (mem_of_top hq), hzy₁]
  -- both become children of `z`, which still has `y` as its parent
  have hstop : ∀ {s' : AvlNodes ι β}, Hole S root c s' → Piece S root c (join side y e d) s' →
      s'.DepthOk y ∧ ∀ j, s'.child y j ≠ some z := by
    intro s' hc' hr'
    obtain ⟨⟨h₁, h₂⟩, -⟩ := piece_join.mp hr'
    rw [mem_inorder_join] at hzr
    exact ⟨hc'.inv.depthOk y hyS (keeps_of_attached h₁ h₂),
      ne_child_of_attached h₁ h₂ (by tauto) (by tauto)⟩
  obtain ⟨s₃, h₃, hc₃, ht₃, hzx₃, hs₃, ho₃⟩ := hz₂.piece.adopt_above (P := P) hc₂ hzc hzt
    hzS hzy₂ hyz' (hstop hc₂ hr₂).2 (hstop hc₂ hr₂).1 side
  have hr₃ : Piece S root c (join side y e d) s₃ :=
    hs₃.piece hr₂ hzr fun q hq hq' => absurd hq' (htr q (mem_of_top hq))
  have hzy₃ : s₃.parent z = some y := by
    rw [hs₃.parent, if_neg fun hq => hzt (mem_of_top hq), hzy₂]
  obtain ⟨s₄, h₄, hc₄, hr₄, hzy₄, hs₄, ho₄⟩ := hr₃.adopt_above (P := P) hc₃ hzc hzr
    hzS hzy₃ hyz' (hstop hc₃ hr₃).2 (hstop hc₃ hr₃).1 (!side)
  have hzx₄ : Attached s₄.child s₄.parent z side (join side x a b) :=
    hs₄.attached hzx₃ (by simp) fun q hq hq' => htr q (mem_of_top hq) (mem_of_top hq')
  have ht₄ : Piece S root c (join side x a b) s₄ :=
    hs₄.piece ht₃ hzt fun q hq hq' => absurd (mem_of_top hq) (htr q hq')
  -- and `z` takes the place of `x`
  obtain ⟨s₅, h₅, hz₅, -, ho₅⟩ := hc₄.adopt (P := P) <|
    piece_join.mpr ⟨⟨hzx₄, hzy₄⟩, ⟨ht₄, hr₄⟩, ⟨hzt, hzr, htr⟩, hzc, hzS⟩
  rw [top_join] at h₃ h₄ h₅
  exact ⟨s₁, s₂, s₃, s₄, s₅, h₁, h₂, h₃, h₄, h₅, hz₅,
    (((ho₁.trans ho₂).trans ho₃).trans ho₄).trans ho₅⟩

omit [Fintype ι] in
/-- The rotation finds the side that the subtree is at. -/
theorem Zip.side_eq (h : Zip S root c t s) (ht : top t = some x) :
    (if s.child (hole root c).1 false = some x then false else true) = (hole root c).2 := by
  have hx := h.attached.child_eq.trans ht
  cases c with
  | nil => exact if_pos hx
  | cons f c =>
    obtain ⟨y, k, o⟩ := f
    cases k with
    | false => exact if_pos hx
    | true =>
      refine if_neg fun hy => ?_
      have ho : top o = some x := h.context.frames.1.child_eq.symm.trans hy
      exact (apart_cons.mp (h.piece.apart x (mem_of_top ht))).2.1 (mem_of_top ho)

theorem Zip.rotateSubtree (h : Zip S root c t s) (ht : top t = some x) (side : Bool) :
    ∃ s', s.rotateSubtree P (hole root c).1 x side = .ok s' ∧
      Zip S root c (AvlShape.rotate side t) s' ∧ Outside S s s' := by
  have hr := h.down ht (!side)
  unfold AvlNodes.rotateSubtree AvlShape.rotate
  simp only [h.side_eq ht, h.child_eq ht, ht]
  cases hy : top (sub (!side) t) with
  | none => exact ⟨s, rfl, h, .refl⟩
  | some y =>
    simp only [hr.bias_eq hy, hr.child_eq hy]
    have hjoin : join side x (sub side t) (join side y (sub side (sub (!side) t))
        (sub (!side) (sub (!side) t))) = t := by
      rw [join_sub hy, join_sub ht]
    split
    · obtain ⟨s₁, s₂, s₃, h₁, h₂, h₃, hz, ho⟩ := Zip.simpleRotation (P := P) (hjoin.symm ▸ h)
      exact ⟨s₃, by simp [h₁, h₂, h₃], hz, ho⟩
    · cases hz : top (sub side (sub (!side) t)) with
      | none => exact ⟨s, rfl, h, .refl⟩
      | some z =>
        have hzz := hr.down hy side
        rw [← join_sub hz side] at hjoin
        obtain ⟨s₁, s₂, s₃, s₄, s₅, h₁, h₂, h₃, h₄, h₅, hz', ho⟩ :=
          Zip.doubleRotation (P := P) (hjoin.symm ▸ h)
        refine ⟨s₅, ?_, hz', ho⟩
        simp [hzz.child_eq hz, h₁, h₂, h₃, h₄, h₅]

theorem Zip.rebalanceSubtree (h : Zip S root c t s) (ht : top t = some x) :
    ∃ s', s.rebalanceSubtree P (hole root c).1 x = .ok s' ∧
      Zip S root c (AvlShape.rebalance t) s' ∧ Outside S s s' := by
  unfold AvlNodes.rebalanceSubtree AvlShape.rebalance
  simp only [h.childDepth_eq ht]
  split
  · exact ⟨s, rfl, h, .refl⟩
  · exact h.rotateSubtree ht _

end Rotation

end Genode.Util.AvlNodes
