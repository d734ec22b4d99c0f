import Mathlib.Data.Tree.Basic
import Mathlib.Data.List.Nodup
import Mathlib.Data.List.Perm.Basic
import Genode.Lib.Chain

/-!
# LinkedTree — binary trees linked by pointers

The first part is about trees as values: their nodes in order, the
subtree at a side, and contexts, which are trees with a hole. The second
part is about memory. A node has a pointer to a child at each side
(`false` is left) and one to its parent; `Linked` says that these links
are the ones of a given tree. A tree may hang below any node, at any
side, so an operation that relinks subtrees is described piece by piece:
each subtree that it does not touch stays linked, wherever it is
attached afterwards.
-/

namespace Genode.Lib.LinkedTree

open BinaryTree

variable {ι : Type}

/-! ## Trees -/

/-- The nodes from left to right. -/
@[simp] def inorder : BinaryTree ι → List ι
  | nil => []
  | node x l r => inorder l ++ x :: inorder r

/-- The top-most node. -/
def top : BinaryTree ι → Option ι
  | nil => none
  | node x _ _ => some x

/-- The subtree at a side. -/
def sub (i : Bool) (t : BinaryTree ι) : BinaryTree ι := cond i t.right t.left

/-- The tree with the node `x` above `a` at the side `i` and `b` at the other one. -/
def join (i : Bool) (x : ι) (a b : BinaryTree ι) : BinaryTree ι := cond i (node x b a) (node x a b)

section Tree

variable {i : Bool} {x : ι} {a b t : BinaryTree ι}

@[simp] theorem top_nil : top (nil : BinaryTree ι) = none := rfl

@[simp] theorem top_node : top (node x a b) = some x := rfl

@[simp] theorem top_join : top (join i x a b) = some x := by cases i <;> rfl

@[simp] theorem sub_join : sub i (join i x a b) = a := by cases i <;> rfl

@[simp] theorem sub_join_not : sub (!i) (join i x a b) = b := by cases i <;> rfl

@[simp] theorem sub_false_node : sub false (node x a b) = a := rfl

@[simp] theorem sub_true_node : sub true (node x a b) = b := rfl

theorem join_not : join (!i) x a b = join i x b a := by cases i <;> rfl

@[simp] theorem join_ne_nil : join i x a b ≠ nil := by cases i <;> simp [join]

theorem top_eq_none : top t = none ↔ t = nil := by cases t <;> simp

theorem join_sub (h : top t = some x) (i : Bool) : join i x (sub i t) (sub (!i) t) = t := by
  cases t with
  | nil => simp at h
  | node y l r =>
    obtain rfl : y = x := by simpa using h
    cases i <;> rfl

theorem inorder_join_perm : (inorder (join i x a b)).Perm (x :: inorder a ++ inorder b) := by
  cases i with
  | false => exact List.perm_middle
  | true => exact List.perm_middle.trans (List.perm_append_comm.cons x)

theorem mem_inorder_join {y : ι} :
    y ∈ inorder (join i x a b) ↔ y = x ∨ y ∈ inorder a ∨ y ∈ inorder b := by
  simp [inorder_join_perm.mem_iff]

theorem mem_of_top (h : top t = some x) : x ∈ inorder t := by
  cases t with
  | nil => simp at h
  | node y l r => simp_all

theorem inorder_length : (inorder t).length = t.numNodes := by
  induction t with
  | nil => rfl
  | node x l r hl hr =>
    simp only [inorder, List.length_append, List.length_cons, numNodes, hl, hr]
    omega

end Tree

/-! ## Contexts -/

/-- A node with a hole at one side and a subtree at the other one. -/
structure Frame (ι : Type) where
  top : ι
  side : Bool
  other : BinaryTree ι
  deriving DecidableEq

/-- Fill the hole; the frame that is nearest to it is the first one. -/
def plug : List (Frame ι) → BinaryTree ι → BinaryTree ι
  | [], t => t
  | f :: c, t => plug c (join f.side f.top t f.other)

/-- The nodes of a context. -/
def frameNodes (c : List (Frame ι)) : List ι := c.flatMap fun f => f.top :: inorder f.other

section Context

variable {c d : List (Frame ι)} {f : Frame ι} {x : ι} {t u : BinaryTree ι}

@[simp] theorem plug_nil : plug [] t = t := rfl

@[simp] theorem plug_cons : plug (f :: c) t = plug c (join f.side f.top t f.other) := rfl

@[simp] theorem plug_append : plug (c ++ d) t = plug d (plug c t) := by
  induction c generalizing t with
  | nil => rfl
  | cons f c ih => exact ih

@[simp] theorem frameNodes_nil : frameNodes ([] : List (Frame ι)) = [] := rfl

@[simp] theorem frameNodes_cons :
    frameNodes (f :: c) = f.top :: inorder f.other ++ frameNodes c := rfl

@[simp] theorem frameNodes_append : frameNodes (c ++ d) = frameNodes c ++ frameNodes d := by
  simp [frameNodes]

theorem map_top_sublist : (c.map Frame.top).Sublist (frameNodes c) := by
  induction c with
  | nil => exact .slnil
  | cons f c ih =>
    rw [frameNodes_cons, List.map_cons, List.cons_append]
    exact (ih.trans (List.sublist_append_right _ _)).cons_cons f.top

theorem inorder_plug_perm : (inorder (plug c t)).Perm (frameNodes c ++ inorder t) := by
  induction c generalizing t with
  | nil => exact .refl _
  | cons f c ih =>
    refine ih.trans ?_
    have h : (inorder (join f.side f.top t f.other)).Perm
        (f.top :: inorder f.other ++ inorder t) :=
      inorder_join_perm.trans (List.perm_append_comm.cons _)
    refine (h.append_left _).trans ?_
    rw [frameNodes_cons, ← List.append_assoc]
    exact List.perm_append_comm.append_right _

theorem mem_inorder_plug : x ∈ inorder (plug c t) ↔ x ∈ frameNodes c ∨ x ∈ inorder t := by
  simp [inorder_plug_perm.mem_iff]

/-- What the context has to the left and to the right of its hole stays. -/
theorem inorder_plug : ∃ l r, ∀ t, inorder (plug c t) = l ++ inorder t ++ r := by
  induction c with
  | nil => exact ⟨[], [], by simp⟩
  | cons f c ih =>
    obtain ⟨l, r, h⟩ := ih
    obtain ⟨y, i, o⟩ := f
    cases i with
    | false => exact ⟨l, y :: inorder o ++ r, fun t => by simp [h, join]⟩
    | true => exact ⟨l ++ inorder o ++ [y], r, fun t => by simp [h, join]⟩

theorem inorder_plug_congr (h : inorder t = inorder u) :
    inorder (plug c t) = inorder (plug c u) := by
  obtain ⟨l, r, hc⟩ := inorder_plug (c := c)
  rw [hc, hc, h]

/-- Each node of a tree is the top of a subtree. -/
theorem exists_plug_of_mem (h : x ∈ inorder t) : ∃ c l r, t = plug c (node x l r) := by
  induction t with
  | nil => simp at h
  | node y l r hl hr =>
    simp only [inorder, List.mem_append, List.mem_cons] at h
    rcases h with h | rfl | h
    · obtain ⟨c, l', r', rfl⟩ := hl h
      exact ⟨c ++ [⟨y, false, r⟩], l', r', by simp [join]⟩
    · exact ⟨[], l, r, rfl⟩
    · obtain ⟨c, l', r', rfl⟩ := hr h
      exact ⟨c ++ [⟨y, true, l⟩], l', r', by simp [join]⟩

end Context

/-! ## Trees in memory -/

section Memory

variable {child child' : ι → Bool → Option ι} {parent parent' : ι → Option ι}

/-- The node `p` and the top of the tree `t` have pointers to each other. -/
structure Attached (child : ι → Bool → Option ι) (parent : ι → Option ι) (p : ι) (i : Bool)
    (t : BinaryTree ι) : Prop where
  child_eq : child p i = top t
  parent_eq : ∀ x, top t = some x → parent x = some p

/-- The links inside a tree. -/
def Linked (child : ι → Bool → Option ι) (parent : ι → Option ι) : BinaryTree ι → Prop
  | nil => True
  | node x l r =>
    Attached child parent x false l ∧ Attached child parent x true r ∧
      Linked child parent l ∧ Linked child parent r

/-- Where the hole of a context is: below a node at a side of it. -/
def hole (root : ι) : List (Frame ι) → ι × Bool
  | [] => (root, false)
  | f :: _ => (f.top, f.side)

/-- The links of a context, up to a node that has the whole tree at its left side. -/
def FramesLinked (child : ι → Bool → Option ι) (parent : ι → Option ι) (root : ι) :
    List (Frame ι) → Prop
  | [] => True
  | f :: c =>
    Attached child parent f.top (!f.side) f.other ∧ Linked child parent f.other ∧
      child (hole root c).1 (hole root c).2 = some f.top ∧
      parent f.top = some (hole root c).1 ∧ FramesLinked child parent root c

variable {root p q x : ι} {i j : Bool} {a b t : BinaryTree ι} {c : List (Frame ι)}

@[simp] theorem linked_nil : Linked child parent (nil : BinaryTree ι) := trivial

theorem linked_join : Linked child parent (join i x a b) ↔
    Attached child parent x i a ∧ Attached child parent x (!i) b ∧
      Linked child parent a ∧ Linked child parent b := by
  cases i with
  | false => exact Iff.rfl
  | true =>
    change Attached child parent x false b ∧ Attached child parent x true a ∧
      Linked child parent b ∧ Linked child parent a ↔ _
    tauto

theorem attached_nil : Attached child parent p i nil ↔ child p i = none :=
  ⟨fun h => h.child_eq, fun h => ⟨h, fun x hx => by simp at hx⟩⟩

theorem attached_of_top (h : top t = some x) :
    Attached child parent p i t ↔ child p i = some x ∧ parent x = some p := by
  constructor
  · intro ha
    exact ⟨ha.child_eq.trans h, ha.parent_eq x h⟩
  · rintro ⟨hc, hp⟩
    refine ⟨hc.trans h.symm, fun y hy => ?_⟩
    obtain rfl : x = y := Option.some.inj (h.symm.trans hy)
    exact hp

theorem Attached.congr (h : Attached child parent p i t) (hc : child' p i = child p i)
    (hp : ∀ x, top t = some x → parent' x = parent x) : Attached child' parent' p i t :=
  ⟨hc.trans h.child_eq, fun x hx => (hp x hx).trans (h.parent_eq x hx)⟩

/-- The links inside a tree are those of its nodes; the top has its parent elsewhere. -/
theorem Linked.congr (h : Linked child parent t) (hn : (inorder t).Nodup)
    (hc : ∀ x ∈ inorder t, child' x = child x)
    (hp : ∀ x ∈ inorder t, top t ≠ some x → parent' x = parent x) :
    Linked child' parent' t := by
  induction t with
  | nil => trivial
  | node y l r hl hr =>
    obtain ⟨h₁, h₂, h₃, h₄⟩ := h
    simp only [inorder, List.nodup_append, List.nodup_cons, List.mem_cons] at hn
    have hcl : ∀ x ∈ inorder l, child' x = child x := fun x hx => hc x (by simp [hx])
    have hcr : ∀ x ∈ inorder r, child' x = child x := fun x hx => hc x (by simp [hx])
    have hpl : ∀ x ∈ inorder l, parent' x = parent x := by
      intro x hx
      refine hp x (by simp [hx]) ?_
      simpa using (hn.2.2 x hx y (.inl rfl)).symm
    have hpr : ∀ x ∈ inorder r, parent' x = parent x := by
      intro x hx
      refine hp x (by simp [hx]) ?_
      rintro ⟨⟩
      exact hn.2.1.1 hx
    have hy : child' y = child y := hc y (by simp)
    exact ⟨h₁.congr (congrFun hy _) fun x hx => hpl x (mem_of_top hx),
      h₂.congr (congrFun hy _) fun x hx => hpr x (mem_of_top hx),
      hl h₃ hn.1 hcl fun x hx _ => hpl x hx, hr h₄ hn.2.1.2 hcr fun x hx _ => hpr x hx⟩

theorem hole_mem : (hole root c).1 ∈ root :: frameNodes c := by
  cases c <;> simp [hole]

/-- The links of a context are those of its nodes, except for the one into the hole. -/
theorem FramesLinked.congr (h : FramesLinked child parent root c)
    (hn : (root :: frameNodes c).Nodup)
    (hc : ∀ x ∈ root :: frameNodes c, ∀ j, hole root c ≠ (x, j) → child' x j = child x j)
    (hp : ∀ x ∈ frameNodes c, parent' x = parent x) : FramesLinked child' parent' root c := by
  induction c with
  | nil => trivial
  | cons f c ih =>
    obtain ⟨h₁, h₂, h₃, h₄, h₅⟩ := h
    simp only [frameNodes_cons, List.cons_append, List.nodup_cons, List.mem_cons,
      List.mem_append, List.nodup_append, not_or] at hn hc hp
    obtain ⟨⟨hrf, hro, hrc⟩, ⟨hfo, hfc⟩, hno, hnc, hoc⟩ := hn
    -- the hole is below `f`, so nothing changes at the other nodes
    have hrest : ∀ x ∈ root :: frameNodes c, ∀ j, child' x j = child x j := by
      intro x hx j
      rw [List.mem_cons] at hx
      refine hc x (by tauto) j ?_
      rintro ⟨⟩
      rcases hx with rfl | hx
      · exact hrf rfl
      · exact hfc hx
    have hother : ∀ x ∈ inorder f.other, child' x = child x := by
      intro x hx
      funext j
      refine hc x (by tauto) j ?_
      rintro ⟨⟩
      exact hfo hx
    refine ⟨h₁.congr (hc _ (by tauto) _ (by simp [hole])) fun x hx => hp x ?_,
      h₂.congr hno hother fun x hx _ => hp x (by tauto),
      (hrest _ hole_mem _).trans h₃, (hp _ (by tauto)).trans h₄,
      ih h₅ (by simp [hrc, hnc]) (fun x hx j _ => hrest x hx j) fun x hx => hp x (by tauto)⟩
    exact .inr (.inl (mem_of_top hx))

/-- A tree below `root` is linked if the context and the subtree in its hole are. -/
theorem linked_plug : Attached child parent root false (plug c t) ∧ Linked child parent (plug c t) ↔
    FramesLinked child parent root c ∧
      Attached child parent (hole root c).1 (hole root c).2 t ∧ Linked child parent t := by
  induction c generalizing t with
  | nil => simp [FramesLinked, hole]
  | cons f c ih =>
    rw [plug_cons, ih, linked_join, attached_of_top top_join]
    simp only [FramesLinked, hole]
    tauto

/-- The way from the hole up to the root. -/
theorem FramesLinked.chain (h : FramesLinked child parent root c) (hr : parent root = none)
    (hn : (root :: frameNodes c).Nodup) :
    ∃ xs, Chain parent (some (hole root c).1) xs ∧ xs.Nodup ∧
      ∀ q ∈ xs, q ∈ root :: frameNodes c := by
  have hsub := map_top_sublist (c := c)
  refine ⟨c.map Frame.top ++ [root], ?_, ?_, fun q hq => ?_⟩
  · clear hn hsub
    induction c with
    | nil => simp [hole, hr]
    | cons f c ih =>
      obtain ⟨-, -, -, h₄, h₅⟩ := h
      refine ⟨rfl, ?_⟩
      rw [h₄]
      exact ih h₅
  · rw [List.nodup_cons] at hn
    refine List.nodup_append.mpr ⟨hn.2.sublist hsub, List.nodup_singleton _, ?_⟩
    rintro q hq r hr rfl
    exact hn.1 (List.mem_singleton.mp hr ▸ hsub.subset hq)
  · rcases List.mem_append.mp hq with hq | hq
    · exact List.mem_cons_of_mem _ (hsub.subset hq)
    · simp_all

end Memory

end Genode.Lib.LinkedTree
