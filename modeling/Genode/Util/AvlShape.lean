import Mathlib.Data.Fintype.Card
import Genode.Lib.LinkedTree

/-!
# AvlShape — the balanced tree as a value

What the operations of `base/avl_tree.cc` do to the shape of the tree,
without pointers. The rotations are those of the code: the left and the
right rotation are not mirror images of each other where the subtrees of
the child have the same depth, and a removal rebalances only if the node
that takes the place of the removed one comes from further below.
-/

namespace Genode.Util.AvlShape

open BinaryTree Lib.LinkedTree

variable {ι : Type}

/-- The depth as the nodes have it, in 8 bits. -/
@[simp] def depth : BinaryTree ι → Nat
  | nil => 0
  | node _ l r => (max (depth l) (depth r) + 1) % 256

/-- The right subtree is the deeper one. -/
def bias (t : BinaryTree ι) : Bool := decide (depth (sub true t) > depth (sub false t))

/-- Rotate to the side `side`. -/
def rotate (side : Bool) (t : BinaryTree ι) : BinaryTree ι :=
  let r := sub (!side) t
  match top t, top r with
  | some x, some y =>
    if bias r = !side then join side y (join side x (sub side t) (sub side r)) (sub (!side) r)
    else
      let rl := sub side r
      match top rl with
      | none => t
      | some z => join side z (join side x (sub side t) (sub side rl))
          (join side y (sub (!side) rl) (sub (!side) r))
  | _, _ => t

/-- Rotate if one subtree is deeper than the other one by two or more. -/
def rebalance (t : BinaryTree ι) : BinaryTree ι :=
  let l := depth (sub false t)
  let r := depth (sub true t)
  if r < l + 2 ∧ l < r + 2 then t else rotate (decide (r < l)) t

/-- Insert `x` and rebalance on the way back. -/
def ins (higher : ι → ι → Bool) (x : ι) : BinaryTree ι → BinaryTree ι
  | nil => node x nil nil
  | node y l r =>
    rebalance (if higher y x then node y l (ins higher x r) else node y (ins higher x l) r)

theorem ins_of_top {higher : ι → ι → Bool} {t : BinaryTree ι} {x y : ι} (ht : top t = some y) :
    ins higher x t = rebalance (join (higher y x) y (ins higher x (sub (higher y x) t))
      (sub (!higher y x) t)) := by
  obtain _ | ⟨y', l, r⟩ := t
  · simp at ht
  · obtain rfl : y' = y := by simpa using ht
    rw [ins]
    cases higher y' x <;> rfl

/-- Fill the hole of a context and rebalance on the way to the root. -/
def rebalanceFrames : List (Frame ι) → BinaryTree ι → BinaryTree ι
  | [], t => t
  | f :: c, t => rebalanceFrames c (rebalance (join f.side f.top t f.other))

/-- The node `y` with the left subtree `u` is taken from the end of the
way `d` into the left subtree of a node; it takes the place of this node
in the context `c`, above the right subtree `r`. -/
def exchange (c d : List (Frame ι)) (y : ι) (u r : BinaryTree ι) : BinaryTree ι :=
  if d = [] then plug c (node y u r) else rebalanceFrames (d ++ ⟨y, false, r⟩ :: c) u

/-- Removal of the node `x`. -/
inductive Removal (x : ι) : BinaryTree ι → BinaryTree ι → Prop where
  /-- Without left subtree the right one takes its place. -/
  | right (c : List (Frame ι)) (r : BinaryTree ι) :
      Removal x (plug c (node x nil r)) (plug c r)
  /-- Else it is exchanged with the right-most node of the left subtree. -/
  | exchange (c d : List (Frame ι)) (y : ι) (u r : BinaryTree ι) (hd : ∀ f ∈ d, f.side = true) :
      Removal x (plug c (node x (plug d (node y u nil)) r)) (exchange c d y u r)

/-! ## The nodes in order -/

section Inorder

variable {side : Bool} {t u r : BinaryTree ι} {c d : List (Frame ι)} {x y : ι}

@[simp] theorem inorder_rotate : inorder (rotate side t) = inorder t := by
  obtain _ | ⟨x, a, b⟩ := t
  · rfl
  unfold rotate
  cases side with
  | false =>
    obtain _ | ⟨y, bl, br⟩ := b
    · rfl
    simp only [top_node, sub, join, Bool.not_false, cond_true, cond_false, right, left]
    split
    · simp
    · cases bl <;> simp
  | true =>
    obtain _ | ⟨y, al, ar⟩ := a
    · rfl
    simp only [top_node, sub, join, Bool.not_true, cond_true, cond_false, right, left]
    split
    · simp
    · cases ar <;> simp

@[simp] theorem inorder_rebalance : inorder (rebalance t) = inorder t := by
  unfold rebalance
  dsimp only
  split
  · rfl
  · exact inorder_rotate

theorem inorder_rebalanceFrames : inorder (rebalanceFrames c t) = inorder (plug c t) := by
  induction c generalizing t with
  | nil => rfl
  | cons f c ih => rw [rebalanceFrames, ih, plug_cons, inorder_plug_congr inorder_rebalance]

/-- The exchange drops the node from the sequence. -/
theorem inorder_exchange (hd : ∀ f ∈ d, f.side = true) :
    ∃ before after, inorder (exchange c d y u r) = before ++ after ∧
      ∀ x, inorder (plug c (node x (plug d (node y u nil)) r)) = before ++ x :: after := by
  have h : inorder (exchange c d y u r) = inorder (plug c (node y (plug d u) r)) := by
    unfold exchange
    split
    · rename_i hd
      rw [hd]
      rfl
    · rw [inorder_rebalanceFrames]
      simp [join]
  -- all of the way is to the left of the node at its end
  have hway : ∀ t : BinaryTree ι, inorder (plug d t) = inorder (plug d nil) ++ inorder t := by
    clear h
    intro t
    induction d generalizing t with
    | nil => rfl
    | cons f d ih =>
      rw [plug_cons, plug_cons, ih fun g hg => hd g (by simp [hg]),
        ih (fun g hg => hd g (by simp [hg])) (join _ _ nil _), hd f (by simp)]
      simp [join]
  obtain ⟨before, after, hc⟩ := inorder_plug (c := c)
  refine ⟨before ++ inorder (plug d u) ++ [y], inorder r ++ after, ?_, fun x => ?_⟩
  · rw [h, hc]
    simp
  · rw [hc, inorder, hway (node y u nil), hway u]
    simp

/-- A removal drops the node from the sequence. -/
theorem Removal.inorder_eq (h : Removal x t u) :
    ∃ before after, inorder t = before ++ x :: after ∧ inorder u = before ++ after := by
  cases h with
  | right c r =>
    obtain ⟨before, after, hc⟩ := inorder_plug (c := c)
    exact ⟨before, inorder r ++ after, by simp [hc], by simp [hc]⟩
  | exchange c d y u r hd =>
    obtain ⟨before, after, h₁, h₂⟩ := inorder_exchange (c := c) (y := y) (u := u) (r := r) hd
    exact ⟨before, after, h₂ x, h₁⟩

end Inorder

/-! ## Search trees -/

section Search

variable {κ : Type} [LinearOrder κ] {key : ι → κ} {higher : ι → ι → Bool} {x y : ι}
  {t : BinaryTree ι}

/-- The inserted node is put behind those that are not above it. -/
theorem inorder_ins (hh : ∀ a ∈ inorder t, higher a x = decide (key a ≤ key x))
    (ht : (inorder t).Pairwise fun a b => key a ≤ key b) :
    ∃ before after, inorder t = before ++ after ∧ inorder (ins higher x t) = before ++ x :: after ∧
      (∀ a ∈ before, key a ≤ key x) ∧ ∀ a ∈ after, key x < key a := by
  induction t with
  | nil => exact ⟨[], [], rfl, rfl, by simp, by simp⟩
  | node y l r hl hr =>
    simp only [inorder, List.pairwise_append, List.pairwise_cons, List.mem_cons] at ht
    obtain ⟨hpl, ⟨hyr, hpr⟩, hlr⟩ := ht
    have hhl : ∀ a ∈ inorder l, higher a x = decide (key a ≤ key x) := fun a ha =>
      hh a (by simp [inorder, ha])
    have hhr : ∀ a ∈ inorder r, higher a x = decide (key a ≤ key x) := fun a ha =>
      hh a (by simp [inorder, ha])
    have hhy := hh y (by simp [inorder])
    rw [ins, inorder_rebalance]
    by_cases h : key y ≤ key x
    · obtain ⟨before, after, h₁, h₂, h₃, h₄⟩ := hr hhr hpr
      refine ⟨inorder l ++ y :: before, after, by simp [h₁], by simp [hhy, h, h₂], ?_, h₄⟩
      intro a ha
      rcases List.mem_append.mp ha with ha | ha
      · exact (hlr a ha y (.inl rfl)).trans h
      · rcases List.mem_cons.mp ha with rfl | ha
        · exact h
        · exact h₃ a ha
    · obtain ⟨before, after, h₁, h₂, h₃, h₄⟩ := hl hhl hpl
      refine ⟨before, after ++ y :: inorder r, by simp [h₁], by simp [hhy, h, h₂], h₃, ?_⟩
      intro a ha
      rw [not_le] at h
      rcases List.mem_append.mp ha with ha | ha
      · exact h₄ a ha
      · rcases List.mem_cons.mp ha with rfl | ha
        · exact h
        · exact h.trans_le (hyr a ha)

end Search

end Genode.Util.AvlShape
