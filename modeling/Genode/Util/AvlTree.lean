import Mathlib.Data.Fintype.Card
import Genode.Lib.Exec

/-!
# AvlTree — nodes linked to a balanced tree

`util/avl_tree.h` and `base/avl_tree.cc`. The nodes `ι` have pointers to
their children and their parent and know the depth of their subtree. The
tree itself is a node without parent; all others are at its left side.

The policy compares two nodes, and it is told when the children of a
node changed so that it can update what the node remembers of its
subtree. The order of these calls matters to it: a node that gets another
depth first updates its parent and then calls the hook for itself.

Walks along pointers are on fuel. There are no more nodes than `ι` has
elements.
-/

namespace Genode.Util

open Lib

/-- `Avl_node_base::Policy`. -/
structure AvlPolicy (ι β : Type) where
  /-- Whether the second node is higher than or equal to the first. -/
  higher : ι → ι → Bool
  /-- The hook: what a node remembers, given what its children do. -/
  recompute : ι → Option β → Option β → β

/-- The nodes. Sides are `false` for left and `true` for right. -/
structure AvlNodes (ι β : Type) where
  child : ι → Bool → Option ι
  parent : ι → Option ι
  depth : ι → Nat
  data : ι → β

namespace AvlNodes

variable {ι β : Type} [DecidableEq ι]

/-- Constructed nodes. -/
def init (data : ι → β) : AvlNodes ι β := ⟨fun _ _ => none, fun _ => none, fun _ => 1, data⟩

variable (s : AvlNodes ι β)

/-- `Avl_node_base::Avl_node_base`. -/
def construct (x : ι) (d : β) : AvlNodes ι β :=
  { child := Function.update s.child x fun _ => none
    parent := Function.update s.parent x none
    depth := Function.update s.depth x 1
    data := Function.update s.data x d }

/-- `_child_depth`. -/
def childDepth (x : ι) (i : Bool) : Nat := (s.child x i).elim 0 s.depth

def childData (x : ι) (i : Bool) : Option β := (s.child x i).map s.data

/-- `_bias`. -/
def bias (x : ι) : Bool := decide (s.childDepth x true > s.childDepth x false)

/-- The depth that the children give a node; it is an 8-bit number. -/
def newDepth (x : ι) : Nat := (max (s.childDepth x false) (s.childDepth x true) + 1) % 256

def setDepth (x : ι) : AvlNodes ι β :=
  { s with depth := Function.update s.depth x (s.newDepth x) }

variable (P : AvlPolicy ι β)

/-- The call of the hook. -/
def callHook (x : ι) : AvlNodes ι β :=
  { s with
    data := Function.update s.data x (P.recompute x (s.childData x false) (s.childData x true)) }

/-- `_recompute_depth`. -/
def recomputeDepth : Nat → ι → AvlNodes ι β → Exec (AvlNodes ι β)
  | 0, _, _ => .error .endless
  | n + 1, x, s =>
    match s.parent x with
    | none => .ok (s.setDepth x)
    | some p =>
      if s.newDepth x ≠ s.depth x then do
        let s ← recomputeDepth n p (s.setDepth x)
        .ok (s.callHook P x)
      else .ok ((s.setDepth x).callHook P x)

/-- The new pointers of `_adopt`. -/
def link (x : ι) (node : Option ι) (i : Bool) : AvlNodes ι β :=
  { s with
    child := Function.update s.child x (Function.update (s.child x) i node)
    parent := node.elim s.parent fun a => Function.update s.parent a (some x) }

section Fuel

variable [Fintype ι]

/-- Longer than any walk from one node to the next. -/
def fuel (ι : Type) [Fintype ι] : Nat := Fintype.card ι + 1

/-- `_adopt`. -/
def adopt (x : ι) (node : Option ι) (i : Bool) : Exec (AvlNodes ι β) :=
  recomputeDepth P (fuel ι) x (s.link x node i)

/-- `_rotate_subtree` of the node `x`. -/
def rotateSubtree (x node : ι) (side : Bool) : Exec (AvlNodes ι β) :=
  let i := if s.child x false = some node then false else true
  match s.child node (!side) with
  | none => .ok s
  | some nodeR =>
    -- simple rotation
    if s.bias nodeR = !side then do
      let nodeRL := s.child nodeR side
      let s ← s.adopt P node nodeRL (!side)
      let s ← s.adopt P nodeR (some node) side
      s.adopt P x (some nodeR) i
    else
      match s.child nodeR side with
      | none => .ok s
      -- double rotation
      | some nodeRL => do
        let nodeRLL := s.child nodeRL side
        let nodeRLR := s.child nodeRL (!side)
        let s ← s.adopt P node nodeRLL (!side)
        let s ← s.adopt P nodeR nodeRLR side
        let s ← s.adopt P nodeRL (some node) side
        let s ← s.adopt P nodeRL (some nodeR) (!side)
        s.adopt P x (some nodeRL) i

/-- `_rebalance_subtree` of the node `x`. -/
def rebalanceSubtree (x node : ι) : Exec (AvlNodes ι β) :=
  let l := s.childDepth node false
  let r := s.childDepth node true
  if r < l + 2 ∧ l < r + 2 then .ok s else s.rotateSubtree P x node (decide (r < l))

/-- `Avl_node_base::insert`, for at most `n` nodes on the way. -/
def insertAt : Nat → ι → ι → AvlNodes ι β → Exec (AvlNodes ι β)
  | 0, _, _, _ => .error .endless
  | n + 1, x, node, s =>
    if node = x then .ok s
    else do
      -- for non-root nodes, decide for a branch
      let i := (s.parent x).elim false fun _ => P.higher x node
      let s ← (s.child x i).elim (s.adopt P x (some node) i) fun c => insertAt n c node s
      let s ← recomputeDepth P (fuel ι) x s
      (s.parent x).elim (.ok s) fun p => s.rebalanceSubtree P p x

/-- `Avl_tree::insert`. -/
def insert (root node : ι) : Exec (AvlNodes ι β) := insertAt P (fuel ι) root node s

/-- The right-most node from `l` on, `n` nodes away at most. -/
def rightmost : Nat → ι → Exec ι
  | 0, _ => .error .endless
  | n + 1, l =>
    match s.child l true with
    | none => .ok l
    | some l => rightmost n l

/-- The parent `p` adopts `node` in place of `x`, at each side. -/
def replaceChild (p x : ι) (node : Option ι) : Exec (AvlNodes ι β) := do
  let s ← (if s.child p false = some x then s.adopt P p node false else .ok s)
  if s.child p true = some x then s.adopt P p node true else .ok s

/-- The loop that rebalances the subtrees from `lp` up to the root. -/
def rebalanceUp : Nat → Option ι → AvlNodes ι β → Exec (AvlNodes ι β)
  | _, none, s => .ok s
  | 0, some _, _ => .error .endless
  | n + 1, some lp, s =>
    match s.parent lp with
    | none => .ok s
    | some lpp => do
      let s ← s.rebalanceSubtree P lpp lp
      rebalanceUp n (some lpp) s

/-- The reset of the pointers of a removed node. -/
def reset (x : ι) : AvlNodes ι β :=
  { s with
    child := Function.update s.child x fun _ => none
    parent := Function.update s.parent x none }

/-- `Avl_node_base::remove`, up to the rebalancing: the node `lp` where
that begins, and the state. -/
def unhinge (x : ι) : Exec (Option ι × AvlNodes ι β) := do
  let p ← Exec.deref (s.parent x)
  match s.child x false with
  | none => do
    -- no left subtree, attach the right one to the parent
    let s ← s.replaceChild P p x (s.child x true)
    .ok (none, s)
  | some l₀ => do
    let l ← s.rightmost (fuel ι) l₀
    let lpar ← Exec.deref (s.parent l)
    -- isolate the right-most node in the left subtree
    let s ← (if l = l₀ then s.adopt P x (s.child l false) false
      else s.adopt P lpar (s.child l false) true)
    -- exchange `x` and `l`
    let s ← s.replaceChild P p x (some l)
    let s ← s.adopt P l (s.child x false) false
    let s ← s.adopt P l (s.child x true) true
    .ok (if lpar = x then none else some lpar, s)

/-- `Avl_node_base::remove`. -/
def remove (x : ι) : Exec (AvlNodes ι β) := do
  let (lp, s) ← s.unhinge P x
  let s ← rebalanceUp P (fuel ι) lp s
  .ok (s.reset x)

/-- `for_each` from a node on: the nodes that it visits, in order. -/
def forEachFrom : Nat → ι → Exec (List ι)
  | 0, _ => .error .endless
  | n + 1, x => do
    let l ← (s.child x false).elim (.ok []) (forEachFrom n)
    let r ← (s.child x true).elim (.ok []) (forEachFrom n)
    .ok (l ++ x :: r)

/-- `Avl_tree::for_each`. -/
def forEach (root : ι) : Exec (List ι) :=
  (s.child root false).elim (.ok []) (s.forEachFrom (fuel ι))

end Fuel

end AvlNodes

end Genode.Util
