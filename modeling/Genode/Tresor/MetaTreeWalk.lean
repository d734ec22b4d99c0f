import Mathlib.Order.Interval.Finset.Nat
import Genode.Tresor.MetaTreeBooks

/-!
# MetaTreeWalk — the books on a meta tree during a request

What the levels of the channel hold in memory, and what is to be found on
disc: the children of a node in memory are on disc, except the one at its
index while that is in memory itself. The root is regarded as the only
child of a node above it.
-/

namespace Genode.Tresor.MetaTree

open Genode.Lib

/-! ## Levels -/

/-- Whether the node block of a level is held in memory. -/
def NodeState.held : NodeState → Bool
  | .readComplete | .write | .complete => true
  | .invalid | .read | .writeComplete => false

/-- What counts of a level of the channel. -/
structure View where
  state : NodeState
  node : Type1Node
  index : Nat
  dirty : Bool
  volatil : Bool
  child : Fin nrOfNodesPerBlk → Option Type1Node
  leaves : Multiset Type2Node

section Views

variable (edges : UInt64)

def Type1Info.view (info : Type1Info) : View where
  state := info.state
  node := info.node
  index := info.index
  dirty := info.dirty
  volatil := info.volatil
  child := childOf edges info.entries
  leaves := 0

/-- The node of level 1 is going to be written, or was, when it is dirty. -/
def Type2Info.view (info : Type2Info) : View where
  state := info.state
  node := info.node
  index := info.index
  dirty := info.state = .write ∨ info.state = .writeComplete
  volatil := info.volatil
  child := fun _ => none
  leaves := entriesOf edges info.entries

/-- The node above the root. -/
def rootView (root : Type1Node) : View where
  state := .readComplete
  node := {}
  index := 0
  dirty := true
  volatil := true
  child i := if i.val = 0 then some root else none
  leaves := 0

/-- The levels up to the one above the root. -/
def Channel.view (c : Channel) (l : Nat) : View :=
  if l = c.request.mtMaxLvl + 1 then rootView c.mtRoot
  else if l = t2NodeLvl then c.level1Node.view c.request.mtEdges
  else (c.levelNNodes l).view c.request.mtEdges

/-- The slots of a level whose children are on disc. -/
def slots (V : Nat → View) (l : Nat) : Finset (Fin nrOfNodesPerBlk) :=
  if (V (l - 1)).state.held then Finset.univ.filter fun i => i.val ≠ (V l).index
  else Finset.univ

/-- What is known through the node block of a level. -/
def part (disk : Disk) (V : Nat → View) (l : Nat) : Multiset Type1Node × Multiset Type2Node :=
  if (V l).state.held then
    (0, (V l).leaves) + (layout edges).below disk (l - 2) (V l).child (slots V l)
  else 0

/-- The nodes that are held in memory. -/
def heldNode (V : Nat → View) (l : Nat) : Multiset Type1Node :=
  if (V l).state.held then {(V l).node} else 0

def heldNodes (top : Nat) (V : Nat → View) : Multiset Type1Node :=
  ∑ l ∈ Finset.Icc 1 top, heldNode V l

/-- What is to be found on disc. -/
def stored (disk : Disk) (top : Nat) (V : Nat → View) : Multiset Type1Node × Multiset Type2Node :=
  ∑ l ∈ Finset.Icc 1 (top + 1), part edges disk V l

end Views

/-- The books on the tree of a channel. -/
def Config.books (s : Config) : Books :=
  let S := stored s.chan.request.mtEdges s.disk s.chan.request.mtMaxLvl s.chan.view
  { nodes := heldNodes s.chan.request.mtMaxLvl s.chan.view
    refs := S.1
    leaves := S.2
    disk := s.disk
    newPba := if s.chan.finished then some s.chan.newPba else none }

/-! ## Changing a level -/

section Changes

variable {edges : UInt64} {disk : Disk} {top m k l : Nat} {V W : Nat → View} {v : View}

theorem slots_congr (hh : (V (l - 1)).state.held = (W (l - 1)).state.held)
    (hi : (V (l - 1)).state.held = true → (V l).index = (W l).index) : slots V l = slots W l := by
  unfold slots
  rw [← hh]
  split
  · rename_i h
    rw [hi h]
  · rfl

/-- A change of a level that concerns neither what is held nor the children
that are on disc. -/
structure Quiet (V : Nat → View) (k : Nat) (v : View) : Prop where
  held : v.state.held = (V k).state.held
  leaves : v.leaves = (V k).leaves
  index : (V (k - 1)).state.held = true → v.index = (V k).index
  child : ∀ i, ((V (k - 1)).state.held = true → i.val ≠ (V k).index) → v.child i = (V k).child i

theorem held_update (hheld : v.state.held = (V k).state.held) (l : Nat) :
    (Function.update V k v l).state.held = (V l).state.held := by
  by_cases hl : l = k
  · rw [hl, Function.update_self, hheld]
  · rw [Function.update_of_ne hl]

theorem Quiet.slots (h : Quiet V k v) : slots (Function.update V k v) l = MetaTree.slots V l := by
  apply slots_congr
  · exact held_update h.held _
  · intro hheld
    by_cases hl : l = k
    · subst hl
      rw [Function.update_self]
      rw [held_update h.held] at hheld
      exact h.index hheld
    · rw [Function.update_of_ne hl]

theorem Quiet.part (h : Quiet V k v) :
    part edges disk (Function.update V k v) l = MetaTree.part edges disk V l := by
  unfold MetaTree.part
  rw [held_update h.held, h.slots]
  by_cases hl : l = k
  · subst hl
    rw [Function.update_self, h.leaves]
    congr 2
    apply Finset.sum_congr rfl
    intro i hi
    rw [h.child]
    intro hheld
    unfold MetaTree.slots at hi
    rw [if_pos hheld] at hi
    exact (Finset.mem_filter.mp hi).2
  · rw [Function.update_of_ne hl]

theorem Quiet.stored (h : Quiet V k v) :
    stored edges disk top (Function.update V k v) = MetaTree.stored edges disk top V :=
  Finset.sum_congr rfl fun _ _ => h.part

theorem heldNodes_update (hheld : v.state.held = (V k).state.held) (hn : v.node = (V k).node) :
    heldNodes top (Function.update V k v) = heldNodes top V := by
  apply Finset.sum_congr rfl
  intro l _
  unfold heldNode
  rw [held_update hheld]
  by_cases hl : l = k
  · rw [hl, Function.update_self, hn]
  · rw [Function.update_of_ne hl]

variable (edges disk top) in
/-- A level that is not held may become any other that is not. -/
theorem stored_of_not_held (hk : (V k).state.held = false) (hv : v.state.held = false) :
    stored edges disk top (Function.update V k v) = stored edges disk top V ∧
      heldNodes top (Function.update V k v) = heldNodes top V := by
  have hheld : v.state.held = (V k).state.held := hv.trans hk.symm
  refine ⟨Finset.sum_congr rfl fun l _ => ?_, Finset.sum_congr rfl fun l _ => ?_⟩
  · unfold part
    rw [held_update hheld]
    by_cases hl : l = k
    · rw [hl, hk]
      rfl
    · have hslots : slots (Function.update V k v) l = slots V l := by
        apply slots_congr (held_update hheld _)
        intro _
        rw [Function.update_of_ne hl]
      rw [hslots, Function.update_of_ne hl]
  · unfold heldNode
    rw [held_update hheld]
    by_cases hl : l = k
    · rw [hl, hk]
      rfl
    · rw [Function.update_of_ne hl]

/-! ## Taking a node into memory and putting it back -/

/-- A level shows what a node block holds. -/
structure Shows (edges : UInt64) (l : Nat) (blk : Block) (v : View) : Prop where
  leaves : v.leaves = if l = t2NodeLvl then (layout edges).leaves blk else 0
  child : v.child = if l = t2NodeLvl then fun _ => none else (layout edges).child blk

theorem below_none {h : Nat} {s : Finset (Fin nrOfNodesPerBlk)} :
    (layout edges).below disk h (fun _ => none) s = 0 :=
  Finset.sum_const_zero

theorem Shows.content (hm : 1 ≤ m) {n : Type1Node} (h : Shows edges m (disk n.pba) v) :
    (layout edges).content disk (m - 1) n =
      ({n}, 0) + ((0, v.leaves) + (layout edges).below disk (m - 2) v.child Finset.univ) := by
  rw [h.leaves, h.child]
  by_cases h1 : m = t2NodeLvl
  · subst h1
    rw [if_pos rfl, if_pos rfl, below_none]
    change ({n}, (layout edges).leaves (disk n.pba)) = _
    simp
  · obtain ⟨j, rfl⟩ : ∃ j, m = j + 2 := ⟨m - 2, by change m ≠ 1 at h1; omega⟩
    rw [if_neg h1, if_neg h1]
    change (layout edges).content disk (j + 1) n = _
    rw [TreeLayout.content_succ, Prod.mk_zero_zero, zero_add]
    rfl

theorem below_split {h : Nat} {child : Fin nrOfNodesPerBlk → Option Type1Node}
    {i : Fin nrOfNodesPerBlk} {n : Type1Node} (hi : child i = some n) :
    (layout edges).below disk h child Finset.univ =
      (layout edges).below disk h child (Finset.univ.filter fun j => j.val ≠ i.val) +
        (layout edges).content disk h n := by
  have hfilter : (Finset.univ.filter fun j : Fin nrOfNodesPerBlk => j.val ≠ i.val) =
      Finset.univ.erase i := by
    ext j
    simp [Fin.ext_iff]
  unfold TreeLayout.below
  rw [hfilter, ← Finset.sum_erase_add _ _ (Finset.mem_univ i), hi]
  rfl

variable (edges disk) in
/-- A node in memory whose block is what the disc holds may be put back: its
parent then refers to it as a node on disc. -/
theorem stored_unload {i : Fin nrOfNodesPerBlk} {n : Type1Node} (hm : 1 ≤ m) (hle : m ≤ top)
    (hheld : (V m).state.held = true) (hv : v.state.held = false)
    (hlow : (V (m - 1)).state.held = false) (hup : (V (m + 1)).state.held = true)
    (hi : i.val = (V (m + 1)).index) (hchild : (V (m + 1)).child i = some n)
    (hshow : Shows edges m (disk n.pba) (V m)) :
    stored edges disk top (Function.update V m v) = stored edges disk top V + ({n}, 0) := by
  have hself : Function.update V m v m = v := Function.update_self ..
  have hnext : Function.update V m v (m + 1) = V (m + 1) := Function.update_of_ne (by omega) ..
  have hswap := sum_add_swap₂ (f := part edges disk V)
    (g := part edges disk (Function.update V m v)) (s := Finset.Icc 1 (top + 1)) (i := m)
    (k := m + 1) (Finset.mem_Icc.mpr ⟨hm, by omega⟩) (Finset.mem_Icc.mpr ⟨by omega, by omega⟩)
    (by omega) fun l hl hlm hlm' => by
      have hlk : l - 1 ≠ m := by
        have := Finset.mem_Icc.mp hl
        omega
      unfold part
      rw [slots_congr (V := Function.update V m v) (W := V) (l := l)]
      · rw [Function.update_of_ne hlm]
      · rw [Function.update_of_ne hlk]
      · intro _
        rw [Function.update_of_ne hlm]
  have h₁ : part edges disk (Function.update V m v) m = 0 := by
    unfold part
    rw [hself, hv]
    rfl
  have h₂ : part edges disk (Function.update V m v) (m + 1) = (0, (V (m + 1)).leaves) +
      (layout edges).below disk (m - 1) (V (m + 1)).child Finset.univ := by
    unfold part slots
    rw [hnext, if_pos hup, Nat.add_sub_cancel, hself, hv]
    rfl
  have h₃ : part edges disk V m = (0, (V m).leaves) +
      (layout edges).below disk (m - 2) (V m).child Finset.univ := by
    unfold part slots
    rw [if_pos hheld, hlow]
    rfl
  have h₄ : part edges disk V (m + 1) = (0, (V (m + 1)).leaves) +
      (layout edges).below disk (m - 1) (V (m + 1)).child
        (Finset.univ.filter fun j => j.val ≠ i.val) := by
    unfold part slots
    rw [if_pos hup, Nat.add_sub_cancel, if_pos hheld, hi]
    rfl
  rw [h₁, h₂, h₃, h₄, below_split hchild, hshow.content hm] at hswap
  apply add_right_cancel (b := (0, (V m).leaves) +
    (layout edges).below disk (m - 2) (V m).child Finset.univ + ((0, (V (m + 1)).leaves) +
      (layout edges).below disk (m - 1) (V (m + 1)).child
        (Finset.univ.filter fun j => j.val ≠ i.val)))
  change Finset.sum _ _ + _ = Finset.sum _ _ + _ + _
  rw [← hswap]
  abel

/-- A node in memory gets another address. -/
theorem heldNodes_move (hk : 1 ≤ k) (hle : k ≤ top) (hheld : (V k).state.held = true)
    (hv : v.state.held = true) :
    ∃ N, heldNodes top V = N + {(V k).node} ∧
      heldNodes top (Function.update V k v) = N + {v.node} := by
  have hsplit := sum_split (f := heldNode V) (g := heldNode (Function.update V k v))
    (s := Finset.Icc 1 top) (i := k) (Finset.mem_Icc.mpr ⟨hk, hle⟩) fun l _ hlk => by
      unfold heldNode
      rw [Function.update_of_ne hlk]
  have h₁ : heldNode V k = {(V k).node} := if_pos hheld
  have h₂ : heldNode (Function.update V k v) k = {v.node} := by
    unfold heldNode
    rw [Function.update_self, if_pos hv]
  rwa [h₁, h₂] at hsplit

/-- An entry of the node block of level 1 is replaced. -/
theorem stored_exchange {E : Multiset Type2Node} {e e' : Type2Node}
    (hheld : (V t2NodeLvl).state.held = true) (hv : v.state.held = true)
    (hchild : (V t2NodeLvl).child = fun _ => none) (hchild' : v.child = fun _ => none)
    (he : (V t2NodeLvl).leaves = E + {e}) (he' : v.leaves = E + {e'}) :
    ∃ S, stored edges disk top V = S + (0, {e}) ∧
      stored edges disk top (Function.update V t2NodeLvl v) = S + (0, {e'}) := by
  have hsame : v.state.held = (V t2NodeLvl).state.held := hv.trans hheld.symm
  obtain ⟨S, hS, hS'⟩ := sum_split (f := part edges disk V)
    (g := part edges disk (Function.update V t2NodeLvl v)) (s := Finset.Icc 1 (top + 1))
    (i := t2NodeLvl) (Finset.mem_Icc.mpr ⟨le_rfl, by change 1 ≤ _; omega⟩) fun l _ hl => by
      unfold part
      rw [slots_congr (V := Function.update V t2NodeLvl v) (W := V) (l := l) (held_update hsame _)]
      · rw [Function.update_of_ne hl]
      · intro _
        rw [Function.update_of_ne hl]
  have h₁ : part edges disk V t2NodeLvl = (0, E) + (0, {e}) := by
    unfold part
    rw [if_pos hheld, hchild, below_none, add_zero, he]
    rfl
  have h₂ : part edges disk (Function.update V t2NodeLvl v) t2NodeLvl = (0, E) + (0, {e'}) := by
    unfold part
    rw [Function.update_self, if_pos hv, hchild', below_none, add_zero, he']
    rfl
  rw [h₁, ← add_assoc] at hS
  rw [h₂, ← add_assoc] at hS'
  exact ⟨_, hS, hS'⟩

theorem fst_stored : (stored edges disk top V).1 =
    ∑ l ∈ Finset.Icc 1 (top + 1), (part edges disk V l).1 := Prod.fst_sum

/-- Writing a block of no node on disc. -/
theorem stored_disk {a : PhysicalBlockAddress} {blk : Block}
    (ha : ∀ r ∈ (stored edges disk top V).1, r.pba ≠ a) :
    stored edges (Function.update disk a blk) top V = stored edges disk top V := by
  apply Finset.sum_congr rfl
  intro l hl
  have hpart : ∀ r ∈ (part edges disk V l).1, r.pba ≠ a := by
    intro r hr
    apply ha
    rw [fst_stored, Multiset.mem_sum]
    exact ⟨l, hl, hr⟩
  unfold part at hpart ⊢
  split
  · rename_i hheld
    rw [if_pos hheld] at hpart
    rw [TreeLayout.below_update]
    intro hmem
    obtain ⟨r, hr, hra⟩ := Multiset.mem_map.mp hmem
    exact hpart r (Multiset.mem_add.mpr (.inr hr)) hra
  · rfl

theorem heldNodes_unload (hm : 1 ≤ m) (hle : m ≤ top) (hheld : (V m).state.held = true)
    (hv : v.state.held = false) :
    heldNodes top V = heldNodes top (Function.update V m v) + {(V m).node} := by
  have hswap := sum_add_swap (f := heldNode V) (g := heldNode (Function.update V m v))
    (s := Finset.Icc 1 top) (i := m) (Finset.mem_Icc.mpr ⟨hm, hle⟩) fun l _ hlm => by
      unfold heldNode
      rw [Function.update_of_ne hlm]
  have h₁ : heldNode (Function.update V m v) m = 0 := by
    unfold heldNode
    rw [Function.update_self, hv]
    rfl
  have h₂ : heldNode V m = {(V m).node} := by
    unfold heldNode
    rw [if_pos hheld]
  rwa [h₁, h₂, add_zero] at hswap

end Changes

end Genode.Tresor.MetaTree
