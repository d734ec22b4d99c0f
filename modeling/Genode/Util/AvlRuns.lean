import Genode.Lib.Run
import Genode.Util.AvlOperations

/-!
# AvlRuns — a tree over time

Any sequence of insertions and removals. A node is inserted as its
constructor left it and removed only while it is in the tree. A removed
node keeps its depth, so it has to be constructed again before it comes
back. The history knows which nodes are in the tree (`members`); the
walk over the tree has to find these.
-/

namespace Genode.Util.AvlRuns

open BinaryTree Lib Lib.LinkedTree AvlNodes

variable {ι β κ : Type} [DecidableEq ι] [Fintype ι]

/-- The nodes, and those that were inserted and not yet removed. -/
structure State (ι β : Type) where
  nodes : AvlNodes ι β
  members : Finset ι

inductive Op (ι β : Type) where
  | construct (x : ι) (d : β)
  | insert (x : ι)
  | remove (x : ι)

instance (s : AvlNodes ι β) (x : ι) : Decidable (s.Fresh x) :=
  inferInstanceAs (Decidable ((∀ i, s.child x i = none) ∧ s.parent x = none ∧ s.depth x = 1))

/-- What the user of the tree takes care of. -/
def Allowed (root : ι) (s : State ι β) : Op ι β → Prop
  | .construct x _ => x ≠ root ∧ x ∉ s.members
  | .insert x => x ≠ root ∧ x ∉ s.members ∧ s.nodes.Fresh x
  | .remove x => x ∈ s.members

instance (root : ι) (s : State ι β) : (op : Op ι β) → Decidable (Allowed root s op)
  | .construct x _ => inferInstanceAs (Decidable (x ≠ root ∧ x ∉ s.members))
  | .insert x => inferInstanceAs (Decidable (x ≠ root ∧ x ∉ s.members ∧ s.nodes.Fresh x))
  | .remove x => inferInstanceAs (Decidable (x ∈ s.members))

variable (P : AvlPolicy ι β) (root : ι)

/-- The operation, and what it does to the set of members. -/
def exec (s : State ι β) : Op ι β → Exec (State ι β)
  | .construct x d => .ok { s with nodes := s.nodes.construct x d }
  | .insert x => do
    let nodes ← s.nodes.insert P root x
    .ok ⟨nodes, insert x s.members⟩
  | .remove x => do
    let nodes ← s.nodes.remove P x
    .ok ⟨nodes, s.members.erase x⟩

/-- An empty tree and other nodes. -/
def Init (s : State ι β) : Prop := ∃ data, s = ⟨AvlNodes.init data, ∅⟩

def Trans : State ι β → Op ι β → State ι β → Prop := Guarded (Allowed root) (exec P root)

/-! ## The walk over the tree -/

section Walk

variable {s : AvlNodes ι β} {t : BinaryTree ι} {x : ι} {n : Nat} {P root}

omit [DecidableEq ι] [Fintype ι] in
theorem forEachFrom_eq (h : Linked s.child s.parent t) (ht : top t = some x)
    (hn : t.numNodes ≤ n) : s.forEachFrom n x = .ok (inorder t) := by
  induction t generalizing x n with
  | nil => simp at ht
  | node y l r ihl ihr =>
    obtain rfl : y = x := by simpa using ht
    obtain ⟨hl, hr, hll, hlr⟩ := h
    obtain _ | n := n
    · simp at hn
    simp only [numNodes] at hn
    have hsub : ∀ {u : BinaryTree ι}, (∀ {z : ι}, top u = some z →
        s.forEachFrom n z = .ok (inorder u)) →
        (top u).elim (.ok []) (s.forEachFrom n) = .ok (inorder u) := by
      intro u hu
      cases hz : top u with
      | none =>
        rw [top_eq_none.mp hz]
        rfl
      | some z => exact hu hz
    rw [forEachFrom, hl.child_eq, hr.child_eq, hsub fun hz => ihl hll hz (by omega),
      Exec.ok_bind, hsub fun hz => ihr hlr hz (by omega), Exec.ok_bind, inorder]

omit [DecidableEq ι] in
theorem forEach_eq (h : IsTree root t s) : s.forEach root = .ok (inorder t) := by
  unfold forEach
  rw [h.attached.child_eq]
  cases hx : top t with
  | none =>
    rw [top_eq_none.mp hx]
    rfl
  | some x =>
    refine forEachFrom_eq h.linked hx ?_
    rw [← inorder_length]
    exact (List.nodup_cons.mp h.nodup).2.length_le_card.trans (Nat.le_succ _)

end Walk

/-! ## Runs -/

variable [LinearOrder κ] {key : ι → κ} {P root} {s s' : State ι β} {t : BinaryTree ι}
  {hist : List (State ι β × Op ι β)} {op : Op ι β}

/-- The members are linked to a tree, in the order of their keys. -/
structure Ordered (root : ι) (key : ι → κ) (t : BinaryTree ι) (s : State ι β) : Prop where
  isTree : IsTree root t s.nodes
  mem_iff : ∀ x, x ∈ inorder t ↔ x ∈ s.members
  sorted : (inorder t).Pairwise fun a b => key a ≤ key b

omit [DecidableEq ι] [Fintype ι] in
theorem ordered_init (data : ι → β) : Ordered root key nil ⟨AvlNodes.init data, ∅⟩ := by
  refine ⟨⟨rfl, rfl, attached_nil.mpr rfl, trivial, by simp, fun q _ => rfl⟩, by simp, by simp⟩

namespace Ordered

omit [DecidableEq ι] [Fintype ι] in
theorem notMem (h : Ordered root key t s) {x : ι} (hx : x ≠ root) (hm : x ∉ s.members) :
    x ∉ root :: inorder t := by
  rw [List.mem_cons, h.mem_iff]
  tauto

omit [Fintype ι] in
/-- A node outside of the tree may be constructed. -/
theorem construct (h : Ordered root key t s) {x : ι} (hx : x ≠ root) (hm : x ∉ s.members) (d : β) :
    Ordered root key t { s with nodes := s.nodes.construct x d } := by
  refine ⟨h.isTree.congr_of_ne (h.notMem hx hm) ?_ ?_ ?_, h.mem_iff, h.sorted⟩
  all_goals exact fun q hq => Function.update_of_ne hq _ _

theorem insert {x : ι} (hh : ∀ a ∈ s.members, P.higher a x = decide (key a ≤ key x))
    (h : Ordered root key t s) (hx : x ≠ root) (hm : x ∉ s.members) (hf : s.nodes.Fresh x) :
    ∃ nodes, s.nodes.insert P root x = .ok nodes ∧
      Ordered root key (AvlShape.ins P.higher x t) ⟨nodes, Insert.insert x s.members⟩ := by
  obtain ⟨nodes, hn, ht, -⟩ := h.isTree.insert (P := P) (h.notMem hx hm) hf
  obtain ⟨before, after, h₁, h₂, hb, ha⟩ := AvlShape.inorder_ins (x := x)
    (fun a ha => hh a ((h.mem_iff a).mp ha)) h.sorted
  refine ⟨nodes, hn, ht, fun y => ?_, ?_⟩
  · rw [Finset.mem_insert, ← h.mem_iff, h₁, h₂]
    simp only [List.mem_append, List.mem_cons]
    tauto
  · have hs := h.sorted
    rw [h₁, List.pairwise_append] at hs
    rw [h₂, List.pairwise_append, List.pairwise_cons]
    refine ⟨hs.1, ⟨fun y hy => (ha y hy).le, hs.2.1⟩, fun y hy z hz => ?_⟩
    rcases List.mem_cons.mp hz with rfl | hz
    · exact hb y hy
    · exact hs.2.2 y hy z hz

theorem remove (h : Ordered root key t s) {x : ι} (hx : x ∈ s.members) :
    ∃ nodes t', s.nodes.remove P x = .ok nodes ∧ AvlShape.Removal x t t' ∧
      Ordered root key t' ⟨nodes, s.members.erase x⟩ := by
  obtain ⟨nodes, t', hn, hrem, ht, -⟩ := h.isTree.remove (P := P) ((h.mem_iff x).mpr hx)
  obtain ⟨before, after, h₁, h₂⟩ := hrem.inorder_eq
  have hnd := (List.nodup_cons.mp h.isTree.nodup).2
  have hs := h.sorted
  have hm := h.mem_iff
  rw [h₁] at hnd hs hm
  refine ⟨nodes, t', hn, hrem, ht, fun y => ?_, ?_⟩
  · rw [Finset.mem_erase, ← hm, h₂]
    simp only [List.nodup_append, List.nodup_cons, List.mem_cons, List.mem_append] at hnd ⊢
    constructor
    · intro hy
      refine ⟨?_, by tauto⟩
      rintro rfl
      rcases hy with hy | hy
      · exact hnd.2.2 y hy y (.inl rfl) rfl
      · exact hnd.2.1.1 hy
    · tauto
  · rw [h₂]
    exact hs.sublist ((List.sublist_cons_self x after).append_left before)

/-- An operation that is allowed returns, and keeps the order. -/
theorem exec (hh : ∀ a b, a ≠ b → P.higher a b = decide (key a ≤ key b)) (h : Ordered root key t s)
    (hop : Allowed root s op) : ∃ s' t', AvlRuns.exec P root s op = .ok s' ∧
      Ordered root key t' s' := by
  cases op with
  | construct x d => exact ⟨_, t, rfl, h.construct hop.1 hop.2 d⟩
  | insert x =>
    obtain ⟨nodes, hn, ht⟩ := h.insert (fun a ha => hh a x (ne_of_mem_of_not_mem ha hop.2.1)) hop.1
      hop.2.1 hop.2.2
    exact ⟨_, _, by rw [AvlRuns.exec, hn]; rfl, ht⟩
  | remove x =>
    obtain ⟨nodes, t', hn, -, ht⟩ := h.remove (P := P) hop
    exact ⟨_, t', by rw [AvlRuns.exec, hn]; rfl, ht⟩

end Ordered

theorem ordered_of_run (hh : ∀ a b, a ≠ b → P.higher a b = decide (key a ≤ key b))
    (h : Run Init (Trans P root) hist s) : ∃ t, Ordered root key t s := by
  refine Run.invariant (I := fun s => ∃ t, Ordered root key t s) ?_ ?_ h
  · rintro _ ⟨data, rfl⟩
    exact ⟨nil, ordered_init data⟩
  · rintro s op s' ⟨t, ht⟩ ⟨hop, hs'⟩
    obtain ⟨s'', t', hs'', ht'⟩ := ht.exec hh hop
    obtain rfl : s'' = s' := by simpa [hs''] using hs'
    exact ⟨t', ht'⟩

/-- Execute operations on an empty tree. -/
theorem exists_run (P : AvlPolicy ι β) (root : ι) (data : ι → β) (ops : List (Op ι β))
    {p : List (State ι β × Op ι β) × State ι β → Prop} [DecidablePred p]
    (h : (replay (perform (Allowed root) (exec P root)) ops
      ([], ⟨AvlNodes.init data, ∅⟩)).any (fun r => decide (p r)) = true) :
    ∃ hist s, Run Init (Trans P root) hist s ∧ p (hist, s) := by
  have hinit : Init ⟨AvlNodes.init data, ∅⟩ := ⟨data, rfl⟩
  exact exists_guarded_run hinit h

/-- Numbers as nodes, with nothing to remember. -/
def numbers (n : Nat) : AvlPolicy (Fin n) Unit := ⟨fun a b => decide (a ≤ b), fun _ _ _ => ()⟩

end Genode.Util.AvlRuns
