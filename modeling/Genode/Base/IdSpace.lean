import Mathlib.Data.BitVec
import Genode.Util.AvlRuns

/-!
# IdSpace — elements found by their id

`base/id_space.h`. The elements are the nodes of an AVL tree, ordered by
their ids. An id is either requested or taken from a counter, which wraps and
skips the ids that are in use. A constructor that throws leaves no element.
The mutex makes the operations one after the other.
-/

namespace Genode.Base

open BinaryTree Lib Lib.LinkedTree Util

/-- `Id_space`, with its elements and the objects they stand for. -/
structure IdSpace (ι τ : Type) where
  nodes : AvlNodes ι Unit
  id : ι → BitVec 64
  obj : ι → τ
  cnt : BitVec 64
  /-- The elements that were constructed and not yet destructed. -/
  members : Finset ι

namespace IdSpace

variable {ι τ : Type} [DecidableEq ι] [Fintype ι]

/-- `Element::higher`. -/
def policy (id : ι → BitVec 64) : AvlPolicy ι Unit where
  higher a other := (id a).ult (id other)
  recompute _ _ _ := ()

def init (obj : ι → τ) : IdSpace ι τ := ⟨AvlNodes.init fun _ => (), fun _ => 0, obj, 0, ∅⟩

variable (root : ι) (s : IdSpace ι τ)

/-- `_lookup` from an element on, `n` elements away at most. -/
def lookupFrom (id : BitVec 64) : Nat → ι → Exec (Option ι)
  | 0, _ => .error .endless
  | n + 1, x =>
    if id = s.id x then .ok (some x)
    else (s.nodes.child x ((s.id x).ult id)).elim (.ok none) (lookupFrom id n)

/-- `_lookup` from the first element on, if there is one. -/
def lookup (id : BitVec 64) : Exec (Option ι) :=
  (s.nodes.child root false).elim (.ok none) (s.lookupFrom id (AvlNodes.fuel ι))

/-- The loop of `_unused_id` for `n` attempts, with the counter at its end. There is no
id if it throws `Out_of_ids`. -/
def attemptIds : Nat → BitVec 64 → Exec (Option (BitVec 64) × BitVec 64)
  | 0, cnt => .ok (none, cnt)
  | n + 1, cnt => do
    let e ← s.lookup root cnt
    if e.isSome then attemptIds n (cnt + 1) else .ok (some cnt, cnt)

def unusedId : Exec (Option (BitVec 64) × BitVec 64) := s.attemptIds root (2 ^ 64 - 1) s.cnt

/-- Whether `_check_conflict` throws `Conflicting_id`. -/
def checkConflict (id : BitVec 64) : Exec Bool := do
  let e ← s.lookup root id
  .ok e.isSome

/-- The members of an element, before its constructor's body. -/
def initElement (x : ι) (obj : τ) (id : BitVec 64) : IdSpace ι τ :=
  { s with
    nodes := s.nodes.construct x ()
    id := Function.update s.id x id
    obj := Function.update s.obj x obj }

def insertElement (x : ι) : Exec (IdSpace ι τ) := do
  let nodes ← s.nodes.insert (policy s.id) root x
  .ok { s with nodes, members := insert x s.members }

/-- `Element(obj, id_space)`. -/
def construct (x : ι) (obj : τ) : Exec (IdSpace ι τ) := do
  let s := s.initElement x obj 0
  let r ← s.unusedId root
  let s := { s with cnt := r.2 }
  match r.1 with
  | none => .ok s
  | some id => insertElement root { s with id := Function.update s.id x id } x

/-- `Element(obj, id_space, id)`. -/
def constructId (x : ι) (obj : τ) (id : BitVec 64) : Exec (IdSpace ι τ) := do
  let s := s.initElement x obj id
  let conflict ← s.checkConflict root id
  if conflict then .ok s else s.insertElement root x

/-- `~Element`. -/
def destruct (x : ι) : Exec (IdSpace ι τ) := do
  let nodes ← s.nodes.remove (policy s.id) x
  .ok { s with nodes, members := s.members.erase x }

/-- The object that `apply` calls its functor with; none if it throws `Unknown_id`. -/
def apply (id : BitVec 64) : Exec (Option τ) := do
  let e ← s.lookup root id
  .ok (e.map s.obj)

/-! ## What is kept -/

/-- The order of the elements. -/
def key (s : IdSpace ι τ) (x : ι) : Nat := (s.id x).toNat

/-- The members are a search tree, and no two have the same id. -/
structure Holds (root : ι) (s : IdSpace ι τ) : Prop where
  tree : ∃ t, AvlRuns.Ordered root s.key t ⟨s.nodes, s.members⟩
  inj : ∀ x ∈ s.members, ∀ y ∈ s.members, s.id x = s.id y → x = y

variable {root s} {s' : IdSpace ι τ} {t : BinaryTree ι} {x y : ι} {id : BitVec 64} {n : Nat}

omit [DecidableEq ι] [Fintype ι] in
theorem holds_init (obj : ι → τ) : (init obj).Holds root :=
  ⟨⟨nil, AvlRuns.ordered_init _⟩, by simp [init]⟩

omit [Fintype ι] [DecidableEq ι] in
theorem find_none {xs : List ι} (h : ∀ a ∈ xs, s.key a ≠ id.toNat) :
    (xs.find? fun y => id == s.id y) = none := by
  rw [List.find?_eq_none]
  intro a ha heq
  apply h a ha
  rw [eq_of_beq heq]
  rfl

omit [Fintype ι] [DecidableEq ι] in
/-- The lookup in a tree that is strictly ordered. -/
theorem lookupFrom_eq (h : Linked s.nodes.child s.nodes.parent t) (ht : top t = some x)
    (hn : t.numNodes ≤ n) (hs : (inorder t).Pairwise fun a b => s.key a < s.key b) :
    s.lookupFrom id n x = .ok ((inorder t).find? fun y => id == s.id y) := by
  induction t generalizing x n with
  | nil => simp at ht
  | node y l r ihl ihr =>
    obtain rfl : y = x := by simpa using ht
    obtain ⟨hl, hr, hll, hlr⟩ := h
    obtain _ | n := n
    · simp at hn
    simp only [numNodes] at hn
    simp only [inorder, List.pairwise_append, List.pairwise_cons, List.mem_cons] at hs
    obtain ⟨hsl, ⟨hyr, hsr⟩, hlr'⟩ := hs
    rw [lookupFrom, inorder, List.find?_append, List.find?_cons]
    have hsub : ∀ {u : BinaryTree ι}, (∀ {z : ι}, top u = some z →
        s.lookupFrom id n z = .ok ((inorder u).find? fun y => id == s.id y)) →
        (top u).elim (.ok none) (s.lookupFrom id n) =
          .ok ((inorder u).find? fun y => id == s.id y) := by
      intro u hu
      cases hz : top u with
      | none =>
        rw [top_eq_none.mp hz]
        rfl
      | some z => exact hu hz
    by_cases heq : id = s.id y
    · have hleft : ((inorder l).find? fun y => id == s.id y) = none := by
        apply find_none
        intro a ha
        rw [heq]
        exact (hlr' a ha y (.inl rfl)).ne
      rw [if_pos heq, hleft, beq_iff_eq.mpr heq]
      rfl
    · rw [if_neg heq, beq_eq_false_iff_ne.mpr heq]
      have hne : s.key y ≠ id.toNat := fun h => heq (BitVec.eq_of_toNat_eq h.symm)
      cases hside : (s.id y).ult id with
      | true =>
        have hlt : s.key y < id.toNat := BitVec.ult_iff_toNat_lt.mp hside
        have hleft : ((inorder l).find? fun y => id == s.id y) = none := by
          apply find_none
          intro a ha
          exact ((hlr' a ha y (.inl rfl)).trans hlt).ne
        rw [hr.child_eq, hsub fun hz => ihr hlr hz (by omega) hsr, hleft]
        rfl
      | false =>
        have hge : ¬ s.key y < id.toNat := by
          intro hlt
          rw [BitVec.ult_iff_toNat_lt.mpr hlt] at hside
          cases hside
        have hright : ((inorder r).find? fun y => id == s.id y) = none := by
          apply find_none
          intro a ha
          have := hyr a ha
          omega
        rw [hl.child_eq, hsub fun hz => ihl hll hz (by omega) hsl]
        simp only [hright, Option.or_none]

omit [Fintype ι] [DecidableEq ι] in
theorem Holds.strict (h : s.Holds root) (ht : AvlRuns.Ordered root s.key t ⟨s.nodes, s.members⟩) :
    (inorder t).Pairwise fun a b => s.key a < s.key b := by
  have hnodup := (List.nodup_cons.mp ht.isTree.nodup).2
  refine (List.pairwise_and_iff.mpr ⟨ht.sorted, hnodup⟩).imp_of_mem ?_
  intro a b ha hb hab
  apply lt_of_le_of_ne hab.1
  intro heq
  exact hab.2 (h.inj a ((ht.mem_iff a).mp ha) b ((ht.mem_iff b).mp hb) (BitVec.eq_of_toNat_eq heq))

omit [DecidableEq ι] in
/-- The lookup finds the member with the id, if there is one. -/
theorem Holds.lookup (h : s.Holds root) (id : BitVec 64) :
    ∃ e, s.lookup root id = .ok e ∧ ∀ x, e = some x ↔ x ∈ s.members ∧ s.id x = id := by
  obtain ⟨t, ht⟩ := h.tree
  have hstrict := h.strict ht
  refine ⟨(inorder t).find? fun y => id == s.id y, ?_, ?_⟩
  · unfold IdSpace.lookup
    rw [ht.isTree.attached.child_eq]
    cases hx : top t with
    | none =>
      rw [top_eq_none.mp hx]
      rfl
    | some x =>
      refine lookupFrom_eq ht.isTree.linked hx ?_ hstrict
      rw [← inorder_length]
      exact (List.nodup_cons.mp ht.isTree.nodup).2.length_le_card.trans (Nat.le_succ _)
  · intro x
    constructor
    · intro hx
      refine ⟨(ht.mem_iff x).mp (List.mem_of_find?_eq_some hx), ?_⟩
      have := List.find?_some hx
      exact (eq_of_beq this).symm
    · intro hx
      obtain ⟨hx, rfl⟩ := hx
      cases hfind : (inorder t).find? fun y => s.id x == s.id y with
      | none =>
        have := List.find?_eq_none.mp hfind x ((ht.mem_iff x).mpr hx)
        exact absurd (beq_self_eq_true _) this
      | some y =>
        have hy := (ht.mem_iff y).mp (List.mem_of_find?_eq_some hfind)
        have hmatch := List.find?_some hfind
        rw [h.inj x hx y hy (eq_of_beq hmatch)]

omit [DecidableEq ι] in
/-- An id that is found by attempts is not in use. -/
theorem Holds.attemptIds (h : s.Holds root) (n : Nat) (cnt : BitVec 64) :
    ∃ r, s.attemptIds root n cnt = .ok r ∧ ∀ id, r.1 = some id → ∀ x ∈ s.members, s.id x ≠ id := by
  induction n generalizing cnt with
  | zero => exact ⟨(none, cnt), rfl, fun id hid => absurd hid (by simp)⟩
  | succ n ih =>
    obtain ⟨e, he, hmem⟩ := h.lookup cnt
    cases e with
    | none =>
      refine ⟨(some cnt, cnt), by rw [IdSpace.attemptIds, he]; rfl, ?_⟩
      intro id hid x hx heq
      obtain rfl : cnt = id := Option.some.inj hid
      exact absurd ((hmem x).mpr ⟨hx, heq⟩) (by simp)
    | some e =>
      obtain ⟨r, hr, hunused⟩ := ih (cnt + 1)
      exact ⟨r, by rw [IdSpace.attemptIds, he]; exact hr, hunused⟩

omit [DecidableEq ι] in
theorem Holds.checkConflict (h : s.Holds root) (id : BitVec 64) :
    ∃ c, s.checkConflict root id = .ok c ∧ (c = false → ∀ x ∈ s.members, s.id x ≠ id) := by
  obtain ⟨e, he, hmem⟩ := h.lookup id
  refine ⟨e.isSome, by rw [IdSpace.checkConflict, he]; rfl, ?_⟩
  intro hnone x hx heq
  rw [(hmem x).mpr ⟨hx, heq⟩] at hnone
  cases hnone

/-! ## Operations -/

omit [Fintype ι] in
/-- Whatever happens to the id of an element that is no member. -/
theorem Holds.update (h : s.Holds root) (hx : x ∉ s.members) (id : BitVec 64) :
    ({ s with id := Function.update s.id x id } : IdSpace ι τ).Holds root := by
  have hid : ∀ y ∈ s.members, Function.update s.id x id y = s.id y := by
    intro y hy
    exact Function.update_of_ne (ne_of_mem_of_not_mem hy hx) _ _
  obtain ⟨t, ht⟩ := h.tree
  refine ⟨⟨t, ht.isTree, ht.mem_iff, ?_⟩, ?_⟩
  · apply ht.sorted.imp_of_mem
    intro a b ha hb hab
    show (Function.update s.id x id a).toNat ≤ (Function.update s.id x id b).toNat
    rw [hid a ((ht.mem_iff a).mp ha), hid b ((ht.mem_iff b).mp hb)]
    exact hab
  · intro a ha b hb hab
    apply h.inj a ha b hb
    rw [← hid a ha, ← hid b hb]
    exact hab

omit [Fintype ι] in
theorem Holds.initElement (h : s.Holds root) (hroot : x ≠ root) (hx : x ∉ s.members) (obj : τ)
    (id : BitVec 64) : (s.initElement x obj id).Holds root := by
  obtain ⟨t, ht⟩ := h.tree
  have hconstruct : ({ s with nodes := s.nodes.construct x () } : IdSpace ι τ).Holds root :=
    ⟨⟨t, ht.construct hroot hx ()⟩, h.inj⟩
  have hupdate := hconstruct.update hx id
  exact ⟨hupdate.tree, hupdate.inj⟩

/-- An element with an unused id can be inserted. -/
theorem Holds.insertElement (h : s.Holds root) (hroot : x ≠ root) (hx : x ∉ s.members)
    (hfresh : s.nodes.Fresh x) (hid : ∀ y ∈ s.members, s.id y ≠ s.id x) :
    ∃ s', s.insertElement root x = .ok s' ∧ s'.Holds root ∧ s'.members = insert x s.members ∧
      s'.id = s.id ∧ s'.obj = s.obj := by
  obtain ⟨t, ht⟩ := h.tree
  have hh : ∀ a ∈ s.members, (policy s.id).higher a x = decide (s.key a ≤ s.key x) := by
    intro a ha
    have hne : s.key a ≠ s.key x := fun heq => hid a ha (BitVec.eq_of_toNat_eq heq)
    show (s.id a).ult (s.id x) = _
    rw [Bool.eq_iff_iff, BitVec.ult_iff_toNat_lt, decide_eq_true_iff]
    exact ⟨le_of_lt, fun hle => lt_of_le_of_ne hle hne⟩
  obtain ⟨nodes, hn, ht'⟩ := ht.insert (P := policy s.id) hh hroot hx hfresh
  refine ⟨{ s with nodes, members := insert x s.members }, ?_, ⟨⟨_, ht'⟩, ?_⟩, rfl, rfl, rfl⟩
  · unfold IdSpace.insertElement
    rw [hn, Exec.ok_bind]
  · intro a ha b hb hab
    rcases Finset.mem_insert.mp ha with ha' | ha'
    · rcases Finset.mem_insert.mp hb with hb' | hb'
      · rw [ha', hb']
      · exact absurd (ha' ▸ hab).symm (hid b hb')
    · rcases Finset.mem_insert.mp hb with hb' | hb'
      · exact absurd (hb' ▸ hab) (hid a ha')
      · exact h.inj a ha' b hb' hab

theorem Holds.destruct (h : s.Holds root) (hx : x ∈ s.members) :
    ∃ s', s.destruct x = .ok s' ∧ s'.Holds root ∧ s'.members = s.members.erase x ∧
      s'.id = s.id ∧ s'.obj = s.obj := by
  obtain ⟨t, ht⟩ := h.tree
  obtain ⟨nodes, t', hn, -, ht'⟩ := ht.remove (P := policy s.id) hx
  refine ⟨{ s with nodes, members := s.members.erase x }, ?_, ⟨⟨t', ht'⟩, ?_⟩, rfl, rfl, rfl⟩
  · unfold IdSpace.destruct
    rw [hn, Exec.ok_bind]
  · intro a ha b hb hab
    exact h.inj a (Finset.mem_of_mem_erase ha) b (Finset.mem_of_mem_erase hb) hab

omit [Fintype ι] in
theorem fresh_initElement (x : ι) (obj : τ) (id : BitVec 64) :
    (s.initElement x obj id).nodes.Fresh x := by
  simp [AvlNodes.Fresh, IdSpace.initElement, AvlNodes.construct]

/-- The constructor that requests an id: the element is new and has the id, or the id is
in use and nothing happens to the members. -/
theorem Holds.constructId (h : s.Holds root) (hroot : x ≠ root) (hx : x ∉ s.members) (obj : τ)
    (id : BitVec 64) : ∃ s', s.constructId root x obj id = .ok s' ∧ s'.Holds root ∧
      (∀ y ∈ s.members, s'.id y = s.id y ∧ s'.obj y = s.obj y) ∧
      (s'.members = s.members ∨
        s'.members = insert x s.members ∧ s'.id x = id ∧ s'.obj x = obj) := by
  have hinit := h.initElement hroot hx obj id
  have hkeep : ∀ y ∈ s.members, (s.initElement x obj id).id y = s.id y ∧
      (s.initElement x obj id).obj y = s.obj y := by
    intro y hy
    have hne := ne_of_mem_of_not_mem hy hx
    exact ⟨Function.update_of_ne hne _ _, Function.update_of_ne hne _ _⟩
  have hself : (s.initElement x obj id).id x = id := Function.update_self _ _ _
  obtain ⟨c, hc, hnone⟩ := hinit.checkConflict id
  unfold IdSpace.constructId
  dsimp only
  rw [hc, Exec.ok_bind]
  cases c with
  | true => exact ⟨_, if_pos rfl, hinit, hkeep, .inl rfl⟩
  | false =>
    obtain ⟨s', hs', hholds, hmembers, hid, hobj⟩ := hinit.insertElement hroot hx
      (fresh_initElement x obj id) (hself.symm ▸ hnone rfl)
    refine ⟨s', by rw [if_neg (by simp), hs'], hholds, ?_, .inr ⟨hmembers, ?_, ?_⟩⟩
    · rw [hid, hobj]
      exact hkeep
    · rw [hid, hself]
    · rw [hobj]
      exact Function.update_self _ _ _

/-- The constructor that chooses an id: the element is new and has an id that none of the
members had, or there are no more ids. -/
theorem Holds.construct (h : s.Holds root) (hroot : x ≠ root) (hx : x ∉ s.members) (obj : τ) :
    ∃ s', s.construct root x obj = .ok s' ∧ s'.Holds root ∧
      (∀ y ∈ s.members, s'.id y = s.id y ∧ s'.obj y = s.obj y) ∧
      (s'.members = s.members ∨ s'.members = insert x s.members ∧ s'.obj x = obj ∧
        ∀ y ∈ s.members, s.id y ≠ s'.id x) := by
  have hinit := h.initElement hroot hx obj 0
  have hkeep : ∀ y ∈ s.members, (s.initElement x obj 0).id y = s.id y ∧
      (s.initElement x obj 0).obj y = s.obj y := by
    intro y hy
    have hne := ne_of_mem_of_not_mem hy hx
    exact ⟨Function.update_of_ne hne _ _, Function.update_of_ne hne _ _⟩
  obtain ⟨⟨id, cnt⟩, hr, hunused⟩ := hinit.attemptIds (2 ^ 64 - 1) (s.initElement x obj 0).cnt
  have hcount : ({ s.initElement x obj 0 with cnt } : IdSpace ι τ).Holds root :=
    ⟨hinit.tree, hinit.inj⟩
  unfold IdSpace.construct IdSpace.unusedId
  dsimp only
  rw [hr, Exec.ok_bind]
  cases id with
  | none => exact ⟨_, rfl, hcount, hkeep, .inl rfl⟩
  | some id =>
    have hupdate := hcount.update (x := x) hx id
    have hself : Function.update (s.initElement x obj 0).id x id x = id := Function.update_self _ _ _
    have hother : ∀ y ∈ s.members, Function.update (s.initElement x obj 0).id x id y = s.id y := by
      intro y hy
      rw [Function.update_of_ne (ne_of_mem_of_not_mem hy hx), (hkeep y hy).1]
    have hnew : ∀ y ∈ s.members, s.id y ≠ id := by
      intro y hy
      rw [← (hkeep y hy).1]
      exact hunused id rfl y hy
    obtain ⟨s', hs', hholds, hmembers, hid, hobj⟩ := hupdate.insertElement hroot hx
      (fresh_initElement x obj 0) (by
        intro y hy
        show Function.update (s.initElement x obj 0).id x id y ≠
          Function.update (s.initElement x obj 0).id x id x
        rw [hself, hother y hy]
        exact hnew y hy)
    refine ⟨s', hs', hholds, ?_, .inr ⟨hmembers, ?_, ?_⟩⟩
    · intro y hy
      rw [hid, hobj]
      exact ⟨hother y hy, (hkeep y hy).2⟩
    · rw [hobj]
      exact Function.update_self _ _ _
    · intro y hy
      rw [hid]
      show s.id y ≠ Function.update (s.initElement x obj 0).id x id x
      rw [hself]
      exact hnew y hy

/-! ## Runs -/

/-- The constructors of an element and its destructor. -/
inductive Op (ι τ : Type) where
  | construct (x : ι) (obj : τ)
  | constructId (x : ι) (obj : τ) (id : BitVec 64)
  | destruct (x : ι)
  deriving DecidableEq, Repr

/-- Elements are constructed where there is none, and destructed where there is one. -/
def Allowed (root : ι) (s : IdSpace ι τ) : Op ι τ → Prop
  | .construct x _ => x ≠ root ∧ x ∉ s.members
  | .constructId x _ _ => x ≠ root ∧ x ∉ s.members
  | .destruct x => x ∈ s.members

instance (root : ι) (s : IdSpace ι τ) : (op : Op ι τ) → Decidable (Allowed root s op)
  | .construct x _ => inferInstanceAs (Decidable (x ≠ root ∧ x ∉ s.members))
  | .constructId x _ _ => inferInstanceAs (Decidable (x ≠ root ∧ x ∉ s.members))
  | .destruct x => inferInstanceAs (Decidable (x ∈ s.members))

def exec (root : ι) (s : IdSpace ι τ) : Op ι τ → Exec (IdSpace ι τ)
  | .construct x obj => s.construct root x obj
  | .constructId x obj id => s.constructId root x obj id
  | .destruct x => s.destruct x

def Init (s : IdSpace ι τ) : Prop := ∃ obj, s = init obj

def Trans (root : ι) : IdSpace ι τ → Op ι τ → IdSpace ι τ → Prop :=
  Guarded (Allowed root) (exec root)

variable {op : Op ι τ} {hist : List (IdSpace ι τ × Op ι τ)}

theorem Holds.exec (h : s.Holds root) (hop : Allowed root s op) :
    ∃ s', exec root s op = .ok s' ∧ s'.Holds root := by
  cases op with
  | construct x obj =>
    obtain ⟨s', hs', hholds, -⟩ := h.construct hop.1 hop.2 obj
    exact ⟨s', hs', hholds⟩
  | constructId x obj id =>
    obtain ⟨s', hs', hholds, -⟩ := h.constructId hop.1 hop.2 obj id
    exact ⟨s', hs', hholds⟩
  | destruct x =>
    obtain ⟨s', hs', hholds, -⟩ := h.destruct hop
    exact ⟨s', hs', hholds⟩

theorem holds_of_run (h : Run Init (Trans root) hist s) : s.Holds root := by
  apply Run.invariant (I := fun s => s.Holds root) ?_ ?_ h
  · intro s hs
    obtain ⟨obj, rfl⟩ := hs
    exact holds_init obj
  · intro s op s' hholds htrans
    obtain ⟨s'', hs'', hholds'⟩ := hholds.exec htrans.1
    have heq := htrans.2
    rw [hs''] at heq
    cases heq
    exact hholds'

/-- What the id space is for, in one state. -/
structure Unambiguous (root : ι) (s : IdSpace ι τ) : Prop where
  distinct : ∀ x ∈ s.members, ∀ y ∈ s.members, s.id x = s.id y → x = y
  /-- `apply` calls its functor for the element with the id, or throws `Unknown_id`. -/
  found : ∀ id, ∃ o, s.apply root id = .ok o ∧
    (∀ x ∈ s.members, s.id x = id → o = some (s.obj x)) ∧
    ((∀ x ∈ s.members, s.id x ≠ id) → o = none)
  /-- A requested id conflicts only with one in use. -/
  conflict : ∀ id, ∃ c, s.checkConflict root id = .ok c ∧
    (c = true ↔ ∃ x ∈ s.members, s.id x = id)
  unused : ∃ r, s.unusedId root = .ok r ∧ ∀ id, r.1 = some id → ∀ x ∈ s.members, s.id x ≠ id

omit [DecidableEq ι] in
theorem Holds.unambiguous (h : s.Holds root) : Unambiguous root s := by
  refine ⟨h.inj, ?_, ?_, h.attemptIds _ _⟩
  · intro id
    obtain ⟨e, he, hmem⟩ := h.lookup id
    refine ⟨e.map s.obj, by rw [IdSpace.apply, he]; rfl, ?_, ?_⟩
    · intro x hx hid
      rw [(hmem x).mpr ⟨hx, hid⟩]
      rfl
    · intro hnone
      cases e with
      | none => rfl
      | some x =>
        obtain ⟨hx, hid⟩ := (hmem x).mp rfl
        exact absurd hid (hnone x hx)
  · intro id
    obtain ⟨e, he, hmem⟩ := h.lookup id
    refine ⟨e.isSome, by rw [IdSpace.checkConflict, he]; rfl, ?_⟩
    rw [Option.isSome_iff_exists]
    exact exists_congr hmem

/-- Execute operations on an empty id space. -/
theorem exists_run (root : ι) (obj : ι → τ) (ops : List (Op ι τ))
    {p : List (IdSpace ι τ × Op ι τ) × IdSpace ι τ → Prop} [DecidablePred p]
    (h : (replay (perform (Allowed root) (IdSpace.exec root)) ops ([], init obj)).any
      (fun r => decide (p r)) = true) :
    ∃ hist s, Run Init (Trans root) hist s ∧ p (hist, s) := by
  have hinit : Init (init obj) := ⟨obj, rfl⟩
  exact exists_guarded_run hinit h

end IdSpace

end Genode.Base
