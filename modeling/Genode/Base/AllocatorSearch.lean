import Genode.Base.AllocatorTree

/-!
# AllocatorSearch — which block a search finds

`find_by_address` follows one branch of the tree. That it does not miss
a block rests on the blocks being apart and in the order of their
addresses. `find_best_fit` looks into both subtrees of a block and finds
a block that fits.
-/

namespace Genode.Base

open BinaryTree Lib Lib.LinkedTree Util

variable {ι μ : Type} [DecidableEq ι] {s : AllocatorAvl ι μ} {t : BinaryTree ι} {x y z : ι}
  {addr size last n align beg fin : Nat} {overlap : Bool} {a b : Block}

namespace Block

/-- What `find_by_address` looks for, given the last address. -/
def Hits (b : Block) (addr last : Nat) (overlap : Bool) : Prop :=
  (overlap = true ∧ b.addr ≤ last ∧ addr ≤ b.last) ∨ (b.addr ≤ addr ∧ last ≤ b.last)

/-- The last address that `find_by_address` looks for. -/
def lastOf (addr size : Nat) : Nat := sub64 (add64 addr (if size = 0 then 1 else size)) 1

theorem lastOf_eq (hs : 0 < size) (h : addr + size ≤ 2 ^ 64) : lastOf addr size = addr + size - 1 := by
  rw [lastOf, if_neg (by omega), Base.last_eq hs h]

theorem lastOf_ite : lastOf addr (if size = 0 then 1 else size) = lastOf addr size := by
  unfold lastOf
  split <;> simp [*]

theorem lastOf_zero (h : addr < 2 ^ 64) : lastOf addr 0 = addr := by
  rw [lastOf, if_pos rfl, Base.last_eq (by omega) (by omega), Nat.add_sub_cancel]

theorem hits_address (hb : b.Valid) (h : addr < 2 ^ 64) :
    b.Hits addr (lastOf addr 0) false ↔ b.Covers addr := by
  have := hb.lt_stop
  simp only [Hits, lastOf_zero h, hb.last_eq, Covers, Bool.false_eq_true, false_and, false_or]
  omega

theorem hits_range (hb : b.Valid) (hs : 0 < size) (h : addr + size ≤ 2 ^ 64) :
    b.Hits addr (lastOf addr size) false ↔ b.addr ≤ addr ∧ addr + size ≤ b.stop := by
  have := hb.lt_stop
  simp only [Hits, lastOf_eq hs h, hb.last_eq, Bool.false_eq_true, false_and, false_or]
  omega

theorem hits_overlap (hb : b.Valid) (hs : 0 < size) (h : addr + size ≤ 2 ^ 64) :
    b.Hits addr (lastOf addr size) true ↔ b.addr < addr + size ∧ addr < b.stop := by
  have := hb.lt_stop
  simp only [Hits, lastOf_eq hs h, hb.last_eq, true_and]
  omega

/-- What is hit lies to the right of a block that is not, unless this one starts behind it. -/
theorem addr_lt_of_hits (ha : a.Valid) (hb : b.Valid) (hab : ∀ p, a.Covers p → ¬ b.Covers p)
    (hl : addr ≤ last) (hna : ¬ a.Hits addr last overlap) (hhb : b.Hits addr last overlap)
    (h : a.addr ≤ addr) : a.addr < b.addr := by
  have h₁ := ha.lt_stop
  have h₂ := hb.lt_stop
  have h₃ := hab a.addr ha.covers_addr
  simp only [Hits, ha.last_eq, hb.last_eq, Covers] at *
  rcases hhb with ⟨ho, h₄, h₅⟩ | ⟨h₄, h₅⟩
  · simp only [ho, true_and, not_or, not_and] at hna
    have := hna.1
    omega
  · omega

theorem lt_addr_of_hits (ha : a.Valid) (hb : b.Valid) (hab : ∀ p, a.Covers p → ¬ b.Covers p)
    (hna : ¬ a.Hits addr last overlap) (hhb : b.Hits addr last overlap) (h : addr < a.addr) :
    b.addr < a.addr := by
  have h₁ := ha.lt_stop
  have h₂ := hb.lt_stop
  have h₃ := hab b.addr
  simp only [Hits, ha.last_eq, hb.last_eq, Covers] at *
  rcases hhb with ⟨ho, h₄, h₅⟩ | ⟨h₄, h₅⟩
  · simp only [ho, true_and, not_or, not_and] at hna
    have := hna.1
    omega
  · omega

end Block

/-! ## The search by address -/

namespace AllocatorAvl

open Block

omit [DecidableEq ι] in
theorem findByAddressFrom_of_hits (h : (s.block y).Hits addr (lastOf addr size) overlap) :
    s.findByAddressFrom addr size overlap (n + 1) y = .ok (some y) := by
  rw [findByAddressFrom]
  by_cases ho : overlap = true ∧ (s.block y).addr ≤ lastOf addr size ∧ addr ≤ (s.block y).last
  · exact if_pos ho
  · exact (if_neg ho).trans (if_pos (h.resolve_left ho))

omit [DecidableEq ι] in
theorem findByAddressFrom_of_not_hits (h : ¬ (s.block y).Hits addr (lastOf addr size) overlap) :
    s.findByAddressFrom addr size overlap (n + 1) y =
      (s.nodes.child y (decide ((s.block y).addr ≤ addr))).elim (.ok none)
        (s.findByAddressFrom addr (if size = 0 then 1 else size) overlap n) := by
  rw [Hits, not_or] at h
  rw [findByAddressFrom]
  exact (if_neg h.1).trans (if_neg h.2)

omit [DecidableEq ι] in
/-- The search returns, and what it finds is hit. -/
theorem findByAddressFrom_sound (hl : Linked s.nodes.child s.nodes.parent t) (hy : top t = some y)
    (hn : t.numNodes ≤ n) : ∃ r, s.findByAddressFrom addr size overlap n y = .ok r ∧
      ∀ x, r = some x → x ∈ inorder t ∧ (s.block x).Hits addr (lastOf addr size) overlap := by
  induction t generalizing y n size with
  | nil => simp at hy
  | node z l r ihl ihr =>
    obtain rfl : z = y := by simpa using hy
    obtain ⟨hal, har, hll, hlr⟩ := hl
    obtain _ | n := n
    · simp at hn
    simp only [numNodes] at hn
    have hnl : l.numNodes ≤ n := by omega
    have hnr : r.numNodes ≤ n := by omega
    by_cases hz : (s.block z).Hits addr (lastOf addr size) overlap
    · refine ⟨some z, findByAddressFrom_of_hits hz, fun x hx => ?_⟩
      obtain rfl : z = x := by simpa using hx
      exact ⟨by simp, hz⟩
    rw [findByAddressFrom_of_not_hits hz]
    cases hside : decide ((s.block z).addr ≤ addr) with
    | false =>
      rw [hal.child_eq]
      cases hc : top l with
      | none => exact ⟨none, rfl, by simp⟩
      | some c =>
        obtain ⟨r', hr, hx⟩ := ihl hll hc hnl
        rw [lastOf_ite] at hx
        exact ⟨r', hr, fun x hxr => ⟨by simp [(hx x hxr).1], (hx x hxr).2⟩⟩
    | true =>
      rw [har.child_eq]
      cases hc : top r with
      | none => exact ⟨none, rfl, by simp⟩
      | some c =>
        obtain ⟨r', hr, hx⟩ := ihr hlr hc hnr
        rw [lastOf_ite] at hx
        exact ⟨r', hr, fun x hxr => ⟨by simp [(hx x hxr).1], (hx x hxr).2⟩⟩

/-- Sorted blocks that are apart. -/
structure Sorted (s : AllocatorAvl ι μ) (xs : List ι) : Prop where
  valid : ∀ x ∈ xs, (s.block x).Valid
  apart : ∀ x ∈ xs, ∀ y ∈ xs, ∀ p, (s.block x).Covers p → (s.block y).Covers p → x = y
  sorted : xs.Pairwise fun x y => (s.block x).addr ≤ (s.block y).addr

omit [DecidableEq ι] in
theorem Sorted.sublist {xs ys : List ι} (h : s.Sorted ys) (hs : xs.Sublist ys) : s.Sorted xs :=
  ⟨fun x hx => h.valid x (hs.subset hx),
    fun x hx y hy => h.apart x (hs.subset hx) y (hs.subset hy), h.sorted.sublist hs⟩

omit [DecidableEq ι] in
/-- The search finds a block if there is one. -/
theorem findByAddressFrom_complete (hl : Linked s.nodes.child s.nodes.parent t) (hy : top t = some y)
    (hn : t.numNodes ≤ n) (hs : s.Sorted (inorder t)) (hle : addr ≤ lastOf addr size)
    (hx : x ∈ inorder t) (hhx : (s.block x).Hits addr (lastOf addr size) overlap) :
    ∃ z, s.findByAddressFrom addr size overlap n y = .ok (some z) := by
  induction t generalizing y n size with
  | nil => simp at hy
  | node z l r ihl ihr =>
    obtain rfl : z = y := by simpa using hy
    obtain ⟨hal, har, hll, hlr⟩ := hl
    obtain _ | n := n
    · simp at hn
    simp only [numNodes] at hn
    have hnl : l.numNodes ≤ n := by omega
    have hnr : r.numNodes ≤ n := by omega
    by_cases hz : (s.block z).Hits addr (lastOf addr size) overlap
    · exact ⟨z, findByAddressFrom_of_hits hz⟩
    rw [findByAddressFrom_of_not_hits hz]
    have hzx : z ≠ x := by
      rintro rfl
      exact hz hhx
    have hzm : z ∈ inorder (node z l r) := by simp
    have hvz := hs.valid z hzm
    have hvx := hs.valid x hx
    have hap : ∀ p, (s.block z).Covers p → ¬ (s.block x).Covers p :=
      fun p hp hp' => hzx (hs.apart z hzm x hx p hp hp')
    have hsort := hs.sorted
    rw [inorder, List.pairwise_append, List.pairwise_cons] at hsort
    obtain ⟨-, ⟨hright, -⟩, hleft⟩ := hsort
    simp only [inorder, List.mem_append, List.mem_cons] at hx
    by_cases hside : (s.block z).addr ≤ addr
    · -- the block that is hit is in the right subtree
      have hlt := addr_lt_of_hits hvz hvx hap hle hz hhx hside
      have hxr : x ∈ inorder r := by
        rcases hx with hx | hx | hx
        · have := hleft x hx z (by simp)
          omega
        · exact absurd hx.symm hzx
        · exact hx
      rw [decide_eq_true hside, har.child_eq]
      obtain ⟨c, hc⟩ : ∃ c, top r = some c := by
        cases r with
        | nil => simp at hxr
        | node c _ _ => exact ⟨c, rfl⟩
      rw [hc]
      refine ihr hlr hc hnr (hs.sublist ?_) (by rwa [lastOf_ite]) hxr (by rwa [lastOf_ite])
      exact (List.sublist_cons_self _ _).trans (List.sublist_append_right _ _)
    · have hlt := lt_addr_of_hits hvz hvx hap hz hhx (by omega)
      have hxl : x ∈ inorder l := by
        rcases hx with hx | hx | hx
        · exact hx
        · exact absurd hx.symm hzx
        · have := hright x hx
          omega
      rw [decide_eq_false hside, hal.child_eq]
      obtain ⟨c, hc⟩ : ∃ c, top l = some c := by
        cases l with
        | nil => simp at hxl
        | node c _ _ => exact ⟨c, rfl⟩
      rw [hc]
      refine ihl hll hc hnl (hs.sublist ?_) (by rwa [lastOf_ite]) hxl (by rwa [lastOf_ite])
      exact List.sublist_append_left _ _

/-! ## The best fit -/

omit [DecidableEq ι] in
/-- The search returns, and what it finds fits. -/
theorem findBestFit_sound (hl : Linked s.nodes.child s.nodes.parent t) (hy : top t = some y)
    (hn : t.numNodes ≤ n) : ∃ r, s.findBestFit size align beg fin n y = .ok r ∧
      ∀ x, r = some x → x ∈ inorder t ∧ (s.block x).fits size align beg fin = true := by
  induction t generalizing y n with
  | nil => simp at hy
  | node z l r ihl ihr =>
    obtain rfl : z = y := by simpa using hy
    obtain ⟨hal, har, hll, hlr⟩ := hl
    obtain _ | n := n
    · simp at hn
    simp only [numNodes] at hn
    have hnl : l.numNodes ≤ n := by omega
    have hnr : r.numNodes ≤ n := by omega
    have hsub : ∀ i, ∃ r', (s.nodes.child z i).elim (.ok none)
        (s.findBestFit size align beg fin n) = .ok r' ∧
        ∀ x, r' = some x → x ∈ inorder (node z l r) ∧ (s.block x).fits size align beg fin = true := by
      intro i
      cases i with
      | false =>
        rw [hal.child_eq]
        cases hc : top l with
        | none => exact ⟨none, rfl, by simp⟩
        | some c =>
          obtain ⟨r', hr, hx⟩ := ihl hll hc hnl
          exact ⟨r', hr, fun x hxr => ⟨by simp [(hx x hxr).1], (hx x hxr).2⟩⟩
      | true =>
        rw [har.child_eq]
        cases hc : top r with
        | none => exact ⟨none, rfl, by simp⟩
        | some c =>
          obtain ⟨r', hr, hx⟩ := ihr hlr hc hnr
          exact ⟨r', hr, fun x hxr => ⟨by simp [(hx x hxr).1], (hx x hxr).2⟩⟩
    have hsearch : ∀ i, ∃ r', (if s.childMaxAvail z i < size then .ok none
        else (s.nodes.child z i).elim (.ok none) (s.findBestFit size align beg fin n) :
          Exec (Option ι)) = .ok r' ∧
        ∀ x, r' = some x → x ∈ inorder (node z l r) ∧ (s.block x).fits size align beg fin = true := by
      intro i
      split
      · exact ⟨none, rfl, by simp⟩
      · exact hsub i
    obtain ⟨r₁, h₁, hx₁⟩ := hsearch (decide (s.childMaxAvail z true < s.childMaxAvail z false))
    obtain ⟨r₂, h₂, hx₂⟩ := hsearch (!decide (s.childMaxAvail z true < s.childMaxAvail z false))
    have hboth : ∃ r', r₁.elim (.ok r₂ : Exec (Option ι)) (fun res => .ok (some res)) = .ok r' ∧
        ∀ x, r' = some x → x ∈ inorder (node z l r) ∧ (s.block x).fits size align beg fin = true := by
      cases r₁ with
      | none => exact ⟨r₂, rfl, hx₂⟩
      | some x => exact ⟨some x, rfl, hx₁⟩
    obtain ⟨r₃, h₃, hx₃⟩ := hboth
    simp only [findBestFit, h₁, Exec.ok_bind, h₂, h₃]
    refine ⟨_, rfl, fun x hx => ?_⟩
    cases r₃ with
    | none =>
      have hfit : (if (s.block z).fits size align beg fin = true then some z else none) = some x := hx
      split at hfit
      · next hf =>
        obtain rfl : z = x := by simpa using hfit
        exact ⟨by simp, hf⟩
      · simp at hfit
    | some y =>
      have hfit : (if (s.block z).fits size align beg fin = true ∧ size < (s.block y).size then z
          else y) = x := by simpa using hx
      split at hfit
      · next hf =>
        subst hfit
        exact ⟨by simp, hf.1⟩
      · exact hfit ▸ hx₃ y rfl

end AllocatorAvl

/-! ## The same of the whole tree -/

namespace Holds

open Block

variable [Fintype ι] {D : Md ι μ} {root : ι} {X : Finset ι} {B : Multiset Block} {m : μ}

omit [DecidableEq ι] in
theorem numNodes_le {key : ι → Nat} {nodes : AvlNodes ι Nat}
    (ht : AvlRuns.Ordered root key t ⟨nodes, X⟩) : t.numNodes ≤ AvlNodes.fuel ι := by
  rw [← inorder_length]
  exact (List.nodup_cons.mp ht.isTree.nodup).2.length_le_card.trans (Nat.le_succ _)

omit [Fintype ι] in
theorem sorted (h : Holds D root X B m s) (hB : Sane B)
    (ht : AvlRuns.Ordered root (fun x => (s.block x).addr) t ⟨s.nodes, X⟩) :
    s.Sorted (inorder t) := by
  refine ⟨fun x hx => hB.valid _ (h.block_mem ((ht.mem_iff x).mp hx)), ?_, ht.sorted⟩
  intro x hx y hy p hxp hyp
  have hap := hB.apart
  rw [← h.content] at hap
  exact hap.eq_of_map ((ht.mem_iff x).mp hx) ((ht.mem_iff y).mp hy) hxp hyp

/-- `_find_by_address` returns, and what it finds is in the tree. -/
theorem findByAddress (h : Holds D root X B m s) : ∃ r, s.findByAddress root addr size overlap = .ok r ∧
    ∀ x, r = some x → x ∈ X ∧ (s.block x).Hits addr (lastOf addr size) overlap := by
  obtain ⟨t, ht⟩ := h.tree
  rw [AllocatorAvl.findByAddress, ht.isTree.attached.child_eq]
  cases hy : top t with
  | none => exact ⟨none, rfl, by simp⟩
  | some y =>
    have hf : ∃ r, s.findByAddressFrom addr size overlap (AvlNodes.fuel ι) y = .ok r ∧
        ∀ x, r = some x → x ∈ inorder t ∧ (s.block x).Hits addr (lastOf addr size) overlap :=
      AllocatorAvl.findByAddressFrom_sound ht.isTree.linked hy (numNodes_le ht)
    obtain ⟨r, hr, hx⟩ := hf
    exact ⟨r, hr, fun x hxr => ⟨(ht.mem_iff x).mp (hx x hxr).1, (hx x hxr).2⟩⟩

/-- It finds a block if there is one. -/
theorem findByAddress_none (h : Holds D root X B m s) (hB : Sane B) (hle : addr ≤ lastOf addr size)
    (hr : s.findByAddress root addr size overlap = .ok none) (hb : b ∈ B) :
    ¬ b.Hits addr (lastOf addr size) overlap := by
  intro hhb
  obtain ⟨t, ht⟩ := h.tree
  obtain ⟨x, hx, rfl⟩ := h.mem_content.mp hb
  have hxt := (ht.mem_iff x).mpr hx
  obtain ⟨y, hy⟩ : ∃ y, top t = some y := by
    cases t with
    | nil => simp at hxt
    | node y _ _ => exact ⟨y, rfl⟩
  obtain ⟨z, hz⟩ := AllocatorAvl.findByAddressFrom_complete ht.isTree.linked hy (numNodes_le ht)
    (h.sorted hB ht) hle hxt hhb
  rw [AllocatorAvl.findByAddress, ht.isTree.attached.child_eq, hy] at hr
  simp [hz] at hr

theorem findBestFit (h : Holds D root X B m s) :
    ∃ r, (s.nodes.child root false).elim (.ok none)
        (s.findBestFit size align beg fin (AvlNodes.fuel ι)) = .ok r ∧
      ∀ x, r = some x → x ∈ X ∧ (s.block x).fits size align beg fin = true := by
  obtain ⟨t, ht⟩ := h.tree
  rw [ht.isTree.attached.child_eq]
  cases hy : top t with
  | none => exact ⟨none, rfl, by simp⟩
  | some y =>
    have hf : ∃ r, s.findBestFit size align beg fin (AvlNodes.fuel ι) y = .ok r ∧
        ∀ x, r = some x → x ∈ inorder t ∧ (s.block x).fits size align beg fin = true :=
      AllocatorAvl.findBestFit_sound ht.isTree.linked hy (numNodes_le ht)
    obtain ⟨r, hr, hx⟩ := hf
    exact ⟨r, hr, fun x hxr => ⟨(ht.mem_iff x).mp (hx x hxr).1, (hx x hxr).2⟩⟩

end Holds

end Genode.Base
