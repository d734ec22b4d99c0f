import Mathlib.Algebra.Order.Ring.Nat
import Genode.Util.AvlRuns

/-!
# AvlBalance — which runs leave the tree balanced

An insertion keeps the tree balanced. A removal takes one level away from
a subtree, and this loss is followed on the way to the root: an equally
deep sibling absorbs it, a less deep one passes it on, and a deeper one
would need a rotation. But the rotations are made only if the removed
node is exchanged with one from further below, and a rotation to the left
where the sibling has two equally deep subtrees is a double one, which
does not always restore the balance. `Settles` says when all goes well.
-/

namespace Genode.Util.AvlShape

open BinaryTree Lib Lib.LinkedTree

variable {ι : Type} {a b d r t u : BinaryTree ι} {x y z : ι} {i side : Bool}

/-- Two depths that differ by at most one. -/
def Near (m n : Nat) : Prop := m ≤ n + 1 ∧ n ≤ m + 1

instance (m n : Nat) : Decidable (Near m n) := inferInstanceAs (Decidable (_ ∧ _))

/-- The subtrees of every node are about equally deep. -/
def Balanced : BinaryTree ι → Prop
  | nil => True
  | node _ l r => Near l.height r.height ∧ Balanced l ∧ Balanced r

theorem depth_eq_height (h : t.height < 256) : depth t = t.height := by
  induction t with
  | nil => rfl
  | node x l r hl hr =>
    rw [height] at h
    rw [depth, height, hl (by omega), hr (by omega), Nat.mod_eq_of_lt h]

@[simp] theorem height_join : (join i x a b).height = max a.height b.height + 1 := by
  cases i with
  | false => rfl
  | true => exact congrArg (· + 1) (max_comm _ _)

theorem balanced_join : Balanced (join i x a b) ↔
    Near a.height b.height ∧ Balanced a ∧ Balanced b := by
  cases i with
  | false => exact Iff.rfl
  | true =>
    change (Near b.height a.height ∧ Balanced b ∧ Balanced a) ↔ _
    unfold Near
    tauto

theorem exists_join (h : 0 < t.height) (i : Bool) : ∃ x a b, t = join i x a b := by
  cases t with
  | nil => simp at h
  | node x l r => exact ⟨x, _, _, (join_sub top_node i).symm⟩

/-! ## Rotations -/

/-- The outer subtree decides for the simple rotation. -/
theorem bias_join (side : Bool) (y : ι) (hb : b.height < 256) (hd : d.height < 256) :
    bias (join side y b d) = !side ↔ b.height < d.height ∨ side = true ∧ b.height = d.height := by
  unfold bias
  cases side with
  | false =>
    simp only [join, cond_false, sub_true_node, sub_false_node, depth_eq_height hb,
      depth_eq_height hd]
    simp
  | true =>
    simp only [join, cond_true, sub_true_node, sub_false_node, depth_eq_height hb,
      depth_eq_height hd]
    simp [le_iff_lt_or_eq]

theorem rotate_simple (h : bias (join side y b d) = !side) :
    rotate side (join side x a (join side y b d)) = join side y (join side x a b) d := by
  simp [rotate, h]

theorem rotate_double {e : BinaryTree ι} (h : bias (join side y (join side z b e) d) ≠ !side) :
    rotate side (join side x a (join side y (join side z b e) d)) =
      join side z (join side x a b) (join side y e d) := by
  simp [rotate, h]

theorem rebalance_near (ha : a.height < 256) (hb : b.height < 256) (h : Near a.height b.height) :
    rebalance (join i x a b) = join i x a b := by
  unfold rebalance
  refine if_pos ?_
  obtain ⟨h₁, h₂⟩ := h
  cases i with
  | false =>
    simp only [join, cond_false, sub_true_node, sub_false_node, depth_eq_height ha,
      depth_eq_height hb]
    omega
  | true =>
    simp only [join, cond_true, sub_true_node, sub_false_node, depth_eq_height ha,
      depth_eq_height hb]
    omega

/-- The rotation is to the side of the subtree that is less deep. -/
theorem rebalance_heavy (hr : r.height < 256) (h : r.height = a.height + 2) :
    rebalance (join side x a r) = rotate side (join side x a r) := by
  have ha : a.height < 256 := by omega
  unfold rebalance
  cases side with
  | false =>
    simp only [join, cond_false, sub_true_node, sub_false_node, depth_eq_height ha,
      depth_eq_height hr]
    rw [if_neg (by omega), decide_eq_false (by omega)]
  | true =>
    simp only [join, cond_true, sub_true_node, sub_false_node, depth_eq_height ha,
      depth_eq_height hr]
    rw [if_neg (by omega), decide_eq_true (by omega)]

/-- Where the deeper subtree leans to a side, the rotation restores the
balance and the depth is less by one. -/
theorem rebalance_uneven (side : Bool) (x y : ι) (ha : Balanced a) (hb : Balanced b) (hd : Balanced d)
    (hbd : Near b.height d.height) (hne : b.height ≠ d.height) (hs : a.height < 250)
    (hh : max b.height d.height = a.height + 1) :
    Balanced (rebalance (join side x a (join side y b d))) ∧
      (rebalance (join side x a (join side y b d))).height = a.height + 2 := by
  obtain ⟨h₁, h₂⟩ := hbd
  rw [rebalance_heavy (by rw [height_join]; omega) (by rw [height_join]; omega)]
  have hbias := bias_join (b := b) (d := d) side y (by omega) (by omega)
  by_cases hlt : b.height < d.height
  · rw [rotate_simple (hbias.mpr (.inl hlt)), balanced_join, balanced_join]
    simp only [height_join, Near]
    refine ⟨⟨by omega, ⟨by omega, ha, hb⟩, hd⟩, by omega⟩
  · obtain ⟨z, e, f, rfl⟩ := exists_join (t := b) (by omega) side
    obtain ⟨⟨h₃, h₄⟩, he, hf⟩ := balanced_join.mp hb
    rw [rotate_double fun h => ?_, balanced_join, balanced_join, balanced_join]
    · simp only [height_join, Near] at *
      refine ⟨⟨by omega, ⟨by omega, ha, he⟩, by omega, hf, hd⟩, by omega⟩
    · have := hbias.mp h
      tauto

/-- Where its subtrees are equally deep, the depth stays, and it depends
on the side whether the balance is restored. -/
theorem rebalance_even (side : Bool) (x y : ι) (ha : Balanced a) (hb : Balanced b) (hd : Balanced d)
    (hbd : b.height = d.height) (hs : a.height < 250) (hh : b.height = a.height + 1) :
    (rebalance (join side x a (join side y b d))).height = a.height + 3 ∧
      (Balanced (rebalance (join side x a (join side y b d))) ↔
        side = true ∨ (sub (!side) b).height + 1 = b.height) := by
  rw [rebalance_heavy (by rw [height_join]; omega) (by rw [height_join]; omega)]
  have hbias := bias_join (b := b) (d := d) side y (by omega) (by omega)
  cases side with
  | true =>
    rw [rotate_simple (hbias.mpr (.inr ⟨rfl, hbd⟩)), balanced_join, balanced_join]
    simp only [height_join, Near]
    exact ⟨by omega, iff_of_true ⟨by omega, ⟨by omega, ha, hb⟩, hd⟩ (by simp)⟩
  | false =>
    obtain ⟨z, e, f, rfl⟩ := exists_join (t := b) (by omega) false
    obtain ⟨⟨h₃, h₄⟩, he, hf⟩ := balanced_join.mp hb
    rw [rotate_double fun h => ?_, balanced_join, balanced_join, balanced_join, sub_join_not]
    · simp only [height_join, Near] at *
      refine ⟨by omega, ⟨fun h => .inr (by omega), fun h => ?_⟩⟩
      have hf' : f.height + 1 = max e.height f.height + 1 := by tauto
      exact ⟨by omega, ⟨by omega, ha, he⟩, by omega, hf, hd⟩
    · have := hbias.mp h
      simp only [Bool.false_eq_true, false_and, or_false] at this
      omega

/-! ## Insertion -/

/-- A tree in place of another one, perhaps one level deeper. It leans to a side then. -/
def Grown (t u : BinaryTree ι) : Prop :=
  Balanced u ∧ (u.height = t.height ∨
    u.height = t.height + 1 ∧ (t = nil ∨ ∀ i, (sub i u).height ≠ (sub (!i) u).height))

theorem Grown.join (h : Grown t u) (ht : Balanced (join i y t b))
    (hs : (LinkedTree.join i y t b).height < 250) :
    Grown (LinkedTree.join i y t b) (rebalance (LinkedTree.join i y u b)) := by
  obtain ⟨⟨h₁, h₂⟩, -, hb⟩ := balanced_join.mp ht
  obtain ⟨hu, hh⟩ := h
  rw [height_join] at hs
  -- the sibling is at most one level deeper, or the inserted node makes the difference two
  by_cases hn : u.height ≤ b.height + 1
  · rw [rebalance_near (by omega) (by omega) ⟨by omega, by omega⟩]
    refine ⟨balanced_join.mpr ⟨⟨by omega, by omega⟩, hu, hb⟩, ?_⟩
    simp only [height_join]
    by_cases hg : u.height = t.height + 1 ∧ b.height = t.height
    · refine .inr ⟨by omega, .inr fun k => ?_⟩
      rcases Bool.eq_or_eq_not k i with rfl | rfl
      · rw [sub_join, sub_join_not]
        omega
      · rw [Bool.not_not, sub_join, sub_join_not]
        omega
    · left
      omega
  · have hgrow : u.height = t.height + 1 := by omega
    have hlean : ∀ i, (sub i u).height ≠ (sub (!i) u).height := by
      rcases hh with hh | ⟨-, rfl | hh⟩
      · omega
      · simp at hgrow h₁ h₂
        omega
      · exact hh
    obtain ⟨z, e, f, rfl⟩ := exists_join (t := u) (by omega) (!i)
    obtain ⟨hef, he, hf⟩ := balanced_join.mp hu
    have hne := hlean (!i)
    rw [sub_join, sub_join_not] at hne
    rw [height_join] at hgrow hn
    obtain ⟨hres, hheight⟩ := rebalance_uneven (!i) y z hb he hf hef hne
      (by omega) (by omega)
    rw [join_not] at hres hheight
    refine ⟨hres, .inl ?_⟩
    rw [hheight, height_join]
    omega

/-- An insertion keeps the tree balanced. -/
theorem ins_grown {higher : ι → ι → Bool} (ht : Balanced t) (hs : t.height < 250) :
    Grown t (ins higher x t) := by
  induction t with
  | nil => exact ⟨⟨⟨by simp, by simp⟩, trivial, trivial⟩, .inr ⟨rfl, .inl rfl⟩⟩
  | node y l r hl hr =>
    have hbl := ht.2.1
    have hbr := ht.2.2
    rw [height] at hs
    rw [ins_of_top top_node]
    cases higher y x with
    | false => exact (hl hbl (by omega)).join (i := false) ht hs
    | true => exact (hr hbr (by omega)).join (i := true) ht (by rw [height_join]; omega)

/-! ## Removal -/

/-- The number of nodes that a balanced tree has at least. -/
theorem two_pow_height_le (ht : Balanced t) : 2 ^ (t.height / 2) ≤ t.numNodes + 1 := by
  induction t with
  | nil => simp
  | node x l r hl hr =>
    obtain ⟨⟨h₁, h₂⟩, hbl, hbr⟩ := ht
    have hle : (node x l r).height / 2 ≤ min (l.height / 2) (r.height / 2) + 1 := by
      rw [height]
      omega
    have hpow : 2 ^ ((node x l r).height / 2) ≤ 2 ^ (l.height / 2) + 2 ^ (r.height / 2) := by
      calc 2 ^ ((node x l r).height / 2)
          ≤ 2 ^ (min (l.height / 2) (r.height / 2) + 1) := Nat.pow_le_pow_right (by decide) hle
        _ = 2 ^ min (l.height / 2) (r.height / 2) + 2 ^ min (l.height / 2) (r.height / 2) := by
            rw [Nat.pow_succ, Nat.mul_two]
        _ ≤ 2 ^ (l.height / 2) + 2 ^ (r.height / 2) :=
            Nat.add_le_add (Nat.pow_le_pow_right (by decide) (min_le_left _ _))
              (Nat.pow_le_pow_right (by decide) (min_le_right _ _))
    have hl := hl hbl
    have hr := hr hbr
    rw [numNodes]
    omega

/-- A balanced tree of nodes in memory is not so deep that 8 bits are not enough. -/
theorem height_lt_of_balanced (ht : Balanced t) (hn : t.numNodes < 2 ^ 64) : t.height < 130 := by
  by_contra hge
  have hpow : 2 ^ 65 ≤ 2 ^ (t.height / 2) := Nat.pow_le_pow_right (by decide) (by omega)
  have hle := two_pow_height_le ht
  omega

/-- A subtree of depth `h` becomes less deep by one at the hole of the
context, and the tree is balanced afterwards, either by itself or by the
rotations on the way to the root. -/
def Settles (rotate : Bool) : List (Frame ι) → Nat → Prop
  | [], _ => True
  | f :: c, h =>
    -- the sibling is equally deep, or less
    f.other.height = h ∨ f.other.height + 1 = h ∧ Settles rotate c (h + 1) ∨
    -- it is deeper
    rotate = true ∧ f.other.height = h + 1 ∧
      if (sub f.side f.other).height = (sub (!f.side) f.other).height then
        f.side = true ∨
          (sub (!f.side) (sub f.side f.other)).height + 1 = (sub f.side f.other).height
      else Settles rotate c (h + 2)

instance decidableSettles (rotate : Bool) :
    (c : List (Frame ι)) → (h : Nat) → Decidable (Settles rotate c h)
  | [], _ => .isTrue trivial
  | _ :: c, h =>
    have := decidableSettles rotate c (h + 1)
    have := decidableSettles rotate c (h + 2)
    inferInstanceAs (Decidable (_ ∨ _ ∧ _ ∨ _ ∧ _ ∧ ite _ _ _))

section Context

variable {c : List (Frame ι)} {f : Frame ι}

theorem balanced_of_plug (h : Balanced (plug c t)) : Balanced t := by
  induction c generalizing t with
  | nil => exact h
  | cons f c ih => exact (balanced_join.mp (ih h)).2.1

theorem height_le_plug : t.height ≤ (plug c t).height := by
  induction c generalizing t with
  | nil => exact le_rfl
  | cons f c ih =>
    have h := ih (t := join f.side f.top t f.other)
    rw [height_join] at h
    rw [plug_cons]
    omega

/-- A balanced subtree may be replaced by one of the same depth. -/
theorem balanced_plug_iff (h : Balanced (plug c t)) (hh : u.height = t.height) :
    Balanced (plug c u) ↔ Balanced u := by
  refine ⟨balanced_of_plug, fun hu => ?_⟩
  induction c generalizing t u with
  | nil => exact hu
  | cons f c ih =>
    obtain ⟨hn, -, ho⟩ := balanced_join.mp (balanced_of_plug h)
    refine ih h (by simp [hh]) (balanced_join.mpr ⟨by rwa [hh], hu, ho⟩)

/-- Then no rotation is made on the way to the root. -/
theorem rebalanceFrames_eq (h : Balanced (plug c t)) (hh : u.height = t.height)
    (hs : (plug c t).height < 250) : rebalanceFrames c u = plug c u := by
  induction c generalizing t u with
  | nil => rfl
  | cons f c ih =>
    obtain ⟨hn, -, -⟩ := balanced_join.mp (balanced_of_plug h)
    have hle := height_le_plug (c := c) (t := join f.side f.top t f.other)
    rw [plug_cons] at hs
    rw [height_join] at hle
    rw [rebalanceFrames, rebalance_near (by omega) (by omega) (by rwa [hh])]
    exact ih h (by simp [hh]) hs

theorem height_plug_congr (hh : u.height = t.height) :
    (plug c u).height = (plug c t).height := by
  induction c generalizing t u with
  | nil => exact hh
  | cons f c ih => exact ih (by simp [hh])

/-- The nodes themselves do not matter. -/
theorem settles_top {d : List (Frame ι)} {rotate : Bool} {h : Nat} :
    Settles rotate (d ++ ⟨x, i, r⟩ :: c) h ↔ Settles rotate (d ++ ⟨y, i, r⟩ :: c) h := by
  induction d generalizing h with
  | nil => exact Iff.rfl
  | cons f d ih => simp only [List.cons_append, Settles, ih]

/-- Without rotations. -/
theorem balanced_plug_iff_settles (h : Balanced (plug c t)) (hu : Balanced u)
    (hh : u.height + 1 = t.height) : Balanced (plug c u) ↔ Settles false c t.height := by
  induction c generalizing t u with
  | nil => exact iff_of_true hu trivial
  | cons f c ih =>
    rw [plug_cons] at h
    obtain ⟨⟨h₁, h₂⟩, ht, ho⟩ := balanced_join.mp (balanced_of_plug h)
    simp only [Settles, plug_cons, Bool.false_eq_true, false_and, or_false]
    rcases Nat.lt_trichotomy f.other.height t.height with hlt | heq | hgt
    · have hbu : Balanced (join f.side f.top u f.other) :=
        balanced_join.mpr ⟨⟨by omega, by omega⟩, hu, ho⟩
      have hheight : (join f.side f.top t f.other).height = t.height + 1 := by
        rw [height_join]
        omega
      rw [ih h hbu (by rw [height_join, hheight]; omega), hheight]
      constructor
      · exact fun hc => .inr ⟨by omega, hc⟩
      · rintro (hc | ⟨-, hc⟩)
        · omega
        · exact hc
    · have hheight : (join f.side f.top u f.other).height =
          (join f.side f.top t f.other).height := by
        simp only [height_join]
        omega
      rw [balanced_plug_iff h hheight]
      exact iff_of_true (balanced_join.mpr ⟨⟨by omega, by omega⟩, hu, ho⟩) (.inl heq)
    · refine iff_of_false (fun hc => ?_) (by omega)
      obtain ⟨⟨h₃, h₄⟩, -⟩ := balanced_join.mp (balanced_of_plug hc)
      omega

/-- With rotations. -/
theorem balanced_rebalanceFrames_iff (h : Balanced (plug c t)) (hu : Balanced u)
    (hh : u.height + 1 = t.height) (hs : (plug c t).height < 250) :
    Balanced (rebalanceFrames c u) ↔ Settles true c t.height := by
  induction c generalizing t u with
  | nil => exact iff_of_true hu trivial
  | cons f c ih =>
    rw [plug_cons] at h hs
    obtain ⟨⟨h₁, h₂⟩, ht, ho⟩ := balanced_join.mp (balanced_of_plug h)
    have hle := height_le_plug (c := c) (t := join f.side f.top t f.other)
    rw [height_join] at hle
    simp only [Settles, rebalanceFrames, true_and]
    rcases Nat.lt_trichotomy f.other.height t.height with hlt | heq | hgt
    · have hbu : Balanced (join f.side f.top u f.other) :=
        balanced_join.mpr ⟨⟨by omega, by omega⟩, hu, ho⟩
      have hheight : (join f.side f.top t f.other).height = t.height + 1 := by
        rw [height_join]
        omega
      rw [rebalance_near (by omega) (by omega) ⟨by omega, by omega⟩,
        ih h hbu (by rw [height_join, hheight]; omega) hs, hheight]
      constructor
      · exact fun hc => .inr (.inl ⟨by omega, hc⟩)
      · rintro (hc | ⟨-, hc⟩ | ⟨hc, -⟩)
        · omega
        · exact hc
        · omega
    · have hheight : (join f.side f.top u f.other).height =
          (join f.side f.top t f.other).height := by
        simp only [height_join]
        omega
      rw [rebalance_near (by omega) (by omega) ⟨by omega, by omega⟩,
        rebalanceFrames_eq h hheight hs, balanced_plug_iff h hheight]
      exact iff_of_true (balanced_join.mpr ⟨⟨by omega, by omega⟩, hu, ho⟩) (.inl heq)
    · -- the sibling is deeper by two, so there is a rotation
      have hheight : (join f.side f.top t f.other).height = t.height + 2 := by
        rw [height_join]
        omega
      obtain ⟨z, b, d, hz⟩ := exists_join (t := f.other) (by omega) f.side
      rw [hz] at h₁ h₂ ho hgt ⊢
      obtain ⟨hnear, hb, hd⟩ := balanced_join.mp ho
      rw [sub_join, sub_join_not]
      rw [height_join] at h₁ h₂ hgt ⊢
      split
      · rename_i heven
        obtain ⟨hres, hiff⟩ := rebalance_even f.side f.top z hu hb hd heven
          (by omega) (by omega)
        have hsame : (rebalance (join f.side f.top u (join f.side z b d))).height =
            (join f.side f.top t f.other).height := by
          rw [hres, hheight]
          omega
        rw [rebalanceFrames_eq h hsame hs, balanced_plug_iff h hsame, hiff]
        constructor
        · exact fun hc => .inr (.inr ⟨by omega, hc⟩)
        · rintro (hc | ⟨hc, -⟩ | ⟨-, hc⟩)
          · omega
          · omega
          · exact hc
      · rename_i huneven
        have hnear' := hnear
        obtain ⟨h₃, h₄⟩ := hnear'
        obtain ⟨hbal, hres⟩ := rebalance_uneven f.side f.top z hu hb hd hnear
          huneven (by omega) (by omega)
        rw [ih h hbal (by rw [hres, hheight]; omega) hs, hheight]
        constructor
        · exact fun hc => .inr (.inr ⟨by omega, hc⟩)
        · rintro (hc | ⟨hc, -⟩ | ⟨-, hc⟩)
          · omega
          · omega
          · exact hc

end Context

/-! ## The place of a removal -/

/-- The way from a node up to the root, and its two subtrees. -/
def path [DecidableEq ι] (x : ι) :
    BinaryTree ι → Option (List (Frame ι) × BinaryTree ι × BinaryTree ι)
  | nil => none
  | node y l r =>
    if y = x then some ([], l, r)
    else ((path x l).map fun p => (p.1 ++ [⟨y, false, r⟩], p.2)).or
      ((path x r).map fun p => (p.1 ++ [⟨y, true, l⟩], p.2))

/-- The way from the right-most node up to the top, and its subtree. -/
def spine : BinaryTree ι → List (Frame ι) × BinaryTree ι
  | nil => ([], nil)
  | node x l nil => ([], node x l nil)
  | node x l (node y a b) => ((spine (node y a b)).1 ++ [⟨x, true, l⟩], (spine (node y a b)).2)

/-- The removal of `x` leaves a balanced tree. -/
def RemovalSettles [DecidableEq ι] (x : ι) (t : BinaryTree ι) : Prop :=
  match path x t with
  | none => True
  | some (c, nil, r) => Settles false c (node x nil r).height
  | some (c, node y a b, r) =>
    let p := spine (node y a b)
    Settles (!p.1.isEmpty) (p.1 ++ ⟨x, false, r⟩ :: c) p.2.height

instance [DecidableEq ι] (x : ι) (t : BinaryTree ι) : Decidable (RemovalSettles x t) := by
  unfold RemovalSettles
  split <;> infer_instance

theorem path_eq_none [DecidableEq ι] (h : x ∉ inorder t) : path x t = none := by
  induction t with
  | nil => rfl
  | node y l r hl hr =>
    simp only [inorder, List.mem_append, List.mem_cons, not_or] at h
    rw [path, if_neg (Ne.symm h.2.1), hl h.1, hr h.2.2]
    rfl

theorem path_plug [DecidableEq ι] {c : List (Frame ι)}
    {p : List (Frame ι) × BinaryTree ι × BinaryTree ι} (hc : x ∉ frameNodes c)
    (hp : path x t = some p) : path x (plug c t) = some (p.1 ++ c, p.2) := by
  induction c generalizing t p with
  | nil => simpa using hp
  | cons f c ih =>
    simp only [List.cons_append, frameNodes_cons, List.mem_cons, List.mem_append, not_or] at hc
    obtain ⟨y, k, o⟩ := f
    have hstep : path x (join k y t o) = some (p.1 ++ [⟨y, k, o⟩], p.2) := by
      cases k with
      | false =>
        rw [join, cond_false, path, if_neg (Ne.symm hc.1), hp]
        rfl
      | true =>
        rw [join, cond_true, path, if_neg (Ne.symm hc.1), hp, path_eq_none hc.2.1]
        rfl
    rw [plug_cons, ih hc.2.2 hstep]
    simp

theorem spine_plug {d : List (Frame ι)} (hd : ∀ f ∈ d, f.side = true) :
    spine (plug d (node y u nil)) = (d, node y u nil) := by
  induction d using List.reverseRecOn with
  | nil => rfl
  | append_singleton d f ih =>
    have hd' : ∀ g ∈ d, g.side = true := fun g hg => hd g (by simp [hg])
    have hf : f.side = true := hd f (by simp)
    have hne : plug d (node y u nil) ≠ nil := by
      intro he
      have hmem : y ∈ inorder (plug d (node y u nil)) := by simp [mem_inorder_plug]
      simp [he] at hmem
    rw [plug_append, plug_cons, plug_nil, hf, join, cond_true]
    obtain ⟨z, a, b, hz⟩ : ∃ z a b, plug d (node y u nil) = node z a b := by
      cases h : plug d (node y u nil) with
      | nil => exact absurd h hne
      | node z a b => exact ⟨z, a, b, rfl⟩
    rw [hz, spine, ← hz, ih hd']
    obtain ⟨w, k, o⟩ := f
    simp only at hf
    rw [hf]

/-- When a removal keeps the tree balanced. -/
theorem Removal.balanced_iff [DecidableEq ι] (h : Removal x t u) (hn : (inorder t).Nodup)
    (hb : Balanced t) (hs : t.height < 250) : Balanced u ↔ RemovalSettles x t := by
  have hpath : ∀ {c l r}, (inorder (plug c (node x l r))).Nodup →
      path x (plug c (node x l r)) = some (c, l, r) := by
    intro c l r hn
    have hx : x ∉ frameNodes c := by
      rw [inorder_plug_perm.nodup_iff, List.nodup_append] at hn
      exact fun hx => hn.2.2 x hx x (by simp) rfl
    rw [path_plug (p := ([], l, r)) hx (by rw [path, if_pos rfl])]
    rfl
  cases h with
  | right c r =>
    obtain ⟨-, -, hr⟩ := balanced_of_plug hb
    unfold RemovalSettles
    rw [hpath hn]
    exact balanced_plug_iff_settles hb hr (by simp)
  | exchange c d y u r hd =>
    have hspine := spine_plug (y := y) (u := u) hd
    -- with the other node in its place the tree is still as deep everywhere
    have hheight : (node y (plug d (node y u nil)) r).height =
        (node x (plug d (node y u nil)) r).height := rfl
    have hbal : Balanced (plug (d ++ ⟨y, false, r⟩ :: c) (node y u nil)) := by
      rw [plug_append]
      have hx := balanced_of_plug hb
      exact (balanced_plug_iff hb hheight).mpr ⟨hx.1, hx.2⟩
    have hs' : (plug (d ++ ⟨y, false, r⟩ :: c) (node y u nil)).height < 250 := by
      rw [plug_append]
      exact (height_plug_congr hheight).trans_lt hs
    obtain ⟨-, hu, -⟩ := balanced_of_plug hbal
    have hcond : RemovalSettles x (plug c (node x (plug d (node y u nil)) r)) ↔
        Settles (!d.isEmpty) (d ++ ⟨x, false, r⟩ :: c) (node y u nil).height := by
      unfold RemovalSettles
      rw [hpath hn]
      cases hl : plug d (node y u nil) with
      | nil => simp [hl, spine] at hspine
      | node z a b =>
        dsimp only
        rw [← hl, hspine]
    rw [hcond, settles_top (y := y)]
    unfold AvlShape.exchange
    cases d with
    | nil => exact balanced_plug_iff_settles (c := ⟨y, false, r⟩ :: c) hbal hu (by simp)
    | cons f d => exact balanced_rebalanceFrames_iff hbal hu (by simp) hs'

end Genode.Util.AvlShape

namespace Genode.Util.AvlNodes

open BinaryTree Lib Lib.LinkedTree

variable {ι β : Type} (s : AvlNodes ι β)

/-- The tree at a pointer. -/
def toTree : Nat → Option ι → BinaryTree ι
  | 0, _ => nil
  | _, none => nil
  | n + 1, some x => node x (toTree n (s.child x false)) (toTree n (s.child x true))

/-- The tree below `root`. -/
def tree [Fintype ι] (root : ι) : BinaryTree ι := s.toTree (fuel ι) (s.child root false)

variable {s} {t : BinaryTree ι} {root : ι}

theorem toTree_eq {n : Nat} (h : Linked s.child s.parent t) (hn : t.numNodes ≤ n) :
    s.toTree n (top t) = t := by
  induction t generalizing n with
  | nil => cases n <;> rfl
  | node x l r hl hr =>
    obtain ⟨h₁, h₂, h₃, h₄⟩ := h
    rw [numNodes] at hn
    obtain _ | n := n
    · omega
    rw [top_node, toTree, h₁.child_eq, h₂.child_eq, hl h₃ (by omega), hr h₄ (by omega)]

theorem IsTree.tree_eq [Fintype ι] (h : IsTree root t s) : s.tree root = t := by
  unfold tree
  rw [h.attached.child_eq]
  refine toTree_eq h.linked ?_
  rw [← inorder_length]
  exact (List.nodup_cons.mp h.nodup).2.length_le_card.trans (Nat.le_succ _)

/-- The depths at a node of the tree. -/
theorem IsTree.childDepth_eq (c : List (Frame ι)) {x : ι} {l r : BinaryTree ι}
    (h : IsTree root (plug c (node x l r)) s) :
    s.childDepth x false = AvlShape.depth l ∧ s.childDepth x true = AvlShape.depth r := by
  have hz : Zip (root :: inorder (plug c (node x l r))) root c (node x l r) s :=
    zip_plug.mpr (h.zip (fun q hq => hq) fun q hq hq' => absurd hq hq')
  exact ⟨hz.childDepth_eq top_node false, hz.childDepth_eq top_node true⟩

end Genode.Util.AvlNodes

namespace Genode.Util.AvlRuns

open BinaryTree Lib Lib.LinkedTree AvlNodes AvlShape

variable {ι β κ : Type} [DecidableEq ι] [Fintype ι] {P : AvlPolicy ι β} {root : ι}
  [LinearOrder κ] {key : ι → κ} {s s' : State ι β} {t : BinaryTree ι}
  {hist : List (State ι β × Op ι β)}

/-- The depths of the two subtrees of every node differ by at most one. -/
def BalancedState (s : State ι β) : Prop :=
  ∀ x ∈ s.members, Near (s.nodes.childDepth x false) (s.nodes.childDepth x true)

instance (s : State ι β) : Decidable (BalancedState s) :=
  inferInstanceAs (Decidable (∀ x ∈ s.members, _))

/-- If the operation is a removal, it leaves a balanced tree. -/
def OpSettles (root : ι) (s : State ι β) : Op ι β → Prop
  | .remove x => RemovalSettles x (s.nodes.tree root)
  | _ => True

instance (s : State ι β) : (op : Op ι β) → Decidable (OpSettles root s op)
  | .construct _ _ => inferInstanceAs (Decidable True)
  | .insert _ => inferInstanceAs (Decidable True)
  | .remove x => inferInstanceAs (Decidable (RemovalSettles x (s.nodes.tree root)))

omit [DecidableEq ι] [Fintype ι] in
/-- The stored depths tell whether the tree is balanced. -/
theorem Ordered.balancedState_iff (h : Ordered root key t s) (hn : t.numNodes < 2 ^ 64) :
    BalancedState s ↔ Balanced t := by
  have hnode : ∀ {c x l r}, t = plug c (node x l r) → Balanced l → Balanced r →
      (Near (s.nodes.childDepth x false) (s.nodes.childDepth x true) ↔
        Near l.height r.height) := by
    rintro c x l r rfl hl hr
    obtain ⟨h₁, h₂⟩ := h.isTree.childDepth_eq
    have hlen := (inorder_plug_perm (c := c) (t := node x l r)).length_eq
    simp only [List.length_append, inorder_length, numNodes] at hlen
    have hlt := height_lt_of_balanced hl (by omega)
    have hrt := height_lt_of_balanced hr (by omega)
    rw [h₁, h₂, depth_eq_height (by omega), depth_eq_height (by omega)]
  constructor
  · intro hs
    have hsub : ∀ (u : BinaryTree ι) (c : List (Frame ι)), t = plug c u → Balanced u := by
      intro u
      induction u with
      | nil => exact fun _ _ => trivial
      | node x l r ihl ihr =>
        intro c hc
        have hl := ihl (⟨x, false, r⟩ :: c) (by rw [hc]; rfl)
        have hr := ihr (⟨x, true, l⟩ :: c) (by rw [hc]; rfl)
        have hx : x ∈ s.members := by
          rw [← h.mem_iff, hc]
          simp [mem_inorder_plug]
        exact ⟨(hnode hc hl hr).mp (hs x hx), hl, hr⟩
    exact hsub t [] rfl
  · intro hb x hx
    obtain ⟨c, l, r, hc⟩ := exists_plug_of_mem ((h.mem_iff x).mpr hx)
    rw [hc] at hb
    obtain ⟨hn, hl, hr⟩ := balanced_of_plug hb
    exact (hnode hc hl hr).mpr hn

omit [DecidableEq ι] in
theorem Ordered.numNodes_lt (hcard : Fintype.card ι ≤ 2 ^ 64) (h : Ordered root key t s) :
    t.numNodes < 2 ^ 64 := by
  have hlen := h.isTree.nodup.length_le_card
  rw [List.length_cons, inorder_length] at hlen
  omega

/-- What one operation does to the balance. -/
theorem balanced_of_trans (hcard : Fintype.card ι ≤ 2 ^ 64)
    (hh : ∀ a b, a ≠ b → P.higher a b = decide (key a ≤ key b)) {op : Op ι β}
    (h : Ordered root key t s) (hb : Balanced t) (ht : Trans P root s op s') :
    ∃ t', Ordered root key t' s' ∧ (Balanced t' ↔ OpSettles root s op) := by
  have hs : t.height < 250 := (height_lt_of_balanced hb (h.numNodes_lt hcard)).trans (by decide)
  obtain ⟨hop, hexec⟩ := ht
  cases op with
  | construct x d =>
    cases hexec
    exact ⟨t, h.construct hop.1 hop.2 d, iff_of_true hb trivial⟩
  | insert x =>
    obtain ⟨nodes, hn, ht⟩ := h.insert (fun a ha => hh a x (ne_of_mem_of_not_mem ha hop.2.1)) hop.1
      hop.2.1 hop.2.2
    rw [exec, hn] at hexec
    cases hexec
    exact ⟨_, ht, iff_of_true (ins_grown hb hs).1 trivial⟩
  | remove x =>
    obtain ⟨nodes, t', hn, hrem, ht⟩ := h.remove (P := P) hop
    rw [exec, hn] at hexec
    cases hexec
    refine ⟨t', ht, ?_⟩
    rw [hrem.balanced_iff (List.nodup_cons.mp h.isTree.nodup).2 hb hs, OpSettles, h.isTree.tree_eq]

end Genode.Util.AvlRuns
