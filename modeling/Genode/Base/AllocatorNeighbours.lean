import Genode.Base.AllocatorCalls

/-!
# AllocatorNeighbours — free blocks side by side

Away from the ends of the address space, no operation leaves two free
blocks next to each other: `add_range` and `free` merge the new block
with both of its neighbours, and the other operations only put a gap
between blocks.
-/

namespace Genode.Base

open Block Lib

variable {ι μ : Type} [DecidableEq ι] [Fintype ι] {D : Md ι μ} {root : ι} {X : Finset ι}
  {B C : Multiset Block} {m : μ} {s : AllocatorAvl ι μ} {b c : Block} {p q : Option Block}
  {addr size a n beg fin : Nat}

/-! ## Neighbours of one block -/

omit [DecidableEq ι] [Fintype ι] in
theorem NoNeighbours.le (h : NoNeighbours B) (hC : C ≤ B) : NoNeighbours C :=
  fun b hb c hc => h b (Multiset.mem_of_le hC hb) c (Multiset.mem_of_le hC hc)

/-- Used blocks do not matter. -/
theorem noNeighbours_cons_used (hu : b.used = true) : NoNeighbours (b ::ₘ C) ↔ NoNeighbours C := by
  constructor
  · intro h
    exact h.le (Multiset.le_cons_self C b)
  · intro h x hx y hy hxu hyu
    rcases Multiset.mem_cons.mp hx with rfl | hx
    · rw [hu] at hxu
      cases hxu
    rcases Multiset.mem_cons.mp hy with rfl | hy
    · rw [hu] at hyu
      cases hyu
    exact h x hx y hy hxu hyu

/-- A block is put between others that it does not touch. -/
theorem NoNeighbours.cons (h : NoNeighbours C) (hb : b.stop ≠ b.addr)
    (hleft : ∀ c ∈ C, c.used = false → c.stop ≠ b.addr)
    (hright : ∀ c ∈ C, c.used = false → b.stop ≠ c.addr) : NoNeighbours (b ::ₘ C) := by
  intro x hx y hy hxu hyu
  rcases Multiset.mem_cons.mp hx with rfl | hxC
  · rcases Multiset.mem_cons.mp hy with rfl | hyC
    · exact hb
    · exact hright y hyC hyu
  · rcases Multiset.mem_cons.mp hy with rfl | hyC
    · exact hleft x hxC hxu
    · exact h x hxC y hyC hxu hyu

/-! ## What the operations leave -/

/-- The new block of `add_range` reaches to the next used block or gap on both sides. -/
theorem Merges.noNeighbours (h : Merges B addr size p q C) (hv : Vacant B addr size)
    (hend : addr + size < 2 ^ 64) (hno : NoNeighbours B) :
    NoNeighbours (grown addr size p q ::ₘ C) := by
  have hbd : Bounded B addr size := fun heq => absurd heq hend.ne
  have hpos := hv.pos
  have hl := h.left_le hv
  obtain ⟨hr, hr'⟩ := h.le_right hv hbd
  have hCB : C ≤ B := by
    rw [h.blocks]
    exact (Multiset.le_add_left C _).trans (Multiset.le_add_left _ _)
  have hstop : (grown addr size p q).stop = q.elim (addr + size) Block.stop := by
    rw [h.grown_eq hv hbd]
    exact stop_range (by omega) hr'
  have haddr : (grown addr size p q).addr = p.elim addr Block.addr := rfl
  apply (hno.le hCB).cons
  · omega
  · intro c hc hu
    rw [haddr]
    cases hp : p with
    | none =>
      intro hca
      have := h.pred_used hv hp (Multiset.mem_of_le hCB hc) hca
      rw [hu] at this
      cases this
    | some d =>
      obtain ⟨hdu, -⟩ := h.pred_stop hv hp
      exact hno c (Multiset.mem_of_le hCB hc) d (h.mem_left hp) hu hdu
  · intro c hc hu
    rw [hstop]
    cases hq : q with
    | none =>
      intro hca
      have := h.succ_used hv hend hq (Multiset.mem_of_le hCB hc) hca.symm
      rw [hu] at this
      cases this
    | some d =>
      obtain ⟨hdu, -⟩ := h.succ_addr hv hend hq
      have hd := h.mem_right (Multiset.mem_add.mpr (.inl (mem_opt.mpr hq)))
      exact hno d hd c (Multiset.mem_of_le hCB hc) hdu hu

/-- What is left of a free block keeps its distance. -/
theorem noNeighbours_cut (h : Sane (b ::ₘ C)) (hu : b.used = false) (hn : 0 < n)
    (ha : b.addr ≤ a) (hs : a + n ≤ b.stop) (hno : NoNeighbours (b ::ₘ C)) :
    NoNeighbours (b.pieces a n + C) := by
  have hb := h.valid_head
  have hle := hb.stop_le
  have hmem : b ∈ b ::ₘ C := Multiset.mem_cons_self b C
  -- no other block has an address of the block
  have hapart : ∀ c ∈ C, ∀ x, b.Covers x → ¬ c.Covers x := fun c hc x hx =>
    h.apart.rest hx hc
  have hC : ∀ c ∈ C, c.used = false → c.stop ≠ b.addr ∧ b.stop ≠ c.addr := fun c hc hcu =>
    ⟨hno c (Multiset.mem_cons_of_mem hc) b hmem hcu hu,
      hno b hmem c (Multiset.mem_cons_of_mem hc) hu hcu⟩
  have hinner : ∀ c ∈ C, ∀ x, b.addr < x → x < b.stop → c.stop ≠ x ∧ x ≠ c.addr := by
    intro c hc x hlo hhi
    have hcv := h.valid c (Multiset.mem_cons_of_mem hc)
    have hlt := hcv.lt_stop
    constructor
    · rintro rfl
      exact hapart c hc (c.stop - 1) ⟨by omega, by omega⟩ hcv.covers_last
    · rintro rfl
      exact hapart c hc c.addr ⟨hlo.le, hhi⟩ hcv.covers_addr
  rw [pieces_eq hb ha hn hs, add_assoc]
  have hright : NoNeighbours (gap (a + n) b.stop + C) := by
    unfold gap
    split
    · next hlt =>
      rw [Multiset.singleton_add]
      apply (hno.le (Multiset.le_cons_self C b)).cons
      · rw [stop_range hlt hle, addr_range]
        omega
      · intro c hc _
        exact (hinner c hc (a + n) (by omega) hlt).1
      · intro c hc hcu
        rw [stop_range hlt hle]
        exact (hC c hc hcu).2
    · rw [zero_add]
      exact hno.le (Multiset.le_cons_self C b)
  unfold gap at hright ⊢
  by_cases hlt : b.addr < a
  · rw [if_pos hlt, Multiset.singleton_add]
    apply hright.cons
    · rw [stop_range hlt (by omega), addr_range]
      omega
    · intro c hc hcu
      rw [addr_range]
      rcases Multiset.mem_add.mp hc with hc | hc
      · obtain ⟨hlt', rfl⟩ := mem_gap.mp hc
        rw [stop_range hlt' hle]
        exact hb.lt_stop.ne'
      · exact (hC c hc hcu).1
    · intro c hc hcu
      rw [stop_range hlt (by omega)]
      rcases Multiset.mem_add.mp hc with hc | hc
      · obtain ⟨-, rfl⟩ := mem_gap.mp hc
        rw [addr_range]
        omega
      · exact (hinner c hc a hlt (by omega)).2
  · rw [if_neg hlt, zero_add]
    exact hright

end Genode.Base
