import Genode.Base.AllocatorOperations

/-!
# AllocatorRanges — what an operation does to the addresses

As long as the blocks are apart, each operation adds or removes the
addresses that it is asked for. The exceptions are at the two ends of
the address space. A range that ends at its end has no successor, but
`add_range` looks for one at address 0.
-/

namespace Genode.Base

open Block Lib Lib.LinkedTree Util

variable {ι μ : Type} [DecidableEq ι] [Fintype ι] {D : Md ι μ} {root x y : ι} {X : Finset ι}
  {B B' C R : Multiset Block} {m m' : μ} {s s' : AllocatorAvl ι μ} {b c : Block} {p q : Option Block}
  {addr size align beg fin a n lo hi : Nat}

/-! ## A block among others -/

theorem mem_opt : b ∈ opt p ↔ p = some b := by
  cases p <;> simp [opt, eq_comm]

theorem Sane.of_cons (h : Sane (b ::ₘ C)) : Sane C := h.le (Multiset.le_cons_self C b)

theorem Sane.valid_head (h : Sane (b ::ₘ C)) : b.Valid := h.valid b (Multiset.mem_cons_self b C)

/-- Valid blocks with the same addresses as blocks that are apart, or fewer. -/
theorem Sane.of_cover (h : Sane B) (hv : ∀ b ∈ B', b.Valid)
    (hc : ∀ a, blockCover B' a ≤ blockCover B a) : Sane B' :=
  ⟨hv, fun a => (hc a).trans (h.apart a)⟩

/-! ## Ranges that are added -/

/-- A range that does not wrap, and that has no address in common with any block. -/
structure Vacant (B : Multiset Block) (addr size : Nat) : Prop where
  sane : Sane B
  pos : 0 < size
  lt : size < 2 ^ 64
  le : addr + size ≤ 2 ^ 64
  vacant : ∀ b ∈ B, b.addr < addr + size → b.stop ≤ addr

/-- `add_range` takes no block at address 0 for a successor of the range. -/
def Bounded (B : Multiset Block) (addr size : Nat) : Prop :=
  addr + size = 2 ^ 64 → ∀ b ∈ B, b.used = false → b.addr = 0 → b.stop = addr

namespace Merges

theorem mem_left (h : Merges B addr size p q C) (hp : p = some b) : b ∈ B := by
  rw [h.blocks, Multiset.mem_add, mem_opt]
  exact .inl hp

theorem mem_right (h : Merges B addr size p q C) (hb : b ∈ opt q + C) : b ∈ B := by
  rw [h.blocks, Multiset.mem_add]
  exact .inr hb

variable (h : Merges B addr size p q C) (hv : Vacant B addr size)

include h hv

theorem sane_right : Sane (opt q + C) := hv.sane.le (h.blocks ▸ Multiset.le_add_left _ _)

/-- The predecessor ends where the range starts. -/
theorem pred_stop (hp : p = some b) : b.used = false ∧ b.stop = addr ∧ b.addr < addr ∧
    b.size = addr - b.addr := by
  have hle := hv.le
  have hpos := hv.pos
  obtain ⟨h0, hu, hh⟩ := h.pred b hp
  have hb := h.mem_left hp
  have hval := hv.sane.valid b hb
  have hsub : sub64 addr 1 = addr - 1 := sub64_eq (by omega) (by omega)
  rw [hits_address hval sub64_lt, hsub, Covers] at hh
  have hstop := hv.vacant b hb (by omega)
  refine ⟨hu, by omega, by omega, ?_⟩
  rcases hval.cases with hc | hc <;> omega

theorem pred_used (hp : p = none) (hb : b ∈ B) (hstop : b.stop = addr) : b.used = true := by
  have hle := hv.le
  have hpos := hv.pos
  have hlt := (hv.sane.valid b hb).lt_stop
  refine h.pred_none hp hv.sane (by omega) b hb ?_
  rw [sub64_eq (by omega) (by omega), Covers]
  omega

/-- Where the new block starts. -/
theorem left_le : p.elim addr Block.addr ≤ addr := by
  cases hp : p with
  | none => exact le_rfl
  | some b => exact (h.pred_stop hv hp).2.2.1.le

theorem merged_eq : merged p size = (addr + size - p.elim addr Block.addr) % 2 ^ 64 := by
  have hlt := hv.lt
  cases hp : p with
  | none =>
    rw [merged, Option.elim_none, Option.elim_none, Nat.add_sub_cancel_left, Nat.mod_eq_of_lt hlt]
  | some b =>
    obtain ⟨-, -, hba, hbs⟩ := h.pred_stop hv hp
    rw [merged, Option.elim_some, Option.elim_some, add64, hbs]
    congr 1
    omega

theorem behind_eq : behind addr size p = (addr + size) % 2 ^ 64 := by
  have hl := h.left_le hv
  rw [behind, h.merged_eq hv, add64, Nat.add_mod_mod]
  congr 1
  omega

/-- The successor starts where the range stops. -/
theorem succ_addr (hend : addr + size < 2 ^ 64) (hq : q = some b) :
    b.used = false ∧ b.addr = addr + size := by
  have hpos := hv.pos
  obtain ⟨hu, hh⟩ := h.succ b hq
  have hb := h.mem_right (Multiset.mem_add.mpr (.inl (mem_opt.mpr hq)))
  rw [h.behind_eq hv, Nat.mod_eq_of_lt hend, hits_address (hv.sane.valid b hb) hend, Covers] at hh
  refine ⟨hu, ?_⟩
  by_contra hne
  have := hv.vacant b hb (by omega)
  omega

/-- There is no other block at address 0 to be found behind the end of the address space. -/
theorem succ_none_of_end (hbd : Bounded B addr size) (hend : addr + size = 2 ^ 64) : q = none := by
  have hlt := hv.lt
  cases hq : q with
  | none => rfl
  | some c =>
    exfalso
    obtain ⟨hu, hh⟩ := h.succ c hq
    have hcq : c ∈ opt q + C := Multiset.mem_add.mpr (.inl (mem_opt.mpr hq))
    have hcB := h.mem_right hcq
    have hval := hv.sane.valid c hcB
    rw [h.behind_eq hv, hend, Nat.mod_self, hits_address hval (by omega), Covers] at hh
    have hstop := hbd hend c hcB hu (by omega)
    have hlast : c.Covers (addr - 1) := by
      rw [Covers]
      omega
    cases hp : p with
    | none =>
      have := h.pred_used hv hp hcB hstop
      simp [this] at hu
    | some b =>
      -- the block is the predecessor, which has left the tree
      obtain ⟨-, hbs, hba, -⟩ := h.pred_stop hv hp
      have hblast : b.Covers (addr - 1) := by
        rw [Covers]
        omega
      have hap := hv.sane.apart
      rw [h.blocks, hp, opt, Option.elim_some, Multiset.singleton_add] at hap
      exact hap.rest hblast hcq hlast

theorem lt_of_succ (hbd : Bounded B addr size) (hq : q = some c) : addr + size < 2 ^ 64 := by
  have hle := hv.le
  by_contra hc
  have := h.succ_none_of_end hv hbd (by omega)
  simp [hq] at this

theorem succ_used (hend : addr + size < 2 ^ 64) (hq : q = none) (hb : b ∈ B)
    (hba : b.addr = addr + size) : b.used = true := by
  have hpos := hv.pos
  have hbC : b ∈ opt q + C := by
    have hb' := hb
    rw [h.blocks, Multiset.mem_add] at hb'
    refine hb'.resolve_left fun hc => ?_
    have := (h.pred_stop hv (mem_opt.mp hc)).2.2.1
    omega
  refine h.succ_none hq (h.sane_right hv) b hbC ?_
  rw [h.behind_eq hv, Nat.mod_eq_of_lt hend, ← hba]
  exact (hv.sane.valid b hb).covers_addr

/-- The new block spans all ranges that were merged. -/
theorem grown_eq (hbd : Bounded B addr size) : grown addr size p q =
    range (p.elim addr Block.addr) (q.elim (addr + size) Block.stop) false := by
  have hl := h.left_le hv
  have hle := hv.le
  rw [grown, range, h.merged_eq hv]
  congr 1
  cases hq : q with
  | none => rfl
  | some c =>
    have hend := h.lt_of_succ hv hbd hq
    obtain ⟨-, hca⟩ := h.succ_addr hv hend hq
    have hcs : c.stop = c.addr + c.size := stop_eq (by
      have hcB := h.mem_right (Multiset.mem_add.mpr (.inl (mem_opt.mpr hq)))
      have hpos := hv.pos
      rcases (hv.sane.valid c hcB).cases with hc | hc <;> omega)
    rw [merged, Option.elim_some, Option.elim_some, add64, Nat.mod_add_mod, hcs, hca]
    congr 1
    omega

theorem cover_left : blockCover (opt p) a =
    if p.elim addr Block.addr ≤ a ∧ a < addr then 1 else 0 := by
  cases hp : p with
  | none =>
    rw [opt, Option.elim_none, blockCover, cover_zero, Option.elim_none, if_neg (by omega)]
  | some b =>
    obtain ⟨-, hbs, -, -⟩ := h.pred_stop hv hp
    rw [opt, Option.elim_some, Option.elim_some, blockCover, ← Multiset.cons_zero, cover_cons,
      cover_zero, Nat.add_zero]
    simp only [Covers, hbs]

theorem cover_right (hbd : Bounded B addr size) : blockCover (opt q) a =
    if addr + size ≤ a ∧ a < q.elim (addr + size) Block.stop then 1 else 0 := by
  cases hq : q with
  | none =>
    rw [opt, Option.elim_none, blockCover, cover_zero, Option.elim_none, if_neg (by omega)]
  | some c =>
    have hle := hv.le
    have hend := h.lt_of_succ hv hbd hq
    obtain ⟨-, hca⟩ := h.succ_addr hv hend hq
    rw [opt, Option.elim_some, Option.elim_some, blockCover, ← Multiset.cons_zero, cover_cons,
      cover_zero, Nat.add_zero]
    simp only [Covers, hca]

/-- Where the new block stops. -/
theorem le_right (hbd : Bounded B addr size) : addr + size ≤ q.elim (addr + size) Block.stop ∧
    q.elim (addr + size) Block.stop ≤ 2 ^ 64 := by
  have hle := hv.le
  cases hq : q with
  | none => exact ⟨le_rfl, hle⟩
  | some c =>
    have hcB := h.mem_right (Multiset.mem_add.mpr (.inl (mem_opt.mpr hq)))
    have hval := hv.sane.valid c hcB
    have hend := h.lt_of_succ hv hbd hq
    have := (h.succ_addr hv hend hq).2
    have := hval.lt_stop
    exact ⟨by simp only [Option.elim_some]; omega, hval.stop_le⟩

end Merges

/-- `add_range` adds the addresses of the range, and nothing else. The
new block takes the place of free blocks next to the range. -/
structure Adds (B B' : Multiset Block) (addr size : Nat) : Prop where
  sane : Sane B'
  cover : ∀ a, blockCover B' a = blockCover B a + if addr ≤ a ∧ a < addr + size then 1 else 0
  merged : ∃ b C, B' = b ::ₘ C ∧ C ≤ B ∧ b.used = false ∧ b.addr ≤ addr ∧ addr + size ≤ b.stop ∧
    ∀ c ∈ B, c ∈ C ∨ (c.used = false ∧ (c.stop = addr ∨ c.addr = addr + size))

theorem Merges.adds (h : Merges B addr size p q C) (hv : Vacant B addr size)
    (hbd : Bounded B addr size) : Adds B (grown addr size p q ::ₘ C) addr size := by
  have hpos := hv.pos
  have hl := h.left_le hv
  obtain ⟨hr, hr'⟩ := h.le_right hv hbd
  have hlt : p.elim addr Block.addr < q.elim (addr + size) Block.stop := by omega
  have hCB : C ≤ B := by
    rw [h.blocks]
    exact (Multiset.le_add_left C _).trans (Multiset.le_add_left _ _)
  have hcov : ∀ a, blockCover (grown addr size p q ::ₘ C) a =
      blockCover B a + if addr ≤ a ∧ a < addr + size then 1 else 0 := by
    intro a
    have h₁ : cover Covers (opt p) a = _ := h.cover_left hv
    have h₂ : cover Covers (opt q) a = _ := h.cover_right hv hbd
    rw [h.grown_eq hv hbd, blockCover, cover_cons, cover_range hlt hr']
    rw [h.blocks, blockCover, cover_add, cover_add, h₁, h₂]
    split_ifs <;> omega
  refine ⟨⟨?_, fun a => ?_⟩, hcov, grown addr size p q, C, rfl, hCB, rfl, ?_, ?_, ?_⟩
  · intro b hb
    rcases Multiset.mem_cons.mp hb with rfl | hb
    · rw [h.grown_eq hv hbd]
      exact valid_range hlt hr' (by simp)
    · exact hv.sane.valid b (Multiset.mem_of_le hCB hb)
  · -- the addresses of the range were those of no block
    have := hcov a
    have hap := hv.sane.apart a
    unfold blockCover at *
    rw [this]
    split
    · next ha =>
      have h0 : cover Block.Covers B a = 0 := by
        refine cover_eq_zero.mpr fun b hb hc => ?_
        have := hv.vacant b hb (by have := hc.1; omega)
        have := hc.2
        omega
      omega
    · omega
  · exact hl
  · rw [h.grown_eq hv hbd, stop_range hlt hr']
    exact hr
  · intro c hc
    rw [h.blocks] at hc
    rcases Multiset.mem_add.mp hc with hcp | hc
    · obtain ⟨hu, hstop, -⟩ := h.pred_stop hv (mem_opt.mp hcp)
      exact .inr ⟨hu, .inl hstop⟩
    rcases Multiset.mem_add.mp hc with hcq | hcC
    · have hq := mem_opt.mp hcq
      have hle := hv.le
      have hend := h.lt_of_succ hv hbd hq
      obtain ⟨hu, hca⟩ := h.succ_addr hv hend hq
      exact .inr ⟨hu, .inr hca⟩
    · exact .inl hcC

/-- Otherwise the new block swallows the block at address 0, whose addresses are lost. -/
theorem Merges.loses (h : Merges B addr size p q C) (hv : Vacant B addr size)
    (hbd : ¬ Bounded B addr size) :
    0 < blockCover B 0 ∧ blockCover (grown addr size p q ::ₘ C) 0 = 0 := by
  have hlt := hv.lt
  simp only [Bounded, not_forall] at hbd
  obtain ⟨hend, c, hc, hu, hc0, hstop⟩ := hbd
  have hcov : c.Covers 0 := ⟨hc0.le, hc0 ▸ (hv.sane.valid c hc).lt_stop⟩
  have hbehind : behind addr size p = 0 := by rw [h.behind_eq hv, hend, Nat.mod_self]
  have hcp : c ∉ opt p := by
    intro hp
    exact hstop (h.pred_stop hv (mem_opt.mp hp)).2.1
  have hcq : c ∈ opt q + C := by
    rw [h.blocks, Multiset.mem_add] at hc
    exact hc.resolve_left hcp
  have hqc : q = some c := by
    cases hq : q with
    | none =>
      have := h.succ_none hq (h.sane_right hv) c hcq (hbehind ▸ hcov)
      simp [this] at hu
    | some d =>
      have hdB := h.mem_right (Multiset.mem_add.mpr (.inl (mem_opt.mpr hq)))
      have hd := (h.succ d hq).2
      rw [hbehind, hits_address (hv.sane.valid d hdB) (by omega)] at hd
      rw [hv.sane.apart.eq hdB hc hd hcov]
  refine ⟨cover_pos.mpr ⟨c, hc, hcov⟩, ?_⟩
  have hap := hv.sane.apart
  rw [h.blocks, hqc, opt, opt, Option.elim_some, Multiset.singleton_add] at hap
  have hright : ∀ d ∈ C, ¬ d.Covers 0 := fun d hd =>
    (hap.le (Multiset.le_add_left _ _)).rest hcov hd
  rw [blockCover, cover_cons, if_neg, cover_eq_zero.mpr hright]
  -- the new block starts behind address 0
  intro hg
  have hg0 : p.elim addr Block.addr = 0 := Nat.le_zero.mp hg.1
  cases hp : p with
  | none =>
    rw [hp, Option.elim_none] at hg0
    omega
  | some b =>
    rw [hp, Option.elim_some] at hg0
    have hbB := h.mem_left hp
    have hbc : b.Covers 0 := ⟨hg0.le, hg0 ▸ (hv.sane.valid b hbB).lt_stop⟩
    exact hcp (mem_opt.mpr (hp.trans (congrArg some (hv.sane.apart.eq hbB hc hbc hcov))))

/-! ## Ranges that are cut out of a block -/

theorem cover_pieces (hb : b.Valid) (hn : 0 < n) (ha : b.addr ≤ addr) (hs : addr + n ≤ b.stop) :
    blockCover (b.pieces addr n) a + (if addr ≤ a ∧ a < addr + n then 1 else 0) =
      if b.Covers a then 1 else 0 := by
  have hle := hb.stop_le
  have h₁ : cover Covers (gap b.addr addr) a = _ := cover_gap (by omega)
  have h₂ : cover Covers (gap (addr + n) b.stop) a = _ := cover_gap hle
  rw [pieces_eq hb ha hn hs, blockCover, cover_add, h₁, h₂]
  change _ = if b.addr ≤ a ∧ a < b.stop then 1 else 0
  split_ifs <;> omega

theorem cover_cut (hb : b.Valid) (hn : 0 < n) (ha : b.addr ≤ addr) (hs : addr + n ≤ b.stop) :
    blockCover (b.pieces addr n + C) a + (if addr ≤ a ∧ a < addr + n then 1 else 0) =
      blockCover (b ::ₘ C) a := by
  have h : cover Covers (b.pieces addr n) a + _ = _ := cover_pieces hb hn ha hs
  rw [blockCover, blockCover, cover_add, cover_cons, ← h]
  omega

/-- What is left of a block and the others are apart. -/
theorem sane_cut (h : Sane (b ::ₘ C)) (hn : 0 < n) (ha : b.addr ≤ addr) (hs : addr + n ≤ b.stop) :
    Sane (b.pieces addr n + C) := by
  have hb := h.valid_head
  have hle := hb.stop_le
  refine h.of_cover (fun c hc => ?_) fun a => ?_
  · rw [pieces_eq hb ha hn hs, Multiset.mem_add, Multiset.mem_add] at hc
    rcases hc with (hc | hc) | hc
    · exact valid_of_mem_gap (by omega) hc
    · exact valid_of_mem_gap hle hc
    · exact h.of_cons.valid c hc
  · rw [← cover_cut hb hn ha hs]
    exact Nat.le_add_right _ _

theorem range_of_size (hn : n < 2 ^ 64) {u : Bool} : (⟨addr, n, u⟩ : Block) = range addr (addr + n) u := by
  rw [range, Nat.add_sub_cancel_left, Nat.mod_eq_of_lt hn]

/-- An allocation does not change which addresses there are. -/
theorem cover_allocated (hb : b.Valid) (hlt : n < 2 ^ 64) (ho : b.Offers addr n beg fin) :
    blockCover (⟨addr, n, true⟩ ::ₘ (b.pieces addr n + C)) a = blockCover (b ::ₘ C) a := by
  have hle := hb.stop_le
  have hpos := ho.pos
  have hstop := ho.le_stop
  have h : cover Covers (b.pieces addr n + C) a + _ = _ := cover_cut hb ho.pos ho.addr_le ho.le_stop
  rw [range_of_size hlt, blockCover, cover_cons, cover_range (by omega) (by omega), Nat.add_comm]
  exact h

theorem sane_allocated (h : Sane (b ::ₘ C)) (hlt : n < 2 ^ 64) (ho : b.Offers addr n beg fin) :
    Sane (⟨addr, n, true⟩ ::ₘ (b.pieces addr n + C)) := by
  have hle := h.valid_head.stop_le
  have hpos := ho.pos
  have hstop := ho.le_stop
  refine h.of_cover (fun c hc => ?_) fun a => (cover_allocated h.valid_head hlt ho).le
  rcases Multiset.mem_cons.mp hc with rfl | hc
  · rw [range_of_size hlt]
    exact valid_range (by omega) (by omega) fun _ => by omega
  · exact (sane_cut h ho.pos ho.addr_le ho.le_stop).valid c hc

/-! ## Ranges that are removed -/

/-- The block and the range have an address in common. -/
def Meets (addr size : Nat) (b : Block) : Prop := b.addr < addr + size ∧ addr < b.stop

instance : DecidablePred (Meets addr size) := fun _ => inferInstanceAs (Decidable (_ ∧ _))

/-- Addresses were removed from the range only, and none of a used block. -/
structure Removes (B B' : Multiset Block) (addr size : Nat) : Prop where
  sane : Sane B'
  cover_le : ∀ a, blockCover B' a ≤ blockCover B a
  outside : ∀ a, ¬ (addr ≤ a ∧ a < addr + size) → blockCover B' a = blockCover B a
  used : ∀ b, b.used = true → (b ∈ B' ↔ b ∈ B)

theorem Removes.refl (h : Sane B) : Removes B B addr size :=
  ⟨h, fun _ => le_rfl, fun _ _ => rfl, fun _ _ => Iff.rfl⟩

theorem Removes.trans (h : Removes B C addr size) (h' : Removes C R addr size) :
    Removes B R addr size :=
  ⟨h'.sane, fun a => (h'.cover_le a).trans (h.cover_le a),
    fun a ha => (h'.outside a ha).trans (h.outside a ha),
    fun b hb => (h'.used b hb).trans (h.used b hb)⟩

/-- What one round cuts out of a block that the range meets. -/
theorem round_eq (hb : b.Valid) (hav : b.avail ≠ 0) (hs : 0 < size) (hle : addr + size ≤ 2 ^ 64)
    (hm : Meets addr size b) :
    add64 (sub64 (min (sub64 (add64 addr size) 1) b.last) (max addr b.addr)) 1 =
      min (addr + size) b.stop - max addr b.addr ∧ b.used = false := by
  have h₁ := hb.lt_stop
  have h₂ := hb.stop_le
  have h₃ := hb.size_lt
  have hu : b.used = false := by
    by_contra hc
    simp [avail, hc] at hav
  rw [avail, hu, if_neg (by simp)] at hav
  have hstop : b.stop = b.addr + b.size := stop_eq (by omega)
  obtain ⟨hm₁, hm₂⟩ := hm
  refine ⟨?_, hu⟩
  rw [last_eq hs hle, hb.last_eq, sub64_eq (by omega) (by omega), add64_eq (by omega)]
  omega

theorem Removes.round (h : Sane (b ::ₘ C)) (hav : b.avail ≠ 0) (hs : 0 < size)
    (hle : addr + size ≤ 2 ^ 64) (hm : Meets addr size b) :
    Removes (b ::ₘ C) (b.pieces (max addr b.addr) (min (addr + size) b.stop - max addr b.addr) + C)
        addr size ∧
      (b.pieces (max addr b.addr) (min (addr + size) b.stop - max addr b.addr) + C).countP
        (Meets addr size) < (b ::ₘ C).countP (Meets addr size) := by
  have hb := h.valid_head
  have hstop := hb.stop_le
  have hlt := hb.lt_stop
  obtain ⟨-, hu⟩ := round_eq hb hav hs hle hm
  have hm₁ := hm.1
  have hm₂ := hm.2
  have hn : 0 < min (addr + size) b.stop - max addr b.addr := by omega
  have ha : b.addr ≤ max addr b.addr := le_max_right _ _
  have hend : max addr b.addr + (min (addr + size) b.stop - max addr b.addr) ≤ b.stop := by omega
  have hcov := fun a => cover_cut (C := C) (a := a) hb hn ha hend
  refine ⟨⟨sane_cut h hn ha hend, fun a => ?_, fun a hout => ?_, fun c hc => ?_⟩, ?_⟩
  · rw [← hcov a]
    exact Nat.le_add_right _ _
  · rw [← hcov a, if_neg (by omega), Nat.add_zero]
  · -- neither the block nor what is left of it is used
    rw [pieces_eq hb ha hn hend, Multiset.mem_cons, Multiset.mem_add, Multiset.mem_add, mem_gap,
      mem_gap]
    constructor
    · rintro ((⟨-, rfl⟩ | ⟨-, rfl⟩) | hcC)
      · simp at hc
      · simp at hc
      · exact .inr hcC
    · rintro (rfl | hcC)
      · simp [hu] at hc
      · exact .inr hcC
  · have hzero : (b.pieces (max addr b.addr) (min (addr + size) b.stop - max addr b.addr)).countP
        (Meets addr size) = 0 := by
      rw [Multiset.countP_eq_zero, pieces_eq hb ha hn hend]
      intro c hc hmc
      rw [Multiset.mem_add, mem_gap, mem_gap] at hc
      rcases hc with ⟨hlt', rfl⟩ | ⟨hlt', rfl⟩
      · rw [Meets, stop_range hlt' (by omega), addr_range] at hmc
        omega
      · rw [Meets, addr_range] at hmc
        omega
    rw [Multiset.countP_add, hzero, Multiset.countP_cons_of_pos _ hm]
    omega

namespace Holds

/-- The rounds of `remove_range` end, and what each round keeps is kept. -/
theorem removeRangeLoop_rounds {P : Multiset Block → Prop}
    (hround : ∀ b C, Sane (b ::ₘ C) → b.avail ≠ 0 → Meets addr size b → P (b ::ₘ C) →
      P (b.pieces (max addr b.addr) (min (addr + size) b.stop - max addr b.addr) + C))
    (h : Holds D root X B m s) (hB : Sane B) (hP : P B) (hs : 0 < size)
    (hle : addr + size ≤ 2 ^ 64) (hn : B.countP (Meets addr size) < n) :
    ∃ r X' B' m' s', AllocatorAvl.removeRangeLoop root D.mdAlloc addr size n s = .ok (r, s') ∧
      Holds D root X' B' m' s' ∧ Removes B B' addr size ∧ P B' ∧
      (r = .ok () → ∀ b ∈ B', ¬ Meets addr size b) := by
  induction n generalizing X B m s with
  | zero => omega
  | succ n ih =>
    have hlast : addr ≤ lastOf addr size := by
      rw [lastOf_eq hs hle]
      omega
    rcases h.removeRangeLoop addr size n with hover | hcut
    · obtain ⟨r, m', s', hr, h', hno⟩ := hover
      refine ⟨r, X, B, m', s', hr, h', .refl hB, hP, fun hok b hb hm => ?_⟩
      exact hno hok hB hlast b hb ((hits_overlap (hB.valid b hb) hs hle).mpr hm)
    · obtain ⟨b, C, X', m', s', rfl, hav, hh, h', hr⟩ := hcut
      have hm : Meets addr size b := (hits_overlap hB.valid_head hs hle).mp hh
      rw [(round_eq hB.valid_head hav hs hle hm).1] at h'
      obtain ⟨hrem, hcount⟩ := Removes.round hB hav hs hle hm
      obtain ⟨r, X₂, B₂, m₂, s₂, hr₂, h₂, hrem₂, hP₂, hok⟩ :=
        ih h' hrem.sane (hround b C hB hav hm hP) (by omega)
      exact ⟨r, X₂, B₂, m₂, s₂, hr.trans hr₂, h₂, hrem.trans hrem₂, hP₂, hok⟩

theorem card_le (h : Holds D root X B m s) : B.card ≤ Fintype.card ι := by
  rw [← h.content, Multiset.card_map]
  exact Finset.card_le_univ X

theorem removeRange_rounds {P : Multiset Block → Prop}
    (hround : ∀ b C, Sane (b ::ₘ C) → b.avail ≠ 0 → Meets addr size b → P (b ::ₘ C) →
      P (b.pieces (max addr b.addr) (min (addr + size) b.stop - max addr b.addr) + C))
    (h : Holds D root X B m s) (hB : Sane B) (hP : P B) (hle : addr + size ≤ 2 ^ 64) :
    ∃ r X' B' m' s', s.removeRange root D.mdAlloc addr size = .ok (r, s') ∧
      Holds D root X' B' m' s' ∧ Removes B B' addr size ∧ P B' ∧
      (r = .ok () → ∀ b ∈ B', ¬ Meets addr size b) := by
  by_cases hs : size = 0
  · refine ⟨.error .denied, X, B, m, s, ?_, h, .refl hB, hP, by simp⟩
    rw [AllocatorAvl.removeRange, if_pos hs]
  · have hn : B.countP (Meets addr size) < Fintype.card ι + 1 :=
      Nat.lt_succ_of_le ((Multiset.countP_le_card _ _).trans h.card_le)
    obtain ⟨r, X', B', m', s', hr, h', hrem, hP', hok⟩ :=
      h.removeRangeLoop_rounds hround hB hP (Nat.pos_of_ne_zero hs) hle hn
    refine ⟨r, X', B', m', s', ?_, h', hrem, hP', hok⟩
    rw [AllocatorAvl.removeRange, if_neg hs, hr]

theorem removeRange_removes (h : Holds D root X B m s) (hB : Sane B) (hle : addr + size ≤ 2 ^ 64) :
    ∃ r X' B' m' s', s.removeRange root D.mdAlloc addr size = .ok (r, s') ∧
      Holds D root X' B' m' s' ∧ Removes B B' addr size := by
  obtain ⟨r, X', B', m', s', hr, h', hrem, -⟩ :=
    h.removeRange_rounds (P := fun _ => True) (fun _ _ _ _ _ _ => trivial) hB trivial hle
  exact ⟨r, X', B', m', s', hr, h', hrem⟩

end Holds

end Genode.Base
