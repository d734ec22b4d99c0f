import Mathlib.Algebra.BigOperators.Group.Multiset.Defs
import Genode.Base.AllocatorRuns

/-!
# AllocatorCalls — allocations that succeed, fail or are undone

What a caller may rely on in a single call. A successful allocation is
inside of a free block. A call that fails leaves the blocks and the
metadata allocator as they were, as long as an entry that goes back to
the metadata allocator can be had again at once. And `free` undoes an
allocation, unless it merges what was not one block before. The metadata
allocator is apart from the allocator: its calls do not come back to it.
-/

namespace Genode.Base

open BinaryTree Block Lib Lib.LinkedTree Util

variable {ι μ : Type} [DecidableEq ι] [Fintype ι] {D : Md ι μ} {root x y : ι} {X : Finset ι}
  {B B' C R : Multiset Block} {m m' : μ} {s s' : AllocatorAvl ι μ} {b c : Block} {p q : Option Block}
  {addr size align beg fin a n lo hi : Nat} {t : BinaryTree ι}

/-! ## Allocations that succeed -/

/-- What `_fits` says of a free block is right. -/
def FitsRight (B : Multiset Block) (n align beg fin : Nat) : Prop :=
  ∀ b ∈ B, b.used = false → b.fits n align beg fin = true → b.Offers (b.place align beg) n beg fin

/-- The range at `a` is inside of the free block that it was cut out of. -/
def Inside (D : Md ι μ) (root : ι) (B : Multiset Block) (a n beg fin : Nat)
    (s' : AllocatorAvl ι μ) : Prop :=
  ∃ b ∈ B, b.used = false ∧ b.Offers a n beg fin ∧
    ∃ X m, Holds D root X (⟨a, n, true⟩ ::ₘ (b.pieces a n + B.erase b)) m s'

theorem inside_of_fitsRight (h : Holds D root X B m s) (hf : FitsRight B n align beg fin)
    (hs : s.allocAligned root D.mdAlloc n align beg fin = .ok (.ok a, s')) :
    Inside D root B a n beg fin s' := by
  rcases h.allocAligned n align beg fin with hr | hok | herr
  · obtain ⟨e, m₁, s₁, hs₁, -⟩ := hr
    simp [hs₁] at hs
  · obtain ⟨b, C, X₁, m₁, s₁, hs₁, rfl, hu, hfit, h₁⟩ := hok
    obtain ⟨rfl, rfl⟩ : b.place align beg = a ∧ s₁ = s' := by simpa [hs₁] using hs
    have hb : b ∈ b ::ₘ C := Multiset.mem_cons_self b C
    refine ⟨b, hb, hu, hf b hb hu hfit, X₁, m₁, ?_⟩
    rwa [Multiset.erase_cons_head]
  · obtain ⟨-, e, b, C, X₁, m₁, s₁, hs₁, -⟩ := herr
    simp [hs₁] at hs

/-- The fit check is right, and so a successful allocation is inside of
a free block and of the requested range, exactly if no block at address
0 passes the check with sums that wrap around. -/
theorem alloc_aligned_inside_iff (h : Holds D root X B m s) (hB : Sane B) (hn : n < 2 ^ 64)
    (hbeg : beg < 2 ^ 64) :
    (FitsRight B n align beg fin ∧
      ∀ a s', s.allocAligned root D.mdAlloc n align beg fin = .ok (.ok a, s') →
        Inside D root B a n beg fin s') ↔
    ∀ b ∈ B, b.used = false → b.addr = 0 → b.fits n align beg fin = true →
      b.Unwrapped n align beg := by
  have hiff : FitsRight B n align beg fin ↔ ∀ b ∈ B, b.used = false → b.addr = 0 →
      b.fits n align beg fin = true → b.Unwrapped n align beg := by
    constructor
    · intro hf b hb hu h0 hfit
      exact (offers_iff (hB.valid b hb) hu hn hbeg hfit).mp (hf b hb hu hfit) h0
    · intro hw b hb hu hfit
      exact (offers_iff (hB.valid b hb) hu hn hbeg hfit).mpr fun h0 => hw b hb hu h0 hfit
  rw [← hiff]
  exact and_iff_left_of_imp fun hf a s' hs => inside_of_fitsRight h hf hs

/-- An allocation of a page at an aligned address, from a block that starts at address 0. -/
theorem alloc_aligned_inside_first_block :
    ∃ (s : AllocatorAvl (Fin 8) (Finset (Fin 8))) (B : Multiset Block),
      (∃ b ∈ B, b.addr = 0) ∧
      ((FitsRight B 0x1000 12 0x1800 0xffff ∧
        ∀ a s', s.allocAligned 0 (stock 8).mdAlloc 0x1000 12 0x1800 0xffff = .ok (.ok a, s') →
          Inside (stock 8) 0 B a 0x1000 0x1800 0xffff s') ↔
      ∀ b ∈ B, b.used = false → b.addr = 0 → b.fits 0x1000 12 0x1800 0xffff = true →
        b.Unwrapped 0x1000 12 0x1800) := by
  obtain ⟨hist, s, h, hL⟩ := exists_run 8 [.addRange 0 0x8000]
    (p := fun r => r.2.blockList 0 = [⟨0, 0x8000, false⟩]) (by decide +kernel)
  obtain ⟨X, B, m, hH, hB⟩ := sane_of_run h
  refine ⟨s, B, ⟨⟨0, 0x8000, false⟩, ?_, rfl⟩, alloc_aligned_inside_iff hH hB (by omega) (by omega)⟩
  rw [← hH.coe_blockList, hL]
  exact Multiset.mem_coe.mpr (List.mem_singleton_self _)

/-- The whole rest of the address space is allocated from a block of one page. -/
theorem alloc_aligned_outside :
    ∃ (s s' : AllocatorAvl (Fin 8) (Finset (Fin 8))) (X : Finset (Fin 8)) (B : Multiset Block)
      (m : Finset (Fin 8)) (a : Nat), Holds (stock 8) 0 X B m s ∧ Sane B ∧
      s.allocAligned 0 (stock 8).mdAlloc (2 ^ 64 - 0x1000) 0 0x1000 (2 ^ 64 - 1) = .ok (.ok a, s') ∧
      ¬ ∃ b ∈ B, b.used = false ∧ b.Offers a (2 ^ 64 - 0x1000) 0x1000 (2 ^ 64 - 1) := by
  obtain ⟨hist, s, h, hL, hrun⟩ := exists_run 8 [.addRange 0 0x1000]
    (p := fun r => r.2.blockList 0 = [⟨0, 0x1000, false⟩] ∧ (do
      let t ← r.2.allocAligned 0 (stock 8).mdAlloc (2 ^ 64 - 0x1000) 0 0x1000 (2 ^ 64 - 1)
      .ok t.1 : Exec (Except AllocError Nat)) = .ok (.ok 0x1000)) (by decide +kernel)
  obtain ⟨X, B, m, hH, hB⟩ := sane_of_run h
  obtain ⟨⟨r, s'⟩, hs', hrun⟩ := Exec.bind_eq_ok.mp hrun
  obtain rfl : r = .ok 0x1000 := by simpa using hrun
  refine ⟨s, s', X, B, m, _, hH, hB, hs', ?_⟩
  rw [← hH.coe_blockList, hL]
  rintro ⟨b, hb, -, ho⟩
  obtain rfl := List.mem_singleton.mp (Multiset.mem_coe.mp hb)
  exact absurd ho.le_stop (by decide)

/-! ## Calls that fail -/

/-- The blocks are the same, and the same entries are taken from the metadata allocator. -/
structure Unchanged (D : Md ι μ) (root : ι) (s s' : AllocatorAvl ι μ) : Prop where
  blocks : ∃ L L', s.blocks root = .ok L ∧ s'.blocks root = .ok L' ∧ L'.Perm L
  taken : D.taken s'.md = D.taken s.md

theorem unchanged_of_refused {α : Type} {r : Exec (Except AllocError α × AllocatorAvl ι μ)}
    (h : Holds D root X B m s) (hr : Refused D root X B m r) :
    ∃ e s', r = .ok (.error e, s') ∧ Unchanged D root s s' := by
  obtain ⟨e, m', s', rfl, ht, h'⟩ := hr
  obtain ⟨L, hL, hLB, -⟩ := h.blocks
  obtain ⟨L', hL', hLB', -⟩ := h'.blocks
  refine ⟨e, s', rfl, ⟨L, L', hL, hL', ?_⟩, ?_⟩
  · rw [← Multiset.coe_eq_coe, hLB, hLB']
  · rw [h.md, h'.md, ht]

/-- If the metadata allocator can hand out again what it just got back,
then each call returns, and one that fails changes neither the blocks
nor what is taken from the metadata allocator. No entry goes back twice,
because the metadata allocator faults then. -/
theorem unchanged_of_error (hp : D.Prompt) (h : Holds D root X B m s) :
    (∀ size align beg fin, ∃ r s', s.allocAligned root D.mdAlloc size align beg fin = .ok (r, s') ∧
      ∀ e, r = .error e → Unchanged D root s s') ∧
    (∀ size addr, addr < 2 ^ 64 → ∃ r s', s.allocAddr root D.mdAlloc size addr = .ok (r, s') ∧
      ∀ e, r = .error e → Unchanged D root s s') ∧
    ∀ addr size, ∃ r s', s.addRange root D.mdAlloc addr size = .ok (r, s') ∧
      ∀ e, r = .error e → Unchanged D root s s' := by
  refine ⟨fun size align beg fin => ?_, fun size addr ha => ?_, fun addr size => ?_⟩
  · rcases h.allocAligned size align beg fin with hr | hok | herr
    · obtain ⟨e, s', hs, hun⟩ := unchanged_of_refused h hr
      exact ⟨.error e, s', hs, fun _ _ => hun⟩
    · obtain ⟨b, C, X', m', s', hs, -⟩ := hok
      exact ⟨.ok _, s', hs, by simp⟩
    · exact absurd hp herr.1
  · rcases h.allocAddr ha size with hr | hok | herr
    · obtain ⟨e, s', hs, hun⟩ := unchanged_of_refused h hr
      exact ⟨.error e, s', hs, fun _ _ => hun⟩
    · obtain ⟨b, C, X', m', s', hs, -⟩ := hok
      exact ⟨.ok _, s', hs, by simp⟩
    · exact absurd hp herr.1
  · rcases h.addRange addr size with ⟨hr, -⟩ | hok
    · obtain ⟨e, s', hs, hun⟩ := unchanged_of_refused h hr
      exact ⟨.error e, s', hs, fun _ _ => hun⟩
    · obtain ⟨p, q, C, X', m', s', hs, -⟩ := hok
      exact ⟨.ok _, s', hs, by simp⟩

/-- An allocation for which the second of two entries is not to be had. -/
theorem unchanged_of_error_out_of_ram :
    ∃ (s : AllocatorAvl (Fin 3) (Finset (Fin 3))) (e : AllocError) (s' : _),
      s.allocAligned 0 (stock 3).mdAlloc 0x100 0 0 (2 ^ 64 - 1) = .ok (.error e, s') ∧
      (∃ L, s.blocks 0 = .ok L ∧ L ≠ []) ∧ Unchanged (stock 3) 0 s s' := by
  obtain ⟨hist, s, h, hL, hrun⟩ := exists_run 3 [.addRange 0x1000 0x1000]
    (p := fun r => r.2.blocks 0 = .ok [⟨0x1000, 0x1000, false⟩] ∧ (do
      let t ← r.2.allocAligned 0 (stock 3).mdAlloc 0x100 0 0 (2 ^ 64 - 1)
      .ok t.1 : Exec (Except AllocError Nat)) = .ok (.error .outOfRam)) (by decide +kernel)
  obtain ⟨X, B, m, hH, -⟩ := sane_of_run h
  obtain ⟨⟨r, s'⟩, hs', hrun⟩ := Exec.bind_eq_ok.mp hrun
  obtain rfl : r = .error .outOfRam := by simpa using hrun
  obtain ⟨r, s₁, hs₁, hun⟩ :=
    (unchanged_of_error (stock_prompt 3) hH).1 0x100 0 0 (2 ^ 64 - 1)
  have heq := hs'.symm.trans hs₁
  obtain ⟨rfl, rfl⟩ : .error .outOfRam = r ∧ s' = s₁ := by simpa using heq
  exact ⟨s, .outOfRam, s', hs', ⟨_, hL, by simp⟩, hun _ rfl⟩

/-! ## Allocations that are undone -/

/-- No free block starts where another one stops. -/
def NoNeighbours (B : Multiset Block) : Prop :=
  ∀ b ∈ B, ∀ c ∈ B, b.used = false → c.used = false → b.stop ≠ c.addr

/-- No block is at either end of the address space. -/
def Inner (B : Multiset Block) : Prop := ∀ b ∈ B, 0 < b.addr ∧ b.stop < 2 ^ 64

omit [DecidableEq ι] [Fintype ι] in
theorem inner_iff (hB : ∀ b ∈ B, b.Valid) :
    Inner B ↔ blockCover B 0 = 0 ∧ blockCover B (2 ^ 64 - 1) = 0 := by
  have hc : ∀ a, blockCover B a = 0 ↔ ∀ b ∈ B, ¬ b.Covers a := fun a => cover_eq_zero
  rw [hc, hc]
  constructor
  · intro h
    refine ⟨fun b hb hcov => ?_, fun b hb hcov => ?_⟩
    · have := (h b hb).1
      exact absurd hcov.1 (by omega)
    · have := (h b hb).2
      exact absurd hcov.2 (by omega)
  · intro h b hb
    have hv := hB b hb
    have h₁ := hv.lt_stop
    have h₂ := hv.stop_le
    have h₃ := h.1 b hb
    have h₄ := h.2 b hb
    rw [Covers] at h₃ h₄
    omega

omit [DecidableEq ι] [Fintype ι] in
/-- What is merged on the left of a range is what is free there. -/
theorem Merges.opt_left (h : Merges B addr size p q C) (hv : Vacant B addr size) (hle : lo ≤ addr)
    (hb : lo < addr → range lo addr false ∈ B)
    (hno : lo = addr → ∀ b ∈ B, b.used = false → b.stop ≠ addr) : opt p = gap lo addr := by
  have hend := hv.le
  have hstop : lo < addr → (range lo addr false).stop = addr :=
    fun hlt => stop_range hlt (by omega)
  cases hp : p with
  | none =>
    have hnlt : ¬ lo < addr := by
      intro hlt
      have := h.pred_used hv hp (hb hlt) (hstop hlt)
      simp at this
    rw [opt, Option.elim_none, gap, if_neg hnlt]
  | some c =>
    obtain ⟨hu, hcs, hca, -⟩ := h.pred_stop hv hp
    have hcB := h.mem_left hp
    have hlt : lo < addr := by
      by_contra hc
      exact hno (by omega) c hcB hu hcs
    have hcov : c.Covers (addr - 1) := by
      rw [Covers]
      omega
    have hrange : (range lo addr false).Covers (addr - 1) := by
      rw [Covers, hstop hlt, addr_range]
      omega
    rw [opt, Option.elim_some, gap, if_pos hlt, hv.sane.apart.eq hcB (hb hlt) hcov hrange]

omit [DecidableEq ι] [Fintype ι] in
theorem Merges.opt_right (h : Merges B addr size p q C) (hv : Vacant B addr size)
    (hle : addr + size ≤ hi) (hhi : hi < 2 ^ 64)
    (hb : addr + size < hi → range (addr + size) hi false ∈ B)
    (hno : hi = addr + size → ∀ b ∈ B, b.used = false → b.addr ≠ addr + size) :
    opt q = gap (addr + size) hi := by
  cases hq : q with
  | none =>
    have hnlt : ¬ addr + size < hi := by
      intro hlt
      have := h.succ_used hv (by omega) hq (hb hlt) rfl
      simp at this
    rw [opt, Option.elim_none, gap, if_neg hnlt]
  | some c =>
    obtain ⟨hu, hca⟩ := h.succ_addr hv (by omega) hq
    have hcB := h.mem_right (Multiset.mem_add.mpr (.inl (mem_opt.mpr hq)))
    have hlt : addr + size < hi := by
      by_contra hc
      exact hno (by omega) c hcB hu hca
    have hcov : c.Covers (addr + size) := hca ▸ (hv.sane.valid c hcB).covers_addr
    have hrange : (range (addr + size) hi false).Covers (addr + size) := by
      rw [Covers, stop_range hlt (by omega), addr_range]
      omega
    rw [opt, Option.elim_some, gap, if_pos hlt, hv.sane.apart.eq hcB (hb hlt) hcov hrange]

/-- A range that was just allocated goes back to the block that it came from. -/
theorem free_allocated (hp : D.Prompt) (hB : Sane (b ::ₘ C)) (hin : Inner (b ::ₘ C))
    (hno : NoNeighbours (b ::ₘ C)) (hu : b.used = false) (hn : n < 2 ^ 64)
    (ho : b.Offers a n beg fin) (h : Holds D root X (⟨a, n, true⟩ ::ₘ (b.pieces a n + C)) m s) :
    ∃ X' m' s', s.free root D.mdAlloc a = .ok s' ∧ Holds D root X' (b ::ₘ C) m' s' := by
  have hval := hB.valid_head
  have hpos := ho.pos
  have hle := ho.addr_le
  have hstop := ho.le_stop
  have hbstop : b.stop < 2 ^ 64 := (hin b (Multiset.mem_cons_self b C)).2
  have hBa := sane_allocated hB hn ho
  have hnew : (⟨a, n, true⟩ : Block) ∈ (⟨a, n, true⟩ : Block) ::ₘ (b.pieces a n + C) :=
    Multiset.mem_cons_self _ _
  have hnewcov := (hBa.valid _ hnew).covers_addr
  have hpieces := pieces_eq hval hle hpos hstop
  rcases h.free a with ⟨-, hnone⟩ | hused
  · have := hnone hBa (by omega) _ hnew hnewcov
    simp at this
  obtain ⟨c, E, X₁, m₁, s₁, hBc, hcu, hh, h₁, hready, hs⟩ := hused
  -- the block that is found is the new one
  have hc : c ∈ (⟨a, n, true⟩ : Block) ::ₘ (b.pieces a n + C) := hBc ▸ Multiset.mem_cons_self c E
  have hce := hBa.apart.eq hc hnew ((hits_address (hBa.valid c hc) (by omega)).mp hh) hnewcov
  rw [hce] at hBc hs
  have hE : b.pieces a n + C = E := (Multiset.cons_inj_right _).mp hBc
  rw [← hE] at h₁
  have hsane : Sane (b.pieces a n + C) := sane_cut hB hpos hle hstop
  have hvac : Vacant (b.pieces a n + C) a n := by
    refine ⟨hsane, hpos, hn, by omega, fun d hd hda => ?_⟩
    by_contra hlt
    have hdv := (hsane.valid d hd).lt_stop
    -- an address that the new block covers as well
    have hrest := hBa.apart.rest (a := max a d.addr) (b := ⟨a, n, true⟩) ?_ hd
    · exact hrest ⟨le_max_right _ _, by omega⟩
    · refine ⟨le_max_left _ _, ?_⟩
      rw [stop_eq hpos]
      exact max_lt (by dsimp only; omega) hda
  rcases h₁.addRange a n with ⟨-, hwhy⟩ | hok
  · exfalso
    rcases hwhy with h0 | ⟨d, hd, hh⟩ | hnr
    · omega
    · rw [hits_overlap (hsane.valid d hd) hpos (by omega)] at hh
      have := hvac.vacant d hd hh.1
      omega
    · exact hnr (hready hp)
  obtain ⟨p, q, F, X₂, m₂, s₂, hs₂, -, -, -, hm, h₂⟩ := hok
  refine ⟨X₂, m₂, s₂, ?_, ?_⟩
  · rw [hs]
    simp only [hs₂, Exec.ok_bind]
  have hmem : ∀ {d}, d ∈ b.pieces a n + C ↔
      (b.addr < a ∧ d = range b.addr a false) ∨ (a + n < b.stop ∧ d = range (a + n) b.stop false) ∨
        d ∈ C := by
    intro d
    rw [hpieces, Multiset.mem_add, Multiset.mem_add, mem_gap, mem_gap, or_assoc]
  have hleft : opt p = gap b.addr a := by
    refine hm.opt_left hvac hle (fun hlt => hmem.mpr (.inl ⟨hlt, rfl⟩)) fun hlo d hd hdu hds => ?_
    rcases hmem.mp hd with ⟨hlt, -⟩ | ⟨hlt, rfl⟩ | hdC
    · omega
    · rw [stop_range hlt (by omega)] at hds
      omega
    · exact hno d (Multiset.mem_cons_of_mem hdC) b (Multiset.mem_cons_self b C) hdu hu (by omega)
  have hright : opt q = gap (a + n) b.stop := by
    refine hm.opt_right hvac hstop hbstop (fun hlt => hmem.mpr (.inr (.inl ⟨hlt, rfl⟩)))
      fun hhi d hd hdu hda => ?_
    rcases hmem.mp hd with ⟨hlt, rfl⟩ | ⟨hlt, -⟩ | hdC
    · rw [addr_range] at hda
      omega
    · omega
    · exact hno b (Multiset.mem_cons_self b C) d (Multiset.mem_cons_of_mem hdC) hu hdu (by omega)
  have hF : F = C := by
    have := hm.blocks
    rw [hleft, hright, ← add_assoc, ← hpieces] at this
    exact (add_left_cancel this).symm
  have hgrown : grown a n p q = b := by
    have hbd : Bounded (b.pieces a n + C) a n := fun hend => by omega
    rw [hm.grown_eq hvac hbd]
    have hlo : p.elim a Block.addr = b.addr := by
      cases hpe : p with
      | none =>
        rw [hpe, opt, Option.elim_none] at hleft
        rw [Option.elim_none]
        by_contra hne
        rw [gap, if_pos (by omega)] at hleft
        simp at hleft
      | some d =>
        have hd : d ∈ gap b.addr a := hleft ▸ mem_opt.mpr hpe
        rw [Option.elim_some, (mem_gap.mp hd).2, addr_range]
    have hhi : q.elim (a + n) Block.stop = b.stop := by
      cases hqe : q with
      | none =>
        rw [hqe, opt, Option.elim_none] at hright
        rw [Option.elim_none]
        by_contra hne
        rw [gap, if_pos (by omega)] at hright
        simp at hright
      | some d =>
        have hd : d ∈ gap (a + n) b.stop := hright ▸ mem_opt.mpr hqe
        rw [Option.elim_some, (mem_gap.mp hd).2, stop_range (mem_gap.mp hd).1 (by omega)]
    rw [hlo, hhi, ← hu]
    exact hval.range_eq
  rw [hgrown, hF] at h₂
  exact h₂

/-! ## The available memory -/

omit [DecidableEq ι] [Fintype ι] in
theorem availInSubtree_eq (hl : Linked s.nodes.child s.nodes.parent t) (hy : top t = some y)
    (hn : t.numNodes ≤ n) : s.availInSubtree n y =
      .ok (((inorder t).map fun x => (s.block x).avail).sum % 2 ^ 64) := by
  induction t generalizing y n with
  | nil => simp at hy
  | node z l r ihl ihr =>
    obtain rfl : z = y := by simpa using hy
    obtain ⟨hal, har, hll, hlr⟩ := hl
    obtain _ | n := n
    · simp at hn
    simp only [numNodes] at hn
    have hsub : ∀ {u : BinaryTree ι}, (∀ {c : ι}, top u = some c → s.availInSubtree n c =
        .ok (((inorder u).map fun x => (s.block x).avail).sum % 2 ^ 64)) →
        (top u).elim (.ok 0) (s.availInSubtree n) =
          .ok (((inorder u).map fun x => (s.block x).avail).sum % 2 ^ 64) := by
      intro u hu
      cases hc : top u with
      | none =>
        rw [top_eq_none.mp hc]
        rfl
      | some c => exact hu hc
    rw [AllocatorAvl.availInSubtree, hal.child_eq, har.child_eq,
      hsub fun hc => ihl hll hc (by omega), Exec.ok_bind, hsub fun hc => ihr hlr hc (by omega),
      Exec.ok_bind]
    simp only [inorder, List.map_append, List.map_cons, List.sum_append, List.sum_cons, add64]
    congr 1
    omega

/-- `avail` is the sum of the free blocks. -/
theorem Holds.avail_eq (h : Holds D root X B m s) :
    s.avail root = .ok ((B.map Block.avail).sum % 2 ^ 64) := by
  obtain ⟨t, ht⟩ := h.tree
  have hsum : (B.map Block.avail).sum = ((inorder t).map fun x => (s.block x).avail).sum := by
    rw [← h.content, val_eq_inorder ht, Multiset.map_map, Multiset.map_coe, Multiset.sum_coe]
    rfl
  rw [AllocatorAvl.avail, ht.isTree.attached.child_eq, hsum]
  cases hy : top t with
  | none =>
    rw [top_eq_none.mp hy]
    rfl
  | some y => exact availInSubtree_eq ht.isTree.linked hy (numNodes_le ht)

/-! ## Runs in the inner part of the address space -/

/-- An operation that adds no address at either end of the address space, and removes none. -/
def Op.Inner : Op → Prop
  | .addRange addr size => 0 < addr ∧ addr + size < 2 ^ 64
  | .removeRange _ _ => False
  | _ => True

instance : DecidablePred Op.Inner
  | .addRange _ _ => inferInstanceAs (Decidable (_ ∧ _))
  | .removeRange _ _ => inferInstanceAs (Decidable False)
  | .allocAligned _ _ _ _ => inferInstanceAs (Decidable True)
  | .allocAddr _ _ => inferInstanceAs (Decidable True)
  | .free _ => inferInstanceAs (Decidable True)

/-- Runs of operations away from both ends of the address space. -/
def InnerTrans (D : Md ι μ) (root : ι) : AllocatorAvl ι μ → Op → AllocatorAvl ι μ → Prop :=
  Guarded (fun _ op => op.InWord ∧ op.Inner) (exec D root)

omit [DecidableEq ι] [Fintype ι] in
theorem Inner.careful {op : Op} (hin : Inner B) (hB : Sane B) (hop : op.Inner) : op.Careful B := by
  cases op with
  | addRange addr size => exact ⟨hop.2.le, fun hend => absurd hend hop.2.ne⟩
  | removeRange addr size => exact hop.elim
  | allocAligned size align beg fin => exact fun b hb _ h0 => absurd h0 (hin b hb).1.ne'
  | allocAddr size addr => exact fun _ _ b hb _ => (hin b hb).1.ne'
  | free addr =>
    intro b hb hu _ hend
    have hstop : b.stop = b.addr + b.size := stop_eq ((hB.valid b hb).used hu)
    have := (hin b hb).2
    omega

theorem inner_of_run {hist : List (AllocatorAvl ι μ × Op)}
    (h : Run (Init D root) (InnerTrans D root) hist s) :
    ∃ X B m, Holds D root X B m s ∧ Sane B ∧ Inner B := by
  refine h.invariant (I := fun s => ∃ X B m, Holds D root X B m s ∧ Sane B ∧ Inner B) ?_ ?_
  · intro s hs
    exact ⟨∅, 0, s.md, holds_of_init hs, sane_zero, by simp [Inner]⟩
  · intro s op s' hI htr
    obtain ⟨X, B, m, hH, hB, hin⟩ := hI
    obtain ⟨⟨hw, hop⟩, hs'⟩ := htr
    obtain ⟨s₁, hs₁, X', B', m', h', hB', hcov⟩ := hH.step hB hw (hin.careful hB hop)
    obtain rfl : s₁ = s' := by simpa [hs₁] using hs'
    refine ⟨X', B', m', h', hB', (inner_iff hB'.valid).mpr ?_⟩
    obtain ⟨h₀, h₁⟩ := (inner_iff hB.valid).mp hin
    have hadd : op.added 0 = 0 ∧ op.added (2 ^ 64 - 1) = 0 := by
      cases op with
      | addRange addr size =>
        have h₂ := hop.1
        have h₃ := hop.2
        exact ⟨if_neg (by omega), if_neg (by omega)⟩
      | _ => exact ⟨rfl, rfl⟩
    have h₂ := hcov 0
    have h₃ := hcov (2 ^ 64 - 1)
    omega

/-- The blocks and the available memory are the same. -/
structure Restored (root : ι) (s s' : AllocatorAvl ι μ) : Prop where
  blocks : ∃ L L', s.blocks root = .ok L ∧ s'.blocks root = .ok L' ∧ L'.Perm L
  avail : s'.avail root = s.avail root

theorem restored_of_holds {X' : Finset ι} (h : Holds D root X B m s) (h' : Holds D root X' B m' s') :
    Restored root s s' := by
  obtain ⟨L, hL, hLB, -⟩ := h.blocks
  obtain ⟨L', hL', hLB', -⟩ := h'.blocks
  refine ⟨⟨L, L', hL, hL', ?_⟩, ?_⟩
  · rw [← Multiset.coe_eq_coe, hLB, hLB']
  · rw [h.avail_eq, h'.avail_eq]

/-- In every state of a run in the inner part of the address space, with
no two free blocks side by side, `free` undoes an allocation. -/
theorem free_restores {hist : List (AllocatorAvl ι μ × Op)} (hp : D.Prompt)
    (h : Run (Init D root) (InnerTrans D root) hist s) (hno : NoNeighbours (s.blockList root)) :
    (∀ size align beg fin a s', size < 2 ^ 64 → beg < 2 ^ 64 →
      s.allocAligned root D.mdAlloc size align beg fin = .ok (.ok a, s') →
      ∃ s'', s'.free root D.mdAlloc a = .ok s'' ∧ Restored root s s'') ∧
    ∀ size addr a s', size < 2 ^ 64 → addr < 2 ^ 64 →
      s.allocAddr root D.mdAlloc size addr = .ok (.ok a, s') →
      ∃ s'', s'.free root D.mdAlloc a = .ok s'' ∧ Restored root s s'' := by
  obtain ⟨X, B, m, hH, hB, hin⟩ := inner_of_run h
  rw [hH.coe_blockList] at hno
  constructor
  · intro size align beg fin a s' hn hbeg hs
    have hright : FitsRight B size align beg fin := fun b hb hu hf =>
      (offers_iff (hB.valid b hb) hu hn hbeg hf).mpr fun h0 => absurd h0 (hin b hb).1.ne'
    obtain ⟨b, hb, hu, ho, X₁, m₁, h₁⟩ := inside_of_fitsRight hH hright hs
    obtain ⟨C, rfl⟩ := Multiset.exists_cons_of_mem hb
    rw [Multiset.erase_cons_head] at h₁
    obtain ⟨X₂, m₂, s₂, hs₂, h₂⟩ := free_allocated hp hB hin hno hu hn ho h₁
    exact ⟨s₂, hs₂, restored_of_holds hH h₂⟩
  · intro size addr a s' hn ha hs
    rcases hH.allocAddr ha size with hr | hok | herr
    · obtain ⟨e, m₁, s₁, hs₁, -⟩ := hr
      simp [hs₁] at hs
    · obtain ⟨b, C, X₁, m₁, s₁, hs₁, hsum, hBC, hu, hb, h₁⟩ := hok
      obtain ⟨rfl, rfl⟩ : addr = a ∧ s₁ = s' := by simpa [hs₁] using hs
      have hc : (Op.allocAddr size addr).Careful B := hin.careful hB trivial
      have ho := Holds.offers_of_hits hB ⟨hn, ha⟩ hc hsum hBC hu hb
      subst hBC
      obtain ⟨X₂, m₂, s₂, hs₂, h₂⟩ := free_allocated hp hB hin hno hu hn ho h₁
      exact ⟨s₂, hs₂, restored_of_holds hH h₂⟩
    · obtain ⟨-, e, b, C, X₁, m₁, s₁, hs₁, -⟩ := herr
      simp [hs₁] at hs

/-- A block in the middle of a range, which is allocated at an aligned address. -/
theorem free_restores_middle :
    ∃ (hist : List (AllocatorAvl (Fin 8) (Finset (Fin 8)) × Op))
      (s s' s'' : AllocatorAvl (Fin 8) (Finset (Fin 8))),
      Run (Init (stock 8) 0) (InnerTrans (stock 8) 0) hist s ∧
      s.allocAligned 0 (stock 8).mdAlloc 0x100 12 0x1800 0xffff = .ok (.ok 0x2000, s') ∧
      s'.free 0 (stock 8).mdAlloc 0x2000 = .ok s'' ∧ Restored 0 s s'' := by
  obtain ⟨hist, s, h, hL, hrun⟩ := exists_guarded_run
    (p := fun r => r.2.blockList 0 = [⟨0x1000, 0x800, true⟩, ⟨0x1800, 0x2800, false⟩] ∧ (do
      let t ← r.2.allocAligned 0 (stock 8).mdAlloc 0x100 12 0x1800 0xffff
      .ok t.1 : Exec (Except AllocError Nat)) = .ok (.ok 0x2000)) (init_empty 8)
    (show (replay (perform (fun _ op => op.InWord ∧ op.Inner) (exec (stock 8) 0))
      [.addRange 0x1000 0x3000, .allocAddr 0x800 0x1000] ([], empty 8)).any _ = true by
        decide +kernel)
  obtain ⟨⟨r, s'⟩, hs', hrun⟩ := Exec.bind_eq_ok.mp hrun
  obtain rfl : r = .ok 0x2000 := by simpa using hrun
  have hno : NoNeighbours (s.blockList 0) := by
    rw [hL]
    intro b hb c hc hbu hcu
    simp only [Multiset.mem_coe, List.mem_cons, List.not_mem_nil, or_false] at hb hc
    rcases hb with rfl | rfl
    · simp at hbu
    · rcases hc with rfl | rfl
      · simp at hcu
      · decide
  obtain ⟨s'', hs'', hr⟩ :=
    (free_restores (stock_prompt 8) h hno).1 _ _ _ _ _ _ (by omega) (by omega) hs'
  exact ⟨hist, s, s', s'', h, hs', hs'', hr⟩

end Genode.Base
