import Genode.Base.AllocatorSearch

/-!
# AllocatorOperations — what an operation does to the blocks

What each operation returns, and which blocks it takes from the tree and
puts into it. These facts hold of any blocks, also of ones that overlap.
Where an operation fails, the same blocks are in the tree and the same
entries are taken from the metadata allocator.
-/

namespace Genode.Base

open Block Lib Lib.LinkedTree Util

variable {ι μ : Type} [DecidableEq ι] [Fintype ι] {D : Md ι μ} {root x y : ι} {X : Finset ι}
  {B : Multiset Block} {m m' : μ} {s s' : AllocatorAvl ι μ} {b : Block}
  {addr size align beg fin a : Nat} {P : Block → Prop}

/-- The operation failed and left everything as it was. -/
def Refused {α : Type} (D : Md ι μ) (root : ι) (X : Finset ι) (B : Multiset Block) (m : μ)
    (r : Exec (Except AllocError α × AllocatorAvl ι μ)) : Prop :=
  ∃ e m' s', r = .ok (.error e, s') ∧ D.taken m' = D.taken m ∧ Holds D root X B m' s'

/-- The free block that was taken out of the tree, of blocks `B` of which `C` are left. -/
def opt (o : Option Block) : Multiset Block := o.elim 0 fun b => {b}

namespace Holds

/-! ## The ranges of the allocator -/

/-- A free block at the address leaves the tree. -/
theorem takeFree (h : Holds D root X B m s) (addr : Nat) :
    ∃ o C X' m' s', s.takeFree root D.mdAlloc addr = .ok (o, s') ∧ B = opt o + C ∧
      Holds D root X' C m' s' ∧ (∀ z, Spare D root X m z → Spare D root X' m' z) ∧
      (∀ b, o = some b → b.used = false ∧ b.Hits addr (lastOf addr 0) false) ∧
      (o = none → Sane B → addr < 2 ^ 64 → ∀ b ∈ B, b.Covers addr → b.used = true) := by
  obtain ⟨r, hr, hx⟩ : ∃ r, s.findByAddress root addr 0 false = .ok r ∧
      ∀ x, r = some x → x ∈ X ∧ (s.block x).Hits addr (lastOf addr 0) false := h.findByAddress
  have hkept : ∀ {o : Option Block}, o = none → s.takeFree root D.mdAlloc addr = .ok (o, s) →
      (∀ b ∈ B, Sane B → addr < 2 ^ 64 → b.Covers addr → b.used = true) →
      ∃ o C X' m' s', s.takeFree root D.mdAlloc addr = .ok (o, s') ∧ B = opt o + C ∧
        Holds D root X' C m' s' ∧ (∀ z, Spare D root X m z → Spare D root X' m' z) ∧
        (∀ b, o = some b → b.used = false ∧ b.Hits addr (lastOf addr 0) false) ∧
        (o = none → Sane B → addr < 2 ^ 64 → ∀ b ∈ B, b.Covers addr → b.used = true) := by
    rintro o rfl ho hused
    refine ⟨none, B, X, m, s, ho, ?_, h, fun z hz => hz, by simp, ?_⟩
    · rw [opt, Option.elim_none, zero_add]
    · intro _ hB ha b hb
      exact hused b hb hB ha
  cases r with
  | none =>
    refine hkept rfl ?_ fun b hb hB ha hc => ?_
    · simp only [AllocatorAvl.takeFree, hr, Exec.ok_bind]
    · have hle : addr ≤ lastOf addr 0 := (lastOf_zero ha).ge
      exact absurd ((hits_address (hB.valid b hb) ha).mpr hc) (h.findByAddress_none hB hle hr hb)
  | some x =>
    obtain ⟨hxX, hxh⟩ := hx x rfl
    by_cases hu : (s.block x).used = true
    · refine hkept rfl ?_ fun b hb hB ha hc => ?_
      · simp only [AllocatorAvl.takeFree, hr, Exec.ok_bind, if_pos hu]
      · -- the block that was found is the only one there
        have hxB := h.block_mem hxX
        rw [hB.apart.eq hb hxB hc ((hits_address (hB.valid _ hxB) ha).mp hxh)]
        exact hu
    · obtain ⟨C, m', s', hs, hBC, -, ht, h'⟩ := h.destroyBlock hxX
      refine ⟨some (s.block x), C, X.erase x, m', s', ?_, hBC, h', ?_, ?_, by simp⟩
      · simp only [AllocatorAvl.takeFree, hr, Exec.ok_bind, if_neg hu, hs]
      · intro z hz
        refine ⟨ht ▸ Finset.mem_erase.mpr ⟨?_, hz.taken⟩, fun hc => hz.notMem ?_⟩
        · rintro rfl
          exact hz.notMem (Finset.mem_insert_of_mem hxX)
        · exact Finset.insert_subset_insert _ (Finset.erase_subset _ _) hc
      · intro b hb
        obtain rfl : s.block x = b := by simpa using hb
        exact ⟨by simpa using hu, hxh⟩

end Holds

/-- The size of a range together with a block that it is merged with. -/
def merged (o : Option Block) (size : Nat) : Nat := o.elim size fun b => add64 size b.size

/-- The free block that `add_range` creates. -/
def grown (addr size : Nat) (p q : Option Block) : Block :=
  ⟨p.elim addr Block.addr, merged q (merged p size), false⟩

/-- Where `add_range` looks for a successor. -/
def behind (addr size : Nat) (p : Option Block) : Nat := add64 (p.elim addr Block.addr) (merged p size)

/-- The blocks `p` and `q` that `add_range` merges with the new range. -/
structure Merges (B : Multiset Block) (addr size : Nat) (p q : Option Block) (C : Multiset Block) :
    Prop where
  blocks : B = opt p + (opt q + C)
  pred : ∀ b, p = some b → addr ≠ 0 ∧ b.used = false ∧
    b.Hits (sub64 addr 1) (lastOf (sub64 addr 1) 0) false
  pred_none : p = none → Sane B → addr ≠ 0 → ∀ b ∈ B, b.Covers (sub64 addr 1) → b.used = true
  succ : ∀ b, q = some b → b.used = false ∧
    b.Hits (behind addr size p) (lastOf (behind addr size p) 0) false
  succ_none : q = none → Sane (opt q + C) → ∀ b ∈ opt q + C, b.Covers (behind addr size p) →
    b.used = true

namespace Holds

theorem addRange (h : Holds D root X B m s) (addr size : Nat) :
    (Refused D root X B m (s.addRange root D.mdAlloc addr size) ∧
      (size = 0 ∨ (∃ b ∈ B, b.Hits addr (lastOf addr size) true) ∨ ¬ D.Ready m)) ∨
    ∃ p q C X' m' s', s.addRange root D.mdAlloc addr size = .ok (.ok (), s') ∧ 0 < size ∧
      D.Ready m ∧ (Sane B → addr ≤ lastOf addr size → ∀ b ∈ B, ¬ b.Hits addr (lastOf addr size) true) ∧
      Merges B addr size p q C ∧ Holds D root X' (grown addr size p q ::ₘ C) m' s' := by
  by_cases hsize : size = 0
  · refine .inl ⟨⟨.denied, m, s, ?_, rfl, h⟩, .inl hsize⟩
    rw [AllocatorAvl.addRange, if_pos hsize]
  obtain ⟨r, hr, hx⟩ : ∃ r, s.findByAddress root addr size true = .ok r ∧
      ∀ x, r = some x → x ∈ X ∧ (s.block x).Hits addr (lastOf addr size) true := h.findByAddress
  cases r with
  | some x =>
    obtain ⟨hxX, hxh⟩ := hx x rfl
    refine .inl ⟨⟨.denied, m, s, ?_, rfl, h⟩, .inr (.inl ⟨_, h.block_mem hxX, hxh⟩)⟩
    simp only [AllocatorAvl.addRange, if_neg hsize, hr, Exec.ok_bind, Option.isSome_some, if_true]
  | none =>
    rcases h.allocBlockMetadata with ⟨x, m₁, s₁, hs₁, hm₁, hsp₁, h₁⟩ | ⟨e, m₁, s₁, hs₁, hm₁, h₁⟩
    · obtain ⟨p, C₁, X₂, m₂, s₂, hs₂, hB₂, h₂, hk₂, hp, hpn⟩ :
          ∃ p C X' m' s', (if addr ≠ 0 then s₁.takeFree root D.mdAlloc (sub64 addr 1)
              else .ok (none, s₁)) = .ok (p, s') ∧ B = opt p + C ∧ Holds D root X' C m' s' ∧
            (∀ z, Spare D root X m₁ z → Spare D root X' m' z) ∧
            (∀ b, p = some b → addr ≠ 0 ∧ b.used = false ∧
              b.Hits (sub64 addr 1) (lastOf (sub64 addr 1) 0) false) ∧
            (p = none → Sane B → addr ≠ 0 → ∀ b ∈ B, b.Covers (sub64 addr 1) → b.used = true) := by
        by_cases ha : addr = 0
        · refine ⟨none, B, X, m₁, s₁, ?_, ?_, h₁, fun z hz => hz, by simp, by simp [ha]⟩
          · rw [if_neg (by simpa using ha)]
          · rw [opt, Option.elim_none, zero_add]
        · obtain ⟨p, C, X', m', s', hs, hB, h', hk, hp, hn⟩ := h₁.takeFree (sub64 addr 1)
          refine ⟨p, C, X', m', s', ?_, hB, h', hk, fun b hb => ⟨ha, hp b hb⟩, ?_⟩
          · rw [if_pos ha, hs]
          · intro hpn hBs _
            exact hn hpn hBs sub64_lt
      obtain ⟨q, C, X₃, m₃, s₃, hs₃, hB₃, h₃, hk₃, hq, hqn⟩ := h₂.takeFree (behind addr size p)
      obtain ⟨s₄, hs₄, h₄⟩ := h₃.addBlock (hk₃ x (hk₂ x hsp₁)) (grown addr size p q)
      refine .inr ⟨p, q, C, _, m₃, s₄, ?_, by omega, ⟨x, m₁, hm₁⟩, ?_, ?_, h₄⟩
      · simp only [AllocatorAvl.addRange, if_neg hsize, hr, Exec.ok_bind, Option.isSome_none,
          hs₁, hs₂]
        change (s₂.takeFree root D.mdAlloc (behind addr size p) >>= _) = _
        simp only [hs₃, Exec.ok_bind]
        change (s₃.addBlock root x (grown addr size p q) >>= _) = _
        simp only [hs₄, Exec.ok_bind]
      · intro hB hle b hb
        exact h.findByAddress_none hB hle hr hb
      · refine ⟨by rw [hB₂, hB₃], hp, hpn, hq, fun hqe hC => ?_⟩
        rw [← hB₃] at hC ⊢
        exact hqn hqe hC add64_lt
    · refine .inl ⟨⟨e, m₁, s₁, ?_, D.take_error m e m₁ hm₁, h₁⟩, .inr (.inr ?_)⟩
      · simp only [AllocatorAvl.addRange, if_neg hsize, hr, Exec.ok_bind, Option.isSome_none, hs₁]
        rfl
      · intro hready
        obtain ⟨y, m', hy⟩ := hready
        simp [hm₁] at hy

/-! ## Allocations -/

/-- An allocation fails and leaves everything as it was, or it takes the
new range out of a free block. If then there is no metadata for the new
block, the range is lost. -/
theorem allocate (h : Holds D root X B m s) (size align beg : Nat)
    (search : AllocatorAvl ι μ → ι → Exec (Option ι))
    (hsearch : ∀ {m s}, Holds D root X B m s → ∃ r,
      (s.nodes.child root false).elim (.ok none) (search s) = .ok r ∧
        ∀ x, r = some x → x ∈ X ∧ P (s.block x)) :
    Refused D root X B m (s.allocate root D.mdAlloc size align beg search) ∨
    (∃ b C X' m' s', s.allocate root D.mdAlloc size align beg search =
        .ok (.ok (b.place align beg), s') ∧ B = b ::ₘ C ∧ b.used = false ∧ P b ∧
      Holds D root X' (⟨b.place align beg, size, true⟩ ::ₘ
        (b.pieces (b.place align beg) size + C)) m' s') ∨
    ¬ D.Prompt ∧ ∃ e b C X' m' s', s.allocate root D.mdAlloc size align beg search =
        .ok (.error e, s') ∧ B = b ::ₘ C ∧ b.used = false ∧ P b ∧
      Holds D root X' (b.pieces (b.place align beg) size + C) m' s' := by
  rcases h.allocTwoBlocksMetadata with ⟨b₁, b₂, m₁, s₁, hs₁, hp, h₁⟩ | ⟨e, m₁, s₁, hs₁, ht₁, h₁⟩
  swap
  · refine .inl ⟨e, m₁, s₁, ?_, ht₁, h₁⟩
    simp only [AllocatorAvl.allocate, hs₁, Exec.ok_bind]
  obtain ⟨r, hr, hx⟩ := hsearch h₁
  cases hf : r.filter fun x => !(s₁.block x).used with
  | none =>
    obtain ⟨m₂, s₂, m₃, s₃, hs₂, hs₃, -, ht₃, h₃⟩ := h₁.giveTwo hp
    refine .inl ⟨.denied, m₃, s₃, ?_, ht₃, h₃⟩
    simp only [AllocatorAvl.allocate, hs₁, Exec.ok_bind, hr, hf, hs₂, hs₃]
  | some x =>
    rw [Option.filter_eq_some_iff] at hf
    obtain ⟨hrx, hu⟩ := hf
    obtain ⟨hxX, hxP⟩ := hx x hrx
    have hu' : (s₁.block x).used = false := by simpa using hu
    obtain ⟨C, X', m₂, s₂, hs₂, hB, h₂, hready⟩ := h₁.cutFromBlock hxX hp.spare_left
      hp.spare_right hp.ne ((s₁.block x).place align beg) size
    have hfilter : r.filter (fun x => !(s₁.block x).used) = some x := by
      rw [Option.filter_eq_some_iff]
      exact ⟨hrx, hu⟩
    rcases h₂.allocBlockMetadata with ⟨y, m₃, s₃, hs₃, -, hsp, h₃⟩ | ⟨e, m₃, s₃, hs₃, hm₃, h₃⟩
    · obtain ⟨s₄, hs₄, h₄⟩ := h₃.addBlock hsp ⟨(s₁.block x).place align beg, size, true⟩
      refine .inr (.inl ⟨s₁.block x, C, _, m₃, s₄, ?_, hB, hu', hxP, h₄⟩)
      simp only [AllocatorAvl.allocate, hs₁, Exec.ok_bind, hr, hfilter]
      change (s₁.cutFromBlock root D.mdAlloc x ((s₁.block x).place align beg) size b₁ b₂ >>= _) = _
      simp only [hs₂, Exec.ok_bind, hs₃]
      change (s₃.addBlock root y ⟨(s₁.block x).place align beg, size, true⟩ >>= _) = _
      simp only [hs₄, Exec.ok_bind]
      rfl
    · refine .inr (.inr ⟨fun hprompt => ?_, e, s₁.block x, C, X', m₃, s₃, ?_, hB, hu', hxP, h₃⟩)
      · obtain ⟨y, m', hy⟩ := hready hprompt
        simp [hm₃] at hy
      · simp only [AllocatorAvl.allocate, hs₁, Exec.ok_bind, hr, hfilter]
        change (s₁.cutFromBlock root D.mdAlloc x ((s₁.block x).place align beg) size b₁ b₂ >>= _) = _
        simp only [hs₂, Exec.ok_bind, hs₃]

theorem allocAligned (h : Holds D root X B m s) (size align beg fin : Nat) :
    Refused D root X B m (s.allocAligned root D.mdAlloc size align beg fin) ∨
    (∃ b C X' m' s', s.allocAligned root D.mdAlloc size align beg fin =
        .ok (.ok (b.place align beg), s') ∧ B = b ::ₘ C ∧ b.used = false ∧
      b.fits size align beg fin = true ∧
      Holds D root X' (⟨b.place align beg, size, true⟩ ::ₘ
        (b.pieces (b.place align beg) size + C)) m' s') ∨
    ¬ D.Prompt ∧ ∃ e b C X' m' s', s.allocAligned root D.mdAlloc size align beg fin =
        .ok (.error e, s') ∧ B = b ::ₘ C ∧ b.used = false ∧ b.fits size align beg fin = true ∧
      Holds D root X' (b.pieces (b.place align beg) size + C) m' s' :=
  h.allocate (P := fun b => b.fits size align beg fin = true) size align beg
    (fun s x => s.findBestFit size align beg fin (AvlNodes.fuel ι) x) fun h => h.findBestFit

theorem place_of_hits (h : addr < 2 ^ 64) (hb : b.Hits addr size false) : b.place 0 addr = addr := by
  have hle : b.addr ≤ addr := by
    rcases hb with hb | hb
    · simp at hb
    · exact hb.1
  rw [place, max_eq_right hle, alignAddr_zero h]

theorem allocAddr (h : Holds D root X B m s) (ha : addr < 2 ^ 64) (size : Nat) :
    Refused D root X B m (s.allocAddr root D.mdAlloc size addr) ∨
    (∃ b C X' m' s', s.allocAddr root D.mdAlloc size addr = .ok (.ok addr, s') ∧
      sumInRange addr size = true ∧ B = b ::ₘ C ∧ b.used = false ∧
      b.Hits addr (lastOf addr size) false ∧
      Holds D root X' (⟨addr, size, true⟩ ::ₘ (b.pieces addr size + C)) m' s') ∨
    ¬ D.Prompt ∧ ∃ e b C X' m' s', s.allocAddr root D.mdAlloc size addr = .ok (.error e, s') ∧
      sumInRange addr size = true ∧ B = b ::ₘ C ∧ b.used = false ∧
      b.Hits addr (lastOf addr size) false ∧ Holds D root X' (b.pieces addr size + C) m' s' := by
  cases hsum : sumInRange addr size with
  | false =>
    refine .inl ⟨.denied, m, s, ?_, rfl, h⟩
    rw [AllocatorAvl.allocAddr, hsum, if_neg (by simp)]
  | true =>
    rw [AllocatorAvl.allocAddr, if_pos hsum]
    have hcases := h.allocate (P := fun b => b.Hits addr (lastOf addr size) false) size 0 addr
      (fun s x => s.findByAddressFrom addr size false (AvlNodes.fuel ι) x) fun h => h.findByAddress
    rcases hcases with hr | hok | herr
    · exact .inl hr
    · obtain ⟨b, C, X', m', s', hs, hB, hu, hb, h'⟩ := hok
      rw [place_of_hits ha hb] at hs h'
      exact .inr (.inl ⟨b, C, X', m', s', hs, rfl, hB, hu, hb, h'⟩)
    · obtain ⟨hp, e, b, C, X', m', s', hs, hB, hu, hb, h'⟩ := herr
      rw [place_of_hits ha hb] at h'
      exact .inr (.inr ⟨hp, e, b, C, X', m', s', hs, rfl, hB, hu, hb, h'⟩)

/-- `free` takes the used block at the address out of the tree and adds its range anew. -/
theorem free (h : Holds D root X B m s) (a : Nat) :
    (s.free root D.mdAlloc a = .ok s ∧
      (Sane B → a < 2 ^ 64 → ∀ b ∈ B, b.Covers a → b.used = false)) ∨
    ∃ b C X' m' s', B = b ::ₘ C ∧ b.used = true ∧ b.Hits a (lastOf a 0) false ∧
      Holds D root X' C m' s' ∧ (D.Prompt → D.Ready m') ∧
      s.free root D.mdAlloc a =
        s'.addRange root D.mdAlloc b.addr b.size >>= fun r => .ok r.2 := by
  obtain ⟨r, hr, hx⟩ : ∃ r, s.findByAddress root a 0 false = .ok r ∧
      ∀ x, r = some x → x ∈ X ∧ (s.block x).Hits a (lastOf a 0) false := h.findByAddress
  cases r with
  | none =>
    refine .inl ⟨?_, fun hB ha b hb hc => ?_⟩
    · simp only [AllocatorAvl.free, hr, Exec.ok_bind]
    · have hle : a ≤ lastOf a 0 := (lastOf_zero ha).ge
      exact absurd ((hits_address (hB.valid b hb) ha).mpr hc) (h.findByAddress_none hB hle hr hb)
  | some x =>
    obtain ⟨hxX, hxh⟩ := hx x rfl
    by_cases hu : (s.block x).used = true
    · obtain ⟨C, m', s', hs, hB, hm, -, h'⟩ := h.destroyBlock hxX
      refine .inr ⟨s.block x, C, X.erase x, m', s', hB, hu, hxh, h', fun hp => hp m x m' hm, ?_⟩
      simp only [AllocatorAvl.free, hr, Exec.ok_bind, if_pos hu, hs]
    · refine .inl ⟨?_, fun hB ha b hb hc => ?_⟩
      · simp only [AllocatorAvl.free, hr, Exec.ok_bind, if_neg hu]
      · have hxB := h.block_mem hxX
        rw [hB.apart.eq hb hxB hc ((hits_address (hB.valid _ hxB) ha).mp hxh)]
        simpa using hu

/-! ## Removal of a range -/

/-- One round of `remove_range`: it is over, or it cuts what it found
out of a free block. -/
theorem removeRangeLoop (h : Holds D root X B m s) (addr size n : Nat) :
    (∃ r m' s', AllocatorAvl.removeRangeLoop root D.mdAlloc addr size (n + 1) s = .ok (r, s') ∧
      Holds D root X B m' s' ∧ (r = .ok () → Sane B → addr ≤ lastOf addr size → ∀ b ∈ B,
        ¬ b.Hits addr (lastOf addr size) true)) ∨
    ∃ b C X' m' s', B = b ::ₘ C ∧ b.avail ≠ 0 ∧ b.Hits addr (lastOf addr size) true ∧
      Holds D root X' (b.pieces (max addr b.addr) (add64 (sub64 (min (sub64 (add64 addr size) 1)
        b.last) (max addr b.addr)) 1) + C) m' s' ∧
      AllocatorAvl.removeRangeLoop root D.mdAlloc addr size (n + 1) s =
        AllocatorAvl.removeRangeLoop root D.mdAlloc addr size n s' := by
  rcases h.allocTwoBlocksMetadata with ⟨b₁, b₂, m₁, s₁, hs₁, hp, h₁⟩ | ⟨e, m₁, s₁, hs₁, ht₁, h₁⟩
  swap
  · refine .inl ⟨.error e, m₁, s₁, ?_, h₁, by simp⟩
    simp only [AllocatorAvl.removeRangeLoop, hs₁, Exec.ok_bind]
  obtain ⟨m₂, s₂, m₃, s₃, hs₂, hs₃, -, -, h₃⟩ := h₁.giveTwo hp
  obtain ⟨r, hr, hx⟩ : ∃ r, s₁.findByAddress root addr size true = .ok r ∧
      ∀ x, r = some x → x ∈ X ∧ (s₁.block x).Hits addr (lastOf addr size) true := h₁.findByAddress
  cases r with
  | none =>
    refine .inl ⟨.ok (), m₃, s₃, ?_, h₃, fun _ hB hle b hb => ?_⟩
    · simp only [AllocatorAvl.removeRangeLoop, hs₁, Exec.ok_bind, hr, hs₂, hs₃]
    · exact h₁.findByAddress_none hB hle hr hb
  | some x =>
    obtain ⟨hxX, hxh⟩ := hx x rfl
    by_cases hav : (s₁.block x).avail = 0
    · refine .inl ⟨.error .denied, m₃, s₃, ?_, h₃, by simp⟩
      simp only [AllocatorAvl.removeRangeLoop, hs₁, Exec.ok_bind, hr, if_pos hav, hs₂, hs₃]
    · obtain ⟨C, X', m', s', hs, hB, h', -⟩ := h₁.cutFromBlock hxX hp.spare_left hp.spare_right
        hp.ne (max addr (s₁.block x).addr) (add64 (sub64 (min (sub64 (add64 addr size) 1)
          (s₁.block x).last) (max addr (s₁.block x).addr)) 1)
      refine .inr ⟨s₁.block x, C, X', m', s', hB, hav, hxh, h', ?_⟩
      rw [AllocatorAvl.removeRangeLoop]
      simp only [hs₁, Exec.ok_bind, hr, if_neg hav, hs]

end Holds

end Genode.Base
