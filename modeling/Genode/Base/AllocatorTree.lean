import Genode.Base.BlockRanges
import Genode.Util.AvlRuns

/-!
# AllocatorTree — the blocks as a multiset

What the allocator does with its tree, said of the blocks in it. A block
is kept in an entry of the metadata allocator. `Holds` is the invariant
of the tree: the entries in it are linked in the order of the addresses,
and none of them was given back. It does not say that the blocks make
sense; that is `Sane`.
-/

namespace Genode.Base

open BinaryTree Lib Lib.LinkedTree Util

variable {ι μ : Type} [DecidableEq ι]

/-! ## The metadata allocator of the tree -/

namespace Md

def mdAlloc (D : Md ι μ) : MdAlloc ι μ where
  tryAlloc s := .ok ((D.take s.md).1, { s with md := (D.take s.md).2 })
  free x s := do
    let m ← D.give x s.md
    .ok { s with md := m }

variable (D : Md ι μ)

theorem tryAlloc_eq {r : Except AllocError ι} {m' : μ} {s : AllocatorAvl ι μ}
    (h : D.take s.md = (r, m')) : D.mdAlloc.tryAlloc s = .ok (r, { s with md := m' }) := by
  simp only [mdAlloc, h]

theorem free_eq {x : ι} {m' : μ} {s : AllocatorAvl ι μ} (h : D.give x s.md = .ok m') :
    D.mdAlloc.free x s = .ok { s with md := m' } := by
  simp only [mdAlloc, h, Exec.ok_bind]

end Md

/-! ## What the tree holds -/

/-- The entries `X` are in the tree, with the blocks `B`. -/
structure Holds (D : Md ι μ) (root : ι) (X : Finset ι) (B : Multiset Block) (m : μ)
    (s : AllocatorAvl ι μ) : Prop where
  tree : ∃ t, AvlRuns.Ordered root (fun x => (s.block x).addr) t ⟨s.nodes, X⟩
  content : X.val.map s.block = B
  md : s.md = m
  taken : insert root X ⊆ D.taken m

/-- An entry that is taken, but not in the tree. -/
structure Spare (D : Md ι μ) (root : ι) (X : Finset ι) (m : μ) (x : ι) : Prop where
  taken : x ∈ D.taken m
  notMem : x ∉ insert root X

variable [Fintype ι] {D : Md ι μ} {root x y b₁ b₂ : ι} {X : Finset ι} {B : Multiset Block} {m m' : μ}
  {s s' : AllocatorAvl ι μ} {b : Block} {addr size : Nat}

namespace Holds

omit [Fintype ι] in
theorem root_notMem (h : Holds D root X B m s) : root ∉ X := by
  obtain ⟨t, ht⟩ := h.tree
  rw [← ht.mem_iff]
  exact (List.nodup_cons.mp ht.isTree.nodup).1

omit [DecidableEq ι] [Fintype ι] in
theorem val_eq_inorder [DecidableEq ι] {t : BinaryTree ι} {key : ι → Nat} {nodes : AvlNodes ι Nat}
    (ht : AvlRuns.Ordered root key t ⟨nodes, X⟩) : X.val = (inorder t : Multiset ι) := by
  have hn := (List.nodup_cons.mp ht.isTree.nodup).2
  have hX : X = ⟨inorder t, hn⟩ := by
    ext z
    exact (ht.mem_iff z).symm
  rw [hX]

omit [Fintype ι] in
theorem mem_content (h : Holds D root X B m s) : b ∈ B ↔ ∃ x ∈ X, s.block x = b := by
  rw [← h.content]
  exact Multiset.mem_map

omit [Fintype ι] in
theorem block_mem (h : Holds D root X B m s) (hx : x ∈ X) : s.block x ∈ B :=
  h.mem_content.mpr ⟨x, hx, rfl⟩

/-- The walk over the tree finds the blocks, in the order of their addresses. -/
theorem blocks (h : Holds D root X B m s) : ∃ L, s.blocks root = .ok L ∧ (L : Multiset Block) = B ∧
    L.Pairwise fun a b => a.addr ≤ b.addr := by
  obtain ⟨t, ht⟩ := h.tree
  refine ⟨(inorder t).map s.block, ?_, ?_, ?_⟩
  · rw [AllocatorAvl.blocks, AvlRuns.forEach_eq ht.isTree]
    rfl
  · rw [← h.content, val_eq_inorder ht]
    rfl
  · exact List.pairwise_map.mpr ht.sorted

omit [Fintype ι] in
/-- The memory of an entry outside of the tree may change. -/
theorem construct (h : Holds D root X B m s) (hx : x ∉ insert root X) (b : Block) :
    Holds D root X B m (s.construct x b) := by
  obtain ⟨t, ht⟩ := h.tree
  have hroot : x ≠ root := fun he => hx (he ▸ Finset.mem_insert_self _ _)
  have hX : x ∉ X := fun he => hx (Finset.mem_insert_of_mem he)
  have hblock : ∀ y ∈ X, (s.construct x b).block y = s.block y := by
    intro y hy
    have hne : y ≠ x := by
      rintro rfl
      exact hX hy
    exact Function.update_of_ne hne _ _
  have ht' := ht.construct hroot hX b.avail
  refine ⟨⟨t, ht'.isTree, ht'.mem_iff, ?_⟩, ?_, h.md, h.taken⟩
  · refine ht'.sorted.imp_of_mem fun {u v} hu hv huv => ?_
    rw [hblock u ((ht.mem_iff u).mp hu), hblock v ((ht.mem_iff v).mp hv)]
    exact huv
  · rw [← h.content]
    exact Multiset.map_congr rfl hblock

/-- `_add_block` adds the block. -/
theorem addBlock (h : Holds D root X B m s) (hx : Spare D root X m x) (b : Block) :
    ∃ s', s.addBlock root x b = .ok s' ∧ Holds D root (insert x X) (b ::ₘ B) m s' := by
  have hroot : x ≠ root := fun he => hx.notMem (he ▸ Finset.mem_insert_self _ _)
  have hX : x ∉ X := fun he => hx.notMem (Finset.mem_insert_of_mem he)
  have h' := h.construct hx.notMem b
  obtain ⟨t, ht⟩ := h'.tree
  have hf : (s.construct x b).nodes.Fresh x := by
    simp [AvlNodes.Fresh, AllocatorAvl.construct, AvlNodes.construct]
  obtain ⟨nodes, hn, ht'⟩ := ht.insert (P := AllocatorAvl.policy (s.construct x b).block)
    (fun _ _ => rfl) hroot hX hf
  refine ⟨{ s.construct x b with nodes := nodes }, ?_, ⟨_, ht'⟩, ?_, h'.md, ?_⟩
  · rw [AllocatorAvl.addBlock, hn]
    rfl
  · rw [Finset.insert_val_of_notMem hX, Multiset.map_cons]
    show (s.construct x b).block x ::ₘ X.val.map (s.construct x b).block = b ::ₘ B
    rw [h'.content]
    congr 1
    exact Function.update_self _ _ _
  · rw [Finset.insert_comm]
    exact Finset.insert_subset hx.taken h.taken

omit [Fintype ι] in
/-- An entry that was given back. -/
theorem giveBack (h : Holds D root X B m s) (hx : Spare D root X m x) :
    ∃ m' s', D.mdAlloc.free x s = .ok s' ∧ D.give x m = .ok m' ∧ D.taken m' = (D.taken m).erase x ∧
      Holds D root X B m' s' := by
  obtain ⟨m', hm, ht⟩ := D.give_taken m x hx.taken
  refine ⟨m', { s with md := m' }, ?_, hm, ht, h.tree, h.content, rfl, ?_⟩
  · exact D.free_eq (h.md ▸ hm)
  · intro y hy
    rw [ht, Finset.mem_erase]
    exact ⟨fun he => hx.notMem (he ▸ hy), h.taken hy⟩

/-- `_destroy_block` takes the block away. -/
theorem destroyBlock (h : Holds D root X B m s) (hx : x ∈ X) :
    ∃ C m' s', s.destroyBlock D.mdAlloc x = .ok s' ∧ B = s.block x ::ₘ C ∧ D.give x m = .ok m' ∧
      D.taken m' = (D.taken m).erase x ∧ Holds D root (X.erase x) C m' s' := by
  obtain ⟨t, ht⟩ := h.tree
  obtain ⟨nodes, t', hn, -, ht'⟩ := ht.remove (P := AllocatorAvl.policy s.block) hx
  have htaken : insert root (X.erase x) ⊆ D.taken m :=
    (Finset.insert_subset_insert _ (Finset.erase_subset _ _)).trans h.taken
  have h' : Holds D root (X.erase x) ((X.erase x).val.map s.block) m { s with nodes := nodes } :=
    ⟨⟨t', ht'⟩, rfl, h.md, htaken⟩
  have hroot : x ≠ root := fun he => h.root_notMem (he ▸ hx)
  have hsp : Spare D root (X.erase x) m x := by
    refine ⟨h.taken (Finset.mem_insert_of_mem hx), ?_⟩
    simp [hroot]
  obtain ⟨m', s', hs, hm, hmt, hH⟩ := h'.giveBack hsp
  refine ⟨_, m', s', ?_, ?_, hm, hmt, hH⟩
  · rw [AllocatorAvl.destroyBlock, hn]
    exact hs
  · rw [← h.content, ← Multiset.map_cons, Finset.erase_val, Multiset.cons_erase hx]

/-! ## Metadata for new blocks -/

omit [Fintype ι] in
theorem allocBlockMetadata (h : Holds D root X B m s) :
    (∃ x m' s', s.allocBlockMetadata D.mdAlloc = .ok (.ok x, s') ∧ D.take m = (.ok x, m') ∧
      Spare D root X m' x ∧ Holds D root X B m' s') ∨
    ∃ e m' s', s.allocBlockMetadata D.mdAlloc = .ok (.error e, s') ∧ D.take m = (.error e, m') ∧
      Holds D root X B m' s' := by
  cases hm : D.take m with
  | mk r m' =>
    cases r with
    | ok x =>
      obtain ⟨hx, ht⟩ := D.take_ok m x m' hm
      have h' : Holds D root X B m' { s with md := m' } :=
        ⟨h.tree, h.content, rfl, h.taken.trans (ht ▸ Finset.subset_insert _ _)⟩
      have hsp : Spare D root X m' x :=
        ⟨ht ▸ Finset.mem_insert_self _ _, fun hc => hx (h.taken hc)⟩
      refine .inl ⟨x, m', _, ?_, rfl, hsp, h'.construct hsp.notMem ⟨0, 0, false⟩⟩
      rw [AllocatorAvl.allocBlockMetadata, D.tryAlloc_eq (h.md ▸ hm), Exec.ok_bind]
    | error e =>
      have ht := D.take_error m e m' hm
      refine .inr ⟨e, m', { s with md := m' }, ?_, rfl, h.tree, h.content, rfl, ht ▸ h.taken⟩
      rw [AllocatorAvl.allocBlockMetadata, D.tryAlloc_eq (h.md ▸ hm), Exec.ok_bind]

omit [Fintype ι] in
/-- An entry that is ready is handed out. -/
theorem allocBlockMetadata_ready (h : Holds D root X B m s) (hr : D.Ready m) :
    ∃ x m' s', s.allocBlockMetadata D.mdAlloc = .ok (.ok x, s') ∧ Spare D root X m' x ∧
      Holds D root X B m' s' := by
  obtain ⟨x, m', hm⟩ := hr
  rcases h.allocBlockMetadata with ⟨y, m₁, s₁, hs, -, hsp, h₁⟩ | ⟨e, m₁, s₁, -, hm', -⟩
  · exact ⟨y, m₁, s₁, hs, hsp, h₁⟩
  · simp [hm] at hm'

end Holds

/-- Two entries that were free. -/
structure Pair (D : Md ι μ) (root : ι) (X : Finset ι) (m m' : μ) (x y : ι) : Prop where
  ne : x ≠ y
  left : x ∉ D.taken m
  right : y ∉ D.taken m
  taken : D.taken m' = insert y (insert x (D.taken m))
  sub : insert root X ⊆ D.taken m

namespace Pair

omit [Fintype ι] in
theorem spare_left (h : Pair D root X m m' x y) : Spare D root X m' x := by
  refine ⟨?_, fun hx => h.left (h.sub hx)⟩
  simp [h.taken]

omit [Fintype ι] in
theorem spare_right (h : Pair D root X m m' x y) : Spare D root X m' y := by
  refine ⟨?_, fun hy => h.right (h.sub hy)⟩
  simp [h.taken]

omit [Fintype ι] in
theorem erase (h : Pair D root X m m' x y) : ((D.taken m').erase x).erase y = D.taken m := by
  have hx := h.left
  have hy := h.right
  have hne := h.ne
  ext z
  simp only [h.taken, Finset.mem_erase, Finset.mem_insert]
  constructor
  · tauto
  · intro hz
    refine ⟨?_, ?_, .inr (.inr hz)⟩
    · rintro rfl
      exact hy hz
    · rintro rfl
      exact hx hz

end Pair

namespace Holds

omit [Fintype ι] in
theorem allocTwoBlocksMetadata (h : Holds D root X B m s) :
    (∃ x y m' s', s.allocTwoBlocksMetadata D.mdAlloc = .ok (.ok (x, y), s') ∧
      Pair D root X m m' x y ∧ Holds D root X B m' s') ∨
    ∃ e m' s', s.allocTwoBlocksMetadata D.mdAlloc = .ok (.error e, s') ∧
      D.taken m' = D.taken m ∧ Holds D root X B m' s' := by
  rcases h.allocBlockMetadata with ⟨x, m₁, s₁, hs₁, hm₁, hx, h₁⟩ | ⟨e, m₁, s₁, hs₁, hm₁, h₁⟩
  · obtain ⟨hxt, ht₁⟩ := D.take_ok m x m₁ hm₁
    rcases h₁.allocBlockMetadata with ⟨y, m₂, s₂, hs₂, hm₂, hy, h₂⟩ | ⟨e, m₂, s₂, hs₂, hm₂, h₂⟩
    · obtain ⟨hyt, ht₂⟩ := D.take_ok m₁ y m₂ hm₂
      rw [ht₁, Finset.mem_insert, not_or] at hyt
      refine .inl ⟨x, y, m₂, s₂, ?_, ⟨fun he => hyt.1 he.symm, hxt, hyt.2, ht₁ ▸ ht₂, h.taken⟩, h₂⟩
      simp only [AllocatorAvl.allocTwoBlocksMetadata, hs₁, hs₂, Exec.ok_bind]
    · -- the first entry goes back
      have ht₂ := D.take_error m₁ e m₂ hm₂
      obtain ⟨m₃, s₃, hs₃, -, ht₃, h₃⟩ := h₂.giveBack ⟨ht₂ ▸ hx.taken, hx.notMem⟩
      refine .inr ⟨e, m₃, s₃, ?_, ?_, h₃⟩
      · simp only [AllocatorAvl.allocTwoBlocksMetadata, hs₁, hs₂, hs₃, Exec.ok_bind]
      · rw [ht₃, ht₂, ht₁, Finset.erase_insert hxt]
  · refine .inr ⟨e, m₁, s₁, ?_, D.take_error m e m₁ hm₁, h₁⟩
    simp only [AllocatorAvl.allocTwoBlocksMetadata, hs₁, Exec.ok_bind]

omit [Fintype ι] in
/-- The two entries go back. -/
theorem giveTwo {n : μ} (h : Holds D root X B m s) (hp : Pair D root X n m x y) :
    ∃ m₁ s₁ m₂ s₂, D.mdAlloc.free x s = .ok s₁ ∧ D.mdAlloc.free y s₁ = .ok s₂ ∧
      D.give y m₁ = .ok m₂ ∧ D.taken m₂ = D.taken n ∧ Holds D root X B m₂ s₂ := by
  obtain ⟨m₁, s₁, hs₁, -, ht₁, h₁⟩ := h.giveBack hp.spare_left
  have hy : Spare D root X m₁ y := by
    refine ⟨?_, hp.spare_right.notMem⟩
    rw [ht₁]
    exact Finset.mem_erase.mpr ⟨hp.ne.symm, hp.spare_right.taken⟩
  obtain ⟨m₂, s₂, hs₂, hm₂, ht₂, h₂⟩ := h₁.giveBack hy
  refine ⟨m₁, s₁, m₂, s₂, hs₁, hs₂, hm₂, ?_, h₂⟩
  rw [ht₂, ht₁, hp.erase]

/-! ## Cutting a block -/

/-- A part of a block comes back into the tree, if there is something of it. -/
theorem addFree (h : Holds D root X B m s) (hx : Spare D root X m x) (addr size : Nat) :
    ∃ X' m' s', s.addFree root D.mdAlloc x addr size = .ok s' ∧
      Holds D root X' (piece addr size + B) m' s' ∧
      (∀ z, z ≠ x → Spare D root X m z → Spare D root X' m' z) ∧
      (D.Prompt → D.Ready m → D.Ready m') := by
  by_cases hsize : 0 < size
  · obtain ⟨s', hs, h'⟩ := h.addBlock hx ⟨addr, size, false⟩
    refine ⟨insert x X, m, s', ?_, ?_, ?_, fun _ hr => hr⟩
    · rw [AllocatorAvl.addFree, if_pos hsize, hs]
    · rwa [piece, if_pos hsize]
    · intro z hz hzs
      refine ⟨hzs.taken, ?_⟩
      have := hzs.notMem
      simp only [Finset.mem_insert] at this ⊢
      tauto
  · obtain ⟨m', s', hs, hm, ht, h'⟩ := h.giveBack hx
    refine ⟨X, m', s', ?_, ?_, ?_, fun hp _ => hp m x m' hm⟩
    · rw [AllocatorAvl.addFree, if_neg hsize, hs]
    · rwa [piece, if_neg hsize, zero_add]
    · intro z hz hzs
      exact ⟨ht ▸ Finset.mem_erase.mpr ⟨hz, hzs.taken⟩, hzs.notMem⟩

/-- `_cut_from_block` puts the remaining parts in place of the block. -/
theorem cutFromBlock (h : Holds D root X B m s) (hx : x ∈ X) (h₁ : Spare D root X m b₁)
    (h₂ : Spare D root X m b₂) (hne : b₁ ≠ b₂) (addr size : Nat) :
    ∃ C X' m' s', s.cutFromBlock root D.mdAlloc x addr size b₁ b₂ = .ok s' ∧
      B = s.block x ::ₘ C ∧ Holds D root X' ((s.block x).pieces addr size + C) m' s' ∧
      (D.Prompt → D.Ready m') := by
  obtain ⟨C, m₀, s₀, hs₀, hB, hm₀, ht₀, h₀⟩ := h.destroyBlock hx
  have hsp : ∀ z, Spare D root X m z → Spare D root (X.erase x) m₀ z := by
    intro z hz
    have hzx : z ≠ x := by
      rintro rfl
      exact hz.notMem (Finset.mem_insert_of_mem hx)
    refine ⟨ht₀ ▸ Finset.mem_erase.mpr ⟨hzx, hz.taken⟩, ?_⟩
    exact fun hc => hz.notMem (Finset.insert_subset_insert _ (Finset.erase_subset _ _) hc)
  obtain ⟨X₁, m₁, s₁, hs₁, h₁', hk₁, hr₁⟩ :=
    h₀.addFree (hsp b₁ h₁) (s.block x).addr ((s.block x).padding addr)
  obtain ⟨X₂, m₂, s₂, hs₂, h₂', -, hr₂⟩ :=
    h₁'.addFree (hk₁ b₂ hne.symm (hsp b₂ h₂)) (add64 addr size) ((s.block x).remaining addr size)
  refine ⟨C, X₂, m₂, s₂, ?_, hB, ?_, fun hp => hr₂ hp (hr₁ hp (hp m x m₀ hm₀))⟩
  · show (do
      let s₀ ← s.destroyBlock D.mdAlloc x
      let s₁ ← s₀.addFree root D.mdAlloc b₁ (s.block x).addr ((s.block x).padding addr)
      s₁.addFree root D.mdAlloc b₂ (add64 addr size) ((s.block x).remaining addr size)) = _
    rw [hs₀, Exec.ok_bind, hs₁, Exec.ok_bind, hs₂]
  · rw [Block.pieces, add_comm (piece (s.block x).addr _), add_assoc]
    exact h₂'

end Holds

end Genode.Base
