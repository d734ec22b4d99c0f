import Mathlib.Data.Set.Card
import Mathlib.Data.Finite.Prod
import Mathlib.Order.Interval.Set.Nat
import Genode.Core.RegionMap
import Genode.Lib.Forest

/-!
# UnmapRegion — detaching a region that others show

`core/region_map_component.cc`. A region map is also a dataspace, which
can be attached to region maps, also to itself. So when a region is
detached, its pages may have to be flushed at many places:
`unmap_region` follows all regions that show the dataspace, and theirs in
turn. It neither counts its steps nor notes where it has been.

It ends because of the regions being disjoint: what an address shows is
one position in one region map, so the positions that show another one
form a forest, and the position of the detached region, which shows
nothing any more, is a root of it.

The kernel supports the direct unmapping of pages. No region reaches the
end of the 64-bit address range, for no region map does.
-/

namespace Genode.Core

open Lib Relation

variable {μ : Type}

/-- A range of addresses that is flushed in the address space of a region map. -/
structure Flush (μ : Type) where
  rm : μ
  base : Nat
  size : Nat
  deriving DecidableEq, Repr

def Flush.Covers (f : Flush μ) (a : Nat) : Prop := f.base ≤ a ∧ a < f.base + f.size

/-- All region maps. -/
structure RegionMaps (μ : Type) where
  map : μ → RegionMap μ
  /-- The regions of the dataspace that the region map represents, with the
  region map that each of them belongs to. -/
  attached : μ → List (μ × RmRegion μ)
  /-- The region map is the address space of threads. -/
  addressSpace : μ → Bool

namespace RegionMaps

variable (s : RegionMaps μ)

/-- `ds_base`, where the region and the range to unmap begin to overlap. -/
def dsBase (r : RmRegion μ) (base : Nat) : Nat := max r.offset base

/-- `ds_size`. -/
def dsSize (r : RmRegion μ) (base size : Nat) : Nat :=
  let dsEnd := min (add64 r.offset r.size) (add64 base size)
  if dsBase r base < dsEnd then dsEnd - dsBase r base else 0

/-- Where the overlap begins in the region map of the region. -/
def unmapBase (r : RmRegion μ) (base : Nat) : Nat :=
  sub64 (add64 r.base (dsBase r base)) r.offset

/-- The loop of `unmap_region`, with the recursive call as an argument. -/
def unmapLoop (unmapRegion : μ → Nat → Nat → Option (List (Flush μ))) (base size : Nat) :
    List (μ × RmRegion μ) → Option (List (Flush μ))
  | [] => some []
  | (rm, r) :: rs =>
    -- if size is not zero, there is an overlap
    (if dsSize r base size ≠ 0 then unmapRegion rm (unmapBase r base) (dsSize r base size)
      else some []).bind fun flushed =>
        (unmapLoop unmapRegion base size rs).map fun rest => flushed ++ rest

/-- `unmap_region`, with a bound for the depth of the recursion. -/
def unmapRegion : Nat → μ → Nat → Nat → Option (List (Flush μ))
  | 0, _, _, _ => none
  | depth + 1, m, base, size =>
    (unmapLoop (unmapRegion depth) base size (s.attached m)).map fun rest =>
      (if s.addressSpace m then [⟨m, base, size⟩] else []) ++ rest

section Detach

variable [DecidableEq μ]

/-- The region leaves its dataspace and its region map. -/
def removed (m : μ) (r : RmRegion μ) : RegionMaps μ :=
  { s with
    map := Function.update s.map m { s.map m with regions := (s.map m).regions.erase r }
    attached := match r.dataspace with
      | .memory _ => s.attached
      | .managed subRm _ =>
        Function.update s.attached subRm ((s.attached subRm).erase (m, r)) }

/-- What `_attach` does with a region for which `_map` had room. -/
def inserted (m : μ) (r : RmRegion μ) : RegionMaps μ :=
  { s with
    map := Function.update s.map m { s.map m with regions := r :: (s.map m).regions }
    attached := match r.dataspace with
      | .memory _ => s.attached
      | .managed subRm _ => Function.update s.attached subRm ((m, r) :: s.attached subRm) }

/-- `detach`; the outcome is what is left and what was flushed. -/
def detach (depth : Nat) (m : μ) (localAddr : Nat) :
    Option (RegionMaps μ × List (Flush μ)) :=
  match (s.map m).metadata localAddr with
  | none => some (s, [])
  | some r =>
    ((s.removed m r).unmapRegion depth m r.base r.size).map fun flushed =>
      (s.removed m r, flushed)

end Detach

/-- What the position `p`, an address in a region map, shows: a position in
another region map. -/
def shows (p : μ × Nat) : Option (μ × Nat) :=
  ((s.map p.1).metadata p.2).bind fun r =>
    match r.dataspace with
    | .memory _ => none
    | .managed subRm _ => some (subRm, r.translate p.2)

/-- The dataspaces know their regions, and the regions of a region map are
disjoint. -/
structure Consistent : Prop where
  mem_attached : ∀ m m' r, (m', r) ∈ s.attached m ↔
    r ∈ (s.map m').regions ∧ ∃ size, r.dataspace = .managed m size
  nodup : ∀ m, (s.map m).regions.Nodup
  nodup_attached : ∀ m, (s.attached m).Nodup
  disjoint : ∀ m, ∀ r ∈ (s.map m).regions, ∀ r' ∈ (s.map m).regions, ∀ a,
    r.Covers a → r'.Covers a → r = r'
  size_pos : ∀ m, ∀ r ∈ (s.map m).regions, 0 < r.size
  base_size : ∀ m, ∀ r ∈ (s.map m).regions, r.base + r.size < 2 ^ 64
  offset_size : ∀ m, ∀ r ∈ (s.map m).regions, r.offset + r.size < 2 ^ 64

variable {s} {m m' : μ} {r : RmRegion μ} {a b : Nat}

namespace Consistent

theorem metadata_eq (h : s.Consistent) (hr : r ∈ (s.map m).regions) (ha : r.Covers a) :
    (s.map m).metadata a = some r := by
  cases hm : (s.map m).metadata a with
  | none =>
    unfold RegionMap.metadata at hm
    rw [List.find?_eq_none] at hm
    simpa [ha] using hm r hr
  | some r' =>
    obtain ⟨hr', ha'⟩ := RegionMap.metadata_eq_some hm
    rw [h.disjoint m r' hr' r hr a ha' ha]

theorem shows_eq_some (h : s.Consistent) : s.shows (m', a) = some (m, b) ↔
    ∃ r, (m', r) ∈ s.attached m ∧ r.Covers a ∧ b = r.translate a := by
  constructor
  · intro hs
    obtain ⟨r, hr, hd⟩ := Option.bind_eq_some_iff.mp hs
    obtain ⟨hmem, hc⟩ := RegionMap.metadata_eq_some hr
    cases hds : r.dataspace with
    | memory ds => simp [hds] at hd
    | managed subRm size =>
      simp only [hds, Option.some.injEq, Prod.mk.injEq] at hd
      obtain ⟨rfl, rfl⟩ := hd
      exact ⟨r, (h.mem_attached _ _ _).mpr ⟨hmem, size, hds⟩, hc, rfl⟩
  · rintro ⟨r, hr, hc, rfl⟩
    obtain ⟨hmem, size, hds⟩ := (h.mem_attached _ _ _).mp hr
    simp [shows, h.metadata_eq hmem hc, hds]

/-- There are finitely many positions. -/
theorem finite_shows [Finite μ] (h : s.Consistent) : {p | s.shows p ≠ none}.Finite := by
  refine (Set.finite_univ.prod (Set.finite_Iio (2 ^ 64))).subset ?_
  rintro ⟨m, a⟩ hp
  obtain ⟨⟨m', b⟩, hb⟩ := Option.ne_none_iff_exists'.mp hp
  obtain ⟨r, hr, hc, -⟩ := h.shows_eq_some.mp hb
  have hsize := h.base_size _ _ ((h.mem_attached _ _ _).mp hr).1
  unfold RmRegion.Covers at hc
  exact ⟨Set.mem_univ _, Set.mem_Iio.mpr (by dsimp only; omega)⟩

end Consistent

/-! ## The recursion -/

variable {base size : Nat}

/-- The range that the recursive call gets is what the region shows of the
range to unmap. -/
theorem unmapBase_le_iff (hr : r.base + r.size < 2 ^ 64) (ho : r.offset + r.size < 2 ^ 64)
    (hb : base + size < 2 ^ 64) :
    unmapBase r base ≤ a ∧ a < unmapBase r base + dsSize r base size ↔
      r.Covers a ∧ base ≤ r.translate a ∧ r.translate a < base + size := by
  unfold dsSize RmRegion.Covers RmRegion.translate
  rw [add64_of_lt ho, add64_of_lt hb]
  dsimp only
  split
  · rename_i hlt
    have hstop := hlt.trans_le (min_le_left _ _)
    have hstart : unmapBase r base = r.base + (dsBase r base - r.offset) :=
      sub64_add64 (le_max_left _ _) (hstop.trans ho) (by omega)
    rw [hstart]
    unfold dsBase at hlt ⊢
    clear hr ho hb hstop hstart
    omega
  · rename_i hge
    unfold dsBase at hge
    clear hr ho hb
    omega

theorem unmapBase_add_lt (hr : r.base + r.size < 2 ^ 64) (ho : r.offset + r.size < 2 ^ 64)
    (hb : base + size < 2 ^ 64) (hne : dsSize r base size ≠ 0) :
    unmapBase r base + dsSize r base size < 2 ^ 64 := by
  have h := (unmapBase_le_iff hr ho hb (a := unmapBase r base + dsSize r base size - 1)).mp
    ⟨by omega, by omega⟩
  unfold RmRegion.Covers at h
  omega

/-- The loop returns, if all its recursive calls do. -/
theorem unmapLoop_returns {unmap : μ → Nat → Nat → Option (List (Flush μ))}
    {rs : List (μ × RmRegion μ)}
    (h : ∀ e ∈ rs, dsSize e.2 base size ≠ 0 →
      ∃ flushed, unmap e.1 (unmapBase e.2 base) (dsSize e.2 base size) = some flushed) :
    ∃ flushed, unmapLoop unmap base size rs = some flushed := by
  induction rs with
  | nil => exact ⟨[], rfl⟩
  | cons e rs ih =>
    rw [List.forall_mem_cons] at h
    obtain ⟨rest, hrest⟩ := ih h.2
    unfold unmapLoop
    split
    · rename_i hne
      obtain ⟨flushed, hf⟩ := h.1 hne
      exact ⟨flushed ++ rest, by simp [hf, hrest]⟩
    · exact ⟨rest, by simp [hrest]⟩

/-- The loop flushes what its recursive calls flush. -/
theorem subset_unmapLoop {unmap : μ → Nat → Nat → Option (List (Flush μ))}
    {rs : List (μ × RmRegion μ)} {flushed : List (Flush μ)}
    (h : unmapLoop unmap base size rs = some flushed) :
    ∀ e ∈ rs, dsSize e.2 base size ≠ 0 →
      ∃ part, unmap e.1 (unmapBase e.2 base) (dsSize e.2 base size) = some part ∧
        ∀ f ∈ part, f ∈ flushed := by
  induction rs generalizing flushed with
  | nil => simp
  | cons e rs ih =>
    unfold unmapLoop at h
    obtain ⟨first, hfirst, h⟩ := Option.bind_eq_some_iff.mp h
    obtain ⟨rest, hrest, rfl⟩ := Option.map_eq_some_iff.mp h
    rw [List.forall_mem_cons]
    constructor
    · intro hne
      rw [if_pos hne] at hfirst
      exact ⟨first, hfirst, fun f hf => List.mem_append_left _ hf⟩
    · intro e' he' hne
      obtain ⟨part, hpart, hsub⟩ := ih hrest e' he' hne
      exact ⟨part, hpart, fun f hf => List.mem_append_right _ (hsub f hf)⟩

/-- The recursion returns: its depth is bounded by the number of positions
that show what is unmapped. -/
theorem unmapRegion_returns [Finite μ] (h : s.Consistent) {depth : Nat}
    (hb : base + size < 2 ^ 64)
    (hd : ∀ a, base ≤ a → a < base + size → ¬ OnCycle s.shows (m, a) ∧
      (strictBelow s.shows (m, a)).ncard < depth) (hpos : 0 < size) :
    ∃ flushed, s.unmapRegion depth m base size = some flushed := by
  induction depth generalizing m base size with
  | zero => exact absurd (hd base le_rfl (by omega)).2 (Nat.not_lt_zero _)
  | succ depth ih =>
    suffices hloop : ∃ rest, unmapLoop (s.unmapRegion depth) base size (s.attached m) = some rest by
      obtain ⟨rest, hrest⟩ := hloop
      exact ⟨_, by rw [unmapRegion, hrest, Option.map_some]⟩
    apply unmapLoop_returns
    rintro ⟨m', r⟩ hr hne
    have hmem := ((h.mem_attached _ _ _).mp hr).1
    have hbase := h.base_size _ _ hmem
    have hoff := h.offset_size _ _ hmem
    refine ih (unmapBase_add_lt hbase hoff hb hne) (fun a ha ha' => ?_) (Nat.pos_of_ne_zero hne)
    obtain ⟨hc, hin⟩ := (unmapBase_le_iff hbase hoff hb).mp ⟨ha, ha'⟩
    have hshow : s.shows (m', a) = some (m, r.translate a) :=
      h.shows_eq_some.mpr ⟨r, hr, hc, rfl⟩
    obtain ⟨hcyc, hlt⟩ := hd _ hin.1 hin.2
    exact ⟨not_onCycle_of_mem_below hcyc (.single hshow),
      (ncard_strictBelow_lt h.finite_shows hcyc hshow).trans_le (Nat.lt_succ_iff.mp hlt)⟩

/-- The recursion flushes every position that shows what is unmapped. -/
theorem unmapRegion_flushes (h : s.Consistent) {depth : Nat} {flushed : List (Flush μ)} {x : Nat}
    (hb : base + size < 2 ^ 64) (hf : s.unmapRegion depth m base size = some flushed)
    (hx : base ≤ x ∧ x < base + size) (hs : ReflTransGen (Up s.shows) (m', a) (m, x))
    (hm' : s.addressSpace m' = true) : ∃ f ∈ flushed, f.rm = m' ∧ f.Covers a := by
  induction depth generalizing m base size flushed x with
  | zero => simp [unmapRegion] at hf
  | succ depth ih =>
    rw [unmapRegion] at hf
    obtain ⟨rest, hrest, rfl⟩ := Option.map_eq_some_iff.mp hf
    rcases ReflTransGen.cases_tail hs with heq | ⟨⟨m₁, x₁⟩, hs₁, hstep⟩
    · obtain ⟨rfl, rfl⟩ := Prod.mk.inj heq
      exact ⟨⟨m, base, size⟩, by simp [hm'], rfl, hx⟩
    · obtain ⟨r, hr, hc, rfl⟩ := h.shows_eq_some.mp hstep
      have hmem := ((h.mem_attached _ _ _).mp hr).1
      have hbase := h.base_size _ _ hmem
      have hoff := h.offset_size _ _ hmem
      have hx₁ := (unmapBase_le_iff hbase hoff hb).mpr ⟨hc, hx⟩
      have hne : dsSize r base size ≠ 0 := by omega
      obtain ⟨part, hpart, hsub⟩ := subset_unmapLoop hrest (m₁, r) hr hne
      obtain ⟨f, hfm, hfc⟩ := ih (unmapBase_add_lt hbase hoff hb hne) hpart hx₁ hs₁
      exact ⟨f, List.mem_append_right _ (hsub f hfm), hfc⟩

/-! ## Detaching -/

section Removed

variable [DecidableEq μ] {r' : RmRegion μ} {m₂ : μ}

theorem mem_map_removed (h : s.Consistent) :
    r' ∈ ((s.removed m r).map m').regions ↔ r' ∈ (s.map m').regions ∧ (m', r') ≠ (m, r) := by
  by_cases hm : m' = m
  · subst hm
    simp [removed, (h.nodup m').mem_erase_iff, and_comm]
  · simp [removed, hm]

theorem mem_attached_removed (h : s.Consistent) :
    (m', r') ∈ (s.removed m r).attached m₂ ↔ (m', r') ∈ s.attached m₂ ∧ (m', r') ≠ (m, r) := by
  cases hd : r.dataspace with
  | memory ds =>
    simp only [removed, hd]
    refine ⟨fun hr => ⟨hr, ?_⟩, And.left⟩
    rintro ⟨rfl, rfl⟩
    obtain ⟨-, size, hds⟩ := (h.mem_attached _ _ _).mp hr
    simp [hd] at hds
  | managed subRm size =>
    simp only [removed, hd]
    by_cases hm : m₂ = subRm
    · subst hm
      rw [Function.update_self, (h.nodup_attached m₂).mem_erase_iff, and_comm]
    · rw [Function.update_of_ne hm]
      refine ⟨fun hr => ⟨hr, ?_⟩, And.left⟩
      rintro ⟨rfl, rfl⟩
      obtain ⟨-, size', hds⟩ := (h.mem_attached _ _ _).mp hr
      rw [hd] at hds
      exact hm (Dataspace.managed.inj hds).1.symm

theorem Consistent.removed (h : s.Consistent) (m : μ) (r : RmRegion μ) :
    (s.removed m r).Consistent where
  mem_attached m₂ m' r' := by
    rw [mem_attached_removed h, mem_map_removed h, h.mem_attached, and_right_comm]
  nodup m' := by
    by_cases hm : m' = m
    · subst hm
      simpa [RegionMaps.removed] using (h.nodup m').erase r
    · simpa [RegionMaps.removed, Function.update_of_ne hm] using h.nodup m'
  nodup_attached m₂ := by
    cases hd : r.dataspace with
    | memory ds => simpa [RegionMaps.removed, hd] using h.nodup_attached m₂
    | managed subRm size =>
      simp only [RegionMaps.removed, hd]
      by_cases hm : m₂ = subRm
      · subst hm
        rw [Function.update_self]
        exact (h.nodup_attached m₂).erase _
      · rw [Function.update_of_ne hm]
        exact h.nodup_attached m₂
  disjoint m' r₁ h₁ r₂ h₂ :=
    h.disjoint m' r₁ ((mem_map_removed h).mp h₁).1 r₂ ((mem_map_removed h).mp h₂).1
  size_pos m' r' hr := h.size_pos m' r' ((mem_map_removed h).mp hr).1
  base_size m' r' hr := h.base_size m' r' ((mem_map_removed h).mp hr).1
  offset_size m' r' hr := h.offset_size m' r' ((mem_map_removed h).mp hr).1

theorem mem_map_inserted :
    r' ∈ ((s.inserted m r).map m').regions ↔ r' ∈ (s.map m').regions ∨ (m', r') = (m, r) := by
  by_cases hm : m' = m
  · subst hm
    simp [inserted, or_comm]
  · simp [inserted, hm]

theorem mem_attached_inserted :
    (m', r') ∈ (s.inserted m r).attached m₂ ↔ (m', r') ∈ s.attached m₂ ∨
      (m', r') = (m, r) ∧ ∃ size, r.dataspace = .managed m₂ size := by
  cases hd : r.dataspace with
  | memory ds => simp [inserted, hd]
  | managed subRm size =>
    by_cases hm : m₂ = subRm
    · subst hm
      simp [inserted, hd, or_comm]
    · have hm' : subRm ≠ m₂ := Ne.symm hm
      simp [inserted, hd, hm, hm']

/-- A region may be attached wherever there is room for it. -/
theorem Consistent.inserted (h : s.Consistent)
    (hfree : ∀ r' ∈ (s.map m).regions, ∀ a, r.Covers a → ¬ r'.Covers a) (hpos : 0 < r.size)
    (hbase : r.base + r.size < 2 ^ 64) (hoff : r.offset + r.size < 2 ^ 64) :
    (s.inserted m r).Consistent := by
  have hnew : r ∉ (s.map m).regions := fun hr =>
    hfree r hr r.base ⟨le_rfl, by omega⟩ ⟨le_rfl, by omega⟩
  refine ⟨fun m₂ m' r' => ?_, fun m' => ?_, fun m₂ => ?_, fun m' r₁ h₁ r₂ h₂ a hc₁ hc₂ => ?_,
    fun m' r' hr' => ?_, fun m' r' hr' => ?_, fun m' r' hr' => ?_⟩
  · rw [mem_attached_inserted, mem_map_inserted, h.mem_attached, or_and_right]
    refine or_congr_right (and_congr_right fun he => ?_)
    rw [(Prod.mk.inj he).2]
  · by_cases hm : m' = m
    · subst hm
      simpa [RegionMaps.inserted] using ⟨hnew, h.nodup m'⟩
    · simpa [RegionMaps.inserted, hm] using h.nodup m'
  · cases hd : r.dataspace with
    | memory ds => simpa [RegionMaps.inserted, hd] using h.nodup_attached m₂
    | managed subRm size =>
      have hnew' : (m, r) ∉ s.attached m₂ := fun hr => hnew ((h.mem_attached _ _ _).mp hr).1
      by_cases hm : m₂ = subRm
      · subst hm
        simpa [RegionMaps.inserted, hd] using ⟨hnew', h.nodup_attached m₂⟩
      · simpa [RegionMaps.inserted, hd, hm] using h.nodup_attached m₂
  · rcases mem_map_inserted.mp h₁ with ho₁ | hn₁ <;> rcases mem_map_inserted.mp h₂ with ho₂ | hn₂
    · exact h.disjoint m' r₁ ho₁ r₂ ho₂ a hc₁ hc₂
    · obtain ⟨rfl, rfl⟩ := Prod.mk.inj hn₂
      exact (hfree r₁ ho₁ a hc₂ hc₁).elim
    · obtain ⟨rfl, rfl⟩ := Prod.mk.inj hn₁
      exact (hfree r₂ ho₂ a hc₁ hc₂).elim
    · rw [(Prod.mk.inj hn₁).2, (Prod.mk.inj hn₂).2]
  · rcases mem_map_inserted.mp hr' with hr' | hr'
    · exact h.size_pos m' r' hr'
    · rwa [(Prod.mk.inj hr').2]
  · rcases mem_map_inserted.mp hr' with hr' | hr'
    · exact h.base_size m' r' hr'
    · rwa [(Prod.mk.inj hr').2]
  · rcases mem_map_inserted.mp hr' with hr' | hr'
    · exact h.offset_size m' r' hr'
    · rwa [(Prod.mk.inj hr').2]

/-- The detached region shows nothing any more. -/
theorem shows_removed_eq_none (h : s.Consistent) (hr : r ∈ (s.map m).regions) (ha : r.Covers a) :
    (s.removed m r).shows (m, a) = none := by
  by_contra hne
  obtain ⟨⟨m₂, b⟩, hb⟩ := Option.ne_none_iff_exists'.mp hne
  obtain ⟨r', hr', hc, -⟩ := (h.removed m r).shows_eq_some.mp hb
  obtain ⟨hr', hne'⟩ := (mem_attached_removed h).mp hr'
  have heq := h.disjoint m r' ((h.mem_attached _ _ _).mp hr').1 r hr a hc ha
  exact hne' (by rw [heq])

/-- A chain of attachments to the detached region does not need this region:
it may be cut where it first comes to it. -/
theorem exists_shows_removed (h : s.Consistent) (hr : r ∈ (s.map m).regions) {p : μ × Nat}
    {x : Nat} (hx : r.Covers x) (hs : ReflTransGen (Up s.shows) p (m, x)) :
    ∃ x', r.Covers x' ∧ ReflTransGen (Up (s.removed m r).shows) p (m, x') := by
  induction hs using ReflTransGen.head_induction_on with
  | refl => exact ⟨x, hx, .refl⟩
  | @head p p' hstep _ ih =>
    obtain ⟨x', hx', hs'⟩ := ih
    obtain ⟨r₁, hr₁, hc, hp'⟩ := h.shows_eq_some.mp hstep
    by_cases heq : (p.1, r₁) = (m, r)
    · obtain ⟨hm, rfl⟩ := Prod.mk.inj heq
      exact ⟨p.2, hc, hm ▸ .refl⟩
    · have hstep' : Up (s.removed m r).shows p p' :=
        (h.removed m r).shows_eq_some.mpr ⟨r₁, (mem_attached_removed h).mpr ⟨hr₁, heq⟩, hc, hp'⟩
      exact ⟨x', hx', .head hstep' hs'⟩

/-- Whatever region maps are attached to one another: `detach` returns, and
it has flushed every address at which the region was visible. -/
theorem detach_returns_flushed [Finite μ] (h : s.Consistent) (m : μ) (localAddr : Nat) :
    ∃ depth₀, ∀ depth ≥ depth₀, ∃ s' flushed, s.detach depth m localAddr = some (s', flushed) ∧
      ∀ r, (s.map m).metadata localAddr = some r →
        ∀ m' a x, s.addressSpace m' = true → r.Covers x →
          ReflTransGen (Up s.shows) (m', a) (m, x) → ∃ f ∈ flushed, f.rm = m' ∧ f.Covers a := by
  cases hm : (s.map m).metadata localAddr with
  | none => exact ⟨0, fun depth _ => ⟨s, [], by simp [detach, hm], fun r hr => by simp at hr⟩⟩
  | some r =>
    obtain ⟨hr, -⟩ := RegionMap.metadata_eq_some hm
    have h' := h.removed m r
    have hb := h.base_size m r hr
    refine ⟨{p | (s.removed m r).shows p ≠ none}.ncard + 1, fun depth hdepth => ?_⟩
    -- all positions that show the region lie below a root
    have hroot : ∀ a, r.base ≤ a → a < r.base + r.size →
        ¬ OnCycle (s.removed m r).shows (m, a) ∧
          (strictBelow (s.removed m r).shows (m, a)).ncard < depth := by
      intro a ha ha'
      have hle := Set.ncard_le_ncard (strictBelow_subset (f := (s.removed m r).shows) (x := (m, a)))
        h'.finite_shows
      exact ⟨not_onCycle_of_none (shows_removed_eq_none h hr ⟨ha, ha'⟩), by omega⟩
    obtain ⟨flushed, hf⟩ := unmapRegion_returns h' hb hroot (h.size_pos m r hr)
    refine ⟨s.removed m r, flushed, by simp [detach, hm, hf], ?_⟩
    intro r' hr' m' a x hm' hx hs
    obtain rfl := Option.some.inj hr'
    obtain ⟨x', hx', hs'⟩ := exists_shows_removed h hr hx hs
    exact unmapRegion_flushes h' hb hf hx' hs' hm'

end Removed

/-- One region map, without regions. -/
def single : RegionMaps Unit :=
  { map := fun _ => ⟨[], false⟩, attached := fun _ => [], addressSpace := fun _ => true }

/-- A page of memory. -/
def page : RmRegion Unit :=
  ⟨0x3000, 0x1000, true, true, 0, false, .memory ⟨0x100000, 0x1000, true, .cached, false⟩⟩

/-- Two pages that show the region map itself: first the page before them,
then the first one of them. -/
def mirror : RmRegion Unit := ⟨0x4000, 0x2000, true, true, 0x3000, false, .managed () 0x10000⟩

/-- A region map that is attached to itself. -/
def mirrored : RegionMaps Unit := (single.inserted () mirror).inserted () page

theorem consistent_mirrored : mirrored.Consistent := by
  have hsingle : single.Consistent :=
    ⟨by simp [single], by simp [single], by simp [single], by simp [single], by simp [single],
      by simp [single], by simp [single]⟩
  have hmirror : (single.inserted () mirror).Consistent :=
    hsingle.inserted (by simp [single]) (by decide) (by decide) (by decide)
  refine hmirror.inserted (fun r hr a ha => ?_) (by decide) (by decide) (by decide)
  obtain rfl : r = mirror := by simpa [inserted, single] using hr
  unfold RmRegion.Covers page at ha
  unfold RmRegion.Covers mirror
  dsimp only at ha ⊢
  omega

/-- The page is also seen through the mirror, and in the mirror through the mirror. -/
theorem detach_returns_flushed_mirrored :
    ∃ depth flushed s', mirrored.detach depth () 0x3000 = some (s', flushed) ∧
      ∃ f ∈ flushed, f.Covers 0x5000 := by
  obtain ⟨depth, hd⟩ := detach_returns_flushed consistent_mirrored () 0x3000
  obtain ⟨s', flushed, hs, hall⟩ := hd depth le_rfl
  have hstep₁ : Up mirrored.shows ((), 0x5000) ((), 0x4000) := rfl
  have hstep₂ : Up mirrored.shows ((), 0x4000) ((), 0x3000) := rfl
  obtain ⟨f, hf, -, hc⟩ := hall page (by decide) () 0x5000 0x3000 rfl (by decide)
    (.head hstep₁ (.single hstep₂))
  exact ⟨depth, flushed, s', hs, f, hf, hc⟩

end RegionMaps

end Genode.Core
