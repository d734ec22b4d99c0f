import Genode.Core.RegionMap

/-!
# PageFault — a fault is answered with what the regions show

The recursion through the region maps keeps track of one thing: which
addresses of the faulting thread the bounds of the current level stand
for, and that those lead through all regions passed by.
-/

namespace Genode.Core.RegionMap

open Lib

variable {μ : Type} {maps : μ → Option (RegionMap μ)} {rm : RegionMap μ} {f : Fault}

/-- The fault `f` at the region map leads through the regions `rs` to the
last one of them, `r`, and is there the fault `g`, relative to that region. -/
structure Reaches (maps : μ → Option (RegionMap μ)) (rm : RegionMap μ) (f : Fault)
    (rs : List (RmRegion μ)) (r : RmRegion μ) (ds : Memory) (g : Fault) : Prop where
  sized : g.bounds.Sized
  hotspot_lt : g.hotspot + r.offset < ds.size
  size_lt : ds.size < 2 ^ 64
  hotspot_mod : g.hotspot % 2 ^ pageSizeLog2 = f.hotspot % 2 ^ pageSizeLog2
  offset_dvd : 2 ^ pageSizeLog2 ∣ r.offset
  paged : ds.Paged
  write : g.w = true → f.w = true ∧ ∀ r ∈ rs, r.write = true
  exec : g.x = true → f.x = true ∧ ∀ r ∈ rs, r.executable = true
  /-- An address within the bounds, and what it is for the faulting thread. -/
  translates : ∀ a, g.bounds.Holds a → ∃ b, b + g.hotspot = f.hotspot + a ∧ f.bounds.Holds b ∧
    Translates maps rm b rs ds (ds.base + (a + r.offset))

/-- The fault at the region that the lookup finds. -/
structure Found (rm : RegionMap μ) (f : Fault) (r : RmRegion μ) : Prop where
  mem : r ∈ rm.regions
  covers : r.Covers f.hotspot
  fits : r.Fits

theorem Found.hotspot {r : RmRegion μ} (h : Found rm f r) :
    (f.withinRegion r).hotspot = f.hotspot - r.base := Addr.reducedBy_of_le h.covers.1

theorem Found.hotspot_mod {r : RmRegion μ} (h : Found rm f r) :
    (f.withinRegion r).hotspot % 2 ^ pageSizeLog2 = f.hotspot % 2 ^ pageSizeLog2 := by
  obtain ⟨k, hk⟩ := h.fits.base_dvd
  have hle := h.covers.1
  rw [h.hotspot, hk, Nat.sub_mul_mod]
  rwa [hk] at hle

/-- The region shows memory. -/
theorem Found.reaches {r : RmRegion μ} {ds : Memory} (h : Found rm f r) (hb : f.bounds.Sized)
    (hd : r.dataspace = .memory ds) (hp : ds.Paged) :
    Reaches maps rm f [r] r ds (f.withinRegion r) where
  sized := (hb.intersected h.fits.sized_range).reducedBy
  hotspot_lt := by
    have h₁ := h.covers
    have h₂ := h.fits.offset_size
    rw [hd, Dataspace.size] at h₂
    rw [h.hotspot]
    unfold RmRegion.Covers at h₁
    omega
  size_lt := by
    have h₁ := h.fits.dataspace_size
    rwa [hd, Dataspace.size] at h₁
  hotspot_mod := h.hotspot_mod
  offset_dvd := h.fits.offset_dvd
  paged := hp
  write hw := by simpa [Fault.withinRegion] using hw
  exec hx := by simpa [Fault.withinRegion] using hx
  translates a ha := by
    obtain ⟨hf, hc⟩ := h.fits.holds_within hb ha
    refine ⟨a + r.base, ?_, hf, ?_⟩
    · have hle := h.covers.1
      rw [h.hotspot]
      omega
    · have ht : Translates maps rm _ _ ds _ := .memory h.mem hc hd
      rwa [RmRegion.translate, Nat.add_sub_cancel] at ht

/-- The region shows another region map, and the fault is followed there. -/
theorem Found.reaches_sub {r r' : RmRegion μ} {rs : List (RmRegion μ)} {subRm : μ}
    {size : Nat} {rm' : RegionMap μ} {ds : Memory} {g : Fault} (h : Found rm f r)
    (hb : f.bounds.Sized) (hd : r.dataspace = .managed subRm size) (hm : maps subRm = some rm')
    (hsub : Reaches maps rm' ((f.withinRegion r).withinSubRegionMap r.offset size) rs r' ds g) :
    Reaches maps rm f (r :: rs) r' ds g := by
  have hc := h.covers
  unfold RmRegion.Covers at hc
  have hsize := h.fits.offset_size
  have hlt := h.fits.dataspace_size
  rw [hd, Dataspace.size] at hsize hlt
  have hhot : ((f.withinRegion r).withinSubRegionMap r.offset size).hotspot =
      f.hotspot - r.base + r.offset := by
    rw [Fault.withinSubRegionMap, h.hotspot, Addr.increasedBy_of_lt (by omega)]
  have hrel : (f.withinRegion r).bounds.Sized := (hb.intersected h.fits.sized_range).reducedBy
  refine ⟨hsub.sized, hsub.hotspot_lt, hsub.size_lt, ?_, hsub.offset_dvd, hsub.paged, fun hw => ?_,
    fun hx => ?_, fun a ha => ?_⟩
  · obtain ⟨k, hk⟩ := h.fits.offset_dvd
    rw [hsub.hotspot_mod, hhot, hk, Nat.add_mul_mod_self_left, ← h.hotspot_mod, h.hotspot]
  · obtain ⟨hw, hrs⟩ := hsub.write hw
    have hw : f.w = true ∧ r.write = true := by
      simpa [Fault.withinSubRegionMap, Fault.withinRegion] using hw
    exact ⟨hw.1, List.forall_mem_cons.mpr ⟨hw.2, hrs⟩⟩
  · obtain ⟨hx, hrs⟩ := hsub.exec hx
    have hx : f.x = true ∧ r.executable = true := by
      simpa [Fault.withinSubRegionMap, Fault.withinRegion] using hx
    exact ⟨hx.1, List.forall_mem_cons.mpr ⟨hx.2, hrs⟩⟩
  -- one step up: subtract the offset, add the base
  · obtain ⟨b, hba, hbounds, ht⟩ := hsub.translates a ha
    have hsized : AddrRange.Sized ⟨0, size⟩ := ⟨Nat.two_pow_pos 64, hlt⟩
    obtain ⟨hob, hin⟩ := AddrRange.holds_increasedBy (hrel.intersected hsized) hbounds
    obtain ⟨hf, hcov⟩ := h.fits.holds_within hb (AddrRange.holds_intersected hin).1
    refine ⟨b - r.offset + r.base, ?_, hf, .managed h.mem hcov hd hm ?_⟩
    · rw [hhot] at hba
      omega
    · rwa [RmRegion.translate, Nat.add_sub_cancel, Nat.sub_add_cancel hob]

/-- Whenever `resolved_fn` gets to answer, it is called with a fault that
was followed to the region it is given. -/
theorem reaches_of_withRegionAtFault
    {resolvedFn : RmRegion μ → Memory → Fault → WithMappingResult × Option (FaultCall μ)}
    (hmaps : ∀ m rm, maps m = some rm → rm.WellFormed) {limit : Nat} {m : μ} {mapping : Mapping}
    {result : WithMappingResult} (hrm : rm.WellFormed) (hb : f.bounds.Sized)
    (h : withRegionAtFault maps resolvedFn limit m rm f = (result, some (.apply mapping))) :
    ∃ rs r ds g, Reaches maps rm f rs r ds g ∧
      resolvedFn r ds g = (result, some (.apply mapping)) := by
  induction limit generalizing m rm f with
  | zero => simp [withRegionAtFault] at h
  | succ limit ih =>
    have hreflect : ∀ result' : WithMappingResult,
        (if rm.faultSigh then (.reflected, some (.reflect m f)) else (result', none)) ≠
          (result, some (FaultCall.apply mapping)) := by
      intro result'
      split <;> simp
    rw [withRegionAtFault] at h
    cases hmeta : rm.metadata f.hotspot with
    | none =>
      rw [hmeta] at h
      exact (hreflect _ h).elim
    | some r =>
      obtain ⟨hmem, hcov⟩ := metadata_eq_some hmeta
      have hfound : Found rm f r := ⟨hmem, hcov, (hrm r hmem).1⟩
      rw [hmeta] at h
      dsimp only at h
      cases hd : r.dataspace with
      | memory ds =>
        rw [hd] at h
        dsimp only at h
        split at h
        · exact (hreflect _ h).elim
        · split at h
          · exact (hreflect _ h).elim
          · exact ⟨_, _, _, _, hfound.reaches hb hd ((hrm r hmem).2 ds hd), h⟩
      | managed subRm size =>
        rw [hd] at h
        dsimp only at h
        cases hm : maps subRm with
        | none => simp [hm] at h
        | some rm' =>
          rw [hm] at h
          obtain ⟨rs, r', ds, g, hreach, hfn⟩ := ih (hmaps _ _ hm) AddrRange.sized_increasedBy h
          exact ⟨_, _, _, _, hfound.reaches_sub hb hd hm hreach, hfn⟩

/-- `kernel_constrained_map_size` returns a size that the kernel supports:
at least a page, and no more than asked for. -/
def Constrains (mapSize : Nat → Nat) : Prop :=
  ∀ n, pageSizeLog2 ≤ n → pageSizeLog2 ≤ mapSize n ∧ mapSize n ≤ n

variable {mapSize : Nat → Nat}

/-- The hotspot in the coordinates of the memory. -/
theorem Reaches.hotspot_ram {rs : List (RmRegion μ)} {r : RmRegion μ} {ds : Memory} {g : Fault}
    (h : Reaches maps rm f rs r ds g) :
    (g.withinRam r.offset ds).hotspot = g.hotspot + r.offset + ds.base ∧
      g.hotspot + r.offset + ds.base < 2 ^ 64 := by
  have h₁ := h.hotspot_lt
  have h₂ := h.paged.base_size
  have h₃ : Addr.increasedBy g.hotspot r.offset = g.hotspot + r.offset :=
    Addr.increasedBy_of_lt (by omega)
  rw [Fault.withinRam, h₃, Addr.increasedBy_of_lt (by omega)]
  exact ⟨rfl, by omega⟩

/-- The two hotspots have the same position within their pages. -/
theorem Reaches.hotspot_ram_mod {rs : List (RmRegion μ)} {r : RmRegion μ} {ds : Memory}
    {g : Fault} (h : Reaches maps rm f rs r ds g) :
    f.hotspot % 2 ^ pageSizeLog2 = (g.withinRam r.offset ds).hotspot % 2 ^ pageSizeLog2 := by
  obtain ⟨k, hk⟩ := h.offset_dvd
  obtain ⟨l, hl⟩ := h.paged.base_dvd
  rw [h.hotspot_ram.1, hk, hl, Nat.add_mul_mod_self_left, Nat.add_mul_mod_self_left,
    h.hotspot_mod]

/-- What the bounds stand for, in the coordinates of the memory. -/
theorem Reaches.translates_ram {rs : List (RmRegion μ)} {r : RmRegion μ} {ds : Memory}
    {g : Fault} {a : Nat} (h : Reaches maps rm f rs r ds g)
    (ha : (g.withinRam r.offset ds).bounds.Holds a) :
    ∃ b, b + (g.withinRam r.offset ds).hotspot = f.hotspot + a ∧ Translates maps rm b rs ds a := by
  have hlt := h.hotspot_lt
  have hbase := h.paged.base_size
  have hsized : AddrRange.Sized ⟨0, ds.size⟩ := ⟨Nat.two_pow_pos 64, h.size_lt⟩
  obtain ⟨hds, hin⟩ := AddrRange.holds_increasedBy
    (AddrRange.sized_increasedBy.intersected hsized) ha
  obtain ⟨hoff, hg⟩ := AddrRange.holds_increasedBy h.sized (AddrRange.holds_intersected hin).1
  obtain ⟨b, hb, -, ht⟩ := h.translates _ hg
  refine ⟨b, ?_, ?_⟩
  · rw [h.hotspot_ram.1]
    omega
  · rwa [Nat.sub_add_cancel hoff, Nat.add_sub_cancel' hds] at ht

/-- What makes up the mapping. -/
theorem Reaches.mappingFor_eq_some {rs : List (RmRegion μ)} {r : RmRegion μ} {ds : Memory}
    {g : Fault} {mapping : Mapping} (hk : Constrains mapSize) (hf : f.hotspot < 2 ^ 64)
    (h : Reaches maps rm f rs r ds g) (hm : mappingFor mapSize f r ds g = some mapping) :
    f.hotspot % 2 ^ mapping.sizeLog2 =
        (g.withinRam r.offset ds).hotspot % 2 ^ mapping.sizeLog2 ∧
      mapping.dstAddr = clearLow f.hotspot mapping.sizeLog2 ∧
      mapping.srcAddr = clearLow (g.withinRam r.offset ds).hotspot mapping.sizeLog2 ∧
      (∀ i < 2 ^ mapping.sizeLog2, (g.withinRam r.offset ds).bounds.Holds (mapping.srcAddr + i)) ∧
      mapping.writeable = (g.w && ds.writeable) ∧ mapping.executable = g.x := by
  have hram : (g.withinRam r.offset ds).hotspot < 2 ^ 64 := by
    rw [h.hotspot_ram.1]
    exact h.hotspot_ram.2
  unfold mappingFor at hm
  dsimp only at hm
  have hspec := Log2Range.constrained_spec
    (r := .ofHotspot (g.withinRam r.offset ds).hotspot) hram (g.withinRam r.offset ds).bounds
  generalize Log2Range.constrained (.ofHotspot (g.withinRam r.offset ds).hotspot)
    (g.withinRam r.offset ds).bounds = src at hm hspec
  rcases hspec with rfl | ⟨hhot, hsrc⟩
  -- an invalid range stays invalid
  · have hcommon : Log2Range.commonLog2 (.ofHotspot f.hotspot) {} = pageSizeLog2 := rfl
    simp [hcommon, Log2Range.constrainedSize, Log2Range.valid, pageSizeLog2] at hm
  · have hhot : src.hotspot = (g.withinRam r.offset ds).hotspot := hhot
    have hcommon := Log2Range.commonLog2_spec hf (hhot ▸ hram) hsrc (hhot ▸ h.hotspot_ram_mod)
    generalize Log2Range.commonLog2 (.ofHotspot f.hotspot) src = n at hm hcommon
    obtain ⟨hn, hn', hmod⟩ := hcommon
    obtain ⟨hge, hle⟩ := hk n hn
    generalize mapSize n = k at hm hge hle
    obtain ⟨hwithin, heq⟩ := hsrc.constrainedSize hge (hle.trans hn')
    have hdst : (Log2Range.ofHotspot f.hotspot).constrainedSize k =
        ⟨f.hotspot, clearLow f.hotspot k, k⟩ := by
      have hlt := hsrc.size_lt
      rw [Log2Range.constrainedSize, if_neg]
      · rfl
      · simp only [Log2Range.ofHotspot, Log2Range.unconstrained]
        omega
    rw [heq] at hwithin hm
    rw [hdst] at hm
    simp only [Log2Range.valid, decide_eq_true hge, Bool.not_true, Bool.or_self,
      Bool.false_eq_true, if_false, Option.some.injEq] at hm
    subst hm
    have hdvd : 2 ^ k ∣ 2 ^ n := pow_dvd_pow 2 hle
    refine ⟨?_, rfl, by rw [hhot], fun i hi => ?_, rfl, rfl⟩
    · rw [← hhot, ← Nat.mod_mod_of_dvd _ hdvd, hmod, Nat.mod_mod_of_dvd _ hdvd]
    · have h₁ := hwithin.start_le
      have h₂ := hwithin.le_last
      have hpage : 2 ^ pageSizeLog2 ≤ 2 ^ k := Nat.pow_le_pow_right (by decide) hge
      have htwo : 2 ≤ 2 ^ pageSizeLog2 := by decide
      dsimp only at h₁ h₂ hi ⊢
      exact ⟨by omega, by omega, by omega⟩

/-- Whatever the nesting of the region maps: the mapping that answers a
fault covers the faulting address, it maps each address to what the
regions of the fault show there, and it permits no more than they do. -/
theorem mapping_of_fault {m : μ} {result : WithMappingResult} {mapping : Mapping}
    (hmaps : ∀ m rm, maps m = some rm → rm.WellFormed) (hrm : rm.WellFormed)
    (hk : Constrains mapSize) (hf : f.hotspot < 2 ^ 64) (hb : f.bounds.Sized)
    (h : withMappingForFault maps mapSize m rm f = (result, some (.apply mapping))) :
    mapping.dstAddr ≤ f.hotspot ∧ f.hotspot < mapping.dstAddr + 2 ^ mapping.sizeLog2 ∧
      ∃ rs ds,
        (∀ i < 2 ^ mapping.sizeLog2,
          Translates maps rm (mapping.dstAddr + i) rs ds (mapping.srcAddr + i) ∧
          ds.base ≤ mapping.srcAddr + i ∧ mapping.srcAddr + i < ds.base + ds.size) ∧
        (mapping.writeable = true → ds.writeable = true ∧ ∀ r ∈ rs, r.write = true) ∧
        (mapping.executable = true → ∀ r ∈ rs, r.executable = true) := by
  obtain ⟨rs, r, ds, g, hreach, hfn⟩ := reaches_of_withRegionAtFault hmaps hrm hb h
  have hm : mappingFor mapSize f r ds g = some mapping := by
    cases hm : mappingFor mapSize f r ds g with
    | none => simp [hm] at hfn
    | some mapping' =>
      simp only [hm, Prod.mk.injEq, Option.some.injEq, FaultCall.apply.injEq] at hfn
      rw [hfn.2]
  obtain ⟨hmod, hdst, hsrc, hholds, hw, hx⟩ := hreach.mappingFor_eq_some hk hf hm
  refine ⟨hdst ▸ clearLow_le, hdst ▸ lt_clearLow_add, rs, ds, fun i hi => ?_, fun hwr => ?_,
    fun hex => ?_⟩
  · obtain ⟨b, hba, ht⟩ := hreach.translates_ram (hholds i hi)
    -- both flexpages have their hotspot at the same offset
    have hbi : b = mapping.dstAddr + i := by
      have h₁ := clearLow_add_mod (a := f.hotspot) (n := mapping.sizeLog2)
      have h₂ := clearLow_add_mod (a := (g.withinRam r.offset ds).hotspot)
        (n := mapping.sizeLog2)
      rw [← hdst] at h₁
      rw [← hsrc] at h₂
      omega
    rw [hbi] at ht
    exact ⟨ht, ht.within hmaps hrm⟩
  · rw [hw, Bool.and_eq_true] at hwr
    exact ⟨hwr.2, (hreach.write hwr.1).2⟩
  · exact (hreach.exec (hx ▸ hex)).2

/-- A region of sixteen pages of memory shows them from the third on. -/
def innerMap : RegionMap Nat :=
  { regions := [⟨0, 0x8000, true, true, 0x2000, false,
      .memory ⟨0x100000, 0x10000, true, .cached, false⟩⟩]
    faultSigh := false }

/-- A read-only region shows four pages of the inner region map. -/
def outerMap : RegionMap Nat :=
  { regions := [⟨0x10000, 0x4000, false, true, 0x2000, false, .managed 1 0x8000⟩]
    faultSigh := false }

def nestedMaps (m : Nat) : Option (RegionMap Nat) := if m = 1 then some innerMap else none

theorem mapping_of_fault_nested :
    ∃ mapping,
      withMappingForFault nestedMaps id 0 outerMap ⟨0x11234, .read, true, true, ⟨0, 2 ^ 64 - 1⟩⟩ =
        (.resolved, some (.apply mapping)) ∧ mapping.writeable = false ∧
      mapping.sizeLog2 = 14 ∧ ∃ rs ds, ∀ i < 2 ^ mapping.sizeLog2,
        Translates nestedMaps outerMap (mapping.dstAddr + i) rs ds (mapping.srcAddr + i) := by
  have hpaged : Memory.Paged ⟨0x100000, 0x10000, true, .cached, false⟩ :=
    ⟨by decide, by decide, by decide⟩
  have hinner : innerMap.WellFormed := by
    intro r hr
    rw [innerMap, List.mem_singleton] at hr
    subst hr
    refine ⟨⟨by decide, by decide, by decide, by decide, by decide, by decide, by decide⟩, ?_⟩
    rintro ds ⟨⟩
    exact hpaged
  have houter : outerMap.WellFormed := by
    intro r hr
    rw [outerMap, List.mem_singleton] at hr
    subst hr
    refine ⟨⟨by decide, by decide, by decide, by decide, by decide, by decide, by decide⟩, ?_⟩
    rintro ds ⟨⟩
  have hmaps : ∀ m rm, nestedMaps m = some rm → rm.WellFormed := by
    intro m rm hm
    unfold nestedMaps at hm
    split at hm
    · cases hm
      exact hinner
    · cases hm
  have hrun : withMappingForFault nestedMaps id 0 outerMap
      ⟨0x11234, .read, true, true, ⟨0, 2 ^ 64 - 1⟩⟩ =
        (.resolved, some (.apply ⟨0x10000, 0x104000, 14, true, false, false, false, false, true⟩)) := by
    decide +kernel
  obtain ⟨-, -, rs, ds, ht, -, -⟩ := mapping_of_fault hmaps houter
    (fun n hn => ⟨hn, le_rfl⟩) (by decide) ⟨by decide, by decide⟩ hrun
  exact ⟨_, hrun, rfl, rfl, rs, ds, fun i hi => (ht i hi).1⟩

end Genode.Core.RegionMap
