import Genode.Core.AddrRange

/-!
# RegionMap — nested region maps and the resolution of page faults

`core/include/region_map_component.h`. A region of a region map shows a
part of a dataspace. The dataspace is memory, or it is managed: then it
is made of the regions of another region map. A page fault is resolved
by following the regions from the address space of the faulting thread
down to memory, with the fault translated to the coordinates of each
level. The answer is a flexpage, so the bounds of all regions passed by
are intersected on the way.

`kernel_constrained_map_size` differs between the kernels.
-/

namespace Genode.Core

open Lib

inductive Cache where
  | uncached
  | writeCombined
  | cached
  deriving DecidableEq, Repr

inductive Access where
  | read
  | write
  | exec
  deriving DecidableEq, Repr

/-- A dataspace that is memory; `base` is `map_src_addr`. -/
structure Memory where
  base : Nat
  size : Nat
  writeable : Bool
  cacheability : Cache
  ioMem : Bool
  deriving DecidableEq, Repr

/-- `Dataspace_component`, with the region map if it is managed. -/
inductive Dataspace (μ : Type) where
  | memory (m : Memory)
  | managed (subRm : μ) (size : Nat)
  deriving DecidableEq, Repr

namespace Dataspace

variable {μ : Type}

def size : Dataspace μ → Nat
  | .memory m => m.size
  | .managed _ size => size

end Dataspace

/-- `Rm_region`. -/
structure RmRegion (μ : Type) where
  base : Nat
  size : Nat
  write : Bool
  executable : Bool
  offset : Nat
  dma : Bool
  dataspace : Dataspace μ
  deriving DecidableEq, Repr

namespace RmRegion

variable {μ : Type} (r : RmRegion μ)

def range : AddrRange := ⟨r.base, sub64 (add64 r.base r.size) 1⟩

/-- The region covers the address. -/
def Covers (a : Nat) : Prop := r.base ≤ a ∧ a < r.base + r.size

instance (a : Nat) : Decidable (r.Covers a) := inferInstanceAs (Decidable (_ ∧ _))

/-- The position within the dataspace that the region shows at an address. -/
def translate (a : Nat) : Nat := a - r.base + r.offset

/-- What `_attach` ensures. -/
structure Fits (r : RmRegion μ) : Prop where
  base_dvd : 2 ^ pageSizeLog2 ∣ r.base
  size_dvd : 2 ^ pageSizeLog2 ∣ r.size
  offset_dvd : 2 ^ pageSizeLog2 ∣ r.offset
  size_pos : 0 < r.size
  base_size : r.base + r.size ≤ 2 ^ 64
  offset_size : r.offset + r.size ≤ r.dataspace.size
  dataspace_size : r.dataspace.size < 2 ^ 64

end RmRegion

/-- Memory is made of whole pages. -/
structure Memory.Paged (m : Memory) : Prop where
  base_dvd : 2 ^ pageSizeLog2 ∣ m.base
  size_dvd : 2 ^ pageSizeLog2 ∣ m.size
  base_size : m.base + m.size ≤ 2 ^ 64

/-- `Region_map_component`, as far as faults are concerned. -/
structure RegionMap (μ : Type) where
  regions : List (RmRegion μ)
  /-- `_fault_sigh` is valid. -/
  faultSigh : Bool

/-- `_map.metadata`. -/
def RegionMap.metadata {μ : Type} (rm : RegionMap μ) (a : Nat) : Option (RmRegion μ) :=
  rm.regions.find? fun r => decide (r.Covers a)

structure Fault where
  hotspot : Nat
  access : Access
  w : Bool
  x : Bool
  bounds : AddrRange
  deriving DecidableEq, Repr

namespace Fault

variable {μ : Type} (f : Fault)

def withinRegion (r : RmRegion μ) : Fault :=
  { hotspot := Addr.reducedBy f.hotspot r.base
    access := f.access
    w := f.w && r.write
    x := f.x && r.executable
    bounds := (f.bounds.intersected r.range).reducedBy r.base }

def withinSubRegionMap (offset regionMapSize : Nat) : Fault :=
  { f with
    hotspot := Addr.increasedBy f.hotspot offset
    bounds := (f.bounds.intersected ⟨0, regionMapSize⟩).increasedBy offset }

def withinRam (offset : Nat) (m : Memory) : Fault :=
  { f with
    hotspot := Addr.increasedBy (Addr.increasedBy f.hotspot offset) m.base
    w := f.w && m.writeable
    bounds := ((f.bounds.increasedBy offset).intersected ⟨0, m.size⟩).increasedBy m.base }

end Fault

structure Mapping where
  dstAddr : Nat
  srcAddr : Nat
  sizeLog2 : Nat
  cached : Bool
  ioMem : Bool
  dmaBuffer : Bool
  writeCombined : Bool
  writeable : Bool
  executable : Bool
  deriving DecidableEq, Repr

/-- `With_mapping_result`. -/
inductive WithMappingResult where
  | resolved
  | recursionLimit
  | noRegion
  | reflected
  | writeViolation
  | execViolation
  deriving DecidableEq, Repr

/-- The call of `apply_fn` or of `reflect_fn`. -/
inductive FaultCall (μ : Type) where
  | apply (m : Mapping)
  | reflect (rm : μ) (f : Fault)
  deriving DecidableEq, Repr

namespace RegionMap

variable {μ : Type}

/-- `_with_region_at_fault` at the region map `m`; the first argument is
the recursion limit. -/
def withRegionAtFault (maps : μ → Option (RegionMap μ))
    (resolvedFn : RmRegion μ → Memory → Fault → WithMappingResult × Option (FaultCall μ)) :
    Nat → μ → RegionMap μ → Fault → WithMappingResult × Option (FaultCall μ)
  | 0, _, _, _ => (.recursionLimit, none)
  | limit + 1, m, rm, fault =>
    let reflectFault := fun result =>
      if rm.faultSigh then (.reflected, some (.reflect m fault)) else (result, none)
    match rm.metadata fault.hotspot with
    | none => reflectFault .noRegion
    | some region =>
      let relative := fault.withinRegion region
      match region.dataspace with
      -- region refers to a regular dataspace
      | .memory ds =>
        if relative.access = .write ∧ ¬ (relative.w && ds.writeable) then
          reflectFault .writeViolation
        else if relative.access = .exec ∧ ¬ relative.x then reflectFault .execViolation
        else resolvedFn region ds relative
      -- traverse into managed dataspace
      | .managed subRm size =>
        match maps subRm with
        | none => (.noRegion, none)
        | some rm =>
          withRegionAtFault maps resolvedFn limit subRm rm
            (relative.withinSubRegionMap region.offset size)

/-- The mapping that answers a fault, given the region-relative fault. -/
def mappingFor (kernelConstrainedMapSize : Nat → Nat) (fault : Fault) (region : RmRegion μ)
    (ds : Memory) (relative : Fault) : Option Mapping :=
  let ram := relative.withinRam region.offset ds
  let src := (Log2Range.ofHotspot ram.hotspot).constrained ram.bounds
  let dst := Log2Range.ofHotspot fault.hotspot
  let mapSize := kernelConstrainedMapSize (Log2Range.commonLog2 dst src)
  let src := src.constrainedSize mapSize
  let dst := dst.constrainedSize mapSize
  if !src.valid || !dst.valid then none
  else some
    { dstAddr := dst.base
      srcAddr := src.base
      sizeLog2 := mapSize
      cached := ds.cacheability = .cached
      ioMem := ds.ioMem
      dmaBuffer := region.dma
      writeCombined := ds.cacheability = .writeCombined
      writeable := ram.w
      executable := ram.x }

/-- `with_mapping_for_fault`. -/
def withMappingForFault (maps : μ → Option (RegionMap μ)) (kernelConstrainedMapSize : Nat → Nat)
    (m : μ) (rm : RegionMap μ) (fault : Fault) : WithMappingResult × Option (FaultCall μ) :=
  withRegionAtFault maps (fun region ds relative =>
    match mappingFor kernelConstrainedMapSize fault region ds relative with
    | none => (.noRegion, none)
    | some mapping => (.resolved, some (.apply mapping))) 5 m rm fault

/-! ## Translation along a chain of regions -/

/-- The address `a` of the region map leads through the regions `rs` to the
address `b` of the memory `ds`. -/
inductive Translates (maps : μ → Option (RegionMap μ)) :
    RegionMap μ → Nat → List (RmRegion μ) → Memory → Nat → Prop where
  | memory {rm : RegionMap μ} {r : RmRegion μ} {a : Nat} {ds : Memory} (hr : r ∈ rm.regions)
      (ha : r.Covers a) (hd : r.dataspace = .memory ds) :
      Translates maps rm a [r] ds (ds.base + r.translate a)
  | managed {rm rm' : RegionMap μ} {r : RmRegion μ} {rs : List (RmRegion μ)} {a b size : Nat}
      {ds : Memory} {subRm : μ} (hr : r ∈ rm.regions) (ha : r.Covers a)
      (hd : r.dataspace = .managed subRm size) (hm : maps subRm = some rm')
      (h : Translates maps rm' (r.translate a) rs ds b) : Translates maps rm a (r :: rs) ds b

/-- All regions fit, and lead to whole pages. -/
def WellFormed (rm : RegionMap μ) : Prop :=
  ∀ r ∈ rm.regions, r.Fits ∧ ∀ ds, r.dataspace = .memory ds → ds.Paged

variable {maps : μ → Option (RegionMap μ)} {rm : RegionMap μ} {r : RmRegion μ} {f : Fault}
  {a : Nat}

theorem metadata_eq_some (h : rm.metadata a = some r) : r ∈ rm.regions ∧ r.Covers a :=
  ⟨List.mem_of_find?_eq_some h, by simpa using List.find?_some h⟩

/-- An address never leads out of the memory. -/
theorem Translates.within {rs : List (RmRegion μ)} {ds : Memory} {b : Nat}
    (hmaps : ∀ m rm, maps m = some rm → rm.WellFormed) (hrm : rm.WellFormed)
    (h : Translates maps rm a rs ds b) : ds.base ≤ b ∧ b < ds.base + ds.size := by
  induction h with
  | memory hr ha hd =>
    have hfit := (hrm _ hr).1.offset_size
    rw [hd, Dataspace.size] at hfit
    unfold RmRegion.Covers at ha
    unfold RmRegion.translate
    omega
  | managed hr ha hd hm h ih => exact ih (hmaps _ _ hm)

end RegionMap

namespace RmRegion

variable {μ : Type} {r : RmRegion μ} {f : Fault} {a : Nat}

theorem Fits.range_eq (h : r.Fits) : r.range = ⟨r.base, r.base + r.size - 1⟩ := by
  rw [range, sub64_add64_one h.size_pos h.base_size]

theorem Fits.sized_range (h : r.Fits) : r.range.Sized := by
  have h₁ := h.size_pos
  have h₂ := h.base_size
  rw [h.range_eq]
  exact ⟨by dsimp only; omega, by dsimp only; omega⟩

theorem Fits.covers_of_holds (h : r.Fits) (ha : r.range.Holds a) : r.Covers a := by
  have h₁ := ha.start_le
  have h₂ := ha.le_last
  have h₃ := h.size_pos
  rw [h.range_eq] at h₁ h₂
  dsimp only at h₁ h₂
  exact ⟨h₁, by omega⟩

/-- What lies within the bounds relative to the region lies within the region. -/
theorem Fits.holds_within (h : r.Fits) (hb : f.bounds.Sized)
    (ha : (f.withinRegion r).bounds.Holds a) : f.bounds.Holds (a + r.base) ∧ r.Covers (a + r.base) := by
  have hi := AddrRange.holds_reducedBy (hb.intersected h.sized_range) ha
  obtain ⟨h₁, h₂⟩ := AddrRange.holds_intersected hi
  exact ⟨h₁, h.covers_of_holds h₂⟩

end RmRegion

end Genode.Core
