import Genode.Base.AllocatorRuns
import Genode.Core.RegionMap

/-!
# RegionAttach — attaching dataspaces to a region map

`core/region_map_component.cc`. A region map allocates the addresses of
its regions from an allocator of address ranges. The attributes of a
region are the metadata of its block. No two blocks begin at the same
address, so the metadata is kept by the first address of the block.

The size that a client asks for is rounded up to whole pages, and the
offset is added to it, in 64-bit arithmetic. A request whose sum wraps
around passes the check of the size of the dataspace.
-/

namespace Genode.Core

open Lib
open Base hiding add64 sub64

/-- `map_src_addr`; a managed dataspace has no memory of its own. -/
def Dataspace.mapSrcAddr {δ : Type} : Dataspace δ → Nat
  | .memory m => m.base
  | .managed _ _ => 0

/-- `Attach_attr`; the offset is the bit pattern of a signed number. -/
structure AttachAttr where
  size : Nat
  offset : Nat
  useLocalAddr : Bool
  localAddr : Nat
  executable : Bool
  writeable : Bool
  dma : Bool
  deriving DecidableEq, Repr

/-- The exceptions of `_attach`. -/
inductive AttachError where
  | invalidDataspace
  | regionConflict
  | outOfRam
  | outOfCaps
  deriving DecidableEq, Repr

def AttachError.ofAlloc : AllocError → AttachError
  | .outOfRam => .outOfRam
  | .outOfCaps => .outOfCaps
  | .denied => .regionConflict

/-- `fault_in_addr_range`. -/
def faultInAddrRange (fault addr size : Nat) : Bool :=
  decide (addr ≤ fault) && decide (fault ≤ sub64 (add64 addr size) 1)

/-- The alignment that is tried first. The logarithm of 0 is no number of bits. -/
def naturalAlign (size : Nat) : Nat := if size = 0 then pageSizeLog2 else Nat.log2 size

/-- `Region_map_component`, with the addresses of the faults that wait. -/
structure RegionMapComponent (ι μ δ : Type) where
  map : AllocatorAvl ι μ
  attached : Nat → Option (RmRegion δ)
  faulters : List Nat

namespace RegionMapComponent

variable {ι μ δ : Type} [DecidableEq ι] [Fintype ι] (root : ι) (M : MdAlloc ι μ)

/-- The constructor. -/
def construct (map : AllocatorAvl ι μ) (vmStart vmSize : Nat) :
    Exec (RegionMapComponent ι μ δ) := do
  let (_, map) ← map.addRange root M vmStart (alignAddr vmSize pageSizeLog2)
  .ok ⟨map, fun _ => none, []⟩

/-- The loop over the alignments, `n` of which are left. -/
def allocNatural (size src : Nat) :
    Nat → AllocatorAvl ι μ → Exec (Except AttachError Nat × AllocatorAvl ι μ)
  | 0, map => .ok (.error .regionConflict, map)
  | n + 1, map =>
    -- no alignment higher than that of the backing store
    if src % 2 ^ (pageSizeLog2 + n) ≠ 0 then allocNatural size src n map
    else do
      let (r, map) ← map.allocAligned root M size (pageSizeLog2 + n) 0 (2 ^ 64 - 1)
      match r with
      | .ok addr => .ok (.ok addr, map)
      | .error .denied => allocNatural size src n map
      | .error e => .ok (.error (.ofAlloc e), map)

/-- The addresses of a new region. -/
def allocRegion (map : AllocatorAvl ι μ) (ds : Dataspace δ) (attr : AttachAttr) (size : Nat) :
    Exec (Except AttachError Nat × AllocatorAvl ι μ) :=
  if attr.useLocalAddr then do
    let (r, map) ← map.allocAddr root M size attr.localAddr
    .ok (r.mapError .ofAlloc, map)
  else allocNatural root M size (add64 ds.mapSrcAddr attr.offset)
    (naturalAlign size + 1 - pageSizeLog2) map

variable (s : RegionMapComponent ι μ δ)

/-- `_map.metadata`. There is nothing to be read before it was constructed. -/
def metadata (addr : Nat) : Exec (Option (RmRegion δ)) := do
  let found ← s.map.findByAddress root addr
  match found with
  | some x =>
    if (s.map.block x).used then
      (s.attached (s.map.block x).addr).elim (.error .pointer) fun r => .ok (some r)
    else .ok none
  | none => .ok none

/-- `_map.construct_metadata`, or nothing if there is no block. -/
def constructMetadata (addr : Nat) (r : RmRegion δ) :
    Exec (Option (RegionMapComponent ι μ δ)) := do
  let found ← s.map.findByAddress root addr
  .ok (found.map fun x =>
    { s with attached := Function.update s.attached (s.map.block x).addr (some r) })

/-- The size of the region that is asked for, in whole pages. -/
def regionSize (ds : Dataspace δ) (attr : AttachAttr) : Nat :=
  alignAddr (if attr.size = 0 then sub64 ds.size attr.offset else attr.size) pageSizeLog2

/-- `_attach`. The result is the new region; its base is what the client gets. -/
def attach (ds : Option (Dataspace δ)) (attr : AttachAttr) :
    Exec (Except AttachError (RmRegion δ) × RegionMapComponent ι μ δ) :=
  -- offset must be positive and page-aligned
  if 2 ^ 63 ≤ attr.offset ∨ alignAddr attr.offset pageSizeLog2 ≠ attr.offset then
    .ok (.error .regionConflict, s)
  else
    match ds with
    | none => .ok (.error .invalidDataspace, s)
    | some ds =>
      if ds.size ≤ attr.offset then .ok (.error .regionConflict, s)
      -- deny creation of regions larger than the actual dataspace
      else if ds.size < add64 (regionSize ds attr) attr.offset then
        .ok (.error .regionConflict, s)
      else do
        let size := regionSize ds attr
        let (r, map) ← allocRegion root M s.map ds attr size
        let s := { s with map := map }
        match r with
        | .error e => .ok (.error e, s)
        | .ok addr => do
          let region : RmRegion δ :=
            ⟨addr, size, attr.writeable, attr.executable, attr.offset, attr.dma, ds⟩
          let r ← s.constructMetadata root addr region
          match r with
          | none => .ok (.error .invalidDataspace, s)
          | some s =>
            -- the attachment may resolve faults
            .ok (.ok region, { s with
              faulters := s.faulters.filter fun f => !faultInAddrRange f addr size })

/-- `detach`. -/
def detach (addr : Nat) : Exec (RegionMapComponent ι μ δ) := do
  let r ← s.metadata root addr
  match r with
  | none => .ok s
  | some region => do
    let map ← s.map.free root M region.base
    .ok { s with map := map }

/-- `fault`. -/
def fault (addr : Nat) : RegionMapComponent ι μ δ := { s with faulters := s.faulters ++ [addr] }

end RegionMapComponent

/-! ## What an allocation leaves behind -/

variable {ι μ δ ε : Type} [DecidableEq ι] {D : Md ι μ} {root : ι} {X : Finset ι}
  {B B' C : Multiset Block} {m : μ} {map map' : AllocatorAvl ι μ} {b c : Block}
  {addr size align src n lo hi : Nat}

/-- No addresses are added, and the used blocks are the same. -/
structure Shrinks (B B' : Multiset Block) : Prop where
  sane : Sane B'
  cover : ∀ a, blockCover B' a ≤ blockCover B a
  used : ∀ b, b.used = true → (b ∈ B' ↔ b ∈ B)

/-- The new block is beside all used ones. -/
structure Beside (B : Multiset Block) (addr size : Nat) (C : Multiset Block) : Prop where
  sane : Sane (⟨addr, size, true⟩ ::ₘ C)
  cover : ∀ a, blockCover (⟨addr, size, true⟩ ::ₘ C) a ≤ blockCover B a
  used : ∀ b, b.used = true → (b ∈ C ↔ b ∈ B)
  apart : ∀ b ∈ B, b.used = true → addr + size ≤ b.addr ∨ b.stop ≤ addr

/-- An allocation returns, and adds a new block if it succeeds. -/
def Allocates (D : Md ι μ) (root : ι) (B : Multiset Block) (size : Nat)
    (r : Exec (Except ε Nat × AllocatorAvl ι μ)) : Prop :=
  (∃ e map' X B' m, r = .ok (.error e, map') ∧ Holds D root X B' m map' ∧ Shrinks B B') ∨
    ∃ addr map' X C m, r = .ok (.ok addr, map') ∧
      Holds D root X (⟨addr, size, true⟩ ::ₘ C) m map' ∧ Beside B addr size C

theorem Shrinks.refl (h : Sane B) : Shrinks B B := ⟨h, fun _ => le_rfl, fun _ _ => Iff.rfl⟩

theorem Shrinks.trans (h : Shrinks B C) (h' : Shrinks C B') : Shrinks B B' :=
  ⟨h'.sane, fun a => (h'.cover a).trans (h.cover a),
    fun b hu => (h'.used b hu).trans (h.used b hu)⟩

theorem Shrinks.beside (h : Shrinks B C) (h' : Beside C addr size B') : Beside B addr size B' :=
  ⟨h'.sane, fun a => (h'.cover a).trans (h.cover a),
    fun b hu => (h'.used b hu).trans (h.used b hu),
    fun b hb hu => h'.apart b ((h.used b hu).mpr hb) hu⟩

theorem Shrinks.allocates {r : Exec (Except ε Nat × AllocatorAvl ι μ)}
    (h : Shrinks B C) (h' : Allocates D root C size r) : Allocates D root B size r := by
  rcases h' with ⟨e, map', X, B', m, hr, hH, hs⟩ | ⟨addr, map', X, C', m, hr, hH, hb⟩
  · exact .inl ⟨e, map', X, B', m, hr, hH, h.trans hs⟩
  · exact .inr ⟨addr, map', X, C', m, hr, hH, h.beside hb⟩

theorem used_of_mem_pieces (h : c ∈ b.pieces addr size) : c.used = false := by
  have hpiece : ∀ {lo n}, c ∈ piece lo n → c.used = false := by
    intro lo n hc
    unfold piece at hc
    split at hc
    · rw [Multiset.mem_singleton.mp hc]
    · simp at hc
  exact (Multiset.mem_add.mp h).elim hpiece hpiece

theorem used_pieces (hu : b.used = false) (hc : c.used = true) :
    c ∈ b.pieces addr size + C ↔ c ∈ b ::ₘ C := by
  have hne : c ≠ b := by
    rintro rfl
    rw [hu] at hc
    cases hc
  have hno : c ∉ b.pieces addr size := fun hm => by
    rw [used_of_mem_pieces hm] at hc
    cases hc
  rw [Multiset.mem_add, Multiset.mem_cons, or_iff_right hno, or_iff_right hne]

/-- A free block offers the addresses of no other block. -/
theorem apart_of_offers (hB : Sane B) (hb : b ∈ B) (hc : c ∈ B) (hne : b ≠ c)
    (ho : b.Offers addr size lo hi) : addr + size ≤ c.addr ∨ c.stop ≤ addr := by
  by_contra h
  rw [not_or, Nat.not_le, Nat.not_le] at h
  have hpos := ho.pos
  have hle := ho.addr_le
  have hstop := ho.le_stop
  have hlt := (hB.valid c hc).lt_stop
  refine hne (hB.apart.eq (a := max addr c.addr) hb hc ?_ ?_)
  · exact ⟨by omega, by omega⟩
  · exact ⟨by omega, by omega⟩

theorem beside_of_offers (hB : Sane (b ::ₘ C)) (hu : b.used = false) (hn : size < 2 ^ 64)
    (ho : b.Offers addr size lo hi) : Beside (b ::ₘ C) addr size (b.pieces addr size + C) := by
  refine ⟨sane_allocated hB hn ho, fun a => (cover_allocated hB.valid_head hn ho).le,
    fun c hc => used_pieces hu hc, fun c hc huc => ?_⟩
  refine apart_of_offers hB (Multiset.mem_cons_self b C) hc ?_ ho
  rintro rfl
  rw [hu] at huc
  cases huc

theorem shrinks_of_offers (hB : Sane (b ::ₘ C)) (hu : b.used = false)
    (ho : b.Offers addr size lo hi) : Shrinks (b ::ₘ C) (b.pieces addr size + C) := by
  refine ⟨sane_cut hB ho.pos ho.addr_le ho.le_stop, fun a => ?_, fun c hc => used_pieces hu hc⟩
  rw [← cover_cut hB.valid_head ho.pos ho.addr_le ho.le_stop]
  omega

/-- The first address is aligned. -/
theorem alignAddr_first : alignAddr 0 align = 0 := by
  have hpos := Nat.two_pow_pos align
  have hle : Base.add64 0 (2 ^ align - 1) ≤ 2 ^ align - 1 := by
    rw [Base.add64, Nat.zero_add]
    exact Nat.mod_le _ _
  rw [alignAddr, Nat.mod_eq_of_lt (by omega), Nat.sub_self]

section Allocation

variable [Fintype ι] (h : Holds D root X B m map) (hB : Sane B) (hpos : 0 < size)
  (hlt : size < 2 ^ 64)

include h hB hpos hlt

theorem allocAligned_allocates (align : Nat) : Allocates D root B size
    (map.allocAligned root D.mdAlloc size align 0 (2 ^ 64 - 1)) := by
  have hoffers : ∀ {b C}, B = b ::ₘ C → b.used = false →
      b.fits size align 0 (2 ^ 64 - 1) = true → b.Offers (b.place align 0) size 0 (2 ^ 64 - 1) := by
    rintro b C rfl hu hf
    refine (Block.offers_iff hB.valid_head hu hlt (by omega) hf).mpr fun _ => ⟨hpos, ?_, ?_⟩
    · exact Nat.zero_le _
    · rw [alignAddr_first]
      omega
  rcases h.allocAligned size align 0 (2 ^ 64 - 1) with hr | hok | herr
  · obtain ⟨e, m', map', hs, -, h'⟩ := hr
    exact .inl ⟨e, map', X, B, m', hs, h', .refl hB⟩
  · obtain ⟨b, C, X', m', map', hs, rfl, hu, hf, h'⟩ := hok
    exact .inr ⟨_, map', X', _, m', hs, h', beside_of_offers hB hu hlt (hoffers rfl hu hf)⟩
  · obtain ⟨-, e, b, C, X', m', map', hs, rfl, hu, hf, h'⟩ := herr
    exact .inl ⟨e, map', X', _, m', hs, h', shrinks_of_offers hB hu (hoffers rfl hu hf)⟩

theorem allocAddr_allocates (ha : addr < 2 ^ 64) : Allocates D root B size
    (map.allocAddr root D.mdAlloc size addr) := by
  have hw : (Op.allocAddr size addr).InWord := ⟨hlt, ha⟩
  have hc : (Op.allocAddr size addr).Careful B := fun h₀ => absurd h₀ hpos.ne'
  have hoffers : ∀ {b C}, B = b ::ₘ C → b.used = false → sumInRange addr size = true →
      b.Hits addr (Block.lastOf addr size) false → b.Offers addr size addr (addr + size - 1) :=
    fun hBC hu hsum hb => Holds.offers_of_hits hB hw hc hsum hBC hu hb
  rcases h.allocAddr ha size with hr | hok | herr
  · obtain ⟨e, m', map', hs, -, h'⟩ := hr
    exact .inl ⟨e, map', X, B, m', hs, h', .refl hB⟩
  · obtain ⟨b, C, X', m', map', hs, hsum, rfl, hu, hb, h'⟩ := hok
    exact .inr ⟨addr, map', X', _, m', hs, h', beside_of_offers hB hu hlt (hoffers rfl hu hsum hb)⟩
  · obtain ⟨-, e, b, C, X', m', map', hs, hsum, rfl, hu, hb, h'⟩ := herr
    exact .inl ⟨e, map', X', _, m', hs, h', shrinks_of_offers hB hu (hoffers rfl hu hsum hb)⟩

omit h hB in
/-- The loop over the alignments. -/
theorem allocNatural_allocates (src n : Nat) {X : Finset ι} {B : Multiset Block} {m : μ}
    {map : AllocatorAvl ι μ} (h : Holds D root X B m map) (hB : Sane B) : Allocates D root B size
      (RegionMapComponent.allocNatural root D.mdAlloc size src n map) := by
  induction n generalizing X B m map with
  | zero => exact .inl ⟨_, map, X, B, m, rfl, h, .refl hB⟩
  | succ n ih =>
    rw [RegionMapComponent.allocNatural]
    split
    · exact ih h hB
    · rcases allocAligned_allocates h hB hpos hlt (pageSizeLog2 + n) with
        ⟨e, map', X', B', m', hr, h', hs⟩ | ⟨addr, map', X', C, m', hr, h', hb⟩
      · rw [hr, Exec.ok_bind]
        cases e with
        | denied => exact hs.allocates (ih h' hs.sane)
        | outOfRam => exact .inl ⟨_, map', X', B', m', rfl, h', hs⟩
        | outOfCaps => exact .inl ⟨_, map', X', B', m', rfl, h', hs⟩
      · rw [hr, Exec.ok_bind]
        exact .inr ⟨addr, map', X', C, m', rfl, h', hb⟩

theorem allocRegion_allocates (ds : Dataspace δ) {attr : AttachAttr}
    (ha : attr.localAddr < 2 ^ 64) : Allocates D root B size
      (RegionMapComponent.allocRegion root D.mdAlloc map ds attr size) := by
  rw [RegionMapComponent.allocRegion]
  split
  · rcases allocAddr_allocates h hB hpos hlt ha with
      ⟨e, map', X', B', m', hr, h', hs⟩ | ⟨addr, map', X', C, m', hr, h', hb⟩
    · rw [hr, Exec.ok_bind]
      exact .inl ⟨_, map', X', B', m', rfl, h', hs⟩
    · rw [hr, Exec.ok_bind]
      exact .inr ⟨addr, map', X', C, m', rfl, h', hb⟩
  · exact allocNatural_allocates hpos hlt _ _ h hB

end Allocation

/-! ## The regions of a map -/

/-- The blocks lie within the managed addresses, and the used ones are the regions. -/
structure Keeps (lo hi : Nat) (B : Multiset Block) (attached : Nat → Option (RmRegion δ)) :
    Prop where
  sane : Sane B
  inside : ∀ a, 0 < blockCover B a → lo ≤ a ∧ a < hi
  regions : ∀ b ∈ B, b.used = true →
    ∃ r, attached b.addr = some r ∧ r.base = b.addr ∧ r.size = b.size

/-- The invariant of a region map. -/
def Mapped (D : Md ι μ) (root : ι) (s : RegionMapComponent ι μ δ) : Prop :=
  ∃ lo hi X B m, (lo = 0 → hi < 2 ^ 64) ∧ Holds D root X B m s.map ∧ Keeps lo hi B s.attached

section Keeps

variable {s s' : RegionMapComponent ι μ δ} {attached : Nat → Option (RmRegion δ)}
  {region : RmRegion δ}

theorem Keeps.shrinks (h : Keeps lo hi B attached) (hs : Shrinks B B') : Keeps lo hi B' attached :=
  ⟨hs.sane, fun a ha => h.inside a (ha.trans_le (hs.cover a)),
    fun b hb hu => h.regions b ((hs.used b hu).mp hb) hu⟩

/-- The new region does not take the place of another one. -/
theorem Keeps.beside (h : Keeps lo hi B attached) (hb : Beside B addr size C)
    (hbase : region.base = addr) (hsize : region.size = size) :
    Keeps lo hi (⟨addr, size, true⟩ ::ₘ C) (Function.update attached addr (some region)) := by
  refine ⟨hb.sane, fun a ha => h.inside a (ha.trans_le (hb.cover a)), fun b hmem hu => ?_⟩
  rcases Multiset.mem_cons.mp hmem with rfl | hC
  · exact ⟨region, Function.update_self _ _ _, hbase, hsize⟩
  · have hB := (hb.used b hu).mp hC
    have hlt := (h.sane.valid b hB).lt_stop
    have hpos := (hb.sane.valid_head).used rfl
    have hne : b.addr ≠ addr := by
      intro he
      rcases hb.apart b hB hu with hle | hle
      · have hpos' : 0 < size := hpos
        omega
      · omega
    obtain ⟨r, hr, hrest⟩ := h.regions b hB hu
    exact ⟨r, by rw [Function.update_of_ne hne, hr], hrest⟩

/-- A block that ends with the address space is not in one map with a block at address 0. -/
theorem Keeps.bounded (h : Keeps lo hi (b ::ₘ C) attached) (hlo : lo = 0 → hi < 2 ^ 64)
    (hu : b.used = true) : Bounded C b.addr b.size := by
  intro hend c hc _ hc₀
  have hb := h.sane.valid b (Multiset.mem_cons_self b C)
  have hc' := h.sane.valid c (Multiset.mem_cons_of_mem hc)
  have hstop := Block.stop_eq (hb.used hu)
  have hlast := h.inside _ (cover_pos.mpr ⟨b, Multiset.mem_cons_self b C, hb.covers_last⟩)
  have hfirst := h.inside _ (cover_pos.mpr ⟨c, Multiset.mem_cons_of_mem hc, hc'.covers_addr⟩)
  have hhi := hlo (by omega)
  omega

variable [Fintype ι]

/-- The block at an address is found. -/
theorem findByAddress_of_covers (h : Holds D root X B m map) (hB : Sane B) (ha : addr < 2 ^ 64)
    (hb : b ∈ B) (hc : b.Covers addr) :
    ∃ x, map.findByAddress root addr = .ok (some x) ∧ map.block x = b := by
  obtain ⟨r, hr, hx⟩ : ∃ r, map.findByAddress root addr 0 false = .ok r ∧
    ∀ x, r = some x → x ∈ X ∧ (map.block x).Hits addr (Block.lastOf addr 0) false := h.findByAddress
  cases r with
  | none =>
    have hle : addr ≤ Block.lastOf addr 0 := (Block.lastOf_zero ha).ge
    have hhits := (Block.hits_address (hB.valid b hb) ha).mpr hc
    exact absurd hhits (h.findByAddress_none hB hle hr hb)
  | some x =>
    obtain ⟨hxX, hxh⟩ := hx x rfl
    have hxB := h.block_mem hxX
    exact ⟨x, hr, hB.apart.eq hxB hb ((Block.hits_address (hB.valid _ hxB) ha).mp hxh) hc⟩

/-- What the map says about an address. -/
theorem metadata_cases (h : Holds D root X B m s.map) (hk : Keeps lo hi B s.attached)
    (addr : Nat) : s.metadata root addr = .ok none ∨
      ∃ b ∈ B, b.used = true ∧ ∃ r, s.metadata root addr = .ok (some r) ∧
        r.base = b.addr ∧ r.size = b.size := by
  obtain ⟨r, hr, hx⟩ : ∃ r, s.map.findByAddress root addr 0 false = .ok r ∧
    ∀ x, r = some x → x ∈ X ∧ (s.map.block x).Hits addr (Block.lastOf addr 0) false :=
      h.findByAddress
  cases r with
  | none =>
    left
    simp only [RegionMapComponent.metadata, hr, Exec.ok_bind]
  | some x =>
    have hxB := h.block_mem (hx x rfl).1
    by_cases hu : (s.map.block x).used = true
    · obtain ⟨r, hatt, hrest⟩ := hk.regions _ hxB hu
      refine .inr ⟨_, hxB, hu, r, ?_, hrest⟩
      simp only [RegionMapComponent.metadata, hr, Exec.ok_bind, if_pos hu, hatt, Option.elim_some]
    · left
      simp only [RegionMapComponent.metadata, hr, Exec.ok_bind, if_neg hu]

end Keeps

/-! ## What an attachment promises -/

/-- The arguments are 64-bit numbers. -/
structure AttachAttr.InWord (attr : AttachAttr) : Prop where
  size_lt : attr.size < 2 ^ 64
  offset_lt : attr.offset < 2 ^ 64
  localAddr_lt : attr.localAddr < 2 ^ 64

/-- The size of a dataspace is a number of pages. -/
structure Dataspace.Paged (ds : Dataspace δ) : Prop where
  pos : 0 < ds.size
  dvd : 2 ^ pageSizeLog2 ∣ ds.size
  lt : ds.size < 2 ^ 64

/-- The requested size in whole pages and the offset add up to a 64-bit number. -/
def AttachAttr.Rounds (attr : AttachAttr) : Prop :=
  (attr.size + (2 ^ pageSizeLog2 - 1)) / 2 ^ pageSizeLog2 * 2 ^ pageSizeLog2 + attr.offset < 2 ^ 64

instance (attr : AttachAttr) : Decidable attr.Rounds := inferInstanceAs (Decidable (_ < _))

/-- The new region consists of pages of the dataspace and overlaps no other one. -/
structure RightlyAttached (root : ι) [Fintype ι] (s : RegionMapComponent ι μ δ) (ds : Dataspace δ)
    (r : RmRegion δ) : Prop where
  size_pos : 0 < r.size
  size_dvd : 2 ^ pageSizeLog2 ∣ r.size
  inside : r.offset + r.size ≤ ds.size
  apart : ∀ a r', s.metadata root a = .ok (some r') →
    r.base + r.size ≤ r'.base ∨ r'.base + r'.size ≤ r.base

section Attach

variable [Fintype ι] {s s' : RegionMapComponent ι μ δ} {ds : Dataspace δ} {attr : AttachAttr}

/-- The size of the region is a number of pages if nothing wraps. -/
theorem regionSize_spec (hds : ds.Paged) (hw : attr.InWord) (hr : attr.Rounds)
    (hoff : alignAddr attr.offset pageSizeLog2 = attr.offset) (hlt : attr.offset < ds.size) :
    0 < RegionMapComponent.regionSize ds attr ∧
      2 ^ pageSizeLog2 ∣ RegionMapComponent.regionSize ds attr ∧
      RegionMapComponent.regionSize ds attr + attr.offset < 2 ^ 64 := by
  obtain ⟨hpos, hdvd, hds⟩ := hds
  have hoffdvd : 2 ^ pageSizeLog2 ∣ attr.offset := hoff ▸ dvd_alignAddr
  have hsize := hw.size_lt
  refine ⟨?_, dvd_alignAddr, ?_⟩
  all_goals
    simp only [RegionMapComponent.regionSize, alignAddr, AttachAttr.Rounds, Base.add64, sub64,
      pageSizeLog2, Nat.reducePow, Nat.reduceSub] at *
    by_cases h₀ : attr.size = 0
    · simp only [h₀, if_true]
      omega
    · simp only [h₀, if_false]
      omega

/-- The call returns with a region map, and a region that it created is right. -/
def Attaches (D : Md ι μ) (root : ι) (s : RegionMapComponent ι μ δ) (o : Option (Dataspace δ))
    (res : Exec (Except AttachError (RmRegion δ) × RegionMapComponent ι μ δ)) : Prop :=
  ∃ r s', res = .ok (r, s') ∧ Mapped D root s' ∧
    ∀ region ds, r = .ok region → o = some ds → RightlyAttached root s ds region

theorem attaches_of_error {e : AttachError} {o : Option (Dataspace δ)} (h : Mapped D root s') :
    Attaches D root s o (.ok (.error e, s')) :=
  ⟨.error e, s', rfl, h, fun _ _ hr _ => by cases hr⟩

theorem constructMetadata_eq {r : RmRegion δ} (h : Holds D root X B m s.map) (hB : Sane B)
    (hb : b ∈ B) : s.constructMetadata root b.addr r =
      .ok (some { s with attached := Function.update s.attached b.addr (some r) }) := by
  have hval := hB.valid b hb
  obtain ⟨x, hx, rfl⟩ := findByAddress_of_covers h hB hval.addr_lt hb hval.covers_addr
  rw [RegionMapComponent.constructMetadata, hx]
  rfl

theorem attach_spec (h : Mapped D root s) {o : Option (Dataspace δ)}
    (hds : ∀ ds, o = some ds → ds.Paged) (hw : attr.InWord) (hr : attr.Rounds) :
    Attaches D root s o (s.attach root D.mdAlloc o attr) := by
  unfold RegionMapComponent.attach
  split
  · exact attaches_of_error h
  rename_i hoff
  rw [not_or, not_not] at hoff
  cases o with
  | none => exact attaches_of_error h
  | some ds =>
    dsimp only
    split
    · exact attaches_of_error h
    rename_i hlt
    rw [Nat.not_le] at hlt
    obtain ⟨hpos, hdvd, hsum⟩ := regionSize_spec (hds ds rfl) hw hr hoff.2 hlt
    split
    · exact attaches_of_error h
    rename_i hfits
    rw [add64_of_lt hsum, Nat.not_lt] at hfits
    generalize RegionMapComponent.regionSize ds attr = size at hpos hdvd hsum hfits
    obtain ⟨lo, hi, X, B, m, hlo, hH, hk⟩ := h
    rcases allocRegion_allocates hH hk.sane hpos (by omega) ds hw.localAddr_lt with
      ⟨e, map', X', B', m', halloc, hH', hs⟩ | ⟨addr, map', X', C, m', halloc, hH', hb⟩
    · rw [halloc, Exec.ok_bind]
      exact attaches_of_error ⟨lo, hi, X', B', m', hlo, hH', hk.shrinks hs⟩
    · rw [halloc, Exec.ok_bind]
      dsimp only
      have hnew : (⟨addr, size, true⟩ : Block) ∈ (⟨addr, size, true⟩ : Block) ::ₘ C :=
        Multiset.mem_cons_self _ C
      rw [constructMetadata_eq (s := { s with map := map' }) hH' hb.sane hnew, Exec.ok_bind]
      refine ⟨_, _, rfl, ⟨lo, hi, X', _, m', hlo, hH', hk.beside hb rfl rfl⟩, ?_⟩
      rintro region ds' hregion hds'
      cases hregion
      cases hds'
      refine ⟨hpos, hdvd, by show attr.offset + size ≤ ds.size; omega, fun a r' hr' => ?_⟩
      rcases metadata_cases hH hk a with hnone | ⟨b, hbB, hu, r, hsome, hbase, hsize⟩
      · rw [hnone] at hr'
        cases hr'
      · rw [hsome] at hr'
        cases hr'
        have hval := hk.sane.valid b hbB
        have hstop := Block.stop_eq (hval.used hu)
        show addr + size ≤ r'.base ∨ r'.base + r'.size ≤ addr
        rw [hbase, hsize, ← hstop]
        exact hb.apart b hbB hu

/-- The region that a successful call created. -/
theorem attach_ok {r : RmRegion δ} (hs : s.attach root D.mdAlloc (some ds) attr = .ok (.ok r, s')) :
    alignAddr attr.offset pageSizeLog2 = attr.offset ∧ attr.offset < ds.size ∧
      r.size = RegionMapComponent.regionSize ds attr ∧ r.offset = attr.offset := by
  unfold RegionMapComponent.attach at hs
  split at hs
  · cases hs
  rename_i hoff
  rw [not_or, not_not] at hoff
  dsimp only at hs
  split at hs
  · cases hs
  rename_i hlt
  split at hs
  · cases hs
  obtain ⟨⟨o, map'⟩, -, hs⟩ := Exec.bind_eq_ok.mp hs
  cases o with
  | error e => cases hs
  | ok addr =>
    obtain ⟨o, -, hs⟩ := Exec.bind_eq_ok.mp hs
    cases o with
    | none => cases hs
    | some s₁ =>
      cases hs
      exact ⟨hoff.2, Nat.not_le.mp hlt, rfl, rfl⟩

/-- A region of some pages of the dataspace is asked for with sums that do not wrap. -/
theorem rounds_of_right {r : RmRegion δ} (hds : ds.Paged) (hw : attr.InWord)
    (hs : s.attach root D.mdAlloc (some ds) attr = .ok (.ok r, s'))
    (hr : RightlyAttached root s ds r) : attr.Rounds := by
  obtain ⟨-, -, hsize, hoffset⟩ := attach_ok hs
  have hpos := hr.size_pos
  have hin := hr.inside
  have hlt := hds.lt
  have hword := hw.size_lt
  have hoff := hw.offset_lt
  rw [hsize] at hpos hin
  rw [hoffset] at hin
  simp only [RegionMapComponent.regionSize, alignAddr, AttachAttr.Rounds, Base.add64, sub64,
    pageSizeLog2, Nat.reducePow, Nat.reduceSub] at *
  by_cases h₀ : attr.size = 0
  · simp only [h₀]
    omega
  · simp only [h₀, if_false] at hpos hin
    omega

/-- The block of a region becomes free. -/
theorem free_spec (hH : Holds D root X B m s.map) (hk : Keeps lo hi B s.attached)
    (hlo : lo = 0 → hi < 2 ^ 64) (hb : b ∈ B) :
    ∃ map' X' B' m', s.map.free root D.mdAlloc b.addr = .ok map' ∧ Holds D root X' B' m' map' ∧
      Keeps lo hi B' s.attached := by
  rcases hH.free b.addr with ⟨hs, -⟩ | ⟨c, C, X₁, m₁, map₁, rfl, hu, -, h₁, -, hs⟩
  · exact ⟨s.map, X, B, m, hs, hH, hk⟩
  · have hval := hk.sane.valid_head
    have hstop := Block.stop_eq (hval.used hu)
    have hle := hval.stop_le
    obtain ⟨r, X', B', m', map', hs', h', hr⟩ :=
      h₁.after_addRange hk.sane.of_cons hval.size_lt (by omega) (hk.bounded hlo hu)
    refine ⟨map', X', B', m', by rw [hs, hs', Exec.ok_bind], h', ?_⟩
    have hmono : ∀ b ∈ C, b.used = true → ∃ r, s.attached b.addr = some r ∧
        r.base = b.addr ∧ r.size = b.size := fun b hb hu =>
      hk.regions b (Multiset.mem_cons_of_mem hb) hu
    rcases hr with ⟨-, hadds⟩ | ⟨-, rfl⟩
    · obtain ⟨d, R, rfl, hRC, hd, -⟩ := hadds.merged
      refine ⟨hadds.sane, fun a ha => hk.inside a ?_, fun b hb hu => ?_⟩
      · rw [hadds.cover] at ha
        rw [blockCover_cons, hstop]
        omega
      · rcases Multiset.mem_cons.mp hb with rfl | hR
        · rw [hd] at hu
          cases hu
        · exact hmono b (Multiset.mem_of_le hRC hR) hu
    · refine ⟨hk.sane.of_cons, fun a ha => hk.inside a ?_, hmono⟩
      rw [blockCover_cons]
      omega

theorem detach_spec (h : Mapped D root s) (addr : Nat) :
    ∃ s', s.detach root D.mdAlloc addr = .ok s' ∧ Mapped D root s' := by
  obtain ⟨lo, hi, X, B, m, hlo, hH, hk⟩ := h
  rcases metadata_cases hH hk addr with hnone | ⟨b, hb, -, r, hsome, hbase, -⟩
  · refine ⟨s, ?_, lo, hi, X, B, m, hlo, hH, hk⟩
    rw [RegionMapComponent.detach, hnone, Exec.ok_bind]
  · obtain ⟨map', X', B', m', hs, hH', hk'⟩ := free_spec hH hk hlo hb
    refine ⟨{ s with map := map' }, ?_, lo, hi, X', B', m', hlo, hH', hk'⟩
    simp only [RegionMapComponent.detach, hsome, Exec.ok_bind, hbase, hs]

end Attach

/-! ## Runs -/

/-- A call of a region map. -/
inductive RmOp (δ : Type) where
  | attach (ds : Option (Dataspace δ)) (attr : AttachAttr)
  | detach (addr : Nat)
  | fault (addr : Nat)

namespace RmOp

/-- The arguments are 64-bit numbers, and dataspaces consist of pages. -/
def InWord : RmOp δ → Prop
  | .attach o attr => (∀ ds, o = some ds → ds.Paged) ∧ attr.InWord
  | .detach addr => addr < 2 ^ 64
  | .fault addr => addr < 2 ^ 64

/-- The sizes and offsets of attachments do not wrap around. -/
def Rounds : RmOp δ → Prop
  | .attach _ attr => attr.Rounds
  | .detach _ => True
  | .fault _ => True

end RmOp

section Runs

variable [Fintype ι] {s s' : RegionMapComponent ι μ δ} {ds : Dataspace δ} {attr : AttachAttr}
  {hist : List (RegionMapComponent ι μ δ × RmOp δ)}

def RegionMapComponent.exec (D : Md ι μ) (root : ι) (s : RegionMapComponent ι μ δ) :
    RmOp δ → Exec (RegionMapComponent ι μ δ)
  | .attach ds attr => do
    let r ← s.attach root D.mdAlloc ds attr
    .ok r.2
  | .detach addr => s.detach root D.mdAlloc addr
  | .fault addr => .ok (s.fault addr)

/-- A new region map. Its addresses do not reach behind the end of the address space. -/
def RegionMapComponent.Init (D : Md ι μ) (root : ι) (s : RegionMapComponent ι μ δ) : Prop :=
  ∃ map vmStart vmSize, Base.Init D root map ∧
    vmStart + alignAddr vmSize pageSizeLog2 ≤ 2 ^ 64 ∧
    RegionMapComponent.construct root D.mdAlloc map vmStart vmSize = .ok s

def RegionMapComponent.Trans (D : Md ι μ) (root : ι) :
    RegionMapComponent ι μ δ → RmOp δ → RegionMapComponent ι μ δ → Prop :=
  Guarded (fun _ op => op.InWord) (RegionMapComponent.exec D root)

theorem mapped_of_init (h : RegionMapComponent.Init D root s) : Mapped D root s := by
  obtain ⟨map, vmStart, vmSize, hinit, hle, hs⟩ := h
  have hlt : alignAddr vmSize pageSizeLog2 < 2 ^ 64 := alignAddr_lt
  obtain ⟨r, X, B, m, map', hr, hH, hB⟩ :=
    (holds_of_init hinit).after_addRange sane_zero hlt hle (fun _ b hb => by simp at hb)
  obtain rfl : ⟨map', fun _ => none, []⟩ = s := by
    rw [RegionMapComponent.construct, hr, Exec.ok_bind] at hs
    exact Except.ok.inj hs
  refine ⟨vmStart, vmStart + alignAddr vmSize pageSizeLog2, X, B, m, fun h₀ => by omega, hH, ?_⟩
  rcases hB with ⟨-, hadds⟩ | ⟨-, rfl⟩
  · obtain ⟨b, C, rfl, hC, hu, -⟩ := hadds.merged
    obtain rfl : C = 0 := Multiset.le_zero.mp hC
    refine ⟨hadds.sane, fun a ha => ?_, fun c hc hcu => ?_⟩
    · by_contra hout
      rw [hadds.cover, if_neg hout] at ha
      simp at ha
    · obtain rfl := Multiset.mem_singleton.mp hc
      rw [hu] at hcu
      cases hcu
  · exact ⟨sane_zero, fun a ha => by simp at ha, fun b hb => by simp at hb⟩

/-- A call whose sums do not wrap returns with a region map. -/
theorem exec_spec {op : RmOp δ} (h : Mapped D root s) (hw : op.InWord) (hr : op.Rounds) :
    ∃ s', s.exec D root op = .ok s' ∧ Mapped D root s' := by
  cases op with
  | attach o attr =>
    obtain ⟨r, s', hs, h', -⟩ := attach_spec h hw.1 hw.2 hr
    exact ⟨s', by rw [RegionMapComponent.exec, hs, Exec.ok_bind], h'⟩
  | detach addr => exact detach_spec h addr
  | fault addr => exact ⟨s.fault addr, rfl, h⟩

theorem mapped_of_run
    (h : Run (RegionMapComponent.Init D root) (RegionMapComponent.Trans D root) hist s)
    (hc : ∀ e ∈ hist, e.2.Rounds) : Mapped D root s := by
  refine h.invariant_of (C := fun _ op => op.Rounds) (fun s hs => mapped_of_init hs) ?_ hc
  intro s op s' hm ht hr
  obtain ⟨s₁, hs₁, h₁⟩ := exec_spec hm ht.1 hr
  obtain rfl : s₁ = s' := Except.ok.inj (hs₁.symm.trans ht.2)
  exact h₁

/-- In a run in which no sum wraps, an attachment that succeeds yields a right
region exactly if its own sum does not wrap either. -/
theorem rightlyAttached_iff
    (h : Run (RegionMapComponent.Init D root) (RegionMapComponent.Trans D root) hist s)
    (hc : ∀ e ∈ hist, e.2.Rounds) (hds : ds.Paged) (hw : attr.InWord) {r : RmRegion δ}
    (hs : s.attach root D.mdAlloc (some ds) attr = .ok (.ok r, s')) :
    RightlyAttached root s ds r ↔ attr.Rounds := by
  constructor
  · intro hright
    exact rounds_of_right hds hw hs hright
  · intro hr
    obtain ⟨r', s'', hs', -, hright⟩ := attach_spec (mapped_of_run h hc) (o := some ds)
      (fun ds' hds' => Option.some_inj.mp hds' ▸ hds) hw hr
    rw [hs] at hs'
    cases hs'
    exact hright r ds rfl rfl

end Runs

/-- A dataspace of four pages, and a request for a part of it. -/
def fourPages : Dataspace Unit := .memory ⟨0x100000, 0x4000, true, .cached, false⟩

def partOf (size offset : Nat) : AttachAttr := ⟨size, offset, false, 0, false, true, false⟩

theorem fourPages_paged : fourPages.Paged := ⟨by decide, by decide, by decide⟩

/-- Two attachments, the second one of an odd size. -/
theorem rightlyAttached_second :
    ∃ (hist : List (RegionMapComponent (Fin 10) (Finset (Fin 10)) Unit × RmOp Unit))
      (s s' : RegionMapComponent (Fin 10) (Finset (Fin 10)) Unit) (r : RmRegion Unit),
      Run (RegionMapComponent.Init (stock 10) 0) (RegionMapComponent.Trans (stock 10) 0) hist s ∧
      hist ≠ [] ∧ r.size = 0x2000 ∧
      s.attach 0 (stock 10).mdAlloc (some fourPages) (partOf 0x1234 0x1000) = .ok (.ok r, s') ∧
      RightlyAttached 0 s fourPages r := by
  have hrun : (do
      let s ← RegionMapComponent.construct 0 (stock 10).mdAlloc (empty 10) 0 0x10000
      let s ← s.exec (stock 10) 0 (.attach (some fourPages) (partOf 0 0))
      let r ← s.attach 0 (stock 10).mdAlloc (some fourPages) (partOf 0x1234 0x1000)
      .ok (r.1.toOption.map RmRegion.size) : Exec (Option Nat)) = .ok (some 0x2000) := by
    decide +kernel
  obtain ⟨s₀, hs₀, hrun⟩ := Exec.bind_eq_ok.mp hrun
  obtain ⟨s, hs, hrun⟩ := Exec.bind_eq_ok.mp hrun
  obtain ⟨⟨o, s'⟩, ho, hrun⟩ := Exec.bind_eq_ok.mp hrun
  cases o with
  | error e => cases hrun
  | ok r =>
    have hsize : r.size = 0x2000 := Option.some_inj.mp (Except.ok.inj hrun)
    have hfirst : (RmOp.attach (some fourPages) (partOf 0 0)).InWord :=
      ⟨fun ds hds => Option.some_inj.mp hds ▸ fourPages_paged, by decide, by decide, by decide⟩
    have hinit : RegionMapComponent.Init (stock 10) 0 s₀ :=
      ⟨empty 10, 0, 0x10000, init_empty 10, by decide, hs₀⟩
    have htrans : RegionMapComponent.Trans (stock 10) 0 s₀ _ s := ⟨hfirst, hs⟩
    have h := (Run.start hinit).step htrans
    refine ⟨_, s, s', r, h, by simp, hsize, ho, (rightlyAttached_iff h ?_ fourPages_paged
      ⟨by decide, by decide, by decide⟩ ho).mpr ?_⟩
    · intro e he
      obtain rfl := List.mem_singleton.mp he
      exact (show AttachAttr.Rounds (partOf 0 0) by decide)
    · decide

/-- The size of the whole address space is rounded up to nothing. -/
theorem attach_empty_region :
    ∃ (s s' : RegionMapComponent (Fin 10) (Finset (Fin 10)) Unit) (r : RmRegion Unit),
      RegionMapComponent.Init (stock 10) 0 s ∧
      s.attach 0 (stock 10).mdAlloc (some fourPages) (partOf (2 ^ 64 - 1) 0x1000) =
        .ok (.ok r, s') ∧
      ¬ RightlyAttached 0 s fourPages r := by
  have hrun : (do
      let s ← RegionMapComponent.construct 0 (stock 10).mdAlloc (empty 10) 0 0x10000
      let r ← s.attach 0 (stock 10).mdAlloc (some fourPages) (partOf (2 ^ 64 - 1) 0x1000)
      .ok (r.1.toOption.map RmRegion.size) : Exec (Option Nat)) = .ok (some 0) := by
    decide +kernel
  obtain ⟨s, hs, hrun⟩ := Exec.bind_eq_ok.mp hrun
  obtain ⟨⟨o, s'⟩, ho, hrun⟩ := Exec.bind_eq_ok.mp hrun
  cases o with
  | error e => cases hrun
  | ok r =>
    have hsize : r.size = 0 := Option.some_inj.mp (Except.ok.inj hrun)
    refine ⟨s, s', r, ⟨empty 10, 0, 0x10000, init_empty 10, by decide, hs⟩, ho, fun hr => ?_⟩
    exact hr.size_pos.ne' hsize

end Genode.Core
