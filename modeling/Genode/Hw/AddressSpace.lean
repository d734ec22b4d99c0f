import Genode.Hw.PageTableRuns
import Genode.Hw.TableAllocator

/-!
# AddressSpace — mappings of a component

`base-hw/src/core/platform_pd.cc`. Core maps pages for a component whenever
it faults. There is a fixed number of tables for that. If they run out, core
removes all that is mapped and tries again: the component will fault for
what it still needs.
-/

namespace Genode.Hw

open Lib Util
open Base (Md)
open CommonDescriptor (present clearMmuFlags)

/-- `Hw::Mm::user().base`: the UTCB of the main thread is below. -/
def vmStart : Nat := 0x2000

/-- `Hw::Mm::user().size` -/
def vmSize : Nat := 2 ^ 38 - vmStart

/-- The first entry of the root that belongs to the kernel. -/
def kernelFirst : Nat := 511

namespace AddressSpace

variable {n : Nat} {μ : Type} (A : TableArray n) (D : Md (Fin n) μ)

/-- `flush`. Exceptions are reported, only. -/
def flush (virt size : Nat) (s : PageTables n μ) : Exec (PageTables n μ) :=
  match (pageTable A D).removeTranslation none virt size s with
  | .error f => .error f
  | .ok (_, s) => .ok s

/-- `insert_translation`, for at most `fuel` rounds. -/
def insertTranslation (virt phys size : Nat) (flags : PageFlags) :
    Nat → PageTables n μ → Exec (Bool × PageTables n μ)
  | 0, _ => .error .endless
  | fuel + 1, s =>
    match (pageTable A D).insertTranslation none virt phys size flags s with
    | .error f => .error f
    | .ok (.ok (), s) => .ok (true, s)
    | .ok (.error .outOfTables, s) => do
      let s ← flush A D vmStart vmSize s
      insertTranslation virt phys size flags fuel s
    | .ok (.error _, s) => .ok (false, s)

inductive Call (n : Nat) where
  | insert (virt phys log2 : Nat) (flags : PageFlags)
  | flush (virt size : Nat)
  | mmu (t : Option (Fin n)) (j v : Nat)

def call (fuel : Nat) (s : PageTables n μ) : Call n → Exec (Bool × PageTables n μ)
  | .insert virt phys log2 flags => insertTranslation A D virt phys (2 ^ log2) flags fuel s
  | .flush virt size => do
    let s ← flush A D virt size s
    .ok (true, s)
  | .mmu t j v => .ok (true, s.setEntry t j v)

/-- What core maps: the UTCB of the main thread, and pages of the sizes that
`kernel_constrained_map_size` yields. Physical addresses end at 2^48. -/
structure Flexpage (virt phys log2 : Nat) : Prop where
  size : log2 = 12 ∨ log2 = 20
  virt_dvd : 2 ^ log2 ∣ virt
  phys_dvd : 2 ^ log2 ∣ phys
  from_start : 0x1000 ≤ virt
  to_stop : virt + 2 ^ log2 ≤ 2 ^ 38
  phys_stop : phys + 2 ^ log2 ≤ 2 ^ 48

def Allowed (s : PageTables n μ) : Call n → Prop
  | .insert virt phys log2 _ => Flexpage virt phys log2
  | .flush virt size => virt + size ≤ 2 ^ 38
  | .mmu t j v => present (s.entries t j) = true ∧ clearMmuFlags v = clearMmuFlags (s.entries t j)

/-! ## Pages that core maps -/

section Flexpage

variable {virt phys log2 : Nat} {attr : PageAttr} (h : Flexpage virt phys log2)
include h

theorem Flexpage.aligned : Request.Aligned ⟨virt, 2 ^ log2, phys, attr⟩ := by
  have hdvd : (2 : Nat) ^ 12 ∣ 2 ^ log2 := pow_dvd_pow 2 (by have := h.size; omega)
  exact ⟨hdvd.trans h.virt_dvd, hdvd, hdvd.trans h.phys_dvd⟩

theorem Flexpage.below_kernel {a : Nat} (ha : a < virt + 2 ^ log2) : a < kernelFirst * 2 ^ 39 := by
  have := h.to_stop
  unfold kernelFirst
  omega

/-- They consist of pages of the smallest size. -/
theorem Flexpage.log2_eq {p a : Nat} (hp : p ∈ pageSizes)
    (hfit : Request.Fits ⟨virt, 2 ^ log2, phys, attr⟩ p a) : p = 12 := by
  have h₁ := hfit.from_start
  have h₂ := hfit.to_stop
  have hsize : (2 : Nat) ^ log2 ≤ 2 ^ 20 := Nat.pow_le_pow_right (by omega) (by have := h.size; omega)
  dsimp only at h₁ h₂
  have hle : (2 : Nat) ^ p ≤ 2 ^ 20 := by omega
  have : p ≤ 20 := (Nat.pow_le_pow_iff_right (by omega)).mp hle
  simp only [pageSizes, List.mem_cons, List.not_mem_nil, or_false] at hp
  omega

theorem Flexpage.pageFor_log2 {T : Tree (Fin n)} {a : Nat}
    (hlook : look pageSizes T a = some (pageFor pageSizes ⟨virt, 2 ^ log2, phys, attr⟩ a)) :
    (pageFor pageSizes ⟨virt, 2 ^ log2, phys, attr⟩ a).log2 = 12 := by
  have hlog := log2_of_look hlook
  rcases pageFor_cases pageSizes ⟨virt, 2 ^ log2, phys, attr⟩ a with hp | ⟨p, hmem, hfit, hp⟩
  · rw [hp] at hlog
    exact absurd hlog (by dsimp only; decide)
  · rw [hp]
    exact h.log2_eq hmem hfit

theorem Flexpage.not_large {v sz : Nat} :
    ¬ Request.Large ⟨virt, 2 ^ log2, phys, attr⟩ pageSizes v sz :=
  fun ⟨_, hp, hne, _, _, _, hfit⟩ => hne (h.log2_eq hp hfit)

end Flexpage

/-! ## The invariant -/

/-- All pages are of the smallest size, and there are no tables above the
memory of the component. -/
structure Space (kernel : Nat → Nat) (s : PageTables n μ) (T : Tree (Fin n)) : Prop where
  sound : PageTables.Sound A D kernelFirst kernel s T
  low : ∀ x ∈ spots pageSizes kernelFirst T, x.start < 2 ^ 38
  small : ∀ a x, look pageSizes T a = some x → x.log2 = 12

variable {A D} {kernel : Nat → Nat} {s s' : PageTables n μ} {T T' : Tree (Fin n)}
  {virt phys log2 : Nat} {flags : PageFlags} {r : Except TableError Unit}

theorem Space.insert (h : Space A D kernel s T) (hf : Flexpage virt phys log2) (flags : PageFlags) :
    ∃ r s' T', (pageTable A D).insertTranslation none virt phys (2 ^ log2) flags s = .ok (r, s') ∧
      Space A D kernel s' T' ∧ Inserted A D pageSizes kernelFirst none
        ⟨virt, 2 ^ log2, phys, flags.attr⟩ virt (2 ^ log2) s T r s' T' := by
  have hto := hf.to_stop
  have hc : s.Allowed kernelFirst (.insert virt phys (2 ^ log2) flags) :=
    ⟨by unfold kernelFirst; omega, hf.phys_stop⟩
  obtain ⟨r, s', T', hr, hs, hins⟩ := h.sound.insert (by decide) hc
  refine ⟨r, s', T', hr, ⟨hs, fun x hx => ?_, fun a x hx => ?_⟩, hins⟩
  · rcases hins.new x hx with hx | ⟨hx, -⟩
    · exact h.low x hx
    · omega
  · obtain ⟨m, -, hadds, -⟩ := hins.adds
    by_cases ha : virt ≤ a ∧ a < virt + m
    · have hlook := (hadds.inside a ha.1 ha.2).1
      rw [hlook] at hx
      cases hx
      exact hf.pageFor_log2 hlook
    · rw [hadds.outside a ha] at hx
      exact h.small a x hx

theorem Space.remove (h : Space A D kernel s T) {virt size : Nat} (hto : virt + size ≤ 2 ^ 38) :
    ∃ s' T', (pageTable A D).removeTranslation none virt size s = .ok (.ok (), s') ∧
      Space A D kernel s' T' ∧
      Removed A D pageSizes kernelFirst none virt size s T s' T' := by
  have hc : s.Allowed kernelFirst (.remove virt size) :=
    show virt + size ≤ kernelFirst * 2 ^ 39 by unfold kernelFirst; omega
  obtain ⟨s', T', hr, hs, hrem⟩ := h.sound.remove (by decide) hc
  refine ⟨s', T', hr, ⟨hs, fun x hx => h.low x (hrem.shrinks x hx), fun a x hx => ?_⟩, hrem⟩
  rw [hrem.maps, leave, Option.filter_eq_some_iff] at hx
  exact h.small a x hx.1

/-! ## Running out of tables -/

/-- After all is removed, the tables left are on the way to the first
address. -/
theorem Space.start_of_flushed (h' : Space A D kernel s' T')
    (hrem : Removed A D pageSizes kernelFirst none vmStart vmSize s T s' T') :
    ∀ x ∈ spots pageSizes kernelFirst T', x.start = 0 := by
  intro x hx
  have hlow := h'.low x hx
  have hgone := hrem.gone x hx
  obtain ⟨hlog, h12, k, hk⟩ := h'.sound.holds.repr.spot_log2 levels_pageSizes hx
  unfold Spot.Within vmSize vmStart at hgone
  simp only [List.mem_cons, List.not_mem_nil, or_false] at hlog
  rcases hlog with hlog | hlog | hlog | hlog
  · rw [hlog] at hk hgone
    omega
  · rw [hlog] at hk hgone
    omega
  · rw [hlog] at hk hgone
    omega
  · omega

/-- The memory of the component begins and ends at a page. -/
theorem Space.overlaps_vm_iff (h : Space A D kernel s T) {a : Nat} {x : Page}
    (hx : look pageSizes T a = some x) :
    x.Overlaps vmStart vmSize ↔ vmStart ≤ a ∧ a < 2 ^ 38 := by
  have hlog := h.small a x hx
  have hstart := start_of_look levels_pageSizes hx
  rw [hlog] at hstart
  have hlt := lt_clearLow_add (a := a) (n := 12)
  have hmod := clearLow_add_mod (a := a) (n := 12)
  unfold Page.Overlaps vmSize vmStart
  rw [hlog, hstart]
  omega

/-- After all is removed, pages below the memory of the component stay. -/
theorem Space.look_of_flushed (h : Space A D kernel s T)
    (hrem : Removed A D pageSizes kernelFirst none vmStart vmSize s T s' T') (a : Nat) :
    look pageSizes T' a = if vmStart ≤ a ∧ a < 2 ^ 38 then none else look pageSizes T a := by
  rw [hrem.maps]
  split
  · next ha => exact leave_eq_none fun x hx => (h.overlaps_vm_iff hx).mpr ha
  · next ha => exact leave_eq_self fun x hx ho => ha ((h.overlaps_vm_iff hx).mp ho)

/-- There is one table on each level for a page. -/
theorem spots_of_insert (hf : Flexpage virt phys log2) (h' : Space A D kernel s' T')
    (hzero : ∀ x ∈ spots pageSizes kernelFirst T, x.start = 0)
    (hins : Inserted A D pageSizes kernelFirst none ⟨virt, 2 ^ log2, phys, flags.attr⟩ virt (2 ^ log2)
      s T r s' T') {x : Spot (Fin n)} (hx : x ∈ spots pageSizes kernelFirst T') :
    x ∈ way pageSizes T' 0 ∨ x ∈ way pageSizes T' virt := by
  have hfirst : (0 : Nat) < kernelFirst * 2 ^ 39 := by decide
  have hvirt := hf.below_kernel (Nat.lt_add_of_pos_right (Nat.two_pow_pos log2))
  rcases hins.new x hx with hold | ⟨h₁, h₂, -⟩
  · have := hzero x hold
    exact .inl ((mem_way_iff levels_pageSizes hfirst).mpr ⟨hx, by omega, by
      have := Nat.two_pow_pos x.log2; omega⟩)
  · obtain ⟨hlog, h12, hdvd⟩ := h'.sound.holds.repr.spot_log2 levels_pageSizes hx
    have hle : log2 ≤ x.log2 := by
      have := hf.size
      simp only [List.mem_cons, List.not_mem_nil, or_false] at hlog
      omega
    have hstart : x.start ≤ virt :=
      Nat.le_of_lt_add_of_dvd h₁ ((pow_dvd_pow 2 hle).trans hdvd) hf.virt_dvd
    exact .inr ((mem_way_iff levels_pageSizes hvirt).mpr ⟨hx, hstart, h₂⟩)

/-- Three tables for the first address and three for another one are enough. -/
theorem Space.retry {hn : n < 2 ^ 32} {s s' : PageTables n (TableAllocator n)} (h7 : 7 ≤ n)
    (hf : Flexpage virt phys log2) (h' : Space A (tableAllocator hn) kernel s' T')
    (hzero : ∀ x ∈ spots pageSizes kernelFirst T, x.start = 0)
    (hins : Inserted A (tableAllocator hn) pageSizes kernelFirst none
      ⟨virt, 2 ^ log2, phys, flags.attr⟩ virt (2 ^ log2) s T r s' T') : r ≠ .error .outOfTables := by
  intro hr
  obtain ⟨m, e, htake⟩ := hins.out hr
  have htake : TableAllocator.alloc hn m = (.error e, s'.alloc) := htake
  obtain ⟨hfull, hsame⟩ := TableAllocator.full_of_alloc m e _ htake
  have hall : ∀ i : Fin n, i ∈ ((way pageSizes T' 0 ++ way pageSizes T' virt).map Spot.name).toFinset := by
    intro i
    have hi : i ∈ (tableAllocator hn).taken s'.alloc := by
      show i ∈ s'.alloc.used
      rw [hsame, hfull]
      exact Finset.mem_univ i
    obtain ⟨x, hx, rfl⟩ := mem_names_iff.mp ((h'.sound.taken i).mp hi)
    refine List.mem_toFinset.mpr (List.mem_map_of_mem (List.mem_append.mpr ?_))
    exact spots_of_insert hf h' hzero hins hx
  have hrepr := h'.sound.holds.repr
  have h₁ : (way pageSizes T' 0).length ≤ 3 := hrepr.length_way levels_pageSizes (by decide)
  have h₂ : (way pageSizes T' virt).length ≤ 3 :=
    hrepr.length_way levels_pageSizes (hf.below_kernel (Nat.lt_add_of_pos_right (Nat.two_pow_pos log2)))
  have hcard : n ≤ 6 := by
    calc n = (Finset.univ : Finset (Fin n)).card := (Finset.card_fin n).symm
      _ ≤ _ := Finset.card_le_card fun i _ => hall i
      _ ≤ _ := List.toFinset_card_le _
      _ = (way pageSizes T' 0).length + (way pageSizes T' virt).length := by
        rw [List.length_map, List.length_append]
      _ ≤ 6 := by omega
  omega

/-! ## One call -/

theorem outside_of_insert {req : Request} {v sz : Nat}
    (hins : Inserted A D pageSizes kernelFirst none req v sz s T r s' T') {a : Nat}
    (ha : ¬ (v ≤ a ∧ a < v + sz)) : look pageSizes T' a = look pageSizes T a := by
  obtain ⟨m, hm, hadds, -⟩ := hins.adds
  exact hadds.outside a (by omega)

/-- What is known if there were tables. -/
theorem answer_of_insert (hf : Flexpage virt phys log2)
    (hins : Inserted A D pageSizes kernelFirst none ⟨virt, 2 ^ log2, phys, flags.attr⟩ virt (2 ^ log2)
      s T r s' T') (hr : r ≠ .error .outOfTables) :
    (r = .ok () ∧ ∀ a, virt ≤ a → a < virt + 2 ^ log2 →
      look pageSizes T' a = some (pageFor pageSizes ⟨virt, 2 ^ log2, phys, flags.attr⟩ a)) ∨
    r = .error .doubleInsertion ∧
      Conflict pageSizes ⟨virt, 2 ^ log2, phys, flags.attr⟩ virt (2 ^ log2) T := by
  cases r with
  | ok u =>
    obtain ⟨m, -, hadds, hm⟩ := hins.adds
    have hm := hm rfl
    exact .inl ⟨rfl, fun a hv ha => (hadds.inside a hv (by omega)).1⟩
  | error e =>
    cases e with
    | invalidRange => exact absurd hf.aligned (hins.invalid rfl)
    | doubleInsertion => exact .inr ⟨rfl, (hins.double rfl).resolve_right fun hl => hf.not_large hl.2⟩
    | outOfTables => exact absurd rfl hr

/-- A page that is in the way after the flush was so before. -/
theorem conflict_of_flushed {s₁ : PageTables n μ} {T₁ T₂ : Tree (Fin n)}
    (hins : Inserted A D pageSizes kernelFirst none ⟨virt, 2 ^ log2, phys, flags.attr⟩ virt (2 ^ log2)
      s T r s₁ T₁)
    (hlook : ∀ a, look pageSizes T₂ a =
      if vmStart ≤ a ∧ a < 2 ^ 38 then none else look pageSizes T₁ a)
    (hc : Conflict pageSizes ⟨virt, 2 ^ log2, phys, flags.attr⟩ virt (2 ^ log2) T₂) :
    Conflict pageSizes ⟨virt, 2 ^ log2, phys, flags.attr⟩ virt (2 ^ log2) T := by
  obtain ⟨a, x, hv, ha, hx, hne⟩ := hc
  obtain ⟨m, -, hadds, -⟩ := hins.adds
  rw [hlook] at hx
  split at hx
  · cases hx
  · by_cases hm : a < virt + m
    · rw [(hadds.inside a hv hm).1] at hx
      exact absurd (Option.some.inj hx).symm hne
    · rw [hadds.outside a (by omega)] at hx
      exact ⟨a, x, hv, ha, hx, hne⟩

/-- The spec of `insert_translation`: two rounds are enough. -/
theorem Space.resolve {hn : n < 2 ^ 32} {s : PageTables n (TableAllocator n)} (h7 : 7 ≤ n)
    (h : Space A (tableAllocator hn) kernel s T) (hf : Flexpage virt phys log2) (flags : PageFlags) :
    ∃ b s' T', (∀ fuel, insertTranslation A (tableAllocator hn) virt phys (2 ^ log2) flags (fuel + 2) s =
        .ok (b, s')) ∧
      Space A (tableAllocator hn) kernel s' T' ∧
      (b = true → ∀ a, virt ≤ a → a < virt + 2 ^ log2 →
        look pageSizes T' a = some (pageFor pageSizes ⟨virt, 2 ^ log2, phys, flags.attr⟩ a)) ∧
      (b = false → Conflict pageSizes ⟨virt, 2 ^ log2, phys, flags.attr⟩ virt (2 ^ log2) T) ∧
      ∀ a, ¬ (virt ≤ a ∧ a < virt + 2 ^ log2) → look pageSizes T' a = look pageSizes T a ∨
        vmStart ≤ a ∧ a < 2 ^ 38 ∧ look pageSizes T' a = none := by
  obtain ⟨r₁, s₁, T₁, hr₁, h₁, hins₁⟩ := h.insert hf flags
  by_cases hout : r₁ = .error .outOfTables
  · subst hout
    obtain ⟨s₂, T₂, hr₂, h₂, hrem⟩ := h₁.remove (show vmStart + vmSize ≤ 2 ^ 38 by decide)
    have hzero := h₂.start_of_flushed hrem
    have hlook := h₁.look_of_flushed hrem
    obtain ⟨r₃, s₃, T₃, hr₃, h₃, hins₃⟩ := h₂.insert hf flags
    have hround : ∀ fuel, insertTranslation A (tableAllocator hn) virt phys (2 ^ log2) flags
        (fuel + 2) s = insertTranslation A (tableAllocator hn) virt phys (2 ^ log2) flags
          (fuel + 1) s₂ := by
      intro fuel
      rw [insertTranslation, hr₁]
      dsimp only
      rw [flush, hr₂]
      rfl
    have hothers : ∀ a, ¬ (virt ≤ a ∧ a < virt + 2 ^ log2) →
        look pageSizes T₃ a = look pageSizes T a ∨
          vmStart ≤ a ∧ a < 2 ^ 38 ∧ look pageSizes T₃ a = none := by
      intro a ha
      rw [outside_of_insert hins₃ ha, hlook]
      split
      · next hvm => exact .inr ⟨hvm.1, hvm.2, rfl⟩
      · exact .inl (outside_of_insert hins₁ ha)
    rcases answer_of_insert hf hins₃ (Space.retry h7 hf h₃ hzero hins₃) with
      ⟨rfl, hmap⟩ | ⟨rfl, hconf⟩
    · refine ⟨true, s₃, T₃, fun fuel => ?_, h₃, fun _ => hmap, fun hb => (by cases hb), hothers⟩
      rw [hround, insertTranslation, hr₃]
    · refine ⟨false, s₃, T₃, fun fuel => ?_, h₃, fun hb => (by cases hb), fun _ =>
        conflict_of_flushed hins₁ hlook hconf, hothers⟩
      rw [hround, insertTranslation, hr₃]
  · have hothers := fun a (ha : ¬ (virt ≤ a ∧ a < virt + 2 ^ log2)) =>
      outside_of_insert hins₁ ha
    rcases answer_of_insert hf hins₁ hout with ⟨rfl, hmap⟩ | ⟨rfl, hconf⟩
    · refine ⟨true, s₁, T₁, fun fuel => ?_, h₁, fun _ => hmap, fun hb => (by cases hb), fun a ha =>
        .inl (hothers a ha)⟩
      rw [insertTranslation, hr₁]
    · refine ⟨false, s₁, T₁, fun fuel => ?_, h₁, fun hb => (by cases hb), fun _ => hconf, fun a ha =>
        .inl (hothers a ha)⟩
      rw [insertTranslation, hr₁]

/-! ## Runs -/

abbrev History (n : Nat) (μ : Type) := List (PageTables n μ × Call n × Bool)

/-- A step of a run. Insertions have `fuel` rounds. -/
abbrev Trans (A : TableArray n) (D : Md (Fin n) μ) (fuel : Nat) :=
  Called Allowed (call (μ := μ) A D fuel)

variable {hn : n < 2 ^ 32} {s : PageTables n (TableAllocator n)} {fuel : Nat}
  {hist : History n (TableAllocator n)}

theorem Space.step (h7 : 7 ≤ n) (hfuel : 2 ≤ fuel) (h : Space A (tableAllocator hn) kernel s T)
    {c : Call n} (hc : Allowed s c) : ∃ b s' T', call A (tableAllocator hn) fuel s c = .ok (b, s') ∧
      Space A (tableAllocator hn) kernel s' T' := by
  cases c with
  | insert virt phys log2 flags =>
    obtain ⟨b, s', T', hr, h', -⟩ := h.resolve h7 hc flags
    refine ⟨b, s', T', ?_, h'⟩
    have := hr (fuel - 2)
    rwa [Nat.sub_add_cancel hfuel] at this
  | flush virt size =>
    obtain ⟨s', T', hr, h', -⟩ := h.remove hc
    refine ⟨true, s', T', ?_, h'⟩
    rw [call, flush, hr]
    rfl
  | mmu t j v => exact ⟨true, _, T, rfl, h.sound.mmu hc, h.low, h.small⟩

theorem space_of_run (h7 : 7 ≤ n) (hfuel : 2 ≤ fuel)
    (h : Run (PageTables.Init (tableAllocator hn) kernelFirst kernel) (Trans A (tableAllocator hn) fuel)
      hist s) : ∃ T, Space A (tableAllocator hn) kernel s T := by
  refine h.invariant (I := fun s => ∃ T, Space A (tableAllocator hn) kernel s T)
    (fun s hs => ⟨bare, PageTables.sound_init hs, ?_, ?_⟩) fun s e s' ⟨T, hs⟩ ht => ?_
  · simp [spots_bare]
  · simp [look_bare]
  · obtain ⟨b, s₁, T', hr, h'⟩ := hs.step h7 hfuel ht.1
    obtain ⟨-, rfl⟩ : b = e.2 ∧ s₁ = s' := by simpa [hr] using ht.2
    exact ⟨T', h'⟩

/-- With seven tables (`DEFAULT_TRANSLATION_TABLE_MAX` is 128), core can
always map the page that a component needs, after two rounds at most, unless
another page is in the way. Other pages stay, or are gone with all the memory
of the component. -/
theorem insert_of_run (h7 : 7 ≤ n) (hfuel : 2 ≤ fuel)
    (h : Run (PageTables.Init (tableAllocator hn) kernelFirst kernel) (Trans A (tableAllocator hn) fuel)
      hist s) (hf : Flexpage virt phys log2) (flags : PageFlags) :
    ∃ b s', (∀ k, insertTranslation A (tableAllocator hn) virt phys (2 ^ log2) flags (k + 2) s =
        .ok (b, s')) ∧
      (b = true → ∀ a, virt ≤ a → a < virt + 2 ^ log2 →
        (s'.pages A kernelFirst).translate a = some (phys + (a - virt), flags.attr)) ∧
      (b = false → ∃ a x, virt ≤ a ∧ a < virt + 2 ^ log2 ∧ s.pages A kernelFirst a = some x ∧
        x ≠ pageFor pageSizes ⟨virt, 2 ^ log2, phys, flags.attr⟩ a) ∧
      ∀ a, ¬ (virt ≤ a ∧ a < virt + 2 ^ log2) →
        s'.pages A kernelFirst a = s.pages A kernelFirst a ∨
          vmStart ≤ a ∧ a < 2 ^ 38 ∧ s'.pages A kernelFirst a = none := by
  obtain ⟨T, hs⟩ := space_of_run h7 hfuel h
  obtain ⟨b, s', T', hr, h', hmap, hconf, hothers⟩ := hs.resolve h7 hf flags
  refine ⟨b, s', hr, fun hb a hv ha => ?_, fun hb => ?_, fun a ha => ?_⟩
  · refine PageTables.translate_of_look ⟨virt, 2 ^ log2, phys, flags.attr⟩ ?_ (hmap hb a hv ha)
    rw [h'.sound.pages_eq, if_pos (hf.below_kernel ha)]
  · obtain ⟨a, x, hv, ha, hx, hne⟩ := hconf hb
    refine ⟨a, x, hv, ha, ?_, hne⟩
    rw [hs.sound.pages_eq, if_pos (hf.below_kernel ha), hx]
  · rw [h'.sound.pages_eq, hs.sound.pages_eq]
    rcases hothers a ha with he | ⟨h₁, h₂, h₃⟩
    · rw [he]
      exact .inl rfl
    · rw [h₃]
      exact .inr ⟨h₁, h₂, by split <;> rfl⟩

/-! ## An executed run -/

theorem flexpage_iff {virt phys log2 : Nat} : Flexpage virt phys log2 ↔
    (log2 = 12 ∨ log2 = 20) ∧ 2 ^ log2 ∣ virt ∧ 2 ^ log2 ∣ phys ∧ 0x1000 ≤ virt ∧
      virt + 2 ^ log2 ≤ 2 ^ 38 ∧ phys + 2 ^ log2 ≤ 2 ^ 48 :=
  ⟨fun h => ⟨h.1, h.2, h.3, h.4, h.5, h.6⟩, fun ⟨h₁, h₂, h₃, h₄, h₅, h₆⟩ => ⟨h₁, h₂, h₃, h₄, h₅, h₆⟩⟩

instance (s : PageTables n μ) : DecidablePred (Allowed s)
  | .insert .. => decidable_of_iff _ flexpage_iff.symm
  | .flush .. => inferInstanceAs (Decidable (_ ≤ _))
  | .mmu .. => inferInstanceAs (Decidable (_ ∧ _))

def sevenTables : TableArray 7 := ⟨0x200000, by decide, by decide⟩

def newAddressSpace : PageTables 7 (TableAllocator 7) := ⟨fun _ _ => 0, .new 7⟩

theorem init_newAddressSpace (hn : 7 < 2 ^ 32) :
    PageTables.Init (tableAllocator hn) kernelFirst (fun _ => 0) newAddressSpace :=
  ⟨fun _ _ => rfl, fun _ _ => rfl, rfl⟩

theorem exists_space_run (hn : 7 < 2 ^ 32) (calls : List (Call 7))
    {p : History 7 (TableAllocator 7) × PageTables 7 (TableAllocator 7) → Prop} [DecidablePred p]
    (h : (replay (attempt Allowed (call sevenTables (tableAllocator hn) 2)) calls
      ([], newAddressSpace)).any (fun r => decide (p r)) = true) :
    ∃ hist s, Run (PageTables.Init (tableAllocator hn) kernelFirst fun _ => 0)
      (Trans sevenTables (tableAllocator hn) 2) hist s ∧ p (hist, s) :=
  exists_called_run (init_newAddressSpace hn) calls h

/-- Three pages far from each other need all tables. For one more, all
that is mapped is removed. -/
theorem insert_of_run_full :
    ∃ (hist : History 7 (TableAllocator 7)) (s : PageTables 7 (TableAllocator 7)), hist.map (·.2.2) = [true, true, true] ∧
      s.alloc.used = Finset.univ ∧
      ∃ b s', (∀ k, insertTranslation sevenTables (tableAllocator (n := 7) (by decide)) 0xc0000000 0x5000
          (2 ^ 12) PageTables.readOnly (k + 2) s = .ok (b, s')) ∧
        (b = true → ∀ a, 0xc0000000 ≤ a → a < 0xc0000000 + 2 ^ 12 →
          (s'.pages sevenTables kernelFirst).translate a =
            some (0x5000 + (a - 0xc0000000), PageTables.readOnly.attr)) ∧
        (b = false → ∃ a x, 0xc0000000 ≤ a ∧ a < 0xc0000000 + 2 ^ 12 ∧
          s.pages sevenTables kernelFirst a = some x ∧
            x ≠ pageFor pageSizes ⟨0xc0000000, 2 ^ 12, 0x5000, PageTables.readOnly.attr⟩ a) ∧
        ∀ a, ¬ (0xc0000000 ≤ a ∧ a < 0xc0000000 + 2 ^ 12) →
          s'.pages sevenTables kernelFirst a = s.pages sevenTables kernelFirst a ∨
            vmStart ≤ a ∧ a < 2 ^ 38 ∧ s'.pages sevenTables kernelFirst a = none := by
  obtain ⟨hist, s, h, hlen, hused⟩ := exists_space_run (by decide)
    [.insert 0x1000 0x1000 12 PageTables.readOnly, .insert 0x40000000 0x2000 12 PageTables.readWrite,
      .insert 0x80000000 0x3000 12 PageTables.readOnly]
    (p := fun r => r.1.map (·.2.2) = [true, true, true] ∧ r.2.alloc.used = Finset.univ)
    (by decide +kernel)
  exact ⟨hist, s, hlen, hused, insert_of_run (by decide) (by decide) h
    (flexpage_iff.mpr (by decide)) PageTables.readOnly⟩

end AddressSpace

end Genode.Hw
