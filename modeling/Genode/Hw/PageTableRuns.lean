import Genode.Hw.PageRemoveLevels
import Genode.Lib.Run

/-!
# PageTableRuns — runs of a page table

Translations are inserted and removed in any order, and the MMU sets its
flags in between. To the MMU, such a run is one of a map from addresses to
pages.
-/

namespace Genode.Hw

open Lib Util
open Base (Md stock)
open CommonDescriptor (present clearMmuFlags)
open BaseDescriptor (mapsPage)

/-! ## Maps -/

/-- The page that each address belongs to. -/
abbrev PageMap := Nat → Option Page

/-- What is called, and what the MMU does. -/
inductive Call (n : Nat) where
  | insert (vo addr size : Nat) (flags : PageFlags)
  | remove (vo size : Nat)
  | mmu (t : Option (Fin n)) (j v : Nat)
  deriving DecidableEq

abbrev Reply := Except TableError Unit

namespace PageMap

/-- Where an address is in physical memory, and how it may be used. -/
def translate (M : PageMap) (a : Nat) : Option (Nat × PageAttr) :=
  (M a).map fun x => (x.frame.addr + (a - x.start), x.frame.attr)

/-- The first `m` addresses of a request are mapped that had no page, or just
this one. -/
structure Adds (req : Request) (m : Nat) (M M' : PageMap) : Prop where
  inside : ∀ a, req.start ≤ a → a < req.start + m →
    M' a = some (pageFor pageSizes req a) ∧ (M a = none ∨ M a = M' a)
  outside : ∀ a, ¬ (req.start ≤ a ∧ a < req.start + m) → M' a = M a

inductive Step {n : Nat} : PageMap → Call n × Reply → PageMap → Prop where
  | insert {M M' : PageMap} {vo addr size : Nat} {flags : PageFlags}
      (h : Adds ⟨vo, size, addr, flags.attr⟩ size M M') : Step M (.insert vo addr size flags, .ok ()) M'
  | insertPart {M M' : PageMap} {vo addr size m : Nat} {flags : PageFlags} {e : TableError}
      (hm : m ≤ size) (h : Adds ⟨vo, size, addr, flags.attr⟩ m M M') :
      Step M (.insert vo addr size flags, .error e) M'
  | remove {M : PageMap} {vo size : Nat} :
      Step M (.remove vo size, .ok ()) fun a => leave vo size (M a)
  | mmu {M : PageMap} {t : Option (Fin n)} {j v : Nat} : Step M (.mmu t j v, .ok ()) M

end PageMap

variable {n : Nat} {μ : Type} (A : TableArray n) (D : Md (Fin n) μ)

namespace PageTables

/-- What the MMU finds in the blocks of the first `N` entries. -/
def pages (N : Nat) (s : PageTables n μ) : PageMap := fun a =>
  if a < N * 2 ^ 39 then walk A s pageSizes none a else none

/-- The tables that the MMU reads on the way to an address. -/
def tablesTo (s : PageTables n μ) : List Nat → Option (Fin n) → Nat → List (Spot (Fin n))
  | [], _, _ => []
  | p :: ps, t, a =>
    let v := s.entries t (a / 2 ^ p)
    if !present v then []
    else if p = 12 ∨ p ≠ 39 ∧ mapsPage v then []
    else
      match A.virtAddr (TableDescriptor.pa.masked v) with
      | .error _ => []
      | .ok i => ⟨p, clearLow a p, i⟩ :: (tablesTo s ps (some i) (a % 2 ^ p)).map fun x =>
        x.moved (clearLow a p)

def call (s : PageTables n μ) : Call n → Exec (Reply × PageTables n μ)
  | .insert vo addr size flags => (pageTable A D).insertTranslation none vo addr size flags s
  | .remove vo size => (pageTable A D).removeTranslation none vo size s
  | .mmu t j v => .ok (.ok (), s.setEntry t j v)

/-- Ranges lie within the part of the root that has `N` entries, and physical
ranges below 2^48, from where on an entry drops the bits of the address. The
MMU changes its flags, only. -/
def Allowed (N : Nat) (s : PageTables n μ) : Call n → Prop
  | .insert vo addr size _ => vo + size ≤ N * 2 ^ 39 ∧ addr + size ≤ 2 ^ 48
  | .remove vo size => vo + size ≤ N * 2 ^ 39
  | .mmu t j v => present (s.entries t j) = true ∧ clearMmuFlags v = clearMmuFlags (s.entries t j)

/-- A new page table. The entries from `N` on are those of the kernel. -/
structure Init (N : Nat) (kernel : Nat → Nat) (s : PageTables n μ) : Prop where
  own : ∀ j < N, s.entries none j = 0
  kernel : ∀ j, N ≤ j → s.entries none j = kernel j
  taken : D.taken s.alloc = ∅

/-- The tables in memory are a tree, and no others are in use. -/
structure Sound (N : Nat) (kernel : Nat → Nat) (s : PageTables n μ) (T : Tree (Fin n)) : Prop where
  holds : Holds A D s pageSizes N none T
  taken : ∀ i, i ∈ D.taken s.alloc ↔ i ∈ names pageSizes N T
  kernel : ∀ j, N ≤ j → Same (kernel j) (s.entries none j)

end PageTables

variable {A D} {p : Nat} {ps : List Nat} {N : Nat} {t : Option (Fin n)} {s s' : PageTables n μ}
  {T : Tree (Fin n)} {kernel : Nat → Nat}

/-! ## The MMU sees the tree -/

theorem walk_eq_of_below (hl : Levels (p :: ps)) (h : Repr A s (p :: ps) N t T) {a : Nat}
    (ha : a < N * 2 ^ p)
    (hbelow : p ≠ 12 → ∀ i sub, Repr A s ps 512 (some i) sub →
      walk A s ps (some i) (a % 2 ^ p) = look ps sub (a % 2 ^ p) ∧
        s.tablesTo A ps (some i) (a % 2 ^ p) = way ps sub (a % 2 ^ p)) :
    walk A s (p :: ps) t a = look (p :: ps) T a ∧
      s.tablesTo A (p :: ps) t a = way (p :: ps) T a := by
  have hj : a / 2 ^ p < N := (Nat.div_lt_iff_lt_mul (Nat.two_pow_pos p)).mpr ha
  have hlog := hl.le
  have hslot := h _ hj
  have hpr := hslot.present_iff hl
  rw [walk, PageTables.tablesTo, way]
  cases hT : T (a / 2 ^ p) with
  | empty =>
    have hpr' : present (s.entries t (a / 2 ^ p)) = false := by simpa [hT] using hpr
    simp [look_empty hT, hpr']
  | page x =>
    have hpr' := hpr.mpr (by simp [hT])
    rw [hT] at hslot
    have hmaps : p = 12 ∨ p ≠ 39 ∧ mapsPage (s.entries t (a / 2 ^ p)) = true := by
      have := hslot.1
      exact or_iff_not_imp_left.mpr fun h12 => ⟨by omega, hslot.mapsPage hl h12⟩
    rw [look_page hT]
    simp [hpr', hmaps, hslot.2.2.frameOf hlog.1 (by omega) hslot.2.1]
  | table i sub =>
    have hpr' := hpr.mpr (by simp [hT])
    rw [hT] at hslot
    obtain ⟨h12, hrefers, hsub⟩ := hslot
    obtain ⟨h₁, h₂⟩ := hbelow h12 i sub hsub
    have hmasked : A.virtAddr (TableDescriptor.pa.masked (s.entries t (a / 2 ^ p))) = .ok i := by
      rw [hrefers.masked rfl (by decide) (by decide), TableArray.virtAddr_physAddr]
    have hthrough : ∀ x : Page, x.through (s.entries t (a / 2 ^ p)) = x := fun x => by
      rw [Page.through, hrefers.through]
    rw [look_table hT]
    simp [hpr', hrefers.not_mapsPage, hmasked, h₁, h₂, hthrough, h12]

/-- The MMU finds the page of the tree, on a way through the tables of the
tree. -/
theorem walk_eq (hl : Levels (p :: ps)) (h : Repr A s (p :: ps) N t T) {a : Nat}
    (ha : a < N * 2 ^ p) : walk A s (p :: ps) t a = look (p :: ps) T a ∧
      s.tablesTo A (p :: ps) t a = way (p :: ps) T a := by
  generalize hqs : p :: ps = qs at hl
  induction hl generalizing p ps N t T a with
  | last =>
    obtain ⟨rfl, rfl⟩ := List.cons.inj hqs
    exact walk_eq_of_below .last h ha fun h12 => absurd rfl h12
  | @above q qs hl hq ih =>
    obtain ⟨rfl, rfl⟩ := List.cons.inj hqs
    have hab : Levels ((q + 9) :: q :: qs) := .above hl hq
    refine walk_eq_of_below hab h ha fun _ i sub hsub => ih hsub ?_ rfl
    rw [hab.block]
    exact Nat.mod_lt _ (Nat.two_pow_pos _)

theorem Same.trans {u v w : Nat} (h₁ : Same u v) (h₂ : Same v w) : Same u w :=
  ⟨h₂.1.trans h₁.1, fun h => h₂.2 (h₁.2 h)⟩

namespace PageTables

theorem Sound.pages_eq (h : Sound A D N kernel s T) (a : Nat) :
    s.pages A N a = if a < N * 2 ^ 39 then look pageSizes T a else none := by
  unfold pages
  split
  · next ha => exact (walk_eq levels_pageSizes h.holds.repr ha).1
  · rfl

/-! ## One call -/

/-- The spec of an insertion. -/
theorem Sound.insert (hN : N ≤ 512) (h : Sound A D N kernel s T) {vo addr size : Nat}
    {flags : PageFlags} (hc : s.Allowed N (.insert vo addr size flags)) :
    ∃ r s' T', s.call A D (.insert vo addr size flags) = .ok (r, s') ∧ Sound A D N kernel s' T' ∧
      Inserted A D pageSizes N none ⟨vo, size, addr, flags.attr⟩ vo size s T r s' T' := by
  obtain ⟨r, s', T', hr, hins⟩ := pageTable_inserts hN s none T flags vo addr size h.holds hc.1 hc.2
  refine ⟨r, s', T', hr, ⟨hins.holds, fun i => ?_, fun j hj => ?_⟩, hins⟩
  · rw [hins.taken, h.taken]
    refine ⟨fun hi => hi.elim (fun hi => ?_) id, .inr⟩
    obtain ⟨x, hx, rfl⟩ := mem_names_iff.mp hi
    exact mem_names_iff.mpr ⟨x, hins.grows x hx, rfl⟩
  · rw [hins.others j hj]
    exact h.kernel j hj

/-- The spec of a removal. -/
theorem Sound.remove (hN : N ≤ 512) (h : Sound A D N kernel s T) {vo size : Nat}
    (hc : s.Allowed N (.remove vo size)) :
    ∃ s' T', s.call A D (.remove vo size) = .ok (.ok (), s') ∧ Sound A D N kernel s' T' ∧
      Removed A D pageSizes N none vo size s T s' T' := by
  obtain ⟨s', T', hr, hrem⟩ := pageTable_removes hN s none T vo size h.holds hc
  refine ⟨s', T', hr, ⟨hrem.holds, fun i => ?_, fun j hj => ?_⟩, hrem⟩
  · rw [hrem.taken, h.taken]
    exact ⟨fun hi => hi.2 hi.1, fun hi => ⟨hrem.of_mem_names hi, fun _ => hi⟩⟩
  · rw [hrem.others j hj]
    exact h.kernel j hj

/-- The MMU leaves the tree as it is. -/
theorem Sound.mmu (h : Sound A D N kernel s T) {t : Option (Fin n)} {j v : Nat}
    (hc : s.Allowed N (.mmu t j v)) : Sound A D N kernel (s.setEntry t j v) T := by
  have hsame : ∀ q k, Same (s.entries q k) ((s.setEntry t j v).entries q k) := by
    intro q k
    by_cases hq : q = t
    · subst hq
      by_cases hk : k = j
      · subst hk
        rw [setEntry_self]
        refine ⟨hc.2, fun h0 => ?_⟩
        have hpr := hc.1
        rw [h0] at hpr
        exact absurd hpr (by decide)
      · rw [setEntry_of_ne s q v hk]
        exact .refl _
    · rw [setEntry_other s j v hq]
      exact .refl _
  refine ⟨⟨h.holds.repr.congr (fun k _ => hsame _ k) fun i _ k => hsame _ k, h.holds.nodup,
    h.holds.self, h.holds.own, h.holds.taken⟩, h.taken, fun k hk => ?_⟩
  exact (h.kernel k hk).trans (hsame none k)

/-- What an insertion does to the map. -/
theorem Sound.adds (h : Sound A D N kernel s T) {T' : Tree (Fin n)} (h' : Sound A D N kernel s' T')
    (req : Request) {m : Nat} (hstop : req.start + m ≤ N * 2 ^ 39)
    (hadds : Hw.Adds pageSizes req req.start m T T') :
    PageMap.Adds req m (s.pages A N) (s'.pages A N) := by
  refine ⟨fun a hv ha => ?_, fun a ha => ?_⟩
  · obtain ⟨h₁, h₂⟩ := hadds.inside a hv ha
    rw [h.pages_eq, h'.pages_eq, if_pos (by omega), if_pos (by omega), h₁]
    exact ⟨rfl, h₂⟩
  · rw [h.pages_eq, h'.pages_eq, hadds.outside a ha]

/-- Each call does to the map what it should. -/
theorem Sound.step (hN : N ≤ 512) (h : Sound A D N kernel s T) {c : Call n} (hc : s.Allowed N c) :
    ∃ r s', s.call A D c = .ok (r, s') ∧ (∃ T', Sound A D N kernel s' T') ∧
      PageMap.Step (s.pages A N) (c, r) (s'.pages A N) := by
  cases c with
  | insert vo addr size flags =>
    obtain ⟨r, s', T', hr, h', hins⟩ := h.insert hN hc
    obtain ⟨m, hm, hadds, hok⟩ := hins.adds
    have hmap := h.adds h' ⟨vo, size, addr, flags.attr⟩ (by have := hc.1; dsimp only; omega) hadds
    refine ⟨r, s', hr, ⟨T', h'⟩, ?_⟩
    cases r with
    | ok u =>
      obtain rfl := hok rfl
      exact .insert hmap
    | error e => exact .insertPart hm hmap
  | remove vo size =>
    obtain ⟨s', T', hr, h', hrem⟩ := h.remove hN hc
    refine ⟨_, s', hr, ⟨T', h'⟩, ?_⟩
    have hmap : s'.pages A N = fun a => leave vo size (s.pages A N a) := by
      funext a
      rw [h.pages_eq, h'.pages_eq, hrem.maps]
      split <;> rfl
    rw [hmap]
    exact .remove
  | mmu t j v =>
    have h' := h.mmu hc
    refine ⟨_, _, rfl, ⟨T, h'⟩, ?_⟩
    have hmap : (s.setEntry t j v).pages A N = s.pages A N := funext fun a => by
      rw [h.pages_eq, h'.pages_eq]
    rw [hmap]
    exact .mmu

/-! ## Runs -/

abbrev History (n : Nat) (μ : Type) := List (PageTables n μ × Call n × Reply)

/-- A step of a run. -/
abbrev Trans (A : TableArray n) (D : Md (Fin n) μ) (N : Nat) :=
  Called (Allowed N) (call (μ := μ) A D)

theorem sound_init (h : Init D N kernel s) : Sound A D N kernel s bare := by
  refine ⟨⟨Repr.bare h.own, ?_, fun i hi => (by cases hi), fun i hi => (by cases hi), ?_⟩,
    fun i => ?_, fun j hj => ?_⟩
  · rw [names_bare]
    exact List.nodup_nil
  · simp [names_bare]
  · simp [names_bare, h.taken]
  · rw [h.kernel j hj]
    exact .refl _

variable {hist : History n μ}

theorem sound_of_run (hN : N ≤ 512) (h : Run (Init D N kernel) (Trans A D N) hist s) :
    (∃ T, Sound A D N kernel s T) ∧
      Run (· = fun _ => none) PageMap.Step (hist.map fun e => (e.1.pages A N, e.2)) (s.pages A N) := by
  refine h.refines (I := fun s => ∃ T, Sound A D N kernel s T) (pages A N) (fun s hs => ?_)
    fun s c hs hc => ?_
  · have hsound := sound_init (A := A) hs
    refine ⟨⟨_, hsound⟩, funext fun a => ?_⟩
    rw [hsound.pages_eq, look_bare]
    split <;> rfl
  · obtain ⟨T, hs⟩ := hs
    exact hs.step hN hc

/-- To the MMU, every run of a page table is a run of a map from addresses to
pages. Each call returns. The entries of the kernel stay as they are. -/
theorem refines_map (hN : N ≤ 512) (h : Run (Init D N kernel) (Trans A D N) hist s) :
    Run (· = fun _ => none) PageMap.Step (hist.map fun e => (e.1.pages A N, e.2)) (s.pages A N) ∧
      (∀ j, N ≤ j → clearMmuFlags (s.entries none j) = clearMmuFlags (kernel j)) ∧
      ∀ c, s.Allowed N c → ∃ r s', s.call A D c = .ok (r, s') := by
  obtain ⟨⟨T, hs⟩, hrun⟩ := sound_of_run hN h
  refine ⟨hrun, fun j hj => (hs.kernel j hj).1, fun c hc => ?_⟩
  obtain ⟨r, s', hr, -⟩ := hs.step hN hc
  exact ⟨r, s', hr⟩

/-- No call failed for other reasons than a page in the way. -/
def Tidy (hist : History n μ) : Prop :=
  ∀ e ∈ hist, e.2.2 ≠ .error .invalidRange ∧ e.2.2 ≠ .error .outOfTables

/-- Then no table is empty. -/
theorem filled_of_run (hN : N ≤ 512) (h : Run (Init D N kernel) (Trans A D N) hist s)
    (ht : Tidy hist) : ∃ T, Sound A D N kernel s T ∧ Filled pageSizes N T := by
  refine h.invariant_of (I := fun s => ∃ T, Sound A D N kernel s T ∧ Filled pageSizes N T)
    (C := fun _ (e : Call n × Reply) => e.2 ≠ .error .invalidRange ∧ e.2 ≠ .error .outOfTables)
    (fun s hs => ⟨_, sound_init hs, filled_bare _ _⟩) (fun s e s' hs htr hc => ?_) ht
  obtain ⟨T, hs, hf⟩ := hs
  obtain ⟨c, r⟩ := e
  obtain ⟨hal, hcall⟩ := htr
  dsimp only at hal hcall hc
  cases c with
  | insert vo addr size flags =>
    obtain ⟨r₁, s₁, T', hr, h', hins⟩ := hs.insert hN hal
    obtain ⟨rfl, rfl⟩ : r₁ = r ∧ s₁ = s' := by simpa [hr] using hcall
    refine ⟨T', h', hins.filled ?_ hf⟩
    cases r₁ with
    | ok u => exact .inl rfl
    | error e =>
      cases e with
      | invalidRange => exact absurd rfl hc.1
      | doubleInsertion => exact .inr rfl
      | outOfTables => exact absurd rfl hc.2
  | remove vo size =>
    obtain ⟨s₁, T', hr, h', hrem⟩ := hs.remove hN hal
    obtain ⟨-, rfl⟩ : _ ∧ s₁ = s' := by simpa [hr] using hcall
    exact ⟨T', h', hrem.filled hf⟩
  | mmu t j v =>
    obtain ⟨-, rfl⟩ : _ ∧ s.setEntry t j v = s' := by simpa [call] using hcall
    exact ⟨T, hs.mmu hal, hf⟩

/-! ## Tables -/

/-- Each table in use is on the way to an address, in one place only. If no
call failed for other reasons than a page in the way, it leads to a page. -/
theorem tables_exact (hN : N ≤ 512) (h : Run (Init D N kernel) (Trans A D N) hist s) :
    (∀ i, i ∈ D.taken s.alloc ↔
      ∃ a < N * 2 ^ 39, ∃ x ∈ s.tablesTo A pageSizes none a, x.name = i) ∧
    (∀ a < N * 2 ^ 39, ∀ b < N * 2 ^ 39, ∀ x ∈ s.tablesTo A pageSizes none a,
      ∀ y ∈ s.tablesTo A pageSizes none b, x.name = y.name → x = y) ∧
    (Tidy hist → ∀ a < N * 2 ^ 39, ∀ x ∈ s.tablesTo A pageSizes none a,
      ∃ b < N * 2 ^ 39, x ∈ s.tablesTo A pageSizes none b ∧ s.pages A N b ≠ none) := by
  have hway : ∀ {T}, Sound A D N kernel s T → ∀ a < N * 2 ^ 39, ∀ x,
      x ∈ s.tablesTo A pageSizes none a ↔
        x ∈ spots pageSizes N T ∧ x.start ≤ a ∧ a < x.start + 2 ^ x.log2 := by
    intro T hs a ha x
    have heq : s.tablesTo A pageSizes none a = way pageSizes T a :=
      (walk_eq levels_pageSizes hs.holds.repr ha).2
    rw [heq]
    exact mem_way_iff levels_pageSizes ha
  obtain ⟨⟨T, hs⟩, -⟩ := sound_of_run hN h
  refine ⟨fun i => ?_, fun a ha b hb x hx y hy hxy => ?_, fun ht a ha x hx => ?_⟩
  · rw [hs.taken, mem_names_iff]
    constructor
    · rintro ⟨x, hx, rfl⟩
      have hlt := (mem_way_start levels_pageSizes hx).1
      exact ⟨x.start, hlt, x, (hway hs _ hlt x).mpr ⟨hx, le_rfl, by
        have := Nat.two_pow_pos x.log2; omega⟩, rfl⟩
    · rintro ⟨a, ha, x, hx, rfl⟩
      exact ⟨x, ((hway hs a ha x).mp hx).1, rfl⟩
  · exact List.inj_on_of_nodup_map hs.holds.nodup ((hway hs a ha x).mp hx).1
      ((hway hs b hb y).mp hy).1 hxy
  · obtain ⟨T', hs', hf⟩ := filled_of_run hN h ht
    obtain ⟨hspot, -⟩ := (hway hs' a ha x).mp hx
    obtain ⟨b, y, hb₁, hb₂, hy⟩ := hs'.holds.repr.exists_look_of_spot levels_pageSizes hf hspot
    obtain ⟨k, hk, hslot⟩ := mem_spots.mp hspot
    have hin := (slotSpots_within levels_pageSizes hslot).2
    have hle := Nat.mul_le_mul_right (2 ^ 39) hk
    rw [Nat.succ_mul] at hle
    refine ⟨b, by omega, (hway hs' b (by omega) x).mpr ⟨hspot, hb₁, hb₂⟩, ?_⟩
    rw [hs'.pages_eq, if_pos (by omega)]
    exact Option.ne_none_iff_exists'.mpr ⟨y, hy⟩

/-! ## Results -/

/-- The pages of a request map its addresses one by one. -/
theorem translate_of_look (req : Request) {M : PageMap} {a : Nat} (hM : M a = look pageSizes T a)
    (h : look pageSizes T a = some (pageFor pageSizes req a)) :
    M.translate a = some (req.addr + (a - req.start), req.attr) := by
  rw [PageMap.translate, hM, h, Option.map_some]
  rcases pageFor_cases pageSizes req a with hp | ⟨p, -, hfit, hp⟩
  · have hlog := log2_of_look h
    rw [hp] at hlog
    exact absurd hlog (by dsimp only; decide)
  · have h₁ := hfit.from_start
    have h₂ := clearLow_le (a := a) (n := p)
    rw [hp]
    dsimp only
    congr 2
    omega

/-- If no call failed for other reasons than a page in the way, an aligned
range can be mapped exactly if no page is in the way and there are tables
for it. Then its addresses are mapped to physical ones one by one. -/
theorem insert_result (hN : N ≤ 512) (h : Run (Init D N kernel) (Trans A D N) hist s)
    (ht : Tidy hist) {vo addr size : Nat} {flags : PageFlags}
    (hc : s.Allowed N (.insert vo addr size flags))
    (hal : Request.Aligned ⟨vo, size, addr, flags.attr⟩) :
    ∃ r s', s.call A D (.insert vo addr size flags) = .ok (r, s') ∧
      (r = .ok () ∧ (∀ a, vo ≤ a → a < vo + size →
          (s.pages A N a = none ∨
            s.pages A N a = some (pageFor pageSizes ⟨vo, size, addr, flags.attr⟩ a)) ∧
          (s'.pages A N).translate a = some (addr + (a - vo), flags.attr)) ∨
        r = .error .doubleInsertion ∧ (∃ a x, vo ≤ a ∧ a < vo + size ∧ s.pages A N a = some x ∧
          x ≠ pageFor pageSizes ⟨vo, size, addr, flags.attr⟩ a) ∨
        r = .error .outOfTables ∧ ∃ m e, D.take m = (.error e, s'.alloc)) := by
  obtain ⟨T, hs, hf⟩ := filled_of_run hN h ht
  obtain ⟨r, s', T', hr, h', hins⟩ := hs.insert hN hc
  have hstop := hc.1
  refine ⟨r, s', hr, ?_⟩
  cases r with
  | ok u =>
    refine .inl ⟨rfl, fun a hv ha => ?_⟩
    obtain ⟨m, -, hadds, hm⟩ := hins.adds
    have hm := hm rfl
    obtain ⟨h₁, h₂⟩ := hadds.inside a hv (by omega)
    rw [hs.pages_eq, if_pos (by omega)]
    exact ⟨h₂, translate_of_look ⟨vo, size, addr, flags.attr⟩
      (by rw [h'.pages_eq, if_pos (by omega)]) h₁⟩
  | error e =>
    cases e with
    | invalidRange => exact absurd hal (hins.invalid rfl)
    | doubleInsertion =>
      rcases hins.double rfl with ⟨a, x, hv, ha, hx, hne⟩ | ⟨hn, -⟩
      · refine .inr (.inl ⟨rfl, a, x, hv, ha, ?_, hne⟩)
        rw [hs.pages_eq, if_pos (by omega), hx]
      · exact absurd hf hn
    | outOfTables => exact .inr (.inr ⟨rfl, hins.out rfl⟩)

/-! ## An executed run -/

instance (N : Nat) (s : PageTables n μ) : DecidablePred (s.Allowed N)
  | .insert .. => inferInstanceAs (Decidable (_ ∧ _))
  | .remove .. => inferInstanceAs (Decidable (_ ≤ _))
  | .mmu .. => inferInstanceAs (Decidable (_ ∧ _))

/-- An array of eight tables at one megabyte. -/
def eightTables : TableArray 8 := ⟨0x100000, by decide, by decide⟩

/-- A page table with an entry of the kernel. -/
def newPageTable : PageTables 8 (Finset (Fin 8)) :=
  ⟨fun t j => if t = none ∧ j = 511 then 0x3007 else 0, ∅⟩

def kernelEntry (j : Nat) : Nat := if j = 511 then 0x3007 else 0

theorem init_newPageTable : Init (stock 8) 511 kernelEntry newPageTable := by
  refine ⟨fun j hj => if_neg fun h => ?_, fun j hj => ?_, rfl⟩
  · omega
  · simp [newPageTable, kernelEntry]

theorem exists_page_run (calls : List (Call 8))
    {p : History 8 (Finset (Fin 8)) × PageTables 8 (Finset (Fin 8)) → Prop} [DecidablePred p]
    (h : (replay (attempt (Allowed 511) (call eightTables (stock 8))) calls ([], newPageTable)).any
      (fun r => decide (p r)) = true) :
    ∃ hist s, Run (Init (stock 8) 511 kernelEntry) (Trans eightTables (stock 8) 511) hist s ∧
      p (hist, s) :=
  exists_called_run init_newPageTable calls h

instance (hist : History n μ) : Decidable (Tidy hist) :=
  inferInstanceAs (Decidable (∀ e ∈ hist, _))

def readOnly : PageFlags := ⟨false, false, false, false, false, .cached⟩

def readWrite : PageFlags := ⟨true, false, false, false, false, .cached⟩

/-- A range that needs pages of two sizes. The MMU sets flags in the large
one, another page is refused, and a removal takes the large one as a whole. -/
def someCalls : List (Call 8) :=
  [.insert 0x1ff000 0x3ff000 0x202000 readWrite,
    .mmu (some 1) 1 (pageEntry 21 readWrite 0x400000 ||| 0x60),
    .insert 0x400000 0x700000 0x1000 readOnly, .insert 0x401000 0x700000 0x2000 readOnly,
    .insert 0x8000000000 0x700000 0x1000 readOnly, .remove 0x3ff000 0x1000]

theorem refines_map_two_sizes :
    ∃ (hist : History 8 (Finset (Fin 8))) (s : PageTables 8 (Finset (Fin 8))),
      hist.map (·.2.2) = [.ok (), .ok (), .ok (), .error .doubleInsertion, .ok (), .ok ()] ∧
      s.pages eightTables 511 0x1fffff = some ⟨0x1ff000, 12, 0x3ff000, readWrite.attr⟩ ∧
      s.pages eightTables 511 0x200000 = none ∧
      s.pages eightTables 511 0x402abc = some ⟨0x402000, 12, 0x701000, readOnly.attr⟩ ∧
      Run (· = fun _ => none) PageMap.Step
        (hist.map fun e => (e.1.pages eightTables 511, e.2)) (s.pages eightTables 511) := by
  obtain ⟨hist, s, h, hp⟩ := exists_page_run someCalls
    (p := fun r => r.1.map (·.2.2) = [.ok (), .ok (), .ok (), .error .doubleInsertion, .ok (), .ok ()] ∧
      r.2.pages eightTables 511 0x1fffff = some ⟨0x1ff000, 12, 0x3ff000, readWrite.attr⟩ ∧
      r.2.pages eightTables 511 0x200000 = none ∧
      r.2.pages eightTables 511 0x402abc = some ⟨0x402000, 12, 0x701000, readOnly.attr⟩)
    (by decide +kernel)
  exact ⟨hist, s, hp.1, hp.2.1, hp.2.2.1, hp.2.2.2, (refines_map (by decide) h).1⟩

/-- The same calls, and the removal of all that was mapped. -/
theorem tables_exact_none :
    ∃ (hist : History 8 (Finset (Fin 8))) (s : PageTables 8 (Finset (Fin 8))),
      hist.length = 8 ∧ s.alloc = ∅ ∧
      (∀ a < 511 * 2 ^ 39, ∀ x ∈ s.tablesTo eightTables pageSizes none a,
        ∃ b < 511 * 2 ^ 39, x ∈ s.tablesTo eightTables pageSizes none b ∧
          s.pages eightTables 511 b ≠ none) ∧
      ∀ i, i ∈ s.alloc ↔ ∃ a < 511 * 2 ^ 39, ∃ x ∈ s.tablesTo eightTables pageSizes none a, x.name = i := by
  obtain ⟨hist, s, h, ht, hlen, halloc⟩ := exists_page_run
    (someCalls ++ [.remove 0x1ff000 0x204000, .remove 0x8000000000 0x1000])
    (p := fun r => Tidy r.1 ∧ r.1.length = 8 ∧ r.2.alloc = ∅) (by decide +kernel)
  obtain ⟨h₁, -, h₃⟩ := tables_exact (by decide) h
  exact ⟨hist, s, hlen, halloc, h₃ ht, h₁⟩

/-- The first page of all is mapped after these calls. -/
theorem insert_result_first :
    ∃ (hist : History 8 (Finset (Fin 8))) (s : PageTables 8 (Finset (Fin 8))),
      hist.length = 6 ∧ ∃ r s', s.call eightTables (stock 8) (.insert 0 0 0x1000 readOnly) = .ok (r, s') ∧
      (r = .ok () ∧ (∀ a, 0 ≤ a → a < 0 + 0x1000 →
          (s.pages eightTables 511 a = none ∨
            s.pages eightTables 511 a = some (pageFor pageSizes ⟨0, 0x1000, 0, readOnly.attr⟩ a)) ∧
          (s'.pages eightTables 511).translate a = some (0 + (a - 0), readOnly.attr)) ∨
        r = .error .doubleInsertion ∧ (∃ a x, 0 ≤ a ∧ a < 0 + 0x1000 ∧
          s.pages eightTables 511 a = some x ∧ x ≠ pageFor pageSizes ⟨0, 0x1000, 0, readOnly.attr⟩ a) ∨
        r = .error .outOfTables ∧ ∃ m e, (stock 8).take m = (.error e, s'.alloc)) := by
  obtain ⟨hist, s, h, ht, hlen⟩ := exists_page_run someCalls
    (p := fun r => Tidy r.1 ∧ r.1.length = 6) (by decide +kernel)
  exact ⟨hist, s, hlen, insert_result (by decide) h ht ⟨by decide, by decide⟩
    ⟨by decide, by decide, by decide⟩⟩

end PageTables

end Genode.Hw
