import Genode.Hw.PageLevels

/-!
# PageInsert — inserting translations

An insertion maps a range of addresses page by page, with the largest pages
that fit, and creates the tables that it needs for them. It stops at the
first page that it cannot map; what it has mapped by then stays. Nothing
else changes, neither in the tree nor in memory.
-/

namespace Genode.Hw

open Lib Util
open Base (Md)
open CommonDescriptor (present clearMmuFlags)
open BaseDescriptor (mapsPage)

variable {n : Nat} {μ : Type} {A : TableArray n} {D : Md (Fin n) μ}

/-- From `v` on, `m` addresses of a request are mapped that had no page, or
just this one. -/
structure Adds {ι : Type} (ps : List Nat) (req : Request) (v m : Nat) (T T' : Tree ι) : Prop where
  inside : ∀ a, v ≤ a → a < v + m → look ps T' a = some (pageFor ps req a) ∧
    (look ps T a = none ∨ look ps T a = some (pageFor ps req a))
  outside : ∀ a, ¬ (v ≤ a ∧ a < v + m) → look ps T' a = look ps T a

/-- Another page is in the way of a request. -/
def Conflict {ι : Type} (ps : List Nat) (req : Request) (v sz : Nat) (T : Tree ι) : Prop :=
  ∃ a x, v ≤ a ∧ a < v + sz ∧ look ps T a = some x ∧ x ≠ pageFor ps req a

/-- A large page fits into a part of a request. -/
def Request.Large (req : Request) (ps : List Nat) (v sz : Nat) : Prop :=
  ∃ p ∈ ps, p ≠ 12 ∧ ∃ a, v ≤ a ∧ a < v + sz ∧ req.Fits p a

/-- What an insertion of the part of a request from `v` on does to a table
and the tables below. -/
structure Inserted (A : TableArray n) (D : Md (Fin n) μ) (ps : List Nat) (N : Nat)
    (t : Option (Fin n)) (req : Request) (v sz : Nat) (s : PageTables n μ) (T : Tree (Fin n))
    (r : Except TableError Unit) (s' : PageTables n μ) (T' : Tree (Fin n)) : Prop where
  holds : Holds A D s' ps N t T'
  grows : ∀ x ∈ spots ps N T, x ∈ spots ps N T'
  new : ∀ x ∈ spots ps N T', x ∈ spots ps N T ∨
    x.start < v + sz ∧ v < x.start + 2 ^ x.log2 ∧ x.name ∉ D.taken s.alloc
  taken : ∀ i, i ∈ D.taken s'.alloc ↔ i ∈ D.taken s.alloc ∨ i ∈ names ps N T'
  frame : ∀ q, q ≠ t → (∀ i, q = some i → i ∈ D.taken s.alloc ∧ i ∉ names ps N T) →
    s'.entries q = s.entries q
  others : ∀ j, N ≤ j → s'.entries t j = s.entries t j
  kept : ∀ j, T j ≠ .empty → T' j ≠ .empty
  adds : ∃ m ≤ sz, Adds ps req v m T T' ∧ (r = .ok () → m = sz)
  filled : r = .ok () ∨ r = .error .doubleInsertion → Filled ps N T → Filled ps N T'
  invalid : r = .error .invalidRange → ¬ req.Aligned
  double : r = .error .doubleInsertion →
    Conflict ps req v sz T ∨ ¬ Filled ps N T ∧ req.Large ps v sz
  out : r = .error .outOfTables → ∃ m e, D.take m = (.error e, s'.alloc)

section Compose

variable {ps : List Nat} {N : Nat} {t : Option (Fin n)} {req : Request} {v k sz : Nat}
  {s s₁ s₂ : PageTables n μ} {T T₁ T₂ : Tree (Fin n)} {r : Except TableError Unit}

theorem Adds.none {ι : Type} (req : Request) (v : Nat) (T : Tree ι) : Adds ps req v 0 T T :=
  ⟨fun a h₁ h₂ => absurd h₁ (by omega), fun a _ => rfl⟩

theorem Adds.trans {ι : Type} {T T₁ T₂ : Tree ι} {m : Nat} (h₁ : Adds ps req v k T T₁)
    (h₂ : Adds ps req (v + k) m T₁ T₂) : Adds ps req v (k + m) T T₂ := by
  refine ⟨fun a hv ha => ?_, fun a ha => ?_⟩
  · by_cases hk : a < v + k
    · rw [h₂.outside a (by omega)]
      exact h₁.inside a hv hk
    · rw [← h₁.outside a (by omega)]
      exact h₂.inside a (by omega) (by omega)
  · rw [h₂.outside a (by omega), h₁.outside a (by omega)]

theorem mem_names_iff {ι : Type} {T : Tree ι} {i : ι} :
    i ∈ names ps N T ↔ ∃ x ∈ spots ps N T, x.name = i := by
  rw [names, List.mem_map]

/-- Nothing is inserted. -/
theorem Inserted.none (h : Holds A D s ps N t T) (hok : r = .ok () → sz = 0)
    (hinv : r = .error .invalidRange → ¬ req.Aligned)
    (hdouble : r = .error .doubleInsertion →
      Conflict ps req v sz T ∨ ¬ Filled ps N T ∧ req.Large ps v sz)
    (hout : r = .error .outOfTables → ∃ m e, D.take m = (.error e, s.alloc)) :
    Inserted A D ps N t req v sz s T r s T :=
  ⟨h, fun _ hx => hx, fun _ hx => .inl hx, fun i => ⟨.inl, fun hi => hi.elim id (h.taken i)⟩,
    fun _ _ _ => rfl, fun _ _ => rfl, fun _ hj => hj,
    ⟨0, Nat.zero_le _, .none req v T, fun hr => (hok hr).symm⟩, fun _ hf => hf, hinv, hdouble, hout⟩

/-- The tables that an insertion adds were not in use. -/
theorem Inserted.mem_names (h : Inserted A D ps N t req v sz s T r s₁ T₁) {i : Fin n}
    (hi : i ∈ names ps N T₁) : i ∈ names ps N T ∨ i ∉ D.taken s.alloc := by
  obtain ⟨x, hx, rfl⟩ := mem_names_iff.mp hi
  rcases h.new x hx with hx | ⟨-, -, hx⟩
  · exact .inl (mem_names_iff.mpr ⟨x, hx, rfl⟩)
  · exact .inr hx

/-- One part after the other. -/
theorem Inserted.trans (h₁ : Inserted A D ps N t req v k s T (.ok ()) s₁ T₁)
    (h₂ : Inserted A D ps N t req (v + k) sz s₁ T₁ r s₂ T₂) :
    Inserted A D ps N t req v (k + sz) s T r s₂ T₂ := by
  obtain ⟨m₁, -, hadds₁, hm₁⟩ := h₁.adds
  obtain rfl := hm₁ rfl
  obtain ⟨m₂, hle₂, hadds₂, hm₂⟩ := h₂.adds
  refine ⟨h₂.holds, fun x hx => h₂.grows x (h₁.grows x hx), fun x hx => ?_, fun i => ?_,
    fun q hq hi => ?_, fun j hj => (h₂.others j hj).trans (h₁.others j hj),
    fun j hj => h₂.kept j (h₁.kept j hj),
    ⟨m₁ + m₂, by omega, hadds₁.trans hadds₂, fun hr => by rw [hm₂ hr]⟩,
    fun hr hf => h₂.filled hr (h₁.filled (.inl rfl) hf), h₂.invalid, fun hr => ?_, h₂.out⟩
  · rcases h₂.new x hx with hx | ⟨hx₁, hx₂, hx₃⟩
    · rcases h₁.new x hx with hx | ⟨hx₁, hx₂, hx₃⟩
      · exact .inl hx
      · exact .inr ⟨by omega, hx₂, hx₃⟩
    · exact .inr ⟨by omega, by omega, fun hi => hx₃ ((h₁.taken _).mpr (.inl hi))⟩
  · rw [h₂.taken, h₁.taken]
    constructor
    · rintro ((hi | hi) | hi)
      · exact .inl hi
      · obtain ⟨x, hx, rfl⟩ := mem_names_iff.mp hi
        exact .inr (mem_names_iff.mpr ⟨x, h₂.grows x hx, rfl⟩)
      · exact .inr hi
    · rintro (hi | hi)
      · exact .inl (.inl hi)
      · exact .inr hi
  · rw [h₂.frame q hq fun i hqi => ⟨(h₁.taken i).mpr (.inl (hi i hqi).1), fun hn => ?_⟩,
      h₁.frame q hq hi]
    rcases h₁.mem_names hn with hn | hn
    · exact (hi i hqi).2 hn
    · exact hn (hi i hqi).1
  · rcases h₂.double hr with ⟨a, x, hv, ha, hx, hne⟩ | ⟨hf, q, hq, h12, a, hv, ha, hfit⟩
    · exact .inl ⟨a, x, by omega, by omega, by rwa [← hadds₁.outside a (by omega)], hne⟩
    · exact .inr ⟨fun hf' => hf (h₁.filled (.inl rfl) hf'), q, hq, h12, a, by omega, by omega, hfit⟩

end Compose

/-! ## A page -/

section Page

variable {p : Nat} {ps : List Nat} {N : Nat} {t : Option (Fin n)} {req : Request} {v sz : Nat}
  {s : PageTables n μ} {T : Tree (Fin n)}

@[simp] theorem setEntry_alloc (s : PageTables n μ) (t : Option (Fin n)) (j w : Nat) :
    (s.setEntry t j w).alloc = s.alloc := rfl

theorem setEntry_self (s : PageTables n μ) (t : Option (Fin n)) (j w : Nat) :
    (s.setEntry t j w).entries t j = w := by
  simp [PageTables.setEntry]

theorem setEntry_of_ne (s : PageTables n μ) (t : Option (Fin n)) {j k : Nat} (w : Nat)
    (h : k ≠ j) : (s.setEntry t j w).entries t k = s.entries t k := by
  simp [PageTables.setEntry, h]

theorem setEntry_other (s : PageTables n μ) {t q : Option (Fin n)} (j w : Nat) (h : q ≠ t) :
    (s.setEntry t j w).entries q = s.entries q := by
  simp [PageTables.setEntry, h]

/-- An entry without tables is written. -/
theorem Holds.setEntry (h : Holds A D s (p :: ps) N t T) {j : Nat} {S : Slot (Fin n)} {w : Nat}
    (hS : SlotRepr A p (fun t T => Repr A (s.setEntry t j w) ps 512 t T) w S)
    (hnames : slotNames ps S = []) :
    Holds A D (s.setEntry t j w) (p :: ps) N t (Function.update T j S) := by
  have hne : ∀ i, i ∈ names (p :: ps) N T → some i ≠ t := fun i hi he => h.self i he.symm hi
  refine h.update ?_ (fun k _ hkj => setEntry_of_ne s t w hkj) (fun k hk _ i hi => ?_)
    (by rw [hnames]; exact List.nodup_nil) (by simp [hnames]) h.own (by simp [hnames])
  · rw [setEntry_self]
    cases S with
    | empty => exact hS
    | page x => exact hS
    | table i sub => exact ⟨hS.1, hS.2.1, by rw [slotNames] at hnames; cases hnames⟩
  · have hmem : i ∈ names (p :: ps) N T := mem_names.mpr ⟨k, hk, hi⟩
    exact ⟨setEntry_other s j w (hne i hmem), h.taken i hmem, by simp [hnames]⟩

/-- What is known of a part that is a page. -/
structure WholePage (req : Request) (p v sz : Nat) : Prop where
  start : clearLow v p = v
  size : sz = 2 ^ p
  block : v / 2 ^ p * 2 ^ p = v
  aligned : Aligned p (req.addr + (v - req.start))

theorem Request.Part.wholePage (hpart : req.Part p v sz) (hfit : req.Fits p v)
    (haddr : req.addr + req.size ≤ 2 ^ 48) : WholePage req p v sz := by
  have h₁ := hfit.from_start
  have h₂ := hfit.to_stop
  have h₃ := hpart.first
  have h₄ := hpart.last
  have h₅ := hpart.within
  have h₆ := hpart.to_stop
  have h₇ := hpart.pos
  have h₈ := hpart.from_start
  have hle := clearLow_le (a := v) (n := p)
  have hv : clearLow v p = v := by omega
  exact ⟨hv, by omega, by rw [← Hw.clearLow_eq, hv], hv ▸ hfit.dvd, by omega⟩

/-- The page that a request maps at an address of a page that fits. -/
theorem Request.Part.pageFor_eq (hpart : req.Part p v sz) (hfit : req.Fits p v)
    (hw : WholePage req p v sz) {a : Nat} (hv : v ≤ a) (ha : a < v + sz) :
    pageFor (p :: ps) req a = ⟨v, p, req.addr + (v - req.start), req.attr⟩ := by
  have hcl := hpart.clearLow_eq hv ha
  have hfit' : req.Fits p a := by
    rw [Request.fits_iff] at hfit ⊢
    rwa [hcl]
  rw [pageFor, if_pos hfit', hcl, hw.start]

theorem mem_spots_page {j : Nat} (hj : j < N) (hT : slotSpots p (spots ps 512) j (T j) = [])
    {y : Frame} {x : Spot (Fin n)} :
    x ∈ spots (p :: ps) N (Function.update T j (.page y)) ↔ x ∈ spots (p :: ps) N T := by
  rw [mem_spots_update hj, mem_spots]
  constructor
  · rintro (hx | ⟨k, hk, -, hx⟩)
    · cases hx
    · exact ⟨k, hk, hx⟩
  · rintro ⟨k, hk, hx⟩
    refine .inr ⟨k, hk, fun hkj => ?_, hx⟩
    rw [hkj, hT] at hx
    cases hx

/-- The page is all that is added. -/
theorem Request.Part.adds_page (hpart : req.Part p v sz) (hfit : req.Fits p v)
    (hw : WholePage req p v sz) {y : Frame} (hy : ⟨req.addr + (v - req.start), req.attr⟩ = y)
    (hold : T (v / 2 ^ p) = .empty ∨ T (v / 2 ^ p) = .page y) :
    Adds (p :: ps) req v sz T (Function.update T (v / 2 ^ p) (.page y)) := by
  refine ⟨fun a hva ha => ?_, fun a ha => ?_⟩
  · have hb := hpart.block hva ha
    have hcl : clearLow a p = v := (hpart.clearLow_eq hva ha).trans hw.start
    rw [look_page (x := y) (by rw [hb, Function.update_self]), hpart.pageFor_eq hfit hw hva ha, hcl,
      ← hy]
    refine ⟨rfl, hold.imp (fun he => look_empty (by rw [hb, he])) fun he => ?_⟩
    rw [look_page (x := y) (by rw [hb, he]), hcl, ← hy]
  · refine look_update_of_ne fun he => ha ?_
    have h₁ := Hw.clearLow_eq a p
    have h₂ := clearLow_le (a := a) (n := p)
    have h₃ := lt_clearLow_add (a := a) (n := p)
    rw [he, hw.block] at h₁
    have := hw.size
    omega

/-- An entry without tables becomes a page of the request. -/
theorem setPage_inserted (hl : Levels (p :: ps)) (h : Holds A D s (p :: ps) N t T)
    (hpart : req.Part p v sz) (hfit : req.Fits p v) (hw : WholePage req p v sz)
    (hj : v / 2 ^ p < N) {flags : PageFlags} (hflags : flags.attr = req.attr)
    (hold : T (v / 2 ^ p) = .empty ∨
      T (v / 2 ^ p) = .page ⟨req.addr + (v - req.start), req.attr⟩) :
    Inserted A D (p :: ps) N t req v sz s T (.ok ())
      (s.setEntry t (v / 2 ^ p) (pageEntry p flags (req.addr + (v - req.start))))
      (Function.update T (v / 2 ^ p) (.page ⟨req.addr + (v - req.start), req.attr⟩)) := by
  generalize hy : (⟨req.addr + (v - req.start), req.attr⟩ : Frame) = y at hold ⊢
  have hspots : slotSpots p (spots ps 512) (v / 2 ^ p) (T (v / 2 ^ p)) = [] := by
    rcases hold with h | h <;> rw [h] <;> rfl
  have hholds : Holds A D (s.setEntry t (v / 2 ^ p) (pageEntry p flags (req.addr + (v - req.start))))
      (p :: ps) N t (Function.update T (v / 2 ^ p) (.page y)) := by
    subst hy
    exact h.setEntry ⟨hfit.le, hw.aligned, flags, hflags,
      clearMmuFlags_pageEntry hw.aligned hl.le.1 (by have := hl.le; omega) flags⟩ rfl
  have hmem : ∀ x, x ∈ spots (p :: ps) N (Function.update T (v / 2 ^ p) (.page y)) ↔
      x ∈ spots (p :: ps) N T := fun x => mem_spots_page hj hspots
  have hadds : Adds (p :: ps) req v sz T (Function.update T (v / 2 ^ p) (.page y)) :=
    hpart.adds_page hfit hw hy hold
  refine ⟨hholds, fun x => (hmem x).mpr, fun x hx => .inl ((hmem x).mp hx), fun i => ?_,
    fun q hq _ => setEntry_other s _ _ hq, fun k hk => setEntry_of_ne s t _ (by omega),
    fun k hk => ?_, ⟨sz, le_rfl, hadds, fun _ => rfl⟩, fun _ hf => hf.update (by rintro i sub ⟨⟩),
    fun hr => (by cases hr), fun hr => (by cases hr), fun hr => (by cases hr)⟩
  · have hnames : i ∈ names (p :: ps) N (Function.update T (v / 2 ^ p) (.page y)) ↔
        i ∈ names (p :: ps) N T := by
      rw [mem_names_iff, mem_names_iff]
      simp only [hmem]
    rw [setEntry_alloc, hnames]
    exact ⟨.inl, fun hi => hi.elim id (h.taken i)⟩
  · by_cases hkj : k = v / 2 ^ p
    · rw [hkj, Function.update_self]
      simp
    · rwa [Function.update_of_ne hkj]

/-- `Insert_func` maps a page that fits. -/
theorem mapPage_inserted (hl : Levels (p :: ps)) (h : Holds A D s (p :: ps) N t T)
    (hpart : req.Part p v sz) (hfit : req.Fits p v) (hj : v / 2 ^ p < N)
    (haddr : req.addr + req.size ≤ 2 ^ 48) {flags : PageFlags} (hflags : flags.attr = req.attr) :
    ∃ r s' T', mapPage (pageEntry p flags (req.addr + (v - req.start))) t (v / 2 ^ p) s =
        .ok (r, s') ∧
      Inserted A D (p :: ps) N t req v sz s T r s' T' := by
  have hw := hpart.wholePage hfit haddr
  have hpos := hpart.pos
  have hslot := h.repr (v / 2 ^ p) hj
  have hpr := hslot.present_iff hl
  have hwrite := setPage_inserted hl h hpart hfit hw hj hflags
  have hfail : Conflict (p :: ps) req v sz T ∨ ¬ Filled (p :: ps) N T ∧ req.Large (p :: ps) v sz →
      Inserted A D (p :: ps) N t req v sz s T (.error .doubleInsertion) s T := fun hd =>
    .none h (fun hr => (by cases hr)) (fun hr => (by cases hr)) (fun _ => hd) fun hr => (by cases hr)
  unfold mapPage
  cases hT : T (v / 2 ^ p) with
  | empty =>
    rw [hT] at hpr
    rw [if_neg fun hc => hpr.mp hc.1 rfl]
    exact ⟨_, _, _, rfl, hwrite (.inl hT)⟩
  | page x =>
    rw [hT] at hslot
    have heq := hslot.page_eq_iff hl (y := ⟨req.addr + (v - req.start), req.attr⟩) hw.aligned hflags
    by_cases hxy : x = ⟨req.addr + (v - req.start), req.attr⟩
    · rw [if_neg fun hc => hc.2 (heq.mpr hxy)]
      exact ⟨_, _, _, rfl, hwrite (.inr (hxy ▸ hT))⟩
    · rw [if_pos ⟨hpr.mpr (by simp [hT]), fun hc => hxy (heq.mp hc)⟩]
      refine ⟨_, _, _, rfl, hfail (.inl ⟨v, _, le_rfl, by omega, look_page hT, ?_⟩)⟩
      rw [hpart.pageFor_eq hfit hw le_rfl (by omega)]
      simp [hxy]
  | table i sub =>
    rw [hT] at hslot
    have hne : clearMmuFlags (s.entries t (v / 2 ^ p)) ≠
        pageEntry p flags (req.addr + (v - req.start)) := by
      intro hc
      have hmaps : Maps p (s.entries t (v / 2 ^ p)) ⟨req.addr + (v - req.start), req.attr⟩ :=
        ⟨flags, hflags, hc⟩
      have h₁ := hmaps.mapsPage hl.le.1 (by have := hl.le; omega) hw.aligned hslot.1
      rw [hslot.2.1.not_mapsPage] at h₁
      cases h₁
    rw [if_pos ⟨hpr.mpr (by simp [hT]), hne⟩]
    refine ⟨_, _, _, rfl, hfail ?_⟩
    by_cases hf : Filled (p :: ps) N T
    · obtain ⟨a, x, ha, hx⟩ := Repr.exists_look hl h.repr hf hj (by simp [hT])
      have hcl : clearLow a p = v := by rw [clearLow_eq, ha, hw.block]
      have h₁ := clearLow_le (a := a) (n := p)
      have h₂ := lt_clearLow_add (a := a) (n := p)
      have hsz := hw.size
      refine .inl ⟨a, x, by omega, by omega, hx, ?_⟩
      rw [hpart.pageFor_eq hfit hw (by omega) (by omega)]
      rw [look_table (by rw [ha, hT])] at hx
      obtain ⟨x', hx', rfl⟩ := Option.map_eq_some_iff.mp hx
      have := hl.lt _ (log2_of_look hx')
      intro hc
      have : x'.log2 = p := congrArg Page.log2 hc
      omega
    · exact .inr ⟨hf, p, List.mem_cons_self .., hslot.1, v, le_rfl, by omega, hfit⟩

end Page

/-! ## A table of the next level -/

/-- The entry `j` refers to the table `i` with the tree `sub`. The table is
new if there was none. -/
structure Linked (A : TableArray n) (D : Md (Fin n) μ) (p : Nat) (ps : List Nat) (N : Nat)
    (t : Option (Fin n)) (j : Nat) (s : PageTables n μ) (T : Tree (Fin n)) (i : Fin n)
    (sub : Tree (Fin n)) (s₁ : PageTables n μ) : Prop where
  holds : Holds A D s₁ (p :: ps) N t (Function.update T j (.table i sub))
  taken : ∀ k, k ∈ D.taken s₁.alloc ↔ k ∈ D.taken s.alloc ∨ k = i
  frame : ∀ q, q ≠ t → q ≠ some i → s₁.entries q = s.entries q
  root : ∀ k, k ≠ j → s₁.entries t k = s.entries t k
  slot : T j = .table i sub ∨ T j = .empty ∧ sub = bare ∧ i ∉ D.taken s.alloc

section Linked

variable {p q : Nat} {ps : List Nat} {N : Nat} {t : Option (Fin n)} {req : Request} {j v sz : Nat}
  {s s₁ s' : PageTables n μ} {T sub sub' : Tree (Fin n)} {i : Fin n} {r : Except TableError Unit}

/-- The table is there already. -/
theorem Holds.linked (h : Holds A D s (p :: ps) N t T) (hj : j < N)
    (hT : T j = .table i sub) : Linked A D p ps N t j s T i sub s := by
  have hi : i ∈ D.taken s.alloc := h.taken i (mem_names.mpr ⟨j, hj, hT ▸ List.mem_cons_self ..⟩)
  refine ⟨?_, fun k => ⟨.inl, fun hk => hk.elim id fun hk => hk ▸ hi⟩, fun _ _ _ => rfl,
    fun _ _ => rfl, .inl hT⟩
  rwa [← hT, Function.update_eq_self]

namespace Linked

theorem ne (h : Linked A D p ps N t j s T i sub s₁) (hj : j < N) : t ≠ some i := fun ht =>
  h.holds.self i ht ((mem_names_update hj).mpr (.inl (List.mem_cons_self ..)))

/-- The tables of other entries are not concerned. -/
theorem other (h : Linked A D p ps N t j s T i sub s₁) (hj : j < N) {k : Nat} (hk : k < N)
    (hkj : k ≠ j) {x : Fin n} (hx : x ∈ slotNames ps (T k)) :
    x ∈ D.taken s₁.alloc ∧ x ≠ i ∧ x ∉ names ps 512 sub := by
  have hx' : x ∈ names (p :: ps) N (Function.update T j (.table i sub)) :=
    (mem_names_update hj).mpr (.inr ⟨k, hk, hkj, hx⟩)
  have hne := (nodup_names.mp h.holds.nodup).2 k hk j hj hkj x (by rwa [Function.update_of_ne hkj])
  rw [Function.update_self, slotNames, List.mem_cons, not_or] at hne
  exact ⟨h.holds.taken x hx', hne⟩

/-- What was mapped before. -/
theorem look_eq (h : Linked A D p ps N t j s T i sub s₁) {a : Nat} (ha : a / 2 ^ p = j) :
    look (p :: ps) T a = (look ps sub (a % 2 ^ p)).map fun x => x.moved (clearLow a p) := by
  rcases h.slot with hT | ⟨hT, rfl, -⟩
  · exact look_table (ha ▸ hT)
  · rw [look_empty (ha ▸ hT), look_bare, Option.map_none]

/-- The tables below were there before. -/
theorem mem_old (h : Linked A D p ps N t j s T i sub s₁) (hj : j < N) {x : Fin n}
    (hx : x ∈ names ps 512 sub) : x ∈ names (p :: ps) N T := by
  rcases h.slot with hT | ⟨hT, rfl, -⟩
  · exact mem_names.mpr ⟨j, hj, hT ▸ List.mem_cons_of_mem _ hx⟩
  · simp [names_bare] at hx

/-- The root of the tables below stays out of reach of the next level. -/
theorem root_after (h : Linked A D p ps N t j s T i sub s₁) (hj : j < N)
    (hsub : Inserted A D ps 512 (some i) req v sz s₁ sub r s' sub') : s'.entries t = s₁.entries t :=
  hsub.frame t (h.ne hj) fun k hk => ⟨h.holds.own k hk, fun hm => h.holds.self k hk
    ((mem_names_update hj).mpr (.inl (List.mem_cons_of_mem _ hm)))⟩

/-- The way back from the next level, in memory. -/
theorem holds_after (h : Linked A D p ps N t j s T i sub s₁) (hj : j < N)
    (hsub : Inserted A D ps 512 (some i) req v sz s₁ sub r s' sub') :
    Holds A D s' (p :: ps) N t (Function.update T j (.table i sub')) := by
  have hne := h.ne hj
  have hmem : ∀ k ∈ names ps 512 sub, k ∈ names (p :: ps) N (Function.update T j (.table i sub)) :=
    fun k hk => (mem_names_update hj).mpr (.inl (List.mem_cons_of_mem _ hk))
  have hroot := h.root_after hj hsub
  have hslot := h.holds.repr j hj
  rw [Function.update_self] at hslot
  have hold : ∀ x, x ∈ D.taken s₁.alloc → x ∉ names ps 512 sub → x ∉ names ps 512 sub' :=
    fun x hx hn hx' => (hsub.mem_names hx').elim hn fun hno => hno hx
  have hidem : Function.update (Function.update T j (.table i sub)) j (.table i sub') =
      Function.update T j (.table i sub') := Function.update_idem _ _ _
  rw [← hidem]
  refine h.holds.update ?_ (fun k _ _ => by rw [hroot]) (fun k hk hkj x hx => ?_) ?_ (fun k hk => ?_)
    (fun k hk => (hsub.taken k).mpr (.inl (h.holds.own k hk))) fun x hx => ?_
  · rw [hroot]
    exact ⟨hslot.1, hslot.2.1, hsub.holds.repr⟩
  · rw [Function.update_of_ne hkj] at hx
    obtain ⟨h₁, h₂, h₃⟩ := h.other hj hk hkj hx
    refine ⟨hsub.frame (some x) (by simpa using h₂) ?_, (hsub.taken x).mpr (.inl h₁), ?_⟩
    · rintro y ⟨⟩
      exact ⟨h₁, h₃⟩
    · rw [slotNames, List.mem_cons, not_or]
      exact ⟨h₂, hold x h₁ h₃⟩
  · rw [slotNames, List.nodup_cons]
    exact ⟨hsub.holds.self i rfl, hsub.holds.nodup⟩
  · rw [slotNames, List.mem_cons, not_or]
    exact ⟨fun hki => hne (hki ▸ hk),
      hold k (h.holds.own k hk) fun hm => h.holds.self k hk (hmem k hm)⟩
  · rcases List.mem_cons.mp hx with rfl | hx
    · exact hsub.holds.own x rfl
    · exact hsub.holds.taken x hx

/-- The way back from the next level: the pages. -/
theorem adds_after (h : Linked A D p ps N t (v / 2 ^ p) s T i sub s₁) (hpart : req.Part p v sz)
    (hps : ∀ q ∈ ps, q ≤ p) (hno : ∀ a, v ≤ a → a < v + sz → ¬ req.Fits p a) {m : Nat} (hm : m ≤ sz)
    (hadds : Adds ps (req.below p v sz) (v - clearLow v p) m sub sub') :
    Adds (p :: ps) req v m T (Function.update T (v / 2 ^ p) (.table i sub')) := by
  have hvle := clearLow_le (a := v) (n := p)
  refine ⟨fun a hva ha => ?_, fun a ha => ?_⟩
  · have hb := hpart.block hva (by omega)
    have hcl := hpart.clearLow_eq hva (by omega)
    have hmod := clearLow_add_mod (a := a) (n := p)
    obtain ⟨h₁, h₂⟩ := hadds.inside (a % 2 ^ p) (by omega) (by omega)
    rw [look_update_table hb, h₁, Option.map_some,
      h.look_eq hb, hpart.pageFor_below hps hva (by omega), pageFor,
      if_neg (hno a hva (by omega))]
    refine ⟨rfl, h₂.imp (fun he => by rw [he, Option.map_none]) fun he => ?_⟩
    rw [he, Option.map_some, hpart.pageFor_below hps hva (by omega)]
  · by_cases hb : a / 2 ^ p = v / 2 ^ p
    · have hcl : clearLow a p = clearLow v p := by rw [clearLow_eq, clearLow_eq, hb]
      have hmod := clearLow_add_mod (a := a) (n := p)
      rw [look_update_table hb, h.look_eq hb,
        hadds.outside (a % 2 ^ p) (by omega)]
    · exact look_update_of_ne hb

/-- The tables that were there before are still there. -/
theorem grows (h : Linked A D p ps N t j s T i sub s₁) (hj : j < N)
    (hsub : ∀ x ∈ spots ps 512 sub, x ∈ spots ps 512 sub') {x : Spot (Fin n)}
    (hx : x ∈ spots (p :: ps) N T) :
    x ∈ spots (p :: ps) N (Function.update T j (.table i sub')) := by
  rw [mem_spots_update hj, mem_slotSpots_table]
  obtain ⟨k, hk, hx⟩ := mem_spots.mp hx
  by_cases hkj : k = j
  · subst hkj
    rcases h.slot with hT | ⟨hT, -, -⟩
    · rw [hT] at hx
      exact .inl ((mem_slotSpots_table.mp hx).imp_right fun ⟨y, hy, he⟩ => ⟨y, hsub y hy, he⟩)
    · rw [hT] at hx
      cases hx
  · exact .inr ⟨k, hk, hkj, hx⟩

/-- The new tables are for the part that is inserted. -/
theorem new (h : Linked A D p ps N t (v / 2 ^ p) s T i sub s₁) (hj : v / 2 ^ p < N)
    (hpart : req.Part p v sz)
    (hsub : Inserted A D ps 512 (some i) (req.below p v sz) (v - clearLow v p) sz s₁ sub r s' sub')
    {x : Spot (Fin n)}
    (hx : x ∈ spots (p :: ps) N (Function.update T (v / 2 ^ p) (.table i sub'))) :
    x ∈ spots (p :: ps) N T ∨
      x.start < v + sz ∧ v < x.start + 2 ^ x.log2 ∧ x.name ∉ D.taken s.alloc := by
  have hvle := clearLow_le (a := v) (n := p)
  have hvlt := lt_clearLow_add (a := v) (n := p)
  have hpos := hpart.pos
  rw [mem_spots_update hj, mem_slotSpots_table, ← clearLow_eq] at hx
  have hold : ∀ y, T (v / 2 ^ p) = .table i sub → y ∈ slotSpots p (spots ps 512) (v / 2 ^ p)
      (.table i sub) → y ∈ spots (p :: ps) N T := fun y hT hy =>
    mem_spots.mpr ⟨_, hj, hT ▸ hy⟩
  rcases hx with (rfl | ⟨y, hy, rfl⟩) | ⟨k, hk, -, hx⟩
  · rcases h.slot with hT | ⟨-, -, hi⟩
    · exact .inl (hold _ hT (mem_slotSpots_table.mpr (.inl (by rw [clearLow_eq]))))
    · exact .inr ⟨by dsimp only; omega, hvlt, hi⟩
  · rcases hsub.new y hy with hy | ⟨hy₁, hy₂, hy₃⟩
    · rcases h.slot with hT | ⟨-, rfl, -⟩
      · refine .inl (hold _ hT (mem_slotSpots_table.mpr (.inr ⟨y, hy, ?_⟩)))
        rw [clearLow_eq]
      · rw [spots_bare] at hy
        cases hy
    · refine .inr ⟨?_, ?_, fun hi => hy₃ ((h.taken _).mpr (.inl hi))⟩
      · dsimp only [Spot.moved]
        omega
      · dsimp only [Spot.moved]
        omega
  · exact .inl (mem_spots.mpr ⟨k, hk, hx⟩)

theorem taken_after (h : Linked A D p ps N t j s T i sub s₁) (hj : j < N)
    (hsub : Inserted A D ps 512 (some i) req v sz s₁ sub r s' sub') (k : Fin n) :
    k ∈ D.taken s'.alloc ↔
      k ∈ D.taken s.alloc ∨ k ∈ names (p :: ps) N (Function.update T j (.table i sub')) := by
  rw [hsub.taken, h.taken, mem_names_update hj, slotNames, List.mem_cons]
  constructor
  · rintro ((hk | hk) | hk)
    · exact .inl hk
    · exact .inr (.inl (.inl hk))
    · exact .inr (.inl (.inr hk))
  · rintro (hk | (hk | hk) | ⟨l, hl, hlj, hk⟩)
    · exact .inl (.inl hk)
    · exact .inl (.inr hk)
    · exact .inr hk
    · exact .inl ((h.taken k).mp (h.other hj hl hlj hk).1)

theorem frame_after (h : Linked A D p ps N t j s T i sub s₁) (hj : j < N)
    (hsub : Inserted A D ps 512 (some i) req v sz s₁ sub r s' sub') {x : Option (Fin n)}
    (hx : x ≠ t) (hi : ∀ k, x = some k → k ∈ D.taken s.alloc ∧ k ∉ names (p :: ps) N T) :
    s'.entries x = s.entries x := by
  have hxi : x ≠ some i := by
    rintro rfl
    obtain ⟨h₁, h₂⟩ := hi i rfl
    rcases h.slot with hT | ⟨-, -, hfree⟩
    · exact h₂ (mem_names.mpr ⟨j, hj, hT ▸ List.mem_cons_self ..⟩)
    · exact hfree h₁
  rw [hsub.frame x hxi fun k hk => ⟨(h.taken k).mpr (.inl (hi k hk).1), fun hm =>
    (hi k hk).2 (h.mem_old hj hm)⟩, h.frame x hx hxi]

/-- What is mapped below is mapped here. -/
theorem filled_after (h : Linked A D p (q :: ps) N t j s T i sub s₁) (hj : j < N)
    (hl : Levels (p :: q :: ps)) (hsz : 0 < sz) (hv : v + sz ≤ 2 ^ p)
    (hsub : Inserted A D (q :: ps) 512 (some i) req v sz s₁ sub r s' sub')
    (hr : r = .ok () ∨ r = .error .doubleInsertion) (hf : Filled (p :: q :: ps) N T) :
    Filled (p :: q :: ps) N (Function.update T j (.table i sub')) := by
  refine hf.update fun i' sub'' he => ?_
  obtain ⟨rfl, rfl⟩ : i = i' ∧ sub' = sub'' := by simpa using he
  rcases h.slot with hT | ⟨-, rfl, -⟩
  · obtain ⟨⟨k, hk, hne⟩, hfs⟩ := hf j hj i sub hT
    exact ⟨⟨k, hk, hsub.kept k hne⟩, hsub.filled hr hfs⟩
  · refine ⟨?_, hsub.filled hr (filled_bare _ _)⟩
    rcases hr with hr | hr
    · obtain ⟨m, -, hadds, hm⟩ := hsub.adds
      obtain rfl := hm hr
      have hlook := (hadds.inside v le_rfl (by omega)).1
      exact ⟨v / 2 ^ q, hl.index_lt (by omega), fun he => by rw [look_empty he] at hlook; cases hlook⟩
    · rcases hsub.double hr with ⟨a, x, -, -, hx, -⟩ | ⟨hn, -⟩
      · rw [look_bare] at hx
        cases hx
      · exact absurd (filled_bare _ _) hn

/-- What is in the way below is in the way here. -/
theorem double_after (h : Linked A D p ps N t (v / 2 ^ p) s T i sub s₁) (hj : v / 2 ^ p < N)
    (hpart : req.Part p v sz) (hps : ∀ q ∈ ps, q ≤ p)
    (hno : ∀ a, v ≤ a → a < v + sz → ¬ req.Fits p a)
    (hsub : Conflict ps (req.below p v sz) (v - clearLow v p) sz sub ∨
      ¬ Filled ps 512 sub ∧ (req.below p v sz).Large ps (v - clearLow v p) sz) :
    Conflict (p :: ps) req v sz T ∨ ¬ Filled (p :: ps) N T ∧ req.Large (p :: ps) v sz := by
  have hvle := clearLow_le (a := v) (n := p)
  have hup : ∀ a, v - clearLow v p ≤ a → a < v - clearLow v p + sz →
      v ≤ clearLow v p + a ∧ clearLow v p + a < v + sz ∧ (clearLow v p + a) % 2 ^ p = a := by
    intro a ha₁ ha₂
    have hva : v ≤ clearLow v p + a := by omega
    have hav : clearLow v p + a < v + sz := by omega
    have hcl := hpart.clearLow_eq hva hav
    have := clearLow_add_mod (a := clearLow v p + a) (n := p)
    exact ⟨hva, hav, by omega⟩
  rcases hsub with ⟨a, x, ha₁, ha₂, hx, hne⟩ | ⟨hn, q, hq, h12, a, ha₁, ha₂, hfit⟩
  · obtain ⟨hva, hav, hmod⟩ := hup a ha₁ ha₂
    have hb := hpart.block hva hav
    refine .inl ⟨clearLow v p + a, x.moved (clearLow (clearLow v p + a) p), hva, hav, ?_, ?_⟩
    · rw [h.look_eq hb, hmod, hx, Option.map_some]
    · rw [pageFor, if_neg (hno _ hva hav), ← hpart.pageFor_below hps hva hav, hmod]
      exact fun he => hne (Page.moved_injective _ he)
  · rcases h.slot with hT | ⟨-, rfl, -⟩
    · obtain ⟨hva, hav, hmod⟩ := hup a ha₁ ha₂
      refine .inr ⟨fun hf => hn (hf _ hj i sub hT).2, q, List.mem_cons_of_mem _ hq, h12,
        clearLow v p + a, hva, hav, ?_⟩
      rwa [← hpart.fits_below (hps q hq) hva hav, hmod]
    · exact absurd (filled_bare _ _) hn

/-- The insertion into the table of the next level is one into this table. -/
theorem inserted (h : Linked A D p (q :: ps) N t (v / 2 ^ p) s T i sub s₁)
    (hl : Levels (p :: q :: ps)) (hj : v / 2 ^ p < N) (hpart : req.Part p v sz)
    (hno : ∀ a, v ≤ a → a < v + sz → ¬ req.Fits p a)
    (hsub : Inserted A D (q :: ps) 512 (some i) (req.below p v sz) (v - clearLow v p) sz s₁ sub r
      s' sub') :
    Inserted A D (p :: q :: ps) N t req v sz s T r s'
      (Function.update T (v / 2 ^ p) (.table i sub')) := by
  have hps : ∀ k ∈ q :: ps, k ≤ p := fun k hk => le_of_lt (hl.lt k hk)
  have hin := hpart.within
  have hvle := clearLow_le (a := v) (n := p)
  obtain ⟨m, hm, hadds, hr⟩ := hsub.adds
  refine ⟨h.holds_after hj hsub, fun x => h.grows hj hsub.grows, fun x => h.new hj hpart hsub,
    h.taken_after hj hsub, fun x => h.frame_after hj hsub, fun k hk => ?_, fun k hk => ?_,
    ⟨m, hm, h.adds_after hpart hps hno hm hadds, hr⟩,
    h.filled_after hj hl hpart.pos (by omega) hsub,
    fun hinv hreq => hsub.invalid hinv (hpart.aligned_below hl.le.1 hreq),
    fun hd => h.double_after hj hpart hps hno (hsub.double hd), hsub.out⟩
  · rw [h.root_after hj hsub]
    exact h.root k (by omega)
  · by_cases hkj : k = v / 2 ^ p
    · rw [hkj, Function.update_self]
      simp
    · rwa [Function.update_of_ne hkj]

end Linked

end Linked

end Genode.Hw
