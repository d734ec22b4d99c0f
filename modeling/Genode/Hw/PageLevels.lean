import Genode.Hw.PageSpots

/-!
# PageLevels — the tables in memory are a tree

The entries of a table in memory are those of a tree, level by level. The
tables of a tree are all different, and taken from the array. So a change
within one table leaves the others as they are.
-/

namespace Genode.Hw

open Lib Util
open Base (Md)
open CommonDescriptor (present clearMmuFlags)
open BaseDescriptor (mapsPage)

/-- The same entry, up to the flags of the MMU. -/
def Same (v w : Nat) : Prop := clearMmuFlags w = clearMmuFlags v ∧ (v = 0 → w = 0)

theorem Same.refl (v : Nat) : Same v v := ⟨rfl, id⟩

variable {n : Nat} {μ : Type} (A : TableArray n) (D : Md (Fin n) μ)

/-- An entry in memory, given what the tables of the next level are. -/
def SlotRepr (p : Nat) (below : Option (Fin n) → Tree (Fin n) → Prop) (v : Nat) :
    Slot (Fin n) → Prop
  | .empty => v = 0
  | .page x => p ≤ 30 ∧ Aligned p x.addr ∧ Maps p v x
  | .table i sub => p ≠ 12 ∧ Refers A v i ∧ below (some i) sub

/-- The first `N` entries of the table `t` are those of the tree. -/
def Repr (s : PageTables n μ) : List Nat → Nat → Option (Fin n) → Tree (Fin n) → Prop
  | [], _, _, _ => True
  | p :: ps, N, t, T => ∀ j < N, SlotRepr A p (fun t T => Repr s ps 512 t T) (s.entries t j) (T j)

/-- A table with all its tables below. -/
structure Holds (s : PageTables n μ) (ps : List Nat) (N : Nat) (t : Option (Fin n))
    (T : Tree (Fin n)) : Prop where
  repr : Repr A s ps N t T
  nodup : (names ps N T).Nodup
  self : ∀ i, t = some i → i ∉ names ps N T
  own : ∀ i, t = some i → i ∈ D.taken s.alloc
  taken : ∀ i ∈ names ps N T, i ∈ D.taken s.alloc

variable {A D} {s s' : PageTables n μ} {p : Nat} {ps : List Nat} {N : Nat} {t : Option (Fin n)}
  {T T' : Tree (Fin n)}

/-! ## What an entry tells -/

section Entry

variable (hl : Levels (p :: ps))
include hl

theorem SlotRepr.present_iff {below : Option (Fin n) → Tree (Fin n) → Prop} {v : Nat}
    {S : Slot (Fin n)} (h : SlotRepr A p below v S) : present v = true ↔ S ≠ .empty := by
  have hp := hl.le
  cases S with
  | empty =>
    obtain rfl : v = 0 := h
    simp [present_eq]
  | page x => simp [h.2.2.present hp.1 (by omega) h.2.1]
  | table i sub => simp [h.2.1.present]

/-- An entry for a page is not one for a table. -/
theorem SlotRepr.mapsPage {below : Option (Fin n) → Tree (Fin n) → Prop} {v : Nat} {x : Frame}
    (h : SlotRepr A p below v (.page x)) (h12 : p ≠ 12) : mapsPage v = true :=
  h.2.2.mapsPage hl.le.1 (by have := hl.le; omega) h.2.1 h12

/-- An entry for a page compared with one that is to be written. -/
theorem SlotRepr.page_eq_iff {below : Option (Fin n) → Tree (Fin n) → Prop} {v : Nat} {x y : Frame}
    (h : SlotRepr A p below v (.page x)) (hy : Aligned p y.addr) {flags : PageFlags}
    (hflags : flags.attr = y.attr) : clearMmuFlags v = pageEntry p flags y.addr ↔ x = y :=
  h.2.2.eq_iff hl.le.1 (by have := hl.le; omega) h.2.1 hy hflags

theorem Repr.empty_iff (h : Repr A s (p :: ps) 512 t T) :
    s.empty t = true ↔ ∀ j < 512, T j = .empty := by
  rw [PageTables.empty, List.all_eq_true]
  constructor
  · intro he j hj
    by_contra hne
    have := he j (List.mem_range.mpr hj)
    rw [(h j hj).present_iff hl |>.mpr hne] at this
    cases this
  · intro he j hj
    have hj := List.mem_range.mp hj
    by_contra hne
    have hpr : present (s.entries t j) = true := by simpa using hne
    exact (h j hj).present_iff hl |>.mp hpr (he j hj)

end Entry

theorem tableOf_refers {paField : Bitfield 64} {i : Fin n} {j : Nat}
    (hr : Refers A (s.entries t j) i)
    (hlow : paField.shift = 12) (hhigh : 36 ≤ paField.width) (hwidth : paField.width ≤ 51) :
    tableOf A paField t j s = .ok i := by
  rw [tableOf, hr.masked hlow hhigh hwidth, TableArray.virtAddr_physAddr]

/-! ## What stays -/

/-- A tree depends on its own tables, and on nothing that the MMU changes. -/
theorem Repr.congr (h : Repr A s ps N t T) (hroot : ∀ j < N, Same (s.entries t j) (s'.entries t j))
    (hsub : ∀ i ∈ names ps N T, ∀ j, Same (s.entries (some i) j) (s'.entries (some i) j)) :
    Repr A s' ps N t T := by
  induction ps generalizing N t T with
  | nil => trivial
  | cons p ps ih =>
    intro j hj
    have hS := h j hj
    have hmem : ∀ i ∈ slotNames ps (T j), i ∈ names (p :: ps) N T :=
      fun i hi => mem_names.mpr ⟨j, hj, hi⟩
    cases hT : T j with
    | empty =>
      rw [hT] at hS
      exact (hroot j hj).2 hS
    | page x =>
      rw [hT] at hS
      obtain ⟨h₁, h₂, flags, h₃, h₄⟩ := hS
      exact ⟨h₁, h₂, flags, h₃, (hroot j hj).1.trans h₄⟩
    | table i sub =>
      rw [hT] at hS hmem
      obtain ⟨h₁, h₂, h₃⟩ := hS
      refine ⟨h₁, (hroot j hj).1.trans h₂, ih h₃ (fun k _ => hsub i ?_ k) fun k hk => hsub k ?_⟩
      · exact hmem i (List.mem_cons_self ..)
      · exact hmem k (List.mem_cons_of_mem _ hk)

theorem Repr.bare (h : ∀ j < N, s.entries t j = 0) : Repr A s ps N t bare := by
  cases ps with
  | nil => trivial
  | cons p ps => exact h

/-- One entry changes, together with its tables. -/
theorem Holds.update {j : Nat} {S : Slot (Fin n)} (h : Holds A D s (p :: ps) N t T)
    (hS : SlotRepr A p (fun t T => Repr A s' ps 512 t T) (s'.entries t j) S)
    (hroot : ∀ k < N, k ≠ j → s'.entries t k = s.entries t k)
    (hframe : ∀ k < N, k ≠ j → ∀ i ∈ slotNames ps (T k), s'.entries (some i) = s.entries (some i) ∧
      i ∈ D.taken s'.alloc ∧ i ∉ slotNames ps S)
    (hnodup : (slotNames ps S).Nodup) (hself : ∀ i, t = some i → i ∉ slotNames ps S)
    (hown : ∀ i, t = some i → i ∈ D.taken s'.alloc)
    (htaken : ∀ i ∈ slotNames ps S, i ∈ D.taken s'.alloc) :
    Holds A D s' (p :: ps) N t (Function.update T j S) := by
  have hmem : ∀ i, i ∈ names (p :: ps) N (Function.update T j S) →
      i ∈ slotNames ps S ∨ ∃ k < N, k ≠ j ∧ i ∈ slotNames ps (T k) := by
    intro i hi
    obtain ⟨k, hk, hi⟩ := mem_names.mp hi
    by_cases hkj : k = j
    · subst hkj
      rw [Function.update_self] at hi
      exact .inl hi
    · rw [Function.update_of_ne hkj] at hi
      exact .inr ⟨k, hk, hkj, hi⟩
  refine ⟨fun k hk => ?_, nodup_names_update h.nodup hnodup fun k hk hkj i hi =>
    (hframe k hk hkj i hi).2.2, fun i hti hi => ?_, hown, fun i hi => ?_⟩
  · by_cases hkj : k = j
    · subst hkj
      rwa [Function.update_self]
    · rw [Function.update_of_ne hkj, hroot k hk hkj]
      have hold := h.repr k hk
      cases hT : T k with
      | empty => rwa [hT] at hold
      | page x => rwa [hT] at hold
      | table i sub =>
        rw [hT] at hold
        refine ⟨hold.1, hold.2.1, hold.2.2.congr (fun l _ => ?_) fun m hm l => ?_⟩
        · rw [(hframe k hk hkj i (hT ▸ List.mem_cons_self ..)).1]
          exact .refl _
        · rw [(hframe k hk hkj m (hT ▸ List.mem_cons_of_mem _ hm)).1]
          exact .refl _
  · rcases hmem i hi with hi | ⟨k, hk, -, hi⟩
    · exact hself i hti hi
    · exact h.self i hti (mem_names.mpr ⟨k, hk, hi⟩)
  · rcases hmem i hi with hi | ⟨k, hk, hkj, hi⟩
    · exact htaken i hi
    · exact (hframe k hk hkj i hi).2.1

/-- The table of an entry. -/
theorem Holds.sub {j : Nat} {i : Fin n} {sub : Tree (Fin n)} (h : Holds A D s (p :: ps) N t T)
    (hj : j < N) (hT : T j = .table i sub) : Holds A D s ps 512 (some i) sub := by
  have hmem : ∀ k ∈ slotNames ps (T j), k ∈ names (p :: ps) N T :=
    fun k hk => mem_names.mpr ⟨j, hj, hk⟩
  have hnodup := (nodup_names.mp h.nodup).1 j hj
  have hrepr := h.repr j hj
  rw [hT] at hmem hnodup hrepr
  rw [slotNames, List.nodup_cons] at hnodup
  refine ⟨hrepr.2.2, hnodup.2, ?_, ?_, fun k hk => h.taken k (hmem k (List.mem_cons_of_mem _ hk))⟩
  · rintro k ⟨⟩
    exact hnodup.1
  · rintro k ⟨⟩
    exact h.taken i (hmem i (List.mem_cons_self ..))

/-! ## Pages of tables that are not empty -/

/-- An entry that is not empty leads to a page, if no table is empty. -/
theorem Repr.exists_look (hl : Levels (p :: ps)) (h : Repr A s (p :: ps) N t T)
    (hf : Filled (p :: ps) N T) {j : Nat} (hj : j < N) (hne : T j ≠ .empty) :
    ∃ a x, a / 2 ^ p = j ∧ look (p :: ps) T a = some x := by
  generalize hqs : p :: ps = qs at hl
  induction hl generalizing p ps N t T j with
  | last =>
    obtain ⟨rfl, rfl⟩ := List.cons.inj hqs
    have hS := h j hj
    have hdiv : j * 2 ^ 12 / 2 ^ 12 = j := Nat.mul_div_cancel j (Nat.two_pow_pos 12)
    cases hT : T j with
    | empty => exact absurd hT hne
    | page x => exact ⟨j * 2 ^ 12, _, hdiv, look_page (by rw [hdiv, hT])⟩
    | table i sub =>
      rw [hT] at hS
      exact absurd rfl hS.1
  | @above q qs hl hq ih =>
    obtain ⟨rfl, rfl⟩ := List.cons.inj hqs
    have hS := h j hj
    have hdiv : j * 2 ^ (q + 9) / 2 ^ (q + 9) = j := Nat.mul_div_cancel j (Nat.two_pow_pos _)
    cases hT : T j with
    | empty => exact absurd hT hne
    | page x => exact ⟨j * 2 ^ (q + 9), _, hdiv, look_page (by rw [hdiv, hT])⟩
    | table i sub =>
      rw [hT] at hS
      obtain ⟨⟨k, hk, hsub⟩, hfsub⟩ := hf j hj i sub hT
      obtain ⟨a, x, ha, hx⟩ := ih hS.2.2 hfsub hk hsub rfl
      have halt : a < 2 ^ (q + 9) := by
        rw [← (Levels.above hl hq).block, ← Nat.div_lt_iff_lt_mul (Nat.two_pow_pos q), ha]
        exact hk
      obtain ⟨hdiv', hmod⟩ := block_add halt j
      refine ⟨j * 2 ^ (q + 9) + a, x.moved (clearLow (j * 2 ^ (q + 9) + a) (q + 9)), hdiv', ?_⟩
      rw [look_table (hdiv'.symm ▸ hT), hmod, hx, Option.map_some]

/-- So does a table. -/
theorem Repr.exists_look_of_spot (hl : Levels (p :: ps)) (h : Repr A s (p :: ps) N t T)
    (hf : Filled (p :: ps) N T) {x : Spot (Fin n)} (hx : x ∈ spots (p :: ps) N T) :
    ∃ a y, x.start ≤ a ∧ a < x.start + 2 ^ x.log2 ∧ look (p :: ps) T a = some y := by
  generalize hqs : p :: ps = qs at hl
  induction hl generalizing p ps N t T x with
  | last =>
    obtain ⟨rfl, rfl⟩ := List.cons.inj hqs
    obtain ⟨j, hj, hx⟩ := mem_spots.mp hx
    have hslot := h j hj
    cases hT : T j with
    | empty => rw [hT] at hx; cases hx
    | page y => rw [hT] at hx; cases hx
    | table i sub =>
      rw [hT] at hslot
      exact absurd rfl hslot.1
  | @above q qs hl hq ih =>
    obtain ⟨rfl, rfl⟩ := List.cons.inj hqs
    have hab : Levels ((q + 9) :: q :: qs) := .above hl hq
    obtain ⟨j, hj, hx⟩ := mem_spots.mp hx
    have hslot := h j hj
    cases hT : T j with
    | empty => rw [hT] at hx; cases hx
    | page y => rw [hT] at hx; cases hx
    | table i sub =>
      rw [hT] at hx hslot
      rcases mem_slotSpots_table.mp hx with rfl | ⟨y, hy, rfl⟩
      · obtain ⟨a, z, ha, hz⟩ := h.exists_look hab hf hj (by simp [hT])
        have hle := clearLow_le (a := a) (n := q + 9)
        have hlt := lt_clearLow_add (a := a) (n := q + 9)
        rw [clearLow_eq, ha] at hle hlt
        exact ⟨a, z, hle, hlt, hz⟩
      · obtain ⟨b, z, hb₁, hb₂, hz⟩ := ih hslot.2.2 (hf j hj i sub hT).2 hy rfl
        obtain ⟨k, hk, hyk⟩ := mem_spots.mp hy
        have hin := (slotSpots_within hl hyk).2
        have hk' := Nat.mul_le_mul_right (2 ^ q) hk
        rw [Nat.succ_mul, hab.block] at hk'
        obtain ⟨hdiv, hmod⟩ := block_add (show b < 2 ^ (q + 9) by omega) j
        dsimp only [Spot.moved]
        refine ⟨j * 2 ^ (q + 9) + b, z.moved (clearLow (j * 2 ^ (q + 9) + b) (q + 9)), by omega,
          by omega, ?_⟩
        rw [look_table (hdiv.symm ▸ hT), hmod, hz, Option.map_some]

/-! ## Tables on the way -/

/-- The lowest level has no tables below. -/
theorem Repr.length_way (hl : Levels (p :: ps)) (h : Repr A s (p :: ps) N t T) {a : Nat}
    (ha : a < N * 2 ^ p) : (way (p :: ps) T a).length ≤ ps.length := by
  generalize hqs : p :: ps = qs at hl
  induction hl generalizing p ps N t T a with
  | last =>
    obtain ⟨rfl, rfl⟩ := List.cons.inj hqs
    have hslot := h _ ((Nat.div_lt_iff_lt_mul (Nat.two_pow_pos 12)).mpr ha)
    rw [way]
    split
    · next hT =>
      rw [hT] at hslot
      exact absurd rfl hslot.1
    · exact le_rfl
  | @above q qs hl hq ih =>
    obtain ⟨rfl, rfl⟩ := List.cons.inj hqs
    have hslot := h _ ((Nat.div_lt_iff_lt_mul (Nat.two_pow_pos _)).mpr ha)
    rw [way]
    split
    · next hT =>
      rw [hT] at hslot
      rw [List.length_cons, List.length_map, List.length_cons]
      refine Nat.succ_le_succ (ih hslot.2.2 ?_ rfl)
      rw [(Levels.above hl hq).block]
      exact Nat.mod_lt _ (Nat.two_pow_pos _)
    · exact Nat.zero_le _

/-- A table is for a block of one of the levels above. -/
theorem Repr.spot_log2 (hl : Levels (p :: ps)) (h : Repr A s (p :: ps) N t T) {x : Spot (Fin n)}
    (hx : x ∈ spots (p :: ps) N T) : x.log2 ∈ p :: ps ∧ 12 < x.log2 ∧ 2 ^ x.log2 ∣ x.start := by
  generalize hqs : p :: ps = qs at hl
  induction hl generalizing p ps N t T x with
  | last =>
    obtain ⟨rfl, rfl⟩ := List.cons.inj hqs
    obtain ⟨j, hj, hx⟩ := mem_spots.mp hx
    have hslot := h j hj
    cases hT : T j with
    | empty => rw [hT] at hx; cases hx
    | page y => rw [hT] at hx; cases hx
    | table i sub =>
      rw [hT] at hslot
      exact absurd rfl hslot.1
  | @above q qs hl hq ih =>
    obtain ⟨rfl, rfl⟩ := List.cons.inj hqs
    have hab : Levels ((q + 9) :: q :: qs) := .above hl hq
    obtain ⟨j, hj, hx⟩ := mem_spots.mp hx
    have hslot := h j hj
    cases hT : T j with
    | empty => rw [hT] at hx; cases hx
    | page y => rw [hT] at hx; cases hx
    | table i sub =>
      rw [hT] at hx hslot
      rcases mem_slotSpots_table.mp hx with rfl | ⟨y, hy, rfl⟩
      · have := hl.le
        exact ⟨List.mem_cons_self .., by dsimp only; omega, Nat.dvd_mul_left _ _⟩
      · obtain ⟨h₁, h₂, h₃⟩ := ih hslot.2.2 hy rfl
        refine ⟨List.mem_cons_of_mem _ h₁, h₂, Nat.dvd_add (Dvd.dvd.mul_left ?_ _) h₃⟩
        refine pow_dvd_pow 2 (show y.log2 ≤ q + 9 from ?_)
        rcases List.mem_cons.mp h₁ with he | hm
        · omega
        · have := hl.lt _ hm
          omega

/-! ## The parts of a range -/

/-- Blocks end within the address space. -/
theorem clearLow_add_le_word {p v : Nat} (hp : p < 64) (hv : v < 2 ^ 64) :
    clearLow v p + 2 ^ p ≤ 2 ^ 64 := by
  have h64 : (2 : Nat) ^ 64 = 2 ^ (64 - p) * 2 ^ p := by rw [← pow_add]; congr 1; omega
  have hq : v / 2 ^ p < 2 ^ (64 - p) := by
    rwa [Nat.div_lt_iff_lt_mul (Nat.two_pow_pos p), ← h64]
  rw [clearLow_eq, ← Nat.add_one_mul, h64]
  exact Nat.mul_le_mul_right _ hq

/-- The next block, as the code computes it. -/
theorem sub64_clearLow_add64 {p v : Nat} (hp : p < 64) (hv : v < 2 ^ 64) :
    sub64 (clearLow (add64 v (2 ^ p)) p) v = clearLow v p + 2 ^ p - v ∧
      (clearLow (add64 v (2 ^ p)) p < v ↔ clearLow v p + 2 ^ p = 2 ^ 64) := by
  have h64 : (2 : Nat) ^ 64 = 2 ^ (64 - p) * 2 ^ p := by rw [← pow_add]; congr 1; omega
  have hpos := Nat.two_pow_pos p
  have hlt : (2 : Nat) ^ p < 2 ^ 64 := Nat.pow_lt_pow_right (by omega) hp
  have hmod := clearLow_add_mod (a := v) (n := p)
  have hrest := Nat.mod_lt v hpos
  have hnext : clearLow v p + 2 ^ p = (v / 2 ^ p + 1) * 2 ^ p := by
    rw [clearLow_eq, Nat.add_one_mul]
  have hle := clearLow_add_le_word hp hv
  by_cases hw : v + 2 ^ p < 2 ^ 64
  · have hc : clearLow (add64 v (2 ^ p)) p = clearLow v p + 2 ^ p := by
      rw [add64_of_lt hw, clearLow, Nat.add_mod_right]
      unfold clearLow at hmod ⊢
      omega
    rw [hc, sub64_of_le (by omega) (by omega)]
    exact ⟨rfl, by omega, by omega⟩
  · have hc : clearLow (add64 v (2 ^ p)) p = 0 := by
      have hsmall : add64 v (2 ^ p) < 2 ^ p := by
        unfold add64
        omega
      rw [clearLow, Nat.mod_eq_of_lt hsmall, Nat.sub_self]
    have hlast : clearLow v p + 2 ^ p = 2 ^ 64 := by
      have : 2 ^ (64 - p) ≤ v / 2 ^ p + 1 := by
        rw [← Nat.add_div_right _ hpos, Nat.le_div_iff_mul_le hpos, ← h64]
        omega
      have := Nat.mul_le_mul_right (2 ^ p) this
      rw [← h64, ← hnext] at this
      omega
    rw [hc]
    refine ⟨?_, by omega, by omega⟩
    unfold sub64
    omega

/-- The part that is next, with the size that the code gives it. -/
theorem part_min {p v : Nat} {req : Request} (hv : req.start ≤ v)
    (hvlt : v < req.start + req.size) (hfirst : v = req.start ∨ v = clearLow v p) :
    req.Part p v (min (req.start + req.size - v) (clearLow v p + 2 ^ p - v)) := by
  have hin := lt_clearLow_add (a := v) (n := p)
  rcases le_total (req.start + req.size) (clearLow v p + 2 ^ p) with hle | hle
  · rw [min_eq_left (Nat.sub_le_sub_right hle v)]
    have hsum := Nat.add_sub_cancel' hvlt.le
    exact ⟨Nat.sub_pos_of_lt hvlt, hv, hsum.le, hsum.le.trans hle, hfirst, .inl hsum⟩
  · rw [min_eq_right (Nat.sub_le_sub_right hle v)]
    have hsum := Nat.add_sub_cancel' hin.le
    exact ⟨Nat.sub_pos_of_lt hin, hv, hsum.le.trans hle, hsum.le, hfirst, .inr hsum⟩

/-- `_range_op` goes through the parts of a range, one in each block. -/
theorem rangeOp_spec {p : Nat} (hp : p < 64) {index : Nat → Nat}
    {func : Nat → Nat → Nat → Nat → PageTables n μ → Outcome n μ} {req : Request}
    (hstop : req.start + req.size ≤ 2 ^ 64) (haddr : req.addr + req.size < 2 ^ 64)
    {P : Nat → PageTables n μ → Prop} {Q : TableError → PageTables n μ → Prop}
    (hidx : ∀ v, req.start ≤ v → v < req.start + req.size → index v < 512)
    (hfunc : ∀ v sz s, req.Part p v sz → P v s →
      ∃ r s', func v (req.addr + (v - req.start)) sz (index v) s = .ok (r, s') ∧
        (r = .ok () → P (v + sz) s') ∧ ∀ e, r = .error e → Q e s')
    {fuel v : Nat} {s : PageTables n μ} (hv : req.start ≤ v) (hvle : v ≤ req.start + req.size)
    (hfirst : v = req.start ∨ v = clearLow v p ∨ v = req.start + req.size)
    (hfuel : req.start + req.size - v < fuel) (hP : P v s) :
    ∃ r s', rangeOp p index func fuel v (req.addr + (v - req.start)) (req.start + req.size - v) s =
        .ok (r, s') ∧
      (r = .ok () → P (req.start + req.size) s') ∧ ∀ e, r = .error e → Q e s' := by
  induction fuel generalizing v s with
  | zero => exact absurd hfuel (Nat.not_lt_zero _)
  | succ fuel ih =>
    unfold rangeOp
    rcases hvle.eq_or_lt with hend | hlt
    · rw [if_pos (Nat.sub_eq_zero_of_le hend.ge)]
      exact ⟨.ok (), s, rfl, fun _ => hend ▸ hP, fun e he => by cases he⟩
    · have hvlt : v < 2 ^ 64 := hlt.trans_le hstop
      obtain ⟨hsub, hwrap⟩ := sub64_clearLow_add64 hp hvlt
      have hpart := part_min (p := p) hv hlt (hfirst.imp_right fun h => h.resolve_right hlt.ne)
      rw [if_neg (Nat.sub_pos_of_lt hlt).ne', if_pos (hidx v hv hlt)]
      dsimp only
      rw [hsub]
      generalize min (req.start + req.size - v) (clearLow v p + 2 ^ p - v) = sz at hpart ⊢
      obtain ⟨r, s₁, hr, hok, herr⟩ := hfunc v sz s hpart hP
      rw [hr]
      cases r with
      | error e => exact ⟨.error e, s₁, rfl, fun h => (by cases h), fun e' he => herr e' he⟩
      | ok u =>
        have hP' := hok rfl
        have hto := hpart.to_stop
        dsimp only
        by_cases hw : clearLow (add64 v (2 ^ p)) p < v
        · have hend : req.start + req.size = v + sz := by
            rcases hpart.last with hl | hl
            · exact hl.symm
            · exact (hstop.trans_eq (hl.trans (hwrap.mp hw)).symm).antisymm hto
          rw [if_pos hw]
          exact ⟨.ok (), s₁, rfl, fun _ => hend ▸ hP', fun e he => by cases he⟩
        · have hnw : clearLow v p + 2 ^ p < 2 ^ 64 :=
            (clearLow_add_le_word hp hvlt).lt_of_ne fun h => hw (hwrap.mpr h)
          have hstep : v - req.start + sz = v + sz - req.start := (Nat.sub_add_comm hv).symm
          have hsum : req.addr + (v + sz - req.start) < 2 ^ 64 :=
            (Nat.add_le_add_left (Nat.sub_le_iff_le_add'.mpr hto) _).trans_lt haddr
          rw [if_neg hw, add64_of_lt (a := v) (hpart.within.trans_lt hnw), Nat.sub_sub,
            add64_of_lt (by rwa [Nat.add_assoc, hstep]), Nat.add_assoc, hstep]
          refine ih (hv.trans (Nat.le_add_right v sz)) hto ?_ ?_ hP'
          · have hcl : clearLow (clearLow v p + 2 ^ p) p = clearLow v p + 2 ^ p := by
              rw [clearLow, clearLow_eq, ← Nat.add_one_mul, Nat.mul_mod_left, Nat.sub_zero]
            rcases hpart.last with hl | hl
            · exact .inr (.inr hl)
            · refine .inr (.inl ?_)
              rw [hl, hcl]
          · have hless : req.start + req.size - (v + sz) < req.start + req.size - v :=
              Nat.sub_lt_sub_left hlt (Nat.lt_add_of_pos_right hpart.pos)
            exact hless.trans_le (Nat.le_of_lt_succ hfuel)

end Genode.Hw
