import Genode.Hw.PageTree

/-!
# PageSpots — where pages and tables are

Each level of a table has blocks of its own size, so that pages and tables
start at multiples of theirs. The tables on the way to an address are those
whose blocks contain it.
-/

namespace Genode.Hw

open Lib

/-- The levels of a table, from its own one down. -/
inductive Levels : List Nat → Prop where
  | last : Levels [12]
  | above {p : Nat} {ps : List Nat} (h : Levels (p :: ps)) (hp : p ≤ 30) : Levels ((p + 9) :: p :: ps)

theorem Levels.le {p : Nat} {ps : List Nat} (h : Levels (p :: ps)) : 12 ≤ p ∧ p ≤ 39 := by
  cases h with
  | last => omega
  | above h hp =>
    refine ⟨?_, by omega⟩
    cases h <;> omega

theorem Levels.lt {p : Nat} {ps : List Nat} (h : Levels (p :: ps)) : ∀ q ∈ ps, q < p := by
  generalize hqs : p :: ps = qs at h
  induction h generalizing p ps with
  | last =>
    obtain ⟨rfl, rfl⟩ := List.cons.inj hqs
    simp
  | above h hp ih =>
    obtain ⟨rfl, rfl⟩ := List.cons.inj hqs
    intro q hq
    rcases List.mem_cons.mp hq with rfl | hq
    · omega
    · have := ih rfl q hq
      omega

theorem Levels.next {p q : Nat} {ps : List Nat} (h : Levels (p :: q :: ps)) :
    p = q + 9 ∧ q ≤ 30 ∧ Levels (q :: ps) := by
  cases h with
  | above h hp => exact ⟨rfl, hp, h⟩

/-- A table of the next level is for a block of this one. -/
theorem Levels.block {p q : Nat} {ps : List Nat} (h : Levels (p :: q :: ps)) :
    512 * 2 ^ q = 2 ^ p := by
  rw [show (512 : Nat) = 2 ^ 9 from rfl, ← pow_add, h.next.1, Nat.add_comm]

theorem Levels.index_lt {p q : Nat} {ps : List Nat} (h : Levels (p :: q :: ps)) {a : Nat}
    (ha : a < 2 ^ p) : a / 2 ^ q < 512 := by
  rwa [Nat.div_lt_iff_lt_mul (Nat.two_pow_pos q), h.block]

/-- The table is for addresses of the range, only. -/
def Spot.Within {ι : Type} (x : Spot ι) (v sz : Nat) : Prop :=
  v ≤ x.start ∧ x.start + 2 ^ x.log2 ≤ v + sz

/-! ## Pages and tables lie within one block -/

section Blocks

variable {ι : Type} {p : Nat} {ps : List Nat} {N : Nat} {T : Tree ι}

/-- A page starts at a multiple of its size. -/
theorem start_of_look (hl : Levels ps) {a : Nat} {x : Page} (h : look ps T a = some x) :
    x.start = clearLow a x.log2 := by
  induction hl generalizing T a x with
  | last =>
    cases hT : T (a / 2 ^ 12) with
    | empty =>
      rw [look_empty hT] at h
      cases h
    | page y =>
      rw [look_page hT] at h
      cases h
      rfl
    | table i sub =>
      rw [look_table hT] at h
      cases h
  | @above q qs hl hq ih =>
    cases hT : T (a / 2 ^ (q + 9)) with
    | empty =>
      rw [look_empty hT] at h
      cases h
    | page y =>
      rw [look_page hT] at h
      cases h
      rfl
    | table i sub =>
      rw [look_table hT] at h
      obtain ⟨y, hy, rfl⟩ := Option.map_eq_some_iff.mp h
      have hle : y.log2 ≤ q + 9 := by
        rcases List.mem_cons.mp (log2_of_look hy) with hlog | hlog
        · omega
        · have := hl.lt _ hlog
          omega
      have hstart := ih hy
      have hsum := clearLow_add_clearLow (a := a) hle
      dsimp only [Page.moved]
      omega

/-- A page that is found at an address overlaps a part of its block. -/
theorem overlaps_of_look (hl : Levels (p :: ps)) {a : Nat} {x : Page}
    (h : look (p :: ps) T a = some x) : clearLow a p ≤ x.start ∧
      x.start + 2 ^ x.log2 ≤ clearLow a p + 2 ^ p := by
  have hle : x.log2 ≤ p := by
    rcases List.mem_cons.mp (log2_of_look h) with hlog | hlog
    · omega
    · exact le_of_lt (hl.lt _ hlog)
  rw [start_of_look hl h]
  exact ⟨clearLow_mono hle, clearLow_add_le hle⟩

theorem slotSpots_within (hl : Levels (p :: ps)) {j : Nat} {S : Slot ι} {x : Spot ι}
    (h : x ∈ slotSpots p (spots ps 512) j S) : x.Within (j * 2 ^ p) (2 ^ p) := by
  generalize hqs : p :: ps = qs at hl
  induction hl generalizing p ps j S x with
  | last =>
    obtain ⟨rfl, rfl⟩ := List.cons.inj hqs
    cases S with
    | empty => cases h
    | page y => cases h
    | table i sub =>
      rcases mem_slotSpots_table.mp h with rfl | ⟨y, hy, -⟩
      · exact ⟨le_rfl, le_rfl⟩
      · cases hy
  | @above q qs hl hq ih =>
    obtain ⟨rfl, rfl⟩ := List.cons.inj hqs
    cases S with
    | empty => cases h
    | page y => cases h
    | table i sub =>
      rcases mem_slotSpots_table.mp h with rfl | ⟨y, hy, rfl⟩
      · exact ⟨le_rfl, le_rfl⟩
      · obtain ⟨k, hk, hy⟩ := mem_spots.mp hy
        obtain ⟨h₁, h₂⟩ := ih hy rfl
        have hkle : (k + 1) * 2 ^ q ≤ 512 * 2 ^ q := Nat.mul_le_mul_right _ hk
        rw [Nat.add_one_mul] at hkle
        refine ⟨Nat.le_add_right _ _, ?_⟩
        dsimp only [Spot.moved]
        rw [pow_add]
        omega

end Blocks

/-! ## The way to an address -/

section Way

variable {ι : Type} {p : Nat} {ps : List Nat} {N : Nat} {T : Tree ι} {a : Nat} {x : Spot ι}

/-- The tables on the way to an address. -/
def way : List Nat → Tree ι → Nat → List (Spot ι)
  | [], _, _ => []
  | p :: ps, T, a =>
    match T (a / 2 ^ p) with
    | .table i sub => ⟨p, clearLow a p, i⟩ :: (way ps sub (a % 2 ^ p)).map fun x =>
      x.moved (clearLow a p)
    | _ => []

theorem mem_way_table {i : ι} {sub : Tree ι} (h : T (a / 2 ^ p) = .table i sub) :
    x ∈ way (p :: ps) T a ↔ x = ⟨p, clearLow a p, i⟩ ∨
      ∃ y ∈ way ps sub (a % 2 ^ p), y.moved (clearLow a p) = x := by
  rw [way, h]
  simp

/-- What is known of the next level, for the way within a block. -/
theorem mem_way_iff_of_below (hl : Levels (p :: ps)) (ha : a < N * 2 ^ p)
    (hbelow : ∀ sub : Tree ι, ∀ y, y ∈ way ps sub (a % 2 ^ p) ↔
      y ∈ spots ps 512 sub ∧ y.start ≤ a % 2 ^ p ∧ a % 2 ^ p < y.start + 2 ^ y.log2) :
    x ∈ way (p :: ps) T a ↔ x ∈ spots (p :: ps) N T ∧ x.start ≤ a ∧ a < x.start + 2 ^ x.log2 := by
  have hj : a / 2 ^ p < N := (Nat.div_lt_iff_lt_mul (Nat.two_pow_pos p)).mpr ha
  have hlt := lt_clearLow_add (a := a) (n := p)
  have hmod := clearLow_add_mod (a := a) (n := p)
  have hslot : x ∈ spots (p :: ps) N T ∧ x.start ≤ a ∧ a < x.start + 2 ^ x.log2 ↔
      x ∈ slotSpots p (spots ps 512) (a / 2 ^ p) (T (a / 2 ^ p)) ∧ x.start ≤ a ∧
        a < x.start + 2 ^ x.log2 := by
    refine and_congr_left fun ⟨h₁, h₂⟩ => ⟨fun hx => ?_, fun hx => mem_spots.mpr ⟨_, hj, hx⟩⟩
    obtain ⟨k, hk, hx⟩ := mem_spots.mp hx
    obtain ⟨h₃, h₄⟩ := slotSpots_within hl hx
    obtain rfl : a / 2 ^ p = k :=
      Nat.div_eq_of_lt_le (by omega) (by rw [Nat.add_one_mul]; omega)
    exact hx
  rw [hslot]
  cases hT : T (a / 2 ^ p) with
  | empty => simp [way, hT, slotSpots]
  | page y => simp [way, hT, slotSpots]
  | table i sub =>
    rw [mem_way_table hT, mem_slotSpots_table, ← clearLow_eq]
    constructor
    · rintro (rfl | ⟨y, hy, rfl⟩)
      · exact ⟨.inl rfl, clearLow_le, hlt⟩
      · obtain ⟨h₁, h₂, h₃⟩ := (hbelow sub y).mp hy
        dsimp only [Spot.moved]
        exact ⟨.inr ⟨y, h₁, rfl⟩, by omega, by omega⟩
    · rintro ⟨rfl | ⟨y, hy, rfl⟩, h₂, h₃⟩
      · exact .inl rfl
      · dsimp only [Spot.moved] at h₂ h₃
        exact .inr ⟨y, (hbelow sub y).mpr ⟨hy, by omega, by omega⟩, rfl⟩

/-- They are those whose blocks contain the address. -/
theorem mem_way_iff (hl : Levels (p :: ps)) (ha : a < N * 2 ^ p) :
    x ∈ way (p :: ps) T a ↔
      x ∈ spots (p :: ps) N T ∧ x.start ≤ a ∧ a < x.start + 2 ^ x.log2 := by
  generalize hqs : p :: ps = qs at hl
  induction hl generalizing p ps N T a x with
  | last =>
    obtain ⟨rfl, rfl⟩ := List.cons.inj hqs
    exact mem_way_iff_of_below .last ha fun sub y => by simp [way, spots]
  | @above q qs hl hq ih =>
    obtain ⟨rfl, rfl⟩ := List.cons.inj hqs
    have hab : Levels ((q + 9) :: q :: qs) := .above hl hq
    refine mem_way_iff_of_below hab ha fun sub y => ih ?_ rfl
    rw [hab.block]
    exact Nat.mod_lt _ (Nat.two_pow_pos _)

/-- Each table of a tree is on the way to the first address of its block. -/
theorem mem_way_start (hl : Levels (p :: ps)) (hx : x ∈ spots (p :: ps) N T) :
    x.start < N * 2 ^ p ∧ x ∈ way (p :: ps) T x.start := by
  obtain ⟨k, hk, hslot⟩ := mem_spots.mp hx
  obtain ⟨-, h₂⟩ := slotSpots_within hl hslot
  have hle := Nat.mul_le_mul_right (2 ^ p) hk
  rw [Nat.succ_mul] at hle
  have hpos := Nat.two_pow_pos x.log2
  have hlt : x.start < N * 2 ^ p := by omega
  exact ⟨hlt, (mem_way_iff hl hlt).mpr ⟨hx, le_rfl, by omega⟩⟩

end Way

end Genode.Hw
