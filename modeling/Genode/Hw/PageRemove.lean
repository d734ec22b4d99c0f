import Genode.Hw.PageInsert

/-!
# PageRemove — removing translations

A removal takes the pages that overlap a range of addresses, and gives back
the tables that are empty then. A page at the edge of the range goes as a
whole. All other pages stay, and so do the tables that lead to them.
-/

namespace Genode.Hw

open Lib Util
open Base (Md)
open CommonDescriptor (present clearMmuFlags)
open BaseDescriptor (mapsPage)

variable {n : Nat} {μ : Type} {A : TableArray n} {D : Md (Fin n) μ}

/-- The page has an address in common with the range. -/
def Page.Overlaps (x : Page) (v sz : Nat) : Prop :=
  x.start < v + sz ∧ v < x.start + 2 ^ x.log2 ∧ 0 < sz

instance (x : Page) (v sz : Nat) : Decidable (x.Overlaps v sz) := inferInstanceAs (Decidable (_ ∧ _))

/-- What a removal leaves of an address. -/
def leave (v sz : Nat) (o : Option Page) : Option Page := o.filter fun x => ¬ x.Overlaps v sz

theorem leave_eq_self {v sz : Nat} {o : Option Page} (h : ∀ x, o = some x → ¬ x.Overlaps v sz) :
    leave v sz o = o := by
  cases o with
  | none => rfl
  | some x => simp [leave, h x rfl]

theorem leave_eq_none {v sz : Nat} {o : Option Page} (h : ∀ x, o = some x → x.Overlaps v sz) :
    leave v sz o = none := by
  cases o with
  | none => rfl
  | some x => simp [leave, h x rfl]

/-- The same removal, seen from the table above. -/
theorem leave_moved {c v : Nat} (sz : Nat) (h : c ≤ v) (o : Option Page) :
    leave v sz (o.map fun x => x.moved c) = (leave (v - c) sz o).map fun x => x.moved c := by
  cases o with
  | none => rfl
  | some x =>
    have hiff : (x.moved c).Overlaps v sz ↔ x.Overlaps (v - c) sz := by
      unfold Page.Overlaps Page.moved
      dsimp only
      omega
    by_cases hx : x.Overlaps (v - c) sz
    · simp [leave, Option.filter_some, hx, hiff.mpr hx]
    · have hx' : ¬ (x.moved c).Overlaps v sz := fun h => hx (hiff.mp h)
      simp [leave, Option.filter_some, hx, hx']

/-- Two removals, one after the other. -/
theorem leave_leave {u v sz : Nat} (hu : u ≤ v) (hsz : 0 < sz) (o : Option Page) :
    leave v sz (leave u (v - u) o) = leave u (v + sz - u) o := by
  unfold leave
  rw [Option.filter_filter]
  congr 1
  funext x
  have hlog := Nat.two_pow_pos x.log2
  rw [← Bool.decide_and]
  refine decide_eq_decide.mpr ?_
  unfold Page.Overlaps
  omega

/-- Another block ends before the block of an address, or begins after it. -/
theorem block_apart {a p k : Nat} (hk : k ≠ a / 2 ^ p) :
    (k + 1) * 2 ^ p ≤ clearLow a p ∨ clearLow a p + 2 ^ p ≤ k * 2 ^ p := by
  rw [clearLow_eq, ← Nat.add_one_mul]
  rcases Nat.lt_or_gt_of_ne hk with hlt | hlt
  · exact .inl (Nat.mul_le_mul_right _ hlt)
  · exact .inr (Nat.mul_le_mul_right _ hlt)

theorem clearLow_le_block {a p k : Nat} (h : a < (k + 1) * 2 ^ p) : clearLow a p ≤ k * 2 ^ p := by
  rw [clearLow_eq]
  refine Nat.mul_le_mul_right _ (Nat.lt_add_one_iff.mp ?_)
  rwa [Nat.div_lt_iff_lt_mul (Nat.two_pow_pos p)]

/-- What the removal of a range does to a table and the tables below. -/
structure Removed (A : TableArray n) (D : Md (Fin n) μ) (ps : List Nat) (N : Nat)
    (t : Option (Fin n)) (v sz : Nat) (s : PageTables n μ) (T : Tree (Fin n)) (s' : PageTables n μ)
    (T' : Tree (Fin n)) : Prop where
  holds : Holds A D s' ps N t T'
  shrinks : ∀ x ∈ spots ps N T', x ∈ spots ps N T
  gone : ∀ x ∈ spots ps N T', ¬ x.Within v sz
  taken : ∀ i, i ∈ D.taken s'.alloc ↔
    i ∈ D.taken s.alloc ∧ (i ∈ names ps N T → i ∈ names ps N T')
  frame : ∀ q, q ≠ t → (∀ i, q = some i → i ∉ names ps N T) → s'.entries q = s.entries q
  others : ∀ j, N ≤ j → s'.entries t j = s.entries t j
  maps : ∀ a, look ps T' a = leave v sz (look ps T a)
  clear : ∀ j, T j = .empty ∨ v ≤ j * 2 ^ ps.headI ∧ (j + 1) * 2 ^ ps.headI ≤ v + sz → T' j = .empty
  filled : Filled ps N T → Filled ps N T'

section Compose

variable {p : Nat} {ps : List Nat} {N : Nat} {t : Option (Fin n)} {req : Request} {v sz : Nat}
  {s s₁ s₂ : PageTables n μ} {T T₁ T₂ : Tree (Fin n)}

/-- Nothing is left to be removed. -/
theorem Removed.none (h : Holds A D s (p :: ps) N t T) : Removed A D (p :: ps) N t v 0 s T s T := by
  have hpos := fun q => Nat.two_pow_pos q
  refine ⟨h, fun _ hx => hx, fun x _ hw => ?_, fun i => ⟨fun hi => ⟨hi, id⟩, And.left⟩,
    fun _ _ _ => rfl, fun _ _ => rfl, fun a => ?_, fun j hj => ?_, id⟩
  · have := hpos x.log2
    have := hw.1
    have := hw.2
    omega
  · exact (leave_eq_self fun x _ hx => absurd hx.2.2 (lt_irrefl 0)).symm
  · rcases hj with hj | ⟨h₁, h₂⟩
    · exact hj
    · have := hpos p
      rw [List.headI_cons] at h₁ h₂
      rw [Nat.add_one_mul] at h₂
      omega

theorem Removed.of_mem_names (h : Removed A D ps N t v sz s T s₁ T₁) {i : Fin n}
    (hi : i ∈ names ps N T₁) : i ∈ names ps N T := by
  obtain ⟨x, hx, rfl⟩ := mem_names_iff.mp hi
  exact mem_names_iff.mpr ⟨x, h.shrinks x hx, rfl⟩

/-- One part after the other. -/
theorem Removed.trans (hl : Levels (p :: ps)) (hpart : req.Part p v sz)
    (h₁ : Removed A D (p :: ps) N t req.start (v - req.start) s T s₁ T₁)
    (h₂ : Removed A D (p :: ps) N t v sz s₁ T₁ s₂ T₂) :
    Removed A D (p :: ps) N t req.start (v + sz - req.start) s T s₂ T₂ := by
  have hfrom := hpart.from_start
  have hpos := hpart.pos
  have hfirst := hpart.first
  have hin := hpart.within
  have hvle := clearLow_le (a := v) (n := p)
  refine ⟨h₂.holds, fun x hx => h₁.shrinks x (h₂.shrinks x hx), fun x hx hw => ?_, fun i => ?_,
    fun q hq hi => ?_, fun j hj => (h₂.others j hj).trans (h₁.others j hj), fun a => ?_,
    fun j hj => ?_, fun hf => h₂.filled (h₁.filled hf)⟩
  · have hno₁ := h₁.gone x (h₂.shrinks x hx)
    have hno₂ := h₂.gone x hx
    obtain ⟨k, -, hk⟩ := mem_spots.mp hx
    obtain ⟨hk₁, hk₂⟩ := slotSpots_within hl hk
    obtain ⟨hw₁, hw₂⟩ := hw
    have hlog := Nat.two_pow_pos x.log2
    unfold Spot.Within at hno₁ hno₂
    -- the table is for addresses of this block
    have hkv : clearLow v p ≤ k * 2 ^ p := clearLow_le_block (by rw [Nat.add_one_mul]; omega)
    omega
  · rw [h₂.taken, h₁.taken]
    constructor
    · rintro ⟨⟨hi, h₃⟩, h₄⟩
      exact ⟨hi, fun hn => h₄ (h₃ hn)⟩
    · rintro ⟨hi, h₃⟩
      exact ⟨⟨hi, fun hn => h₂.of_mem_names (h₃ hn)⟩, fun hn => h₃ (h₁.of_mem_names hn)⟩
  · rw [h₂.frame q hq fun i hqi hn => hi i hqi (h₁.of_mem_names hn), h₁.frame q hq hi]
  · rw [h₂.maps, h₁.maps, leave_leave hfrom hpos]
  · rw [List.headI_cons] at hj
    by_cases hT : T₁ j = .empty
    · exact h₂.clear j (.inl hT)
    · have hno : ¬ (T j = .empty ∨ req.start ≤ j * 2 ^ p ∧ (j + 1) * 2 ^ p ≤ req.start +
        (v - req.start)) := fun hc => hT (h₁.clear j hc)
      rw [not_or] at hno
      obtain ⟨hj₁, hj₂⟩ := hj.resolve_left hno.1
      have hjv : clearLow v p ≤ j * 2 ^ p := clearLow_le_block (by have := hno.2; omega)
      refine h₂.clear j (.inr ?_)
      rw [List.headI_cons]
      omega

/-- What has to be shown if a single entry changes. -/
theorem Removed.of_slot (hl : Levels (p :: ps)) (h : Holds A D s (p :: ps) N t T)
    (hpart : req.Part p v sz) (hj : v / 2 ^ p < N) {S : Slot (Fin n)}
    (hholds : Holds A D s₁ (p :: ps) N t (Function.update T (v / 2 ^ p) S))
    (hspots : ∀ x ∈ slotSpots p (spots ps 512) (v / 2 ^ p) S,
      x ∈ slotSpots p (spots ps 512) (v / 2 ^ p) (T (v / 2 ^ p)) ∧ ¬ x.Within v sz)
    (htaken : ∀ i, i ∈ D.taken s₁.alloc ↔
      i ∈ D.taken s.alloc ∧ (i ∈ slotNames ps (T (v / 2 ^ p)) → i ∈ slotNames ps S))
    (hframe : ∀ q, q ≠ t → (∀ i, q = some i → i ∉ slotNames ps (T (v / 2 ^ p))) →
      s₁.entries q = s.entries q)
    (hroot : ∀ k, k ≠ v / 2 ^ p → s₁.entries t k = s.entries t k)
    (hlook : ∀ a, a / 2 ^ p = v / 2 ^ p →
      look (p :: ps) (Function.update T (v / 2 ^ p) S) a = leave v sz (look (p :: ps) T a))
    (hclear : T (v / 2 ^ p) = .empty ∨ v = clearLow v p ∧ sz = 2 ^ p → S = .empty)
    (hfilled : Filled (p :: ps) N T → ∀ i sub, S = .table i sub →
      (∃ k < 512, sub k ≠ .empty) ∧ Filled ps 512 sub) :
    Removed A D (p :: ps) N t v sz s T s₁ (Function.update T (v / 2 ^ p) S) := by
  have hpos := hpart.pos
  have hin := hpart.within
  have hvle := clearLow_le (a := v) (n := p)
  have hmem : ∀ i, i ∈ slotNames ps (T (v / 2 ^ p)) → i ∈ names (p :: ps) N T :=
    fun i hi => mem_names.mpr ⟨_, hj, hi⟩
  refine ⟨hholds, fun x hx => ?_, fun x hx hw => ?_, fun i => ?_, fun q hq hi => ?_,
    fun k hk => hroot k (by omega), fun a => ?_, fun k hk => ?_, fun hf => hf.update (hfilled hf)⟩
  · rcases (mem_spots_update hj).mp hx with hx | ⟨k, hk, -, hx⟩
    · exact mem_spots.mpr ⟨_, hj, (hspots x hx).1⟩
    · exact mem_spots.mpr ⟨k, hk, hx⟩
  · rcases (mem_spots_update hj).mp hx with hx | ⟨k, -, hkj, hx⟩
    · exact (hspots x hx).2 hw
    · obtain ⟨h₁, h₂⟩ := slotSpots_within hl hx
      obtain ⟨h₃, h₄⟩ := hw
      have := block_apart hkj
      rw [Nat.add_one_mul] at this
      have := Nat.two_pow_pos x.log2
      omega
  · rw [htaken]
    refine and_congr_right fun _ => ⟨fun hi hn => ?_, fun hi hn => ?_⟩
    · rcases mem_names.mp hn with ⟨k, hk, hn⟩
      by_cases hkj : k = v / 2 ^ p
      · exact (mem_names_update hj).mpr (.inl (hi (hkj ▸ hn)))
      · exact (mem_names_update hj).mpr (.inr ⟨k, hk, hkj, hn⟩)
    · rcases (mem_names_update hj).mp (hi (hmem i hn)) with hS | ⟨k, hk, hkj, hk'⟩
      · exact hS
      · exact absurd hn ((nodup_names.mp h.nodup).2 k hk _ hj hkj i hk')
  · exact hframe q hq fun i hqi hn => hi i hqi (hmem i hn)
  · by_cases ha : a / 2 ^ p = v / 2 ^ p
    · exact hlook a ha
    · rw [look_update_of_ne ha]
      refine (leave_eq_self fun x hx ho => ?_).symm
      obtain ⟨h₁, h₂⟩ := overlaps_of_look hl hx
      obtain ⟨h₃, h₄, -⟩ := ho
      have := block_apart ha
      rw [Nat.add_one_mul, ← clearLow_eq] at this
      omega
  · rw [List.headI_cons] at hk
    by_cases hkj : k = v / 2 ^ p
    · subst hkj
      rw [Function.update_self]
      refine hclear (hk.imp_right fun hc => ?_)
      rw [Nat.add_one_mul, ← clearLow_eq] at hc
      omega
    · rw [Function.update_of_ne hkj]
      refine hk.elim id fun hc => ?_
      have := block_apart hkj
      have hpos := Nat.two_pow_pos p
      rw [Nat.add_one_mul] at this hc
      omega

/-- An entry without tables is cleared. -/
theorem Removed.of_clear (hl : Levels (p :: ps)) (h : Holds A D s (p :: ps) N t T)
    (hpart : req.Part p v sz) (hj : v / 2 ^ p < N) (hT : ∀ i sub, T (v / 2 ^ p) ≠ .table i sub)
    (hholds : Holds A D s₁ (p :: ps) N t (Function.update T (v / 2 ^ p) .empty))
    (halloc : s₁.alloc = s.alloc) (hframe : ∀ q, q ≠ t → s₁.entries q = s.entries q)
    (hroot : ∀ k, k ≠ v / 2 ^ p → s₁.entries t k = s.entries t k) :
    Removed A D (p :: ps) N t v sz s T s₁ (Function.update T (v / 2 ^ p) .empty) := by
  have hpos := hpart.pos
  have hin := hpart.within
  have hvle := clearLow_le (a := v) (n := p)
  have hvlt := lt_clearLow_add (a := v) (n := p)
  have hnames : slotNames ps (T (v / 2 ^ p)) = [] := by
    cases hS : T (v / 2 ^ p) with
    | empty => rfl
    | page x => rfl
    | table i sub => exact absurd hS (hT i sub)
  refine .of_slot hl h hpart hj hholds (fun x hx => by cases hx) (fun i => ?_)
    (fun q hq _ => hframe q hq) hroot (fun a ha => ?_) (fun _ => rfl) fun _ i sub hS => by cases hS
  · rw [halloc, hnames]
    exact ⟨fun hi => ⟨hi, fun hn => (by cases hn)⟩, And.left⟩
  · rw [look_empty (by rw [ha, Function.update_self])]
    refine (leave_eq_none fun x hx => ?_).symm
    cases hS : T (v / 2 ^ p) with
    | empty =>
      rw [look_empty (by rw [ha, hS])] at hx
      cases hx
    | page y =>
      rw [look_page (by rw [ha, hS])] at hx
      cases hx
      have hcl : clearLow a p = clearLow v p := by rw [clearLow_eq, clearLow_eq, ha]
      exact ⟨by dsimp only; omega, by dsimp only; omega, hpos⟩
    | table i sub => exact absurd hS (hT i sub)

end Compose

/-! ## A table of the next level -/

theorem names_of_empty {ps : List Nat} {N : Nat} {T : Tree (Fin n)} (h : ∀ k < N, T k = .empty) :
    names ps N T = [] := by
  cases ps with
  | nil => rfl
  | cons p ps =>
    rw [names_cons, List.flatMap_eq_nil_iff]
    intro k hk
    rw [h k (List.mem_range.mp hk)]
    rfl

section Below

variable {p q : Nat} {ps : List Nat} {N : Nat} {t : Option (Fin n)} {req : Request} {v sz : Nat}
  {s s₁ s₂ : PageTables n μ} {T sub sub' : Tree (Fin n)} {i : Fin n}
  (hl : Levels (p :: q :: ps)) (h : Holds A D s (p :: q :: ps) N t T) (hpart : req.Part p v sz)
  (hj : v / 2 ^ p < N) (hT : T (v / 2 ^ p) = .table i sub)
  (hsub : Removed A D (q :: ps) 512 (some i) (v - clearLow v p) sz s sub s₁ sub')
include h hj hT hsub

/-- The table above is not touched. -/
theorem Removed.root_after : s₁.entries t = s.entries t :=
  hsub.frame t ((h.linked hj hT).ne hj) fun k hk hm =>
    h.self k hk ((h.linked hj hT).mem_old hj hm)

/-- Nor are the tables of other entries. -/
theorem Removed.other_after {k : Nat} (hk : k < N) (hkj : k ≠ v / 2 ^ p) {x : Fin n}
    (hx : x ∈ slotNames (q :: ps) (T k)) :
    s₁.entries (some x) = s.entries (some x) ∧ x ∈ D.taken s₁.alloc ∧ x ≠ i ∧
      x ∉ names (q :: ps) 512 sub := by
  obtain ⟨h₁, h₂, h₃⟩ := (h.linked hj hT).other hj hk hkj hx
  refine ⟨hsub.frame (some x) (by simpa using h₂) ?_, (hsub.taken x).mpr ⟨h₁, fun hm => ?_⟩, h₂, h₃⟩
  · rintro y ⟨⟩
    exact h₃
  · exact absurd hm h₃

omit h hj in
/-- What is left below is what is left here. -/
theorem Removed.maps_after {a : Nat} (ha : a / 2 ^ p = v / 2 ^ p) :
    ((look (q :: ps) sub' (a % 2 ^ p)).map fun x => x.moved (clearLow a p)) =
      leave v sz (look (p :: q :: ps) T a) := by
  have hcl : clearLow a p = clearLow v p := by rw [clearLow_eq, clearLow_eq, ha]
  have hTa : T (a / 2 ^ p) = .table i sub := by rw [ha, hT]
  rw [look_table hTa, hsub.maps, hcl, leave_moved sz clearLow_le]

omit h hj hT in
include hl in
/-- A table that is within the range is left without entries. -/
theorem Removed.clear_after (hv : v = clearLow v p) (hsz : sz = 2 ^ p) {k : Nat} (hk : k < 512) :
    sub' k = .empty := by
  have hword := hl.block
  have hle : (k + 1) * 2 ^ q ≤ 512 * 2 ^ q := Nat.mul_le_mul_right _ hk
  refine hsub.clear k (.inr ?_)
  rw [List.headI_cons]
  omega

include hl hpart in
/-- A table with entries stays. -/
theorem Removed.kept (hne : ∃ k < 512, sub' k ≠ .empty) :
    Removed A D (p :: q :: ps) N t v sz s T s₁ (Function.update T (v / 2 ^ p) (.table i sub')) := by
  have hroot := hsub.root_after h hj hT
  have hlink := h.linked hj hT
  have hti := hlink.ne hj
  have hslot := h.repr _ hj
  rw [hT] at hslot
  have hifree : i ∉ names (q :: ps) 512 sub' := hsub.holds.self i rfl
  have hmem : ∀ x ∈ slotNames (q :: ps) (.table i sub'), x = i ∨ x ∈ names (q :: ps) 512 sub :=
    fun x hx => (List.mem_cons.mp hx).imp_right hsub.of_mem_names
  have hheld : ∀ k, t = some k → k ∈ D.taken s₁.alloc := fun k hk =>
    (hsub.taken k).mpr ⟨h.own k hk, fun hm => absurd (hlink.mem_old hj hm) (h.self k hk)⟩
  have hstays : ¬ (v = clearLow v p ∧ sz = 2 ^ p) := by
    rintro ⟨hv, hsz⟩
    obtain ⟨k, hk, hne⟩ := hne
    exact hne (hsub.clear_after hl hv hsz hk)
  refine .of_slot hl h hpart hj ?_ (fun x hx => ?_) (fun k => ?_) (fun x hx hk => ?_)
    (fun k _ => by rw [hroot]) (fun a ha => ?_) (fun hc => ?_) fun hf k sub'' he => ?_
  · refine h.update ⟨hslot.1, by rw [hroot]; exact hslot.2.1, hsub.holds.repr⟩
      (fun k _ _ => by rw [hroot]) (fun k hk hkj x hx => ?_) ?_ (fun k hk hm => ?_) hheld
      fun x hx => ?_
    · obtain ⟨h₁, h₂, h₃, h₄⟩ := hsub.other_after h hj hT hk hkj hx
      exact ⟨h₁, h₂, fun hm => (hmem x hm).elim h₃ h₄⟩
    · exact List.nodup_cons.mpr ⟨hifree, hsub.holds.nodup⟩
    · rcases hmem k hm with hki | hm
      · exact hti (hki ▸ hk)
      · exact h.self k hk (hlink.mem_old hj hm)
    · rcases List.mem_cons.mp hx with rfl | hx
      · exact hsub.holds.own x rfl
      · exact hsub.holds.taken x hx
  · rw [hT, mem_slotSpots_table]
    rcases mem_slotSpots_table.mp hx with rfl | ⟨y, hy, rfl⟩
    · refine ⟨.inl rfl, fun hw => hstays ?_⟩
      have h₁ := hpart.within
      have h₂ := clearLow_le (a := v) (n := p)
      obtain ⟨h₃, h₄⟩ := hw
      dsimp only at h₃ h₄
      rw [← clearLow_eq] at h₃ h₄
      omega
    · refine ⟨.inr ⟨y, hsub.shrinks y hy, rfl⟩, fun hw => hsub.gone y hy ?_⟩
      have h₂ := clearLow_le (a := v) (n := p)
      obtain ⟨h₃, h₄⟩ := hw
      dsimp only [Spot.moved] at h₃ h₄
      rw [← clearLow_eq] at h₃ h₄
      exact ⟨by omega, by omega⟩
  · rw [hsub.taken, hT]
    refine and_congr_right fun _ => ⟨fun hi hm => ?_, fun hi hm => ?_⟩
    · exact List.mem_cons.mpr ((List.mem_cons.mp hm).imp_right hi)
    · rcases List.mem_cons.mp (hi (List.mem_cons_of_mem _ hm)) with hki | hm'
      · exact absurd (hki ▸ hm) ((h.sub hj hT).self i rfl)
      · exact hm'
  · rw [hT] at hk
    exact hsub.frame x (fun he => hk i he (List.mem_cons_self ..)) fun k hxk hm =>
      hk k hxk (List.mem_cons_of_mem _ hm)
  · rw [look_update_table ha, hsub.maps_after hT ha]
  · rcases hc with hc | hc
    · rw [hT] at hc
      cases hc
    · exact absurd hc hstays
  · obtain ⟨rfl, rfl⟩ : i = k ∧ sub' = sub'' := by simpa using he
    exact ⟨hne, hsub.filled (hf _ hj i sub hT).2⟩

include hl hpart in
/-- A table without entries is given back. -/
theorem Removed.freed (hempty : ∀ k < 512, sub' k = .empty)
    (htaken : D.taken s₂.alloc = (D.taken s₁.alloc).erase i)
    (hzero : s₂.entries t (v / 2 ^ p) = 0)
    (hframe : ∀ x, x ≠ t → s₂.entries x = s₁.entries x)
    (hentries : ∀ k, k ≠ v / 2 ^ p → s₂.entries t k = s₁.entries t k) :
    Removed A D (p :: q :: ps) N t v sz s T s₂ (Function.update T (v / 2 ^ p) .empty) := by
  have hroot := hsub.root_after h hj hT
  have hlink := h.linked hj hT
  have hti := hlink.ne hj
  have hnone : names (q :: ps) 512 sub' = [] := names_of_empty hempty
  have hroot' : ∀ k, k ≠ v / 2 ^ p → s₂.entries t k = s.entries t k := fun k hk => by
    rw [hentries k hk, hroot]
  refine .of_slot hl h hpart hj ?_ (fun x hx => by cases hx) (fun k => ?_) (fun x hx hk => ?_) hroot'
    (fun a ha => ?_) (fun _ => rfl) fun _ k sub'' he => by cases he
  · refine h.update hzero (fun k _ hk => hroot' k hk) (fun k hk hkj x hx => ?_) List.nodup_nil
      (fun k _ hm => by cases hm) (fun k hk => ?_) fun k hm => by cases hm
    · obtain ⟨h₁, h₂, h₃, h₄⟩ := hsub.other_after h hj hT hk hkj hx
      refine ⟨?_, ?_, List.not_mem_nil⟩
      · rw [hframe, h₁]
        exact fun ht => h.self x ht.symm (mem_names.mpr ⟨k, hk, hx⟩)
      · rw [htaken]
        exact Finset.mem_erase.mpr ⟨h₃, h₂⟩
    · rw [htaken, Finset.mem_erase, hsub.taken]
      exact ⟨fun hki => hti (hki ▸ hk), h.own k hk, fun hm =>
        absurd (hlink.mem_old hj hm) (h.self k hk)⟩
  · rw [htaken, Finset.mem_erase, hsub.taken, hT, hnone]
    constructor
    · rintro ⟨h₁, h₂, h₃⟩
      exact ⟨h₂, fun hm => (List.mem_cons.mp hm).elim (fun hk => absurd hk h₁) h₃⟩
    · rintro ⟨h₁, h₂⟩
      exact ⟨fun hk => (by cases h₂ (hk ▸ List.mem_cons_self ..)), h₁, fun hm =>
        h₂ (List.mem_cons_of_mem _ hm)⟩
  · rw [hT] at hk
    rw [hframe x hx]
    exact hsub.frame x (fun he => hk i he (List.mem_cons_self ..)) fun k hxk hm =>
      hk k hxk (List.mem_cons_of_mem _ hm)
  · have hlt := hl.index_lt (Nat.mod_lt a (Nat.two_pow_pos p))
    rw [look_empty (by rw [ha, Function.update_self]), ← hsub.maps_after hT ha,
      look_empty (hempty _ hlt), Option.map_none]

end Below

end Genode.Hw
