import Genode.Hw.PageInsert

/-!
# PageInsertLevels — `insert_translation` on all levels

What was said about insertions is shown for the code here, from the lowest
level to the root: for a part of a range within an entry, for the loop over
these parts, and for a table given that the tables of the next level do it
right.
-/

namespace Genode.Hw

open Lib Util
open Base (Md)
open CommonDescriptor (present clearMmuFlags)
open BaseDescriptor (mapsPage)

variable {n : Nat} {μ : Type} (A : TableArray n) (D : Md (Fin n) μ)

/-- `insert_translation` of a table with `N` entries does what it should. -/
def Inserts (N : Nat) (ps : List Nat) (E : Table n μ) : Prop :=
  ∀ s t T flags vo addr size, Holds A D s ps N t T → vo + size ≤ N * 2 ^ ps.headI →
    addr + size ≤ 2 ^ 48 →
    ∃ r s' T', E.insertTranslation t vo addr size flags s = .ok (r, s') ∧
      Inserted A D ps N t ⟨vo, size, addr, flags.attr⟩ vo size s T r s' T'

variable {A D} {p q : Nat} {ps : List Nat} {N : Nat} {t : Option (Fin n)} {req : Request}
  {v sz : Nat} {s : PageTables n μ} {T : Tree (Fin n)}

/-! ## The loop -/

/-- An insertion that failed within a part of the range. -/
theorem Inserted.widen {e : TableError} {s' : PageTables n μ} {T' : Tree (Fin n)} {size : Nat}
    (h : Inserted A D ps N t req v sz s T (.error e) s' T') (hle : sz ≤ size) :
    Inserted A D ps N t req v size s T (.error e) s' T' := by
  obtain ⟨m, hm, hadds, -⟩ := h.adds
  refine ⟨h.holds, h.grows, fun x hx => ?_, h.taken, h.frame, h.others, h.kept,
    ⟨m, by omega, hadds, fun hr => (by cases hr)⟩, h.filled, h.invalid, fun hr => ?_, h.out⟩
  · exact (h.new x hx).imp_right fun ⟨h₁, h₂⟩ => ⟨by omega, h₂⟩
  · rcases h.double hr with ⟨a, x, h₁, h₂, h₃⟩ | ⟨hf, q, hq, h12, a, h₁, h₂, h₃⟩
    · exact .inl ⟨a, x, h₁, by omega, h₃⟩
    · exact .inr ⟨hf, q, hq, h12, a, h₁, by omega, h₃⟩

/-- Part by part, the whole range is inserted. -/
theorem rangeOp_inserted (req : Request) (hp : p < 64) {index : Nat → Nat}
    {func : Nat → Nat → Nat → Nat → PageTables n μ → Outcome n μ}
    (hstop : req.start + req.size ≤ 2 ^ 64) (haddr : req.addr + req.size ≤ 2 ^ 48)
    (hidx : ∀ v, req.start ≤ v → v < req.start + req.size → index v < 512)
    (hfunc : ∀ v sz s T, req.Part p v sz → Holds A D s ps N t T →
      ∃ r s' T', func v (req.addr + (v - req.start)) sz (index v) s = .ok (r, s') ∧
        Inserted A D ps N t req v sz s T r s' T')
    (h : Holds A D s ps N t T) :
    ∃ r s' T', rangeOp p index func (req.size + 1) req.start req.addr req.size s = .ok (r, s') ∧
      Inserted A D ps N t req req.start req.size s T r s' T' := by
  let P := fun v s' => ∃ T', req.start ≤ v ∧
    Inserted A D ps N t req req.start (v - req.start) s T (.ok ()) s' T'
  let Q := fun e s' => ∃ T', Inserted A D ps N t req req.start req.size s T (.error e) s' T'
  have hstart : P req.start s := by
    refine ⟨T, le_rfl, ?_⟩
    rw [Nat.sub_self]
    exact .none h (fun _ => rfl) (fun hr => (by cases hr)) (fun hr => (by cases hr))
      fun hr => (by cases hr)
  have hstep : ∀ v sz s, req.Part p v sz → P v s →
      ∃ r s', func v (req.addr + (v - req.start)) sz (index v) s = .ok (r, s') ∧
        (r = .ok () → P (v + sz) s') ∧ ∀ e, r = .error e → Q e s' := by
    rintro v sz s₁ hpart ⟨T₁, hv, h₁⟩
    obtain ⟨r, s₂, T₂, hr, h₂⟩ := hfunc v sz s₁ T₁ hpart h₁.holds
    have hto := hpart.to_stop
    rw [← Nat.add_sub_cancel' hv] at h₂
    have hsum := h₁.trans h₂
    refine ⟨r, s₂, hr, fun hok => ⟨T₂, by omega, ?_⟩, fun e he => ⟨T₂, ?_⟩⟩
    · rw [hok] at hsum
      rwa [show v + sz - req.start = v - req.start + sz by omega]
    · rw [he] at hsum
      exact hsum.widen (by omega)
  obtain ⟨r, s', hr, hok, herr⟩ := rangeOp_spec hp hstop (by omega) hidx hstep le_rfl
    (Nat.le_add_right _ _) (.inl rfl)
    (show req.start + req.size - req.start < req.size + 1 by omega) hstart
  rw [Nat.sub_self, Nat.add_zero, Nat.add_sub_cancel_left] at hr
  cases r with
  | ok u =>
    obtain ⟨T', -, hT'⟩ := hok rfl
    rw [Nat.add_sub_cancel_left] at hT'
    exact ⟨.ok (), s', T', hr, hT'⟩
  | error e =>
    obtain ⟨T', hT'⟩ := herr e rfl
    exact ⟨.error e, s', T', hr, hT'⟩

/-! ## A part that needs the next level -/

section Below

variable {E : Table n μ} {create : Nat → Nat} {paField : Bitfield 64} {flags : PageFlags}

/-- The table is created. -/
theorem Holds.linked_new (hl : Levels (p :: q :: ps)) (h : Holds A D s (p :: q :: ps) N t T)
    {j : Nat} (hT : T j = .empty) {i : Fin n} {m : μ} (htake : D.take s.alloc = (.ok i, m))
    (hcreate : Refers A (create (A.physAddr i)) i) :
    Linked A D p (q :: ps) N t j s T i bare
      ((PageTables.clearTable { s with alloc := m } (some i)).setEntry t j
        (create (A.physAddr i))) := by
  obtain ⟨hfree, htaken⟩ := D.take_ok _ _ _ htake
  generalize hs₁ : (PageTables.clearTable { s with alloc := m } (some i)).setEntry t j
    (create (A.physAddr i)) = s₁
  have hti : t ≠ some i := fun hti => hfree (h.own i hti)
  have halloc : D.taken s₁.alloc = insert i (D.taken s.alloc) := by
    rw [← htaken, ← hs₁]
    rfl
  have hentry : s₁.entries t j = create (A.physAddr i) := by
    rw [← hs₁]
    exact setEntry_self ..
  have hother : ∀ x, x ≠ t → x ≠ some i → s₁.entries x = s.entries x := by
    intro x hx hxi
    rw [← hs₁, setEntry_other _ _ _ hx]
    exact Function.update_of_ne hxi _ _
  have hroot : ∀ k, k ≠ j → s₁.entries t k = s.entries t k := by
    intro k hk
    rw [← hs₁, setEntry_of_ne _ _ _ hk]
    exact congrFun (Function.update_of_ne hti _ _) k
  have hnew : ∀ k, s₁.entries (some i) k = 0 := by
    intro k
    rw [← hs₁, setEntry_other _ _ _ hti.symm]
    simp [PageTables.clearTable]
  have hmem : ∀ k < N, ∀ x ∈ slotNames (q :: ps) (T k), x ∈ names (p :: q :: ps) N T :=
    fun k hk x hx => mem_names.mpr ⟨k, hk, hx⟩
  have hne : ∀ k < N, ∀ x ∈ slotNames (q :: ps) (T k), x ≠ i :=
    fun k hk x hx hxi => hfree (hxi ▸ h.taken x (hmem k hk x hx))
  refine ⟨?_, fun k => ?_, hother, hroot, .inr ⟨hT, rfl, hfree⟩⟩
  · refine h.update ⟨?_, ?_, Repr.bare fun k _ => hnew k⟩ (fun k _ hkj => hroot k hkj)
      (fun k hk _ x hx => ⟨?_, ?_, ?_⟩) ?_ (fun k hk => ?_) (fun k hk => ?_) fun k hk => ?_
    · have := hl.next
      have := hl.next.2.2.le
      omega
    · rwa [hentry]
    · exact hother _ (fun ht => h.self x ht.symm (hmem k hk x hx)) (by simpa using hne k hk x hx)
    · rw [halloc]
      exact Finset.mem_insert_of_mem (h.taken x (hmem k hk x hx))
    · simpa [slotNames, names_bare] using hne k hk x hx
    · simp [slotNames, names_bare]
    · simpa [slotNames, names_bare] using fun hki : k = i => hti (hki ▸ hk)
    · rw [halloc]
      exact Finset.mem_insert_of_mem (h.own k hk)
    · rw [halloc]
      rw [slotNames, names_bare, List.mem_singleton] at hk
      exact Finset.mem_insert.mpr (.inl hk)
  · rw [halloc, Finset.mem_insert, or_comm]

/-- `Insert_func` inserts into the table of the next level. -/
theorem insertBelow_inserted (hl : Levels (p :: q :: ps)) (hE : Inserts A D 512 (q :: ps) E)
    (h : Holds A D s (p :: q :: ps) N t T) (hpart : req.Part p v sz) (hj : v / 2 ^ p < N)
    (haddr : req.addr + req.size ≤ 2 ^ 48) (hno : ∀ a, v ≤ a → a < v + sz → ¬ req.Fits p a)
    (hflags : flags.attr = req.attr) (hnp : ∀ x, T (v / 2 ^ p) ≠ .page x)
    (hcreate : ∀ i, create (A.physAddr i) = TableDescriptor.create (A.physAddr i))
    (hlow : paField.shift = 12) (hhigh : 36 ≤ paField.width) (hwidth : paField.width ≤ 51) :
    ∃ r s' T', insertBelow A D E p create paField flags t v (req.addr + (v - req.start)) sz
        (v / 2 ^ p) s = .ok (r, s') ∧
      Inserted A D (p :: q :: ps) N t req v sz s T r s' T' := by
  have hin := hpart.within
  have hvle := clearLow_le (a := v) (n := p)
  have hfrom := hpart.from_start
  have hto := hpart.to_stop
  have hnext : ∀ s₁ i sub, Linked A D p (q :: ps) N t (v / 2 ^ p) s T i sub s₁ →
      ∃ r s' T', E.insertTranslation (some i) (v - clearLow v p) (req.addr + (v - req.start)) sz
          flags s₁ = .ok (r, s') ∧
        Inserted A D (p :: q :: ps) N t req v sz s T r s' T' := by
    intro s₁ i sub hlink
    have hsub := hlink.holds.sub hj (Function.update_self ..)
    obtain ⟨r, s', T', hr, hins⟩ := hE s₁ (some i) sub flags (v - clearLow v p)
      (req.addr + (v - req.start)) sz hsub (by rw [List.headI_cons, hl.block]; omega) (by omega)
    rw [hflags] at hins
    exact ⟨r, s', _, hr, hlink.inserted hl hj hpart hno hins⟩
  have hslot := h.repr (v / 2 ^ p) hj
  have hpr := hslot.present_iff hl
  unfold insertBelow
  cases hT : T (v / 2 ^ p) with
  | empty =>
    rw [if_neg fun hc => hpr.mp hc hT]
    unfold PageTables.construct
    rcases htake : D.take s.alloc with ⟨e | i, m⟩
    · have htaken := D.take_error _ _ _ htake
      dsimp only
      refine ⟨_, _, T, rfl, ⟨h.repr.congr (fun _ _ => .refl _) fun _ _ _ => .refl _, h.nodup, h.self,
        fun i hi => htaken ▸ h.own i hi, fun i hi => htaken ▸ h.taken i hi⟩, fun _ hx => hx,
        fun _ hx => .inl hx, fun i => ?_, fun _ _ _ => rfl, fun _ _ => rfl, fun _ hk => hk,
        ⟨0, Nat.zero_le _, .none req v T, fun hr => (by cases hr)⟩, fun _ hf => hf,
        fun hr => (by cases hr), fun hr => (by cases hr), fun _ => ⟨s.alloc, e, htake⟩⟩
      dsimp only
      rw [htaken]
      exact ⟨.inl, fun hi => hi.elim id (h.taken i)⟩
    · have hrefers : Refers A (create (A.physAddr i)) i := by
        rw [hcreate]
        exact refers_tableEntry i
      have hlink := h.linked_new hl hT htake hrefers
      dsimp only
      rw [tableOf_refers (i := i) (by rwa [setEntry_self]) hlow hhigh hwidth, Exec.ok_bind]
      exact hnext _ _ _ hlink
  | page x => exact absurd hT (hnp x)
  | table i sub =>
    have hrefers := hslot
    rw [hT] at hrefers
    rw [if_pos (hpr.mpr (by simp [hT])), tableOf_refers hrefers.2.1 hlow hhigh hwidth, Exec.ok_bind]
    exact hnext _ _ _ (h.linked hj hT)

end Below

/-! ## The tables -/

/-- A part of an aligned request consists of pages of the smallest size. -/
theorem Request.Part.fits_of_aligned (hpart : req.Part 12 v sz) (hreq : req.Aligned) :
    v % 2 ^ 12 = 0 ∧ (req.addr + (v - req.start)) % 2 ^ 12 = 0 ∧ 2 ^ 12 ≤ sz := by
  obtain ⟨h₁, h₂, h₃⟩ := hpart.aligned_below le_rfl hreq
  dsimp only [Request.below] at h₁ h₂ h₃
  have hpos := hpart.pos
  have hlt := lt_clearLow_add (a := v) (n := 12)
  have hmod := clearLow_add_mod (a := v) (n := 12)
  exact ⟨by omega, Nat.mod_eq_zero_of_dvd h₃, Nat.le_of_dvd hpos h₂⟩

theorem Level4.insertFunc_inserted (h : Holds A D s [12] N t T) (hpart : req.Part 12 v sz)
    (hj : v / 2 ^ 12 < N) (haddr : req.addr + req.size ≤ 2 ^ 48) {flags : PageFlags}
    (hflags : flags.attr = req.attr) :
    ∃ r s' T', insertFunc flags t v (req.addr + (v - req.start)) sz (v / 2 ^ 12) s = .ok (r, s') ∧
      Inserted A D [12] N t req v sz s T r s' T' := by
  have hfits := hpart.fits_iff (by omega) le_rfl (Nat.lt_add_of_pos_right hpart.pos)
  unfold insertFunc
  by_cases hfit : req.Fits 12 v
  · rw [if_neg (by have := hfits.mp hfit; omega)]
    exact mapPage_inserted .last h hpart hfit hj haddr hflags
  · have hno : ¬ req.Aligned := fun hreq => hfit (hfits.mpr (hpart.fits_of_aligned hreq))
    rw [if_pos (by rw [hfits] at hfit; omega)]
    exact ⟨_, _, T, rfl, .none h (fun hr => (by cases hr)) (fun _ => hno) (fun hr => (by cases hr))
      fun hr => (by cases hr)⟩

theorem Level4.table_inserts : Inserts A D 512 [12] (table (n := n) (μ := μ)) := by
  intro s t T flags vo addr size h hstop haddr
  rw [List.headI_cons] at hstop
  have hidx : ∀ v, v < vo + size → v / 2 ^ 12 < 512 := fun v hv => by omega
  exact rangeOp_inserted ⟨vo, size, addr, flags.attr⟩ (by omega)
    (by dsimp only; omega) haddr (fun v _ => hidx v)
    (fun v sz s T hpart h => insertFunc_inserted h hpart (hidx v hpart.lt_stop) haddr rfl) h

theorem PageDirectory.insertFunc_inserted {E : Table n μ} (hl : Levels (p :: q :: ps)) (hp : p ≤ 30)
    (hE : Inserts A D 512 (q :: ps) E) (h : Holds A D s (p :: q :: ps) N t T)
    (hpart : req.Part p v sz) (hj : v / 2 ^ p < N) (haddr : req.addr + req.size ≤ 2 ^ 48)
    {flags : PageFlags} (hflags : flags.attr = req.attr) :
    ∃ r s' T', insertFunc A D E p flags t v (req.addr + (v - req.start)) sz (v / 2 ^ p) s =
        .ok (r, s') ∧
      Inserted A D (p :: q :: ps) N t req v sz s T r s' T' := by
  have h12 : p ≠ 12 := by
    have := hl.next
    have := hl.next.2.2.le
    omega
  have hfits := fun a hv ha => hpart.fits_iff hp (a := a) hv ha
  have hvsz : v < v + sz := Nat.lt_add_of_pos_right hpart.pos
  unfold insertFunc
  by_cases hfit : req.Fits p v
  · rw [if_pos ((hfits v le_rfl hvsz).mp hfit)]
    have hpage := mapPage_inserted hl h hpart hfit hj haddr hflags
    rwa [pageEntry, if_neg h12] at hpage
  · rw [if_neg fun hc => hfit ((hfits v le_rfl hvsz).mpr hc)]
    have hno : ∀ a, v ≤ a → a < v + sz → ¬ req.Fits p a := fun a hva hav hf =>
      hfit ((hfits v le_rfl hvsz).mpr ((hfits a hva hav).mp hf))
    have hslot := h.repr _ hj
    by_cases hx : ∃ x, T (v / 2 ^ p) = .page x
    · obtain ⟨x, hT⟩ := hx
      have hpr := (hslot.present_iff hl).mpr (by simp [hT])
      rw [hT] at hslot
      rw [if_pos ⟨hpr, hslot.mapsPage hl h12⟩]
      refine ⟨_, _, T, rfl, .none h (fun hr => (by cases hr)) (fun hr => (by cases hr))
        (fun _ => .inl ⟨v, _, le_rfl, hvsz, look_page hT, fun he => ?_⟩) fun hr => (by cases hr)⟩
      -- the page of the request is smaller
      have hlog := congrArg Page.log2 he
      rw [pageFor, if_neg hfit] at hlog
      rcases pageFor_cases (q :: ps) req v with hp | ⟨k, hk, -, hp⟩
      · rw [hp] at hlog
        exact absurd hlog (by have := hl.le; dsimp only; omega)
      · rw [hp] at hlog
        exact absurd hlog.symm (ne_of_lt (hl.lt k hk))
    · have hnp : ∀ x, T (v / 2 ^ p) ≠ .page x := fun x hT => hx ⟨x, hT⟩
      have hcond : ¬ (present (s.entries t (v / 2 ^ p)) = true ∧
          mapsPage (s.entries t (v / 2 ^ p)) = true) := by
        rintro ⟨h₁, h₂⟩
        cases hT : T (v / 2 ^ p) with
        | empty => exact (hslot.present_iff hl).mp h₁ hT
        | page x => exact hnp x hT
        | table i sub =>
          rw [hT] at hslot
          rw [hslot.2.1.not_mapsPage] at h₂
          cases h₂
      rw [if_neg hcond]
      exact insertBelow_inserted hl hE h hpart hj haddr hno hflags hnp (fun _ => rfl) rfl (by decide)
        (by decide)

theorem PageDirectory.table_inserts {E : Table n μ} (hl : Levels (p :: q :: ps)) (hp : p ≤ 30)
    (hE : Inserts A D 512 (q :: ps) E) : Inserts A D 512 (p :: q :: ps) (table A D E p) := by
  intro s t T flags vo addr size h hstop haddr
  rw [List.headI_cons] at hstop
  have hidx : ∀ v, v < vo + size → v / 2 ^ p < 512 := fun v hv => by
    rw [Nat.div_lt_iff_lt_mul (Nat.two_pow_pos p)]
    omega
  have hword : 512 * 2 ^ p ≤ 2 ^ 64 := by
    rw [show (512 : Nat) = 2 ^ 9 from rfl, ← pow_add]
    exact Nat.pow_le_pow_right (by omega) (by omega)
  exact rangeOp_inserted ⟨vo, size, addr, flags.attr⟩ (by omega)
    (by dsimp only; omega) haddr (fun v _ => hidx v)
    (fun v sz s T hpart h => insertFunc_inserted hl hp hE h hpart
      (hidx v hpart.lt_stop) haddr rfl) h

theorem Pml4.insertFunc_inserted {E : Table n μ} (hE : Inserts A D 512 [30, 21, 12] E)
    (hl : Levels pageSizes) (h : Holds A D s pageSizes N t T) (hpart : req.Part 39 v sz)
    (hj : v / 2 ^ 39 < N) (haddr : req.addr + req.size ≤ 2 ^ 48) {flags : PageFlags}
    (hflags : flags.attr = req.attr) :
    ∃ r s' T', insertFunc A D E flags t v (req.addr + (v - req.start)) sz (v / 2 ^ 39) s =
        .ok (r, s') ∧
      Inserted A D pageSizes N t req v sz s T r s' T' := by
  refine insertBelow_inserted hl hE h hpart hj haddr (fun a _ _ hf => by have := hf.le; omega) hflags
    (fun x hT => ?_) Pml4.create_eq rfl (by decide) (by decide)
  have hslot := h.repr _ hj
  rw [hT] at hslot
  have := hslot.1
  omega

theorem levels_pageSizes : Levels pageSizes :=
  .above (.above (.above .last (by omega)) (by omega)) (by omega)

theorem Pml4.table_inserts {E : Table n μ} (hE : Inserts A D 512 [30, 21, 12] E) (hN : N ≤ 512) :
    Inserts A D N pageSizes (table A D E) := by
  intro s t T flags vo addr size h hstop haddr
  rw [pageSizes, List.headI_cons] at hstop
  have hidx : ∀ v, v < vo + size → index v = v / 2 ^ 39 ∧ v / 2 ^ 39 < N := fun v hv => by
    unfold index
    omega
  refine rangeOp_inserted ⟨vo, size, addr, flags.attr⟩ (by omega)
    (by dsimp only; omega) haddr (fun v _ hv => ?_) (fun v sz s T hpart h => ?_) h
  · have := hidx v hv
    omega
  · obtain ⟨h₁, h₂⟩ := hidx v hpart.lt_stop
    rw [h₁]
    exact insertFunc_inserted hE levels_pageSizes h hpart h₂ haddr rfl

/-- An insertion into the page table of an address space, whose root has `N`
entries of its own. -/
theorem pageTable_inserts (hN : N ≤ 512) : Inserts A D N pageSizes (pageTable A D) :=
  Pml4.table_inserts (PageDirectory.table_inserts levels_pageSizes.next.2.2 (by omega)
    (PageDirectory.table_inserts levels_pageSizes.next.2.2.next.2.2 (by omega)
      Level4.table_inserts)) hN

end Genode.Hw
