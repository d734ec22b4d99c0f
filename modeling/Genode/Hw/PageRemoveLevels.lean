import Genode.Hw.PageInsertLevels
import Genode.Hw.PageRemove

/-!
# PageRemoveLevels — `remove_translation` on all levels

What was said about removals is shown for the code here, in the same order
as for insertions. A removal does not throw.
-/

namespace Genode.Hw

open Lib Util
open Base (Md)
open CommonDescriptor (present clearMmuFlags)
open BaseDescriptor (mapsPage)

variable {n : Nat} {μ : Type} (A : TableArray n) (D : Md (Fin n) μ)

/-- `remove_translation` of a table with `N` entries does what it should. -/
def Removes (N : Nat) (ps : List Nat) (E : Table n μ) : Prop :=
  ∀ s t T vo size, Holds A D s ps N t T → vo + size ≤ N * 2 ^ ps.headI →
    ∃ s' T', E.removeTranslation t vo size s = .ok (.ok (), s') ∧
      Removed A D ps N t vo size s T s' T'

variable {A D} {p q : Nat} {ps : List Nat} {N : Nat} {t : Option (Fin n)} {req : Request}
  {v sz : Nat} {s : PageTables n μ} {T : Tree (Fin n)}

/-- Part by part, the whole range is removed. -/
theorem rangeOp_removed (req : Request) (hl : Levels (p :: ps)) {index : Nat → Nat}
    {func : Nat → Nat → Nat → Nat → PageTables n μ → Outcome n μ}
    (hstop : req.start + req.size ≤ 2 ^ 48) (haddr : req.addr = 0)
    (hidx : ∀ v, req.start ≤ v → v < req.start + req.size → index v < 512)
    (hfunc : ∀ v sz s T, req.Part p v sz → Holds A D s (p :: ps) N t T →
      ∃ s' T', func v (v - req.start) sz (index v) s = .ok (.ok (), s') ∧
        Removed A D (p :: ps) N t v sz s T s' T')
    (h : Holds A D s (p :: ps) N t T) :
    ∃ s' T', rangeOp p index func (req.size + 1) req.start 0 req.size s = .ok (.ok (), s') ∧
      Removed A D (p :: ps) N t req.start req.size s T s' T' := by
  let P := fun v s' => ∃ T', req.start ≤ v ∧
    Removed A D (p :: ps) N t req.start (v - req.start) s T s' T'
  have hstart : P req.start s := by
    refine ⟨T, le_rfl, ?_⟩
    rw [Nat.sub_self]
    exact .none h
  have hstep : ∀ v sz s, req.Part p v sz → P v s →
      ∃ r s', func v (req.addr + (v - req.start)) sz (index v) s = .ok (r, s') ∧
        (r = .ok () → P (v + sz) s') ∧ ∀ e, r = .error e → False := by
    rintro v sz s₁ hpart ⟨T₁, hv, h₁⟩
    obtain ⟨s₂, T₂, hr, h₂⟩ := hfunc v sz s₁ T₁ hpart h₁.holds
    rw [haddr, Nat.zero_add]
    exact ⟨.ok (), s₂, hr, fun _ => ⟨T₂, by omega, h₁.trans hl hpart h₂⟩, fun e he => by cases he⟩
  have hlog := hl.le
  obtain ⟨r, s', hr, hok, herr⟩ := rangeOp_spec (by omega) (by omega) (by omega) hidx hstep le_rfl
    (Nat.le_add_right _ _) (.inl rfl)
    (show req.start + req.size - req.start < req.size + 1 by omega) hstart
  rw [Nat.sub_self, Nat.add_zero, Nat.add_sub_cancel_left, haddr] at hr
  cases r with
  | ok u =>
    obtain ⟨T', -, hT'⟩ := hok rfl
    rw [Nat.add_sub_cancel_left] at hT'
    exact ⟨s', T', hr, hT'⟩
  | error e => exact (herr e rfl).elim

/-- `Remove_func` removes from the table of the next level. -/
theorem removeBelow_removed {E : Table n μ} {paField : Bitfield 64} (hl : Levels (p :: q :: ps))
    (hE : Removes A D 512 (q :: ps) E) (h : Holds A D s (p :: q :: ps) N t T)
    (hpart : req.Part p v sz) (hj : v / 2 ^ p < N) {i : Fin n} {sub : Tree (Fin n)}
    (hT : T (v / 2 ^ p) = .table i sub) (hlow : paField.shift = 12) (hhigh : 36 ≤ paField.width)
    (hwidth : paField.width ≤ 51) :
    ∃ s' T', removeBelow A D E p paField t v sz (v / 2 ^ p) s = .ok (.ok (), s') ∧
      Removed A D (p :: q :: ps) N t v sz s T s' T' := by
  have hin := hpart.within
  have hvle := clearLow_le (a := v) (n := p)
  have hslot := h.repr _ hj
  rw [hT] at hslot
  obtain ⟨s₁, sub', hr, hsub⟩ := hE s (some i) sub (v - clearLow v p) sz (h.sub hj hT)
    (by rw [List.headI_cons, hl.block]; omega)
  have hempty := hsub.holds.repr.empty_iff hl.next.2.2
  unfold removeBelow
  rw [tableOf_refers hslot.2.1 hlow hhigh hwidth, Exec.ok_bind, hr, Exec.ok_bind]
  dsimp only
  by_cases he : s₁.empty (some i) = true
  · obtain ⟨m, hgive, htaken⟩ := D.give_taken _ _ (hsub.holds.own i rfl)
    rw [if_pos he, PageTables.destruct, hgive, Exec.ok_bind, Exec.ok_bind]
    refine ⟨_, _, rfl, hsub.freed hl h hpart hj hT (hempty.mp he) htaken (setEntry_self ..)
      (fun x hx => setEntry_other _ _ _ hx) fun k hk => setEntry_of_ne _ _ _ hk⟩
  · rw [if_neg he]
    refine ⟨s₁, _, rfl, hsub.kept hl h hpart hj hT ?_⟩
    by_contra hno
    refine he (hempty.mpr fun k hk => ?_)
    by_contra hne
    exact hno ⟨k, hk, hne⟩

/-! ## The tables -/

theorem Level4.removeFunc_removed (h : Holds A D s [12] N t T) (hpart : req.Part 12 v sz)
    (hj : v / 2 ^ 12 < N) (addr : Nat) :
    ∃ s' T', removeFunc t v addr sz (v / 2 ^ 12) s = .ok (.ok (), s') ∧
      Removed A D [12] N t v sz s T s' T' := by
  have hT : ∀ i sub, T (v / 2 ^ 12) ≠ .table i sub := fun i sub hT => by
    have hslot := h.repr _ hj
    rw [hT] at hslot
    exact hslot.1 rfl
  refine ⟨_, _, rfl, .of_clear .last h hpart hj hT (h.setEntry rfl rfl) rfl
    (fun q hq => setEntry_other s _ _ hq) fun k hk => setEntry_of_ne s t _ hk⟩

theorem Level4.table_removes : Removes A D 512 [12] (table (n := n) (μ := μ)) := by
  intro s t T vo size h hstop
  rw [List.headI_cons] at hstop
  have hidx : ∀ v, v < vo + size → v / 2 ^ 12 < 512 := fun v hv => by omega
  exact rangeOp_removed ⟨vo, size, 0, tableFlags.attr⟩ .last (by dsimp only; omega) rfl
    (fun v _ => hidx v)
    (fun v sz s T hpart h => removeFunc_removed h hpart (hidx v hpart.lt_stop) _) h

theorem PageDirectory.removeFunc_removed {E : Table n μ} (hl : Levels (p :: q :: ps))
    (hE : Removes A D 512 (q :: ps) E) (h : Holds A D s (p :: q :: ps) N t T)
    (hpart : req.Part p v sz) (hj : v / 2 ^ p < N) (addr : Nat) :
    ∃ s' T', removeFunc A D E p t v addr sz (v / 2 ^ p) s = .ok (.ok (), s') ∧
      Removed A D (p :: q :: ps) N t v sz s T s' T' := by
  have h12 : p ≠ 12 := by
    have := hl.next
    have := hl.next.2.2.le
    omega
  have hslot := h.repr _ hj
  have hpr := hslot.present_iff hl
  unfold removeFunc
  cases hT : T (v / 2 ^ p) with
  | empty =>
    rw [if_neg fun hc => hpr.mp hc hT]
    refine ⟨s, _, rfl, .of_clear hl h hpart hj (by simp [hT]) ?_ rfl (fun _ _ => rfl) fun _ _ => rfl⟩
    rwa [← hT, Function.update_eq_self]
  | page x =>
    have hpr' := hpr.mpr (by simp [hT])
    rw [hT] at hslot
    rw [if_pos hpr', if_pos (hslot.mapsPage hl h12)]
    exact ⟨_, _, rfl, .of_clear hl h hpart hj (by simp [hT]) (h.setEntry rfl rfl) rfl
      (fun q hq => setEntry_other s _ _ hq) fun k hk => setEntry_of_ne s t _ hk⟩
  | table i sub =>
    have hpr' := hpr.mpr (by simp [hT])
    rw [hT] at hslot
    rw [if_pos hpr', if_neg (by simp [hslot.2.1.not_mapsPage])]
    exact removeBelow_removed hl hE h hpart hj hT rfl (by decide) (by decide)

theorem PageDirectory.table_removes {E : Table n μ} (hl : Levels (p :: q :: ps)) (hp : p ≤ 30)
    (hE : Removes A D 512 (q :: ps) E) : Removes A D 512 (p :: q :: ps) (table A D E p) := by
  intro s t T vo size h hstop
  rw [List.headI_cons] at hstop
  have hidx : ∀ v, v < vo + size → v / 2 ^ p < 512 := fun v hv => by
    rw [Nat.div_lt_iff_lt_mul (Nat.two_pow_pos p)]
    omega
  have hword : 512 * 2 ^ p ≤ 2 ^ 48 := by
    rw [show (512 : Nat) = 2 ^ 9 from rfl, ← pow_add]
    exact Nat.pow_le_pow_right (by omega) (by omega)
  exact rangeOp_removed ⟨vo, size, 0, tableFlags.attr⟩ hl (by dsimp only; omega) rfl
    (fun v _ => hidx v)
    (fun v sz s T hpart h => removeFunc_removed hl hE h hpart (hidx v hpart.lt_stop) _) h

theorem Pml4.removeFunc_removed {E : Table n μ} (hE : Removes A D 512 [30, 21, 12] E)
    (h : Holds A D s pageSizes N t T) (hpart : req.Part 39 v sz) (hj : v / 2 ^ 39 < N) (addr : Nat) :
    ∃ s' T', removeFunc A D E t v addr sz (v / 2 ^ 39) s = .ok (.ok (), s') ∧
      Removed A D pageSizes N t v sz s T s' T' := by
  have hl : Levels (39 :: 30 :: [21, 12]) := levels_pageSizes
  have hslot := h.repr _ hj
  have hpr := hslot.present_iff hl
  unfold removeFunc
  cases hT : T (v / 2 ^ 39) with
  | empty =>
    rw [if_neg fun hc => hpr.mp hc hT]
    refine ⟨s, _, rfl, .of_clear hl h hpart hj (fun i sub he => ?_) ?_ rfl (fun _ _ => rfl)
      fun _ _ => rfl⟩
    · rw [hT] at he
      cases he
    · rwa [← hT, Function.update_eq_self]
  | page x =>
    rw [hT] at hslot
    have := hslot.1
    omega
  | table i sub =>
    rw [if_pos (hpr.mpr fun he => by rw [hT] at he; cases he)]
    exact removeBelow_removed hl hE h hpart hj hT rfl (by decide) (by decide)

theorem Pml4.table_removes {E : Table n μ} (hE : Removes A D 512 [30, 21, 12] E) (hN : N ≤ 512) :
    Removes A D N pageSizes (table A D E) := by
  intro s t T vo size h hstop
  rw [pageSizes, List.headI_cons] at hstop
  have hidx : ∀ v, v < vo + size → index v = v / 2 ^ 39 ∧ v / 2 ^ 39 < N := fun v hv => by
    unfold index
    omega
  refine rangeOp_removed ⟨vo, size, 0, tableFlags.attr⟩ levels_pageSizes (by dsimp only; omega) rfl
    (fun v _ hv => ?_) (fun v sz s T hpart h => ?_) h
  · have := hidx v hv
    omega
  · obtain ⟨h₁, h₂⟩ := hidx v hpart.lt_stop
    rw [h₁]
    exact removeFunc_removed hE h hpart h₂ _

/-- A removal from the page table of an address space. -/
theorem pageTable_removes (hN : N ≤ 512) : Removes A D N pageSizes (pageTable A D) :=
  Pml4.table_removes (PageDirectory.table_removes levels_pageSizes.next.2.2 (by omega)
    (PageDirectory.table_removes levels_pageSizes.next.2.2.next.2.2 (by omega)
      Level4.table_removes)) hN

end Genode.Hw
