import Mathlib.Algebra.Order.Ring.Nat

/-!
# QuotaGuard — a limit and what is used of it

`base/quota_guard.h`. Both values are of the type `size_t`, so each
operation that could leave its range clamps or refuses. As long as the
used part is within the limit (`Valid`), the differences are plain ones.
-/

namespace Genode.Core

/-- `Quota_guard_untyped`. -/
structure QuotaGuard where
  limit : Nat
  used : Nat
  deriving DecidableEq, Repr

namespace QuotaGuard

variable (g : QuotaGuard) (amount : Nat)

def avail : Nat := (g.limit + 2 ^ 64 - g.used) % 2 ^ 64

/-- `upgrade`; on overflow the limit is the highest number. -/
def upgrade : QuotaGuard :=
  let newLimit := (g.limit + amount) % 2 ^ 64
  { g with limit := if newLimit < g.limit then 2 ^ 64 - 1 else newLimit }

/-- `try_downgrade`. -/
def tryDowngrade : Option QuotaGuard :=
  if g.avail < amount then none
  else some { g with limit := (g.limit + 2 ^ 64 - amount) % 2 ^ 64 }

/-- `try_withdraw`. -/
def tryWithdraw : Option QuotaGuard :=
  if g.avail < amount then none else some { g with used := (g.used + amount) % 2 ^ 64 }

/-- `replenish`; the lower bound is zero. -/
def replenish : QuotaGuard := { g with used := if g.used < amount then 0 else g.used - amount }

/-- The used part is within the limit. -/
structure Valid : Prop where
  used_le : g.used ≤ g.limit
  limit_lt : g.limit < 2 ^ 64

instance : Decidable g.Valid :=
  decidable_of_iff (g.used ≤ g.limit ∧ g.limit < 2 ^ 64) ⟨fun h => ⟨h.1, h.2⟩, fun h => ⟨h.1, h.2⟩⟩

variable {g amount} {g' : QuotaGuard}

@[simp] theorem upgrade_used : (g.upgrade amount).used = g.used := rfl

@[simp] theorem replenish_limit : (g.replenish amount).limit = g.limit := rfl

@[simp] theorem replenish_used : (g.replenish amount).used = g.used - amount := by
  unfold replenish
  dsimp only
  split <;> omega

theorem Valid.avail_eq (h : g.Valid) : g.avail = g.limit - g.used := by
  obtain ⟨hu, hl⟩ := h
  unfold avail
  omega

theorem upgrade_limit (h : g.limit + amount < 2 ^ 64) :
    (g.upgrade amount).limit = g.limit + amount := by
  unfold upgrade
  dsimp only
  rw [Nat.mod_eq_of_lt h, if_neg (by omega)]

theorem Valid.upgrade (h : g.Valid) (hl : g.limit + amount < 2 ^ 64) : (g.upgrade amount).Valid := by
  refine ⟨?_, ?_⟩
  · rw [upgrade_limit hl, upgrade_used]
    exact h.used_le.trans (Nat.le_add_right _ _)
  · rwa [upgrade_limit hl]

theorem Valid.replenish (h : g.Valid) : (g.replenish amount).Valid := by
  refine ⟨?_, h.limit_lt⟩
  rw [replenish_used, replenish_limit]
  exact (Nat.sub_le _ _).trans h.used_le

/-- The limit without an amount that is available. -/
def lower (g : QuotaGuard) (amount : Nat) : QuotaGuard := { g with limit := g.limit - amount }

@[simp] theorem lower_limit : (g.lower amount).limit = g.limit - amount := rfl

/-- The limit goes down only by what is available. -/
theorem Valid.tryDowngrade_eq_some (h : g.Valid) : g.tryDowngrade amount = some g' ↔
    amount ≤ g.limit - g.used ∧ g' = g.lower amount := by
  have hl := h.limit_lt
  have hu := h.used_le
  unfold tryDowngrade
  rw [h.avail_eq]
  split
  · rename_i hlt
    simp [Nat.not_le.mpr hlt]
  · rename_i hle
    have hmod : (g.limit + 2 ^ 64 - amount) % 2 ^ 64 = g.limit - amount := by omega
    rw [hmod, Option.some.injEq, eq_comm]
    exact ⟨fun h => ⟨Nat.not_lt.mp hle, h⟩, fun h => h.2⟩

theorem Valid.tryWithdraw_eq_some (h : g.Valid) : g.tryWithdraw amount = some g' ↔
    amount ≤ g.limit - g.used ∧ g' = { g with used := g.used + amount } := by
  have hl := h.limit_lt
  have hu := h.used_le
  unfold tryWithdraw
  rw [h.avail_eq]
  split
  · rename_i hlt
    simp [Nat.not_le.mpr hlt]
  · rename_i hle
    have hmod : (g.used + amount) % 2 ^ 64 = g.used + amount := by omega
    rw [hmod, Option.some.injEq, eq_comm]
    exact ⟨fun h => ⟨Nat.not_lt.mp hle, h⟩, fun h => h.2⟩

theorem Valid.tryDowngrade (h : g.Valid) (hs : g.tryDowngrade amount = some g') : g'.Valid := by
  obtain ⟨ha, rfl⟩ := h.tryDowngrade_eq_some.mp hs
  have hu := h.used_le
  have hl := h.limit_lt
  exact ⟨show g.used ≤ g.limit - amount by omega, show g.limit - amount < 2 ^ 64 by omega⟩

theorem Valid.tryWithdraw (h : g.Valid) (hs : g.tryWithdraw amount = some g') : g'.Valid := by
  obtain ⟨ha, rfl⟩ := h.tryWithdraw_eq_some.mp hs
  have hu := h.used_le
  exact ⟨show g.used + amount ≤ g.limit by omega, h.limit_lt⟩

end QuotaGuard

end Genode.Core
