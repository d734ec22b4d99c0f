import Mathlib.Algebra.Order.BigOperators.Group.Finset
import Genode.Core.QuotaGuard
import Genode.Lib.Refs
import Genode.Lib.Run

/-!
# Account — quota that moves along a tree

`core/include/account.h`. An account guards the quota of a session. It
has a reference account, except for the initial one, and quota moves
only between an account and its reference account. The limit must never
fall below the initial limit, which goes back to the client of the
session when the account is destroyed; the rest of the limit then goes
to the reference account, together with the accounts below.

The initial account is core's own. It is not destroyed as long as other
accounts refer to it.
-/

namespace Genode.Core

open Lib

/-- The accounts of the sessions `ι`. -/
structure Accounts (ι : Type) where
  live : Finset ι
  guard : ι → QuotaGuard
  initialUsed : ι → Nat
  initialLimit : ι → Nat
  /-- `_ref_account` and `_ref_account_members`. -/
  refs : Refs ι

namespace Accounts

inductive TransferError where
  | unrelatedAccount
  | limitExceeded
  deriving DecidableEq, Repr

variable {ι : Type} [DecidableEq ι]

/-- `_adopt`; the account leaves the registry that it is in. -/
def adopt (refs : Refs ι) (r x : ι) : Refs ι :=
  ((refs.ref x).elim refs fun r' => refs.remove r' x).insert r x

variable (s : Accounts ι) (x y : ι) (g : QuotaGuard) (amount : Nat)

def setGuard : Accounts ι := { s with guard := Function.update s.guard x g }

/-- `_transferrable_quota`, given the guard of the account. -/
def transferrableQuota : Nat := (g.limit + 2 ^ 64 - s.initialLimit x) % 2 ^ 64

/-- The constructor of the initial account. -/
def createInitial : Accounts ι :=
  { live := insert x s.live
    guard := Function.update s.guard x g
    initialUsed := Function.update s.initialUsed x g.used
    initialLimit := Function.update s.initialLimit x 0
    refs := s.refs }

/-- The constructor of an account with the reference account `y`. -/
def create : Accounts ι :=
  { live := insert x s.live
    guard := Function.update s.guard x g
    initialUsed := Function.update s.initialUsed x g.used
    initialLimit := Function.update s.initialLimit x g.limit
    refs := adopt s.refs y x }

/-- `transfer_quota` from `x` to `y`. -/
def transferQuota : Except TransferError Unit × Accounts ι :=
  -- transfers are permitted only from/to the reference account
  if s.refs.ref x ≠ some y ∧ s.refs.ref y ≠ some x then (.error .unrelatedAccount, s)
  -- make sure to stay within the initial limit
  else if s.transferrableQuota x (s.guard x) < amount then (.error .limitExceeded, s)
  else
    ((s.guard x).tryDowngrade amount).elim (.error .limitExceeded, s) fun g =>
      let s := s.setGuard x g
      (.ok (), s.setGuard y ((s.guard y).upgrade amount))

/-- `withdraw`; the result is false if it throws. -/
def withdraw : Bool × Accounts ι :=
  ((s.guard x).tryWithdraw amount).elim (false, s) fun g => (true, s.setGuard x g)

/-- `replenish`. -/
def replenish : Accounts ι := s.setGuard x ((s.guard x).replenish amount)

/-- The destructor; the result is false if the final downgrade fails. -/
def destroy : Bool × Accounts ι :=
  match s.refs.ref x with
  | none => (true, { s with live := s.live.erase x })
  | some r =>
    -- dangling allocations
    let g := if s.initialUsed x < (s.guard x).used
      then (s.guard x).replenish ((s.guard x).used - s.initialUsed x) else s.guard x
    -- transfer remaining quota to our reference account
    let downgrade := s.transferrableQuota x g
    let s := s.setGuard r ((s.guard r).upgrade downgrade)
    let result := g.tryDowngrade downgrade
    let s := s.setGuard x (result.getD g)
    -- assign all sub accounts to our reference account
    let refs := (s.refs.members x).foldl (fun refs o => adopt refs r o) s.refs
    (result.isSome, { s with live := s.live.erase x, refs := refs.remove r x })

/-- The sum of all limits. -/
def total : Nat := ∑ x ∈ s.live, (s.guard x).limit

/-! ## Operations -/

inductive Op (ι : Type) where
  | createInitial (x : ι) (g : QuotaGuard)
  | create (x : ι) (g : QuotaGuard) (ref : ι)
  | transferQuota (x y : ι) (amount : Nat)
  | withdraw (x : ι) (amount : Nat)
  | replenish (x : ι) (amount : Nat)
  | destroy (x : ι)

/-- Accounts are used while they exist, and all sums fit. -/
def Allowed : Op ι → Prop
  | .createInitial x g => x ∉ s.live ∧ g.Valid ∧ s.total + g.limit < 2 ^ 64
  | .create x g r => x ∉ s.live ∧ r ∈ s.live ∧ g.Valid ∧ s.total + g.limit < 2 ^ 64
  | .transferQuota x y _ => x ∈ s.live ∧ y ∈ s.live
  | .withdraw x _ => x ∈ s.live
  | .replenish x _ => x ∈ s.live
  | .destroy x => x ∈ s.live ∧ (s.refs.ref x = none → s.refs.members x = [])

def exec : Op ι → Exec (Accounts ι)
  | .createInitial x g => .ok (s.createInitial x g)
  | .create x g r => .ok (s.create x r g)
  | .transferQuota x y amount => .ok (s.transferQuota x y amount).2
  | .withdraw x amount => .ok (s.withdraw x amount).2
  | .replenish x amount => .ok (s.replenish x amount)
  | .destroy x => .ok (s.destroy x).2

/-- There are no accounts yet. -/
def Init (s : Accounts ι) : Prop := s.live = ∅ ∧ s.refs = ⟨fun _ => none, fun _ => []⟩

def Trans : Accounts ι → Op ι → Accounts ι → Prop := Guarded Allowed exec

instance (s : Accounts ι) : (op : Op ι) → Decidable (Allowed s op)
  | .createInitial x g =>
    inferInstanceAs (Decidable (x ∉ s.live ∧ g.Valid ∧ s.total + g.limit < 2 ^ 64))
  | .create x g r =>
    inferInstanceAs (Decidable (x ∉ s.live ∧ r ∈ s.live ∧ g.Valid ∧ s.total + g.limit < 2 ^ 64))
  | .transferQuota x y _ => inferInstanceAs (Decidable (x ∈ s.live ∧ y ∈ s.live))
  | .withdraw x _ => inferInstanceAs (Decidable (x ∈ s.live))
  | .replenish x _ => inferInstanceAs (Decidable (x ∈ s.live))
  | .destroy x =>
    inferInstanceAs (Decidable (x ∈ s.live ∧ (s.refs.ref x = none → s.refs.members x = [])))

/-! ## What holds of all accounts -/

structure Inv (s : Accounts ι) : Prop where
  valid : ∀ x ∈ s.live, (s.guard x).Valid
  initial_le : ∀ x ∈ s.live, s.initialLimit x ≤ (s.guard x).limit
  initial_used : ∀ x r, s.refs.ref x = some r → s.initialUsed x ≤ s.initialLimit x
  total_lt : s.total < 2 ^ 64
  refs : s.refs.Consistent s.live
  acyclic : Acyclic s.refs.ref

variable {s x y g amount} {r : ι}

@[simp] theorem setGuard_self : (s.setGuard x g).guard x = g := Function.update_self _ _ _

theorem setGuard_of_ne (h : y ≠ x) : (s.setGuard x g).guard y = s.guard y :=
  Function.update_of_ne h _ _

/-- One limit changes. -/
theorem total_setGuard (hx : x ∈ s.live) (g : QuotaGuard) :
    (s.setGuard x g).total + (s.guard x).limit = s.total + g.limit := by
  have hrest : ∑ y ∈ s.live.erase x, ((s.setGuard x g).guard y).limit =
      ∑ y ∈ s.live.erase x, (s.guard y).limit := by
    refine Finset.sum_congr rfl fun y hy => ?_
    rw [setGuard_of_ne (Finset.ne_of_mem_erase hy)]
  have h₁ := Finset.add_sum_erase s.live (fun y => ((s.setGuard x g).guard y).limit) hx
  have h₂ := Finset.add_sum_erase s.live (fun y => (s.guard y).limit) hx
  rw [hrest, setGuard_self] at h₁
  unfold total
  rw [← h₂]
  change ∑ y ∈ s.live, ((s.setGuard x g).guard y).limit + _ = _
  rw [← h₁]
  omega

/-- The limits of two accounts are part of the sum. -/
theorem add_limit_le_total (hx : x ∈ s.live) (hy : y ∈ s.live) (hne : x ≠ y) :
    (s.guard x).limit + (s.guard y).limit ≤ s.total := by
  have hle : (s.guard y).limit ≤ ∑ z ∈ s.live.erase x, (s.guard z).limit :=
    Finset.single_le_sum (f := fun z => (s.guard z).limit) (fun _ _ => Nat.zero_le _)
      (Finset.mem_erase.mpr ⟨hne.symm, hy⟩)
  unfold total
  rw [← Finset.add_sum_erase _ _ hx]
  omega

namespace Inv

omit [DecidableEq ι] in
theorem transferrableQuota_eq (h : s.Inv) (hx : x ∈ s.live) (hg : g.limit = (s.guard x).limit) :
    s.transferrableQuota x g = (s.guard x).limit - s.initialLimit x := by
  have hi := h.initial_le x hx
  have hl := (h.valid x hx).limit_lt
  unfold Accounts.transferrableQuota
  rw [hg]
  omega

/-- The guard of one account is replaced. -/
theorem setGuard (h : s.Inv) (hx : x ∈ s.live) (hg : g.Valid) (hi : s.initialLimit x ≤ g.limit)
    (ht : s.total + g.limit < 2 ^ 64 + (s.guard x).limit) : (s.setGuard x g).Inv := by
  refine ⟨fun y hy => ?_, fun y hy => ?_, h.initial_used, ?_, h.refs, h.acyclic⟩
  · by_cases hyx : y = x
    · subst hyx
      rwa [setGuard_self]
    · rw [setGuard_of_ne hyx]
      exact h.valid y hy
  · by_cases hyx : y = x
    · subst hyx
      rwa [setGuard_self]
    · rw [setGuard_of_ne hyx]
      exact h.initial_le y hy
  · have := total_setGuard hx g
    omega

/-- An amount moves from one account to another. -/
theorem move (h : s.Inv) (hx : x ∈ s.live) (hy : y ∈ s.live) (hne : x ≠ y)
    (ha : amount ≤ (s.guard x).limit - s.initialLimit x) (hv : ((s.guard x).lower amount).Valid) :
    ((s.setGuard x ((s.guard x).lower amount)).setGuard y ((s.guard y).upgrade amount)).Inv ∧
      ((s.setGuard x ((s.guard x).lower amount)).setGuard y ((s.guard y).upgrade amount)).total =
        s.total ∧
      ((s.guard y).upgrade amount).limit = (s.guard y).limit + amount := by
  have hl := h.initial_le x hx
  have hsum := add_limit_le_total hx hy hne
  have ht := h.total_lt
  have hfit : (s.guard y).limit + amount < 2 ^ 64 := by omega
  have hup := QuotaGuard.upgrade_limit hfit
  -- first the limit of `x` goes down, then that of `y` goes up
  have h₁ := total_setGuard hx ((s.guard x).lower amount)
  rw [QuotaGuard.lower_limit] at h₁
  have hI₁ := h.setGuard hx hv (by rw [QuotaGuard.lower_limit]; omega)
    (by rw [QuotaGuard.lower_limit]; omega)
  have hy₁ : y ∈ (s.setGuard x ((s.guard x).lower amount)).live := hy
  have h₂ := total_setGuard hy₁ ((s.guard y).upgrade amount)
  rw [setGuard_of_ne hne.symm, hup] at h₂
  refine ⟨hI₁.setGuard hy₁ ((h.valid y hy).upgrade hfit) ?_ ?_, by omega, hup⟩
  · have hi : s.initialLimit y ≤ (s.guard y).limit := h.initial_le y hy
    rw [hup]
    exact hi.trans (Nat.le_add_right _ _)
  · rw [setGuard_of_ne hne.symm, hup]
    omega

/-- What a transfer does: nothing, or the amount moves. -/
theorem transferQuota_cases (h : s.Inv) (hx : x ∈ s.live) (y : ι) (amount : Nat) :
    (∃ e, s.transferQuota x y amount = (.error e, s)) ∨
      x ≠ y ∧ amount ≤ (s.guard x).limit - s.initialLimit x ∧ ((s.guard x).lower amount).Valid ∧
      s.transferQuota x y amount = (.ok (),
        (s.setGuard x ((s.guard x).lower amount)).setGuard y ((s.guard y).upgrade amount)) := by
  unfold Accounts.transferQuota
  split
  · exact .inl ⟨_, rfl⟩
  · rename_i hrel
    split
    · exact .inl ⟨_, rfl⟩
    · rename_i hle
      rw [h.transferrableQuota_eq hx rfl] at hle
      cases hg : (s.guard x).tryDowngrade amount with
      | none => exact .inl ⟨_, rfl⟩
      | some g =>
        have hv := (h.valid x hx).tryDowngrade hg
        obtain ⟨ha, rfl⟩ := (h.valid x hx).tryDowngrade_eq_some.mp hg
        have hne : x ≠ y := by
          rintro rfl
          have hself : s.refs.ref x = some x := by tauto
          exact h.acyclic x (.single hself)
        refine .inr ⟨hne, by omega, hv, ?_⟩
        dsimp only [Option.elim_some]
        rw [setGuard_of_ne hne.symm]

/-- A transfer keeps the sum of the limits, and one that throws keeps everything. -/
theorem transferQuota (h : s.Inv) (hx : x ∈ s.live) (hy : y ∈ s.live) :
    (s.transferQuota x y amount).2.Inv ∧ (s.transferQuota x y amount).2.total = s.total ∧
      ∀ e, (s.transferQuota x y amount).1 = .error e → (s.transferQuota x y amount).2 = s := by
  rcases h.transferQuota_cases hx y amount with ⟨e, he⟩ | ⟨hne, ha, hv, he⟩
  · rw [he]
    exact ⟨h, rfl, fun _ _ => rfl⟩
  · rw [he]
    obtain ⟨hI, ht, -⟩ := h.move hx hy hne ha hv
    exact ⟨hI, ht, fun e he => by simp at he⟩

theorem withdraw (h : s.Inv) (hx : x ∈ s.live) : (s.withdraw x amount).2.Inv := by
  cases hg : (s.guard x).tryWithdraw amount with
  | none =>
    rw [Accounts.withdraw, hg]
    exact h
  | some g =>
    have hlim : g.limit = (s.guard x).limit := by
      rw [((h.valid x hx).tryWithdraw_eq_some.mp hg).2]
    have hv := (h.valid x hx).tryWithdraw hg
    have hi : s.initialLimit x ≤ g.limit := by
      rw [hlim]
      exact h.initial_le x hx
    have ht : s.total + g.limit < 2 ^ 64 + (s.guard x).limit := by
      rw [hlim]
      exact Nat.add_lt_add_right h.total_lt _
    rw [Accounts.withdraw, hg]
    exact h.setGuard hx hv hi ht

theorem replenish (h : s.Inv) (hx : x ∈ s.live) : (s.replenish x amount).Inv := by
  refine h.setGuard hx (h.valid x hx).replenish ?_ ?_
  · rw [QuotaGuard.replenish_limit]
    exact h.initial_le x hx
  · rw [QuotaGuard.replenish_limit]
    exact Nat.add_lt_add_right h.total_lt _

/-- A new account, with any references that fit. -/
theorem construct {refs : Refs ι} {initialLimit : Nat} (h : s.Inv) (hx : x ∉ s.live) (hg : g.Valid)
    (ht : s.total + g.limit < 2 ^ 64) (hi : initialLimit ≤ g.limit)
    (hu : ∀ r, refs.ref x = some r → g.used ≤ initialLimit)
    (hr : ∀ y, y ≠ x → refs.ref y = s.refs.ref y) (hc : refs.Consistent (insert x s.live))
    (ha : Acyclic refs.ref) :
    Inv { live := insert x s.live, guard := Function.update s.guard x g,
          initialUsed := Function.update s.initialUsed x g.used,
          initialLimit := Function.update s.initialLimit x initialLimit, refs := refs } := by
  have hne : ∀ y ∈ s.live, y ≠ x := by
    rintro y hy rfl
    exact hx hy
  refine ⟨?_, ?_, fun y r hy => ?_, ?_, hc, ha⟩
  · refine Finset.forall_mem_insert _ _ _ |>.mpr ⟨by simpa using hg, fun y hy => ?_⟩
    dsimp only
    rw [Function.update_of_ne (hne y hy)]
    exact h.valid y hy
  · refine Finset.forall_mem_insert _ _ _ |>.mpr ⟨by simpa using hi, fun y hy => ?_⟩
    dsimp only
    rw [Function.update_of_ne (hne y hy), Function.update_of_ne (hne y hy)]
    exact h.initial_le y hy
  · dsimp only at hy ⊢
    by_cases hyx : y = x
    · subst hyx
      rw [Function.update_self, Function.update_self]
      exact hu r hy
    · rw [Function.update_of_ne hyx, Function.update_of_ne hyx]
      exact h.initial_used y r (hr y hyx ▸ hy)
  · have hsum : ∑ y ∈ s.live, (Function.update s.guard x g y).limit = s.total :=
      Finset.sum_congr rfl fun y hy => by rw [Function.update_of_ne (hne y hy)]
    unfold total
    dsimp only
    rw [Finset.sum_insert hx, Function.update_self, hsum]
    omega

theorem createInitial (h : s.Inv) (hx : x ∉ s.live) (hg : g.Valid)
    (ht : s.total + g.limit < 2 ^ 64) : (s.createInitial x g).Inv := by
  have hnone := h.refs.ref_eq_none hx
  exact h.construct hx hg ht (Nat.zero_le _) (fun r hr => by simp [hnone] at hr) (fun _ _ => rfl)
    (h.refs.mono (Finset.subset_insert _ _)) h.acyclic

theorem create (h : s.Inv) (hx : x ∉ s.live) (hr : r ∈ s.live) (hg : g.Valid)
    (ht : s.total + g.limit < 2 ^ 64) : (s.create x r g).Inv := by
  have hnone := h.refs.ref_eq_none hx
  have hadopt : adopt s.refs r x = s.refs.insert r x := by rw [adopt, hnone, Option.elim_none]
  -- nothing refers to the new account
  have hway : ¬ Relation.ReflTransGen (Up s.refs.ref) r x := by
    intro hrx
    rcases Relation.ReflTransGen.cases_tail hrx with rfl | ⟨c, -, hc⟩
    · exact hx hr
    · exact hx (h.refs.exist c x hc).2
  refine h.construct hx hg ht le_rfl (fun _ _ => hg.used_le) (fun y hy => ?_) ?_ ?_
  · rw [hadopt, Refs.insert_ref_of_ne hy]
  · rw [hadopt]
    exact (h.refs.mono (Finset.subset_insert _ _)).insert hnone (Finset.mem_insert_self _ _)
      (Finset.mem_insert_of_mem hr)
  · rw [hadopt]
    exact h.acyclic.update hway

/-- An account goes away. -/
theorem erase {refs : Refs ι} (h : s.Inv) (hc : refs.Consistent (s.live.erase x))
    (ha : Acyclic refs.ref) (hr : ∀ y r, refs.ref y = some r → ∃ r', s.refs.ref y = some r') :
    Inv { s with live := s.live.erase x, refs := refs } := by
  refine ⟨fun y hy => h.valid y (Finset.mem_of_mem_erase hy),
    fun y hy => h.initial_le y (Finset.mem_of_mem_erase hy), fun y r hy => ?_, ?_, hc, ha⟩
  · obtain ⟨r', hr'⟩ := hr y r hy
    exact h.initial_used y r' hr'
  · have hle : ∑ y ∈ s.live.erase x, (s.guard y).limit ≤ ∑ y ∈ s.live, (s.guard y).limit :=
      Finset.sum_le_sum_of_subset (Finset.erase_subset _ _)
    exact hle.trans_lt h.total_lt

end Inv

/-- The loop of the destructor is a hand-over. -/
theorem foldl_adopt {refs : Refs ι} {live : Finset ι} {os : List ι} (h : refs.Consistent live)
    (hos : refs.members x = os) (hr : r ≠ x) (hrl : r ∈ live) :
    os.foldl (fun refs o => adopt refs r o) refs = Refs.handOver x (some r) os refs := by
  induction os generalizing refs with
  | nil => rfl
  | cons o os ih =>
    obtain ⟨hc, hm, ho, -, -⟩ := h.pass hos (r := some r) (by
      rintro r' ⟨⟩
      exact ⟨hr, hrl⟩)
    have hstep : adopt refs r o = refs.pass x (some r) o := by
      rw [adopt, ho]
      rfl
    rw [List.foldl_cons, hstep, ih hc hm]
    rfl

namespace Inv

/-- The destructor: the final downgrade succeeds, what is above the
initial limit goes to the reference account, and so do the members. -/
theorem destroy (h : s.Inv) (hx : x ∈ s.live) (hr : s.refs.ref x = some r) :
    (s.destroy x).1 = true ∧ (s.destroy x).2.Inv ∧ (s.destroy x).2.live = s.live.erase x ∧
      ((s.destroy x).2.guard x).limit = s.initialLimit x ∧
      ((s.destroy x).2.guard r).limit =
        (s.guard r).limit + ((s.guard x).limit - s.initialLimit x) ∧
      (∀ y, y ≠ x → y ≠ r → (s.destroy x).2.guard y = s.guard y) ∧
      ∀ y, y ≠ x → (s.destroy x).2.refs.ref y =
        if s.refs.ref y = some x then some r else s.refs.ref y := by
  have hrl := (h.refs.exist x r hr).2
  have hne : x ≠ r := by
    rintro rfl
    exact h.acyclic x (.single hr)
  have hi := h.initial_le x hx
  -- the guard without dangling allocations
  obtain ⟨g, hg, hv, hlim, hused⟩ : ∃ g, (if s.initialUsed x < (s.guard x).used
      then (s.guard x).replenish ((s.guard x).used - s.initialUsed x) else s.guard x) = g ∧
      g.Valid ∧ g.limit = (s.guard x).limit ∧ g.used ≤ s.initialLimit x := by
    have hiu := h.initial_used x r hr
    split
    · refine ⟨_, rfl, (h.valid x hx).replenish, rfl, ?_⟩
      rw [QuotaGuard.replenish_used]
      omega
    · exact ⟨_, rfl, h.valid x hx, rfl, by omega⟩
  have hq := h.transferrableQuota_eq hx hlim
  generalize hd : (s.guard x).limit - s.initialLimit x = d at *
  have hdown : g.tryDowngrade d = some (g.lower d) :=
    hv.tryDowngrade_eq_some.mpr ⟨by omega, rfl⟩
  have hs : s.destroy x = (true,
      { (s.setGuard r ((s.guard r).upgrade d)).setGuard x (g.lower d) with
        live := s.live.erase x
        refs := (Refs.handOver x (some r) (s.refs.members x) s.refs).remove r x }) := by
    unfold Accounts.destroy
    rw [hr]
    dsimp only
    rw [hg, hq, hdown, ← foldl_adopt h.refs rfl hne.symm hrl]
    rfl
  obtain ⟨hc, hm, href⟩ := h.refs.handOver (x := x) rfl (r := some r) (by
    rintro r' ⟨⟩
    exact ⟨hne.symm, hrl⟩)
  have hrx : (Refs.handOver x (some r) (s.refs.members x) s.refs).ref x = some r := by
    rw [href, if_neg (by simpa [hr] using hne.symm), hr]
  have hout : ∀ y, y ≠ x → ((Refs.handOver x (some r) (s.refs.members x) s.refs).remove r x).ref y =
      if s.refs.ref y = some x then some r else s.refs.ref y := fun y hy => by
    rw [Refs.remove_ref_of_ne hy, href]
  -- the limits are those after a transfer
  have hI₁ : (s.setGuard x g).Inv := h.setGuard hx hv (by rw [hlim]; exact hi) (by
    rw [hlim]
    exact Nat.add_lt_add_right h.total_lt _)
  obtain ⟨hI₂, -, hup⟩ := hI₁.move hx hrl hne
    (show d ≤ _ by rw [setGuard_self, hlim, ← hd]; exact le_rfl)
    (by rw [setGuard_self]; exact hv.tryDowngrade hdown)
  rw [setGuard_self, setGuard_of_ne hne.symm] at hI₂
  rw [setGuard_of_ne hne.symm] at hup
  have hguard : (s.setGuard r ((s.guard r).upgrade d)).setGuard x (g.lower d) =
      ((s.setGuard x g).setGuard x (g.lower d)).setGuard r ((s.guard r).upgrade d) := by
    simp only [Accounts.setGuard, Function.update_idem, Function.update_comm hne]
  rw [hs]
  refine ⟨rfl, ?_, rfl, ?_, ?_, fun y hyx hyr => ?_, hout⟩
  · rw [hguard]
    refine hI₂.erase ?_ ?_ fun y r' hy => ?_
    · refine (hc.remove hrx).erase Refs.remove_ref_self ?_
      rw [Refs.remove_members_of_ne hne, hm]
    · exact (Refs.acyclic_handOver h.acyclic hr href).mono of_update_none
    · by_cases hyx : y = x
      · exact ⟨r, hyx ▸ hr⟩
      · rw [hout y hyx] at hy
        split at hy
        · exact ⟨x, by assumption⟩
        · exact ⟨r', hy⟩
  · dsimp only
    rw [setGuard_self, QuotaGuard.lower_limit]
    omega
  · dsimp only
    rw [setGuard_of_ne hne.symm, setGuard_self, hup]
  · exact (setGuard_of_ne hyx).trans (setGuard_of_ne hyr)

/-- The initial account goes away when nothing refers to it. -/
theorem destroy_initial (h : s.Inv) (hr : s.refs.ref x = none) (hm : s.refs.members x = []) :
    (s.destroy x).2.Inv := by
  have hs : s.destroy x = (true, { s with live := s.live.erase x }) := by
    unfold Accounts.destroy
    rw [hr]
  rw [hs]
  exact h.erase (h.refs.erase hr hm) h.acyclic fun y r hy => ⟨r, hy⟩

theorem exec {op : Op ι} {s' : Accounts ι} (h : s.Inv) (hop : s.Allowed op)
    (hs' : s.exec op = .ok s') : s'.Inv := by
  cases op with
  | createInitial x g =>
    cases hs'
    exact h.createInitial hop.1 hop.2.1 hop.2.2
  | create x g r =>
    cases hs'
    exact h.create hop.1 hop.2.1 hop.2.2.1 hop.2.2.2
  | transferQuota x y amount =>
    cases hs'
    exact (h.transferQuota hop.1 hop.2).1
  | withdraw x amount =>
    cases hs'
    exact h.withdraw hop
  | replenish x amount =>
    cases hs'
    exact h.replenish hop
  | destroy x =>
    cases hs'
    cases hr : s.refs.ref x with
    | none => exact h.destroy_initial hr (hop.2 hr)
    | some r => exact (h.destroy hop.1 hr).2.1

end Inv

/-! ## Runs -/

variable {hist : List (Accounts ι × Op ι)}

theorem inv_of_run (h : Run Init Trans hist s) : s.Inv := by
  refine h.invariant ?_ fun s op s' hs ht => hs.exec ht.1 ht.2
  rintro s ⟨hl, hr⟩
  refine ⟨by simp [hl], by simp [hl], by simp [hr], ?_, ?_, ?_⟩
  · simp [total, hl]
  · rw [hr]
    exact ⟨by simp, by simp, by simp⟩
  · rw [hr]
    exact fun x => not_onCycle_of_none rfl

/-- In every run each account is within its limit, and the limit is not
below the initial one. A transfer keeps the sum of all limits, and one
that throws changes nothing. The destructor of an account with a
reference account never fails to downgrade, moves exactly what is above
the initial limit, and has the accounts below adopted. -/
theorem quota_of_run (h : Run Init Trans hist s) :
    (∀ x ∈ s.live, (s.guard x).used ≤ (s.guard x).limit ∧
      s.initialLimit x ≤ (s.guard x).limit) ∧
    (∀ x ∈ s.live, ∀ y ∈ s.live, ∀ amount,
      (s.transferQuota x y amount).2.total = s.total ∧
      ∀ e, (s.transferQuota x y amount).1 = .error e → (s.transferQuota x y amount).2 = s) ∧
    ∀ x ∈ s.live, ∀ r, s.refs.ref x = some r →
      (s.destroy x).1 = true ∧
      ((s.destroy x).2.guard x).limit = s.initialLimit x ∧
      ((s.destroy x).2.guard r).limit =
        (s.guard r).limit + ((s.guard x).limit - s.initialLimit x) ∧
      (∀ y ∈ s.live, y ≠ x → y ≠ r → (s.destroy x).2.guard y = s.guard y) ∧
      ∀ y ∈ s.live, s.refs.ref y = some x → (s.destroy x).2.refs.ref y = some r := by
  have hI := inv_of_run h
  refine ⟨fun x hx => ⟨(hI.valid x hx).used_le, hI.initial_le x hx⟩, fun x hx y hy amount => ?_,
    fun x hx r hr => ?_⟩
  · exact (hI.transferQuota hx hy).2
  · obtain ⟨h₁, -, -, h₂, h₃, h₄, h₅⟩ := hI.destroy hx hr
    refine ⟨h₁, h₂, h₃, fun y _ => h₄ y, fun y _ hy => ?_⟩
    have hyx : y ≠ x := by
      rintro rfl
      exact hI.acyclic y (.single hy)
    rw [h₅ y hyx, if_pos hy]

/-- Execute operations, beginning without accounts. -/
theorem exists_run (s : Accounts ι) (hs : Init s) (ops : List (Op ι))
    {p : List (Accounts ι × Op ι) × Accounts ι → Prop} [DecidablePred p]
    (h : (replay (perform Allowed exec) ops ([], s)).any (fun r => decide (p r)) = true) :
    ∃ hist s, Run Init Trans hist s ∧ p (hist, s) :=
  exists_guarded_run hs h

/-- Three accounts in a row; the one in the middle is about to be
destroyed while it has dangling allocations. -/
theorem quota_of_run_middle :
    ∃ hist, ∃ s : Accounts (Fin 3), Run Init Trans hist s ∧ 1 ∈ s.live ∧ s.refs.ref 1 = some 0 ∧
      (s.guard 0).limit = 60 ∧ (s.guard 1).limit = 50 ∧
      ((s.destroy 1).2.guard 0).limit = 100 ∧ (s.destroy 1).2.refs.ref 2 = some 0 := by
  obtain ⟨hist, s, h, hl, h₀, h₂, hg₀, hg₁, hi⟩ := exists_run
    (⟨∅, fun _ => ⟨0, 0⟩, fun _ => 0, fun _ => 0, ⟨fun _ => none, fun _ => []⟩⟩ : Accounts (Fin 3))
    ⟨rfl, rfl⟩
    [.createInitial 0 ⟨100, 3⟩, .create 1 ⟨10, 2⟩ 0, .create 2 ⟨5, 0⟩ 1, .transferQuota 0 1 40,
      .withdraw 1 30]
    (p := fun r => 1 ∈ r.2.live ∧ r.2.refs.ref 1 = some 0 ∧ (2 ∈ r.2.live ∧ r.2.refs.ref 2 = some 1) ∧
      (r.2.guard 0).limit = 60 ∧ (r.2.guard 1).limit = 50 ∧ r.2.initialLimit 1 = 10)
    (by decide +kernel)
  obtain ⟨-, -, h₃, -, h₄⟩ := (quota_of_run h).2.2 1 hl 0 h₀
  refine ⟨hist, s, h, hl, h₀, hg₀, hg₁, ?_, h₄ 2 h₂.1 h₂.2⟩
  rw [h₃, hg₀, hg₁, hi]

end Accounts

end Genode.Core
