import Mathlib.Algebra.BigOperators.Group.List.Basic
import Genode.Core.CpuSession

/-!
# CpuSessionRuns — shares, totals and references over time

The shares of the threads and the total quota do not depend on how the
sessions refer to each other, except where a session is destroyed. There
the quota goes to the reference account, so this must be another
session. What the destructor does is told for sessions without cycles;
that no cycle arises is up to those who set the reference accounts
(`NoCycle`).
-/

namespace Genode.Core.CpuSessions

open Lib

variable {σ τ : Type} [DecidableEq σ] [DecidableEq τ] {s s' : CpuSessions σ τ} {x y r : σ} {t : τ}

/-! ## Shares of the threads -/

/-- The thread has the quota that its weight gives it. -/
def Share (s : CpuSessions σ τ) (x : σ) (t : τ) : Prop :=
  s.threadQuota t = s.weightToQuota x (s.threadWeight t)

/-- The weights add up, and each thread has its share. -/
structure Shares (s : CpuSessions σ τ) : Prop where
  weight_eq : ∀ x ∈ s.live, s.weight x = ((s.threads x).map s.threadWeight).sum
  share : ∀ x ∈ s.live, ∀ t ∈ s.threads x, s.Share x t
  apart : ∀ x ∈ s.live, ∀ y ∈ s.live, ∀ t ∈ s.threads x, t ∈ s.threads y → x = y
  nodup : ∀ x ∈ s.live, (s.threads x).Nodup

/-- At most weight and quota of `x` differ, and the shares of its threads
follow. -/
structure Reshared (x : σ) (s s' : CpuSessions σ τ) : Prop where
  live : s'.live = s.live
  threads : s'.threads = s.threads
  threadWeight : s'.threadWeight = s.threadWeight
  refs : s'.refs = s.refs
  weight : ∀ y, y ≠ x → s'.weight y = s.weight y
  quota : ∀ y, y ≠ x → s'.quota y = s.quota y
  threadQuota : ∀ t, t ∉ s.threads x → s'.threadQuota t = s.threadQuota t
  share : (∀ t ∈ s.threads x, s.Share x t) → ∀ t ∈ s.threads x, s'.Share x t

omit [DecidableEq σ] [DecidableEq τ] in
theorem Share.congr (h : s.Share x t) (hw : s'.weight x = s.weight x) (hq : s'.quota x = s.quota x)
    (ht : s'.threadWeight t = s.threadWeight t) (htq : s'.threadQuota t = s.threadQuota t) :
    s'.Share x t := by
  unfold Share weightToQuota
  rw [htq, ht, hw, hq]
  exact h

omit [DecidableEq σ] in
theorem share_updateEachThreadQuota (ht : t ∈ s.threads x) :
    (s.updateEachThreadQuota x).Share x t := if_pos ht

theorem reshared_setWeight (w : Nat) :
    Reshared x s (s.setWeight x w) ∧ (s.setWeight x w).weight x = w ∧
      (s.setWeight x w).quota = s.quota := by
  unfold setWeight
  dsimp only
  split
  · refine ⟨⟨rfl, rfl, rfl, rfl, fun y hy => Function.update_of_ne hy _ _, fun _ _ => rfl,
      fun t ht => if_neg ht, fun _ t ht => share_updateEachThreadQuota ht⟩, ?_, rfl⟩
    exact Function.update_self _ _ _
  · -- without quota nobody has a share, whatever the weights are
    rename_i hq
    rw [not_not] at hq
    refine ⟨⟨rfl, rfl, rfl, rfl, fun y hy => Function.update_of_ne hy _ _, fun _ _ => rfl,
      fun _ _ => rfl, fun h t ht => ?_⟩, Function.update_self _ _ _, rfl⟩
    have hzero : ∀ (s : CpuSessions σ τ) w, s.quota x = 0 → s.weightToQuota x w = 0 := by
      intro s w hs
      simp [weightToQuota, hs]
    have hnone : s.threadQuota t = 0 := (h t ht).trans (hzero s _ hq)
    have hnone' := hzero { s with weight := Function.update s.weight x w } (s.threadWeight t) hq
    exact hnone.trans hnone'.symm

theorem reshared_setQuota (q : Nat) :
    Reshared x s (s.setQuota x q) ∧ (s.setQuota x q).weight = s.weight ∧
      (s.setQuota x q).quota x = q :=
  ⟨⟨rfl, rfl, rfl, rfl, fun _ _ => rfl, fun _ hy => Function.update_of_ne hy _ _,
    fun _ ht => if_neg ht, fun _ _ ht => share_updateEachThreadQuota ht⟩, rfl,
    Function.update_self _ _ _⟩

omit [DecidableEq σ] [DecidableEq τ] in
/-- The shares stay right if the weight still is the sum. -/
theorem Shares.reshared (h : s.Shares) (hx : x ∈ s.live) (hr : Reshared x s s')
    (hw : s'.weight x = s.weight x) : s'.Shares := by
  have hweight : ∀ y, s'.weight y = s.weight y := fun y => by
    by_cases hy : y = x
    · rw [hy, hw]
    · exact hr.weight y hy
  refine ⟨fun y hy => ?_, fun y hy t ht => ?_, ?_, ?_⟩
  · rw [hr.live] at hy
    rw [hweight, hr.threads, hr.threadWeight]
    exact h.weight_eq y hy
  · rw [hr.live] at hy
    rw [hr.threads] at ht
    by_cases hyx : y = x
    · subst hyx
      exact hr.share (h.share y hy) t ht
    · have htx : t ∉ s.threads x := fun htx => hyx (h.apart y hy x hx t ht htx)
      exact (h.share y hy t ht).congr (hweight y) (hr.quota y hyx) (by rw [hr.threadWeight])
        (hr.threadQuota t htx)
  · rw [hr.live, hr.threads]
    exact h.apart
  · rw [hr.live, hr.threads]
    exact h.nodup

omit [DecidableEq σ] [DecidableEq τ] in
/-- The shares of rounded quota are not more than all of it. -/
theorem Shares.sum_le (h : s.Shares) (hx : x ∈ s.live) :
    ((s.threads x).map s.threadQuota).sum ≤ s.quota x := by
  have hmap : (s.threads x).map s.threadQuota =
      (s.threads x).map fun t => s.weightToQuota x (s.threadWeight t) :=
    List.map_congr_left fun t ht => h.share x hx t ht
  rw [hmap]
  by_cases hw : s.weight x = 0
  · simp [weightToQuota, hw]
  have hbound : ∀ ts : List τ,
      s.weight x * (ts.map fun t => s.weightToQuota x (s.threadWeight t)).sum ≤
        (ts.map s.threadWeight).sum * s.quota x := by
    intro ts
    induction ts with
    | nil => simp
    | cons t ts ih =>
      have ht : s.weight x * s.weightToQuota x (s.threadWeight t) ≤
          s.threadWeight t * s.quota x := by
        unfold weightToQuota
        rw [if_neg hw]
        exact (Nat.mul_div_le _ _).trans (Nat.mod_le _ _)
      simp only [List.map_cons, List.sum_cons, Nat.mul_add, Nat.add_mul]
      exact Nat.add_le_add ht ih
  have hall := hbound (s.threads x)
  rw [← h.weight_eq x hx] at hall
  exact Nat.le_of_mul_le_mul_left hall (Nat.pos_of_ne_zero hw)

/-! ## Threads come and go -/

omit [DecidableEq τ] in
@[simp] theorem setThreads_self {ts : List τ} : (s.setThreads x ts).threads x = ts :=
  Function.update_self _ _ _

omit [DecidableEq τ] in
theorem setThreads_of_ne {ts : List τ} (h : y ≠ x) : (s.setThreads x ts).threads y = s.threads y :=
  Function.update_of_ne h _ _

/-- Some of the threads are left, and the weight follows. -/
theorem Shares.setThreads {ts : List τ} {w : Nat} (h : s.Shares) (hx : x ∈ s.live)
    (hts : ∀ t ∈ ts, t ∈ s.threads x) (hnd : ts.Nodup) (hw : w = (ts.map s.threadWeight).sum) :
    ((s.setThreads x ts).setWeight x w).Shares := by
  obtain ⟨hr, hwx, -⟩ := reshared_setWeight (s := s.setThreads x ts) (x := x) w
  have hsub : ∀ y, ∀ t ∈ (s.setThreads x ts).threads y, t ∈ s.threads y := by
    intro y t ht
    by_cases hy : y = x
    · subst hy
      exact hts t (by simpa using ht)
    · rwa [setThreads_of_ne hy] at ht
  refine ⟨fun y hy => ?_, fun y hy t ht => ?_, fun y hy z hz t ht ht' => ?_, fun y hy => ?_⟩
  · rw [hr.threads, hr.threadWeight]
    by_cases hyx : y = x
    · subst hyx
      rw [hwx, setThreads_self, hw]
      rfl
    · rw [hr.weight y hyx, setThreads_of_ne hyx]
      exact h.weight_eq y (hr.live ▸ hy)
  · rw [hr.live] at hy
    rw [hr.threads] at ht
    have hty := hsub y t ht
    by_cases hyx : y = x
    · subst hyx
      exact hr.share (fun t ht => (h.share y hy t (hsub y t ht)).congr rfl rfl rfl rfl) t ht
    · have htx : t ∉ (s.setThreads x ts).threads x := fun htx =>
        hyx (h.apart y hy x hx t hty (hsub x t htx))
      exact (h.share y hy t hty).congr (hr.weight y hyx) (hr.quota y hyx)
        (congrFun hr.threadWeight t) (hr.threadQuota t htx)
  · rw [hr.live] at hy hz
    rw [hr.threads] at ht ht'
    exact h.apart y hy z hz t (hsub y t ht) (hsub z t ht')
  · rw [hr.threads]
    by_cases hyx : y = x
    · subst hyx
      rwa [setThreads_self]
    · rw [setThreads_of_ne hyx]
      exact h.nodup y (hr.live ▸ hy)

theorem Shares.unsynchronizedKillThread (h : s.Shares) (hx : x ∈ s.live) (ht : t ∈ s.threads x) :
    (s.unsynchronizedKillThread x t).Shares := by
  refine h.setThreads hx (fun u hu => List.mem_of_mem_erase hu) ((h.nodup x hx).erase t) ?_
  have hsum := List.sum_map_erase s.threadWeight ht
  have hw := h.weight_eq x hx
  change s.weight x - s.threadWeight t = _
  omega

theorem Shares.killThread (h : s.Shares) (hx : x ∈ s.live) : (s.killThread x t).Shares := by
  unfold CpuSessions.killThread
  split
  · rename_i ht
    exact h.unsynchronizedKillThread hx ht
  · exact h

/-- A failed creation leaves the weight as it was. -/
theorem Shares.createThread_failed (h : s.Shares) (hx : x ∈ s.live) (w : Nat) :
    ((s.incrWeight x w).decrWeight x w).Shares := by
  obtain ⟨hr₁, hw₁, -⟩ := reshared_setWeight (s := s) (x := x) (s.weight x + w)
  obtain ⟨hr₂, hw₂, -⟩ := reshared_setWeight (s := s.incrWeight x w) (x := x)
    ((s.incrWeight x w).weight x - w)
  have hr : Reshared x s ((s.incrWeight x w).decrWeight x w) := by
    refine ⟨hr₂.live.trans hr₁.live, hr₂.threads.trans hr₁.threads,
      hr₂.threadWeight.trans hr₁.threadWeight, hr₂.refs.trans hr₁.refs,
      fun y hy => (hr₂.weight y hy).trans (hr₁.weight y hy),
      fun y hy => (hr₂.quota y hy).trans (hr₁.quota y hy), fun t ht => ?_, fun hs t ht => ?_⟩
    · rw [← hr₁.threads] at ht
      exact (hr₂.threadQuota t ht).trans (hr₁.threadQuota t (hr₁.threads ▸ ht))
    · have ht' := ht
      rw [← hr₁.threads] at ht'
      exact hr₂.share (fun u hu => hr₁.share hs u (hr₁.threads ▸ hu)) t ht'
  refine h.reshared hx hr (hw₂.trans ?_)
  rw [incrWeight, hw₁]
  omega

/-- A thread with its share is put to the others. -/
theorem Shares.insertThread {s₁ : CpuSessions σ τ} {w : Nat} (h : s.Shares) (hx : x ∈ s.live)
    (ht : ∀ y ∈ s.live, t ∉ s.threads y) (hr : Reshared x s s₁) (hw : s₁.weight x = s.weight x + w) :
    ((s₁.constructThread t w (s₁.weightToQuota x w)).setThreads x (t :: s₁.threads x)).Shares := by
  generalize hs₂ : (s₁.constructThread t w (s₁.weightToQuota x w)).setThreads x
    (t :: s₁.threads x) = s₂
  have hlive : s₂.live = s.live := hs₂ ▸ hr.live
  have hweight : s₂.weight = s₁.weight := hs₂ ▸ rfl
  have hquota : s₂.quota = s₁.quota := hs₂ ▸ rfl
  have hself : s₂.threads x = t :: s.threads x := by
    rw [← hs₂, setThreads_self, hr.threads]
  have hother : ∀ y, y ≠ x → s₂.threads y = s.threads y := fun y hy => by
    rw [← hs₂, setThreads_of_ne hy]
    exact congrFun hr.threads y
  have htw : s₂.threadWeight t = w := hs₂ ▸ Function.update_self _ _ _
  have htq : s₂.threadQuota t = s₁.weightToQuota x w := hs₂ ▸ Function.update_self _ _ _
  have huw : ∀ u, u ≠ t → s₂.threadWeight u = s₁.threadWeight u := fun u hu =>
    hs₂ ▸ Function.update_of_ne hu _ _
  have huq : ∀ u, u ≠ t → s₂.threadQuota u = s₁.threadQuota u := fun u hu =>
    hs₂ ▸ Function.update_of_ne hu _ _
  have hne : ∀ y ∈ s.live, ∀ u ∈ s.threads y, u ≠ t := by
    rintro y hy u hu rfl
    exact ht y hy hu
  have hsum : ∀ y ∈ s.live, (s.threads y).map s₂.threadWeight = (s.threads y).map s.threadWeight :=
    fun y hy => List.map_congr_left fun u hu => by rw [huw u (hne y hy u hu), hr.threadWeight]
  -- the threads that were there before
  have hshare : ∀ y ∈ s.live, ∀ u ∈ s.threads y, s₂.Share y u := by
    intro y hy u hu
    have hut := hne y hy u hu
    by_cases hyx : y = x
    · subst hyx
      exact (hr.share (h.share y hy) u hu).congr (congrFun hweight y) (congrFun hquota y)
        (huw u hut) (huq u hut)
    · have hux : u ∉ s.threads x := fun hux => hyx (h.apart y hy x hx u hu hux)
      exact (h.share y hy u hu).congr ((congrFun hweight y).trans (hr.weight y hyx))
        ((congrFun hquota y).trans (hr.quota y hyx))
        ((huw u hut).trans (congrFun hr.threadWeight u)) ((huq u hut).trans (hr.threadQuota u hux))
  have hmem : ∀ y, ∀ u ∈ s₂.threads y, u ∈ s.threads y ∨ (y = x ∧ u = t) := by
    intro y u hu
    by_cases hyx : y = x
    · subst hyx
      rw [hself, List.mem_cons] at hu
      exact hu.elim (fun h => .inr ⟨rfl, h⟩) .inl
    · exact .inl (hother y hyx ▸ hu)
  refine ⟨fun y hy => ?_, fun y hy u hu => ?_, fun y hy z hz u hu hu' => ?_, fun y hy => ?_⟩
  · rw [hlive] at hy
    rw [hweight]
    by_cases hyx : y = x
    · subst hyx
      rw [hself, List.map_cons, List.sum_cons, hsum y hy, htw, hw, h.weight_eq y hy, Nat.add_comm]
    · rw [hother y hyx, hsum y hy, hr.weight y hyx]
      exact h.weight_eq y hy
  · rw [hlive] at hy
    rcases hmem y u hu with hu | ⟨rfl, rfl⟩
    · exact hshare y hy u hu
    · unfold Share weightToQuota
      rw [htq, htw, hweight, hquota]
      rfl
  · rw [hlive] at hy hz
    rcases hmem y u hu with hu | ⟨hyx, hut⟩
    · rcases hmem z u hu' with hu' | ⟨-, hut'⟩
      · exact h.apart y hy z hz u hu hu'
      · exact absurd (hut' ▸ hu) (ht y hy)
    · rcases hmem z u hu' with hu' | ⟨hzx, -⟩
      · exact absurd (hut ▸ hu') (ht z hz)
      · rw [hyx, hzx]
  · rw [hlive] at hy
    by_cases hyx : y = x
    · subst hyx
      rw [hself]
      exact List.nodup_cons.mpr ⟨ht y hy, h.nodup y hy⟩
    · rw [hother y hyx]
      exact h.nodup y hy

theorem Shares.createThread (h : s.Shares) (hx : x ∈ s.live) (ht : ∀ y ∈ s.live, t ∉ s.threads y)
    (w : Nat) (created : Bool) : (s.createThread x t w created).Shares := by
  unfold CpuSessions.createThread
  dsimp only
  split
  swap
  · exact h.createThread_failed hx _
  obtain ⟨hr, hw, -⟩ := reshared_setWeight (s := s) (x := x) (s.weight x + effectiveWeight w)
  exact h.insertThread hx ht hr hw

/-- All threads of a session are killed. -/
theorem Shares.deinitThreads (h : s.Shares) (hx : x ∈ s.live) :
    (s.deinitThreads x).Shares ∧ (s.deinitThreads x).live = s.live ∧
      (s.deinitThreads x).quota = s.quota ∧ (s.deinitThreads x).refs = s.refs := by
  unfold CpuSessions.deinitThreads
  generalize hts : s.threads x = ts
  induction ts generalizing s with
  | nil => exact ⟨h, rfl, rfl, rfl⟩
  | cons t ts ih =>
    have hkill := h.unsynchronizedKillThread hx (t := t) (by simp [hts])
    obtain ⟨hr, -, hq⟩ := reshared_setWeight (s := s.setThreads x ((s.threads x).erase t)) (x := x)
      ((s.setThreads x ((s.threads x).erase t)).weight x - s.threadWeight t)
    have hts' : (s.unsynchronizedKillThread x t).threads x = ts := by
      refine (congrFun hr.threads x).trans ?_
      rw [setThreads_self, hts, List.erase_cons_head]
    obtain ⟨h₁, h₂, h₃, h₄⟩ := ih hkill (hr.live.symm ▸ hx) hts'
    exact ⟨h₁, h₂.trans hr.live, h₃.trans hq, h₄.trans hr.refs⟩

omit [DecidableEq τ] in
theorem Shares.create (h : s.Shares) (hx : x ∉ s.live) (q : Nat) : (s.create x q).Shares := by
  have hne : ∀ y ∈ s.live, y ≠ x := by
    rintro y hy rfl
    exact hx hy
  have hself : (s.create x q).threads x = [] := Function.update_self _ _ _
  have hother : ∀ y ∈ s.live, (s.create x q).threads y = s.threads y := fun y hy =>
    Function.update_of_ne (hne y hy) _ _
  have hmem : ∀ y ∈ (s.create x q).live, ∀ t ∈ (s.create x q).threads y,
      y ∈ s.live ∧ t ∈ s.threads y := by
    intro y hy t ht
    rcases Finset.mem_insert.mp hy with rfl | hy
    · simp [hself] at ht
    · exact ⟨hy, hother y hy ▸ ht⟩
  refine ⟨fun y hy => ?_, fun y hy t ht => ?_, fun y hy z hz t ht ht' => ?_, fun y hy => ?_⟩
  · rcases Finset.mem_insert.mp hy with rfl | hy
    · rw [hself]
      exact Function.update_self _ _ _
    · rw [hother y hy]
      exact (Function.update_of_ne (hne y hy) _ _).trans (h.weight_eq y hy)
  · obtain ⟨hy, ht⟩ := hmem y hy t ht
    exact (h.share y hy t ht).congr (Function.update_of_ne (hne y hy) _ _)
      (Function.update_of_ne (hne y hy) _ _) rfl rfl
  · obtain ⟨hy, ht⟩ := hmem y hy t ht
    obtain ⟨hz, ht'⟩ := hmem z hz t ht'
    exact h.apart y hy z hz t ht ht'
  · rcases Finset.mem_insert.mp hy with rfl | hy
    · rw [hself]
      exact List.nodup_nil
    · rw [hother y hy]
      exact h.nodup y hy

/-! ## Quota moves -/

theorem total_setQuota (hx : x ∈ s.live) (q : Nat) :
    (s.setQuota x q).total + s.quota x = s.total + q := by
  have hrest : ∑ y ∈ s.live.erase x, (s.setQuota x q).quota y = ∑ y ∈ s.live.erase x, s.quota y :=
    Finset.sum_congr rfl fun y hy => Function.update_of_ne (Finset.ne_of_mem_erase hy) _ _
  have h₁ := Finset.add_sum_erase s.live (fun y => (s.setQuota x q).quota y) hx
  have h₂ := Finset.add_sum_erase s.live (fun y => s.quota y) hx
  rw [hrest, (reshared_setQuota q).2.2] at h₁
  unfold total
  rw [← h₂]
  change ∑ y ∈ s.live, (s.setQuota x q).quota y + _ = _
  rw [← h₁]
  omega

omit [DecidableEq σ] [DecidableEq τ] in
theorem quota_le_total (hx : x ∈ s.live) : s.quota x ≤ s.total :=
  Finset.single_le_sum (f := s.quota) (fun _ _ => Nat.zero_le _) hx

/-- Quota moves from one session to another. -/
structure Moved (x y : σ) (q : Nat) (s s' : CpuSessions σ τ) : Prop where
  shares : s'.Shares
  live : s'.live = s.live
  refs : s'.refs = s.refs
  source : s'.quota x = s.quota x - q
  dest : s'.quota y = s.quota y + q
  total : s'.total = s.total

theorem moved_moveQuota {q : Nat} (h : s.Shares) (hx : x ∈ s.live) (hy : y ∈ s.live) (hne : x ≠ y)
    (hq : q ≤ s.quota x) (ht : s.total < 2 ^ 64) : Moved x y q s (s.moveQuota x y q) := by
  unfold moveQuota
  split
  · rename_i hq₀
    exact ⟨h, rfl, rfl, by omega, by omega, rfl⟩
  obtain ⟨hr₁, hw₁, hx₁⟩ := reshared_setQuota (s := s) (x := x) (s.quota x - q)
  have hs₁ := h.reshared hx hr₁ (congrFun hw₁ x)
  have ht₁ := total_setQuota hx (s.quota x - q)
  have hy₁ := hr₁.quota y hne.symm
  change Moved x y q s ((s.setQuota x (s.quota x - q)).incrQuota y q)
  generalize s.setQuota x (s.quota x - q) = s₁ at *
  have hle := quota_le_total (s := s₁) (x := y) (hr₁.live.symm ▸ hy)
  have hfit : (s₁.quota y + q) % 2 ^ 64 = s.quota y + q := by
    rw [← hy₁]
    exact Nat.mod_eq_of_lt (by omega)
  obtain ⟨hr₂, hw₂, hx₂⟩ := reshared_setQuota (s := s₁) (x := y) ((s₁.quota y + q) % 2 ^ 64)
  have ht₂ := total_setQuota (s := s₁) (x := y) (hr₁.live.symm ▸ hy) ((s₁.quota y + q) % 2 ^ 64)
  rw [hfit] at hx₂ ht₂
  refine ⟨hs₁.reshared (hr₁.live.symm ▸ hy) hr₂ (congrFun hw₂ y), hr₂.live.trans hr₁.live,
    hr₂.refs.trans hr₁.refs, (hr₂.quota x hne).trans hx₁, ?_, ?_⟩
  · rw [incrQuota, hfit]
    exact hx₂
  · rw [incrQuota, hfit]
    omega

/-! ## Reference accounts -/

/-- Without self reference the loop is a hand-over. -/
theorem rewire_eq {refs : Refs σ} {live : Finset σ} {os : List σ} {ref : Option σ} {n : Nat}
    (h : refs.Consistent live) (hos : refs.members x = os) (href : refs.ref x = ref)
    (hr : ∀ r, ref = some r → r ≠ x ∧ r ∈ live) (hn : os.length < n) :
    rewire x n refs = .ok (Refs.handOver x ref os refs) := by
  induction os generalizing refs n with
  | nil =>
    obtain _ | n := n
    · simp at hn
    · rw [rewire, hos]
      rfl
  | cons o os ih =>
    obtain _ | n := n
    · simp at hn
    obtain ⟨hc, hm, ho, -, hother⟩ := h.pass hos hr
    have hox : x ≠ o := by
      rintro rfl
      exact (hr x (href.symm.trans ho)).1 rfl
    have hstep : ((refs.remove x o).ref x).elim (.ok (refs.remove x o)) (fun r =>
        if r = x then .error .endless else .ok ((refs.remove x o).insert r o)) =
        (.ok (refs.pass x ref o) : Exec (Refs σ)) := by
      rw [Refs.remove_ref_of_ne hox, href]
      cases ref with
      | none => rfl
      | some r =>
        rw [Option.elim_some, if_neg (hr r rfl).1]
        rfl
    rw [rewire, hos]
    dsimp only
    rw [hstep, Exec.ok_bind]
    exact ih hc hm ((hother x hox).trans href) (by simpa using hn)

/-- What holds of all sessions, as long as there are no cycles. -/
structure Inv (s : CpuSessions σ τ) : Prop where
  shares : s.Shares
  refs : s.refs.Consistent s.live
  acyclic : Acyclic s.refs.ref
  total_lt : s.total < 2 ^ 64

omit [DecidableEq σ] [DecidableEq τ] in
/-- A reference account is another session that exists. -/
theorem Inv.ref_ne (h : s.Inv) (hr : s.refs.ref x = some r) : r ≠ x ∧ r ∈ s.live := by
  refine ⟨?_, (h.refs.exist x r hr).2⟩
  rintro rfl
  exact h.acyclic r (.single hr)

omit [DecidableEq τ] in
theorem Shares.erase {refs : Refs σ} (h : s.Shares) :
    Shares { s with live := s.live.erase x, refs := refs } :=
  ⟨fun y hy => h.weight_eq y (Finset.mem_of_mem_erase hy),
    fun y hy => h.share y (Finset.mem_of_mem_erase hy),
    fun y hy z hz => h.apart y (Finset.mem_of_mem_erase hy) z (Finset.mem_of_mem_erase hz),
    fun y hy => h.nodup y (Finset.mem_of_mem_erase hy)⟩

/-- What the destructor does. -/
structure Destroyed (x : σ) (s s' : CpuSessions σ τ) : Prop where
  inv : s'.Inv
  live : s'.live = s.live.erase x
  ref : ∀ y, y ≠ x → s'.refs.ref y =
    if s.refs.ref y = some x then s.refs.ref x else s.refs.ref y
  /-- The quota goes to the reference account. -/
  quota : ∀ r, s.refs.ref x = some r → s'.quota r = s.quota r + s.quota x ∧ s'.total = s.total

theorem Inv.destroy (h : s.Inv) (hx : x ∈ s.live) :
    ∃ s', s.destroy x = .ok s' ∧ Destroyed x s s' := by
  obtain ⟨hs₁, hl₁, hq₁, hr₁⟩ := h.shares.deinitThreads hx
  have hrne : ∀ r, s.refs.ref x = some r → r ≠ x ∧ r ∈ s.live := fun r hr => h.ref_ne hr
  have htotal : (s.deinitThreads x).total = s.total := by
    unfold total
    rw [hl₁, hq₁]
  unfold CpuSessions.destroy deinitRefAccount
  dsimp only
  generalize s.deinitThreads x = s₁ at *
  rw [hr₁, rewire_eq h.refs rfl rfl hrne (Nat.lt_succ_self _), Exec.ok_bind]
  obtain ⟨hc, hm, href⟩ := h.refs.handOver (x := x) rfl hrne
  have hacyc := Refs.acyclic_handOver h.acyclic rfl href
  generalize Refs.handOver x (s.refs.ref x) (s.refs.members x) s.refs = refs at *
  have hrx : refs.ref x = s.refs.ref x := by
    rw [href, if_neg]
    exact fun hself => (hrne x hself).1 rfl
  rw [hrx]
  cases hr : s.refs.ref x with
  | none =>
    refine ⟨_, rfl, ⟨⟨hs₁.erase, ?_, hacyc, ?_⟩, ?_, fun y _ => href y, fun r hr' => ?_⟩⟩
    · dsimp only [Option.elim_none]
      rw [hl₁]
      exact hc.erase (hrx.trans hr) hm
    · refine lt_of_le_of_lt ?_ h.total_lt
      rw [← htotal]
      exact Finset.sum_le_sum_of_subset (Finset.erase_subset _ _)
    · exact congrArg (Finset.erase · x) hl₁
    · simp [hr] at hr'
  | some r =>
    obtain ⟨hne, hrl⟩ := hrne r hr
    have hmoved : Moved x r (s₁.quota x) { s₁ with refs := refs }
        (moveQuota { s₁ with refs := refs } x r (s₁.quota x)) := by
      refine moved_moveQuota ⟨hs₁.weight_eq, hs₁.share, hs₁.apart, hs₁.nodup⟩ ?_ ?_ hne.symm le_rfl ?_
      · exact (show x ∈ s₁.live from hl₁ ▸ hx)
      · exact (show r ∈ s₁.live from hl₁ ▸ hrl)
      · exact (show s₁.total < 2 ^ 64 from htotal ▸ h.total_lt)
    dsimp only [Option.elim_some]
    generalize moveQuota { s₁ with refs := refs } x r (s₁.quota x) = s₂ at *
    have hrefs : s₂.refs = refs := hmoved.refs
    have hlive : s₂.live = s.live := hmoved.live.trans hl₁
    have hsum : ∑ y ∈ s₂.live.erase x, s₂.quota y = s.total := by
      have hx₂ : s₂.quota x = 0 := hmoved.source.trans (Nat.sub_self _)
      have hadd := Finset.add_sum_erase s₂.live s₂.quota (hlive.symm ▸ hx)
      rw [hx₂, Nat.zero_add] at hadd
      exact hadd.trans (hmoved.total.trans htotal)
    refine ⟨_, rfl, ⟨⟨hmoved.shares.erase, ?_, ?_, ?_⟩, ?_, fun y hy => ?_, fun r' hr' => ?_⟩⟩
    · dsimp only
      rw [hrefs, hlive]
      refine (hc.remove (hrx.trans hr)).erase Refs.remove_ref_self ?_
      rw [Refs.remove_members_of_ne hne.symm, hm]
    · dsimp only
      rw [hrefs]
      exact hacyc.mono of_update_none
    · exact hsum.trans_lt h.total_lt
    · exact congrArg (Finset.erase · x) hlive
    · dsimp only
      rw [hrefs, Refs.remove_ref_of_ne hy, href, hr]
    · obtain rfl : r = r' := Option.some.inj (hr.symm.trans hr')
      refine ⟨hmoved.dest.trans ?_, hsum⟩
      dsimp only
      rw [hq₁]

/-- What a transfer does: nothing, or quota moves to another session. -/
theorem Inv.transferQuota_cases {dst : Option σ} (h : s.Inv) (hx : x ∈ s.live)
    (hdst : ∀ y ∈ dst, y ∈ s.live) (amount : Nat) :
    (s.transferQuota x dst amount).2 = s ∨
      ∃ y q, Moved x y q s (s.transferQuota x dst amount).2 := by
  cases dst with
  | none => exact .inl rfl
  | some y =>
    unfold CpuSessions.transferQuota
    dsimp only
    split
    · exact .inl rfl
    · rename_i hrel
      split
      · exact .inl rfl
      · rename_i hle
        have hne : x ≠ y := by
          rintro rfl
          have hself : s.refs.ref x = some x := by tauto
          exact (h.ref_ne hself).1 rfl
        exact .inr ⟨y, _, moved_moveQuota h.shares hx (hdst y rfl) hne (Nat.not_lt.mp hle) h.total_lt⟩

theorem Inv.transferQuota {dst : Option σ} {amount : Nat} (h : s.Inv) (hx : x ∈ s.live)
    (hdst : ∀ y ∈ dst, y ∈ s.live) : (s.transferQuota x dst amount).2.Inv ∧
      (s.transferQuota x dst amount).2.total = s.total := by
  rcases h.transferQuota_cases hx hdst amount with he | ⟨y, q, hm⟩
  · rw [he]
    exact ⟨h, rfl⟩
  · refine ⟨⟨hm.shares, ?_, ?_, hm.total ▸ h.total_lt⟩, hm.total⟩
    · rw [hm.refs, hm.live]
      exact h.refs
    · rw [hm.refs]
      exact h.acyclic

omit [DecidableEq τ] in
/-- What `ref_account` does: nothing, or it sets the reference. -/
theorem refAccount_cases (ref : Option σ) : (s.refAccount x ref).2 = s ∨
    ∃ r ∈ ref, s.refs.ref x = none ∧ r ≠ x ∧
      (s.refAccount x ref).2 = { s with refs := s.refs.insert r x } := by
  unfold CpuSessions.refAccount
  split
  · exact .inl rfl
  · rename_i hnone
    cases ref with
    | none => exact .inl rfl
    | some r =>
      dsimp only
      split
      · exact .inl rfl
      · rename_i hne
        exact .inr ⟨r, rfl, by simpa using hnone, hne, rfl⟩

omit [DecidableEq τ] in
theorem Inv.refAccount {ref : Option σ} (h : s.Inv) (hx : x ∈ s.live) (href : ∀ r ∈ ref, r ∈ s.live)
    (hc : s.NoCycle (.refAccount x ref)) : (s.refAccount x ref).2.Inv := by
  rcases refAccount_cases (s := s) (x := x) ref with he | ⟨r, hr, hnone, hne, he⟩
  · rw [he]
    exact h
  · rw [he]
    exact ⟨⟨h.shares.weight_eq, h.shares.share, h.shares.apart, h.shares.nodup⟩,
      h.refs.insert hnone hx (href r hr), h.acyclic.update (hc hnone r hr hne), h.total_lt⟩

omit [DecidableEq σ] [DecidableEq τ] in
/-- A change of the shares only. -/
theorem Inv.of_shares (h : s.Inv) (hs : s'.Shares) (hl : s'.live = s.live) (hr : s'.refs = s.refs)
    (hq : s'.quota = s.quota) : s'.Inv := by
  refine ⟨hs, ?_, ?_, ?_⟩
  · rw [hr, hl]
    exact h.refs
  · rw [hr]
    exact h.acyclic
  · unfold total
    rw [hl, hq]
    exact h.total_lt

theorem Inv.createThread (h : s.Inv) (hx : x ∈ s.live) (ht : ∀ y ∈ s.live, t ∉ s.threads y) (w : Nat)
    (created : Bool) : (s.createThread x t w created).Inv := by
  have hs := h.shares.createThread hx ht w created
  obtain ⟨hr, -, hq⟩ := reshared_setWeight (s := s) (x := x) (s.weight x + effectiveWeight w)
  cases created with
  | true => exact h.of_shares hs hr.live hr.refs hq
  | false =>
    obtain ⟨hr', -, hq'⟩ := reshared_setWeight (s := s.incrWeight x (effectiveWeight w)) (x := x)
      ((s.incrWeight x (effectiveWeight w)).weight x - effectiveWeight w)
    exact h.of_shares hs (hr'.live.trans hr.live) (hr'.refs.trans hr.refs) (hq'.trans hq)

theorem Inv.killThread (h : s.Inv) (hx : x ∈ s.live) : (s.killThread x t).Inv := by
  have hs := h.shares.killThread (t := t) hx
  unfold CpuSessions.killThread at hs ⊢
  split at hs
  · obtain ⟨hr, -, hq⟩ := reshared_setWeight (s := s.setThreads x ((s.threads x).erase t)) (x := x)
      ((s.setThreads x ((s.threads x).erase t)).weight x - s.threadWeight t)
    rw [if_pos ‹_›]
    exact h.of_shares hs hr.live hr.refs hq
  · rwa [if_neg ‹_›]

omit [DecidableEq τ] in
theorem Inv.create {q : Nat} (h : s.Inv) (hx : x ∉ s.live) (hq : s.total + q < 2 ^ 64) :
    (s.create x q).Inv := by
  refine ⟨h.shares.create hx q, h.refs.mono (Finset.subset_insert _ _), h.acyclic, ?_⟩
  have hsum : ∑ y ∈ s.live, (s.create x q).quota y = s.total := by
    refine Finset.sum_congr rfl fun y hy => Function.update_of_ne ?_ _ _
    rintro rfl
    exact hx hy
  have hself : (s.create x q).quota x = q := Function.update_self _ _ _
  change ∑ y ∈ insert x s.live, (s.create x q).quota y < _
  rw [Finset.sum_insert hx, hsum, hself]
  omega

theorem Inv.exec {op : Op σ τ} (h : s.Inv) (hop : s.Allowed op) (hc : s.NoCycle op)
    (hs' : s.exec op = .ok s') : s'.Inv := by
  cases op with
  | create x q =>
    cases hs'
    exact h.create hop.1 hop.2
  | createThread x t w created =>
    cases hs'
    exact h.createThread hop.1 hop.2 w created
  | killThread x t =>
    cases hs'
    exact h.killThread hop
  | transferQuota x dst amount =>
    cases hs'
    exact (h.transferQuota hop.1 hop.2).1
  | refAccount x ref =>
    cases hs'
    exact h.refAccount hop.1 hop.2 hc
  | destroy x =>
    obtain ⟨s'', hs'', hd⟩ := h.destroy hop
    obtain rfl : s'' = s' := by
      change s.destroy x = .ok s' at hs'
      simpa [hs''] using hs'
    exact hd.inv

/-! ## Runs -/

variable {hist : List (CpuSessions σ τ × Op σ τ)}

omit [DecidableEq σ] [DecidableEq τ] in
theorem inv_init (h : Init s) : s.Inv := by
  obtain ⟨hl, -, hr⟩ := h
  refine ⟨⟨by simp [hl], by simp [hl], by simp [hl], by simp [hl]⟩, ?_, ?_, by simp [total, hl]⟩
  · rw [hr]
    exact ⟨by simp, by simp, by simp⟩
  · rw [hr]
    exact fun x => not_onCycle_of_none rfl

/-- As long as no reference account closes a cycle: the weight of each
session is the sum of the weights of its threads, their quotas are not
more than the quota of the session, and the quota of all sessions stays
the same in a transfer and when a session with reference account is
destroyed. -/
theorem quota_conserved_of_run (h : Run Init Trans hist s) (hc : ∀ e ∈ hist, e.1.NoCycle e.2) :
    ∀ u ∈ reached hist s,
      (∀ x ∈ u.live, u.weight x = ((u.threads x).map u.threadWeight).sum ∧
        ((u.threads x).map u.threadQuota).sum ≤ u.quota x) ∧
      (∀ x ∈ u.live, ∀ dst, (∀ y ∈ dst, y ∈ u.live) → ∀ amount,
        (u.transferQuota x dst amount).2.total = u.total) ∧
      ∀ x ∈ u.live, (u.refs.ref x).isSome → ∃ u', u.destroy x = .ok u' ∧ u'.total = u.total := by
  refine h.forall_reached_of (I := Inv) (C := NoCycle) (fun s hs => inv_init hs) ?_ ?_ hc
  · intro s op s' hs ht hc
    exact hs.exec ht.1 hc ht.2
  · intro u hu
    refine ⟨fun x hx => ⟨hu.shares.weight_eq x hx, hu.shares.sum_le hx⟩,
      fun x hx dst hdst amount => (hu.transferQuota hx hdst).2, fun x hx hr => ?_⟩
    obtain ⟨r, hr⟩ := Option.isSome_iff_exists.mp hr
    obtain ⟨u', hu', hd⟩ := hu.destroy hx
    exact ⟨u', hu', (hd.quota r hr).2⟩

/-- The references are sound: they agree with the lists of members, they
lead to sessions that exist and never back to where they came from, and
a destroyed session gives its quota to another session. -/
def RefsSound (s : CpuSessions σ τ) : Prop :=
  (∀ x r, s.refs.ref x = some r ↔ x ∈ s.refs.members r) ∧
  (∀ x r, s.refs.ref x = some r → x ∈ s.live ∧ r ∈ s.live) ∧
  (∀ x, ¬ Relation.TransGen (fun x r => s.refs.ref x = some r) x x) ∧
  ∀ x ∈ s.live, ∀ r, s.refs.ref x = some r → ∃ s', s.destroy x = .ok s' ∧ r ≠ x ∧ r ∈ s'.live ∧
    s'.quota r = s.quota r + s.quota x

theorem Inv.refsSound (h : s.Inv) : s.RefsSound := by
  refine ⟨fun x r => (h.refs.mem_iff r x).symm, h.refs.exist, h.acyclic, fun x hx r hr => ?_⟩
  obtain ⟨hne, hrl⟩ := h.ref_ne hr
  obtain ⟨s', hs', hd⟩ := h.destroy hx
  refine ⟨s', hs', hne, ?_, (hd.quota r hr).1⟩
  rw [hd.live]
  exact Finset.mem_erase.mpr ⟨hne, hrl⟩

/-- The references are sound throughout a run exactly if no `ref_account`
closes a cycle. -/
theorem refsSound_of_run_iff (h : Run Init Trans hist s) :
    (∀ u ∈ reached hist s, u.RefsSound) ↔ ∀ e ∈ hist, e.1.NoCycle e.2 := by
  refine h.forall_reached_iff (I := Inv) (C := NoCycle) (fun s hs => inv_init hs)
    (fun s op s' hs ht hc => hs.exec ht.1 hc ht.2) (fun s hs => hs.refsSound) ?_
  intro s op s' hs ht hc hsound
  cases op with
  | refAccount x ref =>
    simp only [NoCycle, not_forall, not_not] at hc
    obtain ⟨hnone, r, hr, hne, hway⟩ := hc
    obtain rfl : (s.refAccount x ref).2 = s' := by simpa [CpuSessions.exec] using ht.2
    have hset : (s.refAccount x ref).2.refs.ref = Function.update s.refs.ref x (some r) := by
      obtain rfl : ref = some r := hr
      unfold CpuSessions.refAccount
      simp [hnone, hne, Refs.insert]
    have hcycle := onCycle_update hnone hway
    rw [← hset] at hcycle
    exact hsound.2.2.1 x hcycle
  | create | createThread | killThread | transferQuota | destroy => exact hc trivial

/-! ## Runs of a few sessions -/

/-- A named reference account has no reference account itself. -/
def NamesTop (s : CpuSessions σ τ) : Op σ τ → Bool
  | .refAccount _ ref => ref.all fun r => (s.refs.ref r).isNone
  | _ => true

omit [DecidableEq σ] [DecidableEq τ] in
theorem noCycle_of_namesTop {op : Op σ τ} (h : s.NamesTop op = true) : s.NoCycle op := by
  cases op with
  | refAccount x ref =>
    intro _ r hr hne hway
    obtain rfl : ref = some r := hr
    have htop : s.refs.ref r = none := by simpa [NamesTop] using h
    rcases Relation.ReflTransGen.cases_head hway with rfl | ⟨r', hr', -⟩
    · exact hne rfl
    · rw [Up, htop] at hr'
      simp at hr'
  | create | createThread | killThread | transferQuota | destroy => trivial

theorem exists_run (s : CpuSessions σ τ) (hs : Init s) (ops : List (Op σ τ))
    {p : List (CpuSessions σ τ × Op σ τ) × CpuSessions σ τ → Prop} [DecidablePred p]
    (h : (replay (perform Allowed exec) ops ([], s)).any (fun r => decide (p r)) = true) :
    ∃ hist s, Run Init Trans hist s ∧ p (hist, s) :=
  exists_guarded_run hs h

/-- No sessions. -/
def empty : CpuSessions (Fin 3) (Fin 3) :=
  ⟨∅, fun _ => 0, fun _ => 0, fun _ => [], fun _ => 0, fun _ => 0, ⟨fun _ => none, fun _ => []⟩⟩

theorem init_empty : Init empty := ⟨rfl, rfl, rfl⟩

/-- Three threads of a session that got half of the quota of another one. -/
theorem quota_conserved_of_run_threads :
    ∃ hist, ∃ s : CpuSessions (Fin 3) (Fin 3), Run Init Trans hist s ∧
      (∀ e ∈ hist, e.1.NoCycle e.2) ∧ 1 ∈ s.live ∧ s.quota 1 = 50 ∧
      ((s.threads 1).map s.threadQuota) = [16, 16, 16] ∧
      ((s.threads 1).map s.threadQuota).sum ≤ s.quota 1 := by
  obtain ⟨hist, s, h, hc, hl, hq, ht⟩ := exists_run empty init_empty
    [.create 0 100, .create 1 0, .refAccount 1 (some 0), .createThread 1 0 0 true,
      .transferQuota 0 (some 1) (2 ^ 14), .createThread 1 1 10 true, .createThread 1 2 5 false,
      .createThread 1 2 10 true]
    (p := fun r => (∀ e ∈ r.1, e.1.NamesTop e.2 = true) ∧ 1 ∈ r.2.live ∧ r.2.quota 1 = 50 ∧
      (r.2.threads 1).map r.2.threadQuota = [16, 16, 16]) (by decide +kernel)
  have hc' : ∀ e ∈ hist, e.1.NoCycle e.2 := fun e he => noCycle_of_namesTop (hc e he)
  have hsound := (quota_conserved_of_run h hc' s (by simp [reached])).1 1 hl
  exact ⟨hist, s, h, hc', hl, hq, ht, hsound.2⟩

/-- Two sessions that refer to each other: after the destruction of one,
the other refers to itself, and when it is destroyed its quota is lost. -/
theorem quota_lost_of_cycle :
    ∃ hist, ∃ s : CpuSessions (Fin 3) (Fin 3), Run Init Trans hist s ∧
      ∃ x ∈ s.live, (s.refs.ref x).isSome ∧ ∃ s', s.destroy x = .ok s' ∧ s'.total ≠ s.total := by
  obtain ⟨hist, s, h, hl, hr, hd⟩ := exists_run empty init_empty
    [.create 0 100, .create 1 50, .create 2 0, .refAccount 0 (some 1), .refAccount 1 (some 0),
      .destroy 0]
    (p := fun r => 1 ∈ r.2.live ∧ (r.2.refs.ref 1).isSome ∧
      (r.2.destroy 1).toOption.any (fun s' => s'.total ≠ r.2.total) = true) (by decide +kernel)
  refine ⟨hist, s, h, 1, hl, hr, ?_⟩
  cases hs' : s.destroy 1 with
  | error e => simp [hs', Except.toOption] at hd
  | ok s' => exact ⟨s', rfl, by simpa [hs', Except.toOption] using hd⟩

/-- A session that is rewired when its reference account is destroyed. -/
theorem refsSound_of_run_rewired :
    ∃ hist, ∃ s : CpuSessions (Fin 3) (Fin 3), Run Init Trans hist s ∧ s.refs.ref 2 = some 0 ∧
      ∀ u ∈ reached hist s, u.RefsSound := by
  obtain ⟨hist, s, h, hc, hr⟩ := exists_run empty init_empty
    [.create 0 100, .create 1 50, .create 2 0, .refAccount 2 (some 1), .refAccount 1 (some 0),
      .destroy 1]
    (p := fun r => (∀ e ∈ r.1, e.1.NamesTop e.2 = true) ∧ r.2.refs.ref 2 = some 0)
    (by decide +kernel)
  exact ⟨hist, s, h, hr, (refsSound_of_run_iff h).mpr fun e he => noCycle_of_namesTop (hc e he)⟩

/-- Two sessions that refer to each other, one of which is destroyed:
the other one is its own reference account. -/
theorem not_refsSound_of_cycle :
    ∃ hist, ∃ s : CpuSessions (Fin 3) (Fin 3), Run Init Trans hist s ∧ s.refs.ref 1 = some 1 ∧
      ¬ s.RefsSound := by
  obtain ⟨hist, s, h, hr⟩ := exists_run empty init_empty
    [.create 0 100, .create 1 50, .refAccount 0 (some 1), .refAccount 1 (some 0), .destroy 0]
    (p := fun r => r.2.refs.ref 1 = some 1) (by decide +kernel)
  exact ⟨hist, s, h, hr, fun hs => hs.2.2.1 1 (.single hr)⟩

end Genode.Core.CpuSessions
