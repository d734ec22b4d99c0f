import Genode.Core.QuotaGuard
import Genode.Lib.Run

/-!
# PdSession — the capabilities of a protection domain

`core/include/pd_session_component.h`, with the factories of base-hw
(`rpc_cap_factory.h` and `signal_broker.h`). The session accounts for
each capability that it hands out: an allocation withdraws one from the
quota, a free gives one back. The factories keep the capabilities that
exist.

A client may pass any capability to the free operations, also an invalid
one (`none`). The factory then finds nothing to free, but the session
gives back the quota nevertheless. So the accounting can be relied on
only as long as the client frees what it got (`Known`).

Where memory for the bookkeeping comes from is left open: an allocation
may fail, and the memory itself takes capabilities from the quota at any
time (`mdCaps`).
-/

namespace Genode.Core

open Lib

/-- The session with capabilities `κ`. -/
structure PdSession (κ : Type) where
  capQuota : QuotaGuard
  /-- `Rpc_cap_factory::_list`. -/
  rpcCaps : List κ
  /-- `Signal_broker::_sources`. -/
  sources : List κ
  /-- `Signal_broker::_contexts`. -/
  contexts : List κ
  /-- The capabilities that the memory of the bookkeeping takes. -/
  mdCaps : Nat

namespace PdSession

variable {κ : Type} [DecidableEq κ] (s : PdSession κ)

/-- `_consume_cap`; nothing if this throws `Out_of_caps`. -/
def consumeCap : Option (PdSession κ) :=
  (s.capQuota.tryWithdraw 1).map fun g => { s with capQuota := g }

/-- `_released_cap`. -/
def releasedCap : PdSession κ := { s with capQuota := s.capQuota.replenish 1 }

/-- `alloc_rpc_cap`; the factory fails (`none`), refuses an invalid
entrypoint (`some none`) or creates a capability. -/
def allocRpcCap (answer : Option (Option κ)) : PdSession κ :=
  s.consumeCap.elim s fun s =>
    answer.elim s.releasedCap fun cap =>
      cap.elim s fun c => { s with rpcCaps := c :: s.rpcCaps }

/-- `free_rpc_cap`. -/
def freeRpcCap (cap : Option κ) : PdSession κ :=
  releasedCap { s with rpcCaps := cap.elim s.rpcCaps s.rpcCaps.erase }

/-- `alloc_signal_source`; the factory fails or creates a source. -/
def allocSignalSource (answer : Option κ) : PdSession κ :=
  s.consumeCap.elim s fun s =>
    answer.elim s.releasedCap fun c => { s with sources := c :: s.sources }

/-- `free_signal_source`. -/
def freeSignalSource (cap : Option κ) : PdSession κ :=
  cap.elim s fun c => releasedCap { s with sources := s.sources.erase c }

/-- `alloc_context`; what was reserved goes back if the source is
unknown or the factory fails. -/
def allocContext (source answer : Option κ) : PdSession κ :=
  s.consumeCap.elim s fun s =>
    (source.filter fun c => decide (c ∈ s.sources)).elim s.releasedCap fun _ =>
      answer.elim s.releasedCap fun c => { s with contexts := c :: s.contexts }

/-- `free_context`. -/
def freeContext (cap : Option κ) : PdSession κ :=
  releasedCap { s with contexts := cap.elim s.contexts s.contexts.erase }

/-- The memory of the bookkeeping grows. -/
def mdWithdraw (n : Nat) : PdSession κ :=
  (s.capQuota.tryWithdraw n).elim s fun g => { s with capQuota := g, mdCaps := s.mdCaps + n }

/-- The memory of the bookkeeping shrinks. -/
def mdReplenish (n : Nat) : PdSession κ :=
  { s with capQuota := s.capQuota.replenish n, mdCaps := s.mdCaps - n }

/-- The number of capabilities that were allocated and still exist. -/
def liveCaps : Nat := s.rpcCaps.length + s.sources.length + s.contexts.length

/-! ## Requests -/

inductive Op (κ : Type) where
  | allocRpcCap (answer : Option (Option κ))
  | freeRpcCap (cap : Option κ)
  | allocSignalSource (answer : Option κ)
  | freeSignalSource (cap : Option κ)
  | allocContext (source answer : Option κ)
  | freeContext (cap : Option κ)
  | mdWithdraw (n : Nat)
  | mdReplenish (n : Nat)

/-- The capability is not in use. -/
def Fresh (c : κ) : Prop := c ∉ s.rpcCaps ∧ c ∉ s.sources ∧ c ∉ s.contexts

instance (c : κ) : Decidable (s.Fresh c) :=
  inferInstanceAs (Decidable (c ∉ s.rpcCaps ∧ c ∉ s.sources ∧ c ∉ s.contexts))

/-- The kernel creates a capability that does not exist yet. The client
is not restricted. -/
def Allowed : Op κ → Prop
  | .allocRpcCap answer => ∀ c ∈ answer.join, s.Fresh c
  | .allocSignalSource answer => ∀ c ∈ answer, s.Fresh c
  | .allocContext _ answer => ∀ c ∈ answer, s.Fresh c
  | .mdReplenish n => n ≤ s.mdCaps
  | _ => True

instance (s : PdSession κ) : (op : Op κ) → Decidable (Allowed s op)
  | .allocRpcCap answer => inferInstanceAs (Decidable (∀ c ∈ answer.join, s.Fresh c))
  | .allocSignalSource answer => inferInstanceAs (Decidable (∀ c ∈ answer, s.Fresh c))
  | .allocContext _ answer => inferInstanceAs (Decidable (∀ c ∈ answer, s.Fresh c))
  | .mdReplenish n => inferInstanceAs (Decidable (n ≤ s.mdCaps))
  | .freeRpcCap _ => .isTrue trivial
  | .freeSignalSource _ => .isTrue trivial
  | .freeContext _ => .isTrue trivial
  | .mdWithdraw _ => .isTrue trivial

def exec : Op κ → Exec (PdSession κ)
  | .allocRpcCap answer => .ok (s.allocRpcCap answer)
  | .freeRpcCap cap => .ok (s.freeRpcCap cap)
  | .allocSignalSource answer => .ok (s.allocSignalSource answer)
  | .freeSignalSource cap => .ok (s.freeSignalSource cap)
  | .allocContext source answer => .ok (s.allocContext source answer)
  | .freeContext cap => .ok (s.freeContext cap)
  | .mdWithdraw n => .ok (s.mdWithdraw n)
  | .mdReplenish n => .ok (s.mdReplenish n)

/-- A new session has paid for its own capability. -/
def Init (s : PdSession κ) : Prop :=
  s.capQuota.Valid ∧ s.capQuota.used = s.mdCaps + 1 ∧ s.liveCaps = 0

def Trans : PdSession κ → Op κ → PdSession κ → Prop := Guarded Allowed exec

/-- What is freed was allocated by the same kind of request before and
was not freed since. An invalid signal source is ignored. -/
def Known : Op κ → Prop
  | .freeRpcCap cap => ∃ c ∈ cap, c ∈ s.rpcCaps
  | .freeSignalSource cap => ∀ c ∈ cap, c ∈ s.sources
  | .freeContext cap => ∃ c ∈ cap, c ∈ s.contexts
  | _ => True

instance (s : PdSession κ) : (op : Op κ) → Decidable (Known s op)
  | .freeRpcCap cap => inferInstanceAs (Decidable (∃ c ∈ cap, c ∈ s.rpcCaps))
  | .freeSignalSource cap => inferInstanceAs (Decidable (∀ c ∈ cap, c ∈ s.sources))
  | .freeContext cap => inferInstanceAs (Decidable (∃ c ∈ cap, c ∈ s.contexts))
  | .allocRpcCap _ => .isTrue trivial
  | .allocSignalSource _ => .isTrue trivial
  | .allocContext _ _ => .isTrue trivial
  | .mdWithdraw _ => .isTrue trivial
  | .mdReplenish _ => .isTrue trivial

/-! ## The accounting -/

/-- Each capability is accounted for, also the one of the session. -/
structure Inv (s : PdSession κ) : Prop where
  valid : s.capQuota.Valid
  charged : s.liveCaps + s.mdCaps + 1 ≤ s.capQuota.used

variable {s} {s' : PdSession κ}

omit [DecidableEq κ] in
theorem consumeCap_eq_some (hv : s.capQuota.Valid) (h : s.consumeCap = some s') :
    s'.capQuota.Valid ∧ s'.capQuota.used = s.capQuota.used + 1 ∧ s'.rpcCaps = s.rpcCaps ∧
      s'.sources = s.sources ∧ s'.contexts = s.contexts ∧ s'.mdCaps = s.mdCaps := by
  unfold consumeCap at h
  obtain ⟨g, hg, rfl⟩ := Option.map_eq_some_iff.mp h
  refine ⟨hv.tryWithdraw hg, ?_, rfl, rfl, rfl, rfl⟩
  rw [(hv.tryWithdraw_eq_some.mp hg).2]

namespace Inv

omit [DecidableEq κ] in
/-- A capability that was paid for is created, or the payment goes back. -/
theorem consumeCap {f : PdSession κ → PdSession κ} (h : s.Inv)
    (hf : ∀ s' : PdSession κ, s'.capQuota.Valid → s'.liveCaps = s.liveCaps → s'.mdCaps = s.mdCaps →
      s.liveCaps + s.mdCaps + 2 ≤ s'.capQuota.used → (f s').Inv) : (s.consumeCap.elim s f).Inv := by
  cases hs : s.consumeCap with
  | none => exact h
  | some s' =>
    obtain ⟨hv, hu, h₁, h₂, h₃, h₄⟩ := consumeCap_eq_some h.valid hs
    have hc := h.charged
    exact hf s' hv (by rw [liveCaps, liveCaps, h₁, h₂, h₃]) h₄ (by omega)

omit [DecidableEq κ] in
theorem releasedCap (hv : s.capQuota.Valid) (hc : s.liveCaps + s.mdCaps + 2 ≤ s.capQuota.used) :
    s.releasedCap.Inv := by
  refine ⟨hv.replenish, ?_⟩
  change s.liveCaps + s.mdCaps + 1 ≤ (s.capQuota.replenish 1).used
  rw [QuotaGuard.replenish_used]
  omega

omit [DecidableEq κ] in
theorem allocRpcCap (h : s.Inv) (answer : Option (Option κ)) : (s.allocRpcCap answer).Inv := by
  refine h.consumeCap fun s' hv hl hm hu => ?_
  rcases answer with _ | _ | c
  · exact releasedCap hv (by omega)
  · exact ⟨hv, show s'.liveCaps + s'.mdCaps + 1 ≤ s'.capQuota.used by omega⟩
  · refine ⟨hv, ?_⟩
    simp only [liveCaps, Option.elim_some, List.length_cons] at *
    omega

omit [DecidableEq κ] in
theorem allocSignalSource (h : s.Inv) (answer : Option κ) : (s.allocSignalSource answer).Inv := by
  refine h.consumeCap fun s' hv hl hm hu => ?_
  cases answer with
  | none => exact releasedCap hv (by omega)
  | some c =>
    refine ⟨hv, ?_⟩
    simp only [liveCaps, Option.elim_some, List.length_cons] at *
    omega

theorem allocContext (h : s.Inv) (source answer : Option κ) :
    (s.allocContext source answer).Inv := by
  refine h.consumeCap fun s' hv hl hm hu => ?_
  cases source.filter fun c => decide (c ∈ s'.sources) with
  | none => exact releasedCap hv (by omega)
  | some _ =>
    cases answer with
    | none => exact releasedCap hv (by omega)
    | some c =>
      refine ⟨hv, ?_⟩
      simp only [liveCaps, Option.elim_some, List.length_cons] at *
      omega

/-- If something is freed, the quota may go back. -/
theorem freeRpcCap {cap : Option κ} (h : s.Inv) (hc : s.Known (.freeRpcCap cap)) :
    (s.freeRpcCap cap).Inv := by
  obtain ⟨c, rfl, hc⟩ := hc
  have hu := h.charged
  have hlen := List.length_erase_add_one hc
  refine releasedCap h.valid ?_
  simp only [liveCaps, Option.elim_some] at *
  omega

theorem freeSignalSource {cap : Option κ} (h : s.Inv) (hc : s.Known (.freeSignalSource cap)) :
    (s.freeSignalSource cap).Inv := by
  cases cap with
  | none => exact h
  | some c =>
    have hu := h.charged
    have hlen := List.length_erase_add_one (hc c rfl)
    refine releasedCap h.valid ?_
    simp only [liveCaps] at *
    omega

theorem freeContext {cap : Option κ} (h : s.Inv) (hc : s.Known (.freeContext cap)) :
    (s.freeContext cap).Inv := by
  obtain ⟨c, rfl, hc⟩ := hc
  have hu := h.charged
  have hlen := List.length_erase_add_one hc
  refine releasedCap h.valid ?_
  simp only [liveCaps, Option.elim_some] at *
  omega

omit [DecidableEq κ] in
theorem mdWithdraw (h : s.Inv) (n : Nat) : (s.mdWithdraw n).Inv := by
  unfold PdSession.mdWithdraw
  cases hg : s.capQuota.tryWithdraw n with
  | none => exact h
  | some g =>
    have hu := h.charged
    refine ⟨h.valid.tryWithdraw hg, ?_⟩
    obtain ⟨-, rfl⟩ := h.valid.tryWithdraw_eq_some.mp hg
    simp only [liveCaps, Option.elim_some] at *
    omega

omit [DecidableEq κ] in
theorem mdReplenish {n : Nat} (h : s.Inv) (hn : n ≤ s.mdCaps) : (s.mdReplenish n).Inv := by
  have hu := h.charged
  refine ⟨h.valid.replenish, ?_⟩
  change s.liveCaps + (s.mdCaps - n) + 1 ≤ (s.capQuota.replenish n).used
  rw [QuotaGuard.replenish_used]
  omega

theorem exec {op : Op κ} (h : s.Inv) (hop : s.Allowed op) (hk : s.Known op)
    (hs' : s.exec op = .ok s') : s'.Inv := by
  cases op with
  | allocRpcCap answer =>
    cases hs'
    exact h.allocRpcCap answer
  | freeRpcCap cap =>
    cases hs'
    exact h.freeRpcCap hk
  | allocSignalSource answer =>
    cases hs'
    exact h.allocSignalSource answer
  | freeSignalSource cap =>
    cases hs'
    exact h.freeSignalSource hk
  | allocContext source answer =>
    cases hs'
    exact h.allocContext source answer
  | freeContext cap =>
    cases hs'
    exact h.freeContext hk
  | mdWithdraw n =>
    cases hs'
    exact h.mdWithdraw n
  | mdReplenish n =>
    cases hs'
    exact h.mdReplenish hop

end Inv

/-! ## Runs -/

variable {hist : List (PdSession κ × Op κ)}

/-- As long as the client frees only what it got, the quota covers the
capabilities that exist. -/
theorem liveCaps_le_of_run (h : Run Init Trans hist s) (hk : ∀ e ∈ hist, e.1.Known e.2) :
    ∀ t ∈ reached hist s, t.liveCaps ≤ t.capQuota.used ∧ t.capQuota.used ≤ t.capQuota.limit := by
  refine h.forall_reached_of (I := Inv) (C := Known) ?_ ?_ ?_ hk
  · rintro s ⟨hv, hu, hl⟩
    exact ⟨hv, by omega⟩
  · intro s op s' hs ht hk
    exact hs.exec ht.1 hk ht.2
  · intro s hs
    have hc := hs.charged
    exact ⟨by omega, hs.valid.used_le⟩

theorem exists_run (s : PdSession κ) (hs : Init s) (ops : List (Op κ))
    {p : List (PdSession κ × Op κ) × PdSession κ → Prop} [DecidablePred p]
    (h : (replay (perform Allowed exec) ops ([], s)).any (fun r => decide (p r)) = true) :
    ∃ hist s, Run Init Trans hist s ∧ p (hist, s) :=
  exists_guarded_run hs h

/-- A client that frees two of its capabilities. -/
theorem liveCaps_le_of_run_freed :
    ∃ hist, ∃ s : PdSession (Fin 4), Run Init Trans hist s ∧ (∀ e ∈ hist, e.1.Known e.2) ∧
      s.liveCaps = 2 ∧ s.liveCaps ≤ s.capQuota.used ∧ s.capQuota.used ≤ s.capQuota.limit := by
  obtain ⟨hist, s, h, hk, hl⟩ := exists_run (⟨⟨5, 1⟩, [], [], [], 0⟩ : PdSession (Fin 4))
    ⟨by decide, rfl, rfl⟩
    [.allocSignalSource (some 0), .allocContext (some 0) (some 1), .allocRpcCap (some (some 2)),
      .allocRpcCap (some (some 3)), .allocRpcCap none, .freeRpcCap (some 2), .freeContext (some 1)]
    (p := fun r => (∀ e ∈ r.1, e.1.Known e.2) ∧ r.2.liveCaps = 2) (by decide +kernel)
  have hs := liveCaps_le_of_run h hk s (by simp [reached])
  exact ⟨hist, s, h, hk, hl, hs⟩

/-- A client with a quota of two that gets three capabilities, because
it frees an invalid one before each allocation. -/
theorem used_lt_liveCaps_of_invalid :
    ∃ hist, ∃ s : PdSession (Fin 3), Run Init Trans hist s ∧
      s.capQuota.used < s.liveCaps ∧ s.capQuota.limit < s.liveCaps :=
  exists_run (⟨⟨2, 1⟩, [], [], [], 0⟩ : PdSession (Fin 3)) ⟨by decide, rfl, rfl⟩
    [.freeRpcCap none, .allocRpcCap (some (some 0)), .freeRpcCap none,
      .allocRpcCap (some (some 1)), .freeContext none, .allocRpcCap (some (some 2))]
    (p := fun r => r.2.capQuota.used < r.2.liveCaps ∧ r.2.capQuota.limit < r.2.liveCaps)
    (by decide +kernel)

end PdSession

end Genode.Core
