import Mathlib.Data.BitVec
import Genode.Net.Ipv4Packet
import Genode.Util.List
import Mathlib.Data.Finset.Card

/-!
# ArpWaiters — packets that wait for an address resolution

`nic_router/arp_waiter.cc` and the update of an interface's waiters to a new
configuration, `nic_router/interface.cc`. A waiter is in two lists: the one of
the interface that its packet came from, and the one of the domain that its
packet goes to. `κ` are the interfaces, `δ` the domain objects of the old and
the new configuration, `ι` the waiters.
-/

namespace Genode.Net

open Lib Util

/-- `Ipv4_config`, what is compared of it. -/
structure Ipv4Config where
  interface : Ipv4Address × BitVec 8
  gateway : Ipv4Address
  dnsServers : List Ipv4Address
  dnsDomainName : Option (List (BitVec 8))
  deriving DecidableEq, Repr

/-- `operator !=`. -/
def Ipv4Config.differs (a b : Ipv4Config) : Bool :=
  a.interface != b.interface || a.gateway != b.gateway || !(a.dnsServers == b.dnsServers) ||
    !(a.dnsDomainName == b.dnsDomainName)

/-- The domain objects, and the dictionary of the new configuration. -/
structure Domains (δ ν : Type) where
  name : δ → ν
  ipConfig : δ → Ipv4Config
  /-- `with_element` of the new configuration's domains. -/
  withElement : ν → Option δ

/-- The new domain for a waiter of an old one: the domain of the same name, if its IP
configuration is unchanged. -/
def Domains.keeps {δ ν : Type} (c : Domains δ ν) (old : δ) : Option δ :=
  (c.withElement (c.name old)).filter fun dst => !(c.ipConfig dst).differs (c.ipConfig old)

/-- The waiters of all interfaces, with what was done to their packets and to them. -/
structure ArpWaiters (κ δ ι : Type) where
  /-- The lists `_own_arp_waiters`. -/
  own : Lists κ ι
  /-- The lists `_foreign_arp_waiters`. -/
  foreign : Lists δ ι
  src : ι → κ
  dst : ι → δ
  live : Finset ι
  acked : List ι
  destroyed : List ι

namespace ArpWaiters

variable {κ δ ι ν : Type} [DecidableEq κ] [DecidableEq δ] [DecidableEq ι]

def init (src : κ) (dst : δ) : ArpWaiters κ δ ι where
  own := Lists.init
  foreign := Lists.init
  src := fun _ => src
  dst := fun _ => dst
  live := ∅
  acked := []
  destroyed := []

/-- The constructor of `Arp_waiter`. -/
def construct (s : ArpWaiters κ δ ι) (w : ι) (src : κ) (dst : δ) : ArpWaiters κ δ ι :=
  { s with
    own := (s.own.constructElement w).insert src w none
    foreign := (s.foreign.constructElement w).insert dst w none
    src := Function.update s.src w src
    dst := Function.update s.dst w dst
    live := insert w s.live }

/-- The destructor of `Arp_waiter`. -/
def destroy (s : ArpWaiters κ δ ι) (w : ι) : Exec (ArpWaiters κ δ ι) := do
  Exec.access s.live w
  let own ← s.own.remove s.live.card (s.src w) w
  let foreign ← s.foreign.remove s.live.card (s.dst w) w
  .ok { s with own, foreign, live := s.live.erase w, destroyed := s.destroyed ++ [w] }

def cancelArpWaiting (s : ArpWaiters κ δ ι) (w : ι) : Exec (ArpWaiters κ δ ι) := do
  Exec.access s.live w
  destroy { s with acked := s.acked ++ [w] } w

/-- `Arp_waiter::handle_config`. -/
def handleConfig (s : ArpWaiters κ δ ι) (w : ι) (dst : δ) : Exec (ArpWaiters κ δ ι) := do
  Exec.access s.live w
  let foreign ← s.foreign.remove s.live.card (s.dst w) w
  .ok { s with foreign := foreign.insert dst w none, dst := Function.update s.dst w dst }

variable (c : Domains δ ν)

/-- The functor of `_update_own_arp_waiters` of the interface `i`. -/
def updateWaiter (i : κ) (s : ArpWaiters κ δ ι) (w : ι) : Exec (ArpWaiters κ δ ι) := do
  Exec.access s.live w
  match c.withElement (c.name (s.dst w)) with
  | some dst =>
    if (c.ipConfig dst).differs (c.ipConfig (s.dst w)) then dismiss else s.handleConfig w dst
  | none => dismiss
where
  /-- The waiter is dismissed. -/
  dismiss : Exec (ArpWaiters κ δ ι) := do
    let first ← Exec.deref (s.own.first i)
    s.cancelArpWaiting first

/-- The loop of `for_each`, from the element at the pointer on. -/
def forEach (f : ArpWaiters κ δ ι → ι → Exec (ArpWaiters κ δ ι)) :
    Nat → Option ι → ArpWaiters κ δ ι → Exec (ArpWaiters κ δ ι)
  | _, none, s => .ok s
  | 0, some _, _ => .error .endless
  | k + 1, some elem, s => do
    Exec.access s.live elem
    let next := s.own.next elem
    let s ← f s elem
    forEach f k next s

/-- `_update_own_arp_waiters`. -/
def updateOwnArpWaiters (s : ArpWaiters κ δ ι) (i : κ) : Exec (ArpWaiters κ δ ι) :=
  forEach (updateWaiter c i) s.live.card (s.own.first i) s

/-! ## The lists -/

/-- The pointers represent the lists `L` of the interfaces and `F` of the domains,
and each existing waiter is in the two lists it belongs to. -/
structure Holds (s : ArpWaiters κ δ ι) (L : κ → List ι) (F : δ → List ι) : Prop where
  own : s.own.Repr L
  foreign : s.foreign.Repr F
  mem_own : ∀ w k, w ∈ L k ↔ w ∈ s.live ∧ s.src w = k
  mem_foreign : ∀ w d, w ∈ F d ↔ w ∈ s.live ∧ s.dst w = d

variable {c} {s : ArpWaiters κ δ ι} {L : κ → List ι} {F : δ → List ι} {w : ι} {i : κ} {d : δ}

omit [DecidableEq κ] [DecidableEq δ] in
theorem length_le_card {live : Finset ι} {ws : List ι} (hnd : ws.Nodup) (h : ∀ w ∈ ws, w ∈ live) :
    ws.length ≤ live.card := by
  rw [← List.toFinset_card_of_nodup hnd]
  apply Finset.card_le_card
  intro w hw
  exact h w (List.mem_toFinset.mp hw)

namespace Holds

omit [DecidableEq κ] [DecidableEq δ] in
theorem length_own_le (h : s.Holds L F) (k : κ) : (L k).length ≤ s.live.card :=
  length_le_card (h.own.nodup k) fun w hw => ((h.mem_own w k).mp hw).1

omit [DecidableEq κ] [DecidableEq δ] in
theorem length_foreign_le (h : s.Holds L F) (d : δ) : (F d).length ≤ s.live.card :=
  length_le_card (h.foreign.nodup d) fun w hw => ((h.mem_foreign w d).mp hw).1

omit [DecidableEq κ] [DecidableEq δ] [DecidableEq ι] in
theorem init (src : κ) (dst : δ) :
    (ArpWaiters.init src dst : ArpWaiters κ δ ι).Holds (fun _ => []) (fun _ => []) := by
  refine ⟨Lists.repr_init, Lists.repr_init, ?_, ?_⟩ <;> simp [ArpWaiters.init]

omit [DecidableEq κ] [DecidableEq δ] in
/-- Membership after a waiter is taken out of the one list it is in. -/
theorem mem_update_erase {α : Type} [DecidableEq α] {M : α → List ι} {a : α} (x : ι) (b : α)
    (hnd : (M a).Nodup) (hdisj : ∀ b, w ∈ M b → b = a) :
    x ∈ Function.update M a ((M a).erase w) b ↔ x ∈ M b ∧ x ≠ w := by
  by_cases hb : b = a
  · subst hb
    rw [Function.update_self, hnd.mem_erase_iff, and_comm]
  · rw [Function.update_of_ne hb]
    constructor
    · intro hx
      refine ⟨hx, ?_⟩
      rintro rfl
      exact hb (hdisj b hx)
    · exact And.left

omit [DecidableEq κ] [DecidableEq δ] [DecidableEq ι] in
/-- Membership after a waiter is put in front of a list. -/
theorem mem_update_cons {α : Type} [DecidableEq α] {M : α → List ι} {a : α} (x : ι) (b : α) :
    x ∈ Function.update M a ([] ++ w :: M a) b ↔ (b = a ∧ x = w) ∨ x ∈ M b := by
  by_cases hb : b = a
  · subst hb
    simp
  · simp [hb]

theorem construct (h : s.Holds L F) (hw : w ∉ s.live) (k : κ) (d : δ) :
    (s.construct w k d).Holds (Function.update L k ([] ++ w :: L k))
      (Function.update F d ([] ++ w :: F d)) := by
  have hown : ∀ b, w ∉ L b := fun b hb => hw ((h.mem_own w b).mp hb).1
  have hforeign : ∀ b, w ∉ F b := fun b hb => hw ((h.mem_foreign w b).mp hb).1
  refine ⟨(h.own.constructElement hown).insert hown (List.nil_append _).symm,
    (h.foreign.constructElement hforeign).insert hforeign (List.nil_append _).symm, ?_, ?_⟩
  · intro x b
    rw [mem_update_cons, h.mem_own]
    show _ ↔ x ∈ insert w s.live ∧ Function.update s.src w k x = b
    by_cases hx : x = w
    · subst hx
      simp [hw, eq_comm]
    · simp [hx]
  · intro x b
    rw [mem_update_cons, h.mem_foreign]
    show _ ↔ x ∈ insert w s.live ∧ Function.update s.dst w d x = b
    by_cases hx : x = w
    · subst hx
      simp [hw, eq_comm]
    · simp [hx]

theorem cancelArpWaiting (h : s.Holds L F) (hw : w ∈ s.live) :
    ∃ s' F', s.cancelArpWaiting w = .ok s' ∧
      s'.Holds (Function.update L (s.src w) ((L (s.src w)).erase w)) F' ∧
      s'.live = s.live.erase w ∧ s'.src = s.src ∧ s'.dst = s.dst ∧
      s'.acked = s.acked ++ [w] ∧ s'.destroyed = s.destroyed ++ [w] := by
  have hown : w ∈ L (s.src w) := (h.mem_own w _).mpr ⟨hw, rfl⟩
  have hforeign : w ∈ F (s.dst w) := (h.mem_foreign w _).mpr ⟨hw, rfl⟩
  obtain ⟨own, howneq, hownrepr⟩ := h.own.remove (h.length_own_le _) hown
  obtain ⟨foreign, hforeigneq, hforeignrepr⟩ := h.foreign.remove (h.length_foreign_le _) hforeign
  refine ⟨{ s with own, foreign, live := s.live.erase w, acked := s.acked ++ [w],
                   destroyed := s.destroyed ++ [w] }, _, ?_, ⟨hownrepr, hforeignrepr, ?_, ?_⟩,
    rfl, rfl, rfl, rfl, rfl⟩
  · unfold ArpWaiters.cancelArpWaiting destroy
    simp only [Exec.access_of_mem hw, Exec.ok_bind, howneq, hforeigneq]
  · intro x k
    rw [mem_update_erase x k (h.own.nodup _) fun b hb => h.own.disj hb hown, h.mem_own,
      Finset.mem_erase]
    tauto
  · intro x k
    rw [mem_update_erase x k (h.foreign.nodup _) fun b hb => h.foreign.disj hb hforeign,
      h.mem_foreign, Finset.mem_erase]
    tauto

omit [DecidableEq κ] in
theorem handleConfig (h : s.Holds L F) (hw : w ∈ s.live) (d : δ) :
    ∃ s' F', s.handleConfig w d = .ok s' ∧ s'.Holds L F' ∧ s'.live = s.live ∧ s'.src = s.src ∧
      s'.dst = Function.update s.dst w d ∧ s'.acked = s.acked ∧ s'.destroyed = s.destroyed := by
  have hforeign : w ∈ F (s.dst w) := (h.mem_foreign w _).mpr ⟨hw, rfl⟩
  obtain ⟨foreign, heq, hrepr⟩ := h.foreign.remove (h.length_foreign_le _) hforeign
  have hmem := fun x b => mem_update_erase (M := F) (w := w) x b (h.foreign.nodup _)
    fun b hb => h.foreign.disj hb hforeign
  have hins := hrepr.insert (k := d) (x := w) (fun b hb => ((hmem w b).mp hb).2 rfl)
    (List.nil_append _).symm
  refine ⟨{ s with foreign := foreign.insert d w none, dst := Function.update s.dst w d }, _, ?_,
    ⟨h.own, hins, h.mem_own, ?_⟩, rfl, rfl, rfl, rfl, rfl⟩
  · unfold ArpWaiters.handleConfig
    simp only [Exec.access_of_mem hw, Exec.ok_bind, heq]
  · intro x b
    rw [mem_update_cons, hmem, h.mem_foreign]
    show _ ↔ x ∈ s.live ∧ Function.update s.dst w d x = b
    by_cases hx : x = w
    · subst hx
      simp [hw, eq_comm]
    · simp [hx]

end Holds

/-! ## One waiter -/

theorem updateWaiter_keep (hw : w ∈ s.live) (hk : c.keeps (s.dst w) = some d) :
    updateWaiter c i s w = s.handleConfig w d := by
  obtain ⟨hd, hsame⟩ := Option.filter_eq_some_iff.mp hk
  unfold updateWaiter
  simp only [Exec.access_of_mem hw, Exec.ok_bind, hd]
  rw [if_neg (by simpa using hsame)]

theorem updateWaiter_dismiss (hw : w ∈ s.live) (hk : c.keeps (s.dst w) = none) :
    updateWaiter c i s w = updateWaiter.dismiss i s := by
  unfold updateWaiter
  simp only [Exec.access_of_mem hw, Exec.ok_bind]
  cases hd : c.withElement (c.name (s.dst w)) with
  | none => rfl
  | some d =>
    have hdiffers : (c.ipConfig d).differs (c.ipConfig (s.dst w)) = true := by
      simpa [Domains.keeps, hd] using hk
    simp only [hdiffers, if_true]

/-- The first waiter is cancelled, whichever is dismissed. -/
theorem Holds.dismiss (h : s.Holds L F) {first : ι} {ws : List ι} (hL : L i = first :: ws) :
    updateWaiter.dismiss i s = s.cancelArpWaiting first := by
  have hfirst : s.own.first i = some first := by
    rw [h.own.first_eq, hL]
    rfl
  unfold updateWaiter.dismiss
  rw [hfirst, Exec.deref_some, Exec.ok_bind]

/-! ## All waiters of the interface -/

/-- What the loop has done to the waiters of the interface: the first ones are `gone`
and the others `left`, and the visited ones have the domains `dst`. -/
structure Passed (s s' : ArpWaiters κ δ ι) (L L' : κ → List ι) (i : κ) (gone left : List ι)
    (dst : ι → δ) : Prop where
  left : L' i = left
  others : ∀ k, k ≠ i → L' k = L k
  acked : s'.acked = s.acked ++ gone
  destroyed : s'.destroyed = s.destroyed ++ gone
  dst : ∀ w, s'.dst w = dst w

omit [DecidableEq κ] [DecidableEq δ] [DecidableEq ι] in
theorem Holds.next_eq (h : s.Holds L F) {pre rest : List ι} (hL : L i = pre ++ w :: rest) :
    s.own.next w = rest.head? := by
  have hchain := h.own.chain i
  rw [hL] at hchain
  obtain ⟨r, -, -, hrest⟩ := path_append.mp hchain
  exact Chain.head_eq hrest

omit [DecidableEq ι] in
theorem split_first (pre rest : List ι) (w : ι) :
    ∃ first pre', pre ++ w :: rest = first :: (pre' ++ rest) := by
  cases pre with
  | nil => exact ⟨w, [], rfl⟩
  | cons first pre => exact ⟨first, pre ++ [w], by simp⟩

/-- The domain of a waiter once it was visited. -/
def Domains.afterwards (c : Domains δ ν) (old : δ) : δ := (c.keeps old).getD old

/-- Whether a waiter is dismissed. -/
def dismissed (c : Domains δ ν) (dst : ι → δ) (w : ι) : Bool := (c.keeps (dst w)).isNone

/-- The loop from any point on; `pre` are the waiters visited before that are not
destroyed yet. The waiter visited next never is. -/
theorem forEach_passed {dst : ι → δ} {pre rest : List ι} {k : Nat} (h : s.Holds L F)
    (hL : L i = pre ++ rest) (hk : rest.length ≤ k) (hdst : ∀ w ∈ rest, s.dst w = dst w) :
    ∃ s' L' F', forEach (updateWaiter c i) k rest.head? s = .ok s' ∧ s'.Holds L' F' ∧
      Passed s s' L L' i ((pre ++ rest).take (rest.countP (dismissed c dst)))
        ((pre ++ rest).drop (rest.countP (dismissed c dst)))
        (fun w => if w ∈ rest then Domains.afterwards c (dst w) else s.dst w) := by
  induction rest generalizing s L F pre k with
  | nil =>
    refine ⟨s, L, F, ?_, h, ?_⟩
    · cases k <;> rfl
    · constructor <;> simp [hL]
  | cons w rest ih =>
    obtain _ | k := k
    · exact absurd hk (Nat.not_succ_le_zero _)
    have hnodup := h.own.nodup i
    have hown : w ∈ L i := by
      rw [hL]
      exact List.mem_append_right pre List.mem_cons_self
    have hlive := ((h.mem_own w i).mp hown).1
    have hnext := h.next_eq hL
    have hdstw : s.dst w = dst w := hdst w List.mem_cons_self
    rw [hL] at hnodup
    have hnotin : w ∉ rest := (List.nodup_cons.mp (List.nodup_append.mp hnodup).2.1).1
    cases hkeep : c.keeps (dst w) with
    | some d =>
      obtain ⟨s₁, F₁, heq, hholds, hlive₁, hsrc₁, hdst₁, hacked₁, hdestroyed₁⟩ :=
        h.handleConfig hlive d
      have hrest : ∀ x ∈ rest, s₁.dst x = dst x := by
        intro x hx
        have hne : x ≠ w := ne_of_mem_of_not_mem hx hnotin
        rw [hdst₁, Function.update_of_ne hne, hdst x (List.mem_cons_of_mem w hx)]
      have hL' : L i = (pre ++ [w]) ++ rest := by simp [hL]
      obtain ⟨s', L', F', hrun, hholds', hpassed⟩ :=
        ih hholds hL' (Nat.le_of_succ_le_succ hk) hrest
      have hcount : (w :: rest).countP (dismissed c dst) = rest.countP (dismissed c dst) := by
        simp [dismissed, hkeep]
      rw [List.append_assoc, List.singleton_append] at hpassed
      refine ⟨s', L', F', ?_, hholds', ?_⟩
      · rw [List.head?_cons, forEach]
        simp only [Exec.access_of_mem hlive, Exec.ok_bind]
        rw [updateWaiter_keep hlive (hdstw.symm ▸ hkeep), heq, Exec.ok_bind, hnext, hrun]
      · rw [hcount]
        refine ⟨hpassed.left, hpassed.others, hacked₁ ▸ hpassed.acked,
          hdestroyed₁ ▸ hpassed.destroyed, ?_⟩
        intro x
        rw [hpassed.dst, hdst₁]
        by_cases hx : x = w
        · subst hx
          simp [hnotin, Domains.afterwards, hkeep]
        · simp [hx]
    | none =>
      obtain ⟨first, pre', hsplit⟩ := split_first pre rest w
      rw [hsplit] at hL ⊢
      have hfirst : first ∈ L i := by
        rw [hL]
        exact List.mem_cons_self
      obtain ⟨hflive, hfsrc⟩ := (h.mem_own first i).mp hfirst
      obtain ⟨s₁, F₁, heq, hholds, hlive₁, hsrc₁, hdst₁, hacked₁, hdestroyed₁⟩ :=
        h.cancelArpWaiting hflive
      rw [hfsrc] at hholds
      have hL₁ : Function.update L i ((L i).erase first) i = pre' ++ rest := by
        rw [Function.update_self, hL, List.erase_cons_head]
      have hrest : ∀ x ∈ rest, s₁.dst x = dst x := by
        intro x hx
        rw [hdst₁, hdst x (List.mem_cons_of_mem w hx)]
      obtain ⟨s', L', F', hrun, hholds', hpassed⟩ :=
        ih hholds hL₁ (Nat.le_of_succ_le_succ hk) hrest
      have hcount : (w :: rest).countP (dismissed c dst) =
          rest.countP (dismissed c dst) + 1 := by
        simp [dismissed, hkeep]
      refine ⟨s', L', F', ?_, hholds', ?_⟩
      · rw [List.head?_cons, forEach]
        simp only [Exec.access_of_mem hlive, Exec.ok_bind]
        rw [updateWaiter_dismiss hlive (hdstw.symm ▸ hkeep), h.dismiss hL, heq, Exec.ok_bind,
          hnext, hrun]
      · rw [hcount, List.take_succ_cons, List.drop_succ_cons]
        refine ⟨hpassed.left, ?_, ?_, ?_, ?_⟩
        · intro k hne
          rw [hpassed.others k hne, Function.update_of_ne hne]
        · rw [hpassed.acked, hacked₁, List.append_assoc, List.singleton_append]
        · rw [hpassed.destroyed, hdestroyed₁, List.append_assoc, List.singleton_append]
        · intro x
          rw [hpassed.dst, hdst₁]
          by_cases hx : x = w
          · subst hx
            simp [hnotin, Domains.afterwards, hkeep, hdstw]
          · simp [hx]

/-- What the update is for. -/
structure Updated (c : Domains δ ν) (s s' : ArpWaiters κ δ ι) (i : κ) (L L' : κ → List ι)
    (F' : δ → List ι) : Prop where
  kept : ∀ w, w ∈ L' i ↔ w ∈ L i ∧ dismissed c s.dst w = false
  registered : ∀ w ∈ L i, ∀ d, c.keeps (s.dst w) = some d → ∀ b, w ∈ F' b ↔ b = d
  cancelled : ∃ gone, s'.acked = s.acked ++ gone ∧ s'.destroyed = s.destroyed ++ gone ∧
    ∀ w ∈ L i, dismissed c s.dst w = true → gone.count w = 1

/-- No kept waiter stands in front of a dismissed one. -/
def DismissedFirst (c : Domains δ ν) (dst : ι → δ) (ws : List ι) : Prop :=
  ws.Pairwise fun a b => dismissed c dst b = true → dismissed c dst a = true

omit [DecidableEq κ] [DecidableEq δ] [DecidableEq ι] in
/-- The first waiters, as many as are dismissed, are the dismissed ones. -/
theorem dismissedFirst_iff {dst : ι → δ} (ws : List ι) : DismissedFirst c dst ws ↔
    (∀ w ∈ ws.take (ws.countP (dismissed c dst)), dismissed c dst w = true) ∧
      ∀ w ∈ ws.drop (ws.countP (dismissed c dst)), dismissed c dst w = false := by
  unfold DismissedFirst
  induction ws with
  | nil => simp
  | cons w ws ih =>
    rw [List.pairwise_cons, ih]
    cases hw : dismissed c dst w with
    | true =>
      rw [List.countP_cons_of_pos hw, List.take_succ_cons, List.drop_succ_cons]
      simp [hw]
    | false =>
      rw [List.countP_cons_of_neg (by simp [hw])]
      cases hn : ws.countP (dismissed c dst) with
      | zero =>
        simp only [List.take_zero, List.drop_zero, List.forall_mem_cons, hw]
        simp
      | succ n =>
        -- another one is dismissed
        have hpos : 0 < ws.countP (dismissed c dst) := by omega
        obtain ⟨b, hb, hbd⟩ := List.countP_pos_iff.mp hpos
        constructor
        · intro h
          exact absurd (h.1 b hb hbd) (by simp)
        · intro h
          have := h.1 w (by simp)
          exact absurd (hw ▸ this) (by simp)

/-- For every list of waiters and every new configuration: the update ends without
visiting a destroyed waiter, and it is right exactly if no waiter to be kept
stands in front of one to be dismissed. -/
theorem updateOwnArpWaiters_iff (c : Domains δ ν) (s : ArpWaiters κ δ ι) (L : κ → List ι)
    (F : δ → List ι) (h : s.Holds L F) (i : κ) :
    ∃ s' L' F', s.updateOwnArpWaiters c i = .ok s' ∧ s'.Holds L' F' ∧
      (Updated c s s' i L L' F' ↔ DismissedFirst c s.dst (L i)) := by
  obtain ⟨s', L', F', hrun, hholds, hpassed⟩ := forEach_passed (c := c) h
    (show L i = [] ++ L i from rfl) (h.length_own_le i) fun w _ => rfl
  rw [List.nil_append] at hpassed
  refine ⟨s', L', F', ?_, hholds, ?_⟩
  · unfold updateOwnArpWaiters
    rw [h.own.first_eq, hrun]
  · rw [dismissedFirst_iff]
    have hnodup := h.own.nodup i
    have hsplit := List.take_append_drop ((L i).countP (dismissed c s.dst)) (L i)
    have hmem : ∀ w, w ∈ L i ↔ w ∈ (L i).take ((L i).countP (dismissed c s.dst)) ∨
        w ∈ (L i).drop ((L i).countP (dismissed c s.dst)) := by
      intro w
      rw [← List.mem_append, hsplit]
    rw [← hsplit] at hnodup
    have hdisj := (List.nodup_append.mp hnodup).2.2
    constructor
    · intro hupdated
      constructor
      · intro w hw
        by_contra hkept
        have hleft := (hupdated.kept w).mpr ⟨(hmem w).mpr (.inl hw), by simpa using hkept⟩
        rw [hpassed.left] at hleft
        exact hdisj w hw w hleft rfl
      · intro w hw
        rw [← hpassed.left] at hw
        exact ((hupdated.kept w).mp hw).2
    · intro hfirst
      have hkept : ∀ w, w ∈ L' i ↔ w ∈ L i ∧ dismissed c s.dst w = false := by
        intro w
        rw [hpassed.left, hmem]
        constructor
        · intro hw
          exact ⟨.inr hw, hfirst.2 w hw⟩
        · intro hw
          apply hw.1.resolve_left
          intro htake
          rw [hfirst.1 w htake] at hw
          exact absurd hw.2 (by simp)
      refine ⟨hkept, ?_, _, hpassed.acked, hpassed.destroyed, ?_⟩
      · intro w hw d hd b
        have hlive := ((hholds.mem_own w i).mp
          ((hkept w).mpr ⟨hw, by simp [dismissed, hd]⟩)).1
        rw [hholds.mem_foreign, hpassed.dst, if_pos hw]
        simp [hlive, Domains.afterwards, hd, eq_comm]
      · intro w hw hd
        have htake : w ∈ (L i).take ((L i).countP (dismissed c s.dst)) := by
          apply ((hmem w).mp hw).resolve_right
          intro hdrop
          rw [hfirst.2 w hdrop] at hd
          exact absurd hd (by simp)
        exact List.count_eq_one_of_mem (List.nodup_append.mp hnodup).1 htake

/-! ## Two waiters of different fate -/

/-- The first domain is in the new configuration, as the third; the second has
disappeared. -/
def oneDisappears : Domains (Fin 3) Bool where
  name d := d != 1
  ipConfig _ := ⟨(#v[10, 0, 2, 1], 24), #v[0, 0, 0, 0], [], none⟩
  withElement n := if n then some 2 else none

/-- A waiter for the second domain and a newer one for the first. -/
def twoWaiters : ArpWaiters Unit (Fin 3) Bool :=
  ((ArpWaiters.init () 0).construct false () 1).construct true () 0

theorem twoWaiters_holds : twoWaiters.Holds (fun _ => [true, false])
    (fun d => if d = 0 then [true] else if d = 1 then [false] else []) := by
  have h := ((Holds.init (ι := Bool) () (0 : Fin 3)).construct (w := false) (by decide) ()
    1).construct (w := true) (by decide) () 0
  convert h using 1
  · rfl
  · ext k : 1
    cases k
    rfl
  · ext d : 1
    revert d
    decide

theorem updateOwnArpWaiters_iff_twoWaiters : ∃ s' L' F',
    twoWaiters.updateOwnArpWaiters oneDisappears () = .ok s' ∧ s'.Holds L' F' ∧
      (Updated oneDisappears twoWaiters s' () (fun _ => [true, false]) L' F' ↔
        DismissedFirst oneDisappears twoWaiters.dst [true, false]) :=
  updateOwnArpWaiters_iff oneDisappears twoWaiters _ _ twoWaiters_holds ()

/-- The waiter in front is cancelled, which was to be kept. -/
theorem kept_waiter_cancelled : ∃ s', twoWaiters.updateOwnArpWaiters oneDisappears () = .ok s' ∧
    s'.destroyed = [true] ∧ dismissed oneDisappears twoWaiters.dst true = false ∧
    ∀ L' F', ¬ Updated oneDisappears twoWaiters s' () (fun _ => [true, false]) L' F' := by
  refine ⟨_, rfl, rfl, rfl, ?_⟩
  intro L' F' h
  obtain ⟨gone, -, hdestroyed, hcount⟩ := h.cancelled
  have hgone : gone = [true] := hdestroyed.symm
  have hone := hcount false (by decide) rfl
  rw [hgone] at hone
  cases hone

end ArpWaiters

end Genode.Net
