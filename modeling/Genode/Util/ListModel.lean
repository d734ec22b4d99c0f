import Mathlib.Data.Finset.Card
import Genode.Util.List

/-!
# ListModel — a list of elements that follows an XML node

`util/list_model.h`. The elements of the model are matched with the sub
nodes of an XML node: elements are reused or created in the order of the
nodes, and the remaining ones are destroyed. The policy decides about
all that, with a state of its own; its operations may throw. An exception
leaves the function at once, and its local list with it.
-/

namespace Genode.Util

open Lib

/-- `Update_policy`. A created element is a new object. -/
structure UpdatePolicy (ι ν σ : Type) [DecidableEq ι] where
  nodeIsElement : ν → Bool
  elementMatches : σ → ι → ν → Bool
  /-- No element is returned if the operation throws. -/
  createElement : σ → Finset ι → ν → Option ι × σ
  /-- Whether the operation throws. -/
  updateElement : σ → ι → ν → Bool × σ
  destroyElement : σ → ι → σ
  create_fresh : ∀ c live n e, (createElement c live n).1 = some e → e ∉ live

/-- The calls of the operations of a policy. -/
inductive PolicyCall (ι ν : Type) where
  | create (e : Option ι) (n : ν)
  | update (e : ι) (n : ν)
  | destroy (e : ι)
  deriving DecidableEq, Repr

/-- `List_model`, with the elements that exist. -/
structure ListModel (ι : Type) where
  lists : Lists ListRole ι
  live : Finset ι

/-- The state of `update_from_xml`, with the calls up to now. -/
structure ModelUpdate (ι ν σ : Type) extends ListModel ι where
  lastUpdated : Option ι
  policy : σ
  calls : List (PolicyCall ι ν)

variable {ι ν σ : Type} [DecidableEq ι]

namespace ListModel

def init : ListModel ι := ⟨Lists.init, ∅⟩

/-- The search for an element from a pointer on. -/
def find (m : ListModel ι) (p : ι → Bool) : Nat → Option ι → Exec (Option ι)
  | _, none => .ok none
  | 0, some _ => .error .endless
  | k + 1, some e => do
    Exec.access m.live e
    if p e then .ok (some e) else m.find p k (m.lists.next e)

end ListModel

namespace UpdatePolicy

variable (P : UpdatePolicy ι ν σ) (s : ModelUpdate ι ν σ)

/-- The call of `update_element`; whether it throws comes first. -/
def update (e : ι) (n : ν) : Bool × ModelUpdate ι ν σ :=
  let r := P.updateElement s.policy e n
  (r.1, { s with policy := r.2, calls := s.calls ++ [.update e n] })

/-- Append the element to the local list, and update it. -/
def append (e : ι) (n : ν) : Bool × ModelUpdate ι ν σ :=
  P.update { s with
    lists := s.lists.insert .temp e s.lastUpdated
    lastUpdated := some e } e n

/-- Create the element of a node and append it. -/
def create (n : ν) : Bool × ModelUpdate ι ν σ :=
  let r := P.createElement s.policy s.live n
  let s := { s with policy := r.2, calls := s.calls ++ [.create r.1 n] }
  match r.1 with
  | none => (true, s)
  | some e => P.append { s with
      lists := s.lists.constructElement e
      live := insert e s.live } e n

/-- The functor of `update_from_xml`. -/
def addNode (n : ν) : Exec (Bool × ModelUpdate ι ν σ) :=
  if P.nodeIsElement n then do
    let dup ← s.find (fun e => P.elementMatches s.policy e n) s.live.card (s.lists.first .temp)
    match dup with
    | some e => .ok (P.update s e n)
    | none => do
      let curr ← s.find (fun e => P.elementMatches s.policy e n) s.live.card (s.lists.first .own)
      match curr with
      | some e => do
        let lists ← s.lists.remove s.live.card .own e
        .ok (P.append { s with lists } e n)
      | none => .ok (P.create s n)
  else .ok (false, s)

def addNodes (s : ModelUpdate ι ν σ) : List ν → Exec (Bool × ModelUpdate ι ν σ)
  | [] => .ok (false, s)
  | n :: ns => do
    let r ← P.addNode s n
    if r.1 then .ok (true, r.2) else addNodes r.2 ns

/-- The loop over the stale elements, from the one at the pointer on. -/
def destroyStale : Nat → Option ι → ModelUpdate ι ν σ → Exec (ModelUpdate ι ν σ)
  | _, none, s => .ok s
  | 0, some _, _ => .error .endless
  | k + 1, some e, s => do
    Exec.access s.live e
    let next := s.lists.next e
    destroyStale k next { s with
      live := s.live.erase e
      policy := P.destroyElement s.policy e
      calls := s.calls ++ [.destroy e] }

/-- `update_from_xml`: whether an exception leaves it, and the state at
its end. -/
def updateFromXml (m : ListModel ι) (c : σ) (nodes : List ν) :
    Exec (Bool × ModelUpdate ι ν σ) := do
  let r ← P.addNodes ⟨m, none, c, []⟩ nodes
  if r.1 then .ok (true, { r.2 with lists := r.2.lists.dropTemp })
  else do
    let s ← P.destroyStale r.2.live.card (r.2.lists.first .own) r.2
    .ok (false, { s with lists := s.lists.adopt })

end UpdatePolicy

/-- The elements of the model, in their order. -/
structure ListModel.Holds (m : ListModel ι) (L : List ι) : Prop where
  repr : m.lists.Repr (Lists.both L [])
  live : ∀ e ∈ L, e ∈ m.live

/-! ## The update in terms of lists -/

/-- What the state stands for: the elements that are still to be matched,
and those that were. -/
structure Progress (ι ν σ : Type) where
  old : List ι
  updated : List ι
  live : Finset ι
  policy : σ
  calls : List (PolicyCall ι ν)

namespace Progress

def init (L : List ι) (live : Finset ι) (c : σ) : Progress ι ν σ := ⟨L, [], live, c, []⟩

variable (P : UpdatePolicy ι ν σ) (a : Progress ι ν σ)

def update (e : ι) (n : ν) : Bool × Progress ι ν σ :=
  ((P.updateElement a.policy e n).1, { a with
    policy := (P.updateElement a.policy e n).2
    calls := a.calls ++ [.update e n] })

def append (e : ι) (n : ν) : Bool × Progress ι ν σ :=
  update P { a with updated := a.updated ++ [e] } e n

def create (n : ν) : Bool × Progress ι ν σ :=
  let r := P.createElement a.policy a.live n
  let a := { a with policy := r.2, calls := a.calls ++ [.create r.1 n] }
  match r.1 with
  | none => (true, a)
  | some e => append P { a with live := insert e a.live } e n

def add (n : ν) : Bool × Progress ι ν σ :=
  if P.nodeIsElement n then
    match a.updated.find? fun e => P.elementMatches a.policy e n with
    | some e => update P a e n
    | none =>
      match a.old.find? fun e => P.elementMatches a.policy e n with
      | some e => append P { a with old := a.old.erase e } e n
      | none => create P a n
  else (false, a)

def addAll (a : Progress ι ν σ) : List ν → Bool × Progress ι ν σ
  | [] => (false, a)
  | n :: ns => if (add P a n).1 then (true, (add P a n).2) else addAll (add P a n).2 ns

end Progress

/-- The state stands for the lists. -/
structure Tracks (s : ModelUpdate ι ν σ) (a : Progress ι ν σ) : Prop where
  repr : s.lists.Repr (Lists.both a.old a.updated)
  old : ∀ e ∈ a.old, e ∈ a.live
  updated : ∀ e ∈ a.updated, e ∈ a.live
  live : s.live = a.live
  last : s.lastUpdated = a.updated.getLast?
  policy : s.policy = a.policy
  calls : s.calls = a.calls

section Refinement

variable {m : ListModel ι} {P : UpdatePolicy ι ν σ} {s : ModelUpdate ι ν σ} {a : Progress ι ν σ}
  {p : Option ι} {L xs : List ι} {e : ι} {n : ν}

theorem length_le_card {S : Finset ι} (hnd : xs.Nodup) (h : ∀ e ∈ xs, e ∈ S) :
    xs.length ≤ S.card := by
  rw [← List.toFinset_card_of_nodup hnd]
  exact Finset.card_le_card fun e he => h e (List.mem_toFinset.mp he)

theorem find_eq {k : Nat} {q : ι → Bool} (h : Chain m.lists.next p xs) (hk : xs.length ≤ k)
    (hl : ∀ e ∈ xs, e ∈ m.live) : m.find q k p = .ok (xs.find? q) := by
  induction xs generalizing k p with
  | nil =>
    obtain rfl : p = none := h
    cases k <;> rfl
  | cons e xs ih =>
    obtain ⟨rfl, hnext⟩ := h
    cases k with
    | zero => simp at hk
    | succ k =>
      rw [ListModel.find, Exec.access_of_mem (hl e List.mem_cons_self), Exec.ok_bind]
      by_cases hq : q e = true
      · simp [hq]
      · rw [if_neg hq, ih hnext (by simpa using hk) fun x hx => hl x (List.mem_cons_of_mem _ hx)]
        simp [hq]

namespace Tracks

theorem find_temp (h : Tracks s a) (q : ι → Bool) :
    s.find q s.live.card (s.lists.first .temp) = .ok (a.updated.find? q) := by
  have hl : ∀ e ∈ a.updated, e ∈ s.live := h.live ▸ h.updated
  exact find_eq (h.repr.chain .temp) (length_le_card (h.repr.nodup .temp) hl) hl

theorem find_own (h : Tracks s a) (q : ι → Bool) :
    s.find q s.live.card (s.lists.first .own) = .ok (a.old.find? q) := by
  have hl : ∀ e ∈ a.old, e ∈ s.live := h.live ▸ h.old
  exact find_eq (h.repr.chain .own) (length_le_card (h.repr.nodup .own) hl) hl

theorem update (h : Tracks s a) (P : UpdatePolicy ι ν σ) (e : ι) (n : ν) :
    (P.update s e n).1 = (a.update P e n).1 ∧ Tracks (P.update s e n).2 (a.update P e n).2 := by
  unfold UpdatePolicy.update Progress.update
  rw [h.policy]
  refine ⟨rfl, ?_⟩
  exact ⟨h.repr, h.old, h.updated, h.live, h.last, rfl, by rw [h.calls]⟩

theorem append (h : Tracks s a) (hold : e ∉ a.old) (hupd : e ∉ a.updated) (hl : e ∈ a.live)
    (P : UpdatePolicy ι ν σ) (n : ν) :
    (P.append s e n).1 = (a.append P e n).1 ∧ Tracks (P.append s e n).2 (a.append P e n).2 := by
  have hins := h.repr.insert_temp hold hupd
  have hnext : Tracks { s with
      lists := s.lists.insert .temp e s.lastUpdated
      lastUpdated := some e } { a with updated := a.updated ++ [e] } := by
    refine ⟨h.last ▸ hins, h.old, fun x hx => ?_, h.live, by simp, h.policy, h.calls⟩
    rcases List.mem_append.mp hx with hx | hx
    · exact h.updated x hx
    · exact List.mem_singleton.mp hx ▸ hl
  exact hnext.update P e n

theorem create (h : Tracks s a) (P : UpdatePolicy ι ν σ) (n : ν) :
    (P.create s n).1 = (a.create P n).1 ∧ Tracks (P.create s n).2 (a.create P n).2 := by
  obtain ⟨⟨lists, live⟩, last, policy, calls⟩ := s
  obtain ⟨hrepr, hold, hupd, rfl, hlast, rfl, rfl⟩ := h
  unfold UpdatePolicy.create Progress.create
  dsimp only
  cases hcreate : (P.createElement a.policy a.live n).1 with
  | none => exact ⟨rfl, hrepr, hold, hupd, rfl, hlast, rfl, rfl⟩
  | some e =>
    have hfresh := P.create_fresh _ _ _ _ hcreate
    have he : e ∉ a.old := fun he => hfresh (hold e he)
    have he' : e ∉ a.updated := fun he => hfresh (hupd e he)
    have hcon := hrepr.constructElement (Lists.Repr.fresh_both he he')
    have hmid : Tracks (ModelUpdate.mk ⟨lists.constructElement e, insert e a.live⟩ last
        (P.createElement a.policy a.live n).2 (a.calls ++ [.create (some e) n]))
        { a with
          live := insert e a.live
          policy := (P.createElement a.policy a.live n).2
          calls := a.calls ++ [.create (some e) n] } := by
      refine ⟨hcon, fun x hx => ?_, fun x hx => ?_, rfl, hlast, rfl, rfl⟩
      · exact Finset.mem_insert_of_mem (hold x hx)
      · exact Finset.mem_insert_of_mem (hupd x hx)
    exact hmid.append he he' (Finset.mem_insert_self e a.live) P n

theorem addNode (h : Tracks s a) (P : UpdatePolicy ι ν σ) (n : ν) :
    ∃ s', P.addNode s n = .ok ((a.add P n).1, s') ∧ Tracks s' (a.add P n).2 := by
  have hok : ∀ {r : Bool × ModelUpdate ι ν σ} {r' : Bool × Progress ι ν σ}, r.1 = r'.1 ∧
      Tracks r.2 r'.2 → ∃ s', Except.ok r = (.ok (r'.1, s') : Exec _) ∧ Tracks s' r'.2 :=
    fun hr => ⟨_, congrArg Except.ok (Prod.ext hr.1 rfl), hr.2⟩
  have htemp := h.find_temp fun e => P.elementMatches a.policy e n
  have hown := h.find_own fun e => P.elementMatches a.policy e n
  obtain ⟨⟨lists, live⟩, last, policy, calls⟩ := s
  have htracks := h
  obtain ⟨hrepr, hold, hupd, rfl, hlast, rfl, rfl⟩ := h
  unfold UpdatePolicy.addNode Progress.add
  by_cases hn : P.nodeIsElement n
  · rw [if_pos hn, if_pos hn, htemp, Exec.ok_bind]
    cases a.updated.find? fun e => P.elementMatches a.policy e n with
    | some e => exact hok (htracks.update P e n)
    | none =>
      dsimp only at hown ⊢
      rw [hown, Exec.ok_bind]
      cases hcurr : a.old.find? fun e => P.elementMatches a.policy e n with
      | some e =>
        have he : e ∈ a.old := List.mem_of_find?_eq_some hcurr
        have hlen := length_le_card (hrepr.nodup .own) hold
        obtain ⟨lists', hrem, hrepr'⟩ := hrepr.remove_own hlen he
        have hmid : Tracks (ModelUpdate.mk ⟨lists', a.live⟩ last a.policy a.calls)
            { a with old := a.old.erase e } :=
          ⟨hrepr', fun x hx => hold x (List.mem_of_mem_erase hx), hupd, rfl, hlast, rfl, rfl⟩
        have hout : e ∉ a.old.erase e := (hrepr.nodup .own).not_mem_erase
        simp only [hrem, Exec.ok_bind]
        exact hok (hmid.append hout (hrepr.not_mem_temp he) (hold e he) P n)
      | none => exact hok (htracks.create P n)
  · rw [if_neg hn, if_neg hn]
    exact ⟨_, rfl, htracks⟩

theorem addNodes (h : Tracks s a) (P : UpdatePolicy ι ν σ) (ns : List ν) :
    ∃ s', P.addNodes s ns = .ok ((a.addAll P ns).1, s') ∧ Tracks s' (a.addAll P ns).2 := by
  induction ns generalizing s a with
  | nil => exact ⟨s, rfl, h⟩
  | cons n ns ih =>
    obtain ⟨s₁, hs₁, h₁⟩ := h.addNode P n
    rw [UpdatePolicy.addNodes, hs₁, Exec.ok_bind, Progress.addAll]
    cases (a.add P n).1 with
    | true => exact ⟨s₁, rfl, h₁⟩
    | false => exact ih h₁

/-- The stale elements are destroyed in the order of the list. -/
theorem destroyStale (h : Tracks s a) (P : UpdatePolicy ι ν σ) :
    ∃ s', P.destroyStale s.live.card (s.lists.first .own) s = .ok s' ∧ s'.lists = s.lists ∧
      (∀ e, e ∈ s'.live ↔ e ∈ a.live ∧ e ∉ a.old) ∧
      s'.calls = a.calls ++ a.old.map .destroy := by
  have hgen : ∀ (xs : List ι) (k : Nat) (s : ModelUpdate ι ν σ) (p : Option ι),
      Chain s.lists.next p xs → xs.Nodup → xs.length ≤ k → (∀ e ∈ xs, e ∈ s.live) →
      ∃ s', P.destroyStale k p s = .ok s' ∧ s'.lists = s.lists ∧
        (∀ e, e ∈ s'.live ↔ e ∈ s.live ∧ e ∉ xs) ∧ s'.calls = s.calls ++ xs.map .destroy := by
    intro xs
    induction xs with
    | nil =>
      intro k s p hc _ _ _
      obtain rfl : p = none := hc
      refine ⟨s, ?_, rfl, by simp, by simp⟩
      cases k <;> rfl
    | cons x xs ih =>
      intro k s p hc hnd hk hl
      obtain ⟨rfl, hnext⟩ := hc
      obtain ⟨hx, hnd⟩ := List.nodup_cons.mp hnd
      cases k with
      | zero => simp at hk
      | succ k =>
        have hl' : ∀ e ∈ xs, e ∈ s.live.erase x := fun e he =>
          Finset.mem_erase.mpr ⟨fun hex => hx (hex ▸ he), hl e (List.mem_cons_of_mem _ he)⟩
        obtain ⟨s', hs', hlists, hlive, hcalls⟩ := ih k { s with
          live := s.live.erase x
          policy := P.destroyElement s.policy x
          calls := s.calls ++ [.destroy x] } _ hnext hnd (by simpa using hk) hl'
        refine ⟨s', ?_, hlists, fun e => ?_, by simp [hcalls]⟩
        · rw [UpdatePolicy.destroyStale, Exec.access_of_mem (hl x List.mem_cons_self), Exec.ok_bind]
          exact hs'
        · simp only [hlive, Finset.mem_erase, List.mem_cons, not_or]
          tauto
  have hlive : ∀ e ∈ a.old, e ∈ s.live := h.live ▸ h.old
  have hlen := length_le_card (h.repr.nodup .own) hlive
  have hspec := hgen a.old _ s _ (h.repr.chain .own) (h.repr.nodup .own) hlen hlive
  rw [h.calls] at hspec
  simpa only [h.live] using hspec

end Tracks

omit [DecidableEq ι] in
theorem ListModel.Holds.tracks (h : m.Holds L) (c : σ) :
    Tracks (⟨m, none, c, []⟩ : ModelUpdate ι ν σ) (.init L m.live c) :=
  ⟨h.repr, h.live, by simp [Progress.init], rfl, rfl, rfl, rfl⟩

/-- After an exception the model has the elements that were not matched yet. -/
theorem updateFromXml_thrown (h : m.Holds L) {c : σ} {ns : List ν}
    (hthrow : (Progress.addAll P (.init L m.live c) ns).1 = true) :
    ∃ s, P.updateFromXml m c ns = .ok (true, s) ∧
      s.Holds (Progress.addAll P (.init L m.live c) ns).2.old ∧
      s.calls = (Progress.addAll P (.init L m.live c) ns).2.calls := by
  obtain ⟨s, hs, ht⟩ := (h.tracks c).addNodes P ns
  rw [UpdatePolicy.updateFromXml, hs, Exec.ok_bind, hthrow]
  exact ⟨_, rfl, ⟨ht.repr.dropTemp, fun e he => ht.live ▸ ht.old e he⟩, ht.calls⟩

/-- Without an exception it has the ones that were updated. -/
theorem updateFromXml_done (h : m.Holds L) {c : σ} {ns : List ν}
    (hdone : (Progress.addAll P (.init L m.live c) ns).1 = false) :
    ∃ s, P.updateFromXml m c ns = .ok (false, s) ∧
      s.Holds (Progress.addAll P (.init L m.live c) ns).2.updated ∧
      s.calls = (Progress.addAll P (.init L m.live c) ns).2.calls ++
        (Progress.addAll P (.init L m.live c) ns).2.old.map .destroy := by
  obtain ⟨s, hs, ht⟩ := (h.tracks c).addNodes P ns
  obtain ⟨s', hs', hlists, hlive, hcalls⟩ := ht.destroyStale P
  rw [UpdatePolicy.updateFromXml, hs, Exec.ok_bind, hdone]
  refine ⟨{ s' with lists := s'.lists.adopt }, ?_, ⟨?_, ?_⟩, hcalls⟩
  · simp only [hs', Exec.ok_bind]
    rfl
  · rw [hlists]
    exact ht.repr.adopt
  · intro e he
    exact (hlive e).mpr ⟨ht.updated e he, fun hold => ht.repr.not_mem_temp hold he⟩

end Refinement

/-! ## What one node does -/

/-- The ways in which the functor handles a node. -/
inductive Added (P : UpdatePolicy ι ν σ) (a : Progress ι ν σ) (n : ν) : Bool × Progress ι ν σ → Prop
  | skipped (hn : P.nodeIsElement n = false) : Added P a n (false, a)
  | repeated {e : ι} (hn : P.nodeIsElement n)
      (hdup : a.updated.find? (fun e => P.elementMatches a.policy e n) = some e) :
      Added P a n (a.update P e n)
  | reused {e : ι} (hn : P.nodeIsElement n)
      (hdup : a.updated.find? (fun e => P.elementMatches a.policy e n) = none)
      (hcurr : a.old.find? (fun e => P.elementMatches a.policy e n) = some e) :
      Added P a n (Progress.append P { a with old := a.old.erase e } e n)
  | created {e : ι} (hn : P.nodeIsElement n)
      (hdup : a.updated.find? (fun e => P.elementMatches a.policy e n) = none)
      (hcurr : a.old.find? (fun e => P.elementMatches a.policy e n) = none)
      (hnew : (P.createElement a.policy a.live n).1 = some e) :
      Added P a n (Progress.append P { a with
        live := insert e a.live
        policy := (P.createElement a.policy a.live n).2
        calls := a.calls ++ [.create (some e) n] } e n)
  | refused (hn : P.nodeIsElement n)
      (hdup : a.updated.find? (fun e => P.elementMatches a.policy e n) = none)
      (hcurr : a.old.find? (fun e => P.elementMatches a.policy e n) = none)
      (hnew : (P.createElement a.policy a.live n).1 = none) :
      Added P a n (true, { a with
        policy := (P.createElement a.policy a.live n).2
        calls := a.calls ++ [.create none n] })

section Steps

variable {P : UpdatePolicy ι ν σ} {a : Progress ι ν σ} {r : Bool × Progress ι ν σ}
  {L : List ι} {e : ι} {n : ν}

theorem Progress.added (P : UpdatePolicy ι ν σ) (a : Progress ι ν σ) (n : ν) :
    Added P a n (a.add P n) := by
  unfold Progress.add
  by_cases hn : P.nodeIsElement n
  · rw [if_pos hn]
    cases hdup : a.updated.find? fun e => P.elementMatches a.policy e n with
    | some e => exact .repeated hn hdup
    | none =>
      cases hcurr : a.old.find? fun e => P.elementMatches a.policy e n with
      | some e => exact .reused hn hdup hcurr
      | none =>
        dsimp only [Progress.create]
        cases hnew : (P.createElement a.policy a.live n).1 with
        | some e => exact .created hn hdup hcurr hnew
        | none => exact .refused hn hdup hcurr hnew
  · rw [if_neg hn]
    exact .skipped (Bool.eq_false_iff.mpr hn)

/-- What each node preserves holds at the end. -/
theorem Progress.addAll_induction (P : UpdatePolicy ι ν σ) {I : Progress ι ν σ → Prop}
    (ns : List ν) (hstep : ∀ {a n r}, Added P a n r → I a → I r.2) (h : I a) :
    I (a.addAll P ns).2 := by
  induction ns generalizing a with
  | nil => exact h
  | cons n ns ih =>
    have hnext := hstep (a.added P n) h
    rw [Progress.addAll]
    by_cases hthrow : (a.add P n).1 = true
    · rwa [if_pos hthrow]
    · rw [if_neg hthrow]
      exact ih hnext

end Steps

/-! ## Exceptions -/

section Exceptions

variable {m : ListModel ι} {P : UpdatePolicy ι ν σ} {a : Progress ι ν σ}
  {r : Bool × Progress ι ν σ} {L : List ι} {n : ν}

/-- The elements that exist for the model: those of before and the created ones. -/
def Owned (L : List ι) (calls : List (PolicyCall ι ν)) (e : ι) : Prop :=
  e ∈ L ∨ ∃ n, .create (some e) n ∈ calls

namespace Progress

/-- Each of these elements is in one of the two lists. -/
def Complete (L : List ι) (a : Progress ι ν σ) : Prop :=
  ∀ e, Owned L a.calls e ↔ e ∈ a.old ∨ e ∈ a.updated

omit [DecidableEq ι] in
theorem Complete.init (L : List ι) (live : Finset ι) (c : σ) :
    Complete L (Progress.init L live c : Progress ι ν σ) := by
  intro e
  simp [Owned, Progress.init]

theorem Complete.step (h : Complete L a) (hr : Added P a n r) : Complete L r.2 := by
  intro x
  have hx := h x
  cases hr with
  | skipped => exact hx
  | repeated => simpa [Owned, update] using hx
  | @reused e _ _ hcurr =>
    have he : e ∈ a.old := List.mem_of_find?_eq_some hcurr
    have herase : x ∈ a.old.erase e ∨ x = e ↔ x ∈ a.old := by
      by_cases hxe : x = e
      · simp [hxe, he]
      · simp [hxe, List.mem_erase_of_ne]
    simp only [Owned, append, update, List.mem_append, List.mem_singleton] at hx ⊢
    simp only [reduceCtorEq, or_false]
    rw [hx, ← herase]
    tauto
  | created =>
    simp only [Owned, append, update, List.mem_append, List.mem_singleton] at hx ⊢
    simp only [PolicyCall.create.injEq, Option.some.injEq, reduceCtorEq, or_false]
    rw [exists_or, ← or_assoc, hx]
    simp [or_assoc]
  | refused => simpa [Owned] using hx

/-- An element that was matched stays in the local list. -/
theorem updated_ne_nil (h : a.updated ≠ []) (hr : Added P a n r) : r.2.updated ≠ [] := by
  cases hr with
  | skipped => exact h
  | repeated => exact h
  | reused => simp [append, update]
  | created => simp [append, update]
  | refused => exact h

end Progress

/-- The first node that is imported matches no element, and none is created
for it. -/
def FirstCreateThrows (P : UpdatePolicy ι ν σ) (L : List ι) (live : Finset ι) (c : σ)
    (ns : List ν) : Prop :=
  ∃ n, ns.find? P.nodeIsElement = some n ∧ (∀ e ∈ L, P.elementMatches c e n = false) ∧
    (P.createElement c live n).1 = none

namespace Progress

/-- The local list is empty at an exception only if nothing was matched before. -/
theorem updated_eq_nil_iff (ns : List ν) (ha : a.updated = []) (hthrow : (a.addAll P ns).1 = true) :
    (a.addAll P ns).2.updated = [] ↔ FirstCreateThrows P a.old a.live a.policy ns := by
  induction ns with
  | nil => cases hthrow
  | cons n ns ih =>
    have hr := a.added P n
    rw [addAll] at hthrow ⊢
    generalize a.add P n = r at hr hthrow ⊢
    have hkept : r.2.updated ≠ [] →
        (if r.1 then (true, r.2) else r.2.addAll P ns).2.updated ≠ [] := by
      intro hne
      cases r.1 with
      | true => exact hne
      | false =>
        exact addAll_induction P (I := fun a => a.updated ≠ []) ns
          (fun hr h => updated_ne_nil h hr) hne
    have hnil : ∀ {q : ι → Bool} {e : ι}, a.updated.find? q ≠ some e := by simp [ha]
    cases hr with
    | skipped hn =>
      rw [if_neg Bool.false_ne_true] at hthrow ⊢
      rw [ih hthrow]
      simp [FirstCreateThrows, hn]
    | repeated _ hdup => exact absurd hdup hnil
    | reused hn _ hcurr =>
      have hmatch : ¬ ∀ e ∈ a.old, P.elementMatches a.policy e n = false := by
        intro hall
        rw [List.find?_eq_none.mpr fun e he => by simp [hall e he]] at hcurr
        cases hcurr
      simp only [FirstCreateThrows, List.find?_cons, hn, Option.some.injEq, exists_eq_left', hmatch,
        false_and, iff_false]
      exact hkept (by simp [append, update])
    | created hn _ _ hnew =>
      simp only [FirstCreateThrows, List.find?_cons, hn, Option.some.injEq, exists_eq_left', hnew,
        reduceCtorEq, and_false, iff_false]
      exact hkept (by simp [append, update])
    | refused hn _ hcurr hnew =>
      have hall : ∀ e ∈ a.old, P.elementMatches a.policy e n = false := by
        simpa using hcurr
      simpa [FirstCreateThrows, hn, hnew, ha] using hall

end Progress

/-- If an exception leaves the update, then the model still has all elements
exactly if no element was moved to the local list before. -/
theorem updateFromXml_complete_iff (h : m.Holds L) {c : σ} {ns : List ν} {s : ModelUpdate ι ν σ}
    (hthrow : P.updateFromXml m c ns = .ok (true, s)) :
    ∃ L', s.Holds L' ∧
      ((∀ e, Owned L s.calls e → e ∈ L') ↔ FirstCreateThrows P L m.live c ns) := by
  have hthrown : (Progress.addAll P (.init L m.live c) ns).1 = true := by
    by_contra hdone
    obtain ⟨s', hs', -⟩ := updateFromXml_done h (Bool.eq_false_iff.mpr hdone)
    rw [hthrow] at hs'
    cases hs'
  obtain ⟨s', hs', hholds, hcalls⟩ := updateFromXml_thrown h hthrown
  obtain rfl : s = s' := by
    rw [hthrow] at hs'
    cases hs'
    rfl
  have hcomplete := Progress.addAll_induction P ns (fun hr h => Progress.Complete.step h hr)
    (Progress.Complete.init L m.live c)
  obtain ⟨s₁, -, htracks⟩ := (h.tracks c).addNodes P ns
  refine ⟨_, hholds, Iff.trans ?_ (Progress.updated_eq_nil_iff ns rfl hthrown)⟩
  rw [hcalls]
  constructor
  · intro hall
    apply List.eq_nil_iff_forall_not_mem.mpr
    intro e he
    exact htracks.repr.not_mem_temp (hall e ((hcomplete e).mpr (.inr he))) he
  · intro hnil e he
    exact ((hcomplete e).mp he).resolve_right fun hupd => by simp [hnil] at hupd

end Exceptions

/-- The model with one element. -/
def ListModel.single (e : ι) : ListModel ι := ⟨Lists.init.insert .own e none, {e}⟩

theorem ListModel.single_holds (e : ι) : (single e).Holds [e] := by
  refine ⟨?_, fun x hx => Finset.mem_singleton.mpr (List.mem_singleton.mp hx)⟩
  have hins := Lists.repr_init.insert (κ := ListRole) (k := .own) (x := e) (by simp)
    (show ([] : List ι) = [] ++ [] from rfl)
  rwa [← Lists.both_nil, Lists.update_both_own] at hins

/-- Elements and nodes with numbers. The types of the nodes from eight on are unknown. -/
def numbered : UpdatePolicy Nat Nat Unit where
  nodeIsElement _ := true
  elementMatches _ e n := e == n
  createElement _ live n := (if n < 8 ∧ n ∉ live then some n else none, ())
  updateElement _ _ _ := (false, ())
  destroyElement _ _ := ()
  create_fresh c live n e h := by
    obtain ⟨hn, he⟩ := Option.ite_none_right_eq_some.mp h
    cases he
    exact hn.2

/-- An unknown node in front of all others leaves the model as it was. -/
theorem updateFromXml_complete_unknown : ∃ s L', numbered.updateFromXml (.single 0) () [9, 0] =
    .ok (true, s) ∧ s.Holds L' ∧ ((∀ e, Owned [0] s.calls e → e ∈ L') ↔
      FirstCreateThrows numbered [0] (ListModel.single 0).live () [9, 0]) := by
  have hthrow : (Progress.addAll numbered (.init [0] (ListModel.single 0).live ()) [9, 0]).1 =
      true := rfl
  obtain ⟨s, hs, -⟩ := updateFromXml_thrown (ListModel.single_holds 0) hthrow
  obtain ⟨L', h⟩ := updateFromXml_complete_iff (ListModel.single_holds 0) hs
  exact ⟨s, L', hs, h⟩

/-- The element of the first node is lost if the second node is unknown. -/
theorem updateFromXml_loses_element : ∃ s, numbered.updateFromXml (.single 0) () [0, 9] =
    .ok (true, s) ∧ (ListModel.single 0).Holds [0] ∧ s.Holds [] := by
  have hthrow : (Progress.addAll numbered (.init [0] (ListModel.single 0).live ()) [0, 9]).1 =
      true := rfl
  obtain ⟨s, hs, hholds, -⟩ := updateFromXml_thrown (ListModel.single_holds 0) hthrow
  exact ⟨s, hs, ListModel.single_holds 0, hholds⟩

end Genode.Util
