import Mathlib.Data.Fintype.Card
import Genode.Util.List

/-!
# Registry — a registry of objects

`base/registry.h` and `registry.cc`, used by a single thread. While
`for_each` calls the functor, the current element is in no list, and it
is put back into a list of processed elements afterwards, unless it was
destroyed by the functor. The mutex of the registry is held all the
time; who acquires it a second time waits for ever. The mutex of an
element is only there for other threads.
-/

namespace Genode.Base

open Lib Util

/-- `Registry_base` with its elements. The list of processed elements is
local to `_for_each`. -/
structure Registry (ι : Type) where
  lists : Lists ListRole ι
  /-- The elements that exist. -/
  live : Finset ι
  /-- The registry's `_mutex` is taken. -/
  locked : Bool
  curr : Option ι
  /-- The element's `_notify_ptr` is set. -/
  notified : ι → Bool
  /-- What the `Notify` object of the current call says. -/
  keep : Bool

/-- What the functor does in one call: it destroys elements, and it may
throw an exception thereafter. -/
structure FunctorCall (ι : Type) where
  destroys : List ι
  throws : Bool
  deriving DecidableEq, Repr

namespace Registry

variable {ι σ : Type} [DecidableEq ι] [Fintype ι]

/-- An empty registry. -/
def init : Registry ι := ⟨Lists.init, ∅, false, none, fun _ => false, true⟩

variable (s : Registry ι)

/-- The constructor of an element, with `_insert`. -/
def construct (e : ι) : Exec (Registry ι) :=
  if s.locked then .error .endless
  else .ok { s with
    lists := (s.lists.constructElement e).insert .own e none
    live := insert e s.live
    notified := Function.update s.notified e false }

/-- `~Element`, with `_remove`. -/
def destroy (e : ι) : Exec (Registry ι) := do
  Exec.access s.live e
  if s.notified e ∧ s.curr = some e then
    -- flag the element to be not re-inserted
    .ok { s with keep := false, live := s.live.erase e }
  else if s.locked then .error .endless
  else do
    let lists ← s.lists.remove (Fintype.card ι) .own e
    .ok { s with lists, live := s.live.erase e }

def destroyAll (s : Registry ι) : List ι → Exec (Registry ι)
  | [] => .ok s
  | e :: es => do
    let s ← s.destroy e
    s.destroyAll es

/-- `_processed`, with the new insert position first. -/
def processed (e : ι) (at' : Option ι) : Exec (Option ι × Registry ι) :=
  let s := { s with curr := none }
  if ¬ s.keep then .ok (at', s)
  else do
    Exec.access s.live e
    .ok (some e, { s with
      notified := Function.update s.notified e false
      lists := s.lists.insert .temp e at' })

/-- The loop of the exception handler over the remaining elements. -/
def putBack : Nat → Registry ι → Option ι → Exec (Registry ι)
  | 0, _, _ => .error .endless
  | n + 1, s, at' =>
    match s.lists.first .own with
    | none => .ok s
    | some e => do
      Exec.access s.live e
      let lists ← s.lists.remove (Fintype.card ι) .own e
      let p ← processed { s with lists } e at'
      putBack n p.2 p.1

/-- Take the element out of the list and call the functor for it. -/
def callFunctor (fn : ι → σ → FunctorCall ι × σ) (c : σ) (e : ι) : Exec (Registry ι) := do
  Exec.access s.live e
  let lists ← s.lists.remove (Fintype.card ι) .own e
  destroyAll { s with
    lists, keep := true, curr := some e, notified := Function.update s.notified e true }
    (fn e c).1.destroys

/-- The loop of `_for_each`: whether an exception ended it, the registry
and the state of the functor. -/
def forEachLoop (fn : ι → σ → FunctorCall ι × σ) :
    Nat → Registry ι → Option ι → σ → Exec (Bool × Registry ι × σ)
  | 0, _, _, _ => .error .endless
  | n + 1, s, at', c =>
    match s.lists.first .own with
    | none => .ok (false, s, c)
    | some e => do
      let s ← s.callFunctor fn c e
      let p ← s.processed e at'
      if (fn e c).1.throws then do
        let s ← putBack n p.2 p.1
        .ok (true, s, (fn e c).2)
      else forEachLoop fn n p.2 p.1 (fn e c).2

/-- `_for_each`. -/
def forEach (fn : ι → σ → FunctorCall ι × σ) (c : σ) : Exec (Bool × Registry ι × σ) :=
  if s.locked then .error .endless
  else do
    let r ← forEachLoop fn (Fintype.card ι + 1) { s with locked := true } none c
    .ok (r.1, { r.2.1 with locked := false, lists := r.2.1.lists.adopt }, r.2.2)

/-! ## The content of a registry -/

/-- The elements are in the registry's list or are processed. -/
structure Mid (s : Registry ι) (es ks : List ι) : Prop where
  repr : s.lists.Repr (Lists.both es ks)
  live : ∀ x, x ∈ s.live ↔ x ∈ es ∨ x ∈ ks
  notified : ∀ x ∈ s.live, s.notified x = false

/-- The registry contains exactly the elements of the list, in this order. -/
structure Holds (s : Registry ι) (es : List ι) : Prop where
  mid : Mid s es []
  locked : s.locked = false

variable {s} {es ks : List ι} {e : ι} {at' : Option ι} {fn : ι → σ → FunctorCall ι × σ} {c : σ}

omit [DecidableEq ι] [Fintype ι] in
theorem holds_init : Holds (init : Registry ι) [] where
  mid :=
    { repr := by
        rw [Lists.both_nil]
        exact Lists.repr_init
      live := by simp [init]
      notified := fun _ _ => rfl }
  locked := rfl

/-- The removal of the first element. -/
theorem remove_first {D : Lists ListRole ι} (h : D.Repr (Lists.both (e :: es) ks)) :
    ∃ D', D.remove (Fintype.card ι) .own e = .ok D' ∧ D'.Repr (Lists.both es ks) := by
  have hnd : (e :: es).Nodup := h.nodup .own
  have hrem := h.remove_own hnd.length_le_card (List.mem_cons_self (a := e))
  rwa [List.erase_cons_head] at hrem

omit [DecidableEq ι] [Fintype ι] in
theorem fresh_of_repr {D : Lists ListRole ι} (h : D.Repr (Lists.both (e :: es) ks)) :
    e ∉ es ∧ e ∉ ks :=
  ⟨(List.nodup_cons.mp (h.nodup .own)).1, h.not_mem_temp List.mem_cons_self⟩

omit [Fintype ι] in
theorem processed_keep (hk : s.keep = true) (he : e ∈ s.live) :
    s.processed e at' = .ok (some e, { s with
      curr := none
      notified := Function.update s.notified e false
      lists := s.lists.insert .temp e at' }) := by
  simp [processed, hk, Exec.access_of_mem he]

omit [Fintype ι] in
theorem processed_discard (hk : s.keep = false) :
    s.processed e at' = .ok (at', { s with curr := none }) := by
  simp [processed, hk]

/-! ## One call of the functor -/

/-- The current element is in no list; it exists unless it was destroyed. -/
structure Called (s : Registry ι) (e : ι) (es ks : List ι) : Prop where
  repr : s.lists.Repr (Lists.both es ks)
  fresh : e ∉ es ∧ e ∉ ks
  live : ∀ x, x ∈ s.live ↔ (s.keep = true ∧ x = e) ∨ x ∈ es ∨ x ∈ ks
  notified : ∀ x ∈ s.live, s.notified x = true ↔ x = e
  curr : s.curr = some e
  locked : s.locked = true

namespace Called

/-- The functor destroys the element it is called with. -/
theorem destroy_own (h : Called s e es ks) (hk : s.keep = true) :
    ∃ s', s.destroy e = .ok s' ∧ Called s' e es ks ∧ s'.keep = false := by
  have he : e ∈ s.live := (h.live e).mpr (.inl ⟨hk, rfl⟩)
  have hn : s.notified e = true := (h.notified e he).mpr rfl
  refine ⟨{ s with keep := false, live := s.live.erase e }, ?_, ?_, rfl⟩
  · rw [destroy, Exec.access_of_mem he, Exec.ok_bind, if_pos ⟨hn, h.curr⟩]
  · refine ⟨h.repr, h.fresh, fun x => ?_, fun x hx => ?_, h.curr, h.locked⟩
    · simp only [Finset.mem_erase, h.live, Bool.false_eq_true, false_and, false_or]
      constructor
      · intro hx
        exact hx.2.resolve_left fun hxe => hx.1 hxe.2
      · intro hx
        refine ⟨?_, .inr hx⟩
        rintro rfl
        exact hx.elim h.fresh.1 h.fresh.2
    · exact h.notified x (Finset.mem_of_mem_erase hx)

/-- To destroy any other element ends badly. -/
theorem destroy_other (h : Called s e es ks) {x : ι} (hx : x ≠ e ∨ s.keep = false) :
    ∃ f, s.destroy x = .error f := by
  by_cases hl : x ∈ s.live
  · have hne : x ≠ e := by
      rcases hx with hx | hx
      · exact hx
      · rintro rfl
        rcases (h.live x).mp hl with ⟨hk, -⟩ | hes | hks
        · rw [hk] at hx
          cases hx
        · exact h.fresh.1 hes
        · exact h.fresh.2 hks
    have hn : ¬ (s.notified x = true ∧ s.curr = some x) := fun hn =>
      hne ((h.notified x hl).mp hn.1)
    refine ⟨.endless, ?_⟩
    rw [destroy, Exec.access_of_mem hl, Exec.ok_bind, if_neg hn, if_pos h.locked]
  · refine ⟨.pointer, ?_⟩
    rw [destroy, Exec.access, if_neg hl, Exec.error_bind]

theorem destroyAll (h : Called s e es ks) (hk : s.keep = true) (xs : List ι) :
    (xs = [] ∨ xs = [e]) ∧ (∃ s', s.destroyAll xs = .ok s' ∧ Called s' e es ks ∧
      (s'.keep = true ↔ xs = [])) ∨
    ¬ (xs = [] ∨ xs = [e]) ∧ ∃ f, s.destroyAll xs = .error f := by
  cases xs with
  | nil => exact .inl ⟨.inl rfl, s, rfl, h, by simp [hk]⟩
  | cons x xs =>
    by_cases hx : x = e
    · subst hx
      obtain ⟨s', hs', h', hk'⟩ := h.destroy_own hk
      cases xs with
      | nil =>
        refine .inl ⟨.inr rfl, s', ?_, h', by simp [hk']⟩
        rw [Registry.destroyAll, hs', Exec.ok_bind, Registry.destroyAll]
      | cons y ys =>
        obtain ⟨f, hf⟩ := h'.destroy_other (x := y) (.inr hk')
        refine .inr ⟨by simp, f, ?_⟩
        rw [Registry.destroyAll, hs', Exec.ok_bind, Registry.destroyAll, hf, Exec.error_bind]
    · obtain ⟨f, hf⟩ := h.destroy_other (.inl hx)
      refine .inr ⟨by simp [hx], f, ?_⟩
      rw [Registry.destroyAll, hf, Exec.error_bind]

omit [Fintype ι] in
/-- What becomes of the current element after the call. -/
theorem processed (h : Called s e es ks) :
    ∃ s', s.processed e ks.getLast? =
        .ok ((ks ++ if s.keep then [e] else []).getLast?, s') ∧
      Mid s' es (ks ++ if s.keep then [e] else []) ∧ s'.locked = true ∧ s'.keep = s.keep := by
  have hother : ∀ x ∈ s.live, x ≠ e → s.notified x = false := fun x hx hxe =>
    Bool.eq_false_of_not_eq_true fun hn => hxe ((h.notified x hx).mp hn)
  cases hk : s.keep with
  | false =>
    rw [processed_discard hk]
    simp only [Bool.false_eq_true, if_false, List.append_nil]
    refine ⟨_, rfl, ⟨h.repr, fun x => ?_, fun x hx => hother x hx ?_⟩, h.locked, hk⟩
    · simp [h.live, hk]
    · rintro rfl
      have hx' : x ∈ es ∨ x ∈ ks := by simpa [h.live, hk] using hx
      exact hx'.elim h.fresh.1 h.fresh.2
  | true =>
    rw [processed_keep hk ((h.live e).mpr (.inl ⟨hk, rfl⟩)), if_pos rfl, List.getLast?_concat]
    refine ⟨_, rfl, ⟨h.repr.insert_temp h.fresh.1 h.fresh.2, fun x => ?_, fun x hx => ?_⟩,
      h.locked, hk⟩
    · simp only [h.live, hk, true_and, List.mem_append, List.mem_singleton]
      tauto
    · by_cases hxe : x = e
      · simp [hxe]
      · simp [hxe, hother x hx hxe]

end Called

theorem Mid.callFunctor (h : Mid s (e :: es) ks) (hl : s.locked = true)
    (fn : ι → σ → FunctorCall ι × σ) (c : σ) :
    ((fn e c).1.destroys = [] ∨ (fn e c).1.destroys = [e]) ∧
      (∃ s', s.callFunctor fn c e = .ok s' ∧ Called s' e es ks ∧
        (s'.keep = true ↔ (fn e c).1.destroys = [])) ∨
    ¬ ((fn e c).1.destroys = [] ∨ (fn e c).1.destroys = [e]) ∧
      ∃ f, s.callFunctor fn c e = .error f := by
  obtain ⟨lists, hr, hrepr⟩ := remove_first h.repr
  have he : e ∈ s.live := (h.live e).mpr (.inl List.mem_cons_self)
  have hcalled : Called { s with
      lists, keep := true, curr := some e, notified := Function.update s.notified e true }
      e es ks := by
    refine ⟨hrepr, fresh_of_repr h.repr, fun x => ?_, fun x hx => ?_, rfl, hl⟩
    · simp [h.live, or_assoc]
    · by_cases hxe : x = e
      · simp [hxe]
      · simp [hxe, h.notified x hx]
  rw [Registry.callFunctor, Exec.access_of_mem he, Exec.ok_bind, hr, Exec.ok_bind]
  exact hcalled.destroyAll rfl _

/-! ## The loops -/

/-- The remaining elements are put back, unless the element that the
functor was called with last was destroyed. -/
theorem putBack_spec {n : Nat} (hr : s.lists.Repr (Lists.both es ks)) (hl : ∀ x ∈ es, x ∈ s.live)
    (hnot : ∀ x ∈ s.live, s.notified x = false) (hn : es.length < n) :
    ∃ s', s.putBack n ks.getLast? = .ok s' ∧
      s'.lists.Repr (Lists.both [] (ks ++ if s.keep then es else [])) ∧ s'.live = s.live ∧
      ∀ x ∈ s'.live, s'.notified x = false := by
  induction n generalizing s es ks with
  | zero => omega
  | succ n ih =>
    rw [putBack, hr.first_eq .own]
    cases es with
    | nil => exact ⟨s, rfl, by simpa using hr, rfl, hnot⟩
    | cons e es =>
      have hlen : es.length < n := by simpa using hn
      have he : e ∈ s.live := hl e List.mem_cons_self
      have hl' : ∀ x ∈ es, x ∈ s.live := fun x hx => hl x (List.mem_cons_of_mem _ hx)
      obtain ⟨hes, hks⟩ := fresh_of_repr hr
      obtain ⟨lists, hrem, hrepr⟩ := remove_first hr
      simp only [Lists.both, List.head?_cons, Exec.access_of_mem he, hrem, Exec.ok_bind]
      by_cases hk : s.keep = true
      · have hnot₁ : ∀ x ∈ s.live, Function.update s.notified e false x = false := by
          intro x hx
          by_cases hxe : x = e
          · simp [hxe]
          · simp [hxe, hnot x hx]
        obtain ⟨s', hs', hrepr', hlive, hnot'⟩ := ih (hrepr.insert_temp hes hks) hl' hnot₁ hlen
          (s := { s with
            curr := none
            notified := Function.update s.notified e false
            lists := lists.insert .temp e ks.getLast? })
        rw [processed_keep (s := { s with lists }) hk he, Exec.ok_bind]
        rw [List.getLast?_concat] at hs'
        refine ⟨s', hs', ?_, hlive, hnot'⟩
        simpa [hk] using hrepr'
      · have hk' : s.keep = false := by simpa using hk
        obtain ⟨s', hs', hrepr', hlive, hnot'⟩ :=
          ih (s := { s with lists, curr := none }) hrepr hl' hnot hlen
        rw [processed_discard (s := { s with lists }) hk', Exec.ok_bind]
        refine ⟨s', hs', ?_, hlive, hnot'⟩
        simpa [hk'] using hrepr'

/-! ## What the functor does -/

/-- The calls of the functor for a list of elements. An exception ends them. -/
def visits (fn : ι → σ → FunctorCall ι × σ) : List ι → σ → List (FunctorCall ι)
  | [], _ => []
  | e :: es, c => (fn e c).1 :: if (fn e c).1.throws then [] else visits fn es (fn e c).2

def destroyed (fn : ι → σ → FunctorCall ι × σ) (es : List ι) (c : σ) : List ι :=
  (visits fn es c).flatMap FunctorCall.destroys

/-- An exception is thrown. -/
def throws (fn : ι → σ → FunctorCall ι × σ) (es : List ι) (c : σ) : Bool :=
  (visits fn es c).any FunctorCall.throws

/-- No element is destroyed but the one the functor is called with. -/
def OwnOnly (fn : ι → σ → FunctorCall ι × σ) : List ι → σ → Prop
  | [], _ => True
  | e :: es, c => ((fn e c).1.destroys = [] ∨ (fn e c).1.destroys = [e]) ∧
      ((fn e c).1.throws = false → OwnOnly fn es (fn e c).2)

/-- And an exception is thrown only by a call that has not destroyed its
element, or by the one for the last element. -/
def Careful (fn : ι → σ → FunctorCall ι × σ) : List ι → σ → Prop
  | [], _ => True
  | e :: es, c => ((fn e c).1.destroys = [] ∨ (fn e c).1.destroys = [e]) ∧
      if (fn e c).1.throws then (fn e c).1.destroys = [] ∨ es = []
      else Careful fn es (fn e c).2

/-- The elements that `_for_each` puts back. -/
def kept (fn : ι → σ → FunctorCall ι × σ) : List ι → σ → List ι
  | [], _ => []
  | e :: es, c => (if (fn e c).1.destroys = [] then [e] else []) ++
      if (fn e c).1.throws then if (fn e c).1.destroys = [] then es else []
      else kept fn es (fn e c).2

/-- The elements that still exist. -/
def survivors (fn : ι → σ → FunctorCall ι × σ) (es : List ι) (c : σ) : List ι :=
  es.filter fun x => x ∉ destroyed fn es c

section Functor

omit [DecidableEq ι] [Fintype ι] in
theorem OwnOnly.mem_of_destroyed (h : OwnOnly fn es c) {x : ι} (hx : x ∈ destroyed fn es c) :
    x ∈ es := by
  induction es generalizing c with
  | nil => simp [destroyed, visits] at hx
  | cons e es ih =>
    have hsplit : x ∈ (fn e c).1.destroys ∨
        (fn e c).1.throws = false ∧ x ∈ destroyed fn es (fn e c).2 := by
      cases ht : (fn e c).1.throws <;> simpa [destroyed, visits, ht] using hx
    rcases hsplit with hx | ⟨ht, hx⟩
    · rcases h.1 with hd | hd
      · simp [hd] at hx
      · simp [hd] at hx
        simp [hx]
    · exact List.mem_cons_of_mem _ (ih (h.2 ht) hx)

omit [Fintype ι] in
theorem survivors_cons (h : OwnOnly fn (e :: es) c) (he : e ∉ es) :
    survivors fn (e :: es) c = (if (fn e c).1.destroys = [] then [e] else []) ++
      if (fn e c).1.throws then es else survivors fn es (fn e c).2 := by
  have hes : ∀ x ∈ es, x ≠ e := fun x hx hxe => he (hxe ▸ hx)
  cases ht : (fn e c).1.throws with
  | true =>
    have hd : destroyed fn (e :: es) c = (fn e c).1.destroys := by simp [destroyed, visits, ht]
    rcases h.1 with hown | hown
    · simp [survivors, hd, hown]
    · simpa [survivors, hd, hown, List.filter_eq_self] using hes
  | false =>
    have hd : destroyed fn (e :: es) c = (fn e c).1.destroys ++ destroyed fn es (fn e c).2 := by
      simp [destroyed, visits, ht]
    have hlater : e ∉ destroyed fn es (fn e c).2 := fun hx =>
      he ((h.2 ht).mem_of_destroyed hx)
    rcases h.1 with hown | hown
    · simp [survivors, hd, hown, hlater]
    · simp only [survivors, hd, hown, List.filter_cons]
      simp
      apply List.filter_congr
      intro x hx
      simp [hes x hx]

omit [DecidableEq ι] [Fintype ι] in
theorem Careful.ownOnly (h : Careful fn es c) : OwnOnly fn es c := by
  induction es generalizing c with
  | nil => trivial
  | cons e es ih =>
    refine ⟨h.1, fun ht => ih ?_⟩
    have hrest := h.2
    rwa [ht, if_neg (by simp)] at hrest

omit [Fintype ι] in
/-- All survivors are kept exactly if no exception follows a destruction. -/
theorem kept_eq_iff (h : OwnOnly fn es c) (hes : es.Nodup) :
    kept fn es c = survivors fn es c ↔ Careful fn es c := by
  induction es generalizing c with
  | nil => simp [kept, survivors, Careful]
  | cons e es ih =>
    obtain ⟨he, hnd⟩ := List.nodup_cons.mp hes
    rw [survivors_cons h he, kept, Careful, List.append_cancel_left_eq]
    cases ht : (fn e c).1.throws with
    | true =>
      by_cases hd : (fn e c).1.destroys = []
      · simp [hd]
      · have hd' : (fn e c).1.destroys = [e] := h.1.resolve_left hd
        simp [hd', eq_comm]
    | false =>
      simp only [Bool.false_eq_true, if_false, ih (h.2 ht) hnd, h.1, true_and]

end Functor

/-! ## The whole loop -/

theorem forEachLoop_own {n : Nat} (h : Mid s es ks) (hl : s.locked = true) (hown : OwnOnly fn es c)
    (hn : es.length < n) :
    ∃ s' c', s.forEachLoop fn n ks.getLast? c = .ok (throws fn es c, s', c') ∧
      s'.lists.Repr (Lists.both [] (ks ++ kept fn es c)) ∧
      (∀ x, x ∈ s'.live ↔ x ∈ survivors fn es c ∨ x ∈ ks) ∧
      ∀ x ∈ s'.live, s'.notified x = false := by
  induction n generalizing s es ks c with
  | zero => omega
  | succ n ih =>
    rw [forEachLoop, h.repr.first_eq .own]
    cases es with
    | nil => exact ⟨s, c, rfl, by simpa [kept] using h.repr, by simpa [survivors] using h.live,
        h.notified⟩
    | cons e es =>
      have hlen : es.length < n := by simpa using hn
      have he := (fresh_of_repr h.repr).1
      obtain ⟨-, s₁, hs₁, hcalled, hk⟩ := (h.callFunctor hl fn c).resolve_right fun hno =>
        hno.1 hown.1
      obtain ⟨s₂, hs₂, hmid, hl₂, hkeep⟩ := hcalled.processed
      -- the element itself is kept exactly if it was not destroyed
      have hself : (if s₁.keep then [e] else []) =
          if (fn e c).1.destroys = [] then [e] else [] := by
        by_cases hd : (fn e c).1.destroys = []
        · rw [if_pos (hk.mpr hd), if_pos hd]
        · rw [if_neg fun hkept => hd (hk.mp hkept), if_neg hd]
      have hkd : (if s₂.keep then es else []) =
          if (fn e c).1.destroys = [] then es else [] := by
        by_cases hd : (fn e c).1.destroys = []
        · rw [if_pos (hkeep.trans (hk.mpr hd)), if_pos hd]
        · rw [if_neg fun hkept => hd (hk.mp (hkeep ▸ hkept)), if_neg hd]
      rw [hself] at hs₂ hmid
      simp only [Lists.both, List.head?_cons, hs₁, Exec.ok_bind, hs₂]
      rw [survivors_cons hown he]
      cases ht : (fn e c).1.throws with
      | true =>
        have hes : ∀ x ∈ es, x ∈ s₂.live := fun x hx => (hmid.live x).mpr (.inl hx)
        obtain ⟨s₃, hs₃, hrepr, hlive, hnot⟩ := putBack_spec hmid.repr hes hmid.notified hlen
        have hthrows : throws fn (e :: es) c = true := by simp [throws, visits, ht]
        rw [if_pos rfl, hs₃, Exec.ok_bind, hthrows]
        refine ⟨s₃, _, rfl, ?_, fun x => ?_, hnot⟩
        · rw [hkd, List.append_assoc] at hrepr
          simpa [kept, ht] using hrepr
        · rw [hlive, hmid.live]
          simp only [List.mem_append, if_true]
          tauto
      | false =>
        have hthrows : throws fn (e :: es) c = throws fn es (fn e c).2 := by
          simp [throws, visits, ht]
        obtain ⟨s₃, c', hs₃, hrepr, hlive, hnot⟩ := ih hmid hl₂ (hown.2 ht) hlen
        rw [if_neg (by simp), hs₃, hthrows]
        refine ⟨s₃, c', rfl, ?_, fun x => ?_, hnot⟩
        · rw [List.append_assoc] at hrepr
          simpa [kept, ht] using hrepr
        · rw [hlive]
          simp only [List.mem_append, Bool.false_eq_true, if_false]
          tauto

/-- A functor that destroys another element gets stuck. -/
theorem forEachLoop_other {n : Nat} (h : Mid s es ks) (hl : s.locked = true)
    (hown : ¬ OwnOnly fn es c) : ∃ f, s.forEachLoop fn n ks.getLast? c = .error f := by
  induction n generalizing s es ks c with
  | zero => exact ⟨.endless, rfl⟩
  | succ n ih =>
    rw [forEachLoop, h.repr.first_eq .own]
    cases es with
    | nil => exact absurd trivial hown
    | cons e es =>
      simp only [Lists.both, List.head?_cons]
      rcases h.callFunctor hl fn c with ⟨hd, s₁, hs₁, hcalled, -⟩ | ⟨-, f, hf⟩
      · obtain ⟨s₂, hs₂, hmid, hl₂, -⟩ := hcalled.processed
        have ht : (fn e c).1.throws = false := by
          by_contra hne
          exact hown ⟨hd, fun hf => absurd hf hne⟩
        have hlater : ¬ OwnOnly fn es (fn e c).2 := fun hes => hown ⟨hd, fun _ => hes⟩
        rw [hs₁, Exec.ok_bind, hs₂, Exec.ok_bind, ht, if_neg (by simp)]
        exact ih hmid hl₂ hlater
      · exact ⟨f, by rw [hf, Exec.error_bind]⟩

/-- `for_each` returns, and the registry contains exactly the elements
that were not destroyed, in the order of before. -/
def Consistent (s : Registry ι) (fn : ι → σ → FunctorCall ι × σ) (es : List ι) (c : σ) : Prop :=
  ∃ s' c', s.forEach fn c = .ok (throws fn es c, s', c') ∧ Holds s' (survivors fn es c)

/-- The last step of `_for_each`: the processed elements are the new list. -/
def finish (s : Registry ι) : Registry ι := { s with locked := false, lists := s.lists.adopt }

/-- The registry stays consistent exactly if the functor destroys no
element but the one it is called with, and throws an exception only
after a call without a destruction or after the last call. -/
theorem forEach_consistent_iff (h : Holds s es) (fn : ι → σ → FunctorCall ι × σ) (c : σ) :
    Consistent s fn es c ↔ Careful fn es c := by
  have hnd : es.Nodup := h.mid.repr.nodup .own
  have hmid : Mid { s with locked := true } es [] := ⟨h.mid.repr, h.mid.live, h.mid.notified⟩
  by_cases hown : OwnOnly fn es c
  · obtain ⟨s', c', hs', hrepr, hlive, hnot⟩ :=
      forEachLoop_own hmid rfl hown (Nat.lt_succ_of_le hnd.length_le_card)
    rw [List.nil_append] at hrepr
    have hfor : s.forEach fn c = .ok (throws fn es c, s'.finish, c') := by
      rw [List.getLast?_nil] at hs'
      rw [forEach, h.locked, if_neg (by simp), hs', Exec.ok_bind]
      rfl
    have hmoved := hrepr.adopt
    rw [← kept_eq_iff hown hnd]
    constructor
    · intro hcons
      obtain ⟨s₁, c₁, hs₁, hholds⟩ := hcons
      rw [hfor] at hs₁
      obtain ⟨rfl, rfl⟩ : s'.finish = s₁ ∧ c' = c₁ := by simpa using hs₁
      exact congrFun (hmoved.unique hholds.mid.repr) .own
    · intro heq
      rw [heq] at hmoved
      refine ⟨_, c', hfor, ⟨hmoved, fun x => ?_, hnot⟩, rfl⟩
      exact hlive x
  · obtain ⟨f, hf⟩ := forEachLoop_other (n := Fintype.card ι + 1) hmid rfl hown
    constructor
    · intro hcons
      obtain ⟨s₁, c₁, hs₁, -⟩ := hcons
      rw [List.getLast?_nil] at hf
      rw [forEach, h.locked, if_neg (by simp), hf, Exec.error_bind] at hs₁
      cases hs₁
    · exact fun hcareful => absurd hcareful.ownOnly hown

/-! ## Construction and destruction outside of `for_each` -/

omit [Fintype ι] in
theorem Holds.construct (h : Holds s es) (he : e ∉ es) :
    ∃ s', s.construct e = .ok s' ∧ Holds s' (e :: es) := by
  have hfresh : ∀ k, e ∉ Lists.both es [] k := Lists.Repr.fresh_both he (by simp)
  have hrepr := (h.mid.repr.constructElement hfresh).insert hfresh (k := .own)
    (show Lists.both es [] .own = [] ++ es from rfl)
  rw [Lists.update_both_own] at hrepr
  refine ⟨{ s with
    lists := (s.lists.constructElement e).insert .own e none
    live := insert e s.live
    notified := Function.update s.notified e false }, ?_, ⟨hrepr, fun x => ?_, ?_⟩, h.locked⟩
  · simp [Registry.construct, h.locked]
  · simp [h.mid.live]
  · intro x hx
    by_cases hxe : x = e
    · simp [hxe]
    · have hx' : x ∈ s.live := by simpa [hxe] using hx
      simp [hxe, h.mid.notified x hx']

theorem Holds.destroy (h : Holds s es) (he : e ∈ es) :
    ∃ s', s.destroy e = .ok s' ∧ Holds s' (es.erase e) := by
  have hnd : es.Nodup := h.mid.repr.nodup .own
  have hl : e ∈ s.live := (h.mid.live e).mpr (.inl he)
  obtain ⟨lists, hr, hrepr⟩ := h.mid.repr.remove_own hnd.length_le_card he
  refine ⟨{ s with lists, live := s.live.erase e }, ?_,
    ⟨hrepr, fun x => ?_, fun x hx => ?_⟩, h.locked⟩
  · rw [Registry.destroy, Exec.access_of_mem hl, Exec.ok_bind, h.mid.notified e hl]
    simp [h.locked, hr]
  · simp [h.mid.live, hnd.mem_erase_iff]
  · exact h.mid.notified x (Finset.mem_of_mem_erase hx)

/-- Three elements. -/
theorem exists_three : ∃ s : Registry (Fin 3), Holds s [0, 1, 2] := by
  obtain ⟨s₁, -, h₁⟩ := (holds_init (ι := Fin 3)).construct (e := 2) (by simp)
  obtain ⟨s₂, -, h₂⟩ := h₁.construct (e := 1) (by simp)
  obtain ⟨s₃, -, h₃⟩ := h₂.construct (e := 0) (by simp)
  exact ⟨s₃, h₃⟩

/-- The functor destroys the second element, and it destroys the last
one and throws an exception. -/
theorem forEach_consistent_last :
    ∃ (s : Registry (Fin 3)) (fn : Fin 3 → Unit → FunctorCall (Fin 3) × Unit),
      Holds s [0, 1, 2] ∧ Consistent s fn [0, 1, 2] () ∧ survivors fn [0, 1, 2] () = [0] := by
  obtain ⟨s, h⟩ := exists_three
  refine ⟨s, fun e c => (⟨if e = 0 then [] else [e], e = 2⟩, c), h, ?_, by decide⟩
  exact (forEach_consistent_iff h _ ()).mpr (by simp [Careful])

/-- The functor destroys the first element and throws an exception: the
other two are no longer in the registry. -/
theorem forEach_loses_elements :
    ∃ (s : Registry (Fin 3)) (fn : Fin 3 → Unit → FunctorCall (Fin 3) × Unit),
      Holds s [0, 1, 2] ∧ visits fn [0, 1, 2] () = [⟨[0], true⟩] ∧
      ¬ Consistent s fn [0, 1, 2] () := by
  obtain ⟨s, h⟩ := exists_three
  refine ⟨s, fun e c => (⟨[e], true⟩, c), h, by decide, fun hcons => ?_⟩
  have hcareful := (forEach_consistent_iff h _ ()).mp hcons
  simp [Careful] at hcareful

end Registry

end Genode.Base
