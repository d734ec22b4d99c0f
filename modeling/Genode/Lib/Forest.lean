import Mathlib.Logic.Relation
import Mathlib.Data.Set.Card
import Mathlib.Data.Set.Finite.Basic
import Genode.Lib.Exec

/-!
# Forest — graphs in which every object refers to at most one other

`f : ι → Option ι` sends an object to the one it refers to. Seen from
the other end the objects that refer to `x`, directly or through
others, form a tree below `x`, unless `x` lies on a cycle. The module
provides what a traversal in either direction needs: `top` follows the
references upwards, `visit` runs an action on a whole subtree, depth
first. Both run on fuel, and both need only as much fuel as there are
objects, as long as they do not meet a cycle.
-/

namespace Genode.Lib

open Relation

variable {ι : Type} {f f' : ι → Option ι} {x y z : ι}

/-- `x` refers to `y`. -/
def Up (f : ι → Option ι) (x y : ι) : Prop := f x = some y

/-- `x` lies on a cycle of references. -/
def OnCycle (f : ι → Option ι) (x : ι) : Prop := TransGen (Up f) x x

def Acyclic (f : ι → Option ι) : Prop := ∀ x, ¬ OnCycle f x

/-- The subtree of `x`: the objects from which a chain of references
leads to `x`, and `x` itself. -/
def below (f : ι → Option ι) (x : ι) : Set ι := {y | ReflTransGen (Up f) y x}

/-- The subtree of `x` without its root. -/
def strictBelow (f : ι → Option ι) (x : ι) : Set ι := {y | TransGen (Up f) y x}

/-- The objects that a chain of references from `x` meets. -/
def strictAbove (f : ι → Option ι) (x : ι) : Set ι := {y | TransGen (Up f) x y}

theorem up_rightUnique : Relator.RightUnique (Up f) := fun _ _ _ h h' =>
  Option.some.inj (h.symm.trans h')

theorem self_mem_below : x ∈ below f x := ReflTransGen.refl

theorem mem_below_iff : y ∈ below f x ↔ y = x ∨ ∃ c, f c = some x ∧ y ∈ below f c := by
  constructor
  · intro h
    rcases ReflTransGen.cases_tail h with rfl | ⟨c, hc, hx⟩
    · exact .inl rfl
    · exact .inr ⟨c, hx, hc⟩
  · rintro (rfl | ⟨c, hc, hy⟩)
    · exact self_mem_below
    · exact ReflTransGen.tail hy hc

/-! ## Cycles -/

/-- The references lead around a cycle forever. -/
theorem OnCycle.up (h : OnCycle f x) : ∃ y, f x = some y ∧ OnCycle f y := by
  obtain ⟨y, hxy, hyx⟩ := TransGen.head'_iff.mp h
  exact ⟨y, hxy, TransGen.tail' hyx hxy⟩

theorem OnCycle.of_reflTransGen (h : OnCycle f x) (hy : ReflTransGen (Up f) x y) :
    OnCycle f y := by
  induction hy with
  | refl => exact h
  | tail _ hbc ih =>
    obtain ⟨c, hc, hcyc⟩ := ih.up
    rwa [up_rightUnique hbc hc]

theorem not_onCycle_of_mem_below (hx : ¬ OnCycle f x) (hy : y ∈ below f x) : ¬ OnCycle f y :=
  fun h => hx (h.of_reflTransGen hy)

theorem not_onCycle_of_none (hx : f x = none) : ¬ OnCycle f x := fun h => by
  obtain ⟨y, hy, -⟩ := h.up
  exact absurd (hx.symm.trans hy) (by simp)

theorem not_mem_below_child (hx : ¬ OnCycle f x) {c : ι} (hc : f c = some x) :
    x ∉ below f c := fun h => hx (TransGen.tail' h hc)

/-- Different children of an object off every cycle have disjoint subtrees. -/
theorem below_disjoint (hx : ¬ OnCycle f x) {c d : ι} (hc : f c = some x) (hd : f d = some x)
    (hcd : c ≠ d) (hyc : y ∈ below f c) (hyd : y ∈ below f d) : False := by
  have key : ∀ {a b : ι}, f a = some x → f b = some x → a ≠ b →
      ReflTransGen (Up f) a b → False := by
    intro a b ha hb hne hab
    rcases ReflTransGen.cases_head hab with h | ⟨e, he, heb⟩
    · exact hne h
    · -- the step from `a` leads to `x`, so `x` would reach itself through `b`
      have hex : e = x := up_rightUnique he ha
      subst hex
      exact hx (TransGen.tail' heb hb)
  rcases ReflTransGen.total_of_right_unique up_rightUnique hyc hyd with h | h
  · exact key hc hd hcd h
  · exact key hd hc (Ne.symm hcd) h

theorem Acyclic.mono (h : Acyclic f) (hsub : ∀ {a b}, f' a = some b → f a = some b) :
    Acyclic f' := fun x hx =>
  h x (TransGen.mono (r := Up f') (p := Up f) (fun _ _ hab => hsub hab) x x hx)

/-- References that are shortcuts of others close no cycle. -/
theorem Acyclic.of_shortcut (h : Acyclic f)
    (hsub : ∀ a b, f' a = some b → TransGen (Up f) a b) : Acyclic f' := by
  have hway : ∀ {a b : ι}, TransGen (Up f') a b → TransGen (Up f) a b := by
    intro a b hab
    induction hab with
    | single hab => exact hsub _ _ hab
    | tail _ hbc ih => exact ih.trans (hsub _ _ hbc)
  exact fun x hx => h x (hway hx)

/-- Removing a reference. -/
theorem of_update_none [DecidableEq ι] (h : Function.update f z none x = some y) :
    f x = some y := by
  by_cases hx : x = z
  · subst hx; simp at h
  · rwa [Function.update_of_ne hx] at h

section AddEdge

variable [DecidableEq ι] {n m : ι}

theorem up_update_of_ne {a b : ι} (h : a ≠ n) :
    Up (Function.update f n (some m)) a b ↔ Up f a b := by
  simp [Up, Function.update_of_ne h]

/-- A chain in the graph with the new edge uses it at most once, if it
does not close a cycle. -/
theorem reflTransGen_update (hm : ¬ ReflTransGen (Up f) m n) {a b : ι}
    (h : ReflTransGen (Up (Function.update f n (some m))) a b) :
    ReflTransGen (Up f) a b ∨ ReflTransGen (Up f) a n ∧ ReflTransGen (Up f) m b := by
  induction h with
  | refl => exact .inl .refl
  | @tail b c _ hbc ih =>
    by_cases hb : b = n
    · subst hb
      have hcm : c = m := by simpa [Up] using hbc.symm
      subst hcm
      rcases ih with h | ⟨h, -⟩
      · exact .inr ⟨h, .refl⟩
      · exact .inr ⟨h, .refl⟩
    · have hbc' := (up_update_of_ne hb).mp hbc
      rcases ih with h | ⟨h1, h2⟩
      · exact .inl (h.tail hbc')
      · exact .inr ⟨h1, h2.tail hbc'⟩

/-- A new reference keeps the graph acyclic if its target does not lead
back to its source. -/
theorem Acyclic.update (h : Acyclic f) (hm : ¬ ReflTransGen (Up f) m n) :
    Acyclic (Function.update f n (some m)) := by
  intro x hx
  obtain ⟨y, hxy, hyx⟩ := TransGen.head'_iff.mp hx
  by_cases hxn : x = n
  · subst hxn
    have hym : y = m := by simpa [Up] using hxy.symm
    subst hym
    rcases reflTransGen_update hm hyx with h1 | ⟨h1, -⟩
    · exact hm h1
    · exact hm h1
  · have hxy' := (up_update_of_ne hxn).mp hxy
    rcases reflTransGen_update hm hyx with h1 | ⟨h1, h2⟩
    · exact h x (TransGen.head' hxy' h1)
    · exact hm (h2.trans (ReflTransGen.head hxy' h1))

/-- Otherwise it closes a cycle. -/
theorem onCycle_update (hn : f n = none) (hm : ReflTransGen (Up f) m n) :
    OnCycle (Function.update f n (some m)) n := by
  have hlift : ∀ {a}, ReflTransGen (Up f) a n →
      ReflTransGen (Up (Function.update f n (some m))) a n := by
    intro a ha
    induction ha using ReflTransGen.head_induction_on with
    | refl => exact .refl
    | @head a c hac _ ih =>
      have han : a ≠ n := by
        rintro rfl
        exact absurd (hn.symm.trans hac) (by simp)
      exact .head ((up_update_of_ne han).mpr hac) ih
  exact TransGen.head' (by simp [Up]) (hlift hm)

end AddEdge

/-! ## Finiteness -/

theorem strictBelow_subset : strictBelow f x ⊆ {y | f y ≠ none} := by
  intro y hy
  obtain ⟨c, hc, -⟩ := TransGen.head'_iff.mp hy
  simp [show f y = some c from hc]

theorem finite_strictBelow (hf : {y | f y ≠ none}.Finite) : (strictBelow f x).Finite :=
  hf.subset strictBelow_subset

theorem finite_strictAbove (hf : {y | f y ≠ none}.Finite) : (strictAbove f x).Finite := by
  refine (hf.image f |>.preimage (Option.some_injective ι).injOn).subset fun y hy => ?_
  obtain ⟨c, -, hc⟩ := TransGen.tail'_iff.mp hy
  exact ⟨c, by simp [show f c = some y from hc], hc⟩

theorem ncard_strictBelow_lt (hf : {y | f y ≠ none}.Finite) (hx : ¬ OnCycle f x) {c : ι}
    (hc : f c = some x) : (strictBelow f c).ncard < (strictBelow f x).ncard := by
  have hcyc : ¬ OnCycle f c :=
    not_onCycle_of_mem_below hx (mem_below_iff.mpr (.inr ⟨c, hc, self_mem_below⟩))
  refine Set.ncard_lt_ncard ⟨fun y hy => TransGen.tail hy hc, fun hsub => ?_⟩
    (finite_strictBelow hf)
  exact hcyc (hsub (TransGen.single hc))

theorem ncard_strictAbove_lt (hf : {y | f y ≠ none}.Finite) (hy : ¬ OnCycle f y)
    (hxy : f x = some y) : (strictAbove f y).ncard < (strictAbove f x).ncard := by
  refine Set.ncard_lt_ncard ⟨fun z hz => TransGen.head hxy hz, fun hsub => ?_⟩
    (finite_strictAbove hf)
  exact hy (hsub (TransGen.single hxy))

/-! ## Upwards: the last object of a chain -/

/-- Follow the references from `x` to the last object of the chain. -/
def top (f : ι → Option ι) : Nat → ι → Option ι
  | 0, _ => none
  | n + 1, x =>
    match f x with
    | none => some x
    | some y => top f n y

/-- Without cycles the chain ends, after at most as many steps as it has
objects. -/
theorem top_ends (hf : {y | f y ≠ none}.Finite) (hac : Acyclic f) {n : Nat}
    (hn : (strictAbove f x).ncard < n) : ∃ r, top f n x = some r := by
  induction n generalizing x with
  | zero => omega
  | succ n ih =>
    cases hx : f x with
    | none => exact ⟨x, by simp [top, hx]⟩
    | some y =>
      have hlt := ncard_strictAbove_lt hf (hac y) hx
      obtain ⟨r, hr⟩ := ih (x := y) (by omega)
      exact ⟨r, by simpa [top, hx] using hr⟩

/-- From a cycle no amount of fuel leads to an end. -/
theorem top_onCycle (h : OnCycle f x) (n : Nat) : top f n x = none := by
  induction n generalizing x with
  | zero => rfl
  | succ n ih =>
    obtain ⟨y, hy, hcyc⟩ := h.up
    simp [top, hy, ih hcyc]

/-! ## Downwards: an action on a whole subtree -/

/-- Run `act` on `x` and then, one after the other, on the subtrees of
the children of `x`. -/
def visit {σ : Type} (children : ι → Exec (List ι)) (act : ι → σ → Exec σ) :
    Nat → ι → σ → Exec σ
  | 0, _, _ => .error .endless
  | n + 1, x, s => do
    let s ← act x s
    let cs ← children x
    cs.foldlM (fun s c => visit children act n c s) s

/-- `P S s`: in the state `s` the action has been run exactly on the
objects `S`. If the action can be run on every object it has not been
run on yet, `visit` runs it exactly once on each object of the subtree. -/
theorem visit_spec {σ : Type} {children : ι → Exec (List ι)} {act : ι → σ → Exec σ}
    {P : Set ι → σ → Prop} (hf : {y | f y ≠ none}.Finite) {n : Nat} (hx : ¬ OnCycle f x)
    (hch : ∀ y ∈ below f x, ∃ cs, children y = .ok cs ∧ cs.Nodup ∧ ∀ c, c ∈ cs ↔ f c = some y)
    (hact : ∀ y ∈ below f x, ∀ S s, P S s → y ∉ S → ∃ s', act y s = .ok s' ∧ P (insert y S) s')
    (hn : (strictBelow f x).ncard < n) {S : Set ι} {s : σ} (hP : P S s)
    (hS : ∀ y ∈ below f x, y ∉ S) :
    ∃ s', visit children act n x s = .ok s' ∧ P (S ∪ below f x) s' := by
  induction n generalizing x S s with
  | zero => omega
  | succ n ih =>
    obtain ⟨s₁, hs₁, hP₁⟩ := hact x self_mem_below S s hP (hS x self_mem_below)
    obtain ⟨cs, hcs, hnd, hmem⟩ := hch x self_mem_below
    -- the children are visited in turn; `rest` are those still to come
    have hloop : ∀ (rest : List ι) (T : Set ι) (t : σ), rest.Nodup → (∀ c ∈ rest, f c = some x) →
        P T t → (∀ c ∈ rest, ∀ y ∈ below f c, y ∉ T) →
        ∃ t', rest.foldlM (fun s c => visit children act n c s) t = .ok t' ∧
          P (T ∪ ⋃ c ∈ rest, below f c) t' := by
      intro rest
      induction rest with
      | nil => intro T t _ _ hT _; exact ⟨t, rfl, by simpa using hT⟩
      | cons c rest ihr =>
        intro T t hrd hup hT hdis
        have hcx : f c = some x := hup c (by simp)
        have hsub : ∀ y ∈ below f c, y ∈ below f x := fun y hy =>
          mem_below_iff.mpr (.inr ⟨c, hcx, hy⟩)
        have hlt := ncard_strictBelow_lt hf hx hcx
        obtain ⟨t₁, ht₁, hT₁⟩ := ih (not_onCycle_of_mem_below hx (hsub c self_mem_below))
          (fun y hy => hch y (hsub y hy)) (fun y hy => hact y (hsub y hy)) (by omega) hT
          (hdis c (by simp))
        obtain ⟨t', ht', hT'⟩ := ihr (T ∪ below f c) t₁ hrd.of_cons
          (fun d hd => hup d (by simp [hd])) hT₁ (by
            intro d hd y hy hyT
            rcases hyT with hyT | hyc
            · exact hdis d (by simp [hd]) y hy hyT
            · have hcd : c ≠ d := fun he => (List.nodup_cons.mp hrd).1 (he ▸ hd)
              exact below_disjoint hx hcx (hup d (by simp [hd])) hcd hyc hy)
        refine ⟨t', by simpa [ht₁] using ht', ?_⟩
        simpa [Set.union_assoc] using hT'
    obtain ⟨s', hs', hP'⟩ := hloop cs (insert x S) s₁ hnd (fun c hc => (hmem c).mp hc) hP₁ (by
      intro c hc y hy hyS
      have hcx := (hmem c).mp hc
      rcases Set.mem_insert_iff.mp hyS with rfl | hyS
      · exact not_mem_below_child hx hcx hy
      · exact hS y (mem_below_iff.mpr (.inr ⟨c, hcx, hy⟩)) hyS)
    have hset : insert x S ∪ ⋃ c ∈ cs, below f c = S ∪ below f x := by
      ext y
      simp only [Set.mem_union, Set.mem_insert_iff, Set.mem_iUnion, exists_prop, hmem,
        mem_below_iff (y := y) (x := x)]
      tauto
    exact ⟨s', by simp [visit, hs₁, hcs, hs'], hset ▸ hP'⟩

end Genode.Lib
