import Genode.Lib.Chain
import Genode.Lib.Exec

/-!
# List — the intrusive singly linked list

`util/list.h`. A list is a pointer to its first element, and each
element has the link to the next one. As with `Fifos`, all lists over
one kind of element are kept together: `κ` are the owners of the lists,
`ι` the listed objects. `Repr D L` says that the pointers represent the
lists `L`.
-/

namespace Genode.Util

open Lib

/-- All lists over one kind of element. -/
structure Lists (κ ι : Type) where
  first : κ → Option ι
  next : ι → Option ι

namespace Lists

variable {κ ι : Type} [DecidableEq κ] [DecidableEq ι]

def init : Lists κ ι := ⟨fun _ => none, fun _ => none⟩

/-- `List::insert` of `le` behind `at`, or in front of all. -/
def insert (D : Lists κ ι) (k : κ) (le : ι) : Option ι → Lists κ ι
  | none =>
    { first := Function.update D.first k (some le)
      next := Function.update D.next le (D.first k) }
  | some a =>
    { D with next := Function.update (Function.update D.next le (D.next a)) a (some le) }

/-- `List::remove`; the search for the predecessor may visit `n` elements. -/
def remove (D : Lists κ ι) (n : Nat) (k : κ) (le : ι) : Exec (Lists κ ι) :=
  match D.first k with
  | none => .ok D
  | some first =>
    if le = first then
      .ok { first := Function.update D.first k (D.next le)
            next := Function.update D.next le none }
    else do
      let e ← Exec.ended (seek D.next le n first)
      match D.next e with
      -- the element is not a member of the list
      | none => .ok D
      | some x =>
        .ok { D with next := Function.update (Function.update D.next e (D.next x)) le none }

/-- The element of a newly constructed object. -/
def constructElement (D : Lists κ ι) (x : ι) : Lists κ ι :=
  { D with next := Function.update D.next x none }

/-! ## What the pointers represent -/

structure Repr (D : Lists κ ι) (L : κ → List ι) : Prop where
  chain : ∀ k, Chain D.next (D.first k) (L k)
  nodup : ∀ k, (L k).Nodup
  disj : ∀ {k k' x}, x ∈ L k → x ∈ L k' → k = k'

variable {D D' : Lists κ ι} {L : κ → List ι} {k : κ} {x : ι}

omit [DecidableEq κ] [DecidableEq ι] in
theorem repr_init : Repr (init : Lists κ ι) fun _ => [] :=
  ⟨fun _ => rfl, fun _ => .nil, by simp⟩

namespace Repr

omit [DecidableEq κ] [DecidableEq ι] in
theorem first_eq (h : Repr D L) (k : κ) : D.first k = (L k).head? := (h.chain k).head_eq

omit [DecidableEq κ] [DecidableEq ι] in
/-- The pointers determine the lists. -/
theorem unique {L' : κ → List ι} (h : Repr D L) (h' : Repr D L') : L = L' :=
  funext fun k => (h.chain k).unique (h'.chain k)

omit [DecidableEq ι] in
/-- An operation on the list of `k` that touches no element of another
list only has to be checked at `k`. -/
theorem of_local (h : Repr D L) {xs : List ι} (hc : Chain D'.next (D'.first k) xs)
    (hn : xs.Nodup) (hsub : ∀ x ∈ xs, x ∈ L k ∨ ∀ k', x ∉ L k')
    (hfirst : ∀ k', k' ≠ k → D'.first k' = D.first k')
    (hnext : ∀ k' x, k' ≠ k → x ∈ L k' → D'.next x = D.next x) :
    Repr D' (Function.update L k xs) := by
  refine ⟨fun k' => ?_, fun k' => ?_, disjoint_update h.disj hsub⟩
  · by_cases hk : k' = k
    · subst hk; simpa using hc
    · rw [Function.update_of_ne hk, hfirst k' hk]
      exact (h.chain k').congr fun x hx => hnext k' x hk hx
  · by_cases hk : k' = k
    · subst hk; simpa using hn
    · rw [Function.update_of_ne hk]; exact h.nodup k'

/-- `insert` puts the element behind the given one, the last of `xs`. -/
theorem insert (h : Repr D L) (hx : ∀ k', x ∉ L k') {xs ys : List ι} (hk : L k = xs ++ ys) :
    Repr (D.insert k x xs.getLast?) (Function.update L k (xs ++ x :: ys)) := by
  have hnodup : (xs ++ x :: ys).Nodup :=
    List.nodup_middle.mpr (List.nodup_cons.mpr ⟨hk ▸ hx k, hk ▸ h.nodup k⟩)
  have hsub : ∀ y ∈ xs ++ x :: ys, y ∈ L k ∨ ∀ k', y ∉ L k' := by
    intro y hy
    by_cases hyx : y = x
    · subst hyx; exact .inr hx
    · exact .inl (by rw [hk]; simpa [hyx] using hy)
  have hne : ∀ {k' y}, y ∈ L k' → y ≠ x := fun hy he => hx _ (he ▸ hy)
  have hc := h.chain k
  rw [hk] at hc
  rcases List.eq_nil_or_concat xs with rfl | ⟨zs, a, rfl⟩
  · refine h.of_local ?_ hnodup hsub ?_ ?_
    · simpa [Lists.insert] using Chain.cons_update hc (by simpa [hk] using hx k)
    · intro k' hk'; simp [Lists.insert, hk']
    · intro k' y _ hy; simp [Lists.insert, hne hy]
  · rw [List.concat_eq_append] at hk hc hnodup hsub ⊢
    have ha : a ∈ L k := by simp [hk]
    rw [show (zs ++ [a]).getLast? = some a by simp]
    refine h.of_local ?_ hnodup hsub (fun _ _ => rfl) ?_
    · -- the path up to `a` is kept, `a` leads to `x` and `x` to the rest
      obtain ⟨r, h1, h2⟩ := path_append.mp hc
      obtain ⟨h1, hr⟩ := path_concat.mp h1
      have hnd := h.nodup k
      rw [hk, List.append_assoc, List.singleton_append] at hnd
      have haz : a ∉ zs := fun hm => (List.nodup_append.mp hnd).2.2 a hm a (by simp) rfl
      have hay : a ∉ ys := (List.nodup_cons.mp (List.nodup_append.mp hnd).2.1).1
      have hxz : x ∉ zs := fun hm => hx k (by simp [hk, hm])
      have hxy : x ∉ ys := fun hm => hx k (by simp [hk, hm])
      have hax : a ≠ x := hne ha
      show Path (Function.update (Function.update D.next x (D.next a)) a (some x)) (D.first k) _ _
      refine path_append.mpr ⟨some x, path_concat.mpr ⟨(h1.update hxz _).update haz _, by simp⟩,
        rfl, ?_⟩
      rw [Function.update_of_ne (Ne.symm hax), Function.update_self, hr]
      exact (Path.update h2 hxy _).update hay _
    · intro k' y hk' hy
      have hya : y ≠ a := fun he => hk' (h.disj hy (he ▸ ha))
      simp [Lists.insert, hya, hne hy]

/-- `remove` ends and takes exactly the given element out. -/
theorem remove (h : Repr D L) {n : Nat} (hn : (L k).length ≤ n) (hx : x ∈ L k) :
    ∃ D', D.remove n k x = .ok D' ∧ Repr D' (Function.update L k ((L k).erase x)) := by
  obtain ⟨s, t, hst⟩ := List.append_of_mem hx
  have hc := h.chain k
  have hnd := h.nodup k
  rw [hst] at hc hnd hn
  have hsub : ∀ y ∈ (L k).erase x, y ∈ L k ∨ ∀ k', y ∉ L k' := fun y hy =>
    .inl (List.mem_of_mem_erase hy)
  rcases List.eq_nil_or_concat s with rfl | ⟨xs, a, rfl⟩
  · rw [List.nil_append] at hst hc hnd
    have hfirst : D.first k = some x := hc.1
    have herase : (L k).erase x = t := by simp [hst]
    refine ⟨_, by simp [Lists.remove, hfirst]; rfl, ?_⟩
    rw [herase] at hsub ⊢
    refine h.of_local ?_ (List.nodup_cons.mp hnd).2 hsub ?_ ?_
    · simpa using hc.2.update (List.nodup_cons.mp hnd).1 none
    · intro k' hk'; simp [hk']
    · intro k' y hk' hy
      have hyx : y ≠ x := fun he => hk' (h.disj (he ▸ hy) hx)
      simp [hyx]
  · rw [List.concat_eq_append, List.append_assoc, List.singleton_append] at hst hc hnd hn
    have hshape : (xs ++ [a]) ++ x :: t = xs ++ a :: x :: t := by simp
    have hxs : x ∉ xs ++ [a] := fun hm =>
      (List.nodup_append.mp (hshape ▸ hnd)).2.2 x hm x (by simp) rfl
    have ha : a ∈ L k := by simp [hst]
    have hsplit := hnd
    simp only [List.nodup_append, List.nodup_cons, List.mem_cons, not_or] at hsplit
    obtain ⟨-, ⟨⟨hax, hat⟩, hxt, -⟩, hdisj⟩ := hsplit
    have haxs : a ∉ xs := fun hm => hdisj a hm a (.inl rfl) rfl
    obtain ⟨b, hb⟩ : ∃ b, D.first k = some b := by
      rw [hc.head (by simp)]
      cases xs <;> simp
    have hbx : x ≠ b := by
      rintro rfl
      have hhd := hc.head (by simp)
      rw [hb] at hhd
      cases xs with
      | nil => exact hax (by simpa using hhd.symm)
      | cons c cs => exact hxs (by simp at hhd; simp [hhd])
    have hseek : seek D.next x n b = some a := by
      rw [hb] at hc
      refine hc.seek_mem hxs ?_
      simp at hn
      omega
    have hnext : D.next a = some x := by
      have := hc.next_eq
      simpa using this
    have herase : (L k).erase x = xs ++ a :: t := by
      rw [hst, ← hshape, List.erase_append_right _ hxs, List.erase_cons_head]
      simp
    refine ⟨_, by simp [Lists.remove, hb, hbx, hseek, hnext]; rfl, ?_⟩
    rw [herase] at hsub ⊢
    refine h.of_local ?_ (herase ▸ (h.nodup k).erase x) hsub (fun _ _ => rfl) ?_
    · refine Path.update (Chain.unlink hc haxs hat) ?_ none
      intro hm
      rcases List.mem_append.mp hm with hm | hm
      · exact hxs (by simp [hm])
      · exact (List.mem_cons.mp hm).elim (fun he => hax he.symm) hxt
    · intro k' y hk' hy
      have hyx : y ≠ x := fun he => hk' (h.disj (he ▸ hy) hx)
      have hya : y ≠ a := fun he => hk' (h.disj (he ▸ hy) ha)
      simp [hyx, hya]

omit [DecidableEq κ] in
theorem constructElement (h : Repr D L) (hx : ∀ k, x ∉ L k) : Repr (D.constructElement x) L :=
  ⟨fun k => (h.chain k).update (hx k) none, h.nodup, h.disj⟩

end Repr

end Lists

/-! ## A list and a local one

A function that works on the list of an object moves the elements to a
local list, and takes over that list at its end. -/

inductive ListRole where
  | own
  | temp
  deriving DecidableEq, Repr

namespace Lists

variable {ι : Type} {D : Lists ListRole ι} {es ks : List ι} {e : ι}

/-- The two lists. -/
def both (es ks : List ι) : ListRole → List ι
  | .own => es
  | .temp => ks

/-- The local list becomes the one of the object. -/
def adopt (D : Lists ListRole ι) : Lists ListRole ι :=
  { D with first := fun
    | .own => D.first .temp
    | .temp => none }

/-- The local list is given up. -/
def dropTemp (D : Lists ListRole ι) : Lists ListRole ι :=
  { D with first := fun
    | .own => D.first .own
    | .temp => none }

theorem update_both_own (es ks xs : List ι) :
    Function.update (both es ks) .own xs = both xs ks := by
  ext k : 1
  cases k <;> rfl

theorem update_both_temp (es ks xs : List ι) :
    Function.update (both es ks) .temp xs = both es xs := by
  ext k : 1
  cases k <;> rfl

theorem both_nil : both ([] : List ι) [] = fun _ => [] := by
  ext k : 1
  cases k <;> rfl

namespace Repr

theorem not_mem_temp (h : Repr D (both es ks)) (he : e ∈ es) : e ∉ ks := by
  intro hk
  have hdisj : ListRole.own = .temp := h.disj (x := e) he hk
  cases hdisj

theorem fresh_both (hes : e ∉ es) (hks : e ∉ ks) (k : ListRole) : e ∉ both es ks k := by
  cases k with
  | own => exact hes
  | temp => exact hks

theorem adopt (h : Repr D (both es ks)) : Repr D.adopt (both ks []) := by
  constructor
  · intro k
    cases k with
    | own => exact h.chain .temp
    | temp => exact rfl
  · intro k
    cases k with
    | own => exact h.nodup .temp
    | temp => exact .nil
  · intro k k' x hx hx'
    cases k <;> cases k' <;> simp_all [both]

theorem dropTemp (h : Repr D (both es ks)) : Repr D.dropTemp (both es []) := by
  constructor
  · intro k
    cases k with
    | own => exact h.chain .own
    | temp => exact rfl
  · intro k
    cases k with
    | own => exact h.nodup .own
    | temp => exact .nil
  · intro k k' x hx hx'
    cases k <;> cases k' <;> simp_all [both]

variable [DecidableEq ι]

theorem remove_own (h : Repr D (both es ks)) {n : Nat} (hn : es.length ≤ n) (he : e ∈ es) :
    ∃ D', D.remove n .own e = .ok D' ∧ Repr D' (both (es.erase e) ks) := by
  obtain ⟨D', hr, hrepr⟩ := h.remove (k := .own) hn he
  rw [update_both_own] at hrepr
  exact ⟨D', hr, hrepr⟩

/-- The insertion at the end of the local list. -/
theorem insert_temp (h : Repr D (both es ks)) (hes : e ∉ es) (hks : e ∉ ks) :
    Repr (D.insert .temp e ks.getLast?) (both es (ks ++ [e])) := by
  have hins := h.insert (fresh_both hes hks) (k := .temp)
    (show both es ks .temp = ks ++ [] by simp [both])
  rwa [update_both_temp] at hins

end Repr

end Lists

end Genode.Util
