import Mathlib.Data.Finset.Lattice.Fold
import Mathlib.Data.List.Find
import Mathlib.Data.List.Induction
import Mathlib.Order.Lattice.Nat
import Genode.Util.ListModel

/-!
# ListModelEffect — the update of a list model without exceptions

The matching of elements and nodes is a relation that stays the same
during the update, and no operation of the policy throws. `Imported`
says how the new list came from the old one and the nodes; `Classified`
adds that the relation is the equality of classes.
-/

namespace Genode.Util

open Lib

variable {ι ν σ : Type} [DecidableEq ι]

/-- In the states `I` of the policy and the existing elements, the matching
is the relation `M`, and no operation for an imported node throws. -/
structure UpdatePolicy.Steady (P : UpdatePolicy ι ν σ) (M : ι → ν → Bool)
    (I : σ → Finset ι → Prop) : Prop where
  elementMatches : ∀ {c live e}, I c live → e ∈ live → ∀ n, P.elementMatches c e n = M e n
  createElement : ∀ {c live n}, I c live → P.nodeIsElement n →
    ∃ e, (P.createElement c live n).1 = some e ∧ I (P.createElement c live n).2 (insert e live)
  updateElement : ∀ {c live e n}, I c live → e ∈ live → P.nodeIsElement n →
    (P.updateElement c e n).1 = false ∧ I (P.updateElement c e n).2 live

namespace PolicyCall

def updated? : PolicyCall ι ν → Option (ι × ν)
  | .update e n => some (e, n)
  | _ => none

def destroyed? : PolicyCall ι ν → Option ι
  | .destroy e => some e
  | _ => none

end PolicyCall

/-- The calls of `update_element`. -/
def updates (calls : List (PolicyCall ι ν)) : List (ι × ν) := calls.filterMap PolicyCall.updated?

/-- The elements that were destroyed. -/
def destroyed (calls : List (PolicyCall ι ν)) : List ι := calls.filterMap PolicyCall.destroyed?

/-- The element matches the node or was created for it. -/
def Fits (M : ι → ν → Bool) (calls : List (PolicyCall ι ν)) (e : ι) (n : ν) : Prop :=
  M e n ∨ .create (some e) n ∈ calls

/-- The reason for which an element is in the model: it was the first one
that matches some node, or it is new. -/
def Origin (P : UpdatePolicy ι ν σ) (M : ι → ν → Bool) (L : List ι) (ns : List ν)
    (calls : List (PolicyCall ι ν)) (e : ι) : Prop :=
  (∃ n ∈ ns, P.nodeIsElement n ∧ L.find? (M · n) = some e) ∨ ∃ n, .create (some e) n ∈ calls

/-- An element is there for a node that another one does not match. -/
def Apart (P : UpdatePolicy ι ν σ) (M : ι → ν → Bool) (ns : List ν)
    (calls : List (PolicyCall ι ν)) (x y : ι) : Prop :=
  ∃ n ∈ ns, P.nodeIsElement n ∧ M x n = false ∧ Fits M calls y n

/-- How the elements `L'` came from those of `L` and the nodes. -/
structure Imported (P : UpdatePolicy ι ν σ) (M : ι → ν → Bool) (L L' : List ι) (ns : List ν)
    (calls : List (PolicyCall ι ν)) : Prop where
  /-- One update for each imported node, in their order. -/
  nodes : (updates calls).map Prod.snd = ns.filter P.nodeIsElement
  /-- The elements are in the order of their first update. -/
  order : L' = ((updates calls).map Prod.fst).eraseDups
  fits : ∀ u ∈ updates calls, Fits M calls u.1 u.2
  origin : ∀ e ∈ L', Origin P M L ns calls e
  /-- A new element is for a node that no element of `L` matches. -/
  created : ∀ {e n}, .create e n ∈ calls → ∃ x, e = some x ∧ x ∉ L ∧ x ∈ L' ∧
    P.nodeIsElement n ∧ ∀ y ∈ L, M y n = false
  apart : L'.Pairwise (Apart P M ns calls)

section FirstOccurrence

variable {α β : Type} [DecidableEq α] [DecidableEq β]

theorem eraseDups_concat (xs : List α) (x : α) :
    (xs ++ [x]).eraseDups = if x ∈ xs then xs.eraseDups else xs.eraseDups ++ [x] := by
  rw [List.eraseDups_append]
  by_cases h : x ∈ xs <;> simp [List.removeAll, h, List.eraseDups_cons]

theorem eraseDups_map {f : α → β} {xs : List α}
    (hinj : ∀ x ∈ xs, ∀ y ∈ xs, f x = f y → x = y) :
    (xs.map f).eraseDups = xs.eraseDups.map f := by
  induction xs using List.reverseRecOn with
  | nil => rfl
  | append_singleton xs x ih =>
    have hxs : ∀ y ∈ xs, y ∈ xs ++ [x] := fun y hy => List.mem_append_left _ hy
    have hmem : f x ∈ xs.map f ↔ x ∈ xs := by
      constructor
      · intro h
        obtain ⟨y, hy, hf⟩ := List.mem_map.mp h
        exact hinj y (hxs y hy) x (by simp) hf ▸ hy
      · exact List.mem_map_of_mem
    rw [List.map_append, List.map_singleton, eraseDups_concat, eraseDups_concat,
      ih fun y hy z hz => hinj y (hxs y hy) z (hxs z hz)]
    by_cases h : x ∈ xs
    · rw [if_pos h, if_pos (hmem.mpr h)]
    · rw [if_neg h, if_neg (h ∘ hmem.mp), List.map_append, List.map_singleton]

end FirstOccurrence

section Import

variable {P : UpdatePolicy ι ν σ} {M : ι → ν → Bool} {I : σ → Finset ι → Prop}
  {L L' xs : List ι} {ns ms : List ν} {n : ν} {e x : ι} {calls cs : List (PolicyCall ι ν)}

omit [DecidableEq ι] in
theorem Fits.mono (h : Fits M calls e n) : Fits M (calls ++ cs) e n :=
  h.imp_right fun hc => List.mem_append_left cs hc

theorem Origin.mono (h : Origin P M L ns calls e) : Origin P M L (ns ++ ms) (calls ++ cs) e := by
  apply Or.imp ?_ ?_ h
  · intro hfirst
    obtain ⟨n, hn, hfirst⟩ := hfirst
    exact ⟨n, List.mem_append_left ms hn, hfirst⟩
  · intro hnew
    obtain ⟨n, hnew⟩ := hnew
    exact ⟨n, List.mem_append_left cs hnew⟩

theorem Apart.mono (h : Apart P M ns calls e x) : Apart P M (ns ++ ms) (calls ++ cs) e x := by
  obtain ⟨n, hn, hacc, hne, hfits⟩ := h
  exact ⟨n, List.mem_append_left ms hn, hacc, hne, hfits.mono⟩

namespace Imported

theorem init : Imported P M L [] [] [] := by
  constructor <;> simp [updates]

/-- What is left to show when a node and some calls are added. -/
theorem extend (h : Imported P M L L' ns calls) (ms : List ν) (cs : List (PolicyCall ι ν))
    (xs : List ι)
    (hnodes : (updates cs).map Prod.snd = ms.filter P.nodeIsElement)
    (horder : L' ++ xs = ((updates (calls ++ cs)).map Prod.fst).eraseDups)
    (hfits : ∀ u ∈ updates cs, Fits M (calls ++ cs) u.1 u.2)
    (horigin : ∀ e ∈ xs, Origin P M L (ns ++ ms) (calls ++ cs) e)
    (hcreated : ∀ {e n}, .create e n ∈ cs → ∃ x, e = some x ∧ x ∉ L ∧ x ∈ L' ++ xs ∧
      P.nodeIsElement n ∧ ∀ y ∈ L, M y n = false)
    (hapart : (L' ++ xs).Pairwise (Apart P M (ns ++ ms) (calls ++ cs))) :
    Imported P M L (L' ++ xs) (ns ++ ms) (calls ++ cs) := by
  refine ⟨?_, horder, fun u hu => ?_, fun e he => ?_, fun {e n} hc => ?_, hapart⟩
  · rw [updates, List.filterMap_append, List.map_append, List.filter_append, ← h.nodes, ← hnodes]
    rfl
  · rw [updates, List.filterMap_append, List.mem_append] at hu
    rcases hu with hu | hu
    · exact (h.fits u hu).mono
    · exact hfits u hu
  · rcases List.mem_append.mp he with he | he
    · exact (h.origin e he).mono
    · exact horigin e he
  · rcases List.mem_append.mp hc with hc | hc
    · obtain ⟨x, rfl, hx, hmem, hrest⟩ := h.created hc
      exact ⟨x, rfl, hx, List.mem_append_left xs hmem, hrest⟩
    · exact hcreated hc

theorem skip (h : Imported P M L L' ns calls) (hn : P.nodeIsElement n = false) :
    Imported P M L L' (ns ++ [n]) calls := by
  have hext := h.extend [n] [] [] (by simp [updates, hn])
    (by simpa using h.order) (by simp [updates]) (by simp) (by simp)
    (by simpa using h.apart.imp fun hxy => (List.append_nil calls) ▸ hxy.mono)
  simpa using hext

theorem firsts_eq (h : Imported P M L L' ns calls) (hcs : updates cs = [(e, n)]) :
    ((updates (calls ++ cs)).map Prod.fst).eraseDups = if e ∈ L' then L' else L' ++ [e] := by
  have hupd : updates (calls ++ cs) = updates calls ++ [(e, n)] := by
    rw [← hcs]
    exact List.filterMap_append
  rw [hupd, List.map_append, List.map_singleton, eraseDups_concat, ← h.order]
  simp only [h.order, List.mem_eraseDups]

/-- A further update of an element that is in the model already. -/
theorem again (h : Imported P M L L' ns calls) (hn : P.nodeIsElement n) (he : e ∈ L')
    (hmatch : M e n) : Imported P M L L' (ns ++ [n]) (calls ++ [.update e n]) := by
  have hcs : updates [.update e n] = [(e, n)] := rfl
  have hext := h.extend [n] [.update e n] [] (by simp [hcs, hn])
    (by rw [h.firsts_eq hcs, if_pos he, List.append_nil])
    (by simpa [hcs] using .inl hmatch) (by simp) (by simp)
    (by simpa using h.apart.imp fun hxy => hxy.mono)
  simpa using hext

/-- The first update of an element. -/
theorem append (h : Imported P M L L' ns calls) (cs : List (PolicyCall ι ν)) (hn : P.nodeIsElement n) (he : e ∉ L')
    (hne : ∀ x ∈ L', M x n = false) (hcs : updates cs = [(e, n)])
    (horigin : L.find? (M · n) = some e ∨ .create (some e) n ∈ cs)
    (hcreated : ∀ {e' n'}, .create e' n' ∈ cs → e' = some e ∧ n' = n ∧ e ∉ L ∧
      ∀ y ∈ L, M y n = false) :
    Imported P M L (L' ++ [e]) (ns ++ [n]) (calls ++ cs) := by
  have hfits : Fits M (calls ++ cs) e n := by
    rcases horigin with hfirst | hnew
    · exact .inl (by simpa using List.find?_some hfirst)
    · exact .inr (List.mem_append_right calls hnew)
  apply h.extend [n] cs [e]
  · simp [hcs, hn]
  · rw [h.firsts_eq hcs, if_neg he]
  · simpa [hcs] using hfits
  · intro x hx
    obtain rfl := List.mem_singleton.mp hx
    apply Or.imp ?_ ?_ horigin
    · exact fun hfirst => ⟨n, by simp, hn, hfirst⟩
    · exact fun hnew => ⟨n, List.mem_append_right calls hnew⟩
  · intro e' n' hc
    obtain ⟨rfl, rfl, hL, hall⟩ := hcreated hc
    exact ⟨e, rfl, hL, by simp, hn, hall⟩
  · rw [List.pairwise_append]
    refine ⟨h.apart.imp fun hxy => hxy.mono, by simp, fun x hx y hy => ?_⟩
    obtain rfl := List.mem_singleton.mp hy
    exact ⟨n, by simp, hn, hne x hx, hfits⟩

end Imported

/-- The state in the midst of an update. -/
structure Importing (P : UpdatePolicy ι ν σ) (M : ι → ν → Bool) (I : σ → Finset ι → Prop)
    (L : List ι) (a : Progress ι ν σ) (ns : List ν) : Prop where
  imported : Imported P M L a.updated ns a.calls
  state : I a.policy a.live
  members : ∀ e ∈ L, e ∈ a.live
  updated : ∀ e ∈ a.updated, e ∈ a.live
  old : a.old = L.filter (· ∉ a.updated)
  destroyed : destroyed a.calls = []

namespace Importing

variable {a : Progress ι ν σ} {r : Bool × Progress ι ν σ}

theorem init {live : Finset ι} {c : σ} (hI : I c live) (hL : ∀ e ∈ L, e ∈ live) :
    Importing P M I L (.init L live c) [] := by
  refine ⟨.init, hI, hL, by simp [Progress.init], by simp [Progress.init], rfl⟩

/-- The search for a duplicate. -/
theorem find?_updated (h : Importing P M I L a ns) (hP : P.Steady M I) (n : ν) :
    a.updated.find? (fun e => P.elementMatches a.policy e n) = a.updated.find? (M · n) :=
  List.find?_congr fun e he => hP.elementMatches h.state (h.updated e he) n

theorem old_live (h : Importing P M I L a ns) (he : e ∈ a.old) : e ∈ a.live := by
  rw [h.old] at he
  exact h.members e (List.mem_filter.mp he).1

/-- The search in the original list. If there is no duplicate, then it is a
search in the whole original list. -/
theorem find?_old (h : Importing P M I L a ns) (hP : P.Steady M I)
    (hdup : a.updated.find? (M · n) = none) :
    a.old.find? (fun e => P.elementMatches a.policy e n) = L.find? (M · n) := by
  have hcongr : a.old.find? (fun e => P.elementMatches a.policy e n) = a.old.find? (M · n) :=
    List.find?_congr fun e he => hP.elementMatches h.state (h.old_live he) n
  rw [hcongr, h.old, List.find?_filter]
  apply List.find?_congr
  intro e _
  have hnone := List.find?_eq_none.mp hdup e
  by_cases he : e ∈ a.updated
  · simp [he, hnone he]
  · simp [he]

/-- Elements that are not in the local list do not match. -/
theorem not_matches (h : Importing P M I L a ns) (hP : P.Steady M I)
    (hdup : a.updated.find? (fun e => P.elementMatches a.policy e n) = none) :
    ∀ x ∈ a.updated, M x n = false := by
  rw [h.find?_updated hP, List.find?_eq_none] at hdup
  exact fun x hx => Bool.eq_false_iff.mpr (hdup x hx)

theorem step (h : Importing P M I L a ns) (hP : P.Steady M I) (hnd : L.Nodup)
    (hr : Added P a n r) : r.1 = false ∧ Importing P M I L r.2 (ns ++ [n]) := by
  cases hr with
  | skipped hn => exact ⟨rfl, h.imported.skip hn, h.state, h.members, h.updated, h.old, h.destroyed⟩
  | @repeated e hn hdup =>
    have he := List.mem_of_find?_eq_some hdup
    rw [h.find?_updated hP] at hdup
    have hmatch : M e n := by simpa using List.find?_some hdup
    obtain ⟨hok, hstate⟩ := hP.updateElement h.state (h.updated e he) hn
    refine ⟨hok, h.imported.again hn he hmatch, hstate, h.members, h.updated, h.old, ?_⟩
    simpa [Util.destroyed, PolicyCall.destroyed?, Progress.update] using h.destroyed
  | @reused e hn hdup hcurr =>
    have hne := h.not_matches hP hdup
    have he := List.mem_of_find?_eq_some hcurr
    obtain ⟨hL, hout⟩ : e ∈ L ∧ e ∉ a.updated := by simpa [h.old] using he
    rw [h.find?_old hP (h.find?_updated hP n ▸ hdup)] at hcurr
    obtain ⟨hok, hstate⟩ := hP.updateElement h.state (h.members e hL) hn
    have himp := h.imported.append [.update e n] hn hout hne rfl (.inl hcurr) (by simp)
    refine ⟨hok, himp, hstate, h.members, fun x hx => ?_, ?_, ?_⟩
    · rcases List.mem_append.mp hx with hx | hx
      · exact h.updated x hx
      · exact List.mem_singleton.mp hx ▸ h.members e hL
    · show a.old.erase e = _
      rw [h.old, (hnd.filter _).erase_eq_filter, List.filter_filter]
      apply List.filter_congr
      intro x _
      by_cases hx : x = e <;> simp [hx, Progress.append, Progress.update]
    · simpa [Util.destroyed, PolicyCall.destroyed?, Progress.append, Progress.update] using
        h.destroyed
  | @created e hn hdup hcurr hnew =>
    have hne := h.not_matches hP hdup
    rw [h.find?_old hP (h.find?_updated hP n ▸ hdup)] at hcurr
    have hfresh := P.create_fresh _ _ _ _ hnew
    have hL : e ∉ L := fun hL => hfresh (h.members e hL)
    have hout : e ∉ a.updated := fun hupd => hfresh (h.updated e hupd)
    obtain ⟨e', he', hstate⟩ := hP.createElement h.state hn
    obtain rfl : e = e' := by simpa [hnew] using he'
    obtain ⟨hok, hstate⟩ := hP.updateElement hstate (Finset.mem_insert_self e a.live) hn
    have hall : ∀ y ∈ L, M y n = false := by simpa using hcurr
    have himp := h.imported.append [.create (some e) n, .update e n] hn hout hne rfl
      (.inr (by simp)) fun {e' n'} hc => by
        obtain ⟨rfl, rfl⟩ : e' = some e ∧ n' = n := by simpa using hc
        exact ⟨rfl, rfl, hL, hall⟩
    refine ⟨hok, by simpa [Progress.append, Progress.update] using himp, hstate, ?_, ?_, ?_, ?_⟩
    · exact fun x hx => Finset.mem_insert_of_mem (h.members x hx)
    · intro x hx
      rcases List.mem_append.mp hx with hx | hx
      · exact Finset.mem_insert_of_mem (h.updated x hx)
      · exact List.mem_singleton.mp hx ▸ Finset.mem_insert_self e a.live
    · show a.old = _
      rw [h.old]
      apply List.filter_congr
      intro x hx
      have hxe : x ≠ e := fun hxe => hL (hxe ▸ hx)
      simp [hxe, Progress.append, Progress.update]
    · simpa [Util.destroyed, PolicyCall.destroyed?, Progress.append, Progress.update] using
        h.destroyed
  | refused hn _ _ hnew =>
    obtain ⟨e, he, -⟩ := hP.createElement h.state hn
    rw [hnew] at he
    cases he

theorem addAll (h : Importing P M I L a ns) (hP : P.Steady M I) (hnd : L.Nodup) (ms : List ν) :
    (a.addAll P ms).1 = false ∧ Importing P M I L (a.addAll P ms).2 (ns ++ ms) := by
  induction ms generalizing a ns with
  | nil => exact ⟨rfl, by simpa [Progress.addAll] using h⟩
  | cons n ms ih =>
    obtain ⟨hok, hnext⟩ := h.step hP hnd (a.added P n)
    rw [Progress.addAll, hok, if_neg Bool.false_ne_true]
    simpa using ih hnext

end Importing

/-- The elements and the imported nodes fall into classes. -/
structure Classified {κ : Type} (P : UpdatePolicy ι ν σ) (M : ι → ν → Bool)
    (calls : List (PolicyCall ι ν)) (cls : ι → κ) (ncls : ν → κ) : Prop where
  elementMatches : ∀ {e n}, P.nodeIsElement n → (M e n ↔ cls e = ncls n)
  created : ∀ {e n}, .create (some e) n ∈ calls → cls e = ncls n

namespace Imported

variable {κ : Type} [DecidableEq κ] {cls : ι → κ} {ncls : ν → κ}

theorem destroy (h : Imported P M L L' ns calls) (xs : List ι) :
    Imported P M L L' ns (calls ++ xs.map .destroy) := by
  have hcs : updates (xs.map .destroy : List (PolicyCall ι ν)) = [] := by
    simp [updates, List.filterMap_map, Function.comp_def, PolicyCall.updated?]
  have hupd : updates (calls ++ xs.map .destroy) = updates calls := by
    rw [updates, List.filterMap_append]
    exact (congrArg (updates calls ++ ·) hcs).trans (List.append_nil _)
  have hapart : ∀ {x y}, Apart P M ns calls x y →
      Apart P M (ns ++ []) (calls ++ xs.map .destroy) x y := Apart.mono
  have hext := h.extend [] (xs.map .destroy) [] (by simp [hcs])
    (by simpa [hupd] using h.order) (by simp [hcs]) (by simp) (by simp)
    (by simpa using h.apart.imp fun hxy => by simpa using hapart hxy)
  simpa using hext

omit [DecidableEq κ] in
theorem class_eq (h : Imported P M L L' ns calls) (hc : Classified P M calls cls ncls)
    {u : ι × ν} (hu : u ∈ updates calls) : cls u.1 = ncls u.2 := by
  have hacc : u.2 ∈ ns.filter P.nodeIsElement := h.nodes ▸ List.mem_map_of_mem hu
  rcases h.fits u hu with hmatch | hnew
  · exact (hc.elementMatches (List.mem_filter.mp hacc).2).mp hmatch
  · exact hc.created hnew

omit [DecidableEq κ] in
theorem nodup_classes (h : Imported P M L L' ns calls) (hc : Classified P M calls cls ncls) :
    (L'.map cls).Nodup := by
  apply List.pairwise_map.mpr
  apply h.apart.imp
  intro x y hxy heq
  obtain ⟨n, -, hacc, hne, hfits⟩ := hxy
  have hy : cls y = ncls n := hfits.elim (hc.elementMatches hacc).mp hc.created
  rw [(hc.elementMatches hacc).mpr (heq.trans hy)] at hne
  cases hne

/-- One element for each class of the imported nodes, in the order in which the
classes occur first. -/
theorem map_class (h : Imported P M L L' ns calls) (hc : Classified P M calls cls ncls) :
    L'.map cls = ((ns.filter P.nodeIsElement).map ncls).eraseDups := by
  have hclasses : ((updates calls).map Prod.fst).map cls =
      ((updates calls).map Prod.snd).map ncls := by
    rw [List.map_map, List.map_map]
    exact List.map_congr_left fun u hu => h.class_eq hc hu
  rw [← h.nodes, ← hclasses, eraseDups_map, ← h.order]
  have hmem : ∀ {x}, x ∈ (updates calls).map Prod.fst → x ∈ L' := by
    intro x hx
    rw [h.order]
    exact List.mem_eraseDups.mpr hx
  intro x hx y hy hxy
  exact List.inj_on_of_nodup_map (h.nodup_classes hc) (hmem hx) (hmem hy) hxy

/-- An element stays exactly if its class occurs, and if it is the first one of it. -/
theorem mem_iff (h : Imported P M L L' ns calls) (hc : Classified P M calls cls ncls)
    (he : e ∈ L) : e ∈ L' ↔ L.find? (fun x => cls x = cls e) = some e ∧
      cls e ∈ (ns.filter P.nodeIsElement).map ncls := by
  have hfirst : ∀ x ∈ L', x ∈ L → L.find? (fun y => cls y = cls x) = some x := by
    intro x hx hL
    rcases h.origin x hx with ⟨n, -, hacc, hfirst⟩ | ⟨n, hnew⟩
    · have hcls := (hc.elementMatches hacc).mp (by simpa using List.find?_some hfirst)
      rw [← hfirst]
      apply List.find?_congr
      intro y _
      rw [hcls, Bool.eq_iff_iff, hc.elementMatches hacc, decide_eq_true_iff]
    · obtain ⟨x', hx', hout, -⟩ := h.created hnew
      cases hx'
      exact absurd hL hout
  constructor
  · intro hmem
    refine ⟨hfirst e hmem he, ?_⟩
    rw [← List.mem_eraseDups, ← h.map_class hc]
    exact List.mem_map_of_mem hmem
  · intro hcls
    obtain ⟨hfind, hocc⟩ := hcls
    rw [← List.mem_eraseDups, ← h.map_class hc] at hocc
    obtain ⟨x, hx, hxe⟩ := List.mem_map.mp hocc
    rcases h.origin x hx with ⟨n, -, -, hxfirst⟩ | ⟨n, hnew⟩
    · have hxL := hfirst x hx (List.mem_of_find?_eq_some hxfirst)
      rw [hxe, hfind] at hxL
      cases hxL
      exact hx
    · obtain ⟨x', hx', -, -, hacc, hall⟩ := h.created hnew
      cases hx'
      have hmatch := (hc.elementMatches hacc).mpr (hxe.symm.trans (hc.created hnew))
      rw [hall e he] at hmatch
      cases hmatch

end Imported

/-- The effect of an update without exceptions. -/
structure UpdateEffect (P : UpdatePolicy ι ν σ) (M : ι → ν → Bool) (L L' : List ι) (ns : List ν)
    (calls : List (PolicyCall ι ν)) : Prop extends Imported P M L L' ns calls where
  /-- Each element that is not in the model any more is destroyed once. -/
  destroys : destroyed calls = L.filter (· ∉ L')
  classes : ∀ {κ : Type} [DecidableEq κ] {cls : ι → κ} {ncls : ν → κ},
    Classified P M calls cls ncls →
      L'.map cls = ((ns.filter P.nodeIsElement).map ncls).eraseDups ∧
      ∀ e ∈ L, e ∈ L' ↔ L.find? (fun x => cls x = cls e) = some e ∧
        cls e ∈ (ns.filter P.nodeIsElement).map ncls

theorem updateFromXml_effect {m : ListModel ι} (h : m.Holds L) (hP : P.Steady M I) {c : σ}
    (hI : I c m.live) (ns : List ν) : ∃ s L', P.updateFromXml m c ns = .ok (false, s) ∧
      s.Holds L' ∧ UpdateEffect P M L L' ns s.calls := by
  obtain ⟨hdone, himp⟩ := (Importing.init hI h.live).addAll hP (h.repr.nodup .own) ns
  obtain ⟨s, hs, hholds, hcalls⟩ := updateFromXml_done h hdone
  refine ⟨s, _, hs, hholds, ?_⟩
  rw [hcalls]
  have himported := himp.imported.destroy (Progress.addAll P (.init L m.live c) ns).2.old
  refine ⟨himported, ?_, fun hc => ⟨himported.map_class hc, fun e he => himported.mem_iff hc he⟩⟩
  have hdestroyed := himp.destroyed
  rw [destroyed] at hdestroyed ⊢
  rw [List.filterMap_append, hdestroyed, List.nil_append, ← himp.old, List.filterMap_map]
  exact List.filterMap_some

end Import

/-- Elements and nodes that all match each other. -/
def alike : UpdatePolicy Nat Nat Unit :=
  { numbered with
    elementMatches _ _ _ := true
    createElement _ live _ := (some (live.sup id + 1), ())
    create_fresh c live n e h hmem := by
      cases h
      exact absurd (Finset.le_sup (f := id) hmem) (Nat.not_succ_le_self _) }

theorem alike_steady : alike.Steady (fun _ _ => true) fun _ _ => True :=
  ⟨fun _ _ _ => rfl, fun _ _ => ⟨_, rfl, trivial⟩, fun _ _ _ => ⟨rfl, trivial⟩⟩

/-- The model with two elements. -/
def ListModel.pair (e f : ι) : ListModel ι :=
  ⟨(Lists.init.insert .own f none).insert .own e none, {e, f}⟩

theorem ListModel.pair_holds {e f : ι} (hne : e ≠ f) : (pair e f).Holds [e, f] := by
  refine ⟨?_, fun x hx => by simpa [pair] using hx⟩
  have hins := (single_holds f).repr.insert (k := .own) (x := e)
    (Lists.Repr.fresh_both (by simpa using hne) (by simp))
    (show Lists.both [f] [] .own = [] ++ [f] from rfl)
  rwa [Lists.update_both_own] at hins

theorem updateFromXml_effect_alike : ∃ s L', alike.updateFromXml (.pair 1 0) () [5, 6] =
    .ok (false, s) ∧ s.Holds L' ∧ UpdateEffect alike (fun _ _ => true) [1, 0] L' [5, 6] s.calls :=
  updateFromXml_effect (ListModel.pair_holds (by decide)) alike_steady trivial [5, 6]

/-- Of two elements that match the only node one is destroyed. -/
theorem updateFromXml_destroys_match : alike.Steady (fun _ _ => true) (fun _ _ => True) ∧
    (ListModel.pair 1 0).Holds [1, 0] ∧ ∃ s, alike.updateFromXml (.pair 1 0) () [5] =
      .ok (false, s) ∧ alike.elementMatches () 0 5 ∧ .destroy 0 ∈ s.calls := by
  refine ⟨alike_steady, ListModel.pair_holds (by decide), ?_⟩
  exact ⟨_, rfl, rfl, by decide⟩

end Genode.Util
