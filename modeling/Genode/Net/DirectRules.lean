import Genode.Net.Ipv4AddressPrefix
import Genode.Util.List
import Mathlib.Data.List.TakeWhile

/-!
# DirectRules — rules in the order of their prefixes

`nic_router/direct_rule.h`. `insert` keeps a list sorted, the longest prefixes in
front, so that the search may stop at the first match. All lists of rules of one
kind are kept together: `κ` are the lists, `ι` the rules.

A handler is a function on some state, which no search looks into.
-/

namespace Genode.Net

open Lib Util

/-- The call of one of the two handlers of a search. -/
inductive HandlerCall (ρ : Type) where
  | handleMatch (r : ρ)
  | handleNoMatch
  deriving DecidableEq, Repr

/-- Exactly one call of one handler. -/
def HandlerCall.run {ρ σ : Type} (handleMatch : ρ → σ → Exec σ) (handleNoMatch : σ → Exec σ) :
    HandlerCall ρ → σ → Exec σ
  | .handleMatch r => handleMatch r
  | .handleNoMatch => handleNoMatch

namespace DirectRuleList

variable {κ ι σ : Type} (dst : ι → Ipv4AddressPrefix)

/-- The loop of `find_longest_prefix_match` over at most `n` rules. -/
def findFrom (next : ι → Option ι) (ip : Ipv4Address) (handleMatch : ι → σ → Exec σ)
    (handleNoMatch : σ → Exec σ) : Nat → Option ι → σ → Exec σ
  | _, none => handleNoMatch
  | 0, some _ => fun _ => .error .endless
  | n + 1, some rule =>
    if (dst rule).prefixMatches ip then handleMatch rule
    else findFrom next ip handleMatch handleNoMatch n (next rule)

/-- The loop of `insert` over at most `n` rules: the rule to insert behind. -/
def behindFrom (next : ι → Option ι) (rule : ι) : Nat → Option ι → Option ι → Exec (Option ι)
  | _, behind, none => .ok behind
  | 0, _, some _ => .error .endless
  | n + 1, behind, some curr =>
    if (dst curr).prefixSize ≤ (dst rule).prefixSize then .ok behind
    else behindFrom next rule n (some curr) (next curr)

variable [Fintype ι]

/-- `find_longest_prefix_match`. -/
def findLongestPrefixMatch (D : Lists κ ι) (k : κ) (ip : Ipv4Address)
    (handleMatch : ι → σ → Exec σ) (handleNoMatch : σ → Exec σ) : σ → Exec σ :=
  findFrom dst D.next ip handleMatch handleNoMatch (Fintype.card ι) (D.first k)

variable [DecidableEq κ] [DecidableEq ι]

/-- `insert`. -/
def insert (D : Lists κ ι) (k : κ) (rule : ι) : Exec (Lists κ ι) := do
  let behind ← behindFrom dst D.next rule (Fintype.card ι) none (D.first k)
  .ok (D.insert k rule behind)

/-- A sequence of insertions into empty lists. -/
def insertAll (ops : List (κ × ι)) : Exec (Lists κ ι) :=
  ops.foldlM (fun D op => insert dst D op.1 op.2) Lists.init

/-! ## Sorted lists -/

/-- The lists are sorted. -/
structure Sorted (D : Lists κ ι) (L : κ → List ι) : Prop where
  repr : Lists.Repr D L
  sorted : ∀ k, (L k).Pairwise fun a b => (dst b).prefixSize ≤ (dst a).prefixSize

variable {dst} {D D' : Lists κ ι} {L : κ → List ι} {k : κ} {rule : ι} {ip : Ipv4Address}
  {next : ι → Option ι} {p : Option ι} {xs : List ι} {n : Nat}

omit [Fintype ι] [DecidableEq κ] [DecidableEq ι] in
/-- The search calls the handler of the first rule that matches. -/
theorem findFrom_eq (h : Chain next p xs) (hn : xs.length ≤ n) (handleMatch : ι → σ → Exec σ)
    (handleNoMatch : σ → Exec σ) : findFrom dst next ip handleMatch handleNoMatch n p =
      (xs.find? fun r => (dst r).prefixMatches ip).elim handleNoMatch handleMatch := by
  induction xs generalizing p n with
  | nil =>
    obtain rfl : p = none := h
    cases n <;> rfl
  | cons x xs ih =>
    obtain ⟨rfl, h⟩ := h
    obtain _ | n := n
    · simp at hn
    rw [findFrom, List.find?_cons]
    by_cases hmatch : (dst x).prefixMatches ip = true
    · rw [if_pos hmatch, hmatch]
      rfl
    · rw [if_neg hmatch, ih h (Nat.le_of_succ_le_succ hn), Bool.eq_false_iff.mpr hmatch]

omit [Fintype ι] [DecidableEq κ] [DecidableEq ι] in
/-- The new rule goes behind those with longer prefixes. -/
theorem behindFrom_eq (dst : ι → Ipv4AddressPrefix) (rule : ι) (h : Chain next p xs)
    (hn : xs.length ≤ n) (behind : Option ι) :
    behindFrom dst next rule n behind p = .ok
      ((xs.takeWhile fun r => decide ((dst rule).prefixSize < (dst r).prefixSize)).getLast?.or
        behind) := by
  induction xs generalizing p n behind with
  | nil =>
    obtain rfl : p = none := h
    cases n <;> rfl
  | cons x xs ih =>
    obtain ⟨rfl, h⟩ := h
    obtain _ | n := n
    · simp at hn
    rw [behindFrom]
    by_cases hle : (dst x).prefixSize ≤ (dst rule).prefixSize
    · rw [if_pos hle, List.takeWhile_cons_of_neg (by simp [hle])]
      rfl
    · rw [if_neg hle, ih h (Nat.le_of_succ_le_succ hn), List.takeWhile_cons_of_pos (by simp; omega),
        List.getLast?_cons]
      cases (xs.takeWhile _).getLast? <;> rfl

omit [Fintype ι] [DecidableEq κ] [DecidableEq ι] in
/-- Behind the rules with longer prefixes are only rules with prefixes that are not longer. -/
theorem not_longer_of_mem_dropWhile
    (h : xs.Pairwise fun a b => (dst b).prefixSize ≤ (dst a).prefixSize) {x : ι}
    (hx : x ∈ xs.dropWhile fun r => decide ((dst rule).prefixSize < (dst r).prefixSize)) :
    (dst x).prefixSize ≤ (dst rule).prefixSize := by
  induction xs with
  | nil => cases hx
  | cons y ys ih =>
    obtain ⟨hy, hys⟩ := List.pairwise_cons.mp h
    by_cases hlt : (dst rule).prefixSize < (dst y).prefixSize
    · rw [List.dropWhile_cons_of_pos (by simp [hlt])] at hx
      exact ih hys hx
    · rw [List.dropWhile_cons_of_neg (by simp [hlt])] at hx
      rcases List.mem_cons.mp hx with rfl | hx
      · exact Nat.le_of_not_lt hlt
      · exact Nat.le_trans (hy x hx) (Nat.le_of_not_lt hlt)

/-- An insertion returns, keeps the lists sorted and adds the rule. -/
theorem Sorted.insert (h : Sorted dst D L) (hrule : ∀ k', rule ∉ L k') :
    ∃ D' L', DirectRuleList.insert dst D k rule = .ok D' ∧ Sorted dst D' L' ∧
      ∀ k' x, x ∈ L' k' ↔ x ∈ L k' ∨ k' = k ∧ x = rule := by
  let longer := fun r => decide ((dst rule).prefixSize < (dst r).prefixSize)
  have hsplit : L k = (L k).takeWhile longer ++ (L k).dropWhile longer :=
    List.takeWhile_append_dropWhile.symm
  have hbehind := behindFrom_eq dst rule (h.repr.chain k)
    (h.repr.nodup k).length_le_card none
  rw [Option.or_none] at hbehind
  refine ⟨_, _, by rw [DirectRuleList.insert, hbehind]; rfl, ⟨h.repr.insert hrule hsplit, ?_⟩, ?_⟩
  · intro k'
    by_cases hk : k' = k
    · subst hk
      have hbehind : ∀ b ∈ (L k').dropWhile longer, (dst b).prefixSize ≤ (dst rule).prefixSize :=
        fun b hb => not_longer_of_mem_dropWhile (h.sorted k') hb
      have hfront : ∀ a ∈ (L k').takeWhile longer, (dst rule).prefixSize ≤ (dst a).prefixSize :=
        fun a ha => Nat.le_of_lt (of_decide_eq_true (List.mem_takeWhile_imp (p := longer) ha))
      have hsorted := h.sorted k'
      rw [hsplit, List.pairwise_append] at hsorted
      rw [Function.update_self, List.pairwise_append, List.pairwise_cons]
      refine ⟨hsorted.1, ⟨hbehind, hsorted.2.1⟩, ?_⟩
      intro a ha b hb
      rcases List.mem_cons.mp hb with rfl | hb
      · exact hfront a ha
      · exact hsorted.2.2 a ha b hb
    · rw [Function.update_of_ne hk]
      exact h.sorted k'
  · intro k' x
    by_cases hk : k' = k
    · subst hk
      rw [Function.update_self, List.mem_append, List.mem_cons]
      conv_rhs => rw [hsplit, List.mem_append]
      tauto
    · rw [Function.update_of_ne hk]
      tauto

/-- Any sequence of insertions of different rules. -/
theorem sorted_insertAll (dst : ι → Ipv4AddressPrefix) (ops : List (κ × ι))
    (h : (ops.map Prod.snd).Nodup) :
    ∃ D L, insertAll dst ops = .ok D ∧ Sorted dst D L ∧ ∀ k x, x ∈ L k ↔ (k, x) ∈ ops := by
  induction ops using List.reverseRecOn with
  | nil =>
    refine ⟨Lists.init, fun _ => [], rfl, ⟨Lists.repr_init, fun _ => .nil⟩, ?_⟩
    simp
  | append_singleton ops op ih =>
    rw [List.map_append, List.nodup_append] at h
    obtain ⟨hnodup, -, hnew⟩ := h
    obtain ⟨D, L, hD, hsorted, hmem⟩ := ih hnodup
    have hrule : ∀ k', op.2 ∉ L k' := by
      intro k' hx
      have hold := List.mem_map_of_mem (f := Prod.snd) ((hmem k' op.2).mp hx)
      exact hnew _ hold _ (List.mem_singleton_self _) rfl
    obtain ⟨D', L', hD', hsorted', hmem'⟩ := hsorted.insert (k := op.1) hrule
    refine ⟨D', L', ?_, hsorted', ?_⟩
    · rw [insertAll, List.foldlM_append]
      rw [insertAll] at hD
      rw [hD, Exec.ok_bind, List.foldlM_cons, hD']
      rfl
    · intro k' x
      rw [hmem', hmem, List.mem_append, List.mem_singleton, Prod.ext_iff]

/-! ## Longest prefixes -/

/-- The bits of the rule's prefix are the first ones of the address. -/
def Matches (dst : ι → Ipv4AddressPrefix) (ip : Ipv4Address) (r : ι) : Prop :=
  ∀ i < (dst r).prefixSize, Ipv4Address.bit ip i = Ipv4Address.bit (dst r).address i

/-- The rule with the longest prefix is handled among the rules with the property `P` that
match, and it is said if there is none. -/
def IsLongest (dst : ι → Ipv4AddressPrefix) (P : ι → Prop) (ip : Ipv4Address) :
    HandlerCall ι → Prop
  | .handleMatch r =>
    P r ∧ Matches dst ip r ∧
      ∀ r', P r' → Matches dst ip r' → (dst r').prefixSize ≤ (dst r).prefixSize
  | .handleNoMatch => ∀ r, P r → ¬ Matches dst ip r

omit [DecidableEq κ] [DecidableEq ι] in
/-- In a sorted list the first match is the longest one. -/
theorem Sorted.findLongestPrefixMatch (h : Sorted dst D L) (k : κ) (ip : Ipv4Address) :
    ∃ c : HandlerCall ι, IsLongest dst (· ∈ L k) ip c ∧
      ∀ (σ : Type) (handleMatch : ι → σ → Exec σ) (handleNoMatch : σ → Exec σ),
        findLongestPrefixMatch dst D k ip handleMatch handleNoMatch =
          c.run handleMatch handleNoMatch := by
  have hfind : ∀ (σ : Type) (handleMatch : ι → σ → Exec σ) (handleNoMatch : σ → Exec σ),
      DirectRuleList.findLongestPrefixMatch dst D k ip handleMatch handleNoMatch =
        ((L k).find? fun r => (dst r).prefixMatches ip).elim handleNoMatch handleMatch :=
    fun σ handleMatch handleNoMatch =>
      findFrom_eq (h.repr.chain k) (h.repr.nodup k).length_le_card handleMatch handleNoMatch
  cases hfirst : (L k).find? fun r => (dst r).prefixMatches ip with
  | none =>
    refine ⟨.handleNoMatch, ?_, ?_⟩
    · intro r hr hmatch
      exact List.find?_eq_none.mp hfirst r hr
        ((Ipv4AddressPrefix.prefixMatches_iff (dst r)).mpr hmatch)
    · intro σ handleMatch handleNoMatch
      rw [hfind, hfirst]
      rfl
  | some r =>
    obtain ⟨hmatch, as, bs, hL, hbefore⟩ := List.find?_eq_some_iff_append.mp hfirst
    refine ⟨.handleMatch r, ⟨by simp [hL], (Ipv4AddressPrefix.prefixMatches_iff _).mp hmatch, ?_⟩,
      ?_⟩
    · intro r' hr' hmatch'
      have hsorted := h.sorted k
      rw [hL, List.pairwise_append, List.pairwise_cons] at hsorted
      rw [hL] at hr'
      rcases List.mem_append.mp hr' with hr' | hr'
      · have hno := hbefore r' hr'
        rw [(Ipv4AddressPrefix.prefixMatches_iff (dst r')).mpr hmatch'] at hno
        cases hno
      · rcases List.mem_cons.mp hr' with rfl | hr'
        · exact Nat.le_refl _
        · exact hsorted.2.1.1 r' hr'
    · intro σ handleMatch handleNoMatch
      rw [hfind, hfirst]
      rfl

end DirectRuleList

end Genode.Net
