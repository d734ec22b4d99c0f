import Genode.Net.DirectRules
import Genode.Util.AvlOperations

/-!
# TransportRules — which permit rule of a transport rule is selected

`nic_router/transport_rule.h` and `nic_router/permit_rule.h`. A transport rule
permits any port or has a tree of permit rules for single ports. The search for
the best match is a search among the transport rules with a search among the
permit rules as its handler.
-/

namespace Genode.Net

open BinaryTree Lib Lib.LinkedTree Util

/-! ## Permit rules -/

namespace PermitSingleRuleTree

variable {π σ : Type} [DecidableEq π] [Fintype π]

/-- `Permit_single_rule::higher`. -/
def policy (port : π → BitVec 16) : AvlPolicy π Unit where
  higher a rule := (port a).ult (port rule)
  recompute _ _ _ := ()

/-- The rules are inserted one after the other. -/
def insertAll (root : π) (port : π → BitVec 16) (rules : List π) : Exec (AvlNodes π Unit) :=
  rules.foldlM (fun s rule => s.insert (policy port) root rule) (AvlNodes.init fun _ => ())

/-- `Permit_single_rule::find_by_port`, `n` rules away at most. -/
def findByPortFrom (nodes : AvlNodes π Unit) (port : π → BitVec 16) (p : BitVec 16)
    (handleMatch : π → σ → Exec σ) (handleNoMatch : σ → Exec σ) : Nat → π → σ → Exec σ
  | 0, _ => fun _ => .error .endless
  | n + 1, x =>
    if p ≠ port x then
      (nodes.child x ((port x).ult p)).elim handleNoMatch
        (findByPortFrom nodes port p handleMatch handleNoMatch n)
    else handleMatch x

/-- `find_by_port` in the tree below `root`. -/
def findByPort (nodes : AvlNodes π Unit) (root : π) (port : π → BitVec 16) (p : BitVec 16)
    (handleMatch : π → σ → Exec σ) (handleNoMatch : σ → Exec σ) : σ → Exec σ :=
  (nodes.child root false).elim handleNoMatch
    (findByPortFrom nodes port p handleMatch handleNoMatch (AvlNodes.fuel π))

/-- A rule for the port is handled, or there is none. -/
def IsForPort (port : π → BitVec 16) (rules : List π) (p : BitVec 16) : HandlerCall π → Prop
  | .handleMatch x => x ∈ rules ∧ port x = p
  | .handleNoMatch => ∀ x ∈ rules, port x ≠ p

variable {nodes : AvlNodes π Unit} {port : π → BitVec 16} {root x y : π} {p : BitVec 16}
  {t : BinaryTree π} {n : Nat} {rules : List π}

omit [DecidableEq π] [Fintype π] in
theorem mem_inorder_ins {higher : π → π → Bool} :
    y ∈ inorder (AvlShape.ins higher x t) ↔ y = x ∨ y ∈ inorder t := by
  induction t with
  | nil => simp [AvlShape.ins]
  | node z l r ihl ihr =>
    rw [AvlShape.ins, AvlShape.inorder_rebalance]
    split
    · simp only [inorder, List.mem_append, List.mem_cons, ihr]
      tauto
    · simp only [inorder, List.mem_append, List.mem_cons, ihl]
      tauto

omit [DecidableEq π] [Fintype π] in
/-- A rule is inserted in front of those with the same port. -/
theorem sorted_ins (h : (inorder t).Pairwise fun a b => port a ≤ port b) :
    (inorder (AvlShape.ins (policy port).higher x t)).Pairwise fun a b => port a ≤ port b := by
  induction t with
  | nil => simp [AvlShape.ins]
  | node z l r ihl ihr =>
    simp only [inorder, List.pairwise_append, List.pairwise_cons, List.mem_cons] at h
    obtain ⟨hl, ⟨hz, hr⟩, hlr⟩ := h
    rw [AvlShape.ins, AvlShape.inorder_rebalance]
    split
    · rename_i hside
      have hlt : port z < port x := BitVec.ult_iff_lt.mp hside
      simp only [inorder, List.pairwise_append, List.pairwise_cons, List.mem_cons]
      refine ⟨hl, ⟨?_, ihr hr⟩, ?_⟩
      · intro a ha
        rcases mem_inorder_ins.mp ha with rfl | ha
        · exact BitVec.le_of_lt hlt
        · exact hz a ha
      · intro a ha b hb
        rcases hb with rfl | hb
        · exact hlr a ha b (.inl rfl)
        · rcases mem_inorder_ins.mp hb with rfl | hb
          · exact BitVec.le_trans (hlr a ha z (.inl rfl)) (BitVec.le_of_lt hlt)
          · exact hlr a ha b (.inr hb)
    · rename_i hside
      have hle : port x ≤ port z :=
        BitVec.not_lt.mp fun hlt => hside (BitVec.ult_iff_lt.mpr hlt)
      simp only [inorder, List.pairwise_append, List.pairwise_cons, List.mem_cons]
      refine ⟨ihl hl, ⟨hz, hr⟩, ?_⟩
      intro a ha b hb
      rcases mem_inorder_ins.mp ha with rfl | ha
      · rcases hb with rfl | hb
        · exact hle
        · exact BitVec.le_trans hle (hz b hb)
      · exact hlr a ha b hb

/-- The rules are the nodes of a sorted tree, and other nodes are untouched. -/
structure Holds (root : π) (port : π → BitVec 16) (rules : List π) (t : BinaryTree π)
    (nodes : AvlNodes π Unit) : Prop where
  isTree : AvlNodes.IsTree root t nodes
  mem_iff : ∀ x, x ∈ inorder t ↔ x ∈ rules
  sorted : (inorder t).Pairwise fun a b => port a ≤ port b
  fresh : ∀ x, x ∉ root :: rules → nodes.Fresh x

theorem Holds.insert (h : Holds root port rules t nodes) (hx : x ∉ root :: rules) :
    ∃ nodes', nodes.insert (policy port) root x = .ok nodes' ∧
      Holds root port (rules ++ [x]) (AvlShape.ins (policy port).higher x t) nodes' := by
  have hxt : x ∉ root :: inorder t := by
    rw [List.mem_cons, h.mem_iff, ← List.mem_cons]
    exact hx
  obtain ⟨nodes', hnodes, htree, hout⟩ := h.isTree.insert (P := policy port) hxt (h.fresh x hx)
  refine ⟨nodes', hnodes, htree, ?_, sorted_ins h.sorted, ?_⟩
  · intro y
    rw [mem_inorder_ins, h.mem_iff, List.mem_append, List.mem_singleton]
    tauto
  · intro y hy
    have hyt : y ∉ x :: root :: inorder t := by
      simp only [List.mem_cons, h.mem_iff]
      simp only [List.mem_cons, List.mem_append] at hy
      tauto
    obtain ⟨hchild, hparent, hdepth⟩ := h.fresh y (by simp at hy ⊢; tauto)
    refine ⟨fun i => ?_, ?_, ?_⟩
    · rw [hout.child y hyt, hchild]
    · rw [hout.parent y hyt, hparent]
    · rw [hout.depth y hyt, hdepth]

/-- Any sequence of insertions of different rules. -/
theorem holds_insertAll (port : π → BitVec 16) (h : (root :: rules).Nodup) :
    ∃ nodes t, insertAll root port rules = .ok nodes ∧ Holds root port rules t nodes := by
  induction rules using List.reverseRecOn with
  | nil =>
    refine ⟨_, nil, rfl, ?_, by simp, by simp, fun x _ => ⟨fun _ => rfl, rfl, rfl⟩⟩
    exact ⟨rfl, rfl, attached_nil.mpr rfl, trivial, by simp, fun q _ => rfl⟩
  | append_singleton rules x ih =>
    have hnodup : (root :: rules).Nodup ∧ x ∉ root :: rules := by
      rw [← List.cons_append, List.nodup_append] at h
      exact ⟨h.1, fun hx => h.2.2 x hx x (List.mem_singleton_self x) rfl⟩
    obtain ⟨nodes, t, hnodes, hholds⟩ := ih hnodup.1
    obtain ⟨nodes', hnodes', hholds'⟩ := hholds.insert hnodup.2
    refine ⟨nodes', _, ?_, hholds'⟩
    rw [insertAll] at hnodes
    rw [insertAll, List.foldlM_append, hnodes, Exec.ok_bind, List.foldlM_cons, hnodes']
    rfl

omit [DecidableEq π] [Fintype π] in
/-- The search in a sorted tree. -/
theorem findByPortFrom_eq (h : Linked nodes.child nodes.parent t) (ht : top t = some x)
    (hn : t.numNodes ≤ n) (hs : (inorder t).Pairwise fun a b => port a ≤ port b) :
    ∃ c, IsForPort port (inorder t) p c ∧
      ∀ (σ : Type) (handleMatch : π → σ → Exec σ) (handleNoMatch : σ → Exec σ),
        findByPortFrom nodes port p handleMatch handleNoMatch n x =
          c.run handleMatch handleNoMatch := by
  induction t generalizing x n with
  | nil => simp at ht
  | node y l r ihl ihr =>
    obtain rfl : y = x := by simpa using ht
    obtain ⟨hl, hr, hll, hlr⟩ := h
    obtain _ | n := n
    · simp at hn
    simp only [numNodes] at hn
    simp only [inorder, List.pairwise_append, List.pairwise_cons, List.mem_cons] at hs
    obtain ⟨hsl, ⟨hyr, hsr⟩, hly⟩ := hs
    by_cases hport : p = port y
    · refine ⟨.handleMatch y, ⟨by simp, hport.symm⟩, ?_⟩
      intro σ handleMatch handleNoMatch
      rw [findByPortFrom, if_neg (not_not.mpr hport)]
      rfl
    · have hchild : ∀ {i : Bool} {u : BinaryTree π}, Attached nodes.child nodes.parent y i u →
          (port y).ult p = i → (∀ {z : π}, top u = some z →
            ∃ c, IsForPort port (inorder u) p c ∧
              ∀ (σ : Type) (handleMatch : π → σ → Exec σ) (handleNoMatch : σ → Exec σ),
                findByPortFrom nodes port p handleMatch handleNoMatch n z =
                  c.run handleMatch handleNoMatch) →
          ∃ c, IsForPort port (inorder u) p c ∧
            ∀ (σ : Type) (handleMatch : π → σ → Exec σ) (handleNoMatch : σ → Exec σ),
              findByPortFrom nodes port p handleMatch handleNoMatch (n + 1) y =
                c.run handleMatch handleNoMatch := by
        intro i u hu hi hfind
        cases htop : top u with
        | none =>
          refine ⟨.handleNoMatch, ?_, ?_⟩
          · rw [top_eq_none.mp htop]
            intro z hz
            cases hz
          · intro σ handleMatch handleNoMatch
            rw [findByPortFrom, if_pos hport, hi, hu.child_eq, htop]
            rfl
        | some z =>
          obtain ⟨c, hc, hrun⟩ := hfind htop
          refine ⟨c, hc, ?_⟩
          intro σ handleMatch handleNoMatch
          rw [findByPortFrom, if_pos hport, hi, hu.child_eq, htop]
          exact hrun σ handleMatch handleNoMatch
      cases hside : (port y).ult p with
      | true =>
        have hlt : port y < p := BitVec.ult_iff_lt.mp hside
        obtain ⟨c, hc, hrun⟩ := hchild hr hside fun hz => ihr hlr hz (by omega) hsr
        refine ⟨c, ?_, hrun⟩
        cases c with
        | handleMatch z => exact ⟨by simp [hc.1], hc.2⟩
        | handleNoMatch =>
          intro z hz
          simp only [inorder, List.mem_append, List.mem_cons] at hz
          rcases hz with hz | rfl | hz
          · intro h
            rw [← h] at hlt
            exact BitVec.not_lt.mpr (hly z hz y (.inl rfl)) hlt
          · exact fun h => hport h.symm
          · exact hc z hz
      | false =>
        have hle : p ≤ port y := by
          apply BitVec.not_lt.mp
          intro hlt
          rw [BitVec.ult_iff_lt.mpr hlt] at hside
          cases hside
        obtain ⟨c, hc, hrun⟩ := hchild hl hside fun hz => ihl hll hz (by omega) hsl
        refine ⟨c, ?_, hrun⟩
        cases c with
        | handleMatch z => exact ⟨by simp [hc.1], hc.2⟩
        | handleNoMatch =>
          intro z hz
          simp only [inorder, List.mem_append, List.mem_cons] at hz
          rcases hz with hz | rfl | hz
          · exact hc z hz
          · exact fun h => hport h.symm
          · intro h
            have hzy := hyr z hz
            rw [h] at hzy
            exact hport (BitVec.le_antisymm hle hzy)

omit [DecidableEq π] in
theorem Holds.findByPort (h : Holds root port rules t nodes) (p : BitVec 16) :
    ∃ c, IsForPort port rules p c ∧
      ∀ (σ : Type) (handleMatch : π → σ → Exec σ) (handleNoMatch : σ → Exec σ),
        PermitSingleRuleTree.findByPort nodes root port p handleMatch handleNoMatch =
          c.run handleMatch handleNoMatch := by
  have hfirst := h.isTree.attached.child_eq
  cases htop : top t with
  | none =>
    refine ⟨.handleNoMatch, ?_, ?_⟩
    · intro x hx
      rw [← h.mem_iff, top_eq_none.mp htop] at hx
      cases hx
    · intro σ handleMatch handleNoMatch
      rw [PermitSingleRuleTree.findByPort, hfirst, htop]
      rfl
  | some x =>
    have hn : t.numNodes ≤ AvlNodes.fuel π := by
      rw [← inorder_length]
      exact Nat.le_succ_of_le (List.nodup_cons.mp h.isTree.nodup).2.length_le_card
    obtain ⟨c, hc, hrun⟩ := findByPortFrom_eq (p := p) h.isTree.linked htop hn h.sorted
    refine ⟨c, ?_, ?_⟩
    · cases c with
      | handleMatch x => exact ⟨(h.mem_iff x).mp hc.1, hc.2⟩
      | handleNoMatch => exact fun x hx => hc x ((h.mem_iff x).mpr hx)
    · intro σ handleMatch handleNoMatch
      rw [PermitSingleRuleTree.findByPort, hfirst, htop]
      exact hrun σ handleMatch handleNoMatch

end PermitSingleRuleTree

/-! ## Transport rules -/

/-- `Permit_rule`. -/
inductive PermitRule (α π : Type) where
  | any (rule : α)
  | single (rule : π)
  deriving DecidableEq, Repr

/-- `Transport_rule`, as it is once it is constructed: its tree has the single rules of
its configuration, in nodes of their own. -/
structure TransportRule (α π : Type) [DecidableEq π] [Fintype π] where
  dst : Ipv4AddressPrefix
  /-- `_permit_any_rule`, if it is valid. -/
  permitAnyRule : Option α
  /-- `_permit_single_rules`. -/
  permitSingleRules : AvlNodes π Unit
  root : π
  port : π → BitVec 16
  rules : List π
  nodup : (root :: rules).Nodup
  built : PermitSingleRuleTree.insertAll root port rules = .ok permitSingleRules

namespace TransportRule

variable {α π : Type} [DecidableEq π] [Fintype π] (rule : TransportRule α π)

/-- `find_permit_rule_by_port`. -/
def findPermitRuleByPort {σ : Type} (p : BitVec 16) (handleMatch : PermitRule α π → σ → Exec σ)
    (handleNoMatch : σ → Exec σ) : σ → Exec σ :=
  match rule.permitAnyRule with
  | some any => handleMatch (.any any)
  | none =>
    PermitSingleRuleTree.findByPort rule.permitSingleRules rule.root rule.port p
      (fun single => handleMatch (.single single)) handleNoMatch

/-- The permit rules of the transport rule that permit a port. -/
def Permits (p : BitVec 16) : PermitRule α π → Prop
  | .any any => rule.permitAnyRule = some any
  | .single single =>
    rule.permitAnyRule = none ∧ single ∈ rule.rules ∧ rule.port single = p

/-- What the search in a transport rule handles. -/
def IsPermitted (p : BitVec 16) : HandlerCall (PermitRule α π) → Prop
  | .handleMatch permit => rule.Permits p permit
  | .handleNoMatch => ∀ permit, ¬ rule.Permits p permit

theorem findPermitRuleByPort_eq (p : BitVec 16) :
    ∃ c, rule.IsPermitted p c ∧
      ∀ (σ : Type) (handleMatch : PermitRule α π → σ → Exec σ) (handleNoMatch : σ → Exec σ),
        rule.findPermitRuleByPort p handleMatch handleNoMatch =
          c.run handleMatch handleNoMatch := by
  unfold findPermitRuleByPort
  cases hany : rule.permitAnyRule with
  | some any => exact ⟨.handleMatch (.any any), hany, fun σ handleMatch handleNoMatch => rfl⟩
  | none =>
    obtain ⟨nodes, t, hnodes, hholds⟩ :=
      PermitSingleRuleTree.holds_insertAll rule.port rule.nodup
    obtain rfl := Except.ok.inj (rule.built.symm.trans hnodes)
    obtain ⟨c, hc, hrun⟩ := hholds.findByPort p
    cases c with
    | handleMatch single =>
      refine ⟨.handleMatch (.single single), ⟨hany, hc⟩, ?_⟩
      intro σ handleMatch handleNoMatch
      exact hrun σ _ handleNoMatch
    | handleNoMatch =>
      refine ⟨.handleNoMatch, ?_, ?_⟩
      · intro permit hpermit
        cases permit with
        | any any =>
          rw [Permits, hany] at hpermit
          cases hpermit
        | single single => exact hc single hpermit.2.1 hpermit.2.2
      · intro σ handleMatch handleNoMatch
        exact hrun σ _ handleNoMatch

end TransportRule

namespace TransportRuleList

open DirectRuleList

variable {κ ι α π : Type} [Fintype ι] [DecidableEq κ] [DecidableEq ι] [DecidableEq π] [Fintype π]

/-- `find_best_match`. -/
def findBestMatch {σ : Type} (rule : ι → TransportRule α π) (D : Lists κ ι) (k : κ)
    (ip : Ipv4Address) (p : BitVec 16) (handleMatch : ι × PermitRule α π → σ → Exec σ)
    (handleNoMatch : σ → Exec σ) : σ → Exec σ :=
  findLongestPrefixMatch (fun r => (rule r).dst) D k ip
    (fun r => (rule r).findPermitRuleByPort p (fun permit => handleMatch (r, permit)) handleNoMatch)
    handleNoMatch

/-- What is handled for a port, given what the search for the longest prefix handles: one
of that rule's permit rules for the port, or nothing. -/
def IsBest (rule : ι → TransportRule α π) (p : BitVec 16) (longest : HandlerCall ι) :
    HandlerCall (ι × PermitRule α π) → Prop
  | .handleMatch (r, permit) => longest = .handleMatch r ∧ (rule r).Permits p permit
  | .handleNoMatch =>
    ∀ r, longest = .handleMatch r → ∀ permit, ¬ (rule r).Permits p permit

variable (α π) in
/-- The searches for an address in lists `D` that were made by insertions: the rule with
the longest matching prefix is handled; and however the rules are extended to transport
rules, one handler is called for each port, with a permit rule for it. -/
def Selects (dst : ι → Ipv4AddressPrefix) (ops : List (κ × ι)) (D : Lists κ ι) : Prop :=
  ∀ k ip, ∃ c, IsLongest dst (fun r => (k, r) ∈ ops) ip c ∧
    (∀ (σ : Type) (handleMatch : ι → σ → Exec σ) (handleNoMatch : σ → Exec σ),
      findLongestPrefixMatch dst D k ip handleMatch handleNoMatch =
        c.run handleMatch handleNoMatch) ∧
    ∀ rule : ι → TransportRule α π, (∀ r, (rule r).dst = dst r) → ∀ p,
      ∃ best, IsBest rule p c best ∧
        ∀ (σ : Type) (handleMatch : ι × PermitRule α π → σ → Exec σ) (handleNoMatch : σ → Exec σ),
          findBestMatch rule D k ip p handleMatch handleNoMatch =
            best.run handleMatch handleNoMatch

/-- Every sequence of insertions of different rules makes lists with right searches. -/
theorem selects_of_insertAll (dst : ι → Ipv4AddressPrefix) (ops : List (κ × ι))
    (h : (ops.map Prod.snd).Nodup) : ∃ D, insertAll dst ops = .ok D ∧ Selects α π dst ops D := by
  obtain ⟨D, L, hD, hsorted, hmem⟩ := sorted_insertAll dst ops h
  refine ⟨D, hD, ?_⟩
  intro k ip
  obtain ⟨c, hc, hrun⟩ := hsorted.findLongestPrefixMatch k ip
  simp only [hmem] at hc
  refine ⟨c, hc, hrun, ?_⟩
  intro rule hdst p
  have hbest : ∀ (σ : Type) (handleMatch : ι × PermitRule α π → σ → Exec σ)
      (handleNoMatch : σ → Exec σ), findBestMatch rule D k ip p handleMatch handleNoMatch =
        c.run (fun r => (rule r).findPermitRuleByPort p (fun permit => handleMatch (r, permit))
          handleNoMatch) handleNoMatch := by
    intro σ handleMatch handleNoMatch
    rw [findBestMatch, funext hdst, hrun]
  cases c with
  | handleNoMatch =>
    refine ⟨.handleNoMatch, ?_, hbest⟩
    intro r hr
    cases hr
  | handleMatch r =>
    obtain ⟨permitted, hpermitted, hfind⟩ := (rule r).findPermitRuleByPort_eq p
    cases permitted with
    | handleMatch permit =>
      refine ⟨.handleMatch (r, permit), ⟨rfl, hpermitted⟩, ?_⟩
      intro σ handleMatch handleNoMatch
      rw [hbest]
      exact hfind σ (fun permit => handleMatch (r, permit)) handleNoMatch
    | handleNoMatch =>
      refine ⟨.handleNoMatch, ?_, ?_⟩
      · intro r' hr'
        obtain rfl := HandlerCall.handleMatch.inj hr'
        exact hpermitted
      · intro σ handleMatch handleNoMatch
        rw [hbest]
        exact hfind σ (fun permit => handleMatch (r, permit)) handleNoMatch

/-- The networks 10.0.0.0/8 and 10.1.0.0/16. -/
def networks : Fin 2 → Ipv4AddressPrefix
  | 0 => ⟨#v[10, 0, 0, 0], 8, by decide⟩
  | 1 => ⟨#v[10, 1, 0, 0], 16, by decide⟩

theorem selects_of_insertAll_networks : ∃ D, insertAll networks [((), 0), ((), 1)] = .ok D ∧
    Selects Unit (Fin 3) networks [((), 0), ((), 1)] D :=
  selects_of_insertAll networks [((), 0), ((), 1)] (by decide)

end TransportRuleList

end Genode.Net
