import Genode.Tresor.MetaTreeSteps

/-!
# MetaTreeExchange — the entries of a node block are exchanged

Each usable entry of the node block in work changes its address with a
node on the path that has not been moved yet, or in the end with the block
that the request gives up.
-/

namespace Genode.Tresor.MetaTree

open Genode.Lib

/-! ## One entry -/

section Entry

variable {edges : UInt64} {entries : Type2NodeBlock} {i : Fin nrOfNodesPerBlk} {e : Type2Node}

theorem exchangedEntry_valid {gen : Generation} {pba : PhysicalBlockAddress} (hg : gen ≠ 0) :
    (exchangedEntry gen pba e).valid = true := by
  unfold Type2Node.valid
  rw [decide_eq_true_iff]
  intro he
  exact hg (congrArg Type2Node.allocGen he)

theorem entriesOf_update (hi : i.val < edges.toNat) (hv : (entries i).valid = true)
    (he : e.valid = true) : ∃ E, entriesOf edges entries = E + {entries i} ∧
      entriesOf edges (Function.update entries i e) = E + {e} := by
  have hsplit := sum_split (f := entryOf edges entries)
    (g := entryOf edges (Function.update entries i e)) (Finset.mem_univ i) fun j _ hj => by
      unfold entryOf
      rw [Function.update_of_ne hj]
  have h₁ : entryOf edges entries i = {entries i} := if_pos ⟨hi, hv⟩
  have h₂ : entryOf edges (Function.update entries i e) i = {e} := by
    unfold entryOf
    rw [Function.update_self]
    exact if_pos ⟨hi, he⟩
  rwa [h₁, h₂] at hsplit

end Entry

/-- The path to the node block is in memory, and no address was given away. -/
structure Ready (c : Channel) : Prop where
  two_le : 2 ≤ c.request.mtMaxLvl
  le_max : c.request.mtMaxLvl ≤ treeMaxLevel
  off : ∀ l, c.request.mtMaxLvl < l → c.levelNNodes l = {}
  held : ∀ l, 1 ≤ l → l ≤ c.request.mtMaxLvl → (c.view l).state.held = true
  unfinished : c.finished = false
  success : c.success = c.finished

/-- Two levels differ in their node and their leaves only. -/
structure Alike (v w : View) : Prop where
  state : v.state = w.state
  index : v.index = w.index
  child : v.child = w.child
  dirty : v.dirty = w.dirty

/-- Nothing but addresses and generations has changed. -/
structure Reshaped (c c' : Channel) : Prop where
  request : c'.request = c.request
  state : c'.state = c.state
  cacheRequest : c'.cacheRequest = c.cacheRequest
  off : ∀ l, c.request.mtMaxLvl < l → c'.levelNNodes l = c.levelNNodes l
  success : c'.success = c'.finished
  view : ∀ l, Alike (c'.view l) (c.view l)

section Exchange

variable {sha : Block → Hash} {ok : PhysicalBlockAddress → Prop} {c c' c'' : Channel} {d : Disk}
  {i : Fin nrOfNodesPerBlk} {e : Type2Node} {V : Nat → View} {v : View} {k : Nat}

theorem Alike.refl (v : View) : Alike v v := ⟨rfl, rfl, rfl, rfl⟩

theorem Alike.trans {u : View} (h : Alike u v) {w : View} (h' : Alike v w) : Alike u w :=
  ⟨h.state.trans h'.state, h.index.trans h'.index, h.child.trans h'.child, h.dirty.trans h'.dirty⟩

theorem Reshaped.refl (h : Ready c) : Reshaped c c :=
  ⟨rfl, rfl, rfl, fun _ _ => rfl, h.success, fun _ => .refl _⟩

theorem Reshaped.trans (h : Reshaped c c') (h' : Reshaped c' c'') : Reshaped c c'' where
  request := h'.request.trans h.request
  state := h'.state.trans h.state
  cacheRequest := h'.cacheRequest.trans h.cacheRequest
  off l hl := (h'.off l (h.request ▸ hl)).trans (h.off l hl)
  success := h'.success
  view l := (h'.view l).trans (h.view l)

theorem Reshaped.ready (h : Ready c) (hr : Reshaped c c') (hf : c'.finished = false) :
    Ready c' where
  two_le := by rw [hr.request]; exact h.two_le
  le_max := by rw [hr.request]; exact h.le_max
  off l hl := by
    rw [hr.request] at hl
    exact (hr.off l hl).trans (h.off l hl)
  held l hl hle := by
    rw [hr.request] at hle
    rw [(hr.view l).state]
    exact h.held l hl hle
  unfinished := hf
  success := hr.success

/-- A level that keeps its shape. -/
theorem alike_update (h : Alike v (V k)) (l : Nat) : Alike (Function.update V k v l) (V l) := by
  by_cases hl : l = k
  · rw [hl, Function.update_self]
    exact h
  · rw [Function.update_of_ne hl]
    exact .refl _

theorem books_of {N : Multiset Type1Node} {S : Multiset Type1Node × Multiset Type2Node}
    {p : Option PhysicalBlockAddress} {E : Multiset Type2Node}
    (hN : heldNodes c.request.mtMaxLvl c.view = N)
    (hS : stored c.request.mtEdges d c.request.mtMaxLvl c.view = S + (0, E))
    (hp : (if c.finished then some c.newPba else none) = p) :
    Config.books ⟨c, d⟩ = ⟨N, S.1, S.2 + E, d, p⟩ := by
  unfold Config.books
  dsimp only
  rw [hN, hS, hp, Prod.fst_add, Prod.snd_add, add_zero]

/-- What the three exchanges have in common: the node block of level 1 with
the entry replaced. -/
theorem Ready.setEntry {x : Type2Info} {e' : Type2Node} (h : Ready c)
    (hi : i.val < c.request.mtEdges.toNat) (hv : (c.level1Node.entries i).valid = true)
    (hv' : e'.valid = true) (hs : x.state = c.level1Node.state)
    (hentries : x.entries = Function.update c.level1Node.entries i e')
    (hV : V t2NodeLvl = c.level1Node.view c.request.mtEdges) :
    (∃ S, stored c.request.mtEdges d c.request.mtMaxLvl V =
        S + (0, {c.level1Node.entries i}) ∧
      stored c.request.mtEdges d c.request.mtMaxLvl
        (Function.update V t2NodeLvl (x.view c.request.mtEdges)) = S + (0, {e'})) ∧
      (∀ l, (Function.update V t2NodeLvl (x.view c.request.mtEdges) l).state = (V l).state) ∧
      (x.view c.request.mtEdges).dirty = (V t2NodeLvl).dirty := by
  have hheld : (V t2NodeLvl).state.held = true := by
    have hh := h.held t2NodeLvl le_rfl (Nat.le_of_succ_le h.two_le)
    rwa [view_one h.two_le, ← hV] at hh
  have hstate : (x.view c.request.mtEdges).state = (V t2NodeLvl).state := by
    rw [hV]
    exact hs
  obtain ⟨E, hE, hE'⟩ := entriesOf_update hi hv hv'
  refine ⟨?_, fun l => ?_, ?_⟩
  · apply stored_exchange hheld (by rw [hstate]; exact hheld) (by rw [hV]; rfl) rfl
    · rw [hV]
      exact hE
    · rw [← hE', ← hentries]
      rfl
  · by_cases hl : l = t2NodeLvl
    · rw [hl, Function.update_self, hstate]
    · rw [Function.update_of_ne hl]
  · rw [hV]
    unfold Type2Info.view
    rw [hs]

/-- The entry is exchanged for the address of the node of level 1. -/
theorem Ready.exchangeLevel1 {r : Channel × Type2Node} (h : Ready c)
    (hg : c.request.currentGen ≠ 0) (hi : i.val < c.request.mtEdges.toNat)
    (hv : (c.level1Node.entries i).valid = true)
    (hu : checkLevel0Usable c.request.currentGen (c.level1Node.entries i) = true)
    (hr : exchangeNvLevel1Node c (c.level1Node.entries i) = some r) :
    Reshaped c (r.1.setEntry i r.2) ∧ (r.1.setEntry i r.2).finished = false ∧
      Books.Tr sha c.request.currentGen c.request.oldPba ok (Config.books ⟨c, d⟩)
        (Config.books ⟨r.1.setEntry i r.2, d⟩) := by
  unfold exchangeNvLevel1Node at hr
  dsimp only at hr
  split at hr
  · cases hr
  · obtain rfl := Option.some.inj hr
    let info : Type2Info :=
      { c.level1Node with
        node := { c.level1Node.node with pba := (c.level1Node.entries i).pba }
        volatil := true
        entries := Function.update c.level1Node.entries i (exchangedEntry c.request.currentGen
          c.level1Node.node.pba (c.level1Node.entries i)) }
    have hview := view_setLevel1 (c := c) (x := info) h.two_le
    have hone := view_one h.two_le
    have hheld := h.held t2NodeLvl le_rfl (Nat.le_of_succ_le h.two_le)
    obtain ⟨⟨S, hS, hS'⟩, _, hdirty⟩ := h.setEntry (d := d) (x := info) hi hv
      (exchangedEntry_valid hg) rfl rfl hone
    obtain ⟨N, hN, hN'⟩ := heldNodes_move (k := t2NodeLvl) (v := info.view c.request.mtEdges)
      le_rfl (Nat.le_of_succ_le h.two_le) hheld (by rw [hone] at hheld; exact hheld)
    have hnew : (if c.finished then some c.newPba else none) = none := by
      rw [h.unfinished]
      rfl
    refine ⟨⟨rfl, rfl, rfl, fun _ _ => rfl, h.success, fun l => ?_⟩, h.unfinished, ?_⟩
    · change Alike (Channel.view { c with level1Node := info } l) _
      rw [hview]
      apply alike_update
      refine ⟨?_, ?_, ?_, hdirty⟩ <;> rw [hone] <;> rfl
    · rw [hone] at hN
      rw [books_of hN hS hnew]
      change Books.Tr _ _ _ _ _ (Config.books ⟨{ c with level1Node := info }, d⟩)
      rw [← hview] at hN' hS'
      rw [books_of (c := { c with level1Node := info }) hN' hS' hnew]
      exact .move (of_decide_eq_true hu) rfl

/-- The entry is exchanged for the address of a node further up. -/
theorem Ready.exchangeInner {r : Channel × Type2Node} (h : Ready c)
    (hg : c.request.currentGen ≠ 0) (hi : i.val < c.request.mtEdges.toNat)
    (hv : (c.level1Node.entries i).valid = true)
    (hu : checkLevel0Usable c.request.currentGen (c.level1Node.entries i) = true)
    (hr : exchangeNvInnerNodes c (c.level1Node.entries i) = some r) :
    Reshaped c (r.1.setEntry i r.2) ∧ (r.1.setEntry i r.2).finished = false ∧
      Books.Tr sha c.request.currentGen c.request.oldPba ok (Config.books ⟨c, d⟩)
        (Config.books ⟨r.1.setEntry i r.2, d⟩) := by
  unfold exchangeNvInnerNodes at hr
  split at hr
  · cases hr
  · rename_i lvl hfind
    obtain rfl := Option.some.inj hr
    have hmov := List.find?_some hfind
    have hmem := List.mem_of_find?_eq_some hfind
    rw [List.mem_range'_1] at hmem
    have h2 : 2 ≤ lvl := hmem.1
    -- a level above the root holds no valid node
    have hle : lvl ≤ c.request.mtMaxLvl := by
      by_contra hlt
      rw [h.off lvl (Nat.lt_of_not_le hlt)] at hmov
      exact absurd hmov (by decide)
    let node : Type1Node := { (c.levelNNodes lvl).node with
      pba := (c.level1Node.entries i).pba, gen := c.request.currentGen }
    let upper : Type1Info := { c.levelNNodes lvl with node := node, volatil := true }
    let e' := exchangedEntry c.request.currentGen (c.levelNNodes lvl).node.pba
      (c.level1Node.entries i)
    let info : Type2Info := { c.level1Node with
      entries := Function.update c.level1Node.entries i e' }
    have hview₁ := view_setLevel (c := c) (x := upper) h2 hle
    have hview : Channel.view { c.setLevel lvl upper with level1Node := info } =
        Function.update (Function.update c.view lvl (upper.view c.request.mtEdges)) t2NodeLvl
          (info.view c.request.mtEdges) := by
      rw [view_setLevel1 (c := c.setLevel lvl upper) (x := info) h.two_le, hview₁]
      rfl
    have hne : t2NodeLvl ≠ lvl := by
      change 1 ≠ _
      omega
    have hlvl := view_inner h2 hle
    have hone : Function.update c.view lvl (upper.view c.request.mtEdges) t2NodeLvl =
        c.level1Node.view c.request.mtEdges := by
      rw [Function.update_of_ne hne]
      exact view_one h.two_le
    have hheld := h.held lvl (by omega) hle
    have hquiet : Quiet c.view lvl (upper.view c.request.mtEdges) := by
      refine ⟨?_, ?_, fun _ => ?_, fun _ _ => ?_⟩ <;> rw [hlvl] <;> rfl
    obtain ⟨⟨S, hS, hS'⟩, _, hdirty⟩ := h.setEntry (d := d) (x := info) hi hv
      (exchangedEntry_valid hg) rfl rfl hone
    rw [hquiet.stored] at hS
    obtain ⟨N, hN, hN'⟩ := heldNodes_move (v := upper.view c.request.mtEdges)
      (Nat.le_of_succ_le h2) hle hheld (by rw [hlvl] at hheld; exact hheld)
    have hN'' : heldNodes c.request.mtMaxLvl (Function.update
        (Function.update c.view lvl (upper.view c.request.mtEdges)) t2NodeLvl
          (info.view c.request.mtEdges)) = N + {node} := by
      rw [heldNodes_update (by rw [hone]; rfl) (by rw [hone]; rfl)]
      exact hN'
    have hnew : (if c.finished then some c.newPba else none) = none := by
      rw [h.unfinished]
      rfl
    refine ⟨⟨rfl, rfl, rfl, fun l hl => ?_, h.success, fun l => ?_⟩, h.unfinished, ?_⟩
    · exact Function.update_of_ne (by omega) ..
    · change Alike (Channel.view { c.setLevel lvl upper with level1Node := info } l) _
      rw [hview]
      have hinner : Alike (upper.view c.request.mtEdges) (c.view lvl) := by
        refine ⟨?_, ?_, ?_, ?_⟩ <;> rw [hlvl] <;> rfl
      apply Alike.trans _ (alike_update hinner l)
      apply alike_update
      refine ⟨?_, ?_, ?_, hdirty⟩ <;> rw [hone] <;> rfl
    · rw [hlvl] at hN
      rw [books_of hN hS hnew]
      change Books.Tr _ _ _ _ _ (Config.books ⟨{ c.setLevel lvl upper with level1Node := info }, d⟩)
      rw [← hview] at hN'' hS'
      rw [books_of (c := { c.setLevel lvl upper with level1Node := info }) hN'' hS' hnew]
      exact .move (of_decide_eq_true hu) rfl

/-- The entry is exchanged for the block that the request gives up. -/
theorem Ready.exchangeRequest (h : Ready c) (hg : c.request.currentGen ≠ 0)
    (hi : i.val < c.request.mtEdges.toNat) (hv : (c.level1Node.entries i).valid = true)
    (hu : checkLevel0Usable c.request.currentGen (c.level1Node.entries i) = true) :
    Reshaped c ((exchangeRequestPba c (c.level1Node.entries i)).1.setEntry i
        (exchangeRequestPba c (c.level1Node.entries i)).2) ∧
      Books.Tr sha c.request.currentGen c.request.oldPba ok (Config.books ⟨c, d⟩)
        (Config.books ⟨(exchangeRequestPba c (c.level1Node.entries i)).1.setEntry i
          (exchangeRequestPba c (c.level1Node.entries i)).2, d⟩) := by
  let e' := exchangedEntry c.request.currentGen c.request.oldPba (c.level1Node.entries i)
  let info : Type2Info := { c.level1Node with
    entries := Function.update c.level1Node.entries i e' }
  let c' : Channel := { c with
    success := true
    newPba := (c.level1Node.entries i).pba
    finished := true
    level1Node := info }
  have hview : c'.view = Function.update c.view t2NodeLvl (info.view c.request.mtEdges) :=
    view_setLevel1 (c := c) h.two_le
  have hone := view_one h.two_le
  obtain ⟨⟨S, hS, hS'⟩, _, hdirty⟩ := h.setEntry (d := d) (x := info) hi hv
    (exchangedEntry_valid hg) rfl rfl hone
  have hnew : (if c.finished then some c.newPba else none) = none := by
    rw [h.unfinished]
    rfl
  refine ⟨⟨rfl, rfl, rfl, fun _ _ => rfl, rfl, fun l => ?_⟩, ?_⟩
  · change Alike (c'.view l) _
    rw [hview]
    apply alike_update
    refine ⟨?_, ?_, ?_, hdirty⟩ <;> rw [hone] <;> rfl
  · have hN : heldNodes c'.request.mtMaxLvl c'.view = heldNodes c.request.mtMaxLvl c.view := by
      rw [hview]
      exact heldNodes_update (by rw [hone]; rfl) (by rw [hone]; rfl)
    rw [books_of rfl hS hnew]
    change Books.Tr _ _ _ _ _ (Config.books ⟨c', d⟩)
    rw [books_of (c := c') hN (by rw [hview]; exact hS') rfl]
    exact .exchange (of_decide_eq_true hu)

/-! ## The loop -/

variable (sha ok) in
theorem handleLevel0Loop_spec {is : List (Fin nrOfNodesPerBlk)} {handled : Bool}
    {r : Channel × Bool} (h : Ready c) (hg : c.request.currentGen ≠ 0)
    (his : ∀ i ∈ is, i.val < c.request.mtEdges.toNat)
    (hr : handleLevel0Loop is c handled = .ok r) :
    Reshaped c r.1 ∧ (r.2 = false → r.1 = c ∧ handled = false) ∧
      (r.1.finished = true → r.2 = true) ∧
      Relation.ReflTransGen (Books.Tr sha c.request.currentGen c.request.oldPba ok)
        (Config.books ⟨c, d⟩) (Config.books ⟨r.1, d⟩) := by
  induction is generalizing c handled with
  | nil =>
    unfold handleLevel0Loop at hr
    obtain ⟨_, _, hr⟩ := Exec.bind_eq_ok.mp hr
    obtain rfl := Except.ok.inj hr
    refine ⟨Reshaped.refl h, fun hh => ⟨rfl, hh⟩, fun hf => ?_, .refl⟩
    rw [h.unfinished] at hf
    cases hf
  | cons i is ih =>
    rw [List.forall_mem_cons] at his
    -- the rest of the loop after an entry was exchanged
    have hgo : ∀ c', Reshaped c c' → c'.finished = false →
        Books.Tr sha c.request.currentGen c.request.oldPba ok (Config.books ⟨c, d⟩)
          (Config.books ⟨c', d⟩) → handleLevel0Loop is c' true = .ok r →
        Reshaped c r.1 ∧ (r.2 = false → r.1 = c ∧ handled = false) ∧
          (r.1.finished = true → r.2 = true) ∧
          Relation.ReflTransGen (Books.Tr sha c.request.currentGen c.request.oldPba ok)
            (Config.books ⟨c, d⟩) (Config.books ⟨r.1, d⟩) := by
      intro c' hre hf htr hr
      obtain ⟨hre', hh, hfin, hbooks⟩ := ih (hre.ready h hf) (by rw [hre.request]; exact hg)
        (by rw [hre.request]; exact his.2) hr
      rw [hre.request] at hbooks
      refine ⟨hre.trans hre', fun h2 => ?_, hfin, .head htr hbooks⟩
      cases (hh h2).2
    unfold handleLevel0Loop at hr
    dsimp only at hr
    split at hr
    · rename_i husable
      rw [Bool.and_eq_true] at husable
      split at hr
      · rename_i r₁ hr₁
        obtain ⟨hre, hf, htr⟩ := h.exchangeLevel1 (d := d) hg his.1 husable.1 husable.2 hr₁
        exact hgo _ hre hf htr hr
      · split at hr
        · rename_i r₁ hr₁
          obtain ⟨hre, hf, htr⟩ := h.exchangeInner (d := d) hg his.1 husable.1 husable.2 hr₁
          exact hgo _ hre hf htr hr
        · obtain rfl := Except.ok.inj hr
          obtain ⟨hre, htr⟩ := h.exchangeRequest (d := d) hg his.1 husable.1 husable.2
          exact ⟨hre, nofun, fun _ => rfl, .single htr⟩
    · exact ih h hg his.2 hr

end Exchange

end Genode.Tresor.MetaTree
