import Mathlib.Algebra.Order.BigOperators.Group.List
import Mathlib.Data.Set.Insert
import Genode.Base.SlabRing

/-!
# SlabPool — what the slab is for

A slab is a pool of entries: it holds blocks of memory, and some of the
entries in them are live. In every run, the calls of the slab are
operations on such a pool, also when the backing store itself uses the
slab while it is asked for a block.
-/

namespace Genode.Base.Slab

open Lib

/-! ## Pools -/

/-- The blocks that are held, the entries that are in use, and whether an
allocation waits for the backing store. -/
@[ext] structure Pool (β : Type) where
  held : Set β
  live : Set (β × Nat)
  asking : Bool

namespace Pool

variable {β : Type}

/-- Every entry of the blocks is in use. -/
def Full (n : Nat) (held : Set β) (live : Set (β × Nat)) : Prop := ∀ b ∈ held, ∀ i < n, (b, i) ∈ live

/-- Blocks without live entries may have been given back. -/
def Trimmed (P P' : Pool β) : Prop :=
  P'.held ⊆ P.held ∧ (∀ e ∈ P'.live, e.1 ∈ P'.held) ∧ P'.asking = P.asking

/-- The operations on a pool of blocks with `n` entries each. -/
inductive Step (slabSize n : Nat) : Pool β → Call β × Reply β → Pool β → Prop where
  | alloc {P : Pool β} {size : Nat} {b : β} {i : Nat} (hsize : size ≤ slabSize) (hb : b ∈ P.held)
      (hi : i < n) (hfree : (b, i) ∉ P.live) :
      Step slabSize n P (.alloc size, .entry b i) { P with live := insert (b, i) P.live }
  | full {P : Pool β} {size : Nat} (h : slabSize < size ∨ Full n P.held P.live) :
      Step slabSize n P (.alloc size, .failed .denied) P
  | ask {P : Pool β} {size : Nat} (hsize : size ≤ slabSize) (h : P.asking = false) :
      Step slabSize n P (.alloc size, .asking) { P with asking := true }
  | answer {P : Pool β} {b b' : β} {i : Nat} (hb : b ∉ P.held) (hb' : b' ∈ insert b P.held)
      (hi : i < n) (hfree : (b', i) ∉ P.live) :
      Step slabSize n P (.answer (.ok b), .entry b' i)
        ⟨insert b P.held, insert (b', i) P.live, false⟩
  | answerFull {P : Pool β} {b : β} (hb : b ∉ P.held) (h : Full n (insert b P.held) P.live) :
      Step slabSize n P (.answer (.ok b), .failed .denied) ⟨insert b P.held, P.live, false⟩
  | answerFailed {P : Pool β} {e : AllocError} :
      Step slabSize n P (.answer (.error e), .failed e) { P with asking := false }
  | free {P P' : Pool β} {b : β} {i : Nat} (hl : (b, i) ∈ P.live) (hlive : P'.live = P.live \ {(b, i)})
      (ht : Trimmed P P') : Step slabSize n P (.free b i, .nothing) P'
  | freeUnused {P : Pool β} {b : β} {i : Nat} (hl : (b, i) ∉ P.live) :
      Step slabSize n P (.free b i, .nothing) P
  | insertSb {P : Pool β} {b : β} (hb : b ∉ P.held) :
      Step slabSize n P (.insertSb b, .nothing) { P with held := insert b P.held }
  | freeEmptyBlocks {P P' : Pool β} (hlive : P'.live = P.live) (ht : Trimmed P P') :
      Step slabSize n P (.freeEmptyBlocks, .nothing) P'
  | usedElem {P : Pool β} {b : β} {i : Nat} (hl : (b, i) ∈ P.live) :
      Step slabSize n P (.anyUsedElem, .entry b i) P
  | noUsedElem {P : Pool β} (hl : P.live = ∅) : Step slabSize n P (.anyUsedElem, .nothing) P

end Pool

variable {β : Type} [DecidableEq β] {s s' t : Slab β} {xs ys zs : List β} {b x y : β} {c c' : Block β}
  {i k fuel : Nat}

/-! ## The pool of a slab -/

/-- The blocks in a walk over `k` blocks. -/
def blocksFrom (mem : β → Option (Block β)) : Nat → β → List β
  | 0, _ => []
  | k + 1, b => b :: (mem b).elim [] fun c => blocksFrom mem k c.next

/-- The blocks of the slab. -/
def members (s : Slab β) : List β := blocksFrom s.mem s.numBlocks s.currSb

/-- What the slab stands for. -/
def pool (s : Slab β) : Pool β where
  held := {b | b ∈ s.members}
  live := {e | e.1 ∈ s.members ∧ e.2 < s.entriesPerBlock ∧ s.usedAt e.1 e.2 = true}
  asking := s.nested

section Basics

omit [DecidableEq β]

theorem blocksFrom_eq {q : Option β} (h : Path s.nextOf (s.nextOf x) xs q) (hx : s.mem x ≠ none)
    (hxs : ∀ z ∈ xs, s.mem z ≠ none) : blocksFrom s.mem (xs.length + 1) x = x :: xs := by
  induction xs generalizing x with
  | nil =>
    obtain ⟨c, hc⟩ := Option.ne_none_iff_exists'.mp hx
    rw [List.length_nil, Nat.zero_add, blocksFrom, hc]
    rfl
  | cons y ys ih =>
    obtain ⟨c, hc, hnext⟩ := exists_mem h.1
    have := ih h.2 (hxs y (List.mem_cons_self ..)) fun z hz => hxs z (List.mem_cons_of_mem _ hz)
    rw [List.length_cons, blocksFrom, hc, Option.elim_some, hnext, this]

theorem Linked.members_eq (h : Linked s xs) : s.members = s.currSb :: xs := by
  have hmem {z : β} (hz : z ∈ s.currSb :: xs) : s.mem z ≠ none := by
    obtain ⟨c, hc⟩ := h.mem hz
    rw [hc]
    simp
  rw [members, h.num]
  exact blocksFrom_eq h.ring.path (hmem (List.mem_cons_self ..)) fun z hz =>
    hmem (List.mem_cons_of_mem _ hz)

theorem Linked.mem_held (h : Linked s xs) : b ∈ s.pool.held ↔ b ∈ s.currSb :: xs := by
  rw [← h.members_eq]
  rfl

theorem mem_live : (b, i) ∈ s.pool.live ↔
    b ∈ s.pool.held ∧ i < s.entriesPerBlock ∧ s.usedAt b i = true := Iff.rfl

theorem Linked.pool_eq {P : Pool β} (h : Linked s xs) (hh : ∀ b, b ∈ s.currSb :: xs ↔ b ∈ P.held)
    (hl : ∀ b i, b ∈ P.held → ((i < s.entriesPerBlock ∧ s.usedAt b i = true) ↔ (b, i) ∈ P.live))
    (hlh : ∀ e ∈ P.live, e.1 ∈ P.held) (ha : s.nested = P.asking) : s.pool = P := by
  have hheld : s.pool.held = P.held := by
    ext b
    rw [h.mem_held, hh]
  ext e
  · rw [hheld]
  · obtain ⟨b, i⟩ := e
    rw [mem_live, hheld]
    constructor
    · rintro ⟨hb, hu⟩
      exact (hl b i hb).mp hu
    · intro he
      exact ⟨hlh _ he, (hl b i (hlh _ he)).mpr he⟩
  · rw [← ha]
    rfl

/-- Whether the blocks are seen from one block or another does not matter. -/
theorem Linked.pool_moved (h : Linked s xs) (h' : Linked { s with currSb := x } ys)
    (hperm : (x :: ys).Perm (s.currSb :: xs)) : Slab.pool { s with currSb := x } = s.pool :=
  h'.pool_eq (fun _ => hperm.mem_iff.trans h.mem_held.symm)
    (fun b i hb => by rw [mem_live]; exact ⟨fun hu => ⟨hb, hu⟩, And.right⟩)
    (fun e he => (mem_live.mp he).1) rfl

/-- The free entries of a block. -/
theorem Linked.availOf_eq_zero (h : Linked s xs) (hb : b ∈ s.currSb :: xs) :
    s.availOf b = 0 ↔ ∀ i < s.entriesPerBlock, s.usedAt b i = true := by
  obtain ⟨c, hc⟩ := h.mem hb
  rw [h.avail (by rw [hc]; simp), freeCount_eq_zero]

theorem Linked.availOf_eq_all (h : Linked s xs) (hb : s.mem b ≠ none) :
    s.availOf b = s.entriesPerBlock ↔ ∀ i < s.entriesPerBlock, s.usedAt b i = false := by
  rw [h.avail hb, freeCount_eq_iff]

end Basics

/-! ## Taking an entry -/

/-- A change of the state table of the current block. -/
theorem Sound.setCurr (h : Sound s xs) (c' : Block β) (k : Nat) (hc : s.mem s.currSb = some c) (hn : c'.next = c.next)
    (hp : c'.prev = c.prev) (ha : c'.avail = freeCount s.entriesPerBlock c'.used)
    (hk : k + c.avail = s.totalAvail + c'.avail) :
    Sound { s.set s.currSb c' with totalAvail := k } xs := by
  have hnd := List.nodup_cons.mp h.ring.nodup
  have hpresent (b : β) : (s.set s.currSb c').mem b ≠ none ↔ s.mem b ≠ none := mem_set_ne_none hc
  have hnext : (s.set s.currSb c').nextOf = s.nextOf := by
    have : s.nextOf s.currSb = some c.next := by rw [nextOf, hc]; rfl
    rw [nextOf_set, hn, ← this]
    exact Function.update_eq_self ..
  have hprev : (s.set s.currSb c').prevOf = s.prevOf := by
    have : s.prevOf s.currSb = some c.prev := by rw [prevOf, hc]; rfl
    rw [prevOf_set, hp, ← this]
    exact Function.update_eq_self ..
  have hother {b : β} (hb : b ≠ s.currSb) : (s.set s.currSb c').availOf b = s.availOf b := by
    rw [availOf_set, Function.update_of_ne hb]
  refine ⟨⟨?_, h.num, fun {b} hb => ?_, ?_, fun hb hout => h.outside ((hpresent _).mp hb) hout⟩,
    fun {b} hb hout => ?_⟩
  · show Ring (s.set s.currSb c').nextOf (s.set s.currSb c').prevOf s.currSb xs
    rw [hnext, hprev]
    exact h.ring
  · show (s.set s.currSb c').availOf b = freeCount _ ((s.set s.currSb c').usedAt b)
    by_cases hbc : b = s.currSb
    · rw [hbc, availOf_set, usedAt_set, Function.update_self, Function.update_self, ha]
      rfl
    · rw [hother hbc, usedAt_set, Function.update_of_ne hbc]
      exact h.avail ((hpresent b).mp hb)
  · show k = ((s.currSb :: xs).map (s.set s.currSb c').availOf).sum
    have htotal := h.total
    have hmap : xs.map (s.set s.currSb c').availOf = xs.map s.availOf :=
      List.map_congr_left fun b hb => hother fun he => hnd.1 (he ▸ hb)
    rw [List.map_cons, List.sum_cons, availOf_eq hc] at htotal
    rw [List.map_cons, List.sum_cons, hmap, availOf_set, Function.update_self]
    omega
  · show (s.set s.currSb c').availOf b = _
    have hbc : b ≠ s.currSb := fun he => hout (he ▸ List.mem_cons_self ..)
    rw [hother hbc]
    exact h.unlinked ((hpresent b).mp hb) hout

/-- The pool after an entry of the current block was taken or freed. -/
theorem Sound.pool_setCurr {k : Nat} (h : Sound s xs) (live : Set (β × Nat))
    (h' : Sound { s.set s.currSb c' with totalAvail := k } xs)
    (hother : ∀ b i, b ≠ s.currSb → ((b, i) ∈ live ↔ (b, i) ∈ s.pool.live))
    (hcurr : ∀ i, (s.currSb, i) ∈ live ↔ i < s.entriesPerBlock ∧ c'.used i = true) :
    Slab.pool { s.set s.currSb c' with totalAvail := k } = { s.pool with live := live } := by
  have hself : s.currSb ∈ s.pool.held := h.mem_held.mpr (List.mem_cons_self ..)
  refine h'.pool_eq (fun b => h.mem_held.symm) (fun b i hb => ?_) (fun e he => ?_) rfl
  · show i < s.entriesPerBlock ∧ (s.set s.currSb c').usedAt b i = true ↔ (b, i) ∈ live
    rw [usedAt_set]
    by_cases hbc : b = s.currSb
    · rw [hbc, Function.update_self, hcurr]
    · rw [Function.update_of_ne hbc, hother b i hbc, mem_live]
      exact ⟨fun hu => ⟨hb, hu⟩, And.right⟩
  · by_cases hbc : e.1 = s.currSb
    · rw [hbc]
      exact hself
    · exact (mem_live.mp ((hother e.1 e.2 hbc).mp he)).1

/-- Taking an entry fails only if none is free. -/
theorem Sound.takeEntry (h : Sound s xs) :
    (s.totalAvail = 0 ∧ Pool.Full s.entriesPerBlock s.pool.held s.pool.live ∧
      ∃ x ys, s.takeEntry = .ok (none, { s with currSb := x }) ∧ Sound { s with currSb := x } ys ∧
        Slab.pool { s with currSb := x } = s.pool) ∨
    ∃ b i s' ys, s.takeEntry = .ok (some (b, i), s') ∧ Sound s' ys ∧ b ∈ s.pool.held ∧
      i < s.entriesPerBlock ∧ (b, i) ∉ s.pool.live ∧
      s'.pool = { s.pool with live := insert (b, i) s.pool.live } ∧
      s'.totalAvail + 1 = s.totalAvail ∧ Same s s' := by
  have hnil : Sound s (xs ++ []) := by rwa [List.append_nil]
  obtain ⟨x, zs, hskip, hs, hperm, hall⟩ := hnil.skipOccupied [] (by simp)
    (show ([] : List β).head?.getD s.currSb = s.currSb from rfl)
    (show xs.length < s.numBlocks by rw [h.num]; omega)
  rw [List.append_nil] at hperm hall
  have hpool := h.pool_moved hs.toLinked hperm
  set s₁ : Slab β := { s with currSb := x } with hs₁
  obtain ⟨c, hc⟩ := hs.mem (List.mem_cons_self ..)
  have hav := availOf_eq hc
  have hcount : c.avail = freeCount s.entriesPerBlock c.used := by
    have := hs.avail (b := x) (by rw [hc]; simp)
    rwa [hav, usedAt_eq hc] at this
  unfold Slab.takeEntry
  rw [hskip]
  simp only [Exec.ok_bind]
  rw [get_of_mem hc]
  simp only [Exec.ok_bind]
  cases hfind : (List.range s.entriesPerBlock).find? fun i => !c.used i with
  | none =>
    have hused : ∀ i < s.entriesPerBlock, c.used i = true := by
      intro i hi
      have := List.find?_eq_none.mp hfind i (List.mem_range.mpr hi)
      simpa using this
    have hzero := hall (hav.trans (hcount.trans (freeCount_eq_zero.mpr hused)))
    refine .inl ⟨?_, fun b hb i hi => ?_, x, zs, ?_, hs, hpool⟩
    · rw [h.total, List.sum_eq_zero_iff, List.forall_mem_map]
      exact hzero
    · have hbr := h.mem_held.mp hb
      exact mem_live.mpr ⟨hb, hi, (h.availOf_eq_zero hbr).mp (hzero b hbr) i hi⟩
    · have hnone : c.alloc s₁.entriesPerBlock = none := by
        rw [Block.alloc, show s₁.entriesPerBlock = s.entriesPerBlock from rfl, hfind]
        rfl
      rw [hnone]
  | some i =>
    have hi : i < s.entriesPerBlock := List.mem_range.mp (List.mem_of_find?_eq_some hfind)
    have hu : c.used i = false := by simpa using List.find?_some hfind
    have huse := freeCount_use hi hu
    have hsome : c.alloc s₁.entriesPerBlock =
        some (i, { c with used := Function.update c.used i true, avail := c.avail - 1 }) := by
      rw [Block.alloc, show s₁.entriesPerBlock = s.entriesPerBlock from rfl, hfind]
      rfl
    have hle : c.avail ≤ s.totalAvail := by
      have := hs.total
      rw [List.map_cons, List.sum_cons, hav] at this
      change s.totalAvail = _ at this
      omega
    have hs' := hs.setCurr { c with used := Function.update c.used i true, avail := c.avail - 1 }
      (s.totalAvail - 1) hc rfl rfl
      (show c.avail - 1 = freeCount s.entriesPerBlock _ by dsimp only; omega)
      (show s.totalAvail - 1 + c.avail = s.totalAvail + (c.avail - 1) by omega)
    have hx : x ∈ s.pool.held := by
      rw [← hpool]
      exact hs.mem_held.mpr (List.mem_cons_self ..)
    have hnot : (x, i) ∉ s.pool.live := by
      intro hl
      have hxi := (mem_live.mp hl).2.2
      rw [show s.usedAt x i = s₁.usedAt x i from rfl, usedAt_eq hc, hu] at hxi
      cases hxi
    refine .inr ⟨x, i, _, zs, by rw [hsome]; rfl, hs', hx, hi, hnot, ?_, ?_, ⟨rfl, rfl, rfl, rfl, rfl⟩⟩
    · refine (hs.pool_setCurr _ hs' (fun b j hb => ?_) (fun j => ?_)).trans
        (congrArg (fun P : Pool β => { P with live := insert (x, i) s.pool.live }) hpool)
      · rw [hpool]
        have hne : (b, j) ≠ (x, i) := fun he => hb (congrArg Prod.fst he)
        simp only [Set.mem_insert_iff, hne, false_or]
      · show (x, j) ∈ insert (x, i) s.pool.live ↔ _
        simp only [Set.mem_insert_iff, Prod.mk.injEq, true_and, mem_live]
        by_cases hj : j = i
        · subst hj
          simp [hi]
          exact hi
        · rw [Function.update_of_ne hj, show s.usedAt x j = s₁.usedAt x j from rfl, usedAt_eq hc]
          simp only [hj, false_or, hx, true_and]
          exact Iff.rfl
    · show s.totalAvail - 1 + 1 = s.totalAvail
      omega

/-! ## Inserting and releasing blocks -/

theorem Sound.insertBlock (h : Sound s xs) (hb : s.mem b = none) :
    ∃ s', (s.newBlock b).insertBlock b = .ok s' ∧ Sound s' (b :: xs) ∧ b ∉ s.pool.held ∧
      s'.pool = { s.pool with held := insert b s.pool.held } ∧
      s'.totalAvail = s.totalAvail + s.entriesPerBlock ∧ Same s s' := by
  have hnot : b ∉ s.currSb :: xs := by
    intro hm
    obtain ⟨c, hc⟩ := h.mem hm
    rw [hb] at hc
    cases hc
  obtain ⟨s', hs', hring, havail, hused, hpresent, hsame, hcurr, htotal, hnum⟩ :=
    insertBlock_spec h.ring hb
  have hn := hsame.entriesPerBlock
  have hmem {z : β} (hz : z ∈ s.currSb :: xs) : z ≠ b := fun he => hnot (he ▸ hz)
  have hperm : (s'.currSb :: b :: xs).Perm (b :: s.currSb :: xs) := by
    rw [hcurr]
    exact List.Perm.swap ..
  have hpast {z : β} (hz : s'.mem z ≠ none) (hzb : z ≠ b) : s.mem z ≠ none :=
    ((hpresent z).mp hz).resolve_left hzb
  have hs : Sound s' (b :: xs) := by
    refine ⟨⟨hring, ?_, fun {z} hz => ?_, ?_, fun {z} hz hout => ?_⟩, fun {z} hz hout => ?_⟩
    · rw [List.length_cons, ← h.num, hnum]
    · rw [havail, hused, hn]
      by_cases hzb : z = b
      · rw [hzb, Function.update_self, Function.update_self]
        exact (freeCount_eq_iff.mpr fun _ _ => rfl).symm
      · rw [Function.update_of_ne hzb, Function.update_of_ne hzb]
        exact h.avail (hpast hz hzb)
    · have hmap : (s.currSb :: xs).map s'.availOf = (s.currSb :: xs).map s.availOf :=
        List.map_congr_left fun z hz => by rw [havail, Function.update_of_ne (hmem hz)]
      rw [(hperm.map s'.availOf).sum_eq, List.map_cons, List.sum_cons, hmap, ← h.total, havail,
        Function.update_self, htotal, Nat.add_comm]
    · have hzb : z ≠ b := fun he => hout (hperm.mem_iff.mpr (he ▸ List.mem_cons_self ..))
      rw [hsame.backed, hsame.initialSb]
      exact h.outside (hpast hz hzb) fun hin => hout (hperm.mem_iff.mpr (List.mem_cons_of_mem _ hin))
    · have hzb : z ≠ b := fun he => hout (hperm.mem_iff.mpr (he ▸ List.mem_cons_self ..))
      rw [havail, Function.update_of_ne hzb, hn]
      exact h.unlinked (hpast hz hzb) fun hin => hout (hperm.mem_iff.mpr (List.mem_cons_of_mem _ hin))
  refine ⟨s', hs', hs, mt h.mem_held.mp hnot, ?_, htotal, hsame⟩
  refine hs.pool_eq (fun z => ?_) (fun z i hz => ?_) (fun e he => ?_) hsame.nested
  · rw [hperm.mem_iff, List.mem_cons, ← h.mem_held]
    exact Iff.rfl
  · rw [hused, hn]
    by_cases hzb : z = b
    · rw [hzb, Function.update_self]
      exact iff_of_false (by simp) fun hl => hnot (h.mem_held.mp (mem_live.mp hl).1)
    · rw [Function.update_of_ne hzb, mem_live]
      exact ⟨fun hu => ⟨hz.resolve_left hzb, hu⟩, And.right⟩
  · exact Set.mem_insert_of_mem _ (mem_live.mp he).1

/-- Free blocks may have been taken out of the ring, and nothing else happened. -/
structure Trimmed (s s' : Slab β) : Prop where
  same : Same s s'
  live : s'.pool.live = s.pool.live
  pool : Pool.Trimmed s.pool s'.pool

section Trimmed

omit [DecidableEq β]

theorem Trimmed.of_pool_eq (h : Same s s') (hp : s'.pool = s.pool) : Trimmed s s' where
  same := h
  live := congrArg Pool.live hp
  pool := by
    rw [hp]
    exact ⟨subset_rfl, fun _ he => (mem_live.mp he).1, rfl⟩

theorem Trimmed.trans (h : Trimmed s s') (h' : Trimmed s' t) : Trimmed s t where
  same := h.same.trans h'.same
  live := h'.live.trans h.live
  pool := ⟨h'.pool.1.trans h.pool.1, h'.pool.2.1, h'.pool.2.2.trans h.pool.2.2⟩

end Trimmed

/-- Removing the current block. -/
theorem Linked.freeCurrSb (h : Linked s (y :: ys)) :
    ∃ s', s.freeCurrSb = .ok s' ∧ Linked s' ys ∧ Same s s' ∧ s'.currSb = y ∧
      s'.totalAvail + s.availOf s.currSb = s.totalAvail ∧
      (∀ z, z ≠ s.currSb → s'.availOf z = s.availOf z ∧ s'.usedAt z = s.usedAt z ∧
        (s'.mem z ≠ none ↔ s.mem z ≠ none)) ∧
      (s'.mem s.currSb ≠ none → s'.availOf s.currSb = s.availOf s.currSb) := by
  have hnum := h.num
  have hxy : s.currSb ∉ y :: ys := (List.nodup_cons.mp h.ring.nodup).1
  rw [List.length_cons] at hnum
  obtain ⟨s', hs', hring, hother, hself, hsame, hcurr, htotal, hnum'⟩ :=
    freeCurrSb_spec h.ring (by omega)
  have hsum := h.total
  rw [List.map_cons, List.sum_cons] at hsum
  refine ⟨s', hs', ⟨hcurr ▸ hring, by omega, fun {z} hz => ?_, ?_, fun {z} hz hnot => ?_⟩, hsame, hcurr,
    by omega, hother, fun hm => (hself.resolve_left hm).2.1⟩
  · rw [hsame.entriesPerBlock]
    by_cases hzc : z = s.currSb
    · subst hzc
      obtain ⟨-, ha, hu⟩ := hself.resolve_left hz
      obtain ⟨c, hc⟩ := h.mem (List.mem_cons_self ..)
      rw [ha, hu]
      exact h.avail (by rw [hc]; simp)
    · obtain ⟨ha, hu, hm⟩ := hother z hzc
      rw [ha, hu]
      exact h.avail (hm.mp hz)
  · have hmap : (y :: ys).map s'.availOf = (y :: ys).map s.availOf :=
      List.map_congr_left fun z hz => (hother z fun he => hxy (he ▸ hz)).1
    rw [hcurr, hmap, htotal]
    omega
  · rw [hsame.backed, hsame.initialSb]
    by_cases hzc : z = s.currSb
    · subst hzc
      exact (hself.resolve_left hz).1
    · rw [hcurr] at hnot
      exact h.outside ((hother z hzc).2.2.mp hz) fun hm => (List.mem_cons.mp hm).elim hzc hnot

/-- Removing the current block, which is free. -/
theorem Sound.freeCurrSb (h : Sound s (y :: ys)) (hav : s.availOf s.currSb = s.entriesPerBlock) :
    ∃ s', s.freeCurrSb = .ok s' ∧ Sound s' ys ∧ Trimmed s s' ∧
      s'.totalAvail + s.entriesPerBlock = s.totalAvail := by
  obtain ⟨s', hs', hlinked, hsame, hcurr, htotal, hother, hself⟩ := h.toLinked.freeCurrSb
  have hxy : s.currSb ∉ y :: ys := (List.nodup_cons.mp h.ring.nodup).1
  have hn := hsame.entriesPerBlock
  have hheld (z : β) : z ∈ s'.pool.held ↔ z ∈ y :: ys := by rw [hlinked.mem_held, hcurr]
  refine ⟨s', hs', ⟨hlinked, fun {z} hz hnot => ?_⟩, ⟨hsame, ?_, ?_, ?_, hsame.nested⟩, by omega⟩
  · rw [hn]
    by_cases hzc : z = s.currSb
    · subst hzc
      rw [hself hz, hav]
    · rw [(hother z hzc).1]
      rw [hcurr] at hnot
      exact h.unlinked ((hother z hzc).2.2.mp hz) fun hm => (List.mem_cons.mp hm).elim hzc hnot
  · ext ⟨z, i⟩
    rw [mem_live, mem_live, hheld, h.mem_held, hn]
    by_cases hzc : z = s.currSb
    · -- the block that is gone had no live entry
      subst hzc
      obtain ⟨c, hc⟩ := h.mem (List.mem_cons_self ..)
      have hfree := (h.availOf_eq_all (b := s.currSb) (by rw [hc]; simp)).mp hav
      refine iff_of_false (fun hl => hxy hl.1) fun hl => ?_
      rw [hfree i hl.2.1] at hl
      exact absurd hl.2.2 (by simp)
    · rw [(hother z hzc).2.1, List.mem_cons (a := z) (b := s.currSb)]
      simp only [hzc, false_or]
  · intro z hz
    exact h.mem_held.mpr (List.mem_cons_of_mem _ ((hheld z).mp hz))
  · exact fun e he => (mem_live.mp he).1

/-- The loop that releases free blocks after an entry was freed. It keeps
at least one more entry than a block has. -/
theorem Sound.releaseBlocks (h : Sound s xs) (hf : xs.length < fuel) :
    ∃ s' ys, releaseBlocks fuel s = .ok s' ∧ Sound s' ys ∧ Trimmed s s' ∧
      (s'.totalAvail = s.totalAvail ∨ s.entriesPerBlock < s'.totalAvail) := by
  induction fuel generalizing s xs with
  | zero => omega
  | succ fuel ih =>
    obtain ⟨c, hc⟩ := h.mem (List.mem_cons_self ..)
    unfold Slab.releaseBlocks
    rw [get_of_mem hc]
    simp only [Exec.ok_bind]
    split
    · next hcond =>
      have hnum := h.num
      obtain ⟨htotal, hmany, hav, -⟩ := hcond
      cases xs with
      | nil =>
        rw [List.length_nil] at hnum
        omega
      | cons y ys =>
        obtain ⟨s', hs', h', ht, hk⟩ := h.freeCurrSb ((availOf_eq hc).trans hav)
        obtain ⟨s₂, zs, hs₂, h₂, ht₂, hk₂⟩ := ih h' (by rw [List.length_cons] at hf; omega)
        rw [ht.same.entriesPerBlock] at hk₂
        rw [hs']
        exact ⟨s₂, zs, hs₂, h₂, ht.trans ht₂, by omega⟩
    · exact ⟨s, xs, rfl, h, .of_pool_eq (.refl s) rfl, .inl rfl⟩

/-- The loop that releases all free blocks but the initial one. -/
theorem Sound.freeEmptyBlocks (h : Sound s xs) :
    ∃ s' ys, freeEmptyBlocks k s = .ok s' ∧ Sound s' ys ∧ Trimmed s s' := by
  induction k generalizing s xs with
  | zero => exact ⟨s, xs, rfl, h, .of_pool_eq (.refl s) rfl⟩
  | succ k ih =>
    obtain ⟨c, hc⟩ := h.mem (List.mem_cons_self ..)
    have hadvance : ∃ ys, Sound { s with currSb := c.next } ys ∧ Trimmed s { s with currSb := c.next } := by
      cases xs with
      | nil =>
        rw [h.next_self hc]
        exact ⟨[], h, .of_pool_eq (.refl s) rfl⟩
      | cons y ys =>
        rw [h.next_eq hc]
        exact ⟨_, h.advance, .of_pool_eq ⟨rfl, rfl, rfl, rfl, rfl⟩
          (h.pool_moved h.advance.toLinked perm_rotate)⟩
    obtain ⟨ys, hadv, htadv⟩ := hadvance
    unfold Slab.freeEmptyBlocks
    rw [get_of_mem hc]
    simp only [Exec.ok_bind]
    split
    · next hcond =>
      have hfree : ∃ s' ys, s.freeCurrSb = .ok s' ∧ Sound s' ys ∧ Trimmed s s' := by
        cases xs with
        | nil =>
          refine ⟨_, ys, ?_, hadv, htadv⟩
          unfold Slab.freeCurrSb
          dsimp only
          rw [get_of_mem hc]
          simp only [Exec.ok_bind]
          rw [if_pos (by rw [h.num]; exact le_rfl)]
        | cons y ys =>
          obtain ⟨s', hs', h', ht, -⟩ := h.freeCurrSb ((availOf_eq hc).trans hcond.2)
          exact ⟨s', ys, hs', h', ht⟩
      obtain ⟨s', zs, hs', h', ht⟩ := hfree
      obtain ⟨s₂, ws, hs₂, h₂, ht₂⟩ := ih h'
      rw [hs']
      exact ⟨s₂, ws, hs₂, h₂, ht.trans ht₂⟩
    · obtain ⟨s₂, ws, hs₂, h₂, ht₂⟩ := ih hadv
      exact ⟨s₂, ws, hs₂, h₂, htadv.trans ht₂⟩

/-! ## Freeing and finding entries -/

theorem Sound.mem_held_of_used (h : Sound s xs) (hc : s.mem b = some c) (hi : i < s.entriesPerBlock)
    (hu : c.used i = true) : b ∈ s.currSb :: xs := by
  by_contra hnot
  have hpresent : s.mem b ≠ none := by
    rw [hc]
    simp
  have := (h.availOf_eq_all hpresent).mp (h.unlinked hpresent hnot) i hi
  rw [usedAt_eq hc, hu] at this
  cases this

theorem Sound.free (h : Sound s xs) (hb : s.mem b ≠ none) (hi : i < s.entriesPerBlock) :
    ∃ s' ys, s.free b i = .ok s' ∧ Sound s' ys ∧ Same s s' ∧
      Pool.Step s.slabSize s.entriesPerBlock s.pool (.free b i, .nothing) s'.pool ∧
      (s.totalAvail ≤ s'.totalAvail ∨ s.entriesPerBlock < s'.totalAvail) := by
  obtain ⟨c, hc⟩ := Option.ne_none_iff_exists'.mp hb
  unfold Slab.free
  rw [get_of_mem hc]
  simp only [Exec.ok_bind]
  by_cases hu : c.used i = false
  · rw [if_pos hu]
    refine ⟨s, xs, rfl, h, .refl s, .freeUnused fun hl => ?_, .inl le_rfl⟩
    have := (mem_live.mp hl).2.2
    rw [usedAt_eq hc, hu] at this
    cases this
  · have hused : c.used i = true := by simpa using hu
    have hring := h.mem_held_of_used hc hi hused
    obtain ⟨ys, hm, hperm⟩ := h.moveTo hring
    have hpool := h.pool_moved hm.toLinked hperm
    have hcount : c.avail = freeCount s.entriesPerBlock c.used := by
      rw [← availOf_eq hc, ← usedAt_eq hc]
      exact h.avail hb
    have hset := hm.setCurr (c.incAvail i) (s.totalAvail + 1) hc rfl rfl
      (show c.avail + 1 = freeCount s.entriesPerBlock (Function.update c.used i false) by
        rw [freeCount_release hi hused, hcount])
      (show s.totalAvail + 1 + c.avail = s.totalAvail + (c.avail + 1) by omega)
    have hlive : (b, i) ∈ s.pool.live := mem_live.mpr ⟨h.mem_held.mpr hring, hi, by rw [usedAt_eq hc, hused]⟩
    have hpool' := hm.pool_setCurr (s.pool.live \ {(b, i)}) hset (fun z j hz => ?_) fun j => ?_
    · have hfuel : ys.length < s.numBlocks := by
        have := hm.num
        change s.numBlocks = _ at this
        omega
      obtain ⟨s', zs, hs', h', ht, hk⟩ := hset.releaseBlocks hfuel
      rw [if_neg hu]
      refine ⟨s', zs, hs', h', ⟨ht.same.slabSize, ht.same.entriesPerBlock, ht.same.backed,
        ht.same.initialSb, ht.same.nested⟩, .free hlive ?_ ?_, ?_⟩
      · exact ht.live.trans (congrArg Pool.live hpool')
      · have hp := ht.pool
        rw [hpool', hpool] at hp
        exact hp
      · rcases hk with hk | hk
        · exact .inl (hk ▸ Nat.le_succ _)
        · exact .inr hk
    · rw [hpool]
      have hne : (z, j) ≠ (b, i) := fun he => hz (congrArg Prod.fst he)
      simp [hne]
    · show (b, j) ∈ s.pool.live \ {(b, i)} ↔ j < s.entriesPerBlock ∧ Function.update c.used i false j = true
      rw [Set.mem_sdiff, mem_live, usedAt_eq hc]
      by_cases hj : j = i
      · simp [hj]
      · simp [hj, h.mem_held.mpr hring]

omit [DecidableEq β] in
/-- All entries are free exactly if the counters say so. -/
theorem Sound.totalAvail_eq_iff (h : Sound s xs) :
    s.totalAvail = s.numBlocks * s.entriesPerBlock ↔
      ∀ b ∈ s.currSb :: xs, s.availOf b = s.entriesPerBlock := by
  have hle : ∀ b ∈ s.currSb :: xs, s.availOf b ≤ s.entriesPerBlock := by
    intro b hb
    obtain ⟨c, hc⟩ := h.mem hb
    rw [h.avail (by rw [hc]; simp)]
    exact freeCount_le
  have hlen : s.numBlocks = (s.currSb :: xs).length := by rw [h.num, List.length_cons]
  rw [h.total, hlen]
  generalize s.currSb :: xs = L at hle
  induction L with
  | nil => simp
  | cons a L ih =>
    have ha := hle a (List.mem_cons_self ..)
    have hL : (L.map s.availOf).sum ≤ L.length * s.entriesPerBlock := by
      have := List.sum_le_card_nsmul (L.map s.availOf) s.entriesPerBlock fun k hk => by
        obtain ⟨z, hz, rfl⟩ := List.mem_map.mp hk
        exact hle z (List.mem_cons_of_mem _ hz)
      rw [List.length_map] at this
      exact this
    have hrest : _ ↔ _ := ih fun z hz => hle z (List.mem_cons_of_mem _ hz)
    rw [List.map_cons, List.sum_cons, List.length_cons, Nat.succ_mul, List.forall_mem_cons, ← hrest]
    omega

omit [DecidableEq β] in
theorem Sound.anyUsedElem (h : Sound s xs) :
    ∃ r x ys, s.anyUsedElem = .ok (r, { s with currSb := x }) ∧ Sound { s with currSb := x } ys ∧
      Slab.pool { s with currSb := x } = s.pool ∧
      (r = none ∧ s.pool.live = ∅ ∨ ∃ e ∈ s.pool.live, r = some e) := by
  unfold Slab.anyUsedElem
  split
  · next hall =>
    refine ⟨none, s.currSb, xs, rfl, h, rfl, .inl ⟨rfl, ?_⟩⟩
    ext ⟨b, i⟩
    rw [mem_live, h.mem_held]
    refine iff_of_false (fun ⟨hb, hi, hu⟩ => ?_) (Set.notMem_empty _)
    obtain ⟨c, hc⟩ := h.mem hb
    have := (h.availOf_eq_all (by rw [hc]; simp)).mp (h.totalAvail_eq_iff.mp hall b hb) i hi
    rw [hu] at this
    cases this
  · next hsome =>
    obtain ⟨a, ha, hne⟩ := not_forall₂.mp (mt h.totalAvail_eq_iff.mpr hsome)
    obtain ⟨b, hfind⟩ := Option.isSome_iff_exists.mp
      (List.find?_isSome (p := fun b => decide (s.availOf b ≠ s.entriesPerBlock)).mpr
        ⟨a, ha, by simpa using hne⟩)
    obtain ⟨hb, as, bs, hsplit, has⟩ := List.find?_eq_some_iff_append.mp hfind
    have hav : s.availOf b ≠ s.entriesPerBlock := by simpa using hb
    have hlen : (s.currSb :: xs).length = as.length + (bs.length + 1) := by
      rw [hsplit, List.length_append, List.length_cons]
    rw [List.length_cons] at hlen
    have hnum := h.num
    obtain ⟨zs, hskip, hs, hperm⟩ := h.skipFree hsplit (fun z hz => by simpa using has z hz) hav
      (show as.length < s.numBlocks by omega)
    have hbring : b ∈ s.currSb :: xs := hperm.mem_iff.mp (List.mem_cons_self ..)
    obtain ⟨c, hc⟩ := h.mem hbring
    rw [Ne, h.availOf_eq_all (by rw [hc]; simp)] at hav
    obtain ⟨i, hi, hu⟩ := not_forall₂.mp hav
    rw [usedAt_eq hc] at hu
    have hentry : (c.anyUsedEntry s.entriesPerBlock).isSome := by
      rw [Block.anyUsedEntry, List.find?_isSome]
      exact ⟨i, List.mem_range.mpr hi, by simpa using hu⟩
    obtain ⟨j, hj⟩ := Option.isSome_iff_exists.mp hentry
    have hlt : j < s.entriesPerBlock := List.mem_range.mp (List.mem_of_find?_eq_some hj)
    have huse : c.used j = true := List.find?_some hj
    refine ⟨some (b, j), b, zs, ?_, hs, h.pool_moved hs.toLinked hperm, .inr ⟨(b, j), ?_, rfl⟩⟩
    · rw [hskip]
      simp only [Exec.ok_bind]
      rw [get_of_mem (s := { s with currSb := b }) hc]
      simp only [Exec.ok_bind]
      rw [hj]
      rfl
    · exact mem_live.mpr ⟨h.mem_held.mpr hbring, hlt, by rw [usedAt_eq hc, huse]⟩

/-! ## The destructor -/

/-- The loop of the destructor leaves one block. -/
theorem Linked.destroyBlocks (h : Linked s xs) (hf : xs.length < fuel) :
    ∃ s', destroyBlocks fuel s = .ok s' ∧ Linked s' [] ∧ Same s s' := by
  induction fuel generalizing s xs with
  | zero => omega
  | succ fuel ih =>
    have hnum := h.num
    unfold Slab.destroyBlocks
    cases xs with
    | nil =>
      rw [if_neg (by rw [hnum]; exact Nat.lt_irrefl 1)]
      exact ⟨s, rfl, h, .refl s⟩
    | cons y ys =>
      rw [List.length_cons] at hnum hf
      obtain ⟨c, hc⟩ := h.mem (List.mem_cons_self ..)
      rw [if_pos (by omega), get_of_mem hc]
      simp only [Exec.ok_bind]
      have hfree : ∃ s' zs, (if s.initialSb = some s.currSb then { s with currSb := c.next } else s).freeCurrSb =
          .ok s' ∧ Linked s' zs ∧ Same s s' ∧ zs.length = ys.length := by
        split
        · rw [h.next_eq hc]
          have hadv := h.advance
          cases ys with
          | nil =>
            obtain ⟨s', hs', h', hsame, -⟩ := hadv.freeCurrSb
            exact ⟨s', [], hs', h', ⟨hsame.1, hsame.2, hsame.3, hsame.4, hsame.5⟩, rfl⟩
          | cons z zs =>
            obtain ⟨s', hs', h', hsame, -⟩ := hadv.freeCurrSb
            exact ⟨s', zs ++ [s.currSb], hs', h', ⟨hsame.1, hsame.2, hsame.3, hsame.4, hsame.5⟩, by simp⟩
        · obtain ⟨s', hs', h', hsame, -⟩ := h.freeCurrSb
          exact ⟨s', ys, hs', h', hsame, rfl⟩
      obtain ⟨s', zs, hs', h', hsame, hlen⟩ := hfree
      obtain ⟨t, ht, h₂, hsame₂⟩ := ih h' (by omega)
      rw [hs']
      exact ⟨t, ht, h₂, hsame.trans hsame₂⟩

/-- The destructor gives back all blocks but the initial one. -/
theorem Linked.destroy (h : Linked s xs) (hb : s.backed = true) :
    ∃ t, s.destroy = .ok t ∧ ∀ b, t.mem b ≠ none → s.initialSb = some b := by
  have hnum := h.num
  obtain ⟨s', hs', h', hsame⟩ := h.destroyBlocks (show xs.length < s.numBlocks by omega)
  obtain ⟨c, hc⟩ := h'.mem (List.mem_cons_self ..)
  have hout (b : β) (hm : s'.mem b ≠ none) (hne : b ≠ s'.currSb) : s.initialSb = some b := by
    have := h'.outside hm (by simpa using hne)
    rw [hsame.backed, hsame.initialSb, hb] at this
    exact this.resolve_left (by simp)
  unfold Slab.destroy
  rw [if_neg (by rw [hb]; simp), hs']
  simp only [Exec.ok_bind]
  unfold releaseBackingStore
  rw [get_of_mem hc]
  simp only [Exec.ok_bind]
  split
  · refine ⟨_, rfl, fun b hm => ?_⟩
    by_cases hbc : b = s'.currSb
    · exact absurd (hbc ▸ Function.update_self ..) hm
    · refine hout b ?_ hbc
      have heq : Function.update s'.mem s'.currSb none b = s'.mem b := Function.update_of_ne hbc ..
      rw [← heq]
      exact hm
  · next hkeep =>
    refine ⟨_, rfl, fun b hm => ?_⟩
    by_cases hbc : b = s'.currSb
    · rw [Bool.and_eq_true, not_and_or, hsame.backed, hb, decide_eq_true_iff, not_not] at hkeep
      rw [hbc, ← hsame.initialSb]
      exact hkeep.resolve_left (by simp)
    · exact hout b hm hbc

end Genode.Base.Slab
