import Mathlib.Algebra.BigOperators.Group.List.Basic
import Mathlib.Data.Finset.Card
import Genode.Base.Slab

/-!
# SlabRing — the blocks of a slab

What the functions of the slab do to the ring of blocks and to the state
tables. The counters of the slab agree with the blocks at all times.
-/

namespace Genode.Base.Slab

open Lib

variable {β : Type} [DecidableEq β] {s s' t : Slab β} {xs ys : List β} {b x y : β} {c w : Block β}
  {n i : Nat} {used : Nat → Bool}

/-! ## Free entries of a block -/

/-- The number of free entries among the first `n`. -/
def freeCount (n : Nat) (used : Nat → Bool) : Nat := ((Finset.range n).filter (used · = false)).card

theorem freeCount_le : freeCount n used ≤ n := by
  have := Finset.card_filter_le (Finset.range n) (used · = false)
  rwa [Finset.card_range] at this

theorem freeCount_eq_iff : freeCount n used = n ↔ ∀ i < n, used i = false := by
  have := Finset.card_filter_eq_iff (s := Finset.range n) (p := (used · = false))
  rw [Finset.card_range] at this
  rw [freeCount, this]
  simp

theorem freeCount_eq_zero : freeCount n used = 0 ↔ ∀ i < n, used i = true := by
  rw [freeCount, Finset.card_eq_zero, Finset.filter_eq_empty_iff]
  simp

theorem freeCount_use (hi : i < n) (hu : used i = false) :
    freeCount n (Function.update used i true) + 1 = freeCount n used := by
  have hmem : i ∈ (Finset.range n).filter (used · = false) := by simp [hi, hu]
  have herase : (Finset.range n).filter (Function.update used i true · = false) =
      ((Finset.range n).filter (used · = false)).erase i := by
    ext j
    by_cases hj : j = i
    · simp [hj]
    · simp [hj]
  rw [freeCount, herase, freeCount]
  exact Finset.card_erase_add_one hmem

theorem freeCount_release (hi : i < n) (hu : used i = true) :
    freeCount n (Function.update used i false) = freeCount n used + 1 := by
  have hself : Function.update used i false i = false := Function.update_self ..
  have := freeCount_use hi hself
  rw [Function.update_idem] at this
  have heq : Function.update used i true = used := by
    rw [← hu]
    exact Function.update_eq_self i used
  rw [heq] at this
  exact this.symm

/-! ## What the memory holds -/

def nextOf (s : Slab β) (b : β) : Option β := (s.mem b).map Block.next

def prevOf (s : Slab β) (b : β) : Option β := (s.mem b).map Block.prev

def availOf (s : Slab β) (b : β) : Nat := (s.mem b).elim 0 Block.avail

def usedAt (s : Slab β) (b : β) (i : Nat) : Bool := (s.mem b).elim false fun c => c.used i

section Set

omit [DecidableEq β] in
theorem get_of_mem (h : s.mem b = some c) : s.get b = .ok c := by rw [get, h, Exec.deref_some]

@[simp] theorem mem_set_self : (s.set b c).mem b = some c := Function.update_self ..

theorem mem_set_of_ne (h : x ≠ b) : (s.set b c).mem x = s.mem x := Function.update_of_ne h ..

theorem nextOf_set : (s.set b c).nextOf = Function.update s.nextOf b (some c.next) := by
  funext x
  by_cases h : x = b
  · rw [h, nextOf, mem_set_self, Function.update_self]
    rfl
  · rw [nextOf, mem_set_of_ne h, Function.update_of_ne h, nextOf]

theorem prevOf_set : (s.set b c).prevOf = Function.update s.prevOf b (some c.prev) := by
  funext x
  by_cases h : x = b
  · rw [h, prevOf, mem_set_self, Function.update_self]
    rfl
  · rw [prevOf, mem_set_of_ne h, Function.update_of_ne h, prevOf]

theorem availOf_set : (s.set b c).availOf = Function.update s.availOf b c.avail := by
  funext x
  by_cases h : x = b
  · rw [h, availOf, mem_set_self, Function.update_self]
    rfl
  · rw [availOf, mem_set_of_ne h, Function.update_of_ne h, availOf]

theorem usedAt_set : (s.set b c).usedAt = Function.update s.usedAt b c.used := by
  funext x
  by_cases h : x = b
  · rw [h, Function.update_self]
    funext i
    rw [usedAt, mem_set_self]
    rfl
  · rw [Function.update_of_ne h]
    funext i
    rw [usedAt, mem_set_of_ne h, usedAt]

/-- Blocks of the same kind are in memory. -/
theorem mem_set_ne_none (h : s.mem b = some w) : (s.set b c).mem x ≠ none ↔ s.mem x ≠ none := by
  by_cases hx : x = b
  · rw [hx, mem_set_self, h]
    simp
  · rw [mem_set_of_ne hx]

end Set

/-- What no call changes, apart from the flag of nested allocations. -/
structure Same (s s' : Slab β) : Prop where
  slabSize : s'.slabSize = s.slabSize
  entriesPerBlock : s'.entriesPerBlock = s.entriesPerBlock
  backed : s'.backed = s.backed
  initialSb : s'.initialSb = s.initialSb
  nested : s'.nested = s.nested

omit [DecidableEq β] in
theorem Same.refl (s : Slab β) : Same s s := ⟨rfl, rfl, rfl, rfl, rfl⟩

omit [DecidableEq β] in
theorem Same.trans (h : Same s s') (h' : Same s' t) : Same s t :=
  ⟨h'.slabSize.trans h.slabSize, h'.entriesPerBlock.trans h.entriesPerBlock, h'.backed.trans h.backed,
    h'.initialSb.trans h.initialSb, h'.nested.trans h.nested⟩

/-- Only the links of blocks differ. -/
structure Relinked (s s' : Slab β) : Prop where
  avail : s'.availOf = s.availOf
  used : s'.usedAt = s.usedAt
  present : ∀ b, s'.mem b ≠ none ↔ s.mem b ≠ none

theorem relinked_setNext (h : s.mem b = some c) : Relinked s (s.set b { c with next := x }) ∧
    (s.set b { c with next := x }).nextOf = Function.update s.nextOf b (some x) ∧
    (s.set b { c with next := x }).prevOf = s.prevOf := by
  have ha : s.availOf b = c.avail := by rw [availOf, h]; rfl
  have hp : s.prevOf b = some c.prev := by rw [prevOf, h]; rfl
  have hu : s.usedAt b = c.used := by funext i; rw [usedAt, h]; rfl
  refine ⟨⟨?_, ?_, fun _ => mem_set_ne_none h⟩, nextOf_set, ?_⟩
  · rw [availOf_set]
    exact ha ▸ Function.update_eq_self b s.availOf
  · rw [usedAt_set]
    exact hu ▸ Function.update_eq_self b s.usedAt
  · rw [prevOf_set]
    exact hp ▸ Function.update_eq_self b s.prevOf

theorem relinked_setPrev (h : s.mem b = some c) : Relinked s (s.set b { c with prev := x }) ∧
    (s.set b { c with prev := x }).nextOf = s.nextOf ∧
    (s.set b { c with prev := x }).prevOf = Function.update s.prevOf b (some x) := by
  have ha : s.availOf b = c.avail := by rw [availOf, h]; rfl
  have hn : s.nextOf b = some c.next := by rw [nextOf, h]; rfl
  have hu : s.usedAt b = c.used := by funext i; rw [usedAt, h]; rfl
  refine ⟨⟨?_, ?_, fun _ => mem_set_ne_none h⟩, ?_, prevOf_set⟩
  · rw [availOf_set]
    exact ha ▸ Function.update_eq_self b s.availOf
  · rw [usedAt_set]
    exact hu ▸ Function.update_eq_self b s.usedAt
  · rw [nextOf_set]
    exact hn ▸ Function.update_eq_self b s.nextOf

omit [DecidableEq β] in
theorem Relinked.trans (h : Relinked s s') (h' : Relinked s' t) : Relinked s t where
  avail := h'.avail.trans h.avail
  used := h'.used.trans h.used
  present b := (h'.present b).trans (h.present b)

omit [DecidableEq β] in
/-- A block that is in a ring is in memory. -/
theorem exists_mem (h : s.nextOf b = some x) : ∃ c, s.mem b = some c ∧ c.next = x :=
  Option.map_eq_some_iff.mp h

/-! ## Inserting and removing blocks -/

omit [DecidableEq β] in
theorem mem_of_ring (h : Ring s.nextOf s.prevOf s.currSb xs) (hb : b ∈ s.currSb :: xs) :
    ∃ c, s.mem b = some c := by
  obtain ⟨x, -, hx, -⟩ := h.next_mem hb
  obtain ⟨c, hc, -⟩ := exists_mem hx
  exact ⟨c, hc⟩

theorem insertBlock_spec (h : Ring s.nextOf s.prevOf s.currSb xs) (hb : s.mem b = none) :
    ∃ s', (s.newBlock b).insertBlock b = .ok s' ∧ Ring s'.nextOf s'.prevOf s'.currSb (b :: xs) ∧
      s'.availOf = Function.update s.availOf b s.entriesPerBlock ∧
      s'.usedAt = Function.update s.usedAt b (fun _ => false) ∧
      (∀ x, s'.mem x ≠ none ↔ x = b ∨ s.mem x ≠ none) ∧ Same s s' ∧ s'.currSb = s.currSb ∧
      s'.totalAvail = s.totalAvail + s.entriesPerBlock ∧ s'.numBlocks = s.numBlocks + 1 := by
  have hnot : b ∉ s.currSb :: xs := by
    intro hm
    obtain ⟨c, hc⟩ := mem_of_ring h hm
    rw [hb] at hc
    cases hc
  have hbc : b ≠ s.currSb := fun he => hnot (he ▸ List.mem_cons_self ..)
  obtain ⟨w, hw, hnext, hprev⟩ := h.next_mem (List.mem_cons_self (a := s.currSb) (l := xs))
  have hwb : w ≠ b := fun he => hnot (he ▸ hw)
  obtain ⟨c, hc, rfl⟩ := exists_mem hnext
  obtain ⟨d, hd⟩ := mem_of_ring h hw
  -- the four links, one after the other
  set s₀ := s.newBlock b with hs₀
  have hc₀ : s₀.mem s.currSb = some c := (mem_set_of_ne hbc.symm).trans hc
  have hb₀ : s₀.mem b = some ⟨b, b, s.entriesPerBlock, fun _ => false⟩ := mem_set_self
  set s₁ := s₀.set b ⟨c.next, s.currSb, s.entriesPerBlock, fun _ => false⟩ with hs₁
  have hw₁ : s₁.mem c.next = some d :=
    (mem_set_of_ne hwb).trans ((mem_set_of_ne hwb).trans hd)
  obtain ⟨hr₂, hn₂, hp₂⟩ := relinked_setPrev (x := b) hw₁
  set s₂ := s₁.set c.next { d with prev := b } with hs₂
  obtain ⟨e, he⟩ : ∃ e, s₂.mem s.currSb = some e := by
    have hc₁ : s₁.mem s.currSb = some c := (mem_set_of_ne hbc.symm).trans hc₀
    have := (hr₂.present s.currSb).mpr (by rw [hc₁]; simp)
    exact Option.ne_none_iff_exists'.mp this
  obtain ⟨hr₃, hn₃, hp₃⟩ := relinked_setNext (x := b) he
  set s₃ := s₂.set s.currSb { e with next := b } with hs₃
  have hr := hr₂.trans hr₃
  refine ⟨{ s₃ with totalAvail := s.totalAvail + s.entriesPerBlock, numBlocks := s.numBlocks + 1 },
    ?_, ?_, ?_, ?_, fun x => ?_, ⟨rfl, rfl, rfl, rfl, rfl⟩, rfl, rfl, rfl⟩
  · unfold insertBlock
    rw [get_of_mem (show s₀.mem s₀.currSb = some c from hc₀)]
    simp only [Exec.ok_bind]
    rw [get_of_mem hb₀]
    simp only [Exec.ok_bind]
    change (s₁.get c.next >>= _) = _
    rw [get_of_mem hw₁]
    simp only [Exec.ok_bind]
    change (s₂.get s.currSb >>= _) = _
    rw [get_of_mem he]
    rfl
  · have hins := h.insert hnot hnext
    have hnexts : s₃.nextOf = Function.update (Function.update s.nextOf b (some c.next)) s.currSb (some b) := by
      rw [hn₃, hn₂, hs₁, nextOf_set, hs₀, newBlock, nextOf_set, Function.update_idem]
    have hprevs : s₃.prevOf = Function.update (Function.update s.prevOf b (some s.currSb)) c.next (some b) := by
      rw [hp₃, hp₂, hs₁, prevOf_set, hs₀, newBlock, prevOf_set, Function.update_idem]
    rw [← hnexts, ← hprevs] at hins
    exact hins
  · change s₃.availOf = _
    rw [hr.avail, hs₁, availOf_set, hs₀, newBlock, availOf_set, Function.update_idem]
  · change s₃.usedAt = _
    rw [hr.used, hs₁, usedAt_set, hs₀, newBlock, usedAt_set, Function.update_idem]
  · refine (hr.present x).trans ?_
    by_cases hx : x = b
    · subst hx
      rw [hs₁, mem_set_self]
      simp
    · rw [hs₁, mem_set_of_ne hx, hs₀, newBlock, mem_set_of_ne hx]
      simp [hx]

/-- Removing the current block, if it is not the last one. -/
theorem freeCurrSb_spec (h : Ring s.nextOf s.prevOf s.currSb (y :: ys)) (hnum : 1 < s.numBlocks) :
    ∃ s', s.freeCurrSb = .ok s' ∧ Ring s'.nextOf s'.prevOf y ys ∧
      (∀ x, x ≠ s.currSb → s'.availOf x = s.availOf x ∧ s'.usedAt x = s.usedAt x ∧
        (s'.mem x ≠ none ↔ s.mem x ≠ none)) ∧
      (s'.mem s.currSb = none ∨ (s.backed = false ∨ s.initialSb = some s.currSb) ∧
        s'.availOf s.currSb = s.availOf s.currSb ∧ s'.usedAt s.currSb = s.usedAt s.currSb) ∧
      Same s s' ∧ s'.currSb = y ∧ s'.totalAvail = s.totalAvail - s.availOf s.currSb ∧
      s'.numBlocks = s.numBlocks - 1 := by
  have hxy : s.currSb ∉ y :: ys := (List.nodup_cons.mp h.nodup).1
  obtain ⟨w, hprev⟩ : ∃ w, s.prevOf s.currSb = some w := by
    obtain ⟨c, hc⟩ := mem_of_ring h (List.mem_cons_self ..)
    exact ⟨c.prev, by rw [prevOf, hc]; rfl⟩
  have hring := h.remove hprev
  obtain ⟨zs, hlast⟩ := h.prev_eq hprev
  have hwm : w ∈ y :: ys := by
    rw [hlast]
    simp
  obtain ⟨c, hc, rfl⟩ := exists_mem h.next_eq
  obtain rfl : c.prev = w := by
    rw [prevOf, hc] at hprev
    exact Option.some.inj hprev
  have hne {z : β} (hz : z ∈ c.next :: ys) : s.currSb ≠ z := fun he => hxy (he ▸ hz)
  -- the two links around the block
  set s₀ : Slab β := { s with currSb := c.next } with hs₀
  obtain ⟨p, hp⟩ := mem_of_ring h (List.mem_cons_of_mem _ hwm)
  obtain ⟨hr₁, hn₁, hp₁⟩ := relinked_setNext (s := s₀) (x := c.next) hp
  set s₁ := s₀.set c.prev { p with next := c.next } with hs₁
  obtain ⟨q, hq⟩ : ∃ q, s₁.mem c.next = some q := by
    obtain ⟨q, hq⟩ := mem_of_ring h (List.mem_cons_of_mem _ (List.mem_cons_self (a := c.next) (l := ys)))
    exact Option.ne_none_iff_exists'.mp ((hr₁.present c.next).mpr (by rw [hs₀, hq]; simp))
  obtain ⟨hr₂, hn₂, hp₂⟩ := relinked_setPrev (x := c.prev) hq
  set s₂ := s₁.set c.next { q with prev := c.prev } with hs₂
  have hr : Relinked s₀ s₂ := hr₁.trans hr₂
  have hc₂ : s₂.mem s.currSb = some c := by
    rw [hs₂, mem_set_of_ne (hne (List.mem_cons_self ..)), hs₁, mem_set_of_ne (hne hwm)]
    exact hc
  have hring₂ : Ring s₂.nextOf s₂.prevOf c.next ys := by
    rw [hn₂, hn₁, hp₂, hp₁]
    exact hring
  have havail : s.availOf s.currSb = c.avail := by
    rw [availOf, hc]
    rfl
  have hcode : s.freeCurrSb = s₂.releaseBackingStore s.currSb := by
    unfold freeCurrSb
    dsimp only
    rw [get_of_mem hc]
    simp only [Exec.ok_bind]
    rw [if_neg (by omega)]
    change (s₀.get c.prev >>= _) = _
    rw [get_of_mem (s := s₀) hp]
    simp only [Exec.ok_bind]
    change (s₁.get c.next >>= _) = _
    rw [get_of_mem hq]
    rfl
  rw [hcode]
  unfold releaseBackingStore
  rw [get_of_mem hc₂]
  simp only [Exec.ok_bind]
  split
  · -- the block is given back
    have hmem (x : β) (hx : x ≠ s.currSb) : Function.update s₂.mem s.currSb none x = s₂.mem x :=
      Function.update_of_ne hx ..
    refine ⟨_, rfl, hring₂.congr (fun z hz => ?_) (fun z hz => ?_), fun x hx => ⟨?_, ?_, ?_⟩,
      .inl (Function.update_self ..), ⟨rfl, rfl, rfl, rfl, rfl⟩, rfl, ?_, rfl⟩
    · exact congrArg (Option.map Block.next) (hmem z (hne hz).symm)
    · exact congrArg (Option.map Block.prev) (hmem z (hne hz).symm)
    · exact (congrArg (Option.elim · 0 Block.avail) (hmem x hx)).trans (congrFun hr.avail x)
    · refine (funext fun i => ?_ : _ = s₂.usedAt x).trans (congrFun hr.used x)
      exact congrArg (Option.elim · false fun c => c.used i) (hmem x hx)
    · show Function.update s₂.mem s.currSb none x ≠ none ↔ _
      rw [hmem x hx]
      exact hr.present x
    · rw [havail]
      rfl
  · next hkeep =>
    refine ⟨_, rfl, hring₂, fun x _ => ⟨congrFun hr.avail x, congrFun hr.used x, hr.present x⟩,
      .inr ⟨?_, congrFun hr.avail _, congrFun hr.used _⟩, ⟨rfl, rfl, rfl, rfl, rfl⟩, rfl, ?_, rfl⟩
    · rw [Bool.and_eq_true, not_and_or, Bool.not_eq_true, decide_eq_true_iff, not_not] at hkeep
      exact hkeep
    · rw [havail]
      rfl

/-! ## The counters -/

/-- The current block and `xs` are the ring, and the counters agree with it. -/
structure Linked (s : Slab β) (xs : List β) : Prop where
  ring : Ring s.nextOf s.prevOf s.currSb xs
  num : s.numBlocks = xs.length + 1
  avail : ∀ {b}, s.mem b ≠ none → s.availOf b = freeCount s.entriesPerBlock (s.usedAt b)
  total : s.totalAvail = ((s.currSb :: xs).map s.availOf).sum
  outside : ∀ {b}, s.mem b ≠ none → b ∉ s.currSb :: xs → s.backed = false ∨ s.initialSb = some b

/-- Blocks that are not in the ring any more are free. -/
structure Sound (s : Slab β) (xs : List β) : Prop extends Linked s xs where
  unlinked : ∀ {b}, s.mem b ≠ none → b ∉ s.currSb :: xs → s.availOf b = s.entriesPerBlock

omit [DecidableEq β] in
theorem Linked.mem (h : Linked s xs) (hb : b ∈ s.currSb :: xs) : ∃ c, s.mem b = some c :=
  mem_of_ring h.ring hb

omit [DecidableEq β] in
theorem availOf_eq (h : s.mem b = some c) : s.availOf b = c.avail := by
  rw [availOf, h]
  rfl

omit [DecidableEq β] in
theorem usedAt_eq (h : s.mem b = some c) : s.usedAt b = c.used := by
  funext i
  rw [usedAt, h]
  rfl

omit [DecidableEq β] in
/-- A block behind the current one. -/
theorem Linked.next_eq (h : Linked s (y :: ys)) (hc : s.mem s.currSb = some c) : c.next = y := by
  have := h.ring.next_eq
  rw [nextOf, hc] at this
  exact Option.some.inj this

omit [DecidableEq β] in
theorem Linked.next_self (h : Linked s []) (hc : s.mem s.currSb = some c) : c.next = s.currSb := by
  have := h.ring.next_self
  rw [nextOf, hc] at this
  exact Option.some.inj this

/-! ## Moving on -/

section Moving

omit [DecidableEq β]

theorem perm_rotate : (y :: (ys ++ [x])).Perm (x :: y :: ys) :=
  List.perm_append_singleton x (y :: ys)

theorem Linked.advance (h : Linked s (y :: ys)) : Linked { s with currSb := y } (ys ++ [s.currSb]) where
  ring := h.ring.rotate
  num := by
    have := h.num
    simp only [List.length_cons, List.length_append, List.length_nil] at this ⊢
    exact this
  avail := h.avail
  total := h.total.trans (perm_rotate.map s.availOf).sum_eq.symm
  outside := fun hm hb => h.outside hm fun hin => hb (Ring.mem_rotate.mpr hin)

theorem Sound.advance (h : Sound s (y :: ys)) : Sound { s with currSb := y } (ys ++ [s.currSb]) where
  toLinked := h.toLinked.advance
  unlinked := fun hm hb => h.unlinked hm fun hin => hb (Ring.mem_rotate.mpr hin)

/-- The ring, seen from one of its blocks. -/
theorem Sound.moveTo (h : Sound s xs) (hb : b ∈ s.currSb :: xs) :
    ∃ ys, Sound { s with currSb := b } ys ∧ (b :: ys).Perm (s.currSb :: xs) := by
  obtain ⟨as, bs, hsplit⟩ := List.append_of_mem hb
  induction as generalizing s xs bs with
  | nil =>
    obtain ⟨rfl, rfl⟩ := List.cons.inj hsplit
    exact ⟨xs, h, List.Perm.refl _⟩
  | cons a as ih =>
    obtain ⟨rfl, hxs⟩ := List.cons.inj hsplit
    cases xs with
    | nil => simp at hxs
    | cons y ys =>
      have hsplit' : y :: (ys ++ [s.currSb]) = as ++ b :: (bs ++ [s.currSb]) := by
        rw [← List.cons_append, hxs]
        simp
      obtain ⟨zs, hz, hperm⟩ := ih h.advance (Ring.mem_rotate.mpr hb) (bs ++ [s.currSb]) hsplit'
      exact ⟨zs, hz, hperm.trans perm_rotate⟩

end Moving

/-- The loop for an allocation ends at a block with a free entry, if there
is one. The blocks that it has seen are `ws`. -/
theorem Sound.skipOccupied {orig : β} (ws : List β) {fuel : Nat} (h : Sound s (ys ++ ws))
    (hws : ∀ z ∈ ws, s.availOf z = 0) (horig : ws.head?.getD s.currSb = orig) (hf : ys.length < fuel) :
    ∃ x zs, skipOccupied orig fuel s = .ok { s with currSb := x } ∧ Sound { s with currSb := x } zs ∧
      (x :: zs).Perm (s.currSb :: (ys ++ ws)) ∧
      (s.availOf x = 0 → ∀ z ∈ s.currSb :: (ys ++ ws), s.availOf z = 0) := by
  induction ys generalizing s ws fuel with
  | nil =>
    obtain ⟨fuel, rfl⟩ := Nat.exists_eq_add_one_of_ne_zero (Nat.ne_zero_of_lt hf)
    obtain ⟨c, hc⟩ := h.mem (List.mem_cons_self ..)
    have hnext : c.next = orig := by
      cases ws with
      | nil => exact (h.next_self hc).trans horig
      | cons w ws => exact (h.next_eq hc).trans horig
    refine ⟨s.currSb, ws, ?_, h, List.Perm.refl _, fun hz z hzm => ?_⟩
    · unfold Slab.skipOccupied
      rw [get_of_mem hc]
      simp only [Exec.ok_bind, if_pos hnext, ite_self]
    · rcases List.mem_cons.mp hzm with rfl | hzm
      · exact hz
      · exact hws z hzm
  | cons y ys ih =>
    obtain ⟨fuel, rfl⟩ := Nat.exists_eq_add_one_of_ne_zero (Nat.ne_zero_of_lt hf)
    obtain ⟨c, hc⟩ := h.mem (List.mem_cons_self ..)
    unfold Slab.skipOccupied
    rw [get_of_mem hc]
    simp only [Exec.ok_bind]
    by_cases hav : c.avail ≠ 0
    · rw [if_pos hav]
      refine ⟨s.currSb, _, rfl, h, List.Perm.refl _, fun hz => ?_⟩
      rw [availOf_eq hc] at hz
      exact absurd hz hav
    · have hnext : c.next = y := h.next_eq hc
      have hne : y ≠ orig := by
        have hnd := h.ring.nodup
        rintro rfl
        cases ws with
        | nil =>
          have hself : s.currSb = y := horig
          simp [hself] at hnd
        | cons w ws =>
          have hself : w = y := horig
          simp [hself] at hnd
      rw [if_neg hav, hnext, if_neg hne]
      have hadv : Sound { s with currSb := y } (ys ++ (ws ++ [s.currSb])) := by
        have hadv : Sound { s with currSb := y } (ys ++ ws ++ [s.currSb]) := h.advance
        rwa [List.append_assoc] at hadv
      have hws' : ∀ z ∈ ws ++ [s.currSb], s.availOf z = 0 := by
        intro z hz
        rcases List.mem_append.mp hz with hz | hz
        · exact hws z hz
        · rw [List.mem_singleton.mp hz, availOf_eq hc]
          simpa using hav
      have horig' : (ws ++ [s.currSb]).head?.getD y = orig := by
        cases ws with
        | nil => exact horig
        | cons w ws => exact horig
      obtain ⟨x, zs, hskip, hs, hperm, hall⟩ := ih _ hadv hws' horig' (Nat.lt_of_succ_lt_succ hf)
      have hrot : (y :: (ys ++ (ws ++ [s.currSb]))).Perm (s.currSb :: (y :: ys ++ ws)) := by
        rw [← List.append_assoc]
        exact perm_rotate
      exact ⟨x, zs, hskip, hs, hperm.trans hrot, fun hx z hz => hall hx z (hrot.mem_iff.mpr hz)⟩

omit [DecidableEq β] in
/-- The loop for a used entry ends at a block that has one. -/
theorem Sound.skipFree {fuel : Nat} (h : Sound s xs) {as bs : List β} (hsplit : s.currSb :: xs = as ++ b :: bs)
    (has : ∀ z ∈ as, s.availOf z = s.entriesPerBlock) (hb : s.availOf b ≠ s.entriesPerBlock)
    (hf : as.length < fuel) :
    ∃ zs, skipFree fuel s = .ok { s with currSb := b } ∧ Sound { s with currSb := b } zs ∧
      (b :: zs).Perm (s.currSb :: xs) := by
  induction as generalizing s xs bs fuel with
  | nil =>
    obtain ⟨fuel, rfl⟩ := Nat.exists_eq_add_one_of_ne_zero (Nat.ne_zero_of_lt hf)
    obtain ⟨rfl, rfl⟩ := List.cons.inj hsplit
    obtain ⟨c, hc⟩ := h.mem (List.mem_cons_self ..)
    rw [availOf_eq hc] at hb
    refine ⟨xs, ?_, h, List.Perm.refl _⟩
    unfold Slab.skipFree
    rw [get_of_mem hc]
    simp only [Exec.ok_bind, if_neg hb]
  | cons a as ih =>
    obtain ⟨fuel, rfl⟩ := Nat.exists_eq_add_one_of_ne_zero (Nat.ne_zero_of_lt hf)
    obtain ⟨rfl, hxs⟩ := List.cons.inj hsplit
    obtain ⟨c, hc⟩ := h.mem (List.mem_cons_self ..)
    have hav := has s.currSb (List.mem_cons_self ..)
    rw [availOf_eq hc] at hav
    cases xs with
    | nil => simp at hxs
    | cons y ys =>
      have hsplit' : y :: (ys ++ [s.currSb]) = as ++ b :: (bs ++ [s.currSb]) := by
        rw [← List.cons_append, hxs]
        simp
      obtain ⟨zs, hskip, hz, hperm⟩ := ih h.advance hsplit'
        (fun z hz => has z (List.mem_cons_of_mem _ hz)) hb (Nat.lt_of_succ_lt_succ hf)
      refine ⟨zs, ?_, hz, hperm.trans perm_rotate⟩
      unfold Slab.skipFree
      rw [get_of_mem hc]
      simp only [Exec.ok_bind, if_pos hav]
      rw [h.next_eq hc]
      exact hskip

end Genode.Base.Slab
