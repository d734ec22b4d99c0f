import Genode.Base.SlabPool

/-!
# SlabRuns — runs of the slab

Every run of the slab is a run of a pool. If the backing store gives a
block whenever it is asked, and uses at most three entries of the slab
meanwhile, there is always an entry left.
-/

namespace Genode.Base.Slab

open Lib

variable {β : Type} [DecidableEq β] {s s' : Slab β} {xs : List β} {b : β} {slabSize blockSize n : Nat}
  {backed : Bool} {initialSb : Option β} {hist : List (Slab β × Call β × Reply β)}

/-! ## One call -/

/-- The spec of a call. -/
theorem Sound.step (h : Sound s xs) {c : Call β} (hc : s.Allowed c) :
    ∃ r s' ys, s.call c = .ok (r, s') ∧ Sound s' ys ∧
      s'.slabSize = s.slabSize ∧ s'.entriesPerBlock = s.entriesPerBlock ∧ s'.backed = s.backed ∧
      s'.initialSb = s.initialSb ∧
      Pool.Step s.slabSize s.entriesPerBlock s.pool (c, r) s'.pool := by
  cases c with
  | alloc size =>
    unfold call
    dsimp only
    split
    · next hsize => exact ⟨_, s, xs, rfl, h, rfl, rfl, rfl, rfl, .full (.inl hsize)⟩
    · next hsize =>
      split
      · next hexp =>
        have hnot : s.nested = false := by
          rw [expands, Bool.and_eq_true] at hexp
          simpa using hexp.2
        exact ⟨_, _, xs, rfl, ⟨⟨h.ring, h.num, h.avail, h.total, h.outside⟩, h.unlinked⟩, rfl, rfl, rfl,
          rfl, .ask (by omega) hnot⟩
      · rcases h.takeEntry with ⟨-, hfull, x, ys, ht, hs, hp⟩ | ⟨b, i, s', ys, ht, hs, hb, hi, hfree, hp, -, hsame⟩
        · refine ⟨_, _, ys, by rw [ht]; rfl, hs, rfl, rfl, rfl, rfl, ?_⟩
          rw [hp]
          exact .full (.inr hfull)
        · refine ⟨_, s', ys, by rw [ht]; rfl, hs, hsame.1, hsame.2, hsame.3, hsame.4, ?_⟩
          rw [hp]
          exact .alloc (by omega) hb hi hfree
  | answer r =>
    cases r with
    | error e =>
      exact ⟨_, _, xs, rfl, ⟨⟨h.ring, h.num, h.avail, h.total, h.outside⟩, h.unlinked⟩, rfl, rfl, rfl, rfl,
        .answerFailed⟩
    | ok b =>
      obtain ⟨s₁, hs₁, h₁, hnot, hp₁, -, hsame₁⟩ := h.insertBlock (Option.isNone_iff_eq_none.mp hc.2)
      have h₂ : Sound { s₁ with nested := false } (b :: xs) :=
        ⟨⟨h₁.ring, h₁.num, h₁.avail, h₁.total, h₁.outside⟩, h₁.unlinked⟩
      have hp₂ : Slab.pool { s₁ with nested := false } =
          ⟨insert b s.pool.held, s.pool.live, false⟩ :=
        congrArg (fun P : Pool β => { P with asking := false }) hp₁
      have hn : s₁.entriesPerBlock = s.entriesPerBlock := hsame₁.entriesPerBlock
      unfold call
      dsimp only
      rw [hs₁]
      simp only [Exec.ok_bind]
      rcases h₂.takeEntry with ⟨-, hfull, x, ys, ht, hs, hp⟩ | ⟨b', i, s', ys, ht, hs, hb, hi, hfree, hp, -, hsame⟩
      · refine ⟨_, _, ys, by rw [ht]; rfl, hs, hsame₁.1, hsame₁.2, hsame₁.3, hsame₁.4, ?_⟩
        rw [hp, hp₂]
        rw [hp₂] at hfull
        exact .answerFull hnot (hn ▸ hfull)
      · refine ⟨_, s', ys, by rw [ht]; rfl, hs, hsame.1.trans hsame₁.1, hsame.2.trans hsame₁.2,
          hsame.3.trans hsame₁.3, hsame.4.trans hsame₁.4, ?_⟩
        rw [hp, hp₂]
        rw [hp₂] at hb hfree
        exact .answer hnot hb (hn ▸ hi) hfree
  | free b i =>
    obtain ⟨s', ys, hs', h', hsame, hstep, -⟩ := h.free (Option.isSome_iff_ne_none.mp hc.1) hc.2
    exact ⟨_, s', ys, by rw [call, hs']; rfl, h', hsame.1, hsame.2, hsame.3, hsame.4, hstep⟩
  | insertSb b =>
    obtain ⟨s', hs', h', hnot, hp, -, hsame⟩ := h.insertBlock (Option.isNone_iff_eq_none.mp hc)
    refine ⟨_, s', _, by rw [call, hs']; rfl, h', hsame.1, hsame.2, hsame.3, hsame.4, ?_⟩
    rw [hp]
    exact .insertSb hnot
  | freeEmptyBlocks =>
    obtain ⟨s', ys, hs', h', ht⟩ := h.freeEmptyBlocks (k := s.numBlocks)
    exact ⟨_, s', ys, by rw [call, hs']; rfl, h', ht.same.1, ht.same.2, ht.same.3, ht.same.4,
      .freeEmptyBlocks ht.live ht.pool⟩
  | anyUsedElem =>
    obtain ⟨r, x, ys, hs', h', hp, hr⟩ := h.anyUsedElem
    rcases hr with ⟨rfl, hlive⟩ | ⟨e, he, rfl⟩
    · refine ⟨_, _, ys, by rw [call, hs']; rfl, h', rfl, rfl, rfl, rfl, ?_⟩
      rw [hp]
      exact .noUsedElem hlive
    · refine ⟨_, _, ys, by rw [call, hs']; rfl, h', rfl, rfl, rfl, rfl, ?_⟩
      rw [hp]
      exact .usedElem he

/-! ## Runs -/

/-- A new slab with a first block. -/
def Init (slabSize blockSize : Nat) (backed : Bool) (initialSb : Option β) (b : β) (s : Slab β) : Prop :=
  s = .new slabSize blockSize backed initialSb b

/-- The state of a slab with these parameters. -/
def Valid (slabSize n : Nat) (backed : Bool) (initialSb : Option β) (s : Slab β) : Prop :=
  (∃ xs, Sound s xs) ∧ s.slabSize = slabSize ∧ s.entriesPerBlock = n ∧ s.backed = backed ∧
    s.initialSb = initialSb

theorem sound_new : Sound (new slabSize blockSize backed initialSb b) [] ∧
    (new slabSize blockSize backed initialSb b).pool = ⟨{b}, ∅, false⟩ := by
  set s : Slab β := new slabSize blockSize backed initialSb b with hs
  have hmem (x : β) : s.mem x ≠ none ↔ x = b := by
    by_cases hx : x = b
    · rw [hx, hs, new, newBlock, mem_set_self]
      simp
    · rw [hs, new, newBlock, mem_set_of_ne hx]
      simp [hx]
  have hself : s.mem b = some ⟨b, b, s.entriesPerBlock, fun _ => false⟩ := mem_set_self
  have hav : s.availOf b = s.entriesPerBlock := availOf_eq hself
  have hused : s.usedAt b = fun _ => false := usedAt_eq hself
  have hring : Ring s.nextOf s.prevOf s.currSb [] := by
    refine Ring.single ?_ ?_
    · show (s.mem b).map Block.next = some b
      rw [hself]
      rfl
    · show (s.mem b).map Block.prev = some b
      rw [hself]
      rfl
  have hsound : Sound s [] := by
    refine ⟨⟨hring, rfl, fun {x} hx => ?_, ?_, fun {x} hx hout => ?_⟩, fun {x} hx hout => ?_⟩
    · rw [(hmem x).mp hx, hav, hused]
      exact (freeCount_eq_iff.mpr fun _ _ => rfl).symm
    · show s.entriesPerBlock = s.availOf b + 0
      rw [hav, Nat.add_zero]
    · exact absurd ((hmem x).mp hx ▸ List.mem_cons_self ..) hout
    · exact absurd ((hmem x).mp hx ▸ List.mem_cons_self ..) hout
  refine ⟨hsound, hsound.pool_eq (fun x => List.mem_singleton) (fun x i hx => ?_) (by simp) rfl⟩
  rw [Set.mem_singleton_iff.mp hx, hused]
  simp

theorem valid_of_run (h : Run (Init slabSize blockSize backed initialSb b) (Trans β) hist s) :
    Valid slabSize (entriesOf slabSize blockSize) backed initialSb s ∧
      Run (· = ⟨{b}, ∅, false⟩) (Pool.Step slabSize (entriesOf slabSize blockSize))
        (hist.map fun e => (e.1.pool, e.2)) s.pool := by
  refine h.refines pool (fun s hs => ?_) fun s c hs hc => ?_
  · subst hs
    exact ⟨⟨⟨[], sound_new.1⟩, rfl, rfl, rfl, rfl⟩, sound_new.2⟩
  · obtain ⟨⟨xs, h⟩, hsize, hn, hb, hi⟩ := hs
    obtain ⟨r, s', ys, hs', h', hsize', hn', hb', hi', hstep⟩ := h.step hc
    rw [hsize, hn] at hstep
    exact ⟨r, s', hs', ⟨⟨ys, h'⟩, hsize'.trans hsize, hn'.trans hn, hb'.trans hb, hi'.trans hi⟩, hstep⟩

/-- The slab is a pool of entries in every run, also when calls are made
while it waits for its backing store, and its counters are right. Each
call returns, and the destructor gives back all blocks but the initial one. -/
theorem refines_pool (h : Run (Init slabSize blockSize backed initialSb b) (Trans β) hist s) :
    Run (· = ⟨{b}, ∅, false⟩) (Pool.Step slabSize (entriesOf slabSize blockSize))
        (hist.map fun e => (e.1.pool, e.2)) s.pool ∧
      s.members.Nodup ∧ s.numBlocks = s.members.length ∧
      s.totalAvail = (s.members.map fun b => freeCount s.entriesPerBlock (s.usedAt b)).sum ∧
      (∀ c, s.Allowed c → ∃ r s', s.call c = .ok (r, s')) ∧
      (backed = true → ∃ t, s.destroy = .ok t ∧ ∀ b, t.mem b ≠ none → initialSb = some b) := by
  obtain ⟨⟨⟨xs, hs⟩, -, -, hb, hi⟩, hrun⟩ := valid_of_run h
  have hmap : s.members.map s.availOf =
      s.members.map fun b => freeCount s.entriesPerBlock (s.usedAt b) := by
    refine List.map_congr_left fun z hz => ?_
    rw [hs.members_eq] at hz
    obtain ⟨c, hc⟩ := hs.mem hz
    exact hs.avail (by rw [hc]; simp)
  refine ⟨hrun, ?_, ?_, ?_, fun c hc => ?_, fun hbacked => ?_⟩
  · rw [hs.members_eq]
    exact hs.ring.nodup
  · rw [hs.members_eq, hs.num, List.length_cons]
  · rw [← hmap, hs.members_eq]
    exact hs.total
  · obtain ⟨r, s', ys, hs', -⟩ := hs.step hc
    exact ⟨r, s', hs'⟩
  · rw [← hi]
    exact hs.destroy (hb.trans hbacked)

/-! ## Three entries are enough -/

/-- The number of allocations since the slab has asked for a block. -/
def nestedAllocs : List (Slab β × Call β × Reply β) → Nat
  | [] => 0
  | (_, .alloc _, .asking) :: _ => 0
  | (_, .alloc _, .entry _ _) :: hist => nestedAllocs hist + 1
  | _ :: hist => nestedAllocs hist

/-- The backing store gives a block whenever it is asked, and allocates at
most three entries meanwhile. Nobody releases the free blocks. -/
def Modest : List (Slab β × Call β × Reply β) → Prop
  | [] => True
  | (s, .alloc _, _) :: hist => (s.nested = true → nestedAllocs hist < 3) ∧ Modest hist
  | (_, .answer r, _) :: hist => (∃ b, r = .ok b) ∧ Modest hist
  | (_, .freeEmptyBlocks, _) :: _ => False
  | _ :: hist => Modest hist

/-- The reply is an entry, or the allocation waits for the backing store. -/
def Served (slabSize : Nat) (e : Call β × Reply β) : Prop :=
  match e with
  | (.alloc size, r) => size ≤ slabSize → r = .asking ∨ ∃ b i, r = .entry b i
  | (.answer _, r) => ∃ b i, r = .entry b i
  | _ => True

/-- Three entries are left, less those allocated while the slab waits. -/
def Reserve (k : Nat) (s : Slab β) : Prop := 3 ≤ s.totalAvail + if s.nested then k else 0

omit [DecidableEq β] in
theorem Modest.tail {e : Slab β × Call β × Reply β} (h : Modest (e :: hist)) : Modest hist := by
  obtain ⟨s, c, r⟩ := e
  cases c with
  | alloc size => exact h.2
  | answer r => exact h.2
  | free b i => exact h
  | insertSb b => exact h
  | freeEmptyBlocks => exact h.elim
  | anyUsedElem => exact h

/-- Allocating while there is at least one entry. -/
theorem Sound.takeEntry_of_pos (h : Sound s xs) (hpos : 0 < s.totalAvail) {r : Reply β × Slab β}
    (hr : s.takeEntry >>= (fun r => .ok (took r)) = .ok r) :
    (∃ b i, r.1 = .entry b i) ∧ r.2.totalAvail + 1 = s.totalAvail ∧ r.2.nested = s.nested := by
  rcases h.takeEntry with ⟨hzero, -⟩ | ⟨b, i, s', ys, ht, -, -, -, -, -, htotal, hsame⟩
  · omega
  · obtain rfl : took (some (b, i), s') = r := by simpa [ht] using hr
    exact ⟨⟨b, i, rfl⟩, htotal, hsame.nested⟩

/-- What a call does to the number of free entries. -/
theorem Sound.step_reserve (h : Sound s xs) (hb : s.backed = true) (hn : 4 ≤ s.entriesPerBlock)
    {c : Call β} {r : Reply β} (hc : s.Allowed c) (hs' : s.call c = .ok (r, s'))
    (hm : Modest ((s, c, r) :: hist)) (hr : Reserve (nestedAllocs hist) s) :
    Served s.slabSize (c, r) ∧ Reserve (nestedAllocs ((s, c, r) :: hist)) s' := by
  unfold Reserve at hr ⊢
  cases c with
  | alloc size =>
    unfold call at hs'
    dsimp only at hs'
    split at hs'
    · next hsize =>
      obtain ⟨rfl, rfl⟩ : Reply.failed AllocError.denied = r ∧ s = s' := by simpa using hs'
      exact ⟨fun hle => absurd hle (by omega), hr⟩
    · split at hs'
      · next hexp =>
        obtain ⟨rfl, rfl⟩ : Reply.asking = r ∧ { s with nested := true } = s' := by simpa using hs'
        have hnot : s.nested = false := by
          rw [expands, Bool.and_eq_true] at hexp
          simpa using hexp.2
        have hle : 3 ≤ s.totalAvail := by simpa [hnot] using hr
        exact ⟨fun _ => .inl rfl, hle⟩
      · next hexp =>
        have hpos : 0 < s.totalAvail ∧ (s.nested = false → 3 < s.totalAvail) := by
          cases hnest : s.nested with
          | true =>
            have := hm.1 hnest
            rw [if_pos hnest] at hr
            exact ⟨by omega, fun he => absurd he (by simp)⟩
          | false =>
            have : 3 < s.totalAvail := by simpa [expands, hb, hnest] using hexp
            exact ⟨by omega, fun _ => this⟩
        obtain ⟨⟨b, i, rfl⟩, htotal, hnested⟩ := h.takeEntry_of_pos hpos.1 hs'
        refine ⟨fun _ => .inr ⟨b, i, rfl⟩, ?_⟩
        dsimp only at htotal hnested
        rw [hnested]
        cases hnest : s.nested with
        | true =>
          rw [if_pos hnest] at hr
          show 3 ≤ s'.totalAvail + (nestedAllocs hist + 1)
          omega
        | false =>
          have := hpos.2 hnest
          show 3 ≤ s'.totalAvail + 0
          omega
  | answer q =>
    obtain ⟨b, rfl⟩ := hm.1
    obtain ⟨s₁, hs₁, h₁, -, -, htotal₁, hsame₁⟩ := h.insertBlock (Option.isNone_iff_eq_none.mp hc.2)
    have h₂ : Sound { s₁ with nested := false } (b :: xs) :=
      ⟨⟨h₁.ring, h₁.num, h₁.avail, h₁.total, h₁.outside⟩, h₁.unlinked⟩
    unfold call at hs'
    dsimp only at hs'
    rw [hs₁] at hs'
    simp only [Exec.ok_bind] at hs'
    obtain ⟨hentry, htotal, hnested⟩ := h₂.takeEntry_of_pos (show 0 < s₁.totalAvail by omega) hs'
    refine ⟨hentry, ?_⟩
    have hnested : s'.nested = false := hnested
    have htotal : s'.totalAvail + 1 = s₁.totalAvail := htotal
    rw [hnested]
    show 3 ≤ s'.totalAvail + 0
    omega
  | free b i =>
    obtain ⟨t, ys, ht, -, hsame, -, hk⟩ := h.free (Option.isSome_iff_ne_none.mp hc.1) hc.2
    obtain ⟨rfl, rfl⟩ : Reply.nothing = r ∧ t = s' := by simpa [call, ht] using hs'
    refine ⟨trivial, ?_⟩
    rw [hsame.nested]
    change _ ≤ t.totalAvail + if s.nested = true then nestedAllocs hist else 0
    omega
  | insertSb b =>
    obtain ⟨t, ht, -, -, -, htotal, hsame⟩ := h.insertBlock (Option.isNone_iff_eq_none.mp hc)
    obtain ⟨rfl, rfl⟩ : Reply.nothing = r ∧ t = s' := by simpa [call, ht] using hs'
    refine ⟨trivial, ?_⟩
    rw [hsame.nested]
    change _ ≤ t.totalAvail + if s.nested = true then nestedAllocs hist else 0
    omega
  | freeEmptyBlocks => exact hm.elim
  | anyUsedElem =>
    obtain ⟨e, x, ys, ht, -⟩ := h.anyUsedElem
    obtain ⟨-, rfl⟩ : _ ∧ { s with currSb := x } = s' := by simpa [call, ht] using hs'
    exact ⟨trivial, hr⟩

/-- If the backing store keeps to this, no allocation fails, and neither
does any that the backing store makes. -/
theorem served_of_modest (hn : 4 ≤ entriesOf slabSize blockSize)
    (h : Run (Init slabSize blockSize true initialSb b) (Trans β) hist s) (hm : Modest hist) :
    ∀ e ∈ hist, Served slabSize e.2 := by
  have hall : Reserve (nestedAllocs hist) s ∧ ∀ e ∈ hist, Served slabSize e.2 := by
    induction h with
    | start hs =>
      subst hs
      refine ⟨?_, by simp⟩
      show 3 ≤ entriesOf slabSize blockSize + 0
      omega
    | @step hist s s' a hr ht ih =>
      obtain ⟨⟨⟨xs, hs⟩, hsize, hentries, hbacked, -⟩, -⟩ := valid_of_run hr
      obtain ⟨hres, hserved⟩ := ih hm.tail
      obtain ⟨c, r⟩ := a
      obtain ⟨hnew, hres'⟩ := hs.step_reserve hbacked (hentries ▸ hn) ht.1 ht.2 hm hres
      exact ⟨hres', List.forall_mem_cons.mpr ⟨hsize ▸ hnew, hserved⟩⟩
  exact hall.2

/-! ## Executed runs -/

instance (s : Slab β) : DecidablePred s.Allowed
  | .alloc _ => inferInstanceAs (Decidable True)
  | .answer (.error _) => inferInstanceAs (Decidable (s.nested = true))
  | .answer (.ok b) => inferInstanceAs (Decidable (s.nested = true ∧ (s.mem b).isNone))
  | .free b i => inferInstanceAs (Decidable ((s.mem b).isSome ∧ i < s.entriesPerBlock))
  | .insertSb b => inferInstanceAs (Decidable (s.mem b).isNone)
  | .freeEmptyBlocks => inferInstanceAs (Decidable True)
  | .anyUsedElem => inferInstanceAs (Decidable True)

theorem exists_slab_run (slabSize blockSize : Nat) (backed : Bool) (initialSb : Option Nat) (b : Nat)
    (calls : List (Call Nat)) {p : List (Slab Nat × Call Nat × Reply Nat) × Slab Nat → Prop}
    [DecidablePred p]
    (h : (replay (attempt Allowed call) calls ([], new slabSize blockSize backed initialSb b)).any
      (fun r => decide (p r)) = true) :
    ∃ (hist : List (Slab Nat × Call Nat × Reply Nat)) (s : Slab Nat),
      Run (Init slabSize blockSize backed initialSb b) (Trans Nat) hist s ∧ p (hist, s) := by
  have hinit : Init slabSize blockSize backed initialSb b (new slabSize blockSize backed initialSb b) := rfl
  exact exists_called_run hinit calls h

/-- A slab with four entries a block. While it waits for its second block,
an entry is freed and another one allocated. In the end, the second block
is given back. -/
theorem refines_pool_two :
    ∃ (hist : List (Slab Nat × Call Nat × Reply Nat)) (s : Slab Nat),
      hist.map (·.2) = [(.freeEmptyBlocks, .nothing), (.anyUsedElem, .entry 1 1), (.free 1 0, .nothing),
        (.answer (.ok 2), .entry 1 2), (.alloc 8, .entry 1 0), (.free 1 0, .nothing),
        (.alloc 8, .entry 1 1), (.alloc 8, .asking), (.answer (.error .outOfRam), .failed .outOfRam),
        (.alloc 8, .asking), (.alloc 8, .entry 1 0)] ∧
      Run (· = ⟨{1}, ∅, false⟩) (Pool.Step 8 (entriesOf 8 108)) (hist.map fun e => (e.1.pool, e.2)) s.pool ∧
      s.members.Nodup ∧ s.numBlocks = s.members.length ∧
      s.totalAvail = (s.members.map fun b => freeCount s.entriesPerBlock (s.usedAt b)).sum ∧
      (∀ c, s.Allowed c → ∃ r s', s.call c = .ok (r, s')) ∧
      ∃ t, s.destroy = .ok t ∧ ∀ b, t.mem b ≠ none → some 1 = some b := by
  obtain ⟨hist, s, h, hcalls⟩ := exists_slab_run 8 108 true (some 1) 1
    [.alloc 8, .alloc 8, .answer (.error .outOfRam), .alloc 8, .alloc 8, .free 1 0, .alloc 8,
      .answer (.ok 2), .free 1 0, .anyUsedElem, .freeEmptyBlocks]
    (p := fun r => r.1.map (·.2) = [(.freeEmptyBlocks, .nothing), (.anyUsedElem, .entry 1 1),
      (.free 1 0, .nothing), (.answer (.ok 2), .entry 1 2), (.alloc 8, .entry 1 0), (.free 1 0, .nothing),
      (.alloc 8, .entry 1 1), (.alloc 8, .asking), (.answer (.error .outOfRam), .failed .outOfRam),
      (.alloc 8, .asking), (.alloc 8, .entry 1 0)]) (by decide +kernel)
  obtain ⟨hrun, hnodup, hnum, htotal, hcall, hdestroy⟩ := refines_pool h
  exact ⟨hist, s, hcalls, hrun, hnodup, hnum, htotal, hcall, hdestroy rfl⟩

/-- All of the three entries are used while the slab waits. -/
theorem served_of_modest_three :
    ∃ (hist : List (Slab Nat × Call Nat × Reply Nat)) (s : Slab Nat),
      hist.map (·.2) = [(.answer (.ok 2), .entry 2 0), (.alloc 8, .entry 1 3), (.alloc 8, .entry 1 2),
        (.alloc 8, .entry 1 1), (.alloc 8, .asking), (.alloc 8, .entry 1 0)] ∧
      Run (Init 8 108 true (some 1) 1) (Trans Nat) hist s ∧ ∀ e ∈ hist, Served 8 e.2 := by
  obtain ⟨hist, s, h, hcalls⟩ := exists_slab_run 8 108 true (some 1) 1
    [.alloc 8, .alloc 8, .alloc 8, .alloc 8, .alloc 8, .answer (.ok 2)]
    (p := fun r => r.1.map (·.2) = [(.answer (.ok 2), .entry 2 0), (.alloc 8, .entry 1 3),
      (.alloc 8, .entry 1 2), (.alloc 8, .entry 1 1), (.alloc 8, .asking), (.alloc 8, .entry 1 0)])
    (by decide +kernel)
  refine ⟨hist, s, hcalls, h, served_of_modest (by decide) h ?_⟩
  obtain ⟨e₁, l₁, rfl, h₁, hl₁⟩ := List.map_eq_cons_iff.mp hcalls
  obtain ⟨e₂, l₂, rfl, h₂, hl₂⟩ := List.map_eq_cons_iff.mp hl₁
  obtain ⟨e₃, l₃, rfl, h₃, hl₃⟩ := List.map_eq_cons_iff.mp hl₂
  obtain ⟨e₄, l₄, rfl, h₄, hl₄⟩ := List.map_eq_cons_iff.mp hl₃
  obtain ⟨e₅, l₅, rfl, h₅, hl₅⟩ := List.map_eq_cons_iff.mp hl₄
  obtain ⟨e₆, l₆, rfl, h₆, hl₆⟩ := List.map_eq_cons_iff.mp hl₅
  obtain rfl := List.map_eq_nil_iff.mp hl₆
  obtain ⟨_, _⟩ := e₁
  obtain ⟨_, _⟩ := e₂
  obtain ⟨_, _⟩ := e₃
  obtain ⟨_, _⟩ := e₄
  obtain ⟨_, _⟩ := e₅
  obtain ⟨_, _⟩ := e₆
  subst h₁ h₂ h₃ h₄ h₅ h₆
  simp [Modest, nestedAllocs]

end Genode.Base.Slab
