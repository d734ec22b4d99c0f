import Genode.Base.AllocatorRanges
import Genode.Lib.Run

/-!
# AllocatorRuns — the allocator over time

Any sequence of operations on an allocator that is empty at first. Its
blocks stay apart as long as no operation computes with a sum that wraps
around the end of the address space (`Careful`). What goes wrong
otherwise always involves the end of the address space or a block at
address 0, which are not next to each other but are so in 64-bit
arithmetic.
-/

namespace Genode.Base

open Block Lib Lib.LinkedTree Util

/-- A call of the allocator. -/
inductive Op where
  | addRange (addr size : Nat)
  | removeRange (addr size : Nat)
  | allocAligned (size align beg fin : Nat)
  | allocAddr (size addr : Nat)
  | free (addr : Nat)
  deriving DecidableEq

namespace Op

/-- The arguments are 64-bit numbers. -/
def InWord : Op → Prop
  | .addRange addr size => addr < 2 ^ 64 ∧ size < 2 ^ 64
  | .removeRange addr size => addr < 2 ^ 64 ∧ size < 2 ^ 64
  | .allocAligned size _ beg fin => size < 2 ^ 64 ∧ beg < 2 ^ 64 ∧ fin < 2 ^ 64
  | .allocAddr size addr => size < 2 ^ 64 ∧ addr < 2 ^ 64
  | .free addr => addr < 2 ^ 64

/-- Nothing that the operation compares wraps around, given the blocks. -/
def Careful (B : Multiset Block) : Op → Prop
  | .addRange addr size => addr + size ≤ 2 ^ 64 ∧ Bounded B addr size
  | .removeRange addr size => addr + size ≤ 2 ^ 64
  | .allocAligned size align beg fin => ∀ b ∈ B, b.used = false → b.addr = 0 →
      b.fits size align beg fin = true → b.Unwrapped size align beg
  | .allocAddr size addr => size = 0 → addr = 0 → ∀ b ∈ B, b.used = false → b.addr ≠ 0
  | .free addr => ∀ b ∈ B, b.used = true → b.Covers addr → Bounded B b.addr b.size

/-- How often the operation adds the address. -/
def added (a : Nat) : Op → Nat
  | .addRange addr size => if addr ≤ a ∧ a < addr + size then 1 else 0
  | _ => 0

end Op

variable {ι μ : Type} [DecidableEq ι] [Fintype ι] {D : Md ι μ} {root x y : ι} {X : Finset ι}
  {B B' C : Multiset Block} {m m' : μ} {s s' : AllocatorAvl ι μ} {b c : Block} {L : List Block}
  {addr size align beg fin a n : Nat} {op : Op}

/-- The call, whatever its result is. -/
def exec (D : Md ι μ) (root : ι) (s : AllocatorAvl ι μ) : Op → Exec (AllocatorAvl ι μ)
  | .addRange addr size => do
    let r ← s.addRange root D.mdAlloc addr size
    .ok r.2
  | .removeRange addr size => do
    let r ← s.removeRange root D.mdAlloc addr size
    .ok r.2
  | .allocAligned size align beg fin => do
    let r ← s.allocAligned root D.mdAlloc size align beg fin
    .ok r.2
  | .allocAddr size addr => do
    let r ← s.allocAddr root D.mdAlloc size addr
    .ok r.2
  | .free addr => s.free root D.mdAlloc addr

/-- An allocator without blocks. -/
def Init (D : Md ι μ) (root : ι) (s : AllocatorAvl ι μ) : Prop :=
  (∃ data, s.nodes = AvlNodes.init data) ∧ root ∈ D.taken s.md

omit [Fintype ι] in
theorem holds_of_init (h : Init D root s) : Holds D root ∅ 0 s.md s := by
  obtain ⟨⟨data, hd⟩, ht⟩ := h
  refine ⟨⟨.nil, ?_⟩, rfl, rfl, ?_⟩
  · rw [hd]
    exact AvlRuns.ordered_init data
  · simpa using ht

omit [DecidableEq ι] [Fintype ι] in
theorem sane_zero : Sane 0 := ⟨by simp, fun a => by simp⟩

/-! ## What a step preserves -/

/-- What holds after an operation of blocks `B` before it. -/
def After (D : Md ι μ) (root : ι) (B : Multiset Block) (op : Op) (s : AllocatorAvl ι μ) : Prop :=
  ∃ X B' m, Holds D root X B' m s ∧ Sane B' ∧ ∀ a, blockCover B' a ≤ blockCover B a + op.added a

omit [Fintype ι] in
theorem After.of_refused {α : Type} {r : Exec (Except AllocError α × AllocatorAvl ι μ)} (hB : Sane B)
    (h : Refused D root X B m r) : ∃ s', (r >>= fun r => Except.ok r.2) = .ok s' ∧
      After D root B op s' := by
  obtain ⟨e, m', s', rfl, -, h'⟩ := h
  exact ⟨s', rfl, X, B, m', h', hB, fun a => Nat.le_add_right _ _⟩

/-- A range that `add_range` accepts. -/
theorem vacant_of_not_hits (hB : Sane B) (hs : 0 < size) (hlt : size < 2 ^ 64)
    (hle : addr + size ≤ 2 ^ 64)
    (h : Sane B → addr ≤ lastOf addr size → ∀ b ∈ B, ¬ b.Hits addr (lastOf addr size) true) :
    Vacant B addr size := by
  refine ⟨hB, hs, hlt, hle, fun b hb hba => ?_⟩
  have hno := h hB (by rw [lastOf_eq hs hle]; omega) b hb
  rw [hits_overlap (hB.valid b hb) hs hle] at hno
  omega

theorem Holds.after_addRange (h : Holds D root X B m s) (hB : Sane B) (hlt : size < 2 ^ 64)
    (hle : addr + size ≤ 2 ^ 64) (hbd : Bounded B addr size) :
    ∃ r X' B' m' s', s.addRange root D.mdAlloc addr size = .ok (r, s') ∧ Holds D root X' B' m' s' ∧
      (r = .ok () ∧ Adds B B' addr size ∨ (∃ e, r = .error e) ∧ B' = B) := by
  rcases h.addRange addr size with ⟨hr, -⟩ | hok
  · obtain ⟨e, m', s', hs, -, h'⟩ := hr
    exact ⟨.error e, X, B, m', s', hs, h', .inr ⟨⟨e, rfl⟩, rfl⟩⟩
  · obtain ⟨p, q, C, X', m', s', hs, hpos, -, hno, hm, h'⟩ := hok
    have hv := vacant_of_not_hits hB hpos hlt hle hno
    exact ⟨.ok (), X', _, m', s', hs, h', .inl ⟨rfl, hm.adds hv hbd⟩⟩

theorem Bounded.mono (h : Bounded B addr size) (hC : C ≤ B) : Bounded C addr size :=
  fun hend b hb => h hend b (Multiset.mem_of_le hC hb)

namespace Holds

variable (h : Holds D root X B m s) (hB : Sane B)

include h hB

theorem step_addRange (hw : (Op.addRange addr size).InWord)
    (hc : (Op.addRange addr size).Careful B) :
    ∃ s', exec D root s (.addRange addr size) = .ok s' ∧
      After D root B (.addRange addr size) s' := by
  obtain ⟨r, X', B', m', s', hs, h', hr⟩ := h.after_addRange hB hw.2 hc.1 hc.2
  refine ⟨s', ?_, X', B', m', h', ?_⟩
  · rw [exec, hs, Exec.ok_bind]
  · rcases hr with ⟨-, hadd⟩ | ⟨-, rfl⟩
    · exact ⟨hadd.sane, fun a => (hadd.cover a).le⟩
    · exact ⟨hB, fun a => Nat.le_add_right _ _⟩

theorem step_removeRange (hc : (Op.removeRange addr size).Careful B) :
    ∃ s', exec D root s (.removeRange addr size) = .ok s' ∧
      After D root B (.removeRange addr size) s' := by
  obtain ⟨r, X', B', m', s', hs, h', hrem⟩ := h.removeRange_removes hB hc
  refine ⟨s', ?_, X', B', m', h', hrem.sane, fun a => hrem.cover_le a⟩
  rw [exec, hs, Exec.ok_bind]

omit h [Fintype ι] in
/-- An allocation from a block that offers the range. -/
theorem after_allocated (hBC : B = b ::ₘ C) (hn : n < 2 ^ 64) (ho : b.Offers addr n beg fin)
    (h' : Holds D root X (⟨addr, n, true⟩ ::ₘ (b.pieces addr n + C)) m' s') :
    After D root B op s' := by
  subst hBC
  refine ⟨X, _, m', h', sane_allocated hB hn ho, fun a => ?_⟩
  exact (cover_allocated hB.valid_head hn ho).le.trans (Nat.le_add_right _ _)

omit h [Fintype ι] in
theorem after_cut (hBC : B = b ::ₘ C) (ho : b.Offers addr n beg fin)
    (h' : Holds D root X (b.pieces addr n + C) m' s') : After D root B op s' := by
  subst hBC
  refine ⟨X, _, m', h', sane_cut hB ho.pos ho.addr_le ho.le_stop, fun a => ?_⟩
  rw [← cover_cut hB.valid_head ho.pos ho.addr_le ho.le_stop]
  omega

theorem step_allocAligned (hw : (Op.allocAligned size align beg fin).InWord)
    (hc : (Op.allocAligned size align beg fin).Careful B) :
    ∃ s', exec D root s (.allocAligned size align beg fin) = .ok s' ∧
      After D root B (.allocAligned size align beg fin) s' := by
  have hoffers : ∀ {b C}, B = b ::ₘ C → b.used = false → b.fits size align beg fin = true →
      b.Offers (b.place align beg) size beg fin := by
    rintro b C rfl hu hf
    have hb : b ∈ b ::ₘ C := Multiset.mem_cons_self b C
    exact (offers_iff hB.valid_head hu hw.1 hw.2.1 hf).mpr fun h0 => hc b hb hu h0 hf
  rcases h.allocAligned size align beg fin with hr | hok | herr
  · exact After.of_refused hB hr
  · obtain ⟨b, C, X', m', s', hs, hBC, hu, hf, h'⟩ := hok
    refine ⟨s', ?_, after_allocated hB hBC hw.1 (hoffers hBC hu hf) h'⟩
    rw [exec, hs, Exec.ok_bind]
  · obtain ⟨-, e, b, C, X', m', s', hs, hBC, hu, hf, h'⟩ := herr
    refine ⟨s', ?_, after_cut hB hBC (hoffers hBC hu hf) h'⟩
    rw [exec, hs, Exec.ok_bind]

omit h in
theorem offers_of_hits (hw : (Op.allocAddr size addr).InWord)
    (hc : (Op.allocAddr size addr).Careful B) (hsum : sumInRange addr size = true)
    (hBC : B = b ::ₘ C) (hu : b.used = false) (hb : b.Hits addr (lastOf addr size) false) :
    b.Offers addr size addr (addr + size - 1) := by
  subst hBC
  have hval := hB.valid_head
  rcases (sumInRange_iff hw.2 hw.1).mp hsum with ⟨hpos, hle⟩ | ⟨h0, ha0⟩
  · obtain ⟨hba, hbs⟩ := (hits_range hval hpos hle).mp hb
    exact ⟨hpos, hba, hbs, le_rfl, by omega⟩
  · -- nothing at address 0
    subst h0 ha0
    have hcov := (hits_address hval (by omega)).mp hb
    exact absurd (Nat.le_zero.mp hcov.1) (hc rfl rfl b (Multiset.mem_cons_self b C) hu)

theorem step_allocAddr (hw : (Op.allocAddr size addr).InWord)
    (hc : (Op.allocAddr size addr).Careful B) :
    ∃ s', exec D root s (.allocAddr size addr) = .ok s' ∧
      After D root B (.allocAddr size addr) s' := by
  rcases h.allocAddr hw.2 size with hr | hok | herr
  · exact After.of_refused hB hr
  · obtain ⟨b, C, X', m', s', hs, hsum, hBC, hu, hb, h'⟩ := hok
    refine ⟨s', ?_, after_allocated hB hBC hw.1 (offers_of_hits hB hw hc hsum hBC hu hb) h'⟩
    rw [exec, hs, Exec.ok_bind]
  · obtain ⟨-, e, b, C, X', m', s', hs, hsum, hBC, hu, hb, h'⟩ := herr
    refine ⟨s', ?_, after_cut hB hBC (offers_of_hits hB hw hc hsum hBC hu hb) h'⟩
    rw [exec, hs, Exec.ok_bind]

theorem step_free (hw : (Op.free addr).InWord) (hc : (Op.free addr).Careful B) :
    ∃ s', exec D root s (.free addr) = .ok s' ∧ After D root B (.free addr) s' := by
  rcases h.free addr with ⟨hs, -⟩ | hused
  · exact ⟨s, hs, X, B, m, h, hB, fun a => Nat.le_add_right _ _⟩
  · obtain ⟨b, C, X₁, m₁, s₁, rfl, hu, hh, h₁, -, hs⟩ := hused
    have hval := hB.valid_head
    have hstop : b.stop = b.addr + b.size := stop_eq (hval.used hu)
    have hle := hval.stop_le
    have hcov := (hits_address hval hw).mp hh
    have hbd := (hc b (Multiset.mem_cons_self b C) hu hcov).mono (Multiset.le_cons_self C b)
    obtain ⟨r, X', B', m', s', hs', h', hr⟩ :=
      h₁.after_addRange hB.of_cons hval.size_lt (by omega) hbd
    refine ⟨s', ?_, X', B', m', h', ?_⟩
    · rw [exec, hs, hs', Exec.ok_bind]
    · rcases hr with ⟨-, hadd⟩ | ⟨-, rfl⟩
      · refine ⟨hadd.sane, fun a => ?_⟩
        rw [hadd.cover, blockCover_cons, ← hstop]
        omega
      · refine ⟨hB.of_cons, fun a => ?_⟩
        rw [blockCover_cons]
        omega

/-- A careful operation returns, and the blocks stay apart. -/
theorem step (hw : op.InWord) (hc : op.Careful B) :
    ∃ s', exec D root s op = .ok s' ∧ After D root B op s' := by
  cases op with
  | addRange addr size => exact h.step_addRange hB hw hc
  | removeRange addr size => exact h.step_removeRange hB hc
  | allocAligned size align beg fin => exact h.step_allocAligned hB hw hc
  | allocAddr size addr => exact h.step_allocAddr hB hw hc
  | free addr => exact h.step_free hB hw hc

end Holds

/-! ## Runs -/

/-- The blocks of the tree. -/
def AllocatorAvl.blockList (s : AllocatorAvl ι μ) (root : ι) : List Block :=
  (s.blocks root).toOption.getD []

theorem Holds.coe_blockList (h : Holds D root X B m s) : (s.blockList root : Multiset Block) = B := by
  obtain ⟨L, hL, hB, -⟩ := h.blocks
  rw [AllocatorAvl.blockList, hL]
  exact hB

/-- The operations whose sums do not wrap around. -/
def Allowed (root : ι) (s : AllocatorAvl ι μ) (op : Op) : Prop :=
  op.InWord ∧ op.Careful (s.blockList root)

def Trans (D : Md ι μ) (root : ι) : AllocatorAvl ι μ → Op → AllocatorAvl ι μ → Prop :=
  Guarded (Allowed root) (exec D root)

variable {hist : List (AllocatorAvl ι μ × Op)}

/-- Throughout a run, no two blocks have an address in common. -/
theorem sane_of_run (h : Run (Init D root) (Trans D root) hist s) :
    ∃ X B m, Holds D root X B m s ∧ Sane B := by
  refine h.invariant (I := fun s => ∃ X B m, Holds D root X B m s ∧ Sane B) ?_ ?_
  · intro s hs
    exact ⟨∅, 0, s.md, holds_of_init hs, sane_zero⟩
  · intro s op s' hI htr
    obtain ⟨X, B, m, hH, hB⟩ := hI
    obtain ⟨⟨hw, hc⟩, hs'⟩ := htr
    rw [hH.coe_blockList] at hc
    obtain ⟨s₁, hs₁, X', B', m', h', hB', -⟩ := hH.step hB hw hc
    obtain rfl : s₁ = s' := by simpa [hs₁] using hs'
    exact ⟨X', B', m', h', hB'⟩

/-! ## The addresses that are added -/

/-- The managed addresses are those from before and those of the range,
and only free blocks that are next to the range are merged with it. -/
structure AddsExactly (L L' : List Block) (addr size : Nat) : Prop where
  addresses : ∀ a, (∃ b ∈ L', b.Covers a) ↔ (∃ b ∈ L, b.Covers a) ∨ (addr ≤ a ∧ a < addr + size)
  neighbours : ∀ b ∈ L, b ∉ L' → b.used = false ∧ (b.stop = addr ∨ b.addr = addr + size)

omit [DecidableEq ι] [Fintype ι] in
theorem Adds.exactly {L' : List Block} (h : Adds (L : Multiset Block) (L' : Multiset Block) addr size) :
    AddsExactly L L' addr size := by
  obtain ⟨-, hcov, b, C, hL', -, -, -, -, hmerged⟩ := h
  constructor
  · intro a
    have hL : 0 < blockCover L a ↔ ∃ b ∈ L, b.Covers a := cover_pos
    have hL'' : 0 < blockCover L' a ↔ ∃ b ∈ L', b.Covers a := cover_pos
    rw [← hL, ← hL'', hcov]
    split
    · next ha => simp [ha]
    · next ha => simp [ha]
  · intro c hc hcL'
    refine (hmerged c hc).resolve_left fun hcC => hcL' ?_
    have : c ∈ (L' : Multiset Block) := hL' ▸ Multiset.mem_cons_of_mem hcC
    exact this

/-- In a run of operations whose sums do not wrap around, `add_range`
adds exactly the addresses of a range that does not wrap, unless the
range ends at the end of the address space and there is a free block at
address 0 that does not end where the range starts. -/
theorem addsExactly_iff (h : Run (Init D root) (Trans D root) hist s) (hw : size < 2 ^ 64)
    (hle : addr + size ≤ 2 ^ 64) :
    ∃ r s' L L', s.blocks root = .ok L ∧ s.addRange root D.mdAlloc addr size = .ok (r, s') ∧
      s'.blocks root = .ok L' ∧ (∀ e, r = .error e → L'.Perm L) ∧
      (r = .ok () → (AddsExactly L L' addr size ↔ Bounded L addr size)) := by
  obtain ⟨X, B, m, hH, hB⟩ := sane_of_run h
  obtain ⟨L, hL, rfl, -⟩ := hH.blocks
  rcases hH.addRange addr size with ⟨hr, -⟩ | hok
  · obtain ⟨e, m', s', hs, -, h'⟩ := hr
    obtain ⟨L', hL', hperm, -⟩ := h'.blocks
    exact ⟨.error e, s', L, L', hL, hs, hL', fun _ _ => Multiset.coe_eq_coe.mp hperm, by simp⟩
  · obtain ⟨p, q, C, X', m', s', hs, hpos, -, hno, hm, h'⟩ := hok
    obtain ⟨L', hL', hcontent, -⟩ := h'.blocks
    have hv := vacant_of_not_hits hB hpos hw hle hno
    refine ⟨.ok (), s', L, L', hL, hs, hL', by simp, fun _ => ⟨fun hex => ?_, fun hbd => ?_⟩⟩
    · by_contra hbd
      obtain ⟨h₁, h₂⟩ := hm.loses hv hbd
      rw [← hcontent] at h₂
      obtain ⟨b, hb, hcov⟩ := (hex.addresses 0).mpr (.inl (cover_pos.mp h₁))
      exact cover_eq_zero.mp h₂ b hb hcov
    · have hadds := hm.adds hv hbd
      rw [← hcontent] at hadds
      exact hadds.exactly

/-! ## Executed runs -/

/-- An empty allocator; its root is the entry 0. -/
def empty (k : Nat) [NeZero k] : AllocatorAvl (Fin k) (Finset (Fin k)) :=
  ⟨AvlNodes.init fun _ => 0, fun _ => ⟨0, 0, false⟩, {0}⟩

theorem init_empty (k : Nat) [NeZero k] : Init (stock k) 0 (empty k) :=
  ⟨⟨_, rfl⟩, Finset.mem_singleton_self 0⟩

instance (B : Multiset Block) (addr size : Nat) : Decidable (Bounded B addr size) :=
  inferInstanceAs (Decidable (addr + size = 2 ^ 64 → ∀ b ∈ B, b.used = false → b.addr = 0 →
    b.stop = addr))

theorem unwrapped_iff : b.Unwrapped n align beg ↔
    0 < n ∧ beg ≤ alignAddr beg align ∧ (alignAddr beg align + n = 2 ^ 64 → b.size = 0) :=
  ⟨fun h => ⟨h.pos, h.beg_le, h.whole⟩, fun h => ⟨h.1, h.2.1, h.2.2⟩⟩

instance (b : Block) (n align beg : Nat) : Decidable (b.Unwrapped n align beg) :=
  decidable_of_iff _ unwrapped_iff.symm

instance : DecidablePred Op.InWord
  | .addRange _ _ => inferInstanceAs (Decidable (_ ∧ _))
  | .removeRange _ _ => inferInstanceAs (Decidable (_ ∧ _))
  | .allocAligned _ _ _ _ => inferInstanceAs (Decidable (_ ∧ _ ∧ _))
  | .allocAddr _ _ => inferInstanceAs (Decidable (_ ∧ _))
  | .free _ => inferInstanceAs (Decidable (_ < _))

instance (B : Multiset Block) : DecidablePred (Op.Careful B)
  | .addRange _ _ => inferInstanceAs (Decidable (_ ∧ _))
  | .removeRange _ _ => inferInstanceAs (Decidable (_ ≤ _))
  | .allocAligned _ _ _ _ => inferInstanceAs (Decidable (∀ b ∈ B, _ → _ → _ → _))
  | .allocAddr _ _ => inferInstanceAs (Decidable (_ → _ → ∀ b ∈ B, _ → _))
  | .free _ => inferInstanceAs (Decidable (∀ b ∈ B, _ → _ → _))

instance (s : AllocatorAvl ι μ) (op : Op) : Decidable (Allowed root s op) :=
  inferInstanceAs (Decidable (_ ∧ _))

theorem exists_run (k : Nat) [NeZero k] (ops : List Op)
    {p : List (AllocatorAvl (Fin k) (Finset (Fin k)) × Op) × AllocatorAvl (Fin k) (Finset (Fin k)) →
      Prop} [DecidablePred p]
    (h : (replay (perform (Allowed 0) (exec (stock k) 0)) ops ([], empty k)).any
      (fun r => decide (p r)) = true) :
    ∃ (hist : List (AllocatorAvl (Fin k) (Finset (Fin k)) × Op))
      (s : AllocatorAvl (Fin k) (Finset (Fin k))),
      Run (Init (stock k) 0) (Trans (stock k) 0) hist s ∧ p (hist, s) :=
  exists_guarded_run (init_empty k) h

/-- A block at address 0 that was allocated is no successor of a range
at the end of the address space. -/
theorem addsExactly_iff_used :
    ∃ (hist : List (AllocatorAvl (Fin 8) (Finset (Fin 8)) × Op))
      (s : AllocatorAvl (Fin 8) (Finset (Fin 8))),
      Run (Init (stock 8) 0) (Trans (stock 8) 0) hist s ∧ hist ≠ [] ∧
      ∃ r s' L L', s.blocks 0 = .ok L ∧
        s.addRange 0 (stock 8).mdAlloc (2 ^ 64 - 0x1000) 0x1000 = .ok (r, s') ∧
        s'.blocks 0 = .ok L' ∧ (∀ e, r = .error e → L'.Perm L) ∧
        (r = .ok () → (AddsExactly L L' (2 ^ 64 - 0x1000) 0x1000 ↔
          Bounded L (2 ^ 64 - 0x1000) 0x1000)) := by
  obtain ⟨hist, s, h, hs⟩ := exists_run 8 [.addRange 0 0x1000, .allocAddr 0x1000 0]
    (p := fun r => r.1 ≠ [] ∧ r.2.blockList 0 = [⟨0, 0x1000, true⟩]) (by decide +kernel)
  exact ⟨hist, s, h, hs.1, addsExactly_iff h (by omega) (by omega)⟩

/-- A free block at address 0 is merged with a range at the end of the
address space, and its addresses are lost. -/
theorem addRange_swallows_first_block :
    ∃ (hist : List (AllocatorAvl (Fin 8) (Finset (Fin 8)) × Op))
      (s : AllocatorAvl (Fin 8) (Finset (Fin 8))),
      Run (Init (stock 8) 0) (Trans (stock 8) 0) hist s ∧
      ∃ s' L L', s.blocks 0 = .ok L ∧
        s.addRange 0 (stock 8).mdAlloc (2 ^ 64 - 0x1000) 0x1000 = .ok (.ok (), s') ∧
        s'.blocks 0 = .ok L' ∧ ¬ AddsExactly L L' (2 ^ 64 - 0x1000) 0x1000 := by
  obtain ⟨hist, s, h, hL, hrun⟩ := exists_run 8 [.addRange 0 0x1000]
    (p := fun r => r.2.blocks 0 = .ok [⟨0, 0x1000, false⟩] ∧ (do
      let t ← r.2.addRange 0 (stock 8).mdAlloc (2 ^ 64 - 0x1000) 0x1000
      let L' ← t.2.blocks 0
      .ok (t.1, L') : Exec (Except AllocError Unit × List Block)) =
        .ok (.ok (), [⟨2 ^ 64 - 0x1000, 0x2000, false⟩])) (by decide +kernel)
  obtain ⟨⟨r, s'⟩, hs', hrun⟩ := Exec.bind_eq_ok.mp hrun
  obtain ⟨L', hL', hrun⟩ := Exec.bind_eq_ok.mp hrun
  obtain ⟨rfl, rfl⟩ : r = .ok () ∧ L' = [⟨2 ^ 64 - 0x1000, 0x2000, false⟩] := by simpa using hrun
  refine ⟨hist, s, h, s', _, _, hL, hs', hL', fun hex => ?_⟩
  have hzero := (hex.addresses 0).mpr (.inl ⟨_, List.mem_singleton_self _, by decide⟩)
  obtain ⟨b, hb, hc⟩ := hzero
  obtain rfl := List.mem_singleton.mp hb
  exact absurd hc (by decide)

end Genode.Base
