import Genode.Hw.PageTable

/-!
# PageWalk — what the MMU makes of the entries

The MMU follows the entries for an address from the root down to the page
that contains it. Access rights have to be granted on all levels. An entry
tells the page as it was inserted, whatever flags the MMU has set in it.
-/

namespace Genode.Hw

open Lib Util
open CommonDescriptor (present clearMmuFlags)
open BaseDescriptor (mapsPage)

/-- How a page may be used. -/
structure PageAttr where
  writeable : Bool
  user : Bool
  executable : Bool
  global : Bool
  writeCombined : Bool
  deriving DecidableEq, Repr

/-- What an entry says about a page. -/
structure Frame where
  addr : Nat
  attr : PageAttr
  deriving DecidableEq, Repr

/-- A page that starts at an address. -/
structure Page where
  start : Nat
  log2 : Nat
  frame : Frame
  deriving DecidableEq, Repr

def PageFlags.attr (flags : PageFlags) : PageAttr :=
  ⟨flags.writeable, !flags.privileged, flags.executable, flags.global, flags.wc⟩

/-- What an entry says about the page that it maps. -/
def frameOf (log2 v : Nat) : Frame :=
  ⟨(PageDescriptor.pa log2).masked v,
    v.testBit 1, v.testBit 2, !v.testBit 63, v.testBit 8, v.testBit 3⟩

/-- The rights that are left if an entry for a table is on the way. -/
def PageAttr.through (attr : PageAttr) (v : Nat) : PageAttr :=
  { attr with
    writeable := attr.writeable && v.testBit 1
    user := attr.user && v.testBit 2
    executable := attr.executable && !v.testBit 63 }

namespace Page

/-- A page of a table, seen from the table above. -/
def moved (c : Nat) (x : Page) : Page := { x with start := c + x.start }

def through (v : Nat) (x : Page) : Page := { x with frame.attr := x.frame.attr.through v }

end Page

/-- The sizes of what an entry stands for, from the root on. -/
def pageSizes : List Nat := [39, 30, 21, 12]

/-- The page that the MMU finds at an address, from the table `t` on. -/
def walk {n : Nat} {μ : Type} (A : TableArray n) (s : PageTables n μ) :
    List Nat → Option (Fin n) → Nat → Option Page
  | [], _, _ => none
  | p :: ps, t, a =>
    let v := s.entries t (a / 2 ^ p)
    if !present v then none
    else if p = 12 ∨ p ≠ 39 ∧ mapsPage v then some ⟨clearLow a p, p, frameOf p v⟩
    else
      match A.virtAddr (TableDescriptor.pa.masked v) with
      | .error _ => none
      | .ok i => (walk A s ps (some i) (a % 2 ^ p)).map fun x => (x.through v).moved (clearLow a p)

/-! ## The bits of an entry -/

/-- A field of a single bit. -/
theorem testBit_single {k : Nat} (hk : k < 64) (b : Bool) (i : Nat) :
    (Bitfield.bits (⟨k, 1⟩ : Bitfield 64) b.toNat).testBit i = (decide (i = k) && b) := by
  rw [Bitfield.testBit_bits]
  by_cases h : i = k
  · subst h
    simp [Bitfield.Has, hk]
    cases b <;> rfl
  · have hno : ¬ (⟨k, 1⟩ : Bitfield 64).Has i := fun ⟨h₁, h₂, _⟩ => h (by dsimp only at h₁ h₂; omega)
    simp [h, hno]

theorem present_eq (v : Nat) : present v = v.testBit 0 := by
  rw [present, Bitfield.get_bit _ rfl]
  cases h : v.testBit 0 <;> simp [CommonDescriptor.p, h]

theorem mapsPage_eq (v : Nat) : mapsPage v = v.testBit 7 := by
  rw [mapsPage, Bitfield.get_bit _ rfl]
  cases h : v.testBit 7 <;> simp [BaseDescriptor.ps, h]

theorem testBit_clearMmuFlags {v i : Nat} (hi : i < 64) (h₅ : i ≠ 5) (h₆ : i ≠ 6) :
    (clearMmuFlags v).testBit i = v.testBit i := by
  rw [clearMmuFlags, Bitfield.testBit_clear, Bitfield.testBit_clear]
  have ha : ¬ CommonDescriptor.a.Has i := fun ⟨h₁, h₂, _⟩ => by
    simp only [CommonDescriptor.a] at h₁ h₂
    omega
  have hd : ¬ CommonDescriptor.d.Has i := fun ⟨h₁, h₂, _⟩ => by
    simp only [CommonDescriptor.d] at h₁ h₂
    omega
  simp [ha, hd, hi]

/-- Without the flags of the MMU there is nothing to clear. -/
theorem clearMmuFlags_eq {v : Nat} (h : ∀ i, i = 5 ∨ i = 6 ∨ 64 ≤ i → v.testBit i = false) :
    clearMmuFlags v = v := by
  apply Nat.eq_of_testBit_eq
  intro i
  by_cases hi : i = 5 ∨ i = 6 ∨ 64 ≤ i
  · rw [h i hi, clearMmuFlags, Bitfield.testBit_clear, Bitfield.testBit_clear, h i hi]
    simp
  · exact testBit_clearMmuFlags (by omega) (by omega) (by omega)

theorem present_clearMmuFlags (v : Nat) : present (clearMmuFlags v) = present v := by
  rw [present_eq, present_eq, testBit_clearMmuFlags] <;> omega

theorem mapsPage_clearMmuFlags (v : Nat) : mapsPage (clearMmuFlags v) = mapsPage v := by
  rw [mapsPage_eq, mapsPage_eq, testBit_clearMmuFlags] <;> omega

theorem testBit_create (flags : PageFlags) (i : Nat) :
    (CommonDescriptor.create flags).testBit i =
      (decide (i = 0) || (decide (i = 1) && flags.writeable) ||
        (decide (i = 2) && !flags.privileged) || (decide (i = 63) && !flags.executable)) := by
  rw [CommonDescriptor.create, Nat.testBit_or, Nat.testBit_or, Nat.testBit_or]
  have h₀ := testBit_single (k := 0) (by omega) true i
  have h₁ := testBit_single (k := 1) (by omega) flags.writeable i
  have h₂ := testBit_single (k := 2) (by omega) (!flags.privileged) i
  have h₃ := testBit_single (k := 63) (by omega) (!flags.executable) i
  rw [CommonDescriptor.p, CommonDescriptor.rw, CommonDescriptor.us, CommonDescriptor.xd, h₁, h₂, h₃]
  rw [show Bool.toNat true = 1 from rfl] at h₀
  rw [h₀, Bool.and_true]

/-! ## Entries for pages -/

/-- The entry for a page of the given size. -/
def pageEntry (log2 : Nat) (flags : PageFlags) (addr : Nat) : Nat :=
  if log2 = 12 then Level4.create flags addr else PageDescriptor.create log2 flags addr

/-- An address at which a page may start. -/
structure Aligned (log2 addr : Nat) : Prop where
  dvd : 2 ^ log2 ∣ addr
  lt : addr < 2 ^ 48

/-- The lower bits of an address are no part of it. -/
theorem Aligned.low {log2 addr i : Nat} (h : Aligned log2 addr) (hi : i < log2) :
    addr.testBit i = false := by
  obtain ⟨k, rfl⟩ := h.dvd
  simp [Nat.testBit_two_pow_mul, show ¬ i ≥ log2 by omega]

theorem Aligned.high {log2 addr i : Nat} (h : Aligned log2 addr) (hi : 48 ≤ i) :
    addr.testBit i = false :=
  Nat.testBit_lt_two_pow (lt_of_lt_of_le h.lt (Nat.pow_le_pow_right (by omega) hi))

theorem Aligned.masked {log2 addr : Nat} (h : Aligned log2 addr) (hle : log2 ≤ 48) :
    (PageDescriptor.pa log2).masked addr = addr := by
  refine Bitfield.masked_eq _ fun i hi => ?_
  have hlow : log2 ≤ i := by
    by_contra hlt
    simp [h.low (i := i) (by omega)] at hi
  have hhigh : i < 48 := by
    by_contra hge
    simp [h.high (i := i) (by omega)] at hi
  exact ⟨hlow, by simp only [PageDescriptor.pa]; omega, by omega⟩

theorem testBit_pageEntry {log2 addr : Nat} (h : Aligned log2 addr) (hlow : 12 ≤ log2)
    (hle : log2 ≤ 48) (flags : PageFlags) (i : Nat) :
    (pageEntry log2 flags addr).testBit i =
      (decide (i = 0) || (decide (i = 1) && flags.writeable) ||
        (decide (i = 2) && !flags.privileged) || (decide (i = 63) && !flags.executable) ||
        (decide (i = 7) && decide (log2 ≠ 12)) || (decide (i = 8) && flags.global) ||
        addr.testBit i || (decide (i = 3) && flags.wc)) := by
  have h₁ := testBit_single (k := 7) (by omega) true i
  have h₂ := testBit_single (k := 8) (by omega) flags.global i
  have h₃ := testBit_single (k := 3) (by omega) flags.wc i
  rw [show Bool.toNat true = 1 from rfl] at h₁
  unfold pageEntry
  split
  · next h12 =>
    subst h12
    have hm : Level4.pa.masked addr = addr := h.masked (by omega)
    rw [Level4.create, Nat.testBit_or, Nat.testBit_or, Nat.testBit_or, testBit_create, hm, Level4.g,
      CommonDescriptor.pwt, h₂, h₃]
    simp
  · next h12 =>
    rw [PageDescriptor.create, Nat.testBit_or, Nat.testBit_or, Nat.testBit_or, Nat.testBit_or,
      testBit_create, h.masked hle, BaseDescriptor.ps, PageDescriptor.g, CommonDescriptor.pwt, h₁, h₂,
      h₃]
    simp [h12]

theorem clearMmuFlags_pageEntry {log2 addr : Nat} (h : Aligned log2 addr) (hlow : 12 ≤ log2)
    (hle : log2 ≤ 48) (flags : PageFlags) :
    clearMmuFlags (pageEntry log2 flags addr) = pageEntry log2 flags addr := by
  refine clearMmuFlags_eq fun i hi => ?_
  have haddr : addr.testBit i = false := by
    by_cases h64 : 64 ≤ i
    · exact h.high (by omega)
    · exact h.low (by omega)
  rw [testBit_pageEntry h hlow hle, haddr]
  have hne : ∀ k, k < 4 ∨ k = 7 ∨ k = 8 ∨ k = 63 → i ≠ k := fun k hk => by omega
  simp [hne 0, hne 1, hne 2, hne 3, hne 7, hne 8, hne 63]

/-- The entry maps the frame, whatever flags the MMU has set. -/
def Maps (log2 v : Nat) (x : Frame) : Prop :=
  ∃ flags : PageFlags, flags.attr = x.attr ∧ clearMmuFlags v = pageEntry log2 flags x.addr

section Maps

variable {log2 v v' : Nat} {x y : Frame} (hlow : 12 ≤ log2) (hle : log2 ≤ 48)
  (hx : Aligned log2 x.addr)
include hlow hle hx

theorem Maps.present (h : Maps log2 v x) : present v = true := by
  obtain ⟨flags, -, h⟩ := h
  rw [← present_clearMmuFlags, h, present_eq, testBit_pageEntry hx hlow hle]
  simp

theorem Maps.mapsPage (h : Maps log2 v x) (h12 : log2 ≠ 12) : mapsPage v = true := by
  obtain ⟨flags, -, h⟩ := h
  rw [← mapsPage_clearMmuFlags, h, mapsPage_eq, testBit_pageEntry hx hlow hle]
  simp [h12]

/-- The MMU reads what was written. -/
theorem Maps.frameOf (h : Maps log2 v x) : frameOf log2 v = x := by
  obtain ⟨flags, hattr, h⟩ := h
  have hbit : ∀ i, i < 64 → i ≠ 5 → i ≠ 6 → v.testBit i = (pageEntry log2 flags x.addr).testBit i :=
    fun i h₁ h₂ h₃ => by rw [← h, testBit_clearMmuFlags h₁ h₂ h₃]
  have hlow' := fun i (hi : i < 12) => hx.low (i := i) (by omega)
  have haddr : (PageDescriptor.pa log2).masked v = x.addr := by
    rw [← hx.masked hle]
    apply Nat.eq_of_testBit_eq
    intro i
    rw [Bitfield.testBit_masked, Bitfield.testBit_masked]
    by_cases hi : (PageDescriptor.pa log2).Has i
    · have h₁ : log2 ≤ i := hi.1
      have h₂ : i < 48 := by
        have := hi.2.1
        simp only [PageDescriptor.pa] at this
        omega
      rw [hbit i (by omega) (by omega) (by omega), testBit_pageEntry hx hlow hle]
      have h0 : ∀ k, k < 12 → i ≠ k := fun k hk => by omega
      simp [h0 0, h0 1, h0 2, h0 3, h0 7, h0 8, show i ≠ 63 by omega]
    · simp [hi]
  obtain ⟨addr, attr⟩ := x
  subst hattr
  rw [Hw.frameOf, haddr, hbit 1 (by omega) (by omega) (by omega),
    hbit 2 (by omega) (by omega) (by omega), hbit 63 (by omega) (by omega) (by omega),
    hbit 8 (by omega) (by omega) (by omega), hbit 3 (by omega) (by omega) (by omega)]
  have h63 := hx.high (i := 63) (by omega)
  dsimp only at h63 hlow' hx
  simp [testBit_pageEntry hx hlow hle, hlow' 1, hlow' 2, hlow' 8, hlow' 3, h63, PageFlags.attr]

end Maps

/-- An entry depends on what the MMU may be told, only. -/
theorem pageEntry_congr {flags flags' : PageFlags} (h : flags.attr = flags'.attr) (log2 addr : Nat) :
    pageEntry log2 flags addr = pageEntry log2 flags' addr := by
  simp only [PageFlags.attr, PageAttr.mk.injEq, Bool.not_inj_iff] at h
  obtain ⟨h₁, h₂, h₃, h₄, h₅⟩ := h
  simp only [pageEntry, Level4.create, PageDescriptor.create, CommonDescriptor.create, h₁, h₂, h₃,
    h₄, h₅]

/-- Two entries are the same, up to the flags of the MMU, if they map the
same frame. -/
theorem Maps.eq_iff {log2 v : Nat} {x y : Frame} (hlow : 12 ≤ log2) (hle : log2 ≤ 48)
    (hx : Aligned log2 x.addr) (hy : Aligned log2 y.addr) (h : Maps log2 v x) {flags : PageFlags}
    (hflags : flags.attr = y.attr) :
    clearMmuFlags v = pageEntry log2 flags y.addr ↔ x = y := by
  constructor
  · intro he
    have hv : Maps log2 v y := ⟨flags, hflags, he⟩
    rw [← h.frameOf hlow hle hx, hv.frameOf hlow hle hy]
  · rintro rfl
    obtain ⟨flags', hattr, h⟩ := h
    rw [h, pageEntry_congr (hattr.trans hflags.symm)]

/-! ## Entries for tables -/

/-- The entry refers to a table. -/
def Refers {n : Nat} (A : TableArray n) (v : Nat) (i : Fin n) : Prop :=
  clearMmuFlags v = TableDescriptor.create (A.physAddr i)

section Refers

variable {n : Nat} {A : TableArray n} {v : Nat} {i : Fin n}

theorem TableArray.aligned_physAddr (i : Fin n) : Aligned 12 (A.physAddr i) := by
  refine ⟨?_, ?_⟩
  · exact Nat.dvd_add A.aligned (Nat.dvd_mul_left _ _)
  · have := A.within
    have := i.isLt
    unfold physAddr
    omega

theorem TableArray.virtAddr_physAddr (i : Fin n) : A.virtAddr (A.physAddr i) = .ok i := by
  have hsub : A.physAddr i - A.base = i * 4096 := Nat.add_sub_cancel_left _ _
  have h : A.base ≤ A.physAddr i ∧ (A.physAddr i - A.base) % 4096 = 0 ∧
      (A.physAddr i - A.base) / 4096 < n := by
    refine ⟨Nat.le_add_right _ _, ?_, ?_⟩
    · rw [hsub, Nat.mul_mod_left]
    · rw [hsub, Nat.mul_div_cancel _ (by omega)]
      exact i.isLt
  rw [virtAddr, dif_pos h]
  congr 1
  apply Fin.ext
  dsimp only
  rw [hsub, Nat.mul_div_cancel _ (by omega)]

theorem testBit_tableEntry (i : Fin n) (j : Nat) :
    (TableDescriptor.create (A.physAddr i)).testBit j =
      (decide (j = 0) || decide (j = 1) || decide (j = 2) || (A.physAddr i).testBit j) := by
  have hm : TableDescriptor.pa.masked (A.physAddr i) = A.physAddr i :=
    (A.aligned_physAddr i).masked (by omega)
  rw [TableDescriptor.create, Nat.testBit_or, testBit_create, hm]
  simp [tableFlags]

theorem refers_tableEntry (i : Fin n) : Refers A (TableDescriptor.create (A.physAddr i)) i := by
  refine clearMmuFlags_eq fun j hj => ?_
  have haddr : (A.physAddr i).testBit j = false := by
    by_cases h12 : j < 12
    · exact (A.aligned_physAddr i).low h12
    · exact (A.aligned_physAddr i).high (by omega)
  rw [testBit_tableEntry, haddr]
  simp [show j ≠ 0 by omega, show j ≠ 1 by omega, show j ≠ 2 by omega]

/-- The root refers to tables in the same way. -/
theorem Pml4.create_eq (i : Fin n) :
    Pml4.create (A.physAddr i) = TableDescriptor.create (A.physAddr i) := by
  have hm : TableDescriptor.pa.masked (A.physAddr i) = A.physAddr i :=
    (A.aligned_physAddr i).masked (by omega)
  have hm' : Pml4.pa.masked (A.physAddr i) = A.physAddr i := by
    refine Bitfield.masked_eq _ fun j hj => ?_
    have hlow : ¬ j < 12 := fun hlt => by
      simp [(A.aligned_physAddr i).low (i := j) (by omega)] at hj
    have hhigh : ¬ 48 ≤ j := fun hge => by
      simp [(A.aligned_physAddr i).high (i := j) (by omega)] at hj
    exact ⟨by simp only [Pml4.pa]; omega, by simp only [Pml4.pa]; omega, by omega⟩
  rw [Pml4.create, TableDescriptor.create, hm, hm']

namespace Refers

variable (h : Refers A v i)
include h

theorem bit {j : Nat} (hj : j < 64) (h₅ : j ≠ 5) (h₆ : j ≠ 6) :
    v.testBit j = (TableDescriptor.create (A.physAddr i)).testBit j := by
  rw [← testBit_clearMmuFlags hj h₅ h₆, h]

theorem low {j : Nat} (hj : j < 12) (h₅ : j ≠ 5) (h₆ : j ≠ 6) :
    v.testBit j = (decide (j = 0) || decide (j = 1) || decide (j = 2)) := by
  rw [h.bit (by omega) h₅ h₆, testBit_tableEntry,
    (A.aligned_physAddr i).low hj]
  simp

theorem present : present v = true := by
  rw [present_eq, h.low (by omega) (by omega) (by omega)]
  rfl

theorem not_mapsPage : mapsPage v = false := by
  rw [mapsPage_eq, h.low (by omega) (by omega) (by omega)]
  rfl

/-- All rights are left to the entries below. -/
theorem through (attr : PageAttr) : attr.through v = attr := by
  have h63 : v.testBit 63 = false := by
    rw [h.bit (by omega) (by omega) (by omega), testBit_tableEntry,
      (A.aligned_physAddr i).high (by omega)]
    rfl
  rw [PageAttr.through, h.low (by omega) (by omega) (by omega),
    h.low (by omega) (by omega) (by omega), h63]
  simp

theorem masked {f : Bitfield 64} (hlow : f.shift = 12) (hhigh : 36 ≤ f.width)
    (hwidth : f.width ≤ 51) : f.masked v = A.physAddr i := by
  have hA := A.aligned_physAddr i
  apply Nat.eq_of_testBit_eq
  intro j
  rw [Bitfield.testBit_masked]
  by_cases hj : f.Has j
  · have h₁ : 12 ≤ j := hlow ▸ hj.1
    have h₂ : j < 63 := by
      have := hj.2.1
      omega
    rw [h.bit (by omega) (by omega) (by omega), testBit_tableEntry]
    simp [hj, show j ≠ 0 by omega, show j ≠ 1 by omega, show j ≠ 2 by omega]
  · have hno : (A.physAddr i).testBit j = false := by
      by_cases h12 : j < 12
      · exact hA.low h12
      · refine hA.high ?_
        by_contra hlt
        exact hj ⟨by omega, by omega, by omega⟩
    simp [hj, hno]

end Refers

end Refers

end Genode.Hw
