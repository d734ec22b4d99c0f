import Genode.Base.Metadata
import Genode.Lib.Cover
import Genode.Util.BitAllocator

/-!
# PacketAllocator — the allocator of packets

`os/include/os/packet_allocator.h`. A range of memory is handed out in
blocks, and the bits of an array tell which of them are in use. The
array object and its bits are two entries of the metadata allocator. The
pointers to them are modelled as they are, also where they are left
dangling.
-/

namespace Genode.Os

open Base Lib Util

/-- `Packet_allocator`. The bits that `_bits` points to are a part of the array. -/
structure PacketAllocator (ι μ : Type) where
  bits : Option ι
  array : Option (ι × BitArray)
  base : Nat
  next : Nat
  md : μ

namespace PacketAllocator

variable {ι μ : Type} [DecidableEq ι]

/-- `_bits_cnt`. -/
def bitsCnt (blockSize size : Nat) : Nat :=
  let cnt := size / blockSize % 2 ^ 32
  let aligned := if cnt % 64 ≠ 0 then cnt / 64 + 1 else cnt / 64
  aligned * 64 % 2 ^ 32

/-- The number of blocks of a packet. -/
def blocks (blockSize size : Nat) : Nat :=
  if size % blockSize ≠ 0 then size / blockSize + 1 else size / blockSize

/-- Where the search starts, `_next & ~(cnt - 1)`. -/
def start (next cnt : Nat) : Nat := (BitVec.ofNat 64 next &&& ~~~(BitVec.ofNat 64 cnt - 1)).toNat

variable (D : Md ι μ) (blockSize : Nat) (s : PacketAllocator ι μ)

/-- The end of `add_range` after an exception. -/
def giveUp (e : AllocError) : Exec (Except AllocError Unit × PacketAllocator ι μ) := do
  let m ← s.bits.elim (.ok s.md) fun x => D.give x s.md
  let m ← s.array.elim (.ok m) fun y => D.give y.1 m
  .ok (.error e, { s with md := m })

/-- `add_range`: the bits that are unavailable are reserved. -/
def reserve (array : BitArray) (cnt maxCnt : Nat) : Except BitFault Unit × BitArray :=
  if maxCnt < cnt then array.set maxCnt (cnt - maxCnt) else (.ok (), array)

/-- `add_range`. -/
def addRange (base size : Nat) : Exec (Except AllocError Unit × PacketAllocator ι μ) :=
  if s.base ≠ 0 ∨ s.array.isSome then .ok (.error .denied, s)
  else
    let cnt := bitsCnt blockSize size
    let s := { s with base }
    match D.take s.md with
    | (.error e, m) => giveUp D { s with md := m } e
    | (.ok x, m) =>
      let s := { s with bits := some x, md := m }
      match D.take m with
      | (.error e, m) => giveUp D { s with md := m } e
      | (.ok y, m) =>
        if cnt = 0 ∨ cnt % 64 ≠ 0 then do
          -- the constructor of the array throws, and its memory goes back
          let m ← D.give y m
          giveUp D { s with md := m } .denied
        else
          match reserve (.init cnt) cnt (size / blockSize) with
          | (.ok (), array) => .ok (.ok (), { s with array := some (y, array), md := m })
          | (.error _, array) => giveUp D { s with array := some (y, array), md := m } .denied

/-- `remove_range`. -/
def removeRange (base : Nat) : Exec (Except AllocError Unit × PacketAllocator ι μ) :=
  if s.base ≠ base then .ok (.error .denied, s)
  else do
    let m ← s.array.elim (.ok s.md) fun y => D.give y.1 s.md
    let m ← s.bits.elim (.ok m) fun x => D.give x m
    .ok (.ok (), ⟨none, none, 0, 0, m⟩)

/-- The search of `try_alloc` from `i` on. It ends without a block also
by the exception of an access behind the array. -/
def pass (array : BitArray) (cnt max i : Nat) : Exec (Option (Nat × BitArray)) :=
  match BitAllocator.scan array cnt max (array.bits + 1) i with
  | .error .invalidIndexAccess => .ok none
  | .error _ => .error .endless
  | .ok none => .ok none
  | .ok (some i) =>
    match array.set i cnt with
    | (.ok (), array) => .ok (some (i, array))
    | (.error _, _) => .error .assertion

/-- `try_alloc`. The second round runs up to the hint of the first one. -/
def tryAlloc (size : Nat) : Exec (Except AllocError Nat × PacketAllocator ι μ) := do
  let (y, array) ← Exec.deref s.array
  let cnt := blocks blockSize size
  let taken := fun found : Nat × BitArray => (Except.ok ((found.1 * blockSize + s.base) % 2 ^ 64),
    { s with array := some (y, found.2), next := (found.1 + cnt) % 2 ^ 64 })
  let first ← pass array cnt (2 ^ 64 - 1) (start s.next cnt)
  match first with
  | some found => .ok (taken found)
  | none =>
    if s.next = 0 then .ok (.error .denied, s)
    else do
      let second ← pass array cnt s.next (start 0 cnt)
      match second with
      | some found => .ok (taken found)
      | none => .ok (.error .denied, { s with next := 0 })

/-- The index of the first block of a packet, as `free` computes it. -/
def index (base addr : Nat) : Nat := (addr + 2 ^ 64 - base) % 2 ^ 64 / blockSize

/-- `free`, which ignores the exceptions of the array. -/
def free (addr size : Nat) : Exec (PacketAllocator ι μ) := do
  let (y, array) ← Exec.deref s.array
  let i := index blockSize s.base addr
  .ok { s with array := some (y, (array.clear i (blocks blockSize size)).2), next := i }

/-! ## The search -/

section Search

variable {array : BitArray} {cnt max i k next : Nat}

theorem testBit_start (hn : next < 2 ^ 64) (hk : k < 64) (j : Nat) :
    (start next (2 ^ k)).testBit j = (decide (k ≤ j) && next.testBit j) := by
  have hone : BitVec.ofNat 64 (2 ^ k) = 1#64 <<< k := by
    apply BitVec.eq_of_toNat_eq
    simp [Nat.shiftLeft_eq]
  rw [start, hone, BitVec.testBit_toNat, BitVec.getLsbD_and, BitVec.getLsbD_not,
    BitArray.getLsbD_ones hk, BitVec.getLsbD_ofNat]
  by_cases hj : j < 64
  · by_cases hkj : k ≤ j
    · have : ¬ j < k := by omega
      simp [hj, hkj, this]
    · have : j < k := by omega
      simp [hj, hkj, this]
  · have hzero : next.testBit j = false :=
      Nat.testBit_lt_two_pow (hn.trans_le (Nat.pow_le_pow_right (by omega) (by omega)))
    simp [hzero]

/-- The search for a power of two starts at a multiple of it. -/
theorem start_two_pow (hn : next < 2 ^ 64) (hk : k < 64) :
    start next (2 ^ k) = next / 2 ^ k * 2 ^ k := by
  apply Nat.eq_of_testBit_eq
  intro j
  rw [testBit_start hn hk, Nat.testBit_mul_two_pow, Nat.testBit_div_two_pow]
  by_cases hj : k ≤ j
  · simp [hj]
  · simp [hj]

theorem start_zero_right : start next 0 = 0 := by
  have hmask : ~~~(BitVec.ofNat 64 0 - 1) = 0#64 := by decide
  rw [start, hmask, BitVec.and_zero]
  rfl

theorem start_zero_left : start 0 cnt = 0 := by
  rw [start, show BitVec.ofNat 64 0 = 0#64 from rfl, BitVec.zero_and]
  rfl

/-- What the search finds is free. -/
theorem scan_sound {n : Nat} (hcnt : 0 < cnt) (hpos : 0 < n) (hn : array.bits < n + i) :
    (∃ m, BitAllocator.scan array cnt max n i = .ok (some m) ∧ m < array.bits ∧
      m + cnt ≤ array.bits ∧ BitAllocator.Free array m cnt) ∨
    BitAllocator.scan array cnt max n i = .ok none ∨
    BitAllocator.scan array cnt max n i = .error .invalidIndexAccess := by
  induction n generalizing i with
  | zero => omega
  | succ n ih =>
    unfold BitAllocator.scan
    by_cases hmax : i < max
    · rw [if_pos hmax]
      by_cases hin : i < array.bits ∧ i + cnt ≤ array.bits
      · obtain ⟨used, hget, hused⟩ := BitArray.get_spec hin.1 hin.2
        rw [hget]
        cases used with
        | false => exact .inl ⟨i, rfl, hin.1, hin.2, (BitAllocator.free_of_get hused).mp rfl⟩
        | true => exact ih (by omega) (by omega)
      · rw [BitArray.get_outOfRange hin]
        exact .inr (.inr rfl)
    · rw [if_neg hmax]
      exact .inr (.inl rfl)

/-- A block that a search takes. -/
structure Takes (array array' : BitArray) (m cnt : Nat) : Prop where
  lt : m < array.bits
  le : m + cnt ≤ array.bits
  free : BitAllocator.Free array m cnt
  changed : BitArray.Changed array array' (BitArray.InRange m cnt) true
  first : cnt = 0 → m = 0

theorem pass_of_scan {m : Nat}
    (hm : BitAllocator.scan array cnt max (array.bits + 1) i = .ok (some m))
    (hlt : m < array.bits) (hle : m + cnt ≤ array.bits) (hfree : BitAllocator.Free array m cnt)
    (hfirst : cnt = 0 → m = 0) :
    ∃ array', pass array cnt max i = .ok (some (m, array')) ∧ Takes array array' m cnt := by
  obtain ⟨b, hb, hchanged⟩ := BitArray.setRange_spec false hlt hle hfree
  refine ⟨b, ?_, hlt, hle, hfree, hchanged, hfirst⟩
  simp only [pass, hm, BitArray.set, hb]

theorem pass_sound (hbits : 0 < array.bits) (hstart : cnt = 0 → i = 0 ∧ 0 < max) :
    (∃ m array', pass array cnt max i = .ok (some (m, array')) ∧ Takes array array' m cnt) ∨
    pass array cnt max i = .ok none := by
  by_cases hcnt : cnt = 0
  · -- a packet without blocks is always there
    obtain ⟨rfl, hmax⟩ := hstart hcnt
    subst hcnt
    obtain ⟨used, hget, hused⟩ := BitArray.get_spec hbits (show 0 + 0 ≤ array.bits from Nat.zero_le _)
    have hfree : BitAllocator.Free array 0 0 := fun j hj => absurd hj.2 (by omega)
    have hused' : used = false := (BitAllocator.free_of_get hused).mpr hfree
    have hscan : BitAllocator.scan array 0 max (array.bits + 1) 0 = .ok (some 0) := by
      rw [BitAllocator.scan, if_pos hmax, hget, hused']
    obtain ⟨array', hp, ht⟩ := pass_of_scan hscan hbits (Nat.zero_le _) hfree fun _ => rfl
    exact .inl ⟨0, array', hp, ht⟩
  · have hscan : _ ∨ BitAllocator.scan array cnt max (array.bits + 1) i = .ok none ∨
        BitAllocator.scan array cnt max (array.bits + 1) i = .error .invalidIndexAccess :=
      scan_sound (Nat.pos_of_ne_zero hcnt) (Nat.succ_pos _) (by omega)
    rcases hscan with ⟨m, hm, hlt, hle, hfree⟩ | hend | hend
    · obtain ⟨array', hp, ht⟩ := pass_of_scan hm hlt hle hfree fun h0 => absurd h0 hcnt
      exact .inl ⟨m, array', hp, ht⟩
    · refine .inr ?_
      simp only [pass, hend]
    · refine .inr ?_
      simp only [pass, hend]

/-- If a search for a power of two finds nothing, there is nothing. -/
theorem pass_none (hnext : next < 2 ^ 64) (hk : k < 64)
    (h : pass array (2 ^ k) max (start next (2 ^ k)) = .ok none) :
    ∀ m, ¬ BitAllocator.Found array (2 ^ k) max (next / 2 ^ k * 2 ^ k) m := by
  rw [start_two_pow hnext hk] at h
  rcases BitAllocator.scan_spec array max (Nat.two_pow_pos k) (Nat.dvd_mul_left _ (next / 2 ^ k))
    (Nat.succ_pos array.bits) (by omega) with ⟨m, hm, hleast⟩ | ⟨-, hno⟩
  · have hf : BitAllocator.Found array (2 ^ k) max (next / 2 ^ k * 2 ^ k) m := hleast.1
    have hpos := Nat.two_pow_pos k
    obtain ⟨array', hp, -⟩ := pass_of_scan hm (by have := hf.2.2.2.1; omega) hf.2.2.2.1 hf.2.2.2.2
      fun h0 => by omega
    simp [hp] at h
  · exact hno

omit [DecidableEq ι] in
/-- `try_alloc` takes blocks that are free. If it takes none for a power
of two, there are none at a multiple of it. -/
theorem tryAlloc_spec (size : Nat) {s : PacketAllocator ι μ} {y : ι}
    (hs : s.array = some (y, array)) (hpos : 0 < array.bits) (hbits : array.bits < 2 ^ 64 - 1)
    (hn : s.next ≤ array.bits) :
    (∃ m array', s.tryAlloc blockSize size = .ok (.ok ((m * blockSize + s.base) % 2 ^ 64),
        { s with array := some (y, array'), next := m + blocks blockSize size }) ∧
      Takes array array' m (blocks blockSize size)) ∨
    s.tryAlloc blockSize size = .ok (.error .denied, { s with next := 0 }) ∧
      ∀ k m, blocks blockSize size = 2 ^ k → 2 ^ k ∣ m → m + 2 ^ k ≤ array.bits →
        ¬ BitAllocator.Free array m (2 ^ k) := by
  have hnext : s.next < 2 ^ 64 := by omega
  have hmod : ∀ {m array'}, Takes array array' m (blocks blockSize size) →
      (m + blocks blockSize size) % 2 ^ 64 = m + blocks blockSize size := fun ht =>
    Nat.mod_eq_of_lt (ht.le.trans_lt (by omega))
  have hpow : ∀ {k m}, m + 2 ^ k ≤ array.bits → k < 64 := by
    intro k m hle
    have hlt : 2 ^ k < 2 ^ 64 := by omega
    exact (Nat.pow_lt_pow_iff_right (by decide)).mp hlt
  have hzero : blocks blockSize size = 0 →
      start s.next (blocks blockSize size) = 0 ∧ 0 < 2 ^ 64 - 1 := by
    intro h0
    rw [h0]
    exact ⟨start_zero_right, by decide⟩
  rcases pass_sound hpos hzero with ⟨m, array', hp, ht⟩ | hfirst
  · refine .inl ⟨m, array', ?_, ht⟩
    simp only [tryAlloc, hs, Exec.deref_some, Exec.ok_bind, hp, hmod ht]
  · -- what the first pass did not find begins before the hint
    have hbefore : ∀ k m, blocks blockSize size = 2 ^ k → 2 ^ k ∣ m → m + 2 ^ k ≤ array.bits →
        BitAllocator.Free array m (2 ^ k) → m < s.next := by
      intro k m hk hdvd hle hfree
      rw [hk] at hfirst
      have hno : ∀ m, ¬ BitAllocator.Found array (2 ^ k) (2 ^ 64 - 1) (s.next / 2 ^ k * 2 ^ k) m :=
        pass_none hnext (hpow hle) hfirst
      have hlt : ¬ s.next / 2 ^ k * 2 ^ k ≤ m := fun hge =>
        hno m ⟨hge, hdvd, by omega, hle, hfree⟩
      have := Nat.div_mul_le_self s.next (2 ^ k)
      omega
    by_cases h0 : s.next = 0
    · refine .inr ⟨?_, fun k m hk hdvd hle hfree => ?_⟩
      · have hsame : { s with next := 0 } = s := by rw [← h0]
        rw [hsame]
        simp only [tryAlloc, hs, Exec.deref_some, Exec.ok_bind, hfirst, if_pos h0]
      · have := hbefore k m hk hdvd hle hfree
        omega
    · have hfront : blocks blockSize size = 0 →
          start 0 (blocks blockSize size) = 0 ∧ 0 < s.next := fun _ =>
        ⟨start_zero_left, Nat.pos_of_ne_zero h0⟩
      rcases pass_sound hpos hfront with ⟨m, array', hp, ht⟩ | hsecond
      · refine .inl ⟨m, array', ?_, ht⟩
        simp only [tryAlloc, hs, Exec.deref_some, Exec.ok_bind, hfirst, if_neg h0, hp, hmod ht]
      · refine .inr ⟨?_, fun k m hk hdvd hle hfree => ?_⟩
        · simp only [tryAlloc, hs, Exec.deref_some, Exec.ok_bind, hfirst, if_neg h0, hsecond]
        · rw [hk] at hsecond
          exact pass_none (by decide) (hpow hle) hsecond m
            ⟨by simp, hdvd, hbefore k m hk hdvd hle hfree, hle, hfree⟩

end Search

end PacketAllocator

end Genode.Os
