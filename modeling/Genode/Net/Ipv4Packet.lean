import Genode.Net.InternetChecksum

/-!
# Ipv4Packet — headers and their checksum

`net/ipv4.h` and `net/ipv4.cc`. The addresses of a header can be changed
together with a record of what the change does to the checksum, and the
record applied to the checksum later.
-/

namespace Genode.Net

/-- `Ipv4_address`, its `addr`. -/
abbrev Ipv4Address := Vector (BitVec 8) 4

/-- `Ipv4_packet`, without the data behind the header. Fields of 16 bits are as the
host reads them from the header. -/
structure Ipv4Packet where
  offset0U8 : BitVec 8
  offset1U8 : BitVec 8
  totalLength : BitVec 16
  identification : BitVec 16
  offset6U16 : BitVec 16
  timeToLive : BitVec 8
  protocol : BitVec 8
  checksum : BitVec 16
  src : Ipv4Address
  dst : Ipv4Address
  deriving DecidableEq, Repr

/-- A 16-bit field in memory, on a little-endian host. -/
def fieldBytes (field : BitVec 16) : List (BitVec 8) := [field.setWidth 8, (field >>> 8).setWidth 8]

namespace Ipv4Packet

variable (p : Ipv4Packet)

/-- The fields before the checksum. -/
def front : List (BitVec 8) :=
  [p.offset0U8, p.offset1U8] ++ fieldBytes p.totalLength ++ fieldBytes p.identification ++
    fieldBytes p.offset6U16 ++ [p.timeToLive, p.protocol]

/-- The `sizeof(Ipv4_packet)` bytes at `this`. -/
def bytes : List (BitVec 8) :=
  p.front ++ fieldBytes p.checksum ++ p.src.toList ++ p.dst.toList

def updateChecksum : Ipv4Packet :=
  { p with checksum := internetChecksum ({ p with checksum := 0 } : Ipv4Packet).bytes }

def checksumError : Bool := internetChecksum p.bytes != 0

/-- `update_checksum(icd)`. -/
def updateChecksumWith (icd : InternetChecksumDiff) : Ipv4Packet :=
  { p with checksum := icd.applyTo (p.checksum.setWidth 64) }

/-- A call of `src(v, icd)` or of `dst(v, icd)`. -/
inductive Modification where
  | src (v : Ipv4Address)
  | dst (v : Ipv4Address)
  deriving DecidableEq, Repr

def modify : Ipv4Packet × InternetChecksumDiff → Modification → Ipv4Packet × InternetChecksumDiff
  | (p, icd), .src v => ({ p with src := v }, icd.addUpDiff v.toList p.src.toList)
  | (p, icd), .dst v => ({ p with dst := v }, icd.addUpDiff v.toList p.dst.toList)

/-- The modifications, all recorded in one difference, and the update of the checksum. -/
def modifyAll (ms : List Modification) : Ipv4Packet :=
  let (p', icd) := ms.foldl modify (p, {})
  p'.updateChecksumWith icd

variable {p}

theorem packedUint16_fieldBytes (field : BitVec 16) :
    packedUint16 (field.setWidth 8) ((field >>> 8).setWidth 8) = field := by
  apply BitVec.eq_of_toNat_eq
  have hlt := field.isLt
  rw [toNat_packedUint16, BitVec.toNat_setWidth, BitVec.toNat_setWidth, BitVec.toNat_ushiftRight,
    Nat.shiftRight_eq_div_pow]
  omega

theorem wordSum_fieldBytes (field : BitVec 16) : wordSum (fieldBytes field) = field.toNat := by
  unfold fieldBytes
  rw [wordSum, packedUint16_fieldBytes, wordSum, add_zero]

/-- The sum of the words that `src` and `dst` are made of. -/
def addressSum (p : Ipv4Packet) : Int := wordSum p.src.toList + wordSum p.dst.toList

theorem wordSum_bytes : wordSum p.bytes = wordSum p.front + p.checksum.toNat + p.addressSum := by
  unfold bytes addressSum
  rw [wordSum_append _ (by simp [front, fieldBytes]), wordSum_append _ (by simp [front, fieldBytes]),
    wordSum_append _ (by simp [front, fieldBytes]), wordSum_fieldBytes]
  omega

theorem length_bytes : p.bytes.length = 20 := by simp [bytes, front, fieldBytes]

theorem wordSum_bytes_lt : wordSum p.bytes < 2 ^ 63 := by
  have hle := wordSum_le p.bytes
  rw [length_bytes] at hle
  omega

/-! ## Modifications -/

/-- What modifications keep: all but the addresses stays, and the difference is
exactly what the addresses lost. -/
structure Recorded (p : Ipv4Packet) (s : Ipv4Packet × InternetChecksumDiff) : Prop where
  front : s.1.front = p.front
  checksum : s.1.checksum = p.checksum
  value : s.2.value.toInt = p.addressSum - s.1.addressSum

theorem addressSum_range (p : Ipv4Packet) : 0 ≤ p.addressSum ∧ p.addressSum ≤ 0xffff * 8 := by
  have hsrc := wordSum_nonneg p.src.toList
  have hdst := wordSum_nonneg p.dst.toList
  have hsrc' := wordSum_le p.src.toList
  have hdst' := wordSum_le p.dst.toList
  rw [Vector.length_toList] at hsrc' hdst'
  unfold addressSum
  omega

theorem Recorded.modify {s : Ipv4Packet × InternetChecksumDiff} (h : p.Recorded s)
    (m : Modification) : p.Recorded (modify s m) := by
  obtain ⟨hfront, hchecksum, hvalue⟩ := h
  have hp := addressSum_range p
  have hs := addressSum_range s.1
  have hicd : ∀ new old : Ipv4Address,
      (s.2.addUpDiff new.toList old.toList).value.toInt =
        s.2.value.toInt + (wordSum old.toList - wordSum new.toList) := by
    intro new old
    apply InternetChecksumDiff.toInt_addUpDiff
    · rw [Vector.length_toList, Vector.length_toList]
    · omega
    · omega
    · rw [Vector.length_toList]
      decide
  cases m with
  | src v =>
    refine ⟨hfront, hchecksum, ?_⟩
    show (s.2.addUpDiff v.toList s.1.src.toList).value.toInt = _
    rw [hicd, hvalue]
    simp only [addressSum, Ipv4Packet.modify]
    omega
  | dst v =>
    refine ⟨hfront, hchecksum, ?_⟩
    show (s.2.addUpDiff v.toList s.1.dst.toList).value.toInt = _
    rw [hicd, hvalue]
    simp only [addressSum, Ipv4Packet.modify]
    omega

theorem recorded_foldl {s : Ipv4Packet × InternetChecksumDiff} (h : p.Recorded s)
    (ms : List Modification) : p.Recorded (ms.foldl Ipv4Packet.modify s) := by
  induction ms generalizing s with
  | nil => exact h
  | cons m ms ih => exact ih (h.modify m)

theorem recorded (p : Ipv4Packet) (ms : List Modification) :
    p.Recorded (ms.foldl Ipv4Packet.modify (p, {})) := by
  have hstart : p.Recorded (p, {}) := ⟨rfl, rfl, (sub_self _).symm⟩
  exact recorded_foldl hstart ms

/-! ## The update of the checksum -/

theorem checksumError_eq_false_iff : p.checksumError = false ↔
    (∃ b ∈ p.bytes, b ≠ 0) ∧ wordSum p.bytes ≡ 0 [ZMOD 0xffff] := by
  rw [← internetChecksum_eq_zero_iff wordSum_bytes_lt]
  simp [checksumError]

/-- The words before the checksum are those of the original header, and the checksum
has changed by what the addresses lost. -/
theorem modifyAll_modEq (p : Ipv4Packet) (ms : List Modification) :
    wordSum (p.modifyAll ms).bytes ≡ wordSum p.bytes [ZMOD 0xffff] := by
  obtain ⟨hfront, hchecksum, hvalue⟩ := p.recorded ms
  have hp := addressSum_range p
  have hs := addressSum_range (ms.foldl Ipv4Packet.modify (p, {})).1
  have hmod := (ms.foldl Ipv4Packet.modify (p, {})).2.applyTo_modEq p.checksum
    (by omega) (by omega)
  have hmodified : wordSum (p.modifyAll ms).bytes =
      wordSum p.front + (p.modifyAll ms).checksum.toNat +
        addressSum (ms.foldl Ipv4Packet.modify (p, {})).1 := by
    rw [wordSum_bytes, ← hfront]
    rfl
  have hresult : (p.modifyAll ms).checksum =
      (ms.foldl Ipv4Packet.modify (p, {})).2.applyTo (p.checksum.setWidth 64) := by
    rw [← hchecksum]
    rfl
  rw [hmodified, hresult, wordSum_bytes]
  calc wordSum p.front + _ + addressSum (ms.foldl Ipv4Packet.modify (p, {})).1
      ≡ wordSum p.front + (p.checksum.toNat +
          (ms.foldl Ipv4Packet.modify (p, {})).2.value.toInt) +
          addressSum (ms.foldl Ipv4Packet.modify (p, {})).1 [ZMOD 0xffff] :=
        (hmod.add_left _).add_right _
    _ = wordSum p.front + p.checksum.toNat + p.addressSum := by omega

/-- A header with a sum of zero has the checksum that `update_checksum` computes. -/
theorem updateChecksum_modEq (h : wordSum p.bytes ≡ 0 [ZMOD 0xffff]) :
    (p.checksum.toNat : Int) ≡ p.updateChecksum.checksum.toNat [ZMOD 0xffff] := by
  have hzero : wordSum ({ p with checksum := 0 } : Ipv4Packet).bytes =
      wordSum p.bytes - p.checksum.toNat := by
    rw [wordSum_bytes, wordSum_bytes (p := p)]
    simp only [front, addressSum]
    rw [show (0 : BitVec 16).toNat = 0 from rfl]
    omega
  have hnew := internetChecksum_modEq
    (wordSum_bytes_lt (p := ({ p with checksum := 0 } : Ipv4Packet)))
  rw [hzero] at hnew
  apply Int.ModEq.symm
  calc (p.updateChecksum.checksum.toNat : Int)
      ≡ -(wordSum p.bytes - p.checksum.toNat) [ZMOD 0xffff] := hnew
    _ ≡ -(0 - p.checksum.toNat) [ZMOD 0xffff] := (h.sub_right _).neg
    _ = p.checksum.toNat := by omega

/-- For every header with a valid checksum and all modifications of its addresses,
recorded in one difference: applying the difference to the checksum yields a valid
one again, unless the header is all zero, and the same as computing it anew, up to
multiples of 0xffff. The folding of sums always ends. -/
theorem modifyAll_correct (p : Ipv4Packet) (hvalid : p.checksumError = false)
    (ms : List Modification) :
    ((∃ b ∈ (p.modifyAll ms).bytes, b ≠ 0) → (p.modifyAll ms).checksumError = false) ∧
      (p.modifyAll ms).checksum.toNat ≡ (p.modifyAll ms).updateChecksum.checksum.toNat
        [MOD 0xffff] ∧
      ∀ sum, Folds sum (foldChecksumTo16Bits sum) := by
  have hsum := (modifyAll_modEq p ms).trans (checksumError_eq_false_iff.mp hvalid).2
  refine ⟨fun hbytes => checksumError_eq_false_iff.mpr ⟨hbytes, hsum⟩, ?_,
    folds_foldChecksumTo16Bits⟩
  exact (Int.natCast_modEq_iff).mp (updateChecksum_modEq hsum)

/-- A UDP packet from 10.0.1.2 to 10.0.1.1, 28 bytes. -/
def request : Ipv4Packet where
  offset0U8 := 0x45
  offset1U8 := 0
  totalLength := 0x1c00
  identification := 0
  offset6U16 := 0
  timeToLive := 64
  protocol := 17
  checksum := 0xcf64
  src := #v[10, 0, 1, 2]
  dst := #v[10, 0, 1, 1]

/-- The source and the destination of a packet are translated. -/
theorem modifyAll_correct_request :
    ((∃ b ∈ (request.modifyAll [.src #v[192, 168, 0, 1], .dst #v[8, 8, 8, 8]]).bytes, b ≠ 0) →
      (request.modifyAll [.src #v[192, 168, 0, 1], .dst #v[8, 8, 8, 8]]).checksumError = false) ∧
      (request.modifyAll [.src #v[192, 168, 0, 1], .dst #v[8, 8, 8, 8]]).checksum.toNat ≡
        (request.modifyAll
          [.src #v[192, 168, 0, 1], .dst #v[8, 8, 8, 8]]).updateChecksum.checksum.toNat
        [MOD 0xffff] ∧
      ∀ sum, Folds sum (foldChecksumTo16Bits sum) :=
  modifyAll_correct request (checksumError_eq_false_iff.mpr (by decide))
    [.src #v[192, 168, 0, 1], .dst #v[8, 8, 8, 8]]

end Ipv4Packet

end Genode.Net
