import Mathlib.Algebra.Order.Ring.Nat
import Mathlib.Data.BitVec

/-!
# PacketStream — packets in a communication buffer

`os/packet_stream.h`, the base of source and sink. The two sides of a packet
stream share a dataspace that holds the queues and, behind them, the bulk
buffer. A packet descriptor comes out of a queue and so from the other
side; its offset is signed, and its size is not.
-/

namespace Genode.Os

/-- `Packet_descriptor`. -/
structure PacketDescriptor where
  offset : BitVec 64
  size : BitVec 64
  deriving DecidableEq, Repr

/-- `align_addr` for 64-bit numbers. -/
def alignAddr (addr : BitVec 64) (align : Nat) : BitVec 64 :=
  (addr + (1#64 <<< align - 1#64)) &&& ~~~(1#64 <<< align - 1#64)

/-- `Packet_stream_base`. The bulk buffer is the end of the dataspace. -/
structure PacketStream where
  dsLocalBase : BitVec 64
  dsSize : BitVec 64
  bulkBufferOffset : BitVec 64
  bulkBufferSize : BitVec 64
  bulk_end : bulkBufferOffset.toNat + bulkBufferSize.toNat = dsSize.toNat

namespace PacketStream

/-- The constructor; nothing if it throws `Transport_dataspace_too_small`. -/
def construct (dsLocalBase dsSize submitQueueSize ackQueueSize : BitVec 64) :
    Option PacketStream :=
  let offset := alignAddr (0 + submitQueueSize + ackQueueSize) 6
  if h : dsSize ≤ offset then none
  else some {
    dsLocalBase, dsSize
    bulkBufferOffset := offset
    bulkBufferSize := dsSize - offset
    bulk_end := by bv_omega }

variable (b : PacketStream) (packet : PacketDescriptor)

def packetValid : Bool :=
  decide (packet.size = 0) ||
    (b.bulkBufferOffset.sle packet.offset &&
      packet.offset.slt (b.bulkBufferOffset + b.bulkBufferSize) &&
      (packet.offset + packet.size).ule (b.bulkBufferOffset + b.bulkBufferSize))

/-- `packet_content` for contents of `contentSize` bytes; nothing if it throws
`Invalid_packet`, and a null pointer if the packet is empty. -/
def packetContent (contentSize : Nat) : Option (Option (BitVec 64)) :=
  if packet.size = 0 then some none
  else if !b.packetValid packet || decide (packet.size.toNat < contentSize) then none
  else some (some (b.dsLocalBase + packet.offset))

/-- All bytes of the packet are within the bulk buffer. -/
def Contains : Prop :=
  b.bulkBufferOffset.toInt ≤ packet.offset.toInt ∧
    packet.offset.toInt + packet.size.toNat ≤ b.bulkBufferOffset.toInt + b.bulkBufferSize.toNat

/-- The check accepts the packet only if it is within the bulk buffer, and so
does the access to its content. -/
structure Checked : Prop where
  valid : b.packetValid packet = true → b.Contains packet
  content : ∀ contentSize ptr, b.packetContent packet contentSize = some (some ptr) →
    ptr = b.dsLocalBase + packet.offset ∧ b.Contains packet

/-- The packet starts within the bulk buffer, and its end is not a 64-bit number. -/
def Wraps : Prop :=
  b.bulkBufferOffset.toInt ≤ packet.offset.toInt ∧
    packet.offset.toInt < (b.bulkBufferOffset + b.bulkBufferSize).toInt ∧
    2 ^ 64 ≤ packet.offset.toNat + packet.size.toNat

variable {b packet}

theorem packetValid_iff (hsize : packet.size ≠ 0) : b.packetValid packet = true ↔
    b.bulkBufferOffset.toInt ≤ packet.offset.toInt ∧
      packet.offset.toInt < (b.bulkBufferOffset + b.bulkBufferSize).toInt ∧
      (packet.offset.toNat + packet.size.toNat) % 2 ^ 64 ≤ b.dsSize.toNat := by
  have hend : (b.bulkBufferOffset + b.bulkBufferSize).toNat = b.dsSize.toNat := by
    have := b.bulk_end
    bv_omega
  simp only [packetValid, hsize, decide_false, Bool.false_or, Bool.and_eq_true,
    BitVec.sle_iff_toInt_le, BitVec.slt_iff_toInt_lt, BitVec.ule_iff_toNat_le, hend,
    BitVec.toNat_add, and_assoc]

/-- Seen as a signed number, the end of the bulk buffer comes behind its beginning
only if both have the same sign. -/
theorem toInt_cases (hlow : b.bulkBufferOffset.toInt ≤ packet.offset.toInt)
    (hhigh : packet.offset.toInt < (b.bulkBufferOffset + b.bulkBufferSize).toInt) :
    packet.offset.toInt - b.bulkBufferOffset.toInt =
      (packet.offset.toNat : Int) - b.bulkBufferOffset.toNat ∧
    packet.offset.toNat < b.dsSize.toNat := by
  have hend := b.bulk_end
  have hds := b.dsSize.isLt
  have hsum : (b.bulkBufferOffset + b.bulkBufferSize).toNat = b.dsSize.toNat := by bv_omega
  have hb := BitVec.toInt_eq_toNat_cond b.bulkBufferOffset
  have hp := BitVec.toInt_eq_toNat_cond packet.offset
  have he := BitVec.toInt_eq_toNat_cond (b.bulkBufferOffset + b.bulkBufferSize)
  rw [hsum] at he
  split at hb <;> split at hp <;> split at he <;> omega

/-- For every buffer and every descriptor of a packet that is not empty: only
packets within the bulk buffer are accepted, exactly if the packet does not
start there and end at 2^64 or behind. -/
theorem checked_iff (b : PacketStream) (packet : PacketDescriptor) (hsize : packet.size ≠ 0) :
    b.Checked packet ↔ ¬ b.Wraps packet := by
  have hend := b.bulk_end
  have hds := b.dsSize.isLt
  have hlt := packet.size.isLt
  constructor
  · intro h hwraps
    obtain ⟨hlow, hhigh, hover⟩ := hwraps
    obtain ⟨hdiff, hoff⟩ := toInt_cases hlow hhigh
    have hvalid : b.packetValid packet = true :=
      (packetValid_iff hsize).mpr ⟨hlow, hhigh, by omega⟩
    have hcontains := (h.valid hvalid).2
    omega
  · intro hwraps
    have hvalid : b.packetValid packet = true → b.Contains packet := by
      intro hvalid
      obtain ⟨hlow, hhigh, hle⟩ := (packetValid_iff hsize).mp hvalid
      obtain ⟨hdiff, hoff⟩ := toInt_cases hlow hhigh
      have hover : packet.offset.toNat + packet.size.toNat < 2 ^ 64 := by
        by_contra hover
        exact hwraps ⟨hlow, hhigh, Nat.le_of_not_lt hover⟩
      exact ⟨hlow, by omega⟩
    refine ⟨hvalid, fun contentSize ptr hptr => ?_⟩
    unfold packetContent at hptr
    rw [if_neg hsize] at hptr
    split at hptr
    · cases hptr
    · rename_i hc
      cases hptr
      simp only [Bool.or_eq_true, Bool.not_eq_true', not_or, Bool.not_eq_false] at hc
      exact ⟨rfl, hvalid hc.1⟩

/-- A dataspace of two pages, whose second page is the bulk buffer. -/
def twoPages : PacketStream where
  dsLocalBase := 0x40000000
  dsSize := 0x2000
  bulkBufferOffset := 0x1000
  bulkBufferSize := 0x1000
  bulk_end := rfl

theorem checked_twoPages : twoPages.Checked ⟨0x1800, 0x400⟩ ↔
    ¬ twoPages.Wraps ⟨0x1800, 0x400⟩ :=
  checked_iff twoPages ⟨0x1800, 0x400⟩ (by decide)

/-- A packet of nearly 2^64 bytes that starts in the middle of the bulk buffer
seems to end right before the middle. -/
theorem huge_packet_accepted : twoPages.packetValid ⟨0x1800, 0xfffffffffffffc00⟩ = true ∧
    twoPages.packetContent ⟨0x1800, 0xfffffffffffffc00⟩ 1 = some (some 0x40001800) ∧
    ¬ twoPages.Contains ⟨0x1800, 0xfffffffffffffc00⟩ := by
  refine ⟨by decide, by decide, ?_⟩
  intro h
  have hend := h.2
  simp [twoPages] at hend

end PacketStream

end Genode.Os
