import Mathlib.Algebra.Order.Ring.Nat
import Genode.Lib.FieldWalk

/-!
# DhcpPacket — the options of a received packet

`net/dhcp.h`, the reading side. The options follow the fixed part of the
packet, from `_opts` on, up to the end of the packet. Addresses are relative
to `_opts`; the memory behind the packet is part of the model, since nothing
keeps the functions from reading it.
-/

namespace Genode.Net

open Lib

/-- `Dhcp_packet` behind its fixed part. The packet has `optsSize` bytes of options, and
whatever follows them. -/
structure DhcpPacket where
  opts : Memory
  optsSize : Nat

/-- The codes of `Ipv4_option`. -/
inductive Ipv4Code where
  | subnetMask
  | router
  | dnsServer
  | broadcastAddr
  | reqIpAddr
  | server
  deriving DecidableEq, Repr

def Ipv4Code.value : Ipv4Code → UInt8
  | .subnetMask => 1
  | .router => 3
  | .dnsServer => 6
  | .broadcastAddr => 28
  | .reqIpAddr => 50
  | .server => 54

/-- The types of options that have a `CODE`. -/
inductive OptionType where
  | ipLeaseTime
  | parameterRequestList
  | dnsServer
  | domainName
  | messageType
  | ipv4 (code : Ipv4Code)
  | maxMsgSize
  | optionsEnd
  deriving DecidableEq, Repr

namespace OptionType

/-- `CODE`. -/
def code : OptionType → UInt8
  | .ipLeaseTime => 51
  | .parameterRequestList => 55
  | .dnsServer => 6
  | .domainName => 15
  | .messageType => 53
  | .ipv4 code => code.value
  | .maxMsgSize => 57
  | .optionsEnd => 255

/-- The bytes of a value at `p`: those of the type, with the array of addresses or
characters that its length byte announces. -/
def size (m : Memory) (p : Nat) : OptionType → Nat
  | .ipLeaseTime => 2 + 4
  | .parameterRequestList => 2
  | .dnsServer => 2 + (m (p + 1)).toNat / 4 * 4
  | .domainName => 2 + (m (p + 1)).toNat
  | .messageType => 2 + 1
  | .ipv4 _ => 2 + 4
  | .maxMsgSize => 2 + 2
  | .optionsEnd => 2

end OptionType

/-- `Code::INVALID` or `Code::END`. -/
def endsOptions (code : UInt8) : Bool := code == 0 || code == 255

/-- The loop of `for_each_option`, which has an index of 32 bits. -/
def forEachOptionWalk : FieldWalk where
  stops := endsOptions
  next i len := (i + (2 + len.toNat)) % 2 ^ 32

/-- The loop of `option<T>`. -/
def optionWalk (t : OptionType) : FieldWalk where
  stops code := endsOptions code || code == t.code
  next ptr len := ptr + 2 + len.toNat

namespace DhcpPacket

variable (p : DhcpPacket)

/-- `for_each_option`, for at most `k` options: those that the functor is called for,
and where the loop ends. -/
def forEachOption (k : Nat) : Option (List Nat × Nat) := forEachOptionWalk.run p.opts k 0

/-- `option<T>`, as `forEachOption`. -/
def option (t : OptionType) (k : Nat) : Option (List Nat × Nat) := (optionWalk t).run p.opts k 0

/-- The option that `option<T>` returns from the end of its loop, or nothing for
`Option_not_found`. -/
def returned (r : List Nat × Nat) : Option Nat :=
  if endsOptions (p.opts r.2) then none else some r.2

/-- The walks through the options end and read only the packet, and options that
they return are completely in it. -/
structure SafelyParsed : Prop where
  forEachOption : ∃ k r, p.forEachOption k = some r ∧ ∀ a ∈ FieldWalk.reads r, a < p.optsSize
  option : ∀ t, ∃ k r, p.option t k = some r ∧ (∀ a ∈ FieldWalk.reads r, a < p.optsSize) ∧
    ∀ ptr, p.returned r = some ptr → ptr + t.size p.opts ptr ≤ p.optsSize

/-- The packets whose options are complete: the headers of the options lead to an END or
INVALID code within the packet, and so they do up to the first option of each type,
whose value is within the packet. -/
structure Complete : Prop where
  terminated : forEachOptionWalk.Inside p.opts p.optsSize (fun _ => True) 0
  values : ∀ t, (optionWalk t).Inside p.opts p.optsSize
    (fun ptr => endsOptions (p.opts ptr) = false → ptr + t.size p.opts ptr ≤ p.optsSize) 0

variable {p}

theorem returned_eq_some {r : List Nat × Nat} {ptr : Nat} :
    p.returned r = some ptr ↔ r.2 = ptr ∧ endsOptions (p.opts r.2) = false := by
  unfold returned
  split <;> simp [*]

/-- For every packet: its options are parsed safely exactly if they are complete. -/
theorem safelyParsed_iff (p : DhcpPacket) : p.SafelyParsed ↔ p.Complete := by
  have hforEach : (∃ k r, p.forEachOption k = some r ∧ ∀ a ∈ FieldWalk.reads r, a < p.optsSize) ↔
      forEachOptionWalk.Inside p.opts p.optsSize (fun _ => True) 0 := by
    rw [FieldWalk.inside_iff]
    simp only [and_true, forEachOption]
  have hoption : ∀ t, (∃ k r, p.option t k = some r ∧
      (∀ a ∈ FieldWalk.reads r, a < p.optsSize) ∧
        ∀ ptr, p.returned r = some ptr → ptr + t.size p.opts ptr ≤ p.optsSize) ↔
      (optionWalk t).Inside p.opts p.optsSize
        (fun ptr => endsOptions (p.opts ptr) = false →
          ptr + t.size p.opts ptr ≤ p.optsSize) 0 := by
    intro t
    rw [FieldWalk.inside_iff]
    simp only [returned_eq_some, and_imp, forall_eq', option]
  constructor
  · intro h
    exact ⟨hforEach.mp h.forEachOption, fun t => (hoption t).mp (h.option t)⟩
  · intro h
    exact ⟨hforEach.mpr h.terminated, fun t => (hoption t).mpr (h.values t)⟩

/-- A frame that ends with the magic cookie, and zeros behind it. -/
def bare : DhcpPacket := ⟨fun _ => 0, 0⟩

/-- The first code is read although it is behind the packet. -/
theorem bare_not_safelyParsed : ¬ bare.SafelyParsed := by
  intro h
  obtain ⟨k, r, -, hreads⟩ := h.forEachOption
  have hlast := hreads r.2 (by simp [FieldWalk.reads])
  exact absurd hlast (Nat.not_lt_zero _)

end DhcpPacket

end Genode.Net
