import Genode.Net.Ipv4Packet
import Mathlib.Data.BitVec

/-!
# Ipv4AddressPrefix — the leading bits of an address

`nic_router/ipv4_address_prefix.h` and its `prefix_matches`, which compares
whole bytes and then the rest under a mask. The configuration has no prefix of
more bits than an address.
-/

namespace Genode.Net

/-- `Ipv4_address_prefix`. -/
structure Ipv4AddressPrefix where
  address : Ipv4Address
  /-- `prefix`. -/
  prefixSize : Nat
  prefixSize_le : prefixSize ≤ 32
  deriving DecidableEq

/-- `addr[byte]`. -/
def Ipv4Address.addr (ip : Ipv4Address) (byte : Nat) : BitVec 8 := ip[byte]?.getD 0

/-- The bits of an address from the most significant one on. -/
def Ipv4Address.bit (ip : Ipv4Address) (i : Nat) : Bool :=
  (Ipv4Address.addr ip (i / 8)).getMsbD (i % 8)

namespace Ipv4AddressPrefix

variable (address ip : Ipv4Address)

/-- The loop of `prefix_matches` for the bits that are left, and what follows it. -/
def prefixMatchesFrom : (prefixLeft byte : Nat) → Bool
  | prefixLeft + 8, byte =>
    if Ipv4Address.addr ip byte ≠ Ipv4Address.addr address byte then false
    else prefixMatchesFrom prefixLeft (byte + 1)
  | prefixLeft, byte =>
    if prefixLeft = 0 then true
    else
      let mask := ~~~ (0xff#8 >>> prefixLeft)
      decide ((Ipv4Address.addr ip byte ^^^ Ipv4Address.addr address byte) &&& mask = 0#8)

/-- `prefix_matches`. -/
def prefixMatches (p : Ipv4AddressPrefix) (ip : Ipv4Address) : Bool :=
  prefixMatchesFrom p.address ip p.prefixSize 0

variable {address ip}

/-- Bits under the mask. -/
theorem and_mask_eq_zero {x y : BitVec 8} {n : Nat} (hn : n < 8) :
    (x ^^^ y) &&& ~~~ (0xff#8 >>> n) = 0#8 ↔ ∀ i < n, x.getMsbD i = y.getMsbD i := by
  have hones : ∀ i < 8, (0xff#8).getMsbD i = true := by decide
  have hmask : ∀ i < 8, (~~~ (0xff#8 >>> n)).getMsbD i = decide (i < n) := by
    intro i hi
    rw [BitVec.getMsbD_not, BitVec.getMsbD_ushiftRight]
    by_cases hlt : i < n
    · simp [hi, hlt]
    · simp [hlt, hones (i - n) (by omega)]
  constructor
  · intro h i hi
    have hbit := congrArg (fun b => BitVec.getMsbD b i) h
    simp only [BitVec.getMsbD_and, BitVec.getMsbD_xor, hmask i (by omega), hi] at hbit
    simpa using hbit
  · intro h
    apply BitVec.eq_of_getMsbD_eq
    intro i hi
    rw [BitVec.getMsbD_and, BitVec.getMsbD_xor, hmask i hi]
    by_cases hlt : i < n
    · simp [h i hlt]
    · simp [hlt]

theorem bit_add_eight (ip : Ipv4Address) (byte i : Nat) :
    Ipv4Address.bit ip (8 * byte + (i + 8)) = Ipv4Address.bit ip (8 * (byte + 1) + i) := by
  congr 1
  omega

theorem bit_of_lt (ip : Ipv4Address) {byte i : Nat} (hi : i < 8) :
    Ipv4Address.bit ip (8 * byte + i) = (Ipv4Address.addr ip byte).getMsbD i := by
  unfold Ipv4Address.bit
  rw [show (8 * byte + i) / 8 = byte by omega, show (8 * byte + i) % 8 = i by omega]

theorem prefixMatchesFrom_iff (n byte : Nat) : prefixMatchesFrom address ip n byte = true ↔
    ∀ i < n, Ipv4Address.bit ip (8 * byte + i) = Ipv4Address.bit address (8 * byte + i) := by
  induction n, byte using prefixMatchesFrom.induct address ip with
  | case1 n byte hne =>
    rw [prefixMatchesFrom, if_pos hne]
    apply iff_of_false Bool.false_ne_true
    intro hbits
    apply hne
    apply BitVec.eq_of_getMsbD_eq
    intro i hi
    have hbit := hbits i (by omega)
    rw [bit_of_lt ip hi, bit_of_lt address hi] at hbit
    exact hbit
  | case2 n byte heq ih =>
    rw [prefixMatchesFrom, if_neg heq, ih]
    constructor
    · intro hbits i hi
      by_cases hlt : i < 8
      · rw [bit_of_lt ip hlt, bit_of_lt address hlt, not_not.mp heq]
      · obtain ⟨j, rfl⟩ := Nat.exists_eq_add_of_le' (Nat.le_of_not_lt hlt)
        rw [bit_add_eight, bit_add_eight]
        exact hbits j (by omega)
    · intro hbits i hi
      rw [← bit_add_eight, ← bit_add_eight]
      exact hbits (i + 8) (by omega)
  | case3 byte h =>
    rw [prefixMatchesFrom, if_pos rfl]
    · simp
    · exact h
  | case4 n byte h hn =>
    have hlt : n < 8 := by
      by_contra hge
      obtain ⟨m, rfl⟩ := Nat.exists_eq_add_of_le' (Nat.le_of_not_lt hge)
      exact h m rfl
    rw [prefixMatchesFrom, if_neg hn]
    · rw [decide_eq_true_iff, and_mask_eq_zero hlt]
      apply forall₂_congr
      intro i hi
      rw [bit_of_lt ip (by omega), bit_of_lt address (by omega)]
    · exact h

/-- A prefix matches if all of its bits are the first ones of the address. -/
theorem prefixMatches_iff (p : Ipv4AddressPrefix) : p.prefixMatches ip = true ↔
    ∀ i < p.prefixSize, Ipv4Address.bit ip i = Ipv4Address.bit p.address i := by
  rw [prefixMatches, prefixMatchesFrom_iff]
  simp

end Ipv4AddressPrefix

end Genode.Net
