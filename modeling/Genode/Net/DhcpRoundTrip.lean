import Mathlib.Data.BitVec
import Genode.Net.DhcpOptions

/-!
# DhcpRoundTrip — reading the options that were appended

The reading functions of a packet whose options were appended with the
aggregator. The writer counts sizes in machine words, and the reader takes
them from a byte and goes on with an index of 32 bits.
-/

namespace Genode.Net

open Lib

/-- The places of options behind each other, from `off` on. -/
def starts : Nat → List PacketOption → List Nat
  | _, [] => []
  | off, o :: os => off :: starts (off + o.size) os

/-- What is read from a packet are the options that were appended. -/
structure RoundTrip (p : DhcpPacket) (os : List PacketOption) : Prop where
  /-- `for_each_option` goes through the places of the options. -/
  visits : ∃ k e, p.forEachOption k = some (starts 0 os, e)
  /-- Each has its code and its payload there. -/
  contents : ∀ x ∈ (starts 0 os).zip os, p.opts x.1 = x.2.code ∧
    p.opts.slice (x.1 + 2) (p.opts (x.1 + 1)).toNat = x.2.payload
  /-- `option<T>` returns the first one with the code of the type. -/
  option : ∀ t : OptionType, ∃ k r, p.option t k = some r ∧
    p.returned r = (((starts 0 os).zip os).find? fun x => x.2.code == t.code).map Prod.fst

/-- The bytes of all options. -/
def totalSize (os : List PacketOption) : Nat := (os.flatMap PacketOption.encode).length

/-- The index of `for_each_option` holds the place of each option, and of the end of all.
If it does not hold the latter, some byte of the options may still look like an end. -/
def Indexable (os : List PacketOption) : Prop :=
  totalSize os < 2 ^ 32 ∨
    (∀ i ∈ starts 0 os, i < 2 ^ 32) ∧
      ∃ b, (os.flatMap PacketOption.encode)[totalSize os % 2 ^ 32]? = some b ∧ endsOptions b = true

/-- The lists of options that survive the round trip. -/
structure Fits (os : List PacketOption) : Prop where
  payload : ∀ o ∈ os, o.payload.length ≤ 255
  index : Indexable os

/-! ## The options in memory -/

/-- The options and the end are in memory from `off` on. -/
def Stored (m : Memory) : Nat → List PacketOption → Prop
  | off, [] => m off = 255
  | off, o :: os =>
    m off = o.code ∧ m (off + 1) = .ofNat o.payload.length ∧
      m.slice (off + 2) o.payload.length = o.payload ∧ Stored m (off + o.size) os

variable {m : Memory} {off k n : Nat} {o : PacketOption} {os : List PacketOption}

theorem stored_of_slice (h : m.slice off (os.flatMap PacketOption.encode ++ [255, 0]).length =
    os.flatMap PacketOption.encode ++ [255, 0]) : Stored m off os := by
  induction os generalizing off with
  | nil =>
    have hbyte : m.slice off (1 + 1) = [255, 0] := h
    rw [Memory.slice_add, Memory.slice_one] at hbyte
    exact (List.cons.inj hbyte).1
  | cons o os ih =>
    rw [List.flatMap_cons, List.append_assoc, List.length_append, Memory.slice_add] at h
    obtain ⟨hone, hrest⟩ := List.append_inj h Memory.length_slice
    rw [PacketOption.length_encode] at hone hrest
    have hsplit : m.slice off (1 + (1 + o.payload.length)) = o.encode := by
      rw [← hone]
      congr 1
      unfold PacketOption.size
      omega
    rw [Memory.slice_add, Memory.slice_add, Memory.slice_one, Memory.slice_one] at hsplit
    obtain ⟨hcode, htail⟩ := List.cons.inj hsplit
    obtain ⟨hlen, hvalue⟩ := List.cons.inj htail
    exact ⟨hcode, hlen, hvalue, ih hrest⟩

theorem code_endsOptions (o : PacketOption) : endsOptions o.code = false := by
  cases o with
  | ipv4 code value => cases code <;> rfl
  | _ => rfl

theorem toNat_ofNat_length (h : o.payload.length ≤ 255) :
    (UInt8.ofNat o.payload.length).toNat = o.payload.length := by
  rw [UInt8.toNat_ofNat']
  exact Nat.mod_eq_of_lt (by omega)

/-- The code and the payload of each option at its place. -/
theorem Stored.contents (h : Stored m off os) (hlen : ∀ o ∈ os, o.payload.length ≤ 255) :
    ∀ x ∈ (starts off os).zip os, m x.1 = x.2.code ∧
      m.slice (x.1 + 2) (m (x.1 + 1)).toNat = x.2.payload := by
  induction os generalizing off with
  | nil => simp [starts]
  | cons o os ih =>
    obtain ⟨hcode, hbyte, hvalue, hrest⟩ := h
    rw [List.forall_mem_cons] at hlen
    rw [starts, List.zip_cons_cons, List.forall_mem_cons]
    refine ⟨⟨hcode, ?_⟩, ih hrest hlen.2⟩
    rw [hbyte, toNat_ofNat_length hlen.1]
    exact hvalue

/-- `option<T>` finds the first option of a type. -/
theorem Stored.option (h : Stored m off os) (hlen : ∀ o ∈ os, o.payload.length ≤ 255)
    (t : OptionType) : ∃ k r, (optionWalk t).run m k off = some r ∧
      DhcpPacket.returned ⟨m, n⟩ r =
        (((starts off os).zip os).find? fun x => x.2.code == t.code).map Prod.fst := by
  induction os generalizing off with
  | nil =>
    have hend : m off = 255 := h
    refine ⟨1, ([], off), FieldWalk.run_stop ?_, ?_⟩
    · simp [optionWalk, hend, endsOptions]
    · simp [DhcpPacket.returned, hend, endsOptions, starts]
  | cons o os ih =>
    obtain ⟨hcode, hbyte, hvalue, hrest⟩ := h
    rw [List.forall_mem_cons] at hlen
    have hstops : (optionWalk t).stops (m off) = (o.code == t.code) := by
      rw [hcode]
      show (endsOptions o.code || o.code == t.code) = _
      rw [code_endsOptions, Bool.false_or]
    rw [starts, List.zip_cons_cons, List.find?_cons]
    cases hc : o.code == t.code with
    | true =>
      refine ⟨1, ([], off), FieldWalk.run_stop (hstops.trans hc), ?_⟩
      simp [DhcpPacket.returned, hcode, code_endsOptions]
    | false =>
      obtain ⟨k, r, hrun, hreturned⟩ := ih hrest hlen.2
      have hnext : (optionWalk t).next off (m (off + 1)) = off + o.size := by
        rw [hbyte]
        show off + 2 + (UInt8.ofNat o.payload.length).toNat = off + o.size
        rw [toNat_ofNat_length hlen.1, Nat.add_assoc]
        rfl
      refine ⟨k + 1, (off :: r.1, r.2), ?_, hreturned⟩
      rw [FieldWalk.run_field (hstops.trans hc), hnext, hrun, Option.map_some]

theorem totalSize_cons (o : PacketOption) (os : List PacketOption) :
    totalSize (o :: os) = o.size + totalSize os := by
  unfold totalSize
  rw [List.flatMap_cons, List.length_append, PacketOption.length_encode]

/-- `for_each_option` goes through the options as long as its index holds their places. -/
theorem Stored.forEachOption (h : Stored m off os) (hlen : ∀ o ∈ os, o.payload.length ≤ 255)
    (hindex : ∀ i ∈ starts off os, i < 2 ^ 32) :
    forEachOptionWalk.run m (os.length + k) (off % 2 ^ 32) =
      (forEachOptionWalk.run m k ((off + totalSize os) % 2 ^ 32)).map fun r =>
        (starts off os ++ r.1, r.2) := by
  induction os generalizing off with
  | nil =>
    rw [List.length_nil, Nat.zero_add]
    exact Option.map_id'.symm
  | cons o os ih =>
    obtain ⟨hcode, hbyte, hvalue, hrest⟩ := h
    rw [List.forall_mem_cons] at hlen
    rw [starts, List.forall_mem_cons] at hindex
    have hstop : forEachOptionWalk.stops (m off) = false := by
      rw [hcode]
      exact code_endsOptions o
    have hnext : forEachOptionWalk.next off (m (off + 1)) = (off + o.size) % 2 ^ 32 := by
      rw [hbyte]
      show (off + (2 + (UInt8.ofNat o.payload.length).toNat)) % 2 ^ 32 = _
      rw [toNat_ofNat_length hlen.1]
      rfl
    rw [Nat.mod_eq_of_lt hindex.1, List.length_cons, Nat.add_right_comm,
      FieldWalk.run_field hstop, hnext, ih hrest hlen.2 hindex.2, totalSize_cons, ← Nat.add_assoc,
      Option.map_map]
    rfl

theorem starts_lt {i : Nat} (hi : i ∈ starts off os) : i < off + totalSize os := by
  induction os generalizing off with
  | nil => cases hi
  | cons o os ih =>
    rw [totalSize_cons]
    rcases List.mem_cons.mp hi with rfl | hi
    · unfold PacketOption.size
      omega
    · have hlt := ih hi
      omega

section

variable (hslice : m.slice 0 (os.flatMap PacketOption.encode ++ [255, 0]).length =
  os.flatMap PacketOption.encode ++ [255, 0])

include hslice

/-- A byte of the options. -/
theorem byte_of_slice {i : Nat} (hi : i < totalSize os) :
    (os.flatMap PacketOption.encode)[i]? = some (m i) := by
  have hbyte := Memory.getElem?_slice (m := m) (a := 0)
    (n := (os.flatMap PacketOption.encode ++ [255, 0]).length) (i := i)
    (by rw [List.length_append]; exact Nat.lt_add_right _ hi)
  rw [hslice, List.getElem?_append_left hi, Nat.zero_add] at hbyte
  exact hbyte

/-- The end behind the options. -/
theorem end_of_slice : m (totalSize os) = 255 := by
  have hbyte := Memory.getElem?_slice (m := m) (a := 0)
    (n := (os.flatMap PacketOption.encode ++ [255, 0]).length) (i := totalSize os)
    (by rw [List.length_append]; exact Nat.lt_add_of_pos_right (by decide))
  unfold totalSize at hbyte ⊢
  rw [hslice, List.getElem?_append_right (le_refl _), Nat.sub_self, Nat.zero_add] at hbyte
  exact (Option.some.inj hbyte).symm

theorem indexable_iff : Indexable os ↔
    (∀ i ∈ starts 0 os, i < 2 ^ 32) ∧ endsOptions (m (totalSize os % 2 ^ 32)) = true := by
  rcases Nat.lt_or_ge (totalSize os) (2 ^ 32) with hlt | hge
  · have hstarts : ∀ i ∈ starts 0 os, i < 2 ^ 32 := by
      intro i hi
      have := starts_lt hi
      omega
    have hend : endsOptions (m (totalSize os % 2 ^ 32)) = true := by
      rw [Nat.mod_eq_of_lt hlt, end_of_slice hslice]
      rfl
    exact ⟨fun _ => ⟨hstarts, hend⟩, fun _ => .inl hlt⟩
  · have hbyte := byte_of_slice hslice
      (i := totalSize os % 2 ^ 32) (Nat.lt_of_lt_of_le (Nat.mod_lt _ (by decide)) hge)
    constructor
    · intro h
      obtain ⟨hstarts, b, hb, hend⟩ := h.resolve_left (Nat.not_lt_of_le hge)
      rw [hbyte] at hb
      exact ⟨hstarts, Option.some.inj hb ▸ hend⟩
    · intro h
      exact .inr ⟨h.1, _, hbyte, h.2⟩

/-- With payloads that fit, all options are visited exactly if the index can hold their
places. -/
theorem visits_iff (hlen : ∀ o ∈ os, o.payload.length ≤ 255) :
    (∃ k e, forEachOptionWalk.run m k 0 = some (starts 0 os, e)) ↔ Indexable os := by
  have hstored := stored_of_slice hslice
  rw [indexable_iff hslice]
  constructor
  · intro h
    obtain ⟨k, e, hrun⟩ := h
    have hstarts : ∀ i ∈ starts 0 os, i < 2 ^ 32 :=
      FieldWalk.run_invariant (fun _ _ => Nat.mod_lt _ (by decide)) (by decide) hrun
    have hlong := FieldWalk.run_le (Nat.le_add_left k os.length) hrun
    have hwalk := hstored.forEachOption (k := k) hlen hstarts
    rw [Nat.zero_mod, hlong] at hwalk
    obtain ⟨r, hrest, hr⟩ := Option.map_eq_some_iff.mp hwalk.symm
    have hnil : r.1 = [] := by simpa using congrArg Prod.fst hr
    rw [Nat.zero_add] at hrest
    exact ⟨hstarts, FieldWalk.run_nil hrest hnil⟩
  · intro h
    refine ⟨os.length + 1, totalSize os % 2 ^ 32, ?_⟩
    have hwalk := hstored.forEachOption (k := 1) hlen h.1
    have hstop : forEachOptionWalk.run m 1 (totalSize os % 2 ^ 32) =
        some ([], totalSize os % 2 ^ 32) := FieldWalk.run_stop h.2
    rw [Nat.zero_mod, Nat.zero_add, hstop] at hwalk
    rw [hwalk, Option.map_some, List.append_nil]

end

theorem mem_zip_starts (off : Nat) (ho : o ∈ os) : ∃ i, (i, o) ∈ (starts off os).zip os := by
  induction os generalizing off with
  | nil => cases ho
  | cons o' os ih =>
    rw [starts, List.zip_cons_cons]
    rcases List.mem_cons.mp ho with rfl | ho
    · exact ⟨off, List.mem_cons_self⟩
    · obtain ⟨i, hi⟩ := ih (off + o'.size) ho
      exact ⟨i, List.mem_cons_of_mem _ hi⟩

/-- For all options that the size guard lets pass: what is read are the options that were
appended, exactly if they fit. -/
theorem roundTrip_iff (mem : Memory) (g : SizeGuard) (os : List PacketOption)
    (a : OptionsAggregator) (h : OptionsAggregator.aggregate mem g os = some a) :
    RoundTrip a.packet os ↔ Fits os := by
  constructor
  · intro hround
    have hlen : ∀ o ∈ os, o.payload.length ≤ 255 := by
      intro o ho
      obtain ⟨i, hi⟩ := mem_zip_starts 0 ho
      rw [← (hround.contents (i, o) hi).2, Memory.length_slice]
      exact Nat.le_of_lt_succ (UInt8.toNat_lt _)
    exact ⟨hlen, (visits_iff (OptionsAggregator.slice_aggregate h hlen) hlen).mp hround.visits⟩
  · intro hfits
    have hslice := OptionsAggregator.slice_aggregate h hfits.payload
    have hstored := stored_of_slice hslice
    exact ⟨(visits_iff hslice hfits.payload).mpr hfits.index, hstored.contents hfits.payload,
      fun t => hstored.option hfits.payload t⟩

/-- A size guard for a packet with 312 bytes of options. -/
def optionsGuard : SizeGuard := ⟨552, 240, 0⟩

/-- The message type and the two servers of a reply. -/
def reply : List PacketOption :=
  [.messageType 5, .dnsServer [#v[10, 0, 3, 1], #v[9, 9, 9, 9]], .domainName [108, 97, 110]]

theorem roundTrip_iff_reply : RoundTrip
    (OptionsAggregator.packet (((OptionsAggregator.aggregate (fun _ => 0) optionsGuard reply).get
      (by decide)))) reply ↔ Fits reply :=
  roundTrip_iff (fun _ => 0) optionsGuard reply _ (Option.some_get _).symm

/-- A domain name of 256 characters. -/
def longName : List PacketOption := [.domainName (List.replicate 256 97)]

/-- The guard lets the long name pass, but its length byte is zero. -/
theorem longName_lost : ∃ a, OptionsAggregator.aggregate (fun _ => 0) optionsGuard longName = some a ∧
    ¬ RoundTrip a.packet longName := by
  have hsome : (OptionsAggregator.aggregate (fun _ => 0) optionsGuard longName).isSome = true := by
    simp [OptionsAggregator.aggregate, longName, OptionsAggregator.append,
      OptionsAggregator.appendDomainName, OptionsAggregator.appendOption, SizeGuard.consumeHead,
      SizeGuard.consume, optionsGuard, -List.reduceReplicate]
  obtain ⟨a, ha⟩ := Option.isSome_iff_exists.mp hsome
  refine ⟨a, ha, ?_⟩
  intro h
  have hcontents := (h.contents (0, .domainName (List.replicate 256 97)) List.mem_cons_self).2
  have hlen := congrArg List.length hcontents
  rw [Memory.length_slice] at hlen
  have hlt := UInt8.toNat_lt (a.packet.opts (0 + 1))
  rw [hlen, PacketOption.payload, List.length_replicate] at hlt
  exact absurd hlt (by decide)

end Genode.Net
