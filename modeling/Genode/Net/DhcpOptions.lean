import Genode.Net.DhcpPacket
import Genode.Net.Ipv4Packet

/-!
# DhcpOptions — the options of a sent packet

`net/dhcp.h`, the writing side, and `net/size_guard.h`. Options are appended one
behind the other; sizes are machine words, and so is the address of the next
option, which is relative to `_opts` here.
-/

namespace Genode.Net

open Lib

/-! ## The size guard -/

/-- `Size_guard`. -/
structure SizeGuard where
  totalSize : BitVec 64
  headSize : BitVec 64
  tailSize : BitVec 64
  deriving DecidableEq, Repr

namespace SizeGuard

/-- `_consume`; nothing if it throws `Exceeded`. -/
def consume (g : SizeGuard) (s1 s2 s1Consume : BitVec 64) : Option (BitVec 64) :=
  let newS1 := s1 + s1Consume
  if newS1 < s1 ∨ newS1 > g.totalSize - s2 then none else some newS1

def consumeHead (g : SizeGuard) (size : Nat) : Option SizeGuard :=
  (g.consume g.headSize g.tailSize (.ofNat 64 size)).map fun headSize => { g with headSize }

theorem consumeHead_eq {g g' : SizeGuard} {size : Nat} (h : g.consumeHead size = some g')
    (hsize : size < 2 ^ 64) : g'.headSize.toNat = g.headSize.toNat + size := by
  obtain ⟨head, hconsume, rfl⟩ := Option.map_eq_some_iff.mp h
  simp only [consume, Option.ite_none_left_eq_some, Option.some.injEq, not_or] at hconsume
  obtain ⟨⟨hwrap, -⟩, rfl⟩ := hconsume
  rw [BitVec.lt_def, BitVec.toNat_add, BitVec.toNat_ofNat, Nat.mod_eq_of_lt hsize] at hwrap
  show (g.headSize + BitVec.ofNat 64 size).toNat = _
  rw [BitVec.toNat_add, BitVec.toNat_ofNat, Nat.mod_eq_of_lt hsize]
  have := g.headSize.isLt
  omega

end SizeGuard

/-! ## Options -/

/-- The bytes of an address. -/
def addressBytes (addr : Ipv4Address) : List UInt8 := addr.toList.map UInt8.ofBitVec

/-- What is appended, with the arguments of the constructors and the elements of lists. -/
inductive PacketOption where
  | ipLeaseTime (time : UInt32)
  | messageType (value : UInt8)
  | ipv4 (code : Ipv4Code) (value : Ipv4Address)
  | clientId (mac : Vector UInt8 6)
  | maxMsgSize (size : UInt16)
  | paramReqList (options : List OptionType)
  | dnsServer (addrs : List Ipv4Address)
  | domainName (name : List UInt8)
  deriving DecidableEq, Repr

namespace PacketOption

def code : PacketOption → UInt8
  | ipLeaseTime _ => 51
  | messageType _ => 53
  | ipv4 code _ => code.value
  | clientId _ => 61
  | maxMsgSize _ => 57
  | paramReqList _ => 55
  | dnsServer _ => 6
  | domainName _ => 15

/-- The bytes behind the header. -/
def payload : PacketOption → List UInt8
  | ipLeaseTime time =>
    [(time >>> 24).toUInt8, (time >>> 16).toUInt8, (time >>> 8).toUInt8, time.toUInt8]
  | messageType value => [value]
  | ipv4 _ value => addressBytes value
  | clientId mac => 1 :: mac.toList
  | maxMsgSize size => [(size >>> 8).toUInt8, size.toUInt8]
  | paramReqList options => options.map OptionType.code
  | dnsServer addrs => addrs.flatMap addressBytes
  | domainName name => name

end PacketOption

/-! ## The aggregator -/

/-- `Options_aggregator`, with the memory of the packet. -/
structure OptionsAggregator where
  mem : Memory
  base : Nat
  sizeGuard : SizeGuard

/-- `Parameter_request_list_data` and `Dns_server_data`, with the size in bytes. -/
structure ListData where
  mem : Memory
  base : Nat
  size : Nat
  sizeGuard : SizeGuard

namespace ListData

/-- What both kinds of lists do to append an element. -/
def append (d : ListData) (elem : List UInt8) : Option ListData := do
  let sizeGuard ← d.sizeGuard.consumeHead elem.length
  some { d with
    mem := d.mem.write (d.base + d.size) elem
    size := (d.size + elem.length) % 2 ^ 64
    sizeGuard }

def appendParamReq (d : ListData) (option : OptionType) : Option ListData := d.append [option.code]

def appendAddress (d : ListData) (addr : Ipv4Address) : Option ListData :=
  d.append (addressBytes addr)

end ListData

namespace OptionsAggregator

/-- `append_option` for an option with a payload of fixed size. -/
def appendOption (a : OptionsAggregator) (code : UInt8) (value : List UInt8) :
    Option OptionsAggregator := do
  let sizeGuard ← a.sizeGuard.consumeHead (2 + value.length)
  some {
    mem := a.mem.write a.base (code :: .ofNat value.length :: value)
    base := (a.base + (2 + value.length)) % 2 ^ 64
    sizeGuard }

/-- What `append_param_req_list` and `append_dns_server` do around `init_data`. -/
def appendList (a : OptionsAggregator) (code : UInt8)
    (initData : ListData → Option ListData) : Option OptionsAggregator := do
  let sizeGuard ← a.sizeGuard.consumeHead 2
  let data ← initData { mem := a.mem, base := a.base + 2, size := 0, sizeGuard }
  some {
    mem := data.mem.write a.base [code, .ofNat data.size]
    base := (a.base + (2 + data.size)) % 2 ^ 64
    sizeGuard := data.sizeGuard }

def appendParamReqList (a : OptionsAggregator) (options : List OptionType) :
    Option OptionsAggregator :=
  a.appendList 55 fun data => options.foldlM ListData.appendParamReq data

def appendDnsServer (a : OptionsAggregator) (addrs : List Ipv4Address) :
    Option OptionsAggregator :=
  a.appendList 6 fun data => addrs.foldlM ListData.appendAddress data

def appendDomainName (a : OptionsAggregator) (name : List UInt8) : Option OptionsAggregator := do
  let sizeGuard ← a.sizeGuard.consumeHead (2 + name.length)
  some {
    mem := (a.mem.write (a.base + 2) name).write a.base [15, .ofNat name.length]
    base := (a.base + (2 + name.length)) % 2 ^ 64
    sizeGuard }

def append (a : OptionsAggregator) : PacketOption → Option OptionsAggregator
  | .paramReqList options => a.appendParamReqList options
  | .dnsServer addrs => a.appendDnsServer addrs
  | .domainName name => a.appendDomainName name
  | o => a.appendOption o.code o.payload

/-- Append the options, and `Options_end`. -/
def aggregate (mem : Memory) (sizeGuard : SizeGuard) (os : List PacketOption) :
    Option OptionsAggregator := do
  let a ← os.foldlM append { mem, base := 0, sizeGuard }
  a.appendOption 255 []

/-- The packet that the options were written to. -/
def packet (a : OptionsAggregator) : DhcpPacket := ⟨a.mem, a.base⟩

end OptionsAggregator

/-! ## What is written -/

namespace PacketOption

def size (o : PacketOption) : Nat := 2 + o.payload.length

/-- An option in memory. -/
def encode (o : PacketOption) : List UInt8 := o.code :: .ofNat o.payload.length :: o.payload

theorem length_encode (o : PacketOption) : o.encode.length = o.size := by
  simp only [encode, size, List.length_cons]
  omega

end PacketOption

namespace ListData

/-- What is kept while elements are appended: the data ends within what is consumed. -/
def Guarded (d : ListData) : Prop := d.base + d.size ≤ d.sizeGuard.headSize.toNat

theorem append_eq {d d' : ListData} {elem : List UInt8} (h : d.append elem = some d')
    (hd : d.Guarded) (helem : elem.length < 2 ^ 64) :
    d'.Guarded ∧ d'.base = d.base ∧ d'.size = d.size + elem.length ∧
      d'.mem = d.mem.write (d.base + d.size) elem := by
  obtain ⟨g, hg, h⟩ := Option.bind_eq_some_iff.mp h
  obtain rfl := Option.some.inj h
  have hhead := SizeGuard.consumeHead_eq hg helem
  have hlt := g.headSize.isLt
  have hsize : (d.size + elem.length) % 2 ^ 64 = d.size + elem.length := by
    apply Nat.mod_eq_of_lt
    unfold Guarded at hd
    omega
  refine ⟨?_, rfl, hsize, rfl⟩
  unfold Guarded at hd ⊢
  show d.base + (d.size + elem.length) % 2 ^ 64 ≤ g.headSize.toNat
  omega

theorem foldlM_append {elems : List (List UInt8)} {d d' : ListData}
    (h : elems.foldlM append d = some d') (hd : d.Guarded) (helems : ∀ e ∈ elems, e.length < 2 ^ 64) :
    d'.Guarded ∧ d'.base = d.base ∧ d'.size = d.size + elems.flatten.length ∧
      d'.mem.slice d.base d'.size = d.mem.slice d.base d.size ++ elems.flatten ∧
      ∀ x, x < d.base → d'.mem x = d.mem x := by
  induction elems generalizing d with
  | nil =>
    obtain rfl := Option.some.inj h
    simp [hd]
  | cons elem elems ih =>
    rw [List.foldlM_cons] at h
    obtain ⟨d₁, happend, h⟩ := Option.bind_eq_some_iff.mp h
    rw [List.forall_mem_cons] at helems
    obtain ⟨hd₁, hbase₁, hsize₁, hmem₁⟩ := append_eq happend hd helems.1
    obtain ⟨hd', hbase, hsize, hslice, hbefore⟩ := ih h hd₁ helems.2
    rw [hbase₁] at hbase hslice hbefore
    have hslice₁ : d₁.mem.slice d.base d₁.size = d.mem.slice d.base d.size ++ elem := by
      rw [hsize₁, hmem₁, Memory.slice_add, Memory.slice_write, Memory.slice_write_of_le (le_refl _)]
    refine ⟨hd', hbase, ?_, ?_, ?_⟩
    · rw [hsize, hsize₁, List.flatten_cons, List.length_append, Nat.add_assoc]
    · rw [hslice, hslice₁, List.flatten_cons, List.append_assoc]
    · intro x hx
      rw [hbefore x hx, hmem₁, Memory.write_of_lt (by omega)]

end ListData

namespace OptionsAggregator

/-- What is kept while options are appended. -/
def Guarded (a : OptionsAggregator) : Prop := a.base ≤ a.sizeGuard.headSize.toNat

/-- The aggregator has appended bytes. -/
structure Appended (a a' : OptionsAggregator) (bytes : List UInt8) : Prop where
  guarded : a'.Guarded
  base : a'.base = a.base + bytes.length
  slice : a'.mem.slice 0 a'.base = a.mem.slice 0 a.base ++ bytes

variable {a a' a'' : OptionsAggregator}

theorem Appended.trans {bytes bytes' : List UInt8} (h : a.Appended a' bytes)
    (h' : a'.Appended a'' bytes') : a.Appended a'' (bytes ++ bytes') := by
  refine ⟨h'.guarded, ?_, ?_⟩
  · rw [h'.base, h.base, List.length_append, Nat.add_assoc]
  · rw [h'.slice, h.slice, List.append_assoc]

theorem appendOption_appended {code : UInt8} {value : List UInt8}
    (h : a.appendOption code value = some a') (ha : a.Guarded) (hlen : value.length ≤ 255) :
    a.Appended a' (code :: .ofNat value.length :: value) := by
  obtain ⟨g, hg, h⟩ := Option.bind_eq_some_iff.mp h
  obtain rfl := Option.some.inj h
  have hhead := SizeGuard.consumeHead_eq hg (by omega)
  have hlt := g.headSize.isLt
  unfold Guarded at ha
  have hbase : (a.base + (2 + value.length)) % 2 ^ 64 = a.base + (2 + value.length) :=
    Nat.mod_eq_of_lt (by omega)
  refine ⟨?_, ?_, ?_⟩
  · show (a.base + (2 + value.length)) % 2 ^ 64 ≤ g.headSize.toNat
    omega
  · show (a.base + (2 + value.length)) % 2 ^ 64 = _
    simp only [List.length_cons]
    omega
  · show (a.mem.write _ _).slice 0 ((a.base + (2 + value.length)) % 2 ^ 64) = _
    have hsize : 2 + value.length = (code :: UInt8.ofNat value.length :: value).length := by
      simp only [List.length_cons]
      omega
    rw [hbase, hsize, Memory.slice_add, Nat.zero_add, Memory.slice_write,
      Memory.slice_write_of_le (by omega)]

/-- A payload with its header in front, written last. -/
theorem slice_header {m m' : Memory} {base : Nat} {header value : List UInt8}
    (hvalue : m'.slice (base + header.length) value.length = value)
    (hbefore : ∀ x, x < base → m' x = m x) :
    (m'.write base header).slice 0 (base + (header.length + value.length)) =
      m.slice 0 base ++ (header ++ value) := by
  rw [Memory.slice_add, Memory.slice_add, Nat.zero_add, Memory.slice_write,
    Memory.slice_write_of_ge (le_refl _), Memory.slice_write_of_le (by omega), hvalue]
  rw [Memory.slice_congr fun x _ hx => hbefore x (by omega)]

/-- What `appendList` and `appendDomainName` come to. -/
theorem appended_of_header {m' : Memory} {code : UInt8} {value : List UInt8} {g : SizeGuard}
    (hg : a.base + (2 + value.length) ≤ g.headSize.toNat)
    (hvalue : m'.slice (a.base + 2) value.length = value) (hbefore : ∀ x, x < a.base → m' x = a.mem x) :
    a.Appended
      { mem := m'.write a.base [code, .ofNat value.length]
        base := (a.base + (2 + value.length)) % 2 ^ 64
        sizeGuard := g }
      (code :: .ofNat value.length :: value) := by
  have hlt := g.headSize.isLt
  have hbase : (a.base + (2 + value.length)) % 2 ^ 64 = a.base + (2 + value.length) :=
    Nat.mod_eq_of_lt (by omega)
  refine ⟨?_, ?_, ?_⟩
  · show (a.base + (2 + value.length)) % 2 ^ 64 ≤ g.headSize.toNat
    omega
  · show (a.base + (2 + value.length)) % 2 ^ 64 = _
    simp only [List.length_cons]
    omega
  · show (m'.write _ _).slice 0 ((a.base + (2 + value.length)) % 2 ^ 64) = _
    rw [hbase]
    exact slice_header hvalue hbefore

theorem appendList_appended (code : UInt8) (elems : List (List UInt8))
    (h : a.appendList code (fun data => elems.foldlM ListData.append data) = some a')
    (ha : a.Guarded) (hlen : elems.flatten.length ≤ 255) :
    a.Appended a' (code :: .ofNat elems.flatten.length :: elems.flatten) := by
  obtain ⟨g, hg, h⟩ := Option.bind_eq_some_iff.mp h
  obtain ⟨d, hd, h⟩ := Option.bind_eq_some_iff.mp h
  obtain rfl := Option.some.inj h
  have hhead := SizeGuard.consumeHead_eq hg (by omega)
  unfold Guarded at ha
  have hstart : ListData.Guarded ⟨a.mem, a.base + 2, 0, g⟩ := by
    show a.base + 2 + 0 ≤ g.headSize.toNat
    omega
  have helems : ∀ e ∈ elems, e.length < 2 ^ 64 := by
    intro e he
    have hle := (List.sublist_flatten_of_mem he).length_le
    omega
  obtain ⟨hdata, hdbase, hdsize, hslice, hbefore⟩ := ListData.foldlM_append hd hstart helems
  have hlt := d.sizeGuard.headSize.isLt
  unfold ListData.Guarded at hdata
  rw [Nat.zero_add] at hdsize
  rw [Memory.slice_zero, List.nil_append, hdsize] at hslice
  rw [hdsize]
  apply appended_of_header _ hslice
  · intro x hx
    exact hbefore x (Nat.lt_add_right 2 hx)
  · have hdbase : d.base = a.base + 2 := hdbase
    rw [hdbase, hdsize] at hdata
    omega

theorem appendDomainName_appended {name : List UInt8} (h : a.appendDomainName name = some a')
    (ha : a.Guarded) (hlen : name.length ≤ 255) :
    a.Appended a' (15 :: .ofNat name.length :: name) := by
  obtain ⟨g, hg, h⟩ := Option.bind_eq_some_iff.mp h
  obtain rfl := Option.some.inj h
  have hhead := SizeGuard.consumeHead_eq hg (by omega)
  unfold Guarded at ha
  apply appended_of_header (by omega) (Memory.slice_write _ _ _)
  intro x hx
  exact Memory.write_of_lt (by omega)

/-- One option, if its payload fits the length byte. -/
theorem append_appended {o : PacketOption} (h : a.append o = some a') (ha : a.Guarded)
    (hlen : o.payload.length ≤ 255) : a.Appended a' o.encode := by
  cases o with
  | ipLeaseTime time => exact appendOption_appended h ha hlen
  | messageType value => exact appendOption_appended h ha hlen
  | ipv4 code value => exact appendOption_appended h ha hlen
  | clientId mac => exact appendOption_appended h ha hlen
  | maxMsgSize size => exact appendOption_appended h ha hlen
  | paramReqList options =>
    have hpayload : (options.map fun option => [option.code]).flatten =
        options.map OptionType.code := by
      rw [← List.flatMap_def]
      exact List.flatMap_pure_eq_map _ _
    have hlist : a.Appended a' _ :=
      appendList_appended 55 (options.map fun option => [option.code])
        (by rw [← h]; simp only [List.foldlM_map]; rfl) ha (by rw [hpayload]; exact hlen)
    rw [hpayload] at hlist
    exact hlist
  | dnsServer addrs =>
    exact appendList_appended 6 (addrs.map addressBytes)
      (by rw [← h]; simp only [List.foldlM_map]; rfl) ha hlen
  | domainName name => exact appendDomainName_appended h ha hlen

theorem foldlM_append {os : List PacketOption} (h : os.foldlM append a = some a')
    (ha : a.Guarded) (hlen : ∀ o ∈ os, o.payload.length ≤ 255) :
    a.Appended a' (os.flatMap PacketOption.encode) := by
  induction os generalizing a with
  | nil =>
    obtain rfl := Option.some.inj h
    exact ⟨ha, rfl, (List.append_nil _).symm⟩
  | cons o os ih =>
    rw [List.foldlM_cons] at h
    obtain ⟨a₁, happend, h⟩ := Option.bind_eq_some_iff.mp h
    rw [List.forall_mem_cons] at hlen
    have hone := append_appended happend ha hlen.1
    exact hone.trans (ih h hone.guarded hlen.2)

/-- The options and the end in the memory of the packet. -/
theorem slice_aggregate {mem : Memory} {g : SizeGuard} {os : List PacketOption}
    (h : aggregate mem g os = some a) (hlen : ∀ o ∈ os, o.payload.length ≤ 255) :
    a.mem.slice 0 (os.flatMap PacketOption.encode ++ [255, 0]).length =
      os.flatMap PacketOption.encode ++ [255, 0] := by
  obtain ⟨a₁, happend, hend⟩ := Option.bind_eq_some_iff.mp h
  have hstart : Guarded ⟨mem, 0, g⟩ := Nat.zero_le _
  have hfirst := foldlM_append happend hstart hlen
  have hall := hfirst.trans (appendOption_appended hend hfirst.guarded (Nat.zero_le _))
  have hslice := hall.slice
  rw [hall.base, Memory.slice_zero, List.nil_append, Nat.zero_add] at hslice
  exact hslice

end OptionsAggregator

end Genode.Net
