import Genode.Base.Metadata
import Genode.Core.RegionMap
import Genode.Lib.Word
import Genode.Util.Register

/-!
# PageTable — the page tables of x86_64

`base-hw/src/include/hw/spec/x86_64/page_table.h` and
`page_table_allocator.h`. There are four levels of tables with 512 entries
each. An entry of the lowest level maps a page, an entry of the highest one
refers to a table of the next level, and in between an entry does either.
The tables below the root come from an array, and refer to each other by
physical addresses.
-/

namespace Genode.Hw

open Lib Util
open Base (Md)
open Genode.Core (Cache)

/-- `Page_flags` -/
structure PageFlags where
  writeable : Bool
  executable : Bool
  privileged : Bool
  global : Bool
  device : Bool
  cacheable : Cache
  deriving DecidableEq, Repr

/-- The exceptions. -/
inductive TableError where
  | invalidRange
  | doubleInsertion
  | outOfTables
  deriving DecidableEq, Repr

/-! ## Descriptors -/

namespace CommonDescriptor

def p : Bitfield 64 := ⟨0, 1⟩
def rw : Bitfield 64 := ⟨1, 1⟩
def us : Bitfield 64 := ⟨2, 1⟩
def pwt : Bitfield 64 := ⟨3, 1⟩
def a : Bitfield 64 := ⟨5, 1⟩
def d : Bitfield 64 := ⟨6, 1⟩
def xd : Bitfield 64 := ⟨63, 1⟩

def present (v : Nat) : Bool := p.get v != 0

def create (flags : PageFlags) : Nat :=
  p.bits 1 ||| rw.bits flags.writeable.toNat ||| us.bits (!flags.privileged).toNat
    ||| xd.bits (!flags.executable).toNat

/-- `clear_mmu_flags`: without the flags that the MMU sets. -/
def clearMmuFlags (value : Nat) : Nat := d.clear (a.clear value)

end CommonDescriptor

open CommonDescriptor (present clearMmuFlags)

/-- The flags of an entry that refers to a table. -/
def tableFlags : PageFlags := ⟨true, true, false, false, false, .cached⟩

def PageFlags.wc (flags : PageFlags) : Bool := flags.cacheable == .writeCombined

namespace Level4

/-- The fields of `Level_4_translation_table::Descriptor`. -/
def g : Bitfield 64 := ⟨8, 1⟩
def pa : Bitfield 64 := ⟨12, 36⟩

/-- `Descriptor::create` -/
def create (flags : PageFlags) (addr : Nat) : Nat :=
  CommonDescriptor.create flags ||| g.bits flags.global.toNat ||| pa.masked addr
    ||| CommonDescriptor.pwt.bits flags.wc.toNat

end Level4

namespace BaseDescriptor

/-- The page size. -/
def ps : Bitfield 64 := ⟨7, 1⟩

def mapsPage (v : Nat) : Bool := ps.get v != 0

end BaseDescriptor

open BaseDescriptor (mapsPage)

namespace PageDescriptor

def g : Bitfield 64 := ⟨8, 1⟩
def pa (pageSizeLog2 : Nat) : Bitfield 64 := ⟨pageSizeLog2, 48 - pageSizeLog2⟩

def create (pageSizeLog2 : Nat) (flags : PageFlags) (addr : Nat) : Nat :=
  CommonDescriptor.create flags ||| BaseDescriptor.ps.bits 1 ||| g.bits flags.global.toNat
    ||| (pa pageSizeLog2).masked addr ||| CommonDescriptor.pwt.bits flags.wc.toNat

end PageDescriptor

namespace TableDescriptor

def pa : Bitfield 64 := ⟨12, 36⟩

def create (addr : Nat) : Nat := CommonDescriptor.create tableFlags ||| pa.masked addr

end TableDescriptor

namespace Pml4

/-- The fields of `Pml4_table::Descriptor`. -/
def pa : Bitfield 64 := ⟨12, 48⟩

/-- `Descriptor::create` -/
def create (addr : Nat) : Nat := CommonDescriptor.create tableFlags ||| pa.masked addr

end Pml4

/-! ## The array of tables -/

/-- Where the array of `n` tables is in physical memory. -/
structure TableArray (n : Nat) where
  base : Nat
  aligned : 4096 ∣ base
  within : base + n * 4096 ≤ 2 ^ 48

namespace TableArray

variable {n : Nat} (A : TableArray n)

/-- `phys_addr` -/
def physAddr (i : Fin n) : Nat := A.base + i * 4096

/-- `virt_addr`, with the table that is at the address. -/
def virtAddr (addr : Nat) : Exec (Fin n) :=
  if h : A.base ≤ addr ∧ (addr - A.base) % 4096 = 0 ∧ (addr - A.base) / 4096 < n then
    .ok ⟨(addr - A.base) / 4096, h.2.2⟩
  else .error .pointer

end TableArray

/-- The memory of the tables and the allocator for them. The root is a table
of its own. -/
structure PageTables (n : Nat) (μ : Type) where
  entries : Option (Fin n) → Nat → Nat
  alloc : μ

/-- What a function does that may throw. -/
abbrev Outcome (n : Nat) (μ : Type) := Exec (Except TableError Unit × PageTables n μ)

variable {n : Nat} {μ : Type}

namespace PageTables

variable (s : PageTables n μ) (t : Option (Fin n))

def setEntry (j v : Nat) : PageTables n μ :=
  { s with entries := Function.update s.entries t (Function.update (s.entries t) j v) }

/-- A new table has no entries. -/
def clearTable : PageTables n μ := { s with entries := Function.update s.entries t fun _ => 0 }

/-- `empty` -/
def empty : Bool := (List.range 512).all fun j => !present (s.entries t j)

/-- `construct` of a table; there is none if it throws `Out_of_tables`. -/
def construct (D : Md (Fin n) μ) : Option (Fin n) × PageTables n μ :=
  match D.take s.alloc with
  | (.error _, m) => (none, { s with alloc := m })
  | (.ok i, m) => (some i, clearTable { s with alloc := m } (some i))

/-- `destruct` -/
def destruct (D : Md (Fin n) μ) (i : Fin n) : Exec (PageTables n μ) := do
  let m ← D.give i s.alloc
  .ok { s with alloc := m }

end PageTables

/-- The part of a table's interface that the tables above use. -/
structure Table (n : Nat) (μ : Type) where
  insertTranslation : Option (Fin n) → Nat → Nat → Nat → PageFlags → PageTables n μ → Outcome n μ
  removeTranslation : Option (Fin n) → Nat → Nat → PageTables n μ → Outcome n μ

/-- `_range_op`, for at most `fuel` rounds. The function gets the offset, the
physical address and the size of a part within one entry. -/
def rangeOp (pageSizeLog2 : Nat) (index : Nat → Nat)
    (func : Nat → Nat → Nat → Nat → PageTables n μ → Outcome n μ) :
    Nat → Nat → Nat → Nat → PageTables n μ → Outcome n μ
  | 0, _, _, _, _ => .error .endless
  | fuel + 1, vo, pa, size, s =>
    if size = 0 then .ok (.ok (), s)
    else if index vo < 512 then
      let stop := clearLow (add64 vo (2 ^ pageSizeLog2)) pageSizeLog2
      let sz := min size (sub64 stop vo)
      match func vo pa sz (index vo) s with
      | .error f => .error f
      | .ok (.error e, s) => .ok (.error e, s)
      | .ok (.ok (), s) =>
        -- the end of the address space
        if stop < vo then .ok (.ok (), s)
        else rangeOp pageSizeLog2 index func fuel (add64 vo sz) (add64 pa sz) (size - sz) s
    else .error .assertion

/-- Where `Insert_func` maps a page. -/
def mapPage (tableEntry : Nat) (t : Option (Fin n)) (j : Nat) (s : PageTables n μ) :
    Outcome n μ :=
  if present (s.entries t j) ∧ clearMmuFlags (s.entries t j) ≠ tableEntry then
    .ok (.error .doubleInsertion, s)
  else .ok (.ok (), s.setEntry t j tableEntry)

/-! ## The lowest level -/

namespace Level4

def insertFunc (flags : PageFlags) (t : Option (Fin n)) (vo addr size j : Nat)
    (s : PageTables n μ) : Outcome n μ :=
  if vo % 2 ^ 12 ≠ 0 ∨ addr % 2 ^ 12 ≠ 0 ∨ size < 2 ^ 12 then .ok (.error .invalidRange, s)
  else mapPage (create flags addr) t j s

def removeFunc (t : Option (Fin n)) (_vo _addr _size j : Nat) (s : PageTables n μ) :
    Outcome n μ :=
  .ok (.ok (), s.setEntry t j 0)

/-- `Level_4_translation_table` -/
def table : Table n μ :=
  ⟨fun t vo addr size flags => rangeOp 12 (· / 2 ^ 12) (insertFunc flags t) (size + 1) vo addr size,
    fun t vo size => rangeOp 12 (· / 2 ^ 12) (removeFunc t) (size + 1) vo 0 size⟩

end Level4

/-! ## The levels above -/

section Directory

variable (A : TableArray n) (D : Md (Fin n) μ) (E : Table n μ)

/-- The table that an entry refers to. -/
def tableOf (paField : Bitfield 64) (t : Option (Fin n)) (j : Nat) (s : PageTables n μ) :
    Exec (Fin n) :=
  A.virtAddr (paField.masked (s.entries t j))

/-- The end of `Insert_func`: insert the translation into the next level's
table, which is created if there is none. -/
def insertBelow (pageSizeLog2 : Nat) (create : Nat → Nat) (paField : Bitfield 64)
    (flags : PageFlags) (t : Option (Fin n)) (vo addr size j : Nat) (s : PageTables n μ) :
    Exec (Except TableError Unit × PageTables n μ) :=
  if present (s.entries t j) then do
    let i ← tableOf A paField t j s
    E.insertTranslation (some i) (vo - clearLow vo pageSizeLog2) addr size flags s
  else
    match s.construct D with
    | (none, s) => .ok (.error .outOfTables, s)
    | (some i, s) => do
      let s := s.setEntry t j (create (A.physAddr i))
      let i ← tableOf A paField t j s
      E.insertTranslation (some i) (vo - clearLow vo pageSizeLog2) addr size flags s

/-- The end of `Remove_func`: remove the translation from the next level's
table, and the table if it is empty then. -/
def removeBelow (pageSizeLog2 : Nat) (paField : Bitfield 64) (t : Option (Fin n))
    (vo size j : Nat) (s : PageTables n μ) : Exec (Except TableError Unit × PageTables n μ) := do
  let i ← tableOf A paField t j s
  match ← E.removeTranslation (some i) (vo - clearLow vo pageSizeLog2) size s with
  | (.error e, s) => .ok (.error e, s)
  | (.ok (), s) =>
    if s.empty (some i) then
      let s ← s.destruct D i
      .ok (.ok (), s.setEntry t j 0)
    else .ok (.ok (), s)

namespace PageDirectory

variable (pageSizeLog2 : Nat)

def insertFunc (flags : PageFlags) (t : Option (Fin n)) (vo addr size j : Nat)
    (s : PageTables n μ) : Outcome n μ :=
  if vo % 2 ^ pageSizeLog2 = 0 ∧ addr % 2 ^ pageSizeLog2 = 0 ∧ 2 ^ pageSizeLog2 ≤ size then
    mapPage (PageDescriptor.create pageSizeLog2 flags addr) t j s
  else if present (s.entries t j) ∧ mapsPage (s.entries t j) then
    .ok (.error .doubleInsertion, s)
  else
    insertBelow A D E pageSizeLog2 TableDescriptor.create TableDescriptor.pa flags t vo addr size j s

def removeFunc (t : Option (Fin n)) (vo _addr size j : Nat) (s : PageTables n μ) : Outcome n μ :=
  if present (s.entries t j) then
    if mapsPage (s.entries t j) then .ok (.ok (), s.setEntry t j 0)
    else removeBelow A D E pageSizeLog2 TableDescriptor.pa t vo size j s
  else .ok (.ok (), s)

/-- `Page_directory` -/
def table : Table n μ :=
  ⟨fun t vo addr size flags =>
      rangeOp pageSizeLog2 (· / 2 ^ pageSizeLog2) (insertFunc A D E pageSizeLog2 flags t)
        (size + 1) vo addr size,
    fun t vo size =>
      rangeOp pageSizeLog2 (· / 2 ^ pageSizeLog2) (removeFunc A D E pageSizeLog2 t)
        (size + 1) vo 0 size⟩

end PageDirectory

/-- `Level_3_translation_table` -/
def level3 : Table n μ := PageDirectory.table A D Level4.table 21

/-- `Level_2_translation_table` -/
def level2 : Table n μ := PageDirectory.table A D (level3 A D) 30

namespace Pml4

def insertFunc (flags : PageFlags) (t : Option (Fin n)) (vo addr size j : Nat)
    (s : PageTables n μ) : Outcome n μ :=
  insertBelow A D E 39 create pa flags t vo addr size j s

def removeFunc (t : Option (Fin n)) (vo _addr size j : Nat) (s : PageTables n μ) : Outcome n μ :=
  if present (s.entries t j) then removeBelow A D E 39 pa t vo size j s
  else .ok (.ok (), s)

/-- The index of an entry, without the bits above the address space. -/
def index (vo : Nat) : Nat := vo % 2 ^ 48 / 2 ^ 39

/-- `Pml4_table`, with its tables of the second level. -/
def table : Table n μ :=
  ⟨fun t vo addr size flags =>
      rangeOp 39 index (insertFunc A D E flags t) (size + 1) vo addr size,
    fun t vo size => rangeOp 39 index (removeFunc A D E t) (size + 1) vo 0 size⟩

end Pml4

/-- `Page_table` -/
def pageTable : Table n μ := Pml4.table A D (level2 A D)

end Directory

end Genode.Hw
