import Genode.Lib.Bytes
import Genode.Lib.Codec
import Genode.Lib.Run

/-!
# TraceBuffer — the buffer of trace events

`base/include/base/trace/buffer.h`. The producer appends entries of different
sizes, each with its length in front, and starts again at the beginning when
the next one may not fit. A length of zero marks where it stands. A reader
goes from one length to the next.
-/

namespace Genode.Base

open Lib

/-- `Simple_buffer`. The memory starts at `_entries`. -/
structure SimpleBuffer where
  mem : Memory
  headOffset : Nat
  size : Nat
  numEntries : Nat

namespace SimpleBuffer

/-- `sizeof(_Entry)` -/
def entrySize : Nat := 8

/-- `_Entry::PADDING` -/
def padding : Nat := 18446744073709551615

/-- `_Entry::len` of the entry at an offset. -/
def lenAt (mem : Memory) (o : Nat) : Nat := ofBytes (mem.slice o entrySize)

variable (s : SimpleBuffer)

/-- The length field of the entry at an offset is written. -/
def setLen (o len : Nat) : SimpleBuffer := { s with mem := s.mem.write o (toBytes entrySize len) }

/-- `_head_entry()->mark` -/
def mark (t : Nat) : SimpleBuffer := s.setLen s.headOffset t

def init (mem : Memory) (size : Nat) : SimpleBuffer := SimpleBuffer.mark ⟨mem, 0, size, 0⟩ 0

/-- `_buffer_wrapped`. The error message is left out. -/
def bufferWrapped : SimpleBuffer := SimpleBuffer.mark { s with numEntries := 0, headOffset := 0 } 0

/-- `reserve`, with the offset of the data that it returns. -/
def reserve (len : Nat) : Nat × SimpleBuffer :=
  if s.headOffset + entrySize + len ≤ s.size then (s.headOffset + entrySize, s)
  else
    let s := if s.headOffset + entrySize ≤ s.size then s.mark padding else s
    let s := s.bufferWrapped
    (s.headOffset + entrySize, s)

/-- `commit`. The length comes last, after the new head was marked. -/
def commit (len : Nat) : SimpleBuffer :=
  if len = 0 then s
  else
    let oldHead := s.headOffset
    let s := { s with
      numEntries := (s.numEntries + 1) % 4294967296, headOffset := s.headOffset + (entrySize + len) }
    let s :=
      if s.headOffset + entrySize > s.size then s.bufferWrapped
      else if s.headOffset + entrySize ≤ s.size then s.mark 0
      else s
    s.setLen oldHead len

/-- An event is traced: there is room for `maxLen` bytes, and `data` is what
the policy writes there. -/
def trace (maxLen : Nat) (data : List UInt8) : SimpleBuffer :=
  let (dst, s) := s.reserve maxLen
  commit { s with mem := s.mem.write dst data } data.length

/-! ## Reading -/

/-- `initialized` -/
def initialized : Bool := s.size != 0 && decide (s.headOffset ≤ s.size)

/-- `first`, with the offset of the entry; there is none if it is invalid. -/
def first : Option Nat := if s.initialized then some 0 else none

/-- `next` -/
def next : Option Nat → Option Nat
  | none => none
  | some o =>
    if lenAt s.mem o = padding then none
    else if lenAt s.mem o = 0 then some o
    else if o + entrySize + lenAt s.mem o + entrySize > s.size then none
    else some (o + entrySize + lenAt s.mem o)

/-- `empty` -/
def empty : Option Nat → Bool
  | none => true
  | some o => lenAt s.mem o == padding || lenAt s.mem o == 0

/-- The entries that a reader finds from an entry on, for at most `n` of
them, and the entry it ends at. -/
def readFrom : Nat → Option Nat → List (List UInt8) × Option Nat
  | 0, e => ([], e)
  | n + 1, e =>
    if s.empty e then ([], e)
    else
      let (ds, e') := readFrom n (s.next e)
      (s.mem.slice ((e.getD 0) + entrySize) (lenAt s.mem (e.getD 0)) :: ds, e')

/-- A reader starts at the first entry. -/
def readAll : List (List UInt8) × Option Nat := s.readFrom s.size s.first

/-! ## What the buffer is for -/

/-- The bytes that entries need. -/
def bytesOf : List (List UInt8) → Nat
  | [] => 0
  | d :: ds => 8 + d.length + bytesOf ds

/-- The entries since the last wrap, after one more event. -/
def keep (size : Nat) (ds : List (List UInt8)) (maxLen : Nat) (data : List UInt8) :
    List (List UInt8) :=
  let ds := if bytesOf ds + 8 + maxLen ≤ size then ds else []
  if data = [] then ds
  else if bytesOf (ds ++ [data]) + 8 ≤ size then ds ++ [data]
  else []

theorem bytesOf_append (ds : List (List UInt8)) (d : List UInt8) :
    bytesOf (ds ++ [d]) = bytesOf ds + (8 + d.length) := by
  induction ds with
  | nil => simp [bytesOf]
  | cons d' ds ih =>
    rw [List.cons_append, bytesOf, ih, bytesOf]
    omega

/-- The entries stand one after the other, with the head behind them. -/
def Written (mem : Memory) : Nat → List (List UInt8) → Prop
  | o, [] => lenAt mem o = 0
  | o, d :: ds => lenAt mem o = d.length ∧ d ≠ [] ∧ mem.slice (o + 8) d.length = d ∧
      Written mem (o + 8 + d.length) ds

/-- The entries of the buffer. Bytes behind it are those of `mem`. -/
structure Holds (mem : Memory) (size : Nat) (s : SimpleBuffer) (ds : List (List UInt8)) : Prop where
  size_eq : s.size = size
  head : s.headOffset = bytesOf ds
  room : bytesOf ds + 8 ≤ size
  written : Written s.mem 0 ds
  outside : ∀ x, size ≤ x → s.mem x = mem x

variable {mem : Memory} {size : Nat} {s : SimpleBuffer} {ds : List (List UInt8)} {o len : Nat}
  {d : List UInt8}

/-! ## Length fields -/

theorem lenAt_setLen (h : len < 18446744073709551616) : lenAt (s.setLen o len).mem o = len := by
  have hlen : (toBytes entrySize len).length = entrySize := length_toBytes _ _
  have h₁ := Memory.slice_write s.mem o (toBytes entrySize len)
  rw [hlen] at h₁
  rw [lenAt, setLen, h₁, ofBytes_toBytes _ _ (by unfold entrySize; omega)]

/-- Bytes apart from what is written stay. -/
theorem slice_write_apart {m : Memory} {a n b : Nat} {bs : List UInt8}
    (h : a + n ≤ b ∨ b + bs.length ≤ a) : (m.write b bs).slice a n = m.slice a n :=
  h.elim Memory.slice_write_of_le Memory.slice_write_of_ge

theorem mem_setLen {x : Nat} (h : x < o ∨ o + 8 ≤ x) : (s.setLen o len).mem x = s.mem x := by
  refine h.elim Memory.write_of_lt fun h => Memory.write_of_ge ?_
  rwa [length_toBytes]

theorem slice_setLen {a n : Nat} (h : a + n ≤ o ∨ o + 8 ≤ a) :
    (s.setLen o len).mem.slice a n = s.mem.slice a n :=
  slice_write_apart (by rwa [length_toBytes])

/-- The bytes of the entries and of the head decide. -/
theorem Written.congr {m m' : Memory} (h : Written m o ds)
    (heq : ∀ x, o ≤ x → x < o + bytesOf ds + 8 → m' x = m x) : Written m' o ds := by
  induction ds generalizing o with
  | nil =>
    unfold Written lenAt at *
    rwa [Memory.slice_congr fun x h₁ h₂ => heq x h₁ (by unfold bytesOf; unfold entrySize at h₂; omega)]
  | cons d ds ih =>
    obtain ⟨hlen, hne, hdata, hrest⟩ := h
    rw [bytesOf] at heq
    refine ⟨?_, hne, ?_, ih hrest fun x h₁ h₂ => heq x (by omega) (by omega)⟩
    · unfold lenAt at *
      rwa [Memory.slice_congr fun x h₁ h₂ => heq x h₁ (by unfold entrySize at h₂; omega)]
    · rwa [Memory.slice_congr fun x h₁ h₂ => heq x (by omega) (by omega)]

/-- One more entry behind the others. -/
theorem Written.append {m : Memory} (h : Written m o ds) {m' : Memory}
    (heq : ∀ x, o ≤ x → x < o + bytesOf ds → m' x = m x)
    (hlen : lenAt m' (o + bytesOf ds) = d.length) (hne : d ≠ [])
    (hdata : m'.slice (o + bytesOf ds + 8) d.length = d)
    (hhead : lenAt m' (o + bytesOf ds + 8 + d.length) = 0) : Written m' o (ds ++ [d]) := by
  induction ds generalizing o with
  | nil => exact ⟨hlen, hne, hdata, hhead⟩
  | cons d' ds ih =>
    obtain ⟨hlen', hne', hdata', hrest⟩ := h
    rw [bytesOf] at heq hlen hdata hhead
    have hassoc : o + (8 + d'.length + bytesOf ds) = o + 8 + d'.length + bytesOf ds := by omega
    rw [hassoc] at hlen hdata hhead
    refine ⟨?_, hne', ?_, ih hrest (fun x h₁ h₂ => heq x (by omega) (by omega)) hlen hdata hhead⟩
    · unfold lenAt at *
      rwa [Memory.slice_congr fun x h₁ h₂ => heq x h₁ (by unfold entrySize at h₂; omega)]
    · rwa [Memory.slice_congr fun x h₁ h₂ => heq x (by omega) (by omega)]

/-! ## One event -/

theorem holds_wrapped (hsize : s.size = size) (h8 : 8 ≤ size)
    (hout : ∀ x, size ≤ x → s.mem x = mem x) : Holds mem size s.bufferWrapped [] := by
  refine ⟨hsize, rfl, by unfold bytesOf; omega, lenAt_setLen (by decide), fun x hx => ?_⟩
  rw [← hout x hx]
  exact mem_setLen (.inr (show 0 + 8 ≤ x by omega))

theorem Holds.reserve {maxLen : Nat} (h : Holds mem size s ds) (hmax : maxLen + 16 ≤ size) :
    ∃ s', s.reserve maxLen = (s'.headOffset + 8, s') ∧
      Holds mem size s' (if bytesOf ds + 8 + maxLen ≤ size then ds else []) := by
  unfold SimpleBuffer.reserve
  rw [h.size_eq, h.head, entrySize]
  split
  · exact ⟨s, by rw [h.head], h⟩
  · rw [if_pos h.room]
    refine ⟨_, rfl, holds_wrapped h.size_eq (by omega) fun x hx => ?_⟩
    rw [← h.outside x hx]
    have := h.room
    exact mem_setLen (.inr (by rw [h.head]; omega))

theorem Holds.stored (h : Holds mem size s ds) (hd : bytesOf ds + 8 + d.length ≤ size) :
    Holds mem size { s with mem := s.mem.write (s.headOffset + 8) d } ds := by
  refine ⟨h.size_eq, h.head, h.room, h.written.congr fun x _ hx => ?_, fun x hx => ?_⟩
  · exact Memory.write_of_lt (by rw [h.head]; omega)
  · rw [← h.outside x hx]
    exact Memory.write_of_ge (by rw [h.head]; omega)

/-- The entry becomes visible when its length is written. -/
theorem Holds.appended (h : Holds mem size s ds) (hd : d ≠ [])
    (hdata : s.mem.slice (bytesOf ds + 8) d.length = d)
    (hfit : bytesOf ds + (8 + d.length) + 8 ≤ size) (hsize : size < 18446744073709551616)
    {s₁ : SimpleBuffer} (hmem : s₁.mem = s.mem) (hsize₁ : s₁.size = size)
    (hhead : s₁.headOffset = bytesOf ds + (8 + d.length)) :
    Holds mem size ((s₁.mark 0).setLen (bytesOf ds) d.length) (ds ++ [d]) := by
  have hmark : lenAt (s₁.mark 0).mem s₁.headOffset = 0 := lenAt_setLen (by decide)
  rw [hhead] at hmark
  refine ⟨hsize₁, hhead.trans (bytesOf_append ds d).symm, by rwa [bytesOf_append], ?_, fun x hx => ?_⟩
  · refine h.written.append (fun x _ hx => ?_) ?_ hd ?_ ?_
    · rw [mem_setLen (.inl (by omega)), mark, mem_setLen (.inl (by omega)), hmem]
    · rw [Nat.zero_add]
      exact lenAt_setLen (by omega)
    · rw [Nat.zero_add, slice_setLen (.inr le_rfl), mark, slice_setLen (.inl (by omega)), hmem, hdata]
    · rw [Nat.zero_add, Nat.add_assoc, lenAt, slice_setLen (.inr (by omega))]
      exact hmark
  · rw [mem_setLen (.inr (by omega)), mark, mem_setLen (.inr (by omega)), hmem, h.outside x hx]

/-- After a wrap, the length is written behind the new head. -/
theorem Holds.restarted (h : Holds mem size s ds) (hne : 8 ≤ bytesOf ds) {s₁ : SimpleBuffer}
    (hmem : s₁.mem = s.mem) (hsize₁ : s₁.size = size) :
    Holds mem size (s₁.bufferWrapped.setLen (bytesOf ds) len) [] := by
  have hroom := h.room
  have hwrapped := holds_wrapped hsize₁ (by omega) fun x hx => by rw [hmem, h.outside x hx]
  refine ⟨hwrapped.size_eq, hwrapped.head, hwrapped.room, ?_, fun x hx => ?_⟩
  · refine hwrapped.written.congr fun x _ hx => mem_setLen (.inl ?_)
    unfold bytesOf at hx
    omega
  · rw [mem_setLen (.inr (by omega)), hwrapped.outside x hx]

/-- The spec of `commit`. -/
theorem Holds.commit (h : Holds mem size s ds) (hdata : s.mem.slice (bytesOf ds + 8) d.length = d)
    (hfirst : ds = [] → d.length + 16 ≤ size) (hsize : size < 18446744073709551616) :
    Holds mem size (s.commit d.length) (if d = [] then ds
      else if bytesOf (ds ++ [d]) + 8 ≤ size then ds ++ [d] else []) := by
  unfold SimpleBuffer.commit
  by_cases hd : d = []
  · rw [if_pos hd, if_pos (List.length_eq_zero_iff.mpr hd)]
    exact h
  · rw [if_neg hd, if_neg (mt List.length_eq_zero_iff.mp hd), bytesOf_append]
    dsimp only
    rw [h.head, h.size_eq, entrySize]
    by_cases hfit : bytesOf ds + (8 + d.length) + 8 ≤ size
    · rw [if_pos hfit, if_neg (by omega), if_pos hfit]
      exact h.appended hd hdata hfit hsize rfl rfl rfl
    · rw [if_pos (Nat.lt_of_not_le hfit), if_neg hfit]
      -- the new head must not be overwritten by the length of the entry
      have hne : 8 ≤ bytesOf ds := by
        cases ds with
        | nil =>
          have := hfirst rfl
          unfold bytesOf at hfit
          omega
        | cons d' ds =>
          rw [bytesOf]
          omega
      exact h.restarted hne rfl rfl

/-- The spec of an event. -/
theorem Holds.trace {maxLen : Nat} (h : Holds mem size s ds) (hmax : maxLen + 16 ≤ size)
    (hd : d.length ≤ maxLen) (hsize : size < 18446744073709551616) :
    Holds mem size (s.trace maxLen d) (keep size ds maxLen d) := by
  obtain ⟨s', hs', h'⟩ := h.reserve hmax
  unfold SimpleBuffer.trace keep
  rw [hs']
  have hroom : bytesOf (if bytesOf ds + 8 + maxLen ≤ size then ds else []) + 8 + maxLen ≤ size := by
    split
    · assumption
    · unfold bytesOf
      omega
  have hfits := Nat.le_trans (Nat.add_le_add_left hd _) hroom
  refine (h'.stored hfits).commit ?_ (fun _ => by omega) hsize
  rw [← h'.head]
  exact Memory.slice_write _ _ _

/-! ## What a reader finds -/

theorem readFrom_eq (hsize : s.size < 18446744073709551616) (h : Written s.mem o ds)
    (hroom : o + bytesOf ds + 8 ≤ s.size) {n : Nat} (hn : ds.length ≤ n) :
    s.readFrom n (some o) = (ds, some (o + bytesOf ds)) := by
  induction ds generalizing o n with
  | nil =>
    cases n with
    | zero => rfl
    | succ n =>
      have hempty : s.empty (some o) = true := by
        unfold SimpleBuffer.empty
        simp [show lenAt s.mem o = 0 from h]
      rw [readFrom, if_pos hempty]
      rfl
  | cons d ds ih =>
    obtain ⟨hlen, hne, hdata, hrest⟩ := h
    rw [bytesOf] at hroom
    have hd : d.length ≠ 0 := mt List.length_eq_zero_iff.mp hne
    have hpad : d.length ≠ padding := by
      unfold padding
      omega
    cases n with
    | zero => simp at hn
    | succ n =>
      have hempty : ¬ s.empty (some o) = true := by
        unfold SimpleBuffer.empty
        simp [hlen, hd, hpad]
      have hnext : s.next (some o) = some (o + 8 + d.length) := by
        unfold SimpleBuffer.next entrySize
        dsimp only
        rw [hlen, if_neg hpad, if_neg hd, if_neg (by omega)]
      rw [readFrom, if_neg hempty, hnext, ih hrest (by omega) (by simpa using hn)]
      dsimp only [Option.getD_some, entrySize]
      rw [hlen, hdata, bytesOf, ← Nat.add_assoc, ← Nat.add_assoc]

theorem length_le_bytesOf (ds : List (List UInt8)) : ds.length ≤ bytesOf ds := by
  induction ds with
  | nil => simp
  | cons d ds ih =>
    rw [List.length_cons, bytesOf]
    omega

theorem Holds.readAll (h : Holds mem size s ds) (hsize : size < 18446744073709551616) :
    s.readAll = (ds, some s.headOffset) := by
  have hroom := h.room
  have hinit : s.initialized = true := by
    unfold initialized
    rw [h.size_eq, h.head]
    simp only [Bool.and_eq_true, bne_iff_ne, decide_eq_true_eq]
    omega
  rw [SimpleBuffer.readAll, first, if_pos hinit, h.head]
  have := readFrom_eq (h.size_eq ▸ hsize) h.written (by rw [h.size_eq]; omega)
    (n := s.size) (by rw [h.size_eq]; exact (length_le_bytesOf ds).trans (by omega))
  rwa [Nat.zero_add] at this

/-! ## Runs -/

/-- An event of at most `maxLen` bytes; the buffer has room for it. -/
def Allowed (s : SimpleBuffer) (e : Nat × List UInt8) : Prop := e.2.length ≤ e.1 ∧ e.1 + 16 ≤ s.size

abbrev Trans := Guarded Allowed fun s e => .ok (s.trace e.1 e.2)

variable {hist : List (SimpleBuffer × Nat × List UInt8)}

/-- A reader finds the entries since the last wrap, in order and complete,
and ends where the producer stands. No byte behind the buffer changes. -/
theorem reads_of_run (h8 : 8 ≤ size) (hsize : size < 18446744073709551616)
    (h : Run (· = init mem size) Trans hist s) :
    Run (· = []) (fun ds e ds' => ds' = keep size ds e.1 e.2)
        (hist.map fun e => (e.1.readAll.1, e.2)) s.readAll.1 ∧
      s.readAll.2 = some s.headOffset ∧ s.headOffset = bytesOf s.readAll.1 ∧
      ∀ x, size ≤ x → s.mem x = mem x := by
  have hsim : (∃ ds, Holds mem size s ds) ∧
      Run (· = []) (fun ds e ds' => ds' = keep size ds e.1 e.2)
        (hist.map fun e => (e.1.readAll.1, e.2)) s.readAll.1 := by
    refine h.simulated (I := fun s => ∃ ds, Holds mem size s ds) (fun s => s.readAll.1) (fun e => e)
      (fun s hs => ?_) fun s e s' ⟨ds, hds⟩ ht => ?_
    · have hholds : Holds mem size s [] := by
        rw [hs]
        exact holds_wrapped (s := ⟨mem, 0, size, 0⟩) rfl h8 fun _ _ => rfl
      exact ⟨⟨[], hholds⟩, by rw [hholds.readAll hsize]⟩
    · obtain ⟨⟨hlen, hmax⟩, hs'⟩ := ht
      obtain rfl := Except.ok.inj hs'
      have h' := hds.trace (by rwa [hds.size_eq] at hmax) hlen hsize
      exact ⟨⟨_, h'⟩, by rw [h'.readAll hsize, hds.readAll hsize]⟩
  obtain ⟨⟨ds, hds⟩, hrun⟩ := hsim
  have hread := hds.readAll hsize
  refine ⟨hrun, by rw [hread], ?_, hds.outside⟩
  rw [hread]
  exact hds.head

instance (s : SimpleBuffer) (e : Nat × List UInt8) : Decidable (s.Allowed e) :=
  inferInstanceAs (Decidable (_ ∧ _))

theorem exists_trace_run (events : List (Nat × List UInt8))
    {p : List (SimpleBuffer × Nat × List UInt8) × SimpleBuffer → Prop} [DecidablePred p]
    (h : (replay (perform Allowed fun s e => .ok (s.trace e.1 e.2)) events
      ([], init (fun _ => 0xff) 40)).any (fun r => decide (p r)) = true) :
    ∃ hist s, Run (· = init (fun _ => 0xff) 40) Trans hist s ∧ p (hist, s) := by
  refine exists_guarded_run ?_ h
  rfl

/-- A buffer of 40 bytes that wraps for the third event. -/
theorem reads_of_run_wrapped :
    ∃ (hist : List (SimpleBuffer × Nat × List UInt8)) (s : SimpleBuffer),
      hist.map (·.1.readAll.1) = [[[1, 2], [3]], [[1, 2]], []] ∧ s.readAll.1 = [[4, 5, 6]] ∧
      s.headOffset = 11 ∧
      Run (· = []) (fun ds e ds' => ds' = keep 40 ds e.1 e.2)
        (hist.map fun e => (e.1.readAll.1, e.2)) s.readAll.1 := by
  obtain ⟨hist, s, h, h₁, h₂, h₃⟩ := exists_trace_run [(2, [1, 2]), (8, [3]), (20, [4, 5, 6])]
    (p := fun r => r.1.map (·.1.readAll.1) = [[[1, 2], [3]], [[1, 2]], []] ∧
      r.2.readAll.1 = [[4, 5, 6]] ∧ r.2.headOffset = 11) (by decide +kernel)
  exact ⟨hist, s, h₁, h₂, h₃, (reads_of_run (by decide) (by decide) h).1⟩

end SimpleBuffer

end Genode.Base
