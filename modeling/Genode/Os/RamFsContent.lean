import Mathlib.Algebra.BigOperators.Fin
import Genode.Lib.StoredTree
import Genode.Os.RamFsChunk

/-!
# RamFsContent — a chunk is a sparse array of bytes

However chunks are nested, they behave like one array of bytes that is
zero where nothing was written. The class `LawfulChunk` says what this
means for writing and truncating, and it passes from the entries of a
chunk index to the chunk index.
-/

namespace Genode.Os.RamFs

open ChunkType Lib

/-! ## What a chunk stands for -/

/-- What a chunk stands for. -/
class Contents (E : Type) where
  /-- The sizes of the type fit into machine words. -/
  Fits : Prop
  /-- The chunk has the base offset, and its parts are as they should be. -/
  Good : Nat → E → Prop
  /-- The bytes, from the base offset on. -/
  content : E → Memory
  /-- The number of chunks that were allocated for parts of the chunk. -/
  objects : E → Nat

open Contents

variable {E : Type} [ChunkType E] [Contents E] {base o room x : Nat} {src : List UInt8} {c : E}

/-- The outcome of writing at the offset `o` in a chunk `c`. When nothing
can be allocated any more, only the first bytes are written. -/
structure Written (base o : Nat) (src : List UInt8) (c : E) (room : Nat) (out : Changed E) : Prop where
  good : Good base out.2.1
  objects : out.2.2 + objects out.2.1 = room + objects c
  usedSize_le : usedSize c ≤ usedSize out.2.1
  le_usedSize : usedSize out.2.1 ≤ max (usedSize c) (o + src.length)
  content : (out.1 = .ok () ∧ content out.2.1 = (content c).write o src ∧
      (src ≠ [] → o + src.length ≤ usedSize out.2.1)) ∨
    out.1 = .error .outOfMemory ∧ out.2.2 = 0 ∧
      ∃ n, content out.2.1 = (content c).write o (src.take n)

/-- The outcome of truncating a chunk `c` at the offset `o`. -/
structure Truncated (base o : Nat) (c : E) (room : Nat) (out : Changed E) : Prop where
  result : out.1 = .ok ()
  good : Good base out.2.1
  objects : out.2.2 + objects out.2.1 = room + objects c
  usedSize_le : usedSize out.2.1 ≤ usedSize c
  le_offset : usedSize out.2.1 ≤ o
  content : content out.2.1 = (content c).cut o

/-- Chunks that behave like arrays of bytes. -/
class LawfulChunk (E : Type) [ChunkType E] [Contents E] : Prop where
  size_pos : Fits E → 0 < ChunkType.size E
  fits {base : Nat} {c : E} : Good base c → Fits E
  in_word {base : Nat} {c : E} : Good base c → base + ChunkType.size E < 2 ^ 64
  construct_good {base : Nat} : Fits E → base + ChunkType.size E < 2 ^ 64 →
    Good base (construct base : E)
  construct_content {base : Nat} : content (construct base : E) = fun _ => 0
  construct_objects {base : Nat} : objects (construct base : E) = 0
  construct_usedSize {base : Nat} : usedSize (construct base : E) = 0
  not_zero {base : Nat} {c : E} : Good base c → zero c = false
  usedSize_le {base : Nat} {c : E} : Good base c → usedSize c ≤ ChunkType.size E
  content_beyond {base x : Nat} {c : E} : Good base c → usedSize c ≤ x → content c x = 0
  usedSize_of_empty {base : Nat} {c : E} : Good base c → empty c = true → usedSize c = 0
  destroyed_eq {base : Nat} {c : E} : Good base c → destroyed c = objects c
  write_inside {base o : Nat} {src : List UInt8} {c : E} (room : Nat) : Good base c →
    o + src.length ≤ ChunkType.size E →
    ∃ out, write c src (base + o) room = .ok out ∧ Written base o src c room out
  read_inside {base o len : Nat} {c : E} : Good base c → o + len ≤ ChunkType.size E →
    read c len (base + o) = .ok (.ok ((content c).slice o len))
  truncate_inside {base o : Nat} {c : E} (room : Nat) : Good base c → o ≤ ChunkType.size E →
    ∃ out, truncate c (base + o) room = .ok out ∧ Truncated base o c room out
  write_outside {base o : Nat} {c : E} (src : List UInt8) (room : Nat) : Good base c →
    ChunkType.size E < o + src.length → base + o + src.length < 2 ^ 64 →
    write c src (base + o) room = .ok (.error .indexOutOfRange, c, room)
  read_outside {base o : Nat} {c : E} (len : Nat) : Good base c → ChunkType.size E < o + len →
    base + o + len < 2 ^ 64 → read c len (base + o) = .ok (.error .indexOutOfRange)

/-- Writing the first part, and then the rest. -/
theorem written_trans {k room' : Nat} {c' : E} {out : Changed E} (hk : k ≤ src.length)
    (h : Written base o (src.take k) c room (.ok (), c', room'))
    (h' : Written base (o + k) (src.drop k) c' room' out) : Written base o src c room out := by
  have hlen : (src.take k).length = k := by rw [List.length_take, min_eq_left hk]
  obtain ⟨-, hobj, hle, hused, hcont⟩ := h
  obtain ⟨hgood', hobj', hle', hused', hcont'⟩ := h'
  obtain ⟨-, hcont, hend⟩ | ⟨hr, -⟩ := hcont
  swap
  · cases hr
  have hwrite (bs : List UInt8) :
      (content c').write (o + k) bs = (content c).write o (src.take k ++ bs) := by
    have hcont : content c' = (content c).write o (src.take k) := hcont
    have := Memory.write_write (content c) o (src.take k) bs
    rwa [hlen, ← hcont] at this
  simp only [hlen, List.length_drop] at hused hused' hobj hobj' hle hle' hend
  refine ⟨hgood', hobj'.trans hobj, hle.trans hle', ?_, ?_⟩
  · exact hused'.trans (by omega)
  · rcases hcont' with ⟨hr, hc, hend'⟩ | ⟨hr, hroom, m, hc⟩
    · refine .inl ⟨hr, by rw [hc, hwrite, List.take_append_drop], fun hne => ?_⟩
      by_cases hall : k = src.length
      · have := hend (by rw [hall, List.take_length]; exact hne)
        omega
      · have hdrop : src.drop k ≠ [] := by
          rw [Ne, List.drop_eq_nil_iff]
          omega
        have := hend' hdrop
        simp only [List.length_drop] at this
        omega
    · refine .inr ⟨hr, hroom, k + m, ?_⟩
      rw [hc, hwrite, List.take_add]

/-- If writing the first part fails, the rest is not written. -/
theorem written_error {k room' : Nat} {f : Thrown} {c' : E}
    (h : Written base o (src.take k) c room (.error f, c', room')) :
    Written base o src c room (.error f, c', room') := by
  obtain ⟨hgood, hobj, hle, hused, hcont⟩ := h
  refine ⟨hgood, hobj, hle, hused.trans ?_, ?_⟩
  · rw [List.length_take]
    omega
  · rcases hcont with ⟨hr, -⟩ | ⟨hr, hroom, m, hc⟩
    · cases hr
    · exact .inr ⟨hr, hroom, min m k, by rw [hc, List.take_take]⟩

/-- Nothing has to be written, or nothing can be. -/
theorem written_nothing {r : Except Thrown Unit} (h : Good base c)
    (hr : r = .ok () ∧ src = [] ∨ r = .error .outOfMemory ∧ room = 0) :
    Written base o src c room (r, c, room) := by
  refine ⟨h, rfl, le_rfl, le_max_left _ _, ?_⟩
  rcases hr with ⟨hr, rfl⟩ | ⟨hr, hroom⟩
  · exact .inl ⟨hr, (Memory.write_nil _ _).symm, fun hne => absurd rfl hne⟩
  · exact .inr ⟨hr, hroom, 0, (Memory.write_nil _ _).symm⟩

/-! ## Chunks of bytes -/

theorem validRange_inside {len size : Nat} (hs : base + size < 2 ^ 64) (h : o + len ≤ size) :
    validRange base (base + o) len size = true := by
  rw [validRange, add64_of_lt (by omega), add64_of_lt (by omega)]
  simp
  omega

/-- A range that does not lie within the chunk. -/
theorem validRange_outside {len size : Nat} (hs : base + size < 2 ^ 64) (hpos : 0 < size)
    (hlt : base + o + len < 2 ^ 64) (h : size < o + len) :
    ¬ validRange base (base + o) len size = true := by
  have hz : base ≠ zeroOffset := by
    rw [zeroOffset]
    omega
  rw [validRange, add64_of_lt (by omega), add64_of_lt (by omega)]
  simp [hz]
  omega

theorem sub64_base (h : base + o < 2 ^ 64) : sub64 (base + o) base = o := by
  rw [sub64_of_le (by omega) h, Nat.add_sub_cancel_left]

namespace Chunk

variable {n : Nat} {c : Chunk n}

instance : Contents (Chunk n) where
  Fits := 0 < n
  Good base c := c.baseOffset = base ∧ 0 < n ∧ base + n < 2 ^ 64 ∧ c.numEntries ≤ n ∧
    ∀ x, c.numEntries ≤ x → c.bytes x = 0
  content := bytes
  objects _ := 0

theorem bytes_setBytes {m : Memory} (h : ∀ x, n ≤ x → m x = 0) : (c.setBytes m).bytes = m := by
  funext x
  unfold bytes
  split
  · rfl
  · exact (h x (by omega)).symm

/-- Other bytes in the chunk, of which the first `k` are in use. -/
theorem good_setBytes {m : Memory} {k : Nat} (h : Good base c) (hk : k ≤ n)
    (hm : ∀ x, k ≤ x → m x = 0) :
    (c.setBytes m).bytes = m ∧ Good base { c.setBytes m with numEntries := k } := by
  obtain ⟨hbase, hpos, hw, -, -⟩ := h
  have hbytes : (c.setBytes m).bytes = m := bytes_setBytes fun x hx => hm x (by omega)
  refine ⟨hbytes, hbase, hpos, hw, hk, fun x hx => ?_⟩
  show (c.setBytes m).bytes x = 0
  rw [hbytes, hm x hx]

theorem write_inside (h : Good base c) (ho : o + src.length ≤ n) :
    ∃ out, c.write src (base + o) room = .ok out ∧ Written base o src c room out := by
  have ⟨hbase, _, hw, hnum, hzero⟩ := h
  obtain ⟨hbytes, hgood⟩ := good_setBytes (m := c.bytes.write o src)
      (k := max c.numEntries (o + src.length)) h (max_le hnum ho) fun x hx => by
    have hx' := max_le_iff.mp hx
    rw [Memory.write_of_ge hx'.2, hzero x hx'.1]
  refine ⟨(.ok (), { c.setBytes (c.bytes.write o src) with
    numEntries := max c.numEntries (o + src.length) }, room), ?_, hgood, rfl, le_max_left _ _,
    le_rfl, .inl ⟨rfl, hbytes, fun _ => le_max_right _ _⟩⟩
  rw [write, hbase, if_pos (validRange_inside hw ho)]
  dsimp only
  rw [sub64_base (by omega), if_neg (by omega)]
  rfl

theorem read_inside {len : Nat} (h : Good base c) (ho : o + len ≤ n) :
    c.read len (base + o) = .ok (.ok (c.bytes.slice o len)) := by
  obtain ⟨hbase, _, hw, -, -⟩ := h
  rw [read, hbase, if_pos (validRange_inside hw ho)]
  dsimp only
  rw [sub64_base (by omega), if_neg (by omega)]

/-- Writing zeros from `o` to the end of the used bytes. -/
theorem write_zeros {m : Memory} {k : Nat} (hm : ∀ x, k ≤ x → m x = 0) (hk : o ≤ k) :
    m.write o (List.replicate (k - o) 0) = m.cut o := by
  funext x
  unfold Memory.cut
  split
  · exact Memory.write_of_lt ‹_›
  · by_cases hx : k ≤ x
    · rw [Memory.write_of_ge (by rw [List.length_replicate]; omega), hm x hx]
    · have hlt : x - o < k - o := by omega
      rw [Memory.write, if_pos (by omega), List.getElem?_replicate, if_pos hlt, Option.getD_some]

theorem truncate_inside (h : Good base c) (ho : o ≤ n) :
    ∃ out, c.truncate (base + o) room = .ok out ∧ Truncated base o c room out := by
  have ⟨hbase, _, hw, hnum, hzero⟩ := h
  rw [truncate, hbase, if_pos (validRange_inside hw ho)]
  dsimp only
  rw [sub64_base (by omega)]
  split
  · rename_i hle
    refine ⟨_, rfl, rfl, h, rfl, le_rfl, hle, ?_⟩
    funext x
    show c.bytes x = c.bytes.cut o x
    unfold Memory.cut
    split
    · rfl
    · exact hzero x (by omega)
  · rename_i hlt
    have hcut := write_zeros (o := o) hzero (by omega)
    obtain ⟨hbytes, hgood⟩ := good_setBytes (m := c.bytes.cut o) h ho fun x hx =>
      if_neg (Nat.not_lt.mpr hx)
    rw [if_neg (by omega), hcut]
    refine ⟨_, rfl, rfl, hgood, rfl, ?_, le_rfl, hbytes⟩
    exact Nat.le_of_lt (Nat.lt_of_not_le hlt)

instance : LawfulChunk (Chunk n) where
  size_pos h := h
  fits h := h.2.1
  in_word h := h.2.2.1
  construct_good {base} hn hw := ⟨rfl, hn, hw, Nat.zero_le _, fun x _ => by
    show bytes ⟨base, 0, fun _ => 0⟩ x = 0
    unfold bytes
    split <;> rfl⟩
  construct_content := by
    intro base
    funext x
    show bytes ⟨base, 0, fun _ => 0⟩ x = 0
    unfold bytes
    split <;> rfl
  construct_objects := rfl
  construct_usedSize := rfl
  not_zero {base c} h := by
    have ⟨hbase, hpos, hw, _⟩ := h
    refine decide_eq_false fun hz => ?_
    rw [zeroOffset] at hz
    omega
  usedSize_le h := h.2.2.2.1
  content_beyond h hx := h.2.2.2.2 _ hx
  usedSize_of_empty _ he := of_decide_eq_true he
  destroyed_eq _ := rfl
  write_inside _ h ho := write_inside h ho
  read_inside := read_inside
  truncate_inside _ h ho := truncate_inside h ho
  write_outside {base o c} src room h ho hlt := by
    show c.write src (base + o) room = _
    rw [write, h.1, if_neg (validRange_outside h.2.2.1 h.2.1 hlt ho)]
  read_outside {base o c} len h ho hlt := by
    show c.read len (base + o) = _
    rw [read, h.1, if_neg (validRange_outside h.2.2.1 h.2.1 hlt ho)]

end Chunk

end Genode.Os.RamFs
