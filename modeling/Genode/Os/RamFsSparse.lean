import Genode.Lib.Run
import Genode.Os.RamFsIndex

/-!
# RamFsSparse — runs on nested chunks

Reading, writing and truncating a chunk, in any order, is the same as
reading, writing and truncating a sparse array of bytes, however the
chunk is built from smaller ones.
-/

namespace Genode.Os.RamFs

open ChunkType Contents Lib

/-! ## Nested chunks -/

/-- How chunks are nested. -/
inductive Level where
  | chunk (chunkSize : Nat)
  | index (numEntries : Nat) (entry : Level)

namespace Level

/-- The type of the chunks. -/
def Obj : Level → Type
  | chunk chunkSize => Chunk chunkSize
  | index numEntries entry => ChunkIndex numEntries entry.Obj

instance chunkType : (l : Level) → ChunkType l.Obj
  | chunk n => inferInstanceAs (ChunkType (Chunk n))
  | index n l =>
    have := chunkType l
    inferInstanceAs (ChunkType (ChunkIndex n l.Obj))

instance contents : (l : Level) → Contents l.Obj
  | chunk n => inferInstanceAs (Contents (Chunk n))
  | index n l =>
    have := contents l
    inferInstanceAs (Contents (ChunkIndex n l.Obj))

instance lawfulChunk : (l : Level) → LawfulChunk l.Obj
  | chunk n => inferInstanceAs (LawfulChunk (Chunk n))
  | index n l =>
    have := lawfulChunk l
    inferInstanceAs (LawfulChunk (ChunkIndex n l.Obj))

/-- The number of bytes. -/
def size : Level → Nat
  | chunk chunkSize => chunkSize
  | index numEntries entry => entry.size * numEntries

/-- There are entries at each level, and the sizes fit into machine words. -/
def Valid : Level → Prop
  | chunk chunkSize => 0 < chunkSize ∧ chunkSize < 2 ^ 64
  | index numEntries entry =>
    entry.Valid ∧ 0 < numEntries ∧ numEntries < 2 ^ 32 ∧ entry.size * numEntries < 2 ^ 64

theorem fits {l : Level} (h : l.Valid) : Fits l.Obj ∧ ChunkType.size l.Obj = l.size := by
  induction l with
  | chunk n => exact ⟨h.1, rfl⟩
  | index n l ih =>
    obtain ⟨hl, hpos, hlt, hsize⟩ := h
    obtain ⟨hfits, heq⟩ := ih hl
    refine ⟨⟨hfits, hpos, hlt, by rwa [heq]⟩, ?_⟩
    show ChunkIndex.size n l.Obj = l.size * n
    rw [ChunkIndex.size, heq, Nat.mod_eq_of_lt hsize]

theorem size_lt {l : Level} (h : l.Valid) : l.size < 2 ^ 64 := by
  cases l with
  | chunk n => exact h.2
  | index n l => exact h.2.2.2

end Level

/-! ## Calls -/

/-- The operations of a chunk. -/
inductive Call where
  | write (src : List UInt8) (at' : Nat)
  | read (len at' : Nat)
  | truncate (at' : Nat)
  deriving DecidableEq

/-- The result of a call: what was read, or nothing. -/
abbrev Reply := Except Thrown (List UInt8)

/-- Ranges do not wrap around, and truncations are for offsets in the chunk. -/
def Call.Proper (size : Nat) : Call → Prop
  | write src at' => at' + src.length < 2 ^ 64
  | read len at' => at' + len < 2 ^ 64
  | truncate at' => at' ≤ size

/-- A chunk, and how many more chunks can be allocated. -/
structure Store (E : Type) where
  chunk : E
  room : Nat

namespace Store

variable {E : Type} [ChunkType E]

/-- The chunk at offset 0. -/
def Init (E : Type) [ChunkType E] (room : Nat) (s : Store E) : Prop := s = ⟨construct 0, room⟩

def changed (r : Changed E) : Reply × Store E := (r.1.map fun _ => [], ⟨r.2.1, r.2.2⟩)

def call (s : Store E) : Call → Exec (Reply × Store E)
  | .write src at' => do
    let r ← ChunkType.write s.chunk src at' s.room
    .ok (changed r)
  | .read len at' => do
    let r ← ChunkType.read s.chunk len at'
    .ok (r, s)
  | .truncate at' => do
    let r ← ChunkType.truncate s.chunk at' s.room
    .ok (changed r)

/-- Calls with their results. -/
abbrev Trans (E : Type) [ChunkType E] :=
  Called (fun _ => Call.Proper (ChunkType.size E)) (Store.call (E := E))

end Store

/-! ## Sparse arrays -/

/-- Bytes, of which those from `usedSize` on are not in use, and how many
chunks can be allocated. -/
structure Sparse where
  bytes : Memory
  usedSize : Nat
  room : Nat

namespace Sparse

/-- The size in use after bytes were written. -/
def Grown (A A' : Sparse) (o : Nat) (src : List UInt8) : Prop :=
  A.usedSize ≤ A'.usedSize ∧ A'.usedSize ≤ max A.usedSize (o + src.length)

/-- The operations on an array of a certain size. -/
inductive Step (size : Nat) : Sparse → Call × Reply → Sparse → Prop where
  | write {A A' : Sparse} {src : List UInt8} {o : Nat} (ho : o + src.length ≤ size)
      (hb : A'.bytes = A.bytes.write o src) (hu : Grown A A' o src)
      (hend : src ≠ [] → o + src.length ≤ A'.usedSize) : Step size A (.write src o, .ok []) A'
  /-- A part of the bytes was written when nothing could be allocated any more. -/
  | outOfMemory {A A' : Sparse} {src : List UInt8} {o n : Nat} (ho : o + src.length ≤ size)
      (hb : A'.bytes = A.bytes.write o (src.take n)) (hu : Grown A A' o src) (hroom : A'.room = 0) :
      Step size A (.write src o, .error .outOfMemory) A'
  | read {A : Sparse} {o len : Nat} (ho : o + len ≤ size) :
      Step size A (.read len o, .ok (A.bytes.slice o len)) A
  | truncate {A A' : Sparse} {o : Nat} (ho : o ≤ size) (hb : A'.bytes = A.bytes.cut o)
      (hu : A'.usedSize ≤ min A.usedSize o) : Step size A (.truncate o, .ok []) A'
  | writeOutside {A : Sparse} {src : List UInt8} {o : Nat} (ho : size < o + src.length) :
      Step size A (.write src o, .error .indexOutOfRange) A
  | readOutside {A : Sparse} {o len : Nat} (ho : size < o + len) :
      Step size A (.read len o, .error .indexOutOfRange) A

section

variable {size o : Nat} {A A' : Sparse} {src : List UInt8}

theorem Step.of_write_ok {bs : List UInt8} (h : Step size A (.write src o, .ok bs) A') :
    bs = [] ∧ o + src.length ≤ size := by
  cases h with
  | write ho _ _ _ => exact ⟨rfl, ho⟩

theorem Step.of_write_outside (h : Step size A (.write src o, .error .indexOutOfRange) A') :
    A' = A ∧ size < o + src.length := by
  cases h with
  | writeOutside ho => exact ⟨rfl, ho⟩

end

/-- Nothing was written. -/
def empty (room : Nat) : Sparse := ⟨fun _ => 0, 0, room⟩

end Sparse

/-- What a chunk stands for. -/
def Store.sparse {E : Type} [ChunkType E] [Contents E] (s : Store E) : Sparse :=
  ⟨content s.chunk, usedSize s.chunk, s.room⟩

/-! ## Chunks do what sparse arrays do -/

section Refinement

variable {E : Type} [ChunkType E] [Contents E] [LawfulChunk E] {s s' : Store E} {room : Nat}

/-- The chunk is as it should be, and no chunk is lost. -/
def Store.Sound (room : Nat) (s : Store E) : Prop :=
  Good 0 s.chunk ∧ s.room + Contents.objects s.chunk = room

/-- The spec of a call. -/
theorem Store.Sound.step (h : s.Sound room) {c : Call} (hc : c.Proper (ChunkType.size E)) :
    ∃ r s', s.call c = .ok (r, s') ∧ s'.Sound room ∧
      Sparse.Step (ChunkType.size E) s.sparse (c, r) s'.sparse := by
  obtain ⟨hgood, hobj⟩ := h
  cases c with
  | write src o =>
    have hc : o + src.length < 2 ^ 64 := hc
    by_cases ho : o + src.length ≤ ChunkType.size E
    · obtain ⟨⟨r, c', room'⟩, hw, hgood', hobj', hle, hle', hcont⟩ :=
        LawfulChunk.write_inside s.room hgood ho
      rw [Nat.zero_add] at hw
      refine ⟨r.map fun _ => [], ⟨c', room'⟩, by rw [call, hw]; rfl, ⟨hgood', hobj'.trans hobj⟩, ?_⟩
      rcases hcont with ⟨rfl, hb, hend⟩ | ⟨rfl, hroom, n, hb⟩
      · exact .write ho hb ⟨hle, hle'⟩ hend
      · exact .outOfMemory ho hb ⟨hle, hle'⟩ hroom
    · have hw := LawfulChunk.write_outside (o := o) src s.room hgood (by omega) (by omega)
      rw [Nat.zero_add] at hw
      exact ⟨.error .indexOutOfRange, s, by rw [call, hw]; rfl, ⟨hgood, hobj⟩,
        .writeOutside (by omega)⟩
  | read len o =>
    have hc : o + len < 2 ^ 64 := hc
    by_cases ho : o + len ≤ ChunkType.size E
    · have hr := LawfulChunk.read_inside hgood ho
      rw [Nat.zero_add] at hr
      exact ⟨_, s, by rw [call, hr]; rfl, ⟨hgood, hobj⟩, .read ho⟩
    · have hr := LawfulChunk.read_outside (o := o) len hgood (by omega) (by omega)
      rw [Nat.zero_add] at hr
      exact ⟨_, s, by rw [call, hr]; rfl, ⟨hgood, hobj⟩, .readOutside (by omega)⟩
  | truncate o =>
    obtain ⟨⟨r, c', room'⟩, ht, hr, hgood', hobj', hle, hle', hb⟩ :=
      LawfulChunk.truncate_inside (o := o) s.room hgood hc
    dsimp only at hr
    subst hr
    rw [Nat.zero_add] at ht
    exact ⟨.ok [], ⟨c', room'⟩, by rw [call, ht]; rfl, ⟨hgood', hobj'.trans hobj⟩,
      .truncate hc hb (le_min hle hle')⟩

theorem Store.Sound.init (hf : Fits E) (hw : ChunkType.size E < 2 ^ 64) (h : Store.Init E room s) :
    s.Sound room ∧ s.sparse = Sparse.empty room := by
  subst h
  refine ⟨⟨LawfulChunk.construct_good hf (by omega), ?_⟩, ?_⟩
  · rw [LawfulChunk.construct_objects, Nat.add_zero]
  · rw [sparse, LawfulChunk.construct_content, LawfulChunk.construct_usedSize]
    rfl

/-- Runs from a new chunk. -/
theorem sparse_of_run {hist : List (Store E × Call × Reply)} (hf : Fits E)
    (hw : ChunkType.size E < 2 ^ 64) (h : Run (Store.Init E room) (Store.Trans E) hist s) :
    s.Sound room ∧ Run (· = Sparse.empty room) (Sparse.Step (ChunkType.size E))
      (hist.map fun e => (e.1.sparse, e.2)) s.sparse :=
  h.refines Store.sparse (fun _ => Store.Sound.init hf hw) fun _ _ hs hc => hs.step hc

end Refinement

/-- Chunks of any nesting do what a sparse array does, in every run: each
call returns, and changes the bytes as its result says. Bytes that are not
in use are zero, and the destructor frees whatever was allocated. -/
theorem refines_sparse {l : Level} {room : Nat} {hist : List (Store l.Obj × Call × Reply)}
    {s : Store l.Obj} (hl : l.Valid)
    (h : Run (Store.Init l.Obj room) (Store.Trans l.Obj) hist s) :
    Run (· = Sparse.empty room) (Sparse.Step l.size) (hist.map fun e => (e.1.sparse, e.2)) s.sparse ∧
      (∀ x, s.sparse.usedSize ≤ x → s.sparse.bytes x = 0) ∧ s.sparse.usedSize ≤ l.size ∧
      s.room + destroyed s.chunk = room ∧
      ∀ c : Call, c.Proper l.size → ∃ r s', s.call c = .ok (r, s') := by
  obtain ⟨hf, hsize⟩ := Level.fits hl
  obtain ⟨hs, hrun⟩ := sparse_of_run hf (hsize ▸ Level.size_lt hl) h
  rw [hsize] at hrun
  refine ⟨hrun, fun x hx => LawfulChunk.content_beyond hs.1 hx, ?_, ?_, fun c hc => ?_⟩
  · rw [← hsize]
    exact LawfulChunk.usedSize_le hs.1
  · rw [LawfulChunk.destroyed_eq hs.1]
    exact hs.2
  · obtain ⟨r, s', hs', -⟩ := hs.step (hsize ▸ hc)
    exact ⟨r, s', hs'⟩

/-! ## Executed runs -/

instance {size : Nat} : DecidablePred (Call.Proper size)
  | .write _ _ => inferInstanceAs (Decidable (_ < _))
  | .read _ _ => inferInstanceAs (Decidable (_ < _))
  | .truncate _ => inferInstanceAs (Decidable (_ ≤ _))

theorem exists_store_run (l : Level) (room : Nat) (calls : List Call)
    {p : List (Store l.Obj × Call × Reply) × Store l.Obj → Prop} [DecidablePred p]
    (h : (replay (attempt (fun _ => Call.Proper (ChunkType.size l.Obj)) Store.call) calls
      ([], ⟨construct 0, room⟩)).any (fun r => decide (p r)) = true) :
    ∃ (hist : List (Store l.Obj × Call × Reply)) (s : Store l.Obj),
      Run (Store.Init l.Obj room) (Store.Trans l.Obj) hist s ∧ p (hist, s) := by
  have hinit : Store.Init l.Obj room ⟨construct 0, room⟩ := rfl
  exact exists_called_run hinit calls h

/-- A chunk index of chunk indices: after truncating, there is memory for
one more chunk. -/
theorem refines_sparse_small :
    ∃ (hist : List (Store (Level.index 3 (.index 2 (.chunk 2))).Obj × Call × Reply))
      (s : Store (Level.index 3 (.index 2 (.chunk 2))).Obj),
      hist.map (·.2) = [(.write [7, 8, 9] 7, .error .outOfMemory), (.truncate 5, .ok []),
        (.read 4 3, .ok [2, 3, 4, 5]), (.write [1, 2, 3, 4, 5, 6] 2, .ok [])] ∧
      Run (· = Sparse.empty 5) (Sparse.Step 12) (hist.map fun e => (e.1.sparse, e.2)) s.sparse ∧
      (∀ x, s.sparse.usedSize ≤ x → s.sparse.bytes x = 0) ∧ s.sparse.usedSize ≤ 12 ∧
      s.room + destroyed s.chunk = 5 ∧
      ∀ c : Call, c.Proper 12 → ∃ r s', s.call c = .ok (r, s') := by
  obtain ⟨hist, s, h, hcalls⟩ := exists_store_run (.index 3 (.index 2 (.chunk 2))) 5
    [.write [1, 2, 3, 4, 5, 6] 2, .read 4 3, .truncate 5, .write [7, 8, 9] 7]
    (p := fun r => r.1.map (·.2) = [(.write [7, 8, 9] 7, .error .outOfMemory), (.truncate 5, .ok []),
      (.read 4 3, .ok [2, 3, 4, 5]), (.write [1, 2, 3, 4, 5, 6] 2, .ok [])]) (by decide +kernel)
  exact ⟨hist, s, hcalls, refines_sparse (l := .index 3 (.index 2 (.chunk 2)))
    (by simp [Level.Valid, Level.size]) h⟩

end Genode.Os.RamFs
