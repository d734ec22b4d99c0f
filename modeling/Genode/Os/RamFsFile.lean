import Genode.Os.RamFsSparse

/-!
# RamFsFile — files in RAM

The files of `os/src/lib/vfs/ram_file_system.h`, which are three levels of
chunk indices over chunks of a page each, and a length. The length may lie
beyond the bytes that were written.
-/

namespace Genode.Os.RamFs

open ChunkType Contents Lib

abbrev ChunkLevel3 := Chunk 4096
abbrev ChunkLevel2 := ChunkIndex 128 ChunkLevel3
abbrev ChunkLevel1 := ChunkIndex 128 ChunkLevel2
abbrev ChunkLevel0 := ChunkIndex 128 ChunkLevel1

/-- `Vfs_ram::File`. -/
structure File where
  chunk : ChunkLevel0
  length : Nat

namespace File

/-- `Chunk_level_0::SIZE`. -/
def chunkSize : Nat := ChunkType.size ChunkLevel0

def new : File := ⟨construct 0, 0⟩

variable (f : File)

/-- How much of the range is in the chunk: bytes behind the used part are
zero, and are not read. -/
def readLen (seek len : Nat) : Nat :=
  let chunkUsedSize := usedSize f.chunk
  if chunkUsedSize < add64 seek len then
    if seek ≤ chunkUsedSize then chunkUsedSize - seek else 0
  else len

/-- `read`, with the bytes that it stores. -/
def read (numBytes seek : Nat) : Exec Reply :=
  if f.length ≤ seek then .ok (.ok [])
  else
    -- constrain the transaction to the file
    let len := if f.length ≤ add64 seek numBytes then f.length - min f.length seek else numBytes
    let readLen := f.readLen seek len
    do
      let r ← ChunkType.read f.chunk readLen seek
      -- add zero padding if needed
      let padding := if readLen < numBytes then len - readLen else 0
      .ok (r.map fun bs => bs ++ List.replicate padding 0)

/-- `write`, with the number of bytes that it returns. -/
def write (src : List UInt8) (seek room : Nat) : Exec (Except Thrown Nat × File × Nat) :=
  let at' := if seek = 2 ^ 64 - 1 then usedSize f.chunk else seek
  let len := if chunkSize ≤ add64 at' src.length then add64 (sub64 chunkSize at') src.length
    else src.length
  do
    let (r, chunk, room) ← ChunkType.write f.chunk src at' room
    let f := { f with chunk }
    match r with
    | .error .outOfMemory => .ok (.ok 0, f, room)
    | .error e => .ok (.error e, f, room)
    -- the used size of the chunk does not count trailing zeros
    | .ok () => .ok (.ok len, { f with length := max f.length (add64 at' len) }, room)

def truncate (size room : Nat) : Exec (Changed File) :=
  if size < usedSize f.chunk then do
    let (r, chunk, room) ← ChunkType.truncate f.chunk size room
    match r with
    | .error e => .ok (.error e, { f with chunk }, room)
    | .ok () => .ok (.ok (), ⟨chunk, size⟩, room)
  else .ok (.ok (), { f with length := size }, room)

end File

/-! ## Calls -/

inductive FileCall where
  | read (numBytes seek : Nat)
  | write (src : List UInt8) (seek : Nat)
  | truncate (size : Nat)
  deriving DecidableEq

inductive FileReply where
  | data (bytes : List UInt8)
  | count (n : Nat)
  | done
  | thrown (e : Thrown)
  deriving DecidableEq

/-- The seek offset for appending, `~0UL`. -/
def appending : Nat := 2 ^ 64 - 1

/-- Ranges do not wrap around. -/
def FileCall.Proper : FileCall → Prop
  | read numBytes seek => seek + numBytes < 2 ^ 64
  | write src seek => src.length < 2 ^ 63 ∧ (seek = appending ∨ seek + src.length < 2 ^ 64)
  | truncate size => size < 2 ^ 64

/-- A file, and how many more chunks can be allocated. -/
structure FileStore where
  file : File
  room : Nat

namespace FileStore

def Init (room : Nat) (s : FileStore) : Prop := s = ⟨.new, room⟩

def call (s : FileStore) : FileCall → Exec (FileReply × FileStore)
  | .read numBytes seek => do
    let r ← s.file.read numBytes seek
    match r with
    | .error e => .ok (.thrown e, s)
    | .ok bytes => .ok (.data bytes, s)
  | .write src seek => do
    let (r, file, room) ← s.file.write src seek s.room
    match r with
    | .error e => .ok (.thrown e, ⟨file, room⟩)
    | .ok n => .ok (.count n, ⟨file, room⟩)
  | .truncate size => do
    let (r, file, room) ← s.file.truncate size s.room
    match r with
    | .error e => .ok (.thrown e, ⟨file, room⟩)
    | .ok () => .ok (.done, ⟨file, room⟩)

/-- Calls with their results. -/
abbrev Trans := Called (fun _ => FileCall.Proper) call

end FileStore

/-! ## Plain files -/

/-- A sparse array and a length. -/
structure Plain where
  chunk : Sparse
  length : Nat

namespace Plain

open File

variable {A A' : Plain} {B : Sparse} {src : List UInt8} {seek o n size : Nat} {r : FileReply}

/-- Where a write goes: appending starts behind the bytes in use. -/
def offset (A : Plain) (seek : Nat) : Nat := if seek = appending then A.chunk.usedSize else seek

/-- The operations on a file. A write that ends exactly at the end of the
largest possible file counts its bytes twice. -/
inductive Step : Plain → FileCall × FileReply → Plain → Prop where
  | read {A : Plain} {n seek : Nat} (h : seek ≤ chunkSize ∨ A.length ≤ seek) :
      Step A (.read n seek, .data (A.chunk.bytes.slice seek (min n (A.length - seek)))) A
  | readOutside {A : Plain} {n seek : Nat} (h : chunkSize < seek) (hlen : seek < A.length) :
      Step A (.read n seek, .thrown .indexOutOfRange) A
  | write {A : Plain} {B : Sparse} {src : List UInt8} {seek : Nat}
      (h : Sparse.Step chunkSize A.chunk (.write src (A.offset seek), .ok []) B)
      (hend : A.offset seek + src.length ≠ chunkSize) :
      Step A (.write src seek, .count src.length) ⟨B, max A.length (A.offset seek + src.length)⟩
  | fill {A : Plain} {B : Sparse} {src : List UInt8} {seek : Nat}
      (h : Sparse.Step chunkSize A.chunk (.write src (A.offset seek), .ok []) B)
      (hend : A.offset seek + src.length = chunkSize) :
      Step A (.write src seek, .count (2 * src.length)) ⟨B, max A.length (chunkSize + src.length)⟩
  | outOfMemory {A : Plain} {B : Sparse} {src : List UInt8} {seek : Nat}
      (h : Sparse.Step chunkSize A.chunk (.write src (A.offset seek), .error .outOfMemory) B) :
      Step A (.write src seek, .count 0) ⟨B, A.length⟩
  | writeOutside {A : Plain} {src : List UInt8} {seek : Nat}
      (h : chunkSize < A.offset seek + src.length) :
      Step A (.write src seek, .thrown .indexOutOfRange) A
  | truncate {A : Plain} {B : Sparse} {size : Nat} (hb : B.bytes = A.chunk.bytes.cut size)
      (hu : B.usedSize ≤ min A.chunk.usedSize size) :
      Step A (.truncate size, .done) ⟨B, size⟩

def empty (room : Nat) : Plain := ⟨Sparse.empty room, 0⟩

/-- The call changes no byte of the range, and does not cut it off. -/
def Spares (o n : Nat) (A : Plain) : FileCall → Prop
  | .read _ _ => True
  | .write src seek => o + n ≤ A.offset seek ∨ A.offset seek + src.length ≤ o
  | .truncate size => o + n ≤ size

/-- The file has these bytes at the offset. -/
def Holds (o : Nat) (bs : List UInt8) (A : Plain) : Prop :=
  A.chunk.bytes.slice o bs.length = bs ∧ o + bs.length ≤ A.length

theorem slice_write_spared {m : Memory} {bs cs : List UInt8} {a : Nat} (h : m.slice o bs.length = bs)
    (hs : o + bs.length ≤ a ∨ a + cs.length ≤ o) : (m.write a cs).slice o bs.length = bs := by
  rcases hs with hs | hs
  · rw [Memory.slice_write_of_le hs, h]
  · rw [Memory.slice_write_of_ge hs, h]

theorem Step.holds {bs : List UInt8} {c : FileCall} (h : Step A (c, r) A') (hh : A.Holds o bs)
    (hs : A.Spares o bs.length c) : A'.Holds o bs := by
  obtain ⟨hb, hlen⟩ := hh
  cases h with
  | read _ => exact ⟨hb, hlen⟩
  | readOutside _ _ => exact ⟨hb, hlen⟩
  | write hstep _ =>
    cases hstep with
    | write _ hb' _ _ => exact ⟨by rw [hb', slice_write_spared hb hs], hlen.trans (le_max_left _ _)⟩
  | fill hstep _ =>
    cases hstep with
    | write _ hb' _ _ => exact ⟨by rw [hb', slice_write_spared hb hs], hlen.trans (le_max_left _ _)⟩
  | outOfMemory hstep =>
    cases hstep with
    | outOfMemory _ hb' _ _ =>
      refine ⟨?_, hlen⟩
      rw [hb', slice_write_spared hb]
      exact hs.imp_right fun h => (Nat.add_le_add_left (List.length_take_le' _ _) _).trans h
  | writeOutside _ => exact ⟨hb, hlen⟩
  | truncate hb' _ =>
    refine ⟨?_, hs⟩
    have hcut : (A.chunk.bytes.cut _).slice o bs.length = A.chunk.bytes.slice o bs.length :=
      Memory.slice_congr fun x _ hx => if_pos (hx.trans_le hs)
    rw [hb', hcut, hb]

/-- A write that returns the number of its bytes has written them. -/
theorem Step.holds_of_write (h : Step A (.write src seek, .count src.length) A') (hne : src ≠ []) :
    A'.Holds (A.offset seek) src ∧ A.offset seek + src.length ≤ chunkSize := by
  have hpos := List.length_pos_of_ne_nil hne
  generalize hc : (FileCall.write src seek, FileReply.count src.length) = e at h
  cases h with
  | write hstep _ =>
    obtain ⟨rfl, rfl⟩ : src = _ ∧ seek = _ := by simpa using congrArg Prod.fst hc
    cases hstep with
    | write ho hb _ _ =>
      refine ⟨⟨?_, le_max_right _ _⟩, ho⟩
      rw [hb, Memory.slice_write]
  | fill hstep _ =>
    obtain ⟨⟨rfl, -⟩, hn⟩ : (src = _ ∧ seek = _) ∧ src.length = _ := by simpa using hc
    omega
  | outOfMemory hstep =>
    obtain ⟨-, hn⟩ : (src = _ ∧ seek = _) ∧ src = [] := by simpa using hc
    exact absurd hn hne
  | _ => simp at hc

end Plain

/-- What a file stands for. -/
def FileStore.plain (s : FileStore) : Plain :=
  ⟨⟨content s.file.chunk, usedSize s.file.chunk, s.room⟩, s.file.length⟩

/-! ## Files do what plain files do -/

namespace File

theorem fits : Fits ChunkLevel0 :=
  have fits₃ : Fits ChunkLevel3 := show 0 < 4096 by decide
  have fits₂ : Fits ChunkLevel2 := ⟨fits₃, by decide, by decide, by decide⟩
  have fits₁ : Fits ChunkLevel1 := ⟨fits₂, by decide, by decide, by decide⟩
  ⟨fits₁, by decide, by decide, by decide⟩

theorem chunkSize_eq : chunkSize = 2 ^ 33 := by decide

variable {f : File} {src : List UInt8} {o seek n room : Nat}

/-- What is read is what the chunk holds up to the end of the file. -/
theorem read_eq (h : Good 0 f.chunk) (hw : seek + n < 2 ^ 64) (hin : seek ≤ chunkSize ∨ f.length ≤ seek) :
    f.read n seek = .ok (.ok ((content f.chunk).slice seek (min n (f.length - seek)))) := by
  unfold read
  by_cases hlen : f.length ≤ seek
  · rw [if_pos hlen, Nat.sub_eq_zero_of_le hlen, Nat.min_zero]
    rfl
  have hused := LawfulChunk.usedSize_le h
  change usedSize f.chunk ≤ chunkSize at hused
  have hmin : (if f.length ≤ add64 seek n then f.length - min f.length seek else n) =
      min n (f.length - seek) := by
    rw [add64_of_lt hw]
    split <;> omega
  rw [if_neg hlen, hmin]
  set len := min n (f.length - seek) with hlendef
  have hadd : add64 seek len = seek + len := add64_of_lt (by omega)
  have hread : f.readLen seek len ≤ len ∧ seek + f.readLen seek len ≤ chunkSize ∧
      (f.readLen seek len = len ∨ usedSize f.chunk ≤ seek + f.readLen seek len) := by
    unfold readLen
    dsimp only
    rw [hadd]
    split
    · split <;> omega
    · omega
  obtain ⟨hle, hsize, hrest⟩ := hread
  have hr := LawfulChunk.read_inside (o := seek) h hsize
  rw [Nat.zero_add] at hr
  -- the bytes that are not read are zero
  have hpad : List.replicate (if f.readLen seek len < n then len - f.readLen seek len else 0) 0 =
      (content f.chunk).slice (seek + f.readLen seek len) (len - f.readLen seek len) := by
    have hnum : (if f.readLen seek len < n then len - f.readLen seek len else 0) =
        len - f.readLen seek len := by
      split <;> omega
    rw [hnum]
    refine (List.eq_replicate_iff.mpr ⟨Memory.length_slice, fun b hb => ?_⟩).symm
    obtain ⟨i, hi, rfl⟩ := List.mem_map.mp hb
    rw [List.mem_range] at hi
    exact LawfulChunk.content_beyond h (by omega)
  dsimp only
  rw [hr]
  simp only [Exec.ok_bind, Except.map]
  rw [hpad, ← Memory.slice_add, Nat.add_sub_cancel' hle]

theorem read_outside (h : Good 0 f.chunk) (hw : seek + n < 2 ^ 64) (hin : chunkSize < seek)
    (hlen : seek < f.length) : f.read n seek = .ok (.error .indexOutOfRange) := by
  have hused := LawfulChunk.usedSize_le h
  change usedSize f.chunk ≤ chunkSize at hused
  have hread (len : Nat) (hlen : len ≤ n) : f.readLen seek len = 0 := by
    have hadd : add64 seek len = seek + len := add64_of_lt (by omega)
    unfold readLen
    dsimp only
    rw [hadd, if_pos (by omega), if_neg (by omega)]
  have hle : (if f.length ≤ add64 seek n then f.length - min f.length seek else n) ≤ n := by
    rw [add64_of_lt hw]
    split <;> omega
  have hr := LawfulChunk.read_outside (o := seek) 0 h hin (by omega)
  rw [Nat.zero_add] at hr
  unfold read
  rw [if_neg (by omega)]
  dsimp only
  rw [hread _ hle, hr]
  rfl

end File

namespace FileStore

variable {s s' : FileStore} {room : Nat}

/-- The chunk is as it should be, and no chunk is lost. -/
def Sound (room : Nat) (s : FileStore) : Prop :=
  Good 0 s.file.chunk ∧ s.room + Contents.objects s.file.chunk = room

theorem Sound.step_read {n seek : Nat} (h : s.Sound room) (hw : seek + n < 2 ^ 64) :
    ∃ r s', s.call (.read n seek) = .ok (r, s') ∧ s'.Sound room ∧
      Plain.Step s.plain (.read n seek, r) s'.plain := by
  by_cases hin : seek ≤ File.chunkSize ∨ s.file.length ≤ seek
  · exact ⟨_, s, by rw [call, File.read_eq h.1 hw hin]; rfl, h, .read hin⟩
  · have hr := File.read_outside h.1 hw (by omega) (by omega)
    exact ⟨_, s, by rw [call, hr]; rfl, h, .readOutside (by omega) (show seek < s.file.length by omega)⟩

theorem Sound.step_write {src : List UInt8} {seek : Nat} (h : s.Sound room)
    (hw : (FileCall.write src seek).Proper) :
    ∃ r s', s.call (.write src seek) = .ok (r, s') ∧ s'.Sound room ∧
      Plain.Step s.plain (.write src seek, r) s'.plain := by
  obtain ⟨hlen, hseek⟩ := hw
  have hused := LawfulChunk.usedSize_le h.1
  change usedSize s.file.chunk ≤ File.chunkSize at hused
  have hoff : (if seek = 2 ^ 64 - 1 then usedSize s.file.chunk else seek) = s.plain.offset seek := rfl
  have hlt : s.plain.offset seek + src.length < 2 ^ 64 := by
    rw [File.chunkSize_eq] at hused
    unfold Plain.offset
    split
    · show usedSize s.file.chunk + _ < _
      omega
    · exact hseek.resolve_left ‹_›
  -- the chunk as a sparse array
  obtain ⟨r, t, ht, hsound, hstep⟩ := (show (Store.mk s.file.chunk s.room).Sound room from h).step
    (c := .write src (s.plain.offset seek)) hlt
  obtain ⟨⟨q, c, k⟩, hq, hqr⟩ := Exec.bind_eq_ok.mp ht
  obtain ⟨rfl, rfl⟩ : q.map (fun _ => []) = r ∧ Store.mk c k = t := by
    simpa [Store.changed] using hqr
  change Sparse.Step File.chunkSize s.plain.chunk _ _ at hstep
  cases q with
  | error e =>
    cases e with
    | outOfMemory =>
      refine ⟨.count 0, ⟨⟨c, s.file.length⟩, k⟩, ?_, hsound, .outOfMemory hstep⟩
      simp only [call, File.write, hoff, hq, Exec.ok_bind]
    | indexOutOfRange =>
      obtain ⟨hB, hout⟩ := hstep.of_write_outside
      refine ⟨.thrown .indexOutOfRange, ⟨⟨c, s.file.length⟩, k⟩, ?_, hsound, ?_⟩
      · simp only [call, File.write, hoff, hq, Exec.ok_bind]
      · have hplain : (FileStore.mk ⟨c, s.file.length⟩ k).plain = s.plain :=
          congrArg (Plain.mk · s.file.length) hB
        rw [hplain]
        exact .writeOutside hout
  | ok _ =>
    have ho := hstep.of_write_ok.2
    have hadd : add64 (s.plain.offset seek) src.length = s.plain.offset seek + src.length :=
      add64_of_lt hlt
    have hsize := File.chunkSize_eq
    by_cases hend : s.plain.offset seek + src.length = File.chunkSize
    · have hlen₂ : add64 (sub64 File.chunkSize (s.plain.offset seek)) src.length = 2 * src.length := by
        rw [sub64_of_le (by omega) (by omega), add64_of_lt (by omega)]
        omega
      have hnew : add64 (s.plain.offset seek) (2 * src.length) = File.chunkSize + src.length := by
        rw [add64_of_lt (by omega)]
        omega
      refine ⟨.count (2 * src.length),
        ⟨⟨c, max s.file.length (File.chunkSize + src.length)⟩, k⟩, ?_, hsound, .fill hstep hend⟩
      simp only [call, File.write, hoff, hq, Exec.ok_bind, hadd, hend, le_refl, if_true, hlen₂, hnew]
    · refine ⟨.count src.length,
        ⟨⟨c, max s.file.length (s.plain.offset seek + src.length)⟩, k⟩, ?_, hsound, .write hstep hend⟩
      have hnot : ¬ File.chunkSize ≤ s.plain.offset seek + src.length := by omega
      simp only [call, File.write, hoff, hq, Exec.ok_bind, hadd, hnot, if_false]

theorem Sound.step_truncate {size : Nat} (h : s.Sound room) :
    ∃ r s', s.call (.truncate size) = .ok (r, s') ∧ s'.Sound room ∧
      Plain.Step s.plain (.truncate size, r) s'.plain := by
  have hused := LawfulChunk.usedSize_le h.1
  by_cases hlt : size < usedSize s.file.chunk
  · obtain ⟨⟨r, c, k⟩, ht, hr, hgood, hobj, hle, hoff, hb⟩ :=
      LawfulChunk.truncate_inside (o := size) s.room h.1 (by omega)
    dsimp only at hr
    subst hr
    rw [Nat.zero_add] at ht
    refine ⟨.done, ⟨⟨c, size⟩, k⟩, ?_, ⟨hgood, hobj.trans h.2⟩, .truncate hb (le_min hle hoff)⟩
    rw [call, File.truncate, if_pos hlt, ht]
    rfl
  · refine ⟨.done, ⟨⟨s.file.chunk, size⟩, s.room⟩, ?_, h, .truncate ?_
      (le_min le_rfl (show usedSize s.file.chunk ≤ size by omega))⟩
    · rw [call, File.truncate, if_neg hlt]
      rfl
    · funext x
      show content s.file.chunk x = Memory.cut _ _ x
      unfold Memory.cut
      split
      · rfl
      · exact LawfulChunk.content_beyond h.1 (by omega)

/-- The spec of a call. -/
theorem Sound.step (h : s.Sound room) {c : FileCall} (hc : c.Proper) :
    ∃ r s', s.call c = .ok (r, s') ∧ s'.Sound room ∧ Plain.Step s.plain (c, r) s'.plain := by
  cases c with
  | read n seek => exact h.step_read hc
  | write src seek => exact h.step_write hc
  | truncate size => exact h.step_truncate

theorem Sound.init (h : Init room s) : s.Sound room ∧ s.plain = Plain.empty room := by
  subst h
  have hfits := File.fits
  refine ⟨⟨LawfulChunk.construct_good hfits (by decide), ?_⟩, ?_⟩
  · show room + Contents.objects (construct 0 : ChunkLevel0) = room
    rw [LawfulChunk.construct_objects, Nat.add_zero]
  · show Plain.mk ⟨content (construct 0 : ChunkLevel0), usedSize (construct 0 : ChunkLevel0), room⟩ 0 = _
    rw [LawfulChunk.construct_content, LawfulChunk.construct_usedSize]
    rfl

end FileStore

section Runs

variable {room : Nat} {hist : List (FileStore × FileCall × FileReply)} {s t : FileStore}

theorem plain_of_run (h : Run (FileStore.Init room) FileStore.Trans hist s) :
    s.Sound room ∧ Run (· = Plain.empty room) Plain.Step (hist.map fun e => (e.1.plain, e.2)) s.plain :=
  h.refines FileStore.plain (fun _ => FileStore.Sound.init) fun _ _ hs hc => hs.step hc

/-- A file in RAM does what a sparse array with a length does, in every
run, and each call returns. What was allocated is freed with the file. -/
theorem refines_file (h : Run (FileStore.Init room) FileStore.Trans hist s) :
    Run (· = Plain.empty room) Plain.Step (hist.map fun e => (e.1.plain, e.2)) s.plain ∧
      s.room + destroyed s.file.chunk = room ∧
      ∀ c : FileCall, c.Proper → ∃ r s', s.call c = .ok (r, s') := by
  obtain ⟨hs, hrun⟩ := plain_of_run h
  refine ⟨hrun, ?_, fun c hc => ?_⟩
  · rw [LawfulChunk.destroyed_eq hs.1]
    exact hs.2
  · obtain ⟨r, s', hs', -⟩ := hs.step hc
    exact ⟨r, s', hs'⟩

/-- What a write has counted can be read, until another call changes it or
cuts it off. -/
theorem read_of_write {earlier : List (FileStore × FileCall × FileReply)} {src : List UInt8}
    (later : List (FileStore × FileCall × FileReply)) (seek : Nat) (hne : src ≠ [])
    (h : Run (FileStore.Init room) FileStore.Trans
      (later ++ (t, .write src seek, .count src.length) :: earlier) s)
    (hlater : ∀ e ∈ later, e.1.plain.Spares (t.plain.offset seek) src.length e.2.1) :
    s.call (.read src.length (t.plain.offset seek)) = .ok (.data src, s) := by
  obtain ⟨hs, hrun⟩ := plain_of_run h
  rw [List.map_append, List.map_cons] at hrun
  obtain ⟨⟨hbytes, hlen⟩, hsize⟩ := hrun.since (P := fun A => A.Holds (t.plain.offset seek) src ∧
      t.plain.offset seek + src.length ≤ File.chunkSize)
    (C := fun A e => A.Spares (t.plain.offset seek) src.length e.1)
    (fun A' hstep => hstep.holds_of_write hne)
    (fun A e A' hP hstep hspares => ⟨hstep.holds hP.1 hspares, hP.2⟩)
    fun e he => by
      obtain ⟨e', he', rfl⟩ := List.mem_map.mp he
      exact hlater e' he'
  have hchunk := File.chunkSize_eq
  have hlen : t.plain.offset seek + src.length ≤ s.file.length := hlen
  have hread := File.read_eq (n := src.length) hs.1 (show t.plain.offset seek + src.length < 2 ^ 64 by omega)
    (.inl (by omega))
  rw [Nat.min_eq_left (by omega)] at hread
  rw [FileStore.call, hread]
  change Except.ok (FileReply.data (s.plain.chunk.bytes.slice _ _), s) = _
  rw [hbytes]

end Runs

/-! ## Executed runs -/

instance : DecidablePred FileCall.Proper
  | .read _ _ => inferInstanceAs (Decidable (_ < _))
  | .write _ _ => inferInstanceAs (Decidable (_ ∧ _))
  | .truncate _ => inferInstanceAs (Decidable (_ < _))

theorem exists_file_run (room : Nat) (calls : List FileCall)
    {p : List (FileStore × FileCall × FileReply) × FileStore → Prop} [DecidablePred p]
    (h : (replay (attempt (fun _ => FileCall.Proper) FileStore.call) calls ([], ⟨.new, room⟩)).any
      (fun r => decide (p r)) = true) :
    ∃ (hist : List (FileStore × FileCall × FileReply)) (s : FileStore),
      Run (FileStore.Init room) FileStore.Trans hist s ∧ p (hist, s) := by
  have hinit : FileStore.Init room ⟨.new, room⟩ := rfl
  exact exists_called_run hinit calls h

/-- Bytes on both sides of a chunk border, after which the file is
enlarged, and a write that finds no memory. -/
theorem refines_file_border :
    ∃ (hist : List (FileStore × FileCall × FileReply)) (s : FileStore),
      hist.map (·.2) = [(.write [9] 8192, .count 0), (.read 6 4093, .data [0, 1, 2, 3, 0, 0]),
        (.truncate 4099, .done), (.write [3] appending, .count 1), (.write [1, 2] 4094, .count 2)] ∧
      Run (· = Plain.empty 4) Plain.Step (hist.map fun e => (e.1.plain, e.2)) s.plain ∧
      s.room + destroyed s.file.chunk = 4 ∧
      ∀ c : FileCall, c.Proper → ∃ r s', s.call c = .ok (r, s') := by
  obtain ⟨hist, s, h, hcalls⟩ := exists_file_run 4
    [.write [1, 2] 4094, .write [3] appending, .truncate 4099, .read 6 4093, .write [9] 8192]
    (p := fun r => r.1.map (·.2) = [(.write [9] 8192, .count 0),
      (.read 6 4093, .data [0, 1, 2, 3, 0, 0]), (.truncate 4099, .done),
      (.write [3] appending, .count 1), (.write [1, 2] 4094, .count 2)]) (by decide +kernel)
  exact ⟨hist, s, hcalls, refines_file h⟩

/-- Another write in the same chunk, and a truncation right behind the bytes. -/
theorem read_of_write_truncated :
    ∃ (hist : List (FileStore × FileCall × FileReply)) (s : FileStore),
      hist.map (·.2) = [(.truncate 4096, .done), (.write [3, 4] 4096, .count 2),
        (.write [1, 2] 4094, .count 2)] ∧ s.call (.read 2 4094) = .ok (.data [1, 2], s) := by
  obtain ⟨hist, s, h, hcalls⟩ := exists_file_run 5
    [.write [1, 2] 4094, .write [3, 4] 4096, .truncate 4096]
    (p := fun r => r.1.map (·.2) = [(.truncate 4096, .done), (.write [3, 4] 4096, .count 2),
      (.write [1, 2] 4094, .count 2)]) (by decide +kernel)
  refine ⟨hist, s, hcalls, ?_⟩
  rcases hist with _ | ⟨⟨s₁, e₁⟩, _ | ⟨⟨s₂, e₂⟩, _ | ⟨⟨t, e₃⟩, rest⟩⟩⟩
  · simp at hcalls
  · simp at hcalls
  · simp at hcalls
  · obtain ⟨rfl, rfl, rfl, -⟩ : e₁ = (.truncate 4096, .done) ∧ e₂ = (.write [3, 4] 4096, .count 2) ∧
        e₃ = (.write [1, 2] 4094, .count 2) ∧ rest = [] := by simpa using hcalls
    have h' : Run (FileStore.Init 5) FileStore.Trans
        ([(s₁, .truncate 4096, .done), (s₂, .write [3, 4] 4096, .count 2)] ++
          (t, .write [1, 2] 4094, .count 2) :: rest) s := h
    have hoff : t.plain.offset 4094 = 4094 := by simp [Plain.offset, appending]
    have hread := read_of_write _ 4094 (by simp) h' (by simp [Plain.Spares, Plain.offset, appending])
    rw [hoff] at hread
    exact hread

end Genode.Os.RamFs
