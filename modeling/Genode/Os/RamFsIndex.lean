import Mathlib.Algebra.BigOperators.Fin
import Genode.Lib.StoredTree
import Genode.Os.RamFsContent

/-!
# RamFsIndex — a chunk index is a sparse array of bytes

If the entries of a chunk index behave like arrays of bytes, the chunk
index does. Reading and writing go from one entry to the next, and each
round deals with the part of the range that lies in one entry.
-/

namespace Genode.Os.RamFs.ChunkIndex

open ChunkType Contents Lib

variable {n : Nat} {E : Type} [ChunkType E] [Contents E]

/-- A chunk index at a base offset. -/
structure Sound (base : Nat) (c : ChunkIndex n E) : Prop where
  at_base : c.baseOffset = base
  fits : Fits E
  pos : 0 < n
  lt : n < 2 ^ 32
  in_word : base + ChunkType.size E * n < 2 ^ 64
  numUsed_le : c.numUsed ≤ n
  entries : ∀ {i e}, c.entry i = some e → i < c.numUsed ∧ Good (base + ChunkType.size E * i) e

/-- The number of chunks for an entry. -/
def entryObjects (e : Option E) : Nat := e.elim 0 fun e => Contents.objects e + 1

instance : Contents (ChunkIndex n E) where
  Fits := Fits E ∧ 0 < n ∧ n < 2 ^ 32 ∧ ChunkType.size E * n < 2 ^ 64
  Good := Sound
  content c x := (c.entry (x / ChunkType.size E)).elim 0 fun e => content e (x % ChunkType.size E)
  objects c := ∑ i : Fin n, entryObjects (c.entries i)

variable {c c' : ChunkIndex n E} {base o room i j k x : Nat} {e e' : E} {src : List UInt8}

/-! ## Entries -/

section Entries

omit [ChunkType E] [Contents E]

theorem entry_of_le (h : n ≤ i) : c.entry i = none := dif_neg (by omega)

@[simp] theorem entry_setEntry (r : Option E) :
    (c.setEntry i r).entry j = if j = i ∧ i < n then r else c.entry j := by
  unfold entry setEntry
  dsimp only
  split
  · by_cases hj : j = i
    · rw [if_pos hj, if_pos ⟨hj, by omega⟩]
    · rw [if_neg hj, if_neg (by omega)]
  · rw [if_neg (by omega)]

theorem entry_setEntry_self (h : i < n) (r : Option E) : (c.setEntry i r).entry i = r := by simp [h]

@[simp] theorem baseOffset_setEntry (r : Option E) : (c.setEntry i r).baseOffset = c.baseOffset := rfl

@[simp] theorem numUsed_setEntry (r : Option E) : (c.setEntry i r).numUsed = c.numUsed := rfl

@[simp] theorem entry_numUsed (k : Nat) : ({ c with numUsed := k } : ChunkIndex n E).entry i = c.entry i := rfl

end Entries

theorem objects_setEntry (h : i < n) (r : Option E) :
    objects (c.setEntry i r) + entryObjects (c.entry i) = objects c + entryObjects r := by
  have hswap := sum_add_swap (s := Finset.univ) (f := fun j => entryObjects ((c.setEntry i r).entries j))
    (g := fun j => entryObjects (c.entries j)) (Finset.mem_univ ⟨i, h⟩) fun j _ hj => by
      have hj' : j.val ≠ i := fun he => hj (Fin.ext he)
      simp [setEntry, hj']
  have he : c.entry i = c.entries ⟨i, h⟩ := dif_pos h
  have hset : (c.setEntry i r).entries ⟨i, h⟩ = r := if_pos rfl
  rw [he]
  rw [hset] at hswap
  exact hswap

theorem objects_eq_zero (h : ∀ i, c.entry i = none) : objects c = 0 := by
  refine Finset.sum_eq_zero fun i _ => ?_
  have he : c.entries i = none := by
    have := h i
    rwa [entry, dif_pos i.isLt] at this
  rw [he]
  rfl

theorem content_eq : content c x =
    (c.entry (x / ChunkType.size E)).elim 0 fun e => content e (x % ChunkType.size E) := rfl

theorem content_congr (h : ∀ i, c'.entry i = c.entry i) : content c' = content c := by
  funext x
  rw [content_eq, h, content_eq]

section Lawful

variable [LawfulChunk E]

/-! ## Offsets -/

theorem Sound.size_pos (h : Sound base c) : 0 < ChunkType.size E := LawfulChunk.size_pos h.fits

omit [LawfulChunk E] in
theorem Sound.size_eq (h : Sound base c) : size n E = ChunkType.size E * n :=
  Nat.mod_eq_of_lt (by have := h.in_word; omega)

omit [LawfulChunk E] in
theorem Sound.indexByOffset (h : Sound base c) (ho : o ≤ ChunkType.size E * n) :
    c.indexByOffset (base + o) = o / ChunkType.size E := by
  have hdiv : o / ChunkType.size E ≤ n :=
    Nat.div_le_of_le_mul ho
  rw [ChunkIndex.indexByOffset, h.at_base, sub64_base (by have := h.in_word; omega)]
  exact Nat.mod_eq_of_lt (by have := h.lt; omega)

theorem Sound.localPart (h : Sound base c) (ho : o < ChunkType.size E * n) (len : Nat) :
    c.localPart (base + o) (o / ChunkType.size E) len =
      min len (ChunkType.size E - o % ChunkType.size E) := by
  have hw := h.in_word
  have hdiv := Nat.div_add_mod o (ChunkType.size E)
  have hmod := Nat.mod_lt o h.size_pos
  have hmul := Nat.mul_comm (o / ChunkType.size E) (ChunkType.size E)
  have hle : ChunkType.size E ≤ ChunkType.size E * n := Nat.le_mul_of_pos_right _ h.pos
  have hlocal : sub64 o (o / ChunkType.size E * ChunkType.size E) = o % ChunkType.size E := by
    rw [sub64_of_le (by omega) (by omega)]
    omega
  rw [ChunkIndex.localPart, h.at_base, sub64_base (by omega), hlocal,
    sub64_of_le (by omega) (by omega)]

/-! ## The used size -/

omit [Contents E] [LawfulChunk E] in
theorem usedSize_zero (h : c.numUsed = 0) : usedSize c = 0 := if_pos h

theorem Sound.usedSize_eq (h : Sound base c) (hi : c.numUsed = i + 1) :
    usedSize c = ChunkType.size E * i + (c.entry i).elim 0 ChunkType.usedSize := by
  have hw := h.in_word
  have hmul : ChunkType.size E * (i + 1) ≤ ChunkType.size E * n :=
    Nat.mul_le_mul_left _ (hi ▸ h.numUsed_le)
  have hsize := h.size_pos
  rw [Nat.mul_add_one] at hmul
  rw [ChunkIndex.usedSize, if_neg (by omega), hi, Nat.add_sub_cancel, Nat.mod_eq_of_lt (by omega)]
  cases he : c.entry i with
  | none => rfl
  | some e =>
    have := LawfulChunk.usedSize_le (h.entries he).2
    exact add64_of_lt (by omega)

theorem Sound.entry_usedSize_le (h : Sound base c) :
    (c.entry i).elim 0 ChunkType.usedSize ≤ ChunkType.size E := by
  cases he : c.entry i with
  | none => exact Nat.zero_le _
  | some e => exact LawfulChunk.usedSize_le (h.entries he).2

theorem Sound.usedSize_le_mul (h : Sound base c) (hk : c.numUsed ≤ k) :
    usedSize c ≤ ChunkType.size E * k := by
  cases hi : c.numUsed with
  | zero =>
    rw [usedSize_zero hi]
    exact Nat.zero_le _
  | succ i =>
    have hmul : ChunkType.size E * (i + 1) ≤ ChunkType.size E * k := Nat.mul_le_mul_left _ (by omega)
    have := h.entry_usedSize_le (i := i)
    rw [Nat.mul_add_one] at hmul
    rw [h.usedSize_eq hi]
    omega

theorem Sound.mul_le_usedSize (h : Sound base c) (hk : k < c.numUsed) :
    ChunkType.size E * k ≤ usedSize c := by
  obtain ⟨i, hi⟩ := Nat.exists_eq_add_one_of_ne_zero (show c.numUsed ≠ 0 by omega)
  have hmul : ChunkType.size E * k ≤ ChunkType.size E * i := Nat.mul_le_mul_left _ (by omega)
  rw [h.usedSize_eq hi]
  omega

/-- An entry before the last one ends within the used size. -/
theorem Sound.mul_succ_le_usedSize (h : Sound base c) (hk : k + 1 < c.numUsed) :
    ChunkType.size E * k + ChunkType.size E ≤ usedSize c := by
  rw [← Nat.mul_add_one]
  exact h.mul_le_usedSize hk

theorem Sound.content_beyond (h : Sound base c) (hx : usedSize c ≤ x) : content c x = 0 := by
  rw [content_eq]
  cases he : c.entry (x / ChunkType.size E) with
  | none => rfl
  | some e =>
    obtain ⟨hi, hgood⟩ := h.entries he
    refine LawfulChunk.content_beyond hgood ?_
    have hdiv := Nat.div_add_mod x (ChunkType.size E)
    have hmod := Nat.mod_lt x h.size_pos
    -- only the last entry may have bytes beyond the used size
    by_cases hlast : c.numUsed = x / ChunkType.size E + 1
    · rw [h.usedSize_eq hlast, he, Option.elim_some] at hx
      omega
    · have := h.mul_succ_le_usedSize (k := x / ChunkType.size E) (by omega)
      omega

/-! ## Changing an entry -/

omit [LawfulChunk E] in
theorem Sound.setEntry (h : Sound base c) (hi : i < c.numUsed)
    (he : Good (base + ChunkType.size E * i) e) : Sound base (c.setEntry i (some e)) := by
  refine ⟨h.at_base, h.fits, h.pos, h.lt, h.in_word, h.numUsed_le, fun {j e'} hj => ?_⟩
  rw [entry_setEntry] at hj
  split at hj
  · next hji =>
    obtain rfl : e = e' := by simpa using hj
    rw [hji.1]
    exact ⟨hi, he⟩
  · exact h.entries hj

theorem Sound.usedSize_setEntry (h : Sound base c) (hi : i < c.numUsed)
    (he : Good (base + ChunkType.size E * i) e) :
    usedSize (c.setEntry i (some e)) =
      if c.numUsed = i + 1 then ChunkType.size E * i + ChunkType.usedSize e else usedSize c := by
  obtain ⟨k, hk⟩ := Nat.exists_eq_add_one_of_ne_zero (show c.numUsed ≠ 0 by omega)
  have hn := h.numUsed_le
  rw [(h.setEntry hi he).usedSize_eq hk, entry_setEntry]
  split
  · next hki => rw [if_pos (by omega), hki.1, Option.elim_some]
  · next hki => rw [if_neg (by omega), h.usedSize_eq hk]

theorem content_setEntry_write (h : Sound base c) (hi : i = o / ChunkType.size E) (hn : i < n)
    (he : c.entry i = some e) (hlen : o % ChunkType.size E + src.length ≤ ChunkType.size E)
    (hc : content e' = (content e).write (o % ChunkType.size E) src) :
    content (c.setEntry i (some e')) = (content c).write o src := by
  have hpos := h.size_pos
  have ho := Nat.div_add_mod o (ChunkType.size E)
  funext x
  have hx := Nat.div_add_mod x (ChunkType.size E)
  have hmod := Nat.mod_lt x hpos
  rw [content_eq, entry_setEntry]
  split
  · next hxi =>
    rw [Option.elim_some, hc]
    unfold Memory.write
    rw [content_eq, hxi.1, he, Option.elim_some]
    rw [hxi.1, hi] at hx
    have hle : o ≤ x ↔ o % ChunkType.size E ≤ x % ChunkType.size E := by omega
    have hsub : x % ChunkType.size E - o % ChunkType.size E = x - o := by omega
    rw [hsub]
    by_cases hox : o ≤ x
    · rw [if_pos (hle.mp hox), if_pos hox]
    · rw [if_neg (mt hle.mpr hox), if_neg hox]
  · next hxi =>
    rw [← content_eq]
    -- what is written does not leave the entry
    rcases Nat.lt_or_ge (x / ChunkType.size E) i with hlt | hge
    · have hmul : ChunkType.size E * (x / ChunkType.size E + 1) ≤ ChunkType.size E * i :=
        Nat.mul_le_mul_left _ hlt
      rw [Nat.mul_add_one, hi] at hmul
      exact (Memory.write_of_lt (by omega)).symm
    · have hmul : ChunkType.size E * (i + 1) ≤ ChunkType.size E * (x / ChunkType.size E) :=
        Nat.mul_le_mul_left _ (by omega)
      rw [Nat.mul_add_one, hi] at hmul
      exact (Memory.write_of_ge (by omega)).symm

/-- The chunk index with a new entry. -/
def withEntry (c : ChunkIndex n E) (i : Nat) (e : E) : ChunkIndex n E :=
  { c.setEntry i (some e) with numUsed := max c.numUsed (i + 1) }

/-- A new entry is as good as none: it holds zeros. -/
theorem Sound.withEntry (h : Sound base c) (hi : i < n) (he : c.entry i = none)
    (hgood : Good (base + ChunkType.size E * i) e) (hzero : content e = fun _ => 0)
    (hobj : Contents.objects e = 0) (hused : ChunkType.usedSize e = 0) :
    Sound base (c.withEntry i e) ∧ (c.withEntry i e).entry i = some e ∧
      content (c.withEntry i e) = content c ∧ objects (c.withEntry i e) = objects c + 1 ∧
      usedSize (c.withEntry i e) = max (usedSize c) (ChunkType.size E * i) := by
  have hmax : Sound base { c with numUsed := max c.numUsed (i + 1) } :=
    ⟨h.at_base, h.fits, h.pos, h.lt, h.in_word, max_le h.numUsed_le hi, fun hj =>
      ⟨lt_max_of_lt_left (h.entries hj).1, (h.entries hj).2⟩⟩
  have hlt : i < max c.numUsed (i + 1) := by omega
  refine ⟨hmax.setEntry (i := i) hlt hgood, entry_setEntry_self hi _, ?_, ?_, ?_⟩
  · funext x
    rw [content_eq, content_eq]
    show ((c.setEntry i (some e)).entry _).elim 0 _ = _
    rw [entry_setEntry]
    split
    · next hx => rw [hx.1, he, Option.elim_some, hzero, Option.elim_none]
    · rfl
  · have hset := objects_setEntry (c := c) hi (some e)
    rw [he] at hset
    simp only [entryObjects, Option.elim_none, Option.elim_some, hobj] at hset
    exact hset
  · have hset := hmax.usedSize_setEntry (i := i) hlt hgood
    rw [hused] at hset
    refine hset.trans ?_
    dsimp only
    by_cases hlast : c.numUsed ≤ i + 1
    · have hle : usedSize c ≤ ChunkType.size E * i := by
        rcases Nat.lt_or_eq_of_le hlast with hlt | heq
        · exact h.usedSize_le_mul (by omega)
        · rw [h.usedSize_eq heq, he]
          exact le_rfl
      rw [if_pos (by omega)]
      exact (max_eq_right hle).symm
    · have hle := h.mul_le_usedSize (k := i) (by omega)
      have hnum : max c.numUsed (i + 1) = c.numUsed := by omega
      rw [if_neg (by omega), hnum]
      exact (max_eq_left hle).symm

/-- An entry for writing is there, or it is new. -/
theorem Sound.entryForWriting (h : Sound base c) (hi : i < n) (room : Nat) :
    c.entryForWriting i room = .error .outOfMemory ∧ room = 0 ∨
    ∃ e c' room', c.entryForWriting i room = .ok (e, c', room') ∧ Sound base c' ∧
      c'.entry i = some e ∧ content c' = content c ∧ room' + objects c' = room + objects c ∧
      usedSize c' = max (usedSize c) (ChunkType.size E * i) := by
  unfold ChunkIndex.entryForWriting
  rw [if_neg (by omega)]
  cases he : c.entry i with
  | some e =>
    have := h.mul_le_usedSize (h.entries he).1
    exact .inr ⟨e, c, room, rfl, h, he, rfl, rfl, by omega⟩
  | none =>
    cases room with
    | zero => exact .inl ⟨rfl, rfl⟩
    | succ room =>
      have hmul : ChunkType.size E * (i + 1) ≤ ChunkType.size E * n := Nat.mul_le_mul_left _ hi
      have hw := h.in_word
      rw [Nat.mul_add_one] at hmul
      have hoff : add64 c.baseOffset (i * ChunkType.size E) = base + ChunkType.size E * i := by
        rw [h.at_base, Nat.mul_comm i, add64_of_lt (by omega)]
      obtain ⟨hs, hentry, hcont, hobj, hused⟩ := h.withEntry (e := construct _) hi he
        (LawfulChunk.construct_good h.fits (by omega)) LawfulChunk.construct_content
        LawfulChunk.construct_objects LawfulChunk.construct_usedSize
      refine .inr ⟨construct _, c.withEntry i (construct _), room, ?_, hs, hentry, hcont, by omega, hused⟩
      dsimp only
      rw [hoff]
      rfl

/-! ## Writing -/

/-- A round of writing: the part of the bytes that is for one entry. -/
theorem Sound.writeEntry (h : Sound base c) (room : Nat) (ho : o < ChunkType.size E * n)
    (hlen : o % ChunkType.size E + src.length ≤ ChunkType.size E) (hne : src ≠ []) :
    c.entryForWriting (o / ChunkType.size E) room = .error .outOfMemory ∧ room = 0 ∨
    ∃ e c' room' r e' room'',
      c.entryForWriting (o / ChunkType.size E) room = .ok (e, c', room') ∧ Sound base c' ∧
      ChunkType.write e src (base + o) room' = .ok (r, e', room'') ∧
      Written base o src c room (r, c'.setEntry (o / ChunkType.size E) (some e'), room'') := by
  have hi : o / ChunkType.size E < n := Nat.div_lt_of_lt_mul ho
  have hdiv := Nat.div_add_mod o (ChunkType.size E)
  rcases h.entryForWriting hi room with herr | ⟨e, c', room', hfw, h', he, hcont, hobj, hused⟩
  · exact .inl herr
  right
  obtain ⟨hlt, hgood⟩ := h'.entries he
  obtain ⟨⟨r, e', room''⟩, hw, hwritten⟩ := LawfulChunk.write_inside room' hgood hlen
  rw [Nat.add_assoc, hdiv] at hw
  obtain ⟨hgood', hobj', hle', hused', hcont'⟩ := hwritten
  dsimp only at hgood' hobj' hle' hused' hcont'
  have hset := objects_setEntry (c := c') hi (some e')
  rw [he] at hset
  simp only [entryObjects, Option.elim_some] at hset
  have husedSet := h'.usedSize_setEntry hlt hgood'
  refine ⟨e, c', room', r, e', room'', hfw, h', hw, h'.setEntry hlt hgood', ?_, ?_, ?_, ?_⟩
  · show room'' + objects (c'.setEntry _ _) = room + objects c
    omega
  · show ChunkType.usedSize c ≤ usedSize (c'.setEntry _ _)
    change usedSize c ≤ _
    rw [husedSet]
    split
    · next hlast =>
      have := h'.usedSize_eq hlast
      rw [he, Option.elim_some] at this
      omega
    · omega
  · show usedSize (c'.setEntry _ _) ≤ max (usedSize c) (o + src.length)
    rw [husedSet]
    split
    · next hlast =>
      have := h'.usedSize_eq hlast
      rw [he, Option.elim_some] at this
      omega
    · omega
  · have hwrite (bs : List UInt8) (hbs : bs.length ≤ src.length)
        (hc : content e' = (content e).write (o % ChunkType.size E) bs) :
        content (c'.setEntry (o / ChunkType.size E) (some e')) = (content c).write o bs := by
      rw [content_setEntry_write h' rfl hi he (by omega) hc, hcont]
    rcases hcont' with ⟨hr, hc, hend⟩ | ⟨hr, hroom, m, hc⟩
    · refine .inl ⟨hr, hwrite src le_rfl hc, fun _ => ?_⟩
      have hend := hend hne
      show o + src.length ≤ usedSize (c'.setEntry _ _)
      rw [husedSet]
      split
      · omega
      · have := h'.mul_succ_le_usedSize (k := o / ChunkType.size E) (by omega)
        omega
    · exact .inr ⟨hr, hroom, m, hwrite _ (List.length_take_le' m src) hc⟩

theorem Sound.writeLoop {fuel : Nat} (h : Sound base c) (src : List UInt8) (room : Nat) (ho : o + src.length ≤ ChunkType.size E * n)
    (hf : src.length < fuel) :
    ∃ out, c.writeLoop fuel src (base + o) room = .ok out ∧ Written base o src c room out := by
  induction fuel generalizing c src o room with
  | zero => omega
  | succ fuel ih =>
    unfold ChunkIndex.writeLoop
    by_cases hsrc : src = []
    · subst hsrc
      exact ⟨_, if_pos rfl, written_nothing h (.inl ⟨rfl, rfl⟩)⟩
    have hpos := List.length_pos_of_ne_nil hsrc
    have hmod := Nat.mod_lt o h.size_pos
    rw [if_neg hsrc, h.indexByOffset (by omega)]
    dsimp only
    set k := min src.length (ChunkType.size E - o % ChunkType.size E) with hk
    have hlen : (src.take k).length = k := by
      rw [List.length_take]
      omega
    have hfit : o % ChunkType.size E + k ≤ ChunkType.size E := by omega
    have hne : src.take k ≠ [] := List.ne_nil_of_length_pos (by omega)
    rcases h.writeEntry (o := o) room (by omega) (hlen.symm ▸ hfit) hne with
      ⟨herr, hroom⟩ | ⟨e, c', room', r, e', room'', hfw, h', hw, hwritten⟩
    · rw [herr]
      exact ⟨_, rfl, written_nothing h (.inr ⟨rfl, hroom⟩)⟩
    · rw [hfw]
      dsimp only
      rw [h'.localPart (by omega), ← hk, hw]
      simp only [Exec.ok_bind]
      have hsound : Sound base (c'.setEntry (o / ChunkType.size E) (some e')) := hwritten.good
      have hin := h.in_word
      cases r with
      | error f =>
        exact ⟨_, rfl, written_error hwritten⟩
      | ok _ =>
        obtain ⟨out, hout, hrest⟩ := ih (o := o + k) hsound (src.drop k) room''
          (by rw [List.length_drop]; omega) (by rw [List.length_drop]; omega)
        rw [add64_of_lt (by omega), Nat.add_assoc]
        exact ⟨out, hout, written_trans (by omega) hwritten hrest⟩

theorem write_inside (h : Sound base c) (ho : o + src.length ≤ ChunkType.size E * n) :
    ∃ out, c.write src (base + o) room = .ok out ∧ Written base o src c room out := by
  rw [write, h.at_base, h.size_eq, if_pos (validRange_inside h.in_word ho)]
  exact h.writeLoop src room ho (Nat.lt_succ_self _)

/-! ## Reading -/

/-- A round of reading: the part of the range that is in one entry. -/
theorem Sound.readEntry (h : Sound base c) (hlen : o % ChunkType.size E + k ≤ ChunkType.size E) :
    readEntry (c.entry (o / ChunkType.size E)) k (base + o) = .ok (.ok ((content c).slice o k)) := by
  have hpos := h.size_pos
  have hdiv := Nat.div_add_mod o (ChunkType.size E)
  have hslice : (content c).slice o k = (List.range k).map fun j =>
      (c.entry (o / ChunkType.size E)).elim 0 fun e => content e (o % ChunkType.size E + j) := by
    refine List.map_congr_left fun j hj => ?_
    rw [List.mem_range] at hj
    have hlt : o % ChunkType.size E + j < ChunkType.size E := by omega
    have heq : o + j = ChunkType.size E * (o / ChunkType.size E) + (o % ChunkType.size E + j) := by omega
    have hq : (o + j) / ChunkType.size E = o / ChunkType.size E := by
      conv_lhs => rw [heq]
      rw [Nat.mul_add_div hpos, Nat.div_eq_of_lt hlt, Nat.add_zero]
    have hr : (o + j) % ChunkType.size E = o % ChunkType.size E + j := by
      conv_lhs => rw [heq]
      rw [Nat.mul_add_mod, Nat.mod_eq_of_lt hlt]
    rw [content_eq, hq, hr]
  rw [hslice]
  cases he : c.entry (o / ChunkType.size E) with
  | none => simp [ChunkIndex.readEntry]
  | some e =>
    have hgood := (h.entries he).2
    have hread := LawfulChunk.read_inside hgood hlen
    rw [Nat.add_assoc, hdiv] at hread
    simp only [ChunkIndex.readEntry, Option.filter, LawfulChunk.not_zero hgood]
    exact hread

theorem Sound.readLoop {fuel len : Nat} (h : Sound base c) (ho : o + len ≤ ChunkType.size E * n)
    (hf : len < fuel) : c.readLoop fuel len (base + o) = .ok (.ok ((content c).slice o len)) := by
  induction fuel generalizing o len with
  | zero => omega
  | succ fuel ih =>
    unfold ChunkIndex.readLoop
    by_cases hlen : len = 0
    · subst hlen
      exact if_pos rfl
    have hmod := Nat.mod_lt o h.size_pos
    have hin := h.in_word
    have hi : o / ChunkType.size E < n := Nat.div_lt_of_lt_mul (by omega)
    rw [if_neg hlen, h.indexByOffset (by omega)]
    dsimp only
    rw [if_neg (by omega), h.localPart (by omega)]
    set k := min len (ChunkType.size E - o % ChunkType.size E) with hk
    rw [h.readEntry (by omega)]
    simp only [Exec.ok_bind]
    rw [add64_of_lt (by omega), Nat.add_assoc, ih (by omega) (by omega)]
    simp only [Exec.ok_bind, Except.map]
    rw [← Memory.slice_add, Nat.add_sub_cancel' (by omega)]

theorem read_inside {len : Nat} (h : Sound base c) (ho : o + len ≤ ChunkType.size E * n) :
    c.read len (base + o) = .ok (.ok ((content c).slice o len)) := by
  rw [read, h.at_base, h.size_eq, if_pos (validRange_inside h.in_word ho)]
  exact h.readLoop ho (Nat.lt_succ_self _)

/-! ## Destroying entries -/

/-- What is destroyed is given back. -/
theorem Sound.destroyEntry (h : Sound base c) (i room : Nat) :
    ∃ c' room', c.destroyEntry i room = (c', room') ∧ Sound base c' ∧ c'.numUsed = c.numUsed ∧
      (∀ j, c'.entry j = if j = i then none else c.entry j) ∧
      room' + objects c' = room + objects c := by
  unfold ChunkIndex.destroyEntry
  cases he : c.entry i with
  | none =>
    refine ⟨c, room, rfl, h, rfl, fun j => ?_, rfl⟩
    split
    · next hj => rw [hj, he]
    · rfl
  | some e =>
    obtain ⟨hlt, hgood⟩ := h.entries he
    have hn := h.numUsed_le
    have hobj := objects_setEntry (c := c) (i := i) (by omega) none
    rw [he] at hobj
    simp only [entryObjects, Option.elim_none, Option.elim_some] at hobj
    dsimp only
    rw [if_pos hlt, LawfulChunk.destroyed_eq hgood]
    refine ⟨_, _, rfl, ⟨h.at_base, h.fits, h.pos, h.lt, h.in_word, hn, fun {j e'} hj => ?_⟩, rfl,
      fun j => ?_, by omega⟩
    · rw [entry_setEntry] at hj
      split at hj
      · cases hj
      · exact h.entries hj
    · rw [entry_setEntry]
      by_cases hj : j = i
      · rw [if_pos ⟨hj, by omega⟩, if_pos hj]
      · rw [if_neg (by omega), if_neg hj]

theorem Sound.destroyEntries (h : Sound base c) (k i room : Nat) :
    ∃ c' room', destroyEntries k i c room = (c', room') ∧ Sound base c' ∧ c'.numUsed = c.numUsed ∧
      (∀ j, c'.entry j = if i ≤ j ∧ j < i + k then none else c.entry j) ∧
      room' + objects c' = room + objects c := by
  induction k generalizing c i room with
  | zero => exact ⟨c, room, rfl, h, rfl, fun j => (if_neg (by omega)).symm, rfl⟩
  | succ k ih =>
    obtain ⟨c₁, room₁, hd, h₁, hnum, hentry, hobj⟩ := h.destroyEntry i room
    obtain ⟨c₂, room₂, hd₂, h₂, hnum₂, hentry₂, hobj₂⟩ := ih h₁ (i + 1) room₁
    refine ⟨c₂, room₂, ?_, h₂, hnum₂.trans hnum, fun j => ?_, hobj₂.trans hobj⟩
    · rw [ChunkIndex.destroyEntries, hd, hd₂]
    · rw [hentry₂, hentry]
      by_cases hj : j = i
      · rw [if_neg (by omega), if_pos hj, if_pos (by omega)]
      · by_cases hin : i + 1 ≤ j ∧ j < i + 1 + k
        · rw [if_pos hin, if_pos (by omega)]
        · rw [if_neg hin, if_neg hj, if_neg (by omega)]

theorem Sound.destroyed_eq (h : Sound base c) : destroyed c = objects c := by
  obtain ⟨c', room', hd, h', -, hentry, hobj⟩ := h.destroyEntries n 0 0
  have hnone (j : Nat) : c'.entry j = none := by
    rw [hentry]
    split
    · rfl
    · exact entry_of_le (by omega)
  rw [objects_eq_zero hnone] at hobj
  show (ChunkIndex.destroyEntries n 0 c 0).2 = _
  rw [hd]
  dsimp only
  omega

/-! ## Truncating -/

/-- The end of truncating: all entries behind `i` are gone already. -/
theorem Sound.releaseEmpty (h : Sound base c) (room : Nat) (hi : i < c.numUsed)
    (hbehind : ∀ j, i < j → c.entry j = none) :
    ∃ c' room', c.releaseEmpty i room = (c', room') ∧ Sound base c' ∧ content c' = content c ∧
      room' + objects c' = room + objects c ∧
      usedSize c' ≤ ChunkType.size E * i + (c.entry i).elim 0 ChunkType.usedSize := by
  have hn := h.numUsed_le
  have h₁ : Sound base { c with numUsed := i + 1 } := by
    refine ⟨h.at_base, h.fits, h.pos, h.lt, h.in_word, by dsimp only; omega, fun {j e} hj => ⟨?_, ?_⟩⟩
    · dsimp only
      by_contra hlt
      have := hbehind j (by omega)
      rw [entry_numUsed, this] at hj
      cases hj
    · exact (h.entries hj).2
  unfold ChunkIndex.releaseEmpty
  dsimp only
  rw [entry_numUsed]
  by_cases hempty : (c.entry i).any empty = true
  · rw [if_pos hempty]
    obtain ⟨e, he, hee⟩ := Option.any_eq_true _ _ |>.mp hempty
    have hused := LawfulChunk.usedSize_of_empty (h.entries he).2 hee
    obtain ⟨c₂, room₂, hd, h₂, hnum, hentry, hobj⟩ := h₁.destroyEntry i room
    rw [hd]
    dsimp only
    have hnum : c₂.numUsed = i + 1 := hnum
    have hentry (j : Nat) : c₂.entry j = if j = i then none else c.entry j := hentry j
    have h₃ : Sound base { c₂ with numUsed := c₂.numUsed - 1 } := by
      refine ⟨h₂.at_base, h.fits, h.pos, h.lt, h.in_word, by dsimp only; omega, fun {j e} hj => ⟨?_, ?_⟩⟩
      · dsimp only
        have hj' := hj
        rw [entry_numUsed, hentry] at hj'
        have := (h₂.entries hj).1
        by_cases hji : j = i
        · rw [if_pos hji] at hj'
          cases hj'
        · omega
      · exact (h₂.entries hj).2
    refine ⟨_, _, rfl, h₃, ?_, hobj, ?_⟩
    · funext x
      rw [content_eq, content_eq, entry_numUsed, hentry]
      split
      · next hx =>
        rw [hx, he, Option.elim_none, Option.elim_some]
        exact (LawfulChunk.content_beyond (h.entries he).2 (by omega)).symm
      · rfl
    · refine (h₃.usedSize_le_mul (k := i) ?_).trans (Nat.le_add_right _ _)
      dsimp only
      omega
  · rw [if_neg hempty]
    refine ⟨_, _, rfl, h₁, content_congr fun _ => rfl, rfl, ?_⟩
    exact le_of_eq (h₁.usedSize_eq rfl)

theorem Sound.mul_add_le_usedSize (h : Sound base c) (hi : i < c.numUsed) :
    ChunkType.size E * i + (c.entry i).elim 0 ChunkType.usedSize ≤ usedSize c := by
  by_cases hlast : c.numUsed = i + 1
  · exact le_of_eq (h.usedSize_eq hlast).symm
  · have := h.mul_succ_le_usedSize (k := i) (by omega)
    have := h.entry_usedSize_le (i := i)
    omega

omit [LawfulChunk E] in
/-- Cutting the bytes means to cut one entry and drop all entries behind it. -/
theorem content_cut (hpos : 0 < ChunkType.size E) (hi : i = o / ChunkType.size E)
    (hbefore : ∀ j, j < i → c'.entry j = c.entry j) (hbehind : ∀ j, i < j → c'.entry j = none)
    (hat : ∀ y, (c'.entry i).elim 0 (fun e => content e y) =
      if y < o % ChunkType.size E then (c.entry i).elim 0 (fun e => content e y) else 0) :
    content c' = (content c).cut o := by
  have ho := Nat.div_add_mod o (ChunkType.size E)
  funext x
  have hx := Nat.div_add_mod x (ChunkType.size E)
  have hmod := Nat.mod_lt x hpos
  rw [Memory.cut, content_eq, content_eq]
  rcases Nat.lt_trichotomy (x / ChunkType.size E) i with hlt | heq | hgt
  · have hmul : ChunkType.size E * (x / ChunkType.size E + 1) ≤ ChunkType.size E * i :=
      Nat.mul_le_mul_left _ hlt
    rw [Nat.mul_add_one, hi] at hmul
    rw [hbefore _ hlt, if_pos (by omega)]
  · rw [heq, hat]
    rw [heq, hi] at hx
    by_cases hlt : x < o
    · rw [if_pos (by omega), if_pos hlt]
    · rw [if_neg (by omega), if_neg hlt]
  · have hmul : ChunkType.size E * (i + 1) ≤ ChunkType.size E * (x / ChunkType.size E) :=
      Nat.mul_le_mul_left _ hgt
    have hmod' := Nat.mod_lt o hpos
    rw [Nat.mul_add_one, hi] at hmul
    rw [hbehind _ hgt, if_neg (by omega), Option.elim_none]

/-- The rest of truncating, when all entries are cut. -/
theorem Sound.truncated {room' : Nat} (h : Sound base c) (room : Nat) (hi : o / ChunkType.size E < c.numUsed)
    (h' : Sound base c') (hnum : c'.numUsed = c.numUsed)
    (hobj : room' + objects c' = room + objects c)
    (hbefore : ∀ j, j < o / ChunkType.size E → c'.entry j = c.entry j)
    (hbehind : ∀ j, o / ChunkType.size E < j → c'.entry j = none)
    (hat : ∀ y, (c'.entry (o / ChunkType.size E)).elim 0 (fun e => content e y) =
      if y < o % ChunkType.size E then
        (c.entry (o / ChunkType.size E)).elim 0 (fun e => content e y) else 0)
    (hle : (c'.entry (o / ChunkType.size E)).elim 0 ChunkType.usedSize ≤ o % ChunkType.size E)
    (hused : (c'.entry (o / ChunkType.size E)).elim 0 ChunkType.usedSize ≤
      (c.entry (o / ChunkType.size E)).elim 0 ChunkType.usedSize) :
    ∃ c₂ room₂, c'.releaseEmpty (o / ChunkType.size E) room' = (c₂, room₂) ∧
      Truncated base o c room (.ok (), c₂, room₂) := by
  have hdiv := Nat.div_add_mod o (ChunkType.size E)
  have hc := h.mul_add_le_usedSize hi
  obtain ⟨c₂, room₂, hr, h₂, hcont₂, hobj₂, hused₂⟩ :=
    h'.releaseEmpty room' (hnum ▸ hi) hbehind
  refine ⟨c₂, room₂, hr, rfl, h₂, hobj₂.trans hobj, ?_, ?_, ?_⟩
  · show usedSize c₂ ≤ usedSize c
    omega
  · show usedSize c₂ ≤ o
    omega
  · exact hcont₂.trans (content_cut h.size_pos rfl hbefore hbehind hat)

theorem truncate_inside (h : Sound base c) (ho : o ≤ ChunkType.size E * n) :
    ∃ out, c.truncate (base + o) room = .ok out ∧ Truncated base o c room out := by
  have hpos := h.size_pos
  have hn := h.numUsed_le
  have hdiv := Nat.div_add_mod o (ChunkType.size E)
  have hbeyond (j : Nat) (hj : c.numUsed ≤ j) : c.entry j = none := by
    cases he : c.entry j with
    | none => rfl
    | some e => exact absurd (h.entries he).1 (by omega)
  rw [ChunkIndex.truncate, h.indexByOffset ho]
  by_cases hi : c.numUsed ≤ o / ChunkType.size E
  · have hused := h.usedSize_le_mul hi
    rw [if_pos hi]
    refine ⟨(.ok (), c, room), rfl, rfl, h, rfl, le_rfl, hused.trans (by omega), ?_⟩
    refine content_cut hpos rfl (fun _ _ => rfl) (fun j hj => hbeyond j (by omega)) fun y => ?_
    rw [hbeyond _ hi, Option.elim_none, ite_self]
  rw [if_neg hi, if_neg (by omega)]
  obtain ⟨c₁, room₁, hd, h₁, hnum, hentry, hobj⟩ := h.destroyEntries
    (c.numUsed - (o / ChunkType.size E + 1)) (o / ChunkType.size E + 1) room
  have hle (j : Nat) (hj : j ≤ o / ChunkType.size E) : c₁.entry j = c.entry j := by
    rw [hentry, if_neg (by omega)]
  have hbehind (j : Nat) (hj : o / ChunkType.size E < j) : c₁.entry j = none := by
    rw [hentry]
    split
    · rfl
    · exact hbeyond j (by omega)
  rw [hd]
  dsimp only
  rw [hle _ le_rfl]
  cases he : c.entry (o / ChunkType.size E) with
  | none =>
    have he₁ := (hle _ le_rfl).trans he
    obtain ⟨c₂, room₂, hr, htrunc⟩ := h.truncated room (by omega) h₁ hnum hobj
      (fun j hj => hle j (by omega)) hbehind (fun y => by rw [he₁, he, Option.elim_none, ite_self])
      (by rw [he₁]; exact Nat.zero_le _) (by rw [he₁]; exact Nat.zero_le _)
    rw [hr]
    exact ⟨(.ok (), c₂, room₂), rfl, htrunc⟩
  | some e =>
    have he₁ := (hle _ le_rfl).trans he
    obtain ⟨hlt, hgood⟩ := h₁.entries he₁
    have hmod := Nat.mod_lt o hpos
    obtain ⟨⟨r, e', room'⟩, ht, htrunc⟩ :=
      LawfulChunk.truncate_inside (o := o % ChunkType.size E) room₁ hgood (by omega)
    obtain ⟨hres, hgood', hobj', hused', hoff', hcont'⟩ := htrunc
    dsimp only at hres hgood' hobj' hused' hoff' hcont'
    subst hres
    rw [Nat.add_assoc, hdiv] at ht
    have hset := objects_setEntry (c := c₁) (i := o / ChunkType.size E) (by omega) (some e')
    rw [he₁] at hset
    simp only [entryObjects, Option.elim_some] at hset
    have hself := entry_setEntry_self (c := c₁) (i := o / ChunkType.size E) (by omega) (some e')
    have hother (j : Nat) (hj : j ≠ o / ChunkType.size E) :
        (c₁.setEntry (o / ChunkType.size E) (some e')).entry j = c₁.entry j := by
      rw [entry_setEntry, if_neg (by omega)]
    have hobj₂ : room' + objects (c₁.setEntry (o / ChunkType.size E) (some e')) = room + objects c := by
      omega
    obtain ⟨c₂, room₂, hr, htrunc⟩ := h.truncated room (by omega) (h₁.setEntry hlt hgood') hnum hobj₂
      (fun j hj => (hother j (by omega)).trans (hle j (by omega)))
      (fun j hj => (hother j (by omega)).trans (hbehind j hj))
      (fun y => by rw [hself, he, Option.elim_some, Option.elim_some, hcont']; rfl)
      (by rw [hself]; exact hoff') (by rw [hself, he]; exact hused')
    dsimp only
    rw [ht]
    simp only [Exec.ok_bind]
    rw [hr]
    exact ⟨(.ok (), c₂, room₂), rfl, htrunc⟩

instance : LawfulChunk (ChunkIndex n E) where
  size_pos h := by
    show 0 < ChunkIndex.size n E
    rw [ChunkIndex.size, Nat.mod_eq_of_lt h.2.2.2]
    exact Nat.mul_pos (LawfulChunk.size_pos h.1) h.2.1
  fits h := ⟨h.fits, h.pos, h.lt, by have := h.in_word; omega⟩
  in_word h := by
    have := h.in_word
    rwa [← h.size_eq] at this
  construct_good {base} h hw := by
    have hw : base + ChunkIndex.size n E < 2 ^ 64 := hw
    rw [ChunkIndex.size, Nat.mod_eq_of_lt h.2.2.2] at hw
    refine ⟨rfl, h.1, h.2.1, h.2.2.1, hw, Nat.zero_le _, fun {i e} he => ?_⟩
    have hnone : (construct base : ChunkIndex n E).entry i = none := by
      unfold entry
      split <;> rfl
    rw [hnone] at he
    cases he
  construct_content {base} := by
    funext x
    have hnone : (construct base : ChunkIndex n E).entry (x / ChunkType.size E) = none := by
      unfold entry
      split <;> rfl
    rw [content_eq, hnone, Option.elim_none]
  construct_objects {base} := objects_eq_zero fun i => by
    unfold entry
    split <;> rfl
  construct_usedSize := rfl
  not_zero {base c} h := by
    have hin := h.in_word
    have hle : ChunkType.size E ≤ ChunkType.size E * n := Nat.le_mul_of_pos_right _ h.pos
    have hpos := h.size_pos
    refine decide_eq_false ?_
    rw [h.at_base, zeroOffset]
    omega
  usedSize_le h := by
    show usedSize _ ≤ ChunkIndex.size n E
    rw [h.size_eq]
    exact h.usedSize_le_mul h.numUsed_le
  content_beyond h hx := h.content_beyond hx
  usedSize_of_empty _ he := usedSize_zero (of_decide_eq_true he)
  destroyed_eq h := h.destroyed_eq
  write_inside _ h ho := write_inside h (h.size_eq ▸ ho)
  read_inside h ho := read_inside h (h.size_eq ▸ ho)
  truncate_inside _ h ho := truncate_inside h (h.size_eq ▸ ho)
  write_outside {base o c} src room h ho hlt := by
    have hpos := Nat.mul_pos h.size_pos h.pos
    show c.write src (base + o) room = _
    rw [write, h.at_base, h.size_eq, if_neg (validRange_outside h.in_word hpos hlt (h.size_eq ▸ ho))]
  read_outside {base o c} len h ho hlt := by
    have hpos := Nat.mul_pos h.size_pos h.pos
    show c.read len (base + o) = _
    rw [read, h.at_base, h.size_eq, if_neg (validRange_outside h.in_word hpos hlt (h.size_eq ▸ ho))]

end Lawful

end Genode.Os.RamFs.ChunkIndex
