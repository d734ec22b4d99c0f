import Mathlib.Data.BitVec

/-!
# BitArray — bits in machine words

`util/bit_array.h`. A range of bits is handled word by word: `_mask`
gives the bits of the range in the current word and the number of bits
left for the words behind it. An array has less than 2^32 bits, so
`addr_t` is a natural number here: what passes `_check_range` does not
overflow.
-/

namespace Genode.Util

/-- The exceptions of `Bit_array_base`. The last two are no exceptions
of the code: an access behind the words, and a loop that does not end. -/
inductive BitFault where
  | invalidIndexAccess
  | invalidClear
  | invalidSet
  | wildAccess
  | endless
  deriving DecidableEq, Repr

structure BitArray where
  wordCnt : Nat
  words : Nat → BitVec 64

namespace BitArray

/-- An array of `bits` zero bits, a multiple of the word width. -/
def init (bits : Nat) : BitArray := ⟨bits / 64, fun _ => 0⟩

variable (a : BitArray)

def bits : Nat := a.wordCnt * 64

/-- The value of one bit. -/
def bit (j : Nat) : Bool := (a.words (j / 64)).getLsbD (j % 64)

/-- `_check_range`: the condition under which it throws. -/
def outOfRange (index width : Nat) : Bool :=
  decide (a.bits ≤ index) || decide (a.bits < width) || decide (a.bits - width < index)

/-- `_mask`: the bits of the range in the word of `index`. -/
def mask (index width : Nat) : BitVec 64 :=
  if 64 ≤ width then BitVec.allOnes 64 <<< (index % 64) else ((1#64 <<< width) - 1) <<< (index % 64)

/-- `_mask`: the number of bits behind the word of `index`. -/
def rest (index width : Nat) : Nat :=
  if 64 < width + index % 64 then width + index % 64 - 64 else 0

/-- The first bit of the next word. -/
def nextWord (index : Nat) : Nat := (index / 64 + 1) * 64

/-- The loop of `get`, for at most `n` words. -/
def getLoop : Nat → Nat → Nat → Except BitFault Bool
  | 0, _, _ => .error .endless
  | n + 1, index, width =>
    if a.wordCnt ≤ index / 64 then .error .wildAccess
    else
      let used := decide (a.words (index / 64) &&& mask index width ≠ 0)
      if !used && decide (rest index width ≠ 0) then
        getLoop n (nextWord index) (rest index width)
      else .ok used

/-- `get`: whether a bit of the range is set. -/
def get (index width : Nat) : Except BitFault Bool :=
  if a.outOfRange index width then .error .invalidIndexAccess
  else a.getLoop a.wordCnt index width

def setWord (i : Nat) (w : BitVec 64) : BitArray :=
  { a with words := Function.update a.words i w }

/-- One iteration of `_set`. -/
def setBits (index width : Nat) (free : Bool) : Except BitFault BitArray :=
  let word := a.words (index / 64)
  let mask := mask index width
  if a.wordCnt ≤ index / 64 then .error .wildAccess
  else if free then
    if word &&& mask ≠ mask then .error .invalidClear
    else .ok (a.setWord (index / 64) (word &&& ~~~ mask))
  else
    if word &&& mask ≠ 0 then .error .invalidSet
    else .ok (a.setWord (index / 64) (word ||| mask))

/-- The loop of `_set`, for at most `n` words. The words changed before
an exception stay changed. -/
def setLoop (free : Bool) : Nat → BitArray → Nat → Nat → Except BitFault Unit × BitArray
  | 0, a, _, _ => (.error .endless, a)
  | n + 1, a, index, width =>
    match a.setBits index width free with
    | .error e => (.error e, a)
    | .ok a =>
      if rest index width ≠ 0 then setLoop free n a (nextWord index) (rest index width)
      else (.ok (), a)

/-- `_set`. -/
def setRange (index width : Nat) (free : Bool) : Except BitFault Unit × BitArray :=
  if a.outOfRange index width then (.error .invalidIndexAccess, a)
  else setLoop free a.wordCnt a index width

def set (index width : Nat) : Except BitFault Unit × BitArray := a.setRange index width false

def clear (index width : Nat) : Except BitFault Unit × BitArray := a.setRange index width true

/-! ## One word of a range -/

/-- The bits of a range. -/
def InRange (index width j : Nat) : Prop := index ≤ j ∧ j < index + width

instance (index width j : Nat) : Decidable (InRange index width j) :=
  inferInstanceAs (Decidable (_ ∧ _))

theorem getLsbD_ones {w i : Nat} (hw : w < 64) :
    ((1#64 <<< w) - 1).getLsbD i = decide (i < w) := by
  have hpow : 2 ^ w < 18446744073709551616 := Nat.pow_lt_pow_right (n := 64) (by decide) hw
  have hpos : 0 < 2 ^ w := Nat.two_pow_pos w
  have hone : (1#64 <<< w).toNat = 2 ^ w := by
    simp [Nat.shiftLeft_eq, Nat.mod_eq_of_lt hpow]
  have hval : ((1#64 <<< w) - 1).toNat = 2 ^ w - 1 := by
    rw [BitVec.toNat_sub_of_le]
    · rw [hone]
      rfl
    · rw [BitVec.le_def, hone]
      exact hpos
  rw [← BitVec.testBit_toNat, hval, Nat.testBit_two_pow_sub_one]

theorem getLsbD_mask {index j : Nat} (width : Nat) (hj : j / 64 = index / 64) :
    (mask index width).getLsbD (j % 64) = decide (InRange index width j) := by
  have hmod : j % 64 < 64 := Nat.mod_lt _ (by decide)
  have hindex : index % 64 < 64 := Nat.mod_lt _ (by decide)
  unfold mask
  by_cases hw : 64 ≤ width
  · rw [if_pos hw, BitVec.getLsbD_shiftLeft, BitVec.getLsbD_allOnes]
    simp only [hmod, decide_true, Bool.true_and]
    by_cases hlt : j % 64 < index % 64
    · have : ¬ index ≤ j := by omega
      simp [InRange, hlt, this]
    · have h1 : index ≤ j := by omega
      have h2 : j < index + width := by omega
      have h3 : j % 64 - index % 64 < 64 := by omega
      simp [InRange, hlt, h1, h2, h3]
  · rw [if_neg hw, BitVec.getLsbD_shiftLeft, getLsbD_ones (by omega)]
    simp only [hmod, decide_true, Bool.true_and]
    by_cases hlt : j % 64 < index % 64
    · have : ¬ index ≤ j := by omega
      simp [InRange, hlt, this]
    · have h1 : index ≤ j := by omega
      have h2 : j % 64 - index % 64 < width ↔ j < index + width := by omega
      simp [InRange, hlt, h1, h2]

/-- A bit of the range is in the first word or in the rest. -/
theorem inRange_iff {index width j : Nat} :
    InRange index width j ↔
      (j / 64 = index / 64 ∧ InRange index width j) ∨
        InRange (nextWord index) (rest index width) j := by
  unfold InRange nextWord rest
  split <;> omega

theorem rest_lt {index width : Nat} (h : rest index width ≠ 0) :
    rest index width < width ∧ nextWord index + rest index width = index + width := by
  unfold rest nextWord at *
  split at h
  · rename_i hlt
    simp only [hlt, if_true]
    omega
  · simp at h

theorem outOfRange_eq_false {index width : Nat} :
    a.outOfRange index width = false ↔ index < a.bits ∧ index + width ≤ a.bits := by
  simp only [outOfRange, Bool.or_eq_false_iff, decide_eq_false_iff_not]
  omega

theorem ne_zero_iff {x : BitVec 64} : x ≠ 0 ↔ ∃ i, i < 64 ∧ x.getLsbD i = true := by
  constructor
  · intro h
    by_contra hno
    refine h (BitVec.eq_of_getLsbD_eq fun i hi => ?_)
    have hx : x.getLsbD i = false := by
      by_contra hne
      exact hno ⟨i, hi, Bool.eq_true_of_not_eq_false hne⟩
    simpa using hx
  · rintro ⟨i, -, hi⟩ rfl
    simp at hi

/-- The test of one word. -/
theorem and_mask_ne_zero {index width : Nat} :
    a.words (index / 64) &&& mask index width ≠ 0 ↔
      ∃ j, (j / 64 = index / 64 ∧ InRange index width j) ∧ a.bit j = true := by
  rw [ne_zero_iff]
  constructor
  · rintro ⟨i, hi, hbit⟩
    have hdiv : (index / 64 * 64 + i) / 64 = index / 64 := by omega
    have hmod : (index / 64 * 64 + i) % 64 = i := by omega
    rw [BitVec.getLsbD_and, Bool.and_eq_true] at hbit
    refine ⟨index / 64 * 64 + i, ⟨hdiv, ?_⟩, ?_⟩
    · have hmask := getLsbD_mask width hdiv
      rw [hmod, hbit.2] at hmask
      exact of_decide_eq_true hmask.symm
    · rw [bit, hdiv, hmod]
      exact hbit.1
  · rintro ⟨j, ⟨hdiv, hrange⟩, hbit⟩
    refine ⟨j % 64, Nat.mod_lt _ (by decide), ?_⟩
    rw [BitVec.getLsbD_and, getLsbD_mask width hdiv, decide_eq_true hrange, Bool.and_true, ← hdiv]
    exact hbit

/-! ## Ranges -/

variable {a}

theorem getLoop_spec {n : Nat} (index width : Nat) (hn : a.wordCnt ≤ n + index / 64)
    (hindex : index < a.bits) (hw : index + width ≤ a.bits) :
    ∃ used, a.getLoop n index width = .ok used ∧
      (used = true ↔ ∃ j, InRange index width j ∧ a.bit j = true) := by
  have hword : index / 64 < a.wordCnt := by
    rw [Nat.div_lt_iff_lt_mul (by decide)]
    exact hindex
  induction n generalizing index width with
  | zero => omega
  | succ n ih =>
    unfold getLoop
    rw [if_neg (by omega)]
    dsimp only
    by_cases hused : a.words (index / 64) &&& mask index width ≠ 0
    · rw [decide_eq_true hused]
      refine ⟨true, rfl, fun _ => ?_, fun _ => rfl⟩
      obtain ⟨j, ⟨-, hj⟩, hbit⟩ := a.and_mask_ne_zero.mp hused
      exact ⟨j, hj, hbit⟩
    · rw [decide_eq_false hused]
      have hfirst : ∀ j, j / 64 = index / 64 → InRange index width j → a.bit j = false := by
        intro j hdiv hj
        by_contra hne
        exact hused (a.and_mask_ne_zero.mpr ⟨j, ⟨hdiv, hj⟩, Bool.eq_true_of_not_eq_false hne⟩)
      have hsplit : (∃ j, InRange index width j ∧ a.bit j = true) ↔
          ∃ j, InRange (nextWord index) (rest index width) j ∧ a.bit j = true := by
        constructor
        · rintro ⟨j, hj, hbit⟩
          rcases inRange_iff.mp hj with ⟨hdiv, hj'⟩ | hj'
          · exact absurd hbit (by simp [hfirst j hdiv hj'])
          · exact ⟨j, hj', hbit⟩
        · rintro ⟨j, hj, hbit⟩
          exact ⟨j, inRange_iff.mpr (.inr hj), hbit⟩
      by_cases hrest : rest index width ≠ 0
      · rw [decide_eq_true hrest]
        obtain ⟨hlt, hend⟩ := rest_lt hrest
        obtain ⟨used, hloop, hiff⟩ := ih (nextWord index) (rest index width)
          (by unfold nextWord; omega) (by omega) (by omega) (by unfold nextWord bits at *; omega)
        exact ⟨used, hloop, hiff.trans hsplit.symm⟩
      · rw [decide_eq_false hrest]
        refine ⟨false, rfl, ?_⟩
        rw [hsplit, not_not.mp hrest]
        simp [InRange]

theorem get_spec {index width : Nat} (hindex : index < a.bits) (hw : index + width ≤ a.bits) :
    ∃ used, a.get index width = .ok used ∧
      (used = true ↔ ∃ j, InRange index width j ∧ a.bit j = true) := by
  unfold get
  rw [a.outOfRange_eq_false.mpr ⟨hindex, hw⟩]
  exact getLoop_spec index width (by omega) hindex hw

theorem get_outOfRange {index width : Nat} (h : ¬ (index < a.bits ∧ index + width ≤ a.bits)) :
    a.get index width = .error .invalidIndexAccess := by
  have hout : a.outOfRange index width = true := by
    by_contra hne
    exact h (a.outOfRange_eq_false.mp (Bool.eq_false_of_not_eq_true hne))
  rw [get, if_pos hout]

/-- The bits of `b` are those of `a`, except for `p`, where they are `v`. -/
structure Changed (a b : BitArray) (p : Nat → Prop) (v : Bool) : Prop where
  wordCnt : b.wordCnt = a.wordCnt
  inside : ∀ j, p j → b.bit j = v
  outside : ∀ j, ¬ p j → b.bit j = a.bit j

theorem bit_setWord {i j : Nat} {w : BitVec 64} :
    (a.setWord i w).bit j = if j / 64 = i then w.getLsbD (j % 64) else a.bit j := by
  unfold bit setWord
  dsimp only
  by_cases h : j / 64 = i
  · rw [h, Function.update_self, if_pos rfl]
  · rw [Function.update_of_ne h, if_neg h]

/-- One iteration of `_set` succeeds if the bits have the right value. -/
theorem setBits_spec {index width : Nat} {free : Bool} (hword : index / 64 < a.wordCnt)
    (hbits : ∀ j, j / 64 = index / 64 → InRange index width j → a.bit j = free) :
    ∃ b, a.setBits index width free = .ok b ∧
      Changed a b (fun j => j / 64 = index / 64 ∧ InRange index width j) (!free) := by
  unfold setBits
  dsimp only
  rw [if_neg (by omega)]
  cases free with
  | false =>
    have hzero : ¬ a.words (index / 64) &&& mask index width ≠ 0 := by
      intro hne
      obtain ⟨j, ⟨hdiv, hj⟩, hbit⟩ := a.and_mask_ne_zero.mp hne
      simp [hbits j hdiv hj] at hbit
    rw [if_neg (by simp), if_neg hzero]
    refine ⟨_, rfl, rfl, fun j hj => ?_, fun j hj => ?_⟩
    · rw [bit_setWord, if_pos hj.1, BitVec.getLsbD_or, getLsbD_mask width hj.1, decide_eq_true hj.2]
      simp
    · rw [bit_setWord]
      split
      · rename_i hdiv
        have hno : ¬ InRange index width j := fun h => hj ⟨hdiv, h⟩
        rw [BitVec.getLsbD_or, getLsbD_mask width hdiv, decide_eq_false hno, Bool.or_false, bit, hdiv]
      · rfl
  | true =>
    have hall : a.words (index / 64) &&& mask index width = mask index width := by
      refine BitVec.eq_of_getLsbD_eq fun i hi => ?_
      have hdiv : (index / 64 * 64 + i) / 64 = index / 64 := by omega
      have hmod : (index / 64 * 64 + i) % 64 = i := by omega
      have hmask := getLsbD_mask width hdiv
      rw [hmod] at hmask
      rw [BitVec.getLsbD_and, hmask]
      by_cases hr : InRange index width (index / 64 * 64 + i)
      · have hbit := hbits _ hdiv hr
        rw [bit, hdiv, hmod] at hbit
        simp [hbit]
      · simp [hr]
    rw [if_pos rfl, if_neg (not_not.mpr hall)]
    refine ⟨_, rfl, rfl, fun j hj => ?_, fun j hj => ?_⟩
    · rw [bit_setWord, if_pos hj.1, BitVec.getLsbD_and, BitVec.getLsbD_not, getLsbD_mask width hj.1,
        decide_eq_true hj.2]
      simp
    · rw [bit_setWord]
      split
      · rename_i hdiv
        have hno : ¬ InRange index width j := fun h => hj ⟨hdiv, h⟩
        have hmod : j % 64 < 64 := Nat.mod_lt _ (by decide)
        rw [BitVec.getLsbD_and, BitVec.getLsbD_not, getLsbD_mask width hdiv, decide_eq_false hno, bit,
          hdiv]
        simp [hmod]
      · rfl

/-- One iteration changes one word only. -/
theorem setBits_frame {b : BitArray} {index width : Nat} {free : Bool}
    (hb : a.setBits index width free = .ok b) :
    b.wordCnt = a.wordCnt ∧ ∀ j, j / 64 ≠ index / 64 → b.bit j = a.bit j := by
  unfold setBits at hb
  dsimp only at hb
  split at hb
  · cases hb
  · split at hb <;> split at hb <;> cases hb <;>
      exact ⟨rfl, fun j hj => by rw [bit_setWord, if_neg hj]⟩

/-- An array keeps its size, also when an exception leaves the loop. -/
theorem wordCnt_setLoop (free : Bool) (n : Nat) (a : BitArray) (index width : Nat) :
    (setLoop free n a index width).2.wordCnt = a.wordCnt := by
  induction n generalizing a index width with
  | zero => rfl
  | succ n ih =>
    unfold setLoop
    cases hb : a.setBits index width free with
    | error e => rfl
    | ok b =>
      have hcnt : b.wordCnt = a.wordCnt := (setBits_frame hb).1
      dsimp only
      split
      · rw [ih, hcnt]
      · exact hcnt

theorem wordCnt_setRange (a : BitArray) (index width : Nat) (free : Bool) :
    (a.setRange index width free).2.wordCnt = a.wordCnt := by
  unfold setRange
  split
  · rfl
  · exact wordCnt_setLoop free _ a index width

theorem setLoop_spec {n : Nat} {free : Bool} (index width : Nat) (hn : a.wordCnt ≤ n + index / 64)
    (hindex : index < a.bits) (hw : index + width ≤ a.bits)
    (hbits : ∀ j, InRange index width j → a.bit j = free) :
    ∃ b, setLoop free n a index width = (.ok (), b) ∧
      Changed a b (InRange index width) (!free) := by
  have hword : index / 64 < a.wordCnt := by
    rw [Nat.div_lt_iff_lt_mul (by decide)]
    exact hindex
  induction n generalizing a index width with
  | zero => omega
  | succ n ih =>
    obtain ⟨b, hb, hc⟩ := setBits_spec hword fun j _ hj => hbits j hj
    have hcnt : b.bits = a.bits := by rw [bits, bits, hc.wordCnt]
    unfold setLoop
    rw [hb]
    dsimp only
    by_cases hrest : rest index width ≠ 0
    · rw [if_pos hrest]
      obtain ⟨hlt, hend⟩ := rest_lt hrest
      have hnext : ∀ j, InRange (nextWord index) (rest index width) j → ¬ j / 64 = index / 64 := by
        intro j hj
        unfold InRange nextWord at hj
        omega
      obtain ⟨b', hb', hc'⟩ := ih (a := b) (nextWord index) (rest index width)
        (by rw [hc.wordCnt]; unfold nextWord; omega) (by omega) (by omega)
        (fun j hj => by
          rw [hc.outside j fun h => hnext j hj h.1]
          exact hbits j (inRange_iff.mpr (.inr hj)))
        (by rw [hc.wordCnt]; unfold nextWord bits at *; omega)
      refine ⟨b', hb', hc'.wordCnt.trans hc.wordCnt, fun j hj => ?_, fun j hj => ?_⟩
      · by_cases hr : InRange (nextWord index) (rest index width) j
        · exact hc'.inside j hr
        · rw [hc'.outside j hr]
          exact hc.inside j ((inRange_iff.mp hj).resolve_right hr)
      · rw [hc'.outside j fun h => hj (inRange_iff.mpr (.inr h)), hc.outside j fun h => hj h.2]
    · rw [if_neg hrest]
      refine ⟨b, rfl, hc.wordCnt, fun j hj => ?_, fun j hj => hc.outside j fun h => hj h.2⟩
      refine hc.inside j ((inRange_iff.mp hj).resolve_right fun h => ?_)
      rw [not_not.mp hrest] at h
      unfold InRange at h
      omega

/-- A range of bits that are all `free` can be cleared, or set if they
are not. -/
theorem setRange_spec {index width : Nat} (free : Bool) (hindex : index < a.bits)
    (hw : index + width ≤ a.bits) (hbits : ∀ j, InRange index width j → a.bit j = free) :
    ∃ b, a.setRange index width free = (.ok (), b) ∧
      Changed a b (InRange index width) (!free) := by
  unfold setRange
  rw [a.outOfRange_eq_false.mpr ⟨hindex, hw⟩]
  exact setLoop_spec index width (by omega) hindex hw hbits

/-! ## Exceptions

`_set` checks a word before it changes it, but it goes on to the next
word only after it has changed the one before. -/

/-- What a call leaves behind if it throws. -/
def UnchangedOnError (a : BitArray) (r : Except BitFault Unit × BitArray) : Prop :=
  ∀ e, r.1 = .error e → r.2 = a

/-- If there is a bit in the way at all, there is one in the first word. -/
def ConflictsFirst (a : BitArray) (index width : Nat) (free : Bool) : Prop :=
  ∀ j, InRange index width j → a.bit j ≠ free →
    ∃ i, InRange index width i ∧ i / 64 = index / 64 ∧ a.bit i ≠ free

variable {index width : Nat} {free : Bool}

theorem setBits_error {j : Nat} (hj : j / 64 = index / 64 ∧ InRange index width j)
    (hbit : a.bit j ≠ free) : ∃ e, a.setBits index width free = .error e := by
  unfold setBits
  dsimp only
  by_cases hword : a.wordCnt ≤ index / 64
  · rw [if_pos hword]
    exact ⟨_, rfl⟩
  · rw [if_neg hword]
    cases free with
    | false =>
      have hne : a.words (index / 64) &&& mask index width ≠ 0 :=
        a.and_mask_ne_zero.mpr ⟨j, hj, Bool.eq_true_of_not_eq_false hbit⟩
      rw [if_neg (by simp), if_pos hne]
      exact ⟨_, rfl⟩
    | true =>
      have hne : a.words (index / 64) &&& mask index width ≠ mask index width := by
        intro heq
        have hmask := getLsbD_mask width hj.1
        rw [← heq, BitVec.getLsbD_and, decide_eq_true hj.2, Bool.and_eq_true, ← hj.1] at hmask
        exact hbit hmask.1
      rw [if_pos rfl, if_pos hne]
      exact ⟨_, rfl⟩

/-- The words in front of the range are left alone. -/
theorem bit_setLoop {n j : Nat} (hj : j / 64 < index / 64) :
    (setLoop free n a index width).2.bit j = a.bit j := by
  induction n generalizing a index width with
  | zero => rfl
  | succ n ih =>
    unfold setLoop
    cases hb : a.setBits index width free with
    | error e => rfl
    | ok b =>
      have hsame : b.bit j = a.bit j := (setBits_frame hb).2 j (Nat.ne_of_lt hj)
      have hnext : j / 64 < nextWord index / 64 := by
        unfold nextWord
        omega
      dsimp only
      split
      · rw [ih hnext, hsame]
      · exact hsame

/-- The loop throws if there is a bit in the way. -/
theorem setLoop_error {n j : Nat} (hj : InRange index width j) (hbit : a.bit j ≠ free) :
    ∃ e, (setLoop free n a index width).1 = .error e := by
  induction n generalizing a index width with
  | zero => exact ⟨_, rfl⟩
  | succ n ih =>
    unfold setLoop
    cases hb : a.setBits index width free with
    | error e => exact ⟨e, rfl⟩
    | ok b =>
      have hdiv : j / 64 ≠ index / 64 := by
        intro hdiv
        obtain ⟨e, he⟩ := setBits_error ⟨hdiv, hj⟩ hbit
        rw [he] at hb
        cases hb
      have hrest : InRange (nextWord index) (rest index width) j :=
        (inRange_iff.mp hj).resolve_left fun h => hdiv h.1
      have hsame : b.bit j = a.bit j := (setBits_frame hb).2 j hdiv
      have hne : rest index width ≠ 0 := by
        intro h0
        rw [h0] at hrest
        exact absurd hrest.2 (Nat.not_lt_of_le hrest.1)
      dsimp only
      rw [if_pos hne]
      exact ih hrest (hsame ▸ hbit)

/-- An exception leaves the array unchanged exactly if the range is
outside the array or the first word already has a bit in the way. -/
theorem setRange_unchanged_iff : UnchangedOnError a (a.setRange index width free) ↔
    a.outOfRange index width = true ∨ ConflictsFirst a index width free := by
  cases hout : a.outOfRange index width with
  | true =>
    refine ⟨fun _ => .inl rfl, fun _ e _ => ?_⟩
    rw [setRange, if_pos hout]
  | false =>
    obtain ⟨hindex, hw⟩ := a.outOfRange_eq_false.mp hout
    have hword : index / 64 < a.wordCnt := by
      rw [Nat.div_lt_iff_lt_mul (by decide)]
      exact hindex
    by_cases hall : ∀ j, InRange index width j → a.bit j = free
    · -- the call does not throw
      obtain ⟨b, hb, -⟩ := setRange_spec free hindex hw hall
      refine ⟨fun _ => .inr fun j hj hne => absurd (hall j hj) hne, fun _ e he => ?_⟩
      rw [hb] at he
      cases he
    obtain ⟨j, hj, hne⟩ : ∃ j, InRange index width j ∧ a.bit j ≠ free := by
      by_contra hno
      exact hall fun j hj => by_contra fun hne => hno ⟨j, hj, hne⟩
    have hset : a.setRange index width free = setLoop free a.wordCnt a index width := by
      rw [setRange, hout, if_neg (by simp)]
    obtain ⟨n, hn⟩ : ∃ n, a.wordCnt = n + 1 := ⟨a.wordCnt - 1, by omega⟩
    rw [hset, hn]
    by_cases hfirst : ∃ i, (i / 64 = index / 64 ∧ InRange index width i) ∧ a.bit i ≠ free
    · obtain ⟨i, hi, hbit⟩ := hfirst
      obtain ⟨e, he⟩ := setBits_error hi hbit
      refine ⟨fun _ => .inr fun _ _ _ => ⟨i, hi.2, hi.1, hbit⟩, fun _ _ _ => ?_⟩
      rw [setLoop, he]
    · -- the first word is changed before the exception
      have hright : ∀ i, i / 64 = index / 64 → InRange index width i → a.bit i = free :=
        fun i hdiv hi => by_contra fun hbit => hfirst ⟨i, ⟨hdiv, hi⟩, hbit⟩
      obtain ⟨b, hb, hchanged⟩ := setBits_spec hword hright
      have hindexIn : InRange index width index := ⟨le_rfl, by have := hj.1; have := hj.2; omega⟩
      obtain ⟨e, he⟩ := setLoop_error (n := n + 1) hj hne
      have hafter : (setLoop free (n + 1) a index width).2.bit index = !free := by
        unfold setLoop
        rw [hb]
        dsimp only
        split
        · rw [bit_setLoop (by unfold nextWord; omega)]
          exact hchanged.inside index ⟨rfl, hindexIn⟩
        · exact hchanged.inside index ⟨rfl, hindexIn⟩
      constructor
      · intro hun
        rw [hun e he, hright index rfl hindexIn] at hafter
        cases free <;> simp at hafter
      · intro hcond
        rcases hcond with hfalse | hconf
        · cases hfalse
        · obtain ⟨i, hi, hdiv, hbit⟩ := hconf j hj hne
          exact absurd (hright i hdiv hi) hbit

/-- `set` and `clear` take back what they did before an exception only
if they have done nothing. -/
theorem unchangedOnError_iff (a : BitArray) (index width : Nat) :
    (UnchangedOnError a (a.set index width) ↔
      a.outOfRange index width = true ∨ ConflictsFirst a index width false) ∧
    (UnchangedOnError a (a.clear index width) ↔
      a.outOfRange index width = true ∨ ConflictsFirst a index width true) :=
  ⟨setRange_unchanged_iff, setRange_unchanged_iff⟩

/-- Of two words, the second has a bit in the way. -/
theorem set_changed_on_error :
    ¬ ∀ (a : BitArray) (index width : Nat), UnchangedOnError a (a.set index width) ∧
      UnchangedOnError a (a.clear index width) := by
  intro h
  have hset := (h ⟨2, fun i => if i = 1 then 1 else 0⟩ 0 128).1 .invalidSet (by decide)
  have hbit := congrArg (fun b => b.bit 0) hset
  revert hbit
  decide

end BitArray

end Genode.Util
