import Mathlib.Data.Finset.Basic
import Genode.Lib.Run

/-!
# RecvCaps — slab entries for received capabilities

The part of `kernel/thread.cc` that provides memory for the capabilities
of an incoming message. Before a thread waits for a message, it fills
slots with entries of the capability slab of its protection domain. A
transfer uses up the entries for which it makes a reference; the others
stay in their slots for later calls. The destructor of the thread gives
back what is left.

The slab and the sender are outside: an operation comes with the answers
of the slab, and with what the lookup of each sent capability finds.
-/

namespace Genode.Kernel

open Lib

/-- `Allocator::Alloc_error`. -/
inductive AllocError where
  | denied
  | outOfRam
  | outOfCaps
  deriving DecidableEq, Repr

/-- What the lookups for a sent capability find: no reference of the
sender, a reference that the receiver already has, or one that it lacks,
with or without an object identity. -/
inductive SentCap where
  | invalid
  | known
  | unknown (identity : Bool)
  deriving DecidableEq, Repr

/-- The slots of a thread and the slab entries it took. -/
structure RecvCaps (ε : Type) where
  /-- `_obj_id_ref_ptr` and `_ipc_rcv_caps`. -/
  slots : Nat → Option ε
  rcvCaps : Nat
  /-- The entries obtained from the slab and not given back, and those
  that hold an `Object_identity_reference`. -/
  taken : Finset ε
  inUse : Finset ε

namespace RecvCaps

variable {ε : Type} [DecidableEq ε]

def init : RecvCaps ε := ⟨fun _ => none, 0, ∅, ∅⟩

def maxRcvCaps : Nat := 4

variable (s : RecvCaps ε)

/-- An access to `_obj_id_ref_ptr`. -/
def slot (i : Nat) : Exec (Option ε) :=
  if i < maxRcvCaps then .ok (s.slots i) else .error .pointer

def setSlot (i : Nat) (x : Option ε) : RecvCaps ε :=
  { s with slots := Function.update s.slots i x }

/-- An entry from the slab goes to a slot. -/
def grant (i : Nat) (e : ε) : RecvCaps ε :=
  { s.setSlot i (some e) with taken := insert e s.taken }

/-- The entry of a slot becomes a reference. -/
def use (i : Nat) (e : ε) : RecvCaps ε :=
  { s.setSlot i none with inUse := insert e s.inUse }

/-- The loop of `_ipc_alloc_recv_caps` over `n` slots from `i` on. It is
left by an exception if the slab is exhausted. -/
def allocLoop : Nat → Nat → List (Except AllocError ε) → RecvCaps ε → Exec (Bool × RecvCaps ε)
  | 0, _, _, s => .ok (true, s)
  | n + 1, i, answers, s => do
    match ← s.slot i, answers with
    | some _, _ => allocLoop n (i + 1) answers s
    | none, .ok e :: answers => allocLoop n (i + 1) answers (s.grant i e)
    | none, .error .denied :: _ => .ok (false, s)
    | none, .error _ :: answers => allocLoop n (i + 1) answers s
    | none, [] => .ok (false, s)

/-- `_ipc_alloc_recv_caps`: whether it returned, and the state. -/
def ipcAllocRecvCaps (capCount : Nat) (answers : List (Except AllocError ε)) :
    Exec (Bool × RecvCaps ε) := do
  let (done, s) ← allocLoop capCount 0 answers s
  .ok (done, if done then { s with rcvCaps := capCount } else s)

/-- The loop of `ipc_copy_msg` over `n` capabilities from `i` on. -/
def copyLoop (core : Bool) (caps : List SentCap) : Nat → Nat → RecvCaps ε → Exec (RecvCaps ε)
  | 0, _, s => .ok s
  | n + 1, i, s =>
    match caps[i]? with
    | some (.unknown identity) =>
      if core then copyLoop core caps n (i + 1) s
      else do
        let x ← s.slot i
        if identity then do
          let e ← Exec.deref x
          copyLoop core caps n (i + 1) (s.use i e)
        else copyLoop core caps n (i + 1) s
    | _ => copyLoop core caps n (i + 1) s

/-- `ipc_copy_msg`, as far as the slots are concerned. -/
def ipcCopyMsg (core : Bool) (caps : List SentCap) : Exec (RecvCaps ε) :=
  copyLoop core caps s.rcvCaps 0 s

/-- The destruction of a reference, by `_call_delete_cap` or with the
protection domain. -/
def deleteCap (e : ε) : RecvCaps ε :=
  { s with taken := s.taken.erase e, inUse := s.inUse.erase e }

/-- The loop of `_ipc_free_recv_caps` over `n` slots from `i` on, with
the entries given back. -/
def freeLoop : Nat → Nat → List ε → RecvCaps ε → Exec (List ε × RecvCaps ε)
  | 0, _, freed, s => .ok (freed, s)
  | n + 1, i, freed, s => do
    match ← s.slot i with
    | none => freeLoop n (i + 1) freed s
    | some e => freeLoop n (i + 1) (freed ++ [e]) { s with taken := s.taken.erase e }

/-- `_ipc_free_recv_caps`. -/
def ipcFreeRecvCaps : Exec (List ε × RecvCaps ε) := do
  let (freed, s) ← freeLoop s.rcvCaps 0 [] s
  .ok (freed, { s with rcvCaps := 0 })

/-! ## Who holds an entry -/

/-- Each entry is in one slot or in use. -/
structure Inv (s : RecvCaps ε) : Prop where
  taken : ∀ e, e ∈ s.taken ↔ (∃ i, s.slots i = some e) ∨ e ∈ s.inUse
  apart : ∀ e i, s.slots i = some e → e ∉ s.inUse
  unique : ∀ e i j, s.slots i = some e → s.slots j = some e → i = j
  bound : ∀ i e, s.slots i = some e → i < maxRcvCaps
  count : s.rcvCaps ≤ maxRcvCaps

omit [DecidableEq ε] in
theorem inv_init : Inv (init : RecvCaps ε) := by
  refine ⟨?_, ?_, ?_, ?_, ?_⟩ <;> simp [init]

variable {s} {e : ε} {i n : Nat}

omit [DecidableEq ε] in
theorem slot_of_lt (hi : i < maxRcvCaps) : s.slot i = .ok (s.slots i) := if_pos hi

theorem Inv.grant (h : Inv s) (hi : i < maxRcvCaps) (hnone : s.slots i = none)
    (he : e ∉ s.taken) : Inv (s.grant i e) := by
  have hno : ∀ j, s.slots j ≠ some e := fun j hj => he ((h.taken e).mpr (.inl ⟨j, hj⟩))
  have hslot : ∀ {e' j}, (s.grant i e).slots j = some e' →
      (j = i ∧ e' = e) ∨ (j ≠ i ∧ s.slots j = some e') := by
    intro e' j hj
    by_cases hji : j = i
    · subst hji
      exact .inl ⟨rfl, by simpa [RecvCaps.grant, setSlot, eq_comm] using hj⟩
    · exact .inr ⟨hji, by simpa [RecvCaps.grant, setSlot, hji] using hj⟩
  refine ⟨fun e' => ?_, fun e' j hj => ?_, fun e' j k hj hk => ?_, fun j e' hj => ?_, h.count⟩
  · have hmem : e' ∈ (s.grant i e).taken ↔ e' = e ∨ e' ∈ s.taken := Finset.mem_insert
    rw [hmem, h.taken]
    constructor
    · rintro (rfl | ⟨j, hj⟩ | hu)
      · exact .inl ⟨i, by simp [RecvCaps.grant, setSlot]⟩
      · have hji : j ≠ i := by
          rintro rfl
          simp [hnone] at hj
        exact .inl ⟨j, by simpa [RecvCaps.grant, setSlot, hji] using hj⟩
      · exact .inr hu
    · rintro (⟨j, hj⟩ | hu)
      · rcases hslot hj with ⟨-, rfl⟩ | ⟨-, hj'⟩
        · exact .inl rfl
        · exact .inr (.inl ⟨j, hj'⟩)
      · exact .inr (.inr hu)
  · rcases hslot hj with ⟨-, rfl⟩ | ⟨-, hj'⟩
    · exact fun hu => he ((h.taken _).mpr (.inr hu))
    · exact h.apart e' j hj'
  · rcases hslot hj with ⟨rfl, rfl⟩ | ⟨-, hj'⟩
    · rcases hslot hk with ⟨rfl, -⟩ | ⟨-, hk'⟩
      · rfl
      · exact absurd hk' (hno k)
    · rcases hslot hk with ⟨-, rfl⟩ | ⟨-, hk'⟩
      · exact absurd hj' (hno j)
      · exact h.unique e' j k hj' hk'
  · rcases hslot hj with ⟨rfl, -⟩ | ⟨-, hj'⟩
    · exact hi
    · exact h.bound j e' hj'

theorem Inv.use (h : Inv s) (hi : s.slots i = some e) : Inv (s.use i e) := by
  have hslot : ∀ {e' j}, (s.use i e).slots j = some e' → j ≠ i ∧ s.slots j = some e' := by
    intro e' j hj
    by_cases hji : j = i
    · subst hji
      simp [RecvCaps.use, setSlot] at hj
    · exact ⟨hji, by simpa [RecvCaps.use, setSlot, hji] using hj⟩
  have hmem : ∀ {e'}, e' ∈ (s.use i e).inUse ↔ e' = e ∨ e' ∈ s.inUse := Finset.mem_insert
  refine ⟨fun e' => ?_, fun e' j hj => ?_, fun e' j k hj hk => ?_, fun j e' hj => ?_, h.count⟩
  · rw [hmem]
    have hold := h.taken e'
    constructor
    · intro ht
      rcases hold.mp ht with ⟨j, hj⟩ | hu
      · by_cases hji : j = i
        · subst hji
          exact .inr (.inl (Option.some.inj (hj.symm.trans hi)))
        · exact .inl ⟨j, by simpa [RecvCaps.use, setSlot, hji] using hj⟩
      · exact .inr (.inr hu)
    · rintro (⟨j, hj⟩ | rfl | hu)
      · exact hold.mpr (.inl ⟨j, (hslot hj).2⟩)
      · exact hold.mpr (.inl ⟨i, hi⟩)
      · exact hold.mpr (.inr hu)
  · obtain ⟨hji, hj'⟩ := hslot hj
    rw [hmem]
    rintro (rfl | hu)
    · exact hji (h.unique _ j i hj' hi)
    · exact h.apart e' j hj' hu
  · exact h.unique e' j k (hslot hj).2 (hslot hk).2
  · exact h.bound j e' (hslot hj).2

/-! ## The loops -/

/-- The entries among the answers of the slab. -/
def granted (answers : List (Except AllocError ε)) : List ε :=
  answers.filterMap Except.toOption

/-- The slab gives out each entry at most once until it gets it back. -/
def Grants (s : RecvCaps ε) (answers : List (Except AllocError ε)) : Prop :=
  (granted answers).Nodup ∧ ∀ e ∈ granted answers, e ∉ s.taken

instance (s : RecvCaps ε) (answers : List (Except AllocError ε)) : Decidable (Grants s answers) :=
  inferInstanceAs (Decidable (_ ∧ _))

theorem Inv.allocLoop {answers : List (Except AllocError ε)} (h : Inv s)
    (hg : Grants s answers) (hn : i + n ≤ maxRcvCaps) :
    ∃ done s', RecvCaps.allocLoop n i answers s = .ok (done, s') ∧ Inv s' := by
  induction n generalizing i answers s with
  | zero => exact ⟨true, s, rfl, h⟩
  | succ n ih =>
    unfold RecvCaps.allocLoop
    rw [slot_of_lt (by omega), Exec.ok_bind]
    cases hs : s.slots i with
    | some e => exact ih h hg (by omega)
    | none =>
      cases answers with
      | nil => exact ⟨false, s, rfl, h⟩
      | cons x answers =>
        cases x with
        | ok e =>
          obtain ⟨hnodup, hfresh⟩ := hg
          have hcons : granted (.ok e :: answers) = e :: granted answers := rfl
          rw [hcons] at hnodup hfresh
          obtain ⟨hne, hnodup⟩ := List.nodup_cons.mp hnodup
          refine ih (h.grant (by omega) hs (hfresh e (by simp))) ⟨hnodup, fun e' he' => ?_⟩
            (by omega)
          rw [RecvCaps.grant, Finset.mem_insert, not_or]
          exact ⟨fun heq => hne (heq ▸ he'), hfresh e' (List.mem_cons_of_mem _ he')⟩
        | error x =>
          cases x with
          | denied => exact ⟨false, s, rfl, h⟩
          | outOfRam => exact ih h hg (by omega)
          | outOfCaps => exact ih h hg (by omega)

theorem Inv.copyLoop {core : Bool} {caps : List SentCap} {s' : RecvCaps ε} (h : Inv s)
    (hs' : RecvCaps.copyLoop core caps n i s = .ok s') : Inv s' := by
  induction n generalizing i s with
  | zero =>
    obtain rfl : s = s' := Except.ok.inj hs'
    exact h
  | succ n ih =>
    unfold RecvCaps.copyLoop at hs'
    split at hs'
    · split at hs'
      · exact ih h hs'
      · obtain ⟨x, hx, hs'⟩ := Exec.bind_eq_ok.mp hs'
        split at hs'
        · obtain ⟨e, he, hs'⟩ := Exec.bind_eq_ok.mp hs'
          have hslot : s.slots i = some e := by
            unfold slot at hx
            split at hx
            · cases x with
              | none => simp at he
              | some e' =>
                obtain rfl : e' = e := Except.ok.inj he
                exact Except.ok.inj hx
            · simp at hx
          exact ih (h.use hslot) hs'
        · exact ih h hs'
    · exact ih h hs'

omit [DecidableEq ε] in
/-- The entries in the `n` slots from `i` on. -/
def held (s : RecvCaps ε) (i n : Nat) : List ε := (List.range' i n).filterMap s.slots

omit [DecidableEq ε] in
theorem mem_held : e ∈ s.held i n ↔ ∃ j, (i ≤ j ∧ j < i + n) ∧ s.slots j = some e := by
  simp [held, List.mem_filterMap, List.mem_range'_1]

omit [DecidableEq ε] in
theorem Inv.nodup_held (h : Inv s) (i n : Nat) : (s.held i n).Nodup := by
  refine List.Nodup.filterMap (fun j k e hj hk => ?_) (List.nodup_range' (s := i) (n := n))
  exact h.unique e j k hj hk

theorem freeLoop_eq (s : RecvCaps ε) (freed : List ε) (hn : i + n ≤ maxRcvCaps) :
    ∃ s', freeLoop n i freed s = .ok (freed ++ s.held i n, s') := by
  induction n generalizing i freed s with
  | zero => exact ⟨s, by simp [freeLoop, held]⟩
  | succ n ih =>
    unfold freeLoop
    rw [slot_of_lt (by omega), Exec.ok_bind]
    cases hs : s.slots i with
    | none =>
      obtain ⟨s', hs'⟩ := ih s freed (i := i + 1) (by omega)
      refine ⟨s', ?_⟩
      have hheld : s.held i (n + 1) = s.held (i + 1) n := by simp [held, List.range'_succ, hs]
      rw [hheld]
      exact hs'
    | some e =>
      obtain ⟨s', hs'⟩ := ih { s with taken := s.taken.erase e } (freed ++ [e]) (i := i + 1)
        (by omega)
      refine ⟨s', ?_⟩
      have hheld : s.held i (n + 1) = e :: s.held (i + 1) n := by simp [held, List.range'_succ, hs]
      rw [hheld, List.append_cons]
      exact hs'

/-- The destructor gives back the entries in the slots that the last
count covers, each once. -/
theorem Inv.ipcFreeRecvCaps (h : Inv s) :
    ∃ s', s.ipcFreeRecvCaps = .ok (s.held 0 s.rcvCaps, s') := by
  have hcount := h.count
  obtain ⟨s', hs'⟩ := freeLoop_eq s [] (i := 0) (n := s.rcvCaps) (by omega)
  refine ⟨{ s' with rcvCaps := 0 }, ?_⟩
  unfold RecvCaps.ipcFreeRecvCaps
  rw [hs']
  rfl

/-! ## Runs -/

/-- The operations of a thread on its slots. -/
inductive Op (ε : Type) where
  | alloc (capCount : Nat) (answers : List (Except AllocError ε))
  | copy (core : Bool) (caps : List SentCap)
  | deleteCap (e : ε)

/-- The counts are within bounds, the slab works, and only references are
deleted. -/
def Op.Allowed (s : RecvCaps ε) : Op ε → Prop
  | .alloc capCount answers => capCount ≤ maxRcvCaps ∧ Grants s answers
  | .copy _ _ => True
  | .deleteCap e => e ∈ s.inUse

instance (s : RecvCaps ε) : (op : Op ε) → Decidable (op.Allowed s)
  | .alloc capCount answers => inferInstanceAs (Decidable (capCount ≤ maxRcvCaps ∧ Grants s answers))
  | .copy _ _ => .isTrue trivial
  | .deleteCap e => inferInstanceAs (Decidable (e ∈ s.inUse))

def Op.run (s : RecvCaps ε) : Op ε → Exec (RecvCaps ε)
  | .alloc capCount answers => do
    let (_, s) ← s.ipcAllocRecvCaps capCount answers
    .ok s
  | .copy core caps => s.ipcCopyMsg core caps
  | .deleteCap e => .ok (s.deleteCap e)

def Init (s : RecvCaps ε) : Prop := s = init

def Trans : RecvCaps ε → Op ε → RecvCaps ε → Prop :=
  Guarded (fun s op => op.Allowed s) fun s op => op.run s

theorem Inv.deleteCap (h : Inv s) (he : e ∈ s.inUse) : Inv (s.deleteCap e) := by
  refine ⟨fun e' => ?_, fun e' i hi => ?_, h.unique, h.bound, h.count⟩
  · simp only [RecvCaps.deleteCap, Finset.mem_erase, h.taken e']
    constructor
    · rintro ⟨hne, hs | hu⟩
      · exact .inl hs
      · exact .inr ⟨hne, hu⟩
    · rintro (⟨i, hi⟩ | ⟨hne, hu⟩)
      · refine ⟨?_, .inl ⟨i, hi⟩⟩
        rintro rfl
        exact h.apart _ i hi he
      · exact ⟨hne, .inr hu⟩
  · exact fun hu => h.apart e' i hi (Finset.mem_of_mem_erase hu)

theorem Trans.inv {s' : RecvCaps ε} {op : Op ε} (h : Inv s) (ht : Trans s op s') : Inv s' := by
  obtain ⟨ha, hrun⟩ := ht
  cases op with
  | alloc capCount answers =>
    obtain ⟨done, s₁, hloop, h₁⟩ := h.allocLoop ha.2 (i := 0) (n := capCount)
      (by have := ha.1; omega)
    have hs' : (Op.alloc capCount answers).run s =
        .ok (if done then { s₁ with rcvCaps := capCount } else s₁) := by
      simp only [Op.run, ipcAllocRecvCaps, hloop]
      rfl
    obtain rfl := Except.ok.inj (hs'.symm.trans hrun)
    cases done with
    | false => exact h₁
    | true => exact ⟨h₁.taken, h₁.apart, h₁.unique, h₁.bound, ha.1⟩
  | copy core caps => exact h.copyLoop hrun
  | deleteCap e =>
    obtain rfl : s.deleteCap e = s' := Except.ok.inj hrun
    exact h.deleteCap ha

/-- Each entry that was obtained and not given back is in exactly one
slot or in use. -/
structure Owned (s : RecvCaps ε) : Prop where
  owner : ∀ e ∈ s.taken, (∃ i, s.slots i = some e) ∨ e ∈ s.inUse
  apart : ∀ e i, s.slots i = some e → e ∉ s.inUse
  unique : ∀ e i j, s.slots i = some e → s.slots j = some e → i = j

variable {hist : List (RecvCaps ε × Op ε)}

omit [DecidableEq ε] in
theorem Init.inv (h : Init s) : Inv s := h ▸ inv_init

theorem inv_of_run (h : Run Init Trans hist s) : Inv s :=
  h.invariant (fun _ => Init.inv) fun _ _ _ => Trans.inv

/-- In every run each entry has one owner, and the destructor gives no
entry back twice. It gives back all entries in slots exactly if no slot
behind the last count holds one. -/
theorem freed_iff (h : Run Init Trans hist s) :
    (∀ t ∈ reached hist s, Owned t) ∧
    ∃ freed s', s.ipcFreeRecvCaps = .ok (freed, s') ∧ freed.Nodup ∧
      (∀ e ∈ freed, ∃ i, s.slots i = some e) ∧
      ((∀ e i, s.slots i = some e → freed.count e = 1) ↔
        ∀ i, s.rcvCaps ≤ i → s.slots i = none) := by
  have hinv := inv_of_run h
  constructor
  · refine Run.forall_reached_of (I := Inv) (C := fun _ _ => True) (fun _ => Init.inv)
      (fun _ _ _ hs ht _ => Trans.inv hs ht) (fun t ht => ?_) h fun _ _ => trivial
    exact ⟨fun e he => (ht.taken e).mp he, ht.apart, ht.unique⟩
  · obtain ⟨s', hs'⟩ := hinv.ipcFreeRecvCaps
    have hnodup := hinv.nodup_held 0 s.rcvCaps
    have hmem : ∀ {e}, e ∈ s.held 0 s.rcvCaps ↔ ∃ i, i < s.rcvCaps ∧ s.slots i = some e := by
      intro e
      simp [mem_held]
    refine ⟨_, s', hs', hnodup, fun e he => ?_, ?_, ?_⟩
    · obtain ⟨i, -, hi⟩ := hmem.mp he
      exact ⟨i, hi⟩
    · intro hall i hi
      cases hs : s.slots i with
      | none => rfl
      | some e =>
        have hpos : 0 < (s.held 0 s.rcvCaps).count e := by rw [hall e i hs]; exact Nat.one_pos
        obtain ⟨j, hj, hsj⟩ := hmem.mp (List.count_pos_iff.mp hpos)
        have := hinv.unique e i j hs hsj
        omega
    · intro hnone e i hi
      refine List.count_eq_one_of_mem hnodup (hmem.mpr ⟨i, ?_, hi⟩)
      by_contra hle
      have := hnone i (by omega)
      simp [hi] at this

theorem exists_run (ops : List (Op ε)) {p : List (RecvCaps ε × Op ε) × RecvCaps ε → Prop}
    [DecidablePred p]
    (h : (replay (perform (fun s op => op.Allowed s) fun s op => op.run s) ops
      ([], (init : RecvCaps ε))).any (fun r => decide (p r)) = true) :
    ∃ hist s, Run Init Trans hist s ∧ p (hist, s) := by
  have hinit : Init (init : RecvCaps ε) := rfl
  exact exists_guarded_run hinit h

/-- The first message takes one of two entries, the second call fills
three slots. All of them are given back. -/
theorem freed_iff_growing :
    ∃ (hist : List (RecvCaps (Fin 8) × Op (Fin 8))) (s : RecvCaps (Fin 8)),
      Run Init Trans hist s ∧ (s.taken = {0, 1, 2, 3} ∧ s.inUse = {0}) ∧
      ∃ freed s', s.ipcFreeRecvCaps = .ok (freed, s') ∧
        ∀ e i, s.slots i = some e → freed.count e = 1 := by
  obtain ⟨hist, s, h, hp, hcount, hslot⟩ := exists_run
    [.alloc 2 [.ok (0 : Fin 8), .ok 1], .copy false [.unknown true, .known],
      .alloc 3 [.ok 2, .ok 3]]
    (p := fun r => (r.2.taken = {0, 1, 2, 3} ∧ r.2.inUse = {0}) ∧ r.2.rcvCaps = 3 ∧
      r.2.slots 3 = none) (by decide +kernel)
  obtain ⟨-, freed, s', hfree, -, -, hiff⟩ := freed_iff h
  refine ⟨hist, s, h, hp, freed, s', hfree, hiff.mpr fun i hi => ?_⟩
  have hinv := inv_of_run h
  cases hs : s.slots i with
  | none => rfl
  | some e =>
    have hlt := hinv.bound i e hs
    dsimp only at hcount hslot
    have hi3 : i = 3 := by unfold maxRcvCaps at hlt; omega
    rw [hi3, hslot] at hs
    simp at hs

/-- A call for four capabilities is followed by one for a single one:
three entries are never given back. -/
theorem smaller_count_leaks :
    ∃ (hist : List (RecvCaps (Fin 8) × Op (Fin 8))) (s : RecvCaps (Fin 8)),
      Run Init Trans hist s ∧ s.slots 1 = some 1 ∧
      ∃ freed s', s.ipcFreeRecvCaps = .ok (freed, s') ∧ freed.count 1 = 0 := by
  obtain ⟨hist, s, h, hslot, hfreed⟩ := exists_run
    [.alloc 4 [.ok (0 : Fin 8), .ok 1, .ok 2, .ok 3], .alloc 1 []]
    (p := fun r => r.2.slots 1 = some 1 ∧
      (r.2.ipcFreeRecvCaps.toOption.map Prod.fst) = some [0]) (by decide +kernel)
  have hinv := inv_of_run h
  obtain ⟨s', hs'⟩ := hinv.ipcFreeRecvCaps
  refine ⟨hist, s, h, hslot, _, s', hs', ?_⟩
  have heq : s.held 0 s.rcvCaps = [0] := by simpa [hs', Except.toOption] using hfreed
  rw [heq]
  decide

end RecvCaps

end Genode.Kernel
