import Genode.Lib.Chain
import Genode.Lib.Exec

/-!
# DoubleList — the doubly linked lists of the scheduler

`kernel/double_list.h`. The items are members of the listed objects, and
one kind of item serves several lists, of which it is in at most one at
a time. As with `Fifo` the model keeps all lists over one kind of item
together: `κ` names the lists, `ι` the listed objects.

The header writes through the neighbours of an item without any check.
Every such access is a `deref` here, so a result `.ok` also says that no
null pointer was followed. `Repr D L` says that the pointers represent
the lists `L` in both directions.
-/

namespace Genode.Kernel

open Lib

/-- All lists over one kind of embedded item. -/
structure DoubleLists (κ ι : Type) where
  head : κ → Option ι
  tail : κ → Option ι
  next : ι → Option ι
  prev : ι → Option ι

namespace DoubleLists

variable {κ ι : Type} [DecidableEq κ] [DecidableEq ι]

/-- Freshly constructed lists and items. -/
def init : DoubleLists κ ι := ⟨fun _ => none, fun _ => none, fun _ => none, fun _ => none⟩

def setNext (D : DoubleLists κ ι) (i : ι) (p : Option ι) : DoubleLists κ ι :=
  { D with next := Function.update D.next i p }

def setPrev (D : DoubleLists κ ι) (i : ι) (p : Option ι) : DoubleLists κ ι :=
  { D with prev := Function.update D.prev i p }

def setHead (D : DoubleLists κ ι) (k : κ) (p : Option ι) : DoubleLists κ ι :=
  { D with head := Function.update D.head k p }

def setTail (D : DoubleLists κ ι) (k : κ) (p : Option ι) : DoubleLists κ ι :=
  { D with tail := Function.update D.tail k p }

/-- `_connect_neighbors`. -/
def connectNeighbors (D : DoubleLists κ ι) (i : ι) : Exec (DoubleLists κ ι) := do
  let p ← Exec.deref (D.prev i)
  let D := D.setNext p (D.next i)
  let n ← Exec.deref (D.next i)
  .ok (D.setPrev n (D.prev i))

/-- `_to_tail`. -/
def toTailInner (D : DoubleLists κ ι) (k : κ) (i : ι) : Exec (DoubleLists κ ι) :=
  if D.tail k = some i then .ok D
  else do
    let D ← D.connectNeighbors i
    let D := (D.setPrev i (D.tail k)).setNext i none
    let t ← Exec.deref (D.tail k)
    .ok ((D.setNext t (some i)).setTail k (some i))

/-- `_to_head`. -/
def toHeadInner (D : DoubleLists κ ι) (k : κ) (i : ι) : Exec (DoubleLists κ ι) :=
  if D.head k = some i then .ok D
  else do
    let D ← D.connectNeighbors i
    let D := (D.setNext i (D.head k)).setPrev i none
    let h ← Exec.deref (D.head k)
    .ok ((D.setPrev h (some i)).setHead k (some i))

/-- `_tail_to_head`. -/
def tailToHead (D : DoubleLists κ ι) (k : κ) : Exec (DoubleLists κ ι) :=
  match D.tail k with
  | none => .ok D
  | some t =>
    if D.head k = some t then .ok D
    else do
      let D := D.setNext t (D.head k)
      let h ← Exec.deref (D.head k)
      let D := D.setPrev h (some t)
      let D := D.setTail k (D.prev t)
      let t' ← Exec.deref (D.tail k)
      let D := D.setNext t' none
      let D := D.setHead k (D.prev h)
      let h' ← Exec.deref (D.head k)
      .ok (D.setPrev h' none)

/-- `head_to_tail`. -/
def headToTail (D : DoubleLists κ ι) (k : κ) : Exec (DoubleLists κ ι) :=
  match D.head k with
  | none => .ok D
  | some h =>
    if D.tail k = some h then .ok D
    else do
      let D := D.setPrev h (D.tail k)
      let t ← Exec.deref (D.tail k)
      let D := D.setNext t (some h)
      let D := D.setHead k (D.next h)
      let h' ← Exec.deref (D.head k)
      let D := D.setPrev h' none
      let D := D.setTail k (D.next t)
      let t' ← Exec.deref (D.tail k)
      .ok (D.setNext t' none)

def toTail (D : DoubleLists κ ι) (k : κ) (i : ι) : Exec (DoubleLists κ ι) :=
  if D.head k = some i then D.headToTail k else D.toTailInner k i

def toHead (D : DoubleLists κ ι) (k : κ) (i : ι) : Exec (DoubleLists κ ι) :=
  if D.tail k = some i then D.tailToHead k else D.toHeadInner k i

def insertTail (D : DoubleLists κ ι) (k : κ) (i : ι) : DoubleLists κ ι :=
  let D := match D.tail k with
    | some t => D.setNext t (some i)
    | none => D.setHead k (some i)
  ((D.setPrev i (D.tail k)).setNext i none).setTail k (some i)

def insertHead (D : DoubleLists κ ι) (k : κ) (i : ι) : DoubleLists κ ι :=
  let D := match D.head k with
    | some h => D.setPrev h (some i)
    | none => D.setTail k (some i)
  ((D.setNext i (D.head k)).setPrev i none).setHead k (some i)

def remove (D : DoubleLists κ ι) (k : κ) (i : ι) : Exec (DoubleLists κ ι) := do
  let D ←
    if D.tail k = some i then .ok (D.setTail k (D.prev i))
    else do
      let n ← Exec.deref (D.next i)
      .ok (D.setPrev n (D.prev i))
  if D.head k = some i then .ok (D.setHead k (D.next i))
  else do
    let p ← Exec.deref (D.prev i)
    .ok (D.setNext p (D.next i))

/-- The items that `for_each` visits, as long as there are at most `n`. -/
def toList (D : DoubleLists κ ι) (n : Nat) (k : κ) : Option (List ι) := walk D.next n (D.head k)

/-! ## Representation -/

structure Repr (D : DoubleLists κ ι) (L : κ → List ι) : Prop where
  fwd : ∀ k, Chain D.next (D.head k) (L k)
  bwd : ∀ k, Chain D.prev (D.tail k) (L k).reverse
  nodup : ∀ k, (L k).Nodup
  disj : ∀ {k k' x}, x ∈ L k → x ∈ L k' → k = k'

variable {D D' : DoubleLists κ ι} {L : κ → List ι} {k : κ} {i : ι}

omit [DecidableEq κ] [DecidableEq ι] in
theorem repr_init : Repr (init : DoubleLists κ ι) fun _ => [] where
  fwd := fun _ => rfl
  bwd := fun _ => rfl
  nodup := fun _ => .nil
  disj := by simp

namespace Repr

omit [DecidableEq κ] [DecidableEq ι] in
theorem head_eq (h : Repr D L) (k : κ) : D.head k = (L k).head? := (h.fwd k).head_eq

omit [DecidableEq κ] [DecidableEq ι] in
theorem tail_eq (h : Repr D L) (k : κ) : D.tail k = (L k).getLast? := by
  rw [(h.bwd k).head_eq, List.head?_reverse]

omit [DecidableEq κ] [DecidableEq ι] in
theorem toList_eq (h : Repr D L) {n : Nat} (hn : (L k).length ≤ n) : D.toList n k = some (L k) :=
  (h.fwd k).walk_eq hn

omit [DecidableEq κ] [DecidableEq ι] in
theorem next_eq (h : Repr D L) {xs ys : List ι} (hk : L k = xs ++ i :: ys) :
    D.next i = ys.head? := by
  have hc := h.fwd k
  rw [hk] at hc
  exact hc.next_eq

omit [DecidableEq κ] [DecidableEq ι] in
theorem prev_eq (h : Repr D L) {xs ys : List ι} (hk : L k = xs ++ i :: ys) :
    D.prev i = xs.getLast? := by
  have hc := h.bwd k
  rw [hk, List.reverse_append, List.reverse_cons, List.append_assoc, List.singleton_append] at hc
  rw [hc.next_eq, List.head?_reverse]

omit [DecidableEq ι] in
/-- An operation on the list `k` that touches no item of another list
only has to be checked at `k`. -/
theorem of_local (h : Repr D L) {xs : List ι} (hf : Chain D'.next (D'.head k) xs)
    (hb : Chain D'.prev (D'.tail k) xs.reverse) (hn : xs.Nodup)
    (hsub : ∀ x ∈ xs, x ∈ L k ∨ ∀ k', x ∉ L k')
    (hhead : ∀ k', k' ≠ k → D'.head k' = D.head k')
    (htail : ∀ k', k' ≠ k → D'.tail k' = D.tail k')
    (hnext : ∀ k' x, k' ≠ k → x ∈ L k' → D'.next x = D.next x)
    (hprev : ∀ k' x, k' ≠ k → x ∈ L k' → D'.prev x = D.prev x) :
    Repr D' (Function.update L k xs) := by
  refine ⟨fun k' => ?_, fun k' => ?_, fun k' => ?_, ?_⟩
  · by_cases hk : k' = k
    · subst hk; simpa using hf
    · rw [Function.update_of_ne hk, hhead k' hk]
      exact (h.fwd k').congr fun x hx => hnext k' x hk hx
  · by_cases hk : k' = k
    · subst hk; simpa using hb
    · rw [Function.update_of_ne hk, htail k' hk]
      exact (h.bwd k').congr fun x hx => hprev k' x hk (List.mem_reverse.mp hx)
  · by_cases hk : k' = k
    · subst hk; simpa using hn
    · rw [Function.update_of_ne hk]; exact h.nodup k'
  · exact disjoint_update h.disj hsub

end Repr

/-! ## Insertion and removal -/

/-- The lists read backwards. -/
def flip (D : DoubleLists κ ι) : DoubleLists κ ι := ⟨D.tail, D.head, D.prev, D.next⟩

omit [DecidableEq κ] [DecidableEq ι] in
theorem Repr.flip (h : Repr D L) : Repr D.flip fun k => (L k).reverse where
  fwd := h.bwd
  bwd k := by
    rw [List.reverse_reverse]
    exact h.fwd k
  nodup k := List.nodup_reverse.mpr (h.nodup k)
  disj h1 h2 := h.disj (List.mem_reverse.mp h1) (List.mem_reverse.mp h2)

theorem insertHead_flip : D.insertHead k i = (D.flip.insertTail k i).flip := by
  unfold insertHead insertTail
  show _ = DoubleLists.flip _
  cases hh : D.head k <;> simp [DoubleLists.flip, hh, setNext, setPrev, setHead, setTail]

theorem Repr.insertTail (h : Repr D L) (hi : ∀ k', i ∉ L k') :
    Repr (D.insertTail k i) (Function.update L k (L k ++ [i])) := by
  have hne : ∀ {k' y}, y ∈ L k' → y ≠ i := fun hy he => hi _ (he ▸ hy)
  have hnodup : (L k ++ [i]).Nodup := by
    simp [List.nodup_append, h.nodup k]
    exact fun y hy => hne hy
  have hsub : ∀ y ∈ L k ++ [i], y ∈ L k ∨ ∀ k', y ∉ L k' := by
    intro y hy
    rcases List.mem_append.mp hy with hy | hy
    · exact .inl hy
    · rw [List.mem_singleton.mp hy]; exact .inr hi
  have hbwd : Chain (Function.update D.prev i (D.tail k)) (some i) (L k ++ [i]).reverse := by
    rw [List.reverse_append, List.reverse_singleton, List.singleton_append]
    exact (h.bwd k).cons_update (by simpa using hi k)
  rcases List.eq_nil_or_concat (L k) with hnil | ⟨ys, t, hcat⟩
  · have ht : D.tail k = none := by simp [h.tail_eq k, hnil]
    simp only [DoubleLists.insertTail, ht]
    rw [ht] at hbwd
    refine h.of_local ?_ ?_ hnodup hsub ?_ ?_ ?_ ?_
    · simp [hnil, setNext, setPrev, setHead, setTail]
    · simpa [setNext, setPrev, setHead, setTail, ht] using hbwd
    · intro k' hk; simp [setNext, setPrev, setHead, setTail, hk]
    · intro k' hk; simp [setNext, setPrev, setHead, setTail, hk]
    · intro k' y _ hy; simp [setNext, setPrev, setHead, setTail, hne hy]
    · intro k' y _ hy; simp [setNext, setPrev, setHead, setTail, hne hy]
  · rw [List.concat_eq_append] at hcat
    have ht : D.tail k = some t := by simp [h.tail_eq k, hcat]
    have hmem : t ∈ L k := by simp [hcat]
    have htys : t ∉ ys := by
      have := h.nodup k
      rw [hcat] at this
      simp [List.nodup_append] at this
      exact fun hmem => this.2 t hmem rfl
    simp only [DoubleLists.insertTail, ht]
    rw [ht] at hbwd
    refine h.of_local ?_ ?_ hnodup hsub ?_ ?_ ?_ ?_
    · have hc := h.fwd k
      rw [hcat] at hc ⊢
      exact hc.concat_update htys (by rw [← hcat]; exact hi k)
    · simpa [setNext, setPrev, setHead, setTail, ht] using hbwd
    · intro k' _; rfl
    · intro k' hk; simp [setNext, setPrev, setTail, hk]
    · intro k' y hk hy
      have hyt : y ≠ t := fun he => hk (h.disj hy (he ▸ hmem))
      simp [setNext, setPrev, setTail, hne hy, hyt]
    · intro k' y _ hy; simp [setNext, setPrev, setTail, hne hy]

theorem Repr.insertHead (h : Repr D L) (hi : ∀ k', i ∉ L k') :
    Repr (D.insertHead k i) (Function.update L k (i :: L k)) := by
  rw [insertHead_flip]
  have hf := (h.flip.insertTail (k := k) (i := i) (by simpa using hi)).flip
  convert hf using 1
  funext k'
  by_cases hk : k' = k
  · subst hk; simp
  · simp [hk]

/-- The lists without `i`, given its neighbours `p` and `n`. -/
def unlink (D : DoubleLists κ ι) (k : κ) (p n : Option ι) : DoubleLists κ ι where
  head := if p = none then Function.update D.head k n else D.head
  tail := if n = none then Function.update D.tail k p else D.tail
  next := match p with
    | none => D.next
    | some p => Function.update D.next p n
  prev := match n with
    | none => D.prev
    | some n => Function.update D.prev n p

omit [DecidableEq κ] [DecidableEq ι] in
theorem Repr.head_iff (h : Repr D L) {xs ys : List ι} (hk : L k = xs ++ i :: ys) :
    D.head k = some i ↔ xs = [] := by
  rw [h.head_eq, hk]
  cases xs with
  | nil => simp
  | cons b bs =>
    have hnd := h.nodup k
    rw [hk, List.cons_append, List.nodup_cons] at hnd
    have hbi : b ≠ i := fun he => hnd.1 (by simp [he])
    simp [hbi]

omit [DecidableEq κ] [DecidableEq ι] in
theorem Repr.tail_iff (h : Repr D L) {xs ys : List ι} (hk : L k = xs ++ i :: ys) :
    D.tail k = some i ↔ ys = [] := by
  have hrev : (L k).reverse = ys.reverse ++ i :: xs.reverse := by simp [hk]
  rw [show D.tail k = D.flip.head k from rfl, h.flip.head_iff hrev, List.reverse_eq_nil_iff]

theorem Repr.unlink (h : Repr D L) {xs ys : List ι} (hk : L k = xs ++ i :: ys) :
    Repr (D.unlink k xs.getLast? ys.head?) (Function.update L k (xs ++ ys)) := by
  have hnd : (xs ++ i :: ys).Nodup := hk ▸ h.nodup k
  have hnd' : (xs ++ ys).Nodup := by
    rw [List.nodup_middle, List.nodup_cons] at hnd
    exact hnd.2
  have hsub : ∀ y ∈ xs ++ ys, y ∈ L k ∨ ∀ k', y ∉ L k' := by
    intro y hy
    left
    rw [hk]
    simp only [List.mem_append, List.mem_cons] at hy ⊢
    tauto
  have hlast : ∀ {p}, xs.getLast? = some p → p ∈ L k := fun hp => by
    rw [hk]
    exact List.mem_append_left _ (List.mem_of_getLast? hp)
  have hhead : ∀ {n}, ys.head? = some n → n ∈ L k := fun hn => by
    rw [hk]
    exact List.mem_append_right _ (List.mem_cons_of_mem _ (List.mem_of_mem_head? hn))
  have hnext := h.next_eq hk
  have hprev := h.prev_eq hk
  have hf := h.fwd k
  have hb := h.bwd k
  rw [hk] at hf
  rw [hk, List.reverse_append, List.reverse_cons, List.append_assoc, List.singleton_append] at hb
  refine h.of_local ?_ ?_ hnd' hsub ?_ ?_ ?_ ?_
  · -- forwards, the predecessor of `i` gets the link of `i`
    rcases List.eq_nil_or_concat xs with rfl | ⟨as, p, rfl⟩
    · have hf2 : Chain D.next (D.next i) ys := hf.2
      rw [hnext] at hf2
      simpa [DoubleLists.unlink] using hf2
    · rw [List.concat_eq_append] at hf hnd ⊢
      simp only [List.append_assoc, List.singleton_append, List.nodup_append, List.nodup_cons,
        List.mem_cons, not_or] at hnd
      have hpas : p ∉ as := fun hm => hnd.2.2 p hm p (.inl rfl) rfl
      have hc := Chain.unlink (by simpa using hf) hpas hnd.2.1.1.2
      rw [hnext] at hc
      simpa [DoubleLists.unlink] using hc
  · -- backwards, the successor of `i` gets the link of `i`
    cases ys with
    | nil =>
      have hb2 : Chain D.prev (D.prev i) xs.reverse := hb.2
      rw [hprev] at hb2
      simpa [DoubleLists.unlink] using hb2
    | cons n ys =>
      simp only [List.nodup_append, List.nodup_cons, List.mem_cons, not_or] at hnd
      have hnys : n ∉ ys.reverse := by simpa using hnd.2.1.2.1
      have hnxs : n ∉ xs.reverse := fun hm =>
        hnd.2.2 n (List.mem_reverse.mp hm) n (.inr (.inl rfl)) rfl
      have hc := Chain.unlink (by simpa using hb) hnys hnxs
      rw [hprev] at hc
      simpa [DoubleLists.unlink] using hc
  · intro k' hk'
    simp only [DoubleLists.unlink]
    split <;> simp [hk']
  · intro k' hk'
    simp only [DoubleLists.unlink]
    split <;> simp [hk']
  · intro k' y hk' hy
    cases hp : xs.getLast? with
    | none => rfl
    | some p =>
      have hyp : y ≠ p := fun he => hk' (h.disj hy (he ▸ hlast hp))
      simp [DoubleLists.unlink, hyp]
  · intro k' y hk' hy
    cases hn : ys.head? with
    | none => rfl
    | some n =>
      have hyn : y ≠ n := fun he => hk' (h.disj hy (he ▸ hhead hn))
      simp [DoubleLists.unlink, hyn]

omit [DecidableEq ι] in
theorem Repr.not_mem_unlink (h : Repr D L) {xs ys : List ι} (hk : L k = xs ++ i :: ys) (k' : κ) :
    i ∉ Function.update L k (xs ++ ys) k' := by
  have hnd := h.nodup k
  rw [hk, List.nodup_middle, List.nodup_cons] at hnd
  by_cases hk' : k' = k
  · subst hk'; simpa using hnd.1
  · rw [Function.update_of_ne hk']
    exact fun hm => hk' (h.disj hm (by simp [hk]))

theorem Repr.remove_eq (h : Repr D L) {xs ys : List ι} (hk : L k = xs ++ i :: ys) :
    D.remove k i = .ok (D.unlink k xs.getLast? ys.head?) := by
  have hnext := h.next_eq hk
  have hprev := h.prev_eq hk
  have hhd := h.head_iff hk
  have htl := h.tail_iff hk
  have hnd : (xs ++ i :: ys).Nodup := hk ▸ h.nodup k
  cases ys with
  | nil =>
    rcases List.eq_nil_or_concat xs with rfl | ⟨as, p, rfl⟩
    · simp_all [DoubleLists.remove, DoubleLists.unlink, setTail, setHead]
    · simp_all [DoubleLists.remove, DoubleLists.unlink, setTail, setNext]
  | cons n ys =>
    have hin : i ≠ n := by
      simp only [List.nodup_append, List.nodup_cons, List.mem_cons, not_or] at hnd
      exact hnd.2.1.1.1
    rcases List.eq_nil_or_concat xs with rfl | ⟨as, p, rfl⟩
    · simp_all [DoubleLists.remove, DoubleLists.unlink, setPrev, setHead]
    · simp_all [DoubleLists.remove, DoubleLists.unlink, setPrev, setNext]

/-- `remove` takes a listed item out. -/
theorem Repr.remove (h : Repr D L) (hi : i ∈ L k) :
    ∃ D', D.remove k i = .ok D' ∧ Repr D' (Function.update L k ((L k).erase i)) := by
  obtain ⟨xs, ys, hk⟩ := List.append_of_mem hi
  refine ⟨_, h.remove_eq hk, ?_⟩
  have hnd := h.nodup k
  rw [hk] at hnd
  have hxs : i ∉ xs := fun hm => (List.nodup_append.mp hnd).2.2 i hm i (by simp) rfl
  rw [hk, List.erase_append_right _ hxs, List.erase_cons_head]
  exact h.unlink hk

/-! ## Moving an item

Each of the four functions writes the links of a removal followed by an
insertion, in an order of its own. -/

theorem Repr.headToTail_eq (h : Repr D L) {ys : List ι} (hk : L k = i :: ys) (hys : ys ≠ []) :
    D.headToTail k = .ok ((D.unlink k none ys.head?).insertTail k i) := by
  have hnext := h.next_eq (show L k = [] ++ i :: ys from hk)
  have hhd : D.head k = some i := by simp [h.head_eq, hk]
  obtain ⟨n, zs, rfl⟩ := List.exists_cons_of_ne_nil hys
  obtain ⟨t, ht⟩ : ∃ t, (n :: zs).getLast? = some t :=
    ⟨_, List.getLast?_eq_some_getLast (by simp)⟩
  have htl : D.tail k = some t := by rw [h.tail_eq, hk, List.getLast?_cons_cons, ht]
  have hnd := h.nodup k
  rw [hk, List.nodup_cons] at hnd
  have hti : t ≠ i := fun he => hnd.1 (he ▸ List.mem_of_getLast? ht)
  have hni : n ≠ i := fun he => hnd.1 (by simp [he])
  have hcomm : Function.update (Function.update D.prev i (some t)) n none =
      Function.update (Function.update D.prev n none) i (some t) :=
    Function.update_comm hni.symm ..
  simp [DoubleLists.headToTail, DoubleLists.unlink, DoubleLists.insertTail, hhd, htl, hnext,
    hti, Ne.symm hti, setNext, setPrev, setHead, setTail, hcomm]

theorem Repr.toTailInner_eq (h : Repr D L) {xs ys : List ι} (hk : L k = xs ++ i :: ys)
    (hxs : xs ≠ []) (hys : ys ≠ []) :
    D.toTailInner k i = .ok ((D.unlink k xs.getLast? ys.head?).insertTail k i) := by
  have hnext := h.next_eq hk
  have hprev := h.prev_eq hk
  have htl := h.tail_iff hk
  obtain ⟨p, hp⟩ : ∃ p, xs.getLast? = some p := ⟨_, List.getLast?_eq_some_getLast hxs⟩
  obtain ⟨t, ht⟩ : ∃ t, ys.getLast? = some t := ⟨_, List.getLast?_eq_some_getLast hys⟩
  obtain ⟨n, zs, rfl⟩ := List.exists_cons_of_ne_nil hys
  have htail : D.tail k = some t := by
    rw [h.tail_eq, hk, List.getLast?_append, List.getLast?_cons_cons, ht]
    rfl
  have hnd := h.nodup k
  rw [hk, List.nodup_middle, List.nodup_cons] at hnd
  have hti : t ≠ i := fun he => hnd.1 (by simp [← he, List.mem_of_getLast? ht])
  have hpi : p ≠ i := fun he => hnd.1 (by simp [← he, List.mem_of_getLast? hp])
  have hcomm : ∀ f : ι → Option ι, Function.update (Function.update f i none) t (some i) =
      Function.update (Function.update f t (some i)) i none := fun f =>
    Function.update_comm hti.symm ..
  simp [DoubleLists.toTailInner, connectNeighbors, DoubleLists.unlink, DoubleLists.insertTail,
    htail, hti, hprev, hp, hnext, Ne.symm hpi, setNext, setPrev, setTail, hcomm]

/-- `head_to_tail` moves the first item behind all others. -/
theorem Repr.headToTail (h : Repr D L) : ∃ D', D.headToTail k = .ok D' ∧
    Repr D' (Function.update L k ((L k).tail ++ (L k).head?.toList)) := by
  cases hk : L k with
  | nil =>
    refine ⟨D, by simp [DoubleLists.headToTail, h.head_eq, hk], ?_⟩
    show Repr D (Function.update L k [])
    rwa [← hk, Function.update_eq_self]
  | cons i ys =>
    by_cases hys : ys = []
    · subst hys
      refine ⟨D, by simp [DoubleLists.headToTail, h.head_eq, h.tail_eq, hk], ?_⟩
      show Repr D (Function.update L k [i])
      rwa [← hk, Function.update_eq_self]
    · refine ⟨_, h.headToTail_eq hk hys, ?_⟩
      have hshape : L k = [] ++ i :: ys := hk
      have hu := h.unlink hshape
      simpa using hu.insertTail (k := k) (h.not_mem_unlink hshape)

/-- `to_tail` moves a listed item behind all others. -/
theorem Repr.toTail (h : Repr D L) (hi : i ∈ L k) : ∃ D', D.toTail k i = .ok D' ∧
    Repr D' (Function.update L k ((L k).erase i ++ [i])) := by
  obtain ⟨xs, ys, hk⟩ := List.append_of_mem hi
  have hnd := h.nodup k
  rw [hk, List.nodup_middle, List.nodup_cons] at hnd
  have herase : (L k).erase i = xs ++ ys := by
    rw [hk, List.erase_append_right _ (fun hm => hnd.1 (by simp [hm])), List.erase_cons_head]
  rw [herase]
  by_cases hxs : xs = []
  · subst hxs
    obtain ⟨D', hD', hr⟩ := h.headToTail (k := k)
    refine ⟨D', by simp [DoubleLists.toTail, (h.head_iff hk).mpr rfl, hD'], ?_⟩
    simpa [hk] using hr
  · have hnot : ¬ D.head k = some i := by rwa [h.head_iff hk]
    by_cases hys : ys = []
    · subst hys
      have htl := (h.tail_iff hk).mpr rfl
      refine ⟨D, by simp [DoubleLists.toTail, hnot, toTailInner, htl], ?_⟩
      simpa [show xs ++ [i] = L k from hk.symm] using h
    · refine ⟨_, by rw [DoubleLists.toTail, if_neg hnot, h.toTailInner_eq hk hxs hys], ?_⟩
      simpa using (h.unlink hk).insertTail (k := k) (h.not_mem_unlink hk)

theorem Repr.tailToHead_eq (h : Repr D L) {xs : List ι} (hk : L k = xs ++ [i]) (hxs : xs ≠ []) :
    D.tailToHead k = .ok ((D.unlink k xs.getLast? none).insertHead k i) := by
  have hprev := h.prev_eq (show L k = xs ++ i :: [] from hk)
  have htl : D.tail k = some i := by simp [h.tail_eq, hk]
  obtain ⟨p, hp⟩ : ∃ p, xs.getLast? = some p := ⟨_, List.getLast?_eq_some_getLast hxs⟩
  obtain ⟨b, bs, rfl⟩ := List.exists_cons_of_ne_nil hxs
  have hhd : D.head k = some b := by simp [h.head_eq, hk]
  have hnd := h.nodup k
  rw [hk, List.nodup_middle, List.nodup_cons, List.append_nil] at hnd
  have hpi : p ≠ i := fun he => hnd.1 (he ▸ List.mem_of_getLast? hp)
  have hbi : b ≠ i := fun he => hnd.1 (by simp [he])
  have hcomm : Function.update (Function.update D.next i (some b)) p none =
      Function.update (Function.update D.next p none) i (some b) :=
    Function.update_comm hpi.symm ..
  simp [DoubleLists.tailToHead, DoubleLists.unlink, DoubleLists.insertHead, hhd, htl, hprev, hp,
    hbi, Ne.symm hbi, setNext, setPrev, setHead, setTail, hcomm]

theorem Repr.toHeadInner_eq (h : Repr D L) {xs ys : List ι} (hk : L k = xs ++ i :: ys)
    (hxs : xs ≠ []) (hys : ys ≠ []) :
    D.toHeadInner k i = .ok ((D.unlink k xs.getLast? ys.head?).insertHead k i) := by
  have hnext := h.next_eq hk
  have hprev := h.prev_eq hk
  obtain ⟨p, hp⟩ : ∃ p, xs.getLast? = some p := ⟨_, List.getLast?_eq_some_getLast hxs⟩
  obtain ⟨n, zs, rfl⟩ := List.exists_cons_of_ne_nil hys
  obtain ⟨b, bs, rfl⟩ := List.exists_cons_of_ne_nil hxs
  have hhd : D.head k = some b := by simp [h.head_eq, hk]
  have hnd := h.nodup k
  rw [hk, List.nodup_middle, List.nodup_cons] at hnd
  have hbi : b ≠ i := fun he => hnd.1 (by simp [he])
  have hpi : p ≠ i := fun he =>
    hnd.1 (List.mem_append_left _ (he ▸ List.mem_of_getLast? hp))
  have hcomm : ∀ f : ι → Option ι, Function.update (Function.update f i none) b (some i) =
      Function.update (Function.update f b (some i)) i none := fun f =>
    Function.update_comm hbi.symm ..
  simp [DoubleLists.toHeadInner, connectNeighbors, DoubleLists.unlink, DoubleLists.insertHead,
    hhd, hbi, hprev, hp, hnext, Ne.symm hpi, setNext, setPrev, setHead, hcomm]

/-- `to_head` moves a listed item in front of all others. -/
theorem Repr.toHead (h : Repr D L) (hi : i ∈ L k) : ∃ D', D.toHead k i = .ok D' ∧
    Repr D' (Function.update L k (i :: (L k).erase i)) := by
  obtain ⟨xs, ys, hk⟩ := List.append_of_mem hi
  have hnd := h.nodup k
  rw [hk, List.nodup_middle, List.nodup_cons] at hnd
  have herase : (L k).erase i = xs ++ ys := by
    rw [hk, List.erase_append_right _ (fun hm => hnd.1 (by simp [hm])), List.erase_cons_head]
  rw [herase]
  have hins := (h.unlink hk).insertHead (k := k) (h.not_mem_unlink hk)
  rw [Function.update_idem, Function.update_self] at hins
  by_cases hys : ys = []
  · subst hys
    have htl := (h.tail_iff hk).mpr rfl
    by_cases hxs : xs = []
    · subst hxs
      have hhd := (h.head_iff hk).mpr rfl
      refine ⟨D, by simp [DoubleLists.toHead, htl, DoubleLists.tailToHead, hhd], ?_⟩
      show Repr D (Function.update L k [i])
      rwa [show [i] = L k from hk.symm, Function.update_eq_self]
    · exact ⟨_, by rw [DoubleLists.toHead, if_pos htl, h.tailToHead_eq hk hxs]; rfl, hins⟩
  · have hnot : ¬ D.tail k = some i := by rwa [h.tail_iff hk]
    by_cases hxs : xs = []
    · subst hxs
      have hhd := (h.head_iff hk).mpr rfl
      refine ⟨D, by simp [DoubleLists.toHead, hnot, DoubleLists.toHeadInner, hhd], ?_⟩
      show Repr D (Function.update L k (i :: ys))
      rwa [show i :: ys = L k from hk.symm, Function.update_eq_self]
    · exact ⟨_, by rw [DoubleLists.toHead, if_neg hnot, h.toHeadInner_eq hk hxs hys], hins⟩

end DoubleLists

end Genode.Kernel
