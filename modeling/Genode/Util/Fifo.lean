import Genode.Lib.Chain
import Genode.Lib.Exec

/-!
# Fifo — the intrusive first-in first-out queue

`util/fifo.h`. A queue is a pair of pointers to its oldest and newest
element; the elements are members of the queued objects and carry the
link and the `_enqueued` flag. One element serves any number of queues
of its kind, so the model keeps all queues over one kind of element
together: `κ` are the owners of the queues, `ι` the queued objects.

`Repr F L` says that the pointers represent the lists `L`. The
operations are then ordinary list operations (`Repr.enqueue`,
`Repr.remove`, `Repr.dequeue`), and later modules reason about lists
only.
-/

namespace Genode.Util

open Lib

/-- All queues over one kind of embedded element. -/
structure Fifos (κ ι : Type) where
  head : κ → Option ι
  tail : κ → Option ι
  next : ι → Option ι
  enqueued : ι → Bool

namespace Fifos

variable {κ ι : Type} [DecidableEq κ] [DecidableEq ι]

/-- Freshly constructed queues and elements. -/
def init : Fifos κ ι := ⟨fun _ => none, fun _ => none, fun _ => none, fun _ => false⟩

def empty (F : Fifos κ ι) (k : κ) : Bool := (F.tail k).isNone

/-- `Fifo::remove`; the search for the predecessor may visit `n` elements. -/
def remove (F : Fifos κ ι) (n : Nat) (k : κ) (qe : ι) : Exec (Fifos κ ι) :=
  if F.empty k then .ok F
  -- the specified element is the first of the queue
  else if F.head k = some qe then
    .ok { head := Function.update F.head k (F.next qe)
          tail := if F.next qe = none then Function.update F.tail k none else F.tail
          next := Function.update F.next qe none
          enqueued := Function.update F.enqueued qe false }
  else do
    let hd ← Exec.deref (F.head k)
    let e ← Exec.ended (seek F.next qe n hd)
    match F.next e with
    -- the element is not a member of the queue
    | none => .ok F
    | some x =>
      .ok { head := F.head
            tail := if F.next x = none then Function.update F.tail k (some e) else F.tail
            next := Function.update (Function.update F.next e (F.next x)) qe none
            enqueued := Function.update F.enqueued qe false }

/-- `Fifo::enqueue`. -/
def enqueue (F : Fifos κ ι) (k : κ) (e : ι) : Fifos κ ι :=
  let next := Function.update F.next e none
  let enqueued := Function.update F.enqueued e true
  match F.tail k with
  | none =>
    { head := Function.update F.head k (some e), tail := Function.update F.tail k (some e),
      next, enqueued }
  | some t =>
    { F with tail := Function.update F.tail k (some e),
             next := Function.update next t (some e), enqueued }

/-- `Fifo::dequeue`: the element passed to the caller's functor, if any,
and the queues after its removal. -/
def dequeue (F : Fifos κ ι) (k : κ) : Option ι × Fifos κ ι :=
  let result := F.head k
  let F' : Fifos κ ι :=
    if F.head k = F.tail k then
      { F with head := Function.update F.head k none, tail := Function.update F.tail k none }
    else { F with head := Function.update F.head k (result.bind F.next) }
  match result with
  | none => (none, F')
  | some x =>
    (some x, { F' with next := Function.update F'.next x none,
                       enqueued := Function.update F'.enqueued x false })

/-- The elements `Fifo::for_each` visits, if it ends within `n` of them. -/
def toList (F : Fifos κ ι) (n : Nat) (k : κ) : Option (List ι) := walk F.next n (F.head k)

/-- The queue of a newly constructed owner. -/
def construct (F : Fifos κ ι) (k : κ) : Fifos κ ι :=
  { F with head := Function.update F.head k none, tail := Function.update F.tail k none }

/-- The element of a newly constructed object. -/
def constructElement (F : Fifos κ ι) (x : ι) : Fifos κ ι :=
  { F with next := Function.update F.next x none, enqueued := Function.update F.enqueued x false }

/-! ## What the pointers represent -/

/-- The queue of `k` holds the objects `L k`, oldest first. -/
structure Repr (F : Fifos κ ι) (L : κ → List ι) : Prop where
  chain : ∀ k, Chain F.next (F.head k) (L k)
  tail : ∀ k, F.tail k = (L k).getLast?
  nodup : ∀ k, (L k).Nodup
  disj : ∀ {k k' x}, x ∈ L k → x ∈ L k' → k = k'
  enq : ∀ {x}, F.enqueued x = true ↔ ∃ k, x ∈ L k

variable {F F' : Fifos κ ι} {L : κ → List ι} {k : κ} {x : ι}

omit [DecidableEq κ] [DecidableEq ι] in
theorem repr_init : Repr (init : Fifos κ ι) fun _ => [] where
  chain := fun _ => rfl
  tail := fun _ => rfl
  nodup := fun _ => .nil
  disj := by simp
  enq := by simp [init]

namespace Repr

omit [DecidableEq κ] [DecidableEq ι] in
theorem head_eq (h : Repr F L) (k : κ) : F.head k = (L k).head? := (h.chain k).head_eq

omit [DecidableEq κ] [DecidableEq ι] in
theorem empty_iff (h : Repr F L) (k : κ) : F.empty k = true ↔ L k = [] := by
  simp [Fifos.empty, h.tail k]

omit [DecidableEq κ] [DecidableEq ι] in
theorem toList_eq (h : Repr F L) {n : Nat} (hn : (L k).length ≤ n) : F.toList n k = some (L k) :=
  (h.chain k).walk_eq hn

omit [DecidableEq κ] [DecidableEq ι] in
theorem not_enqueued (h : Repr F L) : F.enqueued x = false ↔ ∀ k, x ∉ L k := by
  rw [← Bool.not_eq_true, h.enq, not_exists]

omit [DecidableEq ι] in
/-- An operation on the queue of `k` that touches no element of another
queue only has to be checked at `k`. -/
theorem of_local (h : Repr F L) {xs : List ι}
    (hc : Chain F'.next (F'.head k) xs) (ht : F'.tail k = xs.getLast?) (hn : xs.Nodup)
    (hsub : ∀ x ∈ xs, x ∈ L k ∨ ∀ k', x ∉ L k')
    (hhead : ∀ k', k' ≠ k → F'.head k' = F.head k')
    (htail : ∀ k', k' ≠ k → F'.tail k' = F.tail k')
    (hnext : ∀ k' x, k' ≠ k → x ∈ L k' → F'.next x = F.next x)
    (henq : ∀ x, F'.enqueued x = true ↔ x ∈ xs ∨ ∃ k', k' ≠ k ∧ x ∈ L k') :
    Repr F' (Function.update L k xs) := by
  refine ⟨fun k' => ?_, fun k' => ?_, fun k' => ?_, ?_, ?_⟩
  · by_cases hk : k' = k
    · subst hk; simpa using hc
    · rw [Function.update_of_ne hk, hhead k' hk]
      exact (h.chain k').congr fun x hx => hnext k' x hk hx
  · by_cases hk : k' = k
    · subst hk; simpa using ht
    · rw [Function.update_of_ne hk, htail k' hk, h.tail]
  · by_cases hk : k' = k
    · subst hk; simpa using hn
    · rw [Function.update_of_ne hk]; exact h.nodup k'
  · exact disjoint_update h.disj hsub
  · intro x
    rw [henq]
    constructor
    · rintro (hx | ⟨k', hk, hx⟩)
      · exact ⟨k, by simpa using hx⟩
      · exact ⟨k', by rwa [Function.update_of_ne hk]⟩
    · rintro ⟨k', hx⟩
      by_cases hk : k' = k
      · subst hk; exact .inl (by simpa using hx)
      · exact .inr ⟨k', hk, by rwa [Function.update_of_ne hk] at hx⟩

theorem enqueue (h : Repr F L) (hx : ∀ k', x ∉ L k') (k : κ) :
    Repr (F.enqueue k x) (Function.update L k (L k ++ [x])) := by
  have hne : ∀ {k' y}, y ∈ L k' → y ≠ x := fun hy he => hx _ (he ▸ hy)
  have hnodup : (L k ++ [x]).Nodup := by
    simp [List.nodup_append, h.nodup k]
    exact fun y hy => hne hy
  have hsub : ∀ y ∈ L k ++ [x], y ∈ L k ∨ ∀ k', y ∉ L k' := by
    intro y hy
    rcases List.mem_append.mp hy with hy | hy
    · exact .inl hy
    · rw [List.mem_singleton.mp hy]; exact .inr hx
  have henq : ∀ y, Function.update F.enqueued x true y = true ↔
      y ∈ L k ++ [x] ∨ ∃ k', k' ≠ k ∧ y ∈ L k' := by
    intro y
    by_cases hy : y = x
    · subst hy; simp
    · rw [Function.update_of_ne hy, h.enq]
      simp only [List.mem_append, List.mem_singleton, hy, or_false]
      constructor
      · rintro ⟨k', hk'⟩
        by_cases hk : k' = k
        · exact .inl (hk ▸ hk')
        · exact .inr ⟨k', hk, hk'⟩
      · rintro (hy' | ⟨k', -, hk'⟩)
        · exact ⟨k, hy'⟩
        · exact ⟨k', hk'⟩
  rcases List.eq_nil_or_concat (L k) with hnil | ⟨ys, t, hcat⟩
  · have ht : F.tail k = none := by simp [h.tail k, hnil]
    simp only [Fifos.enqueue, ht]
    refine h.of_local ?_ ?_ hnodup hsub ?_ ?_ ?_ henq
    · simp [hnil]
    · simp
    · intro k' hk; simp [hk]
    · intro k' hk; simp [hk]
    · intro k' y _ hy; simp [hne hy]
  · -- the former newest element gets its link redirected
    rw [List.concat_eq_append] at hcat
    have ht : F.tail k = some t := by simp [h.tail k, hcat]
    have hmem : t ∈ L k := by simp [hcat]
    have htx : t ≠ x := hne hmem
    have htys : t ∉ ys := by
      have := h.nodup k
      rw [hcat] at this
      simp [List.nodup_append] at this
      exact fun hmem => this.2 t hmem rfl
    simp only [Fifos.enqueue, ht]
    refine h.of_local ?_ ?_ hnodup hsub ?_ ?_ ?_ henq
    · show Path _ (F.head k) _ _
      have hc := h.chain k
      rw [hcat] at hc ⊢
      have hup := (hc.update (x := x) (by rw [← hcat]; exact hx k) none).update_last htys (some x)
      refine path_concat.mpr ⟨hup, ?_⟩
      simp [Function.update_of_ne (Ne.symm htx)]
    · simp
    · intro k' _; rfl
    · intro k' hk; simp [hk]
    · intro k' y hk hy
      have hyt : y ≠ t := fun he => hk (h.disj hy (he ▸ hmem))
      simp [hyt, hne hy]

omit [DecidableEq ι] in
/-- What is in the queues after an element was added at `k`. -/
theorem mem_concat {k' : κ} {y : ι} :
    y ∈ Function.update L k (L k ++ [x]) k' ↔ y ∈ L k' ∨ y = x ∧ k' = k := by
  by_cases hk : k' = k
  · subst hk; simp
  · simp [hk]

/-- What is in the queues after an element was taken out at `k`. -/
theorem mem_erase (h : Repr F L) (hx : x ∈ L k) {k' : κ} {y : ι} :
    y ∈ Function.update L k ((L k).erase x) k' ↔ y ∈ L k' ∧ y ≠ x := by
  by_cases hk : k' = k
  · subst hk
    rw [Function.update_self, (h.nodup k').mem_erase_iff, and_comm]
  · rw [Function.update_of_ne hk]
    constructor
    · exact fun hy => ⟨hy, fun he => hk (h.disj (he ▸ hy) hx)⟩
    · exact fun hy => hy.1

theorem mem_tail (h : Repr F L) {xs : List ι} (hk : L k = x :: xs) {k' : κ} {y : ι} :
    y ∈ Function.update L k xs k' ↔ y ∈ L k' ∧ y ≠ x := by
  have herase : (L k).erase x = xs := by simp [hk]
  rw [← h.mem_erase (k := k) (by simp [hk]), herase]

/-- What a removal at `k` leaves enqueued. -/
theorem enq_erase (h : Repr F L) (hx : x ∈ L k) (y : ι) :
    Function.update F.enqueued x false y = true ↔
      y ∈ (L k).erase x ∨ ∃ k', k' ≠ k ∧ y ∈ L k' := by
  by_cases hy : y = x
  · subst hy
    simp only [Function.update_self, Bool.false_eq_true, false_iff, not_or, not_exists]
    exact ⟨(h.nodup k).not_mem_erase, fun k' hk => hk.1 (h.disj hk.2 hx)⟩
  · rw [Function.update_of_ne hy, h.enq, List.mem_erase_of_ne hy]
    constructor
    · rintro ⟨k', hk'⟩
      by_cases hk : k' = k
      · exact .inl (hk ▸ hk')
      · exact .inr ⟨k', hk, hk'⟩
    · rintro (hy' | ⟨k', -, hk'⟩)
      · exact ⟨k, hy'⟩
      · exact ⟨k', hk'⟩

/-- Removal of the oldest element, as `remove` and `dequeue` do it. -/
theorem remove_head (h : Repr F L) {xs : List ι} (hk : L k = x :: xs) (t : κ → Option ι)
    (htl : t k = xs.getLast?) (htl' : ∀ k', k' ≠ k → t k' = F.tail k') :
    Repr { head := Function.update F.head k (F.next x), tail := t,
           next := Function.update F.next x none,
           enqueued := Function.update F.enqueued x false }
      (Function.update L k xs) := by
  have hmem : x ∈ L k := by simp [hk]
  have hnodup : (x :: xs).Nodup := hk ▸ h.nodup k
  have herase : (L k).erase x = xs := by simp [hk]
  refine h.of_local ?_ htl hnodup.of_cons ?_ ?_ htl' ?_ (herase ▸ h.enq_erase hmem)
  · have hc := h.chain k
    rw [hk] at hc
    simpa using hc.2.update (List.nodup_cons.mp hnodup).1 none
  · exact fun y hy => .inl (by simp [hk, hy])
  · intro k' hk'; simp [hk']
  · intro k' y hk' hy
    have hyx : y ≠ x := fun he => hk' (h.disj (he ▸ hy) hmem)
    simp [hyx]

/-- Removal of an element that has a predecessor. -/
theorem remove_inner (h : Repr F L) {xs ys : List ι} {a : ι} (hk : L k = xs ++ a :: x :: ys) :
    Repr { head := F.head,
           tail := if F.next x = none then Function.update F.tail k (some a) else F.tail,
           next := Function.update (Function.update F.next a (F.next x)) x none,
           enqueued := Function.update F.enqueued x false }
      (Function.update L k (xs ++ a :: ys)) := by
  have hmem : x ∈ L k := by simp [hk]
  have hmema : a ∈ L k := by simp [hk]
  have hnodup : (xs ++ a :: x :: ys).Nodup := hk ▸ h.nodup k
  have hsplit := hnodup
  simp only [List.nodup_append, List.nodup_cons, List.mem_cons, not_or] at hsplit
  obtain ⟨-, ⟨⟨hax, hays⟩, hxys, -⟩, hdisj⟩ := hsplit
  have haxs : a ∉ xs := fun hm => hdisj a hm a (.inl rfl) rfl
  have hxxs : x ∉ xs := fun hm => hdisj x hm x (.inr (.inl rfl)) rfl
  have herase : (L k).erase x = xs ++ a :: ys := by
    rw [hk, List.erase_append_right _ hxxs, List.erase_cons_tail (by simpa using hax),
      List.erase_cons_head]
  have hnext : F.next x = ys.head? := by
    have hc := h.chain k
    rw [hk, show xs ++ a :: x :: ys = (xs ++ [a]) ++ x :: ys by simp] at hc
    exact hc.next_eq
  have hnodup' : (xs ++ a :: ys).Nodup := herase ▸ (h.nodup k).erase x
  refine h.of_local ?_ ?_ hnodup' ?_ (fun _ _ => rfl) ?_ ?_ (herase ▸ h.enq_erase hmem)
  · -- the path up to `a` is kept, `a` now leads to what followed `x`
    have hc := h.chain k
    rw [hk] at hc
    obtain ⟨r, h1, rfl, rest⟩ := path_append.mp hc
    refine path_append.mpr ⟨some a, (h1.update haxs _).update hxxs none, rfl, ?_⟩
    have hto : Function.update (Function.update F.next a (F.next x)) x none a = F.next x := by
      rw [Function.update_of_ne hax, Function.update_self]
    show Path _ (Function.update (Function.update F.next a (F.next x)) x none a) _ _
    rw [hto]
    exact (rest.2.update hays _).update hxys none
  · rw [hnext]
    cases ys with
    | nil => simp
    | cons y ys => simp [h.tail k, hk]
  · exact fun y hy => .inl (by rw [← herase] at hy; exact List.mem_of_mem_erase hy)
  · intro k' hk'
    show (if F.next x = none then _ else _ : κ → Option ι) k' = _
    split <;> simp [hk']
  · intro k' y hk' hy
    have hyx : y ≠ x := fun he => hk' (h.disj (he ▸ hy) hmem)
    have hya : y ≠ a := fun he => hk' (h.disj (he ▸ hy) hmema)
    simp [hyx, hya]

/-- `Fifo::remove` ends and takes exactly the given element out. -/
theorem remove (h : Repr F L) {n : Nat} (hn : (L k).length ≤ n) (x : ι) :
    ∃ F', F.remove n k x = .ok F' ∧ Repr F' (Function.update L k ((L k).erase x)) := by
  cases hk : L k with
  | nil =>
    refine ⟨F, ?_, ?_⟩
    · simp [Fifos.remove, (h.empty_iff k).mpr hk]
    · rwa [List.erase_nil, ← hk, Function.update_eq_self]
  | cons b bs =>
    have hne : ¬ F.empty k = true := by simp [h.empty_iff, hk]
    have hhd : F.head k = some b := by simp [h.head_eq, hk]
    by_cases hbx : b = x
    · subst hbx
      have hnext : F.next b = bs.head? := by
        have hc := h.chain k
        rw [hk] at hc
        exact Chain.head_eq hc.2
      refine ⟨_, by simp [Fifos.remove, hne, hhd]; rfl, ?_⟩
      rw [List.erase_cons_head]
      refine h.remove_head hk _ ?_ ?_
      · rw [hnext]
        cases bs with
        | nil => simp
        | cons c cs => simp [h.tail k, hk]
      · intro k' hk'
        split <;> simp [hk']
    · have hhd' : ¬ F.head k = some x := by simp [hhd, hbx]
      by_cases hmem : x ∈ L k
      · -- the search stops at the predecessor of `x`
        obtain ⟨s, t, hst⟩ := List.append_of_mem hmem
        rcases List.eq_nil_or_concat s with rfl | ⟨xs, a, rfl⟩
        · exact absurd (by simpa [hk] using hst) (fun he : b = x ∧ bs = t => hbx he.1)
        · have hshape : L k = xs ++ a :: x :: t := by simpa using hst
          have hnd := h.nodup k
          rw [hshape, show xs ++ a :: x :: t = (xs ++ [a]) ++ x :: t by simp] at hnd
          have hx : x ∉ xs ++ [a] := fun hm =>
            (List.nodup_append.mp hnd).2.2 x hm x (by simp) rfl
          have hseek : seek F.next x n b = some a := by
            have hc := h.chain k
            rw [hshape, hhd] at hc
            refine hc.seek_mem hx ?_
            rw [hshape] at hn
            simp at hn
            omega
          have hax : F.next a = some x := by
            have hc := h.chain k
            rw [hshape] at hc
            simpa using hc.next_eq
          refine ⟨_, by simp [Fifos.remove, hne, hhd, hbx, hseek, hax]; rfl, ?_⟩
          have herase : (b :: bs).erase x = xs ++ a :: t := by
            rw [← hk, hshape, show xs ++ a :: x :: t = (xs ++ [a]) ++ x :: t by simp,
              List.erase_append_right _ hx, List.erase_cons_head]
            simp
          rw [herase]
          exact h.remove_inner hshape
      · have hc := h.chain k
        rw [hhd] at hc
        have hx : x ∉ (L k).tail := fun hm => hmem (List.mem_of_mem_tail hm)
        obtain ⟨a, ha, hl⟩ := hc.seek_not_mem hx hn
        refine ⟨F, by simp [Fifos.remove, hne, hhd, hbx, ha, hl], ?_⟩
        rwa [← hk, List.erase_of_not_mem hmem, Function.update_eq_self]

theorem dequeue (h : Repr F L) (k : κ) :
    (F.dequeue k).1 = (L k).head? ∧
      Repr (F.dequeue k).2 (Function.update L k (L k).tail) := by
  cases hk : L k with
  | nil =>
    have hhd : F.head k = none := by simp [h.head_eq, hk]
    have htl : F.tail k = none := by simp [h.tail, hk]
    have hsame : (F.dequeue k).2 = F := by
      simp only [Fifos.dequeue, hhd, htl, if_true]
      rw [show Function.update F.head k none = F.head by rw [← hhd, Function.update_eq_self],
        show Function.update F.tail k none = F.tail by rw [← htl, Function.update_eq_self]]
    refine ⟨by simp [Fifos.dequeue, hhd], ?_⟩
    rwa [hsame, List.tail_nil, ← hk, Function.update_eq_self]
  | cons x xs =>
    have hhd : F.head k = some x := by simp [h.head_eq, hk]
    have hnext : F.next x = xs.head? := by
      have hc := h.chain k
      rw [hk] at hc
      exact Chain.head_eq hc.2
    refine ⟨by simp [Fifos.dequeue, hhd], ?_⟩
    rw [List.tail_cons]
    rcases List.eq_nil_or_concat xs with rfl | ⟨ys, t, rfl⟩
    · have htl : F.tail k = some x := by simp [h.tail, hk]
      have hn : F.next x = none := by simpa using hnext
      have hr := h.remove_head hk (Function.update F.tail k none) (by simp)
        (fun k' hk' => by simp [hk'])
      simp only [Fifos.dequeue, hhd, htl, if_true]
      rwa [hn] at hr
    · rw [List.concat_eq_append] at hk hnext ⊢
      have htl : F.tail k = some t := by
        rw [h.tail, hk, ← List.cons_append, List.getLast?_concat]
      have hxt : x ≠ t := by
        have := h.nodup k
        rw [hk] at this
        simp at this
        exact this.1.2
      have hr := h.remove_head hk F.tail (by simp [htl]) (fun _ _ => rfl)
      have hcond : ¬ F.head k = F.tail k := by simp [hhd, htl, hxt]
      simp only [Fifos.dequeue, hhd, htl, Option.some.injEq, hxt, if_false, Option.bind_some]
      exact hr

omit [DecidableEq ι] in
theorem construct (h : Repr F L) (hk : L k = []) : Repr (F.construct k) L := by
  have hhd : F.head k = none := by simp [h.head_eq, hk]
  have htl : F.tail k = none := by simp [h.tail, hk]
  have hsame : F.construct k = F := by
    rw [Fifos.construct, ← hhd, Function.update_eq_self, hhd, ← htl, Function.update_eq_self]
  rwa [hsame]

omit [DecidableEq κ] in
theorem constructElement (h : Repr F L) (hx : ∀ k, x ∉ L k) : Repr (F.constructElement x) L where
  chain := fun k => (h.chain k).update (hx k) none
  tail := h.tail
  nodup := h.nodup
  disj := h.disj
  enq := by
    intro y
    by_cases hy : y = x
    · subst hy
      simp [Fifos.constructElement, hx]
    · simp [Fifos.constructElement, hy, h.enq]

end Repr

end Fifos

end Genode.Util
