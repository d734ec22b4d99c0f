import Genode.Tresor.MetaTreeWalk

/-!
# MetaTreePath — the way from the root to the node in work

The levels above the node in work hold their node blocks and point to the
next node below; the levels under it are idle. A level that nothing was
changed in is still as the disc has it.
-/

namespace Genode.Tresor.MetaTree

open Genode.Lib

/-- What the parent of the node of a level has noted about it. -/
def Records (V : Nat → View) (l : Nat) (r : Type1Node) : Prop :=
  ∃ i : Fin nrOfNodesPerBlk, i.val = (V (l + 1)).index ∧ (V (l + 1)).child i = some r

/-- A level will have to be written because of what was done to it or below. -/
def Touched (V : Nat → View) (l : Nat) : Prop :=
  ∃ k, 1 ≤ k ∧ k ≤ l ∧ (V k).state ≠ .invalid ∧ (V k).dirty = true

/-- The node of a level is the one on disc. -/
structure Kept (sha : Block → Hash) (edges : UInt64) (disk : Disk) (V : Nat → View) (l : Nat) :
    Prop where
  records : Records V l (V l).node
  shown : Shows edges l (disk (V l).node.pba) (V l)
  matched : sha (disk (V l).node.pba) = (V l).node.hash

/-- The node in work. -/
structure Focus (sha : Block → Hash) (edges : UInt64) (disk : Disk) (V : Nat → View) (m : Nat) :
    Prop where
  entered : (V m).state ≠ .invalid
  reading : (V m).state = .read → Records V m (V m).node ∧ (V m).dirty = false
  kept : (V m).state = .readComplete ∨ (V m).state = .complete → (V m).dirty = false →
    Kept sha edges disk V m
  complete : (V m).state = .complete → (V m).dirty = false
  written : (V m).state = .writeComplete → (V (m + 1)).dirty = true

structure Path (sha : Block → Hash) (edges : UInt64) (disk : Disk) (top : Nat) (V : Nat → View)
    (m : Nat) : Prop extends Focus sha edges disk V m where
  pos : 1 ≤ m
  le : m ≤ top
  above : ∀ l, m < l → l ≤ top + 1 → (V l).state = .readComplete ∧ ∃ r, Records V (l - 1) r
  below : ∀ l, l < m → (V l).state = .invalid
  upper : ∀ l, m < l → l ≤ top → ¬ Touched V l → Kept sha edges disk V l

section Path

variable {sha : Block → Hash} {edges : UInt64} {disk disk' : Disk} {top m l : Nat}
  {V : Nat → View} {v : View} {r : Type1Node}

theorem Path.above_succ (h : Path sha edges disk top V m) :
    (V (m + 1)).state = .readComplete ∧ ∃ r, Records V m r := by
  have habove := h.above (m + 1) (Nat.lt_succ_self m) (Nat.succ_le_succ h.le)
  rwa [Nat.add_sub_cancel] at habove

theorem Path.held_above (h : Path sha edges disk top V m) : (V (m + 1)).state.held = true := by
  rw [h.above_succ.1]
  rfl

theorem Path.not_held_below (h : Path sha edges disk top V m) :
    (V (m - 1)).state.held = false := by
  rw [h.below (m - 1) (Nat.sub_lt h.pos Nat.one_pos)]
  rfl

theorem touched_above (h : Path sha edges disk top V m) (hd : (V (m + 1)).dirty = true)
    (hl : m < l) : Touched V l := by
  refine ⟨m + 1, Nat.le_add_left 1 m, hl, ?_, hd⟩
  rw [h.above_succ.1]
  exact nofun

theorem records_update (hl : l + 1 ≠ m) : Records (Function.update V m v) l r ↔ Records V l r := by
  unfold Records
  rw [Function.update_of_ne hl]

theorem Kept.congr {W : Nat → View} (h : Kept sha edges disk V l) (hl : W l = V l)
    (hn : W (l + 1) = V (l + 1)) : Kept sha edges disk W l := by
  obtain ⟨⟨i, hi, hc⟩, hs, hm⟩ := h
  exact ⟨⟨i, by rw [hn, hl]; exact ⟨hi, hc⟩⟩, by rw [hl]; exact hs, by rw [hl]; exact hm⟩

/-- The node in work changes, and perhaps the disc, if that is going to be
noted above. -/
theorem Path.update (h : Path sha edges disk top V m)
    (hd : (V m).dirty = true → v.dirty = true)
    (hdisk : disk' = disk ∨ (V (m + 1)).dirty = true)
    (hf : Focus sha edges disk' (Function.update V m v) m) :
    Path sha edges disk' top (Function.update V m v) m where
  toFocus := hf
  pos := h.pos
  le := h.le
  above l hl hle := by
    obtain ⟨hs, r, hr⟩ := h.above l hl hle
    rw [Function.update_of_ne (Nat.ne_of_gt hl)]
    exact ⟨hs, r, (records_update (by omega)).mpr hr⟩
  below l hl := by
    rw [Function.update_of_ne (Nat.ne_of_lt hl)]
    exact h.below l hl
  upper l hl hle ht := by
    have hnot : ¬ Touched V l := by
      intro hk
      obtain ⟨k, h1, hk, hs, hdk⟩ := hk
      apply ht
      by_cases hkm : k = m
      · subst hkm
        refine ⟨k, h1, hk, hf.entered, ?_⟩
        rw [Function.update_self]
        exact hd hdk
      · refine ⟨k, h1, hk, ?_, ?_⟩ <;> rw [Function.update_of_ne hkm] <;> assumption
    rcases hdisk with hdisk | hdisk
    · rw [hdisk]
      exact (h.upper l hl hle hnot).congr (Function.update_of_ne (Nat.ne_of_gt hl) ..)
        (Function.update_of_ne (by omega) ..)
    · exact absurd (touched_above h hdisk hl) hnot

theorem Path.touched_iff (h : Path sha edges disk top V m) : Touched V m ↔ (V m).dirty = true := by
  constructor
  · intro hk
    obtain ⟨k, h1, hk, hs, hdk⟩ := hk
    by_cases hkm : k = m
    · exact hkm ▸ hdk
    · exact absurd (h.below k (Nat.lt_of_le_of_ne hk hkm)) hs
  · intro hd
    exact ⟨m, h.pos, le_rfl, h.entered, hd⟩

/-- The child at the index is entered. -/
theorem Path.descend (h : Path sha edges disk top V (m + 1)) (hm : 1 ≤ m)
    (hs : (V (m + 1)).state = .readComplete) (hr : Records V m v.node) (hv : v.state = .read)
    (hd : v.dirty = false) : Path sha edges disk top (Function.update V m v) m where
  entered := by
    rw [Function.update_self, hv]
    exact nofun
  reading _ := by
    rw [Function.update_self]
    exact ⟨(records_update (Nat.succ_ne_self m)).mpr hr, hd⟩
  kept hst := by
    rw [Function.update_self, hv] at hst
    rcases hst with hst | hst <;> cases hst
  complete hst := by
    rw [Function.update_self, hv] at hst
    cases hst
  written hst := by
    rw [Function.update_self, hv] at hst
    cases hst
  pos := hm
  le := Nat.le_of_succ_le h.le
  above l hl hle := by
    rw [Function.update_of_ne (Nat.ne_of_gt hl)]
    by_cases hlm : l = m + 1
    · subst hlm
      exact ⟨hs, _, (records_update (Nat.succ_ne_self m)).mpr hr⟩
    · obtain ⟨hsl, r, hrl⟩ := h.above l (by omega) hle
      exact ⟨hsl, r, (records_update (by omega)).mpr hrl⟩
  below l hl := by
    rw [Function.update_of_ne (Nat.ne_of_lt hl)]
    exact h.below l (Nat.lt_succ_of_lt hl)
  upper l hl hle ht := by
    have hnot : ¬ Touched V l := by
      intro hk
      obtain ⟨k, h1, hk, hsk, hdk⟩ := hk
      have hkm : k ≠ m := fun hkm => hsk (h.below k (by omega))
      exact ht ⟨k, h1, hk, by rwa [Function.update_of_ne hkm], by rwa [Function.update_of_ne hkm]⟩
    have hk : Kept sha edges disk V l := by
      by_cases hlm : l = m + 1
      · subst hlm
        apply h.kept (.inl hs)
        rw [← Bool.not_eq_true, ← h.touched_iff]
        exact hnot
      · exact h.upper l (by omega) hle hnot
    exact hk.congr (Function.update_of_ne (Nat.ne_of_gt hl) ..)
      (Function.update_of_ne (by omega) ..)

/-- The parent notes where the node in work is written to. -/
theorem Path.record (h : Path sha edges disk top V m) (hs : (V m).state = .write)
    (hstate : v.state = .readComplete)
    (hd : v.dirty = true) {i : Fin nrOfNodesPerBlk} (hi : i.val = v.index)
    (hc : v.child i = some r) :
    Path sha edges disk top (Function.update V (m + 1) v) m ∧
      Records (Function.update V (m + 1) v) m r := by
  have hself : Function.update V (m + 1) v m = V m := Function.update_of_ne (by omega) ..
  have hnext : Function.update V (m + 1) v (m + 1) = v := Function.update_self ..
  have hrec : Records (Function.update V (m + 1) v) m r := ⟨i, by rw [hnext]; exact ⟨hi, hc⟩⟩
  have hpath : Path sha edges disk top (Function.update V (m + 1) v) m :=
    { entered := by rw [hself]; exact h.entered
      reading := fun hst => by rw [hself, hs] at hst; cases hst
      kept := fun hst => by rw [hself, hs] at hst; rcases hst with hst | hst <;> cases hst
      complete := fun hst => by rw [hself, hs] at hst; cases hst
      written := fun hst => by rw [hself, hs] at hst; cases hst
      pos := h.pos
      le := h.le
      above := fun l hl hle => by
        by_cases hlm : l = m + 1
        · subst hlm
          rw [hnext]
          exact ⟨hstate, r, hrec⟩
        · obtain ⟨hsl, r', hrl⟩ := h.above l hl hle
          rw [Function.update_of_ne hlm]
          exact ⟨hsl, r', (records_update (by omega)).mpr hrl⟩
      below := fun l hl => by
        rw [Function.update_of_ne (by omega)]
        exact h.below l hl
      upper := fun l hl _ ht => by
        apply absurd _ ht
        refine ⟨m + 1, Nat.le_add_left 1 m, hl, ?_, ?_⟩
        · rw [hnext, hstate]
          exact nofun
        · rw [hnext]
          exact hd }
  exact ⟨hpath, hrec⟩

/-- The node in work is done, and its parent goes on. -/
theorem Path.ascend (h : Path sha edges disk top V m) (hlt : m < top)
    (hs : (V m).state = .writeComplete ∨ (V m).state = .complete) {w : View}
    (hw : w = { V (m + 1) with index := (V (m + 1)).index + 1 }) (hv : v.state = .invalid) :
    Path sha edges disk top (Function.update (Function.update V m v) (m + 1) w) (m + 1) := by
  have hnext : Function.update (Function.update V m v) (m + 1) w (m + 1) = w :=
    Function.update_self ..
  have hother : ∀ l, l ≠ m → l ≠ m + 1 →
      Function.update (Function.update V m v) (m + 1) w l = V l := by
    intro l hl hl'
    rw [Function.update_of_ne hl', Function.update_of_ne hl]
  have hstate : w.state = .readComplete := by
    rw [hw]
    exact h.above_succ.1
  have hbelow : ∀ l, l < m + 1 →
      (Function.update (Function.update V m v) (m + 1) w l).state = .invalid := by
    intro l hl
    by_cases hlm : l = m
    · rw [hlm, Function.update_of_ne (Nat.ne_of_lt (Nat.lt_succ_self m)), Function.update_self, hv]
    · rw [hother l hlm (Nat.ne_of_lt hl)]
      exact h.below l (by omega)
  -- a level that is not touched now was not touched by the node that is done
  have hnot : ∀ l, m < l → ¬ Touched (Function.update (Function.update V m v) (m + 1) w) l →
      ¬ Touched V l := by
    intro l hl ht hk
    obtain ⟨k, h1, hk, hsk, hdk⟩ := hk
    have hup : (V (m + 1)).dirty = true →
        Touched (Function.update (Function.update V m v) (m + 1) w) l := by
      intro hd
      refine ⟨m + 1, Nat.le_add_left 1 m, hl, ?_, ?_⟩
      · rw [hnext, hstate]
        exact nofun
      · rw [hnext, hw]
        exact hd
    by_cases hkm : k = m
    · subst hkm
      rcases hs with hs | hs
      · exact ht (hup (h.written hs))
      · rw [h.complete hs] at hdk
        cases hdk
    · by_cases hkm' : k = m + 1
      · subst hkm'
        exact ht (hup hdk)
      · exact ht ⟨k, h1, hk, by rwa [hother k hkm hkm'], by rwa [hother k hkm hkm']⟩
  refine { entered := ?_, reading := ?_, kept := ?_, complete := ?_, written := ?_, pos := ?_,
           le := hlt, above := ?_, below := hbelow, upper := ?_ }
  · rw [hnext, hstate]
    exact nofun
  · intro hst
    rw [hnext, hstate] at hst
    cases hst
  · intro _ hd
    rw [hnext] at hd
    have ht : ¬ Touched (Function.update (Function.update V m v) (m + 1) w) (m + 1) := by
      intro hk
      obtain ⟨k, h1, hk, hsk, hdk⟩ := hk
      by_cases hkm : k = m + 1
      · subst hkm
        rw [hnext, hd] at hdk
        cases hdk
      · exact hsk (hbelow k (by omega))
    obtain ⟨hr, hsh, hm⟩ := h.upper (m + 1) (Nat.lt_succ_self m) hlt (hnot _ (Nat.lt_succ_self m) ht)
    refine ⟨?_, ?_, ?_⟩
    · rw [hnext, hw, records_update (by omega), records_update (by omega)]
      exact hr
    · rw [hnext, hw]
      exact ⟨hsh.leaves, hsh.child⟩
    · rw [hnext, hw]
      exact hm
  · intro hst
    rw [hnext, hstate] at hst
    cases hst
  · intro hst
    rw [hnext, hstate] at hst
    cases hst
  · exact Nat.le_add_left 1 m
  · intro l hl hle
    obtain ⟨hsl, r, hrl⟩ := h.above l (by omega) hle
    rw [hother l (by omega) (by omega)]
    exact ⟨hsl, r, (records_update (by omega)).mpr ((records_update (by omega)).mpr hrl)⟩
  · intro l hl hle ht
    exact (h.upper l (by omega) hle (hnot l (by omega) ht)).congr (hother l (by omega) (by omega))
      (hother (l + 1) (by omega) (by omega))

/-! ## What happens to the node in work -/

/-- The node in work was read. -/
theorem Path.load (h : Path sha edges disk top V m) (hs : (V m).state = .read)
    (hv : v.state = .readComplete) (hn : v.node = (V m).node) (hd : v.dirty = (V m).dirty)
    (hshow : Shows edges m (disk v.node.pba) v) (hsha : sha (disk v.node.pba) = v.node.hash) :
    Path sha edges disk top (Function.update V m v) m ∧
      stored edges disk top V = stored edges disk top (Function.update V m v) + ({v.node}, 0) ∧
      heldNodes top (Function.update V m v) = heldNodes top V + {v.node} := by
  have hself : Function.update V m v m = v := Function.update_self ..
  have hback : Function.update (Function.update V m v) m (V m) = V := by
    rw [Function.update_idem, Function.update_eq_self]
  obtain ⟨hrec, _⟩ := h.reading hs
  have hrec' : Records (Function.update V m v) m v.node := by
    rw [records_update (Nat.succ_ne_self m), hn]
    exact hrec
  have hheld : (Function.update V m v m).state.held = true := by
    rw [hself, hv]
    rfl
  have hnot : (V m).state.held = false := by
    rw [hs]
    rfl
  have hpath : Path sha edges disk top (Function.update V m v) m := by
    apply h.update (fun hdm => hd.trans hdm) (.inl rfl)
    refine { entered := ?_, reading := ?_, kept := ?_, complete := ?_, written := ?_ }
    · rw [hself, hv]
      exact nofun
    · intro hst
      rw [hself, hv] at hst
      cases hst
    · intro _ _
      exact ⟨by rw [hself]; exact hrec', by rw [hself]; exact hshow, by rw [hself]; exact hsha⟩
    · intro hst
      rw [hself, hv] at hst
      cases hst
    · intro hst
      rw [hself, hv] at hst
      cases hst
  obtain ⟨i, hi, hc⟩ := hrec'
  refine ⟨hpath, ?_, ?_⟩
  · have hunload := stored_unload edges disk (V := Function.update V m v)
      (v := V m) (i := i) (n := v.node) h.pos h.le hheld hnot hpath.not_held_below
      hpath.held_above hi hc (by rw [hself]; exact hshow)
    rwa [hback] at hunload
  · have hunload := heldNodes_unload (V := Function.update V m v) (v := V m) h.pos h.le hheld hnot
    rwa [hback, hself] at hunload

/-- The node in work is put back as it is on disc. -/
theorem Path.unload (h : Path sha edges disk top V m) (hs : (V m).state = .complete)
    (hv : v.state = .invalid) :
    stored edges disk top (Function.update V m v) = stored edges disk top V + ({(V m).node}, 0) ∧
      heldNodes top V = heldNodes top (Function.update V m v) + {(V m).node} ∧
      sha (disk (V m).node.pba) = (V m).node.hash := by
  obtain ⟨⟨i, hi, hc⟩, hshow, hsha⟩ := h.kept (.inr hs) (h.complete hs)
  have hheld : (V m).state.held = true := by
    rw [hs]
    rfl
  have hnot : v.state.held = false := by
    rw [hv]
    rfl
  exact ⟨stored_unload edges disk h.pos h.le hheld hnot h.not_held_below h.held_above hi hc hshow,
    heldNodes_unload h.pos h.le hheld hnot, hsha⟩

/-- The node in work is written as its parent has noted. -/
theorem Path.store (h : Path sha edges disk top V m) (hs : (V m).state = .write)
    (hv : v.state = .writeComplete) (hd : (V m).dirty = true → v.dirty = true)
    (hnodup : ((heldNodes top V + (stored edges disk top V).1).map Type1Node.pba).Nodup)
    {blk : Block} (hshow : Shows edges m blk (V m)) (hrec : Records V m r)
    (hr : r.pba = (V m).node.pba) (hup : (V (m + 1)).dirty = true) :
    Path sha edges (Function.update disk r.pba blk) top (Function.update V m v) m ∧
      stored edges (Function.update disk r.pba blk) top (Function.update V m v) =
        stored edges disk top V + ({r}, 0) ∧
      heldNodes top V = heldNodes top (Function.update V m v) + {(V m).node} := by
  have hself : Function.update V m v m = v := Function.update_self ..
  have hheld : (V m).state.held = true := by
    rw [hs]
    rfl
  have hnot : v.state.held = false := by
    rw [hv]
    rfl
  have hnodes := heldNodes_unload h.pos h.le hheld hnot
  have hdisk : stored edges (Function.update disk r.pba blk) top V = stored edges disk top V := by
    apply stored_disk
    intro r' hr'
    rw [hr]
    rw [hnodes] at hnodup
    exact Books.pba_ne_of_nodup hnodup hr'
  obtain ⟨i, hi, hc⟩ := hrec
  refine ⟨?_, ?_, hnodes⟩
  · apply h.update hd (.inr hup)
    refine { entered := ?_, reading := ?_, kept := ?_, complete := ?_, written := ?_ }
    · rw [hself, hv]
      exact nofun
    · intro hst
      rw [hself, hv] at hst
      cases hst
    · intro hst
      rw [hself, hv] at hst
      rcases hst with hst | hst <;> cases hst
    · intro hst
      rw [hself, hv] at hst
      cases hst
    · intro _
      rw [Function.update_of_ne (by omega)]
      exact hup
  · rw [← hdisk]
    apply stored_unload edges _ h.pos h.le hheld hnot h.not_held_below h.held_above hi hc
    rw [Function.update_self]
    exact hshow

/-- A level that is left with its block as it is. -/
theorem Path.finish (h : Path sha edges disk top V m) (hs : (V m).state = .readComplete)
    {state : NodeState} (hw : state = if (V m).dirty then .write else .complete)
    (hv : v = { V m with state := state }) :
    Path sha edges disk top (Function.update V m v) m := by
  have hself : Function.update V m v m = v := Function.update_self ..
  have hstate : v.state = if (V m).dirty then .write else .complete := by
    rw [hv]
    exact hw
  have hdirty : v.dirty = (V m).dirty := by
    rw [hv]
  apply h.update (fun hd => hdirty.trans hd) (.inl rfl)
  refine { entered := ?_, reading := ?_, kept := ?_, complete := ?_, written := ?_ }
  · rw [hself, hstate]
    split <;> exact nofun
  · intro hst
    rw [hself, hstate] at hst
    split at hst <;> cases hst
  · intro _ hd
    rw [hself, hdirty] at hd
    obtain ⟨hr, hsh, hm⟩ := h.kept (.inl hs) hd
    refine ⟨?_, ?_, ?_⟩
    · rw [hself, hv, records_update (Nat.succ_ne_self m)]
      exact hr
    · rw [hself, hv]
      exact ⟨hsh.leaves, hsh.child⟩
    · rw [hself, hv]
      exact hm
  · intro hst
    rw [hself, hstate] at hst
    rw [hself, hdirty]
    split at hst
    · cases hst
    · rename_i hd
      exact Bool.not_eq_true _ ▸ hd
  · intro hst
    rw [hself, hstate] at hst
    split at hst <;> cases hst

end Path

end Genode.Tresor.MetaTree
