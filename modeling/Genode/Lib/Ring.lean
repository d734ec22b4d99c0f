import Genode.Lib.Chain

/-!
# Ring — doubly linked lists without an end

The members of a ring are linked by `next` in a circle, and by `prev` the
other way round. A ring is seen from one of its members, and the others
are listed in the order of `next`.
-/

namespace Genode.Lib

variable {ι : Type*} {next next' prev prev' : ι → Option ι} {x y z w : ι} {xs ys : List ι}

/-- From `x`, the links lead through `xs` and back to `x`. -/
structure Ring (next prev : ι → Option ι) (x : ι) (xs : List ι) : Prop where
  path : Path next (next x) xs (some x)
  nodup : (x :: xs).Nodup
  back : ∀ {y z}, y ∈ x :: xs → next y = some z → prev z = some y

namespace Ring

theorem single (hn : next x = some x) (hp : prev x = some x) : Ring next prev x [] where
  path := hn
  nodup := List.nodup_singleton x
  back := by
    intro y z hy hz
    obtain rfl := List.mem_singleton.mp hy
    rw [hn] at hz
    rw [← Option.some.inj hz, hp]

theorem next_self (h : Ring next prev x []) : next x = some x := h.path

theorem next_eq (h : Ring next prev x (y :: ys)) : next x = some y := h.path.1

/-- The ring, seen from the next member. -/
theorem rotate (h : Ring next prev x (y :: ys)) : Ring next prev y (ys ++ [x]) where
  path := path_concat.mpr ⟨h.path.2, h.next_eq⟩
  nodup := by
    have := h.nodup
    rw [List.nodup_cons, List.mem_cons] at this
    rw [← List.cons_append, List.nodup_append]
    refine ⟨this.2, List.nodup_singleton x, fun a ha b hb => ?_⟩
    rw [List.mem_singleton.mp hb]
    rintro rfl
    exact this.1 (List.mem_cons.mp ha)
  back := by
    intro a b ha hb
    refine h.back ?_ hb
    simp only [List.mem_cons, List.mem_append, List.not_mem_nil, or_false] at ha ⊢
    tauto

theorem mem_rotate {ys : List ι} : z ∈ y :: (ys ++ [x]) ↔ z ∈ x :: y :: ys := by
  simp only [List.mem_cons, List.mem_append, List.not_mem_nil, or_false]
  tauto

/-- The links of a member lead to members. -/
theorem next_mem (h : Ring next prev x xs) (hy : y ∈ x :: xs) :
    ∃ z ∈ x :: xs, next y = some z ∧ prev z = some y := by
  have hnext : ∃ z ∈ x :: xs, next y = some z := by
    obtain ⟨as, bs, hsplit⟩ := List.append_of_mem hy
    have hcircle : Path next (some x) ((x :: xs) ++ [x]) (next x) := by
      rw [path_concat]
      exact ⟨⟨rfl, h.path⟩, rfl⟩
    rw [hsplit, List.append_assoc, path_append] at hcircle
    obtain ⟨r, -, rfl, hrest⟩ := hcircle
    cases bs with
    | nil => exact ⟨x, List.mem_cons_self .., hrest.1⟩
    | cons b bs =>
      refine ⟨b, ?_, hrest.1⟩
      rw [hsplit]
      simp
  obtain ⟨z, hz, hn⟩ := hnext
  exact ⟨z, hz, hn, h.back hy hn⟩

/-- The link back from `x` leads to the last member. -/
theorem prev_eq (h : Ring next prev x (y :: ys)) (hw : prev x = some w) :
    ∃ zs, y :: ys = zs ++ [w] := by
  obtain ⟨zs, v, hlast⟩ : ∃ zs v, y :: ys = zs ++ [v] :=
    ⟨_, _, (List.dropLast_concat_getLast (List.cons_ne_nil y ys)).symm⟩
  have hpath := h.path
  rw [hlast] at hpath
  have hback := h.back (by simp [hlast]) (path_concat.mp hpath).2
  rw [hw] at hback
  exact ⟨zs, Option.some.inj hback ▸ hlast⟩

theorem congr (h : Ring next prev x xs) (hn : ∀ y ∈ x :: xs, next' y = next y)
    (hp : ∀ y ∈ x :: xs, prev' y = prev y) : Ring next' prev' x xs where
  path := by
    rw [hn x (List.mem_cons_self ..)]
    exact h.path.congr fun y hy => hn y (List.mem_cons_of_mem _ hy)
  nodup := h.nodup
  back := by
    intro y z hy hz
    rw [hn y hy] at hz
    obtain ⟨z', hz', hn', -⟩ := h.next_mem hy
    rw [hn'] at hz
    rw [hp z (Option.some.inj hz ▸ hz')]
    exact h.back hy (hn'.trans hz)

variable [DecidableEq ι]

/-- A new member behind `x`. -/
theorem insert (h : Ring next prev x xs) (hz : z ∉ x :: xs) (hw : next x = some w) :
    Ring (Function.update (Function.update next z (some w)) x (some z))
      (Function.update (Function.update prev z (some x)) w (some z)) x (z :: xs) := by
  have hzx : z ≠ x := fun he => hz (he ▸ List.mem_cons_self ..)
  have hzs : z ∉ xs := fun hm => hz (List.mem_cons_of_mem _ hm)
  have hxs : x ∉ xs := (List.nodup_cons.mp h.nodup).1
  obtain ⟨w', hw', hnext, hprev⟩ := h.next_mem (List.mem_cons_self (a := x) (l := xs))
  obtain rfl : w = w' := Option.some.inj (hw.symm.trans hnext)
  have hwz : w ≠ z := fun he => hz (he ▸ hw')
  refine ⟨?_, ?_, ?_⟩
  · rw [Function.update_self, path_cons, Function.update_of_ne hzx, Function.update_self]
    exact ⟨rfl, (hw ▸ (h.path.update hzs (some w))).update hxs (some z)⟩
  · refine List.nodup_cons.mpr ⟨?_, List.nodup_cons.mpr ⟨hzs, (List.nodup_cons.mp h.nodup).2⟩⟩
    simp [hzx.symm, hxs]
  · intro a b ha hb
    by_cases hax : a = x
    · subst hax
      rw [Function.update_self] at hb
      obtain rfl := Option.some.inj hb
      rw [Function.update_of_ne hwz.symm, Function.update_self]
    · rw [Function.update_of_ne hax] at hb
      by_cases haz : a = z
      · subst haz
        rw [Function.update_self] at hb
        obtain rfl := Option.some.inj hb
        rw [Function.update_self]
      · rw [Function.update_of_ne haz] at hb
        have ham : a ∈ x :: xs := by
          simp only [List.mem_cons] at ha ⊢
          tauto
        have hback := h.back ham hb
        have hbw : b ≠ w := by
          rintro rfl
          rw [hprev] at hback
          exact hax (Option.some.inj hback).symm
        have hbz : b ≠ z := by
          rintro rfl
          obtain ⟨c, hc, hnc, -⟩ := h.next_mem ham
          rw [hb] at hnc
          exact hz (Option.some.inj hnc ▸ hc)
        rw [Function.update_of_ne hbw, Function.update_of_ne hbz, hback]

/-- The ring without `x`, seen from the next member. -/
theorem remove (h : Ring next prev x (y :: ys)) (hw : prev x = some w) :
    Ring (Function.update next w (some y)) (Function.update prev y (some w)) y ys := by
  have hnd := h.nodup
  have hxy : x ∉ y :: ys := (List.nodup_cons.mp hnd).1
  have hyys : y ∉ ys := (List.nodup_cons.mp (List.nodup_cons.mp hnd).2).1
  obtain ⟨zs, hlast⟩ := h.prev_eq hw
  have hpath : Path next (some y) (zs ++ [w]) (some x) := by
    rw [← hlast, ← h.next_eq]
    exact h.path
  have hwzs : w ∉ zs := by
    have hnd' : (zs ++ [w]).Nodup := hlast ▸ (List.nodup_cons.mp hnd).2
    rw [List.nodup_append] at hnd'
    exact fun hm => hnd'.2.2 w hm w (List.mem_singleton_self w) rfl
  refine ⟨?_, (List.nodup_cons.mp hnd).2, ?_⟩
  · have := hpath.update_last hwzs (some y)
    rw [← hlast] at this
    exact this.2
  · intro a b ha hb
    by_cases haw : a = w
    · subst haw
      rw [Function.update_self] at hb
      rw [← Option.some.inj hb, Function.update_self]
    · rw [Function.update_of_ne haw] at hb
      have hback := h.back (List.mem_cons_of_mem x ha) hb
      have hby : b ≠ y := by
        rintro rfl
        have hpy := h.back (List.mem_cons_self ..) h.next_eq
        rw [hpy] at hback
        exact hxy (Option.some.inj hback ▸ ha)
      rw [Function.update_of_ne hby, hback]

end Ring

end Genode.Lib
