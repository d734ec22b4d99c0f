import Genode.Lib.Exec

/-!
# Steps — where a machine gets to

A machine that makes one step after the other, each of which may fail.
`Reaches` is total correctness: as the steps are determined, a machine
that reaches a state does get there.
-/

namespace Genode.Lib

variable {σ : Type} {f : σ → Exec σ} {s t u : σ}

/-- The machine gets from one state to another in finitely many steps, none
of which fails. -/
inductive Reaches (f : σ → Exec σ) : σ → σ → Prop where
  | refl (s : σ) : Reaches f s s
  | head {s t u : σ} (hs : f s = .ok t) (hr : Reaches f t u) : Reaches f s u

namespace Reaches

theorem single (h : f s = .ok t) : Reaches f s t := .head h (.refl t)

theorem trans (h : Reaches f s t) (h' : Reaches f t u) : Reaches f s u := by
  induction h with
  | refl s => exact h'
  | head hs _ ih => exact .head hs (ih h')

theorem tail (h : Reaches f s t) (hs : f t = .ok u) : Reaches f s u := h.trans (.single hs)

end Reaches

end Genode.Lib
