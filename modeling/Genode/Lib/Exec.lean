import Mathlib.Data.Finset.Basic

/-!
# Exec — code that may fail to return

The modelled code has no error results of its own at many places where
it can still go wrong: it follows a pointer without a check, it loops
over a list that could be cyclic, or it asserts something about its
caller. `Exec` makes these outcomes explicit, so that "this never
happens" is a statement about the model.
-/

namespace Genode.Lib

/-- The ways in which a piece of code does not return. -/
inductive Fault where
  /-- A failed assertion, which loops forever. -/
  | assertion
  /-- An access through a null pointer or to an object that is gone. -/
  | pointer
  /-- A loop or a recursion that does not end. -/
  | endless
  deriving DecidableEq, Repr

abbrev Exec (α : Type) := Except Fault α

namespace Exec

variable {α β : Type}

/-- `assert(c)`. -/
def assert (c : Bool) : Exec Unit := if c then .ok () else .error .assertion

/-- Access through a pointer that may be null. -/
def deref : Option α → Exec α
  | some a => .ok a
  | none => .error .pointer

/-- Access to an object that exists only if it is in `live`. -/
def access [DecidableEq α] (live : Finset α) (x : α) : Exec Unit :=
  if x ∈ live then .ok () else .error .pointer

/-- The result of a loop that runs on fuel. -/
def ended : Option α → Exec α
  | some a => .ok a
  | none => .error .endless

@[simp] theorem assert_true : assert true = .ok () := rfl

@[simp] theorem assert_false : assert false = .error .assertion := rfl

@[simp] theorem deref_some (a : α) : deref (some a) = .ok a := rfl

@[simp] theorem deref_none : deref (none : Option α) = .error .pointer := rfl

theorem access_of_mem [DecidableEq α] {live : Finset α} {x : α} (h : x ∈ live) :
    access live x = .ok () := if_pos h

theorem access_eq_ok [DecidableEq α] {live : Finset α} {x : α} {u : Unit} :
    access live x = .ok u ↔ x ∈ live := by
  unfold access
  split <;> simp [*]

@[simp] theorem ended_some (a : α) : ended (some a) = .ok a := rfl

@[simp] theorem ok_bind (a : α) (f : α → Exec β) : ((Except.ok a : Exec α) >>= f) = f a := rfl

@[simp] theorem error_bind (e : Fault) (f : α → Exec β) :
    ((Except.error e : Exec α) >>= f) = .error e := rfl

@[simp] theorem pure_eq (a : α) : (pure a : Exec α) = .ok a := rfl

/-- A sequence returns if its first part returns and the rest does. -/
theorem bind_eq_ok {x : Exec α} {f : α → Exec β} {b : β} :
    (x >>= f) = .ok b ↔ ∃ a, x = .ok a ∧ f a = .ok b := by
  cases x with
  | error e => simp
  | ok a => simp

theorem assert_eq_ok {c : Bool} {u : Unit} : assert c = .ok u ↔ c = true := by
  cases c <;> simp

end Exec

end Genode.Lib
