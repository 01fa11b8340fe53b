/-
How kernel code fails, and how the model strings it together.

Pintos checks itself with `ASSERT`, and it is C: an array subscript, a signed
sum or a stale pointer can also leave the language. The model is a shallow
embedding in `Except Fault`, so each of these is a value of `Fault` and the
statement that a call returns is the statement that it is not one.
-/
import Mathlib.Tactic

set_option autoImplicit false

namespace Pintos

/-- The ways kernel code stops short of returning. -/
inductive Fault
  /-- An `ASSERT` failed or `PANIC` was called. -/
  | assertion
  /-- An array was indexed outside its bounds. -/
  | bounds
  /-- A signed sum left its type. -/
  | overflow
  /-- A variable was read before it was assigned. -/
  | uninitialised
  /-- Freed memory was used. -/
  | dangling
  /-- A list element was put on a list while it is on another. -/
  | relinked
  /-- The call recurses without end. -/
  | diverge
  deriving Repr, DecidableEq

/-- The result of a kernel function. -/
abbrev Res (α : Type) := Except Fault α

/-- `ASSERT (p)`. -/
def ASSERT (p : Prop) [Decidable p] : Res Unit :=
  if p then .ok () else .error .assertion

@[simp] theorem ASSERT_pos {p : Prop} [Decidable p] (h : p) : ASSERT p = .ok () := by
  rw [ASSERT, if_pos h]

theorem ASSERT_eq_ok {p : Prop} [Decidable p] {u : Unit} (h : ASSERT p = .ok u) : p := by
  by_contra hp
  rw [ASSERT, if_neg hp] at h
  cases h

@[simp] theorem ok_bind {α β : Type} (a : α) (f : α → Res β) :
    ((Except.ok a : Res α) >>= f) = f a := rfl

@[simp] theorem error_bind {α β : Type} (e : Fault) (f : α → Res β) :
    ((Except.error e : Res α) >>= f) = .error e := rfl

@[simp] theorem pure_eq_ok {α : Type} (a : α) : (pure a : Res α) = .ok a := rfl

/-- A sequence that returns did so through its first half. Every proof that
peels a kernel function apart uses this instead of unfolding the bind. -/
theorem bind_eq_ok {α β : Type} {x : Res α} {f : α → Res β} {r : β}
    (h : (x >>= f) = .ok r) : ∃ a, x = .ok a ∧ f a = .ok r := by
  cases x with
  | error e => cases h
  | ok a => exact ⟨a, rfl, h⟩

end Pintos
