/-
Growable arrays with unspecified gaps: the abstract value of a file.

An array has a length and, at each position, either a value or nothing; nothing
means that no write has determined the position, which is what a write past the
end leaves between the old end and its start. `Models` says that a concrete
reading agrees with every determined position, and `Models.write` is the one
fact a concrete write has to establish.
-/
import Mathlib.Tactic

set_option autoImplicit false

/-- A growable array over `α` whose positions may be undetermined. -/
structure GrowArray (α : Type*) where
  length : ℕ
  get : ℕ → Option α

namespace GrowArray

variable {α : Type*}

/-- The array of `n` determined values. -/
def ofFun (n : ℕ) (f : ℕ → α) : GrowArray α := ⟨n, fun p => some (f p)⟩

/-- Writing `size` values at `offset`, growing the array to the end of the range
if it is shorter. -/
def write (A : GrowArray α) (offset size : ℕ) (buf : ℕ → α) : GrowArray α where
  length := max A.length (offset + size)
  get p :=
    if offset ≤ p ∧ p < offset + size then some (buf (p - offset))
    else if p < A.length then A.get p
    else none

/-- The reading `f` of `n` positions agrees with the array. -/
structure Models (A : GrowArray α) (n : ℕ) (f : ℕ → α) : Prop where
  length : n = A.length
  get : ∀ p < n, ∀ a, A.get p = some a → f p = a

theorem models_ofFun (n : ℕ) (f : ℕ → α) : (ofFun n f).Models n f where
  length := rfl
  get _ _ _ h := Option.some.inj h

/-- **The write rule.** A reading that has the buffer on the range, and what it had
below the old length outside it, models the written array. -/
theorem Models.write {A : GrowArray α} {n n' offset size : ℕ} {f f' buf : ℕ → α}
    (h : A.Models n f) (hlen : n' = max n (offset + size))
    (hin : ∀ i < size, f' (offset + i) = buf i)
    (hout : ∀ p < n, ¬ (offset ≤ p ∧ p < offset + size) → f' p = f p) :
    (A.write offset size buf).Models n' f' where
  length := by rw [hlen, h.length]; rfl
  get p _ a ha := by
    simp only [GrowArray.write] at ha
    by_cases hr : offset ≤ p ∧ p < offset + size
    · rw [if_pos hr] at ha
      have hp := hin (p - offset) (by omega)
      rw [Nat.add_sub_cancel' hr.1] at hp
      rw [hp]
      exact Option.some.inj ha
    · rw [if_neg hr, ← h.length] at ha
      by_cases hlt : p < n
      · rw [if_pos hlt] at ha
        rw [hout p hlt hr]
        exact h.get p hlt a ha
      · rw [if_neg hlt] at ha
        cases ha

end GrowArray
