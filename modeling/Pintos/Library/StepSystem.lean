/-
Labelled step systems, and the one induction every run theorem of this
development goes through.

A system is an initial-state predicate and a step relation labelled by events.
What is particular here is the *guard*: `Reachable ok` is the set of states
reached by runs each of whose steps meets `ok`, a condition on the state before
the step and on the event. With the guard `fun _ _ => True` it is plain
reachability. Both kinds of statement ("in every reachable state" and "in every
run whose steps all meet the condition") are then the same rule,
`Reachable.invariant`.
-/
import Mathlib.Tactic

set_option autoImplicit false

namespace StepSystem

/-- A labelled step system over states `σ` and events `ε`. -/
structure System (σ ε : Type*) where
  /-- The states a run may start in. -/
  init : σ → Prop
  /-- `step s e s'`: event `e` takes `s` to `s'`. -/
  step : σ → ε → σ → Prop

variable {σ ε : Type*}

/-- The states reached by the runs of `S` all of whose steps meet `ok`. -/
inductive Reachable (S : System σ ε) (ok : σ → ε → Prop) : σ → Prop
  | init {s : σ} (h : S.init s) : Reachable S ok s
  | step {s s' : σ} {e : ε} (hr : Reachable S ok s) (hok : ok s e)
      (hs : S.step s e s') : Reachable S ok s'

/-- **The invariant rule.** What holds initially and survives every guarded step
holds in every state a guarded run reaches. The step obligation may use that the
state it starts from is itself reached by such a run. -/
theorem Reachable.invariant {S : System σ ε} {ok : σ → ε → Prop} {Inv : σ → Prop}
    (hinit : ∀ s, S.init s → Inv s)
    (hstep : ∀ s e s', Inv s → ok s e → S.step s e s' → Inv s')
    {s : σ} (hr : Reachable S ok s) : Inv s := by
  induction hr with
  | init h => exact hinit _ h
  | step _ hok hs ih => exact hstep _ _ _ ih hok hs

/-- Dropping the guard only adds runs. -/
theorem Reachable.weaken {S : System σ ε} {ok ok' : σ → ε → Prop}
    (hle : ∀ s e, ok s e → ok' s e) {s : σ} (hr : Reachable S ok s) :
    Reachable S ok' s := by
  induction hr with
  | init h => exact .init h
  | step _ hok hs ih => exact .step ih (hle _ _ hok) hs

/-! ## Systems whose steps are computed -/

variable {φ : Type*}

/-- The events happen one after the other, each meets the guard, and `P` holds at the
end. -/
def follow (exec : σ → ε → Except φ σ) (ok : σ → ε → Bool) (P : σ → Bool) : σ → List ε → Bool
  | s, [] => P s
  | s, e :: es =>
    ok s e && match exec s e with
      | .ok s' => follow exec ok P s' es
      | .error _ => false

/-- What a run that was followed reaches. -/
theorem follow_reachable {S : System σ ε} {exec : σ → ε → Except φ σ}
    (hexec : ∀ s e s', exec s e = .ok s' → S.step s e s') {ok : σ → ε → Bool} {P : σ → Bool}
    {es : List ε} {s : σ} (hr : Reachable S (fun s e => ok s e = true) s)
    (h : follow exec ok P s es = true) :
    ∃ s', Reachable S (fun s e => ok s e = true) s' ∧ P s' = true := by
  induction es generalizing s with
  | nil => exact ⟨s, hr, h⟩
  | cons e es ih =>
    unfold follow at h
    rw [Bool.and_eq_true] at h
    cases he : exec s e with
    | error f =>
      rw [he] at h
      cases h.2
    | ok s' =>
      rw [he] at h
      exact ih (hr.step h.1 (hexec s e s' he)) h.2

end StepSystem
