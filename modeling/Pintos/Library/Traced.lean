/-
Computations that leave a trace and may stop.

A computation has a list of events and then a value, or the reason it stopped
with. Sequencing appends the events and goes on only from a value. A condition on
every event (`Only`) then splits over a sequence, which is the rule a proof about
what a piece of code touches needs. `Ends` is for events after which nothing comes.
-/
import Mathlib.Tactic

set_option autoImplicit false

/-- A trace of events `ω` and then a value `α`, or a reason `ε` for stopping. -/
structure Traced (ε ω α : Type) where
  trace : List ω
  result : Except ε α

namespace Traced

variable {ε ω α β : Type}

/-- Stopping. -/
def stop (e : ε) : Traced ε ω α := ⟨[], .error e⟩

/-- One event. -/
def emit (w : ω) : Traced ε ω Unit := ⟨[w], .ok ()⟩

protected def bind (x : Traced ε ω α) (f : α → Traced ε ω β) : Traced ε ω β :=
  match x.result with
  | .ok a => ⟨x.trace ++ (f a).trace, (f a).result⟩
  | .error e => ⟨x.trace, .error e⟩

instance : Monad (Traced ε ω) where
  pure a := ⟨[], .ok a⟩
  bind := Traced.bind

/-- Every event meets `P`. -/
def Only (P : ω → Prop) (x : Traced ε ω α) : Prop := ∀ w ∈ x.trace, P w

/-- It comes to the value `a`. -/
def Returns (x : Traced ε ω α) (a : α) : Prop := x.result = .ok a

variable {P : ω → Prop} {x : Traced ε ω α} {f : α → Traced ε ω β} {a : α} {b : β}

@[simp] theorem only_pure : Only P (pure a : Traced ε ω α) ↔ True := by
  constructor
  · exact fun _ => trivial
  · intro _ w hw
    cases hw

@[simp] theorem only_stop {e : ε} : Only P (stop e : Traced ε ω α) ↔ True := by
  constructor
  · exact fun _ => trivial
  · intro _ w hw
    cases hw

@[simp] theorem only_emit {w : ω} : Only P (emit w : Traced ε ω Unit) ↔ P w := by
  unfold Only emit
  simp only [List.mem_singleton, forall_eq]

@[simp] theorem returns_pure {a' : α} : Returns (pure a : Traced ε ω α) a' ↔ a = a' := by
  constructor
  · exact fun h => Except.ok.inj h
  · rintro rfl
    rfl

@[simp] theorem returns_emit {w : ω} {u : Unit} :
    Returns (emit w : Traced ε ω Unit) u ↔ True := by
  constructor
  · exact fun _ => trivial
  · exact fun _ => rfl

/-- **A sequence** meets a condition when its first half does and, if that comes to a
value, the second half does. -/
@[simp] theorem only_bind :
    Only P (x >>= f) ↔ Only P x ∧ ∀ a, Returns x a → Only P (f a) := by
  show Only P (Traced.bind x f) ↔ _
  unfold Only Returns Traced.bind
  cases hr : x.result with
  | ok a =>
    simp only [List.mem_append, Except.ok.injEq, forall_eq']
    constructor
    · exact fun h => ⟨fun w hw => h w (Or.inl hw), fun w hw => h w (Or.inr hw)⟩
    · rintro ⟨h1, h2⟩ w (hw | hw)
      · exact h1 w hw
      · exact h2 w hw
  | error e =>
    constructor
    · exact fun h => ⟨h, fun a ha => by cases ha⟩
    · exact fun h => h.1

@[simp] theorem returns_bind : Returns (x >>= f) b ↔ ∃ a, Returns x a ∧ Returns (f a) b := by
  show Returns (Traced.bind x f) b ↔ _
  unfold Returns Traced.bind
  cases hr : x.result with
  | ok a => simp only [Except.ok.injEq, exists_eq_left']
  | error e =>
    constructor
    · intro h
      cases h
    · rintro ⟨a, ha, -⟩
      cases ha

@[simp] theorem result_pure (a : α) : (pure a : Traced ε ω α).result = .ok a := rfl

@[simp] theorem result_emit (w : ω) : (emit w : Traced ε ω Unit).result = .ok () := rfl

/-- The result of a sequence is that of the sequence of results. -/
theorem result_bind (x : Traced ε ω α) (f : α → Traced ε ω β) :
    (x >>= f).result = x.result >>= fun a => (f a).result := by
  show (Traced.bind x f).result = _
  unfold Traced.bind
  cases x.result <;> rfl

/-- Nothing has been emitted. -/
theorem only_false : Only (fun _ => False) x ↔ x.trace = [] := by
  unfold Only
  rw [List.eq_nil_iff_forall_not_mem]

/-- An event that meets `P` is the end: the computation has stopped with `e`. -/
def Ends (P : ω → Prop) (e : ε) (x : Traced ε ω α) : Prop :=
  ∀ w ∈ x.trace, P w → x.result = .error e

variable {e : ε}

/-- If neither half goes on after such an event, their sequence does not. -/
theorem Ends.bind (hx : Ends P e x) (hf : ∀ a, Ends P e (f a)) : Ends P e (x >>= f) := by
  show Ends P e (Traced.bind x f)
  unfold Traced.bind
  intro w hw hP
  cases hr : x.result with
  | ok a =>
    rw [hr] at hw
    rcases List.mem_append.mp hw with hw | hw
    · have := hx w hw hP
      rw [hr] at this
      cases this
    · exact hf a w hw hP
  | error e' =>
    rw [hr] at hw
    have hend := hx w hw hP
    rw [hr] at hend
    exact congrArg Except.error (Except.error.inj hend)

end Traced
