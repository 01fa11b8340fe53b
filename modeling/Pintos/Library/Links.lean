/-
Partial functions as graphs: every node has at most one link out.

Chains of blocked threads are such graphs. The two facts a walk along the links
needs are here. A graph with a rank has no endless walk, and adding a link keeps
that as long as the new link closes no cycle. And a node that a walk comes back
to has no end after it.
-/
import Mathlib.Tactic

set_option autoImplicit false

namespace Links

variable {α : Type*}

/-- `b` is on the walk from `a` along `next`. -/
def Reaches (next : α → Option α) : α → α → Prop :=
  Relation.ReflTransGen (fun x y => next x = some y)

variable {next next' : α → Option α} {a b c : α}

theorem Reaches.refl (a : α) : Reaches next a a := Relation.ReflTransGen.refl

theorem Reaches.head (h : next a = some b) (h' : Reaches next b c) : Reaches next a c :=
  Relation.ReflTransGen.head h h'

/-- A walk from `a` stays at `a` or goes on from the node `a` links to. -/
theorem reaches_iff : Reaches next a c ↔ a = c ∨ ∃ b, next a = some b ∧ Reaches next b c := by
  constructor
  · intro h
    rcases Relation.ReflTransGen.cases_head h with rfl | ⟨b, hb, hbc⟩
    · exact Or.inl rfl
    · exact Or.inr ⟨b, hb, hbc⟩
  · rintro (rfl | ⟨b, hb, hbc⟩)
    · exact Reaches.refl a
    · exact Reaches.head hb hbc

theorem reaches_of_none (h : next a = none) : Reaches next a c ↔ a = c := by
  rw [reaches_iff]
  constructor
  · rintro (rfl | ⟨b, hb, -⟩)
    · rfl
    · rw [h] at hb
      cases hb
  · exact Or.inl

theorem reaches_of_some (h : next a = some b) :
    Reaches next a c ↔ a = c ∨ Reaches next b c := by
  rw [reaches_iff]
  constructor
  · rintro (rfl | ⟨b', hb', h'⟩)
    · exact Or.inl rfl
    · rw [h] at hb'
      obtain rfl := Option.some.inj hb'
      exact Or.inr h'
  · rintro (rfl | h')
    · exact Or.inl rfl
    · exact Or.inr ⟨b, h, h'⟩

/-- Fewer links, fewer walks. -/
theorem Reaches.mono (hsub : ∀ x y, next x = some y → next' x = some y)
    (h : Reaches next a b) : Reaches next' a b :=
  Relation.ReflTransGen.mono hsub _ _ h

/-- `next` goes down in some rank, so every walk along it ends. -/
def Ranked (next : α → Option α) : Prop :=
  ∃ rank : α → ℕ, ∀ x y, next x = some y → rank y < rank x

theorem Ranked.mono (hsub : ∀ x y, next x = some y → next' x = some y) (h : Ranked next') :
    Ranked next := by
  obtain ⟨rank, hrank⟩ := h
  exact ⟨rank, fun x y hxy => hrank x y (hsub x y hxy)⟩

/-- **Adding a link** from `a`, which had none, to `b` keeps the graph ranked
unless `a` is on the walk from `b`. -/
theorem Ranked.add [DecidableEq α] (h : Ranked next) (hab : ¬ Reaches next b a) :
    Ranked (Function.update next a (some b)) := by
  classical
  obtain ⟨rank, hrank⟩ := h
  -- everything that leads to `a` is lifted over the rank of `b`
  refine ⟨fun x => if Reaches next x a then rank x + rank b + 1 else rank x, ?_⟩
  intro x y hxy
  dsimp only
  by_cases hxa : x = a
  · subst hxa
    rw [Function.update_self] at hxy
    obtain rfl := Option.some.inj hxy
    rw [if_pos (Reaches.refl x), if_neg hab]
    omega
  · rw [Function.update_of_ne hxa] at hxy
    have hlt := hrank x y hxy
    by_cases hy : Reaches next y a
    · rw [if_pos hy, if_pos (Reaches.head hxy hy)]
      omega
    · rw [if_neg hy]
      split_ifs <;> omega

/-- A new link out of a node that is not on the walk does not change the walk. -/
theorem reaches_update [DecidableEq α] {x : Option α} (h : ¬ Reaches next b a) :
    Reaches (Function.update next a x) b c ↔ Reaches next b c := by
  constructor
  · intro hw
    induction hw with
    | refl => exact Reaches.refl b
    | tail _ hstep ih =>
      rename_i y z _
      have hya : y ≠ a := by
        rintro rfl
        exact h ih
      rw [Function.update_of_ne hya] at hstep
      exact ih.tail hstep
  · intro hw
    induction hw with
    | refl => exact Reaches.refl b
    | tail hby hstep ih =>
      rename_i y z
      have hya : y ≠ a := by
        rintro rfl
        exact h hby
      refine ih.tail ?_
      rw [Function.update_of_ne hya]
      exact hstep

/-- A node that a walk comes back to is followed by links for ever. -/
theorem next_ne_none_of_cycle (hab : next a = some b) (hba : Reaches next b a)
    (hac : Reaches next a c) : next c ≠ none := by
  have hback : Reaches next c a := by
    induction hac with
    | refl => exact Reaches.refl a
    | tail _ hstep ih =>
      rename_i x y _
      rcases (reaches_of_some hstep).mp ih with rfl | h
      · -- at `a` itself the next node is `b`
        rw [hab] at hstep
        obtain rfl := Option.some.inj hstep
        exact hba
      · exact h
  rcases reaches_iff.mp hback with rfl | ⟨d, hd, -⟩
  · rw [hab]
    exact Option.some_ne_none _
  · rw [hd]
    exact Option.some_ne_none _

end Links
