/-
A walk along a list that others take elements out of.

The one who walks stands at an element `e` and goes to the one behind it; between two
steps elements disappear. As long as neither the element stood at nor the one looked
for is taken out, the one looked for stays ahead, and the walk gets to it.
-/
import Mathlib.Tactic

set_option autoImplicit false

namespace Walk

variable {α : Type*}

/-- A walk that stands at `e` has `t` before it. -/
def Ahead (l : List α) (e t : α) : Prop := ∃ pre post, l = pre ++ e :: post ∧ t ∈ e :: post

variable {l : List α} {e t c : α}

theorem Ahead.head (h : t ∈ e :: l) : Ahead (e :: l) e t := ⟨[], l, rfl, h⟩

theorem Ahead.at_mem (h : Ahead l e t) : e ∈ l := by
  obtain ⟨pre, post, rfl, -⟩ := h
  exact List.mem_append_right _ List.mem_cons_self

theorem Ahead.mem (h : Ahead l e t) : t ∈ l := by
  obtain ⟨pre, post, rfl, ht⟩ := h
  exact List.mem_append_right _ ht

variable [DecidableEq α]

/-- The element behind `e`. -/
def list_next (l : List α) (e : α) : Option α := (l.dropWhile (· ≠ e)).tail.head?

theorem list_next_eq {pre post : List α} (hl : l = pre ++ e :: post) (hnd : l.Nodup) :
    list_next l e = post.head? := by
  subst hl
  have hpre : ∀ x ∈ pre, x ≠ e := by
    rintro x hx rfl
    exact (List.nodup_append.mp hnd).2.2 x hx x List.mem_cons_self rfl
  unfold list_next
  rw [List.dropWhile_append_of_pos (by simpa using hpre)]
  simp

/-- Another element is taken out. -/
theorem Ahead.erase (h : Ahead l e t) (hct : c ≠ t) (hce : c ≠ e) : Ahead (l.erase c) e t := by
  obtain ⟨pre, post, rfl, ht⟩ := h
  by_cases hpre : c ∈ pre
  · exact ⟨pre.erase c, post, List.erase_append_left _ hpre, ht⟩
  · refine ⟨pre, post.erase c, ?_, ?_⟩
    · rw [List.erase_append_right _ hpre, List.erase_cons_tail (by simpa using hce.symm)]
    · rcases List.mem_cons.mp ht with rfl | ht
      · exact List.mem_cons_self
      · exact List.mem_cons_of_mem _ ((List.mem_erase_of_ne hct.symm).mpr ht)

/-- **The rule for a walk.** To show something of every place that has `t` before it, show
it at `t` and carry it back over one step. -/
theorem Ahead.induction {P : α → Prop} (hnd : l.Nodup) (hend : P t)
    (hstep : ∀ d d', d ≠ t → list_next l d = some d' → Ahead l d' t → P d' → P d)
    (h : Ahead l e t) : P e := by
  obtain ⟨pre, post, hl, ht⟩ := h
  induction post generalizing e pre with
  | nil =>
    rw [← List.mem_singleton.mp ht]
    exact hend
  | cons d post ih =>
    by_cases het : e = t
    · rw [het]
      exact hend
    · have ht' : t ∈ d :: post := (List.mem_cons.mp ht).resolve_left fun hte => het hte.symm
      have hl' : l = (pre ++ [e]) ++ d :: post := by
        rw [hl, List.append_assoc]
        rfl
      have hnext : list_next l e = some d := list_next_eq hl hnd
      exact hstep e d het hnext ⟨_, _, hl', ht'⟩ (ih _ hl' ht')

/-- One step of the walk. -/
theorem Ahead.advance (hnd : l.Nodup) (h : Ahead l e t) (het : e ≠ t) :
    ∃ d, list_next l e = some d ∧ Ahead l d t := by
  have hor : e = t ∨ ∃ d, list_next l e = some d ∧ Ahead l d t := by
    refine Ahead.induction (P := fun x => x = t ∨ ∃ d, list_next l x = some d ∧ Ahead l d t)
      hnd (Or.inl rfl) ?_ h
    exact fun x d _ hnext had _ => Or.inr ⟨d, hnext, had⟩
  exact hor.resolve_left het

end Walk
