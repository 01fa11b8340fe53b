/-
Stable rearrangements, runs and their merging.

A list is rearranged stably when it keeps the order of every two elements that were not out of
order before. Merging two sorted lists is such a rearrangement of their concatenation, and
rearrangements compose, one after the other and side by side; that is all a merge sort does. How
far a list is from being sorted is the number of its descents.
-/
import Mathlib.Tactic

set_option autoImplicit false

namespace StableMerge

variable {α : Type*} {le : α → α → Bool} {xs ys zs : List α}

/-- `ys` has the elements of `xs`, and no two that were in order have changed places. -/
def Stable (le : α → α → Bool) (xs ys : List α) : Prop :=
  ys.Perm xs ∧ ∀ a b, [a, b].Sublist xs → le a b = true → [a, b].Sublist ys

theorem Stable.refl (le : α → α → Bool) (xs : List α) : Stable le xs xs :=
  ⟨List.Perm.refl xs, fun _ _ h _ => h⟩

theorem Stable.trans (h₁ : Stable le xs ys) (h₂ : Stable le ys zs) : Stable le xs zs :=
  ⟨h₂.1.trans h₁.1, fun a b hab hle => h₂.2 a b (h₁.2 a b hab hle) hle⟩

/-- Two elements of a concatenation: both on one side, or one on each. -/
theorem pair_sublist_append {a b : α} :
    [a, b].Sublist (xs ++ ys)
      ↔ [a, b].Sublist xs ∨ (a ∈ xs ∧ b ∈ ys) ∨ [a, b].Sublist ys := by
  constructor
  · intro h
    obtain ⟨l, r, hlr, hl, hr⟩ := List.sublist_append_iff.mp h
    cases l with
    | nil =>
      rw [List.nil_append] at hlr
      rw [hlr]
      exact Or.inr (Or.inr hr)
    | cons x l =>
      rw [List.cons_append, List.cons.injEq] at hlr
      obtain ⟨rfl, hrest⟩ := hlr
      cases l with
      | nil =>
        rw [List.nil_append] at hrest
        rw [← hrest] at hr
        exact Or.inr (Or.inl ⟨List.singleton_sublist.mp hl, List.singleton_sublist.mp hr⟩)
      | cons y l =>
        rw [List.cons_append, List.cons.injEq] at hrest
        obtain ⟨rfl, hnil⟩ := hrest
        obtain ⟨rfl, _⟩ := List.append_eq_nil_iff.mp hnil.symm
        exact Or.inl hl
  · rintro (h | ⟨ha, hb⟩ | h)
    · exact h.trans (List.sublist_append_left xs ys)
    · have hpair := (List.singleton_sublist.mpr ha).append (List.singleton_sublist.mpr hb)
      exact hpair
    · exact h.trans (List.sublist_append_right xs ys)

/-- Rearranging side by side. -/
theorem Stable.append {xs' ys' : List α} (h : Stable le xs ys) (h' : Stable le xs' ys') :
    Stable le (xs ++ xs') (ys ++ ys') := by
  refine ⟨h.1.append h'.1, ?_⟩
  intro a b hab hle
  rw [pair_sublist_append] at hab ⊢
  rcases hab with hab | ⟨ha, hb⟩ | hab
  · exact Or.inl (h.2 a b hab hle)
  · exact Or.inr (Or.inl ⟨h.1.mem_iff.mpr ha, h'.1.mem_iff.mpr hb⟩)
  · exact Or.inr (Or.inr (h'.2 a b hab hle))

/-! ## Merging -/

theorem sublist_merge_left (le : α → α → Bool) (xs ys : List α) :
    xs.Sublist (List.merge xs ys le) := by
  induction xs generalizing ys with
  | nil => exact List.nil_sublist _
  | cons x xs ihx =>
    induction ys with
    | nil => rw [List.merge_right]
    | cons y ys ihy =>
      by_cases h : le x y = true
      · rw [List.cons_merge_cons_pos _ _ _ h]
        exact (ihx (y :: ys)).cons_cons x
      · rw [List.cons_merge_cons_neg _ _ _ h]
        exact ihy.cons y

theorem sublist_merge_right (le : α → α → Bool) (xs ys : List α) :
    ys.Sublist (List.merge xs ys le) := by
  induction xs generalizing ys with
  | nil => rw [List.nil_merge]
  | cons x xs ihx =>
    induction ys with
    | nil => exact List.nil_sublist _
    | cons y ys ihy =>
      by_cases h : le x y = true
      · rw [List.cons_merge_cons_pos _ _ _ h]
        exact (ihx (y :: ys)).cons x
      · rw [List.cons_merge_cons_neg _ _ _ h]
        exact ihy.cons_cons y

/-- An element of the left list comes before one of the right list that it is not greater
than. -/
theorem pair_sublist_merge (htrans : ∀ a b c, le a b = true → le b c = true → le a c = true)
    {a b : α} (hxs : xs.Pairwise (fun x y => le x y = true)) (ha : a ∈ xs) (hb : b ∈ ys)
    (hab : le a b = true) : [a, b].Sublist (List.merge xs ys le) := by
  induction xs generalizing ys with
  | nil => cases ha
  | cons x xs ihx =>
    obtain ⟨hx, hxs'⟩ := List.pairwise_cons.mp hxs
    induction ys with
    | nil => cases hb
    | cons y ys ihy =>
      by_cases h : le x y = true
      · rw [List.cons_merge_cons_pos _ _ _ h]
        rcases List.mem_cons.mp ha with rfl | ha'
        · refine List.Sublist.cons_cons a (List.singleton_sublist.mpr ?_)
          exact (sublist_merge_right le xs (y :: ys)).subset hb
        · exact (ihx hxs' ha' hb).cons x
      · rw [List.cons_merge_cons_neg _ _ _ h]
        -- `y` goes first; it is not `b`, or `x` would have gone before it
        have hby : b ≠ y := by
          rintro rfl
          apply h
          rcases List.mem_cons.mp ha with rfl | ha'
          · exact hab
          · exact htrans x a b (hx a ha') hab
        exact (ihy ((List.mem_cons.mp hb).resolve_left hby)).cons y

/-- **Merging is stable.** -/
theorem merge_stable (htrans : ∀ a b c, le a b = true → le b c = true → le a c = true)
    (hxs : xs.Pairwise (fun x y => le x y = true)) :
    Stable le (xs ++ ys) (List.merge xs ys le) := by
  refine ⟨List.merge_perm_append le, ?_⟩
  intro a b hab hle
  rcases pair_sublist_append.mp hab with h | ⟨ha, hb⟩ | h
  · exact h.trans (sublist_merge_left le xs ys)
  · exact pair_sublist_merge htrans hxs ha hb hle
  · exact h.trans (sublist_merge_right le xs ys)

/-! ## Descents -/

/-- The neighbours that are out of order. -/
def descents (le : α → α → Bool) : List α → ℕ
  | [] => 0
  | [_] => 0
  | a :: b :: l => (if le a b = true then 0 else 1) + descents le (b :: l)

theorem descents_lt_length (le : α → α → Bool) (a : α) (l : List α) :
    descents le (a :: l) < (a :: l).length := by
  induction l generalizing a with
  | nil => simp [descents]
  | cons b l ih =>
    have hrest := ih b
    rw [descents, List.length_cons]
    split <;> omega

/-- A list without descents is sorted. -/
theorem descents_eq_zero_iff : descents le xs = 0 ↔ xs.IsChain (fun a b => le a b = true) := by
  induction xs with
  | nil => simp [descents]
  | cons a l ih =>
    cases l with
    | nil => simp [descents]
    | cons b l =>
      rw [List.isChain_cons_cons, ← ih, descents]
      by_cases h : le a b = true
      · simp [h]
      · simp [h]

/-- Where two lists meet there is at most one descent more. -/
theorem descents_append_le (le : α → α → Bool) (xs ys : List α) :
    descents le (xs ++ ys) ≤ descents le xs + 1 + descents le ys := by
  induction xs with
  | nil =>
    rw [List.nil_append]
    omega
  | cons a l ih =>
    cases l with
    | nil =>
      cases ys with
      | nil => simp [descents]
      | cons b ys =>
        rw [List.cons_append, List.nil_append, descents]
        simp only [descents]
        split <;> omega
    | cons b l =>
      rw [List.cons_append, List.cons_append, descents, descents]
      rw [List.cons_append] at ih
      omega

/-! ## Runs -/

/-- The longest sorted beginning of a list, and the rest. -/
def run (le : α → α → Bool) : α → List α → List α × List α
  | a, [] => ([a], [])
  | a, b :: l => if le a b = true then (a :: (run le b l).1, (run le b l).2) else ([a], b :: l)

theorem run_append (le : α → α → Bool) (a : α) (l : List α) :
    (run le a l).1 ++ (run le a l).2 = a :: l := by
  induction l generalizing a with
  | nil => rfl
  | cons b l ih =>
    by_cases h : le a b = true
    · simp [run, h, ih]
    · simp [run, h]

/-- A run begins where the list does. -/
theorem run_cons (le : α → α → Bool) (a : α) (l : List α) : ∃ r, (run le a l).1 = a :: r := by
  cases l with
  | nil => exact ⟨[], rfl⟩
  | cons b l =>
    by_cases h : le a b = true
    · exact ⟨(run le b l).1, by simp [run, h]⟩
    · exact ⟨[], by simp [run, h]⟩

theorem run_sorted (le : α → α → Bool) (a : α) (l : List α) :
    (run le a l).1.IsChain (fun a b => le a b = true) := by
  induction l generalizing a with
  | nil => exact List.isChain_singleton a
  | cons b l ih =>
    by_cases h : le a b = true
    · obtain ⟨r, hr⟩ := run_cons le b l
      have hrest := ih b
      simp only [run, if_pos h]
      rw [hr] at hrest ⊢
      exact List.isChain_cons_cons.mpr ⟨h, hrest⟩
    · simp only [run, if_neg h]
      exact List.isChain_singleton a

/-- **A run ends at a descent**, or at the end of the list. -/
theorem descents_run (le : α → α → Bool) (a : α) (l : List α) :
    descents le (a :: l) = if (run le a l).2 = [] then 0 else 1 + descents le (run le a l).2 := by
  induction l generalizing a with
  | nil => rfl
  | cons b l ih =>
    by_cases h : le a b = true
    · simp only [run, if_pos h, descents, ih b, Nat.zero_add]
    · simp [run, h, descents]

end StableMerge
