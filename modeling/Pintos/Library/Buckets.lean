/-
Arrays of buckets.

A bucket array is a function from positions to lists together with the number of buckets in
use. What a hash table keeps is the list of all elements, up to order: `elems`. Replacing one
bucket changes it by that bucket (`elems_update`), from which the two rules for a push and for
a removal follow.
-/
import Mathlib.Tactic
import Mathlib.Data.List.Perm.Basic

set_option autoImplicit false

namespace Buckets

open scoped List

variable {α : Type*}

/-- All elements of the first `n` buckets. -/
def elems (n : ℕ) (b : ℕ → List α) : List α := (List.range n).flatMap b

theorem elems_succ (n : ℕ) (b : ℕ → List α) : elems (n + 1) b = elems n b ++ b n := by
  unfold elems
  rw [List.range_succ, List.flatMap_append, List.flatMap_singleton]

theorem mem_elems {n : ℕ} {b : ℕ → List α} {x : α} : x ∈ elems n b ↔ ∃ i < n, x ∈ b i := by
  unfold elems
  rw [List.mem_flatMap]
  simp only [List.mem_range]

theorem elems_empty (n : ℕ) : elems n (fun _ => ([] : List α)) = [] := by
  induction n with
  | zero => rfl
  | succ n ih => rw [elems_succ, ih, List.append_nil]

theorem elems_congr {n : ℕ} {b b' : ℕ → List α} (h : ∀ i < n, b i = b' i) :
    elems n b = elems n b' := by
  induction n with
  | zero => rfl
  | succ n ih =>
    rw [elems_succ, elems_succ, ih fun i hi => h i (Nat.lt_succ_of_lt hi), h n (Nat.lt_succ_self n)]

/-- **Replacing a bucket.** -/
theorem elems_update {n i : ℕ} (b : ℕ → List α) (l : List α) (hi : i < n) :
    elems n (Function.update b i l) ++ b i ~ elems n b ++ l := by
  induction n with
  | zero => exact absurd hi (Nat.not_lt_zero i)
  | succ n ih =>
    rw [elems_succ, elems_succ]
    by_cases hin : i = n
    · subst hin
      have hsame : elems i (Function.update b i l) = elems i b :=
        elems_congr fun j hj => Function.update_of_ne hj.ne _ _
      rw [hsame, Function.update_self, List.append_assoc, List.append_assoc]
      exact List.perm_append_comm.append_left _
    · rw [Function.update_of_ne (Ne.symm hin), List.append_assoc, List.append_assoc]
      -- the last bucket moves out of the way on both sides
      have hlast := ih (by omega)
      calc elems n (Function.update b i l) ++ (b n ++ b i)
        _ ~ elems n (Function.update b i l) ++ (b i ++ b n) := List.perm_append_comm.append_left _
        _ = (elems n (Function.update b i l) ++ b i) ++ b n := (List.append_assoc _ _ _).symm
        _ ~ (elems n b ++ l) ++ b n := hlast.append_right _
        _ = elems n b ++ (l ++ b n) := List.append_assoc _ _ _
        _ ~ elems n b ++ (b n ++ l) := List.perm_append_comm.append_left _

/-- A push. -/
theorem elems_push {n i : ℕ} (b : ℕ → List α) (x : α) (hi : i < n) :
    elems n (Function.update b i (x :: b i)) ~ x :: elems n b := by
  have hupd := elems_update b (x :: b i) hi
  refine (List.perm_append_right_iff (b i)).mp (hupd.trans ?_)
  rw [List.cons_append]
  exact List.perm_middle

/-- A removal. -/
theorem elems_remove {n i : ℕ} (b : ℕ → List α) {x : α} {l : List α} (hi : i < n)
    (hl : b i ~ x :: l) : elems n b ~ x :: elems n (Function.update b i l) := by
  have hupd := (elems_update b l hi).symm
  refine (List.perm_append_right_iff l).mp (hupd.trans ?_)
  refine (hl.append_left _).trans ?_
  rw [List.cons_append]
  exact List.perm_middle

end Buckets
