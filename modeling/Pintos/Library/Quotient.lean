/-
Quotients from a shortened divisor.

A long division is estimated by dividing by the leading digits of the divisor only. The
estimate is never low, and it is at most one high as long as the digits that are kept weigh
more than those that are dropped. Everything here is over natural numbers: `p` is the weight of
the digits that are dropped, `d / p` is what is kept.
-/
import Mathlib.Tactic

set_option autoImplicit false

namespace Quotient

/-- The shortened divisor is not above the divisor. -/
theorem shortened_le (d p : ℕ) : d / p * p ≤ d := Nat.div_mul_le_self d p

/-- What is dropped is less than the weight it is dropped at. -/
theorem lt_shortened_add (d p : ℕ) (hp : 0 < p) : d ≤ d / p * p + (p - 1) := by
  have hmod := Nat.mod_lt d hp
  have hdm := Nat.div_add_mod' d p
  omega

/-- **The estimate is never low.** -/
theorem div_le_estimate (n d p : ℕ) (hv : 0 < d / p * p) : n / d ≤ n / (d / p * p) :=
  Nat.div_le_div_left (shortened_le d p) hv

/-- **The estimate is at most one high** when what is kept outweighs what is dropped. -/
theorem estimate_le (n d p : ℕ) (hp : 0 < p) (hv : 0 < d / p * p)
    (hn : n * (p - 1) ≤ d / p * p * (d / p * p)) :
    (n / (d / p * p) - 1) * d ≤ n := by
  have hup := lt_shortened_add d p hp
  generalize d / p * p = e at *
  have hq : n / e * e ≤ n := Nat.div_mul_le_self n e
  generalize n / e = q at *
  -- the quotient times what is dropped stays below one shortened divisor
  have hdrop : q * (p - 1) ≤ e := by
    apply Nat.le_of_mul_le_mul_right _ hv
    calc q * (p - 1) * e = q * e * (p - 1) := by ring
      _ ≤ n * (p - 1) := Nat.mul_le_mul_right _ hq
      _ ≤ e * e := hn
  by_cases hq0 : q = 0
  · rw [hq0]
    simp
  · obtain ⟨r, rfl⟩ := Nat.exists_eq_succ_of_ne_zero hq0
    have hle : r * (p - 1) ≤ (r + 1) * (p - 1) := Nat.mul_le_mul_right _ (Nat.le_succ r)
    have hrd : r * d ≤ r * (e + (p - 1)) := Nat.mul_le_mul_left _ hup
    have hre : (r + 1) * e = r * e + e := by ring
    have hrs : r * (e + (p - 1)) = r * e + r * (p - 1) := by ring
    simp only [Nat.succ_eq_add_one, Nat.add_sub_cancel] at *
    omega

/-- An estimate that is not low and at most one high is put right by one comparison. -/
theorem corrected (n d q : ℕ) (hd : 0 < d) (hlow : n / d ≤ q) (hpos : 0 < q)
    (hhigh : (q - 1) * d ≤ n) :
    (if n - (q - 1) * d < d then q - 1 else q) = n / d := by
  have hqd : q - 1 ≤ n / d := (Nat.le_div_iff_mul_le hd).mpr hhigh
  by_cases h : n - (q - 1) * d < d
  · rw [if_pos h]
    have hlt : n / d < q - 1 + 1 := by
      rw [Nat.div_lt_iff_lt_mul hd, Nat.add_mul, Nat.one_mul]
      omega
    omega
  · rw [if_neg h]
    have hge : q ≤ n / d := by
      rw [Nat.le_div_iff_mul_le hd]
      have hq : q = q - 1 + 1 := by omega
      rw [hq, Nat.add_mul, Nat.one_mul]
      omega
    omega

/-- A multiple of `d` lies within `b` below `n` exactly when the remainder is below `b`. -/
theorem mod_lt_iff (n d b : ℕ) :
    n % d < b ↔ ∃ k, k * d ≤ n ∧ n < k * d + b := by
  have hdm := Nat.div_add_mod' n d
  constructor
  · intro h
    exact ⟨n / d, by omega, by omega⟩
  · rintro ⟨k, hk, hlt⟩
    have hmod : n % d ≤ n - k * d := by
      rw [Nat.mul_comm] at hk ⊢
      rw [← Nat.sub_mul_mod hk]
      exact Nat.mod_le _ _
    omega

end Quotient
