/-
Lists with a separator after every `g` entries.

The entries are counted from the front, so a numeral is grouped from its last digit when its
digits come least significant first. Where the separators stand is a statement about positions;
taking them out gives the entries back.
-/
import Mathlib.Tactic

set_option autoImplicit false

namespace Separated

variable {α : Type*} {sep : α} {g : ℕ}

/-- A separator stands before every entry whose number is a positive multiple of `g`; `k` entries
came before. -/
def separated (g : ℕ) (sep : α) : ℕ → List α → List α
  | _, [] => []
  | k, a :: l =>
    if 0 < k ∧ k % g = 0 then sep :: a :: separated g sep (k + 1) l
    else a :: separated g sep (k + 1) l

/-- Without the separators the entries are left. -/
theorem filter_separated [DecidableEq α] (k : ℕ) {l : List α} (hl : sep ∉ l) :
    (separated g sep k l).filter (fun a => decide (a ≠ sep)) = l := by
  induction l generalizing k with
  | nil => rfl
  | cons a l ih =>
    have ha : a ≠ sep := fun heq => hl (heq ▸ List.mem_cons_self)
    have htail := ih (k + 1) (fun hmem => hl (List.mem_cons_of_mem a hmem))
    rw [separated]
    by_cases hk : 0 < k ∧ k % g = 0
    · rw [if_pos hk, List.filter_cons_of_neg (by simp), List.filter_cons_of_pos (by simpa using ha),
        htail]
    · rw [if_neg hk, List.filter_cons_of_pos (by simpa using ha), htail]

/-- The last entry stays the last. -/
theorem getLast?_separated (k : ℕ) (l : List α) :
    (separated g sep k l).getLast? = l.getLast? := by
  induction l generalizing k with
  | nil => rfl
  | cons a l ih =>
    have hlast : (a :: separated g sep (k + 1) l).getLast? = (a :: l).getLast? := by
      rw [List.getLast?_cons, List.getLast?_cons, ih (k + 1)]
    rw [separated]
    by_cases hk : 0 < k ∧ k % g = 0
    · rw [if_pos hk, List.getLast?_cons_cons, hlast]
    · rw [if_neg hk, hlast]

/-- Where `k` entries and the separators before them end. -/
def width (g k : ℕ) : ℕ := k + (k - 1) / g

/-- One entry more, and a separator if one has to be put before it. -/
theorem width_succ (g k : ℕ) :
    width g (k + 1) = width g k + 1 + if 0 < k ∧ k % g = 0 then 1 else 0 := by
  rcases Nat.eq_zero_or_pos k with rfl | hk
  · simp [width]
  obtain ⟨m, rfl⟩ := Nat.exists_eq_succ_of_ne_zero hk.ne'
  have hdiv : (m + 1) / g = m / g + if (m + 1) % g = 0 then 1 else 0 := by
    rw [Nat.succ_div]
    simp only [Nat.dvd_iff_mod_eq_zero]
  unfold width
  simp only [Nat.succ_eq_add_one, Nat.add_sub_cancel, hdiv, Nat.succ_pos, true_and]
  omega

/-- Behind `k` entries the next place is a separator's just when one has to be put there. -/
theorem width_mod (hg : 0 < g) (k : ℕ) : width g k % (g + 1) = g ↔ 0 < k ∧ k % g = 0 := by
  rcases Nat.eq_zero_or_pos k with rfl | hk
  · rw [width, Nat.zero_sub, Nat.zero_div, Nat.zero_add, Nat.zero_mod]
    omega
  obtain ⟨m, rfl⟩ := Nat.exists_eq_succ_of_ne_zero hk.ne'
  have hr : m % g < g := Nat.mod_lt m hg
  have hm : m = g * (m / g) + m % g := (Nat.div_add_mod m g).symm
  generalize m / g = q at hm
  generalize m % g = r at hm hr
  subst hm
  have hwidth : width g (g * q + r).succ = (g + 1) * q + (r + 1) := by
    have hdiv : (g * q + r) / g = q := by
      rw [Nat.mul_add_div hg, Nat.div_eq_of_lt hr, Nat.add_zero]
    rw [width, Nat.succ_eq_add_one, Nat.add_sub_cancel, hdiv]
    ring
  have hnext : (g * q + r).succ % g = (r + 1) % g := by
    rw [Nat.succ_eq_add_one, Nat.add_assoc, Nat.mul_add_mod]
  rw [hwidth, Nat.mul_add_mod, Nat.mod_eq_of_lt (by omega), hnext]
  constructor
  · intro hrg
    rw [hrg, Nat.mod_self]
    exact ⟨Nat.succ_pos _, rfl⟩
  · rintro ⟨-, hzero⟩
    by_contra hne
    rw [Nat.mod_eq_of_lt (by omega)] at hzero
    omega

/-- **The length.** `k` entries were there, and `l` follows. -/
theorem length_separated (g k : ℕ) (l : List α) :
    width g k + (separated g sep k l).length = width g (k + l.length) := by
  induction l generalizing k with
  | nil => rfl
  | cons a l ih =>
    have hlen : (separated g sep k (a :: l)).length
        = (separated g sep (k + 1) l).length + 1 + if 0 < k ∧ k % g = 0 then 1 else 0 := by
      rw [separated]
      by_cases hk : 0 < k ∧ k % g = 0
      · rw [if_pos hk, if_pos hk]
        rfl
      · rw [if_neg hk, if_neg hk]
        rfl
    have htail := ih (k + 1)
    have hcount : k + (a :: l).length = k + 1 + l.length := by
      rw [List.length_cons]
      omega
    rw [hcount, ← htail, width_succ, hlen]
    omega

/-- **Where the separators stand**: behind every `g` entries. -/
theorem getElem?_separated (hg : 0 < g) (k : ℕ) {l : List α} (hl : sep ∉ l) {j : ℕ} {a : α}
    (h : (separated g sep k l)[j]? = some a) :
    a = sep ↔ (width g k + j) % (g + 1) = g := by
  induction l generalizing k j with
  | nil => cases h
  | cons b l ih =>
    have hb : b ≠ sep := fun heq => hl (heq ▸ List.mem_cons_self)
    have htail : sep ∉ l := fun hmem => hl (List.mem_cons_of_mem b hmem)
    have hat := width_mod hg k
    have hnext := width_succ g k
    rw [separated] at h
    by_cases hk : 0 < k ∧ k % g = 0
    · rw [if_pos hk] at h hnext
      rw [iff_true_right hk] at hat
      match j with
      | 0 => exact iff_of_true (Option.some.inj h).symm hat
      | 1 =>
        have hab : b = a := Option.some.inj h
        have hzero : (width g k + 1) % (g + 1) = 0 := by
          rw [Nat.add_mod, hat, Nat.mod_eq_of_lt (show 1 < g + 1 by omega), Nat.mod_self]
        rw [← hab, hzero]
        exact iff_of_false hb hg.ne
      | j + 2 =>
        have hrec := ih (k + 1) htail h
        rwa [hnext, show width g k + 1 + 1 + j = width g k + (j + 2) by omega] at hrec
    · rw [if_neg hk] at h hnext
      rw [iff_false_right hk] at hat
      match j with
      | 0 =>
        have hab : b = a := Option.some.inj h
        rw [← hab]
        exact iff_of_false hb hat
      | j + 1 =>
        have hrec := ih (k + 1) htail h
        rwa [hnext, show width g k + 1 + 0 + j = width g k + (j + 1) by omega] at hrec

end Separated
