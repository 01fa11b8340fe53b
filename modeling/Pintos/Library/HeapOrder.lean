/-
Binary heaps in an array, counted from 1.

The parent of position `c` is `c / 2`. A heap from `i` on is one whose parents are in order with
their children as far as the parents lie at `i` or behind; sifting down keeps all of it but for
one parent, the hole, which moves to a child at each step until it is in order too. The array is a
function of the position, and what is swapped is tracked by a permutation of the positions.
-/
import Mathlib.Tactic

set_option autoImplicit false

namespace HeapOrder

variable {E : Type*} {le : E → E → Prop} {v v' : ℕ → E} {i n p m : ℕ}

/-- Parents at `i` or behind it are not below their children. -/
def HeapFrom (le : E → E → Prop) (v : ℕ → E) (i n : ℕ) : Prop :=
  ∀ c, c ≤ n → i ≤ c / 2 → 0 < c / 2 → le (v c) (v (c / 2))

/-- The same but for the parent `p`; the children of `p` are in order with the parent of `p`. -/
structure HeapBut (le : E → E → Prop) (v : ℕ → E) (i n p : ℕ) : Prop where
  pairs : ∀ c, c ≤ n → i ≤ c / 2 → 0 < c / 2 → c / 2 ≠ p → le (v c) (v (c / 2))
  across : ∀ c, c ≤ n → c / 2 = p → i ≤ p / 2 → 0 < p / 2 → le (v c) (v (p / 2))

/-- Two positions changed. -/
def swap (v : ℕ → E) (a b : ℕ) : ℕ → E := fun k => v (Equiv.swap a b k)

theorem swap_left (v : ℕ → E) (a b : ℕ) : swap v a b a = v b := by
  rw [swap, Equiv.swap_apply_left]

theorem swap_right (v : ℕ → E) (a b : ℕ) : swap v a b b = v a := by
  rw [swap, Equiv.swap_apply_right]

theorem swap_of_ne {a b k : ℕ} (v : ℕ → E) (ha : k ≠ a) (hb : k ≠ b) : swap v a b k = v k := by
  rw [swap, Equiv.swap_apply_of_ne_of_ne ha hb]

/-! ## Sifting down -/

/-- Before the first step the hole is the new parent. -/
theorem HeapBut.start (h : HeapFrom le v (i + 1) n) : HeapBut le v i n i := by
  constructor
  · intro c hc hi hpos hne
    exact h c hc (by omega) hpos
  · intro c hc hci hle hpos
    omega

/-- **A step down.** The hole is exchanged with its larger child, which is the hole then. -/
theorem HeapBut.step (h : HeapBut le v i n p) (hi : i ≤ p) (hp : 0 < p) (hm : m / 2 = p)
    (hmn : m ≤ n) (hlt : le (v p) (v m)) (hmax : ∀ c, c ≤ n → c / 2 = p → le (v c) (v m)) :
    HeapBut le (swap v p m) i n m := by
  have hpm : p < m := by omega
  constructor
  · intro c hc hic hpos hne
    by_cases hcp : c = p
    · -- the pair above the hole
      have h2p : c / 2 ≠ p := by omega
      have h2m : c / 2 ≠ m := by omega
      rw [swap_of_ne v h2p h2m, hcp, swap_left]
      rw [hcp] at hic hpos
      exact h.across m hmn hm hic hpos
    by_cases hcm : c = m
    · rw [hcm, hm, swap_left, swap_right]
      exact hlt
    · by_cases h2p : c / 2 = p
      · rw [h2p, swap_left, swap_of_ne v hcp hcm]
        exact hmax c hc h2p
      · rw [swap_of_ne v hcp hcm, swap_of_ne v h2p hne]
        exact h.pairs c hc hic hpos h2p
  · intro c hc hcm him hpos
    have hcp : c ≠ p := by omega
    have hcm' : c ≠ m := by omega
    rw [hm, swap_left, swap_of_ne v hcp hcm']
    have hpair := h.pairs c hc (by omega) (by omega) (by omega)
    rwa [hcm] at hpair

/-- The end: the hole is in order with its children. -/
theorem HeapBut.finish (h : HeapBut le v i n p) (hstop : ∀ c, c ≤ n → c / 2 = p → le (v c) (v p)) :
    HeapFrom le v i n := by
  intro c hc hi hpos
  by_cases hcp : c / 2 = p
  · rw [hcp]
    exact hstop c hc hcp
  · exact h.pairs c hc hi hpos hcp

/-- **The root is the largest.** -/
theorem HeapFrom.root (h : HeapFrom le v 1 n) (hrefl : ∀ a, le a a)
    (htrans : ∀ a b c, le a b → le b c → le a c) {k : ℕ} (hk : 0 < k) (hkn : k ≤ n) :
    le (v k) (v 1) := by
  induction k using Nat.strong_induction_on with
  | h k ih =>
    by_cases hone : k = 1
    · rw [hone]
      exact hrefl _
    · have hup := h k hkn (by omega) (by omega)
      exact htrans _ _ _ hup (ih (k / 2) (by omega) (by omega) (by omega))

/-- Taking the root away: what was last is the hole at the root. -/
theorem HeapFrom.remove (h : HeapFrom le v 1 (n + 1)) :
    HeapBut le (swap v 1 (n + 1)) 1 n 1 := by
  constructor
  · intro c hc hi hpos hne
    rw [swap_of_ne v (by omega) (by omega), swap_of_ne v hne (by omega)]
    exact h c (by omega) hi hpos
  · intro c hc hc1 hi hpos
    omega

/-! ## Rearrangement -/

/-- The positions 1 to `n` are rearranged, and no others. -/
def PermOn (n : ℕ) (v v' : ℕ → E) : Prop :=
  ∃ σ : Equiv.Perm ℕ, (∀ k, k = 0 ∨ n < k → σ k = k) ∧ ∀ k, v' k = v (σ k)

theorem PermOn.refl (n : ℕ) (v : ℕ → E) : PermOn n v v :=
  ⟨Equiv.refl ℕ, fun _ _ => rfl, fun _ => rfl⟩

theorem PermOn.trans {v'' : ℕ → E} (h₁ : PermOn n v v') (h₂ : PermOn n v' v'') :
    PermOn n v v'' := by
  obtain ⟨σ, hσ, hv⟩ := h₁
  obtain ⟨τ, hτ, hv'⟩ := h₂
  refine ⟨τ.trans σ, fun k hk => ?_, fun k => ?_⟩
  · rw [Equiv.trans_apply, hτ k hk, hσ k hk]
  · rw [hv' k, hv (τ k), Equiv.trans_apply]

theorem PermOn.mono {n' : ℕ} (h : PermOn n v v') (hn : n ≤ n') : PermOn n' v v' := by
  obtain ⟨σ, hσ, hv⟩ := h
  exact ⟨σ, fun k hk => hσ k (by omega), hv⟩

theorem permOn_swap {a b : ℕ} (v : ℕ → E) (ha : 0 < a) (han : a ≤ n) (hb : 0 < b)
    (hbn : b ≤ n) : PermOn n v (swap v a b) :=
  ⟨Equiv.swap a b, fun _ hk => Equiv.swap_apply_of_ne_of_ne (by omega) (by omega),
    fun _ => rfl⟩

/-- A rearranged position holds what some position of the range held. -/
theorem PermOn.at (h : PermOn n v v') {k : ℕ} (hk : 0 < k) (hkn : k ≤ n) :
    ∃ j, 0 < j ∧ j ≤ n ∧ v' k = v j := by
  obtain ⟨σ, hσ, hv⟩ := h
  refine ⟨σ k, ?_, ?_, hv k⟩
  · by_contra hz
    have h0 : σ k = 0 := by omega
    have h00 : σ 0 = 0 := hσ 0 (Or.inl rfl)
    have hk0 := σ.injective (h0.trans h00.symm)
    omega
  · by_contra hgt
    have hfix : σ (σ k) = σ k := hσ _ (Or.inr (by omega))
    have hk' := σ.injective hfix
    omega

theorem PermOn.off (h : PermOn n v v') {k : ℕ} (hk : n < k) : v' k = v k := by
  obtain ⟨σ, hσ, hv⟩ := h
  rw [hv k, hσ k (Or.inr hk)]

/-- As lists, the two are permutations of each other. -/
theorem PermOn.perm (h : PermOn n v v') :
    ((List.range n).map (fun k => v' (k + 1))).Perm ((List.range n).map (fun k => v (k + 1))) := by
  have hrange : ∀ w : ℕ → E, (List.range n).map (fun k => w (k + 1))
      = (List.range' 1 n).map w := by
    intro w
    rw [List.range'_eq_map_range, List.map_map]
    apply List.map_congr_left
    intro k _
    rw [Function.comp_apply, Nat.add_comm]
  rw [hrange, hrange]
  obtain ⟨σ, hσ, hv⟩ := h
  have hmap : (List.range' 1 n).map v' = ((List.range' 1 n).map σ).map v := by
    rw [List.map_map]
    exact List.map_congr_left (fun k _ => hv k)
  rw [hmap]
  apply List.Perm.map
  -- `σ` permutes the positions themselves
  have hnd0 : (List.range' 1 n).Nodup := List.nodup_range'
  have hnd : ((List.range' 1 n).map σ).Nodup := hnd0.map σ.injective
  refine (List.perm_ext_iff_of_nodup hnd hnd0).mpr (fun k => ?_)
  have hin : ∀ k, k ∈ List.range' 1 n → σ k ∈ List.range' 1 n := by
    intro k hk
    rw [List.mem_range'_1] at hk ⊢
    have hself : PermOn n (fun x : ℕ => x) σ := ⟨σ, hσ, fun _ => rfl⟩
    obtain ⟨j, hj, hjn, hvj⟩ := hself.at (show 0 < k by omega) (show k ≤ n by omega)
    rw [hvj]
    omega
  constructor
  · intro hk
    obtain ⟨j, hj, rfl⟩ := List.mem_map.mp hk
    exact hin j hj
  · intro hk
    refine List.mem_map.mpr ⟨σ.symm k, ?_, σ.apply_symm_apply k⟩
    by_contra hout
    rw [List.mem_range'_1] at hout hk
    have hfix : σ (σ.symm k) = σ.symm k := hσ _ (by omega)
    rw [σ.apply_symm_apply] at hfix
    omega

end HeapOrder
