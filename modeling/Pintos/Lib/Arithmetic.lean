/-
`lib/arithmetic.c`: 64-bit division for a machine that divides 64 bits by 32.

`divl` is the one instruction that divides, and it traps when the quotient does not fit its
register; the model returns `none` then, so a call that returns executed no `divl` that traps.
Everything else is unsigned or two's complement arithmetic that wraps, and conversions that keep
the low bits.

`umod64` and `smod64` return 32 bits. A remainder that needs more is cut off.
-/
import Pintos.Base
import Pintos.Library.Quotient

set_option autoImplicit false

namespace Pintos.Lib

/-! ## The code -/

/-- `divl`: the 32-bit quotient of `n` by `d`, or `none` when the instruction raises `#DE`: the
divisor is zero or the quotient does not fit. -/
def divl (n : BitVec 64) (d : BitVec 32) : Option (BitVec 32) :=
  if d = 0 then none
  else if n.toNat / d.toNat < 2 ^ 32 then some (BitVec.ofNat 32 (n.toNat / d.toNat))
  else none

/-- One step of `nlz`: `if (x <= bound) { n += k; x <<= k; }`. -/
def nlz_step (bound : BitVec 32) (k : ℕ) (s : ℕ × BitVec 32) : ℕ × BitVec 32 :=
  if s.2 ≤ bound then (s.1 + k, s.2 <<< k) else s

/-- `nlz`: the number of leading zero bits in `x`, which must be nonzero. -/
def nlz (x : BitVec 32) : ℕ :=
  let s := (0, x)
  let s := nlz_step 0x0000FFFF#32 16 s
  let s := nlz_step 0x00FFFFFF#32 8 s
  let s := nlz_step 0x0FFFFFFF#32 4 s
  let s := nlz_step 0x3FFFFFFF#32 2 s
  if s.2 ≤ 0x7FFFFFFF#32 then s.1 + 1 else s.1

/-- `udiv64`. -/
def udiv64 (n d : BitVec 64) : Option (BitVec 64) :=
  if d >>> 32 = 0 then do
    let b : BitVec 64 := 1#64 <<< 32
    let n1 : BitVec 32 := (n >>> 32).setWidth 32
    let n0 : BitVec 32 := n.setWidth 32
    let d0 : BitVec 32 := d.setWidth 32
    let q ← divl (b * (n1 % d0).setWidth 64 + n0.setWidth 64) d0
    return q.setWidth 64 + b * (n1 / d0).setWidth 64
  else if n < d then return 0
  else do
    let d1 : BitVec 32 := (d >>> 32).setWidth 32
    let s := nlz d1
    let q ← divl (n >>> 1) (((d <<< s) >>> 32).setWidth 32)
    let q : BitVec 64 := (q >>> (31 - s)).setWidth 64
    return if n - (q - 1) * d < d then q - 1 else q

/-- `umod64`, which returns a `uint32_t`. -/
def umod64 (n d : BitVec 64) : Option (BitVec 32) := do
  let q ← udiv64 n d
  return (n - d * q).setWidth 32

/-- `n >= 0 ? (uint64_t) n : -(uint64_t) n`. -/
def abs64 (n : BitVec 64) : BitVec 64 := if 0 ≤ n.toInt then n else -n

/-- `sdiv64`. -/
def sdiv64 (n d : BitVec 64) : Option (BitVec 64) := do
  let n_abs := abs64 n
  let d_abs := abs64 d
  let q_abs ← udiv64 n_abs d_abs
  return if decide (n.toInt < 0) = decide (d.toInt < 0) then q_abs else -q_abs

/-- `smod64`, which returns an `int32_t`. -/
def smod64 (n d : BitVec 64) : Option (BitVec 32) := do
  let q ← sdiv64 n d
  return (n - d * q).setWidth 32

/-- `__divdi3`. -/
def divdi3 (n d : BitVec 64) : Option (BitVec 64) := sdiv64 n d

/-- `__moddi3`: the `int32_t` is extended by its sign. -/
def moddi3 (n d : BitVec 64) : Option (BitVec 64) := (smod64 n d).map (·.signExtend 64)

/-- `__udivdi3`. -/
def udivdi3 (n d : BitVec 64) : Option (BitVec 64) := udiv64 n d

/-- `__umoddi3`: the `uint32_t` is extended by zeros. -/
def umoddi3 (n d : BitVec 64) : Option (BitVec 64) := (umod64 n d).map (·.setWidth 64)

/-! ## The instruction and the leading zeros -/

/-- `divl` returns when the divisor is positive and the quotient fits, and then it is exact. -/
theorem divl_eq (n : BitVec 64) (d : BitVec 32) (hd : 0 < d.toNat)
    (hq : n.toNat / d.toNat < 2 ^ 32) :
    ∃ q, divl n d = some q ∧ q.toNat = n.toNat / d.toNat := by
  have hne : d ≠ 0 := by
    rintro rfl
    exact absurd hd (by simp)
  refine ⟨BitVec.ofNat 32 (n.toNat / d.toNat), ?_, ?_⟩
  · rw [divl, if_neg hne, if_pos hq]
  · rw [BitVec.toNat_ofNat, Nat.mod_eq_of_lt hq]

/-- What `nlz` keeps: the bits counted so far and what is left make up `x`, and what is left is
at least `2 ^ m`. -/
def Counted (x : BitVec 32) (m : ℕ) (s : ℕ × BitVec 32) : Prop :=
  s.2.toNat = x.toNat * 2 ^ s.1 ∧ 2 ^ m ≤ s.2.toNat

/-- Shifting out `k` zero bits. -/
theorem Counted.shift {x : BitVec 32} {m k : ℕ} {s : ℕ × BitVec 32} (hk : k ≤ 32)
    (hlt : s.2.toNat < 2 ^ (32 - k)) (h : Counted x m s) :
    Counted x (m + k) (s.1 + k, s.2 <<< k) := by
  have hno : s.2.toNat * 2 ^ k < 2 ^ 32 := by
    calc s.2.toNat * 2 ^ k < 2 ^ (32 - k) * 2 ^ k :=
          Nat.mul_lt_mul_of_pos_right hlt (Nat.two_pow_pos k)
      _ = 2 ^ 32 := by rw [← pow_add, Nat.sub_add_cancel hk]
  constructor
  · rw [BitVec.toNat_shiftLeft, Nat.shiftLeft_eq, Nat.mod_eq_of_lt hno, h.1, pow_add,
      Nat.mul_assoc]
  · rw [BitVec.toNat_shiftLeft, Nat.shiftLeft_eq, Nat.mod_eq_of_lt hno, pow_add]
    exact Nat.mul_le_mul_right _ h.2

/-- A step of `nlz` doubles the number of bits that are known to be in place. -/
theorem nlz_step_counted {x : BitVec 32} {s : ℕ × BitVec 32} (bound : BitVec 32) (m k : ℕ)
    (hk : k ≤ 32) (hm : m + k = 32 - k) (hb : bound.toNat + 1 = 2 ^ (32 - k))
    (h : Counted x m s) : Counted x (m + k) (nlz_step bound k s) := by
  by_cases hle : s.2 ≤ bound
  · rw [nlz_step, if_pos hle]
    apply h.shift hk
    have hle' := BitVec.le_def.mp hle
    omega
  · rw [nlz_step, if_neg hle]
    refine ⟨h.1, ?_⟩
    have hgt := BitVec.lt_def.mp (BitVec.not_le.mp hle)
    rw [hm]
    omega

/-- `nlz` counts the zeros: shifted by them, `x` fills 32 bits. -/
theorem nlz_spec (x : BitVec 32) (hx : 0 < x.toNat) :
    2 ^ 31 ≤ x.toNat * 2 ^ nlz x ∧ x.toNat * 2 ^ nlz x < 2 ^ 32 := by
  have h0 : Counted x 0 (0, x) := ⟨by simp, hx⟩
  have h1 := nlz_step_counted 0x0000FFFF#32 0 16 (by omega) (by omega) (by decide) h0
  have h2 := nlz_step_counted 0x00FFFFFF#32 16 8 (by omega) (by omega) (by decide) h1
  have h3 := nlz_step_counted 0x0FFFFFFF#32 24 4 (by omega) (by omega) (by decide) h2
  have h4 := nlz_step_counted 0x3FFFFFFF#32 28 2 (by omega) (by omega) (by decide) h3
  simp only [nlz]
  generalize nlz_step 0x3FFFFFFF#32 2 _ = s at *
  have hlt := s.2.isLt
  -- the last step counts without shifting
  by_cases hle : s.2 ≤ 0x7FFFFFFF#32
  · rw [if_pos hle, pow_succ 2 s.1, ← Nat.mul_assoc, ← h4.1]
    have hle' : s.2.toNat ≤ 0x7FFFFFFF := BitVec.le_def.mp hle
    have hge : 2 ^ (28 + 2) ≤ s.2.toNat := h4.2
    omega
  · rw [if_neg hle, ← h4.1]
    have hgt : 0x7FFFFFFF < s.2.toNat := BitVec.lt_def.mp (BitVec.not_le.mp hle)
    omega

/-! ## Unsigned division -/

/-- A `uint32_t` keeps its value as a `uint64_t`. -/
theorem toNat_zext (x : BitVec 32) : (x.setWidth 64).toNat = x.toNat := by
  rw [BitVec.toNat_setWidth, Nat.mod_eq_of_lt (by omega)]

/-- **A divisor of 32 bits.** The high word is divided first; what it leaves is less than the
divisor, so the quotient of the `divl` fits. -/
theorem udiv64_narrow (n d : BitVec 64) (hd : 0 < d.toNat) (hn : d >>> 32 = 0) :
    ∃ q, udiv64 n d = some q ∧ q.toNat = n.toNat / d.toNat := by
  have hsmall : d.toNat < 2 ^ 32 := by
    have h0 := congrArg BitVec.toNat hn
    simp only [BitVec.toNat_ushiftRight, Nat.shiftRight_eq_div_pow] at h0
    exact (Nat.div_eq_zero_iff_lt (by norm_num)).mp h0
  have hn64 := n.isLt
  have hd0 : (d.setWidth 32).toNat = d.toNat := by
    rw [BitVec.toNat_setWidth, Nat.mod_eq_of_lt hsmall]
  have hn1 : ((n >>> 32).setWidth 32).toNat = n.toNat / 2 ^ 32 := by
    rw [BitVec.toNat_setWidth, BitVec.toNat_ushiftRight, Nat.shiftRight_eq_div_pow]
    omega
  have hn0 : (n.setWidth 32).toNat = n.toNat % 2 ^ 32 := BitVec.toNat_setWidth ..
  have hmod : n.toNat / 2 ^ 32 % d.toNat < d.toNat := Nat.mod_lt _ hd
  have hb : (1#64 <<< 32).toNat = 2 ^ 32 := by decide
  -- the number that is divided, and what is added afterwards
  have hnum : (1#64 <<< 32 * ((n >>> 32).setWidth 32 % d.setWidth 32).setWidth 64
      + (n.setWidth 32).setWidth 64).toNat
      = 2 ^ 32 * (n.toNat / 2 ^ 32 % d.toNat) + n.toNat % 2 ^ 32 := by
    rw [BitVec.toNat_add, BitVec.toNat_mul, toNat_zext, BitVec.toNat_umod, toNat_zext, hb, hn1,
      hd0, hn0]
    omega
  have hquot : (2 ^ 32 * (n.toNat / 2 ^ 32 % d.toNat) + n.toNat % 2 ^ 32) / d.toNat < 2 ^ 32 := by
    rw [Nat.div_lt_iff_lt_mul hd]
    calc 2 ^ 32 * (n.toNat / 2 ^ 32 % d.toNat) + n.toNat % 2 ^ 32
        < 2 ^ 32 * (n.toNat / 2 ^ 32 % d.toNat + 1) := by omega
      _ ≤ 2 ^ 32 * d.toNat := Nat.mul_le_mul_left _ hmod
  obtain ⟨q, hq, hqv⟩ := divl_eq _ (d.setWidth 32) (by rw [hd0]; exact hd)
    (by rw [hnum, hd0]; exact hquot)
  refine ⟨_, by rw [udiv64, if_pos hn]; dsimp only; rw [hq]; rfl, ?_⟩
  have hwhole : n.toNat = 2 ^ 32 * (n.toNat / 2 ^ 32 % d.toNat) + n.toNat % 2 ^ 32
      + d.toNat * (2 ^ 32 * (n.toNat / 2 ^ 32 / d.toNat)) := by
    have h1 := Nat.div_add_mod (n.toNat / 2 ^ 32) d.toNat
    have h2 := Nat.div_add_mod n.toNat (2 ^ 32)
    calc n.toNat = 2 ^ 32 * (d.toNat * (n.toNat / 2 ^ 32 / d.toNat)
          + n.toNat / 2 ^ 32 % d.toNat) + n.toNat % 2 ^ 32 := by rw [h1, h2]
      _ = _ := by ring
  have hsplit : n.toNat / d.toNat = (2 ^ 32 * (n.toNat / 2 ^ 32 % d.toNat) + n.toNat % 2 ^ 32)
      / d.toNat + 2 ^ 32 * (n.toNat / 2 ^ 32 / d.toNat) := by
    rw [← Nat.add_mul_div_left _ _ hd, ← hwhole]
  have hfit : n.toNat / d.toNat < 2 ^ 64 := lt_of_le_of_lt (Nat.div_le_self _ _) hn64
  rw [hsplit] at hfit ⊢
  rw [hnum, hd0] at hqv
  rw [BitVec.toNat_add, BitVec.toNat_mul, toNat_zext, toNat_zext, BitVec.toNat_udiv, hb, hn1,
    hd0, hqv]
  omega

/-- The weight that is dropped from the divisor, in terms of its leading zeros. -/
theorem shift_shift (d : BitVec 64) (s : ℕ) (hs : s ≤ 32) (hno : d.toNat * 2 ^ s < 2 ^ 64) :
    (((d <<< s) >>> 32).setWidth 32).toNat = d.toNat / 2 ^ (32 - s) := by
  have hpow : (2 : ℕ) ^ 32 = 2 ^ (32 - s) * 2 ^ s := by rw [← pow_add, Nat.sub_add_cancel hs]
  have hdiv : d.toNat * 2 ^ s / 2 ^ 32 = d.toNat / 2 ^ (32 - s) := by
    rw [hpow, Nat.mul_div_mul_right _ _ (Nat.two_pow_pos s)]
  rw [BitVec.toNat_setWidth, BitVec.toNat_ushiftRight, Nat.shiftRight_eq_div_pow,
    BitVec.toNat_shiftLeft, Nat.shiftLeft_eq, Nat.mod_eq_of_lt hno, hdiv]
  apply Nat.mod_eq_of_lt
  rw [← hdiv]
  omega

/-- Thirty-two leading bits are enough for the estimate of a 64-bit quotient. -/
theorem estimate_fits {n v p : ℕ} (hn : n < 2 ^ 64) (hv : 2 ^ 31 ≤ v) (hp : 0 < p) :
    n * (p - 1) ≤ v * p * (v * p) := by
  have hsq : 4 * (p - 1) ≤ p * p := by
    obtain ⟨r, rfl⟩ := Nat.exists_eq_succ_of_ne_zero (Nat.ne_of_gt hp)
    -- `(r + 1) ^ 2 - 4 r = (r - 1) ^ 2`
    have hr : 0 ≤ ((r : ℤ) - 1) * ((r : ℤ) - 1) := mul_self_nonneg _
    zify
    simp only [Nat.succ_eq_add_one, Nat.add_sub_cancel]
    nlinarith
  calc n * (p - 1) ≤ 2 ^ 64 * (p - 1) := Nat.mul_le_mul_right _ hn.le
    _ = 2 ^ 31 * 2 ^ 31 * (4 * (p - 1)) := by ring
    _ ≤ v * v * (p * p) := Nat.mul_le_mul (Nat.mul_le_mul hv hv) hsq
    _ = v * p * (v * p) := by ring

/-- **A divisor of more than 32 bits.** The dividend is divided by the leading 32 bits of the
divisor. That quotient is at most one high, and the last comparison puts it right. -/
theorem udiv64_wide (n d : BitVec 64) (hw : d >>> 32 ≠ 0) (hge : ¬ n < d) :
    ∃ q, udiv64 n d = some q ∧ q.toNat = n.toNat / d.toNat := by
  have hn64 := n.isLt
  have hd64 := d.isLt
  have hdn : d.toNat ≤ n.toNat := BitVec.le_def.mp (BitVec.not_lt.mp hge)
  have hd1 : ((d >>> 32).setWidth 32).toNat = d.toNat / 2 ^ 32 := by
    rw [BitVec.toNat_setWidth, BitVec.toNat_ushiftRight, Nat.shiftRight_eq_div_pow]
    omega
  have hbig : 2 ^ 32 ≤ d.toNat := by
    by_contra hlt
    apply hw
    apply BitVec.eq_of_toNat_eq
    rw [BitVec.toNat_ushiftRight, Nat.shiftRight_eq_div_pow, Nat.div_eq_of_lt (by omega)]
    rfl
  obtain ⟨hlo, hhi⟩ := nlz_spec ((d >>> 32).setWidth 32) (by rw [hd1]; omega)
  rw [hd1] at hlo hhi
  generalize hs : nlz ((d >>> 32).setWidth 32) = s at hlo hhi
  have hs31 : s ≤ 31 := by
    by_contra hgt
    have h32 : 2 ^ 32 ≤ 2 ^ s := Nat.pow_le_pow_right (by norm_num) (by omega)
    have h1 : 1 * 2 ^ s ≤ d.toNat / 2 ^ 32 * 2 ^ s := Nat.mul_le_mul_right _ (by omega)
    omega
  -- `p` is the weight at which bits of the divisor are dropped
  have hp32 : 2 ^ (32 - s) * 2 ^ s = 2 ^ 32 := by rw [← pow_add, Nat.sub_add_cancel (by omega)]
  have hnext : 32 - s = 31 - s + 1 := by omega
  have hp31 : 2 ^ (32 - s) = 2 * 2 ^ (31 - s) := by rw [← pow_succ', ← hnext]
  have hno : d.toNat * 2 ^ s < 2 ^ 64 := by
    have hlt : d.toNat / 2 ^ 32 < 2 ^ (32 - s) := by
      apply Nat.lt_of_mul_lt_mul_right
      rw [hp32]
      exact hhi
    have hlt' : d.toNat < 2 ^ (32 - s) * 2 ^ 32 := (Nat.div_lt_iff_lt_mul (by norm_num)).mp hlt
    calc d.toNat * 2 ^ s < 2 ^ (32 - s) * 2 ^ 32 * 2 ^ s :=
          Nat.mul_lt_mul_of_pos_right hlt' (Nat.two_pow_pos s)
      _ = 2 ^ (32 - s) * 2 ^ s * 2 ^ 32 := by ring
      _ = 2 ^ 64 := by rw [hp32]; norm_num
  have hv := shift_shift d s (by omega) hno
  have hvlo : 2 ^ 31 ≤ d.toNat / 2 ^ (32 - s) := by
    calc 2 ^ 31 ≤ 2 ^ s * (d.toNat / 2 ^ 32) := by rw [Nat.mul_comm]; exact hlo
      _ ≤ 2 ^ s * d.toNat / 2 ^ 32 := Nat.mul_div_le_mul_div_assoc ..
      _ = d.toNat / 2 ^ (32 - s) := by
        rw [← hp32, Nat.mul_comm (2 ^ s), Nat.mul_div_mul_right _ _ (Nat.two_pow_pos s)]
  have hhalf : (n >>> 1).toNat = n.toNat / 2 := by
    rw [BitVec.toNat_ushiftRight, Nat.shiftRight_eq_div_pow, pow_one]
  generalize hdv : ((d <<< s) >>> 32).setWidth 32 = dv at hv
  obtain ⟨q, hq, hqv⟩ := divl_eq (n >>> 1) dv (by omega) (by
    rw [hv, hhalf, Nat.div_lt_iff_lt_mul (by omega)]
    calc n.toNat / 2 < 2 ^ 32 * 2 ^ 31 := by omega
      _ ≤ 2 ^ 32 * (d.toNat / 2 ^ (32 - s)) := Nat.mul_le_mul_left _ hvlo)
  rw [hv, hhalf] at hqv
  have hpos : 0 < d.toNat / 2 ^ (32 - s) * 2 ^ (32 - s) :=
    Nat.mul_pos (by omega) (Nat.two_pow_pos _)
  have hest : q.toNat / 2 ^ (31 - s) = n.toNat / (d.toNat / 2 ^ (32 - s) * 2 ^ (32 - s)) := by
    have hweight : 2 * (d.toNat / 2 ^ (32 - s) * 2 ^ (31 - s))
        = d.toNat / 2 ^ (32 - s) * 2 ^ (32 - s) := by
      rw [hp31]
      ring
    rw [hqv, Nat.div_div_eq_div_mul, Nat.div_div_eq_div_mul, hweight]
  have hlow := Quotient.div_le_estimate n.toNat d.toNat _ hpos
  have hhigh := Quotient.estimate_le n.toNat d.toNat _ (Nat.two_pow_pos (32 - s)) hpos
    (estimate_fits hn64 hvlo (Nat.two_pow_pos _))
  rw [← hest] at hlow hhigh
  have hone : 1 ≤ n.toNat / d.toNat := (Nat.one_le_div_iff (by omega)).mpr hdn
  refine ⟨_, by rw [udiv64, if_neg hw, if_neg hge]; dsimp only; rw [hs, hdv, hq]; rfl, ?_⟩
  have hqs : ((q >>> (31 - s)).setWidth 64).toNat = q.toNat / 2 ^ (31 - s) := by
    rw [toNat_zext, BitVec.toNat_ushiftRight, Nat.shiftRight_eq_div_pow]
  generalize (q >>> (31 - s)).setWidth 64 = e at hqs
  rw [← hqs] at hlow hhigh
  rw [← Quotient.corrected n.toNat d.toNat e.toNat (by omega) hlow (by omega) hhigh]
  -- none of the unsigned steps of the correction wraps
  have he1 : (e - 1).toNat = e.toNat - 1 := BitVec.toNat_sub_of_le (BitVec.le_def.mpr (by
    show 1 ≤ e.toNat
    omega))
  have hmul : ((e - 1) * d).toNat = (e.toNat - 1) * d.toNat := by
    rw [BitVec.toNat_mul, he1, Nat.mod_eq_of_lt (by omega)]
  have hsub : (n - (e - 1) * d).toNat = n.toNat - (e.toNat - 1) * d.toNat := by
    rw [BitVec.toNat_sub_of_le (BitVec.le_def.mpr (by rw [hmul]; exact hhigh)), hmul]
  by_cases hlt : n - (e - 1) * d < d
  · rw [if_pos hlt, if_pos (by rw [← hsub]; exact hlt), he1]
  · rw [if_neg hlt, if_neg (by rw [← hsub]; exact hlt)]

/-- `udiv64` returns, and it returns the quotient. -/
theorem udiv64_spec (n d : BitVec 64) (hd : d ≠ 0) :
    ∃ q, udiv64 n d = some q ∧ q.toNat = n.toNat / d.toNat := by
  have hpos : 0 < d.toNat := by
    rw [Nat.pos_iff_ne_zero]
    intro h0
    exact hd (BitVec.eq_of_toNat_eq (by rw [h0]; rfl))
  by_cases hn : d >>> 32 = 0
  · exact udiv64_narrow n d hpos hn
  by_cases hlt : n < d
  · refine ⟨0, by rw [udiv64, if_neg hn, if_pos hlt]; rfl, ?_⟩
    rw [Nat.div_eq_of_lt (BitVec.lt_def.mp hlt)]
    rfl
  · exact udiv64_wide n d hn hlt

/-! ## Signed division -/

theorem abs64_toNat (n : BitVec 64) : (abs64 n).toNat = n.toInt.natAbs := by
  have hlt := n.isLt
  by_cases h : 0 ≤ n.toInt
  · rw [abs64, if_pos h]
    rw [BitVec.toInt_eq_toNat_cond] at h ⊢
    by_cases hs : 2 * n.toNat < 2 ^ 64
    · rw [if_pos hs]
      omega
    · rw [if_neg hs] at h
      omega
  · rw [abs64, if_neg h, BitVec.toNat_neg]
    rw [BitVec.toInt_eq_toNat_cond] at h ⊢
    by_cases hs : 2 * n.toNat < 2 ^ 64
    · rw [if_pos hs] at h
      omega
    · rw [if_neg hs]
      omega

theorem abs64_ne_zero {d : BitVec 64} (hd : d ≠ 0) : abs64 d ≠ 0 := by
  intro h
  apply hd
  have h0 := abs64_toNat d
  rw [h] at h0
  exact BitVec.eq_of_toInt_eq (Int.natAbs_eq_zero.mp h0.symm)

/-- Truncated division divides the absolute values and sets the sign. -/
theorem tdiv_by_sign (n d : ℤ) :
    n.tdiv d = if decide (n < 0) = decide (d < 0) then ((n.natAbs / d.natAbs : ℕ) : ℤ)
      else -((n.natAbs / d.natAbs : ℕ) : ℤ) := by
  rcases lt_or_ge n 0 with hn | hn
  · obtain ⟨a, ha⟩ := Int.exists_eq_neg_ofNat hn.le
    rcases lt_or_ge d 0 with hd | hd
    · obtain ⟨b, hb⟩ := Int.exists_eq_neg_ofNat hd.le
      rw [if_pos (by simp [hn, hd]), ha, hb, Int.neg_tdiv_neg, Int.natAbs_neg, Int.natAbs_neg]
      rfl
    · obtain ⟨b, hb⟩ := Int.eq_ofNat_of_zero_le hd
      rw [if_neg (by simp [hn, hd]), ha, hb, Int.neg_tdiv, Int.natAbs_neg]
      rfl
  · obtain ⟨a, ha⟩ := Int.eq_ofNat_of_zero_le hn
    rcases lt_or_ge d 0 with hd | hd
    · obtain ⟨b, hb⟩ := Int.exists_eq_neg_ofNat hd.le
      rw [if_neg (by simp [hn, hd]), ha, hb, Int.tdiv_neg, Int.natAbs_neg]
      rfl
    · obtain ⟨b, hb⟩ := Int.eq_ofNat_of_zero_le hd
      rw [if_pos (by simp [not_lt.mpr hn, not_lt.mpr hd]), ha, hb]
      rfl

/-- `sdiv64` returns the truncated quotient, modulo `2 ^ 64`. -/
theorem sdiv64_spec (n d : BitVec 64) (hd : d ≠ 0) :
    sdiv64 n d = some (BitVec.ofInt 64 (n.toInt.tdiv d.toInt)) := by
  obtain ⟨q, hq, hqv⟩ := udiv64_spec (abs64 n) (abs64 d) (abs64_ne_zero hd)
  rw [abs64_toNat, abs64_toNat] at hqv
  have hof : BitVec.ofInt 64 ((n.toInt.natAbs / d.toInt.natAbs : ℕ) : ℤ) = q := by
    rw [← hqv, BitVec.ofInt_natCast, BitVec.ofNat_toNat, BitVec.setWidth_eq]
  rw [tdiv_by_sign]
  simp only [sdiv64, hq]
  by_cases h : decide (n.toInt < 0) = decide (d.toInt < 0)
  · rw [if_pos h, hof]
    simp [h]
  · rw [if_neg h, BitVec.ofInt_neg, hof]
    simp [h]

/-- **64-bit division is exact and does not trap.** -/
theorem div64_exact (n d : BitVec 64) (hd : d ≠ 0) :
    (∃ q, udiv64 n d = some q ∧ q.toNat = n.toNat / d.toNat)
      ∧ sdiv64 n d = some (BitVec.ofInt 64 (n.toInt.tdiv d.toInt)) :=
  ⟨udiv64_spec n d hd, sdiv64_spec n d hd⟩

/-- Seven divided by minus two. -/
theorem div64_exact_seven :
    (∃ q, udiv64 7 (-2) = some q ∧ q.toNat = (7#64).toNat / (-2#64).toNat)
      ∧ sdiv64 7 (-2) = some (BitVec.ofInt 64 ((7#64).toInt.tdiv (-2#64).toInt)) :=
  div64_exact 7 (-2) (by decide)

/-! ## Remainders -/

theorem umod64_spec (n d : BitVec 64) (hd : d ≠ 0) :
    ∃ r, umoddi3 n d = some r ∧ r.toNat = n.toNat % d.toNat % 2 ^ 32 := by
  obtain ⟨q, hq, hqv⟩ := udiv64_spec n d hd
  have hn := n.isLt
  have hle : d.toNat * (n.toNat / d.toNat) ≤ n.toNat := Nat.mul_div_le _ _
  have hmul : (d * q).toNat = d.toNat * (n.toNat / d.toNat) := by
    rw [BitVec.toNat_mul, hqv, Nat.mod_eq_of_lt (by omega)]
  have hrem : (n - d * q).toNat = n.toNat % d.toNat := by
    rw [BitVec.toNat_sub_of_le (BitVec.le_def.mpr (by rw [hmul]; exact hle)), hmul]
    have hdm := Nat.div_add_mod n.toNat d.toNat
    omega
  refine ⟨((n - d * q).setWidth 32).setWidth 64, by simp [umoddi3, umod64, hq], ?_⟩
  rw [toNat_zext, BitVec.toNat_setWidth, hrem]

theorem smod64_spec (n d : BitVec 64) (hd : d ≠ 0) :
    ∃ r, moddi3 n d = some r ∧ r.toInt = (n.toInt.tmod d.toInt).bmod (2 ^ 32) := by
  have hrem : n - d * BitVec.ofInt 64 (n.toInt.tdiv d.toInt)
      = BitVec.ofInt 64 (n.toInt.tmod d.toInt) := by
    rw [Int.tmod_def, Int.sub_eq_add_neg, BitVec.ofInt_add, BitVec.ofInt_neg, BitVec.ofInt_mul,
      BitVec.ofInt_toInt, BitVec.ofInt_toInt, BitVec.sub_eq_add_neg]
  refine ⟨((BitVec.ofInt 64 (n.toInt.tmod d.toInt)).setWidth 32).signExtend 64,
    by simp [moddi3, smod64, sdiv64_spec n d hd, hrem], ?_⟩
  rw [BitVec.toInt_signExtend_of_le (by norm_num), BitVec.toInt_setWidth, BitVec.toNat_ofInt,
    Int.toNat_of_nonneg (Int.emod_nonneg _ (by norm_num))]
  rw [Int.bmod_def, Int.bmod_def, Int.emod_emod_of_dvd _ (by norm_num)]

/-- A multiple of `d` lies less than `2 ^ 32` below `n`. -/
def NearMultiple (n d : BitVec 64) : Prop :=
  ∃ k, k * d.toNat ≤ n.toNat ∧ n.toNat < k * d.toNat + 2 ^ 32

/-- A multiple of `d` lies between zero and `n`, and `n` less its distance from it fits an
`int32_t`: the distance is less than `2 ^ 31`, or is `2 ^ 31` below a negative multiple. -/
def SignedNearMultiple (n d : BitVec 64) : Prop :=
  ∃ k, k * d.toInt.natAbs ≤ n.toInt.natAbs
    ∧ n.toInt.natAbs < k * d.toInt.natAbs + (if n.toInt < 0 then 2 ^ 31 + 1 else 2 ^ 31)

/-- A number is its own low 32 bits, read as an `int32_t`, when it is in range. -/
theorem bmod_eq_self_iff (x : ℤ) : x.bmod (2 ^ 32) = x ↔ -2 ^ 31 ≤ x ∧ x < 2 ^ 31 := by
  constructor
  · intro h
    have hle := @Int.le_bmod x (2 ^ 32) (by norm_num)
    have hlt := @Int.bmod_lt x (2 ^ 32) (by norm_num)
    rw [h] at hle hlt
    norm_num at hle hlt
    omega
  · rintro ⟨hle, hlt⟩
    exact Int.bmod_eq_of_le (by norm_num; omega) (by norm_num; omega)

/-- The truncated remainder has the sign of the dividend. -/
theorem tmod_in_range_iff (n d : ℤ) :
    (-2 ^ 31 ≤ n.tmod d ∧ n.tmod d < 2 ^ 31)
      ↔ n.natAbs % d.natAbs < if n < 0 then 2 ^ 31 + 1 else 2 ^ 31 := by
  have habs : (n.tmod d).natAbs = n.natAbs % d.natAbs := Int.natAbs_tmod n d
  by_cases hn : n < 0
  · rw [if_pos hn]
    have hsign : 0 ≤ (-n).tmod d := Int.tmod_nonneg d (by omega)
    rw [Int.neg_tmod] at hsign
    omega
  · rw [if_neg hn]
    have hsign : 0 ≤ n.tmod d := Int.tmod_nonneg d (not_lt.mp hn)
    omega

/-- **When the 64-bit remainders are exact.** The two functions behind `%` return 32 bits, so
`__umoddi3` is exact when a multiple of the divisor lies less than `2 ^ 32` below the dividend,
and `__moddi3` when the signed remainder fits an `int32_t`. -/
theorem mod64_exact_iff (n d : BitVec 64) (hd : d ≠ 0) :
    ((∃ r, umoddi3 n d = some r ∧ r.toNat = n.toNat % d.toNat) ↔ NearMultiple n d)
      ∧ ((∃ r, moddi3 n d = some r ∧ r.toInt = n.toInt - d.toInt * n.toInt.tdiv d.toInt)
        ↔ SignedNearMultiple n d) := by
  constructor
  · obtain ⟨r, hr, hrv⟩ := umod64_spec n d hd
    rw [NearMultiple, ← Quotient.mod_lt_iff]
    constructor
    · rintro ⟨r', hr', hv⟩
      rw [hr, Option.some.injEq] at hr'
      rw [← hv, ← hr', hrv]
      exact Nat.mod_lt _ (by norm_num)
    · intro hlt
      exact ⟨r, hr, by rw [hrv, Nat.mod_eq_of_lt hlt]⟩
  · obtain ⟨r, hr, hrv⟩ := smod64_spec n d hd
    rw [SignedNearMultiple, ← Quotient.mod_lt_iff, ← tmod_in_range_iff, ← bmod_eq_self_iff,
      ← Int.tmod_def]
    constructor
    · rintro ⟨r', hr', hv⟩
      rw [hr, Option.some.injEq] at hr'
      rw [← hrv, hr', hv]
    · intro heq
      exact ⟨r, hr, by rw [hrv, heq]⟩

/-- Seven modulo minus two: both remainders fit. -/
theorem mod64_exact_iff_seven :
    ((∃ r, umoddi3 7 (-2) = some r ∧ r.toNat = (7#64).toNat % (-2#64).toNat)
        ↔ NearMultiple 7 (-2))
      ∧ ((∃ r, moddi3 7 (-2) = some r
          ∧ r.toInt = (7#64).toInt - (-2#64).toInt * (7#64).toInt.tdiv (-2#64).toInt)
        ↔ SignedNearMultiple 7 (-2)) :=
  mod64_exact_iff 7 (-2) (by decide)

/-- `2 ^ 32` modulo `2 ^ 33` comes out as zero, and `2 ^ 31` modulo `2 ^ 32` as `-2 ^ 31`. -/
theorem remainders_cut_off :
    ¬ (∀ n d : BitVec 64, d ≠ 0 → ∃ r, umoddi3 n d = some r ∧ r.toNat = n.toNat % d.toNat)
      ∧ ¬ (∀ n d : BitVec 64, d ≠ 0 → ¬ (n.toInt = -2 ^ 63 ∧ d.toInt = -1) →
        ∃ r, moddi3 n d = some r ∧ r.toInt = n.toInt - d.toInt * n.toInt.tdiv d.toInt) := by
  constructor
  · intro h
    obtain ⟨r, hr, hv⟩ := h (1#64 <<< 32) (1#64 <<< 33) (by decide)
    have hr0 : umoddi3 (1#64 <<< 32) (1#64 <<< 33) = some 0 := by decide
    rw [hr0, Option.some.injEq] at hr
    rw [← hr] at hv
    exact absurd hv (by decide)
  · intro h
    obtain ⟨r, hr, hv⟩ := h (1#64 <<< 31) (1#64 <<< 32) (by decide) (by decide)
    have hr0 : moddi3 (1#64 <<< 31) (1#64 <<< 32) = some (BitVec.ofInt 64 (-2 ^ 31)) := by decide
    rw [hr0, Option.some.injEq] at hr
    rw [← hr] at hv
    exact absurd hv (by decide)

end Pintos.Lib
