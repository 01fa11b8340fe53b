/-
`lib/kernel/bitmap.c`, at the level its comments describe it: a bitmap is a
vector of `bit_cnt` booleans.

The free map and the swap table are both bitmaps, and both use the same four
operations: scan for the first run of equal bits, flip it, set a run, test a
run. `BITMAP_ERROR` is `none` here; the callers that store it as a sector number
write `BITMAP_ERROR` themselves.
-/
import Pintos.Base

set_option autoImplicit false

namespace Pintos.Kernel

/-- `struct bitmap`: `bit_cnt` bits. Positions from `bit_cnt` on do not exist. -/
structure Bitmap where
  bit_cnt : ℕ
  bits : ℕ → Bool

/-- `SIZE_MAX`, what a failed scan returns. -/
def BITMAP_ERROR : ℕ := 2 ^ 32 - 1

/-- `bitmap_contains`: some bit of the `cnt` from `start` equals `value`. -/
def bitmap_contains (b : Bitmap) (start cnt : ℕ) (value : Bool) : Bool :=
  (List.range cnt).any (fun i => b.bits (start + i) == value)

/-- `bitmap_all`. -/
def bitmap_all (b : Bitmap) (start cnt : ℕ) : Bool :=
  !bitmap_contains b start cnt false

/-- `bitmap_set_multiple`, with its assertion on the range. -/
def bitmap_set_multiple (b : Bitmap) (start cnt : ℕ) (value : Bool) : Res Bitmap := do
  ASSERT (start + cnt ≤ b.bit_cnt)
  return { b with bits := fun i => if start ≤ i ∧ i < start + cnt then value else b.bits i }

/-- `bitmap_scan`: the first of the candidate positions `start .. bit_cnt - cnt`
whose run holds no bit of the opposite value. -/
def bitmap_scan (b : Bitmap) (start cnt : ℕ) (value : Bool) : Option ℕ :=
  if cnt ≤ b.bit_cnt then
    (List.range' start (b.bit_cnt - cnt + 1 - start)).find?
      (fun i => !bitmap_contains b i cnt (!value))
  else none

/-- `bitmap_scan_and_flip`. -/
def bitmap_scan_and_flip (b : Bitmap) (start cnt : ℕ) (value : Bool) :
    Res (Option ℕ × Bitmap) :=
  match bitmap_scan b start cnt value with
  | none => .ok (none, b)
  | some i => do
    let b' ← bitmap_set_multiple b i cnt (!value)
    return (some i, b')

/-- `byte_cnt`, which is also `bitmap_file_size`: whole 32-bit elements. -/
def byte_cnt (bit_cnt : ℕ) : ℕ := 4 * ((bit_cnt + 31) / 32)

/-- The bytes of the element array: bit `i` of byte `j` is bit `8 j + i`. -/
def bitmap_bytes (b : Bitmap) (j : ℕ) : UInt8 :=
  UInt8.ofNat ((List.range 8).foldl
    (fun a i => a + (if b.bits (8 * j + i) then 2 ^ i else 0)) 0)

/-- What `bitmap_read` makes of the element array; `last_mask` drops the bits past
the end. -/
def bitmap_of_bytes (bit_cnt : ℕ) (bytes : ℕ → UInt8) : Bitmap where
  bit_cnt := bit_cnt
  bits := fun i => i < bit_cnt && (bytes (i / 8)).toNat.testBit (i % 8)

/-! ## What the operations compute -/

theorem bitmap_set_multiple_eq {b : Bitmap} {start cnt : ℕ} (value : Bool)
    (h : start + cnt ≤ b.bit_cnt) :
    bitmap_set_multiple b start cnt value = .ok { b with
      bits := fun i => if start ≤ i ∧ i < start + cnt then value else b.bits i } := by
  simp only [bitmap_set_multiple, ASSERT_pos h, ok_bind, pure_eq_ok]

/-- A run of one bit. -/
theorem bitmap_contains_one (b : Bitmap) (i : ℕ) (value : Bool) :
    bitmap_contains b i 1 value = (b.bits i == value) := by
  simp [bitmap_contains]

/-- A scan returns a position inside the map whose whole run has the value
asked for. -/
theorem bitmap_scan_some {b : Bitmap} {start cnt i : ℕ} {value : Bool}
    (h : bitmap_scan b start cnt value = some i) :
    start ≤ i ∧ i + cnt ≤ b.bit_cnt ∧ ∀ k < cnt, b.bits (i + k) = value := by
  unfold bitmap_scan at h
  split at h
  · rename_i hcnt
    have hmem := List.mem_of_find?_eq_some h
    have hp := List.find?_some h
    rw [List.mem_range'_1] at hmem
    refine ⟨hmem.1, by omega, ?_⟩
    intro k hk
    simp only [bitmap_contains, Bool.not_eq_true', List.any_eq_false, List.mem_range] at hp
    have hk' := hp k hk
    cases hv : b.bits (i + k) <;> cases value <;> simp_all
  · cases h

/-- A scan that fails saw no run with the value asked for. -/
theorem bitmap_scan_none {b : Bitmap} {start cnt i : ℕ} {value : Bool}
    (h : bitmap_scan b start cnt value = none) (hstart : start ≤ i) (hi : i + cnt ≤ b.bit_cnt) :
    ∃ k < cnt, b.bits (i + k) ≠ value := by
  unfold bitmap_scan at h
  rw [if_pos (by omega), List.find?_eq_none] at h
  have hrun := h i (by rw [List.mem_range'_1]; omega)
  unfold bitmap_contains at hrun
  simp only [Bool.not_eq_true', Bool.not_eq_false, List.any_eq_true, List.mem_range] at hrun
  obtain ⟨k, hk, hval⟩ := hrun
  refine ⟨k, hk, ?_⟩
  cases hv : b.bits (i + k) <;> cases value <;> simp_all

/-- A scan for one bit that fails saw no such bit. -/
theorem bitmap_scan_one_none {b : Bitmap} {value : Bool}
    (h : bitmap_scan b 0 1 value = none) :
    ∀ i < b.bit_cnt, b.bits i = !value := by
  intro i hi
  unfold bitmap_scan at h
  rw [if_pos (by omega)] at h
  rw [List.find?_eq_none] at h
  have := h i (by rw [List.mem_range'_1]; omega)
  rw [bitmap_contains_one] at this
  cases hv : b.bits i <;> cases value <;> simp_all

/-- The run of length one is the single position. -/
theorem run_one (bits : ℕ → Bool) (i : ℕ) (value : Bool) :
    (fun k => if i ≤ k ∧ k < i + 1 then value else bits k) = Function.update bits i value := by
  funext k
  by_cases hk : k = i
  · subst hk
    simp
  · rw [Function.update_of_ne hk, if_neg (by omega)]

/-- **Allocation of one bit.** With a free bit left, `bitmap_scan_and_flip`
returns a free position and sets exactly it. -/
theorem bitmap_scan_and_flip_one {b : Bitmap} (h : ∃ i < b.bit_cnt, b.bits i = false) :
    ∃ i, i < b.bit_cnt ∧ b.bits i = false ∧
      bitmap_scan_and_flip b 0 1 false
        = .ok (some i, { b with bits := Function.update b.bits i true }) := by
  cases hs : bitmap_scan b 0 1 false with
  | none =>
    obtain ⟨i, hi, hf⟩ := h
    have := bitmap_scan_one_none hs i hi
    rw [hf] at this
    cases this
  | some i =>
    obtain ⟨-, hle, hval⟩ := bitmap_scan_some hs
    refine ⟨i, by omega, by simpa using hval 0 (by omega), ?_⟩
    simp only [bitmap_scan_and_flip, hs, bitmap_set_multiple_eq _ hle, ok_bind, pure_eq_ok]
    rw [run_one]
    rfl

/-- The eight bits of a byte, one by one. -/
theorem testBit_byte (b : ℕ → Bool) (i : ℕ) (hi : i < 8) :
    ((List.range 8).foldl (fun a k => a + (if b k then 2 ^ k else 0)) 0).testBit i = b i := by
  have hall : ∀ b0 b1 b2 b3 b4 b5 b6 b7 : Bool, ∀ i : Fin 8,
      ((if b0 then 1 else 0) + (if b1 then 2 else 0) + (if b2 then 4 else 0)
        + (if b3 then 8 else 0) + (if b4 then 16 else 0) + (if b5 then 32 else 0)
        + (if b6 then 64 else 0) + (if b7 then 128 else 0) : ℕ).testBit i
      = [b0, b1, b2, b3, b4, b5, b6, b7].get i := by
    decide +kernel
  have h := hall (b 0) (b 1) (b 2) (b 3) (b 4) (b 5) (b 6) (b 7) ⟨i, hi⟩
  have hsum : (List.range 8).foldl (fun a k => a + (if b k then 2 ^ k else 0)) 0
      = (if b 0 then 1 else 0) + (if b 1 then 2 else 0) + (if b 2 then 4 else 0)
        + (if b 3 then 8 else 0) + (if b 4 then 16 else 0) + (if b 5 then 32 else 0)
        + (if b 6 then 64 else 0) + (if b 7 then 128 else 0) := by
    simp [List.range_succ]
  rw [hsum, h]
  interval_cases i <;> rfl

theorem byte_sum_lt (b : ℕ → Bool) :
    (List.range 8).foldl (fun a k => a + (if b k then 2 ^ k else 0)) 0 < 256 := by
  simp only [List.range_succ, List.range_zero, List.nil_append, List.cons_append,
    List.foldl_cons, List.foldl_nil]
  split_ifs <;> norm_num

/-- **Bitmap round trip.** A map without bits past its end is read back as it was
written. -/
theorem bitmap_of_bytes_bitmap_bytes {b : Bitmap} (h : ∀ i, b.bits i = true → i < b.bit_cnt) :
    bitmap_of_bytes b.bit_cnt (bitmap_bytes b) = b := by
  obtain ⟨n, bits⟩ := b
  simp only [bitmap_of_bytes, Bitmap.mk.injEq, true_and]
  funext i
  have hbyte : (bitmap_bytes ⟨n, bits⟩ (i / 8)).toNat
      = (List.range 8).foldl (fun a k => a + (if bits (8 * (i / 8) + k) then 2 ^ k else 0)) 0 := by
    rw [bitmap_bytes, UInt8.toNat_ofNat']
    exact Nat.mod_eq_of_lt (byte_sum_lt _)
  rw [hbyte, testBit_byte (fun k => bits (8 * (i / 8) + k)) _ (by omega), Nat.div_add_mod]
  by_cases hi : i < n
  · simp [hi]
  · have : bits i = false := by
      by_contra hne
      exact hi (h i (by simpa using hne))
    simp [this]

end Pintos.Kernel
