/-
`lib/kernel/bitmap.c`, as it is written: an array of 32-bit elements that simulates an
array of bits.

The last element is used in part only. Its other bits are whatever `malloc` left there:
`bitmap_create` clears the `bit_cnt` bits of the map and no others. `Bitmap.map` forgets
the elements and those bits, and every operation is the one of the vector of booleans
behind it.
-/
import Pintos.Kernel.Bitmap

set_option autoImplicit false

namespace Pintos.Kernel.Words

/-- `elem_type`; `ELEM_BITS` is 32. -/
abbrev Elem := BitVec 32

/-- `struct bitmap`. -/
structure Bitmap where
  bit_cnt : ℕ
  bits : ℕ → Elem

/-- `elem_idx`. -/
def elem_idx (bit_idx : ℕ) : ℕ := bit_idx / 32

/-- `bit_mask`. -/
def bit_mask (bit_idx : ℕ) : Elem := 1#32 <<< (bit_idx % 32)

/-- `elem_cnt`. -/
def elem_cnt (bit_cnt : ℕ) : ℕ := (bit_cnt + 31) / 32

/-- `last_mask`. -/
def last_mask (b : Bitmap) : Elem :=
  if b.bit_cnt % 32 ≠ 0 then (1#32 <<< (b.bit_cnt % 32)) - 1#32 else -1#32

/-- Reading `b->bits[idx]`. -/
def Bitmap.elem (b : Bitmap) (idx : ℕ) : Res Elem :=
  if idx < elem_cnt b.bit_cnt then .ok (b.bits idx) else .error .bounds

/-- Assigning to `b->bits[idx]`. -/
def Bitmap.set_elem (b : Bitmap) (idx : ℕ) (e : Elem) : Bitmap :=
  { b with bits := Function.update b.bits idx e }

/-! ## Single bits -/

/-- `bitmap_mark`. -/
def bitmap_mark (b : Bitmap) (bit_idx : ℕ) : Res Bitmap := do
  let e ← b.elem (elem_idx bit_idx)
  return b.set_elem (elem_idx bit_idx) (e ||| bit_mask bit_idx)

/-- `bitmap_reset`. -/
def bitmap_reset (b : Bitmap) (bit_idx : ℕ) : Res Bitmap := do
  let e ← b.elem (elem_idx bit_idx)
  return b.set_elem (elem_idx bit_idx) (e &&& ~~~ bit_mask bit_idx)

/-- `bitmap_flip`. -/
def bitmap_flip (b : Bitmap) (bit_idx : ℕ) : Res Bitmap := do
  let e ← b.elem (elem_idx bit_idx)
  return b.set_elem (elem_idx bit_idx) (e ^^^ bit_mask bit_idx)

/-- `bitmap_set`. -/
def bitmap_set (b : Bitmap) (idx : ℕ) (value : Bool) : Res Bitmap := do
  ASSERT (idx < b.bit_cnt)
  if value then bitmap_mark b idx else bitmap_reset b idx

/-- `bitmap_test`. -/
def bitmap_test (b : Bitmap) (idx : ℕ) : Res Bool := do
  ASSERT (idx < b.bit_cnt)
  let e ← b.elem (elem_idx idx)
  return (e &&& bit_mask idx) != 0#32

/-! ## Multiple bits -/

/-- The loop of `bitmap_set_multiple`, `cnt` rounds from bit `i`. -/
def set_loop (value : Bool) : (cnt i : ℕ) → Bitmap → Res Bitmap
  | 0, _, b => .ok b
  | cnt + 1, i, b => do
    let b ← bitmap_set b i value
    set_loop value cnt (i + 1) b

/-- `bitmap_set_multiple`. Where `start + cnt` would wrap, the loop ends in the assertion
of `bitmap_set`. -/
def bitmap_set_multiple (b : Bitmap) (start cnt : ℕ) (value : Bool) : Res Bitmap := do
  ASSERT (start ≤ b.bit_cnt)
  ASSERT (start + cnt ≤ b.bit_cnt)
  set_loop value cnt start b

/-- `bitmap_set_all`. -/
def bitmap_set_all (b : Bitmap) (value : Bool) : Res Bitmap :=
  bitmap_set_multiple b 0 b.bit_cnt value

/-- `bitmap_create`, in `memory` that `malloc` returned. -/
def bitmap_create (bit_cnt : ℕ) (memory : ℕ → Elem) : Res Bitmap :=
  bitmap_set_all { bit_cnt := bit_cnt, bits := memory } false

/-- `bitmap_buf_size`. `sizeof (struct bitmap)` is 8. -/
def bitmap_buf_size (bit_cnt : ℕ) : ℕ := 8 + byte_cnt bit_cnt

/-- `bitmap_create_in_buf`, in a block whose elements are `memory`. -/
def bitmap_create_in_buf (bit_cnt : ℕ) (memory : ℕ → Elem) (block_size : ℕ) : Res Bitmap := do
  ASSERT (bitmap_buf_size bit_cnt ≤ block_size)
  bitmap_set_all { bit_cnt := bit_cnt, bits := memory } false

/-- The loop of `bitmap_contains`. -/
def contains_loop (b : Bitmap) (value : Bool) : (cnt i : ℕ) → Res Bool
  | 0, _ => .ok false
  | cnt + 1, i => do
    let v ← bitmap_test b i
    if v = value then return true else contains_loop b value cnt (i + 1)

/-- `bitmap_contains`. -/
def bitmap_contains (b : Bitmap) (start cnt : ℕ) (value : Bool) : Res Bool := do
  ASSERT (start ≤ b.bit_cnt)
  ASSERT (start + cnt ≤ b.bit_cnt)
  contains_loop b value cnt start

/-- `bitmap_all`. -/
def bitmap_all (b : Bitmap) (start cnt : ℕ) : Res Bool := do
  let c ← bitmap_contains b start cnt false
  return !c

/-! ## Scanning -/

/-- The loop of `bitmap_scan`, over the `rounds` positions from `i`. -/
def scan_loop (b : Bitmap) (cnt : ℕ) (value : Bool) : (rounds i : ℕ) → Res (Option ℕ)
  | 0, _ => .ok none
  | rounds + 1, i => do
    let c ← bitmap_contains b i cnt (!value)
    if !c then return some i else scan_loop b cnt value rounds (i + 1)

/-- `bitmap_scan`, with none for `BITMAP_ERROR`. -/
def bitmap_scan (b : Bitmap) (start cnt : ℕ) (value : Bool) : Res (Option ℕ) := do
  ASSERT (start ≤ b.bit_cnt)
  if cnt ≤ b.bit_cnt then scan_loop b cnt value (b.bit_cnt - cnt + 1 - start) start
  else return none

/-- `bitmap_scan_and_flip`. -/
def bitmap_scan_and_flip (b : Bitmap) (start cnt : ℕ) (value : Bool) :
    Res (Option ℕ × Bitmap) := do
  let idx ← bitmap_scan b start cnt value
  match idx with
  | none => return (none, b)
  | some i => do
    let b ← bitmap_set_multiple b i cnt (!value)
    return (some i, b)

/-! ## The vector of booleans behind the elements -/

/-- Bit `i` of the elements, whether it is a bit of the map or not. -/
def Bitmap.bit (b : Bitmap) (i : ℕ) : Bool := (b.bits (elem_idx i)).getLsbD (i % 32)

/-- The vector of booleans. -/
def Bitmap.map (b : Bitmap) : Kernel.Bitmap where
  bit_cnt := b.bit_cnt
  bits := fun i => decide (i < b.bit_cnt) && b.bit i

@[simp] theorem Bitmap.map_bit_cnt (b : Bitmap) : b.map.bit_cnt = b.bit_cnt := rfl

theorem Bitmap.map_bits (b : Bitmap) {i : ℕ} (h : i < b.bit_cnt) : b.map.bits i = b.bit i := by
  simp [Bitmap.map, h]

@[simp] theorem byte_cnt_eq (bit_cnt : ℕ) : byte_cnt bit_cnt = 4 * elem_cnt bit_cnt := rfl

theorem elem_idx_lt {i n : ℕ} (h : i < n) : elem_idx i < elem_cnt n := by
  unfold elem_idx elem_cnt
  omega

theorem Bitmap.elem_eq {b : Bitmap} {idx : ℕ} (h : idx < elem_cnt b.bit_cnt) :
    b.elem idx = .ok (b.bits idx) := if_pos h

/-- The mask of a bit has that bit alone. -/
theorem getLsbD_bit_mask (i j : ℕ) : (bit_mask i).getLsbD j = decide (j = i % 32) := by
  have hi : i % 32 < 32 := Nat.mod_lt _ (by norm_num)
  unfold bit_mask
  rw [BitVec.getLsbD_shiftLeft]
  by_cases hji : j = i % 32
  · simp [hji, hi]
  · by_cases hlt : j < i % 32
    · simp [hlt, hji]
    · have hne : j - i % 32 ≠ 0 := by omega
      simp [hji, hne]

/-- Two bits of one element are the same bit only if their masks are. -/
theorem same_bit {i j : ℕ} (he : elem_idx j = elem_idx i) : j % 32 = i % 32 ↔ j = i := by
  unfold elem_idx at he
  omega

/-- Assigning to the element of bit `i` something that differs there only. -/
theorem set_elem_bit {b : Bitmap} {i : ℕ} {e : Elem} {value : Bool}
    (he : ∀ j < 32, e.getLsbD j =
      if j = i % 32 then value else (b.bits (elem_idx i)).getLsbD j) :
    (b.set_elem (elem_idx i) e).bit = Function.update b.bit i value := by
  funext j
  unfold Bitmap.bit Bitmap.set_elem
  dsimp only
  by_cases hidx : elem_idx j = elem_idx i
  · rw [hidx, Function.update_self, he (j % 32) (Nat.mod_lt _ (by norm_num))]
    by_cases hji : j = i
    · rw [hji, Function.update_self, if_pos rfl]
    · rw [Function.update_of_ne hji, if_neg (mt (same_bit hidx).mp hji), hidx]
  · have hji : j ≠ i := fun h => hidx (by rw [h])
    rw [Function.update_of_ne hidx, Function.update_of_ne hji]

/-- **`bitmap_mark`** sets one bit, in the map or behind it. -/
theorem bitmap_mark_spec {b : Bitmap} {i : ℕ} (h : elem_idx i < elem_cnt b.bit_cnt) :
    ∃ b', bitmap_mark b i = .ok b' ∧ b'.bit_cnt = b.bit_cnt ∧
      b'.bit = Function.update b.bit i true := by
  refine ⟨b.set_elem (elem_idx i) (b.bits (elem_idx i) ||| bit_mask i), ?_, rfl, ?_⟩
  · rw [bitmap_mark, b.elem_eq h, ok_bind, pure_eq_ok]
  · apply set_elem_bit
    intro j hj
    rw [BitVec.getLsbD_or, getLsbD_bit_mask i]
    by_cases hji : j = i % 32
    · simp [hji]
    · simp [hji]

/-- **`bitmap_reset`** clears one bit. -/
theorem bitmap_reset_spec {b : Bitmap} {i : ℕ} (h : elem_idx i < elem_cnt b.bit_cnt) :
    ∃ b', bitmap_reset b i = .ok b' ∧ b'.bit_cnt = b.bit_cnt ∧
      b'.bit = Function.update b.bit i false := by
  refine ⟨b.set_elem (elem_idx i) (b.bits (elem_idx i) &&& ~~~ bit_mask i), ?_, rfl, ?_⟩
  · rw [bitmap_reset, b.elem_eq h, ok_bind, pure_eq_ok]
  · apply set_elem_bit
    intro j hj
    rw [BitVec.getLsbD_and, BitVec.getLsbD_not, getLsbD_bit_mask i]
    by_cases hji : j = i % 32
    · simp [hji]
    · simp [hji, hj]

/-- **`bitmap_flip`** toggles one bit. -/
theorem bitmap_flip_spec {b : Bitmap} {i : ℕ} (h : elem_idx i < elem_cnt b.bit_cnt) :
    ∃ b', bitmap_flip b i = .ok b' ∧ b'.bit_cnt = b.bit_cnt ∧
      b'.bit = Function.update b.bit i (!b.bit i) := by
  refine ⟨b.set_elem (elem_idx i) (b.bits (elem_idx i) ^^^ bit_mask i), ?_, rfl, ?_⟩
  · rw [bitmap_flip, b.elem_eq h, ok_bind, pure_eq_ok]
  · apply set_elem_bit
    intro j hj
    rw [BitVec.getLsbD_xor, getLsbD_bit_mask i]
    by_cases hji : j = i % 32
    · simp [hji, Bitmap.bit]
    · simp [hji]

/-- **`bitmap_set`** of a bit of the map. -/
theorem bitmap_set_spec {b : Bitmap} {i : ℕ} (value : Bool) (h : i < b.bit_cnt) :
    ∃ b', bitmap_set b i value = .ok b' ∧ b'.bit_cnt = b.bit_cnt ∧
      b'.bit = Function.update b.bit i value := by
  unfold bitmap_set
  rw [ASSERT_pos h, ok_bind]
  cases value with
  | true =>
    rw [if_pos rfl]
    exact bitmap_mark_spec (elem_idx_lt h)
  | false =>
    rw [if_neg (by simp)]
    exact bitmap_reset_spec (elem_idx_lt h)

/-- **`bitmap_test`** reads a bit of the map. -/
theorem bitmap_test_eq {b : Bitmap} {i : ℕ} (h : i < b.bit_cnt) :
    bitmap_test b i = .ok (b.bit i) := by
  have hi : i % 32 < 32 := Nat.mod_lt _ (by norm_num)
  have hval : ((b.bits (elem_idx i) &&& bit_mask i) != 0#32) = b.bit i := by
    unfold Bitmap.bit
    cases hbit : (b.bits (elem_idx i)).getLsbD (i % 32) with
    | true =>
      rw [bne_iff_ne]
      intro hzero
      have hat := congrArg (fun e : Elem => e.getLsbD (i % 32)) hzero
      simp [hbit, getLsbD_bit_mask i] at hat
    | false =>
      rw [bne_eq_false_iff_eq]
      apply BitVec.eq_of_getLsbD_eq
      intro j hj
      rw [BitVec.getLsbD_and, getLsbD_bit_mask i]
      by_cases hji : j = i % 32
      · simp [hji, hbit]
      · simp [hji]
  rw [bitmap_test, ASSERT_pos h, ok_bind, b.elem_eq (elem_idx_lt h), ok_bind, pure_eq_ok, hval]

/-! ## Refinement -/

/-- The loop of `bitmap_set_multiple` sets the bits from `i` on. -/
theorem set_loop_spec (value : Bool) : ∀ (cnt i : ℕ) (b : Bitmap), i + cnt ≤ b.bit_cnt →
    ∃ b', set_loop value cnt i b = .ok b' ∧ b'.bit_cnt = b.bit_cnt ∧
      b'.bit = fun j => if i ≤ j ∧ j < i + cnt then value else b.bit j := by
  intro cnt
  induction cnt with
  | zero =>
    intro i b _
    refine ⟨b, rfl, rfl, ?_⟩
    funext j
    rw [if_neg (by omega)]
  | succ cnt ih =>
    intro i b hle
    obtain ⟨b₁, hset, hcnt₁, hbit₁⟩ := bitmap_set_spec (b := b) (i := i) value (by omega)
    obtain ⟨b₂, hrun, hcnt₂, hbit₂⟩ := ih (i + 1) b₁ (by omega)
    refine ⟨b₂, ?_, hcnt₂.trans hcnt₁, ?_⟩
    · rw [set_loop, hset, ok_bind, hrun]
    · rw [hbit₂, hbit₁]
      funext j
      by_cases hji : j = i
      · rw [if_neg (by omega), if_pos (by omega), hji, Function.update_self]
      · rw [Function.update_of_ne hji]
        by_cases hin : i + 1 ≤ j ∧ j < i + 1 + cnt
        · rw [if_pos hin, if_pos (by omega)]
        · rw [if_neg hin, if_neg (by omega)]

theorem bitmap_set_multiple_spec {b : Bitmap} {start cnt : ℕ} (value : Bool)
    (h : start + cnt ≤ b.bit_cnt) : ∃ b', bitmap_set_multiple b start cnt value = .ok b' ∧
      b'.bit_cnt = b.bit_cnt ∧
      b'.bit = fun j => if start ≤ j ∧ j < start + cnt then value else b.bit j := by
  have hstart : start ≤ b.bit_cnt := by omega
  rw [bitmap_set_multiple, ASSERT_pos hstart, ok_bind, ASSERT_pos h, ok_bind]
  exact set_loop_spec value cnt start b h

/-- What a call that returns has done. -/
theorem bitmap_set_multiple_ok {b b' : Bitmap} {start cnt : ℕ} {value : Bool}
    (h : bitmap_set_multiple b start cnt value = .ok b') : start + cnt ≤ b.bit_cnt ∧
      b'.bit_cnt = b.bit_cnt ∧
      b'.bit = fun j => if start ≤ j ∧ j < start + cnt then value else b.bit j := by
  obtain ⟨_, -, hrest⟩ := bind_eq_ok h
  obtain ⟨_, hassert, -⟩ := bind_eq_ok hrest
  have hle := ASSERT_eq_ok hassert
  obtain ⟨b₁, hrun, hcnt, hbit⟩ := bitmap_set_multiple_spec value hle
  obtain rfl : b' = b₁ := Except.ok.inj (h.symm.trans hrun)
  exact ⟨hle, hcnt, hbit⟩

/-- A map with bits overwritten, in the vector of booleans. -/
theorem map_of_bit {b b' : Bitmap} {start cnt : ℕ} {value : Bool} (hcnt : b'.bit_cnt = b.bit_cnt)
    (h : start + cnt ≤ b.bit_cnt)
    (hbit : b'.bit = fun j => if start ≤ j ∧ j < start + cnt then value else b.bit j) :
    b'.map = { b.map with
      bits := fun i => if start ≤ i ∧ i < start + cnt then value else b.map.bits i } := by
  unfold Bitmap.map
  rw [hcnt, hbit]
  simp only [Kernel.Bitmap.mk.injEq, true_and]
  funext i
  by_cases hin : start ≤ i ∧ i < start + cnt
  · have hlt : i < b.bit_cnt := by omega
    simp [hin, hlt]
  · simp [hin]

/-- **`bitmap_set_multiple`** is that of the vector of booleans. -/
theorem bitmap_set_multiple_map (b : Bitmap) (start cnt : ℕ) (value : Bool) :
    (bitmap_set_multiple b start cnt value).map Bitmap.map =
      Kernel.bitmap_set_multiple b.map start cnt value := by
  by_cases h : start + cnt ≤ b.bit_cnt
  · obtain ⟨b', hrun, hcnt, hbit⟩ := bitmap_set_multiple_spec value h
    rw [hrun, Kernel.bitmap_set_multiple_eq value (b := b.map) h, ← map_of_bit hcnt h hbit]
    rfl
  · have hright : Kernel.bitmap_set_multiple b.map start cnt value = .error .assertion := by
      rw [Kernel.bitmap_set_multiple, ASSERT, if_neg (show ¬ start + cnt ≤ b.map.bit_cnt from h)]
      rfl
    rw [hright, bitmap_set_multiple]
    by_cases hstart : start ≤ b.bit_cnt
    · rw [ASSERT_pos hstart, ok_bind, ASSERT, if_neg h]
      rfl
    · rw [ASSERT, if_neg hstart]
      rfl

/-- The loop of `bitmap_contains`. -/
theorem contains_loop_eq (b : Bitmap) (value : Bool) : ∀ cnt i : ℕ, i + cnt ≤ b.bit_cnt →
    contains_loop b value cnt i = .ok (Kernel.bitmap_contains b.map i cnt value) := by
  intro cnt
  induction cnt with
  | zero => exact fun _ _ => rfl
  | succ cnt ih =>
    intro i hle
    have hfirst : Kernel.bitmap_contains b.map i (cnt + 1) value =
        ((b.bit i == value) || Kernel.bitmap_contains b.map (i + 1) cnt value) := by
      unfold Kernel.bitmap_contains
      rw [List.range_succ_eq_map, List.any_cons, List.any_map, Nat.add_zero,
        b.map_bits (by omega)]
      congr 2
      funext k
      rw [Function.comp_apply, show i + Nat.succ k = i + 1 + k by omega]
    rw [contains_loop, bitmap_test_eq (by omega), ok_bind, hfirst]
    by_cases hv : b.bit i = value
    · rw [if_pos hv, beq_iff_eq.mpr hv]
      rfl
    · rw [if_neg hv, ih (i + 1) (by omega), beq_eq_false_iff_ne.mpr hv, Bool.false_or]

/-- **`bitmap_contains`** is that of the vector of booleans. -/
theorem bitmap_contains_eq {b : Bitmap} {start cnt : ℕ} (value : Bool)
    (h : start + cnt ≤ b.bit_cnt) : bitmap_contains b start cnt value =
      .ok (Kernel.bitmap_contains b.map start cnt value) := by
  have hstart : start ≤ b.bit_cnt := by omega
  rw [bitmap_contains, ASSERT_pos hstart, ok_bind, ASSERT_pos h, ok_bind,
    contains_loop_eq b value cnt start h]

/-- **`bitmap_all`** is that of the vector of booleans. -/
theorem bitmap_all_eq {b : Bitmap} {start cnt : ℕ} (h : start + cnt ≤ b.bit_cnt) :
    bitmap_all b start cnt = .ok (Kernel.bitmap_all b.map start cnt) := by
  rw [bitmap_all, bitmap_contains_eq false h, ok_bind]
  rfl

/-- A run of set bits. -/
theorem bitmap_all_true {b : Bitmap} {start cnt : ℕ} (h : start + cnt ≤ b.bit_cnt)
    (hset : ∀ k < cnt, b.bit (start + k) = true) : bitmap_all b start cnt = .ok true := by
  rw [bitmap_all_eq h]
  congr 1
  unfold Kernel.bitmap_all Kernel.bitmap_contains
  rw [Bool.not_eq_true', List.any_eq_false]
  intro k hk
  rw [List.mem_range] at hk
  rw [b.map_bits (by omega), hset k hk]
  simp

/-- The loop of `bitmap_scan`. -/
theorem scan_loop_eq (b : Bitmap) (cnt : ℕ) (value : Bool) : ∀ rounds i : ℕ,
    (0 < rounds → i + rounds + cnt ≤ b.bit_cnt + 1) → scan_loop b cnt value rounds i =
      .ok ((List.range' i rounds).find? fun i => !Kernel.bitmap_contains b.map i cnt (!value)) := by
  intro rounds
  induction rounds with
  | zero => exact fun _ _ => rfl
  | succ rounds ih =>
    intro i hle
    have hle' := hle (Nat.succ_pos _)
    rw [scan_loop, bitmap_contains_eq (!value) (by omega), ok_bind, List.range'_succ]
    cases hc : (!Kernel.bitmap_contains b.map i cnt (!value)) with
    | true =>
      rw [if_pos rfl, List.find?_cons, hc]
      rfl
    | false =>
      rw [if_neg (by simp), List.find?_cons, hc, ih (i + 1) (fun _ => by omega)]

/-- **`bitmap_scan`** is that of the vector of booleans. -/
theorem bitmap_scan_eq {b : Bitmap} {start : ℕ} (cnt : ℕ) (value : Bool)
    (h : start ≤ b.bit_cnt) :
    bitmap_scan b start cnt value = .ok (Kernel.bitmap_scan b.map start cnt value) := by
  rw [bitmap_scan, ASSERT_pos h, ok_bind, Kernel.bitmap_scan]
  by_cases hcnt : cnt ≤ b.bit_cnt
  · rw [if_pos hcnt, if_pos (show cnt ≤ b.map.bit_cnt from hcnt)]
    exact scan_loop_eq b cnt value _ _ (fun hpos => by omega)
  · rw [if_neg hcnt, if_neg (show ¬ cnt ≤ b.map.bit_cnt from hcnt)]
    rfl

/-- **`bitmap_scan_and_flip`** is that of the vector of booleans. -/
theorem bitmap_scan_and_flip_map {b : Bitmap} {start : ℕ} (cnt : ℕ) (value : Bool)
    (h : start ≤ b.bit_cnt) :
    (bitmap_scan_and_flip b start cnt value).map (fun r => (r.1, r.2.map)) =
      Kernel.bitmap_scan_and_flip b.map start cnt value := by
  rw [bitmap_scan_and_flip, bitmap_scan_eq cnt value h, ok_bind, Kernel.bitmap_scan_and_flip]
  cases hscan : Kernel.bitmap_scan b.map start cnt value with
  | none => rfl
  | some i =>
    have hle := (bitmap_scan_some hscan).2.1
    obtain ⟨b', hrun, hcnt, hbit⟩ := bitmap_set_multiple_spec (!value) (show i + cnt ≤ b.bit_cnt
      from hle)
    dsimp only
    rw [hrun, ok_bind, Kernel.bitmap_set_multiple_eq (!value) hle, ok_bind,
      ← map_of_bit hcnt hle hbit]
    rfl

/-- **`bitmap_scan_and_flip`**, on the elements: it flips a run with the value, or no run has
it. -/
theorem bitmap_scan_and_flip_cases {b : Bitmap} {start : ℕ} (cnt : ℕ) (value : Bool)
    (h : start ≤ b.bit_cnt) :
    (∃ i b', bitmap_scan_and_flip b start cnt value = .ok (some i, b') ∧ start ≤ i ∧
      i + cnt ≤ b.bit_cnt ∧ (∀ k < cnt, b.bit (i + k) = value) ∧ b'.bit_cnt = b.bit_cnt ∧
      b'.bit = fun j => if i ≤ j ∧ j < i + cnt then !value else b.bit j) ∨
    (bitmap_scan_and_flip b start cnt value = .ok (none, b) ∧
      ∀ i, start ≤ i → i + cnt ≤ b.bit_cnt → ∃ k < cnt, b.bit (i + k) ≠ value) := by
  unfold bitmap_scan_and_flip
  rw [bitmap_scan_eq cnt value h, ok_bind]
  cases hscan : Kernel.bitmap_scan b.map start cnt value with
  | none =>
    right
    refine ⟨rfl, ?_⟩
    intro i hi hle
    obtain ⟨k, hk, hval⟩ := bitmap_scan_none hscan hi hle
    exact ⟨k, hk, by rwa [b.map_bits (by omega)] at hval⟩
  | some i =>
    left
    obtain ⟨hi, hle, hval⟩ := bitmap_scan_some hscan
    rw [Bitmap.map_bit_cnt] at hle
    obtain ⟨b', hset, hcnt, hbit⟩ := bitmap_set_multiple_spec (!value) hle
    refine ⟨i, b', ?_, hi, hle, ?_, hcnt, hbit⟩
    · dsimp only
      rw [hset, ok_bind, pure_eq_ok]
    · intro k hk
      rw [← b.map_bits (by omega)]
      exact hval k hk

/-- The size of a map does not change. -/
theorem bitmap_scan_and_flip_bit_cnt {b : Bitmap} {start cnt : ℕ} {value : Bool}
    {r : Option ℕ × Bitmap} (h : bitmap_scan_and_flip b start cnt value = .ok r) :
    r.2.bit_cnt = b.bit_cnt := by
  obtain ⟨idx, -, hrest⟩ := bind_eq_ok h
  cases idx with
  | none =>
    obtain rfl := Except.ok.inj hrest
    rfl
  | some i =>
    obtain ⟨b', hset, hret⟩ := bind_eq_ok hrest
    obtain rfl := Except.ok.inj hret
    exact (bitmap_set_multiple_ok hset).2.1

/-- A new bitmap has all bits of the map clear. -/
theorem bitmap_create_spec (bit_cnt : ℕ) (memory : ℕ → Elem) :
    ∃ b, bitmap_create bit_cnt memory = .ok b ∧ b.bit_cnt = bit_cnt ∧
      ∀ i < bit_cnt, b.bit i = false := by
  have hall : 0 + bit_cnt ≤ (⟨bit_cnt, memory⟩ : Bitmap).bit_cnt := (Nat.zero_add _).le
  obtain ⟨b, hrun, hcnt, hbit⟩ := bitmap_set_multiple_spec false hall
  refine ⟨b, hrun, hcnt, ?_⟩
  intro i hi
  rw [hbit]
  exact if_pos ⟨Nat.zero_le i, by omega⟩

end Pintos.Kernel.Words
