/-
The bitmap as a vector of booleans, under any sequence of its operations.

The vector is a function on the `bit_cnt` positions and is written in its own terms: a range is
overwritten, the first run of a value is the least position from which so many bits have it. Each
operation on the elements does to the vector behind them what its comment says, and each query
reads it off.
-/
import Pintos.Kernel.WordBitmap

set_option autoImplicit false

namespace Pintos.Kernel.Words

/-! ## The code -/

/-- The loop of `bitmap_count`. -/
def count_loop (b : Bitmap) (value : Bool) : (cnt i value_cnt : ℕ) → Res ℕ
  | 0, _, value_cnt => .ok value_cnt
  | cnt + 1, i, value_cnt => do
    let v ← bitmap_test b i
    count_loop b value cnt (i + 1) (if v = value then value_cnt + 1 else value_cnt)

/-- `bitmap_count`. -/
def bitmap_count (b : Bitmap) (start cnt : ℕ) (value : Bool) : Res ℕ := do
  ASSERT (start ≤ b.bit_cnt)
  ASSERT (start + cnt ≤ b.bit_cnt)
  count_loop b value cnt start 0

/-- The operations that change a bitmap. -/
inductive Op
  | set (idx : ℕ) (value : Bool)
  | flip (bit_idx : ℕ)
  | set_multiple (start cnt : ℕ) (value : Bool)
  | scan_and_flip (start cnt : ℕ) (value : Bool)

/-- An operation, with what it returns. -/
def exec (b : Bitmap) : Op → Res (List (Option ℕ) × Bitmap)
  | .set idx value => do
    let b ← bitmap_set b idx value
    return ([], b)
  | .flip bit_idx => do
    let b ← bitmap_flip b bit_idx
    return ([], b)
  | .set_multiple start cnt value => do
    let b ← bitmap_set_multiple b start cnt value
    return ([], b)
  | .scan_and_flip start cnt value => do
    let r ← bitmap_scan_and_flip b start cnt value
    return ([r.1], r.2)

/-- A sequence of operations, with what they return. -/
def run : Bitmap → List Op → Res (List (Option ℕ) × Bitmap)
  | b, [] => .ok ([], b)
  | b, o :: ops => do
    let r ← exec b o
    let rs ← run r.2 ops
    return (r.1 ++ rs.1, rs.2)

/-- The arguments are in the range of a bitmap of `n` bits. -/
def Op.InRange (n : ℕ) : Op → Prop
  | .set idx _ => idx < n
  | .flip bit_idx => bit_idx < n
  | .set_multiple start cnt _ => start + cnt ≤ n
  | .scan_and_flip start _ _ => start ≤ n

/-! ## Vectors of booleans -/

section Vectors

variable {n : ℕ}

/-- A range overwritten. -/
def write (v : Fin n → Bool) (start cnt : ℕ) (value : Bool) : Fin n → Bool :=
  fun i => if start ≤ i.val ∧ i.val < start + cnt then value else v i

/-- From `i` on, `cnt` bits of the vector have the value. -/
def IsRun (v : Fin n → Bool) (cnt : ℕ) (value : Bool) (i : ℕ) : Prop :=
  i + cnt ≤ n ∧ ∀ j : Fin n, i ≤ j.val → j.val < i + cnt → v j = value

instance (v : Fin n → Bool) (cnt : ℕ) (value : Bool) (i : ℕ) : Decidable (IsRun v cnt value i) :=
  inferInstanceAs (Decidable (_ ∧ _))

/-- The positions from `start` on where `cnt` bits have the value. -/
def runs (v : Fin n → Bool) (start cnt : ℕ) (value : Bool) : Set ℕ :=
  { i | start ≤ i ∧ IsRun v cnt value i }

/-- The first of them. -/
def first_run (v : Fin n → Bool) (start cnt : ℕ) (value : Bool) : Option ℕ :=
  (List.range (n + 1)).find? (fun i => decide (start ≤ i ∧ IsRun v cnt value i))

/-- What an operation does to the vector. -/
def effect (v : Fin n → Bool) : Op → (Fin n → Bool)
  | .set idx value => fun i => if i.val = idx then value else v i
  | .flip bit_idx => fun i => if i.val = bit_idx then !v i else v i
  | .set_multiple start cnt value => write v start cnt value
  | .scan_and_flip start cnt value =>
    (first_run v start cnt value).elim v (fun i => write v i cnt (!value))

/-- What an operation returns, by the vector. -/
def answer (v : Fin n → Bool) : Op → List (Option ℕ)
  | .scan_and_flip start cnt value => [first_run v start cnt value]
  | _ => []

/-- What a sequence of operations returns, by the vector. -/
def answers : (Fin n → Bool) → List Op → List (Option ℕ)
  | _, [] => []
  | v, o :: ops => answer v o ++ answers (effect v o) ops

variable {v : Fin n → Bool} {start cnt i : ℕ} {value : Bool}

/-- **The first run is the least position.** -/
theorem first_run_some :
    first_run v start cnt value = some i ↔ IsLeast (runs v start cnt value) i := by
  rw [first_run, List.find?_range_eq_some, decide_eq_true_eq, List.mem_range]
  constructor
  · rintro ⟨hi, -, hleast⟩
    refine ⟨hi, fun j hj => ?_⟩
    by_contra hlt
    have hno := hleast j (not_le.mp hlt)
    rw [Bool.not_eq_true', decide_eq_false_iff_not] at hno
    exact hno hj
  · rintro ⟨hi, hleast⟩
    have hin : i + cnt ≤ n := hi.2.1
    refine ⟨hi, by omega, fun j hj => ?_⟩
    rw [Bool.not_eq_true', decide_eq_false_iff_not]
    exact fun hrun => absurd (hleast hrun) (not_le.mpr hj)

theorem first_run_none :
    first_run v start cnt value = none ↔ runs v start cnt value = ∅ := by
  rw [first_run, List.find?_eq_none, Set.eq_empty_iff_forall_notMem]
  constructor
  · rintro h i ⟨hi, hrun⟩
    have hin : i + cnt ≤ n := hrun.1
    exact h i (List.mem_range.mpr (by omega)) (decide_eq_true ⟨hi, hrun⟩)
  · intro h i _ hi
    have hrun := of_decide_eq_true hi
    exact h i hrun

end Vectors

/-! ## Queries -/

variable {n : ℕ} {b b' : Bitmap} {v : Fin n → Bool} {start cnt i : ℕ} {value : Bool}

/-- The bitmap holds the vector. -/
structure Holds (b : Bitmap) (v : Fin n → Bool) : Prop where
  bit_cnt : b.bit_cnt = n
  bit : ∀ i : Fin n, b.bit i.val = v i

/-- The vector that a bitmap holds. -/
def vector (b : Bitmap) : Fin b.bit_cnt → Bool := fun i => b.bit i.val

theorem holds_vector (b : Bitmap) : Holds b (vector b) := ⟨rfl, fun _ => rfl⟩

/-- The bits of a range, one by one. The induction is on the length of the range. -/
theorem count_loop_eq (b : Bitmap) (value : Bool) : ∀ cnt i value_cnt : ℕ, i + cnt ≤ b.bit_cnt →
    count_loop b value cnt i value_cnt =
      .ok (value_cnt + ((List.range' i cnt).filter (fun j => b.bit j == value)).length) := by
  intro cnt
  induction cnt with
  | zero => exact fun _ _ _ => rfl
  | succ cnt ih =>
    intro i value_cnt hle
    rw [count_loop, bitmap_test_eq (by omega), ok_bind, ih _ _ (by omega), List.range'_succ]
    by_cases hv : b.bit i = value
    · rw [if_pos hv, List.filter_cons_of_pos (by simpa using hv), List.length_cons]
      congr 1
      omega
    · rw [if_neg hv, List.filter_cons_of_neg (by simpa using hv)]

/-- The positions of a vector in a range, as a list. -/
theorem card_range (v : Fin n → Bool) (value : Bool) (h : start + cnt ≤ n)
    (bit : ℕ → Bool) (hbit : ∀ i : Fin n, bit i.val = v i) :
    ((List.range' start cnt).filter (fun j => bit j == value)).length =
      (Finset.univ.filter
        (fun i : Fin n => start ≤ i.val ∧ i.val < start + cnt ∧ v i = value)).card := by
  have hnd : ((List.range' start cnt).filter (fun j => bit j == value)).Nodup :=
    (List.nodup_range' ..).filter _
  rw [← List.toFinset_card_of_nodup hnd, ← Finset.card_map Fin.valEmbedding]
  congr 1
  ext j
  simp only [List.mem_toFinset, List.mem_filter, List.mem_range'_1, beq_iff_eq, Finset.mem_map,
    Finset.mem_filter, Finset.mem_univ, true_and, Fin.valEmbedding_apply]
  constructor
  · rintro ⟨⟨hstart, hend⟩, hval⟩
    have hj : j < n := by omega
    exact ⟨⟨j, hj⟩, ⟨hstart, hend, (hbit ⟨j, hj⟩).symm.trans hval⟩, rfl⟩
  · rintro ⟨i, ⟨hstart, hend, hval⟩, rfl⟩
    exact ⟨⟨hstart, hend⟩, (hbit i).trans hval⟩

/-- The scan of the code finds the first run. -/
theorem scan_eq_first_run (h : Holds b v) (start cnt : ℕ) (value : Bool) :
    Kernel.bitmap_scan b.map start cnt value = first_run v start cnt value := by
  have hbits : ∀ i : Fin n, b.map.bits i.val = v i := fun i =>
    (b.map_bits (h.bit_cnt ▸ i.isLt)).trans (h.bit i)
  have hcnt : b.map.bit_cnt = n := h.bit_cnt
  have hcontains : ∀ i, i + cnt ≤ n →
      ((!Kernel.bitmap_contains b.map i cnt (!value)) = true ↔ IsRun v cnt value i) := by
    intro i hi
    rw [Bool.not_eq_true', Kernel.bitmap_contains, List.any_eq_false]
    constructor
    · intro hall
      refine ⟨hi, fun j hij hj => ?_⟩
      have hj' := hall (j.val - i) (List.mem_range.mpr (by omega))
      rw [Nat.add_sub_cancel' hij, hbits] at hj'
      cases hv : v j <;> cases value <;> simp_all
    · rintro ⟨-, hrun⟩ k hk
      rw [List.mem_range] at hk
      have hlt : i + k < n := by omega
      rw [hbits ⟨i + k, hlt⟩, hrun ⟨i + k, hlt⟩ (Nat.le_add_right ..) (by simpa using hk)]
      cases value <;> simp
  rw [Kernel.bitmap_scan, hcnt]
  cases hfirst : first_run v start cnt value with
  | some i =>
    obtain ⟨⟨hstart, hrun⟩, hleast⟩ := first_run_some.mp hfirst
    have hin : i + cnt ≤ n := hrun.1
    rw [if_pos (by omega), List.find?_range'_eq_some]
    refine ⟨(hcontains i hin).mpr hrun, List.mem_range'_1.mpr (by omega), fun j hj hji => ?_⟩
    rw [Bool.not_eq_true']
    by_contra hne
    have hrun' := (hcontains j (by omega)).mp (by simpa using hne)
    exact absurd (hleast ⟨hj, hrun'⟩) (not_le.mpr hji)
  | none =>
    have hempty := first_run_none.mp hfirst
    by_cases hle : cnt ≤ n
    · rw [if_pos hle, List.find?_eq_none]
      intro i hi hrun
      obtain ⟨hstart, hend⟩ := List.mem_range'_1.mp hi
      have hmem : i ∈ runs v start cnt value := ⟨hstart, (hcontains i (by omega)).mp hrun⟩
      rw [hempty] at hmem
      exact hmem
    · rw [if_neg hle]

/-- The queries read the vector off. `BITMAP_ERROR` bits would be one too many for the last clause,
since the empty run behind them all starts at that number. -/
structure Agrees (b : Bitmap) (v : Fin n → Bool) : Prop where
  test : ∀ i : Fin n, bitmap_test b i.val = .ok (v i)
  count : ∀ start cnt value, start + cnt ≤ n → bitmap_count b start cnt value =
    .ok (Finset.univ.filter
      (fun i : Fin n => start ≤ i.val ∧ i.val < start + cnt ∧ v i = value)).card
  contains : ∀ start cnt value, start + cnt ≤ n → bitmap_contains b start cnt value =
    .ok (decide (∃ i : Fin n, start ≤ i.val ∧ i.val < start + cnt ∧ v i = value))
  scan : ∀ start cnt value, start ≤ n → ∃ r, bitmap_scan b start cnt value = .ok r ∧
    (∀ i, r = some i ↔ IsLeast (runs v start cnt value) i) ∧
    (r = none ↔ runs v start cnt value = ∅) ∧
    (n < BITMAP_ERROR → (r.getD BITMAP_ERROR = BITMAP_ERROR ↔ runs v start cnt value = ∅))

/-- **The queries.** -/
theorem Holds.agrees (h : Holds b v) : Agrees b v where
  test i := by rw [bitmap_test_eq (h.bit_cnt ▸ i.isLt), h.bit]
  count start cnt value hle := by
    have hle' : start + cnt ≤ b.bit_cnt := h.bit_cnt ▸ hle
    have hstart : start ≤ b.bit_cnt := by omega
    rw [bitmap_count, ASSERT_pos hstart, ok_bind, ASSERT_pos hle', ok_bind,
      count_loop_eq b value cnt start 0 hle', Nat.zero_add, card_range v value hle b.bit h.bit]
  contains start cnt value hle := by
    rw [bitmap_contains_eq value (h.bit_cnt ▸ hle)]
    congr 1
    rw [Bool.eq_iff_iff, decide_eq_true_eq, Kernel.bitmap_contains, List.any_eq_true]
    have hbits : ∀ i : Fin n, b.map.bits i.val = v i := fun i =>
      (b.map_bits (h.bit_cnt ▸ i.isLt)).trans (h.bit i)
    constructor
    · rintro ⟨k, hk, hval⟩
      rw [List.mem_range] at hk
      have hlt : start + k < n := by omega
      refine ⟨⟨start + k, hlt⟩, Nat.le_add_right .., by simpa using hk, ?_⟩
      rw [← hbits]
      exact beq_iff_eq.mp hval
    · rintro ⟨i, hstart, hend, hval⟩
      refine ⟨i.val - start, List.mem_range.mpr (by omega), ?_⟩
      rw [Nat.add_sub_cancel' hstart, hbits, hval, beq_self_eq_true]
  scan start cnt value hstart := by
    refine ⟨first_run v start cnt value, ?_, fun _ => first_run_some, first_run_none,
      fun hn => ?_⟩
    · rw [bitmap_scan_eq cnt value (h.bit_cnt ▸ hstart), scan_eq_first_run h]
    · rw [← first_run_none]
      cases hfirst : first_run v start cnt value with
      | none => exact iff_of_true rfl rfl
      | some i =>
        have hin : i + cnt ≤ n := (first_run_some.mp hfirst).1.2.1
        refine iff_of_false (fun heq => ?_) (by simp)
        rw [Option.getD_some] at heq
        omega

/-! ## Every sequence of operations -/

/-- **An operation** does to the vector what it should. -/
theorem Holds.exec (h : Holds b v) {o : Op} (ho : o.InRange n) :
    ∃ b', Words.exec b o = .ok (answer v o, b') ∧ Holds b' (effect v o) := by
  obtain rfl := h.bit_cnt
  cases o with
  | set idx value =>
    obtain ⟨b', hrun, hcnt, hbit⟩ := bitmap_set_spec (b := b) value ho
    refine ⟨b', by rw [Words.exec, hrun]; rfl, hcnt, fun i => ?_⟩
    rw [hbit, effect]
    dsimp only
    by_cases hi : i.val = idx
    · rw [if_pos hi, hi, Function.update_self]
    · rw [if_neg hi, Function.update_of_ne hi, h.bit]
  | flip idx =>
    obtain ⟨b', hrun, hcnt, hbit⟩ := bitmap_flip_spec (b := b) (elem_idx_lt ho)
    refine ⟨b', by rw [Words.exec, hrun]; rfl, hcnt, fun i => ?_⟩
    rw [hbit, effect]
    dsimp only
    by_cases hi : i.val = idx
    · rw [if_pos hi, ← hi, Function.update_self, h.bit]
    · rw [if_neg hi, Function.update_of_ne hi, h.bit]
  | set_multiple start cnt value =>
    obtain ⟨b', hrun, hcnt, hbit⟩ := bitmap_set_multiple_spec value ho
    refine ⟨b', by rw [Words.exec, hrun]; rfl, hcnt, fun i => ?_⟩
    rw [hbit, effect, write]
    simp only [h.bit]
  | scan_and_flip start cnt value =>
    have hscan := bitmap_scan_eq cnt value (b := b) ho
    rw [scan_eq_first_run h] at hscan
    rw [Words.exec, bitmap_scan_and_flip, hscan, ok_bind, effect, answer]
    cases hfirst : first_run v start cnt value with
    | none => exact ⟨b, rfl, h⟩
    | some i =>
      have hin : i + cnt ≤ b.bit_cnt := (first_run_some.mp hfirst).1.2.1
      obtain ⟨b', hrun, hcnt, hbit⟩ := bitmap_set_multiple_spec (!value) hin
      refine ⟨b', by dsimp only; rw [hrun]; rfl, hcnt, fun j => ?_⟩
      rw [hbit, Option.elim_some, write]
      simp only [h.bit]

/-- A sequence of operations. The induction is on the operations. -/
theorem Holds.run (h : Holds b v) {ops : List Op} (hops : ∀ o ∈ ops, o.InRange n) :
    ∃ b', Words.run b ops = .ok (answers v ops, b') ∧ Holds b' (ops.foldl effect v) := by
  induction ops generalizing b v with
  | nil => exact ⟨b, rfl, h⟩
  | cons o ops ih =>
    obtain ⟨b₁, hexec, h₁⟩ := h.exec (hops o List.mem_cons_self)
    obtain ⟨b', hrun, h'⟩ := ih h₁ (fun o' ho' => hops o' (List.mem_cons_of_mem o ho'))
    exact ⟨b', by rw [Words.run, hexec, ok_bind, hrun]; rfl, h'⟩

/-- **Bitmaps refine vectors of booleans.** Any sequence of operations with arguments in range
returns on any bitmap what it returns on its vector, and leaves a bitmap that agrees with the
vector after it. -/
theorem bitmap_refines_vector (b : Bitmap) (ops : List Op) (hops : ∀ o ∈ ops, o.InRange b.bit_cnt) :
    ∃ b', run b ops = .ok (answers (vector b) ops, b') ∧ b'.bit_cnt = b.bit_cnt ∧
      Agrees b' (ops.foldl effect (vector b)) := by
  obtain ⟨b', hrun, hholds⟩ := (holds_vector b).run hops
  exact ⟨b', hrun, hholds.bit_cnt, hholds.agrees⟩

/-- Three bits in an element whose other bits are set too. -/
theorem bitmap_refines_vector_three :
    ∃ b', run ⟨3, fun _ => 0xFFFFFFFD#32⟩ [.set 0 false, .flip 2, .scan_and_flip 1 2 false]
      = .ok ([some 1], b') ∧ b'.bit_cnt = 3 := by
  obtain ⟨b', hrun, hcnt, -⟩ := bitmap_refines_vector ⟨3, fun _ => 0xFFFFFFFD#32⟩
    [.set 0 false, .flip 2, .scan_and_flip 1 2 false] (by unfold Op.InRange; simp)
  exact ⟨b', hrun, hcnt⟩

end Pintos.Kernel.Words
