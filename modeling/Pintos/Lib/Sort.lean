/-
`sort` and `binary_search` of `lib/stdlib.c`: heap sort over an array of bytes, and bisection.

Elements are counted from 1 while sorting, and every index and offset is a 32-bit `size_t` that
wraps. The array is an object of `cnt * size` bytes and the memory a function of the offset in it:
an access outside ends the run with `Fault.bounds`, so a call that returns touched nothing else.
`aux` is part of the comparison. The asserted pointers are not null here.

`2 * i` wraps at the half of the address space. No array of larger elements reaches that far.
-/
import Pintos.Base
import Pintos.Library.HeapOrder

set_option autoImplicit false

namespace Pintos.Lib

open HeapOrder

/-! ## The code -/

/-- Conversion to `size_t`. -/
def size_t (x : ℕ) : ℕ := x % 2 ^ 32

/-- What memory holds at each offset from the array's start. -/
abbrev Bytes := ℕ → UInt8

/-- The bytes of an element. -/
abbrev Elem (size : ℕ) := Fin size → UInt8

/-- A byte read from the `n` bytes of the array. -/
def load (n : ℕ) (mem : Bytes) (off : ℕ) : Res UInt8 :=
  if off < n then .ok (mem off) else .error .bounds

/-- A byte written to the `n` bytes of the array. -/
def store (n : ℕ) (mem : Bytes) (off : ℕ) (b : UInt8) : Res Bytes :=
  if off < n then .ok (Function.update mem off b) else .error .bounds

/-- `array + (idx - 1) * size`, as an offset. -/
def elem_at (idx size : ℕ) : ℕ := size_t (size_t (idx + 2 ^ 32 - 1) * size)

/-- One turn of the loop of `do_swap`. -/
def swap_byte (n a b : ℕ) (mem : Bytes) (i : ℕ) : Res Bytes := do
  let t ← load n mem (size_t (a + i))
  let u ← load n mem (size_t (b + i))
  let mem ← store n mem (size_t (a + i)) u
  store n mem (size_t (b + i)) t

/-- `do_swap`. -/
def do_swap (n : ℕ) (mem : Bytes) (a_idx b_idx size : ℕ) : Res Bytes :=
  (List.range size).foldlM (swap_byte n (elem_at a_idx size) (elem_at b_idx size)) mem

/-- What a comparison gets to see of the element at an offset. -/
def read_elem (n : ℕ) (mem : Bytes) (size off : ℕ) : Res (Elem size) :=
  if off + size ≤ n then .ok (fun j => mem (off + j)) else .error .bounds

/-- `do_compare`. -/
def do_compare (n : ℕ) (mem : Bytes) (a_idx b_idx size : ℕ)
    (compare : Elem size → Elem size → ℤ) : Res ℤ := do
  let a ← read_elem n mem size (elem_at a_idx size)
  let b ← read_elem n mem size (elem_at b_idx size)
  return compare a b

/-- `if (child <= cnt && do_compare (array, child, max, …) > 0) max = child;`. -/
def pick_max (n : ℕ) (mem : Bytes) (cnt size : ℕ) (compare : Elem size → Elem size → ℤ)
    (child max : ℕ) : Res ℕ :=
  if child ≤ cnt then do
    let c ← do_compare n mem child max size compare
    return if 0 < c then child else max
  else return max

/-- `heapify`. -/
def heapify (n cnt size : ℕ) (compare : Elem size → Elem size → ℤ) :
    ℕ → Bytes → ℕ → Res Bytes
  | 0, _, _ => .error .diverge
  | fuel + 1, mem, i => do
    let left := size_t (2 * i)
    let right := size_t (2 * i + 1)
    let max ← pick_max n mem cnt size compare left i
    let max ← pick_max n mem cnt size compare right max
    if max = i then return mem
    else do
      let mem ← do_swap n mem i max size
      heapify n cnt size compare fuel mem max

/-- The first loop of `sort`: `for (i = cnt / 2; i > 0; i--)`. -/
def build_loop (fuel n cnt size : ℕ) (compare : Elem size → Elem size → ℤ) :
    ℕ → Bytes → Res Bytes
  | 0, mem => .ok mem
  | i + 1, mem => do
    let mem ← heapify n cnt size compare fuel mem (i + 1)
    build_loop fuel n cnt size compare i mem

/-- The second loop of `sort`: `for (i = cnt; i > 1; i--)`. -/
def extract_loop (fuel n size : ℕ) (compare : Elem size → Elem size → ℤ) :
    ℕ → Bytes → Res Bytes
  | 0, mem => .ok mem
  | 1, mem => .ok mem
  | i + 2, mem => do
    let mem ← do_swap n mem 1 (i + 2) size
    let mem ← heapify n (i + 1) size compare fuel mem 1
    extract_loop fuel n size compare (i + 1) mem

/-- `sort`. -/
def sort (fuel : ℕ) (mem : Bytes) (cnt size : ℕ) (compare : Elem size → Elem size → ℤ) :
    Res Bytes := do
  ASSERT (0 < size)
  let mem ← build_loop fuel (cnt * size) cnt size compare (cnt / 2) mem
  extract_loop fuel (cnt * size) size compare cnt mem

/-- The loop of `binary_search`, with `compare (key, ·)`. -/
def search_loop (n size : ℕ) (mem : Bytes) (compare : Elem size → ℤ) :
    ℕ → ℕ → ℕ → Res (Option ℕ)
  | 0, _, _ => .error .diverge
  | fuel + 1, first, last =>
    if first < last then do
      let range := (last - first) / size
      let middle := size_t (first + size_t (range / 2 * size))
      let e ← read_elem n mem size middle
      let cmp := compare e
      if cmp < 0 then search_loop n size mem compare fuel first middle
      else if 0 < cmp then search_loop n size mem compare fuel (size_t (middle + size)) last
      else return some middle
    else return none

/-- `binary_search`, which returns the offset of the element it found. -/
def binary_search (fuel : ℕ) (mem : Bytes) (cnt size : ℕ) (compare : Elem size → ℤ) :
    Res (Option ℕ) :=
  search_loop (cnt * size) size mem compare fuel 0 (size_t (size * cnt))

/-! ## What is promised -/

variable {size : ℕ}

/-- `compare` is a `strcmp`-type comparison of a total preorder. -/
structure TotalPreorder (compare : Elem size → Elem size → ℤ) : Prop where
  sign : ∀ a b, 0 < compare a b ↔ compare b a < 0
  trans : ∀ a b c, compare a b ≤ 0 → compare b c ≤ 0 → compare a c ≤ 0

/-- The key is compared consistently with the order of the elements. -/
def Consistent (compare : Elem size → Elem size → ℤ) (key : Elem size → ℤ) : Prop :=
  ∀ a b, compare a b ≤ 0 → (key a < 0 → key b < 0) ∧ (0 < key b → 0 < key a)

/-- The element with the 1-based index `k`. -/
def elem (mem : Bytes) (size k : ℕ) : Elem size :=
  fun j => if k = 0 then 0 else mem ((k - 1) * size + j)

/-- The elements of the array. -/
def elems (mem : Bytes) (cnt size : ℕ) : List (Elem size) :=
  (List.range cnt).map (fun k => elem mem size (k + 1))

/-- A search found an element that matches, or there is none. -/
def Found (mem : Bytes) (cnt size : ℕ) (key : Elem size → ℤ) (r : Option ℕ) : Prop :=
  (∀ off, r = some off → ∃ k < cnt, off = k * size ∧ key (elem mem size (k + 1)) = 0) ∧
    (r = none → ∀ k < cnt, key (elem mem size (k + 1)) ≠ 0)

/-- `sort` sorts every array of `cnt` elements of `size` bytes, by every comparison, and a search
in what it leaves is right for every key. -/
def SortsRight (cnt size : ℕ) : Prop :=
  ∀ (mem : Bytes) (compare : Elem size → Elem size → ℤ), TotalPreorder compare →
    ∃ mem' : Bytes, (∀ fuel, cnt < fuel → sort fuel mem cnt size compare = .ok mem') ∧
      (elems mem' cnt size).Perm (elems mem cnt size) ∧
      (elems mem' cnt size).Pairwise (fun a b => compare a b ≤ 0) ∧
      (∀ off, cnt * size ≤ off → mem' off = mem off) ∧
      ∀ key : Elem size → ℤ, Consistent compare key →
        ∃ r, (∀ fuel, cnt < fuel → binary_search fuel mem' cnt size key = .ok r) ∧
          Found mem' cnt size key r

/-! ## Elements and bytes -/

variable {n cnt k : ℕ} {mem : Bytes} {compare : Elem size → Elem size → ℤ}

/-- `cnt` elements lie in the `n` bytes of an array, and an array fits a `size_t`. -/
structure Fits (n cnt size : ℕ) : Prop where
  pos : 0 < size
  within : cnt * size ≤ n
  small : n < 2 ^ 32

/-- A prefix of the elements fits too. -/
theorem Fits.mono {cnt' : ℕ} (h : Fits n cnt size) (hle : cnt' ≤ cnt) : Fits n cnt' size :=
  ⟨h.pos, le_trans (Nat.mul_le_mul_right size hle) h.within, h.small⟩

/-- An element ends before the next one starts. -/
theorem elem_end_le {x y : ℕ} (size : ℕ) (h : x < y) : x * size + size ≤ y * size := by
  rw [← Nat.succ_mul]
  exact Nat.mul_le_mul_right size h

theorem Fits.elem_end (h : Fits n cnt size) (hk : 0 < k) (hkc : k ≤ cnt) :
    (k - 1) * size + size ≤ n := by
  have hend := elem_end_le size (show k - 1 < cnt by omega)
  have hwithin := h.within
  omega

theorem size_t_of_lt {x : ℕ} (h : x < 2 ^ 32) : size_t x = x := Nat.mod_eq_of_lt h

/-- The index of an element does not wrap. -/
theorem Fits.cnt_lt (h : Fits n cnt size) : cnt < 2 ^ 32 := by
  have hle : cnt ≤ cnt * size := Nat.le_mul_of_pos_right cnt h.pos
  have hwithin := h.within
  have hsmall := h.small
  omega

theorem Fits.elem_at (h : Fits n cnt size) (hk : 0 < k) (hkc : k ≤ cnt) :
    elem_at k size = (k - 1) * size := by
  have hend := h.elem_end hk hkc
  have hcnt := h.cnt_lt
  have hsmall := h.small
  have hidx : size_t (k + 2 ^ 32 - 1) = k - 1 := by
    have hsplit : k + 2 ^ 32 - 1 = k - 1 + 2 ^ 32 := by omega
    rw [hsplit, size_t, Nat.add_mod_right, Nat.mod_eq_of_lt (by omega)]
  rw [Lib.elem_at, hidx, size_t_of_lt (by omega)]

theorem Fits.read_elem (h : Fits n cnt size) (mem : Bytes) (hk : 0 < k) (hkc : k ≤ cnt) :
    read_elem n mem size ((k - 1) * size) = .ok (elem mem size k) := by
  rw [Lib.read_elem, if_pos (h.elem_end hk hkc)]
  congr 1
  funext j
  rw [elem, if_neg (by omega)]

theorem Fits.do_compare {a b : ℕ} (h : Fits n cnt size) (ha : 0 < a) (hac : a ≤ cnt) (hb : 0 < b)
    (hbc : b ≤ cnt) :
    do_compare n mem a b size compare = .ok (compare (elem mem size a) (elem mem size b)) := by
  rw [Lib.do_compare, h.elem_at ha hac, h.elem_at hb hbc, h.read_elem mem ha hac, ok_bind,
    h.read_elem mem hb hbc, ok_bind]
  rfl

/-! ## `do_swap` -/

/-- The first `m` bytes from `a` on and from `b` on exchanged. -/
def exchanged (mem : Bytes) (a b m : ℕ) : Bytes := fun off =>
  if a ≤ off ∧ off < a + m then mem (b + (off - a))
  else if b ≤ off ∧ off < b + m then mem (a + (off - b))
  else mem off

theorem exchanged_zero (mem : Bytes) (a b : ℕ) : exchanged mem a b 0 = mem := by
  funext off
  rw [exchanged, if_neg (by omega), if_neg (by omega)]

/-- A turn of the loop exchanges one more byte. -/
theorem swap_byte_spec {a b i : ℕ} (ha : a + size ≤ n) (hb : b + size ≤ n) (hn : n < 2 ^ 32)
    (hapart : a + size ≤ b ∨ b + size ≤ a) (hi : i < size) :
    swap_byte n a b (exchanged mem a b i) i = .ok (exchanged mem a b (i + 1)) := by
  have hat : exchanged mem a b i (a + i) = mem (a + i) := by
    rw [exchanged, if_neg (by omega), if_neg (by omega)]
  have hbt : exchanged mem a b i (b + i) = mem (b + i) := by
    rw [exchanged, if_neg (by omega), if_neg (by omega)]
  rw [swap_byte, size_t_of_lt (by omega), size_t_of_lt (by omega), load, if_pos (by omega),
    ok_bind, load, if_pos (by omega), ok_bind, store, if_pos (by omega), ok_bind, store,
    if_pos (by omega), hat, hbt]
  congr 1
  funext off
  by_cases hoffb : off = b + i
  · rw [hoffb, Function.update_self, exchanged, if_neg (by omega), if_pos (by omega)]
    congr 1
    omega
  rw [Function.update_of_ne hoffb]
  by_cases hoffa : off = a + i
  · rw [hoffa, Function.update_self, exchanged, if_pos (by omega)]
    congr 1
    omega
  rw [Function.update_of_ne hoffa, exchanged, exchanged]
  have hina : (a ≤ off ∧ off < a + i) ↔ a ≤ off ∧ off < a + (i + 1) := by omega
  have hinb : (b ≤ off ∧ off < b + i) ↔ b ≤ off ∧ off < b + (i + 1) := by omega
  simp only [hina, hinb]

theorem swap_loop_spec {a b : ℕ} (ha : a + size ≤ n) (hb : b + size ≤ n) (hn : n < 2 ^ 32)
    (hapart : a + size ≤ b ∨ b + size ≤ a) {m : ℕ} (hm : m ≤ size) :
    (List.range m).foldlM (swap_byte n a b) mem = .ok (exchanged mem a b m) := by
  induction m with
  | zero => rw [exchanged_zero]; rfl
  | succ m ih =>
    rw [List.range_succ, List.foldlM_append, ih (by omega), ok_bind, List.foldlM_cons,
      swap_byte_spec ha hb hn hapart (by omega), ok_bind]
    rfl

/-- The bytes of another element are not touched by an exchange. -/
theorem elem_off {x y j : ℕ} (hne : x ≠ y) (hj : j < size) :
    ¬ (y * size ≤ x * size + j ∧ x * size + j < y * size + size) := by
  rcases Nat.lt_or_gt_of_ne hne with hlt | hgt
  · have hend := elem_end_le size hlt
    omega
  · have hend := elem_end_le size hgt
    omega

theorem elem_exchanged {a b : ℕ} (ha : 0 < a) (hb : 0 < b) :
    elem (exchanged mem ((a - 1) * size) ((b - 1) * size) size) size
      = swap (elem mem size) a b := by
  funext k j
  have hj := j.isLt
  by_cases hk0 : k = 0
  · rw [hk0, swap_of_ne _ (by omega) (by omega), elem, elem, if_pos rfl, if_pos rfl]
  by_cases hka : k = a
  · rw [hka, swap_left, elem, elem, if_neg (by omega), if_neg (by omega), exchanged,
      if_pos (by omega), Nat.add_sub_cancel_left]
  by_cases hkb : k = b
  · rw [hkb, swap_right, elem, elem, if_neg (by omega), if_neg (by omega), exchanged,
      if_neg (elem_off (by omega) hj), if_pos (by omega), Nat.add_sub_cancel_left]
  · rw [swap_of_ne _ hka hkb, elem, elem, if_neg hk0, if_neg hk0, exchanged,
      if_neg (elem_off (by omega) hj), if_neg (elem_off (by omega) hj)]

/-- **`do_swap`** exchanges two elements and keeps every other byte. -/
theorem Fits.do_swap {a b : ℕ} (h : Fits n cnt size) (mem : Bytes) (ha : 0 < a) (hac : a ≤ cnt)
    (hb : 0 < b) (hbc : b ≤ cnt) (hab : a ≠ b) :
    ∃ mem', do_swap n mem a b size = .ok mem' ∧
      elem mem' size = swap (elem mem size) a b ∧ ∀ off, n ≤ off → mem' off = mem off := by
  have hea := h.elem_end ha hac
  have heb := h.elem_end hb hbc
  have hapart : (a - 1) * size + size ≤ (b - 1) * size ∨
      (b - 1) * size + size ≤ (a - 1) * size := by
    rcases Nat.lt_or_gt_of_ne hab with hlt | hgt
    · exact Or.inl (elem_end_le size (by omega))
    · exact Or.inr (elem_end_le size (by omega))
  refine ⟨exchanged mem ((a - 1) * size) ((b - 1) * size) size, ?_, elem_exchanged ha hb, ?_⟩
  · rw [Lib.do_swap, h.elem_at ha hac, h.elem_at hb hbc]
    exact swap_loop_spec hea heb h.small hapart le_rfl
  · intro off hoff
    rw [exchanged, if_neg (by omega), if_neg (by omega)]

/-! ## `heapify` -/

/-- Not above. -/
def le_by (compare : Elem size → Elem size → ℤ) (a b : Elem size) : Prop := compare a b ≤ 0

theorem TotalPreorder.le_of_pos (hc : TotalPreorder compare) {a b : Elem size}
    (h : 0 < compare a b) : le_by compare b a := by
  have hneg := (hc.sign a b).mp h
  exact hneg.le

theorem TotalPreorder.refl (hc : TotalPreorder compare) (a : Elem size) : le_by compare a a := by
  have hsign := hc.sign a a
  rw [le_by]
  omega

theorem Fits.pick_of_le (h : Fits n cnt size) {c max : ℕ} (hcpos : 0 < c) (hm : 0 < max)
    (hmc : max ≤ cnt) (hle : c ≤ cnt → compare (elem mem size c) (elem mem size max) ≤ 0) :
    pick_max n mem cnt size compare c max = .ok max := by
  rw [Lib.pick_max]
  by_cases hcc : c ≤ cnt
  · rw [if_pos hcc, h.do_compare hcpos hcc hm hmc, ok_bind, if_neg (not_lt.mpr (hle hcc))]
    rfl
  · rw [if_neg hcc]
    rfl

theorem Fits.pick_of_pos (h : Fits n cnt size) {c max : ℕ} (hcpos : 0 < c) (hcc : c ≤ cnt)
    (hm : 0 < max) (hmc : max ≤ cnt)
    (hpos : 0 < compare (elem mem size c) (elem mem size max)) :
    pick_max n mem cnt size compare c max = .ok c := by
  rw [Lib.pick_max, if_pos hcc, h.do_compare hcpos hcc hm hmc, ok_bind, if_pos hpos]
  rfl

/-- **`pick_max`** keeps the larger of the element in hand and the child, if there is one. -/
theorem Fits.pick_max (h : Fits n cnt size) (mem : Bytes) (hc : TotalPreorder compare)
    {c max : ℕ} (hcpos : 0 < c) (hm : 0 < max) (hmc : max ≤ cnt) :
    ∃ m, pick_max n mem cnt size compare c max = .ok m ∧ (m = max ∨ m = c) ∧ m ≤ cnt ∧
      le_by compare (elem mem size max) (elem mem size m) ∧
      (c ≤ cnt → le_by compare (elem mem size c) (elem mem size m)) := by
  by_cases hlt : c ≤ cnt ∧ 0 < compare (elem mem size c) (elem mem size max)
  · exact ⟨c, h.pick_of_pos hcpos hlt.1 hm hmc hlt.2, Or.inr rfl, hlt.1, hc.le_of_pos hlt.2,
      fun _ => hc.refl _⟩
  · have hle : c ≤ cnt → compare (elem mem size c) (elem mem size max) ≤ 0 := by
      intro hcc
      by_contra hgt
      exact hlt ⟨hcc, not_le.mp hgt⟩
    exact ⟨max, h.pick_of_le hcpos hm hmc hle, Or.inl rfl, hmc, hc.refl _, hle⟩

/-- Both children: the largest of the parent and its children. -/
theorem Fits.pick_both (h : Fits n cnt size) (mem : Bytes) (hc : TotalPreorder compare) {i : ℕ}
    (hi : 0 < i) (hic : i ≤ cnt) :
    ∃ l m, Lib.pick_max n mem cnt size compare (2 * i) i = .ok l ∧
      Lib.pick_max n mem cnt size compare (2 * i + 1) l = .ok m ∧ 0 < m ∧ m ≤ cnt ∧
      (m = i ∨ m / 2 = i) ∧ le_by compare (elem mem size i) (elem mem size m) ∧
      ∀ c, c ≤ cnt → c / 2 = i → le_by compare (elem mem size c) (elem mem size m) := by
  obtain ⟨l, hl, hlor, hlc, hil, hleft⟩ :=
    h.pick_max mem hc (show 0 < 2 * i by omega) hi hic
  have hlpos : 0 < l := by omega
  obtain ⟨m, hm, hmor, hmc, hlm, hright⟩ :=
    h.pick_max mem hc (show 0 < 2 * i + 1 by omega) hlpos hlc
  refine ⟨l, m, hl, hm, by omega, hmc, by omega, hc.trans _ _ _ hil hlm, ?_⟩
  intro c hcc hci
  -- a child is the left one or the right one
  have hcor : c = 2 * i ∨ c = 2 * i + 1 := by omega
  rcases hcor with rfl | rfl
  · exact hc.trans _ _ _ (hleft hcc) hlm
  · exact hright hcc

/-- **`heapify`** ends the sift: from a hole at `p`, with enough fuel for the levels below it, it
returns a heap that is a rearrangement. The indices of the children do not wrap. -/
theorem Fits.heapify (h : Fits n cnt size) (hcnt : cnt < 2 ^ 31) (hc : TotalPreorder compare)
    {i : ℕ} : ∀ (fuel : ℕ) (mem : Bytes) (p : ℕ), cnt < fuel + p → 0 < p → p ≤ cnt → i ≤ p →
      HeapBut (le_by compare) (elem mem size) i cnt p →
      ∃ mem', heapify n cnt size compare fuel mem p = .ok mem' ∧
        HeapFrom (le_by compare) (elem mem' size) i cnt ∧
        PermOn cnt (elem mem size) (elem mem' size) ∧ ∀ off, n ≤ off → mem' off = mem off := by
  intro fuel
  induction fuel with
  | zero =>
    intro mem p hfuel hp hpc
    omega
  | succ fuel ih =>
    intro mem p hfuel hp hpc hip hbut
    obtain ⟨l, m, hl, hm, hmpos, hmc, hmor, hle, hmax⟩ := h.pick_both mem hc hp hpc
    rw [Lib.heapify, size_t_of_lt (show 2 * p < 2 ^ 32 by omega),
      size_t_of_lt (show 2 * p + 1 < 2 ^ 32 by omega)]
    simp only [hl, hm, ok_bind]
    by_cases hmp : m = p
    · rw [if_pos hmp]
      rw [hmp] at hmax
      exact ⟨mem, rfl, hbut.finish hmax, PermOn.refl cnt _, fun _ _ => rfl⟩
    · have hchild : m / 2 = p := by omega
      obtain ⟨mem₁, hswap, helem, hoff⟩ :=
        h.do_swap mem hp hpc hmpos hmc (Ne.symm hmp)
      have hstep := hbut.step hip hp hchild hmc hle hmax
      rw [← helem] at hstep
      obtain ⟨mem₂, hrun, hheap, hperm, hoff₂⟩ :=
        ih mem₁ m (by omega) hmpos hmc (by omega) hstep
      rw [if_neg hmp, hswap, ok_bind]
      have hfirst : PermOn cnt (elem mem size) (elem mem₁ size) := by
        rw [helem]
        exact permOn_swap _ hp hpc hmpos hmc
      refine ⟨mem₂, hrun, hheap, hfirst.trans hperm, fun off hle => ?_⟩
      rw [hoff₂ off hle, hoff off hle]

/-- More fuel does not change what is returned. -/
theorem heapify_mono {fuel fuel' : ℕ} (hle : fuel ≤ fuel') {mem mem' : Bytes} {p : ℕ}
    (hrun : heapify n cnt size compare fuel mem p = .ok mem') :
    heapify n cnt size compare fuel' mem p = .ok mem' := by
  induction fuel generalizing fuel' mem p with
  | zero => cases hrun
  | succ fuel ih =>
    obtain ⟨fuel', rfl⟩ := Nat.exists_eq_add_of_lt (show 0 < fuel' by omega)
    rw [Nat.zero_add]
    rw [heapify] at hrun ⊢
    obtain ⟨l, hl, hrun⟩ := bind_eq_ok hrun
    obtain ⟨m, hm, hrun⟩ := bind_eq_ok hrun
    simp only [hl, hm, ok_bind]
    by_cases hmp : m = p
    · rw [if_pos hmp] at hrun ⊢
      exact hrun
    · rw [if_neg hmp] at hrun ⊢
      obtain ⟨mem₁, hswap, hrun⟩ := bind_eq_ok hrun
      rw [hswap, ok_bind]
      exact ih (by omega) hrun

/-! ## The two loops of `sort` -/

theorem build_mono {fuel fuel' : ℕ} (hle : fuel ≤ fuel') {i : ℕ} {mem mem' : Bytes}
    (hrun : build_loop fuel n cnt size compare i mem = .ok mem') :
    build_loop fuel' n cnt size compare i mem = .ok mem' := by
  induction i generalizing mem with
  | zero => exact hrun
  | succ i ih =>
    obtain ⟨mem₁, hfirst, hrest⟩ := bind_eq_ok hrun
    rw [build_loop, heapify_mono hle hfirst, ok_bind]
    exact ih hrest

theorem extract_mono {fuel fuel' : ℕ} (hle : fuel ≤ fuel') {i : ℕ} {mem mem' : Bytes}
    (hrun : extract_loop fuel n size compare i mem = .ok mem') :
    extract_loop fuel' n size compare i mem = .ok mem' := by
  induction i using Nat.strong_induction_on generalizing mem with
  | h i ih =>
    match i with
    | 0 => exact hrun
    | 1 => exact hrun
    | i + 2 =>
      rw [extract_loop] at hrun ⊢
      obtain ⟨mem₁, hswap, hrun⟩ := bind_eq_ok hrun
      obtain ⟨mem₂, hfirst, hrest⟩ := bind_eq_ok hrun
      rw [hswap, ok_bind, heapify_mono hle hfirst, ok_bind]
      exact ih (i + 1) (by omega) hrest

theorem sort_mono {fuel fuel' : ℕ} (hle : fuel ≤ fuel') {mem mem' : Bytes}
    (hrun : sort fuel mem cnt size compare = .ok mem') :
    sort fuel' mem cnt size compare = .ok mem' := by
  obtain ⟨u, hassert, hrun⟩ := bind_eq_ok hrun
  obtain ⟨mem₁, hbuild, hextract⟩ := bind_eq_ok hrun
  rw [sort, hassert, ok_bind, build_mono hle hbuild, ok_bind]
  exact extract_mono hle hextract

/-- Every turn of the first loop adds one parent to the heap. -/
theorem Fits.build (h : Fits n cnt size) (hcnt : cnt < 2 ^ 31) (hc : TotalPreorder compare)
    {fuel : ℕ} (hfuel : cnt < fuel) : ∀ (i : ℕ) (mem : Bytes), i ≤ cnt →
      HeapFrom (le_by compare) (elem mem size) (i + 1) cnt →
      ∃ mem', build_loop fuel n cnt size compare i mem = .ok mem' ∧
        HeapFrom (le_by compare) (elem mem' size) 1 cnt ∧
        PermOn cnt (elem mem size) (elem mem' size) ∧ ∀ off, n ≤ off → mem' off = mem off := by
  intro i
  induction i with
  | zero =>
    intro mem hic hheap
    exact ⟨mem, rfl, hheap, PermOn.refl cnt _, fun _ _ => rfl⟩
  | succ i ih =>
    intro mem hic hheap
    obtain ⟨mem₁, hrun₁, hheap₁, hperm₁, hoff₁⟩ :=
      h.heapify hcnt hc fuel mem (i + 1) (by omega) (by omega) hic le_rfl
        (HeapBut.start hheap)
    obtain ⟨mem₂, hrun₂, hheap₂, hperm₂, hoff₂⟩ := ih mem₁ (by omega) hheap₁
    refine ⟨mem₂, ?_, hheap₂, hperm₁.trans hperm₂, fun off hle => ?_⟩
    · rw [build_loop, hrun₁, ok_bind, hrun₂]
    · rw [hoff₂ off hle, hoff₁ off hle]

/-- What the second loop keeps: the first `i` elements are a heap, those behind them are in order,
and none of these is below one of the heap. -/
structure Extracting (compare : Elem size → Elem size → ℤ) (v : ℕ → Elem size) (cnt i : ℕ) :
    Prop where
  heap : HeapFrom (le_by compare) v 1 i
  above : ∀ j k, 0 < j → j ≤ i → i < k → k ≤ cnt → le_by compare (v j) (v k)
  sorted : ∀ j k, i < j → j ≤ k → k ≤ cnt → le_by compare (v j) (v k)

/-- **A turn of the second loop.** The root goes behind the heap, and what is left is any
rearrangement that is a heap again. -/
theorem Extracting.turn (hc : TotalPreorder compare) {v w : ℕ → Elem size} {i : ℕ}
    (h : Extracting compare v cnt (i + 1)) (hheap : HeapFrom (le_by compare) w 1 i)
    (hperm : PermOn i (swap v 1 (i + 1)) w) : Extracting compare w cnt i := by
  have hroot : ∀ j, 0 < j → j ≤ i + 1 → le_by compare (v j) (v 1) :=
    fun j hj hji => h.heap.root hc.refl hc.trans hj hji
  -- what stands at the place that was freed is the old root
  have hlast : w (i + 1) = v 1 := by rw [hperm.off (by omega), swap_right]
  have hbehind : ∀ k, i + 1 < k → w k = v k := by
    intro k hk
    rw [hperm.off (by omega), swap_of_ne v (by omega) (by omega)]
  have hfront : ∀ j, 0 < j → j ≤ i → ∃ j', 0 < j' ∧ j' ≤ i + 1 ∧ w j = v j' := by
    intro j hj hji
    obtain ⟨j₁, hj₁, hj₁i, hw⟩ := hperm.at hj hji
    by_cases hone : j₁ = 1
    · exact ⟨i + 1, by omega, le_rfl, by rw [hw, hone, swap_left]⟩
    · exact ⟨j₁, hj₁, by omega, by rw [hw, swap_of_ne v hone (by omega)]⟩
  refine ⟨hheap, ?_, ?_⟩
  · intro j k hj hji hik hkc
    obtain ⟨j', hj', hj'i, hw⟩ := hfront j hj hji
    rw [hw]
    by_cases hk : k = i + 1
    · rw [hk, hlast]
      exact hroot j' hj' hj'i
    · rw [hbehind k (by omega)]
      exact h.above j' k hj' hj'i (by omega) hkc
  · intro j k hij hjk hkc
    by_cases hj : j = i + 1
    · rw [hj, hlast]
      by_cases hk : k = i + 1
      · rw [hk, hlast]
        exact hc.refl _
      · rw [hbehind k (by omega)]
        exact h.above 1 k (by omega) (by omega) (by omega) hkc
    · rw [hbehind j (by omega), hbehind k (by omega)]
      exact h.sorted j k (by omega) hjk hkc

/-- The second loop ends with a heap of one element, so all are in order. -/
theorem Fits.extract (h : Fits n cnt size) (hcnt : cnt < 2 ^ 31) (hc : TotalPreorder compare)
    {fuel : ℕ} (hfuel : cnt < fuel) : ∀ (i : ℕ) (mem : Bytes), i + 1 ≤ cnt →
      Extracting compare (elem mem size) cnt (i + 1) →
      ∃ mem', extract_loop fuel n size compare (i + 1) mem = .ok mem' ∧
        Extracting compare (elem mem' size) cnt 1 ∧
        PermOn cnt (elem mem size) (elem mem' size) ∧ ∀ off, n ≤ off → mem' off = mem off := by
  intro i
  induction i with
  | zero =>
    intro mem hic hext
    exact ⟨mem, rfl, hext, PermOn.refl cnt _, fun _ _ => rfl⟩
  | succ i ih =>
    intro mem hic hext
    obtain ⟨mem₁, hswap, helem, hoff₁⟩ := h.do_swap mem (show 0 < 1 by omega)
      (show 1 ≤ cnt by omega) (show 0 < i + 2 by omega) hic (by omega)
    have hbut := hext.heap.remove
    rw [← helem] at hbut
    obtain ⟨mem₂, hrun₂, hheap₂, hperm₂, hoff₂⟩ :=
      (h.mono (show i + 1 ≤ cnt by omega)).heapify (by omega) hc fuel mem₁ 1 (by omega)
        (by omega) (by omega) le_rfl hbut
    have hturn := hext.turn hc hheap₂ (helem ▸ hperm₂)
    obtain ⟨mem₃, hrun₃, hend, hperm₃, hoff₃⟩ := ih mem₂ (by omega) hturn
    have hfirst : PermOn cnt (elem mem size) (elem mem₁ size) := by
      rw [helem]
      exact permOn_swap _ (by omega) (by omega) (by omega) hic
    refine ⟨mem₃, ?_, hend, (hfirst.trans (hperm₂.mono (by omega))).trans hperm₃,
      fun off hle => ?_⟩
    · rw [extract_loop, hswap, ok_bind, hrun₂, ok_bind, hrun₃]
    · rw [hoff₃ off hle, hoff₂ off hle, hoff₁ off hle]

/-- **`sort`** returns the elements rearranged and in order. -/
theorem sort_spec (hsize : 0 < size) (hn : cnt * size < 2 ^ 32) (hcnt : cnt < 2 ^ 31)
    (hc : TotalPreorder compare) (mem : Bytes) {fuel : ℕ} (hfuel : cnt < fuel) :
    ∃ mem', sort fuel mem cnt size compare = .ok mem' ∧
      (∀ j k, 0 < j → j ≤ k → k ≤ cnt →
        le_by compare (elem mem' size j) (elem mem' size k)) ∧
      PermOn cnt (elem mem size) (elem mem' size) ∧
      ∀ off, cnt * size ≤ off → mem' off = mem off := by
  have h : Fits (cnt * size) cnt size := ⟨hsize, le_rfl, hn⟩
  have hstart : HeapFrom (le_by compare) (elem mem size) (cnt / 2 + 1) cnt := by
    intro c hcc hhalf hpos
    omega
  obtain ⟨mem₁, hrun₁, hheap₁, hperm₁, hoff₁⟩ :=
    h.build hcnt hc hfuel (cnt / 2) mem (by omega) hstart
  rw [sort, ASSERT_pos hsize, ok_bind, hrun₁, ok_bind]
  by_cases hzero : cnt = 0
  · subst hzero
    refine ⟨mem₁, rfl, ?_, hperm₁, hoff₁⟩
    intro j k hj hjk hk
    omega
  obtain ⟨i, rfl⟩ := Nat.exists_eq_succ_of_ne_zero hzero
  have hext : Extracting compare (elem mem₁ size) (i + 1) (i + 1) := by
    refine ⟨hheap₁, ?_, ?_⟩ <;> intros <;> omega
  obtain ⟨mem₂, hrun₂, hend, hperm₂, hoff₂⟩ := h.extract hcnt hc hfuel i mem₁ le_rfl hext
  refine ⟨mem₂, hrun₂, ?_, hperm₁.trans hperm₂, fun off hle => ?_⟩
  · intro j k hj hjk hk
    by_cases hone : 1 < j
    · exact hend.sorted j k hone hjk hk
    by_cases hkone : k = 1
    · have hjone : j = k := by omega
      rw [hjone]
      exact hc.refl _
    · exact hend.above j k hj (by omega) (by omega) hk
  · rw [hoff₂ off hle, hoff₁ off hle]

/-! ## `binary_search` -/

variable {key : Elem size → ℤ}

/-- What the loop knows: the window ends at elements `f` and `l`, and no element outside it
matches. -/
structure Window (mem : Bytes) (cnt size : ℕ) (key : Elem size → ℤ) (f l : ℕ) : Prop where
  le : l ≤ cnt
  before : ∀ k, k < f → key (elem mem size (k + 1)) ≠ 0
  behind : ∀ k, l ≤ k → k < cnt → key (elem mem size (k + 1)) ≠ 0

/-- **The loop of `binary_search`** halves the window until it finds a match or is empty. -/
theorem Fits.search_loop (h : Fits n cnt size) (hkey : Consistent compare key)
    (hsorted : ∀ j k, 0 < j → j ≤ k → k ≤ cnt →
      le_by compare (elem mem size j) (elem mem size k)) :
    ∀ (fuel f l : ℕ), l < fuel + f → f ≤ l → Window mem cnt size key f l →
      ∃ r, (∀ fuel', fuel ≤ fuel' →
          search_loop n size mem key fuel' (f * size) (l * size) = .ok r) ∧
        Found mem cnt size key r := by
  intro fuel
  induction fuel with
  | zero =>
    intro f l hfuel hfl
    omega
  | succ fuel ih =>
    intro f l hfuel hfl hwin
    by_cases hempty : f = l
    · refine ⟨none, ?_, ?_⟩
      · intro fuel' hle
        obtain ⟨fuel', rfl⟩ := Nat.exists_eq_add_of_lt (show 0 < fuel' by omega)
        rw [Nat.zero_add, Lib.search_loop, hempty, if_neg (lt_irrefl _)]
        rfl
      · refine ⟨fun off hoff => (by cases hoff), fun _ k hk => ?_⟩
        by_cases hkf : k < f
        · exact hwin.before k hkf
        · exact hwin.behind k (by omega) hk
    -- the middle of a window that is not empty
    have hlc := hwin.le
    have hlt : f < l := by omega
    have hrange : (l * size - f * size) / size = l - f := by
      rw [← Nat.sub_mul, Nat.mul_div_cancel _ h.pos]
    obtain ⟨m, hm⟩ : ∃ m, m = f + (l - f) / 2 := ⟨_, rfl⟩
    have hml : m < l := by omega
    have hmid : f * size + (l - f) / 2 * size = m * size := by rw [← Nat.add_mul, ← hm]
    have hend := h.elem_end (show 0 < m + 1 by omega) (show m + 1 ≤ cnt by omega)
    rw [Nat.add_sub_cancel] at hend
    have hsmall := h.small
    have hoff : size_t (f * size + size_t ((l - f) / 2 * size)) = m * size := by
      rw [size_t_of_lt (x := (l - f) / 2 * size) (by omega), hmid, size_t_of_lt (by omega)]
    have hnext : size_t (m * size + size) = (m + 1) * size := by
      rw [size_t_of_lt (by omega), Nat.succ_mul]
    have hread := h.read_elem mem (show 0 < m + 1 by omega) (show m + 1 ≤ cnt by omega)
    rw [Nat.add_sub_cancel] at hread
    have hturn : ∀ fuel', Lib.search_loop n size mem key (fuel' + 1) (f * size) (l * size)
        = if key (elem mem size (m + 1)) < 0 then
            Lib.search_loop n size mem key fuel' (f * size) (m * size)
          else if 0 < key (elem mem size (m + 1)) then
            Lib.search_loop n size mem key fuel' ((m + 1) * size) (l * size)
          else .ok (some (m * size)) := by
      intro fuel'
      rw [Lib.search_loop, if_pos (Nat.mul_lt_mul_of_pos_right hlt h.pos), hrange]
      simp only [hoff, hread, ok_bind, hnext, pure_eq_ok]
    by_cases hneg : key (elem mem size (m + 1)) < 0
    · have hwin' : Window mem cnt size key f m := by
        refine ⟨by omega, hwin.before, fun k hmk hk => ?_⟩
        have hle := hsorted (m + 1) (k + 1) (by omega) (by omega) (by omega)
        exact ((hkey _ _ hle).1 hneg).ne
      obtain ⟨r, hr, hfound⟩ := ih f m (by omega) (by omega) hwin'
      refine ⟨r, fun fuel' hle => ?_, hfound⟩
      obtain ⟨fuel', rfl⟩ := Nat.exists_eq_add_of_lt (show 0 < fuel' by omega)
      rw [Nat.zero_add, hturn, if_pos hneg]
      exact hr fuel' (by omega)
    by_cases hpos : 0 < key (elem mem size (m + 1))
    · have hwin' : Window mem cnt size key (m + 1) l := by
        refine ⟨hlc, fun k hk => ?_, hwin.behind⟩
        have hle := hsorted (k + 1) (m + 1) (by omega) (by omega) (by omega)
        exact ((hkey _ _ hle).2 hpos).ne'
      obtain ⟨r, hr, hfound⟩ := ih (m + 1) l (by omega) (by omega) hwin'
      refine ⟨r, fun fuel' hle => ?_, hfound⟩
      obtain ⟨fuel', rfl⟩ := Nat.exists_eq_add_of_lt (show 0 < fuel' by omega)
      rw [Nat.zero_add, hturn, if_neg hneg, if_pos hpos]
      exact hr fuel' (by omega)
    · refine ⟨some (m * size), fun fuel' hle => ?_, ?_⟩
      · obtain ⟨fuel', rfl⟩ := Nat.exists_eq_add_of_lt (show 0 < fuel' by omega)
        rw [Nat.zero_add, hturn, if_neg hneg, if_neg hpos]
      · refine ⟨fun off hoff => ⟨m, by omega, ?_, by omega⟩, fun hnone => (by cases hnone)⟩
        exact (Option.some.inj hoff).symm

theorem binary_search_spec (hsize : 0 < size) (hn : cnt * size < 2 ^ 32)
    (hkey : Consistent compare key)
    (hsorted : ∀ j k, 0 < j → j ≤ k → k ≤ cnt →
      le_by compare (elem mem size j) (elem mem size k)) :
    ∃ r, (∀ fuel, cnt < fuel → binary_search fuel mem cnt size key = .ok r) ∧
      Found mem cnt size key r := by
  have h : Fits (cnt * size) cnt size := ⟨hsize, le_rfl, hn⟩
  have hwin : Window mem cnt size key 0 cnt :=
    ⟨le_rfl, fun k hk => absurd hk (by omega), fun k hle hk => absurd hk (by omega)⟩
  obtain ⟨r, hr, hfound⟩ := h.search_loop hkey hsorted (cnt + 1) 0 cnt (by omega) (by omega) hwin
  refine ⟨r, fun fuel hfuel => ?_, hfound⟩
  have hrun := hr fuel (by omega)
  rw [binary_search, Nat.mul_comm size cnt, size_t_of_lt hn]
  rwa [Nat.zero_mul] at hrun

/-! ## Where the index wraps -/

/-- An array of `cnt` elements in order under every comparison, as long as no index wraps. -/
theorem sortsRight_of_lt (hsize : 0 < size) (hn : cnt * size < 2 ^ 32) (hcnt : cnt < 2 ^ 31) :
    SortsRight cnt size := by
  intro mem compare hc
  obtain ⟨mem', hrun, hsorted, hperm, hoff⟩ :=
    sort_spec hsize hn hcnt hc mem (show cnt < cnt + 1 by omega)
  refine ⟨mem', ?_, hperm.perm, ?_, hoff, fun key hkey => binary_search_spec hsize hn hkey hsorted⟩
  · intro fuel hfuel
    exact sort_mono hfuel hrun
  · rw [elems, List.pairwise_map]
    refine List.Pairwise.imp_of_mem ?_ (List.pairwise_lt_range (n := cnt))
    intro j k hj hk hjk
    exact hsorted (j + 1) (k + 1) (by omega) (by omega) (by have := List.mem_range.mp hk; omega)

/-- The order of bytes by value. -/
def byte_compare (a b : Elem 1) : ℤ := (a 0).toNat - (b 0).toNat

theorem byte_compare_total : TotalPreorder byte_compare := by
  constructor
  · intro a b
    unfold byte_compare
    omega
  · intro a b c hab hbc
    unfold byte_compare at *
    omega

/-- Zeros, and a one at the 1-based index `2 ^ 31`. -/
def one_byte : Bytes := fun off => if off = 2 ^ 31 - 1 then 1 else 0

theorem byte_compare_one {a b : ℕ} (ha : 0 < a) (hb : 0 < b) :
    byte_compare (elem one_byte 1 a) (elem one_byte 1 b)
      = (if a = 2 ^ 31 then 1 else 0) - (if b = 2 ^ 31 then 1 else 0) := by
  have hbyte : ∀ k, 0 < k → ((elem one_byte 1 k 0).toNat : ℤ) = if k = 2 ^ 31 then 1 else 0 := by
    intro k hk
    have hiff : (k - 1) * 1 + ((0 : Fin 1) : ℕ) = 2 ^ 31 - 1 ↔ k = 2 ^ 31 := by
      rw [Fin.val_zero]
      omega
    rw [elem, if_neg (by omega), one_byte]
    simp only [hiff]
    by_cases hk31 : k = 2 ^ 31
    · rw [if_pos hk31, if_pos hk31]
      rfl
    · rw [if_neg hk31, if_neg hk31]
      rfl
  rw [byte_compare, hbyte a ha, hbyte b hb]

/-- Behind the middle every parent is a zero among zeros. -/
theorem heapify_stays (hcnt : cnt < 2 ^ 32) {i : ℕ} (hi : 2 ^ 30 < i) (hic : i ≤ cnt / 2)
    (fuel : ℕ) : heapify cnt cnt 1 byte_compare (fuel + 1) one_byte i = .ok one_byte := by
  have h : Fits cnt cnt 1 := ⟨one_pos, by omega, hcnt⟩
  have hstay : ∀ c, 2 * i ≤ c →
      pick_max cnt one_byte cnt 1 byte_compare c i = .ok i := by
    intro c hc
    refine h.pick_of_le (by omega) (by omega) (by omega) (fun _ => ?_)
    rw [byte_compare_one (by omega) (by omega), if_neg (by omega), if_neg (by omega)]
    exact le_rfl
  rw [heapify, size_t_of_lt (show 2 * i < 2 ^ 32 by omega),
    size_t_of_lt (show 2 * i + 1 < 2 ^ 32 by omega)]
  simp only [hstay (2 * i) le_rfl, hstay (2 * i + 1) (by omega), ok_bind, if_true]
  rfl

/-- **The sift that escapes.** The one at index `2 ^ 31` is swapped with its parent, and the index
of its left child wraps to 0: the byte before the array is compared. -/
theorem heapify_escapes (hcnt : 2 ^ 31 ≤ cnt) (hsmall : cnt < 2 ^ 32) (fuel : ℕ) :
    heapify cnt cnt 1 byte_compare (fuel + 2) one_byte (2 ^ 30) = .error .bounds := by
  have h : Fits cnt cnt 1 := ⟨one_pos, by omega, hsmall⟩
  have hleft : pick_max cnt one_byte cnt 1 byte_compare (2 ^ 31) (2 ^ 30) = .ok (2 ^ 31) := by
    refine h.pick_of_pos (by omega) hcnt (by omega) (by omega) ?_
    rw [byte_compare_one (by omega) (by omega), if_pos rfl, if_neg (by omega)]
    exact one_pos
  have hright : pick_max cnt one_byte cnt 1 byte_compare (2 ^ 31 + 1) (2 ^ 31)
      = .ok (2 ^ 31) := by
    refine h.pick_of_le (by omega) (by omega) hcnt (fun _ => ?_)
    rw [byte_compare_one (by omega) (by omega), if_neg (by omega), if_pos rfl]
    omega
  obtain ⟨mem, hswap, -, -⟩ := h.do_swap one_byte (show 0 < 2 ^ 30 by omega) (by omega)
    (show 0 < 2 ^ 31 by omega) hcnt (by omega)
  have hwrap : heapify cnt cnt 1 byte_compare (fuel + 1) mem (2 ^ 31) = .error .bounds := by
    have hchild : size_t (2 * 2 ^ 31) = 0 := by decide
    have hbefore : elem_at 0 1 = 2 ^ 32 - 1 := by decide
    have hout : read_elem cnt mem 1 (2 ^ 32 - 1) = .error .bounds := by
      rw [read_elem, if_neg (by omega)]
    rw [heapify, hchild]
    simp only [pick_max, if_pos (Nat.zero_le cnt), do_compare, hbefore, hout, error_bind]
  have hl : size_t (2 * 2 ^ 30) = 2 ^ 31 := by decide
  have hr : size_t (2 * 2 ^ 30 + 1) = 2 ^ 31 + 1 := by decide
  rw [show fuel + 2 = fuel + 1 + 1 from rfl, heapify, hl, hr]
  simp only [hleft, hright, ok_bind]
  rw [if_neg (by omega), hswap, ok_bind, hwrap]

/-- Building the heap gets to that parent. -/
theorem build_escapes (hcnt : 2 ^ 31 ≤ cnt) (hsmall : cnt < 2 ^ 32) (fuel d : ℕ)
    (hd : 2 ^ 30 + d ≤ cnt / 2) :
    build_loop (fuel + 2) cnt cnt 1 byte_compare (2 ^ 30 + d) one_byte = .error .bounds := by
  induction d with
  | zero =>
    rw [Nat.add_zero, show 2 ^ 30 = 2 ^ 30 - 1 + 1 from rfl, build_loop,
      show 2 ^ 30 - 1 + 1 = 2 ^ 30 from rfl, heapify_escapes hcnt hsmall]
    rfl
  | succ d ih =>
    rw [← Nat.add_assoc, build_loop, heapify_stays hsmall (by omega) (by omega), ok_bind]
    exact ih (by omega)

/-- With an index that can wrap some array is not sorted. -/
theorem not_sortsRight (hcnt : 2 ^ 31 ≤ cnt) (hsmall : cnt < 2 ^ 32) : ¬ SortsRight cnt 1 := by
  intro hright
  obtain ⟨mem', hrun, -⟩ := hright one_byte byte_compare byte_compare_total
  have hsort := hrun (cnt + 2) (by omega)
  have hsplit : cnt / 2 = 2 ^ 30 + (cnt / 2 - 2 ^ 30) := by omega
  rw [sort, ASSERT_pos one_pos, ok_bind, Nat.mul_one, hsplit,
    build_escapes hcnt hsmall cnt (cnt / 2 - 2 ^ 30) (by omega), error_bind] at hsort
  cases hsort

/-- **Heap sort and bisection.** For every array that fits the address space, of elements of any
size: `sort` returns with the elements rearranged and in order for every total preorder, it
accesses nothing outside the array, and a search in the result finds a match exactly when there is
one, if and only if there are fewer than `2 ^ 31` elements. From there on the index of a child
wraps. -/
theorem sort_right_iff (cnt size : ℕ) (hsize : 0 < size) (hn : cnt * size < 2 ^ 32) :
    SortsRight cnt size ↔ cnt < 2 ^ 31 := by
  constructor
  · intro hright
    by_contra hcnt
    have hone : size = 1 := by
      by_contra hne
      have htwo := Nat.mul_le_mul (not_lt.mp hcnt) (show 2 ≤ size by omega)
      omega
    rw [hone] at hright hn
    exact not_sortsRight (by omega) (by omega) hright
  · exact sortsRight_of_lt hsize hn

/-- An array of three bytes. -/
theorem sort_right_iff_three : (0 < 1 ∧ 3 * 1 < 2 ^ 32) ∧ (SortsRight 3 1 ↔ 3 < 2 ^ 31) :=
  ⟨by decide, sort_right_iff 3 1 (by decide) (by decide)⟩

/-- Of `2 ^ 31` bytes, zeros but for the last one, the sort reads the one before the first. -/
theorem sort_wraps : ¬ SortsRight (2 ^ 31) 1 := not_sortsRight le_rfl (by omega)

end Pintos.Lib
