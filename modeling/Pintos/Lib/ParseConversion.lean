/-
What `parse_conversion` makes of a text.

The text behind the `%` is read as the longest runs of flags and of digits that it begins with.
`conversion_spec` says so with lists, and the parser is shown to follow it: where the parser
stands, the rest of the format is the rest of the text.
-/
import Pintos.Lib.Stdio

set_option autoImplicit false

namespace Pintos.Lib

/-! ## The grammar -/

/-- The first character, or the NUL. -/
def first (l : List Char) : Char := l.headD NUL

/-- A flag character. -/
def is_flag (ch : Char) : Bool := (flag_case ch).isSome

/-- What a character adds to the flags. -/
def add_flag (f : Flags) (ch : Char) : Flags := ((flag_case ch).getD id) f

/-- A width or a precision as it is written: `*` or digits, maybe none. -/
inductive Number
  | star
  | digits (t : List Char)

/-- A conversion specification as it is written. -/
structure Spec where
  flags : List Char
  width : Number
  precision : Option Number
  type : ArgType

/-- The number that a text begins with, and the rest. -/
def number (l : List Char) : Number × List Char :=
  if first l = '*' then (.star, l.tail)
  else (.digits (l.takeWhile isdigit), l.dropWhile isdigit)

/-- The precision that a text begins with. -/
def precision (l : List Char) : Option Number × List Char :=
  if first l = '.' then (some (number l.tail).1, (number l.tail).2) else (none, l)

/-- The length modifier that a text begins with. -/
def modifier (l : List Char) : ArgType × List Char :=
  if first l = 'h' then
    if first l.tail = 'h' then (.CHAR, l.tail.tail) else (.SHORT, l.tail)
  else if first l = 'j' then (.INTMAX, l.tail)
  else if first l = 'l' then
    if first l.tail = 'l' then (.LONGLONG, l.tail.tail) else (.LONG, l.tail)
  else if first l = 't' then (.PTRDIFFT, l.tail)
  else if first l = 'z' then (.SIZET, l.tail)
  else (.INT, l)

/-- The specification that a text begins with, and the rest, which is the conversion character
with what follows it. -/
def conversion_spec (l : List Char) : Spec × List Char :=
  let w := number (l.dropWhile is_flag)
  let p := precision w.2
  let t := modifier p.2
  (⟨l.takeWhile is_flag, w.1, p.1, t.1⟩, t.2)

/-! ## Its meaning -/

/-- The value of a number: the next argument, or the digits as the code adds them up. -/
def Number.value (ovf : ℤ → ℤ) (args : Args) (k : ℕ) : Number → ℤ
  | .star => args.va_int k
  | .digits t => t.foldl (add_digit ovf) 0

/-- The argument behind a number. -/
def Number.next (k : ℕ) : Number → ℕ
  | .star => k + 1
  | .digits _ => k

/-- The flags that are written. -/
def Spec.written (spec : Spec) : Flags := spec.flags.foldl add_flag {}

/-- The value of a precision: -1 if there is none or it is negative. -/
def precision_value (ovf : ℤ → ℤ) (args : Args) (k : ℕ) : Option Number → ℤ
  | some n => if n.value ovf args k < 0 then -1 else n.value ovf args k
  | none => -1

/-- The argument behind a precision. -/
def precision_next (k : ℕ) : Option Number → ℕ
  | some n => n.next k
  | none => k

/-- The argument behind a specification. -/
def Spec.next (k : ℕ) (spec : Spec) : ℕ := precision_next (spec.width.next k) spec.precision

/-- The conversion that a specification asks for, with arguments from `k` on. -/
def Spec.conversion (ovf : ℤ → ℤ) (args : Args) (k : ℕ) (spec : Spec) : Conversion :=
  let w := spec.width.value ovf args k
  let p := precision_value ovf args (spec.width.next k) spec.precision
  let f := if w < 0 then { spec.written.normal with minus := true } else spec.written.normal
  ⟨if 0 ≤ p then { f with zero := false } else f, if w < 0 then int ovf (-w) else w, p, spec.type⟩

/-! ## Reading the format -/

variable {s : CString} {i fuel : ℕ} {l : List Char}

/-- At the position `i` the rest of the format is `l`. -/
structure Rest (s : CString) (i : ℕ) (l : List Char) : Prop where
  le : i ≤ s.chars.length
  eq : s.chars.drop i = l

theorem Rest.start (s : CString) : Rest s 0 s.chars := ⟨Nat.zero_le _, List.drop_zero⟩

theorem Rest.length (h : Rest s i l) : i + l.length = s.chars.length := by
  rw [← h.eq, List.length_drop]
  exact Nat.add_sub_cancel' h.le

theorem Rest.nonul (h : Rest s i l) {ch : Char} (hch : ch ∈ l) : ch ≠ NUL := by
  rw [← h.eq] at hch
  exact s.nonul ch (List.mem_of_mem_drop hch)

/-- A position of the format can be read. -/
theorem Rest.read (h : Rest s i l) : s.read i = .ok (first l) := by
  rw [CString.read, if_pos h.le, first, ← h.eq, List.headD_eq_head?_getD, List.head?_drop,
    List.getD_eq_getElem?_getD]

/-- Behind a character that is not the NUL there is another position. -/
theorem Rest.tail (h : Rest s i l) (hne : first l ≠ NUL) : Rest s (i + 1) l.tail := by
  cases l with
  | nil => exact absurd rfl hne
  | cons ch l =>
    have hlen := h.length
    rw [List.length_cons] at hlen
    refine ⟨by omega, ?_⟩
    rw [← List.drop_drop, h.eq]
    rfl

/-- Behind the NUL there is nothing to read. -/
theorem Rest.beyond (h : Rest s i []) : s.read (i + 1) = .error .bounds := by
  have hlen := h.length
  rw [List.length_nil] at hlen
  rw [CString.read, if_neg (by omega)]

theorem first_cons (ch : Char) (l : List Char) : first (ch :: l) = ch := rfl

/-! ## The loops -/

theorem is_flag_nul : is_flag NUL = false := by decide

theorem isdigit_nul : isdigit NUL = false := by decide

/-- What a run reads: the characters of a kind that the text begins with. -/
theorem takeWhile_of_first {p : Char → Bool} (hnul : p NUL = false) (hp : p (first l) = true) :
    l.takeWhile p = first l :: l.tail.takeWhile p ∧ l.dropWhile p = l.tail.dropWhile p ∧
      l.length = l.tail.length + 1 ∧ first l ≠ NUL := by
  cases l with
  | nil =>
    rw [first, List.headD_nil, hnul] at hp
    cases hp
  | cons ch l =>
    rw [first_cons] at hp ⊢
    refine ⟨?_, ?_, rfl, fun heq => ?_⟩
    · rw [List.takeWhile_cons_of_pos hp]
      rfl
    · rw [List.dropWhile_cons_of_pos hp]
      rfl
    · rw [heq, hnul] at hp
      cases hp

theorem takeWhile_of_not_first {p : Char → Bool} (hp : ¬p (first l) = true) :
    l.takeWhile p = [] ∧ l.dropWhile p = l := by
  cases l with
  | nil => exact ⟨rfl, rfl⟩
  | cons ch l =>
    rw [first_cons] at hp
    exact ⟨List.takeWhile_cons_of_neg hp, List.dropWhile_cons_of_neg hp⟩

/-- **The loop over the flags.** -/
theorem flags_loop_eq (h : Rest s i l) (hfuel : l.length < fuel) (f : Flags) :
    ∃ i', flags_loop s fuel i f = .ok (i', (l.takeWhile is_flag).foldl add_flag f) ∧
      Rest s i' (l.dropWhile is_flag) := by
  induction fuel generalizing i l f with
  | zero => omega
  | succ fuel ih =>
    rw [flags_loop, h.read, ok_bind]
    by_cases hflag : is_flag (first l) = true
    · obtain ⟨htake, hdrop, hlen, hne⟩ := takeWhile_of_first is_flag_nul hflag
      obtain ⟨set, hset⟩ := Option.isSome_iff_exists.mp hflag
      have hadd : add_flag f (first l) = set f := by
        rw [add_flag, hset]
        rfl
      rw [hset, htake, hdrop, List.foldl_cons, hadd]
      exact ih (h.tail hne) (by omega) (set f)
    · obtain ⟨htake, hdrop⟩ := takeWhile_of_not_first hflag
      have hnone : flag_case (first l) = none := by
        rw [is_flag, Option.not_isSome_iff_eq_none] at hflag
        exact hflag
      rw [hnone, htake, hdrop]
      exact ⟨i, rfl, h⟩

/-- **The loop over the digits.** -/
theorem digits_loop_eq (ovf : ℤ → ℤ) (h : Rest s i l) (hfuel : l.length < fuel) (n : ℤ) :
    ∃ i', digits_loop ovf s fuel i n = .ok (i', (l.takeWhile isdigit).foldl (add_digit ovf) n) ∧
      Rest s i' (l.dropWhile isdigit) := by
  induction fuel generalizing i l n with
  | zero => omega
  | succ fuel ih =>
    rw [digits_loop, h.read, ok_bind]
    by_cases hdigit : isdigit (first l) = true
    · obtain ⟨htake, hdrop, hlen, hne⟩ := takeWhile_of_first isdigit_nul hdigit
      rw [if_pos hdigit, htake, hdrop, List.foldl_cons]
      exact ih (h.tail hne) (by omega) _
    · obtain ⟨htake, hdrop⟩ := takeWhile_of_not_first hdigit
      rw [if_neg hdigit, htake, hdrop]
      exact ⟨i, rfl, h⟩

/-- A star or a number. -/
theorem parse_number_eq (ovf : ℤ → ℤ) (args : Args) (k : ℕ) (h : Rest s i l)
    (hfuel : l.length < fuel) :
    ∃ i', parse_number ovf fuel s args i k
        = .ok (i', (number l).1.next k, (number l).1.value ovf args k) ∧
      Rest s i' (number l).2 := by
  rw [parse_number, h.read, ok_bind, number]
  by_cases hstar : first l = '*'
  · rw [if_pos hstar, if_pos hstar]
    exact ⟨i + 1, rfl, h.tail (by rw [hstar]; decide)⟩
  · obtain ⟨i', hrun, hrest⟩ := digits_loop_eq ovf h hfuel 0
    rw [if_neg hstar, if_neg hstar, hrun, ok_bind]
    exact ⟨i', rfl, hrest⟩

theorem number_length (l : List Char) : (number l).2.length ≤ l.length := by
  rw [number]
  by_cases hstar : first l = '*'
  · rw [if_pos hstar, List.length_tail]
    omega
  · rw [if_neg hstar]
    exact (List.dropWhile_suffix isdigit).length_le

theorem precision_length (l : List Char) : (precision l).2.length ≤ l.length := by
  rw [precision]
  by_cases hdot : first l = '.'
  · have hnumber := number_length l.tail
    rw [List.length_tail] at hnumber
    rw [if_pos hdot]
    exact le_trans hnumber (Nat.sub_le _ _)
  · rw [if_neg hdot]

theorem modifier_length (l : List Char) : (modifier l).2.length ≤ l.length := by
  unfold modifier
  split_ifs <;> simp only [List.length_tail] <;> omega

/-- The specification takes nothing from behind itself. -/
theorem conversion_spec_length (l : List Char) : (conversion_spec l).2.length ≤ l.length := by
  have hflags := (List.dropWhile_suffix is_flag (l := l)).length_le
  have hwidth := number_length (l.dropWhile is_flag)
  have hprecision := precision_length (number (l.dropWhile is_flag)).2
  have hmodifier := modifier_length (precision (number (l.dropWhile is_flag)).2).2
  exact le_trans hmodifier (le_trans hprecision (le_trans hwidth hflags))

theorem parse_width_eq (ovf : ℤ → ℤ) (args : Args) (k : ℕ) (h : Rest s i l)
    (hfuel : l.length < fuel) (f : Flags) :
    ∃ i', parse_width ovf fuel s args i k f
        = .ok (i', (number l).1.next k,
          if (number l).1.value ovf args k < 0 then int ovf (-(number l).1.value ovf args k)
            else (number l).1.value ovf args k,
          if (number l).1.value ovf args k < 0 then { f with minus := true } else f) ∧
      Rest s i' (number l).2 := by
  obtain ⟨i', hrun, hrest⟩ := parse_number_eq ovf args k h hfuel
  refine ⟨i', ?_, hrest⟩
  rw [parse_width, hrun, ok_bind]
  by_cases hneg : (number l).1.value ovf args k < 0
  · rw [if_pos hneg, if_pos hneg, if_pos hneg]
    rfl
  · rw [if_neg hneg, if_neg hneg, if_neg hneg]
    rfl

theorem parse_precision_eq (ovf : ℤ → ℤ) (args : Args) (k : ℕ) (h : Rest s i l)
    (hfuel : l.length < fuel) :
    ∃ i', parse_precision ovf fuel s args i k
        = .ok (i', precision_next k (precision l).1, precision_value ovf args k (precision l).1) ∧
      Rest s i' (precision l).2 := by
  rw [parse_precision, h.read, ok_bind, precision]
  by_cases hdot : first l = '.'
  · have hlen : l.tail.length < fuel := by
      rw [List.length_tail]
      omega
    obtain ⟨i', hrun, hrest⟩ := parse_number_eq ovf args k (h.tail (by rw [hdot]; decide)) hlen
    rw [if_pos hdot, if_pos hdot, hrun, ok_bind]
    exact ⟨i', rfl, hrest⟩
  · rw [if_neg hdot, if_neg hdot]
    exact ⟨i, rfl, h⟩

theorem parse_type_eq (h : Rest s i l) :
    ∃ i', parse_type s i = .ok (i', (modifier l).1) ∧ Rest s i' (modifier l).2 := by
  have hnext : ∀ {ch : Char}, first l = ch → ch ≠ NUL → Rest s (i + 1) l.tail :=
    fun heq hne => h.tail (heq ▸ hne)
  rw [parse_type, h.read, ok_bind, modifier]
  by_cases hh : first l = 'h'
  · have htail := hnext hh (by decide)
    rw [if_pos hh, if_pos hh, htail.read, ok_bind]
    by_cases hhh : first l.tail = 'h'
    · rw [if_pos hhh, if_pos hhh]
      exact ⟨i + 2, rfl, htail.tail (by rw [hhh]; decide)⟩
    · rw [if_neg hhh, if_neg hhh]
      exact ⟨i + 1, rfl, htail⟩
  rw [if_neg hh, if_neg hh]
  by_cases hj : first l = 'j'
  · rw [if_pos hj, if_pos hj]
    exact ⟨i + 1, rfl, hnext hj (by decide)⟩
  rw [if_neg hj, if_neg hj]
  by_cases hl : first l = 'l'
  · have htail := hnext hl (by decide)
    rw [if_pos hl, if_pos hl, htail.read, ok_bind]
    by_cases hll : first l.tail = 'l'
    · rw [if_pos hll, if_pos hll]
      exact ⟨i + 2, rfl, htail.tail (by rw [hll]; decide)⟩
    · rw [if_neg hll, if_neg hll]
      exact ⟨i + 1, rfl, htail⟩
  rw [if_neg hl, if_neg hl]
  by_cases ht : first l = 't'
  · rw [if_pos ht, if_pos ht]
    exact ⟨i + 1, rfl, hnext ht (by decide)⟩
  rw [if_neg ht, if_neg ht]
  by_cases hz : first l = 'z'
  · rw [if_pos hz, if_pos hz]
    exact ⟨i + 1, rfl, hnext hz (by decide)⟩
  · rw [if_neg hz, if_neg hz]
    exact ⟨i, rfl, h⟩

/-- **`parse_conversion`** reads the specification that the text begins with, and stops at the
conversion character or at the NUL. -/
theorem parse_conversion_eq (ovf : ℤ → ℤ) (args : Args) (k : ℕ) (h : Rest s i l)
    (hfuel : l.length < fuel) :
    ∃ i', parse_conversion ovf fuel s args i k
        = .ok (i', (conversion_spec l).1.next k,
          (conversion_spec l).1.conversion ovf args k) ∧
      Rest s i' (conversion_spec l).2 := by
  obtain ⟨i₁, hflags, hrest₁⟩ := flags_loop_eq h hfuel {}
  have hlen₁ := (List.dropWhile_suffix is_flag (l := l)).length_le
  obtain ⟨i₂, hwidth, hrest₂⟩ := parse_width_eq ovf args k hrest₁ (lt_of_le_of_lt hlen₁ hfuel)
    ((l.takeWhile is_flag).foldl add_flag {}).normal
  have hlen₂ := number_length (l.dropWhile is_flag)
  obtain ⟨i₃, hprecision, hrest₃⟩ := parse_precision_eq ovf args
    ((number (l.dropWhile is_flag)).1.next k) hrest₂ (show _ < fuel by omega)
  obtain ⟨i₄, htype, hrest₄⟩ := parse_type_eq hrest₃
  refine ⟨i₄, ?_, hrest₄⟩
  simp only [parse_conversion, hflags, hwidth, hprecision, htype, ok_bind]
  rfl

end Pintos.Lib
