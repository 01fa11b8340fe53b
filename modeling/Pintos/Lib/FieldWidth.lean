/-
Field widths of integer conversions, from the text of the conversion to the padded number.

The `-` flag overrides `0` where the flags are parsed, but a negative width given by `*` sets
`MINUS` only afterwards, so `ZERO` stays set with it and the number is padded on both sides. The
other way to a wrong field is a width or a precision that is too large for an `int`.
-/
import Pintos.Lib.FormatInteger
import Pintos.Lib.ParseConversion
import Mathlib.Data.List.TakeWhile

set_option autoImplicit false

namespace Pintos.Lib

/-! ## What a specification asks for -/

/-- The number that digits denote behind those of `n`. -/
def decimal_from (n : ℕ) (t : List Char) : ℕ :=
  t.foldl (fun n ch => n * 10 + (ch.toNat - '0'.toNat)) n

/-- The number that digits denote. -/
def decimal (t : List Char) : ℕ := decimal_from 0 t

/-- The number that is written, or the argument. -/
def Number.nominal (args : Args) (k : ℕ) : Number → ℤ
  | .star => args.va_int k
  | .digits t => decimal t

namespace Spec

variable (spec : Spec) (args : Args)

/-- The field width; it is the first argument if it is a `*`. -/
def field_width : ℤ := spec.width.nominal args 0

/-- There is a precision, and it is not negative. -/
def precision_given : Prop :=
  ∃ n, spec.precision = some n ∧ 0 ≤ n.nominal args (spec.width.next 0)

/-- The padding goes to the right. -/
def on_right : Prop := '-' ∈ spec.flags ∨ spec.field_width args < 0

/-- The `0` flag applies. -/
def zero_applies : Prop := '0' ∈ spec.flags ∧ '-' ∉ spec.flags ∧ ¬spec.precision_given args

end Spec

/-- `out` is the number `sign ++ pre ++ digits` in the field that is asked for. -/
def Padded (spec : Spec) (args : Args) (sign pre digits out : List Char) : Prop :=
  out.length = max (spec.field_width args).natAbs (sign ++ pre ++ digits).length ∧
    (spec.on_right args → out = sign ++ pre ++ digits
      ++ List.replicate (out.length - (sign ++ pre ++ digits).length) ' ') ∧
    (¬spec.on_right args → spec.zero_applies args → out = sign ++ pre
      ++ List.replicate (out.length - (sign ++ pre ++ digits).length) '0' ++ digits) ∧
    (¬spec.on_right args → ¬spec.zero_applies args →
      out = List.replicate (out.length - (sign ++ pre ++ digits).length) ' '
        ++ (sign ++ pre ++ digits))

/-- The conversion that `s` begins with, as the parser leaves it, prints `value` in its field: what
it prints with width 0, padded as the specification asks. -/
def FieldExact (ovf : ℤ → ℤ) (s : CString) (args : Args) (value : ℕ) (is_signed negative : Bool)
    (b : IntegerBase) : Prop :=
  ∃ (i k : ℕ) (c : Conversion) (digits out : List Char),
    parse_conversion ovf (s.chars.length + 1) s args 0 0 = .ok (i, k, c) ∧
    format_integer ovf value is_signed negative b { c with width := 0 }
      = .ok ((sign_char c.flags is_signed negative).toList ++ x_text (x_char c.flags b value)
        ++ digits) ∧
    format_integer ovf value is_signed negative b c = .ok out ∧
    Padded (conversion_spec s.chars).1 args (sign_char c.flags is_signed negative).toList
      (x_text (x_char c.flags b value)) digits out

/-- The length of a number without a precision and a width. -/
def plain_length (f : Flags) (value : ℕ) (is_signed negative : Bool) (b : IntegerBase) : ℕ :=
  let n := (Nat.digits b.base value).length
  (sign_char f is_signed negative).toList.length + (x_text (x_char f b value)).length
    + max 1 (n + if f.group then (n - 1) / b.group else 0)
    + if f.pound ∧ b.base = 8 ∧ 0 < value then 1 else 0

/-- Digits whose number is no `int` while it is added up. -/
def TooLarge : Number → Prop
  | .star => False
  | .digits t => 2 ^ 31 ≤ decimal t + '0'.toNat

/-- When the field is right: the width fits an `int`; and if the `0` flag is given without `-` and
the field is wider than the number without a precision, then the width is not negative unless there
is a precision, and the precision fits an `int`. -/
def FieldFits (spec : Spec) (args : Args) (value : ℕ) (is_signed negative : Bool)
    (b : IntegerBase) : Prop :=
  ¬TooLarge spec.width ∧
    ('0' ∈ spec.flags → '-' ∉ spec.flags →
      plain_length spec.written.normal value is_signed negative b
          < (spec.field_width args).natAbs →
      (spec.field_width args < 0 → spec.precision_given args) ∧
        ∀ n, spec.precision = some n → ¬TooLarge n)

/-! ## Numbers -/

variable {spec : Spec} {args : Args} {ovf : ℤ → ℤ} {t : List Char} {value : ℕ}
  {is_signed negative : Bool} {b : IntegerBase}

theorem isdigit_iff {ch : Char} : isdigit ch = true ↔ 48 ≤ ch.toNat ∧ ch.toNat ≤ 57 := by
  rw [isdigit, decide_eq_true_iff]
  exact Iff.rfl

theorem int_of_fits {z : ℤ} (h : -2 ^ 31 ≤ z ∧ z < 2 ^ 31) : int ovf z = z := if_pos h

theorem add_digit_eq (n : ℤ) (ch : Char) :
    add_digit ovf n ch = int ovf (int ovf (int ovf (n * 10) + ch.toNat) - 48) := by
  have hzero : ('0'.toNat : ℤ) = 48 := rfl
  rw [add_digit, hzero]

theorem decimal_from_cons (n : ℕ) (ch : Char) (t : List Char) :
    decimal_from n (ch :: t) = decimal_from (n * 10 + (ch.toNat - 48)) t := by
  have hzero : '0'.toNat = 48 := rfl
  rw [decimal_from, decimal_from, List.foldl_cons, hzero]

theorem le_decimal_from (n : ℕ) (t : List Char) : n ≤ decimal_from n t := by
  induction t generalizing n with
  | nil => exact le_rfl
  | cons ch t ih =>
    have hrest := ih (n * 10 + (ch.toNat - 48))
    rw [decimal_from_cons]
    omega

/-- One digit more, without overflow. -/
theorem add_digit_of_fits {n : ℕ} {ch : Char} (hch : isdigit ch = true)
    (hfits : n * 10 + ch.toNat < 2 ^ 31) :
    add_digit ovf n ch = (n * 10 + (ch.toNat - 48) : ℕ) := by
  obtain ⟨hlow, hhigh⟩ := isdigit_iff.mp hch
  rw [add_digit_eq, int_of_fits (z := (n : ℤ) * 10) (by omega),
    int_of_fits (z := (n : ℤ) * 10 + ch.toNat) (by omega), int_of_fits (by omega)]
  omega

/-- **The digits add up** to their number as long as it fits. -/
theorem foldl_add_digit (ht : ∀ ch ∈ t, isdigit ch = true) (n : ℕ)
    (hfits : decimal_from n t + 48 < 2 ^ 31) :
    t.foldl (add_digit ovf) (n : ℤ) = decimal_from n t := by
  induction t generalizing n with
  | nil => rfl
  | cons ch t ih =>
    have hch := ht ch List.mem_cons_self
    obtain ⟨hlow, hhigh⟩ := isdigit_iff.mp hch
    rw [decimal_from_cons] at hfits ⊢
    have hle := le_decimal_from (n * 10 + (ch.toNat - 48)) t
    rw [List.foldl_cons, add_digit_of_fits hch (by omega)]
    exact ih (fun ch' hmem => ht ch' (List.mem_cons_of_mem ch hmem)) _ hfits

/-- If overflow gives 48, what comes out is a small number whatever the digits are. -/
theorem foldl_add_digit_small (ht : ∀ ch ∈ t, isdigit ch = true) {n : ℤ}
    (hn : 0 ≤ n ∧ n + 48 < 2 ^ 31) :
    0 ≤ t.foldl (add_digit (fun _ => 48)) n ∧
      t.foldl (add_digit (fun _ => 48)) n + 48 < 2 ^ 31 := by
  induction t generalizing n with
  | nil => exact hn
  | cons ch t ih =>
    obtain ⟨hlow, hhigh⟩ := isdigit_iff.mp (ht ch List.mem_cons_self)
    rw [List.foldl_cons]
    refine ih (fun ch' hmem => ht ch' (List.mem_cons_of_mem ch hmem)) ?_
    have hmul : 0 ≤ int (fun _ => 48) (n * 10) := by
      rw [int]
      split_ifs <;> omega
    have hsum : 48 ≤ int (fun _ => 48) (int (fun _ => 48) (n * 10) + ch.toNat) ∧
        int (fun _ => 48) (int (fun _ => 48) (n * 10) + ch.toNat) < 2 ^ 31 := by
      generalize int (fun _ => 48) (n * 10) = y at hmul
      rw [int]
      split_ifs <;> omega
    rw [add_digit_eq, int_of_fits (by omega)]
    omega

/-- If overflow gives -100, a number that is negative stays negative. -/
theorem foldl_add_digit_neg (ht : ∀ ch ∈ t, isdigit ch = true) {n : ℤ} (hn : n < 0) :
    t.foldl (add_digit (fun _ => -100)) n < 0 := by
  induction t generalizing n with
  | nil => exact hn
  | cons ch t ih =>
    obtain ⟨hlow, hhigh⟩ := isdigit_iff.mp (ht ch List.mem_cons_self)
    rw [List.foldl_cons]
    refine ih (fun ch' hmem => ht ch' (List.mem_cons_of_mem ch hmem)) ?_
    have hmul : int (fun _ => -100) (n * 10) ≤ -10 := by
      rw [int]
      split_ifs <;> omega
    generalize hy : int (fun _ => -100) (n * 10) = y at hmul
    have hsum : int (fun _ => -100) (y + ch.toNat) < 48 := by
      rw [int]
      split_ifs <;> omega
    generalize hz : int (fun _ => -100) (y + ch.toNat) = z at hsum
    rw [add_digit_eq, hy, hz, int]
    split_ifs <;> omega

/-- If overflow gives -100, digits whose number is too large give a negative number. -/
theorem foldl_add_digit_too_large (ht : ∀ ch ∈ t, isdigit ch = true) (n : ℕ)
    (hn : n + 48 < 2 ^ 31) (hlarge : 2 ^ 31 ≤ decimal_from n t + 48) :
    t.foldl (add_digit (fun _ => -100)) (n : ℤ) < 0 := by
  induction t generalizing n with
  | nil => exact absurd hn (not_lt.mpr hlarge)
  | cons ch t ih =>
    have hch := ht ch List.mem_cons_self
    have hrest : ∀ ch' ∈ t, isdigit ch' = true :=
      fun ch' hmem => ht ch' (List.mem_cons_of_mem ch hmem)
    obtain ⟨hlow, hhigh⟩ := isdigit_iff.mp hch
    rw [decimal_from_cons] at hlarge
    rw [List.foldl_cons]
    by_cases hfits : n * 10 + ch.toNat < 2 ^ 31
    · rw [add_digit_of_fits hch hfits]
      exact ih hrest _ (by omega) hlarge
    · refine foldl_add_digit_neg hrest ?_
      have hsum : int (fun _ => -100) (int (fun _ => -100) ((n : ℤ) * 10) + ch.toNat) < 0 := by
        by_cases hmul : n * 10 < 2 ^ 31
        · rw [int_of_fits (z := (n : ℤ) * 10) (by omega), int, if_neg (by omega)]
          omega
        · have hten : int (fun _ => -100) ((n : ℤ) * 10) = -100 := by
            rw [int, if_neg (by omega)]
          rw [hten, int_of_fits (by omega)]
          omega
      rw [add_digit_eq]
      generalize int (fun _ => -100) (int (fun _ => -100) ((n : ℤ) * 10) + ch.toNat) = z at hsum ⊢
      rw [int]
      split_ifs <;> omega

/-- The digits of a number are digits. -/
def WellFormed : Number → Prop
  | .star => True
  | .digits t => ∀ ch ∈ t, isdigit ch = true

theorem number_wellFormed (l : List Char) : WellFormed (number l).1 := by
  rw [number]
  by_cases hstar : first l = '*'
  · rw [if_pos hstar]
    trivial
  · rw [if_neg hstar]
    exact fun ch hch => List.mem_takeWhile_imp hch

theorem width_wellFormed (l : List Char) : WellFormed (conversion_spec l).1.width :=
  number_wellFormed _

theorem precision_wellFormed (l : List Char) (n : Number)
    (hn : (conversion_spec l).1.precision = some n) : WellFormed n := by
  have hsome : (precision (number (l.dropWhile is_flag)).2).1 = some n := hn
  rw [precision] at hsome
  by_cases hdot : first (number (l.dropWhile is_flag)).2 = '.'
  · rw [if_pos hdot] at hsome
    rw [← Option.some.inj hsome]
    exact number_wellFormed _
  · rw [if_neg hdot] at hsome
    cases hsome

/-- A number that fits is the one that is written. -/
theorem Number.value_of_fits {n : Number} {k : ℕ} (hwf : WellFormed n) (hfits : ¬TooLarge n) :
    n.value ovf args k = n.nominal args k := by
  cases n with
  | star => rfl
  | digits t =>
    have hlt : decimal_from 0 t + 48 < 2 ^ 31 := not_le.mp hfits
    exact foldl_add_digit hwf 0 hlt

/-! ## The flags -/

theorem add_flag_minus (f : Flags) (ch : Char) :
    (add_flag f ch).minus = true ↔ f.minus = true ∨ ch = '-' := by
  unfold add_flag flag_case
  split_ifs <;> simp_all

theorem add_flag_zero (f : Flags) (ch : Char) :
    (add_flag f ch).zero = true ↔ f.zero = true ∨ ch = '0' := by
  unfold add_flag flag_case
  split_ifs <;> simp_all

theorem written_minus : spec.written.minus = true ↔ '-' ∈ spec.flags := by
  have hfold : ∀ (t : List Char) (f : Flags),
      (t.foldl add_flag f).minus = true ↔ f.minus = true ∨ '-' ∈ t := by
    intro t
    induction t with
    | nil => simp
    | cons ch t ih =>
      intro f
      rw [List.foldl_cons, ih, add_flag_minus, List.mem_cons, or_assoc, @eq_comm _ ch]
  rw [Spec.written, hfold]
  simp

theorem written_zero : spec.written.zero = true ↔ '0' ∈ spec.flags := by
  have hfold : ∀ (t : List Char) (f : Flags),
      (t.foldl add_flag f).zero = true ↔ f.zero = true ∨ '0' ∈ t := by
    intro t
    induction t with
    | nil => simp
    | cons ch t ih =>
      intro f
      rw [List.foldl_cons, ih, add_flag_zero, List.mem_cons, or_assoc, @eq_comm _ ch]
  rw [Spec.written, hfold]
  simp

/-- `MINUS` is set by the flag or by a negative width. -/
theorem conversion_minus : (spec.conversion ovf args 0).flags.minus = true ↔
    '-' ∈ spec.flags ∨ spec.width.value ovf args 0 < 0 := by
  rw [← written_minus, Spec.conversion]
  simp only
  split_ifs <;> simp [Flags.normal, *]

/-- `ZERO` is left when there is no `-` flag and no precision. -/
theorem conversion_zero : (spec.conversion ovf args 0).flags.zero = true ↔
    '0' ∈ spec.flags ∧ '-' ∉ spec.flags ∧
      precision_value ovf args (spec.width.next 0) spec.precision < 0 := by
  rw [← written_minus, ← written_zero, Spec.conversion]
  simp only
  split_ifs <;> simp [Flags.normal, *] <;> omega

/-! ## The field -/

variable {f : Flags} {sign pre digits : List Char}

theorem in_field_zero (f : Flags) (sign pre digits : List Char) :
    in_field f sign pre digits 0 = sign ++ pre ++ digits := by
  unfold in_field
  split_ifs <;> simp [output_dup]

/-- Padded once: on the right, with zeros, or on the left. -/
theorem in_field_length (pad : ℤ) (h : ¬(f.minus = true ∧ f.zero = true)) :
    (in_field f sign pre digits pad).length = pad.toNat + (sign ++ pre ++ digits).length := by
  unfold in_field
  cases hm : f.minus <;> cases hz : f.zero
  · simp [output_dup]
  · simp [output_dup]
    omega
  · simp [output_dup]
    omega
  · exact absurd ⟨hm, hz⟩ h

/-- Padded on both sides. -/
theorem in_field_length_both (pad : ℤ) (hm : f.minus = true) (hz : f.zero = true) :
    (in_field f sign pre digits pad).length = 2 * pad.toNat + (sign ++ pre ++ digits).length := by
  simp [in_field, hm, hz, output_dup]
  omega

/-- The padding fills the width. -/
theorem pad_cnt_of_fits {width : ℤ} {n x s : ℕ} (hw : 0 ≤ width ∧ width < 2 ^ 31) (hn : n ≤ 64)
    (hx : x ≤ 2) (hs : s ≤ 1) : (pad_cnt ovf width n x s).toNat = width.toNat - (s + x + n) := by
  rw [pad_cnt, int_of_fits (z := width - n) (by omega), int_of_fits (z := width - n - x) (by omega),
    int_of_fits (by omega)]
  omega

theorem x_text_length (x : Option Char) : (x_text x).length ≤ 2 := by
  cases x with
  | none => exact Nat.zero_le 2
  | some x => exact le_rfl

theorem toList_length (x : Option Char) : x.toList.length ≤ 1 := by
  cases x with
  | none => exact Nat.zero_le 1
  | some x => exact le_rfl

/-- **The length without a precision.** -/
theorem plain_length_eq (hb : b.Sound) (c : Conversion) (hp : c.precision < 0) :
    ((sign_char c.flags is_signed negative).toList ++ x_text (x_char c.flags b value)
      ++ buffer_text b c value).length = plain_length c.flags value is_signed negative b := by
  have hspell := spelled_length (b := b) c.flags.group value
  have hdigits : (digits_text b c value).length
      = max 1 (spelled b c.flags.group 0 value).length := by
    rw [digits_text, List.length_append, List.length_replicate, List.length_reverse, if_pos hp,
      zero_cnt]
    omega
  have hoctal : (octal_zero b c value).length
      = if c.flags.pound ∧ b.base = 8 ∧ 0 < value then 1 else 0 := by
    have hiff : (digits_text b c value).head? ≠ some '0' ↔ 0 < value := by
      rcases Nat.eq_zero_or_pos value with rfl | hv
      · rw [digits_text, spelled_zero, if_pos hp]
        exact iff_of_false (not_not.mpr rfl) (lt_irrefl 0)
      · have hpos : 0 < (spelled b c.flags.group 0 value).length := by
          have hne : Nat.digits b.base value ≠ [] := Nat.digits_ne_nil_iff_ne_zero.mpr hv.ne'
          have hlen := List.length_pos_iff.mpr hne
          omega
        have hnone : zero_cnt 1 (spelled b c.flags.group 0 value).length = 0 := by
          rw [zero_cnt]
          omega
        rw [digits_text, if_pos hp, hnone, List.replicate_zero, List.nil_append]
        exact iff_of_true (head?_spelled_ne hb c.flags.group value) hv
    rw [octal_zero]
    simp only [hiff]
    split_ifs <;> rfl
  rw [List.length_append, List.length_append, buffer_text, List.length_append, hoctal, hdigits,
    hspell, plain_length]
  omega

theorem in_field_no_pad {pad : ℤ} (h : pad.toNat = 0) :
    in_field f sign pre digits pad = sign ++ pre ++ digits := by
  unfold in_field
  split_ifs <;> simp [output_dup, h]

/-! ## Right and wrong fields -/

section
variable {pad : ℤ} (hpad : pad.toNat
  = (spec.field_width args).natAbs - (sign ++ pre ++ digits).length)
include hpad

/-- A number that is as wide as the field is right without padding. -/
theorem padded_of_narrow
    (hnarrow : (spec.field_width args).natAbs ≤ (sign ++ pre ++ digits).length) :
    Padded spec args sign pre digits (in_field f sign pre digits pad) := by
  rw [in_field_no_pad (by omega)]
  refine ⟨(max_eq_right hnarrow).symm, fun _ => ?_, fun _ _ => ?_, fun _ _ => ?_⟩ <;>
    rw [Nat.sub_self, List.replicate_zero]
  · rw [List.append_nil]
  · rw [List.append_nil]
  · rw [List.nil_append]

/-- The flags as the parser should leave them. -/
theorem padded_of_flags (hright : spec.on_right args → f.minus = true ∧ f.zero = false)
    (hleft : ¬spec.on_right args → f.minus = false ∧ (f.zero = true ↔ spec.zero_applies args)) :
    Padded spec args sign pre digits (in_field f sign pre digits pad) := by
  have honce : ¬(f.minus = true ∧ f.zero = true) := by
    rintro ⟨hm, hz⟩
    by_cases hon : spec.on_right args
    · rw [(hright hon).2] at hz
      cases hz
    · rw [(hleft hon).1] at hm
      cases hm
  have hlen := @in_field_length f sign pre digits pad honce
  have hsub : (in_field f sign pre digits pad).length - (sign ++ pre ++ digits).length
      = pad.toNat := by omega
  refine ⟨by omega, fun hon => ?_, fun hon hzero => ?_, fun hon hzero => ?_⟩ <;> rw [hsub]
  · obtain ⟨hm, hz⟩ := hright hon
    simp [in_field, hm, hz, output_dup]
  · obtain ⟨hm, hz⟩ := hleft hon
    simp [in_field, hm, hz.mpr hzero, output_dup]
  · obtain ⟨hm, hz⟩ := hleft hon
    have hz' : f.zero = false := by
      rw [← Bool.not_eq_true]
      exact fun htrue => hzero (hz.mp htrue)
    simp [in_field, hm, hz', output_dup]

/-- **Both flags**: the number gets its padding twice. -/
theorem not_padded_both (hm : f.minus = true) (hz : f.zero = true)
    (hwide : (sign ++ pre ++ digits).length < (spec.field_width args).natAbs) :
    ¬Padded spec args sign pre digits (in_field f sign pre digits pad) := by
  rintro ⟨hlen, -⟩
  rw [in_field_length_both pad hm hz] at hlen
  omega

/-- **Zeros where there should be spaces.** -/
theorem not_padded_zeros (hm : f.minus = false) (hz : f.zero = true)
    (hleft : ¬spec.on_right args) (hno : ¬spec.zero_applies args)
    (hwide : (sign ++ pre ++ digits).length < (spec.field_width args).natAbs) :
    ¬Padded spec args sign pre digits (in_field f sign pre digits pad) := by
  rintro ⟨-, -, -, hspaces⟩
  have heq := congrArg (List.count ' ') (hspaces hleft hno)
  have hlen := @in_field_length f sign pre digits pad (by simp [hm])
  rw [hlen] at heq
  -- the zeros are no spaces, and the spaces are more
  simp [in_field, hm, hz, output_dup, List.count_replicate] at heq
  omega

end

/-! ## From the parser to the field -/

/-- What the conversion prints, given the conversion that was parsed. -/
def printed (ovf : ℤ → ℤ) (c : Conversion) (value : ℕ) (is_signed negative : Bool)
    (b : IntegerBase) : List Char :=
  in_field c.flags (sign_char c.flags is_signed negative).toList
    (x_text (x_char c.flags b value)) (buffer_text b c value)
    (pad_cnt ovf c.width (buffer_text b c value).length (x_text (x_char c.flags b value)).length
      (sign_char c.flags is_signed negative).toList.length)

/-- The calls return, so the field is exact when what is printed is padded as it should be. -/
theorem fieldExact_iff (hb : b.Sound) (hv : value < 2 ^ 64) (ovf : ℤ → ℤ) (s : CString)
    (args : Args) {c : Conversion} (hc : c = (conversion_spec s.chars).1.conversion ovf args 0) :
    FieldExact ovf s args value is_signed negative b ↔
      Padded (conversion_spec s.chars).1 args (sign_char c.flags is_signed negative).toList
        (x_text (x_char c.flags b value)) (buffer_text b c value)
        (printed ovf c value is_signed negative b) := by
  obtain ⟨i, hparse, -⟩ := parse_conversion_eq ovf args 0 (Rest.start s)
    (Nat.lt_succ_self s.chars.length)
  rw [← hc] at hparse
  have hout := format_integer_eq hb hv ovf is_signed negative c
  have hzero := format_integer_eq hb hv ovf is_signed negative { c with width := 0 }
  -- with width 0 nothing is padded
  have hpad : ∀ n x s : ℕ, n ≤ 64 → x ≤ 2 → s ≤ 1 → pad_cnt ovf 0 n x s = 0 := by
    intro n x s hn hx hs
    rw [pad_cnt, int_of_fits (z := 0 - n) (by omega), int_of_fits (z := 0 - n - x) (by omega),
      int_of_fits (by omega)]
    omega
  have hplain : format_integer ovf value is_signed negative b { c with width := 0 }
      = .ok ((sign_char c.flags is_signed negative).toList ++ x_text (x_char c.flags b value)
        ++ buffer_text b c value) := by
    rw [hzero, hpad _ _ _ (buffer_text_length hb hv _) (x_text_length _) (toList_length _),
      in_field_zero]
    rfl
  constructor
  · rintro ⟨i', k', c', digits, out, hparse', hplain', hout', hpadded⟩
    rw [hparse] at hparse'
    cases hparse'
    rw [hplain] at hplain'
    have hdigits := List.append_cancel_left (Except.ok.inj hplain')
    rw [hout] at hout'
    rw [← hdigits, ← Except.ok.inj hout'] at hpadded
    exact hpadded
  · intro hpadded
    exact ⟨i, _, c, buffer_text b c value, _, hparse, hplain, hout, hpadded⟩

/-- A width that fits lies in the range of an `int`, and so does its absolute value. -/
theorem field_width_range (hfits : ¬TooLarge spec.width)
    (hmin : spec.width = .star → args.va_int 0 ≠ -2 ^ 31) :
    -2 ^ 31 < spec.field_width args ∧ spec.field_width args < 2 ^ 31 := by
  rw [Spec.field_width]
  cases hwidth : spec.width with
  | star =>
    have hne := hmin hwidth
    have hlow := Int.le_bmod (x := args.int 0) (show 0 < 2 ^ 32 by norm_num)
    have hhigh := Int.bmod_lt (x := args.int 0) (show 0 < 2 ^ 32 by norm_num)
    rw [Args.va_int] at hne
    rw [Number.nominal, Args.va_int]
    omega
  | digits t =>
    rw [hwidth] at hfits
    have hlt : decimal t + 48 < 2 ^ 31 := not_le.mp hfits
    rw [Number.nominal]
    omega

/-- The width that the parser leaves is the absolute value. -/
theorem conversion_width {w : ℤ} (hw : spec.width.value ovf args 0 = w) (hlow : -2 ^ 31 < w)
    (hhigh : w < 2 ^ 31) : (spec.conversion ovf args 0).width = w.natAbs := by
  rw [Spec.conversion, hw]
  simp only
  by_cases hneg : w < 0
  · rw [if_pos hneg, int_of_fits (by omega)]
    omega
  · rw [if_neg hneg]
    omega

/-- **The padding** of a width that fits. -/
theorem printed_pad (hb : b.Sound) (hv : value < 2 ^ 64) (hwf : WellFormed spec.width)
    (hfits : ¬TooLarge spec.width) (hmin : spec.width = .star → args.va_int 0 ≠ -2 ^ 31)
    (ovf : ℤ → ℤ) (is_signed negative : Bool) {c : Conversion}
    (hc : c = spec.conversion ovf args 0) :
    (pad_cnt ovf c.width (buffer_text b c value).length (x_text (x_char c.flags b value)).length
        (sign_char c.flags is_signed negative).toList.length).toNat
      = (spec.field_width args).natAbs - ((sign_char c.flags is_signed negative).toList
          ++ x_text (x_char c.flags b value) ++ buffer_text b c value).length := by
  obtain ⟨hlow, hhigh⟩ := field_width_range hfits hmin
  have hw : spec.width.value ovf args 0 = spec.field_width args :=
    Number.value_of_fits hwf hfits
  have hwidth : c.width = (spec.field_width args).natAbs := by
    rw [hc]
    exact conversion_width hw hlow hhigh
  rw [pad_cnt_of_fits (by omega) (buffer_text_length hb hv c) (x_text_length _)
    (toList_length _), hwidth, List.length_append, List.length_append]
  omega

/-- The precision that the parser leaves is negative when none is given, and only then if it
fits. -/
theorem precision_value_neg (k : ℕ) {o : Option Number}
    (hnone : ∀ n, o = some n → n.value ovf args k = n.nominal args k) :
    precision_value ovf args k o < 0 ↔ ¬∃ n, o = some n ∧ 0 ≤ n.nominal args k := by
  cases o with
  | none => simp [precision_value]
  | some n =>
    have hvalue := hnone n rfl
    simp only [precision_value, hvalue, Option.some.injEq, exists_eq_left', not_le]
    split_ifs <;> omega

/-- Without a precision the parser leaves a negative one: digits are never negative. -/
theorem precision_value_of_not_given (k : ℕ) {o : Option Number}
    (hnone : ¬∃ n, o = some n ∧ 0 ≤ n.nominal args k) : precision_value ovf args k o < 0 := by
  apply (precision_value_neg k ?_).mpr hnone
  intro n hn
  cases n with
  | star => rfl
  | digits t => exact absurd ⟨_, hn, Int.natCast_nonneg _⟩ hnone

/-- Without a precision a conversion that was parsed has the plain length. -/
theorem plain_length_parsed (hb : b.Sound) {c : Conversion} (hc : c = spec.conversion ovf args 0)
    (hp : precision_value ovf args (spec.width.next 0) spec.precision < 0) :
    ((sign_char c.flags is_signed negative).toList ++ x_text (x_char c.flags b value)
      ++ buffer_text b c value).length
      = plain_length spec.written.normal value is_signed negative b := by
  have hneg : c.precision < 0 := by rw [hc]; exact hp
  have hfields : ∀ f : Flags, f.group = spec.written.normal.group →
      f.pound = spec.written.normal.pound → f.plus = spec.written.normal.plus →
      f.space = spec.written.normal.space → plain_length f value is_signed negative b
        = plain_length spec.written.normal value is_signed negative b := by
    intro f hg ho hplus hspace
    simp only [plain_length, sign_char, x_char, hg, ho, hplus, hspace]
  rw [plain_length_eq hb c hneg, hc]
  refine hfields _ ?_ ?_ ?_ ?_ <;> (rw [Spec.conversion]; simp only; split_ifs <;> rfl)

/-- **Enough for a right field.** -/
theorem fieldExact_of_fits (hb : b.Sound) (hv : value < 2 ^ 64) (s : CString) (args : Args)
    (hmin : (conversion_spec s.chars).1.width = .star → args.va_int 0 ≠ -2 ^ 31)
    (hfits : FieldFits (conversion_spec s.chars).1 args value is_signed negative b)
    (ovf : ℤ → ℤ) : FieldExact ovf s args value is_signed negative b := by
  rw [fieldExact_iff hb hv ovf s args rfl]
  have hwf := width_wellFormed s.chars
  have hpwf := precision_wellFormed s.chars
  generalize (conversion_spec s.chars).1 = spec at *
  obtain ⟨hlarge, hbad⟩ := hfits
  obtain ⟨c, hc⟩ : ∃ c, c = spec.conversion ovf args 0 := ⟨_, rfl⟩
  have hw : spec.width.value ovf args 0 = spec.field_width args :=
    Number.value_of_fits hwf hlarge
  have hpad := printed_pad hb hv hwf hlarge hmin ovf is_signed negative hc
  rw [← hc, printed]
  by_cases hnarrow : (spec.field_width args).natAbs
      ≤ ((sign_char c.flags is_signed negative).toList ++ x_text (x_char c.flags b value)
        ++ buffer_text b c value).length
  · exact padded_of_narrow hpad hnarrow
  -- a `ZERO` that is left is one that was asked for
  have hzero : c.flags.zero = true → spec.zero_applies args ∧ 0 ≤ spec.field_width args := by
    intro hz
    rw [hc] at hz
    obtain ⟨hz0, hm0, hp⟩ := conversion_zero.mp hz
    rw [plain_length_parsed hb hc hp] at hnarrow
    obtain ⟨hneg, hplarge⟩ := hbad hz0 hm0 (not_le.mp hnarrow)
    have hnone := (precision_value_neg (spec.width.next 0) (fun n hn =>
      Number.value_of_fits (hpwf n hn) (hplarge n hn))).mp hp
    exact ⟨⟨hz0, hm0, hnone⟩, not_lt.mp (fun hlt => hnone (hneg hlt))⟩
  have hminus : c.flags.minus = true ↔ spec.on_right args := by
    rw [hc, conversion_minus, hw]
    exact Iff.rfl
  refine padded_of_flags hpad (fun hon => ⟨hminus.mpr hon, ?_⟩) (fun hon => ⟨?_, ?_⟩)
  · rw [← Bool.not_eq_true]
    intro hz
    obtain ⟨⟨-, hm0, -⟩, hwidth⟩ := hzero hz
    rcases hon with hm | hneg
    · exact hm0 hm
    · omega
  · rw [← Bool.not_eq_true]
    exact fun hm => hon (hminus.mp hm)
  · refine ⟨fun hz => (hzero hz).1, fun happ => ?_⟩
    rw [hc]
    exact conversion_zero.mpr ⟨happ.1, happ.2.1, precision_value_of_not_given _ happ.2.2⟩

/-! ## Where the field goes wrong -/

/-- A width that is too large is never filled, if overflow gives a small number. -/
theorem not_fieldExact_of_large (hb : b.Sound) (hv : value < 2 ^ 64) (s : CString) (args : Args)
    (hlarge : TooLarge (conversion_spec s.chars).1.width) :
    ¬FieldExact (fun _ => 48) s args value is_signed negative b := by
  rw [fieldExact_iff hb hv _ s args rfl]
  have hwf := width_wellFormed s.chars
  generalize (conversion_spec s.chars).1 = spec at *
  obtain ⟨c, hc⟩ : ∃ c, c = spec.conversion (fun _ => 48) args 0 := ⟨_, rfl⟩
  rw [← hc, printed]
  rintro ⟨hlen, -⟩
  cases hwidth : spec.width with
  | star =>
    rw [hwidth] at hlarge
    exact hlarge
  | digits t =>
    rw [hwidth] at hlarge hwf
    have hnominal : spec.field_width args = decimal t := by rw [Spec.field_width, hwidth]; rfl
    have hlarge' : 2 ^ 31 ≤ decimal t + 48 := hlarge
    obtain ⟨hlow, hhigh⟩ := @foldl_add_digit_small t hwf 0 (by norm_num)
    have hw : spec.width.value (fun _ => 48) args 0 = t.foldl (add_digit (fun _ => 48)) 0 := by
      rw [hwidth]
      rfl
    have hcw : c.width = (t.foldl (add_digit (fun _ => 48)) 0).natAbs := by
      rw [hc]
      exact conversion_width hw (by omega) (by omega)
    have honce : ¬(c.flags.minus = true ∧ c.flags.zero = true) := by
      rw [hc]
      rintro ⟨hm, hz⟩
      rcases conversion_minus.mp hm with hm | hneg
      · exact (conversion_zero.mp hz).2.1 hm
      · rw [hw] at hneg
        omega
    have hbuf := buffer_text_length hb hv c
    have hx := x_text_length (x_char c.flags b value)
    have hs := toList_length (sign_char c.flags is_signed negative)
    rw [in_field_length _ honce, pad_cnt_of_fits (by omega) hbuf hx hs, hnominal, hcw] at hlen
    simp only [List.length_append] at hlen
    omega

/-- **A negative width and the `0` flag.** Without a precision the number is padded on both
sides. -/
theorem not_fieldExact_of_both (hb : b.Sound) (hv : value < 2 ^ 64) (s : CString) (args : Args)
    (hmin : (conversion_spec s.chars).1.width = .star → args.va_int 0 ≠ -2 ^ 31)
    (hfits : ¬TooLarge (conversion_spec s.chars).1.width)
    (hzero : '0' ∈ (conversion_spec s.chars).1.flags)
    (hminus : '-' ∉ (conversion_spec s.chars).1.flags)
    (hneg : (conversion_spec s.chars).1.field_width args < 0) (ovf : ℤ → ℤ)
    (hp : precision_value ovf args ((conversion_spec s.chars).1.width.next 0)
      (conversion_spec s.chars).1.precision < 0)
    (hwide : plain_length (conversion_spec s.chars).1.written.normal value is_signed negative b
      < ((conversion_spec s.chars).1.field_width args).natAbs) :
    ¬FieldExact ovf s args value is_signed negative b := by
  rw [fieldExact_iff hb hv _ s args rfl]
  have hwf := width_wellFormed s.chars
  generalize (conversion_spec s.chars).1 = spec at *
  have hw : spec.width.value ovf args 0 = spec.field_width args :=
    Number.value_of_fits hwf hfits
  have hpad := printed_pad hb hv hwf hfits hmin ovf is_signed negative rfl
  rw [← plain_length_parsed hb rfl hp] at hwide
  exact not_padded_both hpad (conversion_minus.mpr (Or.inr (by omega)))
    (conversion_zero.mpr ⟨hzero, hminus, hp⟩) hwide

/-- A precision that is too large is taken for none, if overflow gives a negative number. -/
theorem not_fieldExact_of_precision (hb : b.Sound) (hv : value < 2 ^ 64) (s : CString)
    (args : Args) (hmin : (conversion_spec s.chars).1.width = .star → args.va_int 0 ≠ -2 ^ 31)
    (hfits : ¬TooLarge (conversion_spec s.chars).1.width)
    (hzero : '0' ∈ (conversion_spec s.chars).1.flags)
    (hminus : '-' ∉ (conversion_spec s.chars).1.flags)
    (hwide : plain_length (conversion_spec s.chars).1.written.normal value is_signed negative b
      < ((conversion_spec s.chars).1.field_width args).natAbs) {n : Number}
    (hn : (conversion_spec s.chars).1.precision = some n) (hlarge : TooLarge n) :
    ¬FieldExact (fun _ => -100) s args value is_signed negative b := by
  cases n with
  | star => exact absurd hlarge id
  | digits t =>
    have hpwf := precision_wellFormed s.chars _ hn
    have hdigits := foldl_add_digit_too_large hpwf 0 (by norm_num) hlarge
    have hp : precision_value (fun _ => -100) args ((conversion_spec s.chars).1.width.next 0)
        (conversion_spec s.chars).1.precision < 0 := by
      have hvalue : (Number.digits t).value (fun _ => -100) args
          ((conversion_spec s.chars).1.width.next 0) < 0 := hdigits
      rw [hn, precision_value, if_pos hvalue]
      omega
    by_cases hneg : (conversion_spec s.chars).1.field_width args < 0
    · exact not_fieldExact_of_both hb hv s args hmin hfits hzero hminus hneg _ hp hwide
    rw [fieldExact_iff hb hv _ s args rfl]
    have hwf := width_wellFormed s.chars
    generalize (conversion_spec s.chars).1 = spec at *
    have hw : spec.width.value (fun _ => -100) args 0 = spec.field_width args :=
      Number.value_of_fits hwf hfits
    have hpad := printed_pad hb hv hwf hfits hmin (fun _ => -100) is_signed negative rfl
    rw [← plain_length_parsed hb rfl hp] at hwide
    have hgiven : spec.precision_given args := ⟨_, hn, Int.natCast_nonneg _⟩
    refine not_padded_zeros hpad ?_ (conversion_zero.mpr ⟨hzero, hminus, hp⟩) ?_
      (fun happ => happ.2.2 hgiven) hwide
    · rw [← Bool.not_eq_true, conversion_minus, hw]
      exact not_or.mpr ⟨hminus, hneg⟩
    · exact not_or.mpr ⟨hminus, hneg⟩

/-- **Field widths.** For every text of a conversion, every argument that gives a width other than
`INT_MIN`, and every value: whatever an overflow gives, the number is printed in exactly its field,
on the right, after zeros or on the left, if and only if the field fits as `FieldFits` says. -/
theorem field_exact_iff (s : CString) (args : Args) (value : ℕ) (is_signed negative : Bool)
    (b : IntegerBase) (hb : IsBase b) (hv : value < 2 ^ 64)
    (hmin : (conversion_spec s.chars).1.width = .star → args.va_int 0 ≠ -2 ^ 31) :
    (∀ ovf, FieldExact ovf s args value is_signed negative b) ↔
      FieldFits (conversion_spec s.chars).1 args value is_signed negative b := by
  constructor
  · intro h
    have hlarge : ¬TooLarge (conversion_spec s.chars).1.width :=
      fun hlarge => not_fieldExact_of_large hb.sound hv s args hlarge (h _)
    refine ⟨hlarge, fun hzero hminus hwide => ⟨fun hneg => ?_, fun n hn hp => ?_⟩⟩
    · by_contra hnone
      exact not_fieldExact_of_both hb.sound hv s args hmin hlarge hzero hminus hneg id
        (precision_value_of_not_given _ hnone) hwide (h id)
    · exact not_fieldExact_of_precision hb.sound hv s args hmin hlarge hzero hminus hwide hn hp
        (h _)
  · exact fun hfits ovf => fieldExact_of_fits hb.sound hv s args hmin hfits ovf

/-- `%05d` of -42. -/
theorem field_exact_iff_five :
    (∀ ovf, FieldExact ovf ⟨"05d".toList, by simp [NUL]⟩ ⟨fun _ => 0, fun _ => none⟩ 42 true
      true base_d) ↔ FieldFits (conversion_spec "05d".toList).1 ⟨fun _ => 0, fun _ => none⟩ 42 true true
        base_d :=
  field_exact_iff ⟨"05d".toList, by simp [NUL]⟩ ⟨fun _ => 0, fun _ => none⟩ 42 true true base_d
    (Or.inl rfl) (by decide) (fun hstar => (by cases hstar))

/-- `%0*d` of 7 with the width -5: `00007    ` has nine characters. -/
theorem star_width_pads_twice :
    ¬∀ ovf, FieldExact ovf ⟨"0*d".toList, by simp [NUL]⟩ ⟨fun _ => -5, fun _ => none⟩ 7 true
      false base_d := by
  intro h
  refine not_fieldExact_of_both (IsBase.sound (Or.inl rfl)) (by decide) _ _ (fun _ => ?_) id ?_ ?_
    ?_ id ?_ ?_ (h id) <;> decide

end Pintos.Lib
