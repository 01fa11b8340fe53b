/-
What `format_integer` prints.

The digits of the value, with the commas, go into the buffer from the last one on; zeros follow up
to the precision, and one more if an octal number has to begin with a zero. The longest octal
number with commas has 29 characters and the zeros stop at 63, so the 64 bytes are enough.
-/
import Pintos.Lib.Stdio
import Pintos.Library.Separated
import Mathlib.Data.List.GetD

set_option autoImplicit false

namespace Pintos.Lib

open Separated

/-! ## The bases -/

/-- One of the bases of `stdio.c`. -/
def IsBase (b : IntegerBase) : Prop := b = base_d ∨ b = base_o ∨ b = base_x ∨ b = base_X

variable {b : IntegerBase} {c : Conversion} {ovf : ℤ → ℤ} {value : ℕ}

/-- The character of a digit. -/
def IntegerBase.digit (b : IntegerBase) (d : ℕ) : Char := b.digits.getD d NUL

/-- What the bases have in common. -/
structure IntegerBase.Sound (b : IntegerBase) : Prop where
  base_ge : 8 ≤ b.base
  group_ge : 3 ≤ b.group
  digits_len : b.digits.length = b.base
  no_comma : ',' ∉ b.digits
  nodup : b.digits.Nodup
  zero : b.digits.idxOf '0' = 0

theorem IsBase.sound (hb : IsBase b) : b.Sound := by
  rcases hb with rfl | rfl | rfl | rfl <;> constructor <;> decide

namespace IntegerBase.Sound

variable (hb : b.Sound)
include hb

theorem digit_mem {d : ℕ} (hd : d < b.base) : b.digit d ∈ b.digits := by
  have hlt : d < b.digits.length := by rw [hb.digits_len]; exact hd
  rw [digit, List.getD_eq_getElem _ _ hlt]
  exact List.getElem_mem hlt

theorem idxOf_digit {d : ℕ} (hd : d < b.base) : b.digits.idxOf (b.digit d) = d := by
  have hlt : d < b.digits.length := by rw [hb.digits_len]; exact hd
  rw [digit, List.getD_eq_getElem _ _ hlt]
  exact hb.nodup.idxOf_getElem d hlt

theorem digit_ne_comma {d : ℕ} (hd : d < b.base) : b.digit d ≠ ',' :=
  fun heq => hb.no_comma (heq ▸ hb.digit_mem hd)

/-- A `uintmax_t` has at most 22 digits. -/
theorem digits_length (hv : value < 2 ^ 64) : (Nat.digits b.base value).length ≤ 22 := by
  have hbase := hb.base_ge
  rw [Nat.digits_length_le_iff (by omega)]
  calc value < 2 ^ 64 := hv
    _ ≤ 8 ^ 22 := by norm_num
    _ ≤ b.base ^ 22 := Nat.pow_le_pow_left hbase 22

theorem no_comma_map (value : ℕ) : ',' ∉ (Nat.digits b.base value).map b.digit := by
  have hbase := hb.base_ge
  intro hmem
  obtain ⟨d, hd, hcomma⟩ := List.mem_map.mp hmem
  exact hb.digit_ne_comma (Nat.digits_lt_base (by omega) hd) hcomma

end IntegerBase.Sound

/-! ## The buffer -/

/-- The digits of a value from the last one on, with the commas; `cnt` digits came before. -/
def spelled (b : IntegerBase) (group : Bool) (cnt value : ℕ) : List Char :=
  if group then separated b.group ',' cnt ((Nat.digits b.base value).map b.digit)
  else (Nat.digits b.base value).map b.digit

theorem spelled_zero (group : Bool) (cnt : ℕ) : spelled b group cnt 0 = [] := by
  unfold spelled
  rw [Nat.digits_zero]
  cases group <;> rfl

/-- The turn of the loop: a comma where one belongs, and the last digit. -/
theorem spelled_pos (hb : b.Sound) (group : Bool) (cnt : ℕ) (hv : 0 < value) :
    spelled b group cnt value
      = (if group ∧ 0 < cnt ∧ cnt % b.group = 0 then [','] else [])
        ++ b.digit (value % b.base) :: spelled b group (cnt + 1) (value / b.base) := by
  have hbase := hb.base_ge
  unfold spelled
  rw [Nat.digits_def' (by omega) hv, List.map_cons]
  cases group with
  | false => simp
  | true =>
    simp only [if_true, separated, true_and]
    by_cases hcnt : 0 < cnt ∧ cnt % b.group = 0
    · rw [if_pos hcnt, if_pos hcnt]
      rfl
    · rw [if_neg hcnt, if_neg hcnt]
      rfl

/-- How many characters there are. -/
theorem spelled_length (group : Bool) (value : ℕ) :
    (spelled b group 0 value).length = (Nat.digits b.base value).length
      + if group then ((Nat.digits b.base value).length - 1) / b.group else 0 := by
  unfold spelled
  cases group with
  | false => simp
  | true =>
    have hlen := @length_separated _ ',' b.group 0 ((Nat.digits b.base value).map b.digit)
    simp only [width, Nat.zero_sub, Nat.zero_div, Nat.zero_add, List.length_map] at hlen
    simp only [if_true, hlen]

/-- The longest one is an octal number with commas. -/
theorem spelled_length_le (hb : b.Sound) (group : Bool) (hv : value < 2 ^ 64) :
    (spelled b group 0 value).length ≤ 29 := by
  have hdigits := hb.digits_length hv
  have hcommas : ((Nat.digits b.base value).length - 1) / b.group ≤ 7 := by
    calc ((Nat.digits b.base value).length - 1) / b.group
        ≤ 21 / b.group := Nat.div_le_div_right (by omega)
      _ ≤ 21 / 3 := Nat.div_le_div_left hb.group_ge (by omega)
  rw [spelled_length]
  cases group with
  | false => simp only [Bool.false_eq_true, if_false]; omega
  | true => simp only [if_true]; omega

theorem push_ok {l : List Char} (h : l.length < 64) (ch : Char) :
    push l ch = .ok (ch :: l) := by rw [push, if_pos h]

/-- **The loop over the digits** writes what is spelled, if there is room. -/
theorem value_loop_eq (hb : b.Sound) (group : Bool) (fuel value cnt : ℕ) (buf : List Char)
    (hfuel : (Nat.digits b.base value).length < fuel)
    (hroom : buf.length + (spelled b group cnt value).length ≤ 64) :
    value_loop b group fuel value cnt buf = .ok ((spelled b group cnt value).reverse ++ buf) := by
  have hbase := hb.base_ge
  induction fuel generalizing value cnt buf with
  | zero => omega
  | succ fuel ih =>
    rw [value_loop]
    by_cases hv : 0 < value
    · have hdigits : (Nat.digits b.base value).length
          = (Nat.digits b.base (value / b.base)).length + 1 := by
        rw [Nat.digits_def' (by omega) hv, List.length_cons]
      rw [spelled_pos hb group cnt hv] at hroom ⊢
      rw [if_pos hv]
      by_cases hcomma : group = true ∧ 0 < cnt ∧ cnt % b.group = 0
      · rw [if_pos hcomma] at hroom ⊢
        simp only [List.length_append, List.length_cons, List.length_nil] at hroom
        have hpush₂ := push_ok (l := ',' :: buf) (by rw [List.length_cons]; omega)
          (b.digits.getD (value % b.base) NUL)
        have hrest := ih (value / b.base) (cnt + 1)
          (b.digits.getD (value % b.base) NUL :: ',' :: buf) (by omega)
          (by simp only [List.length_cons]; omega)
        rw [if_pos hcomma, push_ok (by omega)]
        simp only [ok_bind, hpush₂, hrest]
        simp [IntegerBase.digit]
      · rw [if_neg hcomma] at hroom ⊢
        simp only [List.length_append, List.length_cons, List.length_nil] at hroom
        have hpush := push_ok (l := buf) (by omega) (b.digits.getD (value % b.base) NUL)
        have hrest := ih (value / b.base) (cnt + 1) (b.digits.getD (value % b.base) NUL :: buf)
          (by omega) (by simp only [List.length_cons]; omega)
        rw [if_neg hcomma]
        simp only [ok_bind, hpush, hrest]
        simp [IntegerBase.digit]
    · have hzero : value = 0 := by omega
      rw [if_neg hv, hzero, spelled_zero]
      rfl

/-- The zeros that the precision asks for. -/
def zero_cnt (precision : ℤ) (n : ℕ) : ℕ := (min precision 63).toNat - n

/-- **The loop for the precision** stops one byte before the end of the buffer. -/
theorem precision_loop_eq (precision : ℤ) (fuel : ℕ) (buf : List Char) (hlen : buf.length ≤ 63)
    (hfuel : 63 - buf.length < fuel) :
    precision_loop precision fuel buf
      = .ok (List.replicate (zero_cnt precision buf.length) '0' ++ buf) := by
  induction fuel generalizing buf with
  | zero => omega
  | succ fuel ih =>
    rw [precision_loop]
    by_cases hmore : (buf.length : ℤ) < precision ∧ buf.length < 64 - 1
    · have hcnt : zero_cnt precision buf.length = zero_cnt precision (buf.length + 1) + 1 := by
        unfold zero_cnt
        omega
      rw [if_pos hmore, push_ok (by omega), ok_bind, ih _ (by simp only [List.length_cons]; omega)
        (by simp only [List.length_cons]; omega), List.length_cons, hcnt, List.replicate_succ',
        List.append_assoc]
      rfl
    · have hcnt : zero_cnt precision buf.length = 0 := by
        unfold zero_cnt
        omega
      rw [if_neg hmore, hcnt]
      rfl

/-- The digits with the zeros of the precision. -/
def digits_text (b : IntegerBase) (c : Conversion) (value : ℕ) : List Char :=
  List.replicate (zero_cnt (if c.precision < 0 then 1 else c.precision)
      (spelled b c.flags.group 0 value).length) '0'
    ++ (spelled b c.flags.group 0 value).reverse

/-- The zero that an octal number begins with under the `#` flag. -/
def octal_zero (b : IntegerBase) (c : Conversion) (value : ℕ) : List Char :=
  if c.flags.pound ∧ b.base = 8 ∧ (digits_text b c value).head? ≠ some '0' then ['0'] else []

/-- What the buffer holds in the end, as it is printed. -/
def buffer_text (b : IntegerBase) (c : Conversion) (value : ℕ) : List Char :=
  octal_zero b c value ++ digits_text b c value

theorem digits_text_length (hb : b.Sound) (hv : value < 2 ^ 64) (c : Conversion) :
    (digits_text b c value).length ≤ 63 := by
  have hlen := spelled_length_le hb c.flags.group hv
  rw [digits_text, List.length_append, List.length_replicate, List.length_reverse, zero_cnt]
  omega

theorem buffer_text_length (hb : b.Sound) (hv : value < 2 ^ 64) (c : Conversion) :
    (buffer_text b c value).length ≤ 64 := by
  have hlen := digits_text_length hb hv c
  rw [buffer_text, List.length_append, octal_zero]
  by_cases hoct : c.flags.pound ∧ b.base = 8 ∧ (digits_text b c value).head? ≠ some '0'
  · rw [if_pos hoct, List.length_singleton]
    omega
  · rw [if_neg hoct, List.length_nil]
    omega

/-! ## The text -/

/-- The pad characters that `format_integer` counts for a number of `n` characters with a prefix of
`x` and a sign of `s`. -/
def pad_cnt (ovf : ℤ → ℤ) (width : ℤ) (n x s : ℕ) : ℤ :=
  max 0 (int ovf (int ovf (int ovf (width - n) - x) - s))

/-- Sign, prefix and number in a field with `pad` characters more. -/
def in_field (f : Flags) (sign x number : List Char) (pad : ℤ) : List Char :=
  (if ¬f.minus ∧ ¬f.zero then output_dup ' ' pad else []) ++ sign ++ x
    ++ (if f.zero then output_dup '0' pad else []) ++ number
    ++ (if f.minus then output_dup ' ' pad else [])

/-- **`format_integer`** returns: it never writes outside its buffer. -/
theorem format_integer_eq (hb : b.Sound) (hv : value < 2 ^ 64) (ovf : ℤ → ℤ)
    (is_signed negative : Bool) (c : Conversion) :
    format_integer ovf value is_signed negative b c
      = .ok (in_field c.flags (sign_char c.flags is_signed negative).toList
          (x_text (x_char c.flags b value)) (buffer_text b c value)
          (pad_cnt ovf c.width (buffer_text b c value).length
            (x_text (x_char c.flags b value)).length
            (sign_char c.flags is_signed negative).toList.length)) := by
  have hspell := spelled_length_le hb c.flags.group hv
  have hdigits := hb.digits_length hv
  have hvalue := value_loop_eq hb c.flags.group 65 value 0 [] (by omega)
    (by rw [List.length_nil]; omega)
  rw [List.append_nil] at hvalue
  have hzeros := precision_loop_eq (if c.precision < 0 then 1 else c.precision) 64
    (spelled b c.flags.group 0 value).reverse (by rw [List.length_reverse]; omega)
    (by rw [List.length_reverse]; omega)
  rw [List.length_reverse] at hzeros
  have hmax : ∀ z : ℤ, (if z < 0 then 0 else z) = max 0 z := by
    intro z
    by_cases hz : z < 0
    · rw [if_pos hz, max_eq_left hz.le]
    · rw [if_neg hz, max_eq_right (not_lt.mp hz)]
  have htext : List.replicate (zero_cnt (if c.precision < 0 then 1 else c.precision)
      (spelled b c.flags.group 0 value).length) '0' ++ (spelled b c.flags.group 0 value).reverse
      = digits_text b c value := rfl
  simp only [format_integer, hvalue, ok_bind, hzeros, htext, hmax, pure_eq_ok]
  rw [buffer_text, octal_zero]
  by_cases hoct : c.flags.pound ∧ b.base = 8 ∧ (digits_text b c value).head? ≠ some '0'
  · have hlen := digits_text_length hb hv c
    rw [if_pos hoct, if_pos hoct, push_ok (by omega)]
    rfl
  · rw [if_neg hoct, if_neg hoct]
    rfl

/-! ## What it denotes -/

/-- `t` is a string of digits of the base and denotes `value`; the empty string denotes 0. -/
def Denotes (b : IntegerBase) (value : ℕ) (t : List Char) : Prop :=
  (∀ ch ∈ t, ch ∈ b.digits) ∧ t.foldl (fun n ch => n * b.base + b.digits.idxOf ch) 0 = value

/-- `sig` has commas behind every `b.group` digits, counted from the right, exactly when `group`
is set, and begins with none. -/
def Grouped (b : IntegerBase) (group : Bool) (sig : List Char) : Prop :=
  sig.head? ≠ some ',' ∧
    ∀ j ch, sig.reverse[j]? = some ch → (ch = ',' ↔ group ∧ j % (b.group + 1) = b.group)

/-- What a faithful conversion prints: spaces, the sign, the prefix, zeros, the significant digits
and spaces. The zeros and the digits without the commas denote the value. -/
def Faithful (b : IntegerBase) (f : Flags) (is_signed negative : Bool) (value : ℕ)
    (out : List Char) : Prop :=
  ∃ (left zeros right : ℕ) (sign sig : List Char),
    out = List.replicate left ' ' ++ sign ++ x_text (x_char f b value)
      ++ List.replicate zeros '0' ++ sig ++ List.replicate right ' ' ∧
    (sign = [] ∨ sign = ['+'] ∨ sign = ['-'] ∨ sign = [' ']) ∧
    (sign = ['-'] ↔ is_signed ∧ negative) ∧
    Denotes b value (List.replicate zeros '0' ++ sig.filter (fun ch => decide (ch ≠ ','))) ∧
    sig.head? ≠ some '0' ∧ Grouped b f.group sig

theorem sign_char_cases (f : Flags) (is_signed negative : Bool) :
    ((sign_char f is_signed negative).toList = [] ∨ (sign_char f is_signed negative).toList = ['+']
      ∨ (sign_char f is_signed negative).toList = ['-']
      ∨ (sign_char f is_signed negative).toList = [' ']) ∧
    ((sign_char f is_signed negative).toList = ['-'] ↔ is_signed ∧ negative) := by
  obtain ⟨-, plus, space, -, -, -⟩ := f
  cases is_signed <;> cases negative <;> cases plus <;> cases space <;>
    simp [sign_char]

/-- Without the commas the digits are left. -/
theorem filter_spelled (hb : b.Sound) (group : Bool) (value : ℕ) :
    (spelled b group 0 value).filter (fun ch => decide (ch ≠ ','))
      = (Nat.digits b.base value).map b.digit := by
  have hcomma := hb.no_comma_map value
  unfold spelled
  cases group with
  | false =>
    simp only [Bool.false_eq_true, if_false]
    rw [List.filter_eq_self]
    intro ch hch
    exact decide_eq_true (fun heq => hcomma (heq ▸ hch))
  | true =>
    simp only [if_true]
    exact filter_separated 0 hcomma

/-- The positional value of digits, the last one first. -/
theorem foldr_digits (hb : b.Sound) {l : List ℕ} (hl : ∀ d ∈ l, d < b.base) :
    (l.map b.digit).foldr (fun ch n => n * b.base + b.digits.idxOf ch) 0
      = Nat.ofDigits b.base l := by
  induction l with
  | nil => rfl
  | cons d l ih =>
    rw [List.map_cons, List.foldr_cons, ih (fun x hx => hl x (List.mem_cons_of_mem d hx)),
      hb.idxOf_digit (hl d List.mem_cons_self), Nat.ofDigits_cons]
    ring

/-- Leading zeros do not count. -/
theorem foldl_zeros (hb : b.Sound) (zeros : ℕ) :
    (List.replicate zeros '0').foldl (fun n ch => n * b.base + b.digits.idxOf ch) 0 = 0 := by
  induction zeros with
  | zero => rfl
  | succ zeros ih => rw [List.replicate_succ, List.foldl_cons, hb.zero, Nat.zero_mul, ih]

theorem denotes_digits (hb : b.Sound) (value zeros : ℕ) :
    Denotes b value
      (List.replicate zeros '0' ++ ((Nat.digits b.base value).map b.digit).reverse) := by
  have hbase := hb.base_ge
  have hdigits : ∀ d ∈ Nat.digits b.base value, d < b.base :=
    fun d hd => Nat.digits_lt_base (by omega) hd
  constructor
  · intro ch hch
    rcases List.mem_append.mp hch with hzero | hdigit
    · have hlt : b.digits.idxOf '0' < b.digits.length := by
        rw [hb.zero, hb.digits_len]
        omega
      rw [List.eq_of_mem_replicate hzero]
      exact List.idxOf_lt_length_iff.mp hlt
    · obtain ⟨d, hd, rfl⟩ := List.mem_map.mp (List.mem_reverse.mp hdigit)
      exact hb.digit_mem (hdigits d hd)
  · rw [List.foldl_append, foldl_zeros hb, List.foldl_reverse, foldr_digits hb hdigits,
      Nat.ofDigits_digits]

/-- The text begins with the first digit. -/
theorem head?_spelled (group : Bool) (value : ℕ) :
    (spelled b group 0 value).reverse.head? = (Nat.digits b.base value).getLast?.map b.digit := by
  rw [List.head?_reverse, ← List.getLast?_map]
  unfold spelled
  cases group with
  | false => rfl
  | true => exact getLast?_separated 0 _

/-- The first digit is significant. -/
theorem head?_spelled_ne (hb : b.Sound) (group : Bool) (value : ℕ) :
    (spelled b group 0 value).reverse.head? ≠ some '0' := by
  have hbase := hb.base_ge
  rw [head?_spelled]
  intro hzero
  by_cases hnil : Nat.digits b.base value = []
  · rw [hnil] at hzero
    cases hzero
  have hnonzero := Nat.getLast_digit_ne_zero b.base (m := value)
    (fun h0 => hnil (by rw [h0, Nat.digits_zero]))
  rw [List.getLast?_eq_some_getLast hnil] at hzero
  have hlt := Nat.digits_lt_base (show 1 < b.base by omega) (List.getLast_mem hnil)
  apply hnonzero
  rw [← hb.idxOf_digit hlt, Option.some.inj hzero, hb.zero]

theorem grouped_spelled (hb : b.Sound) (group : Bool) (value : ℕ) :
    Grouped b group (spelled b group 0 value).reverse := by
  have hcomma := hb.no_comma_map value
  have hgroup := hb.group_ge
  constructor
  · rw [head?_spelled, ← List.getLast?_map]
    exact fun hhead => hcomma (List.mem_of_getLast? hhead)
  intro j ch hch
  rw [List.reverse_reverse] at hch
  unfold spelled at hch
  cases group with
  | false =>
    simp only [Bool.false_eq_true, if_false] at hch
    refine iff_of_false (fun heq => hcomma ?_) (fun h => (by cases h.1))
    exact heq ▸ List.mem_of_getElem? hch
  | true =>
    simp only [if_true] at hch
    have hat := getElem?_separated (by omega) 0 hcomma hch
    have hstart : width b.group 0 = 0 := by rw [width, Nat.zero_sub, Nat.zero_div]
    rw [hstart, Nat.zero_add] at hat
    rw [hat]
    exact ⟨fun hmod => ⟨rfl, hmod⟩, fun h => h.2⟩

/-- A text in its field is faithful for every padding. -/
theorem faithful_in_field (hb : b.Sound) (c : Conversion) (is_signed negative : Bool) (value : ℕ)
    (pad : ℤ) :
    Faithful b c.flags is_signed negative value
      (in_field c.flags (sign_char c.flags is_signed negative).toList
        (x_text (x_char c.flags b value)) (buffer_text b c value) pad) := by
  obtain ⟨hsign, hminus⟩ := sign_char_cases c.flags is_signed negative
  have hdup : ∀ (p : Prop) [Decidable p] (ch : Char), (if p then output_dup ch pad else [])
      = List.replicate (if p then pad.toNat else 0) ch := by
    intro p _ ch
    by_cases hp : p
    · rw [if_pos hp, if_pos hp]
      rfl
    · rw [if_neg hp, if_neg hp]
      rfl
  obtain ⟨o, ho⟩ : ∃ o, octal_zero b c value = List.replicate o '0' := by
    unfold octal_zero
    by_cases hoct : c.flags.pound ∧ b.base = 8 ∧ (digits_text b c value).head? ≠ some '0'
    · exact ⟨1, by rw [if_pos hoct]; rfl⟩
    · exact ⟨0, by rw [if_neg hoct]; rfl⟩
  have hfilter : (spelled b c.flags.group 0 value).reverse.filter (fun ch => decide (ch ≠ ','))
      = ((Nat.digits b.base value).map b.digit).reverse := by
    rw [List.filter_reverse, filter_spelled hb]
  refine ⟨if ¬c.flags.minus ∧ ¬c.flags.zero then pad.toNat else 0,
    (if c.flags.zero then pad.toNat else 0) + o
      + zero_cnt (if c.precision < 0 then 1 else c.precision)
        (spelled b c.flags.group 0 value).length,
    if c.flags.minus then pad.toNat else 0, (sign_char c.flags is_signed negative).toList,
    (spelled b c.flags.group 0 value).reverse, ?_, hsign, hminus, ?_,
    head?_spelled_ne hb c.flags.group value, grouped_spelled hb c.flags.group value⟩
  · rw [in_field, hdup, hdup, hdup, buffer_text, ho, digits_text, List.replicate_add,
      List.replicate_add]
    simp only [List.append_assoc]
  · rw [hfilter]
    exact denotes_digits hb value _

/-- **Integer formatting is faithful.** For every value, sign, base, flags, width and precision,
`format_integer` returns, so it does not write outside its buffer, and what it prints is the sign,
the prefix and the digits of the value, padded, with leading zeros, and with commas exactly under
the flag that asks for them. -/
theorem format_integer_faithful (ovf : ℤ → ℤ) (value : ℕ) (is_signed negative : Bool)
    (b : IntegerBase) (c : Conversion) (hb : IsBase b) (hv : value < 2 ^ 64) :
    ∃ out, format_integer ovf value is_signed negative b c = .ok out ∧
      Faithful b c.flags is_signed negative value out :=
  ⟨_, format_integer_eq hb.sound hv ovf is_signed negative c,
    faithful_in_field hb.sound c is_signed negative value _⟩

/-- `%'08d` of -1234. -/
theorem format_integer_faithful_grouped :
    ∃ out, format_integer id 1234 true true base_d ⟨{ zero := true, group := true }, 8, -1, .INT⟩
      = .ok out ∧ Faithful base_d { zero := true, group := true } true true 1234 out :=
  format_integer_faithful id 1234 true true base_d ⟨{ zero := true, group := true }, 8, -1, .INT⟩
    (Or.inl rfl) (by decide)

end Pintos.Lib
