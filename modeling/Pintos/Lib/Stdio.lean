/-
`lib/stdio.c`: `__vprintf` and what it calls.

A format is a string that ends with the NUL behind its last character; reading further ends the
run with `Fault.bounds`, and so does a write behind the 64 bytes of `format_integer`'s buffer. The
loops have fuel. The text is returned instead of being passed to `output` character by character.

An argument list never ends here, and each argument can be read as the type the conversion asks
for. A signed sum that is no `int` is not defined by the language; `ovf` says what the machine
makes of it, and the results hold for every `ovf`.
-/
import Pintos.Base

set_option autoImplicit false

namespace Pintos.Lib

/-! ## Strings, arguments and integers -/

/-- `'\0'`. -/
def NUL : Char := Char.ofNat 0

/-- A NUL-terminated string. -/
structure CString where
  /-- The characters before the NUL. -/
  chars : List Char
  nonul : ∀ ch ∈ chars, ch ≠ NUL

/-- The character at an index: the NUL is the last one that can be read. -/
def CString.read (s : CString) (i : ℕ) : Res Char :=
  if i ≤ s.chars.length then .ok (s.chars.getD i NUL) else .error .bounds

/-- What `va_arg` finds, as an integer and as a string. -/
structure Args where
  int : ℕ → ℤ
  str : ℕ → Option CString

/-- A sum of the type `int`. -/
def int (ovf : ℤ → ℤ) (z : ℤ) : ℤ := if -2 ^ 31 ≤ z ∧ z < 2 ^ 31 then z else ovf z

/-- A sum of the type `intmax_t`. -/
def intmax (ovf : ℤ → ℤ) (z : ℤ) : ℤ := if -2 ^ 63 ≤ z ∧ z < 2 ^ 63 then z else ovf z

/-- `va_arg (args, int)`. -/
def Args.va_int (args : Args) (k : ℕ) : ℤ := (args.int k).bmod (2 ^ 32)

/-! ## Conversions -/

/-- The flags of a conversion: `MINUS`, `PLUS`, `SPACE`, `POUND`, `ZERO` and `GROUP`. -/
structure Flags where
  minus : Bool := false
  plus : Bool := false
  space : Bool := false
  pound : Bool := false
  zero : Bool := false
  group : Bool := false
  deriving DecidableEq, Repr

/-- The types of the arguments. -/
inductive ArgType
  | CHAR | SHORT | INT | INTMAX | LONG | LONGLONG | PTRDIFFT | SIZET
  deriving DecidableEq, Repr

/-- `struct printf_conversion`. -/
structure Conversion where
  flags : Flags
  width : ℤ
  precision : ℤ
  type : ArgType
  deriving DecidableEq, Repr

/-- `struct integer_base`; no `x` is 0 in the source. -/
structure IntegerBase where
  base : ℕ
  digits : List Char
  x : Option Char
  group : ℕ
  deriving DecidableEq, Repr

def base_d : IntegerBase := ⟨10, "0123456789".toList, none, 3⟩
def base_o : IntegerBase := ⟨8, "01234567".toList, none, 3⟩
def base_x : IntegerBase := ⟨16, "0123456789abcdef".toList, some 'x', 4⟩
def base_X : IntegerBase := ⟨16, "0123456789ABCDEF".toList, some 'X', 4⟩

/-! ## `parse_conversion` -/

/-- `isdigit`. -/
def isdigit (ch : Char) : Bool := decide ('0' ≤ ch ∧ ch ≤ '9')

/-- The cases of the first `switch`: what a flag character sets. -/
def flag_case (ch : Char) : Option (Flags → Flags) :=
  if ch = '-' then some (fun f => { f with minus := true })
  else if ch = '+' then some (fun f => { f with plus := true })
  else if ch = ' ' then some (fun f => { f with space := true })
  else if ch = '#' then some (fun f => { f with pound := true })
  else if ch = '0' then some (fun f => { f with zero := true })
  else if ch = Char.ofNat 39 then some (fun f => { f with group := true })
  else none

/-- The loop over the flag characters. -/
def flags_loop (s : CString) : ℕ → ℕ → Flags → Res (ℕ × Flags)
  | 0, _, _ => .error .diverge
  | fuel + 1, i, f => do
    let ch ← s.read i
    match flag_case ch with
    | some set => flags_loop s fuel (i + 1) (set f)
    | none => return (i, f)

/-- `MINUS` overrides `ZERO`, and `PLUS` overrides `SPACE`. -/
def Flags.normal (f : Flags) : Flags :=
  { f with zero := f.zero && !f.minus, space := f.space && !f.plus }

/-- `n * 10 + *format - '0'`. -/
def add_digit (ovf : ℤ → ℤ) (n : ℤ) (ch : Char) : ℤ :=
  int ovf (int ovf (int ovf (n * 10) + ch.toNat) - '0'.toNat)

/-- `for (; isdigit (*format); format++)`. -/
def digits_loop (ovf : ℤ → ℤ) (s : CString) : ℕ → ℕ → ℤ → Res (ℕ × ℤ)
  | 0, _, _ => .error .diverge
  | fuel + 1, i, n => do
    let ch ← s.read i
    if isdigit ch then digits_loop ovf s fuel (i + 1) (add_digit ovf n ch)
    else return (i, n)

/-- `*` or a number: the position behind it, the next argument, and the value. -/
def parse_number (ovf : ℤ → ℤ) (fuel : ℕ) (s : CString) (args : Args) (i k : ℕ) :
    Res (ℕ × ℕ × ℤ) := do
  let ch ← s.read i
  if ch = '*' then return (i + 1, k + 1, args.va_int k)
  else do
    let r ← digits_loop ovf s fuel i 0
    return (r.1, k, r.2)

/-- Parse field width. -/
def parse_width (ovf : ℤ → ℤ) (fuel : ℕ) (s : CString) (args : Args) (i k : ℕ) (f : Flags) :
    Res (ℕ × ℕ × ℤ × Flags) := do
  let r ← parse_number ovf fuel s args i k
  if r.2.2 < 0 then return (r.1, r.2.1, int ovf (-r.2.2), { f with minus := true })
  else return (r.1, r.2.1, r.2.2, f)

/-- Parse precision. -/
def parse_precision (ovf : ℤ → ℤ) (fuel : ℕ) (s : CString) (args : Args) (i k : ℕ) :
    Res (ℕ × ℕ × ℤ) := do
  let ch ← s.read i
  if ch = '.' then do
    let r ← parse_number ovf fuel s args (i + 1) k
    return (r.1, r.2.1, if r.2.2 < 0 then -1 else r.2.2)
  else return (i, k, -1)

/-- Parse type. -/
def parse_type (s : CString) (i : ℕ) : Res (ℕ × ArgType) := do
  let ch ← s.read i
  if ch = 'h' then do
    let ch ← s.read (i + 1)
    return if ch = 'h' then (i + 2, .CHAR) else (i + 1, .SHORT)
  else if ch = 'j' then return (i + 1, .INTMAX)
  else if ch = 'l' then do
    let ch ← s.read (i + 1)
    return if ch = 'l' then (i + 2, .LONGLONG) else (i + 1, .LONG)
  else if ch = 't' then return (i + 1, .PTRDIFFT)
  else if ch = 'z' then return (i + 1, .SIZET)
  else return (i, .INT)

/-- `parse_conversion`: the position of the conversion character, the next argument, and `c`. -/
def parse_conversion (ovf : ℤ → ℤ) (fuel : ℕ) (s : CString) (args : Args) (i k : ℕ) :
    Res (ℕ × ℕ × Conversion) := do
  let f ← flags_loop s fuel i {}
  let w ← parse_width ovf fuel s args f.1 k f.2.normal
  let p ← parse_precision ovf fuel s args w.1 w.2.1
  let flags := if 0 ≤ p.2.2 then { w.2.2.2 with zero := false } else w.2.2.2
  let t ← parse_type s p.1
  return (t.1, p.2.1, ⟨flags, w.2.2.1, p.2.2, t.2⟩)

/-! ## `format_integer` -/

/-- `*cp++ = ch`: the buffer from its last character on. -/
def push (buf : List Char) (ch : Char) : Res (List Char) :=
  if buf.length < 64 then .ok (ch :: buf) else .error .bounds

/-- `while (value > 0)`. No `uintmax_t` has more than 64 digits. -/
def value_loop (b : IntegerBase) (group : Bool) : ℕ → ℕ → ℕ → List Char → Res (List Char)
  | 0, _, _, _ => .error .diverge
  | fuel + 1, value, digit_cnt, buf =>
    if 0 < value then do
      let buf ← if group ∧ 0 < digit_cnt ∧ digit_cnt % b.group = 0 then push buf ',' else .ok buf
      let buf ← push buf (b.digits.getD (value % b.base) NUL)
      value_loop b group fuel (value / b.base) (digit_cnt + 1) buf
    else .ok buf

/-- `while (cp - buf < precision && cp < buf + sizeof buf - 1)`. -/
def precision_loop (precision : ℤ) : ℕ → List Char → Res (List Char)
  | 0, _ => .error .diverge
  | fuel + 1, buf =>
    if buf.length < precision ∧ buf.length < 64 - 1 then do
      let buf ← push buf '0'
      precision_loop precision fuel buf
    else .ok buf

/-- The sign character, if any. -/
def sign_char (f : Flags) (is_signed negative : Bool) : Option Char :=
  if is_signed then
    if f.plus then some (if negative then '-' else '+')
    else if f.space then some (if negative then '-' else ' ')
    else if negative then some '-' else none
  else none

/-- The `x` of the prefix, if any. -/
def x_char (f : Flags) (b : IntegerBase) (value : ℕ) : Option Char :=
  if f.pound ∧ 0 < value then b.x else none

/-- `0x` or `0X`. -/
def x_text : Option Char → List Char
  | some x => ['0', x]
  | none => []

/-- `output_dup`. -/
def output_dup (ch : Char) (cnt : ℤ) : List Char := List.replicate cnt.toNat ch

/-- `format_integer`. -/
def format_integer (ovf : ℤ → ℤ) (value : ℕ) (is_signed negative : Bool) (b : IntegerBase)
    (c : Conversion) : Res (List Char) := do
  let sign := sign_char c.flags is_signed negative
  let x := x_char c.flags b value
  let buf ← value_loop b c.flags.group 65 value 0 []
  let precision := if c.precision < 0 then 1 else c.precision
  let buf ← precision_loop precision 64 buf
  let buf ← if c.flags.pound ∧ b.base = 8 ∧ buf.head? ≠ some '0' then push buf '0' else .ok buf
  let pad_cnt := int ovf (int ovf (int ovf (c.width - buf.length) - (x_text x).length)
    - sign.toList.length)
  let pad_cnt := if pad_cnt < 0 then 0 else pad_cnt
  return (if ¬c.flags.minus ∧ ¬c.flags.zero then output_dup ' ' pad_cnt else [])
    ++ sign.toList ++ x_text x
    ++ (if c.flags.zero then output_dup '0' pad_cnt else [])
    ++ buf
    ++ (if c.flags.minus then output_dup ' ' pad_cnt else [])

/-- `format_string`. -/
def format_string (string : List Char) (c : Conversion) : List Char :=
  (if string.length < c.width ∧ ¬c.flags.minus then output_dup ' ' (c.width - string.length)
    else [])
    ++ string
    ++ (if string.length < c.width ∧ c.flags.minus then output_dup ' ' (c.width - string.length)
      else [])

/-! ## `__vprintf` -/

/-- The value of a signed integer conversion. -/
def signed_arg (type : ArgType) (v : ℤ) : ℤ :=
  match type with
  | .CHAR => v.bmod (2 ^ 8)
  | .SHORT => v.bmod (2 ^ 16)
  | .INT | .LONG | .PTRDIFFT => v.bmod (2 ^ 32)
  | .INTMAX | .LONGLONG => v.bmod (2 ^ 64)
  | .SIZET =>
    let value := v % 2 ^ 32
    if (2 ^ 32 - 1) / 2 < value then value - (2 ^ 32 - 1) - 1 else value

/-- The value of an unsigned integer conversion. -/
def unsigned_arg (type : ArgType) (v : ℤ) : ℕ :=
  match type with
  | .CHAR => (v % 2 ^ 8).toNat
  | .SHORT => (v % 2 ^ 16).toNat
  | .INT | .LONG | .PTRDIFFT | .SIZET => (v % 2 ^ 32).toNat
  | .INTMAX | .LONGLONG => (v % 2 ^ 64).toNat

/-- `value < 0 ? -value : value`, passed as a `uintmax_t`. -/
def magnitude (ovf : ℤ → ℤ) (value : ℤ) : ℕ :=
  ((if value < 0 then intmax ovf (-value) else value) % 2 ^ 64).toNat

/-- The base of an unsigned integer conversion. -/
def unsigned_base (ch : Char) : IntegerBase :=
  if ch = 'o' then base_o else if ch = 'u' then base_d else if ch = 'x' then base_x else base_X

/-- The argument of `%s`, up to the precision: `strnlen (s, c.precision)` takes the precision as a
`size_t`. -/
def string_arg (s : Option CString) (precision : ℤ) : List Char :=
  (match s with
    | some s => s.chars
    | none => "(null)".toList).take (precision % 2 ^ 32).toNat

/-- What is printed instead of a conversion that the kernel leaves out. -/
def no_in_kernel : CString := ⟨"<<no %%%c in kernel>>".toList, by simp [NUL]⟩

/-- What is printed instead of an unknown conversion. -/
def no_conversion : CString := ⟨"<<no %%%c conversion>>".toList, by simp [NUL]⟩

/-- The conversion: its text and the next argument. `printf` is `__printf` with a format and one
character. -/
def convert (ovf : ℤ → ℤ) (printf : CString → Char → Res (List Char)) (args : Args) (ch : Char)
    (c : Conversion) (k : ℕ) : Res (List Char × ℕ) :=
  if ch = 'd' ∨ ch = 'i' then do
    let value := signed_arg c.type (args.int k)
    let text ← format_integer ovf (magnitude ovf value) true (value < 0) base_d c
    return (text, k + 1)
  else if ch = 'o' ∨ ch = 'u' ∨ ch = 'x' ∨ ch = 'X' then do
    let value := unsigned_arg c.type (args.int k)
    let text ← format_integer ovf value false false (unsigned_base ch) c
    return (text, k + 1)
  else if ch = 'c' then
    return (format_string [Char.ofNat (args.int k % 2 ^ 8).toNat] c, k + 1)
  else if ch = 's' then
    return (format_string (string_arg (args.str k) c.precision) c, k + 1)
  else if ch = 'p' then do
    let p := (args.int k % 2 ^ 32).toNat
    let text ← format_integer ovf p false false base_x { c with flags := { pound := true } }
    return (text, k + 1)
  else if ch = 'f' ∨ ch = 'e' ∨ ch = 'E' ∨ ch = 'g' ∨ ch = 'G' ∨ ch = 'n' then do
    let text ← printf no_in_kernel ch
    return (text, k)
  else do
    let text ← printf no_conversion ch
    return (text, k)

/-- The argument list of `__printf` with one character. -/
def char_args (ch : Char) : Args := ⟨fun k => if k = 0 then ch.toNat else 0, fun _ => none⟩

/-- The loop of `__vprintf` at a position of the format and an argument. -/
def vprintf_loop (ovf : ℤ → ℤ) : ℕ → CString → Args → ℕ → ℕ → Res (List Char)
  | 0, _, _, _, _ => .error .diverge
  | fuel + 1, s, args, i, k => do
    let ch ← s.read i
    if ch = NUL then return []
    else if ch ≠ '%' then do
      let rest ← vprintf_loop ovf fuel s args (i + 1) k
      return ch :: rest
    else do
      let ch ← s.read (i + 1)
      if ch = '%' then do
        let rest ← vprintf_loop ovf fuel s args (i + 2) k
        return '%' :: rest
      else do
        let r ← parse_conversion ovf fuel s args (i + 1) k
        let ch ← s.read r.1
        let t ← convert ovf (fun f ch => vprintf_loop ovf fuel f (char_args ch) 0 0) args ch
          r.2.2 r.2.1
        let rest ← vprintf_loop ovf fuel s args (r.1 + 1) t.2
        return t.1 ++ rest

/-- `__vprintf`. -/
def vprintf (ovf : ℤ → ℤ) (fuel : ℕ) (s : CString) (args : Args) : Res (List Char) :=
  vprintf_loop ovf fuel s args 0 0

end Pintos.Lib
