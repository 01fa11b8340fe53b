/-
`userprog/process.c`: `setup_stack`, which puts the command line on the stack of a new
process.

The stack grows down from `PHYS_BASE`. The strings go first, the last one highest; then a
byte of padding, a null pointer, the pointers to the strings, a pointer to the first of
them, their number and a return address. Every store moves `*esp` down by as many bytes as
it copies, so the stack is the list of what was pushed (`Holds`), and reading it back is
reading that list.

Nothing compares the number of tokens with the size of the arrays `args` and `arg_ptr`, nor
the bytes pushed with the page. Addresses are numbers; a command line is shorter than a page,
and a stack of it stays far above zero. The frame for the page is taken to be there.
-/
import Pintos.Library.WordImage
import Pintos.Filesys.Path
import Pintos.Userprog.Syscall

set_option autoImplicit false

namespace Pintos.Userprog.ArgStack

open Pintos.Filesys (Str token_loop token_loop_splitOn)
open Pintos.Userprog (PHYS_BASE PGSIZE)
open WordImage

/-- The character `' '`. -/
def space : UInt8 := 32

/-- User memory, as far as the stack goes, with the addresses that were written. -/
structure UserStack where
  esp : ℕ
  mem : ℕ → UInt8
  written : List ℕ

/-- `*esp = *esp - n; memcpy (*esp, src, n)`, with `n` the bytes of `src`. -/
def UserStack.push (s : UserStack) (src : List UInt8) : UserStack where
  esp := s.esp - src.length
  mem := fun a =>
    if s.esp - src.length ≤ a then (src[a - (s.esp - src.length)]?).getD (s.mem a) else s.mem a
  written := s.written ++ List.range' (s.esp - src.length) src.length

/-- The bytes of a 32-bit word. -/
def le32 (w : ℕ) : List UInt8 := (List.range 4).map (ofWords fun _ => w)

/-- The size of `args` and of `arg_ptr`. -/
def ARGS_LEN : ℕ := 30

/-- The loop over the tokens: `args[argc] = token; argc++`. -/
def args_loop : (args tokens : List Str) → Res (List Str)
  | args, [] => .ok args
  | args, token :: tokens =>
    if ARGS_LEN ≤ args.length then .error .bounds else args_loop (args ++ [token]) tokens

/-- The loop over `i = argc - 1 .. 0` that copies the strings and keeps their addresses. -/
def strings_loop (args : List Str) : (n : ℕ) → UserStack → (ℕ → ℕ) → UserStack × (ℕ → ℕ)
  | 0, s, arg_ptr => (s, arg_ptr)
  | n + 1, s, arg_ptr =>
    let s := s.push (args.getD n [] ++ [0])
    strings_loop args n s (Function.update arg_ptr n s.esp)

/-- The loop over `i = argc - 1 .. 0` that copies the pointers. -/
def pointers_loop (arg_ptr : ℕ → ℕ) : (n : ℕ) → UserStack → UserStack
  | 0, s => s
  | n + 1, s => pointers_loop arg_ptr n (s.push (le32 (arg_ptr n)))

/-- `setup_stack`. `installed` is what `install_page` returns. -/
def setup_stack (installed : Bool) (file_name : Str) (mem : ℕ → UInt8) :
    Res (Bool × UserStack) :=
  if installed then do
    let args ← args_loop [] (token_loop [space] (file_name.length + 1) file_name)
    let r := strings_loop args args.length ⟨PHYS_BASE, mem, []⟩ (fun _ => 0)
    -- the padding byte, and the pointer of `argv[argc]`
    let s := (r.1.push [0]).push [0, 0, 0, 0]
    let s := pointers_loop r.2 args.length s
    -- `temp = *esp+4` is `*esp` before it was moved
    let s := s.push (le32 s.esp)
    let s := s.push (le32 args.length)
    let s := s.push [0, 0, 0, 0]
    return (true, s)
  else .ok (false, ⟨PHYS_BASE, mem, []⟩)

/-! ## Reading the stack back -/

/-- The 32-bit word at an address. -/
def load_word (mem : ℕ → UInt8) (a : ℕ) : ℕ := word (fun j => mem (a + j)) 0

/-- The string at an address, of less than `fuel` characters. -/
def load_string (mem : ℕ → UInt8) : (fuel a : ℕ) → Option Str
  | 0, _ => none
  | fuel + 1, a =>
    if mem a = 0 then some [] else (load_string mem fuel (a + 1)).map (fun t => mem a :: t)

/-- What a program finds on its stack: `argc` at `esp + 4`, `argv` at `esp + 8`, strings
that end in the page's end at the latest, and a null pointer behind them. -/
structure ReadsBack (mem : ℕ → UInt8) (esp : ℕ) (args : List Str) : Prop where
  argc : load_word mem (esp + 4) = args.length
  argv : ∀ (i : ℕ) (hi : i < args.length),
    load_string mem PGSIZE (load_word mem (load_word mem (esp + 8) + 4 * i)) =
      some (args.get ⟨i, hi⟩)
  null : load_word mem (load_word mem (esp + 8) + 4 * args.length) = 0

/-- The tokens of a command line: its runs of characters other than spaces. -/
def command_args (file_name : Str) : List Str :=
  (file_name.splitOn space).filter (fun t => t ≠ [])

/-- The call returns, with no subscript out of range, and if it returns true then it wrote
in the page below `PHYS_BASE` only and the arguments are read back. -/
def PassesArguments (file_name : Str) : Prop :=
  ∀ installed mem, ∃ ok s, setup_stack installed file_name mem = .ok (ok, s) ∧
    (ok = true → (∀ a ∈ s.written, PHYS_BASE - PGSIZE ≤ a ∧ a < PHYS_BASE) ∧
      ReadsBack s.mem s.esp (command_args file_name))

/-- The bytes of the strings, with their zeros. -/
def strings_size (args : List Str) : ℕ := (args.map (fun t => t.length + 1)).sum

/-- The bytes `setup_stack` pushes: the strings, the padding, the pointers with their null
pointer, `argv`, `argc` and the return address. -/
def stack_size (args : List Str) : ℕ := strings_size args + 1 + 4 * (args.length + 1) + 12

/-! ## What is pushed -/

/-- The bytes at an address. -/
def Stored (mem : ℕ → UInt8) (a : ℕ) (l : List UInt8) : Prop :=
  ∀ (j : ℕ) (hj : j < l.length), mem (a + j) = l.get ⟨j, hj⟩

/-- The stack holds the bytes `l`, and they are what was written. -/
structure Holds (s : UserStack) (l : List UInt8) : Prop where
  esp : s.esp + l.length = PHYS_BASE
  mem : Stored s.mem s.esp l
  written : ∀ a, a ∈ s.written ↔ s.esp ≤ a ∧ a < PHYS_BASE

section Stored

variable {mem : ℕ → UInt8} {a : ℕ} {l m : List UInt8}

theorem Stored.left (h : Stored mem a (l ++ m)) : Stored mem a l := by
  intro j hj
  rw [h j (by rw [List.length_append]; omega)]
  exact List.getElem_append_left hj

theorem Stored.right (h : Stored mem a (l ++ m)) : Stored mem (a + l.length) m := by
  intro j hj
  rw [Nat.add_assoc, h (l.length + j) (by rw [List.length_append]; omega)]
  simp only [List.get_eq_getElem]
  rw [List.getElem_append_right (Nat.le_add_right _ _)]
  simp only [Nat.add_sub_cancel_left]

/-- A word is read back as it was stored. -/
theorem Stored.load_word {w : ℕ} (h : Stored mem a (le32 w)) (hw : w < 2 ^ 32) :
    load_word mem a = w := by
  have hbyte : ∀ j < 4, mem (a + j) = ofWords (fun _ => w) j := by
    intro j hj
    have hlen : j < (le32 w).length := hj
    rw [h j hlen]
    simp [le32]
  have hround := word_ofWords (fun _ => w) 0 hw
  unfold ArgStack.load_word
  rw [← hround]
  simp only [word, Nat.mul_zero, Nat.zero_add]
  rw [hbyte 0 (by omega), hbyte 1 (by omega), hbyte 2 (by omega), hbyte 3 (by omega)]

/-- A string is read back as it was stored. -/
theorem Stored.load_string {t : Str} (hzero : (0 : UInt8) ∉ t) : ∀ {a fuel : ℕ},
    Stored mem a (t ++ [0]) → t.length < fuel → load_string mem fuel a = some t := by
  induction t with
  | nil =>
    intro a fuel h hfuel
    obtain ⟨fuel, rfl⟩ := Nat.exists_eq_succ_of_ne_zero (by omega : fuel ≠ 0)
    have hend : mem a = 0 := h 0 (by simp)
    rw [ArgStack.load_string, if_pos hend]
  | cons c t ih =>
    intro a fuel h hfuel
    rw [List.length_cons] at hfuel
    obtain ⟨fuel, rfl⟩ := Nat.exists_eq_succ_of_ne_zero (by omega : fuel ≠ 0)
    have hc : mem a = c := h 0 (by simp)
    have hne : mem a ≠ 0 := by
      rw [hc]
      exact fun h0 => hzero (h0 ▸ List.mem_cons_self)
    have hrest : Stored mem (a + 1) (t ++ [0]) := @Stored.right mem a [c] (t ++ [0]) h
    rw [ArgStack.load_string, if_neg hne,
      ih (fun hmem => hzero (List.mem_cons_of_mem _ hmem)) hrest (by omega), hc]
    rfl

end Stored

section Push

variable {s : UserStack} {l b : List UInt8}

/-- **A push** puts its bytes in front. -/
theorem Holds.push (h : Holds s l) (hroom : b.length ≤ s.esp) : Holds (s.push b) (b ++ l) where
  esp := by
    have hesp := h.esp
    change s.esp - b.length + (b ++ l).length = PHYS_BASE
    rw [List.length_append]
    omega
  mem := by
    intro j hj
    change (if s.esp - b.length ≤ s.esp - b.length + j then
      (b[s.esp - b.length + j - (s.esp - b.length)]?).getD (s.mem (s.esp - b.length + j))
      else s.mem (s.esp - b.length + j)) = _
    rw [if_pos (Nat.le_add_right _ _), Nat.add_sub_cancel_left, List.get_eq_getElem]
    by_cases hjb : j < b.length
    · rw [List.getElem_append_left hjb, List.getElem?_eq_getElem hjb, Option.getD_some]
    · -- behind the bytes pushed nothing changes
      have hle : b.length ≤ j := Nat.le_of_not_lt hjb
      rw [List.length_append] at hj
      have hold := h.mem (j - b.length) (by omega)
      rw [List.getElem_append_right hle, List.getElem?_eq_none hle, Option.getD_none,
        show s.esp - b.length + j = s.esp + (j - b.length) by omega, hold]
      rfl
  written := by
    intro a
    have hesp := h.esp
    change a ∈ s.written ++ List.range' (s.esp - b.length) b.length ↔
      s.esp - b.length ≤ a ∧ a < PHYS_BASE
    rw [List.mem_append, h.written, List.mem_range'_1]
    omega

theorem holds_start (mem : ℕ → UInt8) : Holds ⟨PHYS_BASE, mem, []⟩ [] where
  esp := rfl
  mem := by
    intro j hj
    cases hj
  written := by
    intro a
    simp only [List.not_mem_nil, false_iff]
    omega

end Push

/-! ## The loops -/

section Loops

variable {s : UserStack} {l : List UInt8}

/-- Pushing `f (n - 1)`, …, `f 0`. -/
def push_down (f : ℕ → List UInt8) : ℕ → UserStack → UserStack
  | 0, s => s
  | n + 1, s => push_down f n (s.push (f n))

/-- What is pushed from the last to the first lies in order. -/
theorem Holds.push_down {f : ℕ → List UInt8} {n : ℕ} (h : Holds s l)
    (hroom : ((List.range n).flatMap f).length ≤ s.esp) :
    Holds (push_down f n s) ((List.range n).flatMap f ++ l) := by
  induction n generalizing s l with
  | zero => exact h
  | succ n ih =>
    rw [List.range_succ, List.flatMap_append, List.length_append] at hroom
    have hone : (List.flatMap f [n]) = f n := by
      rw [List.flatMap_cons, List.flatMap_nil, List.append_nil]
    rw [hone] at hroom
    rw [List.range_succ, List.flatMap_append, hone, List.append_assoc]
    have hpush := h.push (b := f n) (by omega)
    refine ih hpush ?_
    change _ ≤ s.esp - (f n).length
    omega

theorem pointers_loop_eq (arg_ptr : ℕ → ℕ) (n : ℕ) (s : UserStack) :
    pointers_loop arg_ptr n s = push_down (fun i => le32 (arg_ptr i)) n s := by
  induction n generalizing s with
  | zero => rfl
  | succ n ih =>
    rw [pointers_loop, ih]
    rfl

/-- The bytes of string `i`. -/
def string_bytes (args : List Str) (i : ℕ) : List UInt8 := args.getD i [] ++ [0]

/-- The strings are pushed down, and the address kept for string `k` is where it was put:
the bytes of the strings from `k` on are above it. -/
theorem strings_loop_spec (args : List Str) : ∀ (n : ℕ) (s : UserStack) (arg_ptr : ℕ → ℕ),
    ((List.range n).flatMap (string_bytes args)).length ≤ s.esp →
    (strings_loop args n s arg_ptr).1 = push_down (string_bytes args) n s ∧
      ∀ k, (strings_loop args n s arg_ptr).2 k =
        if k < n then s.esp - ((List.range' k (n - k)).flatMap (string_bytes args)).length
        else arg_ptr k := by
  intro n
  induction n with
  | zero =>
    intro s arg_ptr _
    exact ⟨rfl, fun k => by rw [if_neg (Nat.not_lt_zero k)]; rfl⟩
  | succ n ih =>
    intro s arg_ptr hroom
    rw [List.range_succ, List.flatMap_append, List.length_append, List.flatMap_cons,
      List.flatMap_nil, List.append_nil] at hroom
    have hesp : (s.push (string_bytes args n)).esp = s.esp - (string_bytes args n).length := rfl
    obtain ⟨hs, hptr⟩ := ih (s.push (string_bytes args n))
      (Function.update arg_ptr n (s.push (string_bytes args n)).esp) (by rw [hesp]; omega)
    rw [strings_loop]
    refine ⟨hs, fun k => ?_⟩
    change (strings_loop args n (s.push (string_bytes args n))
      (Function.update arg_ptr n (s.push (string_bytes args n)).esp)).2 k = _
    rw [hptr, hesp]
    rcases Nat.lt_trichotomy k n with hk | rfl | hk
    · have hlast : List.range' k (n + 1 - k) = List.range' k (n - k) ++ [n] := by
        rw [show n + 1 - k = (n - k) + 1 by omega, List.range'_concat]
        simp only [Nat.one_mul]
        rw [show k + (n - k) = n by omega]
      rw [if_pos hk, if_pos (by omega), hlast, List.flatMap_append, List.length_append,
        List.flatMap_cons, List.flatMap_nil, List.append_nil]
      omega
    · have hself : List.range' k (k + 1 - k) = [k] := by
        rw [show k + 1 - k = 1 by omega]
        rfl
      rw [if_neg (Nat.lt_irrefl k), if_pos (Nat.lt_succ_self k), Function.update_self, hself,
        List.flatMap_cons, List.flatMap_nil, List.append_nil]
    · rw [if_neg (by omega), if_neg (by omega), Function.update_of_ne (by omega)]

/-- The loop over the tokens keeps them all, or runs past the array. -/
theorem args_loop_eq : ∀ tokens args : List Str, args_loop args tokens =
    if tokens = [] ∨ args.length + tokens.length ≤ ARGS_LEN then .ok (args ++ tokens)
    else .error .bounds := by
  intro tokens
  induction tokens with
  | nil =>
    intro args
    rw [args_loop, if_pos (Or.inl rfl), List.append_nil]
  | cons token tokens ih =>
    intro args
    have hlen : (token :: tokens).length = tokens.length + 1 := rfl
    have hlen' : (args ++ [token]).length = args.length + 1 := by
      rw [List.length_append, List.length_singleton]
    rw [args_loop]
    by_cases hfull : ARGS_LEN ≤ args.length
    · rw [if_pos hfull, if_neg]
      rintro (hnil | hle)
      · cases hnil
      · omega
    · rw [if_neg hfull, ih, hlen']
      by_cases hfit : args.length + (token :: tokens).length ≤ ARGS_LEN
      · rw [if_pos (Or.inr (by omega)), if_pos (Or.inr hfit), List.append_assoc,
          List.singleton_append]
      · rw [if_neg, if_neg]
        · rintro (hnil | hle)
          · cases hnil
          · exact hfit hle
        · rintro (hnil | hle)
          · have hzero : tokens.length = 0 := by rw [hnil, List.length_nil]
            omega
          · omega

theorem push_down_congr {f g : ℕ → List UInt8} {n : ℕ} (h : ∀ i < n, f i = g i) :
    push_down f n s = push_down g n s := by
  induction n generalizing s with
  | zero => rfl
  | succ n ih =>
    rw [push_down, push_down, h n (Nat.lt_succ_self n)]
    exact ih fun i hi => h i (Nat.lt_succ_of_lt hi)

end Loops

/-! ## The tokens of a command line -/

section Tokens

/-- The parts of a string with the delimiters between them. -/
theorem splitOn_size (d : UInt8) (s : Str) : strings_size (s.splitOn d) = s.length + 1 := by
  induction s with
  | nil => rfl
  | cons c s ih =>
    unfold strings_size at ih ⊢
    by_cases hc : c = d
    · rw [hc, Filesys.splitOn_cons_self, List.map_cons, List.sum_cons, ih, List.length_nil,
        List.length_cons]
      omega
    · obtain ⟨t, l, htl⟩ := List.exists_cons_of_ne_nil (List.splitOn_ne_nil d s)
      rw [htl, List.map_cons, List.sum_cons] at ih
      rw [Filesys.splitOn_cons_of_ne hc, htl, List.modifyHead_cons, List.map_cons, List.sum_cons,
        List.length_cons, List.length_cons]
      omega

variable {cmd : Str}

/-- The strings take no more than the command line. -/
theorem command_args_size (cmd : Str) : strings_size (command_args cmd) ≤ cmd.length + 1 := by
  rw [← splitOn_size space cmd]
  exact (List.filter_sublist.map _).sum_le_sum (fun _ _ => Nat.zero_le _)

theorem command_args_zero (h : (0 : UInt8) ∉ cmd) {t : Str} (ht : t ∈ command_args cmd) :
    (0 : UInt8) ∉ t :=
  fun hzero => h (Filesys.mem_of_mem_splitOn (List.mem_filter.mp ht).1 hzero)

theorem tokens_eq_command_args (cmd : Str) :
    token_loop [space] (cmd.length + 1) cmd = command_args cmd :=
  token_loop_splitOn space _ cmd (Nat.lt_succ_self _)

end Tokens

/-! ## The stack -/

section Image

variable {args : List Str}

/-- The bytes of the strings from string `k` on. -/
def strings_from (args : List Str) (k : ℕ) : List UInt8 :=
  (List.range' k (args.length - k)).flatMap (string_bytes args)

/-- The address of string `k`. -/
def string_addr (args : List Str) (k : ℕ) : ℕ := PHYS_BASE - (strings_from args k).length

/-- The pointers to the strings. -/
def pointers (args : List Str) : List UInt8 :=
  (List.range args.length).flatMap fun i => le32 (string_addr args i)

/-- What is pushed up to the pointers: `argv` points to it. -/
def argv_image (args : List Str) : List UInt8 :=
  pointers args ++ ([0, 0, 0, 0] ++ ([0] ++ strings_from args 0))

/-- All that is pushed. -/
def stack_image (args : List Str) : List UInt8 :=
  [0, 0, 0, 0] ++ (le32 args.length ++ (le32 (PHYS_BASE - (argv_image args).length) ++
    argv_image args))

theorem le32_length (w : ℕ) : (le32 w).length = 4 := rfl

theorem flatMap_le32_length (l : List ℕ) (f : ℕ → ℕ) :
    (l.flatMap fun i => le32 (f i)).length = 4 * l.length := by
  induction l with
  | nil => rfl
  | cons i l ih =>
    rw [List.flatMap_cons, List.length_append, ih, le32_length, List.length_cons]
    omega

/-- The strings from `k` on begin with string `k`. -/
theorem strings_from_split {k : ℕ} (hk : k < args.length) :
    strings_from args k = string_bytes args k ++ strings_from args (k + 1) := by
  unfold strings_from
  rw [show args.length - k = (args.length - (k + 1)) + 1 by omega, List.range'_succ,
    List.flatMap_cons]

/-- The strings before `k`, then those from `k` on. -/
theorem strings_from_zero {k : ℕ} (hk : k ≤ args.length) :
    strings_from args 0 = (List.range k).flatMap (string_bytes args) ++ strings_from args k := by
  unfold strings_from
  rw [← List.flatMap_append, Nat.sub_zero, List.range_eq_range',
    show args.length = k + (args.length - k) by omega, ← List.range'_append_1, Nat.zero_add,
    Nat.add_sub_cancel_left]

theorem strings_from_length (args : List Str) :
    (strings_from args 0).length = strings_size args := by
  have hget : ∀ n ≤ args.length, ((List.range n).flatMap (string_bytes args)).length =
      strings_size (args.take n) := by
    intro n
    induction n with
    | zero =>
      intro _
      rfl
    | succ n ih =>
      intro hn
      have hlt : n < args.length := hn
      rw [List.range_succ, List.flatMap_append, List.length_append, ih (Nat.le_of_succ_le hn),
        List.take_succ_eq_append_getElem hlt]
      unfold strings_size string_bytes
      rw [List.map_append, List.sum_append, List.flatMap_cons, List.flatMap_nil,
        List.append_nil, List.length_append, List.getD_eq_getElem?_getD,
        List.getElem?_eq_getElem hlt, Option.getD_some]
      rfl
  have hall := hget args.length le_rfl
  rw [List.take_length] at hall
  rw [← hall, strings_from, Nat.sub_zero, List.range_eq_range']

theorem stack_image_length (args : List Str) : (stack_image args).length = stack_size args := by
  unfold stack_image argv_image pointers stack_size
  rw [List.length_append, List.length_append, List.length_append, List.length_append,
    List.length_append, List.length_append, flatMap_le32_length, strings_from_length,
    le32_length, le32_length, List.length_range]
  simp only [List.length_cons, List.length_nil]
  omega

/-- **`setup_stack`** pushes the image, with at most 30 tokens. -/
theorem setup_stack_spec {cmd : Str} (hargs : (command_args cmd).length ≤ ARGS_LEN)
    (hroom : stack_size (command_args cmd) ≤ PHYS_BASE) (mem : ℕ → UInt8) :
    ∃ s, setup_stack true cmd mem = .ok (true, s) ∧ Holds s (stack_image (command_args cmd)) := by
  set args := command_args cmd with hdef
  have hlen := stack_image_length args
  have hsize : stack_size args = strings_size args + 1 + 4 * (args.length + 1) + 12 := rfl
  have hstrings := strings_from_length args
  have hrange : (List.range args.length).flatMap (string_bytes args) = strings_from args 0 := by
    rw [strings_from, Nat.sub_zero, List.range_eq_range']
  have hloop : args_loop [] (token_loop [space] (cmd.length + 1) cmd) = .ok args := by
    rw [tokens_eq_command_args, ← hdef, args_loop_eq, List.nil_append,
      if_pos (Or.inr (by rw [List.length_nil]; omega))]
  obtain ⟨hs, hptr⟩ := strings_loop_spec args args.length ⟨PHYS_BASE, mem, []⟩ (fun _ => 0)
    (by rw [hrange, hstrings]; change strings_size args ≤ PHYS_BASE; omega)
  -- the strings
  have h₁ : Holds (strings_loop args args.length ⟨PHYS_BASE, mem, []⟩ (fun _ => 0)).1
      (strings_from args 0) := by
    have hpush := (holds_start mem).push_down (f := string_bytes args) (n := args.length)
      (by rw [hrange, hstrings]; change strings_size args ≤ PHYS_BASE; omega)
    rwa [hrange, List.append_nil, ← hs] at hpush
  have hesp₁ := h₁.esp
  -- the padding and the null pointer
  have h₂ := h₁.push (b := [0]) (by rw [List.length_singleton]; omega)
  have hesp₂ := h₂.esp
  rw [List.length_append, List.length_singleton] at hesp₂
  have h₃ := h₂.push (b := [0, 0, 0, 0]) (by simp only [List.length_cons, List.length_nil]; omega)
  have hesp₃ := h₃.esp
  simp only [List.length_append, List.length_cons, List.length_nil] at hesp₃
  -- the pointers
  have hpointers : ∀ i < args.length,
      le32 ((strings_loop args args.length ⟨PHYS_BASE, mem, []⟩ (fun _ => 0)).2 i) =
        le32 (string_addr args i) := by
    intro i hi
    rw [hptr, if_pos hi]
    rfl
  have hplen : (pointers args).length = 4 * args.length := by
    rw [pointers, flatMap_le32_length, List.length_range]
  have h₄ := h₃.push_down (f := fun i => le32 (string_addr args i)) (n := args.length)
    (by change (pointers args).length ≤ _; omega)
  change Holds _ (argv_image args) at h₄
  rw [← push_down_congr hpointers, ← pointers_loop_eq] at h₄
  have hesp₄ := h₄.esp
  have hargv : (argv_image args).length = 4 * args.length + 4 + 1 + strings_size args := by
    rw [argv_image, List.length_append, List.length_append, List.length_append, hplen, hstrings]
    simp only [List.length_cons, List.length_nil]
    omega
  -- `argv`, `argc` and the return address
  have hesp₄' : (pointers_loop (strings_loop args args.length ⟨PHYS_BASE, mem, []⟩
      (fun _ => 0)).2 args.length (((strings_loop args args.length ⟨PHYS_BASE, mem, []⟩
      (fun _ => 0)).1.push [0]).push [0, 0, 0, 0])).esp = PHYS_BASE - (argv_image args).length := by
    omega
  have h₅ := h₄.push (b := le32 (PHYS_BASE - (argv_image args).length))
    (by rw [le32_length]; omega)
  have hesp₅ := h₅.esp
  rw [List.length_append, le32_length] at hesp₅
  have h₆ := h₅.push (b := le32 args.length) (by rw [le32_length]; omega)
  have hesp₆ := h₆.esp
  rw [List.length_append, List.length_append, le32_length, le32_length] at hesp₆
  have h₇ := h₆.push (b := [0, 0, 0, 0]) (by simp only [List.length_cons, List.length_nil]; omega)
  refine ⟨_, ?_, h₇⟩
  rw [setup_stack, if_pos rfl, hloop, ok_bind, pure_eq_ok, hesp₄']

section ReadBack

variable {s : UserStack}

/-- The words from `argv` on are the addresses of the strings. -/
theorem stored_pointer {mem : ℕ → UInt8} {a i : ℕ} (h : Stored mem a (pointers args))
    (hi : i < args.length) : Stored mem (a + 4 * i) (le32 (string_addr args i)) := by
  have hsplit : pointers args = ((List.range i).flatMap fun i => le32 (string_addr args i)) ++
      (le32 (string_addr args i) ++ (List.range' (i + 1) (args.length - (i + 1))).flatMap
        fun i => le32 (string_addr args i)) := by
    have hrange : List.range args.length =
        List.range i ++ (i :: List.range' (i + 1) (args.length - (i + 1))) := by
      rw [← List.range'_succ, List.range_eq_range', List.range_eq_range',
        show args.length - (i + 1) + 1 = args.length - i by omega]
      conv_lhs => rw [show args.length = i + (args.length - i) by omega,
        ← List.range'_append_1, Nat.zero_add]
    rw [pointers, hrange, List.flatMap_append, List.flatMap_cons]
  rw [hsplit] at h
  have hright := h.right
  rw [flatMap_le32_length, List.length_range] at hright
  exact hright.left

/-- **The image is read back** as the tokens it was made of. -/
theorem Holds.reads_back (h : Holds s (stack_image args))
    (hzero : ∀ t ∈ args, (0 : UInt8) ∉ t) (hroom : stack_size args ≤ PGSIZE) :
    ReadsBack s.mem s.esp args := by
  have hP : PHYS_BASE = 0xc0000000 := rfl
  have hG : PGSIZE = 4096 := rfl
  have hsize : stack_size args = strings_size args + 1 + 4 * (args.length + 1) + 12 := rfl
  have hstrings := strings_from_length args
  have hplen : (pointers args).length = 4 * args.length := by
    rw [pointers, flatMap_le32_length, List.length_range]
  have hargv : (argv_image args).length = 4 * args.length + 4 + 1 + strings_size args := by
    rw [argv_image, List.length_append, List.length_append, List.length_append, hplen, hstrings]
    simp only [List.length_cons, List.length_nil]
    omega
  have hesp := h.esp
  rw [stack_image_length] at hesp
  -- the words in front
  have hbehind := h.mem.right
  have hargc : load_word s.mem (s.esp + 4) = args.length := hbehind.left.load_word (by omega)
  have hword : load_word s.mem (s.esp + 8) = PHYS_BASE - (argv_image args).length :=
    hbehind.right.left.load_word (by omega)
  have himage : Stored s.mem (PHYS_BASE - (argv_image args).length) (argv_image args) := by
    have hbytes := hbehind.right.right
    have haddr : s.esp + ([0, 0, 0, 0] : List UInt8).length + (le32 args.length).length +
        (le32 (PHYS_BASE - (argv_image args).length)).length =
        PHYS_BASE - (argv_image args).length := by
      rw [le32_length, le32_length]
      simp only [List.length_cons, List.length_nil]
      omega
    rwa [haddr] at hbytes
  have hnull : Stored s.mem (PHYS_BASE - (argv_image args).length + 4 * args.length)
      (le32 0 ++ ([0] ++ strings_from args 0)) := by
    have hbytes := himage.right
    rwa [hplen] at hbytes
  refine ⟨hargc, ?_, ?_⟩
  · intro i hi
    have hpointer := stored_pointer himage.left hi
    have hsuffix := strings_from_zero (Nat.le_of_lt hi)
    have hle : (strings_from args i).length ≤ strings_size args := by
      rw [← hstrings, hsuffix, List.length_append]
      omega
    have hchars : Stored s.mem (string_addr args i) (string_bytes args i) := by
      have hbytes := hnull.right.right
      rw [hsuffix] at hbytes
      have haddr : PHYS_BASE - (argv_image args).length + 4 * args.length + (le32 0).length +
          ([0] : List UInt8).length + ((List.range i).flatMap (string_bytes args)).length =
          string_addr args i := by
        have hlen := congrArg List.length hsuffix
        rw [List.length_append, hstrings] at hlen
        rw [string_addr, le32_length, List.length_singleton]
        omega
      have hright := hbytes.right
      rw [haddr, strings_from_split hi] at hright
      exact hright.left
    have hget : string_bytes args i = args.get ⟨i, hi⟩ ++ [0] := by
      rw [string_bytes, List.getD_eq_getElem?_getD, List.getElem?_eq_getElem hi]
      rfl
    have hshort : (args.get ⟨i, hi⟩).length < PGSIZE := by
      have hlen := congrArg List.length (strings_from_split hi)
      rw [hget, List.length_append, List.length_append, List.length_singleton] at hlen
      omega
    rw [hget] at hchars
    rw [hword, hpointer.load_word (by rw [string_addr]; omega)]
    exact hchars.load_string (hzero _ (List.get_mem args ⟨i, hi⟩)) hshort
  · rw [hword]
    exact hnull.left.load_word (by omega)

end ReadBack

end Image

/-! ## The round trip -/

/-- **Argument passing** works exactly while there are no more tokens than the arrays have
places and what is pushed fits the page. -/
theorem passes_arguments {cmd : Str} (hzero : (0 : UInt8) ∉ cmd) (hlen : cmd.length < PGSIZE) :
    PassesArguments cmd ↔
      (command_args cmd).length ≤ ARGS_LEN ∧ stack_size (command_args cmd) ≤ PGSIZE := by
  have hP : PHYS_BASE = 0xc0000000 := rfl
  have hG : PGSIZE = 4096 := rfl
  have hA : ARGS_LEN = 30 := rfl
  have hstrings := command_args_size cmd
  have hsize : stack_size (command_args cmd) = strings_size (command_args cmd) + 1 +
      4 * ((command_args cmd).length + 1) + 12 := rfl
  constructor
  · intro h
    obtain ⟨ok, s, hrun, hback⟩ := h true (fun _ => 0)
    have hargs : (command_args cmd).length ≤ ARGS_LEN := by
      by_contra hmany
      have hne : command_args cmd ≠ [] := by
        intro hnil
        rw [hnil, List.length_nil] at hmany
        omega
      rw [setup_stack, if_pos rfl, tokens_eq_command_args, args_loop_eq, if_neg] at hrun
      · cases hrun
      · rintro (hnil | hle)
        · exact hne hnil
        · rw [List.length_nil] at hle
          omega
    refine ⟨hargs, ?_⟩
    -- the last byte that is pushed is the lowest
    obtain ⟨s', hrun', hholds⟩ := setup_stack_spec hargs (by omega) (fun _ => 0)
    obtain ⟨rfl, rfl⟩ := Prod.mk.inj (Except.ok.inj (hrun.symm.trans hrun'))
    have hesp := hholds.esp
    rw [stack_image_length] at hesp
    have hlow := ((hback rfl).1 s.esp ((hholds.written _).mpr ⟨le_rfl, by omega⟩)).1
    omega
  · rintro ⟨hargs, hroom⟩ installed mem
    cases installed with
    | false => exact ⟨false, _, rfl, fun h => by cases h⟩
    | true =>
      obtain ⟨s, hrun, hholds⟩ := setup_stack_spec hargs (by omega) mem
      have hesp := hholds.esp
      rw [stack_image_length] at hesp
      refine ⟨true, s, hrun, fun _ => ⟨fun a ha => ?_, ?_⟩⟩
      · have hrange := (hholds.written a).mp ha
        exact ⟨by omega, hrange.2⟩
      · exact hholds.reads_back (fun t ht => command_args_zero hzero ht) hroom

/-- 31 tokens of one character. -/
def many_args : Str := (List.replicate 31 [97, 32]).flatten

/-- `"ls  -l a"` is passed; 31 tokens are not. -/
theorem passes_arguments_small :
    PassesArguments [108, 115, 32, 32, 45, 108, 32, 97] ∧ ¬ PassesArguments many_args := by
  constructor
  · exact (passes_arguments (by decide) (by decide)).mpr ⟨by decide, by decide⟩
  · rw [passes_arguments (by decide) (by decide)]
    exact fun h => absurd h.1 (by decide)

/-- **Too many arguments.** With 31 tokens `args` is written past its end. -/
theorem many_arguments_overflow : ¬ ∀ cmd : Str, (0 : UInt8) ∉ cmd → cmd.length < PGSIZE →
    (∃ c ∈ cmd, c ≠ space) → PassesArguments cmd := by
  intro hall
  obtain ⟨ok, s, hrun, -⟩ := hall many_args (by decide) (by decide) ⟨97, by decide, by decide⟩
    true (fun _ => 0)
  have hloop : args_loop [] (token_loop [space] (many_args.length + 1) many_args) =
      .error .bounds := by
    decide +kernel
  rw [setup_stack, if_pos rfl, hloop] at hrun
  cases hrun

end Pintos.Userprog.ArgStack
