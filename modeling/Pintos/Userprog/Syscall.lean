/-
`userprog/syscall.c`: the addresses a system call uses on behalf of the process.

The model follows each call up to its last access to an address that came from
the process: the argument words at `esp`, path strings and buffers. What it keeps
of a call is its trace, the list of its accesses, and whether the process was
terminated; the value in `eax` is left out. An access that the page tables do not
allow goes to `page_fault`, which either brings the page in, and the access is made,
or calls `exit (-1)`.

Memory does not change while a call reads it: `mem` is what the process has
written, whether the page is in a frame, in swap or in a file. `filesys` work behind
a call that moves no byte to or from the process is not part of this model; a file
is its length and position, an open directory its entries from the position on.
-/
import Pintos.Library.Traced

set_option autoImplicit false

namespace Pintos.Userprog

open Traced

/-! ## Addresses -/

/-- `PHYS_BASE`. -/
def PHYS_BASE : ℕ := 0xc0000000

/-- `PGSIZE`. -/
def PGSIZE : ℕ := 4096

/-- `LOADER_KERN_BASE`, the physical address of the kernel text. -/
def LOADER_KERN_BASE : ℕ := 0x100000

/-- The number of addresses. -/
def ADDRESSES : ℕ := 2 ^ 32

/-- `pg_no`. -/
def pg_no (va : ℕ) : ℕ := va / PGSIZE

/-- The fields of `struct sup_page_table_entry` that `page_fault` decides by. -/
structure SupPageTableEntry where
  writable : Bool
  mmapped : Bool
  mid_is_null : Bool
  deriving DecidableEq

/-- `struct dir_entry`, as `dir_readdir` uses it: the length of the name, whether the
name is `..`, and `in_use == 1`. -/
structure DirEntry where
  name_len : ℕ
  is_parent : Bool
  in_use : Bool

/-- `struct fd_elem` with what lies behind it. `file_write_takes` is the number of
bytes `file_write` takes from the buffer before it returns or panics, for a given
`size`: it depends on free space and on `deny_write_cnt`. -/
structure FdElem where
  fd : ℕ
  isdir : Bool
  file_length : ℕ
  file_tell : ℕ
  file_write_takes : ℕ → ℕ
  /-- `dir_ptr`: the entries from `dir->pos` on. -/
  dir_ptr : Option (List DirEntry)

/-- What a call finds: the memory and the page tables of the process, the mapping of
physical memory made by `paging_init`, and the open files. -/
structure View where
  mem : ℕ → UInt8
  /-- `pagedir_get_page (pd, va) != NULL`, by page. -/
  present : ℕ → Bool
  /-- The page table entry allows writing. -/
  pte_writable : ℕ → Bool
  /-- `page_lookup`, by page. -/
  page_lookup : ℕ → Option SupPageTableEntry
  ram_pages : ℕ
  /-- `_end_kernel_text`. -/
  end_kernel_text : ℕ
  fd_list : List FdElem
  /-- `thread_current ()->curr_dir != NULL`. -/
  curr_dir : Bool
  /-- `palloc_get_page (0)` in `process_execute` finds a page. -/
  kernel_page : Bool
  /-- The kernel itself is in physical memory. -/
  kernel_in_ram : LOADER_KERN_BASE ≤ ram_pages * PGSIZE

/-! ## One access -/

/-- `page_fault` for an access by the kernel: whether the handler brings the page in.
Where it does not, it calls `exit (-1)`. -/
def page_fault (v : View) (user_f_esp : ℕ) (write : Bool) (fault_addr : ℕ) : Bool :=
  -- `check_userptr_pf (fault_addr)`
  if fault_addr = 0 ∨ PHYS_BASE ≤ fault_addr then false
  else
    match v.page_lookup (pg_no fault_addr) with
    | some e => !(write && !e.writable) && !(e.mmapped && e.mid_is_null)
    | none =>
      -- the stack grows; `install_fault_page` fails on a page that is there
      decide ((user_f_esp + ADDRESSES - 32) % ADDRESSES ≤ fault_addr) &&
        !v.present (pg_no fault_addr)

/-- The page tables allow the access. Above `PHYS_BASE` they map all physical memory,
the kernel text read-only. -/
def mapped (v : View) (write : Bool) (a : ℕ) : Bool :=
  if a < PHYS_BASE then v.present (pg_no a) && (!write || v.pte_writable (pg_no a))
  else decide (a < PHYS_BASE + v.ram_pages * PGSIZE) &&
    (!write || !(decide (PHYS_BASE + LOADER_KERN_BASE ≤ a) && decide (a < v.end_kernel_text)))

/-- The access is made. -/
def accessible (v : View) (esp : ℕ) (write : Bool) (a : ℕ) : Bool :=
  mapped v write a || page_fault v esp write a

/-- How a call ends early. -/
inductive Stop
  /-- `exit (status)`. -/
  | exit (status : ℤ)
  /-- `ASSERT` failed. -/
  | panic
  /-- The loop does not end. -/
  | diverge
  deriving DecidableEq

/-- An access to an address that came from the process. -/
structure Access where
  addr : ℕ
  /-- It was made: the byte was read or written. -/
  made : Bool
  deriving DecidableEq

/-- A system call: its accesses, and how it ended. -/
abbrev Call (α : Type) := Traced Stop Access α

section Calls

variable (v : View) (esp : ℕ)

/-- One byte. -/
def touch (write : Bool) (a : ℕ) : Call Unit :=
  if accessible v esp write a then emit ⟨a, true⟩
  else do
    emit ⟨a, false⟩
    stop (.exit (-1))

/-- The bytes of `[a, a + n)`, in order; addresses wrap around. -/
def touch_range (write : Bool) (a : ℕ) : ℕ → Call Unit
  | 0 => pure ()
  | n + 1 => do
    touch v esp write (a % ADDRESSES)
    touch_range write (a + 1) n

/-- `*(unsigned *) a`. -/
def load_word (a : ℕ) : Call ℕ := do
  touch_range v esp false a 4
  return (v.mem a).toNat + 256 * (v.mem (a + 1)).toNat + 65536 * (v.mem (a + 2)).toNat
    + 16777216 * (v.mem (a + 3)).toNat

/-- `check_userptr`. -/
def check_userptr (ptr : ℕ) : Call Unit :=
  if ptr = 0 then stop (.exit (-1))
  else if PHYS_BASE ≤ ptr ∨ v.present (pg_no ptr) = false then stop (.exit (-1))
  else pure ()

/-- `check_userptr_pf`. -/
def check_userptr_pf (ptr : ℕ) : Call Unit :=
  if ptr = 0 then stop (.exit (-1))
  else if PHYS_BASE ≤ ptr then stop (.exit (-1))
  else pure ()

/-- The loop of `strlen`. -/
def strlen_from : (fuel : ℕ) → (p : ℕ) → Call Unit
  | 0, _ => stop .diverge
  | fuel + 1, p => do
    touch v esp false p
    if v.mem p = 0 then pure () else strlen_from fuel ((p + 1) % ADDRESSES)

/-- `strlen`. Whatever else the kernel does with a path (`memcpy`, `strncmp` with one
character, `strlcpy`, further calls of `strlen`) comes after a call of `strlen` and
reads no byte that this one has not. The loop has gone around all addresses when the
fuel is used up. -/
def strlen (string : ℕ) : Call Unit :=
  if string = 0 then stop .panic else strlen_from v esp ADDRESSES string

/-! ## The calls -/

/-- `fd_list_iter`. -/
def fd_list_iter (fd : ℕ) : Option FdElem := v.fd_list.find? (fun e => e.fd = fd)

/-- `exec`: `process_execute` copies the command line once it has a page for it. -/
def exec (cmd_line : ℕ) : Call Unit := do
  check_userptr v cmd_line
  if v.kernel_page then strlen v esp cmd_line else pure ()

/-- `create`. -/
def create (file : ℕ) : Call Unit := do
  check_userptr v file
  strlen v esp file

/-- `remove`. -/
def remove (file : ℕ) : Call Unit := do
  check_userptr v file
  strlen v esp file

/-- `(off_t) size`, where only a positive count moves bytes. -/
def off_t (size : ℕ) : ℕ := if size < 2 ^ 31 then size else 0

/-- `read`. From the keyboard it stores nothing. `inode_read_at` stores what is left
of the file from the position on, up to `size`. -/
def read (fd buffer size : ℕ) : Call Unit := do
  check_userptr_pf buffer
  if fd = 0 then pure ()
  else
    match fd_list_iter v fd with
    | none => pure ()
    | some temp =>
      touch_range v esp true buffer (min (off_t size) (temp.file_length - temp.file_tell))

/-- `write`. To the console, `putbuf`. -/
def write (fd buffer size : ℕ) : Call Unit := do
  check_userptr v buffer
  if fd = 1 then touch_range v esp false buffer size
  else
    match fd_list_iter v fd with
    | none => pure ()
    | some temp =>
      if temp.isdir then pure ()
      else touch_range v esp false buffer (min (off_t size) (temp.file_write_takes size))

/-- `chdir`: `dir_lookup` asserts that the directory and the name are not null and reads
the name to its end. -/
def chdir (dir : ℕ) : Call Unit :=
  if v.curr_dir = false ∨ dir = 0 then stop .panic
  else do
    touch v esp false dir
    if v.mem dir = 0 then pure () else strlen v esp dir

/-- `mkdir`, which starts with the same `dir_lookup`; what follows reads the name again. -/
def mkdir (dir : ℕ) : Call Unit := chdir v esp dir

/-- `dir_readdir`: the length of the next name. -/
def dir_readdir : List DirEntry → Option ℕ
  | [] => none
  | e :: entries => if !e.is_parent && e.in_use then some e.name_len else dir_readdir entries

/-- `NAME_MAX`. -/
def NAME_MAX : ℕ := 14

end Calls

/-! ## `syscall_handler` -/

/-- Something that depends on up to three argument words. -/
inductive Args (β : Type)
  | zero (b : β)
  | one (f : ℕ → β)
  | two (f : ℕ → ℕ → β)
  | three (f : ℕ → ℕ → ℕ → β)

section Handler

variable (v : View) (esp : ℕ)

end Handler

end Pintos.Userprog
