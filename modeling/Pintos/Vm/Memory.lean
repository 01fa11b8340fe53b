/-
The data of `vm/`, `userprog/pagedir.c` and the user pool of `threads/palloc.c`.

Five structures hold a page between them: the page directory says which frame it
is in, the supplemental page table entry says where its contents are when it is
in none, the frame table says whose page a frame holds, the user pool says which
frames are taken, and the swap table says which sectors of the swap disk are. The
model keeps all five, with the bytes in the frames, on the disk and in the files.

Pages are numbered: `user_vaddr` is an address divided by `PGSIZE`, and a frame
is its index in the user pool. A supplemental entry is a block of the heap, named
by a number; a block that was freed stays freed, so that an entry of the frame
table that still points to it is told from one that points to a new block.
`malloc` always has room.
-/
import Pintos.Kernel.Bitmap

set_option autoImplicit false

namespace Pintos.Vm

open Pintos.Kernel

/-- `PGSIZE`. -/
def PGSIZE : ℕ := 4096

/-- `PHYS_BASE`, in pages. -/
def PHYS_PAGES : ℕ := 0xC0000

/-- The bytes of a page, by offset. -/
abbrev Page := ℕ → UInt8

/-- The bytes of a sector, by offset. -/
abbrev Sector := ℕ → UInt8

/-- An open file, as `file_read_at` and `file_write_at` see it. -/
structure File where
  length : ℕ
  data : ℕ → UInt8
  deny_write_cnt : ℕ

/-- `struct sup_page_table_entry`, without the fields nothing reads. -/
structure Spte where
  user_vaddr : ℕ
  swapped : Bool
  dirty : Bool
  disk_sector_idx : ℕ
  load_executable : Bool
  loaded : Bool
  page_read_bytes : ℕ
  file_ofs : ℕ
  writable : Bool
  mmapped : Bool
  mid : ℕ
  file_ptr : ℕ
  page_cnt : ℕ

/-- `struct frame_table_entry`. `allocate_page` returns the address of a local
variable: an entry made with it has `none` here. -/
structure Fte where
  frame : ℕ
  owner : ℕ
  spte : Option ℕ

/-- A present page table entry. -/
structure Pte where
  frame : ℕ
  writable : Bool

/-- `struct fd_elem`, as far as mappings go. -/
structure FdElem where
  fd : ℕ
  file_ptr : ℕ
  mmapped : Bool
  mapid : ℕ
  vaddr : ℕ

/-- What a frame is wanted for. -/
inductive Want
  /-- `page_fault` found an entry for page `v`. -/
  | entry (v : ℕ) (write : Bool) (spte : ℕ)
  /-- `page_fault` grows the stack by page `v`. -/
  | grow (v : ℕ)
  /-- `setup_stack`. -/
  | stack

/-- The local variables of `munmap` in its loop. -/
structure Unmap where
  spte : ℕ
  mapping : ℕ
  iter : ℕ
  file_len : ℕ
  vaddr : ℕ
  file_ofs : ℕ

/-- Where a process is. Every point but `user` is in the kernel, just before the
statements its step runs. -/
inductive Point
  /-- Running user code. -/
  | user
  /-- `palloc_get_page (PAL_USER)`. -/
  | get (w : Want)
  /-- `swap_out`, before it has `swap_lock`. -/
  | evict (w : Want)
  /-- `swap_out` at its fourth comment: the page is cleared, its frame is not saved. -/
  | save (w : Want) (e : Fte)
  /-- `swap_out` in `file_write_at`, with `filesys_lock`. -/
  | writeback (w : Want) (e : Fte)
  /-- `swap_out` at `palloc_free_page`. -/
  | free (w : Want) (frame : ℕ)
  /-- The frame is there and is to be filled. -/
  | load (w : Want) (kpage : ℕ)
  /-- `swap_in`, before it has `swap_lock`. -/
  | swapin (v : ℕ) (write : Bool) (spte : ℕ) (kpage : ℕ)
  /-- `swap_in` at its fifth comment; `entry` is its own `spte`. -/
  | refill (v : ℕ) (write : Bool) (spte : ℕ) (kpage : ℕ) (entry : ℕ)
  /-- `page_fault` after `swap_in`. -/
  | install (v : ℕ) (write : Bool) (spte : ℕ) (kpage : ℕ)
  /-- `munmap`, before it has `filesys_lock`. -/
  | unmapping (mapping : ℕ)
  /-- `munmap` in its loop. -/
  | munmap (m : Unmap)
  /-- `munmap` after its loop. -/
  | unlist (m : Unmap)
  /-- `exit`. -/
  | exit
  /-- `thread_exit` after `process_exit`. -/
  | reap
  /-- The process is gone. -/
  | dead
  /-- No process has had this number yet. -/
  | unused

/-- What a process goes back to when the call it is in returns. -/
inductive Caller
  /-- `swap_out`: its `file_write_at` faulted. -/
  | writeback (w : Want) (e : Fte)
  /-- `munmap`: its `file_write_at` faulted. -/
  | munmap (m : Unmap)
  /-- `exit` called `munmap`. -/
  | exit

/-- The part of `struct thread` that memory management uses. `tables` are the page
tables that exist, by directory index. -/
structure Proc where
  pagedir : ℕ → Option Pte
  tables : ℕ → Bool
  sup_page_table : ℕ → Option ℕ
  fd_list : List FdElem
  point : Point
  callers : List Caller
  exec_file : ℕ

/-- The machine: the processes and what they share. -/
structure Mem where
  procs : ℕ → Proc
  sptes : ℕ → Option Spte
  /-- The next heap block. -/
  fresh : ℕ
  frame_table : List Fte
  /-- `user_pool.used_map`. -/
  used_map : Bitmap
  frames : ℕ → Page
  swap_table : Bitmap
  swap_device : ℕ → Sector
  /-- The capacity of the swap disk, in sectors. -/
  capacity : ℕ
  files : ℕ → File
  swap_lock : Option ℕ
  filesys_lock : Option ℕ
  next_mid : ℕ
  next_fd : ℕ

/-! ## Updates -/

/-- Changes one process. -/
def Mem.upd (s : Mem) (p : ℕ) (f : Proc → Proc) : Mem :=
  { s with procs := Function.update s.procs p (f (s.procs p)) }

/-- Sends a process to a point. -/
def Mem.goto (s : Mem) (p : ℕ) (pt : Point) : Mem :=
  s.upd p (fun t => { t with point := pt })

@[simp] theorem Mem.upd_self (s : Mem) (p : ℕ) (f : Proc → Proc) :
    (s.upd p f).procs p = f (s.procs p) := Function.update_self p _ _

@[simp] theorem Mem.upd_of_ne {s : Mem} {p q : ℕ} (f : Proc → Proc) (h : q ≠ p) :
    (s.upd p f).procs q = s.procs q := Function.update_of_ne h _ _

@[simp] theorem Mem.goto_self (s : Mem) (p : ℕ) (pt : Point) :
    (s.goto p pt).procs p = { s.procs p with point := pt } := Mem.upd_self s p _

@[simp] theorem Mem.goto_of_ne {s : Mem} {p q : ℕ} (pt : Point) (h : q ≠ p) :
    (s.goto p pt).procs q = s.procs q := Mem.upd_of_ne _ h

/-- The point a caller goes on from. -/
def Caller.point : Caller → Point
  | .writeback w e => .writeback w e
  | .munmap m => .munmap m
  | .exit => .exit

/-- A process returns from what it was doing. -/
def Proc.ret (t : Proc) : Proc :=
  match t.callers with
  | [] => { t with point := .user }
  | c :: rest => { t with point := c.point, callers := rest }

def Mem.ret (s : Mem) (p : ℕ) : Mem := s.upd p Proc.ret

/-- Calls `exit`, which does not return. -/
def Mem.exit (s : Mem) (p : ℕ) : Mem :=
  s.upd p (fun t => { t with point := .exit, callers := [] })

@[simp] theorem Mem.ret_self (s : Mem) (p : ℕ) : (s.ret p).procs p = (s.procs p).ret :=
  Mem.upd_self s p _

@[simp] theorem Mem.ret_of_ne {s : Mem} {p q : ℕ} (h : q ≠ p) :
    (s.ret p).procs q = s.procs q := Mem.upd_of_ne _ h

@[simp] theorem Mem.exit_self (s : Mem) (p : ℕ) :
    (s.exit p).procs p = { s.procs p with point := .exit, callers := [] } := Mem.upd_self s p _

@[simp] theorem Mem.exit_of_ne {s : Mem} {p q : ℕ} (h : q ≠ p) :
    (s.exit p).procs q = s.procs q := Mem.upd_of_ne _ h

/-- Reads a supplemental entry through a pointer. -/
def Mem.spte (s : Mem) (a : ℕ) : Res Spte :=
  match s.sptes a with
  | some x => .ok x
  | none => .error .dangling

theorem Mem.spte_of_some {s : Mem} {a : ℕ} {x : Spte} (h : s.sptes a = some x) :
    s.spte a = .ok x := by
  rw [Mem.spte, h]

theorem Mem.spte_eq_ok {s : Mem} {a : ℕ} {x : Spte} (h : s.spte a = .ok x) :
    s.sptes a = some x := by
  unfold Mem.spte at h
  cases hx : s.sptes a with
  | none => rw [hx] at h; cases h
  | some y => rw [hx] at h; rw [Except.ok.inj h]

/-- Writes a supplemental entry. -/
def Mem.setSpte (s : Mem) (a : ℕ) (x : Spte) : Mem :=
  { s with sptes := Function.update s.sptes a (some x) }

/-- Writes a frame. -/
def Mem.setFrame (s : Mem) (k : ℕ) (b : Page) : Mem :=
  { s with frames := Function.update s.frames k b }

/-! ## Files -/

/-- `file_read_at`: how much it read, and the buffer. -/
def file_read_at (f : File) (buf : Page) (size ofs : ℕ) : ℕ × Page :=
  let n := min size (f.length - ofs)
  (n, fun i => if i < n then f.data (ofs + i) else buf i)

/-- `file_write_at`: nothing while writing is denied. -/
def file_write_at (f : File) (buf : Page) (size ofs : ℕ) : File :=
  if 0 < f.deny_write_cnt then f
  else { f with
    length := max f.length (ofs + size)
    data := fun i => if ofs ≤ i ∧ i < ofs + size then buf (i - ofs) else f.data i }

/-- `file_write_at` looks at its buffer: writing is not denied, and there is something to
write. -/
def File.Reads (f : File) (size : ℕ) : Prop := f.deny_write_cnt = 0 ∧ size ≠ 0

instance (f : File) (size : ℕ) : Decidable (f.Reads size) := inferInstanceAs (Decidable (_ ∧ _))

/-- What `file_write_at` finds in a buffer that is user page `v`; `none` is a page fault. -/
def user_buffer (s : Mem) (p v : ℕ) (f : File) (size : ℕ) : Option Page :=
  if f.Reads size then ((s.procs p).pagedir v).map fun pte => s.frames pte.frame
  else some fun _ => 0

section Buffer

variable {s : Mem} {p v size : ℕ} {f : File}

theorem user_buffer_eq_none :
    user_buffer s p v f size = none ↔ f.Reads size ∧ (s.procs p).pagedir v = none := by
  unfold user_buffer
  by_cases hreads : f.Reads size
  · rw [if_pos hreads, Option.map_eq_none_iff, and_iff_right hreads]
  · rw [if_neg hreads]
    exact iff_of_false nofun fun h => hreads h.1

end Buffer

/-- `memset (kpage + n, 0, PGSIZE - n)`. -/
def zero_from (n : ℕ) (buf : Page) : Page :=
  fun i => if n ≤ i ∧ i < PGSIZE then 0 else buf i

/-! ## `threads/palloc.c`, the user pool -/

/-- `palloc_get_page (PAL_USER)`. -/
def palloc_get_page (s : Mem) : Res (Option ℕ × Mem) := do
  let (k, b) ← bitmap_scan_and_flip s.used_map 0 1 false
  return (k, { s with used_map := b })

/-- `palloc_free_page` of a frame of the user pool: the frame is filled with
`0xcc` before the assertion. -/
def palloc_free_page (s : Mem) (k : ℕ) : Res Mem := do
  let s := s.setFrame k (fun _ => 0xcc)
  ASSERT (bitmap_all s.used_map k 1)
  let b ← bitmap_set_multiple s.used_map k 1 false
  return { s with used_map := b }

/-! ## `userprog/pagedir.c` -/

/-- `pagedir_set_page` behind the test of `install_fault_page`: a page that is
already there stays, and a missing page table needs a page of the kernel pool,
which has one if `room` holds. -/
def install_fault_page (s : Mem) (p v k : ℕ) (writable room : Bool) : Bool × Mem :=
  let t := s.procs p
  if (t.pagedir v).isSome then (false, s)
  else if t.tables (v / 1024) || room then
    (true, s.upd p (fun t => { t with
      pagedir := Function.update t.pagedir v (some ⟨k, writable⟩)
      tables := Function.update t.tables (v / 1024) true }))
  else (false, s)

/-- `pagedir_clear_page`. -/
def pagedir_clear_page (s : Mem) (p v : ℕ) : Res Mem := do
  ASSERT (v < PHYS_PAGES)
  return s.upd p (fun t => { t with pagedir := Function.update t.pagedir v none })

/-- One present page of the loop of `pagedir_destroy`. -/
def destroy_page (t : Proc) (s : Mem) (v : ℕ) : Res Mem :=
  match t.pagedir v with
  | some pte => palloc_free_page s pte.frame
  | none => .ok s

/-- `process_exit`: `pagedir` is `NULL` before `pagedir_destroy` frees the pages. -/
def process_exit (s : Mem) (p : ℕ) : Res Mem :=
  (List.range PHYS_PAGES).foldlM (destroy_page (s.procs p))
    (s.upd p (fun t => { t with pagedir := fun _ => none, tables := fun _ => false }))

/-! ## `vm/page.c` and `vm/frame.c` -/

/-- `page_lookup`. -/
def page_lookup (s : Mem) (p v : ℕ) : Option ℕ := (s.procs p).sup_page_table v

/-- `malloc` of an entry and `hash_insert`, which does nothing if the page has an
entry already. -/
def insert_page (s : Mem) (p : ℕ) (x : Spte) : Mem :=
  let s' := { s with sptes := Function.update s.sptes s.fresh (some x), fresh := s.fresh + 1 }
  match (s.procs p).sup_page_table x.user_vaddr with
  | some _ => s'
  | none => s'.upd p (fun t => { t with
      sup_page_table := Function.update t.sup_page_table x.user_vaddr (some s.fresh) })

/-- `allocate_page`; `junk` is what was in the block. -/
def allocate_page (s : Mem) (p v : ℕ) (junk : Spte) : Mem :=
  insert_page s p { junk with
    user_vaddr := v
    swapped := false
    dirty := false
    load_executable := false
    mmapped := false }

/-- `allocate_frame`. -/
def allocate_frame (s : Mem) (p k : ℕ) (spte : Option ℕ) : Mem :=
  { s with frame_table := s.frame_table ++ [⟨k, p, spte⟩] }

/-! ## `vm/swap.c`, the disk -/

/-- The disk with a page in the eight sectors from `index`. -/
def write_sectors (device : ℕ → Sector) (index : ℕ) (b : Page) : ℕ → Sector :=
  fun n => if index ≤ n ∧ n < index + 8 then fun j => b (512 * (n - index) + j) else device n

/-- The page in the eight sectors from `index`. -/
def read_sectors (device : ℕ → Sector) (index : ℕ) (b : Page) : Page :=
  fun i => if i < PGSIZE then device (index + i / 512) (i % 512) else b i

/-- `write_to_disk`. -/
def write_to_disk (s : Mem) (frame index : ℕ) : Res Mem := do
  ASSERT (index + 8 ≤ s.capacity)
  return { s with swap_device := write_sectors s.swap_device index (s.frames frame) }

/-- `read_from_disk`. -/
def read_from_disk (s : Mem) (frame index : ℕ) : Res Mem := do
  ASSERT (index + 8 ≤ s.capacity)
  return s.setFrame frame (read_sectors s.swap_device index (s.frames frame))

/-! ## `lock_acquire` -/

/-- What `lock_acquire` does: it asserts that the caller is not the holder, and
otherwise has the lock or waits. -/
inductive Acquire
  | got
  | wait

def lock_acquire (holder : Option ℕ) (p : ℕ) : Res Acquire := do
  ASSERT (holder ≠ some p)
  return if holder.isNone then .got else .wait

end Pintos.Vm
