/-
`page_fault`, `swap_out`, `swap_in`, `mmap`, `munmap`, `load_segment`,
`setup_stack` and the memory part of `exit` and `kill`, as steps of processes that
interleave.

A step runs from one place where another process may get in to the next: the
wait for a lock, a disk transfer, the call of the page allocator. Interrupts are
on in all of this code, and `swap_lock` covers `swap_out` and `swap_in` only, so
between two steps of one process any other may take any number of its own. A
process that waits for a lock takes its step without moving.

`swap_out` reads a page through its user address when it writes a mapped file
back, and so does `munmap`; either can fault, in the kernel and with its locks
held. The callers of the running code are therefore a stack.
-/
import Pintos.Vm.Memory
import Pintos.Library.StepSystem

set_option autoImplicit false

namespace Pintos.Vm

open Pintos.Kernel

/-- What a kernel step of a process meets outside the model: whether the kernel
pool has a page for a page table, whether the faulting address is above the stack
pointer less 32, what an uninitialised block holds, and what a read of `mid`
through a stale pointer returns. -/
structure Choice where
  room : Bool
  near_esp : Bool
  junk : Spte
  stale_mid : ℕ

/-- `page_fault`, up to the first call of the page allocator. -/
def page_fault (s : Mem) (p addr : ℕ) (write near_esp : Bool) : Res Mem :=
  let v := addr / PGSIZE
  if addr = 0 ∨ PHYS_PAGES ≤ v then .ok (s.exit p)
  else match page_lookup s p v with
    | some a => do
      let x ← s.spte a
      if write && !x.writable then return s.exit p
      else if x.mmapped && x.mid == 0 then return s.exit p
      else return s.goto p (.get (.entry v write a))
    | none => if near_esp then .ok (s.goto p (.get (.grow v))) else .ok (s.exit p)

/-- `palloc_get_page`, and the choice of the loop around `swap_out`. -/
def step_get (s : Mem) (p : ℕ) (w : Want) : Res Mem := do
  let (k, s) ← palloc_get_page s
  match k with
  | some k => return s.goto p (.load w k)
  | none => return s.goto p (.evict w)

/-! ## `swap_out` -/

/-- `swap_out` up to its fourth comment: the victim is the front of the frame
table, and the page cleared is one of the running process. -/
def step_evict (s : Mem) (p : ℕ) (w : Want) : Res Mem := do
  match ← lock_acquire s.swap_lock p with
  | .wait => return s
  | .got =>
    match s.frame_table with
    | [] => .error .assertion
    | e :: rest =>
      match e.spte with
      | none => .error .dangling
      | some a => do
        let x ← s.spte a
        let s := s.setSpte a { x with swapped := true }
        let s ← pagedir_clear_page s p x.user_vaddr
        return ({ s with frame_table := rest, swap_lock := some p }).goto p (.save w e)

/-- The pointer of a frame table entry, read. -/
def Mem.entry (s : Mem) (e : Fte) : Res (ℕ × Spte) :=
  match e.spte with
  | none => .error .dangling
  | some a => do
    let x ← s.spte a
    return (a, x)

theorem Mem.entry_of_some {s : Mem} {e : Fte} {a : ℕ} {x : Spte} (ha : e.spte = some a)
    (hx : s.sptes a = some x) : s.entry e = .ok (a, x) := by
  rw [Mem.entry, ha]
  dsimp only
  rw [Mem.spte_of_some hx, ok_bind]
  rfl

/-- The fourth part of `swap_out`: a mapped page goes to its file, a page of the
stack or of a writable segment to the swap disk, any other nowhere. -/
def step_save (s : Mem) (p : ℕ) (w : Want) (e : Fte) : Res Mem := do
  let (a, x) ← s.entry e
  if x.mmapped then
    if x.dirty then
      match ← lock_acquire s.filesys_lock p with
      | .wait => return s
      | .got => return ({ s with filesys_lock := some p }).goto p (.writeback w e)
    else return s.goto p (.free w e.frame)
  else if !x.load_executable || x.writable then
    match bitmap_scan s.swap_table 0 8 false with
    | none => .error .assertion
    | some i => do
      let s ← write_to_disk s e.frame i
      let b ← bitmap_set_multiple s.swap_table i 8 true
      let s := s.setSpte a { x with disk_sector_idx := i }
      return ({ s with swap_table := b }).goto p (.free w e.frame)
  else return s.goto p (.free w e.frame)

/-- `file_write_at` of `swap_out`: the buffer is the user address, in the running
process. -/
def step_writeback (s : Mem) (p : ℕ) (w : Want) (e : Fte) (c : Choice) : Res Mem := do
  let (_, x) ← s.entry e
  match user_buffer s p x.user_vaddr (s.files x.file_ptr) x.page_read_bytes with
  | some buf =>
    let f := file_write_at (s.files x.file_ptr) buf x.page_read_bytes x.file_ofs
    let s := { s with files := Function.update s.files x.file_ptr f, filesys_lock := none }
    return s.goto p (.free w e.frame)
  | none =>
    let s := s.upd p (fun t => { t with callers := .writeback w e :: t.callers })
    page_fault s p (x.user_vaddr * PGSIZE) false c.near_esp

/-- The end of `swap_out`. -/
def step_free (s : Mem) (p : ℕ) (w : Want) (k : ℕ) : Res Mem := do
  let s ← palloc_free_page s k
  return ({ s with swap_lock := none }).goto p (.get w)

/-! ## Filling the frame -/

/-- `found_entry->loaded = true` and what `page_fault` does for a write. -/
def mark_loaded (s : Mem) (a : ℕ) (write : Bool) : Res Mem := do
  let x ← s.spte a
  return s.setSpte a { x with loaded := true, dirty := x.dirty || write }

/-- The page of a file: `file_read_at` and `memset`. -/
def read_page (s : Mem) (x : Spte) (k : ℕ) : Mem :=
  s.setFrame k (zero_from x.page_read_bytes
    (file_read_at (s.files x.file_ptr) (s.frames k) x.page_read_bytes x.file_ofs).2)

/-- `page_fault` with a frame for a page that is not swapped. After a short read the
frame is freed and used all the same. -/
def load_page (s : Mem) (p v : ℕ) (write : Bool) (a k : ℕ) (x : Spte) (room : Bool) :
    Res Mem := do
  let (n, buf) := file_read_at (s.files x.file_ptr) (s.frames k) x.page_read_bytes x.file_ofs
  let s := s.setFrame k buf
  let s ← if n ≠ x.page_read_bytes then palloc_free_page s k else pure s
  let s := s.setFrame k (zero_from x.page_read_bytes (s.frames k))
  let (_, s) := install_fault_page s p v k x.writable room
  let s := allocate_frame s p k (some a)
  let s ← mark_loaded s a write
  return s.ret p

/-- The code after the loop around `swap_out`, for each caller of it. -/
def step_load (s : Mem) (p : ℕ) (w : Want) (k : ℕ) (c : Choice) : Res Mem :=
  match w with
  | .entry v write a => do
    let x ← s.spte a
    if x.swapped then return s.goto p (.swapin v write a k)
    else load_page s p v write a k x c.room
  | .grow v =>
    match install_fault_page s p v k true c.room with
    | (false, s) => .ok (s.exit p)
    | (true, s) =>
      let s := allocate_page s p v c.junk
      .ok ((allocate_frame s p k none).ret p)
  | .stack => do
    let s := s.setFrame k (fun i => if i < PGSIZE then 0 else s.frames k i)
    match install_fault_page s p (PHYS_PAGES - 1) k true c.room with
    | (true, s) => return s.ret p
    | (false, s) => do
      let s ← palloc_free_page s k
      return s.exit p

/-- `swap_in` up to its fourth comment. It returns with `swap_lock` if the page is
not swapped. -/
def step_swapin (s : Mem) (p v : ℕ) (write : Bool) (a k : ℕ) : Res Mem := do
  match ← lock_acquire s.swap_lock p with
  | .wait => return s
  | .got =>
    let s := { s with swap_lock := some p }
    match page_lookup s p v with
    | none => .error .dangling
    | some b => do
      let x ← s.spte b
      if x.swapped then
        let s := allocate_frame s p k (some b)
        let s := s.setSpte b { x with swapped := false }
        return s.goto p (.refill v write a k b)
      else return s.goto p (.install v write a k)

/-- What `swap_in` fills the frame with: a mapped page comes from its file, a page of
the stack or of a writable segment from the swap disk, any other from its file. -/
def refill (s : Mem) (x : Spte) (k : ℕ) : Res Mem :=
  if x.mmapped then .ok (read_page s x k)
  else if !x.load_executable || x.writable then do
    let s ← read_from_disk s k x.disk_sector_idx
    let t ← bitmap_set_multiple s.swap_table x.disk_sector_idx 8 false
    return { s with swap_table := t }
  else .ok (read_page s x k)

/-- The fifth part of `swap_in`. -/
def step_refill (s : Mem) (p v : ℕ) (write : Bool) (a k b : ℕ) : Res Mem := do
  let x ← s.spte b
  let s ← refill s x k
  return ({ s with swap_lock := none }).goto p (.install v write a k)

/-- `page_fault` after `swap_in`. -/
def step_install (s : Mem) (p v : ℕ) (write : Bool) (a k : ℕ) (c : Choice) : Res Mem := do
  let x ← s.spte a
  let (_, s) := install_fault_page s p v k x.writable c.room
  let s ← mark_loaded s a write
  return s.ret p

/-! ## `mmap` and `munmap` -/

/-- The entries `mmap` makes: page `i` of `page_cnt`. `dirty` and
`disk_sector_idx` are not assigned. -/
def mmap_entry (addr file mid file_len page_cnt i : ℕ) (junk : Spte) : Spte :=
  { junk with
    user_vaddr := addr + i
    load_executable := false
    loaded := false
    swapped := false
    writable := true
    page_read_bytes := min (file_len - i * PGSIZE) PGSIZE
    file_ofs := i * PGSIZE
    mmapped := true
    mid := mid
    file_ptr := file
    page_cnt := page_cnt }

/-- `mmap`, with the address in pages. It returns -1 without a change, or makes the
entries. -/
def mmap (s : Mem) (p fd addr : ℕ) (junk : ℕ → Spte) : Mem :=
  match (s.procs p).fd_list.find? (fun d => d.fd == fd) with
  | none => s
  | some d =>
    let file_len := (s.files d.file_ptr).length
    let page_cnt := (file_len + PGSIZE - 1) / PGSIZE
    if addr = 0 ∨ file_len = 0 ∨ addr = PHYS_PAGES - 1 ∨
        (List.range page_cnt).any (fun i => (page_lookup s p (addr + i)).isSome) then s
    else
      let mid := s.next_mid
      let s := { s with next_mid := mid + 1 }
      let s := s.upd p (fun t => { t with fd_list := t.fd_list.map (fun g =>
        if g.fd = fd then { g with mmapped := true, mapid := mid, vaddr := addr } else g) })
      (List.range page_cnt).foldl (fun s i =>
        insert_page s p (mmap_entry addr d.file_ptr mid file_len page_cnt i (junk i))) s

/-- `munmap` up to its loop. -/
def step_unmapping (s : Mem) (p mapping : ℕ) : Res Mem :=
  match (s.procs p).fd_list.find? (fun d => d.mmapped && d.mapid == mapping) with
  | none => .ok (s.ret p)
  | some d =>
    match page_lookup s p d.vaddr with
    | none => .error .dangling
    | some a => do
      match ← lock_acquire s.filesys_lock p with
      | .wait => return s
      | .got =>
        let x ← s.spte a
        return ({ s with filesys_lock := some p }).goto p (.munmap
          ⟨a, mapping, 0, (s.files x.file_ptr).length, x.user_vaddr, x.file_ofs⟩)

/-- The rest of a turn of the loop of `munmap`: the page is cleared whether it was
written or not. -/
def unmap_page (s : Mem) (p : ℕ) (m : Unmap) (x : Spte) : Res Mem := do
  let n := min m.file_len PGSIZE
  let s := s.setSpte m.spte { x with mid := 0 }
  let s ← pagedir_clear_page s p m.vaddr
  return s.goto p (.munmap { m with
    iter := m.iter + 1
    file_len := m.file_len - n
    vaddr := m.vaddr + 1
    file_ofs := m.file_ofs + n })

/-- The loop of `munmap`. `spte` is the entry of the first page in every turn. -/
def step_munmap (s : Mem) (p : ℕ) (m : Unmap) (c : Choice) : Res Mem := do
  let x ← s.spte m.spte
  if m.iter < x.page_cnt then
    let n := min m.file_len PGSIZE
    if x.dirty then
      match user_buffer s p m.vaddr (s.files x.file_ptr) n with
      | some buf =>
        let f := file_write_at (s.files x.file_ptr) buf n m.file_ofs
        unmap_page { s with files := Function.update s.files x.file_ptr f } p m x
      | none =>
        let s := s.upd p (fun t => { t with callers := .munmap m :: t.callers })
        page_fault s p (m.vaddr * PGSIZE) false c.near_esp
    else unmap_page s p m x
  else return s.goto p (.unlist m)

/-- `fte->spte->mid`. -/
def mid_of (s : Mem) (stale_mid : ℕ) (e : Fte) : ℕ :=
  match e.spte with
  | none => stale_mid
  | some a =>
    match s.sptes a with
    | some x => x.mid
    | none => stale_mid

/-- `munmap` after its loop: the frames of the mapping go back to the pool, and the
first entry is deleted. -/
def step_unlist (s : Mem) (p : ℕ) (m : Unmap) (c : Choice) : Res Mem := do
  let x ← s.spte m.spte
  let (gone, kept) := s.frame_table.partition (fun e => mid_of s c.stale_mid e == m.mapping)
  let s ← gone.foldlM (fun s e => palloc_free_page s e.frame) { s with frame_table := kept }
  let s := s.upd p (fun t => { t with
    sup_page_table := Function.update t.sup_page_table x.user_vaddr none
    fd_list := t.fd_list.map (fun d =>
      if d.mmapped && d.mapid == m.mapping then { d with mmapped := false } else d) })
  let s := { s with sptes := Function.update s.sptes m.spte none, filesys_lock := none }
  return s.ret p

/-! ## `exit` -/

/-- `thread_exit` up to `intr_disable`. -/
def thread_exit (s : Mem) (p : ℕ) : Res Mem := do
  let s ← process_exit s p
  return s.goto p .reap

/-- `exit`: unmaps what is mapped, then `thread_exit`. -/
def step_exit (s : Mem) (p : ℕ) : Res Mem :=
  match (s.procs p).fd_list.find? (fun d => d.mmapped) with
  | some d => .ok (s.upd p (fun t => { t with
      point := .unmapping d.mapid, callers := [.exit] }))
  | none => thread_exit s p

/-- `thread_exit` with interrupts off: the descriptors, the frame table entries and the
supplemental entries go. -/
def step_reap (s : Mem) (p : ℕ) : Mem :=
  let f := (s.procs p).exec_file
  let s := { s with
    frame_table := s.frame_table.filter (fun e => e.owner != p)
    sptes := fun a => (s.sptes a).filter (fun x => page_lookup s p x.user_vaddr != some a)
    files := Function.update s.files f
      { s.files f with deny_write_cnt := (s.files f).deny_write_cnt - 1 } }
  s.upd p (fun t => { t with fd_list := [], sup_page_table := fun _ => none, point := .dead })

/-! ## `load` -/

/-- A call of `load_segment`. -/
structure Segment where
  ofs : ℕ
  upage : ℕ
  read_bytes : ℕ
  zero_bytes : ℕ
  writable : Bool

/-- The entry `load_segment` makes for page `i` of a segment. `dirty`,
`disk_sector_idx`, `mid` and `page_cnt` are not assigned. -/
def segment_entry (file : ℕ) (g : Segment) (i : ℕ) (junk : Spte) : Spte :=
  { junk with
    user_vaddr := g.upage + i
    load_executable := true
    loaded := false
    page_read_bytes := min (g.read_bytes - i * PGSIZE) PGSIZE
    file_ofs := g.ofs + min (i * PGSIZE) g.read_bytes
    writable := g.writable
    file_ptr := file
    swapped := false
    mmapped := false }

/-- `load_segment`. -/
def load_segment (s : Mem) (p file : ℕ) (g : Segment) (junk : ℕ → Spte) : Res Mem := do
  ASSERT ((g.read_bytes + g.zero_bytes) % PGSIZE = 0)
  ASSERT (g.ofs % PGSIZE = 0)
  return (List.range ((g.read_bytes + g.zero_bytes) / PGSIZE)).foldl (fun s i =>
    insert_page s p (segment_entry file g i (junk i))) s

/-- `load`, from `pagedir_create` to the first statement of `setup_stack`. A process
number is not used twice. -/
def load (s : Mem) (p file : ℕ) (segs : List Segment) (junk : ℕ → Spte) : Res Mem := do
  let f := { s.files file with deny_write_cnt := (s.files file).deny_write_cnt + 1 }
  let s := { s with files := Function.update s.files file f }
  let s := s.upd p (fun t => { t with
    pagedir := fun _ => none
    tables := fun _ => false
    sup_page_table := fun _ => none
    fd_list := []
    point := .get .stack
    callers := []
    exec_file := file })
  segs.foldlM (fun s g => load_segment s p file g junk) s

/-! ## The system -/

/-- What happens next. -/
inductive Event
  /-- Process `p`, which must be new, loads an executable. -/
  | load (p file : ℕ) (segs : List Segment) (junk : ℕ → Spte)
  /-- User code of `p` reads the byte at offset `i` of page `v`, or writes it. -/
  | access (p v i : ℕ) (store : Option UInt8) (near_esp : Bool)
  /-- `open` of a file. -/
  | open_file (p file : ℕ)
  | mmap (p fd addr : ℕ) (junk : ℕ → Spte)
  | munmap (p mapping : ℕ)
  | exit (p : ℕ)
  /-- User code of `p` causes an exception other than a page fault: `kill`. -/
  | kill (p : ℕ)
  /-- The kernel code `p` is in goes on. -/
  | run (p : ℕ) (c : Choice)

/-- The process is running user code. -/
def Proc.inUser (t : Proc) : Bool :=
  match t.point with
  | .user => true
  | _ => false

/-- The number is free for a new process. -/
def Proc.isUnused (t : Proc) : Bool :=
  match t.point with
  | .unused => true
  | _ => false

/-- A memory access of user code: through the page directory if that allows it. -/
def user_access (s : Mem) (p v i : ℕ) (store : Option UInt8) (near_esp : Bool) : Res Mem :=
  match (s.procs p).pagedir v, store with
  | some _, none => .ok s
  | some pte, some b =>
    if pte.writable then
      .ok (s.setFrame pte.frame (Function.update (s.frames pte.frame) i b))
    else page_fault s p (v * PGSIZE + i) true near_esp
  | none, _ => page_fault s p (v * PGSIZE + i) store.isSome near_esp

/-- `open`, as far as the descriptor goes. -/
def open_file (s : Mem) (p file : ℕ) : Mem :=
  let d : FdElem := ⟨s.next_fd, file, false, 0, 0⟩
  { s with next_fd := s.next_fd + 1 }.upd p (fun t => { t with fd_list := t.fd_list ++ [d] })

/-- One kernel step of a process. -/
def run (s : Mem) (p : ℕ) (c : Choice) : Res Mem :=
  match (s.procs p).point with
  | .user => .ok s
  | .get w => step_get s p w
  | .evict w => step_evict s p w
  | .save w e => step_save s p w e
  | .writeback w e => step_writeback s p w e c
  | .free w k => step_free s p w k
  | .load w k => step_load s p w k c
  | .swapin v write a k => step_swapin s p v write a k
  | .refill v write a k b => step_refill s p v write a k b
  | .install v write a k => step_install s p v write a k c
  | .unmapping mapping => step_unmapping s p mapping
  | .munmap m => step_munmap s p m c
  | .unlist m => step_unlist s p m c
  | .exit => step_exit s p
  | .reap => .ok (step_reap s p)
  | .dead => .ok s
  | .unused => .ok s

/-- What an event does; one that cannot happen in the state does nothing. -/
def exec (s : Mem) : Event → Res Mem
  | .load p file segs junk =>
    if (s.procs p).isUnused then load s p file segs junk else .ok s
  | .access p v i store near_esp =>
    if (s.procs p).inUser && i < PGSIZE then user_access s p v i store near_esp else .ok s
  | .open_file p file => if (s.procs p).inUser then .ok (open_file s p file) else .ok s
  | .mmap p fd addr junk =>
    if (s.procs p).inUser then .ok (mmap s p fd addr junk) else .ok s
  | .munmap p mapping =>
    if (s.procs p).inUser then .ok (s.goto p (.unmapping mapping)) else .ok s
  | .exit p => if (s.procs p).inUser then .ok (s.exit p) else .ok s
  | .kill p => if (s.procs p).inUser then thread_exit s p else .ok s
  | .run p c => run s p c

/-- The machine after `swap_init`, `frame_init` and `palloc_init`, with any number of
user frames and swap sectors and any files. -/
structure Boot (s : Mem) : Prop where
  unused : ∀ p, s.procs p = {
    pagedir := fun _ => none
    tables := fun _ => false
    sup_page_table := fun _ => none
    fd_list := []
    point := .unused
    callers := []
    exec_file := 0 }
  sptes : ∀ a, s.sptes a = none
  frame_table : s.frame_table = []
  user_pool : ∀ k, s.used_map.bits k = false
  swap_table : ∀ i, s.swap_table.bits i = false
  swap_lock : s.swap_lock = none
  filesys_lock : s.filesys_lock = none
  next_mid : 1 ≤ s.next_mid

/-- The system: any processes, in any order of steps. -/
def paging : StepSystem.System Mem Event where
  init := Boot
  step s e s' := exec s e = .ok s'

end Pintos.Vm
