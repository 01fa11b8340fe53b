/-
`filesys/file.c`, and the system calls on descriptors over it, down to their assertions.

A call takes unsigned words from the process; `create`, `seek`, `read` and `write` convert
one of them to the signed `off_t`, and `file_seek` and `inode_create` assert two layers
below that it is not negative. The model keeps the sign: a call either returns, or ends the
process with `exit (-1)`, or stops at one of four named assertions (`Stop.failed`), or stops
anywhere else in the file system (`Stop.fault`).

A pointer that is not the process's own ends the process, and its files are closed on the
way, the executable last. That is where `inode_allow_write` is reached; `inode_deny_write`
is called by `load` only.
-/
import Pintos.Filesys.Calls

set_option autoImplicit false

namespace Pintos.Filesys.Descriptor

open Pintos.Kernel WordImage

/-! ## How a call ends -/

/-- The functions whose assertions are told apart. -/
inductive Site
  | file_seek
  | inode_create
  | inode_deny_write
  | inode_allow_write
  deriving DecidableEq

/-- How a call stops short of returning. -/
inductive Stop
  /-- `exit (-1)` has run to its end. -/
  | exit
  /-- An `ASSERT` in the function has failed. -/
  | failed (site : Site)
  /-- It stopped elsewhere. -/
  | fault (f : Fault)
  deriving DecidableEq

/-- A system call. -/
abbrev Call (α : Type) := Except Stop α

variable {α β : Type}

/-- `ASSERT (p)` in the function `site`. -/
def check (site : Site) (p : Prop) [Decidable p] : Call Unit :=
  if p then .ok () else .error (.failed site)

/-- File system code below the four functions. -/
def lift : Res α → Call α
  | .ok a => .ok a
  | .error f => .error (.fault f)

/-- None of the four assertions fails. -/
def NoFail (x : Call α) : Prop := ∀ site, x ≠ .error (.failed site)

@[simp] theorem noFail_ok (a : α) : NoFail (.ok a : Call α) := fun _ h => by cases h

@[simp] theorem noFail_pure (a : α) : NoFail (pure a : Call α) := fun _ h => by cases h

@[simp] theorem noFail_lift (x : Res α) : NoFail (lift x) := by
  intro site h
  cases x with
  | ok a => cases h
  | error f => cases h

/-- In a sequence nothing fails when nothing does in its first half and, if that returns,
nothing does in the second. -/
theorem noFail_bind {x : Call α} {f : α → Call β} :
    NoFail (x >>= f) ↔ NoFail x ∧ ∀ a, x = .ok a → NoFail (f a) := by
  cases x with
  | error e =>
    constructor
    · intro h
      exact ⟨fun site hx => h site (by cases hx; rfl), fun a ha => by cases ha⟩
    · rintro ⟨h, -⟩ site hx
      exact h site (by cases hx; rfl)
  | ok a =>
    constructor
    · intro h
      refine ⟨noFail_ok a, fun b hb => ?_⟩
      obtain rfl := Except.ok.inj hb
      exact h
    · exact fun h => h.2 a rfl

theorem lift_eq_ok {x : Res α} {a : α} (h : lift x = .ok a) : x = .ok a := by
  cases x with
  | ok b => rw [Except.ok.inj h]
  | error f => cases h

/-! ## `filesys/file.c` -/

/-- `struct file`. The position is never negative: it starts at 0, `file_seek` asserts it,
and reads and writes only raise it. -/
structure File where
  inode : ℕ
  pos : ℕ
  deny_write : Bool

/-- `struct fd_elem`. -/
structure FdElem where
  fd : BitVec 32
  file_ptr : File
  isdir : Bool

/-- What `file_seek` does to the position. -/
def file_seek (f : File) (new_pos : ℤ) : Call File := do
  check .file_seek (0 ≤ new_pos)
  return { f with pos := new_pos.toNat }

/-- `inode_allow_write`. -/
def inode_allow_write (st : Store) (x : ℕ) : Call Store := do
  let inode ← lift (st.deref x)
  check .inode_allow_write (0 < inode.deny_write_cnt)
  check .inode_allow_write (inode.deny_write_cnt ≤ inode.open_cnt)
  return st.set_inode x (some { inode with deny_write_cnt := inode.deny_write_cnt - 1 })

/-- `file_close`, with `file_allow_write`. -/
def file_close (st : Store) (f : File) : Call Store := do
  let st ← (if f.deny_write then inode_allow_write st f.inode else .ok st)
  lift (st.inode_close f.inode)

/-- The extension of a file to `new_eof` bytes ahead of a write at `offset`. With a negative
size `new_eof` is below `offset`. -/
def extend_to (s : FileSys) (inode : Inode) (new_eof offset : ℕ) : Res (Inode × FileSys) := do
  let r ← (if needs_blocks inode.data.length new_eof then add_blocks s inode new_eof
    else .ok (inode, s))
  let s ← fill_zeros r.2 r.1.data r.1.data.length offset
  let inode := { r.1 with data := { r.1.data with length := new_eof } }
  let s ← disk_write (clear_arrays s) inode.sector (inode_image inode.data)
  return (inode, s)

/-- `inode_write_at` with a size that may be negative, up to `rounds` rounds of its loop. -/
def inode_write_at (s : FileSys) (inode : Inode) (buffer : ℕ → UInt8) (size : ℤ)
    (offset rounds : ℕ) : Res (ℕ × Inode × FileSys) :=
  if inode.deny_write_cnt ≠ 0 then .ok (0, inode, s)
  else if 2 ^ 31 ≤ offset + size then .error .overflow
  else do
    let r ← (if inode.data.length < offset + size then
        extend_to s inode (offset + size).toNat offset
      else .ok (inode, s))
    let w ← write_loop r.1 buffer rounds size.toNat offset 0 IndexCache.fresh r.2
    return (w.1, r.1, w.2)

/-- On a size that is not negative, and in as many rounds, it is the write of the block map. -/
theorem inode_write_at_nat (s : FileSys) (inode : Inode) (buffer : ℕ → UInt8) (n offset : ℕ) :
    inode_write_at s inode buffer n offset n = Filesys.inode_write_at s inode buffer n offset := by
  have hover : (2 ^ 31 ≤ (offset : ℤ) + n) ↔ 2 ^ 31 ≤ offset + n := by omega
  have hext : ((inode.data.length : ℤ) < (offset : ℤ) + n) ↔ inode.data.length < offset + n := by
    omega
  have heof : ((offset : ℤ) + n).toNat = offset + n := by omega
  unfold inode_write_at Filesys.inode_write_at inode_write_at_with
  simp only [hover, hext, heof, Int.toNat_natCast]
  rfl

/-! ## Processes -/

/-- What the calls find: the file system and the current directory, the open files, the
executable (`file_ptr`, once `load_success` is set), and what `munmap` will write back. -/
structure State where
  st : Store
  curr_dir : Option ℕ
  fd_list : List FdElem
  file_ptr : Option File
  mapped : List (ℕ × WriteReq)

/-- The descriptors on an inode. -/
def fd_count (l : List FdElem) (x : ℕ) : ℕ := (l.filter (fun e => e.file_ptr.inode = x)).length

/-- The inode is open and its writers are denied, each by an opener of its own besides `n`
further ones. -/
def Covered (st : Store) (x n : ℕ) : Prop :=
  ∃ inode, st.open_inodes x = some inode ∧ 0 < inode.deny_write_cnt ∧
    inode.deny_write_cnt + n ≤ inode.open_cnt

/-- A process. Its descriptors are on open inodes. Only `load` denies writes, on a file of its
own, and every descriptor counts as an opener. -/
structure Process extends State where
  opened : ∀ e ∈ fd_list, st.open_inodes e.file_ptr.inode ≠ none
  open_writable : ∀ e ∈ fd_list, e.file_ptr.deny_write = false
  covered : ∀ f, file_ptr = some f → Covered st f.inode (fd_count fd_list f.inode)

/-- What `munmap` writes back, mapping by mapping. -/
def unmap_all : List (ℕ × WriteReq) → Store → Call Store
  | [], st => .ok st
  | (x, w) :: rest, st => do
    let st ← lift (st.inode_write x w)
    unmap_all rest st

/-- The loop of `exit` over `fd_list`. -/
def close_all : List FdElem → Store → Call Store
  | [], st => .ok st
  | e :: rest, st => do
    let st ← file_close st e.file_ptr
    close_all rest st

/-- `exit (-1)`: the mappings, the descriptors, and in `thread_exit` the executable. -/
def exit (s : State) : Call α := do
  let st ← unmap_all s.mapped s.st
  let st ← close_all s.fd_list st
  match s.file_ptr with
  | none => .error .exit
  | some f => do
    let _ ← file_close st f
    .error .exit

/-! ## The calls -/

/-- A path from the process: whether `check_userptr` and `strlen` get through it. -/
structure PathArg where
  ok : Bool
  name : Str

/-- A buffer of the process: whether its address passes the check, and the round of the
copying loop in which an access to it ends the process, if there is one. -/
structure Buffer where
  ok : Bool
  bytes : ℕ → UInt8
  fault : Option ℕ

/-- `fd_list_iter`. -/
def fd_list_iter (l : List FdElem) (fd : BitVec 32) : Option FdElem := l.find? (fun e => e.fd = fd)

/-- `temp->file_ptr->pos = pos`. -/
def set_pos (l : List FdElem) (fd : BitVec 32) (pos : ℕ) : List FdElem :=
  l.map fun e => if e.fd = fd then { e with file_ptr := { e.file_ptr with pos := pos } } else e

/-- `inode_create`. -/
def inode_create (s : FileSys) (sector : ℕ) (length : ℤ) (isdir : Bool) :
    Call (Bool × FileSys) := do
  check .inode_create (0 ≤ length)
  lift (Filesys.inode_create s sector length.toNat isdir)

/-- `filesys_create`, from the directory on. -/
def create_in (st : Store) (dir : Option ℕ) (file_name : Str) (initial_size : ℤ) :
    Call (Bool × Store) :=
  match dir with
  | none => .ok (false, st)
  | some d => do
    let a ← lift (free_map_allocate st.fs 1)
    match a.1 with
    | none => return (false, { st with fs := a.2 })
    | some inode_sector =>
      let c ← inode_create a.2 inode_sector initial_size false
      if c.1 then do
        let r ← lift (dir_add { st with fs := c.2, live := inode_sector :: st.live } d file_name
          inode_sector)
        if r.1 then return r
        else do
          let fs ← lift (free_map_release r.2.fs inode_sector 1)
          return (false, { r.2 with fs := fs, live := st.live })
      else do
        let fs ← lift (free_map_release c.2 inode_sector 1)
        return (false, { st with fs := fs })

/-- The directory in `filesys_create`, null for a current directory that is removed. -/
def create_target (st : Store) (curr_dir : Option ℕ) (name : Str) : Res (Option ℕ × Store) := do
  let p ← parse_path name
  match curr_dir with
  | none =>
    let st ← dir_open_root st
    return (some ROOT_DIR_SECTOR, st)
  | some c =>
    let inode ← st.deref c
    if inode.removed then return (none, st)
    else create_dir st c name p.1

/-- `filesys_create`. -/
def filesys_create (st : Store) (curr_dir : Option ℕ) (name : Str) (initial_size : ℤ) :
    Call (Bool × Store) := do
  let r ← lift (create_target st curr_dir name)
  let p ← lift (parse_path name)
  create_in r.2 r.1 p.2 initial_size

/-- `create`. -/
def create (s : State) (file : PathArg) (initial_size : BitVec 32) : Call (ℤ × State) :=
  if file.ok = false then exit s
  else if 14 < file.name.length then .ok (0, s)
  else do
    let r ← lift (filesys_open s.st s.curr_dir file.name)
    match r.1 with
    | none =>
      let c ← filesys_create r.2 s.curr_dir file.name initial_size.toInt
      return (if c.1 then 1 else 0, { s with st := c.2 })
    | some _ => return (0, { s with st := r.2 })

/-- `seek`. -/
def seek (s : State) (fd position : BitVec 32) : Call (ℤ × State) :=
  match fd_list_iter s.fd_list fd with
  | none => .ok (0, s)
  | some temp => do
    let f ← file_seek temp.file_ptr position.toInt
    return (0, { s with fd_list := set_pos s.fd_list fd f.pos })

/-- `tell`. -/
def tell (s : State) (fd : BitVec 32) : Call (ℤ × State) :=
  match fd_list_iter s.fd_list fd with
  | none => .ok (0, s)
  | some temp => .ok (temp.file_ptr.pos, s)

/-- `filesize`. -/
def filesize (s : State) (fd : BitVec 32) : Call (ℤ × State) :=
  match fd_list_iter s.fd_list fd with
  | none => .ok (0, s)
  | some temp => do
    let inode ← lift (s.st.deref temp.file_ptr.inode)
    return (inode.data.length, s)

/-- `read`, with `file_read`. A negative size reads nothing. -/
def read (s : State) (fd : BitVec 32) (buffer : Buffer) (size : BitVec 32) : Call (ℤ × State) :=
  if buffer.ok = false then exit s
  else if fd = 0 then .ok (1, s)
  else
    match fd_list_iter s.fd_list fd with
    | none => .ok (-1, s)
    | some temp => do
      let inode ← lift (s.st.deref temp.file_ptr.inode)
      let bytes ← lift (inode_read_at s.st.fs inode size.toInt.toNat temp.file_ptr.pos)
      if buffer.fault.isSome then exit s
      else return (bytes.length,
        { s with fd_list := set_pos s.fd_list fd (temp.file_ptr.pos + bytes.length) })

/-- `write`, with `putbuf` and `file_write`. Where the buffer ends the process, the rounds
before have been written. -/
def write (s : State) (fd : BitVec 32) (buffer : Buffer) (size : BitVec 32) : Call (ℤ × State) :=
  if buffer.ok = false then exit s
  else if fd = 1 then
    if buffer.fault.isSome then exit s else .ok (size.toInt, s)
  else
    match fd_list_iter s.fd_list fd with
    | none => .ok (-1, s)
    | some temp => do
      let inode ← lift (s.st.deref temp.file_ptr.inode)
      if temp.isdir then return (-1, s)
      else do
        let w ← lift (inode_write_at s.st.fs inode buffer.bytes size.toInt temp.file_ptr.pos
          (buffer.fault.getD size.toInt.toNat))
        let s := { s with
          st := { s.st.set_inode temp.file_ptr.inode (some w.2.1) with fs := w.2.2 } }
        if buffer.fault.isSome then exit s
        else return (w.1, { s with fd_list := set_pos s.fd_list fd (temp.file_ptr.pos + w.1) })

/-- A call with its arguments. -/
inductive SysCall
  | create (file : PathArg) (initial_size : BitVec 32)
  | seek (fd position : BitVec 32)
  | read (fd : BitVec 32) (buffer : Buffer) (size : BitVec 32)
  | write (fd : BitVec 32) (buffer : Buffer) (size : BitVec 32)
  | filesize (fd : BitVec 32)
  | tell (fd : BitVec 32)

/-- What a call does. -/
def SysCall.run (s : State) : SysCall → Call (ℤ × State)
  | .create file initial_size => Descriptor.create s file initial_size
  | .seek fd position => Descriptor.seek s fd position
  | .read fd buffer size => Descriptor.read s fd buffer size
  | .write fd buffer size => Descriptor.write s fd buffer size
  | .filesize fd => Descriptor.filesize s fd
  | .tell fd => Descriptor.tell s fd

/-! ## The way out

`exit` closes the descriptors before the executable. What keeps the assertions of
`inode_allow_write` true on the way is `Covered`: a write leaves it, and the close of a
descriptor uses up one of the further openers. -/

/-- The counts of an inode are what they were. -/
def SameCounts (inode inode' : Inode) : Prop :=
  inode'.open_cnt = inode.open_cnt ∧ inode'.deny_write_cnt = inode.deny_write_cnt

theorem add_blocks_counts {s s' : FileSys} {inode inode' : Inode} {n : ℕ}
    (h : add_blocks s inode n = .ok (inode', s')) : SameCounts inode inode' := by
  obtain ⟨s₁, -, h⟩ := bind_eq_ok h
  obtain ⟨a, -, h⟩ := bind_eq_ok h
  by_cases hok : a.1 = true
  · rw [if_pos hok] at h
    obtain ⟨s₂, -, h⟩ := bind_eq_ok h
    rw [← (Prod.mk.inj (Except.ok.inj h)).1]
    exact ⟨rfl, rfl⟩
  · rw [if_neg hok] at h
    rw [← (Prod.mk.inj (Except.ok.inj h)).1]
    exact ⟨rfl, rfl⟩

theorem extend_to_counts {s s' : FileSys} {inode inode' : Inode} {new_eof offset : ℕ}
    (h : extend_to s inode new_eof offset = .ok (inode', s')) : SameCounts inode inode' := by
  obtain ⟨⟨i, s₀⟩, hblocks, h⟩ := bind_eq_ok h
  obtain ⟨s₁, -, h⟩ := bind_eq_ok h
  obtain ⟨s₂, -, h⟩ := bind_eq_ok h
  obtain ⟨rfl, -⟩ := Prod.mk.inj (Except.ok.inj h)
  have hi : SameCounts inode i := by
    by_cases hneeds : needs_blocks inode.data.length new_eof
    · rw [if_pos hneeds] at hblocks
      exact add_blocks_counts hblocks
    · rw [if_neg hneeds] at hblocks
      obtain ⟨rfl, -⟩ := Prod.mk.inj (Except.ok.inj hblocks)
      exact ⟨rfl, rfl⟩
  exact hi

/-- A write leaves the counts, whatever its size and wherever it stops. -/
theorem inode_write_at_counts {s s' : FileSys} {inode inode' : Inode} {b : ℕ → UInt8} {size : ℤ}
    {offset rounds n : ℕ} (h : inode_write_at s inode b size offset rounds = .ok (n, inode', s')) :
    SameCounts inode inode' := by
  unfold inode_write_at at h
  by_cases hdeny : inode.deny_write_cnt ≠ 0
  · rw [if_pos hdeny] at h
    obtain ⟨-, h⟩ := Prod.mk.inj (Except.ok.inj h)
    rw [(Prod.mk.inj h).1]
    exact ⟨rfl, rfl⟩
  rw [if_neg hdeny] at h
  by_cases hover : 2 ^ 31 ≤ offset + size
  · rw [if_pos hover] at h
    cases h
  rw [if_neg hover] at h
  obtain ⟨r, hgrow, h⟩ := bind_eq_ok h
  obtain ⟨w, -, h⟩ := bind_eq_ok h
  obtain ⟨-, h⟩ := Prod.mk.inj (Except.ok.inj h)
  rw [← (Prod.mk.inj h).1]
  by_cases hext : inode.data.length < offset + size
  · rw [if_pos hext] at hgrow
    exact extend_to_counts hgrow
  · rw [if_neg hext] at hgrow
    obtain rfl := Except.ok.inj hgrow
    exact ⟨rfl, rfl⟩

variable {st st' : Store} {x y n : ℕ}

/-- Storing an inode with the same counts. -/
theorem Covered.set_inode {inode inode' : Inode} (h : Covered st x n)
    (hopen : st.open_inodes y = some inode) (hsame : SameCounts inode inode') (fs : FileSys) :
    Covered { st.set_inode y (some inode') with fs := fs } x n := by
  obtain ⟨i, hi, hdeny, hcnt⟩ := h
  by_cases hxy : x = y
  · subst hxy
    obtain rfl := Option.some.inj (hopen.symm.trans hi)
    refine ⟨inode', set_inode_self _, ?_, ?_⟩
    · rw [hsame.2]
      exact hdeny
    · rw [hsame.1, hsame.2]
      exact hcnt
  · exact ⟨i, (set_inode_of_ne _ hxy).trans hi, hdeny, hcnt⟩

theorem Covered.inode_write {w : WriteReq} (h : Covered st x n)
    (hwrite : st.inode_write y w = .ok st') : Covered st' x n := by
  unfold Store.inode_write at hwrite
  cases hopen : st.open_inodes y with
  | none =>
    rw [hopen] at hwrite
    cases hwrite
  | some inode =>
    rw [hopen] at hwrite
    obtain ⟨r, hw, hwrite⟩ := bind_eq_ok hwrite
    obtain rfl := Except.ok.inj hwrite
    rw [← inode_write_at_nat] at hw
    exact h.set_inode hopen (inode_write_at_counts hw) _

/-- Closing another inode, or one of the further openers. -/
theorem Covered.inode_close (h : Covered st x (n + if y = x then 1 else 0))
    (hclose : st.inode_close y = .ok st') : Covered st' x n := by
  obtain ⟨i, hi, hdeny, hcnt⟩ := h
  unfold Store.inode_close at hclose
  by_cases hyx : y = x
  · subst hyx
    rw [if_pos rfl] at hcnt
    rw [hi] at hclose
    dsimp only at hclose
    rw [if_neg (by omega)] at hclose
    obtain rfl := Except.ok.inj hclose
    have hrest : i.deny_write_cnt + n ≤ i.open_cnt - 1 := by omega
    exact ⟨_, set_inode_self _, hdeny, hrest⟩
  rw [if_neg hyx] at hcnt
  have hother : ∀ inode, (st.set_inode y inode).open_inodes x = some i := fun inode =>
    (set_inode_of_ne inode (Ne.symm hyx)).trans hi
  cases hopen : st.open_inodes y with
  | none =>
    rw [hopen] at hclose
    cases hclose
  | some inode =>
    rw [hopen] at hclose
    dsimp only at hclose
    by_cases hlast : inode.open_cnt - 1 = 0
    · rw [if_pos hlast] at hclose
      by_cases hremoved : inode.removed = true
      · rw [if_pos hremoved] at hclose
        obtain ⟨fs, -, hclose⟩ := bind_eq_ok hclose
        obtain rfl := Except.ok.inj hclose
        exact ⟨i, hother none, hdeny, hcnt⟩
      · rw [if_neg hremoved] at hclose
        obtain rfl := Except.ok.inj hclose
        exact ⟨i, hother none, hdeny, hcnt⟩
    · rw [if_neg hlast] at hclose
      obtain rfl := Except.ok.inj hclose
      exact ⟨i, hother _, hdeny, hcnt⟩

/-- The file is not there, its directory is, and a sector is free: `create` comes to
`inode_create`. -/
def Creates (s : State) (name : Str) : Prop :=
  ∃ st₁ d st₂ sector fs, filesys_open s.st s.curr_dir name = .ok (none, st₁) ∧
    create_target st₁ s.curr_dir name = .ok (some d, st₂) ∧
    free_map_allocate st₂.fs 1 = .ok (some sector, fs)

/-- The arguments with which a call fails none of the assertions: a position that is not
negative as an `off_t`, or no such descriptor; a size that is not, or a `create` that does
not come to `inode_create`. -/
def SysCall.Safe (s : State) : SysCall → Prop
  | .create file initial_size => initial_size.toNat < 2 ^ 31 ∨ file.ok = false ∨
      14 < file.name.length ∨ ¬ Creates s file.name
  | .seek fd position => position.toNat < 2 ^ 31 ∨ fd_list_iter s.fd_list fd = none
  | _ => True

variable (p : Process)

end Pintos.Filesys.Descriptor
