/-
The disk commands that closing a file issues, and the interrupt level they are issued at.

`issue_pio_command` asserts that interrupts are on, since the completion of a command is an
interrupt. The functions from `disk_read` and `disk_write` up to `inode_close` are given here
a second time with a trace: each command that is issued is an event, and the level decides
whether it gets through. With interrupts on nothing else is new (`inode_close_on`).

`thread_exit` closes the executable of a process after `intr_disable`. The question is when
that comes to the disk.
-/
import Pintos.Library.Traced
import Pintos.Filesys.Descriptor

set_option autoImplicit false

namespace Pintos.Filesys.DiskIo

open Pintos.Kernel WordImage Traced Descriptor

/-! ## `devices/disk.c` -/

/-- `enum intr_level`. -/
inductive IntrLevel
  | off
  | on
  deriving DecidableEq

/-- A call of `disk_read` or of `disk_write`, with the sector. -/
inductive Command
  | read (sec_no : ℕ)
  | write (sec_no : ℕ)
  deriving DecidableEq

/-- Code that may come to the disk. -/
abbrev Io (α : Type) := Traced Fault Command α

/-- Code that does not. -/
def quietly {α : Type} (x : Res α) : Io α := ⟨[], x⟩

section Level

variable (level : IntrLevel)

/-- `issue_pio_command`. -/
def issue_pio_command : Io Unit := quietly (ASSERT (level = .on))

/-- `disk_read`. -/
def disk_read (s : FileSys) (sec_no : ℕ) : Io Sector := do
  emit (.read sec_no)
  let b ← quietly (Filesys.disk_read s sec_no)
  issue_pio_command level
  return b

/-- `disk_write`. -/
def disk_write (s : FileSys) (sec_no : ℕ) (buffer : Sector) : Io FileSys := do
  emit (.write sec_no)
  let s ← quietly (Filesys.disk_write s sec_no buffer)
  issue_pio_command level
  return s

/-! ## The write of the free map -/

/-- `if (buffer_flag != 128) …`. -/
def load_indirect (s : FileSys) (d : InodeDisk) (c : IndexCache) : Io IndexCache :=
  if c.buffer_flag ≠ 128 then do
    let b ← disk_read level s d.indirect_block
    return { c with index_buffer := word b, buffer_flag := 128 }
  else pure c

/-- `if (!buffer_parent_flag) …`. -/
def load_parent (s : FileSys) (d : InodeDisk) (c : IndexCache) : Io IndexCache :=
  if c.buffer_parent_flag = false then do
    let b ← disk_read level s d.doubly_indirect_block
    return { c with index_parent_buffer := word b, buffer_parent_flag := true }
  else pure c

/-- `if (buffer_flag != (off_div_size - DIRECT_LEN-128)/128) …`. -/
def load_child (s : FileSys) (j : ℕ) (c : IndexCache) : Io IndexCache :=
  if c.buffer_flag ≠ j then
    if 128 ≤ j then stop .bounds
    else do
      let b ← disk_read level s (c.index_parent_buffer j)
      return { c with index_buffer := word b, buffer_flag := j }
  else pure c

/-- The sector of block `off_div_size`. -/
def block_sector (s : FileSys) (d : InodeDisk) (c : IndexCache) (off_div_size : ℕ) :
    Io (ℕ × IndexCache) :=
  if off_div_size < DIRECT_LEN then
    pure (d.direct_block off_div_size, c)
  else if off_div_size < DIRECT_LEN + 128 then do
    let c ← load_indirect level s d c
    return (c.index_buffer (off_div_size - DIRECT_LEN), c)
  else do
    let c ← load_parent level s d c
    let c ← load_child level s ((off_div_size - DIRECT_LEN - 128) / 128) c
    return (c.index_buffer ((off_div_size - DIRECT_LEN - 128) % 128), c)

/-- One chunk. -/
def write_chunk (s : FileSys) (sector_idx : ℕ) (buffer : ℕ → UInt8)
    (bytes_written sector_ofs n : ℕ) : Io FileSys :=
  if sector_ofs = 0 ∧ n = 512 then
    disk_write level s sector_idx (fun j => buffer (bytes_written + j))
  else do
    let old ← disk_read level s sector_idx
    disk_write level s sector_idx (bounce old buffer bytes_written sector_ofs n)

/-- The `while (size > 0)` loop of `inode_write_at`. -/
def write_loop (inode : Inode) (buffer : ℕ → UInt8) :
    (fuel size offset bytes_written : ℕ) → IndexCache → FileSys → Io (ℕ × FileSys)
  | 0, _, _, bytes_written, _, s => pure (bytes_written, s)
  | fuel + 1, size, offset, bytes_written, c, s =>
    if size = 0 then pure (bytes_written, s)
    else do
      let r ← block_sector level s inode.data c (offset / 512)
      let n := chunk_size inode.data size offset
      if n = 0 then pure (bytes_written, s)
      else do
        let s ← write_chunk level s r.1 buffer bytes_written (offset % 512) n
        write_loop inode buffer fuel (size - n) (offset + n) (bytes_written + n) r.2 s

/-- One round of `fill_zeros`. -/
def zero_tail (s : FileSys) (sector_idx ofs : ℕ) : Io FileSys :=
  if ofs = 0 then disk_write level s sector_idx (fun _ => 0)
  else do
    let b ← disk_read level s sector_idx
    disk_write level s sector_idx (fun j => if ofs ≤ j then 0 else b j)

/-- The loop of `fill_zeros`. -/
def fill_zeros_loop (d : InodeDisk) : (fuel old_eof size : ℕ) → FileSys → Io FileSys
  | 0, _, _, s => pure s
  | fuel + 1, old_eof, size, s =>
    if size = 0 then pure s
    else do
      let sector_idx ← quietly (array_sector s d (old_eof / 512))
      let n := 512 - old_eof % 512
      let s ← zero_tail level s sector_idx (old_eof % 512)
      fill_zeros_loop d fuel (old_eof + n) (size - n) s

/-- The extension of the free-map file. To add blocks to it `inode_write_at` would call
itself for the free map, without end. -/
def extend (s : FileSys) (inode : Inode) (size offset : ℕ) : Io (Inode × FileSys) := do
  let r ← (if needs_blocks inode.data.length (offset + size) then stop .diverge
    else pure (inode, s))
  let s ← fill_zeros_loop level r.1.data (offset - r.1.data.length - 1) r.1.data.length
    (offset - r.1.data.length - 1) r.2
  let inode := { r.1 with data := { r.1.data with length := offset + size } }
  let s ← disk_write level (clear_arrays s) inode.sector (inode_image inode.data)
  return (inode, s)

/-- `inode_write_at`, on the free-map file. -/
def inode_write_at (s : FileSys) (inode : Inode) (buffer : ℕ → UInt8) (size offset : ℕ) :
    Io (ℕ × Inode × FileSys) :=
  if inode.deny_write_cnt ≠ 0 then pure (0, inode, s)
  else if 2 ^ 31 ≤ offset + size then stop .overflow
  else do
    let r ← (if inode.data.length < offset + size then extend level s inode size offset
      else pure (inode, s))
    let w ← write_loop level r.1 buffer size size offset 0 IndexCache.fresh r.2
    return (w.1, r.1, w.2)

/-- `bitmap_write (free_map, free_map_file)`. -/
def bitmap_write (s : FileSys) : Io (Bool × FileSys) :=
  match s.free_map_file with
  | none => stop .dangling
  | some f => do
    let r ← inode_write_at level s f (bitmap_bytes s.free_map) (byte_cnt s.free_map.bit_cnt) 0
    return (r.1 == byte_cnt s.free_map.bit_cnt, { r.2.2 with free_map_file := some r.2.1 })

/-- `free_map_release`. -/
def free_map_release (s : FileSys) (sector cnt : ℕ) : Io FileSys := do
  quietly (ASSERT (sector + cnt ≤ s.free_map.bit_cnt ∧ bitmap_all s.free_map sector cnt = true))
  let b ← quietly (bitmap_set_multiple s.free_map sector cnt false)
  let w ← bitmap_write level { s with free_map := b }
  return w.2

/-! ## `inode_close` -/

/-- Releasing a list of sectors one by one. -/
def release_all : List ℕ → FileSys → Io FileSys
  | [], s => pure s
  | n :: l, s => do
    let s ← free_map_release level s n 1
    release_all l s

/-- The loop over the children of the doubly indirect block. -/
def release_children (buffer : ℕ → ℕ) (m : ℕ) : (cnt i : ℕ) → FileSys → Io FileSys
  | 0, _, s => pure s
  | cnt + 1, i, s =>
    if 128 ≤ i then stop .bounds
    else do
      let b ← disk_read level s (buffer i)
      let s ← free_map_release level s (buffer i) 1
      let s ← release_all level ((List.range m).map (word b)) s
      release_children buffer m cnt (i + 1) s

/-- The block deallocation in `inode_close` of a removed inode. -/
def release_blocks (s : FileSys) (d : InodeDisk) : Io FileSys := do
  let num_blocks := d.length / 512 + (if d.length % 512 ≠ 0 then 1 else 0)
  let s ← release_all level ((List.range (min num_blocks DIRECT_LEN)).map d.direct_block) s
  let s ← (if DIRECT_LEN < num_blocks then do
      let b ← disk_read level s d.indirect_block
      let s ← free_map_release level s d.indirect_block 1
      let s ← release_all level
        ((List.range (min (num_blocks - DIRECT_LEN + 1) 128)).map (word b)) s
      if 128 ≤ num_blocks - DIRECT_LEN then stop .bounds else pure s
    else pure s)
  if DIRECT_LEN + 128 < num_blocks then do
    let b ← disk_read level s d.doubly_indirect_block
    let s ← free_map_release level s d.doubly_indirect_block 1
    release_children level (word b) ((num_blocks - DIRECT_LEN - 128) % 128 + 1)
      ((num_blocks - DIRECT_LEN - 128) / 128 + 1) 0 s
  else pure s

/-- `inode_close`. -/
def inode_close (st : Store) (sector : ℕ) : Io Store :=
  match st.open_inodes sector with
  | none => stop .dangling
  | some inode =>
    if inode.open_cnt - 1 = 0 then
      let st := st.set_inode sector none
      if inode.removed then do
        let fs ← release_blocks level st.fs inode.data
        return { st with fs := fs, live := st.live.filter (fun x => x ≠ sector) }
      else pure st
    else pure (st.set_inode sector (some { inode with open_cnt := inode.open_cnt - 1 }))

/-- `inode_allow_write`. -/
def inode_allow_write (st : Store) (x : ℕ) : Io Store := do
  let inode ← quietly (st.deref x)
  quietly (ASSERT (0 < inode.deny_write_cnt))
  quietly (ASSERT (inode.deny_write_cnt ≤ inode.open_cnt))
  return st.set_inode x (some { inode with deny_write_cnt := inode.deny_write_cnt - 1 })

/-- `file_close`. -/
def file_close (st : Store) (f : File) : Io Store := do
  let st ← (if f.deny_write then inode_allow_write st f.inode else pure st)
  inode_close level st f.inode

/-- What `thread_exit` does between `intr_disable` and `schedule`: it closes the executable.
The locks, children, descriptors, frames and supplemental entries are taken off lists and
freed, and `sema_up` wakes the parent. -/
def thread_exit (s : State) : Io Unit :=
  match s.file_ptr with
  | none => pure ()
  | some f => do
    let _ ← file_close level s.st f
    return ()

end Level

/-! ## Interrupts on

With interrupts on a command gets through, and the traced functions compute what the
functions of the file system do. -/

@[simp] theorem quietly_result {α : Type} (x : Res α) : (quietly x).result = x := rfl

@[simp] theorem stop_result {α : Type} (e : Fault) : (stop e : Io α).result = .error e := rfl

theorem ite_result {α : Type} {p : Prop} [Decidable p] (x y : Io α) :
    (if p then x else y).result = if p then x.result else y.result := by
  split_ifs <;> rfl

@[simp] theorem issue_on : (issue_pio_command .on).result = .ok () := rfl

@[simp] theorem disk_read_on (s : FileSys) (n : ℕ) :
    (disk_read .on s n).result = Filesys.disk_read s n := by
  unfold disk_read
  simp only [result_bind, result_emit, quietly_result, issue_on, ok_bind, result_pure]
  cases Filesys.disk_read s n <;> rfl

@[simp] theorem disk_write_on (s : FileSys) (n : ℕ) (b : Sector) :
    (disk_write .on s n b).result = Filesys.disk_write s n b := by
  unfold disk_write
  simp only [result_bind, result_emit, quietly_result, issue_on, ok_bind, result_pure]
  cases Filesys.disk_write s n b <;> rfl

@[simp] theorem block_sector_on (s : FileSys) (d : InodeDisk) (c : IndexCache) (k : ℕ) :
    (block_sector .on s d c k).result = Filesys.block_sector s d c k := by
  unfold block_sector load_indirect load_parent load_child
  simp only [ite_result, result_bind, result_pure, disk_read_on, stop_result]
  rfl

@[simp] theorem write_chunk_on (s : FileSys) (x : ℕ) (b : ℕ → UInt8) (bw ofs n : ℕ) :
    (write_chunk .on s x b bw ofs n).result = Filesys.write_chunk s x b bw ofs n := by
  unfold write_chunk
  simp only [ite_result, result_bind, disk_read_on, disk_write_on]
  rfl

@[simp] theorem write_loop_on (inode : Inode) (b : ℕ → UInt8) (fuel : ℕ) :
    ∀ (size offset bw : ℕ) (c : IndexCache) (s : FileSys),
      (write_loop .on inode b fuel size offset bw c s).result =
        Filesys.write_loop inode b fuel size offset bw c s := by
  induction fuel with
  | zero => exact fun _ _ _ _ _ => rfl
  | succ fuel ih =>
    intro size offset bw c s
    unfold write_loop Filesys.write_loop
    simp only [ite_result, result_bind, result_pure, block_sector_on, write_chunk_on, ih]

@[simp] theorem fill_zeros_loop_on (d : InodeDisk) (fuel : ℕ) :
    ∀ (old_eof size : ℕ) (s : FileSys), (fill_zeros_loop .on d fuel old_eof size s).result =
      Filesys.fill_zeros_loop d fuel old_eof size s := by
  induction fuel with
  | zero => exact fun _ _ _ => rfl
  | succ fuel ih =>
    intro old_eof size s
    unfold fill_zeros_loop Filesys.fill_zeros_loop zero_tail
    simp only [ite_result, result_bind, result_pure, quietly_result, disk_read_on, disk_write_on, ih]
    rfl

@[simp] theorem bitmap_write_on (s : FileSys) :
    (bitmap_write .on s).result = Filesys.bitmap_write s := by
  unfold bitmap_write Filesys.bitmap_write
  cases s.free_map_file with
  | none => rfl
  | some f =>
    unfold inode_write_at inode_write_at_with extend extend_with fill_zeros
    simp only [ite_result, result_bind, result_pure, stop_result, fill_zeros_loop_on,
      disk_write_on, write_loop_on]
    rfl

@[simp] theorem free_map_release_on (s : FileSys) (n cnt : ℕ) :
    (free_map_release .on s n cnt).result = Filesys.free_map_release s n cnt := by
  unfold free_map_release
  simp only [result_bind, result_pure, quietly_result, bitmap_write_on]
  rfl

@[simp] theorem release_all_on (l : List ℕ) : ∀ s : FileSys,
    (release_all .on l s).result = Filesys.release_all l s := by
  induction l with
  | nil => exact fun _ => rfl
  | cons n l ih =>
    intro s
    unfold release_all Filesys.release_all
    simp only [result_bind, free_map_release_on, ih]

@[simp] theorem release_children_on (b : ℕ → ℕ) (m cnt : ℕ) : ∀ (i : ℕ) (s : FileSys),
    (release_children .on b m cnt i s).result = Filesys.release_children b m cnt i s := by
  induction cnt with
  | zero => exact fun _ _ => rfl
  | succ cnt ih =>
    intro i s
    unfold release_children Filesys.release_children
    simp only [ite_result, result_bind, stop_result, disk_read_on, free_map_release_on,
      release_all_on, ih]

@[simp] theorem release_blocks_on (s : FileSys) (d : InodeDisk) :
    (release_blocks .on s d).result = Filesys.release_blocks s d := by
  unfold release_blocks Filesys.release_blocks
  simp only [ite_result, result_bind, result_pure, stop_result, disk_read_on,
    free_map_release_on, release_all_on, release_children_on]

/-- **With interrupts on** a file is closed as `inode_close` of the store closes it. -/
theorem inode_close_on (st : Store) (x : ℕ) :
    (inode_close .on st x).result = st.inode_close x := by
  unfold inode_close Store.inode_close
  cases st.open_inodes x with
  | none => rfl
  | some inode =>
    simp only [ite_result, result_bind, result_pure, release_blocks_on]
    rfl

/-! ## Interrupts off -/

/-- No command. -/
abbrev NoIo {α : Type} (x : Io α) : Prop := Only (fun _ => False) x

variable {level : IntrLevel}

@[simp] theorem noIo_quietly {α : Type} (x : Res α) : NoIo (quietly x) := fun _ hw => by cases hw

theorem returns_quietly {α : Type} {x : Res α} {a : α} (h : x = .ok a) : Returns (quietly x) a := h

theorem not_noIo_disk_read (s : FileSys) (n : ℕ) : ¬ NoIo (disk_read level s n) := by
  intro h
  unfold disk_read at h
  exact only_emit.mp (only_bind.mp h).1

theorem not_noIo_disk_write (s : FileSys) (n : ℕ) (b : Sector) :
    ¬ NoIo (disk_write level s n b) := by
  intro h
  unfold disk_write at h
  exact only_emit.mp (only_bind.mp h).1

/-- A chunk is a command, whole or not. -/
theorem not_noIo_write_chunk (s : FileSys) (x : ℕ) (b : ℕ → UInt8) (bw ofs n : ℕ) :
    ¬ NoIo (write_chunk level s x b bw ofs n) := by
  intro h
  unfold write_chunk at h
  by_cases hfull : ofs = 0 ∧ n = 512
  · rw [if_pos hfull] at h
    exact not_noIo_disk_write _ _ _ h
  · rw [if_neg hfull] at h
    exact not_noIo_disk_read _ _ (only_bind.mp h).1

/-- A write from the start of a file that has bytes there issues a command in its first
round. -/
theorem not_noIo_write_loop {inode : Inode} {b : ℕ → UInt8} {size : ℕ} (hsize : 0 < size)
    (hlen : 0 < inode.data.length) (bw : ℕ) (c : IndexCache) (s : FileSys) :
    ¬ NoIo (write_loop level inode b size size 0 bw c s) := by
  obtain ⟨m, rfl⟩ := Nat.exists_eq_succ_of_ne_zero (Nat.pos_iff_ne_zero.mp hsize)
  intro h
  unfold write_loop at h
  rw [if_neg (Nat.succ_ne_zero m)] at h
  have hround := (only_bind.mp h).2 (inode.data.direct_block 0, c) rfl
  have hchunk : chunk_size inode.data (m + 1) 0 ≠ 0 := by
    unfold chunk_size
    dsimp only
    split_ifs <;> omega
  rw [if_neg hchunk] at hround
  exact not_noIo_write_chunk _ _ _ _ _ _ (only_bind.mp hround).1

/-- `free_map_release` of a sector that is in use writes the free map back. -/
theorem not_noIo_free_map_release {s : FileSys} {f : Inode} {n : ℕ} (hok : FsOk s)
    (hf : s.free_map_file = some f) (hused : s.free_map.bits n = true) :
    ¬ NoIo (free_map_release level s n 1) := by
  have hn : n < s.capacity := hok.disk.bits n hused
  have hle : n + 1 ≤ s.free_map.bit_cnt := hn
  have hcap : s.free_map.bit_cnt ≤ 2 ^ 28 := hok.disk.capacity
  obtain ⟨-, -, hlen, hdeny⟩ := hok.file f hf
  change f.data.length = byte_cnt s.free_map.bit_cnt at hlen
  have hall : bitmap_all s.free_map n 1 = true := by
    unfold bitmap_all
    rw [bitmap_contains_one, hused]
    rfl
  have hsize : 0 < byte_cnt s.free_map.bit_cnt ∧ byte_cnt s.free_map.bit_cnt < 2 ^ 31 := by
    unfold byte_cnt
    omega
  intro h
  unfold free_map_release at h
  have h := (only_bind.mp h).2 () (returns_quietly (ASSERT_pos ⟨hle, hall⟩))
  have h := (only_bind.mp h).2 _ (returns_quietly (bitmap_set_multiple_eq false hle))
  have h := (only_bind.mp h).1
  unfold bitmap_write at h
  rw [hf] at h
  have h := (only_bind.mp h).1
  unfold inode_write_at at h
  have hlen' : ¬ f.data.length < 0 + byte_cnt s.free_map.bit_cnt := by
    rw [hlen]
    omega
  rw [if_neg (by rw [hdeny]; simp), if_neg (by rw [Nat.zero_add]; exact not_le.mpr hsize.2),
    if_neg hlen'] at h
  have h := (only_bind.mp ((only_bind.mp h).2 (f, _) rfl)).1
  exact not_noIo_write_loop hsize.1 (by rw [hlen]; exact hsize.1) _ _ _ h

/-- A mounted file system: the free map has its file, and the blocks of an open inode are
distinct sectors in use. -/
structure Mounted (st : Store) : Prop where
  fs : FsOk st.fs
  free_map : ∃ f, st.fs.free_map_file = some f
  blocks : ∀ x inode, st.open_inodes x = some inode →
    MapOk st.fs inode.data inode.data.blocks

/-- The invariant of the runs of the store mounts it. -/
theorem Mounted.of_inv {st : Store} (h : st.Inv) : Mounted st := by
  refine ⟨h.ready.ok, h.free_map, fun x inode hopen => ?_⟩
  obtain ⟨-, hlive, hx, -⟩ := h.opened x inode hopen
  have hmap := (h.inode x hlive).map
  rw [inode_data_open hx hopen] at hmap
  exact hmap

/-- The process has loaded an executable that has been removed, no one else has it open, and
it has contents. -/
def LastOfRemoved (s : State) : Prop :=
  ∃ f inode, s.file_ptr = some f ∧ s.st.open_inodes f.inode = some inode ∧
    inode.open_cnt = 1 ∧ inode.removed = true ∧ 0 < inode.data.length

/-- What `inode_close` of a file comes to. -/
theorem noIo_inode_close {st : Store} {x : ℕ} {inode : Inode} (hopen : st.open_inodes x = some inode)
    (hcnt : 0 < inode.open_cnt) (hfs : FsOk st.fs) (hmap : ∃ f, st.fs.free_map_file = some f)
    (hblocks : MapOk st.fs inode.data inode.data.blocks) :
    NoIo (inode_close level st x) ↔
      ¬ (inode.open_cnt = 1 ∧ inode.removed = true ∧ 0 < inode.data.length) := by
  unfold inode_close
  rw [hopen]
  dsimp only
  by_cases hlast : inode.open_cnt - 1 = 0
  swap
  · rw [if_neg hlast]
    exact iff_of_true (only_pure.mpr trivial) fun h => hlast (by omega)
  rw [if_pos hlast]
  by_cases hremoved : inode.removed = true
  swap
  · rw [if_neg hremoved]
    exact iff_of_true (only_pure.mpr trivial) fun h => hremoved h.2.1
  rw [if_pos hremoved]
  by_cases hlen : 0 < inode.data.length
  · -- the first block is released, and with it the free map written
    refine iff_of_false (fun h => ?_) (fun h => h ⟨by omega, hremoved, hlen⟩)
    obtain ⟨f, hf⟩ := hmap
    have hnum : 0 < min (inode.data.length / 512 + (if inode.data.length % 512 ≠ 0 then 1 else 0))
        DIRECT_LEN := by
      refine lt_min ?_ (by decide)
      split_ifs <;> omega
    obtain ⟨m, hm⟩ := Nat.exists_eq_succ_of_ne_zero (Nat.pos_iff_ne_zero.mp hnum)
    have h := (only_bind.mp (only_bind.mp h).1).1
    rw [hm, List.range_succ_eq_map, List.map_cons] at h
    have hfirst : st.fs.free_map.bits (inode.data.direct_block 0) = true := by
      have hpos : (Slot.data 0).pos < inode.data.blocks := by
        show 0 < (inode.data.length + 511) / 512
        omega
      exact hblocks.used (.data 0) hpos
    exact not_noIo_free_map_release hfs hf hfirst (only_bind.mp h).1
  · refine iff_of_true ?_ (fun h => hlen h.2.2)
    have hzero : inode.data.length = 0 := by omega
    refine only_bind.mpr ⟨?_, fun _ _ => only_pure.mpr trivial⟩
    unfold release_blocks
    rw [hzero]
    exact only_false.mpr rfl

/-- A step that issues nothing and returns `a` leaves the commands to what follows. -/
theorem noIo_bind {α β : Type} {x : Io α} {f : α → Io β} {a : α} (hx : NoIo x)
    (ha : Returns x a) : NoIo (x >>= f) ↔ NoIo (f a) := by
  constructor
  · exact fun h => (only_bind.mp h).2 a ha
  · intro h
    refine only_bind.mpr ⟨hx, fun b hb => ?_⟩
    obtain rfl := Except.ok.inj (ha.symm.trans hb)
    exact h

/-- What `file_close` of an executable comes to: `inode_allow_write` changes one counter of
the inode, and asserts what is given here. -/
theorem noIo_file_close {st : Store} {f : File} {inode : Inode} (h : Mounted st)
    (hopen : st.open_inodes f.inode = some inode) (hdeny : 0 < inode.deny_write_cnt)
    (hcnt : inode.deny_write_cnt ≤ inode.open_cnt) :
    NoIo (file_close level st f) ↔
      ¬ (inode.open_cnt = 1 ∧ inode.removed = true ∧ 0 < inode.data.length) := by
  have hpos : 0 < inode.open_cnt := by omega
  have hblocks := h.blocks f.inode inode hopen
  unfold file_close
  by_cases hd : f.deny_write = true
  · rw [if_pos hd]
    have hallow : Returns (inode_allow_write st f.inode) (st.set_inode f.inode
        (some { inode with deny_write_cnt := inode.deny_write_cnt - 1 })) := by
      unfold inode_allow_write
      refine returns_bind.mpr ⟨inode, returns_quietly (deref_eq_ok.mpr hopen), ?_⟩
      refine returns_bind.mpr ⟨(), returns_quietly (ASSERT_pos hdeny), ?_⟩
      exact returns_bind.mpr ⟨(), returns_quietly (ASSERT_pos hcnt), rfl⟩
    have hquiet : NoIo (inode_allow_write st f.inode) := by
      unfold inode_allow_write
      refine only_bind.mpr ⟨noIo_quietly _, fun i _ => only_bind.mpr ⟨noIo_quietly _, ?_⟩⟩
      exact fun _ _ => only_bind.mpr ⟨noIo_quietly _, fun _ _ => only_pure.mpr trivial⟩
    rw [noIo_bind hquiet hallow]
    have hset : (st.set_inode f.inode (some
        { inode with deny_write_cnt := inode.deny_write_cnt - 1 })).open_inodes f.inode =
        some { inode with deny_write_cnt := inode.deny_write_cnt - 1 } := set_inode_self _
    have hclose := @noIo_inode_close level _ _ _ hset hpos h.fs h.free_map hblocks
    exact hclose
  · rw [if_neg hd, noIo_bind (only_pure.mpr trivial) rfl]
    exact noIo_inode_close hopen hpos h.fs h.free_map hblocks

/-- **`thread_exit` with interrupts off** comes to the disk exactly when it closes the last
reference to a removed executable. -/
theorem exit_quiet_iff (p : Process) (h : Mounted p.st) :
    (thread_exit .off p.toState).trace = [] ↔ ¬ LastOfRemoved p.toState := by
  rw [← only_false]
  unfold thread_exit LastOfRemoved
  cases hf : p.file_ptr with
  | none =>
    refine iff_of_true (only_pure.mpr trivial) ?_
    rintro ⟨f, -, hnone, -⟩
    cases hnone
  | some f =>
    obtain ⟨inode, hopen, hdeny, hcnt⟩ := p.covered f hf
    have hlast : (∃ f' inode', some f = some f' ∧ p.st.open_inodes f'.inode = some inode' ∧
        inode'.open_cnt = 1 ∧ inode'.removed = true ∧ 0 < inode'.data.length) ↔
        inode.open_cnt = 1 ∧ inode.removed = true ∧ 0 < inode.data.length := by
      constructor
      · rintro ⟨f', inode', hf', hopen', hrest⟩
        obtain rfl := Option.some.inj hf'
        obtain rfl := Option.some.inj (hopen.symm.trans hopen')
        exact hrest
      · exact fun hrest => ⟨f, inode, rfl, hopen, hrest⟩
    have hclose : NoIo (file_close .off p.st f) ↔ _ :=
      noIo_file_close h hopen hdeny (by omega)
    rw [hlast, ← hclose]
    exact ⟨fun hio => (only_bind.mp hio).1, fun hio =>
      only_bind.mpr ⟨hio, fun _ _ => only_pure.mpr trivial⟩⟩

/-! ## A running executable -/

/-- A process whose executable is the file at sector 3, on a disk of 16 sectors with the free
map's contents in sector 8; `removed` says whether the file has been removed. -/
def running (removed : Bool) : Process where
  st :=
    { fs := { small_tree.fs with
        free_map := { bit_cnt := 16, bits := fun i => decide (i < 9) }
        free_map_file := some ⟨0, 1, false, 0, one_block 7 4 true⟩ }
      open_inodes := fun x => if x = 3 then some ⟨3, 1, removed, 1, one_block 3 500 false⟩ else none
      live := [0, 1, 3, 5] }
  curr_dir := some ROOT_DIR_SECTOR
  fd_list := []
  file_ptr := some ⟨3, 52, true⟩
  mapped := []
  opened := fun e he => by cases he
  open_writable := fun e he => by cases he
  covered := fun f hf => by
    obtain rfl := Option.some.inj hf
    exact ⟨_, rfl, Nat.one_pos, le_refl 1⟩

theorem running_mounted (removed : Bool) : Mounted (running removed).st := by
  have hdisk : DiskOk (running removed).st.fs := by
    refine ⟨by show 16 ≤ 2 ^ 28; norm_num, fun i hi => ?_⟩
    have hi' : i < 9 := of_decide_eq_true hi
    show i < 16
    omega
  refine ⟨⟨hdisk, fun f hf => ?_⟩, ⟨_, rfl⟩, fun x inode hopen => ?_⟩
  · obtain rfl := Option.some.inj hf
    have hread := @read_ok_one_block (running removed).st.fs hdisk 7 4 true rfl (by norm_num)
    exact ⟨hread.map, hread.max, by show 4 = byte_cnt 16; decide, rfl⟩
  · change (if x = 3 then _ else none) = some inode at hopen
    split_ifs at hopen
    obtain rfl := Option.some.inj hopen
    exact (read_ok_one_block hdisk rfl (by norm_num)).map

/-- An executable that is still there is closed without a command. -/
theorem exit_quiet_kept : (thread_exit .off (running false).toState).trace = [] := by
  refine (exit_quiet_iff (running false) (running_mounted false)).mpr ?_
  rintro ⟨f, inode, hf, hopen, -, hremoved, -⟩
  obtain rfl := Option.some.inj hf
  obtain rfl := Option.some.inj hopen
  cases hremoved

/-- One that has been removed has its first block released, and the free map is read for
that with interrupts off. -/
theorem exit_writes_free_map : ¬ ∀ p : Process, Mounted p.st →
    (thread_exit .off p.toState).trace = [] := by
  intro hall
  have hquiet := hall (running true) (running_mounted true)
  have htrace : (thread_exit .off (running true).toState).trace = [.read 8] := by decide +kernel
  rw [htrace] at hquiet
  cases hquiet

end Pintos.Filesys.DiskIo
