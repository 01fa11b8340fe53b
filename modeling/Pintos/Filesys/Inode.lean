/-
`filesys/inode.c` and `filesys/free-map.c`: reading and writing a file through
its three-level block map, growing it, creating it and closing it.

The two files call each other: `inode_write_at` grows a file through
`free_map_allocate_index`, which after every sector it takes writes the whole
free map back with `bitmap_write`, that is, with `inode_write_at` on the free
map's own file. That inner call overwrites in place, since the free-map file was
created at its final size. The body of `inode_write_at` is therefore written
once, over the function it grows with: `add_blocks` for the outer call, and for
the inner one a function that diverges, because a free-map file shorter than the
map would send the inner call back into itself at the same length.

Offsets and sizes are non-negative `off_t` values; `offset + size` is checked
against the type where the source adds them.

`malloc` of the bounce buffer and `calloc` of the inode are taken to succeed, in the calls
themselves and in the writes of the free map inside them, and so in every result about these
functions: on reads and writes of files, on growth, on `inode_create` and on the ownership of
sectors. What a write of the free map without its bounce buffer does to an allocation is in
`Shortage`.
-/
import Pintos.Filesys.Disk

set_option autoImplicit false

namespace Pintos.Filesys

open Pintos.Kernel WordImage

/-! ## The index lookup shared by `inode_read_at` and `inode_write_at` -/

/-- The locals that cache index blocks across rounds of the two loops. -/
structure IndexCache where
  buffer_flag : ℤ
  index_buffer : ℕ → ℕ
  buffer_parent_flag : Bool
  index_parent_buffer : ℕ → ℕ

/-- The locals as both functions initialise them. -/
def IndexCache.fresh : IndexCache where
  buffer_flag := -1
  index_buffer := fun _ => 0
  buffer_parent_flag := false
  index_parent_buffer := fun _ => 0

/-- `if (buffer_flag != 128) …`: the indirect block, read at most once. -/
def load_indirect (s : FileSys) (d : InodeDisk) (c : IndexCache) : Res IndexCache :=
  if c.buffer_flag ≠ 128 then do
    let b ← disk_read s d.indirect_block
    return { c with index_buffer := word b, buffer_flag := 128 }
  else .ok c

/-- `if (!buffer_parent_flag) …`: the doubly indirect block, read at most once. -/
def load_parent (s : FileSys) (d : InodeDisk) (c : IndexCache) : Res IndexCache :=
  if c.buffer_parent_flag = false then do
    let b ← disk_read s d.doubly_indirect_block
    return { c with index_parent_buffer := word b, buffer_parent_flag := true }
  else .ok c

/-- `if (buffer_flag != (off_div_size - DIRECT_LEN-128)/128) …`: child `j` of the
doubly indirect block. -/
def load_child (s : FileSys) (j : ℕ) (c : IndexCache) : Res IndexCache :=
  if c.buffer_flag ≠ j then
    if 128 ≤ j then .error .bounds
    else do
      let b ← disk_read s (c.index_parent_buffer j)
      return { c with index_buffer := word b, buffer_flag := j }
  else .ok c

/-- The sector of block `off_div_size`, with the caches as they are left. -/
def block_sector (s : FileSys) (d : InodeDisk) (c : IndexCache) (off_div_size : ℕ) :
    Res (ℕ × IndexCache) :=
  if off_div_size < DIRECT_LEN then
    .ok (d.direct_block off_div_size, c)
  else if off_div_size < DIRECT_LEN + 128 then do
    let c ← load_indirect s d c
    return (c.index_buffer (off_div_size - DIRECT_LEN), c)
  else do
    let c ← load_parent s d c
    let c ← load_child s ((off_div_size - DIRECT_LEN - 128) / 128) c
    return (c.index_buffer ((off_div_size - DIRECT_LEN - 128) % 128), c)

/-- `chunk_size`: the bytes of this round, bounded by the request, by the end of
the file and by the end of the sector. -/
def chunk_size (d : InodeDisk) (size offset : ℕ) : ℕ :=
  let inode_left := d.length - offset
  let sector_left := 512 - offset % 512
  let min_left := if inode_left < sector_left then inode_left else sector_left
  if size < min_left then size else min_left

/-! ## `inode_read_at` -/

/-- The `while (size > 0)` loop of `inode_read_at`. Each round that does not
`break` consumes at least one byte, so `size` rounds are enough. -/
def read_loop (s : FileSys) (inode : Inode) :
    (fuel size offset : ℕ) → IndexCache → Res (List UInt8)
  | 0, _, _, _ => .ok []
  | fuel + 1, size, offset, c =>
    if size = 0 then .ok []
    else do
      let r ← block_sector s inode.data c (offset / 512)
      let n := chunk_size inode.data size offset
      if n = 0 then .ok []
      else do
        let b ← disk_read s r.1
        let rest ← read_loop s inode fuel (size - n) (offset + n) r.2
        return (List.range n).map (fun i => b (offset % 512 + i)) ++ rest

/-- `inode_read_at`: the bytes copied into the caller's buffer; their number is
the return value. A full sector and a bounced one copy the same bytes. -/
def inode_read_at (s : FileSys) (inode : Inode) (size offset : ℕ) : Res (List UInt8) :=
  read_loop s inode size size offset IndexCache.fresh

/-! ## `inode_write_at` -/

/-- What one round leaves in the sector: the caller's bytes over the old
contents, or over zeros when the chunk runs from the start of the sector to its
end. -/
def bounce (old : Sector) (buffer : ℕ → UInt8) (bytes_written sector_ofs n : ℕ) : Sector :=
  let base := if 0 < sector_ofs ∨ n < 512 - sector_ofs then old else fun _ => 0
  fun j => if sector_ofs ≤ j ∧ j < sector_ofs + n
    then buffer (bytes_written + (j - sector_ofs)) else base j

/-- Writing one chunk: a full sector directly, anything less through the bounce
buffer. -/
def write_chunk (s : FileSys) (sector_idx : ℕ) (buffer : ℕ → UInt8)
    (bytes_written sector_ofs n : ℕ) : Res FileSys :=
  if sector_ofs = 0 ∧ n = 512 then
    disk_write s sector_idx (fun j => buffer (bytes_written + j))
  else do
    let old ← disk_read s sector_idx
    disk_write s sector_idx (bounce old buffer bytes_written sector_ofs n)

/-- The `while (size > 0)` loop of `inode_write_at`. -/
def write_loop (inode : Inode) (buffer : ℕ → UInt8) :
    (fuel size offset bytes_written : ℕ) → IndexCache → FileSys → Res (ℕ × FileSys)
  | 0, _, _, bytes_written, _, s => .ok (bytes_written, s)
  | fuel + 1, size, offset, bytes_written, c, s =>
    if size = 0 then .ok (bytes_written, s)
    else do
      let r ← block_sector s inode.data c (offset / 512)
      let n := chunk_size inode.data size offset
      if n = 0 then .ok (bytes_written, s)
      else do
        let s ← write_chunk s r.1 buffer bytes_written (offset % 512) n
        write_loop inode buffer fuel (size - n) (offset + n) (bytes_written + n) r.2 s

/-- The lookup of `fill_zeros` and of `inode_create`'s zeroing loop: in the inode
and in the static arrays, not on the disk. -/
def array_sector (s : FileSys) (d : InodeDisk) (k : ℕ) : Res ℕ :=
  if k < DIRECT_LEN then .ok (d.direct_block k)
  else if k < DIRECT_LEN + 128 then .ok (s.indirect_sec_idx (k - DIRECT_LEN))
  else if (k - DIRECT_LEN - 128) / 128 < 128 then
    .ok (s.doubly_sec_idx (k - DIRECT_LEN - 128))
  else .error .bounds

/-- Zeroing a sector from byte `ofs` on. -/
def zero_tail (s : FileSys) (sector_idx ofs : ℕ) : Res FileSys :=
  if ofs = 0 then disk_write s sector_idx (fun _ => 0)
  else do
    let b ← disk_read s sector_idx
    disk_write s sector_idx (fun j => if ofs ≤ j then 0 else b j)

/-- The `while (size > 0)` loop of `fill_zeros`. -/
def fill_zeros_loop (d : InodeDisk) : (fuel old_eof size : ℕ) → FileSys → Res FileSys
  | 0, _, _, s => .ok s
  | fuel + 1, old_eof, size, s =>
    if size = 0 then .ok s
    else do
      let sector_idx ← array_sector s d (old_eof / 512)
      let n := 512 - old_eof % 512
      let s ← zero_tail s sector_idx (old_eof % 512)
      fill_zeros_loop d fuel (old_eof + n) (size - n) s

/-- `fill_zeros`; `size` starts at `offset - old_eof - 1`. -/
def fill_zeros (s : FileSys) (d : InodeDisk) (old_eof offset : ℕ) : Res FileSys :=
  fill_zeros_loop d (offset - old_eof - 1) old_eof (offset - old_eof - 1) s

/-- The three `memset`s that clear the static index arrays. -/
def clear_arrays (s : FileSys) : FileSys :=
  { s with
    indirect_sec_idx := fun _ => 0
    doubly_sec_parent := fun _ => 0
    doubly_sec_idx := fun _ => 0 }

/-- `(((length/512)+round_up)*512) < new_eof`, the test for adding blocks. -/
def needs_blocks (length new_eof : ℕ) : Prop :=
  (length / 512 + (if length % 512 ≠ 0 then 1 else 0)) * 512 < new_eof

instance (length new_eof : ℕ) : Decidable (needs_blocks length new_eof) :=
  inferInstanceAs (Decidable (_ < _))

/-- The extension of a file to `offset + size` bytes, over the function `grow`
that adds blocks. -/
def extend_with (grow : FileSys → Inode → ℕ → Res (Inode × FileSys))
    (s : FileSys) (inode : Inode) (size offset : ℕ) : Res (Inode × FileSys) := do
  let r ← (if needs_blocks inode.data.length (offset + size) then grow s inode (offset + size)
    else .ok (inode, s))
  let s ← fill_zeros r.2 r.1.data r.1.data.length offset
  let inode := { r.1 with data := { r.1.data with length := offset + size } }
  let s ← disk_write (clear_arrays s) inode.sector (inode_image inode.data)
  return (inode, s)

/-- `inode_write_at` over the function `grow` that adds blocks. -/
def inode_write_at_with (grow : FileSys → Inode → ℕ → Res (Inode × FileSys))
    (s : FileSys) (inode : Inode) (buffer : ℕ → UInt8) (size offset : ℕ) :
    Res (ℕ × Inode × FileSys) :=
  if inode.deny_write_cnt ≠ 0 then .ok (0, inode, s)
  else if 2 ^ 31 ≤ offset + size then .error .overflow
  else do
    let r ← (if inode.data.length < offset + size then extend_with grow s inode size offset
      else .ok (inode, s))
    let w ← write_loop r.1 buffer size size offset 0 IndexCache.fresh r.2
    return (w.1, r.1, w.2)

/-! ## `filesys/free-map.c` -/

/-- `bitmap_write (free_map, free_map_file)`, with the bounce buffer for its last sector. -/
def bitmap_write (s : FileSys) : Res (Bool × FileSys) :=
  match s.free_map_file with
  | none => .error .dangling
  | some f => do
    let r ← inode_write_at_with (fun _ _ _ => .error .diverge) s f
      (bitmap_bytes s.free_map) (byte_cnt s.free_map.bit_cnt) 0
    return (r.1 == byte_cnt s.free_map.bit_cnt, { r.2.2 with free_map_file := some r.2.1 })

/-- The five lines `free_map_allocate_index` repeats for every sector it takes:
scan and flip one bit, then write the map back. `none` means the map could not be
written, on which the caller returns false; a full disk gives `BITMAP_ERROR`. -/
def take_sector (s : FileSys) : Res (Option ℕ × FileSys) := do
  let r ← bitmap_scan_and_flip s.free_map 0 1 false
  match r.1 with
  | none => return (some BITMAP_ERROR, s)
  | some sector =>
    let s := { s with free_map := r.2 }
    if s.free_map_file.isSome then do
      let w ← bitmap_write s
      if w.1 then return (some sector, w.2)
      else do
        let b ← bitmap_set_multiple w.2.free_map sector 1 false
        return (none, { w.2 with free_map := b })
    else return (some sector, s)

/-- `free_map_allocate`. -/
def free_map_allocate (s : FileSys) (cnt : ℕ) : Res (Option ℕ × FileSys) := do
  let r ← bitmap_scan_and_flip s.free_map 0 cnt false
  match r.1 with
  | none => return (none, s)
  | some sector =>
    let s := { s with free_map := r.2 }
    if s.free_map_file.isSome then do
      let w ← bitmap_write s
      if w.1 then return (some sector, w.2)
      else do
        let b ← bitmap_set_multiple w.2.free_map sector cnt false
        return (none, { w.2 with free_map := b })
    else return (some sector, s)

/-- `free_map_release`. -/
def free_map_release (s : FileSys) (sector cnt : ℕ) : Res FileSys := do
  ASSERT (sector + cnt ≤ s.free_map.bit_cnt ∧ bitmap_all s.free_map sector cnt = true)
  let b ← bitmap_set_multiple s.free_map sector cnt false
  let w ← bitmap_write { s with free_map := b }
  return w.2

/-- One round of the loop in `free_map_allocate_index`, once its first sector is
in hand. The flag is false when the round ends in `return false`; the caller's
inode keeps what was assigned until then. -/
def assign_index (s : FileSys) (d : InodeDisk) (i sector : ℕ) :
    Res (Bool × InodeDisk × FileSys) :=
  if i < DIRECT_LEN then
    .ok (true, { d with direct_block := Function.update d.direct_block i sector }, s)
  else if i = DIRECT_LEN then do
    let d := { d with indirect_block := sector }
    let t ← take_sector s
    match t.1 with
    | none => return (false, d, t.2)
    | some indirect_sector =>
      return (true, d, { t.2 with
        indirect_sec_idx := Function.update t.2.indirect_sec_idx 0 indirect_sector })
  else if i < DIRECT_LEN + 128 then
    .ok (true, d, { s with
      indirect_sec_idx := Function.update s.indirect_sec_idx (i - DIRECT_LEN) sector })
  else if i = DIRECT_LEN + 128 then do
    let d := { d with doubly_indirect_block := sector }
    let t ← take_sector s
    match t.1 with
    | none => return (false, d, t.2)
    | some indirect_sector =>
      let s := { t.2 with
        doubly_sec_parent := Function.update t.2.doubly_sec_parent 0 indirect_sector }
      let t ← take_sector s
      match t.1 with
      | none => return (false, d, t.2)
      | some indirect_sector =>
        return (true, d, { t.2 with
          doubly_sec_idx := Function.update t.2.doubly_sec_idx 0 indirect_sector })
  else
    let temp := i - DIRECT_LEN - 128
    if 128 ≤ temp / 128 then .error .bounds
    else if temp % 128 = 0 then do
      let s := { s with
        doubly_sec_parent := Function.update s.doubly_sec_parent (temp / 128) sector }
      let t ← take_sector s
      match t.1 with
      | none => return (false, d, t.2)
      | some indirect_sector =>
        return (true, d, { t.2 with
          doubly_sec_idx := Function.update t.2.doubly_sec_idx temp indirect_sector })
    else
      .ok (true, d, { s with
        doubly_sec_idx := Function.update s.doubly_sec_idx temp sector })

/-- The loop of `free_map_allocate_index`: `cnt` rounds from index `i`. A round
that finds the disk full assigns nothing and goes on. -/
def free_map_allocate_index : (cnt i : ℕ) → FileSys → InodeDisk →
    Res (Bool × InodeDisk × FileSys)
  | 0, _, s, d => .ok (true, d, s)
  | cnt + 1, i, s, d => do
    let t ← take_sector s
    match t.1 with
    | none => return (false, d, t.2)
    | some sector =>
      if sector = BITMAP_ERROR then free_map_allocate_index cnt (i + 1) t.2 d
      else do
        let a ← assign_index t.2 d i sector
        if a.1 then free_map_allocate_index cnt (i + 1) a.2.2 a.2.1
        else return a

/-! ## `add_blocks`, `inode_create` and `inode_close` -/

/-- `doubly_sec_idx[i]`, one row of 128 sector numbers. -/
def row (a : ℕ → ℕ) (i k : ℕ) : ℕ := a (128 * i + k)

/-- The loop over the children of the doubly indirect block, `i .. i + cnt - 1`. -/
def write_children : (cnt i : ℕ) → FileSys → Res FileSys
  | 0, _, s => .ok s
  | cnt + 1, i, s =>
    if 128 ≤ i then .error .bounds
    else do
      let s ← disk_write s (s.doubly_sec_parent i) (ofWords (row s.doubly_sec_idx i))
      write_children cnt (i + 1) s

/-- Writing the index arrays back, as `inode_create` does with `n` the number of
sectors and `add_blocks` with `n = new_eof/512`. -/
def write_index (s : FileSys) (d : InodeDisk) (n : ℕ) : Res FileSys := do
  let s ← (if DIRECT_LEN < n then disk_write s d.indirect_block (ofWords s.indirect_sec_idx)
    else .ok s)
  if DIRECT_LEN + 128 < n then do
    let s ← disk_write s d.doubly_indirect_block (ofWords s.doubly_sec_parent)
    let s ← disk_write s (s.doubly_sec_parent 0) (ofWords (row s.doubly_sec_idx 0))
    write_children ((n - DIRECT_LEN - 128) / 128) 1 s
  else .ok s

/-- The loop that reads the children `i .. i + cnt - 1` back in. -/
def read_children : (cnt i : ℕ) → FileSys → Res FileSys
  | 0, _, s => .ok s
  | cnt + 1, i, s =>
    if 128 ≤ i then .error .bounds
    else do
      let b ← disk_read s (s.doubly_sec_parent i)
      read_children cnt (i + 1) { s with
        doubly_sec_idx := fun k =>
          if 128 * i ≤ k ∧ k < 128 * i + 128 then word b (k - 128 * i)
          else s.doubly_sec_idx k }

/-- The reload at the head of `add_blocks`. -/
def read_index (s : FileSys) (d : InodeDisk) (old_eof : ℕ) : Res FileSys := do
  let s ← (if DIRECT_LEN < old_eof / 512 then do
      let b ← disk_read s d.indirect_block
      return { s with indirect_sec_idx := word b }
    else .ok s)
  if DIRECT_LEN + 128 < old_eof / 512 then do
    let b ← disk_read s d.doubly_indirect_block
    read_children ((old_eof / 512 - DIRECT_LEN - 128) / 128) 0
      { s with doubly_sec_parent := word b }
  else .ok s

/-- `add_blocks (inode, new_eof, inode->data.length)`. -/
def add_blocks (s : FileSys) (inode : Inode) (new_eof : ℕ) : Res (Inode × FileSys) := do
  let old_eof := inode.data.length
  let round_up := if old_eof % 512 ≠ 0 then 1 else 0
  let round_down := if old_eof % 512 ≠ 0 then 0 else 1
  let s ← read_index s inode.data old_eof
  let a ← free_map_allocate_index (new_eof / 512 - old_eof / 512 + round_down)
    (old_eof / 512 + round_up) s inode.data
  if a.1 then do
    let s ← write_index a.2.2 a.2.1 (new_eof / 512)
    return ({ inode with data := a.2.1 }, s)
  else return ({ inode with data := a.2.1 }, a.2.2)

/-- `inode_write_at`. -/
def inode_write_at (s : FileSys) (inode : Inode) (buffer : ℕ → UInt8) (size offset : ℕ) :
    Res (ℕ × Inode × FileSys) :=
  inode_write_at_with add_blocks s inode buffer size offset

/-- `bytes_to_sectors`. -/
def bytes_to_sectors (size : ℕ) : ℕ := (size + 511) / 512

/-- The loop of `inode_create` that zeroes the data blocks `i .. i + cnt - 1`,
looked up in the static arrays. -/
def zero_blocks (d : InodeDisk) : (cnt i : ℕ) → FileSys → Res FileSys
  | 0, _, s => .ok s
  | cnt + 1, i, s => do
    let sector_idx ← array_sector s d i
    let s ← disk_write s sector_idx (fun _ => 0)
    zero_blocks d cnt (i + 1) s

/-- The inode `inode_create` starts from: `calloc`ed, then its header set. -/
def blank_inode (inode_i length : ℕ) (isdir : Bool) : InodeDisk where
  inode_i := inode_i
  length := length
  magic := INODE_MAGIC
  isdir := isdir
  direct_block := fun _ => 0
  indirect_block := 0
  doubly_indirect_block := 0

/-- `inode_create`. -/
def inode_create (s : FileSys) (sector length : ℕ) (isdir : Bool) : Res (Bool × FileSys) := do
  let sectors := bytes_to_sectors length
  let d := blank_inode (s.next_iid % 2 ^ 32) length isdir
  let a ← free_map_allocate_index sectors 0 { s with next_iid := s.next_iid + 1 } d
  if a.1 then do
    let s ← disk_write a.2.2 sector (inode_image a.2.1)
    let s ← write_index s a.2.1 sectors
    let s ← zero_blocks a.2.1 sectors 0 s
    return (true, clear_arrays s)
  else return (false, a.2.2)

/-- Releasing a list of sectors one by one. -/
def release_all : List ℕ → FileSys → Res FileSys
  | [], s => .ok s
  | n :: l, s => do
    let s ← free_map_release s n 1
    release_all l s

/-- The loop over the children of the doubly indirect block in `inode_close`:
`cnt` children from `i`, of each of which the first `m` entries are released. -/
def release_children (buffer : ℕ → ℕ) (m : ℕ) : (cnt i : ℕ) → FileSys → Res FileSys
  | 0, _, s => .ok s
  | cnt + 1, i, s =>
    if 128 ≤ i then .error .bounds
    else do
      let b ← disk_read s (buffer i)
      let s ← free_map_release s (buffer i) 1
      let s ← release_all ((List.range m).map (word b)) s
      release_children buffer m cnt (i + 1) s

/-- The block deallocation in `inode_close` of a removed inode. -/
def release_blocks (s : FileSys) (d : InodeDisk) : Res FileSys := do
  let num_blocks := d.length / 512 + (if d.length % 512 ≠ 0 then 1 else 0)
  let s ← release_all ((List.range (min num_blocks DIRECT_LEN)).map d.direct_block) s
  let s ← (if DIRECT_LEN < num_blocks then do
      let b ← disk_read s d.indirect_block
      let s ← free_map_release s d.indirect_block 1
      -- `i` runs to `num_blocks - DIRECT_LEN` inclusive over an array of 128
      let s ← release_all ((List.range (min (num_blocks - DIRECT_LEN + 1) 128)).map (word b)) s
      if 128 ≤ num_blocks - DIRECT_LEN then .error .bounds else .ok s
    else .ok s)
  if DIRECT_LEN + 128 < num_blocks then do
    let b ← disk_read s d.doubly_indirect_block
    let s ← free_map_release s d.doubly_indirect_block 1
    release_children (word b) ((num_blocks - DIRECT_LEN - 128) % 128 + 1)
      ((num_blocks - DIRECT_LEN - 128) / 128 + 1) 0 s
  else .ok s

end Pintos.Filesys
