/-
The state `filesys/inode.c` and `filesys/free-map.c` work on: the disk, the free
map, the file that backs the free map, and the three static index arrays.

A sector is its 512 bytes. The two things the file system lays out in one, index
blocks and inodes, are both 128 little-endian words (`WordImage`), so a sector
that was last written as one thing can be read as another, as on the real disk.
The buffer cache in `filesys/cache.c` is not on this path: every call to it in
`inode.c` is commented out, and reads and writes go to `disk_read` and
`disk_write`.
-/
import Pintos.Kernel.Bitmap
import Pintos.Library.WordImage

set_option autoImplicit false

namespace Pintos.Filesys

open Pintos.Kernel WordImage

/-- `DIRECT_LEN` in `filesys/inode.h`. -/
abbrev DIRECT_LEN : ℕ := 122

/-- `FREE_MAP_SECTOR` in `filesys/filesys.h`. -/
abbrev FREE_MAP_SECTOR : ℕ := 0

/-- `ROOT_DIR_SECTOR` in `filesys/filesys.h`. -/
abbrev ROOT_DIR_SECTOR : ℕ := 1

/-- `INODE_MAGIC`. -/
def INODE_MAGIC : ℕ := 0x494e4f44

/-- The 512 bytes of a sector; no position from 512 on is ever read. -/
abbrev Sector := ℕ → UInt8

/-- `struct inode_disk`. -/
structure InodeDisk where
  inode_i : ℕ
  length : ℕ
  magic : ℕ
  isdir : Bool
  direct_block : ℕ → ℕ
  indirect_block : ℕ
  doubly_indirect_block : ℕ

/-- `struct inode`, less the list element and the two fields of the unused
cache. -/
structure Inode where
  sector : ℕ
  open_cnt : ℕ
  removed : Bool
  deny_write_cnt : ℕ
  data : InodeDisk

/-- The file system's global state. `doubly_sec_idx` is the 128 by 128 array in
row-major order, which is how `free_map_allocate_index` addresses it. -/
structure FileSys where
  disk : ℕ → Sector
  free_map : Bitmap
  free_map_file : Option Inode
  indirect_sec_idx : ℕ → ℕ
  doubly_sec_parent : ℕ → ℕ
  doubly_sec_idx : ℕ → ℕ
  next_iid : ℕ

/-- `disk_size (filesys_disk)`: `free_map_init` gives the free map one bit for
each sector. -/
abbrev FileSys.capacity (s : FileSys) : ℕ := s.free_map.bit_cnt

/-- `disk_read`, with `select_sector`'s two assertions. -/
def disk_read (s : FileSys) (sec_no : ℕ) : Res Sector := do
  ASSERT (sec_no < s.capacity ∧ sec_no < 2 ^ 28)
  return s.disk sec_no

/-- `disk_write`. -/
def disk_write (s : FileSys) (sec_no : ℕ) (buffer : Sector) : Res FileSys := do
  ASSERT (sec_no < s.capacity ∧ sec_no < 2 ^ 28)
  return { s with disk := Function.update s.disk sec_no buffer }

/-! ## The on-disk inode -/

/-- The 128 words of `struct inode_disk`; `isdir` is a byte and the padding
behind it is zero (the structure comes from `calloc`). -/
def inode_words (d : InodeDisk) (k : ℕ) : ℕ :=
  if k = 0 then d.inode_i
  else if k = 1 then d.length
  else if k = 2 then d.magic
  else if k = 3 then (if d.isdir then 1 else 0)
  else if k < 126 then d.direct_block (k - 4)
  else if k = 126 then d.indirect_block
  else d.doubly_indirect_block

/-- The sector an inode is written to. -/
def inode_image (d : InodeDisk) : Sector := ofWords (inode_words d)

/-- What `disk_read (…, &inode->data)` makes of a sector. -/
def inode_of_sector (c : Sector) : InodeDisk where
  inode_i := word c 0
  length := word c 1
  magic := word c 2
  isdir := word c 3 % 256 ≠ 0
  direct_block := fun k => if k < DIRECT_LEN then word c (4 + k) else 0
  indirect_block := word c 126
  doubly_indirect_block := word c 127

/-- An inode whose fields fit their types. -/
structure InodeDisk.Fits (d : InodeDisk) : Prop where
  inode_i : d.inode_i < 2 ^ 32
  length : d.length < 2 ^ 32
  magic : d.magic < 2 ^ 32
  direct : ∀ k, d.direct_block k < 2 ^ 32
  direct_end : ∀ k, DIRECT_LEN ≤ k → d.direct_block k = 0
  indirect : d.indirect_block < 2 ^ 32
  doubly : d.doubly_indirect_block < 2 ^ 32

/-- Every word of a fitting inode fits. -/
theorem inode_words_lt {d : InodeDisk} (h : d.Fits) (k : ℕ) : inode_words d k < 2 ^ 32 := by
  unfold inode_words
  split_ifs
  · exact h.inode_i
  · exact h.length
  · exact h.magic
  · norm_num
  · norm_num
  · exact h.direct _
  · exact h.indirect
  · exact h.doubly

/-- **Inode round trip.** What `inode_open` reads is what was last written to the
inode's sector. -/
theorem inode_of_sector_image {d : InodeDisk} (h : d.Fits) :
    inode_of_sector (inode_image d) = d := by
  have hw : ∀ k, word (inode_image d) k = inode_words d k := fun k =>
    word_ofWords _ _ (inode_words_lt h k)
  obtain ⟨i, l, m, b, dir, ind, dbl⟩ := d
  have hdir : (fun k => if k < DIRECT_LEN then word (inode_image ⟨i, l, m, b, dir, ind, dbl⟩) (4 + k)
      else 0) = dir := by
    funext k
    by_cases hk : k < DIRECT_LEN
    · have hk' : k < 122 := hk
      rw [if_pos hk, hw]
      simp only [inode_words]
      rw [if_neg (by omega), if_neg (by omega), if_neg (by omega), if_neg (by omega),
        if_pos (by omega)]
      congr 1
      omega
    · rw [if_neg hk]
      exact (h.direct_end k (by omega)).symm
  simp only [inode_of_sector, hw, InodeDisk.mk.injEq]
  refine ⟨rfl, rfl, rfl, ?_, ?_, rfl, rfl⟩
  · cases b <;> simp [inode_words]
  · simpa only [hw] using hdir

/-! ## Disk access -/

theorem disk_read_eq {s : FileSys} {n : ℕ} (h : n < s.capacity) (hc : s.capacity ≤ 2 ^ 28) :
    disk_read s n = .ok (s.disk n) := by
  simp only [disk_read, ASSERT_pos (show n < s.capacity ∧ n < 2 ^ 28 from ⟨h, by omega⟩),
    ok_bind, pure_eq_ok]

theorem disk_write_eq {s : FileSys} {n : ℕ} (b : Sector) (h : n < s.capacity)
    (hc : s.capacity ≤ 2 ^ 28) :
    disk_write s n b = .ok { s with disk := Function.update s.disk n b } := by
  simp only [disk_write, ASSERT_pos (show n < s.capacity ∧ n < 2 ^ 28 from ⟨h, by omega⟩),
    ok_bind, pure_eq_ok]

end Pintos.Filesys
