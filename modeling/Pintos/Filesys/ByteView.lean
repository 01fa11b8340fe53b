/-
Access inside a file, against the plain view of its bytes.

`FileIo` proves the two loops right for a file whose sectors are marked in the free
map. The loops never look at the marks: of the free map they see only its size, through
the bound `disk_read` and `disk_write` check. So the result holds for any block map with
pairwise distinct sectors on the disk, which is what is stated here.
-/
import Pintos.Filesys.FileIo

set_option autoImplicit false

namespace Pintos.Filesys

open Pintos.Kernel WordImage

/-- A block map that can be followed: the data and index sectors of the file are pairwise
distinct, they are on the disk, and there are no more blocks than three levels hold. -/
structure Mapped (s : FileSys) (d : InodeDisk) : Prop where
  inj : ∀ σ τ : Slot, σ.pos < d.blocks → τ.pos < d.blocks →
    disk_slot s.disk d σ = disk_slot s.disk d τ → σ = τ
  lt : ∀ σ : Slot, σ.pos < d.blocks → disk_slot s.disk d σ < s.capacity
  addressable : s.capacity ≤ 2 ^ 28
  max : d.blocks ≤ MAX_BLOCKS

/-! ## The loops do not look at the marks -/

/-- The file system with another free map. -/
def with_map (m : Bitmap) (s : FileSys) : FileSys := { s with free_map := m }

section Marks

variable {s : FileSys} {m : Bitmap}

theorem disk_read_map (h : m.bit_cnt = s.capacity) (n : ℕ) :
    disk_read (with_map m s) n = disk_read s n := by
  simp only [disk_read, with_map, FileSys.capacity, h]

theorem disk_write_map (h : m.bit_cnt = s.capacity) (n : ℕ) (b : Sector) :
    disk_write (with_map m s) n b = (disk_write s n b).map (with_map m) := by
  simp only [disk_write, with_map, FileSys.capacity, h]
  unfold ASSERT
  split_ifs
  · rfl
  · rfl

/-- A disk write leaves the size of the disk alone. -/
theorem disk_write_capacity {s' : FileSys} {n : ℕ} {b : Sector} (h : disk_write s n b = .ok s') :
    s'.capacity = s.capacity := by
  obtain ⟨-, -, h⟩ := bind_eq_ok h
  obtain rfl := Except.ok.inj h
  rfl

theorem block_sector_map (h : m.bit_cnt = s.capacity) (d : InodeDisk) (c : IndexCache) (k : ℕ) :
    block_sector (with_map m s) d c k = block_sector s d c k := by
  simp only [block_sector, load_indirect, load_parent, load_child, disk_read_map h]

theorem write_chunk_map (h : m.bit_cnt = s.capacity) (x : ℕ) (buffer : ℕ → UInt8)
    (bw ofs n : ℕ) : write_chunk (with_map m s) x buffer bw ofs n
      = (write_chunk s x buffer bw ofs n).map (with_map m) := by
  simp only [write_chunk, disk_read_map h, disk_write_map h]
  split_ifs
  · rfl
  · cases disk_read s x <;> rfl

theorem write_chunk_capacity {s' : FileSys} {x bw ofs n : ℕ} {buffer : ℕ → UInt8}
    (h : write_chunk s x buffer bw ofs n = .ok s') : s'.capacity = s.capacity := by
  unfold write_chunk at h
  split_ifs at h
  · exact disk_write_capacity h
  · obtain ⟨old, -, h⟩ := bind_eq_ok h
    exact disk_write_capacity h

/-- The read loop under another free map of the same size. -/
theorem read_loop_map (h : m.bit_cnt = s.capacity) (inode : Inode) (fuel : ℕ) :
    ∀ (size offset : ℕ) (c : IndexCache),
      read_loop (with_map m s) inode fuel size offset c = read_loop s inode fuel size offset c := by
  induction fuel with
  | zero => exact fun _ _ _ => rfl
  | succ fuel ih =>
    intro size offset c
    simp only [read_loop, block_sector_map h, disk_read_map h, ih]

/-- The write loop under another free map of the same size. -/
theorem write_loop_map (inode : Inode) (buffer : ℕ → UInt8) (fuel : ℕ) :
    ∀ (size offset bw : ℕ) (c : IndexCache) (s : FileSys), m.bit_cnt = s.capacity →
      write_loop inode buffer fuel size offset bw c (with_map m s)
        = (write_loop inode buffer fuel size offset bw c s).map
            (fun r => (r.1, with_map m r.2)) := by
  induction fuel with
  | zero => exact fun _ _ _ _ _ _ => rfl
  | succ fuel ih =>
    intro size offset bw c s h
    simp only [write_loop, block_sector_map h, write_chunk_map h]
    by_cases hs : size = 0
    · rw [if_pos hs, if_pos hs]
      rfl
    · rw [if_neg hs, if_neg hs]
      cases block_sector s inode.data c (offset / 512) with
      | error e => rfl
      | ok r =>
        rw [ok_bind, ok_bind]
        by_cases hn : chunk_size inode.data size offset = 0
        · rw [if_pos hn, if_pos hn]
          rfl
        · rw [if_neg hn, if_neg hn]
          cases hw : write_chunk s r.1 buffer bw (offset % 512)
              (chunk_size inode.data size offset) with
          | error e => rfl
          | ok s' =>
            rw [ok_bind]
            exact ih _ _ _ _ s' (h.trans (write_chunk_capacity hw).symm)

end Marks

/-! ## The byte view -/

/-- The free map with every sector of the disk marked. -/
def all_used (s : FileSys) : Bitmap := ⟨s.capacity, fun i => i < s.capacity⟩

section View

variable {s : FileSys} {inode : Inode}

theorem Mapped.diskOk (h : Mapped s inode.data) : DiskOk (with_map (all_used s) s) where
  capacity := h.addressable
  bits i hi := by simpa only [with_map, all_used, decide_eq_true_eq] using hi

theorem Mapped.mapOk (h : Mapped s inode.data) :
    MapOk (with_map (all_used s) s) inode.data inode.data.blocks where
  inj := h.inj
  used σ hσ := by simpa only [with_map, all_used, decide_eq_true_eq] using h.lt σ hσ

/-- A byte of the disk that is no byte of the range is a byte of another sector, or a byte
of the file outside the range. -/
theorem Wrote.outside {s' : FileSys} {d : InodeDisk} {n offset size : ℕ} {buf : ℕ → UInt8}
    (h : Wrote s s' d n offset size buf) (hm : MapOk s d n) {y j : ℕ} (hj : j < 512)
    (hout : ∀ i < size, (y, j) ≠ (block s.disk d ((offset + i) / 512), (offset + i) % 512)) :
    s'.disk y j = s.disk y j := by
  by_cases hy : ∀ k < n, y ≠ block s.disk d k
  · rw [h.frame y hy]
  · push Not at hy
    obtain ⟨k, hk, rfl⟩ := hy
    have hdiv : (512 * k + j) / 512 = k := by omega
    have hmod : (512 * k + j) % 512 = j := by omega
    have hbyte := h.bytes (512 * k + j) (by omega)
    have hslot : block s'.disk d k = block s.disk d k := h.slot hm (σ := .data k) hk
    simp only [file_byte, hdiv, hmod, hslot] at hbyte
    rw [hbyte, if_neg]
    rintro ⟨hlo, hhi⟩
    refine hout (512 * k + j - offset) (by omega) ?_
    rw [Nat.add_sub_cancel' hlo, hdiv, hmod]

/-- **Access inside a file is access to its bytes.** A read returns the bytes of the range,
each looked up afresh through its level of the block map; a write replaces exactly these
bytes, and every other byte of every sector is as it was. -/
theorem in_bounds_byte_view (h : Mapped s inode.data) (size offset : ℕ)
    (hle : offset + size ≤ inode.data.length) :
    (∃ bytes, inode_read_at s inode size offset = .ok bytes ∧ bytes.length = size ∧
      ∀ i < size, bytes[i]? = some (file_byte s.disk inode.data (offset + i))) ∧
    ∀ buffer : ℕ → UInt8, inode.deny_write_cnt = 0 →
      ∃ disk', inode_write_at s inode buffer size offset
          = .ok (size, inode, { s with disk := disk' }) ∧
        (∀ p < inode.data.length, file_byte disk' inode.data p
          = if offset ≤ p ∧ p < offset + size then buffer (p - offset)
            else file_byte s.disk inode.data p) ∧
        ∀ y j, j < 512 →
          (∀ i < size, (y, j)
            ≠ (block s.disk inode.data ((offset + i) / 512), (offset + i) % 512)) →
          disk' y j = s.disk y j := by
  have hB : inode.data.blocks = (inode.data.length + 511) / 512 := rfl
  have hmax : inode.data.blocks ≤ 16634 := h.max
  set t := with_map (all_used s) s with ht
  constructor
  · have hread := inode_read_at_spec h.diskOk h.mapOk h.max size offset hle
    refine ⟨(List.range size).map (fun i => file_byte s.disk inode.data (offset + i)), ?_,
      by rw [List.length_map, List.length_range], ?_⟩
    · calc inode_read_at s inode size offset
          = inode_read_at t inode size offset :=
            (read_loop_map (m := all_used s) rfl inode size size offset IndexCache.fresh).symm
        _ = _ := hread
    · intro i hi
      rw [List.getElem?_map, List.getElem?_range hi]
      rfl
  · intro buffer hdeny
    obtain ⟨t', hrun, hw⟩ := write_loop_spec buffer h.max size size offset 0 IndexCache.fresh t
      le_rfl hle h.diskOk h.mapOk (CacheOk.fresh _ _ _)
    simp only [Nat.zero_add] at hrun hw
    -- taking the marks back off
    have hback : with_map s.free_map t' = { s with disk := t'.disk } := by
      rw [hw.rest]
      rfl
    have hrun' : write_loop inode buffer size size offset 0 IndexCache.fresh s
        = .ok (size, { s with disk := t'.disk }) := by
      have hmap := write_loop_map (m := s.free_map) inode buffer size size offset 0
        IndexCache.fresh t rfl
      rw [hrun] at hmap
      rw [← hback]
      exact hmap
    refine ⟨t'.disk, ?_, ?_, fun y j hj hout => hw.outside h.mapOk hj hout⟩
    · rw [inode_write_at, inode_write_at_with, if_neg (by simp [hdeny]), if_neg (by omega),
        if_neg (by omega), ok_bind, hrun', ok_bind, pure_eq_ok]
    · intro p hp
      exact hw.bytes p (by omega)

end View

/-- A file of 600 bytes in sectors 3 and 4 of a disk of 16. -/
def two_blocks : Inode where
  sector := 2
  open_cnt := 1
  removed := false
  deny_write_cnt := 0
  data :=
    { inode_i := 1, length := 600, magic := INODE_MAGIC, isdir := false,
      direct_block := fun k => if k < 2 then 3 + k else 0, indirect_block := 0,
      doubly_indirect_block := 0 }

/-- The disk it is on. -/
def sixteen_sectors : FileSys where
  disk := fun x j => UInt8.ofNat (x + j)
  free_map := ⟨16, fun i => i < 5⟩
  free_map_file := none
  indirect_sec_idx := fun _ => 0
  doubly_sec_parent := fun _ => 0
  doubly_sec_idx := fun _ => 0
  next_iid := 2

theorem two_blocks_slot {σ : Slot} (h : σ.pos < two_blocks.data.blocks) :
    ∃ k < 2, σ = .data k ∧ disk_slot sixteen_sectors.disk two_blocks.data σ = 3 + k := by
  have hB : two_blocks.data.blocks = 2 := rfl
  rw [hB] at h
  cases σ with
  | data k =>
    have hk : k < 2 := h
    refine ⟨k, hk, rfl, ?_⟩
    simp only [disk_slot, two_blocks, if_pos (show k < 122 by omega), if_pos hk]
  | indirect => simp only [Slot.pos] at h; omega
  | doubly => simp only [Slot.pos] at h; omega
  | parent j => simp only [Slot.pos] at h; omega

/-- A read and a write of 80 bytes across the end of the first block. -/
theorem in_bounds_byte_view_two :
    (∃ bytes, inode_read_at sixteen_sectors two_blocks 80 500 = .ok bytes ∧ bytes.length = 80 ∧
      ∀ i < 80, bytes[i]? = some (file_byte sixteen_sectors.disk two_blocks.data (500 + i))) ∧
    ∀ buffer : ℕ → UInt8, two_blocks.deny_write_cnt = 0 →
      ∃ disk', inode_write_at sixteen_sectors two_blocks buffer 80 500
          = .ok (80, two_blocks, { sixteen_sectors with disk := disk' }) ∧
        (∀ p < two_blocks.data.length, file_byte disk' two_blocks.data p
          = if 500 ≤ p ∧ p < 500 + 80 then buffer (p - 500)
            else file_byte sixteen_sectors.disk two_blocks.data p) ∧
        ∀ y j, j < 512 →
          (∀ i < 80, (y, j)
            ≠ (block sixteen_sectors.disk two_blocks.data ((500 + i) / 512), (500 + i) % 512)) →
          disk' y j = sixteen_sectors.disk y j := by
  refine in_bounds_byte_view ⟨?_, ?_, by decide, by decide⟩ 80 500 (by decide)
  · intro σ τ hσ hτ he
    obtain ⟨k, -, rfl, h1⟩ := two_blocks_slot hσ
    obtain ⟨l, -, rfl, h2⟩ := two_blocks_slot hτ
    rw [h1, h2] at he
    rw [Nat.add_left_cancel he]
  · intro σ hσ
    obtain ⟨k, hk, rfl, h1⟩ := two_blocks_slot hσ
    rw [h1]
    change 3 + k < 16
    omega

end Pintos.Filesys
