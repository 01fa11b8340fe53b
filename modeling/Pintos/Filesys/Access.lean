/-
The sectors an `inode_read_at` or `inode_write_at` touches.

The two functions, and the parts of `add_blocks` that go to the disk, are given here with
the trace of their disk commands. The loops they share with the write of the free map are
those of `DiskIo` with interrupts on. A subscript outside its array and a sum that does not
fit `off_t` are faults already, so a call is safe if it returns and every sector it hands to
`disk_read` or `disk_write` belongs to the inode. The free map is written by a nested call
on its own inode, for which the same is said separately (`bitmap_write_within`).
-/
import Pintos.Filesys.DiskIo
import Pintos.Filesys.GrowthCount

set_option autoImplicit false

namespace Pintos.Filesys.DiskIo.Access

open Pintos.Kernel WordImage Traced

/-- The sector of a command. -/
def sec_no : Command → ℕ
  | .read n => n
  | .write n => n

/-! ## The calls with their commands -/

/-- The `while (size > 0)` loop of `inode_read_at`. -/
def read_loop (s : FileSys) (inode : Inode) :
    (fuel size offset : ℕ) → IndexCache → Io (List UInt8)
  | 0, _, _, _ => pure []
  | fuel + 1, size, offset, c =>
    if size = 0 then pure []
    else do
      let r ← block_sector .on s inode.data c (offset / 512)
      let n := chunk_size inode.data size offset
      if n = 0 then pure []
      else do
        let b ← disk_read .on s r.1
        let rest ← read_loop s inode fuel (size - n) (offset + n) r.2
        return (List.range n).map (fun i => b (offset % 512 + i)) ++ rest

/-- `inode_read_at`. -/
def inode_read_at (s : FileSys) (inode : Inode) (size offset : ℕ) : Io (List UInt8) :=
  read_loop s inode size size offset IndexCache.fresh

/-- The loop that writes the children `i .. i + cnt - 1`. -/
def write_children : (cnt i : ℕ) → FileSys → Io FileSys
  | 0, _, s => pure s
  | cnt + 1, i, s =>
    if 128 ≤ i then stop .bounds
    else do
      let s ← disk_write .on s (s.doubly_sec_parent i) (ofWords (row s.doubly_sec_idx i))
      write_children cnt (i + 1) s

/-- Writing the indirect block back. -/
def write_indirect (s : FileSys) (d : InodeDisk) (n : ℕ) : Io FileSys :=
  if DIRECT_LEN < n then disk_write .on s d.indirect_block (ofWords s.indirect_sec_idx)
  else pure s

/-- Writing the index arrays back. -/
def write_index (s : FileSys) (d : InodeDisk) (n : ℕ) : Io FileSys := do
  let s ← write_indirect s d n
  if DIRECT_LEN + 128 < n then do
    let s ← disk_write .on s d.doubly_indirect_block (ofWords s.doubly_sec_parent)
    let s ← disk_write .on s (s.doubly_sec_parent 0) (ofWords (row s.doubly_sec_idx 0))
    write_children ((n - DIRECT_LEN - 128) / 128) 1 s
  else pure s

/-- The loop that reads the children `i .. i + cnt - 1` back in. -/
def read_children : (cnt i : ℕ) → FileSys → Io FileSys
  | 0, _, s => pure s
  | cnt + 1, i, s =>
    if 128 ≤ i then stop .bounds
    else do
      let b ← disk_read .on s (s.doubly_sec_parent i)
      read_children cnt (i + 1) { s with
        doubly_sec_idx := fun k =>
          if 128 * i ≤ k ∧ k < 128 * i + 128 then word b (k - 128 * i)
          else s.doubly_sec_idx k }

/-- Reading the indirect block back in. -/
def read_indirect (s : FileSys) (d : InodeDisk) (old_eof : ℕ) : Io FileSys :=
  if DIRECT_LEN < old_eof / 512 then do
    let b ← disk_read .on s d.indirect_block
    return { s with indirect_sec_idx := word b }
  else pure s

/-- The reload at the head of `add_blocks`. -/
def read_index (s : FileSys) (d : InodeDisk) (old_eof : ℕ) : Io FileSys := do
  let s ← read_indirect s d old_eof
  if DIRECT_LEN + 128 < old_eof / 512 then do
    let b ← disk_read .on s d.doubly_indirect_block
    read_children ((old_eof / 512 - DIRECT_LEN - 128) / 128) 0
      { s with doubly_sec_parent := word b }
  else pure s

/-- `add_blocks`. The sectors come from `free_map_allocate_index`, whose writes of the free
map are calls on another inode. -/
def add_blocks (s : FileSys) (inode : Inode) (new_eof : ℕ) : Io (Inode × FileSys) := do
  let old_eof := inode.data.length
  let round_up := if old_eof % 512 ≠ 0 then 1 else 0
  let round_down := if old_eof % 512 ≠ 0 then 0 else 1
  let s ← read_index s inode.data old_eof
  let a ← quietly (free_map_allocate_index (new_eof / 512 - old_eof / 512 + round_down)
    (old_eof / 512 + round_up) s inode.data)
  if a.1 then do
    let s ← write_index a.2.2 a.2.1 (new_eof / 512)
    return ({ inode with data := a.2.1 }, s)
  else return ({ inode with data := a.2.1 }, a.2.2)

/-- The blocks a write past the end of file adds first, if it needs any. -/
def grow (s : FileSys) (inode : Inode) (new_eof : ℕ) : Io (Inode × FileSys) :=
  if needs_blocks inode.data.length new_eof then add_blocks s inode new_eof
  else pure (inode, s)

/-- `fill_zeros`. -/
def fill_zeros (s : FileSys) (d : InodeDisk) (old_eof offset : ℕ) : Io FileSys :=
  fill_zeros_loop .on d (offset - old_eof - 1) old_eof (offset - old_eof - 1) s

/-- The extension of a file to `offset + size` bytes. -/
def extend (s : FileSys) (inode : Inode) (size offset : ℕ) : Io (Inode × FileSys) := do
  let r ← grow s inode (offset + size)
  let s ← fill_zeros r.2 r.1.data r.1.data.length offset
  let inode := { r.1 with data := { r.1.data with length := offset + size } }
  let s ← disk_write .on (clear_arrays s) inode.sector (inode_image inode.data)
  return (inode, s)

/-- The extension, if the write goes past the end of file. -/
def extend_past (s : FileSys) (inode : Inode) (size offset : ℕ) : Io (Inode × FileSys) :=
  if inode.data.length < offset + size then extend s inode size offset
  else pure (inode, s)

/-- `inode_write_at`. -/
def inode_write_at (s : FileSys) (inode : Inode) (buffer : ℕ → UInt8) (size offset : ℕ) :
    Io (ℕ × Inode × FileSys) :=
  if inode.deny_write_cnt ≠ 0 then pure (0, inode, s)
  else if 2 ^ 31 ≤ offset + size then stop .overflow
  else do
    let r ← extend_past s inode size offset
    let w ← write_loop .on r.1 buffer size size offset 0 IndexCache.fresh r.2
    return (w.1, r.1, w.2)

/-! ## The results are those of the calls -/

theorem read_loop_result (s : FileSys) (inode : Inode) (fuel : ℕ) :
    ∀ (size offset : ℕ) (c : IndexCache), (read_loop s inode fuel size offset c).result =
      Filesys.read_loop s inode fuel size offset c := by
  induction fuel with
  | zero => exact fun _ _ _ => rfl
  | succ fuel ih =>
    intro size offset c
    unfold read_loop Filesys.read_loop
    simp only [ite_result, result_bind, result_pure, block_sector_on, disk_read_on, ih]
    rfl

/-- **`inode_read_at`** with its trace returns what it returns. -/
theorem inode_read_at_result (s : FileSys) (inode : Inode) (size offset : ℕ) :
    (inode_read_at s inode size offset).result = Filesys.inode_read_at s inode size offset :=
  read_loop_result s inode size size offset _

@[simp] theorem write_children_result (cnt : ℕ) : ∀ (i : ℕ) (s : FileSys),
    (write_children cnt i s).result = Filesys.write_children cnt i s := by
  induction cnt with
  | zero => exact fun _ _ => rfl
  | succ cnt ih =>
    intro i s
    unfold write_children Filesys.write_children
    simp only [ite_result, result_bind, stop_result, disk_write_on, ih]

@[simp] theorem write_index_result (s : FileSys) (d : InodeDisk) (n : ℕ) :
    (write_index s d n).result = Filesys.write_index s d n := by
  unfold write_index write_indirect Filesys.write_index
  simp only [ite_result, result_bind, result_pure, disk_write_on, write_children_result]

@[simp] theorem read_children_result (cnt : ℕ) : ∀ (i : ℕ) (s : FileSys),
    (read_children cnt i s).result = Filesys.read_children cnt i s := by
  induction cnt with
  | zero => exact fun _ _ => rfl
  | succ cnt ih =>
    intro i s
    unfold read_children Filesys.read_children
    simp only [ite_result, result_bind, stop_result, disk_read_on, ih]

@[simp] theorem read_index_result (s : FileSys) (d : InodeDisk) (old_eof : ℕ) :
    (read_index s d old_eof).result = Filesys.read_index s d old_eof := by
  unfold read_index read_indirect Filesys.read_index
  simp only [ite_result, result_bind, result_pure, disk_read_on, read_children_result]
  rfl

@[simp] theorem add_blocks_result (s : FileSys) (inode : Inode) (new_eof : ℕ) :
    (add_blocks s inode new_eof).result = Filesys.add_blocks s inode new_eof := by
  unfold add_blocks Filesys.add_blocks
  simp only [ite_result, result_bind, result_pure, quietly_result, read_index_result,
    write_index_result]
  rfl

theorem grow_result (s : FileSys) (inode : Inode) (new_eof : ℕ) :
    (grow s inode new_eof).result = if needs_blocks inode.data.length new_eof
      then Filesys.add_blocks s inode new_eof else .ok (inode, s) := by
  unfold grow
  simp only [ite_result, result_pure, add_blocks_result]

@[simp] theorem fill_zeros_result (s : FileSys) (d : InodeDisk) (old_eof offset : ℕ) :
    (fill_zeros s d old_eof offset).result = Filesys.fill_zeros s d old_eof offset :=
  fill_zeros_loop_on d _ _ _ _

@[simp] theorem extend_result (s : FileSys) (inode : Inode) (size offset : ℕ) :
    (extend s inode size offset).result
      = extend_with Filesys.add_blocks s inode size offset := by
  unfold extend extend_with
  simp only [result_bind, result_pure, grow_result, fill_zeros_result, disk_write_on]
  rfl

/-- **`inode_write_at`** with its trace returns what it returns. -/
theorem inode_write_at_result (s : FileSys) (inode : Inode) (buffer : ℕ → UInt8)
    (size offset : ℕ) : (inode_write_at s inode buffer size offset).result
      = Filesys.inode_write_at s inode buffer size offset := by
  unfold inode_write_at extend_past Filesys.inode_write_at inode_write_at_with
  simp only [ite_result, result_bind, result_pure, stop_result, extend_result, write_loop_on]
  rfl

/-! ## Lookups -/

/-- Every command is on a sector of `S`. -/
abbrev Within (S : Set ℕ) {α : Type} (x : Io α) : Prop := Only (fun c => sec_no c ∈ S) x

section Lookup

variable {S : Set ℕ} {s : FileSys} {d : InodeDisk} {n : ℕ} {c : IndexCache}

theorem within_quietly {α : Type} (x : Res α) : Within S (quietly x) := fun _ hw => by cases hw

/-- One command. -/
theorem within_disk_read {level : IntrLevel} (s : FileSys) {x : ℕ} :
    Within S (disk_read level s x) ↔ x ∈ S := by
  simp only [Within, disk_read, only_bind, only_emit, sec_no, issue_pio_command, only_pure,
    implies_true, and_true, and_iff_left_iff_imp]
  intro _ _ _
  exact ⟨within_quietly _, fun _ _ => within_quietly _⟩

theorem within_disk_write {level : IntrLevel} (s : FileSys) {x : ℕ} (b : Sector) :
    Within S (disk_write level s x b) ↔ x ∈ S := by
  simp only [Within, disk_write, only_bind, only_emit, sec_no, issue_pio_command, only_pure,
    implies_true, and_true, and_iff_left_iff_imp]
  intro _ _ _
  exact ⟨within_quietly _, fun _ _ => within_quietly _⟩

theorem load_parent_on (s : FileSys) (d : InodeDisk) (c : IndexCache) :
    (load_parent .on s d c).result = Filesys.load_parent s d c := by
  unfold load_parent
  simp only [ite_result, result_bind, result_pure, disk_read_on]
  rfl

theorem within_load_indirect (h : c.buffer_flag ≠ 128 → d.indirect_block ∈ S) :
    Within S (load_indirect .on s d c) := by
  unfold load_indirect
  by_cases hf : c.buffer_flag ≠ 128
  · rw [if_pos hf]
    exact only_bind.mpr ⟨(within_disk_read s).mpr (h hf), fun _ _ => only_pure.mpr trivial⟩
  · rw [if_neg hf]
    exact only_pure.mpr trivial

theorem within_load_parent (h : c.buffer_parent_flag = false → d.doubly_indirect_block ∈ S) :
    Within S (load_parent .on s d c) := by
  unfold load_parent
  by_cases hf : c.buffer_parent_flag = false
  · rw [if_pos hf]
    exact only_bind.mpr ⟨(within_disk_read s).mpr (h hf), fun _ _ => only_pure.mpr trivial⟩
  · rw [if_neg hf]
    exact only_pure.mpr trivial

theorem within_load_child {j : ℕ} (h : c.index_parent_buffer j ∈ S) :
    Within S (load_child .on s j c) := by
  unfold load_child
  by_cases hf : c.buffer_flag ≠ j
  · rw [if_pos hf]
    by_cases hj : 128 ≤ j
    · rw [if_pos hj]
      exact only_stop.mpr trivial
    · rw [if_neg hj]
      exact only_bind.mpr ⟨(within_disk_read s).mpr h, fun _ _ => only_pure.mpr trivial⟩
  · rw [if_neg hf]
    exact only_pure.mpr trivial

/-- The index sectors the lookup of block `k` goes through are among those of the first `n`
blocks. -/
def LookupOk (n k : ℕ) : Prop :=
  k < 122 ∨ (k < 250 ∧ 122 < n) ∨ (250 ≤ k ∧ 250 + 128 * ((k - 250) / 128) < n)

theorem LookupOk.of_lt {k : ℕ} (h : k < n) : LookupOk n k := by
  simp only [LookupOk]
  omega

/-- **A lookup within the map** returns, and reads index sectors of the first `n` blocks. -/
theorem lookup_within (h : OnDisk s d n) (hc : CacheOk s.disk d n c) (hmax : n ≤ MAX_BLOCKS)
    {k : ℕ} (hk : LookupOk n k)
    (hS : ∀ τ : Slot, τ.IsIndex → τ.pos < n → disk_slot s.disk d τ ∈ S) :
    (∃ r, (block_sector .on s d c k).result = .ok r) ∧ Within S (block_sector .on s d c k) := by
  have hmax' : n ≤ 16634 := hmax
  have hD : DIRECT_LEN = 122 := rfl
  rw [block_sector_on]
  unfold block_sector
  simp only [LookupOk] at hk
  by_cases h1 : k < DIRECT_LEN
  · rw [if_pos h1, Filesys.block_sector, if_pos h1]
    exact ⟨⟨_, rfl⟩, only_pure.mpr trivial⟩
  · rw [if_neg h1, Filesys.block_sector, if_neg h1]
    by_cases h2 : k < DIRECT_LEN + 128
    · rw [if_pos h2, if_pos h2]
      obtain ⟨c', hl, -, -⟩ := h.load_indirect hc (by omega)
      refine ⟨⟨(c'.index_buffer (k - DIRECT_LEN), c'), by rw [hl, ok_bind, pure_eq_ok]⟩, ?_⟩
      refine only_bind.mpr ⟨?_, fun _ _ => only_pure.mpr trivial⟩
      exact within_load_indirect (fun _ => hS .indirect trivial (show 122 < n by omega))
    · rw [if_neg h2, if_neg h2, show k - DIRECT_LEN - 128 = k - 250 by omega]
      set j := (k - 250) / 128 with hj
      obtain ⟨c₁, hl₁, hc₁, hp₁⟩ := h.load_parent hc (by omega)
      obtain ⟨c₂, hl₂, -, -⟩ := h.load_child hc₁ hp₁ (j := j) (by omega) (by omega)
      refine ⟨⟨(c₂.index_buffer ((k - 250) % 128), c₂), by
        rw [hl₁, ok_bind, hl₂, ok_bind, pure_eq_ok]⟩, ?_⟩
      refine only_bind.mpr ⟨?_, ?_⟩
      · exact within_load_parent (fun _ => hS .doubly trivial (show 250 < n by omega))
      · intro c₁' hret
        obtain rfl : c₁ = c₁' := by
          rw [Returns, load_parent_on, hl₁] at hret
          exact Except.ok.inj hret
        refine only_bind.mpr ⟨within_load_child ?_, fun _ _ => only_pure.mpr trivial⟩
        rw [(hc₁.parent hp₁).2]
        exact hS (.parent j) trivial (show 250 + 128 * j < n by omega)

/-- Where the lookup leaves `buffer_flag`. -/
theorem block_sector_flag {k x : ℕ} {c' : IndexCache}
    (h : Filesys.block_sector s d c k = .ok (x, c')) :
    (k < 122 ∧ c' = c) ∨ (122 ≤ k ∧ k < 250 ∧ c'.buffer_flag = 128) ∨
      (250 ≤ k ∧ c'.buffer_flag = ((k - 250) / 128 : ℕ)) := by
  have hD : DIRECT_LEN = 122 := rfl
  rw [Filesys.block_sector] at h
  by_cases h1 : k < DIRECT_LEN
  · rw [if_pos h1] at h
    exact Or.inl ⟨h1, (Prod.mk.inj (Except.ok.inj h)).2.symm⟩
  · rw [if_neg h1] at h
    by_cases h2 : k < DIRECT_LEN + 128
    · rw [if_pos h2] at h
      obtain ⟨c₁, hl, hret⟩ := bind_eq_ok h
      obtain ⟨-, rfl⟩ := Prod.mk.inj (Except.ok.inj hret)
      refine Or.inr (Or.inl ⟨by omega, h2, ?_⟩)
      rw [Filesys.load_indirect] at hl
      by_cases hf : c.buffer_flag ≠ 128
      · rw [if_pos hf] at hl
        obtain ⟨b, -, hret⟩ := bind_eq_ok hl
        rw [← Except.ok.inj hret]
      · rw [if_neg hf] at hl
        rw [← Except.ok.inj hl]
        exact not_not.mp hf
    · rw [if_neg h2, show k - DIRECT_LEN - 128 = k - 250 by omega] at h
      obtain ⟨c₁, -, h⟩ := bind_eq_ok h
      obtain ⟨c₂, hl, hret⟩ := bind_eq_ok h
      obtain ⟨-, rfl⟩ := Prod.mk.inj (Except.ok.inj hret)
      refine Or.inr (Or.inr ⟨by omega, ?_⟩)
      rw [Filesys.load_child] at hl
      by_cases hf : c₁.buffer_flag ≠ ((k - 250) / 128 : ℕ)
      · rw [if_pos hf] at hl
        by_cases hj : 128 ≤ (k - 250) / 128
        · rw [if_pos hj] at hl
          cases hl
        · rw [if_neg hj] at hl
          obtain ⟨b, -, hret⟩ := bind_eq_ok hl
          rw [← Except.ok.inj hret]
      · rw [if_neg hf] at hl
        rw [← Except.ok.inj hl]
        exact not_not.mp hf

end Lookup

/-! ## Safe calls -/

/-- It returns, and every command is on a sector of `S`. -/
def Safe (S : Set ℕ) {α : Type} (x : Io α) : Prop := (∃ a, x.result = .ok a) ∧ Within S x

section SafeRules

variable {S : Set ℕ} {α β : Type} {x : Io α} {f : α → Io β}

theorem safe_pure (a : α) : Safe S (pure a : Io α) := ⟨⟨a, rfl⟩, only_pure.mpr trivial⟩

/-- A sequence is safe when its first half is and, from what that comes to, its second. -/
theorem safe_bind : Safe S (x >>= f) ↔ Within S x ∧ ∃ a, x.result = .ok a ∧ Safe S (f a) := by
  simp only [Safe, Within, only_bind, result_bind, Returns]
  constructor
  · rintro ⟨⟨b, hb⟩, hx, hf⟩
    obtain ⟨a, ha, hfa⟩ := bind_eq_ok hb
    exact ⟨hx, a, ha, ⟨b, hfa⟩, hf a ha⟩
  · rintro ⟨hx, a, ha, ⟨b, hb⟩, hf⟩
    refine ⟨⟨b, by rw [ha]; exact hb⟩, hx, ?_⟩
    intro a' ha'
    rw [ha] at ha'
    rwa [← Except.ok.inj ha']

end SafeRules

/-! ## Reading -/

/-- The sectors of an inode: its own, and those of its blocks and index blocks. -/
def inode_sectors (s : FileSys) (inode : Inode) : Set ℕ :=
  {x | x = inode.sector ∨
    ∃ σ : Slot, σ.pos < inode.data.blocks ∧ x = disk_slot s.disk inode.data σ}

/-- The index entries behind the last block hold no sector of the file. -/
structure BehindApart (s : FileSys) (inode : Inode) : Prop where
  indirect : inode.data.blocks ≤ 122 → inode.data.indirect_block ∉ inode_sectors s inode
  doubly : inode.data.blocks ≤ 250 → inode.data.doubly_indirect_block ∉ inode_sectors s inode
  parent : 250 < inode.data.blocks → ∀ j < 128, inode.data.blocks ≤ 250 + 128 * j →
    disk_slot s.disk inode.data (.parent j) ∉ inode_sectors s inode

/-- The reads whose last lookup, at the end of file if they go past it, has its index
sectors. -/
def ReadFits (inode : Inode) (size offset : ℕ) : Prop :=
  size = 0 ∨ offset + size ≤ inode.data.length ∨
    LookupOk inode.data.blocks (max offset inode.data.length / 512)

section Read

variable {s : FileSys} {inode : Inode}

theorem read_loop_within (h : OnDisk s inode.data inode.data.blocks)
    (hmax : inode.data.blocks ≤ MAX_BLOCKS) :
    ∀ (fuel size offset : ℕ) (c : IndexCache), CacheOk s.disk inode.data inode.data.blocks c →
      ReadFits inode size offset → Safe (inode_sectors s inode) (read_loop s inode fuel size offset c)
      := by
  have hindex : ∀ τ : Slot, τ.IsIndex → τ.pos < inode.data.blocks →
      disk_slot s.disk inode.data τ ∈ inode_sectors s inode := fun τ _ hpos =>
    Or.inr ⟨τ, hpos, rfl⟩
  intro fuel
  induction fuel with
  | zero => exact fun _ _ _ _ _ => safe_pure _
  | succ fuel ih =>
    intro size offset c hc hfits
    rw [read_loop]
    by_cases hs : size = 0
    · rw [if_pos hs]
      exact safe_pure _
    · rw [if_neg hs]
      by_cases hin : offset < inode.data.length
      · -- a block of the file
        have hk : offset / 512 < inode.data.blocks := div_lt_blocks hin
        obtain ⟨-, hw⟩ := lookup_within h hc hmax (.of_lt hk) hindex
        obtain ⟨c', hb, hc'⟩ := h.block_sector hc hmax hk
        have hn : chunk_size inode.data size offset ≠ 0 ∧
            offset + chunk_size inode.data size offset ≤ inode.data.length ∧
            chunk_size inode.data size offset ≤ size := by
          simp only [chunk_size]
          split_ifs <;> omega
        refine safe_bind.mpr ⟨hw, _, by rw [block_sector_on]; exact hb, ?_⟩
        dsimp only
        rw [if_neg hn.1]
        have hx : block s.disk inode.data (offset / 512) < s.capacity := h.lt (.data _) hk
        refine safe_bind.mpr ⟨(within_disk_read s).mpr (Or.inr ⟨.data _, hk, rfl⟩), _,
          by rw [disk_read_on]; exact disk_read_eq hx h.capacity, ?_⟩
        have hrest := ih (size - chunk_size inode.data size offset)
          (offset + chunk_size inode.data size offset) c' hc' (by
            simp only [ReadFits] at hfits ⊢
            rw [max_eq_right hn.2.1]
            rw [max_eq_right hin.le] at hfits
            rcases hfits with hs' | hle | hk'
            · exact absurd hs' hs
            · exact Or.inr (Or.inl (by omega))
            · exact Or.inr (Or.inr hk'))
        obtain ⟨⟨l, hl⟩, hwr⟩ := hrest
        exact safe_bind.mpr ⟨hwr, l, hl, safe_pure _⟩
      · -- the end of file
        have hk : LookupOk inode.data.blocks (offset / 512) := by
          simp only [ReadFits, max_eq_left (Nat.not_lt.mp hin)] at hfits
          rcases hfits with hs' | hle | hk
          · exact absurd hs' hs
          · omega
          · exact hk
        obtain ⟨⟨r, hr⟩, hw⟩ := lookup_within h hc hmax hk hindex
        refine safe_bind.mpr ⟨hw, r, hr, ?_⟩
        have hn : chunk_size inode.data size offset = 0 := by
          simp only [chunk_size]
          split_ifs <;> omega
        dsimp only
        rw [if_pos hn]
        exact safe_pure _

/-- **A lookup behind the map** goes through a sector that is not the file's, or outside the
parents. -/
theorem lookup_outside (hb : BehindApart s inode) (h : OnDisk s inode.data inode.data.blocks)
    {c : IndexCache} (hc : CacheOk s.disk inode.data inode.data.blocks c) {k : ℕ}
    (hk : ¬ LookupOk inode.data.blocks k) (hflag : 128 ≤ c.buffer_flag → k ≤ 250) :
    ¬ Safe (inode_sectors s inode) (block_sector .on s inode.data c k) := by
  have hD : DIRECT_LEN = 122 := rfl
  rintro ⟨⟨r, hr⟩, hw⟩
  rw [block_sector_on] at hr
  simp only [LookupOk] at hk
  unfold block_sector at hw
  rw [if_neg (show ¬ k < DIRECT_LEN by omega)] at hw
  by_cases h2 : k < DIRECT_LEN + 128
  · rw [if_pos h2] at hw
    have hload := (only_bind.mp hw).1
    have hf : c.buffer_flag ≠ 128 := fun hf => by
      have := (hc.indirect hf).1
      omega
    rw [load_indirect, if_pos hf] at hload
    exact hb.indirect (by omega) ((within_disk_read s).mp (only_bind.mp hload).1)
  · rw [if_neg h2] at hw
    have hload := (only_bind.mp hw).1
    by_cases hB : 250 < inode.data.blocks
    · -- the parents are there, the child is not
      obtain ⟨c₁, hl₁, hc₁, hp₁⟩ := h.load_parent hc hB
      have hchild := (only_bind.mp ((only_bind.mp hw).2 c₁ (by
        rw [Returns, load_parent_on]
        exact hl₁))).1
      rw [Filesys.block_sector, if_neg (by omega), if_neg h2, hl₁, ok_bind] at hr
      obtain ⟨c₂, hl₂, -⟩ := bind_eq_ok hr
      rw [show k - DIRECT_LEN - 128 = k - 250 by omega] at hchild hl₂
      set j := (k - 250) / 128 with hj
      have hf : c₁.buffer_flag ≠ j := by
        intro hf
        by_cases hj' : j < 128
        · have := (hc₁.child j hj' hf).1
          omega
        · have hc₁flag : c₁.buffer_flag = c.buffer_flag := by
            rw [Filesys.load_parent] at hl₁
            by_cases hp : c.buffer_parent_flag = false
            · rw [if_pos hp] at hl₁
              obtain ⟨b, -, hret⟩ := bind_eq_ok hl₁
              rw [← Except.ok.inj hret]
            · rw [if_neg hp] at hl₁
              rw [← Except.ok.inj hl₁]
          have := hflag (by omega)
          omega
      rw [load_child, if_pos hf] at hchild
      rw [Filesys.load_child, if_pos hf] at hl₂
      by_cases hj' : 128 ≤ j
      · rw [if_pos hj'] at hl₂
        cases hl₂
      · rw [if_neg hj'] at hchild
        have hin := (within_disk_read s).mp (only_bind.mp hchild).1
        rw [(hc₁.parent hp₁).2] at hin
        exact hb.parent hB j (by omega) (by omega) hin
    · have hp : c.buffer_parent_flag = false := by
        cases hp : c.buffer_parent_flag with
        | false => rfl
        | true => exact absurd (hc.parent hp).1 hB
      rw [load_parent, if_pos hp] at hload
      exact hb.doubly (by omega) ((within_disk_read s).mp (only_bind.mp hload).1)

theorem read_loop_outside (hb : BehindApart s inode) (h : OnDisk s inode.data inode.data.blocks)
    (hmax : inode.data.blocks ≤ MAX_BLOCKS) :
    ∀ (fuel size offset : ℕ) (c : IndexCache), size ≤ fuel →
      CacheOk s.disk inode.data inode.data.blocks c →
      (128 ≤ c.buffer_flag → offset ≤ 250 * 512) →
      Safe (inode_sectors s inode) (read_loop s inode fuel size offset c) →
      ReadFits inode size offset := by
  intro fuel
  induction fuel with
  | zero =>
    intro size offset c hf _ _ _
    exact Or.inl (by omega)
  | succ fuel ih =>
    intro size offset c hf hc hflag hsafe
    rw [read_loop] at hsafe
    by_cases hs : size = 0
    · exact Or.inl hs
    · rw [if_neg hs] at hsafe
      obtain ⟨hw, ⟨x, c'⟩, hr, hrest⟩ := safe_bind.mp hsafe
      by_cases hin : offset < inode.data.length
      · have hk : offset / 512 < inode.data.blocks := div_lt_blocks hin
        obtain ⟨c'', hbs, hc'⟩ := h.block_sector hc hmax hk
        rw [block_sector_on] at hr
        obtain ⟨-, rfl⟩ := Prod.mk.inj (Except.ok.inj (hbs.symm.trans hr))
        have hn : chunk_size inode.data size offset ≠ 0 ∧
            offset + chunk_size inode.data size offset ≤ inode.data.length ∧
            chunk_size inode.data size offset ≤ size ∧
            offset % 512 + chunk_size inode.data size offset ≤ 512 := by
          simp only [chunk_size]
          split_ifs <;> omega
        dsimp only at hrest
        rw [if_neg hn.1] at hrest
        obtain ⟨-, b, -, hrest⟩ := safe_bind.mp hrest
        obtain ⟨hwr, l, hl, -⟩ := safe_bind.mp hrest
        have hM : MAX_BLOCKS = 16634 := rfl
        have hnext := ih _ _ c'' (by omega) hc' (by
          intro hf'
          rcases block_sector_flag hbs with ⟨hlt, -⟩ | ⟨-, hlt, -⟩ | ⟨hge, he⟩ <;> omega)
          ⟨⟨l, hl⟩, hwr⟩
        simp only [ReadFits] at hnext ⊢
        rw [max_eq_right hn.2.1] at hnext
        rw [max_eq_right hin.le]
        rcases hnext with hs' | hle | hk'
        · exact Or.inr (Or.inl (by omega))
        · exact Or.inr (Or.inl (by omega))
        · exact Or.inr (Or.inr hk')
      · -- the lookup behind the end of file
        refine Or.inr (Or.inr ?_)
        rw [max_eq_left (Nat.not_lt.mp hin)]
        by_contra hk
        exact lookup_outside hb h hc hk (fun hf' => by have := hflag hf'; omega) ⟨⟨_, hr⟩, hw⟩

/-- **Reading touches the inode's own sectors** exactly when the read fits. -/
theorem inode_read_at_safe_iff (hb : BehindApart s inode)
    (h : OnDisk s inode.data inode.data.blocks) (hmax : inode.data.blocks ≤ MAX_BLOCKS)
    (size offset : ℕ) : Safe (inode_sectors s inode) (inode_read_at s inode size offset) ↔
      ReadFits inode size offset := by
  constructor
  · refine read_loop_outside hb h hmax size size offset _ le_rfl (CacheOk.fresh _ _ _) ?_
    intro hf
    simp [IndexCache.fresh] at hf
  · exact read_loop_within h hmax size size offset _ (CacheOk.fresh _ _ _)

end Read

/-! ## The stages of a write -/

section Stages

variable {S : Set ℕ} {s s' : FileSys} {inode : Inode} {d : InodeDisk} {n : ℕ}

/-- The write loop goes through the index sectors and the blocks of its range. -/
theorem within_write_loop (buffer : ℕ → UInt8) (hmax : inode.data.blocks ≤ MAX_BLOCKS) :
    ∀ (fuel size offset bw : ℕ) (c : IndexCache) (s : FileSys), size ≤ fuel →
      offset + size ≤ inode.data.length → OnDisk s inode.data inode.data.blocks →
      (∀ τ : Slot, τ.IsIndex → τ.pos < inode.data.blocks → ∀ k, offset / 512 ≤ k →
        512 * k < offset + size →
        disk_slot s.disk inode.data τ ≠ block s.disk inode.data k) →
      CacheOk s.disk inode.data inode.data.blocks c →
      (∀ τ : Slot, τ.IsIndex → τ.pos < inode.data.blocks → disk_slot s.disk inode.data τ ∈ S) →
      (∀ k, offset / 512 ≤ k → 512 * k < offset + size → block s.disk inode.data k ∈ S) →
      Within S (write_loop .on inode buffer fuel size offset bw c s) := by
  intro fuel
  induction fuel with
  | zero => exact fun _ _ _ _ _ _ _ _ _ _ _ _ => only_pure.mpr trivial
  | succ fuel ih =>
    intro size offset bw c s hf hle h hapart hc hindex hdata
    rw [write_loop]
    by_cases hs : size = 0
    · rw [if_pos hs]
      exact only_pure.mpr trivial
    · rw [if_neg hs]
      obtain ⟨hpos, hsz, hsec⟩ := chunk_size_spec (d := inode.data) (by omega) hle
      set m := chunk_size inode.data size offset with hmdef
      have hk : offset / 512 < inode.data.blocks := div_lt_blocks (by omega)
      obtain ⟨c', hb, hc'⟩ := h.block_sector hc hmax hk
      have hlt : block s.disk inode.data (offset / 512) < s.capacity := h.lt _ hk
      have hin := hdata (offset / 512) le_rfl (by omega)
      set x := block s.disk inode.data (offset / 512) with hx
      obtain ⟨b, hround, -⟩ := write_chunk_frame buffer bw hlt h.capacity hsec
      have hupdate : ∀ τ : Slot, τ.IsIndex → τ.pos < inode.data.blocks →
          Function.update s.disk x b (disk_slot s.disk inode.data τ)
            = s.disk (disk_slot s.disk inode.data τ) := fun τ hτ hpos =>
        Function.update_of_ne (hapart τ hτ hpos _ le_rfl (by omega)) _ _
      have hslot : ∀ σ : Slot, σ.pos < inode.data.blocks →
          disk_slot (Function.update s.disk x b) inode.data σ = disk_slot s.disk inode.data σ :=
        fun σ hσ => disk_slot_congr hupdate hσ
      have hblock : ∀ k, 512 * k < offset + size →
          block (Function.update s.disk x b) inode.data k = block s.disk inode.data k := by
        intro k hk'
        refine hslot (.data k) ?_
        have := div_lt_blocks (d := inode.data) (p := 512 * k) (by omega)
        simp only [Slot.pos]
        omega
      refine only_bind.mpr ⟨(lookup_within h hc hmax (.of_lt hk) hindex).2, ?_⟩
      intro r hr
      rw [Returns, block_sector_on, hb] at hr
      obtain rfl := Except.ok.inj hr
      rw [if_neg (by omega)]
      refine only_bind.mpr ⟨?_, ?_⟩
      · unfold write_chunk
        by_cases hfull : offset % 512 = 0 ∧ m = 512
        · rw [if_pos hfull]
          exact (within_disk_write s _).mpr hin
        · rw [if_neg hfull]
          exact only_bind.mpr ⟨(within_disk_read s).mpr hin,
            fun _ _ => (within_disk_write s _).mpr hin⟩
      · intro s₁ hs₁
        rw [Returns, write_chunk_on, hround] at hs₁
        obtain rfl := Except.ok.inj hs₁
        refine ih (size - m) (offset + m) (bw + m) c' { s with disk := Function.update s.disk x b }
          (by omega) (by omega) ⟨h.capacity, fun σ hσ => by rw [hslot σ hσ]; exact h.lt σ hσ⟩ ?_
          (hc'.frame hupdate) ?_ ?_
        · intro τ hτ hpos k hk1 hk2
          rw [hslot τ hpos, hblock k (by omega)]
          exact hapart τ hτ hpos k (by omega) (by omega)
        · intro τ hτ hpos
          rw [hslot τ hpos]
          exact hindex τ hτ hpos
        · intro k hk1 hk2
          rw [hblock k (by omega)]
          exact hdata k (by omega) (by omega)

theorem returns_disk_write {x : ℕ} {b : Sector} (h : Returns (disk_write .on s x b) s') :
    s' = { s with disk := Function.update s.disk x b } := by
  rw [Returns, disk_write_on] at h
  obtain ⟨-, -, hret⟩ := bind_eq_ok h
  exact (Except.ok.inj hret).symm

/-- `fill_zeros` goes to the sectors the arrays give for the blocks of the gap. -/
theorem within_fill (hn : n ≤ MAX_BLOCKS) : ∀ (fuel old_eof size : ℕ) (s : FileSys),
    (0 < size → (old_eof + size - 1) / 512 < n) →
    (∀ k, 0 < size → old_eof / 512 ≤ k → 512 * k < old_eof + size →
      mem_slot s d (.data k) ∈ S) →
    Within S (fill_zeros_loop .on d fuel old_eof size s) := by
  intro fuel
  induction fuel with
  | zero => exact fun _ _ _ _ _ => only_pure.mpr trivial
  | succ fuel ih =>
    intro old_eof size s hlast hS
    rw [fill_zeros_loop]
    by_cases hs : size = 0
    · rw [if_pos hs]
      exact only_pure.mpr trivial
    · rw [if_neg hs]
      have hk : old_eof / 512 < n := by
        have := hlast (by omega)
        omega
      have hin := hS (old_eof / 512) (by omega) le_rfl (by omega)
      refine only_bind.mpr ⟨within_quietly _, ?_⟩
      intro x hx
      obtain rfl : mem_slot s d (.data (old_eof / 512)) = x := by
        have hx' : array_sector s d (old_eof / 512) = .ok x := hx
        rw [array_sector_eq s d (by omega)] at hx'
        exact Except.ok.inj hx'
      refine only_bind.mpr ⟨?_, ?_⟩
      · unfold zero_tail
        by_cases h0 : old_eof % 512 = 0
        · rw [if_pos h0]
          exact (within_disk_write s _).mpr hin
        · rw [if_neg h0]
          exact only_bind.mpr ⟨(within_disk_read s).mpr hin,
            fun _ _ => (within_disk_write s _).mpr hin⟩
      · intro s₁ hs₁
        have hdisk : OnlyDisk s s₁ := by
          unfold zero_tail at hs₁
          by_cases h0 : old_eof % 512 = 0
          · rw [if_pos h0] at hs₁
            rw [returns_disk_write hs₁]
            exact OnlyDisk.refl _
          · rw [if_neg h0, returns_bind] at hs₁
            obtain ⟨b, -, hs₁⟩ := hs₁
            rw [returns_disk_write hs₁]
            exact OnlyDisk.refl _
        refine ih _ _ _ (fun h => ?_) (fun k _ hk1 hk2 => ?_)
        · have := hlast (by omega)
          omega
        · rw [hdisk.mem_slot]
          exact hS k (by omega) (by omega) (by omega)

/-- The reload reads index sectors. -/
theorem within_read_index (hd : DiskOk s) (hm : MapOk s d d.blocks)
    (hmax : d.blocks ≤ MAX_BLOCKS)
    (hS : ∀ τ : Slot, τ.IsIndex → τ.pos < d.blocks → disk_slot s.disk d τ ∈ S) :
    Within S (read_index s d d.length) := by
  have hD : DIRECT_LEN = 122 := rfl
  have hM : MAX_BLOCKS = 16634 := rfl
  have hB : d.blocks = (d.length + 511) / 512 := rfl
  have hchildren : ∀ (cnt i : ℕ) (t : FileSys), (∀ j, i ≤ j → j < i + cnt →
      t.doubly_sec_parent j ∈ S) → Within S (read_children cnt i t) := by
    intro cnt
    induction cnt with
    | zero => exact fun _ _ _ => only_pure.mpr trivial
    | succ cnt ih =>
      intro i t hpar
      rw [read_children]
      by_cases hi : 128 ≤ i
      · rw [if_pos hi]
        exact only_stop.mpr trivial
      · rw [if_neg hi]
        refine only_bind.mpr ⟨(within_disk_read t).mpr (hpar i le_rfl (by omega)), ?_⟩
        intro b _
        exact ih _ _ (fun j hj hj' => hpar j (by omega) (by omega))
  unfold read_index
  refine only_bind.mpr ⟨?_, ?_⟩
  · unfold read_indirect
    by_cases h1 : DIRECT_LEN < d.length / 512
    · rw [if_pos h1]
      refine only_bind.mpr ⟨(within_disk_read s).mpr ?_, fun _ _ => only_pure.mpr trivial⟩
      exact hS .indirect trivial (show 122 < d.blocks by omega)
    · rw [if_neg h1]
      exact only_pure.mpr trivial
  · intro s₁ hs₁
    have hdisk : s₁.disk = s.disk ∧ s₁.free_map = s.free_map := by
      unfold read_indirect at hs₁
      by_cases h1 : DIRECT_LEN < d.length / 512
      · rw [if_pos h1, returns_bind] at hs₁
        obtain ⟨b, -, hs₁⟩ := hs₁
        rw [← returns_pure.mp hs₁]
        exact ⟨rfl, rfl⟩
      · rw [if_neg h1] at hs₁
        rw [← returns_pure.mp hs₁]
        exact ⟨rfl, rfl⟩
    by_cases h2 : DIRECT_LEN + 128 < d.length / 512
    · rw [if_pos h2]
      have h250 : 250 < d.blocks := by omega
      refine only_bind.mpr ⟨(within_disk_read s₁).mpr (hS .doubly trivial h250), ?_⟩
      intro b hb
      have hlt : d.doubly_indirect_block < s₁.capacity := by
        have := hm.lt hd (σ := .doubly) h250
        simp only [FileSys.capacity, hdisk.2]
        exact this
      have hcap : s₁.capacity ≤ 2 ^ 28 := by
        simp only [FileSys.capacity, hdisk.2]
        exact hd.capacity
      rw [Returns, disk_read_on, disk_read_eq hlt hcap, hdisk.1] at hb
      obtain rfl := Except.ok.inj hb
      refine hchildren _ _ _ ?_
      intro j _ hj
      exact hS (.parent j) trivial (show 250 + 128 * j < d.blocks by omega)
    · rw [if_neg h2]
      exact only_pure.mpr trivial

/-- The write-back goes to the index sectors in the arrays. -/
theorem within_write_index (hS : ∀ τ : Slot, τ.IsIndex → τ.pos ≤ n → mem_slot s d τ ∈ S) :
    Within S (write_index s d n) := by
  have hD : DIRECT_LEN = 122 := rfl
  have hchildren : ∀ (cnt i : ℕ) (t : FileSys), (∀ j, i ≤ j → j < i + cnt →
      t.doubly_sec_parent j ∈ S) → Within S (write_children cnt i t) := by
    intro cnt
    induction cnt with
    | zero => exact fun _ _ _ => only_pure.mpr trivial
    | succ cnt ih =>
      intro i t hpar
      rw [write_children]
      by_cases hi : 128 ≤ i
      · rw [if_pos hi]
        exact only_stop.mpr trivial
      · rw [if_neg hi]
        refine only_bind.mpr ⟨(within_disk_write t _).mpr (hpar i le_rfl (by omega)), ?_⟩
        intro t' ht'
        rw [returns_disk_write ht']
        exact ih _ _ (fun j hj hj' => hpar j (by omega) (by omega))
  unfold write_index
  refine only_bind.mpr ⟨?_, ?_⟩
  · unfold write_indirect
    by_cases h1 : DIRECT_LEN < n
    · rw [if_pos h1]
      exact (within_disk_write s _).mpr (hS .indirect trivial (show 122 ≤ n by omega))
    · rw [if_neg h1]
      exact only_pure.mpr trivial
  · intro s₁ hs₁
    have hpar : s₁.doubly_sec_parent = s.doubly_sec_parent := by
      unfold write_indirect at hs₁
      by_cases h1 : DIRECT_LEN < n
      · rw [if_pos h1] at hs₁
        rw [returns_disk_write hs₁]
      · rw [if_neg h1] at hs₁
        rw [← returns_pure.mp hs₁]
    have hrow : ∀ j, 250 + 128 * j ≤ n → s₁.doubly_sec_parent j ∈ S := by
      intro j hj
      rw [hpar]
      exact hS (.parent j) trivial hj
    by_cases h2 : DIRECT_LEN + 128 < n
    · rw [if_pos h2]
      refine only_bind.mpr ⟨(within_disk_write s₁ _).mpr
        (hS .doubly trivial (show 250 ≤ n by omega)), ?_⟩
      intro s₂ hs₂
      rw [returns_disk_write hs₂]
      refine only_bind.mpr ⟨(within_disk_write _ _).mpr (hrow 0 (by omega)), ?_⟩
      intro s₃ hs₃
      rw [returns_disk_write hs₃]
      exact hchildren _ _ _ (fun j _ hj => hrow j (by omega))
    · rw [if_neg h2]
      exact only_pure.mpr trivial

/-- `add_blocks` reads the index sectors the file has and writes those it ends up with. -/
theorem within_add_blocks {inode' : Inode} {new_eof : ℕ} (hr : Ready s) (h : FileOk s inode)
    (hrun : Filesys.add_blocks s inode new_eof = .ok (inode', s'))
    (hold : ∀ τ : Slot, τ.IsIndex → τ.pos < inode.data.blocks →
      disk_slot s.disk inode.data τ ∈ S)
    (hnew : ∀ τ : Slot, τ.IsIndex → τ.pos ≤ new_eof / 512 → mem_slot s' inode'.data τ ∈ S) :
    Within S (add_blocks s inode new_eof) := by
  obtain ⟨s₁, hread, hrun⟩ := bind_eq_ok hrun
  obtain ⟨a, halloc, hrun⟩ := bind_eq_ok hrun
  unfold add_blocks
  refine only_bind.mpr ⟨within_read_index hr.ok.disk h.map h.max hold, ?_⟩
  intro s₁' hs₁'
  obtain rfl : s₁ = s₁' := by
    rw [Returns, read_index_result, hread] at hs₁'
    exact Except.ok.inj hs₁'
  refine only_bind.mpr ⟨within_quietly _, ?_⟩
  intro a' ha'
  obtain rfl : a = a' := by
    rw [Returns, quietly_result, halloc] at ha'
    exact Except.ok.inj ha'
  by_cases hok : a.1 = true
  · rw [if_pos hok] at hrun ⊢
    obtain ⟨s₂, hwrite, hret⟩ := bind_eq_ok hrun
    obtain ⟨rfl, rfl⟩ := Prod.mk.inj (Except.ok.inj hret)
    refine only_bind.mpr ⟨within_write_index ?_, fun _ _ => only_pure.mpr trivial⟩
    intro τ hτ hpos
    rw [← (onlyDisk_write_index hwrite).mem_slot]
    exact hnew τ hτ hpos
  · rw [if_neg hok]
    exact only_pure.mpr trivial

end Stages

/-! ## Writing -/

/-- The call returns, and every command is on a sector the inode has or gets. -/
def WriteSafe (s : FileSys) (inode : Inode) (buffer : ℕ → UInt8) (size offset : ℕ) : Prop :=
  ∃ r, (inode_write_at s inode buffer size offset).result = .ok r ∧
    Within (inode_sectors s inode ∪ ↑(newly_marked s r.2.2))
      (inode_write_at s inode buffer size offset)

/-- What a write that adds blocks needs: the new end is within the arrays, there are sectors,
the reload and the write-back reach the index sectors, and the blocks `fill_zeros` and the
write loop go to were loaded. -/
structure ExtendFits (s : FileSys) (length size offset : ℕ) : Prop where
  max : offset + size < 512 * MAX_BLOCKS
  room : (grown_slots length (offset + size)).length ≤ (free_sectors s).card
  parents : ParentsLoaded length
  indirect : ¬ (122 * 512 < offset + size ∧ offset + size < 123 * 512)
  doubly : ¬ (250 * 512 < offset + size ∧ offset + size < 251 * 512)
  gap : length + 2 ≤ offset → length % 512 = 0 ∨ Loaded length (length / 512)
  old : ∀ k, offset / 512 ≤ k → k < bytes_to_sectors length → Loaded length k

/-- The writes that keep to the inode's sectors. -/
def WriteFits (s : FileSys) (inode : Inode) (size offset : ℕ) : Prop :=
  inode.deny_write_cnt ≠ 0 ∨ offset + size < 2 ^ 31 ∧
    (offset + size ≤ inode.data.length ∨
      ¬ needs_blocks inode.data.length (offset + size) ∧
        (inode.data.length + 2 ≤ offset → inode.data.length / 512 < 122) ∨
      needs_blocks inode.data.length (offset + size) ∧
        ExtendFits s inode.data.length size offset)

section Write

variable {S : Set ℕ} {s s' : FileSys} {inode : Inode} {d : InodeDisk} {n size offset : ℕ}

/-- What the extension comes to once the blocks are there. -/
theorem extend_run {s₀ : FileSys} {disk₄ : ℕ → Sector} (h : Grown s inode d n)
    (hF : Filled s inode d n size offset disk₄)
    (hrun : (grow s₀ inode (offset + size)).result = .ok ({ inode with data := d }, s)) :
    (extend s₀ inode size offset).result
      = .ok ({ inode with data := { d with length := offset + size } },
          extended_fs s inode d (offset + size) disk₄) := by
  have hfilled : (fill_zeros s d d.length offset).result = .ok { s with disk := disk₄ } := by
    rw [fill_zeros_result]
    exact hF.run
  have hwrite := disk_write_eq (s := clear_arrays { s with disk := disk₄ })
    (inode_image { d with length := offset + size }) h.own h.capacity
  rw [extend, result_bind, hrun, ok_bind, result_bind, hfilled, ok_bind, result_bind,
    disk_write_on, hwrite]
  rfl

/-- The stages of a write past the end of file, from what each of them goes to. -/
theorem within_stages {s₀ : FileSys} (buffer : ℕ → UInt8) (h : Grown s inode d n)
    (hn : n = bytes_to_sectors (offset + size)) (hlen : d.length = inode.data.length)
    (hlt : inode.data.length < offset + size) (hdeny : inode.deny_write_cnt = 0)
    (hrun : (grow s₀ inode (offset + size)).result = .ok ({ inode with data := d }, s))
    (hgrow : Within S (grow s₀ inode (offset + size))) (hown : inode.sector ∈ S)
    (hfill : ∀ k, inode.data.length + 2 ≤ offset → inode.data.length / 512 ≤ k →
      512 * k < offset - 1 → mem_slot s d (.data k) ∈ S)
    (hindex : ∀ τ : Slot, τ.IsIndex → τ.pos < n → disk_slot s.disk d τ ∈ S)
    (hdata : ∀ k, offset / 512 ≤ k → k < n → block s.disk d k ∈ S) :
    Within S (inode_write_at s₀ inode buffer size offset) := by
  have hM : MAX_BLOCKS = 16634 := rfl
  have hN : bytes_to_sectors (offset + size) = (offset + size + 511) / 512 := rfl
  have hmax := h.max
  obtain ⟨disk₄, hF⟩ := h.filled hn
  have hbound : ∀ k, 512 * k < offset + size → k < n := by
    intro k hk
    omega
  have hfilled : (fill_zeros s d d.length offset).result = .ok { s with disk := disk₄ } := by
    rw [fill_zeros_result]
    exact hF.run
  have hext := extend_run h hF hrun
  unfold inode_write_at
  rw [if_neg (by simp [hdeny]), if_neg (by omega), extend_past, if_pos hlt]
  refine only_bind.mpr ⟨?_, ?_⟩
  · refine only_bind.mpr ⟨hgrow, ?_⟩
    intro r hr
    rw [Returns, hrun] at hr
    obtain rfl := Except.ok.inj hr
    refine only_bind.mpr ⟨?_, ?_⟩
    · refine within_fill (n := n) hmax _ _ _ _ (fun _ => by omega) (fun k hpos hk1 hk2 => ?_)
      have hlen' : d.length = inode.data.length := hlen
      change 0 < offset - d.length - 1 at hpos
      change d.length / 512 ≤ k at hk1
      change 512 * k < d.length + (offset - d.length - 1) at hk2
      exact hfill k (by omega) (by omega) (by omega)
    · intro s₄ hs₄
      have hs₄' : (fill_zeros s d d.length offset).result = .ok s₄ := hs₄
      rw [hfilled] at hs₄'
      obtain rfl := Except.ok.inj hs₄'
      exact only_bind.mpr ⟨(within_disk_write _ _).mpr hown, fun _ _ => only_pure.mpr trivial⟩
  · intro r hr
    rw [Returns, hext] at hr
    obtain rfl := Except.ok.inj hr
    refine only_bind.mpr ⟨?_, fun _ _ => only_pure.mpr trivial⟩
    have hblocks : ({ d with length := offset + size } : InodeDisk).blocks = n := hn.symm
    refine @within_write_loop _ { inode with data := { d with length := offset + size } }
      buffer (by rw [hblocks]; exact hmax) size size offset 0 IndexCache.fresh _ le_rfl le_rfl
      (by rw [hblocks]; exact hF.onDisk) ?_ (CacheOk.fresh _ _ _) ?_ ?_
    · intro τ hτ hpos k _ hk
      exact hF.apart τ hτ (by rwa [← hblocks]) k (hbound k hk)
    · intro τ hτ hpos
      have hpos' : τ.pos < n := by rwa [← hblocks]
      rw [hF.slot τ hpos']
      exact hindex τ hτ hpos'
    · intro k hk1 hk2
      rw [block, hF.slot (.data k) (hbound k hk2)]
      exact hdata k hk1 (hbound k hk2)

/-- A sector the arrays hold after `add_blocks` is the file's or new, unless it stands for a
block that was lost. -/
theorem mem_sectors {d' : InodeDisk} {new_eof m : ℕ}
    (h : Extended s s' inode.data d' new_eof m)
    (hneed : needs_blocks inode.data.length new_eof) {σ : Slot} (hσ : σ.pos ≤ new_eof / 512)
    (hkept : ∀ k, σ = .data k → k < inode.data.blocks → Loaded inode.data.length k) :
    mem_slot s' d' σ ∈ inode_sectors s inode ∪ ↑(newly_marked s s') := by
  rcases h.slot_cases hneed hσ with ⟨hb, he⟩ | ⟨k, hk, he, hlost, -⟩ | ⟨-, hmem⟩
  · exact Or.inl (Or.inr ⟨σ, hb, he⟩)
  · exact absurd (hkept k he hk) hlost
  · refine Or.inr ?_
    have hmark : s'.free_map.bits (mem_slot s' d' σ) = true :=
      (h.bits _).mpr (Or.inr ⟨σ, hmem, rfl⟩)
    rw [Finset.mem_coe, mem_newly_marked h.capacity]
    exact ⟨h.capacity ▸ h.ok.disk.bits _ hmark, h.fresh σ hmem, hmark⟩

/-- A write that is denied. -/
theorem write_denied (buffer : ℕ → UInt8) (hdeny : inode.deny_write_cnt ≠ 0) :
    WriteSafe s inode buffer size offset := by
  refine ⟨(0, inode, s), ?_, ?_⟩ <;> unfold inode_write_at <;> rw [if_pos hdeny]
  · rfl
  · exact only_pure.mpr trivial

/-- A write inside the file. -/
theorem write_within_file (hr : Ready s) (h : FileOk s inode) (buffer : ℕ → UInt8)
    (hdeny : inode.deny_write_cnt = 0) (hov : offset + size < 2 ^ 31)
    (hle : offset + size ≤ inode.data.length) : WriteSafe s inode buffer size offset := by
  have hin : ¬ inode.data.length < offset + size := by omega
  obtain ⟨s', hloop, -⟩ := write_loop_spec buffer h.max size size offset 0 IndexCache.fresh s
    le_rfl hle hr.ok.disk h.map (CacheOk.fresh _ _ _)
  refine ⟨(0 + size, inode, s'), ?_, ?_⟩
  · rw [inode_write_at_result, Filesys.inode_write_at, inode_write_at_with,
      if_neg (by simp [hdeny]), if_neg (by omega), if_neg hin, ok_bind, hloop, ok_bind, pure_eq_ok]
  · unfold inode_write_at
    rw [if_neg (by simp [hdeny]), if_neg (by omega), extend_past, if_neg hin]
    refine only_bind.mpr ⟨only_pure.mpr trivial, ?_⟩
    intro r hret
    obtain rfl := returns_pure.mp hret
    refine only_bind.mpr ⟨?_, fun _ _ => only_pure.mpr trivial⟩
    refine within_write_loop buffer h.max size size offset 0 IndexCache.fresh s le_rfl hle
      (h.map.onDisk hr.ok.disk) ?_ (CacheOk.fresh _ _ _) ?_ ?_
    · intro τ hτ hpos k _ hk he
      have := h.map.inj τ (.data k) hpos (by
        simp only [Slot.pos, InodeDisk.blocks, bytes_to_sectors]
        omega) he
      subst this
      exact hτ
    · exact fun τ _ hpos => Or.inl (Or.inr ⟨τ, hpos, rfl⟩)
    · intro k _ hk
      refine Or.inl (Or.inr ⟨.data k, ?_, rfl⟩)
      simp only [Slot.pos, InodeDisk.blocks, bytes_to_sectors]
      omega

/-- A write past the end of file within the last block. -/
theorem write_within_block (hr : Ready s) (h : FileOk s inode) (buffer : ℕ → UInt8)
    (hdeny : inode.deny_write_cnt = 0) (hlt : inode.data.length < offset + size)
    (hneed : ¬ needs_blocks inode.data.length (offset + size))
    (hgap : inode.data.length + 2 ≤ offset → inode.data.length / 512 < 122) :
    WriteSafe s inode buffer size offset := by
  have hblocks : inode.data.blocks = bytes_to_sectors (offset + size) := by
    have hneed' := mt needs_blocks_iff.mpr hneed
    simp only [InodeDisk.blocks, bytes_to_sectors] at hneed' ⊢
    omega
  have hB : inode.data.blocks = (inode.data.length + 511) / 512 := rfl
  have hN : bytes_to_sectors (offset + size) = (offset + size + 511) / 512 := rfl
  have hgrown := h.grown hr
  rw [hblocks] at hgrown
  obtain ⟨-, disk', -, hrun, -⟩ := @Grown.write _ _ _ _ s _ _ buffer hgrown rfl hlt hdeny
    (by rw [if_neg hneed])
  refine ⟨_, by rw [inode_write_at_result]; exact hrun, ?_⟩
  refine within_stages buffer hgrown rfl rfl hlt hdeny (by rw [grow, if_neg hneed]; rfl) ?_
    (Or.inl (Or.inl rfl)) ?_ ?_ ?_
  · rw [grow, if_neg hneed]
    exact only_pure.mpr trivial
  · intro k h2 hk1 hk2
    have hk : k = inode.data.length / 512 := by omega
    rw [mem_slot, if_pos (by rw [hk]; exact hgap h2), ← block_direct s.disk _ (by
      rw [hk]
      exact hgap h2)]
    exact Or.inl (Or.inr ⟨.data k, show k < inode.data.blocks by omega, rfl⟩)
  · intro τ _ hpos
    exact Or.inl (Or.inr ⟨τ, by rwa [hblocks], rfl⟩)
  · intro k _ hk
    exact Or.inl (Or.inr ⟨.data k, by rwa [hblocks], rfl⟩)

/-- A write that adds blocks. -/
theorem write_past_blocks (hr : Ready s) (h : FileOk s inode) (buffer : ℕ → UInt8)
    (hdeny : inode.deny_write_cnt = 0) (hneed : needs_blocks inode.data.length (offset + size))
    (hfits : ExtendFits s inode.data.length size offset) :
    WriteSafe s inode buffer size offset := by
  have hM : MAX_BLOCKS = 16634 := rfl
  have hmax := hfits.max
  have h122 := hfits.indirect
  have h250 := hfits.doubly
  have hneed' := needs_blocks_iff.mp hneed
  have hB : bytes_to_sectors inode.data.length = inode.data.blocks := rfl
  have hB' : inode.data.blocks = (inode.data.length + 511) / 512 := rfl
  have hN : bytes_to_sectors (offset + size) = (offset + size + 511) / 512 := rfl
  have hlt : inode.data.length < offset + size := by omega
  have hflush : FlushOk ((offset + size) / 512) (bytes_to_sectors (offset + size))
      ((offset + size) / 512 + 1) := by
    constructor <;> omega
  obtain ⟨d', s₁, hadd, hE⟩ := add_blocks_extends hr h hneed hmax hfits.parents hflush hfits.room
  have hgrown := hE.grown hr h hneed hmax
  obtain ⟨-, disk', -, hrun, -⟩ := hgrown.write buffer rfl hlt hdeny (by
    rw [if_pos hneed]; exact hadd)
  have hrange : ∀ k, k < bytes_to_sectors (offset + size) → k ≤ (offset + size) / 512 := by
    intro k hk
    omega
  refine ⟨_, by rw [inode_write_at_result]; exact hrun, ?_⟩
  change Within (inode_sectors s inode ∪ ↑(newly_marked s s₁)) _
  refine within_stages buffer hgrown rfl hE.header.length hlt hdeny
    (by rw [grow_result, if_pos hneed]; exact hadd) ?_ (Or.inl (Or.inl rfl)) ?_ ?_ ?_
  · rw [grow, if_pos hneed]
    refine within_add_blocks hr h hadd (fun τ _ hpos => Or.inl (Or.inr ⟨τ, hpos, rfl⟩)) ?_
    intro τ hτ hpos
    refine mem_sectors hE hneed hpos ?_
    rintro k rfl _
    exact absurd hτ id
  · intro k h2 hk1 hk2
    refine mem_sectors hE hneed (σ := .data k) (hrange k (by omega)) ?_
    intro k' he hk'
    obtain rfl : k = k' := by injection he
    rcases hfits.gap h2 with hmod | hload
    · omega
    · obtain rfl : k = inode.data.length / 512 := by omega
      exact hload
  · intro τ hτ hpos
    rw [hE.disk τ hpos]
    refine mem_sectors hE hneed (by omega) ?_
    rintro k rfl _
    exact absurd hτ id
  · intro k hk1 hk2
    rw [block, hE.disk (.data k) hk2]
    refine mem_sectors hE hneed (σ := .data k) (hrange k hk2) ?_
    intro k' he hk'
    obtain rfl : k = k' := by injection he
    exact hfits.old k hk1 hk'

end Write

/-! ## Writes that do not keep to the inode's sectors -/

section Outside

variable {S : Set ℕ} {s s' : FileSys} {inode : Inode} {d : InodeDisk} {n size offset : ℕ}

/-- The write loop goes to every block of its range. -/
theorem write_loop_blocks (buffer : ℕ → UInt8) (hmax : inode.data.blocks ≤ MAX_BLOCKS) :
    ∀ (fuel size offset bw : ℕ) (c : IndexCache) (s : FileSys), size ≤ fuel →
      offset + size ≤ inode.data.length → OnDisk s inode.data inode.data.blocks →
      (∀ τ : Slot, τ.IsIndex → τ.pos < inode.data.blocks → ∀ k, offset / 512 ≤ k →
        512 * k < offset + size →
        disk_slot s.disk inode.data τ ≠ block s.disk inode.data k) →
      CacheOk s.disk inode.data inode.data.blocks c →
      Within S (write_loop .on inode buffer fuel size offset bw c s) →
      ∀ k, 0 < size → offset / 512 ≤ k → 512 * k < offset + size → block s.disk inode.data k ∈ S
    := by
  intro fuel
  induction fuel with
  | zero => exact fun _ _ _ _ _ hf _ _ _ _ _ _ hpos => absurd hpos (by omega)
  | succ fuel ih =>
    intro size offset bw c s hf hle h hapart hc hw k hpos hk1 hk2
    rw [write_loop, if_neg (by omega)] at hw
    obtain ⟨hm, hsz, hsec⟩ := chunk_size_spec (d := inode.data) hpos hle
    set m := chunk_size inode.data size offset with hmdef
    have hk : offset / 512 < inode.data.blocks := div_lt_blocks (by omega)
    obtain ⟨c', hb, hc'⟩ := h.block_sector hc hmax hk
    have hlt : block s.disk inode.data (offset / 512) < s.capacity := h.lt _ hk
    obtain ⟨b, hround, -⟩ := write_chunk_frame buffer bw hlt h.capacity hsec
    set x := block s.disk inode.data (offset / 512) with hx
    obtain ⟨-, hrest⟩ := only_bind.mp hw
    have hrest := hrest (x, c') (by
      rw [Returns, block_sector_on]
      exact hb)
    rw [if_neg (by omega)] at hrest
    obtain ⟨hchunk, hrest⟩ := only_bind.mp hrest
    by_cases hfirst : k = offset / 512
    · -- this round's block
      rw [hfirst]
      unfold write_chunk at hchunk
      by_cases hfull : offset % 512 = 0 ∧ m = 512
      · rw [if_pos hfull] at hchunk
        exact (within_disk_write s _).mp hchunk
      · rw [if_neg hfull] at hchunk
        exact (within_disk_read s).mp (only_bind.mp hchunk).1
    · have hupdate : ∀ τ : Slot, τ.IsIndex → τ.pos < inode.data.blocks →
          Function.update s.disk x b (disk_slot s.disk inode.data τ)
            = s.disk (disk_slot s.disk inode.data τ) := fun τ hτ hpos =>
        Function.update_of_ne (hapart τ hτ hpos _ le_rfl (by omega)) _ _
      have hslot : ∀ σ : Slot, σ.pos < inode.data.blocks →
          disk_slot (Function.update s.disk x b) inode.data σ = disk_slot s.disk inode.data σ :=
        fun σ hσ => disk_slot_congr hupdate hσ
      have hblock : ∀ k, 512 * k < offset + size →
          block (Function.update s.disk x b) inode.data k = block s.disk inode.data k := by
        intro k hk'
        refine hslot (.data k) ?_
        have := div_lt_blocks (d := inode.data) (p := 512 * k) (by omega)
        simp only [Slot.pos]
        omega
      have hnext := hrest { s with disk := Function.update s.disk x b } (by
        rw [Returns, write_chunk_on]
        exact hround)
      have hm512 : offset % 512 + m = 512 ∨ size - m = 0 ∨ inode.data.length = offset + m := by
        rw [hmdef]
        simp only [chunk_size]
        split_ifs <;> omega
      have hmem := ih (size - m) (offset + m) (bw + m) c'
        { s with disk := Function.update s.disk x b } (by omega) (by omega)
        ⟨h.capacity, fun σ hσ => by rw [hslot σ hσ]; exact h.lt σ hσ⟩
        (fun τ hτ hpos k hk1 hk2 => by
          rw [hslot τ hpos, hblock k (by omega)]
          exact hapart τ hτ hpos k (by omega) (by omega)) (hc'.frame hupdate) hnext k
        (by omega) (by omega) (by omega)
      rwa [hblock k hk2] at hmem

/-- A gap of more than one byte starts with the sector of the last block. -/
theorem fill_first {old_eof : ℕ} (hk : old_eof / 512 < MAX_BLOCKS) (hgap : old_eof + 2 ≤ offset)
    (hw : Within S (fill_zeros s d old_eof offset)) : mem_slot s d (.data (old_eof / 512)) ∈ S := by
  unfold fill_zeros at hw
  obtain ⟨fuel, hfuel⟩ : ∃ fuel, offset - old_eof - 1 = fuel + 1 :=
    ⟨offset - old_eof - 2, by omega⟩
  rw [hfuel, fill_zeros_loop, if_neg (by omega)] at hw
  have hrest := (only_bind.mp hw).2 _ (show Returns (quietly (array_sector s d (old_eof / 512)))
    (mem_slot s d (.data (old_eof / 512))) from array_sector_eq s d hk)
  have hzero := (only_bind.mp hrest).1
  unfold zero_tail at hzero
  by_cases h0 : old_eof % 512 = 0
  · rw [if_pos h0] at hzero
    exact (within_disk_write s _).mp hzero
  · rw [if_neg h0] at hzero
    exact (within_disk_read s).mp (only_bind.mp hzero).1

/-- Sector 0 is no sector of the file, and no sector a call marks. -/
theorem boot_not_mem (hr : Ready s) (h : FileOk s inode) (hsec : inode.sector ≠ FREE_MAP_SECTOR)
    (hcap : s'.capacity = s.capacity) :
    FREE_MAP_SECTOR ∉ inode_sectors s inode ∪ ↑(newly_marked s s') := by
  rintro ((he | ⟨σ, hσ, he⟩) | hmem)
  · exact hsec he.symm
  · exact h.boot σ hσ he.symm
  · rw [Finset.mem_coe, mem_newly_marked hcap, hr.boot] at hmem
    cases hmem.2.1

/-- What a call past the end of file within `S` says of its stages. -/
theorem stages_within (buffer : ℕ → UInt8) (hdeny : inode.deny_write_cnt = 0)
    (hov : offset + size < 2 ^ 31) (hlt : inode.data.length < offset + size)
    (hw : Within S (inode_write_at s inode buffer size offset)) :
    Within S (grow s inode (offset + size)) ∧
      (∀ inode₁ s₁, (grow s inode (offset + size)).result = .ok (inode₁, s₁) →
        Within S (fill_zeros s₁ inode₁.data inode₁.data.length offset)) ∧
      ∀ inode₁ s₁, (extend s inode size offset).result = .ok (inode₁, s₁) →
        Within S (write_loop .on inode₁ buffer size size offset 0 IndexCache.fresh s₁) := by
  unfold inode_write_at at hw
  rw [if_neg (by simp [hdeny]), if_neg (by omega), extend_past, if_pos hlt] at hw
  obtain ⟨hext, hloop⟩ := only_bind.mp hw
  obtain ⟨hgrow, hfill⟩ := only_bind.mp hext
  refine ⟨hgrow, ?_, ?_⟩
  · intro inode₁ s₁ hrun
    exact (only_bind.mp (hfill (inode₁, s₁) hrun)).1
  · intro inode₁ s₁ hrun
    exact (only_bind.mp (hloop (inode₁, s₁) hrun)).1

/-- From a length inside block 250 the parents are not read back in, and the write-back of row
0 goes to sector 0. -/
theorem parents_lost {new_eof : ℕ} (hr : Ready s) (h : FileOk s inode)
    (hneed : needs_blocks inode.data.length new_eof) (hmax : new_eof < 512 * MAX_BLOCKS)
    (hroom : (grown_slots inode.data.length new_eof).length ≤ (free_sectors s).card)
    (hlost : ¬ ParentsLoaded inode.data.length)
    (hw : Within S (add_blocks s inode new_eof)) : FREE_MAP_SECTOR ∈ S := by
  have hD : DIRECT_LEN = 122 := rfl
  have hM : MAX_BLOCKS = 16634 := rfl
  have hneed' := needs_blocks_iff.mp hneed
  simp only [ParentsLoaded, not_not] at hlost
  have hBlocks : bytes_to_sectors inode.data.length = 251 := by
    simp only [bytes_to_sectors]
    omega
  obtain ⟨s₁, d₂, s₂, hstages⟩ := add_blocks_stages hr h hneed hmax hroom
  have hs₁ := hstages.arrays
  have hA := hstages.allocated
  have hold : ∀ σ : Slot, σ.pos < 251 → mem_slot s₂ d₂ σ = mem_slot s₁ inode.data σ := by
    intro σ hσ
    refine hA.old σ ?_
    rw [mem_grown_slots (by omega)]
    omega
  -- 250 is not past `DIRECT_LEN + 128`, so the parents stay clear
  have hparent : s₁.doubly_sec_parent = fun _ => 0 := by
    have hread := hstages.read
    rw [Filesys.read_index, if_pos (by omega)] at hread
    obtain ⟨s₂, hread₂, hread⟩ := bind_eq_ok hread
    obtain ⟨b, -, hret⟩ := bind_eq_ok hread₂
    rw [if_neg (by omega)] at hread
    rw [← Except.ok.inj hread, ← Except.ok.inj hret]
    exact hr.arrays.parent
  have hzero : s₂.doubly_sec_parent 0 = FREE_MAP_SECTOR := by
    have := hold (.parent 0) (by simp only [Slot.pos]; omega)
    simp only [mem_slot] at this
    rw [this, hparent]
  unfold add_blocks at hw
  have hw := (only_bind.mp hw).2 s₁ (by
    rw [Returns, read_index_result]
    exact hstages.read)
  have hw := (only_bind.mp hw).2 (true, d₂, s₂) hstages.alloc
  rw [if_pos rfl] at hw
  obtain ⟨hindirect, hw⟩ := only_bind.mp (only_bind.mp hw).1
  have hlt : ∀ τ : Slot, τ.IsIndex → τ.pos < 251 → mem_slot s₂ d₂ τ < s₂.capacity := by
    intro τ hτ hpos
    apply hA.ok.disk.bits
    rw [hold τ hpos, hA.bits, hs₁]
    left
    cases τ with
    | indirect =>
      exact h.map.used .indirect (by simp only [Slot.pos, InodeDisk.blocks, hBlocks]; omega)
    | doubly =>
      exact h.map.used .doubly (by simp only [Slot.pos, InodeDisk.blocks, hBlocks]; omega)
    | parent j =>
      simp only [mem_slot, hparent]
      exact hr.boot
    | data k => exact absurd hτ id
  have hw := hw { s₂ with
    disk := Function.update s₂.disk d₂.indirect_block (ofWords s₂.indirect_sec_idx) } (by
      unfold write_indirect
      rw [if_pos (by omega), Returns, disk_write_on]
      exact disk_write_eq _ (hlt .indirect trivial (by simp only [Slot.pos]; omega))
        hA.ok.disk.capacity)
  rw [if_pos (by omega)] at hw
  obtain ⟨-, hw⟩ := only_bind.mp hw
  have hw := (only_bind.mp (hw _ (by
    rw [Returns, disk_write_on]
    exact disk_write_eq _ (hlt .doubly trivial (by simp only [Slot.pos]; omega))
      hA.ok.disk.capacity))).1
  have hmem := (within_disk_write _ _).mp hw
  change s₂.doubly_sec_parent 0 ∈ S at hmem
  rwa [hzero] at hmem

/-- **Where a write leaves its sectors.** If the disk has room and the new end is not inside
a block whose pointer is not written back, a write that keeps to the inode's sectors fits. -/
theorem write_fits_of_safe (hr : Ready s) (h : FileOk s inode)
    (hsec : inode.sector ≠ FREE_MAP_SECTOR) (buffer : ℕ → UInt8)
    (hroom : (slotsFrom (min ((offset + size) / 512) MAX_BLOCKS + 1 - inode.data.blocks)
      inode.data.blocks).length ≤ (free_sectors s).card)
    (h122 : ¬ (122 * 512 < offset + size ∧ offset + size < 123 * 512))
    (h250 : ¬ (250 * 512 < offset + size ∧ offset + size < 251 * 512))
    (hsafe : WriteSafe s inode buffer size offset) : WriteFits s inode size offset := by
  have hM : MAX_BLOCKS = 16634 := rfl
  have hB : inode.data.blocks = (inode.data.length + 511) / 512 := rfl
  have hB' : bytes_to_sectors inode.data.length = inode.data.blocks := rfl
  have hN : bytes_to_sectors (offset + size) = (offset + size + 511) / 512 := rfl
  have hmax := h.max
  obtain ⟨⟨w, inode', s'⟩, hrun, hw⟩ := hsafe
  rw [inode_write_at_result] at hrun
  by_cases hdeny : inode.deny_write_cnt = 0
  · right
    by_cases hov : offset + size < 2 ^ 31
    · refine ⟨hov, ?_⟩
      by_cases hlt : inode.data.length < offset + size
      · right
        obtain ⟨hgrow, hfill, hloop⟩ := stages_within buffer hdeny hov hlt hw
        by_cases hneed : needs_blocks inode.data.length (offset + size)
        · refine Or.inr ⟨hneed, ?_⟩
          have hneed' := needs_blocks_iff.mp hneed
          obtain ⟨inode₁, s₁, hadd, hmap⟩ :=
            free_map_of_inode_write_at hdeny hlt hneed hrun
          have hlast : offset + size < 512 * MAX_BLOCKS := by
            by_contra hge
            refine add_blocks_past_max hr h (by omega) ?_ _ hadd
            rwa [min_eq_right (by omega)] at hroom
          have hslots : (grown_slots inode.data.length (offset + size)).length
              ≤ (free_sectors s).card := by
            rwa [min_eq_left (by omega)] at hroom
          have hcap : s'.capacity = s.capacity := by
            have := (free_map_of_add_blocks hr h hneed hlast.le hslots hadd).2.1
            simp only [FileSys.capacity, hmap]
            exact this
          have hboot := boot_not_mem hr h hsec hcap
          have hparents : ParentsLoaded inode.data.length := by
            by_contra hlost
            rw [grow, if_pos hneed] at hgrow
            exact hboot (parents_lost hr h hneed hlast hslots hlost hgrow)
          have hflush : FlushOk ((offset + size) / 512) (bytes_to_sectors (offset + size))
              ((offset + size) / 512 + 1) := by
            constructor <;> omega
          obtain ⟨d', s₂, hadd', hE⟩ := add_blocks_extends hr h hneed hlast hparents hflush hslots
          have hgrown := hE.grown hr h hneed hlast
          have hrun' : (grow s inode (offset + size)).result
              = .ok ({ inode with data := d' }, s₂) := by
            rw [grow_result, if_pos hneed]
            exact hadd'
          refine ⟨hlast, hslots, hparents, h122, h250, ?_, ?_⟩
          · intro hgap
            by_contra htail
            push Not at htail
            have hmem := fill_first (by rw [hE.header.length]; omega)
              (by rw [hE.header.length]; exact hgap) (hfill _ _ hrun')
            change mem_slot s₂ d' (.data (d'.length / 512)) ∈ _ at hmem
            rw [hE.header.length, hE.lost _ (by omega) htail.2] at hmem
            exact hboot hmem
          · intro k hk1 hk2
            by_contra hlost
            obtain ⟨disk₄, hF⟩ := hgrown.filled rfl
            have hmem := write_loop_blocks buffer (s := extended_fs s₂ inode d' (offset + size) disk₄)
              hgrown.max size size offset 0 IndexCache.fresh le_rfl le_rfl hF.onDisk
              (fun τ hτ hpos k _ hk => hF.apart τ hτ hpos k (by omega)) (CacheOk.fresh _ _ _)
              (hloop _ _ (extend_run hgrown hF hrun')) k (by omega) hk1 (by omega)
            have hkn : k < bytes_to_sectors (offset + size) := by omega
            rw [block, hF.slot (.data k) hkn, hE.disk (.data k) hkn, hE.lost k hk2 hlost] at hmem
            exact hboot hmem
        · refine Or.inl ⟨hneed, ?_⟩
          intro hgap
          by_contra htail
          have hneed' := mt needs_blocks_iff.mpr hneed
          rw [hB', Nat.not_lt] at hneed'
          have hmem := fill_first (s := s) (d := inode.data) (by omega) hgap
            (hfill inode s (by rw [grow_result, if_neg hneed]))
          have harray : mem_slot s inode.data (.data (inode.data.length / 512)) = FREE_MAP_SECTOR
              := by
            simp only [mem_slot, hr.arrays.indirect, hr.arrays.doubly]
            rw [if_neg htail, ite_self]
          have hgrown := h.grown hr
          rw [show inode.data.blocks = bytes_to_sectors (offset + size) by omega] at hgrown
          obtain ⟨-, disk', -, hrun', -⟩ := @Grown.write _ _ _ _ s _ _ buffer hgrown rfl hlt hdeny
            (by rw [if_neg hneed])
          obtain ⟨-, he⟩ := Prod.mk.inj (Except.ok.inj (hrun'.symm.trans hrun))
          obtain ⟨-, rfl⟩ := Prod.mk.inj he
          rw [harray] at hmem
          exact @boot_not_mem s { clear_arrays s with disk := disk' } _ hr h hsec rfl hmem
      · exact Or.inl (by omega)
    · exfalso
      rw [Filesys.inode_write_at, inode_write_at_with, if_neg (by simp [hdeny]),
        if_pos (by omega)] at hrun
      cases hrun
  · exact Or.inl hdeny

end Outside

/-! ## The theorem -/

/-- The write of the free map, which `add_blocks` makes for every sector it takes, keeps to the
sectors of the free map's inode. -/
theorem bitmap_write_within {s : FileSys} {f : Inode} (hok : FsOk s)
    (hf : s.free_map_file = some f) : Safe (inode_sectors s f) (bitmap_write .on s) := by
  have hfo := hok.file f hf
  have hcap := hok.disk.capacity
  have hlen : f.data.length = byte_cnt s.free_map.bit_cnt := hfo.length
  have hsz : byte_cnt s.free_map.bit_cnt < 2 ^ 31 := by
    have : s.free_map.bit_cnt ≤ 2 ^ 28 := hcap
    simp only [byte_cnt]
    omega
  obtain ⟨s', hrun, -⟩ := bitmap_write_spec hok hf
  refine ⟨⟨_, by rw [bitmap_write_on]; exact hrun⟩, ?_⟩
  unfold bitmap_write
  rw [hf]
  refine only_bind.mpr ⟨?_, fun _ _ => only_pure.mpr trivial⟩
  unfold DiskIo.inode_write_at
  rw [if_neg (by simp [hfo.writable]), if_neg (by omega), if_neg (by omega)]
  refine only_bind.mpr ⟨only_pure.mpr trivial, ?_⟩
  intro r hr
  obtain rfl := returns_pure.mp hr
  refine only_bind.mpr ⟨?_, fun _ _ => only_pure.mpr trivial⟩
  refine within_write_loop _ hfo.max _ _ 0 0 IndexCache.fresh s le_rfl (by omega)
    (hfo.map.onDisk hok.disk) ?_ (CacheOk.fresh _ _ _) ?_ ?_
  · intro τ hτ hpos k _ hk he
    have := hfo.map.inj τ (.data k) hpos (by
      simp only [Slot.pos, InodeDisk.blocks, bytes_to_sectors]
      omega) he
    subst this
    exact hτ
  · exact fun τ _ hpos => Or.inr ⟨τ, hpos, rfl⟩
  · intro k _ hk
    refine Or.inr ⟨.data k, ?_, rfl⟩
    simp only [Slot.pos, InodeDisk.blocks, bytes_to_sectors]
    omega

/-- An open file other than the free map's, in a file system between calls. -/
structure OpenFile (s : FileSys) (inode : Inode) : Prop where
  ready : Ready s
  file : FileOk s inode
  sector : inode.sector ≠ FREE_MAP_SECTOR

/-- The lengths of a write for which it does not depend on the old contents of a free sector
where the write goes: there are the sectors it takes, and the new end is not inside a block
whose pointer is not written back. -/
structure WriteDetermined (s : FileSys) (inode : Inode) (size offset : ℕ) : Prop where
  room : (slotsFrom (min ((offset + size) / 512) MAX_BLOCKS + 1 - inode.data.blocks)
    inode.data.blocks).length ≤ (free_sectors s).card
  indirect : ¬ (122 * 512 < offset + size ∧ offset + size < 123 * 512)
  doubly : ¬ (250 * 512 < offset + size ∧ offset + size < 251 * 512)

/-- **Reads and writes keep to the inode's sectors** when they fit. A read that does not fit
does not, if the unused index entries hold no sector of the file; a write that does not fit
does not either, if the old contents of free sectors do not decide where it goes. -/
theorem access_safe_iff {s : FileSys} {inode : Inode} (h : OpenFile s inode)
    (buffer : ℕ → UInt8) (size offset : ℕ) :
    (ReadFits inode size offset →
        Safe (inode_sectors s inode) (inode_read_at s inode size offset)) ∧
      (BehindApart s inode → Safe (inode_sectors s inode) (inode_read_at s inode size offset) →
        ReadFits inode size offset) ∧
      (WriteFits s inode size offset → WriteSafe s inode buffer size offset) ∧
      (WriteDetermined s inode size offset → WriteSafe s inode buffer size offset →
        WriteFits s inode size offset) ∧
      ∀ f, s.free_map_file = some f → Safe (inode_sectors s f) (bitmap_write .on s) := by
  have hon := h.file.map.onDisk h.ready.ok.disk
  refine ⟨?_, ?_, ?_, ?_, fun f hf => bitmap_write_within h.ready.ok hf⟩
  · exact read_loop_within hon h.file.max size size offset _ (CacheOk.fresh _ _ _)
  · exact fun hb => (inode_read_at_safe_iff hb hon h.file.max size offset).mp
  · intro hfits
    by_cases hdeny : inode.deny_write_cnt = 0
    · rcases hfits.resolve_left (not_not.mpr hdeny) with
        ⟨hov, hle | ⟨hneed, hgap⟩ | ⟨hneed, hext⟩⟩
      · exact write_within_file h.ready h.file buffer hdeny hov hle
      · by_cases hlt : inode.data.length < offset + size
        · exact write_within_block h.ready h.file buffer hdeny hlt hneed hgap
        · exact write_within_file h.ready h.file buffer hdeny hov (by omega)
      · exact write_past_blocks h.ready h.file buffer hdeny hneed hext
    · exact write_denied buffer hdeny
  · exact fun hd => write_fits_of_safe h.ready h.file h.sector buffer hd.room hd.indirect hd.doubly

/-- A file of one byte on the small disk: a read past the end of file, and a write of 1000 bytes
behind that byte, which adds a block. -/
theorem access_safe_small :
    Safe (inode_sectors small_fs (small_file 1)) (inode_read_at small_fs (small_file 1) 600 0) ∧
      needs_blocks 1 1001 ∧ WriteSafe small_fs (small_file 1) (fun _ => 7) 1000 1 := by
  have h : OpenFile small_fs (small_file 1) :=
    ⟨small_fs_ready, small_file_ok (by norm_num), by decide⟩
  have hneeds : needs_blocks 1 1001 := by decide
  have hgrows : ExtendFits small_fs 1 1000 1 :=
    ⟨by decide, by decide +kernel, fun hc => by omega, by decide, by decide,
      fun hgap => by omega, fun k _ hk => Or.inl ((show k < 1 from hk).trans (by norm_num))⟩
  exact ⟨(access_safe_iff h (fun _ => 7) 600 0).1 (Or.inr (Or.inr (Or.inl (by decide)))), hneeds,
    (access_safe_iff h (fun _ => 7) 1000 1).2.2.1
      (Or.inr ⟨by norm_num, Or.inr (Or.inr ⟨hneeds, hgrows⟩)⟩)⟩

/-- **A read far behind the end of file leaves the parents' array.** The block is looked up
before the end of file is tested: block 16634 of an empty file is looked up in
`index_parent_buffer[128]`. -/
theorem read_past_arrays : ¬ ∀ (s : FileSys) (inode : Inode) (buffer : ℕ → UInt8)
    (size offset : ℕ), OpenFile s inode → size < 2 ^ 31 → offset < 2 ^ 31 →
      Safe (inode_sectors s inode) (inode_read_at s inode size offset) ∧
        WriteSafe s inode buffer size offset := by
  intro hall
  obtain ⟨⟨⟨bytes, hrun⟩, -⟩, -⟩ := hall small_fs (small_file 0) (fun _ => 0) 1 (16634 * 512)
    ⟨small_fs_ready, small_file_ok (by norm_num), by decide⟩ (by norm_num) (by norm_num)
  have hbounds : Filesys.inode_read_at small_fs (small_file 0) 1 (16634 * 512)
      = .error .bounds := by
    decide +kernel
  rw [inode_read_at_result, hbounds] at hrun
  cases hrun

end Pintos.Filesys.DiskIo.Access
