/-
A write past the end of file, from every length.

`Growth` follows the writes that keep the whole file. Here the file may have lost blocks
behind an index entry the reload missed: such a block's entry is 0. What the later stages of
the call need is less than a well-formed map (`Grown`): lookups that stay on the disk, and
index sectors that are neither data sectors nor the inode's own. Then the call returns, the
map it leaves is the map `add_blocks` left, and each stage changes only the bytes it is about.
-/
import Pintos.Filesys.Growth

set_option autoImplicit false

namespace Pintos.Filesys

open Pintos.Kernel WordImage

/-- What the stages after `add_blocks` need of the file system `s`, where the inode has the
map `d` for `n` blocks and the arrays are those `fill_zeros` looks up. -/
structure Grown (s : FileSys) (inode : Inode) (d : InodeDisk) (n : ℕ) : Prop where
  capacity : s.capacity ≤ 2 ^ 28
  bits : ∀ i, s.free_map.bits i = true → i < s.capacity
  own : inode.sector < s.capacity
  max : n ≤ MAX_BLOCKS
  lt : ∀ σ : Slot, σ.pos < n → disk_slot s.disk d σ < s.capacity
  apart : ∀ τ : Slot, τ.IsIndex → τ.pos < n → disk_slot s.disk d τ ≠ inode.sector ∧
    ∀ k < n, disk_slot s.disk d τ ≠ block s.disk d k
  arrays_lt : ∀ k, d.length / 512 ≤ k → k < n → mem_slot s d (.data k) < s.capacity
  arrays_apart : ∀ k, d.length / 512 ≤ k → k < n → ∀ τ : Slot, τ.IsIndex → τ.pos < n →
    disk_slot s.disk d τ ≠ mem_slot s d (.data k)

section Stages

variable {s : FileSys} {inode : Inode} {d : InodeDisk} {n : ℕ}

/-- What is left of a write once `add_blocks` is through: `disk₄` is the disk `fill_zeros`
leaves and `disk'` the disk at the end. -/
structure Staged (s : FileSys) (inode : Inode) (d : InodeDisk) (n size offset : ℕ)
    (disk₄ disk' : ℕ → Sector) : Prop where
  slot : ∀ σ : Slot, σ.pos < n →
    disk_slot disk' { d with length := offset + size } σ = disk_slot s.disk d σ
  filled : ∀ y j, (∀ k, d.length / 512 ≤ k → k < n → y = mem_slot s d (.data k) →
    512 * k + j < d.length) → disk₄ y j = s.disk y j
  zero : (∀ k l, d.length / 512 ≤ k → k < l → l < n →
      mem_slot s d (.data k) ≠ mem_slot s d (.data l)) →
    ∀ p, d.length ≤ p → d.length + 2 ≤ offset → p / 512 ≤ (offset - 2) / 512 →
      disk₄ (mem_slot s d (.data (p / 512))) (p % 512) = 0
  written : ∀ y j, j < 512 → y ≠ inode.sector → (∀ k, y = block s.disk d k →
    ¬ (offset ≤ 512 * k + j ∧ 512 * k + j < offset + size)) → disk' y j = disk₄ y j

/-- The file system the write loop starts from, once `fill_zeros` has left `disk₄`. -/
def extended_fs (s : FileSys) (inode : Inode) (d : InodeDisk) (new_eof : ℕ)
    (disk₄ : ℕ → Sector) : FileSys :=
  { clear_arrays s with
    disk := Function.update disk₄ inode.sector (inode_image { d with length := new_eof }) }

/-- What `fill_zeros` leaves, and that the write of the inode behind it leaves every lookup
where it was. -/
structure Filled (s : FileSys) (inode : Inode) (d : InodeDisk) (n size offset : ℕ)
    (disk₄ : ℕ → Sector) : Prop where
  run : fill_zeros s d d.length offset = .ok { s with disk := disk₄ }
  same : ∀ y j, (∀ k, d.length / 512 ≤ k → k < n → y = mem_slot s d (.data k) →
    512 * k + j < d.length) → disk₄ y j = s.disk y j
  zero : (∀ k l, d.length / 512 ≤ k → k < l → l < n →
      mem_slot s d (.data k) ≠ mem_slot s d (.data l)) →
    ∀ p, d.length ≤ p → d.length + 2 ≤ offset → p / 512 ≤ (offset - 2) / 512 →
      disk₄ (mem_slot s d (.data (p / 512))) (p % 512) = 0
  slot : ∀ σ : Slot, σ.pos < n →
    disk_slot (extended_fs s inode d (offset + size) disk₄).disk
      { d with length := offset + size } σ = disk_slot s.disk d σ
  onDisk : OnDisk (extended_fs s inode d (offset + size) disk₄)
    { d with length := offset + size } n
  apart : ∀ τ : Slot, τ.IsIndex → τ.pos < n → ∀ k < n,
    disk_slot (extended_fs s inode d (offset + size) disk₄).disk
        { d with length := offset + size } τ
      ≠ block (extended_fs s inode d (offset + size) disk₄).disk
        { d with length := offset + size } k

/-- **After `add_blocks`** `fill_zeros` returns and keeps the index sectors. -/
theorem Grown.filled {size offset : ℕ} (h : Grown s inode d n)
    (hn : n = bytes_to_sectors (offset + size)) :
    ∃ disk₄, Filled s inode d n size offset disk₄ := by
  have hM : MAX_BLOCKS = 16634 := rfl
  have hN : bytes_to_sectors (offset + size) = (offset + size + 511) / 512 := rfl
  have hmax := h.max
  have hd : DiskOk s := ⟨h.capacity, h.bits⟩
  obtain ⟨disk₄, hfill, hsame, hzero⟩ := fill_zeros_loop_spec (d := d) (n := n) hmax
    (offset - d.length - 1) d.length (offset - d.length - 1) s le_rfl hd (by omega) h.arrays_lt
  -- the two stages before the write loop leave the index sectors alone
  have hindex : ∀ τ : Slot, τ.IsIndex → τ.pos < n →
      (extended_fs s inode d (offset + size) disk₄).disk (disk_slot s.disk d τ)
        = s.disk (disk_slot s.disk d τ) := by
    intro τ hτ hpos
    rw [extended_fs]
    change Function.update disk₄ inode.sector _ _ = _
    rw [Function.update_of_ne (h.apart τ hτ hpos).1]
    funext j
    refine hsame _ _ ?_
    intro k hk hkn he
    exact absurd he (h.arrays_apart k hk hkn τ hτ hpos)
  have hslot : ∀ σ : Slot, σ.pos < n →
      disk_slot (extended_fs s inode d (offset + size) disk₄).disk
        { d with length := offset + size } σ = disk_slot s.disk d σ := by
    intro σ hσ
    rw [disk_slot_length]
    exact disk_slot_congr hindex hσ
  refine ⟨disk₄, hfill, hsame, ?_, hslot, ⟨h.capacity, ?_⟩, ?_⟩
  · intro hinj p hp hgap hpl
    refine hzero hinj p hp (by omega) ?_
    have hend : d.length + (offset - d.length - 1) - 1 = offset - 2 := by omega
    rw [hend]
    exact hpl
  · intro σ hσ
    rw [hslot σ hσ]
    exact h.lt σ hσ
  · intro τ hτ hpos k hk
    rw [hslot τ hpos, block, hslot (.data k) hk]
    exact (h.apart τ hτ hpos).2 k hk

/-- **After `add_blocks`** a write past the end of file returns, whatever blocks were lost. -/
theorem Grown.write {s₀ : FileSys} {size offset : ℕ} (buffer : ℕ → UInt8)
    (h : Grown s inode d n) (hn : n = bytes_to_sectors (offset + size))
    (hlt : inode.data.length < offset + size)
    (hdeny : inode.deny_write_cnt = 0)
    (hgrow : (if needs_blocks inode.data.length (offset + size)
        then add_blocks s₀ inode (offset + size) else .ok (inode, s₀))
      = .ok ({ inode with data := d }, s)) :
    ∃ disk₄ disk', fill_zeros s d d.length offset = .ok { s with disk := disk₄ } ∧
      inode_write_at s₀ inode buffer size offset
        = .ok (size, { inode with data := { d with length := offset + size } },
            { clear_arrays s with disk := disk' }) ∧
      Staged s inode d n size offset disk₄ disk' := by
  have hM : MAX_BLOCKS = 16634 := rfl
  have hN : bytes_to_sectors (offset + size) = (offset + size + 511) / 512 := rfl
  have hmax := h.max
  obtain ⟨disk₄, hF⟩ := h.filled hn
  set inode' : Inode := { inode with data := { d with length := offset + size } } with hinode'
  have hblocks : inode'.data.blocks = n := hn.symm
  set s₅ : FileSys := extended_fs s inode d (offset + size) disk₄ with hs₅
  have hbound : ∀ k, 512 * k < offset + size → k < n := by
    intro k hk
    omega
  have hap : ∀ τ : Slot, τ.IsIndex → τ.pos < inode'.data.blocks → ∀ k, offset / 512 ≤ k →
      512 * k < offset + size →
      disk_slot s₅.disk inode'.data τ ≠ block s₅.disk inode'.data k := fun τ hτ hpos k _ hk =>
    hF.apart τ hτ (by rwa [← hblocks]) k (hbound k hk)
  obtain ⟨disk', hloop, hsector, hframe⟩ := @write_loop_frame inode' buffer
    (by rw [hblocks]; exact hmax) size size offset 0 IndexCache.fresh s₅ le_rfl le_rfl
    (by rw [hblocks]; exact hF.onDisk) hap (CacheOk.fresh _ _ _)
  have hframe' : ∀ y j, j < 512 → (∀ k, y = block s.disk d k →
      ¬ (offset ≤ 512 * k + j ∧ 512 * k + j < offset + size)) → disk' y j = s₅.disk y j := by
    intro y j hj hy
    refine hframe y j hj ?_
    intro k hk hin
    have hk' : y = disk_slot s₅.disk inode'.data (.data k) := hk
    rw [hF.slot (.data k) (hbound k (by omega))] at hk'
    exact hy k hk' hin
  refine ⟨disk₄, disk', hF.run, ?_, ?_, hF.same, hF.zero, ?_⟩
  · have hext : extend_with add_blocks s₀ inode size offset = .ok (inode', s₅) := by
      rw [extend_with, hgrow, ok_bind]
      simp only [hF.run, ok_bind]
      rw [disk_write_eq (s := clear_arrays { s with disk := disk₄ }) _ h.own h.capacity]
      rfl
    rw [inode_write_at, inode_write_at_with, if_neg (by simp [hdeny]), if_neg (by omega),
      if_pos hlt, hext, ok_bind, hloop, ok_bind, Nat.zero_add, pure_eq_ok]
    rfl
  · intro σ hσ
    rw [← hF.slot σ hσ]
    refine disk_slot_congr (n := n) ?_ hσ
    intro τ hτ hpos
    refine hsector _ ?_
    intro k hk1 hk2
    exact hap τ hτ (by rwa [hblocks]) k hk1 hk2
  · intro y j hj hy hout
    rw [hframe' y j hj hout, hs₅, extended_fs]
    change Function.update disk₄ inode.sector _ y j = _
    rw [Function.update_of_ne hy]

end Stages

/-! ## What `add_blocks` leaves -/

section Leaves

variable {s s' : FileSys} {inode : Inode} {d' : InodeDisk} {new_eof m : ℕ}

/-- A slot of the grown map holds what it held, or was lost, or is new. -/
theorem Extended.slot_cases (h : Extended s s' inode.data d' new_eof m)
    (hneed : needs_blocks inode.data.length new_eof) {σ : Slot} (hσ : σ.pos ≤ new_eof / 512) :
    (σ.pos < inode.data.blocks ∧ mem_slot s' d' σ = disk_slot s.disk inode.data σ) ∨
      (∃ k < inode.data.blocks, σ = .data k ∧ ¬ Loaded inode.data.length k ∧
        mem_slot s' d' σ = FREE_MAP_SECTOR) ∨
      (inode.data.blocks ≤ σ.pos ∧ σ ∈ grown_slots inode.data.length new_eof) := by
  have hneed' : 512 * inode.data.blocks < new_eof := needs_blocks_iff.mp hneed
  by_cases hb : σ.pos < inode.data.blocks
  · cases σ with
    | data k =>
      by_cases hload : Loaded inode.data.length k
      · exact Or.inl ⟨hb, h.kept k hb hload⟩
      · exact Or.inr (Or.inl ⟨k, hb, rfl, hload, h.lost k hb hload⟩)
    | indirect => exact Or.inl ⟨hb, h.index .indirect trivial hb⟩
    | doubly => exact Or.inl ⟨hb, h.index .doubly trivial hb⟩
    | parent j => exact Or.inl ⟨hb, h.index (.parent j) trivial hb⟩
  · refine Or.inr (Or.inr ⟨Nat.not_lt.mp hb, ?_⟩)
    have hB : bytes_to_sectors inode.data.length = inode.data.blocks := rfl
    rw [mem_grown_slots (by omega), hB]
    exact ⟨Nat.not_lt.mp hb, hσ⟩

/-- A new slot holds no sector that was in use. -/
theorem Extended.ne_used (h : Extended s s' inode.data d' new_eof m) {σ : Slot}
    (hσ : σ ∈ grown_slots inode.data.length new_eof) {x : ℕ} (hx : s.free_map.bits x = true) :
    mem_slot s' d' σ ≠ x := by
  intro he
  have := h.fresh σ hσ
  rw [he, hx] at this
  cases this

/-- The sectors in the arrays are on the disk. -/
theorem Extended.mem_lt (hr : Ready s) (hf : FileOk s inode)
    (hneed : needs_blocks inode.data.length new_eof)
    (h : Extended s s' inode.data d' new_eof m) {σ : Slot} (hσ : σ.pos ≤ new_eof / 512) :
    mem_slot s' d' σ < s'.capacity := by
  apply h.ok.disk.bits
  rcases h.slot_cases hneed hσ with ⟨hb, he⟩ | ⟨k, -, -, -, he⟩ | ⟨-, hmem⟩
  · rw [he]
    exact (h.bits _).mpr (Or.inl (hf.map.used σ hb))
  · rw [he]
    exact (h.bits _).mpr (Or.inl hr.boot)
  · exact (h.bits _).mpr (Or.inr ⟨σ, hmem, rfl⟩)

/-- No index sector is a data sector, lost blocks included. -/
theorem Extended.mem_cross (hr : Ready s) (hf : FileOk s inode)
    (hneed : needs_blocks inode.data.length new_eof)
    (h : Extended s s' inode.data d' new_eof m) {τ : Slot} (hτ : τ.IsIndex)
    (hpos : τ.pos ≤ new_eof / 512) {k : ℕ} (hk : k ≤ new_eof / 512) :
    mem_slot s' d' τ ≠ mem_slot s' d' (.data k) := by
  intro he
  rcases h.slot_cases hneed hpos with ⟨hb, h1⟩ | ⟨l, -, rfl, -, -⟩ | ⟨hb, h1⟩
  · rcases h.slot_cases hneed (σ := .data k) hk with ⟨hb', h2⟩ | ⟨l, -, -, -, h2⟩ | ⟨-, h2⟩
    · rw [h1, h2] at he
      have := hf.map.inj τ (.data k) hb hb' he
      subst this
      exact hτ
    · rw [h1, h2] at he
      exact hf.boot τ hb he
    · exact h.ne_used h2 (hf.map.used τ hb) (he.symm.trans h1)
  · exact hτ
  · rcases h.slot_cases hneed (σ := .data k) hk with ⟨hb', h2⟩ | ⟨l, -, -, -, h2⟩ | ⟨-, h2⟩
    · exact h.ne_used h1 (hf.map.used (.data k) hb') (he.trans h2)
    · exact h.ne_used h1 hr.boot (he.trans h2)
    · have := h.inj τ h1 (.data k) h2 he
      subst this
      exact hτ

/-- No index sector is the inode's own. -/
theorem Extended.mem_own (hf : FileOk s inode) (hneed : needs_blocks inode.data.length new_eof)
    (h : Extended s s' inode.data d' new_eof m) {τ : Slot} (hτ : τ.IsIndex)
    (hpos : τ.pos ≤ new_eof / 512) : mem_slot s' d' τ ≠ inode.sector := by
  rcases h.slot_cases hneed hpos with ⟨hb, h1⟩ | ⟨l, -, rfl, -, -⟩ | ⟨hb, h1⟩
  · rw [h1]
    exact hf.own τ hb
  · exact absurd hτ id
  · exact h.ne_used h1 hf.used

/-- **After `add_blocks`** the later stages have what they need. -/
theorem Extended.grown (hr : Ready s) (hf : FileOk s inode)
    (hneed : needs_blocks inode.data.length new_eof) (hmax : new_eof < 512 * MAX_BLOCKS)
    (h : Extended s s' inode.data d' new_eof (bytes_to_sectors new_eof)) :
    Grown s' inode d' (bytes_to_sectors new_eof) := by
  have hM : MAX_BLOCKS = 16634 := rfl
  have hN : bytes_to_sectors new_eof = (new_eof + 511) / 512 := rfl
  have hle : ∀ i, i < bytes_to_sectors new_eof → i ≤ new_eof / 512 := by
    intro i hi
    omega
  constructor
  · exact h.ok.disk.capacity
  · exact h.ok.disk.bits
  · exact h.ok.disk.bits _ ((h.bits _).mpr (Or.inl hf.used))
  · omega
  · intro σ hσ
    rw [h.disk σ hσ]
    exact h.mem_lt hr hf hneed (hle _ hσ)
  · intro τ hτ hpos
    rw [h.disk τ hpos]
    refine ⟨h.mem_own hf hneed hτ (hle _ hpos), ?_⟩
    intro k hk
    rw [block, h.disk (.data k) hk]
    exact h.mem_cross hr hf hneed hτ (hle _ hpos) (hle _ hk)
  · exact fun k _ hk => h.mem_lt hr hf hneed (σ := .data k) (hle _ hk)
  · intro k _ hk τ hτ hpos
    rw [h.disk τ hpos]
    exact h.mem_cross hr hf hneed hτ (hle _ hpos) (hle _ hk)

/-- **Within the last block** nothing is added, and the later stages have what they need: past
the direct blocks the cleared arrays point to sector 0. -/
theorem FileOk.grown (hr : Ready s) (hf : FileOk s inode) :
    Grown s inode inode.data inode.data.blocks := by
  have harr : ∀ k, mem_slot s inode.data (.data k) = block s.disk inode.data k ∨
      mem_slot s inode.data (.data k) = FREE_MAP_SECTOR := by
    intro k
    simp only [mem_slot, hr.arrays.indirect, hr.arrays.doubly]
    by_cases hk : k < 122
    · rw [if_pos hk, block_direct _ _ hk]
      exact Or.inl rfl
    · rw [if_neg hk, ite_self]
      exact Or.inr rfl
  have hcross : ∀ τ : Slot, τ.IsIndex → τ.pos < inode.data.blocks → ∀ k < inode.data.blocks,
      disk_slot s.disk inode.data τ ≠ block s.disk inode.data k := by
    intro τ hτ hpos k hk he
    have := hf.map.inj τ (.data k) hpos hk he
    subst this
    exact hτ
  refine ⟨hr.ok.disk.capacity, hr.ok.disk.bits, hr.ok.disk.bits _ hf.used, hf.max,
    fun σ hσ => hf.map.lt hr.ok.disk hσ, fun τ hτ hpos => ⟨hf.own τ hpos, hcross τ hτ hpos⟩,
    ?_, ?_⟩
  · intro k _ hk
    rcases harr k with he | he
    · rw [he]
      exact hf.map.lt hr.ok.disk (σ := .data k) hk
    · rw [he]
      exact hr.ok.disk.bits _ hr.boot
  · intro k _ hk τ hτ hpos
    rcases harr k with he | he
    · rw [he]
      exact hcross τ hτ hpos k hk
    · rw [he]
      exact hf.boot τ hpos

end Leaves

end Pintos.Filesys
