/-
How many sectors a growth takes.

`add_blocks` asks for `new_eof/512 - old_eof/512 + round_down` blocks from the old last block
on, so the last one it takes is block `new_eof/512`. That is the last block of the new file
unless `new_eof` is a multiple of 512: then it lies behind the end, and no length the file
has ever reaches it. What else can go wrong is that a block is counted right but its pointer
is not written back.
-/
import Pintos.Filesys.Extension
import Pintos.Filesys.FileArray

set_option autoImplicit false

namespace Pintos.Filesys

open Pintos.Kernel WordImage

/-! ## Counting slots -/

/-- The index sectors of a file of `n` blocks: the indirect block, the doubly indirect block
and one child for each 128 blocks behind it. -/
def index_sectors (n : ℕ) : ℕ :=
  (if 122 < n then 1 else 0) + (if 250 < n then 1 + (n - 250 + 127) / 128 else 0)

/-- The sectors a file of `new_eof` bytes has and one of `old_eof` bytes has not. -/
def new_sectors (old_eof new_eof : ℕ) : ℕ :=
  (bytes_to_sectors new_eof - bytes_to_sectors old_eof) +
    (index_sectors (bytes_to_sectors new_eof) - index_sectors (bytes_to_sectors old_eof))

/-- One block more takes a sector for each of its slots. -/
theorem length_slotsOf (i : ℕ) : (slotsOf i).length + index_sectors i = 1 + index_sectors (i + 1) := by
  simp only [slotsOf, index_sectors]
  by_cases h1 : i = 122
  · subst h1
    rfl
  · rw [if_neg h1]
    by_cases h2 : i = 250
    · subst h2
      rfl
    · rw [if_neg h2]
      by_cases h3 : 250 < i ∧ (i - 250) % 128 = 0
      · rw [if_pos h3]
        simp only [List.length_cons, List.length_nil]
        split_ifs <;> omega
      · rw [if_neg h3]
        simp only [List.length_cons, List.length_nil]
        split_ifs <;> omega

theorem length_slotsFrom : ∀ cnt i : ℕ,
    (slotsFrom cnt i).length + index_sectors i = cnt + index_sectors (i + cnt) := by
  intro cnt
  induction cnt with
  | zero =>
    intro i
    rfl
  | succ cnt ih =>
    intro i
    have hone := length_slotsOf i
    have hrest := ih (i + 1)
    rw [show i + 1 + cnt = i + (cnt + 1) by omega] at hrest
    rw [slotsFrom, List.length_append]
    omega

theorem index_sectors_mono {m n : ℕ} (h : m ≤ n) : index_sectors m ≤ index_sectors n := by
  simp only [index_sectors]
  split_ifs <;> omega

/-- **A growth takes what the new length needs** when that length ends inside a block. -/
theorem length_grown_slots {old_eof new_eof : ℕ} (hneed : needs_blocks old_eof new_eof)
    (hmod : new_eof % 512 ≠ 0) :
    (grown_slots old_eof new_eof).length = new_sectors old_eof new_eof := by
  have hneed' := needs_blocks_iff.mp hneed
  have hN : bytes_to_sectors new_eof = new_eof / 512 + 1 := by
    simp only [bytes_to_sectors]
    omega
  have hlen := length_slotsFrom (new_eof / 512 + 1 - bytes_to_sectors old_eof)
    (bytes_to_sectors old_eof)
  rw [show bytes_to_sectors old_eof + (new_eof / 512 + 1 - bytes_to_sectors old_eof)
    = new_eof / 512 + 1 by omega] at hlen
  have hmono := index_sectors_mono (show bytes_to_sectors old_eof ≤ new_eof / 512 + 1 by omega)
  rw [grown_slots, new_sectors, hN]
  omega

/-- It takes more when the new length is a multiple of 512. -/
theorem length_grown_slots_aligned {old_eof new_eof : ℕ} (hneed : needs_blocks old_eof new_eof)
    (hmod : new_eof % 512 = 0) :
    new_sectors old_eof new_eof < (grown_slots old_eof new_eof).length := by
  have hneed' := needs_blocks_iff.mp hneed
  have hN : bytes_to_sectors new_eof = new_eof / 512 := by
    simp only [bytes_to_sectors]
    omega
  have hlen := length_slotsFrom (new_eof / 512 + 1 - bytes_to_sectors old_eof)
    (bytes_to_sectors old_eof)
  rw [show bytes_to_sectors old_eof + (new_eof / 512 + 1 - bytes_to_sectors old_eof)
    = new_eof / 512 + 1 by omega] at hlen
  have hmono := index_sectors_mono (show bytes_to_sectors old_eof ≤ new_eof / 512 by omega)
  have hlast := index_sectors_mono (show new_eof / 512 ≤ new_eof / 512 + 1 by omega)
  rw [grown_slots, new_sectors, hN]
  omega

/-! ## The sectors a call marks -/

/-- The sectors that were free in `s` and are not in `s'`. -/
def newly_marked (s s' : FileSys) : Finset ℕ := free_sectors s \ free_sectors s'

/-- A write that extends the file, with the sectors it takes free. -/
structure GrowCall (s : FileSys) (inode : Inode) (size offset : ℕ) : Prop where
  ready : Ready s
  file : FileOk s inode
  writable : inode.deny_write_cnt = 0
  extends_file : inode.data.length < offset + size
  max : offset + size ≤ 512 * MAX_BLOCKS
  room : needs_blocks inode.data.length (offset + size) →
    (grown_slots inode.data.length (offset + size)).length ≤ (free_sectors s).card

/-- The call succeeds, marks as many sectors as the new length needs and the old one did not,
and each of them is a sector of the file. -/
def GrowsExactly (s : FileSys) (inode : Inode) (buffer : ℕ → UInt8) (size offset : ℕ) : Prop :=
  ∃ inode' s', inode_write_at s inode buffer size offset = .ok (size, inode', s') ∧
    inode'.data.length = offset + size ∧
    (newly_marked s s').card = new_sectors inode.data.length (offset + size) ∧
    ∀ x ∈ newly_marked s s', ∃ σ : Slot, σ.pos < inode'.data.blocks ∧
      disk_slot s'.disk inode'.data σ = x

/-- The lengths between which a growth comes out right: the new one ends inside a block, and
neither in block 122 nor in block 250, which the write-back does not reach; the old one is
not inside block 250, whose parents the reload does not read. -/
def GrowthFits (old_eof new_eof : ℕ) : Prop :=
  needs_blocks old_eof new_eof →
    new_eof % 512 ≠ 0 ∧ new_eof / 512 ≠ 122 ∧ new_eof / 512 ≠ 250 ∧ ParentsLoaded old_eof

section Marked

variable {s s' : FileSys} {l : List Slot} {f : Slot → ℕ}

/-- The free map loses as many sectors as were marked. -/
theorem card_newly_marked (hcap : s'.capacity = s.capacity)
    (hbits : ∀ i, s.free_map.bits i = true → s'.free_map.bits i = true) :
    (newly_marked s s').card + (free_sectors s').card = (free_sectors s).card := by
  have hsub : free_sectors s' ⊆ free_sectors s := by
    intro i hi
    rw [mem_free_sectors] at hi ⊢
    refine ⟨by rw [← hcap]; exact hi.1, ?_⟩
    cases hb : s.free_map.bits i with
    | false => rfl
    | true =>
      rw [hbits i hb] at hi
      exact absurd hi.2 (by decide)
  rw [newly_marked, Finset.card_sdiff_add_card_eq_card hsub]

theorem mem_newly_marked (hcap : s'.capacity = s.capacity) {i : ℕ} :
    i ∈ newly_marked s s' ↔
      i < s.capacity ∧ s.free_map.bits i = false ∧ s'.free_map.bits i = true := by
  rw [newly_marked, Finset.mem_sdiff, mem_free_sectors, mem_free_sectors, hcap]
  constructor
  · rintro ⟨⟨h1, h2⟩, h3⟩
    refine ⟨h1, h2, ?_⟩
    cases hb : s'.free_map.bits i with
    | false => exact absurd ⟨h1, hb⟩ h3
    | true => rfl
  · rintro ⟨h1, h2, h3⟩
    refine ⟨⟨h1, h2⟩, ?_⟩
    rintro ⟨-, h4⟩
    rw [h3] at h4
    cases h4

end Marked

section Call

variable {s : FileSys} {inode : Inode} {size offset : ℕ}

/-- A write within the last block marks nothing. -/
theorem GrowCall.within (h : GrowCall s inode size offset) (buffer : ℕ → UInt8)
    (hneed : ¬ needs_blocks inode.data.length (offset + size)) :
    GrowsExactly s inode buffer size offset := by
  have hblocks : inode.data.blocks = bytes_to_sectors (offset + size) := by
    have hneed' := mt needs_blocks_iff.mpr hneed
    have hlt := h.extends_file
    simp only [InodeDisk.blocks, bytes_to_sectors] at hneed' ⊢
    omega
  have hgrown := h.file.grown h.ready
  rw [hblocks] at hgrown
  obtain ⟨disk₄, disk', -, hrun, -⟩ := @Grown.write _ _ _ _ s _ _ buffer hgrown rfl
    h.extends_file
    h.writable (by rw [if_neg hneed])
  have hnone : newly_marked s { clear_arrays s with disk := disk' } = ∅ := by
    rw [newly_marked]
    exact Finset.sdiff_self _
  refine ⟨_, _, hrun, rfl, ?_, ?_⟩
  · have hB : bytes_to_sectors inode.data.length = inode.data.blocks := rfl
    rw [hnone, new_sectors, hB, hblocks]
    simp
  · intro x hx
    rw [hnone] at hx
    cases hx

/-- A write past the last block, between lengths that fit. -/
theorem GrowCall.past (h : GrowCall s inode size offset) (buffer : ℕ → UInt8)
    (hneed : needs_blocks inode.data.length (offset + size))
    (hfits : GrowthFits inode.data.length (offset + size)) :
    GrowsExactly s inode buffer size offset := by
  obtain ⟨hmod, h122, h250, hparents⟩ := hfits hneed
  have hM : MAX_BLOCKS = 16634 := rfl
  have hmax := h.max
  have hneed' := needs_blocks_iff.mp hneed
  have hN : bytes_to_sectors (offset + size) = (offset + size) / 512 + 1 := by
    simp only [bytes_to_sectors]
    omega
  have hlt : offset + size < 512 * MAX_BLOCKS := by omega
  have hflush : FlushOk ((offset + size) / 512) (bytes_to_sectors (offset + size))
      ((offset + size) / 512 + 1) := by
    rw [hN]
    constructor <;> omega
  obtain ⟨d', s₁, hadd, hE⟩ := add_blocks_extends h.ready h.file hneed hlt hparents hflush
    (h.room hneed)
  have hgrown := hE.grown h.ready h.file hneed hlt
  obtain ⟨disk₄, disk', -, hrun, hstaged⟩ := hgrown.write buffer rfl h.extends_file
    h.writable (by rw [if_pos hneed]; exact hadd)
  -- neither the later stages nor the arrays touch the free map
  set s' : FileSys := { clear_arrays s₁ with disk := disk' } with hs'
  have hcap : s'.capacity = s.capacity := hE.capacity
  refine ⟨_, _, hrun, rfl, ?_, ?_⟩
  · have hcard := @card_newly_marked _ s' hcap (fun i hi => (hE.bits i).mpr (Or.inl hi))
    have hfree := hE.free
    have hsame : free_sectors s' = free_sectors s₁ := rfl
    rw [← length_grown_slots hneed hmod]
    rw [hsame] at hcard
    omega
  · intro x hx
    obtain ⟨-, hfree, hmarked⟩ := (mem_newly_marked hcap).mp hx
    rcases (hE.bits x).mp hmarked with hused | ⟨σ, hσ, he⟩
    · rw [hfree] at hused
      cases hused
    · have hpos : σ.pos < bytes_to_sectors (offset + size) := by
        have hB : bytes_to_sectors inode.data.length ≤ (offset + size) / 512 + 1 := by omega
        have := (mem_grown_slots hB).mp hσ
        omega
      refine ⟨σ, hpos, ?_⟩
      rw [hstaged.slot σ hpos, hE.disk σ hpos, he]

end Call

/-! ## A new length that is a multiple of 512 -/

section DiskFrame

variable {s s' : FileSys} {d : InodeDisk} {inode : Inode}

/-- `s'` is `s` with another disk. -/
def OnlyDisk (s s' : FileSys) : Prop := s' = { s with disk := s'.disk }

theorem OnlyDisk.refl (s : FileSys) : OnlyDisk s s := rfl

theorem OnlyDisk.trans {s₁ s₂ s₃ : FileSys} (h₁ : OnlyDisk s₁ s₂) (h₂ : OnlyDisk s₂ s₃) :
    OnlyDisk s₁ s₃ := by
  rw [OnlyDisk] at h₁ h₂ ⊢
  rw [h₂, h₁]

theorem OnlyDisk.free_map (h : OnlyDisk s s') : s'.free_map = s.free_map := by
  rw [OnlyDisk] at h
  rw [h]

/-- The arrays are not on the disk. -/
theorem OnlyDisk.mem_slot (h : OnlyDisk s s') (σ : Slot) : mem_slot s' d σ = mem_slot s d σ := by
  rw [OnlyDisk] at h
  rw [h]
  cases σ <;> rfl

theorem onlyDisk_disk_write {n : ℕ} {b : Sector} (h : disk_write s n b = .ok s') :
    OnlyDisk s s' := by
  obtain ⟨-, -, hret⟩ := bind_eq_ok h
  rw [← Except.ok.inj hret]
  rfl

theorem onlyDisk_write_children : ∀ (cnt i : ℕ) (s : FileSys),
    write_children cnt i s = .ok s' → OnlyDisk s s' := by
  intro cnt
  induction cnt with
  | zero =>
    intro i s h
    rw [← Except.ok.inj h]
    exact OnlyDisk.refl s
  | succ cnt ih =>
    intro i s h
    rw [write_children] at h
    by_cases hi : 128 ≤ i
    · rw [if_pos hi] at h
      cases h
    · rw [if_neg hi] at h
      obtain ⟨s₁, hw, hrest⟩ := bind_eq_ok h
      exact (onlyDisk_disk_write hw).trans (ih _ _ hrest)

theorem onlyDisk_write_index {n : ℕ} (h : write_index s d n = .ok s') : OnlyDisk s s' := by
  obtain ⟨s₁, hfirst, hrest⟩ := bind_eq_ok h
  have hone : OnlyDisk s s₁ := by
    by_cases hn : DIRECT_LEN < n
    · rw [if_pos hn] at hfirst
      exact onlyDisk_disk_write hfirst
    · rw [if_neg hn] at hfirst
      rw [← Except.ok.inj hfirst]
      exact OnlyDisk.refl s
  by_cases hn : DIRECT_LEN + 128 < n
  · rw [if_pos hn] at hrest
    obtain ⟨s₂, h2, hrest⟩ := bind_eq_ok hrest
    obtain ⟨s₃, h3, hrest⟩ := bind_eq_ok hrest
    exact hone.trans ((onlyDisk_disk_write h2).trans
      ((onlyDisk_disk_write h3).trans (onlyDisk_write_children _ _ _ hrest)))
  · rw [if_neg hn] at hrest
    rw [← Except.ok.inj hrest]
    exact hone

theorem onlyDisk_fill_zeros : ∀ (fuel old_eof size : ℕ) (s : FileSys),
    fill_zeros_loop d fuel old_eof size s = .ok s' → OnlyDisk s s' := by
  intro fuel
  induction fuel with
  | zero =>
    intro old_eof size s h
    rw [← Except.ok.inj h]
    exact OnlyDisk.refl s
  | succ fuel ih =>
    intro old_eof size s h
    rw [fill_zeros_loop] at h
    by_cases hsize : size = 0
    · rw [if_pos hsize] at h
      rw [← Except.ok.inj h]
      exact OnlyDisk.refl s
    · rw [if_neg hsize] at h
      obtain ⟨sector_idx, -, h⟩ := bind_eq_ok h
      obtain ⟨s₁, hzero, hrest⟩ := bind_eq_ok h
      refine OnlyDisk.trans ?_ (ih _ _ _ hrest)
      rw [zero_tail] at hzero
      by_cases hofs : old_eof % 512 = 0
      · rw [if_pos hofs] at hzero
        exact onlyDisk_disk_write hzero
      · rw [if_neg hofs] at hzero
        obtain ⟨b, -, hzero⟩ := bind_eq_ok hzero
        exact onlyDisk_disk_write hzero

theorem onlyDisk_write_loop {buffer : ℕ → UInt8} {w : ℕ} :
    ∀ (fuel size offset bytes_written : ℕ) (c : IndexCache) (s : FileSys),
    write_loop inode buffer fuel size offset bytes_written c s = .ok (w, s') →
      OnlyDisk s s' := by
  intro fuel
  induction fuel with
  | zero =>
    intro size offset bytes_written c s h
    rw [← (Prod.mk.inj (Except.ok.inj h)).2]
    exact OnlyDisk.refl s
  | succ fuel ih =>
    intro size offset bytes_written c s h
    rw [write_loop] at h
    by_cases hsize : size = 0
    · rw [if_pos hsize] at h
      rw [← (Prod.mk.inj (Except.ok.inj h)).2]
      exact OnlyDisk.refl s
    · rw [if_neg hsize] at h
      obtain ⟨r, -, h⟩ := bind_eq_ok h
      by_cases hn : chunk_size inode.data size offset = 0
      · rw [if_pos hn] at h
        rw [← (Prod.mk.inj (Except.ok.inj h)).2]
        exact OnlyDisk.refl s
      · rw [if_neg hn] at h
        obtain ⟨s₁, hchunk, hrest⟩ := bind_eq_ok h
        refine OnlyDisk.trans ?_ (ih _ _ _ _ _ hrest)
        rw [write_chunk] at hchunk
        by_cases hfull : offset % 512 = 0 ∧ chunk_size inode.data size offset = 512
        · rw [if_pos hfull] at hchunk
          exact onlyDisk_disk_write hchunk
        · rw [if_neg hfull] at hchunk
          obtain ⟨old, -, hchunk⟩ := bind_eq_ok hchunk
          exact onlyDisk_disk_write hchunk

/-- Only the function that adds blocks changes the free map. -/
theorem free_map_of_extend_with {grow : FileSys → Inode → ℕ → Res (Inode × FileSys)}
    {inode' : Inode} {size offset : ℕ}
    (h : extend_with grow s inode size offset = .ok (inode', s')) :
    (¬ needs_blocks inode.data.length (offset + size) → s'.free_map = s.free_map) ∧
      (needs_blocks inode.data.length (offset + size) → ∃ inode₁ s₁,
        grow s inode (offset + size) = .ok (inode₁, s₁) ∧ s'.free_map = s₁.free_map) := by
  obtain ⟨⟨inode₁, s₁⟩, hadd, h⟩ := bind_eq_ok h
  obtain ⟨s₂, hfill, h⟩ := bind_eq_ok h
  obtain ⟨s₃, hwrite, h⟩ := bind_eq_ok h
  obtain ⟨-, rfl⟩ := Prod.mk.inj (Except.ok.inj h)
  have hfill' : OnlyDisk s₁ s₂ := onlyDisk_fill_zeros _ _ _ _ hfill
  have hwrite' : OnlyDisk (clear_arrays s₂) s₃ := onlyDisk_disk_write hwrite
  have hmap : s₃.free_map = s₁.free_map := by
    rw [hwrite'.free_map, ← hfill'.free_map]
    rfl
  refine ⟨fun hneed => ?_, fun hneed => ⟨inode₁, s₁, ?_, hmap⟩⟩
  · rw [if_neg hneed] at hadd
    obtain ⟨-, rfl⟩ := Prod.mk.inj (Except.ok.inj hadd)
    exact hmap
  · rwa [if_pos hneed] at hadd

/-- The write adds blocks to the file. -/
def AddsBlocks (inode : Inode) (size offset : ℕ) : Prop :=
  inode.deny_write_cnt = 0 ∧ inode.data.length < offset + size ∧
    needs_blocks inode.data.length (offset + size)

theorem free_map_of_inode_write_at_with {grow : FileSys → Inode → ℕ → Res (Inode × FileSys)}
    {inode' : Inode} {buffer : ℕ → UInt8} {size offset w : ℕ}
    (h : inode_write_at_with grow s inode buffer size offset = .ok (w, inode', s')) :
    (¬ AddsBlocks inode size offset → s'.free_map = s.free_map) ∧
      (AddsBlocks inode size offset → ∃ inode₁ s₁,
        grow s inode (offset + size) = .ok (inode₁, s₁) ∧ s'.free_map = s₁.free_map) := by
  unfold inode_write_at_with at h
  by_cases hdeny : inode.deny_write_cnt ≠ 0
  · rw [if_pos hdeny] at h
    obtain ⟨-, h⟩ := Prod.mk.inj (Except.ok.inj h)
    obtain ⟨-, rfl⟩ := Prod.mk.inj h
    exact ⟨fun _ => rfl, fun hadds => absurd hadds.1 hdeny⟩
  rw [if_neg hdeny] at h
  by_cases hov : 2 ^ 31 ≤ offset + size
  · rw [if_pos hov] at h
    cases h
  rw [if_neg hov] at h
  obtain ⟨⟨inode₁, s₁⟩, hext, h⟩ := bind_eq_ok h
  obtain ⟨⟨w', s₂⟩, hloop, h⟩ := bind_eq_ok h
  obtain ⟨-, h⟩ := Prod.mk.inj (Except.ok.inj h)
  obtain ⟨-, rfl⟩ := Prod.mk.inj h
  have hmap : s₂.free_map = s₁.free_map := (onlyDisk_write_loop _ _ _ _ _ _ hloop).free_map
  rw [hmap]
  by_cases hlt : inode.data.length < offset + size
  · rw [if_pos hlt] at hext
    obtain ⟨hsame, hgrow⟩ := free_map_of_extend_with hext
    exact ⟨fun hnot => hsame fun hneed => hnot ⟨not_not.mp hdeny, hlt, hneed⟩,
      fun hadds => hgrow hadds.2.2⟩
  · rw [if_neg hlt] at hext
    obtain ⟨-, rfl⟩ := Prod.mk.inj (Except.ok.inj hext)
    exact ⟨fun _ => rfl, fun hadds => absurd hadds.2.1 hlt⟩

/-- Only `add_blocks` changes the free map. -/
theorem free_map_of_inode_write_at {inode' : Inode} {buffer : ℕ → UInt8} {size offset w : ℕ}
    (hdeny : inode.deny_write_cnt = 0) (hlt : inode.data.length < offset + size)
    (hneed : needs_blocks inode.data.length (offset + size))
    (h : inode_write_at s inode buffer size offset = .ok (w, inode', s')) :
    ∃ inode₁ s₁, add_blocks s inode (offset + size) = .ok (inode₁, s₁) ∧
      s'.free_map = s₁.free_map :=
  (free_map_of_inode_write_at_with h).2 ⟨hdeny, hlt, hneed⟩

end DiskFrame

/-- The last round of the allocation comes after the others. -/
theorem free_map_allocate_index_succ : ∀ (cnt i : ℕ) (s : FileSys) (d : InodeDisk),
    free_map_allocate_index (cnt + 1) i s d = (do
      let a ← free_map_allocate_index cnt i s d
      if a.1 then free_map_allocate_index 1 (i + cnt) a.2.2 a.2.1 else return a) := by
  intro cnt
  induction cnt with
  | zero =>
    intro i s d
    rfl
  | succ cnt ih =>
    intro i s d
    rw [free_map_allocate_index]
    conv_rhs => rw [free_map_allocate_index]
    cases take_sector s with
    | error e => rfl
    | ok t =>
      obtain ⟨r, s₁⟩ := t
      cases r with
      | none => rfl
      | some sector =>
        rw [ok_bind, ok_bind]
        dsimp only
        by_cases he : sector = BITMAP_ERROR
        · rw [if_pos he, if_pos he, ih, show i + 1 + cnt = i + (cnt + 1) by omega]
        · rw [if_neg he, if_neg he]
          cases assign_index s₁ d i sector with
          | error e => rfl
          | ok a =>
            rw [ok_bind, ok_bind]
            cases ha : a.1 with
            | false =>
              simp only [Bool.false_eq_true, if_false, pure_eq_ok, ok_bind, ha]
            | true =>
              simp only [if_true]
              rw [ih, show i + 1 + cnt = i + (cnt + 1) by omega]

section Aligned

variable {s s' : FileSys} {inode inode' : Inode} {new_eof : ℕ}

/-- The round behind the last block is outside the arrays, and no later one is reached. -/
theorem allocate_past_max {d : InodeDisk} (hok : FsOk s) {cnt i : ℕ}
    (hi : i + cnt = MAX_BLOCKS)
    (hfree : (slotsFrom cnt i).length < (free_sectors s).card) (r : ℕ) :
    free_map_allocate_index (cnt + 1 + r) i s d = .error .bounds := by
  have hM : MAX_BLOCKS = 16634 := rfl
  have hD : DIRECT_LEN = 122 := rfl
  induction r with
  | zero =>
    obtain ⟨d₁, s₁, hrun, hA⟩ := free_map_allocate_index_spec cnt i s d hok hi.le hfree.le
    have hleft := hA.free
    obtain ⟨x, s₂, htake, htook⟩ := take_sector_spec hA.ok (by omega)
    rw [Nat.add_zero, free_map_allocate_index_succ, hrun, ok_bind]
    simp only [if_true]
    rw [free_map_allocate_index, htake, ok_bind]
    dsimp only
    rw [if_neg (htook.ne_error hA.ok), hi, assign_index, if_neg (by omega), if_neg (by omega),
      if_neg (by omega), if_neg (by omega)]
    rfl
  | succ r ih =>
    rw [show cnt + 1 + (r + 1) = (cnt + 1 + r) + 1 by omega, free_map_allocate_index_succ, ih]
    rfl

/-- To a length the arrays have no room for `add_blocks` does not return. -/
theorem add_blocks_past_max (hr : Ready s) (h : FileOk s inode)
    (hmax : 512 * MAX_BLOCKS ≤ new_eof)
    (hfree : (slotsFrom (MAX_BLOCKS + 1 - inode.data.blocks) inode.data.blocks).length
      ≤ (free_sectors s).card) (r : Inode × FileSys) :
    add_blocks s inode new_eof ≠ .ok r := by
  have hM : MAX_BLOCKS = 16634 := rfl
  have hB : inode.data.blocks = (inode.data.length + 511) / 512 := rfl
  have hle := h.max
  set B := inode.data.blocks with hBdef
  have hup : inode.data.length / 512 + (if inode.data.length % 512 ≠ 0 then 1 else 0) = B := by
    split_ifs <;> omega
  have hdown : new_eof / 512 - inode.data.length / 512
      + (if inode.data.length % 512 ≠ 0 then 0 else 1)
      = MAX_BLOCKS - B + 1 + (new_eof / 512 - MAX_BLOCKS) := by
    split_ifs <;> omega
  obtain ⟨s₁, hread, hs₁, -, -, -⟩ := reload_spec hr.ok.disk h.map h.max
  have hok₁ : FsOk s₁ := hr.ok.of_index (by rw [hs₁]) (by rw [hs₁])
    (fun _ _ _ _ _ => by rw [hs₁])
  have hfree₁ : free_sectors s₁ = free_sectors s := by
    rw [hs₁]
    rfl
  have hroom : (slotsFrom (MAX_BLOCKS - B) B).length < (free_sectors s₁).card := by
    have h1 := length_slotsFrom (MAX_BLOCKS - B) B
    have h2 := length_slotsFrom (MAX_BLOCKS + 1 - B) B
    have h3 := index_sectors_mono (show B + (MAX_BLOCKS - B) ≤ B + (MAX_BLOCKS + 1 - B) by omega)
    rw [hfree₁]
    omega
  simp only [add_blocks, hup, hdown]
  rw [hread, ok_bind, allocate_past_max hok₁ (by omega) hroom]
  intro hrun
  cases hrun

/-- What `add_blocks` leaves in the free map, from any length to any length it can reach. -/
theorem free_map_of_add_blocks (hr : Ready s) (h : FileOk s inode)
    (hneed : needs_blocks inode.data.length new_eof) (hmax : new_eof ≤ 512 * MAX_BLOCKS)
    (hfree : (grown_slots inode.data.length new_eof).length ≤ (free_sectors s).card)
    (hrun : add_blocks s inode new_eof = .ok (inode', s')) :
    (free_sectors s').card + (grown_slots inode.data.length new_eof).length
        = (free_sectors s).card ∧
      s'.capacity = s.capacity ∧
      ∀ i, s.free_map.bits i = true → s'.free_map.bits i = true := by
  have hM : MAX_BLOCKS = 16634 := rfl
  have hneed' := needs_blocks_iff.mp hneed
  set L := inode.data.length with hL
  have hB : bytes_to_sectors L = (L + 511) / 512 := rfl
  have hup : L / 512 + (if L % 512 ≠ 0 then 1 else 0) = bytes_to_sectors L := by
    split_ifs <;> omega
  have hdown : new_eof / 512 - L / 512 + (if L % 512 ≠ 0 then 0 else 1)
      = new_eof / 512 + 1 - bytes_to_sectors L := by
    split_ifs <;> omega
  obtain ⟨s₁, hread, hs₁, -, -, -⟩ := reload_spec hr.ok.disk h.map h.max
  have hmap₁ : s₁.free_map = s.free_map := by rw [hs₁]
  have hdisk₁ : s₁.disk = s.disk := by rw [hs₁]
  have hfile₁ : s₁.free_map_file = s.free_map_file := by rw [hs₁]
  have hok₁ : FsOk s₁ := hr.ok.of_index hfile₁ hmap₁ (fun _ _ _ _ _ => by rw [hdisk₁])
  have hfree₁ : free_sectors s₁ = free_sectors s := by
    simp only [free_sectors, FileSys.capacity, hmap₁]
  have hrun₀ := hrun
  simp only [add_blocks, ← hL, hup, hdown] at hrun
  rw [show read_index s inode.data L = .ok s₁ from hread, ok_bind] at hrun
  by_cases hend : new_eof / 512 = MAX_BLOCKS
  · -- the round at `MAX_BLOCKS` is the last one
    refine absurd hrun₀ (add_blocks_past_max hr h (by omega) ?_ _)
    rw [grown_slots, hend] at hfree
    exact hfree
  · obtain ⟨d₂, s₂, halloc, hA⟩ := free_map_allocate_index_spec
      (new_eof / 512 + 1 - bytes_to_sectors L) (bytes_to_sectors L) s₁ inode.data hok₁ (by omega)
      (by rw [hfree₁]; exact hfree)
    rw [halloc, ok_bind] at hrun
    simp only [if_true] at hrun
    obtain ⟨s₃, hwrite, hret⟩ := bind_eq_ok hrun
    obtain ⟨-, rfl⟩ := Prod.mk.inj (Except.ok.inj hret)
    have hmap := (onlyDisk_write_index hwrite).free_map
    have hcap : s₃.capacity = s₂.capacity := by simp only [FileSys.capacity, hmap]
    have hsame : free_sectors s₃ = free_sectors s₂ := by
      simp only [free_sectors, FileSys.capacity, hmap]
    refine ⟨?_, ?_, ?_⟩
    · rw [hsame, ← hfree₁]
      exact hA.free
    · rw [hcap, hA.capacity]
      simp only [FileSys.capacity, hmap₁]
    · intro i hi
      rw [hmap, hA.bits, hmap₁]
      exact Or.inl hi

end Aligned

/-- A growth to a multiple of 512 takes a sector the file never reaches. -/
theorem GrowCall.surplus {s : FileSys} {inode : Inode} {size offset : ℕ}
    (h : GrowCall s inode size offset) (buffer : ℕ → UInt8)
    (hneed : needs_blocks inode.data.length (offset + size)) (hmod : (offset + size) % 512 = 0) :
    ¬ GrowsExactly s inode buffer size offset := by
  rintro ⟨inode', s', hrun, -, hcard, -⟩
  obtain ⟨inode₁, s₁, hadd, hmap⟩ :=
    free_map_of_inode_write_at h.writable h.extends_file hneed hrun
  obtain ⟨hfree, hcap, hbits⟩ :=
    free_map_of_add_blocks h.ready h.file hneed h.max (h.room hneed) hadd
  have hcap' : s'.capacity = s.capacity := by
    simp only [FileSys.capacity, hmap]
    exact hcap
  have hmarked := card_newly_marked hcap' (fun i hi => by rw [hmap]; exact hbits i hi)
  have hsame : free_sectors s' = free_sectors s₁ := by
    simp only [free_sectors, FileSys.capacity, hmap]
  have hmore := length_grown_slots_aligned hneed hmod
  rw [hsame] at hmarked
  omega

/-- **Growth takes exactly what it needs** between lengths that fit, and never when it adds
blocks up to a multiple of 512, where `malloc` gives the bounce buffers for the free map. -/
theorem growth_exact {s : FileSys} {inode : Inode} {size offset : ℕ}
    (h : GrowCall s inode size offset) (buffer : ℕ → UInt8) :
    (GrowthFits inode.data.length (offset + size) → GrowsExactly s inode buffer size offset) ∧
      (needs_blocks inode.data.length (offset + size) → (offset + size) % 512 = 0 →
        ¬ GrowsExactly s inode buffer size offset) := by
  refine ⟨?_, h.surplus buffer⟩
  intro hfits
  by_cases hneed : needs_blocks inode.data.length (offset + size)
  · exact h.past buffer hneed hfits
  · exact h.within buffer hneed

/-! ## The small disk -/

theorem small_grow_call {length size offset : ℕ} (hlen : length ≤ 123 * 512)
    (hlt : length < offset + size) (hmax : offset + size ≤ 512 * MAX_BLOCKS)
    (hroom : (grown_slots length (offset + size)).length ≤ 32) :
    GrowCall small_fs (small_file length) size offset where
  ready := small_fs_ready
  file := small_file_ok hlen
  writable := rfl
  extends_file := hlt
  max := hmax
  room _ := by
    have hfree : (free_sectors small_fs).card = 32 := by decide +kernel
    rw [hfree]
    exact hroom

/-- From no byte to one, and from no byte to 512. -/
theorem growth_exact_small :
    GrowsExactly small_fs (small_file 0) (fun _ => 7) 1 0 ∧
      ¬ GrowsExactly small_fs (small_file 0) (fun _ => 7) 512 0 :=
  ⟨(growth_exact (@small_grow_call 0 1 0 (by decide) (by decide)
      (by decide) (by decide)) (fun _ => 7)).1 (fun _ => ⟨by decide, by decide, by decide, by
        simp only [ParentsLoaded, small_file]; omega⟩),
    (growth_exact (@small_grow_call 0 512 0 (by decide) (by decide)
      (by decide) (by decide)) (fun _ => 7)).2 (by decide) (by decide)⟩

/-- **A first block of 512 bytes takes two sectors.** `new_eof/512` is 1, and the allocation
goes from block 0 to block 1. -/
theorem growth_takes_surplus : ¬ ∀ (s : FileSys) (inode : Inode) (buffer : ℕ → UInt8)
    (size offset : ℕ), GrowCall s inode size offset → GrowsExactly s inode buffer size offset := by
  intro hall
  obtain ⟨inode', s', hrun, -, hcard, -⟩ := hall small_fs (small_file 0) (fun _ => 7) 512 0
    (small_grow_call (by decide) (by decide) (by decide) (by decide))
  have hleft : (inode_write_at small_fs (small_file 0) (fun _ => 7) 512 0).map
      (fun r => (newly_marked small_fs r.2.2).card) = .ok 2 := by
    decide +kernel
  rw [hrun] at hleft
  have htwo : (newly_marked small_fs s').card = 2 := Except.ok.inj hleft
  rw [htwo] at hcard
  exact absurd hcard (by decide)

end Pintos.Filesys
