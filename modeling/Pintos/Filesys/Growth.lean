/-
File growth: `add_blocks`, the extension step of `inode_write_at`, and the whole
call.

The call is three stages: `add_blocks` (reload, allocate, write back), then
`fill_zeros` and the inode's own sector, then the write loop. Each stage has one
effect structure (`Grew`, `Kept`, `Wrote`), stated over what was there before the
call: old slots keep their sectors, new slots get sectors that were free, and a
sector in use that is neither the file's nor the free map's is not written.

What the call needs from the length of the file before and after is `GrowthOk`.
-/
import Pintos.Filesys.IndexBlocks

set_option autoImplicit false

namespace Pintos.Filesys

open Pintos.Kernel WordImage

/-! ## The state between calls -/

/-- The file system between calls: in order, arrays clear, sector 0 in use and
not a block of the free-map file. -/
structure Ready (s : FileSys) : Prop where
  ok : FsOk s
  arrays : ArraysClear s
  boot : s.free_map.bits FREE_MAP_SECTOR = true
  file_boot : ∀ f, s.free_map_file = some f →
    ∀ τ : Slot, τ.pos < f.data.blocks → disk_slot s.disk f.data τ ≠ FREE_MAP_SECTOR

/-- An open file with a well-formed block map: its sectors are distinct and used,
and none of them is sector 0, the inode's own sector or a sector of the free-map
file. -/
structure FileOk (s : FileSys) (inode : Inode) : Prop where
  map : MapOk s inode.data inode.data.blocks
  max : inode.data.blocks ≤ MAX_BLOCKS
  used : s.free_map.bits inode.sector = true
  own : ∀ σ : Slot, σ.pos < inode.data.blocks → disk_slot s.disk inode.data σ ≠ inode.sector
  boot : ∀ σ : Slot, σ.pos < inode.data.blocks →
    disk_slot s.disk inode.data σ ≠ FREE_MAP_SECTOR
  apart : ∀ f, s.free_map_file = some f → ∀ τ : Slot, τ.pos < f.data.blocks →
    disk_slot s.disk f.data τ ≠ inode.sector ∧
      ∀ σ : Slot, σ.pos < inode.data.blocks →
        disk_slot s.disk inode.data σ ≠ disk_slot s.disk f.data τ

/-- No block of the file is a block of the free-map file's contents. -/
theorem FileOk.not_freeMapData {s : FileSys} {inode : Inode} (h : FileOk s inode) {σ : Slot}
    (hσ : σ.pos < inode.data.blocks) : ¬ FreeMapData s (disk_slot s.disk inode.data σ) := by
  rintro ⟨f, hf, k, hk, he⟩
  exact (h.apart f hf (.data k) hk).2 σ hσ he

/-- The lengths between which `add_blocks` grows a file as it should: the reload
and the write-back both reach every block. -/
structure GrowthOk (old_eof new_eof : ℕ) : Prop where
  max : new_eof < 512 * MAX_BLOCKS
  reload : ReloadOk old_eof
  indirect : ¬ (122 * 512 < new_eof ∧ new_eof < 123 * 512)
  doubly : ¬ (250 * 512 < new_eof ∧ new_eof < 251 * 512)

/-- The slots `add_blocks` takes sectors for: those of the blocks from the old end
of file to block `new_eof / 512`, that block included. -/
def grown_slots (old_eof new_eof : ℕ) : List Slot :=
  slotsFrom (new_eof / 512 + 1 - bytes_to_sectors old_eof) (bytes_to_sectors old_eof)

/-! ## Frame facts -/

/-- The free-map file's slots are where they were when its index sectors are. -/
theorem FsOk.of_index {s s' : FileSys} (hok : FsOk s)
    (hfile : s'.free_map_file = s.free_map_file) (hmap : s'.free_map = s.free_map)
    (hdisk : ∀ f, s.free_map_file = some f → ∀ τ : Slot, τ.IsIndex → τ.pos < f.data.blocks →
      s'.disk (disk_slot s.disk f.data τ) = s.disk (disk_slot s.disk f.data τ)) :
    FsOk s' where
  disk := ⟨by simp only [FileSys.capacity, hmap]; exact hok.disk.capacity, fun i hi => by
    simp only [FileSys.capacity, hmap] at hi ⊢
    exact hok.disk.bits i hi⟩
  file f hf := by
    rw [hfile] at hf
    have hfo := hok.file f hf
    refine ⟨hfo.map.frame (hdisk f hf) (fun i hi => by rw [hmap]; exact hi), hfo.max, ?_,
      hfo.writable⟩
    simp only [FileSys.capacity, hmap]
    exact hfo.length

/-- The length of a file is not part of its block map. -/
theorem disk_slot_length (disk : ℕ → Sector) (d : InodeDisk) (n : ℕ) (σ : Slot) :
    disk_slot disk { d with length := n } σ = disk_slot disk d σ := by
  cases σ <;> rfl

/-! ## `add_blocks` -/

/-- The block map grew from that of `d` to `n` blocks of `d'`. -/
structure Grew (s s' : FileSys) (d d' : InodeDisk) (n : ℕ) : Prop where
  header : SameHeader d d'
  fits : d.Fits → d'.Fits
  file : s'.free_map_file = s.free_map_file
  capacity : s'.capacity = s.capacity
  iid : s'.next_iid = s.next_iid
  bits : ∀ i, s.free_map.bits i = true → s'.free_map.bits i = true
  old : ∀ σ : Slot, σ.pos < d.blocks → disk_slot s'.disk d' σ = disk_slot s.disk d σ
  fresh : ∀ σ : Slot, d.blocks ≤ σ.pos → σ.pos < n →
    s.free_map.bits (disk_slot s'.disk d' σ) = false
  map : MapOk s' d' n
  arrays : ∀ k, d.length / 512 ≤ k → k < n →
    mem_slot s' d' (.data k) = block s'.disk d' k ∨ mem_slot s' d' (.data k) = FREE_MAP_SECTOR
  data : ∀ k < d.blocks, s'.disk (block s.disk d k) = s.disk (block s.disk d k)
  frame : ∀ y, s.free_map.bits y = true → ¬ FreeMapData s y →
    (∀ σ : Slot, σ.IsIndex → σ.pos < d.blocks → y ≠ disk_slot s.disk d σ) →
    s'.disk y = s.disk y
  ok : FsOk s'

/-- Staying within the last block leaves everything as it is. -/
theorem Grew.refl {s : FileSys} {inode : Inode} (hr : Ready s) (h : FileOk s inode) :
    Grew s s inode.data inode.data inode.data.blocks where
  header := SameHeader.refl _
  fits := id
  file := rfl
  capacity := rfl
  iid := rfl
  bits _ hi := hi
  old _ _ := rfl
  fresh σ h1 h2 := by omega
  map := h.map
  arrays k _ _ := by
    simp only [mem_slot, hr.arrays.indirect, hr.arrays.doubly]
    by_cases hk : k < 122
    · rw [if_pos hk, block_direct _ _ hk]
      exact Or.inl rfl
    · rw [if_neg hk, ite_self]
      exact Or.inr rfl
  data _ _ := rfl
  frame _ _ _ _ := rfl
  ok := hr.ok

/-- The in-memory map after the reload and the allocation. -/
theorem Allocated.memMapOk {s s₁ s₂ : FileSys} {d d₂ : InodeDisk} {n cnt : ℕ}
    (hm : MapOk s d n) (hbits : s₁.free_map = s.free_map)
    (hload : ∀ σ : Slot, σ.pos < n → mem_slot s₁ d σ = disk_slot s.disk d σ)
    (hA : Allocated s₁ s₂ d d₂ (slotsFrom cnt n)) : MemMapOk s₂ d₂ (n + cnt) := by
  have hold : ∀ σ : Slot, σ.pos < n → mem_slot s₂ d₂ σ = disk_slot s.disk d σ := by
    intro σ hσ
    rw [hA.old σ (by rw [mem_slotsFrom]; omega), hload σ hσ]
  have hnew : ∀ σ : Slot, n ≤ σ.pos → σ.pos < n + cnt → σ ∈ slotsFrom cnt n := fun σ h1 h2 =>
    mem_slotsFrom.mpr ⟨h1, h2⟩
  have hfresh : ∀ σ : Slot, n ≤ σ.pos → σ.pos < n + cnt →
      s.free_map.bits (mem_slot s₂ d₂ σ) = false := by
    intro σ h1 h2
    rw [← hbits]
    exact hA.fresh σ (hnew σ h1 h2)
  -- an old slot's sector is in use and a new slot's was free
  have hcross : ∀ σ τ : Slot, σ.pos < n → n ≤ τ.pos → τ.pos < n + cnt →
      mem_slot s₂ d₂ σ ≠ mem_slot s₂ d₂ τ := by
    intro σ τ hσ h1 h2 he
    have hu := hm.used σ hσ
    have hf := hfresh τ h1 h2
    rw [← he, hold σ hσ, hu] at hf
    cases hf
  constructor
  · intro σ τ hσ hτ he
    by_cases h1 : σ.pos < n <;> by_cases h2 : τ.pos < n
    · rw [hold σ h1, hold τ h2] at he
      exact hm.inj σ τ h1 h2 he
    · exact absurd he (hcross σ τ h1 (by omega) hτ)
    · exact absurd he.symm (hcross τ σ h2 (by omega) hσ)
    · exact hA.inj σ (hnew σ (by omega) hσ) τ (hnew τ (by omega) hτ) he
  · intro σ hσ
    rw [hA.bits]
    by_cases h1 : σ.pos < n
    · left
      rw [hold σ h1, hbits]
      exact hm.used σ h1
    · exact Or.inr ⟨σ, hnew σ (by omega) hσ, rfl⟩

/-- The write-back of a grown file reaches every block. -/
theorem GrowthOk.flushOk {old_eof new_eof : ℕ} (hg : GrowthOk old_eof new_eof) :
    FlushOk (new_eof / 512) (bytes_to_sectors new_eof) (new_eof / 512 + 1) := by
  have hmax : new_eof < 512 * 16634 := hg.max
  have h1 := hg.indirect
  have h2 := hg.doubly
  have hM : MAX_BLOCKS = 16634 := rfl
  simp only [bytes_to_sectors]
  constructor <;> omega

/-- What `add_blocks` leaves in the inode and the arrays, and for the first `m` blocks on
the disk, from any length outside block 250: index sectors stay, the sectors of blocks that
were not loaded are lost, and the new slots got distinct sectors that were free. -/
structure Extended (s s' : FileSys) (d d' : InodeDisk) (new_eof m : ℕ) : Prop where
  header : SameHeader d d'
  fits : d.Fits → d'.Fits
  file : s'.free_map_file = s.free_map_file
  capacity : s'.capacity = s.capacity
  iid : s'.next_iid = s.next_iid
  index : ∀ σ : Slot, σ.IsIndex → σ.pos < d.blocks → mem_slot s' d' σ = disk_slot s.disk d σ
  kept : ∀ k < d.blocks, Loaded d.length k → mem_slot s' d' (.data k) = block s.disk d k
  lost : ∀ k < d.blocks, ¬ Loaded d.length k → mem_slot s' d' (.data k) = FREE_MAP_SECTOR
  fresh : ∀ σ ∈ grown_slots d.length new_eof, s.free_map.bits (mem_slot s' d' σ) = false
  inj : ∀ σ ∈ grown_slots d.length new_eof, ∀ τ ∈ grown_slots d.length new_eof,
    mem_slot s' d' σ = mem_slot s' d' τ → σ = τ
  bits : ∀ i, s'.free_map.bits i = true ↔
    s.free_map.bits i = true ∨ ∃ σ ∈ grown_slots d.length new_eof, mem_slot s' d' σ = i
  free : (free_sectors s').card + (grown_slots d.length new_eof).length = (free_sectors s).card
  disk : ∀ σ : Slot, σ.pos < m → disk_slot s'.disk d' σ = mem_slot s' d' σ
  frame : ∀ y, s.free_map.bits y = true → ¬ FreeMapData s y →
    (∀ σ : Slot, σ.IsIndex → σ.pos < d.blocks → y ≠ disk_slot s.disk d σ) →
    s'.disk y = s.disk y
  stale : ∀ k, .data k ∈ grown_slots d.length new_eof →
    s'.disk (mem_slot s' d' (.data k)) = s.disk (mem_slot s' d' (.data k))
  ok : FsOk s'

/-- The slots of a growth. -/
theorem mem_grown_slots {old_eof new_eof : ℕ} {σ : Slot}
    (h : bytes_to_sectors old_eof ≤ new_eof / 512 + 1) :
    σ ∈ grown_slots old_eof new_eof ↔ bytes_to_sectors old_eof ≤ σ.pos ∧ σ.pos ≤ new_eof / 512 := by
  rw [grown_slots, mem_slotsFrom]
  omega

/-- `add_blocks` runs when the new end lies behind the last block. -/
theorem needs_blocks_iff {length new_eof : ℕ} :
    needs_blocks length new_eof ↔ 512 * bytes_to_sectors length < new_eof := by
  simp only [needs_blocks, bytes_to_sectors]
  split_ifs <;> omega

/-- The stages of `add_blocks`: `s₁` after the reload, `d₂` and `s₂` after the allocation. -/
structure AddStages (s s₁ s₂ : FileSys) (inode : Inode) (d₂ : InodeDisk) (new_eof : ℕ) :
    Prop where
  read : read_index s inode.data inode.data.length = .ok s₁
  arrays : SameButArrays s s₁
  index : ParentsLoaded inode.data.length → ∀ σ : Slot, σ.IsIndex → σ.pos < inode.data.blocks →
    mem_slot s₁ inode.data σ = disk_slot s.disk inode.data σ
  loaded : ∀ k < inode.data.blocks, Loaded inode.data.length k →
    mem_slot s₁ inode.data (.data k) = block s.disk inode.data k
  lost : ∀ k < inode.data.blocks, ¬ Loaded inode.data.length k →
    mem_slot s₁ inode.data (.data k) = FREE_MAP_SECTOR
  fsOk : FsOk s₁
  alloc : free_map_allocate_index
      (new_eof / 512 - inode.data.length / 512 + (if inode.data.length % 512 ≠ 0 then 0 else 1))
      (inode.data.length / 512 + (if inode.data.length % 512 ≠ 0 then 1 else 0)) s₁ inode.data
    = .ok (true, d₂, s₂)
  allocated : Allocated s₁ s₂ inode.data d₂ (grown_slots inode.data.length new_eof)
  run : add_blocks s inode new_eof = (do
    let s ← write_index s₂ d₂ (new_eof / 512)
    return ({ inode with data := d₂ }, s))

/-- **`add_blocks`** with the sectors it takes free comes to its write-back. -/
theorem add_blocks_stages {s : FileSys} {inode : Inode} {new_eof : ℕ} (hr : Ready s)
    (h : FileOk s inode) (hneed : needs_blocks inode.data.length new_eof)
    (hmax : new_eof < 512 * MAX_BLOCKS)
    (hfree : (grown_slots inode.data.length new_eof).length ≤ (free_sectors s).card) :
    ∃ s₁ d₂ s₂, AddStages s s₁ s₂ inode d₂ new_eof := by
  have hM : MAX_BLOCKS = 16634 := rfl
  have hneed' := needs_blocks_iff.mp hneed
  set L := inode.data.length with hL
  have hB : bytes_to_sectors L = (L + 511) / 512 := rfl
  have hB' : inode.data.blocks = bytes_to_sectors L := rfl
  have hup : L / 512 + (if L % 512 ≠ 0 then 1 else 0) = bytes_to_sectors L := by
    split_ifs <;> omega
  have hdown : new_eof / 512 - L / 512 + (if L % 512 ≠ 0 then 0 else 1)
      = new_eof / 512 + 1 - bytes_to_sectors L := by
    split_ifs <;> omega
  obtain ⟨s₁, hread, hs₁, hindex, hloaded, hlost⟩ := reload_spec hr.ok.disk h.map h.max
  have hok₁ : FsOk s₁ := hr.ok.of_index (by rw [hs₁]) (by rw [hs₁])
    (fun _ _ _ _ _ => by rw [hs₁])
  have hfree₁ : free_sectors s₁ = free_sectors s := by
    rw [hs₁]
    rfl
  obtain ⟨d₂, s₂, halloc, hA⟩ := free_map_allocate_index_spec
    (new_eof / 512 + 1 - bytes_to_sectors L) (bytes_to_sectors L) s₁ inode.data hok₁ (by omega)
    (by rw [hfree₁]; exact hfree)
  refine ⟨s₁, d₂, s₂, hread, hs₁, hindex, hloaded, ?_, hok₁, ?_, hA, ?_⟩
  · intro k hk hload
    rw [hlost k hk hload]
    simp only [Loaded] at hload
    simp only [mem_slot, hr.arrays.indirect, hr.arrays.doubly]
    rw [if_neg (by omega), ite_self]
  · rw [hup, hdown]
    exact halloc
  · simp only [add_blocks, ← hL, hup, hdown]
    rw [hread, ok_bind, halloc, ok_bind]
    simp only [if_true]

/-- **`add_blocks`** with the sectors it takes free, from a length at which the reload brings
the parents in. -/
theorem add_blocks_extends {s : FileSys} {inode : Inode} {new_eof m : ℕ} (hr : Ready s)
    (h : FileOk s inode) (hneed : needs_blocks inode.data.length new_eof)
    (hmax : new_eof < 512 * MAX_BLOCKS) (hp : ParentsLoaded inode.data.length)
    (hf : FlushOk (new_eof / 512) m (new_eof / 512 + 1))
    (hfree : (grown_slots inode.data.length new_eof).length ≤ (free_sectors s).card) :
    ∃ d' s', add_blocks s inode new_eof = .ok ({ inode with data := d' }, s') ∧
      Extended s s' inode.data d' new_eof m := by
  obtain ⟨s₁, d₂, s₂, hstages⟩ := add_blocks_stages hr h hneed hmax hfree
  obtain ⟨-, hs₁, hindex₁, hload₁, hlost₁, hok₁, -, hA, hadd⟩ := hstages
  set d := inode.data with hd
  have hB : d.blocks = (d.length + 511) / 512 := rfl
  have hneed' : 512 * d.blocks < new_eof := needs_blocks_iff.mp hneed
  set n := new_eof / 512 with hn
  have hM : MAX_BLOCKS = 16634 := rfl
  have hmap₁ : s₁.free_map = s.free_map := by rw [hs₁]
  have hdisk₁ : s₁.disk = s.disk := by rw [hs₁]
  have hfile₁ : s₁.free_map_file = s.free_map_file := by rw [hs₁]
  have hfree₁ : free_sectors s₁ = free_sectors s := by
    simp only [free_sectors, FileSys.capacity, hmap₁]
  have hslots : ∀ σ : Slot, σ ∈ grown_slots d.length new_eof ↔
      d.blocks ≤ σ.pos ∧ σ.pos ≤ n := fun σ => by
    have hB' : bytes_to_sectors d.length = d.blocks := rfl
    rw [mem_grown_slots (by omega), hB']
  have hfmd : ∀ y, FreeMapData s₁ y ↔ FreeMapData s y := by
    intro y
    simp only [FreeMapData, hfile₁, hdisk₁]
  -- what the arrays hold for the old blocks
  have hkeep : ∀ σ : Slot, σ.pos < d.blocks → mem_slot s₂ d₂ σ = mem_slot s₁ d σ := fun σ hσ =>
    hA.old σ (by rw [hslots]; omega)
  have hindex : ∀ σ : Slot, σ.IsIndex → σ.pos < d.blocks →
      mem_slot s₂ d₂ σ = disk_slot s.disk d σ := fun σ hσi hσ =>
    (hkeep σ hσ).trans (hindex₁ hp σ hσi hσ)
  have hlost : ∀ k < d.blocks, ¬ Loaded d.length k →
      mem_slot s₂ d₂ (.data k) = FREE_MAP_SECTOR := by
    intro k hk hload
    rw [hkeep (.data k) hk, hlost₁ k hk hload]
  have hfresh : ∀ σ : Slot, d.blocks ≤ σ.pos → σ.pos ≤ n →
      s.free_map.bits (mem_slot s₂ d₂ σ) = false := by
    intro σ h1 h2
    rw [← hmap₁]
    exact hA.fresh σ ((hslots σ).mpr ⟨h1, h2⟩)
  have hused₁ : ∀ i, s.free_map.bits i = true → s₂.free_map.bits i = true := by
    intro i hi
    rw [hA.bits, hmap₁]
    exact Or.inl hi
  have hlt : ∀ σ : Slot, σ.pos < n + 1 → mem_slot s₂ d₂ σ < s₂.capacity := by
    intro σ hσ
    apply hA.ok.disk.bits
    by_cases hσb : σ.pos < d.blocks
    · cases σ with
      | data k =>
        by_cases hload : Loaded d.length k
        · rw [hkeep (.data k) hσb, hload₁ k hσb hload]
          exact hused₁ _ (h.map.used (.data k) hσb)
        · rw [hlost k hσb hload]
          exact hused₁ _ hr.boot
      | indirect => exact hindex .indirect trivial hσb ▸ hused₁ _ (h.map.used .indirect hσb)
      | doubly => exact hindex .doubly trivial hσb ▸ hused₁ _ (h.map.used .doubly hσb)
      | parent j =>
        exact hindex (.parent j) trivial hσb ▸ hused₁ _ (h.map.used (.parent j) hσb)
    · exact (hA.bits _).mpr (Or.inr ⟨σ, (hslots σ).mpr ⟨by omega, by omega⟩, rfl⟩)
  have hcross : ∀ σ τ : Slot, σ.IsIndex → σ.pos < d.blocks → d.blocks ≤ τ.pos → τ.pos ≤ n →
      mem_slot s₂ d₂ σ ≠ mem_slot s₂ d₂ τ := by
    intro σ τ hσi hσ h1 h2 he
    have hused := h.map.used σ hσ
    have hfr := hfresh τ h1 h2
    rw [← he, hindex σ hσi hσ, hused] at hfr
    cases hfr
  have hidx : IndexOk s₂ d₂ (n + 1) := by
    refine ⟨?_, fun σ _ hσ => hlt σ hσ⟩
    intro σ τ hσi hτi hσ hτ he
    by_cases h1 : σ.pos < d.blocks <;> by_cases h2 : τ.pos < d.blocks
    · rw [hindex σ hσi h1, hindex τ hτi h2] at he
      exact h.map.inj σ τ h1 h2 he
    · exact absurd he (hcross σ τ hσi h1 (by omega) (by omega))
    · exact absurd he.symm (hcross τ σ hτi h2 (by omega) (by omega))
    · exact hA.inj σ ((hslots σ).mpr ⟨by omega, by omega⟩) τ ((hslots τ).mpr ⟨by omega, by omega⟩)
        he
  obtain ⟨disk₃, hwrite, hframe₃, hslot₃⟩ := write_index_store hA.ok.disk hidx hf
    (fun σ hσ => hlt σ (lt_of_lt_of_le hσ hf.bound))
  -- a sector in use that is no index sector of the file and no free-map data is not written
  have hframe : ∀ y, s.free_map.bits y = true → ¬ FreeMapData s y →
      (∀ σ : Slot, σ.IsIndex → σ.pos < d.blocks → y ≠ disk_slot s.disk d σ) →
      disk₃ y = s.disk y := by
    intro y hy hyf hyi
    rw [hframe₃ y ?_, hA.disk y (by rwa [hfmd]), hdisk₁]
    intro σ hσi hσ he
    by_cases hσb : σ.pos < d.blocks
    · exact hyi σ hσi hσb (by rw [he, hindex σ hσi hσb])
    · have := hfresh σ (by omega) (by omega)
      rw [← he, hy] at this
      cases this
  refine ⟨d₂, { s₂ with disk := disk₃ }, ?_, ?_⟩
  · rw [hadd, hwrite, ok_bind, pure_eq_ok]
  · constructor
    · exact hA.header
    · exact hA.fits
    · exact hA.file.trans hfile₁
    · exact hA.capacity.trans (by simp only [FileSys.capacity, hmap₁])
    · rw [hA.iid, hs₁]
    · exact hindex
    · intro k hk hload
      exact (hkeep (.data k) hk).trans (hload₁ k hk hload)
    · exact hlost
    · intro σ hσ
      have := (hslots σ).mp hσ
      exact hfresh σ this.1 this.2
    · exact hA.inj
    · intro i
      rw [← hmap₁]
      exact hA.bits i
    · have := hA.free
      rw [hfree₁] at this
      exact this
    · exact hslot₃
    · exact hframe
    · -- a new data sector was free, so it holds no free-map data either
      intro k hk
      obtain ⟨hk1, hk2⟩ := (hslots _).mp hk
      have hfr := hfresh (.data k) hk1 hk2
      change disk₃ (mem_slot s₂ d₂ (.data k)) = s.disk (mem_slot s₂ d₂ (.data k))
      rw [hframe₃, hA.disk, hdisk₁]
      · rintro ⟨f, hf', l, hl, he⟩
        rw [hfile₁] at hf'
        rw [hdisk₁] at he
        rw [he, (hr.ok.file f hf').map.used (.data l) hl] at hfr
        cases hfr
      · intro σ hσi hσ he
        by_cases hσb : σ.pos < d.blocks
        · exact hcross σ (.data k) hσi hσb hk1 hk2 he.symm
        · have := hA.inj (.data k) hk σ ((hslots σ).mpr ⟨by omega, by omega⟩) he
          subst this
          exact hσi
    · refine hA.ok.of_index rfl rfl ?_
      -- the free-map file's index sectors are none of the file's
      intro f hf τ hτ hpos
      have hf' : s.free_map_file = some f := by rw [← hfile₁, ← hA.file, hf]
      have hfo := hr.ok.file f hf'
      have hτdata := not_freeMapData_index hf' hfo τ hτ hpos
      have hsame : disk_slot s₂.disk f.data τ = disk_slot s.disk f.data τ := by
        refine disk_slot_congr (fun υ hυ hυpos => ?_) hpos
        rw [hA.disk _ (by rw [hfmd]; exact not_freeMapData_index hf' hfo υ hυ hυpos), hdisk₁]
      rw [hsame, hA.disk _ (by rwa [hfmd]), hdisk₁]
      refine hframe _ (hfo.map.used τ hpos) hτdata ?_
      intro σ _ hσ he
      exact (h.apart f hf' τ hpos).2 σ hσ he.symm

/-- A growth in which nothing is lost. -/
theorem Extended.grew {s s' : FileSys} {inode : Inode} {d' : InodeDisk} {new_eof : ℕ}
    (h : FileOk s inode) (hneed : needs_blocks inode.data.length new_eof)
    (hreload : ReloadOk inode.data.length)
    (hE : Extended s s' inode.data d' new_eof (bytes_to_sectors new_eof)) :
    Grew s s' inode.data d' (bytes_to_sectors new_eof) := by
  set d := inode.data with hd
  have hB : bytes_to_sectors d.length = d.blocks := rfl
  have hneed' : 512 * d.blocks < new_eof := needs_blocks_iff.mp hneed
  have hN : bytes_to_sectors new_eof = (new_eof + 511) / 512 := rfl
  have hslots : ∀ σ : Slot, σ ∈ grown_slots d.length new_eof ↔
      d.blocks ≤ σ.pos ∧ σ.pos ≤ new_eof / 512 := fun σ => by
    rw [mem_grown_slots (by rw [hB]; omega), hB]
  have hold : ∀ σ : Slot, σ.pos < d.blocks → mem_slot s' d' σ = disk_slot s.disk d σ := by
    intro σ hσ
    cases σ with
    | data k => exact hE.kept k hσ (hreload.loaded hσ)
    | indirect => exact hE.index .indirect trivial hσ
    | doubly => exact hE.index .doubly trivial hσ
    | parent j => exact hE.index (.parent j) trivial hσ
  have hused : ∀ i, s.free_map.bits i = true → s'.free_map.bits i = true := fun i hi =>
    (hE.bits i).mpr (Or.inl hi)
  have hfresh : ∀ σ : Slot, d.blocks ≤ σ.pos → σ.pos < bytes_to_sectors new_eof →
      s.free_map.bits (mem_slot s' d' σ) = false := fun σ h1 h2 =>
    hE.fresh σ ((hslots σ).mpr ⟨h1, by omega⟩)
  have hcross : ∀ σ τ : Slot, σ.pos < d.blocks → d.blocks ≤ τ.pos →
      τ.pos < bytes_to_sectors new_eof → mem_slot s' d' σ ≠ mem_slot s' d' τ := by
    intro σ τ hσ h1 h2 he
    have hf := hfresh τ h1 h2
    rw [← he, hold σ hσ, h.map.used σ hσ] at hf
    cases hf
  constructor
  · exact hE.header
  · exact hE.fits
  · exact hE.file
  · exact hE.capacity
  · exact hE.iid
  · exact hused
  · intro σ hσ
    rw [hE.disk σ (by omega), hold σ hσ]
  · intro σ h1 h2
    rw [hE.disk σ h2]
    exact hfresh σ h1 h2
  · constructor
    · intro σ τ hσ hτ he
      rw [hE.disk σ hσ, hE.disk τ hτ] at he
      by_cases h1 : σ.pos < d.blocks <;> by_cases h2 : τ.pos < d.blocks
      · rw [hold σ h1, hold τ h2] at he
        exact h.map.inj σ τ h1 h2 he
      · exact absurd he (hcross σ τ h1 (by omega) hτ)
      · exact absurd he.symm (hcross τ σ h2 (by omega) hσ)
      · exact hE.inj σ ((hslots σ).mpr ⟨by omega, by omega⟩) τ
          ((hslots τ).mpr ⟨by omega, by omega⟩) he
    · intro σ hσ
      rw [hE.disk σ hσ, hE.bits]
      by_cases h1 : σ.pos < d.blocks
      · left
        rw [hold σ h1]
        exact h.map.used σ h1
      · exact Or.inr ⟨σ, (hslots σ).mpr ⟨by omega, by omega⟩, rfl⟩
  · intro k _ hk
    left
    exact (hE.disk (.data k) hk).symm
  · intro k hk
    refine hE.frame _ (h.map.used (.data k) hk) (h.not_freeMapData (σ := .data k) hk) ?_
    intro σ hσi hσ he
    have := h.map.inj (.data k) σ hk hσ he
    subst this
    exact hσi
  · exact hE.frame
  · exact hE.ok

/-- **`add_blocks`**: with the sectors it takes free and lengths it can handle,
the file's map has grown and the bytes it held are where they were. -/
theorem add_blocks_spec {s : FileSys} {inode : Inode} {new_eof : ℕ} (hr : Ready s)
    (h : FileOk s inode) (hneed : needs_blocks inode.data.length new_eof)
    (hg : GrowthOk inode.data.length new_eof)
    (hfree : (grown_slots inode.data.length new_eof).length ≤ (free_sectors s).card) :
    ∃ d' s', add_blocks s inode new_eof = .ok ({ inode with data := d' }, s') ∧
      Grew s s' inode.data d' (bytes_to_sectors new_eof) := by
  obtain ⟨d', s', hrun, hE⟩ := add_blocks_extends hr h hneed hg.max hg.reload.parents hg.flushOk
    hfree
  exact ⟨d', s', hrun, hE.grew h hneed hg.reload⟩

/-- No slot of the grown map holds a sector that was in use and not the file's. -/
theorem Grew.ne_used {s s' : FileSys} {d d' : InodeDisk} {n x : ℕ} (h : Grew s s' d d' n)
    (hx : s.free_map.bits x = true)
    (hold : ∀ σ : Slot, σ.pos < d.blocks → disk_slot s.disk d σ ≠ x)
    {σ : Slot} (hσ : σ.pos < n) : disk_slot s'.disk d' σ ≠ x := by
  by_cases hb : σ.pos < d.blocks
  · rw [h.old σ hb]
    exact hold σ hb
  · intro he
    have hf := h.fresh σ (by omega) hσ
    rw [he, hx] at hf
    cases hf

/-! ## Extending a file -/

/-- What a write keeps: the file's old slots, everything in use that is not the
file's, and the invariants of the file system and of the file. -/
structure Kept (s s' : FileSys) (inode inode' : Inode) : Prop where
  rest : inode' = { inode with data := inode'.data }
  header : SameHeader { inode.data with length := inode'.data.length } inode'.data
  fits : inode.data.Fits → inode'.data.Fits
  length : inode.data.length ≤ inode'.data.length
  file : s'.free_map_file = s.free_map_file
  capacity : s'.capacity = s.capacity
  iid : s'.next_iid = s.next_iid
  bits : ∀ i, s.free_map.bits i = true → s'.free_map.bits i = true
  old : ∀ σ : Slot, σ.pos < inode.data.blocks →
    disk_slot s'.disk inode'.data σ = disk_slot s.disk inode.data σ
  fresh : ∀ σ : Slot, inode.data.blocks ≤ σ.pos → σ.pos < inode'.data.blocks →
    s.free_map.bits (disk_slot s'.disk inode'.data σ) = false
  frame : ∀ y, s.free_map.bits y = true → y ≠ FREE_MAP_SECTOR → y ≠ inode.sector →
    ¬ FreeMapData s y →
    (∀ σ : Slot, σ.pos < inode.data.blocks → y ≠ disk_slot s.disk inode.data σ) →
    s'.disk y = s.disk y
  image : s.disk inode.sector = inode_image inode.data →
    s'.disk inode.sector = inode_image inode'.data
  ready : Ready s'
  fileOk : FileOk s' inode'

theorem Kept.refl {s : FileSys} {inode : Inode} (hr : Ready s) (h : FileOk s inode) :
    Kept s s inode inode where
  rest := rfl
  header := SameHeader.refl _
  fits := id
  length := le_rfl
  file := rfl
  capacity := rfl
  iid := rfl
  bits _ hi := hi
  old _ _ := rfl
  fresh σ h1 h2 := by omega
  frame _ _ _ _ _ _ := rfl
  image hi := hi
  ready := hr
  fileOk := h

/-- A grown file after `fill_zeros` and the write of its inode: any disk that
differs from the grown one in the inode's sector, in sector 0 and past the old end
of file will do. -/
theorem Grew.kept {s s₃ : FileSys} (s₅ : FileSys) {inode : Inode} {d₂ : InodeDisk} {new_eof : ℕ}
    (hr : Ready s) (h : FileOk s inode) (hlt : inode.data.length < new_eof)
    (hmax : new_eof ≤ 512 * MAX_BLOCKS)
    (hG : Grew s s₃ inode.data d₂ (bytes_to_sectors new_eof))
    (hs₅ : s₅ = { clear_arrays s₃ with disk := s₅.disk })
    (himg : s₅.disk inode.sector = inode_image { d₂ with length := new_eof })
    (hdisk : ∀ y j, y ≠ inode.sector → y ≠ FREE_MAP_SECTOR →
      (∀ k, k < bytes_to_sectors new_eof → y = block s₃.disk d₂ k →
        512 * k + j < inode.data.length) → s₅.disk y j = s₃.disk y j) :
    Kept s s₅ inode { inode with data := { d₂ with length := new_eof } } ∧
      ∀ p < inode.data.length,
        file_byte s₅.disk { d₂ with length := new_eof } p = file_byte s.disk inode.data p := by
  set N := bytes_to_sectors new_eof with hN
  set d' : InodeDisk := { d₂ with length := new_eof } with hd'
  have hmap₅ : s₅.free_map = s₃.free_map := by rw [hs₅]; rfl
  have hfile₅ : s₅.free_map_file = s₃.free_map_file := by rw [hs₅]; rfl
  have hne0 : ∀ σ : Slot, σ.pos < N → disk_slot s₃.disk d₂ σ ≠ FREE_MAP_SECTOR := fun σ hσ =>
    hG.ne_used hr.boot h.boot hσ
  have hneS : ∀ σ : Slot, σ.pos < N → disk_slot s₃.disk d₂ σ ≠ inode.sector := fun σ hσ =>
    hG.ne_used h.used h.own hσ
  -- a sector that is no data block of the file keeps all its bytes
  have hsector : ∀ y, y ≠ inode.sector → y ≠ FREE_MAP_SECTOR →
      (∀ k < N, y ≠ block s₃.disk d₂ k) → s₅.disk y = s₃.disk y := by
    intro y h1 h2 h3
    funext j
    exact hdisk y j h1 h2 (fun k hk he => absurd he (h3 k hk))
  have hindex : ∀ τ : Slot, τ.IsIndex → τ.pos < N →
      s₅.disk (disk_slot s₃.disk d₂ τ) = s₃.disk (disk_slot s₃.disk d₂ τ) := by
    intro τ hτ hpos
    refine hsector _ (hneS τ hpos) (hne0 τ hpos) ?_
    intro k hk he
    have := hG.map.inj τ (.data k) hpos hk he
    subst this
    exact hτ
  have hslot : ∀ σ : Slot, σ.pos < N → disk_slot s₅.disk d' σ = disk_slot s₃.disk d₂ σ := by
    intro σ hσ
    rw [hd', disk_slot_length]
    exact disk_slot_congr hindex hσ
  have hmapOk : MapOk s₅ d' N := by
    constructor
    · intro σ τ hσ hτ he
      rw [hslot σ hσ, hslot τ hτ] at he
      exact hG.map.inj σ τ hσ hτ he
    · intro σ hσ
      rw [hslot σ hσ, hmap₅]
      exact hG.map.used σ hσ
  have hle : inode.data.blocks ≤ N := by
    simp only [hN, InodeDisk.blocks, bytes_to_sectors]
    omega
  have hframe : ∀ y, s.free_map.bits y = true → y ≠ FREE_MAP_SECTOR → y ≠ inode.sector →
      ¬ FreeMapData s y →
      (∀ σ : Slot, σ.pos < inode.data.blocks → y ≠ disk_slot s.disk inode.data σ) →
      s₅.disk y = s.disk y := by
    intro y hy h0 hS hF hσ
    rw [hsector y hS h0 (fun k hk => ?_), hG.frame y hy hF (fun σ _ => hσ σ)]
    exact (hG.ne_used hy (fun σ h => (hσ σ h).symm) (σ := .data k) hk).symm
  -- the free-map file is where it was
  have hfindex : ∀ f, s.free_map_file = some f → ∀ τ : Slot, τ.IsIndex →
      τ.pos < f.data.blocks →
      s₅.disk (disk_slot s.disk f.data τ) = s.disk (disk_slot s.disk f.data τ) := by
    intro f hf τ hτ hpos
    refine hframe _ ((hr.ok.file f hf).map.used τ hpos) (hr.file_boot f hf τ hpos)
      (h.apart f hf τ hpos).1 (not_freeMapData_index hf (hr.ok.file f hf) τ hτ hpos) ?_
    intro σ hσ
    exact ((h.apart f hf τ hpos).2 σ hσ).symm
  have hfslot : ∀ f, s.free_map_file = some f → ∀ τ : Slot, τ.pos < f.data.blocks →
      disk_slot s₅.disk f.data τ = disk_slot s.disk f.data τ := fun f hf τ hpos =>
    disk_slot_congr (hfindex f hf) hpos
  have hbits : ∀ i, s.free_map.bits i = true → s₅.free_map.bits i = true := by
    intro i hi
    rw [hmap₅]
    exact hG.bits i hi
  have hfile : s₅.free_map_file = s.free_map_file := hfile₅.trans hG.file
  have hok : FsOk s₅ := by
    refine ⟨⟨?_, ?_⟩, ?_⟩
    · simp only [FileSys.capacity, hmap₅]
      exact hG.ok.disk.capacity
    · intro i hi
      simp only [FileSys.capacity, hmap₅] at hi ⊢
      exact hG.ok.disk.bits i hi
    · intro f hf
      rw [hfile] at hf
      have hfo := hr.ok.file f hf
      refine ⟨hfo.map.frame (hfindex f hf) hbits, hfo.max, ?_, hfo.writable⟩
      rw [hfo.length]
      simp only [FileSys.capacity, hmap₅]
      exact congrArg byte_cnt hG.capacity.symm
  refine ⟨⟨rfl, ?_, ?_, hlt.le, hfile, ?_, ?_, hbits, ?_, ?_, hframe, fun _ => himg, ⟨hok, ?_,
    hbits _ hr.boot, ?_⟩, ⟨hmapOk, ?_, hbits _ h.used, ?_, ?_, ?_⟩⟩, ?_⟩
  · exact ⟨hG.header.inode_i, rfl, hG.header.magic, hG.header.isdir, hG.header.direct_end⟩
  · intro hfits
    obtain ⟨h1, -, h3, h4, h5, h6, h7⟩ := hG.fits hfits
    have hM : MAX_BLOCKS = 16634 := rfl
    exact ⟨h1, (by omega : new_eof < 2 ^ 32), h3, h4, h5, h6, h7⟩
  · simp only [FileSys.capacity, hmap₅]
    exact hG.capacity
  · rw [hs₅]
    exact hG.iid
  · intro σ hσ
    rw [hslot σ (by omega), hG.old σ hσ]
  · intro σ h1 h2
    rw [hslot σ h2]
    exact hG.fresh σ h1 h2
  · rw [hs₅]
    exact ⟨rfl, rfl, rfl⟩
  · intro f hf τ hpos
    rw [hfile] at hf
    rw [hfslot f hf τ hpos]
    exact hr.file_boot f hf τ hpos
  · change N ≤ MAX_BLOCKS
    have hM : MAX_BLOCKS = 16634 := rfl
    simp only [hN, bytes_to_sectors]
    omega
  · intro σ hσ
    rw [hslot σ hσ]
    exact hneS σ hσ
  · intro σ hσ
    rw [hslot σ hσ]
    exact hne0 σ hσ
  · intro f hf τ hpos
    rw [hfile] at hf
    rw [hfslot f hf τ hpos]
    refine ⟨(h.apart f hf τ hpos).1, ?_⟩
    intro σ hσ
    rw [hslot σ hσ]
    exact hG.ne_used ((hr.ok.file f hf).map.used τ hpos)
      (fun σ' h' => (h.apart f hf τ hpos).2 σ' h') hσ
  · intro p hp
    have hk : p / 512 < inode.data.blocks := div_lt_blocks hp
    have hpos : (Slot.data (p / 512)).pos < N := by
      simp only [Slot.pos]
      omega
    simp only [file_byte, block]
    rw [hslot _ hpos, hdisk _ _ (hneS _ hpos) (hne0 _ hpos) ?_, hG.old (.data (p / 512)) hk,
      hG.data _ hk]
    intro k hk' he
    have := hG.map.inj (.data (p / 512)) (.data k) hpos hk' he
    injection this with hke
    omega

/-- What a write asks of the file's length and of the disk: if it adds blocks,
lengths `add_blocks` can handle and the sectors it takes. -/
def CanGrow (s : FileSys) (old_eof new_eof : ℕ) : Prop :=
  needs_blocks old_eof new_eof → GrowthOk old_eof new_eof ∧
    (grown_slots old_eof new_eof).length ≤ (free_sectors s).card

/-- **Extension.** The file has its new length, and the bytes it had. -/
theorem extend_with_spec {s : FileSys} {inode : Inode} {size offset : ℕ} (hr : Ready s)
    (h : FileOk s inode) (hlt : inode.data.length < offset + size)
    (hmax : offset + size ≤ 512 * MAX_BLOCKS)
    (hg : CanGrow s inode.data.length (offset + size)) :
    ∃ inode' s', extend_with add_blocks s inode size offset = .ok (inode', s') ∧
      inode'.data.length = offset + size ∧ Kept s s' inode inode' ∧
      ∀ p < inode.data.length,
        file_byte s'.disk inode'.data p = file_byte s.disk inode.data p := by
  set new_eof := offset + size with hnew
  have hM : MAX_BLOCKS = 16634 := rfl
  have hB : inode.data.blocks = (inode.data.length + 511) / 512 := rfl
  have hN : bytes_to_sectors new_eof = (new_eof + 511) / 512 := rfl
  obtain ⟨d₂, s₃, hgrow, hG⟩ : ∃ d₂ s₃,
      (if needs_blocks inode.data.length new_eof then add_blocks s inode new_eof
        else .ok (inode, s)) = .ok ({ inode with data := d₂ }, s₃) ∧
      Grew s s₃ inode.data d₂ (bytes_to_sectors new_eof) := by
    by_cases hneed : needs_blocks inode.data.length new_eof
    · obtain ⟨d₂, s₃, hadd, hG⟩ := add_blocks_spec hr h hneed (hg hneed).1 (hg hneed).2
      exact ⟨d₂, s₃, by rw [if_pos hneed, hadd], hG⟩
    · -- the new end of file is still in the last block
      have hsame : bytes_to_sectors new_eof = inode.data.blocks := by
        simp only [needs_blocks] at hneed
        split_ifs at hneed <;> omega
      refine ⟨inode.data, s, by rw [if_neg hneed], ?_⟩
      rw [hsame]
      exact Grew.refl hr h
  have hlen : d₂.length = inode.data.length := hG.header.length
  have hboot : FREE_MAP_SECTOR < s₃.capacity := hG.ok.disk.bits _ (hG.bits _ hr.boot)
  have harr : ∀ k, inode.data.length / 512 ≤ k → k < bytes_to_sectors new_eof →
      mem_slot s₃ d₂ (.data k) < s₃.capacity := by
    intro k hk hkN
    rcases hG.arrays k hk hkN with he | he
    · rw [he]
      exact hG.map.lt hG.ok.disk (σ := .data k) hkN
    · rw [he]
      exact hboot
  obtain ⟨disk₄, hfill, hsame, -⟩ := fill_zeros_loop_spec (d := d₂)
    (n := bytes_to_sectors new_eof) (by omega) (offset - inode.data.length - 1)
    inode.data.length (offset - inode.data.length - 1) s₃ le_rfl hG.ok.disk (by omega) harr
  have hsec : inode.sector < s₃.capacity := hG.ok.disk.bits _ (hG.bits _ h.used)
  set disk₅ := Function.update disk₄ inode.sector (inode_image { d₂ with length := new_eof })
    with hdisk₅
  obtain ⟨hK, hbytes⟩ := Grew.kept { clear_arrays s₃ with disk := disk₅ } hr h hlt hmax hG
    rfl (Function.update_self _ _ _) (by
      intro y j hyS hy0 hy
      change disk₅ y j = _
      rw [hdisk₅, Function.update_of_ne hyS]
      apply hsame
      intro k hk hkN he
      rcases hG.arrays k hk hkN with ha | ha
      · exact hy k hkN (he.trans ha)
      · exact absurd (he.trans ha) hy0)
  refine ⟨_, _, ?_, rfl, hK, hbytes⟩
  rw [extend_with, hgrow, ok_bind]
  simp only [fill_zeros, hlen, hfill, ok_bind]
  rw [disk_write_eq (s := clear_arrays { s₃ with disk := disk₄ }) _ hsec hG.ok.disk.capacity]
  rfl

/-! ## The whole call -/

/-- A file keeps through the write loop what it kept through the extension. -/
theorem Kept.wrote {s s₁ s₂ : FileSys} {inode inode' : Inode} {offset size : ℕ}
    {buf : ℕ → UInt8} (hK : Kept s s₁ inode inode')
    (hw : Wrote s₁ s₂ inode'.data inode'.data.blocks offset size buf) :
    Kept s s₂ inode inode' := by
  have hmap₂ : s₂.free_map = s₁.free_map := by rw [hw.rest]
  have hfile₂ : s₂.free_map_file = s₁.free_map_file := by rw [hw.rest]
  have hF := hK.fileOk
  have hslot : ∀ σ : Slot, σ.pos < inode'.data.blocks →
      disk_slot s₂.disk inode'.data σ = disk_slot s₁.disk inode'.data σ := fun σ hσ =>
    hw.slot hF.map hσ
  have hfindex : ∀ f, s₁.free_map_file = some f → ∀ τ : Slot, τ.pos < f.data.blocks →
      s₂.disk (disk_slot s₁.disk f.data τ) = s₁.disk (disk_slot s₁.disk f.data τ) := by
    intro f hf τ hpos
    apply hw.frame
    intro k hk he
    exact (hF.apart f hf τ hpos).2 (.data k) hk he.symm
  have hfslot : ∀ f, s₁.free_map_file = some f → ∀ τ : Slot, τ.pos < f.data.blocks →
      disk_slot s₂.disk f.data τ = disk_slot s₁.disk f.data τ := fun f hf τ hpos =>
    disk_slot_congr (fun υ _ hυ => hfindex f hf υ hυ) hpos
  have hsector : inode'.sector = inode.sector := by rw [hK.rest]
  refine ⟨hK.rest, hK.header, hK.fits, hK.length, hfile₂.trans hK.file, ?_, ?_, ?_, ?_, ?_, ?_, ?_,
    ⟨?_, ?_, ?_, ?_⟩, ⟨hw.mapOk hF.map, hF.max, ?_, ?_, ?_, ?_⟩⟩
  · simp only [FileSys.capacity, hmap₂]
    exact hK.capacity
  · rw [hw.rest]
    exact hK.iid
  · intro i hi
    rw [hmap₂]
    exact hK.bits i hi
  · intro σ hσ
    have hle : inode.data.blocks ≤ inode'.data.blocks := by
      have := hK.length
      simp only [InodeDisk.blocks, bytes_to_sectors]
      omega
    rw [hslot σ (by omega), hK.old σ hσ]
  · intro σ h1 h2
    rw [hslot σ h2]
    exact hK.fresh σ h1 h2
  · intro y hy h0 hS hF' hσ
    rw [hw.frame y ?_, hK.frame y hy h0 hS hF' hσ]
    intro k hk he
    -- a block of the file is an old one, or was free
    by_cases hkb : k < inode.data.blocks
    · exact hσ (.data k) hkb (he.trans (hK.old (.data k) hkb))
    · have hf := hK.fresh (.data k) (Nat.not_lt.mp hkb) hk
      rw [← block, ← he, hy] at hf
      cases hf
  · intro himg
    rw [hw.frame inode.sector ?_, hK.image himg]
    intro k hk he
    exact hF.own (.data k) hk (he.symm.trans hsector.symm)
  · exact hK.ready.ok.of_index hfile₂ hmap₂ (fun f hf τ _ hpos => hfindex f hf τ hpos)
  · rw [hw.rest]
    exact ⟨hK.ready.arrays.indirect, hK.ready.arrays.parent, hK.ready.arrays.doubly⟩
  · rw [hmap₂]
    exact hK.ready.boot
  · intro f hf τ hpos
    rw [hfile₂] at hf
    rw [hfslot f hf τ hpos]
    exact hK.ready.file_boot f hf τ hpos
  · rw [hmap₂]
    exact hF.used
  · intro σ hσ
    rw [hslot σ hσ]
    exact hF.own σ hσ
  · intro σ hσ
    rw [hslot σ hσ]
    exact hF.boot σ hσ
  · intro f hf τ hpos
    rw [hfile₂] at hf
    rw [hfslot f hf τ hpos]
    refine ⟨(hF.apart f hf τ hpos).1, ?_⟩
    intro σ hσ
    rw [hslot σ hσ]
    exact (hF.apart f hf τ hpos).2 σ hσ

/-- **`inode_write_at`** writes its whole buffer: the file is extended to the end
of the write if it was shorter, the range holds the buffer and the rest of the old
file is as it was. -/
theorem inode_write_at_spec {s : FileSys} {inode : Inode} {size offset : ℕ}
    (buffer : ℕ → UInt8) (hr : Ready s) (h : FileOk s inode) (hdeny : inode.deny_write_cnt = 0)
    (hmax : offset + size ≤ 512 * MAX_BLOCKS)
    (hg : CanGrow s inode.data.length (offset + size)) :
    ∃ inode' s', inode_write_at s inode buffer size offset = .ok (size, inode', s') ∧
      inode'.data.length = max inode.data.length (offset + size) ∧ Kept s s' inode inode' ∧
      (∀ i < size, file_byte s'.disk inode'.data (offset + i) = buffer i) ∧
      ∀ p < inode.data.length, ¬ (offset ≤ p ∧ p < offset + size) →
        file_byte s'.disk inode'.data p = file_byte s.disk inode.data p := by
  have hM : MAX_BLOCKS = 16634 := rfl
  have hov : ¬ 2 ^ 31 ≤ offset + size := by omega
  obtain ⟨inode₁, s₁, hext, hlen, hK, hbytes⟩ : ∃ inode₁ s₁,
      (if inode.data.length < offset + size then extend_with add_blocks s inode size offset
        else .ok (inode, s)) = .ok (inode₁, s₁) ∧
      inode₁.data.length = max inode.data.length (offset + size) ∧ Kept s s₁ inode inode₁ ∧
      ∀ p < inode.data.length,
        file_byte s₁.disk inode₁.data p = file_byte s.disk inode.data p := by
    by_cases hlt : inode.data.length < offset + size
    · obtain ⟨inode₁, s₁, hrun, hlen, hK, hbytes⟩ := extend_with_spec hr h hlt hmax hg
      refine ⟨inode₁, s₁, by rw [if_pos hlt, hrun], ?_, hK, hbytes⟩
      rw [hlen, max_eq_right hlt.le]
    · exact ⟨inode, s, by rw [if_neg hlt], (max_eq_left (by omega)).symm, Kept.refl hr h,
        fun _ _ => rfl⟩
  have hF := hK.fileOk
  obtain ⟨s₂, hloop, hw⟩ := write_loop_spec buffer hF.max size size offset 0 IndexCache.fresh s₁
    le_rfl (by rw [hlen]; exact le_max_right _ _) hK.ready.ok.disk hF.map (CacheOk.fresh _ _ _)
  simp only [Nat.zero_add] at hloop hw
  have hpos : ∀ p < inode₁.data.length, p < 512 * inode₁.data.blocks := by
    intro p hp
    simp only [InodeDisk.blocks, bytes_to_sectors]
    omega
  refine ⟨inode₁, s₂, ?_, hlen, hK.wrote hw, ?_, ?_⟩
  · rw [inode_write_at, inode_write_at_with, if_neg (by simp [hdeny]), if_neg hov, hext, ok_bind,
      hloop, ok_bind, pure_eq_ok]
  · intro i hi
    have hp : offset + i < inode₁.data.length := by
      rw [hlen]
      exact lt_of_lt_of_le (by omega) (le_max_right _ _)
    rw [hw.bytes _ (hpos _ hp), if_pos (by omega), Nat.add_sub_cancel_left]
  · intro p hp hout
    have hp' : p < inode₁.data.length := by
      rw [hlen]
      exact lt_of_lt_of_le hp (le_max_left _ _)
    rw [hw.bytes _ (hpos _ hp'), if_neg hout, hbytes p hp]

end Pintos.Filesys
