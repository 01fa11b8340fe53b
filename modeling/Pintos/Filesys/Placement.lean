/-
`inode_create` at every size, as far as the other inodes are concerned.

`Creation` shows that a file ending with a full row of the doubly indirect level costs sector 0
its contents. No inode of the store has its data in sector 0, and the free map's inode is in
memory, so even then the new inode and the others are in order (`Placed`).
-/
import Pintos.Filesys.Creation

set_option autoImplicit false

namespace Pintos.Filesys

open Pintos.Kernel WordImage

section Index

variable {s : FileSys} {d : InodeDisk} {n : ℕ}

/-- The write-back of a new file's arrays, whose row behind the last one was not assigned. -/
theorem write_index_any (hd : DiskOk s) (hm : MemMapOk s d n) (hmax : n ≤ MAX_BLOCKS)
    (hboot : FREE_MAP_SECTOR < s.capacity)
    (hne : ∀ σ : Slot, σ.pos < n → FREE_MAP_SECTOR ≠ mem_slot s d σ)
    (hpar : ∀ q, n = 250 + 128 * q → s.doubly_sec_parent q = FREE_MAP_SECTOR) :
    write_index s d n = .error .bounds ∨
      ∃ disk', write_index s d n = .ok { s with disk := disk' } ∧
        (∀ y, y ≠ FREE_MAP_SECTOR →
          (∀ σ : Slot, σ.IsIndex → σ.pos < n → y ≠ mem_slot s d σ) → disk' y = s.disk y) ∧
        (∀ σ : Slot, σ.pos < n → disk_slot disk' d σ = mem_slot s d σ) ∧
        (122 < n → disk' d.indirect_block = ofWords s.indirect_sec_idx) := by
  have hM : MAX_BLOCKS = 16634 := rfl
  have hfit : ∀ τ : Slot, τ.pos < n → mem_slot s d τ < 2 ^ 32 := by
    intro τ hτ
    have hlt := hm.lt hd hτ
    have hcap := hd.capacity
    omega
  by_cases hrows : 250 < n ∧ (n - 250) % 128 = 0
  swap
  · have hf : FlushOk n n n :=
      CreateOk.flushOk ⟨hmax, fun h250 hmod => hrows ⟨h250, hmod⟩⟩
    obtain ⟨disk', hrun, hfl, hframe⟩ := write_index_sectors hd (hm.index hd) hf
    exact Or.inr ⟨disk', hrun, fun y _ hy => hframe y hy, fun σ hσ => hfl.slot hfit hf hσ,
      hfl.indirect⟩
  -- all but the row behind the last one is as with one block less
  obtain ⟨q, hq, hn⟩ : ∃ q, 1 ≤ q ∧ n = 250 + 128 * q := ⟨(n - 250) / 128, by omega, by omega⟩
  have hf : FlushOk (n - 1) n n := by
    constructor <;> omega
  obtain ⟨disk', hrun, hfl, hframe⟩ := write_index_sectors hd (hm.index hd) hf
  have hfull : write_index s d n = write_children 1 q { s with disk := disk' } := by
    have hsplit := write_index_full s d hq
    rw [← hn, hrun, ok_bind] at hsplit
    exact hsplit
  rw [hfull]
  by_cases hend : 128 ≤ q
  · left
    rw [write_children, if_pos hend]
  right
  set disk'' := Function.update disk' FREE_MAP_SECTOR (ofWords (row s.doubly_sec_idx q)) with hdisk
  have hkeep : ∀ y, y ≠ FREE_MAP_SECTOR → disk'' y = disk' y := fun y hy =>
    Function.update_of_ne hy _ _
  have hslot : ∀ σ : Slot, σ.pos < n → disk_slot disk' d σ = mem_slot s d σ := fun σ hσ =>
    hfl.slot hfit hf hσ
  refine ⟨disk'', ?_, ?_, ?_, ?_⟩
  · rw [write_children, if_neg hend]
    change (do
      let s ← disk_write { s with disk := disk' } (s.doubly_sec_parent q)
        (ofWords (row s.doubly_sec_idx q))
      write_children 0 (q + 1) s) = _
    rw [hpar q hn, disk_write_eq (s := { s with disk := disk' }) _ hboot hd.capacity, ok_bind]
    rfl
  · intro y hy0 hy
    rw [hkeep y hy0, hframe y hy]
  · intro σ hσ
    rw [disk_slot_congr (fun τ _ hτ => hkeep _ ?_) hσ, hslot σ hσ]
    rw [hslot τ hτ]
    exact (hne τ hτ).symm
  · intro h122
    have hind : d.indirect_block ≠ FREE_MAP_SECTOR := (hne .indirect h122).symm
    rw [hkeep _ hind, hfl.indirect (by omega)]

end Index

/-- **`inode_create`** at every size up to the maximum, with enough free sectors: it leaves its
array, or the inode is placed. The entry behind the last one of an indirect block is zero. -/
theorem inode_create_placed {s : FileSys} {sector : ℕ} (length : ℕ) (isdir : Bool) (hr : Ready s)
    (hused : s.free_map.bits sector = true) (hsec0 : sector ≠ FREE_MAP_SECTOR)
    (hfile : ∀ f, s.free_map_file = some f → ∀ τ : Slot, τ.pos < f.data.blocks →
      disk_slot s.disk f.data τ ≠ sector)
    (hmax : bytes_to_sectors length ≤ MAX_BLOCKS)
    (hfree : (slotsFrom (bytes_to_sectors length) 0).length ≤ (free_sectors s).card) :
    inode_create s sector length isdir = .error .bounds ∨
      ∃ d s', inode_create s sector length isdir = .ok (true, s') ∧ Placed s s' sector d ∧
        d.length = length ∧ d.isdir = isdir ∧ s'.capacity = s.capacity ∧
        (free_sectors s').card + (slotsFrom (bytes_to_sectors length) 0).length =
          (free_sectors s).card ∧
        (122 < d.blocks → d.blocks < 250 → word (s'.disk d.indirect_block) (d.blocks - 122) = 0) := by
  have hM : MAX_BLOCKS = 16634 := rfl
  have hN : bytes_to_sectors length = (length + 511) / 512 := rfl
  have hok := hr.ok
  set n := bytes_to_sectors length with hn
  set s₀ : FileSys := { s with next_iid := s.next_iid + 1 } with hs₀
  have hok₀ : FsOk s₀ := hok.of_index rfl rfl (fun _ _ _ _ _ => rfl)
  set d₀ := blank_inode (s.next_iid % 2 ^ 32) length isdir with hd₀
  obtain ⟨d, s₁, halloc, hA⟩ := free_map_allocate_index_spec n 0 s₀ d₀ hok₀ (by omega) hfree
  have hmem : MemMapOk s₁ d n := by
    have := hA.memMapOk (s := s₀) (d := d₀) ⟨fun σ τ hσ => by omega, fun σ hσ => by omega⟩ rfl
      (fun σ hσ => by omega)
    rwa [Nat.zero_add] at this
  have hfresh : ∀ σ : Slot, σ.pos < n → s.free_map.bits (mem_slot s₁ d σ) = false := fun σ hσ =>
    hA.fresh σ (mem_slotsFrom.mpr ⟨Nat.zero_le _, by omega⟩)
  have hne : ∀ (σ : Slot) (y : ℕ), σ.pos < n → s.free_map.bits y = true →
      y ≠ mem_slot s₁ d σ := by
    intro σ y hσ hy he
    have hfree := hfresh σ hσ
    rw [← he, hy] at hfree
    cases hfree
  have hused₁ : ∀ i, s.free_map.bits i = true → s₁.free_map.bits i = true := fun i hi =>
    (hA.bits i).mpr (Or.inl hi)
  have hsec : sector < s₁.capacity := hA.ok.disk.bits _ (hused₁ _ hused)
  have hblocks : d.blocks = n := by
    simp only [InodeDisk.blocks, hA.header.length]
    rfl
  -- entries behind the last block were not assigned
  have hpar : ∀ q, n = 250 + 128 * q → s₁.doubly_sec_parent q = FREE_MAP_SECTOR := by
    intro q hq
    have hold := hA.old (.parent q) (by rw [mem_slotsFrom]; simp only [Slot.pos]; omega)
    simp only [mem_slot] at hold
    rw [hold, hs₀, hr.arrays.parent]
  have htail : 122 < n → n < 250 → s₁.indirect_sec_idx (n - 122) = 0 := by
    intro h122 h250
    have hold := hA.old (.data n) (by rw [mem_slotsFrom]; simp only [Slot.pos]; omega)
    simp only [mem_slot, if_neg (show ¬ n < 122 by omega), if_pos h250] at hold
    rw [hold, hs₀, hr.arrays.indirect]
  set s₂ : FileSys := { s₁ with disk := Function.update s₁.disk sector (inode_image d) } with hs₂
  have hmem₂ : MemMapOk s₂ d n := ⟨hmem.inj, hmem.used⟩
  have hd₂ : DiskOk s₂ := ⟨hA.ok.disk.capacity, hA.ok.disk.bits⟩
  have hstart : inode_create s sector length isdir = (do
      let s ← write_index s₂ d n
      let s ← zero_blocks d n 0 s
      return (true, clear_arrays s)) := by
    rw [inode_create, ← hs₀, ← hd₀, ← hn, halloc, ok_bind, if_pos rfl,
      disk_write_eq (inode_image d) hsec hA.ok.disk.capacity, ok_bind]
  rw [hstart]
  rcases write_index_any hd₂ hmem₂ hmax (hA.ok.disk.bits _ (hused₁ _ hr.boot))
    (fun σ hσ => hne σ _ hσ hr.boot) hpar with herror | ⟨disk₃, hwrite, hframe₃, hslot₃, hind₃⟩
  · left
    rw [herror]
    rfl
  right
  obtain ⟨disk₄, hzero, hframe₄, -⟩ := zero_blocks_spec (d := d) n 0 { s₂ with disk := disk₃ }
    ⟨hd₂.capacity, hd₂.bits⟩ (by omega) (fun k _ hk => hmem₂.lt hd₂ (σ := .data k) (by
      simp only [Slot.pos]; omega))
  -- index sectors are not zeroed
  have hindex : ∀ τ : Slot, τ.IsIndex → τ.pos < n →
      disk₄ (mem_slot s₁ d τ) = disk₃ (mem_slot s₁ d τ) := by
    intro τ hτ hpos
    apply hframe₄
    intro k _ hk he
    have hsame := hmem.inj τ (.data k) hpos (by simp only [Slot.pos]; omega) he
    subst hsame
    exact hτ
  have hslot₄ : ∀ σ : Slot, σ.pos < n → disk_slot disk₄ d σ = mem_slot s₁ d σ := by
    intro σ hσ
    rw [disk_slot_congr (fun τ hτ hpos => ?_) hσ]
    · exact hslot₃ σ hσ
    · rw [hslot₃ τ hpos]
      exact hindex τ hτ hpos
  have hframe : ∀ y, s.free_map.bits y = true → y ≠ FREE_MAP_SECTOR → disk₄ y = s₂.disk y := by
    intro y hy hy0
    calc disk₄ y = disk₃ y :=
          hframe₄ y (fun k _ hk => hne (.data k) y (by simp only [Slot.pos]; omega) hy)
      _ = s₂.disk y := hframe₃ y hy0 (fun σ _ hσ => hne σ y hσ hy)
  have hfmd : ∀ y, FreeMapData s₀ y ↔ FreeMapData s y := fun y => Iff.rfl
  have hfslot : ∀ f, s.free_map_file = some f → ∀ τ : Slot, τ.pos < f.data.blocks →
      disk₄ (disk_slot s₁.disk f.data τ) = s₁.disk (disk_slot s₁.disk f.data τ) := by
    intro f hf τ hpos
    have hfo := hok.file f hf
    have hsame : disk_slot s₁.disk f.data τ = disk_slot s.disk f.data τ := by
      refine disk_slot_congr (fun υ hυ hυpos => ?_) hpos
      exact hA.disk _ (by rw [hfmd]; exact not_freeMapData_index hf hfo υ hυ hυpos)
    rw [hsame, hframe _ (hfo.map.used τ hpos) (hr.file_boot f hf τ hpos)]
    exact Function.update_of_ne (hfile f hf τ hpos) _ _
  refine ⟨d, clear_arrays { s₁ with disk := disk₄ }, ?_,
    ⟨hA.file, hused₁, ?_, ⟨?_, ?_⟩, ?_, ?_, ?_, ⟨rfl, rfl, rfl⟩, ?_⟩, hA.header.length,
    hA.header.isdir, hA.capacity, hA.free, ?_⟩
  · rw [hwrite, ok_bind, hzero, ok_bind, pure_eq_ok]
  · intro σ hσ
    rw [hblocks] at hσ
    change s.free_map.bits (disk_slot disk₄ d σ) = false
    rw [hslot₄ σ hσ]
    exact hfresh σ hσ
  · intro σ τ hσ hτ he
    rw [hblocks] at hσ hτ
    change disk_slot disk₄ d σ = disk_slot disk₄ d τ at he
    rw [hslot₄ σ hσ, hslot₄ τ hτ] at he
    exact hmem.inj σ τ hσ hτ he
  · intro σ hσ
    rw [hblocks] at hσ
    change s₁.free_map.bits (disk_slot disk₄ d σ) = true
    rw [hslot₄ σ hσ]
    exact hmem.used σ hσ
  · exact (hframe sector hused hsec0).trans (Function.update_self _ _ _)
  · intro y hy hyS hy0 hyF
    change disk₄ y = _
    rw [hframe y hy hy0, hs₂]
    change Function.update s₁.disk sector (inode_image d) y = _
    rw [Function.update_of_ne hyS, hA.disk y (by rwa [hfmd])]
  · exact hA.ok.of_index rfl rfl (fun f hf τ _ hpos => hfslot f (hA.file.symm.trans hf) τ hpos)
  · exact hA.fits (blank_inode_fits isdir (Nat.mod_lt _ (by norm_num)) (by omega))
  · intro h122 h250
    rw [hblocks] at h122 h250 ⊢
    change word (disk₄ d.indirect_block) (n - 122) = 0
    have hsame : disk₄ d.indirect_block = disk₃ d.indirect_block := hindex .indirect trivial h122
    have hzero : s₂.indirect_sec_idx (n - 122) = 0 := htail h122 h250
    rw [hsame, hind₃ h122, word_ofWords _ _ (by rw [hzero]; norm_num), hzero]

end Pintos.Filesys
