/-
What `free_map_allocate_index` allocates.

Three layers, each citing the one below. `bitmap_write` overwrites the free-map
file and nothing else. `take_sector` hands out one sector that was free and
marks it. A round of `free_map_allocate_index` fills the slots that `slotsOf`
lists for its index, so a run of it fills the slots of a range of blocks with
distinct sectors that were free, provided there are that many (`Allocated`).
-/
import Pintos.Filesys.FileIo

set_option autoImplicit false

namespace Pintos.Filesys

open Pintos.Kernel WordImage

/-! ## The free-map file -/

/-- The free-map file is a well-formed file of exactly the map's size. -/
structure FreeFileOk (s : FileSys) (f : Inode) : Prop where
  map : MapOk s f.data f.data.blocks
  max : f.data.blocks ≤ MAX_BLOCKS
  length : f.data.length = byte_cnt s.capacity
  writable : f.deny_write_cnt = 0

/-- The disk is in order and so is the free-map file, once there is one. -/
structure FsOk (s : FileSys) : Prop where
  disk : DiskOk s
  file : ∀ f, s.free_map_file = some f → FreeFileOk s f

/-- The sectors that hold the contents of the free-map file. -/
def FreeMapData (s : FileSys) (y : ℕ) : Prop :=
  ∃ f, s.free_map_file = some f ∧ ∃ k < f.data.blocks, y = block s.disk f.data k

/-- `s'` differs from `s` in the free map and on the contents of the free-map
file only. -/
structure SameBut (s s' : FileSys) : Prop where
  rest : s' = { s with free_map := s'.free_map, disk := s'.disk }
  disk : ∀ y, ¬ FreeMapData s y → s'.disk y = s.disk y

/-- An index sector of the free-map file is not one of its data sectors. -/
theorem not_freeMapData_index {s : FileSys} {f : Inode} (hf : s.free_map_file = some f)
    (hok : FreeFileOk s f) (τ : Slot) (hτ : τ.IsIndex) (hpos : τ.pos < f.data.blocks) :
    ¬ FreeMapData s (disk_slot s.disk f.data τ) := by
  rintro ⟨g, hg, k, hk, he⟩
  obtain rfl : f = g := by
    rw [hf] at hg
    exact Option.some.inj hg
  have := hok.map.inj τ (.data k) hpos hk he
  subst this
  exact hτ

theorem SameBut.refl (s : FileSys) : SameBut s s := ⟨rfl, fun _ _ => rfl⟩

theorem SameBut.file {s s' : FileSys} (h : SameBut s s') : s'.free_map_file = s.free_map_file := by
  rw [h.rest]

/-- The free-map file has the same data sectors before and after. -/
theorem SameBut.freeMapData {s s' : FileSys} (h : SameBut s s') (hok : FsOk s) {y : ℕ} :
    FreeMapData s' y ↔ FreeMapData s y := by
  have hslot : ∀ f, s.free_map_file = some f → ∀ k < f.data.blocks,
      block s'.disk f.data k = block s.disk f.data k := by
    intro f hf k hk
    exact disk_slot_congr (σ := .data k)
      (fun τ hτ hpos => h.disk _ (not_freeMapData_index hf (hok.file f hf) τ hτ hpos)) hk
  constructor
  · rintro ⟨f, hf, k, hk, rfl⟩
    rw [h.file] at hf
    exact ⟨f, hf, k, hk, hslot f hf k hk⟩
  · rintro ⟨f, hf, k, hk, rfl⟩
    exact ⟨f, by rw [h.file, hf], k, hk, (hslot f hf k hk).symm⟩

theorem SameBut.trans {s₁ s₂ s₃ : FileSys} (hok : FsOk s₁) (h₁ : SameBut s₁ s₂)
    (h₂ : SameBut s₂ s₃) : SameBut s₁ s₃ where
  rest := by rw [h₂.rest, h₁.rest]
  disk y hy := by
    rw [h₂.disk y (by rwa [h₁.freeMapData hok]), h₁.disk y hy]

/-- The file system stays in order when the free map gains bits inside the disk
and only the free-map file's contents change. -/
theorem FsOk.sameBut {s s' : FileSys} (hok : FsOk s) (h : SameBut s s')
    (hcnt : s'.capacity = s.capacity)
    (hbits : ∀ i, s.free_map.bits i = true → s'.free_map.bits i = true)
    (hlt : ∀ i, s'.free_map.bits i = true → i < s.capacity) : FsOk s' where
  disk := ⟨by rw [hcnt]; exact hok.disk.capacity, fun i hi => by rw [hcnt]; exact hlt i hi⟩
  file f hf := by
    rw [h.file] at hf
    have hfo := hok.file f hf
    refine ⟨hfo.map.frame ?_ hbits, hfo.max, by rw [hcnt]; exact hfo.length, hfo.writable⟩
    intro τ hτ hpos
    exact h.disk _ (not_freeMapData_index hf hfo τ hτ hpos)

/-- **`bitmap_write`** succeeds and overwrites the contents of the free-map file
with the map. -/
theorem bitmap_write_spec {s : FileSys} {f : Inode} (hok : FsOk s)
    (hf : s.free_map_file = some f) :
    ∃ s', bitmap_write s = .ok (true, s') ∧
      Wrote s s' f.data f.data.blocks 0 (byte_cnt s.capacity) (bitmap_bytes s.free_map) := by
  have hfo := hok.file f hf
  have hcap := hok.disk.capacity
  have hsz : byte_cnt s.capacity < 2 ^ 31 := by
    simp only [byte_cnt]
    omega
  obtain ⟨s', hrun, hw⟩ := write_loop_spec (bitmap_bytes s.free_map) hfo.max
    (byte_cnt s.capacity) (byte_cnt s.capacity) 0 0 IndexCache.fresh s le_rfl
    (by rw [hfo.length]; omega) hok.disk hfo.map (CacheOk.fresh _ _ _)
  have hfile : s'.free_map_file = some f := by rw [hw.rest]; exact hf
  refine ⟨s', ?_, by simpa only [Nat.zero_add] using hw⟩
  simp only [bitmap_write, hf, inode_write_at_with, hfo.writable]
  have hno : ¬ 2 ^ 31 ≤ 0 + byte_cnt s.free_map.bit_cnt := by
    change ¬ 2 ^ 31 ≤ 0 + byte_cnt s.capacity
    omega
  have hin : ¬ f.data.length < 0 + byte_cnt s.free_map.bit_cnt := by
    rw [hfo.length]
    change ¬ byte_cnt s.capacity < 0 + byte_cnt s.capacity
    omega
  rw [if_neg (by simp), if_neg hno, if_neg hin, ok_bind, hrun, ok_bind, pure_eq_ok, ok_bind]
  simp only [Nat.zero_add, beq_self_eq_true, pure_eq_ok]
  rw [← hfile]

/-- The free map may change under a write of its file. -/
theorem Wrote.sameBut {s s' : FileSys} {f : Inode} {offset size : ℕ} {buf : ℕ → UInt8}
    (hf : s.free_map_file = some f)
    (h : Wrote s s' f.data f.data.blocks offset size buf) : SameBut s s' where
  rest := by rw [h.rest]
  disk y hy := by
    apply h.frame
    intro k hk he
    exact hy ⟨f, hf, k, hk, he⟩

/-! ## Taking one sector -/

/-- The free-map file holds the free map. -/
def Synced (s : FileSys) : Prop :=
  ∀ f, s.free_map_file = some f → ∀ p < byte_cnt s.capacity,
    file_byte s.disk f.data p = bitmap_bytes s.free_map p

/-- `bitmap_write` brings the file up to date. -/
theorem Wrote.synced {s s' : FileSys} {f : Inode} (hok : FsOk s) (hf : s.free_map_file = some f)
    (h : Wrote s s' f.data f.data.blocks 0 (byte_cnt s.capacity) (bitmap_bytes s.free_map)) :
    Synced s' := by
  intro g hg p hp
  have hmap : s'.free_map = s.free_map := by rw [h.rest]
  obtain rfl : f = g := by
    rw [h.rest] at hg
    exact Option.some.inj (hf.symm.trans hg)
  simp only [FileSys.capacity, hmap] at hp
  have hlen : f.data.length = byte_cnt s.free_map.bit_cnt := (hok.file f hf).length
  have hin : p < 512 * f.data.blocks := by
    simp only [InodeDisk.blocks, bytes_to_sectors, hlen]
    omega
  rw [h.bytes p hin, if_pos ⟨Nat.zero_le p, by simp only [FileSys.capacity]; omega⟩, hmap,
    Nat.sub_zero]

/-- `s'` is `s` after one free sector `x` was taken. -/
structure Took (s s' : FileSys) (x : ℕ) : Prop where
  free : s.free_map.bits x = false
  lt : x < s.capacity
  map : s'.free_map = { s.free_map with bits := Function.update s.free_map.bits x true }
  same : SameBut s s'
  synced : Synced s'

/-- The free sectors. -/
def free_sectors (s : FileSys) : Finset ℕ :=
  (Finset.range s.capacity).filter (fun i => s.free_map.bits i = false)

theorem mem_free_sectors {s : FileSys} {i : ℕ} :
    i ∈ free_sectors s ↔ i < s.capacity ∧ s.free_map.bits i = false := by
  simp [free_sectors]

theorem Took.bits {s s' : FileSys} {x i : ℕ} (h : Took s s' x) :
    s'.free_map.bits i = true ↔ s.free_map.bits i = true ∨ i = x := by
  rw [h.map]
  by_cases hi : i = x
  · simp [hi]
  · simp [hi]

theorem Took.capacity {s s' : FileSys} {x : ℕ} (h : Took s s' x) :
    s'.capacity = s.capacity := by
  simp only [FileSys.capacity, h.map]

theorem Took.fsOk {s s' : FileSys} {x : ℕ} (h : Took s s' x) (hok : FsOk s) : FsOk s' := by
  refine hok.sameBut h.same h.capacity (fun i hi => h.bits.mpr (Or.inl hi)) ?_
  intro i hi
  rcases h.bits.mp hi with hi | rfl
  · exact hok.disk.bits i hi
  · exact h.lt

/-- Marking a sector in the map keeps the file system in order. -/
theorem FsOk.mark {s : FileSys} (hok : FsOk s) {x : ℕ} (hx : x < s.capacity) :
    FsOk { s with
      free_map := { s.free_map with bits := Function.update s.free_map.bits x true } } := by
  refine hok.sameBut ⟨rfl, fun _ _ => rfl⟩ rfl ?_ ?_
  · intro i hi
    by_cases hix : i = x
    · simp [hix]
    · simpa [hix] using hi
  · intro i hi
    by_cases hix : i = x
    · rw [hix]
      exact hx
    · simp only [Function.update_of_ne hix] at hi
      exact hok.disk.bits i hi

theorem Took.free_sectors_card {s s' : FileSys} {x : ℕ} (h : Took s s' x) :
    (free_sectors s').card + 1 = (free_sectors s).card := by
  have hmem : x ∈ free_sectors s := mem_free_sectors.mpr ⟨h.lt, h.free⟩
  have herase : free_sectors s' = (free_sectors s).erase x := by
    ext i
    rw [Finset.mem_erase, mem_free_sectors, mem_free_sectors, h.capacity, h.map]
    by_cases hi : i = x
    · simp [hi]
    · simp [hi]
  rw [herase, Finset.card_erase_add_one hmem]

/-- **`take_sector`** takes a free sector while there is one. -/
theorem take_sector_spec {s : FileSys} (hok : FsOk s) (hfree : 0 < (free_sectors s).card) :
    ∃ x s', take_sector s = .ok (some x, s') ∧ Took s s' x := by
  obtain ⟨i, hi⟩ := Finset.card_pos.mp hfree
  rw [mem_free_sectors] at hi
  obtain ⟨x, hx, hxf, hscan⟩ := bitmap_scan_and_flip_one ⟨i, hi⟩
  set s₁ : FileSys := { s with
    free_map := { s.free_map with bits := Function.update s.free_map.bits x true } } with hs₁
  have hsame₁ : SameBut s s₁ := ⟨rfl, fun _ _ => rfl⟩
  cases hf : s.free_map_file with
  | none =>
    refine ⟨x, s₁, ?_, hxf, hx, rfl, hsame₁, fun f hf' => by
      rw [hs₁, hf] at hf'
      cases hf'⟩
    simp only [take_sector, hscan, ok_bind, hf, Option.isSome_none, Bool.false_eq_true,
      if_false, pure_eq_ok]
    rw [hs₁, hf]
  | some f =>
    have hf₁ : s₁.free_map_file = some f := hf
    have hok₁ : FsOk s₁ := hok.mark hx
    obtain ⟨s₂, hbw, hw⟩ := bitmap_write_spec hok₁ hf₁
    refine ⟨x, s₂, ?_, hxf, hx, ?_, hsame₁.trans hok (hw.sameBut hf₁),
      hw.synced hok₁ hf₁⟩
    · simp only [take_sector, hscan, ok_bind, hf, Option.isSome_some, if_true]
      rw [hs₁, hf] at hbw
      rw [hbw, ok_bind, if_pos rfl, pure_eq_ok]
    · rw [hw.rest]

theorem Took.ne_error {s s' : FileSys} {x : ℕ} (h : Took s s' x) (hok : FsOk s) :
    x ≠ BITMAP_ERROR := by
  have h1 := h.lt
  have h2 := hok.disk.capacity
  simp only [BITMAP_ERROR]
  omega

end Pintos.Filesys
