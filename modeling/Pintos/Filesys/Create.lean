/-
Creating an inode and releasing one.

`inode_create` allocates into clear arrays, writes the inode and the index and
zeroes the data blocks. `free_map_release` gives one sector back. Both are
specified as changes to the free map and the disk that leave every other sector
in use alone, which is all that ownership needs of them.
-/
import Pintos.Filesys.Growth

set_option autoImplicit false

namespace Pintos.Filesys

open Pintos.Kernel WordImage

/-! ## `inode_create` -/

/-- The zeroing loop writes only data sectors of the new file, and clears each of
them if no two blocks have the same one. -/
theorem zero_blocks_spec {d : InodeDisk} : ∀ (cnt i : ℕ) (s : FileSys), DiskOk s →
    i + cnt ≤ MAX_BLOCKS →
    (∀ k, i ≤ k → k < i + cnt → mem_slot s d (.data k) < s.capacity) →
    ∃ disk', zero_blocks d cnt i s = .ok { s with disk := disk' } ∧
      (∀ y, (∀ k, i ≤ k → k < i + cnt → y ≠ mem_slot s d (.data k)) → disk' y = s.disk y) ∧
      ((∀ k l, i ≤ k → k < l → l < i + cnt →
        mem_slot s d (.data k) ≠ mem_slot s d (.data l)) →
        ∀ k, i ≤ k → k < i + cnt → disk' (mem_slot s d (.data k)) = fun _ => 0) := by
  intro cnt
  induction cnt with
  | zero =>
    intro i s _ _ _
    exact ⟨s.disk, rfl, fun _ _ => rfl, fun _ k _ _ => by omega⟩
  | succ cnt ih =>
    intro i s hd hmax hlt
    set s₁ : FileSys := { s with
      disk := Function.update s.disk (mem_slot s d (.data i)) (fun _ => 0) } with hs₁
    obtain ⟨disk', hrun, hframe, hzero⟩ := ih (i + 1) s₁ ⟨hd.capacity, hd.bits⟩ (by omega)
      (fun k hk hk' => hlt k (by omega) (by omega))
    refine ⟨disk', ?_, ?_, ?_⟩
    · rw [zero_blocks, array_sector_eq _ _ (by omega), ok_bind,
        disk_write_eq _ (hlt i le_rfl (by omega)) hd.capacity, ok_bind]
      exact hrun
    · intro y hy
      rw [hframe y (fun k hk hk' => hy k (by omega) (by omega))]
      exact Function.update_of_ne (hy i le_rfl (by omega)) _ _
    · intro hinj k hk hk'
      by_cases hki : k = i
      · -- block `i` is cleared first, and no later block has its sector
        subst hki
        rw [hframe _ (fun l hl hl' => hinj k l le_rfl (by omega) (by omega)), hs₁]
        exact Function.update_self _ _ _
      · exact hzero (fun a b ha hab hb => hinj a b (by omega) hab (by omega)) k (by omega)
          (by omega)

/-- A new inode `d` in `sector`: its blocks were free, and no other sector in use
was written but the free map's own. -/
structure Created (s s' : FileSys) (sector : ℕ) (d : InodeDisk) : Prop where
  file : s'.free_map_file = s.free_map_file
  capacity : s'.capacity = s.capacity
  bits : ∀ i, s.free_map.bits i = true → s'.free_map.bits i = true
  fresh : ∀ σ : Slot, σ.pos < d.blocks → s.free_map.bits (disk_slot s'.disk d σ) = false
  free : (free_sectors s').card + (slotsFrom d.blocks 0).length = (free_sectors s).card
  map : MapOk s' d d.blocks
  image : s'.disk sector = inode_image d
  frame : ∀ y, s.free_map.bits y = true → y ≠ sector → ¬ FreeMapData s y →
    s'.disk y = s.disk y
  synced : Synced s → Synced s'
  ok : FsOk s'
  arrays : ArraysClear s'
  fits : d.Fits
  zero : ∀ k < d.blocks, s'.disk (block s'.disk d k) = fun _ => 0

/-- What is left of `Created` for the inodes of the store when sector 0 may have been written
as well. -/
structure Placed (s s' : FileSys) (sector : ℕ) (d : InodeDisk) : Prop where
  file : s'.free_map_file = s.free_map_file
  bits : ∀ i, s.free_map.bits i = true → s'.free_map.bits i = true
  fresh : ∀ σ : Slot, σ.pos < d.blocks → s.free_map.bits (disk_slot s'.disk d σ) = false
  map : MapOk s' d d.blocks
  image : s'.disk sector = inode_image d
  frame : ∀ y, s.free_map.bits y = true → y ≠ sector → y ≠ FREE_MAP_SECTOR → ¬ FreeMapData s y →
    s'.disk y = s.disk y
  ok : FsOk s'
  arrays : ArraysClear s'
  fits : d.Fits

theorem Created.placed {s s' : FileSys} {sector : ℕ} {d : InodeDisk} (h : Created s s' sector d) :
    Placed s s' sector d where
  file := h.file
  bits := h.bits
  fresh := h.fresh
  map := h.map
  image := h.image
  frame y hy hsec _ hF := h.frame y hy hsec hF
  ok := h.ok
  arrays := h.arrays
  fits := h.fits

/-- The numbers of blocks `inode_create` can lay out: past block 250, not a whole
number of rows, since the write-back also writes the row after the last one. -/
structure CreateOk (sectors : ℕ) : Prop where
  max : sectors ≤ MAX_BLOCKS
  rows : 250 < sectors → (sectors - 250) % 128 ≠ 0

theorem CreateOk.flushOk {sectors : ℕ} (h : CreateOk sectors) :
    FlushOk sectors sectors sectors := by
  have hrows := h.rows
  refine ⟨le_rfl, by omega, le_rfl, h.max, id, id, ?_⟩
  intro hn
  have := hrows hn
  omega

/-- The inode `inode_create` starts from has its fields in range. -/
theorem blank_inode_fits {inode_i length : ℕ} (isdir : Bool) (hi : inode_i < 2 ^ 32)
    (hl : length < 2 ^ 32) : (blank_inode inode_i length isdir).Fits where
  inode_i := hi
  length := hl
  magic := (by decide : INODE_MAGIC < 2 ^ 32)
  direct _ := (by norm_num : 0 < 2 ^ 32)
  direct_end _ _ := rfl
  indirect := (by norm_num : 0 < 2 ^ 32)
  doubly := (by norm_num : 0 < 2 ^ 32)

/-- **`inode_create`** succeeds with enough free sectors and a number of blocks it
can lay out. -/
theorem inode_create_spec {s : FileSys} {sector : ℕ} (length : ℕ) (isdir : Bool) (hok : FsOk s)
    (hused : s.free_map.bits sector = true)
    (hfile : ∀ f, s.free_map_file = some f → ∀ τ : Slot, τ.pos < f.data.blocks →
      disk_slot s.disk f.data τ ≠ sector)
    (hc : CreateOk (bytes_to_sectors length))
    (hfree : (slotsFrom (bytes_to_sectors length) 0).length ≤ (free_sectors s).card) :
    ∃ d s', inode_create s sector length isdir = .ok (true, s') ∧ Created s s' sector d ∧
      d.length = length := by
  set n := bytes_to_sectors length with hn
  have hN : bytes_to_sectors length = (length + 511) / 512 := rfl
  have hM : MAX_BLOCKS = 16634 := rfl
  have hmaxn := hc.max
  set s₀ : FileSys := { s with next_iid := s.next_iid + 1 } with hs₀
  have hok₀ : FsOk s₀ := hok.of_index rfl rfl (fun _ _ _ _ _ => rfl)
  set d₀ := blank_inode (s.next_iid % 2 ^ 32) length isdir with hd₀
  obtain ⟨d, s₁, halloc, hA⟩ := free_map_allocate_index_spec n 0 s₀ d₀ hok₀ (by omega) hfree
  have hmem : MemMapOk s₁ d n := by
    -- the empty map is well formed whatever the disk holds
    have := hA.memMapOk (s := s₀) (d := d₀) ⟨fun σ τ hσ => by omega, fun σ hσ => by omega⟩ rfl
      (fun σ hσ => by omega)
    rwa [Nat.zero_add] at this
  have hfresh : ∀ σ : Slot, σ.pos < n → s.free_map.bits (mem_slot s₁ d σ) = false := fun σ hσ =>
    hA.fresh σ (mem_slotsFrom.mpr ⟨Nat.zero_le _, by omega⟩)
  -- so a slot is no sector that was in use
  have hne : ∀ (σ : Slot) (y : ℕ), σ.pos < n → s.free_map.bits y = true →
      y ≠ mem_slot s₁ d σ := by
    intro σ y hσ hy he
    have := hfresh σ hσ
    rw [← he, hy] at this
    cases this
  have hused₁ : ∀ i, s.free_map.bits i = true → s₁.free_map.bits i = true := fun i hi =>
    (hA.bits i).mpr (Or.inl hi)
  have hsec : sector < s₁.capacity := hA.ok.disk.bits _ (hused₁ _ hused)
  set s₂ : FileSys := { s₁ with disk := Function.update s₁.disk sector (inode_image d) } with hs₂
  have hmem₂ : MemMapOk s₂ d n := ⟨hmem.inj, hmem.used⟩
  have hd₂ : DiskOk s₂ := ⟨hA.ok.disk.capacity, hA.ok.disk.bits⟩
  obtain ⟨disk₃, hwrite, hframe₃, hslot₃⟩ := write_index_spec hd₂ hmem₂ hc.flushOk
  obtain ⟨disk₄, hzero, hframe₄, hclear₄⟩ := zero_blocks_spec (d := d) n 0 { s₂ with disk := disk₃ }
    ⟨hd₂.capacity, hd₂.bits⟩ (by omega) (fun k _ hk => hmem₂.lt hd₂ (σ := .data k) (by
      simp only [Slot.pos]; omega))
  -- index sectors are not zeroed
  have hindex : ∀ τ : Slot, τ.IsIndex → τ.pos < n →
      disk₄ (disk_slot disk₃ d τ) = disk₃ (disk_slot disk₃ d τ) := by
    intro τ hτ hpos
    apply hframe₄
    intro k _ hk he
    rw [hslot₃ τ hpos] at he
    have := hmem.inj τ (.data k) hpos (by simp only [Slot.pos]; omega) he
    subst this
    exact hτ
  have hslot₄ : ∀ σ : Slot, σ.pos < n → disk_slot disk₄ d σ = mem_slot s₁ d σ := by
    intro σ hσ
    rw [disk_slot_congr hindex hσ, hslot₃ σ hσ]
    rfl
  have hframe : ∀ y, s.free_map.bits y = true → y ≠ sector → disk₄ y = s₁.disk y := by
    intro y hy hyS
    calc disk₄ y = disk₃ y :=
          hframe₄ y (fun k _ hk => hne (.data k) y (by simp only [Slot.pos]; omega) hy)
      _ = s₂.disk y := hframe₃ y (fun σ _ hσ => hne σ y hσ hy)
      _ = s₁.disk y := Function.update_of_ne hyS _ _
  have hfmd : ∀ y, FreeMapData s₀ y ↔ FreeMapData s y := fun y => Iff.rfl
  -- the free-map file's sectors are in use and none of them is the new inode's
  have hfslot : ∀ f, s.free_map_file = some f → ∀ τ : Slot, τ.pos < f.data.blocks →
      disk₄ (disk_slot s₁.disk f.data τ) = s₁.disk (disk_slot s₁.disk f.data τ) := by
    intro f hf τ hpos
    have hfo := hok.file f hf
    have hsame : disk_slot s₁.disk f.data τ = disk_slot s.disk f.data τ := by
      refine disk_slot_congr (fun υ hυ hυpos => ?_) hpos
      exact hA.disk _ (by rw [hfmd]; exact not_freeMapData_index hf hfo υ hυ hυpos)
    rw [hsame]
    exact hframe _ (hfo.map.used τ hpos) (hfile f hf τ hpos)
  have hblocks : d.blocks = n := by
    simp only [InodeDisk.blocks, hA.header.length]
    rfl
  refine ⟨d, clear_arrays { s₁ with disk := disk₄ }, ?_, ⟨hA.file, hA.capacity, hused₁, ?_, ?_,
    ?_, ?_, ?_, ?_, ?_, ⟨rfl, rfl, rfl⟩, ?_, ?_⟩, hA.header.length⟩
  · have hw : write_index s₂ d n = .ok { s₂ with disk := disk₃ } := hwrite
    rw [inode_create, ← hs₀, ← hd₀, ← hn, halloc, ok_bind, if_pos rfl,
      disk_write_eq (inode_image d) hsec hA.ok.disk.capacity, ok_bind, ← hs₂, hw, ok_bind]
    rw [hzero, ok_bind, pure_eq_ok]
  · intro σ hσ
    have hσ' : σ.pos < n := by rwa [hblocks] at hσ
    rw [show (clear_arrays { s₁ with disk := disk₄ }).disk = disk₄ from rfl, hslot₄ σ hσ']
    exact hfresh σ hσ'
  · rw [hblocks]
    exact hA.free
  · rw [hblocks]
    constructor
    · intro σ τ hσ hτ he
      change disk_slot disk₄ d σ = disk_slot disk₄ d τ at he
      rw [hslot₄ σ hσ, hslot₄ τ hτ] at he
      exact hmem.inj σ τ hσ hτ he
    · intro σ hσ
      change s₁.free_map.bits (disk_slot disk₄ d σ) = true
      rw [hslot₄ σ hσ]
      exact hmem.used σ hσ
  · calc disk₄ sector = disk₃ sector :=
          hframe₄ sector (fun k _ hk => hne (.data k) sector (by simp only [Slot.pos]; omega) hused)
      _ = s₂.disk sector := hframe₃ sector (fun σ _ hσ => hne σ sector hσ hused)
      _ = inode_image d := Function.update_self _ _ _
  · intro y hy hyS hyF
    change disk₄ y = _
    rw [hframe y hy hyS, hA.disk y (by rwa [hfmd])]
  · intro hsync f hf p hp
    have hf' : s.free_map_file = some f := by rw [← hA.file]; exact hf
    have hk : p / 512 < f.data.blocks := by
      refine div_lt_blocks ?_
      rw [(hok.file f hf').length, ← hA.capacity]
      exact hp
    change disk₄ (disk_slot disk₄ f.data (.data (p / 512))) (p % 512) = _
    rw [disk_slot_congr (σ := .data (p / 512)) (fun υ _ hυ => hfslot f hf' υ hυ) hk,
      hfslot f hf' (.data (p / 512)) hk]
    exact hA.synced hsync f hf p hp
  · exact hA.ok.of_index rfl rfl (fun f hf τ _ hpos => hfslot f (hA.file.symm.trans hf) τ hpos)
  · exact hA.fits (blank_inode_fits isdir (Nat.mod_lt _ (by norm_num)) (by omega))
  · intro k hk
    have hk' : k < n := by rwa [hblocks] at hk
    change disk₄ (disk_slot disk₄ d (.data k)) = _
    rw [hslot₄ (.data k) hk']
    refine hclear₄ ?_ k (Nat.zero_le _) (by omega)
    intro a b _ hab hb he
    have := hmem.inj (.data a) (.data b) (by simp only [Slot.pos]; omega)
      (by simp only [Slot.pos]; omega) he
    injection this with he'
    omega

/-! ## `free_map_allocate` -/

/-- With a free sector left, `free_map_allocate (1, …)` is one round of
`take_sector`. -/
theorem free_map_allocate_one {s : FileSys} (hfree : 0 < (free_sectors s).card) :
    free_map_allocate s 1 = take_sector s := by
  obtain ⟨i, hi⟩ := Finset.card_pos.mp hfree
  rw [mem_free_sectors] at hi
  obtain ⟨x, -, -, hscan⟩ := bitmap_scan_and_flip_one ⟨i, hi⟩
  simp only [free_map_allocate, take_sector, hscan, ok_bind]

/-- On a full disk it allocates nothing. -/
theorem free_map_allocate_full {s : FileSys} (hfree : (free_sectors s).card = 0) :
    free_map_allocate s 1 = .ok (none, s) := by
  have hscan : bitmap_scan s.free_map 0 1 false = none := by
    cases hs : bitmap_scan s.free_map 0 1 false with
    | none => rfl
    | some i =>
      obtain ⟨-, hle, hval⟩ := bitmap_scan_some hs
      have hmem : i ∈ free_sectors s := by
        rw [mem_free_sectors]
        exact ⟨by simp only [FileSys.capacity]; omega, by simpa using hval 0 (by omega)⟩
      rw [Finset.card_eq_zero] at hfree
      rw [hfree] at hmem
      cases hmem
  simp only [free_map_allocate, bitmap_scan_and_flip, hscan, ok_bind, pure_eq_ok]

/-! ## `free_map_release` -/

/-- The map with the bits of `l` cleared. -/
def clear_bits (b : Bitmap) (l : List ℕ) : Bitmap where
  bit_cnt := b.bit_cnt
  bits := fun i => if i ∈ l then false else b.bits i

theorem clear_bits_of_mem {b : Bitmap} {l : List ℕ} {i : ℕ} (h : i ∈ l) :
    (clear_bits b l).bits i = false := by
  simp only [clear_bits, if_pos h]

theorem clear_bits_of_not_mem {b : Bitmap} {l : List ℕ} {i : ℕ} (h : i ∉ l) :
    (clear_bits b l).bits i = b.bits i := by
  simp only [clear_bits, if_neg h]

/-- The sectors `l` were given back, and nothing else happened but the rewriting
of the free-map file. -/
structure Released (s s' : FileSys) (l : List ℕ) : Prop where
  same : SameBut s s'
  map : s'.free_map = clear_bits s.free_map l
  ok : FsOk s'

theorem Released.nil {s : FileSys} (hok : FsOk s) : Released s s [] where
  same := SameBut.refl s
  map := by simp [clear_bits]
  ok := hok

theorem Released.append {s₁ s₂ s₃ : FileSys} {l l' : List ℕ} (hok : FsOk s₁)
    (h₁ : Released s₁ s₂ l) (h₂ : Released s₂ s₃ l') : Released s₁ s₃ (l ++ l') where
  same := h₁.same.trans hok h₂.same
  map := by
    rw [h₂.map, h₁.map]
    simp only [clear_bits, Bitmap.mk.injEq, true_and]
    funext i
    by_cases h1 : i ∈ l <;> by_cases h2 : i ∈ l' <;> simp [h1, h2]
  ok := h₂.ok

/-- The slots of the free-map file do not move. -/
theorem SameBut.file_slot {s s' : FileSys} (h : SameBut s s') (hok : FsOk s) {f : Inode}
    (hf : s.free_map_file = some f) {τ : Slot} (hτ : τ.pos < f.data.blocks) :
    disk_slot s'.disk f.data τ = disk_slot s.disk f.data τ :=
  disk_slot_congr
    (fun υ hυ hpos => h.disk _ (not_freeMapData_index hf (hok.file f hf) υ hυ hpos)) hτ

/-- **`free_map_release`** of one sector that is in use and not the free map's. -/
theorem free_map_release_one {s : FileSys} {f : Inode} {x : ℕ} (hok : FsOk s)
    (hf : s.free_map_file = some f) (hx : s.free_map.bits x = true)
    (hout : ∀ τ : Slot, τ.pos < f.data.blocks → disk_slot s.disk f.data τ ≠ x) :
    ∃ s', free_map_release s x 1 = .ok s' ∧ Released s s' [x] := by
  have hlt : x < s.capacity := hok.disk.bits x hx
  have hall : bitmap_all s.free_map x 1 = true := by
    rw [bitmap_all, bitmap_contains_one, hx]
    rfl
  have hle : x + 1 ≤ s.free_map.bit_cnt := hlt
  set b := clear_bits s.free_map [x] with hb
  have hset : bitmap_set_multiple s.free_map x 1 false = .ok b := by
    rw [bitmap_set_multiple_eq _ hle, hb]
    simp only [clear_bits, Except.ok.injEq, Bitmap.mk.injEq, true_and]
    funext i
    by_cases hi : i = x
    · rw [if_pos (by omega), if_pos (by simp [hi])]
    · rw [if_neg (by omega), if_neg (by simp [hi])]
  have hfo := hok.file f hf
  have hok₁ : FsOk { s with free_map := b } := by
    refine ⟨⟨hok.disk.capacity, ?_⟩, ?_⟩
    · intro i hi
      by_cases hix : i ∈ [x]
      · rw [hb, clear_bits_of_mem hix] at hi
        cases hi
      · rw [hb, clear_bits_of_not_mem hix] at hi
        exact hok.disk.bits i hi
    · intro g hg
      obtain rfl : f = g := by
        rw [hf] at hg
        exact Option.some.inj hg
      refine ⟨⟨hfo.map.inj, ?_⟩, hfo.max, hfo.length, hfo.writable⟩
      intro τ hτ
      have hne : disk_slot s.disk f.data τ ∉ [x] := by simpa using hout τ hτ
      rw [hb, clear_bits_of_not_mem hne]
      exact hfo.map.used τ hτ
  obtain ⟨s', hbw, hw⟩ := bitmap_write_spec hok₁ hf
  have hsame := hw.sameBut (s := { s with free_map := b }) hf
  refine ⟨s', ?_, ⟨?_, ?_⟩, ?_, ?_⟩
  · rw [free_map_release, ASSERT_pos ⟨hle, hall⟩, ok_bind, hset, ok_bind, hbw, ok_bind, pure_eq_ok]
  · rw [hw.rest]
  · intro y hy
    exact hsame.disk y hy
  · rw [hw.rest]
  · refine hok₁.sameBut hsame (by rw [hw.rest]) (fun i hi => by rw [hw.rest]; exact hi) ?_
    intro i hi
    rw [hw.rest] at hi
    exact hok₁.disk.bits i hi

/-- The sectors of a list can be released one by one: they are in use, distinct,
and not the free map's. -/
structure Releasable (s : FileSys) (f : Inode) (l : List ℕ) : Prop where
  nodup : l.Nodup
  used : ∀ x ∈ l, s.free_map.bits x = true
  out : ∀ x ∈ l, ∀ τ : Slot, τ.pos < f.data.blocks → disk_slot s.disk f.data τ ≠ x

/-- What is left of a releasable list can be released after its first part was. -/
theorem Releasable.right {s s' : FileSys} {f : Inode} {l l' : List ℕ} (hok : FsOk s)
    (hf : s.free_map_file = some f) (h : Releasable s f (l ++ l')) (hr : Released s s' l) :
    Releasable s' f l' where
  nodup := h.nodup.of_append_right
  used x hx := by
    have hnot : x ∉ l := fun hl => (List.nodup_append.mp h.nodup).2.2 x hl x hx rfl
    rw [hr.map, clear_bits_of_not_mem hnot]
    exact h.used x (List.mem_append_right _ hx)
  out x hx τ hτ := by
    rw [hr.same.file_slot hok hf hτ]
    exact h.out x (List.mem_append_right _ hx) τ hτ

theorem Releasable.left {s : FileSys} {f : Inode} {l l' : List ℕ}
    (h : Releasable s f (l ++ l')) : Releasable s f l where
  nodup := h.nodup.of_append_left
  used x hx := h.used x (List.mem_append_left _ hx)
  out x hx := h.out x (List.mem_append_left _ hx)

theorem release_all_spec {f : Inode} : ∀ (l : List ℕ) (s : FileSys), FsOk s →
    s.free_map_file = some f → Releasable s f l →
    ∃ s', release_all l s = .ok s' ∧ Released s s' l := by
  intro l
  induction l with
  | nil =>
    intro s hok _ _
    exact ⟨s, rfl, Released.nil hok⟩
  | cons x l ih =>
    intro s hok hf h
    obtain ⟨s₁, hrel, hR⟩ := free_map_release_one hok hf (h.used x (by simp)) (h.out x (by simp))
    obtain ⟨s₂, hrun, hR₂⟩ := ih s₁ hR.ok (by rw [hR.same.file, hf])
      (Releasable.right (l := [x]) hok hf h hR)
    refine ⟨s₂, ?_, hR.append hok hR₂⟩
    rw [release_all, hrel, ok_bind, hrun]

/-- The sectors `inode_close` gives back for a removed file of fewer than 250
blocks: its direct blocks, then its indirect block with one entry more than the
file has. -/
def released_sectors (s : FileSys) (d : InodeDisk) : List ℕ :=
  (List.range (min d.blocks 122)).map d.direct_block ++
    (if 122 < d.blocks then
      [d.indirect_block] ++
        (List.range (d.blocks - 122 + 1)).map (word (s.disk d.indirect_block))
    else [])

/-- **The deallocation in `inode_close`** of a file of fewer than 250 blocks. -/
theorem release_blocks_spec {s : FileSys} {f : Inode} {d : InodeDisk} (hok : FsOk s)
    (hf : s.free_map_file = some f) (hB : d.blocks < 250)
    (hdata : 122 < d.blocks → ¬ FreeMapData s d.indirect_block)
    (h : Releasable s f (released_sectors s d)) :
    ∃ s', release_blocks s d = .ok s' ∧ Released s s' (released_sectors s d) := by
  have hD : DIRECT_LEN = 122 := rfl
  have hnum : d.length / 512 + (if d.length % 512 ≠ 0 then 1 else 0) = d.blocks := by
    simp only [InodeDisk.blocks, bytes_to_sectors]
    split_ifs <;> omega
  set l₁ := (List.range (min d.blocks 122)).map d.direct_block with hl₁
  have hlist : released_sectors s d = l₁ ++ (if 122 < d.blocks then
      [d.indirect_block] ++ (List.range (d.blocks - 122 + 1)).map (word (s.disk d.indirect_block))
      else []) := rfl
  rw [hlist] at h ⊢
  obtain ⟨s₁, hrel₁, hR₁⟩ := release_all_spec l₁ s hok hf h.left
  have hf₁ : s₁.free_map_file = some f := by rw [hR₁.same.file, hf]
  by_cases h1 : 122 < d.blocks
  · rw [if_pos h1] at h ⊢
    have hright := h.right hok hf hR₁
    have hind : d.indirect_block < s₁.capacity :=
      hR₁.ok.disk.bits _ (hright.used _ (by simp))
    have hsame : s₁.disk d.indirect_block = s.disk d.indirect_block :=
      hR₁.same.disk _ (hdata h1)
    obtain ⟨s₂, hrel₂, hR₂⟩ := free_map_release_one hR₁.ok hf₁
      (hright.used d.indirect_block (by simp)) (hright.out d.indirect_block (by simp))
    have hf₂ : s₂.free_map_file = some f := by rw [hR₂.same.file, hf₁]
    obtain ⟨s₃, hrel₃, hR₃⟩ := release_all_spec _ s₂ hR₂.ok hf₂ (hright.right hR₁.ok hf₁ hR₂)
    refine ⟨s₃, ?_, hR₁.append hok (hR₂.append hR₁.ok hR₃)⟩
    have hmin : min (d.blocks - DIRECT_LEN + 1) 128 = d.blocks - 122 + 1 := by omega
    rw [release_blocks, hnum]
    change (do
      let s ← release_all l₁ s
      _) = _
    rw [hrel₁, ok_bind, if_pos (by omega), disk_read_eq hind hR₁.ok.disk.capacity, ok_bind, hrel₂,
      ok_bind, hmin, hsame, hrel₃, ok_bind, if_neg (by omega), ok_bind, if_neg (by omega)]
  · rw [if_neg h1] at h ⊢
    refine ⟨s₁, ?_, hR₁.append hok (Released.nil hR₁.ok)⟩
    rw [release_blocks, hnum]
    change (do
      let s ← release_all l₁ s
      _) = _
    rw [hrel₁, ok_bind, if_neg (by omega), ok_bind, if_neg (by omega)]

end Pintos.Filesys
