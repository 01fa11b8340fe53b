/-
From a formatted disk on: the sectors of the inodes stay apart.

`filesys_init_spec` runs the format and shows the invariant of `Ownership` for
the two inodes it leaves; the run theorem follows from the specification of each
operation. The guard excludes the steps that break ownership, and
`create_aliases_free_map` shows one of them: on a disk with too little space
`inode_create` succeeds with block 0 in sector 0.
-/
import Pintos.Filesys.Ownership

set_option autoImplicit false

namespace Pintos.Filesys

open Pintos.Kernel WordImage StepSystem

/-! ## The formatted disk -/

section Format

variable {capacity : ℕ} (disk : ℕ → Sector)

theorem free_map_init_bits {i : ℕ} :
    (free_map_init capacity disk).free_map.bits i = true ↔
      i = FREE_MAP_SECTOR ∨ i = ROOT_DIR_SECTOR := by
  simp [free_map_init]

theorem free_map_init_ok (h : FormatOk capacity) : FsOk (free_map_init capacity disk) := by
  have hroom := h.room
  refine ⟨⟨h.addressable, ?_⟩, fun f hf => by cases hf⟩
  intro i hi
  change i < capacity
  rcases (free_map_init_bits disk).mp hi with rfl | rfl
  · simp only [FREE_MAP_SECTOR]
    omega
  · simp only [ROOT_DIR_SECTOR]
    omega

theorem free_map_init_free :
    capacity - 2 ≤ (free_sectors (free_map_init capacity disk)).card := by
  have hsub : Finset.range capacity \ {FREE_MAP_SECTOR, ROOT_DIR_SECTOR}
      ⊆ free_sectors (free_map_init capacity disk) := by
    intro i hi
    rw [Finset.mem_sdiff, Finset.mem_range] at hi
    rw [mem_free_sectors]
    refine ⟨hi.1, ?_⟩
    by_contra hbit
    have hbit' : (free_map_init capacity disk).free_map.bits i = true := by simpa using hbit
    have := (free_map_init_bits disk).mp hbit'
    simp only [Finset.mem_insert, Finset.mem_singleton] at hi
    exact hi.2 this
  calc capacity - 2
      = (Finset.range capacity).card - ({FREE_MAP_SECTOR, ROOT_DIR_SECTOR} : Finset ℕ).card := by
        rw [Finset.card_range]
        rfl
    _ ≤ (Finset.range capacity \ {FREE_MAP_SECTOR, ROOT_DIR_SECTOR}).card :=
        Finset.le_card_sdiff _ _
    _ ≤ _ := Finset.card_le_card hsub

/-- `read_inode` of a sector an inode was written to. -/
theorem read_inode_eq {s : FileSys} {x : ℕ} {d : InodeDisk} (hd : DiskOk s) (hx : x < s.capacity)
    (himg : s.disk x = inode_image d) (hfits : d.Fits) :
    read_inode s x = .ok ⟨x, 1, false, 0, d⟩ := by
  simp only [read_inode, disk_read_eq hx hd.capacity, ok_bind, pure_eq_ok, himg,
    inode_of_sector_image hfits]

/-- The file system after `free_map_create`: the free map's inode `d` is open, its
sectors were free before, and its file holds the map. -/
theorem free_map_create_spec (h : FormatOk capacity) :
    ∃ d s', free_map_create (free_map_init capacity disk) = .ok s' ∧
      s'.free_map_file = some ⟨FREE_MAP_SECTOR, 1, false, 0, d⟩ ∧
      s'.capacity = capacity ∧ FsOk s' ∧ Synced s' ∧ d.Fits ∧
      s'.disk FREE_MAP_SECTOR = inode_image d ∧
      (∀ σ : Slot, σ.pos < d.blocks → disk_slot s'.disk d σ ≠ FREE_MAP_SECTOR ∧
        disk_slot s'.disk d σ ≠ ROOT_DIR_SECTOR) ∧
      s'.free_map.bits FREE_MAP_SECTOR = true ∧ s'.free_map.bits ROOT_DIR_SECTOR = true ∧
      1 ≤ (free_sectors s').card := by
  set s₀ := free_map_init capacity disk with hs₀
  have hroom := h.room
  have hfree₀ : capacity - 2 ≤ (free_sectors s₀).card := free_map_init_free disk
  have hboot₀ : s₀.free_map.bits FREE_MAP_SECTOR = true := rfl
  have hroot₀ : s₀.free_map.bits ROOT_DIR_SECTOR = true := rfl
  obtain ⟨d, s₁, hcreate, hC, hlen⟩ := inode_create_spec (s := s₀)
    (byte_cnt capacity) true (free_map_init_ok disk h) hboot₀
    (fun f hf => by cases hf) h.create (by omega)
  have hblocks : d.blocks = bytes_to_sectors (byte_cnt capacity) := by
    rw [InodeDisk.blocks, hlen]
  have hcap₁ : s₁.capacity = capacity := hC.capacity
  have hboot₁ := hC.bits _ hboot₀
  have hread := read_inode_eq hC.ok.disk (hC.ok.disk.bits _ hboot₁) hC.image hC.fits
  set f : Inode := ⟨FREE_MAP_SECTOR, 1, false, 0, d⟩ with hf
  set s₂ : FileSys := { s₁ with free_map_file := some f } with hs₂
  have hok₂ : FsOk s₂ := by
    refine ⟨⟨hC.ok.disk.capacity, hC.ok.disk.bits⟩, ?_⟩
    intro g hg
    obtain rfl : f = g := Option.some.inj hg
    refine ⟨⟨hC.map.inj, hC.map.used⟩, by rw [hblocks]; exact h.create.max, ?_, rfl⟩
    change d.length = byte_cnt s₁.capacity
    rw [hlen, hcap₁]
  obtain ⟨s₃, hbw, hw⟩ := bitmap_write_spec hok₂ (f := f) rfl
  have hmap₃ : s₃.free_map = s₁.free_map := by rw [hw.rest]
  have hslot : ∀ σ : Slot, σ.pos < d.blocks →
      disk_slot s₃.disk d σ = disk_slot s₁.disk d σ := fun σ hσ => hw.slot (hok₂.file f rfl).map hσ
  have hne : ∀ (σ : Slot) (y : ℕ), σ.pos < d.blocks → s₀.free_map.bits y = true →
      disk_slot s₁.disk d σ ≠ y := by
    rintro σ y hσ hy rfl
    rw [hC.fresh σ hσ] at hy
    cases hy
  have hcnt : s₀.free_map.bit_cnt = capacity := rfl
  refine ⟨d, s₃, ?_, by rw [hw.rest], ?_, ?_, hw.synced hok₂ rfl, hC.fits, ?_, ?_, ?_, ?_, ?_⟩
  · rw [free_map_create, hcnt, hcreate, ok_bind, ASSERT_pos rfl, ok_bind, hread, ok_bind, ← hs₂,
      hbw, ok_bind, ASSERT_pos rfl, ok_bind, pure_eq_ok]
  · simp only [FileSys.capacity, hmap₃]
    exact hcap₁
  · refine hok₂.sameBut (hw.sameBut rfl) (by simp only [FileSys.capacity, hmap₃, hs₂]) ?_ ?_
    · intro i hi
      rw [hmap₃]
      exact hi
    · intro i hi
      rw [hmap₃] at hi
      exact hC.ok.disk.bits i hi
  · rw [hw.frame FREE_MAP_SECTOR (fun k hk => (hne (.data k) _ hk hboot₀).symm)]
    exact hC.image
  · intro σ hσ
    rw [hslot σ hσ]
    exact ⟨hne σ _ hσ hboot₀, hne σ _ hσ hroot₀⟩
  · rw [hmap₃]
    exact hboot₁
  · rw [hmap₃]
    exact hC.bits _ hroot₀
  · have hfs : free_sectors s₃ = free_sectors s₁ := by
      simp only [free_sectors, FileSys.capacity, hmap₃]
    have := hC.free
    rw [hfs]
    rw [hblocks] at this
    omega

/-- Reading a free-map file that holds the map gives the map back. -/
theorem free_map_open_spec {s : FileSys} {f : Inode} (hok : FsOk s)
    (hf : s.free_map_file = some f) (hsync : Synced s)
    (hread : read_inode s FREE_MAP_SECTOR = .ok f) : free_map_open s = .ok s := by
  have hfo := hok.file f hf
  have hlen : f.data.length = byte_cnt s.free_map.bit_cnt := hfo.length
  have hbytes := inode_read_at_spec hok.disk hfo.map hfo.max (byte_cnt s.free_map.bit_cnt) 0
    (by omega)
  set bytes := (List.range (byte_cnt s.free_map.bit_cnt)).map
    (fun i => file_byte s.disk f.data (0 + i)) with hb
  have hmap : bitmap_of_bytes s.free_map.bit_cnt (fun i => bytes.getD i 0) = s.free_map := by
    rw [← bitmap_of_bytes_bitmap_bytes (b := s.free_map) hok.disk.bits]
    simp only [bitmap_of_bytes, Bitmap.mk.injEq, true_and]
    funext i
    by_cases hi : i < s.free_map.bit_cnt
    · have hlt : i / 8 < byte_cnt s.free_map.bit_cnt := by
        simp only [byte_cnt]
        omega
      have hget : bytes.getD (i / 8) 0 = bitmap_bytes s.free_map (i / 8) := by
        rw [← hsync f hf (i / 8) hlt, hb, List.getD_eq_getElem?_getD, List.getElem?_map,
          List.getElem?_range hlt, Option.map_some, Option.getD_some, Nat.zero_add]
      rw [hget]
      rfl
    · simp [hi]
  simp only [free_map_open, hread, ok_bind, hbytes]
  rw [ASSERT_pos (by simp [hb]), ok_bind, pure_eq_ok, hmap, ← hf]

/-- **Formatting** succeeds and leaves a store in which the invariant holds. -/
theorem filesys_init_spec (h : FormatOk capacity) :
    ∃ fs, filesys_init capacity disk = .ok fs ∧
      (⟨fs, fun _ => none, [FREE_MAP_SECTOR, ROOT_DIR_SECTOR]⟩ : Store).Inv := by
  obtain ⟨d, s, hcreate, hf, hcap, hok, hsync, hfits, himg, hslots, hboot, hroot, hfree⟩ :=
    free_map_create_spec disk h
  set f : Inode := ⟨FREE_MAP_SECTOR, 1, false, 0, d⟩ with hfdef
  have hfo := hok.file f hf
  obtain ⟨e, s', hmk, hC, hlen⟩ := inode_create_spec (16 * dir_entry_size) true hok hroot
    (fun g hg τ hτ => by
      obtain rfl : f = g := Option.some.inj (hf.symm.trans hg)
      exact (hslots τ hτ).2)
    ⟨by decide, by decide⟩ (by
      have hone : (slotsFrom (bytes_to_sectors (16 * dir_entry_size)) 0).length = 1 := by decide
      rw [hone]
      exact hfree)
  -- sectors of the free map and of the root directory: used before, and free before
  have hdisk : ∀ z, s.free_map.bits z = true → z ≠ ROOT_DIR_SECTOR → ¬ FreeMapData s z →
      s'.disk z = s.disk z := hC.frame
  have hslot : ∀ σ : Slot, σ.pos < d.blocks → disk_slot s'.disk d σ = disk_slot s.disk d σ := by
    intro σ hσ
    refine disk_slot_congr (fun τ hτ hpos => hdisk _ (hfo.map.used τ hpos) (hslots τ hpos).2 ?_) hσ
    exact not_freeMapData_index hf hfo τ hτ hpos
  have hf' : s'.free_map_file = some f := hC.file.trans hf
  have hboot0 : s'.disk FREE_MAP_SECTOR = inode_image d := by
    rw [hdisk _ hboot (by decide) ?_, himg]
    rintro ⟨g, hg, k, hk, he⟩
    obtain rfl : f = g := Option.some.inj (hf.symm.trans hg)
    exact (hslots (.data k) hk).1 he.symm
  have hopen : free_map_open s' = .ok s' :=
    free_map_open_spec hC.ok hf' (hC.synced hsync)
      (read_inode_eq hC.ok.disk (hC.ok.disk.bits _ (hC.bits _ hboot)) hboot0 hfits)
  refine ⟨s', ?_, ?_⟩
  · rw [filesys_init, hcreate, ok_bind, hmk, ok_bind, ASSERT_pos rfl, ok_bind, hopen]
  set st : Store := ⟨s', fun _ => none, [FREE_MAP_SECTOR, ROOT_DIR_SECTOR]⟩ with hst
  have hdata0 : st.inode_data FREE_MAP_SECTOR = d := inode_data_boot (t := st) hf'
  have hdata1 : st.inode_data ROOT_DIR_SECTOR = e := by
    rw [inode_data_closed (t := st) (by decide) rfl]
    change inode_of_sector (s'.disk ROOT_DIR_SECTOR) = e
    rw [hC.image, inode_of_sector_image hC.fits]
  have hne : ∀ (σ : Slot) (y : ℕ), σ.pos < e.blocks → s.free_map.bits y = true →
      disk_slot s'.disk e σ ≠ y := by
    rintro σ y hσ hy rfl
    rw [hC.fresh σ hσ] at hy
    cases hy
  have hmap0 : MapOk s' d d.blocks := by
    constructor
    · intro σ τ hσ hτ he
      rw [hslot σ hσ, hslot τ hτ] at he
      exact hfo.map.inj σ τ hσ hτ he
    · intro σ hσ
      rw [hslot σ hσ]
      exact hC.bits _ (hfo.map.used σ hσ)
  have hlive : ∀ x ∈ st.live, x = FREE_MAP_SECTOR ∨ x = ROOT_DIR_SECTOR := by
    intro x hx
    simpa [hst] using hx
  -- the two inodes share no sector
  have hapart : ∀ z ∈ st.sectors FREE_MAP_SECTOR, z ∉ st.sectors ROOT_DIR_SECTOR := by
    simp only [Store.sectors, hdata0, hdata1]
    rintro z (rfl | ⟨σ, hσ, rfl⟩) (hz | ⟨τ, hτ, hz⟩)
    · exact absurd hz (by decide)
    · exact hne τ _ hτ hboot hz.symm
    · change disk_slot s'.disk d σ = _ at hz
      rw [hslot σ hσ] at hz
      exact (hslots σ hσ).2 hz
    · change disk_slot s'.disk d σ = disk_slot s'.disk e τ at hz
      rw [hslot σ hσ] at hz
      exact hne τ _ hτ (hfo.map.used σ hσ) hz.symm
  refine ⟨⟨hC.ok, hC.arrays, hC.bits _ hboot, ?_⟩, ⟨f, hf'⟩, by simp [hst], hC.bits _ hroot, ?_,
    ?_, ?_, ?_⟩
  · intro g hg τ hτ
    obtain rfl : f = g := Option.some.inj (hf'.symm.trans hg)
    change disk_slot s'.disk d τ ≠ _
    rw [hslot τ hτ]
    exact (hslots τ hτ).1
  · intro x i hi
    cases hi
  · intro x hx
    rcases hlive x hx with rfl | rfl
    · rw [hdata0]
      refine ⟨hmap0, hfo.max, hC.bits _ hboot, ?_, ?_, ?_⟩
      all_goals
        intro σ hσ
        change disk_slot s'.disk d σ ≠ _
        rw [hslot σ hσ]
      · exact (hslots σ hσ).1
      · exact (hslots σ hσ).1
      · exact (hslots σ hσ).2
    · rw [hdata1]
      refine ⟨hC.map, ?_, hC.bits _ hroot, fun σ hσ => hne σ _ hσ hroot,
        fun σ hσ => hne σ _ hσ hboot, fun σ hσ => hne σ _ hσ hroot⟩
      rw [InodeDisk.blocks, hlen]
      decide
  · intro x hx hx0
    obtain rfl := (hlive x hx).resolve_left hx0
    rw [hdata1]
    exact ⟨hC.image, hC.fits⟩
  · intro x hx y hy hxy z hz
    rcases hlive x hx with rfl | rfl <;> rcases hlive y hy with rfl | rfl
    · exact absurd rfl hxy
    · exact hapart z hz
    · intro hz'
      exact hapart z hz' hz
    · exact absurd rfl hxy

end Format

/-! ## Runs -/

/-- One operation that meets the guard returns, and keeps the invariant. -/
theorem StoreOp.run_spec {st : Store} (h : st.Inv) {op : StoreOp} (he : op.Enabled st)
    (hok : StoreOk st op) : ∃ st', op.run st = .ok st' ∧ st'.Inv := by
  cases op with
  | create length isdir => exact create_spec h hok
  | open_inode x => exact inode_open_spec h he.1 he.2
  | write x w =>
    obtain ⟨st', hrun, hinv, -⟩ := inode_write_spec h he hok
    exact ⟨st', hrun, hinv⟩
  | remove x => exact inode_remove_spec h he
  | close x => exact inode_close_spec h he hok

theorem store_inv_of_reachable {st : Store} (hr : Reachable store_system StoreOk st) : st.Inv := by
  refine hr.invariant ?_ ?_
  · rintro s ⟨capacity, disk, fs, hformat, hinit, rfl⟩
    obtain ⟨fs', hrun, hinv⟩ := filesys_init_spec disk hformat
    obtain rfl : fs' = fs := by
      rw [hinit] at hrun
      exact (Except.ok.inj hrun).symm
    exact hinv
  · intro s op s' hs hop ⟨he, hrun⟩
    obtain ⟨s'', hrun', hinv⟩ := StoreOp.run_spec hs he hop
    rw [hrun] at hrun'
    rwa [Except.ok.inj hrun']

/-- What it means that every inode owns its sectors. -/
structure Store.Owns (st : Store) : Prop where
  /-- Within an inode, different slots are different sectors, and none is the
  inode's own. -/
  within : ∀ x ∈ st.live, ∀ σ τ : Slot, σ.pos < (st.inode_data x).blocks →
    τ.pos < (st.inode_data x).blocks →
    disk_slot st.fs.disk (st.inode_data x) σ ≠ x ∧
      (disk_slot st.fs.disk (st.inode_data x) σ = disk_slot st.fs.disk (st.inode_data x) τ → σ = τ)
  /-- Two inodes share no sector. -/
  across : ∀ x ∈ st.live, ∀ y ∈ st.live, x ≠ y → ∀ z ∈ st.sectors x, z ∉ st.sectors y
  /-- The two fixed sectors belong to their inodes. -/
  fixed : ∀ x ∈ st.live, ∀ z ∈ st.sectors x, z = FREE_MAP_SECTOR ∨ z = ROOT_DIR_SECTOR → z = x
  /-- Every sector of an inode is marked used. -/
  used : ∀ x ∈ st.live, ∀ z ∈ st.sectors x, st.fs.free_map.bits z = true

theorem Store.Inv.owns {st : Store} (h : st.Inv) : st.Owns where
  within x hx σ τ hσ hτ := ⟨(h.inode x hx).own σ hσ, (h.inode x hx).map.inj σ τ hσ hτ⟩
  across := h.across
  fixed := by
    rintro x hx z (rfl | ⟨σ, hσ, rfl⟩) hfix
    · rfl
    · rcases hfix with hz | hz
      · exact absurd hz ((h.inode x hx).boot σ hσ)
      · exact absurd hz ((h.inode x hx).root σ hσ)
  used x hx z hz := (h.inode x hx).sectors_used hz

/-- A write leaves what is read from every other file, the free map's apart. -/
theorem read_of_other_file {st st' : Store} (h : st.Inv) {x y : ℕ} {w : WriteReq}
    (hw : StoreOk st (.write x w)) (hstep : store_system.step st (.write x w) st')
    (hy : y ∈ st.live) (hne : y ≠ x) (hy0 : y ≠ FREE_MAP_SECTOR) {inode : Inode}
    (hi : inode.data = st.inode_data y) {size offset : ℕ}
    (hle : offset + size ≤ inode.data.length) :
    inode_read_at st'.fs inode size offset = inode_read_at st.fs inode size offset := by
  obtain ⟨st'', hrun, hinv, hlive, hother⟩ := inode_write_spec h hstep.1 hw
  obtain rfl : st'' = st' := by
    have hrun' : st.inode_write x w = .ok st' := hstep.2
    rw [hrun'] at hrun
    exact (Except.ok.inj hrun).symm
  obtain ⟨hk, hdisk⟩ := hother y hy hne
  have hok := h.inode y hy
  have hok' := hk.inodeOk hok
  rw [hk.data, ← hi] at hok'
  rw [← hi] at hok
  rw [inode_read_at_spec hinv.ready.ok.disk hok'.map hok'.max _ _ hle,
    inode_read_at_spec h.ready.ok.disk hok.map hok.max _ _ hle]
  congr 1
  apply List.map_congr_left
  intro i hlt
  rw [List.mem_range] at hlt
  have hpos : (Slot.data ((offset + i) / 512)).pos < inode.data.blocks := div_lt_blocks (by omega)
  have hslot := hk.slot (σ := .data ((offset + i) / 512)) (by rw [← hi]; exact hpos)
  rw [← hi] at hslot
  rw [file_byte, file_byte, block, block, hslot, hdisk hy0 _ (Or.inr ⟨_, by rw [← hi]; exact hpos,
    by rw [← hi]⟩)]

/-- **Sector ownership.** In every state reached from a formatted disk by
operations that meet the guard, every inode owns its sectors, every operation that
is allowed and meets the guard returns, and a write changes nothing that is read
from another file. `malloc` and `calloc` give the bounce buffers and the new inodes. -/
theorem store_owns_sectors {st : Store} (hr : Reachable store_system StoreOk st) :
    st.Owns ∧
    (∀ op : StoreOp, op.Enabled st → StoreOk st op → ∃ st', store_system.step st op st') ∧
    ∀ x w st', StoreOk st (.write x w) → store_system.step st (.write x w) st' →
      ∀ y ∈ st.live, y ≠ x → y ≠ FREE_MAP_SECTOR →
      ∀ inode : Inode, inode.data = st.inode_data y →
      ∀ size offset, offset + size ≤ inode.data.length →
        inode_read_at st'.fs inode size offset = inode_read_at st.fs inode size offset := by
  have h := store_inv_of_reachable hr
  refine ⟨h.owns, ?_, ?_⟩
  · intro op he hok
    obtain ⟨st', hrun, -⟩ := StoreOp.run_spec h he hok
    exact ⟨st', he, hrun⟩
  · intro x w st' hw hstep y hy hne hy0 inode hi size offset hle
    exact read_of_other_file h hw hstep hy hne hy0 hi hle

/-- Formatting a disk of `capacity` zeroed sectors, then creating a file of one
byte, with the number of sectors free in between. -/
def format_and_create (capacity : ℕ) : Res (ℕ × Store) := do
  let fs ← filesys_init capacity (fun _ _ => 0)
  let st ← Store.create ⟨fs, fun _ => none, [FREE_MAP_SECTOR, ROOT_DIR_SECTOR]⟩ 1 false
  return ((free_sectors fs).card, st)

/-- What that run leaves is reached by the two steps. -/
theorem format_and_create_reachable {capacity n : ℕ} {st : Store}
    {ok : Store → StoreOp → Prop} (hformat : FormatOk capacity)
    (hrun : format_and_create capacity = .ok (n, st))
    (hok : ∀ fs : FileSys, (free_sectors fs).card = n →
      ok ⟨fs, fun _ => none, [FREE_MAP_SECTOR, ROOT_DIR_SECTOR]⟩ (.create 1 false)) :
    Reachable store_system ok st := by
  obtain ⟨fs, hinit, hrest⟩ := bind_eq_ok hrun
  obtain ⟨st', hcreate, hret⟩ := bind_eq_ok hrest
  obtain ⟨hn, rfl⟩ : (free_sectors fs).card = n ∧ st' = st := by
    simpa only [pure_eq_ok, Except.ok.injEq, Prod.mk.injEq] using hret
  exact .step (.init ⟨capacity, _, fs, hformat, hinit, rfl⟩) (hok fs hn) ⟨trivial, hcreate⟩

/-- A disk of 16 sectors with a file of one byte. -/
theorem store_owns_sectors_small :
    ∃ st, Reachable store_system StoreOk st ∧ st.live = [4, 0, 1] ∧ st.Owns := by
  have heval : (format_and_create 16).map (fun r => (r.1, r.2.live)) = .ok (12, [4, 0, 1]) := by
    decide +kernel
  cases hrun : format_and_create 16 with
  | error e =>
    rw [hrun] at heval
    cases heval
  | ok r =>
    obtain ⟨n, st⟩ := r
    rw [hrun] at heval
    obtain ⟨rfl, hlive⟩ : n = 12 ∧ st.live = [4, 0, 1] := by
      simpa only [Except.map, Except.ok.injEq, Prod.mk.injEq] using heval
    have hr : Reachable store_system StoreOk st := by
      refine format_and_create_reachable ⟨by norm_num, ⟨by decide, by decide⟩, by decide⟩ hrun ?_
      intro fs hfs
      right
      change CreateOk (bytes_to_sectors 1) ∧ 1 + (slotsFrom (bytes_to_sectors 1) 0).length
        ≤ (free_sectors fs).card
      rw [hfs]
      exact ⟨⟨by decide, by decide⟩, by decide⟩
    exact ⟨st, hr, hlive, (store_owns_sectors hr).1⟩

/-- **A full disk gives a new file sector 0 as its first block.** On a formatted
disk of 5 sectors one is free. It becomes the new inode's, the allocation of block
0 finds no sector, leaves the entry at 0 and reports success. -/
theorem create_aliases_free_map :
    ¬ ∀ st, Reachable store_system (fun _ _ => True) st → st.Owns := by
  intro hall
  have heval : (format_and_create 5).map
      (fun r => (r.2.live, (r.2.inode_data 4).length, (r.2.inode_data 4).direct_block 0))
        = .ok ([4, 0, 1], 1, 0) := by
    decide +kernel
  cases hrun : format_and_create 5 with
  | error e =>
    rw [hrun] at heval
    cases heval
  | ok r =>
    obtain ⟨n, st⟩ := r
    rw [hrun] at heval
    obtain ⟨hlive, hlen, hblock⟩ : st.live = [4, 0, 1] ∧ (st.inode_data 4).length = 1 ∧
        (st.inode_data 4).direct_block 0 = 0 := by
      simpa only [Except.map, Except.ok.injEq, Prod.mk.injEq] using heval
    have hr : Reachable store_system (fun _ _ => True) st :=
      format_and_create_reachable ⟨by norm_num, ⟨by decide, by decide⟩, by decide⟩ hrun
        (fun _ _ => trivial)
    have hpos : (Slot.data 0).pos < (st.inode_data 4).blocks := by
      rw [InodeDisk.blocks, hlen]
      decide
    have hmem : FREE_MAP_SECTOR ∈ st.sectors 4 := by
      refine Or.inr ⟨.data 0, hpos, ?_⟩
      rw [← block, block_direct _ _ (by norm_num), hblock]
    have := (hall st hr).fixed 4 (by rw [hlive]; simp) _ hmem (Or.inl rfl)
    cases this

end Pintos.Filesys
