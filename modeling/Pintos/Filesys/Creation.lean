/-
What `inode_create` writes.

The index blocks are written by a loop `for (i=1; i<=(sectors-DIRECT_LEN-128)/128; i++)`,
whose last row holds entries only if the file does not end with a full row. If it does, the
row after the last one is written as well: its parent entry was never assigned, so its
zeros go to sector 0. At the maximum size that row is outside the arrays.
-/
import Pintos.Filesys.Isolation

set_option autoImplicit false

namespace Pintos.Filesys

open Pintos.Kernel WordImage

/-- A call of `inode_create` as its callers make it: the target sector is marked used and
is not a sector of the free-map file, sector 0 holds an inode unless it is the target, the
file fits three levels, and there are free sectors for its blocks and their index blocks. -/
structure CreateCall (s : FileSys) (sector length : ℕ) : Prop where
  ready : Ready s
  used : s.free_map.bits sector = true
  file : ∀ f, s.free_map_file = some f → ∀ τ : Slot, τ.pos < f.data.blocks →
    disk_slot s.disk f.data τ ≠ sector
  boot : sector = FREE_MAP_SECTOR ∨ word (s.disk FREE_MAP_SECTOR) 2 = INODE_MAGIC
  max : bytes_to_sectors length ≤ MAX_BLOCKS
  room : (slotsFrom (bytes_to_sectors length) 0).length ≤ (free_sectors s).card

/-- What a creation may do: it succeeds, the new inode reads back as zeros, and a sector
that changes is the target, was free, or holds the free-map file's contents. -/
def CreatesOwn (s : FileSys) (sector length : ℕ) (isdir : Bool) : Prop :=
  ∃ s', inode_create s sector length isdir = .ok (true, s') ∧
    (∃ inode, read_inode s' sector = .ok inode ∧ inode.data.length = length ∧
      inode_read_at s' inode length 0 = .ok (List.replicate length 0)) ∧
    ∀ y, s'.disk y ≠ s.disk y →
      y = sector ∨ s.free_map.bits y = false ∨ FreeMapData s y

section Creation

variable {s : FileSys} {sector length : ℕ}

/-- A new inode whose blocks were cleared reads back as zeros. -/
theorem Created.reads_zero {s' : FileSys} {d : InodeDisk} (h : Created s s' sector d)
    (hused : s.free_map.bits sector = true) (hmax : d.blocks ≤ MAX_BLOCKS) :
    ∃ inode, read_inode s' sector = .ok inode ∧ inode.data.length = d.length ∧
      inode_read_at s' inode d.length 0 = .ok (List.replicate d.length 0) := by
  refine ⟨_, read_inode_eq h.ok.disk (h.ok.disk.bits _ (h.bits _ hused)) h.image h.fits, rfl, ?_⟩
  rw [inode_read_at_spec h.ok.disk h.map hmax _ _ (Nat.zero_add _).le]
  congr 1
  rw [List.eq_replicate_iff]
  refine ⟨by rw [List.length_map, List.length_range], ?_⟩
  intro b hb
  obtain ⟨p, hp, rfl⟩ := List.mem_map.mp hb
  rw [List.mem_range] at hp
  rw [file_byte, h.zero _ (div_lt_blocks (by rwa [Nat.zero_add]))]

/-- The row after the last one is a loop round of its own. -/
theorem write_children_succ : ∀ (cnt i : ℕ) (s : FileSys),
    write_children (cnt + 1) i s = write_children cnt i s >>= write_children 1 (i + cnt) := by
  intro cnt
  induction cnt with
  | zero => exact fun _ _ => rfl
  | succ cnt ih =>
    intro i s
    rw [write_children, write_children]
    by_cases hi : 128 ≤ i
    · rw [if_pos hi, if_pos hi]
      rfl
    · rw [if_neg hi, if_neg hi]
      cases disk_write s (s.doubly_sec_parent i) (ofWords (row s.doubly_sec_idx i)) with
      | error e => rfl
      | ok s₁ =>
        rw [ok_bind, ok_bind, ih, show i + 1 + cnt = i + (cnt + 1) by omega]

/-- With a full last row the write-back goes one row further than with one block less. -/
theorem write_index_full (s : FileSys) (d : InodeDisk) {q : ℕ} (hq : 1 ≤ q) :
    write_index s d (250 + 128 * q)
      = write_index s d (250 + 128 * q - 1) >>= write_children 1 q := by
  have hD : DIRECT_LEN = 122 := rfl
  have hrow : (250 + 128 * q - DIRECT_LEN - 128) / 128 = q - 1 + 1 := by omega
  have hrow' : (250 + 128 * q - 1 - DIRECT_LEN - 128) / 128 = q - 1 := by omega
  rw [write_index, write_index, if_pos (show DIRECT_LEN < 250 + 128 * q by omega),
    if_pos (show DIRECT_LEN < 250 + 128 * q - 1 by omega)]
  cases disk_write s d.indirect_block (ofWords s.indirect_sec_idx) with
  | error e => rfl
  | ok s₁ =>
    rw [ok_bind, ok_bind, if_pos (show DIRECT_LEN + 128 < 250 + 128 * q by omega),
      if_pos (show DIRECT_LEN + 128 < 250 + 128 * q - 1 by omega), hrow, hrow']
    cases disk_write s₁ d.doubly_indirect_block (ofWords s₁.doubly_sec_parent) with
    | error e => rfl
    | ok s₂ =>
      rw [ok_bind, ok_bind]
      cases disk_write s₂ (s₂.doubly_sec_parent 0) (ofWords (row s₂.doubly_sec_idx 0)) with
      | error e => rfl
      | ok s₃ =>
        rw [ok_bind, ok_bind, write_children_succ, show 1 + (q - 1) = q by omega]

/-- **A file that ends with a full row** costs sector 0 its contents, or the call its
subscript. -/
theorem CreateCall.full_row (h : CreateCall s sector length) (isdir : Bool) {q : ℕ} (hq : 1 ≤ q)
    (hB : bytes_to_sectors length = 250 + 128 * q) :
    inode_create s sector length isdir = .error .bounds ∨
      ∃ s', inode_create s sector length isdir = .ok (true, s') ∧
        s'.disk FREE_MAP_SECTOR = fun _ => 0 := by
  have hM : MAX_BLOCKS = 16634 := rfl
  have hmax := h.max
  have hroom := h.room
  have hok := h.ready.ok
  set n := bytes_to_sectors length with hn
  set s₀ : FileSys := { s with next_iid := s.next_iid + 1 } with hs₀
  have hok₀ : FsOk s₀ := hok.of_index rfl rfl (fun _ _ _ _ _ => rfl)
  set d₀ := blank_inode (s.next_iid % 2 ^ 32) length isdir with hd₀
  obtain ⟨d, s₁, halloc, hA⟩ := free_map_allocate_index_spec n 0 s₀ d₀ hok₀ (by omega) hroom
  have hmem : MemMapOk s₁ d n := by
    have := hA.memMapOk (s := s₀) (d := d₀) ⟨fun σ τ hσ => by omega, fun σ hσ => by omega⟩ rfl
      (fun σ hσ => by omega)
    rwa [Nat.zero_add] at this
  have hfresh : ∀ σ : Slot, σ.pos < n → s.free_map.bits (mem_slot s₁ d σ) = false := fun σ hσ =>
    hA.fresh σ (mem_slotsFrom.mpr ⟨Nat.zero_le _, by omega⟩)
  have hne : ∀ σ : Slot, σ.pos < n → FREE_MAP_SECTOR ≠ mem_slot s₁ d σ := by
    intro σ hσ he
    have := hfresh σ hσ
    rw [← he, h.ready.boot] at this
    cases this
  -- the row behind the last block was not assigned
  have hpar : s₁.doubly_sec_parent q = FREE_MAP_SECTOR := by
    have := hA.old (.parent q) (by rw [mem_slotsFrom]; simp only [Slot.pos]; omega)
    simp only [mem_slot] at this
    rw [this, hs₀, h.ready.arrays.parent]
  have hrow : ofWords (row s₁.doubly_sec_idx q) = fun _ => 0 := by
    have hzero : row s₁.doubly_sec_idx q = fun _ => 0 := by
      funext k
      have := hA.old (.data (250 + 128 * q + k))
        (by rw [mem_slotsFrom]; simp only [Slot.pos]; omega)
      simp only [mem_slot, if_neg (show ¬ 250 + 128 * q + k < 122 by omega),
        if_neg (show ¬ 250 + 128 * q + k < 250 by omega),
        show 250 + 128 * q + k - 250 = 128 * q + k by omega] at this
      rw [row, this, hs₀, h.ready.arrays.doubly]
    funext j
    rw [ofWords, hzero]
    simp
  have hsec : sector < s₁.capacity := hA.ok.disk.bits _ ((hA.bits _).mpr (Or.inl h.used))
  have hboot : FREE_MAP_SECTOR < s₁.capacity :=
    hA.ok.disk.bits _ ((hA.bits _).mpr (Or.inl h.ready.boot))
  set s₂ : FileSys := { s₁ with disk := Function.update s₁.disk sector (inode_image d) } with hs₂
  have hmem₂ : MemMapOk s₂ d n := ⟨hmem.inj, hmem.used⟩
  have hd₂ : DiskOk s₂ := ⟨hA.ok.disk.capacity, hA.ok.disk.bits⟩
  have hflush : FlushOk (n - 1) (n - 1) n := by
    constructor <;> omega
  obtain ⟨disk₃, hwrite, -, -⟩ := write_index_spec hd₂ hmem₂ hflush
  have hstart : inode_create s sector length isdir = (do
      let s ← write_index s₂ d n
      let s ← zero_blocks d n 0 s
      return (true, clear_arrays s)) := by
    rw [inode_create, ← hs₀, ← hd₀, ← hn, halloc, ok_bind, if_pos rfl,
      disk_write_eq (inode_image d) hsec hA.ok.disk.capacity, ok_bind]
  have hfull : write_index s₂ d n = write_children 1 q { s₂ with disk := disk₃ } := by
    have := write_index_full s₂ d hq
    rw [← hB, hwrite, ok_bind] at this
    exact this
  rw [hstart, hfull]
  by_cases hend : 128 ≤ q
  · left
    rw [write_children, if_pos hend]
    rfl
  · right
    set s₃ : FileSys := { s₂ with
      disk := Function.update disk₃ FREE_MAP_SECTOR (fun _ => 0) } with hs₃
    have hlast : write_children 1 q { s₂ with disk := disk₃ } = .ok s₃ := by
      rw [write_children, if_neg hend]
      change (do
        let s ← disk_write { s₂ with disk := disk₃ } (s₁.doubly_sec_parent q)
          (ofWords (row s₁.doubly_sec_idx q))
        write_children 0 (q + 1) s) = _
      rw [hpar, hrow, disk_write_eq (s := { s₂ with disk := disk₃ }) _ hboot
        hA.ok.disk.capacity, ok_bind]
      rfl
    obtain ⟨disk₄, hzero, hframe₄, -⟩ := zero_blocks_spec (d := d) n 0 s₃
      ⟨hd₂.capacity, hd₂.bits⟩ (by omega) (fun k _ hk => hmem₂.lt hd₂ (σ := .data k) (by
        simp only [Slot.pos]; omega))
    refine ⟨clear_arrays { s₃ with disk := disk₄ }, ?_, ?_⟩
    · rw [hlast, ok_bind, hzero, ok_bind, pure_eq_ok]
    · change disk₄ FREE_MAP_SECTOR = _
      rw [hframe₄ FREE_MAP_SECTOR (fun k _ hk => hne (.data k) (by simp only [Slot.pos]; omega)),
        hs₃]
      change Function.update disk₃ FREE_MAP_SECTOR (fun _ => 0) FREE_MAP_SECTOR = _
      exact Function.update_self _ _ _

/-- A cleared sector reads as an inode of no bytes. -/
theorem read_inode_zero {s' : FileSys} {x : ℕ} {inode : Inode} (hdisk : s'.disk x = fun _ => 0)
    (h : read_inode s' x = .ok inode) : inode.data.length = 0 := by
  obtain ⟨b, hb, hinode⟩ := bind_eq_ok h
  obtain ⟨-, -, hb⟩ := bind_eq_ok hb
  obtain rfl := Except.ok.inj hb
  obtain rfl := Except.ok.inj hinode
  rw [hdisk]
  rfl

/-- **`inode_create` writes only its own sectors** exactly when the file does not end with a
full row of the doubly indirect level. `calloc` gives the inode, and `malloc` the bounce buffers
for the free map. -/
theorem inode_create_own_iff (h : CreateCall s sector length) (isdir : Bool) :
    CreatesOwn s sector length isdir ↔
      ¬ (250 < bytes_to_sectors length ∧ (bytes_to_sectors length - 250) % 128 = 0) := by
  constructor
  · rintro ⟨s', hrun, ⟨inode, hread, hlen, -⟩, hframe⟩ ⟨h250, hrows⟩
    obtain hbounds | ⟨s'', hrun', hboot⟩ := h.full_row isdir
      (q := (bytes_to_sectors length - 250) / 128) (by omega) (by omega)
    · rw [hrun] at hbounds
      cases hbounds
    · obtain rfl : s'' = s' := by
        rw [hrun] at hrun'
        exact (Prod.mk.inj (Except.ok.inj hrun')).2.symm
      rcases h.boot with rfl | hmagic
      · -- the target itself was overwritten
        rw [← hlen, read_inode_zero hboot hread] at h250
        exact absurd h250 (by decide)
      · have hchanged : s''.disk FREE_MAP_SECTOR ≠ s.disk FREE_MAP_SECTOR := by
          intro he
          rw [← he, hboot] at hmagic
          exact absurd hmagic (by decide)
        rcases hframe _ hchanged with hsec | hfree | ⟨f, hf, k, hk, he⟩
        · rw [← hsec] at hread
          rw [← hlen, read_inode_zero hboot hread] at h250
          exact absurd h250 (by decide)
        · rw [h.ready.boot] at hfree
          cases hfree
        · exact h.ready.file_boot f hf (.data k) hk he.symm
  · intro hrows
    have hc : CreateOk (bytes_to_sectors length) :=
      ⟨h.max, fun h250 hmod => hrows ⟨h250, hmod⟩⟩
    obtain ⟨d, s', hrun, hC, hlen⟩ :=
      inode_create_spec length isdir h.ready.ok h.used h.file hc h.room
    have hblocks : d.blocks = bytes_to_sectors length := by rw [InodeDisk.blocks, hlen]
    refine ⟨s', hrun, ?_, ?_⟩
    · rw [← hlen]
      exact hC.reads_zero h.used (by rw [hblocks]; exact h.max)
    · intro y hy
      by_contra hcon
      push Not at hcon
      obtain ⟨h1, h2, h3⟩ := hcon
      exact hy (hC.frame y (by simpa using h2) h1 h3)

end Creation

/-! ## A disk with room -/

/-- The free map's file on a disk of 1000 sectors. -/
def roomy_free_map_file : Inode where
  sector := FREE_MAP_SECTOR
  open_cnt := 1
  removed := false
  deny_write_cnt := 0
  data :=
    { inode_i := 1, length := 128, magic := INODE_MAGIC, isdir := true,
      direct_block := fun k => if k = 0 then 2 else 0, indirect_block := 0,
      doubly_indirect_block := 0 }

/-- The disk: sectors 0 and 1 are the fixed inodes, 2 is the free map's block, 3 has just
been allocated for a new inode, and the rest is free. -/
def roomy_fs : FileSys where
  disk n := if n = FREE_MAP_SECTOR then inode_image roomy_free_map_file.data else fun _ => 0
  free_map := { bit_cnt := 1000, bits := fun i => i < 4 }
  free_map_file := some roomy_free_map_file
  indirect_sec_idx := fun _ => 0
  doubly_sec_parent := fun _ => 0
  doubly_sec_idx := fun _ => 0
  next_iid := 3

theorem roomy_free_map_slot {τ : Slot} (hτ : τ.pos < roomy_free_map_file.data.blocks) :
    τ = .data 0 ∧ disk_slot roomy_fs.disk roomy_free_map_file.data τ = 2 := by
  have hB : roomy_free_map_file.data.blocks = 1 := rfl
  rw [hB] at hτ
  cases τ with
  | data k =>
    obtain rfl : k = 0 := by simpa [Slot.pos] using hτ
    exact ⟨rfl, rfl⟩
  | _ => simp [Slot.pos] at hτ

theorem roomy_fs_ready : Ready roomy_fs where
  ok :=
    { disk := ⟨by decide, fun i hi => by
        have : i < 4 := by simpa [roomy_fs] using hi
        change i < 1000
        omega⟩
      file := by
        intro f hf
        obtain rfl : roomy_free_map_file = f := Option.some.inj hf
        refine ⟨⟨?_, ?_⟩, by decide, rfl, rfl⟩
        · intro σ τ hσ hτ _
          rw [(roomy_free_map_slot hσ).1, (roomy_free_map_slot hτ).1]
        · intro σ hσ
          rw [(roomy_free_map_slot hσ).2]
          rfl }
  arrays := ⟨rfl, rfl, rfl⟩
  boot := rfl
  file_boot := by
    intro f hf τ hτ
    obtain rfl : roomy_free_map_file = f := Option.some.inj hf
    rw [(roomy_free_map_slot hτ).2]
    decide

theorem roomy_call {length : ℕ} (hmax : bytes_to_sectors length ≤ MAX_BLOCKS)
    (hroom : (slotsFrom (bytes_to_sectors length) 0).length ≤ (free_sectors roomy_fs).card) :
    CreateCall roomy_fs 3 length where
  ready := roomy_fs_ready
  used := rfl
  file := by
    intro f hf τ hτ
    obtain rfl : roomy_free_map_file = f := Option.some.inj hf
    rw [(roomy_free_map_slot hτ).2]
    decide
  boot := by
    right
    exact word_ofWords (inode_words roomy_free_map_file.data) 2 (by decide)
  max := hmax
  room := hroom

/-- A file of two blocks. -/
theorem inode_create_own_two : CreatesOwn roomy_fs 3 600 false ↔
    ¬ (250 < bytes_to_sectors 600 ∧ (bytes_to_sectors 600 - 250) % 128 = 0) :=
  inode_create_own_iff (roomy_call (by decide) (by decide +kernel)) false

/-- **Creating a file of 378 blocks clears sector 0.** The doubly indirect level has one full
row, and the write-back writes the row behind it. -/
theorem create_clears_boot : ¬ ∀ (s : FileSys) (sector length : ℕ) (isdir : Bool),
    CreateCall s sector length → CreatesOwn s sector length isdir := by
  intro hall
  have hcall : CreateCall roomy_fs 3 (378 * 512) := roomy_call (by decide) (by decide +kernel)
  obtain ⟨s', hrun, -, hframe⟩ := hall roomy_fs 3 (378 * 512) false hcall
  obtain hbounds | ⟨s'', hrun', hboot⟩ := hcall.full_row false (q := 1) le_rfl (by decide)
  · rw [hrun] at hbounds
    cases hbounds
  · obtain rfl : s'' = s' := by
      rw [hrun] at hrun'
      exact (Prod.mk.inj (Except.ok.inj hrun')).2.symm
    have hchanged : s''.disk FREE_MAP_SECTOR ≠ roomy_fs.disk FREE_MAP_SECTOR := by
      intro he
      have hword := congrArg (fun b => word b 2) he
      simp only [hboot] at hword
      exact absurd hword (by decide)
    rcases hframe _ hchanged with hsec | hfree | ⟨f, hf, k, hk, he⟩
    · cases hsec
    · cases hfree
    · exact roomy_fs_ready.file_boot f hf (.data k) hk he.symm

end Pintos.Filesys
