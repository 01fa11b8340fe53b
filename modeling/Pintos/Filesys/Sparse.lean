/-
The gap of a write behind the end of file.

`fill_zeros` clears whole tails of blocks from the old end of file on, and counts the bytes
with `size = offset - old_eof - 1`. So the last byte of the gap is cleared only if it shares
its block with the one before. It looks its sectors up in the static arrays, which hold the
last block's sector only if `add_blocks` ran and read it in.

Blocks are not cleared when they are allocated, so the statement is about every old content
of the free sectors and of the tail of the last block.
-/
import Pintos.Filesys.Access

set_option autoImplicit false

namespace Pintos.Filesys.DiskIo.Access

open Pintos.Kernel WordImage Traced

/-- A write that leaves a gap behind the end of file, with the sectors it takes free. -/
structure GapCall (s : FileSys) (inode : Inode) (size offset : ℕ) : Prop where
  file : OpenFile s inode
  writable : inode.deny_write_cnt = 0
  gap : inode.data.length < offset
  size_pos : 0 < size
  max : offset + size ≤ 512 * MAX_BLOCKS
  room : needs_blocks inode.data.length (offset + size) →
    (grown_slots inode.data.length (offset + size)).length ≤ (free_sectors s).card

/-- `disk'` is the disk of `s` with other bytes in the free sectors and in the tail of the
last block. -/
def OldContents (s : FileSys) (inode : Inode) (disk' : ℕ → Sector) : Prop :=
  ∀ y j, s.free_map.bits y = true →
    (inode.data.length % 512 ≠ 0 → y = block s.disk inode.data (inode.data.length / 512) →
      j < inode.data.length % 512) → disk' y j = s.disk y j

/-- A data sector of the file after the call, one it had or was given. -/
def DataSector (s s' : FileSys) (inode inode' : Inode) (x : ℕ) : Prop :=
  (∃ k < inode'.data.blocks, x = block s'.disk inode'.data k) ∧
    x ∈ inode_sectors s inode ∪ ↑(newly_marked s s')

/-- The commands of `fill_zeros` in a call. -/
def fill_commands (s : FileSys) (inode : Inode) (size offset : ℕ) : List Command :=
  match (grow s inode (offset + size)).result with
  | .ok r => (fill_zeros r.2 r.1.data r.1.data.length offset).trace
  | .error _ => []

/-- The call succeeds, the gap reads as zeros, and filling it went to data sectors only. -/
def GapZero (s : FileSys) (inode : Inode) (buffer : ℕ → UInt8) (size offset : ℕ) : Prop :=
  ∃ inode' s', Filesys.inode_write_at s inode buffer size offset = .ok (size, inode', s') ∧
    (∀ p, inode.data.length ≤ p → p < offset →
      Filesys.inode_read_at s' inode' 1 p = .ok [0]) ∧
    ∀ c ∈ fill_commands s inode size offset, DataSector s s' inode inode' (sec_no c)

/-- So it is whatever the free sectors and the tail of the last block held. -/
def FillsGap (s : FileSys) (inode : Inode) (size offset : ℕ) : Prop :=
  ∀ disk', OldContents s inode disk' → ∀ buffer : ℕ → UInt8,
    GapZero { s with disk := disk' } inode buffer size offset

/-- The gaps that are filled: of more than one byte, with the last byte not the first one of a
block; and the last block is in the arrays, the new end is within them, and not inside a
block whose pointer is not written back. -/
structure GapFits (length size offset : ℕ) : Prop where
  two : length + 2 ≤ offset
  last : (offset - 1) % 512 ≠ 0
  within : ¬ needs_blocks length (offset + size) → length / 512 < 122
  max : needs_blocks length (offset + size) → offset + size < 512 * MAX_BLOCKS
  tail : needs_blocks length (offset + size) → length % 512 ≠ 0 → Loaded length (length / 512)
  indirect : needs_blocks length (offset + size) →
    ¬ (122 * 512 < offset + size ∧ offset + size < 123 * 512)
  doubly : needs_blocks length (offset + size) →
    ¬ (250 * 512 < offset + size ∧ offset + size < 251 * 512)

/-- If the last block was read in, the parents were. -/
theorem parents_of_tail {length : ℕ} (h : length % 512 ≠ 0 → Loaded length (length / 512)) :
    ParentsLoaded length := by
  simp only [ParentsLoaded, Loaded] at h ⊢
  intro hin
  have := h (by omega)
  omega

section Fills

variable {s s₁ : FileSys} {inode : Inode} {d : InodeDisk} {n size offset : ℕ}

/-- What the gap needs of the file system after `add_blocks`: the blocks from the old end of
file on are distinct, and none is the inode's own sector. -/
structure GapBlocks (s₁ : FileSys) (inode : Inode) (d : InodeDisk) (n : ℕ) : Prop where
  inj : ∀ k l, inode.data.length / 512 ≤ k → k < l → l < n →
    block s₁.disk d k ≠ block s₁.disk d l
  own : ∀ k, inode.data.length / 512 ≤ k → k < n → block s₁.disk d k ≠ inode.sector

/-- After the call a byte of a gap block is what `fill_zeros` left. -/
theorem GapBlocks.byte {disk₄ disk' : ℕ → Sector} {p : ℕ} (hb : GapBlocks s₁ inode d n)
    (hs : Staged s₁ inode d n size offset disk₄ disk') (hn : n = bytes_to_sectors (offset + size))
    (hp : inode.data.length ≤ p) (hpo : p < offset) :
    disk' (block s₁.disk d (p / 512)) (p % 512)
      = disk₄ (block s₁.disk d (p / 512)) (p % 512) := by
  have hN : bytes_to_sectors (offset + size) = (offset + size + 511) / 512 := rfl
  refine hs.written _ _ (Nat.mod_lt _ (by norm_num)) (hb.own _ (by omega) (by omega)) ?_
  intro k hk hin
  -- a byte of the range in the same sector would be a byte of the same block
  rcases lt_trichotomy (p / 512) k with hlt | rfl | hgt
  · exact hb.inj _ _ (by omega) hlt (by omega) hk
  · omega
  · omega

/-- A byte of the gap is read from its block. -/
theorem gap_read {disk₄ disk' : ℕ → Sector} {p : ℕ} (hG : Grown s₁ inode d n)
    (hs : Staged s₁ inode d n size offset disk₄ disk') (hn : n = bytes_to_sectors (offset + size))
    (hpo : p < offset) :
    Filesys.inode_read_at { clear_arrays s₁ with disk := disk' }
        { inode with data := { d with length := offset + size } } 1 p
      = .ok [disk' (block s₁.disk d (p / 512)) (p % 512)] := by
  have hN : bytes_to_sectors (offset + size) = (offset + size + 511) / 512 := rfl
  have hblocks : ({ d with length := offset + size } : InodeDisk).blocks = n := hn.symm
  have hon : OnDisk { clear_arrays s₁ with disk := disk' } { d with length := offset + size }
      ({ d with length := offset + size } : InodeDisk).blocks := by
    refine ⟨hG.capacity, ?_⟩
    intro σ hσ
    rw [hblocks] at hσ
    change disk_slot disk' _ σ < s₁.capacity
    rw [hs.slot σ hσ]
    exact hG.lt σ hσ
  have hread := @OnDisk.inode_read_at _ { inode with
    data := { d with length := offset + size } } hon (by rw [hblocks]; exact hG.max) 1 p
    (show p + 1 ≤ offset + size by omega)
  rw [hread]
  have hslot := hs.slot (.data (p / 512)) (show p / 512 < n by omega)
  simp only [List.range_one, List.map_cons, List.map_nil, Nat.add_zero, file_byte, block]
  rw [hslot]

/-- **A gap that is filled**, from the file system after `add_blocks`. -/
theorem gap_zero (buffer : ℕ → UInt8) (hc : GapCall s inode size offset)
    (hn : n = bytes_to_sectors (offset + size)) (hG : Grown s₁ inode d n)
    (hb : GapBlocks s₁ inode d n) (harr : ∀ k, inode.data.length / 512 ≤ k → k < n →
      mem_slot s₁ d (.data k) = block s₁.disk d k) (hlen : d.length = inode.data.length)
    (hgrow : (grow s inode (offset + size)).result = .ok ({ inode with data := d }, s₁))
    (htwo : inode.data.length + 2 ≤ offset) (hlast : (offset - 1) % 512 ≠ 0)
    (hdata : ∀ k, inode.data.length / 512 ≤ k → k < n →
      block s₁.disk d k ∈ inode_sectors s inode ∪ ↑(newly_marked s s₁)) :
    GapZero s inode buffer size offset := by
  have hN : bytes_to_sectors (offset + size) = (offset + size + 511) / 512 := rfl
  have hgap := hc.gap
  have hlt : inode.data.length < offset + size := by omega
  have hgrow' := hgrow
  rw [grow_result] at hgrow'
  obtain ⟨disk₄, disk', -, hrun, hs⟩ := hG.write buffer hn hlt hc.writable hgrow'
  refine ⟨_, _, hrun, ?_, ?_⟩
  · intro p hp hpo
    have hk : p / 512 < n := by omega
    rw [gap_read hG hs hn hpo, hb.byte hs hn hp hpo, ← harr _ (by omega) hk,
      hs.zero ?_ p (by omega) (by omega) (by omega)]
    intro k l hk1 hkl hl
    rw [hlen] at hk1
    rw [harr k hk1 (by omega), harr l (by omega) hl]
    exact hb.inj k l hk1 hkl hl
  · have hwithin : Within { x | DataSector s { clear_arrays s₁ with disk := disk' } inode
        { inode with data := { d with length := offset + size } } x }
        (fill_zeros s₁ d d.length offset) := by
      refine within_fill (n := n) hG.max _ _ _ _ (fun _ => by omega) (fun k hpos hk1 hk2 => ?_)
      change 0 < offset - d.length - 1 at hpos
      change d.length / 512 ≤ k at hk1
      change 512 * k < d.length + (offset - d.length - 1) at hk2
      have hk : k < n := by omega
      rw [harr k (by omega) hk]
      refine ⟨⟨k, show k < bytes_to_sectors (offset + size) by omega, ?_⟩, ?_⟩
      · rw [block, block, hs.slot (.data k) hk]
      · exact hdata k (by omega) hk
    intro c hmem
    rw [fill_commands, hgrow] at hmem
    exact hwithin c hmem

/-- After `add_blocks` the blocks from the old end of file on are as the gap needs them, if
the last block was read in. -/
theorem gapBlocks_of_extended {new_eof : ℕ} (hf : FileOk s inode)
    (hneed : needs_blocks inode.data.length new_eof)
    (htail : inode.data.length % 512 ≠ 0 → Loaded inode.data.length (inode.data.length / 512))
    (hE : Extended s s₁ inode.data d new_eof (bytes_to_sectors new_eof)) :
    GapBlocks s₁ inode d (bytes_to_sectors new_eof) ∧
      ∀ k, inode.data.length / 512 ≤ k → k < bytes_to_sectors new_eof →
        block s₁.disk d k ∈ inode_sectors s inode ∪ ↑(newly_marked s s₁) := by
  have hN : bytes_to_sectors new_eof = (new_eof + 511) / 512 := rfl
  have hB : inode.data.blocks = (inode.data.length + 511) / 512 := rfl
  -- an old block among them is the last one, which is loaded
  have hcases : ∀ k, inode.data.length / 512 ≤ k → k < bytes_to_sectors new_eof →
      (k < inode.data.blocks ∧ k = inode.data.length / 512 ∧
        block s₁.disk d k = block s.disk inode.data k) ∨
      .data k ∈ grown_slots inode.data.length new_eof := by
    intro k hk1 hk2
    rw [block, hE.disk (.data k) hk2]
    rcases hE.slot_cases hneed (σ := .data k) (show k ≤ new_eof / 512 by omega) with
      ⟨hb, he⟩ | ⟨l, hl, he, hlost, -⟩ | ⟨-, hmem⟩
    · simp only [Slot.pos] at hb
      exact Or.inl ⟨hb, by omega, he⟩
    · obtain rfl : k = l := by injection he
      refine absurd ?_ hlost
      have hkL : k = inode.data.length / 512 := by omega
      rw [hkL]
      exact htail (by omega)
    · exact Or.inr hmem
  refine ⟨⟨?_, ?_⟩, ?_⟩
  · intro k l hk1 hkl hl he
    rcases hcases l (by omega) hl with ⟨hlb, hlL, -⟩ | hl'
    · omega
    · rw [block, block, hE.disk (.data l) hl] at he
      rcases hcases k hk1 (by omega) with ⟨hkb, -, hold⟩ | hk'
      · rw [block] at hold
        exact hE.ne_used hl' (hf.map.used (.data k) hkb) (he.symm.trans hold)
      · rw [hE.disk (.data k) (show k < bytes_to_sectors new_eof by omega)] at he
        have := hE.inj (.data k) hk' (.data l) hl' he
        injection this with hkl'
        omega
  · intro k hk1 hk2
    rcases hcases k hk1 hk2 with ⟨hkb, -, hold⟩ | hk'
    · rw [hold]
      exact hf.own (.data k) hkb
    · rw [block, hE.disk (.data k) hk2]
      exact hE.ne_used hk' hf.used
  · intro k hk1 hk2
    rw [block, hE.disk (.data k) hk2]
    refine mem_sectors hE hneed (σ := .data k) (show k ≤ new_eof / 512 by omega) ?_
    intro k' he hk'
    obtain rfl : k = k' := by injection he
    have hkL : k = inode.data.length / 512 := by omega
    rw [hkL]
    exact htail (by omega)

/-- **A gap that fits is filled.** -/
theorem GapCall.fills (h : GapCall s inode size offset)
    (hfits : GapFits inode.data.length size offset) (buffer : ℕ → UInt8) :
    GapZero s inode buffer size offset := by
  have hr := h.file.ready
  have hf := h.file.file
  have hgap := h.gap
  have hM : MAX_BLOCKS = 16634 := rfl
  have hB : bytes_to_sectors inode.data.length = inode.data.blocks := rfl
  have hB' : inode.data.blocks = (inode.data.length + 511) / 512 := rfl
  have hN : bytes_to_sectors (offset + size) = (offset + size + 511) / 512 := rfl
  by_cases hneed : needs_blocks inode.data.length (offset + size)
  · have hneed' := needs_blocks_iff.mp hneed
    have hmax := hfits.max hneed
    have h122 := hfits.indirect hneed
    have h250 := hfits.doubly hneed
    have hflush : FlushOk ((offset + size) / 512) (bytes_to_sectors (offset + size))
        ((offset + size) / 512 + 1) := by
      constructor <;> omega
    obtain ⟨d', s₁, hadd, hE⟩ := add_blocks_extends hr hf hneed hmax
      (parents_of_tail (hfits.tail hneed)) hflush (h.room hneed)
    obtain ⟨hb, hdata⟩ := gapBlocks_of_extended hf hneed (hfits.tail hneed) hE
    exact gap_zero buffer h rfl (hE.grown hr hf hneed hmax) hb
      (fun k _ hk => (hE.disk (.data k) hk).symm) hE.header.length
      (by rw [grow_result, if_pos hneed]; exact hadd) hfits.two hfits.last hdata
  · have hneed' := mt needs_blocks_iff.mpr hneed
    have htail := hfits.within hneed
    have hblocks : inode.data.blocks = bytes_to_sectors (offset + size) := by omega
    have hgrown := hf.grown hr
    have hone : ∀ k, inode.data.length / 512 ≤ k → k < inode.data.blocks →
        k = inode.data.length / 512 := by
      intro k hk1 hk2
      omega
    refine gap_zero buffer h hblocks hgrown ⟨?_, ?_⟩ ?_ rfl
      (by rw [grow_result, if_neg hneed]) hfits.two hfits.last ?_
    · intro k l hk1 hkl hl
      have := hone l (by omega) hl
      omega
    · intro k _ hk2
      exact hf.own (.data k) hk2
    · intro k hk1 hk2
      rw [mem_slot, if_pos (by rw [hone k hk1 hk2]; exact htail), block_direct _ _ (by
        rw [hone k hk1 hk2]
        exact htail)]
    · intro k _ hk2
      exact Or.inl (Or.inr ⟨.data k, hk2, rfl⟩)

end Fills

/-! ## Other old contents -/

section Contents

variable {s : FileSys} {inode : Inode} {size offset : ℕ} {disk' : ℕ → Sector}

/-- A sector in use that is not the last block is as it was. -/
theorem OldContents.same (h : OldContents s inode disk') {y : ℕ} (hy : s.free_map.bits y = true)
    (hne : inode.data.length % 512 ≠ 0 →
      y ≠ block s.disk inode.data (inode.data.length / 512)) : disk' y = s.disk y := by
  funext j
  exact h y j hy (fun hmod he => absurd he (hne hmod))

/-- The last block is a block of the file. -/
theorem tail_pos (hmod : inode.data.length % 512 ≠ 0) :
    (Slot.data (inode.data.length / 512)).pos < inode.data.blocks := by
  simp only [Slot.pos, InodeDisk.blocks, bytes_to_sectors]
  omega

theorem OldContents.index (h : OldContents s inode disk') (hf : FileOk s inode) (τ : Slot)
    (hτ : τ.IsIndex) (hpos : τ.pos < inode.data.blocks) :
    disk' (disk_slot s.disk inode.data τ) = s.disk (disk_slot s.disk inode.data τ) := by
  refine h.same (hf.map.used τ hpos) (fun hmod he => ?_)
  have := hf.map.inj τ (.data _) hpos (tail_pos hmod) he
  subst this
  exact hτ

/-- The map of the file is where it was. -/
theorem OldContents.slot (h : OldContents s inode disk') (hf : FileOk s inode) {σ : Slot}
    (hσ : σ.pos < inode.data.blocks) :
    disk_slot disk' inode.data σ = disk_slot s.disk inode.data σ :=
  disk_slot_congr (h.index hf) hσ

/-- A call is one with the other contents too. -/
theorem GapCall.other (h : GapCall s inode size offset) (ho : OldContents s inode disk') :
    GapCall { s with disk := disk' } inode size offset := by
  obtain ⟨⟨hr, hf, hsec⟩, hdeny, hgap, hpos, hmax, hroom⟩ := h
  have hmapindex : ∀ f, s.free_map_file = some f → ∀ τ : Slot, τ.pos < f.data.blocks →
      disk' (disk_slot s.disk f.data τ) = s.disk (disk_slot s.disk f.data τ) := by
    intro f hf' τ hτ
    refine ho.same ((hr.ok.file f hf').map.used τ hτ) (fun hmod he => ?_)
    exact (hf.apart f hf' τ hτ).2 (.data _) (tail_pos hmod) he.symm
  have hmapslot : ∀ f, s.free_map_file = some f → ∀ τ : Slot, τ.pos < f.data.blocks →
      disk_slot disk' f.data τ = disk_slot s.disk f.data τ := fun f hf' τ hτ =>
    disk_slot_congr (fun υ _ hυ => hmapindex f hf' υ hυ) hτ
  refine ⟨⟨⟨?_, ⟨hr.arrays.indirect, hr.arrays.parent, hr.arrays.doubly⟩, hr.boot, ?_⟩,
    ⟨?_, hf.max, hf.used, ?_, ?_, ?_⟩, hsec⟩, hdeny, hgap, hpos, hmax, hroom⟩
  · exact hr.ok.of_index rfl rfl (fun f hf' τ _ hτ => hmapindex f hf' τ hτ)
  · intro f hf' τ hτ
    change disk_slot disk' f.data τ ≠ _
    rw [hmapslot f hf' τ hτ]
    exact hr.file_boot f hf' τ hτ
  · exact hf.map.frame (ho.index hf) (fun _ hi => hi)
  · intro σ hσ
    change disk_slot disk' inode.data σ ≠ _
    rw [ho.slot hf hσ]
    exact hf.own σ hσ
  · intro σ hσ
    change disk_slot disk' inode.data σ ≠ _
    rw [ho.slot hf hσ]
    exact hf.boot σ hσ
  · intro f hf' τ hτ
    change disk_slot disk' f.data τ ≠ _ ∧ ∀ σ : Slot, σ.pos < inode.data.blocks →
      disk_slot disk' inode.data σ ≠ disk_slot disk' f.data τ
    rw [hmapslot f hf' τ hτ]
    refine ⟨(hf.apart f hf' τ hτ).1, ?_⟩
    intro σ hσ
    rw [ho.slot hf hσ]
    exact (hf.apart f hf' τ hτ).2 σ hσ

/-- The disk with all ones in the free sectors and in the tail of the last block. -/
def stale_disk (s : FileSys) (inode : Inode) : ℕ → Sector := fun y j =>
  if s.free_map.bits y = true ∧ (inode.data.length % 512 ≠ 0 →
    y = block s.disk inode.data (inode.data.length / 512) → j < inode.data.length % 512)
  then s.disk y j else 0xff

/-- The free sectors and the tail of the last block hold ones. -/
structure Stale (s : FileSys) (inode : Inode) : Prop where
  free : ∀ y, s.free_map.bits y = false → s.disk y = fun _ => 0xff
  tail : ∀ j, inode.data.length % 512 ≠ 0 → inode.data.length % 512 ≤ j →
    s.disk (block s.disk inode.data (inode.data.length / 512)) j = 0xff

theorem stale_disk_old (s : FileSys) (inode : Inode) :
    OldContents s inode (stale_disk s inode) := by
  intro y j hy ht
  rw [stale_disk, if_pos ⟨hy, ht⟩]

theorem stale_disk_stale (hf : FileOk s inode) :
    Stale { s with disk := stale_disk s inode } inode where
  free y hy := by
    funext j
    change stale_disk s inode y j = _
    rw [stale_disk, if_neg]
    rintro ⟨hused, -⟩
    rw [show s.free_map.bits y = false from hy] at hused
    cases hused
  tail j hmod hj := by
    change stale_disk s inode (block (stale_disk s inode) inode.data _) j = _
    rw [block, (stale_disk_old s inode).slot hf (tail_pos hmod), stale_disk, if_neg]
    rintro ⟨-, ht⟩
    have := ht hmod rfl
    omega

end Contents

/-! ## Gaps that are not filled -/

section NotFilled

variable {s s₁ s' : FileSys} {inode inode' : Inode} {d : InodeDisk} {n size offset : ℕ}

theorem word_ones : word (fun _ => 0xff) 0 = 2 ^ 32 - 1 := by decide

theorem not_disk_write_big {x : ℕ} {b : Sector} (hx : 2 ^ 28 ≤ x) (r : FileSys) :
    Filesys.disk_write s x b ≠ .ok r := by
  intro h
  obtain ⟨u, ha, -⟩ := bind_eq_ok h
  have := (ASSERT_eq_ok ha).2
  omega

theorem not_disk_read_big {x : ℕ} (hx : 2 ^ 28 ≤ x) (b : Sector) :
    Filesys.disk_read s x ≠ .ok b := by
  intro h
  obtain ⟨u, ha, -⟩ := bind_eq_ok h
  have := (ASSERT_eq_ok ha).2
  omega

/-- A block looked up in an index sector of ones is off the disk: block 122 in the indirect
block, block 250 through the doubly indirect one. -/
theorem stale_lookup {m x w ofs bw : ℕ} {c : IndexCache} {t : FileSys} (buffer : ℕ → UInt8)
    (hm : m = 122 ∧ d.indirect_block = x ∨ m = 250 ∧ d.doubly_indirect_block = x)
    (hc : CacheOk s.disk d m c) (hx : s.disk x = fun _ => 0xff) {c' : IndexCache} {y : ℕ}
    (hb : Filesys.block_sector s d c m = .ok (y, c')) :
    Filesys.write_chunk s y buffer bw ofs w ≠ .ok t := by
  have hD : DIRECT_LEN = 122 := rfl
  have hy : y = 2 ^ 32 - 1 := by
    rcases hm with ⟨rfl, hx'⟩ | ⟨rfl, hx'⟩
    · rw [Filesys.block_sector, if_neg (by omega), if_pos (by omega)] at hb
      obtain ⟨c₁, hl, hret⟩ := bind_eq_ok hb
      have hf : c.buffer_flag ≠ 128 := fun hf => absurd (hc.indirect hf).1 (lt_irrefl _)
      rw [Filesys.load_indirect, if_pos hf] at hl
      obtain ⟨b, hread, hl⟩ := bind_eq_ok hl
      obtain ⟨-, -, hread⟩ := bind_eq_ok hread
      rw [← (Prod.mk.inj (Except.ok.inj hret)).1, ← Except.ok.inj hl, ← Except.ok.inj hread, hx',
        hx]
      exact word_ones
    · exfalso
      rw [Filesys.block_sector, if_neg (by omega), if_neg (by omega)] at hb
      obtain ⟨c₁, hl, hb⟩ := bind_eq_ok hb
      obtain ⟨c₂, hl₂, -⟩ := bind_eq_ok hb
      have hp : c.buffer_parent_flag = false := by
        cases hp : c.buffer_parent_flag with
        | false => rfl
        | true => exact absurd (hc.parent hp).1 (lt_irrefl _)
      rw [Filesys.load_parent, if_pos hp] at hl
      obtain ⟨b, hread, hl⟩ := bind_eq_ok hl
      obtain ⟨-, -, hread⟩ := bind_eq_ok hread
      have hf : c₁.buffer_flag ≠ ((250 - DIRECT_LEN - 128) / 128 : ℕ) := by
        rw [← Except.ok.inj hl]
        exact fun hf => absurd (hc.child 0 (by norm_num) hf).1 (lt_irrefl _)
      rw [Filesys.load_child, if_pos hf, if_neg (by norm_num)] at hl₂
      obtain ⟨b₂, hread₂, -⟩ := bind_eq_ok hl₂
      refine not_disk_read_big ?_ b₂ hread₂
      rw [← Except.ok.inj hl, ← Except.ok.inj hread, hx', hx]
      change 2 ^ 28 ≤ word (fun _ => 0xff) 0
      rw [word_ones]
      norm_num
  intro h
  rw [Filesys.write_chunk] at h
  by_cases hfull : ofs = 0 ∧ w = 512
  · rw [if_pos hfull] at h
    exact not_disk_write_big (by omega) _ h
  · rw [if_neg hfull] at h
    obtain ⟨b, hread, -⟩ := bind_eq_ok h
    exact not_disk_read_big (by omega) _ hread

/-- A write loop that comes to such a block does not return. -/
theorem write_loop_stale (buffer : ℕ → UInt8) {m x : ℕ} (hmax : m ≤ MAX_BLOCKS)
    (hm : m = 122 ∧ inode.data.indirect_block = x ∨ m = 250 ∧ inode.data.doubly_indirect_block = x)
    (r : ℕ × FileSys) :
    ∀ (fuel size offset bw : ℕ) (c : IndexCache) (s : FileSys), 0 < size → size ≤ fuel →
      offset + size ≤ inode.data.length → OnDisk s inode.data m →
      (∀ τ : Slot, τ.IsIndex → τ.pos < m → ∀ k < m,
        disk_slot s.disk inode.data τ ≠ block s.disk inode.data k) →
      CacheOk s.disk inode.data m c → (∀ k < m, block s.disk inode.data k ≠ x) →
      s.disk x = (fun _ => 0xff) → offset / 512 ≤ m → 512 * m < offset + size →
      Filesys.write_loop inode buffer fuel size offset bw c s ≠ .ok r := by
  intro fuel
  induction fuel with
  | zero =>
    intro size offset bw c s hpos hf
    omega
  | succ fuel ih =>
    intro size offset bw c s hpos hf hle h hap hc hne hx hk hm' hrun
    rw [Filesys.write_loop, if_neg (by omega)] at hrun
    obtain ⟨hwpos, hsz, hsec⟩ := chunk_size_spec (d := inode.data) hpos hle
    set w := chunk_size inode.data size offset with hw
    obtain ⟨⟨y, c'⟩, hb, hrun⟩ := bind_eq_ok hrun
    rw [if_neg (by omega)] at hrun
    obtain ⟨t, hchunk, hrun⟩ := bind_eq_ok hrun
    by_cases hlast : offset / 512 = m
    · rw [hlast] at hb
      exact stale_lookup buffer hm hc hx hb hchunk
    · have hkm : offset / 512 < m := by omega
      obtain ⟨c'', hb', hc'⟩ := h.block_sector hc hmax hkm
      obtain ⟨rfl, rfl⟩ := Prod.mk.inj (Except.ok.inj (hb'.symm.trans hb))
      obtain ⟨b, hround, -⟩ := write_chunk_frame buffer bw (h.lt (.data (offset / 512)) hkm)
        h.capacity hsec
      obtain rfl := Except.ok.inj (hround.symm.trans hchunk)
      set z := block s.disk inode.data (offset / 512) with hz
      have hupdate : ∀ τ : Slot, τ.IsIndex → τ.pos < m →
          Function.update s.disk z b (disk_slot s.disk inode.data τ)
            = s.disk (disk_slot s.disk inode.data τ) := fun τ hτ hpos =>
        Function.update_of_ne (hap τ hτ hpos _ hkm) _ _
      have hslot : ∀ σ : Slot, σ.pos < m →
          disk_slot (Function.update s.disk z b) inode.data σ = disk_slot s.disk inode.data σ :=
        fun σ hσ => disk_slot_congr hupdate hσ
      have hchunk : offset % 512 + w = 512 ∨ size - w = 0 ∨ inode.data.length = offset + w := by
        rw [hw]
        simp only [chunk_size]
        split_ifs <;> omega
      refine ih (size - w) (offset + w) (bw + w) c''
        { s with disk := Function.update s.disk z b } (by omega) (by omega) (by omega)
        ⟨h.capacity, fun σ hσ => ?_⟩ (fun τ hτ hpos k hk' => ?_) (hc'.frame hupdate)
        (fun k hk' => ?_) ?_ (by omega) (by omega) hrun
      · change disk_slot (Function.update s.disk z b) inode.data σ < s.capacity
        rw [hslot σ hσ]
        exact h.lt σ hσ
      · change disk_slot (Function.update s.disk z b) inode.data τ
          ≠ disk_slot (Function.update s.disk z b) inode.data (.data k)
        rw [hslot τ hpos, hslot (.data k) hk']
        exact hap τ hτ hpos k hk'
      · change disk_slot (Function.update s.disk z b) inode.data (.data k) ≠ x
        rw [hslot (.data k) hk']
        exact hne k hk'
      · change Function.update s.disk z b x = _
        rw [Function.update_of_ne (hne _ hkm).symm]
        exact hx

/-- **Inside block 122 or 250** the new index sector is not written, so what it held decides
where the block is. Ones are nowhere. -/
theorem GapCall.stale_pointer (h : GapCall s inode size offset) (hs : Stale s inode)
    (buffer : ℕ → UInt8) (hneed : needs_blocks inode.data.length (offset + size)) {m : ℕ}
    (hm : m = 122 ∨ m = 250) (hlo : m * 512 < offset + size)
    (hhi : offset + size < (m + 1) * 512) (r : ℕ × Inode × FileSys) :
    Filesys.inode_write_at s inode buffer size offset ≠ .ok r := by
  have hD : DIRECT_LEN = 122 := rfl
  have hM : MAX_BLOCKS = 16634 := rfl
  have hr := h.file.ready
  have hf := h.file.file
  have hgap := h.gap
  have hpos := h.size_pos
  have hneed' := needs_blocks_iff.mp hneed
  have hB : bytes_to_sectors inode.data.length = inode.data.blocks := rfl
  have hB' : inode.data.blocks = (inode.data.length + 511) / 512 := rfl
  have hN : (offset + size) / 512 = m := by omega
  have hmax : offset + size < 512 * MAX_BLOCKS := by omega
  have hparents : ParentsLoaded inode.data.length := by
    simp only [ParentsLoaded]
    omega
  have hflush : FlushOk ((offset + size) / 512) m ((offset + size) / 512 + 1) := by
    constructor <;> omega
  obtain ⟨d', s₁, hadd, hE⟩ := add_blocks_extends hr hf hneed hmax hparents hflush (h.room hneed)
  obtain ⟨s₀, d₂, s₂, hstages⟩ := add_blocks_stages hr hf hneed hmax (h.room hneed)
  -- the new index sector
  obtain ⟨σ, hσi, hσm, hslot⟩ : ∃ σ : Slot, σ.IsIndex ∧ σ.pos = m ∧
      (m = 122 ∧ d'.indirect_block = mem_slot s₁ d' σ ∨
        m = 250 ∧ d'.doubly_indirect_block = mem_slot s₁ d' σ) := by
    rcases hm with rfl | rfl
    · exact ⟨.indirect, trivial, rfl, Or.inl ⟨rfl, rfl⟩⟩
    · exact ⟨.doubly, trivial, rfl, Or.inr ⟨rfl, rfl⟩⟩
  have hσ : σ ∈ grown_slots inode.data.length (offset + size) := by
    rw [mem_grown_slots (by omega)]
    omega
  set x := mem_slot s₁ d' σ with hx
  have hfree : s.free_map.bits x = false := hE.fresh σ hσ
  have hones : s₁.disk x = fun _ => 0xff := by
    rw [← hs.free x hfree]
    have hrun := hstages.run
    rw [hadd] at hrun
    obtain ⟨s₃, hwrite, hret⟩ := bind_eq_ok hrun.symm
    obtain ⟨hd, rfl⟩ := Prod.mk.inj (Except.ok.inj hret)
    have hd' : d₂ = d' := congrArg Inode.data hd
    subst hd'
    have hold : s₂.disk x = s.disk x := by
      have harr := hstages.arrays
      rw [hstages.allocated.disk x ?_, harr]
      rintro ⟨f, hf', l, hl, he⟩
      rw [harr] at hf' he
      rw [he, (hr.ok.file f hf').map.used (.data l) hl] at hfree
      cases hfree
    rw [← hold]
    rw [hN] at hwrite
    rcases hm with rfl | rfl
    · rw [Filesys.write_index, if_neg (by omega), ok_bind, if_neg (by omega)] at hwrite
      rw [Except.ok.inj hwrite]
    · rw [Filesys.write_index, if_pos (by omega)] at hwrite
      obtain ⟨s₄, hone, hwrite⟩ := bind_eq_ok hwrite
      obtain ⟨-, -, hone⟩ := bind_eq_ok hone
      rw [if_neg (by omega)] at hwrite
      rw [← Except.ok.inj hwrite, ← Except.ok.inj hone]
      refine Function.update_of_ne ?_ _ _
      intro he
      have hind : mem_slot s₃ d₂ .indirect = x := he.symm
      rcases hE.slot_cases hneed (σ := .indirect) (by simp only [Slot.pos]; omega) with
        ⟨hb, h1⟩ | ⟨l, -, h1, -, -⟩ | ⟨-, h1⟩
      · exact hE.ne_used hσ (hf.map.used .indirect hb) (hind.symm.trans h1)
      · cases h1
      · have := hE.inj .indirect h1 σ hσ hind
        rw [← this] at hσm
        simp only [Slot.pos] at hσm
        omega
  -- `fill_zeros` and the write of the inode keep the index sectors
  obtain ⟨disk₄, hfill, hsame, -⟩ := fill_zeros_loop_spec (d := d') (n := m + 1) (by omega)
    (offset - d'.length - 1) d'.length (offset - d'.length - 1) s₁ le_rfl hE.ok.disk (by
      have := hE.header.length
      omega)
    (fun k _ hk => hE.mem_lt hr hf hneed (σ := .data k) (by simp only [Slot.pos]; omega))
  set d₅ : InodeDisk := { d' with length := offset + size } with hd₅
  set inode₅ : Inode := { inode with data := d₅ } with hinode₅
  set s₅ : FileSys := { clear_arrays s₁ with
    disk := Function.update disk₄ inode.sector (inode_image d₅) } with hs₅
  have hindex : ∀ τ : Slot, τ.IsIndex → τ.pos ≤ m →
      s₅.disk (mem_slot s₁ d' τ) = s₁.disk (mem_slot s₁ d' τ) := by
    intro τ hτ hpos
    change Function.update disk₄ inode.sector _ _ = _
    rw [Function.update_of_ne (hE.mem_own hf hneed hτ (by omega))]
    funext j
    refine hsame _ _ ?_
    intro k _ hk he
    exact absurd he (hE.mem_cross hr hf hneed hτ (by omega) (by omega))
  have hlook : ∀ τ : Slot, τ.pos < m → disk_slot s₅.disk d₅ τ = mem_slot s₁ d' τ := by
    intro τ hτ
    rw [hd₅, disk_slot_length, disk_slot_congr (n := m) (fun υ hυ hυm => by
      rw [hE.disk υ hυm]
      exact hindex υ hυ hυm.le) hτ, hE.disk τ hτ]
  have hsec : inode.sector < s₁.capacity :=
    hE.ok.disk.bits _ ((hE.bits _).mpr (Or.inl hf.used))
  intro hrun
  have hext : extend_with Filesys.add_blocks s inode size offset = .ok (inode₅, s₅) := by
    rw [extend_with, if_pos hneed, hadd, ok_bind]
    simp only [Filesys.fill_zeros, hfill, ok_bind]
    rw [disk_write_eq (s := clear_arrays { s₁ with disk := disk₄ }) _ hsec hE.ok.disk.capacity]
    rfl
  rw [Filesys.inode_write_at, inode_write_at_with, if_neg (by simp [h.writable]),
    if_neg (by omega), if_pos (by omega), hext, ok_bind] at hrun
  obtain ⟨w, hloop, -⟩ := bind_eq_ok hrun
  refine @write_loop_stale inode₅ buffer m x (by omega) hslot w size size
    offset 0 IndexCache.fresh s₅ hpos le_rfl le_rfl ⟨hE.ok.disk.capacity, ?_⟩ ?_
    (CacheOk.fresh _ _ _) ?_ ?_ (by omega) (by omega) hloop
  · intro τ hτ
    change disk_slot s₅.disk d₅ τ < s₁.capacity
    rw [hlook τ hτ]
    exact hE.mem_lt hr hf hneed (by omega)
  · intro τ hτ hpos k hk
    change disk_slot s₅.disk d₅ τ ≠ disk_slot s₅.disk d₅ (.data k)
    rw [hlook τ hpos, hlook (.data k) hk]
    exact hE.mem_cross hr hf hneed hτ (by omega) (by omega)
  · intro k hk
    change disk_slot s₅.disk d₅ (.data k) ≠ x
    rw [hlook (.data k) hk]
    exact (hE.mem_cross hr hf hneed hσi (by omega) (by omega)).symm
  · rw [hx, hindex σ hσi hσm.le]
    exact hones

/-- If the arrays stand at sector 0 for the last block, a gap of more than one byte is not
filled in data sectors. -/
theorem not_gapZero_of_lost (h : GapCall s inode size offset) (buffer : ℕ → UInt8)
    (htwo : inode.data.length + 2 ≤ offset) {inode₁ : Inode}
    (hgrow : (grow s inode (offset + size)).result = .ok (inode₁, s₁))
    (hlen : inode₁.data.length = inode.data.length)
    (hcap : ∀ r, Filesys.inode_write_at s inode buffer size offset = .ok r →
      r.2.2.capacity = s.capacity)
    (hlost : mem_slot s₁ inode₁.data (.data (inode.data.length / 512)) = FREE_MAP_SECTOR) :
    ¬ GapZero s inode buffer size offset := by
  rintro ⟨inode', s', hrun, -, hfill⟩
  have hmax := h.max
  have hpos := h.size_pos
  have hM : MAX_BLOCKS = 16634 := rfl
  rw [fill_commands, hgrow] at hfill
  have hmem := fill_first (S := { x | DataSector s s' inode inode' x }) (s := s₁)
    (d := inode₁.data) (by rw [hlen]; omega) (by rw [hlen]; exact htwo) hfill
  rw [hlen, hlost] at hmem
  exact boot_not_mem h.file.ready h.file.file h.file.sector (hcap _ hrun) hmem.2

/-- Blocks are added within the arrays. -/
theorem GapCall.below_max (h : GapCall s inode size offset) {buffer : ℕ → UInt8}
    (hneed : needs_blocks inode.data.length (offset + size))
    (hz : GapZero s inode buffer size offset) : offset + size < 512 * MAX_BLOCKS := by
  obtain ⟨inode', s', hrun, -⟩ := hz
  have hmax := h.max
  have hgap := h.gap
  have hroom := h.room hneed
  have hM : MAX_BLOCKS = 16634 := rfl
  by_contra hge
  obtain ⟨inode₁, s₁, hadd, -⟩ :=
    free_map_of_inode_write_at h.writable (by omega) hneed hrun
  refine add_blocks_past_max h.file.ready h.file.file (by omega) ?_ _ hadd
  have hend : (offset + size) / 512 = MAX_BLOCKS := by omega
  rw [grown_slots, hend] at hroom
  exact hroom

/-- The disk keeps its size. -/
theorem GapCall.capacity_eq (h : GapCall s inode size offset) {buffer : ℕ → UInt8}
    (hneed : needs_blocks inode.data.length (offset + size)) {r : ℕ × Inode × FileSys}
    (hrun : Filesys.inode_write_at s inode buffer size offset = .ok r) :
    r.2.2.capacity = s.capacity := by
  have hgap := h.gap
  obtain ⟨w, inode', s'⟩ := r
  obtain ⟨inode₁, s₁, hadd, hmap⟩ :=
    free_map_of_inode_write_at h.writable (by omega) hneed hrun
  have := (free_map_of_add_blocks h.file.ready h.file.file hneed h.max (h.room hneed) hadd).2.1
  simp only [FileSys.capacity, hmap]
  exact this

/-- With blocks added, a gap of more than one byte needs the last block in the arrays. -/
theorem GapCall.tail_loaded (h : GapCall s inode size offset) {buffer : ℕ → UInt8}
    (hneed : needs_blocks inode.data.length (offset + size))
    (htwo : inode.data.length + 2 ≤ offset) (hz : GapZero s inode buffer size offset)
    (hmod : inode.data.length % 512 ≠ 0) :
    Loaded inode.data.length (inode.data.length / 512) := by
  have hmax := h.below_max hneed hz
  have hneed' := needs_blocks_iff.mp hneed
  by_contra hlost
  obtain ⟨s₀, d₂, s₂, hstages⟩ :=
    add_blocks_stages h.file.ready h.file.file hneed hmax (h.room hneed)
  obtain ⟨inode', s', hrun, hrest⟩ := id hz
  obtain ⟨inode₁, s₁, hadd, -⟩ := free_map_of_inode_write_at h.writable (by
    have := h.gap
    omega) hneed hrun
  have hwrite := hstages.run
  rw [hadd] at hwrite
  obtain ⟨s₃, hindex, hret⟩ := bind_eq_ok hwrite.symm
  obtain ⟨rfl, rfl⟩ := Prod.mk.inj (Except.ok.inj hret)
  refine not_gapZero_of_lost h buffer htwo (by rw [grow_result, if_pos hneed]; exact hadd)
    hstages.allocated.header.length (fun r hr => h.capacity_eq hneed hr) ?_ hz
  change mem_slot s₃ d₂ _ = _
  rw [(onlyDisk_write_index hindex).mem_slot, hstages.allocated.old _ ?_]
  · exact hstages.lost _ (tail_pos hmod) hlost
  · have htail := tail_pos hmod
    have hB : bytes_to_sectors inode.data.length = inode.data.blocks := rfl
    rw [mem_grown_slots (by omega), hB]
    omega

/-- The last byte of the gap keeps what it was if it is the only one, or the first of its
block. -/
theorem stale_byte (h : GapCall s inode size offset) (buffer : ℕ → UInt8)
    (hn : n = bytes_to_sectors (offset + size)) (hG : Grown s₁ inode d n)
    (hb : GapBlocks s₁ inode d n) (hlen : d.length = inode.data.length)
    (hgrow : (grow s inode (offset + size)).result = .ok ({ inode with data := d }, s₁))
    (harr : inode.data.length + 2 ≤ offset → ∀ k, inode.data.length / 512 ≤ k → k < n →
      mem_slot s₁ d (.data k) = block s₁.disk d k)
    (hbyte : s₁.disk (block s₁.disk d ((offset - 1) / 512)) ((offset - 1) % 512) ≠ 0)
    (hlast : offset = inode.data.length + 1 ∨ (offset - 1) % 512 = 0) :
    ¬ GapZero s inode buffer size offset := by
  rintro ⟨inode', s', hrun, hread, -⟩
  have hN : bytes_to_sectors (offset + size) = (offset + size + 511) / 512 := rfl
  have hgap := h.gap
  have hpos := h.size_pos
  have hgrow' := hgrow
  rw [grow_result] at hgrow'
  obtain ⟨disk₄, disk', hfill, hrun', hs⟩ := hG.write buffer hn (by omega) h.writable hgrow'
  obtain ⟨-, he⟩ := Prod.mk.inj (Except.ok.inj (hrun'.symm.trans hrun))
  obtain ⟨rfl, rfl⟩ := Prod.mk.inj he
  have hzero := hread (offset - 1) (by omega) (by omega)
  rw [gap_read hG hs hn (by omega), hb.byte hs hn (by omega) (by omega)] at hzero
  have hzero' := (List.cons.inj (Except.ok.inj hzero)).1
  refine hbyte ?_
  rw [← hzero']
  by_cases htwo : inode.data.length + 2 ≤ offset
  · -- the loop ends with the block before
    have hfirst : (offset - 1) % 512 = 0 := hlast.resolve_left (by omega)
    obtain ⟨disk₄', hfill', hsame, -⟩ := fill_zeros_loop_spec (d := d)
      (n := (offset - 1) / 512) (by have := hG.max; omega) (offset - d.length - 1) d.length
      (offset - d.length - 1) s₁ le_rfl ⟨hG.capacity, hG.bits⟩ (by omega)
      (fun k hk1 hk2 => hG.arrays_lt k hk1 (by omega))
    obtain rfl : disk₄' = disk₄ :=
      congrArg FileSys.disk (Except.ok.inj (hfill'.symm.trans hfill))
    symm
    refine hsame _ _ ?_
    intro k hk1 hk2 he
    rw [hlen] at hk1
    rw [harr htwo k hk1 (by omega)] at he
    exact absurd he.symm (hb.inj k _ hk1 hk2 (by omega))
  · have hnone : offset - d.length - 1 = 0 := by omega
    rw [Filesys.fill_zeros, hnone] at hfill
    have hsame : s₁ = { s₁ with disk := disk₄ } := Except.ok.inj hfill
    exact congrFun (congrFun (congrArg FileSys.disk hsame) _) _

/-- One byte of a gap behind a last block that was not read in: it is not cleared, and the
block has become sector 0. -/
def LostTail (length size offset : ℕ) : Prop :=
  offset = length + 1 ∧ needs_blocks length (offset + size) ∧ length % 512 ≠ 0 ∧
    ¬ Loaded length (length / 512)

/-- With blocks added, over old contents of ones. -/
theorem GapCall.fits_past (h : GapCall s inode size offset) (hs : Stale s inode)
    {buffer : ℕ → UInt8} (hlost : ¬ LostTail inode.data.length size offset)
    (hneed : needs_blocks inode.data.length (offset + size))
    (hz : GapZero s inode buffer size offset) : GapFits inode.data.length size offset := by
  have hr := h.file.ready
  have hf := h.file.file
  have hgap := h.gap
  have hpos := h.size_pos
  have hM : MAX_BLOCKS = 16634 := rfl
  have hneed' := needs_blocks_iff.mp hneed
  have hB : bytes_to_sectors inode.data.length = inode.data.blocks := rfl
  have hB' : inode.data.blocks = (inode.data.length + 511) / 512 := rfl
  have hN : bytes_to_sectors (offset + size) = (offset + size + 511) / 512 := rfl
  have hmax := h.below_max hneed hz
  have htail : inode.data.length % 512 ≠ 0 → Loaded inode.data.length (inode.data.length / 512) := by
    intro hmod
    by_cases htwo : inode.data.length + 2 ≤ offset
    · exact h.tail_loaded hneed htwo hz hmod
    · by_contra hload
      exact hlost ⟨by omega, hneed, hmod, hload⟩
  have hpointer : ∀ m, m = 122 ∨ m = 250 →
      ¬ (m * 512 < offset + size ∧ offset + size < (m + 1) * 512) := by
    rintro m hm ⟨hlo, hhi⟩
    obtain ⟨inode', s', hrun, -⟩ := hz
    exact h.stale_pointer hs buffer hneed hm hlo hhi _ hrun
  have h122 := hpointer 122 (Or.inl rfl)
  have h250 := hpointer 250 (Or.inr rfl)
  have hflush : FlushOk ((offset + size) / 512) (bytes_to_sectors (offset + size))
      ((offset + size) / 512 + 1) := by
    constructor <;> omega
  obtain ⟨d', s₁, hadd, hE⟩ := add_blocks_extends hr hf hneed hmax (parents_of_tail htail) hflush
    (h.room hneed)
  obtain ⟨hb, -⟩ := gapBlocks_of_extended hf hneed htail hE
  -- the sector of the last byte still holds ones there
  have hbyte : s₁.disk (block s₁.disk d' ((offset - 1) / 512)) ((offset - 1) % 512) ≠ 0 := by
    set k := (offset - 1) / 512 with hk
    rw [block, hE.disk (.data k) (show k < bytes_to_sectors (offset + size) by omega)]
    rcases hE.slot_cases hneed (σ := .data k) (show k ≤ (offset + size) / 512 by omega) with
      ⟨hkb, he⟩ | ⟨l, hl, he, hload, -⟩ | ⟨-, hmem⟩
    · simp only [Slot.pos] at hkb
      have hkL : k = inode.data.length / 512 := by omega
      rw [he, hE.frame _ (hf.map.used (.data k) hkb) (hf.not_freeMapData (σ := .data k) hkb), hkL]
      · rw [hs.tail _ (by omega) (by omega)]
        decide
      · intro σ hσi hσ heq
        have := hf.map.inj (.data k) σ hkb hσ heq
        subst this
        exact hσi
    · obtain rfl : k = l := by injection he
      refine absurd ?_ hload
      have hkL : k = inode.data.length / 512 := by omega
      rw [hkL]
      exact htail (by omega)
    · rw [hE.stale k hmem, hs.free _ (hE.fresh _ hmem)]
      exact (by decide : (0xff : UInt8) ≠ 0)
  have hends : ¬ (offset = inode.data.length + 1 ∨ (offset - 1) % 512 = 0) := fun hlast =>
    stale_byte h buffer rfl (hE.grown hr hf hneed hmax) hb hE.header.length
      (by rw [grow_result, if_pos hneed]; exact hadd)
      (fun _ k _ hk => (hE.disk (.data k) hk).symm) hbyte hlast hz
  push Not at hends
  exact ⟨by omega, hends.2, fun hn => absurd hneed hn, fun _ => hmax, fun _ => htail,
    fun _ => h122, fun _ => h250⟩

/-- Within the last block, over old contents of ones. -/
theorem GapCall.fits_within (h : GapCall s inode size offset) (hs : Stale s inode)
    {buffer : ℕ → UInt8} (hneed : ¬ needs_blocks inode.data.length (offset + size))
    (hz : GapZero s inode buffer size offset) : GapFits inode.data.length size offset := by
  have hr := h.file.ready
  have hf := h.file.file
  have hgap := h.gap
  have hpos := h.size_pos
  have hmax := h.max
  have hM : MAX_BLOCKS = 16634 := rfl
  have hneed' := mt needs_blocks_iff.mpr hneed
  have hB : bytes_to_sectors inode.data.length = inode.data.blocks := rfl
  have hB' : inode.data.blocks = (inode.data.length + 511) / 512 := rfl
  have hN : bytes_to_sectors (offset + size) = (offset + size + 511) / 512 := rfl
  have hblocks : inode.data.blocks = bytes_to_sectors (offset + size) := by omega
  have hgrow : (grow s inode (offset + size)).result = .ok (inode, s) := by
    rw [grow_result, if_neg hneed]
  have hgrown := hf.grown hr
  have hb : GapBlocks s inode inode.data inode.data.blocks :=
    ⟨fun k l hk1 hkl hl => by omega, fun k _ hk2 => hf.own (.data k) hk2⟩
  have hbyte : s.disk (block s.disk inode.data ((offset - 1) / 512)) ((offset - 1) % 512) ≠ 0 := by
    have hk : (offset - 1) / 512 = inode.data.length / 512 := by omega
    rw [hk, hs.tail _ (by omega) (by omega)]
    decide
  have hwithin : inode.data.length / 512 < 122 := by
    by_contra htail
    by_cases htwo : inode.data.length + 2 ≤ offset
    · refine not_gapZero_of_lost h buffer htwo hgrow rfl ?_ ?_ hz
      · intro r hrun
        have hgrown' := hgrown
        rw [hblocks] at hgrown'
        obtain ⟨-, disk', -, hrun', -⟩ := @Grown.write _ _ _ _ s _ _ buffer hgrown' rfl (by omega) h.writable
          (by rw [if_neg hneed])
        rw [← Except.ok.inj (hrun'.symm.trans hrun)]
        rfl
      · simp only [mem_slot, hr.arrays.indirect, hr.arrays.doubly]
        rw [if_neg htail, ite_self]
    · exact stale_byte h buffer hblocks hgrown hb rfl hgrow (fun htwo' => absurd htwo' htwo) hbyte
        (Or.inl (by omega)) hz
  have hends : ¬ (offset = inode.data.length + 1 ∨ (offset - 1) % 512 = 0) := fun hlast =>
    stale_byte h buffer hblocks hgrown hb rfl hgrow (fun _ k hk1 hk2 => by
      have hk : k < 122 := by omega
      rw [mem_slot, if_pos hk, block_direct _ _ hk]) hbyte hlast hz
  push Not at hends
  exact ⟨by omega, hends.2, fun _ => hwithin, fun hn => absurd hn hneed,
    fun hn => absurd hn hneed, fun hn => absurd hn hneed, fun hn => absurd hn hneed⟩

/-- **A gap reads as zeros, whatever was there before,** exactly when it fits; the case of
one byte behind a last block that was lost is left out of the second half. The write has its
bounce buffers. -/
theorem fills_gap_iff (h : GapCall s inode size offset) :
    (GapFits inode.data.length size offset → FillsGap s inode size offset) ∧
      (¬ LostTail inode.data.length size offset → FillsGap s inode size offset →
        GapFits inode.data.length size offset) := by
  refine ⟨fun hfits disk' ho buffer => (h.other ho).fills hfits buffer, ?_⟩
  intro hlost hfills
  have hother := h.other (stale_disk_old s inode)
  have hstale := stale_disk_stale h.file.file
  have hz := hfills _ (stale_disk_old s inode) (fun _ => 0)
  by_cases hneed : needs_blocks inode.data.length (offset + size)
  · exact hother.fits_past hstale hlost hneed hz
  · exact hother.fits_within hstale hneed hz

end NotFilled

/-! ## The small disk -/

theorem small_gap_call {length size offset : ℕ} (hlen : length ≤ 123 * 512)
    (hgap : length < offset) (hpos : 0 < size) (hmax : offset + size ≤ 512 * MAX_BLOCKS)
    (hroom : (grown_slots length (offset + size)).length ≤ 32) :
    GapCall small_fs (small_file length) size offset where
  file := ⟨small_fs_ready, small_file_ok hlen, show (3 : ℕ) ≠ 0 by decide⟩
  writable := rfl
  gap := hgap
  size_pos := hpos
  max := hmax
  room _ := by
    have hfree : (free_sectors small_fs).card = 32 := by decide +kernel
    rw [hfree]
    exact hroom

/-- A gap of two bytes in an empty file is filled, a gap of one byte is not. -/
theorem fills_gap_small : FillsGap small_fs (small_file 0) 1 2 ∧
    ¬ FillsGap small_fs (small_file 0) 1 1 := by
  have hneed : needs_blocks 0 (2 + 1) := by decide
  refine ⟨(fills_gap_iff (small_gap_call (by decide) (by decide) (by decide) (by decide)
    (by decide))).1 ?_, ?_⟩
  · exact ⟨by decide, by decide, fun hn => absurd hneed hn, fun _ => by decide,
      fun _ hmod => absurd rfl hmod, fun _ hin => by omega, fun _ hin => by omega⟩
  · intro hfills
    have hfits := (fills_gap_iff (small_gap_call (by decide) (by decide) (by decide) (by decide)
      (by decide))).2 (fun hlost => hlost.2.2.1 rfl) hfills
    exact absurd hfits.two (by decide)

/-- **A gap of one byte keeps what was there.** The disk holds `0xff` behind the end of a file of
one byte; after a write at offset 2 that is byte 1 of the file, and reads as `0xff`. -/
theorem one_byte_gap_stale : ¬ ∀ (s : FileSys) (inode : Inode) (size offset : ℕ),
    GapCall s inode size offset → FillsGap s inode size offset := by
  intro hall
  obtain ⟨inode', s', hrun, hread, -⟩ := hall small_fs (small_file 1) 1 2
    (small_gap_call (by decide) (by decide) (by decide) (by decide) (by decide))
    (stale_disk small_fs (small_file 1)) (stale_disk_old _ _) (fun _ => 7)
  have hnew : (do
      let r ← Filesys.inode_write_at { small_fs with disk := stale_disk small_fs (small_file 1) }
        (small_file 1) (fun _ => 7) 1 2
      Filesys.inode_read_at r.2.2 r.2.1 1 1) = .ok [0xff] := by
    decide +kernel
  rw [hrun, ok_bind, hread 1 (by decide) (by decide)] at hnew
  exact absurd hnew (by decide)

end Pintos.Filesys.DiskIo.Access
