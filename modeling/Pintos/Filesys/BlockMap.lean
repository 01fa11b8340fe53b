/-
The three-level block map of an inode, as one function from *slots* to sectors.

A slot is a place a sector number is stored for: the indirect block, the doubly
indirect block, a child of the latter, or a data block. `disk_slot` reads a slot
through the disk, the way an uncached lookup does, and `Slot.pos` is the block
index whose allocation round in `free_map_allocate_index` fills it, so a file of
`n` blocks uses exactly the slots with `pos < n`. Stated over slots, well
formedness of the map is injectivity, and the case analysis on the three levels
is done once, here.

The second half is the specification of the two loops: with a well-formed map
`inode_read_at` returns the bytes `file_byte` and `write_loop` changes exactly
the bytes it was given, whatever was in the index caches.
-/
import Pintos.Filesys.Inode

set_option autoImplicit false

namespace Pintos.Filesys

open Pintos.Kernel WordImage

/-! ## Slots -/

/-- A place in the block map that holds a sector number. -/
inductive Slot
  | indirect
  | doubly
  | parent (j : ℕ)
  | data (k : ℕ)
  deriving DecidableEq

/-- The block whose allocation fills the slot. -/
def Slot.pos : Slot → ℕ
  | .indirect => 122
  | .doubly => 250
  | .parent j => 250 + 128 * j
  | .data k => k

/-- Slots whose sectors hold sector numbers rather than file contents. -/
def Slot.IsIndex : Slot → Prop
  | .data _ => False
  | _ => True

/-- The sector a slot holds, looked up afresh through the disk. -/
def disk_slot (disk : ℕ → Sector) (d : InodeDisk) : Slot → ℕ
  | .indirect => d.indirect_block
  | .doubly => d.doubly_indirect_block
  | .parent j => word (disk d.doubly_indirect_block) j
  | .data k =>
    if k < 122 then d.direct_block k
    else if k < 250 then word (disk d.indirect_block) (k - 122)
    else word (disk (word (disk d.doubly_indirect_block) ((k - 250) / 128))) ((k - 250) % 128)

/-- The sector of block `k`. -/
abbrev block (disk : ℕ → Sector) (d : InodeDisk) (k : ℕ) : ℕ := disk_slot disk d (.data k)

theorem block_direct (disk : ℕ → Sector) (d : InodeDisk) {k : ℕ} (h : k < 122) :
    block disk d k = d.direct_block k := by
  simp only [block, disk_slot, if_pos h]

theorem block_indirect (disk : ℕ → Sector) (d : InodeDisk) {k : ℕ} (h : 122 ≤ k)
    (h' : k < 250) : block disk d k = word (disk (disk_slot disk d .indirect)) (k - 122) := by
  simp only [block, disk_slot, if_neg (Nat.not_lt.mpr h), if_pos h']

theorem block_doubly (disk : ℕ → Sector) (d : InodeDisk) {k : ℕ} (h : 250 ≤ k) :
    block disk d k
      = word (disk (disk_slot disk d (.parent ((k - 250) / 128)))) ((k - 250) % 128) := by
  simp only [block, disk_slot, if_neg (show ¬ k < 122 by omega), if_neg (Nat.not_lt.mpr h)]

/-- Byte `p` of a file, looked up afresh. -/
def file_byte (disk : ℕ → Sector) (d : InodeDisk) (p : ℕ) : UInt8 :=
  disk (block disk d (p / 512)) (p % 512)

/-- The largest number of blocks a file can have. -/
def MAX_BLOCKS : ℕ := 122 + 128 + 128 * 128

/-- A lookup depends on the disk only through the index sectors on the way. -/
theorem disk_slot_congr {disk disk' : ℕ → Sector} {d : InodeDisk} {n : ℕ}
    (h : ∀ τ : Slot, τ.IsIndex → τ.pos < n →
      disk' (disk_slot disk d τ) = disk (disk_slot disk d τ))
    {σ : Slot} (hσ : σ.pos < n) : disk_slot disk' d σ = disk_slot disk d σ := by
  have hpar : ∀ j, 250 + 128 * j < n →
      word (disk' d.doubly_indirect_block) j = word (disk d.doubly_indirect_block) j := by
    intro j hj
    have hd := h .doubly trivial (by simp only [Slot.pos]; omega)
    simp only [disk_slot] at hd
    rw [hd]
  cases σ with
  | indirect => rfl
  | doubly => rfl
  | parent j => exact hpar j hσ
  | data k =>
    simp only [Slot.pos] at hσ
    simp only [disk_slot]
    by_cases h1 : k < 122
    · rw [if_pos h1, if_pos h1]
    · rw [if_neg h1, if_neg h1]
      by_cases h2 : k < 250
      · have hi := h .indirect trivial (by simp only [Slot.pos]; omega)
        simp only [disk_slot] at hi
        rw [if_pos h2, if_pos h2, hi]
      · have hj : 250 + 128 * ((k - 250) / 128) < n := by omega
        have hc := h (.parent ((k - 250) / 128)) trivial hj
        simp only [disk_slot] at hc
        rw [if_neg h2, if_neg h2, hpar _ hj, hc]

/-! ## Well-formed maps -/

/-- The block map of an inode, for its first `n` blocks: distinct sectors, all of
them marked used. -/
structure MapOk (s : FileSys) (d : InodeDisk) (n : ℕ) : Prop where
  inj : ∀ σ τ : Slot, σ.pos < n → τ.pos < n →
    disk_slot s.disk d σ = disk_slot s.disk d τ → σ = τ
  used : ∀ σ : Slot, σ.pos < n → s.free_map.bits (disk_slot s.disk d σ) = true

/-- The number of blocks of a file. -/
abbrev InodeDisk.blocks (d : InodeDisk) : ℕ := bytes_to_sectors d.length

/-- The free map has no set bit past its end, and the disk is one `select_sector`
can address. -/
structure DiskOk (s : FileSys) : Prop where
  capacity : s.capacity ≤ 2 ^ 28
  bits : ∀ i, s.free_map.bits i = true → i < s.capacity

theorem MapOk.lt {s : FileSys} {d : InodeDisk} {n : ℕ} (h : MapOk s d n) (hd : DiskOk s)
    {σ : Slot} (hσ : σ.pos < n) : disk_slot s.disk d σ < s.capacity :=
  hd.bits _ (h.used σ hσ)

/-- A well-formed map stays so, slot for slot, when the disk changes only outside
its index sectors and the free map only gains sectors. -/
theorem MapOk.frame {s s' : FileSys} {d : InodeDisk} {n : ℕ} (h : MapOk s d n)
    (hdisk : ∀ τ : Slot, τ.IsIndex → τ.pos < n →
      s'.disk (disk_slot s.disk d τ) = s.disk (disk_slot s.disk d τ))
    (hbits : ∀ i, s.free_map.bits i = true → s'.free_map.bits i = true) :
    MapOk s' d n where
  inj σ τ hσ hτ he := by
    rw [disk_slot_congr hdisk hσ, disk_slot_congr hdisk hτ] at he
    exact h.inj σ τ hσ hτ he
  used σ hσ := by
    rw [disk_slot_congr hdisk hσ]
    exact hbits _ (h.used σ hσ)

/-! ## The cached lookup -/

/-- The caches hold what the index blocks of the first `n` blocks hold on the
disk; `buffer_flag` is 128 for the indirect block and `j` for child `j`. -/
structure CacheOk (disk : ℕ → Sector) (d : InodeDisk) (n : ℕ) (c : IndexCache) : Prop where
  indirect : c.buffer_flag = 128 →
    122 < n ∧ c.index_buffer = word (disk (disk_slot disk d .indirect))
  parent : c.buffer_parent_flag = true →
    250 < n ∧ c.index_parent_buffer = word (disk (disk_slot disk d .doubly))
  child : ∀ j : ℕ, j < 128 → c.buffer_flag = j →
    250 + 128 * j < n ∧ c.index_buffer = word (disk (disk_slot disk d (.parent j)))

theorem CacheOk.fresh (disk : ℕ → Sector) (d : InodeDisk) (n : ℕ) :
    CacheOk disk d n IndexCache.fresh where
  indirect h := by simp [IndexCache.fresh] at h
  parent h := by simp [IndexCache.fresh] at h
  child j _ h := by
    simp only [IndexCache.fresh] at h
    omega

/-- The caches stay valid when the disk changes outside the index sectors. -/
theorem CacheOk.frame {disk disk' : ℕ → Sector} {d : InodeDisk} {n : ℕ} {c : IndexCache}
    (h : CacheOk disk d n c)
    (hdisk : ∀ τ : Slot, τ.IsIndex → τ.pos < n →
      disk' (disk_slot disk d τ) = disk (disk_slot disk d τ)) :
    CacheOk disk' d n c where
  indirect hf := by
    obtain ⟨hn, hb⟩ := h.indirect hf
    refine ⟨hn, ?_⟩
    rw [disk_slot_congr hdisk (σ := .indirect) hn, hdisk .indirect trivial hn, hb]
  parent hf := by
    obtain ⟨hn, hb⟩ := h.parent hf
    refine ⟨hn, ?_⟩
    rw [disk_slot_congr hdisk (σ := .doubly) hn, hdisk .doubly trivial hn, hb]
  child j hj hf := by
    obtain ⟨hn, hb⟩ := h.child j hj hf
    refine ⟨hn, ?_⟩
    rw [disk_slot_congr hdisk (σ := .parent j) hn, hdisk (.parent j) trivial hn, hb]

/-- The sectors a lookup of the first `n` blocks comes to are on the disk. -/
structure OnDisk (s : FileSys) (d : InodeDisk) (n : ℕ) : Prop where
  capacity : s.capacity ≤ 2 ^ 28
  lt : ∀ σ : Slot, σ.pos < n → disk_slot s.disk d σ < s.capacity

theorem MapOk.onDisk {s : FileSys} {d : InodeDisk} {n : ℕ} (h : MapOk s d n) (hd : DiskOk s) :
    OnDisk s d n where
  capacity := hd.capacity
  lt _ hσ := h.lt hd hσ

section Lookup

variable {s : FileSys} {d : InodeDisk} {n : ℕ} {c : IndexCache}

theorem OnDisk.load_indirect (h : OnDisk s d n) (hc : CacheOk s.disk d n c) (hn : 122 < n) :
    ∃ c', load_indirect s d c = .ok c' ∧ CacheOk s.disk d n c' ∧ c'.buffer_flag = 128 := by
  by_cases hf : c.buffer_flag = 128
  · exact ⟨c, by rw [Filesys.load_indirect, if_neg (not_not.mpr hf)], hc, hf⟩
  · have hlt : d.indirect_block < s.capacity := h.lt .indirect hn
    refine ⟨{ c with index_buffer := word (s.disk d.indirect_block), buffer_flag := 128 },
      ?_, ?_, rfl⟩
    · rw [Filesys.load_indirect, if_pos hf, disk_read_eq hlt h.capacity, ok_bind, pure_eq_ok]
    · refine ⟨fun _ => ⟨hn, rfl⟩, hc.parent, ?_⟩
      intro j hj hflag
      have hj' : (128 : ℤ) = (j : ℤ) := hflag
      omega

theorem OnDisk.load_parent (h : OnDisk s d n) (hc : CacheOk s.disk d n c) (hn : 250 < n) :
    ∃ c', load_parent s d c = .ok c' ∧ CacheOk s.disk d n c' ∧ c'.buffer_parent_flag = true := by
  by_cases hf : c.buffer_parent_flag = false
  · have hlt : d.doubly_indirect_block < s.capacity := h.lt .doubly hn
    refine ⟨{ c with index_parent_buffer := word (s.disk d.doubly_indirect_block),
                     buffer_parent_flag := true }, ?_, ?_, rfl⟩
    · rw [Filesys.load_parent, if_pos hf, disk_read_eq hlt h.capacity, ok_bind, pure_eq_ok]
    · exact ⟨hc.indirect, fun _ => ⟨hn, rfl⟩, hc.child⟩
  · exact ⟨c, by rw [Filesys.load_parent, if_neg hf], hc, by simpa using hf⟩

theorem OnDisk.load_child (h : OnDisk s d n) (hc : CacheOk s.disk d n c)
    (hp : c.buffer_parent_flag = true) {j : ℕ} (hj : j < 128) (hn : 250 + 128 * j < n) :
    ∃ c', load_child s j c = .ok c' ∧ CacheOk s.disk d n c' ∧ c'.buffer_flag = j := by
  by_cases hf : c.buffer_flag = j
  · exact ⟨c, by rw [Filesys.load_child, if_neg (not_not.mpr hf)], hc, hf⟩
  · have hpar : c.index_parent_buffer j = disk_slot s.disk d (.parent j) := by
      rw [(hc.parent hp).2]
      rfl
    have hlt : disk_slot s.disk d (.parent j) < s.capacity := h.lt (.parent j) hn
    refine ⟨{ c with index_buffer := word (s.disk (disk_slot s.disk d (.parent j))),
                     buffer_flag := j }, ?_, ?_, rfl⟩
    · rw [Filesys.load_child, if_pos hf, if_neg (by omega), hpar, disk_read_eq hlt h.capacity,
        ok_bind, pure_eq_ok]
    · refine ⟨fun hflag => ?_, hc.parent, ?_⟩
      · have hj' : (j : ℤ) = 128 := hflag
        omega
      · intro i _ hflag
        have hij : j = i := by exact_mod_cast (show (j : ℤ) = (i : ℤ) from hflag)
        subst hij
        exact ⟨hn, rfl⟩

/-- The cached lookup comes to the sector of the uncached one, distinct sectors or not. -/
theorem OnDisk.block_sector (h : OnDisk s d n) (hc : CacheOk s.disk d n c)
    (hmax : n ≤ MAX_BLOCKS) {k : ℕ} (hk : k < n) :
    ∃ c', block_sector s d c k = .ok (block s.disk d k, c') ∧ CacheOk s.disk d n c' := by
  have hmax' : n ≤ 16634 := hmax
  have hD : DIRECT_LEN = 122 := rfl
  by_cases h1 : k < DIRECT_LEN
  · exact ⟨c, by rw [Filesys.block_sector, if_pos h1, block_direct _ _ h1], hc⟩
  · by_cases h2 : k < DIRECT_LEN + 128
    · obtain ⟨c', hl, hc', hf⟩ := h.load_indirect hc (by omega)
      refine ⟨c', ?_, hc'⟩
      rw [Filesys.block_sector, if_neg h1, if_pos h2, hl, ok_bind, pure_eq_ok,
        (hc'.indirect hf).2, block_indirect _ _ (Nat.not_lt.mp h1) h2]
    · have hsub : k - DIRECT_LEN - 128 = k - 250 := by omega
      have hj : (k - 250) / 128 < 128 := by omega
      have hjn : 250 + 128 * ((k - 250) / 128) < n := by omega
      obtain ⟨c₁, hl₁, hc₁, hp₁⟩ := h.load_parent hc (by omega)
      obtain ⟨c₂, hl₂, hc₂, hf₂⟩ := h.load_child hc₁ hp₁ hj hjn
      refine ⟨c₂, ?_, hc₂⟩
      rw [Filesys.block_sector, if_neg h1, if_neg h2, hsub, hl₁, ok_bind, hl₂, ok_bind,
        pure_eq_ok, (hc₂.child _ hj hf₂).2, block_doubly _ _ (Nat.not_lt.mp h2)]

/-- **The cached lookup is the uncached one.** -/
theorem block_sector_spec (hd : DiskOk s) (hm : MapOk s d n) (hc : CacheOk s.disk d n c)
    (hmax : n ≤ MAX_BLOCKS) {k : ℕ} (hk : k < n) :
    ∃ c', block_sector s d c k = .ok (block s.disk d k, c') ∧ CacheOk s.disk d n c' :=
  (hm.onDisk hd).block_sector hc hmax hk

end Lookup

end Pintos.Filesys
