/-
What the loops of `inode_read_at` and `inode_write_at` do inside a file.

Both walk the file in chunks that end at sector boundaries and carry cached
index blocks from round to round. Over a well-formed map the caches stay valid,
because a round writes a data sector and the index sectors are other sectors
(`MapOk.inj`). So the read loop returns `file_byte` and the write loop leaves a
disk described by `Wrote`: the bytes of the range are the buffer's, every other
byte of the file and every sector that is not a data sector of the file is as it
was.
-/
import Pintos.Filesys.BlockMap

set_option autoImplicit false

namespace Pintos.Filesys

open Pintos.Kernel WordImage

/-! ## One chunk -/

/-- Inside the file a round moves at least one byte and does not leave its
sector. -/
theorem chunk_size_spec {d : InodeDisk} {size offset : ℕ} (hs : 0 < size)
    (h : offset + size ≤ d.length) :
    0 < chunk_size d size offset ∧ chunk_size d size offset ≤ size
      ∧ offset % 512 + chunk_size d size offset ≤ 512 := by
  simp only [chunk_size]
  split_ifs <;> omega

/-- A position inside the file lies in one of its blocks. -/
theorem div_lt_blocks {d : InodeDisk} {p : ℕ} (h : p < d.length) : p / 512 < d.blocks := by
  simp only [InodeDisk.blocks, bytes_to_sectors]
  omega

/-! ## `inode_read_at` -/

/-- The read loop, from any valid state of the caches. -/
theorem OnDisk.read_loop {s : FileSys} {inode : Inode}
    (h : OnDisk s inode.data inode.data.blocks) (hmax : inode.data.blocks ≤ MAX_BLOCKS) :
    ∀ (fuel size offset : ℕ) (c : IndexCache), size ≤ fuel →
      offset + size ≤ inode.data.length → CacheOk s.disk inode.data inode.data.blocks c →
      read_loop s inode fuel size offset c
        = .ok ((List.range size).map (fun i => file_byte s.disk inode.data (offset + i))) := by
  intro fuel
  induction fuel with
  | zero =>
    intro size offset c hf _ _
    obtain rfl : size = 0 := by omega
    rfl
  | succ fuel ih =>
    intro size offset c hf hle hc
    by_cases hs : size = 0
    · subst hs
      rfl
    · obtain ⟨hpos, hsz, hsec⟩ := chunk_size_spec (d := inode.data) (by omega) hle
      set n := chunk_size inode.data size offset with hn
      have hk : offset / 512 < inode.data.blocks := div_lt_blocks (by omega)
      obtain ⟨c', hb, hc'⟩ := h.block_sector hc hmax hk
      have hlt : block s.disk inode.data (offset / 512) < s.capacity := h.lt _ hk
      rw [Filesys.read_loop, if_neg hs, hb, ok_bind, ← hn, if_neg (by omega),
        disk_read_eq hlt h.capacity, ok_bind,
        ih (size - n) (offset + n) c' (by omega) (by omega) hc', ok_bind, pure_eq_ok]
      -- the chunk and the rest are the two halves of the range
      have hsplit : size = n + (size - n) := by omega
      conv_rhs => rw [hsplit, List.range_add, List.map_append, List.map_map]
      congr 2
      · apply List.map_congr_left
        intro i hi
        rw [List.mem_range] at hi
        have h1 : (offset + i) / 512 = offset / 512 := by omega
        have h2 : (offset + i) % 512 = offset % 512 + i := by omega
        rw [file_byte, h1, h2]
      · apply List.map_congr_left
        intro i _
        simp only [Function.comp_apply]
        rw [Nat.add_assoc]

/-- A read inside the file returns the bytes of the file, distinct sectors or not. -/
theorem OnDisk.inode_read_at {s : FileSys} {inode : Inode}
    (h : OnDisk s inode.data inode.data.blocks) (hmax : inode.data.blocks ≤ MAX_BLOCKS)
    (size offset : ℕ) (hle : offset + size ≤ inode.data.length) :
    inode_read_at s inode size offset
      = .ok ((List.range size).map (fun i => file_byte s.disk inode.data (offset + i))) :=
  h.read_loop hmax size size offset _ le_rfl hle (CacheOk.fresh _ _ _)

/-- **`inode_read_at` inside the file** returns the bytes of the file. -/
theorem inode_read_at_spec {s : FileSys} {inode : Inode} (hd : DiskOk s)
    (hm : MapOk s inode.data inode.data.blocks) (hmax : inode.data.blocks ≤ MAX_BLOCKS)
    (size offset : ℕ) (hle : offset + size ≤ inode.data.length) :
    inode_read_at s inode size offset
      = .ok ((List.range size).map (fun i => file_byte s.disk inode.data (offset + i))) :=
  (hm.onDisk hd).inode_read_at hmax size offset hle

/-! ## The write loop -/

/-- The effect of writing `size` bytes `buf` at `offset` on the first `n` blocks
of the file with block map `d`. -/
structure Wrote (s s' : FileSys) (d : InodeDisk) (n offset size : ℕ) (buf : ℕ → UInt8) :
    Prop where
  rest : s' = { s with disk := s'.disk }
  frame : ∀ y, (∀ k < n, y ≠ block s.disk d k) → s'.disk y = s.disk y
  bytes : ∀ p < 512 * n, file_byte s'.disk d p
    = if offset ≤ p ∧ p < offset + size then buf (p - offset) else file_byte s.disk d p

section Write

variable {s s' : FileSys} {d : InodeDisk} {n : ℕ}

/-- Writing data leaves the index sectors alone. -/
theorem Wrote.index {offset size : ℕ} {buf : ℕ → UInt8} (h : Wrote s s' d n offset size buf)
    (hm : MapOk s d n) (τ : Slot) (hτ : τ.IsIndex) (hpos : τ.pos < n) :
    s'.disk (disk_slot s.disk d τ) = s.disk (disk_slot s.disk d τ) := by
  apply h.frame
  intro k hk he
  have := hm.inj τ (.data k) hpos hk he
  subst this
  exact hτ

/-- Writing data leaves the map well formed. -/
theorem Wrote.mapOk {offset size : ℕ} {buf : ℕ → UInt8} (h : Wrote s s' d n offset size buf)
    (hm : MapOk s d n) : MapOk s' d n := by
  refine hm.frame (h.index hm) ?_
  intro i hi
  rw [h.rest]
  exact hi

theorem Wrote.diskOk {offset size : ℕ} {buf : ℕ → UInt8} (h : Wrote s s' d n offset size buf)
    (hd : DiskOk s) : DiskOk s' := by
  constructor
  · rw [h.rest]; exact hd.capacity
  · intro i hi
    rw [h.rest] at hi ⊢
    exact hd.bits i hi

/-- The slots are the same before and after. -/
theorem Wrote.slot {offset size : ℕ} {buf : ℕ → UInt8} (h : Wrote s s' d n offset size buf)
    (hm : MapOk s d n) {σ : Slot} (hσ : σ.pos < n) :
    disk_slot s'.disk d σ = disk_slot s.disk d σ :=
  disk_slot_congr (h.index hm) hσ

/-- Nothing written. -/
theorem Wrote.refl (s : FileSys) (d : InodeDisk) (n offset : ℕ) (buf : ℕ → UInt8) :
    Wrote s s d n offset 0 buf where
  rest := rfl
  frame _ _ := rfl
  bytes p _ := by rw [if_neg (by omega)]

/-- Two adjacent writes are one. -/
theorem Wrote.trans {s₁ s₂ : FileSys} {offset a b : ℕ} {buf : ℕ → UInt8}
    (hm : MapOk s d n) (h₁ : Wrote s s₁ d n offset a buf)
    (h₂ : Wrote s₁ s₂ d n (offset + a) b (fun i => buf (a + i))) :
    Wrote s s₂ d n offset (a + b) buf where
  rest := by rw [h₂.rest, h₁.rest]
  frame y hy := by
    rw [h₂.frame y ?_, h₁.frame y hy]
    intro k hk
    rw [block, h₁.slot hm (σ := .data k) hk]
    exact hy k hk
  bytes p hp := by
    rw [h₂.bytes p hp, h₁.bytes p hp]
    by_cases hlo : p < offset
    · rw [if_neg (by omega), if_neg (by omega), if_neg (by omega)]
    · by_cases hmid : p < offset + a
      · rw [if_neg (by omega), if_pos (by omega), if_pos (by omega)]
      · by_cases hhi : p < offset + a + b
        · rw [if_pos (by omega), if_pos (by omega)]
          congr 1
          omega
        · rw [if_neg (by omega), if_neg (by omega), if_neg (by omega)]

/-- One sector rewritten: bytes `ofs .. ofs + m - 1` of block `k` come from the
buffer and the rest of the sector is as it was. -/
theorem wrote_sector (hm : MapOk s d n) {k ofs m : ℕ} (hk : k < n) (hofs : ofs + m ≤ 512)
    (b : Sector) (buf : ℕ → UInt8)
    (hb : ∀ j < 512, b j = if ofs ≤ j ∧ j < ofs + m then buf (j - ofs)
      else s.disk (block s.disk d k) j) :
    Wrote s { s with disk := Function.update s.disk (block s.disk d k) b } d n
      (512 * k + ofs) m buf := by
  have hindex : ∀ τ : Slot, τ.IsIndex → τ.pos < n →
      Function.update s.disk (block s.disk d k) b (disk_slot s.disk d τ)
        = s.disk (disk_slot s.disk d τ) := by
    intro τ hτ hpos
    rw [Function.update_of_ne]
    intro he
    have := hm.inj τ (.data k) hpos hk he
    subst this
    exact hτ
  refine ⟨rfl, ?_, ?_⟩
  · intro y hy
    exact Function.update_of_ne (hy k hk) _ _
  · intro p hp
    have hpk : p / 512 < n := by omega
    have hslot := disk_slot_congr hindex (σ := .data (p / 512)) hpk
    simp only [file_byte, block] at hslot ⊢
    rw [hslot]
    by_cases hpe : p / 512 = k
    · rw [hpe, Function.update_self, hb _ (by omega)]
      by_cases hr : ofs ≤ p % 512 ∧ p % 512 < ofs + m
      · rw [if_pos hr, if_pos (by omega)]
        congr 1
        omega
      · rw [if_neg hr, if_neg (by omega)]
    · rw [Function.update_of_ne, if_neg (by omega)]
      intro he
      have := hm.inj (.data (p / 512)) (.data k) hpk hk he
      exact hpe (by injection this)

/-- The contents a round writes, byte by byte: both branches put the buffer's
bytes over the old ones. -/
theorem round_bytes (old : Sector) (buffer : ℕ → UInt8) (bw ofs m : ℕ)
    (hm : ofs + m ≤ 512) {j : ℕ} (hj : j < 512) :
    (if ofs = 0 ∧ m = 512 then (fun j => buffer (bw + j)) else bounce old buffer bw ofs m) j
      = if ofs ≤ j ∧ j < ofs + m then buffer (bw + (j - ofs)) else old j := by
  by_cases hfull : ofs = 0 ∧ m = 512
  · obtain ⟨rfl, rfl⟩ := hfull
    rw [if_pos ⟨rfl, rfl⟩, if_pos (by omega), Nat.sub_zero]
  · rw [if_neg hfull]
    simp only [bounce]
    by_cases hr : ofs ≤ j ∧ j < ofs + m
    · rw [if_pos hr, if_pos hr]
    · rw [if_neg hr, if_neg hr, if_pos (by omega)]

/-- The write loop, from any valid state of the caches. -/
theorem write_loop_spec {inode : Inode} (buffer : ℕ → UInt8)
    (hmax : inode.data.blocks ≤ MAX_BLOCKS) :
    ∀ (fuel size offset bw : ℕ) (c : IndexCache) (s : FileSys), size ≤ fuel →
      offset + size ≤ inode.data.length → DiskOk s →
      MapOk s inode.data inode.data.blocks →
      CacheOk s.disk inode.data inode.data.blocks c →
      ∃ s', write_loop inode buffer fuel size offset bw c s = .ok (bw + size, s') ∧
        Wrote s s' inode.data inode.data.blocks offset size (fun i => buffer (bw + i)) := by
  intro fuel
  induction fuel with
  | zero =>
    intro size offset bw c s hf _ _ _ _
    obtain rfl : size = 0 := by omega
    exact ⟨s, rfl, Wrote.refl _ _ _ _ _⟩
  | succ fuel ih =>
    intro size offset bw c s hf hle hd hm hc
    by_cases hs : size = 0
    · subst hs
      exact ⟨s, rfl, Wrote.refl _ _ _ _ _⟩
    · obtain ⟨hpos, hsz, hsec⟩ := chunk_size_spec (d := inode.data) (by omega) hle
      set m := chunk_size inode.data size offset with hmdef
      have hk : offset / 512 < inode.data.blocks := div_lt_blocks (by omega)
      obtain ⟨c', hb, hc'⟩ := block_sector_spec hd hm hc hmax hk
      have hlt : block s.disk inode.data (offset / 512) < s.capacity := hm.lt hd hk
      set x := block s.disk inode.data (offset / 512) with hx
      -- one round, whichever branch it takes
      set b : Sector := if offset % 512 = 0 ∧ m = 512 then (fun j => buffer (bw + j))
        else bounce (s.disk x) buffer bw (offset % 512) m with hbdef
      have hw : Wrote s { s with disk := Function.update s.disk x b } inode.data
          inode.data.blocks offset m (fun i => buffer (bw + i)) := by
        have := wrote_sector hm hk hsec b (fun i => buffer (bw + i))
          (fun j hj => round_bytes (s.disk x) buffer bw (offset % 512) m hsec hj)
        rwa [Nat.div_add_mod] at this
      have hround : write_chunk s x buffer bw (offset % 512) m
          = .ok { s with disk := Function.update s.disk x b } := by
        rw [write_chunk]
        by_cases hfull : offset % 512 = 0 ∧ m = 512
        · rw [if_pos hfull, disk_write_eq _ hlt hd.capacity, hbdef, if_pos hfull]
        · rw [if_neg hfull, disk_read_eq hlt hd.capacity, ok_bind,
            disk_write_eq _ hlt hd.capacity, hbdef, if_neg hfull]
      obtain ⟨s', hrun, hw'⟩ := ih (size - m) (offset + m) (bw + m) c'
        { s with disk := Function.update s.disk x b } (by omega) (by omega)
        (hw.diskOk hd) (hw.mapOk hm) (hc'.frame (hw.index hm))
      refine ⟨s', ?_, ?_⟩
      · rw [write_loop, if_neg hs, hb, ok_bind, ← hmdef, if_neg (by omega), hround, ok_bind,
          hrun]
        congr 2
        omega
      · have hsum : size = m + (size - m) := by omega
        rw [hsum]
        refine Wrote.trans hm hw ?_
        simpa only [Nat.add_assoc] using hw'

/-- One round writes the bytes of its chunk and nothing else, whatever the map. -/
theorem write_chunk_frame {s : FileSys} {x : ℕ} (buffer : ℕ → UInt8) (bw : ℕ) {ofs m : ℕ}
    (hx : x < s.capacity) (hcap : s.capacity ≤ 2 ^ 28) (hm : ofs + m ≤ 512) :
    ∃ b, write_chunk s x buffer bw ofs m
        = .ok { s with disk := Function.update s.disk x b } ∧
      ∀ j < 512, ¬ (ofs ≤ j ∧ j < ofs + m) → b j = s.disk x j := by
  refine ⟨if ofs = 0 ∧ m = 512 then (fun j => buffer (bw + j))
    else bounce (s.disk x) buffer bw ofs m, ?_, ?_⟩
  · rw [write_chunk]
    by_cases hfull : ofs = 0 ∧ m = 512
    · rw [if_pos hfull, if_pos hfull, disk_write_eq _ hx hcap]
    · rw [if_neg hfull, if_neg hfull, disk_read_eq hx hcap, ok_bind, disk_write_eq _ hx hcap]
  · intro j hj hout
    rw [round_bytes (s.disk x) buffer bw ofs m hm hj, if_neg hout]

/-- The write loop over a map whose blocks need not be distinct: it is enough that the
blocks it writes are no index sectors. A byte of the disk that is no byte of the range in
any block stays as it is. -/
theorem write_loop_frame {inode : Inode} (buffer : ℕ → UInt8)
    (hmax : inode.data.blocks ≤ MAX_BLOCKS) :
    ∀ (fuel size offset bw : ℕ) (c : IndexCache) (s : FileSys), size ≤ fuel →
      offset + size ≤ inode.data.length → OnDisk s inode.data inode.data.blocks →
      (∀ τ : Slot, τ.IsIndex → τ.pos < inode.data.blocks → ∀ k, offset / 512 ≤ k →
        512 * k < offset + size →
        disk_slot s.disk inode.data τ ≠ block s.disk inode.data k) →
      CacheOk s.disk inode.data inode.data.blocks c →
      ∃ disk', write_loop inode buffer fuel size offset bw c s
          = .ok (bw + size, { s with disk := disk' }) ∧
        (∀ y, (∀ k, offset / 512 ≤ k → 512 * k < offset + size →
          y ≠ block s.disk inode.data k) → disk' y = s.disk y) ∧
        ∀ y j, j < 512 → (∀ k, y = block s.disk inode.data k →
          ¬ (offset ≤ 512 * k + j ∧ 512 * k + j < offset + size)) → disk' y j = s.disk y j := by
  intro fuel
  induction fuel with
  | zero =>
    intro size offset bw c s hf _ _ _ _
    obtain rfl : size = 0 := by omega
    exact ⟨s.disk, rfl, fun _ _ => rfl, fun _ _ _ _ => rfl⟩
  | succ fuel ih =>
    intro size offset bw c s hf hle h hapart hc
    by_cases hs : size = 0
    · subst hs
      exact ⟨s.disk, rfl, fun _ _ => rfl, fun _ _ _ _ => rfl⟩
    · obtain ⟨hpos, hsz, hsec⟩ := chunk_size_spec (d := inode.data) (by omega) hle
      set m := chunk_size inode.data size offset with hmdef
      have hk : offset / 512 < inode.data.blocks := div_lt_blocks (by omega)
      obtain ⟨c', hb, hc'⟩ := h.block_sector hc hmax hk
      have hlt : block s.disk inode.data (offset / 512) < s.capacity := h.lt _ hk
      set x := block s.disk inode.data (offset / 512) with hx
      obtain ⟨b, hround, hbytes⟩ := write_chunk_frame buffer bw hlt h.capacity hsec
      -- the index sectors are other sectors, so every lookup comes to what it came to
      have hindex : ∀ τ : Slot, τ.IsIndex → τ.pos < inode.data.blocks →
          Function.update s.disk x b (disk_slot s.disk inode.data τ)
            = s.disk (disk_slot s.disk inode.data τ) := fun τ hτ hpos =>
        Function.update_of_ne (hapart τ hτ hpos _ le_rfl (by omega)) _ _
      have hslot : ∀ σ : Slot, σ.pos < inode.data.blocks →
          disk_slot (Function.update s.disk x b) inode.data σ = disk_slot s.disk inode.data σ :=
        fun σ hσ => disk_slot_congr hindex hσ
      have hblock : ∀ k, 512 * k < offset + size →
          block (Function.update s.disk x b) inode.data k = block s.disk inode.data k := by
        intro k hk'
        refine hslot (.data k) ?_
        have := div_lt_blocks (d := inode.data) (p := 512 * k) (by omega)
        simp only [Slot.pos]
        omega
      obtain ⟨disk', hrun, hsector, hframe⟩ := ih (size - m) (offset + m) (bw + m) c'
        { s with disk := Function.update s.disk x b } (by omega) (by omega)
        ⟨h.capacity, fun σ hσ => by rw [hslot σ hσ]; exact h.lt σ hσ⟩
        (fun τ hτ hpos k hk1 hk2 => by
          rw [hslot τ hpos, hblock k (by omega)]
          exact hapart τ hτ hpos k (by omega) (by omega))
        (hc'.frame hindex)
      refine ⟨disk', ?_, ?_, ?_⟩
      · rw [write_loop, if_neg hs, hb, ok_bind, ← hmdef, if_neg (by omega), hround, ok_bind, hrun]
        congr 2
        omega
      · intro y hy
        rw [hsector y (fun k hk1 hk2 => by
          rw [hblock k (by omega)]
          exact hy k (by omega) (by omega))]
        exact Function.update_of_ne (hy _ le_rfl (by omega)) _ _
      · intro y j hj hy
        rw [hframe y j hj]
        · change Function.update s.disk x b y j = s.disk y j
          by_cases hyx : y = x
          · rw [hyx, Function.update_self]
            refine hbytes j hj ?_
            intro hin
            exact hy (offset / 512) hyx (by omega)
          · rw [Function.update_of_ne hyx]
        · intro k hk' hin
          rw [hblock k (by omega)] at hk'
          exact hy k hk' (by omega)

end Write

end Pintos.Filesys
