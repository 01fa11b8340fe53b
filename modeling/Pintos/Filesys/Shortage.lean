/-
`free_map_allocate_index` when something is missing.

The function returns a flag, and its callers act on the flag alone. It looks for a free sector
once for each slot; a search that fails gives `BITMAP_ERROR`, on which the first search of a
round skips the round, while a later one stores `BITMAP_ERROR` in the index. In neither case
does the function stop, so a disk that runs out is not reported.

The only `return false` is for a free map that could not be written. That can happen at every
slot: a map that does not end with a full sector is written through a bounce buffer, which
`malloc` may not give. The call is stated here over the answers of `malloc`, one for each slot
(`free_map_allocate_index_got`), and also for a free-map file that denies writes, which no
caller asks for. The sector that was just taken is put back then, and those taken before it are
not.
-/
import Pintos.Filesys.FileArray

set_option autoImplicit false

namespace Pintos.Filesys

open Pintos.Kernel

/-! ## A map that may not be written -/

/-- The `while (size > 0)` loop of `inode_write_at`, in a call to which `malloc` gives a bounce
buffer or not. The buffer is asked for at the first chunk that is no full sector. -/
def write_loop_got (got : Bool) (inode : Inode) (buffer : ℕ → UInt8) :
    (fuel size offset bytes_written : ℕ) → IndexCache → FileSys → Res (ℕ × FileSys)
  | 0, _, _, bytes_written, _, s => .ok (bytes_written, s)
  | fuel + 1, size, offset, bytes_written, c, s =>
    if size = 0 then .ok (bytes_written, s)
    else do
      let r ← block_sector s inode.data c (offset / 512)
      let n := chunk_size inode.data size offset
      if n = 0 then .ok (bytes_written, s)
      else if ¬ (offset % 512 = 0 ∧ n = 512) ∧ got = false then .ok (bytes_written, s)
      else do
        let s ← write_chunk s r.1 buffer bytes_written (offset % 512) n
        write_loop_got got inode buffer fuel (size - n) (offset + n) (bytes_written + n) r.2 s

/-- `inode_write_at` on the free-map file, whose size is fixed, with that answer. -/
def inode_write_at_got (got : Bool) (s : FileSys) (inode : Inode) (buffer : ℕ → UInt8)
    (size offset : ℕ) : Res (ℕ × Inode × FileSys) :=
  if inode.deny_write_cnt ≠ 0 then .ok (0, inode, s)
  else if 2 ^ 31 ≤ offset + size then .error .overflow
  else do
    let r ← (if inode.data.length < offset + size then
        extend_with (fun _ _ _ => .error .diverge) s inode size offset
      else .ok (inode, s))
    let w ← write_loop_got got r.1 buffer size size offset 0 IndexCache.fresh r.2
    return (w.1, r.1, w.2)

/-- `bitmap_write (free_map, free_map_file)`, with that answer. -/
def bitmap_write_got (got : Bool) (s : FileSys) : Res (Bool × FileSys) :=
  match s.free_map_file with
  | none => .error .dangling
  | some f => do
    let r ← inode_write_at_got got s f (bitmap_bytes s.free_map) (byte_cnt s.free_map.bit_cnt) 0
    return (r.1 == byte_cnt s.free_map.bit_cnt, { r.2.2 with free_map_file := some r.2.1 })

/-- `take_sector`, with the answer for its write. -/
def take_sector_got (got : Bool) (s : FileSys) : Res (Option ℕ × FileSys) := do
  let r ← bitmap_scan_and_flip s.free_map 0 1 false
  match r.1 with
  | none => return (some BITMAP_ERROR, s)
  | some sector =>
    let s := { s with free_map := r.2 }
    if s.free_map_file.isSome then do
      let w ← bitmap_write_got got s
      if w.1 then return (some sector, w.2)
      else do
        let b ← bitmap_set_multiple w.2.free_map sector 1 false
        return (none, { w.2 with free_map := b })
    else return (some sector, s)

/-- The slot for which a round takes its first sector. -/
def first_slot (i : ℕ) : Slot :=
  if i = DIRECT_LEN then .indirect
  else if i = DIRECT_LEN + 128 then .doubly
  else if DIRECT_LEN + 128 < i ∧ (i - DIRECT_LEN - 128) % 128 = 0 then
    .parent ((i - DIRECT_LEN - 128) / 128)
  else .data i

/-- `assign_index`, with the answers for the writes behind the sectors it takes. -/
def assign_index_got (got : Slot → Bool) (s : FileSys) (d : InodeDisk) (i sector : ℕ) :
    Res (Bool × InodeDisk × FileSys) :=
  if i < DIRECT_LEN then
    .ok (true, { d with direct_block := Function.update d.direct_block i sector }, s)
  else if i = DIRECT_LEN then do
    let d := { d with indirect_block := sector }
    let t ← take_sector_got (got (.data i)) s
    match t.1 with
    | none => return (false, d, t.2)
    | some indirect_sector =>
      return (true, d, { t.2 with
        indirect_sec_idx := Function.update t.2.indirect_sec_idx 0 indirect_sector })
  else if i < DIRECT_LEN + 128 then
    .ok (true, d, { s with
      indirect_sec_idx := Function.update s.indirect_sec_idx (i - DIRECT_LEN) sector })
  else if i = DIRECT_LEN + 128 then do
    let d := { d with doubly_indirect_block := sector }
    let t ← take_sector_got (got (.parent 0)) s
    match t.1 with
    | none => return (false, d, t.2)
    | some indirect_sector =>
      let s := { t.2 with
        doubly_sec_parent := Function.update t.2.doubly_sec_parent 0 indirect_sector }
      let t ← take_sector_got (got (.data i)) s
      match t.1 with
      | none => return (false, d, t.2)
      | some indirect_sector =>
        return (true, d, { t.2 with
          doubly_sec_idx := Function.update t.2.doubly_sec_idx 0 indirect_sector })
  else
    let temp := i - DIRECT_LEN - 128
    if 128 ≤ temp / 128 then .error .bounds
    else if temp % 128 = 0 then do
      let s := { s with
        doubly_sec_parent := Function.update s.doubly_sec_parent (temp / 128) sector }
      let t ← take_sector_got (got (.data i)) s
      match t.1 with
      | none => return (false, d, t.2)
      | some indirect_sector =>
        return (true, d, { t.2 with
          doubly_sec_idx := Function.update t.2.doubly_sec_idx temp indirect_sector })
    else
      .ok (true, d, { s with
        doubly_sec_idx := Function.update s.doubly_sec_idx temp sector })

/-- `free_map_allocate_index`, with the answer for the write behind each slot's sector. -/
def free_map_allocate_index_got (got : Slot → Bool) : (cnt i : ℕ) → FileSys → InodeDisk →
    Res (Bool × InodeDisk × FileSys)
  | 0, _, s, d => .ok (true, d, s)
  | cnt + 1, i, s, d => do
    let t ← take_sector_got (got (first_slot i)) s
    match t.1 with
    | none => return (false, d, t.2)
    | some sector =>
      if sector = BITMAP_ERROR then free_map_allocate_index_got got cnt (i + 1) t.2 d
      else do
        let a ← assign_index_got got t.2 d i sector
        if a.1 then free_map_allocate_index_got got cnt (i + 1) a.2.2 a.2.1
        else return a

/-! ## The outcome of a call -/

/-- The slots of `l` hold distinct sectors that were free before the call and are
marked after it. -/
structure Obtained (s s' : FileSys) (d' : InodeDisk) (l : List Slot) : Prop where
  free : ∀ σ ∈ l, mem_slot s' d' σ ∈ free_sectors s
  marked : ∀ σ ∈ l, s'.free_map.bits (mem_slot s' d' σ) = true
  inj : ∀ σ ∈ l, ∀ τ ∈ l, mem_slot s' d' σ = mem_slot s' d' τ → σ = τ

/-- The call returns, with true only if every slot it was to fill was filled, and with
false only if the free map is what it was. -/
def AllOrNothing (got : Slot → Bool) (s : FileSys) (d : InodeDisk) (start cnt : ℕ) : Prop :=
  ∃ ok d' s', free_map_allocate_index_got got cnt start s d = .ok (ok, d', s') ∧
    (ok = true → Obtained s s' d' (slotsFrom cnt start)) ∧
    (ok = false → s'.free_map = s.free_map)

/-- The state with writes to the free-map file allowed. -/
def allow_write (s : FileSys) : FileSys :=
  { s with free_map_file := s.free_map_file.map fun f => { f with deny_write_cnt := 0 } }

/-- Writes to the free-map file are denied. -/
def Denied (s : FileSys) : Prop := ∃ f, s.free_map_file = some f ∧ f.deny_write_cnt ≠ 0

/-- `bitmap_write` succeeds: writes are not denied, and a bounce buffer is there if the map does
not end with a full sector. Without a free-map file nothing is to be written. -/
def Writes (s : FileSys) (got : Bool) : Prop :=
  ∀ f, s.free_map_file = some f →
    f.deny_write_cnt = 0 ∧ (byte_cnt s.capacity % 512 = 0 ∨ got = true)

/-- There are as many free sectors as the call fills slots, and the map can be written for each
of them; or there is one, and the first write of the map fails. -/
def Enough (got : Slot → Bool) (s : FileSys) (start cnt : ℕ) : Prop :=
  (slotsFrom cnt start).length ≤ (free_sectors s).card ∧
      (∀ σ ∈ slotsFrom cnt start, Writes s (got σ)) ∨
    0 < (free_sectors s).card ∧ ∃ σ ∈ (slotsFrom cnt start).head?, ¬ Writes s (got σ)

theorem allow_write_of_not_denied {s : FileSys} (h : ¬ Denied s) : allow_write s = s := by
  cases hf : s.free_map_file with
  | none =>
    rw [allow_write, hf, Option.map_none]
    rw [← hf]
  | some f =>
    have hdeny : f.deny_write_cnt = 0 := by
      by_contra hne
      exact h ⟨f, hf, hne⟩
    rw [allow_write, hf, Option.map_some]
    rw [← hdeny, ← hf]

/-- Distinct slots take distinct sectors, so there were at least as many free ones. -/
theorem Obtained.card_le {s s' : FileSys} {d' : InodeDisk} {l : List Slot}
    (h : Obtained s s' d' l) (hl : l.Nodup) : l.length ≤ (free_sectors s).card := by
  rw [← List.toFinset_card_of_nodup hl]
  apply Finset.card_le_card_of_injOn (mem_slot s' d')
  · intro σ hσ
    exact h.free σ (List.mem_toFinset.mp hσ)
  · intro σ hσ τ hτ he
    exact h.inj σ (List.mem_toFinset.mp hσ) τ (List.mem_toFinset.mp hτ) he

/-- The slots of a range of rounds are listed once each. -/
theorem slotsOf_nodup (i : ℕ) : (slotsOf i).Nodup := by
  unfold slotsOf
  split_ifs <;> simp

theorem slotsFrom_nodup : ∀ cnt i : ℕ, (slotsFrom cnt i).Nodup := by
  intro cnt
  induction cnt with
  | zero =>
    intro i
    exact List.nodup_nil
  | succ cnt ih =>
    intro i
    rw [slotsFrom, List.nodup_append]
    refine ⟨slotsOf_nodup i, ih (i + 1), ?_⟩
    intro σ hσ τ hτ he
    rw [mem_slotsOf] at hσ
    rw [mem_slotsFrom, ← he] at hτ
    omega

/-! ## A disk without a free sector -/

section Full

variable {s : FileSys} {d : InodeDisk}

/-- A search for a clear bit in a full map fails. -/
theorem scan_and_flip_full {b : Bitmap} (h : ∀ i < b.bit_cnt, b.bits i = true) :
    bitmap_scan_and_flip b 0 1 false = .ok (none, b) := by
  cases hs : bitmap_scan b 0 1 false with
  | none => rw [bitmap_scan_and_flip, hs]
  | some i =>
    obtain ⟨-, hle, hval⟩ := bitmap_scan_some hs
    have hclear := hval 0 (by omega)
    rw [Nat.add_zero, h i (by omega)] at hclear
    cases hclear

theorem full_bits (hfull : (free_sectors s).card = 0) :
    ∀ i < s.free_map.bit_cnt, s.free_map.bits i = true := by
  intro i hi
  by_contra hb
  have hmem : i ∈ free_sectors s := mem_free_sectors.mpr ⟨hi, Bool.eq_false_iff.mpr hb⟩
  rw [Finset.card_eq_zero] at hfull
  rw [hfull] at hmem
  exact absurd hmem (Finset.notMem_empty i)

theorem take_sector_full (hfull : (free_sectors s).card = 0) :
    take_sector s = .ok (some BITMAP_ERROR, s) := by
  rw [take_sector, scan_and_flip_full (full_bits hfull), ok_bind]
  rfl

/-- On a full disk every round is skipped, and the call returns true. -/
theorem allocate_full (hfull : (free_sectors s).card = 0) : ∀ cnt i : ℕ,
    free_map_allocate_index cnt i s d = .ok (true, d, s) := by
  intro cnt
  induction cnt with
  | zero =>
    intro i
    rfl
  | succ cnt ih =>
    intro i
    rw [free_map_allocate_index, take_sector_full hfull, ok_bind]
    exact ih (i + 1)

end Full

/-! ## A free map that can be written -/

section Writable

variable {s s' : FileSys} {d d' : InodeDisk}

/-- What taking a sector can do: it takes one, or there is none and it gives
`BITMAP_ERROR`. -/
theorem take_sector_cases (hok : FsOk s) :
    (∃ x t, take_sector s = .ok (some x, t) ∧ Took s t x) ∨
      take_sector s = .ok (some BITMAP_ERROR, s) := by
  by_cases hfree : 0 < (free_sectors s).card
  · exact Or.inl (take_sector_spec hok hfree)
  · exact Or.inr (take_sector_full (by omega))

/-- The static arrays are no part of the order of the file system. -/
theorem FsOk.of_arrays (hok : FsOk s) (hdisk : s'.disk = s.disk)
    (hmap : s'.free_map = s.free_map) (hfile : s'.free_map_file = s.free_map_file) : FsOk s' :=
  hok.of_index hfile hmap (fun _ _ _ _ _ => by rw [hdisk])

/-- A run that filled every slot obtained its sectors. -/
theorem Allocated.obtained {l : List Slot} (h : Allocated s s' d d' l) : Obtained s s' d' l where
  free σ hσ := by
    refine mem_free_sectors.mpr ⟨?_, h.fresh σ hσ⟩
    have hlt := h.ok.disk.bits _ ((h.bits _).mpr (Or.inr ⟨σ, hσ, rfl⟩))
    rwa [h.capacity] at hlt
  marked σ hσ := (h.bits _).mpr (Or.inr ⟨σ, hσ, rfl⟩)
  inj := h.inj

end Writable

/-! ## A write with its answer -/

section Loop

variable {inode : Inode} {buffer : ℕ → UInt8}

theorem write_loop_got_true : ∀ (fuel size offset bw : ℕ) (c : IndexCache) (s : FileSys),
    write_loop_got true inode buffer fuel size offset bw c s =
      write_loop inode buffer fuel size offset bw c s := by
  intro fuel
  induction fuel with
  | zero => exact fun _ _ _ _ _ => rfl
  | succ fuel ih =>
    intro size offset bw c s
    simp only [write_loop_got, write_loop, ih, Bool.true_eq_false, and_false, if_false]

/-- Without a bounce buffer the loop writes the full sectors, and the rest is not written. -/
theorem write_loop_got_false : ∀ (fuel size offset bw : ℕ) (c : IndexCache) (s : FileSys)
    {n : ℕ} {s' : FileSys}, size ≤ fuel → offset % 512 = 0 → offset + size ≤ inode.data.length →
    write_loop inode buffer fuel size offset bw c s = .ok (n, s') →
    ∃ t, write_loop_got false inode buffer fuel size offset bw c s =
        .ok (bw + (size - size % 512), t) ∧
      t = { s with disk := t.disk } ∧ (size % 512 = 0 → (n, s') = (bw + size, t)) := by
  intro fuel
  induction fuel with
  | zero =>
    intro size offset bw c s n s' hfuel _ _ h
    obtain rfl : size = 0 := by omega
    exact ⟨s, rfl, rfl, fun _ => (Except.ok.inj h).symm⟩
  | succ fuel ih =>
    intro size offset bw c s n s' hfuel hofs hle h
    unfold write_loop at h
    unfold write_loop_got
    by_cases hsize : size = 0
    · subst hsize
      rw [if_pos rfl] at h ⊢
      exact ⟨s, rfl, rfl, fun _ => (Except.ok.inj h).symm⟩
    rw [if_neg hsize] at h ⊢
    obtain ⟨r, hr, h⟩ := bind_eq_ok h
    have hchunk : chunk_size inode.data size offset = min size 512 := by
      simp only [chunk_size]
      split_ifs <;> omega
    rw [hr, ok_bind]
    dsimp only at h ⊢
    rw [hchunk] at h ⊢
    rw [if_neg (by omega)] at h ⊢
    by_cases hshort : size < 512
    · -- the last chunk is no full sector
      rw [if_pos ⟨by omega, rfl⟩]
      refine ⟨s, ?_, rfl, fun hmod => by omega⟩
      rw [Nat.mod_eq_of_lt hshort, Nat.sub_self, Nat.add_zero]
    · rw [if_neg (by omega)]
      have hfull : min size 512 = 512 := by omega
      rw [hfull] at h ⊢
      obtain ⟨s₁, hwrite, h⟩ := bind_eq_ok h
      have hdisk : s₁ = { s with disk := s₁.disk } := by
        rw [write_chunk, if_pos ⟨hofs, rfl⟩] at hwrite
        obtain ⟨-, -, hwrite⟩ := bind_eq_ok hwrite
        rw [← Except.ok.inj hwrite]
      obtain ⟨t, hrun, ht, hsame⟩ := ih _ _ _ _ _ (by omega) (by omega) (by omega) h
      have hbytes : bw + 512 + (size - 512 - (size - 512) % 512) = bw + (size - size % 512) := by
        omega
      rw [hwrite, ok_bind, hrun, hbytes]
      refine ⟨t, rfl, by rw [ht, hdisk], fun hmod => ?_⟩
      rw [hsame (by omega), show bw + 512 + (size - 512) = bw + size by omega]

end Loop

section Write

variable {s : FileSys} {f : Inode}

theorem bitmap_write_got_true : bitmap_write_got true s = bitmap_write s := by
  unfold bitmap_write_got bitmap_write
  cases s.free_map_file with
  | none => rfl
  | some f => simp only [inode_write_at_got, inode_write_at_with, write_loop_got_true]

/-- While writes are denied nothing is written. -/
theorem bitmap_write_got_denied (got : Bool) (hf : s.free_map_file = some f)
    (hdeny : f.deny_write_cnt ≠ 0) (hpos : 0 < s.free_map.bit_cnt) :
    bitmap_write_got got s = .ok (false, s) := by
  have hbytes : (0 == byte_cnt s.free_map.bit_cnt) = false := by
    rw [beq_eq_false_iff_ne, byte_cnt]
    omega
  rw [bitmap_write_got, hf]
  dsimp only
  rw [inode_write_at_got, if_pos hdeny, ok_bind, hbytes, pure_eq_ok, ← hf]

/-- Without a bounce buffer the last sector of the map is not written, if the map does not end
with a full one. -/
theorem bitmap_write_got_false (hok : FsOk s) (hf : s.free_map_file = some f) :
    ∃ t, bitmap_write_got false s = .ok (byte_cnt s.capacity % 512 == 0, t) ∧
      t.free_map = s.free_map ∧
      (byte_cnt s.capacity % 512 = 0 → bitmap_write s = .ok (true, t)) := by
  have hfo := hok.file f hf
  obtain ⟨s', hwrite, -⟩ := bitmap_write_spec hok hf
  have hsize : byte_cnt s.free_map.bit_cnt = f.data.length := hfo.length.symm
  have hallow : ¬ f.deny_write_cnt ≠ 0 := not_not_intro hfo.writable
  have hno : ¬ 2 ^ 31 ≤ 0 + f.data.length := by
    have hcap := hok.disk.capacity
    rw [hfo.length, byte_cnt]
    omega
  unfold bitmap_write at hwrite ⊢
  rw [hf] at hwrite ⊢
  dsimp only at hwrite ⊢
  rw [hsize, inode_write_at_with, if_neg hallow, if_neg hno, if_neg (by omega), ok_bind] at hwrite ⊢
  obtain ⟨r, hr, hret⟩ := bind_eq_ok hwrite
  obtain ⟨⟨n, s₁⟩, hloop, hr⟩ := bind_eq_ok hr
  obtain rfl := Except.ok.inj hr
  obtain ⟨t, hrun, ht, hsame⟩ := write_loop_got_false _ _ _ _ _ _ le_rfl (Nat.zero_mod 512)
    (by rw [Nat.zero_add]) hloop
  refine ⟨{ t with free_map_file := some f }, ?_, ?_, fun hmod => ?_⟩
  · unfold bitmap_write_got
    rw [hf]
    dsimp only
    rw [hsize, inode_write_at_got, if_neg hallow, if_neg hno, if_neg (by omega), ok_bind, hrun,
      Nat.zero_add]
    have hflag : (f.data.length - f.data.length % 512 == f.data.length) =
        (f.data.length % 512 == 0) := by
      rw [Bool.eq_iff_iff, beq_iff_eq, beq_iff_eq]
      omega
    simp only [ok_bind, pure_eq_ok, hflag]
  · rw [ht]
  · obtain ⟨rfl, rfl⟩ := Prod.mk.inj (hsame hmod)
    rw [hloop]
    simp

end Write

section Take

variable {s t u : FileSys} {got : Bool}

theorem take_sector_got_full (hfull : (free_sectors s).card = 0) :
    take_sector_got got s = .ok (some BITMAP_ERROR, s) := by
  rw [take_sector_got, scan_and_flip_full (full_bits hfull), ok_bind]
  rfl

/-- A write that succeeds is that of `take_sector`. -/
theorem take_sector_got_eq (hok : FsOk s) (hw : Writes s got) :
    take_sector_got got s = take_sector s := by
  by_cases hfull : (free_sectors s).card = 0
  · rw [take_sector_got_full hfull, take_sector_full hfull]
  obtain ⟨i, hi⟩ := Finset.card_pos.mp (Nat.pos_of_ne_zero hfull)
  rw [mem_free_sectors] at hi
  obtain ⟨x, hx, -, hscan⟩ := bitmap_scan_and_flip_one ⟨i, hi⟩
  rw [take_sector_got, take_sector, hscan, ok_bind, ok_bind]
  dsimp only
  cases hf : s.free_map_file with
  | none => rfl
  | some f =>
    rw [Option.isSome_some, if_pos rfl, if_pos rfl]
    rcases (hw f hf).2 with hmod | rfl
    · cases got with
      | true => rw [bitmap_write_got_true]
      | false =>
        have hmark := hok.mark hx
        rw [hf] at hmark
        obtain ⟨t, hrun, -, hsame⟩ := bitmap_write_got_false hmark rfl
        rw [hrun, hsame hmod]
        simp only [beq_iff_eq.mpr hmod]
    · rw [bitmap_write_got_true]

/-- One that fails leaves the map as it was. -/
theorem take_sector_got_fails (hok : FsOk (allow_write s)) (hfree : 0 < (free_sectors s).card)
    (hw : ¬ Writes s got) :
    ∃ t, take_sector_got got s = .ok (none, t) ∧ t.free_map = s.free_map := by
  obtain ⟨i, hi⟩ := Finset.card_pos.mp hfree
  rw [mem_free_sectors] at hi
  obtain ⟨x, hx, hclear, hscan⟩ := bitmap_scan_and_flip_one ⟨i, hi⟩
  obtain ⟨f, hf, hbad⟩ : ∃ f, s.free_map_file = some f ∧
      ¬ (f.deny_write_cnt = 0 ∧ (byte_cnt s.capacity % 512 = 0 ∨ got = true)) := by
    obtain ⟨f, hbad⟩ := not_forall.mp hw
    exact ⟨f, Classical.not_imp.mp hbad⟩
  set s₁ : FileSys := { s with
    free_map := { s.free_map with bits := Function.update s.free_map.bits x true } } with hs₁
  have hf₁ : s₁.free_map_file = some f := hf
  obtain ⟨t, hwrite, hmap⟩ : ∃ t, bitmap_write_got got s₁ = .ok (false, t) ∧
      t.free_map = s₁.free_map := by
    by_cases hdeny : f.deny_write_cnt = 0
    · have hgot : byte_cnt s.capacity % 512 ≠ 0 ∧ got = false := by
        constructor
        · exact fun hmod => hbad ⟨hdeny, Or.inl hmod⟩
        · exact Bool.eq_false_iff.mpr fun htrue => hbad ⟨hdeny, Or.inr htrue⟩
      have hallow : ¬ Denied s := by
        rintro ⟨g, hg, hne⟩
        obtain rfl := Option.some.inj (hf.symm.trans hg)
        exact hne hdeny
      rw [allow_write_of_not_denied hallow] at hok
      obtain ⟨t, hrun, hmap, -⟩ := bitmap_write_got_false (hok.mark hx) hf₁
      refine ⟨t, ?_, hmap⟩
      rw [hgot.2]
      exact hrun.trans (by rw [beq_eq_false_iff_ne.mpr hgot.1])
    · exact ⟨s₁, bitmap_write_got_denied got hf₁ hdeny (by change 0 < s.capacity; omega), rfl⟩
  have hback : (fun k => if x ≤ k ∧ k < x + 1 then false
      else Function.update s.free_map.bits x true k) = s.free_map.bits := by
    rw [run_one, Function.update_idem, ← hclear, Function.update_eq_self]
  have hset := @bitmap_set_multiple_eq s₁.free_map x 1 false
    (show x + 1 ≤ s.free_map.bit_cnt by exact hx)
  refine ⟨{ t with free_map := s.free_map }, ?_, rfl⟩
  rw [take_sector_got, hscan, ok_bind]
  dsimp only
  rw [show s.free_map_file.isSome = true by rw [hf, Option.isSome_some], if_pos rfl, ← hs₁, hwrite,
    ok_bind, if_neg Bool.false_ne_true]
  dsimp only
  rw [hmap, hset, ok_bind, pure_eq_ok]
  simp only [hs₁, hback]

end Take

/-! ## The call -/

/-- A sector that was clear is marked. -/
def Marks (s t : FileSys) : Prop := ∃ x, s.free_map.bits x = false ∧ t.free_map.bits x = true

/-- `n` searches for a sector have led from `s` to `t`. -/
structure Gathered (s t : FileSys) (n : ℕ) : Prop where
  ok : FsOk t
  file : t.free_map_file = s.free_map_file
  capacity : t.capacity = s.capacity
  grows : ∀ x, s.free_map.bits x = true → t.free_map.bits x = true
  marks : 0 < n → 0 < (free_sectors s).card → Marks s t
  left : n ≤ (free_sectors s).card → (free_sectors t).card + n = (free_sectors s).card

/-- How a part of the call ends whose writes have the answers `l`: it has gone on, or it has
returned false at a write that failed, the first of the part or one behind it. -/
def Ends (s : FileSys) (l : List Bool) (r : Res (Bool × InodeDisk × FileSys)) : Prop :=
  (∃ d t, r = .ok (true, d, t) ∧ Gathered s t l.length ∧
      (l.length ≤ (free_sectors s).card → ∀ a ∈ l, Writes s a)) ∨
    ∃ d t, r = .ok (false, d, t) ∧ (∃ a ∈ l, ¬ Writes s a) ∧
      (t.free_map = s.free_map ∧ 0 < (free_sectors s).card ∧ (∃ a ∈ l.head?, ¬ Writes s a) ∨
        Marks s t)

/-- `r₀` is what the part comes to if every write succeeds. -/
structure Follows (s : FileSys) (l : List Bool) (r r₀ : Res (Bool × InodeDisk × FileSys)) :
    Prop where
  cases : Ends s l r
  same : (∀ a ∈ l, Writes s a) → r = r₀

section Parts

variable {s t u : FileSys} {d : InodeDisk} {l l' : List Bool} {n m : ℕ} {a : Bool}
  {r r₀ : Res (Bool × InodeDisk × FileSys)}

theorem Gathered.refl (hok : FsOk s) : Gathered s s 0 :=
  ⟨hok, rfl, rfl, fun _ h => h, fun h => absurd h (lt_irrefl 0), fun _ => rfl⟩

theorem Gathered.of_full (hok : FsOk s) (hfull : (free_sectors s).card = 0) : Gathered s s n :=
  ⟨hok, rfl, rfl, fun _ h => h, fun _ hfree => by omega, fun hn => by omega⟩

theorem writes_congr (hfile : t.free_map_file = s.free_map_file)
    (hcapacity : t.capacity = s.capacity) : Writes t a ↔ Writes s a := by
  unfold Writes
  rw [hfile, hcapacity]

theorem Gathered.writes_iff (h : Gathered s t n) : Writes t a ↔ Writes s a :=
  writes_congr h.file h.capacity

theorem Gathered.marks_of (h : Gathered s t n) (hm : Marks t u) : Marks s u := by
  obtain ⟨x, hclear, hset⟩ := hm
  refine ⟨x, Bool.eq_false_iff.mpr fun hx => ?_, hset⟩
  rw [h.grows x hx] at hclear
  cases hclear

theorem Gathered.free_le (h : Gathered s t n) (hfree : 0 < (free_sectors t).card) :
    0 < (free_sectors s).card := by
  obtain ⟨i, hi⟩ := Finset.card_pos.mp hfree
  rw [mem_free_sectors] at hi
  refine Finset.card_pos.mpr ⟨i, mem_free_sectors.mpr ⟨h.capacity ▸ hi.1, ?_⟩⟩
  refine Bool.eq_false_iff.mpr fun hx => ?_
  rw [h.grows i hx] at hi
  cases hi.2

theorem Gathered.trans (h : Gathered s t n) (h' : Gathered t u m) : Gathered s u (n + m) where
  ok := h'.ok
  file := h'.file.trans h.file
  capacity := h'.capacity.trans h.capacity
  grows x hx := h'.grows x (h.grows x hx)
  marks hpos hfree := by
    by_cases hn : 0 < n
    · obtain ⟨x, hclear, hset⟩ := h.marks hn hfree
      exact ⟨x, hclear, h'.grows x hset⟩
    · have hcard := h.left (by omega)
      exact h.marks_of (h'.marks (by omega) (by omega))
  left hle := by
    have hfirst := h.left (by omega)
    have hrest := h'.left (by omega)
    omega

/-- What has been found counts for the part that comes next. -/
theorem Gathered.ends (hD : Gathered s t l.length) (hl : l ≠ [])
    (hwrites : l.length ≤ (free_sectors s).card → ∀ a ∈ l, Writes s a) (h : Ends t l' r) :
    Ends s (l ++ l') r := by
  obtain ⟨d, u, hr, hD', hall⟩ | ⟨d, u, hr, ⟨b, hb, hbad⟩, hend⟩ := h
  · refine Or.inl ⟨d, u, hr, ?_, fun hn b hb => ?_⟩
    · rw [List.length_append]
      exact hD.trans hD'
    · rw [List.length_append] at hn
      have hleft := hD.left (by omega)
      rcases List.mem_append.mp hb with hb | hb
      · exact hwrites (by omega) b hb
      · exact hD.writes_iff.mp (hall (by omega) b hb)
  · refine Or.inr ⟨d, u, hr, ⟨b, List.mem_append_right _ hb, fun hw =>
      hbad (hD.writes_iff.mpr hw)⟩, Or.inr ?_⟩
    rcases hend with ⟨hmap, hfree, -⟩ | hmarks
    · obtain ⟨y, hclear, hset⟩ := hD.marks (List.length_pos_of_ne_nil hl) (hD.free_le hfree)
      exact ⟨y, hclear, by rwa [hmap]⟩
    · exact hD.marks_of hmarks

/-- What a search leads to: a sector was taken, or there is none; or the write has failed. -/
theorem take_sector_got_cases (hok : FsOk s) :
    (∃ x t, take_sector_got a s = .ok (some x, t) ∧ Gathered s t 1 ∧
      (1 ≤ (free_sectors s).card → Writes s a) ∧ (x = BITMAP_ERROR → (free_sectors t).card = 0)) ∨
    ∃ t, take_sector_got a s = .ok (none, t) ∧ t.free_map = s.free_map ∧
      0 < (free_sectors s).card ∧ ¬ Writes s a := by
  by_cases hfull : (free_sectors s).card = 0
  · exact Or.inl ⟨_, s, take_sector_got_full hfull, Gathered.of_full hok hfull, fun h => by omega,
      fun _ => hfull⟩
  have hfree := Nat.pos_of_ne_zero hfull
  by_cases hw : Writes s a
  · obtain ⟨x, t, hrun, hT⟩ := take_sector_spec hok hfree
    refine Or.inl ⟨x, t, (take_sector_got_eq hok hw).trans hrun, ?_, fun _ => hw,
      fun hx => absurd hx (hT.ne_error hok)⟩
    exact ⟨hT.fsOk hok, hT.same.file, hT.capacity, fun y hy => hT.bits.mpr (Or.inl hy),
      fun _ _ => ⟨x, hT.free, hT.bits.mpr (Or.inr rfl)⟩, fun _ => hT.free_sectors_card⟩
  · have hallow : FsOk (allow_write s) := by
      by_cases hdeny : Denied s
      · obtain ⟨f, hf, hne⟩ := hdeny
        exact absurd (hok.file f hf).writable hne
      · rwa [allow_write_of_not_denied hdeny]
    obtain ⟨t, hrun, hmap⟩ := take_sector_got_fails hallow hfree hw
    exact Or.inr ⟨t, hrun, hmap, hfree, hw⟩

/-- The arrays are not looked at. -/
theorem Follows.congr (h : Follows t l r r₀) (hmap : t.free_map = s.free_map)
    (hfile : t.free_map_file = s.free_map_file) : Follows s l r r₀ := by
  have hcapacity : t.capacity = s.capacity := by
    unfold FileSys.capacity
    rw [hmap]
  have hw : ∀ a, Writes t a ↔ Writes s a := fun a => writes_congr hfile hcapacity
  have hfree : free_sectors t = free_sectors s := by
    unfold free_sectors FileSys.capacity
    rw [hmap]
  refine ⟨?_, fun hall => h.same fun a ha => (hw a).mpr (hall a ha)⟩
  obtain ⟨d, u, hr, hD, hall⟩ | ⟨d, u, hr, ⟨b, hb, hbad⟩, hend⟩ := h.cases
  · refine Or.inl ⟨d, u, hr, ⟨hD.ok, hD.file.trans hfile, hD.capacity.trans hcapacity,
      fun x hx => hD.grows x (by rwa [hmap]), fun hn hpos => ?_, fun hn => ?_⟩,
      fun hn b hb => (hw b).mp (hall (by rwa [hfree]) b hb)⟩
    · have hmarks := hD.marks hn (by rwa [hfree])
      rwa [Marks, hmap] at hmarks
    · rw [← hfree]
      exact hD.left (by rwa [hfree])
  · refine Or.inr ⟨d, u, hr, ⟨b, hb, fun hs => hbad ((hw b).mpr hs)⟩, ?_⟩
    rw [Marks, hmap, hfree] at hend
    refine hend.imp_left fun hand => ⟨hand.1, hand.2.1, ?_⟩
    obtain ⟨c, hc, hbad'⟩ := hand.2.2
    exact ⟨c, hc, fun hs => hbad' ((hw c).mpr hs)⟩

/-- A part without a search. -/
theorem Follows.pure (hok : FsOk t) (hmap : t.free_map = s.free_map)
    (hfile : t.free_map_file = s.free_map_file) :
    Follows s [] (.ok (true, d, t)) (.ok (true, d, t)) := by
  refine Follows.congr (t := t) ⟨Or.inl ⟨d, t, rfl, Gathered.refl hok, fun _ a ha => ?_⟩,
    fun _ => rfl⟩ hmap hfile
  cases ha

/-- A search, and what follows it. -/
theorem Follows.take (hok : FsOk s) {k k₀ : Option ℕ × FileSys → Res (Bool × InodeDisk × FileSys)}
    (hnone : ∀ t, k (none, t) = .ok (false, d, t))
    (hsome : ∀ x t, FsOk t → (x = BITMAP_ERROR → (free_sectors t).card = 0) →
      Follows t l (k (some x, t)) (k₀ (some x, t))) :
    Follows s (a :: l) (take_sector_got a s >>= k) (take_sector s >>= k₀) := by
  rcases take_sector_got_cases (a := a) hok with ⟨x, t, hrun, hD, hwrites, herror⟩ |
    ⟨t, hrun, hmap, hfree, hbad⟩
  · have hF := hsome x t hD.ok herror
    rw [hrun, ok_bind]
    refine ⟨Gathered.ends (l := [a]) hD (List.cons_ne_nil _ _) (fun hle b hb => ?_) hF.cases,
      fun hall => ?_⟩
    · rw [List.mem_singleton.mp hb]
      exact hwrites hle
    · have htake := take_sector_got_eq hok (hall a List.mem_cons_self)
      rw [← htake, hrun, ok_bind]
      exact hF.same fun b hb => hD.writes_iff.mpr (hall b (List.mem_cons_of_mem _ hb))
  · rw [hrun, ok_bind, hnone]
    refine ⟨Or.inr ⟨d, t, rfl, ⟨a, List.mem_cons_self, hbad⟩, Or.inl ⟨hmap, hfree, a, rfl, hbad⟩⟩,
      fun hall => absurd (hall a List.mem_cons_self) hbad⟩

/-- One part behind the other. -/
theorem Follows.bind (h : Follows s l r r₀) (hl : l ≠ [])
    {k k₀ : InodeDisk → FileSys → Res (Bool × InodeDisk × FileSys)}
    (hk : ∀ d t, FsOk t → Follows t l' (k d t) (k₀ d t)) :
    Follows s (l ++ l') (r >>= fun a => if a.1 then k a.2.1 a.2.2 else return a)
      (r₀ >>= fun a => if a.1 then k₀ a.2.1 a.2.2 else return a) := by
  obtain ⟨d, t, rfl, hD, hwrites⟩ | ⟨d, t, rfl, ⟨b, hb, hbad⟩, hend⟩ := h.cases
  · have hF := hk d t hD.ok
    rw [ok_bind, if_pos rfl]
    refine ⟨hD.ends hl hwrites hF.cases, fun hall => ?_⟩
    have hsame := h.same fun b hb => hall b (List.mem_append_left _ hb)
    rw [← hsame, ok_bind, if_pos rfl]
    exact hF.same fun b hb => hD.writes_iff.mpr (hall b (List.mem_append_right _ hb))
  · rw [ok_bind, if_neg Bool.false_ne_true]
    refine ⟨Or.inr ⟨d, t, rfl, ⟨b, List.mem_append_left _ hb, hbad⟩, ?_⟩,
      fun hall => absurd (hall b (List.mem_append_left _ hb)) hbad⟩
    refine hend.imp_left fun hand => ⟨hand.1, hand.2.1, ?_⟩
    obtain ⟨c, hc, hbad'⟩ := hand.2.2
    refine ⟨c, ?_, hbad'⟩
    rw [List.head?_append, hc]
    rfl

theorem slotsOf_cons (i : ℕ) : slotsOf i = first_slot i :: (slotsOf i).tail := by
  have hD : DIRECT_LEN = 122 := rfl
  have hrow : i - DIRECT_LEN - 128 = i - 250 := by omega
  unfold slotsOf first_slot
  rw [hrow, hD]
  by_cases h1 : i = 122
  · rw [if_pos h1, if_pos h1, List.tail_cons]
  rw [if_neg h1, if_neg h1]
  by_cases h2 : i = 250
  · rw [if_pos h2, if_pos h2, List.tail_cons]
  rw [if_neg h2, if_neg h2]
  by_cases h3 : 250 < i ∧ (i - 250) % 128 = 0
  · rw [if_pos h3, if_pos h3, List.tail_cons]
  · rw [if_neg h3, if_neg h3, List.tail_cons]

theorem tail_slotsOf {i : ℕ} (h : i ≠ 122 ∧ i ≠ 250 ∧ ¬ (250 < i ∧ (i - 250) % 128 = 0)) :
    (slotsOf i).tail = [] := by
  rw [slotsOf, if_neg h.1, if_neg h.2.1, if_neg h.2.2, List.tail_cons]

/-- The rest of a round, behind its first sector. -/
theorem assign_index_follows {got : Slot → Bool} (hok : FsOk s) {i : ℕ} (hi : i < MAX_BLOCKS)
    (sector : ℕ) : Follows s ((slotsOf i).tail.map got) (assign_index_got got s d i sector)
      (assign_index s d i sector) := by
  have hM : MAX_BLOCKS = 16634 := rfl
  have hD : DIRECT_LEN = 122 := rfl
  have hrow : i - DIRECT_LEN - 128 = i - 250 := by omega
  unfold assign_index_got assign_index
  by_cases h1 : i < DIRECT_LEN
  · rw [if_pos h1, if_pos h1, tail_slotsOf (by omega)]
    exact Follows.pure hok rfl rfl
  rw [if_neg h1, if_neg h1]
  by_cases h2 : i = DIRECT_LEN
  · have htail : (slotsOf i).tail = [.data i] := by
      rw [slotsOf, if_pos (by omega), List.tail_cons]
    rw [if_pos h2, if_pos h2, htail]
    exact Follows.take hok (fun _ => rfl)
      fun _ _ hokt _ => Follows.pure (hokt.of_arrays rfl rfl rfl) rfl rfl
  rw [if_neg h2, if_neg h2]
  by_cases h3 : i < DIRECT_LEN + 128
  · rw [if_pos h3, if_pos h3, tail_slotsOf (by omega)]
    exact Follows.pure (hok.of_arrays rfl rfl rfl) rfl rfl
  rw [if_neg h3, if_neg h3]
  by_cases h4 : i = DIRECT_LEN + 128
  · have htail : (slotsOf i).tail = [.parent 0, .data i] := by
      rw [slotsOf, if_neg (by omega), if_pos (by omega), List.tail_cons]
    rw [if_pos h4, if_pos h4, htail]
    refine Follows.take hok (fun _ => rfl) fun x t hokt _ => ?_
    have hoks : FsOk { t with
        doubly_sec_parent := Function.update t.doubly_sec_parent 0 x } :=
      hokt.of_arrays rfl rfl rfl
    refine Follows.congr (Follows.take hoks (fun _ => rfl) fun y u hoku _ => ?_) rfl rfl
    exact Follows.pure (hoku.of_arrays rfl rfl rfl) rfl rfl
  rw [if_neg h4, if_neg h4]
  have hbound : ¬ 128 ≤ (i - DIRECT_LEN - 128) / 128 := by omega
  dsimp only
  rw [if_neg hbound, if_neg hbound]
  by_cases h5 : (i - DIRECT_LEN - 128) % 128 = 0
  · have htail : (slotsOf i).tail = [.data i] := by
      rw [slotsOf, if_neg (by omega), if_neg (by omega), if_pos ⟨by omega, by omega⟩,
        List.tail_cons]
    rw [if_pos h5, if_pos h5, htail]
    have hoks : FsOk { s with
        doubly_sec_parent :=
          Function.update s.doubly_sec_parent ((i - DIRECT_LEN - 128) / 128) sector } :=
      hok.of_arrays rfl rfl rfl
    refine Follows.congr (Follows.take hoks (fun _ => rfl) fun x t hokt _ => ?_) rfl rfl
    exact Follows.pure (hokt.of_arrays rfl rfl rfl) rfl rfl
  · rw [if_neg h5, if_neg h5, tail_slotsOf (by omega)]
    exact Follows.pure (hok.of_arrays rfl rfl rfl) rfl rfl

/-- A round: its first search, and the rest if that has found a sector. -/
def round_of (take : Res (Option ℕ × FileSys)) (d : InodeDisk)
    (rest : FileSys → ℕ → Res (Bool × InodeDisk × FileSys)) : Res (Bool × InodeDisk × FileSys) := do
  let t ← take
  match t.1 with
  | none => return (false, d, t.2)
  | some sector => if sector = BITMAP_ERROR then return (true, d, t.2) else rest t.2 sector

theorem round_follows {got : Slot → Bool} (hok : FsOk s) {i : ℕ} (hi : i < MAX_BLOCKS) :
    Follows s ((slotsOf i).map got)
      (round_of (take_sector_got (got (first_slot i)) s) d fun t => assign_index_got got t d i)
      (round_of (take_sector s) d fun t => assign_index t d i) := by
  rw [slotsOf_cons, List.map_cons]
  refine Follows.take hok (fun _ => rfl) fun x t hokt herror => ?_
  dsimp only
  by_cases hx : x = BITMAP_ERROR
  · -- the round is skipped, whatever it was to fill
    rw [if_pos hx, if_pos hx]
    refine ⟨Or.inl ⟨d, t, rfl, Gathered.of_full hokt (herror hx), fun hn a ha => ?_⟩, fun _ => rfl⟩
    rw [herror hx] at hn
    rw [List.length_eq_zero_iff.mp (Nat.le_zero.mp hn)] at ha
    cases ha
  · rw [if_neg hx, if_neg hx]
    exact assign_index_follows hokt hi x

theorem round_of_bind {β : Type} (take : Res (Option ℕ × FileSys))
    (rest : FileSys → ℕ → Res (Bool × InodeDisk × FileSys))
    (k : Bool × InodeDisk × FileSys → Res β) :
    round_of take d rest >>= k = take >>= fun t =>
      match t.1 with
      | none => k (false, d, t.2)
      | some sector => if sector = BITMAP_ERROR then k (true, d, t.2) else rest t.2 sector >>= k := by
  rw [round_of, bind_assoc]
  congr 1
  funext r
  obtain ⟨o, t⟩ := r
  cases o with
  | none => rfl
  | some x => by_cases hx : x = BITMAP_ERROR <;> simp [hx]

theorem allocate_got_succ (got : Slot → Bool) (cnt i : ℕ) (s : FileSys) (d : InodeDisk) :
    free_map_allocate_index_got got (cnt + 1) i s d =
      round_of (take_sector_got (got (first_slot i)) s) d (fun t => assign_index_got got t d i) >>=
        fun a => if a.1 then free_map_allocate_index_got got cnt (i + 1) a.2.2 a.2.1
          else return a := by
  rewrite [free_map_allocate_index_got, round_of_bind]
  rfl

theorem allocate_succ (cnt i : ℕ) (s : FileSys) (d : InodeDisk) :
    free_map_allocate_index (cnt + 1) i s d =
      round_of (take_sector s) d (fun t => assign_index t d i) >>=
        fun a => if a.1 then free_map_allocate_index cnt (i + 1) a.2.2 a.2.1 else return a := by
  rewrite [free_map_allocate_index, round_of_bind]
  rfl

/-- **The call**, with the answers for its writes. -/
theorem allocate_follows (got : Slot → Bool) : ∀ (cnt i : ℕ) (s : FileSys) (d : InodeDisk),
    FsOk s → i + cnt ≤ MAX_BLOCKS → Follows s ((slotsFrom cnt i).map got)
      (free_map_allocate_index_got got cnt i s d) (free_map_allocate_index cnt i s d) := by
  intro cnt
  induction cnt with
  | zero => exact fun i s d hok _ => Follows.pure hok rfl rfl
  | succ cnt ih =>
    intro i s d hok hmax
    rw [slotsFrom, List.map_append, allocate_got_succ, allocate_succ]
    refine (round_follows hok (by omega)).bind ?_ fun d t hokt => ih (i + 1) t d hokt (by omega)
    rw [slotsOf_cons]
    exact List.cons_ne_nil _ _

end Parts

/-! ## All or nothing -/

section Outcome

variable {got : Slot → Bool} {s : FileSys} {d : InodeDisk} {start cnt : ℕ}

theorem allocate_got_full (hfull : (free_sectors s).card = 0) : ∀ cnt i : ℕ,
    free_map_allocate_index_got got cnt i s d = .ok (true, d, s) := by
  intro cnt
  induction cnt with
  | zero =>
    intro i
    rfl
  | succ cnt ih =>
    intro i
    rw [free_map_allocate_index_got, take_sector_got_full hfull, ok_bind]
    exact ih (i + 1)

theorem slotsFrom_head (cnt i : ℕ) : (slotsFrom (cnt + 1) i).head? = some (first_slot i) := by
  rw [slotsFrom, slotsOf_cons]
  rfl

/-- A call whose first write fails returns false, and has changed nothing. -/
theorem first_write_fails (hok : FsOk (allow_write s)) (hfree : 0 < (free_sectors s).card)
    (hfirst : ∃ σ ∈ (slotsFrom cnt start).head?, ¬ Writes s (got σ)) :
    AllOrNothing got s d start cnt := by
  obtain ⟨σ, hσ, hbad⟩ := hfirst
  cases cnt with
  | zero => cases hσ
  | succ cnt =>
    rw [slotsFrom_head] at hσ
    obtain rfl := Option.some.inj hσ
    obtain ⟨t, hrun, hmap⟩ := take_sector_got_fails hok hfree hbad
    refine ⟨false, d, t, ?_, fun h => (by cases h), fun _ => hmap⟩
    rw [free_map_allocate_index_got, hrun, ok_bind]
    rfl

/-- A call for no slot. -/
theorem nothing_to_fill (hnil : slotsFrom cnt start = []) : AllOrNothing got s d start cnt := by
  cases cnt with
  | zero =>
    refine ⟨true, d, s, rfl, fun _ => ?_, fun h => (by cases h)⟩
    rw [hnil]
    exact ⟨by simp, by simp, by simp⟩
  | succ cnt =>
    rw [slotsFrom, slotsOf_cons] at hnil
    cases hnil

/-- **Allocation is all or nothing** exactly while there are enough free sectors and the map can be
written for all of them, or else cannot be for the first. -/
theorem allocates_all_or_nothing (hok : FsOk (allow_write s)) (hmax : start + cnt ≤ MAX_BLOCKS) :
    AllOrNothing got s d start cnt ↔ Enough got s start cnt := by
  by_cases hdeny : Denied s
  · have hbad : ∀ σ, ¬ Writes s (got σ) := by
      obtain ⟨f, hf, hne⟩ := hdeny
      exact fun σ hw => hne (hw f hf).1
    constructor
    · rintro ⟨ok, d', s', hrun, htrue, -⟩
      cases hslots : slotsFrom cnt start with
      | nil =>
        refine Or.inl ⟨by rw [hslots]; exact Nat.zero_le _, fun σ hσ => ?_⟩
        rw [hslots] at hσ
        cases hσ
      | cons σ l =>
        refine Or.inr ⟨Nat.pos_of_ne_zero fun hfull => ?_, σ, by rw [hslots]; rfl, hbad σ⟩
        -- a full disk, on which the call reports success
        rw [allocate_got_full hfull] at hrun
        have hle := (htrue (Prod.mk.inj (Except.ok.inj hrun)).1.symm).card_le
          (slotsFrom_nodup cnt start)
        rw [hfull, hslots, List.length_cons] at hle
        omega
    · rintro (⟨-, hw⟩ | ⟨hfree, hfirst⟩)
      · exact nothing_to_fill (List.eq_nil_iff_forall_not_mem.mpr fun σ hσ => hbad σ (hw σ hσ))
      · exact first_write_fails hok hfree hfirst
  · have hok' := hok
    rw [allow_write_of_not_denied hdeny] at hok'
    have hF := allocate_follows got cnt start s d hok' hmax
    constructor
    · rintro ⟨ok, d', s', hrun, htrue, hfalse⟩
      obtain ⟨e, t, hr, -, hall⟩ | ⟨e, t, hr, -, hend⟩ := hF.cases
      · rw [hrun] at hr
        have hle := (htrue (Prod.mk.inj (Except.ok.inj hr)).1).card_le (slotsFrom_nodup cnt start)
        refine Or.inl ⟨hle, fun σ hσ => hall ?_ _ (List.mem_map_of_mem hσ)⟩
        rwa [List.length_map]
      · rw [hrun] at hr
        obtain ⟨hflag, hpair⟩ := Prod.mk.inj (Except.ok.inj hr)
        obtain ⟨-, rfl⟩ := Prod.mk.inj hpair
        rcases hend with ⟨-, hfree, a, ha, hbad⟩ | ⟨x, hclear, hset⟩
        · rw [List.head?_map, Option.mem_map] at ha
          obtain ⟨σ, hσ, rfl⟩ := ha
          exact Or.inr ⟨hfree, σ, hσ, hbad⟩
        · -- a sector that was taken before the write that failed
          rw [hfalse hflag, hclear] at hset
          cases hset
    · rintro (⟨hle, hw⟩ | ⟨hfree, hfirst⟩)
      · obtain ⟨d', s', hrun, hA⟩ := free_map_allocate_index_spec cnt start s d hok' hmax hle
        refine ⟨true, d', s', ?_, fun _ => hA.obtained, fun h => by cases h⟩
        rw [hF.same, hrun]
        intro a ha
        obtain ⟨σ, hσ, rfl⟩ := List.mem_map.mp ha
        exact hw σ hσ
      · exact first_write_fails hok hfree hfirst

end Outcome

/-- With 32 free sectors: 32 blocks below the indirect block, the same without a bounce buffer for
the second of them, and 32 blocks across the indirect block. -/
theorem small_all_or_nothing : AllOrNothing (fun _ => true) small_fs (small_file 0).data 90 32 ∧
    ¬ AllOrNothing (fun σ => σ != .data 91) small_fs (small_file 0).data 90 32 ∧
    ¬ AllOrNothing (fun _ => true) small_fs (small_file 0).data 110 32 := by
  have hfree : (free_sectors small_fs).card = 32 := by decide +kernel
  have hallow : ¬ Denied small_fs := by
    rintro ⟨f, hf, hne⟩
    rw [← Option.some.inj hf] at hne
    exact hne rfl
  have hok : FsOk (allow_write small_fs) := by
    rw [allow_write_of_not_denied hallow]
    exact small_fs_ready.ok
  have hwrites : Writes small_fs true := by
    intro f hf
    obtain rfl := Option.some.inj hf
    exact ⟨rfl, Or.inr rfl⟩
  have hfails : ¬ Writes small_fs false := fun hw => absurd (hw _ rfl).2 (by decide)
  refine ⟨(allocates_all_or_nothing hok (by decide)).mpr (Or.inl ⟨?_, fun _ _ => hwrites⟩),
    fun h => ?_, fun h => ?_⟩
  · rw [hfree]
    decide
  · rcases (allocates_all_or_nothing hok (by decide)).mp h with ⟨-, hall⟩ | ⟨-, σ, hσ, hbad⟩
    · exact hfails (hall (.data 91) (by decide))
    · obtain rfl : Slot.data 90 = σ := Option.some.inj hσ
      exact hbad hwrites
  · rcases (allocates_all_or_nothing hok (by decide)).mp h with ⟨hle, -⟩ | ⟨-, σ, -, hbad⟩
    · rw [hfree] at hle
      exact absurd hle (by decide)
    · exact hbad hwrites

/-- The small disk with every sector in use. -/
def full_fs : FileSys :=
  { small_fs with free_map := { bit_cnt := 160, bits := fun i => i < 160 } }

theorem full_fs_ok : FsOk full_fs := by
  apply @FsOk.sameBut small_fs full_fs small_fs_ready.ok ⟨rfl, fun _ _ => rfl⟩ rfl
  · intro i hi
    have hlt : i < 128 := of_decide_eq_true hi
    exact decide_eq_true (by omega : i < 160)
  · intro i hi
    exact of_decide_eq_true hi

/-- **A full disk is not noticed.** The call for one block returns true and obtains
nothing. -/
theorem full_disk_unnoticed : ¬ ∀ (got : Slot → Bool) (s : FileSys) (d : InodeDisk)
    (start cnt : ℕ), FsOk (allow_write s) → start + cnt ≤ MAX_BLOCKS →
    AllOrNothing got s d start cnt := by
  intro hall
  have hfull : (free_sectors full_fs).card = 0 := by decide +kernel
  obtain ⟨ok, d', s', hrun, htrue, -⟩ :=
    hall (fun _ => true) full_fs (small_file 0).data 0 1 full_fs_ok (by decide)
  rw [allocate_got_full hfull] at hrun
  obtain ⟨hflag, -⟩ := Prod.mk.inj (Except.ok.inj hrun)
  have hmem := (htrue hflag.symm).free (.data 0) (by decide)
  rw [Finset.card_eq_zero] at hfull
  rw [hfull] at hmem
  exact absurd hmem (Finset.notMem_empty _)

end Pintos.Filesys
