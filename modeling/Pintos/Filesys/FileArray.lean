/-
A file is a growable byte array, over every run of writes.

The concrete state is the file system and one open inode; the abstract state
beside it is a `GrowArray`. A step is one call of `inode_write_at`, and the
guard `WriteOk` is what the call needs (`CanGrow`). In every state such runs
reach, reading the file gives what the array determines, and the next write that
meets the guard returns.

Outside the guard this fails: see `growth_loses_block_122`.
-/
import Pintos.Filesys.Growth
import Pintos.Library.GrowArray
import Pintos.Library.StepSystem

set_option autoImplicit false

namespace Pintos.Filesys

open Pintos.Kernel WordImage StepSystem

/-! ## Runs of writes -/

/-- One call of `inode_write_at`. -/
structure WriteReq where
  buffer : ℕ → UInt8
  size : ℕ
  offset : ℕ

/-- The end of the range a call writes. -/
def WriteReq.eof (w : WriteReq) : ℕ := w.offset + w.size

/-- The file system with one open file, and the array the file stands for. -/
structure FileState where
  fs : FileSys
  inode : Inode
  array : GrowArray UInt8

/-- A run starts at a well-formed file that may be written and takes one
`inode_write_at` after another. -/
def file_writes : System FileState WriteReq where
  init st := Ready st.fs ∧ FileOk st.fs st.inode ∧ st.inode.deny_write_cnt = 0 ∧
    st.array = .ofFun st.inode.data.length (file_byte st.fs.disk st.inode.data)
  step st w st' :=
    inode_write_at st.fs st.inode w.buffer w.size w.offset = .ok (w.size, st'.inode, st'.fs) ∧
      st'.array = st.array.write w.offset w.size w.buffer

/-- A write inside the maximum file size that, if it adds blocks, goes between
lengths `add_blocks` handles and finds the sectors it takes. -/
def WriteOk (st : FileState) (w : WriteReq) : Prop :=
  0 < w.size ∧ w.eof ≤ 512 * MAX_BLOCKS ∧ CanGrow st.fs st.inode.data.length w.eof

/-- The invariant of a run: file and file system are well formed, and the array
models the file. -/
structure FileState.Inv (st : FileState) : Prop where
  ready : Ready st.fs
  file : FileOk st.fs st.inode
  writable : st.inode.deny_write_cnt = 0
  models : st.array.Models st.inode.data.length (file_byte st.fs.disk st.inode.data)

/-- One write that meets the guard: it returns, and every state it can lead to
keeps the invariant. -/
theorem FileState.Inv.step {st : FileState} (h : st.Inv) {w : WriteReq} (hw : WriteOk st w) :
    (∃ st', file_writes.step st w st') ∧ ∀ st', file_writes.step st w st' → st'.Inv := by
  obtain ⟨inode', s', hrun, hlen, hK, hin, hout⟩ :=
    inode_write_at_spec w.buffer h.ready h.file h.writable hw.2.1 hw.2.2
  refine ⟨⟨⟨s', inode', _⟩, hrun, rfl⟩, ?_⟩
  rintro ⟨t, i, A⟩ ⟨hrun', hA⟩
  rw [hrun] at hrun'
  obtain ⟨rfl, rfl⟩ : inode' = i ∧ s' = t := by
    simpa only [Except.ok.injEq, Prod.mk.injEq, true_and] using hrun'
  refine ⟨hK.ready, hK.fileOk, ?_, ?_⟩
  · change inode'.deny_write_cnt = 0
    rw [hK.rest]
    exact h.writable
  · have hA' : A = st.array.write w.offset w.size w.buffer := hA
    rw [hA']
    exact h.models.write hlen hin hout

theorem inv_of_reachable {st : FileState} (hr : Reachable file_writes WriteOk st) : st.Inv := by
  refine hr.invariant ?_ ?_
  · rintro s ⟨h1, h2, h3, h4⟩
    exact ⟨h1, h2, h3, by rw [h4]; exact GrowArray.models_ofFun _ _⟩
  · intro s w s' hs hw hstep
    exact (hs.step hw).2 s' hstep

/-- **File growth refines a growable byte array.** After every run of writes that
meet the guard, a read inside the file returns as many bytes as asked for, equal
to the array wherever the array is determined; and the next such write returns,
having written its whole buffer. `malloc` gives the bounce buffers. -/
theorem file_writes_refine_array {st : FileState} (hr : Reachable file_writes WriteOk st) :
    st.inode.data.length = st.array.length ∧
    (∀ size offset, offset + size ≤ st.array.length →
      ∃ bytes, inode_read_at st.fs st.inode size offset = .ok bytes ∧ bytes.length = size ∧
        ∀ i < size, ∀ b, st.array.get (offset + i) = some b → bytes[i]? = some b) ∧
    ∀ w, WriteOk st w → ∃ st', file_writes.step st w st' := by
  have hi := inv_of_reachable hr
  refine ⟨hi.models.length, ?_, fun w hw => (hi.step hw).1⟩
  intro size offset hle
  rw [← hi.models.length] at hle
  refine ⟨_, inode_read_at_spec hi.ready.ok.disk hi.file.map hi.file.max _ _ hle, by simp, ?_⟩
  intro i hlt b hb
  rw [List.getElem?_map, List.getElem?_range hlt, Option.map_some,
    hi.models.get (offset + i) (by omega) b hb]

/-! ## A small disk

160 sectors, of which the first 128 are in use: 0 and 1 are the two fixed inodes,
2 is the free map's only block, 3 is a file's inode, 4 to 125 its direct blocks,
126 its indirect block and 127 its block 122, whose first byte is 1. -/

/-- The free map's file on the small disk. -/
def small_free_map_file : Inode where
  sector := FREE_MAP_SECTOR
  open_cnt := 1
  removed := false
  deny_write_cnt := 0
  data :=
    { inode_i := 1, length := 20, magic := INODE_MAGIC, isdir := true,
      direct_block := fun k => if k = 0 then 2 else 0, indirect_block := 0,
      doubly_indirect_block := 0 }

/-- The small disk. -/
def small_fs : FileSys where
  disk n :=
    if n = 126 then ofWords (fun k => if k = 0 then 127 else 0)
    else if n = 127 then fun j => if j = 0 then 1 else 0
    else fun _ => 0
  free_map := { bit_cnt := 160, bits := fun i => i < 128 }
  free_map_file := some small_free_map_file
  indirect_sec_idx := fun _ => 0
  doubly_sec_parent := fun _ => 0
  doubly_sec_idx := fun _ => 0
  next_iid := 3

/-- A file on the small disk in sector 3, of `length` bytes. -/
def small_file (length : ℕ) : Inode where
  sector := 3
  open_cnt := 1
  removed := false
  deny_write_cnt := 0
  data :=
    { inode_i := 2, length := length, magic := INODE_MAGIC, isdir := false,
      direct_block := fun k => if k < 122 then 4 + k else 0, indirect_block := 126,
      doubly_indirect_block := 0 }

/-- The only slot of the free map's file. -/
theorem small_free_map_slot {τ : Slot} (hτ : τ.pos < small_free_map_file.data.blocks) :
    τ = .data 0 ∧ disk_slot small_fs.disk small_free_map_file.data τ = 2 := by
  have hB : small_free_map_file.data.blocks = 1 := rfl
  rw [hB] at hτ
  cases τ with
  | data k =>
    obtain rfl : k = 0 := by simpa [Slot.pos] using hτ
    exact ⟨rfl, rfl⟩
  | _ => simp [Slot.pos] at hτ

theorem small_fs_capacity : small_fs.capacity = 160 := rfl

theorem small_fs_ready : Ready small_fs where
  ok :=
    { disk := ⟨by rw [small_fs_capacity]; norm_num, fun i hi => by
        have : i < 128 := by simpa [small_fs] using hi
        rw [small_fs_capacity]
        omega⟩
      file := by
        intro f hf
        obtain rfl : small_free_map_file = f := Option.some.inj hf
        refine ⟨⟨?_, ?_⟩, by decide, rfl, rfl⟩
        · intro σ τ hσ hτ _
          rw [(small_free_map_slot hσ).1, (small_free_map_slot hτ).1]
        · intro σ hσ
          rw [(small_free_map_slot hσ).2]
          rfl }
  arrays := ⟨rfl, rfl, rfl⟩
  boot := rfl
  file_boot := by
    intro f hf τ hτ
    obtain rfl : small_free_map_file = f := Option.some.inj hf
    rw [(small_free_map_slot hτ).2]
    decide

/-- The slots of the file on the small disk, up to block 122. -/
theorem small_file_slot (length : ℕ) {σ : Slot} (hσ : σ.pos < 123) :
    (σ = .indirect ∧ disk_slot small_fs.disk (small_file length).data σ = 126) ∨
      ∃ k < 123, σ = .data k ∧
        disk_slot small_fs.disk (small_file length).data σ = if k < 122 then 4 + k else 127 := by
  cases σ with
  | indirect => exact Or.inl ⟨rfl, rfl⟩
  | doubly => simp [Slot.pos] at hσ
  | parent j => simp only [Slot.pos] at hσ; omega
  | data k =>
    right
    simp only [Slot.pos] at hσ
    refine ⟨k, hσ, rfl, ?_⟩
    by_cases hk : k < 122
    · simp [disk_slot, small_file, hk]
    · obtain rfl : k = 122 := by omega
      have hw : word (small_fs.disk 126) 0 = 127 :=
        word_ofWords (fun k => if k = 0 then 127 else 0) 0 (by norm_num)
      simpa [disk_slot, small_file] using hw

theorem small_file_ok {length : ℕ} (hlen : length ≤ 123 * 512) :
    FileOk small_fs (small_file length) := by
  have hB : (small_file length).data.blocks ≤ 123 := by
    simp only [InodeDisk.blocks, bytes_to_sectors, small_file]
    omega
  have hrange : ∀ σ : Slot, σ.pos < (small_file length).data.blocks →
      4 ≤ disk_slot small_fs.disk (small_file length).data σ ∧
        disk_slot small_fs.disk (small_file length).data σ < 128 := by
    intro σ hσ
    rcases small_file_slot length (lt_of_lt_of_le hσ hB) with ⟨-, he⟩ | ⟨k, hk, -, he⟩
    · rw [he]
      omega
    · rw [he]
      split_ifs <;> omega
  refine ⟨⟨?_, ?_⟩, hB.trans (by decide), rfl, ?_, ?_, ?_⟩
  · intro σ τ hσ hτ he
    rcases small_file_slot length (lt_of_lt_of_le hσ hB) with ⟨rfl, h1⟩ | ⟨k, hk, rfl, h1⟩ <;>
      rcases small_file_slot length (lt_of_lt_of_le hτ hB) with ⟨rfl, h2⟩ | ⟨l, hl, rfl, h2⟩
    · rfl
    · rw [h1, h2] at he
      split_ifs at he <;> omega
    · rw [h1, h2] at he
      split_ifs at he <;> omega
    · rw [h1, h2] at he
      congr 1
      split_ifs at he <;> omega
  · intro σ hσ
    have := (hrange σ hσ).2
    simpa [small_fs] using this
  · intro σ hσ he
    have := hrange σ hσ
    simp only [small_file] at this he
    omega
  · intro σ hσ he
    have := hrange σ hσ
    rw [he] at this
    simp only [FREE_MAP_SECTOR] at this
    omega
  · intro f hf τ hτ
    obtain rfl : small_free_map_file = f := Option.some.inj hf
    rw [(small_free_map_slot hτ).2]
    refine ⟨by simp [small_file], ?_⟩
    intro σ hσ he
    have := hrange σ hσ
    omega

theorem small_fs_free : 1 ≤ (free_sectors small_fs).card := by
  refine Finset.card_pos.mpr ⟨128, ?_⟩
  rw [mem_free_sectors]
  exact ⟨by rw [small_fs_capacity]; norm_num, rfl⟩

/-- The file of no bytes on the small disk, written once. -/
theorem file_writes_refine_array_small :
    ∃ st, Reachable file_writes WriteOk st ∧ st.array.get 0 = some 7 ∧
      inode_read_at st.fs st.inode 1 0 = .ok [7] := by
  let st₀ : FileState := ⟨small_fs, small_file 0,
    .ofFun 0 (file_byte small_fs.disk (small_file 0).data)⟩
  have hr₀ : Reachable file_writes WriteOk st₀ :=
    .init ⟨small_fs_ready, small_file_ok (by norm_num), rfl, rfl⟩
  let w : WriteReq := ⟨fun _ => 7, 1, 0⟩
  have hw : WriteOk st₀ w := by
    refine ⟨by decide, by decide, fun _ => ⟨?_, ?_⟩⟩
    · exact ⟨by decide, ⟨by decide, by decide⟩, by decide, by decide⟩
    · have hone : (grown_slots 0 1).length = 1 := by decide
      exact hone.le.trans small_fs_free
  obtain ⟨st, hst⟩ := (file_writes_refine_array hr₀).2.2 w hw
  have hr : Reachable file_writes WriteOk st := .step hr₀ hw hst
  have hget : st.array.get 0 = some 7 := by
    rw [hst.2]
    rfl
  have hlen : 0 + 1 ≤ st.array.length := by
    rw [hst.2]
    decide
  obtain ⟨bytes, hread, hbl, hb⟩ := (file_writes_refine_array hr).2.1 1 0 hlen
  refine ⟨st, hr, hget, ?_⟩
  have hb0 := hb 0 (by omega) 7 hget
  rw [hread]
  match bytes, hbl with
  | [b], _ => rw [Option.some.inj hb0]

/-- **Growing a file that ends inside block 122 loses that block.** The reload at
the head of `add_blocks` tests `old_eof/512 > DIRECT_LEN`, which is false while
block 122 is the last one; the write-back then stores 0 over its pointer, and the
byte 1 at its start reads as byte 0 of sector 0. -/
theorem growth_loses_block_122 :
    ¬ ∀ (s : FileSys) (inode : Inode) (buffer : ℕ → UInt8) (size offset : ℕ),
      Ready s → FileOk s inode → inode.deny_write_cnt = 0 → 0 < size →
      offset + size ≤ 512 * MAX_BLOCKS →
      (grown_slots inode.data.length (offset + size)).length ≤ (free_sectors s).card →
      ∃ inode' s', inode_write_at s inode buffer size offset = .ok (size, inode', s') ∧
        ∀ p < inode.data.length, ¬ (offset ≤ p ∧ p < offset + size) →
          inode_read_at s' inode' 1 p = inode_read_at s inode 1 p := by
  intro hall
  have hone : (grown_slots (122 * 512 + 1) (123 * 512 + 1)).length = 1 := by decide +kernel
  obtain ⟨inode', s', hrun, hread⟩ := hall small_fs (small_file (122 * 512 + 1)) (fun _ => 7) 1
    (123 * 512) small_fs_ready (small_file_ok (by norm_num)) rfl (by decide) (by decide)
    (hone.le.trans small_fs_free)
  have hold : inode_read_at small_fs (small_file (122 * 512 + 1)) 1 (122 * 512) = .ok [1] := by
    decide +kernel
  have hnew : (do
      let r ← inode_write_at small_fs (small_file (122 * 512 + 1)) (fun _ => 7) 1 (123 * 512)
      inode_read_at r.2.2 r.2.1 1 (122 * 512)) = .ok [0] := by
    decide +kernel
  have hsame := hread (122 * 512) (by decide) (by omega)
  rw [hrun, ok_bind] at hnew
  simp only [hnew, hold] at hsame
  exact absurd hsame (by decide)

end Pintos.Filesys
