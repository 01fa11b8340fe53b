/-
What the last `inode_close` of a removed file gives back.

The deallocation is written here a second time with a trace, one event for each call of
`free_map_release`, so that a call that panics counts as a call. The results are those of
the store's `inode_close` (`inode_close_result`).

For a file of at most 122 blocks the calls are exactly the file's sectors. Behind an
indirect block the inner loop runs to `num_blocks - DIRECT_LEN` inclusive. It releases the
file's own entries first and then one more; from block 250 on that one is `buffer[128]`.
-/
import Pintos.Library.Traced
import Pintos.Filesys.Ownership

set_option autoImplicit false

namespace Pintos.Filesys.Deletion

open Pintos.Kernel WordImage Traced

/-- Code that may call `free_map_release`. -/
abbrev Frees (α : Type) := Traced Fault ℕ α

/-- Code that does not. -/
def silently {α : Type} (x : Res α) : Frees α := ⟨[], x⟩

/-- `free_map_release (sector, 1)`. -/
def free_map_release (s : FileSys) (sector : ℕ) : Frees FileSys :=
  ⟨[sector], Filesys.free_map_release s sector 1⟩

/-- Releasing a list of sectors one by one. -/
def release_all : List ℕ → FileSys → Frees FileSys
  | [], s => pure s
  | n :: l, s => do
    let s ← free_map_release s n
    release_all l s

/-- The loop over the children of the doubly indirect block. -/
def release_children (buffer : ℕ → ℕ) (m : ℕ) : (cnt i : ℕ) → FileSys → Frees FileSys
  | 0, _, s => pure s
  | cnt + 1, i, s =>
    if 128 ≤ i then stop .bounds
    else do
      let b ← silently (disk_read s (buffer i))
      let s ← free_map_release s (buffer i)
      let s ← release_all ((List.range m).map (word b)) s
      release_children buffer m cnt (i + 1) s

/-- `if (num_blocks > DIRECT_LEN) …`: the indirect block and its entries `0` to
`num_blocks - DIRECT_LEN`, in an array of 128. -/
def release_indirect (d : InodeDisk) (num_blocks : ℕ) (s : FileSys) : Frees FileSys :=
  if DIRECT_LEN < num_blocks then do
    let b ← silently (disk_read s d.indirect_block)
    let s ← free_map_release s d.indirect_block
    let s ← release_all ((List.range (min (num_blocks - DIRECT_LEN + 1) 128)).map (word b)) s
    if 128 ≤ num_blocks - DIRECT_LEN then stop .bounds else pure s
  else pure s

/-- `if (num_blocks > DIRECT_LEN + 128) …`: the doubly indirect block and its children. -/
def release_doubly (d : InodeDisk) (num_blocks : ℕ) (s : FileSys) : Frees FileSys :=
  if DIRECT_LEN + 128 < num_blocks then do
    let b ← silently (disk_read s d.doubly_indirect_block)
    let s ← free_map_release s d.doubly_indirect_block
    release_children (word b) ((num_blocks - DIRECT_LEN - 128) % 128 + 1)
      ((num_blocks - DIRECT_LEN - 128) / 128 + 1) 0 s
  else pure s

/-- The block deallocation in `inode_close` of a removed inode. -/
def release_blocks (s : FileSys) (d : InodeDisk) : Frees FileSys := do
  let num_blocks := d.length / 512 + (if d.length % 512 ≠ 0 then 1 else 0)
  let s ← release_all ((List.range (min num_blocks DIRECT_LEN)).map d.direct_block) s
  let s ← release_indirect d num_blocks s
  release_doubly d num_blocks s

/-- `inode_close`. -/
def inode_close (st : Store) (sector : ℕ) : Frees Store :=
  match st.open_inodes sector with
  | none => stop .dangling
  | some inode =>
    if inode.open_cnt - 1 = 0 then
      let st := st.set_inode sector none
      if inode.removed then do
        let fs ← release_blocks st.fs inode.data
        return { st with fs := fs, live := st.live.filter (fun x => x ≠ sector) }
      else pure st
    else pure (st.set_inode sector (some { inode with open_cnt := inode.open_cnt - 1 }))

/-! ## The results are the store's -/

@[simp] theorem silently_result {α : Type} (x : Res α) : (silently x).result = x := rfl

@[simp] theorem stop_result {α : Type} (e : Fault) : (stop e : Frees α).result = .error e := rfl

@[simp] theorem release_result (s : FileSys) (n : ℕ) :
    (free_map_release s n).result = Filesys.free_map_release s n 1 := rfl

theorem ite_result {α : Type} {p : Prop} [Decidable p] (x y : Frees α) :
    (if p then x else y).result = if p then x.result else y.result := by
  split_ifs <;> rfl

@[simp] theorem release_all_result (l : List ℕ) : ∀ s : FileSys,
    (release_all l s).result = Filesys.release_all l s := by
  induction l with
  | nil => exact fun _ => rfl
  | cons n l ih =>
    intro s
    unfold release_all Filesys.release_all
    simp only [result_bind, release_result, ih]

@[simp] theorem release_children_result (b : ℕ → ℕ) (m cnt : ℕ) : ∀ (i : ℕ) (s : FileSys),
    (release_children b m cnt i s).result = Filesys.release_children b m cnt i s := by
  induction cnt with
  | zero => exact fun _ _ => rfl
  | succ cnt ih =>
    intro i s
    unfold release_children Filesys.release_children
    simp only [ite_result, result_bind, stop_result, silently_result, release_result,
      release_all_result, ih]

@[simp] theorem release_blocks_result (s : FileSys) (d : InodeDisk) :
    (release_blocks s d).result = Filesys.release_blocks s d := by
  unfold release_blocks Filesys.release_blocks release_indirect release_doubly
  simp only [ite_result, result_bind, result_pure, stop_result, silently_result, release_result,
    release_all_result, release_children_result]

/-- The traced close comes to what the store's close comes to. -/
theorem inode_close_result (st : Store) (x : ℕ) :
    (inode_close st x).result = st.inode_close x := by
  unfold inode_close Store.inode_close
  cases st.open_inodes x with
  | none => rfl
  | some inode =>
    simp only [ite_result, result_bind, result_pure, release_blocks_result]
    rfl

/-! ## The calls -/

/-- A sequence that goes on after its first half. -/
theorem bind_of_ok {α β : Type} {x : Frees α} {f : α → Frees β} {l : List ℕ} {a : α}
    (h : x = ⟨l, .ok a⟩) : x >>= f = ⟨l ++ (f a).trace, (f a).result⟩ := by
  rw [h]
  rfl

/-- Releases that all succeed are the calls on the list. -/
theorem release_all_eq (l : List ℕ) : ∀ {s s' : FileSys}, Filesys.release_all l s = .ok s' →
    release_all l s = ⟨l, .ok s'⟩ := by
  induction l with
  | nil =>
    intro s s' h
    obtain rfl := Except.ok.inj h
    rfl
  | cons n l ih =>
    intro s s' h
    obtain ⟨s₁, h₁, h⟩ := bind_eq_ok h
    have hfirst : free_map_release s n = ⟨[n], .ok s₁⟩ := by rw [free_map_release, h₁]
    rw [release_all, bind_of_ok hfirst, ih h]
    rfl

/-- One more release is one more call, whatever comes of it. -/
theorem release_all_concat {l : List ℕ} {n : ℕ} {s s' : FileSys}
    (h : Filesys.release_all l s = .ok s') : (release_all (l ++ [n]) s).trace = l ++ [n] := by
  induction l generalizing s with
  | nil =>
    rw [List.nil_append, release_all]
    show (Traced.bind _ _).trace = _
    unfold Traced.bind free_map_release
    cases Filesys.free_map_release s n 1 <;> rfl
  | cons m l ih =>
    obtain ⟨s₁, h₁, h⟩ := bind_eq_ok h
    have hfirst : free_map_release s m = ⟨[m], .ok s₁⟩ := by rw [free_map_release, h₁]
    rw [List.cons_append, release_all, bind_of_ok hfirst, ih h]
    rfl

/-- A second half without calls. -/
theorem trace_bind_quiet {α β : Type} {x : Frees α} {f : α → Frees β}
    (h : ∀ a, (f a).trace = []) : (x >>= f).trace = x.trace := by
  show (Traced.bind x f).trace = _
  unfold Traced.bind
  cases x.result with
  | ok a => exact (congrArg (x.trace ++ ·) (h a)).trans (List.append_nil _)
  | error e => rfl

/-! ## The last close -/

/-- A removed inode with a well-formed block map, and its last opener about to close it:
its sectors are distinct, marked used, and neither the two fixed sectors nor sectors of the
free-map file. -/
structure LastClose (st : Store) (x : ℕ) (inode f : Inode) : Prop where
  opened : st.open_inodes x = some inode
  last : inode.open_cnt = 1
  removed : inode.removed = true
  ok : FsOk st.fs
  file : st.fs.free_map_file = some f
  map : InodeOk st.fs x inode.data
  apart : ∀ σ τ : Slot, σ.pos < inode.data.blocks → τ.pos < f.data.blocks →
    disk_slot st.fs.disk inode.data σ ≠ disk_slot st.fs.disk f.data τ
  boot : st.fs.free_map.bits FREE_MAP_SECTOR = true
  root : st.fs.free_map.bits ROOT_DIR_SECTOR = true

/-- What a deletion may do: every `free_map_release` is on a data or index sector of the
inode, none twice, every subscript is below 128, and the two fixed sectors stay in use. -/
structure ReleasesOwn (st : Store) (x : ℕ) (d : InodeDisk) : Prop where
  own : ∀ y ∈ (inode_close st x).trace,
    ∃ σ : Slot, σ.pos < d.blocks ∧ y = disk_slot st.fs.disk d σ
  once : (inode_close st x).trace.Nodup
  bounds : (inode_close st x).result ≠ .error .bounds
  fixed : ∀ st', (inode_close st x).result = .ok st' →
    st'.fs.free_map.bits FREE_MAP_SECTOR = true ∧ st'.fs.free_map.bits ROOT_DIR_SECTOR = true

section Close

variable {st : Store} {x : ℕ} {inode f : Inode}

/-- The close of the last opener is the deallocation. -/
theorem LastClose.trace_eq (h : LastClose st x inode f) :
    (inode_close st x).trace = (release_blocks st.fs inode.data).trace := by
  have hcnt : inode.open_cnt - 1 = 0 := by rw [h.last]
  simp only [inode_close, h.opened, if_pos hcnt, h.removed, if_true]
  show (Traced.bind _ _).trace = _
  unfold Traced.bind
  cases hr : (release_blocks (st.set_inode x none).fs inode.data).result with
  | ok fs => exact List.append_nil _
  | error e => rfl

/-- It returns when the deallocation does. -/
theorem LastClose.result_eq (h : LastClose st x inode f) :
    (inode_close st x).result = (do
      let fs ← (release_blocks st.fs inode.data).result
      return { st.set_inode x none with
        fs := fs, live := st.live.filter (fun y => y ≠ x) }) := by
  have hcnt : inode.open_cnt - 1 = 0 := by rw [h.last]
  simp only [inode_close, h.opened, if_pos hcnt, h.removed, if_true, result_bind, result_pure]
  rfl

/-- The number of blocks as `inode_close` computes it. -/
theorem num_blocks_eq (d : InodeDisk) :
    d.length / 512 + (if d.length % 512 ≠ 0 then 1 else 0) = d.blocks := by
  simp only [InodeDisk.blocks, bytes_to_sectors]
  split_ifs <;> omega

/-- The sectors of the first 250 blocks can be released. -/
theorem LastClose.releasable (h : LastClose st x inode f) :
    Releasable st.fs f
      ((released_slots (min inode.data.blocks 250)).map (disk_slot st.fs.disk inode.data)) := by
  have hpos : ∀ σ ∈ released_slots (min inode.data.blocks 250), σ.pos < inode.data.blocks :=
    fun σ hσ => lt_of_lt_of_le (mem_released_slots hσ) (min_le_left _ _)
  refine ⟨(nodup_released_slots _).map_on ?_, ?_, ?_⟩
  · intro σ hσ τ hτ he
    exact h.map.map.inj σ τ (hpos σ hσ) (hpos τ hτ) he
  · intro y hy
    obtain ⟨σ, hσ, rfl⟩ := List.mem_map.mp hy
    exact h.map.map.used σ (hpos σ hσ)
  · intro y hy τ hτ he
    obtain ⟨σ, hσ, rfl⟩ := List.mem_map.mp hy
    exact h.apart σ τ (hpos σ hσ) hτ he.symm

/-- The direct blocks, as slots. -/
theorem direct_sectors (disk : ℕ → Sector) (d : InodeDisk) (n : ℕ) :
    (List.range (min n 122)).map d.direct_block
      = ((List.range (min n 122)).map Slot.data).map (disk_slot disk d) := by
  rw [List.map_map]
  apply List.map_congr_left
  intro k hk
  rw [List.mem_range] at hk
  simp only [Function.comp_apply, disk_slot, if_pos (show k < 122 by omega)]

/-- The entries of the indirect block, as slots. -/
theorem indirect_sectors (disk : ℕ → Sector) (d : InodeDisk) {n : ℕ} (h : n ≤ 250) :
    (List.range (n - 122)).map (word (disk d.indirect_block))
      = ((List.range (n - 122)).map (fun k => Slot.data (k + 122))).map (disk_slot disk d) := by
  rw [List.map_map]
  apply List.map_congr_left
  intro k hk
  rw [List.mem_range] at hk
  simp only [Function.comp_apply, disk_slot]
  rw [if_neg (by omega), if_pos (by omega), Nat.add_sub_cancel]

/-- **Without an indirect block** the calls are the file's sectors. -/
theorem LastClose.direct (h : LastClose st x inode f) (hB : inode.data.blocks ≤ 122) :
    ∃ s', Released st.fs s'
        ((released_slots inode.data.blocks).map (disk_slot st.fs.disk inode.data)) ∧
      release_blocks st.fs inode.data
        = ⟨(released_slots inode.data.blocks).map (disk_slot st.fs.disk inode.data), .ok s'⟩ := by
  have hD : DIRECT_LEN = 122 := rfl
  have hmin : min inode.data.blocks 250 = inode.data.blocks := by omega
  have hlist : (released_slots inode.data.blocks).map (disk_slot st.fs.disk inode.data)
      = (List.range (min inode.data.blocks 122)).map inode.data.direct_block := by
    rw [released_slots, if_neg (by omega), List.append_nil, direct_sectors st.fs.disk]
  have hrel := h.releasable
  rw [hmin, hlist] at hrel
  rw [hlist]
  obtain ⟨s', hrun, hR⟩ := release_all_spec _ st.fs h.ok h.file hrel
  refine ⟨s', hR, ?_⟩
  have hind : release_indirect inode.data inode.data.blocks s' = pure s' := by
    rw [release_indirect, if_neg (by omega)]
  have hdbl : release_doubly inode.data inode.data.blocks s' = pure s' := by
    rw [release_doubly, if_neg (by omega)]
  rw [release_blocks, num_blocks_eq]
  change (release_all ((List.range (min inode.data.blocks 122)).map inode.data.direct_block)
    st.fs >>= _) = _
  rw [bind_of_ok (release_all_eq _ hrun), hind]
  change (⟨_ ++ (release_doubly inode.data inode.data.blocks s').trace,
    (release_doubly inode.data inode.data.blocks s').result⟩ : Frees FileSys) = _
  rw [hdbl]
  exact congrArg (fun l => (⟨l, .ok s'⟩ : Frees FileSys)) (List.append_nil _)

/-- The releases behind the direct blocks that are the file's own: the indirect block and
its entries for the blocks below 250. -/
theorem LastClose.own_entries (h : LastClose st x inode f) (hB : 122 < inode.data.blocks) :
    ∃ s₁ s₂ s₃, Filesys.release_all ((List.range (min inode.data.blocks 122)).map
        inode.data.direct_block) st.fs = .ok s₁ ∧
      disk_read s₁ inode.data.indirect_block = .ok (st.fs.disk inode.data.indirect_block) ∧
      Filesys.free_map_release s₁ inode.data.indirect_block 1 = .ok s₂ ∧
      Filesys.release_all ((List.range (min inode.data.blocks 250 - 122)).map
        (word (st.fs.disk inode.data.indirect_block))) s₂ = .ok s₃ := by
  set d := inode.data with hd
  set l₁ := (List.range (min d.blocks 122)).map d.direct_block with hl₁
  set l₂ := (List.range (min d.blocks 250 - 122)).map (word (st.fs.disk d.indirect_block))
    with hl₂
  have hindirect : disk_slot st.fs.disk d .indirect = d.indirect_block := rfl
  have hlist : (released_slots (min d.blocks 250)).map (disk_slot st.fs.disk d)
      = l₁ ++ ([d.indirect_block] ++ l₂) := by
    have hmin : min (min d.blocks 250) 122 = min d.blocks 122 := by omega
    rw [released_slots, if_pos (by omega), hmin, List.map_append, ← direct_sectors, hl₂,
      indirect_sectors st.fs.disk d (min_le_right _ _), List.map_cons, hindirect,
      List.singleton_append]
  have hrel := h.releasable
  rw [← hd, hlist] at hrel
  obtain ⟨s₁, hrun₁, hR₁⟩ := release_all_spec l₁ st.fs h.ok h.file hrel.left
  have hf₁ : s₁.free_map_file = some f := by rw [hR₁.same.file, h.file]
  have hright := hrel.right h.ok h.file hR₁
  have hused := hright.used d.indirect_block (by simp)
  obtain ⟨s₂, hrun₂, hR₂⟩ := free_map_release_one hR₁.ok hf₁ hused
    (hright.out d.indirect_block (by simp))
  have hf₂ : s₂.free_map_file = some f := by rw [hR₂.same.file, hf₁]
  obtain ⟨s₃, hrun₃, -⟩ := release_all_spec l₂ s₂ hR₂.ok hf₂ (hright.right hR₁.ok hf₁ hR₂)
  refine ⟨s₁, s₂, s₃, hrun₁, ?_, hrun₂, hrun₃⟩
  -- the free map's writes leave the indirect block as it was
  have hdata : ¬ FreeMapData st.fs d.indirect_block := by
    rintro ⟨g, hg, k, hk, he⟩
    obtain rfl : f = g := Option.some.inj (h.file.symm.trans hg)
    exact h.apart .indirect (.data k) hB hk he
  rw [disk_read_eq (hR₁.ok.disk.bits _ hused) hR₁.ok.disk.capacity, hR₁.same.disk _ hdata]

/-- **Behind an indirect block** the calls are the file's sectors and one entry more. -/
theorem LastClose.indirect (h : LastClose st x inode f) (hB : 122 < inode.data.blocks)
    (hB' : inode.data.blocks < 250) : (release_blocks st.fs inode.data).trace
      = (released_slots inode.data.blocks).map (disk_slot st.fs.disk inode.data) ++
        [word (st.fs.disk inode.data.indirect_block) (inode.data.blocks - 122)] := by
  have hD : DIRECT_LEN = 122 := rfl
  obtain ⟨s₁, s₂, s₃, hrun₁, hread, hrun₂, hrun₃⟩ := h.own_entries hB
  set d := inode.data with hd
  rw [min_eq_left hB'.le] at hrun₃
  have hindirect : disk_slot st.fs.disk d .indirect = d.indirect_block := rfl
  have hlist : (released_slots d.blocks).map (disk_slot st.fs.disk d)
      = (List.range (min d.blocks 122)).map d.direct_block ++
        ([d.indirect_block] ++
          (List.range (d.blocks - 122)).map (word (st.fs.disk d.indirect_block))) := by
    rw [released_slots, if_pos hB, List.map_append, ← direct_sectors,
      indirect_sectors st.fs.disk d hB'.le, List.map_cons, hindirect, List.singleton_append]
  have hind : (release_indirect d d.blocks s₁).trace
      = [d.indirect_block] ++
        ((List.range (d.blocks - 122)).map (word (st.fs.disk d.indirect_block)) ++
          [word (st.fs.disk d.indirect_block) (d.blocks - 122)]) := by
    have hsilent : silently (disk_read s₁ d.indirect_block)
        = ⟨[], .ok (st.fs.disk d.indirect_block)⟩ := by rw [silently, hread]
    have hfirst : free_map_release s₁ d.indirect_block = ⟨[d.indirect_block], .ok s₂⟩ := by
      rw [free_map_release, hrun₂]
    have hmin : min (d.blocks - DIRECT_LEN + 1) 128 = d.blocks - 122 + 1 := by omega
    rw [release_indirect, if_pos (by omega), bind_of_ok hsilent, bind_of_ok hfirst, hmin,
      List.range_succ, List.map_append, List.map_singleton, trace_bind_quiet,
      release_all_concat hrun₃]
    · rfl
    · intro s
      rw [if_neg (by omega)]
      rfl
  rw [release_blocks, num_blocks_eq]
  change (release_all ((List.range (min d.blocks 122)).map d.direct_block) st.fs >>= _).trace = _
  rw [bind_of_ok (release_all_eq _ hrun₁)]
  change _ ++ (release_indirect d d.blocks s₁ >>= release_doubly d d.blocks).trace = _
  rw [trace_bind_quiet, hind, hlist, List.append_assoc, List.append_assoc]
  intro s
  rw [release_doubly, if_neg (by omega)]
  rfl

/-- **From block 250 on** the loop over the indirect block leaves its array. -/
theorem LastClose.overrun (h : LastClose st x inode f) (hB : 250 ≤ inode.data.blocks) :
    (release_blocks st.fs inode.data).result = .error .bounds := by
  have hD : DIRECT_LEN = 122 := rfl
  obtain ⟨s₁, s₂, s₃, hrun₁, hread, hrun₂, hrun₃⟩ := h.own_entries (by omega)
  set d := inode.data with hd
  rw [min_eq_right hB] at hrun₃
  have hmin : min (d.blocks - DIRECT_LEN + 1) 128 = 250 - 122 := by omega
  have hind : (release_indirect d d.blocks s₁).result = .error .bounds := by
    rw [release_indirect, if_pos (by omega)]
    simp only [result_bind, silently_result, release_result, release_all_result, hread, ok_bind,
      hrun₂, hmin, hrun₃]
    rw [if_pos (by omega)]
    rfl
  rw [release_blocks, num_blocks_eq]
  change (release_all ((List.range (min d.blocks 122)).map d.direct_block) st.fs >>= _).result = _
  rw [bind_of_ok (release_all_eq _ hrun₁)]
  change (release_indirect d d.blocks s₁ >>= release_doubly d d.blocks).result = _
  rw [result_bind, hind]
  rfl

/-- Every slot of a file of fewer than 250 blocks is released. -/
theorem released_slots_all {n : ℕ} {σ : Slot} (hσ : σ.pos < n) (hn : n < 250) :
    σ ∈ released_slots n := by
  rw [released_slots, List.mem_append]
  cases σ with
  | data k =>
    simp only [Slot.pos] at hσ
    by_cases hk : k < 122
    · exact Or.inl (List.mem_map.mpr ⟨k, List.mem_range.mpr (by omega), rfl⟩)
    · right
      rw [if_pos (by omega)]
      refine List.mem_cons_of_mem _ (List.mem_map.mpr ⟨k - 122, List.mem_range.mpr (by omega), ?_⟩)
      rw [Nat.sub_add_cancel (by omega)]
  | indirect =>
    simp only [Slot.pos] at hσ
    right
    rw [if_pos hσ]
    exact List.mem_cons_self
  | doubly => simp only [Slot.pos] at hσ; omega
  | parent j => simp only [Slot.pos] at hσ; omega

/-- Behind an indirect block the deletion releases something else, something twice, or
leaves the array. -/
theorem LastClose.not_releasesOwn (h : LastClose st x inode f) (hB : 122 < inode.data.blocks) :
    ¬ ReleasesOwn st x inode.data := by
  intro hown
  by_cases hB' : inode.data.blocks < 250
  · have htrace := h.trace_eq.trans (h.indirect hB hB')
    obtain ⟨σ, hσ, he⟩ := hown.own
      (word (st.fs.disk inode.data.indirect_block) (inode.data.blocks - 122)) (by
        rw [htrace]
        exact List.mem_append_right _ (List.mem_singleton_self _))
    -- a sector of the file has been released before
    have hnodup := hown.once
    rw [htrace, List.nodup_append] at hnodup
    refine hnodup.2.2 _ (List.mem_map.mpr ⟨σ, released_slots_all hσ hB', rfl⟩) _
      (List.mem_singleton_self _) he.symm
  · apply hown.bounds
    rw [h.result_eq, h.overrun (Nat.not_lt.mp hB')]
    rfl

/-- **Deletion releases only the file's own sectors** exactly when the file has no indirect
block. -/
theorem close_releases_own_iff (h : LastClose st x inode f) :
    ReleasesOwn st x inode.data ↔ inode.data.blocks ≤ 122 := by
  constructor
  · intro hown
    by_contra hB
    exact h.not_releasesOwn (by omega) hown
  · intro hB
    obtain ⟨s', hR, htrace⟩ := h.direct hB
    have hrelease := h.trace_eq.trans (congrArg Traced.trace htrace)
    have hclear : ∀ y, y ∉ (released_slots inode.data.blocks).map
        (disk_slot st.fs.disk inode.data) → s'.free_map.bits y = st.fs.free_map.bits y := by
      intro y hy
      rw [hR.map, clear_bits_of_not_mem hy]
    refine ⟨?_, ?_, ?_, ?_⟩
    · intro y hy
      rw [hrelease] at hy
      obtain ⟨σ, hσ, rfl⟩ := List.mem_map.mp hy
      exact ⟨σ, mem_released_slots hσ, rfl⟩
    · rw [hrelease]
      refine (nodup_released_slots _).map_on ?_
      intro σ hσ τ hτ he
      exact h.map.map.inj σ τ (mem_released_slots hσ) (mem_released_slots hτ) he
    · rw [h.result_eq, htrace]
      intro hbounds
      cases hbounds
    · intro st' hst'
      rw [h.result_eq, htrace] at hst'
      obtain rfl := Except.ok.inj hst'
      constructor
      · rw [← h.boot]
        refine hclear _ ?_
        intro hmem
        obtain ⟨σ, hσ, he⟩ := List.mem_map.mp hmem
        exact h.map.boot σ (mem_released_slots hσ) he
      · rw [← h.root]
        refine hclear _ ?_
        intro hmem
        obtain ⟨σ, hσ, he⟩ := List.mem_map.mp hmem
        exact h.map.root σ (mem_released_slots hσ) he

end Close

/-- The file on the small disk, removed. -/
def removed_file (length : ℕ) : Inode := { small_file length with removed := true }

/-- The store that has it open. -/
def small_removed (length : ℕ) : Store where
  fs := small_fs
  open_inodes := Function.update (fun _ => none) 3 (some (removed_file length))
  live := [FREE_MAP_SECTOR, ROOT_DIR_SECTOR, 3]

theorem small_last_close {length : ℕ} (hlen : length ≤ 123 * 512) :
    LastClose (small_removed length) 3 (removed_file length) small_free_map_file := by
  have hfile := small_file_ok hlen
  have hB : (small_file length).data.blocks ≤ 123 := by
    simp only [InodeDisk.blocks, bytes_to_sectors, small_file]
    omega
  refine ⟨rfl, rfl, rfl, small_fs_ready.ok, rfl, ?_, ?_, rfl, rfl⟩
  · refine ⟨hfile.map, hfile.max, rfl, hfile.own, hfile.boot, ?_⟩
    intro σ hσ
    change disk_slot small_fs.disk (small_file length).data σ ≠ 1
    rcases small_file_slot length (lt_of_lt_of_le hσ hB) with ⟨-, he⟩ | ⟨k, hk, -, he⟩
    · rw [he]
      omega
    · rw [he]
      split_ifs <;> omega
  · intro σ τ hσ hτ
    exact (hfile.apart _ rfl τ hτ).2 σ hσ

/-- A file of two blocks is deleted cleanly. -/
theorem close_releases_own_two :
    ReleasesOwn (small_removed 600) 3 (removed_file 600).data ↔
      (removed_file 600).data.blocks ≤ 122 :=
  close_releases_own_iff (small_last_close (by norm_num))

/-- **Deleting a file of 123 blocks releases sector 0**: the entry behind the file's last. -/
theorem close_releases_boot : ¬ ∀ (st : Store) (x : ℕ) (inode f : Inode),
    LastClose st x inode f → ReleasesOwn st x inode.data := by
  intro hall
  have hlast := small_last_close (le_refl (123 * 512))
  exact hlast.not_releasesOwn (by decide) (hall _ _ _ _ hlast)

end Pintos.Filesys.Deletion
