/-
Moving the index between the disk and the static arrays.

`add_blocks` reloads the index blocks into the arrays, allocates into the arrays
and writes them back; `inode_create` does the last two. `read_index_spec` says
for which old lengths the reload brings back every slot of the file, and
`write_index_spec` for which new ones the write-back reaches every slot. The two
lists of lengths are where the integer divisions of the source go wrong, so they
are hypotheses here and conditions on a write in `Growth`.

`fill_zeros` looks its sectors up in the same arrays and only ever clears bytes
from the old end of file on.
-/
import Pintos.Filesys.Allocate

set_option autoImplicit false

namespace Pintos.Filesys

open Pintos.Kernel WordImage

/-! ## Reloading -/

/-- The loop over the children reads rows `i .. i + cnt - 1` of the array. -/
theorem read_children_spec : ∀ (cnt i : ℕ) (s : FileSys), DiskOk s → i + cnt ≤ 128 →
    (∀ j, i ≤ j → j < i + cnt → s.doubly_sec_parent j < s.capacity) →
    read_children cnt i s = .ok { s with
      doubly_sec_idx := fun k =>
        if 128 * i ≤ k ∧ k < 128 * (i + cnt) then
          word (s.disk (s.doubly_sec_parent (k / 128))) (k % 128)
        else s.doubly_sec_idx k } := by
  intro cnt
  induction cnt with
  | zero =>
    intro i s _ _ _
    have hnone : (fun k => if 128 * i ≤ k ∧ k < 128 * (i + 0) then
        word (s.disk (s.doubly_sec_parent (k / 128))) (k % 128) else s.doubly_sec_idx k)
        = s.doubly_sec_idx := by
      funext k
      rw [if_neg (by omega)]
    rw [read_children, hnone]
  | succ cnt ih =>
    intro i s hd hle hpar
    set s₁ : FileSys := { s with
      doubly_sec_idx := fun k =>
        if 128 * i ≤ k ∧ k < 128 * i + 128 then
          word (s.disk (s.doubly_sec_parent i)) (k - 128 * i)
        else s.doubly_sec_idx k } with hs₁
    have hrest := ih (i + 1) s₁ ⟨hd.capacity, hd.bits⟩ (by omega)
      (fun j hj hj' => hpar j (by omega) (by omega))
    rw [read_children, if_neg (by omega), disk_read_eq (hpar i le_rfl (by omega)) hd.capacity,
      ok_bind, ← hs₁, hrest, hs₁]
    congr 2
    funext k
    dsimp only
    by_cases hrow : 128 * i ≤ k ∧ k < 128 * i + 128
    · have hdiv : k / 128 = i := by omega
      have hmod : k % 128 = k - 128 * i := by omega
      rw [if_neg (by omega), if_pos hrow, if_pos (by omega), hdiv, hmod]
    · by_cases hlater : 128 * (i + 1) ≤ k ∧ k < 128 * (i + 1 + cnt)
      · rw [if_pos hlater, if_pos (by omega)]
      · rw [if_neg hlater, if_neg hrow, if_neg (by omega)]

/-- The static arrays hold zeros, as they do between calls. -/
structure ArraysClear (s : FileSys) : Prop where
  indirect : s.indirect_sec_idx = fun _ => 0
  parent : s.doubly_sec_parent = fun _ => 0
  doubly : s.doubly_sec_idx = fun _ => 0

/-- The old lengths from which `add_blocks` reloads the whole index: not inside
block 122, and past block 250 only at the end of a full row. -/
structure ReloadOk (old_eof : ℕ) : Prop where
  indirect : ¬ (122 * 512 < old_eof ∧ old_eof < 123 * 512)
  doubly : old_eof ≤ 250 * 512 ∨ (old_eof - 250 * 512) % (128 * 512) = 0

/-- `s'` is `s` with other static arrays. -/
def SameButArrays (s s' : FileSys) : Prop :=
  s' = { s with
    indirect_sec_idx := s'.indirect_sec_idx
    doubly_sec_parent := s'.doubly_sec_parent
    doubly_sec_idx := s'.doubly_sec_idx }

/-- The blocks whose sectors the reload brings into the arrays: the indirect block is read
only past block 122, and of the children only those of rows that end before `old_eof`. -/
def Loaded (old_eof k : ℕ) : Prop :=
  k < 122 ∨ k < 250 ∧ 122 < old_eof / 512 ∨
    250 ≤ k ∧ (k - 250) / 128 < (old_eof / 512 - 250) / 128

/-- Where the reload brings the parents in: not inside block 250. -/
def ParentsLoaded (old_eof : ℕ) : Prop := ¬ (250 * 512 < old_eof ∧ old_eof < 251 * 512)

/-- **The reload** succeeds from every length. It brings in the index sectors unless the
file ends inside block 250, and the sectors of the blocks that are `Loaded`; the other
entries stay as they were. -/
theorem reload_spec {s : FileSys} {d : InodeDisk} (hd : DiskOk s) (hm : MapOk s d d.blocks)
    (hmax : d.blocks ≤ MAX_BLOCKS) :
    ∃ s', read_index s d d.length = .ok s' ∧ SameButArrays s s' ∧
      (ParentsLoaded d.length → ∀ σ : Slot, σ.IsIndex → σ.pos < d.blocks →
        mem_slot s' d σ = disk_slot s.disk d σ) ∧
      (∀ k < d.blocks, Loaded d.length k → mem_slot s' d (.data k) = block s.disk d k) ∧
      ∀ k < d.blocks, ¬ Loaded d.length k →
        mem_slot s' d (.data k) = mem_slot s d (.data k) := by
  have hD : DIRECT_LEN = 122 := rfl
  have hmax' : d.blocks ≤ 16634 := hmax
  have hB : d.blocks = (d.length + 511) / 512 := rfl
  simp only [ParentsLoaded, Loaded]
  set L := d.length with hL
  by_cases h1 : DIRECT_LEN < L / 512
  · have hind : d.indirect_block < s.capacity := hm.lt hd (σ := .indirect) (by
      change 122 < d.blocks
      omega)
    by_cases h2 : DIRECT_LEN + 128 < L / 512
    · have hdbl : d.doubly_indirect_block < s.capacity := hm.lt hd (σ := .doubly) (by
        change 250 < d.blocks
        omega)
      have hsub : L / 512 - DIRECT_LEN - 128 = L / 512 - 250 := by omega
      set q := (L / 512 - 250) / 128 with hq
      set s₁ : FileSys := { s with indirect_sec_idx := word (s.disk d.indirect_block)
                                   doubly_sec_parent := word (s.disk d.doubly_indirect_block) }
        with hs₁
      have hpar : ∀ j, 0 ≤ j → j < 0 + q → s₁.doubly_sec_parent j < s₁.capacity := by
        intro j _ hj
        exact hm.lt hd (σ := .parent j) (by simp only [Slot.pos]; omega)
      have hrun := read_children_spec q 0 s₁ ⟨hd.capacity, hd.bits⟩ (by omega) hpar
      refine ⟨{ s₁ with
        doubly_sec_idx := fun k =>
          if 128 * 0 ≤ k ∧ k < 128 * (0 + q) then
            word (s₁.disk (s₁.doubly_sec_parent (k / 128))) (k % 128)
          else s₁.doubly_sec_idx k }, ?_, rfl, ?_, ?_, ?_⟩
      · rw [read_index, if_pos h1, disk_read_eq hind hd.capacity, ok_bind, pure_eq_ok, ok_bind,
          if_pos h2, disk_read_eq (s := { s with
            indirect_sec_idx := word (s.disk d.indirect_block) }) hdbl hd.capacity, ok_bind, hsub]
        exact hrun
      · intro _ σ hσi hσ
        cases σ with
        | indirect => rfl
        | doubly => rfl
        | parent j => rfl
        | data k => exact absurd hσi id
      · intro k hk hload
        simp only [mem_slot, block, disk_slot]
        by_cases hk1 : k < 122
        · rw [if_pos hk1, if_pos hk1]
        · rw [if_neg hk1, if_neg hk1]
          by_cases hk2 : k < 250
          · rw [if_pos hk2, if_pos hk2]
          · rw [if_neg hk2, if_neg hk2, if_pos (by omega)]
      · intro k hk hload
        simp only [mem_slot]
        rw [if_neg (by omega), if_neg (by omega), if_neg (by omega), if_neg (by omega),
          if_neg (by omega)]
    · -- only the indirect block is there to reload
      refine ⟨{ s with indirect_sec_idx := word (s.disk d.indirect_block) }, ?_, rfl, ?_, ?_, ?_⟩
      · rw [read_index, if_pos h1, disk_read_eq hind hd.capacity, ok_bind, pure_eq_ok, ok_bind,
          if_neg h2]
      · intro hp σ hσi hσ
        cases σ with
        | indirect => rfl
        | doubly => rfl
        | parent j => simp only [Slot.pos] at hσ; omega
        | data k => exact absurd hσi id
      · intro k hk hload
        simp only [mem_slot, block, disk_slot]
        by_cases hk1 : k < 122
        · rw [if_pos hk1, if_pos hk1]
        · rw [if_neg hk1, if_neg hk1, if_pos (by omega), if_pos (by omega)]
      · intro k hk hload
        simp only [mem_slot]
        rw [if_neg (by omega), if_neg (by omega), if_neg (by omega), if_neg (by omega)]
  · refine ⟨s, ?_, rfl, ?_, ?_, fun _ _ _ => rfl⟩
    · rw [read_index, if_neg h1, ok_bind, if_neg (by omega)]
    · intro hp σ hσi hσ
      cases σ with
      | indirect => rfl
      | doubly => rfl
      | parent j => simp only [Slot.pos] at hσ; omega
      | data k => exact absurd hσi id
    · intro k hk hload
      simp only [mem_slot, block, disk_slot]
      rw [if_pos (by omega), if_pos (by omega)]

/-- From a length the reload can handle every block is loaded. -/
theorem ReloadOk.loaded {old_eof k : ℕ} (h : ReloadOk old_eof) (hk : k < (old_eof + 511) / 512) :
    Loaded old_eof k := by
  have h1 := h.indirect
  have h2 := h.doubly
  simp only [Loaded]
  omega

theorem ReloadOk.parents {old_eof : ℕ} (h : ReloadOk old_eof) : ParentsLoaded old_eof := by
  have h2 := h.doubly
  simp only [ParentsLoaded]
  omega

/-! ## Writing back -/

/-- The block map in the inode and the arrays, for `n` blocks: distinct sectors,
all of them marked used. -/
structure MemMapOk (s : FileSys) (d : InodeDisk) (n : ℕ) : Prop where
  inj : ∀ σ τ : Slot, σ.pos < n → τ.pos < n → mem_slot s d σ = mem_slot s d τ → σ = τ
  used : ∀ σ : Slot, σ.pos < n → s.free_map.bits (mem_slot s d σ) = true

theorem MemMapOk.lt {s : FileSys} {d : InodeDisk} {n : ℕ} (h : MemMapOk s d n) (hd : DiskOk s)
    {σ : Slot} (hσ : σ.pos < n) : mem_slot s d σ < s.capacity :=
  hd.bits _ (h.used σ hσ)

/-- The index sectors in the inode and the arrays, for `n` blocks: distinct, and on the
disk. -/
structure IndexOk (s : FileSys) (d : InodeDisk) (n : ℕ) : Prop where
  inj : ∀ σ τ : Slot, σ.IsIndex → τ.IsIndex → σ.pos < n → τ.pos < n →
    mem_slot s d σ = mem_slot s d τ → σ = τ
  lt : ∀ σ : Slot, σ.IsIndex → σ.pos < n → mem_slot s d σ < s.capacity

theorem MemMapOk.index {s : FileSys} {d : InodeDisk} {n : ℕ} (h : MemMapOk s d n)
    (hd : DiskOk s) : IndexOk s d n where
  inj σ τ _ _ := h.inj σ τ
  lt _ _ hσ := h.lt hd hσ

/-- The loop over the children writes rows `i .. i + cnt - 1`. -/
theorem write_children_spec : ∀ (cnt i : ℕ) (s : FileSys), DiskOk s → i + cnt ≤ 128 →
    (∀ j, i ≤ j → j < i + cnt → s.doubly_sec_parent j < s.capacity) →
    (∀ j k, i ≤ j → j < i + cnt → i ≤ k → k < i + cnt →
      s.doubly_sec_parent j = s.doubly_sec_parent k → j = k) →
    ∃ disk', write_children cnt i s = .ok { s with disk := disk' } ∧
      (∀ j, i ≤ j → j < i + cnt →
        disk' (s.doubly_sec_parent j) = ofWords (row s.doubly_sec_idx j)) ∧
      ∀ y, (∀ j, i ≤ j → j < i + cnt → y ≠ s.doubly_sec_parent j) → disk' y = s.disk y := by
  intro cnt
  induction cnt with
  | zero =>
    intro i s _ _ _ _
    exact ⟨s.disk, rfl, fun j _ _ => by omega, fun _ _ => rfl⟩
  | succ cnt ih =>
    intro i s hd hle hlt hinj
    set s₁ : FileSys := { s with
      disk := Function.update s.disk (s.doubly_sec_parent i) (ofWords (row s.doubly_sec_idx i)) }
      with hs₁
    obtain ⟨disk', hrun, hrows, hframe⟩ := ih (i + 1) s₁ ⟨hd.capacity, hd.bits⟩ (by omega)
      (fun j hj hj' => hlt j (by omega) (by omega))
      (fun j k hj hj' hk hk' => hinj j k (by omega) (by omega) (by omega) (by omega))
    refine ⟨disk', ?_, ?_, ?_⟩
    · rw [write_children, if_neg (by omega), disk_write_eq _ (hlt i le_rfl (by omega)) hd.capacity,
        ok_bind]
      exact hrun
    · intro j hj hj'
      by_cases hji : j = i
      · -- row `i` is written first and no later row shares its sector
        subst hji
        rw [hframe _ ?_, hs₁]
        · exact Function.update_self _ _ _
        · intro k hk hk' he
          have := hinj j k le_rfl (by omega) (by omega) (by omega) he
          omega
      · exact hrows j (by omega) (by omega)
    · intro y hy
      rw [hframe y (fun j hj hj' => hy j (by omega) (by omega))]
      exact Function.update_of_ne (hy i le_rfl (by omega)) _ _

/-- The numbers of blocks for which the write-back, called with `n`, reaches the
first `m` of `cnt` allocated blocks. -/
structure FlushOk (n m cnt : ℕ) : Prop where
  le : n ≤ cnt
  last : m ≤ n + 1
  bound : m ≤ cnt
  max : cnt ≤ MAX_BLOCKS
  indirect : 122 < m → 122 < n
  doubly : 250 < m → 250 < n
  child : 250 < n → 250 + 128 * ((n - 250) / 128) < cnt

/-- What the write-back leaves in the index sectors. -/
structure Flushed (s : FileSys) (disk' : ℕ → Sector) (d : InodeDisk) (n : ℕ) : Prop where
  indirect : 122 < n → disk' d.indirect_block = ofWords s.indirect_sec_idx
  doubly : 250 < n → disk' d.doubly_indirect_block = ofWords s.doubly_sec_parent
  child : 250 < n → ∀ j ≤ (n - 250) / 128,
    disk' (s.doubly_sec_parent j) = ofWords (row s.doubly_sec_idx j)

section WriteBack

variable {s : FileSys} {d : InodeDisk} {n m cnt : ℕ}

/-- The part of the write-back below the doubly indirect block. -/
theorem write_doubly_spec (hd : DiskOk s) (hm : IndexOk s d cnt) (hmax : cnt ≤ MAX_BLOCKS)
    (hchild : 250 + 128 * ((n - 250) / 128) < cnt) :
    ∃ disk', (do
        let s ← disk_write s d.doubly_indirect_block (ofWords s.doubly_sec_parent)
        let s ← disk_write s (s.doubly_sec_parent 0) (ofWords (row s.doubly_sec_idx 0))
        write_children ((n - 250) / 128) 1 s) = .ok { s with disk := disk' } ∧
      disk' d.doubly_indirect_block = ofWords s.doubly_sec_parent ∧
      (∀ j ≤ (n - 250) / 128,
        disk' (s.doubly_sec_parent j) = ofWords (row s.doubly_sec_idx j)) ∧
      ∀ y, y ≠ d.doubly_indirect_block → (∀ j ≤ (n - 250) / 128, y ≠ s.doubly_sec_parent j) →
        disk' y = s.disk y := by
  have hmax' : cnt ≤ 16634 := hmax
  have hcap := hd.capacity
  have hpos : ∀ j ≤ (n - 250) / 128, (Slot.parent j).pos < cnt := by
    intro j hj
    simp only [Slot.pos]
    omega
  have hdpos : Slot.doubly.pos < cnt := by
    simp only [Slot.pos]
    omega
  have hinj : ∀ j k, j ≤ (n - 250) / 128 → k ≤ (n - 250) / 128 →
      s.doubly_sec_parent j = s.doubly_sec_parent k → j = k := by
    intro j k hj hk he
    have := hm.inj (.parent j) (.parent k) trivial trivial (hpos j hj) (hpos k hk) he
    injection this
  have hne : ∀ j ≤ (n - 250) / 128, d.doubly_indirect_block ≠ s.doubly_sec_parent j := by
    intro j hj he
    have := hm.inj .doubly (.parent j) trivial trivial hdpos (hpos j hj) he
    cases this
  have hdlt : d.doubly_indirect_block < s.capacity := hm.lt .doubly trivial hdpos
  have hplt : s.doubly_sec_parent 0 < s.capacity := hm.lt (.parent 0) trivial (hpos 0 (by omega))
  set disk₁ := Function.update s.disk d.doubly_indirect_block (ofWords s.doubly_sec_parent)
    with hdisk₁
  set disk₂ := Function.update disk₁ (s.doubly_sec_parent 0) (ofWords (row s.doubly_sec_idx 0))
    with hdisk₂
  obtain ⟨disk', hrun, hrows, hframe⟩ := write_children_spec ((n - 250) / 128) 1
    { s with disk := disk₂ } ⟨hcap, hd.bits⟩ (by omega)
    (fun j _ hj => hm.lt (.parent j) trivial (hpos j (by omega)))
    (fun j k _ hj _ hk he => hinj j k (by omega) (by omega) he)
  dsimp only at hrows hframe
  refine ⟨disk', ?_, ?_, ?_, ?_⟩
  · rw [disk_write_eq _ hdlt hcap, ok_bind,
      disk_write_eq (s := { s with disk := disk₁ }) _ hplt hcap, ok_bind]
    exact hrun
  · rw [hframe _ (fun j _ hj => hne j (by omega)), hdisk₂,
      Function.update_of_ne (hne 0 (by omega)), hdisk₁, Function.update_self]
  · intro j hj
    by_cases hj0 : j = 0
    · subst hj0
      rw [hframe _ ?_, hdisk₂, Function.update_self]
      intro k hk hk' he
      have := hinj 0 k (by omega) (by omega) he
      omega
    · exact hrows j (by omega) (by omega)
  · intro y hy hyp
    rw [hframe y (fun j _ hj => hyp j (by omega)), hdisk₂,
      Function.update_of_ne (hyp 0 (by omega)), hdisk₁, Function.update_of_ne hy]

/-- The write-back stores the arrays in the index sectors and touches nothing
else. -/
theorem write_index_sectors (hd : DiskOk s) (hm : IndexOk s d cnt) (hf : FlushOk n m cnt) :
    ∃ disk', write_index s d n = .ok { s with disk := disk' } ∧ Flushed s disk' d n ∧
      ∀ y, (∀ σ : Slot, σ.IsIndex → σ.pos < cnt → y ≠ mem_slot s d σ) → disk' y = s.disk y := by
  have hD : DIRECT_LEN = 122 := rfl
  have hle := hf.le
  have hcap := hd.capacity
  by_cases h1 : DIRECT_LEN < n
  · have hipos : Slot.indirect.pos < cnt := by
      simp only [Slot.pos]
      omega
    have hind : d.indirect_block < s.capacity := hm.lt .indirect trivial hipos
    set s₁ : FileSys := { s with
      disk := Function.update s.disk d.indirect_block (ofWords s.indirect_sec_idx) } with hs₁
    by_cases h2 : DIRECT_LEN + 128 < n
    · have hchild := hf.child (by omega)
      obtain ⟨disk', hrun, hdbl, hrows, hframe⟩ := write_doubly_spec (s := s₁)
        ⟨hcap, hd.bits⟩ ⟨hm.inj, hm.lt⟩ hf.max hchild
      have hsub : n - DIRECT_LEN - 128 = n - 250 := by omega
      -- the indirect block is written first and is none of the later ones
      have hneD : d.indirect_block ≠ d.doubly_indirect_block := by
        intro he
        have := hm.inj .indirect .doubly trivial trivial hipos (by simp only [Slot.pos]; omega) he
        cases this
      have hneP : ∀ j ≤ (n - 250) / 128, d.indirect_block ≠ s₁.doubly_sec_parent j := by
        intro j hj he
        have := hm.inj .indirect (.parent j) trivial trivial hipos
          (by simp only [Slot.pos]; omega) he
        cases this
      refine ⟨disk', ?_, ⟨fun _ => ?_, fun _ => hdbl, fun _ => hrows⟩, ?_⟩
      · rw [write_index, if_pos h1, disk_write_eq _ hind hcap, ok_bind, if_pos h2, hsub]
        exact hrun
      · rw [hframe _ hneD hneP, hs₁]
        exact Function.update_self _ _ _
      · intro y hy
        rw [hframe y (hy .doubly trivial (by simp only [Slot.pos]; omega))
          (fun j hj => hy (.parent j) trivial (by simp only [Slot.pos]; omega)), hs₁]
        exact Function.update_of_ne (hy .indirect trivial hipos) _ _
    · refine ⟨s₁.disk, ?_, ⟨fun _ => ?_, fun _ => by omega, fun _ => by omega⟩, ?_⟩
      · rw [write_index, if_pos h1, disk_write_eq _ hind hcap, ok_bind, if_neg h2]
      · exact Function.update_self _ _ _
      · intro y hy
        exact Function.update_of_ne (hy .indirect trivial hipos) _ _
  · refine ⟨s.disk, ?_, ⟨fun _ => by omega, fun _ => by omega, fun _ => by omega⟩,
      fun _ _ => rfl⟩
    rw [write_index, if_neg h1, ok_bind, if_neg (by omega)]

/-- Slots are read back from the written index sectors as the arrays had them. -/
theorem Flushed.slot {disk' : ℕ → Sector} (h : Flushed s disk' d n)
    (hfit : ∀ τ : Slot, τ.pos < m → mem_slot s d τ < 2 ^ 32) (hf : FlushOk n m cnt) {σ : Slot}
    (hσ : σ.pos < m) : disk_slot disk' d σ = mem_slot s d σ := by
  have hmax : cnt ≤ 16634 := hf.max
  have hb := hf.bound
  have hlast := hf.last
  have hword : ∀ j, 250 + 128 * j < m →
      word (disk' d.doubly_indirect_block) j = s.doubly_sec_parent j := by
    intro j hj
    rw [h.doubly (hf.doubly (by omega))]
    exact word_ofWords _ _ (hfit (.parent j) hj)
  cases σ with
  | indirect => rfl
  | doubly => rfl
  | parent j => exact hword j hσ
  | data k =>
    have hfitk := hfit (.data k) hσ
    simp only [Slot.pos] at hσ
    simp only [disk_slot, mem_slot] at hfitk ⊢
    by_cases hk1 : k < 122
    · rw [if_pos hk1, if_pos hk1]
    · rw [if_neg hk1] at hfitk
      rw [if_neg hk1, if_neg hk1]
      by_cases hk2 : k < 250
      · rw [if_pos hk2] at hfitk
        rw [if_pos hk2, if_pos hk2, h.indirect (hf.indirect (by omega)), word_ofWords _ _ hfitk]
      · rw [if_neg hk2] at hfitk
        have hn := hf.doubly (by omega)
        have hidx : row s.doubly_sec_idx ((k - 250) / 128) ((k - 250) % 128)
            = s.doubly_sec_idx (k - 250) := by
          rw [row, Nat.div_add_mod]
        rw [if_neg hk2, if_neg hk2, hword _ (by omega), h.child hn _ (by omega),
          word_ofWords _ _ (by rw [hidx]; exact hfitk), hidx]

/-- The write-back of arrays that may hold lost entries, as long as the index sectors are
right: the disk agrees with the arrays on every slot of the first `m` blocks. -/
theorem write_index_store (hd : DiskOk s) (hm : IndexOk s d cnt) (hf : FlushOk n m cnt)
    (hlt : ∀ σ : Slot, σ.pos < m → mem_slot s d σ < s.capacity) :
    ∃ disk', write_index s d n = .ok { s with disk := disk' } ∧
      (∀ y, (∀ σ : Slot, σ.IsIndex → σ.pos < cnt → y ≠ mem_slot s d σ) → disk' y = s.disk y) ∧
      ∀ σ : Slot, σ.pos < m → disk_slot disk' d σ = mem_slot s d σ := by
  obtain ⟨disk', hrun, hfl, hframe⟩ := write_index_sectors hd hm hf
  have hfit : ∀ τ : Slot, τ.pos < m → mem_slot s d τ < 2 ^ 32 := by
    intro τ hτ
    have := hlt τ hτ
    have := hd.capacity
    omega
  exact ⟨disk', hrun, hframe, fun σ hσ => hfl.slot hfit hf hσ⟩

/-- **The write-back** makes the disk agree with the arrays on every slot of the
first `m` blocks, and writes index sectors only. -/
theorem write_index_spec (hd : DiskOk s) (hm : MemMapOk s d cnt) (hf : FlushOk n m cnt) :
    ∃ disk', write_index s d n = .ok { s with disk := disk' } ∧
      (∀ y, (∀ σ : Slot, σ.IsIndex → σ.pos < cnt → y ≠ mem_slot s d σ) → disk' y = s.disk y) ∧
      ∀ σ : Slot, σ.pos < m → disk_slot disk' d σ = mem_slot s d σ :=
  write_index_store hd (hm.index hd) hf (fun _ hσ => hm.lt hd (lt_of_lt_of_le hσ hf.bound))

end WriteBack

/-! ## `fill_zeros` -/

/-- `array_sector` is the lookup of a data slot in memory. -/
theorem array_sector_eq (s : FileSys) (d : InodeDisk) {k : ℕ} (hk : k < MAX_BLOCKS) :
    array_sector s d k = .ok (mem_slot s d (.data k)) := by
  have hD : DIRECT_LEN = 122 := rfl
  have hk' : k < 16634 := hk
  have hsub : k - DIRECT_LEN - 128 = k - 250 := by omega
  simp only [array_sector, mem_slot, hsub]
  by_cases h1 : k < 122
  · rw [if_pos h1, if_pos h1]
  · rw [if_neg h1, if_neg h1]
    by_cases h2 : k < 250
    · rw [if_pos h2, if_pos h2]
    · rw [if_neg h2, if_neg h2, if_pos (by omega)]

/-- Clearing a sector from byte `ofs` on. -/
theorem zero_tail_spec {s : FileSys} (hd : DiskOk s) {x : ℕ} (ofs : ℕ) (hx : x < s.capacity) :
    ∃ disk', zero_tail s x ofs = .ok { s with disk := disk' } ∧
      (∀ y j, y ≠ x ∨ j < ofs → disk' y j = s.disk y j) ∧ ∀ j, ofs ≤ j → disk' x j = 0 := by
  by_cases h0 : ofs = 0
  · refine ⟨Function.update s.disk x (fun _ => 0),
      by rw [zero_tail, if_pos h0, disk_write_eq _ hx hd.capacity], ?_, ?_⟩
    · rintro y j (hy | hj)
      · rw [Function.update_of_ne hy]
      · omega
    · intro j _
      rw [Function.update_self]
  · refine ⟨Function.update s.disk x (fun j => if ofs ≤ j then 0 else s.disk x j),
      by rw [zero_tail, if_neg h0, disk_read_eq hx hd.capacity, ok_bind,
        disk_write_eq _ hx hd.capacity], ?_, ?_⟩
    · rintro y j (hy | hj)
      · rw [Function.update_of_ne hy]
      · by_cases hy : y = x
        · rw [hy, Function.update_self, if_neg (by omega)]
        · rw [Function.update_of_ne hy]
    · intro j hj
      rw [Function.update_self, if_pos hj]

/-- **`fill_zeros`** from `old_eof` returns, and a byte it changes lies in one of
the sectors the arrays give for the blocks below `n`, at or past `old_eof`. If no two of
these blocks have the same sector, every byte from `old_eof` to the end of the last block it
comes to is zero. -/
theorem fill_zeros_loop_spec {d : InodeDisk} {n : ℕ} (hn : n ≤ MAX_BLOCKS) :
    ∀ (fuel old_eof size : ℕ) (s : FileSys), size ≤ fuel → DiskOk s →
      (0 < size → (old_eof + size - 1) / 512 < n) →
      (∀ k, old_eof / 512 ≤ k → k < n → mem_slot s d (.data k) < s.capacity) →
      ∃ disk', fill_zeros_loop d fuel old_eof size s = .ok { s with disk := disk' } ∧
        (∀ y j, (∀ k, old_eof / 512 ≤ k → k < n → y = mem_slot s d (.data k) →
          512 * k + j < old_eof) → disk' y j = s.disk y j) ∧
        ((∀ k l, old_eof / 512 ≤ k → k < l → l < n →
          mem_slot s d (.data k) ≠ mem_slot s d (.data l)) →
          ∀ p, old_eof ≤ p → 0 < size → p / 512 ≤ (old_eof + size - 1) / 512 →
            disk' (mem_slot s d (.data (p / 512))) (p % 512) = 0) := by
  intro fuel
  induction fuel with
  | zero =>
    intro old_eof size s hf _ _ _
    exact ⟨s.disk, rfl, fun _ _ _ => rfl, fun _ p _ hs _ => by omega⟩
  | succ fuel ih =>
    intro old_eof size s hf hd hlast hlt
    by_cases hs : size = 0
    · exact ⟨s.disk, by rw [fill_zeros_loop, if_pos hs], fun _ _ _ => rfl,
        fun _ p _ hs' _ => by omega⟩
    · have hk : old_eof / 512 < n := by
        have := hlast (by omega)
        omega
      obtain ⟨disk₁, hz, hsame, hclear⟩ := zero_tail_spec hd (old_eof % 512)
        (hlt (old_eof / 512) le_rfl hk)
      have hnext : (old_eof + (512 - old_eof % 512)) / 512 = old_eof / 512 + 1 := by omega
      obtain ⟨disk₂, hrun, hsame₂, hclear₂⟩ := ih (old_eof + (512 - old_eof % 512))
        (size - (512 - old_eof % 512)) { s with disk := disk₁ } (by omega) ⟨hd.capacity, hd.bits⟩
        (fun h => by have := hlast (by omega); omega) (fun k hk' hkn => hlt k (by omega) hkn)
      refine ⟨disk₂, ?_, ?_, ?_⟩
      · rw [fill_zeros_loop, if_neg hs, array_sector_eq _ _ (by omega), ok_bind]
        simp only [hz, ok_bind]
        exact hrun
      · intro y j hy
        rw [hsame₂ y j ?_]
        · apply hsame y j
          by_cases he : y = mem_slot s d (.data (old_eof / 512))
          · right
            have := hy _ le_rfl hk he
            omega
          · exact Or.inl he
        · intro k hk' hkn he
          have := hy k (by omega) hkn he
          omega
      · intro hinj p hp _ hpl
        by_cases hfirst : p / 512 = old_eof / 512
        · -- cleared in this round, and no later block has the sector
          rw [hsame₂ _ _ ?_, hfirst]
          · exact hclear _ (by omega)
          · intro k hk' hkn he
            exact absurd he (by rw [hfirst]; exact hinj _ k le_rfl (by omega) hkn)
        · refine hclear₂ (fun k l hk' hkl hln => hinj k l (by omega) hkl hln) p (by omega)
            (by omega) ?_
          have hend : old_eof + (512 - old_eof % 512) + (size - (512 - old_eof % 512))
              = old_eof + size := by omega
          rw [hend]
          exact hpl

end Pintos.Filesys
