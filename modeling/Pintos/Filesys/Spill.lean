/-
`inode_create` on a disk that may run out of sectors.

`Create` and `Placement` follow the function while there are sectors for all of its blocks.
Here nothing is known about their number. A slot of the new index then holds a sector that was
free, or what the cleared arrays hold, which is 0, or `BITMAP_ERROR`; so apart from sector 0
nothing in use is written (`inode_create_frame`).

`BITMAP_ERROR` is no sector of the disk, and the function stops at it. This decides when it
returns: if the sectors run out between two rounds of `free_map_allocate_index`, not inside
one (`inode_create_returns_iff`).
-/
import Pintos.Filesys.Shortage
import Pintos.Filesys.Placement
import Pintos.Filesys.Ownership

set_option autoImplicit false

namespace Pintos.Filesys

open Pintos.Kernel WordImage

/-! ## Slots -/

/-- What a call leaves that fills slots as long as it finds sectors. `base` are the marks of a
state before it. -/
structure Drew (base : ℕ → Bool) (s s' : FileSys) (d d' : InodeDisk) : Prop where
  ok : FsOk s'
  file : s'.free_map_file = s.free_map_file
  capacity : s'.capacity = s.capacity
  bits : ∀ i, s.free_map.bits i = true → s'.free_map.bits i = true
  disk : ∀ y, ¬ FreeMapData s y → s'.disk y = s.disk y
  slots : ∀ σ, mem_slot s' d' σ = mem_slot s d σ ∨ base (mem_slot s' d' σ) = false

section Draw

variable {base : ℕ → Bool} {s t s' : FileSys} {d d' : InodeDisk} {x i : ℕ}

theorem Drew.refl (hok : FsOk s) : Drew base s s d d :=
  ⟨hok, rfl, rfl, fun _ => id, fun _ _ => rfl, fun _ => Or.inl rfl⟩

theorem Drew.freeMapData (h : Drew base s s' d d') (hok : FsOk s) {y : ℕ} :
    FreeMapData s' y ↔ FreeMapData s y := by
  have hslot : ∀ f, s.free_map_file = some f → ∀ k < f.data.blocks,
      block s'.disk f.data k = block s.disk f.data k := by
    intro f hf k hk
    refine disk_slot_congr (σ := .data k) (fun τ hτ hpos => h.disk _ ?_) hk
    exact not_freeMapData_index hf (hok.file f hf) τ hτ hpos
  constructor
  · rintro ⟨f, hf, k, hk, rfl⟩
    rw [h.file] at hf
    exact ⟨f, hf, k, hk, hslot f hf k hk⟩
  · rintro ⟨f, hf, k, hk, rfl⟩
    exact ⟨f, by rw [h.file, hf], k, hk, (hslot f hf k hk).symm⟩

theorem Drew.trans {s₁ s₂ s₃ : FileSys} {d₁ d₂ d₃ : InodeDisk} (hok : FsOk s₁)
    (h : Drew base s₁ s₂ d₁ d₂) (h' : Drew base s₂ s₃ d₂ d₃) : Drew base s₁ s₃ d₁ d₃ := by
  refine ⟨h'.ok, h'.file.trans h.file, h'.capacity.trans h.capacity,
    fun i hi => h'.bits i (h.bits i hi), fun y hy => ?_, fun σ => ?_⟩
  · rw [h'.disk y (by rwa [h.freeMapData hok]), h.disk y hy]
  · rcases h'.slots σ with hσ | hσ
    · rw [hσ]
      exact h.slots σ
    · exact Or.inr hσ

/-- No mark is outside the disk. -/
theorem bits_error (hok : FsOk s) : s.free_map.bits BITMAP_ERROR = false := by
  by_contra hmark
  have hlt := hok.disk.bits _ (by simpa using hmark)
  have hcap := hok.disk.capacity
  simp only [BITMAP_ERROR] at hlt
  omega

/-- A search for a sector: what it returns is not marked. -/
theorem take_sector_draws (hok : FsOk s) (hbase : ∀ i, base i = true → s.free_map.bits i = true) :
    ∃ x t, take_sector s = .ok (some x, t) ∧ base x = false ∧ ∀ d, Drew base s t d d := by
  rcases take_sector_cases hok with ⟨x, t, hrun, htook⟩ | hrun
  · refine ⟨x, t, hrun, ?_, fun d => ⟨htook.fsOk hok, htook.same.file, htook.capacity, ?_,
      htook.same.disk, fun σ => Or.inl (by rw [htook.mem_slot])⟩⟩
    · by_contra hx
      have hmark := hbase x (by simpa using hx)
      rw [htook.free] at hmark
      cases hmark
    · exact fun i hi => htook.bits.mpr (Or.inl hi)
  · refine ⟨BITMAP_ERROR, s, hrun, ?_, fun d => Drew.refl hok⟩
    by_contra hx
    have hmark := hbase _ (by simpa using hx)
    rw [bits_error hok] at hmark
    cases hmark

/-- Storing what was found in slot `σ`. -/
theorem Drew.store (hok : FsOk s) (hx : base x = false) (σ : Slot)
    (hs : s'.disk = s.disk ∧ s'.free_map = s.free_map ∧ s'.free_map_file = s.free_map_file)
    (hmem : mem_slot s' d' = Function.update (mem_slot s d) σ x) : Drew base s s' d d' := by
  obtain ⟨hdisk, hmap, hfile⟩ := hs
  refine ⟨hok.of_arrays hdisk hmap hfile, hfile, ?_, ?_, fun y _ => by rw [hdisk], fun τ => ?_⟩
  · unfold FileSys.capacity
    rw [hmap]
  · intro i hi
    rw [hmap]
    exact hi
  · rw [hmem]
    by_cases hτ : τ = σ
    · rw [hτ, Function.update_self]
      exact Or.inr hx
    · rw [Function.update_of_ne hτ]
      exact Or.inl rfl

/-- The second part of a round: one more search, and its result in slot `σ`. -/
theorem Drew.take_store (hok : FsOk s) (hbase : ∀ i, base i = true → s.free_map.bits i = true)
    (σ : Slot) (put : FileSys → ℕ → FileSys)
    (hput : ∀ t x, (put t x).disk = t.disk ∧ (put t x).free_map = t.free_map ∧
      (put t x).free_map_file = t.free_map_file)
    (hmem : ∀ t x, mem_slot (put t x) d = Function.update (mem_slot t d) σ x) :
    ∃ x t, take_sector s = .ok (some x, t) ∧ Drew base s (put t x) d d := by
  obtain ⟨x, t, hrun, hx, hdrew⟩ := take_sector_draws hok hbase
  exact ⟨x, t, hrun, (hdrew d).trans hok (Drew.store (hdrew d).ok hx σ (hput t x) (hmem t x))⟩

end Draw

section Rounds

variable {base : ℕ → Bool} {s s' : FileSys} {d d' : InodeDisk} {x i : ℕ} {b : Bool}

/-- One round, with its first result `x` in hand. -/
theorem assign_index_draws (hok : FsOk s) (hbase : ∀ i, base i = true → s.free_map.bits i = true)
    (hx : base x = false) (h : assign_index s d i x = .ok (b, d', s')) :
    b = true ∧ Drew base s s' d d' := by
  have hD : DIRECT_LEN = 122 := rfl
  unfold assign_index at h
  by_cases h1 : i < DIRECT_LEN
  · rw [if_pos h1] at h
    obtain ⟨hb, h⟩ := Prod.mk.inj (Except.ok.inj h)
    obtain ⟨rfl, rfl⟩ := Prod.mk.inj h
    exact ⟨hb.symm, Drew.store hok hx (.data i) ⟨rfl, rfl, rfl⟩ (mem_slot_direct _ _ _ (by omega))⟩
  rw [if_neg h1] at h
  by_cases h2 : i = DIRECT_LEN
  · -- the indirect block, then its first entry
    have hfirst : Drew base s s d { d with indirect_block := x } :=
      Drew.store hok hx .indirect ⟨rfl, rfl, rfl⟩ (mem_slot_indirect_block _ _ _)
    obtain ⟨y, u, hrun, hlast⟩ := @Drew.take_store base s { d with indirect_block := x } hok hbase
      (.data 122) (fun t x => { t with
        indirect_sec_idx := Function.update t.indirect_sec_idx (122 - 122) x })
      (fun _ _ => ⟨rfl, rfl, rfl⟩) (fun t x => mem_slot_indirect _ _ _ le_rfl (by norm_num))
    rw [if_pos h2] at h
    dsimp only at h
    rw [hrun, ok_bind] at h
    obtain ⟨hb, h⟩ := Prod.mk.inj (Except.ok.inj h)
    obtain ⟨rfl, rfl⟩ := Prod.mk.inj h
    exact ⟨hb.symm, hfirst.trans hok hlast⟩
  rw [if_neg h2] at h
  by_cases h3 : i < DIRECT_LEN + 128
  · rw [if_pos h3] at h
    obtain ⟨hb, h⟩ := Prod.mk.inj (Except.ok.inj h)
    obtain ⟨rfl, rfl⟩ := Prod.mk.inj h
    exact ⟨hb.symm, Drew.store hok hx (.data i) ⟨rfl, rfl, rfl⟩
      (mem_slot_indirect _ _ _ (by omega) (by omega))⟩
  rw [if_neg h3] at h
  by_cases h4 : i = DIRECT_LEN + 128
  · -- the doubly indirect block, its first child, and the child's first entry
    have hfirst : Drew base s s d { d with doubly_indirect_block := x } :=
      Drew.store hok hx .doubly ⟨rfl, rfl, rfl⟩ (mem_slot_doubly_block _ _ _)
    obtain ⟨y, u, hrun, hmid⟩ := @Drew.take_store base s { d with doubly_indirect_block := x } hok
      hbase (.parent 0) (fun t x => { t with
        doubly_sec_parent := Function.update t.doubly_sec_parent 0 x })
      (fun _ _ => ⟨rfl, rfl, rfl⟩) (fun t x => mem_slot_parent _ _ _ _)
    obtain ⟨z, v, hrun', hlast⟩ := @Drew.take_store base _ { d with doubly_indirect_block := x }
      hmid.ok (fun i hi => hmid.bits i (hbase i hi)) (.data 250) (fun t x => { t with
        doubly_sec_idx := Function.update t.doubly_sec_idx (250 - 250) x })
      (fun _ _ => ⟨rfl, rfl, rfl⟩) (fun t x => mem_slot_doubly _ _ _ le_rfl)
    rw [if_pos h4] at h
    dsimp only at h
    rw [hrun, ok_bind] at h
    dsimp only at h
    rw [hrun', ok_bind] at h
    obtain ⟨hb, h⟩ := Prod.mk.inj (Except.ok.inj h)
    obtain ⟨rfl, rfl⟩ := Prod.mk.inj h
    exact ⟨hb.symm, hfirst.trans hok (hmid.trans hok hlast)⟩
  rw [if_neg h4] at h
  have hsub : i - DIRECT_LEN - 128 = i - 250 := by omega
  dsimp only at h
  rw [hsub] at h
  by_cases hrow : 128 ≤ (i - 250) / 128
  · rw [if_pos hrow] at h
    cases h
  rw [if_neg hrow] at h
  by_cases h5 : (i - 250) % 128 = 0
  · -- a new child, then its first entry
    have hfirst : Drew base s { s with
        doubly_sec_parent := Function.update s.doubly_sec_parent ((i - 250) / 128) x } d d :=
      Drew.store hok hx (.parent ((i - 250) / 128)) ⟨rfl, rfl, rfl⟩ (mem_slot_parent _ _ _ _)
    obtain ⟨y, u, hrun, hlast⟩ := @Drew.take_store base _ d hfirst.ok hbase (.data i)
      (fun t x => { t with doubly_sec_idx := Function.update t.doubly_sec_idx (i - 250) x })
      (fun _ _ => ⟨rfl, rfl, rfl⟩) (fun t x => mem_slot_doubly _ _ _ (by omega))
    rw [if_pos h5, hrun, ok_bind] at h
    obtain ⟨hb, h⟩ := Prod.mk.inj (Except.ok.inj h)
    obtain ⟨rfl, rfl⟩ := Prod.mk.inj h
    exact ⟨hb.symm, hfirst.trans hok hlast⟩
  · rw [if_neg h5] at h
    obtain ⟨hb, h⟩ := Prod.mk.inj (Except.ok.inj h)
    obtain ⟨rfl, rfl⟩ := Prod.mk.inj h
    exact ⟨hb.symm, Drew.store hok hx (.data i) ⟨rfl, rfl, rfl⟩ (mem_slot_doubly _ _ _ (by omega))⟩

/-- **`free_map_allocate_index`**, whatever it finds. -/
theorem allocate_draws : ∀ (cnt i : ℕ) (s : FileSys) (d : InodeDisk), FsOk s →
    (∀ i, base i = true → s.free_map.bits i = true) →
    ∀ {b : Bool} {d' : InodeDisk} {s' : FileSys},
      free_map_allocate_index cnt i s d = .ok (b, d', s') → b = true ∧ Drew base s s' d d' := by
  intro cnt
  induction cnt with
  | zero =>
    intro i s d hok _ b d' s' h
    obtain ⟨hb, h⟩ := Prod.mk.inj (Except.ok.inj h)
    obtain ⟨rfl, rfl⟩ := Prod.mk.inj h
    exact ⟨hb.symm, Drew.refl hok⟩
  | succ cnt ih =>
    intro i s d hok hbase b d' s' h
    obtain ⟨x, t, hrun, hx, hdrew⟩ := take_sector_draws hok hbase
    have hbase_t : ∀ i, base i = true → t.free_map.bits i = true := fun i hi =>
      (hdrew d).bits i (hbase i hi)
    rw [free_map_allocate_index, hrun, ok_bind] at h
    dsimp only at h
    by_cases herror : x = BITMAP_ERROR
    · rw [if_pos herror] at h
      obtain ⟨hb, hrest⟩ := ih (i + 1) t d (hdrew d).ok hbase_t h
      exact ⟨hb, (hdrew d).trans hok hrest⟩
    · rw [if_neg herror] at h
      obtain ⟨⟨b₁, d₁, s₁⟩, hround, h⟩ := bind_eq_ok h
      obtain ⟨rfl, hstored⟩ := assign_index_draws (hdrew d).ok hbase_t hx hround
      obtain ⟨hb, hrest⟩ := ih (i + 1) s₁ d₁ hstored.ok
        (fun i hi => hstored.bits i (hbase_t i hi)) h
      exact ⟨hb, (hdrew d).trans hok (hstored.trans (hdrew d).ok hrest)⟩

/-- A call for a block takes a sector when there is one. -/
theorem allocate_takes {cnt : ℕ} (hok : FsOk s) (hfree : 0 < (free_sectors s).card)
    (h : free_map_allocate_index (cnt + 1) i s d = .ok (b, d', s')) :
    ∃ x, s.free_map.bits x = false ∧ s'.free_map.bits x = true := by
  obtain ⟨x, t, hrun, htook⟩ := take_sector_spec hok hfree
  refine ⟨x, htook.free, ?_⟩
  have hmark : t.free_map.bits x = true := htook.bits.mpr (Or.inr rfl)
  rw [free_map_allocate_index, hrun, ok_bind] at h
  dsimp only at h
  rw [if_neg (htook.ne_error hok)] at h
  obtain ⟨⟨b₁, d₁, s₁⟩, hround, h⟩ := bind_eq_ok h
  -- the rest of the call clears no mark
  obtain ⟨rfl, hstored⟩ := @assign_index_draws (fun _ => false) t s₁ d d₁ x i b₁ (htook.fsOk hok)
    (fun _ hi => by cases hi) rfl hround
  obtain ⟨-, hrest⟩ := @allocate_draws (fun _ => false) cnt (i + 1) s₁ d₁ hstored.ok
    (fun _ hi => by cases hi) _ _ _ h
  exact hrest.bits x (hstored.bits x hmark)

end Rounds

/-! ## What is written -/

/-- Nothing but the disk has changed, and that in sectors of the index only. -/
structure Spilled (s s' : FileSys) (d : InodeDisk) : Prop where
  rest : s' = { s with disk := s'.disk }
  disk : ∀ y, (∀ σ, y ≠ mem_slot s d σ) → s'.disk y = s.disk y

section Writes

variable {s s' s'' : FileSys} {d : InodeDisk}

theorem Spilled.refl (s : FileSys) (d : InodeDisk) : Spilled s s d := ⟨rfl, fun _ _ => rfl⟩

theorem Spilled.mem_slot (h : Spilled s s' d) : mem_slot s' d = mem_slot s d := by
  rw [h.rest]
  rfl

theorem Spilled.capacity (h : Spilled s s' d) : s'.capacity = s.capacity := by
  unfold FileSys.capacity
  rw [h.rest]

theorem Spilled.trans (h : Spilled s s' d) (h' : Spilled s' s'' d) : Spilled s s'' d := by
  refine ⟨by rw [h'.rest, h.rest], fun y hy => ?_⟩
  rw [h'.disk y (by rw [h.mem_slot]; exact hy), h.disk y hy]

theorem disk_write_ok {n : ℕ} {b : Sector} (h : disk_write s n b = .ok s') :
    n < s.capacity ∧ s' = { s with disk := Function.update s.disk n b } := by
  obtain ⟨u, hassert, h⟩ := bind_eq_ok h
  exact ⟨(ASSERT_eq_ok hassert).1, (Except.ok.inj h).symm⟩

/-- Writing a sector of the index. -/
theorem disk_write_spilled {n : ℕ} {b : Sector} (hn : ∃ σ, n = mem_slot s d σ)
    (h : disk_write s n b = .ok s') : Spilled s s' d := by
  obtain ⟨-, rfl⟩ := disk_write_ok h
  obtain ⟨σ, rfl⟩ := hn
  exact ⟨rfl, fun y hy => Function.update_of_ne (hy σ) _ _⟩

theorem write_children_spilled : ∀ (cnt i : ℕ) (s s' : FileSys),
    write_children cnt i s = .ok s' → (cnt = 0 ∨ i + cnt ≤ 128) ∧ Spilled s s' d := by
  intro cnt
  induction cnt with
  | zero =>
    intro i s s' h
    obtain rfl := Except.ok.inj h
    exact ⟨Or.inl rfl, Spilled.refl s d⟩
  | succ cnt ih =>
    intro i s s' h
    unfold write_children at h
    by_cases hi : 128 ≤ i
    · rw [if_pos hi] at h
      cases h
    rw [if_neg hi] at h
    obtain ⟨s₁, hwrite, h⟩ := bind_eq_ok h
    obtain ⟨hcnt, hrest⟩ := ih (i + 1) s₁ s' h
    exact ⟨Or.inr (by omega), (disk_write_spilled ⟨.parent i, rfl⟩ hwrite).trans hrest⟩

theorem write_index_spilled {n : ℕ} (h : write_index s d n = .ok s') :
    n < MAX_BLOCKS ∧ Spilled s s' d := by
  have hM : MAX_BLOCKS = 16634 := rfl
  have hD : DIRECT_LEN = 122 := rfl
  obtain ⟨s₁, hfirst, h⟩ := bind_eq_ok h
  have hindirect : Spilled s s₁ d := by
    split_ifs at hfirst with h122
    · exact disk_write_spilled ⟨.indirect, rfl⟩ hfirst
    · obtain rfl := Except.ok.inj hfirst
      exact Spilled.refl s d
  split_ifs at h with h250
  · obtain ⟨s₂, hdoubly, h⟩ := bind_eq_ok h
    obtain ⟨s₃, hrow, h⟩ := bind_eq_ok h
    obtain ⟨hcnt, hrest⟩ := @write_children_spilled d _ _ _ _ h
    refine ⟨by omega, hindirect.trans ?_⟩
    exact (disk_write_spilled ⟨.doubly, rfl⟩ hdoubly).trans
      ((disk_write_spilled ⟨.parent 0, rfl⟩ hrow).trans hrest)
  · obtain rfl := Except.ok.inj h
    exact ⟨by omega, hindirect⟩

theorem array_sector_ok {k x : ℕ} (h : array_sector s d k = .ok x) :
    x = mem_slot s d (.data k) := by
  have hD : DIRECT_LEN = 122 := rfl
  unfold array_sector at h
  simp only [mem_slot]
  split_ifs at h with h1 h2 h3
  · rw [if_pos (by omega)]
    exact (Except.ok.inj h).symm
  · rw [if_neg (by omega), if_pos (by omega)]
    exact (Except.ok.inj h).symm
  · have hsub : k - DIRECT_LEN - 128 = k - 250 := by omega
    rw [if_neg (by omega), if_neg (by omega), ← hsub]
    exact (Except.ok.inj h).symm

theorem zero_blocks_spilled : ∀ (cnt i : ℕ) (s s' : FileSys), zero_blocks d cnt i s = .ok s' →
    (∀ k, i ≤ k → k < i + cnt → mem_slot s d (.data k) < s.capacity) ∧ Spilled s s' d := by
  intro cnt
  induction cnt with
  | zero =>
    intro i s s' h
    obtain rfl := Except.ok.inj h
    exact ⟨fun k hk hk' => by omega, Spilled.refl s d⟩
  | succ cnt ih =>
    intro i s s' h
    unfold zero_blocks at h
    obtain ⟨x, hx, h⟩ := bind_eq_ok h
    obtain rfl := array_sector_ok hx
    obtain ⟨s₁, hwrite, h⟩ := bind_eq_ok h
    obtain ⟨hlt, hrest⟩ := ih (i + 1) s₁ s' h
    have hfirst := disk_write_spilled (d := d) ⟨.data i, rfl⟩ hwrite
    refine ⟨fun k hk hk' => ?_, hfirst.trans hrest⟩
    by_cases hki : k = i
    · rw [hki]
      exact (disk_write_ok hwrite).1
    · have hk_lt := hlt k (by omega) (by omega)
      rwa [hfirst.mem_slot, hfirst.capacity] at hk_lt

end Writes

/-! ## `inode_create` -/

/-- The state in which `inode_create` allocates. -/
def numbered (s : FileSys) : FileSys := { s with next_iid := s.next_iid + 1 }

/-- The inode it starts from. -/
def started (s : FileSys) (length : ℕ) (isdir : Bool) : InodeDisk :=
  blank_inode (s.next_iid % 2 ^ 32) length isdir

/-- A creation that returned: the allocation, and the writes behind it. -/
structure CreateParts (s s' : FileSys) (sector length : ℕ) (isdir : Bool) (d : InodeDisk)
    (s₁ : FileSys) : Prop where
  alloc : free_map_allocate_index (bytes_to_sectors length) 0 (numbered s)
    (started s length isdir) = .ok (true, d, s₁)
  rest : s' = clear_arrays { s₁ with disk := s'.disk }
  max : bytes_to_sectors length < MAX_BLOCKS
  blocks : ∀ k < bytes_to_sectors length, mem_slot s₁ d (.data k) < s₁.capacity
  disk : ∀ y, y ≠ sector → (∀ σ, y ≠ mem_slot s₁ d σ) → s'.disk y = s₁.disk y

section Creation

variable {s s' s₁ : FileSys} {d : InodeDisk} {sector length : ℕ} {isdir b : Bool}

theorem numbered_ok (hok : FsOk s) : FsOk (numbered s) := hok.of_arrays rfl rfl rfl

theorem inode_create_parts (hok : FsOk s) (h : inode_create s sector length isdir = .ok (b, s')) :
    b = true ∧ ∃ d s₁, CreateParts s s' sector length isdir d s₁ := by
  obtain ⟨⟨ok, d, s₁⟩, halloc, h⟩ := bind_eq_ok h
  obtain ⟨rfl, -⟩ := @allocate_draws (fun _ => false) _ _ _ _ (numbered_ok hok)
    (fun _ hi => by cases hi) _ _ _ halloc
  rw [if_pos rfl] at h
  obtain ⟨s₂, hwrite, h⟩ := bind_eq_ok h
  obtain ⟨s₃, hindex, h⟩ := bind_eq_ok h
  obtain ⟨s₄, hzero, h⟩ := bind_eq_ok h
  obtain ⟨hb, rfl⟩ := Prod.mk.inj (Except.ok.inj h)
  obtain ⟨-, rfl⟩ := disk_write_ok hwrite
  obtain ⟨hmax, hflush⟩ := write_index_spilled hindex
  obtain ⟨hlt, hclear⟩ := zero_blocks_spilled _ _ _ _ hzero
  have hall := hflush.trans hclear
  refine ⟨hb.symm, d, s₁, halloc, ?_, hmax, fun k hk => ?_, fun y hy hslots => ?_⟩
  · rw [hall.rest]
    rfl
  · have hk_lt := hlt k (Nat.zero_le k) (by omega)
    rw [hflush.mem_slot, hflush.capacity] at hk_lt
    exact hk_lt
  · exact (hall.disk y hslots).trans (Function.update_of_ne hy _ _)

/-- The arrays and the new inode are clear before the call. -/
theorem started_slot (harrays : ArraysClear s) (σ : Slot) :
    mem_slot (numbered s) (started s length isdir) σ = 0 := by
  cases σ with
  | data k =>
    simp only [mem_slot, numbered, started, blank_inode, harrays.indirect, harrays.doubly]
    split_ifs <;> rfl
  | parent j => simp only [mem_slot, numbered, harrays.parent]
  | indirect => rfl
  | doubly => rfl

/-- What a creation leaves, whatever it found: sectors in use keep their marks, and their
contents too but for the target, sector 0 and the free map's. -/
structure Intact (s s' : FileSys) (sector : ℕ) : Prop where
  ready : Ready s'
  file : s'.free_map_file = s.free_map_file
  capacity : s'.capacity = s.capacity
  bits : ∀ i, s.free_map.bits i = true → s'.free_map.bits i = true
  slot : ∀ f, s.free_map_file = some f → ∀ τ : Slot, τ.pos < f.data.blocks →
    disk_slot s'.disk f.data τ = disk_slot s.disk f.data τ
  frame : ∀ y, s.free_map.bits y = true → y ≠ sector → y ≠ FREE_MAP_SECTOR → ¬ FreeMapData s y →
    s'.disk y = s.disk y

/-- **`inode_create`** returns true, and nothing in use is written but sector 0. -/
theorem inode_create_intact (hr : Ready s)
    (hfile : ∀ f, s.free_map_file = some f → ∀ τ : Slot, τ.pos < f.data.blocks →
      disk_slot s.disk f.data τ ≠ sector)
    (h : inode_create s sector length isdir = .ok (b, s')) : b = true ∧ Intact s s' sector := by
  obtain ⟨hb, d, s₁, hparts⟩ := inode_create_parts hr.ok h
  obtain ⟨-, hdrew⟩ := @allocate_draws s.free_map.bits _ _ _ _ (numbered_ok hr.ok)
    (fun _ hi => hi) _ _ _ hparts.alloc
  have hframe : ∀ y, s.free_map.bits y = true → y ≠ sector → y ≠ FREE_MAP_SECTOR →
      ¬ FreeMapData s y → s'.disk y = s.disk y := by
    intro y hy hsec hboot hdata
    refine (hparts.disk y hsec fun σ he => ?_).trans (hdrew.disk y hdata)
    -- a slot is as it was cleared, or holds what was free
    rcases hdrew.slots σ with hσ | hσ
    · rw [hσ, started_slot hr.arrays] at he
      exact hboot he
    · rw [← he, hy] at hσ
      cases hσ
  have hmap : s'.free_map = s₁.free_map := by
    rw [hparts.rest]
    rfl
  have hfile' : s'.free_map_file = s₁.free_map_file := by
    rw [hparts.rest]
    rfl
  have hindex : ∀ f, s.free_map_file = some f → ∀ τ : Slot, τ.IsIndex → τ.pos < f.data.blocks →
      s'.disk (disk_slot s.disk f.data τ) = s.disk (disk_slot s.disk f.data τ) := by
    intro f hf τ hτ hpos
    have hfo := hr.ok.file f hf
    exact hframe _ (hfo.map.used τ hpos) (hfile f hf τ hpos) (hr.file_boot f hf τ hpos)
      (not_freeMapData_index hf hfo τ hτ hpos)
  have hslot : ∀ f, s.free_map_file = some f → ∀ τ : Slot, τ.pos < f.data.blocks →
      disk_slot s'.disk f.data τ = disk_slot s.disk f.data τ := fun f hf τ hpos =>
    disk_slot_congr (hindex f hf) hpos
  have hbits : ∀ i, s.free_map.bits i = true → s'.free_map.bits i = true := by
    intro i hi
    rw [hmap]
    exact hdrew.bits i hi
  refine ⟨hb, ⟨?_, ?_, hbits _ hr.boot, fun f hf τ hpos => ?_⟩, hfile'.trans hdrew.file, ?_, hbits,
    hslot, hframe⟩
  · refine hdrew.ok.of_index hfile' hmap fun f hf τ hτ hpos => ?_
    have hf₀ : s.free_map_file = some f := hdrew.file.symm.trans hf
    have hsame : disk_slot s₁.disk f.data τ = disk_slot s.disk f.data τ :=
      disk_slot_congr (fun υ hυ hυpos =>
        hdrew.disk _ (not_freeMapData_index hf₀ (hr.ok.file f hf₀) υ hυ hυpos)) hpos
    rw [hsame, hindex f hf₀ τ hτ hpos]
    exact (hdrew.disk _ (not_freeMapData_index hf₀ (hr.ok.file f hf₀) τ hτ hpos)).symm
  · rw [hparts.rest]
    exact ⟨rfl, rfl, rfl⟩
  · have hf₀ : s.free_map_file = some f := (hfile'.trans hdrew.file).symm.trans hf
    rw [hslot f hf₀ τ hpos]
    exact hr.file_boot f hf₀ τ hpos
  · unfold FileSys.capacity
    rw [hmap]
    exact hdrew.capacity

theorem Intact.freeMapData (h : Intact s s' sector) {y : ℕ} :
    FreeMapData s' y ↔ FreeMapData s y := by
  constructor
  · rintro ⟨f, hf, k, hk, rfl⟩
    rw [h.file] at hf
    exact ⟨f, hf, k, hk, h.slot f hf (.data k) hk⟩
  · rintro ⟨f, hf, k, hk, rfl⟩
    exact ⟨f, by rw [h.file, hf], k, hk, (h.slot f hf (.data k) hk).symm⟩

/-- Taking a sector leaves the file system ready. -/
theorem Took.ready {x : ℕ} (hT : Took s s' x) (hr : Ready s) : Ready s' := by
  refine ⟨hT.fsOk hr.ok, ?_, hT.bits.mpr (Or.inl hr.boot), fun f hf τ hτ => ?_⟩
  · rw [hT.same.rest]
    exact ⟨hr.arrays.indirect, hr.arrays.parent, hr.arrays.doubly⟩
  · rw [hT.same.file] at hf
    rw [hT.same.file_slot hr.ok hf hτ]
    exact hr.file_boot f hf τ hτ

/-- A creation that takes no sector leaves the free map alone, and writes the target and
sector 0 only. -/
theorem inode_create_quiet (hr : Ready s)
    (hnone : bytes_to_sectors length = 0 ∨ (free_sectors s).card = 0)
    (h : inode_create s sector length isdir = .ok (b, s')) :
    s'.free_map = s.free_map ∧ ∀ y, y ≠ sector → y ≠ FREE_MAP_SECTOR → s'.disk y = s.disk y := by
  obtain ⟨-, d, s₁, hparts⟩ := inode_create_parts hr.ok h
  have halloc : free_map_allocate_index (bytes_to_sectors length) 0 (numbered s)
      (started s length isdir) = .ok (true, started s length isdir, numbered s) := by
    rcases hnone with hzero | hfull
    · rw [hzero]
      rfl
    · exact @allocate_full (numbered s) _ hfull _ _
  obtain ⟨-, heq⟩ := Prod.mk.inj (Except.ok.inj (hparts.alloc.symm.trans halloc))
  obtain ⟨rfl, rfl⟩ := Prod.mk.inj heq
  refine ⟨?_, fun y hy hboot => ?_⟩
  · rw [hparts.rest]
    rfl
  · refine hparts.disk y hy fun σ he => ?_
    rw [started_slot hr.arrays] at he
    exact hboot he

/-- A creation with data and a free sector takes one. -/
theorem inode_create_takes (hok : FsOk s) (hdata : bytes_to_sectors length ≠ 0)
    (hfree : 0 < (free_sectors s).card) (h : inode_create s sector length isdir = .ok (b, s')) :
    ∃ x, s.free_map.bits x = false ∧ s'.free_map.bits x = true := by
  obtain ⟨-, d, s₁, hparts⟩ := inode_create_parts hok h
  obtain ⟨cnt, hcnt⟩ := Nat.exists_eq_succ_of_ne_zero hdata
  have halloc := hparts.alloc
  rw [hcnt] at halloc
  obtain ⟨x, hx, hmark⟩ := allocate_takes (numbered_ok hok) hfree halloc
  refine ⟨x, hx, ?_⟩
  rw [hparts.rest]
  exact hmark

end Creation

/-! ## When it returns -/

/-- `n` blocks can be laid out with `f` free sectors: the sectors are enough, or they are used
up at the end of a round. -/
def LaysOut (n f : ℕ) : Prop :=
  n < MAX_BLOCKS ∧ ∃ i ≤ n, (slotsFrom i 0).length ≤ f ∧ (i = n ∨ (slotsFrom i 0).length = f)

section Rest

variable {s s' t : FileSys} {d d' : InodeDisk} {x i : ℕ}

theorem slotsFrom_add (a b : ℕ) : ∀ i,
    slotsFrom (a + b) i = slotsFrom a i ++ slotsFrom b (i + a) := by
  induction a with
  | zero =>
    intro i
    rw [Nat.zero_add, Nat.add_zero]
    rfl
  | succ a ih =>
    intro i
    have hi : i + (a + 1) = i + 1 + a := by omega
    rw [Nat.succ_add, slotsFrom, slotsFrom, ih (i + 1), List.append_assoc, hi]

/-- The call goes on from what its first rounds have left. -/
theorem allocate_add (b : ℕ) : ∀ (a i : ℕ) (s : FileSys) (d : InodeDisk) {d' : InodeDisk}
    {s' : FileSys}, free_map_allocate_index a i s d = .ok (true, d', s') →
    free_map_allocate_index (a + b) i s d = free_map_allocate_index b (i + a) s' d' := by
  intro a
  induction a with
  | zero =>
    intro i s d d' s' h
    obtain ⟨-, h⟩ := Prod.mk.inj (Except.ok.inj h)
    obtain ⟨rfl, rfl⟩ := Prod.mk.inj h
    rw [Nat.zero_add, Nat.add_zero]
  | succ a ih =>
    intro i s d d' s' h
    have hi : i + (a + 1) = i + 1 + a := by omega
    rw [Nat.succ_add, free_map_allocate_index, hi]
    rw [free_map_allocate_index] at h
    obtain ⟨⟨r, t⟩, htake, h⟩ := bind_eq_ok h
    rw [htake, ok_bind]
    cases r with
    | none =>
      cases (Prod.mk.inj (Except.ok.inj h)).1
    | some x =>
      dsimp only at h ⊢
      by_cases hx : x = BITMAP_ERROR
      · rw [if_pos hx] at h ⊢
        exact ih (i + 1) t d h
      · rw [if_neg hx] at h ⊢
        obtain ⟨⟨b₁, d₁, s₁⟩, hround, h⟩ := bind_eq_ok h
        rw [hround, ok_bind]
        dsimp only at h ⊢
        by_cases hb : b₁ = true
        · rw [if_pos hb] at h ⊢
          exact ih (i + 1) s₁ d₁ h
        · rw [if_neg hb] at h
          exact absurd (Prod.mk.inj (Except.ok.inj h)).1 hb

/-- A round that finds its first sector and not all of them leaves `BITMAP_ERROR` in its last
slot, the one of the block, and no free sector. -/
theorem assign_index_short (hok : FsOk s) (h : Took s t x) (hi : i < MAX_BLOCKS)
    (hshort : (free_sectors s).card < (slotsOf i).length) :
    ∃ d' s', assign_index t d i x = .ok (true, d', s') ∧
      mem_slot s' d' (.data i) = BITMAP_ERROR ∧ (free_sectors s').card = 0 := by
  have hi' : i < 16634 := hi
  have hD : DIRECT_LEN = 122 := rfl
  have hleft := h.free_sectors_card
  have hokt := h.fsOk hok
  unfold slotsOf at hshort
  unfold assign_index
  by_cases h2 : i = 122
  · -- the indirect block is found, its first entry is not
    rw [if_pos h2] at hshort
    have hfull : (free_sectors t).card = 0 := by
      simp only [List.length_cons, List.length_nil] at hshort
      omega
    rw [if_neg (by omega), if_pos (by omega), take_sector_full hfull, ok_bind]
    refine ⟨_, _, rfl, ?_, hfull⟩
    simp [mem_slot, h2]
  rw [if_neg h2] at hshort
  by_cases h4 : i = 250
  · rw [if_pos h4] at hshort
    simp only [List.length_cons, List.length_nil] at hshort
    rw [if_neg (by omega), if_neg (by omega), if_neg (by omega), if_pos (by omega)]
    dsimp only
    by_cases hfull : (free_sectors t).card = 0
    · -- only the doubly indirect block is found
      have hfull' : (free_sectors { t with
          doubly_sec_parent := Function.update t.doubly_sec_parent 0 BITMAP_ERROR }).card = 0 :=
        hfull
      rw [take_sector_full hfull, ok_bind]
      dsimp only
      rw [take_sector_full hfull', ok_bind]
      refine ⟨_, _, rfl, ?_, hfull⟩
      simp [mem_slot, h4]
    · -- its first child as well
      obtain ⟨y, u, hy, hu⟩ := take_sector_spec hokt (by omega)
      have hleftu := hu.free_sectors_card
      have hfull' : (free_sectors u).card = 0 := by omega
      have hfull'' : (free_sectors { u with
          doubly_sec_parent := Function.update u.doubly_sec_parent 0 y }).card = 0 := hfull'
      rw [hy, ok_bind]
      dsimp only
      rw [take_sector_full hfull'', ok_bind]
      refine ⟨_, _, rfl, ?_, hfull'⟩
      simp [mem_slot, h4]
  rw [if_neg h4] at hshort
  by_cases h5 : 250 < i ∧ (i - 250) % 128 = 0
  · -- a child is found, its first entry is not
    rw [if_pos h5] at hshort
    have hfull : (free_sectors t).card = 0 := by
      simp only [List.length_cons, List.length_nil] at hshort
      omega
    have hfull' : (free_sectors { t with
        doubly_sec_parent :=
          Function.update t.doubly_sec_parent ((i - 250) / 128) x }).card = 0 := hfull
    have hsub : i - DIRECT_LEN - 128 = i - 250 := by omega
    rw [if_neg (by omega), if_neg (by omega), if_neg (by omega), if_neg (by omega)]
    dsimp only
    rw [hsub, if_neg (by omega), if_pos h5.2, take_sector_full hfull', ok_bind]
    refine ⟨_, _, rfl, ?_, hfull⟩
    simp [mem_slot, show ¬ i < 122 by omega, show ¬ i < 250 by omega]
  · -- a round of one slot cannot be cut
    rw [if_neg h5, List.length_singleton] at hshort
    omega

/-- The writes of a creation return when the slots hold sectors of the disk. -/
theorem write_index_returns {n : ℕ} (hd : DiskOk s) (hlt : ∀ σ, mem_slot s d σ < s.capacity)
    (hn : n < MAX_BLOCKS) : ∃ s', write_index s d n = .ok s' := by
  have hM : MAX_BLOCKS = 16634 := rfl
  have hD : DIRECT_LEN = 122 := rfl
  have hwrite : ∀ {t : FileSys} (σ : Slot) (b : Sector), Spilled s t d →
      ∃ t', disk_write t (mem_slot t d σ) b = .ok t' ∧ Spilled s t' d := by
    intro t σ b ht
    have hin : mem_slot t d σ < t.capacity := by
      rw [ht.mem_slot, ht.capacity]
      exact hlt σ
    have hcap : t.capacity ≤ 2 ^ 28 := by
      rw [ht.capacity]
      exact hd.capacity
    have hrun := disk_write_eq b hin hcap
    exact ⟨_, hrun, ht.trans (disk_write_spilled ⟨σ, rfl⟩ hrun)⟩
  have hchildren : ∀ (cnt i : ℕ) (t : FileSys), Spilled s t d → i + cnt ≤ 128 →
      ∃ t', write_children cnt i t = .ok t' := by
    intro cnt
    induction cnt with
    | zero => exact fun i t _ _ => ⟨t, rfl⟩
    | succ cnt ih =>
      intro i t ht hcnt
      obtain ⟨t', hrun, ht'⟩ := hwrite (.parent i) (ofWords (row t.doubly_sec_idx i)) ht
      obtain ⟨t'', hrest⟩ := ih (i + 1) t' ht' (by omega)
      refine ⟨t'', ?_⟩
      have hslot : t.doubly_sec_parent i = mem_slot t d (.parent i) := rfl
      rw [write_children, if_neg (by omega), hslot, hrun, ok_bind, hrest]
  obtain ⟨s₁, hfirst, h₁⟩ : ∃ s₁, (if DIRECT_LEN < n then
      disk_write s d.indirect_block (ofWords s.indirect_sec_idx) else .ok s) = .ok s₁ ∧
      Spilled s s₁ d := by
    by_cases h122 : DIRECT_LEN < n
    · rw [if_pos h122]
      exact hwrite .indirect _ (Spilled.refl s d)
    · exact ⟨s, if_neg h122, Spilled.refl s d⟩
  unfold write_index
  rw [hfirst, ok_bind]
  by_cases h250 : DIRECT_LEN + 128 < n
  · obtain ⟨s₂, hdoubly, h₂⟩ := hwrite .doubly (ofWords s₁.doubly_sec_parent) h₁
    obtain ⟨s₃, hrow, h₃⟩ := hwrite (.parent 0) (ofWords (row s₂.doubly_sec_idx 0)) h₂
    obtain ⟨s₄, hrest⟩ := hchildren ((n - DIRECT_LEN - 128) / 128) 1 s₃ h₃ (by omega)
    have hslot : d.doubly_indirect_block = mem_slot s₁ d .doubly := rfl
    have hslot' : s₂.doubly_sec_parent 0 = mem_slot s₂ d (.parent 0) := rfl
    refine ⟨s₄, ?_⟩
    rw [if_pos h250, hslot, hdoubly, ok_bind, hslot', hrow, ok_bind, hrest]
  · exact ⟨s₁, if_neg h250⟩

end Rest

section Returns

variable {s : FileSys} {sector length : ℕ} {isdir : Bool}

/-- Sectors that run out inside a round leave `BITMAP_ERROR` in the slot of a block. -/
theorem allocate_cut {n i : ℕ} {d : InodeDisk} (hok : FsOk s) (hin : i < n) (hmax : n ≤ MAX_BLOCKS)
    (hlo : (slotsFrom i 0).length < (free_sectors s).card)
    (hhi : (free_sectors s).card < (slotsFrom (i + 1) 0).length) :
    ∃ d' s', free_map_allocate_index n 0 s d = .ok (true, d', s') ∧
      mem_slot s' d' (.data i) = BITMAP_ERROR := by
  obtain ⟨k, rfl⟩ : ∃ k, n = i + (1 + k) := ⟨n - i - 1, by omega⟩
  obtain ⟨d₁, s₁, hfirst, hA⟩ := free_map_allocate_index_spec i 0 s d hok (by omega) hlo.le
  have hleft := hA.free
  have hone : slotsFrom 1 i = slotsOf i := List.append_nil _
  rw [slotsFrom_add, List.length_append, Nat.zero_add, hone] at hhi
  obtain ⟨x, t, htake, htook⟩ := take_sector_spec hA.ok (by omega)
  obtain ⟨d₂, s₂, hround, herror, hfull⟩ := assign_index_short (d := d₁) (i := i) hA.ok htook
    (by omega) (by omega)
  refine ⟨d₂, s₂, ?_, herror⟩
  rw [allocate_add (1 + k) i 0 s d hfirst, Nat.zero_add, Nat.add_comm 1 k, free_map_allocate_index,
    htake, ok_bind]
  dsimp only
  rw [if_neg (htook.ne_error hA.ok), hround, ok_bind]
  exact allocate_full hfull k (i + 1)

/-- The last round all of whose slots find a sector. -/
theorem exists_round {f : ℕ} : ∀ n, f < (slotsFrom n 0).length →
    ∃ i < n, (slotsFrom i 0).length ≤ f ∧ f < (slotsFrom (i + 1) 0).length := by
  intro n
  induction n with
  | zero =>
    intro hf
    exact absurd hf (Nat.not_lt_zero f)
  | succ n ih =>
    intro hf
    by_cases hle : (slotsFrom n 0).length ≤ f
    · exact ⟨n, Nat.lt_succ_self n, hle, hf⟩
    · obtain ⟨i, hi, hround⟩ := ih (Nat.not_le.mp hle)
      exact ⟨i, Nat.lt_succ_of_lt hi, hround⟩

/-- **`inode_create` returns** exactly when the sectors do not run out inside a round, and the
file is below the maximum. -/
theorem inode_create_returns_iff (hr : Ready s) (hsec : sector < s.capacity) :
    (∃ r, inode_create s sector length isdir = .ok r) ↔
      LaysOut (bytes_to_sectors length) (free_sectors s).card := by
  have hcap := hr.ok.disk.capacity
  set n := bytes_to_sectors length with hn
  constructor
  · rintro ⟨⟨b, s'⟩, h⟩
    obtain ⟨-, d, s₁, hparts⟩ := inode_create_parts hr.ok h
    refine ⟨hparts.max, ?_⟩
    by_cases henough : (slotsFrom n 0).length ≤ (free_sectors s).card
    · exact ⟨n, le_rfl, henough, Or.inl rfl⟩
    obtain ⟨i, hi, hlo, hhi⟩ := exists_round n (Nat.not_le.mp henough)
    refine ⟨i, hi.le, hlo, Or.inr ?_⟩
    by_contra hne
    -- the block of the round that is cut would be written at `BITMAP_ERROR`
    obtain ⟨d', s₁', hcut, herror⟩ := @allocate_cut (numbered s) n i (started s length isdir)
      (numbered_ok hr.ok) hi hparts.max.le (Nat.lt_of_le_of_ne hlo hne) hhi
    obtain ⟨-, heq⟩ := Prod.mk.inj (Except.ok.inj (hparts.alloc.symm.trans hcut))
    obtain ⟨rfl, rfl⟩ := Prod.mk.inj heq
    have hlt := hparts.blocks i hi
    obtain ⟨-, hdrew⟩ := @allocate_draws (fun _ => false) _ _ _ _ (numbered_ok hr.ok)
      (fun _ hi => by cases hi) _ _ _ hparts.alloc
    rw [herror, hdrew.capacity] at hlt
    have hsame : (numbered s).capacity = s.capacity := rfl
    simp only [BITMAP_ERROR] at hlt
    omega
  · rintro ⟨hmax, i, hi, hle, hend⟩
    obtain ⟨d, s₁, hfirst, hA⟩ := free_map_allocate_index_spec i 0 (numbered s)
      (started s length isdir) (numbered_ok hr.ok) (by omega) hle
    have halloc : free_map_allocate_index n 0 (numbered s) (started s length isdir) =
        .ok (true, d, s₁) := by
      rcases hend with rfl | hfull
      · exact hfirst
      · have hleft := hA.free
        have hsame : (free_sectors (numbered s)).card = (free_sectors s).card := rfl
        obtain ⟨k, hk⟩ : ∃ k, n = i + k := ⟨n - i, by omega⟩
        rw [hk, allocate_add k i 0 _ _ hfirst]
        exact allocate_full (by omega) _ _
    have hlt : ∀ σ, mem_slot s₁ d σ < s₁.capacity := by
      intro σ
      by_cases hσ : σ ∈ slotsFrom i 0
      · exact hA.ok.disk.bits _ ((hA.bits _).mpr (Or.inr ⟨σ, hσ, rfl⟩))
      · rw [hA.old σ hσ, started_slot hr.arrays, hA.capacity]
        exact hr.ok.disk.bits _ hr.boot
    have hsec₁ : sector < s₁.capacity := by
      rw [hA.capacity]
      exact hsec
    set s₂ : FileSys := { s₁ with disk := Function.update s₁.disk sector (inode_image d) } with hs₂
    have hd₂ : DiskOk s₂ := ⟨hA.ok.disk.capacity, hA.ok.disk.bits⟩
    obtain ⟨s₃, hindex⟩ := @write_index_returns s₂ d n hd₂ hlt hmax
    obtain ⟨-, hflush⟩ := write_index_spilled hindex
    have hd₃ : DiskOk s₃ := by
      rw [hflush.rest]
      exact ⟨hd₂.capacity, hd₂.bits⟩
    obtain ⟨disk₄, hzero, -⟩ := @zero_blocks_spec d n 0 s₃ hd₃ (by omega) (fun k _ _ => by
      rw [hflush.mem_slot, hflush.capacity]
      exact hlt (.data k))
    refine ⟨(true, clear_arrays { s₃ with disk := disk₄ }), ?_⟩
    have hwrite : disk_write s₁ sector (inode_image d) = .ok s₂ :=
      disk_write_eq _ hsec₁ hA.ok.disk.capacity
    unfold inode_create
    change (do
      let a ← free_map_allocate_index n 0 (numbered s) (started s length isdir)
      if a.1 then do
        let s ← disk_write a.2.2 sector (inode_image a.2.1)
        let s ← write_index s a.2.1 n
        let s ← zero_blocks a.2.1 n 0 s
        return (true, clear_arrays s)
      else return (false, a.2.2)) = _
    rw [halloc, ok_bind, if_pos rfl, hwrite, ok_bind, hindex, ok_bind, hzero, ok_bind, pure_eq_ok]

end Returns

end Pintos.Filesys
