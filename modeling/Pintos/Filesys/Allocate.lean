/-
`free_map_allocate_index`, over slots.

While a file is being created or grown its block map lives in the inode and in
the three static arrays; `mem_slot` reads a slot there. A round of
`free_map_allocate_index` at index `i` takes one sector for each slot `slotsOf i`
lists and stores it, and nothing else about the map changes. `Allocated` says
this for a list of slots, and it composes, so the specification of the loop is
one induction on the number of rounds.
-/
import Pintos.Filesys.FreeMap

set_option autoImplicit false

namespace Pintos.Filesys

open Pintos.Kernel WordImage

/-! ## The map in memory -/

/-- The sector a slot holds in the inode and the static arrays. -/
def mem_slot (s : FileSys) (d : InodeDisk) : Slot → ℕ
  | .indirect => d.indirect_block
  | .doubly => d.doubly_indirect_block
  | .parent j => s.doubly_sec_parent j
  | .data k =>
    if k < 122 then d.direct_block k
    else if k < 250 then s.indirect_sec_idx (k - 122)
    else s.doubly_sec_idx (k - 250)

/-- The slots the round at index `i` fills, in the order it fills them. -/
def slotsOf (i : ℕ) : List Slot :=
  if i = 122 then [.indirect, .data i]
  else if i = 250 then [.doubly, .parent 0, .data i]
  else if 250 < i ∧ (i - 250) % 128 = 0 then [.parent ((i - 250) / 128), .data i]
  else [.data i]

/-- The slots of the `cnt` rounds from index `i`. -/
def slotsFrom : (cnt i : ℕ) → List Slot
  | 0, _ => []
  | cnt + 1, i => slotsOf i ++ slotsFrom cnt (i + 1)

theorem mem_slotsOf {i : ℕ} {σ : Slot} : σ ∈ slotsOf i ↔ σ.pos = i := by
  unfold slotsOf
  split_ifs with h1 h2 h3
  · cases σ <;> simp [Slot.pos] <;> omega
  · cases σ <;> simp [Slot.pos] <;> omega
  · cases σ <;> simp [Slot.pos] <;> omega
  · cases σ <;> simp [Slot.pos] <;> omega

theorem mem_slotsFrom {cnt : ℕ} : ∀ {i : ℕ} {σ : Slot},
    σ ∈ slotsFrom cnt i ↔ i ≤ σ.pos ∧ σ.pos < i + cnt := by
  induction cnt with
  | zero =>
    intro i σ
    simp only [slotsFrom, List.not_mem_nil, false_iff]
    omega
  | succ cnt ih =>
    intro i σ
    rw [slotsFrom, List.mem_append, mem_slotsOf, ih]
    omega

/-! ## Allocation -/

/-- The fields of an inode that allocation does not touch. -/
structure SameHeader (d d' : InodeDisk) : Prop where
  inode_i : d'.inode_i = d.inode_i
  length : d'.length = d.length
  magic : d'.magic = d.magic
  isdir : d'.isdir = d.isdir
  direct_end : ∀ k, 122 ≤ k → d'.direct_block k = d.direct_block k

theorem SameHeader.refl (d : InodeDisk) : SameHeader d d := ⟨rfl, rfl, rfl, rfl, fun _ _ => rfl⟩

theorem SameHeader.trans {d₁ d₂ d₃ : InodeDisk} (h₁ : SameHeader d₁ d₂)
    (h₂ : SameHeader d₂ d₃) : SameHeader d₁ d₃ :=
  ⟨h₂.inode_i.trans h₁.inode_i, h₂.length.trans h₁.length, h₂.magic.trans h₁.magic,
    h₂.isdir.trans h₁.isdir, fun k hk => (h₂.direct_end k hk).trans (h₁.direct_end k hk)⟩

/-- The slots of `l` were filled with distinct sectors that were free. -/
structure Allocated (s s' : FileSys) (d d' : InodeDisk) (l : List Slot) : Prop where
  old : ∀ σ, σ ∉ l → mem_slot s' d' σ = mem_slot s d σ
  fresh : ∀ σ ∈ l, s.free_map.bits (mem_slot s' d' σ) = false
  inj : ∀ σ ∈ l, ∀ τ ∈ l, mem_slot s' d' σ = mem_slot s' d' τ → σ = τ
  bits : ∀ i, s'.free_map.bits i = true ↔
    s.free_map.bits i = true ∨ ∃ σ ∈ l, mem_slot s' d' σ = i
  capacity : s'.capacity = s.capacity
  free : (free_sectors s').card + l.length = (free_sectors s).card
  file : s'.free_map_file = s.free_map_file
  disk : ∀ y, ¬ FreeMapData s y → s'.disk y = s.disk y
  header : SameHeader d d'
  iid : s'.next_iid = s.next_iid
  synced : Synced s → Synced s'
  ok : FsOk s'

theorem Allocated.nil {s : FileSys} {d : InodeDisk} (hok : FsOk s) : Allocated s s d d [] where
  old _ _ := rfl
  fresh := by simp
  inj := by simp
  bits := by simp
  capacity := rfl
  free := rfl
  file := rfl
  disk _ _ := rfl
  header := SameHeader.refl d
  iid := rfl
  synced := id
  ok := hok

/-- The free-map file keeps its data sectors across an allocation. -/
theorem Allocated.freeMapData {s s' : FileSys} {d d' : InodeDisk} {l : List Slot}
    (h : Allocated s s' d d' l) (hok : FsOk s) {y : ℕ} :
    FreeMapData s' y ↔ FreeMapData s y := by
  have hslot : ∀ f, s.free_map_file = some f → ∀ k < f.data.blocks,
      block s'.disk f.data k = block s.disk f.data k := by
    intro f hf k hk
    exact disk_slot_congr (σ := .data k)
      (fun τ hτ hpos => h.disk _ (not_freeMapData_index hf (hok.file f hf) τ hτ hpos)) hk
  constructor
  · rintro ⟨f, hf, k, hk, rfl⟩
    rw [h.file] at hf
    exact ⟨f, hf, k, hk, hslot f hf k hk⟩
  · rintro ⟨f, hf, k, hk, rfl⟩
    exact ⟨f, by rw [h.file, hf], k, hk, (hslot f hf k hk).symm⟩

/-- An allocation keeps the inode's fields in range. -/
theorem Allocated.fits {s s' : FileSys} {d d' : InodeDisk} {l : List Slot}
    (h : Allocated s s' d d' l) (hf : d.Fits) : d'.Fits := by
  have hnew : ∀ σ ∈ l, mem_slot s' d' σ < 2 ^ 32 := by
    intro σ hσ
    have h1 := h.ok.disk.bits _ ((h.bits _).mpr (Or.inr ⟨σ, hσ, rfl⟩))
    have h2 := h.ok.disk.capacity
    omega
  have hslot : ∀ σ : Slot, mem_slot s d σ < 2 ^ 32 → mem_slot s' d' σ < 2 ^ 32 := by
    intro σ hlt
    by_cases hσ : σ ∈ l
    · exact hnew σ hσ
    · rw [h.old σ hσ]
      exact hlt
  have hend : ∀ k, DIRECT_LEN ≤ k → d'.direct_block k = 0 := by
    intro k hk
    rw [h.header.direct_end k hk]
    exact hf.direct_end k hk
  refine ⟨?_, ?_, ?_, ?_, hend, hslot .indirect hf.indirect, hslot .doubly hf.doubly⟩
  · rw [h.header.inode_i]
    exact hf.inode_i
  · rw [h.header.length]
    exact hf.length
  · rw [h.header.magic]
    exact hf.magic
  · intro k
    by_cases hk : k < 122
    · have := hslot (.data k) (by simpa only [mem_slot, if_pos hk] using hf.direct k)
      simpa only [mem_slot, if_pos hk] using this
    · rw [hend k (Nat.not_lt.mp hk)]
      norm_num

/-- Allocations compose. -/
theorem Allocated.append {s₁ s₂ s₃ : FileSys} {d₁ d₂ d₃ : InodeDisk} {l l' : List Slot}
    (hok : FsOk s₁) (h₁ : Allocated s₁ s₂ d₁ d₂ l) (h₂ : Allocated s₂ s₃ d₂ d₃ l')
    (hdis : ∀ σ ∈ l, σ ∉ l') : Allocated s₁ s₃ d₁ d₃ (l ++ l') := by
  -- a slot of the first half keeps its sector through the second
  have hkeep : ∀ σ ∈ l, mem_slot s₃ d₃ σ = mem_slot s₂ d₂ σ := fun σ hσ =>
    h₂.old σ (hdis σ hσ)
  -- and that sector is no longer free when the second half starts
  have hused : ∀ σ ∈ l, s₂.free_map.bits (mem_slot s₃ d₃ σ) = true := by
    intro σ hσ
    rw [hkeep σ hσ, h₁.bits]
    exact Or.inr ⟨σ, hσ, rfl⟩
  have hcross : ∀ σ ∈ l, ∀ τ ∈ l', mem_slot s₃ d₃ σ ≠ mem_slot s₃ d₃ τ := by
    intro σ hσ τ hτ he
    have hf := h₂.fresh τ hτ
    rw [← he, hused σ hσ] at hf
    cases hf
  refine ⟨?_, ?_, ?_, ?_, h₂.capacity.trans h₁.capacity, ?_, h₂.file.trans h₁.file, ?_,
    h₁.header.trans h₂.header, h₂.iid.trans h₁.iid, fun h => h₂.synced (h₁.synced h), h₂.ok⟩
  · intro σ hσ
    rw [List.mem_append, not_or] at hσ
    rw [h₂.old σ hσ.2, h₁.old σ hσ.1]
  · intro σ hσ
    rcases List.mem_append.mp hσ with hσ | hσ
    · rw [hkeep σ hσ]
      exact h₁.fresh σ hσ
    · by_contra hne
      have htrue : s₁.free_map.bits (mem_slot s₃ d₃ σ) = true := by simpa using hne
      have hf := h₂.fresh σ hσ
      rw [(h₁.bits _).mpr (Or.inl htrue)] at hf
      cases hf
  · intro σ hσ τ hτ he
    rcases List.mem_append.mp hσ with hσ | hσ <;> rcases List.mem_append.mp hτ with hτ | hτ
    · rw [hkeep σ hσ, hkeep τ hτ] at he
      exact h₁.inj σ hσ τ hτ he
    · exact absurd he (hcross σ hσ τ hτ)
    · exact absurd he.symm (hcross τ hτ σ hσ)
    · exact h₂.inj σ hσ τ hτ he
  · intro i
    rw [h₂.bits, h₁.bits]
    constructor
    · rintro ((h | ⟨σ, hσ, rfl⟩) | ⟨σ, hσ, rfl⟩)
      · exact Or.inl h
      · exact Or.inr ⟨σ, List.mem_append_left _ hσ, hkeep σ hσ⟩
      · exact Or.inr ⟨σ, List.mem_append_right _ hσ, rfl⟩
    · rintro (h | ⟨σ, hσ, rfl⟩)
      · exact Or.inl (Or.inl h)
      · rcases List.mem_append.mp hσ with hσ | hσ
        · exact Or.inl (Or.inr ⟨σ, hσ, (hkeep σ hσ).symm⟩)
        · exact Or.inr ⟨σ, hσ, rfl⟩
  · have := h₁.free
    have := h₂.free
    rw [List.length_append]
    omega
  · intro y hy
    rw [h₂.disk y (by rwa [h₁.freeMapData hok]), h₁.disk y hy]

/-- Storing a sector just taken in slot `σ`, when the store is all that changed
besides the taking. -/
theorem Took.store {s t : FileSys} {x : ℕ} (h : Took s t x) (hok : FsOk s) (σ : Slot)
    (s' : FileSys) (d d' : InodeDisk)
    (hs : s'.disk = t.disk ∧ s'.free_map = t.free_map ∧ s'.free_map_file = t.free_map_file
      ∧ s'.next_iid = t.next_iid)
    (hd : SameHeader d d')
    (hmem : mem_slot s' d' = Function.update (mem_slot s d) σ x) :
    Allocated s s' d d' [σ] := by
  obtain ⟨hdisk, hmap, hfile, hiid⟩ := hs
  have hfile' : s'.free_map_file = s.free_map_file := hfile.trans h.same.file
  have hσ : mem_slot s' d' σ = x := by rw [hmem, Function.update_self]
  have hok' : FsOk s' := by
    have ht := h.fsOk hok
    refine ⟨⟨?_, ?_⟩, ?_⟩
    · simp only [FileSys.capacity, hmap]
      exact ht.disk.capacity
    · intro i hi
      simp only [FileSys.capacity, hmap] at hi ⊢
      exact ht.disk.bits i hi
    · intro f hf
      have hfo := ht.file f (by rw [← hfile, hf])
      refine ⟨⟨?_, ?_⟩, hfo.max, ?_, hfo.writable⟩
      · rw [hdisk]; exact hfo.map.inj
      · rw [hdisk, hmap]; exact hfo.map.used
      · simp only [FileSys.capacity, hmap]
        exact hfo.length
  have hsync : Synced s' := by
    intro f hf p hp
    rw [hfile] at hf
    simp only [FileSys.capacity, hmap] at hp
    rw [hdisk, hmap]
    exact h.synced f hf p hp
  refine ⟨?_, ?_, ?_, ?_, ?_, ?_, hfile', ?_, hd, ?_, fun _ => hsync, hok'⟩
  · intro τ hτ
    rw [hmem, Function.update_of_ne (by simpa using hτ)]
  · intro τ hτ
    obtain rfl : τ = σ := by simpa using hτ
    rw [hσ]
    exact h.free
  · intro τ hτ υ hυ _
    rw [List.mem_singleton] at hτ hυ
    rw [hτ, hυ]
  · intro i
    rw [hmap, h.bits, eq_comm (a := i)]
    simp only [List.mem_singleton, exists_eq_left, hσ]
  · simp only [FileSys.capacity, hmap]
    exact h.capacity
  · have hfs : free_sectors s' = free_sectors t := by
      simp only [free_sectors, FileSys.capacity, hmap]
    rw [hfs]
    exact h.free_sectors_card
  · intro y hy
    rw [hdisk]
    exact h.same.disk y hy
  · rw [hiid, h.same.rest]

/-! ## Storing into one slot -/

section Store

variable (s : FileSys) (d : InodeDisk) (x : ℕ)

theorem mem_slot_direct {i : ℕ} (hi : i < 122) :
    mem_slot s { d with direct_block := Function.update d.direct_block i x }
      = Function.update (mem_slot s d) (.data i) x := by
  funext σ
  cases σ with
  | data k =>
    by_cases hk : k = i
    · subst hk; simp [mem_slot, hi]
    · simp [mem_slot, hk]
  | _ => simp [mem_slot]

theorem mem_slot_indirect_block :
    mem_slot s { d with indirect_block := x } = Function.update (mem_slot s d) .indirect x := by
  funext σ
  cases σ <;> simp [mem_slot]

theorem mem_slot_doubly_block :
    mem_slot s { d with doubly_indirect_block := x }
      = Function.update (mem_slot s d) .doubly x := by
  funext σ
  cases σ <;> simp [mem_slot]

theorem mem_slot_indirect {i : ℕ} (hlo : 122 ≤ i) (hhi : i < 250) :
    mem_slot { s with indirect_sec_idx := Function.update s.indirect_sec_idx (i - 122) x } d
      = Function.update (mem_slot s d) (.data i) x := by
  funext σ
  cases σ with
  | data k =>
    by_cases hk : k = i
    · subst hk
      simp [mem_slot, hhi, Nat.not_lt.mpr hlo]
    · rw [Function.update_of_ne (by simpa using hk)]
      simp only [mem_slot]
      by_cases h1 : k < 122
      · rw [if_pos h1, if_pos h1]
      · rw [if_neg h1, if_neg h1, Function.update_of_ne (by omega)]
  | _ => simp [mem_slot]

theorem mem_slot_parent (j : ℕ) :
    mem_slot { s with doubly_sec_parent := Function.update s.doubly_sec_parent j x } d
      = Function.update (mem_slot s d) (.parent j) x := by
  funext σ
  cases σ with
  | parent i =>
    by_cases hi : i = j
    · subst hi; simp [mem_slot]
    · simp [mem_slot, hi]
  | _ => simp [mem_slot]

theorem mem_slot_doubly {i : ℕ} (hlo : 250 ≤ i) :
    mem_slot { s with doubly_sec_idx := Function.update s.doubly_sec_idx (i - 250) x } d
      = Function.update (mem_slot s d) (.data i) x := by
  funext σ
  cases σ with
  | data k =>
    by_cases hk : k = i
    · subst hk
      simp [mem_slot, Nat.not_lt.mpr hlo, show ¬ k < 122 by omega]
    · rw [Function.update_of_ne (by simpa using hk)]
      simp only [mem_slot]
      by_cases h1 : k < 250
      · rw [if_pos h1, if_pos h1]
      · rw [if_neg h1, if_neg h1, Function.update_of_ne (by omega)]
  | _ => simp [mem_slot]

end Store

theorem Took.mem_slot {s t : FileSys} {x : ℕ} (h : Took s t x) (d : InodeDisk) :
    mem_slot t d = mem_slot s d := by
  rw [h.same.rest]
  rfl

/-! ## The allocation loop -/

section Loop

variable {s t : FileSys} {d : InodeDisk} {x i : ℕ}

/-- **One round.** With a sector `x` just taken and enough free sectors left for
the slots the round fills after its first, the round fills all of them. -/
theorem assign_index_spec (hok : FsOk s) (h : Took s t x) (hi : i < MAX_BLOCKS)
    (hfree : (slotsOf i).length ≤ (free_sectors s).card) :
    ∃ d' s', assign_index t d i x = .ok (true, d', s') ∧ Allocated s s' d d' (slotsOf i) := by
  have hi' : i < 16634 := hi
  have hD : DIRECT_LEN = 122 := rfl
  have hleft := h.free_sectors_card
  have hokt := h.fsOk hok
  by_cases h1 : i < DIRECT_LEN
  · refine ⟨_, _, by rw [assign_index, if_pos h1], ?_⟩
    rw [slotsOf, if_neg (by omega), if_neg (by omega), if_neg (by omega)]
    exact h.store hok (.data i) _ _ _ ⟨rfl, rfl, rfl, rfl⟩
      ⟨rfl, rfl, rfl, rfl, fun k hk => Function.update_of_ne (by omega) _ _⟩
      (by rw [mem_slot_direct _ _ _ (by omega), h.mem_slot])
  by_cases h2 : i = DIRECT_LEN
  · -- the indirect block, then its first entry
    have hslots : slotsOf i = [.indirect] ++ [.data i] := by
      rw [slotsOf, if_pos (by omega)]; rfl
    rw [hslots] at hfree ⊢
    simp only [List.length_append, List.length_singleton] at hfree
    set d₁ : InodeDisk := { d with indirect_block := x } with hd₁
    have hA : Allocated s t d d₁ [.indirect] :=
      h.store hok .indirect _ _ _ ⟨rfl, rfl, rfl, rfl⟩ ⟨rfl, rfl, rfl, rfl, fun _ _ => rfl⟩
        (by rw [hd₁, mem_slot_indirect_block, h.mem_slot])
    obtain ⟨y, u, hy, hu⟩ := take_sector_spec hokt (by omega)
    have hB := hu.store hokt (.data i)
      { u with indirect_sec_idx := Function.update u.indirect_sec_idx (i - 122) y } d₁ d₁
      ⟨rfl, rfl, rfl, rfl⟩ (SameHeader.refl _)
      (by rw [mem_slot_indirect _ _ _ (by omega) (by omega), hu.mem_slot])
    refine ⟨_, _, ?_, hA.append hok hB (by simp)⟩
    have h0 : i - 122 = 0 := by omega
    rw [assign_index, if_neg h1, if_pos h2, hy, ok_bind]
    simp only [pure_eq_ok, h0, hd₁]
  by_cases h3 : i < DIRECT_LEN + 128
  · refine ⟨_, _, by rw [assign_index, if_neg h1, if_neg h2, if_pos h3], ?_⟩
    rw [slotsOf, if_neg (by omega), if_neg (by omega), if_neg (by omega)]
    exact h.store hok (.data i) _ _ _ ⟨rfl, rfl, rfl, rfl⟩ (SameHeader.refl _)
      (by rw [mem_slot_indirect _ _ _ (by omega) (by omega), h.mem_slot])
  by_cases h4 : i = DIRECT_LEN + 128
  · -- the doubly indirect block, its first child, and the child's first entry
    have hslots : slotsOf i = [.doubly] ++ ([.parent 0] ++ [.data i]) := by
      rw [slotsOf, if_neg (by omega), if_pos (by omega)]; rfl
    rw [hslots] at hfree ⊢
    simp only [List.length_append, List.length_singleton] at hfree
    set d₁ : InodeDisk := { d with doubly_indirect_block := x } with hd₁
    have hA : Allocated s t d d₁ [.doubly] :=
      h.store hok .doubly _ _ _ ⟨rfl, rfl, rfl, rfl⟩ ⟨rfl, rfl, rfl, rfl, fun _ _ => rfl⟩
        (by rw [hd₁, mem_slot_doubly_block, h.mem_slot])
    obtain ⟨y, u, hy, hu⟩ := take_sector_spec hokt (by omega)
    have hB := hu.store hokt (.parent 0)
      { u with doubly_sec_parent := Function.update u.doubly_sec_parent 0 y } d₁ d₁
      ⟨rfl, rfl, rfl, rfl⟩ (SameHeader.refl _) (by rw [mem_slot_parent, hu.mem_slot])
    have hleftu := hB.free
    simp only [List.length_singleton] at hleftu
    obtain ⟨z, v, hz, hv⟩ := take_sector_spec hB.ok (by omega)
    have hC := hv.store hB.ok (.data i)
      { v with doubly_sec_idx := Function.update v.doubly_sec_idx (i - 250) z } d₁ d₁
      ⟨rfl, rfl, rfl, rfl⟩ (SameHeader.refl _)
      (by rw [mem_slot_doubly _ _ _ (by omega), hv.mem_slot])
    refine ⟨_, _, ?_, hA.append hok (hB.append hokt hC (by simp)) (by simp)⟩
    have h0 : i - 250 = 0 := by omega
    rw [assign_index, if_neg h1, if_neg h2, if_neg h3, if_pos h4, hy, ok_bind]
    simp only [hz, ok_bind, pure_eq_ok, h0, hd₁]
  have hsub : i - DIRECT_LEN - 128 = i - 250 := by omega
  have hrow : ¬ 128 ≤ (i - 250) / 128 := by omega
  by_cases h5 : (i - 250) % 128 = 0
  · -- a new child, then its first entry
    have hslots : slotsOf i = [.parent ((i - 250) / 128)] ++ [.data i] := by
      rw [slotsOf, if_neg (by omega), if_neg (by omega), if_pos (by omega)]; rfl
    rw [hslots] at hfree ⊢
    simp only [List.length_append, List.length_singleton] at hfree
    have hA := h.store hok (.parent ((i - 250) / 128))
      { t with doubly_sec_parent := Function.update t.doubly_sec_parent ((i - 250) / 128) x }
      d d ⟨rfl, rfl, rfl, rfl⟩ (SameHeader.refl _) (by rw [mem_slot_parent, h.mem_slot])
    have hlefta := hA.free
    simp only [List.length_singleton] at hlefta
    obtain ⟨y, u, hy, hu⟩ := take_sector_spec hA.ok (by omega)
    have hB := hu.store hA.ok (.data i)
      { u with doubly_sec_idx := Function.update u.doubly_sec_idx (i - 250) y } d d
      ⟨rfl, rfl, rfl, rfl⟩ (SameHeader.refl _)
      (by rw [mem_slot_doubly _ _ _ (by omega), hu.mem_slot])
    refine ⟨_, _, ?_, hA.append hok hB (by simp)⟩
    rw [assign_index, if_neg h1, if_neg h2, if_neg h3, if_neg h4]
    simp only [hsub, if_neg hrow, if_pos h5, hy, ok_bind, pure_eq_ok]
  · have hA := h.store hok (.data i)
      { t with doubly_sec_idx := Function.update t.doubly_sec_idx (i - 250) x } d d
      ⟨rfl, rfl, rfl, rfl⟩ (SameHeader.refl _)
      (by rw [mem_slot_doubly _ _ _ (by omega), h.mem_slot])
    refine ⟨_, _, ?_, by
      rw [slotsOf, if_neg (by omega), if_neg (by omega), if_neg (by omega)]; exact hA⟩
    rw [assign_index, if_neg h1, if_neg h2, if_neg h3, if_neg h4]
    simp only [hsub, if_neg hrow, if_neg h5]

/-- **`free_map_allocate_index`** over `cnt` blocks from block `i`: with as many
free sectors as these blocks have slots, it fills them all. -/
theorem free_map_allocate_index_spec : ∀ (cnt i : ℕ) (s : FileSys) (d : InodeDisk), FsOk s →
    i + cnt ≤ MAX_BLOCKS → (slotsFrom cnt i).length ≤ (free_sectors s).card →
    ∃ d' s', free_map_allocate_index cnt i s d = .ok (true, d', s') ∧
      Allocated s s' d d' (slotsFrom cnt i) := by
  intro cnt
  induction cnt with
  | zero =>
    intro i s d hok _ _
    exact ⟨d, s, rfl, Allocated.nil hok⟩
  | succ cnt ih =>
    intro i s d hok hmax hfree
    rw [slotsFrom, List.length_append] at hfree
    have hpos : 0 < (slotsOf i).length :=
      List.length_pos_of_mem (mem_slotsOf.mpr (rfl : (Slot.data i).pos = i))
    obtain ⟨x, t, hx, ht⟩ := take_sector_spec hok (by omega)
    obtain ⟨d₁, s₁, ha, hA⟩ := assign_index_spec (d := d) hok ht (i := i) (by omega) (by omega)
    have hleft := hA.free
    obtain ⟨d₂, s₂, hrun, hB⟩ := ih (i + 1) s₁ d₁ hA.ok (by omega) (by omega)
    refine ⟨d₂, s₂, ?_, hA.append hok hB ?_⟩
    · rw [free_map_allocate_index, hx, ok_bind]
      simp only [if_neg (ht.ne_error hok), ha, ok_bind, if_true]
      exact hrun
    · intro σ hσ hσ'
      rw [mem_slotsOf] at hσ
      rw [mem_slotsFrom] at hσ'
      omega

end Loop

end Pintos.Filesys
