/-
`filesys_create`, and the `filesys_remove` that follows it.

The last close of a removed inode gives back the sectors of its blocks, and never its own. So the
sector that `filesys_create` took for the inode stays marked after the file is gone
(`create_remove_leaks`), whatever its size was.
-/
import Pintos.Filesys.NewFile
import Pintos.Filesys.Removal

set_option autoImplicit false

namespace Pintos.Filesys

open Pintos.Kernel WordImage

/-- A sector by which an inode that was there has grown. -/
def GrewInto (st st₁ : Store) (z : ℕ) : Prop := ∃ y ∈ st.live, z ∈ st₁.sectors y ∧ z ∉ st.sectors y

/-- The sectors that are marked are those that were, but for those by which a directory has
grown on the way. -/
def Restores (st st₁ st₂ : Store) : Prop :=
  ∀ z, ¬ GrewInto st st₁ z → st₂.fs.free_map.bits z = st.fs.free_map.bits z

/-- A path that can be created: its directory part leads through directories, and where it leads
there is room. Without a current directory that is the root. -/
def Placeable (st : Store) (curr_dir : Option ℕ) (name : Str) (n : ℕ) : Prop :=
  ∀ path file, parse_path name = .ok (path, file) →
    (∀ c, curr_dir = some c → Dirs st (start_dir c name) (components path)) ∧
      ∀ d, DirPart st curr_dir name path d → CreateSpace st.fs n (st.open_data d)

section Leaks

variable {st st₁ : Store} {curr_dir : Option ℕ} {d x n : ℕ} {name path file : Str}

theorem parse_path_zero (hzero : (0 : UInt8) ∉ name) (h : parse_path name = .ok (path, file)) :
    (0 : UInt8) ∉ file := by
  unfold parse_path parse_path_into at h
  by_cases hslash : slash ∈ name
  · rw [if_pos hslash] at h
    cases hlast : (tokens name).getLast? with
    | none =>
      rw [hlast] at h
      cases h
    | some t =>
      rw [hlast] at h
      dsimp only at h
      split_ifs at h
      obtain ⟨-, rfl⟩ := Prod.mk.inj (Except.ok.inj h)
      rw [tokens_eq] at hlast
      exact zero_notMem_component hzero (List.mem_of_getLast? hlast)
  · rw [if_neg hslash] at h
    split_ifs at h
    obtain ⟨-, rfl⟩ := Prod.mk.inj (Except.ok.inj h)
    exact hzero

/-- A sector of one inode is none by which another has grown. -/
theorem NewFile.not_grown {y z : ℕ} (hN : NewFile st st₁ d file x) (hy : y ∈ st₁.live)
    (hz : z ∈ st₁.sectors y) (hold : y ∈ st.live → z ∈ st.sectors y) : ¬ GrewInto st st₁ z := by
  rintro ⟨w, hw, hzw, hnot⟩
  by_cases hyw : y = w
  · subst hyw
    exact hnot (hold hw)
  · exact hN.inv.across y hy w (by rw [hN.live]; exact List.mem_cons_of_mem _ hw) hyw z hz hzw

/-- The sector of the new inode is marked, and was not. -/
theorem NewFile.own_not_grown (hN : NewFile st st₁ d file x) : ¬ GrewInto st st₁ x :=
  hN.not_grown hN.self.1 (Or.inl rfl) fun hx => absurd hx hN.fresh

/-- The entry that `filesys_remove` finds. -/
theorem NewFile.entry_node {y z : ℕ} (hN : NewFile st st₁ d file x) (h : Rooted st)
    (hy : Node st y) (hdir : (st.open_data y).isdir = true)
    (hz : Filesys.entry_sector st₁ y file = some z) :
    Node st₁ z := by
  by_cases hyd : y = d
  · rw [hyd, hN.entry, if_pos rfl] at hz
    exact Option.some.inj hz ▸ hN.self
  · rw [hN.others y hy hyd] at hz
    exact hN.node (h.tree.entry_node hy hdir hz)

/-- **A deallocation does not restore the free map.** That of the new file leaves the sector of its
inode, and that of another file clears a sector that was marked. -/
theorem NewFile.not_restored {y : ℕ} {st₂ : Store} (hN : NewFile st st₁ d file x) (h : st.Inv)
    (hy : Node st₁ y) (hyd : y ≠ d) (hB : (st₁.open_data y).blocks < 250)
    (hclears : Clears (released_sectors st₁.fs (st₁.open_data y)) st₁.fs st₂.fs) :
    ¬ Restores st st₁ st₂ := by
  intro hrest
  have hok := hN.inv.inode y hy.1
  rw [← open_data_eq hy.2] at hok
  have hslot : ∀ σ : Slot, σ.pos < (st₁.open_data y).blocks →
      disk_slot st₁.fs.disk (st₁.open_data y) σ ∈ st₁.sectors y := by
    intro σ hσ
    refine Or.inr ⟨σ, ?_, ?_⟩
    · rwa [← open_data_eq hy.2]
    · rw [← open_data_eq hy.2]
  -- the sector of the inode is clear again, so it is the stray entry of the deallocation
  have hx : x ∈ released_sectors st₁.fs (st₁.open_data y) := by
    by_contra hnot
    have hset := (hclears x).mpr ⟨(hN.inv.inode x hN.self.1).used, hnot⟩
    rw [hrest x hN.own_not_grown, hN.free] at hset
    cases hset
  rw [released_sectors_eq _ hB, List.mem_append] at hx
  rcases hx with hx | hx
  · obtain ⟨σ, hσ, hσx⟩ := List.mem_map.mp hx
    have hpos := mem_released_slots hσ
    by_cases hyx : y = x
    · exact hok.own σ hpos (hσx.trans hyx.symm)
    · refine hN.inv.across y hy.1 x hN.self.1 hyx x ?_ (Or.inl rfl)
      rw [← hσx]
      exact hslot σ hpos
  by_cases h122 : 122 < (st₁.open_data y).blocks
  swap
  · rw [if_neg h122] at hx
    cases hx
  rw [if_pos h122, List.mem_singleton] at hx
  by_cases hyx : y = x
  · -- behind the entries of the new file stands a zero
    rw [hyx] at h122 hB hx
    exact hN.boot (hx.trans (hN.behind h122 hB))
  · -- another file has lost its first block
    have hlive : y ∈ st.live := by
      have hmem := hy.1
      rw [hN.live] at hmem
      exact (List.mem_cons.mp hmem).resolve_left hyx
    have hdata := hN.data y ⟨hlive, hy.2⟩ hyd
    set z := disk_slot st₁.fs.disk (st₁.open_data y) (.data 0) with hz
    have hpos : (Slot.data 0).pos < (st₁.open_data y).blocks :=
      Nat.lt_of_le_of_lt (Nat.zero_le _) h122
    have hold : z ∈ st.sectors y := by
      rw [hdata] at hpos hz
      refine Or.inr ⟨.data 0, ?_, ?_⟩
      · rwa [← open_data_eq hy.2]
      · rw [← open_data_eq hy.2, hz]
        rfl
    have hset := (h.inode y hlive).sectors_used hold
    rw [← hrest z (hN.not_grown hy.1 (hslot _ hpos) fun _ => hold), hclears z] at hset
    refine hset.2 ?_
    rw [released_sectors_eq _ hB]
    have hfirst := Deletion.released_slots_all hpos hB
    exact List.mem_append_left _ (List.mem_map.mpr ⟨.data 0, hfirst, rfl⟩)

/-- No removal from a directory `e` restores the free map, as long as that of the new file is
open. -/
theorem NewFile.remove_leaks {s st₂ : Store} {e : ℕ} {b : Bool} (hN : NewFile st st₁ d file x)
    (h : Rooted st) (hA : Arrived st₁ s e) (henode : Node st e)
    (heisdir : (st.open_data e).isdir = true) (hd : s.open_inodes d ≠ none)
    (hremove : dir_remove s e file = .ok (b, st₂)) : ¬ Restores st st₁ st₂ := by
  intro hrest
  have hinv := hN.inv.raised hA.raised hA.within
  have hsector : Filesys.entry_sector s e file = Filesys.entry_sector st₁ e file := by
    rw [Filesys.entry_sector, Filesys.entry_sector, hA.raised.fs, hA.raised.open_data]
  have hentry : ∀ y, Filesys.entry_sector s e file = some y → Node st₁ y := by
    intro y hy
    rw [hsector] at hy
    exact hN.entry_node h henode heisdir hy
  have hnode : ∀ y, Filesys.entry_sector s e file = some y → Node s y := fun y hy =>
    ⟨hA.raised.live ▸ (hentry y hy).1, (hentry y hy).2⟩
  have hkept : ¬ st₂.fs.free_map = s.fs.free_map := by
    intro hmap
    have hset := hrest x hN.own_not_grown
    rw [hmap, hA.raised.fs, (hN.inv.inode x hN.self.1).used, hN.free] at hset
    cases hset
  rcases dir_remove_reclaims hinv hA.open_dir hnode hremove with hmap | ⟨y, hy, hclosed, hrec⟩
  · exact hkept hmap
  rcases hrec with hmap | ⟨hB, hclears⟩
  · exact hkept hmap
  rw [hA.raised.fs, hA.raised.open_data] at hclears
  rw [hA.raised.open_data] at hB
  refine hN.not_restored h.inv (hentry y hy) ?_ hB hclears hrest
  rintro rfl
  exact hd hclosed

/-- **Create, then remove, leaks** the sector of the inode: no removal after a `filesys_create` that
has succeeded brings the free map back. -/
theorem create_remove_leaks (h : Rooted st) (hc : ∀ c, curr_dir = some c → OpenDir st c)
    (hzero : (0 : UInt8) ∉ name) (hplace : Placeable st curr_dir name n)
    (hrun : filesys_create st curr_dir name n = .ok (true, st₁)) :
    ¬ ∃ b st₂, filesys_remove st₁ curr_dir name = .ok (b, st₂) ∧ Restores st st₁ st₂ := by
  rintro ⟨b, st₂, hremove, hrest⟩
  obtain ⟨⟨path, file⟩, hparse, hremove⟩ := bind_eq_ok hremove
  obtain ⟨hdirs, hspace⟩ := hplace path file hparse
  have hzero' := parse_path_zero hzero hparse
  cases curr_dir with
  | none =>
    -- both calls open the root
    obtain ⟨x, hN⟩ := filesys_create_new_root_file h hparse hzero' (hspace _ rfl) hrun
    have hroot := hN.node h.root
    obtain ⟨s, hopen, hop, hd⟩ := inode_open_opened hN.inv.reads_root
    dsimp only at hremove
    rw [dir_open_root, hopen, ok_bind, pure_eq_ok, ok_bind] at hremove
    exact hN.remove_leaks h ⟨inode_open_raised hopen,
      inode_open_within (Within.refl st₁) hroot hopen, hop, hd⟩ h.root h.root_isdir hd hremove hrest
  | some c =>
    have hc := hc c rfl
    have hdirs := hdirs c rfl
    obtain ⟨-, d, x, hpart, hN⟩ := filesys_create_new_file h hc hparse hzero' hdirs hspace hrun
    obtain ⟨s, hdir, hA⟩ := hN.remove_dir h hc hdirs hpart
    dsimp only at hremove
    rw [hdir, ok_bind] at hremove
    dsimp only at hremove
    by_cases hpath : path = []
    · -- the current directory, in which the file is, stays open
      obtain ⟨-, rfl⟩ := (hpart.resolves h hc hdirs).resolve_right fun hand => hand.1 hpath
      obtain ⟨inode, hinode⟩ := Option.ne_none_iff_exists'.mp hc.opened
      obtain ⟨i, hi, -⟩ := hN.opened _ inode hinode
      rw [if_pos hpath] at hA hremove
      obtain ⟨hnode, hisdir⟩ := h.start hc name
      refine hN.remove_leaks h hA hnode hisdir (hA.opened.opened _ ?_) hremove hrest
      rw [hi]
      exact Option.some_ne_none i
    · rw [if_neg hpath] at hA hremove
      obtain ⟨hnode, hisdir⟩ := hpart.node h hc hdirs
      exact hN.remove_leaks h hA hnode hisdir hA.open_dir hremove hrest

end Leaks

/-! ## A file in the root of the small tree -/

theorem two_dirs_placeable : Placeable two_dirs (some 1) [120] 512 := by
  intro path file hparse
  obtain ⟨rfl, -⟩ := Prod.mk.inj (Except.ok.inj
    ((show parse_path [120] = .ok ([], [120]) by decide).symm.trans hparse))
  refine ⟨fun c hc y hy => ?_, ?_⟩
  · obtain rfl := Option.some.inj hc
    obtain rfl := Option.some.inj (hy : some (start_dir 1 [120]) = some y)
    exact ⟨rfl, trivial⟩
  · rintro d rfl
    exact two_dirs_space.1

/-- The current directory of a thread that has the root. -/
theorem two_dirs_curr_dir : ∀ c, some 1 = some c → OpenDir two_dirs c := by
  rintro c hc
  obtain rfl := Option.some.inj hc
  exact two_dirs_root

/-- `"x"`, of one block, made and removed in the root. -/
theorem create_remove_leaks_small : ∃ st₁,
    filesys_create two_dirs (some 1) [120] 512 = .ok (true, st₁) ∧
      ¬ ∃ b st₂, filesys_remove st₁ (some 1) [120] = .ok (b, st₂) ∧ Restores two_dirs st₁ st₂ := by
  obtain ⟨st₁, hrun⟩ := @exists_of_created (filesys_create two_dirs (some 1) [120] 512)
    (by decide +kernel)
  exact ⟨st₁, hrun, create_remove_leaks two_dirs_rooted two_dirs_curr_dir (by decide)
    two_dirs_placeable hrun⟩

/-- **The sector of the inode** is not given back: after `filesys_create ("x", 512)` and
`filesys_remove ("x")` in the root sector 8 is marked, which was free. -/
theorem create_remove_keeps_inode : ¬ ∀ (st st₁ : Store) (curr_dir : Option ℕ) (n : ℕ) (name : Str),
    Rooted st → (∀ c, curr_dir = some c → OpenDir st c) → (0 : UInt8) ∉ name →
    Placeable st curr_dir name n → filesys_create st curr_dir name n = .ok (true, st₁) →
    ∃ b st₂, filesys_remove st₁ curr_dir name = .ok (b, st₂) ∧ Restores st st₁ st₂ := by
  intro hall
  obtain ⟨st₁, hrun⟩ := @exists_of_created (filesys_create two_dirs (some 1) [120] 512)
    (by decide +kernel)
  have hparse : parse_path [120] = .ok ([], [120]) := by decide
  obtain ⟨hdirs, hspace⟩ := two_dirs_placeable [] [120] hparse
  obtain ⟨-, d, x, -, hN⟩ := filesys_create_new_file two_dirs_rooted two_dirs_root hparse
    (by decide) (hdirs 1 rfl) hspace hrun
  obtain ⟨b, st₂, hremove, hrest⟩ := hall two_dirs st₁ (some 1) 512 [120] two_dirs_rooted
    two_dirs_curr_dir (by decide) two_dirs_placeable hrun
  -- the inode is in sector 8, and the removal leaves its bit set
  have hhead : (filesys_create two_dirs (some 1) [120] 512).map (fun r => r.2.live.head?) =
      .ok (some 8) := by decide +kernel
  have hbit : (filesys_create two_dirs (some 1) [120] 512 >>= fun r =>
      (filesys_remove r.2 (some 1) [120]).map fun q => q.2.fs.free_map.bits 8) = .ok true := by
    decide +kernel
  rw [hrun] at hhead hbit
  rw [ok_bind, hremove] at hbit
  have hx : st₁.live.head? = some 8 := Except.ok.inj hhead
  rw [hN.live] at hx
  obtain rfl : x = 8 := Option.some.inj hx
  have hset : st₂.fs.free_map.bits 8 = true := Except.ok.inj hbit
  rw [hrest 8 hN.own_not_grown, hN.free] at hset
  cases hset

end Pintos.Filesys
