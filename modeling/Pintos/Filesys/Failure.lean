/-
What a failed `filesys_create` leaves behind.

The success expression of `filesys_create` takes a sector for the inode, creates the inode in
it and adds its name to the directory. When a part of it fails, the sector of the inode is
released and nothing else. That is all there is to undo while the new file has no blocks. A
name that cannot be added comes last, though, and then the blocks `inode_create` has taken for
the contents and the index stay marked, with no inode to hold them.
-/
import Pintos.Filesys.Walks
import Pintos.Filesys.Spill

set_option autoImplicit false

namespace Pintos.Filesys

open Pintos.Kernel WordImage

/-! ## `dir_add` -/

/-- A write that returns has written all of its buffer, inside a file that is long enough. -/
theorem write_loop_full {inode : Inode} {buffer : ℕ → UInt8} : ∀ (fuel size offset bw : ℕ)
    (c : IndexCache) (s : FileSys) {n : ℕ} {s' : FileSys}, size ≤ fuel →
    offset + size ≤ inode.data.length →
    write_loop inode buffer fuel size offset bw c s = .ok (n, s') → n = bw + size := by
  intro fuel
  induction fuel with
  | zero =>
    intro size offset bw c s n s' hfuel _ h
    obtain ⟨rfl, -⟩ := Prod.mk.inj (Except.ok.inj h)
    omega
  | succ fuel ih =>
    intro size offset bw c s n s' hfuel hle h
    unfold write_loop at h
    by_cases hsize : size = 0
    · rw [if_pos hsize] at h
      obtain ⟨rfl, -⟩ := Prod.mk.inj (Except.ok.inj h)
      omega
    rw [if_neg hsize] at h
    obtain ⟨r, -, h⟩ := bind_eq_ok h
    obtain ⟨hpos, hchunk⟩ : 0 < chunk_size inode.data size offset ∧
        chunk_size inode.data size offset ≤ size := by
      simp only [chunk_size]
      split_ifs <;> omega
    dsimp only at h
    rw [if_neg (by omega)] at h
    obtain ⟨s₁, -, h⟩ := bind_eq_ok h
    have hrest := ih _ _ _ _ _ (by omega) (by omega) h
    omega

theorem inode_write_full {s s' : FileSys} {inode inode' : Inode} {buffer : ℕ → UInt8}
    {size offset n : ℕ} (hdeny : inode.deny_write_cnt = 0)
    (h : inode_write_at s inode buffer size offset = .ok (n, inode', s')) : n = size := by
  unfold inode_write_at inode_write_at_with at h
  rw [if_neg (by simp [hdeny])] at h
  by_cases hover : 2 ^ 31 ≤ offset + size
  · rw [if_pos hover] at h
    cases h
  rw [if_neg hover] at h
  obtain ⟨⟨i₁, s₁⟩, hext, h⟩ := bind_eq_ok h
  obtain ⟨⟨m, s₂⟩, hloop, h⟩ := bind_eq_ok h
  obtain ⟨rfl, -⟩ := Prod.mk.inj (Except.ok.inj h)
  have hlong : offset + size ≤ i₁.data.length := by
    by_cases hlt : inode.data.length < offset + size
    · rw [if_pos hlt] at hext
      obtain ⟨⟨i₂, t₂⟩, -, hext⟩ := bind_eq_ok hext
      obtain ⟨t₃, -, hext⟩ := bind_eq_ok hext
      obtain ⟨t₄, -, hext⟩ := bind_eq_ok hext
      obtain ⟨rfl, -⟩ := Prod.mk.inj (Except.ok.inj hext)
      exact le_rfl
    · rw [if_neg hlt] at hext
      obtain ⟨rfl, -⟩ := Prod.mk.inj (Except.ok.inj hext)
      exact Nat.not_lt.mp hlt
  rw [write_loop_full size size offset 0 IndexCache.fresh s₁ le_rfl hlong hloop, Nat.zero_add]

/-- Writes to the inode are denied. -/
def Denies (st : Store) (d : ℕ) : Prop :=
  ∃ inode, st.open_inodes d = some inode ∧ inode.deny_write_cnt ≠ 0

/-- A denied write changes nothing. -/
theorem write_at_denied {st : Store} {d : ℕ} (h : Denies st d) (w : WriteReq) :
    st.write_at d w = .ok (0, st) := by
  obtain ⟨inode, hi, hdeny⟩ := h
  rw [Store.write_at, deref_eq_ok.mpr hi, ok_bind, inode_write_at, inode_write_at_with,
    if_pos hdeny, ok_bind, set_inode_eq_self hi]
  rfl

/-- **`dir_add`** fails before it writes: the name is no name, it is there, or writes are
denied. -/
theorem dir_add_fails {st st' : Store} {d x : ℕ} {name : Str}
    (h : dir_add st d name x = .ok (false, st')) :
    st' = st ∧ (name = [] ∨ NAME_MAX < name.length ∨ Finds st d name ∨ Denies st d) := by
  unfold dir_add at h
  by_cases hname : name = [] ∨ NAME_MAX < name.length
  · rw [if_pos hname] at h
    exact ⟨(Prod.mk.inj (Except.ok.inj h)).2.symm, or_assoc.mp (Or.inl hname)⟩
  rw [if_neg hname] at h
  obtain ⟨r, hlookup, h⟩ := bind_eq_ok h
  cases r with
  | some e =>
    exact ⟨(Prod.mk.inj (Except.ok.inj h)).2.symm, Or.inr (Or.inr (Or.inl ⟨e, hlookup⟩))⟩
  | none =>
    obtain ⟨inode, -, h⟩ := bind_eq_ok h
    obtain ⟨ofs, -, h⟩ := bind_eq_ok h
    obtain ⟨w, hwrite, h⟩ := bind_eq_ok h
    obtain ⟨hflag, rfl⟩ := Prod.mk.inj (Except.ok.inj h)
    by_cases hdenies : Denies st d
    · rw [write_at_denied hdenies] at hwrite
      obtain rfl := Except.ok.inj hwrite
      exact ⟨rfl, Or.inr (Or.inr (Or.inr hdenies))⟩
    -- the name is new, and the write does not fall short
    obtain ⟨inode', hderef', hwrite⟩ := bind_eq_ok hwrite
    obtain ⟨⟨n, i₁, s₁⟩, hrun, hret⟩ := bind_eq_ok hwrite
    obtain rfl := Except.ok.inj hret
    have hallowed : inode'.deny_write_cnt = 0 := by
      by_contra hne
      exact hdenies ⟨inode', deref_eq_ok.mp hderef', hne⟩
    rw [inode_write_full hallowed hrun] at hflag
    exact absurd hflag (by simp)

/-- It has written where it succeeds. -/
theorem dir_add_allowed {st st' : Store} {d x : ℕ} {name : Str}
    (h : dir_add st d name x = .ok (true, st')) : ¬ Denies st d := by
  intro hdenies
  unfold dir_add at h
  by_cases hname : name = [] ∨ NAME_MAX < name.length
  · rw [if_pos hname] at h
    cases (Prod.mk.inj (Except.ok.inj h)).1
  rw [if_neg hname] at h
  obtain ⟨r, -, h⟩ := bind_eq_ok h
  cases r with
  | some e => cases (Prod.mk.inj (Except.ok.inj h)).1
  | none =>
    obtain ⟨inode, -, h⟩ := bind_eq_ok h
    obtain ⟨ofs, -, h⟩ := bind_eq_ok h
    rw [write_at_denied hdenies, ok_bind] at h
    exact absurd (Prod.mk.inj (Except.ok.inj h)).1 (by simp [dir_entry_size])

/-- A name is refused. In a directory that denies writes every name is, as long as the
directory can be read to its end. -/
theorem dir_add_refuses {st : Store} {d x : ℕ} {name : Str}
    (h : name = [] ∨ Finds st d name ∨
      ∃ inode, st.open_inodes d = some inode ∧ inode.deny_write_cnt ≠ 0 ∧ ReadOk st.fs inode.data) :
    dir_add st d name x = .ok (false, st) := by
  unfold dir_add
  by_cases hname : name = [] ∨ NAME_MAX < name.length
  · rw [if_pos hname]
  rw [if_neg hname]
  rcases h.resolve_left fun hnil => hname (Or.inl hnil) with ⟨e, he⟩ | ⟨inode, hi, hdeny, hread⟩
  · rw [he, ok_bind]
    rfl
  rw [hread.lookup hi, ok_bind]
  cases find_entry st.fs.disk inode.data name with
  | some e => rfl
  | none =>
    obtain ⟨j, -, -, hslot, -⟩ := hread.slot_loop (entry_rounds inode) 0 (Nat.zero_add _)
      (Nat.succ_pos _)
    rw [Nat.mul_zero] at hslot
    dsimp only
    rw [deref_eq_ok.mpr hi, ok_bind, hslot, ok_bind, write_at_denied ⟨inode, hi, hdeny⟩, ok_bind]
    rfl

/-- A walk does not change which inodes deny writes. -/
theorem Raised.denies_iff {st st' : Store} (h : Raised st st') (d : ℕ) :
    Denies st' d ↔ Denies st d := by
  unfold Denies
  cases hd : st.open_inodes d with
  | some i =>
    obtain ⟨m, -, hi⟩ := h.kept d i hd
    simp [hi]
  | none =>
    refine iff_of_false ?_ (by simp)
    rintro ⟨inode, hi, hne⟩
    obtain ⟨-, hfresh⟩ := h.fresh d inode hd hi
    rw [hfresh] at hne
    exact hne rfl

/-! ## The directory part -/

/-- The directory part of a path leads to `d`, as `filesys_create` looks it up. -/
def DirPart (st : Store) (curr_dir : Option ℕ) (name path : Str) (d : ℕ) : Prop :=
  match curr_dir with
  | none => d = ROOT_DIR_SECTOR
  | some c =>
    if path = [] then d = c
    else looked_up path (some d) = .inode d ∧
      Leads st (if is_absolute name then ROOT_DIR_SECTOR else c) (components path) (some d)

/-- The directory from which the components are followed is open. -/
theorem start_opened {st : Store} {c : ℕ} (hc : st.open_inodes c ≠ none)
    (hroot : Reads st ROOT_DIR_SECTOR) (name path : Str) :
    ∃ st₁, Opened st st₁ ∧ Raised st st₁ ∧ st₁.open_inodes c ≠ none ∧
      st₁.open_inodes (if is_absolute name then ROOT_DIR_SECTOR else c) ≠ none ∧
      create_dir st c name path = (do
        let r ← dir_lookup st₁ (some c) (if is_absolute name then ROOT_DIR_SECTOR else c) path
        let dir ← dir_open r.2.1
        return (dir, r.2.2)) := by
  unfold create_dir dir_open_root
  by_cases habs : is_absolute name
  · obtain ⟨st₁, hrun, hop, hopen⟩ := inode_open_opened hroot
    refine ⟨st₁, hop, inode_open_raised hrun, hop.opened c hc, ?_, ?_⟩
    · rw [if_pos habs]
      exact hopen
    · rw [if_pos habs, if_pos habs, hrun, ok_bind]
  · refine ⟨st, Opened.refl st, Raised.refl st, hc, ?_, ?_⟩
    · rw [if_neg habs]
      exact hc
    · rw [if_neg habs, if_neg habs]

theorem create_dir_raised {st st' : Store} {c : ℕ} (hc : st.open_inodes c ≠ none)
    (hroot : Reads st ROOT_DIR_SECTOR) {name path : Str} {dir : Option ℕ}
    (h : create_dir st c name path = .ok (dir, st')) : Raised st st' := by
  obtain ⟨st₁, -, hraised, -, -, hrun⟩ := start_opened hc hroot name path
  rw [hrun] at h
  obtain ⟨⟨b, v, st₂⟩, hlookup, h⟩ := bind_eq_ok h
  obtain ⟨dir', -, h⟩ := bind_eq_ok h
  obtain ⟨-, rfl⟩ := Prod.mk.inj (Except.ok.inj h)
  exact hraised.trans (dir_lookup_raised hlookup)

/-- **The directory of `filesys_create`** is where the directory part leads. -/
theorem create_dir_part {st st' : Store} {c d : ℕ} (hc : st.open_inodes c ≠ none)
    (hroot : Reads st ROOT_DIR_SECTOR) {name path : Str}
    (h : create_dir st c name path = .ok (some d, st')) : DirPart st (some c) name path d := by
  obtain ⟨st₁, hop, -, hopen, hstart, hrun⟩ := start_opened hc hroot name path
  rw [hrun] at h
  unfold DirPart
  dsimp only
  by_cases hpath : path = []
  · rw [dir_lookup, if_pos hpath] at h
    rw [if_pos hpath]
    exact (Option.some.inj (Prod.mk.inj (Except.ok.inj h)).1).symm
  rw [if_neg hpath]
  obtain ⟨hgo, hback⟩ := dir_lookup_leads hop hstart (some c) hpath
  obtain ⟨q, hq, h⟩ := bind_eq_ok h
  obtain ⟨r, hr⟩ := hback q hq
  obtain ⟨st₂, hrun₂, -⟩ := hgo r hr
  obtain rfl := Except.ok.inj (hrun₂.symm.trans hq)
  obtain ⟨dir, hdir, h⟩ := bind_eq_ok h
  obtain ⟨rfl, -⟩ := Prod.mk.inj (Except.ok.inj h)
  -- only an inode that was assigned opens as a directory
  have hvar : looked_up path r = .inode d := by
    cases hv : looked_up path r with
    | unassigned =>
      rw [hv] at hdir
      cases hdir
    | null =>
      rw [hv] at hdir
      cases hdir
    | inode y =>
      rw [hv] at hdir
      rw [Option.some.inj (Except.ok.inj hdir)]
  obtain rfl := looked_up_inode hvar
  exact ⟨hvar, hr⟩

theorem create_dir_reaches {st : Store} {c d : ℕ} (hc : st.open_inodes c ≠ none)
    (hroot : Reads st ROOT_DIR_SECTOR) {name path : Str} (h : DirPart st (some c) name path d) :
    ∃ st', create_dir st c name path = .ok (some d, st') ∧ Opened st st' ∧
      st'.open_inodes d ≠ none := by
  obtain ⟨st₁, hop, -, hopen, hstart, hrun⟩ := start_opened hc hroot name path
  rw [hrun]
  unfold DirPart at h
  dsimp only at h
  by_cases hpath : path = []
  · rw [if_pos hpath] at h
    rw [dir_lookup, if_pos hpath, h]
    exact ⟨st₁, rfl, hop, hopen⟩
  rw [if_neg hpath] at h
  obtain ⟨hvar, hleads⟩ := h
  obtain ⟨st₂, hrun₂, hop₂, hopen₂⟩ := (dir_lookup_leads hop hstart (some c) hpath).1 (some d) hleads
  refine ⟨st₂, ?_, hop₂, hopen₂ d rfl⟩
  rw [hrun₂, ok_bind]
  dsimp only
  rw [hvar]
  rfl

/-! ## Files whose sectors are spared -/

/-- What is in use keeps its contents, sector 0 and the free map's apart. -/
def Spares (s s' : FileSys) : Prop := ∀ z, s.free_map.bits z = true → z ≠ FREE_MAP_SECTOR →
  ¬ FreeMapData s z → s'.disk z = s.disk z

theorem open_data_eq {st : Store} {x : ℕ} (hx : x ≠ FREE_MAP_SECTOR) :
    st.open_data x = st.inode_data x := by
  cases hopen : st.open_inodes x with
  | none => simp only [Store.open_data, Store.inode_data, if_neg hx, hopen]
  | some inode => simp only [Store.open_data, Store.inode_data, if_neg hx, hopen]

section Files

variable {st st₁ st' : Store} {y : ℕ}

theorem Store.Inv.node_sector (h : st.Inv) (hy : Node st y) {z : ℕ} (hz : z ∈ st.sectors y) :
    st.fs.free_map.bits z = true ∧ z ≠ FREE_MAP_SECTOR ∧ ¬ FreeMapData st.fs z := by
  refine ⟨(h.inode y hy.1).sectors_used hz, ?_, h.not_freeMapData hy.1 hy.2 hz⟩
  rcases hz with rfl | ⟨σ, hσ, rfl⟩
  · exact hy.2
  · exact (h.inode y hy.1).boot σ hσ

/-- The slots of a file depend on its sectors. -/
theorem node_slot_eq (hy : Node st y) {disk' : ℕ → Sector}
    (hdisk : ∀ z ∈ st.sectors y, disk' z = st.fs.disk z) {σ : Slot}
    (hσ : σ.pos < (st.open_data y).blocks) :
    disk_slot disk' (st.open_data y) σ = disk_slot st.fs.disk (st.open_data y) σ := by
  refine disk_slot_congr (fun τ _ hτ => hdisk _ (Or.inr ⟨τ, ?_, ?_⟩)) hσ
  · rwa [← open_data_eq hy.2]
  · rw [← open_data_eq hy.2]

/-- So do its bytes. -/
theorem node_byte_eq (hy : Node st y) {disk' : ℕ → Sector}
    (hdisk : ∀ z ∈ st.sectors y, disk' z = st.fs.disk z) {p : ℕ}
    (hp : p < (st.open_data y).length) :
    file_byte disk' (st.open_data y) p = file_byte st.fs.disk (st.open_data y) p := by
  have hk : p / 512 < (st.open_data y).blocks := div_lt_blocks hp
  have hslot := node_slot_eq hy hdisk (σ := .data (p / 512)) hk
  unfold file_byte block
  rw [hslot, hdisk _ (Or.inr ⟨.data (p / 512), ?_, ?_⟩)]
  · rwa [← open_data_eq hy.2]
  · rw [← open_data_eq hy.2]

theorem Store.Inv.readable (h : st.Inv) (hy : Node st y) : Readable st.fs (st.open_data y) := by
  rw [open_data_eq hy.2]
  exact ⟨h.ready.ok.disk, (h.inode y hy.1).map, (h.inode y hy.1).max⟩

/-- The same bytes, the same entries. -/
theorem find_entry_congr {disk disk' : ℕ → Sector} {d : InodeDisk}
    (h : ∀ p < d.length, file_byte disk' d p = file_byte disk d p) (name : Str) :
    find_entry disk' d name = find_entry disk d name := by
  have hentry : ∀ i < d.length / dir_entry_size, entry_at disk' d i = entry_at disk d i := by
    intro i hi
    have hfit := entry_lt_iff.mp hi
    unfold entry_at
    congr 1
    refine List.map_congr_left fun j hj => h _ ?_
    have hj' := List.mem_range.mp hj
    omega
  unfold find_entry
  have hfind : (List.range (d.length / dir_entry_size)).find?
      (fun i => decide ((entry_at disk' d i).Matches name)) =
      (List.range (d.length / dir_entry_size)).find?
        (fun i => decide ((entry_at disk d i).Matches name)) := by
    refine List.find?_congr fun i hi => ?_
    rw [hentry i (List.mem_range.mp hi)]
  rw [hfind]
  refine Option.map_congr fun i hi => ?_
  rw [hentry i (List.mem_range.mp (List.mem_of_find?_eq_some hi))]

/-- The free map and the contents of every directory are what they were. -/
structure Unchanged (st st' : Store) : Prop where
  free_map : st'.fs.free_map = st.fs.free_map
  data : ∀ y, Node st y → (st.open_data y).isdir = true → st'.open_data y = st.open_data y
  bytes : ∀ y, Node st y → (st.open_data y).isdir = true → ∀ p < (st.open_data y).length,
    file_byte st'.fs.disk (st.open_data y) p = file_byte st.fs.disk (st.open_data y) p

theorem Store.Inv.unchanged (h : st.Inv) (hraised : Raised st st₁)
    (hopen : st'.open_inodes = st₁.open_inodes) (hmap : st'.fs.free_map = st.fs.free_map)
    (hspares : Spares st.fs st'.fs) : Unchanged st st' := by
  have hdisk : ∀ y, Node st y → ∀ z ∈ st.sectors y, st'.fs.disk z = st.fs.disk z := by
    intro y hy z hz
    obtain ⟨hused, hboot, hdata⟩ := h.node_sector hy hz
    exact hspares z hused hboot hdata
  refine ⟨hmap, fun y hy _ => ?_, fun y hy _ p hp => node_byte_eq hy (hdisk y hy) hp⟩
  have hraised_data := hraised.open_data y
  unfold Store.open_data at hraised_data ⊢
  rw [hopen]
  cases hy' : st₁.open_inodes y with
  | some inode =>
    rw [hy'] at hraised_data
    exact hraised_data
  | none =>
    rw [hy', hraised.fs] at hraised_data
    dsimp only at hraised_data ⊢
    rw [hdisk y hy y (Or.inl rfl)]
    exact hraised_data

end Files

/-! ## `filesys_create`, from the directory on -/

section CreateIn

variable {st st₁ st' : Store} {d x n : ℕ} {file : Str} {s₁ s₂ s₃ : FileSys}

/-- Nothing in use is lost until the name is added. -/
theorem spares_create (hr : Ready st.fs) (hT : Took st.fs s₁ x) (hI : Intact s₁ s₂ x) :
    Spares st.fs s₂ := by
  intro z hz hboot hdata
  have hne : z ≠ x := by
    rintro rfl
    rw [hT.free] at hz
    cases hz
  rw [hI.frame z (hT.bits.mpr (Or.inl hz)) hne hboot (by rwa [hT.same.freeMapData hr.ok]),
    hT.same.disk z hdata]

theorem spares_release (hr : Ready st.fs) (hT : Took st.fs s₁ x) (hI : Intact s₁ s₂ x)
    (hR : Released s₂ s₃ [x]) : Spares st.fs s₃ := by
  intro z hz hboot hdata
  rw [hR.same.disk z (by rwa [hI.freeMapData, hT.same.freeMapData hr.ok])]
  exact spares_create hr hT hI z hz hboot hdata

/-- The sector of the inode can be released again. -/
theorem release_inode_sector (h : st.Inv) (hT : Took st.fs s₁ x) (hI : Intact s₁ s₂ x) :
    ∃ s₃, free_map_release s₂ x 1 = .ok s₃ ∧ Released s₂ s₃ [x] := by
  obtain ⟨f, hf⟩ := h.free_map
  have hf₁ : s₁.free_map_file = some f := hT.same.file.trans hf
  refine free_map_release_one hI.ready.ok (hI.file.trans hf₁) (hI.bits x (hT.bits.mpr (Or.inr rfl)))
    fun τ hτ => ?_
  rw [hI.slot f hf₁ τ hτ]
  exact hT.file_slot_ne h.ready.ok hf₁ hτ

/-- The store in which the name is added. -/
def with_inode (st₁ : Store) (s₂ : FileSys) (x : ℕ) : Store :=
  { st₁ with fs := s₂, live := x :: st₁.live }

/-- A call that fails in a directory: no sector is free, or the name is refused and the sector
of the inode released. -/
theorem create_in_false (h : st.Inv) (hraised : Raised st st₁)
    (hrun : create_in st₁ (some d) file n = .ok (false, st')) :
    st'.open_inodes = st₁.open_inodes ∧ (st'.fs = st.fs ∨ ∃ x s₁ s₂, Took st.fs s₁ x ∧
      inode_create s₁ x n false = .ok (true, s₂) ∧ Intact s₁ s₂ x ∧ Released s₂ st'.fs [x] ∧
      (file = [] ∨ NAME_MAX < file.length ∨ Finds (with_inode st₁ s₂ x) d file ∨
        Denies st d)) := by
  unfold create_in at hrun
  dsimp only at hrun
  rw [hraised.fs] at hrun
  by_cases hfull : (free_sectors st.fs).card = 0
  · rw [free_map_allocate_full hfull, ok_bind] at hrun
    obtain ⟨-, rfl⟩ := Prod.mk.inj (Except.ok.inj hrun)
    exact ⟨rfl, Or.inl rfl⟩
  have hpos := Nat.pos_of_ne_zero hfull
  obtain ⟨x, s₁, htake, hT⟩ := take_sector_spec h.ready.ok hpos
  rw [free_map_allocate_one hpos, htake, ok_bind] at hrun
  dsimp only at hrun
  obtain ⟨⟨made, s₂⟩, hmade, hrun⟩ := bind_eq_ok hrun
  obtain ⟨rfl, hI⟩ := inode_create_intact (hT.ready h.ready)
    (fun f hf τ hτ => hT.file_slot_ne h.ready.ok hf hτ) hmade
  dsimp only at hrun
  rw [if_pos rfl] at hrun
  obtain ⟨⟨added, st₂⟩, hadd, hrun⟩ := bind_eq_ok hrun
  cases added with
  | true => cases (Prod.mk.inj (Except.ok.inj hrun)).1
  | false =>
    obtain ⟨rfl, hrefused⟩ := dir_add_fails hadd
    obtain ⟨s₃, hrelease, hrun⟩ := bind_eq_ok hrun
    obtain ⟨-, rfl⟩ := Prod.mk.inj (Except.ok.inj hrun)
    obtain ⟨s₃', hrelease', hR⟩ := release_inode_sector h hT hI
    obtain rfl := Except.ok.inj (hrelease.symm.trans hrelease')
    refine ⟨rfl, Or.inr ⟨x, s₁, s₂, hT, hmade, hI, hR, ?_⟩⟩
    rwa [← hraised.denies_iff d]

/-- A name that is refused fails the call. -/
theorem create_in_refused (h : st.Inv) (hraised : Raised st st₁) (hT : Took st.fs s₁ x)
    (htake : take_sector st.fs = .ok (some x, s₁)) (hfree : 0 < (free_sectors st.fs).card)
    (hmade : inode_create s₁ x n false = .ok (true, s₂)) (hI : Intact s₁ s₂ x)
    (hadd : dir_add (with_inode st₁ s₂ x) d file x = .ok (false, with_inode st₁ s₂ x)) :
    ∃ st', create_in st₁ (some d) file n = .ok (false, st') ∧ Released s₂ st'.fs [x] := by
  obtain ⟨s₃, hrelease, hR⟩ := release_inode_sector h hT hI
  refine ⟨{ with_inode st₁ s₂ x with fs := s₃, live := st₁.live }, ?_, hR⟩
  unfold create_in
  dsimp only
  rw [hraised.fs, free_map_allocate_one hfree, htake, ok_bind]
  dsimp only
  rw [hmade, ok_bind]
  dsimp only
  rw [if_pos rfl]
  change (do
    let r ← dir_add (with_inode st₁ s₂ x) d file x
    if r.1 then return r
    else do
      let fs ← free_map_release r.2.fs x 1
      return (false, { r.2 with fs := fs, live := st₁.live })) = _
  rw [hadd, ok_bind, if_neg (by simp)]
  change (do
    let fs ← free_map_release s₂ x 1
    return (false, { with_inode st₁ s₂ x with fs := fs, live := st₁.live })) = _
  rw [hrelease]
  rfl

end CreateIn

/-! ## When a failure is clean -/

/-- A `filesys_create` that fails changes nothing. -/
def FailsClean (st : Store) (curr_dir : Option ℕ) (name : Str) (initial_size : ℕ) : Prop :=
  ∀ st', filesys_create st curr_dir name initial_size = .ok (false, st') → Unchanged st st'

/-- The directory part leads to a directory that refuses the name: it is empty, or it is
there, or the directory denies writes, or what is searched for it is no inode of the store. -/
def Refused (st : Store) (curr_dir : Option ℕ) (name : Str) : Prop :=
  ∃ path file d, parse_path name = .ok (path, file) ∧ (∀ c, curr_dir = some c → ¬ Gone st c) ∧
    DirPart st curr_dir name path d ∧
      (file = [] ∨ ¬ Node st d ∨ entry_sector st d file ≠ none ∨ Denies st d)

/-- No block can have been taken when the name is refused: the file has none, no sector is
left for one, or the creation does not come to an end. -/
def NothingTaken (st : Store) (curr_dir : Option ℕ) (name : Str) (initial_size : ℕ) : Prop :=
  bytes_to_sectors initial_size = 0 ∨ (free_sectors st.fs).card ≤ 1 ∨
    ¬ LaysOut (bytes_to_sectors initial_size) ((free_sectors st.fs).card - 1) ∨
    ¬ Refused st curr_dir name

theorem parse_path_short {name path file : Str} (h : parse_path name = .ok (path, file)) :
    file.length ≤ NAME_MAX := by
  have hsize : file_name_size = 14 := rfl
  have hmax : NAME_MAX = 14 := rfl
  unfold parse_path parse_path_into at h
  by_cases hslash : slash ∈ name
  · rw [if_pos hslash] at h
    cases hlast : (tokens name).getLast? with
    | none =>
      rw [hlast] at h
      cases h
    | some t =>
      rw [hlast] at h
      dsimp only at h
      split_ifs at h with hlong
      obtain ⟨-, rfl⟩ := Prod.mk.inj (Except.ok.inj h)
      omega
  · rw [if_neg hslash] at h
    split_ifs at h with hlong
    obtain ⟨-, rfl⟩ := Prod.mk.inj (Except.ok.inj h)
    omega

section Calls

variable {st : Store} {curr_dir : Option ℕ} {name path file : Str} {n d : ℕ}

theorem Store.Inv.reads_root (h : st.Inv) : Reads st ROOT_DIR_SECTOR := by
  have hlt := h.ready.ok.disk.bits _ h.root
  exact Or.inr ⟨hlt, hlt.trans_le h.ready.ok.disk.capacity⟩

/-- The call gets to the directory its directory part leads to. -/
theorem filesys_create_reaches (h : st.Inv) (hc : ∀ c, curr_dir = some c → st.open_inodes c ≠ none)
    (hparse : parse_path name = .ok (path, file)) (hgone : ∀ c, curr_dir = some c → ¬ Gone st c)
    (hpart : DirPart st curr_dir name path d) : ∃ st₁, Raised st st₁ ∧ st₁.open_inodes d ≠ none ∧
      filesys_create st curr_dir name n = create_in st₁ (some d) file n := by
  unfold filesys_create
  rw [hparse, ok_bind]
  cases curr_dir with
  | none =>
    obtain ⟨st₁, hrun, -, hopen⟩ := inode_open_opened h.reads_root
    obtain rfl : d = ROOT_DIR_SECTOR := hpart
    refine ⟨st₁, inode_open_raised hrun, hopen, ?_⟩
    dsimp only
    rw [dir_open_root, hrun, ok_bind]
  | some c =>
    have hopen := hc c rfl
    obtain ⟨inode, hinode⟩ := Option.ne_none_iff_exists'.mp hopen
    have hthere : ¬ inode.removed = true := fun hr => hgone c rfl ((gone_iff hinode).mpr hr)
    obtain ⟨st₁, hrun, -, hd⟩ := create_dir_reaches hopen h.reads_root hpart
    refine ⟨st₁, create_dir_raised hopen h.reads_root hrun, hd, ?_⟩
    dsimp only
    rw [deref_eq_ok.mpr hinode, ok_bind, if_neg hthere, hrun, ok_bind]

/-- The call has got to the directory `d`. -/
def Reached (st : Store) (curr_dir : Option ℕ) (name path : Str) (d : ℕ) (st₁ : Store) : Prop :=
  match curr_dir with
  | none => d = ROOT_DIR_SECTOR ∧ dir_open_root st = .ok st₁
  | some c => create_dir st c name path = .ok (some d, st₁)

theorem Reached.raised {st₁ : Store} (h : st.Inv)
    (hc : ∀ c, curr_dir = some c → st.open_inodes c ≠ none)
    (hr : Reached st curr_dir name path d st₁) : Raised st st₁ := by
  cases curr_dir with
  | none => exact inode_open_raised hr.2
  | some c => exact create_dir_raised (hc c rfl) h.reads_root hr

theorem Reached.part {st₁ : Store} (h : st.Inv)
    (hc : ∀ c, curr_dir = some c → st.open_inodes c ≠ none)
    (hr : Reached st curr_dir name path d st₁) : DirPart st curr_dir name path d := by
  cases curr_dir with
  | none => exact hr.1
  | some c => exact create_dir_part (hc c rfl) h.reads_root hr

/-- A call that returns: it has failed before it has changed anything, or it has gone on in that
directory. -/
theorem filesys_create_result (h : st.Inv) (hc : ∀ c, curr_dir = some c → st.open_inodes c ≠ none)
    {b : Bool} {st' : Store} (hrun : filesys_create st curr_dir name n = .ok (b, st')) :
    b = false ∧ Raised st st' ∨ ∃ path file d st₁, parse_path name = .ok (path, file) ∧
      (∀ c, curr_dir = some c → ¬ Gone st c) ∧ Reached st curr_dir name path d st₁ ∧
      create_in st₁ (some d) file n = .ok (b, st') := by
  obtain ⟨⟨path, file⟩, hparse, hrun⟩ := bind_eq_ok hrun
  cases curr_dir with
  | none =>
    obtain ⟨st₁, hroot, hrun⟩ := bind_eq_ok hrun
    exact Or.inr ⟨path, file, ROOT_DIR_SECTOR, st₁, hparse, fun c hc => (by cases hc),
      ⟨rfl, hroot⟩, hrun⟩
  | some c =>
    have hopen := hc c rfl
    obtain ⟨inode, hinode, hrun⟩ := bind_eq_ok hrun
    rw [deref_eq_ok] at hinode
    by_cases hremoved : inode.removed = true
    · rw [if_pos hremoved] at hrun
      obtain ⟨rfl, rfl⟩ := Prod.mk.inj (Except.ok.inj hrun)
      exact Or.inl ⟨rfl, Raised.refl st⟩
    rw [if_neg hremoved] at hrun
    obtain ⟨⟨dir, st₁⟩, hdir, hrun⟩ := bind_eq_ok hrun
    cases dir with
    | none =>
      obtain ⟨rfl, rfl⟩ := Prod.mk.inj (Except.ok.inj hrun)
      exact Or.inl ⟨rfl, create_dir_raised hopen h.reads_root hdir⟩
    | some d =>
      refine Or.inr ⟨path, file, d, st₁, hparse, fun c' hc' hgone => hremoved ?_, hdir, hrun⟩
      obtain rfl := Option.some.inj hc'
      exact (gone_iff hinode).mp hgone

/-- A file of the store can be read behind the new inode, and to its end if it could be. -/
theorem read_with_inode (h : st.Inv) (hd : Node st d) {s₂ : FileSys} (hspares : Spares st.fs s₂)
    (hbits : ∀ i, st.fs.free_map.bits i = true → s₂.free_map.bits i = true) (hok : DiskOk s₂) :
    Readable s₂ (st.open_data d) ∧ find_entry s₂.disk (st.open_data d) =
      find_entry st.fs.disk (st.open_data d) ∧ (s₂.capacity = st.fs.capacity →
        ReadOk st.fs (st.open_data d) → dir_entry_size ∣ (st.open_data d).length →
          ReadOk s₂ (st.open_data d)) := by
  have hdisk : ∀ z ∈ st.sectors d, s₂.disk z = st.fs.disk z := by
    intro z hz
    obtain ⟨hused, hboot, hfree⟩ := h.node_sector hd hz
    exact hspares z hused hboot hfree
  have hold := h.readable hd
  have hmap : MapOk s₂ (st.open_data d) (st.open_data d).blocks := by
    refine ⟨fun σ τ hσ hτ he => ?_, fun σ hσ => ?_⟩
    · rw [node_slot_eq hd hdisk hσ, node_slot_eq hd hdisk hτ] at he
      exact hold.map.inj σ τ hσ hτ he
    · rw [node_slot_eq hd hdisk hσ]
      exact hbits _ (hold.map.used σ hσ)
  refine ⟨⟨hok, hmap, hold.max⟩, ?_, fun hcap hread hwhole => ?_⟩
  · funext name
    exact find_entry_congr (fun p hp => node_byte_eq hd hdisk hp) name
  · refine hread.frame hwhole hok hmap hcap fun τ _ hpos => hdisk _ (Or.inr ⟨τ, ?_, ?_⟩)
    · rwa [← open_data_eq hd.2]
    · rw [← open_data_eq hd.2]

/-- The search of `dir_add` finds what was there before the call. -/
theorem lookup_with_inode (h : st.Inv) (hd : Node st d) {st₁ : Store} (hraised : Raised st st₁)
    (hopen : st₁.open_inodes d ≠ none) {s₂ : FileSys} {x : ℕ} (hspares : Spares st.fs s₂)
    (hbits : ∀ i, st.fs.free_map.bits i = true → s₂.free_map.bits i = true) (hok : DiskOk s₂)
    (name : Str) :
    (∀ r, lookup (with_inode st₁ s₂ x) d name = .ok r →
      r = find_entry st.fs.disk (st.open_data d) name) ∧
    ∀ p, find_entry st.fs.disk (st.open_data d) name = some p →
      lookup (with_inode st₁ s₂ x) d name = .ok (some p) := by
  obtain ⟨inode, hinode⟩ := Option.ne_none_iff_exists'.mp hopen
  have hdata : inode.data = st.open_data d := by
    rw [← hraised.open_data d, Store.open_data, hinode]
  obtain ⟨hread, hfind, -⟩ := read_with_inode h hd hspares hbits hok
  rw [← hdata] at hread hfind ⊢
  rw [← hfind]
  have hinode' : (with_inode st₁ s₂ x).open_inodes d = some inode := hinode
  exact ⟨fun r hr => hread.lookup_returns hinode' hr, fun p hp => hread.lookup_found hinode' hp⟩

/-- A block that was taken stays marked when the sector of the inode is released. -/
theorem leaks_block {x : ℕ} {s₁ s₂ s₃ : FileSys} (hT : Took st.fs s₁ x) (hR : Released s₂ s₃ [x])
    (htaken : ∃ y, s₁.free_map.bits y = false ∧ s₂.free_map.bits y = true) :
    s₃.free_map ≠ st.fs.free_map := by
  obtain ⟨y, hfree, hmark⟩ := htaken
  have hne : y ∉ [x] := by
    intro hy
    rw [List.mem_singleton.mp hy, hT.bits.mpr (Or.inr rfl)] at hfree
    cases hfree
  intro heq
  have hy : st.fs.free_map.bits y = true := by
    rw [← heq, hR.map, clear_bits_of_not_mem hne]
    exact hmark
  rw [hT.bits.mpr (Or.inl hy)] at hfree
  cases hfree

/-- Releasing the one sector that was taken restores the free map. -/
theorem release_restores {x : ℕ} {s₁ s₂ s₃ : FileSys} (hT : Took st.fs s₁ x)
    (hmap : s₂.free_map = s₁.free_map) (hR : Released s₂ s₃ [x]) :
    s₃.free_map = st.fs.free_map := by
  have hbits : (fun i => if i ∈ [x] then false
      else Function.update st.fs.free_map.bits x true i) = st.fs.free_map.bits := by
    funext i
    by_cases hi : i = x
    · rw [if_pos (List.mem_singleton.mpr hi), hi, hT.free]
    · rw [if_neg (by simpa using hi), Function.update_of_ne hi]
  rw [hR.map, hmap, hT.map, clear_bits]
  simp only [hbits]

/-- **A failed `filesys_create` changes nothing** if no block can have been taken before the
name is refused, and only then, as long as the directory part names inodes of the store, and
one that denies writes can be read to its end. -/
theorem create_fails_clean (h : st.Inv) (hc : ∀ c, curr_dir = some c → st.open_inodes c ≠ none) :
    (NothingTaken st curr_dir name n → FailsClean st curr_dir name n) ∧
    ((∀ path file d, parse_path name = .ok (path, file) → DirPart st curr_dir name path d →
      Node st d ∧ (Denies st d → ReadOk st.fs (st.open_data d) ∧
        dir_entry_size ∣ (st.open_data d).length)) →
      FailsClean st curr_dir name n → NothingTaken st curr_dir name n) := by
  constructor
  · intro hnothing st' hrun
    rcases filesys_create_result h hc hrun with ⟨-, hraised⟩ | ⟨path, file, d, st₁, hparse, hgone,
      hreached, hrun⟩
    · refine h.unchanged hraised rfl (by rw [hraised.fs]) fun z _ _ _ => by rw [hraised.fs]
    have hraised := hreached.raised h hc
    have hpart := hreached.part h hc
    obtain ⟨hopen, hfs | ⟨x, s₁, s₂, hT, hmade, hI, hR, hrefused⟩⟩ := create_in_false h hraised hrun
    · exact h.unchanged hraised hopen (by rw [hfs]) fun z _ _ _ => by rw [hfs]
    have hleft := hT.free_sectors_card
    have hcard : (free_sectors s₁).card = (free_sectors st.fs).card - 1 := by omega
    have hquiet : bytes_to_sectors n = 0 ∨ (free_sectors s₁).card = 0 → Unchanged st st' := by
      intro hnone
      obtain ⟨hmap, -⟩ := inode_create_quiet (hT.ready h.ready) hnone hmade
      exact h.unchanged hraised hopen (release_restores hT hmap hR)
        (spares_release h.ready hT hI hR)
    rcases hnothing with hzero | hlast | hlays | haccepted
    · exact hquiet (Or.inl hzero)
    · exact hquiet (Or.inr (by omega))
    · -- the creation has come to an end
      refine absurd ?_ hlays
      have hsec : x < s₁.capacity := hI.capacity ▸ hI.ready.ok.disk.bits x
        (hI.bits x (hT.bits.mpr (Or.inr rfl)))
      rw [← hcard]
      exact (inode_create_returns_iff (hT.ready h.ready) hsec).mp ⟨_, hmade⟩
    · -- the name was not refused
      have hnot : ∀ {P : Prop}, (P → file = [] ∨ ¬ Node st d ∨ entry_sector st d file ≠ none ∨
          Denies st d) → ¬ P := fun hP hp => haccepted ⟨path, file, d, hparse, hgone, hpart, hP hp⟩
      exfalso
      rcases hrefused with hnil | hlong | ⟨e, he⟩ | hdenies
      · exact hnot Or.inl hnil
      · exact absurd hlong (Nat.not_lt.mpr (parse_path_short hparse))
      swap
      · exact hnot (fun hdenies => Or.inr (Or.inr (Or.inr hdenies))) hdenies
      by_cases hd : Node st d
      swap
      · exact hnot (fun hd => Or.inr (Or.inl hd)) hd
      have hopen_d : st₁.open_inodes d ≠ none := by
        intro hclosed
        unfold lookup Store.deref at he
        rw [show (with_inode st₁ s₂ x).open_inodes d = none from hclosed] at he
        cases he
      have hfound := (lookup_with_inode h hd hraised hopen_d (spares_create h.ready hT hI)
        (fun i hi => hI.bits i (hT.bits.mpr (Or.inl hi))) hI.ready.ok.disk file).1 _ he
      refine hnot (fun hentry => Or.inr (Or.inr (Or.inl hentry))) ?_
      unfold entry_sector
      rw [← hfound]
      exact Option.some_ne_none _
  · intro htree hclean
    by_contra hnothing
    unfold NothingTaken at hnothing
    push Not at hnothing
    obtain ⟨hdata, hfree, hlays, path, file, d, hparse, hgone, hpart, hrefused⟩ := hnothing
    obtain ⟨hd, hends⟩ := htree path file d hparse hpart
    obtain ⟨st₁, hraised, hopen, heq⟩ := @filesys_create_reaches st curr_dir name path file n d h hc
      hparse hgone hpart
    have hpos : 0 < (free_sectors st.fs).card := by omega
    obtain ⟨x, s₁, htake, hT⟩ := take_sector_spec h.ready.ok hpos
    have hleft := hT.free_sectors_card
    have hcard : (free_sectors s₁).card = (free_sectors st.fs).card - 1 := by omega
    have hr₁ := hT.ready h.ready
    have hsec : x < s₁.capacity := hr₁.ok.disk.bits x (hT.bits.mpr (Or.inr rfl))
    rw [← hcard] at hlays
    obtain ⟨⟨made, s₂⟩, hmade⟩ := (@inode_create_returns_iff s₁ x n false hr₁ hsec).mpr hlays
    obtain ⟨rfl, hI⟩ := inode_create_intact hr₁
      (fun f hf τ hτ => hT.file_slot_ne h.ready.ok hf hτ) hmade
    have hspares := spares_create h.ready hT hI
    have hbits : ∀ i, st.fs.free_map.bits i = true → s₂.free_map.bits i = true := fun i hi =>
      hI.bits i (hT.bits.mpr (Or.inl hi))
    have hadd : dir_add (with_inode st₁ s₂ x) d file x = .ok (false, with_inode st₁ s₂ x) := by
      refine dir_add_refuses (hrefused.imp_right fun hrefused => ?_)
      rcases hrefused.resolve_left fun hnot => hnot hd with hentry | hdenies
      · obtain ⟨z, hz⟩ := Option.ne_none_iff_exists'.mp hentry
        obtain ⟨p, hp, -⟩ := Option.map_eq_some_iff.mp hz
        exact Or.inl ⟨p, (lookup_with_inode h hd hraised hopen hspares hbits hI.ready.ok.disk
          file).2 p hp⟩
      · obtain ⟨hread, hwhole⟩ := hends hdenies
        obtain ⟨inode, hi, hne⟩ := (hraised.denies_iff d).mpr hdenies
        have hdata : inode.data = st.open_data d := by
          rw [← hraised.open_data d, Store.open_data, hi]
        refine Or.inr ⟨inode, hi, hne, ?_⟩
        rw [hdata]
        exact (read_with_inode h hd hspares hbits hI.ready.ok.disk).2.2
          (hI.capacity.trans hT.capacity) hread hwhole
    obtain ⟨st', hrun, hR⟩ := create_in_refused h hraised hT htake hpos hmade hI hadd
    have hsame := (hclean st' (heq.trans hrun)).free_map
    exact leaks_block hT hR
      (inode_create_takes hr₁.ok hdata (by omega) hmade) hsame

end Calls

/-- An empty file with the name of one that is there. -/
theorem create_fails_clean_empty :
    (filesys_create running_tree (some 1) [102] 0).map Prod.fst = .ok false ∧
      FailsClean running_tree (some 1) [102] 0 := by
  refine ⟨by decide +kernel, (create_fails_clean running_tree_inv fun c hc => ?_).1 (Or.inl rfl)⟩
  rw [← Option.some.inj hc]
  decide

/-- With a block of contents, the block stays marked. -/
theorem failed_create_leaks : ¬ ∀ (st : Store) (curr_dir : Option ℕ) (name : Str)
    (initial_size : ℕ), st.Inv → (∀ c, curr_dir = some c → st.open_inodes c ≠ none) →
    FailsClean st curr_dir name initial_size := by
  intro hall
  have hrun : (filesys_create running_tree (some 1) [102] 512).map
      (fun r => (r.1, r.2.fs.free_map.bits 9)) = .ok (false, true) := by decide +kernel
  cases hcreate : filesys_create running_tree (some 1) [102] 512 with
  | error f =>
    rw [hcreate] at hrun
    cases hrun
  | ok r =>
    rw [hcreate] at hrun
    obtain ⟨hflag, hbit⟩ := Prod.mk.inj (Except.ok.inj hrun)
    have hopen : ∀ c, some 1 = some c → running_tree.open_inodes c ≠ none := by
      intro c hc
      rw [← Option.some.inj hc]
      decide
    have hclean := (hall running_tree (some 1) [102] 512 running_tree_inv hopen r.2
      (by rw [hcreate, ← hflag])).free_map
    rw [hclean] at hbit
    exact absurd hbit (by decide)

end Pintos.Filesys
