/-
`dir_add` over the store: the directory it changes, and everything it leaves alone.

A new name goes into the first entry that is not in use, or behind the last one. `Put` says
what that does to the entries of the file, and from it what `lookup` finds afterwards: the
new name, and every other name as before. The write behind it is one `inode_write_at`, so
the other inodes keep their data and their sectors (`Entered`). A directory is read to its
end before a name counts as new, which takes the index of the block behind the end
(`ReadOk.frame`). A walk to the directory opens inodes of the tree and keeps the invariant
(`dir_lookup_within`), where no regular file is taken for a directory.
-/
import Pintos.Filesys.Failure
import Pintos.Filesys.DirMap

set_option autoImplicit false

namespace Pintos.Filesys

open Pintos.Kernel WordImage

/-! ## Directory trees -/

/-- A directory tree in a store whose invariant holds. A directory is a whole number of
entries long: it is created so, and it grows by one entry. -/
structure DirTree (st : Store) : Prop where
  inv : st.Inv
  tree : TreeOk st
  whole : ∀ x, Node st x → (st.open_data x).isdir = true →
    dir_entry_size ∣ (st.open_data x).length

/-- Only inodes of the tree have been opened. -/
def Within (st st' : Store) : Prop :=
  ∀ y, st'.open_inodes y ≠ none → st.open_inodes y ≠ none ∨ Node st y

section Opening

variable {st st' st'' : Store} {x : ℕ}

theorem Within.refl (st : Store) : Within st st := fun _ => Or.inl

theorem inode_open_within (h : Within st st') (hx : Node st x) (hrun : st'.inode_open x = .ok st'') :
    Within st st'' := by
  obtain ⟨inode, rfl, -⟩ := inode_open_cases hrun
  intro y hy
  by_cases hyx : y = x
  · exact Or.inr (hyx ▸ hx)
  · rw [set_inode_of_ne _ hyx] at hy
    exact h y hy

/-- Opening inodes of the tree keeps the invariant. -/
theorem Store.Inv.raised (h : st.Inv) (hr : Raised st st') (hw : Within st st') : st'.Inv := by
  have hsame : ∀ y, st'.inode_data y = st.inode_data y := by
    intro y
    by_cases hy : y = FREE_MAP_SECTOR
    · obtain ⟨f, hf⟩ := h.free_map
      have hf' : st'.fs.free_map_file = some f := by rw [hr.fs, hf]
      rw [hy, inode_data_boot hf, inode_data_boot hf']
    · rw [← open_data_eq hy, ← open_data_eq hy, hr.open_data]
  refine h.of_keeps ROOT_DIR_SECTOR (hr.fs ▸ h.ready) (by rw [hr.fs]) (hr.live ▸ h.boot)
    (hr.fs ▸ h.root) (fun y inode hy => ?_) fun y hy => ?_
  · rw [hr.live]
    cases hold : st.open_inodes y with
    | some i =>
      obtain ⟨hsec, hlive, hy0, hcnt⟩ := h.opened y i hold
      obtain ⟨n, hn, hnew⟩ := hr.kept y i hold
      obtain rfl := Option.some.inj (hnew.symm.trans hy)
      exact ⟨hsec, hlive, hy0, hcnt.trans_le hn⟩
    | none =>
      obtain ⟨hpos, hi⟩ := hr.fresh y inode hold hy
      have hnode : Node st y := by
        refine (hw y ?_).resolve_left (fun hne => hne hold)
        rw [hy]
        exact Option.some_ne_none inode
      rw [hi]
      exact ⟨rfl, hnode.1, hnode.2, hpos⟩
  · rw [hr.live] at hy
    exact Or.inl ⟨hy, Keeps.of_fs st' h hr.fs hy (hsame y)⟩

/-- The loop of `dir_lookup` opens the inodes it passes. -/
theorem walk_loop_within (cs : List Str) : ∀ (st' : Store) (x : ℕ) (v : InodeVar) {b : Bool}
    {w : InodeVar} {st'' : Store}, Opened st st' → Within st st' → st'.open_inodes x ≠ none →
    (∀ y, Passes st x cs y → Node st y) → walk_loop st' x v (named cs) = .ok (b, w, st'') →
    Within st st'' := by
  induction cs with
  | nil =>
    intro st' x v b w st'' _ hw _ _ hrun
    obtain ⟨-, hrun⟩ := Prod.mk.inj (Except.ok.inj hrun)
    obtain ⟨-, rfl⟩ := Prod.mk.inj hrun
    exact hw
  | cons c cs ih =>
    intro st' x v b w st'' hop hw hopen hpass hrun
    unfold Passes at hpass
    by_cases hc : Moves c
    swap
    · rw [walk_loop_stay hc] at hrun
      simp only [if_neg hc] at hpass
      exact ih st' x v hop hw hopen hpass hrun
    simp only [if_pos hc] at hpass
    rw [named_cons_of_ne hc.1, walk_loop, if_neg hc.2, hop.lookup hopen] at hrun
    obtain ⟨r, hpeek, hrun⟩ := bind_eq_ok hrun
    cases r with
    | none =>
      obtain ⟨-, hrun⟩ := Prod.mk.inj (Except.ok.inj hrun)
      obtain ⟨-, rfl⟩ := Prod.mk.inj hrun
      exact hw
    | some e =>
      obtain ⟨e, ofs⟩ := e
      obtain ⟨st₁, hone, hrun⟩ := bind_eq_ok hrun
      have hnode := hpass e.inode_sector ⟨e, ofs, hpeek, Or.inl rfl⟩
      obtain ⟨st₂, hone', hop', hopen'⟩ := inode_open_opened (inode_open_reads hone)
      obtain rfl := Except.ok.inj (hone.symm.trans hone')
      exact ih _ e.inode_sector _ (hop.trans hop') (inode_open_within hw hnode hone) hopen'
        (fun y hy => hpass y ⟨e, ofs, hpeek, Or.inr hy⟩) hrun

/-- **`dir_lookup`** opens the directory it starts from and the inodes it passes. -/
theorem dir_lookup_within_of_passes (hop : Opened st st') (hw : Within st st') (hx : Node st x)
    (hopen : st'.open_inodes x ≠ none) {curr_dir : Option ℕ} {name : Str}
    (hpass : ∀ y, Passes st x (components name) y → Node st y) {b : Bool} {v : InodeVar}
    (hrun : dir_lookup st' curr_dir x name = .ok (b, v, st'')) : Within st st'' := by
  unfold dir_lookup at hrun
  by_cases hname : name = []
  · rw [if_pos hname] at hrun
    cases curr_dir with
    | none => cases hrun
    | some c =>
      obtain ⟨-, hrun⟩ := Prod.mk.inj (Except.ok.inj hrun)
      obtain ⟨-, rfl⟩ := Prod.mk.inj hrun
      exact hw
  rw [if_neg hname] at hrun
  by_cases hslash : slash ∈ name
  · rw [if_pos hslash, tokens_eq] at hrun
    exact walk_loop_within _ _ _ _ hop hw hopen hpass hrun
  rw [if_neg hslash] at hrun
  rw [components_single hslash] at hpass
  by_cases hdot : name = dot
  · rw [if_pos hdot] at hrun
    obtain ⟨st₁, hone, hrun⟩ := bind_eq_ok hrun
    obtain ⟨-, hrun⟩ := Prod.mk.inj (Except.ok.inj hrun)
    obtain ⟨-, rfl⟩ := Prod.mk.inj hrun
    exact inode_open_within hw hx hone
  rw [if_neg hdot, hop.lookup hopen] at hrun
  unfold Passes at hpass
  simp only [if_pos (show Moves name from ⟨hname, hdot⟩)] at hpass
  obtain ⟨r, hpeek, hrun⟩ := bind_eq_ok hrun
  cases r with
  | none =>
    obtain ⟨-, hrun⟩ := Prod.mk.inj (Except.ok.inj hrun)
    obtain ⟨-, rfl⟩ := Prod.mk.inj hrun
    exact hw
  | some e =>
    obtain ⟨e, ofs⟩ := e
    obtain ⟨st₁, hone, hrun⟩ := bind_eq_ok hrun
    obtain ⟨-, hrun⟩ := Prod.mk.inj (Except.ok.inj hrun)
    obtain ⟨-, rfl⟩ := Prod.mk.inj hrun
    exact inode_open_within hw (hpass _ ⟨e, ofs, hpeek, Or.inl rfl⟩) hone

/-- As long as no regular file stands on the way, a walk passes inodes of the tree. -/
theorem TreeOk.passes_node (h : TreeOk st) (cs : List Str) : ∀ {x y : ℕ}, Node st x →
    (st.open_data x).isdir = true → file_before st x cs = none → Passes st x cs y → Node st y := by
  induction cs with
  | nil =>
    intro x y _ _ _ hpass
    cases hpass
  | cons c cs ih =>
    intro x y hx hdir hfile hpass
    unfold Passes at hpass
    by_cases hc : Moves c
    swap
    · rw [if_neg hc] at hpass
      refine ih hx hdir ?_ hpass
      cases cs with
      | nil => rfl
      | cons d cs =>
        simp only [file_before, follow_of_stay hc, hdir, if_true] at hfile
        exact hfile
    rw [if_pos hc] at hpass
    obtain ⟨e, ofs, hpeek, hpass⟩ := hpass
    rcases h.follow_cases hx hc with ⟨-, hnone⟩ | ⟨e', ofs', hsome, hpeek'⟩
    · rw [hnone] at hpeek
      cases hpeek
    obtain ⟨rfl, rfl⟩ := Prod.mk.inj (Option.some.inj (Except.ok.inj (hpeek.symm.trans hpeek')))
    have hnode := h.node_follow hx hdir hsome
    rcases hpass with rfl | hpass
    · exact hnode
    cases cs with
    | nil => cases hpass
    | cons d cs =>
      -- a component follows, so what was reached is a directory
      by_cases hisdir : (st.open_data e.inode_sector).isdir = true
      · refine ih hnode hisdir ?_ hpass
        simp only [file_before, hsome, hisdir, if_true] at hfile
        exact hfile
      · simp only [file_before, hsome, hisdir] at hfile
        cases hfile

/-- **`dir_lookup`** stays within the tree. -/
theorem dir_lookup_within (h : TreeOk st) (hop : Opened st st') (hw : Within st st')
    (hx : Node st x) (hdir : (st.open_data x).isdir = true) (hopen : st'.open_inodes x ≠ none)
    {curr_dir : Option ℕ} {name : Str} (hfile : file_before st x (components name) = none)
    {b : Bool} {v : InodeVar} (hrun : dir_lookup st' curr_dir x name = .ok (b, v, st'')) :
    Within st st'' :=
  dir_lookup_within_of_passes hop hw hx hopen (fun _ => h.passes_node _ hx hdir hfile) hrun

end Opening

/-! ## One entry -/

/-- The same bytes, the same entry. -/
theorem entry_at_congr {disk disk' : ℕ → Sector} {d d' : InodeDisk} {i : ℕ}
    (h : ∀ j < dir_entry_size, file_byte disk' d' (dir_entry_size * i + j) =
      file_byte disk d (dir_entry_size * i + j)) : entry_at disk' d' i = entry_at disk d i := by
  unfold entry_at
  congr 1
  exact List.map_congr_left fun j hj => h j (List.mem_range.mp hj)

/-- An entry that was written. -/
theorem entry_at_written {disk : ℕ → Sector} {d : InodeDisk} {i : ℕ} {e : DirEntry}
    (he : e.bytes.length = dir_entry_size)
    (h : ∀ j < dir_entry_size, file_byte disk d (dir_entry_size * i + j) = e.image j) :
    entry_at disk d i = e := by
  have hbytes : (List.range dir_entry_size).map
      (fun j => file_byte disk d (dir_entry_size * i + j)) = e.bytes := by
    refine List.ext_getElem? fun k => ?_
    by_cases hk : k < dir_entry_size
    · rw [List.getElem?_map, List.getElem?_range hk, Option.map_some, h k hk]
      unfold DirEntry.image
      rw [List.getD_eq_getElem?_getD, List.getElem?_eq_getElem (he ▸ hk), Option.getD_some]
    · rw [List.getElem?_eq_none (by rw [List.length_map, List.length_range]; omega),
        List.getElem?_eq_none (by omega)]
  unfold entry_at
  rw [hbytes]

/-- An entry that is not in use has no name. -/
theorem not_matches_of_free {e : DirEntry} (h : e.in_use = 0) (name : Str) : ¬ e.Matches name := by
  intro hm
  have hone : e.in_use = 1 := hm.1
  rw [h] at hone
  cases hone

/-- Entry `j`, free or behind the last one, has become `e`, and the others are as they were. -/
structure Put (disk disk' : ℕ → Sector) (d d' : InodeDisk) (j : ℕ) (e : DirEntry) : Prop where
  slot : j ≤ d.length / dir_entry_size
  free : j < d.length / dir_entry_size → (entry_at disk d j).in_use = 0
  length : d'.length = max d.length (dir_entry_size * j + dir_entry_size)
  self : entry_at disk' d' j = e
  other : ∀ i < d.length / dir_entry_size, i ≠ j → entry_at disk' d' i = entry_at disk d i

section Puts

variable {disk disk' : ℕ → Sector} {d d' : InodeDisk} {j : ℕ} {e : DirEntry}

/-- The entries of the new file: those of the old one, and entry `j`. -/
theorem Put.lt_iff (h : Put disk disk' d d' j e) {i : ℕ} :
    i < d'.length / dir_entry_size ↔ i < d.length / dir_entry_size ∨ i = j := by
  have hj := h.slot
  have hlen := h.length
  unfold dir_entry_size at hj hlen ⊢
  omega

/-- The other names are found where they were. -/
theorem Put.find_other (h : Put disk disk' d d' j e) {name : Str} (hname : e.name ≠ name) :
    find_entry disk' d' name = find_entry disk d name := by
  have hmatch : ∀ i, i < d'.length / dir_entry_size → ((entry_at disk' d' i).Matches name ↔
      i < d.length / dir_entry_size ∧ (entry_at disk d i).Matches name) := by
    intro i hi
    by_cases hij : i = j
    · subst hij
      rw [h.self]
      refine iff_of_false (fun hm => hname hm.2) ?_
      exact fun hm => not_matches_of_free (h.free hm.1) name hm.2
    · have hlt := (h.lt_iff.mp hi).resolve_right hij
      rw [h.other i hlt hij]
      exact ⟨fun hm => ⟨hlt, hm⟩, fun hm => hm.2⟩
  have hsplit : List.range (d'.length / dir_entry_size) = List.range (d.length / dir_entry_size) ++
      (if j < d.length / dir_entry_size then [] else [j]) := by
    have hj := h.slot
    have hlen := h.length
    by_cases hlt : j < d.length / dir_entry_size
    · have hsame : d'.length / dir_entry_size = d.length / dir_entry_size := by
        unfold dir_entry_size at hj hlen hlt ⊢
        omega
      rw [if_pos hlt, List.append_nil, hsame]
    · have hsucc : d'.length / dir_entry_size = j + 1 := by
        unfold dir_entry_size at hj hlen hlt ⊢
        omega
      have hend : d.length / dir_entry_size = j := by omega
      rw [if_neg hlt, hsucc, List.range_succ, hend]
  have htail : (if j < d.length / dir_entry_size then [] else [j]).find?
      (fun i => decide ((entry_at disk' d' i).Matches name)) = none := by
    refine List.find?_eq_none.mpr fun i hi hm => ?_
    split_ifs at hi with hlt
    · cases hi
    · obtain rfl := List.mem_singleton.mp hi
      have hm' : (entry_at disk' d' i).Matches name := by simpa using hm
      exact hlt ((hmatch i (h.lt_iff.mpr (Or.inr rfl))).mp hm').1
  have hfind : (List.range (d'.length / dir_entry_size)).find?
      (fun i => decide ((entry_at disk' d' i).Matches name)) =
      (List.range (d.length / dir_entry_size)).find?
        (fun i => decide ((entry_at disk d i).Matches name)) := by
    rw [hsplit, List.find?_append, htail, Option.or_none]
    refine List.find?_congr fun i hi => ?_
    have hlt := List.mem_range.mp hi
    have hiff := hmatch i (h.lt_iff.mpr (Or.inl hlt))
    simp only [hlt, true_and] at hiff
    simp only [hiff]
  unfold find_entry
  rw [hfind]
  refine Option.map_congr fun i hi => ?_
  have hlt := List.mem_range.mp (List.mem_of_find?_eq_some hi)
  have hm : (entry_at disk d i).Matches name := by simpa using List.find?_some hi
  have hij : i ≠ j := by
    rintro rfl
    exact not_matches_of_free (h.free hlt) name hm
  rw [h.other i hlt hij]

/-- The new name is found in its entry. -/
theorem Put.find_self (h : Put disk disk' d d' j e) (huse : e.in_use = 1)
    (hnew : find_entry disk d e.name = none) :
    find_entry disk' d' e.name = some (e, dir_entry_size * j) := by
  have hnone : ∀ i < d.length / dir_entry_size, ¬ (entry_at disk d i).Matches e.name := by
    unfold find_entry at hnew
    rw [Option.map_eq_none_iff, List.find?_eq_none] at hnew
    exact fun i hi hm => hnew i (List.mem_range.mpr hi) (by simpa using hm)
  have hself : (entry_at disk' d' j).Matches e.name := by
    rw [h.self]
    exact ⟨huse, rfl⟩
  cases hfind : find_entry disk' d' e.name with
  | none =>
    unfold find_entry at hfind
    rw [Option.map_eq_none_iff, List.find?_eq_none] at hfind
    exact absurd (by simpa using hself) (hfind j (List.mem_range.mpr (h.lt_iff.mpr (Or.inr rfl))))
  | some p =>
    obtain ⟨i, hi, rfl, hm⟩ := find_entry_matches hfind
    by_cases hij : i = j
    · rw [hij, h.self]
    · have hlt := (h.lt_iff.mp hi).resolve_right hij
      rw [h.other i hlt hij] at hm
      exact absurd hm (hnone i hlt)

end Puts

/-! ## Writing into a file of the store -/

/-- The store after a write to the inode at `x`. -/
def Store.wrote (st : Store) (x : ℕ) (inode : Inode) (fs : FileSys) : Store :=
  { st.set_inode x (some inode) with fs := fs }

/-- An inode that an operation leaves alone: its data, and what its sectors hold. -/
structure SameNode (st st' : Store) (y : ℕ) : Prop where
  data : st'.open_data y = st.open_data y
  disk : ∀ z ∈ st.sectors y, st'.fs.disk z = st.fs.disk z

theorem SameNode.find_entry {st st' : Store} {y : ℕ} (h : SameNode st st' y) (hy : Node st y)
    (name : Str) : find_entry st'.fs.disk (st'.open_data y) name =
      find_entry st.fs.disk (st.open_data y) name := by
  rw [h.data]
  exact find_entry_congr (fun p hp => node_byte_eq hy h.disk hp) name

section Writes

variable {st : Store} {x : ℕ} {inode : Inode}

/-- What a write leaves of the store. -/
structure WroteTo (st : Store) (x : ℕ) (w : WriteReq) (inode inode' : Inode) (s' : FileSys) :
    Prop where
  inv : (st.wrote x inode' s').Inv
  kept : Kept st.fs s' inode inode'
  length : inode'.data.length = max inode.data.length w.eof
  bytes : ∀ i < w.size, file_byte s'.disk inode'.data (w.offset + i) = w.buffer i
  rest : ∀ p < inode.data.length, ¬ (w.offset ≤ p ∧ p < w.eof) →
    file_byte s'.disk inode'.data p = file_byte st.fs.disk inode.data p
  others : ∀ y, Node st y → y ≠ x → SameNode st (st.wrote x inode' s') y

/-- **A write** in the store, with its bytes. -/
theorem write_at_spec (h : st.Inv) (hi : st.open_inodes x = some inode)
    (hdeny : inode.deny_write_cnt = 0) {w : WriteReq} (hw : StoreOk st (.write x w)) :
    ∃ inode' s', st.write_at x w = .ok (w.size, st.wrote x inode' s') ∧
      WroteTo st x w inode inode' s' := by
  obtain ⟨hmax, hgrow⟩ := hw inode hi
  obtain ⟨inode', s', hrun, hlen, hK, hbytes, hrest⟩ :=
    inode_write_at_spec w.buffer h.ready (h.fileOk hi) hdeny hmax hgrow
  have hopen : st.open_inodes x ≠ none := by
    rw [hi]
    exact Option.some_ne_none inode
  obtain ⟨st', hstore, hinv, -, hothers⟩ := inode_write_spec h hopen hw
  -- the two calls write the same
  have hst' : st' = st.wrote x inode' s' := by
    unfold Store.inode_write at hstore
    rw [hi] at hstore
    dsimp only at hstore
    rw [hrun] at hstore
    exact (Except.ok.inj hstore).symm
  subst hst'
  refine ⟨inode', s', ?_, hinv, hK, hlen, hbytes, hrest, fun y hy hne => ?_⟩
  · unfold Store.write_at Store.deref
    rw [hi, ok_bind, hrun]
    rfl
  · obtain ⟨hkeeps, hdisk⟩ := hothers y hy.1 hne
    refine ⟨?_, hdisk hy.2⟩
    rw [open_data_eq hy.2, open_data_eq hy.2]
    exact hkeeps.data

end Writes

/-! ## `dir_add` -/

/-- There is room for one more entry: a free one, or the file can grow by one. -/
def AddRoom (s : FileSys) (d : InodeDisk) : Prop :=
  (∃ i < d.length / dir_entry_size, (entry_at s.disk d i).in_use = 0) ∨
    dir_entry_size * (d.length / dir_entry_size) + dir_entry_size ≤ 512 * MAX_BLOCKS ∧
      CanGrow s d.length (dir_entry_size * (d.length / dir_entry_size) + dir_entry_size)

/-- What a successful `dir_add` leaves: the directory `d` with one entry more. -/
structure Entered (st st' : Store) (d : ℕ) (name : Str) (x : ℕ) : Prop where
  inv : st'.Inv
  live : st'.live = st.live
  put : ∃ j, Put st.fs.disk st'.fs.disk (st.open_data d) (st'.open_data d) j (new_entry name x)
  isdir : (st'.open_data d).isdir = (st.open_data d).isdir
  bits : ∀ i, st.fs.free_map.bits i = true → st'.fs.free_map.bits i = true
  opened : ∀ y inode, st.open_inodes y = some inode →
    ∃ data, st'.open_inodes y = some { inode with data := data }
  closed : ∀ y, st.open_inodes y = none → st'.open_inodes y = none
  others : ∀ y, Node st y → y ≠ d → SameNode st st' y

section Adds

variable {st : Store} {d x : ℕ} {inode : Inode} {name : Str}

/-- **`dir_add`** of a name that is not there, where there is room for it. -/
theorem dir_add_spec (h : st.Inv) (hi : st.open_inodes d = some inode)
    (hdeny : inode.deny_write_cnt = 0) (hread : ReadOk st.fs inode.data) (hname : name ≠ [])
    (hlen : name.length ≤ NAME_MAX) (hnew : find_entry st.fs.disk inode.data name = none)
    (hroom : AddRoom st.fs inode.data) :
    ∃ st', dir_add st d name x = .ok (true, st') ∧ Entered st st' d name x := by
  have hd0 : d ≠ FREE_MAP_SECTOR := (h.opened d inode hi).2.2.1
  have hsize : (new_entry name x).bytes.length = dir_entry_size := DirMap.new_entry_size hlen
  have hlookup : lookup st d name = .ok none := by rw [hread.lookup hi, hnew]
  obtain ⟨j, hj, -, hslot, hfree, hused⟩ := hread.slot_loop (entry_rounds inode) 0 (Nat.zero_add _)
    (Nat.succ_pos _)
  rw [Nat.mul_zero] at hslot
  set w : WriteReq := ⟨(new_entry name x).image, dir_entry_size, dir_entry_size * j⟩ with hw
  have hok : StoreOk st (.write d w) := by
    intro i hi'
    obtain rfl := Option.some.inj (hi.symm.trans hi')
    have hmul : dir_entry_size * j ≤ dir_entry_size * (inode.data.length / dir_entry_size) :=
      Nat.mul_le_mul_left _ hj
    have hdiv := Nat.mul_div_le inode.data.length dir_entry_size
    by_cases hlt : j < inode.data.length / dir_entry_size
    · -- a free entry lies inside the file
      have hfit : w.eof ≤ inode.data.length := entry_lt_iff.mp hlt
      have hmax := hread.last.max
      refine ⟨by omega, fun hneed => ?_⟩
      rw [needs_blocks_iff] at hneed
      unfold bytes_to_sectors at hneed
      omega
    · obtain rfl : j = inode.data.length / dir_entry_size := by omega
      rcases hroom with ⟨i, hi, hzero⟩ | hgrow
      · exact absurd hzero (hused i (Nat.zero_le i) hi)
      · exact hgrow
  obtain ⟨inode', s', hrun, hW⟩ := write_at_spec h hi hdeny hok
  have hself : (st.wrote d inode' s').open_inodes d = some inode' := set_inode_self _
  have hold : st.open_data d = inode.data := by rw [Store.open_data, hi]
  have hdata : (st.wrote d inode' s').open_data d = inode'.data := by
    rw [Store.open_data, hself]
  refine ⟨st.wrote d inode' s', ?_, hW.inv, rfl, ⟨j, ?_⟩, ?_, hW.kept.bits, fun y i hy => ?_,
    fun y hy => ?_, hW.others⟩
  · unfold dir_add
    rw [if_neg (by rintro (rfl | hlong)
                   · exact hname rfl
                   · omega), hlookup, ok_bind]
    dsimp only
    rw [deref_eq_ok.mpr hi, ok_bind, hslot, ok_bind, hrun, ok_bind]
    simp [hw]
  · rw [hold, hdata]
    refine ⟨hj, hfree, hW.length, entry_at_written hsize hW.bytes, fun i hilt hij => ?_⟩
    have hfit := entry_lt_iff.mp hilt
    refine entry_at_congr fun k hk => hW.rest _ (by omega) ?_
    have heof : w.eof = dir_entry_size * j + dir_entry_size := rfl
    have hofs : w.offset = dir_entry_size * j := rfl
    unfold dir_entry_size at hk hij heof hofs ⊢
    omega
  · rw [hold, hdata, hW.kept.header.isdir]
  · by_cases hyd : y = d
    · rw [hyd] at hy ⊢
      obtain rfl := Option.some.inj (hi.symm.trans hy)
      exact ⟨inode'.data, by rw [hself, ← hW.kept.rest]⟩
    · exact ⟨i.data, (set_inode_of_ne (t := st) _ hyd).trans hy⟩
  · have hyd : y ≠ d := by
      rintro rfl
      rw [hi] at hy
      cases hy
    exact (set_inode_of_ne (t := st) _ hyd).trans hy

end Adds

end Pintos.Filesys
