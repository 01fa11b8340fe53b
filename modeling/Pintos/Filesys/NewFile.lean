/-
`filesys_create` where there is room: a new file, and its entry in the directory.

The call takes a sector, lays out the file, and enters it in the directory its directory part leads
to (`NewFile`). The other names stand for what they stood for, so a path that was resolved still
is, by `dir_lookup` as well (`NewFile.leads`).
-/
import Pintos.Filesys.AbsolutePaths
import Pintos.Filesys.Placement

set_option autoImplicit false

namespace Pintos.Filesys

open Pintos.Kernel WordImage

/-- Room for a file of `length` bytes and its entry in the directory `d`: one that is not in use, or
sectors the directory can grow by, between lengths `add_blocks` can handle. -/
structure CreateSpace (s : FileSys) (length : ℕ) (d : InodeDisk) : Prop where
  max : bytes_to_sectors length ≤ MAX_BLOCKS
  file : 1 + (slotsFrom (bytes_to_sectors length) 0).length ≤ (free_sectors s).card
  entry : HasSlot s d ∨ add_eof d ≤ 512 * MAX_BLOCKS ∧ (needs_blocks d.length (add_eof d) →
    GrowthOk d.length (add_eof d) ∧ 1 + (slotsFrom (bytes_to_sectors length) 0).length +
      (grown_slots d.length (add_eof d)).length ≤ (free_sectors s).card)

/-- The store with the new file `x`, called `name` in the directory `d`. -/
structure NewFile (st st' : Store) (d : ℕ) (name : Str) (x : ℕ) : Prop where
  inv : st'.Inv
  live : st'.live = x :: st.live
  fresh : x ∉ st.live
  boot : x ≠ FREE_MAP_SECTOR
  free : st.fs.free_map.bits x = false
  bits : ∀ z, st.fs.free_map.bits z = true → st'.fs.free_map.bits z = true
  isdir : ∀ y, Node st y → (st'.open_data y).isdir = (st.open_data y).isdir
  new : entry_sector st d name = none
  entry : ∀ n, entry_sector st' d n = if n = name then some x else entry_sector st d n
  others : ∀ y, Node st y → y ≠ d → ∀ n, entry_sector st' y n = entry_sector st y n
  data : ∀ y, Node st y → y ≠ d → st'.open_data y = st.open_data y
  opened : ∀ y inode, st.open_inodes y = some inode →
    ∃ i, st'.open_inodes y = some i ∧ i.removed = inode.removed
  behind : 122 < (st'.open_data x).blocks → (st'.open_data x).blocks < 250 →
    word (st'.fs.disk (st'.open_data x).indirect_block) ((st'.open_data x).blocks - 122) = 0

section Making

variable {st st' : Store} {d n : ℕ} {ip : Inode} {name : Str}

/-- A `dir_add` that succeeds has not found the name. -/
theorem dir_add_new {x : ℕ} (hrun : dir_add st d name x = .ok (true, st')) :
    name ≠ [] ∧ lookup st d name = .ok none := by
  unfold dir_add at hrun
  by_cases hname : name = [] ∨ NAME_MAX < name.length
  · rw [if_pos hname] at hrun
    cases (Prod.mk.inj (Except.ok.inj hrun)).1
  rw [if_neg hname] at hrun
  obtain ⟨r, hlookup, hrun⟩ := bind_eq_ok hrun
  cases r with
  | none => exact ⟨fun hnil => hname (Or.inl hnil), hlookup⟩
  | some e => cases (Prod.mk.inj (Except.ok.inj hrun)).1

/-- **`filesys_create` in the directory**, where there is room. -/
theorem create_in_new_file (h : st.Inv) (hi : st.open_inodes d = some ip)
    (hread : ReadOk st.fs ip.data) (hwhole : dir_entry_size ∣ ip.data.length)
    (hlen : name.length ≤ NAME_MAX) (hzero : (0 : UInt8) ∉ name)
    (hspace : CreateSpace st.fs n ip.data) (hrun : create_in st (some d) name n = .ok (true, st')) :
    ∃ x, NewFile st st' d name x := by
  obtain ⟨-, hdlive, hd0, -⟩ := h.opened d ip hi
  have hdnode : Node st d := ⟨hdlive, hd0⟩
  have hddata : st.open_data d = ip.data := by rw [Store.open_data, hi]
  have hroom := hspace.file
  obtain ⟨x, s₁, htake, hT⟩ := take_sector_spec h.ready.ok (by omega)
  have hleft := hT.free_sectors_card
  have hused : s₁.free_map.bits x = true := hT.bits.mpr (Or.inr rfl)
  have hne : ∀ z, st.fs.free_map.bits z = true → z ≠ x := by
    rintro z hz rfl
    rw [hT.free] at hz
    cases hz
  have hx0 : x ≠ FREE_MAP_SECTOR := (hne _ h.ready.boot).symm
  unfold create_in at hrun
  dsimp only at hrun
  rw [free_map_allocate_one (by omega), htake, ok_bind] at hrun
  dsimp only at hrun
  obtain ⟨⟨made, s₂⟩, hmade, hrun⟩ := bind_eq_ok hrun
  -- the file, laid out
  rcases inode_create_placed n false (hT.ready h.ready) hused hx0
    (fun f hf τ hτ => hT.file_slot_ne h.ready.ok hf hτ) hspace.max (by omega) with
    herr | ⟨data, s, hcreate, hP, hdlen, hflag, hcap, hfree, htail⟩
  · rw [hmade] at herr
    cases herr
  obtain ⟨rfl, rfl⟩ := Prod.mk.inj (Except.ok.inj (hmade.symm.trans hcreate))
  have hblocks : data.blocks = bytes_to_sectors n := by rw [InodeDisk.blocks, hdlen]
  have hA := h.added hT hP (by rw [hblocks]; exact hspace.max)
  set st₁ := st.add_inode s₂ x with hst₁
  dsimp only at hrun
  rw [if_pos rfl] at hrun
  obtain ⟨⟨added, st₂⟩, hadd, hrun⟩ := bind_eq_ok hrun
  have hadded : added = true := by
    by_contra hfalse
    rw [if_neg hfalse] at hrun
    obtain ⟨s₃, -, hrun⟩ := bind_eq_ok hrun
    cases (Prod.mk.inj (Except.ok.inj hrun)).1
  rw [if_pos hadded] at hrun
  obtain ⟨-, rfl⟩ := Prod.mk.inj (Except.ok.inj hrun)
  rw [hadded] at hadd
  change dir_add st₁ d name x = .ok (true, st₂) at hadd
  -- the directory as the new file leaves it
  have hnode₁ : ∀ y, Node st y → Node st₁ y := fun y hy => ⟨List.mem_cons_of_mem _ hy.1, hy.2⟩
  have hx₁ : Node st₁ x := ⟨List.mem_cons_self, hx0⟩
  have hfresh : x ∉ st.live := fun hx => hne x (h.inode x hx).used rfl
  have hxd : x ≠ d := fun heq => hfresh (heq ▸ hdlive)
  have hi₁ : st₁.open_inodes d = some ip := hi
  have hddata₁ : st₁.open_data d = ip.data := by rw [Store.open_data, hi₁]
  have hS := hA.same_node h hdnode
  have hread₁ : ReadOk st₁.fs ip.data :=
    hS.readOk hA.inv hdnode (hnode₁ d hdnode).1 hi hi₁ (hcap.trans hT.capacity) hread hwhole
  obtain ⟨hname, hlookup⟩ := dir_add_new hadd
  have hallow : ip.deny_write_cnt = 0 := by
    by_contra hdeny
    exact dir_add_allowed hadd ⟨ip, hi₁, hdeny⟩
  have hreadable : Readable st₁.fs ip.data := by
    rw [← hddata₁]
    exact hA.inv.readable (hnode₁ d hdnode)
  have hfind₁ : find_entry st₁.fs.disk ip.data name = none :=
    (hreadable.lookup_returns hi₁ hlookup).symm
  have hroom₁ : AddRoom st₁.fs ip.data := by
    rcases hspace.entry with ⟨i, hilt, huse⟩ | ⟨hmax, hgrow⟩
    · refine Or.inl ⟨i, hilt, ?_⟩
      rw [← hddata] at hilt huse ⊢
      rw [hS.entry_at hdnode hilt, huse]
    · refine Or.inr ⟨hmax, fun hneed => ?_⟩
      obtain ⟨hok, hcard⟩ := hgrow hneed
      refine ⟨hok, ?_⟩
      change _ ≤ (free_sectors s₂).card
      unfold add_eof at hcard
      omega
  obtain ⟨st₃, hadd', hE⟩ := dir_add_spec (x := x) hA.inv hi₁ hallow hread₁ hname hlen hfind₁ hroom₁
  obtain ⟨-, rfl⟩ := Prod.mk.inj (Except.ok.inj (hadd.symm.trans hadd'))
  have hnew₁ : entry_sector st₁ d name = none := by
    unfold entry_sector
    rw [hddata₁, hfind₁, Option.map_none]
  have hSx := hE.others x hx₁ hxd
  have hdata : st₁.open_data x = data := by rw [open_data_eq hx0, hA.data]
  refine ⟨x, hE.inv, hE.live, hfresh, hx0, hT.free, fun z hz => hE.bits z (hA.bits z hz),
    fun y hy => ?_, ?_, fun m => ?_, fun y hy hyd m => ?_, fun y hy hyd => ?_,
    fun y inode hy => ?_, ?_⟩
  · by_cases hyd : y = d
    · rw [hyd, hE.isdir, hS.data]
    · rw [(hE.others y (hnode₁ y hy) hyd).data, (hA.same_node h hy).data]
  · rw [← hS.entry_sector hdnode, hnew₁]
  · rw [hE.entry_sector (hA.inv.sector_lt hx₁.1) hlen hzero hnew₁, hS.entry_sector hdnode]
  · rw [(hE.others y (hnode₁ y hy) hyd).entry_sector (hnode₁ y hy),
      (hA.same_node h hy).entry_sector hy]
  · rw [(hE.others y (hnode₁ y hy) hyd).data, (hA.same_node h hy).data]
  · obtain ⟨data', hopen⟩ := hE.opened y inode hy
    exact ⟨_, hopen, rfl⟩
  · rw [hSx.data, hdata]
    intro h122 h250
    have hsec : data.indirect_block ∈ st₁.sectors x :=
      Or.inr ⟨.indirect, by rwa [hA.data], by rw [hA.data]; rfl⟩
    rw [hSx.disk _ hsec]
    exact htail h122 h250

end Making

/-! ## Walks in the new store -/

section Walking

variable {st st' : Store} {d x y z : ℕ} {name c : Str}

theorem Store.Inv.reads (h : st.Inv) (hy : Node st y) : Reads st y := by
  have hlt := h.ready.ok.disk.bits _ (h.inode y hy.1).used
  exact Or.inr ⟨hlt, hlt.trans_le h.ready.ok.disk.capacity⟩

/-- A name that is there is found, whatever stands behind the end of the directory. -/
theorem Store.Inv.peek_found (h : st.Inv) (hy : Node st y) (hz : entry_sector st y c = some z) :
    ∃ e ofs, peek st y c = .ok (some (e, ofs)) ∧ e.inode_sector = z := by
  obtain ⟨⟨e, ofs⟩, hfind, rfl⟩ := Option.map_eq_some_iff.mp hz
  refine ⟨e, ofs, ?_, rfl⟩
  rw [← find_from_zero] at hfind
  exact (@Readable.lookup_loop _ ⟨y, 1, false, 0, st.open_data y⟩ (h.readable hy) c _ 0
    (Nat.zero_add _)).2 _ hfind

theorem NewFile.node (h : NewFile st st' d name x) (hy : Node st y) : Node st' y :=
  ⟨by rw [h.live]; exact List.mem_cons_of_mem _ hy.1, hy.2⟩

theorem NewFile.self (h : NewFile st st' d name x) : Node st' x :=
  ⟨by rw [h.live]; exact List.mem_cons_self, h.boot⟩

/-- A name stands for what it stood for. -/
theorem NewFile.entry_sector (h : NewFile st st' d name x) (hy : Node st y)
    (hz : entry_sector st y c = some z) : entry_sector st' y c = some z := by
  by_cases hyd : y = d
  · subst hyd
    have hne : c ≠ name := by
      rintro rfl
      rw [h.new] at hz
      cases hz
    rw [h.entry, if_neg hne, hz]
  · rw [h.others y hy hyd, hz]

/-- One step of `dir_lookup`. -/
theorem NewFile.leads_cons (h : NewFile st st' d name x) {cs : List Str} {r : Option ℕ}
    (hc : Moves c) (hy : Node st' y) (hz : Filesys.entry_sector st' y c = some z) (hzn : Node st' z)
    (hrest : Leads st' z cs r) : Leads st' y (c :: cs) r := by
  obtain ⟨e, ofs, hpeek, he⟩ := h.inv.peek_found hy hz
  unfold Leads
  rw [if_pos hc]
  exact Or.inr ⟨e, ofs, hpeek, he ▸ h.inv.reads hzn, he ▸ hrest⟩

/-- What a walk passes at that step. -/
theorem NewFile.passes_cons (h : NewFile st st' d name x) {cs : List Str} (hc : Moves c)
    (hy : Node st' y) (hz : Filesys.entry_sector st' y c = some z) (hzn : Node st' z)
    (hrest : ∀ w, Passes st' z cs w → Node st' w) : ∀ w, Passes st' y (c :: cs) w → Node st' w := by
  obtain ⟨e, ofs, hpeek, he⟩ := h.inv.peek_found hy hz
  intro w hw
  unfold Passes at hw
  rw [if_pos hc] at hw
  obtain ⟨e', ofs', hpeek', hw⟩ := hw
  obtain ⟨rfl, rfl⟩ := Prod.mk.inj (Option.some.inj (Except.ok.inj (hpeek.symm.trans hpeek')))
  rw [he] at hw
  exact hw.elim (fun hzw => hzw ▸ hzn) (hrest w)

/-- **A path that was resolved** leads to the same inode, and past inodes that were there. -/
theorem NewFile.leads (h : NewFile st st' d name x) (ht : TreeOk st) (cs : List Str) :
    ∀ {y z : ℕ}, Node st y → (st.open_data y).isdir = true → resolve st y cs = some z →
      Leads st' y cs (some z) ∧ ∀ w, Passes st' y cs w → Node st' w := by
  induction cs with
  | nil => exact fun _ _ hz => ⟨hz.symm, fun _ hw => hw.elim⟩
  | cons c cs ih =>
    intro y z hy hdir hz
    by_cases hc : Moves c
    swap
    · -- an empty component or `.`: the rest is resolved from the same directory
      unfold Leads Passes
      simp only [if_neg hc]
      refine ih hy hdir ?_
      cases cs with
      | nil =>
        rw [← hz]
        exact (follow_of_stay hc).symm
      | cons c' cs => simpa only [resolve, follow_of_stay hc, if_pos hdir] using hz
    cases cs with
    | nil =>
      have hnode := h.node (ht.node_follow hy hdir hz)
      rw [resolve, follow, if_pos hc] at hz
      have hentry := h.entry_sector hy hz
      exact ⟨h.leads_cons hc (h.node hy) hentry hnode rfl,
        h.passes_cons hc (h.node hy) hentry hnode fun w hw => hw.elim⟩
    | cons c' cs =>
      unfold resolve at hz
      cases hw : follow st y c with
      | none =>
        rw [hw] at hz
        cases hz
      | some w =>
        have hnode := ht.node_follow hy hdir hw
        rw [hw] at hz
        dsimp only at hz
        split_ifs at hz with hwdir
        rw [follow, if_pos hc] at hw
        have hentry := h.entry_sector hy hw
        obtain ⟨hleads, hpass⟩ := ih hnode hwdir hz
        exact ⟨h.leads_cons hc (h.node hy) hentry (h.node hnode) hleads,
          h.passes_cons hc (h.node hy) hentry (h.node hnode) hpass⟩

/-- The new name leads to the new file. -/
theorem NewFile.leads_new (h : NewFile st st' d name x) (hd : Node st d) (hname : Moves name) :
    Leads st' d [name] (some x) :=
  h.leads_cons hname (h.node hd) (by rw [h.entry, if_pos rfl]) h.self rfl

/-- Where the components end, if everything they name is a directory. -/
theorem Dirs.isdir (cs : List Str) : ∀ {x p : ℕ}, Dirs st x cs → (st.open_data x).isdir = true →
    resolve st x cs = some p → (st.open_data p).isdir = true := by
  induction cs with
  | nil =>
    intro x p _ hdir hp
    exact Option.some.inj hp ▸ hdir
  | cons c cs ih =>
    intro x p hdirs hdir hp
    cases cs with
    | nil => exact (hdirs p hp).1
    | cons c' cs =>
      unfold resolve at hp
      cases hy : follow st x c with
      | none =>
        rw [hy] at hp
        cases hp
      | some y =>
        rw [hy] at hp
        dsimp only at hp
        split_ifs at hp with hydir
        exact ih (hdirs y hy).2 hydir hp

end Walking

/-! ## `filesys_create`, from the path on -/

/-- A directory tree, from a root directory on. -/
structure Rooted (st : Store) : Prop extends DirTree st where
  root : Node st ROOT_DIR_SECTOR
  root_isdir : (st.open_data ROOT_DIR_SECTOR).isdir = true

/-- The directory from which a path is followed. -/
def start_dir (c : ℕ) (name : Str) : ℕ := if is_absolute name then ROOT_DIR_SECTOR else c

section Calls

variable {st st' st₁ : Store} {c d x n : ℕ} {name path file : Str}

theorem Rooted.start (h : Rooted st) (hc : OpenDir st c) (name : Str) :
    Node st (start_dir c name) ∧ (st.open_data (start_dir c name)).isdir = true := by
  unfold start_dir
  by_cases habs : is_absolute name
  · rw [if_pos habs]
    exact ⟨h.root, h.root_isdir⟩
  · rw [if_neg habs]
    exact ⟨hc.node, hc.isdir⟩

/-- Where the directory part leads, if everything on the way is a directory. -/
theorem DirPart.resolves (hpart : DirPart st (some c) name path d) (h : Rooted st)
    (hc : OpenDir st c) (hdirs : Dirs st (start_dir c name) (components path)) :
    path = [] ∧ d = c ∨ path ≠ [] ∧ looked_up path (some d) = .inode d ∧
      resolve st (start_dir c name) (components path) = some d := by
  unfold DirPart at hpart
  dsimp only at hpart
  by_cases hpath : path = []
  · rw [if_pos hpath] at hpart
    exact Or.inl ⟨hpath, hpart⟩
  · rw [if_neg hpath] at hpart
    obtain ⟨hnode, hdir⟩ := h.start hc name
    exact Or.inr ⟨hpath, hpart.1,
      ((h.tree.leads_iff _ hnode hdir hdirs.file_before _).mp hpart.2).symm⟩

/-- It is a directory of the tree. -/
theorem DirPart.node (hpart : DirPart st (some c) name path d) (h : Rooted st)
    (hc : OpenDir st c) (hdirs : Dirs st (start_dir c name) (components path)) :
    Node st d ∧ (st.open_data d).isdir = true := by
  rcases hpart.resolves h hc hdirs with ⟨-, rfl⟩ | ⟨-, -, hresolve⟩
  · exact ⟨hc.node, hc.isdir⟩
  · obtain ⟨hnode, hdir⟩ := h.start hc name
    exact ⟨h.tree.resolve_node _ hnode hdir hresolve, hdirs.isdir _ hdir hresolve⟩

/-- The lookup of the directory part stays within the tree. -/
theorem create_dir_within (hc : st.open_inodes c ≠ none) (hcn : Node st c)
    (hroot : Reads st ROOT_DIR_SECTOR) (hrootn : Node st ROOT_DIR_SECTOR)
    (hpass : ∀ y, Passes st (start_dir c name) (components path) y → Node st y)
    {dir : Option ℕ} (hrun : create_dir st c name path = .ok (dir, st')) : Within st st' := by
  unfold create_dir at hrun
  unfold start_dir at hpass
  obtain ⟨⟨b, v, st₂⟩, hlookup, hrun⟩ := bind_eq_ok hrun
  obtain ⟨dir', -, hrun⟩ := bind_eq_ok hrun
  obtain ⟨-, rfl⟩ := Prod.mk.inj (Except.ok.inj hrun)
  by_cases habs : is_absolute name
  · rw [if_pos habs] at hlookup hpass
    obtain ⟨st₃, hrun₃, hlookup⟩ := bind_eq_ok hlookup
    obtain ⟨st₄, hrun₄, hop, hopen⟩ := inode_open_opened hroot
    obtain rfl := Except.ok.inj (hrun₃.symm.trans hrun₄)
    exact dir_lookup_within_of_passes hop (inode_open_within (Within.refl st) hrootn hrun₃) hrootn
      hopen hpass hlookup
  · rw [if_neg habs] at hlookup hpass
    exact dir_lookup_within_of_passes (Opened.refl st) (Within.refl st) hcn hc hpass hlookup

/-- Reference counts are not part of what a new file is. -/
theorem NewFile.of_raised {s : Store} (h : NewFile s st' d name x) (hr : Raised st s) :
    NewFile st st' d name x := by
  have hsector : ∀ y n, Filesys.entry_sector s y n = Filesys.entry_sector st y n := by
    intro y n
    unfold Filesys.entry_sector
    rw [hr.fs, hr.open_data]
  have hnode : ∀ y, Node st y → Node s y := fun y hy => ⟨hr.live ▸ hy.1, hy.2⟩
  refine ⟨h.inv, by rw [h.live, hr.live], hr.live ▸ h.fresh, h.boot, by rw [← hr.fs, h.free],
    fun z hz => h.bits z (by rwa [hr.fs]), fun y hy => ?_, by rw [← hsector, h.new], fun n => ?_,
    fun y hy hne n => ?_, fun y hy hne => ?_, fun y inode hy => ?_, h.behind⟩
  · rw [h.isdir y (hnode y hy), hr.open_data]
  · rw [h.entry, hsector]
  · rw [h.others y (hnode y hy) hne, hsector]
  · rw [h.data y (hnode y hy) hne, hr.open_data]
  · obtain ⟨m, -, hs⟩ := hr.kept y inode hy
    obtain ⟨i, hi, hremoved⟩ := h.opened y _ hs
    exact ⟨i, hi, hremoved⟩

/-- The new file, made where a walk has led. -/
theorem Rooted.create_in_new_file (h : Rooted st) (hraised : Raised st st')
    (hwithin : Within st st') (hd : Node st d) (hdir : (st.open_data d).isdir = true)
    (hopen : st'.open_inodes d ≠ none) (hlen : file.length ≤ NAME_MAX)
    (hzero : (0 : UInt8) ∉ file) (hspace : CreateSpace st.fs n (st.open_data d))
    (hrun : create_in st' (some d) file n = .ok (true, st₁)) : ∃ x, NewFile st st₁ d file x := by
  obtain ⟨ip, hi⟩ := Option.ne_none_iff_exists'.mp hopen
  have hdata : ip.data = st.open_data d := by
    have hsame := hraised.open_data d
    rwa [Store.open_data, hi] at hsame
  obtain ⟨x, hN⟩ := Filesys.create_in_new_file (h.inv.raised hraised hwithin) hi
    (by rw [hraised.fs, hdata]; exact (h.tree.read d hd.1 hd.2).2)
    (by rw [hdata]; exact h.whole d hd hdir) hlen hzero
    (by rw [hraised.fs, hdata]; exact hspace) hrun
  exact ⟨x, hN.of_raised hraised⟩

/-- **`filesys_create`** of a path whose directory part leads through directories. -/
theorem filesys_create_new_file (h : Rooted st) (hc : OpenDir st c)
    (hparse : parse_path name = .ok (path, file)) (hzero : (0 : UInt8) ∉ file)
    (hdirs : Dirs st (start_dir c name) (components path))
    (hspace : ∀ d, DirPart st (some c) name path d → CreateSpace st.fs n (st.open_data d))
    (hrun : filesys_create st (some c) name n = .ok (true, st₁)) :
    ¬ Gone st c ∧ ∃ d x, DirPart st (some c) name path d ∧ NewFile st st₁ d file x := by
  have hopen : ∀ c', some c = some c' → st.open_inodes c' ≠ none := by
    intro c' hc'
    obtain rfl := Option.some.inj hc'
    exact hc.opened
  rcases filesys_create_result h.inv hopen hrun with ⟨hfalse, -⟩ | ⟨path', file', d, st₂, hparse',
    hgone, hreached, hrun⟩
  · cases hfalse
  obtain ⟨rfl, rfl⟩ := Prod.mk.inj (Except.ok.inj (hparse'.symm.trans hparse))
  have hpart := hreached.part h.inv hopen
  have hraised := hreached.raised h.inv hopen
  obtain ⟨hnode, hisdir⟩ := hpart.node h hc hdirs
  obtain ⟨hstart, hstartdir⟩ := h.start hc name
  have hwithin := create_dir_within hc.opened hc.node h.inv.reads_root h.root
    (fun y => h.tree.passes_node _ hstart hstartdir hdirs.file_before) hreached
  obtain ⟨st₃, hrun₃, -, hopen₃⟩ := create_dir_reaches hc.opened h.inv.reads_root hpart
  obtain ⟨-, rfl⟩ := Prod.mk.inj (Except.ok.inj (hrun₃.symm.trans hreached))
  obtain ⟨x, hN⟩ := h.create_in_new_file hraised hwithin hnode hisdir hopen₃
    (parse_path_short hparse) hzero (hspace d hpart) hrun
  exact ⟨hgone c rfl, d, x, hpart, hN⟩

/-- A thread without a current directory makes its files in the root. -/
theorem filesys_create_new_root_file (h : Rooted st) (hparse : parse_path name = .ok (path, file))
    (hzero : (0 : UInt8) ∉ file) (hspace : CreateSpace st.fs n (st.open_data ROOT_DIR_SECTOR))
    (hrun : filesys_create st none name n = .ok (true, st₁)) :
    ∃ x, NewFile st st₁ ROOT_DIR_SECTOR file x := by
  obtain ⟨st', hroot, -, hopen⟩ := inode_open_opened h.inv.reads_root
  rw [filesys_create, hparse, ok_bind, dir_open_root, hroot, ok_bind] at hrun
  exact h.create_in_new_file (inode_open_raised hroot)
    (inode_open_within (Within.refl st) h.root hroot) h.root h.root_isdir hopen
    (parse_path_short hparse) hzero hspace hrun

/-! ## The path again, in the new store -/

/-- `filesys_remove` looks a directory part up as `filesys_create` does. -/
theorem remove_dir_eq (hpath : path ≠ []) :
    remove_dir st c name path = create_dir st c name path := by
  unfold remove_dir create_dir
  rw [if_neg hpath]

/-- What a lookup of the directory part leaves. -/
structure Arrived (st st' : Store) (d : ℕ) : Prop where
  raised : Raised st st'
  within : Within st st'
  opened : Opened st st'
  open_dir : st'.open_inodes d ≠ none

/-- An empty directory part: the root of an absolute path, or the current directory. -/
theorem remove_dir_nil (hroot : Node st ROOT_DIR_SECTOR) (hreads : Reads st ROOT_DIR_SECTOR)
    (hc : st.open_inodes c ≠ none) :
    ∃ st', remove_dir st c name [] = .ok (some (start_dir c name), st') ∧
      Arrived st st' (start_dir c name) := by
  unfold remove_dir dir_open_root start_dir
  rw [if_pos rfl]
  by_cases habs : is_absolute name
  · obtain ⟨st', hrun, hop, hopen⟩ := inode_open_opened hreads
    rw [if_pos habs, if_pos habs, hrun]
    exact ⟨st', rfl, inode_open_raised hrun, inode_open_within (Within.refl st) hroot hrun, hop,
      hopen⟩
  · rw [if_neg habs, if_neg habs]
    exact ⟨st, rfl, Raised.refl st, Within.refl st, Opened.refl st, hc⟩

/-- **The directory part, looked up again**, leads where it led, if it is not empty. -/
theorem NewFile.remove_dir {y : ℕ} (hN : NewFile st st₁ y file x) (h : Rooted st)
    (hc : OpenDir st c) (hdirs : Dirs st (start_dir c name) (components path))
    (hpart : DirPart st (some c) name path d) :
    ∃ st₂, Filesys.remove_dir st₁ c name path =
        .ok (some (if path = [] then start_dir c name else d), st₂) ∧
      Arrived st₁ st₂ (if path = [] then start_dir c name else d) := by
  obtain ⟨inode, hinode⟩ := Option.ne_none_iff_exists'.mp hc.opened
  obtain ⟨i, hi, -⟩ := hN.opened c inode hinode
  have hc₁ : st₁.open_inodes c ≠ none := by
    rw [hi]
    exact Option.some_ne_none i
  have hroot := hN.node h.root
  rcases hpart.resolves h hc hdirs with ⟨rfl, -⟩ | ⟨hpath, hvar, hresolve⟩
  · rw [if_pos rfl]
    exact remove_dir_nil hroot hN.inv.reads_root hc₁
  · obtain ⟨hnode, hdir⟩ := h.start hc name
    obtain ⟨hleads, hpass⟩ := hN.leads h.tree _ hnode hdir hresolve
    rw [if_neg hpath, remove_dir_eq hpath]
    have hpart₁ : DirPart st₁ (some c) name path d := by
      unfold DirPart
      dsimp only
      rw [if_neg hpath]
      exact ⟨hvar, hleads⟩
    obtain ⟨st₂, hrun, hop, hopen⟩ := create_dir_reaches hc₁ hN.inv.reads_root hpart₁
    exact ⟨st₂, hrun, create_dir_raised hc₁ hN.inv.reads_root hrun,
      create_dir_within hc₁ (hN.node hc.node) hN.inv.reads_root hroot hpass hrun, hop, hopen⟩

end Calls

/-! ## The small tree with two open directories -/

theorem two_dirs_rooted : Rooted two_dirs :=
  ⟨two_dirs_tree, two_dirs_root.node, two_dirs_root.isdir⟩

/-- Both of its directories have room for a file of one block. -/
theorem two_dirs_space : CreateSpace two_dirs.fs 512 (two_dirs.open_data 1) ∧
    CreateSpace two_dirs.fs 512 (two_dirs.open_data 5) := by
  constructor
  · refine ⟨by decide, by decide +kernel, Or.inr ⟨by decide +kernel, fun hneed => ?_⟩⟩
    exact absurd hneed (by decide +kernel)
  · refine ⟨by decide, by decide +kernel, Or.inr ⟨by decide +kernel, fun hneed => ?_⟩⟩
    exact absurd hneed (by decide +kernel)

/-- A call that is known by its result. -/
theorem exists_of_created {r : Res (Bool × Store)} (h : r.map Prod.fst = .ok true) :
    ∃ st₁, r = .ok (true, st₁) := by
  cases r with
  | error f => cases h
  | ok q =>
    obtain ⟨b, st₁⟩ := q
    obtain rfl : b = true := Except.ok.inj h
    exact ⟨st₁, rfl⟩

end Pintos.Filesys
