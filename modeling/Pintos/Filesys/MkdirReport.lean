/-
What `mkdir` reports, against what it has done.

`mkdir` answers false where one of its two lookups says so, and true in every other case. That
is the truth where the path leads somewhere, where its directory part does not, and where
everything behind the lookups goes well: the last component fits the buffer of `parse_path`,
the directory part leads to the parent, and the disk and the parent have room. On a full disk
it still answers true.
-/
import Pintos.Filesys.MakeDir

set_option autoImplicit false

namespace Pintos.Filesys

open Pintos.Kernel WordImage

/-! ## Walks over the components of a path -/

/-- Whatever the components name on the way is a directory. -/
def Dirs (st : Store) : ℕ → List Str → Prop
  | _, [] => True
  | x, c :: cs => ∀ y, follow st x c = some y → (st.open_data y).isdir = true ∧ Dirs st y cs

section Components

variable {st : Store}

/-- The empty components are passed over. -/
theorem Leads.filter (cs : List Str) : ∀ {x : ℕ} {r : Option ℕ},
    Leads st x (cs.filter fun c => c ≠ []) r ↔ Leads st x cs r := by
  induction cs with
  | nil => exact Iff.rfl
  | cons c cs ih =>
    intro x r
    by_cases hc : c = []
    · rw [List.filter_cons_of_neg (by simpa using hc), ih]
      have hstay : ¬ Moves c := fun hm => hm.1 hc
      conv_rhs => rw [Leads, if_neg hstay]
    · rw [List.filter_cons_of_pos (by simpa using hc)]
      unfold Leads
      simp only [ih]

/-- A walk goes on from where a first part of it has led. -/
theorem Leads.append {l : List Str} : ∀ {x : ℕ} {r p : Option ℕ} {q : ℕ} (cs : List Str), p = some q →
    Leads st x l p → (Leads st x (l ++ cs) r ↔ Leads st q cs r) := by
  induction l with
  | nil =>
    intro x r p q cs hp h
    obtain rfl := Option.some.inj (hp.symm.trans h)
    exact Iff.rfl
  | cons c l ih =>
    intro x r p q cs hp h
    rw [List.cons_append]
    unfold Leads at h
    conv_lhs => rw [Leads]
    by_cases hc : Moves c
    swap
    · rw [if_neg hc] at h ⊢
      exact ih cs hp h
    rw [if_pos hc] at h ⊢
    rcases h with ⟨-, hnone⟩ | ⟨e, ofs, hpeek, hreads, hrest⟩
    · rw [hp] at hnone
      cases hnone
    rw [← ih cs hp hrest]
    constructor
    · rintro (⟨hnone, -⟩ | ⟨e', ofs', hpeek', -, hgo⟩)
      · rw [hpeek] at hnone
        cases hnone
      · obtain ⟨rfl, -⟩ := Prod.mk.inj (Option.some.inj (Except.ok.inj (hpeek.symm.trans hpeek')))
        exact hgo
    · exact fun hgo => Or.inr ⟨e, ofs, hpeek, hreads, hgo⟩

theorem Dirs.filter (cs : List Str) : ∀ {x : ℕ}, (st.open_data x).isdir = true →
    (Dirs st x (cs.filter fun c => c ≠ []) ↔ Dirs st x cs) := by
  induction cs with
  | nil => exact fun _ => Iff.rfl
  | cons c cs ih =>
    intro x hx
    by_cases hc : c = []
    · rw [List.filter_cons_of_neg (by simpa using hc), ih hx]
      have hstay : follow st x c = some x := follow_of_stay fun hm => hm.1 hc
      unfold Dirs
      constructor
      · intro hd y hy
        obtain rfl := Option.some.inj (hstay.symm.trans hy)
        exact ⟨hx, by cases cs with
          | nil => trivial
          | cons d cs => exact hd⟩
      · intro hall
        obtain ⟨-, hd⟩ := hall x hstay
        cases cs with
        | nil => trivial
        | cons d cs => exact hd
    · rw [List.filter_cons_of_pos (by simpa using hc)]
      unfold Dirs
      constructor
      · exact fun hall y hy => ⟨(hall y hy).1, (ih (hall y hy).1).mp (hall y hy).2⟩
      · exact fun hall y hy => ⟨(hall y hy).1, (ih (hall y hy).1).mpr (hall y hy).2⟩

/-- Such a walk comes by no regular file. -/
theorem Dirs.file_before (cs : List Str) : ∀ {x : ℕ}, Dirs st x cs → file_before st x cs = none := by
  induction cs with
  | nil => exact fun _ => rfl
  | cons c cs ih =>
    intro x h
    cases cs with
    | nil => rfl
    | cons d cs =>
      unfold Filesys.file_before
      cases hy : follow st x c with
      | none => rfl
      | some y =>
        obtain ⟨hdir, hrest⟩ := h y hy
        dsimp only
        rw [if_pos hdir]
        exact ih hrest

/-- The components of a path to a directory. -/
theorem resolve_dirs (cs : List Str) : ∀ {x p : ℕ}, resolve st x cs = some p →
    (st.open_data p).isdir = true → Dirs st x cs := by
  induction cs with
  | nil => exact fun _ _ => trivial
  | cons c cs ih =>
    intro x p h hp y hy
    cases cs with
    | nil =>
      obtain rfl := Option.some.inj (hy.symm.trans h)
      exact ⟨hp, trivial⟩
    | cons d cs =>
      unfold resolve at h
      rw [hy] at h
      dsimp only at h
      split_ifs at h with hdir
      exact ⟨hdir, ih h hp⟩

/-- A missing name behind it. -/
theorem Dirs.concat {t : Str} (cs : List Str) : ∀ {x p : ℕ}, resolve st x cs = some p →
    (st.open_data p).isdir = true → follow st p t = none → Dirs st x (cs ++ [t]) := by
  induction cs with
  | nil =>
    intro x p h _ ht y hy
    obtain rfl := Option.some.inj h
    rw [ht] at hy
    cases hy
  | cons c cs ih =>
    intro x p h hp ht y hy
    cases cs with
    | nil =>
      obtain rfl := Option.some.inj (hy.symm.trans h)
      refine ⟨hp, fun z hz => ?_⟩
      rw [ht] at hz
      cases hz
    | cons d cs =>
      unfold resolve at h
      rw [hy] at h
      dsimp only at h
      split_ifs at h with hdir
      exact ⟨hdir, ih h hp ht⟩

/-- One component more, from a directory on. -/
theorem resolve_concat {t : Str} (cs : List Str) : ∀ {x p : ℕ}, resolve st x cs = some p →
    (st.open_data p).isdir = true → resolve st x (cs ++ [t]) = follow st p t := by
  induction cs with
  | nil =>
    intro x p h _
    obtain rfl := Option.some.inj h
    rfl
  | cons c cs ih =>
    intro x p h hp
    cases cs with
    | nil =>
      have hc : follow st x c = some p := h
      rw [List.singleton_append]
      unfold resolve
      rw [hc]
      dsimp only
      rw [if_pos hp]
      rfl
    | cons d cs =>
      unfold resolve at h
      rw [List.cons_append, List.cons_append]
      unfold resolve
      cases hy : follow st x c with
      | none =>
        rw [hy] at h
        cases h
      | some y =>
        rw [hy] at h
        dsimp only at h ⊢
        split_ifs at h ⊢ with hdir
        exact ih h hp

theorem TreeOk.resolve_node (h : TreeOk st) (cs : List Str) : ∀ {x p : ℕ}, Node st x →
    (st.open_data x).isdir = true → resolve st x cs = some p → Node st p := by
  induction cs with
  | nil =>
    intro x p hx _ hp
    exact Option.some.inj hp ▸ hx
  | cons c cs ih =>
    intro x p hx hdir hp
    cases cs with
    | nil => exact h.node_follow hx hdir hp
    | cons d cs =>
      unfold resolve at hp
      cases hy : follow st x c with
      | none =>
        rw [hy] at hp
        cases hp
      | some y =>
        rw [hy] at hp
        dsimp only at hp
        split_ifs at hp with hydir
        exact ih (h.node_follow hx hdir hy) hydir hp

end Components

/-! ## The tree with the new directory -/

section Trees

variable {st st₁ st' : Store} {p x : ℕ} {name : Str}

/-- The counts of the inodes do not matter to what is in the tree. -/
theorem NewDir.of_raised (h : NewDir st₁ st' p name x) (hr : Raised st st₁) :
    NewDir st st' p name x := by
  have hsector : ∀ y n, entry_sector st₁ y n = entry_sector st y n := by
    intro y n
    unfold entry_sector
    rw [hr.fs, hr.open_data]
  have hnode : ∀ y, Node st y → Node st₁ y := fun y hy => ⟨hr.live ▸ hy.1, hy.2⟩
  refine ⟨h.inv, by rw [h.live, hr.live], hr.live ▸ h.fresh, h.boot, h.flag, fun y hy => ?_,
    fun n => ?_, h.self, fun y hy hne n => ?_⟩
  · rw [h.isdir y (hnode y hy), hr.open_data]
  · rw [h.parent, hsector]
  · rw [h.others y (hnode y hy) hne, hsector]

/-- A path that was resolved is resolved as before. -/
theorem NewDir.resolve (h : NewDir st st' p name x) (ht : TreeOk st)
    (hnew : entry_sector st p name = none) (cs : List Str) : ∀ {y z : ℕ}, Node st y →
    (st.open_data y).isdir = true → resolve st y cs = some z → resolve st' y cs = some z := by
  have hfollow : ∀ {y z : ℕ} {c : Str}, Node st y → follow st y c = some z →
      follow st' y c = some z := by
    intro y z c hy hz
    unfold follow at hz ⊢
    split_ifs at hz ⊢ with hc
    swap
    · exact hz
    by_cases hyp : y = p
    · rw [hyp] at hz ⊢
      have hcn : c ≠ name := by
        rintro rfl
        rw [hnew] at hz
        cases hz
      rw [h.parent, if_neg hcn, hz]
    · rw [h.others y hy hyp, hz]
  induction cs with
  | nil => exact fun _ _ hz => hz
  | cons c cs ih =>
    intro y z hy hdir hz
    cases cs with
    | nil => exact hfollow hy hz
    | cons d cs =>
      unfold Filesys.resolve at hz ⊢
      cases hw : follow st y c with
      | none =>
        rw [hw] at hz
        cases hz
      | some w =>
        rw [hw] at hz
        rw [hfollow hy hw]
        dsimp only at hz ⊢
        have hwnode := ht.node_follow hy hdir hw
        rw [h.isdir w hwnode]
        split_ifs at hz ⊢ with hwdir
        exact ih hwnode hwdir hz

end Trees

/-! ## What is promised -/

/-- What `mkdir` asks for: the path with the last component `last` is not there, the
components `init` before it lead to the directory `p`, the last one is no longer than a name
can be, and there is space. -/
structure Makeable (st : Store) (c : ℕ) (dir : Str) (init : List Str) (last : Str) (p : ℕ) :
    Prop where
  split : path_components dir = init ++ [last]
  missing : resolve st c (path_components dir) = none
  parent : resolve st c init = some p
  isdir : (st.open_data p).isdir = true
  length : last.length ≤ NAME_MAX
  space : MakeSpace st.fs (st.open_data p)

/-- `mkdir` should answer true. -/
def Allowed (st : Store) (c : ℕ) (dir : Str) : Prop := ∃ init last p, Makeable st c dir init last p

/-- The path is resolved to a new directory, which has no entry but `".."`, its parent. -/
def Made (st st' : Store) (c : ℕ) (dir : Str) : Prop :=
  ∃ init last p x, path_components dir = init ++ [last] ∧ resolve st c init = some p ∧
    resolve st' c (path_components dir) = some x ∧ x ∉ st.live ∧ Node st' x ∧
    (st'.open_data x).isdir = true ∧
    ∀ n, entry_sector st' x n = if n = dot_dot then some p else none

/-- The disk with its free map, and the data of every inode, are what they were. -/
def Untouched (st st' : Store) : Prop :=
  st'.fs = st.fs ∧ st'.live = st.live ∧ ∀ y, st'.open_data y = st.open_data y

/-- `mkdir` reports the truth. -/
def TellsTruth (st : Store) (c : ℕ) (dir : Str) : Prop :=
  ∃ b st', mkdir st c dir = .ok (b, st') ∧ (b = true ↔ Allowed st c dir) ∧
    (b = true → Made st st' c dir) ∧ (b = false → Untouched st st')

/-- The path does not lead anywhere, nor does its directory part. -/
def NoParent (st : Store) (c : ℕ) (dir : Str) : Prop :=
  Leads st c (components dir) none ∧ ∃ path file, parse_path dir = .ok (path, file) ∧ path ≠ [] ∧
    Leads st c (components path) none

/-- A lookup of the directory part assigns the inode it finds. -/
def Assigns (path : Str) : Prop := path = [] ∨ slash ∉ path ∨ ∃ t ∈ components path, Moves t

/-- Where the answer is the truth. -/
def Truthful (st : Store) (c : ℕ) (dir : Str) : Prop :=
  (∃ y, Leads st c (components dir) (some y)) ∨
    NoParent st c dir ∧ ¬ Allowed st c dir ∨
    ∃ path file p, parse_path dir = .ok (path, file) ∧ Assigns path ∧
      Makeable st c dir (path_components path) file p ∧ GrowsOk st.fs (st.open_data p) ∧
        ¬ Denies st p

section Reporting

variable {st : Store} {c : ℕ} {dir : Str}

/-- The components of a path, the empty ones among them or not. -/
theorem leads_path_components {r : Option ℕ} :
    Leads st c (path_components dir) r ↔ Leads st c (components dir) r := Leads.filter _

/-- Where the components lead when a directory can be made. -/
theorem Makeable.leads (h : TreeOk st) (hc : OpenDir st c) {init : List Str} {last : Str} {p : ℕ}
    (hm : Makeable st c dir init last p) : Node st p ∧ follow st p last = none ∧
      Leads st c (components dir) none ∧ Leads st c init (some p) ∧ Dirs st c init ∧
      Dirs st c (components dir) := by
  have hp := h.resolve_node init hc.node hc.isdir hm.parent
  have hnone : follow st p last = none := by
    have hmissing := hm.missing
    rwa [hm.split, resolve_concat init hm.parent hm.isdir] at hmissing
  have hdirs := resolve_dirs init hm.parent hm.isdir
  have hinit : Leads st c init (some p) :=
    (h.leads_iff init hc.node hc.isdir (hdirs.file_before) _).mpr hm.parent.symm
  refine ⟨hp, hnone, ?_, hinit, hdirs, ?_⟩
  · rw [← leads_path_components, hm.split, hinit.append [last] rfl]
    exact (h.leads_iff [last] hp hm.isdir rfl none).mpr hnone.symm
  · have hconcat := Dirs.concat init hm.parent hm.isdir hnone
    rw [← hm.split] at hconcat
    exact (Dirs.filter _ hc.isdir).mp hconcat

/-- A path that leads somewhere is there. -/
theorem not_allowed_of_leads (h : TreeOk st) (hc : OpenDir st c) {y : ℕ}
    (hy : Leads st c (components dir) (some y)) : ¬ Allowed st c dir := by
  rintro ⟨init, last, p, hm⟩
  obtain ⟨-, -, hnone, -⟩ := hm.leads h hc
  cases hnone.unique hy

theorem mkdir_nil : mkdir st c [] = .ok (false, st) := by
  unfold mkdir dir_lookup
  rw [if_pos rfl]
  rfl

theorem leads_nil : Leads st c (components []) (some c) := rfl

theorem Raised.untouched {st' : Store} (h : Raised st st') : Untouched st st' :=
  ⟨h.fs, h.live, h.open_data⟩

/-- The characters of a component are characters of the path. -/
theorem zero_notMem_component (hzero : (0 : UInt8) ∉ dir) {t : Str} (ht : t ∈ path_components dir) :
    (0 : UInt8) ∉ t := by
  have hmem := (List.mem_filter.mp ht).1
  exact fun h => hzero (mem_of_mem_splitOn hmem h)

/-- What `parse_path` leaves in `file_name` is the last component. -/
theorem parse_path_last {path file : Str} (h : parse_path dir = .ok (path, file))
    (hdir : path_components dir ≠ []) : file ∈ path_components dir := by
  have hmem : ∀ t, (tokens dir).getLast? = some t → t ∈ path_components dir := by
    intro t ht
    rw [tokens_eq] at ht
    exact List.mem_of_getLast? ht
  unfold parse_path parse_path_into at h
  by_cases hslash : slash ∈ dir
  · rw [if_pos hslash] at h
    cases hlast : (tokens dir).getLast? with
    | none =>
      rw [hlast] at h
      cases h
    | some t =>
      rw [hlast] at h
      dsimp only at h
      split_ifs at h
      obtain ⟨-, rfl⟩ := Prod.mk.inj (Except.ok.inj h)
      exact hmem _ hlast
  · rw [if_neg hslash] at h
    split_ifs at h
    obtain ⟨-, rfl⟩ := Prod.mk.inj (Except.ok.inj h)
    have hne : dir ≠ [] := by
      rintro rfl
      exact hdir rfl
    rw [path_components_run hne hslash]
    exact List.mem_singleton_self _

/-- The parent that was looked up survives the close at the end. -/
theorem quiet_of_raised (hcnt : Counted st) {st₁ : Store} (hr : Raised st st₁) {p : ℕ} {ip : Inode}
    (hi : st₁.open_inodes p = some ip) (hlt : p = c ∨ st.open_cnt p < st₁.open_cnt p) :
    c = p ∨ Quiet ip := by
  refine hlt.imp Eq.symm fun hlt => ?_
  cases hp : st.open_inodes p with
  | none =>
    obtain ⟨-, hfresh⟩ := hr.fresh p ip hp hi
    exact Or.inl (by rw [hfresh])
  | some i =>
    have hpos := hcnt p i hp
    rw [Store.open_cnt, Store.open_cnt, hp, hi] at hlt
    exact Or.inr (by dsimp only at hlt; omega)

/-- Where `mkdir` goes on in `p`, and all that it does there goes well: no regular file is
taken for a directory on the way, `p` is a directory without the name that takes writes, and
it and the disk have room. -/
structure Settles (st : Store) (c : ℕ) (dir path file : Str) (p : ℕ) : Prop where
  makes : Makes st c dir path file p
  plain : file_before st c (components dir) = none
  plain_path : file_before st c (components path) = none
  node : Node st p
  isdir : (st.open_data p).isdir = true
  new : entry_sector st p file = none
  space : MakeSpace st.fs (st.open_data p)
  grows : GrowsOk st.fs (st.open_data p)
  writable : ¬ Denies st p

/-- **`mkdir`** makes the directory. -/
theorem Settles.new_dir (h : DirTree st) (hc : OpenDir st c) (hzero : (0 : UInt8) ∉ dir)
    {path file : Str} {p : ℕ} (hs : Settles st c dir path file p) (hdir : path_components dir ≠ []) :
    ∃ x st', mkdir st c dir = .ok (true, st') ∧ NewDir st st' p file x := by
  have hdir' : dir ≠ [] := by
    rintro rfl
    exact hdir rfl
  have hfile := parse_path_last hs.makes.2.1 hdir
  have hfile0 : file ≠ [] := by simpa using (List.mem_filter.mp hfile).2
  obtain ⟨st₁, hrun, hop, hraised, hopen, hlt, hwithin⟩ := mkdir_makes hc.opened hdir' hs.makes
  have hinv₁ := h.inv.raised hraised (hwithin h.tree hc.node hc.isdir hs.plain hs.plain_path)
  obtain ⟨ip, hi⟩ := Option.ne_none_iff_exists'.mp hopen
  have hdata : ip.data = st.open_data p := by
    have hsame := hraised.open_data p
    rwa [Store.open_data, hi] at hsame
  have hcnt : Counted st := fun y i hy => (h.inv.opened y i hy).2.2.2
  have hallow : ip.deny_write_cnt = 0 := by
    by_contra hne
    exact hs.writable ((hraised.denies_iff p).mp ⟨ip, hi, hne⟩)
  obtain ⟨x, st', hmake, hN⟩ := @make_dir_spec st₁ p ip file hinv₁ c hi hallow
    (quiet_of_raised hcnt hraised hi hlt)
    (by rw [hraised.fs, hdata]; exact (h.tree.read p hs.node.1 hs.node.2).2)
    (by rw [hdata]; exact h.whole p hs.node hs.isdir) hfile0 (parse_path_short hs.makes.2.1)
    (zero_notMem_component hzero hfile)
    (by rw [hraised.fs, hdata]; exact Option.map_eq_none_iff.mp hs.new)
    (by rw [hraised.fs, hdata]; exact hs.space) (by rw [hraised.fs, hdata]; exact hs.grows)
  refine ⟨x, st', ?_, hN.of_raised hraised⟩
  rw [hrun, hmake]
  rfl

/-- A directory that can be made, along a directory part that leads to its parent. -/
theorem Makeable.settles (h : TreeOk st) (hc : OpenDir st c) {path file : Str} {p : ℕ}
    (hparse : parse_path dir = .ok (path, file)) (hassign : Assigns path)
    (hm : Makeable st c dir (path_components path) file p)
    (hgrows : GrowsOk st.fs (st.open_data p)) (hwrite : ¬ Denies st p) :
    Settles st c dir path file p ∧ Moves file := by
  obtain ⟨hp, hnone, hmissing, hinit, hdirs, hdirs'⟩ := hm.leads h hc
  have hmoves : Moves file := by
    by_contra hstay
    rw [follow_of_stay hstay] at hnone
    cases hnone
  refine ⟨⟨⟨hmissing, hparse, ?_⟩, hdirs'.file_before,
    ((Dirs.filter _ hc.isdir).mp hdirs).file_before, hp, hm.isdir, ?_, hm.space, hgrows, hwrite⟩, hmoves⟩
  · by_cases hpath : path = []
    · have hpc := hm.parent
      rw [hpath] at hpc
      exact Or.inl ⟨hpath, (Option.some.inj hpc).symm⟩
    · refine Or.inr ⟨hpath, ?_, leads_path_components.mp hinit⟩
      unfold looked_up
      split_ifs with hslash
      · exact walked_moves (hassign.resolve_left hpath |>.resolve_left (not_not_intro hslash)) _ _
      · rfl
  · rwa [follow, if_pos hmoves] at hnone

theorem mkdir_made (h : DirTree st) (hc : OpenDir st c) (hzero : (0 : UInt8) ∉ dir)
    {path file : Str} {p : ℕ} (hparse : parse_path dir = .ok (path, file)) (hassign : Assigns path)
    (hm : Makeable st c dir (path_components path) file p)
    (hgrows : GrowsOk st.fs (st.open_data p)) (hwrite : ¬ Denies st p) :
    ∃ st', mkdir st c dir = .ok (true, st') ∧ Made st st' c dir := by
  obtain ⟨hs, hmoves⟩ := hm.settles h.tree hc hparse hassign hgrows hwrite
  obtain ⟨x, st', hrun, hN⟩ := hs.new_dir h hc hzero (by
    rw [hm.split]
    exact List.concat_ne_nil _ _)
  refine ⟨st', hrun, path_components path, file, p, x, hm.split, hm.parent, ?_, hN.fresh, ?_, hN.flag,
    hN.self⟩
  · have hparent := hN.resolve h.tree hs.new (path_components path) hc.node hc.isdir hm.parent
    rw [hm.split, resolve_concat _ hparent (by rw [hN.isdir p hs.node, hm.isdir]), follow,
      if_pos hmoves, hN.parent, if_pos rfl]
  · exact ⟨by rw [hN.live]; exact List.mem_cons_self, hN.boot⟩

/-- **What `mkdir` reports.** It is the truth where the path leads somewhere, where it and its
directory part lead nowhere and the directory is not to be made, and where it is to be made and
everything behind the lookups goes well. Where it is the truth, `mkdir` has refused what is not
to be made, or gone on with what is. -/
theorem mkdir_truth (h : DirTree st) (hc : OpenDir st c) (hzero : (0 : UInt8) ∉ dir) :
    (Truthful st c dir → TellsTruth st c dir) ∧
      (TellsTruth st c dir → Refuses st c dir ∧ ¬ Allowed st c dir ∨
        Allowed st c dir ∧ ∃ path file p, Makes st c dir path file p) := by
  have hrefused : Refuses st c dir → ¬ Allowed st c dir → TellsTruth st c dir := by
    intro hrefuses hnot
    by_cases hdir : dir = []
    · subst hdir
      exact ⟨false, st, mkdir_nil, iff_of_false (by decide) hnot, fun hb => (by cases hb),
        fun _ => (Raised.refl st).untouched⟩
    · obtain ⟨st', hrun, hraised⟩ := mkdir_refuses hc.opened hdir hrefuses
      exact ⟨false, st', hrun, iff_of_false (by decide) hnot, fun hb => (by cases hb),
        fun _ => hraised.untouched⟩
  constructor
  · rintro (⟨y, hy⟩ | ⟨hno, hnot⟩ | ⟨path, file, p, hparse, hassign, hm, hgrows, hwrite⟩)
    · exact hrefused (Or.inl ⟨y, hy⟩) (not_allowed_of_leads h.tree hc hy)
    · exact hrefused (Or.inr hno) hnot
    · obtain ⟨st', hrun, hmade⟩ := mkdir_made h hc hzero hparse hassign hm hgrows hwrite
      exact ⟨true, st', hrun, iff_of_true rfl ⟨_, _, _, hm⟩, fun _ => hmade, fun hb => (by cases hb)⟩
  · rintro ⟨b, st', hrun, hiff, -, -⟩
    by_cases hdir : dir = []
    · subst hdir
      have hb : b = false := (Prod.mk.inj (Except.ok.inj (mkdir_nil.symm.trans hrun))).1.symm
      refine Or.inl ⟨Or.inl ⟨c, leads_nil⟩, fun hall => ?_⟩
      rw [hb] at hiff
      cases hiff.mpr hall
    · -- a call that has returned has refused or gone on
      rcases mkdir_returns hc.opened hdir hrun with ⟨hb, hrefuses⟩ | ⟨hb, hmakes⟩
      · refine Or.inl ⟨hrefuses, fun hall => ?_⟩
        rw [show b = false from hb] at hiff
        cases hiff.mpr hall
      · exact Or.inr ⟨hiff.mp hb, hmakes⟩

end Reporting

/-! ## The small tree on a disk with and without free sectors -/

/-- The small tree, with a process that runs `"f"`, and its free map on a disk of `n` sectors. -/
def mounted_on (n : ℕ) : Store :=
  { running_tree with
    fs := { running_tree.fs with free_map := { bit_cnt := n, bits := fun i => i < 8 } } }

section Mounted

variable {n : ℕ} (hn : 8 ≤ n) (hmax : n ≤ 32)

include hn

theorem mounted_on_disk (hmax : n ≤ 32) : DiskOk (mounted_on n).fs := by
  refine ⟨?_, fun i hi => ?_⟩
  · change n ≤ 2 ^ 28
    omega
  · have hlt : i < 8 := of_decide_eq_true hi
    change i < n
    omega

include hmax

/-- Only the size of the disk differs from `running_tree`. -/
theorem mounted_on_inv : (mounted_on n).Inv := by
  have h := running_tree_inv
  refine ⟨⟨⟨mounted_on_disk hn hmax, fun f hf => ?_⟩, ⟨rfl, rfl, rfl⟩, h.ready.boot,
    h.ready.file_boot⟩, h.free_map, h.boot, h.root, h.opened, fun x hx => ?_, h.image, h.across⟩
  · have hok := h.ready.ok.file f hf
    refine ⟨⟨hok.map.inj, hok.map.used⟩, hok.max, ?_, hok.writable⟩
    rw [hok.length]
    change byte_cnt 16 = byte_cnt n
    unfold byte_cnt
    omega
  · have hok := h.inode x hx
    exact ⟨⟨hok.map.inj, hok.map.used⟩, hok.max, hok.used, hok.own, hok.boot, hok.root⟩

theorem mounted_on_tree : DirTree (mounted_on n) := by
  obtain ⟨h1, h3, h5⟩ := small_tree_data
  have hdisk := mounted_on_disk hn hmax
  have hnode : ∀ x ∈ (mounted_on n).live, x ≠ FREE_MAP_SECTOR → x = 1 ∨ x = 3 ∨ x = 5 := by
    intro x hx hx0
    have hmem : x = 0 ∨ x = 1 ∨ x = 3 ∨ x = 5 := by
      simpa [mounted_on, running_tree, mounted_tree, Store.set_inode] using hx
    exact hmem.resolve_left hx0
  have hlt : ∀ x < 8, x < (mounted_on n).fs.capacity := by
    intro x hx
    change x < n
    omega
  have h1' : (mounted_on n).open_data 1 = one_block 1 48 true := h1
  have h3' : (mounted_on n).open_data 3 = one_block 3 24 false := h3
  have h5' : (mounted_on n).open_data 5 = one_block 5 24 true := h5
  -- the entries of the two directories, which do not depend on the size of the disk
  have hroot : ∀ i < (one_block 1 48 true).length / dir_entry_size,
      (entry_at small_tree.fs.disk (one_block 1 48 true) i).inode_sector ∈ [0, 1, 3, 5] ∧
      (entry_at small_tree.fs.disk (one_block 1 48 true) i).inode_sector ≠ FREE_MAP_SECTOR := by
    decide +kernel
  have hsub : ∀ i < (one_block 5 24 true).length / dir_entry_size,
      (entry_at small_tree.fs.disk (one_block 5 24 true) i).inode_sector ∈ [0, 1, 3, 5] ∧
      (entry_at small_tree.fs.disk (one_block 5 24 true) i).inode_sector ≠ FREE_MAP_SECTOR := by
    decide +kernel
  refine ⟨mounted_on_inv hn hmax, ⟨fun x hx hx0 => ?_, fun x hx hx0 hdir i hi _ => ?_⟩,
    fun x hx hdir => ?_⟩
  · rcases hnode x hx hx0 with rfl | rfl | rfl
    · rw [h1']
      exact ⟨hlt 1 (by norm_num), read_ok_one_block hdisk rfl (by norm_num)⟩
    · rw [h3']
      exact ⟨hlt 3 (by norm_num), read_ok_one_block hdisk rfl (by norm_num)⟩
    · rw [h5']
      exact ⟨hlt 5 (by norm_num), read_ok_one_block hdisk rfl (by norm_num)⟩
  · rcases hnode x hx hx0 with rfl | rfl | rfl
    · rw [h1'] at hi ⊢
      exact hroot i hi
    · rw [h3'] at hdir
      cases hdir
    · rw [h5'] at hi ⊢
      exact hsub i hi
  · rcases hnode x hx.1 hx.2 with rfl | rfl | rfl
    · rw [h1']
      decide
    · rw [h3'] at hdir
      cases hdir
    · rw [h5']
      decide

end Mounted

theorem mounted_on_root (n : ℕ) : OpenDir (mounted_on n) 1 :=
  ⟨⟨running_tree_inv.opened 1 _ rfl |>.2.1, by decide⟩, rfl, Option.some_ne_none _⟩

/-- `mkdir ("x")` in the root of a disk with free sectors. -/
theorem mkdir_truth_small : Truthful (mounted_on 16) 1 [120] ∧ TellsTruth (mounted_on 16) 1 [120] := by
  have htrue : Truthful (mounted_on 16) 1 [120] := by
    refine Or.inr (Or.inr ⟨[], [120], 1, rfl, Or.inl rfl, ⟨by decide, by decide +kernel, rfl, rfl,
      by decide, by decide +kernel, Or.inr ⟨by decide, fun hneed => ?_⟩⟩, Or.inr fun hneed => ?_,
      ?_⟩)
    · exact absurd hneed (by decide)
    · exact absurd hneed (by decide)
    · rintro ⟨inode, hi, hne⟩
      obtain rfl := Option.some.inj hi
      exact hne rfl
  exact ⟨htrue, (mkdir_truth (mounted_on_tree (by norm_num) (by norm_num)) (mounted_on_root 16)
    (by decide)).1 htrue⟩

/-- **A full disk.** `mkdir` answers true. -/
theorem mkdir_full_disk : ¬ ∀ (st : Store) (c : ℕ) (dir : Str), DirTree st → OpenDir st c →
    (0 : UInt8) ∉ dir → ¬ is_absolute dir → TellsTruth st c dir := by
  intro hall
  have hrun : (mkdir (mounted_on 8) 1 [120]).map Prod.fst = .ok true := by decide +kernel
  have hfull : (free_sectors (mounted_on 8).fs).card = 0 := by decide +kernel
  obtain ⟨b, st', hmkdir, hiff, -⟩ := hall (mounted_on 8) 1 [120]
    (mounted_on_tree (by norm_num) (by norm_num)) (mounted_on_root 8) (by decide) (by decide)
  rw [hmkdir] at hrun
  have hb : b = true := Except.ok.inj hrun
  obtain ⟨init, last, p, hm⟩ := hiff.mp hb
  have hspace := hm.space.1
  rw [hfull] at hspace
  omega

end Pintos.Filesys
