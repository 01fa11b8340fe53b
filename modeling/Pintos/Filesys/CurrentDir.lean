/-
`dir_create` of `filesys/directory.c`, and the system calls `chdir` and `mkdir` of
`userprog/syscall.c` over it.

Both calls look their path up from the current directory, whatever the path starts with: the
calls of `filesys.c` test for a leading slash, these two do not. So what they do is a matter
of where the components lead from there (`chdir_leads`, `mkdir_cases`).

`mkdir` asks twice, for the whole path and for its directory part, and from then on it
answers true: the results of `free_map_allocate` and `dir_create` are not looked at. On a
full disk `inode_sector` keeps its 0, and the new directory is the free map's own inode.
-/
import Pintos.Filesys.Entries

set_option autoImplicit false

namespace Pintos.Filesys

open Pintos.Kernel WordImage

/-! ## `dir_create` -/

/-- `inode_open (sector)`, the entry `".."` in it, and `dir_close`. -/
def enter_parent (st : Store) (sector parent_sec : ℕ) : Res Store := do
  let st ← st.inode_open sector
  let r ← dir_add st sector dot_dot parent_sec
  r.2.inode_close sector

/-- The same for any sector. The free map's inode is on the list of open inodes as well; it
is kept in `free_map_file`. -/
def add_parent (st : Store) (sector parent_sec : ℕ) : Res Store :=
  if sector = FREE_MAP_SECTOR then do
    let st ← enter_parent (st.set_inode FREE_MAP_SECTOR st.fs.free_map_file) sector parent_sec
    return { st.set_inode FREE_MAP_SECTOR none with
      fs := { st.fs with free_map_file := st.open_inodes FREE_MAP_SECTOR } }
  else enter_parent st sector parent_sec

/-- `dir_create`, by a thread with the current directory `curr_dir`. -/
def dir_create (st : Store) (curr_dir : Option ℕ) (sector entry_cnt : ℕ) (name : Str) :
    Res (Bool × Store) := do
  let c ← inode_create st.fs sector (entry_cnt * dir_entry_size) true
  let st : Store := { st with fs := c.2, live := if c.1 then sector :: st.live else st.live }
  if sector = ROOT_DIR_SECTOR then return (c.1, st)
  else
    match curr_dir with
    | none => .error .dangling
    | some parent_sec => do
      let r ← dir_add st parent_sec name sector
      let st ← add_parent r.2 sector parent_sec
      return (c.1, st)

/-! ## `chdir` and `mkdir` -/

/-- `chdir`, by a process with the current directory `c`: the result and the directory the
process has afterwards. -/
def chdir (st : Store) (c : ℕ) (dir : Str) : Res (Bool × Option ℕ × Store) := do
  let r ← dir_lookup st (some c) c dir
  if r.1 then do
    let new_dir ← dir_open r.2.1
    let st ← r.2.2.inode_close c
    return (true, new_dir, st)
  else return (false, some c, r.2.2)

/-- A variable after another call that may assign it. -/
def InodeVar.assign (old : InodeVar) : InodeVar → InodeVar
  | .unassigned => old
  | v => v

/-- `mkdir`, from the switch to the parent `curr_dir` on. The parent is closed if it is not the
directory the process comes from, `old_dir`. -/
def make_dir (st : Store) (old_dir : ℕ) (curr_dir : Option ℕ) (file_name : Str) : Res Store := do
  let a ← free_map_allocate st.fs 1
  let r ← dir_create { st with fs := a.2 } curr_dir (a.1.getD 0) 1 file_name
  match curr_dir with
  | none => .error .dangling
  | some p => if old_dir = p then return r.2 else r.2.inode_close p

/-- `mkdir`, by a process with the current directory `c`. -/
def mkdir (st : Store) (c : ℕ) (dir : Str) : Res (Bool × Store) := do
  let r ← dir_lookup st (some c) c dir
  if r.1 then return (false, r.2.2)
  else do
    let p ← parse_path dir
    let q ← dir_lookup r.2.2 (some c) c p.1
    if q.1 then do
      let curr_dir ← dir_open (r.2.1.assign q.2.1)
      let st ← make_dir q.2.2 c curr_dir p.2
      return (true, st)
    else return (false, q.2.2)

/-! ## `chdir` -/

/-- The last close of the current directory comes to an end: the walk has opened it again, it
has another opener, it is not removed, or its blocks can be released. -/
def CanLeave (st : Store) (c : ℕ) (dir : Str) : Prop :=
  Passes st c (components dir) c ∨ ∀ inode, st.open_inodes c = some inode →
    inode.open_cnt ≤ 1 → inode.removed = true → ∃ fs, release_blocks st.fs inode.data = .ok fs

section Chdir

variable {st st' : Store} {c : ℕ} {dir : Str}

theorem is_absolute_slash (h : is_absolute dir) : slash ∈ dir := List.mem_of_head? h

theorem is_absolute_ne_nil (h : is_absolute dir) : dir ≠ [] := by
  rintro rfl
  cases h

theorem inode_open_cnt {x : ℕ} (h : st.inode_open x = .ok st') (y : ℕ) :
    st'.open_cnt y = st.open_cnt y + if y = x then 1 else 0 := by
  rw [(inode_open_gains h).cnt y, List.count_singleton]
  by_cases hy : y = x
  · simp [hy]
  · simp [hy, Ne.symm hy]

/-- The walk raises the counts of the inodes it passes, and no others. -/
theorem walk_loop_cnt (y : ℕ) (cs : List Str) : ∀ (st' : Store) (x : ℕ) (v : InodeVar) {b : Bool}
    {w : InodeVar} {st'' : Store}, Opened st st' → st'.open_inodes x ≠ none →
    walk_loop st' x v (named cs) = .ok (b, w, st'') →
    st'.open_cnt y ≤ st''.open_cnt y ∧ (st'.open_cnt y < st''.open_cnt y ↔ Passes st x cs y) := by
  induction cs with
  | nil =>
    intro st' x v b w st'' _ _ h
    obtain ⟨-, h⟩ := Prod.mk.inj (Except.ok.inj h)
    obtain ⟨-, rfl⟩ := Prod.mk.inj h
    exact ⟨le_rfl, by simp [Passes]⟩
  | cons c cs ih =>
    intro st' x v b w st'' hop hx h
    unfold Passes
    by_cases hc : Moves c
    swap
    · rw [walk_loop_stay hc] at h
      rw [if_neg hc]
      exact ih st' x v hop hx h
    rw [if_pos hc]
    rw [named_cons_of_ne hc.1, walk_loop, if_neg hc.2, hop.lookup hx] at h
    cases hpeek : peek st x c with
    | error f =>
      rw [hpeek] at h
      cases h
    | ok p =>
      rw [hpeek, ok_bind] at h
      cases p with
      | none =>
        obtain ⟨-, h⟩ := Prod.mk.inj (Except.ok.inj h)
        obtain ⟨-, rfl⟩ := Prod.mk.inj h
        exact ⟨le_rfl, by simp⟩
      | some p =>
        obtain ⟨e, ofs⟩ := p
        obtain ⟨st₁, hone, h⟩ := bind_eq_ok h
        have hreads := (hop.reads_iff _).mp (inode_open_reads hone)
        obtain ⟨st₁', hone', hop₁, hopen₁⟩ := inode_open_opened ((hop.reads_iff _).mpr hreads)
        obtain rfl := Except.ok.inj (hone.symm.trans hone')
        obtain ⟨hle, hlt⟩ := ih st₁ e.inode_sector _ (hop.trans hop₁) hopen₁ h
        have hcnt := inode_open_cnt hone y
        have hiff : (∃ e' ofs', (Except.ok (some (e, ofs)) : Res (Option (DirEntry × ℕ))) =
            .ok (some (e', ofs')) ∧ (e'.inode_sector = y ∨ Passes st e'.inode_sector cs y)) ↔
            e.inode_sector = y ∨ Passes st e.inode_sector cs y := by
          constructor
          · rintro ⟨e', ofs', heq, hpass⟩
            obtain ⟨rfl, rfl⟩ := Prod.mk.inj (Option.some.inj (Except.ok.inj heq))
            exact hpass
          · exact fun hpass => ⟨e, ofs, rfl, hpass⟩
        rw [hiff, ← hlt]
        by_cases hy : y = e.inode_sector
        · rw [if_pos hy] at hcnt
          exact ⟨by omega, iff_of_true (by omega) (Or.inl hy.symm)⟩
        · rw [if_neg hy] at hcnt
          refine ⟨by omega, ?_⟩
          rw [hcnt, Nat.add_zero]
          exact ⟨Or.inr, fun hor => hor.resolve_left (Ne.symm hy)⟩

/-- Closing returns unless the blocks of a removed inode cannot be released. -/
theorem inode_close_returns_iff {inode : Inode} (h : st.open_inodes c = some inode) :
    (∃ st', st.inode_close c = .ok st') ↔ (inode.open_cnt ≤ 1 → inode.removed = true →
      ∃ fs, release_blocks st.fs inode.data = .ok fs) := by
  unfold Store.inode_close
  rw [h]
  dsimp only
  by_cases hlast : inode.open_cnt - 1 = 0
  · have hle : inode.open_cnt ≤ 1 := by omega
    rw [if_pos hlast]
    by_cases hrem : inode.removed = true
    · rw [if_pos hrem]
      constructor
      · rintro ⟨st', hrun⟩ - -
        obtain ⟨fs, hfs, -⟩ := bind_eq_ok hrun
        exact ⟨fs, hfs⟩
      · intro hall
        obtain ⟨fs, hfs⟩ := hall hle hrem
        have hfs' : release_blocks (st.set_inode c none).fs inode.data = .ok fs := hfs
        rw [hfs']
        exact ⟨_, rfl⟩
    · rw [if_neg hrem]
      exact iff_of_true ⟨_, rfl⟩ fun _ hr => absurd hr hrem
  · rw [if_neg hlast]
    exact iff_of_true ⟨_, rfl⟩ fun hle _ => absurd hle (by omega)

/-- **`chdir`** with an absolute path goes where the components lead from the current
directory. -/
theorem chdir_leads (hcnt : Counted st) (hc : st.open_inodes c ≠ none) (habs : is_absolute dir) :
    (∀ q, chdir st c dir = .ok q → ∃ r, Leads st c (components dir) r) ∧
    (Leads st c (components dir) none → ∃ st', chdir st c dir = .ok (false, some c, st')) ∧
    ∀ y, Leads st c (components dir) (some y) →
      ((∃ q, chdir st c dir = .ok q) ↔
        (∃ t ∈ components dir, Moves t) ∧ CanLeave st c dir) ∧
      ∀ q, chdir st c dir = .ok q → q.1 = true ∧ q.2.1 = some y := by
  have hslash := is_absolute_slash habs
  have hop := Opened.refl st
  obtain ⟨hgo, hback⟩ := dir_lookup_leads hop hc (some c) (is_absolute_ne_nil habs)
  refine ⟨fun q hq => ?_, fun hnone => ?_, fun y hy => ?_⟩
  · obtain ⟨r, hr, -⟩ := bind_eq_ok hq
    exact hback r hr
  · obtain ⟨st', hrun, -⟩ := hgo none hnone
    refine ⟨st', ?_⟩
    unfold chdir
    rw [hrun]
    rfl
  obtain ⟨st', hrun, hop', hopen⟩ := hgo (some y) hy
  have hraised := dir_lookup_raised hrun
  have hvar : looked_up dir (some y) = walked (components dir) .unassigned (some y) :=
    if_pos hslash
  unfold chdir
  rw [hrun, ok_bind]
  dsimp only [Option.isSome]
  rw [if_pos rfl, hvar]
  by_cases hmoves : ∃ t ∈ components dir, Moves t
  swap
  · rw [walked_stays hmoves]
    refine ⟨iff_of_false ?_ fun hand => hmoves hand.1, fun q hq => by cases hq⟩
    rintro ⟨q, hq⟩
    cases hq
  rw [walked_moves hmoves]
  -- the current directory, with the count it has after the walk
  obtain ⟨inode, hinode⟩ := Option.ne_none_iff_exists'.mp hc
  obtain ⟨n, hn, hinode'⟩ := hraised.kept c inode hinode
  have hwalk : walk_loop st c .unassigned (named (components dir)) =
      .ok (true, .inode y, st') := by
    have hloop := hrun
    unfold dir_lookup at hloop
    rw [if_neg (is_absolute_ne_nil habs), if_pos hslash, tokens_eq, hvar,
      walked_moves hmoves] at hloop
    exact hloop
  obtain ⟨-, hpass⟩ := walk_loop_cnt c (components dir) st c .unassigned hop hc hwalk
  have hcnt_old : st.open_cnt c = inode.open_cnt := by rw [Store.open_cnt, hinode]
  have hcnt_new : st'.open_cnt c = n := by rw [Store.open_cnt, hinode']
  rw [hcnt_old, hcnt_new] at hpass
  have hleave : (∃ st'', st'.inode_close c = .ok st'') ↔ CanLeave st c dir := by
    rw [inode_close_returns_iff hinode', hraised.fs]
    unfold CanLeave
    have hpos := hcnt c inode hinode
    by_cases hp : Passes st c (components dir) c
    · have hlt := hpass.mpr hp
      exact iff_of_true (fun hle => absurd hle (by dsimp only; omega)) (Or.inl hp)
    · -- the walk has not come by, so the count is the one from before
      obtain rfl : n = inode.open_cnt := Nat.le_antisymm (Nat.not_lt.mp (mt hpass.mp hp)) hn
      constructor
      · intro hall
        refine Or.inr fun i hi hle hrem => ?_
        obtain rfl := Option.some.inj (hinode.symm.trans hi)
        exact hall hle hrem
      · exact fun hor => hor.resolve_left hp inode hinode
  constructor
  · constructor
    · rintro ⟨q, hq⟩
      obtain ⟨new_dir, -, hq⟩ := bind_eq_ok hq
      obtain ⟨st'', hclose, -⟩ := bind_eq_ok hq
      exact ⟨hmoves, hleave.mp ⟨st'', hclose⟩⟩
    · rintro ⟨-, hcan⟩
      obtain ⟨st'', hclose⟩ := hleave.mpr hcan
      refine ⟨(true, some y, st''), ?_⟩
      change (do
        let st ← st'.inode_close c
        return (true, some y, st)) = _
      rw [hclose]
      rfl
  · intro q hq
    obtain ⟨new_dir, hnew, hq⟩ := bind_eq_ok hq
    obtain ⟨st'', -, hq⟩ := bind_eq_ok hq
    rw [← Except.ok.inj hq]
    exact ⟨rfl, (Except.ok.inj hnew).symm⟩

/-- The two runs of `chdir` return the same result, and when it is true they select the same
directory. -/
def SameChoice (st : Store) (c₁ c₂ : ℕ) (dir : Str) : Prop :=
  ∃ b d₁ d₂ st₁ st₂, chdir st c₁ dir = .ok (b, d₁, st₁) ∧ chdir st c₂ dir = .ok (b, d₂, st₂) ∧
    (b = true → d₁ = d₂)

/-- From both directories the components lead to the same place; if there is one, the path has
a component other than `""` and `"."`, and both directories can be left. -/
def LeadsAlike (st : Store) (c₁ c₂ : ℕ) (dir : Str) : Prop :=
  ∃ r, Leads st c₁ (components dir) r ∧ Leads st c₂ (components dir) r ∧
    (r ≠ none → (∃ t ∈ components dir, Moves t) ∧ CanLeave st c₁ dir ∧ CanLeave st c₂ dir)

theorem same_choice_iff {c₁ c₂ : ℕ} (hcnt : Counted st) (hc₁ : st.open_inodes c₁ ≠ none)
    (hc₂ : st.open_inodes c₂ ≠ none) (habs : is_absolute dir) :
    SameChoice st c₁ c₂ dir ↔ LeadsAlike st c₁ c₂ dir := by
  obtain ⟨hback₁, hnone₁, hsome₁⟩ := chdir_leads hcnt hc₁ habs
  obtain ⟨hback₂, hnone₂, hsome₂⟩ := chdir_leads hcnt hc₂ habs
  constructor
  · rintro ⟨b, d₁, d₂, st₁, st₂, h₁, h₂, hsame⟩
    obtain ⟨r₁, hr₁⟩ := hback₁ _ h₁
    obtain ⟨r₂, hr₂⟩ := hback₂ _ h₂
    -- the result tells whether the components lead anywhere
    have hfalse : ∀ {c : ℕ} {d : Option ℕ} {st' : Store}, chdir st c dir = .ok (b, d, st') →
        (∃ st', chdir st c dir = .ok (false, some c, st')) → b = false := by
      rintro c d st' h ⟨st'', h'⟩
      exact (Prod.mk.inj (Except.ok.inj (h.symm.trans h'))).1
    cases r₁ with
    | none =>
      have hb := hfalse h₁ (hnone₁ hr₁)
      cases r₂ with
      | none => exact ⟨none, hr₁, hr₂, fun hne => absurd rfl hne⟩
      | some y =>
        have htrue := ((hsome₂ y hr₂).2 _ h₂).1
        rw [hb] at htrue
        cases htrue
    | some y₁ =>
      obtain ⟨hb, hd₁⟩ := (hsome₁ y₁ hr₁).2 _ h₁
      cases r₂ with
      | none =>
        rw [hfalse h₂ (hnone₂ hr₂)] at hb
        cases hb
      | some y₂ =>
        obtain ⟨-, hd₂⟩ := (hsome₂ y₂ hr₂).2 _ h₂
        obtain rfl : y₁ = y₂ := by
          have hd := hsame hb
          dsimp only at hd₁ hd₂
          rw [hd₁, hd₂] at hd
          exact Option.some.inj hd
        obtain ⟨hmoves, hcan₁⟩ := (hsome₁ y₁ hr₁).1.mp ⟨_, h₁⟩
        exact ⟨some y₁, hr₁, hr₂, fun _ => ⟨hmoves, hcan₁, ((hsome₂ y₁ hr₂).1.mp ⟨_, h₂⟩).2⟩⟩
  · rintro ⟨r, hr₁, hr₂, hleave⟩
    cases r with
    | none =>
      obtain ⟨st₁, h₁⟩ := hnone₁ hr₁
      obtain ⟨st₂, h₂⟩ := hnone₂ hr₂
      exact ⟨false, _, _, st₁, st₂, h₁, h₂, fun hb => by cases hb⟩
    | some y =>
      obtain ⟨hmoves, hcan₁, hcan₂⟩ := hleave (Option.some_ne_none y)
      obtain ⟨⟨b₁, d₁, st₁⟩, h₁⟩ := (hsome₁ y hr₁).1.mpr ⟨hmoves, hcan₁⟩
      obtain ⟨⟨b₂, d₂, st₂⟩, h₂⟩ := (hsome₂ y hr₂).1.mpr ⟨hmoves, hcan₂⟩
      obtain ⟨rfl, rfl⟩ := (hsome₁ y hr₁).2 _ h₁
      obtain ⟨rfl, rfl⟩ := (hsome₂ y hr₂).2 _ h₂
      exact ⟨true, _, _, st₁, st₂, h₁, h₂, fun _ => rfl⟩

end Chdir

/-! ## `mkdir`, up to the parent -/

/-- What `mkdir` takes for the parent: the current directory if the directory part is empty, or
the inode that part leads to. -/
def Parent (st : Store) (c : ℕ) (path : Str) (p : ℕ) : Prop :=
  path = [] ∧ p = c ∨
    path ≠ [] ∧ looked_up path (some p) = .inode p ∧ Leads st c (components path) (some p)

/-- The path leads somewhere, or its directory part does not. -/
def Refuses (st : Store) (c : ℕ) (dir : Str) : Prop :=
  (∃ y, Leads st c (components dir) (some y)) ∨ Leads st c (components dir) none ∧
    ∃ path file, parse_path dir = .ok (path, file) ∧ path ≠ [] ∧ Leads st c (components path) none

/-- The path does not lead anywhere, and its directory part `path` leads to `p`. -/
def Makes (st : Store) (c : ℕ) (dir path file : Str) (p : ℕ) : Prop :=
  Leads st c (components dir) none ∧ parse_path dir = .ok (path, file) ∧ Parent st c path p

section Lookups

variable {st st' : Store} {c : ℕ} {dir : Str}

theorem looked_up_none (name : Str) : looked_up name none = .null := by
  unfold looked_up
  split_ifs
  · rfl
  · rfl

/-- A walk that reaches an inode by a component passes it. -/
theorem Leads.passes {cs : List Str} : ∀ {x y : ℕ}, Leads st x cs (some y) →
    (∃ t ∈ cs, Moves t) → Passes st x cs y := by
  induction cs with
  | nil =>
    intro x y _ hmoves
    obtain ⟨t, ht, -⟩ := hmoves
    cases ht
  | cons t cs ih =>
    intro x y h hmoves
    unfold Leads at h
    unfold Passes
    by_cases ht : Moves t
    swap
    · rw [if_neg ht] at h ⊢
      refine ih h ?_
      obtain ⟨u, hu, hm⟩ := hmoves
      rcases List.mem_cons.mp hu with rfl | hu
      · exact absurd hm ht
      · exact ⟨u, hu, hm⟩
    rw [if_pos ht] at h ⊢
    rcases h with ⟨-, hnone⟩ | ⟨e, ofs, hpeek, -, hrest⟩
    · cases hnone
    refine ⟨e, ofs, hpeek, ?_⟩
    by_cases hcs : ∃ u ∈ cs, Moves u
    · exact Or.inr (ih hrest hcs)
    · push Not at hcs
      exact Or.inl (Option.some.inj ((Leads.of_stay hcs).mp hrest)).symm

/-- The parent that was looked up is open once more, if it is not the current directory. -/
theorem parent_counted (hop : Opened st st') (hc : st'.open_inodes c ≠ none) {path : Str} {p : ℕ}
    (hpath : path ≠ []) (hleads : Leads st c (components path) (some p)) {b : Bool} {v : InodeVar}
    {st'' : Store} (hrun : dir_lookup st' (some c) c path = .ok (b, v, st'')) :
    p = c ∨ st'.open_cnt p < st''.open_cnt p := by
  by_cases hmoves : ∃ t ∈ components path, Moves t
  swap
  · push Not at hmoves
    exact Or.inl (Option.some.inj ((Leads.of_stay hmoves).mp hleads))
  right
  unfold dir_lookup at hrun
  rw [if_neg hpath] at hrun
  by_cases hslash : slash ∈ path
  · rw [if_pos hslash, tokens_eq] at hrun
    exact (walk_loop_cnt p _ _ _ _ hop hc hrun).2.mpr (hleads.passes hmoves)
  rw [if_neg hslash] at hrun
  rw [components_single hslash] at hmoves hleads
  obtain ⟨t, ht, hm⟩ := hmoves
  obtain rfl := List.mem_singleton.mp ht
  rw [if_neg hm.2, hop.lookup hc] at hrun
  unfold Leads at hleads
  rw [if_pos hm] at hleads
  rcases hleads with ⟨-, hnone⟩ | ⟨e, ofs, hpeek, -, hrest⟩
  · cases hnone
  obtain rfl := Option.some.inj hrest
  rw [hpeek, ok_bind] at hrun
  obtain ⟨st₁, hone, hrun⟩ := bind_eq_ok hrun
  obtain ⟨-, hrun⟩ := Prod.mk.inj (Except.ok.inj hrun)
  obtain ⟨-, rfl⟩ := Prod.mk.inj hrun
  rw [inode_open_cnt hone, if_pos rfl]
  exact Nat.lt_succ_self _

/-- `mkdir` answers false, and all it has done is to open inodes. -/
theorem mkdir_refuses (hc : st.open_inodes c ≠ none) (hdir : dir ≠ []) (h : Refuses st c dir) :
    ∃ st', mkdir st c dir = .ok (false, st') ∧ Raised st st' := by
  have hop := Opened.refl st
  unfold mkdir
  rcases h with ⟨y, hy⟩ | ⟨hnone, path, file, hparse, hpath, hmissing⟩
  · obtain ⟨st', hrun, -⟩ := (dir_lookup_leads hop hc (some c) hdir).1 (some y) hy
    rw [hrun]
    exact ⟨st', rfl, dir_lookup_raised hrun⟩
  · obtain ⟨st₁, hrun, hop₁, -⟩ := (dir_lookup_leads hop hc (some c) hdir).1 none hnone
    obtain ⟨st₂, hrun₂, -⟩ :=
      (dir_lookup_leads hop₁ (hop₁.opened c hc) (some c) hpath).1 none hmissing
    rw [hrun, ok_bind]
    dsimp only [Option.isSome]
    rw [if_neg (by simp), hparse, ok_bind, hrun₂]
    exact ⟨st₂, rfl, (dir_lookup_raised hrun).trans (dir_lookup_raised hrun₂)⟩

/-- `mkdir` goes on in the parent and answers true. -/
theorem mkdir_makes (hc : st.open_inodes c ≠ none) (hdir : dir ≠ []) {path file : Str} {p : ℕ}
    (h : Makes st c dir path file p) : ∃ st₁, mkdir st c dir = (do
        let st ← make_dir st₁ c (some p) file
        return (true, st)) ∧
      Opened st st₁ ∧ Raised st st₁ ∧ st₁.open_inodes p ≠ none ∧
      (p = c ∨ st.open_cnt p < st₁.open_cnt p) ∧
      (TreeOk st → Node st c → (st.open_data c).isdir = true →
        file_before st c (components dir) = none → file_before st c (components path) = none →
        Within st st₁) := by
  have hop := Opened.refl st
  obtain ⟨hnone, hparse, hparent⟩ := h
  obtain ⟨st₁, hrun, hop₁, -⟩ := (dir_lookup_leads hop hc (some c) hdir).1 none hnone
  have hraised := dir_lookup_raised hrun
  have hc₁ := hop₁.opened c hc
  have hwithin : TreeOk st → Node st c → (st.open_data c).isdir = true →
      file_before st c (components dir) = none → Within st st₁ := fun ht hnode hisdir hfile =>
    dir_lookup_within ht hop (Within.refl st) hnode hisdir hc hfile hrun
  unfold mkdir
  rw [hrun, ok_bind]
  dsimp only [Option.isSome]
  rw [if_neg (by simp), hparse, ok_bind, looked_up_none]
  dsimp only
  rcases hparent with ⟨rfl, rfl⟩ | ⟨hpath, hvar, hleads⟩
  · exact ⟨st₁, rfl, hop₁, hraised, hc₁, Or.inl rfl, fun ht hnode hisdir hfile _ =>
      hwithin ht hnode hisdir hfile⟩
  · obtain ⟨st₂, hrun₂, hop₂, hopen⟩ :=
      (dir_lookup_leads hop₁ hc₁ (some c) hpath).1 (some p) hleads
    have hcnt := parent_counted hop₁ hc₁ hpath hleads hrun₂
    refine ⟨st₂, ?_, hop₂, hraised.trans (dir_lookup_raised hrun₂), hopen p rfl, ?_,
      fun ht hnode hisdir hfile hfile' => ?_⟩
    · rw [hrun₂, ok_bind]
      dsimp only [Option.isSome]
      rw [if_pos rfl, hvar]
      rfl
    · refine hcnt.imp_right fun hlt => ?_
      -- the first lookup has lowered no count
      have hle : st.open_cnt p ≤ st₁.open_cnt p := by
        unfold Store.open_cnt
        cases hp : st.open_inodes p with
        | none => exact Nat.zero_le _
        | some i =>
          obtain ⟨n, hn, hp'⟩ := hraised.kept p i hp
          rw [hp']
          exact hn
      exact hle.trans_lt hlt
    · exact dir_lookup_within ht hop₁ (hwithin ht hnode hisdir hfile) hnode hisdir hc₁ hfile' hrun₂

/-- A `mkdir` that returns has refused, or it has gone on in a parent. -/
theorem mkdir_returns (hc : st.open_inodes c ≠ none) (hdir : dir ≠ []) {q : Bool × Store}
    (h : mkdir st c dir = .ok q) :
    q.1 = false ∧ Refuses st c dir ∨ q.1 = true ∧ ∃ path file p, Makes st c dir path file p := by
  have hop := Opened.refl st
  obtain ⟨hgo, hback⟩ := dir_lookup_leads hop hc (some c) hdir
  obtain ⟨l, hl, h⟩ := bind_eq_ok h
  obtain ⟨r, hr⟩ := hback l hl
  obtain ⟨st₁, hrun, hop₁, -⟩ := hgo r hr
  obtain rfl := Except.ok.inj (hrun.symm.trans hl)
  cases r with
  | some y =>
    rw [← Except.ok.inj h]
    exact Or.inl ⟨rfl, Or.inl ⟨y, hr⟩⟩
  | none =>
    dsimp only [Option.isSome] at h
    rw [if_neg (by simp), looked_up_none] at h
    obtain ⟨⟨path, file⟩, hparse, h⟩ := bind_eq_ok h
    dsimp only at h
    by_cases hpath : path = []
    · rw [dir_lookup, if_pos hpath, ok_bind] at h
      dsimp only at h
      rw [if_pos rfl] at h
      obtain ⟨curr_dir, -, h⟩ := bind_eq_ok h
      obtain ⟨st', -, h⟩ := bind_eq_ok h
      rw [← Except.ok.inj h]
      exact Or.inr ⟨rfl, path, file, c, hr, hparse, Or.inl ⟨hpath, rfl⟩⟩
    obtain ⟨hgo₂, hback₂⟩ := dir_lookup_leads hop₁ (hop₁.opened c hc) (some c) hpath
    obtain ⟨l₂, hl₂, h⟩ := bind_eq_ok h
    obtain ⟨r₂, hr₂⟩ := hback₂ l₂ hl₂
    obtain ⟨st₂, hrun₂, -⟩ := hgo₂ r₂ hr₂
    obtain rfl := Except.ok.inj (hrun₂.symm.trans hl₂)
    cases r₂ with
    | none =>
      rw [← Except.ok.inj h]
      exact Or.inl ⟨rfl, Or.inr ⟨hr, path, file, hparse, hpath, hr₂⟩⟩
    | some p =>
      dsimp only [Option.isSome] at h
      rw [if_pos rfl] at h
      obtain ⟨curr_dir, hopen, h⟩ := bind_eq_ok h
      obtain ⟨st', hmade, h⟩ := bind_eq_ok h
      rw [← Except.ok.inj h]
      refine Or.inr ⟨rfl, path, file, p, hr, hparse, Or.inr ⟨hpath, ?_, hr₂⟩⟩
      -- a variable that was not assigned is null, and `dir_create` does not get past it
      cases hv : looked_up path (some p) with
      | inode y => rw [Option.some.inj (looked_up_inode hv)]
      | null =>
        rw [hv] at hopen
        obtain rfl := Except.ok.inj hopen
        obtain ⟨a, -, hmade⟩ := bind_eq_ok hmade
        obtain ⟨q, -, hmade⟩ := bind_eq_ok hmade
        cases hmade
      | unassigned =>
        rw [hv] at hopen
        obtain rfl := Except.ok.inj hopen
        obtain ⟨a, -, hmade⟩ := bind_eq_ok hmade
        obtain ⟨q, -, hmade⟩ := bind_eq_ok hmade
        cases hmade

end Lookups

end Pintos.Filesys
