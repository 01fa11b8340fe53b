/-
`filesys/filesys.c`, and the system calls `create`, `remove`, `open` and `close` of
`userprog/syscall.c` over it.

The three functions of `filesys.c` cut a path with `parse_path` and look its directory up
with `dir_lookup`, each with its own cases for an absolute path and for an empty directory
part. Every handle they open on the way stays open: none of them calls `dir_close`.
What that does to the reference counts is the second half of this module: `Gains` says by
how many an operation has raised the count of each inode.
-/
import Pintos.Filesys.Resolve

set_option autoImplicit false

namespace Pintos.Filesys

open Pintos.Kernel WordImage

/-! ## `filesys/filesys.c` -/

/-- `!strncmp (name, "/", 1)`. -/
def is_absolute (name : Str) : Prop := name.head? = some slash

instance (name : Str) : Decidable (is_absolute name) := inferInstanceAs (Decidable (_ = _))

/-- `dir_open_root`. -/
def dir_open_root (st : Store) : Res Store := st.inode_open ROOT_DIR_SECTOR

/-- The directory in `filesys_create`, for a thread whose current directory is not removed. -/
def create_dir (st : Store) (c : ℕ) (name path : Str) : Res (Option ℕ × Store) := do
  let r ← (if is_absolute name then do
      let st ← dir_open_root st
      dir_lookup st (some c) ROOT_DIR_SECTOR path
    else dir_lookup st (some c) c path)
  let dir ← dir_open r.2.1
  return (dir, r.2.2)

/-- `filesys_create`, from the directory on: `free_map_allocate`, `inode_create`, `dir_add`,
and the release of the sector where one of them fails. -/
def create_in (st : Store) (dir : Option ℕ) (file_name : Str) (initial_size : ℕ) :
    Res (Bool × Store) :=
  match dir with
  | none => .ok (false, st)
  | some d => do
    let a ← free_map_allocate st.fs 1
    match a.1 with
    | none => return (false, { st with fs := a.2 })
    | some inode_sector =>
      let c ← inode_create a.2 inode_sector initial_size false
      if c.1 then do
        let r ← dir_add { st with fs := c.2, live := inode_sector :: st.live } d file_name
          inode_sector
        if r.1 then return r
        else do
          let fs ← free_map_release r.2.fs inode_sector 1
          return (false, { r.2 with fs := fs, live := st.live })
      else do
        let fs ← free_map_release c.2 inode_sector 1
        return (false, { st with fs := fs })

/-- `filesys_create`. -/
def filesys_create (st : Store) (curr_dir : Option ℕ) (name : Str) (initial_size : ℕ) :
    Res (Bool × Store) := do
  let p ← parse_path name
  match curr_dir with
  | none =>
    let st ← dir_open_root st
    create_in st (some ROOT_DIR_SECTOR) p.2 initial_size
  | some c =>
    let inode ← st.deref c
    if inode.removed then return (false, st)
    else do
      let r ← create_dir st c name p.1
      create_in r.2 r.1 p.2 initial_size

/-- The directory in `filesys_open`. -/
def open_dir (st : Store) (c : ℕ) (name path : Str) : Res (Option ℕ × Store) :=
  if path = [] then
    if is_absolute name then do
      let st ← dir_open_root st
      return (some ROOT_DIR_SECTOR, st)
    else .ok (some c, st)
  else do
    let r ← (if is_absolute name then do
        let st ← dir_open_root st
        dir_lookup st (some c) ROOT_DIR_SECTOR
          (if (name.drop 1).head? = some slash then path.drop 1 else path)
      else dir_lookup st (some c) c path)
    let dir ← dir_open r.2.1
    return (dir, r.2.2)

/-- The last lookup of `filesys_open`, and `file_open`: the inode of the file. -/
def open_in (st : Store) (curr_dir dir : Option ℕ) (file_name : Str) : Res (Option ℕ × Store) :=
  match dir with
  | none => .ok (none, st)
  | some d => do
    let r ← dir_lookup st curr_dir d file_name
    match r.2.1 with
    | .inode x => return (some x, r.2.2)
    | _ => return (none, r.2.2)

/-- `filesys_open`. -/
def filesys_open (st : Store) (curr_dir : Option ℕ) (name : Str) : Res (Option ℕ × Store) := do
  let p ← parse_path name
  match curr_dir with
  | none =>
    let st ← dir_open_root st
    open_in st curr_dir (some ROOT_DIR_SECTOR) p.2
  | some c =>
    let inode ← st.deref c
    if inode.removed then return (none, st)
    else do
      let r ← open_dir st c name p.1
      open_in r.2 curr_dir r.1 p.2

/-- The directory in `filesys_remove`. -/
def remove_dir (st : Store) (c : ℕ) (name path : Str) : Res (Option ℕ × Store) :=
  if path = [] then
    if is_absolute name then do
      let st ← dir_open_root st
      return (some ROOT_DIR_SECTOR, st)
    else .ok (some c, st)
  else do
    let r ← (if is_absolute name then do
        let st ← dir_open_root st
        dir_lookup st (some c) ROOT_DIR_SECTOR path
      else dir_lookup st (some c) c path)
    let dir ← dir_open r.2.1
    return (dir, r.2.2)

/-- `filesys_remove`. -/
def filesys_remove (st : Store) (curr_dir : Option ℕ) (name : Str) : Res (Bool × Store) := do
  let p ← parse_path name
  let r ← (match curr_dir with
    | none => do
      let st ← dir_open_root st
      return (some ROOT_DIR_SECTOR, st)
    | some c => remove_dir st c name p.1)
  match r.1 with
  | none => return (false, r.2)
  | some d => dir_remove r.2 d p.2

/-! ## System calls -/

/-- `create`, by a process with the current directory `c`, behind the check of the pointer. -/
def create (st : Store) (c : ℕ) (file : Str) (initial_size : ℕ) : Res (Bool × Store) :=
  if 14 < file.length then .ok (false, st)
  else do
    let r ← filesys_open st (some c) file
    match r.1 with
    | none => filesys_create r.2 (some c) file initial_size
    | some _ => return (false, r.2)

/-- `remove`. -/
def remove (st : Store) (c : ℕ) (file : Str) : Res (Bool × Store) := filesys_remove st (some c) file

/-- `open`: the inode of the file in the new descriptor, or none for -1. -/
def sys_open (st : Store) (c : ℕ) (file : Str) : Res (Option ℕ × Store) :=
  if file = [] then .ok (none, st) else filesys_open st (some c) file

/-- `close` of a descriptor whose file has the inode `x`. The file was opened by `open`, so
`file_allow_write` has nothing to undo. -/
def close (st : Store) (x : ℕ) : Res Store := st.inode_close x

/-! ## Reference counts -/

/-- `open_cnt` of the inode at a sector, zero when it is not open. -/
def Store.open_cnt (st : Store) (x : ℕ) : ℕ :=
  match st.open_inodes x with
  | some inode => inode.open_cnt
  | none => 0

/-- An inode that is open is counted. -/
def Counted (st : Store) : Prop := ∀ y inode, st.open_inodes y = some inode → 0 < inode.open_cnt

/-- The counts have risen by the inodes of a list. -/
structure Gains (st st' : Store) (l : List ℕ) : Prop where
  cnt : ∀ y, st'.open_cnt y = st.open_cnt y + l.count y
  counted : Counted st → Counted st'

variable {st st' st'' : Store} {x c : ℕ}

theorem Gains.of_eq (h : st'.open_inodes = st.open_inodes) : Gains st st' [] := by
  refine ⟨fun y => ?_, fun hc => ?_⟩
  · unfold Store.open_cnt
    rw [h]
    rfl
  · unfold Counted
    rw [h]
    exact hc

theorem Gains.refl (st : Store) : Gains st st [] := Gains.of_eq rfl

theorem Gains.trans {l l' : List ℕ} (h : Gains st st' l) (h' : Gains st' st'' l') :
    Gains st st'' (l ++ l') := by
  refine ⟨fun y => ?_, fun hc => h'.counted (h.counted hc)⟩
  rw [h'.cnt, h.cnt, List.count_append, Nat.add_assoc]

/-- Counts that have risen are not what they were. -/
theorem Gains.balanced_iff {l : List ℕ} (h : Gains st st' l) :
    (∀ y, st'.open_cnt y = st.open_cnt y) ↔ l = [] := by
  constructor
  · intro hsame
    refine List.eq_nil_iff_forall_not_mem.mpr fun y hy => ?_
    have hcount := List.count_pos_iff.mpr hy
    have hy' := h.cnt y
    rw [hsame y] at hy'
    omega
  · rintro rfl y
    exact h.cnt y

theorem set_inode_cnt (inode : Option Inode) (y : ℕ) : (st.set_inode x inode).open_cnt y =
    if y = x then (inode.map Inode.open_cnt).getD 0 else st.open_cnt y := by
  unfold Store.open_cnt
  by_cases hy : y = x
  · rw [if_pos hy, hy, set_inode_self]
    cases inode <;> rfl
  · rw [if_neg hy, set_inode_of_ne _ hy]

/-- Storing a counted inode. -/
theorem set_inode_counted {inode : Inode} (h : 0 < inode.open_cnt) (hc : Counted st) :
    Counted (st.set_inode x (some inode)) := by
  intro y i hi
  by_cases hy : y = x
  · rw [hy, set_inode_self] at hi
    rw [← Option.some.inj hi]
    exact h
  · rw [set_inode_of_ne _ hy] at hi
    exact hc y i hi

/-- The inode that `inode_open` leaves: one count more, or a new one. -/
theorem inode_open_cases (h : st.inode_open x = .ok st') :
    ∃ inode, st' = st.set_inode x (some inode) ∧ inode.open_cnt = st.open_cnt x + 1 ∧
      (inode.removed = true → st.open_inodes x ≠ none) := by
  unfold Store.inode_open at h
  cases hopen : st.open_inodes x with
  | some inode =>
    rw [hopen] at h
    obtain rfl := Except.ok.inj h
    refine ⟨_, rfl, ?_, fun _ => Option.some_ne_none _⟩
    rw [Store.open_cnt, hopen]
  | none =>
    rw [hopen] at h
    obtain ⟨inode, hread, hret⟩ := bind_eq_ok h
    obtain ⟨b, -, hinode⟩ := bind_eq_ok hread
    obtain rfl := Except.ok.inj hret
    obtain rfl := Except.ok.inj hinode
    refine ⟨_, rfl, ?_, fun hremoved => by cases hremoved⟩
    rw [Store.open_cnt, hopen]

/-- `inode_open` raises one count. -/
theorem inode_open_gains (h : st.inode_open x = .ok st') : Gains st st' [x] := by
  obtain ⟨inode, rfl, hcnt, -⟩ := inode_open_cases h
  refine ⟨fun y => ?_, set_inode_counted (by omega)⟩
  rw [set_inode_cnt, List.count_singleton]
  by_cases hy : y = x
  · simp [hy, hcnt]
  · simp [hy, Ne.symm hy]

/-- `inode_close` lowers one count. -/
theorem inode_close_cnt (h : st.inode_close x = .ok st') (y : ℕ) :
    st'.open_cnt y = if y = x then st.open_cnt x - 1 else st.open_cnt y := by
  unfold Store.inode_close at h
  cases hopen : st.open_inodes x with
  | none =>
    rw [hopen] at h
    cases h
  | some inode =>
    rw [hopen] at h
    have hold : st.open_cnt x = inode.open_cnt := by rw [Store.open_cnt, hopen]
    rw [hold]
    dsimp only at h
    by_cases hlast : inode.open_cnt - 1 = 0
    · have hnone : ((st.set_inode x none).open_cnt y) =
          if y = x then inode.open_cnt - 1 else st.open_cnt y := by
        rw [set_inode_cnt, hlast]
        rfl
      rw [if_pos hlast] at h
      by_cases hremoved : inode.removed = true
      · rw [if_pos hremoved] at h
        obtain ⟨fs, -, hret⟩ := bind_eq_ok h
        obtain rfl := Except.ok.inj hret
        exact hnone
      · rw [if_neg hremoved] at h
        obtain rfl := Except.ok.inj h
        exact hnone
    · rw [if_neg hlast] at h
      obtain rfl := Except.ok.inj h
      rw [set_inode_cnt]
      rfl

/-- Closing what was opened last leaves the counts from before it. -/
theorem close_gains {l : List ℕ} (hopen : Gains st st' (l ++ [x]))
    (hclose : st'.inode_close x = .ok st'') (y : ℕ) :
    st''.open_cnt y = st.open_cnt y + l.count y := by
  rw [inode_close_cnt hclose, hopen.cnt x, hopen.cnt y, List.count_append, List.count_append]
  by_cases hy : y = x
  · simp [hy]
  · simp [hy, Ne.symm hy]

/-- An inode that was just opened can be closed. -/
theorem inode_close_of_open (hc : Counted st) (h : st.inode_open x = .ok st') :
    ∃ st'', st'.inode_close x = .ok st'' := by
  obtain ⟨inode, rfl, hcnt, hremoved⟩ := inode_open_cases h
  unfold Store.inode_close
  rw [set_inode_self]
  dsimp only
  by_cases hlast : inode.open_cnt - 1 = 0
  · rw [if_pos hlast]
    have hnot : inode.removed ≠ true := by
      intro hr
      obtain ⟨i, hi⟩ := Option.ne_none_iff_exists'.mp (hremoved hr)
      have hpos := hc x i hi
      rw [Store.open_cnt, hi] at hcnt
      dsimp only at hcnt
      omega
    rw [if_neg hnot]
    exact ⟨_, rfl⟩
  · rw [if_neg hlast]
    exact ⟨_, rfl⟩

theorem add_blocks_cnt {s s' : FileSys} {inode inode' : Inode} {n : ℕ}
    (h : add_blocks s inode n = .ok (inode', s')) : inode'.open_cnt = inode.open_cnt := by
  obtain ⟨s₁, -, h⟩ := bind_eq_ok h
  obtain ⟨a, -, h⟩ := bind_eq_ok h
  by_cases hok : a.1 = true
  · rw [if_pos hok] at h
    obtain ⟨s₂, -, h⟩ := bind_eq_ok h
    rw [← (Prod.mk.inj (Except.ok.inj h)).1]
  · rw [if_neg hok] at h
    rw [← (Prod.mk.inj (Except.ok.inj h)).1]

/-- A write leaves the counts. -/
theorem inode_write_at_cnt {s s' : FileSys} {inode inode' : Inode} {b : ℕ → UInt8}
    {size offset n : ℕ} (h : inode_write_at s inode b size offset = .ok (n, inode', s')) :
    inode'.open_cnt = inode.open_cnt := by
  unfold inode_write_at inode_write_at_with at h
  by_cases hdeny : inode.deny_write_cnt ≠ 0
  · rw [if_pos hdeny] at h
    obtain ⟨-, h⟩ := Prod.mk.inj (Except.ok.inj h)
    rw [(Prod.mk.inj h).1]
  rw [if_neg hdeny] at h
  by_cases hover : 2 ^ 31 ≤ offset + size
  · rw [if_pos hover] at h
    cases h
  rw [if_neg hover] at h
  obtain ⟨r, hgrow, h⟩ := bind_eq_ok h
  obtain ⟨w, -, h⟩ := bind_eq_ok h
  obtain ⟨-, h⟩ := Prod.mk.inj (Except.ok.inj h)
  rw [← (Prod.mk.inj h).1]
  by_cases hext : inode.data.length < offset + size
  swap
  · rw [if_neg hext] at hgrow
    obtain rfl := Except.ok.inj hgrow
    rfl
  rw [if_pos hext] at hgrow
  obtain ⟨⟨i, s₀⟩, hblocks, hgrow⟩ := bind_eq_ok hgrow
  obtain ⟨s₁, -, hgrow⟩ := bind_eq_ok hgrow
  obtain ⟨s₂, -, hgrow⟩ := bind_eq_ok hgrow
  obtain rfl := Except.ok.inj hgrow
  by_cases hneeds : needs_blocks inode.data.length (offset + size)
  · rw [if_pos hneeds] at hblocks
    show i.open_cnt = inode.open_cnt
    exact add_blocks_cnt hblocks
  · rw [if_neg hneeds] at hblocks
    obtain ⟨rfl, -⟩ := Prod.mk.inj (Except.ok.inj hblocks)
    rfl

theorem write_at_gains {w : WriteReq} {n : ℕ} (h : st.write_at x w = .ok (n, st')) :
    Gains st st' [] := by
  obtain ⟨inode, hderef, h⟩ := bind_eq_ok h
  obtain ⟨r, hwrite, h⟩ := bind_eq_ok h
  obtain ⟨-, rfl⟩ := Prod.mk.inj (Except.ok.inj h)
  have hopen : st.open_inodes x = some inode := by
    unfold Store.deref at hderef
    cases hopen : st.open_inodes x with
    | none =>
      rw [hopen] at hderef
      cases hderef
    | some i =>
      rw [hopen] at hderef
      rw [Except.ok.inj hderef]
  have hsame : r.2.1.open_cnt = inode.open_cnt := inode_write_at_cnt hwrite
  refine ⟨fun y => ?_, fun hc => set_inode_counted (hsame ▸ hc x inode hopen) hc⟩
  show (st.set_inode x (some r.2.1)).open_cnt y = _
  rw [set_inode_cnt]
  by_cases hy : y = x
  · rw [if_pos hy, hy, Store.open_cnt, hopen]
    exact hsame
  · rw [if_neg hy]
    rfl

/-- `dir_add` opens nothing. -/
theorem dir_add_gains {d sector : ℕ} {name : Str} {b : Bool}
    (h : dir_add st d name sector = .ok (b, st')) : Gains st st' [] := by
  unfold dir_add at h
  by_cases hname : name = [] ∨ NAME_MAX < name.length
  · rw [if_pos hname] at h
    obtain ⟨-, rfl⟩ := Prod.mk.inj (Except.ok.inj h)
    exact Gains.refl st
  rw [if_neg hname] at h
  obtain ⟨r, -, h⟩ := bind_eq_ok h
  cases r with
  | some e =>
    obtain ⟨-, rfl⟩ := Prod.mk.inj (Except.ok.inj h)
    exact Gains.refl st
  | none =>
    obtain ⟨inode, -, h⟩ := bind_eq_ok h
    obtain ⟨ofs, -, h⟩ := bind_eq_ok h
    obtain ⟨w, hwrite, h⟩ := bind_eq_ok h
    obtain ⟨-, rfl⟩ := Prod.mk.inj (Except.ok.inj h)
    exact write_at_gains hwrite

/-- `filesys_create` opens nothing once it has its directory. -/
theorem create_in_gains {dir : Option ℕ} {file_name : Str} {n : ℕ} {b : Bool}
    (h : create_in st dir file_name n = .ok (b, st')) : Gains st st' [] := by
  cases dir with
  | none =>
    obtain ⟨-, rfl⟩ := Prod.mk.inj (Except.ok.inj h)
    exact Gains.refl st
  | some d =>
    obtain ⟨a, -, h⟩ := bind_eq_ok h
    dsimp only at h
    split at h
    · obtain ⟨-, rfl⟩ := Prod.mk.inj (Except.ok.inj h)
      exact Gains.of_eq rfl
    · obtain ⟨i, -, h⟩ := bind_eq_ok h
      by_cases hmade : i.1 = true
      · rw [if_pos hmade] at h
        obtain ⟨r, hadd, h⟩ := bind_eq_ok h
        have hadded := dir_add_gains hadd
        have hgains : Gains st r.2 [] := ⟨hadded.cnt, hadded.counted⟩
        by_cases hr : r.1 = true
        · rw [if_pos hr] at h
          obtain rfl := Except.ok.inj h
          exact hgains
        · rw [if_neg hr] at h
          obtain ⟨fs, -, h⟩ := bind_eq_ok h
          obtain ⟨-, rfl⟩ := Prod.mk.inj (Except.ok.inj h)
          exact hgains.trans (Gains.of_eq rfl)
      · rw [if_neg hmade] at h
        obtain ⟨fs, -, h⟩ := bind_eq_ok h
        obtain ⟨-, rfl⟩ := Prod.mk.inj (Except.ok.inj h)
        exact Gains.of_eq rfl

/-! ## What a path opens -/

/-- `lookup` finds the name. -/
def Finds (st : Store) (x : ℕ) (name : Str) : Prop := ∃ e, lookup st x name = .ok (some e)

theorem not_finds {x : ℕ} {name : Str} (h : lookup st x name = .ok none) : ¬ Finds st x name := by
  rintro ⟨e, he⟩
  rw [h] at he
  cases he

/-- Looking a directory part up from `x` opens an inode: the part is `"."`, or its first
component other than `"."` is found. -/
def Opens (st : Store) (x : ℕ) (path : Str) : Prop :=
  if slash ∈ path then
    ∃ t ∈ (tokens path).find? (fun t => t ≠ dot), Finds st x t
  else path = dot ∨ Finds st x path

/-- The loop opens an inode exactly when the first name is found, and it assigns the variable
exactly when it has a name to follow. -/
theorem walk_loop_gains (ts : List Str) : ∀ (st : Store) (x : ℕ) (v : InodeVar) (b : Bool)
    (w : InodeVar) (st' : Store), walk_loop st x v ts = .ok (b, w, st') →
    ∃ l, Gains st st' l ∧ (l = [] ↔ ¬ ∃ t ∈ ts.find? (fun t => t ≠ dot), Finds st x t) ∧
      (l = [] → (w = v ∨ w = .null) ∧ st' = st) := by
  induction ts with
  | nil =>
    intro st x v b w st' h
    obtain ⟨-, h⟩ := Prod.mk.inj (Except.ok.inj h)
    obtain ⟨rfl, rfl⟩ := Prod.mk.inj h
    exact ⟨[], Gains.refl st, by simp, fun _ => ⟨Or.inl rfl, rfl⟩⟩
  | cons t ts ih =>
    intro st x v b w st' h
    unfold walk_loop at h
    by_cases ht : t = dot
    · rw [if_pos ht] at h
      rw [List.find?_cons_of_neg (by simpa using ht)]
      exact ih st x v b w st' h
    rw [if_neg ht] at h
    rw [List.find?_cons_of_pos (by simpa using ht)]
    obtain ⟨r, hlookup, h⟩ := bind_eq_ok h
    cases r with
    | none =>
      obtain ⟨-, h⟩ := Prod.mk.inj (Except.ok.inj h)
      obtain ⟨rfl, rfl⟩ := Prod.mk.inj h
      exact ⟨[], Gains.refl st, by simp [not_finds hlookup], fun _ => ⟨Or.inr rfl, rfl⟩⟩
    | some e =>
      obtain ⟨st₁, hopen, h⟩ := bind_eq_ok h
      obtain ⟨l, hgains, -, -⟩ := ih _ _ _ _ _ _ h
      have hfinds : Finds st x t := ⟨e, hlookup⟩
      exact ⟨_, (inode_open_gains hopen).trans hgains, by simp [hfinds], fun hnil => by cases hnil⟩

theorem dir_lookup_gains {curr_dir : Option ℕ} {path : Str} (hpath : path ≠ []) {b : Bool}
    {v : InodeVar} (h : dir_lookup st curr_dir x path = .ok (b, v, st')) :
    ∃ l, Gains st st' l ∧ (l = [] ↔ ¬ Opens st x path) ∧
      (l = [] → (v = .unassigned ∨ v = .null) ∧ st' = st) ∧
      (slash ∉ path → (v = .null ∧ l = []) ∨
        ∃ y, v = .inode y ∧ l = [y] ∧ st.inode_open y = .ok st') := by
  unfold dir_lookup at h
  unfold Opens
  rw [if_neg hpath] at h
  by_cases hslash : slash ∈ path
  · rw [if_pos hslash] at h ⊢
    obtain ⟨l, hgains, hnil, hv⟩ := walk_loop_gains _ _ _ _ _ _ _ h
    exact ⟨l, hgains, hnil, hv, fun hnot => absurd hslash hnot⟩
  rw [if_neg hslash] at h ⊢
  by_cases hdot : path = dot
  · rw [if_pos hdot] at h
    obtain ⟨st₁, hopen, h⟩ := bind_eq_ok h
    obtain ⟨-, h⟩ := Prod.mk.inj (Except.ok.inj h)
    obtain ⟨rfl, rfl⟩ := Prod.mk.inj h
    exact ⟨[x], inode_open_gains hopen, by simp [hdot], fun hnil => (by cases hnil),
      fun _ => Or.inr ⟨x, rfl, rfl, hopen⟩⟩
  rw [if_neg hdot] at h
  obtain ⟨r, hlookup, h⟩ := bind_eq_ok h
  cases r with
  | none =>
    obtain ⟨-, h⟩ := Prod.mk.inj (Except.ok.inj h)
    obtain ⟨rfl, rfl⟩ := Prod.mk.inj h
    exact ⟨[], Gains.refl st, by simp [hdot, not_finds hlookup],
      fun _ => ⟨Or.inr rfl, rfl⟩,
      fun _ => Or.inl ⟨rfl, rfl⟩⟩
  | some e =>
    obtain ⟨st₁, hopen, h⟩ := bind_eq_ok h
    obtain ⟨-, h⟩ := Prod.mk.inj (Except.ok.inj h)
    obtain ⟨rfl, rfl⟩ := Prod.mk.inj h
    have hfinds : Finds st x path := ⟨e, hlookup⟩
    exact ⟨_, inode_open_gains hopen, by simp [hfinds], fun hnil => (by cases hnil),
      fun _ => Or.inr ⟨_, rfl, rfl, hopen⟩⟩

/-- The directory part of a path, looked up from the current directory without opening
anything: the path is relative, and the part is empty or leads nowhere. -/
def DirQuiet (st : Store) (c : ℕ) (name path : Str) : Prop :=
  ¬ is_absolute name ∧ (path = [] ∨ ¬ Opens st c path)

theorem dir_lookup_rises {curr_dir : Option ℕ} {path : Str} {b : Bool} {v : InodeVar}
    (h : dir_lookup st curr_dir x path = .ok (b, v, st')) : ∃ l, Gains st st' l := by
  by_cases hpath : path = []
  · unfold dir_lookup at h
    rw [if_pos hpath] at h
    cases curr_dir with
    | none => cases h
    | some c =>
      obtain ⟨-, h⟩ := Prod.mk.inj (Except.ok.inj h)
      obtain ⟨-, rfl⟩ := Prod.mk.inj h
      exact ⟨[], Gains.refl st⟩
  · obtain ⟨l, hgains, -⟩ := dir_lookup_gains hpath h
    exact ⟨l, hgains⟩

/-- An absolute path opens the root for good. -/
theorem root_lookup_gains {path : Str} {r : Bool × InodeVar × Store}
    (h : (do let st ← dir_open_root st; dir_lookup st (some c) ROOT_DIR_SECTOR path) = .ok r) :
    ∃ l, Gains st r.2.2 l ∧ l ≠ [] := by
  obtain ⟨st₁, hroot, h⟩ := bind_eq_ok h
  obtain ⟨l, hgains⟩ := dir_lookup_rises h
  exact ⟨_, (inode_open_gains hroot).trans hgains, by simp⟩

/-- The directory part that is looked up from the current directory. -/
theorem relative_dir_gains {path : Str} (hpath : path ≠ []) {r : Bool × InodeVar × Store}
    {dir : Option ℕ} (h : dir_lookup st (some c) c path = .ok r) (hdir : dir_open r.2.1 = .ok dir) :
    ∃ l, Gains st r.2.2 l ∧ (l = [] ↔ ¬ Opens st c path) ∧ (l = [] → dir = none ∧ r.2.2 = st) := by
  obtain ⟨b, v, st₁⟩ := r
  obtain ⟨l, hgains, hnil, hv, -⟩ := dir_lookup_gains hpath h
  refine ⟨l, hgains, hnil, fun hl => ?_⟩
  obtain ⟨rfl | rfl, hst⟩ := hv hl
  · cases hdir
  · exact ⟨(Except.ok.inj hdir).symm, hst⟩

section Dirs

variable {name path : Str} {dir : Option ℕ}

theorem open_dir_gains (h : open_dir st c name path = .ok (dir, st')) :
    ∃ l, Gains st st' l ∧ (l = [] ↔ DirQuiet st c name path) ∧
      (l = [] → st' = st ∧ dir = if path = [] then some c else none) := by
  unfold open_dir at h
  unfold DirQuiet
  by_cases hpath : path = []
  · rw [if_pos hpath] at h
    by_cases habs : is_absolute name
    · rw [if_pos habs] at h
      obtain ⟨st₁, hroot, h⟩ := bind_eq_ok h
      obtain ⟨-, rfl⟩ := Prod.mk.inj (Except.ok.inj h)
      exact ⟨_, inode_open_gains hroot, by simp [habs], fun hnil => by cases hnil⟩
    · rw [if_neg habs] at h
      obtain ⟨rfl, rfl⟩ := Prod.mk.inj (Except.ok.inj h)
      exact ⟨[], Gains.refl st, by simp [habs, hpath], fun _ => ⟨rfl, (if_pos hpath).symm⟩⟩
  · rw [if_neg hpath] at h
    obtain ⟨r, hr, h⟩ := bind_eq_ok h
    obtain ⟨d, hd, h⟩ := bind_eq_ok h
    obtain ⟨rfl, rfl⟩ := Prod.mk.inj (Except.ok.inj h)
    by_cases habs : is_absolute name
    · rw [if_pos habs] at hr
      obtain ⟨l, hgains, hne⟩ := root_lookup_gains hr
      exact ⟨l, hgains, by simp [habs, hne], fun hnil => absurd hnil hne⟩
    · rw [if_neg habs] at hr
      obtain ⟨l, hgains, hnil, hnone⟩ := relative_dir_gains hpath hr hd
      refine ⟨l, hgains, by simp [habs, hpath, hnil], fun hl => ⟨(hnone hl).2, ?_⟩⟩
      rw [if_neg hpath]
      exact (hnone hl).1

theorem remove_dir_gains (h : remove_dir st c name path = .ok (dir, st')) :
    ∃ l, Gains st st' l ∧ (l = [] ↔ DirQuiet st c name path) := by
  unfold remove_dir at h
  unfold DirQuiet
  by_cases hpath : path = []
  · rw [if_pos hpath] at h
    by_cases habs : is_absolute name
    · rw [if_pos habs] at h
      obtain ⟨st₁, hroot, h⟩ := bind_eq_ok h
      obtain ⟨-, rfl⟩ := Prod.mk.inj (Except.ok.inj h)
      exact ⟨_, inode_open_gains hroot, by simp [habs]⟩
    · rw [if_neg habs] at h
      obtain ⟨-, rfl⟩ := Prod.mk.inj (Except.ok.inj h)
      exact ⟨[], Gains.refl st, by simp [habs, hpath]⟩
  · rw [if_neg hpath] at h
    obtain ⟨r, hr, h⟩ := bind_eq_ok h
    obtain ⟨d, hd, h⟩ := bind_eq_ok h
    obtain ⟨-, rfl⟩ := Prod.mk.inj (Except.ok.inj h)
    by_cases habs : is_absolute name
    · rw [if_pos habs] at hr
      obtain ⟨l, hgains, hne⟩ := root_lookup_gains hr
      exact ⟨l, hgains, by simp [habs, hne]⟩
    · rw [if_neg habs] at hr
      obtain ⟨l, hgains, hnil, -⟩ := relative_dir_gains hpath hr hd
      exact ⟨l, hgains, by simp [habs, hpath, hnil]⟩

theorem create_dir_gains (h : create_dir st c name path = .ok (dir, st')) :
    ∃ l, Gains st st' l ∧ (l = [] ↔ DirQuiet st c name path) := by
  unfold create_dir at h
  unfold DirQuiet
  obtain ⟨r, hr, h⟩ := bind_eq_ok h
  obtain ⟨d, hd, h⟩ := bind_eq_ok h
  obtain ⟨-, rfl⟩ := Prod.mk.inj (Except.ok.inj h)
  by_cases habs : is_absolute name
  · rw [if_pos habs] at hr
    obtain ⟨l, hgains, hne⟩ := root_lookup_gains hr
    exact ⟨l, hgains, by simp [habs, hne]⟩
  · rw [if_neg habs] at hr
    by_cases hpath : path = []
    · rw [dir_lookup, if_pos hpath] at hr
      obtain rfl := Except.ok.inj hr
      exact ⟨[], Gains.refl st, by simp [habs, hpath]⟩
    · obtain ⟨l, hgains, hnil, -⟩ := relative_dir_gains hpath hr hd
      exact ⟨l, hgains, by simp [habs, hpath, hnil]⟩

end Dirs

/-! ## The four calls -/

/-- The current directory has been removed. -/
def Gone (st : Store) (c : ℕ) : Prop := ∃ inode, st.open_inodes c = some inode ∧ inode.removed = true

theorem deref_eq_ok {inode : Inode} : st.deref x = .ok inode ↔ st.open_inodes x = some inode := by
  unfold Store.deref
  cases st.open_inodes x <;> simp

theorem gone_iff {inode : Inode} (h : st.open_inodes c = some inode) :
    Gone st c ↔ inode.removed = true := by
  unfold Gone
  rw [h]
  simp

section Names

variable {name path file : Str} (hparse : parse_path name = .ok (path, file))

include hparse

/-- **`filesys_open`**: what it opens besides the file it returns. -/
theorem filesys_open_gains (hname : name ≠ []) {r : Option ℕ}
    (h : filesys_open st (some c) name = .ok (r, st')) : ∃ l, Gains st st' (l ++ r.toList) ∧
      (l = [] ↔ Gone st c ∨ DirQuiet st c name path) ∧
      (r ≠ none → ¬ Gone st c ∧ (l = [] ↔ ¬ is_absolute name ∧ path = [])) ∧
      (l = [] → r = none → st' = st) ∧
      (¬ Gone st c → DirQuiet st c name path → path = [] →
        (r = none ↔ file ≠ dot ∧ ¬ Finds st c file)) ∧
      ∀ x, r = some x → ∃ st₁, Gains st st₁ l ∧ st₁.inode_open x = .ok st' := by
  obtain ⟨hslash, hne⟩ := parse_path_file hparse
  unfold filesys_open at h
  rw [hparse, ok_bind] at h
  obtain ⟨inode, hderef, h⟩ := bind_eq_ok h
  rw [deref_eq_ok] at hderef
  have hgone := gone_iff hderef
  by_cases hremoved : inode.removed = true
  · rw [if_pos hremoved] at h
    obtain ⟨rfl, rfl⟩ := Prod.mk.inj (Except.ok.inj h)
    exact ⟨[], Gains.refl st, by simp [hgone, hremoved], by simp, fun _ _ => rfl,
      fun hnot => absurd (hgone.mpr hremoved) hnot, by simp⟩
  rw [if_neg hremoved] at h
  obtain ⟨⟨dir, st₁⟩, hdir, h⟩ := bind_eq_ok h
  obtain ⟨l, hgains, hquiet, hsame⟩ := open_dir_gains hdir
  have hiff : l = [] ↔ Gone st c ∨ DirQuiet st c name path := by
    rw [hquiet, hgone]
    simp [hremoved]
  have hthere : ¬ Gone st c := fun hg => hremoved (hgone.mp hg)
  cases dir with
  | none =>
    obtain ⟨rfl, rfl⟩ := Prod.mk.inj (Except.ok.inj h)
    refine ⟨l, by simpa using hgains, hiff, by simp, fun hl _ => (hsame hl).1, fun _ hq hp => ?_,
      by simp⟩
    have hc := (hsame (hquiet.mpr hq)).2
    rw [if_pos hp] at hc
    cases hc
  | some d =>
    have hsuccess : l = [] ↔ ¬ is_absolute name ∧ path = [] := by
      constructor
      · intro hl
        refine ⟨(hquiet.mp hl).1, ?_⟩
        by_contra hp
        have hd := (hsame hl).2
        rw [if_neg hp] at hd
        cases hd
      · rintro ⟨habs, hp⟩
        exact hquiet.mpr ⟨habs, Or.inl hp⟩
    obtain ⟨⟨b, v, st₂⟩, hlookup, h⟩ := bind_eq_ok h
    obtain ⟨l', hgains', hopens, hnull, hlast⟩ := dir_lookup_gains (hne hname) hlookup
    -- from the current directory, the file is there exactly when its lookup opens it
    have hfile : DirQuiet st c name path → path = [] → (l' = [] ↔ file ≠ dot ∧ ¬ Finds st c file) := by
      intro hq hp
      obtain ⟨rfl, hd⟩ := hsame (hquiet.mpr hq)
      rw [if_pos hp] at hd
      obtain rfl := Option.some.inj hd
      rw [hopens, Opens, if_neg hslash, not_or]
    rcases hlast hslash with ⟨rfl, rfl⟩ | ⟨y, rfl, rfl, hopen⟩
    · obtain ⟨rfl, rfl⟩ := Prod.mk.inj (Except.ok.inj h)
      refine ⟨l, hgains.trans hgains', hiff, by simp, fun hl _ => ?_, fun _ hq hp => ?_, by simp⟩
      · exact (hnull rfl).2.trans (hsame hl).1
      · exact iff_of_true rfl ((hfile hq hp).mp rfl)
    · obtain ⟨rfl, rfl⟩ := Prod.mk.inj (Except.ok.inj h)
      refine ⟨l, hgains.trans hgains', hiff, fun _ => ⟨hthere, hsuccess⟩,
        fun _ hr => (by cases hr), fun _ hq hp => ?_, fun x hx => ?_⟩
      · refine iff_of_false (Option.some_ne_none _) fun hnot => ?_
        cases (hfile hq hp).mpr hnot
      · obtain rfl := Option.some.inj hx
        exact ⟨st₁, hgains, hopen⟩

omit hparse in
/-- The empty path opens nothing. -/
theorem filesys_open_nil {r : Option ℕ} (h : filesys_open st (some c) [] = .ok (r, st')) :
    st' = st := by
  obtain ⟨p, hp, h⟩ := bind_eq_ok h
  obtain rfl : ([], []) = p := Except.ok.inj hp
  obtain ⟨inode, -, h⟩ := bind_eq_ok h
  split_ifs at h
  · exact (Prod.mk.inj (Except.ok.inj h)).2.symm
  · exact (Prod.mk.inj (Except.ok.inj h)).2.symm

/-- A `filesys_create` that fails opens what its directory part opens. -/
theorem filesys_create_gains {n : ℕ} {b : Bool}
    (h : filesys_create st (some c) name n = .ok (b, st')) : ∃ l, Gains st st' l ∧
      (l = [] ↔ Gone st c ∨ DirQuiet st c name path) := by
  unfold filesys_create at h
  rw [hparse, ok_bind] at h
  obtain ⟨inode, hderef, h⟩ := bind_eq_ok h
  rw [deref_eq_ok] at hderef
  have hgone := gone_iff hderef
  by_cases hremoved : inode.removed = true
  · rw [if_pos hremoved] at h
    obtain ⟨-, rfl⟩ := Prod.mk.inj (Except.ok.inj h)
    exact ⟨[], Gains.refl st, by simp [hgone, hremoved]⟩
  · rw [if_neg hremoved] at h
    obtain ⟨⟨dir, st₁⟩, hdir, h⟩ := bind_eq_ok h
    obtain ⟨l, hgains, hquiet⟩ := create_dir_gains hdir
    refine ⟨l ++ [], hgains.trans (create_in_gains h), ?_⟩
    rw [List.append_nil, hquiet, hgone]
    simp [hremoved]

end Names

/-- A removal that fails closes the inode it has opened. -/
theorem dir_remove_cnt {d : ℕ} {name : Str} (h : dir_remove st d name = .ok (false, st')) (y : ℕ) :
    st'.open_cnt y = st.open_cnt y := by
  obtain ⟨r, -, h⟩ := bind_eq_ok h
  cases r with
  | none =>
    obtain ⟨-, rfl⟩ := Prod.mk.inj (Except.ok.inj h)
    rfl
  | some r =>
    obtain ⟨e, ofs⟩ := r
    obtain ⟨st₁, hopen, h⟩ := bind_eq_ok h
    have hgains := inode_open_gains hopen
    have hentry : ∀ {st₂ : Store}, remove_entry st₁ d e ofs = .ok (false, st₂) →
        st₂.open_cnt y = st.open_cnt y := by
      intro st₂ hentry
      obtain ⟨⟨n, st₃⟩, hwrite, hentry⟩ := bind_eq_ok hentry
      have hwritten : Gains st st₃ ([] ++ [e.inode_sector]) := hgains.trans (write_at_gains hwrite)
      dsimp only at hentry
      by_cases hshort : n ≠ dir_entry_size
      · rw [if_pos hshort] at hentry
        obtain ⟨st₄, hclose, hentry⟩ := bind_eq_ok hentry
        obtain ⟨-, rfl⟩ := Prod.mk.inj (Except.ok.inj hentry)
        exact close_gains hwritten hclose y
      · rw [if_neg hshort] at hentry
        obtain ⟨st₄, -, hentry⟩ := bind_eq_ok hentry
        obtain ⟨st₅, -, hentry⟩ := bind_eq_ok hentry
        cases (Prod.mk.inj (Except.ok.inj hentry)).1
    obtain ⟨inode, -, h⟩ := bind_eq_ok h
    by_cases hisdir : inode.data.isdir = true
    · rw [if_pos hisdir] at h
      obtain ⟨q, -, h⟩ := bind_eq_ok h
      by_cases hfull : q.1.isSome = true
      · rw [if_pos hfull] at h
        obtain ⟨st₂, hclose, h⟩ := bind_eq_ok h
        obtain ⟨-, rfl⟩ := Prod.mk.inj (Except.ok.inj h)
        have hstart : Gains st st₁ ([] ++ [e.inode_sector]) := hgains
        exact close_gains hstart hclose y
      · rw [if_neg hfull] at h
        exact hentry h
    · rw [if_neg hisdir] at h
      exact hentry h

/-- All counts are what they were. -/
def Balanced (st st' : Store) : Prop := ∀ y, st'.open_cnt y = st.open_cnt y

/-- **Reference counts**: when each of the four calls leaves them as they were. -/
theorem open_cnt_balanced (hc : Counted st) {name path file : Str}
    (hparse : parse_path name = .ok (path, file)) :
    (∀ x st', sys_open st c name = .ok (some x, st') → ∃ st'', close st' x = .ok st'' ∧
      (Balanced st st'' ↔ ¬ is_absolute name ∧ path = [])) ∧
    (∀ st', sys_open st c name = .ok (none, st') →
      (Balanced st st' ↔ name = [] ∨ Gone st c ∨ DirQuiet st c name path)) ∧
    (∀ n st', create st c name n = .ok (false, st') →
      (Balanced st st' ↔ name = [] ∨ 14 < name.length ∨ Gone st c ∨
        (DirQuiet st c name path ∧ (path = [] → file ≠ dot ∧ ¬ Finds st c file)))) ∧
    ∀ st', remove st c name = .ok (false, st') → (Balanced st st' ↔ DirQuiet st c name path) := by
  refine ⟨fun x st' h => ?_, fun st' h => ?_, fun n st' h => ?_, fun st' h => ?_⟩
  · unfold sys_open at h
    by_cases hname : name = []
    · rw [if_pos hname] at h
      cases (Prod.mk.inj (Except.ok.inj h)).1
    rw [if_neg hname] at h
    obtain ⟨l, hgains, -, hsuccess, -, -, hlast⟩ := filesys_open_gains hparse hname h
    obtain ⟨st₁, hdir, hopen⟩ := hlast x rfl
    obtain ⟨st'', hclose⟩ := inode_close_of_open (hdir.counted hc) hopen
    refine ⟨st'', hclose, ?_⟩
    have hrest : ∀ y, st''.open_cnt y = st.open_cnt y + l.count y := close_gains hgains hclose
    rw [← (hsuccess (Option.some_ne_none _)).2]
    constructor
    · intro hbal
      refine List.eq_nil_iff_forall_not_mem.mpr fun y hy => ?_
      have hpos := List.count_pos_iff.mpr hy
      have hy' := hrest y
      rw [hbal y] at hy'
      omega
    · rintro rfl y
      exact hrest y
  · unfold sys_open at h
    by_cases hname : name = []
    · rw [if_pos hname] at h
      obtain ⟨-, rfl⟩ := Prod.mk.inj (Except.ok.inj h)
      exact iff_of_true (fun _ => rfl) (Or.inl hname)
    rw [if_neg hname] at h
    obtain ⟨l, hgains, hquiet, -⟩ := filesys_open_gains hparse hname h
    rw [Option.toList_none, List.append_nil] at hgains
    rw [Balanced, hgains.balanced_iff, hquiet]
    simp [hname]
  · unfold create at h
    by_cases hlong : 14 < name.length
    · rw [if_pos hlong] at h
      obtain ⟨-, rfl⟩ := Prod.mk.inj (Except.ok.inj h)
      exact iff_of_true (fun _ => rfl) (Or.inr (Or.inl hlong))
    rw [if_neg hlong] at h
    obtain ⟨⟨r, st₁⟩, hopen, h⟩ := bind_eq_ok h
    by_cases hname : name = []
    · rw [hname] at hopen
      obtain rfl := filesys_open_nil hopen
      refine iff_of_true ?_ (Or.inl hname)
      cases r with
      | some x =>
        obtain ⟨-, rfl⟩ := Prod.mk.inj (Except.ok.inj h)
        exact fun _ => rfl
      | none =>
        obtain ⟨l, hgains, hquiet⟩ := filesys_create_gains hparse h
        refine hgains.balanced_iff.mpr (hquiet.mpr (Or.inr ⟨?_, Or.inl ?_⟩))
        · rw [hname]
          decide
        · rw [hname] at hparse
          exact (Prod.mk.inj (Except.ok.inj hparse)).1.symm
    obtain ⟨l, hgains, hquiet, hsuccess, hsame, hfile, -⟩ := filesys_open_gains hparse hname hopen
    cases r with
    | some x =>
      -- the file that is there already stays open
      obtain ⟨-, rfl⟩ := Prod.mk.inj (Except.ok.inj h)
      rw [Balanced, hgains.balanced_iff]
      refine iff_of_false (by simp) ?_
      rintro (hnil | hlen | hgone | ⟨hq, hf⟩)
      · exact hname hnil
      · exact hlong hlen
      · exact (hsuccess (Option.some_ne_none _)).1 hgone
      · have hp := ((hsuccess (Option.some_ne_none _)).2.mp (hquiet.mpr (Or.inr hq))).2
        have hnone := (hfile (hsuccess (Option.some_ne_none _)).1 hq hp).mpr (hf hp)
        cases hnone
    | none =>
      obtain ⟨l', hgains', hquiet'⟩ := filesys_create_gains hparse h
      rw [Option.toList_none, List.append_nil] at hgains
      rw [Balanced, (hgains.trans hgains').balanced_iff, List.append_eq_nil_iff]
      constructor
      · rintro ⟨hl, -⟩
        rcases hquiet.mp hl with hg | hq
        · exact Or.inr (Or.inr (Or.inl hg))
        · by_cases hg : Gone st c
          · exact Or.inr (Or.inr (Or.inl hg))
          · exact Or.inr (Or.inr (Or.inr ⟨hq, fun hp => (hfile hg hq hp).mp rfl⟩))
      · intro hcond
        have hl : l = [] := by
          refine hquiet.mpr ?_
          rcases hcond with hnil | hlen | hg | ⟨hq, -⟩
          · exact absurd hnil hname
          · exact absurd hlen hlong
          · exact Or.inl hg
          · exact Or.inr hq
        obtain rfl := hsame hl rfl
        exact ⟨hl, hquiet'.mpr (hquiet.mp hl)⟩
  · obtain ⟨p, hp, h⟩ := bind_eq_ok h
    obtain rfl := Except.ok.inj (hparse.symm.trans hp)
    obtain ⟨⟨dir, st₁⟩, hdir, h⟩ := bind_eq_ok h
    obtain ⟨l, hgains, hquiet⟩ := remove_dir_gains hdir
    have hsame : ∀ y, st'.open_cnt y = st₁.open_cnt y := by
      cases dir with
      | none =>
        obtain ⟨-, rfl⟩ := Prod.mk.inj (Except.ok.inj h)
        exact fun _ => rfl
      | some d => exact dir_remove_cnt h
    rw [← hquiet, ← hgains.balanced_iff, Balanced]
    simp only [hsame]

theorem small_tree_counted : Counted small_tree := by
  intro y inode hopen
  unfold small_tree at hopen
  dsimp only at hopen
  split_ifs at hopen
  rw [← Option.some.inj hopen]
  decide

/-- A result that is known by its first part. -/
theorem exists_of_map_fst {α : Type} {r : Res (α × Store)} {a : α}
    (h : r.map Prod.fst = .ok a) : ∃ st, r = .ok (a, st) := by
  cases r with
  | error e => cases h
  | ok p => exact ⟨p.2, by rw [← Except.ok.inj h]⟩

/-- `f`, opened from the root and closed. -/
theorem open_cnt_balanced_file : ∃ st' st'', sys_open small_tree 1 [102] = .ok (some 3, st') ∧
    close st' 3 = .ok st'' ∧ Balanced small_tree st'' := by
  have hopen : (sys_open small_tree 1 [102]).map Prod.fst = .ok (some 3) := by decide +kernel
  obtain ⟨st', hst'⟩ := exists_of_map_fst hopen
  have hparse : parse_path [102] = .ok ([], [102]) := by decide
  obtain ⟨st'', hclose, hiff⟩ := (open_cnt_balanced small_tree_counted hparse).1 3 st' hst'
  exact ⟨st', st'', hst', hclose, hiff.mpr ⟨by decide, rfl⟩⟩

/-- `/f`, opened and closed, leaves the root open once more. -/
theorem open_leaks_root : ¬ ∀ (st : Store) (c : ℕ) (name : Str) (x : ℕ) (st' st'' : Store),
    TreeOk st → OpenDir st c → Counted st → sys_open st c name = .ok (some x, st') →
    close st' x = .ok st'' → Balanced st st'' := by
  intro hall
  have hrun : (do
      let r ← sys_open small_tree 1 [47, 102]
      let st ← close r.2 3
      return (r.1, st.open_cnt 1)) = Except.ok (some 3, 2) := by decide +kernel
  obtain ⟨⟨r, st'⟩, hopen, hrun⟩ := bind_eq_ok hrun
  obtain ⟨st'', hclose, hrun⟩ := bind_eq_ok hrun
  obtain ⟨rfl, hcnt⟩ := Prod.mk.inj (Except.ok.inj hrun)
  have hbal := hall small_tree 1 [47, 102] 3 st' st'' small_tree_ok small_tree_root
    small_tree_counted hopen hclose 1
  have hone : small_tree.open_cnt 1 = 1 := rfl
  rw [hcnt, hone] at hbal
  cases hbal

end Pintos.Filesys
