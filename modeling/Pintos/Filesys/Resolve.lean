/-
Path resolution: what `dir_lookup` makes of a path.

`resolve` follows the components of a path from a directory: `""` and `"."` stay in place,
every other name is an entry of the directory reached so far, and what a component before
the last names has to be a directory. The loop of `dir_lookup` does the same with one
difference: it never asks whether what it has reached is a directory, so a regular file on
the way is read as if it were one (`file_before`). And it assigns the caller's variable
only when it follows a name, so a path of slashes and dots leaves it as it was.

Opening inodes on the way changes reference counts only (`Opened`), so every lookup of the
loop is a lookup in the store the call started from.
-/
import Pintos.Filesys.Directory
import Pintos.Filesys.Ownership

set_option autoImplicit false

namespace Pintos.Filesys

open Pintos.Kernel WordImage

/-! ## Resolution -/

/-- The inode at a sector: the open one, or what `inode_open` would read. -/
def Store.open_data (st : Store) (x : ℕ) : InodeDisk :=
  match st.open_inodes x with
  | some inode => inode.data
  | none => inode_of_sector (st.fs.disk x)

/-- The inode a name stands for in a directory. -/
def entry_sector (st : Store) (x : ℕ) (name : Str) : Option ℕ :=
  (find_entry st.fs.disk (st.open_data x) name).map fun e => e.1.inode_sector

/-- Following one component. -/
def follow (st : Store) (x : ℕ) (c : Str) : Option ℕ :=
  if Moves c then entry_sector st x c else some x

/-- Following the components in order; all but the last name directories. -/
def resolve (st : Store) : ℕ → List Str → Option ℕ
  | x, [] => some x
  | x, [c] => follow st x c
  | x, c :: cs =>
    match follow st x c with
    | none => none
    | some y => if (st.open_data y).isdir then resolve st y cs else none

/-- The first regular file that a component before the last names, with the components
behind it. -/
def file_before (st : Store) : ℕ → List Str → Option (ℕ × List Str)
  | _, [] => none
  | _, [_] => none
  | x, c :: cs =>
    match follow st x c with
    | none => none
    | some y => if (st.open_data y).isdir then file_before st y cs else some (y, cs)

/-- A tree of directories: every inode can be read, and an entry of a directory that is in
use names an inode. -/
structure TreeOk (st : Store) : Prop where
  read : ∀ x ∈ st.live, x ≠ FREE_MAP_SECTOR →
    x < st.fs.capacity ∧ ReadOk st.fs (st.open_data x)
  entries : ∀ x ∈ st.live, x ≠ FREE_MAP_SECTOR → (st.open_data x).isdir = true →
    ∀ i < (st.open_data x).length / dir_entry_size,
      (entry_at st.fs.disk (st.open_data x) i).in_use = 1 →
      (entry_at st.fs.disk (st.open_data x) i).inode_sector ∈ st.live ∧
      (entry_at st.fs.disk (st.open_data x) i).inode_sector ≠ FREE_MAP_SECTOR

/-- An inode of the tree. -/
def Node (st : Store) (x : ℕ) : Prop := x ∈ st.live ∧ x ≠ FREE_MAP_SECTOR

/-- An open directory. -/
structure OpenDir (st : Store) (x : ℕ) : Prop where
  node : Node st x
  isdir : (st.open_data x).isdir = true
  opened : st.open_inodes x ≠ none

theorem find_entry_matches {disk : ℕ → Sector} {d : InodeDisk} {name : Str} {e : DirEntry × ℕ}
    (h : find_entry disk d name = some e) : ∃ i < d.length / dir_entry_size,
      e = (entry_at disk d i, dir_entry_size * i) ∧ (entry_at disk d i).Matches name := by
  unfold find_entry at h
  obtain ⟨i, hi, rfl⟩ := Option.map_eq_some_iff.mp h
  refine ⟨i, List.mem_range.mp (List.mem_of_find?_eq_some hi), rfl, ?_⟩
  simpa using List.find?_some hi

/-- An entry of a directory names an inode of the tree. -/
theorem TreeOk.entry_node {st : Store} (h : TreeOk st) {x y : ℕ} {c : Str} (hx : Node st x)
    (hdir : (st.open_data x).isdir = true) (hy : entry_sector st x c = some y) : Node st y := by
  obtain ⟨e, he, rfl⟩ := Option.map_eq_some_iff.mp hy
  obtain ⟨i, hi, rfl, hmatch⟩ := find_entry_matches he
  exact h.entries x hx.1 hx.2 hdir i hi hmatch.1

/-- Following a component of a directory stays in the tree. -/
theorem TreeOk.node_follow {st : Store} (h : TreeOk st) {x y : ℕ} {c : Str} (hx : Node st x)
    (hdir : (st.open_data x).isdir = true) (hy : follow st x c = some y) : Node st y := by
  unfold follow at hy
  split_ifs at hy
  · exact h.entry_node hx hdir hy
  · obtain rfl := Option.some.inj hy
    exact hx

/-! ## Opening -/

/-- The sector of an inode that is open, or that `inode_open` can read. -/
def Reads (st : Store) (x : ℕ) : Prop :=
  st.open_inodes x ≠ none ∨ x < st.fs.capacity ∧ x < 2 ^ 28

/-- More inodes are open, and nothing else has changed. -/
structure Opened (st st' : Store) : Prop where
  fs : st'.fs = st.fs
  live : st'.live = st.live
  data : ∀ y, st'.open_data y = st.open_data y
  opened : ∀ y, st.open_inodes y ≠ none → st'.open_inodes y ≠ none
  added : ∀ y, st'.open_inodes y ≠ none → Reads st y

theorem Opened.refl (st : Store) : Opened st st :=
  ⟨rfl, rfl, fun _ => rfl, fun _ h => h, fun _ h => Or.inl h⟩

theorem Opened.reads_iff {st st' : Store} (h : Opened st st') (x : ℕ) : Reads st' x ↔ Reads st x := by
  constructor
  · rintro (hopen | hlt)
    · exact h.added x hopen
    · rw [h.fs] at hlt
      exact Or.inr hlt
  · rintro (hopen | hlt)
    · exact Or.inl (h.opened x hopen)
    · rw [← h.fs] at hlt
      exact Or.inr hlt

theorem Opened.trans {st st' st'' : Store} (h : Opened st st') (h' : Opened st' st'') :
    Opened st st'' :=
  ⟨h'.fs.trans h.fs, h'.live.trans h.live, fun y => (h'.data y).trans (h.data y),
    fun y hy => h'.opened y (h.opened y hy), fun y hy => (h.reads_iff y).mp (h'.added y hy)⟩

/-- Storing an inode with the data it had. -/
theorem set_inode_opened {st : Store} {x : ℕ} {inode : Inode} (hreads : Reads st x)
    (h : inode.data = st.open_data x) :
    Opened st (st.set_inode x (some inode)) ∧
      (st.set_inode x (some inode)).open_inodes x ≠ none := by
  have hself : (st.set_inode x (some inode)).open_inodes x = some inode := set_inode_self _
  have hne : (st.set_inode x (some inode)).open_inodes x ≠ none := by
    rw [hself]
    exact Option.some_ne_none _
  refine ⟨⟨rfl, rfl, fun y => ?_, fun y hy => ?_, fun y hy => ?_⟩, hne⟩
  · by_cases hyx : y = x
    · rw [hyx, Store.open_data, hself]
      exact h
    · unfold Store.open_data
      rw [set_inode_of_ne _ hyx]
      rfl
  · by_cases hyx : y = x
    · rw [hyx]
      exact hne
    · rw [set_inode_of_ne _ hyx]
      exact hy
  · by_cases hyx : y = x
    · rw [hyx]
      exact hreads
    · rw [set_inode_of_ne _ hyx] at hy
      exact Or.inl hy

/-- **`inode_open`**, where it returns. -/
theorem inode_open_opened {st : Store} {x : ℕ} (h : Reads st x) :
    ∃ st', st.inode_open x = .ok st' ∧ Opened st st' ∧ st'.open_inodes x ≠ none := by
  cases hopen : st.open_inodes x with
  | some inode =>
    refine ⟨st.set_inode x (some { inode with open_cnt := inode.open_cnt + 1 }), ?_,
      set_inode_opened h ?_⟩
    · rw [Store.inode_open, hopen]
    · rw [Store.open_data, hopen]
  | none =>
    have hread : disk_read st.fs x = .ok (st.fs.disk x) := by
      unfold disk_read
      rw [ASSERT_pos (h.resolve_left (by simp [hopen]))]
      rfl
    refine ⟨st.set_inode x (some ⟨x, 1, false, 0, inode_of_sector (st.fs.disk x)⟩), ?_,
      set_inode_opened h ?_⟩
    · rw [Store.inode_open, hopen]
      dsimp only
      rw [read_inode, hread]
      rfl
    · rw [Store.open_data, hopen]

theorem inode_open_reads {st st' : Store} {x : ℕ} (h : st.inode_open x = .ok st') : Reads st x := by
  by_cases hopen : st.open_inodes x = none
  · rw [Store.inode_open, hopen] at h
    obtain ⟨inode, hread, -⟩ := bind_eq_ok h
    obtain ⟨b, hdisk, -⟩ := bind_eq_ok hread
    obtain ⟨u, hassert, -⟩ := bind_eq_ok hdisk
    exact Or.inr (ASSERT_eq_ok hassert)
  · exact Or.inl hopen

/-! ## Lookups on the way -/

/-- A read depends on an inode through its data. -/
theorem read_loop_congr {s : FileSys} {i j : Inode} (h : i.data = j.data) :
    ∀ (fuel size offset : ℕ) (c : IndexCache),
      read_loop s i fuel size offset c = read_loop s j fuel size offset c := by
  intro fuel
  induction fuel with
  | zero =>
    intro size offset c
    rfl
  | succ fuel ih =>
    intro size offset c
    unfold read_loop
    rw [h]
    simp only [ih]

theorem lookup_loop_congr {s : FileSys} {i j : Inode} (h : i.data = j.data) (name : Str) :
    ∀ fuel ofs : ℕ, lookup_loop s i name fuel ofs = lookup_loop s j name fuel ofs := by
  have hentry : ∀ ofs, read_entry s i ofs = read_entry s j ofs := by
    intro ofs
    unfold read_entry inode_read_at
    rw [read_loop_congr h]
  intro fuel
  induction fuel with
  | zero =>
    intro ofs
    rfl
  | succ fuel ih =>
    intro ofs
    unfold lookup_loop
    rw [hentry]
    simp only [ih]

/-- A lookup in the inode at `x`, open or not. -/
def peek (st : Store) (x : ℕ) (name : Str) : Res (Option (DirEntry × ℕ)) :=
  let inode : Inode := ⟨x, 1, false, 0, st.open_data x⟩
  lookup_loop st.fs inode name (entry_rounds inode) 0

/-- A lookup of the loop is one in the store at the start. -/
theorem Opened.lookup {st st' : Store} (h : Opened st st') {x : ℕ}
    (hx : st'.open_inodes x ≠ none) (name : Str) : lookup st' x name = peek st x name := by
  obtain ⟨inode, hopen⟩ := Option.ne_none_iff_exists'.mp hx
  have hdata : inode.data = st.open_data x := by
    rw [← h.data x, Store.open_data, hopen]
  unfold Filesys.lookup Store.deref peek entry_rounds
  rw [hopen, ok_bind, h.fs, hdata]
  exact lookup_loop_congr hdata name _ _

/-- In an inode of the tree, the lookup finds the first entry. -/
theorem TreeOk.peek_eq {st : Store} (h : TreeOk st) {x : ℕ} (hx : Node st x) (name : Str) :
    peek st x name = .ok (find_entry st.fs.disk (st.open_data x) name) := by
  obtain ⟨-, hread⟩ := h.read x hx.1 hx.2
  have hrun := @ReadOk.lookup_loop _ ⟨x, 1, false, 0, st.open_data x⟩ hread name
    (entry_rounds ⟨x, 1, false, 0, st.open_data x⟩) 0 (Nat.zero_add _) (Nat.succ_pos _)
  refine hrun.trans ?_
  rw [Nat.sub_zero, ← List.range_eq_range']
  rfl

theorem TreeOk.reads {st : Store} (h : TreeOk st) {x : ℕ} (hx : Node st x) : Reads st x := by
  obtain ⟨hlt, hread⟩ := h.read x hx.1 hx.2
  exact Or.inr ⟨hlt, hlt.trans_le hread.disk.capacity⟩

/-- Some name is missing when the components are looked up one after the other, whatever
the inodes on the way are. -/
def Misses (st : Store) : ℕ → List Str → Prop
  | _, [] => False
  | x, c :: cs =>
    if Moves c then peek st x c = .ok none ∨ ∃ e ofs, peek st x c = .ok (some (e, ofs)) ∧
      Reads st e.inode_sector ∧ Misses st e.inode_sector cs
    else Misses st x cs

/-- The components the loop looks at. -/
def named (cs : List Str) : List Str := cs.filter fun c => c ≠ []

theorem named_cons_of_ne {c : Str} (hc : c ≠ []) (cs : List Str) : named (c :: cs) = c :: named cs :=
  List.filter_cons_of_pos (by simpa using hc)

theorem named_cons_nil (cs : List Str) : named ([] :: cs) = named cs :=
  List.filter_cons_of_neg (by simp)

/-- A component that stays in place is skipped. -/
theorem walk_loop_stay {c : Str} (hc : ¬ Moves c) (st : Store) (x : ℕ) (v : InodeVar)
    (cs : List Str) : walk_loop st x v (named (c :: cs)) = walk_loop st x v (named cs) := by
  by_cases hnil : c = []
  · rw [hnil, named_cons_nil]
  · have hdot : c = dot := not_not.mp fun hne => hc ⟨hnil, hne⟩
    rw [named_cons_of_ne hnil, walk_loop, if_pos hdot]

/-- A component that is followed, and found. -/
theorem walk_loop_found {st st' : Store} (h : Opened st st') {x : ℕ}
    (hx : st'.open_inodes x ≠ none) {c : Str} (hc : Moves c) {e : DirEntry} {ofs : ℕ}
    (hpeek : peek st x c = .ok (some (e, ofs))) (hreads : Reads st e.inode_sector) :
    ∃ st'', Opened st st'' ∧ st''.open_inodes e.inode_sector ≠ none ∧ ∀ v cs,
      walk_loop st' x v (named (c :: cs)) =
        walk_loop st'' e.inode_sector (.inode e.inode_sector) (named cs) := by
  obtain ⟨st'', hrun, hopened, hopen⟩ := inode_open_opened ((h.reads_iff _).mpr hreads)
  refine ⟨st'', h.trans hopened, hopen, fun v cs => ?_⟩
  rw [named_cons_of_ne hc.1, walk_loop, if_neg hc.2, h.lookup hx, hpeek, ok_bind]
  dsimp only
  rw [hrun, ok_bind]

theorem walk_loop_missing {st st' : Store} (h : Opened st st') {x : ℕ}
    (hx : st'.open_inodes x ≠ none) {c : Str} (hc : Moves c) (hpeek : peek st x c = .ok none)
    (v : InodeVar) (cs : List Str) :
    walk_loop st' x v (named (c :: cs)) = .ok (false, .null, st') := by
  rw [named_cons_of_ne hc.1, walk_loop, if_neg hc.2, h.lookup hx, hpeek, ok_bind]
  rfl

/-- **The loop fails** exactly when a name is missing, and then the variable is null. -/
theorem walk_loop_fails {st : Store} (cs : List Str) : ∀ (st' : Store) (x : ℕ) (v : InodeVar),
    Opened st st' → st'.open_inodes x ≠ none →
    ((∃ w st'', walk_loop st' x v (named cs) = .ok (false, w, st'')) ↔ Misses st x cs) ∧
    ∀ w st'', walk_loop st' x v (named cs) = .ok (false, w, st'') → w = .null := by
  induction cs with
  | nil =>
    intro st' x v h hx
    refine ⟨⟨?_, fun hmiss => hmiss.elim⟩, ?_⟩
    · rintro ⟨w, st'', hrun⟩
      cases hrun
    · intro w st'' hrun
      cases hrun
  | cons c cs ih =>
    intro st' x v h hx
    by_cases hc : Moves c
    swap
    · rw [walk_loop_stay hc, Misses, if_neg hc]
      exact ih st' x v h hx
    rw [Misses, if_pos hc]
    cases hpeek : peek st x c with
    | error f =>
      have hrun : walk_loop st' x v (named (c :: cs)) = .error f := by
        rw [named_cons_of_ne hc.1, walk_loop, if_neg hc.2, h.lookup hx, hpeek]
        rfl
      rw [hrun]
      simp
    | ok r =>
      cases r with
      | none =>
        rw [walk_loop_missing h hx hc hpeek]
        simp
      | some r =>
        obtain ⟨e, ofs⟩ := r
        by_cases hreads : Reads st e.inode_sector
        · obtain ⟨st'', hopened, hopen, hrun⟩ := walk_loop_found h hx hc hpeek hreads
          rw [hrun]
          obtain ⟨hiff, hnull⟩ := ih st'' e.inode_sector (.inode e.inode_sector) hopened hopen
          refine ⟨hiff.trans ?_, hnull⟩
          simp [hreads]
        · obtain ⟨f, hrun⟩ : ∃ f, st'.inode_open e.inode_sector = .error f := by
            cases hopen : st'.inode_open e.inode_sector with
            | error f => exact ⟨f, rfl⟩
            | ok st'' => exact absurd ((h.reads_iff _).mp (inode_open_reads hopen)) hreads
          have herror : walk_loop st' x v (named (c :: cs)) = .error f := by
            rw [named_cons_of_ne hc.1, walk_loop, if_neg hc.2, h.lookup hx, hpeek, ok_bind]
            dsimp only
            rw [hrun]
            rfl
          rw [herror]
          simp [hreads]

/-! ## The loop and the resolution -/

theorem follow_of_stay {st : Store} {x : ℕ} {c : Str} (hc : ¬ Moves c) : follow st x c = some x :=
  if_neg hc

/-- Components that stay in place lead nowhere else. -/
theorem resolve_of_stay {st : Store} {x : ℕ} (hdir : (st.open_data x).isdir = true)
    (cs : List Str) (hcs : ∀ c ∈ cs, ¬ Moves c) :
    resolve st x cs = some x ∧ file_before st x cs = none := by
  induction cs with
  | nil => exact ⟨rfl, rfl⟩
  | cons c cs ih =>
    have hc := hcs c List.mem_cons_self
    cases cs with
    | nil => exact ⟨follow_of_stay hc, rfl⟩
    | cons d cs =>
      simp only [resolve, file_before, follow_of_stay hc, hdir, if_true]
      exact ih fun e he => hcs e (List.mem_cons_of_mem c he)

/-- One component: it stays, its name is missing, or it is found. -/
theorem TreeOk.follow_cases {st : Store} (h : TreeOk st) {x : ℕ} (hx : Node st x) {c : Str}
    (hc : Moves c) : (follow st x c = none ∧ peek st x c = .ok none) ∨
      ∃ e ofs, follow st x c = some e.inode_sector ∧ peek st x c = .ok (some (e, ofs)) := by
  unfold follow entry_sector
  rw [if_pos hc, h.peek_eq hx]
  cases hfind : find_entry st.fs.disk (st.open_data x) c with
  | none => exact Or.inl ⟨rfl, rfl⟩
  | some r => exact Or.inr ⟨r.1, r.2, rfl, rfl⟩

/-- Without a regular file on the way the loop goes where the components lead. -/
theorem TreeOk.walk_resolves {st : Store} (h : TreeOk st) (cs : List Str) :
    ∀ (x : ℕ) (st' : Store) (v : InodeVar), cs ≠ [] → Opened st st' → Node st x →
    (st.open_data x).isdir = true → st'.open_inodes x ≠ none → file_before st x cs = none →
    (resolve st x cs = none → ∃ st'', walk_loop st' x v (named cs) = .ok (false, .null, st'')) ∧
    ∀ y, resolve st x cs = some y → ∃ w st'', walk_loop st' x v (named cs) = .ok (true, w, st'') ∧
      Opened st st'' ∧ st''.open_inodes y ≠ none ∧
      ((∃ c ∈ cs, Moves c) ∨ v = .inode x → w = .inode y) ∧ ((∀ c ∈ cs, ¬ Moves c) → w = v) := by
  induction cs with
  | nil =>
    intro x st' v hne
    exact absurd rfl hne
  | cons c cs ih =>
    intro x st' v _ hop hx hdir hopen hfile
    by_cases hc : Moves c
    swap
    · -- the loop skips the component, and so does the resolution
      have hmoves : (∃ d ∈ c :: cs, Moves d) ↔ ∃ d ∈ cs, Moves d := by simp [hc]
      have hstays : (∀ d ∈ c :: cs, ¬ Moves d) ↔ ∀ d ∈ cs, ¬ Moves d := by simp [hc]
      rw [walk_loop_stay hc, hmoves, hstays]
      cases cs with
      | nil =>
        rw [show resolve st x [c] = some x from follow_of_stay hc]
        refine ⟨fun hnone => (by cases hnone), fun y hy => ?_⟩
        obtain rfl := Option.some.inj hy
        exact ⟨v, st', rfl, hop, hopen, by simp, fun _ => rfl⟩
      | cons d cs =>
        have hresolve : resolve st x (c :: d :: cs) = resolve st x (d :: cs) := by
          simp only [resolve, follow_of_stay hc, hdir, if_true]
        have hbefore : file_before st x (c :: d :: cs) = file_before st x (d :: cs) := by
          simp only [file_before, follow_of_stay hc, hdir, if_true]
        rw [hresolve]
        exact ih x st' v (List.cons_ne_nil _ _) hop hx hdir hopen (hbefore.symm.trans hfile)
    have hmoves : ∃ d ∈ c :: cs, Moves d := ⟨c, List.mem_cons_self, hc⟩
    rcases h.follow_cases hx hc with ⟨hnone, hpeek⟩ | ⟨e, ofs, hsome, hpeek⟩
    · have hresolve : resolve st x (c :: cs) = none := by
        cases cs with
        | nil => exact hnone
        | cons d cs => simp only [resolve, hnone]
      rw [hresolve, walk_loop_missing hop hopen hc hpeek]
      refine ⟨fun _ => ⟨st', rfl⟩, fun y hy => by cases hy⟩
    · have hy := h.node_follow hx hdir hsome
      obtain ⟨st₁, hop₁, hopen₁, hrun⟩ := walk_loop_found hop hopen hc hpeek (h.reads hy)
      rw [hrun]
      cases cs with
      | nil =>
        rw [show resolve st x [c] = some e.inode_sector from hsome]
        refine ⟨fun hnone => (by cases hnone), fun y hy => ?_⟩
        obtain rfl := Option.some.inj hy
        exact ⟨_, st₁, rfl, hop₁, hopen₁, fun _ => rfl, fun hall => absurd hc (hall c List.mem_cons_self)⟩
      | cons d cs =>
        have hisdir : (st.open_data e.inode_sector).isdir = true := by
          by_contra hnot
          simp only [file_before, hsome, hnot] at hfile
          cases hfile
        have hresolve : resolve st x (c :: d :: cs) = resolve st e.inode_sector (d :: cs) := by
          simp only [resolve, hsome, hisdir, if_true]
        have hbefore : file_before st x (c :: d :: cs) = file_before st e.inode_sector (d :: cs) := by
          simp only [file_before, hsome, hisdir, if_true]
        obtain ⟨hfail, hok⟩ := ih e.inode_sector st₁ (.inode e.inode_sector) (List.cons_ne_nil _ _)
          hop₁ hy hisdir hopen₁ (hbefore.symm.trans hfile)
        rw [hresolve]
        refine ⟨hfail, fun y hy => ?_⟩
        obtain ⟨w, st'', hw, hop'', hopen'', hval, -⟩ := hok y hy
        exact ⟨w, st'', hw, hop'', hopen'', fun _ => hval (Or.inr rfl),
          fun hall => absurd hc (hall c List.mem_cons_self)⟩

/-- With a regular file on the way the path does not resolve, and the loop goes on in the
file. -/
theorem TreeOk.walk_file {st : Store} (h : TreeOk st) (cs : List Str) :
    ∀ (x : ℕ) (st' : Store) (v : InodeVar) (f : ℕ) (rest : List Str), Opened st st' → Node st x →
    (st.open_data x).isdir = true → st'.open_inodes x ≠ none →
    file_before st x cs = some (f, rest) →
    resolve st x cs = none ∧ ∃ st'' w, Opened st st'' ∧ st''.open_inodes f ≠ none ∧
      walk_loop st' x v (named cs) = walk_loop st'' f w (named rest) := by
  induction cs with
  | nil =>
    intro x st' v f rest _ _ _ _ hfile
    cases hfile
  | cons c cs ih =>
    intro x st' v f rest hop hx hdir hopen hfile
    cases cs with
    | nil => cases hfile
    | cons d cs =>
      by_cases hc : Moves c
      swap
      · have hresolve : resolve st x (c :: d :: cs) = resolve st x (d :: cs) := by
          simp only [resolve, follow_of_stay hc, hdir, if_true]
        have hbefore : file_before st x (c :: d :: cs) = file_before st x (d :: cs) := by
          simp only [file_before, follow_of_stay hc, hdir, if_true]
        rw [walk_loop_stay hc, hresolve]
        exact ih x st' v f rest hop hx hdir hopen (hbefore.symm.trans hfile)
      rcases h.follow_cases hx hc with ⟨hnone, hpeek⟩ | ⟨e, ofs, hsome, hpeek⟩
      · simp only [file_before, hnone] at hfile
        cases hfile
      · have hy := h.node_follow hx hdir hsome
        obtain ⟨st₁, hop₁, hopen₁, hrun⟩ := walk_loop_found hop hopen hc hpeek (h.reads hy)
        rw [hrun]
        by_cases hisdir : (st.open_data e.inode_sector).isdir = true
        · have hresolve : resolve st x (c :: d :: cs) = resolve st e.inode_sector (d :: cs) := by
            simp only [resolve, hsome, hisdir, if_true]
          have hbefore : file_before st x (c :: d :: cs) =
              file_before st e.inode_sector (d :: cs) := by
            simp only [file_before, hsome, hisdir, if_true]
          rw [hresolve]
          exact ih e.inode_sector st₁ (.inode e.inode_sector) f rest hop₁ hy hisdir hopen₁
            (hbefore.symm.trans hfile)
        · simp only [file_before, hsome, hisdir] at hfile
          obtain ⟨rfl, rfl⟩ := Prod.mk.inj (Option.some.inj hfile)
          refine ⟨by simp only [resolve, hsome, hisdir]; rfl, st₁, _, hop₁, hopen₁, rfl⟩

/-! ## `dir_lookup` -/

/-- What `dir_lookup` has to return for the object reached. -/
def Reports (found : Bool) (inode : InodeVar) (st' : Store) : Option ℕ → Prop
  | some y => found = true ∧ inode = .inode y ∧ st'.open_inodes y ≠ none
  | none => found = false ∧ inode = .null

/-- `dir_lookup` returns what the components of the path lead to. -/
def Resolves (st : Store) (curr_dir : Option ℕ) (dir : ℕ) (name : Str) : Prop :=
  ∃ found inode st', dir_lookup st curr_dir dir name = .ok (found, inode, st') ∧
    Reports found inode st' (resolve st dir (components name))

/-- Where it does: a path with slashes has a component that is followed, and a regular file
before the last component leads nowhere when its bytes are read as entries. -/
def LookupOk (st : Store) (dir : ℕ) (name : Str) : Prop :=
  (slash ∈ name → ∃ c ∈ components name, Moves c) ∧
  ∀ f rest, file_before st dir (components name) = some (f, rest) → Misses st f rest

/-- **Path resolution.** -/
theorem dir_lookup_resolves {st : Store} (h : TreeOk st) {dir : ℕ} (hdir : OpenDir st dir)
    (curr_dir : Option ℕ) {name : Str} (hname : name ≠ []) :
    Resolves st curr_dir dir name ↔ LookupOk st dir name := by
  unfold Resolves LookupOk dir_lookup
  rw [if_neg hname]
  by_cases hslash : slash ∈ name
  swap
  · -- one component, looked up without the loop
    rw [if_neg hslash, components_single hslash]
    refine iff_of_true ?_ ⟨fun hmem => absurd hmem hslash, fun f rest hfile => by cases hfile⟩
    rw [show resolve st dir [name] = follow st dir name from rfl]
    by_cases hdot : name = dot
    · have hstay : ¬ Moves name := fun hmoves => hmoves.2 hdot
      obtain ⟨st', hrun, -, hopen⟩ := inode_open_opened (Or.inl hdir.opened)
      rw [if_pos hdot, follow_of_stay hstay, hrun]
      exact ⟨_, _, _, rfl, rfl, rfl, hopen⟩
    · have hmoves : Moves name := ⟨hname, hdot⟩
      rw [if_neg hdot, (Opened.refl st).lookup hdir.opened]
      rcases h.follow_cases hdir.node hmoves with ⟨hnone, hpeek⟩ | ⟨e, ofs, hsome, hpeek⟩
      · rw [hnone, hpeek]
        exact ⟨_, _, _, rfl, rfl, rfl⟩
      · obtain ⟨st', hrun, -, hopen⟩ :=
          inode_open_opened (h.reads (h.node_follow hdir.node hdir.isdir hsome))
        rw [hsome, hpeek, ok_bind]
        dsimp only
        rw [hrun]
        exact ⟨_, _, _, rfl, rfl, rfl, hopen⟩
  rw [if_pos hslash, tokens_eq]
  have hcs : components name ≠ [] := List.splitOn_ne_nil _ _
  cases hfile : file_before st dir (components name) with
  | none =>
    obtain ⟨hfail, hok⟩ := h.walk_resolves (components name) dir st .unassigned hcs (Opened.refl st)
      hdir.node hdir.isdir hdir.opened hfile
    cases hresolve : resolve st dir (components name) with
    | none =>
      obtain ⟨st', hrun⟩ := hfail hresolve
      -- a name is missing, so there is one
      refine iff_of_true ⟨_, _, _, hrun, rfl, rfl⟩ ⟨fun _ => ?_, fun f rest hf => by cases hf⟩
      by_contra hnone
      have hstay := resolve_of_stay hdir.isdir _ fun c hc hm => hnone ⟨c, hc, hm⟩
      rw [hresolve] at hstay
      cases hstay.1
    | some y =>
      obtain ⟨w, st', hrun, -, hopen, hval, hstay⟩ := hok y hresolve
      by_cases hmoves : ∃ c ∈ components name, Moves c
      · refine iff_of_true ⟨_, _, _, hrun, rfl, hval (Or.inl hmoves), hopen⟩ ?_
        exact ⟨fun _ => hmoves, fun f rest hf => by cases hf⟩
      · refine iff_of_false ?_ fun hok => hmoves (hok.1 hslash)
        rintro ⟨found, inode, st'', hrun', -, rfl, -⟩
        have hw := hstay fun c hc hm => hmoves ⟨c, hc, hm⟩
        have heq := (Prod.mk.inj (Prod.mk.inj (Except.ok.inj (hrun.symm.trans hrun'))).2).1
        rw [hw] at heq
        cases heq
  | some r =>
    obtain ⟨f, rest⟩ := r
    obtain ⟨hresolve, st', w, hop, hopen, hrun⟩ := h.walk_file (components name) dir st .unassigned
      f rest (Opened.refl st) hdir.node hdir.isdir hdir.opened hfile
    obtain ⟨hiff, hnull⟩ := walk_loop_fails rest st' f w hop hopen
    rw [hresolve]
    refine Iff.trans ?_ (hiff.trans ?_)
    · constructor
      · rintro ⟨found, inode, st'', hrun', rfl, -⟩
        exact ⟨inode, st'', hrun.symm.trans hrun'⟩
      · rintro ⟨inode, st'', hrun'⟩
        exact ⟨false, inode, st'', hrun.trans hrun', rfl, hnull inode st'' hrun'⟩
    · constructor
      · intro hmiss
        refine ⟨fun _ => ?_, fun f' rest' hf => ?_⟩
        · by_contra hnone
          have hstay := resolve_of_stay hdir.isdir _ fun c hc hm => hnone ⟨c, hc, hm⟩
          rw [hfile] at hstay
          cases hstay.2
        obtain ⟨rfl, rfl⟩ := Prod.mk.inj (Option.some.inj hf)
        exact hmiss
      · exact fun hok => hok.2 f rest rfl

/-! ## A small tree -/

/-- A file of one block at most, with its inode in sector `x` and its block behind it. -/
def one_block (x length : ℕ) (isdir : Bool) : InodeDisk where
  inode_i := x
  length := length
  magic := INODE_MAGIC
  isdir := isdir
  direct_block := fun k => if k = 0 then x + 1 else 0
  indirect_block := 0
  doubly_indirect_block := 0

/-- A block of entries. -/
def entry_block (es : List DirEntry) : Sector := fun j => (es.flatMap DirEntry.bytes).getD j 0

/-- The root with a regular file `f` and a directory `d`. The bytes of `f` are those of an
entry with the name `x`. -/
def small_tree : Store where
  fs :=
    { disk := fun n =>
        if n = 1 then inode_image (one_block 1 48 true)
        else if n = 2 then entry_block [new_entry [102] 3, new_entry [100] 5]
        else if n = 3 then inode_image (one_block 3 24 false)
        else if n = 4 then entry_block [new_entry [120] 1]
        else if n = 5 then inode_image (one_block 5 24 true)
        else if n = 6 then entry_block [new_entry dot_dot 1]
        else fun _ => 0
      free_map := { bit_cnt := 16, bits := fun i => i < 7 }
      free_map_file := none
      indirect_sec_idx := fun _ => 0
      doubly_sec_parent := fun _ => 0
      doubly_sec_idx := fun _ => 0
      next_iid := 6 }
  open_inodes := fun x => if x = 1 then some ⟨1, 1, false, 0, one_block 1 48 true⟩ else none
  live := [1, 3, 5]

theorem one_block_fits {x length : ℕ} {isdir : Bool} (hx : x < 16) (hlen : length < 512) :
    (one_block x length isdir).Fits := by
  refine ⟨?_, ?_, ?_, fun k => ?_, fun k hk => ?_, ?_, ?_⟩
  · show x < _
    omega
  · show length < _
    omega
  · show INODE_MAGIC < _
    decide
  · show (if k = 0 then x + 1 else 0) < _
    split_ifs <;> omega
  · show (if k = 0 then x + 1 else 0) = 0
    rw [if_neg]
    rintro rfl
    exact absurd hk (by decide)
  · show 0 < _
    norm_num
  · show 0 < _
    norm_num

theorem small_tree_data : small_tree.open_data 1 = one_block 1 48 true ∧
    small_tree.open_data 3 = one_block 3 24 false ∧ small_tree.open_data 5 = one_block 5 24 true :=
  ⟨rfl, inode_of_sector_image (one_block_fits (by norm_num) (by norm_num)),
    inode_of_sector_image (one_block_fits (by norm_num) (by norm_num))⟩

/-- A file of one block on a disk where that block is marked. -/
theorem read_ok_one_block {s : FileSys} (hdisk : DiskOk s) {x length : ℕ} {isdir : Bool}
    (hused : s.free_map.bits (x + 1) = true) (hlen : length < 512) :
    ReadOk s (one_block x length isdir) := by
  have hblocks : (one_block x length isdir).blocks ≤ 1 := by
    show (length + 511) / 512 ≤ 1
    omega
  have hslot : ∀ σ : Slot, σ.pos < (one_block x length isdir).blocks → σ = .data 0 := by
    intro σ hσ
    cases σ <;> simp only [Slot.pos] at hσ
    · omega
    · omega
    · omega
    · congr
      omega
  have hdiv : (one_block x length isdir).length / 512 = 0 := Nat.div_eq_of_lt hlen
  refine ⟨hdisk, ⟨fun σ τ hσ hτ _ => (hslot σ hσ).trans (hslot τ hτ).symm, fun σ hσ => ?_⟩,
    hblocks.trans (by decide), ?_, fun h => ?_, fun h => ?_⟩
  · rw [hslot σ hσ]
    exact hused
  · show length < 512 * MAX_BLOCKS
    have hM : MAX_BLOCKS = 16634 := rfl
    omega
  · rw [hdiv] at h
    omega
  · rw [hdiv] at h
    omega

theorem small_tree_ok : TreeOk small_tree := by
  obtain ⟨h1, h3, h5⟩ := small_tree_data
  have hdisk : DiskOk small_tree.fs := by
    refine ⟨by decide, fun i hi => ?_⟩
    have hi' : i < 7 := by simpa [small_tree] using hi
    show i < 16
    omega
  refine ⟨fun x hx _ => ?_, fun x hx _ hdir i hi huse => ?_⟩
  · simp only [small_tree, List.mem_cons, List.not_mem_nil, or_false] at hx
    rcases hx with rfl | rfl | rfl
    · exact ⟨by decide, by rw [h1]; exact read_ok_one_block hdisk rfl (by norm_num)⟩
    · exact ⟨by decide, by rw [h3]; exact read_ok_one_block hdisk rfl (by norm_num)⟩
    · exact ⟨by decide, by rw [h5]; exact read_ok_one_block hdisk rfl (by norm_num)⟩
  · simp only [small_tree, List.mem_cons, List.not_mem_nil, or_false] at hx
    rcases hx with rfl | rfl | rfl
    · rw [h1] at hi ⊢
      revert i
      decide +kernel
    · rw [h3] at hdir
      cases hdir
    · rw [h5] at hi ⊢
      revert i
      decide +kernel

theorem small_tree_root : OpenDir small_tree 1 :=
  ⟨⟨by decide, by decide⟩, rfl, by decide⟩

/-- `d/..` leads back to the root. -/
theorem dir_lookup_resolves_parent :
    resolve small_tree 1 (components [100, 47, 46, 46]) = some 1 ∧
    Resolves small_tree none 1 [100, 47, 46, 46] := by
  refine ⟨by decide +kernel, (dir_lookup_resolves small_tree_ok small_tree_root none ?_).mpr ?_⟩
  · decide
  · have hnone : file_before small_tree 1 (components [100, 47, 46, 46]) = none := by decide +kernel
    refine ⟨fun _ => by decide, fun f rest hfile => ?_⟩
    rw [hnone] at hfile
    cases hfile

/-- The path `f/x` goes through the regular file `f`, and `dir_lookup` finds an entry in
its bytes. -/
theorem dir_lookup_reads_file : ¬ ∀ (st : Store) (curr_dir : Option ℕ) (dir : ℕ) (name : Str),
    TreeOk st → OpenDir st dir → name ≠ [] → Resolves st curr_dir dir name := by
  intro hall
  obtain ⟨found, inode, st', hrun, hreport⟩ :=
    hall small_tree none 1 [102, 47, 120] small_tree_ok small_tree_root (by decide)
  have hresolve : resolve small_tree 1 (components [102, 47, 120]) = none := by decide +kernel
  have hfound : (dir_lookup small_tree none 1 [102, 47, 120]).map (fun r => r.1) = .ok true := by
    decide +kernel
  rw [hresolve] at hreport
  rw [hrun] at hfound
  have heq : found = true := Except.ok.inj hfound
  rw [hreport.1] at heq
  cases heq

end Pintos.Filesys
