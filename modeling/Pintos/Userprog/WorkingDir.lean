/-
`curr_dir` of `struct thread`: `start_process`, `chdir` and the two ends of a process, in any
interleaving.

A process takes its directory over from its parent, as a pointer: both have one `struct dir`.
`chdir` frees the one its caller had, whoever else has it. And it is taken over late, behind
the `sema_up` that lets the parent go on. So it is a matter of who calls `chdir` when whether a
process still has the directory it started in; `DirOk` is the condition.

The heap of `struct dir` and `struct file` is a table of handles, the files being the
executables, which `thread_exit` closes. `exit` cuts the name of its thread at the first blank,
and `start_process` reads the name of the parent. Deny counts and the list of children do not
bear on directories and are left out.
-/
import Pintos.Library.Handles
import Pintos.Library.StepSystem
import Pintos.Filesys.AbsolutePaths

set_option autoImplicit false

namespace Pintos.Userprog.WorkingDir

open StepSystem Handles Pintos.Kernel
open Pintos.Filesys (Str Store Leads Passes Gains components Moves dot slash ROOT_DIR_SECTOR
  walk_loop_cnt)

/-! ## Data -/

/-- How far a process has come. -/
inductive Stage
  /-- In `load`. -/
  | loading
  /-- Behind the `sema_up` of `start_process`. -/
  | loaded
  | running
  /-- In `exit`. -/
  | exiting
  /-- Behind `thread_exit`, with its page freed. -/
  | gone
  deriving DecidableEq

/-- A `struct thread`, with the command line `start_process` is called with. The inode
`selected` is history: the directory the process selected last or, until its first `chdir`, the
one its parent had at the `exec`. -/
structure Process where
  name : Str
  parent_thread : ℕ
  file_name : Str
  stage : Stage
  curr_dir : Option ℕ
  file_ptr : Option ℕ
  selected : ℕ

/-- The processes in the order of their creation, the initial thread first. -/
structure State where
  st : Store
  dirs : Handles ℕ
  files : Handles ℕ
  procs : List Process

/-- `"main"`. -/
def main_name : Str := [109, 97, 105, 110]

/-- The initial thread. Its null pointer stands for the root. -/
def initial_thread : Process := ⟨main_name, 0, [], .running, none, none, ROOT_DIR_SECTOR⟩

def boot (st : Store) : State := ⟨st, .empty, .empty, [initial_thread]⟩

/-- `curr_dir` has been assigned. -/
def Process.Started (t : Process) : Prop := t.stage = .running ∨ t.stage = .exiting

/-- In `start_process`. -/
def Process.Starting (t : Process) : Prop := t.stage = .loading ∨ t.stage = .loaded

instance (t : Process) : Decidable t.Starting := inferInstanceAs (Decidable (_ ∨ _))

/-! ## The code -/

/-- `sizeof t->name`. -/
def name_size : ℕ := 16

/-- `strlcpy (t->name, name, sizeof t->name)`. -/
def thread_name (name : Str) : Str := name.take (name_size - 1)

/-- `strtok_r (name, " ", …)` in place: the name ends behind its first token. -/
def cut_name (name : Str) : Str :=
  name.takeWhile (fun c => c = 32) ++
    (name.dropWhile (fun c => c = 32)).takeWhile (fun c => c ≠ 32)

/-- Storing a process. -/
def State.set_proc (s : State) (p : ℕ) (t : Process) : State := { s with procs := s.procs.set p t }

/-- `process_execute`, by the process `p`: `thread_create`. -/
def exec (s : State) (p : ℕ) (t : Process) (file_name : Str) : State :=
  { s with
    procs := s.procs ++ [⟨thread_name file_name, p, file_name, .loading, none, none, t.selected⟩] }

/-- `file_close`, as far as references go. -/
def file_close (s : State) (f : ℕ) : Res State :=
  match s.files.get f with
  | none => .error .dangling
  | some x => do
    let st ← s.st.inode_close x
    return { s with st := st, files := s.files.close f }

/-- `load`, and the `sema_up` or the `thread_exit` behind it. `pages` tells whether
`pagedir_create` has a page, and `accepted` whether what comes after `filesys_open` succeeds. -/
def load (s : State) (c : ℕ) (t : Process) (pages accepted : Bool) : Res State :=
  if pages then
    match Filesys.strtok_r [32] t.file_name with
    | none => .error .dangling
    | some (token, _) => do
      let r ← Filesys.filesys_open s.st none token
      match r.1 with
      | none => return { s with st := r.2 }.set_proc c { t with stage := .gone }
      | some x => do
        let f := s.files.next
        let s := { s with st := r.2, files := s.files.create x }
        if accepted then return s.set_proc c { t with stage := .loaded, file_ptr := some f }
        else do
          let s ← file_close s f
          return s.set_proc c { t with stage := .gone }
  else .ok (s.set_proc c { t with stage := .gone })

/-- The end of `start_process`. -/
def start (s : State) (c : ℕ) (t : Process) : Res State :=
  match s.procs[t.parent_thread]? with
  | none => .error .dangling
  | some u =>
    if u.stage = .gone then .error .dangling
    else if u.name = main_name then do
      let st ← Filesys.dir_open_root s.st
      return { s with st := st, dirs := s.dirs.create ROOT_DIR_SECTOR }.set_proc c
        { t with stage := .running, curr_dir := some s.dirs.next }
    else .ok (s.set_proc c { t with stage := .running, curr_dir := u.curr_dir })

/-- `chdir`. -/
def chdir (s : State) (p : ℕ) (t : Process) (dir : Str) : Res State :=
  match t.curr_dir with
  | none => .error .assertion
  | some h =>
    match s.dirs.get h with
    | none => .error .dangling
    | some c => do
      let r ← Filesys.chdir s.st c dir
      if r.1 then
        match r.2.1 with
        | none =>
          return { s with st := r.2.2, dirs := s.dirs.close h }.set_proc p
            { t with curr_dir := none }
        | some y =>
          return { s with st := r.2.2, dirs := (s.dirs.create y).close h }.set_proc p
            { t with curr_dir := some s.dirs.next, selected := y }
      else return { s with st := r.2.2 }

/-- `exit`, up to `thread_exit`. -/
def exit (s : State) (p : ℕ) (t : Process) : State :=
  s.set_proc p { t with name := cut_name t.name, stage := .exiting }

/-- `thread_exit`, which a killed process calls at once. -/
def thread_exit (s : State) (p : ℕ) (t : Process) : Res State :=
  match t.file_ptr with
  | none => .ok (s.set_proc p { t with stage := .gone })
  | some f => do
    let s ← file_close s f
    return s.set_proc p { t with stage := .gone }

/-! ## Runs -/

inductive Event
  | exec (p : ℕ) (file_name : Str)
  | load (c : ℕ) (pages accepted : Bool)
  | start (c : ℕ)
  | chdir (p : ℕ) (dir : Str)
  | exit (p : ℕ)
  | leave (p : ℕ)

/-- A process that is at one of the stages goes on. -/
def State.at_stage (s : State) (p : ℕ) (stages : List Stage) (f : Process → Res State) :
    Res State :=
  match s.procs[p]? with
  | none => .error .assertion
  | some t => if t.stage ∈ stages then f t else .error .assertion

/-- What an event does, where it can happen. The initial thread makes no system calls. -/
def run (s : State) : Event → Res State
  | .exec p file_name => s.at_stage p [.running] fun t => .ok (exec s p t file_name)
  | .load c pages accepted => s.at_stage c [.loading] fun t => load s c t pages accepted
  | .start c => s.at_stage c [.loaded] fun t => start s c t
  | .chdir p dir => s.at_stage p [.running] fun t => chdir s p t dir
  | .exit p =>
    if p = 0 then .error .assertion else s.at_stage p [.running] fun t => .ok (exit s p t)
  | .leave p =>
    if p = 0 then .error .assertion
    else s.at_stage p [.running, .exiting] fun t => thread_exit s p t

/-- Runs start with the initial thread alone, on any file system. -/
def dir_system : System State Event where
  init s := ∃ st, s = boot st
  step s e s' := run s e = .ok s'

/-! ## The property and its condition -/

/-- The process has an open handle, and the inode behind it is open and is the directory that
was selected last. -/
def InDir (s : State) (t : Process) : Prop :=
  ∃ h, t.curr_dir = some h ∧ s.dirs.get h = some t.selected ∧ 0 < s.st.open_cnt t.selected

/-- Every process but the initial thread is in its directory. -/
def AllInDir (s : State) : Prop :=
  ∀ (p : ℕ) (t : Process), s.procs[p]? = some t → p ≠ 0 → t.Started → InDir s t

/-- What a call of `chdir` by the process `p` may do: the caller is where it was, or where the
path leads from there, and no other process has noticed. -/
structure Moved (s s' : State) (p : ℕ) (dir : Str) : Prop where
  own : ∃ t t', s.procs[p]? = some t ∧ s'.procs[p]? = some t' ∧
    (t' = t ∨ Leads s.st t.selected (components dir) (some t'.selected))
  others : ∀ q t, q ≠ p → s.procs[q]? = some t → s'.procs[q]? = some t ∧
    ∀ h c, t.Started → t.curr_dir = some h → s.dirs.get h = some c → s'.dirs.get h = some c

/-- `dir_lookup` assigns the variable and takes a reference. -/
def Takes (dir : Str) : Prop := dir = dot ∨ ∃ c ∈ components dir, Moves c

/-- No other process has the handle. -/
def Unshared (s : State) (p h : ℕ) : Prop :=
  ∀ (q : ℕ) (t : Process), s.procs[q]? = some t → q ≠ p → t.Started → t.curr_dir ≠ some h

/-- No child of the process is still in `start_process`. -/
def NoStarting (s : State) (p : ℕ) : Prop :=
  ∀ (q : ℕ) (t : Process), s.procs[q]? = some t → t.Starting → t.parent_thread ≠ p

/-- The condition on a step. Before a `chdir` that leads somewhere, the path is one that takes a
reference, the handle of the caller is its own, and no child of it is about to take it over
while it changes. At the end of `start_process`, the parent is still there, and if its name is
`"main"` the root is its directory. -/
def DirOk (s : State) : Event → Prop
  | .chdir p dir => ∀ t h y, s.procs[p]? = some t → t.curr_dir = some h →
      Leads s.st t.selected (components dir) (some y) →
      Takes dir ∧ Unshared s p h ∧ (y = t.selected ∨ NoStarting s p)
  | .start c => ∀ t, s.procs[c]? = some t → ∃ u, s.procs[t.parent_thread]? = some u ∧
      u.stage ≠ .gone ∧ (u.name = main_name → u.selected = ROOT_DIR_SECTOR)
  | _ => True

/-! ## `chdir` and the counts -/

section Counts

variable {st st' : Store} {c : ℕ} {dir : Str}

theorem takes_ne_nil (h : Takes dir) : dir ≠ [] := by
  rintro rfl
  rcases h with h | ⟨t, ht, hmoves⟩
  · cases h
  · rw [show components [] = [[]] from rfl, List.mem_singleton] at ht
    exact hmoves.1 ht

/-- What a `dir_lookup` that succeeds leaves in the variable is opened once more. -/
theorem dir_lookup_takes (hc : st.open_inodes c ≠ none) (htakes : Takes dir) {v : Filesys.InodeVar}
    (h : Filesys.dir_lookup st (some c) c dir = .ok (true, v, st')) :
    ∃ y, v = .inode y ∧ Leads st c (components dir) (some y) ∧
      ∀ x, st.open_cnt x + [y].count x ≤ st'.open_cnt x := by
  have hne := takes_ne_nil htakes
  obtain ⟨hgo, hback⟩ := Filesys.dir_lookup_leads (Filesys.Opened.refl st) hc (some c) hne
  obtain ⟨r, hr⟩ := hback _ h
  obtain ⟨st₁, hrun, -⟩ := hgo r hr
  obtain ⟨hsome, hrest⟩ := Prod.mk.inj (Except.ok.inj (hrun.symm.trans h))
  obtain ⟨hv, rfl⟩ := Prod.mk.inj hrest
  obtain ⟨y, rfl⟩ := Option.isSome_iff_exists.mp hsome
  obtain ⟨l, hgains, -, -, hplain⟩ := Filesys.dir_lookup_gains hne h
  by_cases hslash : slash ∈ dir
  · -- a walk: the last inode it opens is the one it leads to
    have hmoves : ∃ t ∈ components dir, Moves t := by
      rcases htakes with rfl | hmoves
      · exact absurd hslash (by decide)
      · exact hmoves
    have hwalk := h
    rw [Filesys.dir_lookup, if_neg hne, if_pos hslash, Filesys.tokens_eq] at hwalk
    have hlt := (walk_loop_cnt y (components dir) st c .unassigned (Filesys.Opened.refl st) hc
      hwalk).2.mpr (hr.passes hmoves)
    refine ⟨y, ?_, hr, fun x => ?_⟩
    · rw [← hv, Filesys.looked_up, if_pos hslash, Filesys.walked_moves hmoves]
    · have hx := hgains.cnt x
      rw [List.count_singleton]
      by_cases hxy : y = x
      · subst hxy
        simp only [beq_self_eq_true, if_true]
        omega
      · rw [beq_false_of_ne hxy, if_neg Bool.false_ne_true]
        omega
  · -- a single name
    have hfound : v = .inode y := by rw [← hv, Filesys.looked_up, if_neg hslash]; rfl
    rcases hplain hslash with ⟨hnull, -⟩ | ⟨z, hz, rfl, -⟩
    · rw [hfound] at hnull
      cases hnull
    · rw [hfound] at hz
      obtain rfl := Filesys.InodeVar.inode.inj hz
      exact ⟨y, hfound, hr, fun x => (hgains.cnt x).ge⟩

/-- A `chdir` that succeeds has opened the new directory before it closes the old one. -/
theorem chdir_takes (hc : st.open_inodes c ≠ none) (htakes : Takes dir) {d : Option ℕ}
    (h : Filesys.chdir st c dir = .ok (true, d, st')) :
    ∃ y, ∃ st₁ : Store, d = some y ∧ Leads st c (components dir) (some y) ∧
      (∀ x, st.open_cnt x + [y].count x ≤ st₁.open_cnt x) ∧ st₁.inode_close c = .ok st' := by
  unfold Filesys.chdir at h
  obtain ⟨⟨b, v, st₁⟩, hlookup, h⟩ := bind_eq_ok h
  dsimp only at h
  cases b with
  | false =>
    rw [if_neg (by simp)] at h
    cases (Prod.mk.inj (Except.ok.inj h)).1
  | true =>
    rw [if_pos rfl] at h
    obtain ⟨y, rfl, hleads, hcnt⟩ := dir_lookup_takes hc htakes hlookup
    obtain ⟨d', hd', h⟩ := bind_eq_ok h
    obtain rfl := Except.ok.inj hd'
    obtain ⟨st₂, hclose, h⟩ := bind_eq_ok h
    obtain ⟨-, h⟩ := Prod.mk.inj (Except.ok.inj h)
    obtain ⟨rfl, rfl⟩ := Prod.mk.inj h
    exact ⟨y, st₁, rfl, hleads, hcnt, hclose⟩

/-- A `chdir` that succeeds leads somewhere. -/
theorem chdir_succeeds (hc : st.open_inodes c ≠ none) {d : Option ℕ}
    (h : Filesys.chdir st c dir = .ok (true, d, st')) :
    ∃ y, Leads st c (components dir) (some y) := by
  obtain ⟨⟨b, v, st₁⟩, hlookup, h⟩ := bind_eq_ok h
  by_cases hdir : dir = []
  · rw [hdir]
    exact ⟨c, (Leads.of_stay (by decide)).mpr rfl⟩
  obtain ⟨hgo, hback⟩ := Filesys.dir_lookup_leads (Filesys.Opened.refl st) hc (some c) hdir
  obtain ⟨r, hr⟩ := hback _ hlookup
  obtain ⟨st₂, hrun, -⟩ := hgo r hr
  have hb := (Prod.mk.inj (Except.ok.inj (hrun.symm.trans hlookup))).1
  cases r with
  | some y => exact ⟨y, hr⟩
  | none =>
    rw [← hb] at h
    cases (Prod.mk.inj (Except.ok.inj h)).1

/-- A `chdir` that fails closes nothing. -/
theorem chdir_fails {d : Option ℕ} (h : Filesys.chdir st c dir = .ok (false, d, st')) (x : ℕ) :
    st.open_cnt x ≤ st'.open_cnt x := by
  obtain ⟨⟨b, v, st₁⟩, hlookup, h⟩ := bind_eq_ok h
  dsimp only at h
  cases b with
  | true =>
    rw [if_pos rfl] at h
    obtain ⟨d', -, h⟩ := bind_eq_ok h
    obtain ⟨st₂, -, h⟩ := bind_eq_ok h
    cases (Prod.mk.inj (Except.ok.inj h)).1
  | false =>
    rw [if_neg (by simp)] at h
    obtain ⟨-, h⟩ := Prod.mk.inj (Except.ok.inj h)
    obtain ⟨-, rfl⟩ := Prod.mk.inj h
    obtain ⟨l, hgains⟩ := Filesys.dir_lookup_rises hlookup
    exact (Nat.le_add_right _ _).trans (hgains.cnt x).ge

/-- `filesys_open` of a thread without a directory takes a reference to the file it returns,
and closes nothing. -/
theorem filesys_open_takes {name : Str} {r : Option ℕ}
    (h : Filesys.filesys_open st none name = .ok (r, st')) (x : ℕ) :
    st.open_cnt x + r.toList.count x ≤ st'.open_cnt x := by
  unfold Filesys.filesys_open at h
  obtain ⟨⟨path, file⟩, hparse, h⟩ := bind_eq_ok h
  obtain ⟨st₁, hroot, h⟩ := bind_eq_ok h
  obtain ⟨⟨b, v, st₂⟩, hlookup, h⟩ := bind_eq_ok h
  have hle : st.open_cnt x ≤ st₁.open_cnt x :=
    (Nat.le_add_right _ _).trans ((Filesys.inode_open_gains hroot).cnt x).ge
  have hslash := (Filesys.parse_path_file hparse).1
  by_cases hfile : file = []
  · rw [hfile, Filesys.dir_lookup, if_pos rfl] at hlookup
    cases hlookup
  obtain ⟨l, hgains, -, -, hplain⟩ := Filesys.dir_lookup_gains hfile hlookup
  have hcnt := hgains.cnt x
  rcases hplain hslash with ⟨rfl, rfl⟩ | ⟨y, rfl, rfl, -⟩
  · obtain ⟨rfl, rfl⟩ := Prod.mk.inj (Except.ok.inj h)
    simpa using hle.trans (Nat.le_add_right _ _ |>.trans hcnt.ge)
  · obtain ⟨rfl, rfl⟩ := Prod.mk.inj (Except.ok.inj h)
    dsimp only [Option.toList_some]
    omega

/-- `inode_close` gives one count back. -/
theorem inode_close_gives (h : st.inode_close c = .ok st') (x : ℕ) :
    st.open_cnt x ≤ st'.open_cnt x + [c].count x := by
  have hcnt := Filesys.inode_close_cnt h x
  rw [List.count_singleton]
  by_cases hx : c = x
  · subst hx
    rw [if_pos rfl] at hcnt
    simp only [beq_self_eq_true, if_true]
    omega
  · rw [if_neg (Ne.symm hx)] at hcnt
    rw [beq_false_of_ne hx, if_neg Bool.false_ne_true]
    omega

end Counts

/-! ## The invariant -/

/-- The references of the two heaps. -/
def State.refs (s : State) : List ℕ := s.dirs.targets ++ s.files.targets

/-- The inodes count their references, a process that runs has a handle on the directory it
selected, and one that is starting the directory of its parent, if that is still there. -/
structure DirInv (s : State) : Prop where
  covers : Covers s.st.open_cnt s.refs
  started : ∀ (p : ℕ) (t : Process), s.procs[p]? = some t → p ≠ 0 → t.Started →
    ∃ h, t.curr_dir = some h ∧ s.dirs.get h = some t.selected
  waiting : ∀ (c : ℕ) (t : Process), s.procs[c]? = some t → t.Starting → ∃ u : Process,
    s.procs[t.parent_thread]? = some u ∧ (u.stage = .gone ∨ u.Started ∧ u.selected = t.selected)
  initial : s.procs[0]? = some initial_thread

section Steps

variable {s s' : State} {p : ℕ} {t t' : Process}

theorem Process.Started.not_starting (h : t.Started) : ¬ t.Starting := by
  rcases h with h | h <;> simp [Process.Starting, h]

theorem DirInv.boot (st : Store) : DirInv (boot st) where
  covers _ := Nat.zero_le _
  started p t hp hne _ := by
    rw [WorkingDir.boot, List.getElem?_cons, if_neg hne] at hp
    cases hp
  waiting c t hc hs := by
    rcases c with - | c
    · obtain rfl := Option.some.inj hc
      exact absurd hs (by decide)
    · cases hc
  initial := rfl

theorem DirInv.inDir (h : DirInv s) : AllInDir s := by
  intro p t hp hne hs
  obtain ⟨d, hd, hget⟩ := h.started p t hp hne hs
  exact ⟨d, hd, hget, h.covers.pos (List.mem_append_left _ (mem_targets hget))⟩

/-- **The rule for a process that goes on.** The other processes keep their handles. It has one
itself if it runs, it only starts if it did before, and those that wait for it find its
directory as it was. -/
theorem DirInv.set_proc (h : DirInv s) (hp : s.procs[p]? = some t) (hne : p ≠ 0)
    (hthere : t.stage ≠ .gone)
    (hprocs : s'.procs = s.procs.set p t') (hcovers : Covers s'.st.open_cnt s'.refs)
    (hdirs : ∀ q u d x, s.procs[q]? = some u → q ≠ p → u.Started → u.curr_dir = some d →
      s.dirs.get d = some x → s'.dirs.get d = some x)
    (hown : t'.Started → ∃ d, t'.curr_dir = some d ∧ s'.dirs.get d = some t'.selected)
    (hstarting : t'.Starting →
      t.Starting ∧ t'.parent_thread = t.parent_thread ∧ t'.selected = t.selected)
    (hparent : t.Started → t'.stage = .gone ∨
      t'.Started ∧ (t'.selected = t.selected ∨ NoStarting s p)) : DirInv s' := by
  have hlt := (List.getElem?_eq_some_iff.mp hp).1
  have hself : s'.procs[p]? = some t' := by rw [hprocs, List.getElem?_set_self hlt]
  have hother : ∀ q, q ≠ p → s'.procs[q]? = s.procs[q]? := fun q hq => by
    rw [hprocs, List.getElem?_set_ne (Ne.symm hq)]
  refine ⟨hcovers, fun q u hq hq0 hs => ?_, fun q u hq hs => ?_, ?_⟩
  · by_cases hqp : q = p
    · subst hqp
      obtain rfl := Option.some.inj (hself.symm.trans hq)
      exact hown hs
    · rw [hother q hqp] at hq
      obtain ⟨d, hd, hget⟩ := h.started q u hq hq0 hs
      exact ⟨d, hd, hdirs q u d _ hq hqp hs hd hget⟩
  · by_cases hqp : q = p
    · subst hqp
      obtain rfl := Option.some.inj (hself.symm.trans hq)
      obtain ⟨hst, hpar, hsel⟩ := hstarting hs
      obtain ⟨w, hw, hrel⟩ := h.waiting q t hp hst
      rw [hpar, hsel]
      -- the parent has started or is gone, so it is another process
      have hpq : t.parent_thread ≠ q := by
        intro heq
        rw [heq, hp] at hw
        obtain rfl := Option.some.inj hw
        rcases hrel with hgone | ⟨hs', -⟩
        · exact hthere hgone
        · exact hs'.not_starting hst
      exact ⟨w, (hother _ hpq).trans hw, hrel⟩
    · rw [hother q hqp] at hq
      obtain ⟨w, hw, hrel⟩ := h.waiting q u hq hs
      by_cases hpar : u.parent_thread = p
      · rw [hpar, hp] at hw
        obtain rfl := Option.some.inj hw
        rw [hpar]
        refine ⟨t', hself, ?_⟩
        obtain ⟨hst, hsel⟩ := hrel.resolve_left hthere
        rcases hparent hst with hgone | ⟨hst', hsame | hno⟩
        · exact Or.inl hgone
        · exact Or.inr ⟨hst', hsame.trans hsel⟩
        · exact absurd hpar (hno q u hq hs)
      · exact ⟨w, (hother _ hpar).trans hw, hrel⟩
  · rw [hother 0 (Ne.symm hne)]
    exact h.initial

theorem DirInv.ne_zero (h : DirInv s) (hp : s.procs[p]? = some t) (hstage : t.stage ≠ .running) :
    p ≠ 0 := by
  rintro rfl
  obtain rfl := Option.some.inj (h.initial.symm.trans hp)
  exact hstage rfl

/-- A new process waits for the directory its parent has now. -/
theorem DirInv.exec (h : DirInv s) (hp : s.procs[p]? = some t) (hrun : t.stage = .running)
    (file_name : Str) : DirInv (exec s p t file_name) := by
  have hold : ∀ q u, s.procs[q]? = some u → (WorkingDir.exec s p t file_name).procs[q]? = some u :=
    fun q u hq => by
      rw [WorkingDir.exec, List.getElem?_append_left (List.getElem?_eq_some_iff.mp hq).1]
      exact hq
  have hcases : ∀ (q : ℕ) (u : Process), (WorkingDir.exec s p t file_name).procs[q]? = some u →
      s.procs[q]? = some u ∨
        u = ⟨thread_name file_name, p, file_name, .loading, none, none, t.selected⟩ := by
    intro q u hq
    rw [WorkingDir.exec] at hq
    dsimp only at hq
    by_cases hlt : q < s.procs.length
    · rw [List.getElem?_append_left hlt] at hq
      exact Or.inl hq
    · rw [List.getElem?_append_right (Nat.not_lt.mp hlt), List.getElem?_singleton] at hq
      split_ifs at hq
      exact Or.inr (Option.some.inj hq).symm
  refine ⟨h.covers, fun q u hq hq0 hs => ?_, fun q u hq hs => ?_, hold 0 _ h.initial⟩
  · rcases hcases q u hq with hq | rfl
    · exact h.started q u hq hq0 hs
    · exact absurd hs (by simp [Process.Started])
  · rcases hcases q u hq with hq | rfl
    · obtain ⟨w, hw, hrel⟩ := h.waiting q u hq hs
      exact ⟨w, hold _ _ hw, hrel⟩
    · exact ⟨t, hold p t hp, Or.inr ⟨Or.inl hrun, rfl⟩⟩

/-- `file_close` gives the reference of the file back. -/
theorem file_close_covers {f : ℕ} (hcovers : Covers s.st.open_cnt s.refs)
    (h : file_close s f = .ok s') :
    Covers s'.st.open_cnt s'.refs ∧ s'.procs = s.procs ∧ s'.dirs = s.dirs := by
  unfold file_close at h
  cases hf : s.files.get f with
  | none =>
    rw [hf] at h
    cases h
  | some x =>
    rw [hf] at h
    obtain ⟨st, hclose, h⟩ := bind_eq_ok h
    obtain rfl := Except.ok.inj h
    have hperm : s.refs.Perm (x :: (s.dirs.targets ++ (s.files.close f).targets)) :=
      ((targets_close hf).append_left s.dirs.targets).trans List.perm_middle
    exact ⟨(hcovers.perm hperm).tail (inode_close_gives hclose), rfl, rfl⟩

/-- A process that leaves, whatever that does to the counts and to the files. -/
theorem DirInv.gone (h : DirInv s) (hp : s.procs[p]? = some t) (hne : p ≠ 0)
    (hthere : t.stage ≠ .gone) {r : State} (hcovers : Covers r.st.open_cnt r.refs)
    (hprocs : r.procs = s.procs) (hdirs : r.dirs = s.dirs) {u : Process} (hu : u.stage = .gone) :
    DirInv (r.set_proc p u) := by
  refine h.set_proc hp hne hthere (by rw [State.set_proc, hprocs]) hcovers
    (fun _ _ _ _ _ _ _ _ hget => ?_) (fun hs => ?_) (fun hs => ?_) fun _ => Or.inl hu
  · rw [State.set_proc, hdirs]
    exact hget
  · exact absurd hs (by simp [Process.Started, hu])
  · exact absurd hs (by simp [Process.Starting, hu])

theorem DirInv.load (h : DirInv s) (hp : s.procs[p]? = some t) (hstage : t.stage = .loading)
    {pages accepted : Bool} (hload : load s p t pages accepted = .ok s') : DirInv s' := by
  have hne : p ≠ 0 := h.ne_zero hp (by rw [hstage]; decide)
  have hthere : t.stage ≠ .gone := by
    rw [hstage]
    decide
  have hnot : ¬ t.Started := by simp [Process.Started, hstage]
  unfold WorkingDir.load at hload
  cases pages with
  | false =>
    rw [if_neg Bool.false_ne_true] at hload
    rw [← Except.ok.inj hload]
    exact h.gone hp hne hthere h.covers rfl rfl rfl
  | true =>
    rw [if_pos rfl] at hload
    cases htok : Filesys.strtok_r [32] t.file_name with
    | none =>
      rw [htok] at hload
      cases hload
    | some token =>
      rw [htok] at hload
      obtain ⟨⟨r, st⟩, hopen, hload⟩ := bind_eq_ok hload
      -- the lookup has opened the root and closes nothing, so only the file's own reference counts
      have hcnt := filesys_open_takes hopen
      cases r with
      | none =>
        rw [← Except.ok.inj hload]
        have hcovers : Covers st.open_cnt s.refs := h.covers.mono fun x => by simpa using hcnt x
        exact h.gone (r := { s with st := st }) hp hne hthere hcovers rfl rfl rfl
      | some x =>
        have hcovers : Covers st.open_cnt (s.dirs.targets ++ (s.files.create x).targets) :=
          (h.covers.cons hcnt).perm List.perm_middle.symm
        dsimp only at hload
        cases accepted with
        | true =>
          rw [if_pos rfl] at hload
          rw [← Except.ok.inj hload]
          refine h.set_proc hp hne hthere rfl hcovers (fun q u d x _ _ _ _ hget => hget)
            (fun hs => absurd hs (by simp [Process.Started]))
            (fun _ => ⟨Or.inl hstage, rfl, rfl⟩) fun hs => absurd hs hnot
        | false =>
          rw [if_neg Bool.false_ne_true] at hload
          obtain ⟨r, hclose, hload⟩ := bind_eq_ok hload
          rw [← Except.ok.inj hload]
          obtain ⟨hcovers', hprocs, hdirs⟩ := file_close_covers hcovers hclose
          exact h.gone hp hne hthere hcovers' hprocs hdirs rfl

/-- A process takes over the directory it was created for. -/
theorem DirInv.start (h : DirInv s) (hp : s.procs[p]? = some t) (hstage : t.stage = .loaded)
    (hok : DirOk s (.start p)) (hstart : start s p t = .ok s') : DirInv s' := by
  have hne : p ≠ 0 := h.ne_zero hp (by rw [hstage]; decide)
  have hthere : t.stage ≠ .gone := by
    rw [hstage]
    decide
  have hnot : ¬ t.Started := by simp [Process.Started, hstage]
  obtain ⟨u, hu, hugone, hmain⟩ := hok t hp
  obtain ⟨w, hw, hrel⟩ := h.waiting p t hp (Or.inr hstage)
  obtain rfl := Option.some.inj (hu.symm.trans hw)
  obtain ⟨hustarted, hsel⟩ := hrel.resolve_left hugone
  unfold WorkingDir.start at hstart
  rw [hu] at hstart
  dsimp only at hstart
  rw [if_neg hugone] at hstart
  by_cases hname : u.name = main_name
  · rw [if_pos hname] at hstart
    obtain ⟨st, hroot, hstart⟩ := bind_eq_ok hstart
    rw [← Except.ok.inj hstart]
    have hcnt : ∀ x, s.st.open_cnt x + [ROOT_DIR_SECTOR].count x ≤ st.open_cnt x := fun x =>
      ((Filesys.inode_open_gains hroot).cnt x).ge
    refine h.set_proc hp hne hthere rfl (h.covers.cons hcnt)
      (fun q v d x _ _ _ _ hget => get_create hget) (fun _ => ⟨s.dirs.next, rfl, ?_⟩)
      (fun hs => absurd hs (by simp [Process.Starting])) fun hs => absurd hs hnot
    show (s.dirs.create ROOT_DIR_SECTOR).get s.dirs.next = some t.selected
    rw [get_create_self, ← hsel, hmain hname]
  · rw [if_neg hname] at hstart
    rw [← Except.ok.inj hstart]
    -- the initial thread has no directory, but it is called `"main"`
    have hparent : t.parent_thread ≠ 0 := by
      intro hzero
      rw [hzero, h.initial] at hu
      obtain rfl := Option.some.inj hu
      exact hname rfl
    obtain ⟨d, hd, hget⟩ := h.started _ u hu hparent hustarted
    refine h.set_proc hp hne hthere rfl h.covers (fun q v e x _ _ _ _ hget => hget)
      (fun _ => ⟨d, hd, ?_⟩) (fun hs => absurd hs (by simp [Process.Starting]))
      fun hs => absurd hs hnot
    show s.dirs.get d = some t.selected
    rw [hget, hsel]

/-- What a call of `chdir` does in a state that meets the condition. -/
theorem DirInv.chdir_cases (h : DirInv s) (hp : s.procs[p]? = some t) (hstage : t.stage = .running)
    {dir : Str} (hok : DirOk s (.chdir p dir)) (hchdir : chdir s p t dir = .ok s') :
    p ≠ 0 ∧ ∃ d, t.curr_dir = some d ∧ s.dirs.get d = some t.selected ∧
      ((∃ st, s' = { s with st := st } ∧ ∀ x, s.st.open_cnt x ≤ st.open_cnt x) ∨
        ∃ st y, Leads s.st t.selected (components dir) (some y) ∧ Unshared s p d ∧
          (y = t.selected ∨ NoStarting s p) ∧
          (∀ x, s.st.open_cnt x + [y].count x ≤ st.open_cnt x + [t.selected].count x) ∧
          s' = { s with st := st, dirs := (s.dirs.create y).close d }.set_proc p
            { t with curr_dir := some s.dirs.next, selected := y }) := by
  unfold WorkingDir.chdir at hchdir
  have hne : p ≠ 0 := by
    rintro rfl
    obtain rfl := Option.some.inj (h.initial.symm.trans hp)
    cases hchdir
  obtain ⟨d, hd, hget⟩ := h.started p t hp hne (Or.inl hstage)
  refine ⟨hne, d, hd, hget, ?_⟩
  rw [hd] at hchdir
  dsimp only at hchdir
  rw [hget] at hchdir
  obtain ⟨⟨b, d', st'⟩, hrun, hchdir⟩ := bind_eq_ok hchdir
  have hopen : s.st.open_inodes t.selected ≠ none := by
    intro hnone
    have hpos := h.covers.pos (List.mem_append_left _ (mem_targets hget))
    rw [Store.open_cnt, hnone] at hpos
    exact lt_irrefl 0 hpos
  dsimp only at hchdir
  cases b with
  | false =>
    rw [if_neg Bool.false_ne_true] at hchdir
    exact Or.inl ⟨st', (Except.ok.inj hchdir).symm, chdir_fails hrun⟩
  | true =>
    obtain ⟨y, hy⟩ := chdir_succeeds hopen hrun
    obtain ⟨htakes, hunshared, hno⟩ := hok t d y hp hd hy
    obtain ⟨z, st₁, rfl, hz, hcnt, hclose⟩ := chdir_takes hopen htakes hrun
    obtain rfl := Option.some.inj (hy.unique hz)
    rw [if_pos rfl] at hchdir
    refine Or.inr ⟨st', y, hy, hunshared, hno, fun x => ?_, (Except.ok.inj hchdir).symm⟩
    exact (hcnt x).trans (inode_close_gives hclose x)

theorem DirInv.chdir (h : DirInv s) (hp : s.procs[p]? = some t) (hstage : t.stage = .running)
    {dir : Str} (hok : DirOk s (.chdir p dir)) (hchdir : chdir s p t dir = .ok s') :
    DirInv s' ∧ Moved s s' p dir := by
  obtain ⟨hne, d, hd, hget, ⟨st, rfl, hcnt⟩ | ⟨st, y, hy, hunshared, hno, hcnt, rfl⟩⟩ :=
    h.chdir_cases hp hstage hok hchdir
  · exact ⟨⟨h.covers.mono hcnt, h.started, h.waiting, h.initial⟩, ⟨t, t, hp, hp, Or.inl rfl⟩,
      fun q u _ hq => ⟨hq, fun _ _ _ _ hget' => hget'⟩⟩
  have hlt := (List.getElem?_eq_some_iff.mp hp).1
  -- a handle that is not the caller's survives both the new one and the close
  have hkeep : ∀ q (u : Process) e x, s.procs[q]? = some u → q ≠ p → u.Started →
      u.curr_dir = some e → s.dirs.get e = some x → ((s.dirs.create y).close d).get e = some x := by
    intro q u e x hq hqp hs he hget'
    have hed : e ≠ d := fun heq => hunshared q u hq hqp hs (by rw [he, heq])
    rw [get_close hed]
    exact get_create hget'
  have hnew : ((s.dirs.create y).close d).get s.dirs.next = some y := by
    rw [get_close (lt_next hget).ne']
    exact get_create_self
  -- one reference more for the new handle, and one less for the old
  have hcovers : Covers st.open_cnt (((s.dirs.create y).close d).targets ++ s.files.targets) := by
    have hcons : Covers (fun x => s.st.open_cnt x + [y].count x) (y :: s.refs) :=
      h.covers.cons fun x => le_rfl
    have hperm : (y :: s.refs).Perm
        (t.selected :: (((s.dirs.create y).close d).targets ++ s.files.targets)) :=
      (targets_close (get_create hget)).append_right s.files.targets
    exact (hcons.perm hperm).tail hcnt
  constructor
  · exact h.set_proc hp hne (by rw [hstage]; decide) rfl hcovers hkeep
      (fun _ => ⟨s.dirs.next, rfl, hnew⟩) (fun hs => absurd hs (by simp [Process.Starting, hstage]))
      fun _ => Or.inr ⟨Or.inl hstage, hno⟩
  · refine ⟨⟨t, _, hp, List.getElem?_set_self hlt, Or.inr hy⟩, fun q u hqp hq => ⟨?_, ?_⟩⟩
    · exact (List.getElem?_set_ne (Ne.symm hqp)).trans hq
    · exact fun e x hs he hget' => hkeep q u e x hq hqp hs he hget'

theorem DirInv.exit (h : DirInv s) (hp : s.procs[p]? = some t) (hne : p ≠ 0)
    (hstage : t.stage = .running) : DirInv (exit s p t) := by
  have hs : t.Started := Or.inl hstage
  exact h.set_proc hp hne (by rw [hstage]; decide) rfl h.covers (fun _ _ _ _ _ _ _ _ hget => hget)
    (fun _ => h.started p t hp hne hs) (fun hs' => absurd hs' (by simp [Process.Starting]))
    fun _ => Or.inr ⟨Or.inr rfl, Or.inl rfl⟩

theorem DirInv.thread_exit (h : DirInv s) (hp : s.procs[p]? = some t) (hne : p ≠ 0)
    (hs : t.Started) (hexit : thread_exit s p t = .ok s') : DirInv s' := by
  have hthere : t.stage ≠ .gone := by rcases hs with hs | hs <;> simp [hs]
  unfold WorkingDir.thread_exit at hexit
  cases hf : t.file_ptr with
  | none =>
    rw [hf] at hexit
    rw [← Except.ok.inj hexit]
    exact h.gone hp hne hthere h.covers rfl rfl rfl
  | some f =>
    rw [hf] at hexit
    obtain ⟨r, hclose, hexit⟩ := bind_eq_ok hexit
    rw [← Except.ok.inj hexit]
    obtain ⟨hcovers, hprocs, hdirs⟩ := file_close_covers h.covers hclose
    exact h.gone hp hne hthere hcovers hprocs hdirs rfl

/-- What an event happens to. -/
theorem at_stage_eq_ok {stages : List Stage} {f : Process → Res State}
    (h : s.at_stage p stages f = .ok s') :
    ∃ t, s.procs[p]? = some t ∧ t.stage ∈ stages ∧ f t = .ok s' := by
  unfold State.at_stage at h
  cases hp : s.procs[p]? with
  | none =>
    rw [hp] at h
    cases h
  | some t =>
    rw [hp] at h
    dsimp only at h
    split_ifs at h with hstage
    exact ⟨t, rfl, hstage, h⟩

theorem DirInv.run {e : Event} (h : DirInv s) (hok : DirOk s e) (hrun : run s e = .ok s') :
    DirInv s' := by
  cases e with
  | exec p file_name =>
    obtain ⟨t, hp, hstage, hrun⟩ := at_stage_eq_ok hrun
    rw [← Except.ok.inj hrun]
    exact h.exec hp (List.mem_singleton.mp hstage) file_name
  | load c pages accepted =>
    obtain ⟨t, hp, hstage, hrun⟩ := at_stage_eq_ok hrun
    exact h.load hp (List.mem_singleton.mp hstage) hrun
  | start c =>
    obtain ⟨t, hp, hstage, hrun⟩ := at_stage_eq_ok hrun
    exact h.start hp (List.mem_singleton.mp hstage) hok hrun
  | chdir p dir =>
    obtain ⟨t, hp, hstage, hrun⟩ := at_stage_eq_ok hrun
    exact (h.chdir hp (List.mem_singleton.mp hstage) hok hrun).1
  | exit p =>
    unfold WorkingDir.run at hrun
    dsimp only at hrun
    split_ifs at hrun with hne
    obtain ⟨t, hp, hstage, hrun⟩ := at_stage_eq_ok hrun
    rw [← Except.ok.inj hrun]
    exact h.exit hp hne (List.mem_singleton.mp hstage)
  | leave p =>
    unfold WorkingDir.run at hrun
    dsimp only at hrun
    split_ifs at hrun with hne
    obtain ⟨t, hp, hstage, hrun⟩ := at_stage_eq_ok hrun
    exact h.thread_exit hp hne (by simpa [Process.Started] using hstage) hrun

end Steps

/-- **Working directories are apart.** In every run whose steps meet the condition each process
is in the directory it selected last, and a `chdir` moves its caller along the path and nobody
else. -/
theorem working_dirs_apart {s : State} (hr : Reachable dir_system DirOk s) :
    AllInDir s ∧ ∀ p dir s', DirOk s (.chdir p dir) → dir_system.step s (.chdir p dir) s' →
      Moved s s' p dir := by
  have hinv : DirInv s := by
    refine Reachable.invariant ?_ ?_ hr
    · rintro r ⟨st, rfl⟩
      exact DirInv.boot st
    · exact fun r e r' hi hok hs => hi.run hok hs
  refine ⟨hinv.inDir, fun p dir s' hok hs => ?_⟩
  obtain ⟨t, hp, hstage, hrun⟩ := at_stage_eq_ok hs
  exact (hinv.chdir hp (List.mem_singleton.mp hstage) hok hrun).2

/-! ## Two runs -/

/-- A process in the root, and a child of it. -/
def parent_and_child : List Event :=
  [.exec 0 [102], .load 1 true true, .start 1, .exec 1 [102], .load 2 true true, .start 2]

/-- The condition on the steps of such a run. -/
def start_ok (s : State) : Event → Bool
  | .chdir _ _ => false
  | .start c => s.procs[c]?.all fun t => s.procs[t.parent_thread]?.any fun u =>
      u.stage ≠ .gone && (u.name ≠ main_name || u.selected == ROOT_DIR_SECTOR)
  | _ => true

theorem start_ok_dir_ok {s : State} {e : Event} (h : start_ok s e = true) : DirOk s e := by
  cases e with
  | start c =>
    intro t ht
    unfold start_ok at h
    dsimp only at h
    rw [ht, Option.all_some] at h
    cases hu : s.procs[t.parent_thread]? with
    | none =>
      rw [hu] at h
      cases h
    | some u =>
      rw [hu, Option.any_some, Bool.and_eq_true, Bool.or_eq_true, beq_iff_eq, decide_eq_true_eq,
        decide_eq_true_eq] at h
      exact ⟨u, rfl, h.1, fun hname => h.2.resolve_left (not_not_intro hname)⟩
  | chdir p dir => cases h
  | exec p file_name => trivial
  | load c pages accepted => trivial
  | exit p => trivial
  | leave p => trivial

/-- What a run is known by: the stage and the two directories of each process. -/
def State.view (s : State) : List (Stage × Option ℕ × ℕ) :=
  s.procs.map fun t => (t.stage, t.curr_dir, t.selected)

theorem view_of {s : State} {q : ℕ} {t : Process} (h : s.procs[q]? = some t) :
    s.view[q]? = some (t.stage, t.curr_dir, t.selected) := by
  rw [State.view, List.getElem?_map, h]
  rfl

/-- When the child has left, the parent may go to `d`. -/
theorem working_dirs_apart_small : ∃ s s', Reachable dir_system DirOk s ∧
    dir_system.step s (.chdir 1 [100]) s' ∧ AllInDir s ∧ Moved s s' 1 [100] ∧
    s'.view = [(.running, none, 1), (.running, some 1, 5), (.gone, some 0, 1)] := by
  have hrun : follow run start_ok (fun s =>
      s.view == [(.running, none, 1), (.running, some 0, 1), (.gone, some 0, 1)] &&
      ((run s (.chdir 1 [100])).map State.view).toOption ==
        some [(.running, none, 1), (.running, some 1, 5), (.gone, some 0, 1)])
      (boot Filesys.small_tree) (parent_and_child ++ [.exit 2, .leave 2]) = true := by
    decide +kernel
  have hstart : Reachable dir_system (fun s e => start_ok s e = true) (boot Filesys.small_tree) :=
    .init ⟨_, rfl⟩
  obtain ⟨s, hreach, hs⟩ := follow_reachable (fun _ _ _ h => h) hstart hrun
  rw [Bool.and_eq_true, beq_iff_eq, beq_iff_eq] at hs
  obtain ⟨hview, hnext⟩ := hs
  have hreach' : Reachable dir_system DirOk s := hreach.weaken fun _ _ h => start_ok_dir_ok h
  cases hstep : run s (.chdir 1 [100]) with
  | error f =>
    rw [hstep] at hnext
    cases hnext
  | ok s' =>
    rw [hstep] at hnext
    -- nobody else has a handle, and nobody is starting
    have hprocs : ∀ (q : ℕ) (t : Process), s.procs[q]? = some t → q ≠ 1 →
        t.stage = .gone ∨ t.stage = .running ∧ t.curr_dir = none := by
      intro q t hq hne
      have hq' := view_of hq
      rw [hview] at hq'
      rcases q with - | - | - | q
      · have heq := Option.some.inj hq'
        exact Or.inr ⟨(congrArg Prod.fst heq).symm, (congrArg (fun v => v.2.1) heq).symm⟩
      · exact absurd rfl hne
      · exact Or.inl (congrArg Prod.fst (Option.some.inj hq')).symm
      · cases hq'
    have hok : DirOk s (.chdir 1 [100]) := by
      intro t h y ht hh hy
      refine ⟨Or.inr ⟨[100], by decide, by decide⟩, fun q u hq hne hs => ?_,
        Or.inr fun q u hq hs => ?_⟩
      · rcases hprocs q u hq hne with hgone | ⟨-, hnone⟩
        · rcases hs with hs | hs <;> simp [hgone] at hs
        · simp [hnone]
      · by_cases hne : q = 1
        · subst hne
          have hq' := view_of hq
          rw [hview] at hq'
          have hstage : u.stage = .running := (congrArg Prod.fst (Option.some.inj hq')).symm
          rcases hs with hs | hs <;> simp [hstage] at hs
        · rcases hprocs q u hq hne with hgone | ⟨hrunning, -⟩
          · rcases hs with hs | hs <;> simp [hgone] at hs
          · rcases hs with hs | hs <;> simp [hrunning] at hs
    obtain ⟨hall, hmoved⟩ := working_dirs_apart hreach'
    exact ⟨s, s', hreach', hstep, hall, hmoved 1 [100] s' hok hstep, Option.some.inj hnext⟩

/-- **`chdir` frees the directory of the child.** -/
theorem chdir_frees_shared : ¬ ∀ s, Reachable dir_system (fun _ _ => True) s → AllInDir s := by
  intro hall
  have hrun : follow run (fun _ _ => true) (fun s =>
      s.view == [(.running, none, 1), (.running, some 1, 5), (.running, some 0, 1)] &&
      s.dirs.get 0 == none) (boot Filesys.small_tree) (parent_and_child ++ [.chdir 1 [100]]) =
      true := by
    decide +kernel
  have hstart : Reachable dir_system (fun _ _ => true = true) (boot Filesys.small_tree) :=
    .init ⟨_, rfl⟩
  obtain ⟨s, hreach, hs⟩ := follow_reachable (fun _ _ _ h => h) hstart hrun
  rw [Bool.and_eq_true, beq_iff_eq, beq_iff_eq] at hs
  obtain ⟨hview, hclosed⟩ := hs
  have hchild : s.view[2]? = some (.running, some 0, 1) := by
    rw [hview]
    rfl
  rw [State.view, List.getElem?_map, Option.map_eq_some_iff] at hchild
  obtain ⟨t, ht, heq⟩ := hchild
  have hstage : t.stage = .running := congrArg Prod.fst heq
  have hdir : t.curr_dir = some 0 := congrArg (fun v => v.2.1) heq
  obtain ⟨h, hh, hget, -⟩ := hall s (hreach.weaken fun _ _ _ => trivial) 2 t ht (by decide)
    (Or.inl hstage)
  rw [hdir] at hh
  obtain rfl := Option.some.inj hh
  rw [hclosed] at hget
  cases hget

end Pintos.Userprog.WorkingDir
