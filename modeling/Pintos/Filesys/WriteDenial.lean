/-
Denied writes, over every sequence of the calls of `filesys/file.c`.

A file carries a flag, its inode two counts. `file_deny_write` and `file_allow_write` are
idempotent through the flag, `file_close` allows writes again, and any number of files may be
on one inode. The bookkeeping behind the assertions of `inode_deny_write` and
`inode_allow_write` is that every file has an opener of its own and at most one denial:
`Exact` says it of an inode table and of any two counts, and each operation on an inode keeps
it. The counts are then those of a list of files.

Memory for a `struct file` may be missing (`allocated`); memory for a bounce buffer is there.
-/
import Pintos.Filesys.Descriptor
import Pintos.Filesys.Failure
import Pintos.Library.StepSystem

set_option autoImplicit false

namespace Pintos.Filesys.Descriptor

open Pintos.Kernel WordImage StepSystem

/-! ## Inodes -/

/-- `inode_reopen`. -/
def inode_reopen (st : Store) (x : ℕ) : Res Store := do
  let inode ← st.deref x
  return st.set_inode x (some { inode with open_cnt := inode.open_cnt + 1 })

/-- `inode_deny_write`. -/
def inode_deny_write (st : Store) (x : ℕ) : Call Store := do
  let inode ← lift (st.deref x)
  let inode := { inode with deny_write_cnt := inode.deny_write_cnt + 1 }
  check .inode_deny_write (inode.deny_write_cnt ≤ inode.open_cnt)
  return st.set_inode x (some inode)

/-! ## Files -/

/-- `file_open`, which owns the reference it is given. -/
def file_open (st : Store) (inode : ℕ) (allocated : Bool) : Call (Option File × Store) :=
  if allocated then .ok (some { inode := inode, pos := 0, deny_write := false }, st)
  else do
    let st ← lift (st.inode_close inode)
    return (none, st)

/-- `file_reopen`. -/
def file_reopen (st : Store) (f : File) (allocated : Bool) : Call (Option File × Store) := do
  let st ← lift (inode_reopen st f.inode)
  file_open st f.inode allocated

/-- `file_deny_write`. -/
def file_deny_write (st : Store) (f : File) : Call (File × Store) :=
  if f.deny_write then .ok (f, st)
  else do
    let st ← inode_deny_write st f.inode
    return ({ f with deny_write := true }, st)

/-- `file_allow_write`. -/
def file_allow_write (st : Store) (f : File) : Call (File × Store) :=
  if f.deny_write then do
    let st ← inode_allow_write st f.inode
    return ({ f with deny_write := false }, st)
  else .ok (f, st)

/-- `file_write_at`. -/
def file_write_at (st : Store) (f : File) (buffer : ℕ → UInt8) (size : ℤ) (file_ofs : ℕ) :
    Call (ℕ × Store) := do
  let inode ← lift (st.deref f.inode)
  let w ← lift (inode_write_at st.fs inode buffer size file_ofs size.toNat)
  return (w.1, { st.set_inode f.inode (some w.2.1) with fs := w.2.2 })

/-- `file_write`. -/
def file_write (st : Store) (f : File) (buffer : ℕ → UInt8) (size : ℤ) :
    Call (ℕ × File × Store) := do
  let w ← file_write_at st f buffer size f.pos
  return (w.1, { f with pos := f.pos + w.1 }, w.2)

/-! ## Runs -/

/-- The store, the references that `inode_open` has returned and no file owns, and the open
files. -/
structure Handles where
  st : Store
  refs : List ℕ
  files : List File

/-- A call. A file, or a reference, is named by its place in the list. -/
inductive FileCall
  | inode_open (sector : ℕ)
  | inode_close (ref : ℕ)
  | file_open (ref : ℕ) (allocated : Bool)
  | file_reopen (file : ℕ) (allocated : Bool)
  | file_close (file : ℕ)
  | file_deny_write (file : ℕ)
  | file_allow_write (file : ℕ)
  | file_write (file : ℕ) (buffer : ℕ → UInt8) (size : ℤ)
  | file_write_at (file : ℕ) (buffer : ℕ → UInt8) (size : ℤ) (file_ofs : ℕ)

/-- What a pointer points to. -/
def pick {α : Type} (l : List α) (i : ℕ) : Call α :=
  match l[i]? with
  | some a => .ok a
  | none => .error (.fault .dangling)

/-- One call. -/
def FileCall.run (s : Handles) : FileCall → Call Handles
  | .inode_open sector => do
    let st ← lift (s.st.inode_open sector)
    return { s with st := st, refs := sector :: s.refs }
  | .inode_close ref => do
    let x ← pick s.refs ref
    let st ← lift (s.st.inode_close x)
    return { s with st := st, refs := s.refs.eraseIdx ref }
  | .file_open ref allocated => do
    let x ← pick s.refs ref
    let r ← Descriptor.file_open s.st x allocated
    return { st := r.2, refs := s.refs.eraseIdx ref, files := r.1.toList ++ s.files }
  | .file_reopen file allocated => do
    let f ← pick s.files file
    let r ← Descriptor.file_reopen s.st f allocated
    return { s with st := r.2, files := r.1.toList ++ s.files }
  | .file_close file => do
    let f ← pick s.files file
    let st ← Descriptor.file_close s.st f
    return { s with st := st, files := s.files.eraseIdx file }
  | .file_deny_write file => do
    let f ← pick s.files file
    let r ← Descriptor.file_deny_write s.st f
    return { s with st := r.2, files := s.files.set file r.1 }
  | .file_allow_write file => do
    let f ← pick s.files file
    let r ← Descriptor.file_allow_write s.st f
    return { s with st := r.2, files := s.files.set file r.1 }
  | .file_write file buffer size => do
    let f ← pick s.files file
    let r ← Descriptor.file_write s.st f buffer size
    return { s with st := r.2.2, files := s.files.set file r.2.1 }
  | .file_write_at file buffer size file_ofs => do
    let f ← pick s.files file
    let r ← Descriptor.file_write_at s.st f buffer size file_ofs
    return { s with st := r.2 }

/-- The openers of an inode that the run knows of. -/
def holders (refs : List ℕ) (files : List File) (x : ℕ) : ℕ :=
  refs.count x + files.countP fun f => f.inode = x

/-- The open files on an inode whose flag is set. -/
def deniers (files : List File) (x : ℕ) : ℕ := files.countP fun f => f.inode = x ∧ f.deny_write

/-- Runs start without files, with every inode writable. Other openers there may be. -/
def file_calls : System Handles FileCall where
  init s := s.files = [] ∧ (∀ x ∈ s.refs, s.st.open_inodes x ≠ none) ∧
    ∀ x inode, s.st.open_inodes x = some inode →
      inode.deny_write_cnt = 0 ∧ s.refs.count x ≤ inode.open_cnt
  step s call s' := call.run s = .ok s'

/-- What a call that returns has gone through. -/
theorem call_eq_ok {α β : Type} {x : Call α} {f : α → Call β} {r : β}
    (h : (x >>= f) = .ok r) : ∃ a, x = .ok a ∧ f a = .ok r := by
  cases x with
  | error e => cases h
  | ok a => exact ⟨a, rfl, h⟩

theorem ok_call {α β : Type} (a : α) (f : α → Call β) : ((.ok a : Call α) >>= f) = f a := rfl

theorem check_eq_ok {site : Site} {p : Prop} [Decidable p] (hp : p) : check site p = .ok () :=
  if_pos hp

theorem lift_deref {st : Store} {x : ℕ} {inode : Inode} (hi : st.open_inodes x = some inode) :
    lift (st.deref x) = .ok inode := by
  rw [deref_eq_ok.mpr hi]
  rfl

/-! ## The bookkeeping of an inode table -/

/-- Each inode with a holder is open, it counts its holders among its openers and exactly its
deniers as denials, and no holder denies twice. -/
structure Exact (st : Store) (held denied : ℕ → ℕ) : Prop where
  le : ∀ x, denied x ≤ held x
  opened : ∀ x, 0 < held x → st.open_inodes x ≠ none
  counts : ∀ x inode, st.open_inodes x = some inode →
    inode.deny_write_cnt = denied x ∧ held x ≤ inode.open_cnt

section Table

variable {st st' : Store} {held denied held' denied' : ℕ → ℕ} {x : ℕ}

/-- Only one inode changes. -/
theorem Exact.set_inode (h : Exact st held denied) {inode : Inode} (fs : FileSys)
    (hle : ∀ y, denied' y ≤ held' y) (hdeny : inode.deny_write_cnt = denied' x)
    (hheld : held' x ≤ inode.open_cnt)
    (hrest : ∀ y, y ≠ x → held' y = held y ∧ denied' y = denied y) :
    Exact { st.set_inode x (some inode) with fs := fs } held' denied' where
  le := hle
  opened y hy := by
    by_cases hyx : y = x
    · rw [hyx]
      change (st.set_inode x (some inode)).open_inodes x ≠ none
      rw [set_inode_self]
      exact Option.some_ne_none _
    · rw [(hrest y hyx).1] at hy
      exact fun hnone => h.opened y hy ((set_inode_of_ne _ hyx).symm.trans hnone)
  counts y i hi := by
    change (st.set_inode x (some inode)).open_inodes y = some i at hi
    by_cases hyx : y = x
    · subst hyx
      rw [set_inode_self] at hi
      obtain rfl := Option.some.inj hi
      exact ⟨hdeny, hheld⟩
    · rw [set_inode_of_ne _ hyx] at hi
      rw [(hrest y hyx).1, (hrest y hyx).2]
      exact h.counts y i hi

/-- One opener more. -/
theorem Exact.inode_open (h : Exact st held denied)
    (hheld : ∀ y, held' y = held y + if x = y then 1 else 0)
    (hopen : st.inode_open x = .ok st') : Exact st' held' denied := by
  have hle : ∀ y, denied y ≤ held' y := fun y => by
    have := h.le y
    rw [hheld y]
    omega
  have hx : held' x = held x + 1 := by rw [hheld x, if_pos rfl]
  have hrest : ∀ y, y ≠ x → held' y = held y ∧ denied y = denied y := fun y hy =>
    ⟨by rw [hheld y, if_neg (Ne.symm hy), Nat.add_zero], rfl⟩
  unfold Store.inode_open at hopen
  cases hi : st.open_inodes x with
  | some inode =>
    rw [hi] at hopen
    obtain rfl := Except.ok.inj hopen
    obtain ⟨hdeny, hcnt⟩ := h.counts x inode hi
    exact h.set_inode st.fs hle hdeny (by rw [hx]; exact Nat.add_le_add_right hcnt 1) hrest
  | none =>
    -- nobody held it, so nobody denies it either
    rw [hi] at hopen
    obtain ⟨inode, hread, hopen⟩ := bind_eq_ok hopen
    obtain rfl := Except.ok.inj hopen
    obtain ⟨b, -, hread⟩ := bind_eq_ok hread
    obtain rfl := Except.ok.inj hread
    have hnone : held x = 0 := by
      by_contra hpos
      exact h.opened x (Nat.pos_of_ne_zero hpos) hi
    have hzero : denied x = 0 := Nat.le_zero.mp (hnone ▸ h.le x)
    exact h.set_inode st.fs hle hzero.symm (by rw [hx, hnone]) hrest

theorem Exact.inode_reopen (h : Exact st held denied)
    (hheld : ∀ y, held' y = held y + if x = y then 1 else 0)
    (hopen : inode_reopen st x = .ok st') : Exact st' held' denied := by
  obtain ⟨inode, hi, hopen⟩ := bind_eq_ok hopen
  obtain rfl := Except.ok.inj hopen
  refine h.inode_open hheld ?_
  unfold Store.inode_open
  rw [deref_eq_ok.mp hi]

/-- One opener less, that denies nothing. -/
theorem Exact.inode_close (h : Exact st held denied) (hle : ∀ y, denied y ≤ held' y)
    (hheld : ∀ y, held y = held' y + if x = y then 1 else 0)
    (hclose : st.inode_close x = .ok st') : Exact st' held' denied := by
  have hx : held x = held' x + 1 := by rw [hheld x, if_pos rfl]
  have hrest : ∀ y, y ≠ x → held' y = held y ∧ denied y = denied y := fun y hy =>
    ⟨by rw [hheld y, if_neg (Ne.symm hy), Nat.add_zero], rfl⟩
  obtain ⟨inode, hi⟩ := Option.ne_none_iff_exists'.mp (h.opened x (by omega))
  obtain ⟨hdeny, hcnt⟩ := h.counts x inode hi
  unfold Store.inode_close at hclose
  rw [hi] at hclose
  dsimp only at hclose
  by_cases hlast : inode.open_cnt - 1 = 0
  · -- the last opener was its only holder
    have hgone : ∀ s : FileSys × List ℕ,
        Exact { st.set_inode x none with fs := s.1, live := s.2 } held' denied := by
      intro s
      refine ⟨hle, fun y hy => ?_, fun y i hyi => ?_⟩
      · have hyx : y ≠ x := by
          rintro rfl
          omega
        rw [(hrest y hyx).1] at hy
        exact fun hnone => h.opened y hy ((set_inode_of_ne _ hyx).symm.trans hnone)
      · change (st.set_inode x none).open_inodes y = some i at hyi
        have hyx : y ≠ x := by
          rintro rfl
          rw [set_inode_self] at hyi
          cases hyi
        rw [set_inode_of_ne _ hyx] at hyi
        rw [(hrest y hyx).1]
        exact h.counts y i hyi
    rw [if_pos hlast] at hclose
    by_cases hremoved : inode.removed = true
    · rw [if_pos hremoved] at hclose
      obtain ⟨fs, -, hclose⟩ := bind_eq_ok hclose
      obtain rfl := Except.ok.inj hclose
      exact hgone (fs, _)
    · rw [if_neg hremoved] at hclose
      obtain rfl := Except.ok.inj hclose
      exact hgone (st.fs, st.live)
  · rw [if_neg hlast] at hclose
    obtain rfl := Except.ok.inj hclose
    refine h.set_inode st.fs hle hdeny ?_ hrest
    change held' x ≤ inode.open_cnt - 1
    omega

/-- A holder without a denial may deny. -/
theorem Exact.inode_deny_write (h : Exact st held denied) (hfree : denied x < held x)
    (hdenied : ∀ y, denied' y = denied y + if x = y then 1 else 0) :
    ∃ st', inode_deny_write st x = .ok st' ∧ Exact st' held denied' := by
  have hx : denied' x = denied x + 1 := by rw [hdenied x, if_pos rfl]
  have hrest : ∀ y, y ≠ x → held y = held y ∧ denied' y = denied y := fun y hy =>
    ⟨rfl, by rw [hdenied y, if_neg (Ne.symm hy), Nat.add_zero]⟩
  obtain ⟨inode, hi⟩ := Option.ne_none_iff_exists'.mp (h.opened x (by omega))
  obtain ⟨hdeny, hcnt⟩ := h.counts x inode hi
  have hroom : inode.deny_write_cnt + 1 ≤ inode.open_cnt := by omega
  refine ⟨st.set_inode x (some { inode with deny_write_cnt := inode.deny_write_cnt + 1 }), ?_,
    h.set_inode st.fs (fun y => ?_) ?_ hcnt hrest⟩
  · simp only [Descriptor.inode_deny_write, lift_deref hi, ok_call, check_eq_ok hroom]
    rfl
  · by_cases hyx : y = x
    · rw [hyx, hx]
      exact hfree
    · rw [(hrest y hyx).2]
      exact h.le y
  · rw [hx, ← hdeny]

/-- A denial may be taken back. -/
theorem Exact.inode_allow_write (h : Exact st held denied)
    (hdenied : ∀ y, denied y = denied' y + if x = y then 1 else 0) :
    ∃ st', inode_allow_write st x = .ok st' ∧ Exact st' held denied' := by
  have hx : denied x = denied' x + 1 := by rw [hdenied x, if_pos rfl]
  have hrest : ∀ y, y ≠ x → held y = held y ∧ denied' y = denied y := fun y hy =>
    ⟨rfl, by rw [hdenied y, if_neg (Ne.symm hy), Nat.add_zero]⟩
  have hle := h.le x
  obtain ⟨inode, hi⟩ := Option.ne_none_iff_exists'.mp (h.opened x (by omega))
  obtain ⟨hdeny, hcnt⟩ := h.counts x inode hi
  have hpos : 0 < inode.deny_write_cnt := by omega
  have hroom : inode.deny_write_cnt ≤ inode.open_cnt := by omega
  refine ⟨st.set_inode x (some { inode with deny_write_cnt := inode.deny_write_cnt - 1 }), ?_,
    h.set_inode st.fs (fun y => ?_) ?_ hcnt hrest⟩
  · simp only [Descriptor.inode_allow_write, lift_deref hi, ok_call, check_eq_ok hpos,
      check_eq_ok hroom]
    rfl
  · have := h.le y
    have := hdenied y
    omega
  · change inode.deny_write_cnt - 1 = denied' x
    omega

/-- A write changes neither. -/
theorem Exact.file_write_at (h : Exact st held denied) {f : File} {buffer : ℕ → UInt8} {size : ℤ}
    {file_ofs : ℕ} {r : ℕ × Store} (hwrite : file_write_at st f buffer size file_ofs = .ok r) :
    Exact r.2 held denied := by
  obtain ⟨inode, hi, hwrite⟩ := call_eq_ok hwrite
  obtain ⟨w, hw, hwrite⟩ := call_eq_ok hwrite
  obtain rfl := Except.ok.inj hwrite
  obtain ⟨hopen, hdeny⟩ := inode_write_at_counts (lift_eq_ok hw)
  obtain ⟨hd, hc⟩ := h.counts f.inode inode (deref_eq_ok.mp (lift_eq_ok hi))
  exact h.set_inode _ h.le (hdeny.trans hd) (hopen ▸ hc) fun y _ => ⟨rfl, rfl⟩

end Table

/-! ## The counts of a list of files -/

section Files

variable {st : Store} {refs refs' : List ℕ} {files files' : List File} {f g : File} {x i : ℕ}

theorem pick_eq_ok {α : Type} {l : List α} {a : α} (h : pick l i = .ok a) : l[i]? = some a := by
  unfold pick at h
  cases hi : l[i]? with
  | none =>
    rw [hi] at h
    cases h
  | some b =>
    rw [hi] at h
    rw [Except.ok.inj h]

/-- What is picked, in front of the others. -/
theorem pick_perm {α : Type} {l : List α} {a : α} (h : l[i]? = some a) :
    l.Perm (a :: l.eraseIdx i) := by
  obtain ⟨hlt, ha⟩ := List.getElem?_eq_some_iff.mp h
  rw [← ha]
  exact (List.getElem_cons_eraseIdx_perm hlt).symm

/-- What is put in its place, in front of the others. -/
theorem set_perm {α : Type} {l : List α} {a : α} (h : l[i]? = some a) (b : α) :
    (l.set i b).Perm (b :: l.eraseIdx i) :=
  List.set_perm_cons_eraseIdx (List.getElem?_eq_some_iff.mp h).1 b

theorem noFail_pick {α : Type} (l : List α) : NoFail (pick l i) := by
  unfold pick
  cases l[i]? with
  | some a => exact noFail_ok a
  | none => exact fun site h => by cases h

theorem holders_file (f : File) :
    holders refs (f :: files) x = holders refs files x + if f.inode = x then 1 else 0 := by
  simp [holders, List.countP_cons, Nat.add_assoc]

theorem holders_ref (x y : ℕ) :
    holders (x :: refs) files y = holders refs files y + if x = y then 1 else 0 := by
  simp only [holders, List.count_cons, beq_iff_eq]
  omega

theorem deniers_file (f : File) :
    deniers (f :: files) x = deniers files x + if f.inode = x ∧ f.deny_write then 1 else 0 := by
  simp [deniers, List.countP_cons]

theorem holders_perm (hrefs : refs.Perm refs') (hfiles : files.Perm files') :
    holders refs files = holders refs' files' := by
  funext x
  unfold holders
  rw [hrefs.count_eq, hfiles.countP_eq]

theorem deniers_perm (hfiles : files.Perm files') : deniers files = deniers files' := by
  funext x
  exact hfiles.countP_eq _

/-- A file denies at most once. -/
theorem deniers_le (x : ℕ) : deniers files x ≤ holders refs files x := by
  have hmono : deniers files x ≤ files.countP fun f => f.inode = x := by
    refine List.countP_mono_left fun f _ hf => ?_
    simp only [decide_eq_true_eq] at hf ⊢
    exact hf.1
  exact hmono.trans (Nat.le_add_left _ _)

/-- The bookkeeping of the references and the files of a run. -/
def Booked (st : Store) (refs : List ℕ) (files : List File) : Prop :=
  Exact st (holders refs files) (deniers files)

theorem Booked.perm (h : Booked st refs files) (hrefs : refs.Perm refs')
    (hfiles : files.Perm files') : Booked st refs' files' := by
  unfold Booked
  rw [← holders_perm hrefs hfiles, ← deniers_perm hfiles]
  exact h

/-- Only the inode and the flag of a file count. -/
theorem Booked.replace (h : Booked st refs (f :: files)) (hinode : g.inode = f.inode)
    (hdeny : g.deny_write = f.deny_write) : Booked st refs (g :: files) := by
  have hheld : holders refs (g :: files) = holders refs (f :: files) := by
    funext x
    rw [holders_file, holders_file, hinode]
  have hdenied : deniers (g :: files) = deniers (f :: files) := by
    funext x
    rw [deniers_file, deniers_file, hinode, hdeny]
  unfold Booked
  rw [hheld, hdenied]
  exact h

/-! ## One call -/

/-- Without the flag a file adds nothing to the deniers. -/
theorem deniers_clear (hf : f.deny_write = false) : deniers (f :: files) = deniers files := by
  funext x
  rw [deniers_file, if_neg (by simp [hf]), Nat.add_zero]

theorem deniers_set (hf : f.deny_write = true) (x : ℕ) :
    deniers (f :: files) x = deniers files x + if f.inode = x then 1 else 0 := by
  simp [deniers_file, hf]

/-- The close of a reference that no file owns. -/
theorem Booked.close (h : Exact st (holders (x :: refs) files) (deniers files)) {st' : Store}
    (hclose : st.inode_close x = .ok st') : Booked st' refs files :=
  Exact.inode_close h deniers_le (fun y => holders_ref x y) hclose

theorem file_open_booked (h : Booked st (x :: refs) files) (allocated : Bool) :
    NoFail (file_open st x allocated) ∧ ∀ r, file_open st x allocated = .ok r →
      Booked r.2 refs (r.1.toList ++ files) := by
  unfold file_open
  cases allocated with
  | true =>
    rw [if_pos rfl]
    refine ⟨noFail_ok _, fun r hr => ?_⟩
    obtain rfl := Except.ok.inj hr
    -- the reference becomes the file's
    have hheld : holders refs ({ inode := x, pos := 0, deny_write := false } :: files)
        = holders (x :: refs) files := by
      funext y
      rw [holders_file, holders_ref]
    unfold Booked
    change Exact st (holders refs ({ inode := x, pos := 0, deny_write := false } :: files))
      (deniers ({ inode := x, pos := 0, deny_write := false } :: files))
    rw [hheld, deniers_clear rfl]
    exact h
  | false =>
    rw [if_neg (by decide)]
    refine ⟨noFail_bind.mpr ⟨noFail_lift _, fun _ _ => noFail_pure _⟩, fun r hr => ?_⟩
    obtain ⟨st', hclose, hr⟩ := call_eq_ok hr
    obtain rfl := Except.ok.inj hr
    exact Booked.close h (lift_eq_ok hclose)

theorem file_reopen_booked (h : Booked st refs files) (allocated : Bool) :
    NoFail (file_reopen st f allocated) ∧ ∀ r, file_reopen st f allocated = .ok r →
      Booked r.2 refs (r.1.toList ++ files) := by
  have hbook : ∀ st', lift (inode_reopen st f.inode) = .ok st' →
      Booked st' (f.inode :: refs) files := fun st' hopen =>
    Exact.inode_reopen h (fun y => holders_ref f.inode y) (lift_eq_ok hopen)
  constructor
  · exact noFail_bind.mpr ⟨noFail_lift _, fun st' hopen =>
      (file_open_booked (hbook st' hopen) allocated).1⟩
  · intro r hr
    obtain ⟨st', hopen, hr⟩ := call_eq_ok hr
    exact (file_open_booked (hbook st' hopen) allocated).2 r hr

/-- `file_allow_write` returns, with the flag clear. -/
theorem file_allow_write_booked (h : Booked st refs (f :: files)) :
    ∃ st', file_allow_write st f = .ok ({ f with deny_write := false }, st') ∧
      Booked st' refs ({ f with deny_write := false } :: files) := by
  unfold file_allow_write
  by_cases hf : f.deny_write = true
  · rw [if_pos hf]
    obtain ⟨st', hallow, h'⟩ := Exact.inode_allow_write h (deniers_set hf)
    refine ⟨st', by rw [hallow]; rfl, ?_⟩
    have hheld : holders refs ({ f with deny_write := false } :: files)
        = holders refs (f :: files) := by
      funext y
      rw [holders_file, holders_file]
    unfold Booked
    rw [hheld, deniers_clear rfl]
    exact h'
  · have hclear : f.deny_write = false := Bool.eq_false_iff.mpr hf
    have hsame : { f with deny_write := false } = f := by rw [← hclear]
    rw [if_neg hf, hsame]
    exact ⟨st, rfl, h⟩

/-- `file_deny_write` returns, with the flag set. -/
theorem file_deny_write_booked (h : Booked st refs (f :: files)) :
    ∃ st', file_deny_write st f = .ok ({ f with deny_write := true }, st') ∧
      Booked st' refs ({ f with deny_write := true } :: files) := by
  unfold file_deny_write
  by_cases hf : f.deny_write = true
  · have hsame : { f with deny_write := true } = f := by rw [← hf]
    rw [if_pos hf, hsame]
    exact ⟨st, rfl, h⟩
  · have hclear : f.deny_write = false := Bool.eq_false_iff.mpr hf
    -- a file that does not deny is an opener the count has room for
    have hfree : deniers (f :: files) f.inode < holders refs (f :: files) f.inode := by
      have hle := @deniers_le refs files f.inode
      rw [deniers_clear hclear, holders_file, if_pos rfl]
      omega
    have hdenied : ∀ y, deniers ({ f with deny_write := true } :: files) y =
        deniers (f :: files) y + if f.inode = y then 1 else 0 := by
      intro y
      rw [deniers_set rfl, deniers_clear hclear]
    rw [if_neg hf]
    obtain ⟨st', hdeny, h'⟩ := Exact.inode_deny_write h hfree hdenied
    refine ⟨st', by rw [hdeny]; rfl, ?_⟩
    have hheld : holders refs ({ f with deny_write := true } :: files)
        = holders refs (f :: files) := by
      funext y
      rw [holders_file, holders_file]
    unfold Booked
    rw [hheld]
    exact h'

/-- `file_close` takes the denial of the file back before it closes its inode. -/
theorem file_close_booked (h : Booked st refs (f :: files)) :
    NoFail (file_close st f) ∧ ∀ st', file_close st f = .ok st' → Booked st' refs files := by
  obtain ⟨st₁, hallow, h₁⟩ := file_allow_write_booked h
  have hrun : file_close st f = lift (st₁.inode_close f.inode) := by
    unfold file_allow_write at hallow
    unfold file_close
    by_cases hf : f.deny_write = true
    · rw [if_pos hf] at hallow ⊢
      obtain ⟨st₂, ha, hallow⟩ := call_eq_ok hallow
      rw [ha, ← (Prod.mk.inj (Except.ok.inj hallow)).2]
      rfl
    · rw [if_neg hf] at hallow ⊢
      rw [← (Prod.mk.inj (Except.ok.inj hallow)).2]
      rfl
  rw [hrun]
  refine ⟨noFail_lift _, fun st' hclose => ?_⟩
  have hdenied : deniers ({ f with deny_write := false } :: files) = deniers files :=
    deniers_clear rfl
  unfold Booked at h₁
  rw [hdenied] at h₁
  exact Exact.inode_close h₁ deniers_le (fun y => holders_file _) (lift_eq_ok hclose)

theorem noFail_write_at {buffer : ℕ → UInt8} {size : ℤ} {file_ofs : ℕ} :
    NoFail (file_write_at st f buffer size file_ofs) :=
  noFail_bind.mpr ⟨noFail_lift _, fun _ _ =>
    noFail_bind.mpr ⟨noFail_lift _, fun _ _ => noFail_pure _⟩⟩

end Files

variable {s s' : Handles}

/-- **A step** fails no assertion and keeps the books. -/
theorem run_booked (h : Booked s.st s.refs s.files) (call : FileCall) :
    NoFail (call.run s) ∧ ∀ s', call.run s = .ok s' → Booked s'.st s'.refs s'.files := by
  -- a file is taken out of the list, and what becomes of it is put back
  have hfile : ∀ i f, pick s.files i = .ok f →
      Booked s.st s.refs (f :: s.files.eraseIdx i) ∧ ∀ g,
        (g :: s.files.eraseIdx i).Perm (s.files.set i g) := fun i f hf =>
    ⟨h.perm (List.Perm.refl _) (pick_perm (pick_eq_ok hf)),
      fun g => (set_perm (pick_eq_ok hf) g).symm⟩
  have href : ∀ i x, pick s.refs i = .ok x → Booked s.st (x :: s.refs.eraseIdx i) s.files :=
    fun i x hx => h.perm (pick_perm (pick_eq_ok hx)) (List.Perm.refl _)
  cases call with
  | inode_open sector =>
    refine ⟨noFail_bind.mpr ⟨noFail_lift _, fun _ _ => noFail_pure _⟩, fun s' hrun => ?_⟩
    obtain ⟨st, hopen, hrun⟩ := call_eq_ok hrun
    obtain rfl := Except.ok.inj hrun
    exact Exact.inode_open h (fun y => holders_ref sector y) (lift_eq_ok hopen)
  | inode_close ref =>
    refine ⟨noFail_bind.mpr ⟨noFail_pick _, fun _ _ => noFail_bind.mpr ⟨noFail_lift _, fun _ _ =>
      noFail_pure _⟩⟩, fun s' hrun => ?_⟩
    obtain ⟨x, hx, hrun⟩ := call_eq_ok hrun
    obtain ⟨st, hclose, hrun⟩ := call_eq_ok hrun
    obtain rfl := Except.ok.inj hrun
    exact Booked.close (href ref x hx) (lift_eq_ok hclose)
  | file_open ref allocated =>
    refine ⟨noFail_bind.mpr ⟨noFail_pick _, fun x hx => noFail_bind.mpr
      ⟨(file_open_booked (href ref x hx) allocated).1, fun _ _ => noFail_pure _⟩⟩,
      fun s' hrun => ?_⟩
    obtain ⟨x, hx, hrun⟩ := call_eq_ok hrun
    obtain ⟨r, hopen, hrun⟩ := call_eq_ok hrun
    obtain rfl := Except.ok.inj hrun
    exact (file_open_booked (href ref x hx) allocated).2 r hopen
  | file_reopen file allocated =>
    refine ⟨noFail_bind.mpr ⟨noFail_pick _, fun f _ => noFail_bind.mpr
      ⟨(file_reopen_booked h allocated).1, fun _ _ => noFail_pure _⟩⟩, fun s' hrun => ?_⟩
    obtain ⟨f, hf, hrun⟩ := call_eq_ok hrun
    obtain ⟨r, hopen, hrun⟩ := call_eq_ok hrun
    obtain rfl := Except.ok.inj hrun
    exact (file_reopen_booked h allocated).2 r hopen
  | file_close file =>
    refine ⟨noFail_bind.mpr ⟨noFail_pick _, fun f hf => noFail_bind.mpr
      ⟨(file_close_booked (hfile file f hf).1).1, fun _ _ => noFail_pure _⟩⟩, fun s' hrun => ?_⟩
    obtain ⟨f, hf, hrun⟩ := call_eq_ok hrun
    obtain ⟨st, hclose, hrun⟩ := call_eq_ok hrun
    obtain rfl := Except.ok.inj hrun
    exact (file_close_booked (hfile file f hf).1).2 st hclose
  | file_deny_write file =>
    refine ⟨noFail_bind.mpr ⟨noFail_pick _, fun f hf => noFail_bind.mpr ⟨?_, fun _ _ =>
      noFail_pure _⟩⟩, fun s' hrun => ?_⟩
    · obtain ⟨st, hdeny, -⟩ := file_deny_write_booked (hfile file f hf).1
      rw [hdeny]
      exact noFail_ok _
    · obtain ⟨f, hf, hrun⟩ := call_eq_ok hrun
      obtain ⟨st, hdeny, hbook⟩ := file_deny_write_booked (hfile file f hf).1
      rw [hdeny] at hrun
      obtain rfl := Except.ok.inj hrun
      exact hbook.perm (List.Perm.refl _) ((hfile file f hf).2 _)
  | file_allow_write file =>
    refine ⟨noFail_bind.mpr ⟨noFail_pick _, fun f hf => noFail_bind.mpr ⟨?_, fun _ _ =>
      noFail_pure _⟩⟩, fun s' hrun => ?_⟩
    · obtain ⟨st, hallow, -⟩ := file_allow_write_booked (hfile file f hf).1
      rw [hallow]
      exact noFail_ok _
    · obtain ⟨f, hf, hrun⟩ := call_eq_ok hrun
      obtain ⟨st, hallow, hbook⟩ := file_allow_write_booked (hfile file f hf).1
      rw [hallow] at hrun
      obtain rfl := Except.ok.inj hrun
      exact hbook.perm (List.Perm.refl _) ((hfile file f hf).2 _)
  | file_write file buffer size =>
    refine ⟨noFail_bind.mpr ⟨noFail_pick _, fun f _ => noFail_bind.mpr
      ⟨noFail_bind.mpr ⟨noFail_write_at, fun _ _ => noFail_pure _⟩, fun _ _ => noFail_pure _⟩⟩,
      fun s' hrun => ?_⟩
    obtain ⟨f, hf, hrun⟩ := call_eq_ok hrun
    obtain ⟨r, hwrite, hrun⟩ := call_eq_ok hrun
    obtain ⟨w, hwrite', hr⟩ := call_eq_ok hwrite
    obtain rfl := Except.ok.inj hr
    obtain rfl := Except.ok.inj hrun
    -- only the position of the file has changed
    have hbook : Booked w.2 s.refs ({ f with pos := f.pos + w.1 } :: s.files.eraseIdx file) :=
      Booked.replace (Exact.file_write_at (hfile file f hf).1 hwrite') rfl rfl
    exact hbook.perm (List.Perm.refl _) ((hfile file f hf).2 _)
  | file_write_at file buffer size file_ofs =>
    refine ⟨noFail_bind.mpr ⟨noFail_pick _, fun f _ => noFail_bind.mpr
      ⟨noFail_write_at, fun _ _ => noFail_pure _⟩⟩, fun s' hrun => ?_⟩
    obtain ⟨f, hf, hrun⟩ := call_eq_ok hrun
    obtain ⟨r, hwrite, hrun⟩ := call_eq_ok hrun
    obtain rfl := Except.ok.inj hrun
    exact Exact.file_write_at h hwrite

/-- In every state that calls reach the books are kept. -/
theorem booked_of_reachable (hr : Reachable file_calls (fun _ _ => True) s) :
    Booked s.st s.refs s.files := by
  refine hr.invariant ?_ fun s call s' h _ hstep => (run_booked h call).2 s' hstep
  rintro s ⟨hfiles, hopen, hcounts⟩
  have hdenied : ∀ x, deniers s.files x = 0 := fun x => by rw [hfiles]; rfl
  have hheld : ∀ x, holders s.refs s.files x = s.refs.count x := fun x => by rw [hfiles]; rfl
  refine ⟨deniers_le, fun x hx => hopen x ?_, fun x inode hi => ?_⟩
  · rw [hheld x] at hx
    exact List.count_pos_iff.mp hx
  · rw [hdenied x, hheld x]
    exact hcounts x inode hi

/-! ## Writes -/

section Writes

variable {st : Store} {f : File} {inode : Inode} {buffer : ℕ → UInt8} {size offset : ℕ}

/-- While writes are denied a write returns 0 and does nothing. -/
theorem file_write_at_denied (hi : st.open_inodes f.inode = some inode)
    (hdeny : 0 < inode.deny_write_cnt) (n : ℤ) :
    file_write_at st f buffer n offset = .ok (0, st) := by
  have hput : st.set_inode f.inode (some inode) = st := by
    unfold Store.set_inode
    rw [← hi, Function.update_eq_self]
  unfold file_write_at inode_write_at
  rw [lift_deref hi, ok_call, if_pos (Nat.ne_of_gt hdeny)]
  change Except.ok (0, st.set_inode f.inode (some inode)) = _
  rw [hput]

/-- Otherwise, if it returns, it has written all there was. -/
theorem file_write_at_full (hi : st.open_inodes f.inode = some inode)
    (hallow : inode.deny_write_cnt = 0) {r : ℕ × Store}
    (hwrite : file_write_at st f buffer size offset = .ok r) : r.1 = size := by
  unfold file_write_at at hwrite
  rw [lift_deref hi, ok_call, Int.toNat_natCast, inode_write_at_nat] at hwrite
  obtain ⟨w, hw, hwrite⟩ := call_eq_ok hwrite
  obtain rfl := Except.ok.inj hwrite
  exact inode_write_full hallow (lift_eq_ok hw)

/-- And it does return when the file system and the file are well formed and the write fits
the file. -/
theorem file_write_at_returns (hi : st.open_inodes f.inode = some inode)
    (hallow : inode.deny_write_cnt = 0) (hready : Ready st.fs) (hok : FileOk st.fs inode)
    (hfits : offset + size ≤ inode.data.length) :
    ∃ st', file_write_at st f buffer size offset = .ok (size, st') := by
  have hmax : offset + size ≤ 512 * MAX_BLOCKS := by
    have hlen : inode.data.length ≤ 512 * inode.data.blocks := by
      unfold InodeDisk.blocks bytes_to_sectors
      omega
    exact hfits.trans (hlen.trans (Nat.mul_le_mul_left 512 hok.max))
  have hgrow : CanGrow st.fs inode.data.length (offset + size) := fun hneeds => by
    unfold needs_blocks at hneeds
    split_ifs at hneeds <;> omega
  obtain ⟨inode', s', hrun, -⟩ := inode_write_at_spec buffer hready hok hallow hmax hgrow
  refine ⟨{ st.set_inode f.inode (some inode') with fs := s' }, ?_⟩
  unfold file_write_at
  rw [lift_deref hi, ok_call, Int.toNat_natCast, inode_write_at_nat, hrun]
  rfl

/-- The write ends inside the file. -/
def Fits (st : Store) (x offset size : ℕ) : Prop :=
  ∀ inode, st.open_inodes x = some inode → offset + size ≤ inode.data.length

/-- A write that fits returns 0 and does nothing exactly while a file denies writes. -/
theorem file_write_at_exact {refs : List ℕ} {files : List File} (h : Booked st refs files)
    (hf : f ∈ files) (hsize : 0 < size) :
    (file_write_at st f buffer size offset = .ok (0, st) ↔ 0 < deniers files f.inode) ∧
    (deniers files f.inode = 0 →
      (∀ r, file_write_at st f buffer size offset = .ok r → r.1 = size) ∧
      ∀ inode, st.open_inodes f.inode = some inode → Ready st.fs → FileOk st.fs inode →
        Fits st f.inode offset size →
        ∃ st', file_write_at st f buffer size offset = .ok (size, st')) := by
  have hheld : 0 < holders refs files f.inode := by
    have hcount : 0 < files.countP fun g => g.inode = f.inode :=
      List.countP_pos_iff.mpr ⟨f, hf, by simp⟩
    exact Nat.add_pos_right _ hcount
  obtain ⟨inode, hi⟩ := Option.ne_none_iff_exists'.mp (h.opened f.inode hheld)
  have hcnt : inode.deny_write_cnt = deniers files f.inode := (h.counts f.inode inode hi).1
  refine ⟨⟨fun hwrite => ?_, fun hpos => ?_⟩, fun hzero => ⟨fun r hwrite => ?_, ?_⟩⟩
  · by_contra hnone
    have hfull := file_write_at_full hi (by omega) hwrite
    omega
  · exact file_write_at_denied hi (by omega) size
  · exact file_write_at_full hi (by omega) hwrite
  · intro i hi' hready hok hfits
    obtain rfl := Option.some.inj (hi.symm.trans hi')
    exact file_write_at_returns hi (by omega) hready hok (hfits inode hi)

/-- `file_write` is `file_write_at` at the position, which it moves by what was written. -/
theorem file_write_eq_ok {r : ℕ × Store} :
    file_write st f buffer size = .ok (r.1, { f with pos := f.pos + r.1 }, r.2) ↔
      file_write_at st f buffer size f.pos = .ok r := by
  constructor
  · intro h
    obtain ⟨w, hw, h⟩ := call_eq_ok h
    obtain ⟨hn, h⟩ := Prod.mk.inj (Except.ok.inj h)
    rw [hw, ← Prod.eta w, hn, (Prod.mk.inj h).2]
  · intro h
    unfold file_write
    rw [h]
    rfl

end Writes

/-- **Write denial is exact.** After any sequence of calls on any files the count of every
open inode is the number of its open files with the flag set, and not above its openers; no
call fails an assertion; and a write through a file, at its position or elsewhere, returns 0
and does nothing exactly while that number is positive. Otherwise what it returns is its size,
and where the file system and the file are well formed it does return. -/
theorem write_denial_exact (hr : Reachable file_calls (fun _ _ => True) s) :
    (∀ x inode, s.st.open_inodes x = some inode →
      inode.deny_write_cnt = deniers s.files x ∧ deniers s.files x ≤ inode.open_cnt) ∧
    (∀ call : FileCall, NoFail (call.run s)) ∧
    ∀ f ∈ s.files, s.st.open_inodes f.inode ≠ none ∧
      ∀ (buffer : ℕ → UInt8) (size file_ofs : ℕ), 0 < size →
        (file_write s.st f buffer size = .ok (0, f, s.st) ↔ 0 < deniers s.files f.inode) ∧
        (file_write_at s.st f buffer size file_ofs = .ok (0, s.st) ↔
          0 < deniers s.files f.inode) ∧
        (deniers s.files f.inode = 0 →
          (∀ r, file_write_at s.st f buffer size file_ofs = .ok r → r.1 = size) ∧
          ∀ inode, s.st.open_inodes f.inode = some inode → Ready s.st.fs → FileOk s.st.fs inode →
            Fits s.st f.inode file_ofs size →
            ∃ st', file_write_at s.st f buffer size file_ofs = .ok (size, st')) := by
  have hbook := booked_of_reachable hr
  refine ⟨fun x inode hi => ?_, fun call => (run_booked hbook call).1, fun f hf => ⟨?_, ?_⟩⟩
  · obtain ⟨hdeny, hopen⟩ := hbook.counts x inode hi
    exact ⟨hdeny, (hbook.le x).trans hopen⟩
  · refine hbook.opened f.inode ?_
    have hcount : 0 < s.files.countP fun g => g.inode = f.inode :=
      List.countP_pos_iff.mpr ⟨f, hf, by simp⟩
    exact Nat.add_pos_right _ hcount
  · intro buffer size file_ofs hsize
    refine ⟨?_, (file_write_at_exact hbook hf hsize).1, (file_write_at_exact hbook hf hsize).2⟩
    rw [← (file_write_at_exact hbook hf hsize).1]
    exact @file_write_eq_ok s.st f buffer size (0, s.st)

/-- Two references to the file of `small_tree`, and no file yet. -/
def two_references : Handles where
  st := { small_tree with
    open_inodes := fun x => if x = 3 then some ⟨3, 2, false, 0, one_block 3 24 false⟩ else none }
  refs := [3, 3]
  files := []

theorem two_references_init : file_calls.init two_references := by
  refine ⟨rfl, fun x hx => ?_, fun x inode hi => ?_⟩
  · have hx3 : x = 3 := by simpa [two_references] using hx
    rw [hx3]
    exact Option.some_ne_none _
  · simp only [two_references] at hi
    split_ifs at hi with hx
    rw [← Option.some.inj hi, hx]
    exact ⟨rfl, by decide⟩

/-- After both have been opened, and the second file denies writes, a write through the first
returns 0 and does nothing. -/
theorem write_denied_by_another : ∃ s f, Reachable file_calls (fun _ _ => True) s ∧ f ∈ s.files ∧
    f.deny_write = false ∧ file_write s.st f (fun _ => 7) 4 = .ok (0, f, s.st) := by
  obtain ⟨s₁, h₁⟩ : ∃ s₁, (FileCall.file_open 0 true).run two_references = .ok s₁ := ⟨_, rfl⟩
  obtain ⟨s₂, h₂⟩ : ∃ s₂, (FileCall.file_open 0 true).run s₁ = .ok s₂ := by
    obtain rfl := Except.ok.inj h₁
    exact ⟨_, rfl⟩
  obtain ⟨s₃, h₃⟩ : ∃ s₃, (FileCall.file_deny_write 1).run s₂ = .ok s₃ := by
    obtain rfl := Except.ok.inj h₁
    obtain rfl := Except.ok.inj h₂
    exact ⟨_, rfl⟩
  have hfiles : s₃.files = [⟨3, 0, false⟩, ⟨3, 0, true⟩] := by
    obtain rfl := Except.ok.inj h₁
    obtain rfl := Except.ok.inj h₂
    obtain rfl := Except.ok.inj h₃
    rfl
  have hr : Reachable file_calls (fun _ _ => True) s₃ :=
    (((Reachable.init two_references_init).step trivial h₁).step trivial h₂).step trivial h₃
  have hf : (⟨3, 0, false⟩ : File) ∈ s₃.files := by
    rw [hfiles]
    exact List.mem_cons_self
  obtain ⟨-, -, hwrites⟩ := write_denial_exact hr
  refine ⟨s₃, ⟨3, 0, false⟩, hr, hf, rfl, ((hwrites _ hf).2 (fun _ => 7) 4 0 (by decide)).1.mpr ?_⟩
  rw [hfiles]
  decide

end Pintos.Filesys.Descriptor
