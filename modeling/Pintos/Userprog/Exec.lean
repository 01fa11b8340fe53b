/-
`exec` of a parent, in any interleaving with its children.

A child tells its parent how its load went over two channels: the flag
`child_load_failed` of the parent, which `process_execute` reads once `thread_create`
has returned and which keeps its value from one `exec` to the next, and the semaphore
`parent_child_sync` of the child, which is only upped after a good load and which
`exec` downs after it has looked the child up on `children_thread_list`. Every write of
a child and every test of the parent is a step of its own here. `load` is any number of
steps of nothing, and then success or failure.
-/
import Pintos.Userprog.Wait

set_option autoImplicit false

namespace Pintos.Userprog.Exec

open StepSystem Walk

/-! ## Data -/

/-- How far a child is in `start_process` and after it. -/
inductive Stage
  | absent
  | loading
  /-- `load` returned true. -/
  | loaded
  /-- `child_load_failed = false` is written, the semaphore not yet up. -/
  | cleared
  | started
  /-- `load` returned false. -/
  | failed
  /-- `child_load_failed = true` is written. -/
  | flagged
  /-- After `thread_exit`: off the list, the page released. -/
  | gone
  deriving DecidableEq

/-- Where the parent stands in `exec`. A missing tid is `TID_ERROR`. -/
inductive Position
  | outside
  /-- In `process_execute`, before the test of the flag. -/
  | created (tid : Option Tid)
  /-- `process_execute` has returned. -/
  | returned (tid : Option Tid)
  /-- In the loop, at `e`. -/
  | searching (tid : Option Tid) (e : Tid)
  /-- Before `sema_down`. -/
  | syncing (tid : Option Tid) (child : Tid)
  | asleep (tid : Option Tid) (child : Tid)
  /-- Woken, about to test the value again. -/
  | woken (tid : Option Tid) (child : Tid)
  | crashed (f : Fault)
  deriving DecidableEq

/-- A call that has returned: the thread it created, and what it returned. -/
structure Answer where
  created : Option Tid
  pid : Option Tid
  deriving DecidableEq

/-- A parent and its children. `load_result`, `created` and `answers` are history: what
`load` returned, the thread of the current call, and the calls that have returned. Of
`child_info_list` only the tids matter here. -/
structure State where
  children_thread_list : List Tid
  child_info_list : List Tid
  child_load_failed : Bool
  parent_child_sync : Tid → ℕ
  stage : Tid → Stage
  position : Position
  load_result : Tid → Option Bool
  created : Option Tid
  answers : List Answer

/-! ## `process_execute` -/

/-- `thread_create`. -/
def thread_create (s : State) : Option Tid → State
  | none => { s with position := .created none, created := none }
  | some c =>
    { s with
      children_thread_list := s.children_thread_list ++ [c]
      child_info_list := s.child_info_list ++ [c]
      parent_child_sync := Function.update s.parent_child_sync c 0
      stage := Function.update s.stage c .loading
      position := .created (some c)
      created := some c }

/-- The element with `tid`, or else the last one. -/
def find_or_last (l : List Tid) (tid : Option Tid) : Option Tid :=
  match l.find? (fun t => some t = tid) with
  | some t => some t
  | none => l.getLast?

/-- What `process_execute` does after a failed load. The page of `temp` is released while
its thread, which is still on the list, has not left. -/
def drop_child (s : State) (tid : Option Tid) : State :=
  match find_or_last s.children_thread_list tid with
  | some _ => { s with position := .crashed .dangling }
  | none =>
    { s with
      child_info_list := (find_or_last s.child_info_list tid).elim s.child_info_list
        s.child_info_list.erase
      position := .returned none }

/-- The rest of `process_execute`. -/
def process_execute_check (s : State) (tid : Option Tid) : State :=
  if s.child_load_failed then drop_child s tid else { s with position := .returned tid }

/-! ## `exec` -/

/-- `return pid`. -/
def State.answer (s : State) (pid : Option Tid) : State :=
  { s with position := .outside, answers := ⟨s.created, pid⟩ :: s.answers }

def exec_begin (s : State) (tid : Option Tid) : State :=
  match s.children_thread_list with
  | [] => s.answer tid
  | e :: _ => { s with position := .searching tid e }

/-- One iteration of the loop. `child` is only assigned if the tid is found. -/
def exec_search (s : State) (tid : Option Tid) (e : Tid) : State :=
  if s.stage e = .gone then { s with position := .crashed .dangling }
  else if some e = tid then { s with position := .syncing tid e }
  else
    match list_next s.children_thread_list e with
    | some e' => { s with position := .searching tid e' }
    | none => { s with position := .crashed .uninitialised }

/-- The test of `sema_down (&child->parent_child_sync)`. -/
def exec_down (s : State) (tid : Option Tid) (child : Tid) : State :=
  if s.stage child = .gone then { s with position := .crashed .dangling }
  else if s.parent_child_sync child = 0 then { s with position := .asleep tid child }
  else
    State.answer
      { s with
        parent_child_sync := Function.update s.parent_child_sync child
          (s.parent_child_sync child - 1) } tid

/-! ## `start_process` -/

/-- `load` returns. -/
def load_return (s : State) (c : Tid) (success : Bool) : State :=
  { s with
    stage := Function.update s.stage c (if success then .loaded else .failed)
    load_result := Function.update s.load_result c (some success) }

/-- The write of `child_load_failed`. -/
def write_flag (s : State) (c : Tid) (failed : Bool) : State :=
  { s with
    child_load_failed := failed
    stage := Function.update s.stage c (if failed then .flagged else .cleared) }

/-- A parent that sleeps on the semaphore of `c` is woken. -/
def Position.after_up (c : Tid) : Position → Position
  | .asleep tid child => if child = c then .woken tid c else .asleep tid child
  | p => p

/-- `sema_up (&thread_current ()->parent_child_sync)`. -/
def sync_up (s : State) (c : Tid) : State :=
  { s with
    parent_child_sync := Function.update s.parent_child_sync c (s.parent_child_sync c + 1)
    stage := Function.update s.stage c .started
    position := s.position.after_up c }

/-- `thread_exit`. -/
def child_gone (s : State) (c : Tid) : State :=
  { s with
    children_thread_list := s.children_thread_list.erase c
    stage := Function.update s.stage c .gone }

/-! ## Runs -/

inductive Event
  /-- `exec`, without a page for the copy of the file name. -/
  | exec_no_page
  /-- `exec`, up to the return of `thread_create`. -/
  | exec (tid : Option Tid)
  /-- The next step of the parent in `exec`. -/
  | go
  | load (c : Tid) (success : Bool)
  | flag (c : Tid)
  | up (c : Tid)
  | leave (c : Tid)

/-- The next step of the parent, if it is not asleep. -/
def exec_go (s : State) : Option State :=
  match s.position with
  | .created tid => some (process_execute_check s tid)
  | .returned tid => some (exec_begin s tid)
  | .searching tid e => some (exec_search s tid e)
  | .syncing tid child => some (exec_down s tid child)
  | .woken tid child => some (exec_down s tid child)
  | _ => none

def step (s : State) : Event → State → Prop
  | .exec_no_page, s' =>
    s.position = .outside ∧ s' = { s with position := .returned none, created := none }
  | .exec tid, s' =>
    s.position = .outside ∧ (∀ c, tid = some c → s.stage c = .absent) ∧ s' = thread_create s tid
  | .go, s' => exec_go s = some s'
  | .load c success, s' => s.stage c = .loading ∧ s' = load_return s c success
  | .flag c, s' =>
    (s.stage c = .loaded ∧ s' = write_flag s c false) ∨
      (s.stage c = .failed ∧ s' = write_flag s c true)
  | .up c, s' => s.stage c = .cleared ∧ s' = sync_up s c
  | .leave c, s' => (s.stage c = .started ∨ s.stage c = .flagged) ∧ s' = child_gone s c

/-- A process without children. -/
def exec_system : System State Event where
  init s := s = ⟨[], [], false, fun _ => 0, fun _ => .absent, .outside, fun _ => none, none, []⟩
  step := step

/-! ## The hand-shake -/

/-- `n` steps of the parent alone. -/
def exec_alone : ℕ → State → Option State
  | 0, s => some s
  | n + 1, s => (exec_go s).bind (exec_alone n)

/-- The parent left to itself returns from its call or falls asleep. -/
def Ends (s : State) : Prop :=
  ∃ n s', exec_alone n s = some s' ∧
    (s'.position = .outside ∨ ∃ tid c, s'.position = .asleep tid c)

/-- The contract. No call crashes, and once it has begun to look for the child, the parent
left to itself returns or falls asleep; a call returned a tid exactly if that is the thread
it created and the load of it was good; and the parent never sleeps on the semaphore of a
child that is gone. -/
structure ExecContract (s : State) : Prop where
  no_crash : ∀ f, s.position ≠ .crashed f
  ends : (∀ tid, s.position ≠ .created tid ∧ s.position ≠ .returned tid) → Ends s
  answers : ∀ a ∈ s.answers, ∀ c,
    a.pid = some c ↔ a.created = some c ∧ s.load_result c = some true
  not_lost : ∀ tid c, s.position = .asleep tid c → s.stage c ≠ .gone

/-- The condition on the steps of a run.
* When `process_execute` tests the flag, it is down or the parent has no children left.
* When `exec` begins to look the child up, it is on the list or the list is empty.
* A failed load is reported before `process_execute` tests the flag.
* A child does not leave while the parent stands at it in the loop, looks for it, or is
  about to test its semaphore. -/
def ExecOk (s : State) : Event → Prop
  | .go =>
    match s.position with
    | .created _ => s.child_load_failed = true → s.children_thread_list = []
    | .returned tid => s.children_thread_list = [] ∨ ∃ c ∈ s.children_thread_list, tid = some c
    | _ => True
  | .flag c => s.stage c = .failed → s.position = .created (some c)
  | .leave c =>
    match s.position with
    | .searching tid e => tid ≠ some c ∧ c ≠ e
    | .syncing _ child => c ≠ child
    | .woken _ child => c ≠ child
    | _ => True
  | _ => True

/-! ## The invariant -/

/-- Neither reported failure, nor left after one. -/
def Hopeful (s : State) (c : Tid) : Prop :=
  s.stage c ≠ .flagged ∧ (s.stage c = .gone → s.load_result c = some true)

/-- What the position says. -/
def PositionOk (s : State) : Prop :=
  match s.position with
  | .outside => True
  | .created tid => s.created = tid ∧ ∀ c, tid = some c → s.stage c ≠ .absent ∧
      (s.stage c ≠ .loading → s.stage c ≠ .loaded → s.stage c ≠ .failed →
        (s.child_load_failed = true ↔ s.load_result c = some false))
  | .returned (some c) => s.created = some c ∧ s.stage c ≠ .absent ∧ Hopeful s c
  | .returned none => ∀ c, s.created = some c → s.stage c = .gone ∧ s.load_result c = some false
  | .searching tid e => ∃ c, tid = some c ∧ s.created = tid ∧ Hopeful s c ∧
      Ahead s.children_thread_list e c
  | .syncing tid c => tid = some c ∧ s.created = tid ∧ Hopeful s c ∧ c ∈ s.children_thread_list
  | .asleep tid c => tid = some c ∧ s.created = tid ∧ Hopeful s c ∧
      c ∈ s.children_thread_list ∧ s.stage c ≠ .started
  | .woken tid c => tid = some c ∧ s.created = tid ∧ s.stage c = .started
  | .crashed _ => False

/-- The child a call is still concerned with. -/
def Position.child : Position → Option Tid
  | .created tid | .returned tid | .searching tid _ | .syncing tid _ | .asleep tid _
  | .woken tid _ => tid
  | _ => none

/-- What the stage of a child says. The semaphore of one that has started is up until the
call that created it returns. -/
def StageOk (s : State) (c : Tid) : Prop :=
  match s.stage c with
  | .absent => s.load_result c = none
  | .loading => s.load_result c = none ∧ s.parent_child_sync c = 0
  | .loaded | .cleared => s.load_result c = some true ∧ s.parent_child_sync c = 0
  | .started => s.load_result c = some true ∧
      (s.position.child = some c → s.parent_child_sync c ≠ 0)
  | .failed | .flagged => s.load_result c = some false ∧ s.parent_child_sync c = 0
  | .gone => s.load_result c ≠ none

structure ExecInv (s : State) : Prop where
  listed : ∀ c, c ∈ s.children_thread_list ↔ (s.stage c ≠ .absent ∧ s.stage c ≠ .gone)
  nodup : s.children_thread_list.Nodup
  stages : ∀ c, StageOk s c
  /-- A child that has not come to an end of the hand-shake is the current call's. -/
  busy : ∀ c, s.stage c ≠ .absent → s.stage c ≠ .started → s.stage c ≠ .gone →
    s.position.child = some c
  settled : ∀ a ∈ s.answers, ∀ c, a.created = some c →
    (s.stage c = .started ∨ s.stage c = .gone)
  answers : ∀ a ∈ s.answers, ∀ c,
    a.pid = some c ↔ a.created = some c ∧ s.load_result c = some true
  position : PositionOk s

theorem ExecInv.init {s : State} (h : exec_system.init s) : ExecInv s := by
  obtain rfl := h
  constructor <;> simp [PositionOk, StageOk]

theorem StageOk.congr {s s' : State} {c : Tid} (h : StageOk s c)
    (hstage : s'.stage c = s.stage c) (hresult : s'.load_result c = s.load_result c)
    (hsync : s'.parent_child_sync c = s.parent_child_sync c)
    (hchild : s'.position.child = some c → s.position.child = some c) : StageOk s' c := by
  unfold StageOk at h ⊢
  rw [hstage, hresult, hsync]
  cases hs : s.stage c with
  | started =>
    rw [hs] at h
    exact ⟨h.1, fun hc => h.2 (hchild hc)⟩
  | _ =>
    rw [hs] at h
    exact h

theorem StageOk.of_started {s : State} {c : Tid} (hc : s.stage c = .started)
    (h : s.load_result c = some true ∧
      (s.position.child = some c → s.parent_child_sync c ≠ 0)) : StageOk s c := by
  unfold StageOk
  rw [hc]
  exact h

theorem ExecInv.started {s : State} (h : ExecInv s) {c : Tid} (hc : s.stage c = .started) :
    s.load_result c = some true ∧ (s.position.child = some c → s.parent_child_sync c ≠ 0) := by
  have hstage := h.stages c
  unfold StageOk at hstage
  rw [hc] at hstage
  exact hstage

theorem ExecInv.flagged {s : State} (h : ExecInv s) {c : Tid} (hc : s.stage c = .flagged) :
    s.load_result c = some false := by
  have hstage := h.stages c
  unfold StageOk at hstage
  rw [hc] at hstage
  exact hstage.1

theorem ExecInv.gone {s : State} (h : ExecInv s) {c : Tid} (hc : s.stage c = .gone) :
    s.load_result c = some true ∨ s.load_result c = some false := by
  have hstage := h.stages c
  unfold StageOk at hstage
  rw [hc] at hstage
  cases hres : s.load_result c with
  | none => exact absurd hres hstage
  | some b => cases b <;> simp

/-- A semaphore that is up is that of a child that has started. -/
theorem ExecInv.sync {s : State} (h : ExecInv s) {c : Tid}
    (hmem : c ∈ s.children_thread_list) (hsync : s.parent_child_sync c ≠ 0) :
    s.stage c = .started := by
  obtain ⟨habsent, hgone⟩ := (h.listed c).mp hmem
  have hstage := h.stages c
  unfold StageOk at hstage
  cases hs : s.stage c with
  | absent => exact absurd hs habsent
  | started => rfl
  | gone => exact absurd hs hgone
  | _ =>
    rw [hs] at hstage
    exact absurd hstage.2 hsync

/-! ## The steps of the parent -/

theorem ExecInv.stage_ne_gone {s : State} (h : ExecInv s) {c : Tid}
    (hmem : c ∈ s.children_thread_list) : s.stage c ≠ .gone :=
  ((h.listed c).mp hmem).2

/-- Only the position changes, within one call. -/
theorem ExecInv.move {s : State} (h : ExecInv s) {p : Position}
    (hchild : p.child = s.position.child) (hpos : PositionOk { s with position := p }) :
    ExecInv { s with position := p } :=
  ⟨h.listed, h.nodup, fun c => (h.stages c).congr rfl rfl rfl hchild.symm.trans,
    fun c ha hs hg => hchild.trans (h.busy c ha hs hg), h.settled, h.answers, hpos⟩

/-- Returning from a call. -/
theorem ExecInv.answer {s : State} (h : ExecInv s) {pid : Option Tid}
    (hend : ∀ c, s.created = some c → s.stage c = .started ∨ s.stage c = .gone)
    (hchild : ∀ c, s.position.child = some c → s.stage c = .started ∨ s.stage c = .gone)
    (hpid : ∀ c, pid = some c ↔ s.created = some c ∧ s.load_result c = some true) :
    ExecInv (s.answer pid) := by
  refine ⟨h.listed, h.nodup, fun c => (h.stages c).congr rfl rfl rfl (by rintro ⟨⟩),
    fun c ha hs hg => ?_, ?_, ?_, trivial⟩
  · -- nobody is left in the middle of the hand-shake
    rcases hchild c (h.busy c ha hs hg) with hstage | hstage
    · exact absurd hstage hs
    · exact absurd hstage hg
  · intro a ha c hc
    rcases List.mem_cons.mp ha with rfl | ha
    · exact hend c hc
    · exact h.settled a ha c hc
  · intro a ha
    rcases List.mem_cons.mp ha with rfl | ha
    · exact hpid
    · exact h.answers a ha

theorem ExecInv.exec_no_page {s : State} (h : ExecInv s) (hp : s.position = .outside) :
    ExecInv { s with position := .returned none, created := none } := by
  refine ⟨h.listed, h.nodup, fun c => (h.stages c).congr rfl rfl rfl (by rintro ⟨⟩),
    fun c ha hs hg => ?_, h.settled, h.answers, fun c hc => ?_⟩
  · have hbusy := h.busy c ha hs hg
    rw [hp] at hbusy
    cases hbusy
  · cases hc

/-- A listed child, or the only state in which none is in the middle of the hand-shake. -/
theorem ExecInv.over_of_nil {s : State} (h : ExecInv s) (hl : s.children_thread_list = [])
    {c : Tid} (hc : s.stage c ≠ .absent) : s.stage c = .gone := by
  by_contra hg
  have hmem := (h.listed c).mpr ⟨hc, hg⟩
  rw [hl] at hmem
  cases hmem

theorem process_execute_check_flag {s : State} {tid : Option Tid}
    (hf : s.child_load_failed = true) (hl : s.children_thread_list = []) :
    process_execute_check s tid =
      { s with
        child_info_list := (find_or_last s.child_info_list tid).elim s.child_info_list
          s.child_info_list.erase
        position := .returned none } := by
  unfold process_execute_check drop_child
  rw [if_pos hf, hl]
  rfl

theorem ExecInv.check {s : State} (h : ExecInv s) {tid : Option Tid}
    (hp : s.position = .created tid)
    (hok : s.child_load_failed = true → s.children_thread_list = []) :
    ExecInv (process_execute_check s tid) := by
  have hpos := h.position
  unfold PositionOk at hpos
  rw [hp] at hpos
  obtain ⟨hcreated, hchild⟩ := hpos
  by_cases hf : s.child_load_failed = true
  · have hl := hok hf
    rw [process_execute_check_flag hf hl]
    refine ⟨h.listed, h.nodup, fun c => (h.stages c).congr rfl rfl rfl (by rintro ⟨⟩),
      fun c ha hs hg => ?_, h.settled, h.answers, fun c hc => ?_⟩
    · exact absurd (h.over_of_nil hl ha) hg
    · -- the child is gone, so the flag is what it reported
      obtain ⟨habsent, hflag⟩ := hchild c (hcreated.symm.trans hc)
      have hgone := h.over_of_nil hl habsent
      refine ⟨hgone, (hflag ?_ ?_ ?_).mp hf⟩ <;> rw [hgone] <;> decide
  · unfold process_execute_check
    rw [if_neg hf]
    apply h.move
    · rw [hp]
      rfl
    · cases tid with
      | none =>
        intro c hc
        rw [show s.created = none from hcreated] at hc
        cases hc
      | some c =>
        obtain ⟨habsent, hflag⟩ := hchild c rfl
        refine ⟨hcreated, habsent, fun hflagged => hf ?_, fun hgone => ?_⟩
        · apply (hflag _ _ _).mpr (h.flagged hflagged) <;> rw [hflagged] <;> decide
        · have hnot : s.load_result c ≠ some false := by
            refine fun hbad => hf ((hflag ?_ ?_ ?_).mpr hbad) <;> rw [hgone] <;> decide
          exact (h.gone hgone).resolve_right hnot

theorem exec_begin_cons {s : State} {tid : Option Tid} {e : Tid} {l : List Tid}
    (hl : s.children_thread_list = e :: l) :
    exec_begin s tid = { s with position := .searching tid e } := by
  unfold exec_begin
  rw [hl]

theorem exec_begin_nil {s : State} {tid : Option Tid} (hl : s.children_thread_list = []) :
    exec_begin s tid = s.answer tid := by
  unfold exec_begin
  rw [hl]

theorem ExecInv.begin_nil {s : State} (h : ExecInv s) {tid : Option Tid}
    (hp : s.position = .returned tid) (hl : s.children_thread_list = []) :
    ExecInv (exec_begin s tid) := by
  have hpos := h.position
  unfold PositionOk at hpos
  rw [hp] at hpos
  rw [exec_begin_nil hl]
  cases tid with
  | none =>
    apply h.answer
    · exact fun c hc => Or.inr (hpos c hc).1
    · intro c hc
      rw [hp] at hc
      cases hc
    · intro c
      refine ⟨fun hc => (by cases hc), fun ⟨hc, hgood⟩ => ?_⟩
      rw [(hpos c hc).2] at hgood
      cases hgood
  | some c =>
    obtain ⟨hcreated, habsent, hhope⟩ := hpos
    have hgone := h.over_of_nil hl habsent
    apply h.answer
    · intro d hd
      rw [hcreated] at hd
      obtain rfl := Option.some.inj hd
      exact Or.inr hgone
    · intro d hd
      rw [hp] at hd
      obtain rfl := Option.some.inj hd
      exact Or.inr hgone
    · intro d
      rw [hcreated]
      refine ⟨fun hd => ⟨hd, ?_⟩, And.left⟩
      obtain rfl := Option.some.inj hd
      exact hhope.2 hgone

theorem ExecInv.begin_found {s : State} (h : ExecInv s) {c : Tid}
    (hp : s.position = .returned (some c)) (hmem : c ∈ s.children_thread_list) :
    ExecInv (exec_begin s (some c)) := by
  have hpos := h.position
  unfold PositionOk at hpos
  rw [hp] at hpos
  obtain ⟨hcreated, -, hhope⟩ := hpos
  obtain ⟨e, l, hl⟩ := List.exists_cons_of_ne_nil (List.ne_nil_of_mem hmem)
  rw [exec_begin_cons hl]
  rw [hl] at hmem
  apply h.move
  · rw [hp]
    rfl
  · exact ⟨c, rfl, hcreated, hhope, hl ▸ Ahead.head hmem⟩

theorem ExecInv.search_at {s : State} (h : ExecInv s) {c : Tid}
    (hmem : c ∈ s.children_thread_list) :
    exec_search s (some c) c = { s with position := .syncing (some c) c } := by
  unfold exec_search
  rw [if_neg (h.stage_ne_gone hmem), if_pos rfl]

theorem ExecInv.search_before {s : State} (h : ExecInv s) {c e e' : Tid}
    (hmem : e ∈ s.children_thread_list) (hec : e ≠ c)
    (hnext : list_next s.children_thread_list e = some e') :
    exec_search s (some c) e = { s with position := .searching (some c) e' } := by
  unfold exec_search
  rw [if_neg (h.stage_ne_gone hmem), if_neg (fun hsome => hec (Option.some.inj hsome)), hnext]

theorem ExecInv.search {s : State} (h : ExecInv s) {tid : Option Tid} {e : Tid}
    (hp : s.position = .searching tid e) : ExecInv (exec_search s tid e) := by
  have hpos := h.position
  unfold PositionOk at hpos
  rw [hp] at hpos
  obtain ⟨c, rfl, hcreated, hhope, hahead⟩ := hpos
  by_cases hec : e = c
  · rw [hec, h.search_at hahead.mem]
    apply h.move
    · rw [hp]
      rfl
    · exact ⟨rfl, hcreated, hhope, hahead.mem⟩
  · obtain ⟨e', hnext, hahead'⟩ := hahead.advance h.nodup hec
    rw [h.search_before hahead.at_mem hec hnext]
    apply h.move
    · rw [hp]
      rfl
    · exact ⟨c, rfl, hcreated, hhope, hahead'⟩

/-- The semaphore is up: `exec` returns the child. -/
theorem ExecInv.down_pass {s : State} (h : ExecInv s) {c : Tid}
    (hchild : s.position.child = some c) (hcreated : s.created = some c)
    (hstarted : s.stage c = .started) : ExecInv (exec_down s (some c) c) := by
  have hsync := (h.started hstarted).2 hchild
  have hanswer : ExecInv (s.answer (some c)) := by
    apply h.answer
    · intro d hd
      rw [hcreated] at hd
      obtain rfl := Option.some.inj hd
      exact Or.inl hstarted
    · intro d hd
      rw [hchild] at hd
      obtain rfl := Option.some.inj hd
      exact Or.inl hstarted
    · intro d
      rw [hcreated]
      refine ⟨fun hd => ⟨hd, ?_⟩, And.left⟩
      obtain rfl := Option.some.inj hd
      exact (h.started hstarted).1
  unfold exec_down
  rw [if_neg (by rw [hstarted]; decide), if_neg hsync]
  refine ⟨h.listed, h.nodup, fun d => ?_, hanswer.busy, hanswer.settled, hanswer.answers, trivial⟩
  by_cases hdc : d = c
  · -- only the value of the semaphore changes, and no call is left that waits for it
    rw [hdc]
    exact StageOk.of_started hstarted ⟨(h.started hstarted).1, by rintro ⟨⟩⟩
  · exact (h.stages d).congr rfl rfl (Function.update_of_ne hdc _ _) (by rintro ⟨⟩)

theorem ExecInv.down {s : State} (h : ExecInv s) {tid : Option Tid} {c : Tid}
    (hp : s.position = .syncing tid c) : ExecInv (exec_down s tid c) := by
  have hpos := h.position
  unfold PositionOk at hpos
  rw [hp] at hpos
  obtain ⟨rfl, hcreated, hhope, hmem⟩ := hpos
  have hgone := h.stage_ne_gone hmem
  by_cases hsync : s.parent_child_sync c = 0
  · unfold exec_down
    rw [if_neg hgone, if_pos hsync]
    apply h.move
    · rw [hp]
      rfl
    · exact ⟨rfl, hcreated, hhope, hmem, fun hstarted =>
        (h.started hstarted).2 (by rw [hp]; rfl) hsync⟩
  · have hstarted := h.sync hmem hsync
    exact h.down_pass (by rw [hp]; rfl) hcreated hstarted

theorem ExecInv.down_again {s : State} (h : ExecInv s) {tid : Option Tid} {c : Tid}
    (hp : s.position = .woken tid c) : ExecInv (exec_down s tid c) := by
  have hpos := h.position
  unfold PositionOk at hpos
  rw [hp] at hpos
  obtain ⟨rfl, hcreated, hstarted⟩ := hpos
  exact h.down_pass (by rw [hp]; rfl) hcreated hstarted

theorem ExecInv.go {s s' : State} (h : ExecInv s) (hok : ExecOk s .go)
    (hs : exec_go s = some s') : ExecInv s' := by
  unfold exec_go at hs
  unfold ExecOk at hok
  cases hp : s.position with
  | created tid =>
    rw [hp] at hs hok
    obtain rfl := Option.some.inj hs
    exact h.check hp hok
  | returned tid =>
    rw [hp] at hs hok
    obtain rfl := Option.some.inj hs
    rcases hok with hl | ⟨c, hmem, rfl⟩
    · exact h.begin_nil hp hl
    · exact h.begin_found hp hmem
  | searching tid e =>
    rw [hp] at hs
    obtain rfl := Option.some.inj hs
    exact h.search hp
  | syncing tid c =>
    rw [hp] at hs
    obtain rfl := Option.some.inj hs
    exact h.down hp
  | woken tid c =>
    rw [hp] at hs
    obtain rfl := Option.some.inj hs
    exact h.down_again hp
  | _ =>
    rw [hp] at hs
    cases hs

/-! ## The steps of the children -/

theorem ExecInv.thread_create {s : State} (h : ExecInv s) {tid : Option Tid}
    (hp : s.position = .outside) (hnew : ∀ c, tid = some c → s.stage c = .absent) :
    ExecInv (thread_create s tid) := by
  -- no child is in the middle of the hand-shake
  have hidle : ∀ c, s.stage c ≠ .absent → s.stage c = .started ∨ s.stage c = .gone := by
    intro c ha
    by_contra hnot
    have hbusy := h.busy c ha (fun hs => hnot (Or.inl hs)) (fun hg => hnot (Or.inr hg))
    rw [hp] at hbusy
    cases hbusy
  cases tid with
  | none =>
    refine ⟨h.listed, h.nodup, fun c => (h.stages c).congr rfl rfl rfl (by rintro ⟨⟩),
      fun c ha hs hg => ?_, h.settled, h.answers, rfl, fun c hc => by cases hc⟩
    rcases hidle c ha with hstage | hstage
    · exact absurd hstage hs
    · exact absurd hstage hg
  | some c =>
    have hc := hnew c rfl
    have hstage : ∀ d, (Exec.thread_create s (some c)).stage d =
        if d = c then .loading else s.stage d := fun d => Function.update_apply _ _ _ d
    have hresult := h.stages c
    unfold StageOk at hresult
    rw [hc] at hresult
    constructor
    · intro d
      show d ∈ s.children_thread_list ++ [c] ↔ _
      rw [List.mem_append, List.mem_singleton, hstage]
      by_cases hd : d = c
      · rw [if_pos hd]
        simp [hd]
      · rw [if_neg hd, h.listed d]
        simp [hd]
    · refine List.nodup_append.mpr ⟨h.nodup, List.nodup_singleton c, ?_⟩
      rintro x hx y hy rfl
      rw [List.mem_singleton.mp hy] at hx
      exact ((h.listed c).mp hx).1 hc
    · intro d
      by_cases hd : d = c
      · unfold StageOk
        rw [hstage, if_pos hd, hd]
        exact ⟨hresult, Function.update_self c _ _⟩
      · refine (h.stages d).congr ?_ rfl (Function.update_of_ne hd _ _) fun hchild => ?_
        · rw [hstage, if_neg hd]
        · exact absurd (Option.some.inj hchild).symm hd
    · intro d ha hs hg
      rw [hstage] at ha hs hg
      split_ifs at ha hs hg with hd
      · rw [hd]
        rfl
      · rcases hidle d ha with hstage' | hstage'
        · exact absurd hstage' hs
        · exact absurd hstage' hg
    · intro a ha d hd
      have hold := h.settled a ha d hd
      rw [hstage]
      split_ifs with hdc
      · rw [hdc, hc] at hold
        simp at hold
      · exact hold
    · exact h.answers
    · refine ⟨rfl, fun d hd => ?_⟩
      obtain rfl := Option.some.inj hd
      rw [hstage, if_pos rfl]
      exact ⟨by decide, fun hl => absurd rfl hl⟩

/-- A child goes from one stage to another: what has to be seen is the new stage, and that
the position of the parent still fits. -/
theorem ExecInv.child_step {s s' : State} (h : ExecInv s) {c : Tid} {y : Stage}
    (hc : c ∈ s.children_thread_list) (hy : y ≠ .absent)
    (hstage : s'.stage = Function.update s.stage c y)
    (hlist : s'.children_thread_list =
      if y = Stage.gone then s.children_thread_list.erase c else s.children_thread_list)
    (hresult : ∀ d, d ≠ c → s'.load_result d = s.load_result d)
    (hsync : ∀ d, d ≠ c → s'.parent_child_sync d = s.parent_child_sync d)
    (hanswers : s'.answers = s.answers) (hchild : s'.position.child = s.position.child)
    (hok : StageOk s' c) (hbusy : y = .started ∨ y = .gone ∨ s.position.child = some c)
    (hend : s.stage c = .started → y = .gone ∧ s'.load_result c = s.load_result c)
    (hpos : PositionOk s') : ExecInv s' := by
  have hstage' : ∀ d, s'.stage d = if d = c then y else s.stage d := by
    intro d
    rw [hstage, Function.update_apply]
  obtain ⟨habsent, hgone⟩ := (h.listed c).mp hc
  -- a call that has returned was for another child, or for one that now leaves
  have hsettled : ∀ a ∈ s.answers, a.created = some c →
      y = .gone ∧ s'.load_result c = s.load_result c := by
    intro a ha hac
    exact hend ((h.settled a ha c hac).resolve_right hgone)
  constructor
  · intro d
    rw [hlist, hstage']
    by_cases hyg : y = .gone
    · rw [if_pos hyg, h.nodup.mem_erase_iff, h.listed d]
      split_ifs with hd
      · simp [hd, hyg]
      · simp [hd]
    · rw [if_neg hyg, h.listed d]
      split_ifs with hd
      · simp [hd, hyg, hy, habsent, hgone]
      · rfl
  · rw [hlist]
    split_ifs
    · exact h.nodup.erase c
    · exact h.nodup
  · intro d
    by_cases hd : d = c
    · rw [hd]
      exact hok
    · refine (h.stages d).congr ?_ (hresult d hd) (hsync d hd) fun hdc => hchild ▸ hdc
      rw [hstage', if_neg hd]
  · intro d ha hs hg
    rw [hchild]
    rw [hstage'] at ha hs hg
    split_ifs at ha hs hg with hd
    · rw [hd]
      exact (hbusy.resolve_left hs).resolve_left hg
    · exact h.busy d ha hs hg
  · rw [hanswers]
    intro a ha d hd
    rw [hstage']
    split_ifs with hdc
    · exact Or.inr (hsettled a ha (hdc ▸ hd)).1
    · exact h.settled a ha d hd
  · rw [hanswers]
    intro a ha d
    rw [h.answers a ha d]
    refine and_congr_right fun hd => ?_
    by_cases hdc : d = c
    · rw [hdc, (hsettled a ha (hdc ▸ hd)).2]
    · rw [hresult d hdc]
  · exact hpos

/-- The child of the current call gets on, short of failing. -/
theorem PositionOk.onward {s s' : State} {c : Tid} {y : Stage} (h : PositionOk s)
    (hcurrent : s.position.child = some c) (hposition : s'.position = s.position)
    (hcreated : s'.created = s.created)
    (hlist : s'.children_thread_list = s.children_thread_list) (hstage : s'.stage c = y)
    (hy : y ≠ .absent ∧ y ≠ .flagged ∧ y ≠ .gone) (hold : s.stage c ≠ .started)
    (hstarted : y = .started → ∀ tid d, s.position ≠ .asleep tid d)
    (hflag : s.position = .created (some c) → y ≠ .loading → y ≠ .loaded → y ≠ .failed →
      (s'.child_load_failed = true ↔ s'.load_result c = some false)) :
    PositionOk s' := by
  obtain ⟨habsent, hflagged, hgone⟩ := hy
  rw [← hstage] at habsent hflagged hgone hstarted hflag
  have hhope : Hopeful s' c := ⟨hflagged, fun hg => absurd hg hgone⟩
  unfold PositionOk at h ⊢
  rw [hposition, hcreated, hlist]
  cases hp : s.position with
  | outside => trivial
  | created tid =>
    rw [hp] at h hcurrent
    obtain rfl : tid = some c := hcurrent
    refine ⟨h.1, fun d hd => ?_⟩
    obtain rfl := Option.some.inj hd
    exact ⟨habsent, hflag hp⟩
  | returned tid =>
    rw [hp] at h hcurrent
    obtain rfl : tid = some c := hcurrent
    exact ⟨h.1, habsent, hhope⟩
  | searching tid e =>
    rw [hp] at h hcurrent
    obtain rfl : tid = some c := hcurrent
    obtain ⟨d, hd, hcr, -, hahead⟩ := h
    obtain rfl := Option.some.inj hd
    exact ⟨c, rfl, hcr, hhope, hahead⟩
  | syncing tid d =>
    rw [hp] at h hcurrent
    obtain rfl : tid = some c := hcurrent
    obtain ⟨hd, hcr, -, hmem⟩ := h
    obtain rfl := Option.some.inj hd
    exact ⟨rfl, hcr, hhope, hmem⟩
  | asleep tid d =>
    rw [hp] at h hcurrent
    obtain rfl : tid = some c := hcurrent
    obtain ⟨hd, hcr, -, hmem, -⟩ := h
    obtain rfl := Option.some.inj hd
    exact ⟨rfl, hcr, hhope, hmem, fun hs => hstarted hs _ _ hp⟩
  | woken tid d =>
    rw [hp] at h hcurrent
    obtain rfl : tid = some c := hcurrent
    obtain ⟨hd, -, hs⟩ := h
    obtain rfl := Option.some.inj hd
    exact absurd hs hold
  | crashed f =>
    rw [hp] at h
    exact h

/-- A child in the middle of the hand-shake is listed, and the current call's. -/
theorem ExecInv.middle {s : State} (h : ExecInv s) {c : Tid} {x : Stage} (hc : s.stage c = x)
    (ha : x ≠ .absent) (hs : x ≠ .started) (hg : x ≠ .gone) :
    c ∈ s.children_thread_list ∧ s.position.child = some c :=
  ⟨(h.listed c).mpr ⟨hc ▸ ha, hc ▸ hg⟩, h.busy c (hc ▸ ha) (hc ▸ hs) (hc ▸ hg)⟩

theorem ExecInv.load_return {s : State} (h : ExecInv s) {c : Tid} {success : Bool}
    (hc : s.stage c = .loading) : ExecInv (load_return s c success) := by
  obtain ⟨hmem, hcurrent⟩ := h.middle hc (by decide) (by decide) (by decide)
  have hsync : s.parent_child_sync c = 0 := by
    have hold := h.stages c
    unfold StageOk at hold
    rw [hc] at hold
    exact hold.2
  have hnot : s.stage c ≠ .started := by
    rw [hc]
    decide
  have hresult : ∀ b, (Exec.load_return s c b).load_result c = some b :=
    fun b => Function.update_self c _ _
  have hother : ∀ b d, d ≠ c → (Exec.load_return s c b).load_result d = s.load_result d :=
    fun b d hd => Function.update_of_ne hd _ _
  cases success with
  | true =>
    have hstage : (Exec.load_return s c true).stage c = .loaded := Function.update_self c _ _
    refine h.child_step hmem (by decide) rfl rfl (hother true) (fun _ _ => rfl) rfl rfl ?_
      (Or.inr (Or.inr hcurrent)) (fun hs => absurd hs hnot) ?_
    · unfold StageOk
      rw [hstage]
      exact ⟨hresult true, hsync⟩
    · refine h.position.onward hcurrent rfl rfl rfl hstage (by decide) hnot (by rintro ⟨⟩) ?_
      exact fun _ _ hloaded => absurd rfl hloaded
  | false =>
    have hstage : (Exec.load_return s c false).stage c = .failed := Function.update_self c _ _
    refine h.child_step hmem (by decide) rfl rfl (hother false) (fun _ _ => rfl) rfl rfl ?_
      (Or.inr (Or.inr hcurrent)) (fun hs => absurd hs hnot) ?_
    · unfold StageOk
      rw [hstage]
      exact ⟨hresult false, hsync⟩
    · refine h.position.onward hcurrent rfl rfl rfl hstage (by decide) hnot (by rintro ⟨⟩) ?_
      exact fun _ _ _ hfailed => absurd rfl hfailed

theorem ExecInv.clear_flag {s : State} (h : ExecInv s) {c : Tid} (hc : s.stage c = .loaded) :
    ExecInv (write_flag s c false) := by
  obtain ⟨hmem, hcurrent⟩ := h.middle hc (by decide) (by decide) (by decide)
  have hold := h.stages c
  unfold StageOk at hold
  rw [hc] at hold
  have hnot : s.stage c ≠ .started := by
    rw [hc]
    decide
  have hstage : (write_flag s c false).stage c = .cleared := Function.update_self c _ _
  refine h.child_step hmem (by decide) rfl rfl (fun _ _ => rfl) (fun _ _ => rfl) rfl rfl ?_
    (Or.inr (Or.inr hcurrent)) (fun hs => absurd hs hnot) ?_
  · unfold StageOk
    rw [hstage]
    exact hold
  · refine h.position.onward hcurrent rfl rfl rfl hstage (by decide) hnot (by rintro ⟨⟩) ?_
    intro _ _ _ _
    rw [show (write_flag s c false).load_result c = some true from hold.1]
    simp [write_flag]

theorem ExecInv.set_flag {s : State} (h : ExecInv s) {c : Tid} (hc : s.stage c = .failed)
    (hp : s.position = .created (some c)) : ExecInv (write_flag s c true) := by
  obtain ⟨hmem, hcurrent⟩ := h.middle hc (by decide) (by decide) (by decide)
  have hold := h.stages c
  unfold StageOk at hold
  rw [hc] at hold
  have hpos := h.position
  unfold PositionOk at hpos
  rw [hp] at hpos
  have hstage : (write_flag s c true).stage c = .flagged := Function.update_self c _ _
  refine h.child_step hmem (by decide) rfl rfl (fun _ _ => rfl) (fun _ _ => rfl) rfl rfl ?_
    (Or.inr (Or.inr hcurrent)) (fun hs => ?_) ?_
  · unfold StageOk
    rw [hstage]
    exact hold
  · rw [hc] at hs
    cases hs
  · unfold PositionOk
    rw [show (write_flag s c true).position = .created (some c) from hp]
    refine ⟨hpos.1, fun d hd => ?_⟩
    obtain rfl := Option.some.inj hd
    rw [hstage]
    exact ⟨by decide, fun _ _ _ => ⟨fun _ => hold.1, fun _ => rfl⟩⟩

theorem after_up_child (c : Tid) (p : Position) : (p.after_up c).child = p.child := by
  cases p with
  | asleep tid child =>
    unfold Position.after_up
    dsimp only
    split_ifs <;> rfl
  | _ => rfl

theorem ExecInv.sync_up {s : State} (h : ExecInv s) {c : Tid} (hc : s.stage c = .cleared) :
    ExecInv (sync_up s c) := by
  obtain ⟨hmem, hcurrent⟩ := h.middle hc (by decide) (by decide) (by decide)
  have hold := h.stages c
  unfold StageOk at hold
  rw [hc] at hold
  have hnot : s.stage c ≠ .started := by
    rw [hc]
    decide
  have hpos := h.position
  have hstage : (Exec.sync_up s c).stage c = .started := Function.update_self c _ _
  refine h.child_step hmem (by decide) rfl rfl (fun _ _ => rfl)
    (fun d hd => Function.update_of_ne hd _ _) rfl (after_up_child c s.position) ?_ (Or.inl rfl)
    (fun hs => absurd hs hnot) ?_
  · apply StageOk.of_started hstage
    refine ⟨hold.1, fun _ => ?_⟩
    show Function.update s.parent_child_sync c _ c ≠ 0
    rw [Function.update_self]
    exact Nat.succ_ne_zero _
  · by_cases hasleep : ∃ tid d, s.position = .asleep tid d
    · -- the parent sleeps on this very child
      obtain ⟨tid, d, hp⟩ := hasleep
      unfold PositionOk at hpos
      rw [hp] at hpos hcurrent
      obtain ⟨rfl, hcreated, -, -, -⟩ := hpos
      obtain rfl := Option.some.inj hcurrent
      have hafter : s.position.after_up d = .woken (some d) d := by
        rw [hp]
        exact if_pos rfl
      unfold PositionOk
      rw [show (Exec.sync_up s d).position = .woken (some d) d from hafter]
      exact ⟨rfl, hcreated, hstage⟩
    · have hsame : s.position.after_up c = s.position := by
        cases hp : s.position with
        | asleep tid d => exact absurd ⟨tid, d, hp⟩ hasleep
        | _ => rfl
      refine hpos.onward hcurrent hsame rfl rfl hstage (by decide) hnot ?_ ?_
      · exact fun _ tid d hp => hasleep ⟨tid, d, hp⟩
      · intro hp _ _ _
        unfold PositionOk at hpos
        rw [hp] at hpos
        refine (hpos.2 c rfl).2 ?_ ?_ ?_ <;> rw [hc] <;> decide

theorem ExecInv.child_gone {s : State} (h : ExecInv s) {c : Tid}
    (hc : s.stage c = .started ∨ s.stage c = .flagged) (hok : ExecOk s (.leave c)) :
    ExecInv (child_gone s c) := by
  have hmem : c ∈ s.children_thread_list := by
    apply (h.listed c).mpr
    rcases hc with hc | hc <;> rw [hc] <;> decide
  have hstage : (Exec.child_gone s c).stage c = .gone := Function.update_self c _ _
  have hother : ∀ d, d ≠ c → (Exec.child_gone s c).stage d = s.stage d :=
    fun d hd => Function.update_of_ne hd _ _
  refine h.child_step hmem (by decide) rfl rfl (fun _ _ => rfl) (fun _ _ => rfl) rfl rfl ?_
    (Or.inr (Or.inl rfl)) (fun _ => ⟨rfl, rfl⟩) ?_
  · unfold StageOk
    rw [hstage]
    show s.load_result c ≠ none
    rcases hc with hc | hc
    · rw [(h.started hc).1]
      decide
    · rw [h.flagged hc]
      decide
  · have hpos := h.position
    unfold ExecOk at hok
    unfold PositionOk at hpos ⊢
    -- hope is lost by failing only
    have hhope : ∀ d, Hopeful s d → Hopeful (Exec.child_gone s c) d := by
      intro d hd
      by_cases hdc : d = c
      · rw [hdc] at hd ⊢
        refine ⟨by rw [hstage]; decide, fun _ => ?_⟩
        exact (h.started (hc.resolve_right hd.1)).1
      · unfold Hopeful
        rw [hother d hdc]
        exact hd
    rw [show (Exec.child_gone s c).position = s.position from rfl]
    cases hp : s.position with
    | outside => trivial
    | created tid =>
      rw [hp] at hpos
      refine ⟨hpos.1, fun d hd => ?_⟩
      obtain ⟨habsent, hflag⟩ := hpos.2 d hd
      by_cases hdc : d = c
      · rw [hdc, hstage]
        rw [hdc] at hflag
        refine ⟨by decide, fun _ _ _ => hflag ?_ ?_ ?_⟩ <;>
          rcases hc with hc | hc <;> rw [hc] <;> decide
      · rw [hother d hdc]
        exact ⟨habsent, hflag⟩
    | returned tid =>
      rw [hp] at hpos
      cases tid with
      | none =>
        intro d hd
        have hdc : d ≠ c := by
          rintro rfl
          rcases hc with hc | hc <;> rw [(hpos d hd).1] at hc <;> cases hc
        rw [hother d hdc]
        exact hpos d hd
      | some d =>
        obtain ⟨hcreated, habsent, hd⟩ := hpos
        refine ⟨hcreated, ?_, hhope d hd⟩
        by_cases hdc : d = c
        · rw [hdc, hstage]
          decide
        · rw [hother d hdc]
          exact habsent
    | searching tid e =>
      rw [hp] at hpos hok
      obtain ⟨d, rfl, hcreated, hd, hahead⟩ := hpos
      have hcd : c ≠ d := fun hcd => hok.1 (by rw [hcd])
      exact ⟨d, rfl, hcreated, hhope d hd, hahead.erase hcd hok.2⟩
    | syncing tid d =>
      rw [hp] at hpos hok
      obtain ⟨ht, hcreated, hd, hmem⟩ := hpos
      exact ⟨ht, hcreated, hhope d hd, (List.mem_erase_of_ne (Ne.symm hok)).mpr hmem⟩
    | asleep tid d =>
      rw [hp] at hpos
      obtain ⟨ht, hcreated, hd, hmem, hs⟩ := hpos
      have hdc : d ≠ c := by
        rintro rfl
        rcases hc with hc | hc
        · exact hs hc
        · exact hd.1 hc
      exact ⟨ht, hcreated, hhope d hd, (List.mem_erase_of_ne hdc).mpr hmem, hother d hdc ▸ hs⟩
    | woken tid d =>
      rw [hp] at hpos hok
      obtain ⟨ht, hcreated, hs⟩ := hpos
      exact ⟨ht, hcreated, (hother d (Ne.symm hok)).trans hs⟩
    | crashed f =>
      rw [hp] at hpos
      exact hpos

theorem ExecInv.step {s s' : State} (h : ExecInv s) {e : Event} (hok : ExecOk s e)
    (hs : exec_system.step s e s') : ExecInv s' := by
  cases e with
  | exec_no_page =>
    obtain ⟨hp, rfl⟩ := hs
    exact h.exec_no_page hp
  | exec tid =>
    obtain ⟨hp, hnew, rfl⟩ := hs
    exact h.thread_create hp hnew
  | go => exact h.go hok hs
  | load c success =>
    obtain ⟨hc, rfl⟩ := hs
    exact h.load_return hc
  | flag c =>
    rcases hs with ⟨hc, rfl⟩ | ⟨hc, rfl⟩
    · exact h.clear_flag hc
    · exact h.set_flag hc (hok hc)
  | up c =>
    obtain ⟨hc, rfl⟩ := hs
    exact h.sync_up hc
  | leave c =>
    obtain ⟨hc, rfl⟩ := hs
    exact h.child_gone hc hok

/-! ## Whole runs -/

theorem Ends.outside {s : State} (hp : s.position = .outside) : Ends s :=
  ⟨0, s, rfl, Or.inl hp⟩

theorem Ends.asleep {s : State} {tid : Option Tid} {c : Tid} (hp : s.position = .asleep tid c) :
    Ends s :=
  ⟨0, s, rfl, Or.inr ⟨tid, c, hp⟩⟩

theorem Ends.go {s s' : State} (hs : exec_go s = some s') (h : Ends s') : Ends s := by
  obtain ⟨n, r, hr, hp⟩ := h
  refine ⟨n + 1, r, ?_, hp⟩
  rw [exec_alone, hs]
  exact hr

/-- `sema_down` on a child that is there. -/
theorem Ends.down {s : State} {tid : Option Tid} {c : Tid}
    (hp : s.position = .syncing tid c ∨ s.position = .woken tid c) (hc : s.stage c ≠ .gone) :
    Ends s := by
  have hgo : exec_go s = some (exec_down s tid c) := by
    unfold exec_go
    rcases hp with hp | hp <;> rw [hp]
  apply Ends.go hgo
  unfold exec_down
  rw [if_neg hc]
  split_ifs
  · exact Ends.asleep rfl
  · exact Ends.outside rfl

theorem exec_go_search {s s' : State} {tid : Option Tid} {e : Tid}
    (hp : s.position = .searching tid e) (hs : exec_search s tid e = s') :
    exec_go s = some s' := by
  unfold exec_go
  rw [hp, ← hs]

/-- The loop comes to the child. -/
theorem ExecInv.searching_ends {s : State} (h : ExecInv s) {c e : Tid}
    (hp : s.position = .searching (some c) e) (hahead : Ahead s.children_thread_list e c) :
    Ends s := by
  have hall : ∀ r, ExecInv r → r.children_thread_list = s.children_thread_list →
      r.position = .searching (some c) e → Ends r := by
    refine Ahead.induction (P := fun x => ∀ r, ExecInv r →
      r.children_thread_list = s.children_thread_list →
      r.position = .searching (some c) x → Ends r) h.nodup ?_ ?_ hahead
    · intro r hr hlist hpr
      have hmem : c ∈ r.children_thread_list := hlist ▸ hahead.mem
      have hgo := exec_go_search hpr (hr.search_at hmem)
      exact Ends.go hgo (Ends.down (Or.inl rfl) (hr.stage_ne_gone hmem))
    · intro x d hxc hnext hd ih r hr hlist hpr
      have hx : x ∈ r.children_thread_list := by
        have hposr := hr.position
        unfold PositionOk at hposr
        rw [hpr] at hposr
        obtain ⟨b, -, -, -, hx⟩ := hposr
        exact hx.at_mem
      have hgo := exec_go_search hpr (hr.search_before hx hxc (hlist ▸ hnext))
      have hinv : ExecInv { r with position := .searching (some c) d } := hr.go (by
        unfold ExecOk
        rw [hpr]
        trivial) hgo
      exact Ends.go hgo (ih _ hinv hlist rfl)
  exact hall s h rfl hp

theorem ExecInv.contract {s : State} (h : ExecInv s) : ExecContract s := by
  have hpos := h.position
  unfold PositionOk at hpos
  refine ⟨fun f hf => ?_, fun hlook => ?_, h.answers, fun tid c hp => ?_⟩
  · rw [hf] at hpos
    exact hpos
  · cases hp : s.position with
    | outside => exact Ends.outside hp
    | created tid => exact absurd hp (hlook tid).1
    | returned tid => exact absurd hp (hlook tid).2
    | searching tid e =>
      rw [hp] at hpos
      obtain ⟨c, rfl, -, -, hahead⟩ := hpos
      exact h.searching_ends hp hahead
    | syncing tid c =>
      rw [hp] at hpos
      exact Ends.down (Or.inl hp) (h.stage_ne_gone hpos.2.2.2)
    | asleep tid c => exact Ends.asleep hp
    | woken tid c =>
      rw [hp] at hpos
      exact Ends.down (Or.inr hp) (by rw [hpos.2.2]; decide)
    | crashed f =>
      rw [hp] at hpos
      exact hpos.elim
  · rw [hp] at hpos
    exact h.stage_ne_gone hpos.2.2.2.1

/-- **`exec`** keeps the hand-shake in every run whose steps meet `ExecOk`. -/
theorem exec_handshake {s : State} (hr : Reachable exec_system ExecOk s) : ExecContract s := by
  have hinv : ExecInv s :=
    hr.invariant (fun _ h => ExecInv.init h) (fun _ _ _ hinv hok h => hinv.step hok h)
  exact hinv.contract

/-- A run of that kind: a load that fails before the flag is tested, then one that succeeds
while the parent sleeps on the semaphore. -/
theorem exec_handshake_two : ∃ s, s.answers = [⟨some 2, some 2⟩, ⟨some 1, none⟩] ∧
    s.load_result 1 = some false ∧ s.load_result 2 = some true ∧ ExecContract s := by
  have r0 : Reachable exec_system ExecOk _ := .init rfl
  have r1 := r0.step (e := Event.exec (some 1)) trivial ⟨rfl, fun _ _ => rfl, rfl⟩
  have r2 := r1.step (e := Event.load 1 false) trivial ⟨rfl, rfl⟩
  have r3 := r2.step (e := Event.flag 1) (fun _ => rfl) (Or.inr ⟨rfl, rfl⟩)
  have r4 := r3.step (e := Event.leave 1) trivial ⟨Or.inr rfl, rfl⟩
  have r5 := r4.step (e := Event.go) (fun _ => rfl) rfl
  have r6 := r5.step (e := Event.go) (Or.inl rfl) rfl
  have r7 := r6.step (e := Event.exec (some 2)) trivial
    ⟨rfl, fun c hc => by obtain rfl := Option.some.inj hc; rfl, rfl⟩
  have r8 := r7.step (e := Event.load 2 true) trivial ⟨rfl, rfl⟩
  have r9 := r8.step (e := Event.flag 2) (fun h => by cases h) (Or.inl ⟨rfl, rfl⟩)
  have r10 := r9.step (e := Event.go) (fun h => by cases h) rfl
  have r11 := r10.step (e := Event.go) (Or.inr ⟨2, List.mem_cons_self, rfl⟩) rfl
  have r12 := r11.step (e := Event.go) trivial rfl
  have r13 := r12.step (e := Event.go) trivial rfl
  have r14 := r13.step (e := Event.up 2) trivial ⟨rfl, rfl⟩
  have r15 := r14.step (e := Event.go) trivial rfl
  exact ⟨_, rfl, rfl, rfl, exec_handshake r15⟩

/-- The flag is tested while the child is still loading: when the load then fails, the parent
sleeps on the semaphore of a child that is gone. -/
theorem exec_sleeps_on_gone_child : ∃ s, Reachable exec_system (fun _ _ => True) s ∧
    s.position = .asleep (some 1) 1 ∧ s.stage 1 = .gone ∧ s.load_result 1 = some false ∧
    ¬ ExecContract s := by
  have r0 : Reachable exec_system (fun _ _ => True) _ := .init rfl
  have r1 := r0.step (e := Event.exec (some 1)) trivial ⟨rfl, fun _ _ => rfl, rfl⟩
  have r2 := r1.step (e := Event.go) trivial rfl
  have r3 := r2.step (e := Event.go) trivial rfl
  have r4 := r3.step (e := Event.go) trivial rfl
  have r5 := r4.step (e := Event.go) trivial rfl
  have r6 := r5.step (e := Event.load 1 false) trivial ⟨rfl, rfl⟩
  have r7 := r6.step (e := Event.flag 1) trivial (Or.inr ⟨rfl, rfl⟩)
  have r8 := r7.step (e := Event.leave 1) trivial ⟨Or.inr rfl, rfl⟩
  exact ⟨_, r8, rfl, rfl, rfl, fun h => h.not_lost (some 1) 1 rfl rfl⟩

end Pintos.Userprog.Exec
