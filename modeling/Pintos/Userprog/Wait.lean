/-
`process_wait` of a parent, in any interleaving with its children.

The state is what parent and children share: the two lists of the parent, the
semaphore in each child's `struct thread`, and where the parent stands in
`process_wait`. One step of the parent is the pass over `child_info_list` (records
are only ever added there while the parent is in `process_wait`), one iteration of
the loop over `children_thread_list`, from which children remove themselves, one
test of the semaphore, or the last assignment. A child writes its record in `exit`
and leaves in `thread_exit`, which a killed child gets to without `exit`.
`thread_exit` runs with interrupts off: only the wake-up of a parent that sleeps on
it can come between the child's leaving and the release of its page.
-/
import Pintos.Base
import Pintos.Library.StepSystem
import Pintos.Library.Walk

set_option autoImplicit false

namespace Pintos.Userprog

open StepSystem Walk

/-! ## Data -/

/-- `tid_t`, and a `struct thread *` of a child. -/
abbrev Tid := ℕ

/-- `struct child_info`. -/
structure ChildInfo where
  tid : Tid
  exit_status : ℤ
  exited : Bool
  waited : Bool
  deriving DecidableEq

/-- The thread of a child. -/
inductive Life
  | absent
  | running
  /-- `exit` has written the record. -/
  | exiting
  /-- Off the list, the semaphore up, the page not yet released. -/
  | left
  | freed
  deriving DecidableEq

/-- Where the parent stands in `process_wait (child_tid)`. -/
inductive Position
  | outside
  /-- In the second loop, at `e`. -/
  | searching (child_tid temp e : Tid)
  /-- Before `sema_down`. -/
  | found (child_tid temp temp_child : Tid)
  | asleep (child_tid temp temp_child : Tid)
  /-- Woken, about to test the value again. -/
  | woken (child_tid temp temp_child : Tid)
  /-- Before the return. -/
  | passed (child_tid temp : Tid)
  | crashed (f : Fault)
  deriving DecidableEq

/-- A call that has returned: its argument, whether that was a child of the caller,
and the value. -/
structure Answer where
  tid : Tid
  child : Bool
  value : ℤ
  deriving DecidableEq

/-- A parent and its children. `fate` and `answers` are history: what each child ended
with (`-1` if the kernel killed it), and the calls that have returned, latest first. -/
structure Family where
  child_info_list : List ChildInfo
  children_thread_list : List Tid
  life : Tid → Life
  parent_wait_sema : Tid → ℕ
  position : Position
  fate : Tid → Option ℤ
  answers : List Answer

/-- The record of `tid`. -/
def Family.info (s : Family) (tid : Tid) : Option ChildInfo :=
  s.child_info_list.find? (fun i => i.tid = tid)

/-- Writing the record of `tid`. -/
def Family.set_info (s : Family) (tid : Tid) (f : ChildInfo → ChildInfo) : Family :=
  { s with child_info_list := s.child_info_list.map (fun i => if i.tid = tid then f i else i) }

/-! ## `process_wait` -/

/-- Returning `value`. -/
def Family.answer (s : Family) (tid : Tid) (value : ℤ) : Family :=
  { s with
    position := .outside
    answers := ⟨tid, (s.info tid).isSome, value⟩ :: s.answers }

/-- The start of the second loop. If the list is empty `temp_child` is never assigned. -/
def begin_search (s : Family) (child_tid temp : Tid) : Family :=
  match s.children_thread_list with
  | [] => { s with position := .crashed .uninitialised }
  | e :: _ => { s with position := .searching child_tid temp e }

/-- The first loop. `temp` is the record of the child, or else the last one. -/
def wait_scan (s : Family) (child_tid : Tid) : Family :=
  match s.info child_tid with
  | some temp =>
    if temp.exited then
      if temp.waited then s.answer child_tid (-1)
      else (s.set_info child_tid (fun i => { i with waited := true })).answer child_tid
        temp.exit_status
    else begin_search s child_tid temp.tid
  | none =>
    match s.child_info_list.getLast? with
    | none => s.answer child_tid (-1)
    | some temp => begin_search s child_tid temp.tid

/-- One iteration of the second loop. Behind the last element `temp_child` is left at it. -/
def wait_search (s : Family) (child_tid temp e : Tid) : Family :=
  if s.life e = .freed then { s with position := .crashed .dangling }
  else if e = child_tid then { s with position := .found child_tid temp e }
  else
    match list_next s.children_thread_list e with
    | some e' => { s with position := .searching child_tid temp e' }
    | none => { s with position := .found child_tid temp e }

/-- The test of `sema_down (&temp_child->parent_wait_sema)`. -/
def wait_down (s : Family) (child_tid temp temp_child : Tid) : Family :=
  if s.life temp_child = .freed then { s with position := .crashed .dangling }
  else if s.parent_wait_sema temp_child = 0 then
    { s with position := .asleep child_tid temp temp_child }
  else
    { s with
      parent_wait_sema := Function.update s.parent_wait_sema temp_child
        (s.parent_wait_sema temp_child - 1)
      position := .passed child_tid temp }

/-- `return temp->exit_status`. -/
def wait_return (s : Family) (child_tid temp : Tid) : Family :=
  match s.info temp with
  | some i => s.answer child_tid i.exit_status
  | none => { s with position := .crashed .dangling }

/-! ## The children -/

/-- `thread_create`: the lists get the new child. -/
def spawn (s : Family) (c : Tid) : Family :=
  { s with
    child_info_list := s.child_info_list ++ [⟨c, 0, false, false⟩]
    children_thread_list := s.children_thread_list ++ [c]
    parent_wait_sema := Function.update s.parent_wait_sema c 0
    life := Function.update s.life c .running }

/-- `exit` up to `thread_exit`. -/
def child_exit (s : Family) (c : Tid) (status : ℤ) : Family :=
  { s.set_info c (fun i => { i with exit_status := status, exited := true }) with
    life := Function.update s.life c .exiting
    fate := Function.update s.fate c (some status) }

/-- `thread_exit`. A child that has not been through `exit` was killed. -/
def child_leave (s : Family) (c : Tid) : Family :=
  let s' := { s with
    children_thread_list := s.children_thread_list.erase c
    parent_wait_sema := Function.update s.parent_wait_sema c (s.parent_wait_sema c + 1)
    fate := if s.life c = Life.running then Function.update s.fate c (some (-1)) else s.fate }
  match s.position with
  | .asleep child_tid temp temp_child =>
    if temp_child = c then
      { s' with life := Function.update s.life c .left, position := .woken child_tid temp c }
    else { s' with life := Function.update s.life c .freed }
  | _ => { s' with life := Function.update s.life c .freed }

/-! ## Runs -/

inductive WaitEvent
  | spawn (c : Tid)
  | call (child_tid : Tid)
  /-- The next step of the parent in `process_wait`. -/
  | go
  | exit (c : Tid) (status : ℤ)
  | leave (c : Tid)
  | free (c : Tid)

/-- The next step of the parent, if it is not asleep. -/
def wait_go (s : Family) : Option Family :=
  match s.position with
  | .searching child_tid temp e => some (wait_search s child_tid temp e)
  | .found child_tid temp temp_child => some (wait_down s child_tid temp temp_child)
  | .woken child_tid temp temp_child => some (wait_down s child_tid temp temp_child)
  | .passed child_tid temp => some (wait_return s child_tid temp)
  | _ => none

def wait_step (s : Family) : WaitEvent → Family → Prop
  | .spawn c, s' => s.position = .outside ∧ s.life c = .absent ∧ s' = spawn s c
  | .call child_tid, s' => s.position = .outside ∧ s' = wait_scan s child_tid
  | .go, s' => wait_go s = some s'
  | .exit c status, s' => s.life c = .running ∧ s' = child_exit s c status
  | .leave c, s' => (s.life c = .running ∨ s.life c = .exiting) ∧ s' = child_leave s c
  | .free c, s' => s.life c = .left ∧ s' = { s with life := Function.update s.life c .freed }

/-- A process without children. -/
def wait_system : System Family WaitEvent where
  init s := s = ⟨[], [], fun _ => .absent, fun _ => 0, .outside, fun _ => none, []⟩
  step := wait_step

/-! ## The contract -/

/-- `tid` has been waited for as a child. -/
def Served (answers : List Answer) (tid : Tid) : Prop :=
  ∃ a ∈ answers, a.tid = tid ∧ a.child = true

/-- Every answer is right, in view of the earlier ones: the first for a child is what the
child ended with, every other one is `-1`. -/
def AnswersOk (fate : Tid → Option ℤ) : List Answer → Prop
  | [] => True
  | a :: earlier =>
    (a.child = true ∧ ¬ Served earlier a.tid → fate a.tid = some a.value) ∧
    (¬ (a.child = true ∧ ¬ Served earlier a.tid) → a.value = -1) ∧ AnswersOk fate earlier

/-- The argument of a call that did not return from the record. -/
def Position.child_tid : Position → Option Tid
  | .searching t _ _ | .found t _ _ | .asleep t _ _ | .woken t _ _ | .passed t _ => some t
  | _ => none

/-- `n` steps of the parent alone. -/
def wait_alone : ℕ → Family → Option Family
  | 0, s => some s
  | n + 1, s => (wait_go s).bind (wait_alone n)

/-- The parent left to itself returns from its call or falls asleep. -/
def Ends (s : Family) : Prop :=
  ∃ n s', wait_alone n s = some s' ∧
    (s'.position = .outside ∨ ∃ t temp c, s'.position = .asleep t temp c)

/-- The contract. No call crashes, and the parent left to itself returns from one or falls
asleep; every value returned is right; a call goes beyond the record, and so may block, only
for a child that was not waited for before; and it is blocked only while that child has not
left. -/
structure WaitContract (s : Family) : Prop where
  no_crash : ∀ f, s.position ≠ .crashed f
  ends : Ends s
  answers : AnswersOk s.fate s.answers
  first : ∀ t, s.position.child_tid = some t → (s.info t).isSome ∧ ¬ Served s.answers t
  alive : ∀ t temp c, s.position = .asleep t temp c →
    c = t ∧ (s.life t = .running ∨ s.life t = .exiting)

/-- The condition on the steps of a run.
* A process that has records of children does not wait for a tid without one. A child
  without `exited` in its record is still on the list: it was not killed. A child that
  was waited for before has `waited` in its record, or has exited with `-1`.
* A child does not leave while the parent is on the way from its record to the
  semaphore, or stands at it in the loop; one that the parent sleeps on has been through
  `exit`.
* The page of a child is not released before the parent it has woken tests the
  semaphore. -/
def WaitOk (s : Family) : WaitEvent → Prop
  | .call t =>
    match s.info t with
    | none => s.child_info_list = []
    | some i => (i.exited = false → t ∈ s.children_thread_list) ∧
        (Served s.answers t → i.waited = true ∨ i.exited = true ∧ i.exit_status = -1)
  | .leave c =>
    match s.position with
    | .searching t _ e => c ≠ t ∧ c ≠ e
    | .found t _ _ => c ≠ t
    | .asleep t _ _ => c = t → s.life c = .exiting
    | _ => True
  | .free c => ∀ t temp, s.position ≠ .woken t temp c
  | _ => True

/-! ## Reading a changed state -/

theorem find_map_same {l : List ChildInfo} {c t : Tid} {f : ChildInfo → ChildInfo}
    (hf : ∀ i, (f i).tid = i.tid) :
    (l.map (fun i => if i.tid = c then f i else i)).find? (fun i => i.tid = t) =
      (l.find? (fun i => i.tid = t)).map (fun i => if t = c then f i else i) := by
  induction l with
  | nil => rfl
  | cons i l ih =>
    rw [List.map_cons, List.find?_cons, List.find?_cons]
    by_cases hi : i.tid = t
    · by_cases hc : t = c
      · simp [hi, hc, hf]
      · simp [hi, hc]
    · have htid : (if i.tid = c then f i else i).tid = i.tid := by
        split_ifs
        · exact hf i
        · rfl
      simp only [htid, hi, decide_false, ih]

theorem info_set_info (s : Family) (c t : Tid) {f : ChildInfo → ChildInfo}
    (hf : ∀ i, (f i).tid = i.tid) : (s.set_info c f).info t =
      (s.info t).map (fun i => if t = c then f i else i) :=
  find_map_same hf

theorem info_tid {s : Family} {t : Tid} {i : ChildInfo} (h : s.info t = some i) : i.tid = t := by
  have := List.find?_some h
  simpa using this

theorem begin_search_eq {s : Family} {t temp e : Tid} {l : List Tid}
    (hl : s.children_thread_list = e :: l) :
    begin_search s t temp = { s with position := .searching t temp e } := by
  unfold begin_search
  rw [hl]

/-! ## The invariant -/

/-- What the position says. -/
def PositionOk (s : Family) : Prop :=
  match s.position with
  | .outside => True
  | .searching t temp e => temp = t ∧ Ahead s.children_thread_list e t
  | .found t temp c => temp = t ∧ c = t ∧ t ∈ s.children_thread_list
  | .asleep t temp c => temp = t ∧ c = t ∧ t ∈ s.children_thread_list
  | .woken t temp c => temp = t ∧ c = t ∧ s.life t = .left ∧ s.parent_wait_sema t ≠ 0 ∧
      ∃ i, s.info t = some i ∧ i.exited = true
  | .passed t temp => temp = t ∧ ∃ i, s.info t = some i ∧ i.exited = true
  | .crashed _ => False

structure WaitInv (s : Family) : Prop where
  known : ∀ c, (s.info c).isSome ↔ s.life c ≠ .absent
  listed : ∀ c, c ∈ s.children_thread_list ↔ (s.life c = .running ∨ s.life c = .exiting)
  nodup : s.children_thread_list.Nodup
  exited : ∀ c i, s.info c = some i → i.exited = true → s.fate c = some i.exit_status
  recorded : ∀ c i, s.info c = some i → s.life c = .exiting → i.exited = true
  fresh : ∀ c, s.life c = .running → s.fate c = none
  unborn : ∀ c, s.life c = .absent → s.fate c = none
  waited : ∀ c i, s.info c = some i → i.waited = true → i.exited = true ∧ Served s.answers c
  sema : ∀ c, c ∈ s.children_thread_list → s.parent_wait_sema c = 0
  position : PositionOk s
  first : ∀ t, s.position.child_tid = some t → (s.info t).isSome ∧ ¬ Served s.answers t
  answers : AnswersOk s.fate s.answers

theorem WaitInv.listed_life {s : Family} (h : WaitInv s) {c : Tid}
    (hmem : c ∈ s.children_thread_list) : s.life c ≠ .freed := by
  intro hfreed
  rcases (h.listed c).mp hmem with hlife | hlife <;> rw [hfreed] at hlife <;> cases hlife

theorem WaitInv.init {s : Family} (h : wait_system.init s) : WaitInv s := by
  obtain rfl := h
  constructor <;> simp [Family.info, PositionOk, Position.child_tid, AnswersOk]

/-- An answer for a child that has just ended was not given before. -/
theorem AnswersOk.update {fate : Tid → Option ℤ} {l : List Answer} {c : Tid} {x : Option ℤ}
    (h : AnswersOk fate l) (hc : fate c = none) : AnswersOk (Function.update fate c x) l := by
  induction l with
  | nil => trivial
  | cons a l ih =>
    obtain ⟨hfirst, helse, hrest⟩ := h
    refine ⟨fun hcond => ?_, helse, ih hrest⟩
    have hfate := hfirst hcond
    have hne : a.tid ≠ c := by
      rintro rfl
      rw [hc] at hfate
      cases hfate
    rw [Function.update_of_ne hne]
    exact hfate

/-! ## The steps of the parent -/

theorem Served.cons {a : Answer} {l : List Answer} {t : Tid} (h : Served l t) :
    Served (a :: l) t := by
  obtain ⟨b, hb, hbt⟩ := h
  exact ⟨b, List.mem_cons_of_mem _ hb, hbt⟩

/-- Only the position changes. -/
theorem WaitInv.move {s : Family} (h : WaitInv s) {p : Position}
    (hpos : PositionOk { s with position := p })
    (hfirst : ∀ t, p.child_tid = some t → (s.info t).isSome ∧ ¬ Served s.answers t) :
    WaitInv { s with position := p } :=
  ⟨h.known, h.listed, h.nodup, h.exited, h.recorded, h.fresh, h.unborn, h.waited, h.sema, hpos,
    hfirst, h.answers⟩

/-- Returning from a call, with the right value. -/
theorem WaitInv.answer {s : Family} (h : WaitInv s) {t : Tid} {v : ℤ}
    (hfirst : (s.info t).isSome = true ∧ ¬ Served s.answers t → s.fate t = some v)
    (helse : ¬ ((s.info t).isSome = true ∧ ¬ Served s.answers t) → v = -1) :
    WaitInv (s.answer t v) :=
  ⟨h.known, h.listed, h.nodup, h.exited, h.recorded, h.fresh, h.unborn,
    fun c i hi hw => ⟨(h.waited c i hi hw).1, (h.waited c i hi hw).2.cons⟩, h.sema, trivial,
    fun u hu => (by cases hu), ⟨hfirst, helse, h.answers⟩⟩

/-- Returning the status from the record, which is marked. -/
theorem WaitInv.answer_record {s : Family} (h : WaitInv s) {t : Tid} {i : ChildInfo}
    (hi : s.info t = some i) (hex : i.exited = true)
    (hserved : Served s.answers t → i.exit_status = -1) :
    WaitInv ((s.set_info t (fun i => { i with waited := true })).answer t i.exit_status) := by
  have hinfo : ∀ c, ((s.set_info t (fun i => { i with waited := true })).answer t
      i.exit_status).info c = (s.info c).map (fun j => if c = t then { j with waited := true }
        else j) := fun c => info_set_info s t c (fun _ => rfl)
  -- a record differs from what it was in `waited` only
  have hold : ∀ c j, ((s.set_info t (fun i => { i with waited := true })).answer t
      i.exit_status).info c = some j → ∃ j', s.info c = some j' ∧ j.exited = j'.exited ∧
        j.exit_status = j'.exit_status ∧ (j.waited = true → j'.waited = true ∨ c = t) := by
    intro c j hj
    rw [hinfo] at hj
    obtain ⟨j', hj', rfl⟩ := Option.map_eq_some_iff.mp hj
    refine ⟨j', hj', ?_⟩
    split_ifs with hc
    · exact ⟨rfl, rfl, fun _ => Or.inr hc⟩
    · exact ⟨rfl, rfl, Or.inl⟩
  have hsome : ((s.set_info t (fun i => { i with waited := true })).info t).isSome = true := by
    have ht := hinfo t
    rw [hi] at ht
    exact Option.isSome_of_eq_some ht
  constructor
  · intro c
    rw [hinfo, Option.isSome_map]
    exact h.known c
  · exact h.listed
  · exact h.nodup
  · intro c j hj hje
    obtain ⟨j', hj', hex', hst, -⟩ := hold c j hj
    rw [hst]
    exact h.exited c j' hj' (hex' ▸ hje)
  · intro c j hj hlife
    obtain ⟨j', hj', hex', -, -⟩ := hold c j hj
    rw [hex']
    exact h.recorded c j' hj' hlife
  · exact h.fresh
  · exact h.unborn
  · intro c j hj hjw
    obtain ⟨j', hj', hex', -, hw⟩ := hold c j hj
    rw [hex']
    rcases hw hjw with hw | rfl
    · exact ⟨(h.waited c j' hj' hw).1, (h.waited c j' hj' hw).2.cons⟩
    · rw [hi] at hj'
      obtain rfl := Option.some.inj hj'
      exact ⟨hex, _, List.mem_cons_self, rfl, hsome⟩
  · exact h.sema
  · trivial
  · exact fun u hu => by cases hu
  · refine ⟨fun _ => h.exited t i hi hex, fun hc => ?_, h.answers⟩
    exact hserved (not_not.mp fun hnot => hc ⟨hsome, hnot⟩)

theorem WaitInv.call {s : Family} (h : WaitInv s) {t : Tid} (hok : WaitOk s (.call t)) :
    WaitInv (wait_scan s t) := by
  unfold WaitOk at hok
  dsimp only at hok
  unfold wait_scan
  cases hi : s.info t with
  | none =>
    rw [hi] at hok
    dsimp only at hok ⊢
    rw [hok]
    dsimp only [List.getLast?_nil]
    apply h.answer
    · intro hc
      rw [hi] at hc
      cases hc.1
    · exact fun _ => rfl
  | some i =>
    rw [hi] at hok
    obtain ⟨hlisted, hwaited⟩ := hok
    dsimp only
    cases hex : i.exited with
    | true =>
      rw [if_pos rfl]
      cases hw : i.waited with
      | true =>
        rw [if_pos rfl]
        have hserved := (h.waited t i hi hw).2
        exact h.answer (fun hc => absurd hserved hc.2) (fun _ => rfl)
      | false =>
        rw [if_neg (by decide)]
        refine h.answer_record hi hex fun hserved => ?_
        rcases hwaited hserved with hw' | hstatus
        · rw [hw'] at hw
          cases hw
        · exact hstatus.2
    | false =>
      rw [if_neg (by decide), info_tid hi]
      have hmem := hlisted hex
      obtain ⟨e, l, hl⟩ := List.exists_cons_of_ne_nil (List.ne_nil_of_mem hmem)
      rw [hl] at hmem
      rw [begin_search_eq hl]
      apply h.move
      · exact ⟨rfl, hl ▸ Ahead.head hmem⟩
      · intro u hu
        obtain rfl := Option.some.inj hu
        refine ⟨Option.isSome_of_eq_some hi, fun hserved => ?_⟩
        -- a child that was waited for has exited
        have hex' : i.exited = true :=
          (hwaited hserved).elim (fun hw => (h.waited t i hi hw).1) (fun hstatus => hstatus.1)
        rw [hex'] at hex
        cases hex

/-- The iteration at the child. -/
theorem WaitInv.search_at {s : Family} (h : WaitInv s) {t : Tid}
    (hmem : t ∈ s.children_thread_list) :
    wait_search s t t t = { s with position := .found t t t } := by
  unfold wait_search
  rw [if_neg (h.listed_life hmem), if_pos rfl]

/-- An iteration before it. -/
theorem WaitInv.search_before {s : Family} (h : WaitInv s) {t e e' : Tid}
    (hmem : e ∈ s.children_thread_list) (het : e ≠ t)
    (hnext : list_next s.children_thread_list e = some e') :
    wait_search s t t e = { s with position := .searching t t e' } := by
  unfold wait_search
  rw [if_neg (h.listed_life hmem), if_neg het, hnext]

theorem WaitInv.search {s : Family} (h : WaitInv s) {t temp e : Tid}
    (hp : s.position = .searching t temp e) : WaitInv (wait_search s t temp e) := by
  have hpos := h.position
  have hfirst := h.first t (by rw [hp]; rfl)
  unfold PositionOk at hpos
  rw [hp] at hpos
  obtain ⟨rfl, hahead⟩ := hpos
  by_cases het : e = temp
  · rw [het, h.search_at hahead.mem]
    apply h.move
    · exact ⟨rfl, rfl, hahead.mem⟩
    · intro u hu
      obtain rfl := Option.some.inj hu
      exact hfirst
  · -- the child is further on, so there is a next element
    obtain ⟨e', hnext, hahead'⟩ := hahead.advance h.nodup het
    rw [h.search_before hahead.at_mem het hnext]
    apply h.move
    · exact ⟨rfl, hahead'⟩
    · intro u hu
      obtain rfl := Option.some.inj hu
      exact hfirst

/-- A listed child has not left, so its semaphore is down. -/
theorem WaitInv.wait_down_eq {s : Family} (h : WaitInv s) {t temp c : Tid}
    (hmem : c ∈ s.children_thread_list) :
    wait_down s t temp c = { s with position := .asleep t temp c } := by
  unfold wait_down
  rw [if_neg (h.listed_life hmem), if_pos (h.sema c hmem)]

theorem WaitInv.sleep {s : Family} (h : WaitInv s) {t temp c : Tid}
    (hp : s.position = .found t temp c) : WaitInv (wait_down s t temp c) := by
  have hpos := h.position
  have hfirst := h.first t (by rw [hp]; rfl)
  unfold PositionOk at hpos
  rw [hp] at hpos
  obtain ⟨rfl, rfl, hmem⟩ := hpos
  rw [h.wait_down_eq hmem]
  apply h.move
  · exact ⟨rfl, rfl, hmem⟩
  · intro u hu
    obtain rfl := Option.some.inj hu
    exact hfirst

theorem WaitInv.wake {s : Family} (h : WaitInv s) {t temp c : Tid}
    (hp : s.position = .woken t temp c) : WaitInv (wait_down s t temp c) := by
  have hpos := h.position
  have hfirst := h.first t (by rw [hp]; rfl)
  unfold PositionOk at hpos
  rw [hp] at hpos
  obtain ⟨rfl, rfl, hleft, hsema, hex⟩ := hpos
  unfold wait_down
  rw [if_neg (by rw [hleft]; decide), if_neg hsema]
  refine ⟨h.known, h.listed, h.nodup, h.exited, h.recorded, h.fresh, h.unborn, h.waited, ?_,
    ⟨rfl, hex⟩, ?_, h.answers⟩
  · intro d hd
    have hne : d ≠ c := by
      rintro rfl
      rcases (h.listed d).mp hd with hlife | hlife <;> rw [hleft] at hlife <;> cases hlife
    show Function.update s.parent_wait_sema c _ d = 0
    rw [Function.update_of_ne hne]
    exact h.sema d hd
  · intro u hu
    obtain rfl := Option.some.inj hu
    exact hfirst

theorem WaitInv.finish {s : Family} (h : WaitInv s) {t temp : Tid}
    (hp : s.position = .passed t temp) : WaitInv (wait_return s t temp) := by
  have hpos := h.position
  have hfirst := h.first t (by rw [hp]; rfl)
  unfold PositionOk at hpos
  rw [hp] at hpos
  obtain ⟨rfl, i, hi, hex⟩ := hpos
  unfold wait_return
  rw [hi]
  exact h.answer (fun _ => h.exited temp i hi hex) (fun hc => absurd hfirst hc)

theorem wait_go_search {s s' : Family} {t temp e : Tid} (hp : s.position = .searching t temp e)
    (hs : wait_search s t temp e = s') : wait_go s = some s' := by
  unfold wait_go
  rw [hp, ← hs]

theorem WaitInv.go {s s' : Family} (h : WaitInv s) (hs : wait_go s = some s') : WaitInv s' := by
  unfold wait_go at hs
  cases hp : s.position with
  | searching t temp e =>
    rw [hp] at hs
    obtain rfl := Option.some.inj hs
    exact h.search hp
  | found t temp c =>
    rw [hp] at hs
    obtain rfl := Option.some.inj hs
    exact h.sleep hp
  | woken t temp c =>
    rw [hp] at hs
    obtain rfl := Option.some.inj hs
    exact h.wake hp
  | passed t temp =>
    rw [hp] at hs
    obtain rfl := Option.some.inj hs
    exact h.finish hp
  | outside =>
    rw [hp] at hs
    cases hs
  | asleep t temp c =>
    rw [hp] at hs
    cases hs
  | crashed f =>
    rw [hp] at hs
    cases hs

/-! ## The steps of the children -/

theorem info_spawn {s : Family} {c : Tid} (hc : s.info c = none) (t : Tid) :
    (spawn s c).info t = if t = c then some ⟨c, 0, false, false⟩ else s.info t := by
  show (s.child_info_list ++ [_]).find? _ = _
  rw [List.find?_append]
  by_cases ht : t = c
  · subst ht
    unfold Family.info at hc
    rw [if_pos rfl, hc]
    simp
  · have hct : ¬ c = t := fun h => ht h.symm
    rw [if_neg ht]
    simp [Family.info, hct]

theorem WaitInv.spawn {s : Family} (h : WaitInv s) {c : Tid} (hp : s.position = .outside)
    (hc : s.life c = .absent) : WaitInv (spawn s c) := by
  have hnone : s.info c = none := by
    cases hi : s.info c with
    | none => rfl
    | some i => exact absurd hc ((h.known c).mp (Option.isSome_of_eq_some hi))
  have hinfo := info_spawn hnone
  have hlife : ∀ t, (Userprog.spawn s c).life t = if t = c then .running else s.life t := fun t => by
    show Function.update s.life c .running t = _
    rw [Function.update_apply]
  have hnew : c ∉ s.children_thread_list := by
    intro hmem
    rcases (h.listed c).mp hmem with hl | hl <;> rw [hc] at hl <;> cases hl
  have hsame : ∀ t, t ≠ c → (Userprog.spawn s c).info t = s.info t ∧
      (Userprog.spawn s c).life t = s.life t := by
    intro t ht
    rw [hinfo, hlife, if_neg ht, if_neg ht]
    exact ⟨rfl, rfl⟩
  constructor
  · intro t
    by_cases ht : t = c
    · rw [hinfo, hlife, if_pos ht, if_pos ht]
      simp
    · rw [(hsame t ht).1, (hsame t ht).2]
      exact h.known t
  · intro t
    show t ∈ s.children_thread_list ++ [c] ↔ _
    rw [List.mem_append, List.mem_singleton]
    by_cases ht : t = c
    · rw [hlife, if_pos ht]
      simp [ht]
    · rw [(hsame t ht).2, h.listed t]
      simp [ht]
  · refine List.nodup_append.mpr ⟨h.nodup, List.nodup_singleton c, ?_⟩
    rintro x hx y hy rfl
    rw [List.mem_singleton.mp hy] at hx
    exact hnew hx
  · intro t i hi hex
    by_cases ht : t = c
    · rw [hinfo, if_pos ht] at hi
      obtain rfl := Option.some.inj hi
      cases hex
    · rw [(hsame t ht).1] at hi
      exact h.exited t i hi hex
  · intro t i hi hl
    by_cases ht : t = c
    · rw [hlife, if_pos ht] at hl
      cases hl
    · rw [(hsame t ht).1] at hi
      rw [(hsame t ht).2] at hl
      exact h.recorded t i hi hl
  · intro t hl
    by_cases ht : t = c
    · rw [ht]
      exact h.unborn c hc
    · rw [(hsame t ht).2] at hl
      exact h.fresh t hl
  · intro t hl
    by_cases ht : t = c
    · rw [hlife, if_pos ht] at hl
      cases hl
    · rw [(hsame t ht).2] at hl
      exact h.unborn t hl
  · intro t i hi hw
    by_cases ht : t = c
    · rw [hinfo, if_pos ht] at hi
      obtain rfl := Option.some.inj hi
      cases hw
    · rw [(hsame t ht).1] at hi
      exact h.waited t i hi hw
  · intro t hmem
    show Function.update s.parent_wait_sema c 0 t = 0
    by_cases ht : t = c
    · rw [ht, Function.update_self]
    · rw [Function.update_of_ne ht]
      refine h.sema t ((List.mem_append.mp hmem).resolve_right fun hm => ?_)
      exact ht (List.mem_singleton.mp hm)
  · unfold PositionOk
    rw [show (Userprog.spawn s c).position = .outside from hp]
    trivial
  · intro t ht
    rw [show (Userprog.spawn s c).position = .outside from hp] at ht
    cases ht
  · exact h.answers

theorem WaitInv.exit {s : Family} (h : WaitInv s) {c : Tid} {status : ℤ}
    (hc : s.life c = .running) : WaitInv (child_exit s c status) := by
  have hinfo : ∀ t, (child_exit s c status).info t = (s.info t).map (fun i =>
      if t = c then { i with exit_status := status, exited := true } else i) :=
    fun t => info_set_info s c t (fun _ => rfl)
  have hlife : ∀ t, (child_exit s c status).life t = if t = c then .exiting else s.life t :=
    fun t => Function.update_apply s.life c .exiting t
  have hfate : ∀ t, (child_exit s c status).fate t = if t = c then some status else s.fate t :=
    fun t => Function.update_apply s.fate c (some status) t
  -- the record of a child, before
  have hold : ∀ t i, (child_exit s c status).info t = some i → ∃ i', s.info t = some i' ∧
      i.waited = i'.waited ∧ (t = c → i.exited = true ∧ i.exit_status = status) ∧
        (t ≠ c → i = i') := by
    intro t i hi
    rw [hinfo] at hi
    obtain ⟨i', hi', rfl⟩ := Option.map_eq_some_iff.mp hi
    refine ⟨i', hi', ?_⟩
    split_ifs with ht
    · exact ⟨rfl, fun _ => ⟨rfl, rfl⟩, fun hne => absurd ht hne⟩
    · exact ⟨rfl, fun he => absurd he ht, fun _ => rfl⟩
  -- and after
  have hkept : ∀ t, (∃ i, s.info t = some i ∧ i.exited = true) →
      ∃ i, (child_exit s c status).info t = some i ∧ i.exited = true := by
    rintro t ⟨i, hi, hex⟩
    rw [hinfo, hi]
    refine ⟨_, rfl, ?_⟩
    split_ifs
    · rfl
    · exact hex
  have hsome : ∀ t, ((child_exit s c status).info t).isSome = (s.info t).isSome := fun t => by
    rw [hinfo, Option.isSome_map]
  constructor
  · intro t
    rw [hsome, h.known t, hlife]
    split_ifs with ht
    · rw [ht, hc]
      decide
    · rfl
  · intro t
    show t ∈ s.children_thread_list ↔ _
    rw [h.listed t, hlife]
    split_ifs with ht
    · simp [ht, hc]
    · rfl
  · exact h.nodup
  · intro t i hi hex
    obtain ⟨i', hi', -, hself, hother⟩ := hold t i hi
    rw [hfate]
    split_ifs with ht
    · rw [(hself ht).2]
    · obtain rfl := hother ht
      exact h.exited t i hi' hex
  · intro t i hi hl
    obtain ⟨i', hi', -, hself, hother⟩ := hold t i hi
    by_cases ht : t = c
    · exact (hself ht).1
    · obtain rfl := hother ht
      rw [hlife, if_neg ht] at hl
      exact h.recorded t i hi' hl
  · intro t hl
    rw [hlife] at hl
    rw [hfate]
    split_ifs at hl ⊢ with ht
    exact h.fresh t hl
  · intro t hl
    rw [hlife] at hl
    rw [hfate]
    split_ifs at hl ⊢ with ht
    exact h.unborn t hl
  · intro t i hi hw
    obtain ⟨i', hi', hwaited, hself, hother⟩ := hold t i hi
    rw [hwaited] at hw
    by_cases ht : t = c
    · exact ⟨(hself ht).1, (h.waited t i' hi' hw).2⟩
    · obtain rfl := hother ht
      exact h.waited t i hi' hw
  · exact h.sema
  · have hpos := h.position
    unfold PositionOk at hpos ⊢
    rw [show (child_exit s c status).position = s.position from rfl]
    split at hpos
    · trivial
    · exact hpos
    · exact hpos
    · exact hpos
    · obtain ⟨ht, ht', hleft, hsema, hex⟩ := hpos
      refine ⟨ht, ht', ?_, hsema, hkept _ hex⟩
      rw [hlife]
      split_ifs with htc
      · rw [htc, hc] at hleft
        cases hleft
      · exact hleft
    · exact ⟨hpos.1, hkept _ hpos.2⟩
    · exact hpos
  · intro t ht
    rw [hsome]
    exact h.first t ht
  · exact h.answers.update (h.fresh c hc)

/-- `thread_exit`, with what is said about the position left open. -/
theorem WaitInv.left {s : Family} (h : WaitInv s) {c : Tid} {gone : Life} {p : Position}
    (hc : s.life c = .running ∨ s.life c = .exiting) (hgone : gone = .left ∨ gone = .freed)
    (hpos : PositionOk { s with
      children_thread_list := s.children_thread_list.erase c
      parent_wait_sema := Function.update s.parent_wait_sema c (s.parent_wait_sema c + 1)
      fate := if s.life c = Life.running then Function.update s.fate c (some (-1)) else s.fate
      life := Function.update s.life c gone
      position := p })
    (hfirst : ∀ t, p.child_tid = some t → (s.info t).isSome ∧ ¬ Served s.answers t) :
    WaitInv { s with
      children_thread_list := s.children_thread_list.erase c
      parent_wait_sema := Function.update s.parent_wait_sema c (s.parent_wait_sema c + 1)
      fate := if s.life c = Life.running then Function.update s.fate c (some (-1)) else s.fate
      life := Function.update s.life c gone
      position := p } := by
  have hlife : ∀ t, Function.update s.life c gone t = if t = c then gone else s.life t :=
    fun t => Function.update_apply s.life c gone t
  have hfate : ∀ t, t ≠ c ∨ s.life c ≠ .running →
      (if s.life c = Life.running then Function.update s.fate c (some (-1)) else s.fate) t =
        s.fate t := by
    intro t ht
    split_ifs with hrun
    · rw [Function.update_of_ne (ht.resolve_right fun hne => hne hrun)]
    · rfl
  -- only `c` is gone
  have hstill : ∀ t x, Function.update s.life c gone t = x → x ≠ .left → x ≠ .freed →
      t ≠ c ∧ s.life t = x := by
    rintro t x hx hleft hfreed
    rw [hlife] at hx
    split_ifs at hx with ht
    · rcases hgone with rfl | rfl
      · exact absurd hx.symm hleft
      · exact absurd hx.symm hfreed
    · exact ⟨ht, hx⟩
  constructor
  · intro t
    refine (h.known t).trans ?_
    show _ ↔ Function.update s.life c gone t ≠ _
    rw [hlife]
    split_ifs with ht
    · rw [ht]
      rcases hc with hc | hc <;> rcases hgone with rfl | rfl <;> rw [hc] <;> decide
    · rfl
  · intro t
    show t ∈ s.children_thread_list.erase c ↔ Function.update s.life c gone t = _ ∨
      Function.update s.life c gone t = _
    rw [h.nodup.mem_erase_iff, h.listed t, hlife]
    split_ifs with ht
    · rcases hgone with rfl | rfl <;> simp [ht]
    · simp [ht]
  · exact h.nodup.erase c
  · intro t i hi hex
    have hst := h.exited t i hi hex
    refine (hfate t ?_).trans hst
    -- one that has exited is not running
    by_cases ht : t = c
    · right
      intro hrun
      rw [ht, h.fresh c hrun] at hst
      cases hst
    · exact Or.inl ht
  · intro t i hi hl
    obtain ⟨-, hl⟩ := hstill t _ hl (by decide) (by decide)
    exact h.recorded t i hi hl
  · intro t hl
    obtain ⟨ht, hl⟩ := hstill t _ hl (by decide) (by decide)
    exact (hfate t (Or.inl ht)).trans (h.fresh t hl)
  · intro t hl
    obtain ⟨ht, hl⟩ := hstill t _ hl (by decide) (by decide)
    exact (hfate t (Or.inl ht)).trans (h.unborn t hl)
  · exact h.waited
  · intro t ht
    obtain ⟨hne, hmem⟩ := h.nodup.mem_erase_iff.mp ht
    show Function.update s.parent_wait_sema c _ t = 0
    rw [Function.update_of_ne hne]
    exact h.sema t hmem
  · exact hpos
  · exact hfirst
  · show AnswersOk (if _ then _ else _) s.answers
    split_ifs with hrun
    · exact h.answers.update (h.fresh c hrun)
    · exact h.answers

theorem WaitInv.leave {s : Family} (h : WaitInv s) {c : Tid}
    (hc : s.life c = .running ∨ s.life c = .exiting) (hok : WaitOk s (.leave c)) :
    WaitInv (child_leave s c) := by
  have hpos := h.position
  have hfirst := h.first
  unfold PositionOk at hpos
  unfold WaitOk at hok
  unfold child_leave
  cases hp : s.position with
  | outside => exact h.left hc (Or.inr rfl) trivial (by rw [← hp]; exact hfirst)
  | searching t temp e =>
    rw [hp] at hpos hok
    exact h.left hc (Or.inr rfl) ⟨hpos.1, hpos.2.erase hok.1 hok.2⟩ (by rw [← hp]; exact hfirst)
  | found t temp d =>
    rw [hp] at hpos hok
    obtain ⟨ht, hd, hmem⟩ := hpos
    exact h.left hc (Or.inr rfl) ⟨ht, hd, (List.mem_erase_of_ne (Ne.symm hok)).mpr hmem⟩
      (by rw [← hp]; exact hfirst)
  | asleep t temp d =>
    rw [hp] at hpos hok hfirst
    obtain ⟨ht, rfl, hmem⟩ := hpos
    dsimp only
    by_cases hdc : d = c
    · -- the wake-up: the parent finds the record written
      rw [if_pos hdc]
      obtain rfl := hdc
      have hex := hok rfl
      have hknown := (h.known d).mpr (by rw [hex]; decide)
      obtain ⟨i, hi⟩ := Option.isSome_iff_exists.mp hknown
      refine h.left hc (Or.inl rfl) ⟨ht, rfl, ?_, ?_, i, hi, h.recorded d i hi hex⟩ hfirst
      · exact Function.update_self d _ s.life
      · show Function.update s.parent_wait_sema d _ d ≠ 0
        rw [Function.update_self]
        exact Nat.succ_ne_zero _
    · rw [if_neg hdc]
      exact h.left hc (Or.inr rfl) ⟨ht, rfl, (List.mem_erase_of_ne hdc).mpr hmem⟩
        (by rw [← hp] at hfirst; rw [← hp]; exact hfirst)
  | woken t temp d =>
    rw [hp] at hpos
    obtain ⟨ht, rfl, hleft, hsema, hex⟩ := hpos
    have hne : d ≠ c := by
      rintro rfl
      rcases hc with hc | hc <;> rw [hleft] at hc <;> cases hc
    refine h.left hc (Or.inr rfl) ⟨ht, rfl, ?_, ?_, hex⟩ (by rw [← hp]; exact hfirst)
    · exact (Function.update_of_ne hne _ _).trans hleft
    · show Function.update s.parent_wait_sema c _ d ≠ 0
      rw [Function.update_of_ne hne]
      exact hsema
  | passed t temp =>
    rw [hp] at hpos
    exact h.left hc (Or.inr rfl) hpos (by rw [← hp]; exact hfirst)
  | crashed f =>
    rw [hp] at hpos
    exact hpos.elim

theorem WaitInv.free {s : Family} (h : WaitInv s) {c : Tid} (hc : s.life c = .left)
    (hok : WaitOk s (.free c)) :
    WaitInv { s with life := Function.update s.life c .freed } := by
  have hlife : ∀ t, Function.update s.life c .freed t = if t = c then .freed else s.life t :=
    fun t => Function.update_apply s.life c .freed t
  have hstill : ∀ t x, x ≠ .left → x ≠ .freed →
      (Function.update s.life c .freed t = x ↔ s.life t = x) := by
    intro t x hleft hfreed
    rw [hlife]
    split_ifs with ht
    · rw [ht, hc]
      exact ⟨fun hx => absurd hx.symm hfreed, fun hx => absurd hx.symm hleft⟩
    · rfl
  refine ⟨fun t => ?_, fun t => ?_, h.nodup, h.exited, fun t i hi hl => ?_, fun t hl => ?_,
    fun t hl => ?_, h.waited, h.sema, ?_, h.first, h.answers⟩
  · refine (h.known t).trans (not_congr ?_)
    exact (hstill t _ (by decide) (by decide)).symm
  · refine (h.listed t).trans (or_congr ?_ ?_)
    · exact (hstill t _ (by decide) (by decide)).symm
    · exact (hstill t _ (by decide) (by decide)).symm
  · exact h.recorded t i hi ((hstill t _ (by decide) (by decide)).mp hl)
  · exact h.fresh t ((hstill t _ (by decide) (by decide)).mp hl)
  · exact h.unborn t ((hstill t _ (by decide) (by decide)).mp hl)
  · have hpos := h.position
    unfold PositionOk at hpos ⊢
    cases hp : s.position with
    | woken t temp d =>
      rw [hp] at hpos
      obtain ⟨ht, rfl, hleft, hrest⟩ := hpos
      have hne : d ≠ c := fun hdc => hok d temp (hdc ▸ hp)
      exact ⟨ht, rfl, (Function.update_of_ne hne _ _).trans hleft, hrest⟩
    | _ =>
      rw [hp] at hpos
      exact hpos

theorem WaitInv.step {s s' : Family} (h : WaitInv s) {e : WaitEvent} (hok : WaitOk s e)
    (hs : wait_system.step s e s') : WaitInv s' := by
  cases e with
  | spawn c =>
    obtain ⟨hp, hc, rfl⟩ := hs
    exact h.spawn hp hc
  | call t =>
    obtain ⟨-, rfl⟩ := hs
    exact h.call hok
  | go => exact h.go hs
  | exit c status =>
    obtain ⟨hc, rfl⟩ := hs
    exact h.exit hc
  | leave c =>
    obtain ⟨hc, rfl⟩ := hs
    exact h.leave hc hok
  | free c =>
    obtain ⟨hc, rfl⟩ := hs
    exact h.free hc hok

/-! ## Whole runs -/

theorem Ends.outside {s : Family} (hp : s.position = .outside) : Ends s :=
  ⟨0, s, rfl, Or.inl hp⟩

theorem Ends.asleep {s : Family} {t temp c : Tid} (hp : s.position = .asleep t temp c) : Ends s :=
  ⟨0, s, rfl, Or.inr ⟨t, temp, c, hp⟩⟩

theorem Ends.go {s s' : Family} (hs : wait_go s = some s') (h : Ends s') : Ends s := by
  obtain ⟨n, r, hr, hp⟩ := h
  refine ⟨n + 1, r, ?_, hp⟩
  rw [wait_alone, hs]
  exact hr

theorem WaitInv.found_ends {s : Family} (h : WaitInv s) {t temp c : Tid}
    (hp : s.position = .found t temp c) : Ends s := by
  have hpos := h.position
  unfold PositionOk at hpos
  rw [hp] at hpos
  obtain ⟨rfl, rfl, hmem⟩ := hpos
  refine @Ends.go s { s with position := .asleep c c c } ?_ (Ends.asleep rfl)
  unfold wait_go
  rw [hp, ← h.wait_down_eq hmem]

theorem WaitInv.passed_ends {s : Family} (h : WaitInv s) {t temp : Tid}
    (hp : s.position = .passed t temp) : Ends s := by
  have hpos := h.position
  unfold PositionOk at hpos
  rw [hp] at hpos
  obtain ⟨rfl, i, hi, -⟩ := hpos
  refine @Ends.go s (s.answer temp i.exit_status) ?_ (Ends.outside rfl)
  unfold wait_go
  rw [hp]
  dsimp only
  unfold wait_return
  rw [hi]

/-- The loop comes to the child. -/
theorem WaitInv.searching_ends {s : Family} (h : WaitInv s) {t e : Tid}
    (hp : s.position = .searching t t e) (hahead : Ahead s.children_thread_list e t) : Ends s := by
  have hall : ∀ r, WaitInv r → r.children_thread_list = s.children_thread_list →
      r.position = .searching t t e → Ends r := by
    refine Ahead.induction (P := fun x => ∀ r, WaitInv r →
      r.children_thread_list = s.children_thread_list → r.position = .searching t t x → Ends r)
      h.nodup ?_ ?_ hahead
    · intro r hr hlist hpr
      have hgo := wait_go_search hpr (hr.search_at (hlist ▸ hahead.mem))
      exact Ends.go hgo ((hr.go hgo).found_ends rfl)
    · intro x d hxt hnext hd ih r hr hlist hpr
      have hx : x ∈ r.children_thread_list := by
        have hposr := hr.position
        unfold PositionOk at hposr
        rw [hpr] at hposr
        exact hposr.2.at_mem
      have hgo := wait_go_search hpr (hr.search_before hx hxt (hlist ▸ hnext))
      exact Ends.go hgo (ih _ (hr.go hgo) hlist rfl)
  exact hall s h rfl hp

/-- The parent left to itself returns or falls asleep. -/
theorem WaitInv.ends {s : Family} (h : WaitInv s) : Ends s := by
  have hpos := h.position
  unfold PositionOk at hpos
  cases hp : s.position with
  | outside => exact Ends.outside hp
  | searching t temp e =>
    rw [hp] at hpos
    obtain ⟨rfl, hahead⟩ := hpos
    exact h.searching_ends hp hahead
  | found t temp c => exact h.found_ends hp
  | asleep t temp c => exact Ends.asleep hp
  | woken t temp c =>
    rw [hp] at hpos
    obtain ⟨rfl, rfl, hleft, hsema, hex⟩ := hpos
    have hgo : wait_go s = some (wait_down s c c c) := by
      unfold wait_go
      rw [hp]
    refine Ends.go hgo ((h.go hgo).passed_ends (?_ : _ = Position.passed c c))
    unfold wait_down
    rw [if_neg (by rw [hleft]; decide), if_neg hsema]
  | passed t temp => exact h.passed_ends hp
  | crashed f =>
    rw [hp] at hpos
    exact hpos.elim

theorem WaitInv.contract {s : Family} (h : WaitInv s) : WaitContract s := by
  have hpos := h.position
  refine ⟨fun f hf => ?_, h.ends, h.answers, h.first, fun t temp c hc => ?_⟩
  · unfold PositionOk at hpos
    rw [hf] at hpos
    exact hpos
  · unfold PositionOk at hpos
    rw [hc] at hpos
    exact ⟨hpos.2.1, (h.listed t).mp hpos.2.2⟩

/-- **`process_wait`** keeps its contract in every run whose steps meet `WaitOk`. -/
theorem process_wait_contract {s : Family} (hr : Reachable wait_system WaitOk s) :
    WaitContract s := by
  have hinv : WaitInv s :=
    hr.invariant (fun _ h => WaitInv.init h) (fun _ _ _ hinv hok h => hinv.step hok h)
  exact hinv.contract

/-- A run of that kind: of two children the first is waited for while it runs, the second
after it has gone, and then once more. -/
theorem process_wait_contract_two : ∃ s, s.answers = [⟨2, true, -1⟩, ⟨2, true, 7⟩, ⟨1, true, 5⟩] ∧
    s.life 2 = .freed ∧ WaitContract s := by
  have hother : ¬ Served [⟨1, true, 5⟩] 2 := by
    rintro ⟨a, ha, ht, -⟩
    obtain rfl := List.mem_singleton.mp ha
    exact absurd ht (by decide)
  have r0 : Reachable wait_system WaitOk _ := .init rfl
  have r1 := r0.step (e := WaitEvent.spawn 1) trivial ⟨rfl, rfl, rfl⟩
  have r2 := r1.step (e := WaitEvent.spawn 2) trivial ⟨rfl, rfl, rfl⟩
  have r3 := r2.step (e := WaitEvent.call 1)
    ⟨fun _ => List.mem_cons_self, fun ⟨_, ha, _⟩ => absurd ha List.not_mem_nil⟩ ⟨rfl, rfl⟩
  have r4 := r3.step (e := WaitEvent.go) trivial rfl
  have r5 := r4.step (e := WaitEvent.go) trivial rfl
  have r6 := r5.step (e := WaitEvent.exit 1 5) trivial ⟨rfl, rfl⟩
  have r7 := r6.step (e := WaitEvent.leave 1) (fun _ => rfl) ⟨Or.inr rfl, rfl⟩
  have r8 := r7.step (e := WaitEvent.go) trivial rfl
  have r9 := r8.step (e := WaitEvent.free 1) (fun _ _ h => by cases h) ⟨rfl, rfl⟩
  have r10 := r9.step (e := WaitEvent.go) trivial rfl
  have r11 := r10.step (e := WaitEvent.exit 2 7) trivial ⟨rfl, rfl⟩
  have r12 := r11.step (e := WaitEvent.leave 2) trivial ⟨Or.inr rfl, rfl⟩
  have r13 := r12.step (e := WaitEvent.call 2)
    ⟨(by decide), fun hserved => absurd hserved hother⟩ ⟨rfl, rfl⟩
  have r14 := r13.step (e := WaitEvent.call 2) ⟨(by decide), fun _ => Or.inl rfl⟩ ⟨rfl, rfl⟩
  exact ⟨_, rfl, rfl, process_wait_contract r14⟩

/-- A child that is waited for while it runs never gets `waited` into its record: waiting for
it again returns its status again. -/
theorem wait_twice_returns_status : ∃ s, Reachable wait_system (fun _ _ => True) s ∧
    s.answers = [⟨1, true, 5⟩, ⟨1, true, 5⟩] ∧ ¬ WaitContract s := by
  have r0 : Reachable wait_system (fun _ _ => True) _ := .init rfl
  have r1 := r0.step (e := WaitEvent.spawn 1) trivial ⟨rfl, rfl, rfl⟩
  have r2 := r1.step (e := WaitEvent.call 1) trivial ⟨rfl, rfl⟩
  have r3 := r2.step (e := WaitEvent.go) trivial rfl
  have r4 := r3.step (e := WaitEvent.go) trivial rfl
  have r5 := r4.step (e := WaitEvent.exit 1 5) trivial ⟨rfl, rfl⟩
  have r6 := r5.step (e := WaitEvent.leave 1) trivial ⟨Or.inr rfl, rfl⟩
  have r7 := r6.step (e := WaitEvent.go) trivial rfl
  have r8 := r7.step (e := WaitEvent.free 1) trivial ⟨rfl, rfl⟩
  have r9 := r8.step (e := WaitEvent.go) trivial rfl
  have r10 := r9.step (e := WaitEvent.call 1) trivial ⟨rfl, rfl⟩
  refine ⟨_, r10, rfl, fun hcontract => ?_⟩
  have hvalue := hcontract.answers.2.1 fun hfirst =>
    hfirst.2 ⟨_, List.mem_cons_self, rfl, rfl⟩
  exact absurd hvalue (by decide)

end Pintos.Userprog
