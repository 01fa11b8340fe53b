/-
`process_execute` after a failed load, in any interleaving with the children.

The call looks its child up on `children_thread_list`, takes the thread it stopped at off
the list and releases its page, and does the same with the record on `child_info_list`.
Both loops stop at the last element when they do not find the tid. The child may long have
taken itself off the first list, or do so while the parent is in the loop, which has a step
for each element here; the second list only the parent changes. What the parent takes off
the lists and whose page it releases is kept as history, with the tid of the call.
-/
import Pintos.Userprog.Exec

set_option autoImplicit false

namespace Pintos.Userprog.Siblings

open StepSystem Walk
open Pintos.Userprog.Exec (Stage find_or_last)

/-! ## Data -/

/-- Where the parent stands in `process_execute`. -/
inductive Position
  | outside
  /-- Before the test of the flag. -/
  | created (tid : Option Tid)
  /-- In the first loop, at `e`. -/
  | searching (tid : Option Tid) (e : Tid)
  /-- Behind the loop, with `temp`. -/
  | dropping (tid : Option Tid) (temp : Tid)
  | crashed (f : Fault)
  deriving DecidableEq

/-- Something the call for `tid` did to the thread or to the record of `child`. -/
structure Deed where
  tid : Option Tid
  child : Tid
  deriving DecidableEq

/-- A parent and its children. -/
structure State where
  children_thread_list : List Tid
  child_info_list : List Tid
  child_load_failed : Bool
  stage : Tid → Stage
  position : Position
  removed : List Deed
  freed : List Deed
  forgotten : List Deed

/-! ## The parent -/

/-- The parent goes on. -/
def State.goto (s : State) (p : Position) : State := { s with position := p }

/-- `thread_create`. -/
def thread_create (s : State) : Option Tid → State
  | none => s.goto (.created none)
  | some c =>
    { s with
      children_thread_list := s.children_thread_list ++ [c]
      child_info_list := s.child_info_list ++ [c]
      stage := Function.update s.stage c .loading
      position := .created (some c) }

/-- The clean-up of `child_info_list`. -/
def forget (s : State) (tid : Option Tid) : State :=
  match find_or_last s.child_info_list tid with
  | none => s
  | some temp_info =>
    { s with
      child_info_list := s.child_info_list.erase temp_info
      forgotten := ⟨tid, temp_info⟩ :: s.forgotten }

/-- The test of the flag, up to the first loop. -/
def check (s : State) (tid : Option Tid) : State :=
  if s.child_load_failed then
    match s.children_thread_list with
    | [] => (forget s tid).goto .outside
    | e :: _ => s.goto (.searching tid e)
  else s.goto .outside

/-- One iteration of the loop. -/
def search (s : State) (tid : Option Tid) (e : Tid) : State :=
  if s.stage e = .gone then s.goto (.crashed .dangling)
  else if some e = tid then s.goto (.dropping tid e)
  else
    match list_next s.children_thread_list e with
    | some e' => s.goto (.searching tid e')
    | none => s.goto (.dropping tid e)

/-- `list_remove (&temp->elem_child); palloc_free_page (temp)`, and the clean-up of the
other list. The thread whose page is released has not left: it cannot run on. -/
def drop (s : State) (tid : Option Tid) (temp : Tid) : State :=
  if s.stage temp = .gone then s.goto (.crashed .dangling)
  else
    (forget { s with
      children_thread_list := s.children_thread_list.erase temp
      removed := ⟨tid, temp⟩ :: s.removed
      freed := ⟨tid, temp⟩ :: s.freed } tid).goto (.crashed .dangling)

/-- The next step of the parent in `process_execute`. -/
def go (s : State) : Except Unit State :=
  match s.position with
  | .created tid => .ok (check s tid)
  | .searching tid e => .ok (search s tid e)
  | .dropping tid temp => .ok (drop s tid temp)
  | _ => .error ()

/-! ## Runs -/

inductive Event
  /-- `process_execute`, up to the return of `thread_create`. -/
  | execute (tid : Option Tid)
  | go
  | load (c : Tid) (success : Bool)
  /-- The write of `child_load_failed`. -/
  | flag (c : Tid)
  | up (c : Tid)
  /-- `thread_exit`. -/
  | leave (c : Tid)

/-- A child goes on to its next stage. -/
def State.set_stage (s : State) (c : Tid) (g : Stage) : State :=
  { s with stage := Function.update s.stage c g }

/-- What an event does, where it can happen. -/
def exec (s : State) : Event → Except Unit State
  | .execute tid =>
    if s.position = .outside ∧ ∀ c ∈ tid, s.stage c = .absent then .ok (thread_create s tid)
    else .error ()
  | .go => Siblings.go s
  | .load c success =>
    if s.stage c = .loading then .ok (s.set_stage c (if success then .loaded else .failed))
    else .error ()
  | .flag c =>
    if s.stage c = .loaded then .ok { s.set_stage c .cleared with child_load_failed := false }
    else if s.stage c = .failed then .ok { s.set_stage c .flagged with child_load_failed := true }
    else .error ()
  | .up c => if s.stage c = .cleared then .ok (s.set_stage c .started) else .error ()
  | .leave c =>
    if s.stage c = .started ∨ s.stage c = .flagged then
      .ok { s.set_stage c .gone with
        children_thread_list := s.children_thread_list.erase c }
    else .error ()

/-- A process without children. -/
def start : State := ⟨[], [], false, fun _ => .absent, .outside, [], [], []⟩

def sibling_system : System State Event where
  init s := s = start
  step s e s' := exec s e = .ok s'

/-! ## The contract -/

/-- The parent has only ever dropped the child of the call it was in; every other child
that has not left is on `children_thread_list`, and every other child is on
`child_info_list`. -/
structure Spares (s : State) : Prop where
  removed : ∀ d ∈ s.removed, d.tid = some d.child
  freed : ∀ d ∈ s.freed, d.tid = some d.child
  forgotten : ∀ d ∈ s.forgotten, d.tid = some d.child
  listed : ∀ c, s.stage c ≠ .absent → s.stage c ≠ .gone → ⟨some c, c⟩ ∉ s.removed →
    c ∈ s.children_thread_list
  known : ∀ c, s.stage c ≠ .absent → ⟨some c, c⟩ ∉ s.forgotten → c ∈ s.child_info_list
  /-- The run goes on, unless the child of a failed call was dropped before it had left. -/
  crash : ∀ f, s.position = .crashed f → ∃ d, d ∈ s.freed

/-- When `process_execute` finds the flag up, the thread it created is on the list, or no
child is; and if it created none, there is no record either. -/
def TestOk (s : State) : Position → Prop
  | .created tid => s.child_load_failed = true →
      (s.children_thread_list = [] ∨ ∃ c ∈ s.children_thread_list, tid = some c) ∧
        (tid = none → s.child_info_list = [])
  | _ => True

/-- While the parent is in the loop, the child it looks for and the one it stands at do not
leave, and the one it has found does not before it is dropped. -/
def LeaveOk (c : Tid) : Position → Prop
  | .searching tid e => tid ≠ some c ∧ c ≠ e
  | .dropping _ temp => c ≠ temp
  | _ => True

/-- The condition on the steps of a run. -/
def SiblingOk (s : State) : Event → Prop
  | .go => TestOk s s.position
  | .leave c => LeaveOk c s.position
  | _ => True

instance (s : State) (e : Event) : Decidable (SiblingOk s e) :=
  match e with
  | .go =>
    match hp : s.position with
    | .created tid => decidable_of_iff (s.child_load_failed = true →
        (s.children_thread_list = [] ∨ ∃ c ∈ s.children_thread_list, tid = some c) ∧
          (tid = none → s.child_info_list = [])) (by rw [SiblingOk, hp]; rfl)
    | .outside | .searching .. | .dropping .. | .crashed _ =>
      isTrue (by rw [SiblingOk, hp]; trivial)
  | .leave c =>
    match hp : s.position with
    | .searching tid e => decidable_of_iff (tid ≠ some c ∧ c ≠ e) (by rw [SiblingOk, hp]; rfl)
    | .dropping _ temp => decidable_of_iff (c ≠ temp) (by rw [SiblingOk, hp]; rfl)
    | .outside | .created _ | .crashed _ => isTrue (by rw [SiblingOk, hp]; trivial)
  | .execute _ | .load .. | .flag _ | .up _ => isTrue trivial

/-! ## The invariant -/

/-- Where the parent is in the clean-up, the child of the call is ahead, or found. -/
def PositionOk (s : State) : Position → Prop
  | .outside => True
  | .created tid => ∀ c, tid = some c → s.stage c ≠ .absent ∧ c ∈ s.child_info_list
  | .searching tid e => ∃ c, tid = some c ∧ c ∈ s.child_info_list ∧
      Ahead s.children_thread_list e c
  | .dropping tid temp => tid = some temp ∧ temp ∈ s.child_info_list ∧
      temp ∈ s.children_thread_list
  | .crashed _ => ∃ d, d ∈ s.freed

structure SiblingInv (s : State) : Prop where
  spares : Spares s
  /-- The list holds children that have not left, each once. -/
  present : ∀ c ∈ s.children_thread_list, s.stage c ≠ .absent ∧ s.stage c ≠ .gone
  nodup : s.children_thread_list.Nodup
  position : PositionOk s s.position

theorem SiblingInv.start : SiblingInv start where
  spares := ⟨by simp [Siblings.start], by simp [Siblings.start], by simp [Siblings.start],
    fun c hc => absurd rfl hc, fun c hc => absurd rfl hc, fun f hf => by cases hf⟩
  present := by simp [Siblings.start]
  nodup := List.nodup_nil
  position := trivial

/-! ## What the clean-up finds -/

section Find

variable {l : List Tid} {c : Tid}

/-- The element looked for is found where it is on the list. -/
theorem find_or_last_mem (h : c ∈ l) : find_or_last l (some c) = some c := by
  have hfind : l.find? (fun t => some t = some c) = some c := by
    cases hf : l.find? (fun t => some t = some c) with
    | none =>
      have hno := List.find?_eq_none.mp hf c h
      exact absurd (decide_eq_true rfl) hno
    | some d =>
      have hd := List.find?_some hf
      rw [Option.some.inj (of_decide_eq_true hd)]
  rw [find_or_last, hfind]

theorem find_or_last_nil (tid : Option Tid) : find_or_last [] tid = none := rfl

end Find

section Steps

variable {s s' : State} {c : Tid}

/-- The record of the call's own child goes, and no other. -/
theorem forget_own (h : c ∈ s.child_info_list) : forget s (some c) =
    { s with
      child_info_list := s.child_info_list.erase c
      forgotten := ⟨some c, c⟩ :: s.forgotten } := by
  rw [forget, find_or_last_mem h]

theorem forget_none (h : s.child_info_list = []) : forget s none = s := by
  rw [forget, h, find_or_last_nil]

/-- Only the position changes. -/
theorem SiblingInv.move (h : SiblingInv s) {p : Position} (hcrash : ∀ f, p ≠ .crashed f)
    (hp : PositionOk s p) : SiblingInv (s.goto p) where
  spares := ⟨h.spares.removed, h.spares.freed, h.spares.forgotten, h.spares.listed,
    h.spares.known, fun f hf => absurd hf (hcrash f)⟩
  present := h.present
  nodup := h.nodup
  position := by
    cases p with
    | crashed f => exact absurd rfl (hcrash f)
    | _ => exact hp

/-- The record of the call's own child is dropped. -/
theorem Spares.forget_own (h : Spares s) (hc : c ∈ s.child_info_list) :
    Spares (forget s (some c)) := by
  rw [Siblings.forget_own hc]
  refine ⟨h.removed, h.freed, ?_, h.listed, ?_, h.crash⟩
  · intro d hd
    rcases List.mem_cons.mp hd with rfl | hd
    · rfl
    · exact h.forgotten d hd
  · intro d habsent hnot
    have hne : d ≠ c := by
      rintro rfl
      exact hnot List.mem_cons_self
    exact (List.mem_erase_of_ne hne).mpr
      (h.known d habsent fun hmem => hnot (List.mem_cons_of_mem _ hmem))

/-! ## The steps -/

theorem SiblingInv.thread_create (h : SiblingInv s) {tid : Option Tid}
    (hnew : ∀ c ∈ tid, s.stage c = .absent) : SiblingInv (thread_create s tid) := by
  cases tid with
  | none => exact h.move (fun f hf => by cases hf) (fun c hc => by cases hc)
  | some c =>
    have habsent : s.stage c = .absent := hnew c rfl
    have hold : ∀ d, d ≠ c → Function.update s.stage c .loading d = s.stage d :=
      fun d hd => Function.update_of_ne hd _ _
    have hself : Function.update s.stage c .loading c = .loading := Function.update_self _ _ _
    refine ⟨⟨h.spares.removed, h.spares.freed, h.spares.forgotten, ?_, ?_,
      fun f hf => (by cases hf)⟩, ?_, ?_, ?_⟩
    · intro d hne hgone hnot
      by_cases hd : d = c
      · exact List.mem_append_right _ (List.mem_singleton.mpr hd)
      · refine List.mem_append_left _ (h.spares.listed d ?_ ?_ hnot)
        · rwa [← hold d hd]
        · rwa [← hold d hd]
    · intro d hne hnot
      by_cases hd : d = c
      · exact List.mem_append_right _ (List.mem_singleton.mpr hd)
      · refine List.mem_append_left _ (h.spares.known d ?_ hnot)
        rwa [← hold d hd]
    · intro d hd
      change Function.update s.stage c .loading d ≠ .absent ∧
        Function.update s.stage c .loading d ≠ .gone
      rcases List.mem_append.mp hd with hd | hd
      · have hpresent := h.present d hd
        have hdc : d ≠ c := fun hdc => hpresent.1 (hdc ▸ habsent)
        rwa [hold d hdc]
      · rw [List.mem_singleton.mp hd, hself]
        exact ⟨by decide, by decide⟩
    · change (s.children_thread_list ++ [c]).Nodup
      rw [List.nodup_append]
      refine ⟨h.nodup, List.nodup_singleton c, ?_⟩
      rintro d hd e he rfl
      rw [List.mem_singleton.mp he] at hd
      exact (h.present c hd).1 habsent
    · rintro d hd
      obtain rfl := Option.some.inj hd
      refine ⟨?_, List.mem_append_right _ (List.mem_singleton.mpr rfl)⟩
      change Function.update s.stage c .loading c ≠ .absent
      rw [hself]
      decide

/-- A child that has not left goes on; it may write the flag. -/
theorem SiblingInv.stage (h : SiblingInv s) {g : Stage} (flag : Bool)
    (hc : s.stage c ≠ .absent) (hc' : s.stage c ≠ .gone) (hg : g ≠ .absent) (hg' : g ≠ .gone) :
    SiblingInv { s.set_stage c g with child_load_failed := flag } := by
  have hiff : ∀ d, (Function.update s.stage c g d ≠ .absent ↔ s.stage d ≠ .absent) ∧
      (Function.update s.stage c g d ≠ .gone ↔ s.stage d ≠ .gone) := by
    intro d
    by_cases hd : d = c
    · rw [hd, Function.update_self]
      exact ⟨iff_of_true hg hc, iff_of_true hg' hc'⟩
    · rw [Function.update_of_ne hd]
      exact ⟨Iff.rfl, Iff.rfl⟩
  refine ⟨⟨h.spares.removed, h.spares.freed, h.spares.forgotten, ?_, ?_, h.spares.crash⟩, ?_,
    h.nodup, ?_⟩
  · intro d hne hgone hnot
    exact h.spares.listed d ((hiff d).1.mp hne) ((hiff d).2.mp hgone) hnot
  · intro d hne hnot
    exact h.spares.known d ((hiff d).1.mp hne) hnot
  · intro d hd
    exact ⟨(hiff d).1.mpr (h.present d hd).1, (hiff d).2.mpr (h.present d hd).2⟩
  · have hpos := h.position
    change PositionOk _ s.position
    cases hp : s.position with
    | created tid =>
      rw [hp] at hpos
      exact fun d hd => ⟨(hiff d).1.mpr (hpos d hd).1, (hpos d hd).2⟩
    | _ =>
      rw [hp] at hpos
      exact hpos

theorem SiblingInv.leave (h : SiblingInv s) (hc : s.stage c ≠ .absent)
    (hok : LeaveOk c s.position) :
    SiblingInv { s.set_stage c .gone with
      children_thread_list := s.children_thread_list.erase c } := by
  have hold : ∀ d, d ≠ c → Function.update s.stage c .gone d = s.stage d :=
    fun d hd => Function.update_of_ne hd _ _
  refine ⟨⟨h.spares.removed, h.spares.freed, h.spares.forgotten, ?_, ?_, h.spares.crash⟩, ?_,
    h.nodup.erase c, ?_⟩
  · intro d hne hgone hnot
    have hd : d ≠ c := by
      rintro rfl
      exact hgone (Function.update_self _ _ _)
    refine (List.mem_erase_of_ne hd).mpr (h.spares.listed d ?_ ?_ hnot)
    · rwa [← hold d hd]
    · rwa [← hold d hd]
  · intro d hne hnot
    refine h.spares.known d ?_ hnot
    by_cases hd : d = c
    · rwa [hd]
    · rwa [← hold d hd]
  · intro d hd
    have hmem := h.nodup.mem_erase_iff.mp hd
    change Function.update s.stage c .gone d ≠ .absent ∧
      Function.update s.stage c .gone d ≠ .gone
    rw [hold d hmem.1]
    exact h.present d hmem.2
  · have hpos := h.position
    change PositionOk _ s.position
    cases hp : s.position with
    | created tid =>
      rw [hp] at hpos
      intro d hd
      refine ⟨?_, (hpos d hd).2⟩
      change Function.update s.stage c .gone d ≠ .absent
      by_cases hdc : d = c
      · rw [hdc, Function.update_self]
        decide
      · rw [hold d hdc]
        exact (hpos d hd).1
    | searching tid e =>
      rw [hp] at hpos hok
      obtain ⟨d, htid, hinfo, hahead⟩ := hpos
      refine ⟨d, htid, hinfo, hahead.erase ?_ hok.2⟩
      rintro rfl
      exact hok.1 htid
    | dropping tid temp =>
      rw [hp] at hpos hok
      exact ⟨hpos.1, hpos.2.1, (List.mem_erase_of_ne fun heq => hok heq.symm).mpr hpos.2.2⟩
    | outside => trivial
    | crashed f =>
      rw [hp] at hpos
      exact hpos

/-- The parent tests the flag. -/
theorem SiblingInv.check (h : SiblingInv s) {tid : Option Tid} (hp : s.position = .created tid)
    (hok : TestOk s s.position) : SiblingInv (check s tid) := by
  have hpos := h.position
  rw [hp] at hpos hok
  unfold Siblings.check
  by_cases hflag : s.child_load_failed = true
  · rw [if_pos hflag]
    obtain ⟨hlist, hnone⟩ := hok hflag
    cases hl : s.children_thread_list with
    | nil =>
      -- no child is left: the loop is skipped
      dsimp only
      cases tid with
      | none =>
        rw [forget_none (hnone rfl)]
        exact h.move (fun f hf => by cases hf) trivial
      | some c =>
        have hinfo := (hpos c rfl).2
        have hspares := h.spares.forget_own hinfo
        rw [forget_own hinfo] at hspares ⊢
        exact ⟨⟨hspares.removed, hspares.freed, hspares.forgotten, hspares.listed, hspares.known,
          fun f hf => (by cases hf)⟩, h.present, h.nodup, trivial⟩
    | cons e rest =>
      dsimp only
      rcases hlist with hnil | ⟨c, hmem, rfl⟩
      · rw [hl] at hnil
        cases hnil
      · refine h.move (fun f hf => by cases hf) ⟨c, rfl, (hpos c rfl).2, ?_⟩
        rw [hl] at hmem ⊢
        exact Ahead.head hmem
  · rw [if_neg hflag]
    exact h.move (fun f hf => by cases hf) trivial

/-- One iteration: the child of the call stays ahead until it is found. -/
theorem SiblingInv.search (h : SiblingInv s) {tid : Option Tid} {e : Tid}
    (hp : s.position = .searching tid e) : SiblingInv (search s tid e) := by
  have hpos := h.position
  rw [hp] at hpos
  obtain ⟨c, rfl, hinfo, hahead⟩ := hpos
  unfold Siblings.search
  rw [if_neg (h.present e hahead.at_mem).2]
  by_cases hec : some e = some c
  · rw [if_pos hec]
    obtain rfl := Option.some.inj hec
    exact h.move (fun f hf => by cases hf) ⟨rfl, hinfo, hahead.at_mem⟩
  · rw [if_neg hec]
    have hne : e ≠ c := fun heq => hec (congrArg some heq)
    obtain ⟨d, hnext, hahead'⟩ := hahead.advance h.nodup hne
    rw [hnext]
    exact h.move (fun f hf => by cases hf) ⟨c, rfl, hinfo, hahead'⟩

/-- The parent drops the child of its call, and no other. -/
theorem SiblingInv.drop (h : SiblingInv s) {tid : Option Tid} {temp : Tid}
    (hp : s.position = .dropping tid temp) : SiblingInv (drop s tid temp) := by
  have hpos := h.position
  rw [hp] at hpos
  obtain ⟨rfl, hinfo, hmem⟩ := hpos
  unfold Siblings.drop
  have hforget := @Siblings.forget_own { s with
    children_thread_list := s.children_thread_list.erase temp
    removed := ⟨some temp, temp⟩ :: s.removed
    freed := ⟨some temp, temp⟩ :: s.freed } temp hinfo
  rw [if_neg (h.present temp hmem).2, hforget]
  have hspares := h.spares.forget_own hinfo
  rw [Siblings.forget_own hinfo] at hspares
  have hown : ∀ (l : List Deed), (∀ d ∈ l, d.tid = some d.child) →
      ∀ d ∈ (⟨some temp, temp⟩ :: l : List Deed), d.tid = some d.child := by
    intro l hl d hd
    rcases List.mem_cons.mp hd with rfl | hd
    · rfl
    · exact hl d hd
  refine ⟨⟨hown _ h.spares.removed, hown _ h.spares.freed, hspares.forgotten, ?_, hspares.known,
    fun f _ => ⟨_, List.mem_cons_self⟩⟩, ?_, h.nodup.erase temp, ⟨_, List.mem_cons_self⟩⟩
  · intro d hne hgone hnot
    have hd : d ≠ temp := by
      rintro rfl
      exact hnot List.mem_cons_self
    exact (List.mem_erase_of_ne hd).mpr
      (h.spares.listed d hne hgone fun hold => hnot (List.mem_cons_of_mem _ hold))
  · intro d hd
    exact h.present d (List.mem_of_mem_erase hd)

theorem SiblingInv.exec {e : Event} (h : SiblingInv s) (hok : SiblingOk s e)
    (hs : exec s e = .ok s') : SiblingInv s' := by
  cases e with
  | execute tid =>
    unfold Siblings.exec at hs
    by_cases hcond : s.position = .outside ∧ ∀ c ∈ tid, s.stage c = .absent
    · simp only [if_pos hcond] at hs
      rw [← Except.ok.inj hs]
      exact h.thread_create hcond.2
    · simp only [if_neg hcond] at hs
      cases hs
  | go =>
    unfold Siblings.exec Siblings.go at hs
    cases hp : s.position with
    | created tid =>
      simp only [hp] at hs
      rw [← Except.ok.inj hs]
      exact h.check hp hok
    | searching tid e =>
      simp only [hp] at hs
      rw [← Except.ok.inj hs]
      exact h.search hp
    | dropping tid temp =>
      simp only [hp] at hs
      rw [← Except.ok.inj hs]
      exact h.drop hp
    | outside =>
      simp only [hp] at hs
      cases hs
    | crashed f =>
      simp only [hp] at hs
      cases hs
  | load c success =>
    unfold Siblings.exec at hs
    by_cases hcond : s.stage c = .loading
    · simp only [if_pos hcond] at hs
      rw [← Except.ok.inj hs]
      refine h.stage s.child_load_failed ?_ ?_ ?_ ?_
      · rw [hcond]; decide
      · rw [hcond]; decide
      · cases success <;> decide
      · cases success <;> decide
    · simp only [if_neg hcond] at hs
      cases hs
  | flag c =>
    unfold Siblings.exec at hs
    by_cases hloaded : s.stage c = .loaded
    · simp only [if_pos hloaded] at hs
      rw [← Except.ok.inj hs]
      exact h.stage false (by rw [hloaded]; decide) (by rw [hloaded]; decide) (by decide)
        (by decide)
    · simp only [if_neg hloaded] at hs
      by_cases hfailed : s.stage c = .failed
      · simp only [if_pos hfailed] at hs
        rw [← Except.ok.inj hs]
        exact h.stage true (by rw [hfailed]; decide) (by rw [hfailed]; decide) (by decide)
          (by decide)
      · simp only [if_neg hfailed] at hs
        cases hs
  | up c =>
    unfold Siblings.exec at hs
    by_cases hcond : s.stage c = .cleared
    · simp only [if_pos hcond] at hs
      rw [← Except.ok.inj hs]
      exact h.stage s.child_load_failed (by rw [hcond]; decide) (by rw [hcond]; decide)
        (by decide) (by decide)
    · simp only [if_neg hcond] at hs
      cases hs
  | leave c =>
    unfold Siblings.exec at hs
    by_cases hcond : s.stage c = .started ∨ s.stage c = .flagged
    · simp only [if_pos hcond] at hs
      rw [← Except.ok.inj hs]
      refine h.leave ?_ hok
      rcases hcond with hc | hc
      · rw [hc]; decide
      · rw [hc]; decide
    · simp only [if_neg hcond] at hs
      cases hs

end Steps

/-- **A failed `process_execute` spares the siblings** in every run whose steps meet the
condition. -/
theorem spares_siblings {s : State} (h : Reachable sibling_system SiblingOk s) : Spares s := by
  have hinv : SiblingInv s := by
    refine Reachable.invariant ?_ ?_ h
    · rintro r rfl
      exact SiblingInv.start
    · exact fun r e r' hi hok hs => hi.exec hok hs
  exact hinv.spares

/-! ## Two runs -/

/-- Child 1 is started. -/
def first_child : List Event := [.execute (some 1), .load 1 true, .flag 1, .up 1, .go]

/-- The load of child 2 fails. -/
def second_child : List Event := [.execute (some 2), .load 2 false, .flag 2]

/-- The failed child is found before it leaves: it is dropped, and its sibling stays. -/
theorem spares_siblings_small : ∃ s, Reachable sibling_system SiblingOk s ∧ Spares s ∧
    s.removed = [⟨some 2, 2⟩] ∧ s.children_thread_list = [1] := by
  have hrun : follow exec (fun s e => decide (SiblingOk s e))
      (fun s => s.removed == [⟨some 2, 2⟩] && s.children_thread_list == [1]) start
      (first_child ++ second_child ++ [.go, .go, .go, .go]) = true := by
    decide +kernel
  have hstart : Reachable sibling_system (fun s e => decide (SiblingOk s e) = true) start :=
    .init rfl
  obtain ⟨s, hreach, hs⟩ := follow_reachable (fun _ _ _ h => h) hstart hrun
  have hreach' : Reachable sibling_system SiblingOk s :=
    hreach.weaken (fun _ _ h => of_decide_eq_true h)
  rw [Bool.and_eq_true, beq_iff_eq, beq_iff_eq] at hs
  exact ⟨s, hreach', spares_siblings hreach', hs⟩

/-- **A sibling is dropped.** The failed child has taken itself off the list: the loop stops
at the other child, which is taken off and its page released. -/
theorem drops_sibling :
    ¬ ∀ s, Reachable sibling_system (fun _ _ => True) s → Spares s := by
  intro hall
  have hrun : follow exec (fun _ _ => true) (fun s => s.removed == [⟨some 2, 1⟩]) start
      (first_child ++ second_child ++ [.leave 2, .go, .go, .go]) = true := by
    decide +kernel
  have hstart : Reachable sibling_system (fun _ _ => true = true) start := .init rfl
  obtain ⟨s, hreach, hs⟩ := follow_reachable (fun _ _ _ h => h) hstart hrun
  have hspares := hall s (hreach.weaken fun _ _ _ => trivial)
  have hown := hspares.removed ⟨some 2, 1⟩ (by rw [eq_of_beq hs]; exact List.mem_singleton_self _)
  cases hown

end Pintos.Userprog.Siblings
