/-
Whom `sema_up` and `cond_signal` wake (`threads/synch.c`).

Both take the last waiter of a list that is put in order when a waiter is inserted and never
again; the `list_sort` in `sema_up` is commented out. A donation can reach a thread that
waits, and then the order is that of old priorities. A condition variable goes by copies of
the priorities, which `cond_wait` makes before it inserts them, so that a donation can also
come in between. In the runs where no written priority spoils the order of a list, and where
a new waiter of a condition variable finds copies that compare with its own as the priorities
do, both wake a waiter of the highest priority.
-/
import Pintos.Threads.Condition
import Pintos.Threads.Dispatch
import Pintos.Threads.Residue

set_option autoImplicit false

namespace Pintos.Threads.Machine

open StepSystem Fifo

/-! ## Lists in order -/

/-- The threads on every `sema->waiters` are in ascending order of these priorities. -/
def SemaInOrder (s : Kernel) (priority : Tid → ℤ) : Prop :=
  ∀ i, (s.sema i).waiters.Pairwise (fun a b => priority a ≤ priority b)

/-- The thread has this `struct semaphore_elem` on its stack: it is going to return from that
call of `cond_wait`. -/
def WaitsAs (s : Kernel) (d : CondId) (w : WaiterId) (t : Tid) : Prop :=
  .cond_return d w ∈ (s.thread t).code

/-- The threads on every `cond->waiters` are in ascending order of these priorities. -/
def CondInOrder (s : Kernel) (priority : Tid → ℤ) : Prop :=
  ∀ d, (s.cond d).waiters.Pairwise (fun a b => ∀ t u,
    WaitsAs s d a.waiter t → WaitsAs s d b.waiter u → priority t ≤ priority u)

/-! ## What is required of a statement -/

/-- The priorities after a statement that may write that of a thread which waits. -/
def rewritten (s : Kernel) : Stmt → Option (Tid → ℤ)
  | .donation_write low _ => some (Function.update s.priority low s.cur.priority)
  | .nested_write high low => some (Function.update s.priority low (s.priority high))
  | .rollback_original => some (Function.update s.priority s.current s.cur.original_priority)
  | .rollback_back => s.cur.possessing_locks.getLast?.map
      (fun e => Function.update s.priority s.current e.priority)
  | _ => none

/-- The copies on the list compare with the copy `p` that the running thread has made as the
priorities of their threads do with its own. -/
def CopiesCompare (s : Kernel) (d : CondId) (p : ℤ) : Prop :=
  ∀ e ∈ (s.cond d).waiters, ∀ t, WaitsAs s d e.waiter t →
    (e.priority < p → s.priority t ≤ s.cur.priority) ∧
    (p ≤ e.priority → s.cur.priority ≤ s.priority t)

/-- A statement leaves the waiters in order. -/
structure KeepsOrder (s : Kernel) (c : Stmt) : Prop where
  sema : ∀ priority ∈ rewritten s c, SemaInOrder s priority
  cond : ∀ priority ∈ rewritten s c, CondInOrder s priority
  copies : ∀ d p, c = .cond_enter d p → CopiesCompare s d p

/-- What is required of a step. -/
def OrderOk (s : Kernel) : Event → Prop
  | .go => ∀ p ∈ pop_stmt s, KeepsOrder p.2 p.1
  | _ => True

variable {s s' r : Kernel} {c : Stmt} {rest : List Stmt} {d : CondId} {w : WaiterId} {t : Tid}

/-! ## What statements write -/

/-- The statements of `thread_set_priority` and `thread_set_nice`. -/
def Stmt.own : Stmt → Bool
  | .thread_set_priority _ | .set_priority _ | .set_original _ | .set_priority_yield _
  | .thread_set_nice _ => true
  | _ => false

theorem pushes_own {x : Stmt} (hx : x ∈ pushes s c) : x.own = c.own := by
  have hall : (pushes s c).all (fun x => x.own == c.own) = true := by
    cases c with
    | _ =>
      dsimp only [pushes]
      repeat' split
      all_goals rfl
  exact beq_iff_eq.mp (List.all_eq_true.mp hall x hx)

theorem exec_rewritten {priority : Tid → ℤ} (hp : priority ∈ rewritten s c)
    (hs : exec s c = .ok s') (t : Tid) : s'.priority t = priority t := by
  rw [show s'.priority t = _ from congrArg Account.priority (exec_account hs t)]
  show ((effect s c).thread t).priority = _
  cases c with
  | donation_write low m =>
    obtain rfl := Option.some.inj hp
    exact write_priority_priority s s.current low t
  | nested_write high low =>
    obtain rfl := Option.some.inj hp
    exact write_priority_priority s high low t
  | rollback_original =>
    obtain rfl := Option.some.inj hp
    dsimp only [effect, rollback_original]
    rw [set_thread_apply, Function.update_apply]
    split_ifs <;> rfl
  | rollback_back =>
    obtain ⟨e, he, rfl⟩ := Option.map_eq_some_iff.mp hp
    dsimp only [effect]
    rw [he]
    dsimp only
    rw [set_thread_apply, Function.update_apply]
    split_ifs <;> rfl
  | _ => cases hp

theorem exec_unwritten (hnone : rewritten s c = none) (hown : c.own = true → t ≠ s.current)
    (hnew : ∀ p, c ≠ .thread_create t p) (htick : c ≠ .mlfqs_tick_change)
    (hs : exec s c = .ok s') : s'.priority t = s.priority t := by
  rw [show s'.priority t = _ from congrArg Account.priority (exec_account hs t)]
  show ((effect s c).thread t).priority = _
  by_cases hcreate : ∃ u p, c = .thread_create u p
  · obtain ⟨u, p, rfl⟩ := hcreate
    obtain ⟨code, heq⟩ := effect_create s u p t
    rw [heq, if_neg]
    rintro rfl
    exact hnew p rfl
  by_cases hwrites : .priority ∈ c.writes
  swap
  · exact (effect_thread s (fun u p heq => hcreate ⟨u, p, heq⟩) t).priority hwrites
  cases c with
  | set_priority n =>
    exact congrArg Thread.priority
      (set_thread_of_ne s (fun th => { th with priority := n }) (hown rfl))
  | thread_set_nice n => exact congrArg Thread.priority (set_thread_of_ne s _ (hown rfl))
  | rollback_back =>
    have hlast : s.cur.possessing_locks.getLast? = none := Option.map_eq_none_iff.mp hnone
    dsimp only [effect]
    rw [hlast]
  | mlfqs_tick_change => exact absurd rfl htick
  | donation_write | nested_write | rollback_original => cases hnone
  | _ => simp [Stmt.writes] at hwrites

/-! ## Priority mode -/

/-- The priorities are not those of the other scheduler, and a thread in `thread_set_priority`
or `thread_set_nice` is in nothing else. -/
structure ModeInv (s : Kernel) : Prop where
  mlfqs : s.thread_mlfqs = false
  timed : ∀ t, ∀ c ∈ (s.thread t).code, c ≠ .timer_interrupt ∧ c ≠ .mlfqs_tick_change
  intr_code : .mlfqs_tick_change ∉ s.intr_code
  own : ∀ t, ∀ c ∈ (s.thread t).code, ∀ x ∈ (s.thread t).code, x.own = c.own

theorem ModeInv.congr (h : ModeInv s) (hmlfqs : s'.thread_mlfqs = s.thread_mlfqs)
    (hcode : ∀ t, (s'.thread t).code = (s.thread t).code) (hintr : s'.intr_code = s.intr_code) :
    ModeInv s' := by
  refine ⟨hmlfqs.trans h.mlfqs, fun t => ?_, ?_, fun t => ?_⟩
  · rw [hcode]
    exact h.timed t
  · rw [hintr]
    exact h.intr_code
  · rw [hcode]
    exact h.own t

theorem pushes_tick (hmlfqs : s.thread_mlfqs = false) : .mlfqs_tick_change ∉ pushes s c := by
  intro h
  cases c with
  | timer_interrupt =>
    dsimp only [pushes] at h
    rw [if_neg (by rw [hmlfqs]; decide)] at h
    simp at h
  | _ =>
    dsimp only [pushes] at h
    repeat' split at h
    all_goals simp at h

theorem pushes_timer : .timer_interrupt ∉ pushes s c := by
  intro h
  cases c with
  | _ =>
    dsimp only [pushes] at h
    repeat' split at h
    all_goals simp at h

theorem ModeInv.push {l : List Stmt} (h : ModeInv s) (hx : s.in_external_intr = false)
    (hcur : s.cur.code = []) (hl : Called l) : ModeInv (s.push l) := by
  have hframe := (Frame.refl s .thread_yield).push l
  have hnew : ∀ t, ((s.push l).thread t).code = if t = s.current then l else (s.thread t).code := by
    intro t
    rw [push_code]
    by_cases ht : t = s.current
    · rw [if_pos ⟨hx, ht⟩, if_pos ht, ht, show (s.thread s.current).code = [] from hcur,
        List.append_nil]
    · rw [if_neg fun hc => ht hc.2, if_neg ht]
  have hintr : (s.push l).intr_code = s.intr_code := by
    unfold Kernel.push
    rw [if_neg (by rw [hx]; decide)]
    rfl
  refine ⟨hframe.thread_mlfqs.trans h.mlfqs, fun t => ?_, ?_, fun t => ?_⟩
  · rw [hnew]
    split_ifs
    · cases hl with
      | call hc =>
        rintro c hmem
        obtain rfl := List.mem_singleton.mp hmem
        exact ⟨by rintro rfl; exact hc, by rintro rfl; exact hc⟩
      | idle => simp
    · exact h.timed t
  · rw [hintr]
    exact h.intr_code
  · rw [hnew]
    split_ifs
    · cases hl with
      | call hc =>
        rintro c hc x hx
        rw [List.mem_singleton.mp hc, List.mem_singleton.mp hx]
      | idle => simp [Stmt.own]
    · exact h.own t

theorem ModeInv.thread (h : ModeInv s) (hgo : ThreadGo s c r s' rest) : ModeInv s' := by
  have hmlfqs : r.thread_mlfqs = false := by
    rw [hgo.popped]
    exact h.mlfqs
  have hc : c ∈ (s.thread s.current).code := by
    rw [hgo.before]
    exact List.mem_cons_self
  -- what is ahead of the running thread is like the statement that it has executed
  have hcur : ∀ x ∈ (s'.thread s.current).code, x.own = c.own := by
    intro x hx
    rcases hgo.mem_code hx with ⟨-, hnew⟩ | ⟨hold, -⟩
    · exact pushes_own hnew
    · exact h.own s.current c hc x hold
  refine ⟨(exec_mlfqs hgo.exec).trans hmlfqs, fun t x hx => ?_, ?_, fun t => ?_⟩
  · rcases hgo.mem_code hx with ⟨-, hnew⟩ | ⟨hold, -⟩
    · refine ⟨?_, ?_⟩
      · rintro rfl
        exact pushes_timer hnew
      · rintro rfl
        exact pushes_tick hmlfqs hnew
    · exact h.timed t x hold
  · rw [hgo.intr_code]
    exact h.intr_code
  · by_cases ht : t = s.current
    · rw [ht]
      exact fun y hy x hx => (hcur x hx).trans (hcur y hy).symm
    · rw [hgo.code t ht]
      exact h.own t

theorem ModeInv.handler (h : ModeInv s) (hgo : HandlerGo s c r s' rest) : ModeInv s' := by
  have hmlfqs : r.thread_mlfqs = false := by
    rw [hgo.popped]
    exact h.mlfqs
  refine ⟨(exec_mlfqs hgo.exec).trans hmlfqs, fun t => ?_, ?_, fun t => ?_⟩
  · rw [hgo.code]
    exact h.timed t
  · rw [hgo.after, List.mem_append, not_or]
    refine ⟨pushes_tick hmlfqs, fun hmem => h.intr_code ?_⟩
    rw [hgo.before]
    exact List.mem_cons_of_mem c hmem
  · rw [hgo.code]
    exact h.own t

theorem ModeInv.thread_start {u : Setup} (hu : u.mlfqs = false) :
    ModeInv (Machine.thread_start u) := by
  have hcode := thread_start_code u
  have hnil : (Machine.thread_start u).intr_code = [] := rfl
  refine ⟨hu, fun t c hc => ?_, by rw [hnil]; exact List.not_mem_nil, fun t c hc x hx => ?_⟩
  · rw [hcode t c hc]
    exact ⟨by decide, by decide⟩
  · rw [hcode t c hc, hcode t x hx]

/-! ## Semaphores -/

/-- A list of waiters loses elements, or `sema_down` puts the running thread on it. -/
theorem effect_waiters_cases (s : Kernel) (c : Stmt) (i : SemaId) :
    ((effect s c).sema i).waiters.Sublist (s.sema i).waiters ∨
    ((c = .sema_down i ∨ c = .sema_retest i) ∧ ((effect s c).sema i).waiters =
      list_insert_ordered s.less_priority (s.sema i).waiters s.current) := by
  have hsame : ∀ {l : List Tid}, l = (s.sema i).waiters → l.Sublist (s.sema i).waiters := by
    rintro l rfl
    exact List.Sublist.refl _
  have hdown : ∀ (f : List Tid → List Tid) (j : SemaId),
      ((sema_down_effect s j f).sema i).waiters = (s.sema i).waiters ∨
      (j = i ∧ ((sema_down_effect s j f).sema i).waiters =
        list_insert_ordered s.less_priority (s.sema i).waiters s.current) := by
    intro f j
    unfold sema_down_effect
    by_cases hij : i = j
    · subst hij
      split_ifs
      · rw [set_sema_apply, if_pos rfl, push_sema]
        exact Or.inr ⟨rfl, rfl⟩
      · rw [set_sema_apply, if_pos rfl]
        exact Or.inl rfl
    · split_ifs
      · rw [set_sema_apply, if_neg hij, push_sema]
        exact Or.inl rfl
      · rw [set_sema_apply, if_neg hij]
        exact Or.inl rfl
  have hup : ∀ j, ((sema_up_effect s j).sema i).waiters.Sublist (s.sema i).waiters := by
    intro j
    unfold sema_up_effect
    rw [set_sema_apply]
    split_ifs with hij
    · rw [hij]
      exact List.dropLast_sublist _
    · exact List.Sublist.refl _
  by_cases hmoves : c.Moves
  swap
  · exact Or.inl (hsame (effect_waiters s hmoves i))
  cases c with
  | sema_down j =>
    rcases hdown id j with heq | ⟨rfl, heq⟩
    · exact Or.inl (hsame heq)
    · exact Or.inr ⟨Or.inl rfl, heq⟩
  | sema_retest j =>
    rcases hdown (fun l => l.erase s.current) j with heq | ⟨rfl, heq⟩
    · exact Or.inl (hsame heq)
    · exact Or.inr ⟨Or.inr rfl, heq⟩
  | sema_up j => exact Or.inl (hup j)
  | cond_wake e w => exact Or.inl (hup (.waiter w))
  | sema_try_down | lock_try_down => exact absurd hmoves id
  | _ => exact Or.inl (hsame (by rw [(effect_frame s _).sema i (by simp [Stmt.sema])]))

theorem SemaInOrder.exec (hk : SchedInv s) (h : SemaInOrder s s.priority) (hok : KeepsOrder s c)
    (htick : c ≠ .mlfqs_tick_change) (hs : exec s c = .ok s') : SemaInOrder s' s'.priority := by
  have hold : ∀ i, (s.sema i).waiters.Pairwise (fun a b => s'.priority a ≤ s'.priority b) := by
    intro i
    cases hp : rewritten s c with
    | some priority =>
      refine (hok.sema priority hp i).imp fun hab => ?_
      rw [exec_rewritten hp hs, exec_rewritten hp hs]
      exact hab
    | none =>
      have hkeep : ∀ t ∈ (s.sema i).waiters, s'.priority t = s.priority t := by
        intro t ht
        have helem := (hk.lists.waiters i t).mp ht
        refine exec_unwritten hp (fun _ => (hk.current_ne helem).symm) ?_ htick hs
        rintro p rfl
        rw [hk.lists.unused (thread_create_unused hs rfl)] at helem
        cases helem
      refine (h i).imp_of_mem fun ha hb hab => ?_
      rw [hkeep _ ha, hkeep _ hb]
      exact hab
  intro i
  rw [exec_sema hs]
  rcases effect_waiters_cases s c i with hsub | ⟨hc, heq⟩
  · exact (hold i).sublist hsub
  · have hsame : ∀ t, s'.priority t = s.priority t := by
      intro t
      rcases hc with rfl | rfl
      · exact exec_unwritten rfl (by rintro ⟨⟩) (by rintro p ⟨⟩) (by rintro ⟨⟩) hs
      · exact exec_unwritten rfl (by rintro ⟨⟩) (by rintro p ⟨⟩) (by rintro ⟨⟩) hs
    have : Std.Total s.less_priority := ⟨fun a b => le_total (s.priority a) (s.priority b)⟩
    have : IsTrans Tid s.less_priority := ⟨fun _ _ _ hab hbc => le_trans hab hbc⟩
    have hinsert : (list_insert_ordered s.less_priority (s.sema i).waiters s.current).Pairwise
        s.less_priority := List.Pairwise.orderedInsert s.current _ (h i)
    rw [heq]
    refine hinsert.imp fun hab => ?_
    rw [hsame, hsame]
    exact hab

/-! ## Condition variables -/

/-- The copies on every `cond->waiters` are in ascending order. -/
def CopiesInOrder (s : Kernel) : Prop :=
  ∀ d, (s.cond d).waiters.Pairwise less_waiter_priority

instance : IsTrans SemaphoreElem less_waiter_priority :=
  ⟨fun _ _ _ hab hbc => Int.le_trans hab hbc⟩

instance : Std.Total less_waiter_priority :=
  ⟨fun a b => le_total a.priority b.priority⟩

/-- A list of waiters loses elements, or `cond_wait` inserts a new one. -/
theorem thread_waiters_cases (hgo : ThreadGo s c r s' rest) (d : CondId) :
    (s'.cond d).waiters.Sublist (s.cond d).waiters ∨
    (∃ p, c = .cond_enter d p ∧ (s'.cond d).waiters = list_insert_ordered less_waiter_priority
      (s.cond d).waiters ⟨s.next_waiter, p⟩) := by
  have hnext : r.next_waiter = s.next_waiter := by
    rw [hgo.popped]
    rfl
  rw [thread_cond hgo]
  by_cases hd : c.cond = some d
  swap
  · rw [if_neg hd]
    exact Or.inl (List.Sublist.refl _)
  rw [if_pos hd]
  dsimp only [cond_after]
  cases c with
  | cond_enter e p =>
    obtain rfl := Option.some.inj hd
    refine Or.inr ⟨p, rfl, ?_⟩
    rw [hnext]
  | cond_signal e => exact Or.inl (List.dropLast_sublist _)
  | _ => exact Or.inl (List.Sublist.refl _)

theorem CopiesInOrder.thread (h : CopiesInOrder s) (hgo : ThreadGo s c r s' rest) :
    CopiesInOrder s' := by
  intro d
  rcases thread_waiters_cases hgo d with hsub | ⟨p, -, heq⟩
  · exact (h d).sublist hsub
  · rw [heq]
    exact List.Pairwise.orderedInsert _ _ (h d)

/-- Who waits after a statement waited before, or has just been put on the list. -/
theorem waits_cases (hgo : ThreadGo s c r s' rest) (h : WaitsAs s' d w t) :
    WaitsAs r d w t ∨ ((∃ p, c = .cond_enter d p) ∧ w = s.next_waiter ∧ t = s.current) := by
  rcases hgo.mem_code h with ⟨rfl, hnew⟩ | ⟨hold, hrest⟩
  · obtain ⟨⟨p, rfl⟩, rfl⟩ := pushes_return hnew
    refine Or.inr ⟨⟨p, rfl⟩, ?_, rfl⟩
    rw [hgo.popped]
    rfl
  · refine Or.inl ?_
    unfold WaitsAs
    rw [hgo.popped]
    by_cases ht : t = s.current
    · rw [ht, set_thread_self]
      exact hrest ht
    · rw [set_thread_of_ne s _ ht]
      exact hold

theorem waits_of_popped (hgo : ThreadGo s c r s' rest) (h : WaitsAs r d w t) : WaitsAs s d w t := by
  unfold WaitsAs at h
  rw [hgo.popped] at h
  by_cases ht : t = s.current
  · rw [ht, set_thread_self] at h
    unfold WaitsAs
    rw [ht, hgo.before]
    exact List.mem_cons_of_mem c h
  · rw [set_thread_of_ne s _ ht] at h
    exact h

/-- The priority of a thread that waits, after a statement that is not said to write it. -/
theorem waiting_unwritten (hmode : ModeInv s) (hgo : ThreadGo s c r s' rest)
    (hnone : rewritten r c = none) (hwait : WaitsAs r d w t) : s'.priority t = s.priority t := by
  have hc : c ∈ (s.thread s.current).code := by
    rw [hgo.before]
    exact List.mem_cons_self
  have hsame : s'.priority t = r.priority t := by
    refine exec_unwritten hnone (fun hown heq => ?_) ?_ (hmode.timed s.current c hc).2 hgo.exec
    · -- `thread_set_priority` is not called inside `cond_wait`
      rw [heq, hgo.current] at hwait
      have hreturn : (Stmt.cond_return d w).own = c.own :=
        hmode.own s.current c hc _ (waits_of_popped hgo hwait)
      rw [hown] at hreturn
      cases hreturn
    · rintro p rfl
      have hnil := hgo.inv.code.unused t (thread_create_unused hgo.exec rfl)
      unfold WaitsAs at hwait
      rw [hnil] at hwait
      cases hwait
  exact hsame.trans (congrArg Account.priority (popped_account hgo t))

theorem CondInOrder.thread (h : CondInOrder s s.priority) (hi : CondInv s) (hmode : ModeInv s)
    (hcopies : CopiesInOrder s) (hok : KeepsOrder r c) (hgo : ThreadGo s c r s' rest) :
    CondInOrder s' s'.priority := by
  have hcond : r.cond = s.cond := by
    rw [hgo.popped]
    rfl
  have hnew : ∀ d t, ¬ WaitsAs s d s.next_waiter t := fun d t hwait =>
    absurd (hi.entered.fresh d _ (hi.returns.entered t d _ hwait).1) (lt_irrefl _)
  have hpopped : ∀ d, (s.cond d).waiters.Pairwise (fun a b => ∀ t u, WaitsAs r d a.waiter t →
      WaitsAs r d b.waiter u → s'.priority t ≤ s'.priority u) := by
    intro d
    cases hp : rewritten r c with
    | some priority =>
      rw [← hcond]
      refine (hok.cond priority hp d).imp fun hab t u ht hu => ?_
      rw [exec_rewritten hp hgo.exec, exec_rewritten hp hgo.exec]
      exact hab t u ht hu
    | none =>
      refine (h d).imp fun hab t u ht hu => ?_
      rw [waiting_unwritten hmode hgo hp ht, waiting_unwritten hmode hgo hp hu]
      exact hab t u (waits_of_popped hgo ht) (waits_of_popped hgo hu)
  -- a waiter that is on the list already is not the new one
  have hwaits : ∀ d, ∀ e ∈ (s.cond d).waiters, ∀ t, WaitsAs s' d e.waiter t →
      WaitsAs r d e.waiter t := by
    intro d e he t ht
    rcases waits_cases hgo ht with ht | ⟨-, heq, -⟩
    · exact ht
    · have hids : e.waiter ∈ (s.cond d).ids := List.mem_map_of_mem he
      have hlt := hi.entered.fresh d _ ((hi.entered.ids d _).mp hids).1
      rw [heq] at hlt
      exact absurd hlt (lt_irrefl _)
  have hold : ∀ d, (s.cond d).waiters.Pairwise (fun a b => ∀ t u, WaitsAs s' d a.waiter t →
      WaitsAs s' d b.waiter u → s'.priority t ≤ s'.priority u) := fun d =>
    (hpopped d).imp_of_mem fun ha hb hab t u ht hu =>
      hab t u (hwaits d _ ha t ht) (hwaits d _ hb u hu)
  intro d
  rcases thread_waiters_cases hgo d with hsub | ⟨p, rfl, heq⟩
  · exact (hold d).sublist hsub
  · rw [heq]
    have hself : ∀ t, WaitsAs s' d s.next_waiter t → t = s.current := by
      intro t ht
      rcases waits_cases hgo ht with ht | ⟨-, -, ht⟩
      · exact absurd (waits_of_popped hgo ht) (hnew d t)
      · exact ht
    have hsame : ∀ t, s'.priority t = r.priority t := fun t =>
      exec_unwritten rfl (by rintro ⟨⟩) (by rintro p ⟨⟩) (by rintro ⟨⟩) hgo.exec
    have hpriority : r.priority s.current = s.cur.priority :=
      congrArg Account.priority (popped_account hgo s.current)
    have hcopy := hok.copies d p rfl
    unfold CopiesCompare at hcopy
    rw [hcond, show r.cur.priority = s.cur.priority from
      congrArg Account.priority (popped_current hgo)] at hcopy
    refine pairwise_orderedInsert (hcopies d) (hold d) (fun e he hless t u ht hu => ?_)
      fun e he hless u t hu ht => ?_
    · rw [hself u hu, hsame, hsame, hpriority]
      exact (hcopy e he t (hwaits d e he t ht)).1 (not_le.mp hless)
    · rw [hself u hu, hsame, hsame, hpriority]
      exact (hcopy e he t (hwaits d e he t ht)).2 hless

/-! ## Runs -/

/-- The waiters are in order, of semaphores and of condition variables. -/
structure WaitersInv (s : Kernel) : Prop where
  mode : ModeInv s
  sema : SemaInOrder s s.priority
  cond : CondInOrder s s.priority
  copies : CopiesInOrder s

/-- Lists of waiters, priorities and statements are the same. -/
theorem WaitersInv.congr (h : WaitersInv s) (hmode : ModeInv s')
    (hsema : ∀ i, (s'.sema i).waiters = (s.sema i).waiters) (hcond : s'.cond = s.cond)
    (hpriority : ∀ t, s'.priority t = s.priority t)
    (hwaits : ∀ d w t, WaitsAs s' d w t → WaitsAs s d w t) : WaitersInv s' := by
  refine ⟨hmode, fun i => ?_, fun d => ?_, fun d => ?_⟩
  · rw [hsema]
    refine (h.sema i).imp fun hab => ?_
    rw [hpriority, hpriority]
    exact hab
  · rw [hcond]
    refine (h.cond d).imp fun hab t u ht hu => ?_
    rw [hpriority, hpriority]
    exact hab t u (hwaits d _ t ht) (hwaits d _ u hu)
  · rw [hcond]
    exact h.copies d

theorem WaitersInv.switch (h : WaitersInv s) (hsw : Switch s s') : WaitersInv s' := by
  refine h.congr (h.mode.congr hsw.thread_mlfqs hsw.code hsw.intr_code) (fun i => ?_) hsw.cond
    hsw.priority fun d w t ht => ?_
  · rw [hsw.sema]
  · unfold WaitsAs at ht ⊢
    rw [hsw.code] at ht
    exact ht

theorem push_priority (s : Kernel) (l : List Stmt) (t : Tid) :
    (s.push l).priority t = s.priority t :=
  (ThreadFrame.push (fun u => ThreadFrame.refl .thread_yield (s.thread u)) l t).priority (by decide)

theorem WaitersInv.thread (h : WaitersInv s) (hi : CondInv s) (hok : KeepsOrder r c)
    (hgo : ThreadGo s c r s' rest) : WaitersInv s' := by
  have hc : c ∈ (s.thread s.current).code := by
    rw [hgo.before]
    exact List.mem_cons_self
  have hpriority : ∀ t, r.priority t = s.priority t := fun t =>
    congrArg Account.priority (popped_account hgo t)
  have hsema : SemaInOrder r r.priority := by
    intro i
    rw [hgo.sema]
    refine (h.sema i).imp fun hab => ?_
    rw [hpriority, hpriority]
    exact hab
  exact ⟨h.mode.thread hgo,
    hsema.exec hgo.inv.sched hok (h.mode.timed s.current c hc).2 hgo.exec,
    h.cond.thread hi h.mode h.copies hok hgo, h.copies.thread hgo⟩

/-- A handler writes no priority. -/
theorem handler_unwritten (hgo : HandlerGo s c r s' rest) (hc : c ≠ .mlfqs_tick_change) (t : Tid) :
    s'.priority t = s.priority t := by
  have hfits := hgo.fits
  have hsame : s'.priority t = r.priority t := by
    cases c with
    | sema_up | intq_getc | intq_putc | intq_signal | intq_clear | thread_unblock
    | timer_interrupt | wake_waiting_list =>
      exact exec_unwritten rfl (by rintro ⟨⟩) (by rintro p ⟨⟩) hc hgo.exec
    | mlfqs_tick_change => exact absurd rfl hc
    | _ => exact absurd hfits id
  rw [hsame, hgo.popped]

theorem WaitersInv.handler (h : WaitersInv s) (hok : KeepsOrder r c)
    (hgo : HandlerGo s c r s' rest) : WaitersInv s' := by
  have hc : c ≠ .mlfqs_tick_change := by
    rintro rfl
    refine h.mode.intr_code ?_
    rw [hgo.before]
    exact List.mem_cons_self
  have hsema : SemaInOrder r r.priority := by
    rw [hgo.popped]
    exact h.sema
  refine ⟨h.mode.handler hgo, hsema.exec hgo.inv.sched hok hc hgo.exec, fun d => ?_, fun d => ?_⟩
  · rw [handler_cond hgo]
    refine (h.cond d).imp fun hab t u ht hu => ?_
    unfold WaitsAs at ht hu
    rw [hgo.code] at ht hu
    rw [handler_unwritten hgo hc, handler_unwritten hgo hc]
    exact hab t u ht hu
  · rw [handler_cond hgo]
    exact h.copies d

theorem WaitersInv.step {e : Event} (h : WaitersInv s) (hi : CondInv s) (hk : KernelInv s)
    (hok : OrderOk s e) (hs : step s e s') : WaitersInv s' := by
  have hpush : ∀ l, (∀ t, ∀ x ∈ ((s.push l).thread t).code, x.waiter ≠ none →
      x ∈ (s.thread t).code) → ModeInv (s.push l) → WaitersInv (s.push l) := by
    intro l hcode hmode
    refine h.congr hmode (fun i => by rw [push_sema]) (by rw [push_cond]) (push_priority s l) ?_
    exact fun d w t ht => hcode t _ ht (by simp [Stmt.waiter])
  refine step_rule_go (P := WaitersInv) (fun r r' hsw hr => hr.switch hsw) (fun x y => ?_)
    (fun l hx hcur hl => ?_) (fun c hx hcode hc => ?_) (fun c r he hp hexec => ?_) hs
  · exact h.congr (h.mode.congr rfl (fun _ => rfl) rfl) (fun _ => rfl) rfl (fun _ => rfl)
      fun _ _ _ ht => ht
  · refine hpush l (fun t x hmem hne => ?_) (h.mode.push hx hcur hl)
    rw [push_code] at hmem
    split_ifs at hmem
    · exact (List.mem_append.mp hmem).resolve_left fun hnew => hne (hl.waiter x hnew)
    · exact hmem
  · have hcode' : ∀ t, ((s.push [c]).thread t).code = (s.thread t).code := by
      intro t
      rw [push_code, if_neg fun hout => absurd (hx.symm.trans hout.1) (by decide)]
    refine hpush [c] (fun t x hmem _ => by rw [hcode'] at hmem; exact hmem) ?_
    have hframe := (Frame.refl s .thread_yield).push [c]
    refine ⟨hframe.thread_mlfqs.trans h.mode.mlfqs, fun t => ?_, ?_, fun t => ?_⟩
    · rw [hcode']
      exact h.mode.timed t
    · unfold Kernel.push
      rw [if_pos hx, hcode]
      intro hmem
      obtain rfl := List.mem_singleton.mp hmem
      exact hc
    · rw [hcode']
      exact h.mode.own t
  · subst he
    rcases go_cases hk hp hexec with ⟨rest, hgo⟩ | ⟨rest, hgo⟩
    · exact h.handler (hok _ hp) hgo
    · exact h.thread hi (hok _ hp) hgo

theorem waiters_inv {u : Setup} (hu : u.mlfqs = false)
    (hr : Reachable (kernel_system u) OrderOk s) : WaitersInv s := by
  induction hr with
  | init h =>
    obtain rfl := h
    exact ⟨ModeInv.thread_start hu, fun _ => List.Pairwise.nil, fun _ => List.Pairwise.nil,
      fun _ => List.Pairwise.nil⟩
  | step hr hok hs ih => exact ih.step (cond_inv hr) (kernel_inv hr) hok hs

/-! ## Who waits -/

/-- Each waiter on a list has its thread. -/
def Attended (s : Kernel) : Prop :=
  ∀ d, ∀ e ∈ (s.cond d).waiters, ∃ t, WaitsAs s d e.waiter t

theorem Attended.congr (h : Attended s) (hcond : s'.cond = s.cond)
    (hcode : ∀ t, ∀ x ∈ (s.thread t).code, x ∈ (s'.thread t).code) : Attended s' := by
  intro d e he
  rw [hcond] at he
  obtain ⟨t, ht⟩ := h d e he
  exact ⟨t, hcode t _ ht⟩

theorem Attended.thread {u : Setup} (h : Attended s) (hi : CondInv s) (hsema : SemaInv u s)
    (hgo : ThreadGo s c r s' rest) : Attended s' := by
  -- a waiter on the list has not been raised, and its thread does not return
  have hold : ∀ d, ∀ e ∈ (s.cond d).waiters, ∃ t, WaitsAs s' d e.waiter t := by
    intro d e he
    obtain ⟨t, ht⟩ := h d e he
    refine ⟨t, hgo.kept ht ?_⟩
    rintro rfl rfl
    have hids : e.waiter ∈ (s.cond d).ids := List.mem_map_of_mem he
    exact ((hi.entered.ids d _).mp hids).2 (hi.wakes.raised d _ (hi.return_raised hsema hgo.before))
  intro d e he
  rcases thread_waiters_cases hgo d with hsub | ⟨p, rfl, heq⟩
  · exact hold d e (hsub.subset he)
  · rw [heq] at he
    rcases (List.mem_orderedInsert _).mp he with rfl | he
    · refine ⟨s.current, ?_⟩
      unfold WaitsAs
      rw [hgo.after, hgo.popped]
      exact List.mem_append_left _ (by simp [pushes, Kernel.set_thread])
    · exact hold d e he

theorem attended {u : Setup} {ok : Kernel → Event → Prop} (hr : Reachable (kernel_system u) ok s) :
    Attended s := by
  induction hr with
  | init h =>
    obtain rfl := h
    exact fun d e he => absurd he List.not_mem_nil
  | @step s₁ s₂ e hr _ hs ih =>
    have hpush : ∀ l, Attended (s₁.push l) := by
      intro l
      refine ih.congr (by rw [push_cond]) fun t x hx => ?_
      rw [push_code]
      split_ifs
      · exact List.mem_append_right l hx
      · exact hx
    refine step_rule (P := Attended) (kernel_inv hr)
      (fun r r' hsw h => h.congr hsw.cond fun t x hx => by rw [hsw.code]; exact hx)
      (fun _ _ => ih.congr rfl fun _ _ hx => hx) (fun l _ _ _ => hpush l) (fun c _ _ _ => hpush [c])
      (fun c r rest hgo => ih.congr (handler_cond hgo) fun t x hx => by rw [hgo.code]; exact hx)
      (fun c r rest hgo => ih.thread (cond_inv hr) (sema_inv hr) hgo) hs

/-! ## Waking -/

theorem schedule_awake (ht : (s.thread t).status ≠ .blocked) (hs : schedule s = .ok s') :
    (s'.thread t).status ≠ .blocked := by
  have hthread : s'.thread t = (s.set_thread (next_thread_to_run s).1
      (fun th => { th with status := .running, elem := none })).thread t := by
    rw [schedule_eq hs]
  rw [hthread, set_thread_apply]
  split_ifs
  · exact fun h => by cases h
  · exact ht

/-- Who is unblocked is not blocked when `thread_unblock` is done. -/
theorem thread_unblock_awake (hs : thread_unblock s t = .ok s') :
    (s'.thread t).status ≠ .blocked := by
  have hset : ∀ {s₁ s₂ : Kernel} {u : Tid}, make_ready s₁ u = .ok s₂ →
      (u = t ∨ (s₁.thread t).status ≠ .blocked) → (s₂.thread t).status ≠ .blocked := by
    intro s₁ s₂ u hr h
    have hthread : s₂.thread t = (s₁.set_thread u
        (fun th => { th with status := .ready, elem := some .ready_list })).thread t := by
      rw [(make_ready_eq hr).2]
    rw [hthread, set_thread_apply]
    split_ifs with hu
    · exact fun h => by cases h
    · exact h.resolve_left fun heq => hu heq.symm
  unfold thread_unblock at hs
  obtain ⟨-, -, hs⟩ := bind_eq_ok hs
  obtain ⟨r, hr, hs⟩ := bind_eq_ok hs
  obtain ⟨-, -, hs⟩ := bind_eq_ok hs
  have hready := hset hr (Or.inl rfl)
  split_ifs at hs
  · unfold thread_yield at hs
    obtain ⟨-, -, hs⟩ := bind_eq_ok hs
    dsimp only at hs
    split_ifs at hs
    · rw [ok_bind] at hs
      refine schedule_awake ?_ hs
      rw [set_thread_apply]
      split_ifs
      · exact fun h => by cases h
      · exact hready
    · obtain ⟨q, hq, hs⟩ := bind_eq_ok hs
      exact schedule_awake (hset hq (Or.inr hready)) hs
  · obtain rfl := Except.ok.inj hs
    exact hready

/-- `sema_up` takes the last waiter and wakes it. -/
theorem sema_up_wakes {i : SemaId} {last : Tid} (hl : (s.sema i).waiters.getLast? = some last)
    (hs : sema_up s i = .ok s') :
    (s'.sema i).removed = (s.sema i).removed ++ [last] ∧ (s'.thread last).status ≠ .blocked := by
  refine ⟨?_, ?_⟩
  · rw [exec_sema (c := .sema_up i) hs]
    dsimp only [effect]
    unfold sema_up_effect
    rw [set_sema_apply, if_pos rfl, hl]
    rfl
  · unfold sema_up at hs
    rw [hl] at hs
    exact thread_unblock_awake hs

/-- `sema_up` wakes a waiter of the highest priority. -/
def UpWakesHighest (s s' : Kernel) (i : SemaId) : Prop :=
  (s.sema i).waiters ≠ [] → ∃ w ∈ (s.sema i).waiters,
    (s'.sema i).removed = (s.sema i).removed ++ [w] ∧ (s'.thread w).status ≠ .blocked ∧
    ∀ t ∈ (s.sema i).waiters, s.priority t ≤ s.priority w

/-- `cond_signal` takes a waiter of the highest priority off the list. -/
def SignalWakesHighest (s s' : Kernel) (d : CondId) : Prop :=
  (s.cond d).waiters ≠ [] → ∃ e ∈ (s.cond d).waiters, ∃ u, WaitsAs s d e.waiter u ∧
    (s'.cond d).log = .remove e.waiter :: (s.cond d).log ∧
    ∀ f ∈ (s.cond d).waiters, ∀ t, WaitsAs s d f.waiter t → s.priority t ≤ s.priority u

/-- A statement that wakes takes a waiter of the highest priority. -/
def WakesHighest (s s' : Kernel) : Stmt → Prop
  | .sema_up i => UpWakesHighest s s' i
  | .cond_signal d => SignalWakesHighest s s' d
  | .cond_wake _ w => UpWakesHighest s s' (.waiter w)
  | _ => True

theorem SemaInOrder.wakes {i : SemaId} (h : SemaInOrder s s.priority)
    (hsema : r.sema i = s.sema i) (hs : sema_up r i = .ok s') : UpWakesHighest s s' i := by
  intro hne
  obtain ⟨last, hl⟩ := Option.isSome_iff_exists.mp (List.getLast?_isSome.mpr hne)
  have hlr : (r.sema i).waiters.getLast? = some last := by rw [hsema]; exact hl
  obtain ⟨hremoved, hawake⟩ := sema_up_wakes hlr hs
  rw [hsema] at hremoved
  refine ⟨last, List.mem_of_getLast? hl, hremoved, hawake, fun t ht => ?_⟩
  rcases pairwise_last (h i) hl ht with rfl | hle
  · exact le_refl _
  · exact hle

theorem WaitersInv.signals (h : WaitersInv s) (hi : CondInv s) (hattended : Attended s)
    (hgo : ThreadGo s (.cond_signal d) r s' rest) : SignalWakesHighest s s' d := by
  intro hne
  have hcond : r.cond = s.cond := by
    rw [hgo.popped]
    rfl
  obtain ⟨last, hl⟩ := Option.isSome_iff_exists.mp (List.getLast?_isSome.mpr hne)
  have hmem := List.mem_of_getLast? hl
  obtain ⟨u, hu⟩ := hattended d last hmem
  refine ⟨last, hmem, u, hu, ?_, fun f hf t ht => ?_⟩
  · rw [thread_cond_self hgo rfl]
    dsimp only [cond_after, logs]
    rw [hcond, hl]
    rfl
  · rcases pairwise_last (h.cond d) hl hf with rfl | hle
    · rw [(hi.returns.single d f.waiter).one t u ht hu]
    · exact hle t u ht hu

/-- **Wake-ups pick the highest priority waiter.** In priority mode, in the runs whose statements
leave the waiters in order, `sema_up` and `cond_signal` wake a waiter whose priority is at least
that of every other. -/
theorem wakes_highest {u : Setup} (hu : u.mlfqs = false)
    (hr : Reachable (kernel_system u) OrderOk s) (hp : pop_stmt s = some (c, r))
    (hs : exec r c = .ok s') : WakesHighest s s' c := by
  have hw := waiters_inv hu hr
  have hsema : r.sema = s.sema := by
    rcases pop_cases hp with ⟨rest, -, -, rfl⟩ | ⟨rest, -, -, rfl⟩ <;> rfl
  cases c with
  | sema_up i => exact hw.sema.wakes (congrFun hsema i) hs
  | cond_wake d w =>
    exact hw.sema.wakes (r := r.set_cond d (fun x => { x with log := .raise w :: x.log }))
      (congrFun hsema (.waiter w)) hs
  | cond_signal d =>
    rcases go_cases (kernel_inv hr) hp hs with ⟨rest, hgo⟩ | ⟨rest, hgo⟩
    · exact absurd hgo.fits id
    · exact hw.signals (cond_inv hr) (attended hr) hgo
  | _ => trivial

/-- A step that neither writes the priority of a waiter nor puts one on the list of a condition
variable. -/
def QuietOk (s : Kernel) : Event → Prop
  | .go => ∀ p ∈ pop_stmt s, (rewritten p.2 p.1).isNone ∧ p.1.cond = none
  | _ => True

instance (s : Kernel) : (e : Event) → Decidable (QuietOk s e)
  | .go => inferInstanceAs (Decidable (∀ p ∈ pop_stmt s, _))
  | .call _ | .idle | .intr | .handle _ | .intr_end => inferInstanceAs (Decidable True)

theorem QuietOk.orderOk (e : Event) (h : QuietOk s e) : OrderOk s e := by
  cases e with
  | go =>
    intro p hp
    obtain ⟨hnone, hcond⟩ := h p hp
    have hno : ∀ priority, priority ∉ rewritten p.2 p.1 := by
      intro priority hmem
      rw [show rewritten p.2 p.1 = some priority from hmem] at hnone
      cases hnone
    refine ⟨fun q hq => absurd hq (hno q), fun q hq => absurd hq (hno q), fun d q hd => ?_⟩
    rw [hd] at hcond
    cases hcond
  | _ => trivial

/-- Two threads wait for a semaphore, and the main thread is about to up it. -/
def AboutToUp (s : Kernel) : Prop :=
  s.in_external_intr = false ∧ s.cur.code = [.sema_up (.other 0)] ∧
  (s.sema (.other 0)).waiters = [2, 3] ∧ (run_event s .go).toBool = true

instance : DecidablePred AboutToUp := fun _ => inferInstanceAs (Decidable (_ ∧ _))

theorem AboutToUp.go (h : AboutToUp s) : ∃ r s', pop_stmt s = some (.sema_up (.other 0), r) ∧
    r.sema = s.sema ∧ exec r (.sema_up (.other 0)) = .ok s' := by
  obtain ⟨hx, hcode, -, hrun⟩ := h
  have hpop : pop_stmt s = some (.sema_up (.other 0),
      s.set_thread s.current (fun th => { th with code := [] })) := by
    unfold pop_stmt
    rw [if_neg (by rw [hx]; decide), hcode]
  dsimp only [run_event] at hrun
  rw [hpop] at hrun
  dsimp only at hrun
  cases hs : exec (s.set_thread s.current (fun th => { th with code := [] }))
      (.sema_up (.other 0)) with
  | error e =>
    rw [hs] at hrun
    cases hrun
  | ok s' => exact ⟨_, s', hpop, rfl, hs⟩

/-- A thread of this priority is made, and waits for the semaphore. -/
def waiter_run (t : Tid) (priority : ℤ) : List Event :=
  create_run t priority ++ [.call (.sema_down (.other 0)), .go]

/-- Two waiters whose priorities do not change. -/
theorem wakes_highest_two : ∃ s r s',
    Reachable (kernel_system plain_setup) OrderOk s ∧
    pop_stmt s = some (.sema_up (.other 0), r) ∧ (s.sema (.other 0)).waiters = [2, 3] ∧
    WakesHighest s s' (.sema_up (.other 0)) := by
  obtain ⟨s, hr, hup⟩ := run_reachable (u := plain_setup) QuietOk AboutToUp
    (waiter_run 2 32 ++ waiter_run 3 34 ++ [.call (.sema_up (.other 0))]) (.init rfl)
    (by simp [waiter_run, create_run, Event.Allowed, Stmt.Callable]) (by decide +kernel)
  obtain ⟨r, s', hp, -, hs⟩ := hup.go
  have hreach := hr.weaken (fun _ e h => QuietOk.orderOk e h)
  exact ⟨s, r, s', hreach, hp, hup.2.2.1, wakes_highest rfl hreach hp hs⟩

/-- A thread that holds a lock waits for the semaphore when it gets a donation. -/
def donated_waiter_run : List Event :=
  create_run 2 32 ++ acquire_run 5 ++ [.call (.sema_down (.other 0)), .go] ++ waiter_run 3 34 ++
    create_run 4 36 ++ (.call (.lock_acquire 5) :: List.replicate 10 .go) ++
    [.call (.sema_up (.other 0))]

/-- The other waiter is woken, of lower priority. -/
theorem donated_waiter_passed_over : ∃ s r s',
    Reachable (kernel_system plain_setup) (fun _ _ => True) s ∧
    pop_stmt s = some (.sema_up (.other 0), r) ∧ exec r (.sema_up (.other 0)) = .ok s' ∧
    ¬ WakesHighest s s' (.sema_up (.other 0)) := by
  obtain ⟨s, hr, hup, hlt⟩ := run_reachable (u := plain_setup) (fun _ _ => True)
    (fun s => AboutToUp s ∧ s.priority 3 < s.priority 2) donated_waiter_run (.init rfl)
    (by simp [donated_waiter_run, waiter_run, create_run, acquire_run, Event.Allowed,
      Stmt.Callable]) (by decide +kernel)
  obtain ⟨r, s', hp, hsema, hs⟩ := hup.go
  have hwaiters := hup.2.2.1
  refine ⟨s, r, s', hr, hp, hs, fun hhigh => ?_⟩
  obtain ⟨w, -, hremoved, -, hmax⟩ := hhigh (by rw [hwaiters]; simp)
  have hlast : (r.sema (.other 0)).waiters.getLast? = some 3 := by
    rw [hsema, hwaiters]
    rfl
  have htaken := (sema_up_wakes hlast hs).1
  rw [hsema] at htaken
  obtain rfl : w = 3 := List.singleton_inj.mp (List.append_cancel_left (hremoved.symm.trans htaken))
  exact absurd (hmax 2 (by rw [hwaiters]; simp)) (not_le.mpr hlt)

end Pintos.Threads.Machine
