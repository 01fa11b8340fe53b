/-
What a statement does apart from scheduling.

Every statement of the machine changes some data and then, at most, hands the processor
on. `effect` is the first half. The second half is a `Switch`: it changes which thread
runs, which threads are ready, and nothing else. An invariant that does not speak of
statuses and lists has to be shown for `effect` only.
-/
import Pintos.Threads.Machine

set_option autoImplicit false

namespace Pintos.Threads.Machine

/-! ## Reading a changed state -/

section Fields

variable (s : Kernel) (t u : Tid) (f : Thread → Thread) (l : List Stmt)

theorem set_thread_apply :
    (s.set_thread t f).thread u = if u = t then f (s.thread t) else s.thread u :=
  Function.update_apply _ _ _ _

theorem set_thread_self : (s.set_thread t f).thread t = f (s.thread t) :=
  Function.update_self _ _ _

theorem set_thread_of_ne {t u : Tid} (h : u ≠ t) : (s.set_thread t f).thread u = s.thread u :=
  Function.update_of_ne h _ _

theorem set_thread_twice (g : Thread → Thread) :
    (s.set_thread t f).set_thread t g = s.set_thread t (fun th => g (f th)) := by
  unfold Kernel.set_thread
  simp only [Function.update_self, Function.update_idem]

theorem set_sema_apply (i j : SemaId) (g : Semaphore → Semaphore) :
    (s.set_sema i g).sema j = if j = i then g (s.sema i) else s.sema j :=
  Function.update_apply _ _ _ _

theorem set_cond_apply (c d : CondId) (g : Condition → Condition) :
    (s.set_cond c g).cond d = if d = c then g (s.cond c) else s.cond d :=
  Function.update_apply _ _ _ _

@[simp] theorem push_current : (s.push l).current = s.current := by
  unfold Kernel.push
  split_ifs <;> rfl

@[simp] theorem push_sema : (s.push l).sema = s.sema := by
  unfold Kernel.push
  split_ifs <;> rfl

@[simp] theorem push_holder : (s.push l).holder = s.holder := by
  unfold Kernel.push
  split_ifs <;> rfl

@[simp] theorem push_cond : (s.push l).cond = s.cond := by
  unfold Kernel.push
  split_ifs <;> rfl

@[simp] theorem push_yield_on_return : (s.push l).yield_on_return = s.yield_on_return := by
  unfold Kernel.push
  split_ifs <;> rfl

/-- The statements of a thread after a call. -/
theorem push_code : ((s.push l).thread t).code =
    if s.in_external_intr = false ∧ t = s.current then l ++ (s.thread t).code
    else (s.thread t).code := by
  unfold Kernel.push
  by_cases hx : s.in_external_intr = true
  · rw [if_pos hx, if_neg (by rw [hx]; simp)]
  · rw [if_neg hx, set_thread_apply]
    rw [Bool.not_eq_true] at hx
    by_cases ht : t = s.current
    · rw [if_pos ht, if_pos ⟨hx, ht⟩, ht]
    · rw [if_neg ht, if_neg (fun h => ht h.2)]

/-- Only the statements of the running thread change. -/
theorem push_thread : ∃ code, (s.push l).thread t = { s.thread t with code := code } := by
  refine ⟨((s.push l).thread t).code, ?_⟩
  unfold Kernel.push
  split_ifs
  · rfl
  · rw [set_thread_apply]
    split_ifs with ht
    · rw [ht]
    · rfl

end Fields

/-! ## Switches -/

/-- A thread without what the scheduler writes. -/
def Thread.rest (th : Thread) : Thread := { th with status := .unused, elem := none }

/-- All that the scheduler leaves alone. -/
structure Switch (s s' : Kernel) : Prop where
  thread : ∀ t, (s'.thread t).rest = (s.thread t).rest
  all_list : s'.all_list = s.all_list
  waiting_list : s'.waiting_list = s.waiting_list
  sema : s'.sema = s.sema
  holder : s'.holder = s.holder
  cond : s'.cond = s.cond
  next_waiter : s'.next_waiter = s.next_waiter
  intq : s'.intq = s.intq
  idle_thread : s'.idle_thread = s.idle_thread
  in_external_intr : s'.in_external_intr = s.in_external_intr
  yield_on_return : s'.yield_on_return = s.yield_on_return
  intr_code : s'.intr_code = s.intr_code
  ticks : s'.ticks = s.ticks
  load_avg : s'.load_avg = s.load_avg
  thread_mlfqs : s'.thread_mlfqs = s.thread_mlfqs
  used : ∀ t, (s.thread t).status ≠ .unused → (s'.thread t).status ≠ .unused

namespace Switch

variable {s s' s'' : Kernel}

theorem refl (s : Kernel) : Switch s s :=
  ⟨fun _ => rfl, rfl, rfl, rfl, rfl, rfl, rfl, rfl, rfl, rfl, rfl, rfl, rfl, rfl, rfl,
    fun _ h => h⟩

theorem trans (h : Switch s s') (h' : Switch s' s'') : Switch s s'' where
  thread t := (h'.thread t).trans (h.thread t)
  all_list := h'.all_list.trans h.all_list
  waiting_list := h'.waiting_list.trans h.waiting_list
  sema := h'.sema.trans h.sema
  holder := h'.holder.trans h.holder
  cond := h'.cond.trans h.cond
  next_waiter := h'.next_waiter.trans h.next_waiter
  intq := h'.intq.trans h.intq
  idle_thread := h'.idle_thread.trans h.idle_thread
  in_external_intr := h'.in_external_intr.trans h.in_external_intr
  yield_on_return := h'.yield_on_return.trans h.yield_on_return
  intr_code := h'.intr_code.trans h.intr_code
  ticks := h'.ticks.trans h.ticks
  load_avg := h'.load_avg.trans h.load_avg
  thread_mlfqs := h'.thread_mlfqs.trans h.thread_mlfqs
  used t ht := h'.used t (h.used t ht)

theorem code (h : Switch s s') (t : Tid) : (s'.thread t).code = (s.thread t).code := by
  show (s'.thread t).rest.code = (s.thread t).rest.code
  rw [h.thread t]

theorem priority (h : Switch s s') (t : Tid) : (s'.thread t).priority = (s.thread t).priority := by
  show (s'.thread t).rest.priority = (s.thread t).rest.priority
  rw [h.thread t]

theorem original_priority (h : Switch s s') (t : Tid) :
    (s'.thread t).original_priority = (s.thread t).original_priority := by
  show (s'.thread t).rest.original_priority = (s.thread t).rest.original_priority
  rw [h.thread t]

theorem possessing_locks (h : Switch s s') (t : Tid) :
    (s'.thread t).possessing_locks = (s.thread t).possessing_locks := by
  show (s'.thread t).rest.possessing_locks = (s.thread t).rest.possessing_locks
  rw [h.thread t]

theorem holded_by (h : Switch s s') (t : Tid) : (s'.thread t).holded_by = (s.thread t).holded_by := by
  show (s'.thread t).rest.holded_by = (s.thread t).rest.holded_by
  rw [h.thread t]

theorem waking_time (h : Switch s s') (t : Tid) :
    (s'.thread t).waking_time = (s.thread t).waking_time := by
  show (s'.thread t).rest.waking_time = (s.thread t).rest.waking_time
  rw [h.thread t]

/-- The scheduler's fields of one thread. -/
theorem set_thread (s : Kernel) (t : Tid) {f : Thread → Thread}
    (hf : ∀ th, (f th).rest = th.rest) (hused : ∀ th, th.status ≠ .unused → (f th).status ≠ .unused) :
    Switch s (s.set_thread t f) := by
  refine ⟨fun u => ?_, rfl, rfl, rfl, rfl, rfl, rfl, rfl, rfl, rfl, rfl, rfl, rfl, rfl, rfl,
    fun u h => ?_⟩
  · rw [set_thread_apply]
    split_ifs with hu
    · rw [hu]
      exact hf _
    · rfl
  · rw [set_thread_apply]
    split_ifs with hu
    · rw [hu] at h
      exact hused _ h
    · exact h

end Switch

variable {s s' : Kernel} {t : Tid}

theorem schedule_eq (hs : schedule s = .ok s') :
    s' = { (s.set_thread (next_thread_to_run s).1
        (fun th => { th with status := .running, elem := none })) with
      ready_list := (next_thread_to_run s).2
      current := (next_thread_to_run s).1
      thread_ticks := 0 } := by
  unfold schedule at hs
  obtain ⟨-, -, hs⟩ := bind_eq_ok hs
  exact (Except.ok.inj hs).symm

theorem schedule_switch (hs : schedule s = .ok s') : Switch s s' := by
  have hset := Switch.set_thread s (next_thread_to_run s).1
    (f := fun th => { th with status := .running, elem := none }) (fun _ => rfl) (by simp)
  rw [schedule_eq hs]
  exact ⟨hset.thread, rfl, rfl, rfl, rfl, rfl, rfl, rfl, rfl, rfl, rfl, rfl, rfl, rfl, rfl, hset.used⟩

/-- `make_ready` of a thread on no list. -/
theorem make_ready_eq (hs : make_ready s t = .ok s') :
    (s.thread t).elem = none ∧
    s' = { (s.set_thread t (fun th => { th with status := .ready, elem := some .ready_list })) with
      ready_list := list_insert_ordered s.less_priority s.ready_list t } := by
  unfold make_ready at hs
  split_ifs at hs with helem
  exact ⟨helem, (Except.ok.inj hs).symm⟩

theorem make_ready_switch (hs : make_ready s t = .ok s') : Switch s s' := by
  have hset := Switch.set_thread s t
    (f := fun th => { th with status := .ready, elem := some .ready_list }) (fun _ => rfl) (by simp)
  rw [(make_ready_eq hs).2]
  exact ⟨hset.thread, rfl, rfl, rfl, rfl, rfl, rfl, rfl, rfl, rfl, rfl, rfl, rfl, rfl, rfl, hset.used⟩

theorem thread_yield_switch (hs : thread_yield s = .ok s') : Switch s s' := by
  unfold thread_yield at hs
  obtain ⟨-, -, hs⟩ := bind_eq_ok hs
  dsimp only at hs
  split_ifs at hs
  · rw [ok_bind] at hs
    refine Switch.trans ?_ (schedule_switch hs)
    exact Switch.set_thread s s.current (fun _ => rfl) (by simp)
  · obtain ⟨r, hr, hs⟩ := bind_eq_ok hs
    exact (make_ready_switch hr).trans (schedule_switch hs)

theorem thread_block_switch (hs : thread_block s = .ok s') : Switch s s' := by
  unfold thread_block at hs
  obtain ⟨-, -, hs⟩ := bind_eq_ok hs
  refine Switch.trans ?_ (schedule_switch hs)
  exact Switch.set_thread s s.current (fun _ => rfl) (by simp)

theorem thread_unblock_switch (hs : thread_unblock s t = .ok s') : Switch s s' := by
  unfold thread_unblock at hs
  obtain ⟨-, -, hs⟩ := bind_eq_ok hs
  obtain ⟨r, hr, hs⟩ := bind_eq_ok hs
  obtain ⟨-, -, hs⟩ := bind_eq_ok hs
  split_ifs at hs
  · exact (make_ready_switch hr).trans (thread_yield_switch hs)
  · obtain rfl := Except.ok.inj hs
    exact make_ready_switch hr

/-! ## Effects -/

/-- `sema_down` up to `thread_block`, and what it does to `removed`. -/
def sema_down_effect (s : Kernel) (i : SemaId) (f : List Tid → List Tid) : Kernel :=
  if (s.sema i).value = 0 then
    (s.push [.sema_retest i]).set_sema i (fun x => { x with
      waiters := list_insert_ordered s.less_priority x.waiters s.current
      removed := f x.removed })
  else s.set_sema i (fun x => { x with
    value := x.value - 1, downs := x.downs + 1, removed := f x.removed })

/-- `sema_up` up to `thread_unblock`. -/
def sema_up_effect (s : Kernel) (i : SemaId) : Kernel :=
  s.set_sema i (fun x => { x with
    value := x.value + 1
    ups := x.ups + 1
    waiters := x.waiters.dropLast
    removed := x.removed ++ x.waiters.getLast?.toList })

/-- What a statement does to everything but statuses, `elem`s, `ready_list` and the running
thread. -/
def effect (s : Kernel) : Stmt → Kernel
  | .sema_down i => sema_down_effect s i id
  | .sema_retest i => sema_down_effect s i (fun l => l.erase s.current)
  | .sema_try_down i => sema_try_down s i
  | .sema_up i => sema_up_effect s i
  | .lock_acquire m => s.push [.donation_test m, .sema_down (.lock m), .lock_hold m]
  | .donation_test m => donation_test s m
  | .donation_compare m =>
    match s.holder m with
    | none => s
    | some h => if s.priority h < s.cur.priority then s.push [.donation_call m] else s
  | .donation_call m =>
    match s.holder m with
    | none => s
    | some low => s.push [.donation_member low m]
  | .donation_member low m => donation_member s low m
  | .donation_insert low e => donation_insert s low e
  | .donation_link m => donation_link s m
  | .donation_write low _ => write_priority s s.current low
  | .nested_donation high medium => nested_donation s high medium
  | .nested_low high medium =>
    match (s.thread medium).holded_by.bind s.holder with
    | none => s
    | some low => s.push [.nested_write high low, .nested_donation medium low]
  | .nested_write high low => write_priority s high low
  | .lock_hold m => { s with holder := Function.update s.holder m (some s.current) }
  | .lock_try_acquire m => s.push [.lock_try_down m]
  | .lock_try_down m => lock_try_down s m
  | .lock_release m =>
    ({ s with holder := Function.update s.holder m none }).push
      [.release_test m, .sema_up (.lock m)]
  | .release_test m => release_test s m
  | .priority_rollback m => priority_rollback s m
  | .rollback_loop m => rollback_loop s m
  | .rollback_test => rollback_test s
  | .rollback_original => rollback_original s
  | .rollback_back =>
    match s.cur.possessing_locks.getLast? with
    | none => s
    | some e => s.set_thread s.current (fun th => { th with priority := e.priority })
  | .thread_set_priority n => thread_set_priority s n
  | .set_priority n => set_priority s n
  | .set_original n => set_original s n
  | .thread_set_nice n => s.set_thread s.current (set_nice s.load_avg n)
  | .thread_create t p =>
    ({ (s.set_thread t (fun _ => new_thread s p)) with all_list := s.all_list ++ [t] }).push
      [.lock_acquire tid_lock, .lock_release tid_lock, .thread_unblock t]
  | .thread_exit =>
    ({ (s.set_thread s.current (fun th => { th with intr := false })) with
      all_list := s.all_list.erase s.current }).push
        [.sema_up (.parent_wait s.current), .exit_schedule]
  | .timer_sleep n => if n ≤ 0 then s else s.push [.sleep_until (s.ticks + n)]
  | .sleep_until n =>
    let s := s.set_thread s.current (fun th => { th with waking_time := n })
    { s with waiting_list := list_insert_ordered s.less_waking_time s.waiting_list s.current }
  | .intr_disable => s.set_thread s.current (fun th => { th with intr := false })
  | .intr_enable => s.set_thread s.current (fun th => { th with intr := true })
  | .cond_wait c => s.push [.cond_enter c s.cur.priority]
  | .cond_enter c p => cond_enter s c p
  | .cond_return c w => s.set_cond c (fun x => { x with log := .leave w :: x.log })
  | .cond_signal c =>
    match (s.cond c).waiters.getLast? with
    | none => s
    | some w =>
      (s.set_cond c (fun x => { x with
        waiters := x.waiters.dropLast
        log := .remove w.waiter :: x.log })).push [.cond_wake c w.waiter]
  | .cond_wake c w =>
    sema_up_effect (s.set_cond c (fun x => { x with log := .raise w :: x.log })) (.waiter w)
  | .cond_broadcast c => cond_broadcast s c
  | .broadcast_loop c => broadcast_loop s c
  | .intq_getc q =>
    if intq_empty (s.intq q) then
      s.push [.lock_acquire (s.intq q).lock, .intq_wait q .not_empty,
        .lock_release (s.intq q).lock, .intq_getc q]
    else (s.set_intq q (fun x => { x with tail := next x.tail })).push [.intq_signal q .not_full]
  | .intq_putc q byte =>
    if intq_full (s.intq q) then
      s.push [.lock_acquire (s.intq q).lock, .intq_wait q .not_full,
        .lock_release (s.intq q).lock, .intq_putc q byte]
    else
      (s.set_intq q (fun x => { x with
        buf := Function.update x.buf x.head byte, head := next x.head })).push
          [.intq_signal q .not_empty]
  | .intq_wait q w => s.set_intq q (fun x => x.set_waiter (some s.current) w)
  | .intq_signal q w =>
    match (s.intq q).waiter w with
    | none => s
    | some t => s.push [.thread_unblock t, .intq_clear q w]
  | .intq_clear q w => s.set_intq q (fun x => x.set_waiter none w)
  | .timer_interrupt => timer_interrupt s
  | .mlfqs_tick_change => mlfqs_tick_change s
  | .set_priority_yield _ | .thread_block | .thread_unblock _ | .thread_yield | .exit_schedule
  | .wake_waiting_list => s

theorem sema_up_switch {i : SemaId} (hs : sema_up s i = .ok s') :
    Switch (sema_up_effect s i) s' := by
  unfold sema_up at hs
  unfold sema_up_effect
  cases hw : (s.sema i).waiters.getLast? with
  | none =>
    rw [hw] at hs
    obtain rfl := Except.ok.inj hs
    have hnil := List.getLast?_eq_none_iff.mp hw
    refine ⟨fun _ => rfl, rfl, rfl, ?_, rfl, rfl, rfl, rfl, rfl, rfl, rfl, rfl, rfl, rfl, rfl,
      fun _ h => h⟩
    unfold Kernel.set_sema
    simp [hnil]
  | some w =>
    rw [hw] at hs
    refine Switch.trans ?_ (thread_unblock_switch hs)
    have hset := Switch.set_thread (s.set_sema i (fun x => { x with
      value := x.value + 1
      ups := x.ups + 1
      waiters := x.waiters.dropLast
      removed := x.removed ++ [w] })) w (f := fun th => { th with elem := none }) (fun _ => rfl)
        (fun _ h => h)
    refine ⟨hset.thread, rfl, rfl, ?_, rfl, rfl, rfl, rfl, rfl, rfl, rfl, rfl, rfl, rfl, rfl,
      hset.used⟩
    unfold Kernel.set_sema
    simp [hw]
    rfl

theorem sema_down_switch {i : SemaId} (hs : sema_down s i = .ok s') :
    Switch (sema_down_effect s i id) s' := by
  unfold sema_down at hs
  obtain ⟨-, -, hs⟩ := bind_eq_ok hs
  unfold sema_down_effect
  split_ifs at hs ⊢ with hzero helem
  · refine Switch.trans ?_ (thread_block_switch hs)
    exact Switch.set_thread _ s.current (fun _ => rfl) (fun _ h => h)
  · obtain rfl := Except.ok.inj hs
    exact Switch.refl _

theorem set_sema_twice (s : Kernel) (i : SemaId) (f g : Semaphore → Semaphore) :
    (s.set_sema i f).set_sema i g = s.set_sema i (fun x => g (f x)) := by
  unfold Kernel.set_sema
  simp only [Function.update_self, Function.update_idem]

theorem set_sema_push (s : Kernel) (i : SemaId) (f : Semaphore → Semaphore) (l : List Stmt) :
    (s.set_sema i f).push l = (s.push l).set_sema i f := by
  unfold Kernel.push
  rw [show (s.set_sema i f).in_external_intr = s.in_external_intr from rfl]
  split_ifs <;> rfl

theorem sema_retest_switch {i : SemaId} (hs : sema_retest s i = .ok s') :
    Switch (effect s (.sema_retest i)) s' := by
  have heq : effect s (.sema_retest i) = sema_down_effect (s.set_sema i (fun x => { x with
      removed := x.removed.erase s.current })) i id := by
    unfold effect sema_down_effect
    rw [set_sema_push, set_sema_twice, set_sema_twice]
    simp only [set_sema_apply, if_pos]
    rfl
  rw [heq]
  exact sema_down_switch hs

/-- The statements that may hand the processor on. -/
def Stmt.Moves : Stmt → Prop
  | .sema_down _ | .sema_retest _ | .sema_up _ | .set_priority_yield _ | .thread_set_nice _
  | .thread_block | .thread_unblock _ | .thread_yield | .exit_schedule | .sleep_until _
  | .cond_wake _ _ | .intq_wait _ _ | .wake_waiting_list => True
  | _ => False

theorem exec_eq_effect {c : Stmt} (hc : ¬ c.Moves) (hs : exec s c = .ok s') : s' = effect s c := by
  cases c with
  | lock_acquire m =>
    obtain ⟨-, -, hs⟩ := bind_eq_ok hs
    obtain ⟨-, -, hs⟩ := bind_eq_ok hs
    obtain rfl := Except.ok.inj hs
    rfl
  | donation_compare m =>
    dsimp only [exec, donation_compare] at hs
    dsimp only [effect]
    cases hh : s.holder m with
    | none =>
      rw [hh] at hs
      cases hs
    | some h =>
      rw [hh] at hs
      exact (Except.ok.inj hs).symm
  | donation_call m =>
    dsimp only [exec, donation_call] at hs
    dsimp only [effect]
    cases hh : s.holder m with
    | none =>
      rw [hh] at hs
      cases hs
    | some h =>
      rw [hh] at hs
      exact (Except.ok.inj hs).symm
  | nested_low high medium =>
    dsimp only [exec, nested_low] at hs
    dsimp only [effect]
    cases hh : (s.thread medium).holded_by.bind s.holder with
    | none =>
      rw [hh] at hs
      cases hs
    | some low =>
      rw [hh] at hs
      exact (Except.ok.inj hs).symm
  | rollback_back =>
    dsimp only [exec, rollback_back] at hs
    dsimp only [effect]
    cases hh : s.cur.possessing_locks.getLast? with
    | none =>
      rw [hh] at hs
      cases hs
    | some e =>
      rw [hh] at hs
      exact (Except.ok.inj hs).symm
  | lock_try_acquire m =>
    obtain ⟨-, -, hs⟩ := bind_eq_ok hs
    obtain rfl := Except.ok.inj hs
    rfl
  | lock_release m =>
    obtain ⟨-, -, hs⟩ := bind_eq_ok hs
    exact (Except.ok.inj hs).symm
  | thread_create t p =>
    obtain ⟨-, -, hs⟩ := bind_eq_ok hs
    dsimp only at hs
    split_ifs at hs
    obtain rfl := Except.ok.inj hs
    rfl
  | thread_exit =>
    obtain ⟨-, -, hs⟩ := bind_eq_ok hs
    obtain rfl := Except.ok.inj hs
    rfl
  | timer_sleep n =>
    dsimp only [exec, timer_sleep] at hs
    dsimp only [effect]
    split_ifs at hs ⊢
    · obtain rfl := Except.ok.inj hs
      rfl
    · obtain ⟨-, -, hs⟩ := bind_eq_ok hs
      obtain rfl := Except.ok.inj hs
      rfl
  | intr_enable =>
    obtain ⟨-, -, hs⟩ := bind_eq_ok hs
    obtain rfl := Except.ok.inj hs
    rfl
  | cond_wait c =>
    obtain ⟨-, -, hs⟩ := bind_eq_ok hs
    obtain ⟨-, -, hs⟩ := bind_eq_ok hs
    obtain rfl := Except.ok.inj hs
    rfl
  | cond_signal c =>
    obtain ⟨-, -, hs⟩ := bind_eq_ok hs
    obtain ⟨-, -, hs⟩ := bind_eq_ok hs
    dsimp only [effect]
    cases hl : (s.cond c).waiters.getLast? with
    | none =>
      rw [hl] at hs
      obtain rfl := Except.ok.inj hs
      rfl
    | some w =>
      rw [hl] at hs
      obtain rfl := Except.ok.inj hs
      rfl
  | intq_getc q =>
    obtain ⟨-, -, hs⟩ := bind_eq_ok hs
    dsimp only [effect]
    split_ifs at hs ⊢
    · obtain ⟨-, -, hs⟩ := bind_eq_ok hs
      obtain rfl := Except.ok.inj hs
      rfl
    · obtain rfl := Except.ok.inj hs
      rfl
  | intq_putc q byte =>
    obtain ⟨-, -, hs⟩ := bind_eq_ok hs
    dsimp only [effect]
    split_ifs at hs ⊢
    · obtain ⟨-, -, hs⟩ := bind_eq_ok hs
      obtain rfl := Except.ok.inj hs
      rfl
    · obtain rfl := Except.ok.inj hs
      rfl
  | intq_signal q w =>
    obtain ⟨-, -, hs⟩ := bind_eq_ok hs
    obtain ⟨-, -, hs⟩ := bind_eq_ok hs
    dsimp only [effect]
    cases hl : (s.intq q).waiter w with
    | none =>
      rw [hl] at hs
      obtain rfl := Except.ok.inj hs
      rfl
    | some t =>
      rw [hl] at hs
      obtain rfl := Except.ok.inj hs
      rfl
  | sema_down | sema_retest | sema_up | set_priority_yield | thread_set_nice | thread_block
  | thread_unblock | thread_yield | exit_schedule | sleep_until | cond_wake | intq_wait
  | wake_waiting_list => exact absurd trivial hc
  | _ => exact (Except.ok.inj hs).symm

/-- **What a statement does**: its effect, and then at most a switch. -/
theorem exec_effect {c : Stmt} (hc : c ≠ .wake_waiting_list) (hs : exec s c = .ok s') :
    Switch (effect s c) s' := by
  cases c with
  | sema_down i => exact sema_down_switch hs
  | sema_retest i => exact sema_retest_switch hs
  | sema_up i => exact sema_up_switch hs
  | set_priority_yield n =>
    dsimp only [exec, set_priority_yield] at hs
    cases hl : s.ready_list.getLast? with
    | none =>
      rw [hl] at hs
      obtain rfl := Except.ok.inj hs
      exact Switch.refl _
    | some last =>
      rw [hl] at hs
      dsimp only at hs
      split_ifs at hs
      · exact thread_yield_switch hs
      · obtain rfl := Except.ok.inj hs
        exact Switch.refl _
  | thread_set_nice n => exact thread_yield_switch hs
  | thread_block =>
    obtain ⟨-, -, hs⟩ := bind_eq_ok hs
    exact thread_block_switch hs
  | thread_unblock t => exact thread_unblock_switch hs
  | thread_yield => exact thread_yield_switch hs
  | exit_schedule =>
    refine Switch.trans ?_ (schedule_switch hs)
    exact Switch.set_thread s s.current (fun _ => rfl) (by simp)
  | sleep_until n =>
    dsimp only [exec, sleep_until] at hs
    split_ifs at hs
    refine Switch.trans ?_ (thread_block_switch hs)
    have hset := Switch.set_thread (s.set_thread s.current (fun th => { th with
      waking_time := n })) s.current (f := fun th => { th with elem := some .waiting_list })
        (fun _ => rfl) (fun _ h => h)
    exact ⟨hset.thread, rfl, rfl, rfl, rfl, rfl, rfl, rfl, rfl, rfl, rfl, rfl, rfl, rfl, rfl, hset.used⟩
  | cond_wake c w => exact sema_up_switch hs
  | intq_wait q w =>
    obtain ⟨-, -, hs⟩ := bind_eq_ok hs
    obtain ⟨-, -, hs⟩ := bind_eq_ok hs
    obtain ⟨-, -, hs⟩ := bind_eq_ok hs
    exact thread_block_switch hs
  | wake_waiting_list => exact absurd rfl hc
  | _ =>
    obtain rfl := exec_eq_effect id hs
    exact Switch.refl _

/-- `wake_waiting_list` only takes threads off `waiting_list`, besides. -/
theorem wake_from_switch {l : List Tid} (hs : wake_from l s = .ok s') :
    Switch { s with waiting_list := s'.waiting_list } s' := by
  induction l generalizing s with
  | nil =>
    obtain rfl := Except.ok.inj hs
    exact Switch.refl _
  | cons t rest ih =>
    unfold wake_from at hs
    split_ifs at hs
    · cases hw : s.waiting_list with
      | nil =>
        rw [hw] at hs
        cases hs
      | cons front waiting_list =>
        rw [hw] at hs
        obtain ⟨r, hr, hs⟩ := bind_eq_ok hs
        have hnext := ih hs
        have hready := make_ready_switch hr
        have hset := Switch.set_thread s front (f := fun th => { th with elem := none })
          (fun _ => rfl) (fun _ h => h)
        refine Switch.trans ?_ hnext
        exact ⟨fun u => (hready.thread u).trans (hset.thread u), hready.all_list, rfl, hready.sema,
          hready.holder, hready.cond, hready.next_waiter, hready.intq, hready.idle_thread,
          hready.in_external_intr, hready.yield_on_return, hready.intr_code, hready.ticks,
          hready.load_avg, hready.thread_mlfqs, fun u h => hready.used u (hset.used u h)⟩
    · exact ih hs

/-- What neither a switch nor `wake_waiting_list` can spoil has to be shown of effects only. -/
theorem exec_of_effect {P : Kernel → Prop} {c : Stmt} (hswitch : ∀ r r', Switch r r' → P r → P r')
    (hwaiting : ∀ r l, P r → P { r with waiting_list := l }) (heffect : P (effect s c))
    (hs : exec s c = .ok s') : P s' := by
  by_cases hc : c = .wake_waiting_list
  · subst hc
    exact hswitch _ _ (wake_from_switch hs) (hwaiting s _ heffect)
  · exact hswitch _ _ (exec_effect hc hs) heffect

/-! ## The statements a statement goes on with -/

def pushes (s : Kernel) : Stmt → List Stmt
  | .sema_down i | .sema_retest i => if (s.sema i).value = 0 then [.sema_retest i] else []
  | .lock_acquire m => [.donation_test m, .sema_down (.lock m), .lock_hold m]
  | .donation_test m => if s.holder m ≠ none then [.donation_compare m] else []
  | .donation_compare m =>
    match s.holder m with
    | none => []
    | some h => if s.priority h < s.cur.priority then [.donation_call m] else []
  | .donation_call m =>
    match s.holder m with
    | none => []
    | some low => [.donation_member low m]
  | .donation_member low m => [.donation_insert low ⟨s.cur.priority, m, s.current⟩,
      .donation_link m, .donation_write low m, .nested_donation s.current low]
  | .nested_donation high medium =>
    if (s.thread medium).holded_by = none then [] else [.nested_low high medium]
  | .nested_low high medium =>
    match (s.thread medium).holded_by.bind s.holder with
    | none => []
    | some low => [.nested_write high low, .nested_donation medium low]
  | .lock_try_acquire m => [.lock_try_down m]
  | .lock_try_down m => if 0 < (s.sema (.lock m)).value then [.lock_hold m] else []
  | .lock_release m => [.release_test m, .sema_up (.lock m)]
  | .release_test m => if s.cur.possessing_locks ≠ [] then [.priority_rollback m] else []
  | .priority_rollback m =>
    if (s.sema (.lock m)).waiters = [] then [] else [.rollback_loop m, .rollback_test]
  | .rollback_test => if s.cur.possessing_locks = [] then [.rollback_original] else [.rollback_back]
  | .thread_set_priority n =>
    if s.thread_mlfqs then []
    else if s.cur.possessing_locks ≠ [] then [.set_original n, .set_priority_yield n]
    else [.set_priority n, .set_original n, .set_priority_yield n]
  | .thread_create t _ => [.lock_acquire tid_lock, .lock_release tid_lock, .thread_unblock t]
  | .thread_exit => [.sema_up (.parent_wait s.current), .exit_schedule]
  | .timer_sleep n => if n ≤ 0 then [] else [.sleep_until (s.ticks + n)]
  | .cond_wait c => [.cond_enter c s.cur.priority]
  | .cond_enter c _ => [.lock_release (s.cond c).lock, .sema_down (.waiter s.next_waiter),
      .lock_acquire (s.cond c).lock, .cond_return c s.next_waiter]
  | .cond_signal c =>
    match (s.cond c).waiters.getLast? with
    | none => []
    | some w => [.cond_wake c w.waiter]
  | .cond_broadcast c => [.broadcast_loop c]
  | .broadcast_loop c =>
    if (s.cond c).waiters = [] then [] else [.cond_signal c, .broadcast_loop c]
  | .intq_getc q =>
    if intq_empty (s.intq q) then [.lock_acquire (s.intq q).lock, .intq_wait q .not_empty,
      .lock_release (s.intq q).lock, .intq_getc q]
    else [.intq_signal q .not_full]
  | .intq_putc q byte =>
    if intq_full (s.intq q) then [.lock_acquire (s.intq q).lock, .intq_wait q .not_full,
      .lock_release (s.intq q).lock, .intq_putc q byte]
    else [.intq_signal q .not_empty]
  | .intq_signal q w =>
    match (s.intq q).waiter w with
    | none => []
    | some t => [.thread_unblock t, .intq_clear q w]
  | .timer_interrupt =>
    if s.thread_mlfqs then [.mlfqs_tick_change, .wake_waiting_list] else [.wake_waiting_list]
  | _ => []

/-- A change that leaves the statements alone, and a call. -/
structure Pushed (s r : Kernel) (l : List Stmt) : Prop where
  code : ∀ t, (r.thread t).code =
    if s.in_external_intr = false ∧ t = s.current then l ++ (s.thread t).code
    else (s.thread t).code
  intr_code : r.intr_code = if s.in_external_intr = true then l ++ s.intr_code else s.intr_code

theorem Pushed.push {r : Kernel} (l : List Stmt) (hcode : ∀ t, (r.thread t).code = (s.thread t).code)
    (hintr : r.intr_code = s.intr_code) (hctx : r.in_external_intr = s.in_external_intr)
    (hcur : r.current = s.current) : Pushed s (r.push l) l := by
  refine ⟨fun t => ?_, ?_⟩
  · rw [push_code, hcode, hctx, hcur]
  · unfold Kernel.push
    rw [hctx]
    split_ifs
    · rw [← hintr]
    · exact hintr

theorem Pushed.nil {r : Kernel} (hcode : ∀ t, (r.thread t).code = (s.thread t).code)
    (hintr : r.intr_code = s.intr_code) : Pushed s r [] := by
  refine ⟨fun t => ?_, ?_⟩
  · rw [hcode]
    split_ifs <;> rfl
  · rw [hintr]
    split_ifs <;> rfl

theorem code_set_thread {f : Thread → Thread} (hf : ∀ th, (f th).code = th.code) (t u : Tid) :
    ((s.set_thread t f).thread u).code = (s.thread u).code := by
  rw [set_thread_apply]
  split_ifs with hu
  · rw [hu, hf]
  · rfl

/-- Threads and `load_avg` are written, and nothing else. -/
def Rewrites (s s' : Kernel) : Prop :=
  ∃ thread load_avg, s' = { s with thread := thread, load_avg := load_avg }

theorem Rewrites.refl (s : Kernel) : Rewrites s s := ⟨s.thread, s.load_avg, rfl⟩

theorem Rewrites.trans {s s' s'' : Kernel} (h : Rewrites s s') (h' : Rewrites s' s'') :
    Rewrites s s'' := by
  obtain ⟨thread, load_avg, rfl⟩ := h
  obtain ⟨thread', load_avg', rfl⟩ := h'
  exact ⟨thread', load_avg', rfl⟩

theorem Rewrites.set_thread (s : Kernel) (t : Tid) (f : Thread → Thread) :
    Rewrites s (s.set_thread t f) := ⟨_, s.load_avg, rfl⟩

theorem unlink_rewrites (l : List LockElem) (s : Kernel) : Rewrites s (unlink l s) := by
  induction l generalizing s with
  | nil => exact Rewrites.refl s
  | cons e l ih => exact (Rewrites.set_thread s _ _).trans (ih _)

theorem for_all_list_rewrites (s : Kernel) (f : Thread → Thread) :
    Rewrites s (for_all_list s f) := by
  unfold for_all_list
  generalize hl : s.all_list = l
  clear hl
  induction l generalizing s with
  | nil => exact Rewrites.refl s
  | cons t l ih =>
    refine Rewrites.trans ?_ (ih _)
    dsimp only
    split_ifs
    · exact Rewrites.refl s
    · exact Rewrites.set_thread s t f

theorem mlfqs_tick_change_rewrites (s : Kernel) : Rewrites s (mlfqs_tick_change s) := by
  unfold mlfqs_tick_change
  dsimp only
  -- one assignment, then up to two loops
  have hfirst : Rewrites s (if s.current ≠ s.idle_thread then
      s.set_thread s.current (fun th => { th with recent_cpu := th.recent_cpu + F }) else s) := by
    split_ifs
    · exact Rewrites.set_thread s _ _
    · exact Rewrites.refl s
  generalize (if s.current ≠ s.idle_thread then
      s.set_thread s.current (fun th => { th with recent_cpu := th.recent_cpu + F }) else s) = r
    at hfirst ⊢
  have hsecond : Rewrites s (if r.ticks % 100 = 0 then
      for_all_list (calc_load_avg r) (calc_recent_cpu (calc_load_avg r).load_avg) else r) := by
    split_ifs
    · have hload : Rewrites r (calc_load_avg r) := ⟨r.thread, _, rfl⟩
      exact (hfirst.trans hload).trans (for_all_list_rewrites _ _)
    · exact hfirst
  split_ifs at hsecond ⊢
  all_goals first | exact hsecond.trans (for_all_list_rewrites _ _) | exact hsecond

/-- What a loop over `all_list` keeps of a thread. -/
theorem for_all_list_keeps {α : Type} (g : Thread → α) (s : Kernel) {f : Thread → Thread}
    (hf : ∀ th, g (f th) = g th) (t : Tid) : g ((for_all_list s f).thread t) = g (s.thread t) := by
  unfold for_all_list
  generalize hl : s.all_list = l
  clear hl
  induction l generalizing s with
  | nil => rfl
  | cons u l ih =>
    rw [List.foldl_cons, ih]
    split_ifs
    · rfl
    · rw [set_thread_apply]
      split_ifs with ht
      · rw [hf, ht]
      · rfl

/-- What `mlfqs_tick_change` keeps of a thread: all but `recent_cpu` and `priority`. -/
theorem mlfqs_tick_change_keeps {α : Type} (g : Thread → α) (s : Kernel)
    (hcpu : ∀ th x, g { th with recent_cpu := x } = g th)
    (hpriority : ∀ th x, g { th with priority := x } = g th) (t : Tid) :
    g ((mlfqs_tick_change s).thread t) = g (s.thread t) := by
  unfold mlfqs_tick_change
  dsimp only
  have hfirst : g ((if s.current ≠ s.idle_thread then
      s.set_thread s.current (fun th => { th with recent_cpu := th.recent_cpu + F })
      else s).thread t) = g (s.thread t) := by
    split_ifs
    · rw [set_thread_apply]
      split_ifs with hu
      · rw [hcpu, hu]
      · rfl
    · rfl
  generalize (if s.current ≠ s.idle_thread then
      s.set_thread s.current (fun th => { th with recent_cpu := th.recent_cpu + F }) else s) = r
    at hfirst ⊢
  have hsecond : g ((if r.ticks % 100 = 0 then
      for_all_list (calc_load_avg r) (calc_recent_cpu (calc_load_avg r).load_avg)
      else r).thread t) = g (s.thread t) := by
    split_ifs
    · have hcalc : ∀ th, g (calc_recent_cpu (calc_load_avg r).load_avg th) = g th :=
        fun th => hcpu th _
      rw [for_all_list_keeps g _ hcalc]
      exact hfirst
    · exact hfirst
  split_ifs at hsecond ⊢
  all_goals first
    | rw [for_all_list_keeps g _ (fun th => hpriority th _)]; exact hsecond
    | exact hsecond

theorem unlink_keeps {α : Type} (g : Thread → α) (hg : ∀ th, g { th with holded_by := none } = g th)
    (l : List LockElem) (s : Kernel) (t : Tid) : g ((unlink l s).thread t) = g (s.thread t) := by
  induction l generalizing s with
  | nil => rfl
  | cons e l ih =>
    unfold unlink
    rw [ih, set_thread_apply]
    split_ifs with ht
    · rw [hg, ht]
    · rfl

theorem sema_down_effect_pushed (s : Kernel) (i : SemaId) (f : List Tid → List Tid) :
    Pushed s (sema_down_effect s i f) (pushes s (.sema_down i)) := by
  unfold sema_down_effect
  dsimp only [pushes]
  split_ifs
  · have hpush := Pushed.push (r := s) [.sema_retest i] (fun _ => rfl) rfl rfl rfl
    exact ⟨hpush.code, hpush.intr_code⟩
  · exact Pushed.nil (fun _ => rfl) rfl

/-- **Calls.** A statement puts the statements it goes on with in front of those of the thread,
or handler, that executes it. -/
theorem effect_pushed (s : Kernel) {c : Stmt}
    (hnew : ∀ t p, c = .thread_create t p → (s.thread t).code = []) :
    Pushed s (effect s c) (pushes s c) := by
  cases c with
  | sema_down i => exact sema_down_effect_pushed s i _
  | sema_retest i => exact sema_down_effect_pushed s i (fun l => l.erase s.current)
  | sema_try_down i =>
    dsimp only [effect, sema_try_down]
    split_ifs <;> exact Pushed.nil (fun _ => rfl) rfl
  | lock_acquire m => exact Pushed.push (r := s) _ (fun _ => rfl) rfl rfl rfl
  | donation_test m =>
    dsimp only [effect, donation_test, pushes]
    split_ifs
    · exact Pushed.push (r := s) _ (fun _ => rfl) rfl rfl rfl
    · exact Pushed.nil (fun _ => rfl) rfl
  | donation_compare m =>
    dsimp only [effect, pushes]
    cases s.holder m with
    | none => exact Pushed.nil (fun _ => rfl) rfl
    | some h =>
      dsimp only
      split_ifs
      · exact Pushed.push (r := s) _ (fun _ => rfl) rfl rfl rfl
      · exact Pushed.nil (fun _ => rfl) rfl
  | donation_call m =>
    dsimp only [effect, pushes]
    cases s.holder m with
    | none => exact Pushed.nil (fun _ => rfl) rfl
    | some low => exact Pushed.push (r := s) _ (fun _ => rfl) rfl rfl rfl
  | donation_member low m => exact Pushed.push (r := s) _ (fun _ => rfl) rfl rfl rfl
  | donation_insert low e =>
    dsimp only [effect, donation_insert]
    refine Pushed.nil (code_set_thread ?_ low) rfl
    exact fun _ => rfl
  | donation_link m =>
    dsimp only [effect, donation_link]
    refine Pushed.nil (code_set_thread ?_ s.current) rfl
    exact fun _ => rfl
  | donation_write low m =>
    dsimp only [effect, write_priority]
    refine Pushed.nil (code_set_thread ?_ low) rfl
    exact fun _ => rfl
  | nested_donation high medium =>
    dsimp only [effect, nested_donation, pushes]
    split_ifs
    · exact Pushed.nil (fun _ => rfl) rfl
    · exact Pushed.push (r := s) _ (fun _ => rfl) rfl rfl rfl
  | nested_low high medium =>
    dsimp only [effect, pushes]
    cases (s.thread medium).holded_by.bind s.holder with
    | none => exact Pushed.nil (fun _ => rfl) rfl
    | some low => exact Pushed.push (r := s) _ (fun _ => rfl) rfl rfl rfl
  | nested_write high low =>
    dsimp only [effect, write_priority]
    refine Pushed.nil (code_set_thread ?_ low) rfl
    exact fun _ => rfl
  | lock_try_acquire m => exact Pushed.push (r := s) _ (fun _ => rfl) rfl rfl rfl
  | lock_try_down m =>
    dsimp only [effect, lock_try_down, sema_try_down, pushes]
    split_ifs
    · exact Pushed.push (r := s.set_sema _ _) _ (fun _ => rfl) rfl rfl rfl
    · exact Pushed.nil (fun _ => rfl) rfl
  | lock_release m =>
    dsimp only [effect, pushes]
    exact Pushed.push _ (fun _ => rfl) rfl rfl rfl
  | release_test m =>
    dsimp only [effect, release_test, pushes]
    split_ifs
    · exact Pushed.push (r := s) _ (fun _ => rfl) rfl rfl rfl
    · exact Pushed.nil (fun _ => rfl) rfl
  | priority_rollback m =>
    dsimp only [effect, priority_rollback, pushes]
    split_ifs
    · exact Pushed.nil (fun _ => rfl) rfl
    · exact Pushed.push (r := s) _ (fun _ => rfl) rfl rfl rfl
  | rollback_loop m =>
    dsimp only [effect, rollback_loop]
    obtain ⟨thread, load_avg, heq⟩ := unlink_rewrites
      (s.cur.possessing_locks.filter (fun e => e.lock = m)) s
    refine Pushed.nil (fun t => ?_) ?_
    · refine (code_set_thread ?_ _ t).trans (unlink_keeps Thread.code (fun _ => rfl) _ s t)
      exact fun _ => rfl
    · rw [heq]
      rfl
  | rollback_test =>
    dsimp only [effect, rollback_test, pushes]
    split_ifs <;> exact Pushed.push (r := s) _ (fun _ => rfl) rfl rfl rfl
  | rollback_original =>
    dsimp only [effect, rollback_original]
    refine Pushed.nil (code_set_thread ?_ _) rfl
    exact fun _ => rfl
  | rollback_back =>
    dsimp only [effect, pushes]
    cases s.cur.possessing_locks.getLast? with
    | none => exact Pushed.nil (fun _ => rfl) rfl
    | some e =>
      refine Pushed.nil (code_set_thread ?_ _) rfl
      exact fun _ => rfl
  | thread_set_priority n =>
    dsimp only [effect, thread_set_priority, pushes]
    split_ifs
    · exact Pushed.nil (fun _ => rfl) rfl
    all_goals exact Pushed.push (r := s) _ (fun _ => rfl) rfl rfl rfl
  | set_priority n =>
    dsimp only [effect, set_priority]
    refine Pushed.nil (code_set_thread ?_ _) rfl
    exact fun _ => rfl
  | set_original n =>
    dsimp only [effect, set_original]
    refine Pushed.nil (code_set_thread ?_ _) rfl
    exact fun _ => rfl
  | thread_set_nice n =>
    dsimp only [effect]
    refine Pushed.nil (code_set_thread ?_ _) rfl
    exact fun _ => rfl
  | thread_create t p =>
    refine Pushed.push _ (fun u => ?_) rfl rfl rfl
    show ((s.set_thread t (fun _ => new_thread s p)).thread u).code = _
    rw [set_thread_apply]
    split_ifs with hu
    · rw [hu, hnew t p rfl]
      unfold new_thread
      split_ifs <;> rfl
    · rfl
  | thread_exit =>
    refine Pushed.push _ (fun t => ?_) rfl rfl rfl
    refine code_set_thread (s := s) (f := fun th => { th with intr := false }) ?_ s.current t
    exact fun _ => rfl
  | timer_sleep n =>
    dsimp only [effect, pushes]
    split_ifs
    · exact Pushed.nil (fun _ => rfl) rfl
    · exact Pushed.push (r := s) _ (fun _ => rfl) rfl rfl rfl
  | sleep_until n =>
    refine Pushed.nil (fun t => ?_) rfl
    refine code_set_thread (s := s) (f := fun th => { th with waking_time := n }) ?_ s.current t
    exact fun _ => rfl
  | intr_disable =>
    dsimp only [effect]
    refine Pushed.nil (code_set_thread ?_ _) rfl
    exact fun _ => rfl
  | intr_enable =>
    dsimp only [effect]
    refine Pushed.nil (code_set_thread ?_ _) rfl
    exact fun _ => rfl
  | cond_wait c => exact Pushed.push _ (fun _ => rfl) rfl rfl rfl
  | cond_enter c p => exact Pushed.push _ (fun _ => rfl) rfl rfl rfl
  | cond_signal c =>
    dsimp only [effect, pushes]
    cases (s.cond c).waiters.getLast? with
    | none => exact Pushed.nil (fun _ => rfl) rfl
    | some w => exact Pushed.push _ (fun _ => rfl) rfl rfl rfl
  | cond_broadcast c => exact Pushed.push _ (fun _ => rfl) rfl rfl rfl
  | broadcast_loop c =>
    dsimp only [effect, broadcast_loop, pushes]
    split_ifs
    · exact Pushed.nil (fun _ => rfl) rfl
    · exact Pushed.push (r := s) _ (fun _ => rfl) rfl rfl rfl
  | intq_getc q =>
    dsimp only [effect, pushes]
    split_ifs
    · exact Pushed.push (r := s) _ (fun _ => rfl) rfl rfl rfl
    · exact Pushed.push _ (fun _ => rfl) rfl rfl rfl
  | intq_putc q byte =>
    dsimp only [effect, pushes]
    split_ifs
    · exact Pushed.push (r := s) _ (fun _ => rfl) rfl rfl rfl
    · exact Pushed.push _ (fun _ => rfl) rfl rfl rfl
  | intq_signal q w =>
    dsimp only [effect, pushes]
    cases (s.intq q).waiter w with
    | none => exact Pushed.nil (fun _ => rfl) rfl
    | some t => exact Pushed.push (r := s) _ (fun _ => rfl) rfl rfl rfl
  | timer_interrupt =>
    dsimp only [effect, timer_interrupt, pushes]
    split_ifs <;> exact Pushed.push _ (fun _ => rfl) rfl rfl rfl
  | mlfqs_tick_change =>
    obtain ⟨thread, load_avg, heq⟩ := mlfqs_tick_change_rewrites s
    refine Pushed.nil (mlfqs_tick_change_keeps Thread.code s (fun _ _ => rfl) (fun _ _ => rfl)) ?_
    show (mlfqs_tick_change s).intr_code = _
    rw [heq]
  | _ => exact Pushed.nil (fun _ => rfl) rfl

theorem exec_pushed {c : Stmt} (hnew : ∀ t p, c = .thread_create t p → (s.thread t).code = [])
    (hs : exec s c = .ok s') : Pushed s s' (pushes s c) := by
  refine exec_of_effect (P := fun r => Pushed s r (pushes s c)) (fun r r' h hp => ?_)
    (fun r l hp => ⟨hp.code, hp.intr_code⟩) (effect_pushed s hnew) hs
  exact ⟨fun t => (h.code t).trans (hp.code t), h.intr_code.trans hp.intr_code⟩

end Pintos.Threads.Machine
