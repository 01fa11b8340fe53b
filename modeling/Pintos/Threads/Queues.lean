/-
A thread is on one list at most, because nobody puts it on a second one.

All lists of threads go through the one `elem` in `struct thread`. `thread_yield`,
`sema_down` and `timer_sleep` put the running thread on a list, which is on none;
`sema_up` and the timer take a thread off before they make it ready. What is left is
`thread_unblock` at the end of `thread_create`: it finds the new thread as it was made
(`Parked`), since nobody else can have unblocked it.

The queues of `intq.c` are left out. They unblock a thread by its address, and such a
thread may sleep elsewhere by then.
-/
import Pintos.Threads.Alarm

set_option autoImplicit false

namespace Pintos.Threads.Machine

open StepSystem

variable {s s' r : Kernel} {t u : Tid}

/-! ## Threads that were made and not yet unblocked -/

/-- BLOCKED and on no list. -/
structure Parked (s : Kernel) (t : Tid) : Prop where
  status : (s.thread t).status = .blocked
  elem : (s.thread t).elem = none
  ne_idle : t ≠ s.idle_thread

namespace Parked

theorem congr (h : Parked s t) (hthread : s'.thread t = s.thread t)
    (hidle : s'.idle_thread = s.idle_thread) : Parked s' t :=
  ⟨hthread ▸ h.status, hthread ▸ h.elem, hidle ▸ h.ne_idle⟩

theorem set_thread (h : Parked s t) (hne : t ≠ u) (f : Thread → Thread) :
    Parked (s.set_thread u f) t :=
  h.congr (set_thread_of_ne s f hne) rfl

theorem set_sema (h : Parked s t) (i : SemaId) (f : Semaphore → Semaphore) :
    Parked (s.set_sema i f) t := ⟨h.status, h.elem, h.ne_idle⟩

theorem calm (h : Parked s t) (hc : Calm s s') : Parked s' t := by
  refine ⟨?_, (hc.elem t).trans h.elem, ?_⟩
  · rw [hc.used (by rw [h.status]; decide)]
    exact h.status
  · rw [hc.idle_thread]
    exact h.ne_idle

/-- It does not run. -/
theorem ne_current (h : Parked s t) (hi : SchedInv s) : t ≠ s.current := by
  rintro rfl
  have hrun : (s.thread s.current).status = .running := hi.running
  rw [h.status] at hrun
  cases hrun

/-- It is on no list, so `schedule` does not take it. -/
theorem schedule (h : Parked s t) (hl : Lists s) (hs : schedule s = .ok s') : Parked s' t := by
  have heq := schedule_eq hs
  have hne : t ≠ (next_thread_to_run s).1 := by
    rcases next_thread_cases s with ⟨-, hn⟩ | ⟨v, hv, hn⟩
    · rw [hn]
      exact h.ne_idle
    · rw [hn]
      rintro rfl
      have helem := (hl.ready t).mp (List.mem_of_getLast? hv)
      rw [h.elem] at helem
      cases helem
  refine h.congr ?_ (schedule_switch hs).idle_thread
  rw [heq]
  exact Function.update_of_ne hne _ _

theorem make_ready (h : Parked s t) (hne : t ≠ u) (hs : make_ready s u = .ok s') :
    Parked s' t := by
  refine h.congr ?_ (make_ready_switch hs).idle_thread
  rw [(make_ready_eq hs).2]
  exact Function.update_of_ne hne _ _

theorem thread_yield (h : Parked s t) (hi : SchedInv s) (hs : thread_yield s = .ok s') :
    Parked s' t := by
  have hne := h.ne_current hi
  unfold Machine.thread_yield at hs
  obtain ⟨-, -, hs⟩ := bind_eq_ok hs
  dsimp only at hs
  split_ifs at hs with hidle
  · exact (h.set_thread hne _).schedule
      (hi.lists.set_status (by decide) (by decide) (fun _ => hidle) hi.unlinked) hs
  · obtain ⟨r, hr, hs⟩ := bind_eq_ok hs
    exact (h.make_ready hne hr).schedule (hi.lists.make_ready hidle hr) hs

/-- The running thread has been put where it sleeps. -/
theorem thread_block (h : Parked s t) (hne : t ≠ s.current)
    (hready : t ∉ s.ready_list) (hs : thread_block s = .ok s') : Parked s' t := by
  unfold Machine.thread_block at hs
  obtain ⟨-, -, hs⟩ := bind_eq_ok hs
  have hswitch := schedule_switch hs
  refine h.congr ?_ hswitch.idle_thread
  rw [schedule_eq hs]
  refine (Function.update_of_ne ?_ _ _).trans (set_thread_of_ne s _ hne)
  rcases next_thread_cases (s.set_thread s.current (fun th => { th with status := .blocked })) with
    ⟨-, hn⟩ | ⟨v, hv, hn⟩
  · rw [hn]
    exact h.ne_idle
  · rw [hn]
    rintro rfl
    exact hready (List.mem_of_getLast? hv)

theorem not_ready (h : Parked s t) (hl : Lists s) : t ∉ s.ready_list := by
  rw [hl.ready, h.elem]
  decide

theorem thread_unblock (h : Parked s t) (hi : SchedInv s) (hne : t ≠ u)
    (hu : u ≠ s.idle_thread) (hs : thread_unblock s u = .ok s') : Parked s' t := by
  unfold Machine.thread_unblock at hs
  obtain ⟨_, hblocked, hs⟩ := bind_eq_ok hs
  obtain ⟨r, hr, hs⟩ := bind_eq_ok hs
  obtain ⟨-, -, hs⟩ := bind_eq_ok hs
  have hready := h.make_ready hne hr
  split_ifs at hs
  · refine hready.thread_yield (hi.make_ready hu ?_ hr) hs
    rw [ASSERT_eq_ok hblocked]
    decide
  · obtain rfl := Except.ok.inj hs
    exact hready

theorem sema_up (h : Parked s t) (hi : SchedInv s) {i : SemaId} (hs : sema_up s i = .ok s') :
    Parked s' t := by
  unfold Machine.sema_up at hs
  cases hw : (s.sema i).waiters.getLast? with
  | none =>
    rw [hw] at hs
    obtain rfl := Except.ok.inj hs
    exact h.congr rfl rfl
  | some w =>
    rw [hw] at hs
    have hmem := (hi.lists.waiters i w).mp (List.mem_of_getLast? hw)
    have hne : t ≠ w := by
      rintro rfl
      rw [h.elem] at hmem
      cases hmem
    have hleave := hi.leave_waiters (f := fun x => { x with
      value := x.value + 1
      ups := x.ups + 1
      waiters := x.waiters.dropLast
      removed := x.removed ++ [w] }) (fun _ => rfl) hw
    refine Parked.thread_unblock ?_ hleave hne (hi.lists.ne_idle hmem) hs
    exact (h.set_sema i _).set_thread hne _

theorem sema_down (h : Parked s t) (hi : SchedInv s) {i : SemaId}
    (hs : sema_down s i = .ok s') : Parked s' t := by
  unfold Machine.sema_down at hs
  obtain ⟨-, -, hs⟩ := bind_eq_ok hs
  split_ifs at hs with hzero helem
  · have hcalm := Calm.push s [.sema_retest i]
    have hne := h.ne_current hi
    refine Parked.thread_block ?_ ?_ ?_ hs
    · exact ((h.calm hcalm).set_sema i _).set_thread hne _
    · intro heq
      exact hne (heq.trans hcalm.current)
    · intro hmem
      refine h.not_ready hi.lists ?_
      rw [← hcalm.ready_list]
      exact hmem
  · obtain rfl := Except.ok.inj hs
    exact h.congr rfl rfl

theorem sleep_until (h : Parked s t) (hi : SchedInv s) {n : ℤ}
    (hs : sleep_until s n = .ok s') : Parked s' t := by
  have hne := h.ne_current hi
  unfold Machine.sleep_until at hs
  dsimp only at hs
  split_ifs at hs
  have hasleep := (h.set_thread hne (fun th => { th with waking_time := n })).set_thread hne
    (fun th => { th with elem := some .waiting_list })
  have hblock := fun h hne hready => Parked.thread_block (t := t) h hne hready hs
  exact hblock (hasleep.congr rfl rfl) hne (h.not_ready hi.lists)

theorem wake_from {l : List Tid} (h : Parked s t) (hi : SchedInv s)
    (hl : ∀ v ∈ l, v ≠ t ∧ v ≠ s.idle_thread) (hs : wake_from l s = .ok s') : Parked s' t := by
  induction l generalizing s with
  | nil =>
    obtain rfl := Except.ok.inj hs
    exact h
  | cons v rest ih =>
    have hrest := fun x hx => hl x (List.mem_cons_of_mem v hx)
    unfold Machine.wake_from at hs
    split_ifs at hs with hdue
    · cases hw : s.waiting_list with
      | nil =>
        rw [hw] at hs
        cases hs
      | cons front waiting_list =>
        rw [hw] at hs
        obtain ⟨r, hr, hs⟩ := bind_eq_ok hs
        have hfront := (hi.lists.waiting front).mp (by rw [hw]; exact List.mem_cons_self)
        have hne : t ≠ front := by
          rintro rfl
          rw [h.elem] at hfront
          cases hfront
        obtain ⟨hv, hidle⟩ := hl v List.mem_cons_self
        have hready : Parked r t := by
          refine Parked.make_ready ?_ hv.symm hr
          exact (h.set_thread hne (fun th => { th with elem := none })).congr rfl rfl
        refine ih hready (hi.wake_one hw hidle hdue.2 hr) (fun x hx => ?_) hs
        rw [(make_ready_switch hr).idle_thread]
        exact hrest x hx
    · exact ih h hi hrest hs

/-- Only its own `thread_unblock` changes it. -/
theorem exec {c : Stmt} (h : Parked s t) (hi : SchedInv s)
    (hidle : c ≠ .thread_unblock s.idle_thread) (hne : c ≠ .thread_unblock t)
    (hs : exec s c = .ok s') : Parked s' t := by
  have hcur := h.ne_current hi
  cases c with
  | sema_down i => exact h.sema_down hi hs
  | sema_retest i =>
    refine (h.set_sema i _).sema_down (hi.calm ?_) hs
    refine ⟨rfl, rfl, fun j => ?_, fun _ => rfl, fun _ => Or.inl rfl, rfl, rfl⟩
    rw [set_sema_apply]
    split_ifs with hj
    · rw [hj]
    · rfl
  | sema_up i => exact h.sema_up hi hs
  | set_priority_yield n =>
    dsimp only [Machine.exec, set_priority_yield] at hs
    cases hl : s.ready_list.getLast? with
    | none =>
      rw [hl] at hs
      obtain rfl := Except.ok.inj hs
      exact h
    | some last =>
      rw [hl] at hs
      dsimp only at hs
      split_ifs at hs
      · exact h.thread_yield hi hs
      · obtain rfl := Except.ok.inj hs
        exact h
  | thread_set_nice n =>
    refine (h.set_thread hcur _).thread_yield (hi.calm ?_) hs
    refine ⟨rfl, rfl, fun _ => rfl, fun v => ?_, fun v => Or.inl ?_, rfl, rfl⟩
    all_goals
      rw [set_thread_apply]
      split_ifs with hv
      · rw [hv]
        rfl
      · rfl
  | thread_block =>
    obtain ⟨-, -, hs⟩ := bind_eq_ok hs
    exact h.thread_block hcur (h.not_ready hi.lists) hs
  | thread_unblock v =>
    refine h.thread_unblock hi ?_ (fun heq => hidle (heq ▸ rfl)) hs
    rintro rfl
    exact hne rfl
  | thread_yield => exact h.thread_yield hi hs
  | exit_schedule =>
    exact (h.set_thread hcur _).schedule
      (hi.lists.set_status (by decide) (by decide) (by simp) hi.unlinked) hs
  | sleep_until n => exact h.sleep_until hi hs
  | cond_wake d w =>
    have hcalm : Calm s (s.set_cond d (fun x => { x with log := .raise w :: x.log })) :=
      ⟨rfl, rfl, fun _ => rfl, fun _ => rfl, fun _ => Or.inl rfl, rfl, rfl⟩
    exact (h.calm hcalm).sema_up (hi.calm hcalm) hs
  | intq_wait q w =>
    obtain ⟨-, -, hs⟩ := bind_eq_ok hs
    obtain ⟨-, -, hs⟩ := bind_eq_ok hs
    obtain ⟨-, -, hs⟩ := bind_eq_ok hs
    have hblock := fun h hne hready => Parked.thread_block (t := t) h hne hready hs
    exact hblock (h.congr rfl rfl) hcur (h.not_ready hi.lists)
  | wake_waiting_list =>
    refine h.wake_from hi (fun v hv => ?_) hs
    have helem := (hi.lists.waiting v).mp hv
    refine ⟨?_, hi.lists.ne_idle helem⟩
    rintro rfl
    rw [h.elem] at helem
    cases helem
  | _ =>
    have hunused := fun v p => thread_create_unused hs (t := v) (p := p)
    obtain rfl := exec_eq_effect id hs
    refine h.calm (Calm.effect id fun v p heq => ?_)
    exact ⟨hunused v p heq, hi.lists.unused (hunused v p heq)⟩

/-- A thread as `thread_create` makes it. -/
theorem create {p : ℤ} (hi : SchedInv s) (hs : Machine.exec s (.thread_create t p) = .ok s') :
    Parked s' t := by
  have hunused := thread_create_unused hs rfl
  have hidle := exec_idle_thread hs
  obtain rfl := exec_eq_effect id hs
  obtain ⟨code, heq⟩ := effect_create s t p t
  rw [if_pos rfl] at heq
  refine ⟨?_, ?_, ?_⟩
  · rw [heq]
    unfold new_thread
    dsimp only
    split_ifs <;> rfl
  · rw [heq]
    unfold new_thread
    dsimp only
    split_ifs <;> rfl
  · rw [hidle]
    rintro rfl
    exact hi.lists.idle_used hunused

end Parked

/-! ## No thread is put on a second list -/

theorem ASSERT_bind_relinked {α : Type} {p : Prop} [Decidable p] {f : Unit → Res α}
    (h : p → f () ≠ .error .relinked) : (ASSERT p >>= f) ≠ .error .relinked := by
  by_cases hp : p
  · rw [ASSERT_pos hp, ok_bind]
    exact h hp
  · rw [ASSERT, if_neg hp, error_bind]
    rintro ⟨⟩

theorem schedule_relinked (s : Kernel) : schedule s ≠ .error .relinked := by
  unfold schedule
  refine ASSERT_bind_relinked fun _ => ?_
  rintro ⟨⟩

theorem thread_yield_relinked (h : s.cur.elem = none) : thread_yield s ≠ .error .relinked := by
  unfold thread_yield
  refine ASSERT_bind_relinked fun _ => ?_
  dsimp only
  split_ifs
  · exact schedule_relinked _
  · unfold make_ready
    rw [if_pos h, ok_bind]
    exact schedule_relinked _

theorem thread_block_relinked (s : Kernel) : thread_block s ≠ .error .relinked := by
  unfold thread_block
  exact ASSERT_bind_relinked fun _ => schedule_relinked _

theorem thread_unblock_relinked (hi : SchedInv s) (ht : (s.thread t).elem = none) :
    thread_unblock s t ≠ .error .relinked := by
  unfold thread_unblock
  refine ASSERT_bind_relinked fun hblocked => ?_
  have hne : s.current ≠ t := by
    rintro rfl
    have hrun : (s.thread s.current).status = .running := hi.running
    rw [hblocked] at hrun
    cases hrun
  unfold make_ready
  rw [if_pos ht, ok_bind]
  refine ASSERT_bind_relinked fun _ => ?_
  split_ifs
  · refine thread_yield_relinked ?_
    show ((s.set_thread t (fun th => { th with
      status := .ready, elem := some .ready_list })).thread s.current).elem = none
    rw [set_thread_of_ne s _ hne]
    exact hi.unlinked
  · rintro ⟨⟩

theorem sema_up_relinked (hi : SchedInv s) (i : SemaId) : sema_up s i ≠ .error .relinked := by
  unfold sema_up
  cases hw : (s.sema i).waiters.getLast? with
  | none => rintro ⟨⟩
  | some w =>
    refine thread_unblock_relinked (hi.leave_waiters (fun _ => rfl) hw) ?_
    exact congrArg Thread.elem (set_thread_self _ w (fun th => { th with elem := none }))

theorem sema_down_relinked (h : s.cur.elem = none) (i : SemaId) :
    sema_down s i ≠ .error .relinked := by
  unfold sema_down
  refine ASSERT_bind_relinked fun _ => ?_
  rw [if_pos h]
  split_ifs
  · exact thread_block_relinked _
  · rintro ⟨⟩

/-- A statement may put a thread on two lists only if it is `thread_unblock`. -/
theorem exec_relinked {c : Stmt} (hi : SchedInv s) (hsorted : AlarmSorted s)
    (hunblock : ∀ t, c = .thread_unblock t → (s.thread t).elem = none) :
    exec s c ≠ .error .relinked := by
  cases c with
  | sema_down i => exact sema_down_relinked hi.unlinked i
  | sema_retest i =>
    refine sema_down_relinked (s := s.set_sema i (fun x => { x with
      removed := x.removed.erase s.current })) ?_ i
    exact hi.unlinked
  | sema_up i => exact sema_up_relinked hi i
  | set_priority_yield n =>
    dsimp only [exec, set_priority_yield]
    split
    · rintro ⟨⟩
    · split_ifs
      · exact thread_yield_relinked hi.unlinked
      · rintro ⟨⟩
  | thread_set_nice n =>
    refine thread_yield_relinked ?_
    exact (congrArg Thread.elem (set_thread_self s s.current _)).trans hi.unlinked
  | thread_block => exact ASSERT_bind_relinked fun _ => thread_block_relinked _
  | thread_unblock t => exact thread_unblock_relinked hi (hunblock t rfl)
  | thread_yield => exact thread_yield_relinked hi.unlinked
  | exit_schedule => exact schedule_relinked _
  | sleep_until n =>
    dsimp only [exec, sleep_until]
    rw [if_pos ?_]
    · exact thread_block_relinked _
    · exact (congrArg Thread.elem (set_thread_self s s.current _)).trans hi.unlinked
  | cond_wake d w =>
    have hcalm : Calm s (s.set_cond d (fun x => { x with log := .raise w :: x.log })) :=
      ⟨rfl, rfl, fun _ => rfl, fun _ => rfl, fun _ => Or.inl rfl, rfl, rfl⟩
    exact sema_up_relinked (hi.calm hcalm) _
  | wake_waiting_list =>
    obtain ⟨s', hs, -⟩ := wake_from_spec hi rfl hsorted
    dsimp only [exec]
    rw [hs]
    rintro ⟨⟩
  | _ =>
    dsimp only [exec, lock_acquire, donation_compare, donation_call, nested_low,
      lock_try_acquire, lock_release, rollback_back, thread_create, thread_exit, timer_sleep,
      cond_wait, cond_signal, intq_getc, intq_putc, intq_wait, intq_signal]
    repeat' first
      | exact thread_block_relinked _
      | refine ASSERT_bind_relinked fun _ => ?_
      | split
    all_goals rintro ⟨⟩

/-! ## Pending `thread_unblock`s -/

/-- The statements of `intq.c`. -/
def Stmt.Queue : Stmt → Prop
  | .intq_getc _ | .intq_putc _ _ | .intq_wait _ _ | .intq_signal _ _ | .intq_clear _ _ => True
  | _ => False

instance : DecidablePred Stmt.Queue := fun c => by
  cases c <;> first | exact isTrue trivial | exact isFalse id

/-- No queue is used. -/
def no_queue (_ : Kernel) : Event → Prop
  | .call c | .handle c => ¬ c.Queue
  | _ => True

instance (s : Kernel) : DecidablePred (no_queue s) := fun e => by
  cases e <;> first | exact isTrue trivial | exact inferInstanceAs (Decidable (¬ _))

/-- Without queues, what is left to execute unblocks new threads, and each of them once. -/
structure NewInv (s : Kernel) : Prop where
  queue : ∀ v, ∀ c ∈ (s.thread v).code, ¬ c.Queue
  intr_queue : ∀ c ∈ s.intr_code, ¬ c.Queue
  intr_unblock : ∀ t, .thread_unblock t ∉ s.intr_code
  parked : ∀ v t, .thread_unblock t ∈ (s.thread v).code → Parked s t
  single : ∀ t, Single s (.thread_unblock t)

theorem pushes_queue {c : Stmt} (hc : ¬ c.Queue) : ∀ d ∈ pushes s c, ¬ d.Queue := by
  intro d hd
  have hall : (pushes s c).all (fun d => decide (¬ d.Queue)) = true := by
    cases c <;> dsimp only [pushes] <;> first | exact absurd trivial hc | skip
    all_goals repeat' split
    all_goals rfl
  exact of_decide_eq_true (List.all_eq_true.mp hall d hd)

theorem pushes_new {c : Stmt} (hc : ¬ c.Queue) (h : .thread_unblock t ∈ pushes s c) :
    ∃ p, c = .thread_create t p := by
  rcases pushes_unblock h with hcreate | ⟨q, w, rfl, -⟩
  · exact hcreate
  · exact absurd trivial hc

/-- The code of the threads and of the handler changes, and nothing else. -/
theorem NewInv.push {l : List Stmt} (h : NewInv s) (hl : ∀ c ∈ l, ¬ c.Queue)
    (hnew : ∀ t, .thread_unblock t ∉ l) : NewInv (s.push l) := by
  have hcode : Pushed s (s.push l) l := Pushed.push (r := s) l (fun _ => rfl) rfl rfl rfl
  have hmem : ∀ v c, c ∈ ((s.push l).thread v).code → c ∈ l ∨ c ∈ (s.thread v).code := by
    intro v c hc
    rw [hcode.code] at hc
    split_ifs at hc
    · exact List.mem_append.mp hc
    · exact Or.inr hc
  have hintr : ∀ c, c ∈ (s.push l).intr_code → c ∈ l ∨ c ∈ s.intr_code := by
    intro c hc
    rw [hcode.intr_code] at hc
    split_ifs at hc
    · exact List.mem_append.mp hc
    · exact Or.inr hc
  have hold : ∀ v t, .thread_unblock t ∈ ((s.push l).thread v).code →
      .thread_unblock t ∈ (s.thread v).code := fun v t ht => (hmem v _ ht).resolve_left (hnew t)
  constructor
  · exact fun v c hc => (hmem v c hc).elim (hl c) (h.queue v c)
  · exact fun c hc => (hintr c hc).elim (hl c) (h.intr_queue c)
  · exact fun t ht => (hintr _ ht).elim (hnew t) (h.intr_unblock t)
  · exact fun v t ht => (h.parked v t (hold v t ht)).calm (Calm.push s l)
  · exact fun t => (h.single t).push (hnew t)

theorem NewInv.congr (h : NewInv s) (hcode : ∀ v, (s'.thread v).code = (s.thread v).code)
    (hintr : s'.intr_code = s.intr_code) (hparked : ∀ t, Parked s t → Parked s' t) :
    NewInv s' := by
  refine ⟨fun v => ?_, ?_, fun t => ?_, fun v t ht => ?_, fun t => (h.single t).congr hcode⟩
  · rw [hcode]
    exact h.queue v
  · rw [hintr]
    exact h.intr_queue
  · rw [hintr]
    exact h.intr_unblock t
  · rw [hcode] at ht
    exact hparked t (h.parked v t ht)

/-- A statement of the handler. -/
theorem NewInv.handler {c : Stmt} {rest : List Stmt} (h : NewInv s)
    (hgo : HandlerGo s c r s' rest) : NewInv s' := by
  have hc : c ∈ s.intr_code := by
    rw [hgo.before]
    exact List.mem_cons_self
  have hqueue := h.intr_queue c hc
  have hmem : ∀ d, d ∈ s'.intr_code → d ∈ pushes r c ∨ d ∈ s.intr_code := by
    intro d hd
    rw [hgo.after] at hd
    rw [hgo.before]
    exact (List.mem_append.mp hd).imp_right fun hd => List.mem_cons_of_mem c hd
  have hparked : ∀ t, Parked s t → Parked s' t := by
    intro t ht
    have htr : Parked r t := by
      rw [hgo.popped]
      exact ht.congr rfl rfl
    refine htr.exec hgo.inv.sched ?_ ?_ hgo.exec
    · rintro rfl
      exact h.intr_unblock _ hc
    · rintro rfl
      exact h.intr_unblock _ hc
  refine ⟨fun v => ?_, fun d hd => ?_, fun t ht => ?_, fun v t ht => ?_,
    fun t => (h.single t).congr hgo.code⟩
  · rw [hgo.code]
    exact h.queue v
  · exact (hmem d hd).elim (pushes_queue hqueue d) (h.intr_queue d)
  · rcases hmem _ ht with ht | ht
    · obtain ⟨p, rfl⟩ := pushes_new hqueue ht
      exact hgo.fits
    · exact h.intr_unblock t ht
  · rw [hgo.code] at ht
    exact hparked t (h.parked v t ht)

/-- A statement of the running thread. -/
theorem NewInv.thread {c : Stmt} {rest : List Stmt} (hk : KernelInv s) (h : NewInv s)
    (hgo : ThreadGo s c r s' rest) : NewInv s' := by
  have hc : c ∈ (s.thread s.current).code := by
    rw [hgo.before]
    exact List.mem_cons_self
  have hqueue := h.queue _ c hc
  have hcalm : Calm s r := by
    rw [hgo.popped]
    refine ⟨rfl, rfl, fun _ => rfl, fun v => ?_, fun v => Or.inl ?_, rfl, rfl⟩
    all_goals
      rw [set_thread_apply]
      split_ifs with hv
      · rw [hv]
      · rfl
  have hparked : ∀ t, c ≠ .thread_unblock t → Parked s t → Parked s' t := by
    intro t hne ht
    refine (ht.calm hcalm).exec hgo.inv.sched ?_ hne hgo.exec
    rw [hcalm.idle_thread]
    rintro rfl
    exact hk.code.unblock _ hc
  have hunused : ∀ {t} p, c = .thread_create t p → (s.thread t).status = .unused := by
    rintro t p rfl
    have hr := thread_create_unused hgo.exec rfl
    rcases hcalm.status t with heq | ⟨-, hnew⟩
    · rw [← heq]
      exact hr
    · rw [hr] at hnew
      cases hnew
  have hnone : ∀ {t} p, c = .thread_create t p → ∀ v, .thread_unblock t ∉ (s.thread v).code := by
    intro t p hcreate v hv
    have hblocked := (h.parked v t hv).status
    rw [hunused p hcreate] at hblocked
    cases hblocked
  refine ⟨fun v d hd => ?_, ?_, ?_, fun v t ht => ?_, fun t => (h.single t).go hgo fun hp => ?_⟩
  · rcases hgo.mem_code hd with ⟨-, hp⟩ | ⟨hold, -⟩
    · exact pushes_queue hqueue d hp
    · exact h.queue v d hold
  · rw [hgo.intr_code]
    exact h.intr_queue
  · rw [hgo.intr_code]
    exact h.intr_unblock
  · rcases hgo.mem_code ht with ⟨-, hp⟩ | ⟨hold, -⟩
    · obtain ⟨p, rfl⟩ := pushes_new hqueue hp
      exact Parked.create hgo.inv.sched hgo.exec
    · refine hparked t ?_ (h.parked v t hold)
      rintro rfl
      exact (h.single t).done hgo List.not_mem_nil v ht
  · obtain ⟨p, rfl⟩ := pushes_new hqueue hp
    exact ⟨by simp [pushes], hnone p rfl⟩

/-! ## Runs -/

theorem NewInv.step {e : Event} (hk : KernelInv s) (h : NewInv s) (hok : no_queue s e)
    (hs : step s e s') : NewInv s' := by
  cases e with
  | call c =>
    obtain ⟨-, -, -, hc, rfl⟩ := hs
    refine h.push (fun d hd => ?_) fun t ht => ?_
    · obtain rfl := List.mem_singleton.mp hd
      exact hok
    · obtain rfl := List.mem_singleton.mp ht
      exact hc
  | idle =>
    obtain ⟨-, -, -, rfl⟩ := hs
    exact h.push (by simp [Stmt.Queue]) (by simp)
  | go =>
    obtain ⟨c, r, hp, hs⟩ := hs
    rcases go_cases hk hp hs with ⟨rest, hgo⟩ | ⟨rest, hgo⟩
    · exact h.handler hgo
    · exact h.thread hk hgo
  | intr =>
    obtain ⟨-, rfl⟩ := hs
    exact h.congr (fun _ => rfl) rfl fun t ht => ht.congr rfl rfl
  | handle c =>
    obtain ⟨-, -, hc, rfl⟩ := hs
    refine h.push (fun d hd => ?_) fun t ht => ?_
    · obtain rfl := List.mem_singleton.mp hd
      exact hok
    · obtain rfl := List.mem_singleton.mp ht
      exact hc
  | intr_end =>
    obtain ⟨-, hcode, hs⟩ := hs
    have hout : NewInv { s with in_external_intr := false } :=
      h.congr (fun _ => rfl) rfl fun t ht => ht.congr rfl rfl
    unfold intr_end at hs
    dsimp only at hs
    split_ifs at hs
    · have hsched := (hk.set_context hcode false s.yield_on_return).sched
      have hsw := thread_yield_switch hs
      exact hout.congr hsw.code hsw.intr_code fun t ht => ht.thread_yield hsched hs
    · obtain rfl := Except.ok.inj hs
      exact hout

theorem NewInv.thread_start (x : Setup) : NewInv (thread_start x) := by
  have hcode := thread_start_code x
  have hnone : ∀ v t, .thread_unblock t ∉ ((Machine.thread_start x).thread v).code := by
    intro v t ht
    cases hcode v _ ht
  refine ⟨fun v c hc => ?_, fun c hc => ?_, fun t ht => ?_, fun v t ht => ?_,
    fun t => ⟨fun v => ?_, fun v w hv => ?_⟩⟩
  · rw [hcode v c hc]
    exact id
  · cases hc
  · cases ht
  · exact absurd ht (hnone v t)
  · rw [List.count_eq_zero.mpr (hnone v t)]
    exact Nat.zero_le 1
  · exact absurd hv (hnone v t)

theorem new_inv {ok : Kernel → Event → Prop} {x : Setup}
    (hok : ∀ s e, ok s e → no_queue s e) (hr : Reachable (kernel_system x) ok s) : NewInv s := by
  refine reachable_rule hr ?_ fun r e r' hk hi he hs => ?_
  · exact NewInv.thread_start x
  · exact hi.step hk (hok r e he) hs

/-- The list at a place. -/
def Kernel.list (s : Kernel) : Place → List Tid
  | .ready_list => s.ready_list
  | .waiting_list => s.waiting_list
  | .waiters i => (s.sema i).waiters

theorem Lists.mem_list (h : Lists s) (p : Place) : t ∈ s.list p ↔ (s.thread t).elem = some p := by
  cases p with
  | ready_list => exact h.ready t
  | waiting_list => exact h.waiting t
  | waiters i => exact h.waiters i t

theorem Lists.list_nodup (h : Lists s) (p : Place) : (s.list p).Nodup := by
  cases p with
  | ready_list => exact h.ready_nodup
  | waiting_list => exact h.waiting_nodup
  | waiters i => exact h.waiters_nodup i

/-- **Threads and lists.** In every state a run without queues reaches, one thread is RUNNING
and on no list; a READY thread other than the idle thread is on `ready_list`, once, and on no
other list; a BLOCKED thread is not on `ready_list`, and it is on one list at most, once; the
idle thread is not on `ready_list`. No step from there puts a thread on a second list. -/
theorem thread_queues {x : Setup} (hr : Reachable (kernel_system x) no_queue s) :
    ((∃! t, (s.thread t).status = .running) ∧
      ∀ t, (s.thread t).status = .running → ∀ p, t ∉ s.list p) ∧
    (∀ t, (s.thread t).status = .ready → t ≠ s.idle_thread →
      s.ready_list.count t = 1 ∧ ∀ p, p ≠ .ready_list → t ∉ s.list p) ∧
    (∀ t, (s.thread t).status = .blocked → t ∉ s.ready_list ∧
      ∀ p, t ∈ s.list p → (s.list p).count t = 1 ∧ ∀ q, t ∈ s.list q → q = p) ∧
    s.idle_thread ∉ s.ready_list ∧
    (∀ c r, pop_stmt s = some (c, r) → exec r c ≠ .error .relinked) ∧
    intr_end s ≠ .error .relinked := by
  have hk := kernel_inv hr
  have hl := hk.sched.lists
  have hnew := new_inv (fun _ _ he => he) hr
  refine ⟨⟨⟨s.current, hk.sched.running, fun t ht => hl.only t ht⟩, fun t ht p hp => ?_⟩,
    fun t ht hidle => ⟨?_, fun p hp hmem => ?_⟩, fun t ht => ⟨fun hmem => ?_, fun p hp =>
    ⟨List.count_eq_one_of_mem (hl.list_nodup p) hp, fun q hq => ?_⟩⟩, fun hmem => ?_,
    fun c r hp => ?_, ?_⟩
  · obtain rfl := hl.only t ht
    have helem := (hl.mem_list p).mp hp
    rw [show (s.thread s.current).elem = none from hk.sched.unlinked] at helem
    cases helem
  · exact List.count_eq_one_of_mem hl.ready_nodup ((hl.ready t).mpr (hl.linked t ht hidle))
  · have helem := (hl.mem_list p).mp hmem
    rw [hl.linked t ht hidle] at helem
    exact hp (Option.some.inj helem).symm
  · have hready := hl.status t _ ((hl.ready t).mp hmem)
    rw [ht, if_pos rfl] at hready
    cases hready
  · have hboth := ((hl.mem_list q).mp hq).symm.trans ((hl.mem_list p).mp hp)
    exact Option.some.inj hboth
  · exact hl.ne_idle ((hl.ready _).mp hmem) rfl
  · obtain ⟨hk', -⟩ := hk.pop hp
    have hsorted := alarm_sorted hr
    rcases pop_cases hp with ⟨rest, -, hcode, rfl⟩ | ⟨rest, -, hcode, rfl⟩
    · refine exec_relinked hk'.sched hsorted ?_
      rintro t rfl
      refine absurd ?_ (hnew.intr_unblock t)
      rw [hcode]
      exact List.mem_cons_self
    · refine exec_relinked hk'.sched (hsorted.congr rfl fun t _ => ?_) ?_
      · rw [set_thread_apply]
        split_ifs with ht
        · rw [ht]
        · rfl
      · rintro t rfl
        have hparked : Parked s t := by
          refine hnew.parked s.current t ?_
          rw [show (s.thread s.current).code = _ from hcode]
          exact List.mem_cons_self
        rw [set_thread_of_ne s _ (hparked.ne_current hk.sched)]
        exact hparked.elem
  · unfold intr_end
    dsimp only
    split_ifs
    · exact thread_yield_relinked hk.sched.unlinked
    · rintro ⟨⟩

/-- A thread sleeps on a semaphore while the main thread runs. -/
theorem thread_queues_sleeper : ∃ s, Reachable (kernel_system plain_setup) no_queue s ∧
    (s.thread 2).status = .blocked ∧ (s.list (.waiters (.other 0))).count 2 = 1 := by
  obtain ⟨s, hr, hblocked, hmem⟩ := run_reachable (u := plain_setup) no_queue
    (fun s => (s.thread 2).status = .blocked ∧ 2 ∈ (s.sema (.other 0)).waiters)
    sleeper_run (.init rfl) sleeper_run_allowed (by decide +kernel)
  exact ⟨s, hr, hblocked, (((thread_queues hr).2.2.1 2 hblocked).2 (.waiters (.other 0)) hmem).1⟩

end Pintos.Threads.Machine
