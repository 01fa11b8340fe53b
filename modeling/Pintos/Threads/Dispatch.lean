/-
The order of `ready_list` (`threads/thread.c`).

`next_thread_to_run` takes the last thread of `ready_list`, which is put in order when a
thread is inserted and never again. A priority that is written while its thread is on the
list can spoil the order: `priority_donation`, `nested_donation` and `mlfqs_tick_change`
do so. In the runs where these three leave the list in order, the thread taken is always
one of the highest priority.
-/
import Pintos.Threads.KernelInv
import Pintos.Library.Fifo

set_option autoImplicit false

namespace Pintos.Threads.Machine

open StepSystem

/-! ## The order -/

/-- `ready_list` is in ascending order of these priorities. -/
def InOrder (s : Kernel) (priority : Tid → ℤ) : Prop :=
  s.ready_list.Pairwise (fun a b => priority a ≤ priority b)

/-- `ready_list` is in ascending order. -/
def Sorted (s : Kernel) : Prop := InOrder s s.priority

variable {s s' : Kernel}

/-- The order depends on the priorities of the threads on the list only. -/
theorem Sorted.congr (h : Sorted s) (hready : s'.ready_list = s.ready_list)
    (hpriority : ∀ t ∈ s.ready_list, s'.priority t = s.priority t) : Sorted s' := by
  unfold Sorted InOrder
  rw [hready]
  refine h.imp_of_mem fun ha hb hab => ?_
  rw [hpriority _ ha, hpriority _ hb]
  exact hab

theorem Sorted.set_thread (h : Sorted s) (t : Tid) {f : Thread → Thread}
    (hf : ∀ th, (f th).priority = th.priority) : Sorted (s.set_thread t f) := by
  refine h.congr rfl fun u _ => ?_
  show ((s.set_thread t f).thread u).priority = _
  rw [set_thread_apply]
  split_ifs with hu
  · rw [hu]
    exact hf _
  · rfl

/-- The last thread of an ordered list has the highest priority. -/
theorem Sorted.le_last (h : Sorted s) {t last : Tid} (hl : s.ready_list.getLast? = some last)
    (ht : t ∈ s.ready_list) : s.priority t ≤ s.priority last := by
  rcases Fifo.pairwise_last h hl ht with rfl | hle
  · exact le_refl _
  · exact hle

/-- `next_thread_to_run` on an ordered list. -/
theorem Sorted.next_thread (h : Sorted s) {t : Tid} (ht : t ∈ s.ready_list) :
    s.priority t ≤ s.priority (next_thread_to_run s).1 := by
  rcases next_thread_cases s with ⟨hnil, -⟩ | ⟨last, hl, hn⟩
  · rw [hnil] at ht
    cases ht
  · rw [hn]
    exact h.le_last hl ht

/-! ## The scheduler keeps it -/

/-- After a step: the list is in order, and a thread that was switched to has at least the
priority of those left on it. -/
def Dispatched (s s' : Kernel) : Prop :=
  Sorted s' ∧ (s'.current = s.current ∨ ∀ t ∈ s'.ready_list, s'.priority t ≤ s'.cur.priority)

theorem schedule_dispatched (h : Sorted s) (hs : schedule s = .ok s') :
    Sorted s' ∧ ∀ t ∈ s'.ready_list, s'.priority t ≤ s'.cur.priority := by
  have heq := schedule_eq hs
  have hpriority : ∀ t, s'.priority t = s.priority t := (schedule_switch hs).priority
  have hsub : s'.ready_list.Sublist s.ready_list := by
    rw [heq]
    rcases next_thread_cases s with ⟨-, hn⟩ | ⟨last, -, hn⟩
    · rw [hn]
    · rw [hn]
      exact List.dropLast_sublist _
  refine ⟨?_, fun t ht => ?_⟩
  · unfold Sorted InOrder
    refine (h.sublist hsub).imp fun hab => ?_
    rw [hpriority, hpriority]
    exact hab
  · have hcur : s'.current = (next_thread_to_run s).1 := by rw [heq]
    show s'.priority t ≤ s'.priority s'.current
    rw [hpriority, hpriority, hcur]
    exact h.next_thread (hsub.subset ht)

theorem make_ready_sorted {t : Tid} (h : Sorted s) (hs : make_ready s t = .ok s') : Sorted s' := by
  have hpriority : ∀ t, s'.priority t = s.priority t := (make_ready_switch hs).priority
  have hlist : s'.ready_list = list_insert_ordered s.less_priority s.ready_list t := by
    rw [(make_ready_eq hs).2]
  have : Std.Total s.less_priority := ⟨fun a b => le_total (s.priority a) (s.priority b)⟩
  have : IsTrans Tid s.less_priority := ⟨fun _ _ _ hab hbc => le_trans hab hbc⟩
  have hinsert : (list_insert_ordered s.less_priority s.ready_list t).Pairwise s.less_priority :=
    List.Pairwise.orderedInsert t _ h
  unfold Sorted InOrder
  rw [hlist]
  refine hinsert.imp fun hab => ?_
  rw [hpriority, hpriority]
  exact hab

theorem make_ready_current {t : Tid} (hs : make_ready s t = .ok s') : s'.current = s.current := by
  rw [(make_ready_eq hs).2]
  rfl

/-- `thread_yield` switches, if only to the thread that called it. -/
theorem thread_yield_leads (h : Sorted s) (hs : thread_yield s = .ok s') :
    Sorted s' ∧ ∀ t ∈ s'.ready_list, s'.priority t ≤ s'.cur.priority := by
  unfold thread_yield at hs
  obtain ⟨-, -, hs⟩ := bind_eq_ok hs
  dsimp only at hs
  split_ifs at hs
  · have hset : Sorted (s.set_thread s.current (fun th => { th with status := .ready })) :=
      h.set_thread _ (fun _ => rfl)
    exact schedule_dispatched hset hs
  · obtain ⟨r, hr, hs⟩ := bind_eq_ok hs
    exact schedule_dispatched (make_ready_sorted h hr) hs

theorem thread_yield_dispatched (h : Sorted s) (hs : thread_yield s = .ok s') :
    Dispatched s s' := by
  obtain ⟨hsorted, hmax⟩ := thread_yield_leads h hs
  exact ⟨hsorted, Or.inr hmax⟩

theorem thread_block_leads (h : Sorted s) (hs : thread_block s = .ok s') :
    Sorted s' ∧ ∀ t ∈ s'.ready_list, s'.priority t ≤ s'.cur.priority := by
  unfold thread_block at hs
  obtain ⟨-, -, hs⟩ := bind_eq_ok hs
  have hset : Sorted (s.set_thread s.current (fun th => { th with status := .blocked })) :=
    h.set_thread _ (fun _ => rfl)
  exact schedule_dispatched hset hs

theorem thread_block_dispatched (h : Sorted s) (hs : thread_block s = .ok s') :
    Dispatched s s' := by
  obtain ⟨hsorted, hmax⟩ := thread_block_leads h hs
  exact ⟨hsorted, Or.inr hmax⟩

theorem thread_unblock_dispatched {t : Tid} (h : Sorted s) (hs : thread_unblock s t = .ok s') :
    Dispatched s s' := by
  unfold thread_unblock at hs
  obtain ⟨-, -, hs⟩ := bind_eq_ok hs
  obtain ⟨r, hr, hs⟩ := bind_eq_ok hs
  obtain ⟨-, -, hs⟩ := bind_eq_ok hs
  have hcur := make_ready_current hr
  split_ifs at hs
  · obtain ⟨hsorted, hmax⟩ := thread_yield_dispatched (make_ready_sorted h hr) hs
    exact ⟨hsorted, hmax.imp (fun heq => heq.trans hcur) id⟩
  · obtain rfl := Except.ok.inj hs
    exact ⟨make_ready_sorted h hr, Or.inl hcur⟩

theorem sema_up_dispatched {i : SemaId} (h : Sorted s) (hs : sema_up s i = .ok s') :
    Dispatched s s' := by
  unfold sema_up at hs
  cases hw : (s.sema i).waiters.getLast? with
  | none =>
    rw [hw] at hs
    obtain rfl := Except.ok.inj hs
    exact ⟨h, Or.inl rfl⟩
  | some w =>
    rw [hw] at hs
    have hset := Sorted.set_thread (s := s.set_sema i (fun x => { x with
      value := x.value + 1
      ups := x.ups + 1
      waiters := x.waiters.dropLast
      removed := x.removed ++ [w] })) h w (f := fun th => { th with elem := none }) (fun _ => rfl)
    obtain ⟨hsorted, hmax⟩ := thread_unblock_dispatched hset hs
    exact ⟨hsorted, hmax⟩

theorem sorted_push (h : Sorted s) (l : List Stmt) : Sorted (s.push l) := by
  have hframe := (Frame.refl s .thread_yield).push l
  have hthread := ThreadFrame.push (fun t => ThreadFrame.refl .thread_yield (s.thread t)) l
  exact h.congr hframe.ready_list fun t _ => (hthread t).priority (by decide)

theorem sema_down_dispatched {i : SemaId} (h : Sorted s) (hs : sema_down s i = .ok s') :
    Dispatched s s' := by
  unfold sema_down at hs
  obtain ⟨-, -, hs⟩ := bind_eq_ok hs
  split_ifs at hs
  · have hpush := sorted_push h [.sema_retest i]
    have hset := Sorted.set_thread (s := (s.push [.sema_retest i]).set_sema i (fun x => { x with
      waiters := list_insert_ordered s.less_priority x.waiters s.current }))
        hpush s.current (f := fun th => { th with elem := some (.waiters i) }) (fun _ => rfl)
    obtain ⟨hsorted, hmax⟩ := thread_block_dispatched hset hs
    refine ⟨hsorted, hmax.imp (fun heq => ?_) id⟩
    exact heq.trans (push_current s _)
  · obtain rfl := Except.ok.inj hs
    exact ⟨h, Or.inl rfl⟩

theorem wake_from_dispatched {l : List Tid} (h : Sorted s) (hs : wake_from l s = .ok s') :
    Dispatched s s' := by
  induction l generalizing s with
  | nil =>
    obtain rfl := Except.ok.inj hs
    exact ⟨h, Or.inl rfl⟩
  | cons t rest ih =>
    unfold wake_from at hs
    split_ifs at hs
    · cases hw : s.waiting_list with
      | nil =>
        rw [hw] at hs
        cases hs
      | cons front waiting_list =>
        rw [hw] at hs
        obtain ⟨r, hr, hs⟩ := bind_eq_ok hs
        have hset := h.set_thread front (f := fun th => { th with elem := none }) (fun _ => rfl)
        have hsorted := make_ready_sorted (s := { (s.set_thread front (fun th => { th with
          elem := none })) with waiting_list := waiting_list }) hset hr
        have hcur := make_ready_current hr
        obtain ⟨hsorted, hmax⟩ := ih hsorted hs
        exact ⟨hsorted, hmax.imp (fun heq => heq.trans hcur) id⟩
    · exact ih h hs

/-! ## Writing priorities -/

/-- The priorities after a statement that may write those of threads on `ready_list`. -/
def written (s : Kernel) : Stmt → Option (Tid → ℤ)
  | .donation_write low _ => some (Function.update s.priority low s.cur.priority)
  | .nested_write high low => some (Function.update s.priority low (s.priority high))
  | .mlfqs_tick_change => some (mlfqs_tick_change s).priority
  | _ => none

/-- The priorities a statement writes leave `ready_list` in order. -/
def OrderKept (s : Kernel) (c : Stmt) : Prop := ∀ priority ∈ written s c, InOrder s priority

instance (s : Kernel) (priority : Tid → ℤ) : Decidable (InOrder s priority) :=
  inferInstanceAs (Decidable (List.Pairwise _ _))

instance (s : Kernel) (c : Stmt) : Decidable (OrderKept s c) :=
  inferInstanceAs (Decidable (∀ priority ∈ written s c, InOrder s priority))

theorem write_priority_priority (s : Kernel) (high low t : Tid) :
    (write_priority s high low).priority t =
      Function.update s.priority low (s.priority high) t := by
  show ((s.set_thread low _).thread t).priority = _
  rw [set_thread_apply, Function.update_apply]
  split_ifs <;> rfl

/-- Only the running thread's priority is written, and it is not on the list. -/
theorem Sorted.of_current (h : Sorted s) (hk : SchedInv s) (hready : s'.ready_list = s.ready_list)
    (hpriority : ∀ t, t ≠ s.current → s'.priority t = s.priority t) : Sorted s' := by
  refine h.congr hready fun t ht => hpriority t ?_
  exact fun heq => hk.current_ne ((hk.lists.ready t).mp ht) heq.symm

theorem effect_sorted {c : Stmt} (hk : SchedInv s) (h : Sorted s) (hok : OrderKept s c)
    (hnew : ∀ t p, c = .thread_create t p → (s.thread t).status = .unused) :
    Sorted (effect s c) := by
  have hready := (effect_frame s c).ready_list
  by_cases hcreate : ∃ t p, c = .thread_create t p
  · obtain ⟨t, p, rfl⟩ := hcreate
    have helem := hk.lists.unused (hnew t p rfl)
    refine h.congr hready fun u hu => ?_
    have hne : u ≠ t := by
      rintro rfl
      rw [(hk.lists.ready u).mp hu] at helem
      cases helem
    obtain ⟨code, heq⟩ := effect_create s t p u
    show ((effect s (.thread_create t p)).thread u).priority = _
    rw [heq, if_neg hne]
  by_cases hwrites : .priority ∈ c.writes
  swap
  · refine h.congr hready fun t _ => ?_
    exact (effect_thread s (fun t p heq => hcreate ⟨t, p, heq⟩) t).priority hwrites
  have hset : ∀ f : Thread → Thread, ∀ t, t ≠ s.current →
      (s.set_thread s.current f).priority t = s.priority t :=
    fun f t ht => congrArg Thread.priority (set_thread_of_ne s f ht)
  -- the statements that write priorities
  cases c with
  | donation_write low m =>
    unfold Sorted InOrder
    refine List.Pairwise.imp (fun {a b} hab => ?_) (hok _ rfl)
    show (write_priority s s.current low).priority a ≤ (write_priority s s.current low).priority b
    rw [write_priority_priority, write_priority_priority]
    exact hab
  | nested_write high low =>
    unfold Sorted InOrder
    refine List.Pairwise.imp (fun {a b} hab => ?_) (hok _ rfl)
    show (write_priority s high low).priority a ≤ (write_priority s high low).priority b
    rw [write_priority_priority, write_priority_priority]
    exact hab
  | rollback_original =>
    dsimp only [effect, rollback_original]
    exact h.of_current hk rfl (hset _)
  | rollback_back =>
    refine h.of_current hk hready fun t ht => ?_
    dsimp only [effect]
    cases s.cur.possessing_locks.getLast? with
    | none => rfl
    | some e => exact hset _ t ht
  | set_priority n => exact h.of_current hk hready (hset (fun th => { th with priority := n }))
  | thread_set_nice n => exact h.of_current hk hready (hset _)
  | mlfqs_tick_change =>
    unfold Sorted InOrder
    rw [hready]
    exact hok _ rfl
  | _ => simp [Stmt.writes] at hwrites

theorem exec_dispatched {c : Stmt} (hk : SchedInv s) (h : Sorted s) (hok : OrderKept s c)
    (hs : exec s c = .ok s') : Dispatched s s' := by
  cases c with
  | sema_down i => exact sema_down_dispatched h hs
  | sema_retest i =>
    exact sema_down_dispatched (s := s.set_sema i (fun x => { x with
      removed := x.removed.erase s.current })) h hs
  | sema_up i => exact sema_up_dispatched h hs
  | set_priority_yield n =>
    dsimp only [exec, set_priority_yield] at hs
    cases hl : s.ready_list.getLast? with
    | none =>
      rw [hl] at hs
      obtain rfl := Except.ok.inj hs
      exact ⟨h, Or.inl rfl⟩
    | some last =>
      rw [hl] at hs
      dsimp only at hs
      split_ifs at hs
      · exact thread_yield_dispatched h hs
      · obtain rfl := Except.ok.inj hs
        exact ⟨h, Or.inl rfl⟩
  | thread_set_nice n =>
    have heffect := effect_sorted (c := .thread_set_nice n) hk h hok (by rintro t p ⟨⟩)
    exact thread_yield_dispatched (s := effect s (.thread_set_nice n)) heffect hs
  | thread_block =>
    obtain ⟨-, -, hs⟩ := bind_eq_ok hs
    exact thread_block_dispatched h hs
  | thread_unblock t => exact thread_unblock_dispatched h hs
  | thread_yield => exact thread_yield_dispatched h hs
  | exit_schedule =>
    have hset : Sorted (s.set_thread s.current (fun th => { th with status := .dying })) :=
      h.set_thread _ (fun _ => rfl)
    obtain ⟨hsorted, hmax⟩ := schedule_dispatched hset hs
    exact ⟨hsorted, Or.inr hmax⟩
  | sleep_until n =>
    dsimp only [exec, sleep_until] at hs
    split_ifs at hs
    have hset := (h.set_thread s.current (f := fun th => { th with waking_time := n })
      (fun _ => rfl)).set_thread s.current (f := fun th => { th with elem := some .waiting_list })
        (fun _ => rfl)
    have hblock := fun h => thread_block_dispatched h hs
    exact hblock hset
  | cond_wake d w =>
    exact sema_up_dispatched (s := s.set_cond d (fun x => { x with log := .raise w :: x.log })) h hs
  | intq_wait q w =>
    obtain ⟨-, -, hs⟩ := bind_eq_ok hs
    obtain ⟨-, -, hs⟩ := bind_eq_ok hs
    obtain ⟨-, -, hs⟩ := bind_eq_ok hs
    exact thread_block_dispatched (s := s.set_intq q (fun x => x.set_waiter (some s.current) w)) h hs
  | wake_waiting_list => exact wake_from_dispatched h hs
  | _ =>
    have hnew := fun t p => thread_create_unused hs (t := t) (p := p)
    obtain rfl := exec_eq_effect id hs
    exact ⟨effect_sorted hk h hok hnew, Or.inl (effect_frame s _).current⟩

/-! ## Runs -/

/-- What is required of a step: its writes of priorities leave `ready_list` in order. -/
def DispatchOk (s : Kernel) : Event → Prop
  | .go => ∀ p ∈ pop_stmt s, OrderKept p.2 p.1
  | _ => True

instance (s : Kernel) : (e : Event) → Decidable (DispatchOk s e)
  | .go => inferInstanceAs (Decidable (∀ p ∈ pop_stmt s, OrderKept p.2 p.1))
  | .call _ | .idle | .intr | .handle _ | .intr_end => inferInstanceAs (Decidable True)

theorem step_dispatched {e : Event} (hk : KernelInv s) (h : Sorted s) (hok : DispatchOk s e)
    (hs : step s e s') : Dispatched s s' := by
  cases e with
  | call c =>
    obtain ⟨-, -, -, -, rfl⟩ := hs
    exact ⟨sorted_push h _, Or.inl (push_current s _)⟩
  | idle =>
    obtain ⟨-, -, -, rfl⟩ := hs
    exact ⟨sorted_push h _, Or.inl (push_current s _)⟩
  | go =>
    obtain ⟨c, r, hp, hs⟩ := hs
    have hr : Sorted r ∧ r.current = s.current := by
      rcases pop_cases hp with ⟨rest, -, -, rfl⟩ | ⟨rest, -, -, rfl⟩
      · exact ⟨h, rfl⟩
      · exact ⟨h.set_thread _ (fun _ => rfl), rfl⟩
    obtain ⟨hsorted, hmax⟩ := exec_dispatched (hk.pop hp).1.sched hr.1 (hok _ hp) hs
    exact ⟨hsorted, hmax.imp (fun heq => heq.trans hr.2) id⟩
  | intr =>
    obtain ⟨-, rfl⟩ := hs
    exact ⟨h, Or.inl rfl⟩
  | handle c =>
    obtain ⟨-, -, -, rfl⟩ := hs
    exact ⟨sorted_push h _, Or.inl (push_current s _)⟩
  | intr_end =>
    obtain ⟨-, -, hs⟩ := hs
    unfold intr_end at hs
    dsimp only at hs
    split_ifs at hs
    · exact thread_yield_dispatched (s := { s with in_external_intr := false }) h hs
    · obtain rfl := Except.ok.inj hs
      exact ⟨h, Or.inl rfl⟩

theorem reachable_sorted {u : Setup} (hr : Reachable (kernel_system u) DispatchOk s) :
    Sorted s := by
  refine reachable_rule hr ?_ fun r e r' hk hi hok hs => ?_
  · exact List.Pairwise.nil
  · exact (step_dispatched hk hi hok hs).1

/-- **Highest-priority dispatch.** In the runs whose writes of priorities leave `ready_list` in
order, `next_thread_to_run` takes a thread of the highest priority, and so does every switch. -/
theorem dispatch_highest {u : Setup} (hr : Reachable (kernel_system u) DispatchOk s) :
    (∀ t ∈ s.ready_list, s.priority t ≤ s.priority (next_thread_to_run s).1) ∧
    ∀ e s', DispatchOk s e → step s e s' → s'.current ≠ s.current →
      ∀ t ∈ s'.ready_list, s'.priority t ≤ s'.priority s'.current := by
  have hsorted := reachable_sorted hr
  refine ⟨fun t ht => hsorted.next_thread ht, ?_⟩
  intro e s' hok hs hne
  exact (step_dispatched (kernel_inv hr) hsorted hok hs).2.resolve_left hne

/-- Two threads of lower priority, in order on the list. -/
theorem dispatch_highest_two : ∃ s, Reachable (kernel_system plain_setup) DispatchOk s ∧
    s.ready_list = [2, 3] ∧ s.priority 2 ≤ s.priority (next_thread_to_run s).1 := by
  obtain ⟨s, hr, hlist⟩ := run_reachable (u := plain_setup) DispatchOk
    (fun s => s.ready_list = [2, 3]) (create_run 3 21 ++ create_run 2 20) (.init rfl)
    (by simp [create_run, Event.Allowed, Stmt.Callable]) (by decide +kernel)
  exact ⟨s, hr, hlist, (dispatch_highest hr).1 2 (by rw [hlist]; decide)⟩

/-- A thread with a lock is on `ready_list` when it gets a donation. -/
def donation_run : List Event :=
  create_run 2 20 ++ [.call (.thread_set_priority 10), .go, .go, .go, .go] ++ acquire_run 5 ++
    create_run 3 30 ++ create_run 4 25 ++ (.call (.lock_acquire 5) :: List.replicate 8 .go)

/-- The thread that got the donation stays behind one of lower priority. -/
theorem donation_behind : ∃ s, Reachable (kernel_system plain_setup) (fun _ _ => True) s ∧
    2 ∈ s.ready_list ∧ s.priority (next_thread_to_run s).1 < s.priority 2 :=
  run_reachable _ _ donation_run (.init rfl)
    (by simp [donation_run, create_run, acquire_run, Event.Allowed, Stmt.Callable])
    (by decide +kernel)

end Pintos.Threads.Machine
