/-
Preemption (`threads/thread.c`, `devices/timer.c`).

`thread_unblock` gives up the processor to a thread of the same or a higher priority, and
`thread_set_priority` looks at the end of `ready_list` when it is done. So the running
thread leads: nobody on `ready_list` has a higher priority. `wake_waiting_list` makes
threads ready from the handler of the timer and asks for nothing, and a sleeper of higher
priority waits for the end of the time slice.

The runs here are those without donation. A thread inside `thread_set_priority` has
written its priority and not yet looked at the list.
-/
import Pintos.Threads.Dispatch
import Pintos.Threads.Residue

set_option autoImplicit false

namespace Pintos.Threads.Machine

open StepSystem

variable {s s' r : Kernel} {c : Stmt} {rest : List Stmt} {t : Tid}

/-! ## The running thread leads -/

/-- No thread on `ready_list` has a higher priority than the running one. -/
def Leads (s : Kernel) : Prop := ∀ t ∈ s.ready_list, s.priority t ≤ s.cur.priority

theorem Leads.congr (h : Leads s) (hready : s'.ready_list = s.ready_list)
    (hcurrent : s'.current = s.current)
    (hpriority : ∀ t, t ∈ s.ready_list ∨ t = s.current → s'.priority t = s.priority t) :
    Leads s' := by
  intro t ht
  rw [hready] at ht
  show s'.priority t ≤ s'.priority s'.current
  rw [hcurrent, hpriority t (Or.inl ht), hpriority s.current (Or.inr rfl)]
  exact h t ht

/-- After a statement: there was a switch to a thread that leads, or the same thread runs, and
leads if it did. The idle thread need not. -/
def Preempts (s s' : Kernel) : Prop :=
  Leads s' ∨ (s'.current = s.current ∧ (s.current ≠ s.idle_thread → Leads s → Leads s'))

theorem thread_unblock_preempts (h : Sorted s) (hs : thread_unblock s t = .ok s') :
    Preempts s s' := by
  unfold thread_unblock at hs
  obtain ⟨-, -, hs⟩ := bind_eq_ok hs
  obtain ⟨r, hr, hs⟩ := bind_eq_ok hs
  obtain ⟨-, -, hs⟩ := bind_eq_ok hs
  split_ifs at hs with hyield
  · exact Or.inl (thread_yield_leads (make_ready_sorted h hr) hs).2
  · obtain rfl := Except.ok.inj hs
    refine Or.inr ⟨make_ready_current hr, fun hidle hleads u hu => ?_⟩
    have hsw := make_ready_switch hr
    have hpriority : ∀ t, r.priority t = s.priority t := hsw.priority
    have hlist : r.ready_list = list_insert_ordered s.less_priority s.ready_list t := by
      rw [(make_ready_eq hr).2]
    rw [hlist] at hu
    rcases mem_insert_ordered.mp hu with rfl | hu
    -- the thread that was unblocked has a lower priority, or there was a yield
    · have hne : r.current ≠ r.idle_thread := by
        rw [make_ready_current hr, hsw.idle_thread]
        exact hidle
      exact (not_le.mp fun hle => hyield ⟨hne, hle⟩).le
    · show r.priority u ≤ r.priority r.current
      rw [hpriority, hpriority, make_ready_current hr]
      exact hleads u hu

theorem sema_up_preempts {i : SemaId} (h : Sorted s) (hs : sema_up s i = .ok s') :
    Preempts s s' := by
  unfold sema_up at hs
  cases hw : (s.sema i).waiters.getLast? with
  | none =>
    rw [hw] at hs
    obtain rfl := Except.ok.inj hs
    exact Or.inr ⟨rfl, fun _ hleads => hleads⟩
  | some w =>
    rw [hw] at hs
    have hset := Sorted.set_thread (s := s.set_sema i (fun x => { x with
      value := x.value + 1
      ups := x.ups + 1
      waiters := x.waiters.dropLast
      removed := x.removed ++ [w] })) h w (f := fun th => { th with elem := none }) (fun _ => rfl)
    rcases thread_unblock_preempts hset hs with hleads | ⟨hcurrent, hkept⟩
    · exact Or.inl hleads
    · refine Or.inr ⟨hcurrent, fun hidle hleads => hkept hidle ?_⟩
      refine hleads.congr rfl rfl fun u _ => ?_
      show ((s.set_thread w (fun th => { th with elem := none })).thread u).priority = _
      rw [set_thread_apply]
      split_ifs with hu
      · rw [hu]
      · rfl

theorem sema_down_preempts {i : SemaId} (h : Sorted s) (hs : sema_down s i = .ok s') :
    Preempts s s' := by
  unfold sema_down at hs
  obtain ⟨-, -, hs⟩ := bind_eq_ok hs
  split_ifs at hs
  · have hpush := sorted_push h [.sema_retest i]
    have hset := Sorted.set_thread (s := (s.push [.sema_retest i]).set_sema i (fun x => { x with
      waiters := list_insert_ordered s.less_priority x.waiters s.current }))
        hpush s.current (f := fun th => { th with elem := some (.waiters i) }) (fun _ => rfl)
    exact Or.inl (thread_block_leads hset hs).2
  · obtain rfl := Except.ok.inj hs
    exact Or.inr ⟨rfl, fun _ hleads => hleads⟩

/-- What does not switch and writes no priority. -/
theorem effect_leads (hk : SchedInv s) (hc : .priority ∉ c.writes)
    (hnew : ∀ t p, c = .thread_create t p → (s.thread t).status = .unused) (h : Leads s) :
    Leads (effect s c) := by
  refine h.congr (effect_frame s c).ready_list (effect_frame s c).current fun u hu => ?_
  by_cases hcreate : ∃ t p, c = .thread_create t p
  · obtain ⟨t, p, rfl⟩ := hcreate
    have hunused := hnew t p rfl
    have hne : u ≠ t := by
      rintro rfl
      rcases hu with hu | rfl
      · have helem := hk.lists.unused hunused
        rw [(hk.lists.ready u).mp hu] at helem
        cases helem
      · have hrunning : (s.thread s.current).status = .running := hk.running
        rw [hunused] at hrunning
        cases hrunning
    obtain ⟨code, heq⟩ := effect_create s t p u
    show ((effect s (.thread_create t p)).thread u).priority = _
    rw [heq, if_neg hne]
  · exact (effect_thread s (fun t p heq => hcreate ⟨t, p, heq⟩) u).priority hc

/-- **A statement preempts**, unless it writes the running thread's priority or wakes sleepers. -/
theorem exec_preempts (hk : SchedInv s) (h : Sorted s) (hpriority : .priority ∉ c.writes)
    (hwake : c ≠ .wake_waiting_list) (hrecheck : ∀ n, c ≠ .set_priority_yield n)
    (hs : exec s c = .ok s') : Preempts s s' := by
  cases c with
  | sema_down i => exact sema_down_preempts h hs
  | sema_retest i =>
    exact sema_down_preempts (s := s.set_sema i (fun x => { x with
      removed := x.removed.erase s.current })) h hs
  | sema_up i => exact sema_up_preempts h hs
  | set_priority_yield n => exact absurd rfl (hrecheck n)
  | thread_set_nice n => exact absurd (List.mem_singleton_self _) hpriority
  | thread_block =>
    obtain ⟨-, -, hs⟩ := bind_eq_ok hs
    exact Or.inl (thread_block_leads h hs).2
  | thread_unblock t => exact thread_unblock_preempts h hs
  | thread_yield => exact Or.inl (thread_yield_leads h hs).2
  | exit_schedule =>
    have hset : Sorted (s.set_thread s.current (fun th => { th with status := .dying })) :=
      h.set_thread _ (fun _ => rfl)
    exact Or.inl (schedule_dispatched hset hs).2
  | sleep_until n =>
    dsimp only [exec, sleep_until] at hs
    split_ifs at hs
    have hset := (h.set_thread s.current (f := fun th => { th with waking_time := n })
      (fun _ => rfl)).set_thread s.current (f := fun th => { th with elem := some .waiting_list })
        (fun _ => rfl)
    have hblock := fun h => thread_block_leads h hs
    exact Or.inl (hblock hset).2
  | cond_wake d w =>
    exact sema_up_preempts (s := s.set_cond d (fun x => { x with log := .raise w :: x.log })) h hs
  | intq_wait q w =>
    obtain ⟨-, -, hs⟩ := bind_eq_ok hs
    obtain ⟨-, -, hs⟩ := bind_eq_ok hs
    obtain ⟨-, -, hs⟩ := bind_eq_ok hs
    exact Or.inl (thread_block_leads (s := s.set_intq q
      (fun x => x.set_waiter (some s.current) w)) h hs).2
  | wake_waiting_list => exact absurd rfl hwake
  | _ =>
    have hnew := fun t p => thread_create_unused hs (t := t) (p := p)
    obtain rfl := exec_eq_effect id hs
    exact Or.inr ⟨(effect_frame s _).current, fun _ => effect_leads hk hpriority hnew⟩

/-- The threads that `wake_waiting_list` makes ready are due. -/
theorem wake_from_ready {l : List Tid} (hs : wake_from l s = .ok s') :
    s'.current = s.current ∧ ∀ t ∈ s'.ready_list,
      t ∈ s.ready_list ∨ (t ∈ l ∧ (s.thread t).waking_time ≤ s.ticks) := by
  induction l generalizing s with
  | nil =>
    obtain rfl := Except.ok.inj hs
    exact ⟨rfl, fun t ht => Or.inl ht⟩
  | cons u rest ih =>
    unfold wake_from at hs
    split_ifs at hs with hdue
    · cases hw : s.waiting_list with
      | nil =>
        rw [hw] at hs
        cases hs
      | cons front waiting_list =>
        rw [hw] at hs
        obtain ⟨r, hr, hs⟩ := bind_eq_ok hs
        obtain ⟨hcurrent, hready⟩ := ih hs
        have hsw := make_ready_switch hr
        have hwaking : ∀ t, (r.thread t).waking_time = (s.thread t).waking_time := by
          intro t
          rw [hsw.waking_time]
          show ((s.set_thread front (fun th => { th with elem := none })).thread t).waking_time = _
          rw [set_thread_apply]
          split_ifs with ht
          · rw [ht]
          · rfl
        have hticks : r.ticks = s.ticks := hsw.ticks
        have hsame := make_ready_current hr
        refine ⟨hcurrent.trans hsame, fun t ht => ?_⟩
        rcases hready t ht with ht | ⟨ht, hle⟩
        · rw [(make_ready_eq hr).2] at ht
          rcases mem_insert_ordered.mp ht with rfl | ht
          · exact Or.inr ⟨List.mem_cons_self, hdue.1⟩
          · exact Or.inl ht
        · rw [hwaking, hticks] at hle
          exact Or.inr ⟨List.mem_cons_of_mem u ht, hle⟩
    · obtain ⟨hcurrent, hready⟩ := ih hs
      refine ⟨hcurrent, fun t ht => (hready t ht).imp id fun h => ?_⟩
      exact ⟨List.mem_cons_of_mem u h.1, h.2⟩

/-- `wake_waiting_list` when nobody who is due has a higher priority. -/
theorem wake_leads (hdue : ∀ t ∈ s.waiting_list, (s.thread t).waking_time ≤ s.ticks →
    s.priority t ≤ s.cur.priority) (h : Leads s) (hs : wake_from s.waiting_list s = .ok s') :
    Leads s' := by
  obtain ⟨hcurrent, hready⟩ := wake_from_ready hs
  have hpriority : ∀ t, s'.priority t = s.priority t := (wake_from_switch hs).priority
  intro t ht
  show s'.priority t ≤ s'.priority s'.current
  rw [hpriority, hpriority, hcurrent]
  rcases hready t ht with ht | ⟨ht, hle⟩
  · exact h t ht
  · exact hdue t ht hle

/-! ## Runs without donation -/

/-- The statements of `thread_set_priority`. -/
def Stmt.setter : Stmt → Bool
  | .thread_set_priority _ | .set_priority _ | .set_original _ | .set_priority_yield _ => true
  | _ => false

/-- Where a thread is in `thread_set_priority`, and what holds there. -/
inductive Setting (th : Thread) : Prop
  | none (h : ∀ c ∈ th.code, c.setter = false)
  | start (n : ℤ) (hcode : th.code = [.thread_set_priority n])
  | write (n : ℤ) (hcode : th.code = [.set_priority n, .set_original n, .set_priority_yield n])
  | original (n : ℤ) (hpriority : th.priority = n)
      (hcode : th.code = [.set_original n, .set_priority_yield n])
  | recheck (n : ℤ) (hpriority : th.priority = n) (hcode : th.code = [.set_priority_yield n])

/-- A statement that has nothing to do with donations and with the other scheduler. -/
def Stmt.aside : Stmt → Bool
  | .donation_member _ _ | .donation_insert _ _ | .donation_link _ | .donation_write _ _
  | .nested_donation _ _ | .nested_low _ _ | .nested_write _ _ | .priority_rollback _
  | .rollback_loop _ | .rollback_test | .rollback_original | .rollback_back
  | .mlfqs_tick_change => false
  | _ => true

/-- The statements of the timer's handler. -/
def Stmt.timed : Stmt → Bool
  | .timer_interrupt | .wake_waiting_list => true
  | _ => false

/-- Nobody has made a donation. -/
structure Undonated (s : Kernel) : Prop where
  mlfqs : s.thread_mlfqs = false
  locks : ∀ t, (s.thread t).possessing_locks = []
  untimed : ∀ t, ∀ c ∈ (s.thread t).code, c.timed = false
  code : ∀ t, ∀ c ∈ (s.thread t).code, c.aside = true
  intr_code : ∀ c ∈ s.intr_code, c.aside = true
  setting : ∀ t, Setting (s.thread t)

theorem pushes_aside (hmlfqs : s.thread_mlfqs = false) (hlocks : s.cur.possessing_locks = [])
    (hc : c.aside = true) (hcall : ∀ m, c ≠ .donation_call m) :
    ∀ d ∈ pushes s c, d.aside = true := by
  have hall : (pushes s c).all Stmt.aside = true := by
    cases c with
    | donation_call m => exact absurd rfl (hcall m)
    | release_test m =>
      dsimp only [pushes]
      rw [if_neg (not_not.mpr hlocks)]
      rfl
    | timer_interrupt =>
      dsimp only [pushes]
      rw [if_neg (by rw [hmlfqs]; decide)]
      rfl
    | donation_member | nested_donation | nested_low | priority_rollback | rollback_test => cases hc
    | _ =>
      dsimp only [pushes]
      repeat' split
      all_goals rfl
  exact fun d hd => List.all_eq_true.mp hall d hd

theorem pushes_setter (hc : c.setter = false) : ∀ d ∈ pushes s c, d.setter = false := by
  have hall : (pushes s c).all (fun d => !d.setter) = true := by
    cases c with
    | thread_set_priority => cases hc
    | _ =>
      dsimp only [pushes]
      repeat' split
      all_goals rfl
  intro d hd
  simpa using List.all_eq_true.mp hall d hd

theorem pushes_timed (hc : c.timed = false) : ∀ d ∈ pushes s c, d.timed = false := by
  have hall : (pushes s c).all (fun d => !d.timed) = true := by
    cases c with
    | timer_interrupt => cases hc
    | _ =>
      dsimp only [pushes]
      repeat' split
      all_goals rfl
  intro d hd
  simpa using List.all_eq_true.mp hall d hd

/-- Nobody gets a record. -/
theorem exec_locks (hmlfqs : s.thread_mlfqs = false) (hc : c.aside = true)
    (h : ∀ t, (s.thread t).possessing_locks = []) (hs : exec s c = .ok s') :
    ∀ t, (s'.thread t).possessing_locks = [] := by
  intro t
  rw [show (s'.thread t).possessing_locks = _ from
    congrArg Account.possessing_locks (exec_account hs t)]
  show ((effect s c).thread t).possessing_locks = []
  by_cases hcreate : ∃ u p, c = .thread_create u p
  · obtain ⟨u, p, rfl⟩ := hcreate
    obtain ⟨code, heq⟩ := effect_create s u p t
    rw [heq]
    split_ifs
    · unfold new_thread
      rw [if_neg (by rw [hmlfqs]; decide)]
    · exact h t
  · have hframe := effect_thread s (fun u p heq => hcreate ⟨u, p, heq⟩) t
    rw [hframe.possessing_locks ?_]
    · exact h t
    · cases c with
      | donation_insert | rollback_loop => cases hc
      | _ => simp [Stmt.writes]

/-- The priorities such a statement leaves alone: all but that of a new thread and, if it says
that it writes one, that of the running thread. -/
theorem exec_priority (hc : c.aside = true) (hcreate : ∀ p, c ≠ .thread_create t p)
    (ht : t = s.current → .priority ∉ c.writes) (hs : exec s c = .ok s') :
    (s'.thread t).priority = (s.thread t).priority := by
  rw [show (s'.thread t).priority = _ from congrArg Account.priority (exec_account hs t)]
  show ((effect s c).thread t).priority = _
  by_cases hnew : ∃ u p, c = .thread_create u p
  · obtain ⟨u, p, rfl⟩ := hnew
    obtain ⟨code, heq⟩ := effect_create s u p t
    rw [heq, if_neg ?_]
    rintro rfl
    exact hcreate p rfl
  by_cases hwrites : .priority ∈ c.writes
  · have hne : t ≠ s.current := fun heq => ht heq hwrites
    cases c with
    | set_priority n =>
      exact congrArg Thread.priority (set_thread_of_ne s (fun th => { th with priority := n }) hne)
    | thread_set_nice n => exact congrArg Thread.priority (set_thread_of_ne s _ hne)
    | donation_write | nested_write | rollback_original | rollback_back | mlfqs_tick_change =>
      cases hc
    | _ => simp [Stmt.writes] at hwrites
  · exact (effect_thread s (fun u p heq => hnew ⟨u, p, heq⟩) t).priority hwrites

theorem Setting.congr {th th' : Thread} (h : Setting th) (hcode : th'.code = th.code)
    (hpriority : th'.priority = th.priority) : Setting th' := by
  cases h with
  | none h => exact .none (by rw [hcode]; exact h)
  | start n h => exact .start n (hcode.trans h)
  | write n h => exact .write n (hcode.trans h)
  | original n hp h => exact .original n (hpriority.trans hp) (hcode.trans h)
  | recheck n hp h => exact .recheck n (hpriority.trans hp) (hcode.trans h)

theorem Undonated.switch (h : Undonated s) (hsw : Switch s s') : Undonated s' := by
  refine ⟨hsw.thread_mlfqs.trans h.mlfqs, fun t => (hsw.possessing_locks t).trans (h.locks t),
    fun t => ?_, fun t => ?_, ?_, fun t => (h.setting t).congr (hsw.code t) (hsw.priority t)⟩
  · rw [hsw.code]
    exact h.untimed t
  · rw [hsw.code]
    exact h.code t
  · rw [hsw.intr_code]
    exact h.intr_code

/-- The running thread in `thread_set_priority`. -/
theorem Undonated.setting_own (h : Undonated s) (hgo : ThreadGo s c r s' rest)
    (hc : c.aside = true) : Setting (s'.thread s.current) := by
  have hcode := hgo.before
  have hpriority : .priority ∉ c.writes →
      (s'.thread s.current).priority = (s.thread s.current).priority := by
    intro hwrites
    have hcreate : ∀ p, c ≠ .thread_create s.current p := by
      rintro p rfl
      have hunused := thread_create_unused hgo.exec rfl
      have hrunning : (r.thread r.current).status = .running := hgo.inv.sched.running
      rw [hgo.current, hunused] at hrunning
      cases hrunning
    rw [exec_priority hc hcreate (fun _ => hwrites) hgo.exec]
    exact congrArg Account.priority (popped_account hgo s.current)
  have hafter := hgo.after
  cases h.setting s.current with
  | none hnone =>
    refine .none fun d hd => ?_
    rw [hcode] at hnone
    rw [hafter] at hd
    rcases List.mem_append.mp hd with hd | hd
    · exact pushes_setter (hnone c List.mem_cons_self) d hd
    · exact hnone d (List.mem_cons_of_mem c hd)
  | start n hstart =>
    obtain ⟨rfl, rfl⟩ := List.cons.inj (hcode.symm.trans hstart)
    refine .write n ?_
    have hmlfqs : r.thread_mlfqs = false := by
      rw [hgo.popped]
      exact h.mlfqs
    have hlocks : r.cur.possessing_locks = [] := by
      exact (congrArg Account.possessing_locks (popped_current hgo)).trans (h.locks s.current)
    rw [hafter, List.append_nil]
    dsimp only [pushes]
    rw [if_neg (by rw [hmlfqs]; decide), if_neg (not_not.mpr hlocks)]
  | write n hwrite =>
    obtain ⟨rfl, rfl⟩ := List.cons.inj (hcode.symm.trans hwrite)
    refine .original n ?_ hafter
    have hacc := congrArg Account.priority (account_set hgo (u := r.current)
      (f := fun th => { th with priority := n }) rfl s.current)
    rw [if_pos hgo.current.symm] at hacc
    exact hacc
  | original n hp horiginal =>
    obtain ⟨rfl, rfl⟩ := List.cons.inj (hcode.symm.trans horiginal)
    exact .recheck n ((hpriority (by simp [Stmt.writes])).trans hp) hafter
  | recheck n hp hrecheck =>
    obtain ⟨rfl, rfl⟩ := List.cons.inj (hcode.symm.trans hrecheck)
    refine .none ?_
    rw [hafter]
    simp [pushes]

/-- A statement of a thread that makes no donation. -/
theorem Undonated.thread (h : Undonated s) (hgo : ThreadGo s c r s' rest)
    (hcall : ∀ m, c ≠ .donation_call m) : Undonated s' := by
  have hc : c.aside = true := by
    refine h.code s.current c ?_
    rw [hgo.before]
    exact List.mem_cons_self
  have hmlfqs : r.thread_mlfqs = false := by
    rw [hgo.popped]
    exact h.mlfqs
  have hlocks : ∀ t, (r.thread t).possessing_locks = [] := fun t =>
    (congrArg Account.possessing_locks (popped_account hgo t)).trans (h.locks t)
  refine ⟨(exec_mlfqs hgo.exec).trans hmlfqs, exec_locks hmlfqs hc hlocks hgo.exec,
    fun t d hd => ?_, fun t d hd => ?_, ?_, fun t => ?_⟩
  · rcases hgo.mem_code hd with ⟨-, hnew⟩ | ⟨hold, -⟩
    · refine pushes_timed (h.untimed s.current c ?_) d hnew
      rw [hgo.before]
      exact List.mem_cons_self
    · exact h.untimed t d hold
  · rcases hgo.mem_code hd with ⟨-, hnew⟩ | ⟨hold, -⟩
    · exact pushes_aside hmlfqs (hlocks r.current) hc hcall d hnew
    · exact h.code t d hold
  · rw [hgo.intr_code]
    exact h.intr_code
  · by_cases ht : t = s.current
    · rw [ht]
      exact h.setting_own hgo hc
    by_cases hcreate : ∃ p, c = .thread_create t p
    · obtain ⟨p, rfl⟩ := hcreate
      -- a new thread has nothing to execute
      have hunused := thread_create_unused hgo.exec rfl
      have hnil := hgo.inv.code.unused t hunused
      refine .none fun d hd => ?_
      rw [hgo.code t ht] at hd
      rw [hgo.popped, set_thread_of_ne s _ ht] at hnil
      rw [hnil] at hd
      cases hd
    · refine (h.setting t).congr (hgo.code t ht) ?_
      rw [exec_priority hc (fun p heq => hcreate ⟨p, heq⟩) (fun heq => ?_) hgo.exec]
      · exact congrArg Account.priority (popped_account hgo t)
      · exact absurd (heq.trans hgo.current) ht

/-- The handler leaves the priorities. -/
theorem handler_writes (hgo : HandlerGo s c r s' rest) (hc : c.aside = true) :
    c.writes = [] ∧ ∀ u p, c ≠ .thread_create u p := by
  have hfits := hgo.fits
  cases c with
  | sema_up | intq_getc | intq_putc | intq_signal | intq_clear | thread_unblock
  | timer_interrupt | wake_waiting_list => exact ⟨rfl, by simp⟩
  | mlfqs_tick_change => cases hc
  | _ => exact absurd hfits id

/-- A statement of the handler. -/
theorem Undonated.handler (h : Undonated s) (hgo : HandlerGo s c r s' rest) : Undonated s' := by
  have hc : c.aside = true := by
    refine h.intr_code c ?_
    rw [hgo.before]
    exact List.mem_cons_self
  have hmlfqs : r.thread_mlfqs = false := by
    rw [hgo.popped]
    exact h.mlfqs
  have hlocks : ∀ t, (r.thread t).possessing_locks = [] := by
    rw [hgo.popped]
    exact h.locks
  obtain ⟨hwrites, hcreate⟩ := handler_writes hgo hc
  have hcall : ∀ m, c ≠ .donation_call m := by
    rintro m rfl
    exact hgo.fits
  refine ⟨(exec_mlfqs hgo.exec).trans hmlfqs, exec_locks hmlfqs hc hlocks hgo.exec, fun t => ?_,
    fun t => ?_, fun d hd => ?_, fun t => (h.setting t).congr (hgo.code t) ?_⟩
  · rw [hgo.code]
    exact h.untimed t
  · rw [hgo.code]
    exact h.code t
  · rw [hgo.after] at hd
    rcases List.mem_append.mp hd with hd | hd
    · exact pushes_aside hmlfqs (hlocks r.current) hc hcall d hd
    · refine h.intr_code d ?_
      rw [hgo.before]
      exact List.mem_cons_of_mem c hd
  · rw [exec_priority hc (hcreate t) (fun _ => by simp [hwrites]) hgo.exec, hgo.popped]

/-- The call of `priority_donation`. -/
def Stmt.calls_donation : Stmt → Bool
  | .donation_call _ => true
  | _ => false

/-- Nobody calls `priority_donation`. -/
def NoDonation (s : Kernel) : Event → Prop
  | .go => ∀ p ∈ pop_stmt s, p.1.calls_donation = false
  | _ => True

instance (s : Kernel) : (e : Event) → Decidable (NoDonation s e)
  | .go => inferInstanceAs (Decidable (∀ p ∈ pop_stmt s, p.1.calls_donation = false))
  | .call _ | .idle | .intr | .handle _ | .intr_end => inferInstanceAs (Decidable True)

theorem Called.aside {l : List Stmt} (h : Called l) :
    ∀ c ∈ l, c.aside = true ∧ c.timed = false := by
  cases h with
  | idle => decide
  | @call c h =>
    intro d hd
    obtain rfl := List.mem_singleton.mp hd
    cases d <;> first | exact ⟨rfl, rfl⟩ | exact absurd h id

/-- What a thread that has nothing to do goes on with. -/
theorem Called.setting {l : List Stmt} (h : Called l) {th : Thread} (hth : th.code = l) :
    Setting th := by
  cases h with
  | idle => exact .none (by rw [hth]; decide)
  | @call c h =>
    cases c with
    | thread_set_priority n => exact .start n hth
    | set_priority | set_original | set_priority_yield => exact absurd h id
    | _ =>
      refine .none ?_
      rw [hth]
      simp [Stmt.setter]

theorem Undonated.push_thread (h : Undonated s) {l : List Stmt} (hx : s.in_external_intr = false)
    (hcode : s.cur.code = []) (hl : Called l) : Undonated (s.push l) := by
  have hframe := (Frame.refl s .thread_yield).push l
  have hthread := ThreadFrame.push (fun t => ThreadFrame.refl .thread_yield (s.thread t)) l
  have hmem : ∀ t, ∀ c ∈ ((s.push l).thread t).code, c ∈ l ∨ c ∈ (s.thread t).code := by
    intro t c hc
    rw [push_code] at hc
    split_ifs at hc
    · exact List.mem_append.mp hc
    · exact Or.inr hc
  refine ⟨hframe.thread_mlfqs.trans h.mlfqs, fun t => ?_, fun t c hc => ?_, fun t c hc => ?_, ?_,
    fun t => ?_⟩
  · exact ((hthread t).possessing_locks (by decide)).trans (h.locks t)
  · exact (hmem t c hc).elim (fun hc => (hl.aside c hc).2) (h.untimed t c)
  · exact (hmem t c hc).elim (fun hc => (hl.aside c hc).1) (h.code t c)
  · unfold Kernel.push
    rw [if_neg (by rw [hx]; decide)]
    exact h.intr_code
  · by_cases ht : t = s.current
    · refine hl.setting ?_
      rw [push_code, if_pos ⟨hx, ht⟩, ht, hcode, List.append_nil]
    · refine (h.setting t).congr ?_ ((hthread t).priority (by decide))
      rw [push_code, if_neg fun hc => ht hc.2]

theorem Undonated.push_handler (h : Undonated s) (hx : s.in_external_intr = true)
    (hcode : s.intr_code = []) (hc : c.Handled) : Undonated (s.push [c]) := by
  unfold Kernel.push
  rw [if_pos hx, hcode]
  refine ⟨h.mlfqs, h.locks, h.untimed, h.code, fun d hd => ?_, h.setting⟩
  obtain rfl := List.mem_singleton.mp hd
  cases d <;> first | rfl | exact absurd hc id

theorem Undonated.step {e : Event} (h : Undonated s) (hk : KernelInv s) (hok : NoDonation s e)
    (hs : step s e s') : Undonated s' := by
  refine step_rule_go (fun _ _ hsw hr => hr.switch hsw)
    (fun _ _ => ⟨h.mlfqs, h.locks, h.untimed, h.code, h.intr_code, h.setting⟩)
    (fun l hx hcode hl => h.push_thread hx hcode hl)
    (fun c hx hcode hc => h.push_handler hx hcode hc) (fun c r he hp hexec => ?_) hs
  subst he
  rcases go_cases hk hp hexec with ⟨rest, hgo⟩ | ⟨rest, hgo⟩
  · exact h.handler hgo
  · refine h.thread hgo ?_
    rintro m rfl
    cases hok _ hp

theorem Undonated.thread_start {u : Setup} (hu : u.mlfqs = false) :
    Undonated (thread_start u) := by
  have hcode := thread_start_code u
  refine ⟨hu, fun t => ?_, fun t c hc => ?_, fun t c hc => ?_, by simp [Machine.thread_start],
    fun t => ?_⟩
  · dsimp only [Machine.thread_start]
    split_ifs <;> rfl
  · rw [hcode t c hc]
    rfl
  · rw [hcode t c hc]
    rfl
  · refine .none fun c hc => ?_
    rw [hcode t c hc]
    rfl

/-! ## Where preemption is due -/

/-- The statement at which `thread_set_priority` looks at `ready_list`. -/
def Stmt.rechecks : Stmt → Bool
  | .set_priority_yield _ => true
  | _ => false

/-- The running thread is in `thread_set_priority`. -/
def Kernel.setting (s : Kernel) : Prop := ∃ c ∈ s.cur.code, c.rechecks = true

instance (s : Kernel) : Decidable s.setting := inferInstanceAs (Decidable (∃ c ∈ _, _))

/-- The timer has asked for a yield, or nobody who is due has a higher priority than the running
thread. -/
def WakeOk (s : Kernel) : Prop :=
  s.current = s.idle_thread ∨ s.setting ∨ s.yield_on_return = true ∨
    ∀ t ∈ s.waiting_list, (s.thread t).waking_time ≤ s.ticks → s.priority t ≤ s.cur.priority

/-- The running thread leads, unless it is going to look at `ready_list` or the handler is going
to make it yield. -/
def Due (s : Kernel) : Prop :=
  s.current ≠ s.idle_thread → ¬ s.setting →
    (s.in_external_intr = true → s.yield_on_return = false) → Leads s

/-- From the state in which the statement is still to come. -/
theorem Preempts.popped (hgo : ThreadGo s c r s' rest) (h : Preempts r s') : Preempts s s' := by
  refine h.imp id fun ⟨hcurrent, hkept⟩ => ⟨hcurrent.trans hgo.current, fun hidle hleads => ?_⟩
  refine hkept ?_ (hleads.congr ?_ hgo.current fun t _ => ?_)
  · rw [hgo.popped]
    exact hidle
  · rw [hgo.popped]
    rfl
  · exact congrArg Account.priority (popped_account hgo t)

theorem popped_sorted (hgo : ThreadGo s c r s' rest) (h : Sorted s) : Sorted r := by
  rw [hgo.popped]
  exact h.set_thread _ fun _ => rfl

/-- The last statement of `thread_set_priority`. -/
theorem recheck_leads {n : ℤ} (h : Sorted s) (hpriority : s.cur.priority = n)
    (hs : set_priority_yield s n = .ok s') : Leads s' := by
  unfold set_priority_yield at hs
  cases hlast : s.ready_list.getLast? with
  | none =>
    rw [hlast] at hs
    obtain rfl := Except.ok.inj hs
    intro t ht
    rw [List.getLast?_eq_none_iff.mp hlast] at ht
    cases ht
  | some last =>
    rw [hlast] at hs
    dsimp only at hs
    split_ifs at hs with hle
    · exact (thread_yield_leads h hs).2
    · obtain rfl := Except.ok.inj hs
      intro t ht
      rw [hpriority]
      exact (h.le_last hlast ht).trans (not_le.mp hle).le

/-- A thread that goes on in `thread_set_priority` is still going to look at `ready_list`. -/
theorem Due.of_setting (hgo : ThreadGo s c r s' rest) (hc : ¬ c.Moves) {d : Stmt}
    (hd : d ∈ (s'.thread s.current).code) (hrecheck : d.rechecks = true) : Due s' := by
  intro _ hset
  refine absurd ⟨d, ?_, hrecheck⟩ hset
  have hcurrent : s'.current = s.current := by
    have hexec := hgo.exec
    obtain rfl := exec_eq_effect hc hexec
    rw [(effect_frame r c).current, hgo.current]
  show d ∈ (s'.thread s'.current).code
  rw [hcurrent]
  exact hd

/-- A statement of the running thread. -/
theorem Due.thread (h : Due s) (hu : Undonated s) (hsorted : Sorted s)
    (hgo : ThreadGo s c r s' rest) : Due s' := by
  have hafter := hgo.after
  have hr := popped_sorted hgo hsorted
  cases hu.setting s.current with
  | none hnone =>
    have haside : c.aside = true := by
      refine hu.code s.current c ?_
      rw [hgo.before]
      exact List.mem_cons_self
    have hwake : c ≠ .wake_waiting_list := by
      rintro rfl
      have htimed := hu.untimed s.current .wake_waiting_list
        (by rw [hgo.before]; exact List.mem_cons_self)
      cases htimed
    have hset : ¬ s.setting := by
      rintro ⟨d, hd, hrecheck⟩
      have hsetter := hnone d hd
      cases d with
      | set_priority_yield => cases hsetter
      | _ => cases hrecheck
    have hrecheck : ∀ n, c ≠ .set_priority_yield n := by
      rintro n rfl
      have hsetter := hnone (.set_priority_yield n) (by rw [hgo.before]; exact List.mem_cons_self)
      cases hsetter
    by_cases hnice : ∃ n, c = .thread_set_nice n
    · obtain ⟨n, rfl⟩ := hnice
      have hexec := hgo.exec
      have hsorted' := effect_sorted (c := .thread_set_nice n) hgo.inv.sched hr
        (fun _ hp => by cases hp) (by rintro t p ⟨⟩)
      exact fun _ _ _ => (thread_yield_leads hsorted' hexec).2
    · have hwrites : .priority ∉ c.writes := by
        cases c with
        | set_priority n =>
          have hsetter := hnone (.set_priority n) (by rw [hgo.before]; exact List.mem_cons_self)
          cases hsetter
        | thread_set_nice n => exact absurd ⟨n, rfl⟩ hnice
        | donation_write | nested_write | rollback_original | rollback_back
        | mlfqs_tick_change => cases haside
        | _ => simp [Stmt.writes]
      rcases Preempts.popped hgo (exec_preempts hgo.inv.sched hr hwrites hwake hrecheck hgo.exec)
        with hleads | ⟨hcurrent, hkept⟩
      · exact fun _ _ _ => hleads
      · intro hne _ _
        have hidle : s'.idle_thread = s.idle_thread := by
          rw [exec_idle_thread hgo.exec, hgo.popped]
          rfl
        rw [hcurrent, hidle] at hne
        exact hkept hne (h hne hset fun hx => absurd (hgo.context.symm.trans hx) (by decide))
  | start n hstart =>
    obtain ⟨rfl, rfl⟩ := List.cons.inj (hgo.before.symm.trans hstart)
    have hmlfqs : r.thread_mlfqs = false := by
      rw [hgo.popped]
      exact hu.mlfqs
    refine Due.of_setting (d := .set_priority_yield n) hgo id ?_ rfl
    rw [hafter]
    dsimp only [pushes]
    rw [if_neg (by rw [hmlfqs]; decide)]
    split_ifs
    · simp
    · simp
  | write n hwrite =>
    obtain ⟨rfl, rfl⟩ := List.cons.inj (hgo.before.symm.trans hwrite)
    refine Due.of_setting (d := .set_priority_yield n) hgo id ?_ rfl
    rw [hafter]
    simp [pushes]
  | original n hp horiginal =>
    obtain ⟨rfl, rfl⟩ := List.cons.inj (hgo.before.symm.trans horiginal)
    refine Due.of_setting (d := .set_priority_yield n) hgo id ?_ rfl
    rw [hafter]
    simp [pushes]
  | recheck n hp hrecheck =>
    obtain ⟨rfl, rfl⟩ := List.cons.inj (hgo.before.symm.trans hrecheck)
    have hpriority : r.cur.priority = n :=
      (congrArg Account.priority (popped_current hgo)).trans hp
    exact fun _ _ _ => recheck_leads hr hpriority hgo.exec

/-- `yield_on_return` is not taken back by a handler. -/
theorem handler_yield (hgo : HandlerGo s c r s' rest) (hc : c.aside = true)
    (h : s'.yield_on_return = false) : s.yield_on_return = false := by
  have hfits := hgo.fits
  have hr : r.yield_on_return = s.yield_on_return := by rw [hgo.popped]
  rw [← hr]
  refine exec_of_effect (P := fun x => x.yield_on_return = false → r.yield_on_return = false)
    (fun _ _ hsw hx h => hx (hsw.yield_on_return.symm.trans h)) (fun _ _ hx => hx) ?_ hgo.exec h
  cases c with
  | sema_up | intq_clear | thread_unblock | wake_waiting_list => exact id
  | intq_getc | intq_putc =>
    dsimp only [effect]
    split_ifs
    · rw [push_yield_on_return]
      exact id
    · rw [push_yield_on_return]
      exact id
  | intq_signal =>
    dsimp only [effect]
    split
    · exact id
    · rw [push_yield_on_return]
      exact id
  | timer_interrupt =>
    have hkeeps : ∀ b : Kernel, (b.yield_on_return = true ∨ b.yield_on_return = r.yield_on_return) →
        b.yield_on_return = false → r.yield_on_return = false := by
      rintro b (htrue | hsame) hfalse
      · cases htrue.symm.trans hfalse
      · exact hsame.symm.trans hfalse
    dsimp only [effect, timer_interrupt]
    refine hkeeps _ ?_
    split_ifs
    all_goals rw [push_yield_on_return]
    · exact Or.inl rfl
    · exact Or.inl rfl
    · exact Or.inr rfl
    · exact Or.inr rfl
  | mlfqs_tick_change => cases hc
  | _ => exact absurd hfits id

/-- A statement of the handler. -/
theorem Due.handler (h : Due s) (hu : Undonated s) (hsorted : Sorted s)
    (hgo : HandlerGo s c r s' rest) (hwake : c = .wake_waiting_list → WakeOk r) : Due s' := by
  have haside : c.aside = true := by
    refine hu.intr_code c ?_
    rw [hgo.before]
    exact List.mem_cons_self
  have hr : Sorted r := by
    rw [hgo.popped]
    exact hsorted
  have hcurrent : r.current = s.current := by rw [hgo.popped]
  have hidle : s'.idle_thread = s.idle_thread := by
    rw [exec_idle_thread hgo.exec, hgo.popped]
  have hcontext : s'.in_external_intr = true := by
    rw [exec_in_external_intr hgo.exec, hgo.popped]
    exact hgo.context
  have hsetting : s'.current = s.current → s.setting → s'.setting := by
    rintro hsame ⟨d, hd, hrecheck⟩
    refine ⟨d, ?_, hrecheck⟩
    show d ∈ (s'.thread s'.current).code
    rw [hsame, hgo.code]
    exact hd
  -- what held before, once it is clear that nothing asked for a yield
  have hbefore : s'.current = s.current → s'.current ≠ s'.idle_thread → ¬ s'.setting →
      (s'.in_external_intr = true → s'.yield_on_return = false) → Leads r := by
    intro hsame hne hset hreturn
    rw [hsame, hidle] at hne
    have hleads := h hne (fun hs => hset (hsetting hsame hs)) fun _ =>
      handler_yield hgo haside (hreturn hcontext)
    rw [hgo.popped]
    exact hleads
  by_cases hc : c = .wake_waiting_list
  · subst hc
    have hexec : wake_from r.waiting_list r = .ok s' := hgo.exec
    have hsame : s'.current = s.current := (wake_from_ready hexec).1.trans hcurrent
    intro hne hset hreturn
    have hleads := hbefore hsame hne hset hreturn
    rcases hwake rfl with hidle' | hset' | hyield | hdue
    · rw [hsame, hidle] at hne
      rw [hgo.popped] at hidle'
      exact absurd hidle' hne
    · refine absurd (hsetting hsame ?_) hset
      rw [hgo.popped] at hset'
      exact hset'
    · have hfalse := handler_yield hgo rfl (hreturn hcontext)
      rw [hgo.popped] at hyield
      exact absurd (hyield.symm.trans hfalse) (by decide)
    · exact wake_leads hdue hleads hexec
  · have hwrites := (handler_writes hgo haside).1
    have hrecheck : ∀ n, c ≠ .set_priority_yield n := by
      rintro n rfl
      exact hgo.fits
    rcases exec_preempts hgo.inv.sched hr (by simp [hwrites]) hc hrecheck hgo.exec with
      hleads | ⟨hsame, hkept⟩
    · exact fun _ _ _ => hleads
    · intro hne hset hreturn
      have hleads := hbefore (hsame.trans hcurrent) hne hset hreturn
      refine hkept ?_ hleads
      rw [hsame, hidle] at hne
      rw [hgo.popped] at hne ⊢
      exact hne

/-- What is asked of a step: sleepers are woken in time for a yield, or do not need one. -/
def WakesOk (s : Kernel) : Event → Prop
  | .go => ∀ p ∈ pop_stmt s, p.1 = .wake_waiting_list → WakeOk p.2
  | _ => True

instance (s : Kernel) : Decidable (WakeOk s) :=
  inferInstanceAs (Decidable (_ ∨ _ ∨ _ ∨ ∀ t ∈ _, _ → _))

instance (s : Kernel) : (e : Event) → Decidable (WakesOk s e)
  | .go => inferInstanceAs (Decidable (∀ p ∈ pop_stmt s, p.1 = .wake_waiting_list → WakeOk p.2))
  | .call _ | .idle | .intr | .handle _ | .intr_end => inferInstanceAs (Decidable True)

theorem Due.push (h : Due s) {l : List Stmt} (hset : s.in_external_intr = false → s.cur.code = []) :
    Due (s.push l) := by
  have hframe := (Frame.refl s .thread_yield).push l
  have hthread := ThreadFrame.push (fun t => ThreadFrame.refl .thread_yield (s.thread t)) l
  intro hne hnot hreturn
  rw [hframe.current, hframe.idle_thread] at hne
  rw [hframe.in_external_intr, push_yield_on_return] at hreturn
  refine (h hne ?_ hreturn).congr hframe.ready_list hframe.current fun t _ =>
    (hthread t).priority (by decide)
  rintro ⟨d, hd, hrecheck⟩
  cases hx : s.in_external_intr with
  | false =>
    rw [hset hx] at hd
    cases hd
  | true =>
    refine hnot ⟨d, ?_, hrecheck⟩
    show d ∈ ((s.push l).thread (s.push l).current).code
    rw [hframe.current, push_code, if_neg fun hc => absurd (hx.symm.trans hc.1) (by decide)]
    exact hd

/-- **One step.** -/
theorem Due.step {e : Event} (h : Due s) (hk : KernelInv s) (hu : Undonated s) (hsorted : Sorted s)
    (hok : WakesOk s e) (hs : step s e s') : Due s' := by
  cases e with
  | call c =>
    obtain ⟨-, -, hcode, -, rfl⟩ := hs
    exact h.push fun _ => hcode
  | idle =>
    obtain ⟨-, -, hcode, rfl⟩ := hs
    exact h.push fun _ => hcode
  | go =>
    obtain ⟨c, r, hp, hs⟩ := hs
    rcases go_cases hk hp hs with ⟨rest, hgo⟩ | ⟨rest, hgo⟩
    · exact h.handler hu hsorted hgo (hok _ hp)
    · exact h.thread hu hsorted hgo
  | intr =>
    obtain ⟨hon, rfl⟩ := hs
    intro hne hset _
    exact h hne hset fun hx => absurd (Or.inl hx) hon
  | handle c =>
    obtain ⟨hx, -, -, rfl⟩ := hs
    exact h.push fun hx' => absurd (hx.symm.trans hx') (by decide)
  | intr_end =>
    obtain ⟨hx, -, hs⟩ := hs
    unfold intr_end at hs
    dsimp only at hs
    split_ifs at hs with hyield
    · exact fun _ _ _ => (thread_yield_leads (s := { s with in_external_intr := false }) hsorted hs).2
    · obtain rfl := Except.ok.inj hs
      intro hne hset _
      exact h hne hset fun _ => Bool.eq_false_iff.mpr hyield

/-! ## Runs -/

/-- Control is with the running thread: no handler is on top of it, its interrupts are on, it is
not the idle thread, and it is not in the middle of `thread_set_priority`. -/
def Returned (s : Kernel) : Prop :=
  s.in_external_intr = false ∧ s.cur.intr = true ∧ s.current ≠ s.idle_thread ∧ ¬ s.setting

instance (s : Kernel) : Decidable (Returned s) := inferInstanceAs (Decidable (_ ∧ _ ∧ _ ∧ _))

/-- The runs without donation in which sleepers are woken in time. -/
def PreemptOk (s : Kernel) (e : Event) : Prop := NoDonation s e ∧ WakesOk s e

instance (s : Kernel) (e : Event) : Decidable (PreemptOk s e) :=
  inferInstanceAs (Decidable (_ ∧ _))

/-- Without donations no priority on `ready_list` is written. -/
theorem Undonated.dispatch (h : Undonated s) (e : Event) : DispatchOk s e := by
  cases e with
  | go =>
    intro p hp priority hwritten
    have haside : p.1.aside = true := by
      rcases pop_cases hp with ⟨rest, -, hcode, -⟩ | ⟨rest, -, hcode, -⟩
      · exact h.intr_code p.1 (by rw [hcode]; exact List.mem_cons_self)
      · refine h.code s.current p.1 ?_
        rw [show (s.thread s.current).code = _ from hcode]
        exact List.mem_cons_self
    cases hc : p.1 with
    | donation_write | nested_write | mlfqs_tick_change =>
      rw [hc] at haside
      cases haside
    | _ =>
      rw [hc] at hwritten
      cases hwritten
  | _ => trivial

theorem due_inv {u : Setup} (hu : u.mlfqs = false) (hr : Reachable (kernel_system u) PreemptOk s) :
    Undonated s ∧ Sorted s ∧ Due s := by
  refine reachable_rule (P := fun r => Undonated r ∧ Sorted r ∧ Due r) hr ?_ ?_
  · exact ⟨Undonated.thread_start hu, List.Pairwise.nil, fun _ _ _ t ht => (by cases ht)⟩
  · rintro r e r' hk ⟨hundonated, hsorted, hdue⟩ hok hs
    have hdispatched := step_dispatched hk hsorted (hundonated.dispatch e) hs
    exact ⟨hundonated.step hk hok.1 hs, hdispatched.1,
      hdue.step hk hundonated hsorted hok.2 hs⟩

/-- **Preemption**, in the runs without donation whose timer interrupts do not wake a sleeper of
higher priority in the middle of a time slice: when control is with the running thread, nobody on
`ready_list` has a higher priority. -/
theorem running_leads {u : Setup} (hu : u.mlfqs = false)
    (hr : Reachable (kernel_system u) PreemptOk s) (hreturned : Returned s) :
    ∀ t ∈ s.ready_list, s.priority t ≤ s.cur.priority := by
  obtain ⟨hx, -, hne, hset⟩ := hreturned
  obtain ⟨-, -, hdue⟩ := due_inv hu hr
  exact hdue hne hset fun hx' => absurd (hx.symm.trans hx') (by decide)

/-- The main thread makes a thread of higher priority, which goes to sleep for a tick. -/
def nap_run : List Event := create_run 2 40 ++ [.call (.timer_sleep 1), .go, .go]

/-- It wakes up while the main thread has a higher priority still. -/
theorem running_leads_nap : ∃ s, Reachable (kernel_system plain_setup) PreemptOk s ∧
    s.ready_list = [2] ∧ s.priority 2 ≤ s.cur.priority := by
  obtain ⟨s, hr, hlist, hreturned⟩ := run_reachable (u := plain_setup) PreemptOk
    (fun s => s.ready_list = [2] ∧ Returned s)
    (nap_run ++ (.call (.thread_set_priority 50) :: List.replicate 4 .go) ++ tick_run) (.init rfl)
    (by simp [nap_run, create_run, tick_run, Event.Allowed, Stmt.Callable, Stmt.Handled])
    (by decide +kernel)
  exact ⟨s, hr, hlist, running_leads rfl hr hreturned 2 (by rw [hlist]; decide)⟩

/-- **The slip.** The timer wakes a thread of higher priority, and the main thread goes on. -/
theorem sleeper_waits : ∃ s, Reachable (kernel_system plain_setup) NoDonation s ∧
    Returned s ∧ s.cur.code = [] ∧ 2 ∈ s.ready_list ∧ s.cur.priority < s.priority 2 :=
  run_reachable _ _ (nap_run ++ tick_run) (.init rfl)
    (by simp [nap_run, create_run, tick_run, Event.Allowed, Stmt.Callable, Stmt.Handled])
    (by decide +kernel)

end Pintos.Threads.Machine
