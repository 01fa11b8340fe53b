/-
What an interrupt handler may call: `sema_up` (`threads/synch.c`), `intq_putc` and
`intq_getc` (`devices/intq.c`).

All three end in `thread_unblock`, which yields to a thread of the same or a higher
priority, and `thread_yield` asserts that no handler runs. So they complete exactly when
the thread they wake has a lower priority than the thread interrupted, or that one is the
idle thread.
-/
import Pintos.Threads.KernelInv

set_option autoImplicit false

namespace Pintos.Threads.Machine

open StepSystem

/-! ## Handlers to their end -/

/-- The statements of the handler, until there are none left. -/
def finish : (fuel : ℕ) → Kernel → Res Kernel
  | 0, _ => .error .diverge
  | fuel + 1, s =>
    match pop_stmt s with
    | none => .ok s
    | some (c, r) => exec r c >>= finish fuel

/-- The handler comes to its end. -/
def Finishes (s : Kernel) : Prop := ∃ fuel s', finish fuel s = .ok s'

/-- A call by the handler comes back. -/
def Completes (s : Kernel) (c : Stmt) : Prop := Finishes (s.push [c])

theorem finishes_nil {s : Kernel} (hx : s.in_external_intr = true) (hcode : s.intr_code = []) :
    Finishes s := by
  refine ⟨1, s, ?_⟩
  unfold finish pop_stmt
  rw [if_pos hx, hcode]

theorem finishes_cons {s : Kernel} {c : Stmt} {rest : List Stmt}
    (hx : s.in_external_intr = true) (hcode : s.intr_code = c :: rest) :
    Finishes s ↔ ∃ s', exec { s with intr_code := rest } c = .ok s' ∧ Finishes s' := by
  have hpop : pop_stmt s = some (c, { s with intr_code := rest }) := by
    unfold pop_stmt
    rw [if_pos hx, hcode]
  constructor
  · rintro ⟨fuel, s', hs⟩
    cases fuel with
    | zero => cases hs
    | succ fuel =>
      unfold finish at hs
      rw [hpop] at hs
      obtain ⟨r, hr, hs⟩ := bind_eq_ok hs
      exact ⟨r, hr, fuel, s', hs⟩
  · rintro ⟨r, hr, fuel, s', hs⟩
    refine ⟨fuel + 1, s', ?_⟩
    unfold finish
    rw [hpop]
    show (exec { s with intr_code := rest } c >>= finish fuel) = .ok s'
    rw [hr, ok_bind]
    exact hs

theorem push_external {s : Kernel} (hx : s.in_external_intr = true) (l : List Stmt) :
    s.push l = { s with intr_code := l ++ s.intr_code } := by
  unfold Kernel.push
  rw [if_pos hx]

/-- A call by a handler with nothing else to do. -/
theorem completes_iff {s : Kernel} (hx : s.in_external_intr = true) (hcode : s.intr_code = [])
    (c : Stmt) : Completes s c ↔ ∃ s', exec s c = .ok s' ∧ Finishes s' := by
  have hs : { s with intr_code := [] } = s := by
    rw [← hcode]
  unfold Completes
  rw [push_external hx, hcode]
  refine (finishes_cons (s := { s with intr_code := [c] ++ [] }) hx rfl).trans ?_
  show (∃ s', exec { s with intr_code := [] } c = .ok s' ∧ Finishes s') ↔ _
  rw [hs]

/-! ## Waking a thread in a handler -/

/-- The thread interrupted is idle or has a higher priority. -/
def Outranked (s : Kernel) (t : Tid) : Prop :=
  s.current = s.idle_thread ∨ s.priority t < s.cur.priority

/-- A thread that `thread_unblock` can wake in a handler. -/
def Wakeable (s : Kernel) (t : Tid) : Prop :=
  (s.thread t).status = .blocked ∧ (s.thread t).elem = none ∧ Outranked s t

theorem thread_unblock_completes {s : Kernel} (h : SchedInv s) (hx : s.in_external_intr = true)
    (t : Tid) : (∃ s', thread_unblock s t = .ok s') ↔ Wakeable s t := by
  unfold thread_unblock
  by_cases hblocked : (s.thread t).status = .blocked
  swap
  · refine iff_of_false ?_ fun hw => hblocked hw.1
    rintro ⟨s', hs⟩
    obtain ⟨_, hassert, -⟩ := bind_eq_ok hs
    exact hblocked (ASSERT_eq_ok hassert)
  by_cases helem : (s.thread t).elem = none
  swap
  · refine iff_of_false ?_ fun hw => helem hw.2.1
    rintro ⟨s', hs⟩
    obtain ⟨-, -, hs⟩ := bind_eq_ok hs
    obtain ⟨r, hr, -⟩ := bind_eq_ok hs
    exact helem (make_ready_eq hr).1
  have hne : s.current ≠ t := by
    rintro rfl
    have hrun : (s.thread s.current).status = .running := h.running
    rw [hblocked] at hrun
    cases hrun
  -- the state with `t` on `ready_list`, in which the priorities are compared
  obtain ⟨r, hr⟩ : ∃ r, make_ready s t = .ok r := by
    unfold make_ready
    rw [if_pos helem]
    exact ⟨_, rfl⟩
  have hswitch := make_ready_switch hr
  have hcur : r.current = s.current := by
    rw [(make_ready_eq hr).2]
    rfl
  have hcur_thread : r.cur = s.cur := by
    rw [(make_ready_eq hr).2]
    exact Function.update_of_ne hne _ _
  have hrunning : r.cur.status = .running := by
    rw [hcur_thread]
    exact h.running
  rw [ASSERT_pos hblocked, ok_bind, hr, ok_bind, ASSERT_pos hrunning, ok_bind, hcur,
    hswitch.idle_thread, hcur_thread, show r.priority t = s.priority t from hswitch.priority t]
  split_ifs with hyield
  · refine iff_of_false ?_ ?_
    · -- `ASSERT (!intr_context ())` in `thread_yield`
      rintro ⟨s', hs⟩
      obtain ⟨_, hassert, -⟩ := bind_eq_ok hs
      rw [hswitch.in_external_intr, hx] at hassert
      exact absurd (ASSERT_eq_ok hassert) (by decide)
    · rintro ⟨-, -, hidle | hlt⟩
      · exact hyield.1 hidle
      · exact absurd hyield.2 (not_le.mpr hlt)
  · refine iff_of_true ⟨r, rfl⟩ ⟨hblocked, helem, ?_⟩
    by_cases hidle : s.current = s.idle_thread
    · exact Or.inl hidle
    · exact Or.inr (not_le.mp fun hle => hyield ⟨hidle, hle⟩)

/-- `sema_up` in a handler. -/
theorem sema_up_completes {s : Kernel} (h : SchedInv s) (hx : s.in_external_intr = true)
    (hcode : s.intr_code = []) (i : SemaId) :
    Completes s (.sema_up i) ↔ ∀ w, (s.sema i).waiters.getLast? = some w → Outranked s w := by
  have hend : ∀ s', sema_up s i = .ok s' → Finishes s' := by
    intro s' hs
    have hswitch := sema_up_switch hs
    exact finishes_nil (hswitch.in_external_intr.trans hx) (hswitch.intr_code.trans hcode)
  rw [completes_iff hx hcode]
  show (∃ s', sema_up s i = .ok s' ∧ Finishes s') ↔ _
  have hdrop : (∃ s', sema_up s i = .ok s' ∧ Finishes s') ↔ ∃ s', sema_up s i = .ok s' :=
    ⟨fun ⟨s', hs, _⟩ => ⟨s', hs⟩, fun ⟨s', hs⟩ => ⟨s', hs, hend s' hs⟩⟩
  rw [hdrop]
  unfold sema_up
  cases hw : (s.sema i).waiters.getLast? with
  | none => exact iff_of_true ⟨_, rfl⟩ (by rintro w ⟨⟩)
  | some w =>
    dsimp only
    have helem := (h.lists.waiters i w).mp (List.mem_of_getLast? hw)
    have hblocked := h.lists.status w _ helem
    have hne := h.current_ne helem
    rw [thread_unblock_completes (h.leave_waiters (fun _ => rfl) hw) hx]
    unfold Wakeable Outranked
    dsimp only [Kernel.priority, Kernel.cur]
    rw [set_thread_self, show ∀ f g, ((s.set_sema i f).set_thread w g).thread
      ((s.set_sema i f).set_thread w g).current = s.thread s.current from
        fun f g => set_thread_of_ne _ _ hne]
    constructor
    · rintro ⟨-, -, hrank⟩ v hv
      obtain rfl := Option.some.inj hv
      exact hrank
    · intro hrank
      exact ⟨hblocked, rfl, hrank w rfl⟩

/-! ## Queues -/

/-- `signal` in a handler, and the rest of it. -/
theorem intq_signal_completes {s : Kernel} (h : SchedInv s) (hx : s.in_external_intr = true)
    (hcode : s.intr_code = []) {q : QueueId} {w : Waiter} (hw : ¬ w.Awaits (s.intq q)) :
    (∃ s', exec s (.intq_signal q w) = .ok s' ∧ Finishes s') ↔
      ∀ t, (s.intq q).waiter w = some t → Wakeable s t := by
  have hoff : s.intr_off := Or.inl hx
  dsimp only [exec, intq_signal]
  rw [ASSERT_pos hoff, ok_bind, ASSERT_pos hw, ok_bind]
  cases hslot : (s.intq q).waiter w with
  | none => exact iff_of_true ⟨s, rfl, finishes_nil hx hcode⟩ (by rintro t ⟨⟩)
  | some t =>
    -- `thread_unblock` and then `*waiter = NULL`, which cannot fail
    have hclear : ∀ s', thread_unblock { s with intr_code := [.intq_clear q w] } t = .ok s' →
        Finishes s' := by
      intro s' hs
      have hswitch := thread_unblock_switch hs
      have hx' : s'.in_external_intr = true := hswitch.in_external_intr.trans hx
      refine (finishes_cons hx' hswitch.intr_code).mpr ⟨_, rfl, finishes_nil ?_ rfl⟩
      exact hx'
    have hinv : SchedInv { s with intr_code := [.intq_clear q w] } :=
      h.calm ⟨rfl, rfl, fun _ => rfl, fun _ => rfl, fun _ => Or.inl rfl, rfl, rfl⟩
    have hunblock := thread_unblock_completes hinv hx t
    have hfinish : Finishes (s.push [.thread_unblock t, .intq_clear q w]) ↔ Wakeable s t := by
      rw [push_external hx, hcode]
      refine (finishes_cons (s := { s with
        intr_code := [.thread_unblock t, .intq_clear q w] ++ [] }) hx rfl).trans ?_
      refine Iff.trans ?_ hunblock
      exact ⟨fun ⟨s', hs, _⟩ => ⟨s', hs⟩, fun ⟨s', hs⟩ => ⟨s', hs, hclear s' hs⟩⟩
    constructor
    · rintro ⟨s', hs, hfin⟩ v hv
      obtain rfl := Except.ok.inj hs
      obtain rfl := Option.some.inj hv
      exact hfinish.mp hfin
    · intro hall
      exact ⟨_, rfl, hfinish.mpr (hall t rfl)⟩

theorem next_inj {a b : ℕ} (ha : a < INTQ_BUFSIZE) (hb : b < INTQ_BUFSIZE) (h : next a = next b) :
    a = b := by
  unfold next INTQ_BUFSIZE at *
  omega

/-- The queues of every run. -/
theorem queues_in_range {u : Setup} {ok : Kernel → Event → Prop} {s : Kernel}
    (hr : Reachable (kernel_system u) ok s) (q : QueueId) : (s.intq q).InRange := by
  revert q
  refine reachable_rule (P := fun r => ∀ q, (r.intq q).InRange) hr ?_ fun r e r' _ hi _ hs => ?_
  · intro q
    show 0 < INTQ_BUFSIZE ∧ 0 < INTQ_BUFSIZE
    decide
  · refine step_of_effect (P := fun r => ∀ q, (r.intq q).InRange) (fun r r' h hi => ?_)
      (fun _ _ hi => hi) (fun _ _ _ _ hi => hi) (fun _ _ hi => hi) (fun _ _ _ hi => hi)
      (fun r c _ _ hi => (effect_frame r c).range hi) hi hs
    rw [h.intq]
    exact hi

/-- A call that has changed a queue and goes on with `signal`. -/
theorem queue_completes {s : Kernel} (h : SchedInv s) (hx : s.in_external_intr = true)
    (hcode : s.intr_code = []) {q : QueueId} {f : IntQueue → IntQueue} {w : Waiter}
    (hf : (f (s.intq q)).waiter w = (s.intq q).waiter w) (hw : ¬ w.Awaits (f (s.intq q))) :
    Finishes ((s.set_intq q f).push [.intq_signal q w]) ↔
      ∀ t, (s.intq q).waiter w = some t → Wakeable s t := by
  have hq : (s.set_intq q f).intq q = f (s.intq q) := Function.update_self _ _ _
  have hinv : SchedInv (s.set_intq q f) :=
    h.calm ⟨rfl, rfl, fun _ => rfl, fun _ => rfl, fun _ => Or.inl rfl, rfl, rfl⟩
  refine (completes_iff (s := s.set_intq q f) hx hcode (.intq_signal q w)).trans ?_
  refine (intq_signal_completes hinv hx hcode (by rw [hq]; exact hw)).trans ?_
  rw [hq, hf]
  rfl

theorem intq_putc_completes {s : Kernel} (h : SchedInv s) (hx : s.in_external_intr = true)
    (hcode : s.intr_code = []) (q : QueueId) (byte : ℕ) :
    Completes s (.intq_putc q byte) ↔ ¬ intq_full (s.intq q) ∧
      ∀ t, (s.intq q).not_empty = some t → Wakeable s t := by
  have hoff : s.intr_off := Or.inl hx
  rw [completes_iff hx hcode]
  dsimp only [exec, intq_putc]
  rw [ASSERT_pos hoff, ok_bind]
  by_cases hfull : intq_full (s.intq q)
  · rw [if_pos hfull, hx]
    refine iff_of_false ?_ fun hc => hc.1 hfull
    rintro ⟨s', hs, -⟩
    cases hs
  · rw [if_neg hfull]
    have hfinish := queue_completes h hx hcode (q := q) (w := .not_empty) (f := fun x => { x with
      buf := Function.update x.buf x.head byte, head := next x.head }) rfl hfull
    constructor
    · rintro ⟨s', hs, hfin⟩
      obtain rfl := Except.ok.inj hs
      exact ⟨hfull, hfinish.mp hfin⟩
    · rintro ⟨-, hall⟩
      exact ⟨_, rfl, hfinish.mpr hall⟩

theorem intq_getc_completes {s : Kernel} (h : SchedInv s) (hx : s.in_external_intr = true)
    (hcode : s.intr_code = []) {q : QueueId} (hrange : (s.intq q).InRange) :
    Completes s (.intq_getc q) ↔ ¬ intq_empty (s.intq q) ∧
      ∀ t, (s.intq q).not_full = some t → Wakeable s t := by
  have hoff : s.intr_off := Or.inl hx
  rw [completes_iff hx hcode]
  dsimp only [exec, intq_getc]
  rw [ASSERT_pos hoff, ok_bind]
  by_cases hempty : intq_empty (s.intq q)
  · rw [if_pos hempty, hx]
    refine iff_of_false ?_ fun hc => hc.1 hempty
    rintro ⟨s', hs, -⟩
    cases hs
  · rw [if_neg hempty]
    have hfinish := queue_completes h hx hcode (q := q) (w := .not_full)
      (f := fun x => { x with tail := next x.tail }) rfl
      (fun hfull => hempty (next_inj hrange.1 hrange.2 hfull))
    constructor
    · rintro ⟨s', hs, hfin⟩
      obtain rfl := Except.ok.inj hs
      exact ⟨hempty, hfinish.mp hfin⟩
    · rintro ⟨-, hall⟩
      exact ⟨_, rfl, hfinish.mpr hall⟩

/-! ## Every handler of every run -/

/-- **Wake-ups in handlers.** A handler that calls `sema_up`, `intq_putc` or `intq_getc` gets
to the end of the call exactly when the thread interrupted outranks the one it wakes. For
the queues this thread has to be asleep, and the queue not full or not empty. A thread that is
on a list and is put on `ready_list` (`relinked`) counts as a call that does not get to its end:
the source goes on there, with both lists destroyed. -/
theorem handler_wake_ups {u : Setup} {s : Kernel}
    (hr : Reachable (kernel_system u) (fun _ _ => True) s) (hx : s.in_external_intr = true)
    (hcode : s.intr_code = []) :
    (∀ i, Completes s (.sema_up i) ↔
      ∀ w, (s.sema i).waiters.getLast? = some w → Outranked s w) ∧
    (∀ q byte, Completes s (.intq_putc q byte) ↔
      ¬ intq_full (s.intq q) ∧ ∀ t, (s.intq q).not_empty = some t → Wakeable s t) ∧
    ∀ q, Completes s (.intq_getc q) ↔
      ¬ intq_empty (s.intq q) ∧ ∀ t, (s.intq q).not_full = some t → Wakeable s t := by
  have hinv := (kernel_inv hr).sched
  refine ⟨?_, ?_, ?_⟩
  · intro i
    exact sema_up_completes hinv hx hcode i
  · intro q byte
    exact intq_putc_completes hinv hx hcode q byte
  · intro q
    exact intq_getc_completes hinv hx hcode (queues_in_range hr q)

/-- The thread sleeps, and an interrupt comes. -/
theorem sleeper_intr_allowed : ∀ e ∈ sleeper_run ++ [.intr], e.Allowed := by
  intro e he
  rcases List.mem_append.mp he with he | he
  · exact sleeper_run_allowed e he
  · obtain rfl := List.mem_singleton.mp he
    trivial

/-- While the main thread sleeps for a tick, a thread of lower priority waits for a semaphore.
The main thread runs again when the next interrupt comes. -/
def low_sleeper_run : List Event :=
  create_run 2 20 ++ [.call (.timer_sleep 1), .go, .go, .call (.sema_down (.other 0)), .go, .go,
    .intr, .handle .timer_interrupt, .go, .go, .intr_end, .idle, .go, .go, .intr]

/-- A handler that wakes a thread of lower priority. -/
theorem handler_wake_ups_start : ∃ s, Reachable (kernel_system plain_setup) (fun _ _ => True) s ∧
    s.in_external_intr = true ∧ (s.sema (.other 0)).waiters = [2] ∧
    Completes s (.sema_up (.other 0)) := by
  obtain ⟨s, hr, hx, hcode, hw, hlt⟩ := run_reachable (u := plain_setup) (fun _ _ => True)
    (fun s => s.in_external_intr = true ∧ s.intr_code = [] ∧ (s.sema (.other 0)).waiters = [2] ∧
      s.priority 2 < s.cur.priority) low_sleeper_run (.init rfl)
    (by simp [low_sleeper_run, create_run, Event.Allowed, Stmt.Callable, Stmt.Handled])
    (by decide +kernel)
  refine ⟨s, hr, hx, hw, ((handler_wake_ups hr hx hcode).1 _).mpr fun w hlast => Or.inr ?_⟩
  rw [hw] at hlast
  cases hlast
  exact hlt

/-- A handler that ups a semaphore for which a thread of the same priority waits. -/
theorem handler_yields : ∃ s, Reachable (kernel_system plain_setup) (fun _ _ => True) s ∧
    s.in_external_intr = true ∧ s.intr_code = [] ∧ ¬ Completes s (.sema_up (.other 0)) := by
  obtain ⟨s, hr, hx, hcode, hw, hcur, hidle, hle⟩ := run_reachable (u := plain_setup)
    (fun _ _ => True) (fun s => s.in_external_intr = true ∧ s.intr_code = [] ∧
      (s.sema (.other 0)).waiters.getLast? = some 2 ∧ s.current = 0 ∧ s.idle_thread = 1 ∧
      s.cur.priority ≤ s.priority 2) _ (.init rfl) sleeper_intr_allowed (by decide +kernel)
  refine ⟨s, hr, hx, hcode, fun hc => ?_⟩
  rcases (sema_up_completes (kernel_inv hr).sched hx hcode _).mp hc 2 hw with h | h
  · rw [hcur, hidle] at h
    cases h
  · exact absurd hle (not_le.mpr h)

end Pintos.Threads.Machine
