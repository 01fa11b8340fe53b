/-
The whole thread system: scheduler, semaphores, locks with donation, condition variables,
the alarm clock, interrupt queues and interrupts, one statement at a time.

A thread is its `struct thread` and the statements it still has to execute. A call puts
the statements of the callee in front of them, so a thread that is preempted, that
yields inside `thread_unblock` or that blocks in `sema_down` goes on later where it
stopped. What the source does with interrupts off and without giving up the processor
is one statement here; `intr` says whether a thread runs with interrupts on between its
statements. Two functions that run with interrupts on are one statement all the same:
`list_insert_ordered` in `priority_donation` and the loop of `priority_rollback`. What rests
on the links of these lists needs that no two threads are inside them on one list, and says
so (`Undisturbed`). An external interrupt puts its handler on top of the running thread: the
statements of the handler are `intr_code`.

A thread has one `elem` for the lists it can be on. To put it on a list while it is on
another destroys both, which is the fault `relinked`. The functions of the threads, the
device registers and the bytes handed to the caller of `intq_getc` are not part of
this: a thread calls what it likes. `malloc` in `priority_donation` is taken to succeed, and
its `lock_acquire (&d->lock)` to find that lock free or held by a thread of no lower priority:
else `malloc` comes back to `priority_donation`, and that to `malloc`, without end. The runs
start where `thread_start` ends.

Some fields are history, which no statement reads: how often a semaphore was upped and
downed and whom `sema_up` took off `waiters`, and the log of a condition variable.
-/
import Pintos.Threads.Synch

set_option autoImplicit false

namespace Pintos.Threads.Machine

open StepSystem

/-! ## Data -/

/-- A call of `cond_wait`, and so the `struct semaphore_elem` on its stack. -/
abbrev WaiterId := ℕ

/-- The semaphores: those in locks, `parent_wait_sema` of a thread, those on the stack in
`cond_wait`, and all others. -/
inductive SemaId
  | lock (m : LockId)
  | parent_wait (t : Tid)
  | waiter (w : WaiterId)
  | other (n : ℕ)
  deriving DecidableEq

/-- A `struct condition *`. -/
abbrev CondId := ℕ

/-- A `struct intq *`. -/
abbrev QueueId := ℕ

/-- The list a thread's `elem` is on. -/
inductive Place
  | ready_list
  | waiting_list
  | waiters (sema : SemaId)
  deriving DecidableEq

inductive Status
  /-- No such thread yet. -/
  | unused
  | running
  | ready
  | blocked
  | dying
  deriving DecidableEq

/-- `&q->not_full` or `&q->not_empty`. -/
inductive Waiter
  | not_full
  | not_empty
  deriving DecidableEq

/-- The calls of the kernel, and the statements they go on with. -/
inductive Stmt
  | sema_down (sema : SemaId)
  /-- The test of the `while` loop in `sema_down`, after a wake-up. -/
  | sema_retest (sema : SemaId)
  | sema_try_down (sema : SemaId)
  | sema_up (sema : SemaId)
  | lock_acquire (lock : LockId)
  /-- `if (lock->holder != NULL)` in `lock_acquire`. -/
  | donation_test (lock : LockId)
  /-- The comparison with the holder's priority. -/
  | donation_compare (lock : LockId)
  /-- The call of `priority_donation`, with `lock->holder` as `low`. -/
  | donation_call (lock : LockId)
  /-- `priority_donation` up to `list_insert_ordered`. Its `malloc` does not donate. -/
  | donation_member (low : Tid) (lock : LockId)
  | donation_insert (low : Tid) (member : LockElem)
  /-- `high->holded_by = lock`. -/
  | donation_link (lock : LockId)
  /-- `low->priority = high->priority` in `priority_donation`. -/
  | donation_write (low : Tid) (lock : LockId)
  | nested_donation (high medium : Tid)
  /-- `low = medium->holded_by->holder`. -/
  | nested_low (high medium : Tid)
  /-- `low->priority = high->priority` in `nested_donation`. -/
  | nested_write (high low : Tid)
  /-- `lock->holder = thread_current ()`. -/
  | lock_hold (lock : LockId)
  | lock_try_acquire (lock : LockId)
  /-- `sema_try_down` in `lock_try_acquire`. -/
  | lock_try_down (lock : LockId)
  | lock_release (lock : LockId)
  /-- `if (!list_empty (&thread_current ()->possessing_locks))` in `lock_release`. -/
  | release_test (lock : LockId)
  | priority_rollback (lock : LockId)
  /-- The loop of `priority_rollback`. -/
  | rollback_loop (lock : LockId)
  /-- The last `if` of `priority_rollback`, and its branches. -/
  | rollback_test
  | rollback_original
  | rollback_back
  | thread_set_priority (new_priority : ℤ)
  /-- `thread_current ()->priority = new_priority`. -/
  | set_priority (new_priority : ℤ)
  /-- `thread_current ()->original_priority = new_priority`. -/
  | set_original (new_priority : ℤ)
  /-- The last `if` of `thread_set_priority`. -/
  | set_priority_yield (new_priority : ℤ)
  | thread_set_nice (nice : ℤ)
  | thread_create (t : Tid) (priority : ℤ)
  | thread_block
  | thread_unblock (t : Tid)
  | thread_yield
  | thread_exit
  /-- The end of `thread_exit`. -/
  | exit_schedule
  | timer_sleep (sleep_ticks : ℤ)
  /-- `timer_sleep` once it has read the time. -/
  | sleep_until (waking_time : ℤ)
  | intr_disable
  | intr_enable
  | cond_wait (cond : CondId)
  /-- `list_insert_ordered` in `cond_wait`, with the priority copied before. -/
  | cond_enter (cond : CondId) (priority : ℤ)
  /-- The return from `cond_wait`. -/
  | cond_return (cond : CondId) (waiter : WaiterId)
  | cond_signal (cond : CondId)
  /-- `sema_up` in `cond_signal`. -/
  | cond_wake (cond : CondId) (waiter : WaiterId)
  | cond_broadcast (cond : CondId)
  /-- The test of the `while` loop in `cond_broadcast`. -/
  | broadcast_loop (cond : CondId)
  | intq_getc (q : QueueId)
  | intq_putc (q : QueueId) (byte : ℕ)
  /-- `wait` of `intq.c`. -/
  | intq_wait (q : QueueId) (waiter : Waiter)
  /-- `signal` of `intq.c`. -/
  | intq_signal (q : QueueId) (waiter : Waiter)
  /-- `*waiter = NULL` in `signal`. -/
  | intq_clear (q : QueueId) (waiter : Waiter)
  | timer_interrupt
  | mlfqs_tick_change
  | wake_waiting_list
  deriving DecidableEq

/-- `struct thread`, with the statements still to execute. -/
structure Thread where
  status : Status
  priority : ℤ
  original_priority : ℤ
  possessing_locks : List LockElem
  holded_by : Option LockId
  nice : ℤ
  recent_cpu : ℤ
  waking_time : ℤ
  elem : Option Place
  intr : Bool
  code : List Stmt

/-- `struct semaphore`. History: how often it was upped and downed, and the threads that
`sema_up` has taken off `waiters` and that have not tested the value again. -/
structure Semaphore where
  value : UInt32
  waiters : List Tid
  ups : ℕ
  downs : ℕ
  removed : List Tid

/-- What happens to the waiters of a condition variable. -/
inductive CondEvent
  /-- It is put on `waiters` in `cond_wait`. -/
  | enter (w : WaiterId)
  /-- It is taken off by `cond_signal`. -/
  | remove (w : WaiterId)
  /-- Its semaphore is upped. -/
  | raise (w : WaiterId)
  /-- Its `cond_wait` returns. -/
  | leave (w : WaiterId)
  /-- `cond_broadcast` is called, with these waiters. -/
  | broadcast (t : Tid) (present : List WaiterId)
  /-- `cond_broadcast` returns. -/
  | finish (t : Tid)
  deriving DecidableEq

/-- `struct semaphore_elem`. -/
structure SemaphoreElem where
  waiter : WaiterId
  priority : ℤ
  deriving DecidableEq

/-- `struct condition`, with the lock that goes with it and its history, latest first. -/
structure Condition where
  lock : LockId
  waiters : List SemaphoreElem
  log : List CondEvent

/-- `struct intq`. -/
structure IntQueue where
  lock : LockId
  not_full : Option Tid
  not_empty : Option Tid
  buf : ℕ → ℕ
  head : ℕ
  tail : ℕ

structure Kernel where
  thread : Tid → Thread
  all_list : List Tid
  ready_list : List Tid
  waiting_list : List Tid
  sema : SemaId → Semaphore
  holder : LockId → Option Tid
  cond : CondId → Condition
  next_waiter : WaiterId
  intq : QueueId → IntQueue
  current : Tid
  idle_thread : Tid
  in_external_intr : Bool
  yield_on_return : Bool
  intr_code : List Stmt
  ticks : ℤ
  thread_ticks : ℕ
  load_avg : ℤ
  thread_mlfqs : Bool

namespace Kernel

variable (s : Kernel)

/-- Changing one thread. -/
def set_thread (t : Tid) (f : Thread → Thread) : Kernel :=
  { s with thread := Function.update s.thread t (f (s.thread t)) }

/-- Changing one semaphore. -/
def set_sema (i : SemaId) (f : Semaphore → Semaphore) : Kernel :=
  { s with sema := Function.update s.sema i (f (s.sema i)) }

/-- Changing one condition variable. -/
def set_cond (c : CondId) (f : Condition → Condition) : Kernel :=
  { s with cond := Function.update s.cond c (f (s.cond c)) }

/-- Changing one queue. -/
def set_intq (q : QueueId) (f : IntQueue → IntQueue) : Kernel :=
  { s with intq := Function.update s.intq q (f (s.intq q)) }

/-- The running thread. -/
abbrev cur : Thread := s.thread s.current

/-- `t->priority`. -/
abbrev priority (t : Tid) : ℤ := (s.thread t).priority

/-- `intr_get_level () == INTR_OFF`. -/
def intr_off : Prop := s.in_external_intr = true ∨ s.cur.intr = false

instance : Decidable s.intr_off := inferInstanceAs (Decidable (_ ∨ _))

/-- The statements of a callee, in front of those of its caller. -/
def push (l : List Stmt) : Kernel :=
  if s.in_external_intr then { s with intr_code := l ++ s.intr_code }
  else s.set_thread s.current (fun th => { th with code := l ++ th.code })

/-- `less_priority`, which is `<=`. -/
def less_priority (a b : Tid) : Prop := s.priority a ≤ s.priority b

instance : DecidableRel s.less_priority := fun _ _ => inferInstanceAs (Decidable (_ ≤ _))

/-- `less_waking_time`, which is `<=`. -/
def less_waking_time (a b : Tid) : Prop := (s.thread a).waking_time ≤ (s.thread b).waking_time

instance : DecidableRel s.less_waking_time := fun _ _ => inferInstanceAs (Decidable (_ ≤ _))

end Kernel

/-! ## The scheduler -/

/-- `next_thread_to_run`, with the list it leaves. -/
def next_thread_to_run (s : Kernel) : Tid × List Tid :=
  match s.ready_list.getLast? with
  | none => (s.idle_thread, s.ready_list)
  | some t => (t, s.ready_list.dropLast)

/-- `schedule` and `schedule_tail`. -/
def schedule (s : Kernel) : Res Kernel := do
  ASSERT (s.cur.status ≠ .running)
  let (next, ready_list) := next_thread_to_run s
  return { (s.set_thread next (fun th => { th with status := .running, elem := none })) with
    ready_list := ready_list
    current := next
    thread_ticks := 0 }

/-- `list_insert_ordered (&ready_list, ..)` and the status that goes with it. -/
def make_ready (s : Kernel) (t : Tid) : Res Kernel :=
  if (s.thread t).elem = none then
    .ok { (s.set_thread t (fun th => { th with status := .ready, elem := some .ready_list })) with
      ready_list := list_insert_ordered s.less_priority s.ready_list t }
  else .error .relinked

def thread_yield (s : Kernel) : Res Kernel := do
  ASSERT (s.in_external_intr = false)
  let s ← if s.current = s.idle_thread then
      .ok (s.set_thread s.current (fun th => { th with status := .ready }))
    else make_ready s s.current
  schedule s

def thread_block (s : Kernel) : Res Kernel := do
  ASSERT (s.in_external_intr = false)
  schedule (s.set_thread s.current (fun th => { th with status := .blocked }))

def thread_unblock (s : Kernel) (t : Tid) : Res Kernel := do
  ASSERT ((s.thread t).status = .blocked)
  let s ← make_ready s t
  ASSERT (s.cur.status = .running)
  if s.current ≠ s.idle_thread ∧ s.cur.priority ≤ s.priority t then thread_yield s else return s

/-! ## Semaphores and locks -/

def sema_down (s : Kernel) (i : SemaId) : Res Kernel := do
  ASSERT (s.in_external_intr = false)
  if (s.sema i).value = 0 then
    if s.cur.elem = none then
      thread_block (((s.push [.sema_retest i]).set_sema i (fun x => { x with
        waiters := list_insert_ordered s.less_priority x.waiters s.current })).set_thread s.current
          (fun th => { th with elem := some (.waiters i) }))
    else throw .relinked
  else return s.set_sema i (fun x => { x with value := x.value - 1, downs := x.downs + 1 })

/-- The thread that tests the value again was taken off `waiters` before. -/
def sema_retest (s : Kernel) (i : SemaId) : Res Kernel :=
  sema_down (s.set_sema i (fun x => { x with removed := x.removed.erase s.current })) i

def sema_try_down (s : Kernel) (i : SemaId) : Kernel :=
  if 0 < (s.sema i).value then
    s.set_sema i (fun x => { x with value := x.value - 1, downs := x.downs + 1 })
  else s

def sema_up (s : Kernel) (i : SemaId) : Res Kernel :=
  match (s.sema i).waiters.getLast? with
  | none => .ok (s.set_sema i (fun x => { x with value := x.value + 1, ups := x.ups + 1 }))
  | some w =>
    thread_unblock ((s.set_sema i (fun x => { x with
      value := x.value + 1
      ups := x.ups + 1
      waiters := x.waiters.dropLast
      removed := x.removed ++ [w] })).set_thread w (fun th => { th with elem := none })) w

def lock_acquire (s : Kernel) (m : LockId) : Res Kernel := do
  ASSERT (s.in_external_intr = false)
  ASSERT (s.holder m ≠ some s.current)
  return s.push [.donation_test m, .sema_down (.lock m), .lock_hold m]

def donation_test (s : Kernel) (m : LockId) : Kernel :=
  if s.holder m ≠ none then s.push [.donation_compare m] else s

/-- `lock->holder` may have become NULL since it was tested. -/
def donation_compare (s : Kernel) (m : LockId) : Res Kernel :=
  match s.holder m with
  | none => .error .dangling
  | some h => .ok (if s.priority h < s.cur.priority then s.push [.donation_call m] else s)

def donation_call (s : Kernel) (m : LockId) : Res Kernel :=
  match s.holder m with
  | none => .error .dangling
  | some low => .ok (s.push [.donation_member low m])

def donation_member (s : Kernel) (low : Tid) (m : LockId) : Kernel :=
  s.push [.donation_insert low ⟨s.cur.priority, m, s.current⟩, .donation_link m,
    .donation_write low m, .nested_donation s.current low]

def donation_insert (s : Kernel) (low : Tid) (member : LockElem) : Kernel :=
  s.set_thread low (fun th => { th with
    possessing_locks := list_insert_ordered less_lock_priority th.possessing_locks member })

def donation_link (s : Kernel) (m : LockId) : Kernel :=
  s.set_thread s.current (fun th => { th with holded_by := some m })

/-- `low->priority = high->priority`. -/
def write_priority (s : Kernel) (high low : Tid) : Kernel :=
  s.set_thread low (fun th => { th with priority := s.priority high })

def nested_donation (s : Kernel) (high medium : Tid) : Kernel :=
  if (s.thread medium).holded_by = none then s else s.push [.nested_low high medium]

/-- `medium->holded_by` and the holder of that lock may be NULL by now. -/
def nested_low (s : Kernel) (high medium : Tid) : Res Kernel :=
  match (s.thread medium).holded_by.bind s.holder with
  | none => .error .dangling
  | some low => .ok (s.push [.nested_write high low, .nested_donation medium low])

def lock_try_acquire (s : Kernel) (m : LockId) : Res Kernel := do
  ASSERT (s.holder m ≠ some s.current)
  return s.push [.lock_try_down m]

def lock_try_down (s : Kernel) (m : LockId) : Kernel :=
  if 0 < (s.sema (.lock m)).value then (sema_try_down s (.lock m)).push [.lock_hold m] else s

def lock_release (s : Kernel) (m : LockId) : Res Kernel := do
  ASSERT (s.holder m = some s.current)
  return ({ s with holder := Function.update s.holder m none }).push
    [.release_test m, .sema_up (.lock m)]

def release_test (s : Kernel) (m : LockId) : Kernel :=
  if s.cur.possessing_locks ≠ [] then s.push [.priority_rollback m] else s

/-- `member->locked_thread->holded_by = NULL` for each member of a list. -/
def unlink : List LockElem → Kernel → Kernel
  | [], s => s
  | e :: l, s => unlink l (s.set_thread e.locked_thread (fun th => { th with holded_by := none }))

def priority_rollback (s : Kernel) (m : LockId) : Kernel :=
  if (s.sema (.lock m)).waiters = [] then s else s.push [.rollback_loop m, .rollback_test]

/-- The members for other locks that come in while the loop runs stay, wherever it is. -/
def rollback_loop (s : Kernel) (m : LockId) : Kernel :=
  (unlink (s.cur.possessing_locks.filter (fun e => e.lock = m)) s).set_thread s.current
    (fun th => { th with possessing_locks := th.possessing_locks.filter (fun e => e.lock ≠ m) })

def rollback_test (s : Kernel) : Kernel :=
  if s.cur.possessing_locks = [] then s.push [.rollback_original] else s.push [.rollback_back]

def rollback_original (s : Kernel) : Kernel :=
  s.set_thread s.current (fun th => { th with priority := th.original_priority })

/-- `list_back` asserts that the list is not empty. -/
def rollback_back (s : Kernel) : Res Kernel :=
  match s.cur.possessing_locks.getLast? with
  | none => .error .assertion
  | some e => .ok (s.set_thread s.current (fun th => { th with priority := e.priority }))

/-! ## `thread.c` -/

/-- `F` of `fixed_point.h`. The macros are written out, with C's division. -/
def F : ℤ := 16384

def calc_priority (recent_cpu nice : ℤ) : ℤ :=
  let result := (PRI_MAX * F - recent_cpu.tdiv 4 - 2 * nice * F).tdiv F
  if result < PRI_MIN then PRI_MIN else if PRI_MAX < result then PRI_MAX else result

def calc_recent_cpu (load_avg : ℤ) (th : Thread) : Thread :=
  let converted_load_avg := load_avg * 2
  let temp1 := (converted_load_avg * F).tdiv (converted_load_avg + F)
  { th with recent_cpu := (temp1 * th.recent_cpu).tdiv F + th.nice * F }

def calc_load_avg (s : Kernel) : Kernel :=
  let temp1 := (s.load_avg * 59).tdiv 60
  let ready := if s.current = s.idle_thread then s.ready_list.length else s.ready_list.length + 1
  { s with load_avg := temp1 + ((ready : ℤ) * F).tdiv 60 }

/-- `ROUND_TO_NEAR`. -/
def round_to_near (x : ℤ) : ℤ := if 0 ≤ x then (x + F / 2).tdiv F else (x - F / 2).tdiv F

/-- `thread_get_recent_cpu` of the running thread. -/
def thread_get_recent_cpu (s : Kernel) : ℤ := round_to_near (s.cur.recent_cpu * 100)

def thread_set_priority (s : Kernel) (new_priority : ℤ) : Kernel :=
  if s.thread_mlfqs then s
  else if s.cur.possessing_locks ≠ [] then
    s.push [.set_original new_priority, .set_priority_yield new_priority]
  else
    s.push [.set_priority new_priority, .set_original new_priority,
      .set_priority_yield new_priority]

def set_priority (s : Kernel) (new_priority : ℤ) : Kernel :=
  s.set_thread s.current (fun th => { th with priority := new_priority })

def set_original (s : Kernel) (new_priority : ℤ) : Kernel :=
  s.set_thread s.current (fun th => { th with original_priority := new_priority })

def set_priority_yield (s : Kernel) (new_priority : ℤ) : Res Kernel :=
  match s.ready_list.getLast? with
  | none => .ok s
  | some last => if new_priority ≤ s.priority last then thread_yield s else .ok s

/-- The assignments of `thread_set_nice`. -/
def set_nice (load_avg nice : ℤ) (th : Thread) : Thread :=
  let nice := if 20 < nice then 20 else if nice < -20 then -20 else nice
  let th := calc_recent_cpu load_avg { th with nice := nice }
  { th with priority := calc_priority th.recent_cpu th.nice }

def thread_set_nice (s : Kernel) (nice : ℤ) : Res Kernel :=
  thread_yield (s.set_thread s.current (set_nice s.load_avg nice))

/-- `tid_lock`. -/
def tid_lock : LockId := 0

/-- A thread as `init_thread` and `thread_create` make it. It has interrupts on once it runs. -/
def new_thread (s : Kernel) (priority : ℤ) : Thread :=
  let th : Thread := ⟨.blocked, priority, priority, [], none, 0, 0, 0, none, true, []⟩
  if s.thread_mlfqs then
    { th with
      nice := s.cur.nice
      recent_cpu := thread_get_recent_cpu s
      priority := calc_priority (thread_get_recent_cpu s) s.cur.nice }
  else th

/-- `thread_create` up to `allocate_tid`. The page of the new thread is not in use. -/
def thread_create (s : Kernel) (t : Tid) (priority : ℤ) : Res Kernel := do
  ASSERT (PRI_MIN ≤ priority ∧ priority ≤ PRI_MAX)
  if (s.thread t).status = .unused then
    return ({ (s.set_thread t (fun _ => new_thread s priority)) with
      all_list := s.all_list ++ [t] }).push
        [.lock_acquire tid_lock, .lock_release tid_lock, .thread_unblock t]
  else throw .dangling

/-- `thread_exit` up to `sema_up`. -/
def thread_exit (s : Kernel) : Res Kernel := do
  ASSERT (s.in_external_intr = false)
  return ({ (s.set_thread s.current (fun th => { th with intr := false })) with
    all_list := s.all_list.erase s.current }).push [.sema_up (.parent_wait s.current), .exit_schedule]

/-! ## The timer -/

/-- An interrupt may come between the reading of the time and the rest. -/
def timer_sleep (s : Kernel) (sleep_ticks : ℤ) : Res Kernel :=
  if sleep_ticks ≤ 0 then .ok s
  else do
    ASSERT (¬ s.intr_off)
    return s.push [.sleep_until (s.ticks + sleep_ticks)]

def sleep_until (s : Kernel) (waking_time : ℤ) : Res Kernel :=
  let s := s.set_thread s.current (fun th => { th with waking_time := waking_time })
  if s.cur.elem = none then
    thread_block { (s.set_thread s.current (fun th => { th with elem := some .waiting_list })) with
      waiting_list := list_insert_ordered s.less_waking_time s.waiting_list s.current }
  else .error .relinked

/-- `TIME_SLICE`. -/
def TIME_SLICE : ℕ := 4

/-- `timer_interrupt` with `thread_tick`. -/
def timer_interrupt (s : Kernel) : Kernel :=
  let s := { s with ticks := s.ticks + 1, thread_ticks := s.thread_ticks + 1 }
  let s := if TIME_SLICE ≤ s.thread_ticks then { s with yield_on_return := true } else s
  if s.thread_mlfqs then s.push [.mlfqs_tick_change, .wake_waiting_list]
  else s.push [.wake_waiting_list]

/-- A loop over `all_list` that leaves the idle thread out. -/
def for_all_list (s : Kernel) (f : Thread → Thread) : Kernel :=
  s.all_list.foldl (fun s t => if t = s.idle_thread then s else s.set_thread t f) s

def mlfqs_tick_change (s : Kernel) : Kernel :=
  let s := if s.current ≠ s.idle_thread then
      s.set_thread s.current (fun th => { th with recent_cpu := th.recent_cpu + F })
    else s
  let s := if s.ticks % 100 = 0 then
      for_all_list (calc_load_avg s) (calc_recent_cpu (calc_load_avg s).load_avg)
    else s
  if s.ticks % 4 = 0 then
    for_all_list s (fun th => { th with priority := calc_priority th.recent_cpu th.nice })
  else s

/-- `wake_waiting_list` from an element on. What is taken off is the front of the list. -/
def wake_from : List Tid → Kernel → Res Kernel
  | [], s => .ok s
  | t :: rest, s =>
    if (s.thread t).waking_time ≤ s.ticks ∧ (s.thread t).status = .blocked then
      match s.waiting_list with
      | [] => .error .assertion
      | front :: waiting_list => do
        let s ← make_ready { (s.set_thread front (fun th => { th with elem := none })) with
          waiting_list := waiting_list } t
        wake_from rest s
    else wake_from rest s

/-! ## Condition variables -/

/-- `less_waiter_priority`, which is `<=`. -/
def less_waiter_priority (a b : SemaphoreElem) : Prop := a.priority ≤ b.priority

instance : DecidableRel less_waiter_priority := fun _ _ => inferInstanceAs (Decidable (_ ≤ _))

/-- `cond_wait` up to `waiter.priority = thread_current ()->priority`. -/
def cond_wait (s : Kernel) (c : CondId) : Res Kernel := do
  ASSERT (s.in_external_intr = false)
  ASSERT (s.holder (s.cond c).lock = some s.current)
  return s.push [.cond_enter c s.cur.priority]

/-- `cond_wait` from `list_insert_ordered` on. Its semaphore is a new one, with value 0. -/
def cond_enter (s : Kernel) (c : CondId) (priority : ℤ) : Kernel :=
  ({ (s.set_cond c (fun x => { x with
    waiters := list_insert_ordered less_waiter_priority x.waiters ⟨s.next_waiter, priority⟩
    log := .enter s.next_waiter :: x.log })) with next_waiter := s.next_waiter + 1 }).push
      [.lock_release (s.cond c).lock, .sema_down (.waiter s.next_waiter),
        .lock_acquire (s.cond c).lock, .cond_return c s.next_waiter]

def cond_signal (s : Kernel) (c : CondId) : Res Kernel := do
  ASSERT (s.in_external_intr = false)
  ASSERT (s.holder (s.cond c).lock = some s.current)
  match (s.cond c).waiters.getLast? with
  | none => return s
  | some w =>
    return (s.set_cond c (fun x => { x with
      waiters := x.waiters.dropLast
      log := .remove w.waiter :: x.log })).push [.cond_wake c w.waiter]

def cond_wake (s : Kernel) (c : CondId) (w : WaiterId) : Res Kernel :=
  sema_up (s.set_cond c (fun x => { x with log := .raise w :: x.log })) (.waiter w)

def broadcast_loop (s : Kernel) (c : CondId) : Kernel :=
  if (s.cond c).waiters = [] then
    s.set_cond c (fun x => { x with log := .finish s.current :: x.log })
  else s.push [.cond_signal c, .broadcast_loop c]

def cond_broadcast (s : Kernel) (c : CondId) : Kernel :=
  (s.set_cond c (fun x => { x with
    log := .broadcast s.current (x.waiters.map SemaphoreElem.waiter) :: x.log })).push
      [.broadcast_loop c]

/-! ## Interrupt queues -/

/-- `INTQ_BUFSIZE`. -/
def INTQ_BUFSIZE : ℕ := 64

/-- `next` of `intq.c`. -/
def next (pos : ℕ) : ℕ := (pos + 1) % INTQ_BUFSIZE

def intq_empty (q : IntQueue) : Prop := q.head = q.tail

def intq_full (q : IntQueue) : Prop := next q.head = q.tail

instance (q : IntQueue) : Decidable (intq_empty q) := inferInstanceAs (Decidable (_ = _))

instance (q : IntQueue) : Decidable (intq_full q) := inferInstanceAs (Decidable (_ = _))

/-- What a thread that waits on `waiter` waits for. -/
def Waiter.Awaits (q : IntQueue) : Waiter → Prop
  | .not_empty => intq_empty q
  | .not_full => intq_full q

instance (q : IntQueue) : (w : Waiter) → Decidable (w.Awaits q)
  | .not_empty => inferInstanceAs (Decidable (intq_empty q))
  | .not_full => inferInstanceAs (Decidable (intq_full q))

/-- `*waiter`. -/
def IntQueue.waiter (q : IntQueue) : Waiter → Option Tid
  | .not_full => q.not_full
  | .not_empty => q.not_empty

/-- `*waiter = t`. -/
def IntQueue.set_waiter (q : IntQueue) (t : Option Tid) : Waiter → IntQueue
  | .not_full => { q with not_full := t }
  | .not_empty => { q with not_empty := t }

def intq_getc (s : Kernel) (q : QueueId) : Res Kernel := do
  ASSERT s.intr_off
  if intq_empty (s.intq q) then
    ASSERT (s.in_external_intr = false)
    return s.push [.lock_acquire (s.intq q).lock, .intq_wait q .not_empty,
      .lock_release (s.intq q).lock, .intq_getc q]
  else
    return (s.set_intq q (fun x => { x with tail := next x.tail })).push [.intq_signal q .not_full]

def intq_putc (s : Kernel) (q : QueueId) (byte : ℕ) : Res Kernel := do
  ASSERT s.intr_off
  if intq_full (s.intq q) then
    ASSERT (s.in_external_intr = false)
    return s.push [.lock_acquire (s.intq q).lock, .intq_wait q .not_full,
      .lock_release (s.intq q).lock, .intq_putc q byte]
  else
    return (s.set_intq q (fun x => { x with
      buf := Function.update x.buf x.head byte, head := next x.head })).push
        [.intq_signal q .not_empty]

def intq_wait (s : Kernel) (q : QueueId) (w : Waiter) : Res Kernel := do
  ASSERT (s.in_external_intr = false)
  ASSERT s.intr_off
  ASSERT (w.Awaits (s.intq q))
  thread_block (s.set_intq q (fun x => x.set_waiter (some s.current) w))

def intq_signal (s : Kernel) (q : QueueId) (w : Waiter) : Res Kernel := do
  ASSERT s.intr_off
  ASSERT (¬ w.Awaits (s.intq q))
  match (s.intq q).waiter w with
  | none => return s
  | some t => return s.push [.thread_unblock t, .intq_clear q w]

/-! ## Runs -/

/-- A statement, executed by the running thread or by the handler on top of it. -/
def exec (s : Kernel) : Stmt → Res Kernel
  | .sema_down i => sema_down s i
  | .sema_retest i => sema_retest s i
  | .sema_try_down i => .ok (sema_try_down s i)
  | .sema_up i => sema_up s i
  | .lock_acquire m => lock_acquire s m
  | .donation_test m => .ok (donation_test s m)
  | .donation_compare m => donation_compare s m
  | .donation_call m => donation_call s m
  | .donation_member low m => .ok (donation_member s low m)
  | .donation_insert low e => .ok (donation_insert s low e)
  | .donation_link m => .ok (donation_link s m)
  | .donation_write low _ => .ok (write_priority s s.current low)
  | .nested_donation high medium => .ok (nested_donation s high medium)
  | .nested_low high medium => nested_low s high medium
  | .nested_write high low => .ok (write_priority s high low)
  | .lock_hold m => .ok { s with holder := Function.update s.holder m (some s.current) }
  | .lock_try_acquire m => lock_try_acquire s m
  | .lock_try_down m => .ok (lock_try_down s m)
  | .lock_release m => lock_release s m
  | .release_test m => .ok (release_test s m)
  | .priority_rollback m => .ok (priority_rollback s m)
  | .rollback_loop m => .ok (rollback_loop s m)
  | .rollback_test => .ok (rollback_test s)
  | .rollback_original => .ok (rollback_original s)
  | .rollback_back => rollback_back s
  | .thread_set_priority n => .ok (thread_set_priority s n)
  | .set_priority n => .ok (set_priority s n)
  | .set_original n => .ok (set_original s n)
  | .set_priority_yield n => set_priority_yield s n
  | .thread_set_nice n => thread_set_nice s n
  | .thread_create t p => thread_create s t p
  | .thread_block => do ASSERT s.intr_off; thread_block s
  | .thread_unblock t => thread_unblock s t
  | .thread_yield => thread_yield s
  | .thread_exit => thread_exit s
  | .exit_schedule => schedule (s.set_thread s.current (fun th => { th with status := .dying }))
  | .timer_sleep n => timer_sleep s n
  | .sleep_until n => sleep_until s n
  | .intr_disable => .ok (s.set_thread s.current (fun th => { th with intr := false }))
  | .intr_enable => do
    ASSERT (s.in_external_intr = false)
    return s.set_thread s.current (fun th => { th with intr := true })
  | .cond_wait c => cond_wait s c
  | .cond_enter c p => .ok (cond_enter s c p)
  | .cond_return c w => .ok (s.set_cond c (fun x => { x with log := .leave w :: x.log }))
  | .cond_signal c => cond_signal s c
  | .cond_wake c w => cond_wake s c w
  | .cond_broadcast c => .ok (cond_broadcast s c)
  | .broadcast_loop c => .ok (broadcast_loop s c)
  | .intq_getc q => intq_getc s q
  | .intq_putc q byte => intq_putc s q byte
  | .intq_wait q w => intq_wait s q w
  | .intq_signal q w => intq_signal s q w
  | .intq_clear q w => .ok (s.set_intq q (fun x => x.set_waiter none w))
  | .timer_interrupt => .ok (timer_interrupt s)
  | .mlfqs_tick_change => .ok (mlfqs_tick_change s)
  | .wake_waiting_list => wake_from s.waiting_list s

/-- What a thread may call. The semaphores of locks and threads have their own functions. -/
def Stmt.Callable : Stmt → Prop
  | .sema_down (.other _) | .sema_try_down (.other _) | .sema_up (.other _) | .lock_acquire _
  | .lock_try_acquire _ | .lock_release _ | .thread_set_priority _ | .thread_set_nice _
  | .thread_create _ _ | .thread_yield | .thread_exit | .timer_sleep _ | .intr_disable
  | .intr_enable | .cond_wait _ | .cond_signal _ | .cond_broadcast _ | .intq_getc _
  | .intq_putc _ _ => True
  | _ => False

/-- What the handlers of the timer, the disk, the keyboard and the serial port call. -/
def Stmt.Handled : Stmt → Prop
  | .sema_up (.other _) | .intq_getc _ | .intq_putc _ _ | .timer_interrupt => True
  | _ => False

inductive Event
  /-- The running thread calls. -/
  | call (c : Stmt)
  /-- The body of the loop in `idle`. -/
  | idle
  /-- The running thread, or the handler on top of it, executes its next statement. -/
  | go
  /-- An external interrupt: `intr_handler` up to the call of the handler. -/
  | intr
  /-- The handler calls. -/
  | handle (c : Stmt)
  /-- The end of `intr_handler`. -/
  | intr_end

/-- The next statement is taken off. -/
def pop_stmt (s : Kernel) : Option (Stmt × Kernel) :=
  if s.in_external_intr then
    match s.intr_code with
    | [] => none
    | c :: rest => some (c, { s with intr_code := rest })
  else
    match s.cur.code with
    | [] => none
    | c :: rest => some (c, s.set_thread s.current (fun th => { th with code := rest }))

def intr_end (s : Kernel) : Res Kernel :=
  let s := { s with in_external_intr := false }
  if s.yield_on_return then thread_yield s else .ok s

def step (s : Kernel) : Event → Kernel → Prop
  | .call c, s' => s.in_external_intr = false ∧ s.current ≠ s.idle_thread ∧ s.cur.code = [] ∧
      c.Callable ∧ s' = s.push [c]
  | .idle, s' => s.in_external_intr = false ∧ s.current = s.idle_thread ∧ s.cur.code = [] ∧
      s' = s.push [.intr_disable, .thread_block, .intr_enable]
  | .go, s' => ∃ c r, pop_stmt s = some (c, r) ∧ exec r c = .ok s'
  | .intr, s' => ¬ s.intr_off ∧ s' = { s with in_external_intr := true, yield_on_return := false }
  | .handle c, s' => s.in_external_intr = true ∧ s.intr_code = [] ∧ c.Handled ∧ s' = s.push [c]
  | .intr_end, s' => s.in_external_intr = true ∧ s.intr_code = [] ∧ intr_end s = .ok s'

/-- `PRI_DEFAULT`. -/
def PRI_DEFAULT : ℤ := 31

/-- The main thread. -/
def main_thread : Thread := ⟨.running, PRI_DEFAULT, PRI_DEFAULT, [], none, 0, 0, 0, none, true, []⟩

/-- The idle thread, blocked in its loop. -/
def idle_thread : Thread :=
  ⟨.blocked, PRI_MIN, PRI_MIN, [], none, 0, 0, 0, none, false, [.intr_enable]⟩

def no_thread : Thread := ⟨.unused, 0, 0, [], none, 0, 0, 0, none, true, []⟩

/-- What the rest of the kernel sets up: the scheduler in use, the initial values of the
semaphores, the lock of each condition variable and of each queue. -/
structure Setup where
  mlfqs : Bool
  sema : ℕ → UInt32
  cond_lock : CondId → LockId
  queue_lock : QueueId → LockId

/-- The initial value of a semaphore: a lock is made free, the semaphores in threads are
made with 0. -/
def Setup.value (u : Setup) : SemaId → UInt32
  | .lock _ => 1
  | .parent_wait _ | .waiter _ => 0
  | .other n => u.sema n

/-- After `thread_start`. -/
def thread_start (u : Setup) : Kernel where
  thread t := if t = 0 then main_thread else if t = 1 then idle_thread else no_thread
  all_list := [0, 1]
  ready_list := []
  waiting_list := []
  sema i := ⟨u.value i, [], 0, 0, []⟩
  holder _ := none
  cond c := ⟨u.cond_lock c, [], []⟩
  next_waiter := 0
  intq q := ⟨u.queue_lock q, none, none, fun _ => 0, 0, 0⟩
  current := 0
  idle_thread := 1
  in_external_intr := false
  yield_on_return := false
  intr_code := []
  ticks := 0
  thread_ticks := 0
  load_avg := 0
  thread_mlfqs := u.mlfqs

def kernel_system (u : Setup) : System Kernel Event where
  init s := s = thread_start u
  step := step

end Pintos.Threads.Machine
