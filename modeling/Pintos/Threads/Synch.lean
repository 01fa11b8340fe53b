/-
`threads/synch.c`: locks with priority donation and roll-back, each lock
operation one step.

The state is the table of threads and the table of locks. A thread is where it
stands in `lock_acquire` (`Phase`): outside it, asleep in the `while` loop of
`sema_down`, or woken and about to test the semaphore again. The scheduler is not
part of this level: any thread that is not asleep may take the next step, so every
order of operations a scheduler can produce is a run here. Priority mode, that is,
`thread_mlfqs` false.

`malloc` in `priority_donation` is taken to succeed and to find the lock of its own size class
free: `malloc` takes that lock with `lock_acquire`, so with a holder of lower priority it would
come back to `priority_donation` and to `malloc`, again and again.

`lock->semaphore` is part of the lock. The recursion of `nested_donation` follows
links that may close a circle, so it takes fuel and the statement that it returns
is that some amount of fuel is enough.
-/
import Pintos.Base
import Pintos.Library.StepSystem
import Pintos.Library.Links

set_option autoImplicit false

namespace Pintos.Threads

open StepSystem

/-! ## Data -/

/-- A `struct thread *`. -/
abbrev Tid := ℕ

/-- A `struct lock *`. -/
abbrev LockId := ℕ

/-- `PRI_MIN`. -/
def PRI_MIN : ℤ := 0

/-- `PRI_MAX`. -/
def PRI_MAX : ℤ := 63

/-- `struct lock_elem`: a donation a thread has received. -/
structure LockElem where
  priority : ℤ
  lock : LockId
  locked_thread : Tid
  deriving DecidableEq

/-- Where a thread stands in `lock_acquire`. -/
inductive Phase
  /-- Outside it. -/
  | free
  /-- On the lock's `waiters`, asleep. -/
  | blocked (m : LockId)
  /-- Taken off `waiters` by `sema_up`, about to test `value` again. -/
  | woken (m : LockId)
  deriving DecidableEq

/-- The fields of `struct thread` that `synch.c` uses. -/
structure Thread where
  live : Bool
  phase : Phase
  priority : ℤ
  original_priority : ℤ
  possessing_locks : List LockElem
  holded_by : Option LockId

/-- `struct lock`. -/
structure Lock where
  holder : Option Tid
  value : ℕ
  waiters : List Tid

/-- The threads and the locks. -/
structure LockSys where
  thread : Tid → Thread
  lock : LockId → Lock

/-- `t->priority`. -/
abbrev LockSys.priority (s : LockSys) (t : Tid) : ℤ := (s.thread t).priority

/-- `m->holder`. -/
abbrev LockSys.holder (s : LockSys) (m : LockId) : Option Tid := (s.lock m).holder

/-- Changing one thread. -/
def LockSys.set_thread (s : LockSys) (t : Tid) (f : Thread → Thread) : LockSys :=
  { s with thread := Function.update s.thread t (f (s.thread t)) }

/-- Changing one lock. -/
def LockSys.set_lock (s : LockSys) (m : LockId) (f : Lock → Lock) : LockSys :=
  { s with lock := Function.update s.lock m (f (s.lock m)) }

/-- `t->priority = p`. -/
def LockSys.set_priority (s : LockSys) (t : Tid) (p : ℤ) : LockSys :=
  s.set_thread t (fun th => { th with priority := p })

/-- `list_insert_ordered`: before the first element that `elem` is `less` than. -/
def list_insert_ordered {α : Type} (less : α → α → Prop) [DecidableRel less] (list : List α)
    (elem : α) : List α :=
  list.orderedInsert less elem

/-- `less_priority`, which is `<=`. -/
def less_priority (s : LockSys) (a b : Tid) : Prop := s.priority a ≤ s.priority b

instance (s : LockSys) : DecidableRel (less_priority s) := fun _ _ =>
  inferInstanceAs (Decidable (_ ≤ _))

/-- `less_lock_priority`, which is `<=`. -/
def less_lock_priority (a b : LockElem) : Prop := a.priority ≤ b.priority

instance : DecidableRel less_lock_priority := fun _ _ => inferInstanceAs (Decidable (_ ≤ _))

/-! ## Donation -/

/-- `nested_donation`. -/
def nested_donation : (fuel : ℕ) → LockSys → (high medium : Tid) → Res LockSys
  | 0, _, _, _ => .error .diverge
  | fuel + 1, s, high, medium =>
    match (s.thread medium).holded_by with
    | none => .ok s
    | some m =>
      match s.holder m with
      | none => .error .dangling
      | some low => nested_donation fuel (s.set_priority low (s.priority high)) medium low

/-- `priority_donation`, whose `malloc` gives the record without a donation of its own. -/
def priority_donation (fuel : ℕ) (s : LockSys) (high low : Tid) (lock : LockId) : Res LockSys :=
  let member : LockElem := ⟨s.priority high, lock, high⟩
  let s := s.set_thread low (fun th => { th with
    possessing_locks := list_insert_ordered less_lock_priority th.possessing_locks member })
  let s := s.set_thread high (fun th => { th with holded_by := some lock })
  let s := s.set_priority low (s.priority high)
  nested_donation fuel s high low

/-! ## `lock_acquire` -/

/-- `sema_down` on the lock and the assignment of `holder` behind it: sleep if the
value is 0, else take the lock. A woken thread is back at this test. -/
def acquire_tail (s : LockSys) (t : Tid) (m : LockId) : LockSys :=
  if (s.lock m).value = 0 then
    (s.set_lock m (fun l => { l with
      waiters := list_insert_ordered (less_priority s) l.waiters t })).set_thread t
        (fun th => { th with phase := .blocked m })
  else
    (s.set_lock m (fun l => { l with value := l.value - 1, holder := some t })).set_thread t
      (fun th => { th with phase := .free })

/-- The donation at the head of `lock_acquire`. -/
def donate (fuel : ℕ) (s : LockSys) (t : Tid) (m : LockId) : Res LockSys :=
  match s.holder m with
  | none => .ok s
  | some h => if s.priority h < s.priority t then priority_donation fuel s t h m else .ok s

/-- `lock_acquire`, up to where the thread sleeps or returns. -/
def lock_acquire (fuel : ℕ) (s : LockSys) (t : Tid) (m : LockId) : Res LockSys := do
  ASSERT (s.holder m ≠ some t)
  let s ← donate fuel s t m
  return acquire_tail s t m

/-- `lock_try_acquire`. -/
def lock_try_acquire (s : LockSys) (t : Tid) (m : LockId) : Res LockSys := do
  ASSERT (s.holder m ≠ some t)
  return if 0 < (s.lock m).value then
      s.set_lock m (fun l => { l with value := l.value - 1, holder := some t })
    else s

/-! ## `lock_release` -/

/-- `member->locked_thread->holded_by = NULL` for each member of a list. -/
def unlink : List LockElem → LockSys → LockSys
  | [], s => s
  | e :: l, s => unlink l (s.set_thread e.locked_thread (fun th => { th with holded_by := none }))

/-- `priority_rollback`. -/
def priority_rollback (s : LockSys) (t : Tid) (lock : LockId) : LockSys :=
  if (s.lock lock).waiters = [] then s
  else
    let s := unlink ((s.thread t).possessing_locks.filter (fun e => e.lock = lock)) s
    let kept := (s.thread t).possessing_locks.filter (fun e => e.lock ≠ lock)
    s.set_thread t (fun th => { th with
      possessing_locks := kept
      priority := match kept.getLast? with
        | none => th.original_priority
        | some e => e.priority })

/-- `sema_up`: the thread at the back of `waiters` is woken. -/
def sema_up (s : LockSys) (m : LockId) : LockSys :=
  let s' := s.set_lock m (fun l => { l with value := l.value + 1, waiters := l.waiters.dropLast })
  match (s.lock m).waiters.getLast? with
  | none => s'
  | some w => s'.set_thread w (fun th => { th with phase := .woken m })

/-- `lock_release`. -/
def lock_release (s : LockSys) (t : Tid) (m : LockId) : Res LockSys := do
  ASSERT (s.holder m = some t)
  let s := s.set_lock m (fun l => { l with holder := none })
  let s := if (s.thread t).possessing_locks ≠ [] then priority_rollback s t m else s
  return sema_up s m

/-! ## Other operations on threads -/

/-- `thread_set_priority`. -/
def thread_set_priority (s : LockSys) (t : Tid) (new_priority : ℤ) : LockSys :=
  if (s.thread t).possessing_locks ≠ [] then
    s.set_thread t (fun th => { th with original_priority := new_priority })
  else
    s.set_thread t (fun th => { th with
      priority := new_priority, original_priority := new_priority })

/-- `init_thread`, for a thread that does not exist yet. -/
def init_thread (s : LockSys) (t : Tid) (priority : ℤ) : Res LockSys := do
  ASSERT (PRI_MIN ≤ priority ∧ priority ≤ PRI_MAX)
  return s.set_thread t (fun _ =>
    { live := true, phase := .free, priority := priority, original_priority := priority,
      possessing_locks := [], holded_by := none })

/-- `thread_exit`. -/
def thread_exit (s : LockSys) (t : Tid) : LockSys :=
  s.set_thread t (fun th => { th with live := false, possessing_locks := [] })

/-! ## Runs -/

/-- One step of a thread. -/
inductive LockOp
  | create (t : Tid) (priority : ℤ)
  | acquire (t : Tid) (m : LockId)
  | resume (t : Tid) (m : LockId)
  | try_acquire (t : Tid) (m : LockId)
  | release (t : Tid) (m : LockId)
  | set_priority (t : Tid) (new_priority : ℤ)
  | exit (t : Tid)

/-- A thread that is running its own code. -/
def LockSys.Runs (s : LockSys) (t : Tid) : Prop :=
  (s.thread t).live = true ∧ (s.thread t).phase = .free

/-- The steps. A thread exits without holding a lock. -/
def lock_step (s : LockSys) : LockOp → LockSys → Prop
  | .create t p, s' => (s.thread t).live = false ∧ init_thread s t p = .ok s'
  | .acquire t m, s' => s.Runs t ∧ ∃ fuel, lock_acquire fuel s t m = .ok s'
  | .resume t m, s' => (s.thread t).phase = .woken m ∧ s' = acquire_tail s t m
  | .try_acquire t m, s' => s.Runs t ∧ lock_try_acquire s t m = .ok s'
  | .release t m, s' => s.Runs t ∧ lock_release s t m = .ok s'
  | .set_priority t n, s' => s.Runs t ∧ s' = thread_set_priority s t n
  | .exit t, s' => s.Runs t ∧ (∀ m, s.holder m ≠ some t) ∧ s' = thread_exit s t

/-- Before the first thread is created: no threads, all locks free. -/
def lock_system : System LockSys LockOp where
  init s := (∀ t, s.thread t = ⟨false, .free, 0, 0, [], none⟩) ∧ ∀ m, s.lock m = ⟨none, 1, []⟩
  step := lock_step

end Pintos.Threads
