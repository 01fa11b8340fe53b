/-
Interrupt queues (`devices/intq.c`): which thread a queue wakes.

A queue has one place for a thread that waits for each of its two conditions, and a lock so
that only one thread waits at a time. A call is cut where control can go to another thread: in
`thread_block`, where the lock is taken and given back, and in `thread_unblock`, which yields to
the thread it wakes when that has the higher priority. Which thread runs next, and which one a
list of waiters yields, is left open.

`signal` wakes the waiter first and empties its place afterwards. In between the waiter may
have run, and may be waiting again.
-/
import Pintos.Base
import Pintos.Library.StepSystem

set_option autoImplicit false

namespace Pintos.Devices

open StepSystem

/-- A thread. -/
abbrev Tid := ℕ

/-! ## The queue -/

/-- `INTQ_BUFSIZE`. -/
def INTQ_BUFSIZE : ℕ := 64

/-- `struct intq`, but for its lock. -/
structure Intq where
  not_full : Option Tid
  not_empty : Option Tid
  buf : ℕ → UInt8
  head : ℕ
  tail : ℕ

/-- `next`. -/
def next (pos : ℕ) : ℕ := (pos + 1) % INTQ_BUFSIZE

/-- `intq_empty`. -/
def Intq.intq_empty (q : Intq) : Prop := q.head = q.tail

/-- `intq_full`. -/
def Intq.intq_full (q : Intq) : Prop := next q.head = q.tail

instance (q : Intq) : Decidable q.intq_empty := inferInstanceAs (Decidable (_ = _))

instance (q : Intq) : Decidable q.intq_full := inferInstanceAs (Decidable (_ = _))

/-- The two members that a `waiter` argument may point to. -/
inductive Waiter
  | not_full
  | not_empty
  deriving DecidableEq

/-- `*waiter`. -/
def Intq.waiter (q : Intq) : Waiter → Option Tid
  | .not_full => q.not_full
  | .not_empty => q.not_empty

/-- `*waiter = t`. -/
def Intq.set_waiter (q : Intq) (t : Option Tid) : Waiter → Intq
  | .not_full => { q with not_full := t }
  | .not_empty => { q with not_empty := t }

/-- The condition that a thread waits for there does not hold. -/
def Intq.Waits (q : Intq) : Waiter → Prop
  | .not_full => q.intq_full
  | .not_empty => q.intq_empty

instance (q : Intq) : (w : Waiter) → Decidable (q.Waits w)
  | .not_full => inferInstanceAs (Decidable q.intq_full)
  | .not_empty => inferInstanceAs (Decidable q.intq_empty)

@[simp] theorem waiter_set_self (q : Intq) (t : Option Tid) (w : Waiter) :
    (q.set_waiter t w).waiter w = t := by
  cases w <;> rfl

theorem waiter_set_of_ne {w v : Waiter} (q : Intq) (t : Option Tid) (h : v ≠ w) :
    (q.set_waiter t w).waiter v = q.waiter v := by
  cases w with
  | not_full =>
    cases v with
    | not_full => exact absurd rfl h
    | not_empty => rfl
  | not_empty =>
    cases v with
    | not_full => rfl
    | not_empty => exact absurd rfl h

/-! ## Calls -/

/-- A call of `intq_getc` or of `intq_putc`. -/
inductive Op
  | getc
  | putc (byte : UInt8)
  deriving DecidableEq

/-- What the call waits for. -/
def Op.awaits : Op → Waiter
  | .getc => .not_empty
  | .putc _ => .not_full

/-- What it signals in the end. -/
def Op.signals : Op → Waiter
  | .getc => .not_full
  | .putc _ => .not_empty

/-- The byte that goes out or in. -/
def Op.move (q : Intq) : Op → Intq
  | .getc => { q with tail := next q.tail }
  | .putc byte => { q with buf := Function.update q.buf q.head byte, head := next q.head }

/-- Where a thread is. -/
inductive Pc
  /-- In no call. -/
  | out
  /-- At the test of the `while` loop. -/
  | test (op : Op)
  /-- In `lock_acquire`. -/
  | acquire (op : Op)
  /-- At the call of `wait`. -/
  | wait (op : Op)
  /-- In `wait`, in `thread_block`. -/
  | waiting (op : Op)
  /-- At `lock_release`. -/
  | release (op : Op)
  /-- Past the loop. -/
  | move (op : Op)
  /-- At the call of `signal`. -/
  | signal (op : Op)
  /-- In `signal`, after `thread_unblock`. -/
  | clear (op : Op)
  deriving DecidableEq

/-- `struct lock`, with its semaphore. -/
structure Lock where
  holder : Option Tid
  value : ℕ
  waiters : List Tid

/-- The queue, its lock, and the threads. -/
structure State where
  q : Intq
  lock : Lock
  pc : Tid → Pc
  blocked : Tid → Bool
  current : Tid

/-- The running thread goes on. -/
def State.goto (s : State) (p : Pc) : State := { s with pc := Function.update s.pc s.current p }

/-- `schedule`, with the thread it chooses. -/
def schedule (s : State) (t : Tid) : Res State := do
  ASSERT (s.blocked t = false)
  return { s with current := t }

/-- `thread_block`. -/
def thread_block (s : State) (t : Tid) : Res State :=
  schedule { s with blocked := Function.update s.blocked s.current true } t

/-- `thread_unblock`. A thread that is on the list of the lock cannot go on the ready list. -/
def thread_unblock (s : State) (w : Tid) (yields : Bool) (t : Tid) : Res State := do
  ASSERT (s.blocked w = true)
  if w ∈ s.lock.waiters then .error .relinked
  else
    let s := { s with blocked := Function.update s.blocked w false }
    if yields then schedule s t else return s

/-- What the scheduler and the lists decide: the thread that a lock wakes, whether
`thread_unblock` yields, and the thread that runs next. -/
structure Choice where
  woken : Tid
  yields : Bool
  next : Tid

/-- `lock_acquire`: one round of the loop of `sema_down`. -/
def lock_acquire (s : State) (op : Op) (c : Choice) : Res State := do
  ASSERT (s.lock.holder ≠ some s.current)
  if s.lock.value = 0 then
    thread_block { s with lock := { s.lock with waiters := s.current :: s.lock.waiters } } c.next
  else
    return { s with
      lock := { s.lock with value := s.lock.value - 1, holder := some s.current } }.goto (.wait op)

/-- `wait`, up to its `thread_block`. -/
def wait (s : State) (op : Op) (c : Choice) : Res State := do
  ASSERT (s.q.Waits op.awaits)
  thread_block ({ s with q := s.q.set_waiter (some s.current) op.awaits }.goto (.waiting op)) c.next

/-- `lock_release`, with `sema_up`. -/
def lock_release (s : State) (op : Op) (c : Choice) : Res State := do
  ASSERT (s.lock.holder = some s.current)
  let s := { s with lock := { s.lock with value := s.lock.value + 1, holder := none } }.goto
    (.test op)
  if s.lock.waiters = [] then return s
  else do
    ASSERT (c.woken ∈ s.lock.waiters)
    thread_unblock { s with lock := { s.lock with waiters := s.lock.waiters.erase c.woken } }
      c.woken c.yields c.next

/-- `signal`, up to its `thread_unblock`. -/
def signal (s : State) (op : Op) (c : Choice) : Res State := do
  ASSERT (¬ s.q.Waits op.signals)
  match s.q.waiter op.signals with
  | none => return s.goto .out
  | some w => thread_unblock (s.goto (.clear op)) w c.yields c.next

/-- The running thread goes as far as control stays with it, at most to the next cut. -/
def run (s : State) (c : Choice) : Res State :=
  match s.pc s.current with
  | .out => .ok s
  | .test op => .ok (s.goto (if s.q.Waits op.awaits then .acquire op else .move op))
  | .acquire op => lock_acquire s op c
  | .wait op => wait s op c
  | .waiting op => .ok (s.goto (.release op))
  | .release op => lock_release s op c
  | .move op => .ok ({ s with q := op.move s.q }.goto (.signal op))
  | .signal op => signal s op c
  | .clear op => .ok ({ s with q := s.q.set_waiter none op.signals }.goto .out)

/-- A thread in no call makes one, or is preempted; a thread in a call goes on. -/
inductive Event
  | call (op : Op)
  | preempt (next : Tid)
  | run (c : Choice)

/-- One step. -/
def exec (s : State) : Event → Res State
  | .call op => do
    ASSERT (s.pc s.current = .out)
    return s.goto (.test op)
  | .preempt next => do
    ASSERT (s.pc s.current = .out)
    schedule s next
  | .run c => run s c

/-- Runs start with a queue from `intq_init` and no thread in a call. -/
def intq_calls : System State Event where
  init s := s.q.not_full = none ∧ s.q.not_empty = none ∧ s.q.head = 0 ∧ s.q.tail = 0 ∧
    s.lock = ⟨none, 1, []⟩ ∧ (∀ t, s.pc t = .out) ∧ ∀ t, s.blocked t = false
  step s e s' := exec s e = .ok s'

/-! ## What holds in every state -/

/-- A thread inside the lock. -/
def Pc.Inside : Pc → Prop
  | .wait _ | .waiting _ | .release _ => True
  | _ => False

/-- The unit of the lock is there and nobody is inside, or it is not and at most one thread
is. -/
def Mutex (value : ℕ) (pc : Tid → Pc) : Prop :=
  (value = 1 ∧ ∀ t, ¬ (pc t).Inside) ∨ (value = 0 ∧ ∃ h, ∀ t, (pc t).Inside → t = h)

/-- Every thread that is blocked in `wait` is stored where it waits. -/
def Stored (q : Intq) (pc : Tid → Pc) (blocked : Tid → Bool) : Prop :=
  ∀ t op, pc t = .waiting op → blocked t = true → q.waiter op.awaits = some t

/-- No waiter is lost. -/
def NoneLost (s : State) : Prop := Stored s.q s.pc s.blocked

/-- `signal` does not empty a place whose thread is blocked in `wait`. -/
def ClearsWoken (s : State) : Event → Prop
  | .run _ => ∀ op, s.pc s.current = .clear op →
      ∀ t op', s.pc t = .waiting op' → s.blocked t = true → op'.awaits ≠ op.signals
  | _ => True

section Steps

variable {value : ℕ} {pc : Tid → Pc} {q : Intq} {blocked : Tid → Bool} {t w : Tid} {p : Pc}

theorem Mutex.goto (h : Mutex value pc) (hp : p.Inside → (pc t).Inside) :
    Mutex value (Function.update pc t p) := by
  have hin : ∀ u, (Function.update pc t p u).Inside → (pc u).Inside := fun u hu => by
    by_cases hut : u = t
    · subst hut
      rw [Function.update_self] at hu
      exact hp hu
    · rwa [Function.update_of_ne hut] at hu
  rcases h with ⟨hv, hout⟩ | ⟨hv, x, hx⟩
  · exact Or.inl ⟨hv, fun u hu => hout u (hin u hu)⟩
  · exact Or.inr ⟨hv, x, fun u hu => hx u (hin u hu)⟩

/-- The thread that takes the unit is alone inside. -/
theorem Mutex.take (h : Mutex value pc) (hv : value ≠ 0) :
    Mutex (value - 1) (Function.update pc t p) := by
  rcases h with ⟨hv1, hout⟩ | ⟨hv0, -⟩
  · refine Or.inr ⟨by omega, t, fun u hu => ?_⟩
    by_contra hut
    rw [Function.update_of_ne hut] at hu
    exact hout u hu
  · exact absurd hv0 hv

/-- The thread that gives it back leaves nobody inside. -/
theorem Mutex.give (h : Mutex value pc) (ht : (pc t).Inside) (hp : ¬ p.Inside) :
    Mutex (value + 1) (Function.update pc t p) := by
  rcases h with ⟨-, hout⟩ | ⟨hv0, x, hx⟩
  · exact absurd ht (hout t)
  · refine Or.inl ⟨by omega, fun u hu => ?_⟩
    by_cases hut : u = t
    · rw [hut, Function.update_self] at hu
      exact hp hu
    · rw [Function.update_of_ne hut] at hu
      exact hut ((hx u hu).trans (hx t ht).symm)

theorem Stored.goto (h : Stored q pc blocked) (hp : ∀ op, p ≠ .waiting op) :
    Stored q (Function.update pc t p) blocked := by
  intro u op hu hb
  by_cases hut : u = t
  · rw [hut, Function.update_self] at hu
    exact absurd hu (hp op)
  · rw [Function.update_of_ne hut] at hu
    exact h u op hu hb

theorem Stored.unblock (h : Stored q pc blocked) :
    Stored q pc (Function.update blocked w false) := by
  intro u op hu hb
  by_cases huw : u = w
  · rw [huw, Function.update_self] at hb
    cases hb
  · rw [Function.update_of_ne huw] at hb
    exact h u op hu hb

theorem Stored.block (h : Stored q pc blocked) (hp : ∀ op, pc t ≠ .waiting op) :
    Stored q pc (Function.update blocked t true) := by
  intro u op hu hb
  by_cases hut : u = t
  · rw [hut] at hu
    exact absurd hu (hp op)
  · rw [Function.update_of_ne hut] at hb
    exact h u op hu hb

/-- A thread alone inside stores itself and blocks. -/
theorem stored_wait {op : Op} (halone : ∀ u, (pc u).Inside → u = t) :
    Stored (q.set_waiter (some t) op.awaits) (Function.update pc t (.waiting op))
      (Function.update blocked t true) := by
  intro u op' hu hb
  by_cases hut : u = t
  · rw [hut, Function.update_self] at hu
    obtain rfl := Pc.waiting.inj hu
    rw [waiter_set_self, hut]
  · -- nobody else waits, for either condition
    rw [Function.update_of_ne hut] at hu
    exact absurd (halone u (by rw [hu]; trivial)) hut

variable {s s' : State}

theorem schedule_eq_ok (h : schedule s t = .ok s') : s' = { s with current := t } := by
  obtain ⟨-, -, h⟩ := bind_eq_ok h
  exact (Except.ok.inj h).symm

theorem thread_block_eq_ok (h : thread_block s t = .ok s') :
    s' = { s with blocked := Function.update s.blocked s.current true, current := t } :=
  schedule_eq_ok h

theorem thread_unblock_eq_ok {yields : Bool} (h : thread_unblock s w yields t = .ok s') :
    s.blocked w = true ∧
      ∃ x, s' = { s with blocked := Function.update s.blocked w false, current := x } := by
  obtain ⟨_, hb, h⟩ := bind_eq_ok h
  refine ⟨ASSERT_eq_ok hb, ?_⟩
  by_cases hw : w ∈ s.lock.waiters
  · rw [if_pos hw] at h
    cases h
  rw [if_neg hw] at h
  cases yields with
  | true => exact ⟨t, schedule_eq_ok h⟩
  | false => exact ⟨s.current, (Except.ok.inj h).symm⟩

/-- What a run keeps: the lock excludes, and no waiter is lost. -/
structure Inv (s : State) : Prop where
  mutex : Mutex s.lock.value s.pc
  stored : NoneLost s

/-- A step keeps the mutual exclusion, whatever becomes of the waiters; and it loses one only
where `signal` empties a place. -/
theorem Inv.step {e : Event} (h : Inv s) (hs : exec s e = .ok s') :
    Mutex s'.lock.value s'.pc ∧ (ClearsWoken s e → NoneLost s') := by
  cases e with
  | call op =>
    obtain ⟨-, -, hs⟩ := bind_eq_ok hs
    obtain rfl := Except.ok.inj hs
    exact ⟨h.mutex.goto fun hin => hin.elim, fun _ => h.stored.goto fun _ => nofun⟩
  | preempt next =>
    obtain ⟨-, -, hs⟩ := bind_eq_ok hs
    rw [schedule_eq_ok hs]
    exact ⟨h.mutex, fun _ => h.stored⟩
  | run c =>
    change run s c = .ok s' at hs
    unfold run at hs
    cases hpc : s.pc s.current with
    | out =>
      rw [hpc] at hs
      rw [← Except.ok.inj hs]
      exact ⟨h.mutex, fun _ => h.stored⟩
    | test op =>
      rw [hpc] at hs
      rw [← Except.ok.inj hs]
      by_cases hw : s.q.Waits op.awaits
      · rw [if_pos hw]
        exact ⟨h.mutex.goto fun hin => hin.elim, fun _ => h.stored.goto fun _ => nofun⟩
      · rw [if_neg hw]
        exact ⟨h.mutex.goto fun hin => hin.elim, fun _ => h.stored.goto fun _ => nofun⟩
    | acquire op =>
      rw [hpc] at hs
      obtain ⟨-, -, hs⟩ := bind_eq_ok hs
      by_cases hv : s.lock.value = 0
      · rw [if_pos hv] at hs
        rw [thread_block_eq_ok hs]
        exact ⟨h.mutex, fun _ => h.stored.block fun op' => by rw [hpc]; exact nofun⟩
      · rw [if_neg hv] at hs
        rw [← Except.ok.inj hs]
        exact ⟨h.mutex.take hv, fun _ => h.stored.goto fun _ => nofun⟩
    | wait op =>
      rw [hpc] at hs
      obtain ⟨-, -, hs⟩ := bind_eq_ok hs
      rw [thread_block_eq_ok hs]
      have hin : (s.pc s.current).Inside := by
        rw [hpc]
        trivial
      refine ⟨h.mutex.goto fun _ => hin, fun _ => stored_wait fun u hu => ?_⟩
      rcases h.mutex with ⟨-, hout⟩ | ⟨-, x, hx⟩
      · exact absurd hin (hout s.current)
      · exact (hx u hu).trans (hx s.current hin).symm
    | waiting op =>
      rw [hpc] at hs
      rw [← Except.ok.inj hs]
      have hin : (s.pc s.current).Inside := by
        rw [hpc]
        trivial
      exact ⟨h.mutex.goto fun _ => hin, fun _ => h.stored.goto fun _ => nofun⟩
    | release op =>
      rw [hpc] at hs
      have hin : (s.pc s.current).Inside := by
        rw [hpc]
        trivial
      have hmutex : Mutex (s.lock.value + 1) (Function.update s.pc s.current (.test op)) :=
        h.mutex.give hin fun hp => hp
      have hstored : Stored s.q (Function.update s.pc s.current (.test op)) s.blocked :=
        h.stored.goto fun _ => nofun
      obtain ⟨-, -, hs⟩ := bind_eq_ok hs
      dsimp only at hs
      by_cases hnil : s.lock.waiters = []
      · have hgo := (if_pos hnil).symm.trans hs
        rw [← Except.ok.inj hgo]
        exact ⟨hmutex, fun _ => hstored⟩
      · have hgo := (if_neg hnil).symm.trans hs
        obtain ⟨-, -, hgo⟩ := bind_eq_ok hgo
        obtain ⟨-, x, rfl⟩ := thread_unblock_eq_ok hgo
        exact ⟨hmutex, fun _ => hstored.unblock⟩
    | move op =>
      rw [hpc] at hs
      rw [← Except.ok.inj hs]
      refine ⟨h.mutex.goto fun hin => hin.elim, fun _ => ?_⟩
      -- the places are not touched
      have hsame : ∀ w, (op.move s.q).waiter w = s.q.waiter w := fun w => by
        cases op <;> cases w <;> rfl
      have hstored : Stored s.q (Function.update s.pc s.current (.signal op)) s.blocked :=
        h.stored.goto fun _ => nofun
      intro u op' hu hb
      exact (hsame _).trans (hstored u op' hu hb)
    | signal op =>
      rw [hpc] at hs
      obtain ⟨-, -, hs⟩ := bind_eq_ok hs
      cases hw : s.q.waiter op.signals with
      | none =>
        rw [hw] at hs
        rw [← Except.ok.inj hs]
        exact ⟨h.mutex.goto fun hin => hin.elim, fun _ => h.stored.goto fun _ => nofun⟩
      | some w =>
        rw [hw] at hs
        obtain ⟨-, x, rfl⟩ := thread_unblock_eq_ok hs
        have hstored : Stored s.q (Function.update s.pc s.current (.clear op)) s.blocked :=
          h.stored.goto fun _ => nofun
        exact ⟨h.mutex.goto fun hin => hin.elim, fun _ => hstored.unblock⟩
    | clear op =>
      rw [hpc] at hs
      rw [← Except.ok.inj hs]
      refine ⟨h.mutex.goto fun hin => hin.elim, fun hclear u op' hu hb => ?_⟩
      have hne : u ≠ s.current := by
        rintro rfl
        change Function.update s.pc s.current .out s.current = _ at hu
        rw [Function.update_self] at hu
        cases hu
      have hu' : s.pc u = .waiting op' := (Function.update_of_ne hne _ _).symm.trans hu
      change (s.q.set_waiter none op.signals).waiter op'.awaits = some u
      rw [waiter_set_of_ne _ _ (hclear op hpc u op' hu' hb)]
      exact h.stored u op' hu' hb

/-- Where `signal` empties the place of a blocked thread, that thread is lost. -/
theorem lost_of_clear {e : Event} (hs : exec s e = .ok s') (hlost : ¬ ClearsWoken s e) :
    ¬ NoneLost s' := by
  cases e with
  | call op => exact absurd trivial hlost
  | preempt next => exact absurd trivial hlost
  | run c =>
    unfold ClearsWoken at hlost
    push Not at hlost
    obtain ⟨op, hpc, u, op', hu, hb, heq⟩ := hlost
    change run s c = .ok s' at hs
    unfold run at hs
    rw [hpc] at hs
    obtain rfl := Except.ok.inj hs
    intro hstored
    have hne : u ≠ s.current := by
      rintro rfl
      rw [hpc] at hu
      cases hu
    have hkept := hstored u op' ((Function.update_of_ne hne _ _).trans hu) hb
    change (s.q.set_waiter none op.signals).waiter op'.awaits = some u at hkept
    rw [heq, waiter_set_self] at hkept
    cases hkept

end Steps

/-- **No waiter is lost** in the runs in which `signal` empties no place whose thread is blocked
in `wait` again, and every step that empties one loses that thread. -/
theorem waiter_stored {s : State} (hr : Reachable intq_calls ClearsWoken s) :
    NoneLost s ∧ ∀ e s', exec s e = .ok s' → (NoneLost s' ↔ ClearsWoken s e) := by
  have hinv : Inv s := by
    refine hr.invariant ?_ fun s e s' h hok hs => ⟨(h.step hs).1, (h.step hs).2 hok⟩
    rintro s ⟨-, -, -, -, hlock, hpc, -⟩
    refine ⟨Or.inl ⟨by rw [hlock], fun t hin => ?_⟩, fun t op ht => ?_⟩
    · rw [hpc t] at hin
      exact hin
    · rw [hpc t] at ht
      cases ht
  refine ⟨hinv.stored, fun e s' hs => ⟨fun hkept => ?_, (hinv.step hs).2⟩⟩
  by_contra hlost
  exact lost_of_clear hs hlost hkept

/-- An empty queue and no calls, thread 1 running. -/
def idle_queue : State where
  q := ⟨none, none, fun _ => 0, 0, 0⟩
  lock := ⟨none, 1, []⟩
  pc := fun _ => .out
  blocked := fun _ => false
  current := 1

theorem idle_queue_init : intq_calls.init idle_queue :=
  ⟨rfl, rfl, rfl, rfl, rfl, fun _ => rfl, fun _ => rfl⟩

/-- A choice without a yield, and the thread to go on with when the running one blocks. -/
def on (t : Tid) : Choice := ⟨0, false, t⟩

/-- A reader of the empty queue is stored in `not_empty`. -/
theorem reader_stored : ∃ s, Reachable intq_calls ClearsWoken s ∧ s.pc 1 = .waiting .getc ∧
    s.blocked 1 = true ∧ s.q.not_empty = some 1 := by
  have hstep : ∀ s e s', Reachable intq_calls ClearsWoken s → ClearsWoken s e →
      exec s e = .ok s' → Reachable intq_calls ClearsWoken s' := fun s e s' hr hok hs =>
    hr.step hok hs
  have h₁ := hstep _ (.call .getc) _ (.init idle_queue_init) trivial rfl
  have h₂ := hstep _ (.run (on 0)) _ h₁ (fun op h => by cases h) rfl
  have h₃ := hstep _ (.run (on 0)) _ h₂ (fun op h => by cases h) rfl
  have h₄ := hstep _ (.run (on 0)) _ h₃ (fun op h => by cases h) rfl
  exact ⟨_, h₄, rfl, rfl, (waiter_stored h₄).1 1 .getc rfl rfl⟩

/-- The reader, thread 1, sleeps; thread 0 writes a byte and yields to it in `signal`; it takes
the byte, finds the queue empty and sleeps again; thread 0 goes on and empties its place. -/
def reader_twice : List Event :=
  [.call .getc, .run (on 0), .run (on 0), .run (on 0),
    .call (.putc 65), .run (on 0), .run (on 0), .run ⟨0, true, 1⟩,
    .run (on 0), .run (on 0), .run (on 0), .run (on 0), .run (on 0),
    .call .getc, .run (on 0), .run (on 0), .run (on 0), .run (on 0)]

/-- **A waiter is lost**: it sleeps in `wait`, and `not_empty` is `NULL`. -/
theorem waiter_lost : ¬ ∀ s, Reachable intq_calls (fun _ _ => True) s → NoneLost s := by
  intro hall
  obtain ⟨s, hr, hs⟩ := @follow_reachable _ _ _ intq_calls exec (fun _ _ _ h => h) (fun _ _ => true)
    (fun s => decide (s.pc 1 = .waiting .getc) && s.blocked 1 && s.q.not_empty.isNone)
    reader_twice idle_queue (.init idle_queue_init) (by decide +kernel)
  simp only [Bool.and_eq_true, decide_eq_true_eq, Option.isNone_iff_eq_none] at hs
  obtain ⟨⟨hpc, hb⟩, hnone⟩ := hs
  have hstored := hall s (hr.weaken fun _ _ _ => trivial) 1 .getc hpc hb
  change s.q.not_empty = some 1 at hstored
  rw [hnone] at hstored
  cases hstored

end Pintos.Devices
