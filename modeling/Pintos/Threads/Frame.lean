/-
What a statement leaves as it is: the part of the state it does not write, and the
fields of the threads it does not write.
-/
import Pintos.Threads.Effect

set_option autoImplicit false

namespace Pintos.Threads.Machine

variable {s s' : Kernel} {t : Tid}

/-! ## Which statement writes what -/

/-- The semaphore a statement writes. -/
def Stmt.sema : Stmt → Option SemaId
  | .sema_down i | .sema_retest i | .sema_try_down i | .sema_up i => some i
  | .lock_try_down m => some (.lock m)
  | .cond_wake _ w => some (.waiter w)
  | _ => none

/-- The lock whose `holder` a statement writes. -/
def Stmt.lock : Stmt → Option LockId
  | .lock_hold m | .lock_release m => some m
  | _ => none

/-- The condition variable a statement writes. -/
def Stmt.cond : Stmt → Option CondId
  | .cond_enter c _ | .cond_return c _ | .cond_signal c | .cond_wake c _ | .cond_broadcast c
  | .broadcast_loop c => some c
  | _ => none

/-- `head` and `tail` are positions of `buf`. -/
def IntQueue.InRange (q : IntQueue) : Prop := q.head < INTQ_BUFSIZE ∧ q.tail < INTQ_BUFSIZE

theorem next_lt (pos : ℕ) : next pos < INTQ_BUFSIZE := Nat.mod_lt _ (by decide)

/-- What an effect leaves as it is. -/
structure Frame (s : Kernel) (c : Stmt) (r : Kernel) : Prop where
  ready_list : r.ready_list = s.ready_list
  current : r.current = s.current
  idle_thread : r.idle_thread = s.idle_thread
  in_external_intr : r.in_external_intr = s.in_external_intr
  thread_mlfqs : r.thread_mlfqs = s.thread_mlfqs
  sema : ∀ i, c.sema ≠ some i → r.sema i = s.sema i
  holder : ∀ m, c.lock ≠ some m → r.holder m = s.holder m
  cond : ∀ d, c.cond ≠ some d → r.cond d = s.cond d
  next_waiter : (∀ d p, c ≠ .cond_enter d p) → r.next_waiter = s.next_waiter
  waiting_list : (∀ n, c ≠ .sleep_until n) → r.waiting_list = s.waiting_list
  ticks : c ≠ .timer_interrupt → r.ticks = s.ticks
  slot : ∀ q w t, (r.intq q).waiter w = some t →
    (s.intq q).waiter w = some t ∨ (c = .intq_wait q w ∧ t = s.current)
  range : (∀ q, (s.intq q).InRange) → ∀ q, (r.intq q).InRange

namespace Frame

variable {c : Stmt} {r : Kernel}

theorem refl (s : Kernel) (c : Stmt) : Frame s c s :=
  ⟨rfl, rfl, rfl, rfl, rfl, fun _ _ => rfl, fun _ _ => rfl, fun _ _ => rfl, fun _ => rfl,
    fun _ => rfl, fun _ => rfl, fun _ _ _ h => Or.inl h, id⟩

theorem rewrites {r' : Kernel} (h : Frame s c r) (hr : Rewrites r r') : Frame s c r' := by
  obtain ⟨thread, load_avg, rfl⟩ := hr
  exact ⟨h.ready_list, h.current, h.idle_thread, h.in_external_intr, h.thread_mlfqs, h.sema,
    h.holder, h.cond, h.next_waiter, h.waiting_list, h.ticks, h.slot,
    h.range⟩

theorem set_thread (h : Frame s c r) (t : Tid) (f : Thread → Thread) :
    Frame s c (r.set_thread t f) := h.rewrites (Rewrites.set_thread r t f)

theorem push (h : Frame s c r) (l : List Stmt) : Frame s c (r.push l) := by
  unfold Kernel.push
  split_ifs
  · exact ⟨h.ready_list, h.current, h.idle_thread, h.in_external_intr, h.thread_mlfqs, h.sema,
      h.holder, h.cond, h.next_waiter, h.waiting_list, h.ticks, h.slot,
    h.range⟩
  · exact h.set_thread _ _

theorem set_sema (h : Frame s c r) {i : SemaId} (hi : c.sema = some i)
    (f : Semaphore → Semaphore) : Frame s c (r.set_sema i f) := by
  refine ⟨h.ready_list, h.current, h.idle_thread, h.in_external_intr, h.thread_mlfqs,
    fun j hj => ?_, h.holder, h.cond, h.next_waiter, h.waiting_list, h.ticks, h.slot,
    h.range⟩
  have hne : j ≠ i := fun heq => hj (hi.trans (congrArg some heq.symm))
  rw [set_sema_apply, if_neg hne]
  exact h.sema j hj

theorem set_cond (h : Frame s c r) {d : CondId} (hd : c.cond = some d)
    (f : Condition → Condition) : Frame s c (r.set_cond d f) := by
  refine ⟨h.ready_list, h.current, h.idle_thread, h.in_external_intr, h.thread_mlfqs, h.sema,
    h.holder, fun e he => ?_, h.next_waiter, h.waiting_list, h.ticks, h.slot,
    h.range⟩
  have hne : e ≠ d := fun heq => he (hd.trans (congrArg some heq.symm))
  rw [set_cond_apply, if_neg hne]
  exact h.cond e he

theorem set_intq (h : Frame s c r) (q : QueueId) {f : IntQueue → IntQueue}
    (hf : ∀ x w t, (f x).waiter w = some t →
      x.waiter w = some t ∨ (c = .intq_wait q w ∧ t = s.current))
    (hrange : ∀ x, x.InRange → (f x).InRange) : Frame s c (r.set_intq q f) := by
  have hp : ∀ p, (r.set_intq q f).intq p = if p = q then f (r.intq q) else r.intq p :=
    fun p => Function.update_apply _ _ _ _
  refine ⟨h.ready_list, h.current, h.idle_thread, h.in_external_intr, h.thread_mlfqs, h.sema,
    h.holder, h.cond, h.next_waiter, h.waiting_list, h.ticks, fun p w t ht => ?_,
    fun hs p => ?_⟩
  · rw [hp] at ht
    split_ifs at ht with hpq
    · rcases hf _ w t ht with hold | hnew
      · rw [hpq]
        exact h.slot q w t hold
      · rw [hpq]
        exact Or.inr hnew
    · exact h.slot p w t ht
  · rw [hp]
    split_ifs
    · exact hrange _ (h.range hs q)
    · exact h.range hs p

theorem set_holder (h : Frame s c r) {m : LockId} (hm : c.lock = some m) (t : Option Tid) :
    Frame s c { r with holder := Function.update r.holder m t } := by
  refine ⟨h.ready_list, h.current, h.idle_thread, h.in_external_intr, h.thread_mlfqs, h.sema,
    fun n hn => ?_, h.cond, h.next_waiter, h.waiting_list, h.ticks, h.slot,
    h.range⟩
  have hne : n ≠ m := fun heq => hn (hm.trans (congrArg some heq.symm))
  exact (Function.update_of_ne hne _ _).trans (h.holder n hn)

end Frame

theorem sema_down_effect_frame (s : Kernel) {c : Stmt} {i : SemaId} (hi : c.sema = some i)
    (f : List Tid → List Tid) : Frame s c (sema_down_effect s i f) := by
  unfold sema_down_effect
  split_ifs
  · exact ((Frame.refl s c).push _).set_sema hi _
  · exact (Frame.refl s c).set_sema hi _

/-- **What a statement leaves alone.** -/
theorem effect_frame (s : Kernel) (c : Stmt) : Frame s c (effect s c) := by
  have hrefl := Frame.refl s c
  cases c with
  | sema_down i => exact sema_down_effect_frame s rfl _
  | sema_retest i =>
    dsimp only [effect]
    exact sema_down_effect_frame s rfl _
  | sema_try_down i =>
    dsimp only [effect, sema_try_down]
    split_ifs
    · exact hrefl.set_sema rfl _
    · exact hrefl
  | sema_up i =>
    dsimp only [effect, sema_up_effect]
    exact hrefl.set_sema rfl _
  | lock_acquire m =>
    dsimp only [effect]
    exact hrefl.push _
  | donation_test m =>
    dsimp only [effect, donation_test]
    split_ifs
    · exact hrefl.push _
    · exact hrefl
  | donation_compare m =>
    dsimp only [effect]
    cases s.holder m with
    | none => exact hrefl
    | some h =>
      dsimp only
      split_ifs
      · exact hrefl.push _
      · exact hrefl
  | donation_call m =>
    dsimp only [effect]
    cases s.holder m with
    | none => exact hrefl
    | some low => exact hrefl.push _
  | donation_member low m => exact hrefl.push _
  | donation_insert low e =>
    dsimp only [effect, donation_insert]
    exact hrefl.set_thread _ _
  | donation_link m =>
    dsimp only [effect, donation_link]
    exact hrefl.set_thread _ _
  | donation_write low m =>
    dsimp only [effect, write_priority]
    exact hrefl.set_thread _ _
  | nested_donation high medium =>
    dsimp only [effect, nested_donation]
    split_ifs
    · exact hrefl
    · exact hrefl.push _
  | nested_low high medium =>
    dsimp only [effect]
    cases (s.thread medium).holded_by.bind s.holder with
    | none => exact hrefl
    | some low => exact hrefl.push _
  | nested_write high low =>
    dsimp only [effect, write_priority]
    exact hrefl.set_thread _ _
  | lock_hold m =>
    dsimp only [effect]
    exact hrefl.set_holder rfl _
  | lock_try_acquire m =>
    dsimp only [effect]
    exact hrefl.push _
  | lock_try_down m =>
    dsimp only [effect, lock_try_down, sema_try_down]
    split_ifs
    · exact (hrefl.set_sema rfl _).push _
    · exact hrefl
  | lock_release m =>
    dsimp only [effect]
    exact (hrefl.set_holder rfl none).push _
  | release_test m =>
    dsimp only [effect, release_test]
    split_ifs
    · exact hrefl.push _
    · exact hrefl
  | priority_rollback m =>
    dsimp only [effect, priority_rollback]
    split_ifs
    · exact hrefl
    · exact hrefl.push _
  | rollback_loop m =>
    dsimp only [effect, rollback_loop]
    exact (hrefl.rewrites (unlink_rewrites _ s)).set_thread _ _
  | rollback_test =>
    dsimp only [effect, rollback_test]
    split_ifs <;> exact hrefl.push _
  | rollback_original =>
    dsimp only [effect, rollback_original]
    exact hrefl.set_thread _ _
  | rollback_back =>
    dsimp only [effect]
    cases s.cur.possessing_locks.getLast? with
    | none => exact hrefl
    | some e => exact hrefl.set_thread _ _
  | thread_set_priority n =>
    dsimp only [effect, thread_set_priority]
    split_ifs
    · exact hrefl
    all_goals exact hrefl.push _
  | set_priority n =>
    dsimp only [effect, set_priority]
    exact hrefl.set_thread _ _
  | set_original n =>
    dsimp only [effect, set_original]
    exact hrefl.set_thread _ _
  | thread_set_nice n =>
    dsimp only [effect]
    exact hrefl.set_thread _ _
  | thread_create t p =>
    refine Frame.push ?_ _
    exact ⟨rfl, rfl, rfl, rfl, rfl, hrefl.sema, hrefl.holder, hrefl.cond, hrefl.next_waiter,
      hrefl.waiting_list, hrefl.ticks, hrefl.slot, hrefl.range⟩
  | thread_exit =>
    refine Frame.push ?_ _
    exact ⟨rfl, rfl, rfl, rfl, rfl, hrefl.sema, hrefl.holder, hrefl.cond, hrefl.next_waiter,
      hrefl.waiting_list, hrefl.ticks, hrefl.slot, hrefl.range⟩
  | timer_sleep n =>
    dsimp only [effect]
    split_ifs
    · exact hrefl
    · exact hrefl.push _
  | sleep_until n =>
    refine ⟨rfl, rfl, rfl, rfl, rfl, hrefl.sema, hrefl.holder, hrefl.cond, hrefl.next_waiter,
      fun h => ?_, hrefl.ticks, hrefl.slot, hrefl.range⟩
    exact absurd rfl (h n)
  | intr_disable =>
    dsimp only [effect]
    exact hrefl.set_thread _ _
  | intr_enable =>
    dsimp only [effect]
    exact hrefl.set_thread _ _
  | cond_wait d =>
    dsimp only [effect]
    exact hrefl.push _
  | cond_enter d p =>
    dsimp only [effect, cond_enter]
    have hset := hrefl.set_cond (d := d) rfl (fun x => { x with
      waiters := list_insert_ordered less_waiter_priority x.waiters ⟨s.next_waiter, p⟩
      log := .enter s.next_waiter :: x.log })
    refine Frame.push ?_ _
    exact ⟨rfl, rfl, rfl, rfl, rfl, hrefl.sema, hrefl.holder, hset.cond,
      fun h => absurd rfl (h d p), hrefl.waiting_list, hrefl.ticks, hrefl.slot, hrefl.range⟩
  | cond_return d w =>
    dsimp only [effect]
    exact hrefl.set_cond rfl _
  | cond_signal d =>
    dsimp only [effect]
    cases (s.cond d).waiters.getLast? with
    | none => exact hrefl
    | some w => exact (hrefl.set_cond rfl _).push _
  | cond_wake d w =>
    dsimp only [effect, sema_up_effect]
    exact (hrefl.set_cond rfl _).set_sema rfl _
  | cond_broadcast d =>
    dsimp only [effect, cond_broadcast]
    exact (hrefl.set_cond rfl _).push _
  | broadcast_loop d =>
    dsimp only [effect, broadcast_loop]
    split_ifs
    · exact hrefl.set_cond rfl _
    · exact hrefl.push _
  | intq_getc q =>
    dsimp only [effect]
    split_ifs
    · exact hrefl.push _
    · refine (hrefl.set_intq _ ?_ ?_).push _
      · rintro x w t ht
        cases w <;> exact Or.inl ht
      · exact fun x hx => ⟨hx.1, next_lt _⟩
  | intq_putc q byte =>
    dsimp only [effect]
    split_ifs
    · exact hrefl.push _
    · refine (hrefl.set_intq _ ?_ ?_).push _
      · rintro x w t ht
        cases w <;> exact Or.inl ht
      · exact fun x hx => ⟨next_lt _, hx.2⟩
  | intq_wait q w =>
    dsimp only [effect]
    refine hrefl.set_intq _ (fun x v t ht => ?_) (fun x hx => by cases w <;> exact hx)
    cases w <;> cases v
    -- the slot that is written, and the other one
    · exact Or.inr ⟨rfl, (Option.some.inj ht).symm⟩
    · exact Or.inl ht
    · exact Or.inl ht
    · exact Or.inr ⟨rfl, (Option.some.inj ht).symm⟩
  | intq_signal q w =>
    dsimp only [effect]
    cases (s.intq q).waiter w with
    | none => exact hrefl
    | some t => exact hrefl.push _
  | intq_clear q w =>
    dsimp only [effect]
    refine hrefl.set_intq _ (fun x v t ht => Or.inl ?_) (fun x hx => by cases w <;> exact hx)
    cases w <;> cases v
    · cases ht
    · exact ht
    · exact ht
    · cases ht
  | timer_interrupt =>
    dsimp only [effect, timer_interrupt]
    split_ifs
    all_goals
      refine Frame.push ?_ _
      exact ⟨rfl, rfl, rfl, rfl, rfl, hrefl.sema, hrefl.holder, hrefl.cond, hrefl.next_waiter,
        hrefl.waiting_list, fun h => absurd rfl h, hrefl.slot, hrefl.range⟩
  | mlfqs_tick_change =>
    dsimp only [effect]
    exact hrefl.rewrites (mlfqs_tick_change_rewrites s)
  | _ => exact hrefl

/-! ## The fields of a thread -/

/-- The fields of a thread that the machine writes outside the scheduler. -/
inductive Field
  | priority
  | original_priority
  | possessing_locks
  | holded_by
  | waking_time
  | intr
  deriving DecidableEq

/-- The fields a statement writes, in threads that exist. -/
def Stmt.writes : Stmt → List Field
  | .donation_insert _ _ => [.possessing_locks]
  | .donation_link _ => [.holded_by]
  | .rollback_loop _ => [.possessing_locks, .holded_by]
  | .donation_write _ _ | .nested_write _ _ | .rollback_original | .rollback_back | .set_priority _
  | .thread_set_nice _ | .mlfqs_tick_change => [.priority]
  | .set_original _ => [.original_priority]
  | .sleep_until _ => [.waking_time]
  | .thread_exit | .intr_disable | .intr_enable => [.intr]
  | _ => []

/-- A thread before and after a statement. -/
structure ThreadFrame (c : Stmt) (a b : Thread) : Prop where
  status : b.status = a.status
  elem : b.elem = a.elem
  priority : .priority ∉ c.writes → b.priority = a.priority
  original_priority : .original_priority ∉ c.writes → b.original_priority = a.original_priority
  possessing_locks : .possessing_locks ∉ c.writes → b.possessing_locks = a.possessing_locks
  holded_by : .holded_by ∉ c.writes → b.holded_by = a.holded_by
  waking_time : .waking_time ∉ c.writes → b.waking_time = a.waking_time
  intr : .intr ∉ c.writes → b.intr = a.intr

namespace ThreadFrame

variable {c : Stmt} {r : Kernel} {f : Thread → Thread}

theorem refl (c : Stmt) (a : Thread) : ThreadFrame c a a := by
  constructor <;> intros <;> rfl

theorem set_thread (h : ∀ t, ThreadFrame c (s.thread t) (r.thread t)) (t : Tid)
    (hf : ∀ a b, ThreadFrame c a b → ThreadFrame c a (f b)) (u : Tid) :
    ThreadFrame c (s.thread u) ((r.set_thread t f).thread u) := by
  rw [set_thread_apply]
  split_ifs with hu
  · rw [hu]
    exact hf _ _ (h t)
  · exact h u

theorem push (h : ∀ t, ThreadFrame c (s.thread t) (r.thread t)) (l : List Stmt) (u : Tid) :
    ThreadFrame c (s.thread u) ((r.push l).thread u) := by
  obtain ⟨code, heq⟩ := push_thread r u l
  rw [heq]
  have hu := h u
  exact ⟨hu.status, hu.elem, hu.priority, hu.original_priority, hu.possessing_locks,
    hu.holded_by, hu.waking_time, hu.intr⟩

theorem set_priority (hc : .priority ∈ c.writes) (x : ℤ) (a b : Thread) (h : ThreadFrame c a b) :
    ThreadFrame c a { b with priority := x } :=
  ⟨h.status, h.elem, fun hn => absurd hc hn, h.original_priority, h.possessing_locks, h.holded_by,
    h.waking_time, h.intr⟩

theorem set_possessing_locks (hc : .possessing_locks ∈ c.writes) (l : List LockElem)
    (a b : Thread) (h : ThreadFrame c a b) : ThreadFrame c a { b with possessing_locks := l } :=
  ⟨h.status, h.elem, h.priority, h.original_priority, fun hn => absurd hc hn, h.holded_by,
    h.waking_time, h.intr⟩

theorem set_holded_by (hc : .holded_by ∈ c.writes) (m : Option LockId) (a b : Thread)
    (h : ThreadFrame c a b) : ThreadFrame c a { b with holded_by := m } :=
  ⟨h.status, h.elem, h.priority, h.original_priority, h.possessing_locks, fun hn => absurd hc hn,
    h.waking_time, h.intr⟩

theorem set_intr (hc : .intr ∈ c.writes) (x : Bool) (a b : Thread) (h : ThreadFrame c a b) :
    ThreadFrame c a { b with intr := x } :=
  ⟨h.status, h.elem, h.priority, h.original_priority, h.possessing_locks, h.holded_by,
    h.waking_time, fun hn => absurd hc hn⟩

theorem unlink (hc : .holded_by ∈ c.writes) (l : List LockElem)
    (h : ∀ t, ThreadFrame c (s.thread t) (r.thread t)) (u : Tid) :
    ThreadFrame c (s.thread u) ((unlink l r).thread u) := by
  induction l generalizing r with
  | nil => exact h u
  | cons e l ih =>
    unfold Machine.unlink
    exact ih (set_thread h _ (set_holded_by hc none))

theorem mlfqs_tick_change (s : Kernel) (t : Tid) :
    ThreadFrame .mlfqs_tick_change (s.thread t) ((mlfqs_tick_change s).thread t) := by
  have hkeeps := fun {α : Type} (g : Thread → α)
    (hcpu : ∀ th x, g { th with recent_cpu := x } = g th)
    (hpriority : ∀ th x, g { th with priority := x } = g th) =>
      mlfqs_tick_change_keeps g s hcpu hpriority t
  constructor
  case priority => exact fun hn => absurd (List.mem_singleton_self _) hn
  all_goals
    intros
    apply hkeeps <;> intros <;> rfl

end ThreadFrame

/-- **What a statement leaves alone in a thread.** -/
theorem effect_thread (s : Kernel) {c : Stmt} (hc : ∀ t p, c ≠ .thread_create t p) (t : Tid) :
    ThreadFrame c (s.thread t) ((effect s c).thread t) := by
  have hrefl : ∀ t, ThreadFrame c (s.thread t) (s.thread t) := fun t => ThreadFrame.refl c _
  have hpush := ThreadFrame.push hrefl
  cases c with
  | sema_down i =>
    dsimp only [effect, sema_down_effect]
    split_ifs
    · exact hpush _ t
    · exact hrefl t
  | sema_retest i =>
    dsimp only [effect, sema_down_effect]
    split_ifs
    · exact hpush _ t
    · exact hrefl t
  | sema_try_down i =>
    dsimp only [effect, sema_try_down]
    split_ifs <;> exact hrefl t
  | lock_acquire m => exact hpush _ t
  | donation_test m =>
    dsimp only [effect, donation_test]
    split_ifs
    · exact hpush _ t
    · exact hrefl t
  | donation_compare m =>
    dsimp only [effect]
    cases s.holder m with
    | none => exact hrefl t
    | some h =>
      dsimp only
      split_ifs
      · exact hpush _ t
      · exact hrefl t
  | donation_call m =>
    dsimp only [effect]
    cases s.holder m with
    | none => exact hrefl t
    | some low => exact hpush _ t
  | donation_member low m => exact hpush _ t
  | donation_insert low e =>
    dsimp only [effect, donation_insert]
    refine ThreadFrame.set_thread hrefl _ (fun a b h => ?_) t
    exact ThreadFrame.set_possessing_locks (by simp [Stmt.writes]) _ a b h
  | donation_link m =>
    dsimp only [effect, donation_link]
    exact ThreadFrame.set_thread hrefl _ (ThreadFrame.set_holded_by (by simp [Stmt.writes]) _) t
  | donation_write low m =>
    dsimp only [effect, write_priority]
    exact ThreadFrame.set_thread hrefl _ (ThreadFrame.set_priority (by simp [Stmt.writes]) _) t
  | nested_donation high medium =>
    dsimp only [effect, nested_donation]
    split_ifs
    · exact hrefl t
    · exact hpush _ t
  | nested_low high medium =>
    dsimp only [effect]
    cases (s.thread medium).holded_by.bind s.holder with
    | none => exact hrefl t
    | some low => exact hpush _ t
  | nested_write high low =>
    dsimp only [effect, write_priority]
    exact ThreadFrame.set_thread hrefl _ (ThreadFrame.set_priority (by simp [Stmt.writes]) _) t
  | lock_try_acquire m => exact hpush _ t
  | lock_try_down m =>
    dsimp only [effect, lock_try_down, sema_try_down]
    split_ifs
    · exact ThreadFrame.push (r := s.set_sema _ _) hrefl _ t
    · exact hrefl t
  | lock_release m =>
    exact ThreadFrame.push (r := { s with holder := Function.update s.holder m none }) hrefl _ t
  | release_test m =>
    dsimp only [effect, release_test]
    split_ifs
    · exact hpush _ t
    · exact hrefl t
  | priority_rollback m =>
    dsimp only [effect, priority_rollback]
    split_ifs
    · exact hrefl t
    · exact hpush _ t
  | rollback_loop m =>
    dsimp only [effect, rollback_loop]
    refine ThreadFrame.set_thread (ThreadFrame.unlink (by simp [Stmt.writes]) _ hrefl) _
      (fun a b h => ?_) t
    exact ThreadFrame.set_possessing_locks (by simp [Stmt.writes]) _ a b h
  | rollback_test =>
    dsimp only [effect, rollback_test]
    split_ifs <;> exact hpush _ t
  | rollback_original =>
    dsimp only [effect, rollback_original]
    exact ThreadFrame.set_thread hrefl _
      (fun a b h => ThreadFrame.set_priority (by simp [Stmt.writes]) _ a b h) t
  | rollback_back =>
    dsimp only [effect]
    cases s.cur.possessing_locks.getLast? with
    | none => exact hrefl t
    | some e =>
      exact ThreadFrame.set_thread hrefl _ (ThreadFrame.set_priority (by simp [Stmt.writes]) _) t
  | thread_set_priority n =>
    dsimp only [effect, thread_set_priority]
    split_ifs
    · exact hrefl t
    all_goals exact hpush _ t
  | set_priority n =>
    dsimp only [effect, set_priority]
    exact ThreadFrame.set_thread hrefl _ (ThreadFrame.set_priority (by simp [Stmt.writes]) _) t
  | set_original n =>
    dsimp only [effect, set_original]
    refine ThreadFrame.set_thread hrefl _ (fun a b h => ?_) t
    exact ⟨h.status, h.elem, h.priority, fun hn => absurd (by simp [Stmt.writes]) hn,
      h.possessing_locks, h.holded_by, h.waking_time, h.intr⟩
  | thread_set_nice n =>
    refine ThreadFrame.set_thread hrefl _ (fun a b h => ?_) t
    exact ⟨h.status, h.elem, fun hn => absurd (by simp [Stmt.writes]) hn, h.original_priority,
      h.possessing_locks, h.holded_by, h.waking_time, h.intr⟩
  | thread_create u p => exact absurd rfl (hc u p)
  | thread_exit =>
    refine ThreadFrame.push ?_ _ t
    exact ThreadFrame.set_thread hrefl _ (ThreadFrame.set_intr (by simp [Stmt.writes]) _)
  | timer_sleep n =>
    dsimp only [effect]
    split_ifs
    · exact hrefl t
    · exact hpush _ t
  | sleep_until n =>
    refine ThreadFrame.set_thread hrefl s.current (f := fun th => { th with waking_time := n })
      (fun a b h => ?_) t
    exact ⟨h.status, h.elem, h.priority, h.original_priority, h.possessing_locks, h.holded_by,
      fun hn => absurd (by simp [Stmt.writes]) hn, h.intr⟩
  | intr_disable =>
    exact ThreadFrame.set_thread hrefl _ (ThreadFrame.set_intr (by simp [Stmt.writes]) _) t
  | intr_enable =>
    exact ThreadFrame.set_thread hrefl _ (ThreadFrame.set_intr (by simp [Stmt.writes]) _) t
  | cond_wait c => exact hpush _ t
  | cond_enter c p =>
    refine ThreadFrame.push ?_ _ t
    exact hrefl
  | cond_signal c =>
    dsimp only [effect]
    cases (s.cond c).waiters.getLast? with
    | none => exact hrefl t
    | some w => exact ThreadFrame.push (r := s.set_cond _ _) hrefl _ t
  | cond_broadcast c => exact ThreadFrame.push (r := s.set_cond _ _) hrefl _ t
  | broadcast_loop c =>
    dsimp only [effect, broadcast_loop]
    split_ifs
    · exact hrefl t
    · exact hpush _ t
  | intq_getc q =>
    dsimp only [effect]
    split_ifs
    · exact hpush _ t
    · exact ThreadFrame.push (r := s.set_intq _ _) hrefl _ t
  | intq_putc q byte =>
    dsimp only [effect]
    split_ifs
    · exact hpush _ t
    · exact ThreadFrame.push (r := s.set_intq _ _) hrefl _ t
  | intq_signal q w =>
    dsimp only [effect]
    cases (s.intq q).waiter w with
    | none => exact hrefl t
    | some t' => exact hpush _ t
  | timer_interrupt =>
    dsimp only [effect, timer_interrupt]
    split_ifs
    all_goals
      refine ThreadFrame.push ?_ _ t
      exact hrefl
  | mlfqs_tick_change => exact ThreadFrame.mlfqs_tick_change s t
  | _ => exact hrefl t

/-- `thread_create` makes one thread and leaves the others. -/
theorem effect_create (s : Kernel) (t : Tid) (p : ℤ) (u : Tid) :
    ∃ code, (effect s (.thread_create t p)).thread u =
      { (if u = t then new_thread s p else s.thread u) with code := code } := by
  obtain ⟨code, heq⟩ := push_thread { (s.set_thread t (fun _ => new_thread s p)) with
    all_list := s.all_list ++ [t] } u [.lock_acquire tid_lock, .lock_release tid_lock,
      .thread_unblock t]
  refine ⟨code, heq.trans ?_⟩
  rw [← set_thread_apply s t u (fun _ => new_thread s p)]

/-! ## Steps -/

/-- The next statement is the handler's, or that of the running thread. -/
theorem pop_cases {c : Stmt} {r : Kernel} (h : pop_stmt s = some (c, r)) :
    (∃ rest, s.in_external_intr = true ∧ s.intr_code = c :: rest ∧
      r = { s with intr_code := rest }) ∨
    ∃ rest, s.in_external_intr = false ∧ s.cur.code = c :: rest ∧
      r = s.set_thread s.current (fun th => { th with code := rest }) := by
  unfold pop_stmt at h
  by_cases hx : s.in_external_intr = true
  · rw [if_pos hx] at h
    cases hc : s.intr_code with
    | nil =>
      rw [hc] at h
      cases h
    | cons d rest =>
      rw [hc] at h
      cases h
      exact Or.inl ⟨rest, hx, rfl, rfl⟩
  · rw [if_neg hx] at h
    rw [Bool.not_eq_true] at hx
    cases hc : s.cur.code with
    | nil =>
      rw [hc] at h
      cases h
    | cons d rest =>
      rw [hc] at h
      cases h
      exact Or.inr ⟨rest, hx, rfl, rfl⟩

end Pintos.Threads.Machine
