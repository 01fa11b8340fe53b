/-
`thread_set_priority` under donation (`threads/thread.c`).

A thread with donors keeps its priority and only gets a new `original_priority`, also when
the new one is higher than what was donated. A thread without records takes the new
priority, also when a thread that waits for one of its locks has a higher one: nothing was
recorded if the holder's priority was no lower when the waiter came. And the last `if`
compares the end of `ready_list` with the requested priority, not with the one the thread
has. The function is followed here statement by statement, without an interrupt, from any
state in which the running thread can call it.
-/
import Pintos.Threads.Broadcast
import Pintos.Threads.Residue

set_option autoImplicit false

namespace Pintos.Threads.Machine

open StepSystem

/-! ## A call, executed to its end -/

/-- `t` goes on until it has nothing left to execute. -/
inductive RunsOut (t : Tid) : Kernel → Kernel → Prop
  | done {s : Kernel} (hcode : (s.thread t).code = []) : RunsOut t s s
  | go {s s₁ s' : Kernel} (hcode : (s.thread t).code ≠ []) (hs : step s .go s₁)
      (h : RunsOut t s₁ s') : RunsOut t s s'

/-- The running thread calls `thread_set_priority (n)` and executes it to its end. -/
def Performs (s : Kernel) (n : ℤ) (s' : Kernel) : Prop :=
  ∃ s₁, step s (.call (.thread_set_priority n)) s₁ ∧ RunsOut s.current s₁ s'

variable {s s' r : Kernel} {c : Stmt} {l : List Stmt} {t : Tid} {n : ℤ} {f : Thread → Thread}

theorem RunsOut.done_iff (hcode : (s.thread t).code = []) : RunsOut t s s' ↔ s' = s := by
  constructor
  · intro h
    cases h with
    | done => rfl
    | go hne => exact absurd hcode hne
  · rintro rfl
    exact .done hcode

/-- The running thread with other values, and with these statements to execute. -/
def Kernel.own (s : Kernel) (f : Thread → Thread) (l : List Stmt) : Kernel :=
  s.set_thread s.current (fun th => { f th with code := l })

theorem own_cur (s : Kernel) (f : Thread → Thread) (l : List Stmt) :
    (s.own f l).cur = { f s.cur with code := l } :=
  set_thread_self s s.current _

theorem own_set (s : Kernel) (f g : Thread → Thread) (l : List Stmt)
    (hg : ∀ th, g { f th with code := l } = { g (f th) with code := l }) :
    (s.own f l).set_thread s.current g = s.own (fun th => g (f th)) l := by
  unfold Kernel.own
  rw [set_thread_twice]
  exact congrArg _ (funext hg)

theorem own_code (s : Kernel) (f : Thread → Thread) (l l' : List Stmt) :
    (s.own f l).set_thread s.current (fun th => { th with code := l' }) = s.own f l' := by
  unfold Kernel.own
  rw [set_thread_twice]

theorem own_push (hx : s.in_external_intr = false) (f : Thread → Thread) (l l' : List Stmt) :
    (s.own f l).push l' = s.own f (l' ++ l) := by
  have hx' : (s.own f l).in_external_intr = false := hx
  unfold Kernel.push
  rw [if_neg (by rw [hx']; decide)]
  show (s.own f l).set_thread s.current _ = _
  unfold Kernel.own
  rw [set_thread_twice]

theorem own_pop (hx : s.in_external_intr = false) (f : Thread → Thread) (c : Stmt)
    (l : List Stmt) : pop_stmt (s.own f (c :: l)) = some (c, s.own f l) := by
  have hx' : (s.own f (c :: l)).in_external_intr = false := hx
  unfold pop_stmt
  rw [if_neg (by rw [hx']; decide), own_cur]
  exact congrArg some (congrArg (Prod.mk c) (own_code s f (c :: l) l))

/-- The next statement of the running thread. -/
theorem RunsOut.next_iff (hx : s.in_external_intr = false) :
    RunsOut s.current (s.own f (c :: l)) s' ↔
      ∃ s₁, exec (s.own f l) c = .ok s₁ ∧ RunsOut s.current s₁ s' := by
  have hcode : ((s.own f (c :: l)).thread s.current).code ≠ [] := by
    rw [show ((s.own f (c :: l)).thread s.current).code = c :: l from
      congrArg Thread.code (own_cur s f (c :: l))]
    exact List.cons_ne_nil c l
  constructor
  · intro h
    cases h with
    | done hnil => exact absurd hnil hcode
    | go _ hs h =>
      obtain ⟨d, q, hp, hexec⟩ := hs
      obtain ⟨rfl, rfl⟩ := Prod.mk.inj (Option.some.inj (hp.symm.trans (own_pop hx f c l)))
      exact ⟨_, hexec, h⟩
  · rintro ⟨s₁, hexec, h⟩
    exact .go hcode ⟨c, _, own_pop hx f c l, hexec⟩ h

/-! ## What `thread_set_priority` does -/

/-- The assignments of `thread_set_priority`: with donors, only `original_priority`. -/
def assign (n : ℤ) (th : Thread) : Thread :=
  if th.possessing_locks = [] then { th with priority := n, original_priority := n }
  else { th with original_priority := n }

theorem assign_priority (n : ℤ) (th : Thread) :
    (assign n th).priority = if th.possessing_locks = [] then n else th.priority := by
  unfold assign
  split_ifs <;> rfl

/-- The running thread can call. -/
structure CanCall (s : Kernel) : Prop where
  context : s.in_external_intr = false
  not_idle : s.current ≠ s.idle_thread
  code : s.cur.code = []

theorem set_priority_yield_code (hs : set_priority_yield s n = .ok s') (t : Tid) :
    (s'.thread t).code = (s.thread t).code := by
  unfold set_priority_yield at hs
  split at hs
  · obtain rfl := Except.ok.inj hs
    rfl
  · split_ifs at hs
    · exact (thread_yield_switch hs).code t
    · obtain rfl := Except.ok.inj hs
      rfl

theorem own_congr {g : Thread → Thread} (h : f s.cur = g s.cur) : s.own f l = s.own g l := by
  have hself :
      (fun th => { f th with code := l }) s.cur = (fun th => { g th with code := l }) s.cur :=
    congrArg (fun th : Thread => { th with code := l }) h
  show { s with thread := Function.update s.thread s.current _ } = _
  rw [hself]
  rfl

theorem CanCall.push (h : CanCall s) (c : Stmt) : s.push [c] = s.own id [c] := by
  have hself : s = s.own id [] := by
    have hcur : (fun th => { id th with code := [] }) s.cur = s.cur := by
      show { s.cur with code := [] } = s.cur
      rw [← h.code]
    show s = { s with thread := Function.update s.thread s.current _ }
    rw [hcur, Function.update_eq_self]
  nth_rewrite 1 [hself]
  exact own_push h.context id [] [c]

/-- A statement that only changes the running thread. -/
theorem RunsOut.own_iff (hx : s.in_external_intr = false) {g : Thread → Thread} {l' : List Stmt}
    (hexec : exec (s.own f l) c = .ok (s.own g l')) :
    RunsOut s.current (s.own f (c :: l)) s' ↔ RunsOut s.current (s.own g l') s' := by
  rw [RunsOut.next_iff hx]
  constructor
  · rintro ⟨s₁, hs₁, hfin⟩
    rw [Except.ok.inj (hexec.symm.trans hs₁)]
    exact hfin
  · exact fun hfin => ⟨_, hexec, hfin⟩

/-- The last statement hands the processor on, and the call is over. -/
theorem RunsOut.yield_iff (hx : s.in_external_intr = false) :
    RunsOut s.current (s.own f [.set_priority_yield n]) s' ↔
      set_priority_yield (s.own f []) n = .ok s' := by
  rw [RunsOut.next_iff hx]
  have hnil : ∀ {s₁ : Kernel}, set_priority_yield (s.own f []) n = .ok s₁ →
      (s₁.thread s.current).code = [] := by
    intro s₁ hs₁
    rw [set_priority_yield_code hs₁]
    exact congrArg Thread.code (own_cur s f [])
  constructor
  · rintro ⟨s₁, hs₁, hfin⟩
    rw [(RunsOut.done_iff (hnil hs₁)).mp hfin]
    exact hs₁
  · intro hs'
    exact ⟨s', hs', (RunsOut.done_iff (hnil hs')).mpr rfl⟩

/-- The call is its assignments and its last `if`. -/
theorem performs_iff (h : CanCall s) (hmlfqs : s.thread_mlfqs = false) :
    Performs s n s' ↔ set_priority_yield (s.own (assign n) []) n = .ok s' := by
  have hx := h.context
  have hcall : Performs s n s' ↔ RunsOut s.current (s.own id [.thread_set_priority n]) s' := by
    rw [← h.push]
    constructor
    · rintro ⟨s₁, ⟨-, -, -, -, rfl⟩, hfin⟩
      exact hfin
    · exact fun hfin => ⟨_, ⟨hx, h.not_idle, h.code, trivial, rfl⟩, hfin⟩
  have hoff : ¬ (s.own id []).thread_mlfqs = true := by
    rw [show (s.own id []).thread_mlfqs = s.thread_mlfqs from rfl, hmlfqs]
    decide
  have hlocks : (s.own id []).cur.possessing_locks = s.cur.possessing_locks := by
    rw [own_cur]
    rfl
  have hset : ∀ f : Thread → Thread, exec (s.own f [.set_priority_yield n]) (.set_original n) =
      .ok (s.own (fun th => { f th with original_priority := n }) [.set_priority_yield n]) :=
    fun f => congrArg Except.ok (own_set s f (fun th => { th with original_priority := n }) _
      fun _ => rfl)
  rw [hcall]
  by_cases hnil : s.cur.possessing_locks = []
  · -- no donors: both fields are written
    have hstart : exec (s.own id []) (.thread_set_priority n) =
        .ok (s.own id [.set_priority n, .set_original n, .set_priority_yield n]) := by
      dsimp only [exec, thread_set_priority]
      rw [if_neg hoff, if_neg (by rw [hlocks]; exact not_not.mpr hnil)]
      exact congrArg Except.ok (own_push hx id [] _)
    have hpriority : exec (s.own id [.set_original n, .set_priority_yield n]) (.set_priority n) =
        .ok (s.own (fun th => { th with priority := n })
          [.set_original n, .set_priority_yield n]) :=
      congrArg Except.ok (own_set s id (fun th => { th with priority := n }) _ fun _ => rfl)
    rw [RunsOut.own_iff hx hstart, RunsOut.own_iff hx hpriority, RunsOut.own_iff hx (hset _),
      RunsOut.yield_iff hx, own_congr (g := assign n)]
    unfold assign
    rw [if_pos hnil]
  · -- donors: `original_priority` only
    have hstart : exec (s.own id []) (.thread_set_priority n) =
        .ok (s.own id [.set_original n, .set_priority_yield n]) := by
      dsimp only [exec, thread_set_priority]
      rw [if_neg hoff, if_pos (by rw [hlocks]; exact hnil)]
      exact congrArg Except.ok (own_push hx id [] _)
    rw [RunsOut.own_iff hx hstart, RunsOut.own_iff hx (hset _), RunsOut.yield_iff hx,
      own_congr (g := assign n)]
    unfold assign
    rw [if_neg hnil]
    rfl

/-! ## What it should do -/

/-- `t` waits for a lock that `low` holds. -/
def BlockedOn (s : Kernel) (low t : Tid) : Prop :=
  ∃ m, s.holder m = some low ∧ t ∈ (s.sema (.lock m)).waiters

/-- The priorities a thread with this base priority is entitled to. -/
def entitled (s : Kernel) (low : Tid) (base : ℤ) : Set ℤ :=
  insert base (s.priority '' {t | BlockedOn s low t})

/-- What `thread_set_priority (n)` should do: the priority is the highest of the new base and of
the threads that wait for the caller's locks, and the processor goes to another thread if one
that is ready has no lower priority. -/
structure SetsPriority (s : Kernel) (n : ℤ) (s' : Kernel) : Prop where
  priority : IsGreatest (entitled s' s.current n) (s'.priority s.current)
  original : (s'.thread s.current).original_priority = n
  yields : (∃ t ∈ s.ready_list, s'.priority s.current ≤ s'.priority t) → s'.current ≠ s.current

/-- When it does so. -/
structure SetOk (s : Kernel) (n : ℤ) : Prop where
  plain : s.cur.possessing_locks = [] → ∀ t, BlockedOn s s.current t → s.priority t ≤ n
  donated : s.cur.possessing_locks ≠ [] → IsGreatest (entitled s s.current n) s.cur.priority
  yields : (∃ t ∈ s.ready_list,
      (if s.cur.possessing_locks = [] then n else s.cur.priority) ≤ s.priority t) →
    ∃ last ∈ s.ready_list.getLast?, n ≤ s.priority last

/-- An element that is inserted before others does not come last. -/
theorem insert_ordered_last {α : Type} {less : α → α → Prop} [DecidableRel less] {l : List α}
    {a b : α} (hb : b ∈ l) (hab : less a b) (ha : a ∉ l) :
    (list_insert_ordered less l a).getLast? ≠ some a := by
  unfold list_insert_ordered
  induction l with
  | nil => cases hb
  | cons x l ih =>
    by_cases hax : less a x
    · -- inserted in front of `x`, which is followed by none but elements of the list
      rw [List.orderedInsert_cons, if_pos hax]
      intro hlast
      rw [List.getLast?_cons_cons] at hlast
      exact ha (List.mem_of_getLast? hlast)
    · rw [List.orderedInsert_cons, if_neg hax]
      have hbl : b ∈ l := (List.mem_cons.mp hb).resolve_left (by rintro rfl; exact hax hab)
      have hne : l.orderedInsert less a ≠ [] :=
        List.ne_nil_of_mem ((List.mem_orderedInsert less).mpr (Or.inl rfl))
      rw [List.getLast?_cons_of_ne_nil hne]
      exact ih hbl fun hmem => ha (List.mem_cons_of_mem x hmem)

/-- `thread_yield` hands the processor on, if a ready thread has no lower priority. -/
theorem thread_yield_switches (hidle : s.current ≠ s.idle_thread) (hcur : s.current ∉ s.ready_list)
    (ht : t ∈ s.ready_list) (hle : s.cur.priority ≤ s.priority t) (hs : thread_yield s = .ok s') :
    s'.current ≠ s.current := by
  unfold thread_yield at hs
  obtain ⟨-, -, hs⟩ := bind_eq_ok hs
  dsimp only at hs
  rw [if_neg hidle] at hs
  obtain ⟨q, hq, hs⟩ := bind_eq_ok hs
  have hlist : q.ready_list = list_insert_ordered s.less_priority s.ready_list s.current := by
    rw [(make_ready_eq hq).2]
  have hnext : s'.current = (next_thread_to_run q).1 := by rw [schedule_eq hs]
  rw [hnext]
  have hlast : q.ready_list.getLast? ≠ some s.current := by
    rw [hlist]
    exact insert_ordered_last ht hle hcur
  rcases next_thread_cases q with ⟨hnil, -⟩ | ⟨last, hl, hn⟩
  · have hmem : s.current ∈ q.ready_list := by
      rw [hlist]
      exact mem_insert_ordered.mpr (Or.inl rfl)
    rw [hnil] at hmem
    cases hmem
  · rw [hn]
    rintro rfl
    exact hlast hl

/-! ## When it does -/

theorem set_priority_yield_switch (hs : set_priority_yield s n = .ok s') : Switch s s' := by
  unfold set_priority_yield at hs
  split at hs
  · obtain rfl := Except.ok.inj hs
    exact Switch.refl s
  · split_ifs at hs
    · exact thread_yield_switch hs
    · obtain rfl := Except.ok.inj hs
      exact Switch.refl s

theorem assigned_calm (s : Kernel) (n : ℤ) : Calm s (s.own (assign n) []) := by
  have hkeep : ∀ t, ((s.own (assign n) []).thread t).elem = (s.thread t).elem ∧
      ((s.own (assign n) []).thread t).status = (s.thread t).status := by
    intro t
    unfold Kernel.own
    rw [set_thread_apply]
    split_ifs with ht
    · rw [ht]
      unfold assign
      split_ifs <;> exact ⟨rfl, rfl⟩
    · exact ⟨rfl, rfl⟩
  exact ⟨rfl, rfl, fun _ => rfl, fun t => (hkeep t).1, fun t => Or.inl (hkeep t).2, rfl, rfl⟩

theorem assigned_priority (s : Kernel) (n : ℤ) : (s.own (assign n) []).priority =
    Function.update s.priority s.current (assign n s.cur).priority := by
  funext t
  show ((s.own (assign n) []).thread t).priority = _
  unfold Kernel.own
  rw [set_thread_apply, Function.update_apply]
  split_ifs <;> rfl

theorem assigned_original (s : Kernel) (n : ℤ) :
    ((s.own (assign n) []).thread s.current).original_priority = n := by
  rw [show (s.own (assign n) []).thread s.current = _ from own_cur s (assign n) []]
  show (assign n s.cur).original_priority = n
  unfold assign
  split_ifs <;> rfl

/-- The running thread waits for no lock. -/
theorem BlockedOn.ne_current (hk : SchedInv s) {low : Tid} (h : BlockedOn s low t) :
    t ≠ s.current := by
  obtain ⟨m, -, ht⟩ := h
  exact (hk.current_ne ((hk.lists.waiters (.lock m) t).mp ht)).symm

/-- The call changes neither who waits nor the priorities of those who wait. -/
theorem entitled_after (hk : SchedInv s)
    (hs : set_priority_yield (s.own (assign n) []) n = .ok s') :
    entitled s' s.current n = entitled s s.current n := by
  have hsw := set_priority_yield_switch hs
  have hblocked : {t | BlockedOn s' s.current t} = {t | BlockedOn s s.current t} := by
    ext t
    show (∃ m, _) ↔ ∃ m, _
    rw [hsw.holder, hsw.sema]
    exact Iff.rfl
  unfold entitled
  rw [hblocked]
  refine congrArg _ (Set.image_congr fun t ht => ?_)
  rw [show s'.priority t = _ from hsw.priority t]
  show (s.own (assign n) []).priority t = _
  rw [assigned_priority, Function.update_of_ne (BlockedOn.ne_current hk ht)]

/-- The priority is right in a thread with donors if it was right before, and in one without if
nobody who waits for its locks has a higher one. -/
theorem greatest_iff : IsGreatest (entitled s s.current n) (assign n s.cur).priority ↔
    (s.cur.possessing_locks = [] → ∀ t, BlockedOn s s.current t → s.priority t ≤ n) ∧
    (s.cur.possessing_locks ≠ [] → IsGreatest (entitled s s.current n) s.cur.priority) := by
  unfold assign
  by_cases hnil : s.cur.possessing_locks = []
  · rw [if_pos hnil]
    constructor
    · intro h
      refine ⟨fun _ t ht => h.2 (Set.mem_insert_of_mem n ⟨t, ht, rfl⟩), fun hne => ?_⟩
      exact absurd hnil hne
    · intro h
      refine ⟨Set.mem_insert n _, fun p hp => ?_⟩
      rcases hp with rfl | ⟨t, ht, rfl⟩
      · exact le_refl _
      · exact h.1 hnil t ht
  · rw [if_neg hnil]
    exact ⟨fun h => ⟨fun heq => absurd heq hnil, fun _ => h⟩, fun h => h.2 hnil⟩

/-- Whether the processor is handed on is decided by the last of `ready_list`. -/
theorem switches_iff (hk : SchedInv s) (hidle : s.current ≠ s.idle_thread)
    (hs : set_priority_yield (s.own (assign n) []) n = .ok s')
    (hready : ∃ t ∈ s.ready_list, (assign n s.cur).priority ≤ s.priority t) :
    s'.current ≠ s.current ↔ ∃ last ∈ s.ready_list.getLast?, n ≤ s.priority last := by
  have hne : ∀ t ∈ s.ready_list, t ≠ s.current := fun t ht =>
    (hk.current_ne ((hk.lists.ready t).mp ht)).symm
  have hlast : ∀ t ∈ s.ready_list, (s.own (assign n) []).priority t = s.priority t := by
    intro t ht
    rw [assigned_priority, Function.update_of_ne (hne t ht)]
  obtain ⟨t, ht, hle⟩ := hready
  have hlist : (s.own (assign n) []).ready_list = s.ready_list := rfl
  unfold set_priority_yield at hs
  rw [hlist] at hs
  cases hl : s.ready_list.getLast? with
  | none =>
    rw [List.getLast?_eq_none_iff.mp hl] at ht
    cases ht
  | some last =>
    rw [hl] at hs
    dsimp only at hs
    rw [hlast last (List.mem_of_getLast? hl)] at hs
    by_cases hyield : n ≤ s.priority last
    · rw [if_pos hyield] at hs
      refine iff_of_true ?_ ⟨last, rfl, hyield⟩
      refine thread_yield_switches (s := s.own (assign n) []) (t := t) hidle
        (fun hmem => hne _ hmem rfl) ht ?_ hs
      rw [hlast t ht]
      show (s.own (assign n) []).priority s.current ≤ _
      rw [assigned_priority, Function.update_self]
      exact hle
    · rw [if_neg hyield] at hs
      obtain rfl := Except.ok.inj hs
      refine iff_of_false (fun h => h rfl) ?_
      rintro ⟨x, hx, hle⟩
      obtain rfl := Option.some.inj hx
      exact hyield hle

/-- The scheduler in use stays. -/
theorem reachable_mlfqs {u : Setup} {ok : Kernel → Event → Prop}
    (hr : Reachable (kernel_system u) ok s) : s.thread_mlfqs = u.mlfqs := by
  refine reachable_rule (P := fun r => r.thread_mlfqs = u.mlfqs) hr rfl fun r e r' _ hi _ hs => ?_
  refine step_of_effect (P := fun r => r.thread_mlfqs = u.mlfqs)
    (fun _ _ hsw h => hsw.thread_mlfqs.trans h) (fun _ _ h => h) (fun _ _ _ _ h => h)
    (fun _ _ h => h) (fun _ _ _ h => h) (fun r c _ _ h => ?_) hi hs
  exact (effect_frame r c).thread_mlfqs.trans h

/-- The call comes to its end. -/
theorem performs_total {u : Setup} {ok : Kernel → Event → Prop} (hu : u.mlfqs = false)
    (hr : Reachable (kernel_system u) ok s) (h : CanCall s) (n : ℤ) : ∃ s', Performs s n s' := by
  have hk := (kernel_inv hr).sched
  obtain ⟨y, hy⟩ := thread_yield_ok (hk.calm (assigned_calm s n)) h.context
  have hexec : ∃ s', set_priority_yield (s.own (assign n) []) n = .ok s' := by
    unfold set_priority_yield
    split
    · exact ⟨_, rfl⟩
    · split_ifs
      · exact ⟨y, hy⟩
      · exact ⟨_, rfl⟩
  obtain ⟨s', hs'⟩ := hexec
  exact ⟨s', (performs_iff h ((reachable_mlfqs hr).trans hu)).mpr hs'⟩

/-- **`thread_set_priority` under donation.** In priority mode the call comes to its end from
every reachable state. It makes the priority the highest of the new base and the priorities of
the threads that wait for the caller's locks, and hands the processor on to a ready thread of
no lower priority, exactly when `SetOk` holds before it. -/
theorem sets_priority {u : Setup} {ok : Kernel → Event → Prop} (hu : u.mlfqs = false)
    (hr : Reachable (kernel_system u) ok s) (h : CanCall s) (n : ℤ) :
    (∃ s', Performs s n s') ∧ ∀ s', Performs s n s' → (SetsPriority s n s' ↔ SetOk s n) := by
  have hk := (kernel_inv hr).sched
  have hmlfqs : s.thread_mlfqs = false := (reachable_mlfqs hr).trans hu
  refine ⟨performs_total hu hr h n, fun s' hperforms => ?_⟩
  have hs := (performs_iff h hmlfqs).mp hperforms
  have hsw := set_priority_yield_switch hs
  have hpriority : ∀ t, s'.priority t = (s.own (assign n) []).priority t := hsw.priority
  have hcur : s'.priority s.current = (assign n s.cur).priority := by
    rw [hpriority, assigned_priority, Function.update_self]
  have hready : ∀ t ∈ s.ready_list, s'.priority t = s.priority t := by
    intro t ht
    rw [hpriority, assigned_priority, Function.update_of_ne]
    exact (hk.current_ne ((hk.lists.ready t).mp ht)).symm
  have hgreatest : IsGreatest (entitled s' s.current n) (s'.priority s.current) ↔
      IsGreatest (entitled s s.current n) (assign n s.cur).priority := by
    rw [entitled_after hk hs, hcur]
  have hexists : (∃ t ∈ s.ready_list, s'.priority s.current ≤ s'.priority t) ↔
      ∃ t ∈ s.ready_list, (assign n s.cur).priority ≤ s.priority t := by
    rw [hcur]
    constructor
    · rintro ⟨t, ht, hle⟩
      exact ⟨t, ht, by rw [← hready t ht]; exact hle⟩
    · rintro ⟨t, ht, hle⟩
      exact ⟨t, ht, by rw [hready t ht]; exact hle⟩
  constructor
  · intro hset
    obtain ⟨hplain, hdonated⟩ := greatest_iff.mp (hgreatest.mp hset.priority)
    refine ⟨hplain, hdonated, fun hle => ?_⟩
    rw [← assign_priority] at hle
    exact (switches_iff hk h.not_idle hs hle).mp (hset.yields (hexists.mpr hle))
  · intro hok
    refine ⟨hgreatest.mpr (greatest_iff.mpr ⟨hok.plain, hok.donated⟩), ?_, fun hle => ?_⟩
    · rw [hsw.original_priority]
      exact assigned_original s n
    · have hle' := hexists.mp hle
      refine (switches_iff hk h.not_idle hs hle').mpr (hok.yields ?_)
      rw [← assign_priority]
      exact hle'

/-- The main thread holds one lock, and thread 2 waits for it with a higher priority. -/
structure DonorWaits (s : Kernel) : Prop where
  can_call : CanCall s
  current : s.current = 0
  records : s.cur.possessing_locks ≠ []
  priority : s.cur.priority = 40
  ready_list : s.ready_list = []
  blocked : ∀ t, BlockedOn s 0 t ↔ t = 2
  donor : s.priority 2 = 40

theorem donor_waits : ∃ s, Reachable (kernel_system plain_setup) (fun _ _ => True) s ∧
    DonorWaits s := by
  obtain ⟨s, hr, hx, hcur, hidle, hcode, hrecords, hpriority, hready, hheld, hlock, hwaiters,
    hdonor⟩ := run_reachable (u := plain_setup) SmallLocks
    (fun s => s.in_external_intr = false ∧ s.current = 0 ∧ s.idle_thread = 1 ∧ s.cur.code = [] ∧
      s.cur.possessing_locks ≠ [] ∧ s.cur.priority = 40 ∧ s.ready_list = [] ∧
      (∀ m : ℕ, m < 6 → s.holder m = some 0 → m = 5) ∧ s.holder 5 = some 0 ∧
      (s.sema (.lock 5)).waiters = [2] ∧ s.priority 2 = 40)
    (donor_run 10) (.init rfl) (donor_run_allowed 10) (by decide +kernel)
  refine ⟨s, hr.weaken fun _ _ _ => trivial, ⟨hx, ?_, hcode⟩, hcur, hrecords, hpriority, hready,
    fun t => ?_, hdonor⟩
  · rw [hcur, hidle]
    decide
  · constructor
    · rintro ⟨m, hm, ht⟩
      have hsmall : m < 6 := by
        by_contra hge
        rw [holder_small hr (not_lt.mp hge)] at hm
        cases hm
      obtain rfl := hheld m hsmall hm
      rw [hwaiters] at ht
      exact List.mem_singleton.mp ht
    · rintro rfl
      exact ⟨5, hlock, by rw [hwaiters]; exact List.mem_singleton_self 2⟩

theorem DonorWaits.entitled (h : DonorWaits s) (n : ℤ) :
    Machine.entitled s s.current n = {n, 40} := by
  unfold Machine.entitled
  have hset : {t | BlockedOn s s.current t} = {2} := by
    ext t
    rw [h.current]
    exact h.blocked t
  rw [hset, Set.image_singleton, h.donor]

/-- The new base is lower than the donated priority, which stays. -/
theorem sets_priority_lower : ∃ s s', DonorWaits s ∧ Performs s 21 s' ∧ SetsPriority s 21 s' := by
  obtain ⟨s, hr, h⟩ := donor_waits
  obtain ⟨⟨s', hs'⟩, hiff⟩ := sets_priority rfl hr h.can_call 21
  refine ⟨s, s', h, hs', (hiff s' hs').mpr ⟨fun hnil => absurd hnil h.records, fun _ => ?_, ?_⟩⟩
  · rw [h.entitled, h.priority]
    refine ⟨Set.mem_insert_of_mem _ rfl, fun p hp => ?_⟩
    rcases hp with rfl | hp
    · decide
    · rw [Set.mem_singleton_iff.mp hp]
  · rw [h.ready_list]
    rintro ⟨t, ht, -⟩
    cases ht

/-- The new base is higher than the donated priority, and the priority does not rise. -/
theorem raise_ignored : ∃ s s', Reachable (kernel_system plain_setup) (fun _ _ => True) s ∧
    CanCall s ∧ Performs s 50 s' ∧ ¬ SetsPriority s 50 s' := by
  obtain ⟨s, hr, h⟩ := donor_waits
  obtain ⟨s', hperforms⟩ := performs_total rfl hr h.can_call 50
  refine ⟨s, s', hr, h.can_call, hperforms, fun hset => ?_⟩
  have hk := (kernel_inv hr).sched
  have hs := (performs_iff h.can_call (reachable_mlfqs hr)).mp hperforms
  have hbase : (50 : ℤ) ∈ entitled s' s.current 50 := Set.mem_insert _ _
  have hle := hset.priority.2 hbase
  have hsame : s'.priority s.current = 40 := by
    rw [show s'.priority s.current = _ from (set_priority_yield_switch hs).priority s.current]
    show (s.own (assign 50) []).priority s.current = 40
    rw [assigned_priority, Function.update_self]
    unfold assign
    rw [if_neg h.records]
    exact h.priority
  rw [hsame] at hle
  exact absurd hle (by decide)

end Pintos.Threads.Machine
