/-
What every run of the thread system keeps: a thread's `elem` is on the list it says,
its status fits that list, and the running thread is on none.

Most statements move no thread between lists (`Calm`). The others go through four
moves: a thread is made ready, the running thread is put on a list it sleeps on, a
sleeper is taken off its list, and `schedule`.
-/
import Pintos.Threads.Frame

set_option autoImplicit false

namespace Pintos.Threads.Machine

open StepSystem

/-! ## The invariant -/

/-- The lists are the threads' `elem`s, and statuses fit them. -/
structure Lists (s : Kernel) : Prop where
  ready : ∀ t, t ∈ s.ready_list ↔ (s.thread t).elem = some .ready_list
  waiting : ∀ t, t ∈ s.waiting_list ↔ (s.thread t).elem = some .waiting_list
  waiters : ∀ i t, t ∈ (s.sema i).waiters ↔ (s.thread t).elem = some (.waiters i)
  ready_nodup : s.ready_list.Nodup
  waiting_nodup : s.waiting_list.Nodup
  waiters_nodup : ∀ i, (s.sema i).waiters.Nodup
  status : ∀ t p, (s.thread t).elem = some p →
    (s.thread t).status = if p = .ready_list then .ready else .blocked
  linked : ∀ t, (s.thread t).status = .ready → t ≠ s.idle_thread →
    (s.thread t).elem = some .ready_list
  only : ∀ t, (s.thread t).status = .running → t = s.current
  idle : (s.thread s.idle_thread).elem = none
  idle_used : (s.thread s.idle_thread).status ≠ .unused

/-- Between two statements, besides: one thread runs, and it is on no list. -/
structure SchedInv (s : Kernel) : Prop where
  lists : Lists s
  running : s.cur.status = .running
  unlinked : s.cur.elem = none

/-! ## Statements that move no thread -/

/-- Lists and statuses stay. A thread may be new. -/
structure Calm (s s' : Kernel) : Prop where
  ready_list : s'.ready_list = s.ready_list
  waiting_list : s'.waiting_list = s.waiting_list
  waiters : ∀ i, (s'.sema i).waiters = (s.sema i).waiters
  elem : ∀ t, (s'.thread t).elem = (s.thread t).elem
  status : ∀ t, (s'.thread t).status = (s.thread t).status ∨
    ((s.thread t).status = .unused ∧ (s'.thread t).status = .blocked)
  current : s'.current = s.current
  idle_thread : s'.idle_thread = s.idle_thread

theorem Calm.used {s s' : Kernel} (h : Calm s s') {t : Tid} (ht : (s.thread t).status ≠ .unused) :
    (s'.thread t).status = (s.thread t).status :=
  (h.status t).resolve_right fun hnew => ht hnew.1

/-- A status other than `blocked` is an old one. -/
theorem Calm.status_eq {s s' : Kernel} (h : Calm s s') {t : Tid} {x : Status}
    (hx : x ≠ .blocked) (ht : (s'.thread t).status = x) : (s.thread t).status = x := by
  rcases h.status t with heq | ⟨-, hnew⟩
  · rw [← heq]
    exact ht
  · exact absurd (ht.symm.trans hnew) hx

theorem Lists.calm {s s' : Kernel} (hl : Lists s) (h : Calm s s') : Lists s' := by
  constructor
  · intro t
    rw [h.ready_list, h.elem]
    exact hl.ready t
  · intro t
    rw [h.waiting_list, h.elem]
    exact hl.waiting t
  · intro i t
    rw [h.waiters, h.elem]
    exact hl.waiters i t
  · rw [h.ready_list]
    exact hl.ready_nodup
  · rw [h.waiting_list]
    exact hl.waiting_nodup
  · intro i
    rw [h.waiters]
    exact hl.waiters_nodup i
  · intro t p hp
    rw [h.elem] at hp
    have hstatus := hl.status t p hp
    rw [h.used (by rw [hstatus]; split_ifs <;> decide)]
    exact hstatus
  · intro t ht hne
    rw [h.idle_thread] at hne
    rw [h.elem]
    exact hl.linked t (h.status_eq (by decide) ht) hne
  · intro t ht
    rw [h.current]
    exact hl.only t (h.status_eq (by decide) ht)
  · rw [h.idle_thread, h.elem]
    exact hl.idle
  · rw [h.idle_thread, h.used hl.idle_used]
    exact hl.idle_used

theorem SchedInv.calm {s s' : Kernel} (hi : SchedInv s) (h : Calm s s') : SchedInv s' := by
  refine ⟨hi.lists.calm h, ?_, ?_⟩
  · show (s'.thread s'.current).status = .running
    rw [h.current, h.used]
    · exact hi.running
    · rw [show (s.thread s.current).status = .running from hi.running]
      decide
  · show (s'.thread s'.current).elem = none
    rw [h.current, h.elem]
    exact hi.unlinked

/-! ## Moves -/

/-- A thread goes from one list to another, or from a list to none, or back. -/
theorem Lists.move {s s' : Kernel} (h : Lists s) (t : Tid) {e : Option Place} {x : Status}
    (hother : ∀ u, u ≠ t → s'.thread u = s.thread u) (helem : (s'.thread t).elem = e)
    (hstatus : (s'.thread t).status = x)
    (hready : ∀ u, u ≠ t → (u ∈ s'.ready_list ↔ u ∈ s.ready_list))
    (hready_self : t ∈ s'.ready_list ↔ e = some .ready_list)
    (hwaiting : ∀ u, u ≠ t → (u ∈ s'.waiting_list ↔ u ∈ s.waiting_list))
    (hwaiting_self : t ∈ s'.waiting_list ↔ e = some .waiting_list)
    (hwaiters : ∀ i u, u ≠ t → (u ∈ (s'.sema i).waiters ↔ u ∈ (s.sema i).waiters))
    (hwaiters_self : ∀ i, t ∈ (s'.sema i).waiters ↔ e = some (.waiters i))
    (hready_nodup : s'.ready_list.Nodup) (hwaiting_nodup : s'.waiting_list.Nodup)
    (hwaiters_nodup : ∀ i, (s'.sema i).waiters.Nodup)
    (hfits : ∀ p, e = some p → x = if p = .ready_list then .ready else .blocked)
    (hlinked : x = .ready → t ≠ s.idle_thread → e = some .ready_list) (hused : x ≠ .unused)
    (honly : ∀ u, (s'.thread u).status = .running → u = s'.current)
    (hidle : t = s.idle_thread → e = none)
    (hidle_thread : s'.idle_thread = s.idle_thread) : Lists s' := by
  constructor
  · intro u
    by_cases hu : u = t
    · rw [hu, helem]
      exact hready_self
    · rw [hready u hu, hother u hu]
      exact h.ready u
  · intro u
    by_cases hu : u = t
    · rw [hu, helem]
      exact hwaiting_self
    · rw [hwaiting u hu, hother u hu]
      exact h.waiting u
  · intro i u
    by_cases hu : u = t
    · rw [hu, helem]
      exact hwaiters_self i
    · rw [hwaiters i u hu, hother u hu]
      exact h.waiters i u
  · exact hready_nodup
  · exact hwaiting_nodup
  · exact hwaiters_nodup
  · intro u p hp
    by_cases hu : u = t
    · rw [hu, helem] at hp
      rw [hu, hstatus]
      exact hfits p hp
    · rw [hother u hu] at hp ⊢
      exact h.status u p hp
  · intro u hu hne
    rw [hidle_thread] at hne
    by_cases hut : u = t
    · rw [hut, hstatus] at hu
      rw [hut, helem]
      exact hlinked hu (hut ▸ hne)
    · rw [hother u hut] at hu ⊢
      exact h.linked u hu hne
  · exact honly
  · rw [hidle_thread]
    by_cases hu : s.idle_thread = t
    · rw [hu, helem]
      exact hidle hu.symm
    · rw [hother _ hu]
      exact h.idle
  · rw [hidle_thread]
    by_cases hu : s.idle_thread = t
    · rw [hu, hstatus]
      exact hused
    · rw [hother _ hu]
      exact h.idle_used

/-- When one thread changes and does not start to run, no other one does. -/
theorem Lists.only_of_ne {s s' : Kernel} (h : Lists s) {t : Tid}
    (hother : ∀ u, u ≠ t → s'.thread u = s.thread u) (ht : (s'.thread t).status ≠ .running)
    (hcur : s'.current = s.current) (u : Tid) (hu : (s'.thread u).status = .running) :
    u = s'.current := by
  by_cases hut : u = t
  · rw [hut] at hu
    exact absurd hu ht
  · rw [hother u hut] at hu
    rw [hcur]
    exact h.only u hu

/-- A thread on one list is not on another. -/
theorem Lists.not_ready {s : Kernel} (h : Lists s) {t : Tid}
    (ht : (s.thread t).elem ≠ some .ready_list) : t ∉ s.ready_list :=
  fun hmem => ht ((h.ready t).mp hmem)

theorem Lists.not_waiting {s : Kernel} (h : Lists s) {t : Tid}
    (ht : (s.thread t).elem ≠ some .waiting_list) : t ∉ s.waiting_list :=
  fun hmem => ht ((h.waiting t).mp hmem)

theorem Lists.not_waiters {s : Kernel} (h : Lists s) {t : Tid} {i : SemaId}
    (ht : (s.thread t).elem ≠ some (.waiters i)) : t ∉ (s.sema i).waiters :=
  fun hmem => ht ((h.waiters i t).mp hmem)

theorem mem_insert_ordered {less : Tid → Tid → Prop} [DecidableRel less] {l : List Tid}
    {t u : Tid} : u ∈ list_insert_ordered less l t ↔ u = t ∨ u ∈ l :=
  List.mem_orderedInsert less

theorem nodup_insert_ordered {less : Tid → Tid → Prop} [DecidableRel less] {l : List Tid}
    {t : Tid} (hl : l.Nodup) (ht : t ∉ l) : (list_insert_ordered less l t).Nodup :=
  (List.perm_orderedInsert less t l).nodup_iff.mpr (List.nodup_cons.mpr ⟨ht, hl⟩)

theorem Lists.make_ready {s s' : Kernel} (h : Lists s) {t : Tid} (hidle : t ≠ s.idle_thread)
    (hs : make_ready s t = .ok s') : Lists s' := by
  obtain ⟨helem, rfl⟩ := make_ready_eq hs
  have hself := set_thread_self s t
    (fun th => { th with status := .ready, elem := some .ready_list })
  have hother := fun u hu => set_thread_of_ne s (t := t) (u := u)
    (fun th => { th with status := .ready, elem := some .ready_list }) hu
  refine h.move t (e := some .ready_list) (x := .ready) hother (by rw [hself]) (by rw [hself])
    (fun u hu => ?_) ?_ (fun _ _ => Iff.rfl) ?_ (fun _ _ _ => Iff.rfl) (fun i => ?_) ?_
    h.waiting_nodup h.waiters_nodup (fun p hp => ?_) (fun _ _ => rfl) (by decide)
    (h.only_of_ne hother (by rw [hself]; simp) rfl) (fun heq => absurd heq hidle) rfl
  · exact mem_insert_ordered.trans (or_iff_right hu)
  · exact iff_of_true (mem_insert_ordered.mpr (Or.inl rfl)) rfl
  · exact iff_of_false (h.not_waiting (by rw [helem]; decide)) (by decide)
  · exact iff_of_false (h.not_waiters (by rw [helem]; simp)) (by simp)
  · exact nodup_insert_ordered h.ready_nodup (h.not_ready (by rw [helem]; decide))
  · obtain rfl := Option.some.inj hp
    rfl

/-- A thread on no list gets another status. -/
theorem Lists.set_status {s : Kernel} (h : Lists s) {t : Tid} {x : Status} (hx : x ≠ .unused)
    (hx_run : x ≠ .running) (hx_ready : x = .ready → t = s.idle_thread)
    (helem : (s.thread t).elem = none) :
    Lists (s.set_thread t (fun th => { th with status := x })) := by
  have hself := set_thread_self s t (fun th => { th with status := x })
  have hother := fun u hu => set_thread_of_ne s (t := t) (u := u)
    (fun th => { th with status := x }) hu
  refine h.move t (e := none) hother (by rw [hself]; exact helem) (by rw [hself])
    (fun _ _ => Iff.rfl) ?_ (fun _ _ => Iff.rfl) ?_ (fun _ _ _ => Iff.rfl) (fun i => ?_)
    h.ready_nodup h.waiting_nodup h.waiters_nodup (by rintro p ⟨⟩)
    (fun hr hne => absurd (hx_ready hr) hne) hx
    (h.only_of_ne hother (by rw [hself]; exact hx_run) rfl) (fun _ => rfl) rfl
  · exact iff_of_false (h.not_ready (by rw [helem]; decide)) (by decide)
  · exact iff_of_false (h.not_waiting (by rw [helem]; decide)) (by decide)
  · exact iff_of_false (h.not_waiters (by rw [helem]; simp)) (by simp)

/-- The running thread goes to sleep on a semaphore. -/
theorem Lists.join_waiters {s s' : Kernel} (h : Lists s) {i : SemaId} {t : Tid}
    (less : Tid → Tid → Prop) [DecidableRel less] (ht : (s.thread t).elem = none)
    (hidle : t ≠ s.idle_thread) (hother : ∀ u, u ≠ t → s'.thread u = s.thread u)
    (helem : (s'.thread t).elem = some (.waiters i)) (hstatus : (s'.thread t).status = .blocked)
    (hready : s'.ready_list = s.ready_list) (hwaiting : s'.waiting_list = s.waiting_list)
    (hwaiters : ∀ j, (s'.sema j).waiters =
      if j = i then list_insert_ordered less (s.sema i).waiters t else (s.sema j).waiters)
    (hcur : s'.current = s.current) (hidle_thread : s'.idle_thread = s.idle_thread) :
    Lists s' := by
  refine h.move t hother helem hstatus (fun _ _ => by rw [hready]) ?_
    (fun _ _ => by rw [hwaiting]) ?_ (fun j u hu => ?_) (fun j => ?_) (hready ▸ h.ready_nodup)
    (hwaiting ▸ h.waiting_nodup) (fun j => ?_) (fun p hp => ?_) (by simp) (by decide)
    (h.only_of_ne hother (by rw [hstatus]; decide) hcur) (fun ht => absurd ht hidle)
    hidle_thread
  · rw [hready]
    exact iff_of_false (h.not_ready (by rw [ht]; decide)) (by simp)
  · rw [hwaiting]
    exact iff_of_false (h.not_waiting (by rw [ht]; decide)) (by simp)
  · rw [hwaiters]
    split_ifs with hj
    · rw [hj]
      exact mem_insert_ordered.trans (or_iff_right hu)
    · rfl
  · rw [hwaiters]
    split_ifs with hj
    · rw [hj]
      exact iff_of_true (mem_insert_ordered.mpr (Or.inl rfl)) rfl
    · refine iff_of_false (h.not_waiters (by rw [ht]; simp)) fun heq => hj ?_
      cases heq
      rfl
  · rw [hwaiters]
    split_ifs with hj
    · exact nodup_insert_ordered (h.waiters_nodup i) (h.not_waiters (by rw [ht]; simp))
    · exact h.waiters_nodup j
  · obtain rfl := Option.some.inj hp
    rfl

/-- The running thread goes to sleep for a time. -/
theorem Lists.join_waiting {s s' : Kernel} (h : Lists s) {t : Tid}
    (less : Tid → Tid → Prop) [DecidableRel less] (ht : (s.thread t).elem = none)
    (hidle : t ≠ s.idle_thread) (hother : ∀ u, u ≠ t → s'.thread u = s.thread u)
    (helem : (s'.thread t).elem = some .waiting_list) (hstatus : (s'.thread t).status = .blocked)
    (hready : s'.ready_list = s.ready_list)
    (hwaiting : s'.waiting_list = list_insert_ordered less s.waiting_list t)
    (hsema : s'.sema = s.sema) (hcur : s'.current = s.current)
    (hidle_thread : s'.idle_thread = s.idle_thread) : Lists s' := by
  refine h.move t hother helem hstatus (fun _ _ => by rw [hready]) ?_ (fun u hu => ?_) ?_
    (fun _ _ _ => by rw [hsema]) (fun i => ?_) (hready ▸ h.ready_nodup) ?_
    (hsema ▸ h.waiters_nodup) (fun p hp => ?_) (by simp) (by decide)
    (h.only_of_ne hother (by rw [hstatus]; decide) hcur) (fun ht => absurd ht hidle) hidle_thread
  · rw [hready]
    exact iff_of_false (h.not_ready (by rw [ht]; decide)) (by simp)
  · rw [hwaiting]
    exact mem_insert_ordered.trans (or_iff_right hu)
  · rw [hwaiting]
    exact iff_of_true (mem_insert_ordered.mpr (Or.inl rfl)) rfl
  · rw [hsema]
    exact iff_of_false (h.not_waiters (by rw [ht]; simp)) (by simp)
  · rw [hwaiting]
    exact nodup_insert_ordered h.waiting_nodup (h.not_waiting (by rw [ht]; decide))
  · obtain rfl := Option.some.inj hp
    rfl

theorem mem_dropLast_iff {l : List Tid} {w u : Tid} (hnd : l.Nodup) (hw : l.getLast? = some w) :
    u ∈ l.dropLast ↔ u ≠ w ∧ u ∈ l := by
  obtain ⟨pre, rfl⟩ := List.getLast?_eq_some_iff.mp hw
  rw [List.dropLast_concat]
  have hdis := (List.nodup_append.mp hnd).2.2
  constructor
  · intro hu
    exact ⟨hdis u hu w (List.mem_singleton_self w), List.mem_append_left _ hu⟩
  · rintro ⟨hne, hu⟩
    exact (List.mem_append.mp hu).resolve_right fun h => hne (List.mem_singleton.mp h)

/-- The idle thread sleeps on no list. -/
theorem Lists.ne_idle {s : Kernel} (h : Lists s) {t : Tid} {p : Place}
    (ht : (s.thread t).elem = some p) : t ≠ s.idle_thread := by
  rintro rfl
  rw [h.idle] at ht
  cases ht

/-- A sleeper is taken off the back of `waiters`. -/
theorem Lists.leave_waiters {s s' : Kernel} (h : Lists s) {i : SemaId} {w : Tid}
    (hw : (s.sema i).waiters.getLast? = some w)
    (hother : ∀ u, u ≠ w → s'.thread u = s.thread u) (helem : (s'.thread w).elem = none)
    (hstatus : (s'.thread w).status = (s.thread w).status)
    (hready : s'.ready_list = s.ready_list) (hwaiting : s'.waiting_list = s.waiting_list)
    (hwaiters : ∀ j, (s'.sema j).waiters =
      if j = i then (s.sema i).waiters.dropLast else (s.sema j).waiters)
    (hcur : s'.current = s.current) (hidle_thread : s'.idle_thread = s.idle_thread) :
    Lists s' := by
  have hmem := List.mem_of_getLast? hw
  have hold := (h.waiters i w).mp hmem
  have hblocked := hstatus.trans (h.status w _ hold)
  have hdrop := fun u => mem_dropLast_iff (u := u) (h.waiters_nodup i) hw
  refine h.move w hother helem hblocked (fun _ _ => by rw [hready]) ?_
    (fun _ _ => by rw [hwaiting]) ?_ (fun j u hu => ?_) (fun j => ?_) (hready ▸ h.ready_nodup)
    (hwaiting ▸ h.waiting_nodup) (fun j => ?_) (by rintro p ⟨⟩) (by simp) (by simp)
    (h.only_of_ne hother (by rw [hblocked]; simp) hcur) (fun _ => rfl) hidle_thread
  · rw [hready]
    exact iff_of_false (h.not_ready (by rw [hold]; simp)) (by simp)
  · rw [hwaiting]
    exact iff_of_false (h.not_waiting (by rw [hold]; simp)) (by simp)
  · rw [hwaiters]
    split_ifs with hj
    · rw [hj, hdrop]
      exact and_iff_right hu
    · rfl
  · rw [hwaiters]
    split_ifs with hj
    · exact iff_of_false (fun hw' => ((hdrop w).mp hw').1 rfl) (by simp)
    · refine iff_of_false (h.not_waiters ?_) (by simp)
      rw [hold]
      intro heq
      cases heq
      exact hj rfl
  · rw [hwaiters]
    split_ifs with hj
    · exact (h.waiters_nodup i).sublist (List.dropLast_sublist _)
    · exact h.waiters_nodup j

/-- A sleeper is taken off the front of `waiting_list`. -/
theorem Lists.leave_waiting {s s' : Kernel} (h : Lists s) {w : Tid} {l : List Tid}
    (hl : s.waiting_list = w :: l) (hother : ∀ u, u ≠ w → s'.thread u = s.thread u)
    (helem : (s'.thread w).elem = none) (hstatus : (s'.thread w).status = (s.thread w).status)
    (hready : s'.ready_list = s.ready_list)
    (hwaiting : s'.waiting_list = l) (hsema : s'.sema = s.sema)
    (hcur : s'.current = s.current) (hidle_thread : s'.idle_thread = s.idle_thread) :
    Lists s' := by
  have hold := (h.waiting w).mp (by rw [hl]; exact List.mem_cons_self)
  have hblocked := hstatus.trans (h.status w _ hold)
  have hnd := h.waiting_nodup
  rw [hl] at hnd
  obtain ⟨hw, hnd⟩ := List.nodup_cons.mp hnd
  refine h.move w hother helem hblocked
    (fun _ _ => by rw [hready]) ?_ (fun u hu => ?_) ?_ (fun _ _ _ => by rw [hsema]) (fun i => ?_)
    (hready ▸ h.ready_nodup) (hwaiting ▸ hnd) (hsema ▸ h.waiters_nodup) (by rintro p ⟨⟩)
    (by simp) (by simp) (h.only_of_ne hother (by rw [hblocked]; simp) hcur) (fun _ => rfl)
    hidle_thread
  · rw [hready]
    exact iff_of_false (h.not_ready (by rw [hold]; simp)) (by simp)
  · rw [hwaiting, hl, List.mem_cons, or_iff_right hu]
  · rw [hwaiting]
    exact iff_of_false hw (by simp)
  · rw [hsema]
    exact iff_of_false (h.not_waiters (by rw [hold]; simp)) (by simp)

/-! ## The scheduler -/

/-- What `next_thread_to_run` takes, and from where. -/
theorem next_thread_cases (s : Kernel) :
    (s.ready_list = [] ∧ next_thread_to_run s = (s.idle_thread, s.ready_list)) ∨
    ∃ t, s.ready_list.getLast? = some t ∧ next_thread_to_run s = (t, s.ready_list.dropLast) := by
  unfold next_thread_to_run
  cases hl : s.ready_list.getLast? with
  | none => exact Or.inl ⟨List.getLast?_eq_none_iff.mp hl, rfl⟩
  | some t => exact Or.inr ⟨t, rfl, rfl⟩

theorem Lists.schedule {s s' : Kernel} (h : Lists s) (hs : schedule s = .ok s') :
    SchedInv s' := by
  have heq := schedule_eq hs
  have hself : s'.thread (next_thread_to_run s).1 =
      { s.thread (next_thread_to_run s).1 with status := .running, elem := none } := by
    rw [heq]
    exact Function.update_self _ _ _
  have hother : ∀ u, u ≠ (next_thread_to_run s).1 → s'.thread u = s.thread u := by
    intro u hu
    rw [heq]
    exact Function.update_of_ne hu _ _
  have hcur : s'.current = (next_thread_to_run s).1 := by rw [heq]
  have hlist : s'.ready_list = (next_thread_to_run s).2 := by rw [heq]
  have hwaiting : s'.waiting_list = s.waiting_list := by rw [heq]; rfl
  have hsema : s'.sema = s.sema := by rw [heq]; rfl
  have hidle : s'.idle_thread = s.idle_thread := by rw [heq]; rfl
  -- `ASSERT (cur->status != THREAD_RUNNING)`, and no other thread runs
  have hstopped : ∀ u, (s.thread u).status ≠ .running := by
    intro u hu
    unfold Machine.schedule at hs
    obtain ⟨_, hassert, -⟩ := bind_eq_ok hs
    have := h.only u hu
    subst this
    exact ASSERT_eq_ok hassert hu
  refine ⟨?_, ?_, ?_⟩
  · -- the thread taken was on `ready_list`, or it is the idle thread and on no list
    have hplace : (s.thread (next_thread_to_run s).1).elem = none ∨
        (s.thread (next_thread_to_run s).1).elem = some .ready_list := by
      rcases next_thread_cases s with ⟨-, hn⟩ | ⟨t, ht, hn⟩
      · rw [hn]
        exact Or.inl h.idle
      · rw [hn]
        exact Or.inr ((h.ready t).mp (List.mem_of_getLast? ht))
    have hmem : ∀ u, u ∈ (next_thread_to_run s).2 ↔
        u ≠ (next_thread_to_run s).1 ∧ u ∈ s.ready_list := by
      intro u
      rcases next_thread_cases s with ⟨hl, hn⟩ | ⟨t, ht, hn⟩
      · rw [hn, hl]
        simp
      · rw [hn]
        exact mem_dropLast_iff h.ready_nodup ht
    have hnd : (next_thread_to_run s).2.Nodup := by
      rcases next_thread_cases s with ⟨-, hn⟩ | ⟨t, ht, hn⟩
      · rw [hn]
        exact h.ready_nodup
      · rw [hn]
        exact h.ready_nodup.sublist (List.dropLast_sublist _)
    refine h.move (next_thread_to_run s).1 (e := none) (x := .running) hother (by rw [hself])
      (by rw [hself]) (fun u hu => ?_) ?_ (fun _ _ => by rw [hwaiting]) ?_
      (fun _ _ _ => by rw [hsema]) (fun i => ?_) (hlist ▸ hnd) (hwaiting ▸ h.waiting_nodup)
      (hsema ▸ h.waiters_nodup) (by rintro p ⟨⟩) (by simp) (by decide) (fun u hu => ?_)
      (fun _ => rfl) hidle
    · rw [hlist, hmem]
      exact and_iff_right hu
    · rw [hlist]
      exact iff_of_false (fun ht => ((hmem _).mp ht).1 rfl) (by simp)
    · rw [hwaiting]
      refine iff_of_false (h.not_waiting ?_) (by simp)
      rcases hplace with hp | hp <;> rw [hp] <;> decide
    · rw [hsema]
      refine iff_of_false (h.not_waiters ?_) (by simp)
      rcases hplace with hp | hp <;> rw [hp] <;> simp
    · rw [hcur]
      by_contra hne
      rw [hother u hne] at hu
      exact hstopped u hu
  · show (s'.thread s'.current).status = .running
    rw [hcur, hself]
  · show (s'.thread s'.current).elem = none
    rw [hcur, hself]

theorem SchedInv.thread_yield {s s' : Kernel} (h : SchedInv s)
    (hs : thread_yield s = .ok s') : SchedInv s' := by
  unfold Machine.thread_yield at hs
  obtain ⟨-, -, hs⟩ := bind_eq_ok hs
  dsimp only at hs
  split_ifs at hs with hidle
  · exact (h.lists.set_status (by decide) (by decide) (fun _ => hidle) h.unlinked).schedule hs
  · obtain ⟨r, hr, hs⟩ := bind_eq_ok hs
    exact (h.lists.make_ready hidle hr).schedule hs

/-- `thread_block` of a thread that was put where it sleeps. -/
theorem Lists.thread_block {s s' : Kernel} {t : Tid} (hs : thread_block s = .ok s')
    (hcur : s.current = t)
    (h : Lists (s.set_thread t (fun th => { th with status := .blocked }))) : SchedInv s' := by
  unfold Machine.thread_block at hs
  obtain ⟨-, -, hs⟩ := bind_eq_ok hs
  rw [hcur] at hs
  exact h.schedule hs

theorem SchedInv.thread_block {s s' : Kernel} (h : SchedInv s)
    (hs : thread_block s = .ok s') : SchedInv s' :=
  Lists.thread_block hs rfl (h.lists.set_status (by decide) (by decide) (by simp) h.unlinked)

/-- A change that spares the running thread. -/
theorem SchedInv.of_cur {s s' : Kernel} (h : SchedInv s) (hlists : Lists s')
    (hcur : s'.cur = s.cur) : SchedInv s' := by
  refine ⟨hlists, ?_, ?_⟩
  · rw [hcur]
    exact h.running
  · rw [hcur]
    exact h.unlinked

theorem SchedInv.make_ready {s s' : Kernel} (h : SchedInv s) {t : Tid} (hidle : t ≠ s.idle_thread)
    (ht : (s.thread t).status ≠ .running) (hs : make_ready s t = .ok s') : SchedInv s' := by
  have hlists := h.lists.make_ready hidle hs
  obtain ⟨-, rfl⟩ := make_ready_eq hs
  have hne : s.current ≠ t := fun heq => ht (heq ▸ h.running)
  exact h.of_cur hlists (Function.update_of_ne hne _ _)

theorem SchedInv.thread_unblock {s s' : Kernel} (h : SchedInv s) {t : Tid}
    (hidle : t ≠ s.idle_thread) (hs : thread_unblock s t = .ok s') : SchedInv s' := by
  unfold Machine.thread_unblock at hs
  obtain ⟨_, hblocked, hs⟩ := bind_eq_ok hs
  obtain ⟨r, hr, hs⟩ := bind_eq_ok hs
  obtain ⟨-, -, hs⟩ := bind_eq_ok hs
  have ht : (s.thread t).status ≠ .running := by
    rw [ASSERT_eq_ok hblocked]
    decide
  have hready := h.make_ready hidle ht hr
  split_ifs at hs
  · exact hready.thread_yield hs
  · obtain rfl := Except.ok.inj hs
    exact hready

/-! ## Semaphores and the timer -/

/-- The running thread is on no list, so it is not the thread at hand. -/
theorem SchedInv.current_ne {s : Kernel} (h : SchedInv s) {t : Tid} {p : Place}
    (ht : (s.thread t).elem = some p) : s.current ≠ t := by
  rintro rfl
  rw [show (s.thread s.current).elem = none from h.unlinked] at ht
  cases ht

/-- `sema_up` before the sleeper is woken. -/
theorem SchedInv.leave_waiters {s : Kernel} (h : SchedInv s) {i : SemaId} {w : Tid}
    {f : Semaphore → Semaphore} (hf : ∀ x, (f x).waiters = x.waiters.dropLast)
    (hw : (s.sema i).waiters.getLast? = some w) :
    SchedInv ((s.set_sema i f).set_thread w (fun th => { th with elem := none })) := by
  have hmem := (h.lists.waiters i w).mp (List.mem_of_getLast? hw)
  have hself := set_thread_self (s.set_sema i f) w (fun th => { th with elem := none })
  have hother := fun u hu => set_thread_of_ne (s.set_sema i f) (t := w) (u := u)
    (fun th => { th with elem := none }) hu
  refine h.of_cur ?_ (hother _ (h.current_ne hmem))
  refine h.lists.leave_waiters hw hother (by rw [hself]) (by rw [hself]; rfl) rfl rfl
    (fun j => ?_) rfl rfl
  show ((s.set_sema i f).sema j).waiters = _
  rw [set_sema_apply]
  split_ifs
  · exact hf _
  · rfl

theorem SchedInv.sema_up {s s' : Kernel} (h : SchedInv s) {i : SemaId}
    (hs : sema_up s i = .ok s') : SchedInv s' := by
  unfold Machine.sema_up at hs
  cases hw : (s.sema i).waiters.getLast? with
  | none =>
    rw [hw] at hs
    obtain rfl := Except.ok.inj hs
    refine h.calm ⟨rfl, rfl, fun j => ?_, fun _ => rfl, fun _ => Or.inl rfl, rfl, rfl⟩
    rw [set_sema_apply]
    split_ifs with hj
    · rw [hj]
    · rfl
  | some w =>
    rw [hw] at hs
    have hmem := (h.lists.waiters i w).mp (List.mem_of_getLast? hw)
    refine (h.leave_waiters (f := fun x => { x with
      value := x.value + 1
      ups := x.ups + 1
      waiters := x.waiters.dropLast
      removed := x.removed ++ [w] }) (fun _ => rfl) hw).thread_unblock ?_ hs
    exact h.lists.ne_idle hmem

theorem Calm.push (s : Kernel) (l : List Stmt) : Calm s (s.push l) := by
  have hframe := (Frame.refl s .thread_yield).push l
  have hthread := ThreadFrame.push (fun t => ThreadFrame.refl .thread_yield (s.thread t)) l
  exact ⟨hframe.ready_list, hframe.waiting_list (by simp), fun i => by rw [push_sema],
    fun t => (hthread t).elem, fun t => Or.inl (hthread t).status, hframe.current,
    hframe.idle_thread⟩

theorem SchedInv.sema_down {s s' : Kernel} (h : SchedInv s)
    (hidle : s.in_external_intr = false → s.current ≠ s.idle_thread) {i : SemaId}
    (hs : sema_down s i = .ok s') : SchedInv s' := by
  unfold Machine.sema_down at hs
  obtain ⟨_, hctx, hs⟩ := bind_eq_ok hs
  split_ifs at hs with hzero helem
  · have hcalm := Calm.push s [.sema_retest i]
    have hpush := h.calm hcalm
    refine Lists.thread_block hs hcalm.current ?_
    rw [set_thread_twice]
    have hself := set_thread_self ((s.push [.sema_retest i]).set_sema i (fun x => { x with
      waiters := list_insert_ordered s.less_priority x.waiters s.current })) s.current
        (fun th => { th with elem := some (.waiters i), status := .blocked })
    refine hpush.lists.join_waiters s.less_priority (i := i) (t := s.current) ?_ ?_
      (fun u hu => set_thread_of_ne _ _ hu) (by rw [hself]) (by rw [hself])
      rfl rfl (fun j => ?_) rfl rfl
    · rw [← hcalm.current]
      exact hpush.unlinked
    · rw [hcalm.idle_thread]
      exact hidle (ASSERT_eq_ok hctx)
    · refine (congrArg Semaphore.waiters (Function.update_apply _ _ _ _)).trans ?_
      split_ifs <;> rfl
  · obtain rfl := Except.ok.inj hs
    refine h.calm ⟨rfl, rfl, fun j => ?_, fun _ => rfl, fun _ => Or.inl rfl, rfl, rfl⟩
    rw [set_sema_apply]
    split_ifs with hj
    · rw [hj]
    · rfl

theorem SchedInv.sleep_until {s s' : Kernel} (h : SchedInv s)
    (hidle : s.current ≠ s.idle_thread) {n : ℤ} (hs : sleep_until s n = .ok s') :
    SchedInv s' := by
  unfold Machine.sleep_until at hs
  dsimp only at hs
  split_ifs at hs with helem
  refine Lists.thread_block hs rfl ?_
  refine h.lists.join_waiting
    (s.set_thread s.current (fun th => { th with waking_time := n })).less_waking_time
    (t := s.current) h.unlinked hidle (fun u hu => ?_) ?_ ?_ rfl rfl rfl rfl rfl
  · refine (Function.update_of_ne hu _ _).trans ?_
    exact (Function.update_of_ne hu _ _).trans (Function.update_of_ne hu _ _)
  · simp only [Kernel.set_thread, Function.update_self]
  · simp only [Kernel.set_thread, Function.update_self]

/-- One thread is woken by the timer. -/
theorem SchedInv.wake_one {s s' : Kernel} (h : SchedInv s) {t front : Tid} {l : List Tid}
    (hw : s.waiting_list = front :: l) (hidle : t ≠ s.idle_thread)
    (hblocked : (s.thread t).status = .blocked)
    (hs : Machine.make_ready { (s.set_thread front (fun th => { th with elem := none })) with
      waiting_list := l } t = .ok s') : SchedInv s' := by
  have hfront := (h.lists.waiting front).mp (by rw [hw]; exact List.mem_cons_self)
  have hself := set_thread_self s front (fun th => { th with elem := none })
  have hother := fun u hu => set_thread_of_ne s (t := front) (u := u)
    (fun th => { th with elem := none }) hu
  have hleave : SchedInv { (s.set_thread front (fun th => { th with elem := none })) with
      waiting_list := l } := by
    refine h.of_cur ?_ (hother _ (h.current_ne hfront))
    exact h.lists.leave_waiting hw hother (by rw [hself]) (by rw [hself]) rfl rfl rfl rfl rfl
  refine hleave.make_ready hidle ?_ hs
  show ((s.set_thread front (fun th => { th with elem := none })).thread t).status ≠ .running
  rw [set_thread_apply]
  split_ifs with htf
  · rw [← htf, hblocked]
    decide
  · rw [hblocked]
    decide

theorem SchedInv.wake_from {s s' : Kernel} (h : SchedInv s) {l : List Tid}
    (hl : ∀ t ∈ l, t ≠ s.idle_thread) (hs : wake_from l s = .ok s') : SchedInv s' := by
  induction l generalizing s with
  | nil =>
    obtain rfl := Except.ok.inj hs
    exact h
  | cons t rest ih =>
    have hrest : ∀ u ∈ rest, u ≠ s.idle_thread := fun u hu => hl u (List.mem_cons_of_mem t hu)
    unfold Machine.wake_from at hs
    split_ifs at hs with hdue
    · cases hw : s.waiting_list with
      | nil =>
        rw [hw] at hs
        cases hs
      | cons front waiting_list =>
        rw [hw] at hs
        obtain ⟨r, hr, hs⟩ := bind_eq_ok hs
        have hready := h.wake_one hw (hl t List.mem_cons_self) hdue.2 hr
        have hidle : r.idle_thread = s.idle_thread := (make_ready_switch hr).idle_thread
        exact ih hready (by rw [hidle]; exact hrest) hs
    · exact ih h hrest hs

end Pintos.Threads.Machine
