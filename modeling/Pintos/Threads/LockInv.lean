/-
Every operation on a lock keeps `LockInv`.

A state that an operation reaches is described by its fields first (`sleep_on`,
`take_lock`, `Donated`, `Released`); the invariant is then read off the fields.
-/
import Pintos.Threads.NestedDonation

set_option autoImplicit false

namespace Pintos.Threads

open StepSystem Links

/-! ## What each operation does to the invariant -/

/-- `t` on the list of a lock, asleep. -/
def sleep_on (s : LockSys) (t : Tid) (m : LockId) (waiters : List Tid) : LockSys :=
  (s.set_lock m (fun l => { l with waiters := waiters })).set_thread t
    (fun th => { th with phase := .blocked m })

/-- `t` with the lock, outside `lock_acquire`. -/
def take_lock (s : LockSys) (t : Tid) (m : LockId) : LockSys :=
  (s.set_lock m (fun l => { l with value := l.value - 1, holder := some t })).set_thread t
    (fun th => { th with phase := .free })

theorem acquire_tail_eq (s : LockSys) (t : Tid) (m : LockId) : acquire_tail s t m =
    if (s.lock m).value = 0 then
      sleep_on s t m (list_insert_ordered (less_priority s) (s.lock m).waiters t)
    else take_lock s t m := rfl

section Moves

variable (s : LockSys) (t u : Tid) (m n : LockId) (w : List Tid)

theorem sleep_on_thread : (sleep_on s t m w).thread u =
    if u = t then { s.thread t with phase := .blocked m } else s.thread u :=
  set_thread_thread _ _ _ _

theorem sleep_on_lock : (sleep_on s t m w).lock n =
    if n = m then { s.lock m with waiters := w } else s.lock n :=
  set_lock_lock s m n (fun l => { l with waiters := w })

@[simp] theorem sleep_on_phase : ((sleep_on s t m w).thread u).phase =
    if u = t then .blocked m else (s.thread u).phase := by
  rw [sleep_on_thread, apply_ite Thread.phase]

@[simp] theorem sleep_on_live : ((sleep_on s t m w).thread u).live = (s.thread u).live := by
  rw [sleep_on_thread]
  grind

@[simp] theorem sleep_on_holded_by :
    ((sleep_on s t m w).thread u).holded_by = (s.thread u).holded_by := by
  rw [sleep_on_thread]
  grind

@[simp] theorem sleep_on_possessing_locks :
    ((sleep_on s t m w).thread u).possessing_locks = (s.thread u).possessing_locks := by
  rw [sleep_on_thread]
  grind

@[simp] theorem sleep_on_priority : (sleep_on s t m w).priority u = s.priority u := by
  unfold LockSys.priority
  rw [sleep_on_thread]
  grind

@[simp] theorem sleep_on_original_priority :
    ((sleep_on s t m w).thread u).original_priority = (s.thread u).original_priority := by
  rw [sleep_on_thread]
  grind

@[simp] theorem sleep_on_holder : (sleep_on s t m w).holder n = s.holder n := by
  unfold LockSys.holder
  rw [sleep_on_lock]
  grind

@[simp] theorem sleep_on_value : ((sleep_on s t m w).lock n).value = (s.lock n).value := by
  rw [sleep_on_lock]
  grind

@[simp] theorem sleep_on_waiters : ((sleep_on s t m w).lock n).waiters =
    if n = m then w else (s.lock n).waiters := by
  rw [sleep_on_lock, apply_ite Lock.waiters]

theorem take_lock_thread : (take_lock s t m).thread u =
    if u = t then { s.thread t with phase := .free } else s.thread u :=
  set_thread_thread _ _ _ _

theorem take_lock_lock : (take_lock s t m).lock n = if n = m then
    { s.lock m with value := (s.lock m).value - 1, holder := some t } else s.lock n :=
  set_lock_lock s m n (fun l => { l with value := l.value - 1, holder := some t })

@[simp] theorem take_lock_phase : ((take_lock s t m).thread u).phase =
    if u = t then .free else (s.thread u).phase := by
  rw [take_lock_thread, apply_ite Thread.phase]

@[simp] theorem take_lock_live : ((take_lock s t m).thread u).live = (s.thread u).live := by
  rw [take_lock_thread]
  grind

@[simp] theorem take_lock_holded_by :
    ((take_lock s t m).thread u).holded_by = (s.thread u).holded_by := by
  rw [take_lock_thread]
  grind

@[simp] theorem take_lock_possessing_locks :
    ((take_lock s t m).thread u).possessing_locks = (s.thread u).possessing_locks := by
  rw [take_lock_thread]
  grind

@[simp] theorem take_lock_priority : (take_lock s t m).priority u = s.priority u := by
  unfold LockSys.priority
  rw [take_lock_thread]
  grind

@[simp] theorem take_lock_original_priority :
    ((take_lock s t m).thread u).original_priority = (s.thread u).original_priority := by
  rw [take_lock_thread]
  grind

@[simp] theorem take_lock_holder : (take_lock s t m).holder n =
    if n = m then some t else s.holder n := by
  unfold LockSys.holder
  rw [take_lock_lock, apply_ite Lock.holder]

@[simp] theorem take_lock_value : ((take_lock s t m).lock n).value =
    if n = m then (s.lock m).value - 1 else (s.lock n).value := by
  rw [take_lock_lock, apply_ite Lock.value]

@[simp] theorem take_lock_waiters :
    ((take_lock s t m).lock n).waiters = (s.lock n).waiters := by
  rw [take_lock_lock]
  grind

end Moves

theorem walk_next_sleep_on (s : LockSys) (t : Tid) (m : LockId) (w : List Tid) :
    walk_next (sleep_on s t m w) = walk_next s := by
  funext u
  unfold walk_next
  simp only [sleep_on_holded_by, sleep_on_holder]

/-- Going to sleep on a lock that is held. -/
theorem LockInv.sleep {s : LockSys} (hinv : LockInv s) {t : Tid} {m : LockId}
    {w : List Tid} (hlive : (s.thread t).live = true)
    (hawake : ∀ n, (s.thread t).phase ≠ .blocked n) (hw : w.Perm (t :: (s.lock m).waiters)) :
    LockInv (sleep_on s t m w) := by
  have hnb := hinv.not_linked hawake
  have hnew : ∀ n, t ∉ (s.lock n).waiters := by
    intro n hmem
    exact hawake n ((hinv.waiter n t).mp hmem)
  constructor
  · simpa using hinv.value
  · intro n u
    have := hinv.waiter n u
    have := hw.mem_iff (a := u)
    simp only [sleep_on_waiters, sleep_on_phase]
    grind
  · intro n
    simp only [sleep_on_waiters]
    split_ifs
    · rw [hw.nodup_iff]
      exact List.nodup_cons.mpr ⟨hnew m, hinv.nodup m⟩
    · exact hinv.nodup n
  · intro u n hu
    simp only [sleep_on_holded_by, sleep_on_phase, sleep_on_holder, sleep_on_possessing_locks] at hu ⊢
    have := hinv.linked u n hu
    grind
  · simpa using hinv.recorded
  · simpa using hinv.sorted
  · simpa using hinv.live
  · intro u hu
    have := hinv.ended u
    simp only [sleep_on_live, sleep_on_phase] at hu ⊢
    grind
  · rw [walk_next_sleep_on]
    exact hinv.ranked

/-- Taking a lock that is free. -/
theorem LockInv.take {s : LockSys} (hinv : LockInv s) {t : Tid} {m : LockId}
    (hlive : (s.thread t).live = true) (hawake : ∀ n, (s.thread t).phase ≠ .blocked n)
    (hm : s.holder m = none) : LockInv (take_lock s t m) := by
  -- nobody is linked to a free lock, so the walk does not change
  have hlinked : ∀ u n, (s.thread u).holded_by = some n → n ≠ m := by
    rintro u n hu rfl
    obtain ⟨-, v, hv, -⟩ := hinv.linked u n hu
    rw [hm] at hv
    cases hv
  have hwalk : walk_next (take_lock s t m) = walk_next s := by
    funext u
    unfold walk_next
    rw [take_lock_holded_by]
    cases hu : (s.thread u).holded_by with
    | none => rfl
    | some n => simp only [Option.bind_some, take_lock_holder, if_neg (hlinked u n hu)]
  have hvalue := hinv.value
  constructor
  · intro n
    have := hvalue n
    simp only [take_lock_value, take_lock_holder]
    grind
  · intro n u
    have := hinv.waiter n u
    simp only [take_lock_waiters, take_lock_phase]
    grind
  · simpa using hinv.nodup
  · intro u n hu
    rw [take_lock_holded_by] at hu
    have := hinv.linked u n hu
    have := hlinked u n hu
    simp only [take_lock_phase, take_lock_holder, take_lock_possessing_locks]
    grind
  · intro u e he
    rw [take_lock_possessing_locks] at he
    have := hinv.recorded u e he
    simp only [take_lock_holder, take_lock_holded_by]
    grind
  · simpa using hinv.sorted
  · intro n u hu
    have := hinv.live n u
    simp only [take_lock_holder, take_lock_live] at hu ⊢
    grind
  · intro u hu
    have := hinv.ended u
    simp only [take_lock_live, take_lock_phase] at hu ⊢
    grind
  · rw [hwalk]
    exact hinv.ranked

instance : Std.Total less_lock_priority := ⟨fun a b => le_total a.priority b.priority⟩

instance : IsTrans LockElem less_lock_priority := ⟨fun _ _ _ => le_trans⟩

/-- A record and a link for a sleeper that had none. -/
theorem LockInv.link {s : LockSys} (hinv : LockInv s) {t low : Tid} {m : LockId}
    (hne : low ≠ t) (hlow : s.holder m = some low) (hblocked : (s.thread t).phase = .blocked m)
    (hends : ¬ OnWalk s low t) : LockInv (donation_start s t low m) := by
  have hthread := donation_start_thread hne (s := s) (m := m)
  have hlock : (donation_start s t low m).lock = s.lock := rfl
  have hholder : ∀ n, (donation_start s t low m).holder n = s.holder n := fun _ => rfl
  have hmem : ∀ e, e ∈ list_insert_ordered less_lock_priority (s.thread low).possessing_locks
      ⟨s.priority t, m, t⟩ ↔ e = ⟨s.priority t, m, t⟩ ∨ e ∈ (s.thread low).possessing_locks := by
    intro e
    rw [(list_insert_ordered_perm _ _ _).mem_iff, List.mem_cons]
  constructor
  · simpa only [hlock, hholder] using hinv.value
  · intro n u
    have := hinv.waiter n u
    rw [hlock, hthread]
    exact this
  · simpa only [hlock] using hinv.nodup
  · intro u n hu
    simp only [hthread, hholder] at hu ⊢
    by_cases hut : u = t
    · rw [if_pos hut] at hu
      obtain rfl := Option.some.inj hu
      subst hut
      refine ⟨hblocked, low, hlow, ⟨s.priority u, m, u⟩, ?_, rfl, rfl⟩
      rw [if_pos rfl]
      exact (hmem _).mpr (Or.inl rfl)
    · rw [if_neg hut] at hu
      obtain ⟨hphase, v, hv, e, he, hrec⟩ := hinv.linked u n hu
      refine ⟨hphase, v, hv, e, ?_, hrec⟩
      split_ifs with hvl
      · subst hvl
        exact (hmem e).mpr (Or.inr he)
      · exact he
  · intro u e he
    -- an older record of `t` would be for the lock it is asleep on
    have hold : ∀ n, (s.thread t).holded_by = some n → n = m := by
      intro n hn
      have hn' := (hinv.linked t n hn).1
      rw [hblocked] at hn'
      exact (Phase.blocked.inj hn').symm
    have := hinv.recorded u e
    simp only [hthread, hholder] at he ⊢
    grind
  · intro u
    have := hinv.sorted u
    rw [hthread]
    dsimp only
    split_ifs with hu
    · subst hu
      exact List.Pairwise.orderedInsert _ _ this
    · exact this
  · intro n u hu
    rw [hthread]
    exact hinv.live n u hu
  · intro u hu
    rw [hthread] at hu ⊢
    exact hinv.ended u hu
  · rw [donation_start_walk_next hne hlow]
    exact hinv.ranked.add hends

/-! ## `lock_release` -/

theorem unlink_lock (l : List LockElem) (s : LockSys) : (unlink l s).lock = s.lock := by
  induction l generalizing s with
  | nil => rfl
  | cons e l ih =>
    unfold unlink
    rw [ih]
    rfl

theorem unlink_thread (l : List LockElem) (s : LockSys) (u : Tid) : (unlink l s).thread u =
    if u ∈ l.map LockElem.locked_thread then { s.thread u with holded_by := none }
    else s.thread u := by
  induction l generalizing s with
  | nil => rfl
  | cons e l ih =>
    unfold unlink
    rw [ih, set_thread_thread, List.map_cons]
    by_cases hue : u = e.locked_thread
    · rw [if_pos hue, if_pos (List.mem_cons.mpr (Or.inl hue)), ← hue]
      split_ifs <;> rfl
    · rw [if_neg hue]
      have hiff : u ∈ e.locked_thread :: l.map LockElem.locked_thread
          ↔ u ∈ l.map LockElem.locked_thread := by
        rw [List.mem_cons, or_iff_right hue]
      simp only [hiff]

/-- What `lock_release` has done. -/
structure Released (s : LockSys) (t : Tid) (m : LockId) (s' : LockSys) : Prop where
  held : s.holder m = some t
  lock : ∀ n, s'.lock n = if n = m then
    ⟨none, (s.lock m).value + 1, (s.lock m).waiters.dropLast⟩ else s.lock n
  live : ∀ u, (s'.thread u).live = (s.thread u).live
  phase : ∀ u, (s'.thread u).phase =
    if (s.lock m).waiters.getLast? = some u then .woken m else (s.thread u).phase
  holded_by : ∀ u, (s'.thread u).holded_by =
    if (s.thread u).holded_by = some m then none else (s.thread u).holded_by
  possessing_locks : ∀ u, (s'.thread u).possessing_locks =
    if u = t then (s.thread t).possessing_locks.filter (fun e => e.lock ≠ m)
    else (s.thread u).possessing_locks
  original_priority : ∀ u, (s'.thread u).original_priority = (s.thread u).original_priority
  priority : ∀ u, s'.priority u =
    if u = t ∧ (s.thread t).possessing_locks ≠ [] ∧ (s.lock m).waiters ≠ [] then
      match ((s.thread t).possessing_locks.filter (fun e => e.lock ≠ m)).getLast? with
      | none => (s.thread t).original_priority
      | some e => e.priority
    else s.priority u

/-- `sema_up`, field by field. -/
theorem sema_up_lock (s : LockSys) (m n : LockId) : (sema_up s m).lock n = if n = m then
    { s.lock m with value := (s.lock m).value + 1, waiters := (s.lock m).waiters.dropLast }
    else s.lock n := by
  unfold sema_up
  dsimp only
  split
  · rw [set_lock_lock]
  · rw [set_thread_lock, set_lock_lock]

theorem sema_up_thread (s : LockSys) (m : LockId) (u : Tid) : (sema_up s m).thread u =
    if (s.lock m).waiters.getLast? = some u then { s.thread u with phase := .woken m }
    else s.thread u := by
  unfold sema_up
  dsimp only
  cases hw : (s.lock m).waiters.getLast? with
  | none => rfl
  | some w =>
    dsimp only
    rw [set_thread_thread]
    by_cases hu : u = w
    · subst hu
      rw [if_pos rfl, if_pos rfl]
      rfl
    · rw [if_neg hu, if_neg (fun h => hu (Option.some.inj h).symm)]
      rfl

/-- The records of a lock its holder gives back are exactly those of the threads
linked to it. -/
theorem LockInv.mem_records {s : LockSys} (hinv : LockInv s) {t : Tid} {m : LockId}
    (hm : s.holder m = some t) (u : Tid) :
    u ∈ ((s.thread t).possessing_locks.filter (fun e => e.lock = m)).map LockElem.locked_thread
      ↔ (s.thread u).holded_by = some m := by
  simp only [List.mem_map, List.mem_filter, decide_eq_true_eq]
  constructor
  · rintro ⟨e, ⟨he, rfl⟩, rfl⟩
    exact (hinv.recorded t e he).2
  · intro hu
    obtain ⟨-, v, hv, e, he, hem, heu⟩ := hinv.linked u m hu
    rw [hm] at hv
    obtain rfl := Option.some.inj hv
    exact ⟨e, ⟨he, hem⟩, heu⟩

/-- The threads after the roll-back of `lock_release`. -/
def rolled_back (s : LockSys) (t : Tid) (m : LockId) (u : Tid) : Thread :=
  { s.thread u with
    holded_by := if (s.thread u).holded_by = some m then none else (s.thread u).holded_by
    possessing_locks :=
      if u = t then (s.thread t).possessing_locks.filter (fun e => e.lock ≠ m)
      else (s.thread u).possessing_locks
    priority :=
      if u = t ∧ (s.thread t).possessing_locks ≠ [] ∧ (s.lock m).waiters ≠ [] then
        match ((s.thread t).possessing_locks.filter (fun e => e.lock ≠ m)).getLast? with
        | none => (s.thread t).original_priority
        | some e => e.priority
      else s.priority u }

/-- Where the roll-back is skipped no record is of the lock. -/
theorem LockInv.kept_of_not {s : LockSys} (hinv : LockInv s) {t : Tid} {m : LockId}
    (hskip : ¬ ((s.thread t).possessing_locks ≠ [] ∧ (s.lock m).waiters ≠ [])) :
    (s.thread t).possessing_locks.filter (fun e => e.lock ≠ m)
      = (s.thread t).possessing_locks := by
  rw [List.filter_eq_self]
  intro e he
  rw [decide_eq_true_eq]
  rintro rfl
  have hb := (hinv.recorded t e he).2
  exact hskip ⟨List.ne_nil_of_mem he,
    List.ne_nil_of_mem ((hinv.waiter _ _).mpr (hinv.linked _ _ hb).1)⟩

/-- There is then nothing to roll back. -/
theorem rolled_back_of_not {s : LockSys} (hinv : LockInv s) {t : Tid} {m : LockId}
    (hm : s.holder m = some t)
    (hskip : ¬ ((s.thread t).possessing_locks ≠ [] ∧ (s.lock m).waiters ≠ [])) (u : Tid) :
    rolled_back s t m u = s.thread u := by
  have hnone : (s.thread u).holded_by ≠ some m := by
    intro hu
    obtain ⟨hphase, w, hw, e, he, -⟩ := hinv.linked u m hu
    rw [hm] at hw
    obtain rfl := Option.some.inj hw
    exact hskip ⟨List.ne_nil_of_mem he, List.ne_nil_of_mem ((hinv.waiter m u).mpr hphase)⟩
  unfold rolled_back
  rw [if_neg hnone, hinv.kept_of_not hskip, if_neg (fun h => hskip h.2)]
  split_ifs with hu
  · rw [← hu]
  · rfl

theorem priority_rollback_spec {s : LockSys} (hinv : LockInv s) {t : Tid} {m : LockId}
    (hm : s.holder m = some t) (hfree : (s.thread t).holded_by = none)
    (hposs : (s.thread t).possessing_locks ≠ []) (hw : (s.lock m).waiters ≠ []) :
    let s' := s.set_lock m (fun l => { l with holder := none })
    (priority_rollback s' t m).lock = s'.lock ∧
      ∀ u, (priority_rollback s' t m).thread u = rolled_back s t m u := by
  intro s'
  have hw' : (s'.lock m).waiters ≠ [] := by
    unfold s'
    rw [set_lock_lock, if_pos rfl]
    exact hw
  have hthread : s'.thread = s.thread := rfl
  have hrec := hinv.mem_records hm
  unfold priority_rollback
  rw [if_neg hw']
  refine ⟨unlink_lock _ _, fun u => ?_⟩
  simp only [set_thread_thread, unlink_thread, hthread, hrec]
  unfold rolled_back
  have ht : (s.thread t).holded_by ≠ some m := by
    rw [hfree]
    exact fun h => Option.some_ne_none _ h.symm
  by_cases hu : u = t
  · subst hu
    rewrite [if_pos rfl, if_pos rfl, if_neg ht, if_neg ht, if_pos ⟨rfl, hposs, hw⟩]
    rfl
  · simp only [hu, false_and, if_false]
    split_ifs <;> rfl

/-- **`lock_release`.** Where the roll-back is skipped there was no record of the
lock to remove, so the list of donations ends up without the lock in every case. -/
theorem lock_release_spec {s s' : LockSys} (hinv : LockInv s) {t : Tid} {m : LockId}
    (hrun : s.Runs t) (h : lock_release s t m = .ok s') : Released s t m s' := by
  unfold lock_release at h
  obtain ⟨_, hassert, h⟩ := bind_eq_ok h
  have hm := ASSERT_eq_ok hassert
  have hfree : (s.thread t).holded_by = none := by
    apply hinv.not_linked
    intro n hn
    rw [hrun.2] at hn
    cases hn
  -- the state `sema_up` starts from
  have hmid : ∃ r : LockSys, s' = sema_up r m ∧
      r.lock = (s.set_lock m (fun l => { l with holder := none })).lock ∧
      ∀ u, r.thread u = rolled_back s t m u := by
    refine ⟨_, (Except.ok.inj h).symm, ?_⟩
    rw [set_lock_thread]
    by_cases hposs : (s.thread t).possessing_locks = []
    · rw [if_neg (not_not_intro hposs)]
      exact ⟨rfl, fun u => (rolled_back_of_not hinv hm (fun h => h.1 hposs) u).symm⟩
    · rw [if_pos hposs]
      by_cases hw : (s.lock m).waiters = []
      · unfold priority_rollback
        rw [set_lock_lock, if_pos rfl, if_pos hw]
        exact ⟨rfl, fun u => (rolled_back_of_not hinv hm (fun h => h.2 hw) u).symm⟩
      · exact priority_rollback_spec hinv hm hfree hposs hw
  obtain ⟨r, rfl, hlock, hthread⟩ := hmid
  have hwaiters : (r.lock m).waiters = (s.lock m).waiters := by
    rw [hlock, set_lock_lock, if_pos rfl]
  have hup : ∀ u, (sema_up r m).thread u = if (s.lock m).waiters.getLast? = some u then
      { rolled_back s t m u with phase := .woken m } else rolled_back s t m u := by
    intro u
    rw [sema_up_thread, hwaiters, hthread]
  refine ⟨hm, fun n => ?_, fun u => ?_, fun u => ?_, fun u => ?_, fun u => ?_, fun u => ?_,
    fun u => ?_⟩
  · rw [sema_up_lock, hlock, set_lock_lock, if_pos rfl, set_lock_lock]
    split_ifs <;> rfl
  · rw [hup, apply_ite Thread.live]
    exact ite_self _
  · rw [hup, apply_ite Thread.phase]
    rfl
  · rw [hup, apply_ite Thread.holded_by]
    exact ite_self _
  · rw [hup, apply_ite Thread.possessing_locks]
    exact ite_self _
  · rw [hup, apply_ite Thread.original_priority]
    exact ite_self _
  · unfold LockSys.priority
    rw [hup, apply_ite Thread.priority]
    exact ite_self _

/-- Giving a lock back. -/
theorem LockInv.release {s s' : LockSys} (hinv : LockInv s) {t : Tid} {m : LockId}
    (h : Released s t m s') : LockInv s' := by
  have hholder : ∀ n, s'.holder n = if n = m then none else s.holder n := by
    intro n
    unfold LockSys.holder
    rw [h.lock, apply_ite Lock.holder]
  have hwaiters : ∀ n, (s'.lock n).waiters =
      if n = m then (s.lock m).waiters.dropLast else (s.lock n).waiters := by
    intro n
    rw [h.lock, apply_ite Lock.waiters]
  -- the thread that is woken leaves the list, and was on no other
  have hback : ∀ u, (s.lock m).waiters.getLast? = some u →
      (s.thread u).phase = .blocked m ∧ u ∉ (s.lock m).waiters.dropLast := by
    intro u hu
    obtain ⟨l, hl⟩ := List.getLast?_eq_some_iff.mp hu
    have hnd := hinv.nodup m
    refine ⟨(hinv.waiter m u).mp (List.mem_of_getLast? hu), ?_⟩
    rw [hl] at hnd ⊢
    rw [List.dropLast_concat]
    grind
  have hdrop : ∀ u, u ∈ (s.lock m).waiters → (s.lock m).waiters.getLast? ≠ some u →
      u ∈ (s.lock m).waiters.dropLast := by
    intro u hu hne
    have hnil := List.ne_nil_of_mem hu
    rw [← List.dropLast_append_getLast hnil] at hu
    rw [List.getLast?_eq_some_getLast hnil] at hne
    grind
  constructor
  · intro n
    have := hinv.value n
    have hv : (s'.lock n).value = if n = m then (s.lock m).value + 1 else (s.lock n).value := by
      rw [h.lock, apply_ite Lock.value]
    have := h.held
    rw [hv, hholder]
    grind
  · intro n u
    have := hinv.waiter n u
    have := hback u
    have := hdrop u
    have := List.mem_of_mem_dropLast (a := u) (l := (s.lock m).waiters)
    rw [hwaiters, h.phase]
    grind
  · intro n
    rw [hwaiters]
    split_ifs
    · exact (hinv.nodup m).sublist (List.dropLast_sublist _)
    · exact hinv.nodup n
  · intro u n hu
    rw [h.holded_by] at hu
    split_ifs at hu with hum
    obtain ⟨hphase, v, hv, e, he, hen, heu⟩ := hinv.linked u n hu
    have hnm : n ≠ m := by
      rintro rfl
      exact hum hu
    rw [h.phase, hholder, if_neg hnm]
    refine ⟨?_, v, hv, e, ?_, hen, heu⟩
    · rw [if_neg, hphase]
      intro hlast
      have := (hback u hlast).1
      rw [hphase] at this
      exact hnm (Phase.blocked.inj this)
    · rw [h.possessing_locks]
      split_ifs with hvt
      · subst hvt
        rw [List.mem_filter, decide_eq_true_eq, hen]
        exact ⟨he, hnm⟩
      · exact he
  · intro u e he
    rw [h.possessing_locks] at he
    rw [hholder, h.holded_by]
    have hmem : e ∈ (s.thread u).possessing_locks ∧ e.lock ≠ m := by
      split_ifs at he with hut
      · subst hut
        simpa using he
      · refine ⟨he, ?_⟩
        rintro rfl
        have := (hinv.recorded u e he).1
        rw [h.held] at this
        exact hut (Option.some.inj this).symm
    obtain ⟨hh, hb⟩ := hinv.recorded u e hmem.1
    rw [if_neg hmem.2, if_neg]
    · exact ⟨hh, hb⟩
    · rw [hb]
      exact fun heq => hmem.2 (Option.some.inj heq)
  · intro u
    rw [h.possessing_locks]
    split_ifs
    · exact (hinv.sorted t).filter _
    · exact hinv.sorted u
  · intro n u hu
    rw [hholder] at hu
    rw [h.live]
    split_ifs at hu
    exact hinv.live n u hu
  · intro u hu
    rw [h.live] at hu
    have hfree := hinv.ended u hu
    rw [h.phase, if_neg, hfree]
    intro hlast
    have := (hback u hlast).1
    rw [hfree] at this
    cases this
  · -- links are only taken away
    apply hinv.ranked.mono
    intro x y hxy
    unfold walk_next at hxy ⊢
    obtain ⟨n, hn, hy⟩ := Option.bind_eq_some_iff.mp hxy
    rw [h.holded_by] at hn
    rw [hholder] at hy
    split_ifs at hn
    split_ifs at hy
    rw [hn]
    exact hy

/-! ## `lock_acquire` -/

/-- What `lock_acquire` can do up to where the thread sleeps or returns. -/
theorem lock_acquire_cases {s s' : LockSys} (hinv : LockInv s) {t : Tid} {m : LockId}
    {fuel : ℕ} (hrun : s.Runs t) (h : lock_acquire fuel s t m = .ok s') :
    (s.holder m = none ∧ s' = take_lock s t m) ∨
    (∃ low, s.holder m = some low ∧ low ≠ t ∧ ¬ s.priority low < s.priority t ∧
      s' = sleep_on s t m (list_insert_ordered (less_priority s) (s.lock m).waiters t)) ∨
    (∃ low r, s.holder m = some low ∧ low ≠ t ∧ s.priority low < s.priority t ∧
      Donated s t low m r ∧
      s' = sleep_on r t m (list_insert_ordered (less_priority r) (s.lock m).waiters t)) := by
  unfold lock_acquire at h
  obtain ⟨_, hassert, h⟩ := bind_eq_ok h
  obtain ⟨r, hr, h⟩ := bind_eq_ok h
  obtain rfl := Except.ok.inj h
  have hne := ASSERT_eq_ok hassert
  have hvalue := hinv.value m
  unfold donate at hr
  cases hm : s.holder m with
  | none =>
    rw [hm] at hr
    obtain rfl := Except.ok.inj hr
    rw [hm, if_pos rfl] at hvalue
    refine Or.inl ⟨rfl, ?_⟩
    rw [acquire_tail_eq, if_neg (by omega)]
  | some low =>
    rw [hm, if_neg (Option.some_ne_none _)] at hvalue
    have hlow : low ≠ t := by
      rintro rfl
      exact hne hm
    simp only [hm] at hr
    by_cases hp : s.priority low < s.priority t
    · rw [if_pos hp] at hr
      have hfree : walk_next s t = none := by
        unfold walk_next
        rw [hinv.not_linked (fun n hn => by rw [hrun.2] at hn; cases hn)]
        rfl
      have hd := priority_donation_spec hlow hm hfree hr
      refine Or.inr (Or.inr ⟨low, r, rfl, hlow, hp, hd, ?_⟩)
      rw [acquire_tail_eq, hd.lock, if_pos hvalue]
    · rw [if_neg hp] at hr
      obtain rfl := Except.ok.inj hr
      refine Or.inr (Or.inl ⟨low, rfl, hlow, hp, ?_⟩)
      rw [acquire_tail_eq, if_pos hvalue]

/-- Sleeping after a donation is the link on top of the sleep. -/
theorem Donated.sameLinks {s r : LockSys} {t low : Tid} {m : LockId} (h : Donated s t low m r)
    (hne : low ≠ t) (w : List Tid) :
    SameLinks (donation_start (sleep_on s t m w) t low m) (sleep_on r t m w) := by
  have hp : (sleep_on s t m w).priority t = s.priority t := by
    unfold LockSys.priority
    rw [sleep_on_thread, if_pos rfl]
  refine ⟨?_, fun u => ?_, fun u => ?_, fun u => ?_⟩
  · show (sleep_on r t m w).lock = (sleep_on s t m w).lock
    funext n
    rw [sleep_on_lock, sleep_on_lock, h.lock]
  · rw [donation_start_thread hne, sleep_on_phase, h.thread]
    simp only [sleep_on_phase]
  · rw [donation_start_thread hne, sleep_on_possessing_locks, h.thread, hp]
    simp only [sleep_on_possessing_locks]
  · rw [donation_start_thread hne, sleep_on_holded_by, h.thread]
    simp only [sleep_on_holded_by]

theorem LockInv.acquire {s s' : LockSys} (hinv : LockInv s) {t : Tid} {m : LockId} {fuel : ℕ}
    (hrun : s.Runs t) (h : lock_acquire fuel s t m = .ok s') : LockInv s' := by
  have hawake : ∀ n, (s.thread t).phase ≠ .blocked n := by
    intro n hn
    rw [hrun.2] at hn
    cases hn
  rcases lock_acquire_cases hinv hrun h with ⟨hm, rfl⟩ | ⟨low, hm, hne, -, rfl⟩ |
    ⟨low, r, hm, hne, -, hd, rfl⟩
  · exact hinv.take hrun.1 hawake hm
  · exact hinv.sleep hrun.1 hawake (list_insert_ordered_perm _ _ _)
  · have hslept := hinv.sleep (m := m) hrun.1 hawake
      (list_insert_ordered_perm (less_priority r) (s.lock m).waiters t)
    have hwalk := walk_next_sleep_on s t m
      (list_insert_ordered (less_priority r) (s.lock m).waiters t)
    refine (hslept.link hne ?_ ?_ ?_).congr (hd.sameLinks hne _) fun u => Or.inl ?_
    · rw [sleep_on_holder]
      exact hm
    · rw [sleep_on_phase, if_pos rfl]
    · unfold OnWalk
      rw [hwalk]
      exact hd.ends
    · rw [donation_start_thread hne, sleep_on_live, hd.thread]
      simp only [sleep_on_live]

/-! ## Runs -/

theorem LockInv.init {s : LockSys} (h : lock_system.init s) : LockInv s := by
  obtain ⟨hthread, hlock⟩ := h
  constructor
  · intro m
    unfold LockSys.holder
    rw [hlock]
    rfl
  · intro m t
    simp [hlock, hthread]
  · intro m
    simp [hlock]
  · intro t m ht
    simp [hthread] at ht
  · intro u e he
    simp [hthread] at he
  · intro u
    simp [hthread]
  · intro m t ht
    unfold LockSys.holder at ht
    rw [hlock] at ht
    cases ht
  · intro t _
    simp [hthread]
  · refine ⟨fun _ => 0, fun x y hxy => ?_⟩
    simp [walk_next, hthread] at hxy

/-- A thread that holds no lock has no record. -/
theorem LockInv.no_records {s : LockSys} (hinv : LockInv s) {t : Tid}
    (h : ∀ m, s.holder m ≠ some t) : (s.thread t).possessing_locks = [] := by
  apply List.eq_nil_iff_forall_not_mem.mpr
  intro e he
  exact h _ (hinv.recorded t e he).1

/-- `acquire_tail` on its own is what a woken thread does. -/
theorem LockInv.resume {s : LockSys} (hinv : LockInv s) {t : Tid} {m : LockId}
    (hlive : (s.thread t).live = true) (hawake : ∀ n, (s.thread t).phase ≠ .blocked n) :
    LockInv (acquire_tail s t m) := by
  have hvalue := hinv.value m
  rw [acquire_tail_eq]
  split_ifs with hv
  · exact hinv.sleep hlive hawake (list_insert_ordered_perm _ _ _)
  · apply hinv.take hlive hawake
    by_contra hm
    rw [if_neg hm] at hvalue
    exact hv hvalue

theorem LockInv.try_acquire {s s' : LockSys} (hinv : LockInv s) {t : Tid} {m : LockId}
    (hrun : s.Runs t) (h : lock_try_acquire s t m = .ok s') : LockInv s' := by
  unfold lock_try_acquire at h
  obtain ⟨_, -, h⟩ := bind_eq_ok h
  obtain rfl := Except.ok.inj h
  have hvalue := hinv.value m
  split_ifs with hv
  · have hm : s.holder m = none := by
      by_contra hm
      rw [if_neg hm] at hvalue
      omega
    have hawake : ∀ n, (s.thread t).phase ≠ .blocked n := by
      intro n hn
      rw [hrun.2] at hn
      cases hn
    -- the phase the lock is taken with is the phase the thread is in
    have hsame : SameLinks (take_lock s t m)
        (s.set_lock m (fun l => { l with value := l.value - 1, holder := some t })) := by
      refine ⟨rfl, fun u => ?_, fun u => ?_, fun u => ?_⟩
      · rw [take_lock_phase]
        split_ifs with hu
        · rw [hu]
          exact hrun.2
        · rfl
      · rw [take_lock_possessing_locks]
        rfl
      · rw [take_lock_holded_by]
        rfl
    refine (hinv.take hrun.1 hawake hm).congr hsame fun u => Or.inl ?_
    rw [take_lock_live]
    rfl
  · exact hinv

/-- **Every step keeps the invariant.** -/
theorem LockInv.step {s s' : LockSys} {e : LockOp} (hinv : LockInv s) (h : lock_step s e s') :
    LockInv s' := by
  cases e with
  | create t p =>
    obtain ⟨hdead, hinit⟩ := h
    unfold init_thread at hinit
    obtain ⟨_, -, hinit⟩ := bind_eq_ok hinit
    obtain rfl := Except.ok.inj hinit
    -- a thread that does not exist is outside `lock_acquire` and holds nothing
    have hphase := hinv.ended t hdead
    have hnone : ∀ m, s.holder m ≠ some t := by
      intro m hm
      rw [hinv.live m t hm] at hdead
      cases hdead
    have hheld : (s.thread t).holded_by = none :=
      hinv.not_linked (fun m hm => by rw [hphase] at hm; cases hm)
    refine hinv.congr (SameLinks.set_thread hphase.symm (hinv.no_records hnone).symm hheld.symm)
      fun u => ?_
    by_cases hu : u = t
    · rw [hu]
      exact Or.inr ⟨hphase, hnone⟩
    · rw [set_thread_thread, if_neg hu]
      exact Or.inl rfl
  | acquire t m =>
    obtain ⟨hrun, fuel, h⟩ := h
    exact hinv.acquire hrun h
  | resume t m =>
    obtain ⟨hwoken, rfl⟩ := h
    apply hinv.resume
    · by_contra hdead
      rw [Bool.not_eq_true] at hdead
      rw [hinv.ended t hdead] at hwoken
      cases hwoken
    · intro n hn
      rw [hn] at hwoken
      cases hwoken
  | try_acquire t m => exact hinv.try_acquire h.1 h.2
  | release t m => exact hinv.release (lock_release_spec hinv h.1 h.2)
  | set_priority t n =>
    obtain ⟨-, rfl⟩ := h
    unfold thread_set_priority
    split_ifs
    all_goals
      refine hinv.congr (SameLinks.set_thread rfl rfl rfl) fun u => Or.inl ?_
      rw [set_thread_thread]
      split_ifs with hu
      · rw [hu]
      · rfl
  | exit t =>
    obtain ⟨hrun, hnone, rfl⟩ := h
    refine hinv.congr (SameLinks.set_thread rfl (hinv.no_records hnone).symm rfl) fun u => ?_
    by_cases hu : u = t
    · rw [hu]
      exact Or.inr ⟨hrun.2, hnone⟩
    · rw [thread_exit, set_thread_thread, if_neg hu]
      exact Or.inl rfl

/-- Every run reaches only states with the invariant. -/
theorem lock_inv_of_reachable {ok : LockSys → LockOp → Prop} {s : LockSys}
    (hr : Reachable lock_system ok s) : LockInv s :=
  hr.invariant (fun _ h => LockInv.init h) (fun _ _ _ hinv _ h => hinv.step h)

/-- The state before the first thread is created. -/
def boot_state : LockSys := ⟨fun _ => ⟨false, .free, 0, 0, [], none⟩, fun _ => ⟨none, 1, []⟩⟩

theorem reachable_boot_state {ok : LockSys → LockOp → Prop} :
    Reachable lock_system ok boot_state := .init ⟨fun _ => rfl, fun _ => rfl⟩

end Pintos.Threads
