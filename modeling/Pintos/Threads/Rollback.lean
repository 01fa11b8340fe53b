/-
Roll-back on `lock_release`: when the priority a thread is left with is the largest
of its own and of those of the threads that still wait for it.

The donations on record are a picture of the waiters that is taken when a donor
blocks. `RollbackOk` says, operation by operation, when the picture does not go out
of date; `PriorityInv` is what then holds in every state of a run.
-/
import Pintos.Threads.Donation

set_option autoImplicit false

namespace Pintos.Threads

open StepSystem Links

/-! ## The condition on the steps of a run -/

/-- `w` sleeps on a lock of `t`. -/
def WaitsFor (s : LockSys) (w t : Tid) : Prop :=
  ∃ n, (s.thread w).phase = .blocked n ∧ s.holder n = some t

/-- What `t` should have: its own priority or that of a thread that waits for it. -/
def entitled (s : LockSys) (t : Tid) : Set ℤ :=
  { p | p = (s.thread t).original_priority ∨ ∃ w, WaitsFor s w t ∧ p = s.priority w }

/-- No sleeper on a lock that `t` takes is above it: none of them is on record with `t`. -/
def TakeOk (s : LockSys) (t : Tid) (m : LockId) : Prop :=
  ∀ w ∈ (s.lock m).waiters, s.priority w ≤ s.priority t

/-- `p` covers what is left for `t` without the lock `m`. -/
def Covers (s : LockSys) (t : Tid) (m : LockId) (p : ℤ) : Prop :=
  ∀ w n, n ≠ m → (s.thread w).phase = .blocked n → s.holder n = some t → s.priority w ≤ p

/-- The condition.
* A lock is taken by a thread that none of its sleepers is above.
* A donation reaches the chain (`DonationOk`). A thread that goes back to sleep after it
  was woken is not above the holder.
* A new base priority is not below a sleeper where there is no record, and not above the
  priority the thread has where there is one.
* When `priority_rollback` goes over the records, the largest one it keeps is not below
  the base priority and covers the remaining sleepers; where it keeps none, the base
  priority covers them. -/
def RollbackOk (s : LockSys) : LockOp → Prop
  | .create _ _ => True
  | .acquire t m =>
    match s.holder m with
    | none => TakeOk s t m
    | some h => DonationOk s t h
  | .resume t m =>
    match s.holder m with
    | none => TakeOk s t m
    | some h => s.priority t ≤ s.priority h
  | .try_acquire t m => s.holder m = none → TakeOk s t m
  | .release t m => (s.thread t).possessing_locks ≠ [] → (s.lock m).waiters ≠ [] →
    match ((s.thread t).possessing_locks.filter (fun e => e.lock ≠ m)).getLast? with
    | none => Covers s t m (s.thread t).original_priority
    | some e => (s.thread t).original_priority ≤ e.priority ∧ Covers s t m e.priority
  | .set_priority t n =>
    if (s.thread t).possessing_locks = [] then ∀ w, WaitsFor s w t → s.priority w ≤ n
    else n ≤ s.priority t
  | .exit _ => True

/-! ## The invariant -/

/-- A thread has no less than its base priority and than those who wait for it. It has
the base priority where no donation is on record, and else the priority of a donor. A
record does not say more than the donor has. -/
structure PriorityInv (s : LockSys) : Prop where
  base : ∀ t, (s.thread t).original_priority ≤ s.priority t
  waits : ∀ w t, WaitsFor s w t → s.priority w ≤ s.priority t
  plain : ∀ t, (s.thread t).possessing_locks = [] →
    s.priority t = (s.thread t).original_priority
  donor : ∀ t, (s.thread t).possessing_locks ≠ [] →
    ∃ e ∈ (s.thread t).possessing_locks, s.priority e.locked_thread = s.priority t
  current : ∀ t, ∀ e ∈ (s.thread t).possessing_locks, e.priority ≤ s.priority e.locked_thread

theorem SameLinks.waitsFor {s s' : LockSys} (h : SameLinks s s') {w t : Tid} :
    WaitsFor s' w t ↔ WaitsFor s w t := by
  unfold WaitsFor LockSys.holder
  rw [h.phase, h.lock]

/-- A thread on record waits. -/
theorem LockInv.waitsFor {s : LockSys} (hinv : LockInv s) {t : Tid} {e : LockElem}
    (he : e ∈ (s.thread t).possessing_locks) : WaitsFor s e.locked_thread t := by
  obtain ⟨hh, hb⟩ := hinv.recorded t e he
  exact ⟨e.lock, (hinv.linked _ _ hb).1, hh⟩

/-- With the invariant, the priority of a thread is the largest it is entitled to. -/
theorem PriorityInv.isGreatest {s : LockSys} (hinv : LockInv s) (hp : PriorityInv s) (t : Tid) :
    IsGreatest (entitled s t) (s.priority t) := by
  constructor
  · by_cases hposs : (s.thread t).possessing_locks = []
    · exact Or.inl (hp.plain t hposs)
    · obtain ⟨e, he, heq⟩ := hp.donor t hposs
      exact Or.inr ⟨e.locked_thread, hinv.waitsFor he, heq.symm⟩
  · rintro p (rfl | ⟨w, hw, rfl⟩)
    · exact hp.base t
    · exact hp.waits w t hw

/-! ## What each operation does to it -/

/-- Where no priority and no record changes, only the new sleepers matter. -/
theorem PriorityInv.of_same {s s' : LockSys} (hp : PriorityInv s)
    (hpri : ∀ t, s'.priority t = s.priority t)
    (hbase : ∀ t, (s'.thread t).original_priority = (s.thread t).original_priority)
    (hposs : ∀ t, (s'.thread t).possessing_locks = (s.thread t).possessing_locks)
    (hwaits : ∀ w t, WaitsFor s' w t → s.priority w ≤ s.priority t) : PriorityInv s' := by
  constructor
  · intro t
    rw [hpri, hbase]
    exact hp.base t
  · intro w t hw
    rw [hpri, hpri]
    exact hwaits w t hw
  · intro t ht
    rw [hposs] at ht
    rw [hpri, hbase]
    exact hp.plain t ht
  · intro t ht
    rw [hposs] at ht ⊢
    simp only [hpri]
    exact hp.donor t ht
  · intro t e he
    rw [hposs] at he
    rw [hpri]
    exact hp.current t e he

theorem PriorityInv.take {s : LockSys} (hp : PriorityInv s) (hinv : LockInv s) {t : Tid}
    {m : LockId} (hok : TakeOk s t m) : PriorityInv (take_lock s t m) := by
  apply hp.of_same (by simp) (by simp) (by simp)
  rintro w u ⟨n, hphase, hholder⟩
  rw [take_lock_phase] at hphase
  rw [take_lock_holder] at hholder
  split_ifs at hphase
  split_ifs at hholder with hn
  · -- a sleeper that now waits for `t`
    obtain rfl := Option.some.inj hholder
    subst hn
    exact hok w ((hinv.waiter n w).mpr hphase)
  · exact hp.waits w u ⟨n, hphase, hholder⟩

theorem PriorityInv.sleep {s : LockSys} (hp : PriorityInv s) {t low : Tid} {m : LockId}
    {l : List Tid} (hlow : s.holder m = some low) (hle : s.priority t ≤ s.priority low) :
    PriorityInv (sleep_on s t m l) := by
  apply hp.of_same (by simp) (by simp) (by simp)
  rintro w u ⟨n, hphase, hholder⟩
  rw [sleep_on_phase] at hphase
  rw [sleep_on_holder] at hholder
  split_ifs at hphase with hw
  · obtain rfl := Phase.blocked.inj hphase
    rw [hlow] at hholder
    obtain rfl := Option.some.inj hholder
    rw [hw]
    exact hle
  · exact hp.waits w u ⟨n, hphase, hholder⟩

/-- A thread on the walk, other than its start, was donated to by one before it. -/
theorem LockInv.donor_of_onWalk {s : LockSys} (hinv : LockInv s) {a t : Tid}
    (h : OnWalk s a t) (hne : t ≠ a) :
    ∃ w, OnWalk s a w ∧ ∃ e ∈ (s.thread t).possessing_locks, e.locked_thread = w := by
  rcases Relation.ReflTransGen.cases_tail h with heq | ⟨w, haw, hwt⟩
  · exact absurd heq hne
  · unfold walk_next at hwt
    obtain ⟨n, hn, ht⟩ := Option.bind_eq_some_iff.mp hwt
    obtain ⟨-, u, hu, e, he, -, hew⟩ := hinv.linked w n hn
    rw [ht] at hu
    obtain rfl := Option.some.inj hu
    exact ⟨w, haw, e, he, hew⟩

section Donated

variable {s r : LockSys} (hp : PriorityInv s) (hinv : LockInv s) {t low : Tid} {m : LockId}
  (hd : Donated s t low m r) (hwalk : ∀ u, OnWalk s low u → s.priority u ≤ s.priority t)

include hd hwalk in
/-- No priority goes down. -/
theorem Donated.priority_le (u : Tid) : s.priority u ≤ r.priority u := by
  by_cases hu : OnWalk s low u
  · rw [hd.priority_of_onWalk hu]
    exact hwalk u hu
  · rw [hd.priority_of_not hu]

include hp hinv hd in
/-- Who has a donation on record after a donation has the priority of a donor. -/
theorem Donated.donor {u : Tid} (hu : (r.thread u).possessing_locks ≠ []) :
    ∃ e ∈ (r.thread u).possessing_locks, r.priority e.locked_thread = r.priority u := by
  by_cases hul : u = low
  · subst hul
    refine ⟨_, (hd.mem_records _).mpr (Or.inl ⟨rfl, rfl⟩), ?_⟩
    rw [hd.priority_of_onWalk (Reaches.refl u)]
    exact hd.priority_of_not hd.ends
  · by_cases huw : OnWalk s low u
    · obtain ⟨w, hw, e, he, rfl⟩ := hinv.donor_of_onWalk huw hul
      refine ⟨e, (hd.mem_records e).mpr (Or.inr he), ?_⟩
      rw [hd.priority_of_onWalk huw, hd.priority_of_onWalk hw]
    · obtain ⟨e, he⟩ := List.exists_mem_of_ne_nil _ hu
      have hposs : (s.thread u).possessing_locks ≠ [] :=
        List.ne_nil_of_mem (((hd.mem_records e).mp he).resolve_left (fun h => hul h.1))
      obtain ⟨e', he', heq⟩ := hp.donor u hposs
      refine ⟨e', (hd.mem_records e').mpr (Or.inr he'), ?_⟩
      -- the donor is linked to `u`, so it is not on the walk either
      have hoff : ¬ OnWalk s low e'.locked_thread := by
        intro hon
        obtain ⟨hh, hb⟩ := hinv.recorded u e' he'
        apply huw
        refine hon.tail ?_
        unfold walk_next
        rw [hb]
        exact hh
      rw [hd.priority_of_not huw, hd.priority_of_not hoff, heq]

include hp hinv hd in
/-- Who has none is not on the walk. -/
theorem Donated.plain {u : Tid} (hu : (r.thread u).possessing_locks = []) :
    r.priority u = (r.thread u).original_priority := by
  have hnone : (s.thread u).possessing_locks = [] := by
    rw [List.eq_nil_iff_forall_not_mem] at hu ⊢
    exact fun e he => hu e ((hd.mem_records e).mpr (Or.inr he))
  have hlow : u ≠ low := by
    intro hul
    have hmem := (hd.mem_records (u := u) ⟨s.priority t, m, t⟩).mpr (Or.inl ⟨hul, rfl⟩)
    rw [hu] at hmem
    cases hmem
  have hoff : ¬ OnWalk s low u := by
    intro hon
    obtain ⟨w, -, e, he, -⟩ := hinv.donor_of_onWalk hon hlow
    rw [hnone] at he
    cases he
  rw [hd.priority_of_not hoff, hd.thread]
  exact hp.plain u hnone

include hp hinv hd hwalk in
/-- A thread that waited for another is still not above it. -/
theorem Donated.waits
    (hrest : ∀ u, OnChain s low u → ¬ OnWalk s low u → s.priority t ≤ s.priority u)
    {w u : Tid} (h : WaitsFor s w u) : r.priority w ≤ r.priority u := by
  by_cases hww : OnWalk s low w
  · rw [hd.priority_of_onWalk hww]
    by_cases huw : OnWalk s low u
    · rw [hd.priority_of_onWalk huw]
    · rw [hd.priority_of_not huw]
      -- `u` is the next on the chain
      refine hrest u ((hinv.onChain_of_onWalk hww).tail ?_) huw
      obtain ⟨n, hphase, hholder⟩ := h
      unfold chain_next
      rw [hphase]
      exact hholder
  · rw [hd.priority_of_not hww]
    exact (hp.waits w u h).trans (hd.priority_le hwalk u)

end Donated

/-- Sleeping with a donation. -/
theorem PriorityInv.donate {s r : LockSys} (hp : PriorityInv s) (hinv : LockInv s)
    {t low : Tid} {m : LockId} {l : List Tid} (hlow : s.holder m = some low)
    (hlt : s.priority low < s.priority t) (hok : DonationOk s t low)
    (hd : Donated s t low m r) : PriorityInv (sleep_on r t m l) := by
  obtain ⟨hwalk, hrest⟩ : (∀ u, OnWalk s low u → s.priority u ≤ s.priority t) ∧
      ∀ u, OnChain s low u → ¬ OnWalk s low u → s.priority t ≤ s.priority u := by
    rcases hok with hall | ⟨-, -, hwalk, hrest⟩
    · exact absurd hlt (not_lt.mpr (hall low (Reaches.refl low)))
    · exact ⟨hwalk, hrest⟩
  constructor
  · intro u
    rw [sleep_on_original_priority, sleep_on_priority, hd.thread]
    exact (hp.base u).trans (hd.priority_le hwalk u)
  · rintro w u ⟨n, hphase, hholder⟩
    rw [sleep_on_phase, hd.thread] at hphase
    rw [sleep_on_holder] at hholder
    unfold LockSys.holder at hholder
    rw [hd.lock] at hholder
    rw [sleep_on_priority, sleep_on_priority]
    by_cases hw : w = t
    · -- the donor waits for the holder, which has its priority
      rw [if_pos hw] at hphase
      obtain rfl := Phase.blocked.inj hphase
      have hu : u = low := Option.some.inj (hholder.symm.trans hlow)
      rw [hw, hu, hd.priority_of_onWalk (Reaches.refl low), hd.priority_of_not hd.ends]
    · rw [if_neg hw] at hphase
      exact hd.waits hp hinv hwalk hrest ⟨n, hphase, hholder⟩
  · intro u hu
    rw [sleep_on_possessing_locks] at hu
    rw [sleep_on_original_priority, sleep_on_priority]
    exact hd.plain hp hinv hu
  · intro u hu
    rw [sleep_on_possessing_locks] at hu ⊢
    simp only [sleep_on_priority]
    exact hd.donor hp hinv hu
  · intro u e he
    rw [sleep_on_possessing_locks] at he
    rw [sleep_on_priority]
    rcases (hd.mem_records e).mp he with ⟨-, rfl⟩ | he
    · exact hd.priority_le hwalk t
    · exact (hp.current u e he).trans (hd.priority_le hwalk _)

/-- A thread that is awake changes its own priority and gives up records. -/
theorem PriorityInv.change_one {s s' : LockSys} (hp : PriorityInv s) (hinv : LockInv s) {t : Tid}
    (hawake : ∀ n, (s.thread t).phase ≠ .blocked n)
    (hpri : ∀ u, u ≠ t → s'.priority u = s.priority u)
    (hbase : ∀ u, u ≠ t → (s'.thread u).original_priority = (s.thread u).original_priority)
    (hposs : ∀ u, u ≠ t → (s'.thread u).possessing_locks = (s.thread u).possessing_locks)
    (hsub : ∀ e ∈ (s'.thread t).possessing_locks, e ∈ (s.thread t).possessing_locks)
    (hwaits : ∀ w u, WaitsFor s' w u → WaitsFor s w u)
    (hbt : (s'.thread t).original_priority ≤ s'.priority t)
    (hwt : ∀ w, WaitsFor s' w t → s.priority w ≤ s'.priority t)
    (hplain : (s'.thread t).possessing_locks = [] →
      s'.priority t = (s'.thread t).original_priority)
    (hdonor : (s'.thread t).possessing_locks ≠ [] →
      ∃ e ∈ (s'.thread t).possessing_locks, s.priority e.locked_thread = s'.priority t) :
    PriorityInv s' := by
  -- nobody that waits, and so nobody on record, is `t`
  have hw : ∀ w u, WaitsFor s w u → w ≠ t := by
    rintro w u ⟨n, hphase, -⟩ rfl
    exact hawake n hphase
  have hrec : ∀ u, ∀ e ∈ (s.thread u).possessing_locks, e.locked_thread ≠ t :=
    fun u e he => hw _ u (hinv.waitsFor he)
  have hmem : ∀ u, ∀ e ∈ (s'.thread u).possessing_locks, e ∈ (s.thread u).possessing_locks := by
    intro u e he
    by_cases hu : u = t
    · subst hu
      exact hsub e he
    · rw [hposs u hu] at he
      exact he
  constructor
  · intro u
    by_cases hu : u = t
    · rw [hu]
      exact hbt
    · rw [hpri u hu, hbase u hu]
      exact hp.base u
  · intro w u h
    have h' := hwaits w u h
    rw [hpri w (hw w u h')]
    by_cases hu : u = t
    · rw [hu] at h ⊢
      exact hwt w h
    · rw [hpri u hu]
      exact hp.waits w u h'
  · intro u h
    by_cases hu : u = t
    · rw [hu] at h ⊢
      exact hplain h
    · rw [hposs u hu] at h
      rw [hpri u hu, hbase u hu]
      exact hp.plain u h
  · intro u h
    by_cases hu : u = t
    · rw [hu] at h ⊢
      obtain ⟨e, he, heq⟩ := hdonor h
      exact ⟨e, he, by rw [hpri _ (hrec t e (hsub e he)), heq]⟩
    · rw [hposs u hu] at h ⊢
      obtain ⟨e, he, heq⟩ := hp.donor u h
      exact ⟨e, he, by rw [hpri _ (hrec u e he), hpri u hu, heq]⟩
  · intro u e he
    have he' := hmem u e he
    rw [hpri _ (hrec u e he')]
    exact hp.current u e he'

section Released

variable {s s' : LockSys} (hp : PriorityInv s) (hinv : LockInv s) {t : Tid} {m : LockId}
  (h : Released s t m s')

include h in
/-- Who waits after the release waited before it, on another lock. -/
theorem Released.waitsFor {w u : Tid} (hw : WaitsFor s' w u) :
    ∃ n, n ≠ m ∧ (s.thread w).phase = .blocked n ∧ s.holder n = some u := by
  obtain ⟨n, hphase, hu⟩ := hw
  unfold LockSys.holder at hu
  rw [h.lock] at hu
  rw [h.phase] at hphase
  split_ifs at hu with hn
  split_ifs at hphase
  exact ⟨n, hn, hphase, hu⟩

include hp hinv h in
/-- **The thread that released the lock.** It has what it is entitled to, and where it
keeps records it has the priority of a donor. -/
theorem Released.self (hok : RollbackOk s (.release t m)) :
    (s.thread t).original_priority ≤ s'.priority t ∧
    (∀ w, WaitsFor s' w t → s.priority w ≤ s'.priority t) ∧
    ((s'.thread t).possessing_locks = [] → s'.priority t = (s.thread t).original_priority) ∧
    ((s'.thread t).possessing_locks ≠ [] →
      ∃ e ∈ (s'.thread t).possessing_locks, s.priority e.locked_thread = s'.priority t) := by
  have hkept := h.possessing_locks t
  rw [if_pos rfl] at hkept
  rw [hkept, h.priority]
  by_cases hroll : (s.thread t).possessing_locks ≠ [] ∧ (s.lock m).waiters ≠ []
  · rw [if_pos ⟨rfl, hroll⟩]
    have hcov := hok hroll.1 hroll.2
    cases hlast : ((s.thread t).possessing_locks.filter (fun e => e.lock ≠ m)).getLast? with
    | none =>
      rw [hlast] at hcov
      refine ⟨le_rfl, fun w hw => ?_, fun _ => rfl, fun hne => ?_⟩
      · obtain ⟨n, hn, hphase, hholder⟩ := h.waitsFor hw
        exact hcov w n hn hphase hholder
      · exact absurd (List.getLast?_eq_none_iff.mp hlast) hne
    | some e =>
      rw [hlast] at hcov
      obtain ⟨hbase, hcov⟩ := hcov
      have hmem := List.mem_of_getLast? hlast
      refine ⟨hbase, fun w hw => ?_, fun hnil => ?_, fun _ => ⟨e, hmem, ?_⟩⟩
      · obtain ⟨n, hn, hphase, hholder⟩ := h.waitsFor hw
        exact hcov w n hn hphase hholder
      · rw [hnil] at hmem
        cases hmem
      · -- the record does not say more than its donor has, and covers it
        obtain ⟨he, hem⟩ := List.mem_filter.mp hmem
        rw [decide_eq_true_eq] at hem
        obtain ⟨hh, hb⟩ := hinv.recorded t e he
        exact le_antisymm (hcov _ _ hem (hinv.linked _ _ hb).1 hh) (hp.current t e he)
  · rw [if_neg (fun hc => hroll hc.2), hinv.kept_of_not hroll]
    refine ⟨hp.base t, fun w hw => ?_, hp.plain t, hp.donor t⟩
    obtain ⟨n, -, hphase, hholder⟩ := h.waitsFor hw
    exact hp.waits w t ⟨n, hphase, hholder⟩

include hp hinv h in
theorem PriorityInv.release (hrun : s.Runs t) (hok : RollbackOk s (.release t m)) :
    PriorityInv s' := by
  have hawake : ∀ n, (s.thread t).phase ≠ .blocked n := by
    intro n hn
    rw [hrun.2] at hn
    cases hn
  obtain ⟨hbase, hwt, hplain, hdonor⟩ := h.self hp hinv hok
  apply hp.change_one hinv hawake
  · intro u hu
    rw [h.priority, if_neg (fun hc => hu hc.1)]
  · exact fun u _ => h.original_priority u
  · intro u hu
    rw [h.possessing_locks, if_neg hu]
  · intro e he
    rw [h.possessing_locks, if_pos rfl] at he
    exact List.mem_of_mem_filter he
  · intro w u hw
    obtain ⟨n, -, hphase, hholder⟩ := h.waitsFor hw
    exact ⟨n, hphase, hholder⟩
  · rw [h.original_priority]
    exact hbase
  · exact hwt
  · rw [h.original_priority]
    exact hplain
  · exact hdonor

end Released

/-- A thread that is awake changes its own priorities only. -/
theorem PriorityInv.set_thread {s : LockSys} (hp : PriorityInv s) (hinv : LockInv s) {t : Tid}
    {f : Thread → Thread} (hawake : ∀ n, (s.thread t).phase ≠ .blocked n)
    (hsame : SameLinks s (s.set_thread t f))
    (hbase : (f (s.thread t)).original_priority ≤ (f (s.thread t)).priority)
    (hwaits : ∀ w, WaitsFor s w t → s.priority w ≤ (f (s.thread t)).priority)
    (hplain : (s.thread t).possessing_locks = [] →
      (f (s.thread t)).priority = (f (s.thread t)).original_priority)
    (hdonor : (s.thread t).possessing_locks ≠ [] → (f (s.thread t)).priority = s.priority t) :
    PriorityInv (s.set_thread t f) := by
  have hother : ∀ u, u ≠ t → (s.set_thread t f).thread u = s.thread u := by
    intro u hu
    rw [set_thread_thread, if_neg hu]
  have hself : (s.set_thread t f).thread t = f (s.thread t) := by
    rw [set_thread_thread, if_pos rfl]
  have hpri : (s.set_thread t f).priority t = (f (s.thread t)).priority :=
    congrArg Thread.priority hself
  apply hp.change_one hinv hawake
  · exact fun u hu => congrArg Thread.priority (hother u hu)
  · exact fun u hu => congrArg Thread.original_priority (hother u hu)
  · exact fun u hu => congrArg Thread.possessing_locks (hother u hu)
  · intro e he
    rw [hsame.possessing_locks] at he
    exact he
  · exact fun w u => hsame.waitsFor.mp
  · rw [hpri, hself]
    exact hbase
  · intro w hw
    rw [hpri]
    exact hwaits w (hsame.waitsFor.mp hw)
  · intro hnil
    rw [hsame.possessing_locks] at hnil
    rw [hpri, hself]
    exact hplain hnil
  · intro hne
    rw [hsame.possessing_locks] at hne ⊢
    rw [hpri, hdonor hne]
    exact hp.donor t hne

theorem PriorityInv.set_priority {s : LockSys} (hp : PriorityInv s) (hinv : LockInv s) {t : Tid}
    {n : ℤ} (hrun : s.Runs t) (hok : RollbackOk s (.set_priority t n)) :
    PriorityInv (thread_set_priority s t n) := by
  have hawake : ∀ m, (s.thread t).phase ≠ .blocked m := by
    intro m hm
    rw [hrun.2] at hm
    cases hm
  unfold RollbackOk at hok
  dsimp only at hok
  unfold thread_set_priority
  by_cases hposs : (s.thread t).possessing_locks = []
  · rw [if_pos hposs] at hok
    rw [if_neg (not_not_intro hposs)]
    exact hp.set_thread hinv hawake (SameLinks.set_thread rfl rfl rfl) le_rfl hok (fun _ => rfl)
      (fun hne => absurd hposs hne)
  · rw [if_neg hposs] at hok
    rw [if_pos hposs]
    exact hp.set_thread hinv hawake (SameLinks.set_thread rfl rfl rfl) hok (fun w => hp.waits w t)
      (fun hnil => absurd hnil hposs) (fun _ => rfl)

/-! ## Runs -/

theorem PriorityInv.acquire {s s' : LockSys} (hp : PriorityInv s) (hinv : LockInv s) {t : Tid}
    {m : LockId} {fuel : ℕ} (hrun : s.Runs t) (hok : RollbackOk s (.acquire t m))
    (h : lock_acquire fuel s t m = .ok s') : PriorityInv s' := by
  unfold RollbackOk at hok
  dsimp only at hok
  rcases lock_acquire_cases hinv hrun h with ⟨hm, rfl⟩ | ⟨low, hm, -, hlow, rfl⟩ |
    ⟨low, r, hm, -, hlt, hd, rfl⟩
  · rw [hm] at hok
    exact hp.take hinv hok
  · exact hp.sleep hm (not_lt.mp hlow)
  · rw [hm] at hok
    exact hp.donate hinv hm hlt hok hd

theorem PriorityInv.resume {s : LockSys} (hp : PriorityInv s) (hinv : LockInv s) {t : Tid}
    {m : LockId} (hok : RollbackOk s (.resume t m)) : PriorityInv (acquire_tail s t m) := by
  have hvalue := hinv.value m
  unfold RollbackOk at hok
  dsimp only at hok
  rw [acquire_tail_eq]
  cases hm : s.holder m with
  | none =>
    rw [hm] at hok hvalue
    rw [if_pos rfl] at hvalue
    rw [if_neg (by omega)]
    exact hp.take hinv hok
  | some low =>
    rw [hm] at hok hvalue
    rw [if_neg (Option.some_ne_none _)] at hvalue
    rw [if_pos hvalue]
    exact hp.sleep hm hok

theorem PriorityInv.try_acquire {s s' : LockSys} (hp : PriorityInv s) (hinv : LockInv s) {t : Tid}
    {m : LockId} (hrun : s.Runs t) (hok : RollbackOk s (.try_acquire t m))
    (h : lock_try_acquire s t m = .ok s') : PriorityInv s' := by
  unfold lock_try_acquire at h
  obtain ⟨_, -, h⟩ := bind_eq_ok h
  obtain rfl := Except.ok.inj h
  have hvalue := hinv.value m
  split_ifs with hv
  · have hm : s.holder m = none := by
      by_contra hm
      rw [if_neg hm] at hvalue
      omega
    have htake := hp.take hinv (hok hm)
    refine hp.of_same (fun _ => rfl) (fun _ => rfl) (fun _ => rfl) ?_
    rintro w u ⟨n, hphase, hholder⟩
    have hw : WaitsFor (take_lock s t m) w u := by
      refine ⟨n, ?_, hholder⟩
      rw [take_lock_phase, if_neg]
      · exact hphase
      · rintro rfl
        rw [set_lock_thread, hrun.2] at hphase
        cases hphase
    have hle := htake.waits w u hw
    rw [take_lock_priority, take_lock_priority] at hle
    exact hle
  · exact hp

/-- **Every step that meets the condition keeps the invariant.** -/
theorem PriorityInv.step {s s' : LockSys} {e : LockOp} (hp : PriorityInv s) (hinv : LockInv s)
    (hok : RollbackOk s e) (h : lock_step s e s') : PriorityInv s' := by
  cases e with
  | create t p =>
    obtain ⟨hdead, hinit⟩ := h
    unfold init_thread at hinit
    obtain ⟨_, -, hinit⟩ := bind_eq_ok hinit
    obtain rfl := Except.ok.inj hinit
    have hphase := hinv.ended t hdead
    have hawake : ∀ n, (s.thread t).phase ≠ .blocked n := by
      intro n hn
      rw [hphase] at hn
      cases hn
    have hnone : ∀ m, s.holder m ≠ some t := by
      intro m hm
      rw [hinv.live m t hm] at hdead
      cases hdead
    have hposs := hinv.no_records hnone
    refine hp.set_thread hinv hawake
      (SameLinks.set_thread hphase.symm hposs.symm (hinv.not_linked hawake).symm) le_rfl ?_
      (fun _ => rfl) (fun hne => absurd hposs hne)
    rintro w ⟨n, -, hn⟩
    exact absurd hn (hnone n)
  | acquire t m =>
    obtain ⟨hrun, fuel, h⟩ := h
    exact hp.acquire hinv hrun hok h
  | resume t m =>
    obtain ⟨-, rfl⟩ := h
    exact hp.resume hinv hok
  | try_acquire t m => exact hp.try_acquire hinv h.1 hok h.2
  | release t m => exact hp.release hinv (lock_release_spec hinv h.1 h.2) h.1 hok
  | set_priority t n =>
    obtain ⟨hrun, rfl⟩ := h
    exact hp.set_priority hinv hrun hok
  | exit t =>
    obtain ⟨hrun, hnone, rfl⟩ := h
    have hposs := hinv.no_records hnone
    have hawake : ∀ n, (s.thread t).phase ≠ .blocked n := by
      intro n hn
      rw [hrun.2] at hn
      cases hn
    exact hp.set_thread hinv hawake (SameLinks.set_thread rfl hposs.symm rfl) (hp.base t)
      (fun w => hp.waits w t) (hp.plain t) (fun _ => rfl)

theorem PriorityInv.init {s : LockSys} (h : lock_system.init s) : PriorityInv s := by
  obtain ⟨hthread, hlock⟩ := h
  constructor
  · intro t
    simp [LockSys.priority, hthread]
  · rintro w t ⟨n, hphase, -⟩
    simp [hthread] at hphase
  · intro t _
    simp [LockSys.priority, hthread]
  · intro t ht
    simp [hthread] at ht
  · intro t e he
    simp [hthread] at he

theorem priority_inv_of_reachable {s : LockSys} (hr : Reachable lock_system RollbackOk s) :
    LockInv s ∧ PriorityInv s := by
  apply hr.invariant (fun r h => (⟨LockInv.init h, PriorityInv.init h⟩ :
    LockInv r ∧ PriorityInv r))
  exact fun r e r' hinv hok h => ⟨hinv.1.step h, hinv.2.step hinv.1 hok h⟩

/-- `lock_release` returns when the caller holds the lock. -/
theorem lock_release_returns {s : LockSys} {t : Tid} {m : LockId} (hm : s.holder m = some t) :
    ∃ s', lock_release s t m = .ok s' := by
  unfold lock_release
  rw [ASSERT_pos hm, ok_bind]
  exact ⟨_, rfl⟩

/-- **Roll-back on release.** In every state of a run whose steps meet the condition, a
thread that releases a lock, that release meeting the condition too, is left with the
largest of its base priority and of the priorities of the threads that sleep on the
locks it still holds. -/
theorem lock_release_rolls_back {s : LockSys} (hr : Reachable lock_system RollbackOk s) {T : Tid}
    {m : LockId} (hrun : s.Runs T) (hm : s.holder m = some T)
    (hok : RollbackOk s (.release T m)) :
    ∃ s', lock_release s T m = .ok s' ∧ IsGreatest (entitled s' T) (s'.priority T) := by
  obtain ⟨s', h⟩ := lock_release_returns hm
  have hstep : lock_step s (.release T m) s' := ⟨hrun, h⟩
  obtain ⟨hinv, hp⟩ := priority_inv_of_reachable (hr.step hok hstep)
  exact ⟨s', h, hp.isGreatest hinv T⟩

/-- A thread with a donor on each of two locks. Releasing the second leaves it with the
priority of the donor on the first. -/
theorem lock_release_rolls_back_two : ∃ s s', Reachable lock_system RollbackOk s ∧
    s.priority 0 = 50 ∧ lock_release s 0 1 = .ok s' ∧ s'.priority 0 = 40 ∧
    IsGreatest (entitled s' 0) (s'.priority 0) := by
  have r0 : Reachable lock_system RollbackOk boot_state := reachable_boot_state
  have r1 := r0.step (e := LockOp.create 0 31) trivial ⟨rfl, rfl⟩
  have r2 := r1.step (e := LockOp.create 1 40) trivial ⟨rfl, rfl⟩
  have r3 := r2.step (e := LockOp.create 2 50) trivial ⟨rfl, rfl⟩
  have r4 := r3.step (e := LockOp.acquire 0 0) (fun w hw => by cases hw) ⟨⟨rfl, rfl⟩, 9, rfl⟩
  have r5 := r4.step (e := LockOp.acquire 0 1) (fun w hw => by cases hw) ⟨⟨rfl, rfl⟩, 9, rfl⟩
  have r6 := r5.step (e := LockOp.acquire 1 0) (donationOk_of_awake rfl rfl (by decide))
    ⟨⟨rfl, rfl⟩, 9, rfl⟩
  have r7 := r6.step (e := LockOp.acquire 2 1) (donationOk_of_awake rfl rfl (by decide))
    ⟨⟨rfl, rfl⟩, 9, rfl⟩
  have hwaiter := (lock_inv_of_reachable r7).waiter
  obtain ⟨s', h, hgreatest⟩ := lock_release_rolls_back r7 (T := 0) (m := 1) ⟨rfl, rfl⟩ rfl (by
    refine fun _ _ => ⟨by decide, fun w n hn hphase _ => ?_⟩
    have hw := (hwaiter n w).mpr hphase
    match n with
    | 0 =>
      obtain rfl := List.mem_singleton.mp hw
      decide
    | 1 => exact absurd rfl hn
    | n + 2 => cases hw)
  refine ⟨_, s', r7, rfl, h, ?_, hgreatest⟩
  obtain rfl := Except.ok.inj h
  rfl

/-- Thread 2, at 50, goes to sleep on the second lock of thread 0 while a donor on the
first one has raised thread 0 to 60, so there is no record of it. Releasing the first
lock leaves thread 0 with 31. -/
theorem release_forgets_waiter : ∃ s s', Reachable lock_system (fun _ _ => True) s ∧
    s.Runs 0 ∧ lock_release s 0 0 = .ok s' ∧
    ¬ IsGreatest (entitled s' 0) (s'.priority 0) := by
  have r0 : Reachable lock_system (fun _ _ => True) boot_state := reachable_boot_state
  have r1 := r0.step (e := LockOp.create 0 31) trivial ⟨rfl, rfl⟩
  have r2 := r1.step (e := LockOp.create 1 60) trivial ⟨rfl, rfl⟩
  have r3 := r2.step (e := LockOp.create 2 50) trivial ⟨rfl, rfl⟩
  have r4 := r3.step (e := LockOp.acquire 0 0) trivial ⟨⟨rfl, rfl⟩, 9, rfl⟩
  have r5 := r4.step (e := LockOp.acquire 0 1) trivial ⟨⟨rfl, rfl⟩, 9, rfl⟩
  have r6 := r5.step (e := LockOp.acquire 1 0) trivial ⟨⟨rfl, rfl⟩, 9, rfl⟩
  have r7 := r6.step (e := LockOp.acquire 2 1) trivial ⟨⟨rfl, rfl⟩, 9, rfl⟩
  refine ⟨_, _, r7, ⟨rfl, rfl⟩, rfl, fun hgreatest => ?_⟩
  have hle := hgreatest.2 (Or.inr ⟨2, ⟨1, rfl, rfl⟩, rfl⟩)
  exact absurd hle (by decide)

end Pintos.Threads
