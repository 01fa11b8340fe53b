/-
Mutual exclusion of locks (`threads/synch.c`), over every program point of every thread.

A lock is a semaphore and a field `holder` that is written outside the sections with
interrupts off. Where the one unit of the semaphore is (`Unit`): in the semaphore, with a
thread that has taken it and is going to write `holder`, with the holder, or with a thread
that has reset `holder` and is going to up the semaphore.
-/
import Pintos.Threads.KernelInv

set_option autoImplicit false

namespace Pintos.Threads.Machine

open StepSystem

/-! ## The region -/

/-- `t` has taken the semaphore and is about to write `holder`. -/
def AtHold (s : Kernel) (m : LockId) (t : Tid) : Prop :=
  (s.thread t).code.head? = some (.lock_hold m)

/-- `t` has reset `holder` and is going to up the semaphore. -/
def Releases (s : Kernel) (m : LockId) (t : Tid) : Prop := .sema_up (.lock m) ∈ (s.thread t).code

/-- `t` is between the end of an acquire and that of its release. -/
def InRegion (s : Kernel) (m : LockId) (t : Tid) : Prop :=
  AtHold s m t ∨ s.holder m = some t ∨ Releases s m t

/-- Where the unit of a lock is. -/
inductive LockUnit
  | free
  | taken (t : Tid)
  | held (t : Tid)
  | released (t : Tid)
  deriving DecidableEq

/-- The unit of a lock is there and nowhere else. -/
structure LockAt (s : Kernel) (m : LockId) (k : LockUnit) : Prop where
  value : (s.sema (.lock m)).value = if k = .free then 1 else 0
  holder : ∀ t, s.holder m = some t ↔ k = .held t
  at_hold : ∀ t, AtHold s m t ↔ k = .taken t
  releases : ∀ t, Releases s m t ↔ k = .released t

/-! ## The shape of what is left to execute -/

/-- The test of the semaphore that `lock->holder = thread_current ()` comes right after. -/
def Stmt.Takes (c : Stmt) (m : LockId) : Prop :=
  c = .sema_down (.lock m) ∨ c = .sema_retest (.lock m)

/-- `lock_hold` stands behind a test of the semaphore and nowhere else. -/
def Shaped : List Stmt → Prop
  | [] => True
  | c :: rest => (∀ m, rest.head? = some (.lock_hold m) ↔ c.Takes m) ∧ Shaped rest

/-- A statement that has no part in taking or releasing a lock. -/
def Stmt.plain : Stmt → Bool
  | .sema_down (.lock _) | .sema_retest (.lock _) | .sema_try_down (.lock _) | .sema_up (.lock _)
  | .lock_hold _ => false
  | _ => true

/-- The statements that call others that are not plain. -/
def Stmt.locks : Stmt → Bool
  | .lock_acquire _ | .lock_try_down _ | .lock_release _ | .sema_down (.lock _)
  | .sema_retest (.lock _) => true
  | _ => false

variable {s s' : Kernel} {c : Stmt}

theorem Stmt.plain.not_takes (h : c.plain = true) (m : LockId) : ¬ c.Takes m := by
  rintro (rfl | rfl) <;> cases h

theorem Stmt.plain.ne_hold (h : c.plain = true) (m : LockId) : c ≠ .lock_hold m := by
  rintro rfl
  cases h

theorem Stmt.plain.ne_up (h : c.plain = true) (m : LockId) : c ≠ .sema_up (.lock m) := by
  rintro rfl
  cases h

theorem Stmt.plain.ne_try (h : c.plain = true) (m : LockId) : c ≠ .sema_try_down (.lock m) := by
  rintro rfl
  cases h

theorem pushes_plain (hc : c.locks = false) : ∀ d ∈ pushes s c, d.plain = true := by
  rw [← List.all_eq_true]
  cases c with
  | lock_acquire | lock_try_down | lock_release => cases hc
  | sema_down i | sema_retest i =>
    dsimp only [pushes]
    cases i <;> first | (split_ifs <;> rfl) | cases hc
  | _ =>
    dsimp only [pushes]
    repeat' split
    all_goals rfl

/-- Plain statements in front of a rest that does not begin with `lock_hold`. -/
theorem Shaped.append {l rest : List Stmt} (hl : ∀ c ∈ l, c.plain = true) (hrest : Shaped rest)
    (hhead : ∀ m, rest.head? ≠ some (.lock_hold m)) : Shaped (l ++ rest) := by
  induction l with
  | nil => exact hrest
  | cons c l ih =>
    have hl' : ∀ d ∈ l, d.plain = true := fun d hd => hl d (List.mem_cons_of_mem c hd)
    refine ⟨fun m => iff_of_false (fun hh => ?_)
      (Stmt.plain.not_takes (hl c List.mem_cons_self) m), ih hl'⟩
    cases l with
    | nil => exact hhead m hh
    | cons d l => exact Stmt.plain.ne_hold (hl' d List.mem_cons_self) m (Option.some.inj hh)

/-! ## The invariant -/

structure MutexInv (s : Kernel) : Prop where
  place : ∀ m, ∃ k, LockAt s m k
  shaped : ∀ t, Shaped (s.thread t).code
  up_once : ∀ t m, (s.thread t).code.count (.sema_up (.lock m)) ≤ 1
  no_try : ∀ t m, .sema_try_down (.lock m) ∉ (s.thread t).code

/-- The semaphores of the locks, the holders and the statements are the same. -/
theorem LockAt.congr {m : LockId} {k : LockUnit} (h : LockAt s m k)
    (hvalue : (s'.sema (.lock m)).value = (s.sema (.lock m)).value)
    (hholder : s'.holder m = s.holder m) (hhold : ∀ t, AtHold s' m t ↔ AtHold s m t)
    (hreleases : ∀ t, Releases s' m t ↔ Releases s m t) : LockAt s' m k where
  value := hvalue.trans h.value
  holder t := by
    rw [hholder]
    exact h.holder t
  at_hold t := (hhold t).trans (h.at_hold t)
  releases t := (hreleases t).trans (h.releases t)

theorem MutexInv.congr (h : MutexInv s)
    (hvalue : ∀ m, (s'.sema (.lock m)).value = (s.sema (.lock m)).value)
    (hholder : s'.holder = s.holder) (hcode : ∀ t, (s'.thread t).code = (s.thread t).code) :
    MutexInv s' := by
  refine ⟨fun m => ?_, fun t => ?_, fun t m => ?_, fun t m => ?_⟩
  · obtain ⟨k, hk⟩ := h.place m
    refine ⟨k, hk.congr (hvalue m) (by rw [hholder]) (fun t => ?_) (fun t => ?_)⟩
    · unfold AtHold
      rw [hcode]
    · unfold Releases
      rw [hcode]
  · rw [hcode]
    exact h.shaped t
  · rw [hcode]
    exact h.up_once t m
  · rw [hcode]
    exact h.no_try t m

/-- A call by a thread that has nothing else to do. -/
theorem MutexInv.push (h : MutexInv s) {l : List Stmt} (hcur : s.cur.code = [])
    (hl : ∀ c ∈ l, c.plain = true) (hx : s.in_external_intr = false) : MutexInv (s.push l) := by
  have hcur' : (s.thread s.current).code = [] := hcur
  have hcode : ∀ t, ((s.push l).thread t).code =
      if t = s.current then l else (s.thread t).code := by
    intro t
    rw [push_code]
    by_cases ht : t = s.current
    · rw [if_pos ⟨hx, ht⟩, if_pos ht, ht, hcur', List.append_nil]
    · rw [if_neg (fun hc => ht hc.2), if_neg ht]
  have hup : ∀ m, .sema_up (.lock m) ∉ l := fun m hmem => Stmt.plain.ne_up (hl _ hmem) m rfl
  refine ⟨fun m => ?_, fun t => ?_, fun t m => ?_, fun t m => ?_⟩
  · obtain ⟨k, hk⟩ := h.place m
    refine ⟨k, hk.congr (by rw [push_sema]) (by rw [push_holder]) (fun t => ?_) (fun t => ?_)⟩
    · unfold AtHold
      rw [hcode]
      split_ifs with ht
      · refine iff_of_false (fun hh => ?_) (by rw [ht, hcur']; simp)
        exact Stmt.plain.ne_hold (hl _ (List.mem_of_mem_head? hh)) m rfl
      · rfl
    · unfold Releases
      rw [hcode]
      split_ifs with ht
      · exact iff_of_false (hup m) (by rw [ht, hcur']; exact List.not_mem_nil)
      · rfl
  · rw [hcode]
    split_ifs
    · have hnil : Shaped [] := trivial
      have hshaped := Shaped.append hl hnil (by simp)
      rwa [List.append_nil] at hshaped
    · exact h.shaped t
  · rw [hcode]
    split_ifs
    · rw [List.count_eq_zero_of_not_mem (hup m)]
      exact Nat.zero_le 1
    · exact h.up_once t m
  · rw [hcode]
    split_ifs
    · exact fun hmem => Stmt.plain.ne_try (hl _ hmem) m rfl
    · exact h.no_try t m

/-- Handlers have no part in locks. -/
theorem MutexInv.handler (h : MutexInv s) {r : Kernel} {rest : List Stmt}
    (hgo : HandlerGo s c r s' rest) : MutexInv s' := by
  have hsema : ∀ m, c.sema ≠ some (.lock m) := by
    intro m hc
    have hfits := hgo.fits
    cases c with
    | sema_up i =>
      obtain rfl := Option.some.inj hc
      exact hfits
    | _ => first | exact hfits | cases hc
  have hlock : ∀ m, c.lock ≠ some m := by
    intro m hc
    have hfits := hgo.fits
    cases c with
    | lock_hold | lock_release => exact hfits
    | _ => cases hc
  refine h.congr (fun m => ?_) ?_ hgo.code
  · rw [exec_sema hgo.exec, (effect_frame r c).sema _ (hsema m), hgo.sema]
  · rw [exec_holder hgo.exec]
    funext m
    rw [(effect_frame r c).holder m (hlock m), hgo.popped]

/-! ## Statements of the running thread -/

section Thread

variable {r : Kernel} {rest : List Stmt} {m : LockId}

theorem at_hold_iff (hgo : ThreadGo s c r s' rest) (t : Tid) :
    AtHold s' m t ↔ if t = s.current then (pushes r c ++ rest).head? = some (.lock_hold m)
      else AtHold s m t := by
  unfold AtHold
  split_ifs with ht
  · rw [ht, hgo.after]
  · rw [hgo.code t ht]

theorem releases_iff (hgo : ThreadGo s c r s' rest) (t : Tid) :
    Releases s' m t ↔ if t = s.current then .sema_up (.lock m) ∈ pushes r c ++ rest
      else Releases s m t := by
  unfold Releases
  split_ifs with ht
  · rw [ht, hgo.after]
  · rw [hgo.code t ht]

theorem at_hold_current (hgo : ThreadGo s c r s' rest) : AtHold s m s.current ↔ c = .lock_hold m := by
  unfold AtHold
  rw [hgo.before]
  exact ⟨fun h => Option.some.inj h, fun h => congrArg some h⟩

theorem releases_current (hgo : ThreadGo s c r s' rest) :
    Releases s m s.current ↔ c = .sema_up (.lock m) ∨ .sema_up (.lock m) ∈ rest := by
  unfold Releases
  rw [hgo.before, List.mem_cons]
  exact or_congr_left eq_comm

theorem MutexInv.shaped_rest (h : MutexInv s) (hgo : ThreadGo s c r s' rest) :
    (∀ m, rest.head? = some (.lock_hold m) ↔ c.Takes m) ∧ Shaped rest := by
  have hshaped := h.shaped s.current
  rw [hgo.before] at hshaped
  exact hshaped

/-- Only `lock_release` is going to up the semaphore of a lock. -/
theorem pushes_up (hmem : .sema_up (.lock m) ∈ pushes r c) : c = .lock_release m := by
  cases hc : c.locks with
  | false => exact absurd rfl (Stmt.plain.ne_up (pushes_plain hc _ hmem) m)
  | true =>
    cases c with
    | lock_release n =>
      have hnm : m = n := by simpa [pushes] using hmem
      rw [hnm]
    | lock_acquire n => simp [pushes] at hmem
    | lock_try_down n =>
      dsimp only [pushes] at hmem
      split_ifs at hmem <;> simp at hmem
    | sema_down i =>
      dsimp only [pushes] at hmem
      split_ifs at hmem <;> simp at hmem
    | sema_retest i =>
      dsimp only [pushes] at hmem
      split_ifs at hmem <;> simp at hmem
    | _ => cases hc

/-- What stands first after a statement. -/
theorem MutexInv.head_hold (h : MutexInv s) (hgo : ThreadGo s c r s' rest)
    (hh : (pushes r c ++ rest).head? = some (.lock_hold m)) :
    0 < (r.sema (.lock m)).value ∧ (c.Takes m ∨ c = .lock_try_down m) := by
  have hrest := (h.shaped_rest hgo).1 m
  cases hp : pushes r c with
  | nil =>
    rw [hp] at hh
    have htakes := hrest.mp hh
    refine ⟨UInt32.pos_iff_ne_zero.mpr fun hzero => ?_, Or.inl htakes⟩
    -- with value 0 the test would be pushed again
    rcases htakes with rfl | rfl
    all_goals
      dsimp only [pushes] at hp
      rw [if_pos hzero] at hp
      cases hp
  | cons d l =>
    rw [hp] at hh
    obtain rfl : d = .lock_hold m := Option.some.inj hh
    have hmem : .lock_hold m ∈ pushes r c := by
      rw [hp]
      exact List.mem_cons_self
    cases hc : c.locks with
    | false => exact absurd rfl (Stmt.plain.ne_hold (pushes_plain hc _ hmem) m)
    | true =>
      cases c with
      | lock_try_down n =>
        dsimp only [pushes] at hp
        split_ifs at hp with hpos
        obtain ⟨hnm, -⟩ := List.cons.inj hp
        cases hnm
        exact ⟨hpos, Or.inr rfl⟩
      | lock_release n => cases hp
      | lock_acquire n => cases hp
      | sema_down i =>
        dsimp only [pushes] at hp
        split_ifs at hp
        cases hp
      | sema_retest i =>
        dsimp only [pushes] at hp
        split_ifs at hp
        cases hp
      | _ => cases hc

/-- The shape of what is left, after a statement. -/
theorem MutexInv.shaped_go (h : MutexInv s) (hgo : ThreadGo s c r s' rest) (t : Tid) :
    Shaped (s'.thread t).code := by
  obtain ⟨hhead, hrest⟩ := h.shaped_rest hgo
  by_cases ht : t = s.current
  swap
  · rw [hgo.code t ht]
    exact h.shaped t
  rw [ht, hgo.after]
  -- a statement that does not take a lock is not followed by `lock_hold`
  have hnot : (∀ m, ¬ c.Takes m) → ∀ m, rest.head? ≠ some (.lock_hold m) :=
    fun hc m hh => hc m ((hhead m).mp hh)
  cases hc : c.locks with
  | false =>
    refine Shaped.append (pushes_plain hc) hrest (hnot ?_)
    rintro m (rfl | rfl) <;> cases hc
  | true =>
    cases c with
    | lock_acquire n =>
      have hrest' := hnot (by rintro m (⟨⟨⟩⟩ | ⟨⟨⟩⟩))
      refine ⟨fun m => ?_, fun m => ?_, fun m => ?_, hrest⟩
      · exact iff_of_false (by simp) (by rintro (h | h) <;> cases h)
      · constructor
        · intro hh
          cases Option.some.inj hh
          exact Or.inl rfl
        · rintro (h | h) <;> cases h
          rfl
      · exact iff_of_false (hrest' m) (by rintro (h | h) <;> cases h)
    | lock_try_down n =>
      have hrest' := hnot (by rintro m (⟨⟨⟩⟩ | ⟨⟨⟩⟩))
      dsimp only [pushes]
      split_ifs
      · exact ⟨fun m => iff_of_false (hrest' m) (by rintro (h | h) <;> cases h), hrest⟩
      · exact hrest
    | lock_release n =>
      have hrest' := hnot (by rintro m (⟨⟨⟩⟩ | ⟨⟨⟩⟩))
      refine ⟨fun m => ?_, fun m => ?_, hrest⟩
      · exact iff_of_false (by simp) (by rintro (h | h) <;> cases h)
      · exact iff_of_false (hrest' m) (by rintro (h | h) <;> cases h)
    | sema_down i =>
      dsimp only [pushes]
      split_ifs
      · refine ⟨fun m => (hhead m).trans ?_, hrest⟩
        unfold Stmt.Takes
        simp
      · exact hrest
    | sema_retest i =>
      dsimp only [pushes]
      split_ifs
      · exact ⟨hhead, hrest⟩
      · exact hrest
    | _ => cases hc

theorem value_same (hgo : ThreadGo s c r s' rest) (hc : c.sema ≠ some (.lock m)) :
    (s'.sema (.lock m)).value = (s.sema (.lock m)).value := by
  rw [exec_sema hgo.exec, (effect_frame r c).sema _ hc, hgo.sema]

theorem holder_same (hgo : ThreadGo s c r s' rest) (hc : c.lock ≠ some m) :
    s'.holder m = s.holder m := by
  rw [exec_holder hgo.exec, (effect_frame r c).holder m hc, hgo.popped]
  rfl

theorem releases_same (hgo : ThreadGo s c r s' rest) (hrelease : c ≠ .lock_release m)
    (hup : c ≠ .sema_up (.lock m)) (t : Tid) : Releases s' m t ↔ Releases s m t := by
  rw [releases_iff hgo]
  split_ifs with ht
  · rw [ht, releases_current hgo, List.mem_append]
    refine or_congr ?_ Iff.rfl
    exact iff_of_false (fun hmem => hrelease (pushes_up hmem)) hup
  · rfl

/-- A lock that is held stays with its holder up to `lock_release`. -/
theorem MutexInv.holder_kept (h : MutexInv s) (hgo : ThreadGo s c r s' rest) {t : Tid}
    (ht : s.holder m = some t) (hc : c ≠ .lock_release m) : s'.holder m = some t := by
  by_cases hlock : c.lock = some m
  swap
  · rw [holder_same hgo hlock]
    exact ht
  cases c with
  | lock_hold n =>
    obtain rfl := Option.some.inj hlock
    obtain ⟨k, hk⟩ := h.place n
    have hheld := (hk.holder t).mp ht
    have htaken := (hk.at_hold s.current).mp ((at_hold_current hgo).mpr rfl)
    rw [hheld] at htaken
    cases htaken
  | lock_release n => exact absurd (Option.some.inj hlock ▸ rfl) hc
  | _ => cases hlock

/-- `lock_release` is by the holder. -/
theorem release_holder (hgo : ThreadGo s (.lock_release m) r s' rest) :
    s.holder m = some s.current := by
  obtain ⟨_, hassert, -⟩ := bind_eq_ok hgo.exec
  have hholder := ASSERT_eq_ok hassert
  rw [hgo.current, hgo.popped] at hholder
  exact hholder

/-- The semaphore is not taken in this statement. -/
theorem MutexInv.at_hold_same (h : MutexInv s) (hgo : ThreadGo s c r s' rest)
    (hhold : c ≠ .lock_hold m)
    (hnot : ¬ (0 < (s.sema (.lock m)).value ∧ (c.Takes m ∨ c = .lock_try_down m))) (t : Tid) :
    AtHold s' m t ↔ AtHold s m t := by
  rw [at_hold_iff hgo]
  split_ifs with ht
  · rw [ht, at_hold_current hgo]
    refine iff_of_false (fun hh => hnot ?_) hhold
    have hhead := h.head_hold hgo hh
    rwa [hgo.sema] at hhead
  · rfl

/-- The semaphore is taken: the unit goes from the semaphore to the running thread. -/
theorem MutexInv.take (h : MutexInv s) (hgo : ThreadGo s c r s' rest)
    (hpos : 0 < (s.sema (.lock m)).value) (hlock : c.lock ≠ some m)
    (hrelease : c ≠ .lock_release m) (hup : c ≠ .sema_up (.lock m))
    (hhead : (pushes r c ++ rest).head? = some (.lock_hold m))
    (hvalue : (s'.sema (.lock m)).value = (s.sema (.lock m)).value - 1) :
    LockAt s' m (.taken s.current) := by
  obtain ⟨k, hk⟩ := h.place m
  have hfree : k = .free := by
    by_contra hne
    rw [hk.value, if_neg hne] at hpos
    exact absurd hpos (lt_irrefl 0)
  subst hfree
  refine ⟨?_, fun t => ?_, fun t => ?_, fun t => ?_⟩
  · rw [hvalue, hk.value, if_pos rfl, if_neg (by simp)]
    rfl
  · rw [holder_same hgo hlock, hk.holder]
    simp
  · rw [at_hold_iff hgo]
    split_ifs with ht
    · exact iff_of_true hhead (by rw [ht])
    · rw [hk.at_hold]
      exact iff_of_false (by simp) fun heq => ht (LockUnit.taken.inj heq).symm
  · rw [releases_same hgo hrelease hup, hk.releases]
    simp

/-- `sema_down` or the test after a wake-up, on the semaphore of a lock. -/
theorem MutexInv.place_takes (h : MutexInv s) (hgo : ThreadGo s c r s' rest) (hc : c.Takes m) :
    ∃ k, LockAt s' m k := by
  have hlock : c.lock ≠ some m := by rcases hc with rfl | rfl <;> simp [Stmt.lock]
  have hrelease : c ≠ .lock_release m := by rcases hc with rfl | rfl <;> simp
  have hup : c ≠ .sema_up (.lock m) := by rcases hc with rfl | rfl <;> simp
  have hhold : c ≠ .lock_hold m := by rcases hc with rfl | rfl <;> simp
  obtain ⟨f, hf⟩ : ∃ f, effect r c = sema_down_effect r (.lock m) f := by
    rcases hc with rfl | rfl
    · exact ⟨id, rfl⟩
    · exact ⟨fun l => l.erase r.current, rfl⟩
  have hsema : s'.sema (.lock m) = (sema_down_effect r (.lock m) f).sema (.lock m) := by
    rw [exec_sema hgo.exec, hf]
  unfold sema_down_effect at hsema
  rw [hgo.sema] at hsema
  by_cases hzero : (s.sema (.lock m)).value = 0
  · -- it goes to sleep, and the unit stays where it is
    rw [if_pos hzero, set_sema_apply, if_pos rfl, push_sema, hgo.sema] at hsema
    obtain ⟨k, hk⟩ := h.place m
    refine ⟨k, hk.congr (by rw [hsema]) (holder_same hgo hlock)
      (h.at_hold_same hgo hhold fun hpos => ?_) (releases_same hgo hrelease hup)⟩
    exact absurd hzero (UInt32.pos_iff_ne_zero.mp hpos.1)
  · rw [if_neg hzero, set_sema_apply, if_pos rfl, hgo.sema] at hsema
    have hpushes : pushes r c = [] := by
      rcases hc with rfl | rfl
      all_goals
        dsimp only [pushes]
        rw [hgo.sema, if_neg hzero]
    refine ⟨_, h.take hgo (UInt32.pos_iff_ne_zero.mpr hzero) hlock hrelease hup ?_ (by rw [hsema])⟩
    rw [hpushes]
    exact ((h.shaped_rest hgo).1 m).mpr hc

theorem MutexInv.place_try_down (h : MutexInv s) (hgo : ThreadGo s (.lock_try_down m) r s' rest) :
    ∃ k, LockAt s' m k := by
  have hsema := congrFun (exec_sema hgo.exec) (.lock m)
  dsimp only [effect, lock_try_down, sema_try_down] at hsema
  rw [hgo.sema] at hsema
  by_cases hpos : 0 < (s.sema (.lock m)).value
  · rw [if_pos hpos, if_pos hpos, push_sema, set_sema_apply, if_pos rfl, hgo.sema] at hsema
    refine ⟨_, h.take hgo hpos (by simp [Stmt.lock]) (by simp) (by simp) ?_ (by rw [hsema])⟩
    dsimp only [pushes]
    rw [hgo.sema, if_pos hpos]
    rfl
  · rw [if_neg hpos, hgo.sema] at hsema
    obtain ⟨k, hk⟩ := h.place m
    exact ⟨k, hk.congr (by rw [hsema]) (holder_same hgo (by simp [Stmt.lock]))
      (h.at_hold_same hgo (by simp) fun hc => hpos hc.1) (releases_same hgo (by simp) (by simp))⟩

/-- `lock->holder = thread_current ()`. -/
theorem MutexInv.place_hold (h : MutexInv s) (hgo : ThreadGo s (.lock_hold m) r s' rest) :
    LockAt s' m (.held s.current) := by
  obtain ⟨k, hk⟩ := h.place m
  have htaken : k = .taken s.current := (hk.at_hold _).mp ((at_hold_current hgo).mpr rfl)
  subst htaken
  have hholder : s'.holder m = some s.current := by
    rw [exec_holder hgo.exec]
    dsimp only [effect]
    rw [Function.update_self, hgo.current]
  refine ⟨?_, fun t => ?_, fun t => ?_, fun t => ?_⟩
  · rw [value_same hgo (by simp [Stmt.sema]), hk.value, if_neg (by simp), if_neg (by simp)]
  · rw [hholder, Option.some_inj]
    exact ⟨fun heq => heq ▸ rfl, fun heq => LockUnit.held.inj heq⟩
  · rw [at_hold_iff hgo]
    split_ifs with ht
    · refine iff_of_false (fun hh => ?_) (by simp)
      rcases (h.head_hold hgo hh).2 with (hc | hc) | hc <;> cases hc
    · rw [hk.at_hold]
      exact iff_of_false (fun heq => ht (LockUnit.taken.inj heq).symm) (by simp)
  · rw [releases_same hgo (by simp) (by simp), hk.releases]
    simp

/-- `lock->holder = NULL`. Only the holder gets past the assertion. -/
theorem MutexInv.place_release (h : MutexInv s) (hgo : ThreadGo s (.lock_release m) r s' rest) :
    LockAt s m (.held s.current) ∧ LockAt s' m (.released s.current) := by
  obtain ⟨k, hk⟩ := h.place m
  have hheld : k = .held s.current := by
    obtain ⟨_, hassert, -⟩ := bind_eq_ok hgo.exec
    have hholder := ASSERT_eq_ok hassert
    rw [hgo.current, hgo.popped] at hholder
    exact (hk.holder _).mp hholder
  subst hheld
  have hholder : s'.holder m = none := by
    rw [exec_holder hgo.exec]
    dsimp only [effect]
    rw [push_holder]
    exact Function.update_self _ _ _
  refine ⟨hk, ?_, fun t => ?_, fun t => ?_, fun t => ?_⟩
  · rw [value_same hgo (by simp [Stmt.sema]), hk.value, if_neg (by simp), if_neg (by simp)]
  · rw [hholder]
    simp
  · rw [h.at_hold_same hgo (by simp) (by rintro ⟨-, (hc | hc) | hc⟩ <;> cases hc), hk.at_hold]
    simp
  · rw [releases_iff hgo]
    split_ifs with ht
    · refine iff_of_true ?_ (by rw [ht])
      exact List.mem_append_left _ (by simp [pushes])
    · rw [hk.releases]
      exact iff_of_false (by simp) fun heq => ht (LockUnit.released.inj heq).symm

/-- `sema_up (&lock->semaphore)`: the unit goes back. -/
theorem MutexInv.place_up (h : MutexInv s) (hgo : ThreadGo s (.sema_up (.lock m)) r s' rest) :
    LockAt s' m .free := by
  obtain ⟨k, hk⟩ := h.place m
  have hreleased : k = .released s.current :=
    (hk.releases _).mp ((releases_current hgo).mpr (Or.inl rfl))
  subst hreleased
  have hsema := congrFun (exec_sema hgo.exec) (.lock m)
  dsimp only [effect, sema_up_effect] at hsema
  rw [set_sema_apply, if_pos rfl, hgo.sema] at hsema
  refine ⟨?_, fun t => ?_, fun t => ?_, fun t => ?_⟩
  · rw [hsema]
    show (s.sema (.lock m)).value + 1 = _
    rw [hk.value, if_neg (by simp), if_pos rfl]
    rfl
  · rw [holder_same hgo (by simp [Stmt.lock]), hk.holder]
    simp
  · rw [h.at_hold_same hgo (by simp) (by rintro ⟨-, (hc | hc) | hc⟩ <;> cases hc), hk.at_hold]
    simp
  · rw [releases_iff hgo]
    split_ifs with ht
    · -- it was going to do so once
      refine iff_of_false (fun hmem => ?_) (by simp)
      have honce := h.up_once s.current m
      rw [hgo.before, List.count_cons_self] at honce
      have hrest := List.count_pos_iff.mpr (show .sema_up (.lock m) ∈ rest from hmem)
      omega
    · rw [hk.releases]
      exact iff_of_false (fun heq => ht (LockUnit.released.inj heq).symm) (by simp)

theorem MutexInv.place_go (h : MutexInv s) (hgo : ThreadGo s c r s' rest) (m : LockId) :
    ∃ k, LockAt s' m k := by
  by_cases htakes : c.Takes m
  · exact h.place_takes hgo htakes
  by_cases htry : c = .lock_try_down m
  · subst htry
    exact h.place_try_down hgo
  by_cases hhold : c = .lock_hold m
  · subst hhold
    exact ⟨_, h.place_hold hgo⟩
  by_cases hrelease : c = .lock_release m
  · subst hrelease
    exact ⟨_, (h.place_release hgo).2⟩
  by_cases hup : c = .sema_up (.lock m)
  · subst hup
    exact ⟨_, h.place_up hgo⟩
  -- all others have nothing to do with this lock
  have hsema : c.sema ≠ some (.lock m) := by
    intro hc
    cases c with
    | sema_down i => exact htakes (Or.inl (congrArg _ (Option.some.inj hc)))
    | sema_retest i => exact htakes (Or.inr (congrArg _ (Option.some.inj hc)))
    | sema_up i => exact hup (congrArg _ (Option.some.inj hc))
    | sema_try_down i =>
      have hmem := h.no_try s.current m
      rw [hgo.before, Option.some.inj hc] at hmem
      exact hmem List.mem_cons_self
    | lock_try_down n =>
      cases hc
      exact htry rfl
    | _ => cases hc
  have hlock : c.lock ≠ some m := by
    intro hc
    cases c with
    | lock_hold n => exact hhold (congrArg _ (Option.some.inj hc))
    | lock_release n => exact hrelease (congrArg _ (Option.some.inj hc))
    | _ => cases hc
  obtain ⟨k, hk⟩ := h.place m
  exact ⟨k, hk.congr (value_same hgo hsema) (holder_same hgo hlock)
    (h.at_hold_same hgo hhold (by rintro ⟨-, hc | hc⟩ <;> contradiction))
    (releases_same hgo hrelease hup)⟩

theorem MutexInv.thread (h : MutexInv s) (hgo : ThreadGo s c r s' rest) : MutexInv s' := by
  refine ⟨h.place_go hgo, h.shaped_go hgo, fun t m => ?_, fun t m hmem => ?_⟩
  · by_cases ht : t = s.current
    swap
    · rw [hgo.code t ht]
      exact h.up_once t m
    have hbefore := h.up_once s.current m
    rw [hgo.before] at hbefore
    have hrest : rest.count (.sema_up (.lock m)) ≤ 1 :=
      le_trans (List.count_le_count_cons) hbefore
    rw [ht, hgo.after, List.count_append]
    by_cases hrelease : c = .lock_release m
    · -- the holder was not going to up the semaphore before
      subst hrelease
      have hnot : ¬ Releases s m s.current := by
        rw [(h.place_release hgo).1.releases]
        simp
      have hzero : rest.count (.sema_up (.lock m)) = 0 :=
        List.count_eq_zero_of_not_mem fun hmem => hnot ((releases_current hgo).mpr (Or.inr hmem))
      rw [hzero]
      simp [pushes]
    · rw [List.count_eq_zero_of_not_mem fun hmem => hrelease (pushes_up hmem), Nat.zero_add]
      exact hrest
  · by_cases ht : t = s.current
    swap
    · rw [hgo.code t ht] at hmem
      exact h.no_try t m hmem
    rw [ht, hgo.after] at hmem
    rcases List.mem_append.mp hmem with hmem | hmem
    · cases hc : c.locks with
      | false => exact Stmt.plain.ne_try (pushes_plain hc _ hmem) m rfl
      | true =>
        cases c with
        | lock_acquire n | lock_release n => simp [pushes] at hmem
        | lock_try_down n =>
          dsimp only [pushes] at hmem
          split_ifs at hmem <;> simp at hmem
        | sema_down i | sema_retest i =>
          dsimp only [pushes] at hmem
          split_ifs at hmem <;> simp at hmem
        | _ => cases hc
    · refine h.no_try s.current m ?_
      rw [hgo.before]
      exact List.mem_cons_of_mem c hmem

end Thread

/-! ## Runs -/

theorem Called.plain {l : List Stmt} (h : Called l) : ∀ c ∈ l, c.plain = true := by
  rw [← List.all_eq_true]
  cases h with
  | @call c hc =>
    cases c with
    | sema_down i | sema_try_down i | sema_up i =>
      cases i with
      | other n => rfl
      | _ => exact absurd hc id
    | sema_retest | lock_hold => exact absurd hc id
    | _ => rfl
  | idle => rfl

theorem MutexInv.step {e : Event} (h : MutexInv s) (hk : KernelInv s) (hs : step s e s') :
    MutexInv s' := by
  refine step_rule (P := MutexInv) hk (fun r r' hsw hr => ?_) (fun _ _ => ?_)
    (fun l hx hcode hl => h.push hcode hl.plain hx) (fun c hx _ _ => ?_)
    (fun c r rest hgo => h.handler hgo) (fun c r rest hgo => h.thread hgo) hs
  · exact hr.congr (fun m => by rw [hsw.sema]) hsw.holder hsw.code
  · exact h.congr (fun _ => rfl) rfl (fun _ => rfl)
  · refine h.congr (fun m => by rw [push_sema]) (push_holder s _) fun t => ?_
    rw [push_code, if_neg fun hc => absurd (hx.symm.trans hc.1) (by decide)]

theorem MutexInv.thread_start (u : Setup) : MutexInv (thread_start u) := by
  have hcode : ∀ t, ((Machine.thread_start u).thread t).code = [] ∨
      ((Machine.thread_start u).thread t).code = [.intr_enable] := by
    intro t
    dsimp only [Machine.thread_start]
    split_ifs
    · exact Or.inl rfl
    · exact Or.inr rfl
    · exact Or.inl rfl
  refine ⟨fun m => ⟨.free, rfl, fun t => ?_, fun t => ?_, fun t => ?_⟩, fun t => ?_, fun t m => ?_,
    fun t m => ?_⟩
  · exact iff_of_false (by simp [Machine.thread_start]) (by simp)
  · unfold AtHold
    rcases hcode t with hc | hc <;> rw [hc] <;> simp
  · unfold Releases
    rcases hcode t with hc | hc <;> rw [hc] <;> simp
  · rcases hcode t with hc | hc <;> rw [hc]
    · trivial
    · exact ⟨fun m => iff_of_false (by simp) (by rintro (h | h) <;> cases h), trivial⟩
  · rcases hcode t with hc | hc <;> rw [hc] <;> simp
  · rcases hcode t with hc | hc <;> rw [hc] <;> simp

theorem mutex_inv {u : Setup} {ok : Kernel → Event → Prop}
    (hr : Reachable (kernel_system u) ok s) : MutexInv s := by
  refine reachable_rule hr ?_ fun r e r' hk hi _ hs => ?_
  · exact MutexInv.thread_start u
  · exact hi.step hk hs

/-- Who is in the region, by where the unit is. -/
theorem LockAt.in_region {m : LockId} {k : LockUnit} (h : LockAt s m k) (t : Tid) :
    InRegion s m t ↔ k = .taken t ∨ k = .held t ∨ k = .released t := by
  unfold InRegion
  rw [h.at_hold, h.holder, h.releases]

/-- **Mutual exclusion.** At most one thread is between the end of an acquire and the end of its
release. The value of the semaphore is 1 when there is none and else 0, and `holder` is
NULL or that thread. -/
theorem lock_mutual_exclusion {u : Setup}
    (hr : Reachable (kernel_system u) (fun _ _ => True) s) (m : LockId) :
    (∀ t t', InRegion s m t → InRegion s m t' → t = t') ∧
    ((s.sema (.lock m)).value = 1 ↔ ∀ t, ¬ InRegion s m t) ∧ (s.sema (.lock m)).value ≤ 1 ∧
    ∀ t, s.holder m = some t → InRegion s m t := by
  obtain ⟨k, hk⟩ := (mutex_inv hr).place m
  have hregion := hk.in_region
  refine ⟨fun t t' ht ht' => ?_, ?_, ?_, fun t ht => Or.inr (Or.inl ht)⟩
  · rw [hregion] at ht ht'
    rcases ht with rfl | rfl | rfl <;> rcases ht' with h | h | h <;> cases h <;> rfl
  · rw [hk.value]
    cases k with
    | free => exact iff_of_true rfl fun t ht => by simpa using (hregion t).mp ht
    | taken t => exact iff_of_false (by simp) fun hn => hn t ((hregion t).mpr (Or.inl rfl))
    | held t =>
      exact iff_of_false (by simp) fun hn => hn t ((hregion t).mpr (Or.inr (Or.inl rfl)))
    | released t =>
      exact iff_of_false (by simp) fun hn => hn t ((hregion t).mpr (Or.inr (Or.inr rfl)))
  · rw [hk.value]
    split_ifs <;> decide

/-- The main thread holds a lock. -/
theorem lock_mutual_exclusion_held :
    ∃ s, Reachable (kernel_system plain_setup) (fun _ _ => True) s ∧ s.holder 5 = some 0 ∧
    ∀ t, InRegion s 5 t → t = 0 := by
  obtain ⟨s, hr, hholder⟩ := run_reachable (u := plain_setup) (fun _ _ => True)
    (fun s => s.holder 5 = some 0) (acquire_run 5) (.init rfl)
    (by simp [acquire_run, Event.Allowed, Stmt.Callable]) (by decide +kernel)
  obtain ⟨honly, -, -, hin⟩ := lock_mutual_exclusion hr 5
  exact ⟨s, hr, hholder, fun t ht => honly t 0 ht (hin 0 hholder)⟩

end Pintos.Threads.Machine
