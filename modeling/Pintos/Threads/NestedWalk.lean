/-
The walk of `nested_donation` (`threads/synch.c`), one statement at a time.

The walk goes from a thread to the lock it is linked to and on to the holder of that
lock. `lock_release` resets `holder` first and cuts the links afterwards, and
`priority_donation` makes a link before its thread sleeps; both run with interrupts on.
A thread that is preempted in between leaves a link to a lock without a holder, or one
that outlives its lock.

In the runs where nobody loses the processor inside these sections, a link belongs to a
thread that sleeps on the lock and to a record with the holder (`LinkOk`). Where locks are
taken in an order, the walk goes up in it, and ends.
-/
import Pintos.Threads.Preemption

set_option autoImplicit false

namespace Pintos.Threads.Machine

open StepSystem

variable {s s' r : Kernel} {c : Stmt} {rest l : List Stmt} {t u low : Tid} {m n : LockId}
  {rank : LockId → ℕ}

/-! ## Sections -/

/-- The statements of `lock_acquire` until it sleeps, and of `lock_release`. -/
def Stmt.inside : Stmt → Bool
  | .donation_test _ | .donation_compare _ | .donation_call _ | .donation_member _ _
  | .donation_insert _ _ | .donation_link _ | .donation_write _ _ | .nested_donation _ _
  | .nested_low _ _ | .nested_write _ _ | .sema_down (.lock _) | .release_test _
  | .priority_rollback _ | .rollback_loop _ | .rollback_test | .rollback_original
  | .rollback_back | .sema_up (.lock _) => true
  | _ => false

/-- `t` holds locks before `m` in the order only. -/
def Below (rank : LockId → ℕ) (s : Kernel) (t : Tid) (m : LockId) : Prop :=
  ∀ n, s.holder n = some t → rank n < rank m

/-- What stands in front of `sema_down` in `lock_acquire`, and what holds there. -/
inductive Acquiring (s : Kernel) (t : Tid) (m : LockId) : List Stmt → Prop
  | test : Acquiring s t m [.donation_test m]
  | compare : Acquiring s t m [.donation_compare m]
  | call : Acquiring s t m [.donation_call m]
  | member {low : Tid} (hholder : s.holder m = some low) :
      Acquiring s t m [.donation_member low m]
  | insert {low : Tid} {p : ℤ} (hholder : s.holder m = some low) :
      Acquiring s t m [.donation_insert low ⟨p, m, t⟩, .donation_link m, .donation_write low m,
        .nested_donation t low]
  | link {low : Tid} (hholder : s.holder m = some low) (hrecord : Recorded s m low t) :
      Acquiring s t m [.donation_link m, .donation_write low m, .nested_donation t low]
  | write {low : Tid} : Acquiring s t m [.donation_write low m, .nested_donation t low]
  | nested {high medium : Tid} : Acquiring s t m [.nested_donation high medium]
  | nested_low {high medium : Tid} (hlink : (s.thread medium).holded_by ≠ none) :
      Acquiring s t m [.nested_low high medium]
  | nested_write {high medium low : Tid} :
      Acquiring s t m [.nested_write high low, .nested_donation medium low]
  | down : Acquiring s t m []

/-- What stands in front of `sema_up` in `lock_release`, and what holds there: once the loop is
over, nobody is linked to the lock. -/
inductive Releasing (s : Kernel) (m : LockId) : List Stmt → Prop
  | test : Releasing s m [.release_test m]
  | rollback : Releasing s m [.priority_rollback m]
  | loop : Releasing s m [.rollback_loop m, .rollback_test]
  | after (h : ∀ u, (s.thread u).holded_by ≠ some m) : Releasing s m [.rollback_test]
  | original (h : ∀ u, (s.thread u).holded_by ≠ some m) : Releasing s m [.rollback_original]
  | back (h : ∀ u, (s.thread u).holded_by ≠ some m) : Releasing s m [.rollback_back]
  | up (h : ∀ u, (s.thread u).holded_by ≠ some m) : Releasing s m []

/-- Where a thread is in its section. -/
inductive Section (rank : LockId → ℕ) (s : Kernel) (t : Tid) : List Stmt → Prop
  | out {l : List Stmt} (hl : ∀ c ∈ l, c.inside = false) : Section rank s t l
  | acquire {m : LockId} {pre l : List Stmt} (hbelow : Below rank s t m)
      (hpre : Acquiring s t m pre) (hl : ∀ c ∈ l, c.inside = false) :
      Section rank s t (pre ++ .sema_down (.lock m) :: .lock_hold m :: l)
  | release {m : LockId} {pre l : List Stmt} (hpre : Releasing s m pre)
      (hl : ∀ c ∈ l, c.inside = false) : Section rank s t (pre ++ .sema_up (.lock m) :: l)

/-- A statement at which the links to `m` are still to be cut. -/
def Stmt.Cuts (m : LockId) (c : Stmt) : Prop :=
  c = .release_test m ∨ c = .priority_rollback m ∨ c = .rollback_loop m

/-- What holds of a link: the thread sleeps on the lock, or is about to, and the holder has the
record of it, or is about to cut the link. -/
structure LinkOk (rank : LockId → ℕ) (s : Kernel) (t : Tid) (m : LockId) : Prop where
  below : Below rank s t m
  waits : t ∈ (s.sema (.lock m)).waiters ∨ (t = s.current ∧ .sema_down (.lock m) ∈ s.cur.code)
  backed : ∃ low, Recorded s m low t ∧
    (s.holder m = some low ∨ (low = s.current ∧ ∃ c ∈ s.cur.code.head?, c.Cuts m))

/-- The invariant of the runs whose sections are not preempted. -/
structure WalkInv (rank : LockId → ℕ) (s : Kernel) : Prop where
  used : ∀ m t, s.holder m = some t → (s.thread t).status ≠ .unused
  others : ∀ t, t ≠ s.current → ∀ c ∈ (s.thread t).code, c.inside = false
  own : Section rank s s.current s.cur.code
  links : ∀ t m, (s.thread t).holded_by = some m → LinkOk rank s t m
  bound : ∃ B, ∀ t m, (s.thread t).holded_by = some m → rank m < B

/-- Only `lock_acquire` and `lock_release` go into a section. -/
theorem pushes_inside (hc : c.inside = false) (hacquire : ∀ m, c ≠ .lock_acquire m)
    (hrelease : ∀ m, c ≠ .lock_release m) : ∀ d ∈ pushes s c, d.inside = false := by
  have hall : (pushes s c).all (fun d => !d.inside) = true := by
    cases c with
    | lock_acquire m => exact absurd rfl (hacquire m)
    | lock_release m => exact absurd rfl (hrelease m)
    | donation_test | donation_compare | donation_call | donation_member | nested_donation
    | nested_low | release_test | priority_rollback | rollback_test => cases hc
    | _ =>
      dsimp only [pushes]
      repeat' split
      all_goals rfl
  intro d hd
  simpa using List.all_eq_true.mp hall d hd

/-- Who writes `holder`. -/
theorem holder_go (hgo : ThreadGo s c r s' rest) (h : s'.holder n = some t) :
    s.holder n = some t ∨ (c = .lock_hold n ∧ t = s.current) := by
  by_cases hlock : c.lock = some n
  swap
  · rw [holder_same hgo hlock] at h
    exact Or.inl h
  rw [exec_holder hgo.exec] at h
  cases c with
  | lock_hold k =>
    obtain rfl := Option.some.inj hlock
    have hcur : some r.current = some t := (Function.update_self k _ _).symm.trans h
    rw [hgo.current] at hcur
    exact Or.inr ⟨rfl, (Option.some.inj hcur).symm⟩
  | lock_release k =>
    obtain rfl := Option.some.inj hlock
    dsimp only [effect] at h
    rw [push_holder] at h
    cases (Function.update_self k _ _).symm.trans h
  | _ => cases hlock

theorem Below.go (h : Below rank s t m) (hgo : ThreadGo s c r s' rest)
    (hhold : t = s.current → ∀ k, c ≠ .lock_hold k) : Below rank s' t m := by
  intro k hk
  rcases holder_go hgo hk with hk | ⟨hc, ht⟩
  · exact h k hk
  · exact absurd hc (hhold ht k)

/-- A statement that does not hand the processor on. -/
theorem current_go (hgo : ThreadGo s c r s' rest) (hc : ¬ c.Moves) : s'.current = s.current := by
  have hexec := hgo.exec
  obtain rfl := exec_eq_effect hc hexec
  rw [(effect_frame r c).current, hgo.current]

/-- A lock that is being released has no holder. -/
theorem MutexInv.released_holder (hm : MutexInv s) (hreleases : Releases s m t) :
    s.holder m = none := by
  obtain ⟨k, hplace⟩ := hm.place m
  have hreleased := (hplace.releases t).mp hreleases
  cases hholder : s.holder m with
  | none => rfl
  | some w =>
    have hheld := (hplace.holder w).mp hholder
    rw [hreleased] at hheld
    cases hheld

/-- A link of the running thread is that of its section. -/
theorem WalkInv.link_current (h : WalkInv rank s) (hk : KernelInv s)
    (hlink : (s.thread s.current).holded_by = some m) : .sema_down (.lock m) ∈ s.cur.code := by
  rcases (h.links s.current m hlink).waits with hwaits | ⟨-, hcode⟩
  · have helem := (hk.sched.lists.waiters _ _).mp hwaits
    have hnone : (s.thread s.current).elem = none := hk.sched.unlinked
    rw [hnone] at helem
    cases helem
  · exact hcode

/-! ## The section of the running thread -/

/-- The next stage of `lock_acquire`. -/
theorem Acquiring.go {pre : List Stmt} (hm : MutexInv s) (hgo : ThreadGo s c r s' rest)
    (hpre : Acquiring s s.current m (c :: pre)) :
    Acquiring s' s.current m (pushes r c ++ pre) := by
  generalize hlist : c :: pre = l at hpre
  have hsame : ∀ k low, s.holder k = some low → c ≠ .lock_release k → s'.holder k = some low :=
    fun k low hk hc => hm.holder_kept hgo hk hc
  cases hpre with
  | test =>
    obtain ⟨rfl, rfl⟩ := List.cons.inj hlist
    dsimp only [pushes]
    split_ifs
    · exact .compare
    · exact .down
  | compare =>
    obtain ⟨rfl, rfl⟩ := List.cons.inj hlist
    dsimp only [pushes]
    split
    · exact .down
    · split_ifs
      · exact .call
      · exact .down
  | call =>
    obtain ⟨rfl, rfl⟩ := List.cons.inj hlist
    dsimp only [pushes]
    cases hholder : r.holder m with
    | none => exact .down
    | some low =>
      rw [hgo.popped] at hholder
      exact .member (hsame m low hholder (by simp))
  | member hholder =>
    obtain ⟨rfl, rfl⟩ := List.cons.inj hlist
    dsimp only [pushes]
    rw [hgo.current]
    exact .insert (hsame m _ hholder (by simp))
  | insert hholder =>
    obtain ⟨rfl, rfl⟩ := List.cons.inj hlist
    refine .link (hsame m _ hholder (by simp)) ?_
    exact ⟨_, (mem_records hgo _ _).mpr (Or.inl rfl), rfl, rfl⟩
  | link hholder hrecord =>
    obtain ⟨rfl, rfl⟩ := List.cons.inj hlist
    exact .write
  | write =>
    obtain ⟨rfl, rfl⟩ := List.cons.inj hlist
    exact .nested
  | @nested high medium =>
    obtain ⟨rfl, rfl⟩ := List.cons.inj hlist
    have hlink : (s'.thread medium).holded_by = (r.thread medium).holded_by := by
      have hframe := (account_frame hgo (by simp) medium).2.2.2 (by simp [Stmt.writes])
      rw [hframe]
      exact (congrArg Account.holded_by (popped_account hgo medium)).symm
    dsimp only [pushes]
    split_ifs with hnone
    · exact .down
    · exact .nested_low (by rw [hlink]; exact hnone)
  | nested_low hlink =>
    obtain ⟨rfl, rfl⟩ := List.cons.inj hlist
    dsimp only [pushes]
    split
    · exact .down
    · exact .nested_write
  | nested_write =>
    obtain ⟨rfl, rfl⟩ := List.cons.inj hlist
    exact .nested
  | down => cases hlist

/-- Nobody is linked to a lock that is released when its holder has no records, or when nobody
sleeps on it. -/
theorem WalkInv.unlinked (h : WalkInv rank s) (hm : MutexInv s)
    (hrelease : Releases s m s.current) (hdown : .sema_down (.lock m) ∉ s.cur.code)
    (hempty : s.cur.possessing_locks = [] ∨ (s.sema (.lock m)).waiters = []) (u : Tid) :
    (s.thread u).holded_by ≠ some m := by
  intro hlink
  have hok := h.links u m hlink
  rcases hempty with hempty | hempty
  · obtain ⟨low, ⟨e, he, -⟩, hholder | ⟨rfl, -⟩⟩ := hok.backed
    · rw [hm.released_holder hrelease] at hholder
      cases hholder
    · rw [show (s.thread s.current).possessing_locks = [] from hempty] at he
      cases he
  · rcases hok.waits with hwaits | ⟨-, hcode⟩
    · rw [hempty] at hwaits
      cases hwaits
    · exact hdown hcode

/-- The loop of `priority_rollback` cuts every link to the lock. -/
theorem WalkInv.loop_unlinks (h : WalkInv rank s) (hm : MutexInv s)
    (hgo : ThreadGo s (.rollback_loop m) r s' rest) (hrelease : Releases s m s.current) (u : Tid) :
    (s'.thread u).holded_by ≠ some m := by
  intro hlink
  rcases linked_go hgo hlink with ⟨-, hc⟩ | ⟨hold, hcut⟩
  · cases hc
  · obtain ⟨low, ⟨e, he, hlock, hte⟩, hholder | ⟨rfl, -⟩⟩ := (h.links u m hold).backed
    · rw [hm.released_holder hrelease] at hholder
      cases hholder
    · exact hcut e he (by rw [hlock]) hte

/-- The next stage of `lock_release`. -/
theorem Releasing.go {pre : List Stmt} (h : WalkInv rank s) (hm : MutexInv s)
    (hgo : ThreadGo s c r s' rest) (hrelease : Releases s m s.current)
    (hdown : .sema_down (.lock m) ∉ s.cur.code) (hpre : Releasing s m (c :: pre)) :
    Releasing s' m (pushes r c ++ pre) := by
  generalize hlist : c :: pre = l at hpre
  -- a statement that makes no link keeps the lock free of them
  have hkept : (∀ k, c ≠ .donation_link k) → (∀ u, (s.thread u).holded_by ≠ some m) →
      ∀ u, (s'.thread u).holded_by ≠ some m := by
    intro hc hnone u hlink
    rcases linked_go hgo hlink with ⟨-, hlink'⟩ | ⟨hold, -⟩
    · exact hc m hlink'
    · exact hnone u hold
  have hlocks : r.cur.possessing_locks = s.cur.possessing_locks :=
    congrArg Account.possessing_locks (popped_current hgo)
  cases hpre with
  | test =>
    obtain ⟨rfl, rfl⟩ := List.cons.inj hlist
    dsimp only [pushes]
    split_ifs with hempty
    · exact .rollback
    · rw [hlocks] at hempty
      exact .up (hkept (by simp) (h.unlinked hm hrelease hdown (Or.inl (not_not.mp hempty))))
  | rollback =>
    obtain ⟨rfl, rfl⟩ := List.cons.inj hlist
    dsimp only [pushes]
    rw [hgo.sema]
    split_ifs with hempty
    · exact .up (hkept (by simp) (h.unlinked hm hrelease hdown (Or.inr hempty)))
    · exact .loop
  | loop =>
    obtain ⟨rfl, rfl⟩ := List.cons.inj hlist
    exact .after (h.loop_unlinks hm hgo hrelease)
  | after hnone =>
    obtain ⟨rfl, rfl⟩ := List.cons.inj hlist
    dsimp only [pushes]
    split_ifs
    · exact .original (hkept (by simp) hnone)
    · exact .back (hkept (by simp) hnone)
  | original hnone =>
    obtain ⟨rfl, rfl⟩ := List.cons.inj hlist
    exact .up (hkept (by simp) hnone)
  | back hnone =>
    obtain ⟨rfl, rfl⟩ := List.cons.inj hlist
    exact .up (hkept (by simp) hnone)
  | up hnone => cases hlist

theorem Acquiring.not_moves {pre : List Stmt} (h : Acquiring s t m (c :: pre)) :
    ¬ c.Moves ∧ c.inside = true := by
  cases h <;> exact ⟨id, rfl⟩

theorem Releasing.not_moves {pre : List Stmt} (h : Releasing s m (c :: pre)) :
    ¬ c.Moves ∧ c.inside = true := by
  cases h <;> exact ⟨id, rfl⟩

/-- What stands in front of `sema_up` has nothing to do with `sema_down`. -/
theorem Releasing.not_down {pre : List Stmt} (h : Releasing s m pre) (k : LockId) :
    .sema_down (.lock k) ∉ pre := by
  cases h <;> simp

/-- **The section of the running thread** after a statement. It is over where the processor may
be handed on. -/
theorem WalkInv.own_go (h : WalkInv rank s) (hm : MutexInv s) (hgo : ThreadGo s c r s' rest)
    (hordered : ∀ k, c = .lock_acquire k → Below rank s s.current k) :
    Section rank s' s.current (s'.thread s.current).code ∧
    (c.Moves → ∀ d ∈ (s'.thread s.current).code, d.inside = false) := by
  have hsection := h.own
  rw [show s.cur.code = c :: rest from hgo.before] at hsection
  rw [hgo.after]
  generalize hlist : c :: rest = code at hsection
  cases hsection with
  | out hl =>
    subst hlist
    have hrest : ∀ d ∈ rest, d.inside = false := fun d hd => hl d (List.mem_cons_of_mem c hd)
    by_cases hacquire : ∃ k, c = .lock_acquire k
    · obtain ⟨k, rfl⟩ := hacquire
      have hbelow : Below rank s' s.current k := (hordered k rfl).go hgo (by simp)
      exact ⟨.acquire hbelow .test hrest, fun hmoves => absurd hmoves id⟩
    by_cases hrelease : ∃ k, c = .lock_release k
    · obtain ⟨k, rfl⟩ := hrelease
      exact ⟨.release .test hrest, fun hmoves => absurd hmoves id⟩
    have hout : ∀ d ∈ pushes r c ++ rest, d.inside = false := by
      intro d hd
      rcases List.mem_append.mp hd with hd | hd
      · exact pushes_inside (hl c List.mem_cons_self) (fun k heq => hacquire ⟨k, heq⟩)
          (fun k heq => hrelease ⟨k, heq⟩) d hd
      · exact hrest d hd
    exact ⟨.out hout, fun _ => hout⟩
  | @acquire m pre l hbelow hpre hl =>
    cases pre with
    | nil =>
      obtain ⟨rfl, rfl⟩ := List.cons.inj hlist
      have hout : ∀ d ∈ pushes r (.sema_down (.lock m)) ++ .lock_hold m :: l, d.inside = false := by
        intro d hd
        rcases List.mem_append.mp hd with hd | hd
        · dsimp only [pushes] at hd
          split_ifs at hd
          · rw [List.mem_singleton.mp hd]
            rfl
          · cases hd
        · rcases List.mem_cons.mp hd with rfl | hd
          · rfl
          · exact hl d hd
      exact ⟨.out hout, fun _ => hout⟩
    | cons d pre =>
      rw [List.cons_append] at hlist
      obtain ⟨rfl, rfl⟩ := List.cons.inj hlist
      have hbelow' : Below rank s' s.current m := by
        refine hbelow.go hgo fun _ k hc => ?_
        have hinside := hpre.not_moves.2
        rw [hc] at hinside
        cases hinside
      rw [← List.append_assoc]
      exact ⟨.acquire hbelow' (hpre.go hm hgo) hl, fun hmoves => absurd hmoves hpre.not_moves.1⟩
  | @release m pre l hpre hl =>
    cases pre with
    | nil =>
      obtain ⟨rfl, rfl⟩ := List.cons.inj hlist
      exact ⟨.out hl, fun _ => hl⟩
    | cons d pre =>
      rw [List.cons_append] at hlist
      obtain ⟨rfl, rfl⟩ := List.cons.inj hlist
      have hcode : s.cur.code = c :: pre ++ .sema_up (.lock m) :: l := hgo.before
      have hup : Releases s m s.current := by
        unfold Releases
        rw [show (s.thread s.current).code = _ from hcode]
        simp
      have hdown : .sema_down (.lock m) ∉ s.cur.code := by
        rw [hcode]
        intro hmem
        rcases List.mem_append.mp hmem with hmem | hmem
        · exact hpre.not_down m hmem
        · rcases List.mem_cons.mp hmem with heq | hmem
          · cases heq
          · cases hl _ hmem
      rw [← List.append_assoc]
      exact ⟨.release (hpre.go h hm hgo hup hdown) hl, fun hmoves => absurd hmoves hpre.not_moves.1⟩

/-! ## The links -/

/-- The semaphore of a held lock is down. -/
theorem MutexInv.held_value (hm : MutexInv s) (hholder : s.holder m = some t) :
    (s.sema (.lock m)).value = 0 := by
  obtain ⟨k, hplace⟩ := hm.place m
  have hheld := (hplace.holder t).mp hholder
  rw [hplace.value, if_neg (by rw [hheld]; simp)]

/-- `sema_down` and the test after a wake-up put a thread on `waiters` and take none off. -/
theorem waiters_down (s : Kernel) (i : SemaId) (f : List Tid → List Tid) :
    ((s.sema i).value = 0 → s.current ∈ ((sema_down_effect s i f).sema i).waiters) ∧
    ∀ t ∈ (s.sema i).waiters, t ∈ ((sema_down_effect s i f).sema i).waiters := by
  unfold sema_down_effect
  split_ifs with hvalue
  · rw [set_sema_apply, if_pos rfl, push_sema]
    exact ⟨fun _ => mem_insert_ordered.mpr (Or.inl rfl),
      fun t ht => mem_insert_ordered.mpr (Or.inr ht)⟩
  · rw [set_sema_apply, if_pos rfl]
    exact ⟨fun hzero => absurd hzero hvalue, fun t ht => ht⟩

/-- Only `sema_up` takes threads off `waiters`. -/
theorem waiters_go (hgo : ThreadGo s c r s' rest) (hc : c ≠ .sema_up (.lock m))
    (ht : t ∈ (s.sema (.lock m)).waiters) : t ∈ (s'.sema (.lock m)).waiters := by
  rw [← hgo.sema] at ht
  rw [exec_sema hgo.exec]
  by_cases hsema : c.sema = some (.lock m)
  swap
  · rw [(effect_frame r c).sema _ hsema]
    exact ht
  by_cases hmoves : c.Moves
  swap
  · rw [effect_waiters r hmoves]
    exact ht
  cases c with
  | sema_down i =>
    obtain rfl := Option.some.inj hsema
    exact (waiters_down r _ _).2 t ht
  | sema_retest i =>
    obtain rfl := Option.some.inj hsema
    exact (waiters_down r _ _).2 t ht
  | sema_up i =>
    obtain rfl := Option.some.inj hsema
    exact absurd rfl hc
  | sema_try_down | lock_try_down => exact absurd hmoves id
  | _ => cases hsema

/-- A record stays, unless its lock is in the loop. -/
theorem recorded_go (hgo : ThreadGo s c r s' rest) (hrecord : Recorded s m low t)
    (hused : (s.thread low).status ≠ .unused) (hloop : c = .rollback_loop m → low ≠ s.current) :
    Recorded s' m low t := by
  obtain ⟨e, he, rfl, hte⟩ := hrecord
  refine ⟨e, (mem_records hgo e low).mpr (Or.inr ⟨he, hloop, fun p hc => ?_⟩), rfl, hte⟩
  exact hused (created_unused hgo hc)

/-- A thread that is about to cut the links to a lock is in its release. -/
theorem Section.cuts (h : Section rank s t (c :: rest)) (hc : c.Cuts m) :
    .sema_up (.lock m) ∈ c :: rest ∧ ∀ k, .sema_down (.lock k) ∉ c :: rest := by
  have hinside : c.inside = true := by rcases hc with rfl | rfl | rfl <;> rfl
  generalize hlist : c :: rest = code at h
  cases h with
  | out hl =>
    rw [hl c (by rw [← hlist]; exact List.mem_cons_self)] at hinside
    cases hinside
  | acquire hbelow hpre hl =>
    -- no statement of `lock_acquire` cuts a link
    cases hpre <;> obtain ⟨rfl, -⟩ := List.cons.inj hlist <;>
      rcases hc with heq | heq | heq <;> cases heq
  | @release k pre l hpre hl =>
    have hkm : k = m := by
      cases hpre <;> obtain ⟨rfl, -⟩ := List.cons.inj hlist <;>
        rcases hc with heq | heq | heq <;> cases heq <;> rfl
    rw [hkm]
    refine ⟨by simp, fun k hmem => ?_⟩
    rcases List.mem_append.mp hmem with hmem | hmem
    · exact hpre.not_down k hmem
    · rcases List.mem_cons.mp hmem with heq | hmem
      · cases heq
      · cases hl _ hmem

/-- A thread that is about to sleep on a lock cuts no links, and every statement before the
`sema_down` leaves it to come. -/
theorem Section.sleeps (h : Section rank s t (c :: rest))
    (hdown : .sema_down (.lock m) ∈ c :: rest) :
    c = .sema_down (.lock m) ∨
      (¬ c.Moves ∧ c.inside = true ∧ .sema_down (.lock m) ∈ rest) := by
  generalize hlist : c :: rest = code at h
  cases h with
  | out hl =>
    rw [hlist] at hdown
    cases hl _ hdown
  | @acquire k pre l hbelow hpre hl =>
    cases pre with
    | nil =>
      obtain ⟨rfl, rfl⟩ := List.cons.inj hlist
      rcases List.mem_cons.mp hdown with heq | hmem
      · exact Or.inl heq.symm
      · rcases List.mem_cons.mp hmem with heq | hmem
        · cases heq
        · cases hl _ hmem
    | cons d pre =>
      rw [List.cons_append] at hlist
      obtain ⟨rfl, rfl⟩ := List.cons.inj hlist
      refine Or.inr ⟨hpre.not_moves.1, hpre.not_moves.2, ?_⟩
      rcases List.mem_cons.mp hdown with rfl | hmem
      · exact absurd trivial hpre.not_moves.1
      · exact hmem
  | @release k pre l hpre hl =>
    rw [hlist] at hdown
    rcases List.mem_append.mp hdown with hmem | hmem
    · exact absurd hmem (hpre.not_down m)
    · rcases List.mem_cons.mp hmem with heq | hmem
      · cases heq
      · cases hl _ hmem

/-- When the semaphore is upped, nobody is linked to the lock. -/
theorem Section.up (h : Section rank s t (.sema_up (.lock m) :: rest)) (u : Tid) :
    (s.thread u).holded_by ≠ some m := by
  generalize hlist : .sema_up (.lock m) :: rest = code at h
  cases h with
  | out hl =>
    rw [← hlist] at hl
    cases hl _ List.mem_cons_self
  | acquire hbelow hpre hl => cases hpre <;> cases hlist
  | @release k pre l hpre hl =>
    cases hpre with
    | up hnone =>
      cases hlist
      exact hnone u
    | _ => cases hlist

/-- A link is made with the record in place and the lock held. -/
theorem Section.links (h : Section rank s t (.donation_link m :: rest)) :
    Below rank s t m ∧ .sema_down (.lock m) ∈ rest ∧
      ∃ low, s.holder m = some low ∧ Recorded s m low t := by
  generalize hlist : .donation_link m :: rest = code at h
  cases h with
  | out hl =>
    rw [← hlist] at hl
    cases hl _ List.mem_cons_self
  | @acquire k pre l hbelow hpre hl =>
    cases hpre with
    | link hholder hrecord =>
      obtain ⟨heq, rfl⟩ := List.cons.inj hlist
      cases heq
      exact ⟨hbelow, by simp, _, hholder, hrecord⟩
    | _ => cases hlist
  | release hpre hl => cases hpre <;> cases hlist

section Thread

variable (h : WalkInv rank s) (hk : KernelInv s) (hm : MutexInv s) (hgo : ThreadGo s c r s' rest)

include h hk hm hgo

omit hk hm in
theorem WalkInv.own_cons : Section rank s s.current (c :: rest) := by
  rw [← hgo.before]
  exact h.own

omit hk in
/-- The link that `priority_donation` makes. -/
theorem WalkInv.link_new (hc : c = .donation_link m) : LinkOk rank s' s.current m := by
  subst hc
  obtain ⟨hbelow, hdown, low, hholder, hrecord⟩ := (h.own_cons hgo).links
  have hcurrent := current_go hgo id
  refine ⟨hbelow.go hgo (by simp), Or.inr ⟨hcurrent.symm, ?_⟩, low, ?_, Or.inl ?_⟩
  · show .sema_down (.lock m) ∈ (s'.thread s'.current).code
    rw [hcurrent, hgo.after]
    exact List.mem_append_right _ hdown
  · exact recorded_go hgo hrecord (h.used m low hholder) (by simp)
  · exact hm.holder_kept hgo hholder (by simp)

omit hk in
/-- A thread that is linked sleeps on, or goes on to sleep. -/
theorem WalkInv.waits_go (hlink : (s.thread t).holded_by = some m) :
    t ∈ (s'.sema (.lock m)).waiters ∨
      (t = s'.current ∧ .sema_down (.lock m) ∈ s'.cur.code) := by
  have hok := h.links t m hlink
  rcases hok.waits with hwaits | ⟨rfl, hdown⟩
  · refine Or.inl (waiters_go hgo ?_ hwaits)
    rintro rfl
    exact (h.own_cons hgo).up t hlink
  rw [show s.cur.code = c :: rest from hgo.before] at hdown
  rcases (h.own_cons hgo).sleeps hdown with rfl | ⟨hmoves, -, hmem⟩
  · -- the lock is held, so the thread goes to sleep
    have hvalue : (r.sema (.lock m)).value = 0 := by
      rw [hgo.sema]
      obtain ⟨low, -, hholder | ⟨-, d, hd, hcuts⟩⟩ := hok.backed
      · exact hm.held_value hholder
      · rw [show s.cur.code = _ from hgo.before] at hd
        obtain rfl := Option.some.inj hd
        rcases hcuts with heq | heq | heq <;> cases heq
    refine Or.inl ?_
    rw [exec_sema hgo.exec, ← hgo.current]
    exact (waiters_down r _ _).1 hvalue
  · have hcurrent := current_go hgo hmoves
    refine Or.inr ⟨hcurrent.symm, ?_⟩
    show .sema_down (.lock m) ∈ (s'.thread s'.current).code
    rw [hcurrent, hgo.after]
    exact List.mem_append_right _ hmem

/-- The record behind a link. -/
theorem WalkInv.backed_go (hlink : (s.thread t).holded_by = some m)
    (hlink' : (s'.thread t).holded_by = some m) : ∃ low, Recorded s' m low t ∧
      (s'.holder m = some low ∨ (low = s'.current ∧ ∃ d ∈ s'.cur.code.head?, d.Cuts m)) := by
  have hok := h.links t m hlink
  have hown := h.own_cons hgo
  have hhead : ∀ {d : Stmt}, ¬ c.Moves → d ∈ (pushes r c ++ rest).head? → d.Cuts m →
      ∃ d ∈ s'.cur.code.head?, d.Cuts m := by
    intro d hmoves hpushes hcuts
    refine ⟨d, ?_, hcuts⟩
    show d ∈ (s'.thread s'.current).code.head?
    rw [current_go hgo hmoves, hgo.after]
    exact hpushes
  obtain ⟨low, hrecord, hholder | ⟨rfl, d, hd, hcuts⟩⟩ := hok.backed
  · have hused := h.used m low hholder
    by_cases hrelease : c = .lock_release m
    · subst hrelease
      obtain rfl := Option.some.inj (hholder.symm.trans (release_holder hgo))
      refine ⟨_, recorded_go hgo hrecord hused (by simp), Or.inr ⟨(current_go hgo id).symm, ?_⟩⟩
      exact hhead id rfl (Or.inl rfl)
    · refine ⟨low, recorded_go hgo hrecord hused ?_, Or.inl (hm.holder_kept hgo hholder hrelease)⟩
      rintro rfl -
      have hup := (hown.cuts (Or.inr (Or.inr rfl))).1
      rw [← hgo.before] at hup
      rw [hm.released_holder hup] at hholder
      cases hholder
  -- the holder is in its roll-back
  rw [show s.cur.code = c :: rest from hgo.before] at hd
  obtain rfl := Option.some.inj hd
  have hused : (s.thread s.current).status ≠ .unused := by
    rw [show (s.thread s.current).status = .running from hk.sched.running]
    decide
  obtain ⟨hup, hdown⟩ := hown.cuts hcuts
  rcases hcuts with rfl | rfl | rfl
  · have hne : r.cur.possessing_locks ≠ [] := by
      obtain ⟨e, he, -⟩ := hrecord
      rw [show r.cur.possessing_locks = (s.thread s.current).possessing_locks from
        congrArg Account.possessing_locks (popped_current hgo)]
      exact List.ne_nil_of_mem he
    refine ⟨_, recorded_go hgo hrecord hused (by simp), Or.inr ⟨(current_go hgo id).symm, ?_⟩⟩
    refine hhead id ?_ (Or.inr (Or.inl rfl))
    dsimp only [pushes]
    rw [if_pos hne]
    rfl
  · have hne : (r.sema (.lock m)).waiters ≠ [] := by
      rw [hgo.sema]
      rcases hok.waits with hwaits | ⟨-, hcode⟩
      · exact List.ne_nil_of_mem hwaits
      · rw [show s.cur.code = _ from hgo.before] at hcode
        exact absurd hcode (hdown m)
    refine ⟨_, recorded_go hgo hrecord hused (by simp), Or.inr ⟨(current_go hgo id).symm, ?_⟩⟩
    refine hhead id ?_ (Or.inr (Or.inr rfl))
    dsimp only [pushes]
    rw [if_neg hne]
    rfl
  · rw [← hgo.before] at hup
    exact absurd hlink' (h.loop_unlinks hm hgo hup t)

/-- **The links** after a statement. -/
theorem WalkInv.links_go (hlink' : (s'.thread t).holded_by = some m) : LinkOk rank s' t m := by
  rcases linked_go hgo hlink' with ⟨rfl, hc⟩ | ⟨hlink, -⟩
  · exact h.link_new hm hgo hc
  refine ⟨(h.links t m hlink).below.go hgo ?_, h.waits_go hm hgo hlink,
    h.backed_go hk hm hgo hlink hlink'⟩
  -- a thread that is linked does not write `holder`
  rintro rfl k rfl
  have hdown := h.link_current hk hlink
  rw [show s.cur.code = _ from hgo.before] at hdown
  rcases (h.own_cons hgo).sleeps hdown with heq | ⟨-, hinside, -⟩
  · cases heq
  · cases hinside

omit hk hm in
theorem WalkInv.bound_go : ∃ B, ∀ t m, (s'.thread t).holded_by = some m → rank m < B := by
  obtain ⟨B, hB⟩ := h.bound
  by_cases hnew : ∃ k, c = .donation_link k
  · obtain ⟨k, rfl⟩ := hnew
    refine ⟨max B (rank k + 1), fun t m hlink => ?_⟩
    rcases linked_go hgo hlink with ⟨-, hc⟩ | ⟨hold, -⟩
    · cases hc
      exact lt_of_lt_of_le (Nat.lt_succ_self _) (le_max_right _ _)
    · exact lt_of_lt_of_le (hB t m hold) (le_max_left _ _)
  · refine ⟨B, fun t m hlink => ?_⟩
    rcases linked_go hgo hlink with ⟨-, hc⟩ | ⟨hold, -⟩
    · exact absurd ⟨m, hc⟩ hnew
    · exact hB t m hold

/-- **A statement of the running thread.** -/
theorem WalkInv.thread (hordered : ∀ k, c = .lock_acquire k → Below rank s s.current k) :
    WalkInv rank s' := by
  obtain ⟨hsection, hover⟩ := h.own_go hm hgo hordered
  refine ⟨fun m t hn => holder_used hgo h.used hn, fun t ht d hd => ?_, ?_,
    fun t m hlink => h.links_go hk hm hgo hlink, h.bound_go hgo⟩
  · by_cases hcur : t = s.current
    · -- it has handed the processor on
      rw [hcur] at hd ht
      refine hover ?_ d hd
      by_contra hmoves
      exact ht (current_go hgo hmoves).symm
    · rw [hgo.code t hcur] at hd
      exact h.others t hcur d hd
  · show Section rank s' s'.current (s'.thread s'.current).code
    by_cases hcur : s'.current = s.current
    · rw [hcur]
      exact hsection
    · refine .out fun d hd => ?_
      rw [hgo.code _ hcur] at hd
      exact h.others _ hcur d hd

end Thread

/-! ## Everything else -/

/-- Holders, links, records and the sleepers on locks are the same. -/
structure SameLocks (s s' : Kernel) : Prop where
  holder : s'.holder = s.holder
  holded_by : ∀ t, (s'.thread t).holded_by = (s.thread t).holded_by
  records : ∀ t, (s'.thread t).possessing_locks = (s.thread t).possessing_locks
  waiters : ∀ m, (s'.sema (.lock m)).waiters = (s.sema (.lock m)).waiters
  used : ∀ t, (s.thread t).status ≠ .unused → (s'.thread t).status ≠ .unused

theorem SameLocks.switch (h : Switch s s') : SameLocks s s' :=
  ⟨h.holder, h.holded_by, h.possessing_locks, fun _ => by rw [h.sema], h.used⟩

theorem SameLocks.push (s : Kernel) (l : List Stmt) : SameLocks s (s.push l) := by
  have hthread := ThreadFrame.push (fun t => ThreadFrame.refl .thread_yield (s.thread t)) l
  refine ⟨push_holder s l, fun t => (hthread t).holded_by (by decide),
    fun t => (hthread t).possessing_locks (by decide), fun m => by rw [push_sema], fun t ht => ?_⟩
  rw [(hthread t).status]
  exact ht

theorem SameLocks.below (h : SameLocks s s') (hbelow : Below rank s t m) : Below rank s' t m := by
  unfold Below
  rw [h.holder]
  exact hbelow

theorem SameLocks.recorded (h : SameLocks s s') (hrecord : Recorded s m low t) :
    Recorded s' m low t := by
  unfold Recorded
  rw [h.records]
  exact hrecord

/-- A section rests on what is the same. -/
theorem SameLocks.section (h : SameLocks s s') (hs : Section rank s t l) : Section rank s' t l := by
  cases hs with
  | out hl => exact .out hl
  | @acquire m pre l hbelow hpre hl =>
    refine .acquire (h.below hbelow) ?_ hl
    cases hpre with
    | test => exact .test
    | compare => exact .compare
    | call => exact .call
    | member hholder => exact .member (h.holder ▸ hholder)
    | insert hholder => exact .insert (h.holder ▸ hholder)
    | link hholder hrecord => exact .link (h.holder ▸ hholder) (h.recorded hrecord)
    | write => exact .write
    | nested => exact .nested
    | nested_low hlink => exact .nested_low (by rw [h.holded_by]; exact hlink)
    | nested_write => exact .nested_write
    | down => exact .down
  | @release m pre l hpre hl =>
    have hkept : (∀ u, (s.thread u).holded_by ≠ some m) → ∀ u, (s'.thread u).holded_by ≠ some m := by
      intro hnone u
      rw [h.holded_by]
      exact hnone u
    refine .release ?_ hl
    cases hpre with
    | test => exact .test
    | rollback => exact .rollback
    | loop => exact .loop
    | after hnone => exact .after (hkept hnone)
    | original hnone => exact .original (hkept hnone)
    | back hnone => exact .back (hkept hnone)
    | up hnone => exact .up (hkept hnone)

/-- The running thread goes on where it is. -/
theorem WalkInv.congr (h : WalkInv rank s) (hsame : SameLocks s s')
    (hcurrent : s'.current = s.current) (hcode : ∀ t, (s'.thread t).code = (s.thread t).code) :
    WalkInv rank s' := by
  have hcur : s'.cur.code = s.cur.code := by
    show (s'.thread s'.current).code = _
    rw [hcurrent, hcode]
  refine ⟨fun m t hm => hsame.used t (h.used m t (hsame.holder ▸ hm)), fun t ht => ?_, ?_,
    fun t m hlink => ?_, ?_⟩
  · rw [hcode]
    rw [hcurrent] at ht
    exact h.others t ht
  · rw [hcur, hcurrent]
    exact hsame.section h.own
  · rw [hsame.holded_by] at hlink
    have hok := h.links t m hlink
    obtain ⟨low, hrecord, hbacked⟩ := hok.backed
    refine ⟨hsame.below hok.below, ?_, low, hsame.recorded hrecord, ?_⟩
    · rw [hsame.waiters, hcurrent, hcur]
      exact hok.waits
    · rw [hsame.holder, hcurrent, hcur]
      exact hbacked
  · obtain ⟨B, hB⟩ := h.bound
    refine ⟨B, fun t m hlink => hB t m ?_⟩
    rw [← hsame.holded_by]
    exact hlink

/-- Nobody is in a section, before and after. -/
theorem WalkInv.of_out (h : WalkInv rank s) (hsame : SameLocks s s')
    (hout : ∀ c ∈ s.cur.code, c.inside = false)
    (hout' : ∀ t, ∀ c ∈ (s'.thread t).code, c.inside = false) : WalkInv rank s' := by
  refine ⟨fun m t hm => hsame.used t (h.used m t (hsame.holder ▸ hm)), fun t _ => hout' t,
    .out (hout' _), fun t m hlink => ?_, ?_⟩
  · rw [hsame.holded_by] at hlink
    have hok := h.links t m hlink
    obtain ⟨low, hrecord, hholder | ⟨-, d, hd, hcuts⟩⟩ := hok.backed
    · refine ⟨hsame.below hok.below, ?_, low, hsame.recorded hrecord, Or.inl (hsame.holder ▸ hholder)⟩
      rcases hok.waits with hwaits | ⟨-, hdown⟩
      · rw [hsame.waiters]
        exact Or.inl hwaits
      · cases hout _ hdown
    · have hinside := hout d (List.mem_of_mem_head? hd)
      rcases hcuts with rfl | rfl | rfl <;> cases hinside
  · obtain ⟨B, hB⟩ := h.bound
    refine ⟨B, fun t m hlink => hB t m ?_⟩
    rw [← hsame.holded_by]
    exact hlink

/-- `thread_unblock` in a handler does not get away with a yield. -/
theorem thread_unblock_external (hx : s.in_external_intr = true)
    (hs : thread_unblock s t = .ok s') : s'.current = s.current := by
  unfold thread_unblock at hs
  obtain ⟨-, -, hs⟩ := bind_eq_ok hs
  obtain ⟨r, hr, hs⟩ := bind_eq_ok hs
  obtain ⟨-, -, hs⟩ := bind_eq_ok hs
  split_ifs at hs
  · obtain ⟨_, hassert, -⟩ := bind_eq_ok hs
    have hout := ASSERT_eq_ok hassert
    rw [(make_ready_switch hr).in_external_intr, hx] at hout
    cases hout
  · obtain rfl := Except.ok.inj hs
    exact make_ready_current hr

/-- A handler returns to the thread it has interrupted. -/
theorem handler_current (hgo : HandlerGo s c r s' rest) : s'.current = s.current := by
  have hx : r.in_external_intr = true := by
    rw [hgo.popped]
    exact hgo.context
  have hcurrent : r.current = s.current := by rw [hgo.popped]
  have hexec := hgo.exec
  have hfits := hgo.fits
  rw [← hcurrent]
  cases c with
  | sema_up i =>
    dsimp only [exec, sema_up] at hexec
    split at hexec
    · obtain rfl := Except.ok.inj hexec
      rfl
    · have hkept := fun hx => thread_unblock_external hx hexec
      exact hkept hx
  | thread_unblock t => exact thread_unblock_external hx hexec
  | wake_waiting_list => exact (wake_from_ready hexec).1
  | intq_getc | intq_putc | intq_signal | intq_clear | timer_interrupt | mlfqs_tick_change =>
    obtain rfl := exec_eq_effect id hexec
    exact (effect_frame r _).current
  | _ => exact absurd hfits id

/-- Handlers have no part in locks and links. -/
theorem handler_same (hgo : HandlerGo s c r s' rest) : SameLocks s s' := by
  have hfits := hgo.fits
  have hcreate : ∀ u p, c ≠ .thread_create u p := by
    rintro u p rfl
    exact hfits
  have hwrites : .holded_by ∉ c.writes ∧ .possessing_locks ∉ c.writes := by
    cases c <;> first | exact absurd hfits id | simp [Stmt.writes]
  refine ⟨?_, fun t => ?_, fun t => ?_, fun m => ?_, fun t ht => ?_⟩
  · rw [exec_holder hgo.exec]
    funext m
    rw [(effect_frame r c).holder m, hgo.popped]
    intro hlock
    cases c with
    | lock_hold | lock_release => exact hfits
    | _ => cases hlock
  · have hframe := (effect_thread r hcreate t).holded_by hwrites.1
    rw [show (s'.thread t).holded_by = _ from congrArg Account.holded_by (exec_account hgo.exec t)]
    show ((effect r c).thread t).holded_by = _
    rw [hframe, hgo.popped]
  · have hframe := (effect_thread r hcreate t).possessing_locks hwrites.2
    rw [show (s'.thread t).possessing_locks = _ from
      congrArg Account.possessing_locks (exec_account hgo.exec t)]
    show ((effect r c).thread t).possessing_locks = _
    rw [hframe, hgo.popped]
  · rw [exec_sema hgo.exec, (effect_frame r c).sema, hgo.popped]
    intro hsema
    cases c with
    | sema_up i =>
      obtain rfl := Option.some.inj hsema
      exact hfits
    | _ => first | exact hfits | cases hsema
  · refine exec_used hgo.exec ?_
    rw [hgo.popped]
    exact ht

/-! ## Runs -/

/-- Threads take locks in the order of `rank`. -/
def Ordered (rank : LockId → ℕ) (s : Kernel) : Event → Prop
  | .go => s.in_external_intr = false → ∀ m, .lock_acquire m ∈ s.cur.code.head? →
      Below rank s s.current m
  | _ => True

/-- Nobody is preempted in `lock_acquire` before it sleeps, and in `lock_release`. -/
def Unpreempted (s : Kernel) : Event → Prop
  | .intr_end => s.yield_on_return = true → ∀ c ∈ s.cur.code, c.inside = false
  | _ => True

def WalkOk (rank : LockId → ℕ) (s : Kernel) (e : Event) : Prop := Ordered rank s e ∧ Unpreempted s e

theorem Called.outside {l : List Stmt} (h : Called l) : ∀ c ∈ l, c.inside = false := by
  cases h with
  | idle => decide
  | @call c h =>
    intro d hd
    obtain rfl := List.mem_singleton.mp hd
    cases d with
    | sema_down i | sema_up i => cases i <;> first | rfl | exact absurd h id
    | _ => first | rfl | exact absurd h id

theorem WalkInv.step {e : Event} (h : WalkInv rank s) (hk : KernelInv s) (hm : MutexInv s)
    (hok : WalkOk rank s e) (hs : step s e s') : WalkInv rank s' := by
  have hcall : ∀ l, s.cur.code = [] → Called l → WalkInv rank (s.push l) := by
    intro l hcode hl
    refine h.of_out (SameLocks.push s l) (by rw [hcode]; simp) fun t d hd => ?_
    rw [push_code] at hd
    split_ifs at hd with ht
    · rw [ht.2, show (s.thread s.current).code = [] from hcode, List.append_nil] at hd
      exact hl.outside d hd
    · by_cases hcur : t = s.current
      · rw [hcur, show (s.thread s.current).code = [] from hcode] at hd
        cases hd
      · exact h.others t hcur d hd
  cases e with
  | call c =>
    obtain ⟨-, -, hcode, hc, rfl⟩ := hs
    exact hcall _ hcode (.call hc)
  | idle =>
    obtain ⟨-, -, hcode, rfl⟩ := hs
    exact hcall _ hcode .idle
  | go =>
    obtain ⟨c, r, hp, hs⟩ := hs
    rcases go_cases hk hp hs with ⟨rest, hgo⟩ | ⟨rest, hgo⟩
    · exact h.congr (handler_same hgo) (handler_current hgo) hgo.code
    · refine h.thread hk hm hgo ?_
      rintro k rfl
      refine hok.1 hgo.context k ?_
      rw [show s.cur.code = _ from hgo.before]
      rfl
  | intr =>
    obtain ⟨-, rfl⟩ := hs
    exact h.congr ⟨rfl, fun _ => rfl, fun _ => rfl, fun _ => rfl, fun _ ht => ht⟩ rfl fun _ => rfl
  | handle c =>
    obtain ⟨hx, -, -, rfl⟩ := hs
    refine h.congr (SameLocks.push s _) (push_current s _) fun t => ?_
    rw [push_code, if_neg fun hc => absurd (hx.symm.trans hc.1) (by decide)]
  | intr_end =>
    obtain ⟨-, -, hs⟩ := hs
    unfold intr_end at hs
    dsimp only at hs
    split_ifs at hs with hyield
    · have hsw := thread_yield_switch hs
      have hsame := SameLocks.switch hsw
      refine h.of_out ⟨hsame.holder, hsame.holded_by, hsame.records, hsame.waiters, hsame.used⟩
        (hok.2 hyield) fun t d hd => ?_
      rw [hsw.code] at hd
      by_cases hcur : t = s.current
      · rw [hcur] at hd
        exact hok.2 hyield d hd
      · exact h.others t hcur d hd
    · obtain rfl := Except.ok.inj hs
      exact h.congr ⟨rfl, fun _ => rfl, fun _ => rfl, fun _ => rfl, fun _ ht => ht⟩ rfl fun _ => rfl

theorem WalkInv.thread_start (u : Setup) : WalkInv rank (thread_start u) := by
  have hlink : ∀ t, ((Machine.thread_start u).thread t).holded_by = none := by
    intro t
    dsimp only [Machine.thread_start]
    split_ifs <;> rfl
  refine ⟨fun m t hm => (by cases hm), fun t _ c hc => ?_, .out fun c hc => ?_,
    fun t m hm => ?_, 0, fun t m hm => ?_⟩
  · rw [thread_start_code u t c hc]
    rfl
  · rw [thread_start_code u _ c hc]
    rfl
  · rw [hlink] at hm
    cases hm
  · rw [hlink] at hm
    cases hm

theorem walk_inv {u : Setup} (hr : Reachable (kernel_system u) (WalkOk rank) s) :
    WalkInv rank s := by
  have hboth : MutexInv s ∧ WalkInv rank s := by
    refine reachable_rule (P := fun r => MutexInv r ∧ WalkInv rank r) hr
      ⟨MutexInv.thread_start u, WalkInv.thread_start u⟩ fun r e r' hk hi hok hs => ?_
    exact ⟨hi.1.step hk hs, hi.2.step hk hi.1 hok hs⟩
  exact hboth.2

/-! ## The walk -/

/-- The threads that `nested_donation` visits from `t` on. -/
inductive Visits (s : Kernel) : Tid → List Tid → Prop
  | last {t : Tid} (h : (s.thread t).holded_by = none) : Visits s t [t]
  | next {t u : Tid} {m : LockId} {l : List Tid} (hlink : (s.thread t).holded_by = some m)
      (hholder : s.holder m = some u) (h : Visits s u l) : Visits s t (t :: l)

/-- Unless the running thread is about to cut them, links lead to locks that are held. -/
theorem WalkInv.held (h : WalkInv rank s) (hcuts : ∀ m, ∀ c ∈ s.cur.code.head?, ¬ c.Cuts m)
    (hlink : (s.thread t).holded_by = some m) : ∃ low, s.holder m = some low := by
  obtain ⟨low, -, hholder | ⟨-, c, hc, hm⟩⟩ := (h.links t m hlink).backed
  · exact ⟨low, hholder⟩
  · exact absurd hm (hcuts m c hc)

/-- **The walk ends.** It goes up in the order of the locks, which is bounded by the links
there are. -/
theorem WalkInv.visits (h : WalkInv rank s)
    (hheld : ∀ t m, (s.thread t).holded_by = some m → ∃ low, s.holder m = some low) (t : Tid) :
    ∃ l, Visits s t l := by
  obtain ⟨B, hB⟩ := h.bound
  have hwalk : ∀ n t, (∀ m, (s.thread t).holded_by = some m → B ≤ rank m + n) →
      ∃ l, Visits s t l := by
    intro n
    induction n with
    | zero =>
      intro t hn
      cases hlink : (s.thread t).holded_by with
      | none => exact ⟨_, .last hlink⟩
      | some m =>
        have hle := hn m hlink
        have hlt := hB t m hlink
        omega
    | succ n ih =>
      intro t hn
      cases hlink : (s.thread t).holded_by with
      | none => exact ⟨_, .last hlink⟩
      | some m =>
        obtain ⟨low, hholder⟩ := hheld t m hlink
        obtain ⟨l, hl⟩ := ih low fun k hk => by
          have hlt := (h.links low k hk).below m hholder
          have hle := hn m hlink
          omega
        exact ⟨_, .next hlink hholder hl⟩
  exact hwalk B t fun m _ => Nat.le_add_left B (rank m)

/-- Further along the walk the locks are higher in the order. -/
theorem Visits.above (h : WalkInv rank s) {l : List Tid} (hv : Visits s t l) {u : Tid} (hu : u ∈ l)
    {k : LockId} (hk : (s.thread u).holded_by = some k) :
    ∃ m, (s.thread t).holded_by = some m ∧ rank m ≤ rank k := by
  induction hv with
  | last hnone =>
    rw [List.mem_singleton.mp hu] at hk
    exact ⟨k, hk, le_rfl⟩
  | @next t low m l hlink hholder hv ih =>
    rcases List.mem_cons.mp hu with rfl | hu
    · exact ⟨k, hk, le_rfl⟩
    · obtain ⟨m', hm', hle⟩ := ih hu
      exact ⟨m, hlink, ((h.links low m' hm').below m hholder).le.trans hle⟩

/-- No thread is visited twice. -/
theorem Visits.nodup (h : WalkInv rank s) {l : List Tid} (hv : Visits s t l) : l.Nodup := by
  induction hv with
  | last _ => exact List.nodup_singleton _
  | @next t low m l hlink hholder hv ih =>
    refine List.nodup_cons.mpr ⟨fun hmem => ?_, ih⟩
    obtain ⟨m', hm', hle⟩ := hv.above h hmem hlink
    have hlt := (h.links low m' hm').below m hholder
    omega

/-- What is left of `nested_donation (high, ..)` on a walk, `n` statements later. -/
def walk_code : Tid → List Tid → ℕ → List Stmt
  | _, [], _ => []
  | high, medium :: _, 0 => [.nested_donation high medium]
  | _, [_], _ + 1 => []
  | high, medium :: _ :: _, 1 => [.nested_low high medium]
  | high, medium :: low :: _, 2 => [.nested_write high low, .nested_donation medium low]
  | _, medium :: low :: l, n + 3 => walk_code medium (low :: l) n

/-- The number of statements of a walk. -/
def walk_length (l : List Tid) : ℕ := 3 * (l.length - 1) + 1

theorem Visits.head {l : List Tid} (h : Visits s t l) : ∃ l', l = t :: l' := by
  cases h with
  | last _ => exact ⟨[], rfl⟩
  | next _ _ _ => exact ⟨_, rfl⟩

/-- At its end nothing is left. -/
theorem Visits.code_end {l : List Tid} (h : Visits s t l) (high : Tid) :
    walk_code high l (walk_length l) = [] := by
  induction h generalizing high with
  | last _ => rfl
  | @next t low m l hlink hholder hv ih =>
    obtain ⟨l', rfl⟩ := hv.head
    exact ih t

/-- A statement of `nested_donation`. -/
def Stmt.walks : Stmt → Bool
  | .nested_donation _ _ | .nested_low _ _ | .nested_write _ _ => true
  | _ => false

/-- **One statement of the walk**: it goes through, and leaves what comes next. -/
theorem Visits.code_step {l : List Tid} (h : Visits s t l) (high : Tid) {n : ℕ}
    (hn : n < walk_length l) : ∃ c tail, walk_code high l n = c :: tail ∧ c.walks = true ∧
      ∀ r : Kernel, r.holder = s.holder → (∀ t, (r.thread t).holded_by = (s.thread t).holded_by) →
        pushes r c ++ tail = walk_code high l (n + 1) ∧ ∃ r', exec r c = .ok r' := by
  induction h generalizing high n with
  | @last t hnone =>
    obtain rfl : n = 0 := by
      unfold walk_length at hn
      simpa using hn
    refine ⟨_, [], rfl, rfl, fun r hholder hlinks => ⟨?_, _, rfl⟩⟩
    dsimp only [pushes]
    rw [hlinks, if_pos hnone]
    rfl
  | @next t low m l hlink hholder hv ih =>
    obtain ⟨l', rfl⟩ := hv.head
    match n with
    | 0 =>
      refine ⟨_, [], rfl, rfl, fun r hr hlinks => ⟨?_, _, rfl⟩⟩
      dsimp only [pushes]
      rw [hlinks, if_neg (by rw [hlink]; simp)]
      rfl
    | 1 =>
      refine ⟨_, [], rfl, rfl, fun r hr hlinks => ?_⟩
      have hlow : (r.thread t).holded_by.bind r.holder = some low := by
        rw [hlinks, hlink, hr]
        exact hholder
      dsimp only [pushes, exec, nested_low]
      rw [hlow]
      exact ⟨rfl, _, rfl⟩
    | 2 => exact ⟨_, [.nested_donation t low], rfl, rfl, fun r _ _ => ⟨rfl, _, rfl⟩⟩
    | n + 3 =>
      refine ih t ?_
      unfold walk_length at hn ⊢
      simp only [List.length_cons] at hn ⊢
      omega

/-- Runs from `s` in which `t` executes `n` statements. -/
inductive Executes (ok : Kernel → Event → Prop) (t : Tid) (s : Kernel) : ℕ → Kernel → Prop
  | start : Executes ok t s 0 s
  | own {n : ℕ} {r r' : Kernel} (h : Executes ok t s n r) (hok : ok r .go)
      (hcontext : r.in_external_intr = false) (hcurrent : r.current = t) (hs : step r .go r') :
      Executes ok t s (n + 1) r'
  | other {n : ℕ} {r r' : Kernel} {e : Event} (h : Executes ok t s n r) (hok : ok r e)
      (hother : e = .go → r.in_external_intr = false → r.current ≠ t) (hs : step r e r') :
      Executes ok t s n r'

/-- While the running thread is in a section, what others do leaves it there. -/
theorem Unpreempted.stays {e : Event} (hok : Unpreempted s e) (hk : KernelInv s)
    (hinside : ∃ c ∈ s.cur.code, c.inside = true)
    (hother : e = .go → s.in_external_intr = true) (hs : step s e s') :
    SameLocks s s' ∧ s'.current = s.current ∧ ∀ t, (s'.thread t).code = (s.thread t).code := by
  obtain ⟨d, hd, hinside⟩ := hinside
  have hcode : s.cur.code ≠ [] := List.ne_nil_of_mem hd
  cases e with
  | call c => exact absurd hs.2.2.1 hcode
  | idle => exact absurd hs.2.2.1 hcode
  | go =>
    obtain ⟨c, r, hp, hs⟩ := hs
    rcases go_cases hk hp hs with ⟨rest, hgo⟩ | ⟨rest, hgo⟩
    · exact ⟨handler_same hgo, handler_current hgo, hgo.code⟩
    · exact absurd (hgo.context.symm.trans (hother rfl)) (by decide)
  | intr =>
    obtain ⟨-, rfl⟩ := hs
    exact ⟨⟨rfl, fun _ => rfl, fun _ => rfl, fun _ => rfl, fun _ ht => ht⟩, rfl, fun _ => rfl⟩
  | handle c =>
    obtain ⟨hx, -, -, rfl⟩ := hs
    refine ⟨SameLocks.push s _, push_current s _, fun t => ?_⟩
    rw [push_code, if_neg fun hc => absurd (hx.symm.trans hc.1) (by decide)]
  | intr_end =>
    obtain ⟨-, -, hs⟩ := hs
    unfold intr_end at hs
    dsimp only at hs
    split_ifs at hs with hyield
    · rw [hok hyield d hd] at hinside
      cases hinside
    · obtain rfl := Except.ok.inj hs
      exact ⟨⟨rfl, fun _ => rfl, fun _ => rfl, fun _ => rfl, fun _ ht => ht⟩, rfl, fun _ => rfl⟩

/-- Behind a walk comes the `sema_down` of `lock_acquire`. -/
theorem Section.walk {high medium : Tid}
    (h : Section rank s t (.nested_donation high medium :: rest)) :
    ∃ m, .sema_down (.lock m) ∈ rest := by
  generalize hlist : .nested_donation high medium :: rest = code at h
  cases h with
  | out hl =>
    rw [← hlist] at hl
    cases hl _ List.mem_cons_self
  | @acquire k pre l hbelow hpre hl =>
    cases hpre with
    | nested =>
      obtain ⟨-, rfl⟩ := List.cons.inj hlist
      exact ⟨k, by simp⟩
    | _ => cases hlist
  | release hpre hl => cases hpre <;> cases hlist

/-- The link that is followed was there a statement ago, and nobody has run since. -/
theorem Section.follows {high medium : Tid}
    (h : Section rank s t (.nested_low high medium :: rest)) :
    (s.thread medium).holded_by ≠ none := by
  generalize hlist : .nested_low high medium :: rest = code at h
  cases h with
  | out hl =>
    rw [← hlist] at hl
    cases hl _ List.mem_cons_self
  | acquire hbelow hpre hl =>
    cases hpre with
    | nested_low hlink =>
      cases hlist
      exact hlink
    | _ => cases hlist
  | release hpre hl => cases hpre <;> cases hlist

/-- A thread in the middle of a walk is the one that runs. -/
theorem WalkInv.current_of_inside (h : WalkInv rank s) (hc : c ∈ (s.thread t).code)
    (hinside : c.inside = true) : t = s.current := by
  by_contra hne
  rw [h.others t hne c hc] at hinside
  cases hinside

/-- A statement of the walk leaves holders and links. -/
theorem walk_same (hgo : ThreadGo s c r s' rest) (hc : c.walks = true) :
    s'.holder = s.holder ∧ (∀ t, (s'.thread t).holded_by = (s.thread t).holded_by) ∧
      s'.current = s.current := by
  have hfacts : c.lock = none ∧ (∀ u p, c ≠ .thread_create u p) ∧ .holded_by ∉ c.writes ∧
      ¬ c.Moves := by
    cases c with
    | nested_donation | nested_low | nested_write =>
      exact ⟨rfl, by simp, by simp [Stmt.writes], id⟩
    | _ => cases hc
  obtain ⟨hlock, hcreate, hwrites, hmoves⟩ := hfacts
  refine ⟨funext fun m => holder_same hgo (by rw [hlock]; simp),
    fun t => (account_frame hgo hcreate t).2.2.2 hwrites, current_go hgo hmoves⟩

/-- Along the run: the walk is where it should be, and what it walks on is the same. -/
structure OnTheWay (rank : LockId → ℕ) (u : Setup) (s : Kernel) (t high : Tid) (l : List Tid)
    (rest : List Stmt) (n : ℕ) (r : Kernel) : Prop where
  reachable : Reachable (kernel_system u) (WalkOk rank) r
  current : r.current = t
  code : (r.thread t).code = walk_code high l n ++ rest
  holder : r.holder = s.holder
  holded_by : ∀ t, (r.thread t).holded_by = (s.thread t).holded_by

theorem OnTheWay.executes {u : Setup} {high medium : Tid} {l : List Tid} {n : ℕ}
    (hr : Reachable (kernel_system u) (WalkOk rank) s)
    (hcode : (s.thread t).code = .nested_donation high medium :: rest) (hv : Visits s medium l)
    (he : Executes (WalkOk rank) t s n r) (hn : n ≤ walk_length l) :
    OnTheWay rank u s t high l rest n r := by
  have hinv := walk_inv hr
  have ht : t = s.current := by
    refine hinv.current_of_inside (c := .nested_donation high medium) ?_ rfl
    rw [hcode]
    exact List.mem_cons_self
  obtain ⟨m, hdown⟩ : ∃ m, .sema_down (.lock m) ∈ rest := by
    have hown := hinv.own
    rw [show s.cur.code = _ from ht ▸ hcode] at hown
    exact hown.walk
  induction he with
  | start =>
    refine ⟨hr, ht.symm, ?_, rfl, fun _ => rfl⟩
    obtain ⟨l', rfl⟩ := hv.head
    exact hcode
  | @own n r r' he hok hcontext hcurrent hs ih =>
    have hway := ih (Nat.le_of_succ_le hn)
    obtain ⟨c, tail, hwalk, hc, hnext⟩ := hv.code_step high hn
    obtain ⟨d, q, hp, hexec⟩ := hs
    rcases go_cases (kernel_inv hway.reachable) hp hexec with ⟨rest', hgo⟩ | ⟨rest', hgo⟩
    · exact absurd (hcontext.symm.trans hgo.context) (by decide)
    have hbefore := hgo.before
    rw [hcurrent, hway.code, hwalk] at hbefore
    obtain ⟨rfl, rfl⟩ := List.cons.inj hbefore
    obtain ⟨hholder, hlinks, hsame⟩ := walk_same hgo hc
    have hafter := hgo.after
    have hpushes := (hnext q (by rw [hgo.popped]; exact hway.holder) fun t => by
      rw [show (q.thread t).holded_by = _ from congrArg Account.holded_by (popped_account hgo t)]
      exact hway.holded_by t).1
    refine ⟨hway.reachable.step hok ⟨_, _, hp, hexec⟩, hsame.trans hcurrent, ?_,
      hholder.trans hway.holder, fun t => (hlinks t).trans (hway.holded_by t)⟩
    rw [← hcurrent, hafter, ← hpushes, List.append_assoc]
    rfl
  | @other n r r' e he hok hother hs ih =>
    have hway := ih hn
    have hinside : ∃ c ∈ r.cur.code, c.inside = true := by
      refine ⟨.sema_down (.lock m), ?_, rfl⟩
      show _ ∈ (r.thread r.current).code
      rw [hway.current, hway.code]
      exact List.mem_append_right _ hdown
    have hexternal : e = .go → r.in_external_intr = true := by
      intro he
      by_contra hx
      exact hother he (Bool.eq_false_iff.mpr hx) hway.current
    obtain ⟨hsame, hcurrent, hcodes⟩ :=
      hok.2.stays (kernel_inv hway.reachable) hinside hexternal hs
    refine ⟨hway.reachable.step hok hs, hcurrent.trans hway.current, ?_,
      hsame.holder.trans hway.holder, fun t => (hsame.holded_by t).trans (hway.holded_by t)⟩
    rw [hcodes]
    exact hway.code

/-- **The walk of `nested_donation` is safe**, in the runs that take locks in an order and in
which nobody is preempted inside `lock_acquire` before it sleeps, or inside `lock_release`. A
link that is followed leads to a lock with a holder. And a call visits threads that are all
different: its statements go through, whatever happens in between, and when all are executed the
call is over. -/
theorem nested_walk_safe {u : Setup} (hr : Reachable (kernel_system u) (WalkOk rank) s) :
    (∀ t high medium rest, (s.thread t).code = .nested_low high medium :: rest →
      ∃ m low, (s.thread medium).holded_by = some m ∧ s.holder m = some low) ∧
    ∀ t high medium rest, (s.thread t).code = .nested_donation high medium :: rest →
      ∃ l, Visits s medium l ∧ l.Nodup ∧ walk_code high l (walk_length l) = [] ∧
        ∀ n r, Executes (WalkOk rank) t s n r → n ≤ walk_length l →
          (r.thread t).code = walk_code high l n ++ rest ∧
          (n < walk_length l → r.in_external_intr = false → ∃ r', step r .go r') := by
  have hinv := walk_inv hr
  have hrunning : ∀ {t c rest}, (s.thread t).code = c :: rest → c.inside = true →
      s.cur.code = c :: rest := by
    intro t c rest hcode hinside
    have ht := hinv.current_of_inside (t := t) (by rw [hcode]; exact List.mem_cons_self) hinside
    rw [ht] at hcode
    exact hcode
  have hcuts : ∀ {c : Stmt} {rest}, s.cur.code = c :: rest → c.walks = true →
      ∀ m, ∀ d ∈ s.cur.code.head?, ¬ d.Cuts m := by
    intro c rest hcode hwalks m d hd hm
    rw [hcode] at hd
    obtain rfl := Option.some.inj hd
    rcases hm with rfl | rfl | rfl <;> cases hwalks
  refine ⟨fun t high medium rest hcode => ?_, fun t high medium rest hcode => ?_⟩
  · have hcur := hrunning hcode rfl
    obtain ⟨m, hlink⟩ : ∃ m, (s.thread medium).holded_by = some m := by
      have hown := hinv.own
      rw [hcur] at hown
      exact Option.ne_none_iff_exists'.mp hown.follows
    obtain ⟨low, hholder⟩ := hinv.held (hcuts hcur rfl) hlink
    exact ⟨m, low, hlink, hholder⟩
  · have hcur := hrunning hcode rfl
    obtain ⟨l, hl⟩ := hinv.visits (fun t m hlink => hinv.held (hcuts hcur rfl) hlink) medium
    refine ⟨l, hl, hl.nodup hinv, hl.code_end high, fun n r he hn => ?_⟩
    have hway := OnTheWay.executes hr hcode hl he hn
    refine ⟨hway.code, fun hlt hcontext => ?_⟩
    obtain ⟨c, tail, hwalk, -, hnext⟩ := hl.code_step high hlt
    have hcode' : r.cur.code = c :: (tail ++ rest) := by
      show (r.thread r.current).code = _
      rw [hway.current, hway.code, hwalk]
      rfl
    obtain ⟨r', hexec⟩ := (hnext (r.set_thread r.current fun th => { th with code := tail ++ rest })
      hway.holder fun t => by
        rw [set_thread_apply]
        split_ifs with ht
        · rw [ht]
          exact hway.holded_by _
        · exact hway.holded_by t).2
    refine ⟨r', c, _, ?_, hexec⟩
    unfold pop_stmt
    rw [if_neg (by rw [hcontext]; decide), hcode']

/-! ## Runs of three threads -/

/-- `tid_lock` comes last. -/
def small_rank (m : LockId) : ℕ := if m = tid_lock then 6 else m

def Stmt.acquires : Stmt → Option LockId
  | .lock_acquire m => some m
  | _ => none

/-- The first six locks are taken in order. -/
def SmallOrdered (s : Kernel) : Event → Prop
  | .go => SmallLocks s .go ∧ (s.in_external_intr = false → ∀ c ∈ s.cur.code.head?,
      ∀ m ∈ c.acquires, ∀ n < 6, s.holder n = some s.current → small_rank n < small_rank m)
  | _ => True

instance (s : Kernel) : ∀ e, Decidable (SmallOrdered s e)
  | .go => inferInstanceAs (Decidable (SmallLocks s .go ∧ (s.in_external_intr = false →
      ∀ c ∈ s.cur.code.head?, ∀ m ∈ c.acquires, ∀ n < 6, s.holder n = some s.current →
        small_rank n < small_rank m)))
  | .call _ | .idle | .intr | .handle _ | .intr_end => inferInstanceAs (Decidable True)

instance (s : Kernel) : ∀ e, Decidable (Unpreempted s e)
  | .intr_end => inferInstanceAs (Decidable (s.yield_on_return = true →
      ∀ c ∈ s.cur.code, c.inside = false))
  | .call _ | .idle | .go | .intr | .handle _ => inferInstanceAs (Decidable True)

/-- The other locks are not held. -/
theorem small_ordered {v : Setup} {ok : Kernel → Event → Prop}
    (hr : Reachable (kernel_system v) (fun r e => SmallOrdered r e ∧ ok r e) s) :
    Reachable (kernel_system v) (fun r e => Ordered small_rank r e ∧ ok r e) s := by
  induction hr with
  | init h => exact .init h
  | @step r r' e hr hok hs ih =>
    refine .step ih ⟨?_, hok.2⟩ hs
    have hsmall : Reachable (kernel_system v) SmallLocks r := hr.weaken fun q e' h => by
      cases e' with
      | go => exact h.1.1
      | _ => trivial
    cases e with
    | go =>
      intro hx m hm n hn
      by_cases hlt : n < 6
      · exact hok.1.2 hx _ hm m rfl n hlt hn
      · rw [holder_small hsmall (Nat.not_lt.mp hlt)] at hn
        cases hn
    | _ => trivial

/-- Thread 2 has lock 3 and waits for lock 4 of the main thread. -/
def chain_run : List Event :=
  acquire_run 4 ++ create_run 2 40 ++ acquire_run 3 ++
    (.call (.lock_acquire 4) :: List.replicate 10 .go) ++ create_run 3 50 ++ [.go]

theorem chain_run_allowed : ∀ e ∈ chain_run, e.Allowed := by
  simp [chain_run, create_run, acquire_run, Event.Allowed, Stmt.Callable]

/-- Thread 3 asks for lock 3, and its donation goes on to the main thread. -/
theorem nested_walk_safe_chain : ∃ s, Reachable (kernel_system plain_setup) (WalkOk small_rank) s ∧
    ∃ rest, (s.thread 3).code = .nested_donation 3 2 :: rest ∧ ∃ l, Visits s 2 l ∧ l.Nodup := by
  obtain ⟨s, hr, hcode⟩ := run_reachable (u := plain_setup)
    (fun s e => SmallOrdered s e ∧ Unpreempted s e)
    (fun s => (s.thread 3).code = [.nested_donation 3 2, .sema_down (.lock 3), .lock_hold 3])
    (chain_run ++ (.call (.lock_acquire 3) :: List.replicate 8 .go)) (.init rfl)
    (List.forall_mem_append.mpr ⟨chain_run_allowed, by simp [Event.Allowed, Stmt.Callable]⟩)
    (by decide +kernel)
  have hok : Reachable (kernel_system plain_setup) (WalkOk small_rank) s := small_ordered hr
  obtain ⟨l, hl, hnodup, -⟩ := (nested_walk_safe hok).2 3 3 2 _ hcode
  exact ⟨s, hok, _, hcode, l, hl, hnodup⟩

/-- The main thread is preempted in `lock_release`, for a thread that wakes up. -/
def preempted_run : List Event :=
  chain_run ++ [.call (.timer_sleep 4), .go, .go, .call (.lock_release 4), .go] ++
    tick_run ++ tick_run ++ tick_run ++ tick_run ++
    (.call (.lock_acquire 3) :: List.replicate 9 .go)

/-- **The slip.** The walk is about to follow a link to a lock whose holder is NULL. -/
theorem walk_to_null : ∃ s, Reachable (kernel_system plain_setup) (Ordered small_rank) s ∧
    s.in_external_intr = false ∧ (∃ high rest, s.cur.code = .nested_low high 2 :: rest) ∧
    (s.thread 2).holded_by = some 4 ∧ s.holder 4 = none := by
  obtain ⟨s, hr, hx, hcode, hlink, hholder⟩ := run_reachable (u := plain_setup)
    (fun s e => SmallOrdered s e ∧ True)
    (fun s => s.in_external_intr = false ∧
      s.cur.code = [.nested_low 3 2, .sema_down (.lock 3), .lock_hold 3] ∧
      (s.thread 2).holded_by = some 4 ∧ s.holder 4 = none) preempted_run (.init rfl)
    (by simp [preempted_run, chain_run, create_run, acquire_run, tick_run, Event.Allowed,
      Stmt.Callable, Stmt.Handled])
    (by decide +kernel)
  exact ⟨s, (small_ordered hr).weaken fun _ _ h => h.1, hx, ⟨3, _, hcode⟩, hlink, hholder⟩

end Pintos.Threads.Machine
