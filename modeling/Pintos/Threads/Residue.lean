/-
What is left of a donation when the lock is released (`threads/synch.c`).

A donor records its donation with the holder, links itself, writes the holder's priority
and only then goes to sleep on the lock. The holder decides by the list of sleepers
whether there is something to roll back, and it may release the lock anywhere in between.
So a donation is left behind in two ways: the holder releases the lock while the donor is
still about to record or to write (`Pends`), or it rolls back before the donor sleeps.

`list_insert_ordered` and the loop of `priority_rollback` run with interrupts on: two threads
inside them on one list destroy it.

Where none of this happens (`ResidueOk`), a record belongs to a lock that its thread holds or
is rolling back (`owned`), and a thread without records has its own priority (`plain`).
-/
import Pintos.Threads.Mutex

set_option autoImplicit false

namespace Pintos.Threads.Machine

open StepSystem

variable {s s' r : Kernel} {c : Stmt} {rest : List Stmt} {t low : Tid} {m : LockId}

/-! ## Donations that are under way -/

/-- `l` goes on to record with `low` for `m`, or to write its priority. -/
def Pends (l : List Stmt) (low : Tid) (m : LockId) : Prop :=
  .donation_member low m ∈ l ∨ (∃ e, .donation_insert low e ∈ l ∧ e.lock = m) ∨
    .donation_write low m ∈ l

/-- A record for `m` from `t`. -/
def Recorded (s : Kernel) (m : LockId) (low t : Tid) : Prop :=
  ∃ e ∈ (s.thread low).possessing_locks, e.lock = m ∧ e.locked_thread = t

/-- A record for a lock that `low` holds. -/
def Backed (s : Kernel) (low : Tid) : Prop :=
  ∃ e ∈ (s.thread low).possessing_locks, s.holder e.lock = some low

/-- A statement of `priority_donation` or `nested_donation`. -/
def Stmt.donates : Stmt → Bool
  | .donation_member _ _ | .donation_insert _ _ | .donation_link _ | .donation_write _ _
  | .nested_donation _ _ | .nested_low _ _ | .nested_write _ _ => true
  | _ => false

/-- Where a thread is in its donation, and what holds there. -/
inductive Donating (s : Kernel) (t : Tid) : List Stmt → Prop
  | none {l : List Stmt} (hl : ∀ c ∈ l, c.donates = false) : Donating s t l
  | member {low : Tid} {m : LockId} {l : List Stmt} (hholder : s.holder m = some low)
      (hl : ∀ c ∈ l, c.donates = false) : Donating s t (.donation_member low m :: l)
  | insert {low : Tid} {m : LockId} {p : ℤ} {l : List Stmt} (hholder : s.holder m = some low)
      (hl : ∀ c ∈ l, c.donates = false) :
      Donating s t (.donation_insert low ⟨p, m, t⟩ :: .donation_link m :: .donation_write low m ::
        .nested_donation t low :: l)
  | link {low : Tid} {m : LockId} {l : List Stmt} (hholder : s.holder m = some low)
      (hrecord : Recorded s m low t) (hl : ∀ c ∈ l, c.donates = false) :
      Donating s t (.donation_link m :: .donation_write low m :: .nested_donation t low :: l)
  | write {low : Tid} {m : LockId} {l : List Stmt} (hholder : s.holder m = some low)
      (hrecord : Recorded s m low t) (hl : ∀ c ∈ l, c.donates = false) :
      Donating s t (.donation_write low m :: .nested_donation t low :: l)
  | nested {high medium : Tid} {l : List Stmt} (hl : ∀ c ∈ l, c.donates = false) :
      Donating s t (.nested_donation high medium :: l)
  | nested_low {high medium : Tid} {l : List Stmt} (hl : ∀ c ∈ l, c.donates = false) :
      Donating s t (.nested_low high medium :: l)
  | nested_write {high low medium : Tid} {l : List Stmt} (hback : Backed s low)
      (hl : ∀ c ∈ l, c.donates = false) :
      Donating s t (.nested_write high low :: .nested_donation medium low :: l)

/-- A step that leaves what a donation under way rests on. -/
theorem Donating.mono {l : List Stmt} (h : Donating s t l)
    (hholder : ∀ low m, Pends l low m → s.holder m = some low → s'.holder m = some low)
    (hrecord : ∀ low m, s.holder m = some low → Recorded s m low t → Recorded s' m low t)
    (hback : ∀ high low, .nested_write high low ∈ l → Backed s low → Backed s' low) :
    Donating s' t l := by
  cases h with
  | none hl => exact .none hl
  | member hh hl => exact .member (hholder _ _ (Or.inl List.mem_cons_self) hh) hl
  | insert hh hl =>
    exact .insert (hholder _ _ (Or.inr (Or.inl ⟨_, List.mem_cons_self, rfl⟩)) hh) hl
  | link hh hr hl =>
    refine .link (hholder _ _ (Or.inr (Or.inr ?_)) hh) (hrecord _ _ hh hr) hl
    exact List.mem_cons_of_mem _ List.mem_cons_self
  | write hh hr hl =>
    exact .write (hholder _ _ (Or.inr (Or.inr List.mem_cons_self)) hh) (hrecord _ _ hh hr) hl
  | nested hl => exact .nested hl
  | nested_low hl => exact .nested_low hl
  | nested_write hb hl => exact .nested_write (hback _ _ List.mem_cons_self hb) hl

/-! ## Roll-backs that are under way -/

/-- What comes behind a statement of `priority_rollback`: the `sema_up` of `lock_release`. -/
def Stmt.Backs (rest : List Stmt) : Stmt → Prop
  | .release_test m | .priority_rollback m => .sema_up (.lock m) ∈ rest
  | .rollback_loop m => .sema_up (.lock m) ∈ rest ∧ .rollback_test ∈ rest
  | .rollback_test | .rollback_original | .rollback_back => ∃ m, .sema_up (.lock m) ∈ rest
  | _ => True

def Rolls : List Stmt → Prop
  | [] => True
  | c :: rest => c.Backs rest ∧ Rolls rest

/-- A statement of `lock_release` before `sema_up`. -/
def Stmt.rolls : Stmt → Bool
  | .release_test _ | .priority_rollback _ | .rollback_loop _ | .rollback_test
  | .rollback_original | .rollback_back => true
  | _ => false

/-- `t` is going to roll back the donations for `m`. -/
def Rolling (s : Kernel) (t : Tid) (m : LockId) : Prop :=
  .release_test m ∈ (s.thread t).code ∨ .priority_rollback m ∈ (s.thread t).code ∨
    .rollback_loop m ∈ (s.thread t).code

theorem Stmt.backs_of_not {rest : List Stmt} (hc : c.rolls = false) : c.Backs rest := by
  cases c <;> trivial

theorem Rolls.append {l : List Stmt} (hl : ∀ c ∈ l, c.rolls = false) (h : Rolls rest) :
    Rolls (l ++ rest) := by
  induction l with
  | nil => exact h
  | cons c l ih =>
    refine ⟨Stmt.backs_of_not (hl c List.mem_cons_self), ?_⟩
    exact ih fun d hd => hl d (List.mem_cons_of_mem c hd)

theorem Rolls.mem {l : List Stmt} (h : Rolls l) (hc : c ∈ l) : ∃ rest, c.Backs rest ∧ rest ⊆ l := by
  induction l with
  | nil => cases hc
  | cons d l ih =>
    rcases List.mem_cons.mp hc with rfl | hc
    · exact ⟨l, h.1, List.subset_cons_self c l⟩
    · obtain ⟨rest, hback, hsub⟩ := ih h.2 hc
      exact ⟨rest, hback, fun x hx => List.mem_cons_of_mem d (hsub hx)⟩

/-- A thread that rolls back is still in the region of the lock. -/
theorem Rolling.releases (h : Rolling s t m) (hr : Rolls (s.thread t).code) : Releases s m t := by
  rcases h with h | h | h
  · obtain ⟨rest, hback, hsub⟩ := hr.mem h
    exact hsub hback
  · obtain ⟨rest, hback, hsub⟩ := hr.mem h
    exact hsub hback
  · obtain ⟨rest, hback, hsub⟩ := hr.mem h
    exact hsub hback.1

/-- The statements in front of `sema_up` that a statement goes on with. -/
theorem Rolls.go (h : Rolls (c :: rest)) : Rolls (pushes r c ++ rest) := by
  obtain ⟨hback, hrest⟩ := h
  have hplain : (pushes r c).all (fun d => !d.rolls) = true → Rolls (pushes r c ++ rest) := by
    intro hall
    refine Rolls.append (fun d hd => ?_) hrest
    simpa using List.all_eq_true.mp hall d hd
  cases c with
  | lock_release m => exact ⟨List.mem_cons_self, trivial, hrest⟩
  | release_test m =>
    dsimp only [pushes]
    split_ifs
    · exact ⟨hback, hrest⟩
    · exact hrest
  | priority_rollback m =>
    dsimp only [pushes]
    split_ifs
    · exact hrest
    · exact ⟨⟨List.mem_cons_of_mem _ hback, List.mem_cons_self⟩, ⟨m, hback⟩, hrest⟩
  | rollback_test =>
    dsimp only [pushes]
    split_ifs
    · exact ⟨hback, hrest⟩
    · exact ⟨hback, hrest⟩
  | _ =>
    refine hplain ?_
    dsimp only [pushes]
    repeat' split
    all_goals rfl

/-! ## The fields of a thread that donations are about -/

/-- Priorities, records and the link of a thread. -/
structure Account where
  priority : ℤ
  original_priority : ℤ
  possessing_locks : List LockElem
  holded_by : Option LockId

def Thread.account (th : Thread) : Account :=
  ⟨th.priority, th.original_priority, th.possessing_locks, th.holded_by⟩

theorem exec_mlfqs (hs : exec s c = .ok s') : s'.thread_mlfqs = s.thread_mlfqs :=
  exec_of_effect (P := fun r => r.thread_mlfqs = s.thread_mlfqs)
    (fun _ _ hsw hr => hsw.thread_mlfqs.trans hr) (fun _ _ hr => hr)
    (effect_frame s c).thread_mlfqs hs

theorem exec_account (hs : exec s c = .ok s') (t : Tid) :
    (s'.thread t).account = ((effect s c).thread t).account := by
  refine exec_of_effect (P := fun r => (r.thread t).account = ((effect s c).thread t).account)
    (fun r r' hsw hr => ?_) (fun _ _ hr => hr) rfl hs
  exact (congrArg Thread.account (hsw.thread t)).trans hr

theorem popped_account (hgo : ThreadGo s c r s' rest) (t : Tid) :
    (r.thread t).account = (s.thread t).account := by
  rw [hgo.popped, set_thread_apply]
  split_ifs with ht
  · rw [ht]
    rfl
  · rfl

/-- A statement that makes no thread writes the fields it says it writes. -/
theorem account_frame (hgo : ThreadGo s c r s' rest) (hc : ∀ u p, c ≠ .thread_create u p)
    (t : Tid) :
    (.priority ∉ c.writes → (s'.thread t).priority = (s.thread t).priority) ∧
    (.original_priority ∉ c.writes →
      (s'.thread t).original_priority = (s.thread t).original_priority) ∧
    (.possessing_locks ∉ c.writes →
      (s'.thread t).possessing_locks = (s.thread t).possessing_locks) ∧
    (.holded_by ∉ c.writes → (s'.thread t).holded_by = (s.thread t).holded_by) := by
  obtain ⟨hp, ho, hl, hh⟩ := Account.mk.inj (popped_account hgo t)
  obtain ⟨hp', ho', hl', hh'⟩ := Account.mk.inj (exec_account hgo.exec t)
  have hframe := effect_thread r hc t
  rw [hp', ho', hl', hh', ← hp, ← ho, ← hl, ← hh]
  exact ⟨hframe.priority, hframe.original_priority, hframe.possessing_locks, hframe.holded_by⟩

/-- One thread is changed. -/
theorem account_set (hgo : ThreadGo s c r s' rest) {u : Tid} {f : Thread → Thread}
    (heq : effect r c = r.set_thread u f) (t : Tid) : (s'.thread t).account =
      if t = u then (f (r.thread u)).account else (s.thread t).account := by
  rw [exec_account hgo.exec, heq, set_thread_apply]
  split_ifs
  · rfl
  · exact popped_account hgo t

theorem popped_current (hgo : ThreadGo s c r s' rest) :
    (r.thread r.current).account = (s.thread s.current).account := by
  rw [hgo.current]
  exact popped_account hgo s.current

/-- `thread_create` makes one account, without records and links. -/
theorem account_create {u : Tid} {p : ℤ} (hgo : ThreadGo s (.thread_create u p) r s' rest)
    (hm : s.thread_mlfqs = false) (t : Tid) : (s'.thread t).account =
      if t = u then ⟨p, p, [], none⟩ else (s.thread t).account := by
  obtain ⟨code, heq⟩ := effect_create r u p t
  have hmr : r.thread_mlfqs = false := by
    rw [hgo.popped]
    exact hm
  rw [exec_account hgo.exec, heq]
  split_ifs
  · unfold new_thread
    rw [if_neg (by rw [hmr]; decide)]
    rfl
  · exact popped_account hgo t

/-- Whichever scheduler is in use, the new thread has no records and no link. -/
theorem records_create {u : Tid} {p : ℤ} (hgo : ThreadGo s (.thread_create u p) r s' rest)
    (t : Tid) :
    (s'.thread t).possessing_locks = (if t = u then [] else (s.thread t).possessing_locks) ∧
    (s'.thread t).holded_by = if t = u then none else (s.thread t).holded_by := by
  obtain ⟨code, heq⟩ := effect_create r u p t
  obtain ⟨-, -, hl, hh⟩ := Account.mk.inj (popped_account hgo t)
  obtain ⟨-, -, hl', hh'⟩ := Account.mk.inj (exec_account hgo.exec t)
  rw [hl', hh', heq]
  split_ifs
  · unfold new_thread
    split_ifs <;> exact ⟨rfl, rfl⟩
  · exact ⟨hl, hh⟩

theorem unlink_holded_by (l : List LockElem) (s : Kernel) (t : Tid) :
    ((unlink l s).thread t).holded_by =
      if t ∈ l.map LockElem.locked_thread then none else (s.thread t).holded_by := by
  induction l generalizing s with
  | nil => rfl
  | cons e l ih =>
    unfold unlink
    rw [ih, set_thread_apply]
    by_cases ht : t = e.locked_thread
    · rw [if_pos ht, ht]
      simp
    · rw [if_neg ht]
      simp [ht]

/-- The loop of `priority_rollback`: the records for the lock go, and their donors are
unlinked. -/
theorem account_loop (hgo : ThreadGo s (.rollback_loop m) r s' rest) (t : Tid) :
    (s'.thread t).priority = (s.thread t).priority ∧
    (s'.thread t).original_priority = (s.thread t).original_priority ∧
    (s'.thread t).possessing_locks = (if t = s.current
      then (s.thread t).possessing_locks.filter (fun e => e.lock ≠ m)
      else (s.thread t).possessing_locks) ∧
    (s'.thread t).holded_by = if t ∈ ((s.thread s.current).possessing_locks.filter
        (fun e => e.lock = m)).map LockElem.locked_thread
      then none else (s.thread t).holded_by := by
  have hcur : r.cur.possessing_locks = (s.thread s.current).possessing_locks :=
    congrArg Account.possessing_locks (popped_current hgo)
  obtain ⟨hp, ho, hl, hh⟩ := Account.mk.inj (popped_account hgo t)
  obtain ⟨hp', ho', hl', hh'⟩ := Account.mk.inj (exec_account hgo.exec t)
  have hkeeps := fun {α : Type} (g : Thread → α)
    (hg : ∀ th, g { th with holded_by := none } = g th) => unlink_keeps g hg
      (r.cur.possessing_locks.filter (fun e => e.lock = m)) r t
  have hlinks := unlink_holded_by (r.cur.possessing_locks.filter (fun e => e.lock = m)) r t
  have heq : (effect r (.rollback_loop m)).thread t =
      if t = s.current then { (unlink (r.cur.possessing_locks.filter
          (fun e => e.lock = m)) r).thread t with
        possessing_locks := (r.thread t).possessing_locks.filter (fun e => e.lock ≠ m) }
      else (unlink (r.cur.possessing_locks.filter (fun e => e.lock = m)) r).thread t := by
    show (rollback_loop r m).thread t = _
    unfold rollback_loop
    rw [set_thread_apply, hgo.current, ← hkeeps Thread.possessing_locks fun _ => rfl]
    split_ifs with ht
    · rw [ht]
    · rfl
  rw [heq] at hp' ho' hl' hh'
  rw [hp', ho', hl', hh', ← hp, ← ho, ← hl, ← hh, ← hcur, ← hlinks,
    ← hkeeps Thread.priority fun _ => rfl, ← hkeeps Thread.original_priority fun _ => rfl]
  by_cases ht : t = s.current
  · rw [if_pos ht, if_pos ht]
    exact ⟨rfl, rfl, rfl, rfl⟩
  · rw [if_neg ht, if_neg ht]
    exact ⟨rfl, rfl, hkeeps Thread.possessing_locks fun _ => rfl, rfl⟩

/-! ### Records -/

/-- A record of a thread after a statement. -/
theorem mem_records (hgo : ThreadGo s c r s' rest) (e : LockElem) (t : Tid) :
    e ∈ (s'.thread t).possessing_locks ↔ c = .donation_insert t e ∨
      (e ∈ (s.thread t).possessing_locks ∧ (c = .rollback_loop e.lock → t ≠ s.current) ∧
        ∀ p, c ≠ .thread_create t p) := by
  by_cases hinsert : ∃ low e', c = .donation_insert low e'
  · obtain ⟨low, e', rfl⟩ := hinsert
    have hacc := congrArg Account.possessing_locks (account_set hgo (u := low)
      (f := fun th => { th with
        possessing_locks := list_insert_ordered less_lock_priority th.possessing_locks e' }) rfl t)
    have hold := congrArg Account.possessing_locks (popped_account hgo low)
    rw [show (s'.thread t).possessing_locks = _ from hacc]
    by_cases ht : t = low
    · rw [if_pos ht]
      show e ∈ list_insert_ordered less_lock_priority (r.thread low).possessing_locks e' ↔ _
      rw [show (r.thread low).possessing_locks = _ from hold]
      unfold list_insert_ordered
      rw [List.mem_orderedInsert, ht]
      simp [eq_comm, Thread.account]
    · rw [if_neg ht]
      simp [Ne.symm ht, Thread.account]
  by_cases hloop : ∃ n, c = .rollback_loop n
  · obtain ⟨n, rfl⟩ := hloop
    rw [(account_loop hgo t).2.2.1]
    by_cases ht : t = s.current
    · rw [if_pos ht, List.mem_filter, decide_eq_true_iff]
      constructor
      · rintro ⟨he, hne⟩
        refine Or.inr ⟨he, fun heq => ?_, by simp⟩
        exact absurd (Stmt.rollback_loop.inj heq).symm hne
      · rintro (heq | ⟨he, hne, -⟩)
        · cases heq
        · exact ⟨he, fun heq => hne (by rw [heq]) ht⟩
    · rw [if_neg ht]
      simp [ht]
  by_cases hcreate : ∃ u p, c = .thread_create u p
  · obtain ⟨u, p, rfl⟩ := hcreate
    rw [(records_create hgo t).1]
    by_cases ht : t = u
    · rw [if_pos ht]
      simp [ht]
    · rw [if_neg ht]
      simp [Ne.symm ht]
  · have hwrites : .possessing_locks ∉ c.writes := by
      cases c with
      | donation_insert low e' => exact absurd ⟨low, e', rfl⟩ hinsert
      | rollback_loop n => exact absurd ⟨n, rfl⟩ hloop
      | _ => simp [Stmt.writes]
    rw [(account_frame hgo (fun u p heq => hcreate ⟨u, p, heq⟩) t).2.2.1 hwrites]
    have hnot : c ≠ .donation_insert t e := fun heq => hinsert ⟨t, e, heq⟩
    have hnot' : c ≠ .rollback_loop e.lock := fun heq => hloop ⟨_, heq⟩
    have hnot'' : ∀ p, c ≠ .thread_create t p := fun p heq => hcreate ⟨t, p, heq⟩
    simp [hnot, hnot', hnot'']

/-- A link after a statement. -/
theorem linked_go (hgo : ThreadGo s c r s' rest)
    (h : (s'.thread t).holded_by = some m) :
    (t = s.current ∧ c = .donation_link m) ∨ ((s.thread t).holded_by = some m ∧
      ∀ e ∈ (s.thread s.current).possessing_locks, c = .rollback_loop e.lock →
        e.locked_thread ≠ t) := by
  by_cases hlink : ∃ n, c = .donation_link n
  · obtain ⟨n, rfl⟩ := hlink
    have hacc := congrArg Account.holded_by (account_set hgo (u := r.current)
      (f := fun th => { th with holded_by := some n }) rfl t)
    rw [show (s'.thread t).holded_by = _ from hacc, hgo.current] at h
    by_cases ht : t = s.current
    · rw [if_pos ht] at h
      obtain rfl := Option.some.inj h
      exact Or.inl ⟨ht, rfl⟩
    · rw [if_neg ht] at h
      exact Or.inr ⟨h, by simp⟩
  by_cases hloop : ∃ n, c = .rollback_loop n
  · obtain ⟨n, rfl⟩ := hloop
    rw [(account_loop hgo t).2.2.2] at h
    split_ifs at h with hmem
    refine Or.inr ⟨h, fun e he heq hte => hmem ?_⟩
    obtain rfl := Stmt.rollback_loop.inj heq
    exact List.mem_map.mpr ⟨e, List.mem_filter.mpr ⟨he, by simp⟩, hte⟩
  refine Or.inr ⟨?_, fun e _ heq => absurd ⟨_, heq⟩ hloop⟩
  by_cases hcreate : ∃ u p, c = .thread_create u p
  · obtain ⟨u, p, rfl⟩ := hcreate
    rw [(records_create hgo t).2] at h
    split_ifs at h
    exact h
  · have hwrites : .holded_by ∉ c.writes := by
      cases c with
      | donation_link n => exact absurd ⟨n, rfl⟩ hlink
      | rollback_loop n => exact absurd ⟨n, rfl⟩ hloop
      | _ => simp [Stmt.writes]
    rw [(account_frame hgo (fun u p heq => hcreate ⟨u, p, heq⟩) t).2.2.2 hwrites] at h
    exact h

/-! ### Priorities -/

/-- The statements that write priorities outside donation and roll-back. -/
def Stmt.sets : Stmt → Bool
  | .thread_set_priority _ | .set_priority _ | .set_original _ | .thread_set_nice _
  | .timer_interrupt | .mlfqs_tick_change => true
  | _ => false

/-- Who writes a priority. -/
theorem priority_go (hgo : ThreadGo s c r s' rest) (hc : c.sets = false)
    (hcreate : ∀ u p, c ≠ .thread_create u p) (t : Tid) :
    (s'.thread t).priority = (s.thread t).priority ∨ (∃ n, c = .donation_write t n) ∨
      (∃ high, c = .nested_write high t) ∨
      (t = s.current ∧ (c = .rollback_original ∨ c = .rollback_back)) := by
  have hset : ∀ (u : Tid) (x : ℤ), effect r c = r.set_thread u (fun th => { th with priority := x }) →
      t ≠ u → (s'.thread t).priority = (s.thread t).priority := by
    intro u x heq hne
    have hacc := congrArg Account.priority (account_set hgo heq t)
    rw [if_neg hne] at hacc
    exact hacc
  cases c with
  | donation_write low n =>
    by_cases ht : t = low
    · exact Or.inr (Or.inl ⟨n, by rw [ht]⟩)
    · exact Or.inl (hset low _ rfl ht)
  | nested_write high low =>
    by_cases ht : t = low
    · exact Or.inr (Or.inr (Or.inl ⟨high, by rw [ht]⟩))
    · exact Or.inl (hset low _ rfl ht)
  | rollback_original =>
    by_cases ht : t = s.current
    · exact Or.inr (Or.inr (Or.inr ⟨ht, Or.inl rfl⟩))
    · have hacc := congrArg Account.priority (account_set hgo (u := r.current)
        (f := fun th => { th with priority := th.original_priority }) rfl t)
      rw [hgo.current, if_neg ht] at hacc
      exact Or.inl hacc
  | rollback_back =>
    by_cases ht : t = s.current
    · exact Or.inr (Or.inr (Or.inr ⟨ht, Or.inr rfl⟩))
    · refine Or.inl ?_
      have hne : t ≠ r.current := by
        rw [hgo.current]
        exact ht
      cases hl : r.cur.possessing_locks.getLast? with
      | none =>
        have hexec := hgo.exec
        dsimp only [exec, rollback_back] at hexec
        rw [hl] at hexec
        cases hexec
      | some e =>
        refine hset r.current e.priority ?_ hne
        dsimp only [effect]
        rw [hl]
  | set_priority | thread_set_nice | mlfqs_tick_change => cases hc
  | thread_create u p => exact absurd rfl (hcreate u p)
  | _ =>
    refine Or.inl ((account_frame hgo hcreate t).1 ?_)
    simp [Stmt.writes]

/-! ## The invariant -/

structure ResidueInv (s : Kernel) : Prop where
  mlfqs : s.thread_mlfqs = false
  sets : ∀ t, ∀ c ∈ (s.thread t).code, c.sets = false
  intr : .mlfqs_tick_change ∉ s.intr_code
  used : ∀ m t, s.holder m = some t → (s.thread t).status ≠ .unused
  rolls : ∀ t, Rolls (s.thread t).code
  donating : ∀ t, Donating s t (s.thread t).code
  owned : ∀ t, ∀ e ∈ (s.thread t).possessing_locks, s.holder e.lock = some t ∨ Rolling s t e.lock
  linked : ∀ t m, (s.thread t).holded_by = some m → ∃ low, Recorded s m low t
  plain : ∀ t, (s.thread t).possessing_locks = [] →
    (s.thread t).priority = (s.thread t).original_priority ∨
      .rollback_test ∈ (s.thread t).code ∨ .rollback_original ∈ (s.thread t).code

/-- The holder is not left by a donation that is under way. -/
def ReleaseOk (s : Kernel) (m : LockId) : Prop :=
  (∀ t, ¬ Pends (s.thread t).code s.current m) ∧
  ∀ t high, .nested_write high s.current ∈ (s.thread t).code →
    ∃ e ∈ (s.thread s.current).possessing_locks, e.lock ≠ m ∧ s.holder e.lock = some s.current

/-- The donors for the lock are asleep, one of them at least. -/
def RollbackOk (s : Kernel) (m : LockId) : Prop :=
  (∃ e ∈ (s.thread s.current).possessing_locks, e.lock = m) → (s.sema (.lock m)).waiters ≠ []

/-- A lock is not held while it is rolled back. -/
theorem ResidueInv.not_rolling (h : ResidueInv s) (hm : MutexInv s) {u : Tid}
    (hholder : s.holder m = some u) : ¬ Rolling s t m := by
  intro hrolling
  obtain ⟨k, hk⟩ := hm.place m
  have hheld := (hk.holder u).mp hholder
  have hreleased := (hk.releases t).mp (hrolling.releases (h.rolls t))
  rw [hheld] at hreleased
  cases hreleased

/-- The record behind a link is with the holder. -/
theorem ResidueInv.link_backed (h : ResidueInv s) (hm : MutexInv s)
    (hlink : (s.thread t).holded_by = some m) (hholder : s.holder m = some low) : Backed s low := by
  obtain ⟨u, e, he, rfl, -⟩ := h.linked t m hlink
  rcases h.owned u e he with hu | hu
  · obtain rfl := Option.some.inj (hholder.symm.trans hu)
    exact ⟨e, he, hu⟩
  · exact absurd hu (h.not_rolling hm hholder)

/-- The thread that is made did not exist. -/
theorem created_unused (hgo : ThreadGo s c r s' rest) {p : ℤ} (hc : c = .thread_create t p) :
    (s.thread t).status = .unused := by
  have hunused := thread_create_unused hgo.exec hc
  rw [hgo.popped, set_thread_apply] at hunused
  split_ifs at hunused with ht
  · rw [ht]
    exact hunused
  · exact hunused

/-- A thread with a record exists. -/
theorem ResidueInv.record_used (h : ResidueInv s) (hk : KernelInv s) {e : LockElem}
    (he : e ∈ (s.thread t).possessing_locks) : (s.thread t).status ≠ .unused := by
  intro hunused
  rcases h.owned t e he with hholder | hroll
  · exact h.used _ t hholder hunused
  · unfold Rolling at hroll
    rw [hk.code.unused t hunused] at hroll
    simp at hroll

section Thread

variable (h : ResidueInv s) (hm : MutexInv s) (hgo : ThreadGo s c r s' rest)

include h hm hgo

/-- The record for a lock that is held stays. -/
theorem ResidueInv.record_kept {e : LockElem} (he : e ∈ (s.thread t).possessing_locks)
    (hholder : s.holder e.lock = some t) : e ∈ (s'.thread t).possessing_locks := by
  refine (mem_records hgo e t).mpr (Or.inr ⟨he, ?_, ?_⟩)
  · rintro rfl rfl
    refine h.not_rolling hm hholder (t := s.current) (Or.inr (Or.inr ?_))
    rw [hgo.before]
    exact List.mem_cons_self
  · exact fun p hc => h.used _ t hholder (created_unused hgo hc)

/-- What a donation under way rests on stays, in the statements of others. -/
theorem ResidueInv.donating_other (hrelease : ∀ n, c = .lock_release n → ReleaseOk s n)
    (ht : t ≠ s.current) : Donating s' t (s'.thread t).code := by
  rw [hgo.code t ht]
  refine (h.donating t).mono (fun low n hpends hholder => ?_) (fun low n hholder hrec => ?_)
    fun high low hmem hback => ?_
  · refine hm.holder_kept hgo hholder ?_
    rintro rfl
    obtain rfl := Option.some.inj (hholder.symm.trans (release_holder hgo))
    exact (hrelease n rfl).1 t hpends
  · obtain ⟨e, he, rfl, hte⟩ := hrec
    exact ⟨e, h.record_kept hm hgo he hholder, rfl, hte⟩
  · obtain ⟨e, he, hholder⟩ := hback
    by_cases hc : c = .lock_release e.lock
    · subst hc
      obtain rfl := Option.some.inj (hholder.symm.trans (release_holder hgo))
      obtain ⟨e', he', hne, hholder'⟩ := (hrelease _ rfl).2 t high hmem
      refine ⟨e', h.record_kept hm hgo he' hholder', hm.holder_kept hgo hholder' ?_⟩
      exact fun heq => hne (Stmt.lock_release.inj heq).symm
    · exact ⟨e, h.record_kept hm hgo he hholder, hm.holder_kept hgo hholder hc⟩

omit h hm hgo in
theorem pushes_donates (hc : c.donates = false) (hcall : ∀ n, c ≠ .donation_call n) :
    ∀ d ∈ pushes r c, d.donates = false := by
  have hall : (pushes r c).all (fun d => !d.donates) = true := by
    cases c with
    | donation_call n => exact absurd rfl (hcall n)
    | donation_member | nested_donation | nested_low => cases hc
    | _ =>
      dsimp only [pushes]
      repeat' split
      all_goals rfl
  intro d hd
  simpa using List.all_eq_true.mp hall d hd

/-- A statement of the donor. -/
theorem ResidueInv.donating_own : Donating s' s.current (s'.thread s.current).code := by
  have hcode := h.donating s.current
  rw [hgo.before] at hcode
  rw [hgo.after]
  cases hcode with
  | none hl =>
    have hrest := fun d hd => hl d (List.mem_cons_of_mem c hd)
    by_cases hcall : ∃ n, c = .donation_call n
    · obtain ⟨n, rfl⟩ := hcall
      dsimp only [pushes]
      cases hn : r.holder n with
      | none => exact .none hrest
      | some low =>
        rw [hgo.popped] at hn
        exact .member (hm.holder_kept hgo hn (by simp)) hrest
    · have hpushes := pushes_donates (r := r) (hl c List.mem_cons_self) fun n heq => hcall ⟨n, heq⟩
      refine .none fun d hd => ?_
      exact (List.mem_append.mp hd).elim (hpushes d) (hrest d)
  | member hholder hl =>
    dsimp only [pushes]
    rw [hgo.current]
    exact .insert (hm.holder_kept hgo hholder (by simp)) hl
  | insert hholder hl =>
    refine .link (hm.holder_kept hgo hholder (by simp)) ?_ hl
    exact ⟨_, (mem_records hgo _ _).mpr (Or.inl rfl), rfl, rfl⟩
  | link hholder hrecord hl =>
    obtain ⟨e, he, rfl, hte⟩ := hrecord
    exact .write (hm.holder_kept hgo hholder (by simp))
      ⟨e, h.record_kept hm hgo he hholder, rfl, hte⟩ hl
  | write hholder hrecord hl => exact .nested hl
  | nested hl =>
    dsimp only [pushes]
    split_ifs
    · exact .none hl
    · exact .nested_low hl
  | @nested_low high medium l hl =>
    dsimp only [pushes]
    cases hlow : (r.thread medium).holded_by.bind r.holder with
    | none => exact .none hl
    | some low =>
      obtain ⟨n, hlink, hholder⟩ := Option.bind_eq_some_iff.mp hlow
      rw [show (r.thread medium).holded_by = _ from
        congrArg Account.holded_by (popped_account hgo medium)] at hlink
      rw [hgo.popped] at hholder
      obtain ⟨e, he, hheld⟩ := h.link_backed hm hlink hholder
      exact .nested_write ⟨e, h.record_kept hm hgo he hheld, hm.holder_kept hgo hheld (by simp)⟩ hl
  | nested_write hback hl => exact .nested hl

omit h in
/-- A thread that owns a lock goes on owning it, unless it has just rolled it back. -/
theorem owns_kept (hown : s.holder m = some t ∨ Rolling s t m)
    (hnot : t = s.current → c ≠ .release_test m ∧ c ≠ .priority_rollback m ∧ c ≠ .rollback_loop m) :
    s'.holder m = some t ∨ Rolling s' t m := by
  rcases hown with hholder | hroll | hroll | hroll
  · by_cases hc : c = .lock_release m
    · subst hc
      obtain rfl := Option.some.inj (hholder.symm.trans (release_holder hgo))
      refine Or.inr (Or.inl ?_)
      rw [hgo.after]
      exact List.mem_cons_self
    · exact Or.inl (hm.holder_kept hgo hholder hc)
  · exact Or.inr (Or.inl (hgo.kept hroll fun ht heq => (hnot ht).1 heq.symm))
  · exact Or.inr (Or.inr (Or.inl (hgo.kept hroll fun ht heq => (hnot ht).2.1 heq.symm)))
  · exact Or.inr (Or.inr (Or.inr (hgo.kept hroll fun ht heq => (hnot ht).2.2 heq.symm)))

omit hm in
/-- A record that is new is for a lock its thread holds. -/
theorem ResidueInv.inserted {e : LockElem} (hc : c = .donation_insert t e) :
    s.holder e.lock = some t := by
  subst hc
  have hcode := h.donating s.current
  rw [hgo.before] at hcode
  cases hcode with
  | none hl => cases hl _ List.mem_cons_self
  | insert hholder hl => exact hholder

theorem ResidueInv.owned_go (hrollback : ∀ n, c = .priority_rollback n → RollbackOk s n)
    {e : LockElem} (he : e ∈ (s'.thread t).possessing_locks) :
    s'.holder e.lock = some t ∨ Rolling s' t e.lock := by
  rcases (mem_records hgo e t).mp he with hc | ⟨he', hloop, -⟩
  · refine Or.inl (hm.holder_kept hgo (h.inserted hgo hc) ?_)
    rw [hc]
    simp
  by_cases ht : t = s.current
  swap
  · exact owns_kept hm hgo (h.owned t e he') fun heq => absurd heq ht
  subst ht
  -- its own roll-back: the next statement of it stands in front
  by_cases htest : c = .release_test e.lock
  · subst htest
    refine Or.inr (Or.inr (Or.inl ?_))
    have hne : r.cur.possessing_locks ≠ [] := by
      rw [show r.cur.possessing_locks = (s.thread s.current).possessing_locks from
        congrArg Account.possessing_locks (popped_current hgo)]
      exact List.ne_nil_of_mem he'
    rw [hgo.after]
    dsimp only [pushes]
    rw [if_pos hne]
    exact List.mem_cons_self
  by_cases hback : c = .priority_rollback e.lock
  · subst hback
    refine Or.inr (Or.inr (Or.inr ?_))
    have hne := hrollback _ rfl ⟨e, he', rfl⟩
    rw [← hgo.sema] at hne
    rw [hgo.after]
    dsimp only [pushes]
    rw [if_neg hne]
    exact List.mem_cons_self
  refine owns_kept hm hgo (h.owned _ e he') fun _ => ⟨htest, hback, fun heq => ?_⟩
  exact hloop heq rfl

theorem ResidueInv.linked_kept (hk : KernelInv s) {n : LockId}
    (hlink : (s'.thread t).holded_by = some n) :
    ∃ low, Recorded s' n low t := by
  rcases linked_go hgo hlink with ⟨rfl, rfl⟩ | ⟨hold, hloop⟩
  · -- the record was made before
    have hcode := h.donating s.current
    rw [hgo.before] at hcode
    cases hcode with
    | none hl => cases hl _ List.mem_cons_self
    | link hholder hrecord hl =>
      obtain ⟨e, he, rfl, hte⟩ := hrecord
      exact ⟨_, e, h.record_kept hm hgo he hholder, rfl, hte⟩
  · obtain ⟨low, e, he, rfl, rfl⟩ := h.linked t n hold
    refine ⟨low, e, (mem_records hgo e low).mpr (Or.inr ⟨he, ?_, ?_⟩), rfl, rfl⟩
    · rintro hc rfl
      exact hloop e he hc rfl
    · exact fun p hc => h.record_used hk he (created_unused hgo hc)

omit hm in
/-- The priority of a thread without records is not written, but for the last write of a
roll-back. -/
theorem ResidueInv.priority_kept (hnil : (s.thread t).possessing_locks = [])
    (hcreate : ∀ u p, c ≠ .thread_create u p) (hrun : t = s.current → c ≠ .rollback_original) :
    (s'.thread t).priority = (s.thread t).priority := by
  have hcode := h.donating s.current
  rw [hgo.before] at hcode
  have hsets := h.sets s.current c (by rw [hgo.before]; exact List.mem_cons_self)
  rcases priority_go hgo hsets hcreate t with hp | ⟨n, rfl⟩ | ⟨high, rfl⟩ | ⟨rfl, rfl | rfl⟩
  · exact hp
  · cases hcode with
    | none hl => cases hl _ List.mem_cons_self
    | write hholder hrecord hl =>
      obtain ⟨e, he, -⟩ := hrecord
      rw [hnil] at he
      cases he
  · cases hcode with
    | none hl => cases hl _ List.mem_cons_self
    | nested_write hback hl =>
      obtain ⟨e, he, -⟩ := hback
      rw [hnil] at he
      cases he
  · exact absurd rfl (hrun rfl)
  · -- `list_back` of an empty list
    have hexec := hgo.exec
    have hempty : r.cur.possessing_locks = [] :=
      (congrArg Account.possessing_locks (popped_current hgo)).trans hnil
    dsimp only [exec, rollback_back] at hexec
    rw [hempty] at hexec
    cases hexec

omit h hm in
/-- The end of a roll-back that has left no records. -/
theorem rollback_end (hnil : (s.thread s.current).possessing_locks = [])
    (hc : c = .rollback_test ∨ c = .rollback_original) :
    (s'.thread s.current).priority = (s'.thread s.current).original_priority ∨
      .rollback_original ∈ (s'.thread s.current).code := by
  rcases hc with rfl | rfl
  · refine Or.inr ?_
    have hempty : r.cur.possessing_locks = [] :=
      (congrArg Account.possessing_locks (popped_current hgo)).trans hnil
    rw [hgo.after]
    dsimp only [pushes]
    rw [if_pos hempty]
    exact List.mem_cons_self
  · refine Or.inl ?_
    have hacc := account_set hgo (u := r.current)
      (f := fun th => { th with priority := th.original_priority }) rfl s.current
    rw [hgo.current, if_pos rfl] at hacc
    obtain ⟨hp, ho, -⟩ := Account.mk.inj hacc
    exact hp.trans ho.symm

omit hm in
/-- A thread without records has its own priority, or is about to have it back. -/
theorem ResidueInv.plain_go (hnil : (s'.thread t).possessing_locks = []) :
    (s'.thread t).priority = (s'.thread t).original_priority ∨
      .rollback_test ∈ (s'.thread t).code ∨ .rollback_original ∈ (s'.thread t).code := by
  by_cases hloop : t = s.current ∧ ∃ n, c = .rollback_loop n
  · obtain ⟨rfl, n, rfl⟩ := hloop
    have hrolls := h.rolls s.current
    rw [hgo.before] at hrolls
    refine Or.inr (Or.inl ?_)
    rw [hgo.after]
    exact hrolls.1.2
  -- otherwise there were no records before
  have hold : (∀ p, c ≠ .thread_create t p) → (s.thread t).possessing_locks = [] := by
    intro hcreate
    refine List.eq_nil_iff_forall_not_mem.mpr fun e he => ?_
    have hmem := (mem_records hgo e t).mpr
      (Or.inr ⟨he, fun heq ht => hloop ⟨ht, _, heq⟩, hcreate⟩)
    rw [hnil] at hmem
    cases hmem
  by_cases hcreate : ∃ u p, c = .thread_create u p
  · obtain ⟨u, p, rfl⟩ := hcreate
    have hacc := account_create hgo h.mlfqs t
    by_cases ht : t = u
    · rw [if_pos ht] at hacc
      obtain ⟨hp, ho, -⟩ := Account.mk.inj hacc
      exact Or.inl (hp.trans ho.symm)
    · rw [if_neg ht] at hacc
      obtain ⟨hp, ho, -⟩ := Account.mk.inj hacc
      rw [hp, ho]
      have hplain := h.plain t (hold fun p heq => ht (Stmt.thread_create.inj heq).1.symm)
      exact hplain.imp_right (Or.imp (fun hd => hgo.kept hd (by simp)) fun hd =>
        hgo.kept hd (by simp))
  have hcreate' : ∀ u p, c ≠ .thread_create u p := fun u p heq => hcreate ⟨u, p, heq⟩
  have hnil' := hold fun p => hcreate' t p
  by_cases hrun : t = s.current ∧ (c = .rollback_test ∨ c = .rollback_original)
  · obtain ⟨rfl, hc⟩ := hrun
    exact (rollback_end hgo hnil' hc).imp_right Or.inr
  rcases h.plain t hnil' with hplain | htest | horig
  · refine Or.inl ?_
    have hsets := h.sets s.current c (by rw [hgo.before]; exact List.mem_cons_self)
    have horiginal : (s'.thread t).original_priority = (s.thread t).original_priority := by
      refine (account_frame hgo hcreate' t).2.1 ?_
      cases c with
      | set_original n => cases hsets
      | _ => simp [Stmt.writes]
    rw [horiginal, h.priority_kept hgo hnil' hcreate' fun ht hc => hrun ⟨ht, Or.inr hc⟩]
    exact hplain
  · exact Or.inr (Or.inl (hgo.kept htest fun ht heq => hrun ⟨ht, Or.inl heq.symm⟩))
  · exact Or.inr (Or.inr (hgo.kept horig fun ht heq => hrun ⟨ht, Or.inr heq.symm⟩))

omit h hm hgo in
theorem pushes_sets (hc : c.sets = false) : ∀ d ∈ pushes r c, d.sets = false := by
  have hall : (pushes r c).all (fun d => !d.sets) = true := by
    cases c with
    | thread_set_priority | timer_interrupt => cases hc
    | _ =>
      dsimp only [pushes]
      repeat' split
      all_goals rfl
  intro d hd
  simpa using List.all_eq_true.mp hall d hd

omit h hm in
/-- A holder exists. -/
theorem holder_used (hused : ∀ m t, s.holder m = some t → (s.thread t).status ≠ .unused)
    {n : LockId} (hn : s'.holder n = some t) : (s'.thread t).status ≠ .unused := by
  have hstatus : ∀ u, (r.thread u).status = (s.thread u).status := by
    intro u
    rw [hgo.popped, set_thread_apply]
    split_ifs with hu
    · rw [hu]
    · rfl
  refine exec_used hgo.exec ?_
  by_cases hlock : c.lock = some n
  swap
  · rw [holder_same hgo hlock] at hn
    rw [hstatus]
    exact hused n t hn
  cases c with
  | lock_hold k =>
    obtain rfl := Option.some.inj hlock
    rw [exec_holder hgo.exec] at hn
    have hcur : some r.current = some t := (Function.update_self k _ _).symm.trans hn
    rw [← Option.some.inj hcur, show (r.thread r.current).status = .running from
      hgo.inv.sched.running]
    decide
  | lock_release k =>
    obtain rfl := Option.some.inj hlock
    rw [exec_holder hgo.exec] at hn
    dsimp only [effect] at hn
    rw [push_holder] at hn
    cases (Function.update_self k _ _).symm.trans hn
  | _ => cases hlock

/-- **A statement of the running thread.** -/
theorem ResidueInv.thread (hk : KernelInv s) (hrelease : ∀ n, c = .lock_release n → ReleaseOk s n)
    (hrollback : ∀ n, c = .priority_rollback n → RollbackOk s n) : ResidueInv s' := by
  have hsets := h.sets s.current c (by rw [hgo.before]; exact List.mem_cons_self)
  refine ⟨?_, fun t d hd => ?_, ?_, fun n t hn => ?_, fun t => ?_, fun t => ?_,
    fun t e he => h.owned_go hm hgo hrollback he, fun t n hn => h.linked_kept hm hgo hk hn,
    fun t hnil => h.plain_go hgo hnil⟩
  · rw [exec_mlfqs hgo.exec, hgo.popped]
    exact h.mlfqs
  · rcases hgo.mem_code hd with ⟨-, hp⟩ | ⟨hold, -⟩
    · exact pushes_sets hsets d hp
    · exact h.sets t d hold
  · rw [hgo.intr_code]
    exact h.intr
  · exact holder_used hgo h.used hn
  · by_cases ht : t = s.current
    · have hrolls := h.rolls s.current
      rw [hgo.before] at hrolls
      rw [ht, hgo.after]
      exact hrolls.go
    · rw [hgo.code t ht]
      exact h.rolls t
  · by_cases ht : t = s.current
    · rw [ht]
      exact h.donating_own hm hgo
    · exact h.donating_other hm hgo hrelease ht

end Thread

/-- Holders and accounts are the same, and what was ahead is ahead still. -/
theorem ResidueInv.of_account (h : ResidueInv s) (hmlfqs : s'.thread_mlfqs = s.thread_mlfqs)
    (hsets : ∀ t, ∀ c ∈ (s'.thread t).code, c.sets = false)
    (hintr : .mlfqs_tick_change ∉ s'.intr_code) (hholder : s'.holder = s.holder)
    (hused : ∀ t, (s.thread t).status ≠ .unused → (s'.thread t).status ≠ .unused)
    (hacc : ∀ t, (s'.thread t).account = (s.thread t).account)
    (hkept : ∀ t, ∀ d ∈ (s.thread t).code, d ∈ (s'.thread t).code)
    (hrolls : ∀ t, Rolls (s'.thread t).code)
    (hdonating : ∀ t, Donating s t (s'.thread t).code) : ResidueInv s' := by
  have hrecords : ∀ t, (s'.thread t).possessing_locks = (s.thread t).possessing_locks :=
    fun t => congrArg Account.possessing_locks (hacc t)
  refine ⟨hmlfqs.trans h.mlfqs, hsets, hintr, fun m t hm => ?_, hrolls, fun t => ?_,
    fun t e he => ?_, fun t m hm => ?_, fun t hnil => ?_⟩
  · rw [hholder] at hm
    exact hused t (h.used m t hm)
  · refine (hdonating t).mono (fun low m _ hlow => ?_) (fun low m _ hrec => ?_) fun high low _ hb => ?_
    · rw [hholder]
      exact hlow
    · unfold Recorded
      rw [hrecords]
      exact hrec
    · unfold Backed
      rw [hrecords, hholder]
      exact hb
  · rw [hrecords] at he
    rw [hholder]
    exact (h.owned t e he).imp_right (Or.imp (hkept t _) (Or.imp (hkept t _) (hkept t _)))
  · rw [show (s'.thread t).holded_by = _ from congrArg Account.holded_by (hacc t)] at hm
    obtain ⟨low, hrec⟩ := h.linked t m hm
    refine ⟨low, ?_⟩
    unfold Recorded
    rw [hrecords]
    exact hrec
  · rw [hrecords] at hnil
    obtain ⟨hp, ho, -⟩ := Account.mk.inj (hacc t)
    rw [hp, ho]
    exact (h.plain t hnil).imp_right (Or.imp (hkept t _) (hkept t _))

theorem ResidueInv.congr (h : ResidueInv s) (hmlfqs : s'.thread_mlfqs = s.thread_mlfqs)
    (hintr : .mlfqs_tick_change ∉ s'.intr_code) (hholder : s'.holder = s.holder)
    (hused : ∀ t, (s.thread t).status ≠ .unused → (s'.thread t).status ≠ .unused)
    (hacc : ∀ t, (s'.thread t).account = (s.thread t).account)
    (hcode : ∀ t, (s'.thread t).code = (s.thread t).code) : ResidueInv s' := by
  refine h.of_account hmlfqs (fun t => ?_) hintr hholder hused hacc (fun t => ?_) (fun t => ?_)
    fun t => ?_
  · rw [hcode]
    exact h.sets t
  · rw [hcode]
    exact fun d hd => hd
  · rw [hcode]
    exact h.rolls t
  · rw [hcode]
    exact h.donating t

theorem ResidueInv.switch (h : ResidueInv s) (hsw : Switch s s') : ResidueInv s' := by
  refine h.congr hsw.thread_mlfqs ?_ hsw.holder hsw.used (fun t => ?_) hsw.code
  · rw [hsw.intr_code]
    exact h.intr
  · exact (congrArg Thread.account (hsw.thread t)).trans rfl

/-- A statement of the handler. -/
theorem ResidueInv.handler (h : ResidueInv s) (hgo : HandlerGo s c r s' rest) : ResidueInv s' := by
  have hfits := hgo.fits
  have hc : c ≠ .mlfqs_tick_change := by
    rintro rfl
    refine h.intr ?_
    rw [hgo.before]
    exact List.mem_cons_self
  have hmlfqs : r.thread_mlfqs = false := by
    rw [hgo.popped]
    exact h.mlfqs
  refine h.congr ?_ (fun hmem => ?_) ?_ (fun t ht => ?_) (fun t => ?_) hgo.code
  · rw [exec_mlfqs hgo.exec, hgo.popped]
  · rw [hgo.after] at hmem
    rcases List.mem_append.mp hmem with hp | hrest
    · cases c with
      | timer_interrupt =>
        dsimp only [pushes] at hp
        rw [if_neg (by rw [hmlfqs]; decide)] at hp
        simp at hp
      | intq_getc | intq_putc =>
        dsimp only [pushes] at hp
        split_ifs at hp <;> simp at hp
      | intq_signal =>
        dsimp only [pushes] at hp
        split at hp <;> simp at hp
      | sema_up | intq_clear | thread_unblock | mlfqs_tick_change | wake_waiting_list => cases hp
      | _ => exact hfits
    · refine h.intr ?_
      rw [hgo.before]
      exact List.mem_cons_of_mem c hrest
  · rw [exec_holder hgo.exec]
    funext m
    rw [(effect_frame r c).holder m, hgo.popped]
    intro hlock
    cases c with
    | lock_hold | lock_release => exact hfits
    | _ => cases hlock
  · refine exec_used hgo.exec ?_
    rw [hgo.popped]
    exact ht
  · have hcreate : ∀ u p, c ≠ .thread_create u p := by
      rintro u p rfl
      exact hfits
    have hwrites : c.writes = [] := by
      cases c with
      | sema_up | intq_getc | intq_putc | intq_signal | intq_clear | thread_unblock
      | timer_interrupt | wake_waiting_list => rfl
      | mlfqs_tick_change => exact absurd rfl hc
      | _ => exact absurd hfits id
    have hframe := effect_thread r hcreate t
    rw [exec_account hgo.exec t]
    unfold Thread.account
    rw [hframe.priority (by simp [hwrites]), hframe.original_priority (by simp [hwrites]),
      hframe.possessing_locks (by simp [hwrites]), hframe.holded_by (by simp [hwrites]), hgo.popped]

/-- A call by a thread that has nothing else to do. -/
theorem ResidueInv.push {l : List Stmt} (h : ResidueInv s) (hx : s.in_external_intr = false)
    (hcur : s.cur.code = [])
    (hl : ∀ c ∈ l, c.donates = false ∧ c.rolls = false ∧ c.sets = false) :
    ResidueInv (s.push l) := by
  have hcur' : (s.thread s.current).code = [] := hcur
  have hframe := (Frame.refl s .thread_yield).push l
  have hthread := ThreadFrame.push (fun t => ThreadFrame.refl .thread_yield (s.thread t)) l
  have hcode : ∀ t, ((s.push l).thread t).code = if t = s.current then l else (s.thread t).code := by
    intro t
    rw [push_code]
    by_cases ht : t = s.current
    · rw [if_pos ⟨hx, ht⟩, if_pos ht, ht, hcur', List.append_nil]
    · rw [if_neg (fun hc => ht hc.2), if_neg ht]
  have hintr : (s.push l).intr_code = s.intr_code := by
    unfold Kernel.push
    rw [if_neg (by rw [hx]; decide)]
    rfl
  refine h.of_account hframe.thread_mlfqs (fun t => ?_) ?_ (push_holder s l) (fun t ht => ?_)
    (fun t => ?_) (fun t d hd => ?_) (fun t => ?_) fun t => ?_
  · rw [hcode]
    split_ifs
    · exact fun c hc => (hl c hc).2.2
    · exact h.sets t
  · rw [hintr]
    exact h.intr
  · rw [(hthread t).status]
    exact ht
  · unfold Thread.account
    rw [(hthread t).priority (by decide), (hthread t).original_priority (by decide),
      (hthread t).possessing_locks (by decide), (hthread t).holded_by (by decide)]
  · rw [hcode]
    split_ifs with ht
    · rw [ht, hcur'] at hd
      cases hd
    · exact hd
  · rw [hcode]
    split_ifs
    · have hnil : Rolls [] := trivial
      have hrolls := Rolls.append (fun c hc => (hl c hc).2.1) hnil
      rwa [List.append_nil] at hrolls
    · exact h.rolls t
  · rw [hcode]
    split_ifs
    · exact .none fun c hc => (hl c hc).1
    · exact h.donating t

/-! ## Runs -/

/-- The thread whose `possessing_locks` a statement of `t` goes through link by link, with
interrupts on: in `list_insert_ordered` and in the loop of `priority_rollback`. -/
def Stmt.goes_through (t : Tid) : Stmt → Option Tid
  | .donation_insert low _ => some low
  | .rollback_loop _ => some t
  | _ => none

/-- The thread whose `possessing_locks` a statement of `t` reads or changes. -/
def Stmt.touches (t : Tid) : Stmt → Option Tid
  | .donation_insert low _ => some low
  | .release_test _ | .rollback_loop _ | .rollback_test | .rollback_back => some t
  | _ => none

/-- No other thread is inside `list_insert_ordered` or the loop of `priority_rollback` on the
list that the running thread touches. One whose next statement it is may be inside. -/
def Undisturbed (s : Kernel) (c : Stmt) : Prop :=
  ∀ low ∈ c.touches s.current, ∀ t ≠ s.current, ∀ d ∈ (s.thread t).code.head?,
    d.goes_through t ≠ some low

/-- Where donations are not left behind: no thread calls what sets priorities, nobody touches
a `possessing_locks` that another thread goes through, a lock is released when no donation for
it to its holder is under way, and rolled back when its donors sleep. -/
def ResidueOk (s : Kernel) : Event → Prop
  | .call c => c.sets = false
  | .go => s.in_external_intr = false → ∀ c rest, s.cur.code = c :: rest → Undisturbed s c ∧
      (∀ m, c = .lock_release m → ReleaseOk s m) ∧
      ∀ m, c = .priority_rollback m → RollbackOk s m
  | _ => True

theorem ResidueInv.step {e : Event} (h : ResidueInv s) (hk : KernelInv s) (hm : MutexInv s)
    (hok : ResidueOk s e) (hs : step s e s') : ResidueInv s' := by
  cases e with
  | call c =>
    obtain ⟨hx, -, hcur, hc, rfl⟩ := hs
    refine h.push hx hcur fun d hd => ?_
    obtain rfl := List.mem_singleton.mp hd
    refine ⟨?_, ?_, hok⟩
    · cases d <;> first | rfl | exact absurd hc id
    · cases d <;> first | rfl | exact absurd hc id
  | idle =>
    obtain ⟨hx, -, hcur, rfl⟩ := hs
    exact h.push hx hcur (by simp [Stmt.donates, Stmt.rolls, Stmt.sets])
  | go =>
    obtain ⟨c, r, hp, hs⟩ := hs
    rcases go_cases hk hp hs with ⟨rest, hgo⟩ | ⟨rest, hgo⟩
    · exact h.handler hgo
    · refine h.thread hm hgo hk ?_ ?_
      · exact (hok hgo.context c rest hgo.before).2.1
      · exact (hok hgo.context c rest hgo.before).2.2
  | intr =>
    obtain ⟨-, rfl⟩ := hs
    exact h.congr rfl h.intr rfl (fun _ ht => ht) (fun _ => rfl) fun _ => rfl
  | handle c =>
    obtain ⟨hx, hcode, hc, rfl⟩ := hs
    have hframe := (Frame.refl s .thread_yield).push [c]
    have hthread := ThreadFrame.push (fun t => ThreadFrame.refl .thread_yield (s.thread t)) [c]
    refine h.congr hframe.thread_mlfqs ?_ (push_holder s [c]) (fun t ht => ?_) (fun t => ?_)
      fun t => ?_
    · unfold Kernel.push
      rw [if_pos hx, hcode]
      intro hmem
      obtain rfl := List.mem_singleton.mp hmem
      exact hc
    · rw [(hthread t).status]
      exact ht
    · unfold Thread.account
      rw [(hthread t).priority (by decide), (hthread t).original_priority (by decide),
        (hthread t).possessing_locks (by decide), (hthread t).holded_by (by decide)]
    · rw [push_code, if_neg fun hc => absurd (hx.symm.trans hc.1) (by decide)]
  | intr_end =>
    obtain ⟨-, -, hs⟩ := hs
    have hout : ResidueInv { s with in_external_intr := false } :=
      h.congr rfl h.intr rfl (fun _ ht => ht) (fun _ => rfl) fun _ => rfl
    unfold intr_end at hs
    dsimp only at hs
    split_ifs at hs
    · exact hout.switch (thread_yield_switch hs)
    · obtain rfl := Except.ok.inj hs
      exact hout

theorem ResidueInv.thread_start {u : Setup} (hu : u.mlfqs = false) :
    ResidueInv (thread_start u) := by
  have hthread : ∀ t, (Machine.thread_start u).thread t = main_thread ∨
      (Machine.thread_start u).thread t = idle_thread ∨
      (Machine.thread_start u).thread t = no_thread := by
    intro t
    dsimp only [Machine.thread_start]
    split_ifs
    · exact Or.inl rfl
    · exact Or.inr (Or.inl rfl)
    · exact Or.inr (Or.inr rfl)
  have hempty : ∀ t, ((Machine.thread_start u).thread t).possessing_locks = [] := by
    intro t
    rcases hthread t with ht | ht | ht <;> rw [ht] <;> rfl
  refine ⟨hu, fun t c hc => ?_, List.not_mem_nil, fun m t hm => ?_, fun t => ?_, fun t => ?_,
    fun t e he => ?_, fun t m hm => ?_, fun t _ => Or.inl ?_⟩
  · rw [thread_start_code u t c hc]
    rfl
  · cases hm
  · rcases hthread t with ht | ht | ht <;> rw [ht]
    · trivial
    · exact ⟨trivial, trivial⟩
    · trivial
  · refine .none fun c hc => ?_
    rw [thread_start_code u t c hc]
    rfl
  · rw [hempty] at he
    cases he
  · rcases hthread t with ht | ht | ht <;> rw [ht] at hm <;> cases hm
  · rcases hthread t with ht | ht | ht <;> rw [ht] <;> rfl

theorem residue_inv {u : Setup} (hu : u.mlfqs = false)
    (hr : Reachable (kernel_system u) ResidueOk s) : ResidueInv s := by
  have hboth : MutexInv s ∧ ResidueInv s := by
    refine reachable_rule (P := fun r => MutexInv r ∧ ResidueInv r) hr
      ⟨MutexInv.thread_start u, ResidueInv.thread_start hu⟩ fun r e r' hk hi hok hs => ?_
    exact ⟨hi.1.step hk hs, hi.2.step hk hi.1 hok hs⟩
  exact hboth.2

/-- **No donation outlives its lock**, in the runs whose steps leave none behind: a thread that
holds no lock has no records, and its priority is its own. -/
theorem no_residue {u : Setup} (hu : u.mlfqs = false)
    (hr : Reachable (kernel_system u) ResidueOk s) (ht : ∀ m, ¬ InRegion s m t) :
    (s.thread t).possessing_locks = [] ∧
    (s.thread t).priority = (s.thread t).original_priority := by
  have h := residue_inv hu hr
  have hnil : (s.thread t).possessing_locks = [] := by
    refine List.eq_nil_iff_forall_not_mem.mpr fun e he => ht e.lock ?_
    rcases h.owned t e he with hholder | hroll
    · exact Or.inr (Or.inl hholder)
    · exact Or.inr (Or.inr (hroll.releases (h.rolls t)))
  refine ⟨hnil, ?_⟩
  rcases h.plain t hnil with hplain | hroll | hroll
  · exact hplain
  · obtain ⟨rest, ⟨m, hup⟩, hsub⟩ := (h.rolls t).mem hroll
    exact absurd (Or.inr (Or.inr (hsub hup))) (ht m)
  · obtain ⟨rest, ⟨m, hup⟩, hsub⟩ := (h.rolls t).mem hroll
    exact absurd (Or.inr (Or.inr (hsub hup))) (ht m)

/-! ## Runs of three threads -/

/-- Only the first six locks are taken and released. -/
def SmallLocks (s : Kernel) : Event → Prop
  | .go => s.in_external_intr = false → ∀ c ∈ s.cur.code.head?, ∀ n ∈ c.lock, n < 6
  | _ => True

instance (s : Kernel) : ∀ e, Decidable (SmallLocks s e)
  | .go => inferInstanceAs (Decidable (s.in_external_intr = false →
      ∀ c ∈ s.cur.code.head?, ∀ n ∈ c.lock, n < 6))
  | .call _ | .idle | .intr | .handle _ | .intr_end => inferInstanceAs (Decidable True)

theorem holder_small {u : Setup} (hr : Reachable (kernel_system u) SmallLocks s) (hm : 6 ≤ m) :
    s.holder m = none := by
  refine reachable_rule (P := fun r => r.holder m = none) hr rfl fun r e r' hk hi hok hs => ?_
  cases e with
  | go =>
    obtain ⟨c, q, hp, hs⟩ := hs
    rcases go_cases hk hp hs with ⟨rest, hgo⟩ | ⟨rest, hgo⟩
    · rw [exec_holder hgo.exec, (effect_frame q c).holder m, hgo.popped]
      · exact hi
      · intro hlock
        have hfits := hgo.fits
        cases c with
        | lock_hold | lock_release => exact hfits
        | _ => cases hlock
    · rw [holder_same hgo]
      · exact hi
      · intro hlock
        have hhead : c ∈ r.cur.code.head? := by
          show c ∈ (r.thread r.current).code.head?
          rw [hgo.before]
          rfl
        exact absurd (hok hgo.context c hhead m hlock) (Nat.not_lt.mpr hm)
  | call c =>
    obtain ⟨-, -, -, -, rfl⟩ := hs
    rw [push_holder]
    exact hi
  | idle =>
    obtain ⟨-, -, -, rfl⟩ := hs
    rw [push_holder]
    exact hi
  | intr =>
    obtain ⟨-, rfl⟩ := hs
    exact hi
  | handle c =>
    obtain ⟨-, -, -, rfl⟩ := hs
    rw [push_holder]
    exact hi
  | intr_end =>
    obtain ⟨-, -, hs⟩ := hs
    unfold intr_end at hs
    dsimp only at hs
    split_ifs at hs
    · rw [(thread_yield_switch hs).holder]
      exact hi
    · obtain rfl := Except.ok.inj hs
      exact hi

/-- A thread that is outside every function holds only what `holder` says. -/
theorem outside_small {u : Setup} (hr : Reachable (kernel_system u) SmallLocks s)
    (hcode : (s.thread t).code = []) (hholder : ∀ n < 6, s.holder n ≠ some t) (m : LockId) :
    ¬ InRegion s m t := by
  unfold InRegion AtHold Releases
  rw [hcode]
  rintro (h | h | h)
  · cases h
  · by_cases hm : m < 6
    · exact hholder m hm h
    · rw [holder_small hr (Nat.not_lt.mp hm)] at h
      cases h
  · cases h

/-- The lock whose donations are rolled back. -/
def Stmt.rolled : Stmt → Option LockId
  | .priority_rollback m => some m
  | _ => none

/-- The donors are asleep when a lock is released, in a run of the first three threads. -/
def SmallOk (s : Kernel) : Event → Prop
  | .call c => s.current < 3 ∧ c.sets = false
  | .idle => s.current < 3
  | .go => SmallLocks s .go ∧ (s.in_external_intr = false → ∀ c ∈ s.cur.code.head?,
      (c.lock ≠ none → ∀ t < 3, ∀ d ∈ (s.thread t).code, d.donates = false) ∧
      (∀ m ∈ c.rolled, (s.sema (.lock m)).waiters ≠ []) ∧
      ∀ low ∈ c.touches s.current, ∀ t < 3, t ≠ s.current → ∀ d ∈ (s.thread t).code.head?,
        d.goes_through t ≠ some low)
  | _ => True

instance (s : Kernel) : ∀ e, Decidable (SmallOk s e)
  | .call c => inferInstanceAs (Decidable (s.current < 3 ∧ c.sets = false))
  | .idle => inferInstanceAs (Decidable (s.current < 3))
  | .go => inferInstanceAs (Decidable (SmallLocks s .go ∧ (s.in_external_intr = false →
      ∀ c ∈ s.cur.code.head?, (c.lock ≠ none → ∀ t < 3, ∀ d ∈ (s.thread t).code,
        d.donates = false) ∧ (∀ m ∈ c.rolled, (s.sema (.lock m)).waiters ≠ []) ∧
        ∀ low ∈ c.touches s.current, ∀ t < 3, t ≠ s.current → ∀ d ∈ (s.thread t).code.head?,
          d.goes_through t ≠ some low)))
  | .intr | .handle _ | .intr_end => inferInstanceAs (Decidable True)

theorem SmallOk.locks {e : Event} (h : SmallOk s e) : SmallLocks s e := by
  cases e with
  | go => exact h.1
  | _ => trivial

/-- The other threads have nothing to execute. -/
theorem code_small {u : Setup} (hr : Reachable (kernel_system u) SmallOk s) (ht : 3 ≤ t) :
    (s.thread t).code = [] := by
  have hstart : ((Machine.thread_start u).thread t).code = [] := by
    dsimp only [Machine.thread_start]
    rw [if_neg (by rintro rfl; cases ht), if_neg (by rintro rfl; exact absurd ht (by decide))]
    rfl
  refine reachable_rule (P := fun r => (r.thread t).code = []) hr hstart fun r e r' hk hi hok hs => ?_
  -- only the running thread gets new statements, and it is one of the first three
  have hpush : ∀ l, (r.current < 3 ∨ r.in_external_intr = true) → ((r.push l).thread t).code = [] := by
    intro l hcur
    rw [push_code, if_neg]
    · exact hi
    · rintro ⟨hx, rfl⟩
      rcases hcur with hlt | hext
      · exact absurd hlt (Nat.not_lt.mpr ht)
      · rw [hx] at hext
        cases hext
  cases e with
  | go =>
    obtain ⟨c, q, hp, hs⟩ := hs
    rcases go_cases hk hp hs with ⟨rest, hgo⟩ | ⟨rest, hgo⟩
    · rw [hgo.code]
      exact hi
    · rw [hgo.code t]
      · exact hi
      · rintro rfl
        rw [hgo.before] at hi
        cases hi
  | call c =>
    obtain ⟨-, -, -, -, rfl⟩ := hs
    exact hpush _ (Or.inl hok.1)
  | idle =>
    obtain ⟨-, -, -, rfl⟩ := hs
    exact hpush _ (Or.inl hok)
  | intr =>
    obtain ⟨-, rfl⟩ := hs
    exact hi
  | handle c =>
    obtain ⟨hx, -, -, rfl⟩ := hs
    exact hpush _ (Or.inr hx)
  | intr_end =>
    obtain ⟨-, -, hs⟩ := hs
    unfold intr_end at hs
    dsimp only at hs
    split_ifs at hs
    · rw [(thread_yield_switch hs).code]
      exact hi
    · obtain rfl := Except.ok.inj hs
      exact hi

theorem SmallOk.residue {e : Event} (hcode : ∀ t, 3 ≤ t → (s.thread t).code = [])
    (h : SmallOk s e) : ResidueOk s e := by
  cases e with
  | call c => exact h.2
  | go =>
    intro hx c rest hcur
    have hhead : c ∈ s.cur.code.head? := by
      rw [hcur]
      rfl
    obtain ⟨hdonates, hrolled, hapart⟩ := h.2 hx c hhead
    refine ⟨fun low hlow t hne d hd => ?_, fun m hc => ?_, fun m hc _ => ?_⟩
    · by_cases ht : t < 3
      · exact hapart low hlow t ht hne d hd
      · rw [hcode t (Nat.not_lt.mp ht)] at hd
        cases hd
    · have hnone : ∀ t, ∀ d ∈ (s.thread t).code, d.donates = false := by
        intro t d hd
        by_cases ht : t < 3
        · exact hdonates (by rw [hc]; simp [Stmt.lock]) t ht d hd
        · rw [hcode t (Nat.not_lt.mp ht)] at hd
          cases hd
      refine ⟨fun t hpend => ?_, fun t high hmem => ?_⟩
      · rcases hpend with hd | ⟨e, hd, -⟩ | hd
        · exact absurd (hnone t _ hd) (by simp [Stmt.donates])
        · exact absurd (hnone t _ hd) (by simp [Stmt.donates])
        · exact absurd (hnone t _ hd) (by simp [Stmt.donates])
      · exact absurd (hnone t _ hmem) (by simp [Stmt.donates])
    · exact hrolled m (by rw [hc]; rfl)
  | _ => trivial

/-- The guard of `no_residue`, along a run of three threads. -/
theorem small_reachable {u : Setup} (hr : Reachable (kernel_system u) SmallOk s) :
    Reachable (kernel_system u) ResidueOk s := by
  induction hr with
  | init h => exact .init h
  | step hr hok hs ih => exact .step ih (hok.residue fun t ht => code_small hr ht) hs

/-- Thread 2 waits for the lock of the main thread. -/
def donor_run (gos : ℕ) : List Event :=
  acquire_run 5 ++ create_run 2 40 ++ (.call (.lock_acquire 5) :: List.replicate gos .go)

theorem donor_run_allowed (gos : ℕ) : ∀ e ∈ donor_run gos, e.Allowed := by
  simp [donor_run, create_run, acquire_run, Event.Allowed, Stmt.Callable]

theorem no_residue_released : ∃ s, Reachable (kernel_system plain_setup) ResidueOk s ∧
    s.holder 5 = none ∧ (s.sema (.lock 5)).value = 1 ∧ (s.thread 0).possessing_locks = [] ∧
    (s.thread 0).priority = (s.thread 0).original_priority := by
  obtain ⟨s, hr, hfree, hvalue, hcode, hholder⟩ := run_reachable (u := plain_setup) SmallOk
    (fun s => s.holder 5 = none ∧ (s.sema (.lock 5)).value = 1 ∧ (s.thread 0).code = [] ∧
      ∀ n < 6, s.holder n ≠ some 0)
    (donor_run 10 ++ (.call (.lock_release 5) :: List.replicate 7 .go)) (.init rfl)
    (List.forall_mem_append.mpr ⟨donor_run_allowed 10, by simp [Event.Allowed, Stmt.Callable]⟩)
    (by decide +kernel)
  have hout := outside_small (hr.weaken fun _ _ => SmallOk.locks) hcode hholder
  exact ⟨s, small_reachable hr, hfree, hvalue, no_residue rfl (small_reachable hr) hout⟩

/-- A tick of the timer. -/
def tick_run : List Event := [.intr, .handle .timer_interrupt, .go, .go, .intr_end]

/-- The donor has written its priority and loses the processor before it sleeps. -/
def residue_run : List Event :=
  donor_run 8 ++ tick_run ++ tick_run ++ tick_run ++ tick_run ++
    (.call (.lock_release 5) :: List.replicate 4 .go)

/-- The main thread has released its only lock and keeps the donation. -/
theorem donation_left : ∃ s, Reachable (kernel_system plain_setup) (fun _ _ => True) s ∧
    (∀ m, ¬ InRegion s m 0) ∧ (s.thread 0).possessing_locks ≠ [] ∧
    (s.thread 0).priority ≠ (s.thread 0).original_priority := by
  obtain ⟨s, hr, hrecord, hpriority, horiginal, hcode, hholder⟩ := run_reachable
    (u := plain_setup) SmallLocks (fun s => (s.thread 0).possessing_locks.length = 1 ∧
      (s.thread 0).priority = 40 ∧ (s.thread 0).original_priority = 31 ∧ (s.thread 0).code = [] ∧
      ∀ n : ℕ, n < 6 → s.holder n ≠ some 0) residue_run (.init rfl)
    (by simp [residue_run, donor_run, tick_run, create_run, acquire_run, Event.Allowed,
      Stmt.Callable, Stmt.Handled])
    (by decide +kernel)
  refine ⟨s, hr.weaken fun _ _ _ => trivial, outside_small hr hcode hholder, ?_, ?_⟩
  · intro hnil
    rw [hnil] at hrecord
    cases hrecord
  · rw [hpriority, horiginal]
    decide

end Pintos.Threads.Machine
