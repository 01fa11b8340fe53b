/-
The invariant of the lock operations.

Two graphs lie over one state. The *chain* of a thread follows the locks threads
are asleep on to their holders. The *walk* of `nested_donation` follows
`holded_by`, which is set by a donation only. `LockInv` says that the walk is a
part of the chain and that it ends, and ties the donations a thread has recorded
to the threads that made them.
-/
import Pintos.Threads.Synch

set_option autoImplicit false

namespace Pintos.Threads

open StepSystem Links

/-! ## Reading a changed state -/

section Fields

variable (s : LockSys) (t u : Tid) (m n : LockId) (f : Thread → Thread) (g : Lock → Lock) (p : ℤ)

@[simp] theorem set_thread_lock : (s.set_thread t f).lock = s.lock := rfl

@[simp] theorem set_lock_thread : (s.set_lock m g).thread = s.thread := rfl

@[simp] theorem set_priority_lock : (s.set_priority t p).lock = s.lock := rfl

theorem set_thread_thread :
    (s.set_thread t f).thread u = if u = t then f (s.thread t) else s.thread u :=
  Function.update_apply _ _ _ _

theorem set_lock_lock :
    (s.set_lock m g).lock n = if n = m then g (s.lock m) else s.lock n :=
  Function.update_apply _ _ _ _

theorem set_priority_thread : (s.set_priority t p).thread u
    = if u = t then { s.thread t with priority := p } else s.thread u := by
  unfold LockSys.set_priority
  rw [set_thread_thread]

end Fields

theorem list_insert_ordered_perm {α : Type} (less : α → α → Prop) [DecidableRel less]
    (l : List α) (a : α) : (list_insert_ordered less l a).Perm (a :: l) :=
  List.perm_orderedInsert less a l

/-! ## The two graphs -/

/-- The holder of the lock `t` is asleep on. -/
def chain_next (s : LockSys) (t : Tid) : Option Tid :=
  match (s.thread t).phase with
  | .blocked m => s.holder m
  | _ => none

/-- The holder of the lock `t->holded_by`, where `nested_donation` goes next. -/
def walk_next (s : LockSys) (t : Tid) : Option Tid := (s.thread t).holded_by.bind s.holder

/-- The threads that wait for `t`, and what `t` waits for: `b` is on the chain of `a`. -/
def OnChain (s : LockSys) : Tid → Tid → Prop := Reaches (chain_next s)

/-- `b` is on the walk of `nested_donation` from `a`. -/
def OnWalk (s : LockSys) : Tid → Tid → Prop := Reaches (walk_next s)

/-! ## The invariant -/

/-- What every run of lock operations keeps. Priorities do not occur in it: the
order of the donations received is the order of the recorded priorities. -/
structure LockInv (s : LockSys) : Prop where
  value : ∀ m, (s.lock m).value = if s.holder m = none then 1 else 0
  waiter : ∀ m t, t ∈ (s.lock m).waiters ↔ (s.thread t).phase = .blocked m
  nodup : ∀ m, (s.lock m).waiters.Nodup
  linked : ∀ t m, (s.thread t).holded_by = some m → (s.thread t).phase = .blocked m ∧
    ∃ u, s.holder m = some u ∧
      ∃ e ∈ (s.thread u).possessing_locks, e.lock = m ∧ e.locked_thread = t
  recorded : ∀ u, ∀ e ∈ (s.thread u).possessing_locks,
    s.holder e.lock = some u ∧ (s.thread e.locked_thread).holded_by = some e.lock
  sorted : ∀ u, (s.thread u).possessing_locks.Pairwise less_lock_priority
  live : ∀ m t, s.holder m = some t → (s.thread t).live = true
  ended : ∀ t, (s.thread t).live = false → (s.thread t).phase = .free
  ranked : Ranked (walk_next s)

/-- The same locks, sleepers, donations and links: all that the invariant is about,
except which threads exist. -/
structure SameLinks (s s' : LockSys) : Prop where
  lock : s'.lock = s.lock
  phase : ∀ t, (s'.thread t).phase = (s.thread t).phase
  possessing_locks : ∀ t, (s'.thread t).possessing_locks = (s.thread t).possessing_locks
  holded_by : ∀ t, (s'.thread t).holded_by = (s.thread t).holded_by

theorem SameLinks.walk_next {s s' : LockSys} (h : SameLinks s s') :
    walk_next s' = walk_next s := by
  funext t
  unfold Threads.walk_next LockSys.holder
  rw [h.holded_by, h.lock]

theorem SameLinks.refl (s : LockSys) : SameLinks s s :=
  ⟨rfl, fun _ => rfl, fun _ => rfl, fun _ => rfl⟩

theorem SameLinks.trans {s s' s'' : LockSys} (h : SameLinks s s') (h' : SameLinks s' s'') :
    SameLinks s s'' :=
  ⟨h'.lock.trans h.lock, fun t => (h'.phase t).trans (h.phase t),
    fun t => (h'.possessing_locks t).trans (h.possessing_locks t),
    fun t => (h'.holded_by t).trans (h.holded_by t)⟩

/-- An update that leaves the three fields of the thread alone. -/
theorem SameLinks.set_thread {s : LockSys} {t : Tid} {f : Thread → Thread}
    (hphase : (f (s.thread t)).phase = (s.thread t).phase)
    (hposs : (f (s.thread t)).possessing_locks = (s.thread t).possessing_locks)
    (hheld : (f (s.thread t)).holded_by = (s.thread t).holded_by) :
    SameLinks s (s.set_thread t f) := by
  refine ⟨rfl, fun u => ?_, fun u => ?_, fun u => ?_⟩ <;>
  · rw [set_thread_thread]
    split_ifs with hu
    · subst hu
      assumption
    · rfl

theorem SameLinks.set_priority (s : LockSys) (t : Tid) (p : ℤ) :
    SameLinks s (s.set_priority t p) :=
  SameLinks.set_thread rfl rfl rfl

/-- A thread may begin or end to exist where it is outside `lock_acquire` and holds
no lock. -/
theorem LockInv.congr {s s' : LockSys} (hinv : LockInv s) (h : SameLinks s s')
    (hlive : ∀ t, (s'.thread t).live = (s.thread t).live ∨
      (s.thread t).phase = .free ∧ ∀ m, s.holder m ≠ some t) : LockInv s' := by
  have hwalk := h.walk_next
  constructor
  · intro m
    unfold LockSys.holder
    rw [h.lock]
    exact hinv.value m
  · intro m t
    rw [h.lock, h.phase]
    exact hinv.waiter m t
  · intro m
    rw [h.lock]
    exact hinv.nodup m
  · intro t m ht
    rw [h.holded_by] at ht
    unfold LockSys.holder
    simp only [h.lock, h.phase, h.possessing_locks]
    exact hinv.linked t m ht
  · intro u e he
    rw [h.possessing_locks] at he
    unfold LockSys.holder
    rw [h.lock, h.holded_by]
    exact hinv.recorded u e he
  · intro u
    rw [h.possessing_locks]
    exact hinv.sorted u
  · intro m t ht
    unfold LockSys.holder at ht
    rw [h.lock] at ht
    rcases hlive t with heq | ⟨-, hnone⟩
    · rw [heq]
      exact hinv.live m t ht
    · exact absurd ht (hnone m)
  · intro t ht
    rw [h.phase]
    rcases hlive t with heq | ⟨hfree, -⟩
    · rw [heq] at ht
      exact hinv.ended t ht
    · exact hfree
  · rw [hwalk]
    exact hinv.ranked

/-- The walk is a part of the chain. -/
theorem LockInv.chain_of_walk {s : LockSys} (hinv : LockInv s) {t u : Tid}
    (h : walk_next s t = some u) : chain_next s t = some u := by
  unfold walk_next at h
  obtain ⟨m, hm, hu⟩ := Option.bind_eq_some_iff.mp h
  unfold chain_next
  rw [(hinv.linked t m hm).1]
  exact hu

theorem LockInv.onChain_of_onWalk {s : LockSys} (hinv : LockInv s) {t u : Tid}
    (h : OnWalk s t u) : OnChain s t u :=
  Reaches.mono (fun _ _ hxy => hinv.chain_of_walk hxy) h

/-- Only a sleeping thread is linked. -/
theorem LockInv.not_linked {s : LockSys} (hinv : LockInv s) {t : Tid}
    (h : ∀ m, (s.thread t).phase ≠ .blocked m) : (s.thread t).holded_by = none := by
  cases hb : (s.thread t).holded_by with
  | none => rfl
  | some m => exact absurd (hinv.linked t m hb).1 (h m)

end Pintos.Threads
