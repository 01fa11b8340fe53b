/-
Condition variables (`threads/synch.c`): the life of each waiter.

A waiter is a call of `cond_wait`. It is entered, removed, raised and it leaves, once each
and in this order; `CondEvent.Follows` says what may come when, and `LogOk` that a history
keeps to it. The invariant says where each waiter is in its life by what is still to
execute:

  - entered, not removed: it is on `waiters`;
  - removed, not raised: one thread has its `cond_wake` as the next statement;
  - entered, not left: one thread has its `cond_return` ahead, and in front of it the
    `sema_down` of its semaphore, unless that is done.

`sema_down` gets through only after the `sema_up`, because the semaphore is made with 0.
-/
import Pintos.Threads.Semaphore
import Pintos.Threads.Mutex

set_option autoImplicit false

namespace Pintos.Threads.Machine

open StepSystem

/-! ## Histories -/

/-- The waiter an event removes. -/
def CondEvent.removed : CondEvent → Option WaiterId
  | .remove w => some w
  | _ => none

/-- What may come next in a history. A broadcast removes those that are there at its
beginning, and nobody enters before it ends. -/
def CondEvent.Follows (l : List CondEvent) : CondEvent → Prop
  | .enter w => .enter w ∉ l
  | .remove w => .enter w ∈ l ∧ .remove w ∉ l
  | .raise w => .remove w ∈ l ∧ .raise w ∉ l
  | .leave w => .raise w ∈ l ∧ .leave w ∉ l
  | .broadcast _ present => present.Nodup ∧ ∀ w, w ∈ present ↔ .enter w ∈ l ∧ .remove w ∉ l
  | .finish t => ∃ since present before, l = since ++ .broadcast t present :: before ∧
      since.filterMap CondEvent.removed = present ∧ ∀ w, .enter w ∉ since

/-- A history, latest first, in which everything follows. -/
def LogOk : List CondEvent → Prop
  | [] => True
  | e :: l => e.Follows l ∧ LogOk l

variable {s s' r : Kernel} {c : Stmt} {rest : List Stmt} {d : CondId} {w : WaiterId} {t : Tid}

/-- The waiters on the list of a condition variable. -/
def Condition.ids (x : Condition) : List WaiterId := x.waiters.map SemaphoreElem.waiter

/-! ## What statements do to condition variables -/

/-- What a statement adds to the history of its condition variable. -/
def logs (s : Kernel) : Stmt → List CondEvent
  | .cond_enter _ _ => [.enter s.next_waiter]
  | .cond_return _ w => [.leave w]
  | .cond_signal d =>
    match (s.cond d).waiters.getLast? with
    | none => []
    | some e => [.remove e.waiter]
  | .cond_wake _ w => [.raise w]
  | .cond_broadcast d => [.broadcast s.current (s.cond d).ids]
  | .broadcast_loop d => if (s.cond d).waiters = [] then [.finish s.current] else []
  | _ => []

/-- What a statement makes of its condition variable. -/
def cond_after (s : Kernel) (c : Stmt) (x : Condition) : Condition where
  lock := x.lock
  waiters :=
    match c with
    | .cond_enter _ p => list_insert_ordered less_waiter_priority x.waiters ⟨s.next_waiter, p⟩
    | .cond_signal _ => x.waiters.dropLast
    | _ => x.waiters
  log := logs s c ++ x.log

theorem set_cond_self (s : Kernel) (d : CondId) (f : Condition → Condition) :
    (s.set_cond d f).cond d = f (s.cond d) :=
  Function.update_self _ _ _

theorem effect_cond (s : Kernel) (c : Stmt) (d : CondId) :
    (effect s c).cond d = if c.cond = some d then cond_after s c (s.cond d) else s.cond d := by
  by_cases hd : c.cond = some d
  swap
  · rw [if_neg hd, (effect_frame s c).cond d hd]
  rw [if_pos hd]
  cases c with
  | cond_enter e p =>
    obtain rfl := Option.some.inj hd
    dsimp only [effect, cond_enter]
    rw [push_cond]
    exact set_cond_self s e (cond_after s (.cond_enter e p))
  | cond_return e w =>
    obtain rfl := Option.some.inj hd
    exact set_cond_self s e (cond_after s (.cond_return e w))
  | cond_signal e =>
    obtain rfl := Option.some.inj hd
    dsimp only [effect, cond_after, logs]
    cases hl : (s.cond e).waiters.getLast? with
    | none =>
      rw [List.getLast?_eq_none_iff.mp hl, List.dropLast_nil, ← List.getLast?_eq_none_iff.mp hl]
      rfl
    | some x =>
      dsimp only
      rw [push_cond]
      exact set_cond_self s e _
  | cond_wake e w =>
    obtain rfl := Option.some.inj hd
    exact set_cond_self s e (cond_after s (.cond_wake e w))
  | cond_broadcast e =>
    obtain rfl := Option.some.inj hd
    dsimp only [effect, cond_broadcast]
    rw [push_cond]
    exact set_cond_self s e (cond_after s (.cond_broadcast e))
  | broadcast_loop e =>
    obtain rfl := Option.some.inj hd
    dsimp only [effect, cond_after, logs, broadcast_loop]
    split_ifs
    · exact set_cond_self s e _
    · rw [push_cond]
      rfl
  | _ => cases hd

theorem exec_cond (hs : exec s c = .ok s') : s'.cond = (effect s c).cond :=
  exec_of_effect (P := fun r => r.cond = (effect s c).cond) (fun _ _ h hp => h.cond.trans hp)
    (fun _ _ hp => hp) rfl hs

theorem exec_next_waiter (hs : exec s c = .ok s') : s'.next_waiter = (effect s c).next_waiter :=
  exec_of_effect (P := fun r => r.next_waiter = (effect s c).next_waiter)
    (fun _ _ h hp => h.next_waiter.trans hp) (fun _ _ hp => hp) rfl hs

/-- The condition variables after a statement of the running thread. -/
theorem thread_cond (hgo : ThreadGo s c r s' rest) (d : CondId) :
    s'.cond d = if c.cond = some d then cond_after r c (s.cond d) else s.cond d := by
  rw [exec_cond hgo.exec, effect_cond, hgo.popped]
  rfl

theorem thread_cond_self (hgo : ThreadGo s c r s' rest) (hd : c.cond = some d) :
    s'.cond d = cond_after r c (s.cond d) := by
  rw [thread_cond hgo, if_pos hd]

/-- Handlers have no part in condition variables. -/
theorem handler_cond (hgo : HandlerGo s c r s' rest) : s'.cond = s.cond := by
  funext d
  rw [exec_cond hgo.exec, (effect_frame r c).cond d, hgo.popped]
  intro hc
  have hfits := hgo.fits
  cases c with
  | cond_enter | cond_return | cond_signal | cond_wake | cond_broadcast | broadcast_loop =>
    exact hfits
  | _ => cases hc

/-- What is new in a history. -/
theorem mem_log (hgo : ThreadGo s c r s' rest) {e : CondEvent} :
    e ∈ (s'.cond d).log ↔ (c.cond = some d ∧ e ∈ logs r c) ∨ e ∈ (s.cond d).log := by
  rw [thread_cond hgo]
  split_ifs with hd
  · show e ∈ logs r c ++ (s.cond d).log ↔ _
    rw [List.mem_append, and_iff_right hd]
  · rw [or_iff_right fun h => hd h.1]

theorem mem_log_of_mem (hgo : ThreadGo s c r s' rest) {e : CondEvent}
    (he : e ∈ (s.cond d).log) : e ∈ (s'.cond d).log :=
  (mem_log hgo).mpr (Or.inr he)

/-! ### Where the events come from -/

theorem enter_mem_logs (h : .enter w ∈ logs r c) :
    w = r.next_waiter ∧ ∃ e p, c = .cond_enter e p := by
  cases c with
  | cond_enter e p =>
    have hw : w = r.next_waiter := by simpa [logs] using h
    exact ⟨hw, e, p, rfl⟩
  | cond_signal e =>
    dsimp only [logs] at h
    split at h <;> simp at h
  | broadcast_loop e =>
    dsimp only [logs] at h
    split_ifs at h <;> simp at h
  | _ => simp [logs] at h

theorem remove_mem_logs (h : .remove w ∈ logs r c) :
    ∃ e x, c = .cond_signal e ∧ (r.cond e).waiters.getLast? = some x ∧ w = x.waiter := by
  cases c with
  | cond_signal e =>
    dsimp only [logs] at h
    cases hl : (r.cond e).waiters.getLast? with
    | none =>
      rw [hl] at h
      simp at h
    | some x =>
      rw [hl] at h
      exact ⟨e, x, rfl, hl, by simpa using h⟩
  | broadcast_loop e =>
    dsimp only [logs] at h
    split_ifs at h <;> simp at h
  | _ => simp [logs] at h

theorem raise_mem_logs (h : .raise w ∈ logs r c) : ∃ e, c = .cond_wake e w := by
  cases c with
  | cond_wake e x =>
    have hw : w = x := by simpa [logs] using h
    exact ⟨e, by rw [hw]⟩
  | cond_signal e =>
    dsimp only [logs] at h
    split at h <;> simp at h
  | broadcast_loop e =>
    dsimp only [logs] at h
    split_ifs at h <;> simp at h
  | _ => simp [logs] at h

theorem leave_mem_logs (h : .leave w ∈ logs r c) : ∃ e, c = .cond_return e w := by
  cases c with
  | cond_return e x =>
    have hw : w = x := by simpa [logs] using h
    exact ⟨e, by rw [hw]⟩
  | cond_signal e =>
    dsimp only [logs] at h
    split at h <;> simp at h
  | broadcast_loop e =>
    dsimp only [logs] at h
    split_ifs at h <;> simp at h
  | _ => simp [logs] at h

theorem ids_enter {p : ℤ} (hgo : ThreadGo s (.cond_enter d p) r s' rest) :
    (s'.cond d).ids.Perm (s.next_waiter :: (s.cond d).ids) := by
  have hnext : r.next_waiter = s.next_waiter := by
    rw [hgo.popped]
    rfl
  rw [thread_cond_self hgo rfl, ← hnext]
  exact (List.perm_orderedInsert _ _ _).map SemaphoreElem.waiter

theorem ids_signal (hgo : ThreadGo s (.cond_signal d) r s' rest) :
    (s'.cond d).ids = (s.cond d).ids.dropLast := by
  rw [thread_cond_self hgo rfl]
  exact List.map_dropLast

theorem ids_same (hgo : ThreadGo s c r s' rest) (henter : ∀ p, c ≠ .cond_enter d p)
    (hsignal : c ≠ .cond_signal d) : (s'.cond d).ids = (s.cond d).ids := by
  rw [thread_cond hgo]
  split_ifs with hd
  · cases c with
    | cond_enter e p => exact absurd (Option.some.inj hd ▸ rfl) (henter p)
    | cond_signal e => exact absurd (Option.some.inj hd ▸ rfl) hsignal
    | _ => rfl
  · rfl

theorem next_waiter_same (hgo : ThreadGo s c r s' rest) (henter : ∀ e p, c ≠ .cond_enter e p) :
    s'.next_waiter = s.next_waiter := by
  rw [exec_next_waiter hgo.exec, (effect_frame r c).next_waiter henter, hgo.popped]
  rfl

theorem next_waiter_enter {p : ℤ} (hgo : ThreadGo s (.cond_enter d p) r s' rest) :
    s'.next_waiter = s.next_waiter + 1 := by
  rw [exec_next_waiter hgo.exec, hgo.popped]
  dsimp only [effect, cond_enter]
  unfold Kernel.push
  split_ifs <;> rfl

theorem next_waiter_le (hgo : ThreadGo s c r s' rest) : s.next_waiter ≤ s'.next_waiter := by
  by_cases henter : ∃ e p, c = .cond_enter e p
  · obtain ⟨e, p, rfl⟩ := henter
    rw [next_waiter_enter hgo]
    exact Nat.le_succ _
  · rw [next_waiter_same hgo fun e p he => henter ⟨e, p, he⟩]

/-! ## Entered and removed -/

/-- The list of a condition variable is those that were entered and not removed. Each waiter
is of one condition variable. -/
structure Entered (s : Kernel) : Prop where
  nodup : ∀ d, (s.cond d).ids.Nodup
  ids : ∀ d w, w ∈ (s.cond d).ids ↔ .enter w ∈ (s.cond d).log ∧ .remove w ∉ (s.cond d).log
  fresh : ∀ d w, .enter w ∈ (s.cond d).log → w < s.next_waiter
  entered : ∀ d w, .remove w ∈ (s.cond d).log → .enter w ∈ (s.cond d).log
  owner : ∀ d e w, .enter w ∈ (s.cond d).log → .enter w ∈ (s.cond e).log → d = e

/-- The last of the list is entered and not removed. -/
theorem Entered.last (h : Entered s) {x : SemaphoreElem}
    (hx : (s.cond d).waiters.getLast? = some x) :
    .enter x.waiter ∈ (s.cond d).log ∧ .remove x.waiter ∉ (s.cond d).log :=
  (h.ids d x.waiter).mp (List.mem_map_of_mem (List.mem_of_getLast? hx))

theorem Entered.new (h : Entered s) : .enter s.next_waiter ∉ (s.cond d).log :=
  fun hw => absurd (h.fresh d _ hw) (lt_irrefl _)

/-- What is entered by a statement. -/
theorem mem_enter (hgo : ThreadGo s c r s' rest) : .enter w ∈ (s'.cond d).log ↔
    ((∃ p, c = .cond_enter d p) ∧ w = s.next_waiter) ∨ .enter w ∈ (s.cond d).log := by
  have hnext : r.next_waiter = s.next_waiter := by
    rw [hgo.popped]
    rfl
  rw [mem_log hgo]
  refine or_congr_left ⟨?_, ?_⟩
  · rintro ⟨hd, hw⟩
    obtain ⟨rfl, e, p, rfl⟩ := enter_mem_logs hw
    rw [Option.some.inj hd]
    exact ⟨⟨p, rfl⟩, hnext⟩
  · rintro ⟨⟨p, rfl⟩, rfl⟩
    refine ⟨rfl, ?_⟩
    rw [← hnext]
    exact List.mem_singleton.mpr rfl

/-- What is removed by a statement. -/
theorem mem_remove (hgo : ThreadGo s c r s' rest) : .remove w ∈ (s'.cond d).log ↔
    (c = .cond_signal d ∧ (s.cond d).ids.getLast? = some w) ∨ .remove w ∈ (s.cond d).log := by
  have hcond : r.cond = s.cond := by
    rw [hgo.popped]
    rfl
  rw [mem_log hgo]
  refine or_congr_left ⟨?_, ?_⟩
  · rintro ⟨hd, hw⟩
    obtain ⟨e, x, rfl, hx, rfl⟩ := remove_mem_logs hw
    obtain rfl := Option.some.inj hd
    rw [hcond] at hx
    refine ⟨rfl, ?_⟩
    unfold Condition.ids
    rw [List.getLast?_map, hx]
    rfl
  · rintro ⟨rfl, hw⟩
    unfold Condition.ids at hw
    rw [List.getLast?_map, ← hcond] at hw
    obtain ⟨x, hx, rfl⟩ := Option.map_eq_some_iff.mp hw
    refine ⟨rfl, ?_⟩
    dsimp only [logs]
    rw [hx]
    exact List.mem_singleton.mpr rfl

theorem Entered.thread (h : Entered s) (hgo : ThreadGo s c r s' rest) : Entered s' := by
  have hnew : ∀ e, .remove s.next_waiter ∉ (s.cond e).log := fun e hw => h.new (h.entered e _ hw)
  refine ⟨fun e => ?_, fun e w => ?_, fun e w hw => ?_, fun e w hw => ?_, fun e f w he hf => ?_⟩
  · by_cases henter : ∃ p, c = .cond_enter e p
    · obtain ⟨p, rfl⟩ := henter
      rw [(ids_enter hgo).nodup_iff, List.nodup_cons]
      exact ⟨fun hmem => h.new ((h.ids e _).mp hmem).1, h.nodup e⟩
    · by_cases hsignal : c = .cond_signal e
      · subst hsignal
        rw [ids_signal hgo]
        exact (h.nodup e).sublist (List.dropLast_sublist _)
      · rw [ids_same hgo (fun p hc => henter ⟨p, hc⟩) hsignal]
        exact h.nodup e
  · rw [mem_enter hgo, mem_remove hgo]
    by_cases henter : ∃ p, c = .cond_enter e p
    · obtain ⟨p, rfl⟩ := henter
      rw [(ids_enter hgo).mem_iff, List.mem_cons, h.ids e w]
      constructor
      · rintro (rfl | ⟨hin, hout⟩)
        · exact ⟨Or.inl ⟨⟨p, rfl⟩, rfl⟩, fun hr => hr.elim (fun h => by cases h.1) (hnew e)⟩
        · exact ⟨Or.inr hin, fun hr => hr.elim (fun h => by cases h.1) hout⟩
      · rintro ⟨⟨-, rfl⟩ | hin, hout⟩
        · exact Or.inl rfl
        · exact Or.inr ⟨hin, fun hr => hout (Or.inr hr)⟩
    · rw [or_iff_right fun hc => henter hc.1]
      by_cases hsignal : c = .cond_signal e
      · subst hsignal
        rw [ids_signal hgo, and_iff_right rfl]
        cases hl : (s.cond e).ids.getLast? with
        | none =>
          have hnil := List.getLast?_eq_none_iff.mp hl
          rw [hnil, List.dropLast_nil, ← hnil, h.ids e w]
          simp
        | some x =>
          rw [mem_dropLast_iff (h.nodup e) hl, h.ids e w, not_or]
          have heq : some x = some w ↔ w = x := by
            rw [Option.some.injEq]
            exact eq_comm
          rw [heq]
          exact ⟨fun ⟨hne, hin, hout⟩ => ⟨hin, hne, hout⟩, fun ⟨hin, hne, hout⟩ => ⟨hne, hin, hout⟩⟩
      · rw [ids_same hgo (fun p hc => henter ⟨p, hc⟩) hsignal,
          or_iff_right fun hc => hsignal hc.1]
        exact h.ids e w
  · rcases (mem_enter hgo).mp hw with ⟨⟨p, rfl⟩, rfl⟩ | hw
    · rw [next_waiter_enter hgo]
      exact Nat.lt_succ_self _
    · exact lt_of_lt_of_le (h.fresh e w hw) (next_waiter_le hgo)
  · refine mem_log_of_mem hgo ?_
    rcases (mem_remove hgo).mp hw with ⟨-, hlast⟩ | hw
    · exact ((h.ids e w).mp (List.mem_of_getLast? hlast)).1
    · exact h.entered e w hw
  · rcases (mem_enter hgo).mp he with ⟨⟨p, rfl⟩, rfl⟩ | he
    · rcases (mem_enter hgo).mp hf with ⟨⟨q, heq⟩, -⟩ | hf
      · cases heq
        rfl
      · exact absurd hf h.new
    · rcases (mem_enter hgo).mp hf with ⟨⟨q, rfl⟩, rfl⟩ | hf
      · exact absurd he h.new
      · exact h.owner e f w he hf

/-! ## Removed and raised -/

/-- Removed and not raised: the next statement of one thread is to raise it. -/
structure Wakes (s : Kernel) : Prop where
  tail : ∀ t d w, .cond_wake d w ∉ (s.thread t).code.tail
  wake : ∀ t d w, .cond_wake d w ∈ (s.thread t).code →
    .remove w ∈ (s.cond d).log ∧ .raise w ∉ (s.cond d).log
  one : ∀ t u d w, .cond_wake d w ∈ (s.thread t).code → .cond_wake d w ∈ (s.thread u).code → t = u
  pending : ∀ d w, .remove w ∈ (s.cond d).log → .raise w ∉ (s.cond d).log →
    ∃ t, .cond_wake d w ∈ (s.thread t).code
  raised : ∀ d w, .raise w ∈ (s.cond d).log → .remove w ∈ (s.cond d).log

theorem pushes_wake (h : .cond_wake d w ∈ pushes r c) :
    c = .cond_signal d ∧ (r.cond d).ids.getLast? = some w := by
  have hnot : ∀ {l : List Stmt}, l.all (fun x => match x with
      | .cond_wake _ _ => false
      | _ => true) = true → .cond_wake d w ∉ l := by
    intro l hl hmem
    cases List.all_eq_true.mp hl _ hmem
  cases c with
  | cond_signal e =>
    dsimp only [pushes] at h
    cases hl : (r.cond e).waiters.getLast? with
    | none =>
      rw [hl] at h
      cases h
    | some x =>
      rw [hl] at h
      obtain ⟨rfl, rfl⟩ := Stmt.cond_wake.inj (List.mem_singleton.mp h)
      refine ⟨rfl, ?_⟩
      unfold Condition.ids
      rw [List.getLast?_map, hl]
      rfl
  | _ =>
    refine absurd h (hnot ?_)
    dsimp only [pushes]
    repeat' split
    all_goals rfl

theorem pushes_signal (h : (r.cond d).ids.getLast? = some w) :
    pushes r (.cond_signal d) = [.cond_wake d w] := by
  unfold Condition.ids at h
  rw [List.getLast?_map] at h
  obtain ⟨x, hx, rfl⟩ := Option.map_eq_some_iff.mp h
  dsimp only [pushes]
  rw [hx]

/-- What is raised by a statement. -/
theorem mem_raise (hgo : ThreadGo s c r s' rest) : .raise w ∈ (s'.cond d).log ↔
    c = .cond_wake d w ∨ .raise w ∈ (s.cond d).log := by
  rw [mem_log hgo]
  refine or_congr_left ⟨?_, ?_⟩
  · rintro ⟨hd, hw⟩
    obtain ⟨e, rfl⟩ := raise_mem_logs hw
    rw [Option.some.inj hd]
  · rintro rfl
    exact ⟨rfl, List.mem_singleton.mpr rfl⟩

/-- What raises a waiter stands first. -/
theorem Wakes.head (h : Wakes s) (ht : .cond_wake d w ∈ (s.thread t).code) :
    (s.thread t).code.head? = some (.cond_wake d w) := by
  have htail := h.tail t d w
  cases hcode : (s.thread t).code with
  | nil =>
    rw [hcode] at ht
    cases ht
  | cons x l =>
    rw [hcode] at ht htail
    rw [(List.mem_cons.mp ht).resolve_right htail]
    rfl

theorem Wakes.not_mem_rest (h : Wakes s) (hgo : ThreadGo s c r s' rest) :
    .cond_wake d w ∉ rest := by
  have htail := h.tail s.current d w
  rw [hgo.before] at htail
  exact htail

/-- The running thread has a waiter to raise only as the statement it executes. -/
theorem Wakes.current (h : Wakes s) (hgo : ThreadGo s c r s' rest) :
    .cond_wake d w ∈ (s.thread s.current).code ↔ c = .cond_wake d w := by
  rw [hgo.before, List.mem_cons, or_iff_left (h.not_mem_rest hgo)]
  exact eq_comm

/-- Who has a waiter to raise, after a statement. -/
theorem Wakes.mem_go (h : Wakes s) (hgo : ThreadGo s c r s' rest) (t : Tid) :
    .cond_wake d w ∈ (s'.thread t).code ↔
      if t = s.current then c = .cond_signal d ∧ (s.cond d).ids.getLast? = some w
      else .cond_wake d w ∈ (s.thread t).code := by
  have hcond : r.cond = s.cond := by
    rw [hgo.popped]
    rfl
  split_ifs with ht
  · rw [ht, hgo.after, List.mem_append, or_iff_left (h.not_mem_rest hgo), ← hcond]
    refine ⟨pushes_wake, ?_⟩
    rintro ⟨rfl, hlast⟩
    rw [pushes_signal hlast]
    exact List.mem_singleton.mpr rfl
  · rw [hgo.code t ht]

theorem Wakes.thread (h : Wakes s) (hi : Entered s) (hgo : ThreadGo s c r s' rest) : Wakes s' := by
  have hlast : ∀ {d w}, (s.cond d).ids.getLast? = some w → .remove w ∉ (s.cond d).log :=
    fun hw => ((hi.ids _ _).mp (List.mem_of_getLast? hw)).2
  refine ⟨fun t d w hmem => ?_, fun t d w ht => ?_, fun t u d w ht hu => ?_, fun d w hin hout => ?_,
    fun d w hw => ?_⟩
  · by_cases ht : t = s.current
    · subst ht
      have hrest : .cond_wake d w ∉ rest := h.not_mem_rest hgo
      rw [hgo.after] at hmem
      by_cases hsignal : c = .cond_signal d ∧ (r.cond d).ids.getLast? = some w
      · obtain ⟨rfl, hw⟩ := hsignal
        rw [pushes_signal hw] at hmem
        exact hrest hmem
      · have hpushes : .cond_wake d w ∉ pushes r c := fun hp => hsignal (pushes_wake hp)
        rcases List.mem_append.mp (List.mem_of_mem_tail hmem) with hp | hp
        · exact hpushes hp
        · exact hrest hp
    · rw [hgo.code t ht] at hmem
      exact h.tail t d w hmem
  · rw [h.mem_go hgo] at ht
    rw [mem_remove hgo, mem_raise hgo]
    split_ifs at ht with hcur
    · obtain ⟨rfl, hw⟩ := ht
      refine ⟨Or.inl ⟨rfl, hw⟩, ?_⟩
      rintro (heq | hraise)
      · cases heq
      · exact hlast hw (h.raised d w hraise)
    · obtain ⟨hin, hout⟩ := h.wake t d w ht
      refine ⟨Or.inr hin, ?_⟩
      rintro (heq | hraise)
      · exact hcur (h.one t s.current d w ht ((h.current hgo).mpr heq))
      · exact hout hraise
  · rw [h.mem_go hgo] at ht hu
    split_ifs at ht hu with hct hcu hcu
    · rw [hct, hcu]
    · exact absurd (h.wake u d w hu).1 (hlast ht.2)
    · exact absurd (h.wake t d w ht).1 (hlast hu.2)
    · exact h.one t u d w ht hu
  · rw [mem_raise hgo, not_or] at hout
    rcases (mem_remove hgo).mp hin with hsignal | hin
    · refine ⟨s.current, (h.mem_go hgo s.current).mpr ?_⟩
      rw [if_pos rfl]
      exact hsignal
    · obtain ⟨t, ht⟩ := h.pending d w hin hout.2
      have hne : t ≠ s.current := by
        rintro rfl
        exact hout.1 ((h.current hgo).mp ht)
      refine ⟨t, (h.mem_go hgo t).mpr ?_⟩
      rw [if_neg hne]
      exact ht
  · refine mem_log_of_mem hgo ?_
    rcases (mem_raise hgo).mp hw with hwake | hw
    · exact (h.wake _ d w ((h.current hgo).mpr hwake)).1
    · exact h.raised d w hw

/-! ## The semaphore of a waiter -/

/-- The semaphore of a waiter is upped when the waiter is raised, and at no other time. -/
structure Upped (s : Kernel) : Prop where
  code : ∀ t w, .sema_up (.waiter w) ∉ (s.thread t).code
  raised : ∀ d w, .raise w ∈ (s.cond d).log → (s.sema (.waiter w)).ups = 1
  unraised : ∀ w, (∀ d, .raise w ∉ (s.cond d).log) → (s.sema (.waiter w)).ups = 0

theorem pushes_up_waiter : .sema_up (.waiter w) ∉ pushes r c := by
  intro hmem
  have hall : (pushes r c).all (fun x => match x with
      | .sema_up (.waiter _) => false
      | _ => true) = true := by
    cases c <;> dsimp only [pushes]
    all_goals repeat' split
    all_goals rfl
  cases List.all_eq_true.mp hall _ hmem

/-- `sema_down` ups nothing, and downs add up. -/
theorem sema_down_effect_counts (s : Kernel) (i j : SemaId) (f : List Tid → List Tid) :
    ((sema_down_effect s i f).sema j).ups = (s.sema j).ups ∧
      (s.sema j).downs ≤ ((sema_down_effect s i f).sema j).downs := by
  unfold sema_down_effect
  split_ifs
  · rw [set_sema_apply, push_sema]
    split_ifs with hj
    · rw [hj]
      exact ⟨rfl, le_refl _⟩
    · exact ⟨rfl, le_refl _⟩
  · rw [set_sema_apply]
    split_ifs with hj
    · rw [hj]
      exact ⟨rfl, Nat.le_succ _⟩
    · exact ⟨rfl, le_refl _⟩

theorem sema_try_down_counts (s : Kernel) (i j : SemaId) :
    ((sema_try_down s i).sema j).ups = (s.sema j).ups ∧
      (s.sema j).downs ≤ ((sema_try_down s i).sema j).downs := by
  unfold sema_try_down
  split_ifs
  · rw [set_sema_apply]
    split_ifs with hj
    · rw [hj]
      exact ⟨rfl, Nat.le_succ _⟩
    · exact ⟨rfl, le_refl _⟩
  · exact ⟨rfl, le_refl _⟩

theorem sema_up_effect_counts (s : Kernel) (i j : SemaId) :
    ((sema_up_effect s i).sema j).ups = (s.sema j).ups + (if j = i then 1 else 0) ∧
      ((sema_up_effect s i).sema j).downs = (s.sema j).downs := by
  unfold sema_up_effect
  rw [set_sema_apply]
  split_ifs with hj
  · rw [hj]
    exact ⟨rfl, rfl⟩
  · exact ⟨rfl, rfl⟩

/-- The counts of the semaphore of a waiter, after a statement. -/
theorem effect_counts (s : Kernel) (c : Stmt) (w : WaiterId) :
    ((∀ d, c ≠ .cond_wake d w) → c ≠ .sema_up (.waiter w) →
      ((effect s c).sema (.waiter w)).ups = (s.sema (.waiter w)).ups) ∧
    (s.sema (.waiter w)).downs ≤ ((effect s c).sema (.waiter w)).downs := by
  by_cases hsema : c.sema = some (.waiter w)
  swap
  · rw [(effect_frame s c).sema _ hsema]
    exact ⟨fun _ _ => rfl, le_refl _⟩
  cases c with
  | sema_down i => exact (sema_down_effect_counts s i _ _).imp_left fun h _ _ => h
  | sema_retest i => exact (sema_down_effect_counts s i _ _).imp_left fun h _ _ => h
  | sema_try_down i => exact (sema_try_down_counts s i _).imp_left fun h _ _ => h
  | sema_up i =>
    obtain rfl := Option.some.inj hsema
    exact ⟨fun _ hup => absurd rfl hup, (sema_up_effect_counts s (.waiter w) _).2.ge⟩
  | cond_wake d x =>
    obtain rfl := SemaId.waiter.inj (Option.some.inj hsema)
    refine ⟨fun hwake _ => absurd rfl (hwake d), ?_⟩
    exact (sema_up_effect_counts (s.set_cond d _) (.waiter x) (.waiter x)).2.ge
  | _ => cases hsema

/-- `sema_down` that gets through. -/
theorem down_counts {i : SemaId} (hc : c = .sema_down i ∨ c = .sema_retest i)
    (hpos : (s.sema i).value ≠ 0) : 1 ≤ ((effect s c).sema i).downs := by
  have hdown : ∀ f, 1 ≤ ((sema_down_effect s i f).sema i).downs := by
    intro f
    unfold sema_down_effect
    rw [if_neg hpos, set_sema_apply, if_pos rfl]
    exact Nat.le_add_left 1 _
  rcases hc with rfl | rfl
  · exact hdown _
  · exact hdown _

/-- A waiter that was not raised was raised in no history, so its semaphore was not upped. -/
theorem Upped.zero (h : Upped s) (hi : Entered s) (hw : Wakes s)
    (hremove : .remove w ∈ (s.cond d).log) (hraise : .raise w ∉ (s.cond d).log) :
    (s.sema (.waiter w)).ups = 0 := by
  refine h.unraised w fun e he => hraise ?_
  rw [hi.owner d e w (hi.entered d w hremove) (hi.entered e w (hw.raised e w he))]
  exact he

theorem Upped.thread (h : Upped s) (hi : Entered s) (hw : Wakes s)
    (hgo : ThreadGo s c r s' rest) : Upped s' := by
  have hup : ∀ w, c ≠ .sema_up (.waiter w) := by
    rintro w rfl
    refine h.code s.current w ?_
    rw [hgo.before]
    exact List.mem_cons_self
  have hsema : r.sema = s.sema := hgo.sema
  refine ⟨fun t w hmem => ?_, fun d w hraise => ?_, fun w hnone => ?_⟩
  · rcases hgo.mem_code hmem with ⟨-, hp⟩ | ⟨hold, -⟩
    · exact pushes_up_waiter hp
    · exact h.code t w hold
  · rw [exec_sema hgo.exec]
    by_cases hwake : ∃ e, c = .cond_wake e w
    · obtain ⟨e, rfl⟩ := hwake
      obtain ⟨hremove, hunraised⟩ := hw.wake s.current e w ((hw.current hgo).mpr rfl)
      have hzero := h.zero hi hw hremove hunraised
      refine (sema_up_effect_counts (r.set_cond e _) (.waiter w) (.waiter w)).1.trans ?_
      rw [if_pos rfl]
      show (r.sema (.waiter w)).ups + 1 = 1
      rw [hsema, hzero]
    · rw [(effect_counts r c w).1 (fun e heq => hwake ⟨e, heq⟩) (hup w), hsema]
      rcases (mem_raise hgo).mp hraise with heq | hraise
      · exact absurd ⟨d, heq⟩ hwake
      · exact h.raised d w hraise
  · have hnot : ∀ d, c ≠ .cond_wake d w := fun d heq => hnone d ((mem_raise hgo).mpr (Or.inl heq))
    rw [exec_sema hgo.exec, (effect_counts r c w).1 hnot (hup w), hsema]
    exact h.unraised w fun d hd => hnone d (mem_log_of_mem hgo hd)

/-! ## The return from `cond_wait` -/

/-- Entered and not left: one thread is going to return, and before it does, it gets through
`sema_down`. -/
structure Returns (s : Kernel) : Prop where
  entered : ∀ t d w, .cond_return d w ∈ (s.thread t).code →
    .enter w ∈ (s.cond d).log ∧ .leave w ∉ (s.cond d).log
  single : ∀ d w, Single s (.cond_return d w)
  passed : ∀ t d w pre post, (s.thread t).code = pre ++ .cond_return d w :: post →
    .sema_down (.waiter w) ∈ pre ∨ .sema_retest (.waiter w) ∈ pre ∨
      1 ≤ (s.sema (.waiter w)).downs
  left : ∀ d w, .leave w ∈ (s.cond d).log → .enter w ∈ (s.cond d).log

theorem pushes_return (h : .cond_return d w ∈ pushes r c) :
    (∃ p, c = .cond_enter d p) ∧ w = r.next_waiter := by
  have hnot : ∀ {l : List Stmt}, l.all (fun x => match x with
      | .cond_return _ _ => false
      | _ => true) = true → .cond_return d w ∉ l := by
    intro l hl hmem
    cases List.all_eq_true.mp hl _ hmem
  cases c with
  | cond_enter e p =>
    have heq : .cond_return d w = Stmt.cond_return e r.next_waiter := by
      simpa [pushes] using h
    obtain ⟨rfl, rfl⟩ := Stmt.cond_return.inj heq
    exact ⟨⟨p, rfl⟩, rfl⟩
  | _ =>
    refine absurd h (hnot ?_)
    dsimp only [pushes]
    repeat' split
    all_goals rfl

theorem mem_leave (hgo : ThreadGo s c r s' rest) : .leave w ∈ (s'.cond d).log ↔
    c = .cond_return d w ∨ .leave w ∈ (s.cond d).log := by
  rw [mem_log hgo]
  refine or_congr_left ⟨?_, ?_⟩
  · rintro ⟨hd, hw⟩
    obtain ⟨e, rfl⟩ := leave_mem_logs hw
    rw [Option.some.inj hd]
  · rintro rfl
    exact ⟨rfl, List.mem_singleton.mpr rfl⟩

theorem downs_le (hgo : ThreadGo s c r s' rest) (w : WaiterId) :
    (s.sema (.waiter w)).downs ≤ (s'.sema (.waiter w)).downs := by
  rw [exec_sema hgo.exec, ← hgo.sema]
  exact (effect_counts r c w).2

/-- The statement executed, and where the test of the semaphore goes. -/
theorem passed_head (hgo : ThreadGo s c r s' rest)
    (hc : c = .sema_down (.waiter w) ∨ c = .sema_retest (.waiter w)) :
    .sema_retest (.waiter w) ∈ pushes r c ∨ 1 ≤ (s'.sema (.waiter w)).downs := by
  by_cases hzero : (r.sema (.waiter w)).value = 0
  · refine Or.inl ?_
    rcases hc with rfl | rfl
    all_goals
      dsimp only [pushes]
      rw [if_pos hzero]
      exact List.mem_singleton.mpr rfl
  · refine Or.inr ?_
    rw [exec_sema hgo.exec]
    exact down_counts hc hzero

/-- The return was ahead before. -/
theorem Returns.passed_rest (h : Returns s) (hgo : ThreadGo s c r s' rest) {a post : List Stmt}
    (hrest : rest = a ++ .cond_return d w :: post) :
    .sema_down (.waiter w) ∈ pushes r c ++ a ∨ .sema_retest (.waiter w) ∈ pushes r c ++ a ∨
      1 ≤ (s'.sema (.waiter w)).downs := by
  have hold := h.passed s.current d w (c :: a) post (by rw [hgo.before, hrest]; rfl)
  have hmem : ∀ x, x ∈ a → x ∈ pushes r c ++ a := fun x hx => List.mem_append_right _ hx
  have hhead : c = .sema_down (.waiter w) ∨ c = .sema_retest (.waiter w) →
      .sema_retest (.waiter w) ∈ pushes r c ++ a ∨ 1 ≤ (s'.sema (.waiter w)).downs :=
    fun hc => (passed_head hgo hc).imp_left fun hp => List.mem_append_left _ hp
  rcases hold with hdown | hretest | hdone
  · rcases List.mem_cons.mp hdown with rfl | hdown
    · exact Or.inr (hhead (Or.inl rfl))
    · exact Or.inl (hmem _ hdown)
  · rcases List.mem_cons.mp hretest with rfl | hretest
    · exact Or.inr (hhead (Or.inr rfl))
    · exact Or.inr (Or.inl (hmem _ hretest))
  · exact Or.inr (Or.inr (le_trans hdone (downs_le hgo w)))

theorem Returns.passed_go (h : Returns s) (hgo : ThreadGo s c r s' rest) {pre post : List Stmt}
    (hcode : (s'.thread s.current).code = pre ++ .cond_return d w :: post) :
    .sema_down (.waiter w) ∈ pre ∨ .sema_retest (.waiter w) ∈ pre ∨
      1 ≤ (s'.sema (.waiter w)).downs := by
  rw [hgo.after] at hcode
  rcases List.append_eq_append_iff.mp hcode with ⟨a, rfl, hrest⟩ | ⟨b, hpushes, hb⟩
  · exact h.passed_rest hgo hrest
  cases b with
  | nil =>
    rw [List.append_nil] at hpushes
    have hrest := h.passed_rest hgo (a := []) hb.symm
    rw [List.append_nil, hpushes] at hrest
    exact hrest
  | cons x b =>
    -- the thread has just entered
    obtain ⟨rfl, -⟩ := List.cons.inj hb
    have hmem : .cond_return d w ∈ pushes r c := by
      rw [hpushes]
      exact List.mem_append_right _ List.mem_cons_self
    obtain ⟨⟨p, rfl⟩, rfl⟩ := pushes_return hmem
    dsimp only [pushes] at hpushes
    rcases pre with _ | ⟨x, _ | ⟨y, pre⟩⟩
    · cases (List.cons.inj hpushes).1
    · cases (List.cons.inj (List.cons.inj hpushes).2).1
    · obtain ⟨-, hpushes⟩ := List.cons.inj hpushes
      obtain ⟨rfl, -⟩ := List.cons.inj hpushes
      exact Or.inl (List.mem_cons_of_mem _ List.mem_cons_self)

theorem Returns.thread (h : Returns s) (hi : Entered s) (hgo : ThreadGo s c r s' rest) :
    Returns s' := by
  have hnext : r.next_waiter = s.next_waiter := by
    rw [hgo.popped]
    rfl
  refine ⟨fun t d w hmem => ?_, fun d w => (h.single d w).go hgo fun hp => ?_,
    fun t d w pre post hcode => ?_, fun d w hleave => ?_⟩
  · rw [mem_enter hgo, mem_leave hgo]
    rcases hgo.mem_code hmem with ⟨-, hp⟩ | ⟨hold, -⟩
    · obtain ⟨⟨p, rfl⟩, rfl⟩ := pushes_return hp
      refine ⟨Or.inl ⟨⟨p, rfl⟩, hnext⟩, ?_⟩
      rintro (heq | hleave)
      · cases heq
      · rw [hnext] at hleave
        exact hi.new (h.left d _ hleave)
    · obtain ⟨hin, hout⟩ := h.entered t d w hold
      refine ⟨Or.inr hin, ?_⟩
      rintro (rfl | hleave)
      · exact (h.single d w).done hgo List.not_mem_nil t hmem
      · exact hout hleave
  · obtain ⟨⟨p, rfl⟩, rfl⟩ := pushes_return hp
    refine ⟨by simp [pushes], fun t ht => ?_⟩
    have hold := (h.entered t d _ ht).1
    rw [hnext] at hold
    exact hi.new hold
  · by_cases ht : t = s.current
    · rw [ht] at hcode
      exact h.passed_go hgo hcode
    · rw [hgo.code t ht] at hcode
      have hold := h.passed t d w pre post hcode
      exact hold.imp_right fun hold => hold.imp_right fun hdone => le_trans hdone (downs_le hgo w)
  · refine mem_log_of_mem hgo ?_
    rcases (mem_leave hgo).mp hleave with rfl | hleave
    · refine (h.entered s.current d w ?_).1
      rw [hgo.before]
      exact List.mem_cons_self
    · exact h.left d w hleave

/-! ## Runs -/

/-- Where each waiter is in its life. -/
structure CondInv (s : Kernel) : Prop where
  entered : Entered s
  wakes : Wakes s
  upped : Upped s
  returns : Returns s

/-- Condition variables, the semaphores of waiters and the statements are the same. -/
theorem CondInv.congr (h : CondInv s) (hcond : s'.cond = s.cond)
    (hnext : s'.next_waiter = s.next_waiter)
    (hsema : ∀ w, s'.sema (.waiter w) = s.sema (.waiter w))
    (hcode : ∀ t, (s'.thread t).code = (s.thread t).code) : CondInv s' := by
  obtain ⟨hi, hw, hu, hr⟩ := h
  refine ⟨⟨?_, ?_, ?_, ?_, ?_⟩, ⟨fun t => ?_, fun t => ?_, fun t u => ?_, ?_, ?_⟩,
    ⟨fun t => ?_, fun d w => ?_, fun w => ?_⟩, ⟨fun t => ?_, fun d w => (hr.single d w).congr hcode,
    fun t d w => ?_, ?_⟩⟩
  all_goals simp only [hcond, hnext, hsema, hcode]
  · exact hi.nodup
  · exact hi.ids
  · exact hi.fresh
  · exact hi.entered
  · exact hi.owner
  · exact hw.tail t
  · exact hw.wake t
  · exact hw.one t u
  · exact hw.pending
  · exact hw.raised
  · exact hu.code t
  · exact hu.raised d w
  · exact hu.unraised w
  · exact hr.entered t
  · exact hr.passed t d w
  · exact hr.left

/-- The statements that are about one waiter. -/
def Stmt.waiter : Stmt → Option WaiterId
  | .cond_wake _ w | .cond_return _ w | .sema_up (.waiter w) => some w
  | _ => none

/-- A call by a thread that has nothing else to do. -/
theorem CondInv.push {l : List Stmt} (h : CondInv s) (hx : s.in_external_intr = false)
    (hcur : s.cur.code = []) (hl : ∀ c ∈ l, c.waiter = none) : CondInv (s.push l) := by
  have hcode : ∀ t x, x.waiter ≠ none →
      (x ∈ ((s.push l).thread t).code ↔ x ∈ (s.thread t).code) := by
    intro t x hne
    rw [push_code]
    split_ifs
    · rw [List.mem_append, or_iff_right fun hmem => hne (hl x hmem)]
    · rfl
  have hframe := (Frame.refl s .thread_yield).push l
  have hcond : (s.push l).cond = s.cond := by rw [push_cond]
  obtain ⟨hi, hw, hu, hr⟩ := h
  refine ⟨⟨?_, ?_, ?_, ?_, ?_⟩, ⟨fun t d w hmem => ?_, fun t d w => ?_, fun t u d w => ?_,
    fun d w => ?_, ?_⟩, ⟨fun t w => ?_, fun d w => ?_, fun w => ?_⟩,
    ⟨fun t d w => ?_, fun d w => (hr.single d w).push ?_, fun t d w pre post heq => ?_, ?_⟩⟩
  · rw [hcond]
    exact hi.nodup
  · rw [hcond]
    exact hi.ids
  · rw [hcond, hframe.next_waiter (by simp)]
    exact hi.fresh
  · rw [hcond]
    exact hi.entered
  · rw [hcond]
    exact hi.owner
  · have hcur' : (s.thread s.current).code = [] := hcur
    by_cases ht : t = s.current
    · rw [ht, push_code, if_pos ⟨hx, rfl⟩, hcur', List.append_nil] at hmem
      cases hl _ (List.mem_of_mem_tail hmem)
    · rw [push_code, if_neg fun hc => ht hc.2] at hmem
      exact hw.tail t d w hmem
  · rw [hcond, hcode t _ (by simp [Stmt.waiter])]
    exact hw.wake t d w
  · rw [hcode t _ (by simp [Stmt.waiter]), hcode u _ (by simp [Stmt.waiter])]
    exact hw.one t u d w
  · rw [hcond]
    intro hin hout
    obtain ⟨t, ht⟩ := hw.pending d w hin hout
    exact ⟨t, (hcode t _ (by simp [Stmt.waiter])).mpr ht⟩
  · rw [hcond]
    exact hw.raised
  · rw [hcode t _ (by simp [Stmt.waiter])]
    exact hu.code t w
  · rw [hcond, push_sema]
    exact hu.raised d w
  · rw [hcond, push_sema]
    exact hu.unraised w
  · rw [hcond, hcode t _ (by simp [Stmt.waiter])]
    exact hr.entered t d w
  · intro hmem
    cases hl _ hmem
  · have hcur' : (s.thread s.current).code = [] := hcur
    rw [push_sema]
    by_cases ht : t = s.current
    · rw [ht, push_code, if_pos ⟨hx, rfl⟩, hcur', List.append_nil] at heq
      have hmem : .cond_return d w ∈ l := by
        rw [heq]
        exact List.mem_append_right _ List.mem_cons_self
      cases hl _ hmem
    · rw [push_code, if_neg fun hc => ht hc.2] at heq
      exact hr.passed t d w pre post heq
  · rw [hcond]
    exact hr.left

theorem CondInv.handler (h : CondInv s) (hgo : HandlerGo s c r s' rest) : CondInv s' := by
  have hfits := hgo.fits
  refine h.congr (handler_cond hgo) ?_ (fun w => ?_) hgo.code
  · rw [exec_next_waiter hgo.exec, (effect_frame r c).next_waiter, hgo.popped]
    rintro e p rfl
    exact hfits
  · rw [exec_sema hgo.exec, (effect_frame r c).sema, hgo.sema]
    intro hsema
    cases c with
    | sema_up i =>
      obtain rfl := Option.some.inj hsema
      exact hfits
    | sema_down | sema_retest | sema_try_down | cond_wake => exact hfits
    | _ => cases hsema

theorem CondInv.thread (h : CondInv s) (hgo : ThreadGo s c r s' rest) : CondInv s' :=
  ⟨h.entered.thread hgo, h.wakes.thread h.entered hgo, h.upped.thread h.entered h.wakes hgo,
    h.returns.thread h.entered hgo⟩

theorem Called.waiter {l : List Stmt} (h : Called l) : ∀ c ∈ l, c.waiter = none := by
  cases h with
  | call hc =>
    intro c hmem
    obtain rfl := List.mem_singleton.mp hmem
    cases c with
    | sema_up i =>
      cases i with
      | other n => rfl
      | _ => exact absurd hc id
    | cond_wake | cond_return => exact absurd hc id
    | _ => rfl
  | idle => simp [Stmt.waiter]

theorem CondInv.step {e : Event} (h : CondInv s) (hk : KernelInv s) (hs : step s e s') :
    CondInv s' := by
  refine step_rule (P := CondInv) hk (fun r r' hsw hr => ?_)
    (fun _ _ => h.congr rfl rfl (fun _ => rfl) fun _ => rfl) (fun l hx hcur hl => ?_)
    (fun c hx hcode _ => ?_) (fun c r rest hgo => h.handler hgo) (fun c r rest hgo => h.thread hgo) hs
  · exact hr.congr hsw.cond hsw.next_waiter (fun w => by rw [hsw.sema]) hsw.code
  · exact h.push hx hcur hl.waiter
  · have hframe := (Frame.refl s .thread_yield).push [c]
    refine h.congr (by rw [push_cond]) (hframe.next_waiter (by simp)) (fun w => by rw [push_sema])
      fun t => ?_
    rw [push_code, if_neg fun hout => absurd (hx.symm.trans hout.1) (by decide)]

theorem CondInv.thread_start (u : Setup) : CondInv (thread_start u) := by
  have hcode := thread_start_code u
  have hnone : ∀ t c, c.waiter ≠ none → c ∉ ((Machine.thread_start u).thread t).code := by
    intro t c hc hmem
    rw [hcode t c hmem] at hc
    exact hc rfl
  have hreturn : ∀ t d w, .cond_return d w ∉ ((Machine.thread_start u).thread t).code :=
    fun t d w => hnone t _ (by simp [Stmt.waiter])
  have hwake : ∀ t d w, .cond_wake d w ∉ ((Machine.thread_start u).thread t).code :=
    fun t d w => hnone t _ (by simp [Stmt.waiter])
  constructor
  · refine ⟨fun d => List.nodup_nil, fun d w => ?_, fun d w h => ?_, fun d w h => ?_,
      fun d e w h => ?_⟩
    · exact iff_of_false List.not_mem_nil fun h => absurd h.1 List.not_mem_nil
    · exact absurd h List.not_mem_nil
    · exact absurd h List.not_mem_nil
    · exact absurd h List.not_mem_nil
  · refine ⟨fun t d w h => ?_, fun t d w h => ?_, fun t v d w h => ?_, fun d w h => ?_,
      fun d w h => ?_⟩
    · exact hwake t d w (List.mem_of_mem_tail h)
    · exact absurd h (hwake t d w)
    · exact absurd h (hwake t d w)
    · exact absurd h List.not_mem_nil
    · exact absurd h List.not_mem_nil
  · exact ⟨fun t w => hnone t _ (by simp [Stmt.waiter]),
      fun d w h => absurd h List.not_mem_nil, fun w _ => rfl⟩
  · refine ⟨fun t d w h => ?_, fun d w => ⟨fun t => ?_, fun t v h => ?_⟩,
      fun t d w pre post h => ?_, fun d w h => ?_⟩
    · exact absurd h (hreturn t d w)
    · rw [List.count_eq_zero.mpr (hreturn t d w)]
      exact Nat.zero_le 1
    · exact absurd h (hreturn t d w)
    · refine absurd ?_ (hreturn t d w)
      rw [h]
      exact List.mem_append_right _ List.mem_cons_self
    · exact absurd h List.not_mem_nil

theorem cond_inv {u : Setup} {ok : Kernel → Event → Prop}
    (hr : Reachable (kernel_system u) ok s) : CondInv s := by
  refine reachable_rule hr ?_ fun r e r' hk hi _ hs => ?_
  · exact CondInv.thread_start u
  · exact hi.step hk hs

/-- A thread that returns from `cond_wait` was raised: it got through `sema_down`, and the
semaphore was made with 0. -/
theorem CondInv.return_raised {u : Setup} (h : CondInv s) (hsema : SemaInv u s)
    (hcode : (s.thread t).code = .cond_return d w :: rest) : .raise w ∈ (s.cond d).log := by
  have hdown : 1 ≤ (s.sema (.waiter w)).downs := by
    rcases h.returns.passed t d w [] rest hcode with hd | hd | hd
    · exact absurd hd List.not_mem_nil
    · exact absurd hd List.not_mem_nil
    · exact hd
  have hup : (s.sema (.waiter w)).ups ≠ 0 := by
    have htaken := (hsema.sema (.waiter w)).count.taken
    have hvalue : (u.value (.waiter w)).toNat = 0 := rfl
    omega
  by_contra hnot
  refine hup (h.upped.unraised w fun e he => ?_)
  have hentered := (h.returns.entered t d w (by rw [hcode]; exact List.mem_cons_self)).1
  have heq := h.entered.owner d e w hentered (h.entered.entered e w (h.wakes.raised e w he))
  rw [heq] at hnot
  exact hnot he

end Pintos.Threads.Machine
