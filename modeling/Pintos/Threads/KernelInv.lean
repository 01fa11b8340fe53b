/-
The invariant of the thread system over whole runs: the lists and statuses of
`Scheduler`, and who executes what. The idle thread runs its loop and nothing else, a
handler runs statements of handlers, and nobody is going to unblock the idle thread.

`run` executes a given list of events. It is the step relation as a function, for the
runs that are written out.
-/
import Pintos.Threads.Scheduler

set_option autoImplicit false

namespace Pintos.Threads.Machine

open StepSystem

/-! ## Who executes what -/

/-- The statements of the loop in `idle`. -/
def Stmt.Idle : Stmt → Prop
  | .intr_disable | .thread_block | .intr_enable => True
  | _ => False

/-- The statements of handlers. -/
def Stmt.Handler : Stmt → Prop
  | .sema_up (.other _) | .intq_getc _ | .intq_putc _ _ | .intq_signal _ _ | .intq_clear _ _
  | .thread_unblock _ | .timer_interrupt | .mlfqs_tick_change | .wake_waiting_list => True
  | _ => False

/-- The idle thread runs its loop, a handler what handlers run, and nobody is going to
unblock the idle thread. -/
structure CodeInv (s : Kernel) : Prop where
  idle : ∀ c ∈ (s.thread s.idle_thread).code, c.Idle
  handler : ∀ c ∈ s.intr_code, c.Handler
  outside : s.in_external_intr = false → s.intr_code = []
  unused : ∀ t, (s.thread t).status = .unused → (s.thread t).code = []
  unblock : ∀ t, .thread_unblock s.idle_thread ∉ (s.thread t).code
  intr_unblock : .thread_unblock s.idle_thread ∉ s.intr_code
  slot : ∀ q w, (s.intq q).waiter w ≠ some s.idle_thread

/-- What holds between any two statements. -/
structure KernelInv (s : Kernel) : Prop where
  sched : SchedInv s
  code : CodeInv s

/-- A statement that may be the next one. -/
structure Fits (s : Kernel) (c : Stmt) : Prop where
  handler : s.in_external_intr = true → c.Handler
  idle : s.in_external_intr = false → s.current = s.idle_thread → c.Idle
  unblock : c ≠ .thread_unblock s.idle_thread

/-- The next statement fits, and without it the invariant still holds. -/
theorem KernelInv.pop {s r : Kernel} {c : Stmt} (h : KernelInv s)
    (hp : pop_stmt s = some (c, r)) : KernelInv r ∧ Fits r c := by
  rcases pop_cases hp with ⟨rest, hx, hcode, rfl⟩ | ⟨rest, hx, hcode, rfl⟩
  · have hmem : c ∈ s.intr_code := by
      rw [hcode]
      exact List.mem_cons_self
    have hrest : ∀ d ∈ rest, d ∈ s.intr_code := fun d hd => by
      rw [hcode]
      exact List.mem_cons_of_mem c hd
    refine ⟨⟨⟨?_, h.sched.running, h.sched.unlinked⟩, ?_⟩, ?_⟩
    · exact h.sched.lists.calm ⟨rfl, rfl, fun _ => rfl, fun _ => rfl, fun _ => Or.inl rfl, rfl, rfl⟩
    · refine ⟨h.code.idle, fun d hd => h.code.handler d (hrest d hd), fun hx' => ?_,
        h.code.unused, h.code.unblock, fun hd => h.code.intr_unblock (hrest _ hd), h.code.slot⟩
      exact absurd (hx.symm.trans hx') (by decide)
    · refine ⟨fun _ => h.code.handler c hmem, fun hx' => ?_, fun heq => ?_⟩
      · exact absurd (hx.symm.trans hx') (by decide)
      · exact h.code.intr_unblock (heq ▸ hmem)
  · have hmem : c ∈ (s.thread s.current).code := by
      rw [hcode]
      exact List.mem_cons_self
    have hrest : ∀ t, ∀ d ∈ ((s.set_thread s.current (fun th => { th with
        code := rest })).thread t).code, d ∈ (s.thread t).code := by
      intro t d hd
      rw [set_thread_apply] at hd
      split_ifs at hd with ht
      · rw [ht, hcode]
        exact List.mem_cons_of_mem c hd
      · exact hd
    have hstatus : ∀ t, ((s.set_thread s.current (fun th => { th with
        code := rest })).thread t).status = (s.thread t).status := by
      intro t
      rw [set_thread_apply]
      split_ifs with ht
      · rw [ht]
      · rfl
    have helem : ∀ t, ((s.set_thread s.current (fun th => { th with
        code := rest })).thread t).elem = (s.thread t).elem := by
      intro t
      rw [set_thread_apply]
      split_ifs with ht
      · rw [ht]
      · rfl
    refine ⟨⟨?_, ?_⟩, ?_⟩
    · exact h.sched.calm ⟨rfl, rfl, fun _ => rfl, helem, fun t => Or.inl (hstatus t), rfl, rfl⟩
    · refine ⟨fun d hd => h.code.idle d (hrest _ d hd), h.code.handler, h.code.outside,
        fun t ht => ?_, fun t hd => h.code.unblock t (hrest t _ hd), h.code.intr_unblock,
        h.code.slot⟩
      have hnil := h.code.unused t ((hstatus t).symm.trans ht)
      refine List.eq_nil_iff_forall_not_mem.mpr fun d hd => ?_
      have hd' := hrest t d hd
      rw [hnil] at hd'
      cases hd'
    · refine ⟨fun hx' => ?_, fun _ hcur => ?_, fun heq => ?_⟩
      · exact absurd (hx.symm.trans hx') (by decide)
      · have hcur : s.current = s.idle_thread := hcur
        rw [hcur] at hmem
        exact h.code.idle c hmem
      · exact h.code.unblock s.current (heq ▸ hmem)

/-! ## Every statement keeps it -/

theorem effect_waiters (s : Kernel) {c : Stmt} (hc : ¬ c.Moves) (i : SemaId) :
    ((effect s c).sema i).waiters = (s.sema i).waiters := by
  by_cases hi : c.sema = some i
  · cases c with
    | sema_try_down j =>
      dsimp only [effect, sema_try_down]
      split_ifs
      · rw [set_sema_apply]
        split_ifs with hij
        · rw [hij]
        · rfl
      · rfl
    | lock_try_down m =>
      dsimp only [effect, lock_try_down, sema_try_down]
      split_ifs
      · rw [push_sema, set_sema_apply]
        split_ifs with hij
        · rw [hij]
        · rfl
      · rfl
    | sema_down | sema_retest | sema_up | cond_wake => exact absurd trivial hc
    | _ => cases hi
  · rw [(effect_frame s c).sema i hi]

/-- Statements that do not hand the processor on move no thread. -/
theorem Calm.effect {s : Kernel} {c : Stmt} (hc : ¬ c.Moves)
    (hnew : ∀ t p, c = .thread_create t p → (s.thread t).status = .unused ∧
      (s.thread t).elem = none) : Calm s (effect s c) := by
  have hframe := effect_frame s c
  have hsleep : ∀ n, c ≠ .sleep_until n := by
    rintro n rfl
    exact hc trivial
  by_cases hcreate : ∃ t p, c = .thread_create t p
  · obtain ⟨t, p, rfl⟩ := hcreate
    obtain ⟨hunused, helem⟩ := hnew t p rfl
    have hself : (new_thread s p).elem = none ∧ (new_thread s p).status = .blocked := by
      unfold new_thread
      split_ifs <;> exact ⟨rfl, rfl⟩
    refine ⟨hframe.ready_list, hframe.waiting_list hsleep, effect_waiters s hc, fun u => ?_,
      fun u => ?_, hframe.current, hframe.idle_thread⟩
    · obtain ⟨code, heq⟩ := effect_create s t p u
      rw [heq]
      dsimp only
      split_ifs with hu
      · rw [hu, helem]
        exact hself.1
      · rfl
    · obtain ⟨code, heq⟩ := effect_create s t p u
      rw [heq]
      dsimp only
      split_ifs with hu
      · rw [hu]
        exact Or.inr ⟨hunused, hself.2⟩
      · exact Or.inl rfl
  · have hthread := effect_thread s (c := c) fun t p heq => hcreate ⟨t, p, heq⟩
    exact ⟨hframe.ready_list, hframe.waiting_list hsleep, effect_waiters s hc,
      fun t => (hthread t).elem, fun t => Or.inl (hthread t).status, hframe.current,
      hframe.idle_thread⟩

/-- An unused thread is on no list. -/
theorem Lists.unused {s : Kernel} (h : Lists s) {t : Tid} (ht : (s.thread t).status = .unused) :
    (s.thread t).elem = none := by
  cases he : (s.thread t).elem with
  | none => rfl
  | some p =>
    have hstatus := h.status t p he
    rw [ht] at hstatus
    split_ifs at hstatus

/-- Only an unused thread is made. -/
theorem thread_create_unused {s s' : Kernel} {c : Stmt} (hs : exec s c = .ok s') {t : Tid} {p : ℤ}
    (hc : c = .thread_create t p) : (s.thread t).status = .unused := by
  subst hc
  obtain ⟨-, -, hs⟩ := bind_eq_ok hs
  dsimp only at hs
  by_contra hne
  rw [if_neg hne] at hs
  cases hs

theorem SchedInv.exec {s s' : Kernel} {c : Stmt} (h : SchedInv s) (hf : Fits s c)
    (hs : exec s c = .ok s') : SchedInv s' := by
  -- a statement that is neither a handler's nor the idle thread's
  have hbusy : ¬ c.Handler → ¬ c.Idle → s.current ≠ s.idle_thread := by
    intro hh hidle hcur
    cases hx : s.in_external_intr with
    | true => exact hh (hf.handler hx)
    | false => exact hidle (hf.idle hx hcur)
  have hset : ∀ f : Thread → Thread, (∀ th, (f th).status = th.status) →
      (∀ th, (f th).elem = th.elem) → SchedInv (s.set_thread s.current f) := by
    intro f hstatus helem
    refine h.calm ⟨rfl, rfl, fun _ => rfl, fun t => ?_, fun t => Or.inl ?_, rfl, rfl⟩
    all_goals
      rw [set_thread_apply]
      split_ifs with ht
      · rw [ht]
        first | exact helem _ | exact hstatus _
      · rfl
  cases c with
  | sema_down i => exact h.sema_down (fun _ => hbusy id id) hs
  | sema_retest i =>
    have hcalm : Calm s (s.set_sema i (fun x => { x with
        removed := x.removed.erase s.current })) := by
      refine ⟨rfl, rfl, fun j => ?_, fun _ => rfl, fun _ => Or.inl rfl, rfl, rfl⟩
      rw [set_sema_apply]
      split_ifs with hj
      · rw [hj]
      · rfl
    exact (h.calm hcalm).sema_down (fun _ => hbusy id id) hs
  | sema_up i => exact h.sema_up hs
  | set_priority_yield n =>
    dsimp only [Machine.exec, set_priority_yield] at hs
    cases hl : s.ready_list.getLast? with
    | none =>
      rw [hl] at hs
      obtain rfl := Except.ok.inj hs
      exact h
    | some last =>
      rw [hl] at hs
      dsimp only at hs
      split_ifs at hs
      · exact h.thread_yield hs
      · obtain rfl := Except.ok.inj hs
        exact h
  | thread_set_nice n =>
    exact (hset (set_nice s.load_avg n) (fun _ => rfl) (fun _ => rfl)).thread_yield hs
  | thread_block =>
    obtain ⟨-, -, hs⟩ := bind_eq_ok hs
    exact h.thread_block hs
  | thread_unblock t => exact h.thread_unblock (fun heq => hf.unblock (heq ▸ rfl)) hs
  | thread_yield => exact h.thread_yield hs
  | exit_schedule =>
    exact (h.lists.set_status (by decide) (by decide) (by simp) h.unlinked).schedule hs
  | sleep_until n => exact h.sleep_until (hbusy id id) hs
  | cond_wake d w =>
    have hcalm : Calm s (s.set_cond d (fun x => { x with log := .raise w :: x.log })) :=
      ⟨rfl, rfl, fun _ => rfl, fun _ => rfl, fun _ => Or.inl rfl, rfl, rfl⟩
    exact (h.calm hcalm).sema_up hs
  | intq_wait q w =>
    obtain ⟨-, -, hs⟩ := bind_eq_ok hs
    obtain ⟨-, -, hs⟩ := bind_eq_ok hs
    obtain ⟨-, -, hs⟩ := bind_eq_ok hs
    have hcalm : Calm s (s.set_intq q (fun x => x.set_waiter (some s.current) w)) :=
      ⟨rfl, rfl, fun _ => rfl, fun _ => rfl, fun _ => Or.inl rfl, rfl, rfl⟩
    exact (h.calm hcalm).thread_block hs
  | wake_waiting_list =>
    exact h.wake_from (fun t ht => h.lists.ne_idle ((h.lists.waiting t).mp ht)) hs
  | _ =>
    have hunused := fun t p => thread_create_unused hs (t := t) (p := p)
    obtain rfl := exec_eq_effect id hs
    refine h.calm (Calm.effect id fun t p heq => ?_)
    exact ⟨hunused t p heq, h.lists.unused (hunused t p heq)⟩

theorem exec_in_external_intr {s s' : Kernel} {c : Stmt} (hs : exec s c = .ok s') :
    s'.in_external_intr = s.in_external_intr :=
  exec_of_effect (P := fun r => r.in_external_intr = s.in_external_intr)
    (fun _ _ h hp => h.in_external_intr.trans hp) (fun _ _ hp => hp)
    (effect_frame s c).in_external_intr hs

theorem exec_idle_thread {s s' : Kernel} {c : Stmt} (hs : exec s c = .ok s') :
    s'.idle_thread = s.idle_thread :=
  exec_of_effect (P := fun r => r.idle_thread = s.idle_thread)
    (fun _ _ h hp => h.idle_thread.trans hp) (fun _ _ hp => hp) (effect_frame s c).idle_thread hs

/-- A thread that exists stays in existence. -/
theorem exec_used {s s' : Kernel} {c : Stmt} (hs : exec s c = .ok s') {t : Tid}
    (ht : (s.thread t).status ≠ .unused) : (s'.thread t).status ≠ .unused := by
  refine exec_of_effect (P := fun r => (r.thread t).status ≠ .unused)
    (fun r r' h hp => h.used t hp) (fun _ _ hp => hp) ?_ hs
  by_cases hcreate : ∃ u p, c = .thread_create u p
  · obtain ⟨u, p, rfl⟩ := hcreate
    have hu := thread_create_unused hs rfl
    have hne : t ≠ u := by
      rintro rfl
      exact ht hu
    obtain ⟨code, heq⟩ := effect_create s u p t
    rw [heq, if_neg hne]
    exact ht
  · rw [(effect_thread s (fun u p heq => hcreate ⟨u, p, heq⟩) t).status]
    exact ht

/-- What handlers go on with are statements of handlers. -/
theorem pushes_handler {s s' : Kernel} {c : Stmt} (hx : s.in_external_intr = true)
    (hc : c.Handler) (hs : exec s c = .ok s') : ∀ d ∈ pushes s c, d.Handler := by
  have hctx : ∀ u, ASSERT (s.in_external_intr = false) ≠ .ok u := by
    intro u hu
    exact absurd ((ASSERT_eq_ok hu).symm.trans hx) (by decide)
  cases c with
  | intq_getc q =>
    obtain ⟨-, -, hs⟩ := bind_eq_ok hs
    dsimp only [pushes]
    split_ifs at hs ⊢
    · obtain ⟨u, hu, -⟩ := bind_eq_ok hs
      exact absurd hu (hctx u)
    · rintro d hd
      obtain rfl := List.mem_singleton.mp hd
      trivial
  | intq_putc q byte =>
    obtain ⟨-, -, hs⟩ := bind_eq_ok hs
    dsimp only [pushes]
    split_ifs at hs ⊢
    · obtain ⟨u, hu, -⟩ := bind_eq_ok hs
      exact absurd hu (hctx u)
    · rintro d hd
      obtain rfl := List.mem_singleton.mp hd
      trivial
  | intq_signal q w =>
    dsimp only [pushes]
    cases (s.intq q).waiter w with
    | none => exact fun d hd => absurd hd List.not_mem_nil
    | some t =>
      intro d hd
      rcases List.mem_cons.mp hd with rfl | hd
      · trivial
      · obtain rfl := List.mem_singleton.mp hd
        trivial
  | timer_interrupt =>
    dsimp only [pushes]
    intro d hd
    split_ifs at hd
    · rcases List.mem_cons.mp hd with rfl | hd
      · trivial
      · obtain rfl := List.mem_singleton.mp hd
        trivial
    · obtain rfl := List.mem_singleton.mp hd
      trivial
  | sema_up _ | intq_clear _ _ | thread_unblock _ | mlfqs_tick_change | wake_waiting_list =>
    exact fun d hd => absurd hd List.not_mem_nil
  | _ => exact absurd hc id

/-- The idle thread calls nothing. -/
theorem pushes_idle (s : Kernel) {c : Stmt} (hc : c.Idle) : pushes s c = [] := by
  cases c with
  | intr_disable => rfl
  | thread_block => rfl
  | intr_enable => rfl
  | _ => exact absurd hc id

/-- Where a pending `thread_unblock` comes from. -/
theorem pushes_unblock {s : Kernel} {c : Stmt} {t : Tid} (h : .thread_unblock t ∈ pushes s c) :
    (∃ p, c = .thread_create t p) ∨ ∃ q w, c = .intq_signal q w ∧ (s.intq q).waiter w = some t := by
  cases c with
  | thread_create u p =>
    have hu : t = u := by simpa [pushes] using h
    exact Or.inl ⟨p, hu ▸ rfl⟩
  | intq_signal q w =>
    dsimp only [pushes] at h
    cases hw : (s.intq q).waiter w with
    | none =>
      rw [hw] at h
      cases h
    | some u =>
      rw [hw] at h
      have hu : t = u := by simpa using h
      exact Or.inr ⟨q, w, rfl, hu ▸ hw⟩
  | donation_compare m =>
    dsimp only [pushes] at h
    split at h
    · cases h
    · split_ifs at h <;> simp at h
  | donation_call m =>
    dsimp only [pushes] at h
    split at h <;> simp at h
  | nested_low high medium =>
    dsimp only [pushes] at h
    split at h <;> simp at h
  | cond_signal d =>
    dsimp only [pushes] at h
    split at h <;> simp at h
  | _ =>
    dsimp only [pushes] at h
    first | (split_ifs at h <;> simp at h) | simp at h

theorem CodeInv.exec {s s' : Kernel} {c : Stmt} (h : KernelInv s) (hf : Fits s c)
    (hs : exec s c = .ok s') : CodeInv s' := by
  have hnew : ∀ t p, c = .thread_create t p → (s.thread t).code = [] := fun t p hc =>
    h.code.unused t (thread_create_unused hs hc)
  have hpush := exec_pushed hnew hs
  have hidle := exec_idle_thread hs
  have hx := exec_in_external_intr hs
  have hslot : ∀ q w t, (s'.intq q).waiter w = some t →
      (s.intq q).waiter w = some t ∨ (c = .intq_wait q w ∧ t = s.current) := by
    refine exec_of_effect (P := fun r => ∀ q w t, (r.intq q).waiter w = some t →
      (s.intq q).waiter w = some t ∨ (c = .intq_wait q w ∧ t = s.current))
      (fun r r' h hp => ?_) (fun _ _ hp => hp) (effect_frame s c).slot hs
    rw [h.intq]
    exact hp
  have hunblock : .thread_unblock s.idle_thread ∉ pushes s c := by
    intro hmem
    rcases pushes_unblock hmem with ⟨p, rfl⟩ | ⟨q, w, -, hw⟩
    · exact h.sched.lists.idle_used (thread_create_unused hs rfl)
    · exact h.code.slot q w hw
  constructor
  · rw [hidle]
    intro d hd
    rw [hpush.code] at hd
    split_ifs at hd with hcur
    · rw [pushes_idle s (hf.idle hcur.1 hcur.2.symm)] at hd
      exact h.code.idle d hd
    · exact h.code.idle d hd
  · intro d hd
    rw [hpush.intr_code] at hd
    split_ifs at hd with hctx
    · rcases List.mem_append.mp hd with hd | hd
      · exact pushes_handler hctx (hf.handler hctx) hs d hd
      · exact h.code.handler d hd
    · exact h.code.handler d hd
  · intro hout
    rw [hx] at hout
    rw [hpush.intr_code, hout]
    exact h.code.outside hout
  · intro t ht
    have hold : (s.thread t).status = .unused := by
      by_contra hne
      exact exec_used hs hne ht
    have hcur : t ≠ s.current := by
      rintro rfl
      have hrun : (s.thread s.current).status = .running := h.sched.running
      rw [hold] at hrun
      cases hrun
    rw [hpush.code, if_neg (fun hc => hcur hc.2)]
    exact h.code.unused t hold
  · intro t hmem
    rw [hidle, hpush.code] at hmem
    split_ifs at hmem
    · rcases List.mem_append.mp hmem with hmem | hmem
      · exact hunblock hmem
      · exact h.code.unblock t hmem
    · exact h.code.unblock t hmem
  · intro hmem
    rw [hidle, hpush.intr_code] at hmem
    split_ifs at hmem
    · rcases List.mem_append.mp hmem with hmem | hmem
      · exact hunblock hmem
      · exact h.code.intr_unblock hmem
    · exact h.code.intr_unblock hmem
  · intro q w hw
    rw [hidle] at hw
    rcases hslot q w _ hw with hold | ⟨rfl, hcur⟩
    · exact h.code.slot q w hold
    · -- the idle thread does not wait for a queue
      cases hctx : s.in_external_intr with
      | true => exact hf.handler hctx
      | false => exact hf.idle hctx hcur.symm

/-! ## Runs -/

/-- A call by the running thread or by the handler on top of it. -/
theorem KernelInv.push {s : Kernel} (h : KernelInv s) {l : List Stmt}
    (hl : ∀ c ∈ l, (s.in_external_intr = true → c.Handler) ∧
      (s.in_external_intr = false → s.current = s.idle_thread → c.Idle) ∧
      c ≠ .thread_unblock s.idle_thread) : KernelInv (s.push l) := by
  have hframe := (Frame.refl s .thread_yield).push l
  have hcode : Pushed s (s.push l) l := Pushed.push (r := s) l (fun _ => rfl) rfl rfl rfl
  have hthread := ThreadFrame.push (fun t => ThreadFrame.refl .thread_yield (s.thread t)) l
  refine ⟨h.sched.calm (Calm.push s l), ?_⟩
  constructor
  · rw [hframe.idle_thread]
    intro d hd
    rw [hcode.code] at hd
    split_ifs at hd with hcur
    · rcases List.mem_append.mp hd with hd | hd
      · exact (hl d hd).2.1 hcur.1 hcur.2.symm
      · exact h.code.idle d hd
    · exact h.code.idle d hd
  · intro d hd
    rw [hcode.intr_code] at hd
    split_ifs at hd with hctx
    · rcases List.mem_append.mp hd with hd | hd
      · exact (hl d hd).1 hctx
      · exact h.code.handler d hd
    · exact h.code.handler d hd
  · intro hout
    rw [hframe.in_external_intr] at hout
    rw [hcode.intr_code, hout]
    exact h.code.outside hout
  · intro t ht
    rw [(hthread t).status] at ht
    have hcur : t ≠ s.current := by
      rintro rfl
      have hrun : (s.thread s.current).status = .running := h.sched.running
      rw [ht] at hrun
      cases hrun
    rw [hcode.code, if_neg (fun hc => hcur hc.2)]
    exact h.code.unused t ht
  · intro t hmem
    rw [hframe.idle_thread, hcode.code] at hmem
    split_ifs at hmem
    · rcases List.mem_append.mp hmem with hmem | hmem
      · exact (hl _ hmem).2.2 rfl
      · exact h.code.unblock t hmem
    · exact h.code.unblock t hmem
  · intro hmem
    rw [hframe.idle_thread, hcode.intr_code] at hmem
    split_ifs at hmem
    · rcases List.mem_append.mp hmem with hmem | hmem
      · exact (hl _ hmem).2.2 rfl
      · exact h.code.intr_unblock hmem
    · exact h.code.intr_unblock hmem
  · intro q w hw
    rw [hframe.idle_thread] at hw
    rcases hframe.slot q w _ hw with hold | ⟨heq, -⟩
    · exact h.code.slot q w hold
    · cases heq

theorem KernelInv.exec {s s' : Kernel} {c : Stmt} (h : KernelInv s) (hf : Fits s c)
    (hs : exec s c = .ok s') : KernelInv s' :=
  ⟨h.sched.exec hf hs, CodeInv.exec h hf hs⟩

/-- The handler begins or ends. -/
theorem KernelInv.set_context {s : Kernel} (h : KernelInv s) (hcode : s.intr_code = [])
    (x y : Bool) : KernelInv { s with in_external_intr := x, yield_on_return := y } :=
  ⟨h.sched.calm ⟨rfl, rfl, fun _ => rfl, fun _ => rfl, fun _ => Or.inl rfl, rfl, rfl⟩,
    h.code.idle, h.code.handler, fun _ => hcode, h.code.unused, h.code.unblock,
    h.code.intr_unblock, h.code.slot⟩

/-- A switch between statements. -/
theorem CodeInv.switch {s s' : Kernel} (h : CodeInv s) (hsw : Switch s s') : CodeInv s' := by
  constructor
  · rw [hsw.idle_thread, hsw.code]
    exact h.idle
  · rw [hsw.intr_code]
    exact h.handler
  · rw [hsw.in_external_intr, hsw.intr_code]
    exact h.outside
  · intro t ht
    rw [hsw.code]
    refine h.unused t ?_
    by_contra hne
    exact hsw.used t hne ht
  · intro t
    rw [hsw.idle_thread, hsw.code]
    exact h.unblock t
  · rw [hsw.idle_thread, hsw.intr_code]
    exact h.intr_unblock
  · rw [hsw.idle_thread, hsw.intq]
    exact h.slot

theorem KernelInv.intr_end {s s' : Kernel} (h : KernelInv s) (hcode : s.intr_code = [])
    (hs : intr_end s = .ok s') : KernelInv s' := by
  have hout := h.set_context hcode false s.yield_on_return
  unfold Machine.intr_end at hs
  dsimp only at hs
  split_ifs at hs
  · exact ⟨hout.sched.thread_yield hs, hout.code.switch (thread_yield_switch hs)⟩
  · obtain rfl := Except.ok.inj hs
    exact hout

theorem KernelInv.step {s s' : Kernel} {e : Event} (h : KernelInv s) (hs : step s e s') :
    KernelInv s' := by
  cases e with
  | call c =>
    obtain ⟨hx, hidle, -, hc, rfl⟩ := hs
    refine h.push fun d hd => ?_
    obtain rfl := List.mem_singleton.mp hd
    refine ⟨fun hx' => absurd (hx.symm.trans hx') (by decide), fun _ hcur => absurd hcur hidle, ?_⟩
    rintro rfl
    exact hc
  | idle =>
    obtain ⟨hx, -, -, rfl⟩ := hs
    refine h.push fun d hd => ⟨fun hx' => absurd (hx.symm.trans hx') (by decide), fun _ _ => ?_, ?_⟩
    · simp only [List.mem_cons, List.not_mem_nil, or_false] at hd
      rcases hd with rfl | rfl | rfl <;> trivial
    · rintro rfl
      simp at hd
  | go =>
    obtain ⟨c, r, hp, hs⟩ := hs
    obtain ⟨hr, hf⟩ := h.pop hp
    exact hr.exec hf hs
  | intr =>
    obtain ⟨hon, rfl⟩ := hs
    refine h.set_context (h.code.outside ?_) true false
    unfold Kernel.intr_off at hon
    simp only [not_or, Bool.not_eq_true] at hon
    exact hon.1
  | handle c =>
    obtain ⟨hx, -, hc, rfl⟩ := hs
    refine h.push fun d hd => ?_
    obtain rfl := List.mem_singleton.mp hd
    refine ⟨fun _ => ?_, fun hx' => absurd (hx.symm.trans hx') (by decide), ?_⟩
    · cases d with
      | sema_up i =>
        cases i with
        | other n => trivial
        | _ => exact absurd hc id
      | intq_getc q => trivial
      | intq_putc q byte => trivial
      | timer_interrupt => trivial
      | _ => exact absurd hc id
    · rintro rfl
      exact hc
  | intr_end =>
    obtain ⟨-, hcode, hs⟩ := hs
    exact h.intr_end hcode hs

theorem KernelInv.thread_start (u : Setup) : KernelInv (Machine.thread_start u) := by
  have helem : ∀ t, ((Machine.thread_start u).thread t).elem = none := by
    intro t
    dsimp only [Machine.thread_start]
    split_ifs <;> rfl
  have hstatus : ∀ t, ((Machine.thread_start u).thread t).status ≠ .ready := by
    intro t
    dsimp only [Machine.thread_start]
    split_ifs <;> decide
  refine ⟨⟨⟨?_, ?_, ?_, List.nodup_nil, List.nodup_nil, fun _ => List.nodup_nil, ?_, ?_, ?_, rfl,
    ?_⟩, rfl, rfl⟩, ?_, ?_, fun _ => rfl, ?_, ?_, ?_, ?_⟩
  · intro t
    exact iff_of_false List.not_mem_nil (by rw [helem]; simp)
  · intro t
    exact iff_of_false List.not_mem_nil (by rw [helem]; simp)
  · intro i t
    exact iff_of_false List.not_mem_nil (by rw [helem]; simp)
  · intro t p hp
    rw [helem] at hp
    cases hp
  · exact fun t ht => absurd ht (hstatus t)
  · intro t ht
    dsimp only [Machine.thread_start] at ht ⊢
    split_ifs at ht with h0 h1
    · exact h0
    · cases ht
    · cases ht
  · show Machine.idle_thread.status ≠ .unused
    decide
  · intro c hc
    obtain rfl := List.mem_singleton.mp hc
    trivial
  · exact fun c hc => absurd hc List.not_mem_nil
  · intro t ht
    dsimp only [Machine.thread_start] at ht ⊢
    split_ifs at ht ⊢
    · rfl
    · cases ht
    · rfl
  · intro t
    dsimp only [Machine.thread_start]
    split_ifs <;> decide
  · exact List.not_mem_nil
  · intro q w
    cases w <;> simp [IntQueue.waiter, Machine.thread_start]

/-- The idle thread has the end of its loop ahead, the others nothing. -/
theorem thread_start_code (u : Setup) (t : Tid) :
    ∀ c ∈ ((thread_start u).thread t).code, c = .intr_enable := by
  dsimp only [thread_start]
  split_ifs <;> simp [main_thread, idle_thread, no_thread]

/-- **The thread system.** The invariant holds in every state every run reaches. -/
theorem kernel_inv {u : Setup} {ok : Kernel → Event → Prop} {s : Kernel}
    (hr : Reachable (kernel_system u) ok s) : KernelInv s := by
  refine hr.invariant ?_ (fun _ _ _ hi _ hs => hi.step hs)
  rintro _ rfl
  exact KernelInv.thread_start u

/-- What holds after `thread_start` and survives every step of a run holds in every state the
run reaches. The invariant may be used on the way. -/
theorem reachable_rule {u : Setup} {ok : Kernel → Event → Prop} {P : Kernel → Prop} {s : Kernel}
    (hr : Reachable (kernel_system u) ok s) (hinit : P (thread_start u))
    (hstep : ∀ r e r', KernelInv r → P r → ok r e → step r e r' → P r') : P s := by
  induction hr with
  | init h =>
    obtain rfl := h
    exact hinit
  | step hr hok hs ih => exact hstep _ _ _ (kernel_inv hr) ih hok hs

/-- The handler has executed a statement. -/
structure HandlerGo (s : Kernel) (c : Stmt) (r s' : Kernel) (rest : List Stmt) : Prop where
  context : s.in_external_intr = true
  before : s.intr_code = c :: rest
  after : s'.intr_code = pushes r c ++ rest
  code : ∀ t, (s'.thread t).code = (s.thread t).code
  popped : r = { s with intr_code := rest }
  fits : c.Handler
  inv : KernelInv r
  exec : exec r c = .ok s'

/-- The running thread has executed a statement. -/
structure ThreadGo (s : Kernel) (c : Stmt) (r s' : Kernel) (rest : List Stmt) : Prop where
  context : s.in_external_intr = false
  before : (s.thread s.current).code = c :: rest
  after : (s'.thread s.current).code = pushes r c ++ rest
  code : ∀ t, t ≠ s.current → (s'.thread t).code = (s.thread t).code
  intr_code : s'.intr_code = s.intr_code
  popped : r = s.set_thread s.current (fun th => { th with code := rest })
  inv : KernelInv r
  exec : exec r c = .ok s'

/-- A statement is executed by the handler or by the running thread. -/
theorem go_cases {s r s' : Kernel} {c : Stmt} (hk : KernelInv s) (hp : pop_stmt s = some (c, r))
    (hs : exec r c = .ok s') :
    (∃ rest, HandlerGo s c r s' rest) ∨ ∃ rest, ThreadGo s c r s' rest := by
  obtain ⟨hr, hf⟩ := hk.pop hp
  have hpush := exec_pushed (fun t p heq => hr.code.unused t (thread_create_unused hs heq)) hs
  rcases pop_cases hp with ⟨rest, hx, hcode, hpop⟩ | ⟨rest, hx, hcode, hpop⟩
  · have hctx : r.in_external_intr = true := by rw [hpop]; exact hx
    refine Or.inl ⟨rest, hx, hcode, ?_, fun t => ?_, hpop, hf.handler hctx, hr, hs⟩
    · rw [hpush.intr_code, if_pos hctx, hpop]
    · rw [hpush.code, if_neg fun h => absurd (hctx.symm.trans h.1) (by decide), hpop]
  · have hctx : r.in_external_intr = false := by rw [hpop]; exact hx
    have hcur : r.current = s.current := by rw [hpop]; rfl
    refine Or.inr ⟨rest, hx, hcode, ?_, fun t ht => ?_, ?_, hpop, hr, hs⟩
    · rw [hpush.code, if_pos ⟨hctx, hcur.symm⟩, hpop, set_thread_self]
    · rw [hpush.code, if_neg (fun h => ht (h.2.trans hcur)), hpop, set_thread_of_ne s _ ht]
    · rw [hpush.intr_code, if_neg (fun h => absurd (hctx.symm.trans h) (by decide)), hpop]
      rfl

theorem ThreadGo.current {s c r s' rest} (h : ThreadGo s c r s' rest) : r.current = s.current := by
  rw [h.popped]
  rfl

theorem ThreadGo.sema {s c r s' rest} (h : ThreadGo s c r s' rest) : r.sema = s.sema := by
  rw [h.popped]
  rfl

theorem HandlerGo.sema {s c r s' rest} (h : HandlerGo s c r s' rest) : r.sema = s.sema := by
  rw [h.popped]

/-- A statement that is ahead of one thread at most, once. -/
structure Single (s : Kernel) (d : Stmt) : Prop where
  once : ∀ t, (s.thread t).code.count d ≤ 1
  one : ∀ t u, d ∈ (s.thread t).code → d ∈ (s.thread u).code → t = u

theorem Single.congr {s s' : Kernel} {d : Stmt} (h : Single s d)
    (hcode : ∀ t, (s'.thread t).code = (s.thread t).code) : Single s' d := by
  refine ⟨fun t => ?_, fun t u ht hu => ?_⟩
  · rw [hcode]
    exact h.once t
  · rw [hcode] at ht hu
    exact h.one t u ht hu

/-- A call that has nothing to do with it. -/
theorem Single.push {s : Kernel} {d : Stmt} (h : Single s d) {l : List Stmt} (hl : d ∉ l) :
    Single (s.push l) d := by
  have hcode : ∀ t, ((s.push l).thread t).code.count d = (s.thread t).code.count d := by
    intro t
    rw [push_code]
    split_ifs
    · rw [List.count_append, List.count_eq_zero.mpr hl, zero_add]
    · rfl
  refine ⟨fun t => ?_, fun t u ht hu => ?_⟩
  · rw [hcode]
    exact h.once t
  · rw [← List.count_pos_iff, hcode, List.count_pos_iff] at ht hu
    exact h.one t u ht hu

theorem ThreadGo.mem_code {s c r s' rest} (hgo : ThreadGo s c r s' rest) {d : Stmt} {t : Tid}
    (h : d ∈ (s'.thread t).code) :
    (t = s.current ∧ d ∈ pushes r c) ∨ (d ∈ (s.thread t).code ∧ (t = s.current → d ∈ rest)) := by
  by_cases ht : t = s.current
  · rw [ht, hgo.after] at h
    rw [ht, hgo.before]
    refine (List.mem_append.mp h).imp (fun h => ⟨rfl, h⟩) fun h => ?_
    exact ⟨List.mem_cons_of_mem c h, fun _ => h⟩
  · rw [hgo.code t ht] at h
    exact Or.inr ⟨h, fun heq => absurd heq ht⟩

/-- What is ahead stays ahead, unless it is executed. -/
theorem ThreadGo.kept {s c r s' rest} (hgo : ThreadGo s c r s' rest) {d : Stmt} {t : Tid}
    (h : d ∈ (s.thread t).code) (hne : t = s.current → d ≠ c) : d ∈ (s'.thread t).code := by
  by_cases ht : t = s.current
  · rw [ht, hgo.before] at h
    rw [ht, hgo.after]
    exact List.mem_append_right _ ((List.mem_cons.mp h).resolve_left (hne ht))
  · rw [hgo.code t ht]
    exact h

/-- What is executed is not ahead any more. -/
theorem Single.done {s c r s' rest} (h : Single s c) (hgo : ThreadGo s c r s' rest)
    (hp : c ∉ pushes r c) (t : Tid) : c ∉ (s'.thread t).code := by
  intro hmem
  have hcur : c ∈ (s.thread s.current).code := by
    rw [hgo.before]
    exact List.mem_cons_self
  rcases hgo.mem_code hmem with ⟨-, hnew⟩ | ⟨hold, hrest⟩
  · exact hp hnew
  · have honce := h.once s.current
    rw [hgo.before, List.count_cons_self] at honce
    have hpos := List.count_pos_iff.mpr (hrest (h.one t _ hold hcur))
    omega

/-- A statement may call for it once, when it is nowhere ahead. -/
theorem Single.go {s c r s' rest} {d : Stmt} (h : Single s d) (hgo : ThreadGo s c r s' rest)
    (hnew : d ∈ pushes r c → (pushes r c).count d = 1 ∧ ∀ t, d ∉ (s.thread t).code) :
    Single s' d := by
  have honce := h.once s.current
  rw [hgo.before, List.count_cons] at honce
  refine ⟨fun t => ?_, fun t u ht hu => ?_⟩
  · by_cases ht : t = s.current
    · rw [ht, hgo.after, List.count_append]
      by_cases hp : d ∈ pushes r c
      · obtain ⟨hcount, hnone⟩ := hnew hp
        have hrest : d ∉ rest := by
          intro hmem
          refine hnone s.current ?_
          rw [hgo.before]
          exact List.mem_cons_of_mem c hmem
        rw [hcount, List.count_eq_zero.mpr hrest]
      · rw [List.count_eq_zero.mpr hp]
        omega
    · rw [hgo.code t ht]
      exact h.once t
  · rcases hgo.mem_code ht with ⟨htc, htn⟩ | ⟨hto, -⟩
    · rcases hgo.mem_code hu with ⟨huc, -⟩ | ⟨huo, -⟩
      · rw [htc, huc]
      · exact absurd huo ((hnew htn).2 u)
    · rcases hgo.mem_code hu with ⟨-, hun⟩ | ⟨huo, -⟩
      · exact absurd hto ((hnew hun).2 t)
      · exact h.one t u hto huo

theorem exec_sema {s s' : Kernel} {c : Stmt} (hs : exec s c = .ok s') :
    s'.sema = (effect s c).sema :=
  exec_of_effect (P := fun r => r.sema = (effect s c).sema) (fun _ _ h hp => h.sema.trans hp)
    (fun _ _ hp => hp) rfl hs

theorem exec_holder {s s' : Kernel} {c : Stmt} (hs : exec s c = .ok s') :
    s'.holder = (effect s c).holder :=
  exec_of_effect (P := fun r => r.holder = (effect s c).holder) (fun _ _ h hp => h.holder.trans hp)
    (fun _ _ hp => hp) rfl hs

/-- What a thread that has nothing left to execute goes on with: a call, or its loop. -/
inductive Called : List Stmt → Prop
  | call {c : Stmt} (h : c.Callable) : Called [c]
  | idle : Called [.intr_disable, .thread_block, .intr_enable]

/-- The step rule for a property of some runs: what is known of the event is at hand where a
statement is executed. -/
theorem step_rule_go {P : Kernel → Prop} {s s' : Kernel} {e : Event}
    (hswitch : ∀ r r', Switch r r' → P r → P r')
    (hcontext : ∀ x y, P { s with in_external_intr := x, yield_on_return := y })
    (hcall : ∀ l, s.in_external_intr = false → s.cur.code = [] → Called l → P (s.push l))
    (hhandle : ∀ c, s.in_external_intr = true → s.intr_code = [] → c.Handled → P (s.push [c]))
    (hgo : ∀ c r, e = .go → pop_stmt s = some (c, r) → exec r c = .ok s' → P s')
    (hs : step s e s') : P s' := by
  cases e with
  | call c =>
    obtain ⟨hx, -, hcode, hc, rfl⟩ := hs
    exact hcall _ hx hcode (.call hc)
  | idle =>
    obtain ⟨hx, -, hcode, rfl⟩ := hs
    exact hcall _ hx hcode .idle
  | go =>
    obtain ⟨c, r, hp, hs⟩ := hs
    exact hgo c r rfl hp hs
  | intr =>
    obtain ⟨-, rfl⟩ := hs
    exact hcontext true false
  | handle c =>
    obtain ⟨hx, hcode, hc, rfl⟩ := hs
    exact hhandle c hx hcode hc
  | intr_end =>
    obtain ⟨-, -, hs⟩ := hs
    have hout := hcontext false s.yield_on_return
    unfold intr_end at hs
    dsimp only at hs
    split_ifs at hs
    · exact hswitch _ _ (thread_yield_switch hs) hout
    · obtain rfl := Except.ok.inj hs
      exact hout

/-- **The step rule.** What an invariant that the scheduler does not touch has to be shown for:
calls, and statements executed by the handler or by the running thread. -/
theorem step_rule {P : Kernel → Prop} {s s' : Kernel} {e : Event} (hk : KernelInv s)
    (hswitch : ∀ r r', Switch r r' → P r → P r')
    (hcontext : ∀ x y, P { s with in_external_intr := x, yield_on_return := y })
    (hcall : ∀ l, s.in_external_intr = false → s.cur.code = [] → Called l → P (s.push l))
    (hhandle : ∀ c, s.in_external_intr = true → s.intr_code = [] → c.Handled → P (s.push [c]))
    (hhandler : ∀ c r rest, HandlerGo s c r s' rest → P s')
    (hthread : ∀ c r rest, ThreadGo s c r s' rest → P s') (hs : step s e s') : P s' := by
  refine step_rule_go hswitch hcontext hcall hhandle (fun c r _ hp hexec => ?_) hs
  rcases go_cases hk hp hexec with ⟨rest, hgo⟩ | ⟨rest, hgo⟩
  · exact hhandler c r rest hgo
  · exact hthread c r rest hgo

/-- An invariant that has nothing to do with lists, with what is left to execute and with who
executes it has to be shown for effects only. -/
theorem step_of_effect {P : Kernel → Prop} {s s' : Kernel} {e : Event}
    (hswitch : ∀ r r', Switch r r' → P r → P r')
    (hwaiting : ∀ r l, P r → P { r with waiting_list := l })
    (hcode : ∀ r t (f : Thread → Thread), (∀ th, ∃ code, f th = { th with code := code }) →
      P r → P (r.set_thread t f))
    (hintr : ∀ r code, P r → P { r with intr_code := code })
    (hcontext : ∀ r x y, P r → P { r with in_external_intr := x, yield_on_return := y })
    (heffect : ∀ r c r', exec r c = .ok r' → P r → P (effect r c)) (h : P s)
    (hs : step s e s') : P s' := by
  have hpush : ∀ r l, P r → P (r.push l) := by
    intro r l hr
    unfold Kernel.push
    split_ifs
    · exact hintr r _ hr
    · exact hcode r _ _ (fun th => ⟨_, rfl⟩) hr
  cases e with
  | call c =>
    obtain ⟨-, -, -, -, rfl⟩ := hs
    exact hpush s _ h
  | idle =>
    obtain ⟨-, -, -, rfl⟩ := hs
    exact hpush s _ h
  | go =>
    obtain ⟨c, r, hp, hs⟩ := hs
    have hr : P r := by
      rcases pop_cases hp with ⟨rest, -, -, rfl⟩ | ⟨rest, -, -, rfl⟩
      · exact hintr s rest h
      · exact hcode s _ _ (fun th => ⟨_, rfl⟩) h
    exact exec_of_effect hswitch hwaiting (heffect r c _ hs hr) hs
  | intr =>
    obtain ⟨-, rfl⟩ := hs
    exact hcontext s true false h
  | handle c =>
    obtain ⟨-, -, -, rfl⟩ := hs
    exact hpush s _ h
  | intr_end =>
    obtain ⟨-, -, hs⟩ := hs
    have hout := hcontext s false s.yield_on_return h
    unfold intr_end at hs
    dsimp only at hs
    split_ifs at hs
    · exact hswitch _ _ (thread_yield_switch hs) hout
    · obtain rfl := Except.ok.inj hs
      exact hout

/-! ## Executing events -/

/-- `step` as a function. What may be called is not checked. -/
def run_event (s : Kernel) : Event → Res Kernel
  | .call c => do
    ASSERT (s.in_external_intr = false ∧ s.current ≠ s.idle_thread ∧ s.cur.code = [])
    return s.push [c]
  | .idle => do
    ASSERT (s.in_external_intr = false ∧ s.current = s.idle_thread ∧ s.cur.code = [])
    return s.push [.intr_disable, .thread_block, .intr_enable]
  | .go =>
    match pop_stmt s with
    | none => .error .assertion
    | some (c, r) => exec r c
  | .intr => do
    ASSERT (¬ s.intr_off)
    return { s with in_external_intr := true, yield_on_return := false }
  | .handle c => do
    ASSERT (s.in_external_intr = true ∧ s.intr_code = [])
    return s.push [c]
  | .intr_end => do
    ASSERT (s.in_external_intr = true ∧ s.intr_code = [])
    intr_end s

/-- An event that calls only what may be called. -/
def Event.Allowed : Event → Prop
  | .call c => c.Callable
  | .handle c => c.Handled
  | _ => True

theorem step_of_run_event {s s' : Kernel} {e : Event} (he : e.Allowed)
    (hs : run_event s e = .ok s') : step s e s' := by
  cases e with
  | call c =>
    obtain ⟨_, h, hs⟩ := bind_eq_ok hs
    obtain ⟨hx, hidle, hcode⟩ := ASSERT_eq_ok h
    exact ⟨hx, hidle, hcode, he, (Except.ok.inj hs).symm⟩
  | idle =>
    obtain ⟨_, h, hs⟩ := bind_eq_ok hs
    obtain ⟨hx, hidle, hcode⟩ := ASSERT_eq_ok h
    exact ⟨hx, hidle, hcode, (Except.ok.inj hs).symm⟩
  | go =>
    dsimp only [run_event] at hs
    cases hp : pop_stmt s with
    | none =>
      rw [hp] at hs
      cases hs
    | some p =>
      rw [hp] at hs
      exact ⟨p.1, p.2, hp, hs⟩
  | intr =>
    obtain ⟨_, h, hs⟩ := bind_eq_ok hs
    exact ⟨ASSERT_eq_ok h, (Except.ok.inj hs).symm⟩
  | handle c =>
    obtain ⟨_, h, hs⟩ := bind_eq_ok hs
    obtain ⟨hx, hcode⟩ := ASSERT_eq_ok h
    exact ⟨hx, hcode, he, (Except.ok.inj hs).symm⟩
  | intr_end =>
    obtain ⟨_, h, hs⟩ := bind_eq_ok hs
    obtain ⟨hx, hcode⟩ := ASSERT_eq_ok h
    exact ⟨hx, hcode, hs⟩

/-- The events happen one after the other, each meets the guard, and `P` holds at the end. -/
def run (ok : Kernel → Event → Prop) [∀ s e, Decidable (ok s e)] (P : Kernel → Prop)
    [DecidablePred P] : Kernel → List Event → Bool
  | s, [] => decide (P s)
  | s, e :: es =>
    decide (ok s e) && match run_event s e with
      | .ok s' => run ok P s' es
      | .error _ => false

/-- What a run of allowed events reaches. -/
theorem run_reachable {u : Setup} (ok : Kernel → Event → Prop) [∀ s e, Decidable (ok s e)]
    (P : Kernel → Prop) [DecidablePred P] (es : List Event) {s : Kernel}
    (hr : Reachable (kernel_system u) ok s) (hallowed : ∀ e ∈ es, e.Allowed)
    (h : run ok P s es = true) : ∃ s', Reachable (kernel_system u) ok s' ∧ P s' := by
  induction es generalizing s with
  | nil => exact ⟨s, hr, of_decide_eq_true h⟩
  | cons e es ih =>
    unfold run at h
    rw [Bool.and_eq_true] at h
    cases he : run_event s e with
    | error f =>
      rw [he] at h
      cases h.2
    | ok s' =>
      rw [he] at h
      have hstep := step_of_run_event (hallowed e List.mem_cons_self) he
      exact ih (hr.step (of_decide_eq_true h.1) hstep)
        (fun e' he' => hallowed e' (List.mem_cons_of_mem e he')) h.2

/-- Priority scheduling, all other semaphores made with 0. -/
def plain_setup : Setup := ⟨false, fun _ => 0, fun _ => 0, fun _ => 0⟩

/-- `thread_create` by the running thread, up to its end. -/
def create_run (t : Tid) (priority : ℤ) : List Event :=
  .call (.thread_create t priority) :: List.replicate 9 .go

/-- `lock_acquire` of a lock that is free. -/
def acquire_run (m : LockId) : List Event := .call (.lock_acquire m) :: List.replicate 4 .go

/-- The main thread makes a thread of its own priority, which waits for a semaphore. -/
def sleeper_run : List Event := create_run 2 31 ++ [.call (.sema_down (.other 0)), .go]

theorem sleeper_run_allowed : ∀ e ∈ sleeper_run, e.Allowed := by
  simp [sleeper_run, create_run, Event.Allowed, Stmt.Callable]

end Pintos.Threads.Machine
