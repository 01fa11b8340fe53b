/-
The alarm clock (`devices/timer.c`, `wake_waiting_list` of `threads/thread.c`).

`wake_waiting_list` walks over `waiting_list` and takes a thread that is due off the
front, wherever it is in its walk. That is the thread it visits because the list is in
order of waking time: those that are due come first.
-/
import Pintos.Threads.Interrupt

set_option autoImplicit false

namespace Pintos.Threads.Machine

open StepSystem

/-! ## The order -/

/-- `waiting_list` is in order of waking time. -/
def AlarmSorted (s : Kernel) : Prop := s.waiting_list.Pairwise s.less_waking_time

variable {s s' : Kernel}

theorem AlarmSorted.congr (h : AlarmSorted s) (hlist : s'.waiting_list = s.waiting_list)
    (htime : ∀ t ∈ s.waiting_list, (s'.thread t).waking_time = (s.thread t).waking_time) :
    AlarmSorted s' := by
  unfold AlarmSorted
  rw [hlist]
  refine h.imp_of_mem fun ha hb hab => ?_
  show (s'.thread _).waking_time ≤ (s'.thread _).waking_time
  rw [htime _ ha, htime _ hb]
  exact hab

/-! ## `wake_waiting_list` -/

/-- Threads that are not due are passed over. -/
theorem wake_from_later {l : List Tid} (hl : ∀ t ∈ l, s.ticks < (s.thread t).waking_time) :
    wake_from l s = .ok s := by
  induction l with
  | nil => rfl
  | cons t rest ih =>
    have ht := hl t List.mem_cons_self
    unfold wake_from
    rw [if_neg fun hdue => absurd hdue.1 (not_le.mpr ht)]
    exact ih fun u hu => hl u (List.mem_cons_of_mem t hu)

/-- A thread that is due, at the front. -/
theorem wake_front (h : SchedInv s) {t : Tid} {rest : List Tid} (hw : s.waiting_list = t :: rest)
    (hdue : (s.thread t).waking_time ≤ s.ticks) :
    ∃ r, wake_from (t :: rest) s = wake_from rest r ∧ SchedInv r ∧ r.waiting_list = rest ∧
      r.ticks = s.ticks ∧ (∀ u, (r.thread u).waking_time = (s.thread u).waking_time) ∧
      ∀ u, u ∈ r.ready_list ↔ u ∈ s.ready_list ∨ u = t := by
  have helem := (h.lists.waiting t).mp (by rw [hw]; exact List.mem_cons_self)
  have hblocked : (s.thread t).status = .blocked := h.lists.status t _ helem
  obtain ⟨r, hr⟩ : ∃ r, make_ready { (s.set_thread t (fun th => { th with elem := none })) with
      waiting_list := rest } t = .ok r := by
    unfold make_ready
    rw [if_pos (congrArg Thread.elem (set_thread_self s t (fun th => { th with elem := none })))]
    exact ⟨_, rfl⟩
  have hready := make_ready_switch hr
  refine ⟨r, ?_, h.wake_one hw (h.lists.ne_idle helem) hblocked hr, hready.waiting_list,
    hready.ticks, fun u => ?_, fun u => ?_⟩
  · show (if _ then _ else _) = _
    rw [if_pos ⟨hdue, hblocked⟩, hw]
    show (make_ready { (s.set_thread t (fun th => { th with elem := none })) with
      waiting_list := rest } t >>= fun s => wake_from rest s) = _
    rw [hr, ok_bind]
  · rw [hready.waking_time]
    show ((s.set_thread t (fun th => { th with elem := none })).thread u).waking_time = _
    rw [set_thread_apply]
    split_ifs with hu
    · rw [hu]
    · rfl
  · rw [(make_ready_eq hr).2]
    exact mem_insert_ordered.trans or_comm

/-- **What `wake_waiting_list` does** with a list in order: it does not fail, those that are due
are made ready, and the others stay. -/
theorem wake_from_spec {l : List Tid} (h : SchedInv s) (hw : s.waiting_list = l)
    (hsorted : l.Pairwise s.less_waking_time) :
    ∃ s', wake_from l s = .ok s' ∧
      s'.waiting_list = l.filter (fun t => s.ticks < (s.thread t).waking_time) ∧
      ∀ u, u ∈ s'.ready_list ↔
        u ∈ s.ready_list ∨ (u ∈ l ∧ (s.thread u).waking_time ≤ s.ticks) := by
  induction l generalizing s with
  | nil =>
    refine ⟨s, rfl, hw, fun u => ?_⟩
    simp
  | cons t rest ih =>
    obtain ⟨hfirst, hrest⟩ := List.pairwise_cons.mp hsorted
    by_cases hdue : (s.thread t).waking_time ≤ s.ticks
    · obtain ⟨r, heq, hr, hwaiting, hticks, htime, hready⟩ := wake_front h hw hdue
      have hsorted' : rest.Pairwise r.less_waking_time := by
        refine hrest.imp fun hab => ?_
        show (r.thread _).waking_time ≤ (r.thread _).waking_time
        rw [htime, htime]
        exact hab
      obtain ⟨s', hs, hlist, hmem⟩ := ih hr hwaiting hsorted'
      refine ⟨s', heq.trans hs, ?_, fun u => ?_⟩
      · rw [hlist, List.filter_cons_of_neg (by simpa using hdue)]
        simp only [hticks, htime]
      · rw [hmem, hready, hticks, htime, List.mem_cons]
        constructor
        · rintro ((hu | rfl) | hu)
          · exact Or.inl hu
          · exact Or.inr ⟨Or.inl rfl, hdue⟩
          · exact Or.inr ⟨Or.inr hu.1, hu.2⟩
        · rintro (hu | ⟨rfl | hu, hu'⟩)
          · exact Or.inl (Or.inl hu)
          · exact Or.inl (Or.inr rfl)
          · exact Or.inr ⟨hu, hu'⟩
    · -- the first one is not due, so no other one is
      have hlater : ∀ u ∈ t :: rest, s.ticks < (s.thread u).waking_time := by
        intro u hu
        rcases List.mem_cons.mp hu with rfl | hu
        · exact not_le.mp hdue
        · exact lt_of_lt_of_le (not_le.mp hdue) (hfirst u hu)
      refine ⟨s, wake_from_later hlater, ?_, fun u => ?_⟩
      · rw [hw, eq_comm, List.filter_eq_self]
        simpa using hlater
      · refine (or_iff_left ?_).symm
        rintro ⟨hu, hle⟩
        exact absurd hle (not_le.mpr (hlater u hu))

/-! ## Every statement keeps the order -/

/-- The threads on `waiting_list` keep their waking time. -/
theorem exec_waking_time {c : Stmt} (h : SchedInv s) (hs : exec s c = .ok s') {t : Tid}
    (ht : t ∈ s.waiting_list) : (s'.thread t).waking_time = (s.thread t).waking_time := by
  have helem := (h.lists.waiting t).mp ht
  refine exec_of_effect (P := fun r => (r.thread t).waking_time = (s.thread t).waking_time)
    (fun r r' hsw hr => (hsw.waking_time t).trans hr) (fun _ _ hr => hr) ?_ hs
  by_cases hcreate : ∃ u p, c = .thread_create u p
  · obtain ⟨u, p, rfl⟩ := hcreate
    have hne : t ≠ u := by
      rintro rfl
      rw [h.lists.unused (thread_create_unused hs rfl)] at helem
      cases helem
    obtain ⟨code, heq⟩ := effect_create s u p t
    rw [heq, if_neg hne]
  · by_cases hsleep : ∃ n, c = .sleep_until n
    · obtain ⟨n, rfl⟩ := hsleep
      have hne : t ≠ s.current := fun heq => h.current_ne helem heq.symm
      exact congrArg Thread.waking_time (set_thread_of_ne s (fun th => { th with
        waking_time := n }) hne)
    · refine (effect_thread s (fun u p heq => hcreate ⟨u, p, heq⟩) t).waking_time fun hmem => ?_
      cases c with
      | sleep_until n => exact hsleep ⟨n, rfl⟩
      | _ => simp [Stmt.writes] at hmem

/-- What becomes of `waiting_list`. -/
theorem exec_waiting_list {c : Stmt} (h : SchedInv s) (hsorted : AlarmSorted s)
    (hs : exec s c = .ok s') :
    (c = .wake_waiting_list ∧
      s'.waiting_list = s.waiting_list.filter (fun t => s.ticks < (s.thread t).waking_time) ∧
      ∀ u, u ∈ s'.ready_list ↔
        u ∈ s.ready_list ∨ (u ∈ s.waiting_list ∧ (s.thread u).waking_time ≤ s.ticks)) ∨
    (∃ n, c = .sleep_until n ∧ (s'.thread s.current).waking_time = n ∧
      ∃ less : Tid → Tid → Prop, ∃ _ : DecidableRel less,
        s'.waiting_list = list_insert_ordered less s.waiting_list s.current ∧
        ∀ a b, less a b ↔ (s'.thread a).waking_time ≤ (s'.thread b).waking_time) ∨
    ((∀ n, c ≠ .sleep_until n) ∧ s'.waiting_list = s.waiting_list) := by
  by_cases hwake : c = .wake_waiting_list
  · subst hwake
    obtain ⟨r, hr, hlist, hready⟩ := wake_from_spec h rfl hsorted
    obtain rfl := Except.ok.inj (hr.symm.trans hs)
    exact Or.inl ⟨rfl, hlist, hready⟩
  have hsw := exec_effect hwake hs
  by_cases hsleep : ∃ n, c = .sleep_until n
  · obtain ⟨n, rfl⟩ := hsleep
    refine Or.inr (Or.inl ⟨n, rfl, ?_, (effect s (.sleep_until n)).less_waking_time, inferInstance,
      hsw.waiting_list, fun a b => ?_⟩)
    · rw [hsw.waking_time]
      exact congrArg Thread.waking_time (set_thread_self s s.current (fun th => { th with
        waking_time := n }))
    · rw [hsw.waking_time, hsw.waking_time]
      rfl
  · refine Or.inr (Or.inr ⟨fun n heq => hsleep ⟨n, heq⟩, ?_⟩)
    rw [hsw.waiting_list]
    exact (effect_frame s c).waiting_list fun n heq => hsleep ⟨n, heq⟩

theorem exec_alarm {c : Stmt} (h : SchedInv s) (hsorted : AlarmSorted s)
    (hs : exec s c = .ok s') : AlarmSorted s' := by
  have htime := fun t ht => exec_waking_time h hs (t := t) ht
  have hsame : s.waiting_list.Pairwise s'.less_waking_time := by
    refine hsorted.imp_of_mem fun ha hb hab => ?_
    show (s'.thread _).waking_time ≤ (s'.thread _).waking_time
    rw [htime _ ha, htime _ hb]
    exact hab
  unfold AlarmSorted
  rcases exec_waiting_list h hsorted hs with
    ⟨-, hlist, -⟩ | ⟨n, -, -, less, _, hlist, hless⟩ | ⟨-, hlist⟩
  · rw [hlist]
    exact hsame.filter _
  · have : Std.Total less := ⟨fun a b => by rw [hless, hless]; exact le_total _ _⟩
    have : IsTrans Tid less := ⟨fun a b c hab hbc => by
      rw [hless] at hab hbc ⊢
      exact le_trans hab hbc⟩
    have hbefore : s.waiting_list.Pairwise less := hsame.imp fun hab => (hless _ _).mpr hab
    rw [hlist]
    exact (List.Pairwise.orderedInsert s.current _ hbefore).imp fun hab => (hless _ _).mp hab
  · rw [hlist]
    exact hsame

/-! ## Runs -/

theorem step_alarm {e : Event} (hk : KernelInv s) (h : AlarmSorted s) (hs : step s e s') :
    AlarmSorted s' := by
  refine step_rule (P := AlarmSorted) hk (fun r r' hsw hr => ?_) (fun _ _ => h)
    (fun l _ _ _ => ?_) (fun c _ _ _ => ?_) (fun c r rest hgo => ?_) (fun c r rest hgo => ?_) hs
  · exact hr.congr hsw.waiting_list fun t _ => hsw.waking_time t
  · have hframe := (Frame.refl s .thread_yield).push l
    have hthread := ThreadFrame.push (fun t => ThreadFrame.refl .thread_yield (s.thread t)) l
    exact h.congr (hframe.waiting_list (by simp)) fun t _ => (hthread t).waking_time (by decide)
  · have hframe := (Frame.refl s .thread_yield).push [c]
    have hthread := ThreadFrame.push (fun t => ThreadFrame.refl .thread_yield (s.thread t)) [c]
    exact h.congr (hframe.waiting_list (by simp)) fun t _ => (hthread t).waking_time (by decide)
  · refine exec_alarm hgo.inv.sched ?_ hgo.exec
    rw [hgo.popped]
    exact h
  · refine exec_alarm hgo.inv.sched ?_ hgo.exec
    rw [hgo.popped]
    refine h.congr rfl fun t _ => ?_
    rw [set_thread_apply]
    split_ifs with ht
    · rw [ht]
    · rfl

theorem alarm_sorted {u : Setup} {ok : Kernel → Event → Prop}
    (hr : Reachable (kernel_system u) ok s) : AlarmSorted s := by
  refine reachable_rule hr ?_ fun r e r' hk hi _ hs => ?_
  · exact List.Pairwise.nil
  · exact step_alarm hk hi hs

/-! ## The timer interrupt -/

theorem finish_cons {c : Stmt} {rest : List Stmt} {fuel : ℕ} (hx : s.in_external_intr = true)
    (hcode : s.intr_code = c :: rest) :
    finish (fuel + 1) s = exec { s with intr_code := rest } c >>= finish fuel := by
  have hpop : pop_stmt s = some (c, { s with intr_code := rest }) := by
    unfold pop_stmt
    rw [if_pos hx, hcode]
  unfold finish
  rw [hpop]

/-- `wake_waiting_list` as the last statement of a handler. -/
theorem finish_wake (hk : SchedInv s) (hsorted : AlarmSorted s)
    (hx : s.in_external_intr = true) (hcode : s.intr_code = [.wake_waiting_list]) :
    ∃ s', finish 2 s = .ok s' ∧ s'.ticks = s.ticks ∧
      s'.waiting_list = s.waiting_list.filter (fun t => s.ticks < (s.thread t).waking_time) ∧
      s'.ready_list.Nodup ∧
      ∀ t, t ∈ s'.ready_list ↔
        t ∈ s.ready_list ∨ (t ∈ s.waiting_list ∧ (s.thread t).waking_time ≤ s.ticks) := by
  have hsched : SchedInv { s with intr_code := [] } :=
    hk.calm ⟨rfl, rfl, fun _ => rfl, fun _ => rfl, fun _ => Or.inl rfl, rfl, rfl⟩
  obtain ⟨s', hs, hlist, hready⟩ := wake_from_spec hsched rfl hsorted
  have hinv : SchedInv s' := by
    refine hsched.wake_from (fun t ht => ?_) hs
    exact hsched.lists.ne_idle ((hsched.lists.waiting t).mp ht)
  have hsw := wake_from_switch hs
  have hend : s'.in_external_intr = true ∧ s'.intr_code = [] :=
    ⟨hsw.in_external_intr.trans hx, hsw.intr_code⟩
  refine ⟨s', ?_, hsw.ticks, hlist, hinv.lists.ready_nodup, hready⟩
  rw [finish_cons hx hcode]
  show (wake_from s.waiting_list { s with intr_code := [] } >>= finish 1) = .ok s'
  rw [hs, ok_bind]
  unfold finish pop_stmt
  rw [if_pos hend.1, hend.2]

/-- `ticks++` and what `thread_tick` writes. -/
theorem timer_interrupt_eq (hx : s.in_external_intr = true) :
    ∃ x y, timer_interrupt s = { s with
      ticks := s.ticks + 1
      thread_ticks := x
      yield_on_return := y
      intr_code := pushes s .timer_interrupt ++ s.intr_code } := by
  dsimp only [timer_interrupt, pushes]
  by_cases hslice : TIME_SLICE ≤ s.thread_ticks + 1
  · rw [if_pos hslice]
    refine ⟨s.thread_ticks + 1, true, ?_⟩
    rw [← apply_ite (Kernel.push _)]
    exact push_external (s := { s with
      ticks := s.ticks + 1, thread_ticks := s.thread_ticks + 1, yield_on_return := true }) hx _
  · rw [if_neg hslice]
    refine ⟨s.thread_ticks + 1, s.yield_on_return, ?_⟩
    rw [← apply_ite (Kernel.push _)]
    exact push_external (s := { s with
      ticks := s.ticks + 1, thread_ticks := s.thread_ticks + 1 }) hx _

/-- The timer's handler, from its call to its end. -/
theorem timer_interrupt_spec (hk : SchedInv s) (hsorted : AlarmSorted s)
    (hx : s.in_external_intr = true) (hcode : s.intr_code = []) :
    ∃ fuel s', finish fuel (s.push [.timer_interrupt]) = .ok s' ∧ s'.ticks = s.ticks + 1 ∧
      s'.waiting_list = s.waiting_list.filter
        (fun t => s.ticks + 1 < (s.thread t).waking_time) ∧ s'.ready_list.Nodup ∧
      ∀ t, t ∈ s'.ready_list ↔
        t ∈ s.ready_list ∨ (t ∈ s.waiting_list ∧ (s.thread t).waking_time ≤ s.ticks + 1) := by
  obtain ⟨x, y, htick⟩ := timer_interrupt_eq hx
  rw [hcode, List.append_nil] at htick
  have hfirst : ∀ fuel, finish (fuel + 1) (s.push [.timer_interrupt]) =
      finish fuel (timer_interrupt s) := by
    intro fuel
    have hs : { s with intr_code := [] } = s := by rw [← hcode]
    rw [push_external hx, hcode]
    refine (finish_cons (s := { s with intr_code := [.timer_interrupt] ++ [] }) hx rfl).trans ?_
    show exec { s with intr_code := [] } .timer_interrupt >>= finish fuel = _
    rw [hs]
    rfl
  have hticked : SchedInv (timer_interrupt s) := by
    rw [htick]
    exact hk.calm ⟨rfl, rfl, fun _ => rfl, fun _ => rfl, fun _ => Or.inl rfl, rfl, rfl⟩
  have hsorted' : AlarmSorted (timer_interrupt s) := by
    rw [htick]
    exact hsorted
  by_cases hm : s.thread_mlfqs = true
  · -- `mlfqs_tick_change` comes in between
    have hcode1 : (timer_interrupt s).intr_code = [.mlfqs_tick_change, .wake_waiting_list] := by
      rw [htick]
      dsimp only [pushes]
      rw [if_pos hm]
    have hx1 : (timer_interrupt s).in_external_intr = true := by
      rw [htick]
      exact hx
    obtain ⟨r, hr⟩ : ∃ r, r = mlfqs_tick_change { (timer_interrupt s) with
        intr_code := [.wake_waiting_list] } := ⟨_, rfl⟩
    have hframe := effect_frame { (timer_interrupt s) with intr_code := [.wake_waiting_list] }
      .mlfqs_tick_change
    have hthread := effect_thread { (timer_interrupt s) with intr_code := [.wake_waiting_list] }
      (c := .mlfqs_tick_change) (by simp)
    have hpushed := effect_pushed { (timer_interrupt s) with intr_code := [.wake_waiting_list] }
      (c := .mlfqs_tick_change) (by simp)
    have htime : ∀ t, (r.thread t).waking_time = (s.thread t).waking_time := by
      intro t
      rw [hr]
      refine ((hthread t).waking_time (by decide)).trans ?_
      rw [htick]
    have hwaiting : r.waiting_list = s.waiting_list := by
      rw [hr]
      refine (hframe.waiting_list (by simp)).trans ?_
      rw [htick]
    have hready : r.ready_list = s.ready_list := by
      rw [hr]
      refine hframe.ready_list.trans ?_
      rw [htick]
    have hticks : r.ticks = s.ticks + 1 := by
      rw [hr]
      refine (hframe.ticks (by simp)).trans ?_
      rw [htick]
    have hsched : SchedInv r := by
      rw [hr]
      have hpopped : SchedInv { (timer_interrupt s) with intr_code := [.wake_waiting_list] } :=
        hticked.calm ⟨rfl, rfl, fun _ => rfl, fun _ => rfl, fun _ => Or.inl rfl, rfl, rfl⟩
      exact hpopped.calm (Calm.effect (c := .mlfqs_tick_change) id (by rintro t p ⟨⟩))
    obtain ⟨s', hs, hticks', hlist, hnd, hmem⟩ := finish_wake hsched
      (hsorted.congr hwaiting fun t _ => htime t)
      (by rw [hr]; exact hframe.in_external_intr.trans hx1)
      (by
        rw [hr]
        refine hpushed.intr_code.trans ?_
        rw [if_pos hx1]
        rfl)
    refine ⟨4, s', ?_, hticks'.trans hticks, ?_, hnd, fun t => ?_⟩
    · rw [hfirst, finish_cons hx1 hcode1]
      show finish 2 (mlfqs_tick_change { (timer_interrupt s) with
        intr_code := [.wake_waiting_list] }) = .ok s'
      rw [← hr]
      exact hs
    · rw [hlist, hwaiting]
      simp only [hticks, htime]
    · rw [hmem, hwaiting, hready, hticks, htime]
  · have hcode1 : (timer_interrupt s).intr_code = [.wake_waiting_list] := by
      rw [htick]
      dsimp only [pushes]
      rw [if_neg hm]
    obtain ⟨s', hs, hticks, hlist, hnd, hready⟩ := finish_wake hticked hsorted'
      (by rw [htick]; exact hx) hcode1
    rw [htick] at hticks hlist hready
    exact ⟨3, s', (hfirst 2).trans hs, hticks, hlist, hnd, hready⟩

/-- The alarm clock sees nothing of this. -/
def AlarmSame (s s' : Kernel) : Prop :=
  s'.waiting_list = s.waiting_list ∧ ∀ t, (s'.thread t).waking_time = (s.thread t).waking_time

theorem AlarmSame.push (s : Kernel) (l : List Stmt) : AlarmSame s (s.push l) := by
  have hframe := (Frame.refl s .thread_yield).push l
  have hthread := ThreadFrame.push (fun t => ThreadFrame.refl .thread_yield (s.thread t)) l
  exact ⟨hframe.waiting_list (by simp), fun t => (hthread t).waking_time (by decide)⟩

/-- How threads come on `waiting_list` and leave it. -/
structure AlarmStep (s s' : Kernel) (t : Tid) : Prop where
  stays : t ∈ s.waiting_list → (s'.thread t).waking_time = (s.thread t).waking_time ∧
    (t ∈ s'.waiting_list ∨ ((s.thread t).waking_time ≤ s.ticks ∧ t ∈ s'.ready_list))
  comes : t ∉ s.waiting_list → t ∈ s'.waiting_list → t = s.current ∧ ∃ rest,
    (s.thread t).code = .sleep_until (s'.thread t).waking_time :: rest

theorem AlarmSame.step (h : AlarmSame s s') (t : Tid) : AlarmStep s s' t := by
  refine ⟨fun ht => ⟨h.2 t, Or.inl (h.1 ▸ ht)⟩, fun ht ht' => ?_⟩
  rw [h.1] at ht'
  exact absurd ht' ht

/-- A statement is executed, by the running thread or by the handler. -/
theorem exec_alarm_step {r : Kernel} {c : Stmt} (hr : SchedInv r) (hsorted : AlarmSorted r)
    (hsame : AlarmSame s r) (hticks : r.ticks = s.ticks) (hcur : r.current = s.current)
    (hsleep : ∀ n, c = .sleep_until n → ∃ rest, (s.thread s.current).code = c :: rest)
    (hs : exec r c = .ok s') (t : Tid) : AlarmStep s s' t := by
  have htime := fun ht => exec_waking_time hr hs (t := t) ht
  rw [hsame.1, hsame.2] at htime
  rcases exec_waiting_list hr hsorted hs with
    ⟨rfl, hlist, hready⟩ | ⟨n, rfl, hn, less, _, hlist, -⟩ | ⟨-, hlist⟩
  · refine ⟨fun ht => ⟨htime ht, ?_⟩, fun ht ht' => ?_⟩
    · by_cases hdue : (s.thread t).waking_time ≤ s.ticks
      · refine Or.inr ⟨hdue, (hready t).mpr (Or.inr ?_)⟩
        rw [hsame.1, hsame.2, hticks]
        exact ⟨ht, hdue⟩
      · refine Or.inl ?_
        rw [hlist, List.mem_filter, hsame.1, hsame.2, hticks]
        exact ⟨ht, by simpa using hdue⟩
    · rw [hlist] at ht'
      have hmem := (List.mem_filter.mp ht').1
      rw [hsame.1] at hmem
      exact absurd hmem ht
  · refine ⟨fun ht => ⟨htime ht, Or.inl ?_⟩, fun ht ht' => ?_⟩
    · rw [hlist, hsame.1]
      exact mem_insert_ordered.mpr (Or.inr ht)
    · rw [hlist, hsame.1, hcur] at ht'
      obtain rfl := (mem_insert_ordered.mp ht').resolve_right ht
      refine ⟨rfl, ?_⟩
      rw [hcur] at hn
      rw [hn]
      exact hsleep n rfl
  · refine ⟨fun ht => ⟨htime ht, Or.inl ?_⟩, fun ht ht' => ?_⟩
    · rw [hlist, hsame.1]
      exact ht
    · rw [hlist, hsame.1] at ht'
      exact absurd ht' ht

theorem step_alarm_step {e : Event} (hk : KernelInv s) (hsorted : AlarmSorted s)
    (hs : step s e s') (t : Tid) : AlarmStep s s' t := by
  cases e with
  | call c =>
    obtain ⟨-, -, -, -, rfl⟩ := hs
    exact (AlarmSame.push s _).step t
  | idle =>
    obtain ⟨-, -, -, rfl⟩ := hs
    exact (AlarmSame.push s _).step t
  | go =>
    obtain ⟨c, r, hp, hs⟩ := hs
    rcases go_cases hk hp hs with ⟨rest, hgo⟩ | ⟨rest, hgo⟩
    · have hr : r = { s with intr_code := rest } := hgo.popped
      subst hr
      have hsame : AlarmSame s { s with intr_code := rest } := ⟨rfl, fun _ => rfl⟩
      refine exec_alarm_step hgo.inv.sched hsorted hsame rfl rfl (fun n hn => ?_) hs t
      subst hn
      exact absurd hgo.fits id
    · have hsame : AlarmSame s r := by
        rw [hgo.popped]
        refine ⟨rfl, fun u => ?_⟩
        rw [set_thread_apply]
        split_ifs with hu
        · rw [hu]
        · rfl
      refine exec_alarm_step hgo.inv.sched (hsorted.congr hsame.1 fun u _ => hsame.2 u) hsame
        (by rw [hgo.popped]; rfl) hgo.current (fun n _ => ⟨rest, hgo.before⟩) hs t
  | intr =>
    obtain ⟨-, rfl⟩ := hs
    have hsame : AlarmSame s { s with in_external_intr := true, yield_on_return := false } :=
      ⟨rfl, fun _ => rfl⟩
    exact hsame.step t
  | handle c =>
    obtain ⟨-, -, -, rfl⟩ := hs
    exact (AlarmSame.push s _).step t
  | intr_end =>
    obtain ⟨-, -, hs⟩ := hs
    unfold intr_end at hs
    dsimp only at hs
    split_ifs at hs
    · have hsw := thread_yield_switch hs
      have hsame : AlarmSame s s' := ⟨hsw.waiting_list, hsw.waking_time⟩
      exact hsame.step t
    · obtain rfl := Except.ok.inj hs
      have hsame : AlarmSame s { s with in_external_intr := false } := ⟨rfl, fun _ => rfl⟩
      exact hsame.step t

/-- **The alarm clock.** In every state every run reaches, `waiting_list` is in order and its
threads are BLOCKED, each on it once. A timer interrupt makes those that are due ready and
leaves the others. A thread comes on the list in `timer_sleep`, with the time it read plus
`sleep_ticks` as its waking time, and leaves it for `ready_list` when that time has come. -/
theorem alarm_clock {u : Setup} (hr : Reachable (kernel_system u) (fun _ _ => True) s) :
    (s.waiting_list.Pairwise (fun a b => (s.thread a).waking_time ≤ (s.thread b).waking_time) ∧
      s.waiting_list.Nodup ∧ ∀ t ∈ s.waiting_list, (s.thread t).status = .blocked) ∧
    (s.in_external_intr = true → s.intr_code = [] →
      ∃ fuel s', finish fuel (s.push [.timer_interrupt]) = .ok s' ∧ s'.ticks = s.ticks + 1 ∧
        s'.waiting_list = s.waiting_list.filter
          (fun t => s.ticks + 1 < (s.thread t).waking_time) ∧ s'.ready_list.Nodup ∧
        ∀ t, t ∈ s'.ready_list ↔
          t ∈ s.ready_list ∨ (t ∈ s.waiting_list ∧ (s.thread t).waking_time ≤ s.ticks + 1)) ∧
    (∀ c r s' n rest, ThreadGo s c r s' rest → 0 < n → c = .timer_sleep n →
      (s'.thread s.current).code = .sleep_until (s.ticks + n) :: rest) ∧
    ∀ e s', step s e s' → ∀ t, AlarmStep s s' t := by
  have hk := kernel_inv hr
  have hsorted := alarm_sorted hr
  refine ⟨⟨hsorted, hk.sched.lists.waiting_nodup, fun t ht => ?_⟩, ?_, ?_, ?_⟩
  · exact hk.sched.lists.status t _ ((hk.sched.lists.waiting t).mp ht)
  · exact fun hx hcode => timer_interrupt_spec hk.sched hsorted hx hcode
  · rintro c r s' n rest hgo hn rfl
    rw [hgo.after]
    dsimp only [pushes]
    rw [if_neg (not_le.mpr hn), hgo.popped]
    rfl
  · exact fun e s' hs t => step_alarm_step hk hsorted hs t

/-- Thread 2 sleeps for two ticks and the main thread for one, and the timer interrupts. -/
def two_sleepers_run : List Event :=
  create_run 2 31 ++ [.call (.timer_sleep 2), .go, .go, .call (.timer_sleep 1), .go, .go, .go,
    .intr]

/-- One tick later the main thread is ready and thread 2 sleeps still. -/
theorem alarm_clock_two : ∃ s, Reachable (kernel_system plain_setup) (fun _ _ => True) s ∧
    s.waiting_list = [0, 2] ∧ ∃ fuel s', finish fuel (s.push [.timer_interrupt]) = .ok s' ∧
      s'.waiting_list = [2] ∧ 0 ∈ s'.ready_list ∧ 2 ∉ s'.ready_list := by
  obtain ⟨s, hr, hw, hmain, hother, hticks, hready, hx, hcode⟩ := run_reachable (u := plain_setup)
    (fun _ _ => True) (fun s => s.waiting_list = [0, 2] ∧ (s.thread 0).waking_time = 1 ∧
      (s.thread 2).waking_time = 2 ∧ s.ticks = 0 ∧ s.ready_list = [] ∧
      s.in_external_intr = true ∧ s.intr_code = []) two_sleepers_run (.init rfl)
    (by simp [two_sleepers_run, create_run, Event.Allowed, Stmt.Callable]) (by decide +kernel)
  obtain ⟨fuel, s', hs, -, hlist, -, hmem⟩ := (alarm_clock hr).2.1 hx hcode
  refine ⟨s, hr, hw, fuel, s', hs, ?_, (hmem 0).mpr (Or.inr ?_), fun h2 => ?_⟩
  · rw [hlist, hw, hticks]
    simp [hmain, hother]
  · rw [hw, hmain, hticks]
    simp
  · have hold := (hmem 2).mp h2
    rw [hready, hw, hother, hticks] at hold
    simp at hold

end Pintos.Threads.Machine
