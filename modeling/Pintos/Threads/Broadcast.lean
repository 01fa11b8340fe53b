/-
`cond_broadcast`, and the contract of condition variables.

`cond_broadcast` is a loop around `cond_signal`, and `cond_signal` may give up the
processor inside `sema_up`. Its caller holds the lock all the while (`BroadcastAt`), so
nobody else gets through the assertions of `cond_wait` and `cond_signal`: what is on the
list and what was removed since the call is what was on the list at the call.
-/
import Pintos.Threads.Condition

set_option autoImplicit false

namespace Pintos.Threads.Machine

open StepSystem

variable {s s' r : Kernel} {c : Stmt} {rest : List Stmt} {d : CondId} {w : WaiterId} {t : Tid}

/-! ## Callers that hold the lock -/

/-- `cond_wait`, `cond_signal` and `cond_broadcast` are called while holding the lock. -/
def CondOk (s : Kernel) : Event → Prop
  | .call (.cond_wait d) | .call (.cond_signal d) | .call (.cond_broadcast d) =>
    s.holder (s.cond d).lock = some s.current
  | _ => True

instance (s : Kernel) : DecidablePred (CondOk s) := fun e => by
  unfold CondOk
  split <;> infer_instance

/-- Nobody else takes or releases a lock that is held. -/
theorem holder_other (hm : MutexInv s) (hgo : ThreadGo s c r s' rest) {m : LockId}
    (h : s.holder m = some t) (ht : t ≠ s.current) : s'.holder m = some t := by
  refine hm.holder_kept hgo h ?_
  rintro rfl
  exact ht (Option.some.inj (h.symm.trans (release_holder hgo)))

/-- `cond_wait` and `cond_signal` get through their assertions only while holding the lock. -/
theorem cond_assert (hgo : ThreadGo s c r s' rest) (hc : c = .cond_wait d ∨ c = .cond_signal d) :
    s.holder (s.cond d).lock = some s.current := by
  have hholder : r.holder (r.cond d).lock = some r.current := by
    rcases hc with rfl | rfl
    all_goals
      obtain ⟨-, -, hs⟩ := bind_eq_ok hgo.exec
      obtain ⟨_, hassert, -⟩ := bind_eq_ok hs
      exact ASSERT_eq_ok hassert
  rw [hgo.current, hgo.popped] at hholder
  exact hholder

theorem cond_lock_same (hgo : ThreadGo s c r s' rest) (d : CondId) :
    (s'.cond d).lock = (s.cond d).lock := by
  rw [thread_cond hgo]
  split_ifs <;> rfl

/-! ## The loop -/

/-- What is ahead of a thread in `cond_broadcast`, with `n` waiters on the list, and how many
statements that is. -/
inductive Looping (d : CondId) (n : ℕ) : List Stmt → ℕ → Prop
  | loop : Looping d n [.broadcast_loop d] (3 * n + 1)
  | signal (hn : 0 < n) : Looping d n [.cond_signal d, .broadcast_loop d] (3 * n)
  | wake (w : WaiterId) : Looping d n [.cond_wake d w, .broadcast_loop d] (3 * n + 2)

/-- `t` is in the loop of `cond_broadcast`. -/
structure BroadcastAt (s : Kernel) (d : CondId) (t : Tid) : Prop where
  code : ∃ k, Looping d (s.cond d).ids.length (s.thread t).code k
  holds : s.holder (s.cond d).lock = some t
  since : ∃ since before, (s.cond d).log = since ++
    .broadcast t ((s.cond d).ids ++ since.filterMap CondEvent.removed) :: before ∧
      ∀ w, .enter w ∉ since

structure BroadcastInv (s : Kernel) : Prop where
  called : ∀ t d, .cond_broadcast d ∈ (s.thread t).code →
    (s.thread t).code = [.cond_broadcast d] ∧ s.holder (s.cond d).lock = some t
  loop : ∀ t d, .broadcast_loop d ∈ (s.thread t).code → BroadcastAt s d t
  -- `cond_wait` between its assertion and `list_insert_ordered`
  entering : ∀ t d p, .cond_enter d p ∈ (s.thread t).code →
    .cond_enter d p ∉ (s.thread t).code.tail ∧ s.holder (s.cond d).lock = some t

theorem BroadcastAt.congr (h : BroadcastAt s d t) (hcond : s'.cond d = s.cond d)
    (hholder : s'.holder = s.holder) (hcode : (s'.thread t).code = (s.thread t).code) :
    BroadcastAt s' d t := by
  obtain ⟨hloop, hholds, hsince⟩ := h
  refine ⟨?_, ?_, ?_⟩
  · rw [hcond, hcode]
    exact hloop
  · rw [hcond, hholder]
    exact hholds
  · rw [hcond]
    exact hsince

theorem BroadcastInv.congr (h : BroadcastInv s) (hcond : s'.cond = s.cond)
    (hholder : s'.holder = s.holder) (hcode : ∀ t, (s'.thread t).code = (s.thread t).code) :
    BroadcastInv s' := by
  refine ⟨fun t d ht => ?_, fun t d ht => ?_, fun t d p ht => ?_⟩
  · rw [hcode] at ht ⊢
    rw [hcond, hholder]
    exact h.called t d ht
  · rw [hcode] at ht
    exact (h.loop t d ht).congr (by rw [hcond]) hholder (hcode t)
  · rw [hcode] at ht ⊢
    rw [hcond, hholder]
    exact h.entering t d p ht

/-- Whoever is put on the list holds the lock. -/
theorem BroadcastInv.enter_holds {p : ℤ} (h : BroadcastInv s)
    (hgo : ThreadGo s (.cond_enter d p) r s' rest) : s.holder (s.cond d).lock = some s.current := by
  refine (h.entering s.current d p ?_).2
  rw [hgo.before]
  exact List.mem_cons_self

/-! ### Statements of others -/

/-- While a thread holds the lock, others add nothing to a history that matters to it. -/
theorem since_other (hb : BroadcastInv s) (hgo : ThreadGo s c r s' rest) (h : BroadcastAt s d t)
    (ht : t ≠ s.current) :
    (s'.cond d).ids = (s.cond d).ids ∧ ∃ since before, (s'.cond d).log = since ++
      .broadcast t ((s.cond d).ids ++ since.filterMap CondEvent.removed) :: before ∧
        ∀ w, .enter w ∉ since := by
  have hother : s.holder (s.cond d).lock ≠ some s.current := fun hcur =>
    ht (Option.some.inj (h.holds.symm.trans hcur))
  have hwait : ∀ p, c ≠ .cond_enter d p := by
    rintro p rfl
    exact hother (hb.enter_holds hgo)
  have hsignal : c ≠ .cond_signal d := fun heq => hother (cond_assert hgo (Or.inr heq))
  refine ⟨ids_same hgo hwait hsignal, ?_⟩
  obtain ⟨since, before, hlog, henter⟩ := h.since
  by_cases hd : c.cond = some d
  · have hremoved : (logs r c).filterMap CondEvent.removed = [] := by
      rw [List.filterMap_eq_nil_iff]
      intro x hx
      cases x with
      | remove w =>
        obtain ⟨e, -, rfl, -⟩ := remove_mem_logs hx
        exact absurd (Option.some.inj hd ▸ rfl) hsignal
      | _ => rfl
    refine ⟨logs r c ++ since, before, ?_, fun w hw => ?_⟩
    · rw [thread_cond_self hgo hd, List.filterMap_append, hremoved, List.nil_append,
        List.append_assoc, ← hlog]
      rfl
    · rcases List.mem_append.mp hw with hw | hw
      · obtain ⟨-, e, p, rfl⟩ := enter_mem_logs hw
        exact absurd (Option.some.inj hd ▸ rfl) (hwait p)
      · exact henter w hw
  · refine ⟨since, before, ?_, henter⟩
    rw [thread_cond hgo, if_neg hd]
    exact hlog

theorem BroadcastAt.other (h : BroadcastAt s d t) (hb : BroadcastInv s) (hm : MutexInv s)
    (hgo : ThreadGo s c r s' rest) (ht : t ≠ s.current) : BroadcastAt s' d t := by
  obtain ⟨hids, hsince⟩ := since_other hb hgo h ht
  refine ⟨?_, ?_, ?_⟩
  · rw [hids, hgo.code t ht]
    exact h.code
  · rw [cond_lock_same hgo]
    exact holder_other hm hgo h.holds ht
  · rw [hids]
    exact hsince

/-! ### Statements of its own -/

theorem ids_eq_nil {x : Condition} : x.ids = [] ↔ x.waiters = [] := List.map_eq_nil_iff

/-- The thread keeps the lock in statements that write no `holder`. -/
theorem BroadcastAt.keeps (h : BroadcastAt s d t) (hgo : ThreadGo s c r s' rest)
    (hc : c.lock = none) : s'.holder (s'.cond d).lock = some t := by
  rw [cond_lock_same hgo, holder_same hgo (by rw [hc]; simp)]
  exact h.holds

/-- The test of the loop, with waiters left. -/
theorem BroadcastAt.own_loop (h : BroadcastAt s d s.current)
    (hgo : ThreadGo s (.broadcast_loop d) r s' []) (hne : (s.cond d).ids ≠ []) :
    BroadcastAt s' d s.current ∧ (s'.cond d).ids = (s.cond d).ids ∧
      (s'.thread s.current).code = [.cond_signal d, .broadcast_loop d] := by
  have hcond : r.cond = s.cond := by
    rw [hgo.popped]
    rfl
  have hwaiters : ¬ (r.cond d).waiters = [] := by
    rw [hcond]
    exact fun hnil => hne (ids_eq_nil.mpr hnil)
  have hids : (s'.cond d).ids = (s.cond d).ids := ids_same hgo (by simp) (by simp)
  have hcode : (s'.thread s.current).code = [.cond_signal d, .broadcast_loop d] := by
    rw [hgo.after]
    dsimp only [pushes]
    rw [if_neg hwaiters, List.append_nil]
  have hlog : (s'.cond d).log = (s.cond d).log := by
    rw [thread_cond_self hgo rfl]
    dsimp only [cond_after, logs]
    rw [if_neg hwaiters, List.nil_append]
  refine ⟨⟨?_, h.keeps hgo rfl, ?_⟩, hids, hcode⟩
  · rw [hcode, hids]
    exact ⟨_, .signal (List.length_pos_iff.mpr hne)⟩
  · rw [hids, hlog]
    exact h.since

theorem signal_log (hgo : ThreadGo s (.cond_signal d) r s' rest)
    (hlast : (r.cond d).ids.getLast? = some w) :
    (s'.cond d).log = .remove w :: (s.cond d).log := by
  unfold Condition.ids at hlast
  rw [List.getLast?_map] at hlast
  obtain ⟨x, hx, rfl⟩ := Option.map_eq_some_iff.mp hlast
  rw [thread_cond_self hgo rfl]
  dsimp only [cond_after, logs]
  rw [hx]
  rfl

/-- `cond_signal` in the loop: the last waiter goes. -/
theorem BroadcastAt.own_signal (h : BroadcastAt s d s.current)
    (hgo : ThreadGo s (.cond_signal d) r s' [.broadcast_loop d]) (hne : (s.cond d).ids ≠ []) :
    BroadcastAt s' d s.current ∧ (s'.cond d).ids = (s.cond d).ids.dropLast ∧
      ∃ w, (s'.thread s.current).code = [.cond_wake d w, .broadcast_loop d] := by
  have hcond : r.cond = s.cond := by
    rw [hgo.popped]
    rfl
  obtain ⟨l, w, hl⟩ : ∃ l w, (s.cond d).ids = l ++ [w] :=
    ⟨_, _, (List.dropLast_append_getLast hne).symm⟩
  have hlast : (r.cond d).ids.getLast? = some w := by
    rw [hcond, hl, List.getLast?_concat]
  have hids : (s'.cond d).ids = (s.cond d).ids.dropLast := ids_signal hgo
  have hcode : (s'.thread s.current).code = [.cond_wake d w, .broadcast_loop d] := by
    rw [hgo.after, pushes_signal hlast]
    rfl
  have hlog := signal_log hgo hlast
  refine ⟨⟨?_, h.keeps hgo rfl, ?_⟩, hids, w, hcode⟩
  · rw [hcode]
    exact ⟨_, .wake w⟩
  · obtain ⟨since, before, hsince, henter⟩ := h.since
    refine ⟨.remove w :: since, before, ?_, fun x hx => ?_⟩
    · -- the waiter goes from the end of the list to the front of those removed
      have hsplit : (s'.cond d).ids ++ (.remove w :: since).filterMap CondEvent.removed =
          (s.cond d).ids ++ since.filterMap CondEvent.removed := by
        rw [hids, hl, List.dropLast_concat, List.append_assoc]
        rfl
      rw [hsplit, hlog, hsince]
      rfl
    · rcases List.mem_cons.mp hx with hx | hx
      · cases hx
      · exact henter x hx

/-- `sema_up` in the loop. -/
theorem BroadcastAt.own_wake (h : BroadcastAt s d s.current)
    (hgo : ThreadGo s (.cond_wake d w) r s' [.broadcast_loop d]) :
    BroadcastAt s' d s.current ∧ (s'.cond d).ids = (s.cond d).ids ∧
      (s'.thread s.current).code = [.broadcast_loop d] := by
  have hids : (s'.cond d).ids = (s.cond d).ids := ids_same hgo (by simp) (by simp)
  have hcode : (s'.thread s.current).code = [.broadcast_loop d] := hgo.after
  have hlog : (s'.cond d).log = .raise w :: (s.cond d).log := by
    rw [thread_cond_self hgo rfl]
    rfl
  refine ⟨⟨?_, h.keeps hgo rfl, ?_⟩, hids, hcode⟩
  · rw [hcode]
    exact ⟨_, .loop⟩
  · obtain ⟨since, before, hsince, henter⟩ := h.since
    refine ⟨.raise w :: since, before, ?_, fun x hx => ?_⟩
    · rw [hids, hlog, hsince]
      rfl
    · rcases List.mem_cons.mp hx with hx | hx
      · cases hx
      · exact henter x hx

/-- A statement of the thread that broadcasts: one less is ahead, or it was the last one. -/
theorem BroadcastAt.own (h : BroadcastAt s d s.current) (hgo : ThreadGo s c r s' rest) {k : ℕ}
    (hk : Looping d (s.cond d).ids.length (s.thread s.current).code k) :
    (c = .broadcast_loop d ∧ (s.cond d).ids = [] ∧ (s'.thread s.current).code = [] ∧ k = 1) ∨
    (BroadcastAt s' d s.current ∧ ∃ k', k' < k ∧
      Looping d (s'.cond d).ids.length (s'.thread s.current).code k') := by
  have hcond : r.cond = s.cond := by
    rw [hgo.popped]
    rfl
  rw [hgo.before] at hk
  generalize hn : (s.cond d).ids.length = n at hk
  cases hk with
  | loop =>
    by_cases hnil : (s.cond d).ids = []
    · have hwaiters : (r.cond d).waiters = [] := by
        rw [hcond]
        exact ids_eq_nil.mp hnil
      refine Or.inl ⟨rfl, hnil, ?_, ?_⟩
      · rw [hgo.after]
        dsimp only [pushes]
        rw [if_pos hwaiters, List.append_nil]
      · rw [hnil] at hn
        rw [← hn]
        rfl
    · obtain ⟨hat, hids, hcode⟩ := h.own_loop hgo hnil
      refine Or.inr ⟨hat, 3 * n, Nat.lt_succ_self _, ?_⟩
      rw [hcode, hids, hn]
      exact .signal (hn ▸ List.length_pos_iff.mpr hnil)
  | signal hpos =>
    have hne : (s.cond d).ids ≠ [] := List.length_pos_iff.mp (hn ▸ hpos)
    obtain ⟨hat, hids, x, hcode⟩ := h.own_signal hgo hne
    refine Or.inr ⟨hat, 3 * (n - 1) + 2, by omega, ?_⟩
    rw [hcode, hids, List.length_dropLast, hn]
    exact .wake x
  | wake x =>
    obtain ⟨hat, hids, hcode⟩ := h.own_wake hgo
    refine Or.inr ⟨hat, 3 * n + 1, Nat.lt_succ_self _, ?_⟩
    rw [hcode, hids, hn]
    exact .loop

/-- The call. -/
theorem BroadcastAt.start (hgo : ThreadGo s (.cond_broadcast d) r s' [])
    (hholds : s.holder (s.cond d).lock = some s.current) : BroadcastAt s' d s.current := by
  have hids : (s'.cond d).ids = (s.cond d).ids := ids_same hgo (by simp) (by simp)
  have hcond : r.cond = s.cond := by
    rw [hgo.popped]
    rfl
  refine ⟨?_, ?_, [], (s.cond d).log, ?_, fun w hw => absurd hw List.not_mem_nil⟩
  · rw [hgo.after]
    exact ⟨_, .loop⟩
  · rw [cond_lock_same hgo, holder_same hgo (by simp [Stmt.lock])]
    exact hholds
  · rw [hids, List.filterMap_nil, List.append_nil, thread_cond_self hgo rfl, ← hcond,
      ← hgo.current]
    rfl

/-! ## Runs -/

theorem pushes_broadcast : .cond_broadcast d ∉ pushes r c := by
  intro hmem
  have hall : (pushes r c).all (fun x => match x with
      | .cond_broadcast _ => false
      | _ => true) = true := by
    cases c <;> dsimp only [pushes]
    all_goals repeat' split
    all_goals rfl
  cases List.all_eq_true.mp hall _ hmem

theorem pushes_loop (h : .broadcast_loop d ∈ pushes r c) :
    c = .cond_broadcast d ∨ c = .broadcast_loop d := by
  have hnot : ∀ {l : List Stmt}, l.all (fun x => match x with
      | .broadcast_loop _ => false
      | _ => true) = true → .broadcast_loop d ∉ l := by
    intro l hl hmem
    cases List.all_eq_true.mp hl _ hmem
  cases c with
  | cond_broadcast e =>
    have heq : .broadcast_loop d = Stmt.broadcast_loop e := by simpa [pushes] using h
    rw [Stmt.broadcast_loop.inj heq]
    exact Or.inl rfl
  | broadcast_loop e =>
    dsimp only [pushes] at h
    split_ifs at h
    · cases h
    · have heq : .broadcast_loop d = Stmt.broadcast_loop e := by simpa using h
      rw [Stmt.broadcast_loop.inj heq]
      exact Or.inr rfl
  | _ =>
    refine absurd h (hnot ?_)
    dsimp only [pushes]
    repeat' split
    all_goals rfl

theorem pushes_enter {p : ℤ} (h : .cond_enter d p ∈ pushes r c) : c = .cond_wait d := by
  have hnot : ∀ {l : List Stmt}, l.all (fun x => match x with
      | .cond_enter _ _ => false
      | _ => true) = true → .cond_enter d p ∉ l := by
    intro l hl hmem
    cases List.all_eq_true.mp hl _ hmem
  cases c with
  | cond_wait e =>
    have heq : .cond_enter d p = Stmt.cond_enter e r.cur.priority := by simpa [pushes] using h
    rw [(Stmt.cond_enter.inj heq).1]
  | _ =>
    refine absurd h (hnot ?_)
    dsimp only [pushes]
    repeat' split
    all_goals rfl

/-- The call of `cond_wait`, and the statements of others until it has entered. -/
theorem BroadcastInv.entering_thread (h : BroadcastInv s) (hm : MutexInv s)
    (hgo : ThreadGo s c r s' rest) {p : ℤ} (hmem : .cond_enter d p ∈ (s'.thread t).code) :
    .cond_enter d p ∉ (s'.thread t).code.tail ∧ s'.holder (s'.cond d).lock = some t := by
  have hrest : .cond_enter d p ∉ rest := by
    intro hin
    have hcode := hgo.before
    have htail := (h.entering s.current d p (hcode ▸ List.mem_cons_of_mem c hin)).1
    rw [hcode] at htail
    exact htail hin
  rw [cond_lock_same hgo]
  rcases hgo.mem_code hmem with ⟨rfl, hp⟩ | ⟨hold, hin⟩
  · obtain rfl := pushes_enter hp
    rw [hgo.after, holder_same hgo (by simp [Stmt.lock])]
    exact ⟨hrest, cond_assert hgo (Or.inl rfl)⟩
  · have ht : t ≠ s.current := fun ht => hrest (hin ht)
    obtain ⟨htail, hholds⟩ := h.entering t d p hold
    rw [hgo.code t ht]
    exact ⟨htail, holder_other hm hgo hholds ht⟩

theorem BroadcastInv.thread (h : BroadcastInv s) (hm : MutexInv s)
    (hgo : ThreadGo s c r s' rest) : BroadcastInv s' := by
  refine ⟨fun t d hmem => ?_, fun t d hmem => ?_, fun t d p hmem => h.entering_thread hm hgo hmem⟩
  · rcases hgo.mem_code hmem with ⟨-, hp⟩ | ⟨hold, hrest⟩
    · exact absurd hp pushes_broadcast
    obtain ⟨hcode, hholds⟩ := h.called t d hold
    have ht : t ≠ s.current := by
      intro ht
      rw [ht, hgo.before] at hcode
      have hmem' := hrest ht
      rw [(List.cons.inj hcode).2] at hmem'
      cases hmem'
    refine ⟨(hgo.code t ht).trans hcode, ?_⟩
    rw [cond_lock_same hgo]
    exact holder_other hm hgo hholds ht
  · by_cases ht : t = s.current
    swap
    · rw [hgo.code t ht] at hmem
      exact (h.loop t d hmem).other h hm hgo ht
    subst ht
    by_cases hold : .broadcast_loop d ∈ (s.thread s.current).code
    · have hat := h.loop s.current d hold
      obtain ⟨k, hk⟩ := hat.code
      rcases hat.own hgo hk with ⟨-, -, hnil, -⟩ | ⟨hat', -⟩
      · rw [hnil] at hmem
        cases hmem
      · exact hat'
    · have hcall : c = .cond_broadcast d := by
        rcases hgo.mem_code hmem with ⟨-, hp⟩ | ⟨hmem', -⟩
        · refine (pushes_loop hp).resolve_right fun hc => hold ?_
          rw [hgo.before, hc]
          exact List.mem_cons_self
        · exact absurd hmem' hold
      subst hcall
      obtain ⟨hcode, hholds⟩ := h.called s.current d (by rw [hgo.before]; exact List.mem_cons_self)
      have hrest : rest = [] := by
        rw [hgo.before] at hcode
        exact (List.cons.inj hcode).2
      subst hrest
      exact BroadcastAt.start hgo hholds

theorem BroadcastInv.push {l : List Stmt} (h : BroadcastInv s) (hx : s.in_external_intr = false)
    (hcur : s.cur.code = []) (hl : ∀ d, .broadcast_loop d ∉ l)
    (henter : ∀ d p, .cond_enter d p ∉ l)
    (hcall : ∀ d, .cond_broadcast d ∈ l → l = [.cond_broadcast d] ∧
      s.holder (s.cond d).lock = some s.current) : BroadcastInv (s.push l) := by
  have hcur' : (s.thread s.current).code = [] := hcur
  have hself : ((s.push l).thread s.current).code = l := by
    rw [push_code, if_pos ⟨hx, rfl⟩, hcur', List.append_nil]
  have hother : ∀ t, t ≠ s.current → ((s.push l).thread t).code = (s.thread t).code := by
    intro t ht
    rw [push_code, if_neg fun hc => ht hc.2]
  refine ⟨fun t d hmem => ?_, fun t d hmem => ?_, fun t d p hmem => ?_⟩
  · rw [push_holder, push_cond]
    by_cases ht : t = s.current
    · subst ht
      rw [hself] at hmem ⊢
      exact hcall d hmem
    · rw [hother t ht] at hmem ⊢
      exact h.called t d hmem
  · by_cases ht : t = s.current
    · subst ht
      rw [hself] at hmem
      exact absurd hmem (hl d)
    · rw [hother t ht] at hmem
      exact (h.loop t d hmem).congr (by rw [push_cond]) (by rw [push_holder]) (hother t ht)
  · rw [push_holder, push_cond]
    by_cases ht : t = s.current
    · subst ht
      rw [hself] at hmem
      exact absurd hmem (henter d p)
    · rw [hother t ht] at hmem ⊢
      exact h.entering t d p hmem

/-- Handlers have no part in locks. -/
theorem handler_holder (hgo : HandlerGo s c r s' rest) : s'.holder = s.holder := by
  have hfits := hgo.fits
  funext m
  rw [exec_holder hgo.exec, (effect_frame r c).holder m, hgo.popped]
  intro hc
  cases c with
  | lock_hold | lock_release => exact hfits
  | _ => cases hc

theorem BroadcastInv.step {e : Event} (h : BroadcastInv s) (hk : KernelInv s) (hm : MutexInv s)
    (hok : CondOk s e) (hs : step s e s') : BroadcastInv s' := by
  cases e with
  | call c =>
    obtain ⟨hx, -, hcur, hc, rfl⟩ := hs
    refine h.push hx hcur (fun d hd => ?_) (fun d p hd => ?_) fun d hd => ?_
    · obtain rfl := List.mem_singleton.mp hd
      exact hc
    · obtain rfl := List.mem_singleton.mp hd
      exact hc
    · obtain rfl := List.mem_singleton.mp hd
      exact ⟨rfl, hok⟩
  | idle =>
    obtain ⟨hx, -, hcur, rfl⟩ := hs
    exact h.push hx hcur (by simp) (by simp) (by simp)
  | go =>
    obtain ⟨c, r, hp, hs⟩ := hs
    rcases go_cases hk hp hs with ⟨rest, hgo⟩ | ⟨rest, hgo⟩
    · exact h.congr (handler_cond hgo) (handler_holder hgo) hgo.code
    · exact h.thread hm hgo
  | intr =>
    obtain ⟨-, rfl⟩ := hs
    exact h.congr rfl rfl fun _ => rfl
  | handle c =>
    obtain ⟨hx, -, -, rfl⟩ := hs
    refine h.congr (by rw [push_cond]) (by rw [push_holder]) fun t => ?_
    rw [push_code, if_neg fun hc => absurd (hx.symm.trans hc.1) (by decide)]
  | intr_end =>
    obtain ⟨-, -, hs⟩ := hs
    have hout : BroadcastInv { s with in_external_intr := false } := h.congr rfl rfl fun _ => rfl
    unfold intr_end at hs
    dsimp only at hs
    split_ifs at hs
    · have hsw := thread_yield_switch hs
      exact hout.congr hsw.cond hsw.holder hsw.code
    · obtain rfl := Except.ok.inj hs
      exact hout

theorem broadcast_inv {u : Setup} (hr : Reachable (kernel_system u) CondOk s) :
    BroadcastInv s := by
  have hboth : MutexInv s ∧ BroadcastInv s := by
    refine reachable_rule (P := fun r => MutexInv r ∧ BroadcastInv r) hr ?_
      fun r e r' hk hi hok hs => ?_
    · refine ⟨MutexInv.thread_start u, fun t d hmem => ?_, fun t d hmem => ?_, fun t d p hmem => ?_⟩
      · cases thread_start_code u t _ hmem
      · cases thread_start_code u t _ hmem
      · cases thread_start_code u t _ hmem
    · exact ⟨hi.1.step hk hs, hi.2.step hk hi.1 hok hs⟩
  exact hboth.2

/-- What a statement adds to a history follows. -/
theorem LogOk.thread {u : Setup} (h : ∀ d, LogOk (s.cond d).log) (hi : CondInv s)
    (hsema : SemaInv u s) (hb : BroadcastInv s) (hgo : ThreadGo s c r s' rest) (d : CondId) :
    LogOk (s'.cond d).log := by
  have hcond : r.cond = s.cond := by
    rw [hgo.popped]
    rfl
  have hnext : r.next_waiter = s.next_waiter := by
    rw [hgo.popped]
    rfl
  have hmem : c ∈ (s.thread s.current).code := by
    rw [hgo.before]
    exact List.mem_cons_self
  rw [thread_cond hgo]
  by_cases hd : c.cond = some d
  swap
  · rw [if_neg hd]
    exact h d
  rw [if_pos hd]
  dsimp only [cond_after]
  cases c with
  | cond_enter e p =>
    obtain rfl := Option.some.inj hd
    refine ⟨?_, h e⟩
    rw [hnext]
    exact hi.entered.new
  | cond_return e w =>
    obtain rfl := Option.some.inj hd
    exact ⟨⟨hi.return_raised hsema hgo.before, (hi.returns.entered s.current e w hmem).2⟩, h e⟩
  | cond_signal e =>
    obtain rfl := Option.some.inj hd
    dsimp only [logs]
    rw [hcond]
    cases hl : (s.cond e).waiters.getLast? with
    | none => exact h e
    | some x => exact ⟨hi.entered.last hl, h e⟩
  | cond_wake e w =>
    obtain rfl := Option.some.inj hd
    exact ⟨hi.wakes.wake s.current e w hmem, h e⟩
  | cond_broadcast e =>
    obtain rfl := Option.some.inj hd
    refine ⟨?_, h e⟩
    rw [hcond]
    exact ⟨hi.entered.nodup e, hi.entered.ids e⟩
  | broadcast_loop e =>
    obtain rfl := Option.some.inj hd
    dsimp only [logs]
    rw [hcond, hgo.current]
    split_ifs with hnil
    · obtain ⟨since, before, hlog, henter⟩ := (hb.loop s.current e hmem).since
      rw [ids_eq_nil.mpr hnil, List.nil_append] at hlog
      exact ⟨⟨since, _, before, hlog, rfl, henter⟩, h e⟩
    · exact h e
  | _ => cases hd

theorem log_ok {u : Setup} (hr : Reachable (kernel_system u) CondOk s) (d : CondId) :
    LogOk (s.cond d).log := by
  revert d
  induction hr with
  | init h =>
    obtain rfl := h
    exact fun d => trivial
  | step hr hok hs ih =>
    refine step_rule (P := fun r => ∀ d, LogOk (r.cond d).log) (kernel_inv hr)
      (fun r r' hsw hr => ?_) (fun _ _ => ih) (fun l _ _ _ => ?_) (fun c _ _ _ => ?_)
      (fun c r rest hgo => ?_) (fun c r rest hgo => ?_) hs
    · rw [hsw.cond]
      exact hr
    · rw [push_cond]
      exact ih
    · rw [push_cond]
      exact ih
    · rw [handler_cond hgo]
      exact ih
    · exact LogOk.thread ih (cond_inv hr) (sema_inv hr) (broadcast_inv hr) hgo

/-! ## The loop comes to its end -/

theorem schedule_ok (h : s.cur.status ≠ .running) : ∃ s', schedule s = .ok s' := by
  unfold schedule
  rw [ASSERT_pos h, ok_bind]
  exact ⟨_, rfl⟩

theorem thread_yield_ok (hi : SchedInv s) (hx : s.in_external_intr = false) :
    ∃ s', thread_yield s = .ok s' := by
  unfold thread_yield
  rw [ASSERT_pos hx, ok_bind]
  dsimp only
  split_ifs
  · refine schedule_ok ?_
    show ((s.set_thread s.current (fun th => { th with status := .ready })).thread
      s.current).status ≠ .running
    rw [set_thread_self]
    exact Status.noConfusion
  · unfold make_ready
    rw [if_pos hi.unlinked, ok_bind]
    refine schedule_ok ?_
    show ((s.set_thread s.current (fun th => { th with
      status := .ready, elem := some .ready_list })).thread s.current).status ≠ .running
    rw [set_thread_self]
    exact Status.noConfusion

theorem thread_unblock_ok (hi : SchedInv s) (hx : s.in_external_intr = false)
    (hidle : t ≠ s.idle_thread) (hblocked : (s.thread t).status = .blocked)
    (helem : (s.thread t).elem = none) : ∃ s', thread_unblock s t = .ok s' := by
  obtain ⟨r, hr⟩ : ∃ r, make_ready s t = .ok r := by
    unfold make_ready
    rw [if_pos helem]
    exact ⟨_, rfl⟩
  have hready : SchedInv r := hi.make_ready hidle (by rw [hblocked]; decide) hr
  unfold thread_unblock
  rw [ASSERT_pos hblocked, ok_bind, hr, ok_bind, ASSERT_pos hready.running, ok_bind]
  split_ifs
  · exact thread_yield_ok hready ((make_ready_switch hr).in_external_intr.trans hx)
  · exact ⟨r, rfl⟩

theorem sema_up_ok (hi : SchedInv s) (hx : s.in_external_intr = false) (i : SemaId) :
    ∃ s', sema_up s i = .ok s' := by
  unfold sema_up
  cases hw : (s.sema i).waiters.getLast? with
  | none => exact ⟨_, rfl⟩
  | some w =>
    have hmem := (hi.lists.waiters i w).mp (List.mem_of_getLast? hw)
    have hleave := hi.leave_waiters (f := fun x => { x with
      value := x.value + 1
      ups := x.ups + 1
      waiters := x.waiters.dropLast
      removed := x.removed ++ [w] }) (fun _ => rfl) hw
    refine thread_unblock_ok hleave hx (hi.lists.ne_idle hmem) ?_ ?_
    · rw [set_thread_self]
      exact hi.lists.status w _ hmem
    · rw [set_thread_self]

theorem cond_signal_ok (hx : s.in_external_intr = false)
    (hholds : s.holder (s.cond d).lock = some s.current) : ∃ s', cond_signal s d = .ok s' := by
  unfold cond_signal
  rw [ASSERT_pos hx, ok_bind, ASSERT_pos hholds, ok_bind]
  split
  · exact ⟨_, rfl⟩
  · exact ⟨_, rfl⟩

theorem cond_wake_ok (hi : SchedInv s) (hx : s.in_external_intr = false) (d : CondId)
    (w : WaiterId) : ∃ s', cond_wake s d w = .ok s' := by
  have hcalm : Calm s (s.set_cond d (fun x => { x with log := .raise w :: x.log })) :=
    ⟨rfl, rfl, fun _ => rfl, fun _ => rfl, fun _ => Or.inl rfl, rfl, rfl⟩
  exact sema_up_ok (hi.calm hcalm) hx (.waiter w)

theorem pop_thread (hx : s.in_external_intr = false)
    (hcode : (s.thread s.current).code = c :: rest) :
    pop_stmt s = some (c, s.set_thread s.current (fun th => { th with code := rest })) := by
  unfold pop_stmt
  rw [hx, hcode]
  rfl

/-- The thread that broadcasts is never stuck. -/
theorem BroadcastAt.progress (h : BroadcastAt s d s.current) (hk : KernelInv s)
    (hx : s.in_external_intr = false) : ∃ s', step s .go s' := by
  obtain ⟨k, hloop⟩ := h.code
  generalize hcode : (s.thread s.current).code = code at hloop
  cases hloop with
  | loop => exact ⟨_, _, _, pop_thread hx hcode, rfl⟩
  | signal hn =>
    have hp := pop_thread hx hcode
    obtain ⟨s', hs⟩ := cond_signal_ok (s := s.set_thread s.current (fun th => { th with
      code := [.broadcast_loop d] })) (d := d) hx h.holds
    exact ⟨s', _, _, hp, hs⟩
  | wake w =>
    have hp := pop_thread hx hcode
    obtain ⟨s', hs⟩ := cond_wake_ok (hk.pop hp).1.sched hx d w
    exact ⟨s', _, _, hp, hs⟩

/-- A step that is not its own leaves the thread that broadcasts where it is. -/
theorem BroadcastAt.waits (h : BroadcastAt s d t) (hb : BroadcastInv s) (hk : KernelInv s)
    {e : Event} (hs : step s e s')
    (hother : ¬ (e = .go ∧ s.current = t ∧ s.in_external_intr = false)) {k : ℕ}
    (hloop : Looping d (s.cond d).ids.length (s.thread t).code k) :
    Looping d (s'.cond d).ids.length (s'.thread t).code k := by
  have hsame : ∀ r : Kernel, r.cond = s.cond → (r.thread t).code = (s.thread t).code →
      Looping d (r.cond d).ids.length (r.thread t).code k := by
    intro r hcond hcode
    rw [hcond, hcode]
    exact hloop
  have hne : (s.thread t).code ≠ [] := by
    intro hnil
    rw [hnil] at hloop
    cases hloop
  -- a call is by a thread that has nothing ahead
  have hpush : ∀ l, (s.in_external_intr = false → s.cur.code = []) →
      Looping d ((s.push l).cond d).ids.length ((s.push l).thread t).code k := by
    intro l hcur
    refine hsame _ (by rw [push_cond]) ?_
    rw [push_code, if_neg]
    rintro ⟨hx, rfl⟩
    exact hne (hcur hx)
  cases e with
  | call c =>
    obtain ⟨-, -, hcur, -, rfl⟩ := hs
    exact hpush [c] fun _ => hcur
  | idle =>
    obtain ⟨-, -, hcur, rfl⟩ := hs
    exact hpush _ fun _ => hcur
  | go =>
    obtain ⟨c, r, hp, hs⟩ := hs
    rcases go_cases hk hp hs with ⟨rest, hgo⟩ | ⟨rest, hgo⟩
    · exact hsame s' (handler_cond hgo) (hgo.code t)
    · have ht : t ≠ s.current := fun heq => hother ⟨rfl, heq.symm, hgo.context⟩
      rw [(since_other hb hgo h ht).1, hgo.code t ht]
      exact hloop
  | intr =>
    obtain ⟨-, rfl⟩ := hs
    exact hloop
  | handle c =>
    obtain ⟨hx, -, -, rfl⟩ := hs
    exact hpush [c] fun hout => absurd (hx.symm.trans hout) (by decide)
  | intr_end =>
    obtain ⟨-, -, hs⟩ := hs
    unfold intr_end at hs
    dsimp only at hs
    split_ifs at hs
    · have hsw := thread_yield_switch hs
      exact hsame s' hsw.cond (hsw.code t)
    · obtain rfl := Except.ok.inj hs
      exact hloop

/-- A step of its own: less is ahead, or the broadcast is over. -/
theorem BroadcastAt.goes (h : BroadcastAt s d s.current) (hk : KernelInv s)
    (hx : s.in_external_intr = false) (hs : step s .go s') {k : ℕ}
    (hloop : Looping d (s.cond d).ids.length (s.thread s.current).code k) :
    (∃ k', k' < k ∧ Looping d (s'.cond d).ids.length (s'.thread s.current).code k') ∨
    ((s'.thread s.current).code = [] ∧
      (s'.cond d).log = .finish s.current :: (s.cond d).log) := by
  obtain ⟨c, r, hp, hs⟩ := hs
  rcases go_cases hk hp hs with ⟨rest, hgo⟩ | ⟨rest, hgo⟩
  · exact absurd (hgo.context.symm.trans hx) (by decide)
  rcases h.own hgo hloop with ⟨rfl, hnil, hcode, -⟩ | ⟨-, hless⟩
  · refine Or.inr ⟨hcode, ?_⟩
    have hwaiters : (r.cond d).waiters = [] := by
      rw [hgo.popped]
      exact ids_eq_nil.mp hnil
    rw [thread_cond_self hgo rfl]
    dsimp only [cond_after, logs]
    rw [if_pos hwaiters, hgo.current]
    rfl
  · exact Or.inl hless

/-! ## The contract -/

/-- **Condition variables.** Where they are used with the lock held: every history keeps to the
life of its waiters, entered, removed, raised, left, once each; a broadcast has removed at its
end those that were there at its beginning. `cond_signal` on a list that is not empty removes
the last waiter, and raising it is the next statement of the thread; the semaphore of a waiter
that was removed has been upped once, or one thread is about to up it. A thread in
`cond_broadcast` is never stuck, and each of its statements brings it closer to the end,
which no other step puts off. -/
theorem cond_contract {u : Setup} (hr : Reachable (kernel_system u) CondOk s) :
    (∀ d, LogOk (s.cond d).log) ∧
    (∀ d r s' rest, ThreadGo s (.cond_signal d) r s' rest → (s.cond d).ids ≠ [] →
      ∃ l w, (s.cond d).ids = l ++ [w] ∧ (s'.cond d).ids = l ∧
        (s'.cond d).log = .remove w :: (s.cond d).log ∧
        (s'.thread s.current).code = .cond_wake d w :: rest) ∧
    (∀ d w, .remove w ∈ (s.cond d).log →
      (.raise w ∈ (s.cond d).log ∧ (s.sema (.waiter w)).ups = 1) ∨
      (.raise w ∉ (s.cond d).log ∧ (s.sema (.waiter w)).ups = 0 ∧
        ∃! t, (s.thread t).code.head? = some (.cond_wake d w))) ∧
    ∀ d t, .broadcast_loop d ∈ (s.thread t).code →
      ∃ k, Looping d (s.cond d).ids.length (s.thread t).code k ∧
        (s.current = t → s.in_external_intr = false → ∃ s', step s .go s') ∧
        (∀ e s', step s e s' → ¬ (e = .go ∧ s.current = t ∧ s.in_external_intr = false) →
          Looping d (s'.cond d).ids.length (s'.thread t).code k) ∧
        ∀ s', step s .go s' → s.current = t → s.in_external_intr = false →
          (∃ k', k' < k ∧ Looping d (s'.cond d).ids.length (s'.thread t).code k') ∨
          ((s'.thread t).code = [] ∧ (s'.cond d).log = .finish t :: (s.cond d).log) := by
  have hk := kernel_inv hr
  have hi := cond_inv hr
  refine ⟨log_ok hr, fun d r s' rest hgo hne => ?_, fun d w hremove => ?_, fun d t hmem => ?_⟩
  · have hcond : r.cond = s.cond := by
      rw [hgo.popped]
      rfl
    obtain ⟨l, w, hl⟩ : ∃ l w, (s.cond d).ids = l ++ [w] :=
      ⟨_, _, (List.dropLast_append_getLast hne).symm⟩
    have hlast : (r.cond d).ids.getLast? = some w := by rw [hcond, hl, List.getLast?_concat]
    refine ⟨l, w, hl, ?_, signal_log hgo hlast, ?_⟩
    · rw [ids_signal hgo, hl, List.dropLast_concat]
    · rw [hgo.after, pushes_signal hlast]
      rfl
  · by_cases hraise : .raise w ∈ (s.cond d).log
    · exact Or.inl ⟨hraise, hi.upped.raised d w hraise⟩
    have hmem : ∀ t, (s.thread t).code.head? = some (.cond_wake d w) →
        .cond_wake d w ∈ (s.thread t).code := fun t ht => List.mem_of_mem_head? ht
    obtain ⟨t, ht⟩ := hi.wakes.pending d w hremove hraise
    refine Or.inr ⟨hraise, hi.upped.zero hi.entered hi.wakes hremove hraise, t,
      hi.wakes.head ht, fun t' ht' => ?_⟩
    exact hi.wakes.one t' t d w (hmem t' ht') ht
  · have hb := broadcast_inv hr
    have hat := hb.loop t d hmem
    obtain ⟨k, hloop⟩ := hat.code
    refine ⟨k, hloop, ?_, fun e s' hs hother => hat.waits hb hk hs hother hloop, ?_⟩
    · rintro rfl hx
      exact hat.progress hk hx
    · rintro s' hs rfl hx
      exact hat.goes hk hx hs hloop

/-- A thread of the main thread's priority, which waits for condition variable 0. -/
def cond_waiter_run (t : Tid) : List Event :=
  create_run t 31 ++ acquire_run 0 ++ .call (.cond_wait 0) :: List.replicate 6 .go

/-- Two threads wait and the main thread calls `cond_broadcast`, up to the last test of the
loop. Either of the two goes as far as `lock_acquire` when it is woken. -/
def broadcast_run : List Event :=
  cond_waiter_run 2 ++ cond_waiter_run 3 ++ acquire_run 0 ++ .call (.cond_broadcast 0) ::
    List.replicate 17 .go

theorem cond_contract_broadcast : ∃ s, Reachable (kernel_system plain_setup) CondOk s ∧
    (s.cond 0).log = [.raise 1, .remove 1, .raise 0, .remove 0, .broadcast 0 [1, 0], .enter 1,
      .enter 0] ∧ LogOk (s.cond 0).log ∧ (s.thread 0).code = [.broadcast_loop 0] ∧
    ∃ s', step s .go s' := by
  obtain ⟨s, hr, hlog, hcode, hcur, hx⟩ := run_reachable (u := plain_setup) CondOk
    (fun s => (s.cond 0).log = [.raise 1, .remove 1, .raise 0, .remove 0, .broadcast 0 [1, 0],
      .enter 1, .enter 0] ∧ (s.thread 0).code = [.broadcast_loop 0] ∧ s.current = 0 ∧
      s.in_external_intr = false) broadcast_run (.init rfl)
    (by simp [broadcast_run, cond_waiter_run, create_run, acquire_run, Event.Allowed,
      Stmt.Callable])
    (by decide +kernel)
  obtain ⟨hok, -, -, hloop⟩ := cond_contract hr
  obtain ⟨-, -, hgo, -⟩ := hloop 0 0 (by rw [hcode]; exact List.mem_cons_self)
  exact ⟨s, hr, hlog, hok 0, hcode, hgo hcur hx⟩

end Pintos.Threads.Machine
