/-
`nested_donation` and `priority_donation`.

The recursion visits the walk from the holder, and the priority it carries stays
the donor's on the way. It returns unless the donor is itself on that walk: the
link `priority_donation` has just made then closes a circle.
-/
import Pintos.Threads.LockState

set_option autoImplicit false

namespace Pintos.Threads

open StepSystem Links

/-! ## The walk of `nested_donation` -/

theorem nested_donation_last {fuel : ℕ} {s : LockSys} {high medium : Tid}
    (h : (s.thread medium).holded_by = none) :
    nested_donation (fuel + 1) s high medium = .ok s := by
  unfold nested_donation
  rw [h]

theorem nested_donation_next {fuel : ℕ} {s : LockSys} {high medium low : Tid}
    (h : walk_next s medium = some low) : nested_donation (fuel + 1) s high medium
      = nested_donation fuel (s.set_priority low (s.priority high)) medium low := by
  unfold walk_next at h
  obtain ⟨m, hm, hlow⟩ := Option.bind_eq_some_iff.mp h
  conv_lhs => unfold nested_donation
  rw [hm]
  simp only [hlow]

/-- A call that returns is at the end of the walk or goes on with the next thread. -/
theorem nested_donation_cases {fuel : ℕ} {s s' : LockSys} {high medium : Tid}
    (h : nested_donation (fuel + 1) s high medium = .ok s') :
    (walk_next s medium = none ∧ s' = s) ∨ ∃ low, walk_next s medium = some low ∧
      nested_donation fuel (s.set_priority low (s.priority high)) medium low = .ok s' := by
  cases hw : walk_next s medium with
  | some low =>
    rw [nested_donation_next hw] at h
    exact Or.inr ⟨low, rfl, h⟩
  | none =>
    unfold nested_donation at h
    cases hb : (s.thread medium).holded_by with
    | none =>
      rw [hb] at h
      exact Or.inl ⟨rfl, (Except.ok.inj h).symm⟩
    | some m =>
      -- a link to a free lock is not followed
      unfold walk_next at hw
      rw [hb, Option.bind_some] at hw
      rw [hb] at h
      simp only [hw] at h
      cases h

open Classical in
/-- **`nested_donation` when it returns.** Started with `high` and `medium` at one
priority, it has given that priority to every thread on the walk from `medium`, and
changed nothing else. -/
theorem nested_donation_spec {fuel : ℕ} : ∀ {s s' : LockSys} {high medium : Tid},
    s.priority high = s.priority medium → nested_donation fuel s high medium = .ok s' →
    SameLinks s s' ∧ ∀ t, s'.thread t = { s.thread t with
      priority := if OnWalk s medium t then s.priority medium else s.priority t } := by
  induction fuel with
  | zero =>
    intro s s' high medium _ h
    unfold nested_donation at h
    cases h
  | succ fuel ih =>
    intro s s' high medium hp h
    unfold OnWalk
    rcases nested_donation_cases h with ⟨hend, rfl⟩ | ⟨low, hnext, hrec⟩
    · refine ⟨SameLinks.refl s', fun t => ?_⟩
      rw [reaches_of_none hend]
      split_ifs with ht
      · rw [ht]
      · rfl
    · -- the recursive call starts with `medium` and `low` at the same priority again
      have hlow : (s.set_priority low (s.priority high)).priority low = s.priority medium := by
        unfold LockSys.priority
        rw [set_priority_thread, if_pos rfl]
        exact hp
      have hmed : (s.set_priority low (s.priority high)).priority medium
          = s.priority medium := by
        unfold LockSys.priority
        rw [set_priority_thread]
        split_ifs
        · exact hp
        · rfl
      have hsame := SameLinks.set_priority s low (s.priority high)
      obtain ⟨hlinks, hthread⟩ := ih (hmed.trans hlow.symm) hrec
      refine ⟨hsame.trans hlinks, fun t => ?_⟩
      rw [hthread t, hlow]
      unfold OnWalk LockSys.priority
      rw [hsame.walk_next, reaches_of_some hnext, set_priority_thread]
      by_cases htl : t = low
      · subst htl
        rw [if_pos rfl, if_pos (Reaches.refl t), if_pos (Or.inr (Reaches.refl t))]
      · rw [if_neg htl]
        by_cases htm : medium = t
        · subst htm
          rw [if_pos (Or.inl rfl)]
          split_ifs <;> rfl
        · simp only [htm, false_or]

/-- A walk that returned has come to an end. -/
theorem nested_donation_end {fuel : ℕ} : ∀ {s s' : LockSys} {high medium : Tid},
    nested_donation fuel s high medium = .ok s' →
    ∃ c, OnWalk s medium c ∧ walk_next s c = none := by
  induction fuel with
  | zero =>
    intro s s' high medium h
    unfold nested_donation at h
    cases h
  | succ fuel ih =>
    intro s s' high medium h
    rcases nested_donation_cases h with ⟨hend, -⟩ | ⟨low, hnext, hrec⟩
    · exact ⟨medium, Reaches.refl _, hend⟩
    · obtain ⟨c, hc, hend⟩ := ih hrec
      unfold OnWalk at hc
      rw [(SameLinks.set_priority s low _).walk_next] at hc hend
      exact ⟨c, Reaches.head hnext hc, hend⟩

/-- **`nested_donation` returns** where the links go down in a rank and none of
them leads to a free lock. -/
theorem nested_donation_returns {rank : Tid → ℕ} : ∀ (n : ℕ) {s : LockSys} {high medium : Tid},
    rank medium ≤ n → (∀ t u, walk_next s t = some u → rank u < rank t) →
    (∀ t m, (s.thread t).holded_by = some m → s.holder m ≠ none) →
    ∃ fuel s', nested_donation fuel s high medium = .ok s' := by
  -- on the rank of `medium`; the links do not change on the way
  intro n
  induction n with
  | zero =>
    intro s high medium hn hrank hheld
    cases hb : (s.thread medium).holded_by with
    | none => exact ⟨1, s, nested_donation_last hb⟩
    | some m =>
      obtain ⟨low, hlow⟩ := Option.ne_none_iff_exists'.mp (hheld medium m hb)
      have hlt := hrank medium low (by unfold walk_next; rw [hb]; exact hlow)
      omega
  | succ n ih =>
    intro s high medium hn hrank hheld
    cases hb : (s.thread medium).holded_by with
    | none => exact ⟨1, s, nested_donation_last hb⟩
    | some m =>
      obtain ⟨low, hlow⟩ := Option.ne_none_iff_exists'.mp (hheld medium m hb)
      have hnext : walk_next s medium = some low := by
        unfold walk_next
        rw [hb]
        exact hlow
      have hlt := hrank medium low hnext
      have hsame := SameLinks.set_priority s low (s.priority high)
      have hrec : ∃ fuel s',
          nested_donation fuel (s.set_priority low (s.priority high)) medium low = .ok s' := by
        apply ih
        · omega
        · rw [hsame.walk_next]
          exact hrank
        · intro t m' ht
          rw [hsame.holded_by] at ht
          exact hheld t m' ht
      obtain ⟨fuel, s', hrun⟩ := hrec
      exact ⟨fuel + 1, s', (nested_donation_next hnext).trans hrun⟩

/-! ## `priority_donation` -/

/-- The state in which `priority_donation` calls `nested_donation`. -/
def donation_start (s : LockSys) (high low : Tid) (lock : LockId) : LockSys :=
  let member : LockElem := ⟨s.priority high, lock, high⟩
  let s := s.set_thread low (fun th => { th with
    possessing_locks := list_insert_ordered less_lock_priority th.possessing_locks member })
  let s := s.set_thread high (fun th => { th with holded_by := some lock })
  s.set_priority low (s.priority high)

theorem priority_donation_eq (fuel : ℕ) (s : LockSys) (high low : Tid) (lock : LockId) :
    priority_donation fuel s high low lock
      = nested_donation fuel (donation_start s high low lock) high low := rfl

open Classical in
/-- What a donation that returns has done. -/
structure Donated (s : LockSys) (high low : Tid) (m : LockId) (s' : LockSys) : Prop where
  lock : s'.lock = s.lock
  thread : ∀ t, s'.thread t = { s.thread t with
    priority := if OnWalk s low t then s.priority high else s.priority t
    possessing_locks := if t = low then list_insert_ordered less_lock_priority
      (s.thread low).possessing_locks ⟨s.priority high, m, high⟩
      else (s.thread t).possessing_locks
    holded_by := if t = high then some m else (s.thread t).holded_by }
  ends : ¬ OnWalk s low high

theorem Donated.priority_of_onWalk {s r : LockSys} {high low u : Tid} {m : LockId}
    (h : Donated s high low m r) (hu : OnWalk s low u) : r.priority u = s.priority high := by
  unfold LockSys.priority
  rw [h.thread]
  exact if_pos hu

theorem Donated.priority_of_not {s r : LockSys} {high low u : Tid} {m : LockId}
    (h : Donated s high low m r) (hu : ¬ OnWalk s low u) : r.priority u = s.priority u := by
  unfold LockSys.priority
  rw [h.thread]
  exact if_neg hu

/-- The records after a donation: the donor is on record with the holder. -/
theorem Donated.mem_records {s r : LockSys} {high low u : Tid} {m : LockId}
    (h : Donated s high low m r) (e : LockElem) : e ∈ (r.thread u).possessing_locks ↔
      (u = low ∧ e = ⟨s.priority high, m, high⟩) ∨ e ∈ (s.thread u).possessing_locks := by
  rw [h.thread]
  dsimp only
  by_cases hu : u = low
  · subst hu
    rw [if_pos rfl, (list_insert_ordered_perm _ _ _).mem_iff, List.mem_cons]
    simp only [true_and]
  · rw [if_neg hu]
    simp only [hu, false_and, false_or]

section Start

variable {s : LockSys} {high low : Tid} {m : LockId} (hne : low ≠ high)
  (hlow : s.holder m = some low)

include hne in
theorem donation_start_thread (t : Tid) : (donation_start s high low m).thread t
    = { s.thread t with
      priority := if t = low then s.priority high else s.priority t
      possessing_locks := if t = low then list_insert_ordered less_lock_priority
        (s.thread low).possessing_locks ⟨s.priority high, m, high⟩
        else (s.thread t).possessing_locks
      holded_by := if t = high then some m else (s.thread t).holded_by } := by
  unfold donation_start LockSys.priority
  simp only [set_priority_thread, set_thread_thread, if_pos, if_neg hne, if_neg hne.symm]
  by_cases htl : t = low
  · subst htl
    simp only [if_pos, if_neg hne]
  · by_cases hth : t = high
    · subst hth
      simp only [if_neg hne.symm, if_pos]
    · simp only [if_neg htl, if_neg hth]

include hne hlow in
theorem donation_start_walk_next : walk_next (donation_start s high low m)
    = Function.update (walk_next s) high (some low) := by
  funext t
  by_cases hth : t = high
  · subst hth
    rw [Function.update_self]
    unfold walk_next
    rw [donation_start_thread hne]
    simp only [if_pos, Option.bind_some]
    exact hlow
  · rw [Function.update_of_ne hth]
    unfold walk_next
    rw [donation_start_thread hne]
    simp only [if_neg hth]
    rfl

include hne hlow in
/-- A donation that returns did not come back to the donor: the link it has just
made would close the circle. -/
theorem priority_donation_spec {fuel : ℕ} {s' : LockSys} (hfree : walk_next s high = none)
    (h : priority_donation fuel s high low m = .ok s') : Donated s high low m s' := by
  rw [priority_donation_eq] at h
  have hwalk := donation_start_walk_next hne hlow
  have hends : ¬ OnWalk s low high := by
    intro hback
    obtain ⟨c, hc, hend⟩ := nested_donation_end h
    unfold OnWalk at hc
    rw [hwalk] at hc hend
    have hlink : Function.update (walk_next s) high (some low) high = some low :=
      Function.update_self _ _ _
    have hsub : ∀ x y, walk_next s x = some y →
        Function.update (walk_next s) high (some low) x = some y := by
      intro x y hxy
      have hx : x ≠ high := by
        rintro rfl
        rw [hfree] at hxy
        cases hxy
      rw [Function.update_of_ne hx]
      exact hxy
    exact next_ne_none_of_cycle hlink (Reaches.mono hsub hback) (Reaches.head hlink hc) hend
  have hlp : (donation_start s high low m).priority low = s.priority high := by
    unfold LockSys.priority
    rw [donation_start_thread hne]
    simp only [if_pos]
  have hhp : (donation_start s high low m).priority high = s.priority high := by
    unfold LockSys.priority
    rw [donation_start_thread hne]
    simp only [if_neg hne.symm]
  obtain ⟨hsame, hthread⟩ := nested_donation_spec (hhp.trans hlp.symm) h
  refine ⟨hsame.lock, fun t => ?_, hends⟩
  rw [hthread t, hlp]
  unfold OnWalk LockSys.priority
  rw [hwalk, reaches_update hends, donation_start_thread hne]
  by_cases htl : t = low
  · subst htl
    simp only [if_pos, Reaches.refl]
  · simp only [if_neg htl]

include hne hlow in
theorem priority_donation_returns (hrank : Ranked (walk_next s))
    (hheld : ∀ t n, (s.thread t).holded_by = some n → s.holder n ≠ none)
    (hends : ¬ OnWalk s low high) :
    ∃ fuel s', priority_donation fuel s high low m = .ok s' := by
  obtain ⟨rank, hdown⟩ := hrank.add hends
  simp only [priority_donation_eq]
  rw [← donation_start_walk_next hne hlow] at hdown
  apply nested_donation_returns (rank low) le_rfl hdown
  intro t n ht
  rw [donation_start_thread hne] at ht
  dsimp only at ht
  split_ifs at ht with hth
  · obtain rfl := Option.some.inj ht
    intro hnone
    exact Option.some_ne_none _ (hlow.symm.trans hnone)
  · exact hheld t n ht

end Start

end Pintos.Threads
