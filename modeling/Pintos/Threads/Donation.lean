/-
Donation on `lock_acquire`: which threads' priorities change, and when those are
the holders on the chain.
-/
import Pintos.Threads.LockInv

set_option autoImplicit false

namespace Pintos.Threads

open StepSystem Links

/-- What a thread `H` that blocks on a lock of `T` should do: every thread on the chain
of `T` has the larger of its own priority and that of `H`, and nobody else changes. -/
def Donates (s : LockSys) (H T : Tid) (m : LockId) : Prop :=
  ∃ fuel s', lock_acquire fuel s H m = .ok s' ∧ (s'.thread H).phase = .blocked m ∧
    (∀ t, OnChain s T t → s'.priority t = max (s.priority t) (s.priority H)) ∧
    ∀ t, ¬ OnChain s T t → s'.priority t = s.priority t

/-- When it does. Either no thread of the chain is below `H`. Or the holder is, the
links do not lead back to `H`, no thread they lead to is above `H`, and the threads
of the chain they do not lead to are not below `H`. -/
def DonationOk (s : LockSys) (H T : Tid) : Prop :=
  (∀ t, OnChain s T t → s.priority H ≤ s.priority t) ∨
  (s.priority T < s.priority H ∧ ¬ OnWalk s T H ∧
    (∀ t, OnWalk s T t → s.priority t ≤ s.priority H) ∧
    ∀ t, OnChain s T t → ¬ OnWalk s T t → s.priority H ≤ s.priority t)

/-- A donation to a thread that does not sleep. -/
theorem donationOk_of_awake {s : LockSys} {H T : Tid} (hc : chain_next s T = none)
    (hw : walk_next s T = none) (hlt : s.priority T < s.priority H) : DonationOk s H T := by
  refine Or.inr ⟨hlt, ?_, fun t ht => ?_, fun t htc htw => ?_⟩
  · unfold OnWalk
    rw [reaches_of_none hw]
    rintro rfl
    exact lt_irrefl _ hlt
  · unfold OnWalk at ht
    rw [reaches_of_none hw] at ht
    rw [← ht]
    exact hlt.le
  · unfold OnChain at htc
    unfold OnWalk at htw
    rw [reaches_of_none hc] at htc
    rw [reaches_of_none hw] at htw
    exact absurd htc htw

/-- A donation that one link passes on. -/
theorem donationOk_of_link {s : LockSys} {H T U : Tid} (hc : chain_next s T = some U)
    (hw : walk_next s T = some U) (hcU : chain_next s U = none) (hwU : walk_next s U = none)
    (hT : s.priority T < s.priority H) (hU : s.priority U < s.priority H) :
    DonationOk s H T := by
  -- the walk and the chain are both `T` and `U`
  have hwalk : ∀ t, OnWalk s T t ↔ T = t ∨ U = t := by
    intro t
    unfold OnWalk
    rw [reaches_of_some hw, reaches_of_none hwU]
  have hchain : ∀ t, OnChain s T t ↔ T = t ∨ U = t := by
    intro t
    unfold OnChain
    rw [reaches_of_some hc, reaches_of_none hcU]
  refine Or.inr ⟨hT, ?_, fun t ht => ?_, fun t htc htw => ?_⟩
  · rw [hwalk]
    rintro (rfl | rfl)
    · exact lt_irrefl _ hT
    · exact lt_irrefl _ hU
  · rcases (hwalk t).mp ht with rfl | rfl
    · exact hT.le
    · exact hU.le
  · exact absurd ((hwalk t).mpr ((hchain t).mp htc)) htw

/-- A holder that sleeps without a link keeps the donation from the next one. -/
theorem not_donationOk_of_unlinked {s : LockSys} {H T U : Tid} (hc : chain_next s T = some U)
    (hw : walk_next s T = none) (hne : T ≠ U) (hT : s.priority T < s.priority H)
    (hU : s.priority U < s.priority H) : ¬ DonationOk s H T := by
  rintro (hle | ⟨-, -, -, hrest⟩)
  · exact absurd (hle T (Reaches.refl T)) (not_le.mpr hT)
  · have hoff : ¬ OnWalk s T U := by
      unfold OnWalk
      rw [reaches_of_none hw]
      exact hne
    exact absurd (hrest U (Reaches.head hc (Reaches.refl U)) hoff) (not_le.mpr hU)

section Held

variable {s : LockSys} (hinv : LockInv s) {H T : Tid} {m : LockId} (hT : s.holder m = some T)
  (hne : T ≠ H)

include hinv hT hne in
/-- Against a holder that is not below it, `lock_acquire` goes to sleep at once. -/
theorem lock_acquire_without_donation (fuel : ℕ) (hp : ¬ s.priority T < s.priority H) :
    lock_acquire fuel s H m = .ok (sleep_on s H m
      (list_insert_ordered (less_priority s) (s.lock m).waiters H)) := by
  have hvalue := hinv.value m
  rw [hT, if_neg (Option.some_ne_none _)] at hvalue
  have hassert : s.holder m ≠ some H := by
    rw [hT]
    exact fun h => hne (Option.some.inj h)
  have hdonate : donate fuel s H m = .ok s := by
    unfold donate
    simp only [hT, if_neg hp]
  unfold lock_acquire
  rw [ASSERT_pos hassert, ok_bind, hdonate, ok_bind, acquire_tail_eq, if_pos hvalue]
  rfl

include hinv hT hne in
/-- With a donation it goes to sleep unless the links lead back to it. -/
theorem lock_acquire_with_donation (hp : s.priority T < s.priority H) (hends : ¬ OnWalk s T H) :
    ∃ fuel s', lock_acquire fuel s H m = .ok s' := by
  have hheld : ∀ t n, (s.thread t).holded_by = some n → s.holder n ≠ none := by
    intro t n ht hn
    obtain ⟨-, u, hu, -⟩ := hinv.linked t n ht
    rw [hn] at hu
    cases hu
  obtain ⟨fuel, r, hr⟩ := priority_donation_returns hne hT hinv.ranked hheld hends
  have hassert : s.holder m ≠ some H := by
    rw [hT]
    exact fun h => hne (Option.some.inj h)
  have hdonate : donate fuel s H m = .ok r := by
    unfold donate
    simp only [hT, if_pos hp]
    exact hr
  refine ⟨fuel, acquire_tail r H m, ?_⟩
  unfold lock_acquire
  rw [ASSERT_pos hassert, ok_bind, hdonate, ok_bind]
  rfl

include hinv hT in
/-- What `lock_acquire` does to the priorities when it donates. -/
theorem lock_acquire_donated {s' : LockSys} {fuel : ℕ} (hrun : s.Runs H)
    (hp : s.priority T < s.priority H) (h : lock_acquire fuel s H m = .ok s') :
    ¬ OnWalk s T H ∧ (s'.thread H).phase = .blocked m ∧
      (∀ t, OnWalk s T t → s'.priority t = s.priority H) ∧
      ∀ t, ¬ OnWalk s T t → s'.priority t = s.priority t := by
  rcases lock_acquire_cases hinv hrun h with ⟨hm, -⟩ | ⟨low, hm, -, hlow, -⟩ |
    ⟨low, r, hm, -, -, hd, rfl⟩
  · rw [hT] at hm
    cases hm
  · rw [hT] at hm
    obtain rfl := Option.some.inj hm
    exact absurd hp hlow
  · rw [hT] at hm
    obtain rfl := Option.some.inj hm
    refine ⟨hd.ends, ?_, fun t ht => ?_, fun t ht => ?_⟩
    · rw [sleep_on_phase, if_pos rfl]
    · rw [sleep_on_priority, hd.priority_of_onWalk ht]
    · rw [sleep_on_priority, hd.priority_of_not ht]

include hinv hT hne in
theorem LockInv.donates_iff (hrun : s.Runs H) : Donates s H T m ↔ DonationOk s H T := by
  have hTT : OnChain s T T := Reaches.refl T
  by_cases hp : s.priority T < s.priority H
  · constructor
    · rintro ⟨fuel, s', h, -, hchain, -⟩
      obtain ⟨hends, -, hon, hoff⟩ := lock_acquire_donated hinv hT hrun hp h
      refine Or.inr ⟨hp, hends, fun t ht => ?_, fun t htc htw => ?_⟩
      · have hmax := hchain t (hinv.onChain_of_onWalk ht)
        rw [hon t ht] at hmax
        exact hmax ▸ le_max_left _ _
      · have hmax := hchain t htc
        rw [hoff t htw] at hmax
        exact hmax ▸ le_max_right _ _
    · rintro (hall | ⟨-, hends, hwalk, hrest⟩)
      · exact absurd hp (not_lt.mpr (hall T hTT))
      · obtain ⟨fuel, s', h⟩ := lock_acquire_with_donation hinv hT hne hp hends
        obtain ⟨-, hphase, hon, hoff⟩ := lock_acquire_donated hinv hT hrun hp h
        refine ⟨fuel, s', h, hphase, fun t htc => ?_, fun t htc => ?_⟩
        · by_cases htw : OnWalk s T t
          · rw [hon t htw, max_eq_right (hwalk t htw)]
          · rw [hoff t htw, max_eq_left (hrest t htc htw)]
        · exact hoff t (fun htw => htc (hinv.onChain_of_onWalk htw))
  · have hsleep := fun fuel => lock_acquire_without_donation hinv hT hne fuel hp
    constructor
    · rintro ⟨fuel, s', h, -, hchain, -⟩
      rw [hsleep fuel] at h
      obtain rfl := Except.ok.inj h
      refine Or.inl fun t ht => ?_
      have hmax := hchain t ht
      rw [sleep_on_priority] at hmax
      exact hmax ▸ le_max_right _ _
    · rintro (hall | ⟨hlt, -⟩)
      · refine ⟨0, _, hsleep 0, ?_, fun t ht => ?_, fun t _ => ?_⟩
        · rw [sleep_on_phase, if_pos rfl]
        · rw [sleep_on_priority, max_eq_left (hall t ht)]
        · rw [sleep_on_priority]
      · exact absurd hlt hp

end Held

/-- **Donation on acquire.** In every state that lock operations reach, in any order,
a thread `H` that calls `lock_acquire` on a lock of `T` raises exactly the chain of `T`
to its own priority if and only if `DonationOk`. -/
theorem lock_acquire_donates_iff {s : LockSys}
    (hr : Reachable lock_system (fun _ _ => True) s) {H T : Tid} {m : LockId}
    (hrun : s.Runs H) (hT : s.holder m = some T) (hne : T ≠ H) :
    Donates s H T m ↔ DonationOk s H T :=
  (lock_inv_of_reachable hr).donates_iff hT hne hrun

/-- A chain of two, built by donations: thread 1 has donated to thread 0, and thread 2
now donates to thread 1, which passes it on. -/
theorem lock_acquire_donates_nested : ∃ s, Reachable lock_system (fun _ _ => True) s ∧
    s.Runs 2 ∧ s.holder 1 = some 1 ∧ chain_next s 1 = some 0 ∧ Donates s 2 1 1 := by
  have r0 : Reachable lock_system (fun _ _ => True) boot_state := reachable_boot_state
  have r1 := r0.step (e := LockOp.create 0 31) trivial ⟨rfl, rfl⟩
  have r2 := r1.step (e := LockOp.create 1 32) trivial ⟨rfl, rfl⟩
  have r3 := r2.step (e := LockOp.create 2 33) trivial ⟨rfl, rfl⟩
  have r4 := r3.step (e := LockOp.acquire 0 0) trivial ⟨⟨rfl, rfl⟩, 9, rfl⟩
  have r5 := r4.step (e := LockOp.acquire 1 1) trivial ⟨⟨rfl, rfl⟩, 9, rfl⟩
  have r6 := r5.step (e := LockOp.acquire 1 0) trivial ⟨⟨rfl, rfl⟩, 9, rfl⟩
  refine ⟨_, r6, ⟨rfl, rfl⟩, rfl, rfl, ?_⟩
  exact (lock_acquire_donates_iff r6 ⟨rfl, rfl⟩ rfl (by decide)).mpr
    (donationOk_of_link rfl rfl rfl rfl (by decide) (by decide))

/-- Thread 1, at 20, went to sleep on the lock of thread 0, at 31, without a donation.
When thread 2, at 40, then blocks on the lock of thread 1, the donation stops at
thread 1 and thread 0 keeps 31. -/
theorem donation_stops_at_unlinked : ∃ s, Reachable lock_system (fun _ _ => True) s ∧
    s.Runs 2 ∧ s.holder 1 = some 1 ∧ chain_next s 1 = some 0 ∧ ¬ Donates s 2 1 1 := by
  have r0 : Reachable lock_system (fun _ _ => True) boot_state := reachable_boot_state
  have r1 := r0.step (e := LockOp.create 0 31) trivial ⟨rfl, rfl⟩
  have r2 := r1.step (e := LockOp.create 1 20) trivial ⟨rfl, rfl⟩
  have r3 := r2.step (e := LockOp.create 2 40) trivial ⟨rfl, rfl⟩
  have r4 := r3.step (e := LockOp.acquire 0 0) trivial ⟨⟨rfl, rfl⟩, 9, rfl⟩
  have r5 := r4.step (e := LockOp.acquire 1 1) trivial ⟨⟨rfl, rfl⟩, 9, rfl⟩
  have r6 := r5.step (e := LockOp.acquire 1 0) trivial ⟨⟨rfl, rfl⟩, 9, rfl⟩
  refine ⟨_, r6, ⟨rfl, rfl⟩, rfl, rfl, ?_⟩
  rw [(lock_inv_of_reachable r6).donates_iff rfl (by decide) ⟨rfl, rfl⟩]
  exact not_donationOk_of_unlinked rfl rfl (by decide) (by decide) (by decide)

end Pintos.Threads
