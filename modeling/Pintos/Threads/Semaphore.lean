/-
Semaphores (`threads/synch.c`): no unit is lost or made, and no wake-up is lost.

`sema_up` wakes a thread without handing it the unit. The thread tests the value again
when it runs, and until then another thread may have taken the unit. The threads in
between are in transit: off `waiters`, with the test of the `while` loop of `sema_down`
as their next statement.

The value is an `unsigned`, so what is conserved is the number of units modulo 2^32.
-/
import Pintos.Threads.KernelInv

set_option autoImplicit false

namespace Pintos.Threads.Machine

open StepSystem

/-! ## One semaphore -/

/-- `value` is what is left of `v` and the units made, as an `unsigned`. -/
structure Counts (v value : UInt32) (ups downs : ℕ) : Prop where
  taken : downs ≤ v.toNat + ups
  value : value.toNat = (v.toNat + ups - downs) % 2 ^ 32

namespace Counts

variable {v value : UInt32} {ups downs : ℕ}

/-- One unit more. At the largest value the count starts again from 0. -/
theorem up (h : Counts v value ups downs) : Counts v (value + 1) (ups + 1) downs := by
  obtain ⟨htaken, hvalue⟩ := h
  have hnext : (value + 1).toNat = (value.toNat + 1) % 2 ^ 32 := UInt32.toNat_add value 1
  exact ⟨by omega, by omega⟩

theorem sub_one (hpos : 0 < value) : (value - 1).toNat = value.toNat - 1 :=
  UInt32.toNat_sub_of_le value 1 (UInt32.le_iff_toNat_le.mpr (UInt32.lt_iff_toNat_lt.mp hpos))

/-- One unit less. -/
theorem down (h : Counts v value ups downs) (hpos : 0 < value) :
    Counts v (value - 1) ups (downs + 1) := by
  obtain ⟨htaken, hvalue⟩ := h
  have hnext := sub_one hpos
  have hone : 0 < value.toNat := UInt32.lt_iff_toNat_lt.mp hpos
  exact ⟨by omega, by omega⟩

theorem add_one_le (value : UInt32) : (value + 1).toNat ≤ value.toNat + 1 := by
  rw [UInt32.toNat_add]
  exact Nat.mod_le _ _

/-- A semaphore that nobody has used. -/
theorem start (v : UInt32) : Counts v v 0 0 :=
  ⟨Nat.zero_le _, (Nat.mod_eq_of_lt v.toNat_lt).symm⟩

end Counts

/-- A semaphore made with `v`, and the threads whose next statement is to test it again. -/
structure SemaOk (v : UInt32) (x : Semaphore) (retests : Tid → Prop) : Prop where
  count : Counts v x.value x.ups x.downs
  wake : x.waiters ≠ [] → x.value.toNat ≤ x.removed.length
  removed_nodup : x.removed.Nodup
  asleep : ∀ t ∈ x.waiters, retests t
  transit : ∀ t, t ∈ x.removed ↔ retests t ∧ t ∉ x.waiters

namespace SemaOk

variable {v : UInt32} {x : Semaphore} {retests : Tid → Prop}

theorem congr {retests' : Tid → Prop} (h : SemaOk v x retests)
    (hiff : ∀ t, retests' t ↔ retests t) : SemaOk v x retests' := by
  have heq : retests' = retests := funext fun t => propext (hiff t)
  rw [heq]
  exact h

/-- A unit is taken by a thread that did not sleep. -/
theorem down (h : SemaOk v x retests) (hpos : 0 < x.value) :
    SemaOk v { x with value := x.value - 1, downs := x.downs + 1 } retests := by
  refine ⟨h.count.down hpos, fun hw => ?_, h.removed_nodup, h.asleep, h.transit⟩
  have hwake := h.wake hw
  show (x.value - 1).toNat ≤ x.removed.length
  rw [Counts.sub_one hpos]
  omega

/-- A unit is taken by a thread in transit. -/
theorem take (h : SemaOk v x retests) (hpos : 0 < x.value) {t : Tid} (ht : retests t)
    (hw : t ∉ x.waiters) :
    SemaOk v { x with value := x.value - 1, downs := x.downs + 1, removed := x.removed.erase t }
      (fun u => retests u ∧ u ≠ t) := by
  have hmem : t ∈ x.removed := (h.transit t).mpr ⟨ht, hw⟩
  refine ⟨h.count.down hpos, fun hne => ?_, h.removed_nodup.erase t, fun u hu => ?_, fun u => ?_⟩
  · have hwake := h.wake hne
    show (x.value - 1).toNat ≤ (x.removed.erase t).length
    rw [List.length_erase_of_mem hmem, Counts.sub_one hpos]
    omega
  · exact ⟨h.asleep u hu, fun heq => hw (heq ▸ hu)⟩
  · show u ∈ x.removed.erase t ↔ _
    rw [h.removed_nodup.mem_erase_iff, h.transit u]
    constructor
    · rintro ⟨hne, hr, hu⟩
      exact ⟨⟨hr, hne⟩, hu⟩
    · rintro ⟨⟨hr, hne⟩, hu⟩
      exact ⟨hne, hr, hu⟩

/-- A thread goes to sleep. -/
theorem sleep (h : SemaOk v x retests) (hzero : x.value = 0) {less : Tid → Tid → Prop}
    [DecidableRel less] {t : Tid} (ht : ¬ retests t) :
    SemaOk v { x with waiters := list_insert_ordered less x.waiters t }
      (fun u => retests u ∨ u = t) := by
  refine ⟨h.count, fun _ => ?_, h.removed_nodup, fun u hu => ?_, fun u => ?_⟩
  · show x.value.toNat ≤ _
    rw [hzero]
    exact Nat.zero_le _
  · rcases mem_insert_ordered.mp hu with rfl | hu
    · exact Or.inr rfl
    · exact Or.inl (h.asleep u hu)
  · show u ∈ x.removed ↔ (retests u ∨ u = t) ∧ u ∉ list_insert_ordered less x.waiters t
    rw [h.transit u, mem_insert_ordered, not_or]
    constructor
    · rintro ⟨hr, hu⟩
      exact ⟨Or.inl hr, fun heq => ht (heq ▸ hr), hu⟩
    · rintro ⟨hr, hne, hu⟩
      exact ⟨hr.resolve_right hne, hu⟩

/-- A thread in transit goes to sleep again. -/
theorem sleep_again (h : SemaOk v x retests) (hzero : x.value = 0) {less : Tid → Tid → Prop}
    [DecidableRel less] {t : Tid} (ht : retests t) :
    SemaOk v { x with
      waiters := list_insert_ordered less x.waiters t, removed := x.removed.erase t } retests := by
  refine ⟨h.count, fun _ => ?_, h.removed_nodup.erase t, fun u hu => ?_, fun u => ?_⟩
  · show x.value.toNat ≤ _
    rw [hzero]
    exact Nat.zero_le _
  · rcases mem_insert_ordered.mp hu with rfl | hu
    · exact ht
    · exact h.asleep u hu
  · show u ∈ x.removed.erase t ↔ retests u ∧ u ∉ list_insert_ordered less x.waiters t
    rw [h.removed_nodup.mem_erase_iff, h.transit u, mem_insert_ordered, not_or]
    constructor
    · rintro ⟨hne, hr, hu⟩
      exact ⟨hr, hne, hu⟩
    · rintro ⟨hr, hne, hu⟩
      exact ⟨hne, hr, hu⟩

/-- A unit is added, and the last thread of `waiters` is in transit from now on. -/
theorem up (h : SemaOk v x retests) (hnd : x.waiters.Nodup) :
    SemaOk v { x with
      value := x.value + 1
      ups := x.ups + 1
      waiters := x.waiters.dropLast
      removed := x.removed ++ x.waiters.getLast?.toList } retests := by
  cases hw : x.waiters.getLast? with
  | none =>
    have hnil := List.getLast?_eq_none_iff.mp hw
    refine ⟨h.count.up, fun hne => ?_, ?_, fun u hu => ?_, fun u => ?_⟩
    · exact absurd (by rw [hnil]; rfl) hne
    · simpa using h.removed_nodup
    · rw [hnil] at hu
      cases hu
    · simpa [hnil] using h.transit u
  | some w =>
    have hmem := List.mem_of_getLast? hw
    have hdrop := fun u => mem_dropLast_iff (u := u) hnd hw
    have hnot : w ∉ x.removed := fun hr => ((h.transit w).mp hr).2 hmem
    refine ⟨h.count.up, fun _ => ?_, ?_, fun u hu => ?_, fun u => ?_⟩
    · have hwake := h.wake (List.ne_nil_of_mem hmem)
      show (x.value + 1).toNat ≤ (x.removed ++ [w]).length
      rw [List.length_append, List.length_singleton]
      exact (Counts.add_one_le x.value).trans (Nat.succ_le_succ hwake)
    · show (x.removed ++ [w]).Nodup
      rw [List.nodup_append]
      refine ⟨h.removed_nodup, List.nodup_singleton w, fun a ha b hb heq => ?_⟩
      rw [List.mem_singleton.mp hb] at heq
      exact hnot (heq ▸ ha)
    · exact h.asleep u ((hdrop u).mp hu).2
    · show u ∈ x.removed ++ [w] ↔ retests u ∧ u ∉ x.waiters.dropLast
      rw [List.mem_append, List.mem_singleton, hdrop, h.transit u]
      constructor
      · rintro (⟨hr, hu⟩ | rfl)
        · exact ⟨hr, fun hc => hu hc.2⟩
        · exact ⟨h.asleep u hmem, fun hc => hc.1 rfl⟩
      · rintro ⟨hr, hu⟩
        by_cases hwu : u = w
        · exact Or.inr hwu
        · exact Or.inl ⟨hr, fun hc => hu ⟨hwu, hc⟩⟩

end SemaOk

/-! ## All semaphores -/

/-- The next statement of `t` is to test `sema` again. -/
def Retests (s : Kernel) (i : SemaId) (t : Tid) : Prop :=
  (s.thread t).code.head? = some (.sema_retest i)

structure SemaInv (u : Setup) (s : Kernel) : Prop where
  sema : ∀ i, SemaOk (u.value i) (s.sema i) (Retests s i)
  tail : ∀ t i, .sema_retest i ∉ (s.thread t).code.tail

variable {u : Setup} {s s' : Kernel}

/-- Where a test of the value again comes from. -/
theorem pushes_retest {c : Stmt} {i : SemaId} (h : .sema_retest i ∈ pushes s c) :
    c = .sema_down i ∨ c = .sema_retest i := by
  cases c with
  | sema_down j =>
    dsimp only [pushes] at h
    split_ifs at h
    · have hij : i = j := by simpa using h
      exact Or.inl (hij ▸ rfl)
    · cases h
  | sema_retest j =>
    dsimp only [pushes] at h
    split_ifs at h
    · have hij : i = j := by simpa using h
      exact Or.inr (hij ▸ rfl)
    · cases h
  | donation_compare m =>
    dsimp only [pushes] at h
    split at h
    · cases h
    · split_ifs at h <;> simp at h
  | donation_call m =>
    dsimp only [pushes] at h
    split at h <;> simp at h
  | nested_low high medium =>
    dsimp only [pushes] at h
    split at h <;> simp at h
  | cond_signal d =>
    dsimp only [pushes] at h
    split at h <;> simp at h
  | intq_signal q w =>
    dsimp only [pushes] at h
    split at h <;> simp at h
  | _ =>
    dsimp only [pushes] at h
    first | (split_ifs at h <;> simp at h) | simp at h

/-- The statements of the threads are the same, and so are the semaphores. -/
theorem SemaInv.congr (h : SemaInv u s) (hsema : s'.sema = s.sema)
    (hcode : ∀ t, (s'.thread t).code = (s.thread t).code) : SemaInv u s' := by
  refine ⟨fun i => ?_, fun t i => ?_⟩
  · rw [hsema]
    refine (h.sema i).congr fun t => ?_
    unfold Retests
    rw [hcode]
  · rw [hcode]
    exact h.tail t i

/-- A call by a thread that has nothing else to do. -/
theorem SemaInv.push (h : SemaInv u s) {l : List Stmt} (hcur : s.cur.code = [])
    (hl : ∀ i, .sema_retest i ∉ l) (hx : s.in_external_intr = false) : SemaInv u (s.push l) := by
  have hcode : ∀ t, ((s.push l).thread t).code =
      if t = s.current then l else (s.thread t).code := by
    intro t
    rw [push_code]
    by_cases ht : t = s.current
    · rw [if_pos ⟨hx, ht⟩, if_pos ht, ht]
      show l ++ s.cur.code = l
      rw [hcur, List.append_nil]
    · rw [if_neg (fun hc => ht hc.2), if_neg ht]
  refine ⟨fun i => ?_, fun t i => ?_⟩
  · rw [push_sema]
    refine (h.sema i).congr fun t => ?_
    unfold Retests
    rw [hcode]
    split_ifs with ht
    · refine iff_of_false (fun hh => hl i (List.mem_of_mem_head? hh)) fun hh => ?_
      rw [ht, show (s.thread s.current).code = [] from hcur] at hh
      cases hh
    · rfl
  · rw [hcode]
    split_ifs
    · exact fun hmem => hl i (List.mem_of_mem_tail hmem)
    · exact h.tail t i

/-- A semaphore after a statement that neither sleeps nor tests again. -/
theorem SemaOk.effect {r : Kernel} (retests : SemaId → Tid → Prop)
    (h : ∀ i, SemaOk (u.value i) (r.sema i) (retests i))
    (hnd : ∀ i, (r.sema i).waiters.Nodup) {c : Stmt} (hdown : ∀ i, c ≠ .sema_down i)
    (hretest : ∀ i, c ≠ .sema_retest i) (j : SemaId) :
    SemaOk (u.value j) ((effect r c).sema j) (retests j) := by
  have hup : ∀ i, SemaOk (u.value j) ((sema_up_effect r i).sema j) (retests j) := by
    intro i
    unfold sema_up_effect
    rw [set_sema_apply]
    split_ifs with hj
    · rw [hj]
      exact (h i).up (hnd i)
    · exact h j
  have htry : ∀ i, SemaOk (u.value j) ((sema_try_down r i).sema j) (retests j) := by
    intro i
    unfold sema_try_down
    split_ifs with hpos
    · rw [set_sema_apply]
      split_ifs with hj
      · rw [hj]
        exact (h i).down hpos
      · exact h j
    · exact h j
  cases c with
  | sema_down i => exact absurd rfl (hdown i)
  | sema_retest i => exact absurd rfl (hretest i)
  | sema_up i => exact hup i
  | sema_try_down i => exact htry i
  | lock_try_down m =>
    have hlock := htry (.lock m)
    dsimp only [Machine.effect, lock_try_down]
    split_ifs with hpos
    · rw [push_sema]
      exact hlock
    · exact h j
  | cond_wake d w => exact hup (.waiter w)
  | _ =>
    rw [(effect_frame r _).sema j (by simp [Stmt.sema])]
    exact h j

/-- The semaphores after a statement of a handler. -/
theorem SemaInv.handler (h : SemaInv u s) {c : Stmt} {r : Kernel} {rest : List Stmt}
    (hgo : HandlerGo s c r s' rest) : SemaInv u s' := by
  refine ⟨fun i => ?_, fun t i => by rw [hgo.code]; exact h.tail t i⟩
  have hsame : ∀ t, Retests s' i t ↔ Retests s i t := by
    intro t
    unfold Retests
    rw [hgo.code]
  rw [exec_sema hgo.exec]
  refine SemaOk.congr ?_ hsame
  refine SemaOk.effect (r := r) (Retests s) ?_
    hgo.inv.sched.lists.waiters_nodup ?_ ?_ i
  · rw [hgo.sema]
    exact h.sema
  · rintro j rfl
    exact hgo.fits
  · rintro j rfl
    exact hgo.fits

section Thread

variable {c : Stmt} {r : Kernel} {rest : List Stmt}

/-- After the statement executed, no test is left. -/
theorem SemaInv.not_mem_rest (h : SemaInv u s) (hgo : ThreadGo s c r s' rest) (i : SemaId) :
    .sema_retest i ∉ rest := by
  have htail := h.tail s.current i
  rw [hgo.before] at htail
  exact htail

/-- Who tests again after a statement of the running thread. -/
theorem retests_iff (hgo : ThreadGo s c r s' rest) (j : SemaId) (t : Tid) :
    Retests s' j t ↔ if t = s.current then (pushes r c ++ rest).head? = some (.sema_retest j)
      else Retests s j t := by
  unfold Retests
  split_ifs with ht
  · rw [ht, hgo.after]
  · rw [hgo.code t ht]

/-- A statement that calls nothing is not followed by a test. -/
theorem SemaInv.head_ne (h : SemaInv u s) (hgo : ThreadGo s c r s' rest) (hnil : pushes r c = [])
    (j : SemaId) : (pushes r c ++ rest).head? ≠ some (.sema_retest j) := by
  intro hh
  rw [hnil] at hh
  exact h.not_mem_rest hgo j (List.mem_of_mem_head? hh)

theorem SemaInv.tail_go (h : SemaInv u s) (hgo : ThreadGo s c r s' rest) (t : Tid) (i : SemaId) :
    .sema_retest i ∉ (s'.thread t).code.tail := by
  have hrest := h.not_mem_rest hgo i
  intro hmem
  by_cases ht : t = s.current
  · rw [ht, hgo.after] at hmem
    cases hp : pushes r c with
    | nil =>
      rw [hp] at hmem
      exact hrest (List.mem_of_mem_tail hmem)
    | cons d l =>
      rw [hp] at hmem
      rcases List.mem_append.mp hmem with hl | hl
      · have hin : .sema_retest i ∈ pushes r c := by
          rw [hp]
          exact List.mem_cons_of_mem d hl
        -- a test is pushed alone
        rcases pushes_retest hin with rfl | rfl
        all_goals
          dsimp only [pushes] at hp
          split_ifs at hp
          obtain ⟨-, rfl⟩ := List.cons.inj hp
          cases hl
      · exact hrest hl
  · rw [hgo.code t ht] at hmem
    exact h.tail t i hmem

/-- The running thread calls `sema_down`. -/
theorem SemaInv.sema_down {i : SemaId} (h : SemaInv u s)
    (hgo : ThreadGo s (.sema_down i) r s' rest) (j : SemaId) :
    SemaOk (u.value j) ((effect r (.sema_down i)).sema j) (Retests s' j) := by
  have hnot : ∀ j, ¬ Retests s j s.current := by
    intro j hh
    unfold Retests at hh
    rw [hgo.before] at hh
    cases hh
  have hretests := retests_iff hgo
  dsimp only [effect, sema_down_effect]
  rw [hgo.sema, hgo.current]
  by_cases hzero : (s.sema i).value = 0
  · rw [if_pos hzero]
    have hpushes : pushes r (.sema_down i) = [.sema_retest i] := by
      dsimp only [pushes]
      rw [hgo.sema, if_pos hzero]
    rw [hpushes] at hretests
    rw [set_sema_apply, push_sema, hgo.sema]
    split_ifs with hj
    · rw [hj]
      refine ((h.sema i).sleep hzero (hnot i)).congr fun t => ?_
      rw [hretests]
      split_ifs with ht
      · simp [ht]
      · exact (or_iff_left ht).symm
    · refine (h.sema j).congr fun t => ?_
      rw [hretests]
      split_ifs with ht
      · rw [ht]
        refine iff_of_false (fun hh => hj ?_) (hnot j)
        simpa using (Option.some.inj hh).symm
      · rfl
  · rw [if_neg hzero]
    have hpushes : pushes r (.sema_down i) = [] := by
      dsimp only [pushes]
      rw [hgo.sema, if_neg hzero]
    have hsame : ∀ t, Retests s' j t ↔ Retests s j t := by
      intro t
      rw [hretests]
      split_ifs with ht
      · rw [ht]
        exact iff_of_false (h.head_ne hgo hpushes j) (hnot j)
      · rfl
    refine SemaOk.congr ?_ hsame
    rw [set_sema_apply, hgo.sema]
    split_ifs with hj
    · rw [hj]
      exact (h.sema i).down (UInt32.pos_iff_ne_zero.mpr hzero)
    · exact h.sema j

/-- The running thread has been woken in `sema_down` and tests the value again. -/
theorem SemaInv.sema_retest {i : SemaId} (h : SemaInv u s) (hk : KernelInv s)
    (hgo : ThreadGo s (.sema_retest i) r s' rest) (j : SemaId) :
    SemaOk (u.value j) ((effect r (.sema_retest i)).sema j) (Retests s' j) := by
  have hself : ∀ j, Retests s j s.current ↔ j = i := by
    intro j
    unfold Retests
    rw [hgo.before]
    simp [eq_comm]
  have hwaiters : s.current ∉ (s.sema i).waiters := fun hmem =>
    hk.sched.current_ne ((hk.sched.lists.waiters i _).mp hmem) rfl
  have hretests := retests_iff hgo
  dsimp only [effect, sema_down_effect]
  rw [hgo.sema, hgo.current]
  by_cases hzero : (s.sema i).value = 0
  · rw [if_pos hzero]
    have hpushes : pushes r (.sema_retest i) = [.sema_retest i] := by
      dsimp only [pushes]
      rw [hgo.sema, if_pos hzero]
    have hsame : ∀ t, Retests s' j t ↔ Retests s j t := by
      intro t
      rw [hretests]
      split_ifs with ht
      · rw [ht, hself, hpushes]
        simp [eq_comm]
      · rfl
    refine SemaOk.congr ?_ hsame
    rw [set_sema_apply, push_sema, hgo.sema]
    split_ifs with hj
    · rw [hj]
      exact (h.sema i).sleep_again hzero ((hself i).mpr rfl)
    · exact h.sema j
  · rw [if_neg hzero]
    have hpushes : pushes r (.sema_retest i) = [] := by
      dsimp only [pushes]
      rw [hgo.sema, if_neg hzero]
    have hafter : ∀ j t, Retests s' j t ↔ Retests s j t ∧ t ≠ s.current := by
      intro j t
      rw [hretests]
      split_ifs with ht
      · exact iff_of_false (h.head_ne hgo hpushes j) fun hc => hc.2 ht
      · exact (and_iff_left ht).symm
    rw [set_sema_apply, hgo.sema]
    split_ifs with hj
    · rw [hj]
      exact ((h.sema i).take (UInt32.pos_iff_ne_zero.mpr hzero) ((hself i).mpr rfl) hwaiters).congr
        (hafter i)
    · refine (h.sema j).congr fun t => (hafter j t).trans (and_iff_left_of_imp ?_)
      rintro hr rfl
      exact hj ((hself j).mp hr)

/-- The semaphores after a statement of the running thread. -/
theorem SemaInv.thread (h : SemaInv u s) (hk : KernelInv s) (hgo : ThreadGo s c r s' rest) :
    SemaInv u s' := by
  refine ⟨fun j => ?_, h.tail_go hgo⟩
  rw [exec_sema hgo.exec]
  by_cases hdown : ∃ i, c = .sema_down i
  · obtain ⟨i, rfl⟩ := hdown
    exact h.sema_down hgo j
  by_cases hretest : ∃ i, c = .sema_retest i
  · obtain ⟨i, rfl⟩ := hretest
    exact h.sema_retest hk hgo j
  -- all others leave it alone who tests again
  have hsame : ∀ t, Retests s' j t ↔ Retests s j t := by
    intro t
    rw [retests_iff hgo]
    split_ifs with ht
    · refine iff_of_false (fun hh => ?_) fun hh => ?_
      · rcases List.mem_append.mp (List.mem_of_mem_head? hh) with hmem | hmem
        · rcases pushes_retest hmem with hc | hc
          · exact hdown ⟨j, hc⟩
          · exact hretest ⟨j, hc⟩
        · exact h.not_mem_rest hgo j hmem
      · unfold Retests at hh
        rw [ht, hgo.before] at hh
        exact hretest ⟨j, Option.some.inj hh⟩
    · rfl
  refine SemaOk.congr ?_ hsame
  refine SemaOk.effect (r := r) (Retests s) ?_
    hgo.inv.sched.lists.waiters_nodup (fun i hc => hdown ⟨i, hc⟩) (fun i hc => hretest ⟨i, hc⟩) j
  rw [hgo.sema]
  exact h.sema

end Thread

/-! ## Runs -/

theorem SemaInv.step {e : Event} (h : SemaInv u s) (hk : KernelInv s) (hs : step s e s') :
    SemaInv u s' := by
  refine step_rule (P := SemaInv u) hk (fun r r' hsw hr => hr.congr hsw.sema hsw.code)
    (fun _ _ => h.congr rfl fun _ => rfl) (fun l hx hcode hl => ?_) (fun c hx _ _ => ?_)
    (fun c r rest hgo => h.handler hgo) (fun c r rest hgo => h.thread hk hgo) hs
  · refine h.push hcode (fun i hmem => ?_) hx
    cases hl with
    | call hc =>
      obtain rfl := List.mem_singleton.mp hmem
      exact hc
    | idle => simp at hmem
  · refine h.congr (push_sema s _) fun t => ?_
    rw [push_code, if_neg fun hc => absurd (hx.symm.trans hc.1) (by decide)]

theorem sema_inv {ok : Kernel → Event → Prop} (hr : Reachable (kernel_system u) ok s) :
    SemaInv u s := by
  refine reachable_rule hr ?_ fun r e r' hk hi _ hs => hi.step hk hs
  refine ⟨fun i => ⟨Counts.start _, fun h => absurd rfl h, List.nodup_nil,
    fun t ht => absurd ht List.not_mem_nil, fun t => ?_⟩, fun t i => ?_⟩
  · refine iff_of_false List.not_mem_nil ?_
    rintro ⟨hh, -⟩
    unfold Retests thread_start at hh
    dsimp only at hh
    split_ifs at hh <;> cases hh
  · dsimp only [thread_start]
    split_ifs <;> exact List.not_mem_nil

/-- **Semaphores conserve their count and lose no wake-up.** The value is what it was made with,
plus the ups, minus the completed downs, modulo 2^32. When threads are on `waiters`, the value is
at most the number of threads in transit: those that `sema_up` took off `waiters` and that are
going to test the value again. -/
theorem sema_conserves (hr : Reachable (kernel_system u) (fun _ _ => True) s) (i : SemaId) :
    Counts (u.value i) (s.sema i).value (s.sema i).ups (s.sema i).downs ∧
    ((s.sema i).waiters ≠ [] → (s.sema i).value.toNat ≤ (s.sema i).removed.length) ∧
    (s.sema i).removed.Nodup ∧
    ∀ t, t ∈ (s.sema i).removed ↔ Retests s i t ∧ t ∉ (s.sema i).waiters := by
  have hok := (sema_inv hr).sema i
  exact ⟨hok.count, hok.wake, hok.removed_nodup, hok.transit⟩

/-- One sleeper, and one unit that was neither made nor taken. -/
theorem sema_conserves_sleeper :
    ∃ s, Reachable (kernel_system plain_setup) (fun _ _ => True) s ∧
    (s.sema (.other 0)).waiters = [2] ∧ (s.sema (.other 0)).value.toNat ≤ 0 := by
  obtain ⟨s, hr, hw, hremoved⟩ := run_reachable (u := plain_setup) (fun _ _ => True)
    (fun s => (s.sema (.other 0)).waiters = [2] ∧ (s.sema (.other 0)).removed = []) _
    (.init rfl) sleeper_run_allowed (by decide +kernel)
  have hwake := (sema_conserves hr (.other 0)).2.1 (by rw [hw]; simp)
  rw [hremoved] at hwake
  exact ⟨s, hr, hw, hwake⟩

/-- Every semaphore is made with the largest value. -/
def full_setup : Setup := { plain_setup with sema := fun _ => 4294967295 }

/-- **At the largest value** `sema_up` loses a whole count: the value is 0 afterwards. -/
theorem sema_up_wraps : ¬ ∀ (u : Setup) (s : Kernel) (i : SemaId),
    Reachable (kernel_system u) (fun _ _ => True) s →
      (s.sema i).value.toNat + (s.sema i).downs = (u.value i).toNat + (s.sema i).ups := by
  intro hall
  obtain ⟨s, hr, hvalue, hdowns⟩ := run_reachable (u := full_setup) (fun _ _ => True)
    (fun s => (s.sema (.other 0)).value = 0 ∧ (s.sema (.other 0)).downs = 0)
    [.call (.sema_up (.other 0)), .go] (.init rfl)
    (by simp [Event.Allowed, Stmt.Callable]) (by decide +kernel)
  have hcount := hall full_setup s (.other 0) hr
  have hmade : (full_setup.value (.other 0)).toNat = 4294967295 := rfl
  have hzero : (0 : UInt32).toNat = 0 := rfl
  rw [hvalue, hdowns, hmade] at hcount
  omega

end Pintos.Threads.Machine
