/-
CPU accounting outside the timer: `thread_set_nice` and `thread_create` with `-mlfqs`.

Both pass `recent_cpu` through a function made for something else. `thread_set_nice` applies
the decay of the full second before it computes the priority, so every call decays the value
once more. What it leaves alone are the values the decay leaves alone, and these are where
decay and `nice` balance up to the rounding (`Steady`). `thread_create` reads the creator's
value through `thread_get_recent_cpu`, which is a hundred times that, rounded to an `int`.
-/
import Pintos.Threads.Mlfqs

set_option autoImplicit false

namespace Pintos.Threads.Mlfqs

/-! ## Truncation -/

/-- A value of type `int`. -/
def IsInt (x : ℤ) : Prop := -2 ^ 31 ≤ x ∧ x < 2 ^ 31

instance (x : ℤ) : Decidable (IsInt x) := inferInstanceAs (Decidable (_ ∧ _))

theorem int32_ok {x : ℤ} (h : IsInt x) : int32 x = .ok x := if_pos h

theorem int32_eq_ok {x y : ℤ} (h : int32 x = .ok y) : y = x ∧ IsInt x := by
  unfold int32 at h
  by_cases hx : -2 ^ 31 ≤ x ∧ x < 2 ^ 31
  · rw [if_pos hx] at h
    exact ⟨(Except.ok.inj h).symm, hx⟩
  · rw [if_neg hx] at h
    cases h

/-- The quotient by `F` is the number below, or above for one that is negative. -/
theorem tdiv_F (x : ℤ) :
    (0 ≤ x → x.tdiv F * F ≤ x ∧ x < x.tdiv F * F + F) ∧
    (x ≤ 0 → x ≤ x.tdiv F * F ∧ x.tdiv F * F < x + F) := by
  have habove : ∀ y : ℤ, 0 ≤ y → y.tdiv F * F ≤ y ∧ y < y.tdiv F * F + F := fun y hy => by
    rw [Int.tdiv_eq_ediv_of_nonneg hy]
    unfold F
    omega
  refine ⟨habove x, fun hx => ?_⟩
  obtain ⟨hlo, hhi⟩ := habove (-x) (by omega)
  rw [Int.neg_tdiv, neg_mul] at hlo hhi
  omega

/-! ## The decay -/

/-- The requested value, clamped. -/
def clamped (nice : ℤ) : ℤ := if 20 < nice then 20 else if nice < -20 then -20 else nice

theorem clamped_range (nice : ℤ) : -20 ≤ clamped nice ∧ clamped nice ≤ 20 := by
  unfold clamped
  split_ifs <;> omega

/-- The load averages for which the decay is defined: nothing overflows, and the divisor is not
zero. -/
def Decays (load_avg : ℤ) : Prop :=
  -2 ^ 30 ≤ load_avg ∧ load_avg < 2 ^ 30 - 2 ^ 13 ∧ load_avg ≠ -2 ^ 13

instance (load_avg : ℤ) : Decidable (Decays load_avg) := inferInstanceAs (Decidable (_ ∧ _))

/-- The share of `recent_cpu` that a decay leaves, as a 17.14 number. -/
def ratio (load_avg : ℤ) : ℤ := (load_avg * 2 * F).tdiv (load_avg * 2 + F)

theorem ratio_range {load_avg : ℤ} (h : Decays load_avg) :
    -2 ^ 29 ≤ ratio load_avg ∧ ratio load_avg < 2 ^ 29 := by
  obtain ⟨-, -, hne⟩ := h
  set b : ℤ := load_avg * 2 + F with hb
  have hb0 : b ≠ 0 := by
    unfold F at hb
    omega
  -- the dividend is `(b - F) * F`, and `b` is at least 1
  have hle : (load_avg * 2 * F).natAbs ≤ (F * F + F).natAbs * b.natAbs := by
    have ha : load_avg * 2 = b - F := by omega
    rw [ha, ← Int.natAbs_mul]
    have hF : F = 16384 := rfl
    rw [hF]
    omega
  have hdiv : (ratio load_avg).natAbs ≤ (F * F + F).natAbs := by
    unfold ratio
    rw [Int.natAbs_tdiv]
    exact Nat.div_le_of_le_mul (by rw [Nat.mul_comm]; exact hle)
  have hF : (F * F + F).natAbs = 268451840 := by decide
  omega

variable {load_avg : ℤ} {t t' : Thread}

/-- **`calc_recent_cpu`** for values of type `int`. -/
theorem calc_recent_cpu_eq (hd : Decays load_avg) (hrc : IsInt t.recent_cpu)
    (hnice : -20 ≤ t.nice ∧ t.nice ≤ 20) :
    calc_recent_cpu load_avg t = do
      let result ← int32 ((ratio load_avg * t.recent_cpu).tdiv F + t.nice * F)
      return { t with recent_cpu := result } := by
  obtain ⟨hqlo, hqhi⟩ := ratio_range hd
  obtain ⟨hlo, hhi, hne⟩ := hd
  obtain ⟨hrlo, hrhi⟩ := hrc
  have hdbl : IsInt (load_avg * 2) := ⟨by omega, by omega⟩
  have hone : IsInt (1 * F) := ⟨by norm_num, by norm_num⟩
  have hsum : IsInt (load_avg * 2 + 1 * F) := by
    unfold IsInt F
    omega
  have hb : load_avg * 2 + 1 * F ≠ 0 := by
    unfold F
    omega
  have hdend : -2 ^ 46 ≤ load_avg * 2 * F ∧ load_avg * 2 * F < 2 ^ 46 := by
    unfold F
    omega
  have hnF : IsInt (t.nice * F) := by
    unfold IsInt F
    omega
  -- the product is far inside an `int64_t`, its quotient too
  have hprod : -2 ^ 61 ≤ ratio load_avg * t.recent_cpu ∧
      ratio load_avg * t.recent_cpu ≤ 2 ^ 61 := by
    constructor <;> nlinarith
  obtain ⟨hpos, hneg⟩ := tdiv_F (ratio load_avg * t.recent_cpu)
  have hquot : -2 ^ 62 ≤ (ratio load_avg * t.recent_cpu).tdiv F + t.nice * F ∧
      (ratio load_avg * t.recent_cpu).tdiv F + t.nice * F < 2 ^ 62 := by
    unfold F at *
    omega
  have hq : (load_avg * 2 * F).tdiv (load_avg * 2 + 1 * F) = ratio load_avg := by
    unfold ratio
    rw [one_mul]
  unfold calc_recent_cpu ADD_X_N DIV_X_Y MULT_X_Y
  rw [int32_ok hdbl, ok_bind, int32_ok hone, ok_bind, int32_ok hsum, ok_bind,
    int64_eq (by omega) (by omega), ok_bind, if_neg hb, hq, int64_eq (by omega) (by omega), ok_bind,
    int32_ok ⟨by omega, by omega⟩, ok_bind, int64_eq (by omega) (by omega), ok_bind, pure_eq_ok,
    ok_bind, int32_ok hnF, ok_bind, int64_eq (by omega) (by omega), ok_bind]

/-- Otherwise it does not return. -/
theorem calc_recent_cpu_stops (hd : ¬ Decays load_avg) :
    ∀ t', calc_recent_cpu load_avg t ≠ .ok t' := by
  intro t' h
  obtain ⟨a, ha, h⟩ := bind_eq_ok h
  obtain ⟨b, hb, h⟩ := bind_eq_ok h
  obtain ⟨q, hq, -⟩ := bind_eq_ok h
  obtain ⟨n, hn, hb⟩ := bind_eq_ok hb
  obtain ⟨m, -, hdiv⟩ := bind_eq_ok hq
  obtain ⟨rfl, ha⟩ := int32_eq_ok ha
  obtain ⟨rfl, -⟩ := int32_eq_ok hn
  obtain ⟨rfl, hb⟩ := int32_eq_ok hb
  by_cases hzero : load_avg * 2 + 1 * F = 0
  · rw [if_pos hzero] at hdiv
    cases hdiv
  · unfold IsInt F at *
    refine hd ⟨by omega, by omega, by omega⟩

/-! ## Where decay and `nice` balance -/

/-- The decay takes from `recent_cpu` what `nice` adds to it, up to the fraction the truncation
drops. -/
def Steady (load_avg nice recent_cpu : ℤ) : Prop :=
  if 0 ≤ ratio load_avg * recent_cpu then
    nice * F * F - F < (F - ratio load_avg) * recent_cpu ∧
      (F - ratio load_avg) * recent_cpu ≤ nice * F * F
  else
    nice * F * F ≤ (F - ratio load_avg) * recent_cpu ∧
      (F - ratio load_avg) * recent_cpu < nice * F * F + F

instance (load_avg nice recent_cpu : ℤ) : Decidable (Steady load_avg nice recent_cpu) := by
  unfold Steady
  infer_instance

theorem steady_iff {nice recent_cpu : ℤ} : Steady load_avg nice recent_cpu ↔
    (ratio load_avg * recent_cpu).tdiv F + nice * F = recent_cpu := by
  obtain ⟨hpos, hneg⟩ := tdiv_F (ratio load_avg * recent_cpu)
  have hd : (F - ratio load_avg) * recent_cpu = F * recent_cpu - ratio load_avg * recent_cpu :=
    sub_mul _ _ _
  unfold Steady
  rw [hd]
  generalize ratio load_avg * recent_cpu = p at *
  unfold F at *
  by_cases hp : 0 ≤ p
  · rw [if_pos hp]
    have := hpos hp
    omega
  · rw [if_neg hp]
    have := hneg (by omega)
    omega

/-! ## `thread_set_nice` -/

/-- `calc_priority` does not overflow on an `int`. -/
theorem calc_priority_ok {recent_cpu nice : ℤ} (hrc : IsInt recent_cpu)
    (hnice : -20 ≤ nice ∧ nice ≤ 20) : ∃ p, calc_priority recent_cpu nice = .ok p := by
  obtain ⟨hlo, hhi⟩ := hrc
  have hquarter : -2 ^ 29 ≤ recent_cpu.tdiv 4 ∧ recent_cpu.tdiv 4 ≤ 2 ^ 29 := by
    rcases le_total 0 recent_cpu with h | h
    · have := tdiv_nonneg h (by norm_num : (0 : ℤ) < 4)
      omega
    · have := tdiv_nonpos h (by norm_num : (0 : ℤ) < 4)
      omega
  unfold calc_priority CONVERT_N_TO_FIXED SUBTRACT_X_N PRI_MAX F
  rw [int32_eq (by norm_num) (by norm_num), ok_bind]
  dsimp only
  rw [int32_eq (by omega) (by omega), ok_bind, int32_eq (by omega) (by omega), ok_bind,
    int32_eq (by omega) (by omega), ok_bind, int32_eq (by omega) (by omega), ok_bind]
  exact ⟨_, rfl⟩

/-- What `thread_set_nice` does to the thread that calls it. -/
def renice (load_avg nice : ℤ) (t : Thread) : Res Thread := do
  let t ← calc_recent_cpu load_avg { t with nice := clamped nice }
  set_priority t

/-- In a steady state the thread keeps its `recent_cpu`. -/
theorem renice_steady {nice : ℤ} (hrc : IsInt t.recent_cpu) (hd : Decays load_avg)
    (hs : Steady load_avg (clamped nice) t.recent_cpu) :
    ∃ p, calc_priority t.recent_cpu (clamped nice) = .ok p ∧
      renice load_avg nice t = .ok { t with nice := clamped nice, priority := p } := by
  obtain ⟨p, hp⟩ := calc_priority_ok hrc (clamped_range nice)
  refine ⟨p, hp, ?_⟩
  unfold renice
  rw [@calc_recent_cpu_eq load_avg { t with nice := clamped nice } hd hrc (clamped_range nice)]
  dsimp only
  rw [steady_iff.mp hs, int32_ok hrc]
  unfold set_priority
  change (do
    let p ← calc_priority t.recent_cpu (clamped nice)
    return { t with nice := clamped nice, priority := p }) = _
  rw [hp]
  rfl

/-- And only there. -/
theorem steady_of_renice {nice : ℤ} (hrc : IsInt t.recent_cpu)
    (h : renice load_avg nice t = .ok t') (hsame : t'.recent_cpu = t.recent_cpu) :
    Decays load_avg ∧ Steady load_avg (clamped nice) t.recent_cpu := by
  obtain ⟨t₁, hdecay, hprio⟩ := bind_eq_ok h
  have hd : Decays load_avg := by
    by_contra hd
    exact calc_recent_cpu_stops hd t₁ hdecay
  rw [@calc_recent_cpu_eq load_avg { t with nice := clamped nice } hd hrc
    (clamped_range nice)] at hdecay
  obtain ⟨r, hr, hdecay⟩ := bind_eq_ok hdecay
  obtain ⟨p, -, hprio⟩ := bind_eq_ok hprio
  refine ⟨hd, steady_iff.mpr ?_⟩
  rw [← Except.ok.inj hprio, ← Except.ok.inj hdecay] at hsame
  exact (int32_eq_ok hr).1.symm.trans hsame

/-- A loop that returns has treated the threads with `p` and left the others. -/
theorem for_each_eq_ok {p : Thread → Prop} [DecidablePred p] {f : Thread → Res Thread} :
    ∀ {l l' : List Thread}, for_each p f l = .ok l' ↔
      List.Forall₂ (fun t t' => if p t then f t = .ok t' else t' = t) l l' := by
  intro l
  induction l with
  | nil =>
    intro l'
    rw [List.forall₂_nil_left_iff]
    constructor
    · intro h
      exact (Except.ok.inj h).symm
    · rintro rfl
      rfl
  | cons t rest ih =>
    intro l'
    rw [List.forall₂_cons_left_iff]
    constructor
    · intro h
      obtain ⟨u, hu, h⟩ := bind_eq_ok h
      obtain ⟨rest', hrest, h⟩ := bind_eq_ok h
      refine ⟨u, rest', ?_, ih.mp hrest, (Except.ok.inj h).symm⟩
      by_cases hp : p t
      · rw [if_pos hp] at hu ⊢
        exact hu
      · rw [if_neg hp] at hu ⊢
        exact (Except.ok.inj hu).symm
    · rintro ⟨u, rest', hu, hrest, rfl⟩
      have hhead : (if p t then f t else .ok t) = .ok u := by
        by_cases hp : p t
        · rw [if_pos hp] at hu ⊢
          exact hu
        · rw [if_neg hp] at hu ⊢
          rw [hu]
      unfold for_each
      rw [hhead, ok_bind, ih.mpr hrest]
      rfl

/-- Two relations between the same lists meet at every element. -/
theorem forall₂_meet {α β : Type} {R Q : α → β → Prop} {l : List α} {l' : List β}
    (hR : List.Forall₂ R l l') (hQ : List.Forall₂ Q l l') :
    ∀ a ∈ l, ∃ b, R a b ∧ Q a b := by
  induction hR with
  | nil => exact fun a ha => by cases ha
  | cons hab hrest ih =>
    rw [List.forall₂_cons] at hQ
    intro a ha
    rcases List.mem_cons.mp ha with rfl | ha
    · exact ⟨_, hab, hQ.1⟩
    · exact ih hQ.2 a ha

/-- `s'` is `s` with the `nice` of the running thread set and its priority computed from that and
from the `recent_cpu` it had. -/
structure SetsNice (s s' : State) (current : ℕ) (nice : ℤ) : Prop where
  ticks : s'.ticks = s.ticks
  load_avg : s'.load_avg = s.load_avg
  idle_thread : s'.idle_thread = s.idle_thread
  threads : List.Forall₂ (fun t t' => if t.tid = current then
      ∃ p, calc_priority t.recent_cpu nice = .ok p ∧ t' = { t with nice := nice, priority := p }
    else t' = t) s.all_list s'.all_list

/-- `thread_set_nice` sets `nice` and the priority and nothing else, and any number of calls in
a row do what one does. -/
def LeavesAccounting (s : State) (current : ℕ) (nice : ℤ) : Prop :=
  ∃ s', thread_set_nice s current nice = .ok s' ∧ SetsNice s s' current (clamped nice) ∧
    ∀ k, run s (List.replicate (k + 1) (.set_nice current nice)) = .ok s'

variable {s s' : State} {current : ℕ} {nice : ℤ}

theorem thread_set_nice_eq_ok : thread_set_nice s current nice = .ok s' ↔
    s' = { s with all_list := s'.all_list } ∧
      List.Forall₂ (fun t t' => if t.tid = current then renice s.load_avg nice t = .ok t'
        else t' = t) s.all_list s'.all_list := by
  rw [← for_each_eq_ok]
  constructor
  · intro h
    obtain ⟨l, hl, h⟩ := bind_eq_ok h
    obtain rfl := Except.ok.inj h
    exact ⟨rfl, hl⟩
  · rintro ⟨hs', hl⟩
    have hrun : thread_set_nice s current nice =
        (for_each (fun t => t.tid = current) (renice s.load_avg nice) s.all_list >>=
          fun l => .ok { s with all_list := l }) := rfl
    rw [hrun, hl, ok_bind, ← hs']

/-- A call where the values are steady: the second one finds them steady again. -/
theorem set_nice_steady (hrc : ∀ t ∈ s.all_list, IsInt t.recent_cpu)
    (hs : ∀ t ∈ s.all_list, t.tid = current →
      Decays s.load_avg ∧ Steady s.load_avg (clamped nice) t.recent_cpu) :
    ∃ s', thread_set_nice s current nice = .ok s' ∧ SetsNice s s' current (clamped nice) ∧
      thread_set_nice s' current nice = .ok s' := by
  -- the list after the call, and what a second call does to it
  obtain ⟨l, hfirst, hsecond⟩ : ∃ l,
      List.Forall₂ (fun t t' => if t.tid = current then
        ∃ p, calc_priority t.recent_cpu (clamped nice) = .ok p ∧
          t' = { t with nice := clamped nice, priority := p } ∧
          renice s.load_avg nice t = .ok t' else t' = t) s.all_list l ∧
      List.Forall₂ (fun t t' => if t.tid = current then renice s.load_avg nice t = .ok t'
        else t' = t) l l := by
    generalize s.all_list = list at hrc hs
    induction list with
    | nil => exact ⟨[], .nil, .nil⟩
    | cons t rest ih =>
      obtain ⟨l, hfirst, hsecond⟩ := ih (fun u hu => hrc u (List.mem_cons_of_mem _ hu))
        fun u hu => hs u (List.mem_cons_of_mem _ hu)
      by_cases htid : t.tid = current
      · obtain ⟨hd, hst⟩ := hs t List.mem_cons_self htid
        have hint := hrc t List.mem_cons_self
        obtain ⟨p, hp, hrun⟩ := renice_steady hint hd hst
        obtain ⟨p', hp', hagain⟩ := @renice_steady s.load_avg
          { t with nice := clamped nice, priority := p } nice hint hd hst
        obtain rfl := Except.ok.inj (hp.symm.trans hp')
        refine ⟨{ t with nice := clamped nice, priority := p } :: l, .cons ?_ hfirst,
          .cons ?_ hsecond⟩
        · rw [if_pos htid]
          exact ⟨p, hp, rfl, hrun⟩
        · rw [if_pos htid]
          exact hagain
      · refine ⟨t :: l, .cons ?_ hfirst, .cons ?_ hsecond⟩
        · rw [if_neg htid]
        · rw [if_neg htid]
  refine ⟨{ s with all_list := l }, thread_set_nice_eq_ok.mpr ⟨rfl, ?_⟩, ⟨rfl, rfl, rfl, ?_⟩,
    thread_set_nice_eq_ok.mpr ⟨rfl, hsecond⟩⟩
  · refine hfirst.imp fun t t' h => ?_
    by_cases htid : t.tid = current
    · rw [if_pos htid] at h ⊢
      obtain ⟨p, -, -, hrun⟩ := h
      exact hrun
    · rw [if_neg htid] at h ⊢
      exact h
  · refine hfirst.imp fun t t' h => ?_
    by_cases htid : t.tid = current
    · rw [if_pos htid] at h ⊢
      obtain ⟨p, hp, ht', -⟩ := h
      exact ⟨p, hp, ht'⟩
    · rw [if_neg htid] at h ⊢
      exact h

theorem run_set_nice (events : List Event) : run s (.set_nice current nice :: events) =
    (thread_set_nice s current nice >>= fun s => run s events) := rfl

/-- A state that a call leaves as it is, is left by any number of calls. -/
theorem run_fixed (h : thread_set_nice s current nice = .ok s) (k : ℕ) :
    run s (List.replicate k (.set_nice current nice)) = .ok s := by
  induction k with
  | zero => rfl
  | succ k ih =>
    rw [List.replicate_succ, run_set_nice, h, ok_bind, ih]

/-- **`thread_set_nice` leaves CPU accounting alone exactly in a steady state.** -/
theorem leaves_accounting_iff (hrc : ∀ t ∈ s.all_list, IsInt t.recent_cpu) :
    LeavesAccounting s current nice ↔ ∀ t ∈ s.all_list, t.tid = current →
      Decays s.load_avg ∧ Steady s.load_avg (clamped nice) t.recent_cpu := by
  constructor
  · rintro ⟨s', hrun, hsets, -⟩ t ht htid
    obtain ⟨-, hlist⟩ := thread_set_nice_eq_ok.mp hrun
    obtain ⟨t', hset, hrenice⟩ := forall₂_meet hsets.threads hlist t ht
    rw [if_pos htid] at hset hrenice
    obtain ⟨p, -, rfl⟩ := hset
    exact steady_of_renice (hrc t ht) hrenice rfl
  · intro hs
    obtain ⟨s', hrun, hsets, hagain⟩ := set_nice_steady hrc hs
    refine ⟨s', hrun, hsets, fun k => ?_⟩
    rw [List.replicate_succ, run_set_nice, hrun, ok_bind]
    exact run_fixed hagain k

/-- With a load average of 1 and `nice` 5 a thread is steady just below `recent_cpu` 15. -/
theorem leaves_accounting_steady :
    LeavesAccounting ⟨3, 16384, 0, [⟨0, 0, 0, 0⟩, ⟨1, 2, 245730, 31⟩]⟩ 1 5 := by
  refine (leaves_accounting_iff (by decide)).mpr ?_
  decide

/-- **Every call is a decay.** With a load average of 1 the first `thread_set_nice (0)` takes a
`recent_cpu` of 60 to 40; the second takes it to 26.7 and raises the priority from 53 to 56. -/
theorem set_nice_decays : ¬ ∀ (s : State) (current : ℕ) (nice : ℤ),
    (∀ t ∈ s.all_list, IsInt t.recent_cpu) → LeavesAccounting s current nice := by
  intro hall
  have hint : ∀ t ∈ [(⟨1, 0, 983040, 48⟩ : Thread)], IsInt t.recent_cpu := by decide
  obtain ⟨s', hrun, hsets, -⟩ := hall ⟨3, 16384, 0, [⟨1, 0, 983040, 48⟩]⟩ 1 0 hint
  have hs' : s' = ⟨3, 16384, 0, [⟨1, 0, 655320, 53⟩]⟩ := (Except.ok.inj hrun).symm
  subst hs'
  obtain ⟨p, -, h⟩ := (List.forall₂_cons.mp hsets.threads).1
  have hsame : (655320 : ℤ) = 983040 := congrArg Thread.recent_cpu h
  exact absurd hsame (by decide)

example : run ⟨3, 16384, 0, [⟨1, 0, 983040, 48⟩]⟩ [.set_nice 1 0, .set_nice 1 0] =
    .ok ⟨3, 16384, 0, [⟨1, 0, 436853, 56⟩]⟩ := by rfl

/-! ## `thread_create` -/

/-- An `int` whose value has left the type wraps around. The product and the sum below are
followed to what the machine makes of them. -/
def wrap (x : ℤ) : ℤ := (x + 2 ^ 31) % 2 ^ 32 - 2 ^ 31

theorem wrap_range (x : ℤ) : IsInt (wrap x) := by
  unfold IsInt wrap
  omega

theorem wrap_eq {x : ℤ} (h : IsInt x) : wrap x = x := by
  unfold IsInt at h
  unfold wrap
  omega

/-- `MULT_X_N`. -/
def MULT_X_N (X N : ℤ) : ℤ := wrap (X * N)

/-- `ROUND_TO_NEAR`. -/
def ROUND_TO_NEAR (X : ℤ) : ℤ :=
  if 0 ≤ X then (wrap (X + F / 2)).tdiv F else (wrap (X - F / 2)).tdiv F

/-- `thread_get_nice`. -/
def thread_get_nice (t : Thread) : ℤ := t.nice

/-- `thread_get_recent_cpu`. -/
def thread_get_recent_cpu (t : Thread) : ℤ := ROUND_TO_NEAR (MULT_X_N t.recent_cpu 100)

/-- What `thread_create` makes of a new thread's scheduling fields when `current` calls it. -/
def thread_create (current : Thread) (tid : ℕ) : Res Thread := do
  let nice := thread_get_nice current
  let recent_cpu := thread_get_recent_cpu current
  let priority ← calc_priority recent_cpu nice
  return { tid := tid, nice := nice, recent_cpu := recent_cpu, priority := priority }

/-- The rounded value has 18 bits. -/
theorem round_range (x : ℤ) : -131072 ≤ ROUND_TO_NEAR x ∧ ROUND_TO_NEAR x ≤ 131072 := by
  have hquot : ∀ y, IsInt y → -131072 ≤ y.tdiv F ∧ y.tdiv F ≤ 131072 := fun y hy => by
    obtain ⟨hpos, hneg⟩ := tdiv_F y
    unfold IsInt F at *
    omega
  unfold ROUND_TO_NEAR
  split_ifs
  · exact hquot _ (wrap_range _)
  · exact hquot _ (wrap_range _)

/-- A hundred times a value, rounded to an integer, is the value itself for zero only. A value
for which the product overflows is above all that the rounding can give. -/
theorem thread_get_recent_cpu_iff (t : Thread) :
    thread_get_recent_cpu t = t.recent_cpu ↔ t.recent_cpu = 0 := by
  unfold thread_get_recent_cpu MULT_X_N
  constructor
  · intro h
    obtain ⟨hlo, hhi⟩ := round_range (wrap (t.recent_cpu * 100))
    rw [h] at hlo hhi
    have hprod : IsInt (t.recent_cpu * 100) := ⟨by omega, by omega⟩
    rw [wrap_eq hprod] at h
    unfold ROUND_TO_NEAR at h
    have hF : F / 2 = 8192 := by decide
    rw [hF] at h
    by_cases hpos : 0 ≤ t.recent_cpu * 100
    · have hsum : IsInt (t.recent_cpu * 100 + 8192) := ⟨by omega, by omega⟩
      rw [if_pos hpos, wrap_eq hsum] at h
      have hquot := (tdiv_F (t.recent_cpu * 100 + 8192)).1 (by omega)
      unfold F at *
      omega
    · have hsum : IsInt (t.recent_cpu * 100 - 8192) := ⟨by omega, by omega⟩
      rw [if_neg hpos, wrap_eq hsum] at h
      have hquot := (tdiv_F (t.recent_cpu * 100 - 8192)).2 (by omega)
      unfold F at *
      omega
  · intro h
    rw [h]
    decide

/-- The priority of a thread without CPU use is defined for every `nice` whose double stays in
range as a 17.14 number. -/
theorem calc_priority_zero (nice : ℤ) :
    (∃ p, calc_priority 0 nice = .ok p) ↔ -65504 ≤ nice ∧ nice ≤ 65535 := by
  have hmax : CONVERT_N_TO_FIXED PRI_MAX = .ok (63 * F) := by rfl
  have hdiff : int32 (63 * F - Int.tdiv 0 4) = .ok (63 * F) := by rfl
  unfold calc_priority SUBTRACT_X_N
  rw [hmax, ok_bind]
  dsimp only
  rw [hdiff, ok_bind]
  constructor
  · rintro ⟨p, h⟩
    obtain ⟨n, hn, h⟩ := bind_eq_ok h
    obtain ⟨r, hr, -⟩ := bind_eq_ok h
    obtain ⟨m, hm, hr⟩ := bind_eq_ok hr
    obtain ⟨rfl, -⟩ := int32_eq_ok hn
    obtain ⟨rfl, hm⟩ := int32_eq_ok hm
    obtain ⟨-, hr⟩ := int32_eq_ok hr
    unfold IsInt F at *
    omega
  · rintro ⟨hlo, hhi⟩
    have hn : IsInt (2 * nice) := ⟨by omega, by omega⟩
    have hm : IsInt (2 * nice * F) := by
      unfold IsInt F
      omega
    have hr : IsInt (63 * F - 2 * nice * F) := by
      unfold IsInt F
      omega
    rw [int32_ok hn, ok_bind, int32_ok hm, ok_bind, int32_ok hr, ok_bind]
    exact ⟨_, rfl⟩

/-- The new thread has its creator's values, and the priority that goes with them. -/
def Inherits (current : Thread) (tid : ℕ) : Prop :=
  ∃ child, thread_create current tid = .ok child ∧ child.recent_cpu = current.recent_cpu ∧
    child.nice = current.nice ∧
    calc_priority current.recent_cpu current.nice = .ok child.priority

/-- **A new thread inherits the accounting of its creator exactly when there is none.** -/
theorem inherits_iff (current : Thread) (tid : ℕ) : Inherits current tid ↔
    current.recent_cpu = 0 ∧ -65504 ≤ current.nice ∧ current.nice ≤ 65535 := by
  constructor
  · rintro ⟨child, hrun, hrc, -, hpri⟩
    obtain ⟨p, -, hrun⟩ := bind_eq_ok hrun
    rw [← Except.ok.inj hrun] at hrc
    have hzero : current.recent_cpu = 0 := (thread_get_recent_cpu_iff current).mp hrc
    rw [hzero] at hpri
    exact ⟨hzero, (calc_priority_zero current.nice).mp ⟨_, hpri⟩⟩
  · rintro ⟨hzero, hnice⟩
    obtain ⟨p, hp⟩ := (calc_priority_zero current.nice).mpr hnice
    have hget : thread_get_recent_cpu current = 0 :=
      ((thread_get_recent_cpu_iff current).mpr hzero).trans hzero
    refine ⟨⟨tid, current.nice, 0, p⟩, ?_, hzero.symm, rfl, ?_⟩
    · unfold thread_create thread_get_nice
      dsimp only
      rw [hget, hp]
      rfl
    · rw [hzero]
      exact hp

/-- A thread with a `recent_cpu` of 1 has a child with 100 units in the last place. -/
theorem child_scaled : ¬ ∀ (current : Thread) (tid : ℕ), IsInt current.recent_cpu →
    -20 ≤ current.nice ∧ current.nice ≤ 20 → Inherits current tid := by
  intro hall
  obtain ⟨child, hrun, hrc, -⟩ := hall ⟨1, 0, 16384, 31⟩ 2 (by decide) (by decide)
  have hchild : child = ⟨2, 0, 100, 62⟩ := (Except.ok.inj hrun).symm
  subst hchild
  exact absurd hrc (by decide)

end Pintos.Threads.Mlfqs
