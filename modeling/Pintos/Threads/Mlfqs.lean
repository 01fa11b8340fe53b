/-
The multi-level feedback queue scheduler (`-mlfqs`): its fixed-point arithmetic.

`fixed_point.h` has 17.14 numbers in an `int`. The model computes in the integers and checks,
at every operation, that the result is one of the C type it has there: `int`, `int64_t`, or
`unsigned` where `list_size` brings a `size_t` in. A value that is not stops the computation
(`Fault.overflow`), so that a run that returns has not overflowed anywhere. Division truncates
towards zero.

How far `recent_cpu` can rise depends on how many ticks have gone by since the last second was
full, for up to 99 of them may have been its own. The invariant has the phase of the tick
counter in its bound.
-/
import Pintos.Base

set_option autoImplicit false

namespace Pintos.Threads.Mlfqs

/-! ## C integers -/

/-- An `int`. -/
def int32 (x : ℤ) : Res ℤ := if -2 ^ 31 ≤ x ∧ x < 2 ^ 31 then .ok x else .error .overflow

/-- An `int64_t`. -/
def int64 (x : ℤ) : Res ℤ := if -2 ^ 63 ≤ x ∧ x < 2 ^ 63 then .ok x else .error .overflow

/-- An `unsigned`. -/
def uint32 (x : ℤ) : Res ℤ := if 0 ≤ x ∧ x < 2 ^ 32 then .ok x else .error .overflow

theorem int32_eq {x : ℤ} (h : -2 ^ 31 ≤ x) (h' : x < 2 ^ 31) : int32 x = .ok x := if_pos ⟨h, h'⟩

theorem int64_eq {x : ℤ} (h : -2 ^ 63 ≤ x) (h' : x < 2 ^ 63) : int64 x = .ok x := if_pos ⟨h, h'⟩

theorem uint32_eq {x : ℤ} (h : 0 ≤ x) (h' : x < 2 ^ 32) : uint32 x = .ok x := if_pos ⟨h, h'⟩

/-! ## `threads/fixed_point.h` -/

/-- `1 << 14`. -/
abbrev F : ℤ := 16384

/-- `CONVERT_N_TO_FIXED` of an `int`. -/
def CONVERT_N_TO_FIXED (N : ℤ) : Res ℤ := int32 (N * F)

/-- `ADD_X_N`, on an `int`. -/
def ADD_X_N (X N : ℤ) : Res ℤ := do
  let n ← int32 (N * F)
  int32 (X + n)

/-- `SUBTRACT_X_N`. -/
def SUBTRACT_X_N (X N : ℤ) : Res ℤ := do
  let n ← int32 (N * F)
  int32 (X - n)

/-- `MULT_X_Y`, an `int64_t`. -/
def MULT_X_Y (X Y : ℤ) : Res ℤ := do
  let p ← int64 (X * Y)
  return p.tdiv F

/-- `DIV_X_Y`, an `int64_t`; division by zero has no result. -/
def DIV_X_Y (X Y : ℤ) : Res ℤ := do
  let p ← int64 (X * F)
  if Y = 0 then .error .overflow else int64 (p.tdiv Y)

/-! ## `threads/thread.c` -/

/-- `PRI_MAX`. -/
def PRI_MAX : ℤ := 63

/-- `PRI_MIN`. -/
def PRI_MIN : ℤ := 0

/-- The fields of `struct thread` that the scheduler computes with. -/
structure Thread where
  tid : ℕ
  nice : ℤ
  recent_cpu : ℤ
  priority : ℤ

/-- The scheduler's variables. -/
structure State where
  ticks : ℕ
  load_avg : ℤ
  idle_thread : ℕ
  all_list : List Thread

/-- `calc_load_avg`. The size of `ready_list` is unsigned, and so is its product with `F` and
the quotient of that. -/
def calc_load_avg (load_avg ready : ℤ) (idle : Bool) : Res ℤ := do
  let m ← int32 (load_avg * 59)
  let temp1 := m.tdiv 60
  let n ← (if idle then uint32 ready else uint32 (ready + 1))
  let f ← uint32 (n * F)
  let temp2 ← int32 (f.tdiv 60)
  int32 (temp1 + temp2)

/-- `calc_recent_cpu`. The sum of the product and `nice` is an `int64_t` before it is stored. -/
def calc_recent_cpu (load_avg : ℤ) (t : Thread) : Res Thread := do
  let converted_load_avg ← int32 (load_avg * 2)
  let divisor ← ADD_X_N converted_load_avg 1
  let q ← DIV_X_Y converted_load_avg divisor
  let temp1 ← int32 q
  let m ← MULT_X_Y temp1 t.recent_cpu
  let n ← int32 (t.nice * F)
  let sum ← int64 (m + n)
  let result ← int32 sum
  return { t with recent_cpu := result }

/-- `calc_priority`. -/
def calc_priority (recent_cpu nice : ℤ) : Res ℤ := do
  let converted_pri_max ← CONVERT_N_TO_FIXED PRI_MAX
  let converted_recent_cpu := recent_cpu.tdiv 4
  let d ← int32 (converted_pri_max - converted_recent_cpu)
  let n ← int32 (2 * nice)
  let result ← SUBTRACT_X_N d n
  let result := result.tdiv F
  return if result < PRI_MIN then PRI_MIN else if PRI_MAX < result then PRI_MAX else result

/-- `t->priority = calc_priority (t->recent_cpu, t->nice)`. -/
def set_priority (t : Thread) : Res Thread := do
  let p ← calc_priority t.recent_cpu t.nice
  return { t with priority := p }

/-- A loop over `all_list` that treats the threads with `p`. -/
def for_each (p : Thread → Prop) [DecidablePred p] (f : Thread → Res Thread) :
    List Thread → Res (List Thread)
  | [] => .ok []
  | t :: rest => do
    let t' ← (if p t then f t else .ok t)
    let rest' ← for_each p f rest
    return t' :: rest'

/-- The loop that leaves out the idle thread. -/
def for_all (idle_thread : ℕ) (f : Thread → Res Thread) (all_list : List Thread) :
    Res (List Thread) :=
  for_each (fun t => t.tid ≠ idle_thread) f all_list

/-- A statement about `thread_current ()`, which `all_list` has. -/
def for_current (current : ℕ) (f : Thread → Res Thread) (all_list : List Thread) :
    Res (List Thread) :=
  for_each (fun t => t.tid = current) f all_list

/-- `thread_current ()->recent_cpu = ADD_X_N (…, 1)`. -/
def charge (t : Thread) : Res Thread := do
  let r ← ADD_X_N t.recent_cpu 1
  return { t with recent_cpu := r }

/-- `timer_interrupt`, as far as it goes to `mlfqs_tick_change`. -/
def mlfqs_tick_change (s : State) (current ready : ℕ) : Res State := do
  let ticks := s.ticks + 1
  let all_list ← (if current ≠ s.idle_thread then for_current current charge s.all_list
    else .ok s.all_list)
  let s := { s with ticks := ticks, all_list := all_list }
  let s ← (if ticks % 100 = 0 then do
      let load_avg ← calc_load_avg s.load_avg ready (decide (current = s.idle_thread))
      let all_list ← for_all s.idle_thread (calc_recent_cpu load_avg) s.all_list
      return { s with load_avg := load_avg, all_list := all_list }
    else .ok s)
  if ticks % 4 = 0 then do
    let all_list ← for_all s.idle_thread set_priority s.all_list
    return { s with all_list := all_list }
  else return s

/-- `thread_set_nice`, up to its `thread_yield`. -/
def thread_set_nice (s : State) (current : ℕ) (nice : ℤ) : Res State := do
  let nice := if 20 < nice then 20 else if nice < -20 then -20 else nice
  let all_list ← for_current current (fun t => do
    let t ← calc_recent_cpu s.load_avg { t with nice := nice }
    set_priority t) s.all_list
  return { s with all_list := all_list }

/-! ## Runs -/

/-- A timer tick in a thread, with the length of `ready_list`; or a call of
`thread_set_nice`. -/
inductive Event
  | tick (current ready : ℕ)
  | set_nice (current : ℕ) (nice : ℤ)

/-- What an event does. -/
def step (s : State) : Event → Res State
  | .tick current ready => mlfqs_tick_change s current ready
  | .set_nice current nice => thread_set_nice s current nice

/-- A sequence of events. -/
def run (s : State) : List Event → Res State
  | [] => .ok s
  | e :: events => do
    let s ← step s e
    run s events

/-- The threads that are runnable at a tick: those on `ready_list` and the one that runs,
unless it is the idle thread. -/
def runnable (idle_thread : ℕ) : Event → ℕ
  | .tick current ready => ready + if current = idle_thread then 0 else 1
  | .set_nice _ _ => 0

/-! ## The load average -/

/-- Truncation of a number that is not negative. -/
theorem tdiv_nonneg {x d : ℤ} (hx : 0 ≤ x) (hd : 0 < d) : 0 ≤ x.tdiv d ∧ x.tdiv d * d ≤ x := by
  rw [Int.tdiv_eq_ediv_of_nonneg hx]
  exact ⟨Int.ediv_nonneg hx hd.le, Int.ediv_mul_le x hd.ne'⟩

/-- Truncation of a number that is not positive goes up. -/
theorem tdiv_nonpos {x d : ℤ} (hx : x ≤ 0) (hd : 0 < d) : x.tdiv d ≤ 0 ∧ x ≤ x.tdiv d * d := by
  have hneg := tdiv_nonneg (neg_nonneg.mpr hx) hd
  rw [Int.neg_tdiv] at hneg
  constructor
  · omega
  · have hmul : -(x.tdiv d) * d = -(x.tdiv d * d) := neg_mul _ _
    omega

section Bounds

variable {R : ℕ} (hR : R ≤ 545)

include hR

/-- **The load average** stays below the number of threads. -/
theorem calc_load_avg_spec {load_avg : ℤ} (hlow : 0 ≤ load_avg) (hhigh : load_avg ≤ R * F)
    {ready : ℕ} {idle : Bool} (hready : ready + (if idle then 0 else 1) ≤ R) :
    ∃ l, calc_load_avg load_avg ready idle = .ok l ∧ 0 ≤ l ∧ l ≤ R * F := by
  unfold F at *
  -- the unsigned count is at most `R`
  obtain ⟨n, hn, hn0, hnR⟩ : ∃ n : ℤ,
      (if idle then uint32 ready else uint32 ((ready : ℤ) + 1)) = .ok n ∧ 0 ≤ n ∧ n ≤ R := by
    cases idle with
    | true =>
      rw [if_pos rfl] at hready
      refine ⟨ready, ?_, by omega, by omega⟩
      rw [if_pos rfl]
      exact uint32_eq (by omega) (by omega)
    | false =>
      rw [if_neg (by simp)] at hready
      refine ⟨ready + 1, ?_, by omega, by omega⟩
      rw [if_neg (by simp)]
      exact uint32_eq (by omega) (by omega)
  have h1 := tdiv_nonneg (by omega : 0 ≤ load_avg * 59) (by norm_num : (0 : ℤ) < 60)
  have h2 := tdiv_nonneg (by omega : 0 ≤ n * 16384) (by norm_num : (0 : ℤ) < 60)
  refine ⟨(load_avg * 59).tdiv 60 + (n * 16384).tdiv 60, ?_, by omega, by omega⟩
  unfold calc_load_avg F
  rw [int32_eq (by omega) (by omega), ok_bind, hn, ok_bind, uint32_eq (by omega) (by omega),
    ok_bind, int32_eq (by omega) (by omega), ok_bind, int32_eq (by omega) (by omega)]

/-! ## `recent_cpu` -/

omit hR in
/-- The factor of `recent_cpu`: below one, and the further below the fewer threads. -/
theorem ratio_spec {load_avg : ℤ} (hlow : 0 ≤ load_avg) (hhigh : load_avg ≤ R * F) :
    0 ≤ (load_avg * 2 * F).tdiv (load_avg * 2 + F) ∧
    (load_avg * 2 * F).tdiv (load_avg * 2 + F) ≤ F ∧
    (load_avg * 2 * F).tdiv (load_avg * 2 + F) * (2 * R + 1) ≤ 2 * R * F := by
  have hF : F = 16384 := rfl
  have hd : 0 < load_avg * 2 + F := by omega
  obtain ⟨hq, hmul⟩ := tdiv_nonneg
    (mul_nonneg (by omega : 0 ≤ load_avg * 2) (by norm_num : (0 : ℤ) ≤ F)) hd
  generalize (load_avg * 2 * F).tdiv (load_avg * 2 + F) = q at hq hmul
  have hqF : q ≤ F := by
    refine le_of_mul_le_mul_right (hmul.trans ?_) hd
    calc load_avg * 2 * F = F * (load_avg * 2) := mul_comm _ _
      _ ≤ F * (load_avg * 2 + F) := mul_le_mul_of_nonneg_left (by omega) (by norm_num)
  refine ⟨hq, hqF, ?_⟩
  -- with the gap to the highest load weighed by `F` instead of `q`
  have hgap : q * (2 * R * F - load_avg * 2) ≤ F * (2 * R * F - load_avg * 2) :=
    mul_le_mul_of_nonneg_right hqF (by rw [hF] at hhigh ⊢; omega)
  have hscaled : q * (2 * R + 1) * F ≤ 2 * R * F * F := by
    calc q * (2 * R + 1) * F
        = q * (load_avg * 2 + F) + q * (2 * R * F - load_avg * 2) := by ring
      _ ≤ load_avg * 2 * F + F * (2 * R * F - load_avg * 2) := add_le_add hmul hgap
      _ = 2 * R * F * F := by ring
  exact le_of_mul_le_mul_right hscaled (by norm_num)

omit hR in
/-- The product of the factor and a value: between the value shrunk and zero. -/
theorem shrink_spec {q x lo hi : ℤ} (hq : 0 ≤ q) (hratio : q * (2 * R + 1) ≤ 2 * R * F)
    (hlo : lo ≤ x) (hhi : x ≤ hi) (hlo0 : lo ≤ 0) (hhi0 : 0 ≤ hi) :
    2 * R * lo ≤ (2 * R + 1) * (q * x).tdiv F ∧ (2 * R + 1) * (q * x).tdiv F ≤ 2 * R * hi := by
  have hR0 : (0 : ℤ) ≤ 2 * R := by omega
  have hF : (0 : ℤ) < F := by norm_num
  rcases le_total 0 x with hx | hx
  · obtain ⟨hm, hmul⟩ := tdiv_nonneg (mul_nonneg hq hx) hF
    constructor
    · exact (mul_nonpos_of_nonneg_of_nonpos hR0 hlo0).trans (mul_nonneg (by omega) hm)
    · have hscaled : (2 * R + 1) * (q * x).tdiv F * F ≤ 2 * R * x * F := by
        calc (2 * R + 1) * (q * x).tdiv F * F
            = (2 * R + 1) * ((q * x).tdiv F * F) := by ring
          _ ≤ (2 * R + 1) * (q * x) := mul_le_mul_of_nonneg_left hmul (by omega)
          _ = q * (2 * R + 1) * x := by ring
          _ ≤ 2 * R * F * x := mul_le_mul_of_nonneg_right hratio hx
          _ = 2 * R * x * F := by ring
      exact (le_of_mul_le_mul_right hscaled hF).trans (mul_le_mul_of_nonneg_left hhi hR0)
  · obtain ⟨hm, hmul⟩ := tdiv_nonpos (mul_nonpos_of_nonneg_of_nonpos hq hx) hF
    constructor
    · have hscaled : 2 * R * x * F ≤ (2 * R + 1) * (q * x).tdiv F * F := by
        calc 2 * R * x * F
            = 2 * R * F * x := by ring
          _ ≤ q * (2 * R + 1) * x := mul_le_mul_of_nonpos_right hratio hx
          _ = (2 * R + 1) * (q * x) := by ring
          _ ≤ (2 * R + 1) * ((q * x).tdiv F * F) := mul_le_mul_of_nonneg_left hmul (by omega)
          _ = (2 * R + 1) * (q * x).tdiv F * F := by ring
      exact (mul_le_mul_of_nonneg_left hlo hR0).trans (le_of_mul_le_mul_right hscaled hF)
    · exact (mul_nonpos_of_nonneg_of_nonpos (by omega) hm).trans (mul_nonneg hR0 hhi0)

/-- **`calc_recent_cpu`.** A value between the lowest and a bound `B` goes to one that is at
most the bound shrunk and `nice` more, and no operation on the way overflows. -/
theorem calc_recent_cpu_spec {load_avg : ℤ} (hlow : 0 ≤ load_avg) (hhigh : load_avg ≤ R * F)
    {t : Thread} (hnice : -20 ≤ t.nice ∧ t.nice ≤ 20) {B : ℤ} (hB0 : 0 ≤ B)
    (hB : B ≤ 120 * (2 * R + 1) * F) (hlo : -20 * (2 * R + 1) * F ≤ t.recent_cpu)
    (hhi : t.recent_cpu ≤ B) :
    ∃ x, calc_recent_cpu load_avg t = .ok { t with recent_cpu := x } ∧
      -20 * (2 * R + 1) * F ≤ x ∧ (2 * R + 1) * (x - 20 * F) ≤ 2 * R * B := by
  have hF : F = 16384 := rfl
  obtain ⟨hq, hqF, hratio⟩ := ratio_spec hlow hhigh
  have hlo0 : -20 * (2 * (R : ℤ) + 1) * F ≤ 0 := by rw [hF]; omega
  obtain ⟨hmlo, hmhi⟩ := shrink_spec hq hratio hlo hhi hlo0 hB0
  have hq64 : load_avg * 2 * F < 2 ^ 63 := by rw [hF] at hhigh ⊢; omega
  have hq64' : -2 ^ 63 ≤ load_avg * 2 * F := by rw [hF]; omega
  have hq_eq : DIV_X_Y (load_avg * 2) (load_avg * 2 + 1 * F)
      = .ok ((load_avg * 2 * F).tdiv (load_avg * 2 + F)) := by
    unfold DIV_X_Y
    rw [int64_eq hq64' hq64, ok_bind, one_mul, if_neg (by rw [hF]; omega)]
    exact int64_eq (by omega) (lt_of_le_of_lt hqF (by norm_num))
  generalize (load_avg * 2 * F).tdiv (load_avg * 2 + F) = q at hq hqF hratio hmlo hmhi hq_eq
  -- the product is within `F` times the bounds of `recent_cpu`
  have hx : -2 ^ 31 ≤ t.recent_cpu ∧ t.recent_cpu < 2 ^ 31 := by
    rw [hF] at hlo hB
    constructor
    · omega
    · omega
  have hprod : -2 ^ 63 ≤ q * t.recent_cpu ∧ q * t.recent_cpu < 2 ^ 63 := by
    rw [hF] at hqF
    constructor
    · nlinarith
    · nlinarith
  generalize hm : (q * t.recent_cpu).tdiv F = m at hmlo hmhi
  -- the sum, from the bounds on the shrunk value
  have hsum_lo : -20 * (2 * R + 1) * F ≤ m + t.nice * F := by
    rw [hF] at hmlo ⊢
    nlinarith
  have hsum_hi : (2 * R + 1) * (m + t.nice * F - 20 * F) ≤ 2 * R * B := by
    rw [hF]
    nlinarith
  have hmB : m ≤ B := by
    nlinarith
  refine ⟨m + t.nice * F, ?_, hsum_lo, hsum_hi⟩
  have hload : load_avg * 2 < 2 ^ 30 := by rw [hF] at hhigh; omega
  have hdivisor : ADD_X_N (load_avg * 2) 1 = .ok (load_avg * 2 + 1 * F) := by
    unfold ADD_X_N
    rw [int32_eq (by norm_num) (by norm_num), ok_bind]
    exact int32_eq (by rw [hF]; omega) (by rw [hF]; omega)
  have hmult : MULT_X_Y q t.recent_cpu = .ok m := by
    unfold MULT_X_Y
    rw [int64_eq hprod.1 hprod.2, ok_bind, hm]
    rfl
  rw [hF] at hsum_lo hB hqF
  unfold calc_recent_cpu
  rw [int32_eq (by omega) (by omega), ok_bind, hdivisor, ok_bind, hq_eq, ok_bind,
    int32_eq (by omega) (by omega), ok_bind, hmult, ok_bind,
    int32_eq (by rw [hF]; omega) (by rw [hF]; omega), ok_bind,
    int64_eq (by rw [hF]; omega) (by rw [hF]; omega), ok_bind,
    int32_eq (by rw [hF]; omega) (by rw [hF]; omega), ok_bind]
  rfl

/-- **`calc_priority`** does not overflow on the values that `recent_cpu` takes. -/
theorem calc_priority_spec {recent_cpu nice : ℤ} (hnice : -20 ≤ nice ∧ nice ≤ 20)
    (hlo : -20 * (2 * R + 1) * F ≤ recent_cpu) (hhi : recent_cpu ≤ 120 * (2 * R + 1) * F) :
    ∃ p, calc_priority recent_cpu nice = .ok p := by
  have hF : F = 16384 := rfl
  rw [hF] at hlo hhi
  have hquarter : -2 ^ 29 ≤ recent_cpu.tdiv 4 ∧ recent_cpu.tdiv 4 < 2 ^ 29 := by
    rcases le_total 0 recent_cpu with h | h
    · have := tdiv_nonneg h (by norm_num : (0 : ℤ) < 4)
      omega
    · have := tdiv_nonpos h (by norm_num : (0 : ℤ) < 4)
      omega
  unfold calc_priority CONVERT_N_TO_FIXED SUBTRACT_X_N PRI_MAX F
  rw [int32_eq (by norm_num) (by norm_num), ok_bind]
  dsimp only
  rw [int32_eq (by omega) (by omega), ok_bind, int32_eq (by omega) (by omega), ok_bind,
    int32_eq (by omega) (by omega), ok_bind, int32_eq (by omega) (by omega), ok_bind]
  exact ⟨_, rfl⟩

/-! ## The invariant -/

/-- A thread whose `recent_cpu` is between the lowest value and `B`. -/
def Within (R : ℕ) (B : ℤ) (t : Thread) : Prop :=
  (-20 ≤ t.nice ∧ t.nice ≤ 20) ∧ -20 * (2 * R + 1) * F ≤ t.recent_cpu ∧ t.recent_cpu ≤ B

omit hR in
theorem Within.mono {B B' : ℤ} {t : Thread} (h : Within R B t) (hB : B ≤ B') : Within R B' t :=
  ⟨h.1, h.2.1, h.2.2.trans hB⟩

/-- The bound of a thread's `recent_cpu`, `phase` ticks after a full second. The idle thread is
never charged, and its value is not computed again either. -/
def top (R idle_thread phase : ℕ) (t : Thread) : ℤ :=
  if t.tid = idle_thread then 20 * (2 * R + 1) * F else (240 * R + 20 + phase) * F

/-- What every event keeps. -/
structure InRange (R : ℕ) (s : State) : Prop where
  load_low : 0 ≤ s.load_avg
  load_high : s.load_avg ≤ R * F
  threads : ∀ t ∈ s.all_list, Within R (top R s.idle_thread (s.ticks % 100) t) t

omit hR in
/-- A loop over `all_list`, from what it does to one thread. -/
theorem for_each_ok {p : Thread → Prop} [DecidablePred p] {f : Thread → Res Thread}
    {P Q : Thread → Prop} (hin : ∀ t, P t → p t → ∃ t', f t = .ok t' ∧ Q t')
    (hout : ∀ t, P t → ¬ p t → Q t) {l : List Thread} (hl : ∀ t ∈ l, P t) :
    ∃ l', for_each p f l = .ok l' ∧ ∀ t ∈ l', Q t := by
  induction l with
  | nil => exact ⟨[], rfl, by simp⟩
  | cons t rest ih =>
    obtain ⟨rest', hrest, hQ⟩ := ih (fun u hu => hl u (List.mem_cons_of_mem _ hu))
    have hP := hl t List.mem_cons_self
    obtain ⟨t', ht', hQt⟩ : ∃ t', (if p t then f t else .ok t) = .ok t' ∧ Q t' := by
      by_cases hp : p t
      · rw [if_pos hp]
        exact hin t hP hp
      · exact ⟨t, if_neg hp, hout t hP hp⟩
    refine ⟨t' :: rest', ?_, ?_⟩
    · unfold for_each
      rw [ht', ok_bind, hrest]
      rfl
    · intro u hu
      rcases List.mem_cons.mp hu with rfl | hu
      · exact hQt
      · exact hQ u hu

omit hR in
/-- The bound is one that `calc_recent_cpu` keeps. -/
theorem top_le {idle_thread phase : ℕ} (hphase : phase ≤ 100) (t : Thread) :
    20 * (2 * R + 1) * F ≤ top R idle_thread phase t ∧
    top R idle_thread phase t ≤ 120 * (2 * R + 1) * F := by
  have hF : F = 16384 := rfl
  unfold top
  rw [hF]
  by_cases h : t.tid = idle_thread
  · rw [if_pos h]
    omega
  · rw [if_neg h]
    omega

/-- `set_priority` leaves `recent_cpu` alone. -/
theorem set_priority_spec {idle_thread phase : ℕ} (hphase : phase ≤ 100) {t : Thread}
    (h : Within R (top R idle_thread phase t) t) :
    ∃ t', set_priority t = .ok t' ∧ Within R (top R idle_thread phase t') t' := by
  obtain ⟨p, hp⟩ := calc_priority_spec hR h.1 h.2.1 (h.2.2.trans (top_le hphase t).2)
  refine ⟨{ t with priority := p }, ?_, h⟩
  unfold set_priority
  rw [hp]
  rfl

/-- A tick more for the thread that runs. -/
theorem charge_spec {idle_thread phase : ℕ} (hphase : phase < 100) {t : Thread}
    (hidle : t.tid ≠ idle_thread) (h : Within R (top R idle_thread phase t) t) :
    ∃ t', charge t = .ok t' ∧ Within R (top R idle_thread (phase + 1) t') t' := by
  have hF : F = 16384 := rfl
  obtain ⟨hnice, hlo, hhi⟩ := h
  unfold top at hhi
  rw [if_neg hidle, hF] at hhi
  refine ⟨{ t with recent_cpu := t.recent_cpu + 1 * F }, ?_, hnice, ?_, ?_⟩
  · unfold charge ADD_X_N
    rw [hF] at hlo
    rw [int32_eq (by norm_num) (by norm_num), ok_bind,
      int32_eq (by rw [hF]; omega) (by rw [hF]; omega), ok_bind]
    rfl
  · exact hlo.trans (by rw [hF]; simp)
  · unfold top
    rw [if_neg hidle, hF]
    dsimp only
    omega

/-- A full second: the bound goes back to its start. -/
theorem decay_spec {idle_thread : ℕ} {load_avg : ℤ} (hlow : 0 ≤ load_avg)
    (hhigh : load_avg ≤ R * F) {t : Thread} (hidle : t.tid ≠ idle_thread)
    (h : Within R (top R idle_thread 100 t) t) :
    ∃ t', calc_recent_cpu load_avg t = .ok t' ∧ Within R (top R idle_thread 0 t') t' := by
  have hF : F = 16384 := rfl
  obtain ⟨hnice, hlo, hhi⟩ := h
  have hB := @top_le R idle_thread 100 le_rfl t
  obtain ⟨x, hx, hxlo, hxhi⟩ := calc_recent_cpu_spec hR hlow hhigh hnice
    (le_trans (by rw [hF]; omega) hB.1) hB.2 hlo hhi
  refine ⟨_, hx, hnice, hxlo, ?_⟩
  unfold top at hxhi ⊢
  rw [if_neg hidle] at hxhi ⊢
  rw [hF] at hxhi ⊢
  dsimp only
  -- at 100 ticks the bound is the full `120 (2 R + 1)`
  have hcancel : (2 * (R : ℤ) + 1) * (x - 20 * 16384) ≤ (2 * R + 1) * (240 * R * 16384) := by
    calc (2 * (R : ℤ) + 1) * (x - 20 * 16384)
        ≤ 2 * R * ((240 * R + 20 + (100 : ℕ)) * 16384) := hxhi
      _ = (2 * R + 1) * (240 * R * 16384) := by push_cast; ring
  have := le_of_mul_le_mul_left hcancel (by omega)
  push_cast
  linarith

/-- `thread_set_nice` in the middle of a second keeps the bound. -/
theorem renice_spec {idle_thread phase : ℕ} (hphase : phase ≤ 100) {load_avg : ℤ}
    (hlow : 0 ≤ load_avg) (hhigh : load_avg ≤ R * F) {t : Thread}
    (h : Within R (top R idle_thread phase t) t) :
    ∃ t', calc_recent_cpu load_avg t = .ok t' ∧ Within R (top R idle_thread phase t') t' := by
  have hF : F = 16384 := rfl
  obtain ⟨hnice, hlo, hhi⟩ := h
  have hB := @top_le R idle_thread phase hphase t
  obtain ⟨x, hx, hxlo, hxhi⟩ := calc_recent_cpu_spec hR hlow hhigh hnice
    (le_trans (by rw [hF]; omega) hB.1) hB.2 hlo hhi
  refine ⟨_, hx, hnice, hxlo, ?_⟩
  change x ≤ top R idle_thread phase t
  generalize top R idle_thread phase t = B at hB hxhi
  have hcancel : (2 * (R : ℤ) + 1) * x ≤ (2 * R + 1) * B := by
    calc (2 * (R : ℤ) + 1) * x = (2 * R + 1) * (x - 20 * F) + 20 * (2 * R + 1) * F := by ring
      _ ≤ 2 * R * B + B := add_le_add hxhi hB.1
      _ = (2 * R + 1) * B := by ring
  exact le_of_mul_le_mul_left hcancel (by omega)

/-- **A tick** goes through and keeps the ranges, with no more than `R` threads runnable. -/
theorem tick_spec {s : State} (h : InRange R s) {current ready : ℕ}
    (hready : runnable s.idle_thread (.tick current ready) ≤ R) :
    ∃ s', mlfqs_tick_change s current ready = .ok s' ∧ InRange R s' ∧
      s'.idle_thread = s.idle_thread := by
  have hphase : s.ticks % 100 < 100 := Nat.mod_lt _ (by norm_num)
  -- the thread that runs is charged
  obtain ⟨charged, hcharged, hwithin⟩ : ∃ l,
      (if current ≠ s.idle_thread then for_current current charge s.all_list
        else .ok s.all_list) = .ok l ∧
      ∀ t ∈ l, Within R (top R s.idle_thread (s.ticks % 100 + 1) t) t := by
    have hgrow : ∀ t, Within R (top R s.idle_thread (s.ticks % 100) t) t →
        Within R (top R s.idle_thread (s.ticks % 100 + 1) t) t := by
      intro t ht
      refine ht.mono ?_
      unfold top F
      split
      · exact le_rfl
      · push_cast
        omega
    by_cases hcurrent : current ≠ s.idle_thread
    · rw [if_pos hcurrent]
      refine for_each_ok (fun t ht htid => ?_) (fun t ht _ => hgrow t ht) h.threads
      exact charge_spec hR hphase (htid ▸ hcurrent) ht
    · exact ⟨s.all_list, if_neg hcurrent, fun t ht => hgrow t (h.threads t ht)⟩
  -- a full second computes the load average and every `recent_cpu` again
  obtain ⟨s₁, hs₁, hrange⟩ : ∃ s₁,
      (if (s.ticks + 1) % 100 = 0 then do
        let load_avg ← calc_load_avg s.load_avg ready (decide (current = s.idle_thread))
        let all_list ← for_all s.idle_thread (calc_recent_cpu load_avg) charged
        return { s with ticks := s.ticks + 1, load_avg := load_avg, all_list := all_list }
      else .ok { s with ticks := s.ticks + 1, all_list := charged }) = .ok s₁ ∧
      InRange R s₁ ∧ s₁.idle_thread = s.idle_thread ∧ s₁.ticks = s.ticks + 1 := by
    by_cases hfull : (s.ticks + 1) % 100 = 0
    · have hcount : ready + (if decide (current = s.idle_thread) then 0 else 1) ≤ R := by
        unfold runnable at hready
        simpa using hready
      obtain ⟨l, hl, hl0, hlR⟩ := calc_load_avg_spec hR h.load_low h.load_high hcount
      have hsecond : s.ticks % 100 + 1 = 100 := by omega
      rw [hsecond] at hwithin
      have hidle : ∀ t, Within R (top R s.idle_thread 100 t) t → ¬ t.tid ≠ s.idle_thread →
          Within R (top R s.idle_thread 0 t) t := by
        intro t ht htid
        refine ht.mono ?_
        unfold top
        rw [if_pos (not_not.mp htid), if_pos (not_not.mp htid)]
      obtain ⟨all', hall, hQ⟩ := for_each_ok
        (fun t ht htid => decay_spec hR hl0 hlR htid ht) hidle hwithin
      refine ⟨{ s with ticks := s.ticks + 1, load_avg := l, all_list := all' }, ?_, ?_, rfl, rfl⟩
      · rw [if_pos hfull, hl, ok_bind]
        unfold for_all
        rw [hall]
        rfl
      · refine ⟨hl0, hlR, fun t ht => ?_⟩
        dsimp only
        rw [hfull]
        exact hQ t ht
    · refine ⟨_, if_neg hfull, ⟨h.load_low, h.load_high, fun t ht => ?_⟩, rfl, rfl⟩
      have hnext : (s.ticks + 1) % 100 = s.ticks % 100 + 1 := by omega
      dsimp only
      rw [hnext]
      exact hwithin t ht
  obtain ⟨hrange, hidle, hticks⟩ := hrange
  unfold mlfqs_tick_change
  dsimp only
  rw [hcharged, ok_bind, hs₁, ok_bind]
  by_cases hfour : (s.ticks + 1) % 4 = 0
  · rw [if_pos hfour]
    obtain ⟨all', hall, hQ⟩ := for_each_ok (p := fun t => t.tid ≠ s₁.idle_thread)
      (fun t ht _ => set_priority_spec hR (Nat.mod_lt _ (by norm_num)).le ht)
      (fun t ht _ => ht) hrange.threads
    refine ⟨{ s₁ with all_list := all' }, ?_, ⟨hrange.load_low, hrange.load_high, hQ⟩, hidle⟩
    unfold for_all
    rw [hall]
    rfl
  · exact ⟨s₁, if_neg hfour, hrange, hidle⟩

/-- **`thread_set_nice`** goes through and keeps the ranges. -/
theorem set_nice_spec {s : State} (h : InRange R s) (current : ℕ) (nice : ℤ) :
    ∃ s', thread_set_nice s current nice = .ok s' ∧ InRange R s' ∧
      s'.idle_thread = s.idle_thread := by
  have hphase : s.ticks % 100 ≤ 100 := (Nat.mod_lt _ (by norm_num)).le
  unfold thread_set_nice
  dsimp only
  obtain ⟨n, hn, hrange⟩ : ∃ n,
      (if 20 < nice then 20 else if nice < -20 then -20 else nice) = n ∧ -20 ≤ n ∧ n ≤ 20 := by
    refine ⟨_, rfl, ?_⟩
    split
    · omega
    · split
      · omega
      · omega
  rw [hn]
  have hcurrent : ∀ t, Within R (top R s.idle_thread (s.ticks % 100) t) t → t.tid = current →
      ∃ t', (do
        let t ← calc_recent_cpu s.load_avg { t with nice := n }
        set_priority t) = .ok t' ∧ Within R (top R s.idle_thread (s.ticks % 100) t') t' := by
    intro t ht _
    have hrenice : Within R (top R s.idle_thread (s.ticks % 100) { t with nice := n })
        { t with nice := n } := ⟨hrange, ht.2⟩
    obtain ⟨t', ht', hwithin⟩ := renice_spec hR hphase h.load_low h.load_high hrenice
    rw [ht', ok_bind]
    exact set_priority_spec hR hphase hwithin
  obtain ⟨all', hall, hQ⟩ := for_each_ok hcurrent (fun t ht _ => ht) h.threads
  refine ⟨{ s with all_list := all' }, ?_, ⟨h.load_low, h.load_high, hQ⟩, rfl⟩
  unfold for_current
  rw [hall]
  rfl

/-- One event. -/
theorem step_spec {s : State} (h : InRange R s) {e : Event}
    (hready : runnable s.idle_thread e ≤ R) :
    ∃ s', step s e = .ok s' ∧ InRange R s' ∧ s'.idle_thread = s.idle_thread := by
  cases e with
  | tick current ready => exact tick_spec hR h hready
  | set_nice current nice => exact set_nice_spec hR h current nice

/-- Every sequence of events. -/
theorem run_spec {s : State} (h : InRange R s) {events : List Event}
    (hready : ∀ e ∈ events, runnable s.idle_thread e ≤ R) :
    ∃ s', run s events = .ok s' ∧ InRange R s' := by
  induction events generalizing s with
  | nil => exact ⟨s, rfl, h⟩
  | cons e events ih =>
    obtain ⟨s₁, hs₁, hrange, hidle⟩ := step_spec hR h (hready e List.mem_cons_self)
    obtain ⟨s', hs', hrange'⟩ := ih hrange
      (fun e' he' => hidle ▸ hready e' (List.mem_cons_of_mem _ he'))
    refine ⟨s', ?_, hrange'⟩
    unfold run
    rw [hs₁]
    exact hs'

/-- **The arithmetic stays in range.** From a load average of zero and threads that have used no
CPU, every sequence of ticks and of calls of `thread_set_nice` with at most `R` threads runnable
goes through without an overflow, and leaves the load average and every `recent_cpu` within
their bounds. -/
theorem mlfqs_in_range {s : State} (hload : s.load_avg = 0)
    (hrecent : ∀ t ∈ s.all_list, t.recent_cpu = 0)
    (hnice : ∀ t ∈ s.all_list, -20 ≤ t.nice ∧ t.nice ≤ 20) {events : List Event}
    (hready : ∀ e ∈ events, runnable s.idle_thread e ≤ R) :
    ∃ s', run s events = .ok s' ∧ 0 ≤ s'.load_avg ∧ s'.load_avg ≤ R * 2 ^ 14 ∧
      ∀ t ∈ s'.all_list, -20 * (2 * R + 1) * 2 ^ 14 ≤ t.recent_cpu ∧
        t.recent_cpu ≤ 120 * (2 * R + 1) * 2 ^ 14 := by
  have hF : F = 2 ^ 14 := by norm_num
  have hphase : ∀ n : ℕ, n % 100 ≤ 100 := fun n => (Nat.mod_lt n (by norm_num)).le
  have hinit : InRange R s := by
    refine ⟨hload.ge, ?_, fun t ht => ⟨hnice t ht, ?_, ?_⟩⟩
    · rw [hload]
      positivity
    · rw [hrecent t ht]
      unfold F
      omega
    · rw [hrecent t ht]
      refine le_trans ?_ (top_le (hphase s.ticks) t).1
      positivity
  obtain ⟨s', hs', hrange⟩ := run_spec hR hinit hready
  refine ⟨s', hs', hrange.load_low, hF ▸ hrange.load_high, fun t ht => ?_⟩
  obtain ⟨_, hlo, hhi⟩ := hrange.threads t ht
  rw [← hF]
  exact ⟨hlo, hhi.trans (top_le (hphase s'.ticks) t).2⟩

end Bounds

/-- Two threads and the idle thread, from the 99th tick on: the second is full at once, and then
the thread that runs lowers its `nice`. -/
theorem mlfqs_in_range_two :
    ∃ s', run ⟨99, 0, 0, [⟨0, 0, 0, 0⟩, ⟨1, 0, 0, 31⟩, ⟨2, 20, 0, 31⟩]⟩
        [.tick 1 1, .set_nice 1 (-30), .tick 0 2] = .ok s' ∧
      0 ≤ s'.load_avg ∧ s'.load_avg ≤ (2 : ℕ) * 2 ^ 14 ∧
      ∀ t ∈ s'.all_list, -20 * (2 * (2 : ℕ) + 1) * 2 ^ 14 ≤ t.recent_cpu ∧
        t.recent_cpu ≤ 120 * (2 * (2 : ℕ) + 1) * 2 ^ 14 :=
  mlfqs_in_range (by decide) rfl (by decide) (by decide) (by decide)

end Pintos.Threads.Mlfqs
