/-
The console lock (`lib/kernel/console.c`): what threads print does not mix.

`printf`, `puts`, `putbuf` and `putchar` print between `acquire_console` and `release_console`. A
thread may be in one of them when it calls another, so the lock counts how deep its holder is in
it. An interrupt handler prints without it. A character goes to the serial port first and then to
the screen, and control may go elsewhere in between.

Whatever the interleaving, the characters of the threads come out as whole printouts, one after
the other, on both devices. A printout is what a thread prints from the call that takes the lock
to the return that gives it back.
-/
import Pintos.Base
import Pintos.Library.StepSystem

set_option autoImplicit false

namespace Pintos.Kernel.Console

open StepSystem

/-- A thread. -/
abbrev Tid := ℕ

/-! ## The code -/

/-- Where a thread is: in how many of the functions, and the character that it has sent to the
serial port and not yet to the screen. The other fields are the history: its printouts, and
what it has printed since it took the lock. -/
structure Thread where
  nest : ℕ
  half : Option UInt8
  whole : List (List UInt8)
  part : List UInt8

/-- The static variables, what the devices have got, and from whom, and the threads. -/
structure State where
  holder : Option Tid
  use_console_lock : Bool
  console_lock_depth : ℕ
  write_cnt : ℕ
  serial : List (Option Tid × UInt8)
  vga : List (Option Tid × UInt8)
  threads : Tid → Thread

/-- A thread goes on. -/
def State.set (s : State) (t : Tid) (r : Thread) : State :=
  { s with threads := Function.update s.threads t r }

/-- `lock_held_by_current_thread (&console_lock)`. -/
def State.held_by (s : State) (t : Tid) : Prop := s.holder = some t

instance (s : State) (t : Tid) : Decidable (s.held_by t) := inferInstanceAs (Decidable (_ = _))

/-- `acquire_console`, called by a thread, up to the return; a thread that has to wait for the
lock is `none`. -/
def acquire_console (s : State) (t : Tid) : Option State :=
  if s.use_console_lock then
    if s.held_by t then some { s with console_lock_depth := s.console_lock_depth + 1 }
    else if s.holder = none then some { s with holder := some t }
    else none
  else some s

/-- `release_console`, called by a thread. -/
def release_console (s : State) (t : Tid) : Res State :=
  if s.use_console_lock then
    if s.console_lock_depth > 0 then
      .ok { s with console_lock_depth := s.console_lock_depth - 1 }
    else do
      ASSERT (s.held_by t)
      return { s with holder := none }
  else .ok s

/-- `console_locked_by_current_thread`; no thread is the current one in an interrupt handler. -/
def console_locked_by_current_thread (s : State) (t : Option Tid) : Prop :=
  t = none ∨ s.use_console_lock = false ∨ s.holder = t

instance (s : State) (t : Option Tid) : Decidable (console_locked_by_current_thread s t) :=
  inferInstanceAs (Decidable (_ ∨ _ ∨ _))

/-- The first half of `putchar_have_lock`, to the end of `serial_putc`. -/
def putchar_serial (s : State) (t : Option Tid) (c : UInt8) : Res State := do
  ASSERT (console_locked_by_current_thread s t)
  return { s with write_cnt := s.write_cnt + 1, serial := s.serial ++ [(t, c)] }

/-- The second half, `vga_putc`. -/
def putchar_vga (s : State) (t : Option Tid) (c : UInt8) : State :=
  { s with vga := s.vga ++ [(t, c)] }

/-- What happens. -/
inductive Event
  /-- A thread calls `acquire_console`. -/
  | acquire (t : Tid)
  /-- It prints a character: the one half, and the other. -/
  | put (t : Tid) (c : UInt8)
  | finish (t : Tid)
  /-- It calls `release_console`. -/
  | release (t : Tid)
  /-- An interrupt handler prints a character. -/
  | handler (c : UInt8)
  /-- `console_panic`. -/
  | panic
  deriving DecidableEq

/-- The calls nest: a thread prints inside `acquire_console` and `release_console`, and it does one
thing after the other. -/
def Nests (s : State) : Event → Prop
  | .acquire t => (s.threads t).half = none
  | .put t _ => (s.threads t).half = none ∧ 0 < (s.threads t).nest
  | .finish t => (s.threads t).half ≠ none
  | .release t => (s.threads t).half = none ∧ 0 < (s.threads t).nest
  | .handler _ | .panic => True

instance (s : State) : (e : Event) → Decidable (Nests s e)
  | .acquire t => inferInstanceAs (Decidable ((s.threads t).half = none))
  | .put t _ => inferInstanceAs (Decidable ((s.threads t).half = none ∧ 0 < (s.threads t).nest))
  | .finish t => inferInstanceAs (Decidable ((s.threads t).half ≠ none))
  | .release t => inferInstanceAs (Decidable ((s.threads t).half = none ∧ 0 < (s.threads t).nest))
  | .handler _ | .panic => isTrue trivial

/-- A thread is in one function more. -/
def Thread.enter (r : Thread) : Thread := { r with nest := r.nest + 1 }

/-- It is in one less; with the last one its printout is whole. -/
def Thread.exit (r : Thread) : Thread :=
  if r.nest = 1 then { r with nest := 0, whole := r.whole ++ [r.part], part := [] }
  else { r with nest := r.nest - 1 }

/-- It has printed half a character. -/
def Thread.put (r : Thread) (c : UInt8) : Thread :=
  { r with half := some c, part := r.part ++ [c] }

/-- One step. A thread that waits for the lock tries again. -/
def exec (s : State) : Event → Res State
  | .acquire t =>
    match acquire_console s t with
    | none => .ok s
    | some s => .ok (s.set t (s.threads t).enter)
  | .put t c => do
    let s ← putchar_serial s (some t) c
    return s.set t ((s.threads t).put c)
  | .finish t =>
    match (s.threads t).half with
    | none => .ok s
    | some c => .ok ((putchar_vga s (some t) c).set t { s.threads t with half := none })
  | .release t => do
    let s ← release_console s t
    return s.set t (s.threads t).exit
  | .handler c => do
    let s ← putchar_serial s none c
    return putchar_vga s none c
  | .panic => .ok { s with use_console_lock := false }

/-- The state after `console_init`. -/
def console_init : State := ⟨none, true, 0, 0, [], [], fun _ => ⟨0, none, [], []⟩⟩

/-- The runs from there. -/
def console : System State Event where
  init s := s = console_init
  step s e s' := Nests s e ∧ exec s e = .ok s'

/-- The kernel has not panicked. -/
def Calm (_ : State) (e : Event) : Prop := e ≠ .panic

/-! ## Printouts -/

/-- What the threads have printed. -/
def by_threads (log : List (Option Tid × UInt8)) : List (Tid × UInt8) :=
  log.filterMap fun e => e.1.map fun t => (t, e.2)

/-- Printouts, one after the other. -/
def laid_out (order : List (Tid × List UInt8)) : List (Tid × UInt8) :=
  order.flatMap fun p => p.2.map fun c => (p.1, c)

/-- The printouts of a thread. -/
def of_thread (order : List (Tid × List UInt8)) (t : Tid) : List (List UInt8) :=
  (order.filter fun p => p.1 = t).map Prod.snd

/-- What the holder has printed since it took the lock. -/
def State.under_way (s : State) : List (Tid × UInt8) :=
  match s.holder with
  | none => []
  | some h => (s.threads h).part.map fun c => (h, c)

/-- The character of it that is not on the screen yet. -/
def State.in_flight (s : State) : List (Tid × UInt8) :=
  match s.holder with
  | none => []
  | some h => (s.threads h).half.toList.map fun c => (h, c)

/-- A thread outside. -/
def Thread.Outside (r : Thread) : Prop := r.nest = 0 ∧ r.half = none ∧ r.part = []

/-- Who is inside: the holder, as deep as the counter says and one more; and nobody else. -/
structure ConsoleInv (s : State) : Prop where
  locking : s.use_console_lock = true
  outside : ∀ t, s.holder ≠ some t → (s.threads t).Outside
  depth : ∀ h, s.holder = some h → (s.threads h).nest = s.console_lock_depth + 1
  free : s.holder = none → s.console_lock_depth = 0

/-- The printouts in the order `order`, and then what is under way. -/
structure Serial (s : State) (order : List (Tid × List UInt8)) : Prop where
  whole : ∀ t, of_thread order t = (s.threads t).whole
  serial : by_threads s.serial = laid_out order ++ s.under_way
  vga : by_threads s.vga ++ s.in_flight = laid_out order ++ s.under_way

@[simp] theorem by_threads_thread (log : List (Option Tid × UInt8)) (t : Tid) (c : UInt8) :
    by_threads (log ++ [(some t, c)]) = by_threads log ++ [(t, c)] := by
  simp [by_threads]

@[simp] theorem by_threads_handler (log : List (Option Tid × UInt8)) (c : UInt8) :
    by_threads (log ++ [(none, c)]) = by_threads log := by
  simp [by_threads]

theorem laid_out_append (order : List (Tid × List UInt8)) (t : Tid) (l : List UInt8) :
    laid_out (order ++ [(t, l)]) = laid_out order ++ l.map fun c => (t, c) := by
  simp [laid_out]

theorem of_thread_append_self (order : List (Tid × List UInt8)) (t : Tid) (l : List UInt8) :
    of_thread (order ++ [(t, l)]) t = of_thread order t ++ [l] := by
  simp [of_thread]

theorem of_thread_append_of_ne {t u : Tid} (h : u ≠ t) (order : List (Tid × List UInt8))
    (l : List UInt8) : of_thread (order ++ [(t, l)]) u = of_thread order u := by
  simp [of_thread, h.symm]

/-! ## Steps -/

section Steps

variable {s s' : State} {t : Tid} {order : List (Tid × List UInt8)} {r : Thread} {c : UInt8}

@[simp] theorem set_threads_self (s : State) (t : Tid) (r : Thread) :
    (s.set t r).threads t = r := Function.update_self _ _ _

theorem set_threads_of_ne {u : Tid} (h : u ≠ t) (s : State) (r : Thread) :
    (s.set t r).threads u = s.threads u := Function.update_of_ne h _ _

/-- A thread that is inside holds the lock. -/
theorem ConsoleInv.holder (h : ConsoleInv s) (hin : 0 < (s.threads t).nest) :
    s.holder = some t := by
  by_contra hne
  exact absurd (h.outside t hne).1 hin.ne'

/-- The others stay outside while the holder goes on. -/
theorem ConsoleInv.outside_set {u : Tid} (h : ConsoleInv s) (hholder : s.holder = some t)
    (hu : s.holder ≠ some u) : ((s.set t r).threads u).Outside := by
  have hne : u ≠ t := fun heq => hu (heq ▸ hholder)
  rw [set_threads_of_ne hne]
  exact h.outside u hu

/-- The holder goes on inside. -/
theorem ConsoleInv.set (h : ConsoleInv s) (hholder : s.holder = some t)
    (hnest : r.nest = (s.threads t).nest) : ConsoleInv (s.set t r) := by
  refine ⟨h.locking, fun u hu => h.outside_set hholder hu, fun u hu => ?_, h.free⟩
  · obtain rfl := Option.some.inj (hholder.symm.trans hu)
    rw [set_threads_self, hnest]
    exact h.depth t hholder

theorem under_way_eq (hholder : s.holder = some t) :
    s.under_way = (s.threads t).part.map fun c => (t, c) := by
  unfold State.under_way
  rw [hholder]

theorem in_flight_eq (hholder : s.holder = some t) :
    s.in_flight = (s.threads t).half.toList.map fun c => (t, c) := by
  unfold State.in_flight
  rw [hholder]

/-- The printouts of the other threads are the same. -/
theorem whole_update {f : Tid → Thread} (h : ∀ u, of_thread order u = (f u).whole)
    (hwhole : r.whole = (f t).whole) (u : Tid) :
    of_thread order u = (Function.update f t r u).whole := by
  by_cases hu : u = t
  · rw [hu, Function.update_self, hwhole]
    exact h t
  · rw [Function.update_of_ne hu]
    exact h u

/-- What is to be shown while `t` holds the lock. -/
theorem Serial.of_holder (hholder : s.holder = some t) (hr : s.threads t = r)
    (hwhole : ∀ u, of_thread order u = (s.threads u).whole)
    (hlog : by_threads s.serial = laid_out order ++ r.part.map fun c => (t, c))
    (hvga : by_threads s.vga ++ (r.half.toList.map fun c => (t, c)) =
      laid_out order ++ r.part.map fun c => (t, c)) : Serial s order := by
  refine ⟨hwhole, ?_, ?_⟩
  · rw [under_way_eq hholder, hr, hlog]
  · rw [under_way_eq hholder, in_flight_eq hholder, hr, hvga]

/-- **The lock is taken**, once more or for the first time. -/
theorem ConsoleInv.acquire (h : ConsoleInv s) (hserial : Serial s order)
    (hs : exec s (.acquire t) = .ok s') : ConsoleInv s' ∧ Serial s' order := by
  have hlog := hserial.serial
  have hvga := hserial.vga
  unfold exec acquire_console at hs
  dsimp only at hs
  rw [if_pos h.locking] at hs
  by_cases hheld : s.held_by t
  · rw [if_pos hheld] at hs
    obtain rfl := Except.ok.inj hs
    have hholder : s.holder = some t := hheld
    rw [under_way_eq hholder] at hlog hvga
    rw [in_flight_eq hholder] at hvga
    refine ⟨⟨h.locking, fun u hu => h.outside_set hholder hu, fun u hu => ?_, fun hnone => ?_⟩,
      Serial.of_holder hholder (set_threads_self _ _ _) (whole_update hserial.whole rfl) hlog hvga⟩
    · obtain rfl := Option.some.inj (hholder.symm.trans hu)
      rw [set_threads_self]
      exact congrArg (· + 1) (h.depth t hholder)
    · cases hholder.symm.trans hnone
  rw [if_neg hheld] at hs
  by_cases hfree : s.holder = none
  · rw [if_pos hfree] at hs
    obtain rfl := Except.ok.inj hs
    -- the thread comes from outside
    obtain ⟨hnest, hhalf, hpart⟩ := h.outside t (by rw [hfree]; exact Option.some_ne_none t |>.symm)
    unfold State.under_way at hlog hvga
    unfold State.in_flight at hvga
    rw [hfree] at hlog hvga
    refine ⟨⟨h.locking, fun u hu => ?_, fun u hu => ?_, fun hnone => ?_⟩,
      Serial.of_holder rfl (set_threads_self _ _ _) (whole_update hserial.whole rfl) ?_ ?_⟩
    · have hne : u ≠ t := fun heq => hu (heq ▸ rfl)
      rw [set_threads_of_ne hne]
      exact h.outside u (by rw [hfree]; exact Option.some_ne_none u |>.symm)
    · obtain rfl := Option.some.inj hu
      rw [set_threads_self]
      change (s.threads t).nest + 1 = s.console_lock_depth + 1
      rw [hnest, h.free hfree]
    · cases hnone
    · change by_threads s.serial = laid_out order ++ (s.threads t).part.map _
      rw [hpart]
      exact hlog
    · change by_threads s.vga ++ (s.threads t).half.toList.map _ =
        laid_out order ++ (s.threads t).part.map _
      rw [hpart, hhalf]
      exact hvga
  · rw [if_neg hfree] at hs
    obtain rfl := Except.ok.inj hs
    exact ⟨h, hserial⟩

/-- **The lock is given back**, or the counter counts down. -/
theorem ConsoleInv.release (h : ConsoleInv s) (hserial : Serial s order)
    (hhalf : (s.threads t).half = none) (hin : 0 < (s.threads t).nest) :
    ∃ s' order', exec s (.release t) = .ok s' ∧ ConsoleInv s' ∧ Serial s' order' := by
  have hholder := h.holder hin
  have hdepth := h.depth t hholder
  have hlog := hserial.serial
  have hvga := hserial.vga
  rw [under_way_eq hholder] at hlog hvga
  rw [in_flight_eq hholder, hhalf] at hvga
  by_cases hdeep : s.console_lock_depth > 0
  · -- one function less, and still inside
    have hexit : (s.threads t).exit = { s.threads t with nest := (s.threads t).nest - 1 } :=
      if_neg (by omega)
    refine ⟨{ s with console_lock_depth := s.console_lock_depth - 1 }.set t (s.threads t).exit,
      order, ?_, ⟨h.locking, fun u hu => h.outside_set hholder hu, fun u hu => ?_, fun hnone => ?_⟩,
      Serial.of_holder hholder (set_threads_self _ _ _) (whole_update hserial.whole ?_) ?_ ?_⟩
    · simp only [exec, release_console, if_pos h.locking, if_pos hdeep]
      rfl
    · obtain rfl := Option.some.inj (hholder.symm.trans hu)
      rw [set_threads_self, hexit]
      change (s.threads t).nest - 1 = s.console_lock_depth - 1 + 1
      omega
    · cases hholder.symm.trans hnone
    · rw [hexit]
    · rw [hexit]
      exact hlog
    · rw [hexit, hhalf]
      exact hvga
  · -- the lock goes, and what was under way is a printout more
    have hexit : (s.threads t).exit = { s.threads t with
        nest := 0, whole := (s.threads t).whole ++ [(s.threads t).part], part := [] } :=
      if_pos (by omega)
    refine ⟨{ s with holder := none }.set t (s.threads t).exit, order ++ [(t, (s.threads t).part)],
      ?_, ⟨h.locking, fun u _ => ?_, fun u hu => ?_, fun _ => ?_⟩, fun u => ?_, ?_, ?_⟩
    · have hheld : s.held_by t := hholder
      simp only [exec, release_console, if_pos h.locking, if_neg hdeep, ASSERT_pos hheld]
      rfl
    · by_cases hu : u = t
      · rw [hu, set_threads_self, hexit]
        exact ⟨rfl, hhalf, rfl⟩
      · rw [set_threads_of_ne hu]
        exact h.outside u fun heq => hu (Option.some.inj (heq.symm.trans hholder))
    · cases hu
    · exact Nat.eq_zero_of_not_pos hdeep
    · by_cases hu : u = t
      · rw [hu, set_threads_self, hexit, of_thread_append_self, hserial.whole t]
      · rw [set_threads_of_ne hu, of_thread_append_of_ne hu]
        exact hserial.whole u
    · rw [laid_out_append]
      exact hlog.trans (List.append_nil _).symm
    · rw [laid_out_append]
      exact hvga.trans (List.append_nil _).symm

/-- **Half a character.** -/
theorem ConsoleInv.put (h : ConsoleInv s) (hserial : Serial s order)
    (hhalf : (s.threads t).half = none) (hin : 0 < (s.threads t).nest) (c : UInt8) :
    ∃ s', exec s (.put t c) = .ok s' ∧ ConsoleInv s' ∧ Serial s' order := by
  have hholder := h.holder hin
  have hlog := hserial.serial
  have hvga := hserial.vga
  rw [under_way_eq hholder] at hlog hvga
  rw [in_flight_eq hholder, hhalf] at hvga
  have hlocked : console_locked_by_current_thread s (some t) := Or.inr (Or.inr hholder)
  -- the screen has caught up before the next character
  rw [Option.toList_none, List.map_nil, List.append_nil] at hvga
  refine ⟨{ s with write_cnt := s.write_cnt + 1, serial := s.serial ++ [(some t, c)] }.set t
    ((s.threads t).put c), by rw [exec, putchar_serial, ASSERT_pos hlocked]; rfl,
    ?_, Serial.of_holder hholder (set_threads_self _ _ _) ?_ ?_ ?_⟩
  · have hsent : ConsoleInv { s with
        write_cnt := s.write_cnt + 1, serial := s.serial ++ [(some t, c)] } :=
      ⟨h.locking, h.outside, h.depth, h.free⟩
    exact hsent.set hholder rfl
  · exact whole_update (r := (s.threads t).put c) hserial.whole rfl
  · change by_threads (s.serial ++ [(some t, c)]) =
      laid_out order ++ ((s.threads t).part ++ [c]).map _
    rw [by_threads_thread, hlog, List.map_append, List.append_assoc]
    rfl
  · change by_threads s.vga ++ [(t, c)] = laid_out order ++ ((s.threads t).part ++ [c]).map _
    rw [hvga, List.map_append, List.append_assoc]
    rfl

/-- **The other half.** -/
theorem ConsoleInv.finish (h : ConsoleInv s) (hserial : Serial s order)
    (hhalf : (s.threads t).half = some c) :
    ∃ s', exec s (.finish t) = .ok s' ∧ ConsoleInv s' ∧ Serial s' order := by
  have hholder : s.holder = some t := by
    by_contra hne
    rw [(h.outside t hne).2.1] at hhalf
    cases hhalf
  have hlog := hserial.serial
  have hvga := hserial.vga
  rw [under_way_eq hholder] at hlog hvga
  rw [in_flight_eq hholder, hhalf] at hvga
  refine ⟨(putchar_vga s (some t) c).set t { s.threads t with half := none },
    by simp only [exec, hhalf], ConsoleInv.set ⟨h.locking, h.outside, h.depth, h.free⟩ hholder rfl,
    Serial.of_holder hholder (set_threads_self _ _ _) (whole_update hserial.whole rfl) hlog ?_⟩
  change by_threads (s.vga ++ [(some t, c)]) ++ [] = laid_out order ++ (s.threads t).part.map _
  rw [by_threads_thread, List.append_nil]
  exact hvga

/-- **An interrupt handler** comes in between, and changes nothing for the threads. -/
theorem ConsoleInv.handler (h : ConsoleInv s) (hserial : Serial s order) (c : UInt8) :
    ∃ s', exec s (.handler c) = .ok s' ∧ ConsoleInv s' ∧ Serial s' order := by
  have hlocked : console_locked_by_current_thread s none := Or.inl rfl
  refine ⟨{ s with
      write_cnt := s.write_cnt + 1,
      serial := s.serial ++ [(none, c)], vga := s.vga ++ [(none, c)] },
    by rw [exec, putchar_serial, ASSERT_pos hlocked]; rfl,
    ⟨h.locking, h.outside, h.depth, h.free⟩, hserial.whole, ?_, ?_⟩
  · exact (by_threads_handler _ c).trans hserial.serial
  · change by_threads (s.vga ++ [(none, c)]) ++ s.in_flight = _
    rw [by_threads_handler]
    exact hserial.vga

/-- What a calm run keeps. -/
def Kept (s : State) : Prop := ConsoleInv s ∧ ∃ order, Serial s order

/-- **A step** that nests goes through, and keeps the printouts whole. -/
theorem Kept.step (h : Kept s) {e : Event} (hfits : Nests s e) (hcalm : Calm s e) :
    ∃ s', exec s e = .ok s' ∧ Kept s' := by
  obtain ⟨hinv, order, hserial⟩ := h
  cases e with
  | acquire t =>
    cases hrun : exec s (.acquire t) with
    | ok s' =>
      obtain ⟨hinv', hserial'⟩ := hinv.acquire hserial hrun
      exact ⟨s', rfl, hinv', order, hserial'⟩
    | error f =>
      unfold exec at hrun
      dsimp only at hrun
      cases hacq : acquire_console s t with
      | none =>
        rw [hacq] at hrun
        cases hrun
      | some r =>
        rw [hacq] at hrun
        cases hrun
  | put t c =>
    obtain ⟨s', hrun, hinv', hserial'⟩ := hinv.put hserial hfits.1 hfits.2 c
    exact ⟨s', hrun, hinv', order, hserial'⟩
  | finish t =>
    obtain ⟨c, hc⟩ := Option.ne_none_iff_exists'.mp hfits
    obtain ⟨s', hrun, hinv', hserial'⟩ := hinv.finish hserial hc
    exact ⟨s', hrun, hinv', order, hserial'⟩
  | release t =>
    obtain ⟨s', order', hrun, hinv', hserial'⟩ := hinv.release hserial hfits.1 hfits.2
    exact ⟨s', hrun, hinv', order', hserial'⟩
  | handler c =>
    obtain ⟨s', hrun, hinv', hserial'⟩ := hinv.handler hserial c
    exact ⟨s', hrun, hinv', order, hserial'⟩
  | panic => exact absurd rfl hcalm

end Steps

/-! ## The main result -/

theorem kept_init : Kept console_init := by
  refine ⟨⟨rfl, fun t _ => ⟨rfl, rfl, rfl⟩, fun h hh => ?_, fun _ => rfl⟩,
    [], fun t => rfl, rfl, rfl⟩
  cases hh

/-- **Printouts are whole.** In every run without a panic what the threads have printed is, on both
devices, a sequence of whole printouts, every thread's in its order, and then what the holder of
the lock has printed so far; the screen is at most one character behind. No assertion of the
console fails. -/
theorem printouts_whole {s : State} (hr : Reachable console Calm s) :
    (∃ order, Serial s order) ∧ s.in_flight.length ≤ 1 ∧
      ∀ e, Nests s e → Calm s e → ∃ s', exec s e = .ok s' := by
  have hkept : Kept s := by
    refine hr.invariant ?_ fun r e r' h hcalm hs => ?_
    · rintro r rfl
      exact kept_init
    · obtain ⟨s', hrun, hkept⟩ := h.step hs.1 hcalm
      obtain rfl := Except.ok.inj (hrun.symm.trans hs.2)
      exact hkept
  refine ⟨hkept.2, ?_, fun e hfits hcalm => ?_⟩
  · unfold State.in_flight
    cases s.holder with
    | none => exact Nat.zero_le 1
    | some h =>
      rw [List.length_map]
      cases (s.threads h).half with
      | none => exact Nat.zero_le 1
      | some c => exact le_rfl
  · obtain ⟨s', hrun, -⟩ := hkept.step hfits hcalm
    exact ⟨s', hrun⟩

/-- Thread 1 prints `AB`, with a call inside the call; thread 2 waits, and an interrupt handler
prints in between. -/
def two_threads : List Event :=
  [.acquire 1, .put 1 65, .acquire 2, .finish 1, .acquire 1, .put 1 66, .handler 33, .finish 1,
    .release 1, .acquire 2, .release 1, .acquire 2, .put 2 67]

theorem printouts_whole_two : ∃ s : State, s.holder = some 2 ∧
    by_threads s.serial = [(1, 65), (1, 66), (2, 67)] ∧ s.serial.length = 4 ∧
    ∃ order, Serial s order := by
  have hexec : ∀ s e s', (if Nests s e then exec s e else .error .assertion) = .ok s' →
      console.step s e s' := by
    intro s e s' hs
    by_cases hfits : Nests s e
    · rw [if_pos hfits] at hs
      exact ⟨hfits, hs⟩
    · rw [if_neg hfits] at hs
      cases hs
  have hrun : follow (fun s e => if Nests s e then exec s e else .error .assertion)
      (fun _ e => decide (e ≠ .panic))
      (fun s => s.holder == some 2 &&
        by_threads s.serial == [(1, 65), (1, 66), (2, 67)] && s.serial.length == 4)
      console_init two_threads = true := by
    decide
  have hstart : Reachable console (fun _ e => decide (e ≠ .panic) = true) console_init := .init rfl
  obtain ⟨s, hr, hs⟩ := follow_reachable hexec hstart hrun
  simp only [Bool.and_eq_true, beq_iff_eq] at hs
  have hcalm : Reachable console Calm s := hr.weaken fun _ _ h => of_decide_eq_true h
  exact ⟨s, hs.1.1, hs.1.2, hs.2, (printouts_whole hcalm).1⟩

end Pintos.Kernel.Console
