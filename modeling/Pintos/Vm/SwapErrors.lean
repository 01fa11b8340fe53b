/-
How `swap_out` and `swap_in` fail.

Both are declared to return whether they worked, and `page_fault` calls `swap_out` in a loop
until there is a frame. Neither fails by returning: the front of an empty list, a scan that
finds no slot and a lock that the caller has are assertions, and a page without an entry is a
null pointer. The one `return false` that can be reached leaves `swap_lock` held.

The two functions are written here as calls, from the state in which they are called to the
one in which they return. A lock that another process has is waited for, and the state is the
one in which it is free. `swap_out` reads the page of a mapped file through the address it has
just cleared, so it takes a page fault of its own, and the fault handler has neither lock.
-/
import Pintos.Vm.FaultFrame

set_option autoImplicit false

namespace Pintos.Vm

open Pintos.Kernel StepSystem

/-- How a call ends that does not stop at a fault of the kernel: it returns, or the process
exits in it. -/
inductive Outcome
  | returns (b : Bool) (s : Mem)
  | exits

/-- A page fault in the kernel with `swap_lock` held, at the start of page `v`, for reading.
`none` is the process's exit. `swap_out` and `swap_in` ask for the lock again and stop at the
assertion of `lock_acquire`. -/
def nested_fault (s : Mem) (p v : ℕ) (c : Choice) : Res (Option Mem) :=
  if v = 0 ∨ PHYS_PAGES ≤ v then .ok none
  else match page_lookup s p v with
    | some a => do
      let x ← s.spte a
      if x.mmapped && x.mid == 0 then return none
      else
        let (k, s) ← palloc_get_page s
        match k with
        | none => .error .assertion
        | some k =>
          if x.swapped then .error .assertion
          else
            let s ← lazy_file_map s p v a k x c.room
            return some s
    | none =>
      if c.near_esp then do
        let (k, s) ← palloc_get_page s
        match k with
        | none => .error .assertion
        | some k =>
          match install_fault_page s p v k true c.room with
          | (false, _) => return none
          | (true, s) => return some (allocate_frame (allocate_page s p v c.junk) p k none)
      else .ok none

/-- `file_write_at` of `swap_out` reads user page `v`, if it looks at its buffer: it faults until
the page is there, which may be never. -/
def touch (p v : ℕ) (f : File) (size : ℕ) (c : Choice) : ℕ → Mem → Res (Option (Mem × Page))
  | 0, _ => .error .diverge
  | n + 1, s =>
    match user_buffer s p v f size with
    | some buf => .ok (some (s, buf))
    | none => do
      match ← nested_fault s p v c with
      | none => return none
      | some s => touch p v f size c n s

/-- `file_write_at` of `swap_out`, from the lock to the unlock. The buffer is the user address. -/
def write_back (n : ℕ) (s : Mem) (p : ℕ) (c : Choice) (x : Spte) : Res (Option Mem) := do
  ASSERT (s.filesys_lock ≠ some p)
  match ← touch p x.user_vaddr (s.files x.file_ptr) x.page_read_bytes c n
      { s with filesys_lock := some p } with
  | none => return none
  | some (s, buf) =>
    let f := file_write_at (s.files x.file_ptr) buf x.page_read_bytes x.file_ofs
    return some { s with files := Function.update s.files x.file_ptr f, filesys_lock := none }

/-- The fourth part of `swap_out`. -/
def save (n : ℕ) (s : Mem) (p : ℕ) (c : Choice) (e : Fte) (a : ℕ) (x : Spte) :
    Res (Option Mem) :=
  if x.mmapped then
    if x.dirty then write_back n s p c x
    else .ok (some s)
  else if !x.load_executable || x.writable then
    match bitmap_scan s.swap_table 0 8 false with
    | none => .error .assertion
    | some i => do
      let s ← write_to_disk s e.frame i
      let b ← bitmap_set_multiple s.swap_table i 8 true
      let s := s.setSpte a { x with disk_sector_idx := i }
      return some { s with swap_table := b }
  else .ok (some s)

/-- `swap_out`, with at most `n` turns of the faulting read. -/
def swap_out (n : ℕ) (s : Mem) (p : ℕ) (c : Choice) : Res Outcome := do
  ASSERT (s.swap_lock ≠ some p)
  match s.frame_table with
  | [] => .error .assertion
  | e :: rest =>
    let (a, x) ← s.entry e
    let x := { x with swapped := true }
    let s ← pagedir_clear_page (s.setSpte a x) p x.user_vaddr
    match ← save n { s with frame_table := rest, swap_lock := some p } p c e a x with
    | none => return .exits
    | some s =>
      let s ← palloc_free_page s e.frame
      return .returns true { s with swap_lock := none }

/-- `swap_in`. -/
def swap_in (s : Mem) (p v k : ℕ) : Res Outcome := do
  ASSERT (s.swap_lock ≠ some p)
  let s := { s with swap_lock := some p }
  match page_lookup s p v with
  | none => .error .dangling
  | some b => do
    let x ← s.spte b
    if x.swapped then
      let s := allocate_frame s p k (some b)
      let s := s.setSpte b { x with swapped := false }
      let s ← refill s { x with swapped := false } k
      return .returns true { s with swap_lock := none }
    else return .returns false s

variable {s s' t : Mem} {p v k : ℕ} {c : Choice}

/-! ## The allocator -/

/-- The frame is one of the pool and is taken. -/
def Taken (s : Mem) (k : ℕ) : Prop := s.used_map.bits k = true ∧ k < s.used_map.bit_cnt

/-- The machine with frame `k` taken. -/
def Mem.take (s : Mem) (k : ℕ) : Mem :=
  s.setPool s.frames (Function.update s.used_map.bits k true)

/-- The machine with frame `k` given back. -/
def Mem.give (s : Mem) (k : ℕ) : Mem :=
  s.setPool (Function.update s.frames k (fun _ => 0xcc)) (Function.update s.used_map.bits k false)

/-- `palloc_free_page` returns exactly if the frame is taken. -/
theorem palloc_free_page_iff : palloc_free_page s k = .ok t ↔ Taken s k ∧ t = s.give k := by
  constructor
  · intro h
    obtain ⟨hbit, rfl⟩ := palloc_free_page_spec h
    refine ⟨⟨hbit, ?_⟩, rfl⟩
    obtain ⟨_, -, h⟩ := bind_eq_ok h
    obtain ⟨b, hset, -⟩ := bind_eq_ok h
    obtain ⟨_, hle, -⟩ := bind_eq_ok hset
    exact ASSERT_eq_ok hle
  · rintro ⟨⟨hbit, hlt⟩, rfl⟩
    have hall : bitmap_all (s.setFrame k fun _ => 0xcc).used_map k 1 = true := by
      rw [bitmap_all, bitmap_contains_one]
      change (!(s.used_map.bits k == false)) = true
      rw [hbit]
      rfl
    have hle : k + 1 ≤ (s.setFrame k fun _ => 0xcc).used_map.bit_cnt := hlt
    unfold palloc_free_page
    simp only [ASSERT_pos hall, ok_bind, bitmap_set_multiple_eq _ hle, pure_eq_ok, run_one]
    rfl

/-- `palloc_get_page` takes the first free frame. -/
theorem palloc_get_page_eq (s : Mem) : palloc_get_page s =
    match bitmap_scan s.used_map 0 1 false with
    | none => .ok (none, s)
    | some k => .ok (some k, s.take k) := by
  unfold palloc_get_page bitmap_scan_and_flip
  cases hscan : bitmap_scan s.used_map 0 1 false with
  | none => rfl
  | some k =>
    obtain ⟨-, hle, -⟩ := bitmap_scan_some hscan
    simp only [bitmap_set_multiple_eq _ hle, ok_bind, pure_eq_ok, run_one]
    rfl

/-- A page table is there or can be made. -/
def HasTable (s : Mem) (p v : ℕ) (c : Choice) : Prop :=
  ((s.procs p).tables (v / 1024) || c.room) = true

/-- What `install_fault_page` does for a page that is not there. -/
theorem install_absent (hp : (s.procs p).pagedir v = none) (writable : Bool) :
    (HasTable s p v c ∧ ∃ u, install_fault_page s p v k writable c.room = (true, u) ∧
        (u.procs p).pagedir v = some ⟨k, writable⟩) ∨
      ¬ HasTable s p v c ∧ install_fault_page s p v k writable c.room = (false, s) := by
  unfold install_fault_page HasTable
  dsimp only
  rw [if_neg (by rw [hp]; simp)]
  by_cases hr : ((s.procs p).tables (v / 1024) || c.room) = true
  · rw [if_pos hr]
    refine Or.inl ⟨hr, _, rfl, ?_⟩
    rw [Mem.upd_self]
    exact Function.update_self _ _ _
  · rw [if_neg hr]
    exact Or.inr ⟨hr, rfl⟩

/-- A nested fault that comes back has found a page that is not swapped, or has grown the
stack, and a frame. -/
theorem nested_fault_iff : nested_fault s p v c = .ok (some t) ↔
    (v ≠ 0 ∧ v < PHYS_PAGES) ∧ ∃ k, bitmap_scan s.used_map 0 1 false = some k ∧
      ((∃ a x, page_lookup s p v = some a ∧ s.sptes a = some x ∧
          (x.mmapped = true → x.mid ≠ 0) ∧ x.swapped = false ∧
          lazy_file_map (s.take k) p v a k x c.room = .ok t) ∨
        (page_lookup s p v = none ∧ c.near_esp = true ∧
          ∃ u, install_fault_page (s.take k) p v k true c.room = (true, u) ∧
            t = allocate_frame (allocate_page u p v c.junk) p k none)) := by
  unfold nested_fault
  by_cases hv : v = 0 ∨ PHYS_PAGES ≤ v
  · rw [if_pos hv]
    refine iff_of_false (fun hc => by cases hc) ?_
    rintro ⟨hc, -⟩
    omega
  rw [if_neg hv, and_iff_right (by omega)]
  rw [palloc_get_page_eq]
  cases hl : page_lookup s p v with
  | none =>
    dsimp only
    by_cases hn : c.near_esp = true
    · rw [if_pos hn]
      cases hscan : bitmap_scan s.used_map 0 1 false with
      | none => exact iff_of_false (fun hc => by cases hc) fun ⟨_, hc, _⟩ => by cases hc
      | some k =>
        simp only [ok_bind, Option.some.injEq, exists_eq_left', reduceCtorEq, false_and,
          exists_false, false_or, true_and, hn]
        cases hinst : install_fault_page (s.take k) p v k true c.room with
        | mk b u =>
          cases b with
          | false => simp
          | true =>
            simp only [Prod.mk.injEq, true_and, exists_eq_left', pure_eq_ok, Except.ok.injEq,
              Option.some.injEq]
            exact eq_comm
    · rw [if_neg hn]
      refine iff_of_false (fun hc => by cases hc) ?_
      rintro ⟨k, -, ⟨a, x, hc, -⟩ | ⟨-, hc, -⟩⟩
      · cases hc
      · exact hn hc
  | some a =>
    dsimp only
    unfold Mem.spte
    cases hx : s.sptes a with
    | none =>
      refine iff_of_false (fun hc => by cases hc) ?_
      rintro ⟨k, -, ⟨b, x, hb, hc, -⟩ | ⟨hc, -⟩⟩
      · rw [← Option.some.inj hb, hx] at hc
        cases hc
      · cases hc
    | some x =>
      simp only [ok_bind]
      by_cases hm : (x.mmapped && x.mid == 0) = true
      · rw [if_pos hm]
        rw [Bool.and_eq_true, beq_iff_eq] at hm
        refine iff_of_false (fun hc => by cases hc) ?_
        rintro ⟨k, -, ⟨b, y, hb, hy, hc, -⟩ | ⟨hc, -⟩⟩
        · rw [← Option.some.inj hb, hx] at hy
          rw [← Option.some.inj hy] at hc
          exact hc hm.1 hm.2
        · cases hc
      · rw [if_neg hm]
        have hm' : x.mmapped = true → x.mid ≠ 0 := fun h1 h2 => hm (by rw [h1, h2]; rfl)
        cases hscan : bitmap_scan s.used_map 0 1 false with
        | none => exact iff_of_false (fun hc => by cases hc) fun ⟨_, hc, _⟩ => by cases hc
        | some k =>
          simp only [ok_bind]
          constructor
          · intro h
            refine ⟨k, rfl, Or.inl ⟨a, x, rfl, hx, hm', ?_⟩⟩
            by_cases hsw : x.swapped = true
            · rw [if_pos hsw] at h
              cases h
            · rw [if_neg hsw] at h
              obtain ⟨u, hu, h⟩ := bind_eq_ok h
              rw [hu, Option.some.inj (Except.ok.inj h)]
              exact ⟨by simpa using hsw, rfl⟩
          · rintro ⟨k', hk', ⟨b, y, hb, hy, -, hsw, hload⟩ | ⟨hc, -⟩⟩
            · obtain rfl := Option.some.inj hk'
              obtain rfl := Option.some.inj hb
              obtain rfl := Option.some.inj (hx.symm.trans hy)
              rw [if_neg (by rw [hsw]; simp), hload]
              rfl
            · cases hc

/-- The machine after the second and third part of `swap_out`. -/
def Mem.picked (s : Mem) (p a : ℕ) (x : Spte) (rest : List Fte) : Mem :=
  { (s.setSpte a x).upd p (fun t => { t with
      pagedir := Function.update t.pagedir x.user_vaddr none }) with
    frame_table := rest
    swap_lock := some p }

/-- The four parts of a `swap_out` that returns. -/
theorem swap_out_iff {n : ℕ} {o : Outcome} : swap_out n s p c = .ok o ↔
    s.swap_lock ≠ some p ∧ ∃ e rest a x, s.frame_table = e :: rest ∧ e.spte = some a ∧
      s.sptes a = some x ∧ x.user_vaddr < PHYS_PAGES ∧
      ((save n (s.picked p a { x with swapped := true } rest) p c e a { x with swapped := true } =
          .ok none ∧ o = .exits) ∨
        ∃ u, save n (s.picked p a { x with swapped := true } rest) p c e a
            { x with swapped := true } = .ok (some u) ∧
          Taken u e.frame ∧ o = .returns true { u.give e.frame with swap_lock := none }) := by
  constructor
  · intro h
    obtain ⟨_, hlock, h⟩ := bind_eq_ok h
    refine ⟨ASSERT_eq_ok hlock, ?_⟩
    cases ht : s.frame_table with
    | nil =>
      rw [ht] at h
      cases h
    | cons e rest =>
      rw [ht] at h
      obtain ⟨⟨a, x⟩, hent, h⟩ := bind_eq_ok h
      obtain ⟨ha, hx⟩ := entry_spec hent
      obtain ⟨s₁, hclear, h⟩ := bind_eq_ok h
      obtain ⟨_, hv, hclear⟩ := bind_eq_ok hclear
      obtain rfl := Except.ok.inj hclear
      obtain ⟨r, hsave, h⟩ := bind_eq_ok h
      refine ⟨e, rest, a, x, rfl, ha, hx, ASSERT_eq_ok hv, ?_⟩
      cases r with
      | none => exact Or.inl ⟨hsave, (Except.ok.inj h).symm⟩
      | some u =>
        obtain ⟨u', hfree, h⟩ := bind_eq_ok h
        obtain ⟨htaken, rfl⟩ := palloc_free_page_iff.mp hfree
        exact Or.inr ⟨u, hsave, htaken, (Except.ok.inj h).symm⟩
  · rintro ⟨hlock, e, rest, a, x, ht, ha, hx, hv, h⟩
    have hent : s.entry e = .ok (a, x) := by
      unfold Mem.entry Mem.spte
      rw [ha]
      dsimp only
      rw [hx]
      rfl
    unfold swap_out pagedir_clear_page
    rw [ASSERT_pos hlock, ok_bind, ht]
    dsimp only
    rw [hent, ok_bind]
    dsimp only
    rw [ASSERT_pos hv, ok_bind, pure_eq_ok, ok_bind]
    change (save n (s.picked p a { x with swapped := true } rest) p c e a
      { x with swapped := true } >>= _) = _
    rcases h with ⟨hsave, rfl⟩ | ⟨u, hsave, htaken, rfl⟩
    · rw [hsave]
      rfl
    · rw [hsave, ok_bind]
      dsimp only
      rw [palloc_free_page_iff.mpr ⟨htaken, rfl⟩]
      rfl

/-- The machine after the fourth part of `swap_in`. -/
def Mem.listed (s : Mem) (p k b : ℕ) (x : Spte) : Mem :=
  (allocate_frame { s with swap_lock := some p } p k (some b)).setSpte b { x with swapped := false }

/-- The parts of a `swap_in` that returns. -/
theorem swap_in_iff {o : Outcome} : swap_in s p v k = .ok o ↔
    s.swap_lock ≠ some p ∧ ∃ b x, page_lookup s p v = some b ∧ s.sptes b = some x ∧
      ((x.swapped = true ∧ ∃ t, refill (s.listed p k b x) { x with swapped := false } k = .ok t ∧
          o = .returns true { t with swap_lock := none }) ∨
        x.swapped = false ∧ o = .returns false { s with swap_lock := some p }) := by
  constructor
  · intro h
    obtain ⟨_, hlock, h⟩ := bind_eq_ok h
    refine ⟨ASSERT_eq_ok hlock, ?_⟩
    dsimp only at h
    cases hl : page_lookup { s with swap_lock := some p } p v with
    | none =>
      rw [hl] at h
      cases h
    | some b =>
      rw [hl] at h
      obtain ⟨x, hx, h⟩ := bind_eq_ok h
      refine ⟨b, x, hl, Mem.spte_eq_ok hx, ?_⟩
      by_cases hsw : x.swapped = true
      · rw [if_pos hsw] at h
        obtain ⟨t, ht, h⟩ := bind_eq_ok h
        exact Or.inl ⟨hsw, t, ht, (Except.ok.inj h).symm⟩
      · rw [if_neg hsw] at h
        exact Or.inr ⟨by simpa using hsw, (Except.ok.inj h).symm⟩
  · rintro ⟨hlock, b, x, hl, hx, h⟩
    have hl' : page_lookup { s with swap_lock := some p } p v = some b := hl
    have hread : ({ s with swap_lock := some p } : Mem).spte b = .ok x := Mem.spte_of_some hx
    unfold swap_in
    rw [ASSERT_pos hlock, ok_bind]
    dsimp only
    rw [hl']
    dsimp only
    rw [hread, ok_bind]
    rcases h with ⟨hsw, t, ht, rfl⟩ | ⟨hsw, rfl⟩
    · rw [if_pos hsw]
      change (refill (s.listed p k b x) { x with swapped := false } k >>= _) = _
      rw [ht]
      rfl
    · rw [if_neg (by rw [hsw]; simp)]
      rfl

theorem Mem.goto_goto (s : Mem) (p : ℕ) (pt pt' : Point) :
    (s.goto p pt).goto p pt' = s.goto p pt' := by
  unfold Mem.goto Mem.upd
  simp

/-- The point of a process is nothing to `refill`. -/
theorem refill_goto {x : Spte} (pt : Point) (h : refill s x k = .ok t) :
    refill (s.goto p pt) x k = .ok (t.goto p pt) := by
  unfold refill at h ⊢
  by_cases hm : x.mmapped = true
  · rw [if_pos hm] at h ⊢
    rw [← Except.ok.inj h]
    rfl
  rw [if_neg hm] at h ⊢
  by_cases hk : (!x.load_executable || x.writable) = true
  · rw [if_pos hk] at h ⊢
    obtain ⟨u, hu, h⟩ := bind_eq_ok h
    obtain ⟨_, hcap, hu⟩ := bind_eq_ok hu
    obtain rfl := Except.ok.inj hu
    obtain ⟨b, hb, h⟩ := bind_eq_ok h
    have hcap' : x.disk_sector_idx + 8 ≤ (s.goto p pt).capacity := ASSERT_eq_ok hcap
    have hb' : bitmap_set_multiple (s.goto p pt).swap_table x.disk_sector_idx 8 false = .ok b := hb
    unfold read_from_disk
    rw [ASSERT_pos hcap', ok_bind, pure_eq_ok, ok_bind]
    dsimp only [Mem.setFrame]
    rw [hb', ← Except.ok.inj h]
    rfl
  · rw [if_neg hk] at h ⊢
    rw [← Except.ok.inj h]
    rfl

theorem lock_acquire_free {holder : Option ℕ} (h : holder = none) :
    lock_acquire holder p = .ok .got := by
  rw [h]
  rfl

/-- A `swap_in` that finds the lock free and the page swapped is two steps of its process. -/
theorem swap_in_steps {write : Bool} {a : ℕ} (c : Choice) (hlock : s.swap_lock = none)
    (hpt : (s.procs p).point = .swapin v write a k)
    (h : swap_in s p v k = .ok (.returns true t)) :
    ∃ u, exec s (.run p c) = .ok u ∧
      exec u (.run p c) = .ok (t.goto p (.install v write a k)) := by
  obtain ⟨-, b, x, hl, hx, ⟨hsw, t', ht', ho⟩ | ⟨-, ho⟩⟩ := swap_in_iff.mp h
  · obtain rfl := (Outcome.returns.inj ho).2
    refine ⟨(s.listed p k b x).goto p (.refill v write a k b), ?_, ?_⟩
    · have hl' : page_lookup { s with swap_lock := some p } p v = some b := hl
      have hread : ({ s with swap_lock := some p } : Mem).spte b = .ok x := Mem.spte_of_some hx
      change run s p c = _
      unfold run
      rw [hpt]
      dsimp only
      unfold step_swapin
      rw [lock_acquire_free hlock, ok_bind]
      dsimp only
      rw [hl']
      dsimp only
      rw [hread, ok_bind, if_pos hsw]
      rfl
    · have hentry : Function.update s.sptes b (some { x with swapped := false }) b =
          some { x with swapped := false } := Function.update_self _ _ _
      have hread : ((s.listed p k b x).goto p (.refill v write a k b)).spte b =
          .ok { x with swapped := false } := Mem.spte_of_some hentry
      change run _ p c = _
      unfold run
      rw [Mem.goto_self]
      dsimp only
      unfold step_refill
      rw [hread, ok_bind, refill_goto _ ht', ok_bind]
      exact congrArg Except.ok (Mem.goto_goto { t' with swap_lock := none } p _ _)
  · cases (Outcome.returns.inj ho).1

/-- A victim that is not written to a file is saved in one step. -/
theorem step_save_of_save {n : ℕ} {w : Want} {e : Fte} {a : ℕ} {x : Spte}
    (ha : e.spte = some a) (hx : s.sptes a = some x)
    (hclean : ¬ (x.mmapped = true ∧ x.dirty = true)) (h : save n s p c e a x = .ok (some t))
    (pt : Point) :
    step_save (s.goto p pt) p w e = .ok (t.goto p (.free w e.frame)) := by
  have hread : (s.goto p pt).entry e = .ok (a, x) := Mem.entry_of_some ha hx
  unfold save at h
  unfold step_save
  rw [hread, ok_bind]
  dsimp only
  by_cases hm : x.mmapped = true
  · rw [if_pos hm] at h ⊢
    have hd : ¬ x.dirty = true := fun hd => hclean ⟨hm, hd⟩
    rw [if_neg hd] at h ⊢
    rw [Option.some.inj (Except.ok.inj h)]
    exact congrArg Except.ok (Mem.goto_goto t p _ _)
  rw [if_neg hm] at h ⊢
  by_cases hk : (!x.load_executable || x.writable) = true
  · rw [if_pos hk] at h ⊢
    have hscan' : bitmap_scan (s.goto p pt).swap_table 0 8 false =
        bitmap_scan s.swap_table 0 8 false := rfl
    rw [hscan']
    cases hscan : bitmap_scan s.swap_table 0 8 false with
    | none =>
      rw [hscan] at h
      cases h
    | some i =>
      rw [hscan] at h
      obtain ⟨u, hw, h⟩ := bind_eq_ok h
      obtain ⟨_, hcap, hw⟩ := bind_eq_ok hw
      obtain rfl := Except.ok.inj hw
      obtain ⟨b, hb, h⟩ := bind_eq_ok h
      obtain rfl := Option.some.inj (Except.ok.inj h)
      have hcap' : i + 8 ≤ (s.goto p pt).capacity := ASSERT_eq_ok hcap
      have hb' : bitmap_set_multiple (s.goto p pt).swap_table i 8 true = .ok b := hb
      dsimp only
      unfold write_to_disk
      rw [ASSERT_pos hcap', ok_bind, pure_eq_ok, ok_bind]
      dsimp only
      rw [hb', ok_bind]
      exact congrArg Except.ok (Mem.goto_goto { s.setSpte a { x with disk_sector_idx := i } with
        swap_device := write_sectors s.swap_device i (s.frames e.frame)
        swap_table := b } p pt _)
  · rw [if_neg hk] at h ⊢
    rw [Option.some.inj (Except.ok.inj h)]
    exact congrArg Except.ok (Mem.goto_goto t p _ _)

/-- A `swap_out` that finds the lock free and writes to no file is three steps of its process. -/
theorem swap_out_steps {n : ℕ} {b : Bool} {w : Want} (hlock : s.swap_lock = none)
    (hpt : (s.procs p).point = .evict w)
    (hclean : ∀ e a x, s.frame_table.head? = some e → e.spte = some a → s.sptes a = some x →
      ¬ (x.mmapped = true ∧ x.dirty = true))
    (h : swap_out n s p c = .ok (.returns b t)) :
    ∃ u u', exec s (.run p c) = .ok u ∧ exec u (.run p c) = .ok u' ∧
      exec u' (.run p c) = .ok (t.goto p (.get w)) := by
  obtain ⟨-, e, rest, a, x, ht, ha, hx, hv, ⟨-, ho⟩ | ⟨z, hsave, htaken, ho⟩⟩ := swap_out_iff.mp h
  · cases ho
  obtain ⟨-, rfl⟩ := Outcome.returns.inj ho
  refine ⟨(s.picked p a { x with swapped := true } rest).goto p (.save w e),
    z.goto p (.free w e.frame), ?_, ?_, ?_⟩
  · change run s p c = _
    unfold run
    rw [hpt]
    dsimp only
    unfold step_evict pagedir_clear_page
    rw [lock_acquire_free hlock, ok_bind]
    dsimp only
    rw [ht]
    dsimp only
    rw [ha]
    dsimp only
    unfold Mem.spte
    rw [hx]
    simp only [ok_bind, ASSERT_pos hv, pure_eq_ok]
    rfl
  · change run _ p c = _
    unfold run
    rw [Mem.goto_self]
    have hx' : (s.picked p a { x with swapped := true } rest).sptes a =
        some { x with swapped := true } := Function.update_self _ _ _
    exact step_save_of_save ha hx' (hclean e a x (by rw [ht]; rfl) ha hx) hsave _
  · change run _ p c = _
    unfold run
    rw [Mem.goto_self]
    dsimp only
    unfold step_free
    have htaken' : Taken (z.goto p (.free w e.frame)) e.frame := htaken
    rw [palloc_free_page_iff.mpr ⟨htaken', rfl⟩, ok_bind]
    exact congrArg Except.ok (Mem.goto_goto { z.give e.frame with swap_lock := none } p _ _)

/-! ## Clean ends -/

/-- Frames, slots, page directories and entries are as they were. -/
structure Unchanged (s t : Mem) : Prop where
  frame_table : t.frame_table = s.frame_table
  used_map : t.used_map = s.used_map
  frames : t.frames = s.frames
  swap_table : t.swap_table = s.swap_table
  swap_device : t.swap_device = s.swap_device
  sptes : t.sptes = s.sptes
  pagedir : ∀ q, (t.procs q).pagedir = (s.procs q).pagedir
  sup_page_table : ∀ q, (t.procs q).sup_page_table = (s.procs q).sup_page_table

end Pintos.Vm
