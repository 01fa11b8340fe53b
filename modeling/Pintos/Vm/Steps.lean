/-
What each step of the paging code can do.

One lemma a function: the state it starts from, the cases in which it returns, and
the state it returns. The proofs about runs cite these and unfold nothing.
-/
import Pintos.Vm.Paging

set_option autoImplicit false

namespace Pintos.Vm

open Pintos.Kernel

variable {s s' : Mem} {p : ℕ}

/-! ## The user pool -/

/-- The machine with other frame contents and another `used_map`. -/
def Mem.setPool (s : Mem) (frames : ℕ → Page) (bits : ℕ → Bool) : Mem :=
  { s with
    frames := frames
    used_map := { s.used_map with bits := bits } }

/-- `palloc_get_page` takes a frame that was free, or takes none. -/
theorem palloc_get_page_spec {k : Option ℕ} (hs : palloc_get_page s = .ok (k, s')) :
    (k = none ∧ s' = s) ∨ ∃ i, k = some i ∧ s.used_map.bits i = false ∧
      s' = s.setPool s.frames (Function.update s.used_map.bits i true) := by
  obtain ⟨⟨j, b⟩, hflip, hr⟩ := bind_eq_ok hs
  obtain ⟨rfl, rfl⟩ := Prod.mk.inj (Except.ok.inj hr)
  unfold bitmap_scan_and_flip at hflip
  cases hscan : bitmap_scan s.used_map 0 1 false with
  | none =>
    rw [hscan] at hflip
    have := Prod.mk.inj (Except.ok.inj hflip)
    left
    rw [← this.1, ← this.2]
    exact ⟨rfl, rfl⟩
  | some i =>
    right
    rw [hscan] at hflip
    obtain ⟨-, hle, hval⟩ := bitmap_scan_some hscan
    dsimp only at hflip
    rw [bitmap_set_multiple_eq _ hle] at hflip
    have := Prod.mk.inj (Except.ok.inj hflip)
    refine ⟨i, this.1.symm, by simpa using hval 0 (by omega), ?_⟩
    rw [← this.2, run_one]
    rfl

/-- `palloc_free_page` frees a frame that was taken, and fills it. -/
theorem palloc_free_page_spec {k : ℕ} (hs : palloc_free_page s k = .ok s') :
    s.used_map.bits k = true ∧
      s' = s.setPool (Function.update s.frames k (fun _ => 0xcc))
        (Function.update s.used_map.bits k false) := by
  obtain ⟨_, hall, hs⟩ := bind_eq_ok hs
  obtain ⟨b, hset, hs⟩ := bind_eq_ok hs
  have hall := ASSERT_eq_ok hall
  unfold bitmap_set_multiple at hset
  obtain ⟨_, -, hset⟩ := bind_eq_ok hset
  refine ⟨?_, ?_⟩
  · unfold bitmap_all at hall
    rw [bitmap_contains_one] at hall
    simpa [Mem.setFrame] using hall
  · rw [← Except.ok.inj hs, ← Except.ok.inj hset, run_one]
    rfl

/-! ## Faults -/

/-- Where `page_fault` ends up. -/
theorem page_fault_spec {addr : ℕ} {write near_esp : Bool}
    (hs : page_fault s p addr write near_esp = .ok s') :
    s' = s.exit p ∨ addr / PGSIZE < PHYS_PAGES ∧
      ((∃ a x, page_lookup s p (addr / PGSIZE) = some a ∧ s.sptes a = some x ∧
          (write = true → x.writable = true) ∧ (x.mmapped = true → x.mid ≠ 0) ∧
          s' = s.goto p (.get (.entry (addr / PGSIZE) write a))) ∨
        (page_lookup s p (addr / PGSIZE) = none ∧ near_esp = true ∧
          s' = s.goto p (.get (.grow (addr / PGSIZE))))) := by
  unfold page_fault at hs
  by_cases hbad : addr = 0 ∨ PHYS_PAGES ≤ addr / PGSIZE
  · rw [if_pos hbad] at hs
    exact Or.inl (Except.ok.inj hs).symm
  rw [if_neg hbad] at hs
  cases hl : page_lookup s p (addr / PGSIZE) with
  | none =>
    rw [hl] at hs
    dsimp only at hs
    by_cases hn : near_esp = true
    · rw [if_pos hn] at hs
      exact Or.inr ⟨by omega, Or.inr ⟨rfl, hn, (Except.ok.inj hs).symm⟩⟩
    · rw [if_neg hn] at hs
      exact Or.inl (Except.ok.inj hs).symm
  | some a =>
    rw [hl] at hs
    obtain ⟨x, hx, hs⟩ := bind_eq_ok hs
    by_cases hw : (write && !x.writable) = true
    · rw [if_pos hw] at hs
      exact Or.inl (Except.ok.inj hs).symm
    rw [if_neg hw] at hs
    by_cases hm : (x.mmapped && x.mid == 0) = true
    · rw [if_pos hm] at hs
      exact Or.inl (Except.ok.inj hs).symm
    rw [if_neg hm] at hs
    refine Or.inr ⟨by omega, Or.inl ⟨a, x, rfl, Mem.spte_eq_ok hx, ?_, ?_,
      (Except.ok.inj hs).symm⟩⟩
    · intro hwr
      simpa [hwr] using hw
    · intro hmm
      simpa [hmm] using hm

/-- `step_get` takes a free frame, or goes on to `swap_out`. -/
theorem step_get_spec {w : Want} (hs : step_get s p w = .ok s') :
    s' = s.goto p (.evict w) ∨ ∃ i, s.used_map.bits i = false ∧
      s' = (s.setPool s.frames (Function.update s.used_map.bits i true)).goto p (.load w i) := by
  obtain ⟨⟨k, t⟩, hget, hrest⟩ := bind_eq_ok hs
  rcases palloc_get_page_spec hget with ⟨rfl, rfl⟩ | ⟨i, rfl, hfree, rfl⟩
  · exact Or.inl (Except.ok.inj hrest).symm
  · exact Or.inr ⟨i, hfree, (Except.ok.inj hrest).symm⟩

/-- `lock_acquire` by a process that does not hold the lock. -/
theorem lock_acquire_spec {holder : Option ℕ} {r : Acquire} (hs : lock_acquire holder p = .ok r) :
    holder ≠ some p ∧ (r = .got ∧ holder = none ∨ r = .wait ∧ holder ≠ none) := by
  obtain ⟨_, hassert, hs⟩ := bind_eq_ok hs
  refine ⟨ASSERT_eq_ok hassert, ?_⟩
  rw [← Except.ok.inj hs]
  cases holder with
  | none => exact Or.inl ⟨rfl, rfl⟩
  | some q => exact Or.inr ⟨rfl, fun hc => by cases hc⟩

/-- **The first half of `swap_out`**: it waits, or it takes the front of the frame
table off and clears the page in the running process. -/
theorem step_evict_spec {w : Want} (hs : step_evict s p w = .ok s') :
    (s' = s ∧ s.swap_lock ≠ none) ∨ s.swap_lock = none ∧ ∃ e rest a x,
      s.frame_table = e :: rest ∧ e.spte = some a ∧ s.sptes a = some x ∧
      x.user_vaddr < PHYS_PAGES ∧
      s' = { s.setSpte a { x with swapped := true } with
        frame_table := rest
        swap_lock := some p }.upd p (fun t => { t with
          pagedir := Function.update t.pagedir x.user_vaddr none
          point := .save w e }) := by
  obtain ⟨r, hlock, hs⟩ := bind_eq_ok hs
  obtain ⟨-, ⟨rfl, hfree⟩ | ⟨rfl, hheld⟩⟩ := lock_acquire_spec hlock
  · right
    refine ⟨hfree, ?_⟩
    dsimp only at hs
    cases ht : s.frame_table with
    | nil => rw [ht] at hs; cases hs
    | cons e rest =>
      rw [ht] at hs
      dsimp only at hs
      cases ha : e.spte with
      | none => rw [ha] at hs; cases hs
      | some a =>
        rw [ha] at hs
        obtain ⟨x, hx, hs⟩ := bind_eq_ok hs
        obtain ⟨t, hclear, hs⟩ := bind_eq_ok hs
        obtain ⟨_, hv, hclear⟩ := bind_eq_ok hclear
        refine ⟨e, rest, a, x, rfl, ha, Mem.spte_eq_ok hx, ASSERT_eq_ok hv, ?_⟩
        rw [← Except.ok.inj hs, ← Except.ok.inj hclear]
        simp [Mem.goto, Mem.upd]
  · left
    exact ⟨(Except.ok.inj hs).symm, hheld⟩

/-- A frame table entry whose supplemental entry could be read. -/
theorem entry_spec {e : Fte} {a : ℕ} {x : Spte} (hs : s.entry e = .ok (a, x)) :
    e.spte = some a ∧ s.sptes a = some x := by
  unfold Mem.entry at hs
  cases ha : e.spte with
  | none => rw [ha] at hs; cases hs
  | some b =>
    rw [ha] at hs
    obtain ⟨y, hy, hrest⟩ := bind_eq_ok hs
    obtain ⟨rfl, rfl⟩ := Prod.mk.inj (Except.ok.inj hrest)
    exact ⟨rfl, Mem.spte_eq_ok hy⟩

/-- The swap table with the eight bits of a slot set. -/
def slot_set (b : Bitmap) (i : ℕ) (value : Bool) : Bitmap :=
  { b with bits := fun n => if i ≤ n ∧ n < i + 8 then value else b.bits n }

/-- Where the contents of an evicted page go. -/
inductive Kind
  | file
  | slot
  | nowhere
  deriving DecidableEq

/-- The three rules of `swap_out` and `swap_in`. -/
def Spte.kind (x : Spte) : Kind :=
  if x.mmapped then .file else if !x.load_executable || x.writable then .slot else .nowhere

/-- **The second half of `swap_out`**, by the rule for the page. -/
theorem step_save_spec {w : Want} {e : Fte} (hs : step_save s p w e = .ok s') :
    ∃ a x, e.spte = some a ∧ s.sptes a = some x ∧
      ((x.kind = .file ∧ x.dirty = true ∧
          (s' = s ∧ s.filesys_lock ≠ none ∧ s.filesys_lock ≠ some p ∨ s.filesys_lock = none ∧
            s' = ({ s with filesys_lock := some p }).goto p (.writeback w e))) ∨
        ((x.kind = .file ∧ x.dirty = false ∨ x.kind = .nowhere) ∧
          s' = s.goto p (.free w e.frame)) ∨
        (x.kind = .slot ∧ ∃ i, bitmap_scan s.swap_table 0 8 false = some i ∧
          s' = ({ s.setSpte a { x with disk_sector_idx := i } with
            swap_device := write_sectors s.swap_device i (s.frames e.frame)
            swap_table := slot_set s.swap_table i true }).goto p (.free w e.frame))) := by
  obtain ⟨⟨a, x⟩, hent, hs⟩ := bind_eq_ok hs
  obtain ⟨ha, hx⟩ := entry_spec hent
  refine ⟨a, x, ha, hx, ?_⟩
  dsimp only at hs
  unfold Spte.kind
  by_cases hm : x.mmapped = true
  · rw [if_pos hm] at hs ⊢
    by_cases hd : x.dirty = true
    · rw [if_pos hd] at hs
      obtain ⟨r, hlock, hs⟩ := bind_eq_ok hs
      obtain ⟨hne, ⟨rfl, hfree⟩ | ⟨rfl, hheld⟩⟩ := lock_acquire_spec hlock
      · exact Or.inl ⟨rfl, hd, Or.inr ⟨hfree, (Except.ok.inj hs).symm⟩⟩
      · exact Or.inl ⟨rfl, hd, Or.inl ⟨(Except.ok.inj hs).symm, hheld, hne⟩⟩
    · rw [if_neg hd] at hs
      exact Or.inr (Or.inl ⟨Or.inl ⟨rfl, by simpa using hd⟩, (Except.ok.inj hs).symm⟩)
  rw [if_neg hm] at hs ⊢
  by_cases hk : (!x.load_executable || x.writable) = true
  · rw [if_pos hk] at hs ⊢
    cases hscan : bitmap_scan s.swap_table 0 8 false with
    | none => rw [hscan] at hs; cases hs
    | some i =>
      rw [hscan] at hs
      obtain ⟨t, hw, hs⟩ := bind_eq_ok hs
      obtain ⟨_, -, hw⟩ := bind_eq_ok hw
      obtain ⟨b, hb, hs⟩ := bind_eq_ok hs
      obtain rfl := Except.ok.inj hw
      obtain ⟨-, hle, -⟩ := bitmap_scan_some hscan
      rw [bitmap_set_multiple_eq _ hle] at hb
      obtain rfl := Except.ok.inj hb
      exact Or.inr (Or.inr ⟨rfl, i, rfl, (Except.ok.inj hs).symm⟩)
  · rw [if_neg hk] at hs ⊢
    exact Or.inr (Or.inl ⟨Or.inr rfl, (Except.ok.inj hs).symm⟩)

/-- The write-back of `swap_out` goes through the page directory of the running
process, or faults. -/
theorem step_writeback_spec {w : Want} {e : Fte} {c : Choice}
    (hs : step_writeback s p w e c = .ok s') :
    ∃ a x, e.spte = some a ∧ s.sptes a = some x ∧
      ((∃ f, s' = ({ s with
          files := Function.update s.files x.file_ptr f
          filesys_lock := none }).goto p (.free w e.frame)) ∨
        ((s.procs p).pagedir x.user_vaddr = none ∧
          page_fault (s.upd p (fun t => { t with callers := .writeback w e :: t.callers })) p
            (x.user_vaddr * PGSIZE) false c.near_esp = .ok s')) := by
  obtain ⟨⟨a, x⟩, hent, hs⟩ := bind_eq_ok hs
  obtain ⟨ha, hx⟩ := entry_spec hent
  refine ⟨a, x, ha, hx, ?_⟩
  dsimp only at hs
  cases hbuf : user_buffer s p x.user_vaddr (s.files x.file_ptr) x.page_read_bytes with
  | none => rw [hbuf] at hs; exact Or.inr ⟨(user_buffer_eq_none.mp hbuf).2, hs⟩
  | some buf => rw [hbuf] at hs; exact Or.inl ⟨_, (Except.ok.inj hs).symm⟩

theorem step_free_spec {w : Want} {k : ℕ} (hs : step_free s p w k = .ok s') :
    s.used_map.bits k = true ∧
      s' = ({ s.setPool (Function.update s.frames k (fun _ => 0xcc))
        (Function.update s.used_map.bits k false) with swap_lock := none }).goto p (.get w) := by
  obtain ⟨t, hfree, hs⟩ := bind_eq_ok hs
  obtain ⟨hused, rfl⟩ := palloc_free_page_spec hfree
  exact ⟨hused, (Except.ok.inj hs).symm⟩

/-! ## Filling the frame -/

theorem mark_loaded_spec {a : ℕ} {write : Bool} (hs : mark_loaded s a write = .ok s') :
    ∃ x, s.sptes a = some x ∧
      s' = s.setSpte a { x with loaded := true, dirty := x.dirty || write } := by
  obtain ⟨x, hx, hs⟩ := bind_eq_ok hs
  exact ⟨x, Mem.spte_eq_ok hx, (Except.ok.inj hs).symm⟩

/-- `install_fault_page` maps the frame, or changes nothing. -/
theorem install_fault_page_spec {v k : ℕ} {writable room b : Bool}
    (hs : install_fault_page s p v k writable room = (b, s')) :
    (b = false ∧ s' = s) ∨ b = true ∧ (s.procs p).pagedir v = none ∧
      s' = s.upd p (fun t => { t with
        pagedir := Function.update t.pagedir v (some ⟨k, writable⟩)
        tables := Function.update t.tables (v / 1024) true }) := by
  unfold install_fault_page at hs
  dsimp only at hs
  by_cases hp : ((s.procs p).pagedir v).isSome = true
  · rw [if_pos hp] at hs
    exact Or.inl ⟨(Prod.mk.inj hs).1.symm, (Prod.mk.inj hs).2.symm⟩
  rw [if_neg hp] at hs
  by_cases hr : ((s.procs p).tables (v / 1024) || room) = true
  · rw [if_pos hr] at hs
    exact Or.inr ⟨(Prod.mk.inj hs).1.symm, by simpa using hp, (Prod.mk.inj hs).2.symm⟩
  · rw [if_neg hr] at hs
    exact Or.inl ⟨(Prod.mk.inj hs).1.symm, (Prod.mk.inj hs).2.symm⟩

/-- Installing changes a page directory and nothing else. -/
theorem install_fault_page_fields {v k : ℕ} {writable room b : Bool}
    (hs : install_fault_page s p v k writable room = (b, s')) :
    ∃ procs, s' = { s with procs := procs } ∧ ∀ q, q ≠ p → procs q = s.procs q := by
  rcases install_fault_page_spec hs with ⟨-, rfl⟩ | ⟨-, -, rfl⟩
  · exact ⟨s'.procs, rfl, fun q _ => rfl⟩
  · exact ⟨_, rfl, fun q hq => Function.update_of_ne hq _ _⟩

/-- The file has every byte that the entry wants from it. -/
def Full (s : Mem) (x : Spte) : Prop :=
  x.page_read_bytes = 0 ∨ x.file_ofs + x.page_read_bytes ≤ (s.files x.file_ptr).length

theorem Full.read {x : Spte} (h : Full s x) (buf : Page) :
    (file_read_at (s.files x.file_ptr) buf x.page_read_bytes x.file_ofs).1
      = x.page_read_bytes := by
  show min x.page_read_bytes ((s.files x.file_ptr).length - x.file_ofs) = _
  rcases h with h | h <;> omega

theorem Mem.setFrame_setFrame (s : Mem) (k : ℕ) (b b' : Page) :
    (s.setFrame k b).setFrame k b' = s.setFrame k b' := by
  simp [Mem.setFrame]

/-- `page_fault` with a frame, for a page that is not swapped and whose file is
long enough. -/
theorem load_page_spec {v a k : ℕ} {write room : Bool} {x : Spte} (hx : s.sptes a = some x)
    (hfull : Full s x) (hs : load_page s p v write a k x room = .ok s') :
    ∃ b t, install_fault_page (read_page s x k) p v k x.writable room = (b, t) ∧
      s' = ({ t with
        frame_table := t.frame_table ++ [(⟨k, p, some a⟩ : Fte)]
        sptes := Function.update t.sptes a
          (some { x with loaded := true, dirty := x.dirty || write }) }).ret p := by
  unfold load_page at hs
  have hn := hfull.read (s.frames k)
  cases hread : file_read_at (s.files x.file_ptr) (s.frames k) x.page_read_bytes x.file_ofs with
  | mk n buf =>
    rw [hread] at hs hn
    dsimp only at hs hn
    rw [if_neg (fun hc => hc hn)] at hs
    obtain ⟨s₁, hs₁, hs⟩ := bind_eq_ok hs
    obtain rfl := Except.ok.inj hs₁
    rw [Mem.setFrame_setFrame] at hs
    have hframe : (s.setFrame k buf).frames k = buf := Function.update_self _ _ _
    have himage : s.setFrame k (zero_from x.page_read_bytes ((s.setFrame k buf).frames k))
        = read_page s x k := by
      rw [hframe, read_page, hread]
    rw [himage] at hs
    cases hinst : install_fault_page (read_page s x k) p v k x.writable room with
    | mk b t =>
      rw [hinst] at hs
      obtain ⟨t', hmark, hs⟩ := bind_eq_ok hs
      obtain ⟨y, hy, rfl⟩ := mark_loaded_spec hmark
      obtain ⟨procs, rfl, -⟩ := install_fault_page_fields hinst
      have hyx : y = x := Option.some.inj (hy.symm.trans hx)
      rw [hyx] at hs
      exact ⟨b, _, rfl, (Except.ok.inj hs).symm⟩

/-- What comes after the loop around `swap_out`, for a page with an entry. -/
theorem step_load_entry_spec {v a k : ℕ} {write : Bool} {c : Choice}
    (hs : step_load s p (.entry v write a) k c = .ok s') :
    ∃ x, s.sptes a = some x ∧
      (x.swapped = true ∧ s' = s.goto p (.swapin v write a k) ∨
        x.swapped = false ∧ load_page s p v write a k x c.room = .ok s') := by
  obtain ⟨x, hx, hs⟩ := bind_eq_ok hs
  refine ⟨x, Mem.spte_eq_ok hx, ?_⟩
  by_cases hsw : x.swapped = true
  · rw [if_pos hsw] at hs
    exact Or.inl ⟨hsw, (Except.ok.inj hs).symm⟩
  · rw [if_neg hsw] at hs
    exact Or.inr ⟨by simpa using hsw, hs⟩

/-- Stack growth: the page is mapped and gets an entry, or the process exits. -/
theorem step_load_grow_spec {v k : ℕ} {c : Choice} (hs : step_load s p (.grow v) k c = .ok s') :
    s' = s.exit p ∨ ∃ t, install_fault_page s p v k true c.room = (true, t) ∧
      s' = ({ allocate_page t p v c.junk with
        frame_table := t.frame_table ++ [(⟨k, p, none⟩ : Fte)] }).ret p := by
  unfold step_load at hs
  dsimp only at hs
  cases hinst : install_fault_page s p v k true c.room with
  | mk b t =>
    rw [hinst] at hs
    cases b with
    | false =>
      rcases install_fault_page_spec hinst with ⟨-, rfl⟩ | ⟨hc, -, -⟩
      · exact Or.inl (Except.ok.inj hs).symm
      · cases hc
    | true =>
      refine Or.inr ⟨t, rfl, ?_⟩
      rw [← Except.ok.inj hs]
      unfold allocate_frame allocate_page insert_page
      cases (t.procs p).sup_page_table v <;> rfl

/-- `setup_stack` with a frame. -/
theorem step_load_stack_spec {k : ℕ} {c : Choice} (hs : step_load s p .stack k c = .ok s') :
    ∃ b, (∃ t, install_fault_page (s.setFrame k b) p (PHYS_PAGES - 1) k true c.room = (true, t) ∧
        s' = t.ret p) ∨
      ∃ t, palloc_free_page (s.setFrame k b) k = .ok t ∧ s' = t.exit p := by
  unfold step_load at hs
  dsimp only at hs
  refine ⟨fun i => if i < PGSIZE then 0 else s.frames k i, ?_⟩
  cases hinst : install_fault_page
      (s.setFrame k (fun i => if i < PGSIZE then 0 else s.frames k i)) p (PHYS_PAGES - 1) k true
      c.room with
  | mk b t =>
    rw [hinst] at hs
    cases b with
    | true => exact Or.inl ⟨t, rfl, (Except.ok.inj hs).symm⟩
    | false =>
      obtain ⟨t', hfree, hs'⟩ := bind_eq_ok hs
      rcases install_fault_page_spec hinst with ⟨-, rfl⟩ | ⟨hc, -, -⟩
      · exact Or.inr ⟨t', hfree, (Except.ok.inj hs').symm⟩
      · cases hc

/-- `swap_in` before it reads: it waits, or lists the frame, or finds the page not
swapped. -/
theorem step_swapin_spec {v a k : ℕ} {write : Bool} (hs : step_swapin s p v write a k = .ok s') :
    (s' = s ∧ s.swap_lock ≠ none ∧ s.swap_lock ≠ some p) ∨ s.swap_lock = none ∧ ∃ b x,
      page_lookup s p v = some b ∧ s.sptes b = some x ∧
      ((x.swapped = true ∧ s' = ({ s with
          swap_lock := some p
          frame_table := s.frame_table ++ [(⟨k, p, some b⟩ : Fte)]
          sptes := Function.update s.sptes b (some { x with swapped := false }) }).goto p
            (.refill v write a k b)) ∨
        (x.swapped = false ∧
          s' = ({ s with swap_lock := some p }).goto p (.install v write a k))) := by
  obtain ⟨r, hlock, hs⟩ := bind_eq_ok hs
  obtain ⟨hne, ⟨rfl, hfree⟩ | ⟨rfl, hheld⟩⟩ := lock_acquire_spec hlock
  · refine Or.inr ⟨hfree, ?_⟩
    dsimp only at hs
    cases hl : page_lookup { s with swap_lock := some p } p v with
    | none => rw [hl] at hs; cases hs
    | some b =>
      rw [hl] at hs
      obtain ⟨x, hx, hs⟩ := bind_eq_ok hs
      refine ⟨b, x, hl, Mem.spte_eq_ok hx, ?_⟩
      by_cases hsw : x.swapped = true
      · rw [if_pos hsw] at hs
        exact Or.inl ⟨hsw, (Except.ok.inj hs).symm⟩
      · rw [if_neg hsw] at hs
        exact Or.inr ⟨by simpa using hsw, (Except.ok.inj hs).symm⟩
  · exact Or.inl ⟨(Except.ok.inj hs).symm, hheld, hne⟩

/-- The second half of `swap_in`, by the rule for the page. -/
theorem step_refill_spec {v a k b : ℕ} {write : Bool}
    (hs : step_refill s p v write a k b = .ok s') :
    ∃ x, s.sptes b = some x ∧
      ((x.kind ≠ .slot ∧
          s' = ({ read_page s x k with swap_lock := none }).goto p (.install v write a k)) ∨
        (x.kind = .slot ∧ s' = ({ s with
          frames := Function.update s.frames k
            (read_sectors s.swap_device x.disk_sector_idx (s.frames k))
          swap_table := slot_set s.swap_table x.disk_sector_idx false
          swap_lock := none }).goto p (.install v write a k))) := by
  obtain ⟨x, hx, hs⟩ := bind_eq_ok hs
  obtain ⟨t, ht, hs⟩ := bind_eq_ok hs
  refine ⟨x, Mem.spte_eq_ok hx, ?_⟩
  unfold refill at ht
  unfold Spte.kind
  by_cases hm : x.mmapped = true
  · rw [if_pos hm] at ht ⊢
    obtain rfl := Except.ok.inj ht
    exact Or.inl ⟨by simp, (Except.ok.inj hs).symm⟩
  rw [if_neg hm] at ht ⊢
  by_cases hk : (!x.load_executable || x.writable) = true
  · rw [if_pos hk] at ht ⊢
    obtain ⟨u, hu, ht⟩ := bind_eq_ok ht
    obtain ⟨_, -, hu⟩ := bind_eq_ok hu
    obtain rfl := Except.ok.inj hu
    obtain ⟨m, hm', ht⟩ := bind_eq_ok ht
    unfold bitmap_set_multiple at hm'
    obtain ⟨_, -, hm'⟩ := bind_eq_ok hm'
    obtain rfl := Except.ok.inj hm'
    obtain rfl := Except.ok.inj ht
    exact Or.inr ⟨rfl, (Except.ok.inj hs).symm⟩
  · rw [if_neg hk] at ht ⊢
    obtain rfl := Except.ok.inj ht
    exact Or.inl ⟨by simp, (Except.ok.inj hs).symm⟩

/-- `page_fault` after `swap_in`. -/
theorem step_install_spec {v a k : ℕ} {write : Bool} {c : Choice}
    (hs : step_install s p v write a k c = .ok s') :
    ∃ x b t, s.sptes a = some x ∧
      install_fault_page s p v k x.writable c.room = (b, t) ∧
      s' = ({ t with
        sptes := Function.update t.sptes a
          (some { x with loaded := true, dirty := x.dirty || write }) }).ret p := by
  obtain ⟨x, hx, hs⟩ := bind_eq_ok hs
  cases hinst : install_fault_page s p v k x.writable c.room with
  | mk b t =>
    rw [hinst] at hs
    obtain ⟨t', hmark, hs⟩ := bind_eq_ok hs
    obtain ⟨y, hy, rfl⟩ := mark_loaded_spec hmark
    refine ⟨x, b, t, Mem.spte_eq_ok hx, hinst, ?_⟩
    obtain ⟨procs, rfl, -⟩ := install_fault_page_fields hinst
    rw [Option.some.inj (hy.symm.trans (Mem.spte_eq_ok hx))] at hs
    exact (Except.ok.inj hs).symm

/-! ## `munmap` and `exit` -/

/-- `munmap` before its loop: it returns, waits, or has `filesys_lock`. -/
theorem step_unmapping_spec {mapping : ℕ} (hs : step_unmapping s p mapping = .ok s') :
    (s' = s.ret p ∧ (s.procs p).fd_list.find? (fun d => d.mmapped && d.mapid == mapping) = none) ∨
    ∃ d a, (s.procs p).fd_list.find? (fun d => d.mmapped && d.mapid == mapping) = some d ∧
      page_lookup s p d.vaddr = some a ∧
      (s' = s ∨ s.filesys_lock = none ∧ ∃ x, s.sptes a = some x ∧
        s' = ({ s with filesys_lock := some p }).goto p (.munmap
          ⟨a, mapping, 0, (s.files x.file_ptr).length, x.user_vaddr, x.file_ofs⟩)) := by
  unfold step_unmapping at hs
  cases hd : (s.procs p).fd_list.find? (fun d => d.mmapped && d.mapid == mapping) with
  | none =>
    rw [hd] at hs
    exact Or.inl ⟨(Except.ok.inj hs).symm, rfl⟩
  | some d =>
    rw [hd] at hs
    dsimp only at hs
    right
    cases ha : page_lookup s p d.vaddr with
    | none => rw [ha] at hs; cases hs
    | some a =>
      rw [ha] at hs
      refine ⟨d, a, rfl, ha, ?_⟩
      obtain ⟨r, hlock, hs⟩ := bind_eq_ok hs
      obtain ⟨-, ⟨rfl, hfree⟩ | ⟨rfl, -⟩⟩ := lock_acquire_spec hlock
      · obtain ⟨x, hx, hs⟩ := bind_eq_ok hs
        exact Or.inr ⟨hfree, x, Mem.spte_eq_ok hx, (Except.ok.inj hs).symm⟩
      · exact Or.inl (Except.ok.inj hs).symm

/-- The next turn of the loop of `munmap`. -/
def Unmap.next (m : Unmap) : Unmap :=
  { m with
    iter := m.iter + 1
    file_len := m.file_len - min m.file_len PGSIZE
    vaddr := m.vaddr + 1
    file_ofs := m.file_ofs + min m.file_len PGSIZE }

theorem unmap_page_spec {m : Unmap} {x : Spte} (hs : unmap_page s p m x = .ok s') :
    m.vaddr < PHYS_PAGES ∧ s' = (s.setSpte m.spte { x with mid := 0 }).upd p (fun t => { t with
      pagedir := Function.update t.pagedir m.vaddr none
      point := .munmap m.next }) := by
  obtain ⟨t, hclear, hs⟩ := bind_eq_ok hs
  obtain ⟨_, hv, hclear⟩ := bind_eq_ok hclear
  refine ⟨ASSERT_eq_ok hv, ?_⟩
  rw [← Except.ok.inj hs, ← Except.ok.inj hclear]
  simp [Mem.goto, Mem.upd, Unmap.next]

/-- **A turn of the loop of `munmap`**: it is over, or the page is cleared after it
was written if the first entry is dirty, or the write faults. -/
theorem step_munmap_spec {m : Unmap} {c : Choice} (hs : step_munmap s p m c = .ok s') :
    ∃ x, s.sptes m.spte = some x ∧
      ((x.page_cnt ≤ m.iter ∧ s' = s.goto p (.unlist m)) ∨
        (m.iter < x.page_cnt ∧ ∃ files, unmap_page { s with files := files } p m x = .ok s') ∨
        (m.iter < x.page_cnt ∧ (s.procs p).pagedir m.vaddr = none ∧
          page_fault (s.upd p (fun t => { t with callers := .munmap m :: t.callers })) p
            (m.vaddr * PGSIZE) false c.near_esp = .ok s')) := by
  obtain ⟨x, hx, hs⟩ := bind_eq_ok hs
  refine ⟨x, Mem.spte_eq_ok hx, ?_⟩
  by_cases hi : m.iter < x.page_cnt
  · rw [if_pos hi] at hs
    right
    by_cases hd : x.dirty = true
    · rw [if_pos hd] at hs
      dsimp only at hs
      cases hbuf : user_buffer s p m.vaddr (s.files x.file_ptr) (min m.file_len PGSIZE) with
      | none =>
        rw [hbuf] at hs
        exact Or.inr ⟨hi, (user_buffer_eq_none.mp hbuf).2, hs⟩
      | some buf =>
        rw [hbuf] at hs
        exact Or.inl ⟨hi, _, hs⟩
    · rw [if_neg hd] at hs
      exact Or.inl ⟨hi, s.files, hs⟩
  · rw [if_neg hi] at hs
    exact Or.inl ⟨by omega, (Except.ok.inj hs).symm⟩

/-- Freeing the frames that the members of a list have: only the pool and the bytes
of the freed frames change. -/
theorem free_all_spec {α : Type} (f : α → Option ℕ) {free : Mem → α → Res Mem}
    (hnone : ∀ t a, f a = none → free t a = .ok t)
    (hsome : ∀ t a k, f a = some k → free t a = palloc_free_page t k)
    {l : List α} {t t' : Mem} (hs : l.foldlM free t = .ok t') :
    ∃ frames bits, t' = t.setPool frames bits ∧
      (∀ k, (∀ a ∈ l, f a ≠ some k) → frames k = t.frames k) ∧
      ∀ k, bits k = true ↔ t.used_map.bits k = true ∧ ∀ a ∈ l, f a ≠ some k := by
  induction l generalizing t with
  | nil =>
    obtain rfl := Except.ok.inj hs
    exact ⟨t.frames, t.used_map.bits, rfl, fun k _ => rfl, fun k => by simp⟩
  | cons a rest ih =>
    rw [List.foldlM_cons] at hs
    obtain ⟨t₁, hfree, hrest⟩ := bind_eq_ok hs
    cases hk : f a with
    | none =>
      rw [hnone t a hk] at hfree
      obtain rfl := Except.ok.inj hfree
      obtain ⟨frames, bits, rfl, hframes, hbits⟩ := ih hrest
      refine ⟨frames, bits, rfl, ?_, ?_⟩
      · exact fun k hkk => hframes k (fun b hb => hkk b (List.mem_cons_of_mem _ hb))
      · intro k
        rw [hbits k]
        simp [hk]
    | some i =>
      rw [hsome t a i hk] at hfree
      obtain ⟨-, rfl⟩ := palloc_free_page_spec hfree
      obtain ⟨frames, bits, rfl, hframes, hbits⟩ := ih hrest
      refine ⟨frames, bits, rfl, ?_, ?_⟩
      · intro k hkk
        have hki : k ≠ i := by
          rintro rfl
          exact hkk a List.mem_cons_self hk
        rw [hframes k (fun b hb => hkk b (List.mem_cons_of_mem _ hb))]
        exact Function.update_of_ne hki _ _
      · intro k
        rw [hbits k]
        show Function.update t.used_map.bits i false k = true ∧ _ ↔ _
        simp only [List.mem_cons, forall_eq_or_imp, hk, ne_eq, Option.some.injEq]
        by_cases hki : k = i
        · subst hki
          simp
        · rw [Function.update_of_ne hki]
          simp [Ne.symm hki]

/-- **`munmap` after its loop.** -/
theorem step_unlist_spec {m : Unmap} {c : Choice} (hs : step_unlist s p m c = .ok s') :
    ∃ (x : Spte) (frames : ℕ → Page) (bits : ℕ → Bool), s.sptes m.spte = some x ∧
      (∀ k, bits k = true ↔ s.used_map.bits k = true ∧
        ∀ e ∈ s.frame_table, mid_of s c.stale_mid e = m.mapping → e.frame ≠ k) ∧
      s' = (({ s.setPool frames bits with
        frame_table := s.frame_table.filter (fun e => mid_of s c.stale_mid e != m.mapping)
        sptes := Function.update s.sptes m.spte none
        filesys_lock := none } : Mem).upd p (fun t : Proc => { t with
          sup_page_table := Function.update t.sup_page_table x.user_vaddr none
          fd_list := t.fd_list.map (fun d : FdElem =>
            if d.mmapped && d.mapid == m.mapping then { d with mmapped := false } else d) })).ret
        p := by
  obtain ⟨x, hx, hs⟩ := bind_eq_ok hs
  rw [List.partition_eq_filter_filter] at hs
  dsimp only at hs
  obtain ⟨t, hfree, hs⟩ := bind_eq_ok hs
  obtain ⟨frames, bits, rfl, -, hbits⟩ := free_all_spec (fun e => some e.frame)
    (fun t e he => by cases he) (fun t e k hk => by rw [← Option.some.inj hk]) hfree
  refine ⟨x, frames, bits, Mem.spte_eq_ok hx, ?_, (Except.ok.inj hs).symm⟩
  intro k
  rw [hbits k]
  simp [List.mem_filter]

/-- `process_exit` frees every frame the process has mapped. -/
theorem process_exit_spec (hs : process_exit s p = .ok s') :
    ∃ (frames : ℕ → Page) (bits : ℕ → Bool),
      (∀ k, bits k = true ↔ s.used_map.bits k = true ∧
        ∀ v < PHYS_PAGES, ∀ pte, (s.procs p).pagedir v = some pte → pte.frame ≠ k) ∧
      s' = (s.setPool frames bits).upd p (fun t => { t with
        pagedir := fun _ => none
        tables := fun _ => false }) := by
  have hnone : ∀ (t : Mem) v, ((s.procs p).pagedir v).map Pte.frame = none →
      destroy_page (s.procs p) t v = .ok t := by
    intro t v hv
    unfold destroy_page
    rw [Option.map_eq_none_iff.mp hv]
  have hsome : ∀ (t : Mem) v k, ((s.procs p).pagedir v).map Pte.frame = some k →
      destroy_page (s.procs p) t v = palloc_free_page t k := by
    intro t v k hv
    obtain ⟨pte, hpte, rfl⟩ := Option.map_eq_some_iff.mp hv
    unfold destroy_page
    rw [hpte]
  obtain ⟨frames, bits, rfl, -, hbits⟩ := free_all_spec _ hnone hsome hs
  refine ⟨frames, bits, ?_, rfl⟩
  intro k
  rw [hbits k]
  simp only [List.mem_range, ne_eq, Option.map_eq_some_iff, not_exists, not_and]
  exact Iff.rfl

/-- The first part of `thread_exit` gives up the pages. -/
theorem thread_exit_spec (hs : thread_exit s p = .ok s') :
    ∃ (frames : ℕ → Page) (bits : ℕ → Bool),
      (∀ k, bits k = true ↔ s.used_map.bits k = true ∧
        ∀ v < PHYS_PAGES, ∀ pte, (s.procs p).pagedir v = some pte → pte.frame ≠ k) ∧
      s' = ((s.setPool frames bits).upd p (fun t => { t with
        pagedir := fun _ => none
        tables := fun _ => false })).goto p .reap := by
  obtain ⟨t, hexit, hs⟩ := bind_eq_ok hs
  obtain ⟨frames, bits, hbits, rfl⟩ := process_exit_spec hexit
  exact ⟨frames, bits, hbits, (Except.ok.inj hs).symm⟩

/-- `exit` unmaps what is mapped, or gives up the pages. -/
theorem step_exit_spec (hs : step_exit s p = .ok s') :
    (∃ mapping, s' = s.upd p (fun t => { t with
      point := .unmapping mapping, callers := [.exit] })) ∨ thread_exit s p = .ok s' := by
  unfold step_exit at hs
  cases hd : (s.procs p).fd_list.find? (fun d => d.mmapped) with
  | some d =>
    rw [hd] at hs
    exact Or.inl ⟨d.mapid, (Except.ok.inj hs).symm⟩
  | none =>
    rw [hd] at hs
    exact Or.inr hs

theorem step_reap_self (s : Mem) (p : ℕ) : (step_reap s p).procs p = { s.procs p with
    fd_list := []
    sup_page_table := fun _ => none
    point := .dead } := Function.update_self _ _ _

theorem step_reap_of_ne {q : ℕ} (hq : q ≠ p) : (step_reap s p).procs q = s.procs q :=
  Function.update_of_ne hq _ _

/-- An event that cannot happen in the state does nothing. -/
theorem of_guard {P : Mem → Prop} {b : Bool} {r : Res Mem} (h : P s)
    (hr : b = true → r = .ok s' → P s') (hs : (if b then r else .ok s) = .ok s') : P s' := by
  cases b with
  | true => exact hr rfl hs
  | false => exact Except.ok.inj hs ▸ h

end Pintos.Vm
