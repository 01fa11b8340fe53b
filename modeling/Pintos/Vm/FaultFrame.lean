/-
The frame a fault installs.

`page_fault` ends in one of three places: it has read the page from a file, it has grown the
stack, or `swap_in` has filled the frame. `lazy_file_map` ends as the first of these. The frame
comes from `palloc_get_page` and should be the new page's alone, marked in the user pool,
mapped by one page directory and listed once.

After a short read of the file the frame is given back to the pool and installed all the same.
The other way to fail is an entry of the frame table that outlives its process: between
`process_exit`, which frees the frames, and the loop of `thread_exit` over the frame table the
frames of an exiting process are listed and free.
-/
import Pintos.Vm.Isolation

set_option autoImplicit false

namespace Pintos.Vm

open Pintos.Kernel StepSystem

/-- `lazy_file_map` with its frame. The page directory is asked first, as `install_fault_page`
does. -/
def lazy_file_map (s : Mem) (p v a k : ℕ) (x : Spte) (room : Bool) : Res Mem := do
  let (n, buf) := file_read_at (s.files x.file_ptr) (s.frames k) x.page_read_bytes x.file_ofs
  let s := s.setFrame k buf
  let s ← if n ≠ x.page_read_bytes then palloc_free_page s k else pure s
  let s := s.setFrame k (zero_from x.page_read_bytes (s.frames k))
  let (_, s) := install_fault_page s p v k x.writable room
  let s := allocate_frame s p k (some a)
  mark_loaded s a false

/-- The frame `k` is taken, mapped at page `v` of process `p` at most, and listed at most once,
for `p`. -/
structure OwnFrame (s : Mem) (p v k : ℕ) : Prop where
  taken : s.used_map.bits k = true
  mapped : ∀ q w pte, (s.procs q).pagedir w = some pte → pte.frame = k → q = p ∧ w = v
  owner : ∀ e ∈ s.frame_table, e.frame = k → e.owner = p
  once : (s.frame_table.filter fun e => e.frame = k).length ≤ 1

/-- A process that is past `process_exit` still lists the frame. -/
def Stale (s : Mem) (k : ℕ) : Prop := ∃ e ∈ s.frame_table, e.frame = k ∧ ¬ (s.procs e.owner).alive

variable {role : ℕ → Role} {s s' : Mem} {p v k : ℕ}

/-- `lazy_file_map` is the end of `page_fault` without its return. -/
theorem load_page_of_lazy {a : ℕ} {x : Spte} {room : Bool}
    (hs : lazy_file_map s p v a k x room = .ok s') :
    load_page s p v false a k x room = .ok (s'.ret p) := by
  unfold lazy_file_map at hs
  unfold load_page
  dsimp only at hs ⊢
  by_cases hn : (file_read_at (s.files x.file_ptr) (s.frames k) x.page_read_bytes x.file_ofs).1 ≠
      x.page_read_bytes
  · rw [if_pos hn] at hs ⊢
    obtain ⟨s₁, h₁, hs⟩ := bind_eq_ok hs
    rw [h₁, ok_bind, hs]
    rfl
  · rw [if_neg hn] at hs ⊢
    obtain ⟨s₁, h₁, hs⟩ := bind_eq_ok hs
    rw [h₁, ok_bind, hs]
    rfl

/-- A return maps and lists nothing. -/
theorem ret_pagedir (s : Mem) (p q : ℕ) : ((s.ret p).procs q).pagedir = (s.procs q).pagedir := by
  by_cases hq : q = p
  · rw [hq, Mem.ret_self, Proc.ret_pagedir]
  · rw [Mem.ret_of_ne hq]

theorem ownFrame_ret (s : Mem) (p v k : ℕ) : OwnFrame (s.ret p) p v k ↔ OwnFrame s p v k := by
  constructor
  · rintro ⟨ht, hm, ho, h1⟩
    exact ⟨ht, fun q w pte hpte => hm q w pte (by rw [ret_pagedir]; exact hpte), ho, h1⟩
  · rintro ⟨ht, hm, ho, h1⟩
    exact ⟨ht, fun q w pte hpte => hm q w pte (by rw [← ret_pagedir]; exact hpte), ho, h1⟩

/-- A frame in hand that a live process lists is listed for the one that has it. -/
theorem RoleInv.listed_held (h : RoleInv role s) (hk : role k = .held p) {e : Fte}
    (he : e ∈ s.frame_table) (hek : e.frame = k) (halive : (s.procs e.owner).alive) :
    e.owner = p := by
  rcases h.listed e he halive with hl | ⟨w, -, hm | ⟨hh, -⟩⟩
  · rw [hek, hk] at hl
    cases hl
  · rw [hek, hk] at hm
    cases hm
  · rw [hek, hk] at hh
    exact (Role.held.inj hh).symm

/-- Entries of live processes only list a frame once. -/
theorem RoleInv.once_listed (h : RoleInv role s)
    (halive : ∀ e ∈ s.frame_table, e.frame = k → (s.procs e.owner).alive) :
    (s.frame_table.filter fun e => e.frame = k).length ≤ 1 := by
  have hpair := h.apart.filter fun e => decide (e.frame = k)
  have hmem : ∀ e ∈ s.frame_table.filter fun e => e.frame = k,
      e.frame = k ∧ (s.procs e.owner).alive := fun e he => by
    obtain ⟨hin, hek⟩ := List.mem_filter.mp he
    exact ⟨of_decide_eq_true hek, halive e hin (of_decide_eq_true hek)⟩
  generalize (s.frame_table.filter fun e => e.frame = k) = l at hpair hmem
  match l with
  | [] => exact Nat.zero_le _
  | [e] => exact le_rfl
  | e :: e' :: rest =>
    obtain ⟨hek, ha⟩ := hmem e List.mem_cons_self
    obtain ⟨hek', ha'⟩ := hmem e' (List.mem_cons_of_mem _ List.mem_cons_self)
    exact absurd (hek.trans hek'.symm)
      ((List.pairwise_cons.mp hpair).1 e' List.mem_cons_self ha ha')

/-- **A last step of a fault**, seen from outside: it maps the frame at its page at most, and
lists it for the process unless `swap_in` has. -/
structure Ends (s s' : Mem) (p v k : ℕ) : Prop where
  used : s'.used_map = s.used_map
  mapped : ∀ q w pte, (s'.procs q).pagedir w = some pte →
    (s.procs q).pagedir w = some pte ∨ q = p ∧ w = v
  table : s'.frame_table = s.frame_table ∨
    (s.procs p).point.fills = none ∧ ∃ a, s'.frame_table = s.frame_table ++ [(⟨k, p, a⟩ : Fte)]

/-- After such a step the frame is the page's own unless it was listed for a process that is
exiting. -/
theorem Ends.ownFrame_iff (h : Ends s s' p v k) (hinv : RoleInv role s)
    (hk : k ∈ (s.procs p).held) (hlive : (s.procs p).alive) : OwnFrame s' p v k ↔ ¬ Stale s k := by
  have hrole : role k = .held p := hinv.held p k hk
  have hsub : ∀ e ∈ s.frame_table, e ∈ s'.frame_table := fun e he => by
    rcases h.table with ht | ⟨-, a, ht⟩
    · rw [ht]
      exact he
    · rw [ht]
      exact List.mem_append_left _ he
  constructor
  · rintro hown ⟨e, he, hek, hdead⟩
    rw [hown.owner e (hsub e he) hek] at hdead
    exact hdead hlive
  · intro hstale
    have halive : ∀ e ∈ s.frame_table, e.frame = k → (s.procs e.owner).alive := by
      intro e he hek
      by_contra hdead
      exact hstale ⟨e, he, hek, hdead⟩
    have howner : ∀ e ∈ s.frame_table, e.frame = k → e.owner = p := fun e he hek =>
      hinv.listed_held hrole he hek (halive e he hek)
    have honce := hinv.once_listed halive
    refine ⟨?_, fun q w pte hpte hframe => ?_, fun e he hek => ?_, ?_⟩
    · rw [h.used]
      exact hinv.used k (by rw [hrole]; simp)
    · rcases h.mapped q w pte hpte with hold | hnew
      · have hr := hinv.mapped q w pte hold
        rw [hframe, hrole] at hr
        cases hr
      · exact hnew
    · rcases h.table with ht | ⟨-, a, ht⟩
      · rw [ht] at he
        exact howner e he hek
      · rw [ht, List.mem_append, List.mem_singleton] at he
        rcases he with he | rfl
        · exact howner e he hek
        · rfl
    · rcases h.table with ht | ⟨hfills, a, ht⟩
      · rw [ht]
        exact honce
      · -- a process that is not in `swap_in` has not listed the frame before
        have hnone : (s.frame_table.filter fun e => e.frame = k) = [] :=
          List.filter_eq_nil_iff.mpr fun e he hek => hinv.held_ne hfills hk he
            (halive e he (of_decide_eq_true hek)) (of_decide_eq_true hek)
        rw [ht, List.filter_append, hnone, List.nil_append]
        exact List.length_filter_le _ _

/-- Mapping a page changes one entry of one page directory. -/
theorem install_mapped {s₁ t : Mem} {writable room b : Bool}
    (hinst : install_fault_page s₁ p v k writable room = (b, t)) (hprocs : s₁.procs = s.procs)
    (q w : ℕ) (pte : Pte)
    (hpte : (t.procs q).pagedir w = some pte) :
    (s.procs q).pagedir w = some pte ∨ q = p ∧ w = v := by
  rcases install_fault_page_spec hinst with ⟨-, rfl⟩ | ⟨-, -, rfl⟩
  · rw [hprocs] at hpte
    exact Or.inl hpte
  · by_cases hq : q = p
    · subst hq
      rw [Mem.upd_self] at hpte
      change Function.update (s₁.procs q).pagedir v (some ⟨k, writable⟩) w = some pte at hpte
      by_cases hw : w = v
      · exact Or.inr ⟨rfl, hw⟩
      · rw [Function.update_of_ne hw, hprocs] at hpte
        exact Or.inl hpte
    · rw [Mem.upd_of_ne _ hq, hprocs] at hpte
      exact Or.inl hpte

theorem install_used (s : Mem) (p v k : ℕ) (writable room : Bool) :
    (install_fault_page s p v k writable room).2.used_map = s.used_map := by
  obtain ⟨procs, hs, -⟩ := install_fault_page_fields
    (Prod.eta (install_fault_page s p v k writable room)).symm
  rw [hs]

/-- The page of a file that is long enough. -/
theorem load_page_ends {a : ℕ} {write room : Bool} {x : Spte}
    (hpt : (s.procs p).point = .load (.entry v write a) k) (hx : s.sptes a = some x)
    (hfull : Full s x) (hs : load_page s p v write a k x room = .ok s') : Ends s s' p v k := by
  obtain ⟨b, t, hinst, rfl⟩ := load_page_spec hx hfull hs
  obtain ⟨procs, rfl, -⟩ := install_fault_page_fields hinst
  refine ⟨rfl, fun q w pte hpte => ?_, Or.inr ⟨by rw [hpt]; rfl, some a, rfl⟩⟩
  rw [ret_pagedir] at hpte
  exact install_mapped hinst rfl q w pte hpte

/-- After a short read the frame is free. -/
theorem load_page_short {a : ℕ} {write room : Bool} {x : Spte} (hshort : ¬ Full s x)
    (hs : load_page s p v write a k x room = .ok s') : s'.used_map.bits k = false := by
  have hn : (file_read_at (s.files x.file_ptr) (s.frames k) x.page_read_bytes x.file_ofs).1 ≠
      x.page_read_bytes := by
    change min x.page_read_bytes ((s.files x.file_ptr).length - x.file_ofs) ≠ _
    unfold Full at hshort
    omega
  unfold load_page at hs
  dsimp only at hs
  rw [if_pos hn] at hs
  obtain ⟨s₁, hfree, hs⟩ := bind_eq_ok hs
  obtain ⟨s₂, hmark, hs⟩ := bind_eq_ok hs
  obtain ⟨y, -, rfl⟩ := mark_loaded_spec hmark
  obtain rfl := Except.ok.inj hs
  obtain ⟨-, rfl⟩ := palloc_free_page_spec hfree
  refine (congrArg (fun b => Bitmap.bits b k) (install_used _ _ _ _ _ _)).trans ?_
  exact Function.update_self _ _ _

theorem insert_page_pagedir (s : Mem) (p : ℕ) (x : Spte) (q : ℕ) :
    ((insert_page s p x).procs q).pagedir = (s.procs q).pagedir := by
  unfold insert_page
  dsimp only
  cases (s.procs p).sup_page_table x.user_vaddr with
  | some a => rfl
  | none =>
    by_cases hq : q = p
    · subst hq
      rw [Mem.upd_self]
    · rw [Mem.upd_of_ne _ hq]

theorem insert_page_used (s : Mem) (p : ℕ) (x : Spte) :
    (insert_page s p x).used_map = s.used_map := by
  unfold insert_page
  dsimp only
  cases (s.procs p).sup_page_table x.user_vaddr <;> rfl

/-- The grown stack. -/
theorem step_grow_ends {c : Choice} (hpt : (s.procs p).point = .load (.grow v) k)
    (hs : step_load s p (.grow v) k c = .ok s') (hexit : s' ≠ s.exit p) : Ends s s' p v k := by
  obtain ⟨t, hinst, rfl⟩ := (step_load_grow_spec hs).resolve_left hexit
  obtain ⟨procs, rfl, -⟩ := install_fault_page_fields hinst
  refine ⟨insert_page_used _ _ _, fun q w pte hpte => ?_,
    Or.inr ⟨by rw [hpt]; rfl, none, rfl⟩⟩
  rw [ret_pagedir] at hpte
  refine install_mapped hinst rfl q w pte ((congrFun ?_ w).symm.trans hpte)
  exact insert_page_pagedir _ _ _ _

/-- A page that `swap_in` has filled. -/
theorem step_install_ends {a : ℕ} {write : Bool} {c : Choice}
    (hs : step_install s p v write a k c = .ok s') : Ends s s' p v k := by
  obtain ⟨x, b, t, -, hinst, rfl⟩ := step_install_spec hs
  obtain ⟨procs, rfl, -⟩ := install_fault_page_fields hinst
  refine ⟨rfl, fun q w pte hpte => ?_, Or.inl rfl⟩
  rw [ret_pagedir] at hpte
  exact install_mapped hinst rfl q w pte hpte

theorem exec_load {w : Want} {c : Choice} (hpt : (s.procs p).point = .load w k)
    (hs : exec s (.run p c) = .ok s') : step_load s p w k c = .ok s' := by
  change run s p c = .ok s' at hs
  unfold run at hs
  rw [hpt] at hs
  exact hs

/-- **A fault's frame.** In the runs whose evictions take a page of the evicting process, whose
pages came from files that were long enough and whose `munmap`s freed only frames of cleared
pages, the frame a fault installs is the page's own exactly if the file is long enough for the
page, where one is read, and no process that is exiting still lists the frame. -/
theorem fault_frame_iff (h : Reachable paging Isolating s) :
    (∀ write a x c, (s.procs p).point = .load (.entry v write a) k → s.sptes a = some x →
      x.swapped = false → ∀ s', exec s (.run p c) = .ok s' →
        (OwnFrame s' p v k ↔ Full s x ∧ ¬ Stale s k)) ∧
    (∀ c, (s.procs p).point = .load (.grow v) k → ∀ s', exec s (.run p c) = .ok s' →
      s' ≠ s.exit p → (OwnFrame s' p v k ↔ ¬ Stale s k)) ∧
    (∀ write a c, (s.procs p).point = .install v write a k → ∀ s',
      exec s (.run p c) = .ok s' → (OwnFrame s' p v k ↔ ¬ Stale s k)) ∧
    ∀ a x room, (s.procs p).point = .load (.entry v false a) k → s.sptes a = some x →
      ∀ s', lazy_file_map s p v a k x room = .ok s' →
        (OwnFrame s' p v k ↔ Full s x ∧ ¬ Stale s k) := by
  obtain ⟨role, hinv⟩ := reachable_role h
  -- the two ways of reading a page from its file
  have hread : ∀ write a x room, (s.procs p).point = .load (.entry v write a) k →
      s.sptes a = some x → ∀ s', load_page s p v write a k x room = .ok s' →
        (OwnFrame s' p v k ↔ Full s x ∧ ¬ Stale s k) := by
    intro write a x room hpt hx s' hs
    have hheld : k ∈ (s.procs p).held := by
      rw [Proc.held, hpt]
      exact List.mem_cons_self
    have hlive : (s.procs p).alive := Proc.alive_at hpt rfl
    by_cases hfull : Full s x
    · rw [(load_page_ends hpt hx hfull hs).ownFrame_iff hinv hheld hlive, and_iff_right hfull]
    · refine iff_of_false (fun hown => ?_) fun hc => hfull hc.1
      have htaken := hown.taken
      rw [load_page_short hfull hs] at htaken
      cases htaken
  refine ⟨fun write a x c hpt hx hsw s' hs => ?_, fun c hpt s' hs hexit => ?_,
    fun write a c hpt s' hs => ?_, fun a x room hpt hx s' hs => ?_⟩
  · obtain ⟨y, hy, ⟨hsw', -⟩ | ⟨-, hload⟩⟩ := step_load_entry_spec (exec_load hpt hs)
    · rw [Option.some.inj (hx.symm.trans hy), hsw'] at hsw
      cases hsw
    · obtain rfl := Option.some.inj (hx.symm.trans hy)
      exact hread write a x c.room hpt hx s' hload
  · refine (step_grow_ends hpt (exec_load hpt hs) hexit).ownFrame_iff hinv ?_ (Proc.alive_at hpt rfl)
    rw [Proc.held, hpt]
    exact List.mem_cons_self
  · have hstep : step_install s p v write a k c = .ok s' := by
      change run s p c = .ok s' at hs
      unfold run at hs
      rw [hpt] at hs
      exact hs
    refine (step_install_ends hstep).ownFrame_iff hinv ?_ (Proc.alive_at hpt rfl)
    rw [Proc.held, hpt]
    exact List.mem_cons_self
  · rw [← ownFrame_ret]
    exact hread false a x room hpt hx _ (load_page_of_lazy hs)

/-- Process 0 is about to fill frame 1 for its page 8, which takes bytes from an empty file or
none at all, and will not fail. -/
def filling (full : Bool) (s : Mem) : Bool :=
  match (s.procs 0).point with
  | .load (.entry 8 _ a) 1 =>
    (s.sptes a).any (fun x => !x.swapped && (x.page_read_bytes == 0) == full &&
      (s.files x.file_ptr).length == 0) &&
      s.frame_table.isEmpty && (exec s (.run 0 plain)).toOption.isSome
  | _ => false

theorem filling_spec {full : Bool} (h : filling full s = true) : ∃ write a x s',
    (s.procs 0).point = .load (.entry 8 write a) 1 ∧ s.sptes a = some x ∧ x.swapped = false ∧
      (Full s x ↔ full = true) ∧ s.frame_table = [] ∧ exec s (.run 0 plain) = .ok s' := by
  unfold filling at h
  split at h
  · next write a hpt =>
    simp only [Bool.and_eq_true, List.isEmpty_iff] at h
    obtain ⟨⟨hany, htable⟩, hrun⟩ := h
    obtain ⟨s', hs'⟩ : ∃ s', exec s (.run 0 plain) = .ok s' := by
      cases he : exec s (.run 0 plain) with
      | error f =>
        rw [he] at hrun
        cases hrun
      | ok s' => exact ⟨s', rfl⟩
    cases hx : s.sptes a with
    | none =>
      rw [hx] at hany
      cases hany
    | some x =>
      rw [hx] at hany
      simp only [Option.any_some, Bool.and_eq_true, Bool.not_eq_true', beq_iff_eq] at hany
      obtain ⟨⟨hsw, hfull⟩, hlen⟩ := hany
      refine ⟨write, a, x, s', hpt, hx, hsw, ?_, htable, hs'⟩
      rw [← hfull, beq_iff_eq]
      unfold Full
      omega
  · cases h

/-- A page of zeros. -/
theorem fault_frame_zeros : ∃ s s' write a, Reachable paging Isolating s ∧
    (s.procs 0).point = .load (.entry 8 write a) 1 ∧ exec s (.run 0 plain) = .ok s' ∧
    OwnFrame s' 0 8 1 := by
  have hrun : follow exec isolating (filling true) (small_boot 2)
      (load_run 0 1 ++ touch_run 0 8 1) = true := by
    decide +kernel
  have hstart : Reachable paging (fun s e => isolating s e = true) (small_boot 2) :=
    .init (small_boot_boot 2)
  obtain ⟨s, hr, hs⟩ := follow_reachable (fun _ _ _ h => h) hstart hrun
  obtain ⟨write, a, x, s', hpt, hx, hsw, hfull, htable, hs'⟩ := filling_spec hs
  have hr' : Reachable paging Isolating s := hr.weaken isolating_of
  refine ⟨s, s', write, a, hr', hpt, hs', ?_⟩
  refine ((fault_frame_iff hr').1 write a x plain hpt hx hsw s' hs').mpr ⟨hfull.mpr rfl, ?_⟩
  rintro ⟨e, he, -⟩
  rw [htable] at he
  cases he

/-- **A fault maps a free frame**: the segment has a page that the file, which is empty, has
not. -/
theorem fault_maps_free_frame : ¬ ∀ (s s' : Mem) (p v k : ℕ) (write : Bool) (a : ℕ) (x : Spte)
    (c : Choice), Reachable paging (fun _ _ => True) s →
    (s.procs p).point = .load (.entry v write a) k → s.sptes a = some x → x.swapped = false →
    exec s (.run p c) = .ok s' → OwnFrame s' p v k := by
  intro hall
  have hrun : follow exec (fun _ _ => true) (filling false) (small_boot 2)
      (.load 0 0 [⟨0, 8, PGSIZE, 0, true⟩] (fun _ => blank) ::
        List.replicate 2 (.run 0 plain) ++ touch_run 0 8 1) = true := by
    decide +kernel
  have hstart : Reachable paging (fun _ _ => true = true) (small_boot 2) :=
    .init (small_boot_boot 2)
  obtain ⟨s, hr, hs⟩ := follow_reachable (fun _ _ _ h => h) hstart hrun
  obtain ⟨write, a, x, s', hpt, hx, hsw, hfull, -, hs'⟩ := filling_spec hs
  have hown := hall s s' 0 8 1 write a x plain (hr.weaken fun _ _ _ => trivial) hpt hx hsw hs'
  obtain ⟨y, hy, ⟨hsw', -⟩ | ⟨-, hload⟩⟩ := step_load_entry_spec (exec_load hpt hs')
  · rw [Option.some.inj (hx.symm.trans hy), hsw'] at hsw
    cases hsw
  · obtain rfl := Option.some.inj (hx.symm.trans hy)
    have hfree : s'.used_map.bits 1 = false :=
      load_page_short (fun hc => by cases hfull.mp hc) hload
    have htaken := hown.taken
    rw [hfree] at htaken
    cases htaken

end Pintos.Vm
