/-
A page on the swap disk is left alone until it is read.

The sectors of a page that is out are marked, and `swap_out` writes to sectors that are not, so no
page is written over another, whoever evicts what in between. What `swap_in` leaves in its frame
is therefore what was in the frame that `swap_out` saved last.
-/
import Pintos.Vm.SwapAccounts

set_option autoImplicit false

namespace Pintos.Vm

open Pintos.Kernel StepSystem

variable {s s' t u : Mem} {p q a i k : ℕ}

/-! ## Steps that move no page -/

/-- The other processes and the disk are as they were, and so are the entries as far as the disk
goes; the new ones are not swapped. -/
structure Leaves (p : ℕ) (s u : Mem) : Prop where
  device : u.swap_device = s.swap_device
  other : ∀ q, q ≠ p → u.procs q = s.procs q
  fresh : s.fresh ≤ u.fresh
  stored : ∀ a x', u.sptes a = some x' →
    (∃ x, s.sptes a = some x ∧ Stored x x') ∨ x'.swapped = false ∧ s.fresh ≤ a

/-- The process is not about to read a page from the disk either. -/
def Idle (p : ℕ) (s s' : Mem) : Prop := Leaves p s s' ∧ (s'.procs p).point.refills = none

namespace Leaves

theorem same (hdevice : u.swap_device = s.swap_device) (hprocs : u.procs = s.procs)
    (hfresh : u.fresh = s.fresh) (hsptes : u.sptes = s.sptes) : Leaves p s u :=
  ⟨hdevice, fun q _ => by rw [hprocs], hfresh.ge,
    fun a x' hx' => Or.inl ((Stays.of_eq hsptes).back a x' hx')⟩

theorem upd (h : Leaves p s u) (f : Proc → Proc) : Leaves p s (u.upd p f) :=
  ⟨h.device, fun q hq => (Mem.upd_of_ne f hq).trans (h.other q hq), h.fresh, h.stored⟩

theorem trans (h : Leaves p s t) (h' : Leaves p t u) : Leaves p s u := by
  refine ⟨h'.device.trans h.device, fun q hq => (h'.other q hq).trans (h.other q hq),
    h.fresh.trans h'.fresh, fun a x' hx' => ?_⟩
  rcases h'.stored a x' hx' with ⟨y, hy, hyx⟩ | ⟨hsw, hle⟩
  · rcases h.stored a y hy with ⟨x, hx, hxy⟩ | ⟨hsw, hle⟩
    · exact Or.inl ⟨x, hx, hyx.1.trans hxy.1, hyx.2.1.trans hxy.2.1, hyx.2.2.trans hxy.2.2⟩
    · exact Or.inr ⟨hyx.1.trans hsw, hle⟩
  · exact Or.inr ⟨hsw, h.fresh.trans hle⟩

theorem set {x y : Spte} (hx : s.sptes a = some x) (hst : Stored x y) :
    Leaves p s (s.setSpte a y) :=
  ⟨rfl, fun _ _ => rfl, le_rfl,
    fun b x' hx' => Or.inl ((Stays.of_set rfl hx hst).back b x' hx')⟩

theorem installed {v : ℕ} {writable room b : Bool}
    (hs : install_fault_page s p v k writable room = (b, u)) : Leaves p s u := by
  obtain ⟨procs, rfl, hother⟩ := install_fault_page_fields hs
  exact ⟨rfl, hother, le_rfl, fun a x' hx' => Or.inl ⟨x', hx', rfl, rfl, rfl⟩⟩

theorem inserted {x : Spte} (hx : x.swapped = false) : Leaves p s (insert_page s p x) := by
  obtain ⟨hfresh, hsptes, -⟩ := insert_page_facts s p x
  refine ⟨?_, fun q hq => ?_, by omega, fun b x' hx' => ?_⟩
  · unfold insert_page
    dsimp only
    cases (s.procs p).sup_page_table x.user_vaddr <;> rfl
  · unfold insert_page
    dsimp only
    cases (s.procs p).sup_page_table x.user_vaddr with
    | some b => rfl
    | none => exact Mem.upd_of_ne _ hq
  · rw [hsptes] at hx'
    by_cases hb : b = s.fresh
    · rw [hb, Function.update_self] at hx'
      rw [← Option.some.inj hx']
      exact Or.inr ⟨hx, hb.ge⟩
    · rw [Function.update_of_ne hb] at hx'
      exact Or.inl ⟨x', hx', rfl, rfl, rfl⟩

/-- Pages of a segment or of a mapping. -/
theorem inserted_all {f : ℕ → Spte} (hf : ∀ j, (f j).swapped = false) (l : List ℕ) :
    ∀ s : Mem, Leaves p s (l.foldl (fun s j => insert_page s p (f j)) s) := by
  induction l with
  | nil => exact fun s => .same rfl rfl rfl rfl
  | cons j rest ih => exact fun s => (Leaves.inserted (hf j)).trans (ih _)

theorem load_segments {file : ℕ} {junk : ℕ → Spte} (segs : List Segment) : ∀ s : Mem,
    segs.foldlM (fun s g => load_segment s p file g junk) s = .ok s' →
      Leaves p s s' ∧ (s'.procs p).point = (s.procs p).point := by
  induction segs with
  | nil =>
    intro s hs
    rw [← Except.ok.inj hs]
    exact ⟨.same rfl rfl rfl rfl, rfl⟩
  | cons g rest ih =>
    intro s hs
    rw [List.foldlM_cons] at hs
    obtain ⟨t, ht, hs⟩ := bind_eq_ok hs
    obtain ⟨_, -, ht⟩ := bind_eq_ok ht
    obtain ⟨_, -, ht⟩ := bind_eq_ok ht
    obtain ⟨hrest, hpoint⟩ := ih t hs
    obtain rfl := Except.ok.inj ht
    exact ⟨(inserted_all (fun _ => rfl) _ s).trans hrest, hpoint.trans (insert_pages_point _ _ s p)⟩

end Leaves

namespace Idle

theorem goto {pt : Point} (h : Leaves p s u) (hpt : pt.refills = none) : Idle p s (u.goto p pt) :=
  ⟨h.upd _, by rw [Mem.goto_self]; exact hpt⟩

theorem exit (h : Leaves p s u) : Idle p s (u.exit p) := ⟨h.upd _, by rw [Mem.exit_self]; rfl⟩

theorem ret (h : Leaves p s u) : Idle p s (u.ret p) :=
  ⟨h.upd _, by rw [Mem.ret_self]; exact (Proc.ret_still _ fun c _ => c.still).2⟩

theorem fault {addr : ℕ} {write near_esp : Bool} (h : Leaves p s u)
    (hs : page_fault u p addr write near_esp = .ok s') : Idle p s s' := by
  rcases page_fault_spec hs with rfl | ⟨-, ⟨b, x, -, -, -, -, rfl⟩ | ⟨-, -, rfl⟩⟩
  · exact exit h
  · exact goto h rfl
  · exact goto h rfl

theorem step_load {w : Want} {c : Choice} (hs : step_load s p w k c = .ok s') : Idle p s s' := by
  cases w with
  | entry v write b =>
    obtain ⟨x, hx, ⟨-, rfl⟩ | ⟨-, hload⟩⟩ := step_load_entry_spec hs
    · exact goto (.same rfl rfl rfl rfl) rfl
    · obtain ⟨frames, bits, _, t, hinst, rfl⟩ := load_page_steps hx hload
      have hpool : Leaves p s (s.setPool frames bits) := .same rfl rfl rfl rfl
      have hleaves := hpool.trans (.installed hinst)
      obtain ⟨procs, rfl, -⟩ := install_fault_page_fields hinst
      obtain ⟨hret, hpoint⟩ := ret (hleaves.trans (.set
        (y := { x with loaded := true, dirty := x.dirty || write }) hx ⟨rfl, rfl, rfl⟩))
      exact ⟨hret.trans (.same rfl rfl rfl rfl), hpoint⟩
  | grow v =>
    obtain rfl | ⟨t, hinst, rfl⟩ := step_load_grow_spec hs
    · exact exit (.same rfl rfl rfl rfl)
    · exact ret (((Leaves.installed hinst).trans (.inserted rfl)).trans (.same rfl rfl rfl rfl))
  | stack =>
    obtain ⟨b, ⟨t, hinst, rfl⟩ | ⟨t, hfree, rfl⟩⟩ := step_load_stack_spec hs
    · have hzero : Leaves p s (s.setFrame k b) := .same rfl rfl rfl rfl
      exact ret (hzero.trans (.installed hinst))
    · obtain ⟨-, rfl⟩ := palloc_free_page_spec hfree
      exact exit (.same rfl rfl rfl rfl)

theorem step_munmap {m : Unmap} {c : Choice} (hs : step_munmap s p m c = .ok s') :
    Idle p s s' := by
  have hpage : ∀ (u : Mem) (x : Spte), unmap_page u p m x = .ok s' → Leaves p s u →
      u.sptes m.spte = some x → Idle p s s' := by
    intro u x hs hu hx
    obtain ⟨-, rfl⟩ := unmap_page_spec hs
    have hset : Leaves p u (u.setSpte m.spte { x with mid := 0 }) := .set hx ⟨rfl, rfl, rfl⟩
    refine ⟨(hu.trans hset).upd _, ?_⟩
    rw [Mem.upd_self]
    rfl
  obtain ⟨x, hx, ⟨-, rfl⟩ | ⟨-, files, hs⟩ | ⟨-, -, hs⟩⟩ := step_munmap_spec hs
  · exact goto (.same rfl rfl rfl rfl) rfl
  · exact hpage _ x hs (.same rfl rfl rfl rfl) hx
  · have hsame : Leaves p s s := .same rfl rfl rfl rfl
    exact fault (hsame.upd _) hs

theorem step_unlist {m : Unmap} {c : Choice} (hs : step_unlist s p m c = .ok s') :
    Idle p s s' := by
  obtain ⟨x, frames, bits, -, -, rfl⟩ := step_unlist_spec hs
  refine ret (Leaves.upd ?_ _)
  refine ⟨rfl, fun _ _ => rfl, le_rfl, fun b x' hx' => ?_⟩
  change Function.update s.sptes m.spte none b = some x' at hx'
  by_cases hb : b = m.spte
  · rw [hb, Function.update_self] at hx'
    cases hx'
  · rw [Function.update_of_ne hb] at hx'
    exact Or.inl ⟨x', hx', rfl, rfl, rfl⟩

theorem thread_exit (hs : thread_exit s p = .ok s') : Idle p s s' := by
  obtain ⟨frames, bits, -, rfl⟩ := thread_exit_spec hs
  have hpool : Leaves p s (s.setPool frames bits) := .same rfl rfl rfl rfl
  exact goto (hpool.upd _) rfl

theorem step_reap (s : Mem) (p : ℕ) : Idle p s (step_reap s p) := by
  refine ⟨?_, ?_⟩
  · unfold Vm.step_reap
    dsimp only
    refine Leaves.upd ?_ _
    refine ⟨rfl, fun _ _ => rfl, le_rfl, fun b x' hx' => ?_⟩
    exact Or.inl ⟨x', (Option.filter_eq_some_iff.mp hx').1, rfl, rfl, rfl⟩
  · rw [step_reap_self]
    rfl

theorem access {v j : ℕ} {store : Option UInt8} {near_esp : Bool} (hu : (s.procs p).inUser = true)
    (hs : user_access s p v j store near_esp = .ok s') : Idle p s s' := by
  have hsame : Leaves p s s := .same rfl rfl rfl rfl
  have hstay : ∀ u : Mem, u.procs = s.procs → (u.procs p).point.refills = none := fun u hp => by
    rw [hp, inUser_point hu]
    rfl
  unfold user_access at hs
  split at hs
  · obtain rfl := Except.ok.inj hs
    exact ⟨hsame, hstay s rfl⟩
  · split at hs
    · obtain rfl := Except.ok.inj hs
      exact ⟨.same rfl rfl rfl rfl, hstay _ rfl⟩
    · exact fault hsame hs
  · exact fault hsame hs

theorem mmap {fd addr : ℕ} {junk : ℕ → Spte} (hu : (s.procs p).inUser = true) :
    Idle p s (mmap s p fd addr junk) := by
  have hrest : (s.procs p).point.refills = none := by
    rw [inUser_point hu]
    rfl
  unfold Vm.mmap
  split
  · exact ⟨.same rfl rfl rfl rfl, hrest⟩
  · dsimp only
    split
    · exact ⟨.same rfl rfl rfl rfl, hrest⟩
    · -- the descriptor first, and then an entry for each page
      refine ⟨Leaves.trans (Leaves.upd ?_ _) (Leaves.inserted_all ?_ _ _), ?_⟩
      · exact .same rfl rfl rfl rfl
      · exact fun _ => rfl
      · rw [insert_pages_point, Mem.upd_self]
        exact hrest

end Idle

/-! ## A page that is out -/

/-- The page of the entry is on the disk from sector `i` on, or is being read from there. -/
def OnDisk (s : Mem) (a i : ℕ) : Prop := ∃ x, Holds s a x ∧ x.disk_sector_idx = i

/-- A page that is out after a step that does not save it was out before. -/
theorem OnDisk.back (h : SlotInv s) (hE : EntryInv s)
    (hother : ∀ q, q ≠ p → s'.procs q = s.procs q) (hsave : (s.procs p).point.saves ≠ some a)
    (hrefill : (s'.procs p).point.refills ≠ some a)
    (hst : ∀ x', s'.sptes a = some x' →
      (∃ x, s.sptes a = some x ∧ Stored x x') ∨ x'.swapped = false ∧ s.fresh ≤ a)
    (hd : OnDisk s' a i) : OnDisk s a i := by
  obtain ⟨x', ⟨hx', hk, hcase⟩, rfl⟩ := hd
  have hback : Refilling s' a → Refilling s a := by
    rintro ⟨q, hq⟩
    refine ⟨q, ?_⟩
    rwa [← hother q]
    rintro rfl
    exact hrefill hq
  have hforth : Saving s a → Saving s' a := by
    rintro ⟨q, hq⟩
    refine ⟨q, ?_⟩
    rwa [hother q]
    rintro rfl
    exact hsave hq
  rcases hst x' hx' with ⟨x, hx, hsw, hidx, hfixed⟩ | ⟨hsw, hnew⟩
  · refine ⟨x, ⟨hx, (Spte.fixed_kind hfixed).symm.trans hk, ?_⟩, hidx.symm⟩
    -- what is marked was marked, and who reads it now was reading it
    exact hcase.imp (fun hc => ⟨hsw.symm.trans hc.1, fun hs => hc.2 (hforth hs)⟩) hback
  · rcases hcase with ⟨hc, -⟩ | hr
    · rw [hsw] at hc
      cases hc
    · obtain ⟨q, hq⟩ := hback hr
      obtain ⟨y, -, -, hl⟩ := h.refilled q a hq
      exact absurd (hE.block q _ a hl).1 (not_lt.mpr hnew)

/-- The page is out at the same place, and its sectors are as they were. -/
def Rests (s s' : Mem) (a i : ℕ) : Prop :=
  OnDisk s a i ∧ ∀ n, i ≤ n ∧ n < i + 8 → s'.swap_device n = s.swap_device n

section Transfers

variable (h : SlotInv s) (hE : EntryInv s) (hd : OnDisk s' a i)

include h hE hd

theorem Idle.back (hi : Idle p s s') (hnot : (s.procs p).point.saves ≠ some a) :
    Rests s s' a i :=
  ⟨hd.back h hE hi.1.other hnot (by rw [hi.2]; exact nofun) (hi.1.stored a),
    fun n _ => by rw [hi.1.device]⟩

/-- Another entry is marked. -/
theorem marked_back {b : ℕ} {y : Spte} (hab : a ≠ b)
    (hother : ∀ q, q ≠ p → s'.procs q = s.procs q) (hnot : (s.procs p).point.saves ≠ some a)
    (hrefill : (s'.procs p).point.refills ≠ some a)
    (hs : s'.sptes = Function.update s.sptes b (some y)) : OnDisk s a i := by
  refine hd.back h hE hother hnot hrefill fun x' hx' => Or.inl ⟨x', ?_, rfl, rfl, rfl⟩
  rwa [hs, Function.update_of_ne hab] at hx'

theorem step_evict_back {w : Want} (hs : step_evict s p w = .ok s')
    (hnot : (s.procs p).point.saves ≠ some a) : Rests s s' a i := by
  rcases step_evict_spec hs with ⟨rfl, -⟩ | ⟨hlock, e, rest, b, x, -, hb, -, -, rfl⟩
  · exact ⟨hd, fun _ _ => rfl⟩
  by_cases hab : a = b
  · -- the victim is marked and not saved, and with the lock free no page is being read
    subst hab
    obtain ⟨y, ⟨-, -, ⟨-, hns⟩ | ⟨q, hq⟩⟩, -⟩ := hd
    · refine absurd ⟨p, ?_⟩ hns
      rw [Mem.upd_self]
      exact hb
    · by_cases hqp : q = p
      · rw [hqp, Mem.upd_self] at hq
        cases hq
      · rw [Mem.upd_of_ne _ hqp] at hq
        have hstill := still_of_locks (h.not_locks (q := q) (by rw [hlock]; exact nofun))
        cases hstill.2.symm.trans hq
  · refine ⟨marked_back h hE hd hab (fun q hq => ?_) hnot ?_ rfl, fun _ _ => rfl⟩
    · exact Mem.upd_of_ne _ hq
    · rw [Mem.upd_self]
      exact nofun

theorem step_swapin_back {v b j : ℕ} {write : Bool} (hs : step_swapin s p v write b j = .ok s')
    (hnot : (s.procs p).point.saves ≠ some a) : Rests s s' a i := by
  rcases step_swapin_spec hs with ⟨rfl, -⟩ | ⟨hlock, b', x, -, hx, ⟨hsw, rfl⟩ | ⟨-, rfl⟩⟩
  · exact ⟨hd, fun _ _ => rfl⟩
  · refine ⟨?_, fun _ _ => rfl⟩
    by_cases hab : a = b'
    · -- the page was out
      subst hab
      obtain ⟨y, ⟨hy, hk, -⟩, rfl⟩ := hd
      change Function.update s.sptes a _ a = some y at hy
      rw [Function.update_self] at hy
      rw [← Option.some.inj hy] at hk ⊢
      refine ⟨x, ⟨hx, hk, Or.inl ⟨hsw, fun ⟨q, hq⟩ => ?_⟩⟩, rfl⟩
      have hstill := still_of_locks (h.not_locks (q := q) (by rw [hlock]; exact nofun))
      cases hstill.1.symm.trans hq
    · refine marked_back h hE hd hab (fun q hq => ?_) hnot ?_ rfl
      · exact Mem.goto_of_ne _ hq
      · rw [Mem.goto_self]
        exact fun hc => hab (Option.some.inj hc).symm
  · have hsame : Leaves p s { s with swap_lock := some p } := .same rfl rfl rfl rfl
    exact Idle.back h hE hd (.goto hsame rfl) hnot

theorem step_save_back {w : Want} {e : Fte} (hpt : (s.procs p).point = .save w e)
    (hs : step_save s p w e = .ok s') (hnot : (s.procs p).point.saves ≠ some a) :
    Rests s s' a i := by
  obtain ⟨b, y, hb, -, ⟨-, -, ⟨rfl, -⟩ | ⟨-, rfl⟩⟩ | ⟨-, rfl⟩ | ⟨-, j, hscan, rfl⟩⟩ :=
    step_save_spec hs
  · exact ⟨hd, fun _ _ => rfl⟩
  · have hsame : Leaves p s { s with filesys_lock := some p } := .same rfl rfl rfl rfl
    exact Idle.back h hE hd (.goto hsame rfl) hnot
  · exact Idle.back h hE hd (.goto (.same rfl rfl rfl rfl) rfl) hnot
  · have hab : a ≠ b := by
      rintro rfl
      rw [hpt] at hnot
      exact hnot hb
    have hout : OnDisk s a i := by
      refine marked_back h hE hd hab (fun q hq => ?_) hnot ?_ rfl
      · exact Mem.goto_of_ne _ hq
      · rw [Mem.goto_self]
        exact nofun
    refine ⟨hout, fun n hn => if_neg fun hin => ?_⟩
    -- the slot that has been found was free
    obtain ⟨x, hx, rfl⟩ := hout
    have hmarked : s.swap_table.bits n = true := (h.slots.bits n).mpr ⟨a, x, hx, hn⟩
    have hfree := (bitmap_scan_some hscan).2.2 (n - j) (by omega)
    rw [Nat.add_sub_cancel' hin.1, hmarked] at hfree
    cases hfree

/-- **A kernel step that does not save the page** leaves it where it is on the disk. -/
theorem run_back {c : Choice} (hs : run s p c = .ok s')
    (hnot : (s.procs p).point.saves ≠ some a) : Rests s s' a i := by
  have hsame : Leaves p s s := .same rfl rfl rfl rfl
  have hidle : Idle p s s' → Rests s s' a i := fun hi => hi.back h hE hd hnot
  unfold run at hs
  cases hpt : (s.procs p).point <;> rw [hpt] at hs
  -- the steps that touch the disk, or mark an entry
  case evict w => exact step_evict_back h hE hd hs hnot
  case save w e => exact step_save_back h hE hd hpt hs hnot
  case swapin v write b j => exact step_swapin_back h hE hd hs hnot
  case get w =>
    rcases step_get_spec hs with rfl | ⟨j, -, rfl⟩
    · exact hidle (.goto hsame rfl)
    · exact hidle (.goto (.same rfl rfl rfl rfl) rfl)
  case writeback w e =>
    obtain ⟨b, x, -, -, ⟨f, rfl⟩ | ⟨-, hfault⟩⟩ := step_writeback_spec hs
    · exact hidle (.goto (.same rfl rfl rfl rfl) rfl)
    · exact hidle (.fault (hsame.upd _) hfault)
  case free w j =>
    obtain ⟨-, rfl⟩ := step_free_spec hs
    exact hidle (.goto (.same rfl rfl rfl rfl) rfl)
  case load w j => exact hidle (.step_load hs)
  case refill v write b j b' =>
    obtain ⟨x, -, ⟨-, rfl⟩ | ⟨-, rfl⟩⟩ := step_refill_spec hs
    · exact hidle (.goto (.same rfl rfl rfl rfl) rfl)
    · exact hidle (.goto (.same rfl rfl rfl rfl) rfl)
  case install v write b j =>
    obtain ⟨x, _, t, hx, hinst, rfl⟩ := step_install_spec hs
    have hleaves : Leaves p s t := .installed hinst
    obtain ⟨procs, rfl, -⟩ := install_fault_page_fields hinst
    exact hidle (.ret (hleaves.trans (.set hx ⟨rfl, rfl, rfl⟩)))
  case unmapping mapping =>
    rcases step_unmapping_spec hs with ⟨rfl, -⟩ | ⟨d, b, -, -, rfl | ⟨-, x, -, rfl⟩⟩
    · exact hidle (.ret hsame)
    · exact ⟨hd, fun _ _ => rfl⟩
    · exact hidle (.goto (.same rfl rfl rfl rfl) rfl)
  case munmap m => exact hidle (.step_munmap hs)
  case unlist m => exact hidle (.step_unlist hs)
  case exit =>
    rcases step_exit_spec hs with ⟨mapping, rfl⟩ | hexit
    · refine hidle ⟨hsame.upd _, ?_⟩
      rw [Mem.upd_self]
      rfl
    · exact hidle (.thread_exit hexit)
  case reap => exact hidle (Except.ok.inj hs ▸ .step_reap s p)
  all_goals
    obtain rfl := Except.ok.inj hs
    exact ⟨hd, fun _ _ => rfl⟩

/-- **An event that does not save the page** leaves it where it is on the disk. -/
theorem exec_back {ev : Event} (hs : exec s ev = .ok s')
    (hnot : ∀ p c, ev = .run p c → (s.procs p).point.saves ≠ some a) : Rests s s' a i := by
  have hskip : ∀ {p} {b : Bool} {r : Res Mem}, (b = true → (s.procs p).point.saves = none) →
      (b = true → r = .ok s' → Idle p s s') → (if b then r else .ok s) = .ok s' →
      Rests s s' a i := by
    intro p b r hpt hi hs
    cases b with
    | false =>
      obtain rfl := Except.ok.inj hs
      exact ⟨hd, fun _ _ => rfl⟩
    | true => exact (hi rfl hs).back h hE hd (by rw [hpt rfl]; exact nofun)
  have huser : ∀ p, (s.procs p).inUser = true → (s.procs p).point.saves = none := fun p hu => by
    rw [inUser_point hu]
    rfl
  cases ev with
  | run p c => exact run_back h hE hd hs (hnot p c rfl)
  | load p file segs junk =>
    refine hskip (fun hu => by rw [isUnused_point hu]; rfl) (fun _ hs => ?_) hs
    obtain ⟨hleaves, hpt⟩ := Leaves.load_segments segs _ hs
    refine ⟨Leaves.trans (Leaves.upd ?_ _) hleaves, ?_⟩
    · exact .same rfl rfl rfl rfl
    · rw [hpt, Mem.upd_self]
      rfl
  | access p v j store near_esp =>
    refine hskip (fun hu => huser p (Bool.and_eq_true_iff.mp hu).1) (fun hu hs => ?_) hs
    exact .access (Bool.and_eq_true_iff.mp hu).1 hs
  | mmap p fd addr junk =>
    refine hskip (huser p) (fun hu hs => ?_) hs
    obtain rfl := Except.ok.inj hs
    exact .mmap hu
  | open_file p file =>
    refine hskip (huser p) (fun hu hs => ?_) hs
    obtain rfl := Except.ok.inj hs
    unfold open_file
    dsimp only
    refine ⟨Leaves.upd ?_ _, ?_⟩
    · exact .same rfl rfl rfl rfl
    · rw [Mem.upd_self]
      dsimp only
      rw [inUser_point hu]
      rfl
  | munmap p mapping =>
    refine hskip (huser p) (fun _ hs => ?_) hs
    obtain rfl := Except.ok.inj hs
    exact .goto (.same rfl rfl rfl rfl) rfl
  | exit p =>
    refine hskip (huser p) (fun _ hs => ?_) hs
    obtain rfl := Except.ok.inj hs
    exact .exit (.same rfl rfl rfl rfl)
  | kill p => exact hskip (huser p) (fun _ hs => .thread_exit hs) hs

end Transfers

/-! ## From the one transfer to the other -/

/-- The condition of the account, and `swap_out` does not save the page of the entry again. -/
def Spares (a : ℕ) (s : Mem) (ev : Event) : Prop :=
  Accounting s ev ∧ ∀ p c, ev = .run p c → (s.procs p).point.saves ≠ some a

/-- The run from a state on. -/
def from_state (s : Mem) : System Mem Event := { paging with init := fun t => t = s }

/-- **A page that is out at the end** has been where it is since the start. -/
theorem rests_run (hr : Reachable paging Accounting s)
    (hrun : Reachable (from_state s) (Spares a) t) :
    Reachable paging Accounting t ∧ (OnDisk t a i → Rests s t a i) := by
  induction hrun with
  | init h =>
    obtain rfl := h
    exact ⟨hr, fun hd => ⟨hd, fun _ _ => rfl⟩⟩
  | step _ hok hs ih =>
    obtain ⟨hr', hrests⟩ := ih
    refine ⟨hr'.step hok.1 hs, fun hd => ?_⟩
    obtain ⟨hE, -, hslots⟩ := reachable_slots hr'
    obtain ⟨hd', hsame⟩ := exec_back hslots hE hd hs hok.2
    obtain ⟨hd₀, hsame₀⟩ := hrests hd'
    exact ⟨hd₀, fun n hn => (hsame n hn).trans (hsame₀ n hn)⟩

/-- What `write_to_disk` puts in the sectors. -/
theorem write_sectors_page (device : ℕ → Sector) (b : Page) {j : ℕ} (hj : j < PGSIZE) :
    write_sectors device i b (i + j / 512) (j % 512) = b j := by
  unfold PGSIZE at hj
  unfold write_sectors
  rw [if_pos (by omega), Nat.add_sub_cancel_left, Nat.div_add_mod]

/-- What `swap_out` leaves on the disk. -/
theorem saved_page {w : Want} {e : Fte} (ha : e.spte = some a) (hs : step_save s p w e = .ok s')
    (hd : OnDisk s' a i) {j : ℕ} (hj : j < PGSIZE) :
    s'.swap_device (i + j / 512) (j % 512) = s.frames e.frame j := by
  obtain ⟨y, ⟨hy, hk, -⟩, rfl⟩ := hd
  obtain ⟨b, x, hb, hx, hcase⟩ := step_save_spec hs
  obtain rfl := Option.some.inj (hb.symm.trans ha)
  have hkind : s'.sptes = s.sptes → x.kind = .slot := fun hsame => by
    rw [hsame, hx] at hy
    rw [Option.some.inj hy]
    exact hk
  rcases hcase with ⟨hno, -, ⟨rfl, -⟩ | ⟨-, rfl⟩⟩ | ⟨hno, rfl⟩ | ⟨-, i, -, rfl⟩
  · cases hno.symm.trans (hkind rfl)
  · cases hno.symm.trans (hkind rfl)
  · rw [hkind rfl] at hno
    rcases hno with ⟨hno, -⟩ | hno <;> cases hno
  · change Function.update s.sptes b _ b = some y at hy
    rw [Function.update_self] at hy
    rw [← Option.some.inj hy]
    exact write_sectors_page s.swap_device (s.frames e.frame) hj

/-- **A page comes back from the swap disk** with the bytes it had when `swap_out` saved it last,
whatever all processes do in between. -/
theorem swapped_page_returns {u' : Mem} {x : Spte} {e : Fte} {w : Want} {v b : ℕ} {write : Bool}
    {c c' : Choice} (hr : Reachable paging Accounting s)
    (hsave : (s.procs p).point = .save w e) (ha : e.spte = some a)
    (hout : exec s (.run p c) = .ok s') (hrun : Reachable (from_state s') (Spares a) u)
    (hrefill : (u.procs q).point = .refill v write b k a) (hx : u.sptes a = some x)
    (hk : x.kind = .slot) (hin : exec u (.run q c') = .ok u') :
    ∀ j < PGSIZE, u'.frames k j = s.frames e.frame j := by
  have hok : Accounting s (.run p c) := by
    refine ⟨?_, fun r d hev hpt => ?_⟩
    · unfold Linking
      dsimp only
      rw [hsave]
      trivial
    · obtain ⟨rfl, -⟩ := Event.run.inj hev
      rw [hsave] at hpt
      cases hpt
  have hread : OnDisk u a x.disk_sector_idx := by
    refine ⟨x, ⟨hx, hk, Or.inr ⟨q, ?_⟩⟩, rfl⟩
    rw [hrefill]
    rfl
  -- from the second transfer back to the first
  obtain ⟨hd, hsame⟩ := (rests_run (hr.step hok hout) hrun).2 hread
  intro j hj
  have hsaved : s'.swap_device (x.disk_sector_idx + j / 512) (j % 512) = s.frames e.frame j := by
    change run s p c = .ok s' at hout
    unfold run at hout
    rw [hsave] at hout
    exact saved_page ha hout hd hj
  change run u q c' = .ok u' at hin
  unfold run at hin
  rw [hrefill] at hin
  obtain ⟨y, hy, ⟨hno, -⟩ | ⟨-, rfl⟩⟩ := step_refill_spec hin
  · rw [Option.some.inj (hy.symm.trans hx)] at hno
    exact absurd hk hno
  · rw [Option.some.inj (hy.symm.trans hx), ← hsaved,
      ← hsame (x.disk_sector_idx + j / 512) (by unfold PGSIZE at hj; omega)]
    change Function.update u.frames k _ k j = _
    rw [Function.update_self]
    exact if_pos hj

/-- The run up to the second transfer, which is of the first entry. -/
def reads_back (s : Mem) : Bool :=
  match (s.procs 0).point with
  | .save _ e => e.spte == some 0 && s.frames e.frame 0 == 1 &&
      match exec s (.run 0 plain) with
      | .ok s' => follow exec (fun s ev => accounting s ev && match ev with
          | .run p _ => (s.procs p).point.saves != some 0
          | _ => true)
        (fun u => match (u.procs 0).point, u.sptes 0 with
          | .refill _ _ _ _ a, some x => a == 0 && decide (x.kind = .slot) &&
              (exec u (.run 0 plain)).isOk
          | _, _ => false) s' (List.replicate 3 (.run 0 plain) ++ touch_run 0 8 7)
      | .error _ => false
  | _ => false

/-- Process 0 writes 1 to page 8. The page is evicted and read back into the frame. -/
theorem swapped_page_returns_one : ∃ (u u' : Mem) (k : ℕ),
    exec u (.run 0 plain) = .ok u' ∧ u'.frames k 0 = 1 := by
  have hrun : follow exec accounting reads_back (small_boot 2) (load_run 0 2 ++ touch_run 0 8 2 ++
      [.access 0 8 0 (some 1) false] ++ touch_run 0 9 2) = true := by
    decide +kernel
  have hstart : Reachable paging (fun s e => accounting s e = true) (small_boot 2) :=
    .init (small_boot_boot 2)
  obtain ⟨s, hr, hs⟩ := follow_reachable (fun _ _ _ h => h) hstart hrun
  have hr' : Reachable paging Accounting s := hr.weaken accounting_of
  unfold reads_back at hs
  split at hs
  · rename_i w e hsave
    simp only [Bool.and_eq_true, beq_iff_eq] at hs
    obtain ⟨⟨ha, hone⟩, hs⟩ := hs
    split at hs
    · rename_i s' hout
      obtain ⟨u, hu, hs⟩ := follow_reachable (S := from_state s') (fun _ _ _ h => h) (.init rfl) hs
      have hspares : Reachable (from_state s') (Spares 0) u := hu.weaken fun t ev h => by
        rw [Bool.and_eq_true] at h
        refine ⟨accounting_of t ev h.1, ?_⟩
        rintro p c rfl
        exact bne_iff_ne.mp h.2
      split at hs
      · rename_i v write b k a x hrefill hx
        simp only [Bool.and_eq_true, beq_iff_eq, decide_eq_true_eq] at hs
        obtain ⟨⟨rfl, hk⟩, hin⟩ := hs
        cases hin' : exec u (.run 0 plain) with
        | error f =>
          rw [hin'] at hin
          cases hin
        | ok u' =>
          have hpage := swapped_page_returns hr' hsave ha hout hspares hrefill hx hk hin' 0
            (Nat.zero_lt_succ _)
          exact ⟨u, u', k, hin', hpage.trans hone⟩
      · cases hs
    · cases hs
  · cases hs

end Pintos.Vm
