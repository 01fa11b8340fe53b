/-
The swap table over whole runs.

`SlotInv` is kept by every step of the paging code: the steps of `swap_out` and `swap_in` that
mark and move a page are in `SwapSlots`, and the others leave the entries that have a slot alone.
The one step that does not is the last of `thread_exit`, which frees the entries of its process:
a page that is on the swap disk then leaves its eight sectors marked. `Accounting` is the
condition that this does not happen, and a process that exits with a page on the swap disk is the
counterexample.
-/
import Pintos.Vm.SwapSlots

set_option autoImplicit false

namespace Pintos.Vm

open Pintos.Kernel StepSystem

variable {s s' t : Mem} {p q v k a : ℕ}

/-- A process that is there has no point of one that is gone. -/
theorem Point.present_of_live {pt : Point} (h : pt.live = true) :
    ¬ (pt = .unused ∨ pt = .dead) := by
  rintro (rfl | rfl) <;> cases h

namespace SlotInv

/-! ## Steps that leave slots alone -/

theorem step_get {w : Want} (h : SlotInv s) (hE : EntryInv s) (hL : LinkInv false s)
    (hpt : (s.procs p).point = .get w) (hs : step_get s p w = .ok s') : SlotInv s' := by
  rcases step_get_spec hs with rfl | ⟨i, -, rfl⟩
  · exact h.goto hE hL hpt ⟨rfl, rfl⟩ ⟨rfl, rfl⟩ (fun hc => (by cases hc)) rfl (Quiet.refl p s)
      (Stays.of_eq rfl) rfl rfl rfl
  · exact h.goto hE hL hpt ⟨rfl, rfl⟩ ⟨rfl, rfl⟩ (fun hc => (by cases hc)) rfl
      (Quiet.of_eq rfl rfl rfl rfl) (Stays.of_eq rfl) rfl rfl rfl

/-- A fault in the write-back leaves the lock with the process. -/
theorem step_writeback {w : Want} {e : Fte} {c : Choice} (h : SlotInv s) (hE : EntryInv s)
    (hL : LinkInv false s) (hpt : (s.procs p).point = .writeback w e)
    (hs : step_writeback s p w e c = .ok s') : SlotInv s' := by
  obtain ⟨b, x, -, -, ⟨f, rfl⟩ | ⟨-, hfault⟩⟩ := step_writeback_spec hs
  · exact h.goto hE hL hpt ⟨rfl, rfl⟩ ⟨rfl, rfl⟩ (fun _ => rfl) rfl (Quiet.of_eq rfl rfl rfl rfl)
      (Stays.of_eq rfl) rfl rfl rfl
  · refine h.fault hE hL (by rw [hpt]; exact ⟨rfl, rfl⟩) ?_ hfault
    change (Point.writeback w e :: (s.procs p).callers.map Caller.point).countP Point.locks ≤
      ((s.procs p).point :: (s.procs p).callers.map Caller.point).countP Point.locks
    rw [hpt]

/-- The end of `swap_out` gives the lock back. -/
theorem step_free {w : Want} (h : SlotInv s) (hE : EntryInv s) (hL : LinkInv false s)
    (hpt : (s.procs p).point = .free w k) (hs : step_free s p w k = .ok s') : SlotInv s' := by
  obtain ⟨hlock, hrest⟩ := h.top_locks (p := p) (by rw [hpt]; rfl)
  obtain ⟨-, rfl⟩ := step_free_spec hs
  have hgo : SlotInv ((s.setPool (Function.update s.frames k (fun _ => 0xcc))
      (Function.update s.used_map.bits k false)).goto p (.get w)) :=
    h.goto hE hL hpt ⟨rfl, rfl⟩ ⟨rfl, rfl⟩ (fun hc => (by cases hc)) rfl
      (Quiet.of_eq rfl rfl rfl rfl) (Stays.of_eq rfl) rfl rfl rfl
  refine hgo.unlock (p := p) hlock ?_
  rw [Proc.locks_cons, Mem.goto_self]
  exact hrest

/-- A page is mapped, listed and marked loaded. -/
theorem load_page {c : Choice} {write : Bool} {x : Spte} (h : SlotInv s) (hE : EntryInv s)
    (hL : LinkInv false s) (hpt : (s.procs p).point = .load (.entry v write a) k)
    (hx : s.sptes a = some x) (hs : load_page s p v write a k x c.room = .ok s') :
    SlotInv s' := by
  obtain ⟨frames, bits, b, t, hinst, rfl⟩ := load_page_steps hx hs
  obtain ⟨hq, hc⟩ := EntryInv.quiet_install (p := p)
    (Quiet.of_eq rfl rfl rfl rfl : Quiet p s (s.setPool frames bits)) hinst
  obtain ⟨procs, rfl, -⟩ := install_fault_page_fields hinst
  have hset : Quiet p s (({ s.setPool frames bits with procs := procs } : Mem).setSpte a
      { x with loaded := true, dirty := x.dirty || write }) := hq.trans (Quiet.set hx rfl)
  have hret := h.ret hE hL hpt ⟨rfl, rfl⟩ hset (Stays.of_set rfl hx ⟨rfl, rfl, rfl⟩) hc rfl rfl
  exact ⟨⟨hret.slots.bits, hret.slots.apart⟩, hret.locked, hret.single, hret.found, hret.saved,
    hret.refilled, hret.gone⟩

theorem step_install {write : Bool} {c : Choice} (h : SlotInv s) (hE : EntryInv s)
    (hL : LinkInv false s) (hpt : (s.procs p).point = .install v write a k)
    (hs : step_install s p v write a k c = .ok s') : SlotInv s' := by
  obtain ⟨x, b, t, hx, hinst, rfl⟩ := step_install_spec hs
  obtain ⟨hq, hc⟩ := EntryInv.quiet_install (Quiet.refl p s) hinst
  obtain ⟨procs, rfl, -⟩ := install_fault_page_fields hinst
  have hset : Quiet p s (({ s with procs := procs } : Mem).setSpte a
      { x with loaded := true, dirty := x.dirty || write }) := hq.trans (Quiet.set hx rfl)
  exact h.ret hE hL hpt ⟨rfl, rfl⟩ hset (Stays.of_set rfl hx ⟨rfl, rfl, rfl⟩) hc rfl rfl

/-! ## New entries -/

/-- An entry that has a slot, or had one until it was read, was made. -/
theorem held_lt {x : Spte} (h : SlotInv s) (hE : EntryInv s) (hx : s.sptes a = some x)
    (hheld : x.swapped = true ∨ Refilling s a) : a < s.fresh := by
  rcases hheld with hsw | ⟨q, hq⟩
  · obtain ⟨q, hl⟩ := h.found a x hx hsw
    exact (hE.block q _ a hl).1
  · obtain ⟨y, -, -, hl⟩ := h.refilled q a hq
    exact (hE.block q _ a hl).1

/-- A step that makes entries, whose pages are not swapped, and moves no page. -/
theorem grows (h : SlotInv s) (hE : EntryInv s) (hL : LinkInv false s)
    (hother : ∀ q, q ≠ p → s'.procs q = s.procs q)
    (hold : ∀ b < s.fresh, s'.sptes b = s.sptes b)
    (hnew : ∀ b y, s.fresh ≤ b → s'.sptes b = some y →
      y.swapped = false ∨ s.sptes b = some y)
    (hmono : ∀ v a, page_lookup s p v = some a → page_lookup s' p v = some a)
    (hpts : (s'.procs p).points = (s.procs p).points) (hstill : (s.procs p).point.still)
    (hlive : (s.procs p).point.live = true) (htable : s'.swap_table = s.swap_table)
    (hlock : s'.swap_lock = s.swap_lock) : SlotInv s' := by
  have hpt : (s'.procs p).point = (s.procs p).point := (List.cons.inj hpts).1
  refine h.calm hE hL hother hstill (by rw [hpt]; exact hstill) htable hlock ?_
    (fun b y hy => ?_) (fun b y hy hheld => ?_) (fun b _ _ v hl => hmono v b hl) fun hc => ?_
  · unfold Proc.locks
    rw [hpts]
  · by_cases hb : b < s.fresh
    · rw [hold b hb] at hy
      exact Or.inl ⟨y, hy, rfl, rfl, rfl⟩
    · rcases hnew b y (by omega) hy with hsw | hold'
      · exact Or.inr ⟨hsw, by omega⟩
      · exact Or.inl ⟨y, hold', rfl, rfl, rfl⟩
  · have hb := h.held_lt hE hy (hheld.imp_left And.right)
    exact ⟨y, by rw [hold b hb]; exact hy, rfl, rfl, rfl⟩
  · rw [hpt] at hc
    exact absurd hc (Point.present_of_live hlive)

theorem insert_page {x : Spte} (h : SlotInv s) (hE : EntryInv s) (hL : LinkInv false s)
    (hx : x.swapped = false) (hstill : (s.procs p).point.still)
    (hlive : (s.procs p).point.live = true) : SlotInv (insert_page s p x) := by
  obtain ⟨-, hsptes, -, hsame, hl⟩ := insert_page_facts s p x
  refine @grows s _ p h hE hL (fun q hq => ?_) (fun b hb => ?_) (fun b y hle hy => ?_)
    (fun v b hb => ?_) (hsame p).2 hstill hlive ?_ ?_
  · unfold Vm.insert_page
    dsimp only
    cases (s.procs p).sup_page_table x.user_vaddr with
    | some a => rfl
    | none => exact Mem.upd_of_ne _ hq
  · rw [hsptes, Function.update_of_ne hb.ne]
  · rw [hsptes] at hy
    by_cases hb : b = s.fresh
    · rw [hb, Function.update_self] at hy
      rw [← Option.some.inj hy]
      exact Or.inl hx
    · rw [Function.update_of_ne hb] at hy
      exact Or.inr hy
  · rw [hl, if_neg]
    · exact hb
    · rintro ⟨-, -, hnone⟩
      rw [hb] at hnone
      cases hnone
  · unfold Vm.insert_page
    dsimp only
    cases (s.procs p).sup_page_table x.user_vaddr <;> rfl
  · unfold Vm.insert_page
    dsimp only
    cases (s.procs p).sup_page_table x.user_vaddr <;> rfl

/-- What comes after the loop around `swap_out`. -/
theorem step_load {w : Want} {c : Choice} (h : SlotInv s) (hE : EntryInv s)
    (hL : LinkInv false s) (hpt : (s.procs p).point = .load w k)
    (hs : step_load s p w k c = .ok s') : SlotInv s' := by
  cases w with
  | entry v write a =>
    obtain ⟨x, hx, ⟨-, rfl⟩ | ⟨-, hload⟩⟩ := step_load_entry_spec hs
    · exact h.goto hE hL hpt ⟨rfl, rfl⟩ ⟨rfl, rfl⟩ (fun hc => (by cases hc)) rfl (Quiet.refl p s)
        (Stays.of_eq rfl) rfl rfl rfl
    · exact h.load_page hE hL hpt hx hload
  | grow v =>
    rcases step_load_grow_spec hs with rfl | ⟨t, hinst, rfl⟩
    · exact h.exit hE hL hpt ⟨rfl, rfl⟩ (Quiet.refl p s) (Stays.of_eq rfl) rfl rfl
    · obtain ⟨hq, hc⟩ := EntryInv.quiet_install (Quiet.refl p s) hinst
      have hdir := install_dir hinst
      obtain ⟨procs, rfl, -⟩ := install_fault_page_fields hinst
      have hret := h.ret hE hL hpt ⟨rfl, rfl⟩ hq (Stays.of_eq rfl) hc rfl rfl
      have hEret := hE.ret hq hc
      have hLret := hL.install_ret hE hpt rfl rfl (List.mem_singleton.mpr rfl) hq hc rfl
        (fun b y hy hsw => ⟨y, hy, hsw⟩) (hdir.imp id fun ⟨hn, hd⟩ => ⟨hn, _, hd, nofun⟩) nofun
      -- the return and the new entry change places
      have hins := hret.insert_page (p := p) (x := { c.junk with
        user_vaddr := v
        swapped := false
        dirty := false
        load_executable := false
        mmapped := false }) hEret hLret rfl ?_ ?_
      · rw [insert_page_ret] at hins
        exact ⟨⟨hins.slots.bits, hins.slots.apart⟩, hins.locked, hins.single, hins.found,
          hins.saved, hins.refilled, hins.gone⟩
      · rw [Mem.ret_self]
        exact Proc.ret_still _ fun c _ => c.still
      · rw [Mem.ret_self]
        exact Proc.ret_live _
  | stack =>
    obtain ⟨b, ⟨t, hinst, rfl⟩ | ⟨t, hfree, rfl⟩⟩ := step_load_stack_spec hs
    · obtain ⟨hq, hc⟩ := EntryInv.quiet_install (p := p)
        (Quiet.of_eq rfl rfl rfl rfl : Quiet p s (s.setFrame k b)) hinst
      obtain ⟨procs, rfl, -⟩ := install_fault_page_fields hinst
      exact h.ret hE hL hpt ⟨rfl, rfl⟩ hq (Stays.of_eq rfl) hc rfl rfl
    · obtain ⟨-, rfl⟩ := palloc_free_page_spec hfree
      exact h.exit hE hL hpt ⟨rfl, rfl⟩ (Quiet.of_eq rfl rfl rfl rfl) (Stays.of_eq rfl) rfl rfl

/-! ## `munmap` and `exit` -/

theorem step_unmapping {mapping : ℕ} (h : SlotInv s) (hE : EntryInv s) (hL : LinkInv false s)
    (hpt : (s.procs p).point = .unmapping mapping) (hs : step_unmapping s p mapping = .ok s') :
    SlotInv s' := by
  rcases step_unmapping_spec hs with ⟨rfl, -⟩ | ⟨d, b, -, -, rfl | ⟨-, x, -, rfl⟩⟩
  · exact h.ret hE hL hpt ⟨rfl, rfl⟩ (Quiet.refl p s) (Stays.of_eq rfl) rfl rfl rfl
  · exact h
  · exact h.goto hE hL hpt ⟨rfl, rfl⟩ ⟨rfl, rfl⟩ (fun hc => (by cases hc)) rfl
      (Quiet.of_eq rfl rfl rfl rfl) (Stays.of_eq rfl) rfl rfl rfl

/-- A turn of the loop resets the mapping id of the first entry. -/
theorem unmap_page {s₁ : Mem} {m : Unmap} {x : Spte} (h : SlotInv s) (hE : EntryInv s)
    (hL : LinkInv false s) (hpt : (s.procs p).point = .munmap m) (hx : s.sptes m.spte = some x)
    (hs : unmap_page s₁ p m x = .ok s') (hq : Quiet p s s₁) (hprocs : s₁.procs = s.procs)
    (hsptes : s₁.sptes = s.sptes) (htable : s₁.swap_table = s.swap_table)
    (hlock : s₁.swap_lock = s.swap_lock) : SlotInv s' := by
  obtain ⟨-, rfl⟩ := unmap_page_spec hs
  have hmid : Quiet p s₁ (s₁.setSpte m.spte { x with mid := 0 }) :=
    Quiet.set (x := x) (by rw [hsptes]; exact hx) rfl
  have hset : Quiet p s (s₁.setSpte m.spte { x with mid := 0 }) := hq.trans hmid
  set u : Mem := (s₁.setSpte m.spte { x with mid := 0 }).upd p (fun t => { t with
    pagedir := Function.update t.pagedir m.vaddr none
    point := .munmap m.next }) with hu
  have hself : u.procs p = { s.procs p with
      pagedir := Function.update (s.procs p).pagedir m.vaddr none
      point := .munmap m.next } := by
    rw [← hprocs]
    exact Mem.upd_self _ _ _
  have hstays : Stays s u := by
    refine Stays.of_set (x := x) (y := { x with mid := 0 }) (a := m.spte) ?_ hx ⟨rfl, rfl, rfl⟩
    rw [← hsptes]
    rfl
  refine h.quiet hE hL (hset.upd rfl rfl) hstays ?_ ?_ htable hlock ?_ fun hc => ?_
  · rw [hpt]
    exact ⟨rfl, rfl⟩
  · rw [hself]
    exact ⟨rfl, rfl⟩
  · rw [hself]
    exact @Proc.locks_goto (s.procs p) (.munmap m.next) fun hc => (by cases hc)
  · rw [hself] at hc
    exact absurd hc (Point.present_of_live rfl)

theorem step_munmap {m : Unmap} {c : Choice} (h : SlotInv s) (hE : EntryInv s)
    (hL : LinkInv false s) (hpt : (s.procs p).point = .munmap m)
    (hs : step_munmap s p m c = .ok s') : SlotInv s' := by
  obtain ⟨x, hx, ⟨-, rfl⟩ | ⟨-, files, hpage⟩ | ⟨-, -, hfault⟩⟩ := step_munmap_spec hs
  · exact h.goto hE hL hpt ⟨rfl, rfl⟩ ⟨rfl, rfl⟩ (fun hc => (by cases hc)) rfl (Quiet.refl p s)
      (Stays.of_eq rfl) rfl rfl rfl
  · exact h.unmap_page hE hL hpt hx hpage (Quiet.of_eq rfl rfl rfl rfl) rfl rfl rfl rfl
  · refine h.fault hE hL (by rw [hpt]; exact ⟨rfl, rfl⟩) ?_ hfault
    change (Point.munmap m :: (s.procs p).callers.map Caller.point).countP Point.locks ≤
      ((s.procs p).point :: (s.procs p).callers.map Caller.point).countP Point.locks
    rw [hpt]

/-- The entry that `munmap` frees is of a mapped file, which has no slot. -/
theorem step_unlist {m : Unmap} {c : Choice} (h : SlotInv s) (hE : EntryInv s)
    (hL : LinkInv false s) (hpt : (s.procs p).point = .unlist m)
    (hs : step_unlist s p m c = .ok s') : SlotInv s' := by
  obtain ⟨x, frames, bits, hx, -, rfl⟩ := step_unlist_spec hs
  obtain ⟨hfirst, hxm⟩ := hE.first_page hpt hx
  set f : Proc → Proc := fun t => { t with
    sup_page_table := Function.update t.sup_page_table x.user_vaddr none
    fd_list := t.fd_list.map (fun d : FdElem =>
      if d.mmapped && d.mapid == m.mapping then { d with mmapped := false } else d) } with hf
  generalize hu : ({ s.setPool frames bits with
    frame_table := s.frame_table.filter (fun e => mid_of s c.stale_mid e != m.mapping)
    sptes := Function.update s.sptes m.spte none
    filesys_lock := none } : Mem) = u
  have hup : u.procs = s.procs := by rw [← hu]; rfl
  have hus : ((u.upd p f).ret p).sptes = Function.update s.sptes m.spte none := by
    change u.sptes = _
    rw [← hu]
  have hself : ((u.upd p f).ret p).procs p = (f (s.procs p)).ret := by
    rw [Mem.ret_self, Mem.upd_self, hup]
  have hkept : ∀ b y, ((u.upd p f).ret p).sptes b = some y → b ≠ m.spte ∧ s.sptes b = some y := by
    intro b y hy
    rw [hus] at hy
    by_cases hb : b = m.spte
    · rw [hb, Function.update_self] at hy
      cases hy
    · rw [Function.update_of_ne hb] at hy
      exact ⟨hb, hy⟩
  refine h.calm hE hL (fun q hq => ?_) (by rw [hpt]; exact ⟨rfl, rfl⟩) ?_ ?_ ?_ ?_
    (fun b y hy => ?_) (fun b y hy hheld => ?_) (fun b y hy v hl => ?_) fun hc => ?_
  · rw [Mem.ret_of_ne hq, Mem.upd_of_ne _ hq, hup]
  · rw [hself]
    exact Proc.ret_still _ fun c _ => c.still
  · change u.swap_table = _
    rw [← hu]
    rfl
  · change u.swap_lock = _
    rw [← hu]
    rfl
  · rw [hself]
    exact (f (s.procs p)).locks_ret
  · exact Or.inl ⟨y, (hkept b y hy).2, rfl, rfl, rfl⟩
  · have hb : b ≠ m.spte := by
      rintro rfl
      obtain rfl := Option.some.inj (hx.symm.trans hy)
      rcases hheld with ⟨hk, -⟩ | ⟨q, hq⟩
      · unfold Spte.kind at hk
        rw [if_pos hxm] at hk
        cases hk
      · -- the process is in `munmap`, and nobody else has the entry
        obtain ⟨z, -, -, hl⟩ := h.refilled q _ hq
        obtain rfl := hE.owned _ _ _ _ _ hl hfirst
        rw [hpt] at hq
        cases hq
    exact ⟨y, by rw [hus, Function.update_of_ne hb]; exact hy, rfl, rfl, rfl⟩
  · obtain ⟨hb, -⟩ := hkept b y hy
    unfold page_lookup
    rw [hself, Proc.ret_hash]
    refine (Function.update_of_ne ?_ _ _).trans hl
    rintro rfl
    exact hb (Option.some.inj (hl.symm.trans hfirst))
  · rw [hself] at hc
    exact absurd hc (Point.present_of_live (Proc.ret_live _))

/-- The pages are given up; the slots are not yet. -/
theorem thread_exit (h : SlotInv s) (hE : EntryInv s) (hL : LinkInv false s)
    (hstill : (s.procs p).point.still) (hs : thread_exit s p = .ok s') : SlotInv s' := by
  obtain ⟨frames, bits, -, rfl⟩ := thread_exit_spec hs
  have hq := Quiet.give_up p s frames bits
  refine h.quiet hE hL (hq.goto .reap) (Stays.of_eq rfl) hstill ?_ rfl rfl ?_ fun hc => ?_
  · rw [Mem.goto_self]
    exact ⟨rfl, rfl⟩
  · rw [Mem.goto_self, Mem.upd_self]
    exact @Proc.locks_goto (s.procs p) (.reap) fun hc => (by cases hc)
  · rw [Mem.goto_self] at hc
    rcases hc with hc | hc <;> cases hc

theorem step_exit (h : SlotInv s) (hE : EntryInv s) (hL : LinkInv false s)
    (hpt : (s.procs p).point = .exit) (hs : step_exit s p = .ok s') : SlotInv s' := by
  have hstill : (s.procs p).point.still := by
    rw [hpt]
    exact ⟨rfl, rfl⟩
  rcases step_exit_spec hs with ⟨mapping, rfl⟩ | hexit
  · refine h.quiet hE hL ((Quiet.refl p s).upd rfl rfl) (Stays.of_eq rfl) hstill ?_ rfl rfl ?_
      fun hc => ?_
    · rw [Mem.upd_self]
      exact ⟨rfl, rfl⟩
    · rw [Mem.upd_self]
      exact Nat.zero_le _
    · rw [Mem.upd_self] at hc
      exact absurd hc (Point.present_of_live rfl)
  · exact h.thread_exit hE hL hstill hexit

end SlotInv

/-- The process has no page on the swap disk. -/
def GivesBack (s : Mem) (p : ℕ) : Prop :=
  ∀ v a x, page_lookup s p v = some a → s.sptes a = some x → x.kind = .slot → x.swapped = false

namespace SlotInv

/-- **The end of `thread_exit`.** The entries are freed, and no slot is given back: none may be
left. -/
theorem step_reap (h : SlotInv s) (hE : EntryInv s) (hL : LinkInv false s)
    (hpt : (s.procs p).point = .reap) (hok : GivesBack s p) : SlotInv (step_reap s p) := by
  have hself := step_reap_self s p
  have hsptes : ∀ b y, (Vm.step_reap s p).sptes b = some y ↔
      s.sptes b = some y ∧ page_lookup s p y.user_vaddr ≠ some b := fun b y => by
    change (s.sptes b).filter (fun x => page_lookup s p x.user_vaddr != some b) = some y ↔ _
    rw [Option.filter_eq_some_iff, bne_iff_ne]
  refine h.calm hE hL (fun q hq => step_reap_of_ne hq) (by rw [hpt]; exact ⟨rfl, rfl⟩) ?_
    rfl rfl ?_ (fun b y hy => ?_) (fun b y hy hheld => ?_) (fun b y hy v hl => ?_) fun _ v => ?_
  · rw [hself]
    exact ⟨rfl, rfl⟩
  · rw [hself]
    exact @Proc.locks_goto (s.procs p) (.dead) fun hc => (by cases hc)
  · exact Or.inl ⟨y, ((hsptes b y).mp hy).1, rfl, rfl, rfl⟩
  · refine ⟨y, (hsptes b y).mpr ⟨hy, fun hl => ?_⟩, rfl, rfl, rfl⟩
    rcases hheld with ⟨hk, hsw⟩ | ⟨q, hq⟩
    · rw [hok _ b y hl hy hk] at hsw
      cases hsw
    · obtain ⟨z, -, -, hl'⟩ := h.refilled q b hq
      obtain rfl := hE.owned _ _ _ _ _ hl' hl
      rw [hpt] at hq
      cases hq
  · -- an entry that the process finds is freed
    obtain ⟨hold, hne⟩ := (hsptes b y).mp hy
    obtain ⟨-, z, hz, hzv⟩ := hE.block p v b hl
    obtain rfl := Option.some.inj (hold.symm.trans hz)
    rw [hzv] at hne
    exact absurd hl hne
  · unfold page_lookup
    rw [hself]

/-! ## The system calls -/

theorem load_segments {file : ℕ} {segs : List Segment} {junk : ℕ → Spte}
    (hs : segs.foldlM (fun s g => load_segment s p file g junk) s = .ok s') (h : SlotInv s)
    (hE : EntryInv s) (hL : LinkInv false s) (hstill : (s.procs p).point.still)
    (hlive : (s.procs p).point.live = true) : SlotInv s' := by
  -- one page of a segment, with what it leaves for the next
  have hpages : ∀ (f : ℕ → Spte), (∀ i, (f i).swapped = false) → (∀ i, (f i).mmapped = false) →
      ∀ (l : List ℕ) (u : Mem), SlotInv u → EntryInv u → LinkInv false u →
      (u.procs p).point = (s.procs p).point →
      SlotInv (l.foldl (fun s i => Vm.insert_page s p (f i)) u) ∧
        EntryInv (l.foldl (fun s i => Vm.insert_page s p (f i)) u) ∧
        LinkInv false (l.foldl (fun s i => Vm.insert_page s p (f i)) u) ∧
        ((l.foldl (fun s i => Vm.insert_page s p (f i)) u).procs p).point =
          (s.procs p).point := by
    intro f hsw hm l
    induction l with
    | nil => exact fun u hu hEu hLu hpt => ⟨hu, hEu, hLu, hpt⟩
    | cons i rest ih =>
      intro u hu hEu hLu hpt
      refine ih _ (hu.insert_page hEu hLu (hsw i) ?_ ?_) (hEu.insert_page (f i))
        (hLu.insert_page hEu fun hc => ?_) ?_
      · rw [hpt]
        exact hstill
      · rw [hpt]
        exact hlive
      · rw [hm i] at hc
        cases hc
      · rw [insert_page_point]
        exact hpt
  have hall : ∀ u : Mem, SlotInv u → EntryInv u → LinkInv false u →
      (u.procs p).point = (s.procs p).point →
      segs.foldlM (fun s g => load_segment s p file g junk) u = .ok s' → SlotInv s' := by
    clear hs
    induction segs with
    | nil =>
      intro u hu _ _ _ hs
      rw [← Except.ok.inj hs]
      exact hu
    | cons g rest ih =>
      intro u hu hEu hLu hpt hs
      rw [List.foldlM_cons] at hs
      obtain ⟨t, ht, hs⟩ := bind_eq_ok hs
      obtain ⟨_, -, ht⟩ := bind_eq_ok ht
      obtain ⟨_, -, ht⟩ := bind_eq_ok ht
      obtain rfl := Except.ok.inj ht
      obtain ⟨hu', hEu', hLu', hpt'⟩ := hpages (fun i => segment_entry file g i (junk i))
        (fun _ => rfl) (fun _ => rfl) _ u hu hEu hLu hpt
      exact ih _ hu' hEu' hLu' hpt' hs
  exact hall s h hE hL rfl hs

/-- A new process finds nothing. -/
theorem load {file : ℕ} {segs : List Segment} {junk : ℕ → Spte} (h : SlotInv s) (hE : EntryInv s)
    (hL : LinkInv false s) (hpt : (s.procs p).point = .unused)
    (hs : load s p file segs junk = .ok s') : SlotInv s' := by
  have hself : ∀ (u : Mem) (f : Proc → Proc), (u.upd p f).procs p = f (u.procs p) :=
    fun u f => Function.update_self p _ _
  refine load_segments hs ?_ (hE.renew rfl rfl rfl rfl (fun _ => rfl) (fun _ => rfl) fun _ _ =>
    ⟨FrameOk.plain rfl rfl fun hc => (by cases hc), trivial⟩) (hL.renew hE hpt (fun q hq =>
      Function.update_of_ne hq _ _) rfl rfl rfl ?_ ?_) ?_ ?_
  · refine h.calm hE hL (fun q hq => Function.update_of_ne hq _ _)
      (by rw [hpt]; exact ⟨rfl, rfl⟩) ?_ rfl rfl ?_ (fun b y hy => Or.inl ⟨y, hy, rfl, rfl, rfl⟩)
      (fun b y hy _ => ⟨y, hy, rfl, rfl, rfl⟩) (fun b y _ v hl => ?_) fun _ v => ?_
    · rw [hself]
      exact ⟨rfl, rfl⟩
    · rw [hself]
      exact Nat.zero_le _
    · rw [h.gone p (Or.inl hpt) v] at hl
      cases hl
    · unfold page_lookup
      rw [hself]
  · rw [hself]
    rfl
  · rw [hself]
  · rw [hself]
    exact ⟨rfl, rfl⟩
  · rw [hself]
    rfl

theorem mmap {fd addr : ℕ} {junk : ℕ → Spte} (h : SlotInv s) (hE : EntryInv s)
    (hL : LinkInv false s) (hpt : (s.procs p).point = .user) :
    SlotInv (mmap s p fd addr junk) := by
  cases hd : (s.procs p).fd_list.find? (fun d => d.fd == fd) with
  | none =>
    unfold Vm.mmap
    rw [hd]
    exact h
  | some d =>
    by_cases hok : MmapOk s p addr d
    swap
    · unfold Vm.mmap
      rw [hd]
      dsimp only
      rw [if_pos (not_not.mp hok)]
      exact h
    obtain ⟨-, hfree⟩ := hok.pages
    obtain ⟨table, hmmap, hlook⟩ := mmap_eq junk hd hok
    rw [hmmap]
    refine @grows s _ p h hE hL (fun q hq => Function.update_of_ne hq _ _)
      (fun b hb => if_neg (by omega)) (fun b y hle hy => ?_) (fun v a ha => ?_) ?_ ?_ ?_ rfl rfl
    · dsimp only at hy
      split at hy
      · rw [← Option.some.inj hy]
        exact Or.inl rfl
      · exact Or.inr hy
    · refine (congrArg (fun t => Proc.sup_page_table t v) (Function.update_self p _ _)).trans ?_
      refine (hlook v).trans ?_
      rw [if_neg]
      · exact ha
      · rintro ⟨hle, hlt⟩
        have hnone := hfree (v - addr) (by omega)
        rw [show addr + (v - addr) = v by omega, ha] at hnone
        cases hnone
    · refine (congrArg Proc.points (Function.update_self p _ _)).trans ?_
      rfl
    · rw [hpt]
      exact ⟨rfl, rfl⟩
    · rw [hpt]
      rfl

theorem open_file (file : ℕ) (h : SlotInv s) (hE : EntryInv s) (hL : LinkInv false s)
    (hpt : (s.procs p).point = .user) : SlotInv (open_file s p file) := by
  refine @grows s _ p h hE hL (fun q hq => Function.update_of_ne hq _ _) (fun _ _ => rfl)
    (fun b y _ hy => Or.inr hy) (fun v a ha => ?_) ?_ ?_ ?_ rfl rfl
  · refine (congrArg (fun t => Proc.sup_page_table t v) (Function.update_self p _ _)).trans ?_
    exact ha
  · refine (congrArg Proc.points (Function.update_self p _ _)).trans ?_
    rfl
  · rw [hpt]
    exact ⟨rfl, rfl⟩
  · rw [hpt]
    rfl

theorem user_access {v i : ℕ} {store : Option UInt8} {near_esp : Bool} (h : SlotInv s)
    (hE : EntryInv s) (hL : LinkInv false s) (hpts : (s.procs p).points = [.user])
    (hs : user_access s p v i store near_esp = .ok s') : SlotInv s' := by
  obtain ⟨hpt, hmap⟩ := List.cons.inj hpts
  have hcalls : (s.procs p).callers = [] := List.map_eq_nil_iff.mp hmap
  have hstill : (s.procs p).point.still := by
    rw [hpt]
    exact ⟨rfl, rfl⟩
  have hfault : ∀ write, page_fault s p (v * PGSIZE + i) write near_esp = .ok s' →
      SlotInv s' := by
    intro write hs
    have hcs : s.upd p (fun t => { t with callers := [] }) = s := by
      have hid := Function.update_eq_self p s.procs
      unfold Mem.upd
      rw [← hcalls]
      exact congrArg (fun procs => { s with procs := procs }) hid
    exact @fault s s' p [] _ _ _ h hE hL hstill (Nat.zero_le _) (hcs.symm ▸ hs)
  unfold Vm.user_access at hs
  split at hs
  · obtain rfl := Except.ok.inj hs
    exact h
  · split at hs
    · obtain rfl := Except.ok.inj hs
      exact ⟨⟨h.slots.bits, h.slots.apart⟩, h.locked, h.single, h.found, h.saved, h.refilled,
        h.gone⟩
    · exact hfault _ hs
  · exact hfault _ hs

end SlotInv

/-! ## The system -/

/-- The condition on a step: an eviction clears the page of its victim, a page that is listed
gets mapped, and a process that is gone has no page on the swap disk. -/
def Accounting (s : Mem) (ev : Event) : Prop :=
  Linking false s ev ∧ ∀ p c, ev = .run p c → (s.procs p).point = .reap → GivesBack s p

namespace SlotInv

/-- **One kernel step** that meets the condition. -/
theorem run {c : Choice} (h : SlotInv s) (hE : EntryInv s) (hL : LinkInv false s)
    (hok : Accounting s (.run p c)) (hs : run s p c = .ok s') : SlotInv s' := by
  unfold Vm.run at hs
  cases hpt : (s.procs p).point <;> rw [hpt] at hs
  case get w => exact h.step_get hE hL hpt hs
  case evict w => exact h.step_evict hE hL hpt hs
  case save w e => exact h.step_save hpt hs
  case writeback w e => exact h.step_writeback hE hL hpt hs
  case free w k => exact h.step_free hE hL hpt hs
  case load w k => exact h.step_load hE hL hpt hs
  case swapin v write a k => exact h.step_swapin hE hL hpt hs
  case refill v write a k b => exact h.step_refill hpt hs
  case install v write a k => exact h.step_install hE hL hpt hs
  case unmapping mapping => exact h.step_unmapping hE hL hpt hs
  case munmap m => exact h.step_munmap hE hL hpt hs
  case unlist m => exact h.step_unlist hE hL hpt hs
  case exit => exact h.step_exit hE hL hpt hs
  case reap =>
    rw [← Except.ok.inj hs]
    exact h.step_reap hE hL hpt (hok.2 p c rfl hpt)
  -- user code, a process that is gone and one that never was
  all_goals
    rw [← Except.ok.inj hs]
    exact h

/-- **One event** that meets the condition. -/
theorem exec {ev : Event} (h : SlotInv s) (hE : EntryInv s) (hL : LinkInv false s)
    (hok : Accounting s ev) (hs : exec s ev = .ok s') : SlotInv s' := by
  cases ev with
  | run p c => exact h.run hE hL hok hs
  | load p file segs junk => exact of_guard h (fun hu hs => h.load hE hL (isUnused_point hu) hs) hs
  | access p v i store near_esp =>
    refine of_guard h (fun hu hs => ?_) hs
    exact h.user_access hE hL (hE.user_points (Bool.and_eq_true_iff.mp hu).1) hs
  | open_file p file =>
    refine of_guard h (fun hu hs => ?_) hs
    rw [← Except.ok.inj hs]
    exact h.open_file file hE hL (inUser_point hu)
  | mmap p fd addr junk =>
    refine of_guard h (fun hu hs => ?_) hs
    rw [← Except.ok.inj hs]
    exact h.mmap hE hL (inUser_point hu)
  | munmap p mapping =>
    refine of_guard h (fun hu hs => ?_) hs
    rw [← Except.ok.inj hs]
    exact h.goto hE hL (inUser_point hu) ⟨rfl, rfl⟩ ⟨rfl, rfl⟩ (fun hc => (by cases hc)) rfl
      (Quiet.refl p s) (Stays.of_eq rfl) rfl rfl rfl
  | exit p =>
    refine of_guard h (fun hu hs => ?_) hs
    rw [← Except.ok.inj hs]
    exact h.exit hE hL (inUser_point hu) ⟨rfl, rfl⟩ (Quiet.refl p s) (Stays.of_eq rfl) rfl rfl
  | kill p =>
    refine of_guard h (fun hu hs => ?_) hs
    refine h.thread_exit hE hL ?_ hs
    rw [inUser_point hu]
    exact ⟨rfl, rfl⟩

end SlotInv

/-- Before the first process no sector is used. -/
theorem Boot.slots (h : Boot s) : SlotInv s := by
  have hnone : ∀ a x, ¬ Holds s a x := fun a x hx => by
    have hsp := hx.1
    rw [h.sptes a] at hsp
    cases hsp
  refine ⟨⟨fun n => ?_, fun a b x y n hx => absurd hx (hnone a x)⟩, fun q hq => ?_, fun q => ?_,
    fun a x hx => ?_, fun a x ⟨q, hq⟩ => ?_, fun q a hq => ?_, fun q _ v => ?_⟩
  · rw [h.swap_table n]
    exact iff_of_false nofun fun ⟨a, x, hx, _⟩ => hnone a x hx
  · rw [h.unused q] at hq
    cases hq
  · rw [h.unused q]
    exact Nat.zero_le _
  · rw [h.sptes a] at hx
    cases hx
  · rw [h.unused q] at hq
    cases hq
  · rw [h.unused q] at hq
    cases hq
  · unfold page_lookup
    rw [h.unused q]

theorem reachable_slots (h : Reachable paging Accounting s) :
    EntryInv s ∧ LinkInv false s ∧ SlotInv s :=
  @Reachable.invariant _ _ paging Accounting
    (fun s => EntryInv s ∧ LinkInv false s ∧ SlotInv s)
    (fun _ hb => ⟨Boot.entries hb, Boot.link hb, Boot.slots hb⟩)
    (fun _ _ _ hi hok hs => ⟨hi.1.exec hs, hi.2.1.exec hi.1 hok.1 hs,
      hi.2.2.exec hi.1 hi.2.1 hok hs⟩) s h

/-! ## Sectors in use -/

/-- No page is between its mark and its transfer. -/
def Settled (s : Mem) : Prop := ∀ q, (s.procs q).point.still

/-- Process `p` is there, and entry `x` of it is on the swap disk. -/
def SwappedOut (s : Mem) (p : ℕ) (x : Spte) : Prop :=
  (s.procs p).point ≠ .unused ∧ (s.procs p).point ≠ .dead ∧ x.kind = .slot ∧ x.swapped = true ∧
    ∃ a, page_lookup s p x.user_vaddr = some a ∧ s.sptes a = some x

/-- The sectors in use are those of the pages that are swapped out. -/
def Accounted (s : Mem) : Prop :=
  ∀ n, s.swap_table.bits n = true ↔ ∃ p x, SwappedOut s p x ∧ InSlot x n

/-- An entry on the swap disk is one of a process that is there. -/
theorem SlotInv.swapped_out (h : SlotInv s) {x : Spte} (hx : s.sptes a = some x)
    (hk : x.kind = .slot) (hsw : x.swapped = true) : ∃ p, SwappedOut s p x := by
  obtain ⟨p, hl⟩ := h.found a x hx hsw
  refine ⟨p, fun hc => ?_, fun hc => ?_, hk, hsw, a, hl, hx⟩
  · rw [h.gone p (Or.inl hc)] at hl
    cases hl
  · rw [h.gone p (Or.inr hc)] at hl
    cases hl

/-- **Swap slots are accounted for** in the runs in which no process is gone with a page on the
swap disk, evictions clear the page of their victim, and a page that is listed gets mapped. -/
theorem slots_accounted (h : Reachable paging Accounting s) (hset : Settled s) :
    Accounted s := by
  obtain ⟨-, -, hi⟩ := reachable_slots h
  have hsave : ∀ b, ¬ Saving s b := fun b ⟨q, hq⟩ => by
    rw [(hset q).1] at hq
    cases hq
  have hrefill : ∀ b, ¬ Refilling s b := fun b ⟨q, hq⟩ => by
    rw [(hset q).2] at hq
    cases hq
  intro n
  rw [hi.slots.bits n]
  constructor
  · rintro ⟨b, x, ⟨hx, hk, ⟨hsw, -⟩ | hr⟩, hn⟩
    · obtain ⟨p, hp⟩ := hi.swapped_out hx hk hsw
      exact ⟨p, x, hp, hn⟩
    · exact absurd hr (hrefill b)
  · rintro ⟨p, x, ⟨-, -, hk, hsw, b, -, hx⟩, hn⟩
    exact ⟨b, x, ⟨hx, hk, Or.inl ⟨hsw, hsave b⟩⟩, hn⟩

/-! ## One process -/

/-- With the lock free, no page is being moved. -/
theorem SlotInv.settled (h : SlotInv s) (hlock : s.swap_lock = none) : Settled s := fun q =>
  still_of_locks (h.not_locks (by rw [hlock]; exact nofun))

/-- The condition, computed, for runs that end before the process is gone. -/
def accounting (s : Mem) (ev : Event) : Bool :=
  linking s ev && match ev with
    | .run p _ => match (s.procs p).point with
      | .reap => false
      | _ => true
    | _ => true

theorem accounting_of (s : Mem) (ev : Event) (h : accounting s ev = true) : Accounting s ev := by
  unfold accounting at h
  rw [Bool.and_eq_true] at h
  have hlink := linking_of s ev h.1
  refine ⟨?_, fun p c hev hpt => ?_⟩
  · cases ev with
    | run p c =>
      unfold Linking at hlink ⊢
      dsimp only at hlink ⊢
      cases hpt : (s.procs p).point <;> rw [hpt] at hlink <;> try trivial
      case load w k => cases w <;> first | exact hlink | trivial | exact nofun
      case munmap m => exact nofun
      case unlist m => exact nofun
    | _ => trivial
  · rw [hev] at h
    dsimp only at h
    rw [hpt] at h
    cases h.2

/-- A process with one frame for two pages: the first of them is in the first slot. -/
theorem slots_accounted_evicted : ∃ s, Reachable paging Accounting s ∧
    s.swap_table.bits 0 = true ∧ s.swap_table.bits 8 = false ∧ Accounted s := by
  have hrun : follow exec accounting
      (fun s => s.swap_lock.isNone && s.swap_table.bits 0 && !s.swap_table.bits 8) (small_boot 2)
      (load_run 0 2 ++ touch_run 0 8 2 ++ touch_run 0 9 6) = true := by
    decide +kernel
  have hstart : Reachable paging (fun s e => accounting s e = true) (small_boot 2) :=
    .init (small_boot_boot 2)
  obtain ⟨s, hr, hs⟩ := follow_reachable (fun _ _ _ h => h) hstart hrun
  have hr' : Reachable paging Accounting s := hr.weaken accounting_of
  rw [Bool.and_eq_true, Bool.and_eq_true, Option.isNone_iff_eq_none, Bool.not_eq_true'] at hs
  obtain ⟨⟨hlock, hused⟩, hfree⟩ := hs
  exact ⟨s, hr', hused, hfree, slots_accounted hr' ((reachable_slots hr').2.2.settled hlock)⟩

/-! ## A process that exits -/

theorem Taken.give {j : ℕ} (h : Taken s j) (hne : j ≠ k) : Taken (s.give k) j :=
  ⟨(Function.update_of_ne hne _ _).trans h.1, h.2⟩

/-- Pages in frames of their own, which are taken, can be freed. -/
theorem destroy_pages_ok {t : Proc} {l : List ℕ} {u : Mem} (hl : l.Nodup)
    (hown : ∀ v w pte pte', t.pagedir v = some pte → t.pagedir w = some pte' →
      pte.frame = pte'.frame → v = w)
    (htaken : ∀ v ∈ l, ∀ pte, t.pagedir v = some pte → Taken u pte.frame) :
    ∃ u', l.foldlM (destroy_page t) u = .ok u' := by
  induction l generalizing u with
  | nil => exact ⟨u, rfl⟩
  | cons v rest ih =>
    obtain ⟨hv, hrest⟩ := List.nodup_cons.mp hl
    rw [List.foldlM_cons]
    unfold destroy_page
    cases hpte : t.pagedir v with
    | none => exact ih hrest fun w hw => htaken w (List.mem_cons_of_mem _ hw)
    | some pte =>
      have hfree := palloc_free_page_iff.mpr ⟨htaken v List.mem_cons_self pte hpte, rfl⟩
      dsimp only
      rw [hfree, ok_bind]
      refine ih hrest fun w hw pte' hpte' => ?_
      refine (htaken w (List.mem_cons_of_mem _ hw) pte' hpte').give fun hc => ?_
      rw [hown w v pte' pte hpte' hpte hc] at hw
      exact hv hw

/-- The machine after a run, without the events that fail. -/
def after (s : Mem) (es : List Event) : Mem :=
  es.foldl (fun s e => match exec s e with
    | .ok s' => s'
    | .error _ => s) s

theorem reachable_after {ok : Mem → Event → Bool} {es : List Event}
    (hr : Reachable paging (fun s e => ok s e = true) s)
    (h : follow exec ok (fun _ => true) s es = true) :
    Reachable paging (fun s e => ok s e = true) (after s es) := by
  induction es generalizing s with
  | nil => exact hr
  | cons e rest ih =>
    unfold follow at h
    rw [Bool.and_eq_true] at h
    unfold after
    rw [List.foldl_cons]
    cases he : exec s e with
    | error f =>
      rw [he] at h
      cases h.2
    | ok s' =>
      rw [he] at h
      exact ih (hr.step h.1 he) h.2

/-- **A process that exits keeps its slots.** The first page is in the first slot when the process
exits, and the slot is marked when the process is gone. -/
theorem exit_keeps_slots : ¬ ∀ s, Reachable paging (fun _ _ => True) s → Settled s →
    Accounted s := by
  intro hacc
  set es : List Event := load_run 0 2 ++ touch_run 0 8 2 ++ touch_run 0 9 6 ++ [.exit 0] with hes
  have hrun : follow exec accounting (fun _ => true) (small_boot 2) es = true := by
    decide +kernel
  have hr := reachable_after (Reachable.init (small_boot_boot 2)) hrun
  have hslots := (reachable_slots (hr.weaken accounting_of)).2.2
  generalize hs : after (small_boot 2) es = s₁ at hr hslots
  have hpt : (s₁.procs 0).point = .exit := by rw [← hs]; rfl
  have hfds : (s₁.procs 0).fd_list = [] := by rw [← hs]; rfl
  have hlock : s₁.swap_lock = none := by rw [← hs]; rfl
  have hbit : s₁.swap_table.bits 0 = true := by rw [← hs]; rfl
  have hfresh : s₁.fresh = 2 := by rw [← hs]; rfl
  have hdir : (s₁.procs 0).pagedir = Function.update (Function.update (Function.update
      (Function.update (fun _ => none) (PHYS_PAGES - 1) (some ⟨0, true⟩)) 8 (some ⟨1, true⟩)) 8
      none) 9 (some ⟨1, true⟩) := by
    rw [← hs]
    rfl
  have htaken : Taken s₁ 0 ∧ Taken s₁ 1 := by
    rw [← hs]
    exact ⟨⟨rfl, by decide⟩, ⟨rfl, by decide⟩⟩
  have hmine : ∀ a < 2, ∃ x, s₁.sptes a = some x ∧ page_lookup s₁ 0 x.user_vaddr = some a := by
    rw [← hs]
    intro a ha
    obtain rfl | rfl : a = 0 ∨ a = 1 := by omega
    · exact ⟨_, rfl, rfl⟩
    · exact ⟨_, rfl, rfl⟩
  -- two pages are mapped
  have hmap : ∀ v pte, (s₁.procs 0).pagedir v = some pte →
      v = PHYS_PAGES - 1 ∧ pte.frame = 0 ∨ v = 9 ∧ pte.frame = 1 := by
    intro v pte hpte
    rw [hdir] at hpte
    by_cases h9 : v = 9
    · rw [h9, Function.update_self] at hpte
      exact Or.inr ⟨h9, by rw [← Option.some.inj hpte]⟩
    rw [Function.update_of_ne h9] at hpte
    by_cases h8 : v = 8
    · rw [h8, Function.update_self] at hpte
      cases hpte
    rw [Function.update_of_ne h8, Function.update_of_ne h8] at hpte
    by_cases htop : v = PHYS_PAGES - 1
    · rw [htop, Function.update_self] at hpte
      exact Or.inl ⟨htop, by rw [← Option.some.inj hpte]⟩
    · rw [Function.update_of_ne htop] at hpte
      cases hpte
  obtain ⟨t, ht⟩ : ∃ t, process_exit s₁ 0 = .ok t := by
    refine destroy_pages_ok List.nodup_range (fun v w pte pte' hv hw hf => ?_) fun v _ pte hv => ?_
    · rcases hmap v pte hv with ⟨rfl, hk⟩ | ⟨rfl, hk⟩ <;>
        rcases hmap w pte' hw with ⟨rfl, hk'⟩ | ⟨rfl, hk'⟩ <;> first | rfl | omega
    · rcases hmap v pte hv with ⟨-, hk⟩ | ⟨-, hk⟩
      · rw [hk]
        exact htaken.1
      · rw [hk]
        exact htaken.2
  have hexit : exec s₁ (.run 0 plain) = .ok (t.goto 0 .reap) := by
    change run s₁ 0 plain = _
    unfold run
    rw [hpt]
    dsimp only
    unfold step_exit
    rw [hfds]
    dsimp only [List.find?]
    unfold thread_exit
    rw [ht]
    rfl
  obtain ⟨frames, bits, -, rfl⟩ := process_exit_spec ht
  generalize hu : ((s₁.setPool frames bits).upd 0 fun t => { t with
    pagedir := fun _ => none
    tables := fun _ => false }).goto 0 .reap = u at hexit
  have hpoint : (u.procs 0).point = .reap := by rw [← hu, Mem.goto_self]
  have hlook : ∀ v, page_lookup u 0 v = page_lookup s₁ 0 v := fun v => by
    unfold page_lookup
    rw [← hu, Mem.goto_self, Mem.upd_self]
    rfl
  have hgone : exec u (.run 0 plain) = .ok (step_reap u 0) := by
    change run u 0 plain = _
    unfold run
    rw [hpoint]
  have hr' : Reachable paging (fun _ _ => True) (step_reap u 0) :=
    ((hr.weaken fun _ _ _ => trivial).step trivial hexit).step trivial hgone
  have hset : Settled (step_reap u 0) := fun q => by
    by_cases hq : q = 0
    · rw [hq, step_reap_self]
      exact ⟨rfl, rfl⟩
    · rw [step_reap_of_ne hq, ← hu, Mem.goto_of_ne _ hq, Mem.upd_of_ne _ hq]
      exact hslots.settled hlock q
  -- no entry is left
  have hbit' : (step_reap u 0).swap_table.bits 0 = true := by
    rw [← hu]
    exact hbit
  obtain ⟨q, x, ⟨-, -, -, -, a, hl, hx⟩, -⟩ := (hacc _ hr' hset 0).mp hbit'
  have ha : a < 2 := by
    have hlt := ((reachable_entries hr').block q _ a hl).1
    rw [← hfresh]
    rw [← hu] at hlt
    exact hlt
  obtain ⟨y, hy, hly⟩ := hmine a ha
  have hold : u.sptes a = some y := by
    rw [← hu]
    exact hy
  change (u.sptes a).filter (fun x => page_lookup u 0 x.user_vaddr != some a) = some x at hx
  rw [Option.filter_eq_some_iff, hold, bne_iff_ne] at hx
  obtain rfl := Option.some.inj hx.1
  rw [hlook] at hx
  exact hx.2 hly

end Pintos.Vm
