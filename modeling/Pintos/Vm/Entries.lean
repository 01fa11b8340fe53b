/-
Where the supplemental page table entries are.

Entries are made by `load_segment`, `mmap` and stack growth, and removed by `munmap` and by
exit. In between the kernel holds pointers to them, across waits: a process that is faulting a
page in holds the page's entry, and `munmap` holds the first entry of its mapping. What is kept
is that these pointers are to entries the process still has for the pages they are for, that no
two processes have an entry in common, and that a mapped descriptor has an entry for each page
of its mapping.

Most steps change an entry only in its flags, its slot and its mapping id. `Quiet` says so
once, and what a quiet step keeps is one lemma.
-/
import Pintos.Vm.Unmapping

set_option autoImplicit false

namespace Pintos.Vm

open Pintos.Kernel StepSystem

variable {s s' t : Mem} {p : ℕ}

/-! ## Quiet steps -/

/-- The fields of an entry that nothing assigns after it is made. -/
def Spte.fixed (x : Spte) : Spte :=
  { x with swapped := false, dirty := false, disk_sector_idx := 0, loaded := false, mid := 0 }

theorem Spte.fixed_vaddr {x x' : Spte} (h : x'.fixed = x.fixed) : x'.user_vaddr = x.user_vaddr := by
  have hv := congrArg Spte.user_vaddr h
  exact hv

/-- Process `p` makes no entry, removes none and changes none in its fixed fields, and the
other processes do not move. -/
structure Quiet (p : ℕ) (s s' : Mem) : Prop where
  fresh : s'.fresh = s.fresh
  fixed : ∀ a, (s'.sptes a).map Spte.fixed = (s.sptes a).map Spte.fixed
  other : ∀ q, q ≠ p → s'.procs q = s.procs q
  lookup : (s'.procs p).sup_page_table = (s.procs p).sup_page_table
  fds : (s'.procs p).fd_list = (s.procs p).fd_list
  next_mid : s'.next_mid = s.next_mid

namespace Quiet

theorem refl (p : ℕ) (s : Mem) : Quiet p s s := ⟨rfl, fun _ => rfl, fun _ _ => rfl, rfl, rfl, rfl⟩

theorem trans (h : Quiet p s s') (h' : Quiet p s' t) : Quiet p s t where
  fresh := h'.fresh.trans h.fresh
  fixed a := (h'.fixed a).trans (h.fixed a)
  other q hq := (h'.other q hq).trans (h.other q hq)
  lookup := h'.lookup.trans h.lookup
  fds := h'.fds.trans h.fds
  next_mid := h'.next_mid.trans h.next_mid

/-- A step that leaves entries and processes alone. -/
theorem of_eq (hf : s'.fresh = s.fresh) (hs : s'.sptes = s.sptes) (hp : s'.procs = s.procs)
    (hm : s'.next_mid = s.next_mid) : Quiet p s s' :=
  ⟨hf, fun a => by rw [hs], fun q _ => by rw [hp], by rw [hp], by rw [hp], hm⟩

/-- A step of the process's own control, or of its page directory. -/
theorem upd (h : Quiet p s s') {f : Proc → Proc}
    (hl : (f (s'.procs p)).sup_page_table = (s'.procs p).sup_page_table)
    (hfd : (f (s'.procs p)).fd_list = (s'.procs p).fd_list) : Quiet p s (s'.upd p f) where
  fresh := h.fresh
  fixed := h.fixed
  other q hq := by
    rw [Mem.upd_of_ne _ hq]
    exact h.other q hq
  lookup := by
    rw [Mem.upd_self, hl]
    exact h.lookup
  fds := by
    rw [Mem.upd_self, hfd]
    exact h.fds
  next_mid := h.next_mid

theorem goto (h : Quiet p s s') (pt : Point) : Quiet p s (s'.goto p pt) := h.upd rfl rfl

theorem exit (h : Quiet p s s') : Quiet p s (s'.exit p) := h.upd rfl rfl

theorem ret (h : Quiet p s s') : Quiet p s (s'.ret p) := by
  refine h.upd ?_ ?_ <;> (unfold Proc.ret; cases (s'.procs p).callers <;> rfl)

/-- A change of an entry. -/
theorem set {a : ℕ} {x x' : Spte} (hx : s.sptes a = some x) (hfix : x'.fixed = x.fixed) :
    Quiet p s (s.setSpte a x') where
  fresh := rfl
  fixed b := by
    by_cases hb : b = a
    · subst hb
      change (Function.update s.sptes b (some x') b).map Spte.fixed = _
      rw [Function.update_self, hx, Option.map_some, Option.map_some, hfix]
    · exact congrArg (Option.map Spte.fixed) (Function.update_of_ne hb _ _)
  other _ _ := rfl
  lookup := rfl
  fds := rfl
  next_mid := rfl

/-- An entry that is there after a quiet step was there, with the same fixed fields. -/
theorem entry (h : Quiet p s s') {a : ℕ} {x' : Spte} (hx : s'.sptes a = some x') :
    ∃ x, s.sptes a = some x ∧ x'.fixed = x.fixed := by
  have hfix := h.fixed a
  rw [hx, Option.map_some] at hfix
  obtain ⟨x, hx', heq⟩ := Option.map_eq_some_iff.mp hfix.symm
  exact ⟨x, hx', heq.symm⟩

/-- An entry stays there. -/
theorem stays (h : Quiet p s s') {a : ℕ} {x : Spte} (hx : s.sptes a = some x) :
    ∃ x', s'.sptes a = some x' ∧ x'.fixed = x.fixed := by
  have hfix := h.fixed a
  rw [hx, Option.map_some] at hfix
  exact Option.map_eq_some_iff.mp hfix

/-- Every process finds what it found. -/
theorem page_lookup (h : Quiet p s s') (q v : ℕ) : page_lookup s' q v = page_lookup s q v := by
  unfold Vm.page_lookup
  by_cases hq : q = p
  · rw [hq, h.lookup]
  · rw [h.other q hq]

theorem fd_list (h : Quiet p s s') (q : ℕ) : (s'.procs q).fd_list = (s.procs q).fd_list := by
  by_cases hq : q = p
  · rw [hq, h.fds]
  · rw [h.other q hq]

/-- The pages of a process are given up. -/
theorem give_up (p : ℕ) (s : Mem) (frames : ℕ → Page) (bits : ℕ → Bool) :
    Quiet p s ((s.setPool frames bits).upd p fun t => { t with
      pagedir := fun _ => none
      tables := fun _ => false }) :=
  (of_eq rfl rfl rfl rfl : Quiet p s (s.setPool frames bits)).upd rfl rfl

end Quiet

/-! ## The invariant -/

/-- Where a process is, and where its callers are. -/
def Proc.points (t : Proc) : List Point := t.point :: t.callers.map Caller.point

/-- In `munmap`. -/
def Point.in_munmap : Point → Bool
  | .unmapping _ => true
  | .munmap _ => true
  | .unlist _ => true
  | _ => false

/-- With no caller below: in user code, in `exit`, and past it. -/
def Point.bottom : Point → Bool
  | .user => true
  | .unused => true
  | .exit => true
  | .reap => true
  | .dead => true
  | _ => false

/-- The local variables of a `munmap` that has found its mapping. -/
def Point.unmaps : Point → Option Unmap
  | .munmap m => some m
  | .unlist m => some m
  | _ => none

theorem Point.in_munmap_of_unmaps {pt : Point} {m : Unmap} (h : pt.unmaps = some m) :
    pt.in_munmap = true := by
  cases pt <;> first | rfl | cases h

/-- The pointers of one frame of the stack of process `p`: an entry it has for a page is the one
in its table, nothing is below user code or `exit`, and a `munmap`, which only user code and `exit`
call, has a mapped descriptor and the entry of its first page. -/
structure FrameOk (s : Mem) (p : ℕ) (pt : Point) (rest : List Point) : Prop where
  keyed : ∀ v a, (v, a) ∈ pt.keys → page_lookup s p v = some a
  called : pt.in_munmap = true → rest = [] ∨ rest = [.exit]
  last : pt.bottom = true → rest = []
  unmaps : ∀ m, pt.unmaps = some m → ∃ d ∈ (s.procs p).fd_list, d.mmapped = true ∧
    d.mapid = m.mapping ∧ page_lookup s p d.vaddr = some m.spte ∧ m.vaddr = d.vaddr + m.iter

def StackOk (s : Mem) (p : ℕ) : List Point → Prop
  | [] => True
  | pt :: rest => FrameOk s p pt rest ∧ StackOk s p rest

/-- The `n` pages from the descriptor's address all have entries of mapped pages. -/
def Covers (s : Mem) (p : ℕ) (d : FdElem) (n : ℕ) : Prop :=
  0 < n ∧ ∀ i < n, ∃ b y, page_lookup s p (d.vaddr + i) = some b ∧ s.sptes b = some y ∧
    y.mmapped = true ∧ y.page_cnt = n

/-- The kernel's pointers to supplemental entries. -/
structure EntryInv (s : Mem) : Prop where
  block : ∀ p v a, page_lookup s p v = some a →
    a < s.fresh ∧ ∃ x, s.sptes a = some x ∧ x.user_vaddr = v
  owned : ∀ p q v w a, page_lookup s p v = some a → page_lookup s q w = some a → p = q
  stack : ∀ p, StackOk s p (s.procs p).points
  maps : ∀ p, ∀ d ∈ (s.procs p).fd_list, d.mmapped = true → ∃ n, Covers s p d n ∧
    ∀ d' ∈ (s.procs p).fd_list, d'.mmapped = true → d'.mapid ≠ d.mapid →
      ∀ i < n, d.vaddr + i ≠ d'.vaddr
  same : ∀ p, ∀ d ∈ (s.procs p).fd_list, ∀ d' ∈ (s.procs p).fd_list, d.mmapped = true →
    d'.mmapped = true → d.mapid = d'.mapid → d.vaddr = d'.vaddr
  ids : ∀ p, ∀ d ∈ (s.procs p).fd_list, d.mmapped = true → d.mapid < s.next_mid

/-- An entry is found at one page only. -/
theorem EntryInv.one_page (h : EntryInv s) {v w a : ℕ} (hv : page_lookup s p v = some a)
    (hw : page_lookup s p w = some a) : v = w := by
  obtain ⟨-, x, hx, hxv⟩ := h.block p v a hv
  obtain ⟨-, y, hy, hyw⟩ := h.block p w a hw
  obtain rfl := Option.some.inj (hx.symm.trans hy)
  exact hxv.symm.trans hyw

/-! ## Frames -/

namespace FrameOk

variable {pt pt' : Point} {rest : List Point}

/-- A process whose entries and descriptors stay may gain entries. -/
theorem mono (h : FrameOk s p pt rest)
    (hl : ∀ v a, page_lookup s p v = some a → page_lookup s' p v = some a)
    (hfd : (s'.procs p).fd_list = (s.procs p).fd_list) : FrameOk s' p pt rest where
  keyed v a hka := hl v a (h.keyed v a hka)
  called := h.called
  last := h.last
  unmaps m hm := by
    obtain ⟨d, hd, hdm, hid, hdl, hv⟩ := h.unmaps m hm
    exact ⟨d, by rw [hfd]; exact hd, hdm, hid, hl _ _ hdl, hv⟩

/-- A frame that goes on with the entries it has. -/
theorem keys (h : FrameOk s p pt rest) (hk : ∀ ka ∈ pt'.keys, ka ∈ pt.keys)
    (hno : pt'.in_munmap = false) (hgo : pt'.bottom = false) : FrameOk s p pt' rest where
  keyed v a hka := h.keyed v a (hk _ hka)
  last hc := by
    rw [hgo] at hc
    cases hc
  called hc := by
    rw [hno] at hc
    cases hc
  unmaps m hm := by
    rw [Point.in_munmap_of_unmaps hm] at hno
    cases hno

/-- A frame without pointers. -/
theorem plain (hk : pt.keys = []) (hno : pt.in_munmap = false)
    (hgo : pt.bottom = true → rest = []) : FrameOk s p pt rest where
  last := hgo
  keyed v a hka := by
    rw [hk] at hka
    cases hka
  called hc := by
    rw [hno] at hc
    cases hc
  unmaps m hm := by
    rw [Point.in_munmap_of_unmaps hm] at hno
    cases hno

end FrameOk

theorem StackOk.mono {l : List Point} (h : StackOk s p l)
    (hl : ∀ v a, page_lookup s p v = some a → page_lookup s' p v = some a)
    (hfd : (s'.procs p).fd_list = (s.procs p).fd_list) : StackOk s' p l := by
  induction l with
  | nil => trivial
  | cons pt rest ih => exact ⟨h.1.mono hl hfd, ih h.2⟩

namespace EntryInv

/-- **A quiet step** keeps what the stack of its process leaves to be shown. -/
theorem quiet (h : EntryInv s) (hq : Quiet p s s') (hst : StackOk s p (s'.procs p).points) :
    EntryInv s' where
  block q v a ha := by
    rw [hq.page_lookup] at ha
    obtain ⟨hlt, x, hx, hv⟩ := h.block q v a ha
    obtain ⟨x', hx', hfix⟩ := hq.stays hx
    exact ⟨by rw [hq.fresh]; exact hlt, x', hx', (congrArg Spte.user_vaddr hfix).trans hv⟩
  owned q r v w a ha hb := by
    rw [hq.page_lookup] at ha hb
    exact h.owned q r v w a ha hb
  stack q := by
    have hl : ∀ v a, page_lookup s q v = some a → page_lookup s' q v = some a := fun v a ha => by
      rw [hq.page_lookup]
      exact ha
    by_cases hqp : q = p
    · subst hqp
      exact hst.mono hl (hq.fd_list q)
    · have hold := (h.stack q).mono hl (hq.fd_list q)
      rw [← hq.other q hqp] at hold
      exact hold
  maps q d hd hm := by
    rw [hq.fd_list] at hd ⊢
    obtain ⟨n, ⟨hn, hcov⟩, hapart⟩ := h.maps q d hd hm
    refine ⟨n, ⟨hn, fun i hi => ?_⟩, hapart⟩
    obtain ⟨b, y, hb, hy, hym, hyc⟩ := hcov i hi
    obtain ⟨y', hy', hfix⟩ := hq.stays hy
    exact ⟨b, y', by rw [hq.page_lookup]; exact hb, hy', (congrArg Spte.mmapped hfix).trans hym,
      (congrArg Spte.page_cnt hfix).trans hyc⟩
  same q d hd d' hd' := by
    rw [hq.fd_list] at hd hd'
    exact h.same q d hd d' hd'
  ids q d hd hm := by
    rw [hq.fd_list] at hd
    rw [hq.next_mid]
    exact h.ids q d hd hm

theorem head (h : EntryInv s) {pt : Point} (hpt : (s.procs p).point = pt) :
    FrameOk s p pt ((s.procs p).callers.map Caller.point) := by
  have hst := (h.stack p).1
  rw [hpt] at hst
  exact hst

/-- The process goes on to another point. -/
theorem goto {pt : Point} (h : EntryInv s) (hq : Quiet p s s')
    (hc : (s'.procs p).callers = (s.procs p).callers)
    (hframe : FrameOk s p pt ((s.procs p).callers.map Caller.point)) :
    EntryInv (s'.goto p pt) := by
  refine h.quiet (hq.goto pt) ?_
  rw [Mem.goto_self]
  change StackOk s p (pt :: (s'.procs p).callers.map Caller.point)
  rw [hc]
  exact ⟨hframe, (h.stack p).2⟩

/-- The process returns. -/
theorem ret (h : EntryInv s) (hq : Quiet p s s')
    (hc : (s'.procs p).callers = (s.procs p).callers) : EntryInv (s'.ret p) := by
  refine h.quiet hq.ret ?_
  have htail := (h.stack p).2
  rw [Mem.ret_self, Proc.ret, hc]
  cases hcs : (s.procs p).callers with
  | nil => exact ⟨FrameOk.plain rfl rfl fun _ => rfl, trivial⟩
  | cons c rest =>
    rw [hcs] at htail
    exact htail

/-- The process calls `exit`. -/
theorem exit (h : EntryInv s) (hq : Quiet p s s') : EntryInv (s'.exit p) := by
  refine h.quiet hq.exit ?_
  rw [Mem.exit_self]
  exact ⟨FrameOk.plain rfl rfl fun _ => rfl, trivial⟩

/-- A fault, with the callers that are left on the stack. -/
theorem fault {cs : List Caller} {addr : ℕ} {write near_esp : Bool} (h : EntryInv s)
    (hcs : StackOk s p (cs.map Caller.point))
    (hs : page_fault (s.upd p (fun t => { t with callers := cs })) p addr write near_esp
      = .ok s') : EntryInv s' := by
  have hq : Quiet p s (s.upd p (fun t => { t with callers := cs })) := (Quiet.refl p s).upd rfl rfl
  have hgo : ∀ w : Want, (∀ v a, (v, a) ∈ w.key → page_lookup s p v = some a) →
      EntryInv ((s.upd p (fun t => { t with callers := cs })).goto p (.get w)) := fun w hw => by
    refine h.quiet (hq.goto _) ?_
    rw [Mem.goto_self, Mem.upd_self]
    refine ⟨⟨hw, fun hc => ?_, fun hc => ?_, fun m hm => ?_⟩, hcs⟩
    · cases hc
    · cases hc
    · cases hm
  rcases page_fault_spec hs with rfl | ⟨-, ⟨a, x, hl, -, -, -, rfl⟩ | ⟨-, -, rfl⟩⟩
  · exact h.exit hq
  · refine hgo _ fun v b hvb => ?_
    simp only [Want.key, List.mem_singleton, Prod.mk.injEq] at hvb
    obtain ⟨rfl, rfl⟩ := hvb
    rw [← hq.page_lookup]
    exact hl
  · exact hgo _ fun v a hva => by cases hva

/-! ## Steps of a fault -/

theorem step_get {w : Want} (h : EntryInv s) (hpt : (s.procs p).point = .get w)
    (hs : step_get s p w = .ok s') : EntryInv s' := by
  rcases step_get_spec hs with rfl | ⟨i, -, rfl⟩
  · exact h.goto (Quiet.refl p s) rfl ((h.head hpt).keys (fun _ hka => hka) rfl rfl)
  · exact h.goto (Quiet.of_eq rfl rfl rfl rfl) rfl ((h.head hpt).keys (fun _ hka => hka) rfl rfl)

theorem step_evict {w : Want} (h : EntryInv s) (hpt : (s.procs p).point = .evict w)
    (hs : step_evict s p w = .ok s') : EntryInv s' := by
  rcases step_evict_spec hs with ⟨rfl, -⟩ | ⟨-, e, rest, a, x, -, -, hx, -, rfl⟩
  · exact h
  · have hset : Quiet p s (s.setSpte a { x with swapped := true }) := Quiet.set hx rfl
    have hq : Quiet p s { s.setSpte a { x with swapped := true } with
        frame_table := rest
        swap_lock := some p } := hset.trans (Quiet.of_eq rfl rfl rfl rfl)
    refine h.quiet (hq.upd rfl rfl) ?_
    rw [Mem.upd_self]
    exact ⟨(h.head hpt).keys (fun _ hka => hka) rfl rfl, (h.stack p).2⟩

theorem step_save {w : Want} {e : Fte} (h : EntryInv s) (hpt : (s.procs p).point = .save w e)
    (hs : step_save s p w e = .ok s') : EntryInv s' := by
  have hframe : ∀ pt : Point, pt.keys = w.key → pt.in_munmap = false → pt.bottom = false →
      FrameOk s p pt ((s.procs p).callers.map Caller.point) := fun pt hk =>
    (h.head hpt).keys fun ka hka => by rw [hk] at hka; exact hka
  obtain ⟨a, x, -, hx, ⟨-, -, ⟨rfl, -⟩ | ⟨-, rfl⟩⟩ | ⟨-, rfl⟩ | ⟨-, i, -, rfl⟩⟩ := step_save_spec hs
  · exact h
  · exact h.goto (Quiet.of_eq rfl rfl rfl rfl) rfl (hframe _ rfl rfl rfl)
  · exact h.goto (Quiet.refl p s) rfl (hframe _ rfl rfl rfl)
  · have hset : Quiet p s (s.setSpte a { x with disk_sector_idx := i }) := Quiet.set hx rfl
    exact h.goto (hset.trans (Quiet.of_eq rfl rfl rfl rfl)) rfl (hframe _ rfl rfl rfl)

theorem step_writeback {w : Want} {e : Fte} {c : Choice} (h : EntryInv s)
    (hpt : (s.procs p).point = .writeback w e) (hs : step_writeback s p w e c = .ok s') :
    EntryInv s' := by
  obtain ⟨a, x, -, -, ⟨f, rfl⟩ | ⟨-, hfault⟩⟩ := step_writeback_spec hs
  · exact h.goto (Quiet.of_eq rfl rfl rfl rfl) rfl ((h.head hpt).keys (fun _ hka => hka) rfl rfl)
  · have hcs := h.stack p
    rw [Proc.points, hpt] at hcs
    exact h.fault hcs hfault

theorem step_free {w : Want} {k : ℕ} (h : EntryInv s) (hpt : (s.procs p).point = .free w k)
    (hs : step_free s p w k = .ok s') : EntryInv s' := by
  obtain ⟨-, rfl⟩ := step_free_spec hs
  exact h.goto (Quiet.of_eq rfl rfl rfl rfl) rfl ((h.head hpt).keys (fun _ hka => hka) rfl rfl)

/-- Mapping a frame is quiet. -/
theorem quiet_install {s₁ : Mem} {v k : ℕ} {writable room b : Bool} (hq : Quiet p s s₁)
    (hs : install_fault_page s₁ p v k writable room = (b, t)) :
    Quiet p s t ∧ (t.procs p).callers = (s₁.procs p).callers := by
  rcases install_fault_page_spec hs with ⟨-, rfl⟩ | ⟨-, -, rfl⟩
  · exact ⟨hq, rfl⟩
  · exact ⟨hq.upd rfl rfl, by rw [Mem.upd_self]⟩

/-- `load_page` ends with a return, whatever the length of the file. -/
theorem load_page {v a k : ℕ} {write room : Bool} {x : Spte} (h : EntryInv s)
    (hs : load_page s p v write a k x room = .ok s') : EntryInv s' := by
  unfold Vm.load_page at hs
  dsimp only at hs
  -- the frame may be given back before it is mapped
  obtain ⟨s₁, hs, hq₁, hc₁⟩ : ∃ s₁ : Mem,
      (mark_loaded (allocate_frame (install_fault_page s₁ p v k x.writable room).2 p k (some a))
        a write >>= fun s => Except.ok (s.ret p)) = .ok s' ∧
      Quiet p s s₁ ∧ (s₁.procs p).callers = (s.procs p).callers := by
    split at hs
    · obtain ⟨u, hu, hs⟩ := bind_eq_ok hs
      obtain ⟨-, rfl⟩ := palloc_free_page_spec hu
      exact ⟨_, hs, Quiet.of_eq rfl rfl rfl rfl, rfl⟩
    · obtain ⟨u, hu, hs⟩ := bind_eq_ok hs
      obtain rfl := Except.ok.inj hu
      exact ⟨_, hs, Quiet.of_eq rfl rfl rfl rfl, rfl⟩
  obtain ⟨t, hmark, hs⟩ := bind_eq_ok hs
  obtain rfl := Except.ok.inj hs
  obtain ⟨y, hy, rfl⟩ := mark_loaded_spec hmark
  obtain ⟨hq₂, hc₂⟩ := quiet_install hq₁ (Prod.eta (install_fault_page s₁ p v k x.writable room)).symm
  have hq₃ : Quiet p s (allocate_frame (install_fault_page s₁ p v k x.writable room).2 p k
      (some a)) := hq₂.trans (Quiet.of_eq rfl rfl rfl rfl)
  exact h.ret (hq₃.trans (Quiet.set hy rfl)) (hc₂.trans hc₁)

theorem step_swapin {v a k : ℕ} {write : Bool} (h : EntryInv s)
    (hpt : (s.procs p).point = .swapin v write a k)
    (hs : step_swapin s p v write a k = .ok s') : EntryInv s' := by
  rcases step_swapin_spec hs with ⟨rfl, -⟩ | ⟨-, b, x, -, hx, ⟨-, rfl⟩ | ⟨-, rfl⟩⟩
  · exact h
  · have hset : Quiet p s (s.setSpte b { x with swapped := false }) := Quiet.set hx rfl
    exact h.goto (hset.trans (Quiet.of_eq rfl rfl rfl rfl)) rfl
      ((h.head hpt).keys (fun _ hka => hka) rfl rfl)
  · exact h.goto (Quiet.of_eq rfl rfl rfl rfl) rfl ((h.head hpt).keys (fun _ hka => hka) rfl rfl)

theorem step_refill {v a k b : ℕ} {write : Bool} (h : EntryInv s)
    (hpt : (s.procs p).point = .refill v write a k b)
    (hs : step_refill s p v write a k b = .ok s') : EntryInv s' := by
  obtain ⟨x, -, ⟨-, rfl⟩ | ⟨-, rfl⟩⟩ := step_refill_spec hs
  · exact h.goto (Quiet.of_eq rfl rfl rfl rfl) rfl ((h.head hpt).keys (fun _ hka => hka) rfl rfl)
  · exact h.goto (Quiet.of_eq rfl rfl rfl rfl) rfl ((h.head hpt).keys (fun _ hka => hka) rfl rfl)

theorem step_install {v a k : ℕ} {write : Bool} {c : Choice} (h : EntryInv s)
    (hs : step_install s p v write a k c = .ok s') : EntryInv s' := by
  obtain ⟨x, b, t, hx, hinst, rfl⟩ := step_install_spec hs
  obtain ⟨hq, hc⟩ := quiet_install (Quiet.refl p s) hinst
  obtain ⟨y, hy, hfix⟩ := hq.stays hx
  have hset : Quiet p s (t.setSpte a { x with loaded := true, dirty := x.dirty || write }) :=
    hq.trans (Quiet.set hy hfix.symm)
  exact h.ret hset hc

/-! ## Steps of `munmap` and `exit` -/

theorem step_unmapping {mapping : ℕ} (h : EntryInv s)
    (hpt : (s.procs p).point = .unmapping mapping) (hs : step_unmapping s p mapping = .ok s') :
    EntryInv s' := by
  rcases step_unmapping_spec hs with ⟨rfl, -⟩ | ⟨d, a, hd, ha, rfl | ⟨-, x, hx, rfl⟩⟩
  · exact h.ret (Quiet.refl p s) rfl
  · exact h
  · have hprop := List.find?_some hd
    rw [Bool.and_eq_true, beq_iff_eq] at hprop
    obtain ⟨-, y, hy, hyv⟩ := h.block p _ a ha
    obtain rfl := Option.some.inj (hx.symm.trans hy)
    refine h.goto (Quiet.of_eq rfl rfl rfl rfl) rfl ⟨fun v b hvb => ?_, fun _ => ?_,
      fun hc => ?_, fun m hm => ?_⟩
    · cases hvb
    · exact (h.head hpt).called rfl
    · cases hc
    · obtain rfl := Option.some.inj hm
      exact ⟨d, List.mem_of_find?_eq_some hd, hprop.1, hprop.2, ha, hyv⟩

theorem unmap_page {s₁ : Mem} {m : Unmap} {x : Spte} (h : EntryInv s)
    (hpt : (s.procs p).point = .munmap m) (hs : unmap_page s₁ p m x = .ok s')
    (hx : s₁.sptes m.spte = some x) (hq : Quiet p s s₁)
    (hc : (s₁.procs p).callers = (s.procs p).callers) : EntryInv s' := by
  obtain ⟨-, rfl⟩ := unmap_page_spec hs
  have hmid : Quiet p s₁ (s₁.setSpte m.spte { x with mid := 0 }) := Quiet.set hx rfl
  have hset : Quiet p s (s₁.setSpte m.spte { x with mid := 0 }) := hq.trans hmid
  refine h.quiet (hset.upd rfl rfl) ?_
  rw [Mem.upd_self]
  change StackOk s p (.munmap m.next :: (s₁.procs p).callers.map Caller.point)
  rw [hc]
  refine ⟨⟨fun v b hvb => (by cases hvb), fun _ => (h.head hpt).called rfl,
    fun hc => (by cases hc), fun m' hm => ?_⟩, (h.stack p).2⟩
  obtain rfl := Option.some.inj hm
  obtain ⟨d, hd, hdm, hid, hl, hv⟩ := (h.head hpt).unmaps m rfl
  refine ⟨d, hd, hdm, hid, hl, ?_⟩
  change m.vaddr + 1 = d.vaddr + (m.iter + 1)
  omega

theorem step_munmap {m : Unmap} {c : Choice} (h : EntryInv s)
    (hpt : (s.procs p).point = .munmap m) (hs : step_munmap s p m c = .ok s') : EntryInv s' := by
  obtain ⟨x, hx, ⟨-, rfl⟩ | ⟨-, files, hpage⟩ | ⟨-, -, hfault⟩⟩ := step_munmap_spec hs
  · have hframe := h.head hpt
    exact h.goto (Quiet.refl p s) rfl ⟨fun v b hvb => (by cases hvb), fun _ => hframe.called rfl,
      fun hc => (by cases hc), fun m' hm => hframe.unmaps m' hm⟩
  · exact h.unmap_page hpt hpage hx (Quiet.of_eq rfl rfl rfl rfl) rfl
  · have hcs := h.stack p
    rw [Proc.points, hpt] at hcs
    exact h.fault hcs hfault

/-! ## New entries -/

/-- A quiet step that leaves the process where it is. -/
theorem quiet_same (h : EntryInv s) (hq : Quiet p s s')
    (hpts : (s'.procs p).points = (s.procs p).points) : EntryInv s' := by
  refine h.quiet hq ?_
  rw [hpts]
  exact h.stack p

end EntryInv

/-- What `insert_page` changes. -/
theorem insert_page_facts (s : Mem) (p : ℕ) (x : Spte) :
    (insert_page s p x).fresh = s.fresh + 1 ∧
    (insert_page s p x).sptes = Function.update s.sptes s.fresh (some x) ∧
    (insert_page s p x).next_mid = s.next_mid ∧
    (∀ q, ((insert_page s p x).procs q).fd_list = (s.procs q).fd_list ∧
      ((insert_page s p x).procs q).points = (s.procs q).points) ∧
    ∀ q w, page_lookup (insert_page s p x) q w =
      if q = p ∧ w = x.user_vaddr ∧ page_lookup s p w = none then some s.fresh
      else page_lookup s q w := by
  unfold insert_page
  dsimp only
  cases hl : (s.procs p).sup_page_table x.user_vaddr with
  | some a =>
    refine ⟨rfl, rfl, rfl, fun q => ⟨rfl, rfl⟩, fun q w => ?_⟩
    rw [if_neg]
    · rfl
    · rintro ⟨-, rfl, hc⟩
      exact absurd (hc.symm.trans hl) (by simp)
  | none =>
    refine ⟨rfl, rfl, rfl, fun q => ?_, fun q w => ?_⟩
    · by_cases hq : q = p
      · subst hq
        rw [Mem.upd_self]
        exact ⟨rfl, rfl⟩
      · rw [Mem.upd_of_ne _ hq]
        exact ⟨rfl, rfl⟩
    · unfold page_lookup
      by_cases hq : q = p
      · subst hq
        rw [Mem.upd_self]
        dsimp only
        by_cases hw : w = x.user_vaddr
        · subst hw
          rw [Function.update_self, if_pos ⟨rfl, rfl, hl⟩]
        · rw [Function.update_of_ne hw, if_neg fun hc => hw hc.2.1]
      · rw [Mem.upd_of_ne _ hq, if_neg fun hc => hq hc.1]

namespace EntryInv

/-- A new entry is nobody else's. -/
theorem insert_page (h : EntryInv s) (x : Spte) : EntryInv (insert_page s p x) := by
  obtain ⟨hf, hs, hm, hsame, hl⟩ := insert_page_facts s p x
  have hkeep : ∀ b y, b < s.fresh → s.sptes b = some y →
      (Vm.insert_page s p x).sptes b = some y := fun b y hb hy => by
    rw [hs, Function.update_of_ne hb.ne]
    exact hy
  have hmono : ∀ q v a, page_lookup s q v = some a →
      page_lookup (Vm.insert_page s p x) q v = some a := by
    intro q v a ha
    rw [hl, if_neg]
    · exact ha
    · rintro ⟨rfl, -, hc⟩
      rw [hc] at ha
      cases ha
  -- an entry that is found is the new one, at its page, or was found before
  have hcase : ∀ q v a, page_lookup (Vm.insert_page s p x) q v = some a →
      (q = p ∧ v = x.user_vaddr ∧ a = s.fresh) ∨ page_lookup s q v = some a := by
    intro q v a ha
    rw [hl] at ha
    split at ha
    · rename_i hnew
      exact Or.inl ⟨hnew.1, hnew.2.1, (Option.some.inj ha).symm⟩
    · exact Or.inr ha
  refine ⟨fun q v a ha => ?_, fun q r v w a ha hb => ?_, fun q => ?_, fun q d hd hdm => ?_, ?_, ?_⟩
  · rw [hf]
    rcases hcase q v a ha with ⟨rfl, rfl, rfl⟩ | hold
    · refine ⟨Nat.lt_succ_self _, x, ?_, rfl⟩
      rw [hs, Function.update_self]
    · obtain ⟨hlt, y, hy, hv⟩ := h.block q v a hold
      exact ⟨hlt.trans (Nat.lt_succ_self _), y, hkeep a y hlt hy, hv⟩
  · rcases hcase q v a ha with ⟨hq, -, rfl⟩ | hold <;> rcases hcase r w _ hb with ⟨hr, -, hc⟩ | hold'
    · rw [hq, hr]
    · exact absurd (h.block r w _ hold').1 (lt_irrefl _)
    · rw [hc] at hold
      exact absurd (h.block q v _ hold).1 (lt_irrefl _)
    · exact h.owned q r v w a hold hold'
  · rw [(hsame q).2]
    exact (h.stack q).mono (hmono q) (hsame q).1
  · rw [(hsame q).1] at hd ⊢
    obtain ⟨n, ⟨hn, hcov⟩, hapart⟩ := h.maps q d hd hdm
    refine ⟨n, ⟨hn, fun i hi => ?_⟩, hapart⟩
    obtain ⟨b, y, hb, hy, hrest⟩ := hcov i hi
    exact ⟨b, y, hmono q _ b hb, hkeep b y (h.block q _ b hb).1 hy, hrest⟩
  · intro q
    rw [(hsame q).1]
    exact h.same q
  · intro q
    rw [(hsame q).1, hm]
    exact h.ids q

theorem insert_pages (f : ℕ → Spte) (l : List ℕ) (h : EntryInv s) :
    EntryInv (l.foldl (fun s i => Vm.insert_page s p (f i)) s) := by
  induction l generalizing s with
  | nil => exact h
  | cons i rest ih => exact ih (h.insert_page (f i))

theorem load_segments {file : ℕ} {segs : List Segment} {junk : ℕ → Spte} (h : EntryInv s)
    (hs : segs.foldlM (fun s g => load_segment s p file g junk) s = .ok s') : EntryInv s' := by
  induction segs generalizing s with
  | nil =>
    rw [← Except.ok.inj hs]
    exact h
  | cons g rest ih =>
    rw [List.foldlM_cons] at hs
    obtain ⟨t, ht, hs⟩ := bind_eq_ok hs
    obtain ⟨_, -, ht⟩ := bind_eq_ok ht
    obtain ⟨_, -, ht⟩ := bind_eq_ok ht
    refine ih ?_ hs
    rw [← Except.ok.inj ht]
    exact h.insert_pages _ _

/-- A process begins again with nothing. -/
theorem renew {u : Mem} {f : Proc → Proc} (h : EntryInv s) (hup : u.procs = s.procs)
    (hus : u.sptes = s.sptes) (huf : u.fresh = s.fresh) (hum : u.next_mid = s.next_mid)
    (hlookup : ∀ t, (f t).sup_page_table = fun _ => none) (hfds : ∀ t, (f t).fd_list = [])
    (hst : ∀ s' t, StackOk s' p (f t).points) : EntryInv (u.upd p f) := by
  have hother : ∀ q, q ≠ p → (u.upd p f).procs q = s.procs q :=
    fun q hq => by rw [Mem.upd_of_ne _ hq, hup]
  have hself : (u.upd p f).procs p = f (u.procs p) := Mem.upd_self _ _ _
  have hnone : ∀ v a, page_lookup (u.upd p f) p v ≠ some a := fun v a ha => by
    unfold page_lookup at ha
    rw [hself, hlookup] at ha
    cases ha
  have hlook : ∀ q v, q ≠ p → page_lookup (u.upd p f) q v = page_lookup s q v := fun q v hq => by
    unfold page_lookup
    rw [hother q hq]
  refine ⟨fun q v a ha => ?_, fun q r v w a ha hb => ?_, fun q => ?_, fun q d hd hdm => ?_,
    fun q => ?_, fun q => ?_⟩
  · have hq : q ≠ p := fun hq => hnone v a (hq ▸ ha)
    rw [hlook q v hq] at ha
    obtain ⟨hlt, hx⟩ := h.block q v a ha
    exact ⟨huf.symm ▸ hlt, hus.symm ▸ hx⟩
  · have hq : q ≠ p := fun hq => hnone v a (hq ▸ ha)
    have hr : r ≠ p := fun hr => hnone w a (hr ▸ hb)
    rw [hlook q v hq] at ha
    rw [hlook r w hr] at hb
    exact h.owned q r v w a ha hb
  · by_cases hq : q = p
    · subst hq
      rw [hself]
      exact hst _ _
    · rw [hother q hq]
      refine (h.stack q).mono (fun v a ha => ?_) ?_
      · rw [hlook q v hq]
        exact ha
      · rw [hother q hq]
  · have hq : q ≠ p := by
      rintro rfl
      rw [hself, hfds] at hd
      cases hd
    rw [hother q hq] at hd ⊢
    obtain ⟨n, ⟨hn, hcov⟩, hapart⟩ := h.maps q d hd hdm
    refine ⟨n, ⟨hn, fun i hi => ?_⟩, hapart⟩
    obtain ⟨b, y, hb, hy, hrest⟩ := hcov i hi
    exact ⟨b, y, (hlook q _ hq).trans hb, hus.symm ▸ hy, hrest⟩
  · by_cases hq : q = p
    · subst hq
      rw [hself, hfds]
      exact fun d hd => (by cases hd)
    · rw [hother q hq]
      exact h.same q
  · by_cases hq : q = p
    · subst hq
      rw [hself, hfds]
      exact fun d hd => (by cases hd)
    · rw [hother q hq]
      have hmid : (u.upd p f).next_mid = s.next_mid := hum
      rw [hmid]
      exact h.ids q

/-- A process that had no entries loads an executable. -/
theorem load {file : ℕ} {segs : List Segment} {junk : ℕ → Spte} (h : EntryInv s)
    (hs : load s p file segs junk = .ok s') : EntryInv s' := by
  refine load_segments ?_ hs
  exact h.renew rfl rfl rfl rfl (fun _ => rfl) (fun _ => rfl)
    fun _ _ => ⟨FrameOk.plain rfl rfl fun hc => (by cases hc), trivial⟩

/-! ## What comes after the loop around `swap_out` -/

theorem step_load {w : Want} {k : ℕ} {c : Choice} (h : EntryInv s)
    (hpt : (s.procs p).point = .load w k) (hs : step_load s p w k c = .ok s') : EntryInv s' := by
  cases w with
  | entry v write a =>
    obtain ⟨x, -, ⟨-, rfl⟩ | ⟨-, hload⟩⟩ := step_load_entry_spec hs
    · exact h.goto (Quiet.refl p s) rfl ((h.head hpt).keys (fun _ hka => hka) rfl rfl)
    · exact h.load_page hload
  | grow v =>
    rcases step_load_grow_spec hs with rfl | ⟨t, hinst, rfl⟩
    · exact h.exit (Quiet.refl p s)
    · have hpts : (t.procs p).points = (s.procs p).points := by
        rcases install_fault_page_spec hinst with ⟨hc, -⟩ | ⟨-, -, rfl⟩
        · cases hc
        · rw [Mem.upd_self]
          rfl
      have ht : EntryInv t := h.quiet_same (quiet_install (Quiet.refl p s) hinst).1 hpts
      have hnew : EntryInv (allocate_page t p v c.junk) := ht.insert_page _
      exact hnew.ret (Quiet.of_eq rfl rfl rfl rfl) rfl
  | stack =>
    obtain ⟨b, ⟨t, hinst, rfl⟩ | ⟨t, hfree, rfl⟩⟩ := step_load_stack_spec hs
    · obtain ⟨hq, hc⟩ := quiet_install (p := p)
        (Quiet.of_eq rfl rfl rfl rfl : Quiet p s (s.setFrame k b)) hinst
      exact h.ret hq hc
    · obtain ⟨-, rfl⟩ := palloc_free_page_spec hfree
      exact h.exit (Quiet.of_eq rfl rfl rfl rfl)

/-! ## `mmap` -/

/-- **`mmap`** gives the new mapping's pages entries that no page had. -/
theorem mmap {fd addr : ℕ} {junk : ℕ → Spte} (h : EntryInv s)
    (hpt : (s.procs p).points = [.user]) : EntryInv (mmap s p fd addr junk) := by
  cases hd : (s.procs p).fd_list.find? (fun d => d.fd == fd) with
  | none =>
    unfold Vm.mmap
    rw [hd]
    exact h
  | some d =>
    by_cases hok : MmapOk s p addr d
    swap
    · unfold Vm.mmap
      rw [hd]
      dsimp only
      rw [if_pos (not_not.mp hok)]
      exact h
    obtain ⟨hpos, hfree⟩ := hok.pages
    obtain ⟨table, hmmap, hlook⟩ := mmap_eq junk hd hok
    generalize ((s.files d.file_ptr).length + PGSIZE - 1) / PGSIZE = n at hpos hfree hmmap hlook
    rw [hmmap]
    generalize hu : ({ s with
      procs := Function.update s.procs p { s.procs p with
        sup_page_table := table
        fd_list := (s.procs p).fd_list.map (·.mapped_at fd s.next_mid addr) }
      fresh := s.fresh + n
      next_mid := s.next_mid + 1
      sptes := fun b => if s.fresh ≤ b ∧ b < s.fresh + n then some (mmap_entry addr d.file_ptr
        s.next_mid (s.files d.file_ptr).length n (b - s.fresh) (junk (b - s.fresh)))
        else s.sptes b } : Mem) = u
    have hself : u.procs p = { s.procs p with
        sup_page_table := table
        fd_list := (s.procs p).fd_list.map (·.mapped_at fd s.next_mid addr) } := by
      rw [← hu]
      exact Function.update_self _ _ _
    have hother : ∀ q, q ≠ p → u.procs q = s.procs q := fun q hq => by
      rw [← hu]
      exact Function.update_of_ne hq _ _
    have hfresh : u.fresh = s.fresh + n := by rw [← hu]
    have hmid : u.next_mid = s.next_mid + 1 := by rw [← hu]
    have hold : ∀ b y, b < s.fresh → s.sptes b = some y → u.sptes b = some y := fun b y hb hy => by
      rw [← hu]
      exact (if_neg (by omega)).trans hy
    have hnew : ∀ i < n, u.sptes (s.fresh + i) = some (mmap_entry addr d.file_ptr s.next_mid
        (s.files d.file_ptr).length n i (junk i)) := fun i hi => by
      rw [← hu]
      dsimp only
      rw [if_pos (by omega), Nat.add_sub_cancel_left]
    have hlook' : ∀ q w, page_lookup u q w =
        if q = p ∧ addr ≤ w ∧ w < addr + n then some (s.fresh + (w - addr))
        else page_lookup s q w := by
      intro q w
      unfold page_lookup
      by_cases hq : q = p
      · subst hq
        rw [hself]
        simp only [true_and]
        exact hlook w
      · rw [hother q hq, if_neg fun hc => hq hc.1]
    -- what was found is found
    have hmono : ∀ q v a, page_lookup s q v = some a → page_lookup u q v = some a := by
      intro q v a ha
      rw [hlook', if_neg]
      · exact ha
      · rintro ⟨rfl, hle, hlt⟩
        have hnone := hfree (v - addr) (by omega)
        rw [show addr + (v - addr) = v by omega, ha] at hnone
        cases hnone
    have hcase : ∀ q v a, page_lookup u q v = some a →
        (q = p ∧ ∃ i < n, v = addr + i ∧ a = s.fresh + i) ∨ page_lookup s q v = some a := by
      intro q v a ha
      rw [hlook'] at ha
      split at ha
      · rename_i hin
        exact Or.inl ⟨hin.1, v - addr, by omega, by omega, (Option.some.inj ha).symm⟩
      · exact Or.inr ha
    have hcover : ∀ q d' m, (∀ w b, page_lookup s q w = some b → b < s.fresh) → Covers s q d' m →
        Covers u q d' m := by
      rintro q d' m hlt ⟨hm, hcov⟩
      refine ⟨hm, fun i hi => ?_⟩
      obtain ⟨b, y, hb, hy, hrest⟩ := hcov i hi
      exact ⟨b, y, hmono q _ b hb, hold b y (hlt _ b hb) hy, hrest⟩
    -- a mapped descriptor is the new one's, or was mapped before
    have hdesc : ∀ q, ∀ d' ∈ (u.procs q).fd_list, d'.mmapped = true →
        (q = p ∧ d'.mapid = s.next_mid ∧ d'.vaddr = addr) ∨ d' ∈ (s.procs q).fd_list := by
      intro q d' hd' hm'
      by_cases hq : q = p
      · subst hq
        rw [hself] at hd'
        obtain ⟨d₀, hd₀, rfl⟩ := List.mem_map.mp hd'
        unfold FdElem.mapped_at at hm' ⊢
        by_cases hfd : d₀.fd = fd
        · rw [if_pos hfd]
          exact Or.inl ⟨rfl, rfl, rfl⟩
        · rw [if_neg hfd]
          exact Or.inr hd₀
      · rw [hother q hq] at hd'
        exact Or.inr hd'
    refine ⟨fun q v a ha => ?_, fun q r v w a ha hb => ?_, fun q => ?_, fun q d' hd' hm' => ?_,
      fun q d₁ hd₁ d₂ hd₂ hm₁ hm₂ hids => ?_, fun q d' hd' hm' => ?_⟩
    · rw [hfresh]
      rcases hcase q v a ha with ⟨-, i, hi, rfl, rfl⟩ | ha'
      · exact ⟨by omega, _, hnew i hi, rfl⟩
      · obtain ⟨hlt, y, hy, hyv⟩ := h.block q v a ha'
        exact ⟨by omega, y, hold a y hlt hy, hyv⟩
    · rcases hcase q v a ha with ⟨hq, i, -, -, rfl⟩ | ha' <;>
        rcases hcase r w _ hb with ⟨hr, j, -, -, hc⟩ | hb'
      · rw [hq, hr]
      · exact absurd (h.block r w _ hb').1 (by omega)
      · exact absurd (h.block q v _ ha').1 (by omega)
      · exact h.owned q r v w a ha' hb'
    · by_cases hq : q = p
      · subst hq
        have hpts : (u.procs q).points = [.user] := by
          rw [hself]
          exact hpt
        rw [hpts]
        exact ⟨FrameOk.plain rfl rfl fun _ => rfl, trivial⟩
      · rw [hother q hq]
        exact (h.stack q).mono (hmono q) (by rw [hother q hq])
    · rcases hdesc q d' hd' hm' with ⟨rfl, hid, hv⟩ | hold'
      · refine ⟨n, ⟨hpos, fun i hi => ?_⟩, fun d'' hd'' hm'' hne i hi heq => ?_⟩
        · refine ⟨s.fresh + i, _, ?_, hnew i hi, rfl, rfl⟩
          rw [hv, hlook', if_pos ⟨rfl, by omega, by omega⟩, Nat.add_sub_cancel_left]
        · rcases hdesc q d'' hd'' hm'' with ⟨-, hid', -⟩ | hold''
          · exact hne (hid'.trans hid.symm)
          · obtain ⟨m, ⟨hm, hcov⟩, -⟩ := h.maps q d'' hold'' hm''
            obtain ⟨b, y, hb, -⟩ := hcov 0 hm
            rw [Nat.add_zero, ← heq, hv, hfree i hi] at hb
            cases hb
      · obtain ⟨m, hcov, hapart⟩ := h.maps q d' hold' hm'
        refine ⟨m, hcover q d' m (fun w b hb => (h.block q w b hb).1) hcov,
          fun d'' hd'' hm'' hne i hi heq => ?_⟩
        rcases hdesc q d'' hd'' hm'' with ⟨rfl, -, hv⟩ | hold''
        · obtain ⟨b, y, hb, -⟩ := hcov.2 i hi
          rw [heq, hv] at hb
          have hnone := hfree 0 hpos
          rw [Nat.add_zero, hb] at hnone
          cases hnone
        · exact hapart d'' hold'' hm'' hne i hi heq
    · rcases hdesc q d₁ hd₁ hm₁ with ⟨rfl, hid₁, hv₁⟩ | hold₁ <;>
        rcases hdesc q d₂ hd₂ hm₂ with ⟨hq, hid₂, hv₂⟩ | hold₂
      · rw [hv₁, hv₂]
      · exact absurd (h.ids q d₂ hold₂ hm₂) (by omega)
      · exact absurd (h.ids q d₁ hold₁ hm₁) (by omega)
      · exact h.same q d₁ hold₁ d₂ hold₂ hm₁ hm₂ hids
    · rw [hmid]
      rcases hdesc q d' hd' hm' with ⟨-, hid, -⟩ | hold'
      · omega
      · have := h.ids q d' hold' hm'
        omega

/-! ## The end of a mapping and of a process -/

/-- A process that gives up entries: what is still found was found, and its block is there. -/
theorem forget (h : EntryInv s) (hother : ∀ q, q ≠ p → s'.procs q = s.procs q)
    (hf : s'.fresh = s.fresh) (hm : s'.next_mid = s.next_mid)
    (hl : ∀ v a, page_lookup s' p v = some a → page_lookup s p v = some a)
    (hkeep : ∀ q v a, page_lookup s' q v = some a → s'.sptes a = s.sptes a)
    (hfds : ∀ d ∈ (s'.procs p).fd_list, d.mmapped = true → d ∈ (s.procs p).fd_list ∧
      ∀ n, Covers s p d n → ∀ i < n, page_lookup s' p (d.vaddr + i) = page_lookup s p (d.vaddr + i))
    (hst : StackOk s' p (s'.procs p).points) : EntryInv s' := by
  have hlook : ∀ q v a, page_lookup s' q v = some a → page_lookup s q v = some a := by
    intro q v a ha
    by_cases hq : q = p
    · subst hq
      exact hl v a ha
    · unfold page_lookup at ha ⊢
      rw [hother q hq] at ha
      exact ha
  have hfds' : ∀ q, ∀ d ∈ (s'.procs q).fd_list, d.mmapped = true → d ∈ (s.procs q).fd_list ∧
      ∀ n, Covers s q d n → ∀ i < n,
        page_lookup s' q (d.vaddr + i) = page_lookup s q (d.vaddr + i) := by
    intro q d hd hdm
    by_cases hq : q = p
    · subst hq
      exact hfds d hd hdm
    · rw [hother q hq] at hd
      refine ⟨hd, fun n _ i _ => ?_⟩
      unfold page_lookup
      rw [hother q hq]
  refine ⟨fun q v a ha => ?_, fun q r v w a ha hb => ?_, fun q => ?_, fun q d hd hdm => ?_,
    fun q d₁ hd₁ d₂ hd₂ hm₁ hm₂ => ?_, fun q d hd hdm => ?_⟩
  · rw [hf, hkeep q v a ha]
    exact h.block q v a (hlook q v a ha)
  · exact h.owned q r v w a (hlook q v a ha) (hlook r w a hb)
  · by_cases hq : q = p
    · subst hq
      exact hst
    · have hmono : ∀ v a, page_lookup s q v = some a → page_lookup s' q v = some a :=
        fun v a ha => by
          unfold page_lookup at ha ⊢
          rw [hother q hq]
          exact ha
      have hold := (h.stack q).mono hmono (by rw [hother q hq])
      rw [← hother q hq] at hold
      exact hold
  · obtain ⟨hd', hcl⟩ := hfds' q d hd hdm
    obtain ⟨n, ⟨hn, hcov⟩, hapart⟩ := h.maps q d hd' hdm
    refine ⟨n, ⟨hn, fun i hi => ?_⟩, fun d₂ hd₂ hm₂ => hapart d₂ (hfds' q d₂ hd₂ hm₂).1 hm₂⟩
    obtain ⟨b, y, hb, hy, hrest⟩ := hcov i hi
    have hb' := (hcl n ⟨hn, hcov⟩ i hi).trans hb
    exact ⟨b, y, hb', (hkeep q _ b hb').trans hy, hrest⟩
  · exact h.same q d₁ (hfds' q d₁ hd₁ hm₁).1 d₂ (hfds' q d₂ hd₂ hm₂).1 hm₁ hm₂
  · rw [hm]
    exact h.ids q d (hfds' q d hd hdm).1 hdm

/-- `munmap` removes the entry of its mapping's first page. -/
theorem step_unlist {m : Unmap} {c : Choice} (h : EntryInv s)
    (hpt : (s.procs p).point = .unlist m) (hs : step_unlist s p m c = .ok s') : EntryInv s' := by
  obtain ⟨x, frames, bits, hx, -, rfl⟩ := step_unlist_spec hs
  obtain ⟨d, hd, hdm, hid, hfirst, -⟩ := (h.head hpt).unmaps m rfl
  obtain ⟨-, y, hy, hyv⟩ := h.block p _ _ hfirst
  obtain rfl := Option.some.inj (hx.symm.trans hy)
  have hcalls := (h.head hpt).called rfl
  set f : Proc → Proc := fun t => { t with
    sup_page_table := Function.update t.sup_page_table x.user_vaddr none
    fd_list := t.fd_list.map (fun d : FdElem =>
      if d.mmapped && d.mapid == m.mapping then { d with mmapped := false } else d) } with hf
  have hself : ∀ u : Mem, u.procs = s.procs →
      ((u.upd p f).ret p).procs p = (f (s.procs p)).ret := fun u hu => by
    rw [Mem.ret_self, Mem.upd_self, hu]
  generalize hu : ({ s.setPool frames bits with
    frame_table := s.frame_table.filter (fun e => mid_of s c.stale_mid e != m.mapping)
    sptes := Function.update s.sptes m.spte none
    filesys_lock := none } : Mem) = u
  have hup : u.procs = s.procs := by rw [← hu]; rfl
  have hus : u.sptes = Function.update s.sptes m.spte none := by rw [← hu]
  have hret : ∀ t : Proc, t.ret.sup_page_table = t.sup_page_table ∧ t.ret.fd_list = t.fd_list := by
    intro t
    unfold Proc.ret
    cases t.callers <;> exact ⟨rfl, rfl⟩
  have hlook : ∀ v, page_lookup ((u.upd p f).ret p) p v =
      Function.update (s.procs p).sup_page_table x.user_vaddr none v := fun v => by
    unfold page_lookup
    rw [hself u hup, (hret _).1]
  have hfirst' : ∀ v a, page_lookup ((u.upd p f).ret p) p v = some a →
      v ≠ x.user_vaddr ∧ page_lookup s p v = some a := by
    intro v a ha
    rw [hlook] at ha
    have hv : v ≠ x.user_vaddr := by
      rintro rfl
      rw [Function.update_self] at ha
      cases ha
    rw [Function.update_of_ne hv] at ha
    exact ⟨hv, ha⟩
  refine h.forget (p := p) (fun q hq => ?_) ?_ ?_ (fun v a ha => (hfirst' v a ha).2)
    (fun q v a ha => ?_) (fun d' hd' hm' => ?_) ?_
  · rw [Mem.ret_of_ne hq, Mem.upd_of_ne _ hq, hup]
  · rw [← hu]
    rfl
  · rw [← hu]
    rfl
  · -- the block that is freed is found at the first page only
    change u.sptes a = s.sptes a
    rw [hus, Function.update_of_ne]
    rintro rfl
    by_cases hq : q = p
    · subst hq
      obtain ⟨hv, ha'⟩ := hfirst' v _ ha
      exact hv ((h.one_page ha' hfirst).trans hyv.symm)
    · unfold page_lookup at ha
      rw [Mem.ret_of_ne hq, Mem.upd_of_ne _ hq, hup] at ha
      exact hq (h.owned q p v _ _ ha hfirst)
  · rw [hself u hup, (hret _).2] at hd'
    obtain ⟨d₀, hd₀, rfl⟩ := List.mem_map.mp hd'
    by_cases hc : (d₀.mmapped && d₀.mapid == m.mapping) = true
    · rw [if_pos hc] at hm'
      cases hm'
    · rw [if_neg hc] at hm' ⊢
      refine ⟨hd₀, fun n hcov i hi => ?_⟩
      have hne : d.mapid ≠ d₀.mapid := fun heq => by
        rw [hm', ← heq, hid] at hc
        simp at hc
      obtain ⟨n', ⟨hn', hcov'⟩, hapart⟩ := h.maps p d₀ hd₀ hm'
      have hnn : n' = n := by
        obtain ⟨b, z, hb, hz, -, hzn⟩ := hcov.2 0 hcov.1
        obtain ⟨b', z', hb', hz', -, hzn'⟩ := hcov' 0 hn'
        obtain rfl := Option.some.inj (hb.symm.trans hb')
        obtain rfl := Option.some.inj (hz.symm.trans hz')
        exact hzn'.symm.trans hzn
      have hout := hapart d hd hdm hne i (by omega)
      rw [hlook, Function.update_of_ne (by rw [hyv]; exact hout)]
      rfl
  · have hcall : (f (s.procs p)).callers = (s.procs p).callers := rfl
    rw [hself u hup, Proc.ret, hcall]
    rcases hcs : (s.procs p).callers with _ | ⟨c', rest⟩
    · exact ⟨FrameOk.plain rfl rfl fun _ => rfl, trivial⟩
    · rw [hcs] at hcalls
      obtain hnil | hexit := hcalls
      · cases hnil
      · obtain ⟨hc', hrest⟩ := List.cons.inj hexit
        obtain rfl := List.map_eq_nil_iff.mp hrest
        change StackOk _ p [c'.point]
        rw [hc']
        exact ⟨FrameOk.plain rfl rfl fun _ => rfl, trivial⟩

/-- The pages are given up, the entries are not. -/
theorem thread_exit (h : EntryInv s) (hlast : (s.procs p).callers = [])
    (hs : thread_exit s p = .ok s') : EntryInv s' := by
  obtain ⟨frames, bits, -, rfl⟩ := thread_exit_spec hs
  refine h.goto (Quiet.give_up p s frames bits) (by rw [Mem.upd_self]; rfl) ⟨fun v a hva => (by cases hva),
    fun hc => (by cases hc), fun _ => ?_, fun m hm => (by cases hm)⟩
  rw [hlast]
  rfl

theorem step_exit (h : EntryInv s) (hpt : (s.procs p).point = .exit)
    (hs : step_exit s p = .ok s') : EntryInv s' := by
  have hlast := (h.head hpt).last rfl
  rcases step_exit_spec hs with ⟨mapping, rfl⟩ | hexit
  · refine h.quiet ((Quiet.refl p s).upd rfl rfl) ?_
    rw [Mem.upd_self]
    refine ⟨⟨fun v a hva => (by cases hva), fun _ => Or.inr rfl, fun hc => (by cases hc),
      fun m hm => (by cases hm)⟩, FrameOk.plain rfl rfl fun _ => rfl, trivial⟩
  · exact h.thread_exit (List.map_eq_nil_iff.mp hlast) hexit

/-- A process that is gone has no entries. -/
theorem step_reap (h : EntryInv s) (hpt : (s.procs p).point = .reap) :
    EntryInv (step_reap s p) := by
  have hlast := (h.head hpt).last rfl
  have hself := step_reap_self s p
  have hnone : ∀ v, page_lookup (Vm.step_reap s p) p v = none := fun v => by
    unfold page_lookup
    rw [hself]
  have hother : ∀ q, q ≠ p → (Vm.step_reap s p).procs q = s.procs q := fun q => step_reap_of_ne
  refine h.forget (p := p) hother rfl rfl (fun v a ha => ?_) (fun q v a ha => ?_)
    (fun d hd hdm => ?_) ?_
  · rw [hnone] at ha
    cases ha
  · -- what another process still finds is not an entry of `p`
    have hq : q ≠ p := by
      rintro rfl
      rw [hnone] at ha
      cases ha
    unfold page_lookup at ha
    rw [hother q hq] at ha
    change (s.sptes a).filter (fun x => page_lookup s p x.user_vaddr != some a) = s.sptes a
    obtain ⟨-, x, hx, -⟩ := h.block q v a ha
    rw [hx, Option.filter_some, if_pos]
    rw [bne_iff_ne]
    exact fun hc => hq (h.owned q p v _ a ha hc)
  · rw [hself] at hd
    cases hd
  · rw [hself]
    change StackOk _ p (.dead :: (s.procs p).callers.map Caller.point)
    rw [hlast]
    exact ⟨FrameOk.plain rfl rfl fun _ => rfl, trivial⟩

/-! ## The system -/

theorem user_access {v i : ℕ} {store : Option UInt8} {near_esp : Bool} (h : EntryInv s)
    (hpts : (s.procs p).points = [.user]) (hs : user_access s p v i store near_esp = .ok s') :
    EntryInv s' := by
  have hcalls : (s.procs p).callers = [] := List.map_eq_nil_iff.mp (List.cons.inj hpts).2
  have hfault : ∀ write, page_fault s p (v * PGSIZE + i) write near_esp = .ok s' →
      EntryInv s' := fun write hs => by
    have hcs : s.upd p (fun t => { t with callers := [] }) = s := by
      have hid := Function.update_eq_self p s.procs
      unfold Mem.upd
      rw [← hcalls]
      exact congrArg (fun procs => { s with procs := procs }) hid
    exact @fault s s' p [] _ _ _ h trivial (hcs.symm ▸ hs)
  unfold Vm.user_access at hs
  split at hs
  · obtain rfl := Except.ok.inj hs
    exact h
  · split at hs
    · obtain rfl := Except.ok.inj hs
      exact h.quiet_same (p := p) (Quiet.of_eq rfl rfl rfl rfl) rfl
    · exact hfault _ hs
  · exact hfault _ hs

/-- `open` adds a descriptor that is not mapped. -/
theorem open_file (file : ℕ) (h : EntryInv s) (hpts : (s.procs p).points = [.user]) :
    EntryInv (open_file s p file) := by
  have hother : ∀ q, q ≠ p → (Vm.open_file s p file).procs q = s.procs q :=
    fun q hq => Function.update_of_ne hq _ _
  have hself : (Vm.open_file s p file).procs p = { s.procs p with
      fd_list := (s.procs p).fd_list ++ [⟨s.next_fd, file, false, 0, 0⟩] } :=
    Function.update_self _ _ _
  refine h.forget (p := p) hother rfl rfl (fun v a ha => ?_) (fun q v a ha => rfl)
    (fun d hd hdm => ?_) ?_
  · unfold page_lookup at ha ⊢
    rw [hself] at ha
    exact ha
  · rw [hself] at hd
    rcases List.mem_append.mp hd with hd | hd
    · refine ⟨hd, fun n _ i _ => ?_⟩
      unfold page_lookup
      rw [hself]
    · obtain rfl := List.mem_singleton.mp hd
      cases hdm
  · rw [hself]
    change StackOk _ p (s.procs p).points
    rw [hpts]
    exact ⟨FrameOk.plain rfl rfl fun _ => rfl, trivial⟩

/-- **One kernel step** keeps the pointers to entries. -/
theorem run {c : Choice} (h : EntryInv s) (hs : run s p c = .ok s') : EntryInv s' := by
  unfold Vm.run at hs
  cases hpt : (s.procs p).point <;> rw [hpt] at hs
  case get w => exact h.step_get hpt hs
  case evict w => exact h.step_evict hpt hs
  case save w e => exact h.step_save hpt hs
  case writeback w e => exact h.step_writeback hpt hs
  case free w k => exact h.step_free hpt hs
  case load w k => exact h.step_load hpt hs
  case swapin v write a k => exact h.step_swapin hpt hs
  case refill v write a k b => exact h.step_refill hpt hs
  case install v write a k => exact h.step_install hs
  case unmapping mapping => exact h.step_unmapping hpt hs
  case munmap m => exact h.step_munmap hpt hs
  case unlist m => exact h.step_unlist hpt hs
  case exit => exact h.step_exit hpt hs
  case reap =>
    rw [← Except.ok.inj hs]
    exact h.step_reap hpt
  -- user code, a process that is gone and one that never was
  all_goals
    rw [← Except.ok.inj hs]
    exact h

/-- User code runs with no caller below it. -/
theorem user_points (h : EntryInv s) (hu : (s.procs p).inUser = true) :
    (s.procs p).points = [.user] := by
  have hpt := inUser_point hu
  rw [Proc.points, hpt, (h.head hpt).last rfl]

/-- **One event** keeps the pointers to entries. -/
theorem exec {ev : Event} (h : EntryInv s) (hs : exec s ev = .ok s') : EntryInv s' := by
  cases ev with
  | run p c => exact h.run hs
  | load p file segs junk => exact of_guard h (fun _ hs => h.load hs) hs
  | access p v i store near_esp =>
    refine of_guard h (fun hu hs => ?_) hs
    exact h.user_access (h.user_points (Bool.and_eq_true_iff.mp hu).1) hs
  | open_file p file =>
    refine of_guard h (fun hu hs => ?_) hs
    rw [← Except.ok.inj hs]
    exact h.open_file file (h.user_points hu)
  | mmap p fd addr junk =>
    refine of_guard h (fun hu hs => ?_) hs
    rw [← Except.ok.inj hs]
    exact h.mmap (h.user_points hu)
  | munmap p mapping =>
    refine of_guard h (fun hu hs => ?_) hs
    have hnil := (List.cons.inj (h.user_points hu)).2
    rw [← Except.ok.inj hs]
    exact h.goto (Quiet.refl p s) rfl ⟨fun v a hva => (by cases hva), fun _ => Or.inl hnil,
      fun hc => (by cases hc), fun m hm => (by cases hm)⟩
  | exit p =>
    refine of_guard h (fun _ hs => ?_) hs
    rw [← Except.ok.inj hs]
    exact h.exit (Quiet.refl p s)
  | kill p =>
    refine of_guard h (fun hu hs => ?_) hs
    exact h.thread_exit (List.map_eq_nil_iff.mp (List.cons.inj (h.user_points hu)).2) hs

end EntryInv

/-- Before the first process there are no entries. -/
theorem Boot.entries (h : Boot s) : EntryInv s where
  block p v a ha := by
    unfold page_lookup at ha
    rw [h.unused p] at ha
    cases ha
  owned p q v w a ha := by
    unfold page_lookup at ha
    rw [h.unused p] at ha
    cases ha
  stack p := by
    rw [h.unused p]
    exact ⟨FrameOk.plain rfl rfl fun _ => rfl, trivial⟩
  maps p d hd := by
    rw [h.unused p] at hd
    cases hd
  same p d hd := by
    rw [h.unused p] at hd
    cases hd
  ids p d hd := by
    rw [h.unused p] at hd
    cases hd

/-- **In every run the kernel's pointers to entries are good.** -/
theorem reachable_entries (h : Reachable paging (fun _ _ => True) s) : EntryInv s :=
  @Reachable.invariant _ _ paging _ EntryInv (fun _ hb => Boot.entries hb)
    (fun _ _ _ hi _ hs => hi.exec hs) s h

end Pintos.Vm
