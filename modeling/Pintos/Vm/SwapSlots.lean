/-
The sectors of the swap disk that are in use.

`swap_out` marks an entry swapped, and takes a slot of eight sectors for it two statements later;
`swap_in` marks the entry and gives the slot back after it has read it. In between only the holder
of `swap_lock` knows whose slot it is. `Holds` says which entries have a slot in every state, and
the invariant is that the sectors in use are those of these slots and that no two overlap.

`thread_exit` frees the supplemental entries with `page_free`, which gives no slot back. The
condition under which every sector is accounted for is that no process is gone with a page in
the swap disk, on top of what keeps an entry from being listed twice.
-/
import Pintos.Vm.Linking

set_option autoImplicit false

namespace Pintos.Vm

open Pintos.Kernel StepSystem

variable {s s' t : Mem} {p q v k a : ℕ}

/-! ## Who has a slot -/

/-- The entry that `swap_out` has marked and not saved. -/
def Point.saves : Point → Option ℕ
  | .save _ e => e.spte
  | _ => none

/-- The entry that `swap_in` has marked and not read. -/
def Point.refills : Point → Option ℕ
  | .refill _ _ _ _ b => some b
  | _ => none

/-- In `swap_out` or `swap_in` with the lock. -/
def Point.locks : Point → Bool
  | .save _ _ => true
  | .writeback _ _ => true
  | .free _ _ => true
  | .refill _ _ _ _ _ => true
  | _ => false

/-- How many times a process is in `swap_out` or `swap_in`. -/
def Proc.locks (t : Proc) : ℕ := t.points.countP Point.locks

def Saving (s : Mem) (a : ℕ) : Prop := ∃ q, (s.procs q).point.saves = some a

def Refilling (s : Mem) (a : ℕ) : Prop := ∃ q, (s.procs q).point.refills = some a

/-- The entry has a slot: its page is on the swap disk, or is being read from it. -/
def Holds (s : Mem) (a : ℕ) (x : Spte) : Prop :=
  s.sptes a = some x ∧ x.kind = .slot ∧ (x.swapped = true ∧ ¬ Saving s a ∨ Refilling s a)

/-- Sector `n` is in the slot of the entry. -/
def InSlot (x : Spte) (n : ℕ) : Prop := x.disk_sector_idx ≤ n ∧ n < x.disk_sector_idx + 8

/-- The swap table is that of the slots. -/
structure Slots (s : Mem) : Prop where
  bits : ∀ n, s.swap_table.bits n = true ↔ ∃ a x, Holds s a x ∧ InSlot x n
  apart : ∀ a b x y n, Holds s a x → Holds s b y → InSlot x n → InSlot y n → a = b

/-- The swap disk and what speaks of it. -/
structure SlotInv (s : Mem) : Prop where
  slots : Slots s
  locked : ∀ q, 0 < (s.procs q).locks → s.swap_lock = some q
  single : ∀ q, (s.procs q).locks ≤ 1
  found : ∀ a x, s.sptes a = some x → x.swapped = true →
    ∃ q, page_lookup s q x.user_vaddr = some a
  saved : ∀ a x, Saving s a → s.sptes a = some x → x.swapped = true
  refilled : ∀ q a, (s.procs q).point.refills = some a →
    ∃ x, s.sptes a = some x ∧ x.swapped = false ∧ page_lookup s q x.user_vaddr = some a
  gone : ∀ q, (s.procs q).point = .unused ∨ (s.procs q).point = .dead →
    ∀ v, page_lookup s q v = none

/-! ## What keeps a slot -/

/-- The entry is the same as far as the swap disk goes. -/
def Stored (x x' : Spte) : Prop :=
  x'.swapped = x.swapped ∧ x'.disk_sector_idx = x.disk_sector_idx ∧ x'.fixed = x.fixed

theorem Spte.fixed_kind {x x' : Spte} (h : x'.fixed = x.fixed) : x'.kind = x.kind := by
  have hm : x'.mmapped = x.mmapped := (congrArg Spte.mmapped h : x'.fixed.mmapped = _)
  have hl : x'.load_executable = x.load_executable :=
    (congrArg Spte.load_executable h : x'.fixed.load_executable = _)
  have hw : x'.writable = x.writable := (congrArg Spte.writable h : x'.fixed.writable = _)
  unfold Spte.kind
  rw [hm, hl, hw]

theorem InSlot.congr {x x' : Spte} {n : ℕ} (h : InSlot x n)
    (hidx : x'.disk_sector_idx = x.disk_sector_idx) : InSlot x' n := by
  unfold InSlot
  rw [hidx]
  exact h

/-- The same entries have the same slots. -/
theorem Slots.same (h : Slots s) (htable : s'.swap_table = s.swap_table)
    (hback : ∀ a x', Holds s' a x' → ∃ x, Holds s a x ∧ x'.disk_sector_idx = x.disk_sector_idx)
    (hforth : ∀ a x, Holds s a x →
      ∃ x', Holds s' a x' ∧ x'.disk_sector_idx = x.disk_sector_idx) : Slots s' where
  bits n := by
    rw [htable, h.bits n]
    constructor
    · rintro ⟨a, x, hx, hn⟩
      obtain ⟨x', hx', hidx⟩ := hforth a x hx
      exact ⟨a, x', hx', hn.congr hidx⟩
    · rintro ⟨a, x', hx', hn⟩
      obtain ⟨x, hx, hidx⟩ := hback a x' hx'
      exact ⟨a, x, hx, hn.congr hidx.symm⟩
  apart a b x' y' n hx' hy' hn hn' := by
    obtain ⟨x, hx, hidx⟩ := hback a x' hx'
    obtain ⟨y, hy, hidy⟩ := hback b y' hy'
    exact h.apart a b x y n hx hy (hn.congr hidx.symm) (hn'.congr hidy.symm)

/-- The entry of a victim was made. -/
theorem LinkInv.saving_lt {all : Bool} (h : LinkInv all s) (hs : Saving s a) : a < s.fresh := by
  obtain ⟨q, hq⟩ := hs
  cases hpt : (s.procs q).point <;> rw [hpt] at hq
  case save w e => exact (h.head hpt).old e a rfl hq
  all_goals cases hq

/-- **A step that moves no page.** The process neither was nor is between the mark and the
transfer; the entries that stay keep their slots, those that have one stay, and new ones have
none. -/
theorem SlotInv.calm (h : SlotInv s) (hE : EntryInv s) (hL : LinkInv false s)
    (hother : ∀ q, q ≠ p → s'.procs q = s.procs q)
    (hp : (s.procs p).point.saves = none ∧ (s.procs p).point.refills = none)
    (hp' : (s'.procs p).point.saves = none ∧ (s'.procs p).point.refills = none)
    (htable : s'.swap_table = s.swap_table) (hlock : s'.swap_lock = s.swap_lock)
    (hlocks : (s'.procs p).locks ≤ (s.procs p).locks)
    (hback : ∀ a x', s'.sptes a = some x' → (∃ x, s.sptes a = some x ∧ Stored x x') ∨
      x'.swapped = false ∧ s.fresh ≤ a)
    (hforth : ∀ a x, s.sptes a = some x → x.kind = .slot ∧ x.swapped = true ∨ Refilling s a →
      ∃ x', s'.sptes a = some x' ∧ Stored x x')
    (hlookup : ∀ a x, s'.sptes a = some x → ∀ v, page_lookup s p v = some a →
      page_lookup s' p v = some a)
    (hgone : (s'.procs p).point = .unused ∨ (s'.procs p).point = .dead →
      ∀ v, page_lookup s' p v = none) : SlotInv s' := by
  have hsave : ∀ a, Saving s' a ↔ Saving s a := by
    intro a
    refine exists_congr fun q => ?_
    by_cases hq : q = p
    · subst hq
      rw [hp.1, hp'.1]
    · rw [hother q hq]
  have hrefill : ∀ q, (s'.procs q).point.refills = (s.procs q).point.refills := by
    intro q
    by_cases hq : q = p
    · subst hq
      rw [hp.2, hp'.2]
    · rw [hother q hq]
  have hrefilling : ∀ a, Refilling s' a ↔ Refilling s a := fun a =>
    exists_congr fun q => by rw [hrefill q]
  -- an entry that is found is found
  have hlook : ∀ q v a x, s'.sptes a = some x → page_lookup s q v = some a →
      page_lookup s' q v = some a := by
    intro q v a x hx hl
    by_cases hq : q = p
    · subst hq
      exact hlookup a x hx v hl
    · unfold page_lookup at hl ⊢
      rw [hother q hq]
      exact hl
  have hslots : Slots s' := by
    refine h.slots.same htable (fun a x' hx' => ?_) fun a x hx => ?_
    · obtain ⟨hsp, hk, hst⟩ := hx'
      rw [hsave, hrefilling] at hst
      rcases hback a x' hsp with ⟨x, hx, hstored⟩ | ⟨hsw, hle⟩
      · refine ⟨x, ⟨hx, ?_, ?_⟩, hstored.2.1⟩
        · rw [← Spte.fixed_kind hstored.2.2]
          exact hk
        · rw [← hstored.1]
          exact hst
      · -- a new entry is not being read
        rcases hst with ⟨hc, -⟩ | ⟨q, hq⟩
        · rw [hsw] at hc
          cases hc
        · obtain ⟨x, -, -, hl⟩ := h.refilled q a hq
          exact absurd (hE.block q _ a hl).1 (by omega)
    · obtain ⟨hsp, hk, hst⟩ := hx
      obtain ⟨x', hx', hstored⟩ := hforth a x hsp (hst.imp (fun hc => ⟨hk, hc.1⟩) id)
      refine ⟨x', ⟨hx', ?_, ?_⟩, hstored.2.1⟩
      · rw [Spte.fixed_kind hstored.2.2]
        exact hk
      · rw [hsave, hrefilling, hstored.1]
        exact hst
  refine ⟨hslots, fun q hq => ?_, fun q => ?_, fun a x' hx' hsw => ?_, fun a x' hs hx' => ?_,
    fun q a hq => ?_, fun q hq v => ?_⟩
  · rw [hlock]
    by_cases hqp : q = p
    · subst hqp
      exact h.locked q (lt_of_lt_of_le hq hlocks)
    · rw [hother q hqp] at hq
      exact h.locked q hq
  · by_cases hqp : q = p
    · subst hqp
      exact hlocks.trans (h.single q)
    · rw [hother q hqp]
      exact h.single q
  · rcases hback a x' hx' with ⟨x, hx, hst⟩ | ⟨hc, -⟩
    · obtain ⟨q, hl⟩ := h.found a x hx (hst.1.symm.trans hsw)
      rw [Spte.fixed_vaddr hst.2.2]
      exact ⟨q, hlook q _ a x' hx' hl⟩
    · rw [hsw] at hc
      cases hc
  · have hs := (hsave a).mp hs
    rcases hback a x' hx' with ⟨x, hx, hst⟩ | ⟨-, hle⟩
    · exact hst.1.trans (h.saved a x hs hx)
    · exact absurd (hL.saving_lt hs) (by omega)
  · rw [hrefill] at hq
    obtain ⟨x, hx, hsw, hl⟩ := h.refilled q a hq
    obtain ⟨x', hx', hst⟩ := hforth a x hx (Or.inr ⟨q, hq⟩)
    refine ⟨x', hx', hst.1.trans hsw, ?_⟩
    rw [Spte.fixed_vaddr hst.2.2]
    exact hlook q _ a x' hx' hl
  · by_cases hqp : q = p
    · subst hqp
      exact hgone hq v
    · rw [hother q hqp] at hq
      unfold page_lookup
      rw [hother q hqp]
      exact h.gone q hq v

/-- The entries are as they were, as far as the swap disk goes. -/
structure Stays (s s' : Mem) : Prop where
  back : ∀ a x', s'.sptes a = some x' → ∃ x, s.sptes a = some x ∧ Stored x x'
  forth : ∀ a x, s.sptes a = some x → ∃ x', s'.sptes a = some x' ∧ Stored x x'

theorem Stays.of_eq (h : s'.sptes = s.sptes) : Stays s s' where
  back a x' hx' := ⟨x', by rw [← h]; exact hx', rfl, rfl, rfl⟩
  forth a x hx := ⟨x, by rw [h]; exact hx, rfl, rfl, rfl⟩

theorem Stays.of_set {x y : Spte} (h : s'.sptes = Function.update s.sptes a (some y))
    (hx : s.sptes a = some x) (hst : Stored x y) : Stays s s' where
  back b z hz := by
    rw [h] at hz
    by_cases hb : b = a
    · subst hb
      rw [Function.update_self] at hz
      obtain rfl := Option.some.inj hz
      exact ⟨x, hx, hst⟩
    · rw [Function.update_of_ne hb] at hz
      exact ⟨z, hz, rfl, rfl, rfl⟩
  forth b z hz := by
    rw [h]
    by_cases hb : b = a
    · subst hb
      obtain rfl := Option.some.inj (hx.symm.trans hz)
      exact ⟨y, Function.update_self _ _ _, hst⟩
    · exact ⟨z, by rw [Function.update_of_ne hb]; exact hz, rfl, rfl, rfl⟩

/-- Neither before nor after a transfer. -/
def Point.still (pt : Point) : Prop := pt.saves = none ∧ pt.refills = none

theorem Proc.ret_still (t : Proc) (h : ∀ c ∈ t.callers, c.point.still) : t.ret.point.still := by
  unfold Proc.ret
  cases hc : t.callers with
  | nil => exact ⟨rfl, rfl⟩
  | cons c rest => exact h c (by rw [hc]; exact List.mem_cons_self)

theorem Proc.ret_live (t : Proc) : t.ret.point.live = true := by
  unfold Proc.ret
  cases t.callers with
  | nil => rfl
  | cons c rest => cases c <;> rfl

/-- What is below the top of a stack moves no page. -/
theorem Caller.still (c : Caller) : c.point.still := by cases c <;> exact ⟨rfl, rfl⟩

theorem Proc.locks_goto (t : Proc) {pt : Point} (h : pt.locks = true → t.point.locks = true) :
    ({ t with point := pt } : Proc).locks ≤ t.locks := by
  change (pt :: t.callers.map Caller.point).countP Point.locks ≤
    (t.point :: t.callers.map Caller.point).countP Point.locks
  rw [List.countP_cons, List.countP_cons]
  cases hpt : pt.locks with
  | false =>
    rw [if_neg (by simp)]
    omega
  | true => rw [if_pos rfl, if_pos (h hpt)]

theorem Proc.locks_cons (t : Proc) : t.locks =
    (t.callers.map Caller.point).countP Point.locks + if t.point.locks = true then 1 else 0 :=
  List.countP_cons

theorem Proc.locks_ret (t : Proc) : t.ret.locks ≤ t.locks := by
  unfold Proc.locks
  rcases Proc.ret_points t with ⟨hpts, -⟩ | hpts
  · rw [hpts]
    exact Nat.zero_le _
  · rw [hpts]
    exact (List.sublist_cons_self _ _).countP_le

namespace SlotInv

/-- A quiet step between two points at which no page is moved. -/
theorem quiet (h : SlotInv s) (hE : EntryInv s) (hL : LinkInv false s) (hq : Quiet p s s')
    (hst : Stays s s') (hp : (s.procs p).point.still) (hp' : (s'.procs p).point.still)
    (htable : s'.swap_table = s.swap_table) (hlock : s'.swap_lock = s.swap_lock)
    (hlocks : (s'.procs p).locks ≤ (s.procs p).locks)
    (hlive : (s'.procs p).point = .unused ∨ (s'.procs p).point = .dead →
      (s.procs p).point = .unused ∨ (s.procs p).point = .dead) : SlotInv s' :=
  h.calm hE hL hq.other hp hp' htable hlock hlocks (fun a x' hx' => Or.inl (hst.back a x' hx'))
    (fun a x hx _ => hst.forth a x hx) (fun _ _ _ v hl => (hq.page_lookup p v).trans hl)
    fun hc v => (hq.page_lookup p v).trans (h.gone p (hlive hc) v)

theorem goto {pt pt' : Point} (h : SlotInv s) (hE : EntryInv s) (hL : LinkInv false s)
    (hpt : (s.procs p).point = pt) (hp : pt.still) (hp' : pt'.still)
    (hlocks : pt'.locks = true → pt.locks = true) (hlive : pt'.live = true) (hq : Quiet p s t)
    (hst : Stays s t) (hprocs : t.procs = s.procs) (htable : t.swap_table = s.swap_table)
    (hlock : t.swap_lock = s.swap_lock) : SlotInv (t.goto p pt') := by
  have hself : (t.goto p pt').procs p = { s.procs p with point := pt' } := by
    rw [Mem.goto_self, hprocs]
  refine h.quiet hE hL (hq.goto pt') ⟨hst.back, hst.forth⟩ (hpt ▸ hp) ?_ htable hlock ?_
    fun hc => ?_
  · rw [hself]
    exact hp'
  · rw [hself]
    exact (s.procs p).locks_goto fun hl => by rw [hpt]; exact hlocks hl
  · rw [hself] at hc
    rcases hc with hc | hc <;> · rw [show pt' = _ from hc] at hlive; cases hlive

theorem ret {pt : Point} (h : SlotInv s) (hE : EntryInv s) (hL : LinkInv false s)
    (hpt : (s.procs p).point = pt) (hp : pt.still) (hq : Quiet p s t) (hst : Stays s t)
    (hc : (t.procs p).callers = (s.procs p).callers) (htable : t.swap_table = s.swap_table)
    (hlock : t.swap_lock = s.swap_lock) : SlotInv (t.ret p) := by
  refine h.quiet hE hL hq.ret ⟨hst.back, hst.forth⟩ (hpt ▸ hp) ?_ htable hlock ?_ fun hd => ?_
  · rw [Mem.ret_self]
    exact Proc.ret_still _ fun c _ => c.still
  · rw [Mem.ret_self]
    rcases Proc.ret_points (t.procs p) with ⟨hpts, -⟩ | hpts
    · unfold Proc.locks
      rw [hpts]
      exact Nat.zero_le _
    · unfold Proc.locks
      rw [hpts, hc]
      exact (List.sublist_cons_self _ _).countP_le
  · have hlive := (t.procs p).ret_live
    rw [Mem.ret_self] at hd
    rcases hd with hd | hd <;> · rw [hd] at hlive; cases hlive

theorem exit {pt : Point} (h : SlotInv s) (hE : EntryInv s) (hL : LinkInv false s)
    (hpt : (s.procs p).point = pt) (hp : pt.still) (hq : Quiet p s t) (hst : Stays s t)
    (htable : t.swap_table = s.swap_table) (hlock : t.swap_lock = s.swap_lock) :
    SlotInv (t.exit p) := by
  refine h.quiet hE hL hq.exit ⟨hst.back, hst.forth⟩ (hpt ▸ hp) ?_ htable hlock ?_ fun hd => ?_
  · rw [Mem.exit_self]
    exact ⟨rfl, rfl⟩
  · rw [Mem.exit_self]
    exact Nat.zero_le _
  · rw [Mem.exit_self] at hd
    rcases hd with hd | hd <;> cases hd

theorem fault {cs : List Caller} {addr : ℕ} {write near_esp : Bool} (h : SlotInv s)
    (hE : EntryInv s) (hL : LinkInv false s) (hp : (s.procs p).point.still)
    (hcs : (cs.map Caller.point).countP Point.locks ≤ (s.procs p).locks)
    (hs : page_fault (s.upd p (fun t => { t with callers := cs })) p addr write near_esp
      = .ok s') : SlotInv s' := by
  have hq : Quiet p s (s.upd p (fun t => { t with callers := cs })) := (Quiet.refl p s).upd rfl rfl
  have hst : Stays s (s.upd p (fun t => { t with callers := cs })) := Stays.of_eq rfl
  have hgo : ∀ w : Want, SlotInv ((s.upd p (fun t => { t with callers := cs })).goto p (.get w)) :=
    fun w => by
      have hself : ((s.upd p (fun t => { t with callers := cs })).goto p (.get w)).procs p =
          { s.procs p with
            callers := cs
            point := .get w } := by
        rw [Mem.goto_self, Mem.upd_self]
      refine h.quiet hE hL (hq.goto _) ⟨hst.back, hst.forth⟩ hp ?_ rfl rfl ?_ fun hc => ?_
      · rw [hself]
        exact ⟨rfl, rfl⟩
      · rw [hself]
        exact hcs
      · rw [hself] at hc
        rcases hc with hc | hc <;> cases hc
  rcases page_fault_spec hs with rfl | ⟨-, ⟨a, x, -, -, -, -, rfl⟩ | ⟨-, -, rfl⟩⟩
  · exact h.exit hE hL rfl hp hq hst rfl rfl
  · exact hgo _
  · exact hgo _

/-! ## The lock -/

theorem not_locks (h : SlotInv s) (hlock : s.swap_lock ≠ some q) : (s.procs q).locks = 0 := by
  by_contra hne
  exact hlock (h.locked q (Nat.pos_of_ne_zero hne))

end SlotInv

/-- A process that does not hold the lock moves no page. -/
theorem still_of_locks (h : (s.procs q).locks = 0) : (s.procs q).point.still := by
  have hpt : (s.procs q).point.locks = false := by
    unfold Proc.locks at h
    exact Bool.eq_false_of_not_eq_true (List.countP_eq_zero.mp h _ List.mem_cons_self)
  cases hp : (s.procs q).point <;> rw [hp] at hpt <;> first | exact ⟨rfl, rfl⟩ | cases hpt

namespace SlotInv

/-- Only the holder of the lock saves a page. -/
theorem saving_iff (h : SlotInv s) (hlock : ∀ q, q ≠ p → s.swap_lock ≠ some q) :
    Saving s a ↔ (s.procs p).point.saves = some a := by
  refine ⟨fun ⟨q, hq⟩ => ?_, fun hp => ⟨p, hp⟩⟩
  by_cases hqp : q = p
  · rw [← hqp]
    exact hq
  · rw [(still_of_locks (h.not_locks (hlock q hqp))).1] at hq
    cases hq

/-- Only the holder of the lock reads one. -/
theorem refilling_iff (h : SlotInv s) (hlock : ∀ q, q ≠ p → s.swap_lock ≠ some q) :
    Refilling s a ↔ (s.procs p).point.refills = some a := by
  refine ⟨fun ⟨q, hq⟩ => ?_, fun hp => ⟨p, hp⟩⟩
  by_cases hqp : q = p
  · rw [← hqp]
    exact hq
  · rw [(still_of_locks (h.not_locks (hlock q hqp))).2] at hq
    cases hq

/-- The process gives the lock back. -/
theorem unlock (h : SlotInv s) (hlock : s.swap_lock = some p) (h0 : (s.procs p).locks = 0) :
    SlotInv { s with swap_lock := none } := by
  refine ⟨⟨h.slots.bits, h.slots.apart⟩, fun q hq => ?_, h.single, h.found, h.saved, h.refilled,
    h.gone⟩
  -- nobody else is in `swap_out` or `swap_in`
  have hqp := h.locked q hq
  rw [hlock] at hqp
  obtain rfl := Option.some.inj hqp
  exact absurd h0 hq.ne'

/-- The lock that is free is taken. -/
theorem lock (h : SlotInv s) (hlock : s.swap_lock = none) :
    SlotInv { s with swap_lock := some p } := by
  refine ⟨⟨h.slots.bits, h.slots.apart⟩, fun q hq => ?_, h.single, h.found, h.saved, h.refilled,
    h.gone⟩
  have h0 := h.not_locks (q := q) (by rw [hlock]; exact nofun)
  exact absurd h0 hq.ne'

/-! ## Moving a page -/

/-- **A step of the one process that may hold the lock.** Nobody else is between a mark and a
transfer, before or after. -/
theorem moved (h : SlotInv s) (hfree : ∀ q, q ≠ p → s.swap_lock ≠ some q)
    (hother : ∀ q, q ≠ p → s'.procs q = s.procs q)
    (hlook : ∀ v, page_lookup s' p v = page_lookup s p v) (hslots : Slots s')
    (hlock : 0 < (s'.procs p).locks → s'.swap_lock = some p) (hsingle : (s'.procs p).locks ≤ 1)
    (hfound : ∀ b y, s'.sptes b = some y → y.swapped = true →
      ∃ q, page_lookup s q y.user_vaddr = some b)
    (hsaved : ∀ b y, (s'.procs p).point.saves = some b → s'.sptes b = some y → y.swapped = true)
    (hrefilled : ∀ b, (s'.procs p).point.refills = some b →
      ∃ y, s'.sptes b = some y ∧ y.swapped = false ∧ page_lookup s p y.user_vaddr = some b)
    (hlive : (s'.procs p).point.live = true) : SlotInv s' := by
  have hall : ∀ q v, page_lookup s' q v = page_lookup s q v := by
    intro q v
    by_cases hq : q = p
    · rw [hq]
      exact hlook v
    · unfold page_lookup
      rw [hother q hq]
  have hstill : ∀ q, q ≠ p → (s'.procs q).point.still := fun q hq => by
    rw [hother q hq]
    exact still_of_locks (h.not_locks (hfree q hq))
  refine ⟨hslots, fun q hq => ?_, fun q => ?_, fun b y hy hsw => ?_, fun b y ⟨q, hq⟩ hy => ?_,
    fun q b hq => ?_, fun q hq v => ?_⟩
  · by_cases hqp : q = p
    · rw [hqp] at hq ⊢
      exact hlock hq
    · rw [hother q hqp, h.not_locks (hfree q hqp)] at hq
      cases hq
  · by_cases hqp : q = p
    · rw [hqp]
      exact hsingle
    · rw [hother q hqp]
      exact h.single q
  · obtain ⟨q, hl⟩ := hfound b y hy hsw
    exact ⟨q, (hall _ _).trans hl⟩
  · by_cases hqp : q = p
    · rw [hqp] at hq
      exact hsaved b y hq hy
    · rw [(hstill q hqp).1] at hq
      cases hq
  · by_cases hqp : q = p
    · rw [hqp] at hq ⊢
      obtain ⟨y, hy, hsw, hl⟩ := hrefilled b hq
      exact ⟨y, hy, hsw, (hlook _).trans hl⟩
    · rw [(hstill q hqp).2] at hq
      cases hq
  · rw [hall]
    by_cases hqp : q = p
    · rw [hqp] at hq
      rcases hq with hq | hq <;> · rw [hq] at hlive; cases hlive
    · rw [hother q hqp] at hq
      exact h.gone q hq v

/-- **`swap_out` marks its victim**: it had no slot, and has none yet. -/
theorem step_evict {w : Want} (h : SlotInv s) (hE : EntryInv s) (hL : LinkInv false s)
    (hpt : (s.procs p).point = .evict w) (hs : step_evict s p w = .ok s') : SlotInv s' := by
  rcases step_evict_spec hs with ⟨rfl, -⟩ | ⟨hlock, e, rest, a, x, htable, ha, hx, -, rfl⟩
  · exact h
  have he : e ∈ s.frame_table := by
    rw [htable]
    exact List.mem_cons_self
  have hfree : ∀ q, s.swap_lock ≠ some q := fun q => by
    rw [hlock]
    exact nofun
  have hnosave : ∀ b, ¬ Saving s b := fun b hb => by
    rw [h.saving_iff (p := p) fun q _ => hfree q, hpt] at hb
    cases hb
  have hnorefill : ∀ b, ¬ Refilling s b := fun b hb => by
    rw [h.refilling_iff (p := p) fun q _ => hfree q, hpt] at hb
    cases hb
  set u : Mem := { s.setSpte a { x with swapped := true } with
    frame_table := rest
    swap_lock := some p }.upd p (fun t => { t with
      pagedir := Function.update t.pagedir x.user_vaddr none
      point := .save w e }) with hu
  have hself : u.procs p = { s.procs p with
      pagedir := Function.update (s.procs p).pagedir x.user_vaddr none
      point := .save w e } := Mem.upd_self _ _ _
  have hother : ∀ q, q ≠ p → u.procs q = s.procs q := fun q hq => Mem.upd_of_ne _ hq
  have hsptes : u.sptes = Function.update s.sptes a (some { x with swapped := true }) := rfl
  -- the victim is the one entry that is being saved
  have hsave : ∀ b, Saving u b ↔ b = a := by
    intro b
    constructor
    · rintro ⟨q, hq⟩
      by_cases hqp : q = p
      · subst hqp
        rw [hself] at hq
        exact Option.some.inj (hq.symm.trans ha)
      · rw [hother q hqp] at hq
        exact absurd ⟨q, hq⟩ (hnosave b)
    · rintro rfl
      exact ⟨p, by rw [hself]; exact ha⟩
  have hrefill : ∀ b, ¬ Refilling u b := by
    rintro b ⟨q, hq⟩
    by_cases hqp : q = p
    · subst hqp
      rw [hself] at hq
      cases hq
    · rw [hother q hqp] at hq
      exact hnorefill b ⟨q, hq⟩
  have hresident : x.kind = .slot → x.swapped = false := fun hk => by
    refine hL.resident e he a x ha ⟨x, hx, ?_⟩ hx
    unfold Spte.kind at hk
    by_contra hm
    rw [if_pos (Bool.eq_true_of_not_eq_false hm)] at hk
    cases hk
  have hslots : Slots u := by
    refine h.slots.same rfl (fun b y hy => ?_) fun b y hy => ?_
    · obtain ⟨hsp, hk, ⟨hsw, hns⟩ | hr⟩ := hy
      · rw [hsave] at hns
        rw [hsptes, Function.update_of_ne hns] at hsp
        exact ⟨y, ⟨hsp, hk, Or.inl ⟨hsw, hnosave b⟩⟩, rfl⟩
      · exact absurd hr (hrefill b)
    · obtain ⟨hsp, hk, ⟨hsw, -⟩ | hr⟩ := hy
      · have hb : b ≠ a := by
          rintro rfl
          obtain rfl := Option.some.inj (hx.symm.trans hsp)
          rw [hresident hk] at hsw
          cases hsw
        refine ⟨y, ⟨?_, hk, Or.inl ⟨hsw, fun hc => hb ((hsave b).mp hc)⟩⟩, rfl⟩
        rw [hsptes, Function.update_of_ne hb]
        exact hsp
      · exact absurd hr (hnorefill b)
  have hlocks : (u.procs p).locks = 1 := by
    have h0 := h.not_locks (hfree p)
    unfold Proc.locks Proc.points at h0 ⊢
    rw [List.countP_cons] at h0
    rw [hself, List.countP_cons]
    change ((s.procs p).callers.map Caller.point).countP Point.locks + 1 = 1
    omega
  refine h.moved (fun q _ => hfree q) hother (fun v => by unfold page_lookup; rw [hself]) hslots
    (fun _ => rfl) hlocks.le (fun b y hy hsw => ?_) (fun b y hb hy => ?_) (fun b hb => ?_) ?_
  · rw [hsptes] at hy
    by_cases hb : b = a
    · subst hb
      rw [Function.update_self] at hy
      obtain rfl := Option.some.inj hy
      exact ⟨e.owner, hL.owns e he b x ha hx⟩
    · rw [Function.update_of_ne hb] at hy
      exact h.found b y hy hsw
  · obtain rfl := (hsave b).mp ⟨p, hb⟩
    rw [hsptes, Function.update_self] at hy
    obtain rfl := Option.some.inj hy
    rfl
  · exact absurd ⟨p, hb⟩ (hrefill b)
  · rw [hself]
    rfl

/-- The process that is in `swap_out` or `swap_in` at the top of its stack has the lock, and is
in neither below. -/
theorem top_locks (h : SlotInv s) (hpt : (s.procs p).point.locks = true) :
    s.swap_lock = some p ∧ ((s.procs p).callers.map Caller.point).countP Point.locks = 0 := by
  have hone := h.single p
  have hall := (s.procs p).locks_cons
  rw [if_pos hpt] at hall
  exact ⟨h.locked p (by omega), by omega⟩

theorem top_free (h : SlotInv s) (hpt : (s.procs p).point.locks = true) :
    ∀ q, q ≠ p → s.swap_lock ≠ some q := fun q hq hc => by
  rw [(h.top_locks hpt).1] at hc
  exact hq (Option.some.inj hc).symm

/-- **`swap_out` saves its victim**: a page for the swap disk gets a slot of free sectors, any
other page has none. -/
theorem step_save {w : Want} {e : Fte} (h : SlotInv s)
    (hpt : (s.procs p).point = .save w e) (hs : step_save s p w e = .ok s') : SlotInv s' := by
  obtain ⟨hlock, hrest⟩ := h.top_locks (p := p) (by rw [hpt]; rfl)
  have hfree := h.top_free (p := p) (by rw [hpt]; rfl)
  have hnorefill : ∀ b, ¬ Refilling s b := fun b hb => by
    rw [h.refilling_iff hfree, hpt] at hb
    cases hb
  have hsave : ∀ b, Saving s b ↔ e.spte = some b := fun b => by
    rw [h.saving_iff hfree, hpt]
    rfl
  -- after the step nobody is between the mark and the transfer
  have hdone : ∀ (u : Mem) (pt : Point), u.procs = s.procs → pt.still → ∀ b,
      ¬ Saving (u.goto p pt) b ∧ ¬ Refilling (u.goto p pt) b := by
    intro u pt hu hstill b
    constructor <;> rintro ⟨q, hq⟩ <;> by_cases hqp : q = p
    · rw [hqp, Mem.goto_self] at hq
      cases hstill.1.symm.trans hq
    · rw [Mem.goto_of_ne _ hqp, hu] at hq
      cases (still_of_locks (h.not_locks (hfree q hqp))).1.symm.trans hq
    · rw [hqp, Mem.goto_self] at hq
      cases hstill.2.symm.trans hq
    · rw [Mem.goto_of_ne _ hqp, hu] at hq
      cases (still_of_locks (h.not_locks (hfree q hqp))).2.symm.trans hq
  have hmoved : ∀ (u : Mem) (pt : Point), u.procs = s.procs → pt.still → pt.locks = true →
      pt.live = true → u.swap_lock = some p → Slots (u.goto p pt) →
      (∀ b y, u.sptes b = some y → y.swapped = true →
        ∃ q, page_lookup s q y.user_vaddr = some b) → SlotInv (u.goto p pt) := by
    intro u pt hu hstill hlocks hlive hlk hslots hfound
    have hself : (u.goto p pt).procs p = { s.procs p with point := pt } := by
      rw [Mem.goto_self, hu]
    have hone : ((u.goto p pt).procs p).locks = 1 := by
      rw [hself, Proc.locks_cons, if_pos hlocks]
      change ((s.procs p).callers.map Caller.point).countP Point.locks + 1 = 1
      omega
    refine h.moved hfree (fun q hq => ?_) (fun v => ?_) hslots (fun _ => hlk) hone.le hfound
      (fun b y hb => ?_) (fun b hb => ?_) ?_
    · rw [Mem.goto_of_ne _ hq, hu]
    · unfold page_lookup
      rw [hself]
    · rw [hself] at hb
      cases hstill.1.symm.trans hb
    · rw [hself] at hb
      cases hstill.2.symm.trans hb
    · rw [hself]
      exact hlive
  obtain ⟨a, x, ha, hx, hcase⟩ := step_save_spec hs
  have hsw : x.swapped = true := h.saved a x ((hsave a).mpr ha) hx
  -- a page that does not go to the swap disk
  have hother : x.kind ≠ .slot → ∀ (u : Mem) (pt : Point), u.procs = s.procs →
      u.sptes = s.sptes → u.swap_table = s.swap_table → u.swap_lock = some p → pt.still →
      pt.locks = true → pt.live = true → SlotInv (u.goto p pt) := by
    intro hk u pt hu husp hut hul hstill hlocks hlive
    refine hmoved u pt hu hstill hlocks hlive hul ?_ fun b y hy => h.found b y (husp ▸ hy)
    refine h.slots.same hut (fun b y hy => ?_) fun b y hy => ?_
    · obtain ⟨hsp, hky, ⟨hswy, -⟩ | hr⟩ := hy
      · refine ⟨y, ⟨husp ▸ hsp, hky, Or.inl ⟨hswy, fun hc => ?_⟩⟩, rfl⟩
        obtain rfl := Option.some.inj (ha.symm.trans ((hsave b).mp hc))
        obtain rfl := Option.some.inj (hx.symm.trans (husp ▸ hsp))
        exact hk hky
      · exact absurd hr (hdone u pt hu hstill b).2
    · obtain ⟨hsp, hky, ⟨hswy, -⟩ | hr⟩ := hy
      · exact ⟨y, ⟨husp.symm ▸ hsp, hky, Or.inl ⟨hswy, (hdone u pt hu hstill b).1⟩⟩, rfl⟩
      · exact absurd hr (hnorefill b)
  rcases hcase with ⟨hk, -, ⟨rfl, -⟩ | ⟨-, rfl⟩⟩ | ⟨hk, rfl⟩ | ⟨hk, i, hscan, rfl⟩
  · exact h
  · exact hother (by rw [hk]; exact nofun) { s with filesys_lock := some p } _ rfl rfl rfl hlock
      ⟨rfl, rfl⟩ rfl rfl
  · refine hother ?_ s _ rfl rfl rfl hlock ⟨rfl, rfl⟩ rfl rfl
    rcases hk with ⟨hk, -⟩ | hk <;> · rw [hk]; exact nofun
  · -- the slot: eight sectors that were free
    obtain ⟨-, -, hbits⟩ := bitmap_scan_some hscan
    set u : Mem := { s.setSpte a { x with disk_sector_idx := i } with
      swap_device := write_sectors s.swap_device i (s.frames e.frame)
      swap_table := slot_set s.swap_table i true } with hu
    have husp : u.sptes = Function.update s.sptes a (some { x with disk_sector_idx := i }) := rfl
    have hdone' := hdone u (.free w e.frame) rfl ⟨rfl, rfl⟩
    -- who has a slot after the step
    have hholds : ∀ b y, Holds (u.goto p (.free w e.frame)) b y ↔
        b = a ∧ y = { x with disk_sector_idx := i } ∨ b ≠ a ∧ Holds s b y := by
      intro b y
      by_cases hb : b = a
      · subst hb
        constructor
        · rintro ⟨hsp, -, -⟩
          change u.sptes b = some y at hsp
          rw [husp, Function.update_self] at hsp
          exact Or.inl ⟨rfl, (Option.some.inj hsp).symm⟩
        · rintro (⟨-, rfl⟩ | ⟨hc, -⟩)
          · exact ⟨Function.update_self _ _ _, hk, Or.inl ⟨hsw, (hdone' b).1⟩⟩
          · exact absurd rfl hc
      · have hsp : (u.goto p (.free w e.frame)).sptes b = s.sptes b :=
          Function.update_of_ne hb _ _
        have hns : ¬ Saving s b := fun hc =>
          hb (Option.some.inj (((hsave b).mp hc).symm.trans ha))
        unfold Holds
        rw [hsp]
        constructor
        · rintro ⟨hy, hky, ⟨hswy, -⟩ | hr⟩
          · exact Or.inr ⟨hb, hy, hky, Or.inl ⟨hswy, hns⟩⟩
          · exact absurd hr (hdone' b).2
        · rintro (⟨hc, -⟩ | ⟨-, hy, hky, ⟨hswy, -⟩ | hr⟩)
          · exact absurd hc hb
          · exact ⟨hy, hky, Or.inl ⟨hswy, (hdone' b).1⟩⟩
          · exact absurd hr (hnorefill b)
    have hclear : ∀ b y n, Holds s b y → InSlot y n → ¬ (i ≤ n ∧ n < i + 8) := by
      intro b y n hy hn hi
      have hset := (h.slots.bits n).mpr ⟨b, y, hy, hn⟩
      have hclr := hbits (n - i) (by omega)
      rw [show i + (n - i) = n by omega, hset] at hclr
      cases hclr
    refine hmoved u _ rfl ⟨rfl, rfl⟩ rfl rfl hlock ⟨fun n => ?_, fun b c y z n hy hz hn hn' => ?_⟩
      fun b y hy hswy => ?_
    · change (if i ≤ n ∧ n < i + 8 then true else s.swap_table.bits n) = true ↔ _
      by_cases hi : i ≤ n ∧ n < i + 8
      · rw [if_pos hi]
        exact iff_of_true rfl ⟨a, _, (hholds a _).mpr (Or.inl ⟨rfl, rfl⟩), hi⟩
      · rw [if_neg hi, h.slots.bits n]
        refine exists_congr fun b => exists_congr fun y => ?_
        rw [hholds]
        constructor
        · rintro ⟨hy, hn⟩
          refine ⟨Or.inr ⟨?_, hy⟩, hn⟩
          rintro rfl
          obtain ⟨hsp, -, ⟨-, hns⟩ | hr⟩ := hy
          · exact hns ((hsave b).mpr ha)
          · exact hnorefill b hr
        · rintro ⟨⟨-, rfl⟩ | ⟨-, hy⟩, hn⟩
          · exact absurd hn hi
          · exact ⟨hy, hn⟩
    · rcases (hholds b y).mp hy with ⟨rfl, rfl⟩ | ⟨-, hold⟩ <;>
        rcases (hholds c z).mp hz with ⟨rfl, rfl⟩ | ⟨-, hold'⟩
      · rfl
      · exact absurd hn (hclear c z n hold' hn')
      · exact absurd hn' (hclear b y n hold hn)
      · exact h.slots.apart b c y z n hold hold' hn hn'
    · rw [husp] at hy
      by_cases hb : b = a
      · subst hb
        rw [Function.update_self] at hy
        obtain rfl := Option.some.inj hy
        exact h.found b x hx hsw
      · rw [Function.update_of_ne hb] at hy
        exact h.found b y hy hswy

/-- **`swap_in` marks its page**, which has its slot until it is read. -/
theorem step_swapin {v a k : ℕ} {write : Bool} (h : SlotInv s) (hE : EntryInv s)
    (hL : LinkInv false s) (hpt : (s.procs p).point = .swapin v write a k)
    (hs : step_swapin s p v write a k = .ok s') : SlotInv s' := by
  rcases step_swapin_spec hs with ⟨rfl, -⟩ | ⟨hlock, b, x, hl, hx, ⟨hsw, rfl⟩ | ⟨-, rfl⟩⟩
  · exact h
  · have hfree : ∀ q, s.swap_lock ≠ some q := fun q => by
      rw [hlock]
      exact nofun
    have hnosave : ∀ c, ¬ Saving s c := fun c hc => by
      rw [h.saving_iff (p := p) fun q _ => hfree q, hpt] at hc
      cases hc
    have hnorefill : ∀ c, ¬ Refilling s c := fun c hc => by
      rw [h.refilling_iff (p := p) fun q _ => hfree q, hpt] at hc
      cases hc
    obtain ⟨-, y, hy, hyv⟩ := hE.block p v b hl
    obtain rfl := Option.some.inj (hx.symm.trans hy)
    set u : Mem := ({ s with
      swap_lock := some p
      frame_table := s.frame_table ++ [(⟨k, p, some b⟩ : Fte)]
      sptes := Function.update s.sptes b (some { x with swapped := false }) } : Mem).goto p
        (.refill v write a k b) with hu
    have hself : u.procs p = { s.procs p with point := .refill v write a k b } :=
      Mem.goto_self _ _ _
    have hother : ∀ q, q ≠ p → u.procs q = s.procs q := fun q hq => Mem.goto_of_ne _ hq
    have hsptes : u.sptes = Function.update s.sptes b (some { x with swapped := false }) := rfl
    have hnosave' : ∀ c, ¬ Saving u c := by
      rintro c ⟨q, hq⟩
      by_cases hqp : q = p
      · rw [hqp, hself] at hq
        cases hq
      · rw [hother q hqp] at hq
        exact hnosave c ⟨q, hq⟩
    have hrefill : ∀ c, Refilling u c ↔ c = b := by
      intro c
      constructor
      · rintro ⟨q, hq⟩
        by_cases hqp : q = p
        · rw [hqp, hself] at hq
          exact (Option.some.inj hq).symm
        · rw [hother q hqp] at hq
          exact absurd ⟨q, hq⟩ (hnorefill c)
      · rintro rfl
        exact ⟨p, by rw [hself]; rfl⟩
    have hslots : Slots u := by
      refine h.slots.same rfl (fun c z hz => ?_) fun c z hz => ?_
      · obtain ⟨hsp, hk, hcase⟩ := hz
        rw [hsptes] at hsp
        by_cases hc : c = b
        · subst hc
          rw [Function.update_self] at hsp
          obtain rfl := Option.some.inj hsp
          exact ⟨x, ⟨hx, hk, Or.inl ⟨hsw, hnosave c⟩⟩, rfl⟩
        · rw [Function.update_of_ne hc] at hsp
          rcases hcase with ⟨hz, -⟩ | hr
          · exact ⟨z, ⟨hsp, hk, Or.inl ⟨hz, hnosave c⟩⟩, rfl⟩
          · exact absurd ((hrefill c).mp hr) hc
      · obtain ⟨hsp, hk, ⟨hzsw, -⟩ | hr⟩ := hz
        · by_cases hc : c = b
          · subst hc
            obtain rfl := Option.some.inj (hx.symm.trans hsp)
            refine ⟨{ x with swapped := false }, ⟨?_, hk, Or.inr ((hrefill c).mpr rfl)⟩, rfl⟩
            rw [hsptes, Function.update_self]
          · refine ⟨z, ⟨?_, hk, Or.inl ⟨hzsw, hnosave' c⟩⟩, rfl⟩
            rw [hsptes, Function.update_of_ne hc]
            exact hsp
        · exact absurd hr (hnorefill c)
    have hlocks : (u.procs p).locks = 1 := by
      have h0 := h.not_locks (hfree p)
      rw [Proc.locks_cons, hpt] at h0
      rw [Proc.locks_cons, hself]
      change ((s.procs p).callers.map Caller.point).countP Point.locks + 1 = 1
      omega
    refine h.moved (fun q _ => hfree q) hother (fun v => by unfold page_lookup; rw [hself]) hslots
      (fun _ => rfl) hlocks.le (fun c z hz hzsw => ?_) (fun c z hc _ => ?_) (fun c hc => ?_) ?_
    · rw [hsptes] at hz
      by_cases hc : c = b
      · subst hc
        rw [Function.update_self] at hz
        obtain rfl := Option.some.inj hz
        cases hzsw
      · rw [Function.update_of_ne hc] at hz
        exact h.found c z hz hzsw
    · exact absurd ⟨p, hc⟩ (hnosave' c)
    · obtain rfl := (hrefill c).mp ⟨p, hc⟩
      refine ⟨{ x with swapped := false }, by rw [hsptes, Function.update_self], rfl, ?_⟩
      rw [← hyv] at hl
      exact hl
    · rw [hself]
      rfl
  · exact (h.goto hE hL hpt ⟨rfl, rfl⟩ ⟨rfl, rfl⟩ (fun hc => (by cases hc)) rfl (Quiet.refl p s)
      (Stays.of_eq rfl) rfl rfl rfl).lock hlock

/-- **`swap_in` reads its page** and gives the slot back. -/
theorem step_refill {v a k b : ℕ} {write : Bool} (h : SlotInv s)
    (hpt : (s.procs p).point = .refill v write a k b)
    (hs : step_refill s p v write a k b = .ok s') : SlotInv s' := by
  obtain ⟨hlock, hrest⟩ := h.top_locks (p := p) (by rw [hpt]; rfl)
  have hfree := h.top_free (p := p) (by rw [hpt]; rfl)
  have hnosave : ∀ c, ¬ Saving s c := fun c hc => by
    rw [h.saving_iff hfree, hpt] at hc
    cases hc
  have hrefill : ∀ c, Refilling s c ↔ b = c := fun c => by
    rw [h.refilling_iff hfree, hpt]
    exact Option.some_inj
  obtain ⟨x, hx, hsw, -⟩ := h.refilled p b (by rw [hpt]; rfl)
  -- what is left to show once the frame is filled
  have hmoved : ∀ u : Mem, u.procs = s.procs → u.sptes = s.sptes → u.swap_lock = none →
      ((∀ c, ¬ Saving (u.goto p (.install v write a k)) c) →
        (∀ c, ¬ Refilling (u.goto p (.install v write a k)) c) →
        Slots (u.goto p (.install v write a k))) → SlotInv (u.goto p (.install v write a k)) := by
    intro u hu husp hul hslots
    have hself : (u.goto p (.install v write a k)).procs p =
        { s.procs p with point := .install v write a k } := by
      rw [Mem.goto_self, hu]
    have hother : ∀ q, q ≠ p → (u.goto p (.install v write a k)).procs q = s.procs q :=
      fun q hq => by rw [Mem.goto_of_ne _ hq, hu]
    have hstill : ∀ q, ((u.goto p (.install v write a k)).procs q).point.still := fun q => by
      by_cases hqp : q = p
      · rw [hqp, hself]
        exact ⟨rfl, rfl⟩
      · rw [hother q hqp]
        exact still_of_locks (h.not_locks (hfree q hqp))
    have hnone : ((u.goto p (.install v write a k)).procs p).locks = 0 := by
      rw [Proc.locks_cons, hself]
      exact hrest
    refine h.moved hfree hother (fun v => by unfold page_lookup; rw [hself])
      (hslots (fun c ⟨q, hq⟩ => ?_) fun c ⟨q, hq⟩ => ?_) (fun hc => ?_) (by omega)
      (fun c z hz => h.found c z (husp ▸ hz)) (fun c z hc _ => ?_) (fun c hc => ?_) ?_
    · cases (hstill q).1.symm.trans hq
    · cases (hstill q).2.symm.trans hq
    · omega
    · cases (hstill p).1.symm.trans hc
    · cases (hstill p).2.symm.trans hc
    · rw [hself]
      rfl
  obtain ⟨y, hy, hcase⟩ := step_refill_spec hs
  obtain rfl := Option.some.inj (hx.symm.trans hy)
  rcases hcase with ⟨hk, rfl⟩ | ⟨hk, rfl⟩
  · refine hmoved _ rfl rfl rfl fun hns hnr => h.slots.same rfl (fun c z hz => ?_) fun c z hz => ?_
    · obtain ⟨hsp, hkz, ⟨hzsw, -⟩ | hr⟩ := hz
      · exact ⟨z, ⟨hsp, hkz, Or.inl ⟨hzsw, hnosave c⟩⟩, rfl⟩
      · exact absurd hr (hnr c)
    · obtain ⟨hsp, hkz, ⟨hzsw, -⟩ | hr⟩ := hz
      · exact ⟨z, ⟨hsp, hkz, Or.inl ⟨hzsw, hns c⟩⟩, rfl⟩
      · obtain rfl := (hrefill c).mp hr
        obtain rfl := Option.some.inj (hx.symm.trans hsp)
        exact absurd hkz hk
  · -- who has a slot after the step
    refine hmoved _ rfl rfl rfl fun hns hnr => ?_
    set u : Mem := ({ s with
      frames := Function.update s.frames k
        (read_sectors s.swap_device x.disk_sector_idx (s.frames k))
      swap_table := slot_set s.swap_table x.disk_sector_idx false
      swap_lock := none } : Mem).goto p (.install v write a k) with hu
    have hholds : ∀ c z, Holds u c z ↔ c ≠ b ∧ Holds s c z := by
      intro c z
      constructor
      · rintro ⟨hsp, hkz, ⟨hzsw, -⟩ | hr⟩
        · refine ⟨?_, hsp, hkz, Or.inl ⟨hzsw, hnosave c⟩⟩
          rintro rfl
          obtain rfl := Option.some.inj (hx.symm.trans hsp)
          rw [hsw] at hzsw
          cases hzsw
        · exact absurd hr (hnr c)
      · rintro ⟨hc, hsp, hkz, ⟨hzsw, -⟩ | hr⟩
        · exact ⟨hsp, hkz, Or.inl ⟨hzsw, hns c⟩⟩
        · exact absurd ((hrefill c).mp hr).symm hc
    have hmine : Holds s b x := ⟨hx, hk, Or.inr ((hrefill b).mpr rfl)⟩
    refine ⟨fun n => ?_, fun c d y z n hy hz hn hn' =>
      h.slots.apart c d y z n ((hholds c y).mp hy).2 ((hholds d z).mp hz).2 hn hn'⟩
    change (if x.disk_sector_idx ≤ n ∧ n < x.disk_sector_idx + 8 then false
      else s.swap_table.bits n) = true ↔ _
    by_cases hi : x.disk_sector_idx ≤ n ∧ n < x.disk_sector_idx + 8
    · rw [if_pos hi]
      refine iff_of_false nofun ?_
      rintro ⟨c, z, hz, hn⟩
      obtain ⟨hc, hz⟩ := (hholds c z).mp hz
      exact hc (h.slots.apart c b z x n hz hmine hn hi)
    · rw [if_neg hi, h.slots.bits n]
      refine exists_congr fun c => exists_congr fun z => ?_
      rw [hholds]
      constructor
      · rintro ⟨hz, hn⟩
        refine ⟨⟨?_, hz⟩, hn⟩
        rintro rfl
        obtain rfl := Option.some.inj (hx.symm.trans hz.1)
        exact hi hn
      · rintro ⟨⟨-, hz⟩, hn⟩
        exact ⟨hz, hn⟩

end SlotInv

end Pintos.Vm
