/-
What ties the frame table to the page directories.

An entry of the frame table names a supplemental entry. `swap_out` trusts it: it marks that
entry swapped and clears its page. The invariant here says that the supplemental entry is found
by the owner of the frame, at a page that the owner has mapped to the frame or is about to, that
no supplemental entry is named twice, and that one that is named is not swapped out.

What is followed is a parameter: the entries of every process that is not exiting, or the entries
of all processes that are not of a mapped file. `LinkInv.of_proc` is the lemma every step goes
through.
-/
import Pintos.Vm.Entries

set_option autoImplicit false

namespace Pintos.Vm

open Pintos.Kernel StepSystem

variable {all : Bool} {s s' t : Mem} {p q v k a : ℕ}

/-! ## What is followed -/

/-- In `exit`, or past it. -/
def Point.leaving : Point → Bool
  | .exit => true
  | .reap => true
  | .dead => true
  | _ => false

/-- The process exits. -/
def Proc.leaving (t : Proc) : Bool := t.points.any Point.leaving

/-- The entries that are followed. -/
def Tracked (all : Bool) (s : Mem) (p a : ℕ) : Prop :=
  match all with
  | true => (s.procs p).leaving = false
  | false => ∃ x, s.sptes a = some x ∧ x.mmapped = false

/-- The page a frame is wanted for. -/
def Want.asks : Want → List ℕ
  | .entry v _ _ => [v]
  | .grow v => [v]
  | .stack => [PHYS_PAGES - 1]

def Point.asks : Point → List ℕ
  | .get w => w.asks
  | .evict w => w.asks
  | .save w _ => w.asks
  | .writeback w _ => w.asks
  | .free w _ => w.asks
  | .load w _ => w.asks
  | .swapin v _ _ _ => [v]
  | .refill v _ _ _ _ => [v]
  | .install v _ _ _ => [v]
  | _ => []

/-- The frame table entry that `swap_out` has taken off and not saved. -/
def Point.victim : Point → Option Fte
  | .save _ e => some e
  | .writeback _ e => some e
  | _ => none

/-! ## The invariant -/

/-- One frame of the stack of process `p`: the page it wants is not mapped, and neither that page
nor the page of its victim is wanted by a frame below. -/
structure FrameLink (all : Bool) (s : Mem) (p : ℕ) (pt : Point) (rest : List Point) : Prop where
  absent : ∀ v a, (v, a) ∈ pt.keys → Tracked all s p a → (s.procs p).pagedir v = none
  apart : ∀ v ∈ pt.asks, ∀ w b, (w, b) ∈ rest.flatMap Point.keys → Tracked all s p b → w ≠ v
  old : ∀ e a, pt.victim = some e → e.spte = some a → a < s.fresh
  spared : ∀ e a x, pt.victim = some e → e.spte = some a → s.sptes a = some x →
    ∀ w b, (w, b) ∈ (pt :: rest).flatMap Point.keys → Tracked all s p b → w ≠ x.user_vaddr

def StackLink (all : Bool) (s : Mem) (p : ℕ) : List Point → Prop
  | [] => True
  | pt :: rest => FrameLink all s p pt rest ∧ StackLink all s p rest

/-- The page of the entry is mapped to the frame, or the owner is about to map it. -/
def Linked (s : Mem) (e : Fte) (a : ℕ) : Prop :=
  ∃ x, s.sptes a = some x ∧
    ((∃ pte, (s.procs e.owner).pagedir x.user_vaddr = some pte ∧ pte.frame = e.frame) ∨
      (s.procs e.owner).point.fills = some (x.user_vaddr, e.frame))

/-- Two entries of the frame table do not name the same supplemental entry. -/
def Single (all : Bool) (s : Mem) (e e' : Fte) : Prop :=
  ∀ a, e.spte = some a → e'.spte = some a → Tracked all s e.owner a → ¬ Tracked all s e'.owner a

/-- The frame table and the page directories. -/
structure LinkInv (all : Bool) (s : Mem) : Prop where
  stack : ∀ p, StackLink all s p (s.procs p).points
  owns : ∀ e ∈ s.frame_table, ∀ a x, e.spte = some a → s.sptes a = some x →
    page_lookup s e.owner x.user_vaddr = some a
  linked : ∀ e ∈ s.frame_table, ∀ a, e.spte = some a → Tracked all s e.owner a →
    (s.procs e.owner).alive → Linked s e a
  resident : ∀ e ∈ s.frame_table, ∀ a x, e.spte = some a → Tracked all s e.owner a →
    s.sptes a = some x → x.swapped = false
  once : s.frame_table.Pairwise (Single all s)
  named : all = true → ∀ e ∈ s.frame_table, (s.procs e.owner).leaving = false → e.spte ≠ none
  readonly : ∀ p v pte, (s.procs p).alive → (s.procs p).pagedir v = some pte →
    pte.writable = false → ∃ a x, page_lookup s p v = some a ∧ s.sptes a = some x ∧ x.writable = false
  mapped : ∀ a x, s.sptes a = some x → x.mmapped = true → x.writable = true
  born : ∀ e ∈ s.frame_table, (s.procs e.owner).point ≠ .unused
  blocks : ∀ e ∈ s.frame_table, ∀ a, e.spte = some a → a < s.fresh

/-! ## What a step of one process leaves to the others -/

/-- Process `p` moved. Entries are made and freed, those that stay keep their fixed fields, and
those another process has stay. -/
structure Follows (p : ℕ) (s s' : Mem) : Prop where
  other : ∀ q, q ≠ p → s'.procs q = s.procs q
  fresh : s.fresh ≤ s'.fresh
  back : ∀ a < s.fresh, ∀ x', s'.sptes a = some x' → ∃ x, s.sptes a = some x ∧ x'.fixed = x.fixed
  keep : ∀ q v a x, q ≠ p → page_lookup s q v = some a → s.sptes a = some x →
    ∃ x', s'.sptes a = some x' ∧ x'.fixed = x.fixed
  stays : (s'.procs p).leaving = false → (s.procs p).leaving = false

theorem Quiet.follows (h : Quiet p s s')
    (hstays : (s'.procs p).leaving = false → (s.procs p).leaving = false) : Follows p s s' where
  other := h.other
  fresh := h.fresh.ge
  back _ _ _ hx' := h.entry hx'
  keep _ _ _ _ _ _ hx := h.stays hx
  stays := hstays

namespace Follows

theorem tracked (h : Follows p s s') (ha : a < s.fresh) (ht : Tracked all s' q a) :
    Tracked all s q a := by
  cases all with
  | true =>
    by_cases hq : q = p
    · subst hq
      exact h.stays ht
    · change (s'.procs q).leaving = false at ht
      rw [h.other q hq] at ht
      exact ht
  | false =>
    obtain ⟨x', hx', hm⟩ := ht
    obtain ⟨x, hx, hfix⟩ := h.back a ha x' hx'
    exact ⟨x, hx, (congrArg Spte.mmapped hfix).symm.trans hm⟩

theorem lookup_of_ne (h : Follows p s s') (hq : q ≠ p) (v : ℕ) :
    page_lookup s' q v = page_lookup s q v := by
  unfold page_lookup
  rw [h.other q hq]

theorem vaddr (h : Follows p s s') (ha : a < s.fresh) {x' : Spte} (hx' : s'.sptes a = some x') :
    ∃ x, s.sptes a = some x ∧ x'.user_vaddr = x.user_vaddr := by
  obtain ⟨x, hx, hfix⟩ := h.back a ha x' hx'
  exact ⟨x, hx, Spte.fixed_vaddr hfix⟩

end Follows

/-- The entries a process wants are in its table. -/
theorem EntryInv.keyed (h : EntryInv s) {w b : ℕ}
    (hk : (w, b) ∈ (s.procs p).points.flatMap Point.keys) : page_lookup s p w = some b := by
  have hst := h.stack p
  generalize (s.procs p).points = l at hk hst
  induction l with
  | nil => cases hk
  | cons pt rest ih =>
    rw [List.flatMap_cons, List.mem_append] at hk
    rcases hk with hk | hk
    · exact hst.1.keyed w b hk
    · exact ih hk hst.2

theorem EntryInv.key_lt (h : EntryInv s) {w b : ℕ}
    (hk : (w, b) ∈ (s.procs p).points.flatMap Point.keys) : b < s.fresh :=
  (h.block p w b (h.keyed hk)).1

/-- What a stack says is still true after a step, of frames that are left on it. -/
theorem StackLink.mono (hF : Follows p s s') {l : List Point} (h : StackLink all s q l)
    (hlt : ∀ w b, (w, b) ∈ l.flatMap Point.keys → b < s.fresh)
    (hdir : ∀ w b, (w, b) ∈ l.flatMap Point.keys → Tracked all s q b →
      (s.procs q).pagedir w = none → (s'.procs q).pagedir w = none) : StackLink all s' q l := by
  induction l with
  | nil => trivial
  | cons pt rest ih =>
    obtain ⟨hpt, hrest⟩ := h
    have hmem : ∀ w b, (w, b) ∈ pt.keys → (w, b) ∈ (pt :: rest).flatMap Point.keys :=
      fun w b hk => by
        rw [List.flatMap_cons]
        exact List.mem_append_left _ hk
    have hdeep : ∀ w b, (w, b) ∈ rest.flatMap Point.keys →
        (w, b) ∈ (pt :: rest).flatMap Point.keys := fun w b hk => by
      rw [List.flatMap_cons]
      exact List.mem_append_right _ hk
    refine ⟨⟨fun w b hk ht => ?_, fun u hu w b hk ht => ?_, fun e b he hb => ?_,
      fun e b x he hb hx w c hk ht => ?_⟩, ih hrest (fun w b hk => hlt w b (hdeep w b hk))
        fun w b hk => hdir w b (hdeep w b hk)⟩
    · have ht := hF.tracked (hlt w b (hmem w b hk)) ht
      exact hdir w b (hmem w b hk) ht (hpt.absent w b hk ht)
    · exact hpt.apart u hu w b hk (hF.tracked (hlt w b (hdeep w b hk)) ht)
    · exact (hpt.old e b he hb).trans_le hF.fresh
    · obtain ⟨y, hy, hv⟩ := hF.vaddr (hpt.old e b he hb) hx
      rw [hv]
      exact hpt.spared e b y he hb hy w c hk (hF.tracked (hlt w c hk) ht)

/-- The entries that were listed are listed once after a step too. -/
theorem LinkInv.single (h : LinkInv all s) (hF : Follows p s s') :
    s.frame_table.Pairwise (Single all s') := by
  refine h.once.imp_of_mem fun {e e'} he he' hone a ha ha' ht ht' => ?_
  exact hone a ha ha' (hF.tracked (h.blocks e he a ha) ht)
    (hF.tracked (h.blocks e' he' a ha') ht')

/-- **One process moved.** What is left to show is about process `p`, its stack, its page
directory and the frames it has listed. -/
theorem LinkInv.of_proc (h : LinkInv all s) (hE : EntryInv s) (hF : Follows p s s')
    (hstack : StackLink all s' p (s'.procs p).points)
    (htable : ∀ e ∈ s'.frame_table, e.owner ≠ p → e ∈ s.frame_table)
    (howns : ∀ e ∈ s'.frame_table, e.owner = p → ∀ a x, e.spte = some a → s'.sptes a = some x →
      page_lookup s' p x.user_vaddr = some a)
    (hlinked : ∀ e ∈ s'.frame_table, e.owner = p → ∀ a, e.spte = some a → Tracked all s' p a →
      (s'.procs p).alive → Linked s' e a)
    (hres : ∀ e ∈ s'.frame_table, ∀ a x, e.spte = some a → Tracked all s' e.owner a →
      s'.sptes a = some x → x.swapped = false)
    (honce : s'.frame_table.Pairwise (Single all s'))
    (hnamed : all = true → ∀ e ∈ s'.frame_table, e.owner = p → (s'.procs p).leaving = false →
      e.spte ≠ none)
    (hro : ∀ v pte, (s'.procs p).alive → (s'.procs p).pagedir v = some pte →
      pte.writable = false → ∃ a x, page_lookup s' p v = some a ∧ s'.sptes a = some x ∧
        x.writable = false)
    (hnew : ∀ a x, s.fresh ≤ a → s'.sptes a = some x → x.mmapped = true → x.writable = true)
    (hborn : ∀ e ∈ s'.frame_table, e.owner = p → (s'.procs p).point ≠ .unused)
    (hblocks : ∀ e ∈ s'.frame_table, e.owner = p → ∀ a, e.spte = some a → a < s'.fresh) :
    LinkInv all s' where
  stack q := by
    by_cases hq : q = p
    · subst hq
      exact hstack
    · have hst := (h.stack q).mono hF (fun w b hk => hE.key_lt hk) fun w b _ _ hn => by
        rw [hF.other q hq]
        exact hn
      rw [hF.other q hq]
      exact hst
  owns e he a x ha hx := by
    by_cases hq : e.owner = p
    · rw [hq]
      exact howns e he hq a x ha hx
    · obtain ⟨y, hy, hv⟩ := hF.vaddr (h.blocks e (htable e he hq) a ha) hx
      rw [hF.lookup_of_ne hq, hv]
      exact h.owns e (htable e he hq) a y ha hy
  linked e he a ha ht halive := by
    by_cases hq : e.owner = p
    · rw [hq] at ht halive
      exact hlinked e he hq a ha ht halive
    · have hmem := htable e he hq
      rw [hF.other _ hq] at halive
      obtain ⟨x, hx, hl⟩ := h.linked e hmem a ha (hF.tracked (h.blocks e hmem a ha) ht) halive
      obtain ⟨x', hx', hfix⟩ := hF.keep _ _ a x hq (h.owns e hmem a x ha hx) hx
      refine ⟨x', hx', ?_⟩
      rw [hF.other _ hq, Spte.fixed_vaddr hfix]
      exact hl
  resident := hres
  once := honce
  named hall e he hl := by
    by_cases hq : e.owner = p
    · rw [hq] at hl
      exact hnamed hall e he hq hl
    · rw [hF.other _ hq] at hl
      exact h.named hall e (htable e he hq) hl
  readonly q v pte halive hpte hw := by
    by_cases hq : q = p
    · subst hq
      exact hro v pte halive hpte hw
    · rw [hF.other q hq] at halive hpte
      obtain ⟨a, x, hl, hx, hxw⟩ := h.readonly q v pte halive hpte hw
      obtain ⟨x', hx', hfix⟩ := hF.keep q v a x hq hl hx
      exact ⟨a, x', by rw [hF.lookup_of_ne hq]; exact hl, hx',
        (congrArg Spte.writable hfix).trans hxw⟩
  mapped a x' hx' hm := by
    by_cases ha : a < s.fresh
    · obtain ⟨x, hx, hfix⟩ := hF.back a ha x' hx'
      have hxm : x.mmapped = true := (congrArg Spte.mmapped hfix).symm.trans hm
      exact (congrArg Spte.writable hfix).trans (h.mapped a x hx hxm)
    · exact hnew a x' (Nat.le_of_not_lt ha) hx' hm
  born e he := by
    by_cases hq : e.owner = p
    · rw [hq]
      exact hborn e he hq
    · rw [hF.other _ hq]
      exact h.born e (htable e he hq)
  blocks e he a ha := by
    by_cases hq : e.owner = p
    · exact hblocks e he hq a ha
    · exact (h.blocks e (htable e he hq) a ha).trans_le hF.fresh

/-! ## Points -/

/-- What the next point of a process may want: what it wanted before. -/
structure Point.Next (pt pt' : Point) : Prop where
  keys : ∀ ka ∈ pt'.keys, ka ∈ pt.keys
  asks : ∀ v ∈ pt'.asks, v ∈ pt.asks
  victim : ∀ e, pt'.victim = some e → pt.victim = some e
  fills : ∀ f, pt.fills = some f → pt'.fills = some f
  leaving : pt.leaving = false
  live : pt.live = true
  used : pt' ≠ .unused

/-- A point without a victim, after one without a frame to fill. -/
theorem Point.Next.plain {pt pt' : Point} (hk : ∀ ka ∈ pt'.keys, ka ∈ pt.keys)
    (ha : ∀ v ∈ pt'.asks, v ∈ pt.asks) (hv : pt'.victim = none) (hf : pt.fills = none)
    (hleave : pt.leaving = false) (hlive : pt.live = true) (hu : pt' ≠ .unused) : pt.Next pt' where
  keys := hk
  asks := ha
  victim e he := by
    rw [hv] at he
    cases he
  fills f h := by
    rw [hf] at h
    cases h
  leaving := hleave
  live := hlive
  used := hu

theorem FrameLink.next {pt pt' : Point} {rest : List Point} (h : FrameLink all s p pt rest)
    (hn : pt.Next pt') : FrameLink all s p pt' rest where
  absent w b hk := h.absent w b (hn.keys _ hk)
  apart u hu := h.apart u (hn.asks u hu)
  old e b he := h.old e b (hn.victim e he)
  spared e b x he hb hx w c hk := by
    refine h.spared e b x (hn.victim e he) hb hx w c ?_
    rw [List.flatMap_cons, List.mem_append] at hk ⊢
    exact hk.imp_left (hn.keys _)

/-- A frame that wants no page. -/
theorem FrameLink.plain {pt : Point} {rest : List Point} (hk : pt.keys = []) (ha : pt.asks = [])
    (hv : pt.victim = none) : FrameLink all s p pt rest where
  absent w b hm := by
    rw [hk] at hm
    cases hm
  apart u hu := by
    rw [ha] at hu
    cases hu
  old e b he := by
    rw [hv] at he
    cases he
  spared e b x he := by
    rw [hv] at he
    cases he

theorem LinkInv.head (h : LinkInv all s) {pt : Point} (hpt : (s.procs p).point = pt) :
    FrameLink all s p pt ((s.procs p).callers.map Caller.point) := by
  have hst := (h.stack p).1
  rw [hpt] at hst
  exact hst

/-- A process leaves only by `exit`. -/
theorem leaving_goto {pt pt' : Point} (hpt : (s.procs p).point = pt) (hl : pt.leaving = false)
    (hc : (t.procs p).callers = (s.procs p).callers)
    (h : ((t.goto p pt').procs p).leaving = false) : (s.procs p).leaving = false := by
  rw [Mem.goto_self] at h
  change (pt'.leaving || ((t.procs p).callers.map Caller.point).any Point.leaving) = false at h
  change ((s.procs p).point.leaving || ((s.procs p).callers.map Caller.point).any _) = false
  rw [hc, Bool.or_eq_false_iff] at h
  rw [hpt, hl, h.2]
  rfl

/-- What is on the stack after a return. -/
theorem Proc.ret_points (t : Proc) :
    t.ret.points = [.user] ∧ t.callers = [] ∨ t.ret.points = t.callers.map Caller.point := by
  unfold Proc.ret
  cases t.callers with
  | nil => exact Or.inl ⟨rfl, rfl⟩
  | cons c rest => exact Or.inr rfl

theorem leaving_ret {pt : Point} (hpt : (s.procs p).point = pt) (hl : pt.leaving = false)
    (hc : (t.procs p).callers = (s.procs p).callers)
    (h : ((t.ret p).procs p).leaving = false) : (s.procs p).leaving = false := by
  rw [Mem.ret_self] at h
  have htail : ((s.procs p).callers.map Caller.point).any Point.leaving = false := by
    rcases Proc.ret_points (t.procs p) with ⟨-, hnil⟩ | hpts
    · rw [← hc, hnil]
      rfl
    · rw [← hc, ← hpts]
      exact h
  change ((s.procs p).point.leaving || ((s.procs p).callers.map Caller.point).any _) = false
  rw [hpt, hl, htail]
  rfl

theorem StackLink.ret {t : Proc} (h : StackLink all s p (t.callers.map Caller.point)) :
    StackLink all s p t.ret.points := by
  rcases Proc.ret_points t with ⟨hpts, -⟩ | hpts
  · rw [hpts]
    exact ⟨FrameLink.plain rfl rfl rfl, trivial⟩
  · rw [hpts]
    exact h

theorem insert_page_point (s : Mem) (p : ℕ) (x : Spte) :
    ((insert_page s p x).procs p).point = (s.procs p).point :=
  (List.cons.inj ((insert_page_facts s p x).2.2.2.1 p).2).1

namespace LinkInv

/-! ## Steps that list nothing and map nothing -/

/-- A step that does not change the frame table, swaps nothing out, and clears a page only if
no frame is listed for it or the process is gone. -/
theorem calm (h : LinkInv all s) (hE : EntryInv s) (hq : Quiet p s s')
    (hstays : (s'.procs p).leaving = false → (s.procs p).leaving = false)
    (hft : s'.frame_table = s.frame_table)
    (hdir : ∀ w, (s'.procs p).pagedir w = (s.procs p).pagedir w ∨
      (s'.procs p).pagedir w = none ∧ ((s'.procs p).alive → ∀ e ∈ s.frame_table, e.owner = p →
        ∀ a, e.spte = some a → page_lookup s p w = some a → ¬ Tracked all s p a))
    (hsw : ∀ a x', s'.sptes a = some x' → x'.swapped = true →
      ∃ x, s.sptes a = some x ∧ x.swapped = true)
    (hlive : (s'.procs p).alive → (s.procs p).alive)
    (hfills : (s'.procs p).alive → ∀ f, (s.procs p).point.fills = some f →
      (s'.procs p).point.fills = some f)
    (hborn : (s'.procs p).point ≠ .unused)
    (hstack : StackLink all s' p (s'.procs p).points) : LinkInv all s' := by
  have hF : Follows p s s' := hq.follows hstays
  refine h.of_proc hE hF hstack (fun e he _ => by rw [hft] at he; exact he)
    (fun e he hown a x ha hx => ?_) (fun e he hown a ha ht halive => ?_)
    (fun e he a x ha ht hx => ?_) ?_ (fun hall e he hown hl => ?_)
    (fun v pte halive hpte hw => ?_) (fun a x _ hx hm => ?_) (fun _ _ _ => hborn)
    (fun e he _ a ha => ?_)
  · rw [hft] at he
    obtain ⟨y, hy, hv⟩ := hF.vaddr (h.blocks e he a ha) hx
    rw [hq.page_lookup, hv, ← hown]
    exact h.owns e he a y ha hy
  · rw [hft] at he
    have hl := h.linked e he a ha
    rw [hown] at hl
    have ht := hF.tracked (h.blocks e he a ha) ht
    obtain ⟨x, hx, hmap⟩ := hl ht (hlive halive)
    obtain ⟨x', hx', hfix⟩ := hq.stays hx
    refine ⟨x', hx', ?_⟩
    have hlook := h.owns e he a x ha hx
    rw [hown] at hmap hlook ⊢
    rw [Spte.fixed_vaddr hfix]
    rcases hdir x.user_vaddr with heq | ⟨-, hno⟩
    · rw [heq]
      exact hmap.imp_right (hfills halive _)
    · exact absurd ht (hno halive e he hown a ha hlook)
  · rw [hft] at he
    by_contra hc
    obtain ⟨y, hy, hs⟩ := hsw a x hx (Bool.eq_true_of_not_eq_false hc)
    have hno := h.resident e he a y ha (hF.tracked (h.blocks e he a ha) ht) hy
    rw [hs] at hno
    cases hno
  · rw [hft]
    exact h.single hF
  · rw [hft] at he
    exact h.named hall e he (by rw [hown]; exact hstays hl)
  · rcases hdir v with heq | ⟨hnone, -⟩
    · rw [heq] at hpte
      obtain ⟨a, x, hl, hx, hxw⟩ := h.readonly p v pte (hlive halive) hpte hw
      obtain ⟨x', hx', hfix⟩ := hq.stays hx
      exact ⟨a, x', by rw [hq.page_lookup]; exact hl, hx',
        (congrArg Spte.writable hfix).trans hxw⟩
    · rw [hnone] at hpte
      cases hpte
  · obtain ⟨y, hy, hfix⟩ := hq.entry hx
    have hym : y.mmapped = true := (congrArg Spte.mmapped hfix).symm.trans hm
    exact (congrArg Spte.writable hfix).trans (h.mapped a y hy hym)
  · rw [hft] at he
    rw [hq.fresh]
    exact h.blocks e he a ha

/-- The process goes on to a point that wants what this one wanted. -/
theorem goto {pt pt' : Point} (h : LinkInv all s) (hE : EntryInv s)
    (hpt : (s.procs p).point = pt) (hn : pt.Next pt') (hq : Quiet p s t)
    (hprocs : t.procs = s.procs) (hft : t.frame_table = s.frame_table)
    (hsw : ∀ a x', t.sptes a = some x' → x'.swapped = true →
      ∃ x, s.sptes a = some x ∧ x.swapped = true) :
    LinkInv all (t.goto p pt') := by
  have hstays := fun hl => @leaving_goto _ _ _ _ pt' hpt hn.leaving (by rw [hprocs]) hl
  refine h.calm hE (hq.goto pt') hstays hft (fun w => Or.inl ?_) hsw
    (fun _ => Proc.alive_at hpt hn.live) (fun _ f hf => ?_) ?_ ?_
  · rw [Mem.goto_self, hprocs]
  · rw [hpt] at hf
    rw [Mem.goto_self]
    exact hn.fills f hf
  · rw [Mem.goto_self]
    exact hn.used
  · have hst : StackLink all s p (pt' :: (s.procs p).callers.map Caller.point) :=
      ⟨(h.head hpt).next hn, (h.stack p).2⟩
    have hself : ((t.goto p pt').procs p).points =
        pt' :: (s.procs p).callers.map Caller.point := by
      rw [Mem.goto_self, hprocs]
      rfl
    rw [hself]
    refine hst.mono ((hq.goto pt').follows hstays) (fun w b hk => ?_) fun w b _ _ hnone => ?_
    · refine hE.key_lt (p := p) (w := w) ?_
      rw [Proc.points, hpt, List.flatMap_cons, List.mem_append]
      rw [List.flatMap_cons, List.mem_append] at hk
      exact hk.imp_left (hn.keys _)
    · rw [Mem.goto_self, hprocs]
      exact hnone

/-- A process that exits is not followed, or its entries stay as they are. -/
theorem exit {pt : Point} (h : LinkInv all s) (hE : EntryInv s) (hpt : (s.procs p).point = pt)
    (hlive : pt.live = true) (hfills : pt.fills = none) (hq : Quiet p s t)
    (hdir : (t.procs p).pagedir = (s.procs p).pagedir) (hft : t.frame_table = s.frame_table)
    (hsw : ∀ a x', t.sptes a = some x' → x'.swapped = true →
      ∃ x, s.sptes a = some x ∧ x.swapped = true) :
    LinkInv all (t.exit p) := by
  have hleft : ((t.exit p).procs p).leaving = true := by
    rw [Mem.exit_self]
    rfl
  refine h.calm hE hq.exit (fun hl => ?_) hft (fun w => Or.inl ?_) hsw
    (fun _ => Proc.alive_at hpt hlive) (fun _ f hf => ?_) ?_ ?_
  · rw [hleft] at hl
    cases hl
  · rw [Mem.exit_self]
    exact congrFun hdir w
  · rw [hpt, hfills] at hf
    cases hf
  · rw [Mem.exit_self]
    exact nofun
  · rw [Mem.exit_self]
    exact ⟨FrameLink.plain rfl rfl rfl, trivial⟩

/-- **A fault**, with the callers that are left on the stack. The page is not mapped if the fault
goes on with an entry, and no caller wants it. -/
theorem fault {cs : List Caller} {addr : ℕ} {write near_esp : Bool} (h : LinkInv all s)
    (hE : EntryInv s) (hlive : (s.procs p).point.live = true)
    (hfills : (s.procs p).point.fills = none)
    (hcs : StackLink all s p (cs.map Caller.point))
    (hlt : ∀ w b, (w, b) ∈ (cs.map Caller.point).flatMap Point.keys → b < s.fresh)
    (hstays : (cs.map Caller.point).any Point.leaving = false → (s.procs p).leaving = false)
    (habsent : ∀ a x, page_lookup s p (addr / PGSIZE) = some a → s.sptes a = some x →
      (write = true → x.writable = true) → Tracked all s p a →
      (s.procs p).pagedir (addr / PGSIZE) = none)
    (hapart : ∀ w b, (w, b) ∈ (cs.map Caller.point).flatMap Point.keys → Tracked all s p b →
      w ≠ addr / PGSIZE)
    (hs : page_fault (s.upd p (fun t => { t with callers := cs })) p addr write near_esp
      = .ok s') : LinkInv all s' := by
  have hq : Quiet p s (s.upd p (fun t => { t with callers := cs })) := (Quiet.refl p s).upd rfl rfl
  have hdir : ((s.upd p (fun t => { t with callers := cs })).procs p).pagedir =
      (s.procs p).pagedir := by rw [Mem.upd_self]
  -- the fault goes on: the frame above the callers wants the page of the address
  have hgo : ∀ w : Want, w.asks = [addr / PGSIZE] →
      (∀ v a, (v, a) ∈ w.key → Tracked all s p a → (s.procs p).pagedir v = none) →
      (∀ v a, (v, a) ∈ w.key → a < s.fresh) →
      LinkInv all ((s.upd p (fun t => { t with callers := cs })).goto p (.get w)) := by
    intro w hasks hnone hkey
    have hself : (((s.upd p (fun t => { t with callers := cs })).goto p (.get w)).procs p).points =
        .get w :: cs.map Caller.point := by
      rw [Mem.goto_self, Mem.upd_self]
      rfl
    have hleft : (((s.upd p (fun t => { t with callers := cs })).goto p (.get w)).procs
        p).leaving = false → (s.procs p).leaving = false := fun hl => by
      unfold Proc.leaving at hl
      rw [hself, List.any_cons, Bool.or_eq_false_iff] at hl
      exact hstays hl.2
    have hst : StackLink all s p (.get w :: cs.map Caller.point) := by
      refine ⟨⟨hnone, fun v hv u b hk ht => ?_, nofun, nofun⟩, hcs⟩
      change v ∈ w.asks at hv
      rw [hasks, List.mem_singleton] at hv
      rw [hv]
      exact hapart u b hk ht
    refine h.calm hE (hq.goto _) hleft rfl (fun w => Or.inl ?_) (fun a x' hx' hsw =>
      ⟨x', hx', hsw⟩) (fun _ => hlive) (fun _ f hf => ?_) ?_ ?_
    · rw [Mem.goto_self]
      exact congrFun hdir w
    · rw [hfills] at hf
      cases hf
    · rw [Mem.goto_self]
      exact nofun
    · rw [hself]
      refine hst.mono ((hq.goto _).follows hleft) (fun v b hk => ?_) fun v b _ _ hn => ?_
      · rw [List.flatMap_cons, List.mem_append] at hk
        exact hk.elim (hkey v b) (hlt v b)
      · rw [Mem.goto_self, hdir]
        exact hn
  rcases page_fault_spec hs with rfl | ⟨-, ⟨a, x, hl, hx, hw, -, rfl⟩ | ⟨-, -, rfl⟩⟩
  · exact h.exit hE rfl hlive hfills hq hdir rfl fun a x' hx' hsw => ⟨x', hx', hsw⟩
  · rw [hq.page_lookup] at hl
    refine hgo _ rfl (fun v b hk ht => ?_) fun v b hk => ?_
    all_goals
      simp only [Want.key, List.mem_singleton, Prod.mk.injEq] at hk
      obtain ⟨rfl, rfl⟩ := hk
    · exact habsent b x hl hx hw ht
    · exact (hE.block p _ b hl).1
  · exact hgo _ rfl (fun v b hk => by cases hk) fun v b hk => by cases hk

/-! ## Steps that map or list -/

/-- The process has mapped the page it wanted, or has not, and returns. -/
theorem install_ret {pt : Point} (h : LinkInv all s) (hE : EntryInv s)
    (hpt : (s.procs p).point = pt) (hlive : pt.live = true) (hleave : pt.leaving = false)
    (hv : v ∈ pt.asks) (hq : Quiet p s t) (hc : (t.procs p).callers = (s.procs p).callers)
    (hft : t.frame_table = s.frame_table)
    (hsw : ∀ a x', t.sptes a = some x' → x'.swapped = true →
      ∃ x, s.sptes a = some x ∧ x.swapped = true)
    (hdir : (t.procs p).pagedir = (s.procs p).pagedir ∨ (s.procs p).pagedir v = none ∧
      ∃ pte, (t.procs p).pagedir = Function.update (s.procs p).pagedir v (some pte) ∧
        (pte.writable = false →
          ∃ a x, page_lookup s p v = some a ∧ s.sptes a = some x ∧ x.writable = false))
    (hfills : ∀ w k a, pt.fills = some (w, k) → page_lookup s p w = some a → Tracked all s p a →
      ∃ pte, (t.procs p).pagedir w = some pte ∧ pte.frame = k) : LinkInv all (t.ret p) := by
  have hF : Follows p s (t.ret p) := hq.ret.follows (leaving_ret hpt hleave hc)
  have hdir' : ((t.ret p).procs p).pagedir = (t.procs p).pagedir := ret_pagedir t p p
  -- what was mapped is mapped
  have hstill : ∀ w pte, (s.procs p).pagedir w = some pte → (t.procs p).pagedir w = some pte := by
    intro w pte hw
    rcases hdir with heq | ⟨hnone, pte', heq, -⟩
    · rw [heq]
      exact hw
    · rw [heq, Function.update_of_ne]
      · exact hw
      · rintro rfl
        rw [hnone] at hw
        cases hw
  refine h.of_proc hE hF ?_ (fun e he _ => by rw [← hft]; exact he)
    (fun e he hown a x ha hx => ?_) (fun e he hown a ha ht _ => ?_)
    (fun e he a x ha ht hx => ?_) ?_ (fun hall e he hown hl => ?_)
    (fun w pte _ hpte hw => ?_) (fun a x _ hx hm => ?_) (fun _ _ _ => ?_)
    (fun e he _ a ha => ?_)
  · rw [Mem.ret_self]
    refine StackLink.ret ?_
    rw [hc]
    refine StackLink.mono hF (h.stack p).2 (fun w b hk => hE.key_lt (p := p) (w := w) ?_)
      fun w b hk ht hn => ?_
    · rw [Proc.points, List.flatMap_cons]
      exact List.mem_append_right _ hk
    · rw [hdir']
      rcases hdir with heq | ⟨-, pte, heq, -⟩
      · rw [heq]
        exact hn
      · rw [heq, Function.update_of_ne]
        · exact hn
        · exact (h.head hpt).apart v hv w b hk ht
  · rw [show (t.ret p).frame_table = s.frame_table from hft] at he
    obtain ⟨y, hy, hva⟩ := hF.vaddr (h.blocks e he a ha) hx
    rw [hq.ret.page_lookup, hva, ← hown]
    exact h.owns e he a y ha hy
  · rw [show (t.ret p).frame_table = s.frame_table from hft] at he
    have ht := hF.tracked (h.blocks e he a ha) ht
    have hl := h.linked e he a ha
    rw [hown] at hl
    obtain ⟨x, hx, hmap⟩ := hl ht (Proc.alive_at hpt hlive)
    obtain ⟨x', hx', hfix⟩ := hq.ret.stays hx
    refine ⟨x', hx', Or.inl ?_⟩
    rw [hown] at hmap ⊢
    rw [hdir', Spte.fixed_vaddr hfix]
    rcases hmap with ⟨pte, hpte, hfr⟩ | hfill
    · exact ⟨pte, hstill _ pte hpte, hfr⟩
    · rw [hpt] at hfill
      refine hfills _ _ a hfill ?_ ht
      rw [← hown]
      exact h.owns e he a x ha hx
  · rw [show (t.ret p).frame_table = s.frame_table from hft] at he
    by_contra hc
    obtain ⟨y, hy, hs⟩ := hsw a x hx (Bool.eq_true_of_not_eq_false hc)
    have hno := h.resident e he a y ha (hF.tracked (h.blocks e he a ha) ht) hy
    rw [hs] at hno
    cases hno
  · rw [show (t.ret p).frame_table = s.frame_table from hft]
    exact h.single hF
  · rw [show (t.ret p).frame_table = s.frame_table from hft] at he
    exact h.named hall e he (by rw [hown]; exact hF.stays hl)
  · have hold : (s.procs p).pagedir w = some pte → ∃ a x, page_lookup (t.ret p) p w = some a ∧
        (t.ret p).sptes a = some x ∧ x.writable = false := fun hpte => by
      obtain ⟨a, x, hl, hx, hxw⟩ := h.readonly p w pte (Proc.alive_at hpt hlive) hpte hw
      obtain ⟨x', hx', hfix⟩ := hq.ret.stays hx
      exact ⟨a, x', by rw [hq.ret.page_lookup]; exact hl, hx',
        (congrArg Spte.writable hfix).trans hxw⟩
    rw [hdir'] at hpte
    rcases hdir with heq | ⟨-, pte', heq, hwr⟩
    · rw [heq] at hpte
      exact hold hpte
    · rw [heq] at hpte
      by_cases hwv : w = v
      · subst hwv
        rw [Function.update_self] at hpte
        obtain rfl := Option.some.inj hpte
        obtain ⟨a, x, hl, hx, hxw⟩ := hwr hw
        obtain ⟨x', hx', hfix⟩ := hq.ret.stays hx
        exact ⟨a, x', by rw [hq.ret.page_lookup]; exact hl, hx',
          (congrArg Spte.writable hfix).trans hxw⟩
      · rw [Function.update_of_ne hwv] at hpte
        exact hold hpte
  · obtain ⟨y, hy, hfix⟩ := hq.ret.entry hx
    have hym : y.mmapped = true := (congrArg Spte.mmapped hfix).symm.trans hm
    exact (congrArg Spte.writable hfix).trans (h.mapped a y hy hym)
  · rw [Mem.ret_self]
    exact Proc.ret_point_ne _
  · rw [show (t.ret p).frame_table = s.frame_table from hft] at he
    rw [hq.ret.fresh]
    exact h.blocks e he a ha

/-- The process gets new entries, which are not listed. -/
theorem grows (h : LinkInv all s) (hE : EntryInv s)
    (hother : ∀ q, q ≠ p → s'.procs q = s.procs q) (hfresh : s.fresh ≤ s'.fresh)
    (hold : ∀ b < s.fresh, s'.sptes b = s.sptes b)
    (hnew : ∀ b y, s.fresh ≤ b → s'.sptes b = some y → y.mmapped = true → y.writable = true)
    (hmono : ∀ v a, page_lookup s p v = some a → page_lookup s' p v = some a)
    (hft : s'.frame_table = s.frame_table)
    (hdir : (s'.procs p).pagedir = (s.procs p).pagedir)
    (hpts : (s'.procs p).points = (s.procs p).points) : LinkInv all s' := by
  have hleave : (s'.procs p).leaving = (s.procs p).leaving := by
    unfold Proc.leaving
    rw [hpts]
  have hpoint : (s'.procs p).point = (s.procs p).point := (List.cons.inj hpts).1
  have hF : Follows p s s' := by
    refine ⟨hother, hfresh, fun a ha x' hx' => ?_, fun q v a y _ hv hy => ?_, fun hc => ?_⟩
    · rw [hold a ha] at hx'
      exact ⟨x', hx', rfl⟩
    · exact ⟨y, by rw [hold a (hE.block q v a hv).1]; exact hy, rfl⟩
    · rw [hleave] at hc
      exact hc
  refine h.of_proc hE hF ?_ (fun e he _ => by rw [hft] at he; exact he)
    (fun e he hown a y ha hy => ?_) (fun e he hown a ha ht halive => ?_)
    (fun e he a y ha ht hy => ?_) ?_ (fun hall e he hown hlv => ?_)
    (fun w pte halive hpte hw => ?_) (fun a y hle hy hm => hnew a y hle hy hm) (fun e he hown => ?_)
    (fun e he _ a ha => ?_)
  · rw [hpts]
    refine StackLink.mono hF (h.stack p) (fun w b hk => hE.key_lt hk) fun w b _ _ hn => ?_
    rw [hdir]
    exact hn
  · rw [hft] at he
    rw [hold a (h.blocks e he a ha)] at hy
    have hmine := h.owns e he a y ha hy
    rw [hown] at hmine
    exact hmono _ a hmine
  · rw [hft] at he
    have hl' := h.linked e he a ha
    rw [hown] at hl'
    obtain ⟨y, hy, hmap⟩ := hl' (hF.tracked (h.blocks e he a ha) ht) (by
      rw [Proc.alive, ← hpoint]
      exact halive)
    refine ⟨y, by rw [hold a (h.blocks e he a ha)]; exact hy, ?_⟩
    rw [hown] at hmap ⊢
    rw [hdir, hpoint]
    exact hmap
  · rw [hft] at he
    rw [hold a (h.blocks e he a ha)] at hy
    exact h.resident e he a y ha (hF.tracked (h.blocks e he a ha) ht) hy
  · rw [hft]
    exact h.single hF
  · rw [hft] at he
    exact h.named hall e he (by rw [hown, ← hleave]; exact hlv)
  · rw [hdir] at hpte
    rw [Proc.alive, hpoint] at halive
    obtain ⟨a, y, hly, hy, hyw⟩ := h.readonly p w pte halive hpte hw
    exact ⟨a, y, hmono w a hly, by rw [hold a (hE.block p w a hly).1]; exact hy, hyw⟩
  · rw [hft] at he
    rw [hpoint, ← hown]
    exact h.born e he
  · rw [hft] at he
    exact (h.blocks e he a ha).trans_le hfresh

/-- A new entry. -/
theorem insert_page (h : LinkInv all s) (hE : EntryInv s) {x : Spte}
    (hx : x.mmapped = true → x.writable = true) : LinkInv all (insert_page s p x) := by
  obtain ⟨hf, hs, -, hsame, hl⟩ := insert_page_facts s p x
  refine @grows _ s _ p h hE (fun q hq => ?_) (by rw [hf]; exact Nat.le_succ _) (fun b hb => ?_)
    (fun b y hle hy hm => ?_) (fun v a ha => ?_) ?_ (insert_page_pagedir s p x p) (hsame p).2
  · unfold Vm.insert_page
    dsimp only
    cases (s.procs p).sup_page_table x.user_vaddr with
    | some a => rfl
    | none => exact Mem.upd_of_ne _ hq
  · rw [hs, Function.update_of_ne hb.ne]
  · rw [hs] at hy
    by_cases hb : b = s.fresh
    · subst hb
      rw [Function.update_self] at hy
      obtain rfl := Option.some.inj hy
      exact hx hm
    · rw [Function.update_of_ne hb] at hy
      exact h.mapped b y hy hm
  · rw [hl, if_neg]
    · exact ha
    · rintro ⟨-, -, hc⟩
      rw [hc] at ha
      cases ha
  · unfold Vm.insert_page
    dsimp only
    cases (s.procs p).sup_page_table x.user_vaddr <;> rfl

/-- A frame is listed, for an entry that no other frame is listed for. -/
theorem list_frame (h : LinkInv all s) (hE : EntryInv s) (e : Fte)
    (howns : ∀ a x, e.spte = some a → s.sptes a = some x →
      page_lookup s e.owner x.user_vaddr = some a)
    (hlinked : ∀ a, e.spte = some a → Tracked all s e.owner a → (s.procs e.owner).alive →
      Linked s e a)
    (hres : ∀ a x, e.spte = some a → Tracked all s e.owner a → s.sptes a = some x →
      x.swapped = false)
    (honce : ∀ e' ∈ s.frame_table, Single all s e' e)
    (hnamed : all = true → (s.procs e.owner).leaving = false → e.spte ≠ none)
    (hborn : (s.procs e.owner).point ≠ .unused) (hblock : ∀ a, e.spte = some a → a < s.fresh) :
    LinkInv all { s with frame_table := s.frame_table ++ [e] } := by
  have hmem : ∀ {P : Fte → Prop}, (∀ e' ∈ s.frame_table, P e') → P e →
      ∀ e' ∈ s.frame_table ++ [e], P e' := fun hall he e' he' => by
    rcases List.mem_append.mp he' with he' | he'
    · exact hall e' he'
    · rw [List.mem_singleton.mp he']
      exact he
  refine ⟨fun q => ?_, hmem h.owns howns, hmem h.linked hlinked, hmem h.resident hres, ?_,
    fun hall => hmem (h.named hall) (hnamed hall), h.readonly, h.mapped, hmem h.born hborn,
    hmem h.blocks hblock⟩
  · have hq : Quiet q s { s with frame_table := s.frame_table ++ [e] } := Quiet.of_eq rfl rfl rfl rfl
    exact (h.stack q).mono (hq.follows id) (fun w b hk => hE.key_lt hk) fun w b _ _ hn => hn
  · refine List.pairwise_append.mpr ⟨h.once, List.pairwise_singleton _ _, fun e₁ he₁ e₂ he₂ => ?_⟩
    rw [List.mem_singleton.mp he₂]
    exact honce e₁ he₁

/-- A page that is wanted, and followed, is not mapped. -/
theorem absent (h : LinkInv all s) {w b : ℕ}
    (hk : (w, b) ∈ (s.procs p).points.flatMap Point.keys) (ht : Tracked all s p b) :
    (s.procs p).pagedir w = none := by
  have hst := h.stack p
  generalize (s.procs p).points = l at hk hst
  induction l with
  | nil => cases hk
  | cons pt rest ih =>
    rw [List.flatMap_cons, List.mem_append] at hk
    rcases hk with hk | hk
    · exact hst.1.absent w b hk ht
    · exact ih hk hst.2

/-- The entry of a page that is wanted, and followed, is not listed. -/
theorem not_listed (h : LinkInv all s) (hE : EntryInv s) {w b : ℕ}
    (hlive : (s.procs p).alive) (hfills : (s.procs p).point.fills = none)
    (hk : (w, b) ∈ (s.procs p).points.flatMap Point.keys) {e : Fte} (he : e ∈ s.frame_table)
    (hb : e.spte = some b) (ht : Tracked all s e.owner b) : False := by
  have hl := hE.keyed hk
  -- the owner of the listed frame is the process that wants the page
  have hown : e.owner = p := by
    obtain ⟨-, x, hx, -⟩ := hE.block p w b hl
    exact hE.owned _ _ _ _ b (h.owns e he b x hb hx) hl
  have hlink := h.linked e he b hb ht
  rw [hown] at ht hlink
  obtain ⟨x, hx, hmap⟩ := hlink hlive
  rw [hown] at hmap
  obtain ⟨-, y, hy, hyw⟩ := hE.block p w b hl
  obtain rfl := Option.some.inj (hx.symm.trans hy)
  rw [hyw] at hmap
  rcases hmap with ⟨pte, hpte, -⟩ | hfill
  · rw [h.absent hk ht] at hpte
    cases hpte
  · rw [hfills] at hfill
    cases hfill

end LinkInv

end Pintos.Vm
