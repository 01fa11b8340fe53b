/-
What every frame of the user pool is for.

The invariant gives each frame one role: it is free, it is mapped by one page of
one process, it is held by one process that is filling or saving it, or it is
lost (taken, and nobody's). A role is a function of the frame, so that no frame is
mapped twice needs no separate proof. What has to be kept is that the structures
of the kernel say nothing else: `RoleInv.of_proc` is the one lemma every step goes
through, and it leaves only what changed for the process that took the step.
-/
import Pintos.Vm.Paging

set_option autoImplicit false

namespace Pintos.Vm

open Pintos.Kernel

/-- What a frame is for. -/
inductive Role
  | free
  | mapped (p v : ℕ)
  | held (p : ℕ)
  | lost
  deriving DecidableEq

/-- The process a frame is used by. -/
def Role.user : Role → Option ℕ
  | .mapped p _ => some p
  | .held p => some p
  | _ => none

/-! ## What a process has in hand -/

/-- The frame a process has taken and not given away, by where it is. -/
def Point.held : Point → List ℕ
  | .save _ e => [e.frame]
  | .writeback _ e => [e.frame]
  | .free _ k => [k]
  | .load _ k => [k]
  | .swapin _ _ _ k => [k]
  | .refill _ _ _ k _ => [k]
  | .install _ _ _ k => [k]
  | _ => []

def Caller.held (c : Caller) : List ℕ := c.point.held

def Proc.held (t : Proc) : List ℕ := t.point.held ++ t.callers.flatMap Caller.held

/-- The page and the frame of a `swap_in` that has listed its frame. -/
def Point.fills : Point → Option (ℕ × ℕ)
  | .refill v _ _ k _ => some (v, k)
  | .install v _ _ k => some (v, k)
  | _ => none

/-- The entry a frame is wanted for. -/
def Want.key : Want → List (ℕ × ℕ)
  | .entry v _ a => [(v, a)]
  | _ => []

/-- The entries a process has looked up, with the page it asked for. -/
def Point.keys : Point → List (ℕ × ℕ)
  | .get w => w.key
  | .evict w => w.key
  | .save w _ => w.key
  | .writeback w _ => w.key
  | .free w _ => w.key
  | .load w _ => w.key
  | .swapin v _ a _ => [(v, a)]
  | .refill v _ a _ _ => [(v, a)]
  | .install v _ a _ => [(v, a)]
  | _ => []

def Caller.keys (c : Caller) : List (ℕ × ℕ) := c.point.keys

def Proc.keys (t : Proc) : List (ℕ × ℕ) := t.point.keys ++ t.callers.flatMap Caller.keys

/-- A return gives nothing up but the frame of the point it leaves. -/
theorem Proc.ret_held (t : Proc) : t.ret.held = t.callers.flatMap Caller.held := by
  unfold Proc.ret
  cases hc : t.callers with
  | nil => rfl
  | cons c rest => rfl

theorem Proc.ret_keys (t : Proc) : t.ret.keys = t.callers.flatMap Caller.keys := by
  unfold Proc.ret
  cases hc : t.callers with
  | nil => rfl
  | cons c rest => rfl

/-- The process can still touch its pages. -/
def Point.live : Point → Bool
  | .reap => false
  | .dead => false
  | .unused => false
  | _ => true

def Proc.alive (t : Proc) : Prop := t.point.live = true

theorem Proc.alive_at {t : Proc} {pt : Point} (hpt : t.point = pt) (h : pt.live = true) :
    t.alive := by
  rw [Proc.alive, hpt]
  exact h

/-! ## The invariant -/

/-- The block `a` was made for page `v`, if it is still there. -/
def Names (s : Mem) (v a : ℕ) : Prop :=
  a < s.fresh ∧ ∀ x, s.sptes a = some x → x.user_vaddr = v

/-- A frame table entry of a live process: its frame is mapped at the page of the
entry, or is on the way there, or is nobody's. -/
def Listed (role : ℕ → Role) (s : Mem) (e : Fte) : Prop :=
  role e.frame = .lost ∨ ∃ v, (∀ a, e.spte = some a → Names s v a) ∧
    (role e.frame = .mapped e.owner v ∨
      role e.frame = .held e.owner ∧ (s.procs e.owner).point.fills = some (v, e.frame))

/-- The kernel's structures agree with the roles. -/
structure RoleInv (role : ℕ → Role) (s : Mem) : Prop where
  used : ∀ k, role k ≠ .free → s.used_map.bits k = true
  mapped : ∀ p v pte, (s.procs p).pagedir v = some pte → role pte.frame = .mapped p v
  held : ∀ p k, k ∈ (s.procs p).held → role k = .held p
  once : ∀ p, (s.procs p).held.Nodup
  keyed : ∀ p v a, (v, a) ∈ (s.procs p).keys → Names s v a
  hashed : ∀ p v a, (s.procs p).sup_page_table v = some a → Names s v a
  blocks : ∀ e ∈ s.frame_table, ∀ a, e.spte = some a → a < s.fresh
  born : ∀ e ∈ s.frame_table, (s.procs e.owner).point ≠ .unused
  listed : ∀ e ∈ s.frame_table, (s.procs e.owner).alive → Listed role s e
  apart : s.frame_table.Pairwise (fun e e' =>
    (s.procs e.owner).alive → (s.procs e'.owner).alive → e.frame ≠ e'.frame)

/-- A frame a live process has listed is not one it is about to give away. -/
theorem RoleInv.listed_ne {role : ℕ → Role} {s : Mem} {p k : ℕ} (h : RoleInv role s)
    (hfills : (s.procs p).point.fills = none) (hr : role k = .free ∨ role k = .held p)
    {e : Fte} (he : e ∈ s.frame_table) (halive : (s.procs e.owner).alive) : e.frame ≠ k := by
  rintro rfl
  rcases h.listed e he halive with hl | ⟨v, -, hm | ⟨hh, hf⟩⟩
  · rcases hr with hr | hr <;> rw [hr] at hl <;> cases hl
  · rcases hr with hr | hr <;> rw [hr] at hm <;> cases hm
  · rcases hr with hr | hr
    · rw [hr] at hh
      cases hh
    · rw [hr] at hh
      rw [← Role.held.inj hh, hfills] at hf
      cases hf

/-- Two different entries of live processes list different frames. -/
theorem RoleInv.frames_ne {role : ℕ → Role} {s : Mem} (h : RoleInv role s) {e e' : Fte}
    (he : e ∈ s.frame_table) (he' : e' ∈ s.frame_table) (hne : e ≠ e')
    (halive : (s.procs e.owner).alive) (halive' : (s.procs e'.owner).alive) :
    e.frame ≠ e'.frame := by
  have hsymm : Std.Symm (fun e e' : Fte =>
      (s.procs e.owner).alive → (s.procs e'.owner).alive → e.frame ≠ e'.frame) :=
    ⟨fun _ _ hR ha ha' hc => hR ha' ha hc.symm⟩
  exact h.apart.forall he he' hne halive halive'

/-- The entries keep their pages: blocks are made and freed, never moved to another
page. -/
structure Keeps (s s' : Mem) : Prop where
  fresh : s.fresh ≤ s'.fresh
  vaddr : ∀ a < s.fresh, ∀ x', s'.sptes a = some x' →
    ∃ x, s.sptes a = some x ∧ x'.user_vaddr = x.user_vaddr

theorem Keeps.refl (s : Mem) : Keeps s s := ⟨le_rfl, fun _ _ x h => ⟨x, h, rfl⟩⟩

theorem Keeps.of_eq {s s' : Mem} (hf : s'.fresh = s.fresh) (hs : s'.sptes = s.sptes) :
    Keeps s s' where
  fresh := hf.ge
  vaddr a _ x' hx' := ⟨x', by rw [← hs]; exact hx', rfl⟩

theorem Keeps.of_set {s s' : Mem} {a : ℕ} {x y : Spte} (hf : s'.fresh = s.fresh)
    (hs : s'.sptes = Function.update s.sptes a (some y)) (hx : s.sptes a = some x)
    (hv : y.user_vaddr = x.user_vaddr) : Keeps s s' where
  fresh := hf.ge
  vaddr b _ z hz := by
    rw [hs] at hz
    by_cases hb : b = a
    · subst hb
      rw [Function.update_self] at hz
      rw [← Option.some.inj hz]
      exact ⟨x, hx, hv⟩
    · rw [Function.update_of_ne hb] at hz
      exact ⟨z, hz, rfl⟩

theorem Keeps.of_free {s s' : Mem} {a : ℕ} (hf : s'.fresh = s.fresh)
    (hs : s'.sptes = Function.update s.sptes a none) : Keeps s s' where
  fresh := hf.ge
  vaddr b _ z hz := by
    rw [hs] at hz
    by_cases hb : b = a
    · subst hb
      rw [Function.update_self] at hz
      cases hz
    · rw [Function.update_of_ne hb] at hz
      exact ⟨z, hz, rfl⟩

theorem Keeps.names {s s' : Mem} (hk : Keeps s s') {v a : ℕ} (h : Names s v a) : Names s' v a := by
  refine ⟨lt_of_lt_of_le h.1 hk.fresh, ?_⟩
  intro x' hx'
  obtain ⟨x, hx, hv⟩ := hk.vaddr a h.1 x' hx'
  rw [hv]
  exact h.2 x hx

/-- **One process moved.** What the others have is as it was; what is left to show
is about process `p`, the frames it gained or gave up, and the frame table. -/
theorem RoleInv.of_proc {role role' : ℕ → Role} {s s' : Mem} {p : ℕ} (h : RoleInv role s)
    (hother : ∀ q, q ≠ p → s'.procs q = s.procs q)
    (hrole : ∀ k q, (role k).user = some q → q ≠ p → role' k = role k)
    (hkeeps : Keeps s s')
    (hused : ∀ k, role' k ≠ .free → s'.used_map.bits k = true)
    (hmapped : ∀ v pte, (s'.procs p).pagedir v = some pte → role' pte.frame = .mapped p v)
    (hheld : ∀ k ∈ (s'.procs p).held, role' k = .held p)
    (honce : (s'.procs p).held.Nodup)
    (hkeyed : ∀ v a, (v, a) ∈ (s'.procs p).keys → Names s' v a)
    (hhashed : ∀ v a, (s'.procs p).sup_page_table v = some a → Names s' v a)
    (hborn : ∀ e ∈ s'.frame_table, (s'.procs e.owner).point ≠ .unused)
    (hblocks : ∀ e ∈ s'.frame_table, ∀ a, e.spte = some a → a < s'.fresh)
    (htheirs : ∀ e ∈ s'.frame_table, e.owner ≠ p → (s.procs e.owner).alive →
      e ∈ s.frame_table ∧ (role e.frame = .lost → role' e.frame = .lost))
    (hmine : ∀ e ∈ s'.frame_table, e.owner = p → (s'.procs p).alive → Listed role' s' e)
    (hapart : s'.frame_table.Pairwise (fun e e' =>
      (s'.procs e.owner).alive → (s'.procs e'.owner).alive → e.frame ≠ e'.frame)) :
    RoleInv role' s' where
  used := hused
  mapped q v pte hpte := by
    by_cases hq : q = p
    · subst hq
      exact hmapped v pte hpte
    · rw [hother q hq] at hpte
      have hr := h.mapped q v pte hpte
      rw [hrole _ q (by rw [hr]; rfl) hq, hr]
  held q k hk := by
    by_cases hq : q = p
    · subst hq
      exact hheld k hk
    · rw [hother q hq] at hk
      have hr := h.held q k hk
      rw [hrole _ q (by rw [hr]; rfl) hq, hr]
  once q := by
    by_cases hq : q = p
    · subst hq
      exact honce
    · rw [hother q hq]
      exact h.once q
  keyed q v a hka := by
    by_cases hq : q = p
    · subst hq
      exact hkeyed v a hka
    · rw [hother q hq] at hka
      exact hkeeps.names (h.keyed q v a hka)
  hashed q v a hha := by
    by_cases hq : q = p
    · subst hq
      exact hhashed v a hha
    · rw [hother q hq] at hha
      exact hkeeps.names (h.hashed q v a hha)
  blocks := hblocks
  born := hborn
  listed e he halive := by
    by_cases hq : e.owner = p
    · exact hmine e he hq (by rw [← hq]; exact halive)
    · rw [hother _ hq] at halive
      obtain ⟨hmem, hlost⟩ := htheirs e he hq halive
      rcases h.listed e hmem halive with hl | ⟨v, hn, hr⟩
      · exact Or.inl (hlost hl)
      · refine Or.inr ⟨v, fun a ha => hkeeps.names (hn a ha), ?_⟩
        rcases hr with hr | ⟨hr, hf⟩
        · left
          rw [hrole _ e.owner (by rw [hr]; rfl) hq, hr]
        · right
          rw [hrole _ e.owner (by rw [hr]; rfl) hq, hother _ hq]
          exact ⟨hr, hf⟩
  apart := hapart

/-- A live process that changes what some of its frames are for. A frame of no live
process may change as well if it is free, or lost and no longer listed. -/
theorem RoleInv.of_live {role role' : ℕ → Role} {s s' : Mem} {p : ℕ} (h : RoleInv role s)
    (halive : (s.procs p).alive)
    (hother : ∀ q, q ≠ p → s'.procs q = s.procs q)
    (hkeeps : Keeps s s')
    (hrole : ∀ k, role' k ≠ role k → role k = .free ∨ (role k).user = some p ∨
      role k = .lost ∧ ∀ e ∈ s'.frame_table, (s.procs e.owner).alive → e.frame ≠ k)
    (hused : ∀ k, role' k ≠ .free → s'.used_map.bits k = true)
    (hmapped : ∀ v pte, (s'.procs p).pagedir v = some pte → role' pte.frame = .mapped p v)
    (hheld : ∀ k ∈ (s'.procs p).held, role' k = .held p)
    (honce : (s'.procs p).held.Nodup)
    (hkeyed : ∀ v a, (v, a) ∈ (s'.procs p).keys →
      (v, a) ∈ (s.procs p).keys ∨ (s.procs p).sup_page_table v = some a)
    (hhash : ∀ v a, (s'.procs p).sup_page_table v = some a →
      (s.procs p).sup_page_table v = some a ∨ Names s' v a)
    (hborn : (s'.procs p).point ≠ .unused)
    (htable : List.Sublist s'.frame_table s.frame_table)
    (hmine : (s'.procs p).alive → ∀ e ∈ s'.frame_table, e.owner = p → ∀ v,
      (role e.frame = .mapped p v ∨
        role e.frame = .held p ∧ (s.procs p).point.fills = some (v, e.frame)) →
      role' e.frame = .lost ∨ role' e.frame = .mapped p v ∨
        role' e.frame = .held p ∧ (s'.procs p).point.fills = some (v, e.frame)) :
    RoleInv role' s' := by
  have hlive : ∀ q, (s'.procs q).alive → (s.procs q).alive := by
    intro q hq
    by_cases hqp : q = p
    · subst hqp
      exact halive
    · rwa [hother q hqp] at hq
  have hsame : ∀ k q, (role k).user = some q → q ≠ p → role' k = role k := by
    intro k q hk hq
    by_contra hne
    rcases hrole k hne with hf | hf | ⟨hf, -⟩
    · rw [hf] at hk
      cases hk
    · rw [hf] at hk
      exact hq (Option.some.inj hk).symm
    · rw [hf] at hk
      cases hk
  have hlost : ∀ e ∈ s'.frame_table, (s.procs e.owner).alive → role e.frame = .lost →
      role' e.frame = .lost := by
    intro e he ha hl
    by_contra hne
    rcases hrole e.frame (by rw [hl]; exact hne) with hf | hf | ⟨-, hf⟩
    · rw [hf] at hl
      cases hl
    · rw [hl] at hf
      cases hf
    · exact hf e he ha rfl
  refine h.of_proc (p := p) hother hsame hkeeps hused hmapped hheld honce ?_ ?_ ?_ ?_ ?_ ?_ ?_
  · intro v a hka
    rcases hkeyed v a hka with hka | hka
    · exact hkeeps.names (h.keyed p v a hka)
    · exact hkeeps.names (h.hashed p v a hka)
  · intro v a hva
    rcases hhash v a hva with hva | hva
    · exact hkeeps.names (h.hashed p v a hva)
    · exact hva
  · intro e he
    by_cases hq : e.owner = p
    · rw [hq]
      exact hborn
    · rw [hother _ hq]
      exact h.born e (htable.subset he)
  · exact fun e he a ha => lt_of_lt_of_le (h.blocks e (htable.subset he) a ha) hkeeps.fresh
  · exact fun e he _ ha => ⟨htable.subset he, hlost e he ha⟩
  · intro e he hq ha
    have hae : (s.procs e.owner).alive := by rw [hq]; exact halive
    rcases h.listed e (htable.subset he) hae with hl | ⟨v, hn, hr⟩
    · exact Or.inl (hlost e he hae hl)
    · rw [hq] at hr
      rcases hmine ha e he hq v hr with hr' | hr'
      · exact Or.inl hr'
      · refine Or.inr ⟨v, fun a hea => hkeeps.names (hn a hea), ?_⟩
        rw [hq]
        exact hr'
  · exact (h.apart.sublist htable).imp (fun hne ha ha' => hne (hlive _ ha) (hlive _ ha'))

/-- A process that goes on with the frames and the pages it had. -/
theorem RoleInv.move {role : ℕ → Role} {s s' : Mem} {p : ℕ} (h : RoleInv role s)
    (halive : (s.procs p).alive)
    (hother : ∀ q, q ≠ p → s'.procs q = s.procs q)
    (hkeeps : Keeps s s')
    (hused : s'.used_map = s.used_map)
    (htable : s'.frame_table = s.frame_table)
    (hpagedir : (s'.procs p).pagedir = (s.procs p).pagedir)
    (hhash : (s'.procs p).sup_page_table = (s.procs p).sup_page_table)
    (hheld : List.Sublist (s'.procs p).held (s.procs p).held)
    (hkeyed : ∀ v a, (v, a) ∈ (s'.procs p).keys →
      (v, a) ∈ (s.procs p).keys ∨ (s.procs p).sup_page_table v = some a)
    (hborn : (s'.procs p).point ≠ .unused)
    (hfills : ∀ f, (s.procs p).point.fills = some f → (s'.procs p).point.fills = some f) :
    RoleInv role s' := by
  refine h.of_live halive hother hkeeps (fun k hk => absurd rfl hk) ?_ ?_ ?_ ?_ hkeyed ?_ hborn
    (by rw [htable]) ?_
  · rw [hused]
    exact h.used
  · rw [hpagedir]
    exact h.mapped p
  · exact fun k hk => h.held p k (hheld.subset hk)
  · exact hheld.nodup (h.once p)
  · intro v a hva
    rw [hhash] at hva
    exact Or.inl hva
  · exact fun _ e _ _ v hr => Or.inr (hr.imp id (fun hf => ⟨hf.1, hfills _ hf.2⟩))

/-- A process that goes on to another point, while what is shared changes only where
no role depends on it. -/
theorem RoleInv.goto {role : ℕ → Role} {s s' : Mem} {p : ℕ} (h : RoleInv role s)
    (hprocs : s'.procs = s.procs) (hkeeps : Keeps s s') (hused : s'.used_map = s.used_map)
    (htable : s'.frame_table = s.frame_table) (pt : Point) (halive : (s.procs p).alive)
    (hheld : List.Sublist pt.held (s.procs p).point.held)
    (hkeyed : ∀ ka ∈ pt.keys, ka ∈ (s.procs p).point.keys) (hborn : pt ≠ .unused)
    (hfills : ∀ f, (s.procs p).point.fills = some f → pt.fills = some f) :
    RoleInv role (s'.goto p pt) := by
  have hself : (s'.goto p pt).procs p = { s.procs p with point := pt } := by
    rw [Mem.goto_self, hprocs]
  refine h.move halive ?_ ⟨hkeeps.fresh, hkeeps.vaddr⟩ hused htable ?_ ?_ ?_ ?_ ?_ ?_
  · intro q hq
    rw [Mem.goto_of_ne _ hq, hprocs]
  · rw [hself]
  · rw [hself]
  · rw [hself]
    exact hheld.append_right _
  · intro v a hka
    rw [hself] at hka
    refine Or.inl (List.mem_append.mpr ?_)
    exact (List.mem_append.mp hka).imp (hkeyed _) id
  · rw [hself]
    exact hborn
  · rw [hself]
    exact hfills

/-- An entry is added for a frame that is not listed. -/
theorem RoleInv.enlist {role : ℕ → Role} {s : Mem} {e : Fte} (h : RoleInv role s)
    (hborn : (s.procs e.owner).point ≠ .unused) (hblock : ∀ a, e.spte = some a → a < s.fresh)
    (hlisted : (s.procs e.owner).alive → Listed role s e)
    (hnew : ∀ e' ∈ s.frame_table, (s.procs e'.owner).alive → e'.frame ≠ e.frame) :
    RoleInv role { s with frame_table := s.frame_table ++ [e] } := by
  have hmem : ∀ (P : Fte → Prop), (∀ e' ∈ s.frame_table, P e') → P e →
      ∀ e' ∈ s.frame_table ++ [e], P e' := by
    intro P hP he e' he'
    rcases List.mem_append.mp he' with he' | he'
    · exact hP e' he'
    · rw [List.mem_singleton.mp he']
      exact he
  exact {
    used := h.used
    mapped := h.mapped
    held := h.held
    once := h.once
    keyed := h.keyed
    hashed := h.hashed
    blocks := hmem _ h.blocks hblock
    born := hmem _ h.born hborn
    listed := hmem _ h.listed hlisted
    apart := by
      refine List.pairwise_append.mpr ⟨h.apart, List.pairwise_singleton _ _, ?_⟩
      intro e' he' e'' he'' ha _
      rw [List.mem_singleton.mp he'']
      exact hnew e' he' ha }

end Pintos.Vm
