/-
Eviction between processes.

`swap_out` takes the front of the frame table, whoever owns it, and clears the
page in the page directory of the process that is running. If these are the same
process the page is gone before its frame is free. If they are not, the owner goes
on using a frame that the allocator gives to the next process that asks.
-/
import Pintos.Vm.FrameRole
import Pintos.Vm.Steps

set_option autoImplicit false

namespace Pintos.Vm

open Pintos.Kernel StepSystem

variable {role : ℕ → Role} {s s' : Mem} {p : ℕ}

/-! ## Steps that keep every role -/

theorem Mem.upd_id (s : Mem) (p : ℕ) : s.upd p (fun t => { t with callers := t.callers }) = s := by
  unfold Mem.upd
  rw [show (fun t : Proc => { t with callers := t.callers }) (s.procs p) = s.procs p from rfl,
    Function.update_eq_self]

/-- A fault, taken in user code or by a system call that is left on the stack. -/
theorem RoleInv.fault {cs : List Caller} {addr : ℕ} {write near_esp : Bool} (h : RoleInv role s)
    (hlive : (s.procs p).alive) (hfills : (s.procs p).point.fills = none)
    (hheld : cs.flatMap Caller.held = (s.procs p).held)
    (hkeys : ∀ ka ∈ cs.flatMap Caller.keys, ka ∈ (s.procs p).keys)
    (hs : page_fault (s.upd p (fun t => { t with callers := cs })) p addr write near_esp
      = .ok s') : RoleInv role s' := by
  have hfills' : ∀ f pt, (s.procs p).point.fills = some f → Point.fills pt = some f := by
    intro f pt hf
    rw [hfills] at hf
    cases hf
  have hgo : ∀ w : Want, (∀ v a, (v, a) ∈ w.key → (s.procs p).sup_page_table v = some a) →
      RoleInv role ((s.upd p (fun t => { t with callers := cs })).goto p (.get w)) := by
    intro w hw
    have hself : ((s.upd p (fun t => { t with callers := cs })).goto p (.get w)).procs p
        = { s.procs p with callers := cs, point := .get w } := by
      rw [Mem.goto_self, Mem.upd_self]
    refine h.move hlive ?_ (Keeps.of_eq rfl rfl) rfl rfl ?_ ?_ ?_ ?_ ?_ ?_
    · intro q hq
      rw [Mem.goto_of_ne _ hq, Mem.upd_of_ne _ hq]
    all_goals rw [hself]
    · show List.Sublist ([] ++ cs.flatMap Caller.held) _
      rw [List.nil_append, hheld]
    · intro v a hka
      rcases List.mem_append.mp hka with hka | hka
      · exact Or.inr (hw v a hka)
      · exact Or.inl (hkeys _ hka)
    · exact fun hc => by cases hc
    · exact fun f => hfills' f _
  rcases page_fault_spec hs with rfl | ⟨-, ⟨a, x, hl, -, -, -, rfl⟩ | ⟨-, -, rfl⟩⟩
  · have hself : ((s.upd p (fun t => { t with callers := cs })).exit p).procs p
        = { s.procs p with callers := [], point := .exit } := by
      rw [Mem.exit_self, Mem.upd_self]
    refine h.move hlive ?_ (Keeps.of_eq rfl rfl) rfl rfl ?_ ?_ ?_ ?_ ?_ ?_
    · intro q hq
      rw [Mem.exit_of_ne hq, Mem.upd_of_ne _ hq]
    all_goals rw [hself]
    · exact List.nil_sublist _
    · exact fun v a hka => by cases hka
    · exact fun hc => by cases hc
    · exact fun f => hfills' f _
  · apply hgo
    intro v b hvb
    simp only [Want.key, List.mem_singleton, Prod.mk.injEq] at hvb
    obtain ⟨rfl, rfl⟩ := hvb
    simpa [page_lookup] using hl
  · apply hgo
    intro v b hvb
    cases hvb

/-! ## Steps that change what a frame is for -/

/-- What a process keeps when it goes to a point that wants the same page. -/
theorem keys_goto {t : Proc} {pt : Point} (hk : pt.keys = t.point.keys) {v a : ℕ}
    (h : (v, a) ∈ ({ t with point := pt } : Proc).keys) : (v, a) ∈ t.keys := by
  rw [Proc.keys, ← hk]
  exact h

theorem RoleInv.step_get {w : Want} (h : RoleInv role s) (hpt : (s.procs p).point = .get w)
    (hs : step_get s p w = .ok s') : ∃ role', RoleInv role' s' := by
  have hlive : (s.procs p).alive := Proc.alive_at hpt rfl
  have hfills : (s.procs p).point.fills = none := by rw [hpt]; rfl
  rcases step_get_spec hs with rfl | ⟨i, hfree, rfl⟩
  · refine ⟨role, h.goto rfl (Keeps.refl _) rfl rfl (.evict w) hlive ?_ ?_ ?_ ?_⟩
    · exact List.nil_sublist _
    · rw [hpt]
      exact fun ka hka => hka
    · exact fun hc => by cases hc
    · rw [hpt]
      exact fun f hf => by cases hf
  -- frame `i` was free, so nothing in the kernel speaks of it
  have hi : role i = .free := by
    by_contra hne
    rw [h.used i hne] at hfree
    cases hfree
  have hkept : ∀ k r, role k = r → r ≠ .free → Function.update role i (.held p) k = r := by
    intro k r hk hr
    rw [Function.update_of_ne, hk]
    rintro rfl
    exact hr (hk.symm.trans hi)
  refine ⟨Function.update role i (.held p), ?_⟩
  refine h.of_live hlive (fun q hq => Mem.goto_of_ne _ hq) (Keeps.of_eq rfl rfl)
    ?_ ?_ ?_ ?_ ?_ ?_ ?_ ?_ (List.Sublist.refl _) ?_
  · intro k hk
    left
    by_contra hne
    exact hk (hkept k _ rfl hne)
  · intro k hk
    by_cases hki : k = i
    · subst hki
      exact Function.update_self _ _ _
    · rw [Function.update_of_ne hki] at hk
      exact (Function.update_of_ne hki _ _).trans (h.used k hk)
  · intro v pte hpte
    rw [Mem.goto_self] at hpte
    exact hkept _ _ (h.mapped p v pte hpte) (by simp)
  · intro k hk
    rw [Mem.goto_self] at hk
    rcases List.mem_cons.mp hk with rfl | hk
    · exact Function.update_self _ _ _
    · exact hkept _ _ (h.held p k (List.mem_append_right _ hk)) (by simp)
  · rw [Mem.goto_self]
    refine List.nodup_cons.mpr ⟨?_, (List.nodup_append.mp (h.once p)).2.1⟩
    intro hk
    have := h.held p i (List.mem_append_right _ hk)
    rw [hi] at this
    cases this
  · intro v a hka
    rw [Mem.goto_self] at hka
    exact Or.inl (keys_goto (by rw [hpt]; rfl) hka)
  · intro v a hva
    rw [Mem.goto_self] at hva
    exact Or.inl hva
  · rw [Mem.goto_self]
    exact fun hc => by cases hc
  · rintro - e - - v (hm | ⟨-, hf⟩)
    · exact Or.inr (Or.inl (hkept _ _ hm (by simp)))
    · rw [hfills] at hf
      cases hf

/-- The roles after page `v` of a process was cleared: the frame that was there is
lost. -/
def clearRole (role : ℕ → Role) (t : Proc) (v : ℕ) : ℕ → Role :=
  fun k => if (t.pagedir v).map Pte.frame = some k then .lost else role k

theorem clearRole_of_ne {t : Proc} {v k : ℕ} (h : RoleInv role s) (ht : s.procs p = t)
    (hk : role k ≠ .mapped p v) : clearRole role t v k = role k := by
  unfold clearRole
  rw [if_neg]
  intro hc
  obtain ⟨pte, hpte, rfl⟩ := Option.map_eq_some_iff.mp hc
  exact hk (h.mapped p v pte (by rw [ht]; exact hpte))

/-- A frame of the process that the process has not on the way is listed as its page
or as nobody's. -/
theorem RoleInv.listed_own (h : RoleInv role s) (hlive : (s.procs p).alive)
    (hfills : (s.procs p).point.fills = none) {e : Fte} (he : e ∈ s.frame_table)
    (howner : e.owner = p) {a : ℕ} {x : Spte} (ha : e.spte = some a) (hx : s.sptes a = some x) :
    role e.frame = .lost ∨ role e.frame = .mapped p x.user_vaddr := by
  rcases h.listed e he (by rw [howner]; exact hlive) with hl | ⟨v, hn, hm | ⟨-, hf⟩⟩
  · exact Or.inl hl
  · rw [howner, ← (hn a ha).2 x hx] at hm
    exact Or.inr hm
  · rw [howner, hfills] at hf
    cases hf

/-- The process that evicts is the one whose page goes. -/
def OwnVictim (s : Mem) (p : ℕ) : Prop := ∀ e ∈ s.frame_table.head?, e.owner = p

theorem RoleInv.step_evict {w : Want} (h : RoleInv role s) (hpt : (s.procs p).point = .evict w)
    (hown : OwnVictim s p) (hs : step_evict s p w = .ok s') : ∃ role', RoleInv role' s' := by
  have hlive : (s.procs p).alive := Proc.alive_at hpt rfl
  have hfills : (s.procs p).point.fills = none := by rw [hpt]; rfl
  rcases step_evict_spec hs with ⟨rfl, -⟩ | ⟨-, e, rest, a, x, htable, ha, hx, -, rfl⟩
  · exact ⟨role, h⟩
  have howner : e.owner = p := hown e (by rw [htable]; rfl)
  have hmem : e ∈ s.frame_table := by rw [htable]; exact List.mem_cons_self
  have hsub : List.Sublist rest s.frame_table := by rw [htable]; exact List.sublist_cons_self _ _
  have happart := h.apart
  rw [htable, List.pairwise_cons] at happart
  have hother : ∀ e' ∈ rest, (s.procs e'.owner).alive → e'.frame ≠ e.frame := by
    intro e' he' halive'
    exact (happart.1 e' he' (by rw [howner]; exact hlive) halive').symm
  have hvictim := h.listed_own hlive hfills hmem howner ha hx
  -- the frame of the victim is nobody else's, the frame at its page is now lost
  let role' := Function.update (clearRole role (s.procs p) x.user_vaddr) e.frame (.held p)
  have hkept : ∀ k, k ≠ e.frame → role k ≠ .mapped p x.user_vaddr → role' k = role k := by
    intro k hk hm
    rw [show role' k = clearRole role (s.procs p) x.user_vaddr k from
      Function.update_of_ne hk _ _]
    exact clearRole_of_ne h rfl hm
  have hcallers : ∀ k ∈ (s.procs p).callers.flatMap Caller.held, role k = .held p ∧ k ≠ e.frame := by
    intro k hk
    have hr := h.held p k (List.mem_append_right _ hk)
    refine ⟨hr, ?_⟩
    rintro rfl
    rcases hvictim with hv | hv <;> rw [hv] at hr <;> cases hr
  refine ⟨role', h.of_live hlive (fun q hq => Mem.upd_of_ne _ hq) (Keeps.of_set rfl rfl hx rfl)
    ?_ ?_ ?_ ?_ ?_ ?_ ?_ ?_ hsub ?_⟩
  · intro k hk
    by_cases hke : k = e.frame
    · subst hke
      rcases hvictim with hv | hv
      · exact Or.inr (Or.inr ⟨hv, hother⟩)
      · rw [hv]
        exact Or.inr (Or.inl rfl)
    · by_cases hm : role k = .mapped p x.user_vaddr
      · rw [hm]
        exact Or.inr (Or.inl rfl)
      · exact absurd (hkept k hke hm) hk
  · intro k hk
    show s.used_map.bits k = true
    refine h.used k ?_
    intro hfree
    by_cases hke : k = e.frame
    · subst hke
      rcases hvictim with hv | hv <;> rw [hv] at hfree <;> cases hfree
    · rw [hkept k hke (by rw [hfree]; simp)] at hk
      exact hk hfree
  · intro v pte hpte
    rw [Mem.upd_self] at hpte
    change Function.update (s.procs p).pagedir x.user_vaddr none v = some pte at hpte
    have hv : v ≠ x.user_vaddr := by
      rintro rfl
      rw [Function.update_self] at hpte
      cases hpte
    rw [Function.update_of_ne hv] at hpte
    have hr := h.mapped p v pte hpte
    have hne : role pte.frame ≠ .mapped p x.user_vaddr := by
      rw [hr]
      exact fun hc => hv (Role.mapped.inj hc).2
    rw [hkept _ ?_ hne, hr]
    intro hc
    rcases hvictim with hl | hm
    · rw [hc, hl] at hr
      cases hr
    · rw [hc] at hne
      exact hne hm
  · intro k hk
    rw [Mem.upd_self] at hk
    rcases List.mem_cons.mp hk with rfl | hk
    · exact Function.update_self _ _ _
    · obtain ⟨hr, hne⟩ := hcallers k hk
      rw [hkept k hne (by rw [hr]; simp), hr]
  · rw [Mem.upd_self]
    exact List.nodup_cons.mpr ⟨fun hk => (hcallers _ hk).2 rfl,
      (List.nodup_append.mp (h.once p)).2.1⟩
  · intro v b hvb
    rw [Mem.upd_self] at hvb
    left
    rw [Proc.keys, hpt]
    exact hvb
  · intro v b hvb
    rw [Mem.upd_self] at hvb
    exact Or.inl hvb
  · rw [Mem.upd_self]
    exact fun hc => by cases hc
  · rintro - e' he' hq v (hm | ⟨-, hf⟩)
    · have hne : e'.frame ≠ e.frame := hother e' he' (by rw [hq]; exact hlive)
      by_cases hv : v = x.user_vaddr
      · subst hv
        rw [show role' e'.frame = clearRole role (s.procs p) x.user_vaddr e'.frame from
          Function.update_of_ne hne _ _, clearRole]
        split
        · exact Or.inl rfl
        · exact Or.inr (Or.inl hm)
      · right
        left
        rw [hkept _ hne (by rw [hm]; exact fun hc => hv (Role.mapped.inj hc).2), hm]
    · rw [hfills] at hf
      cases hf

theorem RoleInv.step_save {w : Want} {e : Fte} (h : RoleInv role s)
    (hpt : (s.procs p).point = .save w e) (hs : step_save s p w e = .ok s') : RoleInv role s' := by
  have hlive : (s.procs p).alive := Proc.alive_at hpt rfl
  have hgo : ∀ t : Mem, t.procs = s.procs → Keeps s t → t.used_map = s.used_map →
      t.frame_table = s.frame_table → ∀ pt : Point, pt.held = [e.frame] → pt.keys = w.key →
      pt ≠ .unused → RoleInv role (t.goto p pt) := by
    intro t hprocs hkeeps hused htable pt hheld hkeys hne
    refine h.goto hprocs hkeeps hused htable pt hlive ?_ ?_ hne ?_
    · rw [hpt, hheld]
      exact List.Sublist.refl _
    · rw [hpt, hkeys]
      exact fun ka hka => hka
    · rw [hpt]
      exact fun f hf => by cases hf
  obtain ⟨a, x, -, hx, ⟨-, -, ⟨rfl, -⟩ | ⟨-, rfl⟩⟩ | ⟨-, rfl⟩ | ⟨-, i, -, rfl⟩⟩ := step_save_spec hs
  · exact h
  · exact hgo { s with filesys_lock := some p } rfl (Keeps.of_eq rfl rfl) rfl rfl
      (.writeback w e) rfl rfl (by simp)
  · exact hgo s rfl (Keeps.refl s) rfl rfl (.free w e.frame) rfl rfl (by simp)
  · exact hgo { s.setSpte a { x with disk_sector_idx := i } with
      swap_device := write_sectors s.swap_device i (s.frames e.frame)
      swap_table := slot_set s.swap_table i true } rfl (Keeps.of_set rfl rfl hx rfl) rfl rfl
      (.free w e.frame) rfl rfl (by simp)

theorem RoleInv.step_writeback {w : Want} {e : Fte} {c : Choice} (h : RoleInv role s)
    (hpt : (s.procs p).point = .writeback w e) (hs : step_writeback s p w e c = .ok s') :
    RoleInv role s' := by
  have hlive : (s.procs p).alive := Proc.alive_at hpt rfl
  have hfills : (s.procs p).point.fills = none := by rw [hpt]; rfl
  obtain ⟨a, x, -, -, ⟨f, rfl⟩ | ⟨-, hfault⟩⟩ := step_writeback_spec hs
  · refine RoleInv.goto h ?_ (Keeps.of_eq ?_ ?_) ?_ ?_ (.free w e.frame) hlive ?_ ?_ ?_ ?_
    iterate 5 rfl
    · rw [hpt]
      exact List.Sublist.refl _
    · rw [hpt]
      exact fun ka hka => hka
    · exact fun hc => by cases hc
    · rw [hfills]
      exact fun f hf => by cases hf
  · refine h.fault hlive hfills ?_ ?_ hfault
    · rw [Proc.held, hpt]
      rfl
    · rw [Proc.keys, hpt]
      exact fun ka hka => hka

/-- **A frame goes back** to the pool from a process that holds it: nobody has it
mapped. -/
theorem RoleInv.give {k : ℕ} (h : RoleInv role s) (hlive : (s.procs p).alive)
    (hfills : (s.procs p).point.fills = none) (hk : k ∈ (s.procs p).held)
    (hother : ∀ q, q ≠ p → s'.procs q = s.procs q) (hkeeps : Keeps s s')
    (hbits : s'.used_map.bits = Function.update s.used_map.bits k false)
    (htable : s'.frame_table = s.frame_table)
    (hpagedir : (s'.procs p).pagedir = (s.procs p).pagedir)
    (hhash : (s'.procs p).sup_page_table = (s.procs p).sup_page_table)
    (hheld : List.Sublist (s'.procs p).held ((s.procs p).held.erase k))
    (hkeyed : ∀ ka ∈ (s'.procs p).keys, ka ∈ (s.procs p).keys)
    (hborn : (s'.procs p).point ≠ .unused) :
    RoleInv (Function.update role k .free) s' := by
  have hrole : role k = .held p := h.held p k hk
  have hkept : ∀ j r, role j = r → r ≠ .held p → Function.update role k .free j = r := by
    intro j r hj hr
    rw [Function.update_of_ne, hj]
    rintro rfl
    exact hr (hj.symm.trans hrole)
  refine h.of_live hlive hother hkeeps ?_ ?_ ?_ ?_ ?_ ?_ ?_ hborn (by rw [htable]) ?_
  · intro j hj
    right
    left
    by_cases hjk : j = k
    · rw [hjk, hrole]
      rfl
    · exact absurd (Function.update_of_ne hjk _ _) hj
  · intro j hj
    have hjk : j ≠ k := by
      rintro rfl
      exact hj (Function.update_self _ _ _)
    rw [Function.update_of_ne hjk] at hj
    rw [hbits, Function.update_of_ne hjk]
    exact h.used j hj
  · intro v pte hpte
    rw [hpagedir] at hpte
    exact hkept _ _ (h.mapped p v pte hpte) (by simp)
  · intro j hj
    have hj' := hheld.subset hj
    have hjk : j ≠ k := by
      rintro rfl
      exact (h.once p).not_mem_erase hj'
    rw [Function.update_of_ne hjk]
    exact h.held p j (List.mem_of_mem_erase hj')
  · exact hheld.nodup ((h.once p).erase k)
  · exact fun v a hka => Or.inl (hkeyed _ hka)
  · intro v a hva
    rw [hhash] at hva
    exact Or.inl hva
  · rintro - e - - v (hm | ⟨-, hf⟩)
    · exact Or.inr (Or.inl (hkept _ _ hm (by simp)))
    · rw [hfills] at hf
      cases hf

theorem RoleInv.step_free {w : Want} {k : ℕ} (h : RoleInv role s)
    (hpt : (s.procs p).point = .free w k) (hs : step_free s p w k = .ok s') :
    ∃ role', RoleInv role' s' := by
  obtain ⟨-, rfl⟩ := step_free_spec hs
  have hheld : (s.procs p).held = k :: (s.procs p).callers.flatMap Caller.held := by
    rw [Proc.held, hpt]
    rfl
  refine ⟨_, h.give (k := k) (Proc.alive_at hpt rfl) (by rw [hpt]; rfl) ?_
    (fun q hq => Mem.goto_of_ne _ hq) (Keeps.of_eq rfl rfl) rfl rfl ?_ ?_ ?_ ?_ ?_⟩
  · rw [hheld]
    exact List.mem_cons_self
  all_goals rw [Mem.goto_self]
  · rfl
  · rfl
  · rw [hheld, List.erase_cons_head]
    exact List.Sublist.refl _
  · exact fun ka hka => keys_goto (by rw [hpt]; rfl) hka
  · exact fun hc => by cases hc

theorem Proc.ret_point_ne (t : Proc) : t.ret.point ≠ .unused := by
  unfold Proc.ret
  cases t.callers with
  | nil => exact fun hc => by cases hc
  | cons c rest => cases c <;> exact fun hc => by cases hc

theorem Proc.ret_pagedir (t : Proc) : t.ret.pagedir = t.pagedir := by
  unfold Proc.ret
  cases t.callers <;> rfl

theorem Proc.ret_hash (t : Proc) : t.ret.sup_page_table = t.sup_page_table := by
  unfold Proc.ret
  cases t.callers <;> rfl

/-- **A frame reaches its page**, or is lost if it cannot be mapped, and the process
returns from the fault. -/
theorem RoleInv.place {v k : ℕ} {writable room b : Bool} {s₁ t : Mem} (h : RoleInv role s)
    (hlive : (s.procs p).alive) (hheld : (s.procs p).point.held = [k])
    (hfills : ∀ f, (s.procs p).point.fills = some f → f = (v, k))
    (hprocs : s₁.procs = s.procs)
    (hinst : install_fault_page s₁ p v k writable room = (b, t))
    (hprocs' : s'.procs = (t.ret p).procs) (hkeeps : Keeps s s')
    (hused : s'.used_map = s.used_map) (htable : s'.frame_table = s.frame_table) :
    RoleInv (Function.update role k (if b then .mapped p v else .lost)) s' := by
  have hall : (s.procs p).held = k :: (s.procs p).callers.flatMap Caller.held := by
    rw [Proc.held, hheld]
    rfl
  have hk : role k = .held p := h.held p k (by rw [hall]; exact List.mem_cons_self)
  have honce := h.once p
  rw [hall, List.nodup_cons] at honce
  have hself : s'.procs p = (t.procs p).ret := by rw [hprocs', Mem.ret_self]
  have hother : ∀ q, q ≠ p → s'.procs q = s.procs q := by
    intro q hq
    obtain ⟨procs, rfl, hsame⟩ := install_fault_page_fields hinst
    rw [hprocs', Mem.ret_of_ne hq]
    exact (hsame q hq).trans (by rw [hprocs])
  -- what installing leaves of the process, whether it succeeds or not
  have hrest : (t.procs p).callers = (s.procs p).callers ∧
      (t.procs p).sup_page_table = (s.procs p).sup_page_table := by
    rcases install_fault_page_spec hinst with ⟨-, rfl⟩ | ⟨-, -, rfl⟩
    · rw [hprocs]
      exact ⟨rfl, rfl⟩
    · rw [Mem.upd_self, hprocs]
      exact ⟨rfl, rfl⟩
  have hkept : ∀ j r, role j = r → r ≠ .held p → ∀ x, Function.update role k x j = r := by
    intro j r hj hr x
    rw [Function.update_of_ne, hj]
    rintro rfl
    exact hr (hj.symm.trans hk)
  refine h.of_live hlive hother hkeeps ?_ ?_ ?_ ?_ ?_ ?_ ?_ ?_ (by rw [htable]) ?_
  · intro j hj
    right
    left
    by_cases hjk : j = k
    · rw [hjk, hk]
      rfl
    · exact absurd (Function.update_of_ne hjk _ _) hj
  · intro j hj
    rw [hused]
    by_cases hjk : j = k
    · rw [hjk]
      exact h.used k (by rw [hk]; simp)
    · rw [Function.update_of_ne hjk] at hj
      exact h.used j hj
  · intro w pte hpte
    rw [hself, Proc.ret_pagedir] at hpte
    rcases install_fault_page_spec hinst with ⟨-, rfl⟩ | ⟨rfl, -, rfl⟩
    · rw [hprocs] at hpte
      exact hkept _ _ (h.mapped p w pte hpte) (by simp) _
    · rw [Mem.upd_self] at hpte
      change Function.update (s₁.procs p).pagedir v (some ⟨k, writable⟩) w = some pte at hpte
      by_cases hw : w = v
      · subst hw
        rw [Function.update_self] at hpte
        rw [← Option.some.inj hpte]
        exact Function.update_self _ _ _
      · rw [Function.update_of_ne hw, hprocs] at hpte
        exact hkept _ _ (h.mapped p w pte hpte) (by simp) _
  · intro j hj
    rw [hself, Proc.ret_held, hrest.1] at hj
    have hjk : j ≠ k := by
      rintro rfl
      exact honce.1 hj
    rw [Function.update_of_ne hjk]
    exact h.held p j (by rw [hall]; exact List.mem_cons_of_mem _ hj)
  · rw [hself, Proc.ret_held, hrest.1]
    exact honce.2
  · intro w a hka
    rw [hself, Proc.ret_keys, hrest.1] at hka
    exact Or.inl (List.mem_append_right _ hka)
  · intro w a hwa
    rw [hself, Proc.ret_hash, hrest.2] at hwa
    exact Or.inl hwa
  · rw [hself]
    exact Proc.ret_point_ne _
  · rintro - e - - w (hm | ⟨-, hf⟩)
    · exact Or.inr (Or.inl (hkept _ _ hm (by simp) _))
    · obtain ⟨rfl, hek⟩ := Prod.mk.inj (hfills _ hf)
      rw [hek, Function.update_self]
      cases b
      · exact Or.inl rfl
      · exact Or.inr (Or.inl rfl)

/-- A held frame of a process that is not in `swap_in` is not listed. -/
theorem RoleInv.held_ne {k : ℕ} (h : RoleInv role s) (hfills : (s.procs p).point.fills = none)
    (hk : k ∈ (s.procs p).held) {e : Fte} (he : e ∈ s.frame_table)
    (halive : (s.procs e.owner).alive) : e.frame ≠ k :=
  h.listed_ne hfills (Or.inr (h.held p k hk)) he halive

/-- Which processes are live does not depend on where a live process is. -/
theorem alive_of_other (hother : ∀ q, q ≠ p → s'.procs q = s.procs q)
    (hlive : (s.procs p).alive) {q : ℕ} (hq : (s'.procs q).alive) : (s.procs q).alive := by
  by_cases hqp : q = p
  · rw [hqp]
    exact hlive
  · rwa [hother q hqp] at hq

theorem RoleInv.load_page {v a k : ℕ} {write room : Bool} {x : Spte} (h : RoleInv role s)
    (hpt : (s.procs p).point = .load (.entry v write a) k) (hx : s.sptes a = some x)
    (hfull : Full s x) (hs : load_page s p v write a k x room = .ok s') :
    ∃ role', RoleInv role' s' := by
  have hlive : (s.procs p).alive := Proc.alive_at hpt rfl
  have hfills : (s.procs p).point.fills = none := by rw [hpt]; rfl
  obtain ⟨b, t, hinst, rfl⟩ := load_page_spec hx hfull hs
  obtain ⟨procs, rfl, hsame⟩ := install_fault_page_fields hinst
  have hother : ∀ q, q ≠ p → (({ read_page s x k with procs := procs } : Mem).ret p).procs q
      = s.procs q := fun q hq => (Mem.ret_of_ne hq).trans (hsame q hq)
  have hnames : Names s v a := h.keyed p v a (by
    rw [Proc.keys, hpt]
    exact List.mem_cons_self)
  refine ⟨Function.update role k (if b then .mapped p v else .lost), ?_⟩
  have hprocs : (read_page s x k).procs = s.procs := rfl
  let y := { x with loaded := true, dirty := x.dirty || write }
  let s₂ : Mem := { read_page s x k with
    procs := procs
    sptes := Function.update s.sptes a (some y) }
  have hkeeps : Keeps s (s₂.ret p) := Keeps.of_set (y := y) rfl rfl hx rfl
  have hplaced : RoleInv _ (s₂.ret p) := h.place hlive (by rw [hpt]; rfl)
    (by rw [hfills]; exact fun f hf => by cases hf) hprocs hinst rfl hkeeps rfl rfl
  refine hplaced.enlist (e := ⟨k, p, some a⟩) ?_ ?_ ?_ ?_
  · show (Mem.procs _ p).point ≠ _
    rw [Mem.ret_self]
    exact Proc.ret_point_ne _
  · intro a' ha'
    rw [← Option.some.inj ha']
    exact hnames.1
  · intro _
    unfold Listed
    rw [Function.update_self]
    cases b
    · exact Or.inl rfl
    · refine Or.inr ⟨v, ?_, Or.inl rfl⟩
      intro a' ha'
      rw [← Option.some.inj ha']
      exact hkeeps.names hnames
  · intro e' he' halive
    refine h.held_ne hfills ?_ he' (alive_of_other hother hlive halive)
    rw [Proc.held, hpt]
    exact List.mem_cons_self

/-- A new entry for a page. -/
theorem RoleInv.insert_page {x : Spte} (h : RoleInv role s) (hlive : (s.procs p).alive) :
    RoleInv role (insert_page s p x) := by
  have hkeeps : ∀ {s₂ : Mem}, s₂.fresh = s.fresh + 1 →
      s₂.sptes = Function.update s.sptes s.fresh (some x) → Keeps s s₂ := by
    intro s₂ hf hsp
    refine ⟨by omega, ?_⟩
    intro a ha y hy
    rw [hsp, Function.update_of_ne (by omega)] at hy
    exact ⟨y, hy, rfl⟩
  have hnames : ∀ {s₂ : Mem}, s₂.fresh = s.fresh + 1 →
      s₂.sptes = Function.update s.sptes s.fresh (some x) → Names s₂ x.user_vaddr s.fresh := by
    intro s₂ hf hsp
    refine ⟨by omega, ?_⟩
    intro y hy
    rw [hsp, Function.update_self] at hy
    rw [← Option.some.inj hy]
  unfold Vm.insert_page
  dsimp only
  have hne : (s.procs p).point ≠ .unused := by
    intro hc
    rw [Proc.alive, hc] at hlive
    cases hlive
  split
  · refine h.move hlive (fun q _ => rfl) (hkeeps rfl rfl) rfl rfl rfl rfl (List.Sublist.refl _)
      (fun v a hka => Or.inl hka) hne (fun f hf => hf)
  · refine h.of_live hlive (fun q hq => Mem.upd_of_ne _ hq) (hkeeps rfl rfl)
      (fun k hk => absurd rfl hk) h.used ?_ ?_ ?_ ?_ ?_ ?_ (List.Sublist.refl _) ?_
    all_goals rw [Mem.upd_self]
    · exact h.mapped p
    · exact h.held p
    · exact h.once p
    · exact fun v a hka => Or.inl hka
    · intro v a hva
      change Function.update (s.procs p).sup_page_table x.user_vaddr (some s.fresh) v
        = some a at hva
      by_cases hv : v = x.user_vaddr
      · subst hv
        rw [Function.update_self] at hva
        rw [← Option.some.inj hva]
        exact Or.inr (hnames rfl rfl)
      · rw [Function.update_of_ne hv] at hva
        exact Or.inl hva
    · exact hne
    · exact fun _ e _ _ v hr => Or.inr hr

theorem Proc.ret_alive (t : Proc) : t.ret.alive := by
  unfold Proc.ret
  cases t.callers with
  | nil => rfl
  | cons c rest => cases c <;> rfl

/-- Making an entry and returning do not depend on each other's order. -/
theorem insert_page_ret (s : Mem) (p : ℕ) (x : Spte) :
    insert_page (s.ret p) p x = (insert_page s p x).ret p := by
  unfold Vm.insert_page
  dsimp only
  rw [Mem.ret_self, Proc.ret_hash]
  cases (s.procs p).sup_page_table x.user_vaddr with
  | some a => rfl
  | none =>
    dsimp only
    unfold Mem.ret Mem.upd
    simp only [Function.update_self, Function.update_idem]
    congr 1
    unfold Proc.ret
    cases (s.procs p).callers <;> rfl

theorem insert_page_frame_table (s : Mem) (p : ℕ) (x : Spte) :
    (insert_page s p x).frame_table = s.frame_table := by
  unfold Vm.insert_page
  dsimp only
  cases (s.procs p).sup_page_table x.user_vaddr <;> rfl

theorem insert_page_alive (s : Mem) (p : ℕ) (x : Spte) (q : ℕ) :
    ((insert_page s p x).procs q).point = (s.procs q).point := by
  unfold Vm.insert_page
  dsimp only
  cases (s.procs p).sup_page_table x.user_vaddr with
  | some a => rfl
  | none =>
    by_cases hq : q = p
    · subst hq
      rw [Mem.upd_self]
    · rw [Mem.upd_of_ne _ hq]

/-- Calling `exit` gives nothing up, and loses what the process held. -/
theorem RoleInv.leave (h : RoleInv role s) (hlive : (s.procs p).alive)
    (hfills : (s.procs p).point.fills = none) : RoleInv role (s.exit p) := by
  refine h.move hlive (fun q hq => Mem.exit_of_ne hq) (Keeps.of_eq rfl rfl) rfl rfl ?_ ?_ ?_ ?_ ?_ ?_
  all_goals rw [Mem.exit_self]
  · exact List.nil_sublist _
  · exact fun v a hka => by cases hka
  · exact fun hc => by cases hc
  · rw [hfills]
    exact fun f hf => by cases hf

theorem RoleInv.step_load_grow {v k : ℕ} {c : Choice} (h : RoleInv role s)
    (hpt : (s.procs p).point = .load (.grow v) k)
    (hs : step_load s p (.grow v) k c = .ok s') : ∃ role', RoleInv role' s' := by
  have hlive : (s.procs p).alive := Proc.alive_at hpt rfl
  have hfills : (s.procs p).point.fills = none := by rw [hpt]; rfl
  rcases step_load_grow_spec hs with rfl | ⟨t, hinst, rfl⟩
  · exact ⟨role, h.leave hlive hfills⟩
  refine ⟨Function.update role k (.mapped p v), ?_⟩
  obtain ⟨procs, rfl, hsame⟩ := install_fault_page_fields hinst
  have hplaced : RoleInv _ (({ s with procs := procs } : Mem).ret p) := h.place hlive
    (by rw [hpt]; rfl) (by rw [hfills]; exact fun f hf => by cases hf) rfl hinst rfl
    (Keeps.of_eq rfl rfl) rfl rfl
  have hret : ∀ t : Mem, ((t.ret p).procs p).alive := by
    intro t
    rw [Mem.ret_self]
    exact Proc.ret_alive _
  have hent := hplaced.insert_page (hret _) (x := { c.junk with
    user_vaddr := v
    swapped := false
    dirty := false
    load_executable := false
    mmapped := false })
  rw [insert_page_ret] at hent
  have hlisted := hent.enlist (e := ⟨k, p, none⟩) ?_ (fun a ha => by cases ha) ?_ ?_
  · have htable : ((allocate_page { s with procs := procs } p v c.junk).ret p).frame_table
        = s.frame_table := insert_page_frame_table _ _ _
    change RoleInv _ { (allocate_page { s with procs := procs } p v c.junk).ret p with
      frame_table := ((allocate_page { s with procs := procs } p v c.junk).ret p).frame_table
        ++ [⟨k, p, none⟩] } at hlisted
    rw [htable] at hlisted
    exact hlisted
  · rw [Mem.ret_self]
    exact Proc.ret_point_ne _
  · intro _
    exact Or.inr ⟨v, fun a ha => (by cases ha), Or.inl (Function.update_self _ _ _)⟩
  · intro e' he' halive
    refine h.held_ne hfills ?_ ?_ ?_
    · rw [Proc.held, hpt]
      exact List.mem_cons_self
    · rw [show (Mem.ret _ p).frame_table = _ from insert_page_frame_table _ _ _] at he'
      exact he'
    · refine @alive_of_other s (({ s with procs := procs } : Mem).ret p) p
        (fun q hq => (Mem.ret_of_ne hq).trans (hsame q hq)) hlive _ ?_
      rw [← insert_page_ret] at halive
      unfold Proc.alive at halive ⊢
      rw [insert_page_alive] at halive
      exact halive

/-- `setup_stack`: the page is mapped and not listed. -/
theorem RoleInv.step_load_stack {k : ℕ} {c : Choice} (h : RoleInv role s)
    (hpt : (s.procs p).point = .load .stack k)
    (hs : step_load s p .stack k c = .ok s') : ∃ role', RoleInv role' s' := by
  have hlive : (s.procs p).alive := Proc.alive_at hpt rfl
  have hfills : (s.procs p).point.fills = none := by rw [hpt]; rfl
  obtain ⟨b, ⟨t, hinst, rfl⟩ | ⟨t, hfree, rfl⟩⟩ := step_load_stack_spec hs
  · refine ⟨Function.update role k (.mapped p (PHYS_PAGES - 1)), ?_⟩
    have hprocs : (s.setFrame k b).procs = s.procs := rfl
    obtain ⟨procs, rfl, -⟩ := install_fault_page_fields hinst
    exact h.place hlive (by rw [hpt]; rfl) (by rw [hfills]; exact fun f hf => by cases hf)
      hprocs hinst rfl (Keeps.of_eq rfl rfl) rfl rfl
  · obtain ⟨-, rfl⟩ := palloc_free_page_spec hfree
    have hheld : (s.procs p).held = k :: (s.procs p).callers.flatMap Caller.held := by
      rw [Proc.held, hpt]
      rfl
    refine ⟨_, h.give (k := k) hlive hfills ?_ (fun q hq => Mem.exit_of_ne hq)
      (Keeps.of_eq rfl rfl) rfl rfl ?_ ?_ ?_ ?_ ?_⟩
    · rw [hheld]
      exact List.mem_cons_self
    all_goals rw [Mem.exit_self]
    · rfl
    · rfl
    · exact List.nil_sublist _
    · exact fun ka hka => by cases hka
    · exact fun hc => by cases hc

/-- `swap_in` lists the frame before it is mapped. -/
theorem RoleInv.step_swapin {v a k : ℕ} {write : Bool} (h : RoleInv role s)
    (hpt : (s.procs p).point = .swapin v write a k)
    (hs : step_swapin s p v write a k = .ok s') : RoleInv role s' := by
  have hlive : (s.procs p).alive := Proc.alive_at hpt rfl
  have hfills : (s.procs p).point.fills = none := by rw [hpt]; rfl
  have hheld : k ∈ (s.procs p).held := by
    rw [Proc.held, hpt]
    exact List.mem_cons_self
  have hgo : ∀ t : Mem, t.procs = s.procs → Keeps s t → t.used_map = s.used_map →
      t.frame_table = s.frame_table → ∀ pt : Point, pt.held = [k] → pt.keys = [(v, a)] →
      pt ≠ .unused → RoleInv role (t.goto p pt) := by
    intro t hprocs hkeeps hused htable pt hpheld hkeys hne
    refine h.goto hprocs hkeeps hused htable pt hlive ?_ ?_ hne ?_
    · rw [hpt, hpheld]
      exact List.Sublist.refl _
    · rw [hpt, hkeys]
      exact fun ka hka => hka
    · rw [hfills]
      exact fun f hf => by cases hf
  obtain ⟨rfl, -⟩ | ⟨-, b, x, hl, hx, ⟨-, rfl⟩ | ⟨-, rfl⟩⟩ := step_swapin_spec hs
  · exact h
  · have hkeeps : Keeps s { s with
        swap_lock := some p
        sptes := Function.update s.sptes b (some { x with swapped := false }) } :=
      Keeps.of_set rfl rfl hx rfl
    have hmoved := hgo { s with
        swap_lock := some p
        sptes := Function.update s.sptes b (some { x with swapped := false }) } rfl
      hkeeps rfl rfl (.refill v write a k b) rfl rfl (by simp)
    have hnames := hkeeps.names (h.hashed p v b hl)
    refine hmoved.enlist (e := ⟨k, p, some b⟩) ?_ ?_ ?_ ?_
    · rw [Mem.goto_self]
      exact fun hc => by cases hc
    · intro b' hb'
      rw [← Option.some.inj hb']
      exact hnames.1
    · intro _
      refine Or.inr ⟨v, ?_, Or.inr ⟨h.held p k hheld, ?_⟩⟩
      · intro b' hb'
        rw [← Option.some.inj hb']
        exact hnames
      · rw [Mem.goto_self]
        rfl
    · intro e he halive
      exact h.held_ne hfills hheld he
        (alive_of_other (fun q hq => Mem.goto_of_ne _ hq) hlive halive)
  · exact hgo { s with swap_lock := some p } rfl (Keeps.of_eq rfl rfl) rfl rfl
      (.install v write a k) rfl rfl (by simp)

theorem RoleInv.step_refill {v a k b : ℕ} {write : Bool} (h : RoleInv role s)
    (hpt : (s.procs p).point = .refill v write a k b)
    (hs : step_refill s p v write a k b = .ok s') : RoleInv role s' := by
  have hgo : ∀ t : Mem, t.procs = s.procs → Keeps s t → t.used_map = s.used_map →
      t.frame_table = s.frame_table → RoleInv role (t.goto p (.install v write a k)) := by
    intro t hprocs hkeeps hused htable
    refine h.goto hprocs hkeeps hused htable _ (Proc.alive_at hpt rfl) ?_ ?_ (by simp) ?_
    all_goals rw [hpt]
    · exact List.Sublist.refl _
    · exact fun ka hka => hka
    · exact fun f hf => hf
  obtain ⟨x, -, ⟨-, rfl⟩ | ⟨-, rfl⟩⟩ := step_refill_spec hs
  · exact hgo { read_page s x k with swap_lock := none } rfl (Keeps.of_eq rfl rfl) rfl rfl
  · exact hgo { s with
      frames := Function.update s.frames k
        (read_sectors s.swap_device x.disk_sector_idx (s.frames k))
      swap_table := slot_set s.swap_table x.disk_sector_idx false
      swap_lock := none } rfl (Keeps.of_eq rfl rfl) rfl rfl

theorem RoleInv.step_install {v a k : ℕ} {write : Bool} {c : Choice} (h : RoleInv role s)
    (hpt : (s.procs p).point = .install v write a k)
    (hs : step_install s p v write a k c = .ok s') : ∃ role', RoleInv role' s' := by
  obtain ⟨x, b, t, hx, hinst, rfl⟩ := step_install_spec hs
  obtain ⟨procs, rfl, -⟩ := install_fault_page_fields hinst
  refine ⟨_, h.place (Proc.alive_at hpt rfl) (by rw [hpt]; rfl) ?_ rfl hinst rfl
    (Keeps.of_set rfl rfl hx rfl) rfl rfl⟩
  rw [hpt]
  exact fun f hf => (Option.some.inj hf).symm

/-! ## `munmap`, `exit` and the calls -/

/-- A return from a system call. -/
theorem RoleInv.back (h : RoleInv role s) (hlive : (s.procs p).alive)
    (hfills : (s.procs p).point.fills = none) : RoleInv role (s.ret p) := by
  refine h.move hlive (fun q hq => Mem.ret_of_ne hq) (Keeps.of_eq rfl rfl) rfl rfl ?_ ?_ ?_ ?_ ?_ ?_
  all_goals rw [Mem.ret_self]
  · exact Proc.ret_pagedir _
  · exact Proc.ret_hash _
  · rw [Proc.ret_held]
    exact List.sublist_append_right _ _
  · intro v a hka
    rw [Proc.ret_keys] at hka
    exact Or.inl (List.mem_append_right _ hka)
  · exact Proc.ret_point_ne _
  · rw [hfills]
    exact fun f hf => by cases hf

theorem RoleInv.step_unmapping {mapping : ℕ} (h : RoleInv role s)
    (hpt : (s.procs p).point = .unmapping mapping)
    (hs : step_unmapping s p mapping = .ok s') : RoleInv role s' := by
  have hlive : (s.procs p).alive := Proc.alive_at hpt rfl
  have hfills : (s.procs p).point.fills = none := by rw [hpt]; rfl
  obtain ⟨rfl, -⟩ | ⟨d, a, -, -, rfl | ⟨-, x, -, rfl⟩⟩ := step_unmapping_spec hs
  · exact h.back hlive hfills
  · exact h
  · refine RoleInv.goto h ?_ (Keeps.of_eq ?_ ?_) ?_ ?_ _ hlive ?_ ?_ (by simp) ?_
    iterate 5 rfl
    · exact List.nil_sublist _
    · exact fun ka hka => by cases hka
    · rw [hfills]
      exact fun f hf => by cases hf

/-- One page is cleared in the running process. -/
theorem RoleInv.unmap_page {m : Unmap} {x : Spte} {t : Mem} (h : RoleInv role s)
    (hpt : (s.procs p).point = .munmap m) (hx : s.sptes m.spte = some x)
    (ht : ∃ files, t = { s with files := files }) (hs : unmap_page t p m x = .ok s') :
    ∃ role', RoleInv role' s' := by
  have hlive : (s.procs p).alive := Proc.alive_at hpt rfl
  have hfills : (s.procs p).point.fills = none := by rw [hpt]; rfl
  obtain ⟨files, rfl⟩ := ht
  obtain ⟨-, rfl⟩ := unmap_page_spec hs
  have hkept : ∀ k r, role k = r → r ≠ .mapped p m.vaddr →
      clearRole role (s.procs p) m.vaddr k = r := by
    intro k r hk hr
    rw [clearRole_of_ne h rfl (by rw [hk]; exact hr), hk]
  refine ⟨clearRole role (s.procs p) m.vaddr, h.of_live hlive (fun q hq => Mem.upd_of_ne _ hq)
    (Keeps.of_set rfl rfl hx rfl) ?_ ?_ ?_ ?_ ?_ ?_ ?_ ?_ (List.Sublist.refl _) ?_⟩
  · intro k hk
    right
    left
    by_cases hm : role k = .mapped p m.vaddr
    · rw [hm]
      rfl
    · exact absurd (hkept k _ rfl hm) hk
  · intro k hk
    refine h.used k ?_
    intro hf
    rw [hkept k _ hf (by simp)] at hk
    exact hk rfl
  · intro v pte hpte
    rw [Mem.upd_self] at hpte
    change Function.update (s.procs p).pagedir m.vaddr none v = some pte at hpte
    have hv : v ≠ m.vaddr := by
      rintro rfl
      rw [Function.update_self] at hpte
      cases hpte
    rw [Function.update_of_ne hv] at hpte
    exact hkept _ _ (h.mapped p v pte hpte) (fun hc => hv (Role.mapped.inj hc).2)
  · intro k hk
    rw [Mem.upd_self] at hk
    exact hkept _ _ (h.held p k (List.mem_append_right _ hk)) (by simp)
  · rw [Mem.upd_self]
    exact (List.nodup_append.mp (h.once p)).2.1
  · intro v a hka
    rw [Mem.upd_self] at hka
    exact Or.inl (List.mem_append_right _ hka)
  · intro v a hva
    rw [Mem.upd_self] at hva
    exact Or.inl hva
  · rw [Mem.upd_self]
    exact fun hc => by cases hc
  · rintro - e - - v (hm | ⟨-, hf⟩)
    · by_cases hv : v = m.vaddr
      · subst hv
        rw [clearRole]
        split
        · exact Or.inl rfl
        · exact Or.inr (Or.inl hm)
      · exact Or.inr (Or.inl (hkept _ _ hm (fun hc => hv (Role.mapped.inj hc).2)))
    · rw [hfills] at hf
      cases hf

theorem RoleInv.step_munmap {m : Unmap} {c : Choice} (h : RoleInv role s)
    (hpt : (s.procs p).point = .munmap m) (hs : step_munmap s p m c = .ok s') :
    ∃ role', RoleInv role' s' := by
  have hlive : (s.procs p).alive := Proc.alive_at hpt rfl
  have hfills : (s.procs p).point.fills = none := by rw [hpt]; rfl
  obtain ⟨x, hx, ⟨-, rfl⟩ | ⟨-, files, hpage⟩ | ⟨-, -, hfault⟩⟩ := step_munmap_spec hs
  · refine ⟨role, h.goto rfl (Keeps.refl s) rfl rfl _ hlive ?_ ?_ (by simp) ?_⟩
    · exact List.nil_sublist _
    · exact fun ka hka => by cases hka
    · rw [hfills]
      exact fun f hf => by cases hf
  · exact h.unmap_page hpt hx ⟨_, rfl⟩ hpage
  · refine ⟨role, h.fault hlive hfills ?_ ?_ hfault⟩
    · rw [Proc.held, hpt]
      rfl
    · rw [Proc.keys, hpt]
      exact fun ka hka => hka

/-- The entries that `munmap` takes for its own are those of pages it has cleared. -/
def OwnMapping (s : Mem) (p : ℕ) (m : Unmap) (c : Choice) : Prop :=
  ∀ e ∈ s.frame_table, mid_of s c.stale_mid e = m.mapping → e.owner = p ∧
    ∃ a x, e.spte = some a ∧ s.sptes a = some x ∧ (s.procs p).pagedir x.user_vaddr = none

/-- The frames `munmap` frees are mapped nowhere. -/
theorem RoleInv.step_unlist {m : Unmap} {c : Choice} (h : RoleInv role s)
    (hpt : (s.procs p).point = .unlist m) (hown : OwnMapping s p m c)
    (hs : step_unlist s p m c = .ok s') : ∃ role', RoleInv role' s' := by
  have hlive : (s.procs p).alive := Proc.alive_at hpt rfl
  have hfills : (s.procs p).point.fills = none := by rw [hpt]; rfl
  obtain ⟨x, frames, bits, -, hbits, rfl⟩ := step_unlist_spec hs
  let gone : ℕ → Bool := fun k =>
    s.frame_table.any (fun e => mid_of s c.stale_mid e == m.mapping && e.frame == k)
  have hgone : ∀ k, gone k = true ↔
      ∃ e ∈ s.frame_table, mid_of s c.stale_mid e = m.mapping ∧ e.frame = k := by
    intro k
    simp [gone]
  -- what a freed frame was: its page is cleared, so nothing maps it
  have hwas : ∀ k, gone k = true → role k = .lost ∨ ∃ v, role k = .mapped p v ∧
      (s.procs p).pagedir v = none := by
    intro k hk
    obtain ⟨e, he, hmid, rfl⟩ := (hgone k).mp hk
    obtain ⟨howner, a, y, ha, hy, hclear⟩ := hown e he hmid
    exact (h.listed_own hlive hfills he howner ha hy).imp id (fun hm => ⟨_, hm, hclear⟩)
  -- an entry that stays does not list a freed frame
  have hstays : ∀ e ∈ s.frame_table, mid_of s c.stale_mid e ≠ m.mapping →
      (s.procs e.owner).alive → gone e.frame = false := by
    intro e he hmid halive
    by_contra hne
    obtain ⟨e', he', hmid', hframe⟩ := (hgone e.frame).mp (by simpa using hne)
    have howner := (hown e' he' hmid').1
    refine h.frames_ne he' he ?_ (by rw [howner]; exact hlive) halive hframe
    rintro rfl
    exact hmid hmid'
  let role' : ℕ → Role := fun k => if gone k then .free else role k
  have hkept : ∀ k, gone k = false → role' k = role k := fun k hk => by simp [role', hk]
  have hlisted : ∀ e, e ∈ s.frame_table.filter (fun e => mid_of s c.stale_mid e != m.mapping) →
      e ∈ s.frame_table ∧ mid_of s c.stale_mid e ≠ m.mapping := by
    intro e he
    simpa [List.mem_filter] using he
  refine ⟨role', h.of_live hlive ?_ (Keeps.of_free rfl rfl) ?_ ?_ ?_ ?_ ?_ ?_ ?_ ?_
    List.filter_sublist ?_⟩
  · intro q hq
    rw [Mem.ret_of_ne hq, Mem.upd_of_ne _ hq]
    rfl
  · intro k hk
    by_cases hg : gone k = true
    · rcases hwas k hg with hl | ⟨v, hm, -⟩
      · refine Or.inr (Or.inr ⟨hl, ?_⟩)
        rintro e he halive rfl
        obtain ⟨he, hmid⟩ := hlisted e he
        rw [hstays e he hmid halive] at hg
        cases hg
      · rw [hm]
        exact Or.inr (Or.inl rfl)
    · exact absurd (hkept k (by simpa using hg)) hk
  · intro k hk
    by_cases hg : gone k = true
    · exact absurd (by simp [role', hg]) hk
    · have hg' : gone k = false := by simpa using hg
      rw [hkept k hg'] at hk
      refine (hbits k).mpr ⟨h.used k hk, ?_⟩
      intro e he hmid hframe
      exact hg ((hgone k).mpr ⟨e, he, hmid, hframe⟩)
  · intro v pte hpte
    rw [Mem.ret_self, Proc.ret_pagedir, Mem.upd_self] at hpte
    have hr := h.mapped p v pte hpte
    rw [hkept, hr]
    by_contra hne
    rcases hwas pte.frame (by simpa using hne) with hl | ⟨w, hm, hclear⟩
    · rw [hl] at hr
      cases hr
    · rw [hm] at hr
      rw [← (Role.mapped.inj hr).2] at hpte
      have : (s.procs p).pagedir w = some pte := hpte
      rw [hclear] at this
      cases this
  · intro k hk
    rw [Mem.ret_self, Proc.ret_held, Mem.upd_self] at hk
    have hr := h.held p k (List.mem_append_right _ hk)
    rw [hkept, hr]
    by_contra hne
    rcases hwas k (by simpa using hne) with hl | ⟨w, hm, -⟩
    · rw [hl] at hr
      cases hr
    · rw [hm] at hr
      cases hr
  · rw [Mem.ret_self, Proc.ret_held, Mem.upd_self]
    exact (List.nodup_append.mp (h.once p)).2.1
  · intro v a hka
    rw [Mem.ret_self, Proc.ret_keys, Mem.upd_self] at hka
    exact Or.inl (List.mem_append_right _ hka)
  · intro v a hva
    rw [Mem.ret_self, Proc.ret_hash, Mem.upd_self] at hva
    change Function.update (s.procs p).sup_page_table x.user_vaddr none v = some a at hva
    left
    by_cases hv : v = x.user_vaddr
    · subst hv
      rw [Function.update_self] at hva
      cases hva
    · rwa [Function.update_of_ne hv] at hva
  · rw [Mem.ret_self]
    exact Proc.ret_point_ne _
  · rintro - e he hq v (hm | ⟨-, hf⟩)
    · obtain ⟨he, hmid⟩ := hlisted e he
      rw [hkept e.frame (hstays e he hmid (by rw [hq]; exact hlive))]
      exact Or.inr (Or.inl hm)
    · rw [hfills] at hf
      cases hf

/-- `thread_exit` frees the frames the process has mapped; its entries stay in the frame table
until the end of it. -/
theorem RoleInv.thread_exit (h : RoleInv role s) (hlive : (s.procs p).alive)
    (hs : thread_exit s p = .ok s') : ∃ role', RoleInv role' s' := by
  obtain ⟨frames, bits, hbits, rfl⟩ := thread_exit_spec hs
  -- a frame that is free now and was not before is one of the process
  have hwas : ∀ k, bits k = false → role k ≠ .free → ∃ v, role k = .mapped p v := by
    intro k hk hne
    by_contra hnone
    have : bits k = true := by
      refine (hbits k).mpr ⟨h.used k hne, ?_⟩
      rintro v - pte hpte rfl
      exact hnone ⟨v, h.mapped p v pte hpte⟩
    rw [this] at hk
    cases hk
  let role' : ℕ → Role := fun k => if bits k then role k else .free
  have hkept : ∀ k, bits k = true → role' k = role k := fun k hk => by simp [role', hk]
  refine ⟨role', h.of_live hlive ?_ (Keeps.of_eq rfl rfl) ?_ ?_ ?_ ?_ ?_ ?_ ?_ ?_
    (List.Sublist.refl _) ?_⟩
  · intro q hq
    rw [Mem.goto_of_ne _ hq, Mem.upd_of_ne _ hq]
    rfl
  · intro k hk
    by_cases hf : role k = .free
    · exact Or.inl hf
    · have hb : bits k = false := by
        by_contra hb
        exact hk (hkept k (by simpa using hb))
      obtain ⟨v, hv⟩ := hwas k hb hf
      rw [hv]
      exact Or.inr (Or.inl rfl)
  · intro k hk
    change bits k = true
    by_contra hb
    exact hk (by simp [role', hb])
  · intro v pte hpte
    rw [Mem.goto_self, Mem.upd_self] at hpte
    cases hpte
  · intro k hk
    rw [Mem.goto_self, Mem.upd_self] at hk
    have hr := h.held p k (List.mem_append_right _ hk)
    rw [hkept, hr]
    by_contra hb
    obtain ⟨v, hv⟩ := hwas k (by simpa using hb) (by rw [hr]; simp)
    rw [hv] at hr
    cases hr
  · rw [Mem.goto_self, Mem.upd_self]
    exact (List.nodup_append.mp (h.once p)).2.1
  · intro v a hka
    rw [Mem.goto_self, Mem.upd_self] at hka
    exact Or.inl (List.mem_append_right _ hka)
  · intro v a hva
    rw [Mem.goto_self, Mem.upd_self] at hva
    exact Or.inl hva
  · rw [Mem.goto_self]
    exact fun hc => by cases hc
  · intro halive
    rw [Mem.goto_self] at halive
    cases halive

/-- `exit` unmaps what is mapped before it ends the thread. -/
theorem RoleInv.step_exit (h : RoleInv role s) (hpt : (s.procs p).point = .exit)
    (hs : step_exit s p = .ok s') : ∃ role', RoleInv role' s' := by
  have hlive : (s.procs p).alive := Proc.alive_at hpt rfl
  have hfills : (s.procs p).point.fills = none := by rw [hpt]; rfl
  rcases step_exit_spec hs with ⟨mapping, rfl⟩ | hexit
  · refine ⟨role, h.move hlive (fun q hq => Mem.upd_of_ne _ hq) (Keeps.of_eq rfl rfl) rfl rfl
      ?_ ?_ ?_ ?_ ?_ ?_⟩
    all_goals rw [Mem.upd_self]
    · exact List.nil_sublist _
    · exact fun v a hka => by cases hka
    · exact fun hc => by cases hc
    · rw [hfills]
      exact fun f hf => by cases hf
  · exact h.thread_exit hlive hexit

/-- `thread_exit`: the entries of the process go. -/
theorem RoleInv.step_reap (h : RoleInv role s) : RoleInv role (step_reap s p) := by
  have hself := step_reap_self s p
  have hother : ∀ q, q ≠ p → (Vm.step_reap s p).procs q = s.procs q := fun q => step_reap_of_ne
  have hkeeps : Keeps s (Vm.step_reap s p) := by
    refine ⟨le_rfl, ?_⟩
    intro a _ x' hx'
    exact ⟨x', (Option.filter_eq_some_iff.mp hx').1, rfl⟩
  have hmem : ∀ e ∈ (Vm.step_reap s p).frame_table, e ∈ s.frame_table ∧ e.owner ≠ p := by
    intro e he
    simpa using List.mem_filter.mp he
  have hlive : ∀ q, ((Vm.step_reap s p).procs q).alive → (s.procs q).alive := by
    intro q hq
    by_cases hqp : q = p
    · rw [hqp, hself] at hq
      cases hq
    · rwa [hother q hqp] at hq
  refine h.of_proc (p := p) hother (fun _ _ _ _ => rfl) hkeeps h.used ?_ ?_ ?_ ?_ ?_ ?_ ?_ ?_ ?_ ?_
  · rw [hself]
    exact h.mapped p
  · rw [hself]
    exact fun k hk => h.held p k (List.mem_append_right _ hk)
  · rw [hself]
    exact (List.nodup_append.mp (h.once p)).2.1
  · rw [hself]
    exact fun v a hka => hkeeps.names (h.keyed p v a (List.mem_append_right _ hka))
  · rw [hself]
    exact fun v a hva => by cases hva
  · intro e he
    rw [hother _ (hmem e he).2]
    exact h.born e (hmem e he).1
  · exact fun e he a ha => h.blocks e (hmem e he).1 a ha
  · exact fun e he _ _ => ⟨(hmem e he).1, id⟩
  · exact fun e he hq _ => absurd hq (hmem e he).2
  · exact (h.apart.sublist List.filter_sublist).imp
      (fun hne ha ha' => hne (hlive _ ha) (hlive _ ha'))

theorem insert_pages_point (f : ℕ → Spte) (l : List ℕ) (s : Mem) (q : ℕ) :
    ((l.foldl (fun s i => insert_page s p (f i)) s).procs q).point = (s.procs q).point := by
  induction l generalizing s with
  | nil => rfl
  | cons i rest ih => exact (ih _).trans (insert_page_alive s p (f i) q)

/-- A call that makes one entry a page. -/
theorem RoleInv.insert_pages (f : ℕ → Spte) (l : List ℕ) {s : Mem} (h : RoleInv role s)
    (hlive : (s.procs p).alive) :
    RoleInv role (l.foldl (fun s i => Vm.insert_page s p (f i)) s) := by
  induction l generalizing s with
  | nil => exact h
  | cons i rest ih =>
    refine ih (h.insert_page hlive) ?_
    unfold Proc.alive
    rw [insert_page_alive]
    exact hlive

theorem RoleInv.load_segment {file : ℕ} {g : Segment} {junk : ℕ → Spte} (h : RoleInv role s)
    (hlive : (s.procs p).alive) (hs : load_segment s p file g junk = .ok s') :
    RoleInv role s' ∧ (s'.procs p).alive := by
  obtain ⟨_, -, hs⟩ := bind_eq_ok hs
  obtain ⟨_, -, hs⟩ := bind_eq_ok hs
  obtain rfl := Except.ok.inj hs
  refine ⟨h.insert_pages (fun i => segment_entry file g i (junk i)) _ hlive, ?_⟩
  unfold Proc.alive
  rw [insert_pages_point (fun i => segment_entry file g i (junk i))]
  exact hlive

/-- A new process has nothing, and nothing is listed for it. -/
theorem RoleInv.load {file : ℕ} {segs : List Segment} {junk : ℕ → Spte} (h : RoleInv role s)
    (hnew : (s.procs p).point = .unused) (hs : load s p file segs junk = .ok s') :
    RoleInv role s' := by
  unfold Vm.load at hs
  dsimp only at hs
  generalize hs₁ : Mem.upd _ p _ = s₁ at hs
  have hself : ∃ fds, s₁.procs p = {
      pagedir := fun _ => none
      tables := fun _ => false
      sup_page_table := fun _ => none
      fd_list := fds
      point := .get .stack
      callers := []
      exec_file := file } := ⟨[], by rw [← hs₁]; exact Mem.upd_self _ _ _⟩
  obtain ⟨fds, hself⟩ := hself
  have hother : ∀ q, q ≠ p → s₁.procs q = s.procs q := by
    intro q hq
    rw [← hs₁]
    exact Mem.upd_of_ne _ hq
  have howner : ∀ e ∈ s.frame_table, e.owner ≠ p := by
    rintro e he rfl
    exact h.born e he hnew
  have htable : s₁.frame_table = s.frame_table := by rw [← hs₁]; rfl
  have hstart : RoleInv role s₁ := by
    have hkeeps : Keeps s s₁ := Keeps.of_eq (by rw [← hs₁]; rfl) (by rw [← hs₁]; rfl)
    refine h.of_proc (p := p) hother (fun _ _ _ _ => rfl) hkeeps (by rw [← hs₁]; exact h.used)
      ?_ ?_ ?_ ?_ ?_ ?_ ?_ ?_ ?_ ?_
    · rw [hself]
      exact fun v pte hpte => by cases hpte
    · rw [hself]
      exact fun k hk => by cases hk
    · rw [hself]
      exact List.nodup_nil
    · rw [hself]
      exact fun v a hka => by cases hka
    · rw [hself]
      exact fun v a hva => by cases hva
    · intro e he
      rw [htable] at he
      rw [hother _ (howner e he)]
      exact h.born e he
    · intro e he a ha
      rw [htable] at he
      exact lt_of_lt_of_le (h.blocks e he a ha) hkeeps.fresh
    · intro e he _ _
      rw [htable] at he
      exact ⟨he, id⟩
    · intro e he hq _
      rw [htable] at he
      exact absurd hq (howner e he)
    · rw [htable]
      refine h.apart.imp_of_mem ?_
      intro e e' he he' hne ha ha'
      rw [hother _ (howner e he)] at ha
      rw [hother _ (howner e' he')] at ha'
      exact hne ha ha'
  have hlive : (s₁.procs p).alive := by
    rw [hself]
    rfl
  -- every segment adds entries for the new process
  clear hself hother htable howner hs₁ hnew h
  induction segs generalizing s₁ with
  | nil =>
    obtain rfl := Except.ok.inj hs
    exact hstart
  | cons g rest ih =>
    rw [List.foldlM_cons] at hs
    obtain ⟨s₂, hseg, hrest⟩ := bind_eq_ok hs
    obtain ⟨h₂, hlive₂⟩ := hstart.load_segment hlive hseg
    exact ih s₂ hrest h₂ hlive₂

theorem RoleInv.mmap {fd addr : ℕ} {junk : ℕ → Spte} (h : RoleInv role s)
    (hpt : (s.procs p).point = .user) : RoleInv role (mmap s p fd addr junk) := by
  have hlive : (s.procs p).alive := Proc.alive_at hpt rfl
  unfold Vm.mmap
  split
  · exact h
  · dsimp only
    split
    · exact h
    · refine RoleInv.insert_pages (fun i => _) _ ?_ ?_
      · refine h.move hlive (fun q hq => Mem.upd_of_ne _ hq) (Keeps.of_eq rfl rfl) rfl rfl
          ?_ ?_ ?_ ?_ ?_ ?_
        all_goals rw [Mem.upd_self]
        · exact List.Sublist.refl _
        · exact fun v a hka => Or.inl hka
        · show (s.procs p).point ≠ _
          rw [hpt]
          exact fun hc => by cases hc
        · exact fun f hf => hf
      · rw [Mem.upd_self]
        exact hlive

/-! ## Runs -/

theorem RoleInv.user_access {v i : ℕ} {store : Option UInt8} {near_esp : Bool}
    (h : RoleInv role s) (hpt : (s.procs p).point = .user)
    (hs : user_access s p v i store near_esp = .ok s') : RoleInv role s' := by
  have hlive : (s.procs p).alive := Proc.alive_at hpt rfl
  have hfault : ∀ {addr : ℕ} {write : Bool}, page_fault s p addr write near_esp = .ok s' →
      RoleInv role s' := by
    intro addr write hf
    rw [← Mem.upd_id s p] at hf
    refine @RoleInv.fault role s s' p (s.procs p).callers _ _ _ h hlive (by rw [hpt]; rfl) ?_ ?_ hf
    · rw [Proc.held, hpt]
      rfl
    · rw [Proc.keys, hpt]
      exact fun ka hka => hka
  unfold Vm.user_access at hs
  split at hs
  · obtain rfl := Except.ok.inj hs
    exact h
  · split at hs
    · obtain rfl := Except.ok.inj hs
      exact ⟨h.used, h.mapped, h.held, h.once, h.keyed, h.hashed, h.blocks, h.born, h.listed,
        h.apart⟩
    · exact hfault hs
  · exact hfault hs

/-- The condition on a step. A process evicts only a page of its own, a page comes from
a file that is long enough, and `munmap` frees only frames of pages it has cleared. -/
def Isolating (s : Mem) : Event → Prop
  | .run p c =>
    match (s.procs p).point with
    | .evict _ => s.swap_lock = none → OwnVictim s p
    | .load (.entry _ _ a) _ => ∀ x, s.sptes a = some x → x.swapped = false → Full s x
    | .unlist m => OwnMapping s p m c
    | _ => True
  | _ => True

/-- **One kernel step** keeps every frame in one role. -/
theorem RoleInv.run {c : Choice} (h : RoleInv role s) (hok : Isolating s (.run p c))
    (hs : run s p c = .ok s') : ∃ role', RoleInv role' s' := by
  unfold Vm.run at hs
  unfold Isolating at hok
  dsimp only at hok
  cases hpt : (s.procs p).point with
  | user =>
    rw [hpt] at hs
    rw [← Except.ok.inj hs]
    exact ⟨role, h⟩
  | get w =>
    rw [hpt] at hs
    exact h.step_get hpt hs
  | evict w =>
    rw [hpt] at hs hok
    by_cases hlock : s.swap_lock = none
    · exact h.step_evict hpt (hok hlock) hs
    · rcases step_evict_spec hs with ⟨rfl, -⟩ | ⟨hfree, -⟩
      · exact ⟨role, h⟩
      · exact absurd hfree hlock
  | save w e =>
    rw [hpt] at hs
    exact ⟨role, h.step_save hpt hs⟩
  | writeback w e =>
    rw [hpt] at hs
    exact ⟨role, h.step_writeback hpt hs⟩
  | free w k =>
    rw [hpt] at hs
    exact h.step_free hpt hs
  | load w k =>
    rw [hpt] at hs hok
    cases w with
    | entry v write a =>
      obtain ⟨x, hx, ⟨-, rfl⟩ | ⟨hsw, hload⟩⟩ := step_load_entry_spec hs
      · refine ⟨role, h.goto rfl (Keeps.refl s) rfl rfl _ (Proc.alive_at hpt rfl) ?_ ?_
          (by simp) ?_⟩
        all_goals rw [hpt]
        · exact List.Sublist.refl _
        · exact fun ka hka => hka
        · exact fun f hf => by cases hf
      · exact h.load_page hpt hx (hok x hx hsw) hload
    | grow v => exact h.step_load_grow hpt hs
    | stack => exact h.step_load_stack hpt hs
  | swapin v write a k =>
    rw [hpt] at hs
    exact ⟨role, h.step_swapin hpt hs⟩
  | refill v write a k b =>
    rw [hpt] at hs
    exact ⟨role, h.step_refill hpt hs⟩
  | install v write a k =>
    rw [hpt] at hs
    exact h.step_install hpt hs
  | unmapping mapping =>
    rw [hpt] at hs
    exact ⟨role, h.step_unmapping hpt hs⟩
  | munmap m =>
    rw [hpt] at hs
    exact h.step_munmap hpt hs
  | unlist m =>
    rw [hpt] at hs hok
    exact h.step_unlist hpt hok hs
  | exit =>
    rw [hpt] at hs
    exact h.step_exit hpt hs
  | reap =>
    rw [hpt] at hs
    rw [← Except.ok.inj hs]
    exact ⟨role, h.step_reap⟩
  | dead =>
    rw [hpt] at hs
    rw [← Except.ok.inj hs]
    exact ⟨role, h⟩
  | unused =>
    rw [hpt] at hs
    rw [← Except.ok.inj hs]
    exact ⟨role, h⟩

theorem inUser_point {t : Proc} (h : t.inUser = true) : t.point = .user := by
  unfold Proc.inUser at h
  cases hpt : t.point <;> rw [hpt] at h <;> first | rfl | cases h

theorem isUnused_point {t : Proc} (h : t.isUnused = true) : t.point = .unused := by
  unfold Proc.isUnused at h
  cases hpt : t.point <;> rw [hpt] at h <;> first | rfl | cases h

/-- **One event** keeps every frame in one role. -/
theorem RoleInv.exec {ev : Event} (h : RoleInv role s) (hok : Isolating s ev)
    (hs : exec s ev = .ok s') : ∃ role', RoleInv role' s' := by
  have hkeep {b : Bool} {r : Res Mem} :=
    @of_guard s s' (fun t => ∃ role', RoleInv role' t) b r ⟨role, h⟩
  cases ev with
  | load p file segs junk =>
    exact hkeep (fun hu hs => ⟨role, h.load (isUnused_point hu) hs⟩) hs
  | access p v i store near_esp =>
    refine hkeep (fun hu hs => ?_) hs
    exact ⟨role, h.user_access (inUser_point (Bool.and_eq_true_iff.mp hu).1) hs⟩
  | open_file p file =>
    refine hkeep (fun hu hs => ?_) hs
    have hpt := inUser_point hu
    rw [← Except.ok.inj hs]
    unfold open_file
    refine ⟨role, h.move (Proc.alive_at hpt rfl) (fun q hq => Mem.upd_of_ne _ hq)
      (Keeps.of_eq rfl rfl) rfl rfl ?_ ?_ ?_ ?_ ?_ ?_⟩
    all_goals rw [Mem.upd_self]
    · exact List.Sublist.refl _
    · exact fun v a hka => Or.inl hka
    · show (s.procs p).point ≠ _
      rw [hpt]
      exact fun hc => by cases hc
    · exact fun f hf => hf
  | mmap p fd addr junk =>
    refine hkeep (fun hu hs => ?_) hs
    rw [← Except.ok.inj hs]
    exact ⟨role, h.mmap (inUser_point hu)⟩
  | munmap p mapping =>
    refine hkeep (fun hu hs => ?_) hs
    have hpt := inUser_point hu
    rw [← Except.ok.inj hs]
    refine ⟨role, h.goto rfl (Keeps.refl s) rfl rfl _ (Proc.alive_at hpt rfl)
      (List.nil_sublist _) ?_ (by simp) ?_⟩
    · exact fun ka hka => by cases hka
    · rw [hpt]
      exact fun f hf => by cases hf
  | exit p =>
    refine hkeep (fun hu hs => ?_) hs
    have hpt := inUser_point hu
    rw [← Except.ok.inj hs]
    exact ⟨role, h.leave (Proc.alive_at hpt rfl) (by rw [hpt]; rfl)⟩
  | kill p =>
    refine hkeep (fun hu hs => ?_) hs
    exact h.thread_exit (Proc.alive_at (inUser_point hu) rfl) hs
  | run p c => exact h.run hok hs

/-- Before the first process every frame is free. -/
theorem Boot.all_free (h : Boot s) : RoleInv (fun _ => .free) s where
  used k hk := absurd rfl hk
  mapped p v pte hpte := by
    rw [h.unused p] at hpte
    cases hpte
  held p k hk := by
    rw [h.unused p] at hk
    cases hk
  once p := by
    rw [h.unused p]
    exact List.nodup_nil
  keyed p v a hka := by
    rw [h.unused p] at hka
    cases hka
  hashed p v a hva := by
    rw [h.unused p] at hva
    cases hva
  blocks e he := by
    rw [h.frame_table] at he
    cases he
  born e he := by
    rw [h.frame_table] at he
    cases he
  listed e he := by
    rw [h.frame_table] at he
    cases he
  apart := by
    rw [h.frame_table]
    exact List.Pairwise.nil

theorem reachable_role (h : Reachable paging Isolating s) : ∃ role, RoleInv role s :=
  @Reachable.invariant _ _ paging Isolating (fun s => ∃ role, RoleInv role s)
    (fun _ hb => ⟨_, Boot.all_free hb⟩) (fun _ _ _ ⟨_, hi⟩ hok hs => hi.exec hok hs) s h

/-- **Eviction isolation.** In the runs whose evictions take a page of the evicting
process, no frame is mapped twice, a mapped frame is not free, and a frame that
`swap_out` has given back is mapped by no process. -/
theorem eviction_isolated (h : Reachable paging Isolating s) :
    (∀ p q v w pte pte', (s.procs p).pagedir v = some pte →
      (s.procs q).pagedir w = some pte' → pte.frame = pte'.frame → p = q ∧ v = w) ∧
    (∀ p v pte, (s.procs p).pagedir v = some pte → s.used_map.bits pte.frame = true) ∧
    ∀ p w k c s', (s.procs p).point = .free w k → exec s (.run p c) = .ok s' →
      s'.used_map.bits k = false ∧ ∀ q v pte, (s'.procs q).pagedir v = some pte → pte.frame ≠ k := by
  obtain ⟨role, hi⟩ := reachable_role h
  refine ⟨?_, ?_, ?_⟩
  · intro p q v w pte pte' hpte hpte' hframe
    have hr := hi.mapped p v pte hpte
    rw [hframe, hi.mapped q w pte' hpte'] at hr
    exact ⟨(Role.mapped.inj hr).1.symm, (Role.mapped.inj hr).2.symm⟩
  · intro p v pte hpte
    exact hi.used _ (by rw [hi.mapped p v pte hpte]; simp)
  · intro p w k c s' hpt hs
    have hok : Isolating s (.run p c) := by
      unfold Isolating
      dsimp only
      rw [hpt]
      trivial
    have hfree : s'.used_map.bits k = false := by
      have hstep : step_free s p w k = .ok s' := by
        rw [← hs]
        show _ = run s p c
        unfold run
        rw [hpt]
      obtain ⟨-, rfl⟩ := step_free_spec hstep
      exact Function.update_self _ _ _
    refine ⟨hfree, ?_⟩
    rintro q v pte hpte rfl
    obtain ⟨role', hi'⟩ := hi.exec hok hs
    rw [hi'.used _ (by rw [hi'.mapped q v pte hpte]; simp)] at hfree
    cases hfree

/-! ## Two processes and three frames -/

/-- What an unassigned field holds. -/
def blank : Spte := ⟨0, false, false, 0, false, false, 0, 0, false, false, 0, 0, 0⟩

/-- A choice: the kernel pool has room, and the address is not above the stack. -/
def plain : Choice := ⟨true, false, blank, 0⟩

/-- A machine with `n` user frames, a swap disk and empty files. -/
def small_boot (n : ℕ) : Mem where
  procs _ := ⟨fun _ => none, fun _ => false, fun _ => none, [], .unused, [], 0⟩
  sptes _ := none
  fresh := 0
  frame_table := []
  used_map := ⟨n, fun _ => false⟩
  frames _ := fun _ => 0
  swap_table := ⟨8192, fun _ => false⟩
  swap_device _ := fun _ => 0
  capacity := 8192
  files _ := ⟨0, fun _ => 0, 0⟩
  swap_lock := none
  filesys_lock := none
  next_mid := 1
  next_fd := 2

theorem small_boot_boot (n : ℕ) : Boot (small_boot n) := by
  constructor <;> intros <;> rfl

/-- A segment of `n` writable zero pages from page `8`. -/
def zero_pages (n : ℕ) : Segment := ⟨0, 8, 0, n * PGSIZE, true⟩

/-- A process is loaded and runs `setup_stack`. -/
def load_run (p n : ℕ) : List Event :=
  .load p 0 [zero_pages n] (fun _ => blank) :: List.replicate 2 (.run p plain)

/-- A process writes to a page, and the kernel takes `n` steps for it. -/
def touch_run (p v n : ℕ) : List Event :=
  .access p v 0 (some 1) false :: List.replicate n (.run p plain)

/-- Two processes have a page in the same frame. -/
def shares_frame (s : Mem) : Bool :=
  ((s.procs 0).pagedir 8).map Pte.frame == some 2 &&
    ((s.procs 1).pagedir 8).map Pte.frame == some 2

/-- Process 1 evicts the page of process 0, which keeps its frame. -/
theorem evicts_other : ∃ s, Reachable paging (fun _ _ => True) s ∧ ∃ p q v w pte pte', p ≠ q ∧
    (s.procs p).pagedir v = some pte ∧ (s.procs q).pagedir w = some pte' ∧
    pte.frame = pte'.frame := by
  have hrun : follow exec (fun _ _ => true) shares_frame (small_boot 3)
      (load_run 0 1 ++ load_run 1 1 ++ touch_run 0 8 2 ++ touch_run 1 8 6) = true := by
    decide +kernel
  have hstart : Reachable paging (fun _ _ => true = true) (small_boot 3) :=
    .init (small_boot_boot 3)
  obtain ⟨s, hr, hs⟩ := follow_reachable (fun _ _ _ h => h) hstart hrun
  unfold shares_frame at hs
  rw [Bool.and_eq_true, beq_iff_eq, beq_iff_eq, Option.map_eq_some_iff,
    Option.map_eq_some_iff] at hs
  obtain ⟨⟨pte, hpte, hf⟩, pte', hpte', hf'⟩ := hs
  exact ⟨s, hr.weaken (fun _ _ _ => trivial), 0, 1, 8, 8, pte, pte', by decide, hpte, hpte',
    hf.trans hf'.symm⟩

/-- The condition, computed, for runs without `munmap`. -/
def isolating (s : Mem) : Event → Bool
  | .run p _ =>
    match (s.procs p).point with
    | .evict _ => s.frame_table.head?.all (fun e => e.owner == p)
    | .load (.entry _ _ a) _ => (s.sptes a).all (fun x => x.page_read_bytes == 0)
    | .unlist _ => false
    | _ => true
  | _ => true

theorem isolating_of (s : Mem) (ev : Event) (h : isolating s ev = true) : Isolating s ev := by
  cases ev with
  | run p c =>
    unfold isolating at h
    unfold Isolating
    dsimp only at h ⊢
    cases hpt : (s.procs p).point with
    | evict w =>
      rw [hpt] at h
      intro _ e he
      rw [Option.mem_def] at he
      rw [he] at h
      exact eq_of_beq h
    | load w k =>
      rw [hpt] at h
      cases w with
      | entry v write a =>
        intro x hx _
        dsimp only at h
        rw [hx] at h
        exact Or.inl (eq_of_beq h)
      | grow v => trivial
      | stack => trivial
    | unlist m => rw [hpt] at h; cases h
    | _ => trivial
  | _ => trivial

/-- A process evicts a page of its own: its new page is the only one in the frame. -/
theorem eviction_isolated_own : ∃ s, Reachable paging Isolating s ∧
    ((s.procs 0).pagedir 9).map Pte.frame = some 1 ∧
    ∀ q w pte, (s.procs q).pagedir w = some pte → pte.frame = 1 → q = 0 ∧ w = 9 := by
  have hrun : follow exec isolating (fun s => ((s.procs 0).pagedir 9).map Pte.frame == some 1)
      (small_boot 2) (load_run 0 2 ++ touch_run 0 8 2 ++ touch_run 0 9 6) = true := by
    decide +kernel
  have hstart : Reachable paging (fun s e => isolating s e = true) (small_boot 2) :=
    .init (small_boot_boot 2)
  obtain ⟨s, hr, hs⟩ := follow_reachable (fun _ _ _ h => h) hstart hrun
  have hs := eq_of_beq hs
  have hr' : Reachable paging Isolating s := hr.weaken isolating_of
  refine ⟨s, hr', hs, ?_⟩
  obtain ⟨pte, hpte, hf⟩ := Option.map_eq_some_iff.mp hs
  intro q w pte' hpte' hf'
  exact (eviction_isolated hr').1 q 0 w 9 pte' pte hpte' hpte (hf'.trans hf.symm)

end Pintos.Vm
