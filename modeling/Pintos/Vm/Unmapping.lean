/-
`munmap` of a whole mapping.

`munmap` looks up the supplemental entry of the mapping's first page and holds on to it: its
loop over the pages steps an address, a length and a file offset, but sets the mapping id of
that one entry to null, once in every turn. The loop over the frame table after it compares
mapping ids, so it passes over the frame of the first page, and `hash_delete` takes the first
entry and no other. A page that is written back and is not resident is faulted in on the way,
listed, and left listed.

The call is written here as `swap_out` and `swap_in` are: from its first state to its last,
with the faults of `file_write_at` inside it. The fault handler has `filesys_lock` against it
but not `swap_lock`, so it may evict.
-/
import Pintos.Vm.SwapErrors

set_option autoImplicit false

namespace Pintos.Vm

open Pintos.Kernel StepSystem

/-! ## A fault in the kernel -/

/-- The loop of `page_fault` around `palloc_get_page` and `swap_out`, with at most `n` turns. -/
def get_frame (p : ℕ) (c : Choice) : ℕ → Mem → Res (Option (ℕ × Mem))
  | 0, _ => .error .diverge
  | n + 1, s => do
    let (k, s) ← palloc_get_page s
    match k with
    | some k => return some (k, s)
    | none =>
      match ← swap_out n s p c with
      | .exits => return none
      | .returns _ s => get_frame p c n s

/-- `page_fault` with a frame for a page that has an entry. -/
def fill_frame (s : Mem) (p v a k : ℕ) (c : Choice) : Res (Option Mem) := do
  let x ← s.spte a
  if x.swapped then
    match ← swap_in s p v k with
    | .exits => return none
    | .returns _ s =>
      let x ← s.spte a
      let (_, s) := install_fault_page s p v k x.writable c.room
      let s ← mark_loaded s a false
      return some s
  else
    let s ← lazy_file_map s p v a k x c.room
    return some s

/-- `page_fault` at the start of page `v`, for reading. `none` is the process's exit. -/
def kernel_fault (n : ℕ) (s : Mem) (p v : ℕ) (c : Choice) : Res (Option Mem) :=
  if v = 0 ∨ PHYS_PAGES ≤ v then .ok none
  else match page_lookup s p v with
    | some a => do
      let x ← s.spte a
      if x.mmapped && x.mid == 0 then return none
      else
        match ← get_frame p c n s with
        | none => return none
        | some (k, s) => fill_frame s p v a k c
    | none =>
      if c.near_esp then do
        match ← get_frame p c n s with
        | none => return none
        | some (k, s) =>
          match install_fault_page s p v k true c.room with
          | (false, _) => return none
          | (true, s) => return some (allocate_frame (allocate_page s p v c.junk) p k none)
      else .ok none

/-- `file_write_at` of `munmap` reads user page `v`, if it looks at its buffer. -/
def read_user (p v : ℕ) (f : File) (size : ℕ) (c : Choice) : ℕ → Mem → Res (Option (Mem × Page))
  | 0, _ => .error .diverge
  | n + 1, s =>
    match user_buffer s p v f size with
    | some buf => .ok (some (s, buf))
    | none => do
      match ← kernel_fault n s p v c with
      | none => return none
      | some s => read_user p v f size c n s

/-! ## `munmap` -/

/-- The end of a turn: the first entry loses its mapping id and the page is cleared. -/
def clear_mapped (s : Mem) (p a v : ℕ) : Res (Option Mem) := do
  let x ← s.spte a
  let s ← pagedir_clear_page (s.setSpte a { x with mid := 0 }) p v
  return some s

/-- A turn of the loop of `munmap`. -/
def munmap_page (n : ℕ) (s : Mem) (p : ℕ) (c : Choice) (m : Unmap) : Res (Option Mem) := do
  let x ← s.spte m.spte
  if x.dirty then
    let size := min m.file_len PGSIZE
    match ← read_user p m.vaddr (s.files x.file_ptr) size c n s with
    | none => return none
    | some (s, buf) =>
      let f := file_write_at (s.files x.file_ptr) buf size m.file_ofs
      clear_mapped { s with files := Function.update s.files x.file_ptr f } p m.spte m.vaddr
  else clear_mapped s p m.spte m.vaddr

/-- The loop of `munmap`, with the number of turns that are left. -/
def munmap_loop (n p : ℕ) (c : Choice) : ℕ → Unmap → Mem → Res (Option Mem)
  | 0, _, s => .ok (some s)
  | turns + 1, m, s => do
    match ← munmap_page n s p c m with
    | none => return none
    | some s => munmap_loop n p c turns m.next s

/-- `munmap` after its loop. -/
def munmap_end (s : Mem) (p a mapping stale_mid : ℕ) : Res Mem := do
  let x ← s.spte a
  let (gone, kept) := s.frame_table.partition (fun e => mid_of s stale_mid e == mapping)
  let s ← gone.foldlM (fun s e => palloc_free_page s e.frame) { s with frame_table := kept }
  let s := s.upd p (fun t => { t with
    sup_page_table := Function.update t.sup_page_table x.user_vaddr none
    fd_list := t.fd_list.map (fun d =>
      if d.mmapped && d.mapid == mapping then { d with mmapped := false } else d) })
  return { s with sptes := Function.update s.sptes a none, filesys_lock := none }

/-- `munmap`. `none` is an exit in one of its faults. -/
def munmap (n : ℕ) (s : Mem) (p mapping : ℕ) (c : Choice) : Res (Option Mem) :=
  match (s.procs p).fd_list.find? (fun d => d.mmapped && d.mapid == mapping) with
  | none => .ok (some s)
  | some d =>
    match page_lookup s p d.vaddr with
    | none => .error .dangling
    | some a => do
      ASSERT (s.filesys_lock ≠ some p)
      let x ← s.spte a
      let m : Unmap := ⟨a, mapping, 0, (s.files x.file_ptr).length, x.user_vaddr, x.file_ofs⟩
      match ← munmap_loop n p c x.page_cnt m { s with filesys_lock := some p } with
      | none => return none
      | some s =>
        let s ← munmap_end s p a mapping c.stale_mid
        return some s

variable {s s' t u : Mem} {p v k m n a : ℕ} {c : Choice}

/-- The end of `munmap` is the last step of the paging system's `munmap` without its return. -/
theorem step_unlist_eq (s : Mem) (p : ℕ) (m : Unmap) (c : Choice) :
    step_unlist s p m c = (munmap_end s p m.spte m.mapping c.stale_mid).map (·.ret p) := by
  unfold step_unlist munmap_end
  cases s.spte m.spte with
  | error f => rfl
  | ok x =>
    rw [ok_bind, ok_bind]
    dsimp only
    cases ((s.frame_table.partition fun e => mid_of s c.stale_mid e == m.mapping).1.foldlM
      (fun s e => palloc_free_page s e.frame)
      { s with frame_table :=
        (s.frame_table.partition fun e => mid_of s c.stale_mid e == m.mapping).2 }) with
    | error f => rfl
    | ok t => rfl

/-- A turn that ends without a fault is a step of the paging system. -/
theorem step_munmap_of_clear {m : Unmap} {x : Spte} (hx : s.sptes m.spte = some x)
    (hi : m.iter < x.page_cnt) (hread : x.dirty = true → ∃ buf, user_buffer s p m.vaddr
      (s.files x.file_ptr) (min m.file_len PGSIZE) = some buf)
    (h : munmap_page n s p c m = .ok (some t)) :
    step_munmap s p m c = .ok (t.goto p (.munmap m.next)) := by
  have hspte : s.spte m.spte = .ok x := Mem.spte_of_some hx
  have hclear : ∀ files, clear_mapped { s with files := files } p m.spte m.vaddr = .ok (some t) →
      unmap_page { s with files := files } p m x = .ok (t.goto p (.munmap m.next)) := by
    intro files hc
    have hspte' : ({ s with files := files } : Mem).spte m.spte = .ok x := hspte
    unfold clear_mapped at hc
    unfold unmap_page
    rw [hspte', ok_bind] at hc
    obtain ⟨u, hu, hc⟩ := bind_eq_ok hc
    dsimp only
    rw [hu, ok_bind, Option.some.inj (Except.ok.inj hc)]
    rfl
  unfold munmap_page at h
  unfold step_munmap
  rw [hspte, ok_bind] at h ⊢
  rw [if_pos hi]
  by_cases hd : x.dirty = true
  · obtain ⟨buf, hbuf⟩ := hread hd
    rw [if_pos hd] at h ⊢
    dsimp only at h ⊢
    rw [hbuf]
    obtain ⟨r, hr, h⟩ := bind_eq_ok h
    cases n with
    | zero => cases hr
    | succ n =>
      rw [read_user, hbuf] at hr
      obtain rfl := Except.ok.inj hr
      exact hclear _ h
  · rw [if_neg hd] at h ⊢
    exact hclear s.files h

/-- With `swap_lock` in hand a fault of the kernel is the nested one of `swap_out`. -/
theorem kernel_fault_nested (n : ℕ) (hlock : s.swap_lock = some p) :
    kernel_fault (n + 1) s p v c = nested_fault s p v c := by
  have hswap : ∀ (i : ℕ) (t : Mem), t.swap_lock = some p →
      swap_out i t p c = .error .assertion := by
    intro i t ht
    unfold swap_out ASSERT
    rw [if_neg (not_not.mpr ht)]
    rfl
  unfold kernel_fault nested_fault get_frame
  by_cases hv : v = 0 ∨ PHYS_PAGES ≤ v
  · rw [if_pos hv, if_pos hv]
  rw [if_neg hv, if_neg hv, palloc_get_page_eq]
  cases page_lookup s p v with
  | none =>
    dsimp only
    by_cases hn : c.near_esp = true
    · rw [if_pos hn, if_pos hn]
      cases bitmap_scan s.used_map 0 1 false with
      | none =>
        simp only [ok_bind, hswap n s hlock]
        rfl
      | some k => rfl
    · rw [if_neg hn, if_neg hn]
  | some a =>
    dsimp only
    cases hx : s.spte a with
    | error f => rfl
    | ok x =>
      rw [ok_bind, ok_bind]
      by_cases hm : (x.mmapped && x.mid == 0) = true
      · rw [if_pos hm, if_pos hm]
      · rw [if_neg hm, if_neg hm]
        cases bitmap_scan s.used_map 0 1 false with
        | none =>
          simp only [ok_bind, hswap n s hlock]
          rfl
        | some k =>
          have hx' : (s.take k).spte a = .ok x := hx
          simp only [ok_bind, pure_eq_ok]
          unfold fill_frame
          rw [hx', ok_bind]
          by_cases hsw : x.swapped = true
          · have hin : swap_in (s.take k) p v k = .error .assertion := by
              unfold swap_in ASSERT
              rw [if_neg (not_not.mpr (show (s.take k).swap_lock = some p from hlock))]
              rfl
            rw [if_pos hsw, if_pos hsw, hin]
            rfl
          · rw [if_neg hsw, if_neg hsw]
            rfl

/-! ## What the faults keep -/

/-- The entries of process `p` are where they were and keep their pages and, but for `a`, their
mapping ids. -/
structure Kept (p a : ℕ) (s t : Mem) : Prop where
  fresh : s.fresh ≤ t.fresh
  entry : ∀ b < s.fresh, ∀ y, s.sptes b = some y → ∃ y', t.sptes b = some y' ∧
    y'.user_vaddr = y.user_vaddr ∧ y'.mmapped = y.mmapped ∧ y'.page_cnt = y.page_cnt ∧
    (y'.mid = y.mid ∨ b = a ∧ y'.mid = 0)
  lookup : ∀ w b, page_lookup s p w = some b → page_lookup t p w = some b

namespace Kept

theorem refl (p a : ℕ) (s : Mem) : Kept p a s s :=
  ⟨le_rfl, fun _ _ y hy => ⟨y, hy, rfl, rfl, rfl, Or.inl rfl⟩, fun _ _ h => h⟩

theorem trans (h : Kept p a s t) (h' : Kept p a t u) : Kept p a s u where
  fresh := h.fresh.trans h'.fresh
  entry b hb y hy := by
    obtain ⟨y', hy', hv, hm, hc, hid⟩ := h.entry b hb y hy
    obtain ⟨y'', hy'', hv', hm', hc', hid'⟩ := h'.entry b (hb.trans_le h.fresh) y' hy'
    refine ⟨y'', hy'', hv'.trans hv, hm'.trans hm, hc'.trans hc, ?_⟩
    rcases hid' with hid' | hid'
    · rw [hid']
      exact hid
    · exact Or.inr hid'
  lookup w b hb := h'.lookup w b (h.lookup w b hb)

/-- A change elsewhere. -/
theorem of_eq (hf : t.fresh = s.fresh) (hs : t.sptes = s.sptes)
    (hp : (t.procs p).sup_page_table = (s.procs p).sup_page_table) : Kept p a s t where
  fresh := hf.ge
  entry b _ y hy := ⟨y, by rw [hs]; exact hy, rfl, rfl, rfl, Or.inl rfl⟩
  lookup w b hb := by
    unfold page_lookup at hb ⊢
    rw [hp]
    exact hb

/-- A change of one entry. -/
theorem of_set {b : ℕ} {x x' : Spte} (hx : s.sptes b = some x) (hv : x'.user_vaddr = x.user_vaddr)
    (hm : x'.mmapped = x.mmapped) (hc : x'.page_cnt = x.page_cnt)
    (hid : x'.mid = x.mid ∨ b = a ∧ x'.mid = 0) : Kept p a s (s.setSpte b x') where
  fresh := le_rfl
  entry b' _ y hy := by
    by_cases hb : b' = b
    · subst hb
      obtain rfl := Option.some.inj (hx.symm.trans hy)
      exact ⟨x', Function.update_self _ _ _, hv, hm, hc, hid⟩
    · exact ⟨y, (Function.update_of_ne hb _ _).trans hy, rfl, rfl, rfl, Or.inl rfl⟩
  lookup _ _ h := h

theorem insert_page (x : Spte) : Kept p a s (insert_page s p x) := by
  have hentry : ∀ t : Mem, t.sptes = Function.update s.sptes s.fresh (some x) →
      ∀ b < s.fresh, ∀ y, s.sptes b = some y → ∃ y', t.sptes b = some y' ∧
        y'.user_vaddr = y.user_vaddr ∧ y'.mmapped = y.mmapped ∧ y'.page_cnt = y.page_cnt ∧
        (y'.mid = y.mid ∨ b = a ∧ y'.mid = 0) := by
    intro t ht b hb y hy
    refine ⟨y, ?_, rfl, rfl, rfl, Or.inl rfl⟩
    rw [ht, Function.update_of_ne hb.ne]
    exact hy
  unfold Vm.insert_page
  dsimp only
  cases hl : (s.procs p).sup_page_table x.user_vaddr with
  | some b => exact ⟨Nat.le_succ _, hentry _ rfl, fun _ _ h => h⟩
  | none =>
    refine ⟨Nat.le_succ _, hentry _ rfl, fun w b hb => ?_⟩
    unfold page_lookup at hb ⊢
    rw [Mem.upd_self]
    have hw : w ≠ x.user_vaddr := by
      rintro rfl
      rw [hl] at hb
      cases hb
    exact (Function.update_of_ne hw _ _).trans hb

theorem install {writable b : Bool} (h : install_fault_page s p v k writable c.room = (b, t)) :
    Kept p a s t := by
  rcases install_fault_page_spec h with ⟨-, rfl⟩ | ⟨-, -, rfl⟩
  · exact refl p a _
  · refine of_eq rfl rfl ?_
    rw [Mem.upd_self]

theorem mark_loaded {b : ℕ} {write : Bool} (h : mark_loaded s b write = .ok t) : Kept p a s t := by
  obtain ⟨x, hx, rfl⟩ := mark_loaded_spec h
  exact of_set hx rfl rfl rfl (Or.inl rfl)

theorem clear (w : ℕ) (h : Kept p a s t) :
    Kept p a s (t.upd p fun q => { q with pagedir := Function.update q.pagedir w none }) := by
  refine h.trans (of_eq rfl rfl ?_)
  rw [Mem.upd_self]

/-- Reading a page from its file and mapping it. -/
theorem lazy_file_map {b : ℕ} {x : Spte} (h : lazy_file_map s p v b k x c.room = .ok t) :
    Kept p a s t ∧ ∃ rest, t.frame_table = rest ++ [(⟨k, p, some b⟩ : Fte)] := by
  -- the frame may be given back before it is mapped; no entry and no process is touched
  obtain ⟨u, hmark, hf, hs, hp⟩ : ∃ u : Mem, Vm.mark_loaded (allocate_frame
      (install_fault_page u p v k x.writable c.room).2 p k (some b)) b false = .ok t ∧
      u.fresh = s.fresh ∧ u.sptes = s.sptes ∧ u.procs = s.procs := by
    unfold Vm.lazy_file_map at h
    dsimp only at h
    split at h
    · obtain ⟨s₁, hfree, h⟩ := bind_eq_ok h
      obtain ⟨-, rfl⟩ := palloc_free_page_spec hfree
      exact ⟨_, h, rfl, rfl, rfl⟩
    · obtain ⟨s₁, hs₁, h⟩ := bind_eq_ok h
      obtain rfl := Except.ok.inj hs₁
      exact ⟨_, h, rfl, rfl, rfl⟩
  set w := (install_fault_page u p v k x.writable c.room).2 with hw
  have hinst : Kept p a u w :=
    install (Prod.eta (install_fault_page u p v k x.writable c.room)).symm
  have hlist : Kept p a w (allocate_frame w p k (some b)) := of_eq rfl rfl rfl
  have hproc : (u.procs p).sup_page_table = (s.procs p).sup_page_table := by rw [hp]
  refine ⟨((of_eq hf hs hproc).trans hinst).trans (hlist.trans (mark_loaded hmark)), ?_⟩
  obtain ⟨y, -, rfl⟩ := mark_loaded_spec hmark
  exact ⟨_, rfl⟩

theorem nested_fault (h : nested_fault s p v c = .ok (some t)) : Kept p a s t := by
  obtain ⟨-, k, -, ⟨b, x, -, -, -, -, hload⟩ | ⟨-, -, u, hinst, rfl⟩⟩ := nested_fault_iff.mp h
  · exact (of_eq rfl rfl rfl : Kept p a s (s.take k)).trans (lazy_file_map hload).1
  · exact (of_eq rfl rfl rfl : Kept p a s (s.take k)).trans
      ((install hinst).trans ((insert_page _).trans (of_eq rfl rfl rfl)))

theorem touch {f : File} {size i : ℕ} {buf : Page}
    (h : touch p v f size c i s = .ok (some (t, buf))) : Kept p a s t := by
  induction i generalizing s with
  | zero => cases h
  | succ i ih =>
    rw [Vm.touch] at h
    cases hbuf : user_buffer s p v f size with
    | some buf' =>
      rw [hbuf] at h
      obtain ⟨rfl, -⟩ := Prod.mk.inj (Option.some.inj (Except.ok.inj h))
      exact refl p a s
    | none =>
      rw [hbuf] at h
      obtain ⟨r, hr, h⟩ := bind_eq_ok h
      cases r with
      | none => cases h
      | some u => exact (nested_fault hr).trans (ih h)

/-- Saving a page changes at most the slot of its entry. -/
theorem save {i b : ℕ} {e : Fte} {x : Spte} (hx : s.sptes b = some x)
    (h : save i s p c e b x = .ok (some t)) : Kept p a s t := by
  unfold Vm.save at h
  split at h
  · split at h
    · obtain ⟨_, -, h⟩ := bind_eq_ok h
      obtain ⟨r, hr, h⟩ := bind_eq_ok h
      cases r with
      | none => cases h
      | some r =>
        obtain ⟨u, buf⟩ := r
        rw [← Option.some.inj (Except.ok.inj h)]
        exact (of_eq rfl rfl rfl : Kept p a s { s with filesys_lock := some p }).trans
          ((touch hr).trans (of_eq rfl rfl rfl))
    · rw [← Option.some.inj (Except.ok.inj h)]
      exact refl p a s
  · split at h
    · cases hscan : bitmap_scan s.swap_table 0 8 false with
      | none =>
        rw [hscan] at h
        cases h
      | some j =>
        rw [hscan] at h
        obtain ⟨u, hw, h⟩ := bind_eq_ok h
        obtain ⟨_, -, hw⟩ := bind_eq_ok hw
        obtain rfl := Except.ok.inj hw
        obtain ⟨b', -, h⟩ := bind_eq_ok h
        have hset : Kept p a s (s.setSpte b { x with disk_sector_idx := j }) :=
          of_set hx rfl rfl rfl (Or.inl rfl)
        rw [← Option.some.inj (Except.ok.inj h)]
        exact hset.trans (of_eq rfl rfl rfl)
    · rw [← Option.some.inj (Except.ok.inj h)]
      exact refl p a s

theorem swap_out {i : ℕ} {b : Bool} (h : swap_out i s p c = .ok (.returns b t)) : Kept p a s t := by
  obtain ⟨-, e, rest, d, x, -, -, hx, -, ⟨-, ho⟩ | ⟨u, hsave, -, ho⟩⟩ := swap_out_iff.mp h
  · cases ho
  · obtain ⟨-, rfl⟩ := Outcome.returns.inj ho
    have hset : Kept p a s (s.setSpte d { x with swapped := true }) :=
      of_set hx rfl rfl rfl (Or.inl rfl)
    have hpick : Kept p a s (s.picked p d { x with swapped := true } rest) :=
      (hset.clear x.user_vaddr).trans (of_eq rfl rfl rfl)
    have hx' : (s.picked p d { x with swapped := true } rest).sptes d =
        some { x with swapped := true } := Function.update_self _ _ _
    exact hpick.trans ((save hx' hsave).trans (of_eq rfl rfl rfl))

/-- Filling a frame changes no entry and lists nothing. -/
theorem refill {x : Spte} (h : refill s x k = .ok t) :
    Kept p a s t ∧ t.frame_table = s.frame_table := by
  unfold Vm.refill at h
  split at h
  · rw [← Except.ok.inj h]
    exact ⟨of_eq rfl rfl rfl, rfl⟩
  · split at h
    · obtain ⟨u, hu, h⟩ := bind_eq_ok h
      obtain ⟨_, -, hu⟩ := bind_eq_ok hu
      obtain rfl := Except.ok.inj hu
      obtain ⟨b, -, h⟩ := bind_eq_ok h
      rw [← Except.ok.inj h]
      exact ⟨of_eq rfl rfl rfl, rfl⟩
    · rw [← Except.ok.inj h]
      exact ⟨of_eq rfl rfl rfl, rfl⟩

/-- A `swap_in` that works lists the frame for the page's entry. -/
theorem swap_in {b : ℕ} {x : Spte} {o : Outcome} (hl : page_lookup s p v = some b)
    (hx : s.sptes b = some x) (hsw : x.swapped = true) (h : swap_in s p v k = .ok o) :
    ∃ t, o = .returns true t ∧ Kept p a s t ∧
      ∃ rest, t.frame_table = rest ++ [(⟨k, p, some b⟩ : Fte)] := by
  obtain ⟨-, b', y, hl', hy, ⟨-, t, hfill, rfl⟩ | ⟨hc, -⟩⟩ := swap_in_iff.mp h
  · obtain rfl := Option.some.inj (hl.symm.trans hl')
    obtain ⟨hkept, htable⟩ := @refill _ t p k a _ hfill
    have hlist : Kept p a s (s.listed p k b y) :=
      (of_eq rfl rfl rfl : Kept p a s (allocate_frame { s with swap_lock := some p } p k
        (some b))).trans (of_set hy rfl rfl rfl (Or.inl rfl))
    exact ⟨_, rfl, hlist.trans (hkept.trans (of_eq rfl rfl rfl)), s.frame_table, htable⟩
  · obtain rfl := Option.some.inj (hl.symm.trans hl')
    rw [← Option.some.inj (hx.symm.trans hy), hsw] at hc
    cases hc

theorem get_frame {i : ℕ} (h : get_frame p c i s = .ok (some (k, t))) : Kept p a s t := by
  induction i generalizing s with
  | zero => cases h
  | succ i ih =>
    rw [Vm.get_frame, palloc_get_page_eq] at h
    cases hscan : bitmap_scan s.used_map 0 1 false with
    | some j =>
      rw [hscan] at h
      obtain ⟨-, rfl⟩ := Prod.mk.inj (Option.some.inj (Except.ok.inj h))
      exact of_eq rfl rfl rfl
    | none =>
      rw [hscan] at h
      simp only [ok_bind] at h
      obtain ⟨o, ho, h⟩ := bind_eq_ok h
      cases o with
      | exits => cases h
      | returns b u => exact (swap_out ho).trans (ih h)

/-- A fault that comes back for a page with an entry lists a frame for it. -/
theorem fill_frame {b : ℕ} (hl : page_lookup s p v = some b)
    (h : fill_frame s p v b k c = .ok (some t)) :
    Kept p a s t ∧ ∃ rest, t.frame_table = rest ++ [(⟨k, p, some b⟩ : Fte)] := by
  obtain ⟨x, hx, h⟩ := bind_eq_ok h
  split at h
  · rename_i hsw
    obtain ⟨o, ho, h⟩ := bind_eq_ok h
    obtain ⟨u, rfl, hkept, rest, htable⟩ := @swap_in s p v k a b x o hl (Mem.spte_eq_ok hx) hsw ho
    obtain ⟨y, -, h⟩ := bind_eq_ok h
    obtain ⟨w, hmark, h⟩ := bind_eq_ok h
    have hinst := (Prod.eta (install_fault_page u p v k y.writable c.room)).symm
    have hkept' : Kept p a u (install_fault_page u p v k y.writable c.room).2 := install hinst
    have hsame : (install_fault_page u p v k y.writable c.room).2.frame_table = u.frame_table := by
      obtain ⟨procs, hprocs, -⟩ := install_fault_page_fields hinst
      rw [hprocs]
    rw [← Option.some.inj (Except.ok.inj h)]
    refine ⟨hkept.trans (hkept'.trans (mark_loaded hmark)), rest, ?_⟩
    obtain ⟨z, -, rfl⟩ := mark_loaded_spec hmark
    exact hsame.trans htable
  · obtain ⟨u, hu, h⟩ := bind_eq_ok h
    rw [← Option.some.inj (Except.ok.inj h)]
    exact lazy_file_map hu

theorem kernel_fault {i b : ℕ} (hl : page_lookup s p v = some b)
    (h : kernel_fault i s p v c = .ok (some t)) :
    Kept p a s t ∧ ∃ rest k, t.frame_table = rest ++ [(⟨k, p, some b⟩ : Fte)] := by
  unfold Vm.kernel_fault at h
  split at h
  · cases h
  · rw [hl] at h
    obtain ⟨x, -, h⟩ := bind_eq_ok h
    split at h
    · cases h
    · obtain ⟨r, hr, h⟩ := bind_eq_ok h
      cases r with
      | none => cases h
      | some r =>
        obtain ⟨k, u⟩ := r
        have hget : Kept p a s u := get_frame hr
        obtain ⟨hfill, rest, htable⟩ := @fill_frame u t p v k a c b (hget.lookup v b hl) h
        exact ⟨hget.trans hfill, rest, k, htable⟩

/-- A write-back from a page with an entry lists a frame for it unless the page is there or is not
read. -/
theorem read_user {f : File} {size i b : ℕ} {buf : Page} (hl : page_lookup s p v = some b)
    (h : read_user p v f size c i s = .ok (some (t, buf))) : Kept p a s t ∧
      (t = s ∧ (f.Reads size → ((s.procs p).pagedir v).isSome = true) ∨
        ∃ e ∈ t.frame_table, e.spte = some b) := by
  induction i generalizing s with
  | zero => cases h
  | succ i ih =>
    rw [Vm.read_user] at h
    cases hbuf : user_buffer s p v f size with
    | some buf' =>
      rw [hbuf] at h
      obtain ⟨rfl, -⟩ := Prod.mk.inj (Option.some.inj (Except.ok.inj h))
      refine ⟨refl p a s, Or.inl ⟨rfl, fun hreads => ?_⟩⟩
      by_contra hno
      rw [user_buffer_eq_none.mpr ⟨hreads, Option.not_isSome_iff_eq_none.mp hno⟩] at hbuf
      cases hbuf
    | none =>
      rw [hbuf] at h
      obtain ⟨r, hr, h⟩ := bind_eq_ok h
      cases r with
      | none => cases h
      | some u =>
        obtain ⟨hfault, rest, k, htable⟩ := @kernel_fault s u p v a c i b hl hr
        obtain ⟨hread, hcase⟩ := ih (hfault.lookup v b hl) h
        refine ⟨hfault.trans hread, Or.inr ?_⟩
        rcases hcase with ⟨rfl, -⟩ | hlisted
        · refine ⟨⟨k, p, some b⟩, ?_, rfl⟩
          rw [htable]
          exact List.mem_append_right _ List.mem_cons_self
        · exact hlisted

end Kept

/-- The end of a turn, for an entry that exists and a page of user space. -/
theorem clear_mapped_iff {r : Option Mem} : clear_mapped s p a v = .ok r ↔
    v < PHYS_PAGES ∧ ∃ x, s.sptes a = some x ∧
      r = some ((s.setSpte a { x with mid := 0 }).upd p (fun q => { q with
        pagedir := Function.update q.pagedir v none })) := by
  constructor
  · intro h
    obtain ⟨x, hx, h⟩ := bind_eq_ok h
    obtain ⟨u, hu, h⟩ := bind_eq_ok h
    obtain ⟨_, hv, hu⟩ := bind_eq_ok hu
    obtain rfl := Except.ok.inj hu
    exact ⟨ASSERT_eq_ok hv, x, Mem.spte_eq_ok hx, (Except.ok.inj h).symm⟩
  · rintro ⟨hv, x, hx, rfl⟩
    unfold clear_mapped pagedir_clear_page Mem.spte
    rw [hx, ok_bind, ASSERT_pos hv]
    rfl

theorem Kept.clear_mapped (h : clear_mapped s p a v = .ok (some t)) : Kept p a s t := by
  obtain ⟨-, x, hx, ht⟩ := clear_mapped_iff.mp h
  have hset : Kept p a s (s.setSpte a { x with mid := 0 }) :=
    Kept.of_set hx rfl rfl rfl (Or.inr ⟨rfl, rfl⟩)
  rw [Option.some.inj ht]
  exact hset.clear v

theorem Kept.munmap_page {i : ℕ} {m : Unmap} (hl : page_lookup s p m.vaddr = some k)
    (h : munmap_page i s p c m = .ok (some t)) : Kept p m.spte s t := by
  obtain ⟨x, -, h⟩ := bind_eq_ok h
  split at h
  · obtain ⟨r, hr, h⟩ := bind_eq_ok h
    cases r with
    | none => cases h
    | some r =>
      obtain ⟨u, buf⟩ := r
      refine (Kept.read_user hl hr).1.trans (Kept.trans ?_ (Kept.clear_mapped h))
      exact Kept.of_eq rfl rfl rfl
  · exact Kept.clear_mapped h

/-- The loop clears the mapping id of one entry, whatever the number of pages. -/
theorem Kept.munmap_loop {i turns : ℕ} {m : Unmap}
    (hl : ∀ j < turns, ∃ b, page_lookup s p (m.vaddr + j) = some b)
    (h : munmap_loop i p c turns m s = .ok (some t)) : Kept p m.spte s t := by
  induction turns generalizing s m with
  | zero =>
    rw [Option.some.inj (Except.ok.inj h)]
    exact Kept.refl _ _ _
  | succ turns ih =>
    rw [Vm.munmap_loop] at h
    obtain ⟨r, hr, h⟩ := bind_eq_ok h
    cases r with
    | none => cases h
    | some u =>
      obtain ⟨b, hb⟩ := hl 0 (Nat.succ_pos _)
      have hpage : Kept p m.spte s u := Kept.munmap_page hb hr
      refine hpage.trans (@ih u m.next (fun j hj => ?_) h)
      obtain ⟨b', hb'⟩ := hl (j + 1) (Nat.succ_lt_succ hj)
      refine ⟨b', hpage.lookup _ _ ?_⟩
      rw [← hb']
      congr 1
      change m.vaddr + 1 + j = _
      omega

/-- What the end of `munmap` takes away: the frames whose entries have the mapping's id, and the
first entry. -/
theorem munmap_end_spec {stale : ℕ} (h : munmap_end s p a m stale = .ok t) :
    ∃ x, s.sptes a = some x ∧
      t.frame_table = s.frame_table.filter (fun e => mid_of s stale e != m) ∧
      t.sptes = Function.update s.sptes a none ∧
      (t.procs p).sup_page_table =
        Function.update (s.procs p).sup_page_table x.user_vaddr none := by
  obtain ⟨x, hx, h⟩ := bind_eq_ok h
  rw [List.partition_eq_filter_filter] at h
  dsimp only at h
  obtain ⟨u, hfree, h⟩ := bind_eq_ok h
  obtain ⟨frames, bits, rfl, -, -⟩ := free_all_spec (fun e => some e.frame)
    (fun t e he => by cases he) (fun t e k hk => by rw [← Option.some.inj hk]) hfree
  obtain rfl := Except.ok.inj h
  refine ⟨x, Mem.spte_eq_ok hx, rfl, rfl, ?_⟩
  exact congrArg Proc.sup_page_table (Function.update_self (f := s.procs) p _)

/-- Mapping `m` of process `p`: `n` pages from page `v`, page `i` with the entry `a i`. It has a
descriptor, and no entry of the process has its id but these. -/
structure Mapping (s : Mem) (p m n v : ℕ) (a : ℕ → ℕ) : Prop where
  id : m ≠ 0
  pages : 0 < n
  named : ∃ d, (s.procs p).fd_list.find? (fun d => d.mmapped && d.mapid == m) = some d ∧
    d.vaddr = v
  entry : ∀ i < n, page_lookup s p (v + i) = some (a i) ∧ a i < s.fresh ∧
    ∃ y, s.sptes (a i) = some y ∧ y.user_vaddr = v + i ∧ y.mmapped = true ∧ y.mid = m ∧
      y.page_cnt = n
  only : ∀ w b y, page_lookup s p w = some b → s.sptes b = some y → y.mmapped = true →
    y.mid = m → ∃ i < n, w = v + i

/-- The entry of the frame table is for none of the mapping's pages. -/
def Foreign (n : ℕ) (a : ℕ → ℕ) (e : Fte) : Bool :=
  !(List.range n).any (fun i => e.spte == some (a i))

/-- The mapping is gone from the supplemental page table, the frame table, the page directory
and the user pool, and everything else is as it was. -/
structure Removed (s t : Mem) (p m n v : ℕ) (a : ℕ → ℕ) : Prop where
  entries : ∀ w b y, page_lookup t p w = some b → t.sptes b = some y → y.mmapped = true →
    y.mid ≠ m
  table : t.frame_table = s.frame_table.filter (Foreign n a)
  absent : ∀ i < n, (t.procs p).pagedir (v + i) = none
  returned : ∀ e ∈ s.frame_table, Foreign n a e = false → t.used_map.bits e.frame = false
  others_lookup : ∀ w, (∀ i < n, w ≠ v + i) → page_lookup t p w = page_lookup s p w
  others_entry : ∀ b, (∀ i < n, b ≠ a i) → t.sptes b = s.sptes b
  others_page : ∀ w, (∀ i < n, w ≠ v + i) → (t.procs p).pagedir w = (s.procs p).pagedir w
  others_proc : ∀ q, q ≠ p → t.procs q = s.procs q

namespace Mapping

variable {v : ℕ} {a : ℕ → ℕ}

/-- The call, on a mapping. -/
theorem munmap_iff (h : Mapping s p m n v a) {i : ℕ} : munmap i s p m c = .ok (some t) ↔
    s.filesys_lock ≠ some p ∧ ∃ x u, s.sptes (a 0) = some x ∧
      munmap_loop i p c n ⟨a 0, m, 0, (s.files x.file_ptr).length, v, x.file_ofs⟩
        { s with filesys_lock := some p } = .ok (some u) ∧
      munmap_end u p (a 0) m c.stale_mid = .ok t := by
  obtain ⟨d, hd, hv⟩ := h.named
  obtain ⟨hl, -, x, hx, hxv, -, -, hcnt⟩ := h.entry 0 h.pages
  rw [Nat.add_zero] at hl hxv
  unfold munmap
  rw [hd]
  dsimp only
  rw [hv, hl]
  dsimp only
  have hread : s.spte (a 0) = .ok x := Mem.spte_of_some hx
  constructor
  · intro hs
    obtain ⟨_, hlock, hs⟩ := bind_eq_ok hs
    rw [hread, ok_bind, hcnt, hxv] at hs
    obtain ⟨r, hr, hs⟩ := bind_eq_ok hs
    cases r with
    | none => cases hs
    | some u =>
      obtain ⟨t', hend, hs⟩ := bind_eq_ok hs
      rw [← Option.some.inj (Except.ok.inj hs)]
      exact ⟨ASSERT_eq_ok hlock, x, u, hx, hr, hend⟩
  · rintro ⟨hlock, y, u, hy, hr, hend⟩
    obtain rfl := Option.some.inj (hx.symm.trans hy)
    rw [ASSERT_pos hlock, ok_bind, hread, ok_bind, hcnt, hxv]
    rw [hr, ok_bind]
    dsimp only
    rw [hend]
    rfl

/-- **A second page stays**: the entry of page 1 is in the table after the call, with the id. -/
theorem one_page (h : Mapping s p m n v a) {i : ℕ} (hs : munmap i s p m c = .ok (some t))
    (hrem : Removed s t p m n v a) : n = 1 := by
  by_contra hne
  have hn : 1 < n := lt_of_le_of_ne h.pages (Ne.symm hne)
  obtain ⟨-, x, u, hx, hloop, hend⟩ := h.munmap_iff.mp hs
  obtain ⟨-, hfresh₀, y₀, hy₀, hv₀, -⟩ := h.entry 0 h.pages
  obtain ⟨hl₁, hfresh₁, y₁, hy₁, hv₁, hm₁, hid₁, -⟩ := h.entry 1 hn
  have hkept : Kept p (a 0) { s with filesys_lock := some p } u :=
    Kept.munmap_loop (fun j hj => ⟨a j, (h.entry j hj).1⟩) hloop
  have hne₁ : a 1 ≠ a 0 := by
    intro hc
    rw [hc, hy₀] at hy₁
    obtain rfl := Option.some.inj hy₁
    omega
  obtain ⟨z₀, hz₀, hzv, -⟩ := hkept.entry (a 0) hfresh₀ y₀ hy₀
  obtain ⟨z₁, hz₁, -, hzm, -, hzid⟩ := hkept.entry (a 1) hfresh₁ y₁ hy₁
  obtain ⟨z, hz, -, hsptes, hhash⟩ := munmap_end_spec hend
  obtain rfl := Option.some.inj (hz₀.symm.trans hz)
  -- the first entry is the one that leaves the hash table
  have hlook : page_lookup t p (v + 1) = some (a 1) := by
    unfold page_lookup
    rw [hhash, Function.update_of_ne (by omega)]
    exact hkept.lookup _ _ hl₁
  refine hrem.entries (v + 1) (a 1) z₁ hlook ?_ (hzm.trans hm₁) ?_
  · rw [hsptes, Function.update_of_ne hne₁]
    exact hz₁
  · rw [hzid.resolve_right fun hc => hne₁ hc.1]
    exact hid₁

end Mapping

/-! ## `mmap` makes a mapping -/

/-- Making the entries of consecutive pages that had none. -/
theorem insert_pages_spec (f : ℕ → Spte) (hv : ∀ i < n, (f i).user_vaddr = v + i)
    (hnone : ∀ i < n, page_lookup s p (v + i) = none) :
    ∃ table, (List.range n).foldl (fun s i => insert_page s p (f i)) s = { s with
        procs := Function.update s.procs p { s.procs p with sup_page_table := table }
        fresh := s.fresh + n
        sptes := fun b =>
          if s.fresh ≤ b ∧ b < s.fresh + n then some (f (b - s.fresh)) else s.sptes b } ∧
      ∀ w, table w = if v ≤ w ∧ w < v + n then some (s.fresh + (w - v)) else page_lookup s p w := by
  induction n with
  | zero =>
    refine ⟨(s.procs p).sup_page_table, ?_, fun w => by rw [if_neg (by omega)]; rfl⟩
    have hsptes : (fun b => if s.fresh ≤ b ∧ b < s.fresh + 0 then some (f (b - s.fresh))
        else s.sptes b) = s.sptes := funext fun b => if_neg (by omega)
    rw [hsptes, Function.update_eq_self]
    rfl
  | succ n ih =>
    obtain ⟨table, ht, hlook⟩ := ih (fun i hi => hv i (by omega)) fun i hi => hnone i (by omega)
    rw [List.range_succ, List.foldl_append, ht]
    have habsent : table (f n).user_vaddr = none := by
      rw [hlook, hv n (by omega), if_neg (by omega)]
      exact hnone n (by omega)
    simp only [List.foldl_cons, List.foldl_nil]
    unfold insert_page
    dsimp only
    rw [Function.update_self]
    dsimp only
    rw [habsent]
    refine ⟨Function.update table (f n).user_vaddr (some (s.fresh + n)), ?_, fun w => ?_⟩
    · unfold Mem.upd
      dsimp only
      rw [Function.update_self, Function.update_idem]
      congr 1
      funext b
      by_cases hb : b = s.fresh + n
      · subst hb
        rw [Function.update_self, if_pos (by omega), Nat.add_sub_cancel_left]
      · rw [Function.update_of_ne hb]
        by_cases hlt : s.fresh ≤ b ∧ b < s.fresh + n
        · rw [if_pos hlt, if_pos (by omega)]
        · rw [if_neg hlt, if_neg (by omega)]
    · rw [hv n (by omega)]
      by_cases hw : w = v + n
      · subst hw
        rw [Function.update_self, if_pos (by omega), Nat.add_sub_cancel_left]
      · rw [Function.update_of_ne hw, hlook]
        by_cases hlt : v ≤ w ∧ w < v + n
        · rw [if_pos hlt, if_pos (by omega)]
        · rw [if_neg hlt, if_neg (by omega)]

/-- The checks of `mmap`, with a descriptor. -/
def MmapOk (s : Mem) (p addr : ℕ) (d : FdElem) : Prop :=
  ¬ (addr = 0 ∨ (s.files d.file_ptr).length = 0 ∨ addr = PHYS_PAGES - 1 ∨
    (List.range (((s.files d.file_ptr).length + PGSIZE - 1) / PGSIZE)).any
      (fun i => (page_lookup s p (addr + i)).isSome))

/-- A mapping has a page, and its pages had no entry. -/
theorem MmapOk.pages {addr : ℕ} {d : FdElem} (h : MmapOk s p addr d) :
    0 < ((s.files d.file_ptr).length + PGSIZE - 1) / PGSIZE ∧
      ∀ i < ((s.files d.file_ptr).length + PGSIZE - 1) / PGSIZE,
        page_lookup s p (addr + i) = none := by
  have hlen : (s.files d.file_ptr).length ≠ 0 := fun hc => h (Or.inr (Or.inl hc))
  refine ⟨Nat.div_pos (by omega) (by unfold PGSIZE; omega), fun i hi => ?_⟩
  by_contra hne
  refine h (Or.inr (Or.inr (Or.inr (List.any_eq_true.mpr ⟨i, List.mem_range.mpr hi, ?_⟩))))
  exact Option.ne_none_iff_isSome.mp hne

/-- A descriptor after `mmap` of `fd`. -/
def FdElem.mapped_at (d : FdElem) (fd mid addr : ℕ) : FdElem :=
  if d.fd = fd then { d with mmapped := true, mapid := mid, vaddr := addr } else d

/-- **What `mmap` makes** when it does not fail. -/
theorem mmap_eq {fd addr : ℕ} {d : FdElem} (junk : ℕ → Spte)
    (hd : (s.procs p).fd_list.find? (fun d => d.fd == fd) = some d) (hok : MmapOk s p addr d) :
    let n := ((s.files d.file_ptr).length + PGSIZE - 1) / PGSIZE
    ∃ table, mmap s p fd addr junk = { s with
        procs := Function.update s.procs p { s.procs p with
          sup_page_table := table
          fd_list := (s.procs p).fd_list.map (·.mapped_at fd s.next_mid addr) }
        fresh := s.fresh + n
        next_mid := s.next_mid + 1
        sptes := fun b => if s.fresh ≤ b ∧ b < s.fresh + n then some (mmap_entry addr d.file_ptr
          s.next_mid (s.files d.file_ptr).length n (b - s.fresh) (junk (b - s.fresh)))
          else s.sptes b } ∧
      ∀ w, table w = if addr ≤ w ∧ w < addr + n then some (s.fresh + (w - addr))
        else page_lookup s p w := by
  intro n
  set g : Proc → Proc := fun t => { t with
    fd_list := t.fd_list.map (·.mapped_at fd s.next_mid addr) } with hg
  set w : Mem := { s with next_mid := s.next_mid + 1 }.upd p g with hw
  have hwlook : ∀ v, page_lookup w p v = page_lookup s p v := fun v => by
    unfold page_lookup
    rw [hw, Mem.upd_self]
  obtain ⟨table, ht, hlook⟩ := @insert_pages_spec w p addr n
    (fun i => mmap_entry addr d.file_ptr s.next_mid (s.files d.file_ptr).length n i (junk i))
    (fun i _ => rfl) fun i hi => (hwlook _).trans (hok.pages.2 i hi)
  refine ⟨table, ?_, fun v => ?_⟩
  · have hproc : w.procs p = g (s.procs p) := Mem.upd_self _ _ _
    have hprocs : Function.update w.procs p { w.procs p with sup_page_table := table } =
        Function.update s.procs p { s.procs p with
          sup_page_table := table
          fd_list := (s.procs p).fd_list.map (·.mapped_at fd s.next_mid addr) } := by
      rw [hproc]
      exact Function.update_idem _ _ _
    rw [hprocs] at ht
    unfold mmap
    rw [hd]
    dsimp only
    rw [if_neg hok]
    exact ht
  · rw [hlook, hwlook]
    rfl

/-- A process with a file of `len` bytes open as descriptor 2, and nothing else in memory. -/
def opened (len : ℕ) : Mem :=
  open_file { small_boot 2 with files := fun _ => ⟨len, fun _ => 0, 0⟩ } 0 0

/-- The file mapped at page 8. -/
def mapped (len : ℕ) : Mem := mmap (opened len) 0 2 8 fun _ => blank

end Pintos.Vm
