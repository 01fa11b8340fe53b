/-
Runs in which the frame table and the page directories agree.

`LinkInv` is kept by faults that map what they list, by evictions that clear the page of the
victim and of nobody else, and by a `munmap` that clears no page whose frame is listed. `Linking`
is that condition, and each step of the paging code is shown to keep the invariant under it.

Three places break it. Stack growth lists its frame for a local variable of `allocate_page`, so
that the frame table entry names nothing. `install_fault_page` may have no page table, and the
frame is listed all the same. `munmap` takes the frames of its pages off the frame table after
it has cleared them, and the first page's frame not at all.
-/
import Pintos.Vm.Link

set_option autoImplicit false

namespace Pintos.Vm

open Pintos.Kernel StepSystem

variable {all : Bool} {s s' t : Mem} {p q v k a : ℕ}

/-! ## The condition -/

/-- The page that `swap_out` clears is its victim's, or one that the running process does not
have. -/
def ClearsVictim (s : Mem) (p : ℕ) : Prop :=
  ∀ e ∈ s.frame_table.head?, ∀ a x, e.spte = some a → s.sptes a = some x →
    e.owner = p ∨ page_lookup s p x.user_vaddr = none ∧ (s.procs p).pagedir x.user_vaddr = none

/-- The condition on a step. An eviction clears the page of its victim, and a page that is
listed gets mapped. Where the mapped pages are followed as well, no fault grows the stack, and
`munmap` clears and removes no page whose frame is listed. -/
def Linking (all : Bool) (s : Mem) : Event → Prop
  | .run p c =>
    match (s.procs p).point with
    | .evict _ => s.swap_lock = none → ClearsVictim s p
    | .load (.entry v _ a) _ => ∀ x, s.sptes a = some x → x.swapped = false → HasTable s p v c
    | .load (.grow v) _ => all = true → (s.procs p).pagedir v = none → ¬ HasTable s p v c
    | .install v _ _ _ => HasTable s p v c
    | .munmap m => all = true → (s.procs p).leaving = false →
        (∃ x, s.sptes m.spte = some x ∧ m.iter < x.page_cnt) →
        ∀ e ∈ s.frame_table, e.owner = p → ∀ a, e.spte = some a →
          page_lookup s p m.vaddr ≠ some a
    | .unlist m => all = true → (s.procs p).leaving = false →
        ∀ e ∈ s.frame_table, e.owner = p → e.spte ≠ some m.spte
    | _ => True
  | _ => True

namespace LinkInv

/-! ## Steps of a fault -/

theorem step_get {w : Want} (h : LinkInv all s) (hE : EntryInv s)
    (hpt : (s.procs p).point = .get w) (hs : step_get s p w = .ok s') : LinkInv all s' := by
  rcases step_get_spec hs with rfl | ⟨i, -, rfl⟩
  · exact h.goto hE hpt (.plain (fun _ hk => hk) (fun _ hv => hv) rfl rfl rfl rfl Point.noConfusion)
      (Quiet.refl p s) rfl rfl fun a x' hx' hsw => ⟨x', hx', hsw⟩
  · exact h.goto hE hpt (.plain (fun _ hk => hk) (fun _ hv => hv) rfl rfl rfl rfl Point.noConfusion)
      (Quiet.of_eq rfl rfl rfl rfl) rfl rfl fun a x' hx' hsw => ⟨x', hx', hsw⟩

/-- **The first half of `swap_out`.** -/
theorem step_evict {w : Want} (h : LinkInv all s) (hE : EntryInv s)
    (hpt : (s.procs p).point = .evict w) (hok : s.swap_lock = none → ClearsVictim s p)
    (hs : step_evict s p w = .ok s') : LinkInv all s' := by
  rcases step_evict_spec hs with ⟨rfl, -⟩ | ⟨hlock, e, rest, a, x, htable, ha, hx, -, rfl⟩
  · exact h
  have hclears : e.owner = p ∨
      page_lookup s p x.user_vaddr = none ∧ (s.procs p).pagedir x.user_vaddr = none := by
    refine hok hlock e ?_ a x ha hx
    rw [htable]
    rfl
  have hmem : ∀ e' ∈ rest, e' ∈ s.frame_table := fun e' he' => by
    rw [htable]
    exact List.mem_cons_of_mem _ he'
  have he : e ∈ s.frame_table := by
    rw [htable]
    exact List.mem_cons_self
  have hmine := h.owns e he a x ha hx
  -- the page of the victim is not one that the process wants
  have hspared : ∀ u b, (u, b) ∈ (s.procs p).points.flatMap Point.keys → Tracked all s p b →
      u ≠ x.user_vaddr := by
    rintro u b hk ht rfl
    rcases hclears with hown | ⟨hnone, -⟩
    · rw [hown] at hmine
      obtain rfl := Option.some.inj (hmine.symm.trans (hE.keyed hk))
      refine h.not_listed hE (Proc.alive_at hpt rfl) (by rw [hpt]; rfl) hk he ha ?_
      rw [hown]
      exact ht
    · rw [hE.keyed hk] at hnone
      cases hnone
  -- nothing else is listed for the entry
  have hother : ∀ e' ∈ rest, ∀ b, e'.spte = some b → Tracked all s e'.owner b → b ≠ a := by
    rintro e' he' b hb ht rfl
    have honce := h.once
    rw [htable] at honce
    have hsame : e'.owner = e.owner :=
      hE.owned _ _ _ _ b (h.owns e' (hmem e' he') b x hb hx) hmine
    refine (List.pairwise_cons.mp honce).1 e' he' b ha hb ?_ ht
    rw [← hsame]
    exact ht
  set u : Mem := { s.setSpte a { x with swapped := true } with
    frame_table := rest
    swap_lock := some p }.upd p (fun t => { t with
      pagedir := Function.update t.pagedir x.user_vaddr none
      point := .save w e }) with hu
  have hset : Quiet p s (s.setSpte a { x with swapped := true }) := Quiet.set hx rfl
  have hmid : Quiet p s { s.setSpte a { x with swapped := true } with
      frame_table := rest
      swap_lock := some p } := hset.trans (Quiet.of_eq rfl rfl rfl rfl)
  have hq : Quiet p s u := hmid.upd rfl rfl
  have hself : u.procs p = { s.procs p with
      pagedir := Function.update (s.procs p).pagedir x.user_vaddr none
      point := .save w e } := Mem.upd_self _ _ _
  have hsptes : u.sptes = Function.update s.sptes a (some { x with swapped := true }) := rfl
  have hF : Follows p s u := by
    refine hq.follows fun hl => ?_
    rw [hself] at hl
    change ((s.procs p).callers.map Caller.point).any Point.leaving = false at hl
    change ((s.procs p).point.leaving || ((s.procs p).callers.map Caller.point).any _) = false
    rw [hpt, hl]
    rfl
  refine h.of_proc hE hF ?_ (fun e' he' _ => hmem e' he') (fun e' he' hown b y hb hy => ?_)
    (fun e' he' hown b hb ht _ => ?_) (fun e' he' b y hb ht hy => ?_) ?_
    (fun hall e' he' hown hl => ?_) (fun v pte _ hpte hw => ?_) (fun b y _ hy hm => ?_)
    (fun e' he' hown => ?_) (fun e' he' _ b hb => h.blocks e' (hmem e' he') b hb)
  · rw [hself]
    change StackLink all u p (.save w e :: (s.procs p).callers.map Caller.point)
    have hst : StackLink all s p (.save w e :: (s.procs p).callers.map Caller.point) := by
      have hhead := h.head hpt
      have hkeys : (s.procs p).points.flatMap Point.keys =
          (Point.save w e :: (s.procs p).callers.map Caller.point).flatMap Point.keys := by
        rw [Proc.points, hpt]
        rfl
      refine ⟨⟨hhead.absent, hhead.apart, fun e' b he' hb => ?_, fun e' b y he' hb hy u b' hk ht =>
        ?_⟩, (h.stack p).2⟩
      · obtain rfl := Option.some.inj he'
        exact h.blocks e he b hb
      · obtain rfl := Option.some.inj he'
        obtain rfl := Option.some.inj (ha.symm.trans hb)
        obtain rfl := Option.some.inj (hx.symm.trans hy)
        rw [← hkeys] at hk
        exact hspared u b' hk ht
    refine hst.mono hF (fun v b hk => ?_) fun v b _ _ hn => ?_
    · refine hE.key_lt (p := p) (w := v) ?_
      rw [Proc.points, hpt]
      exact hk
    · rw [hself]
      by_cases hv : v = x.user_vaddr
      · subst hv
        exact Function.update_self _ _ _
      · exact (Function.update_of_ne hv _ _).trans hn
  · obtain ⟨z, hz, hv⟩ := hF.vaddr (h.blocks e' (hmem e' he') b hb) hy
    rw [hq.page_lookup, hv, ← hown]
    exact h.owns e' (hmem e' he') b z hb hz
  · have ht := hF.tracked (h.blocks e' (hmem e' he') b hb) ht
    have hlink := h.linked e' (hmem e' he') b hb
    rw [hown] at hlink
    obtain ⟨y, hy, hmap⟩ := hlink ht (Proc.alive_at hpt rfl)
    have hba : b ≠ a := hother e' he' b hb (by rw [hown]; exact ht)
    refine ⟨y, by rw [hsptes, Function.update_of_ne hba]; exact hy, ?_⟩
    rw [hown] at hmap ⊢
    have hl := h.owns e' (hmem e' he') b y hb hy
    rw [hown] at hl
    rw [hpt] at hmap
    obtain ⟨pte, hpte, hfr⟩ := hmap.resolve_right (fun hc => (by cases hc))
    refine Or.inl ⟨pte, ?_, hfr⟩
    rw [hself]
    refine (Function.update_of_ne (fun hv => ?_) _ _).trans hpte
    -- the page that is cleared is not one the process has listed another frame for
    rw [hv] at hl
    rcases hclears with hown' | ⟨hnone, -⟩
    · rw [hown', hl] at hmine
      exact hba (Option.some.inj hmine)
    · rw [hl] at hnone
      cases hnone
  · have ht := hF.tracked (h.blocks e' (hmem e' he') b hb) ht
    rw [hsptes, Function.update_of_ne (hother e' he' b hb ht)] at hy
    exact h.resident e' (hmem e' he') b y hb ht hy
  · have hold := h.single hF
    rw [htable] at hold
    exact (List.pairwise_cons.mp hold).2
  · refine h.named hall e' (hmem e' he') ?_
    rw [hown]
    exact hF.stays hl
  · rw [hself] at hpte
    by_cases hv : v = x.user_vaddr
    · subst hv
      cases (Function.update_self _ _ _).symm.trans hpte
    · obtain ⟨b, y, hl, hy, hyw⟩ := h.readonly p v pte (Proc.alive_at hpt rfl)
        ((Function.update_of_ne hv _ _).symm.trans hpte) hw
      obtain ⟨y', hy', hfix⟩ := hq.stays hy
      exact ⟨b, y', by rw [hq.page_lookup]; exact hl, hy',
        (congrArg Spte.writable hfix).trans hyw⟩
  · obtain ⟨z, hz, hfix⟩ := hq.entry hy
    have hzm : z.mmapped = true := (congrArg Spte.mmapped hfix).symm.trans hm
    exact (congrArg Spte.writable hfix).trans (h.mapped b z hz hzm)
  · rw [hself]
    exact Point.noConfusion

theorem step_save {w : Want} {e : Fte} (h : LinkInv all s) (hE : EntryInv s)
    (hpt : (s.procs p).point = .save w e) (hs : step_save s p w e = .ok s') : LinkInv all s' := by
  have hfree : (Point.save w e).Next (.free w e.frame) :=
    (.plain (fun _ hk => hk) (fun _ hv => hv) rfl rfl rfl rfl Point.noConfusion)
  obtain ⟨a, x, -, hx, ⟨-, -, ⟨rfl, -⟩ | ⟨-, rfl⟩⟩ | ⟨-, rfl⟩ | ⟨-, i, -, rfl⟩⟩ := step_save_spec hs
  · exact h
  · exact h.goto hE hpt ⟨fun _ hk => hk, fun _ hv => hv, fun _ he => he, nofun, rfl, rfl, nofun⟩
      (Quiet.of_eq rfl rfl rfl rfl) rfl rfl fun b y hy hsw => ⟨y, hy, hsw⟩
  · exact h.goto hE hpt hfree (Quiet.refl p s) rfl rfl fun b y hy hsw => ⟨y, hy, hsw⟩
  · have hset : Quiet p s (s.setSpte a { x with disk_sector_idx := i }) := Quiet.set hx rfl
    refine h.goto hE hpt hfree (hset.trans (Quiet.of_eq rfl rfl rfl rfl)) rfl rfl
      fun b y hy hsw => ?_
    change Function.update s.sptes a _ b = some y at hy
    by_cases hb : b = a
    · subst hb
      rw [Function.update_self] at hy
      obtain rfl := Option.some.inj hy
      exact ⟨x, hx, hsw⟩
    · rw [Function.update_of_ne hb] at hy
      exact ⟨y, hy, hsw⟩

/-- A page of the victim that is not there is brought in above the write-back. -/
theorem step_writeback {w : Want} {e : Fte} {c : Choice} (h : LinkInv all s) (hE : EntryInv s)
    (hpt : (s.procs p).point = .writeback w e) (hs : step_writeback s p w e c = .ok s') :
    LinkInv all s' := by
  obtain ⟨a, x, ha, hx, ⟨f, rfl⟩ | ⟨hnone, hfault⟩⟩ := step_writeback_spec hs
  · exact h.goto hE hpt (.plain (fun _ hk => hk) (fun _ hv => hv) rfl rfl rfl rfl Point.noConfusion)
      (Quiet.of_eq rfl rfl rfl rfl) rfl rfl fun b y hy hsw => ⟨y, hy, hsw⟩
  · have hpts : (s.procs p).points = (Caller.writeback w e :: (s.procs p).callers).map
        Caller.point := by
      rw [Proc.points, hpt]
      rfl
    have hv : x.user_vaddr * PGSIZE / PGSIZE = x.user_vaddr :=
      Nat.mul_div_cancel _ (by decide)
    refine h.fault hE (by rw [hpt]; rfl) (by rw [hpt]; rfl) ?_ ?_ ?_ ?_ ?_ hfault
    · rw [← hpts]
      exact h.stack p
    · rw [← hpts]
      exact fun u b hk => hE.key_lt hk
    · rw [← hpts]
      exact id
    · rw [hv]
      exact fun _ _ _ _ _ _ => hnone
    · rw [hv]
      exact (h.head hpt).spared e a x rfl ha hx

theorem step_free {w : Want} {k : ℕ} (h : LinkInv all s) (hE : EntryInv s)
    (hpt : (s.procs p).point = .free w k) (hs : step_free s p w k = .ok s') :
    LinkInv all s' := by
  obtain ⟨-, rfl⟩ := step_free_spec hs
  exact h.goto hE hpt (.plain (fun _ hk => hk) (fun _ hv => hv) rfl rfl rfl rfl Point.noConfusion)
    (Quiet.of_eq rfl rfl rfl rfl) rfl rfl fun b y hy hsw => ⟨y, hy, hsw⟩

/-- `swap_in` lists the frame before it is filled. -/
theorem step_swapin {v a k : ℕ} {write : Bool} (h : LinkInv all s) (hE : EntryInv s)
    (hpt : (s.procs p).point = .swapin v write a k)
    (hs : step_swapin s p v write a k = .ok s') : LinkInv all s' := by
  rcases step_swapin_spec hs with ⟨rfl, -⟩ | ⟨-, b, x, hl, hx, ⟨-, rfl⟩ | ⟨-, rfl⟩⟩
  · exact h
  · have hkey : (v, a) ∈ (s.procs p).points.flatMap Point.keys := by
      rw [Proc.points, hpt]
      exact List.mem_append_left _ (List.mem_singleton.mpr rfl)
    obtain rfl := Option.some.inj (hl.symm.trans (hE.keyed hkey))
    obtain ⟨-, y, hy, hyv⟩ := hE.block p v b hl
    obtain rfl := Option.some.inj (hx.symm.trans hy)
    have hset : Quiet p s (s.setSpte b { x with swapped := false }) := Quiet.set hx rfl
    have hmid : Quiet p s { s with
        swap_lock := some p
        sptes := Function.update s.sptes b (some { x with swapped := false }) } :=
      hset.trans (Quiet.of_eq rfl rfl rfl rfl)
    have hn : (Point.swapin v write b k).Next (.refill v write b k b) :=
      (.plain (fun _ hk => hk) (fun _ hv => hv) rfl rfl rfl rfl Point.noConfusion)
    -- the entry first, then the frame table
    have hgo := h.goto hE hpt hn hmid rfl rfl fun c z hz hsw => (by
      change Function.update s.sptes b _ c = some z at hz
      by_cases hc : c = b
      · subst hc
        rw [Function.update_self] at hz
        obtain rfl := Option.some.inj hz
        cases hsw
      · rw [Function.update_of_ne hc] at hz
        exact ⟨z, hz, hsw⟩)
    have hEgo := hE.goto hmid rfl ((hE.head hpt).keys hn.keys rfl rfl)
    refine hgo.list_frame hEgo ⟨k, p, some b⟩ (fun c z hc hz => ?_) (fun c hc _ _ => ?_)
      (fun c z hc _ hz => ?_) (fun e' he' c hc' hc ht' _ => ?_) (fun _ _ hc => (by cases hc)) ?_
      fun c hc => ?_
    · obtain rfl := Option.some.inj hc
      change Function.update s.sptes b _ b = some z at hz
      rw [Function.update_self] at hz
      obtain rfl := Option.some.inj hz
      rw [(hmid.goto _).page_lookup]
      change page_lookup s p x.user_vaddr = some b
      rw [hyv]
      exact hl
    · obtain rfl := Option.some.inj hc
      refine ⟨_, Function.update_self _ _ _, Or.inr ?_⟩
      rw [Mem.goto_self]
      change some (v, k) = some (x.user_vaddr, k)
      rw [hyv]
    · obtain rfl := Option.some.inj hc
      change Function.update s.sptes b _ b = some z at hz
      rw [Function.update_self] at hz
      obtain rfl := Option.some.inj hz
      rfl
    · obtain rfl := Option.some.inj hc
      have hstays := fun hl => @leaving_goto _ _ _ _ (.refill v write b k b) hpt hn.leaving rfl hl
      refine h.not_listed hE (Proc.alive_at hpt rfl) (by rw [hpt]; rfl) hkey he' hc' ?_
      exact ((hmid.goto _).follows hstays).tracked (hE.key_lt hkey) ht'
    · rw [Mem.goto_self]
      exact Point.noConfusion
    · obtain rfl := Option.some.inj hc
      exact hE.key_lt hkey
  · exact h.goto hE hpt (.plain (fun _ hk => hk) (fun _ hv => hv) rfl rfl rfl rfl Point.noConfusion)
      (Quiet.of_eq rfl rfl rfl rfl) rfl rfl fun b y hy hsw => ⟨y, hy, hsw⟩

theorem step_refill {v a k b : ℕ} {write : Bool} (h : LinkInv all s) (hE : EntryInv s)
    (hpt : (s.procs p).point = .refill v write a k b)
    (hs : step_refill s p v write a k b = .ok s') : LinkInv all s' := by
  have hn : (Point.refill v write a k b).Next (.install v write a k) :=
    ⟨fun _ hk => hk, fun _ hv => hv, nofun, fun _ hf => hf, rfl, rfl, nofun⟩
  obtain ⟨x, -, ⟨-, rfl⟩ | ⟨-, rfl⟩⟩ := step_refill_spec hs
  · exact h.goto hE hpt hn (Quiet.of_eq rfl rfl rfl rfl) rfl rfl fun c y hy hsw => ⟨y, hy, hsw⟩
  · exact h.goto hE hpt hn (Quiet.of_eq rfl rfl rfl rfl) rfl rfl fun c y hy hsw => ⟨y, hy, hsw⟩

end LinkInv

/-- What `install_fault_page` does to the page directory. -/
theorem install_dir {writable room b : Bool}
    (hs : install_fault_page s p v k writable room = (b, t)) :
    (t.procs p).pagedir = (s.procs p).pagedir ∨ (s.procs p).pagedir v = none ∧
      (t.procs p).pagedir = Function.update (s.procs p).pagedir v (some ⟨k, writable⟩) := by
  rcases install_fault_page_spec hs with ⟨-, rfl⟩ | ⟨-, hnone, rfl⟩
  · exact Or.inl rfl
  · refine Or.inr ⟨hnone, ?_⟩
    rw [Mem.upd_self]

/-- The page of a fault is there after it. -/
theorem install_there {c : Choice} {writable b : Bool}
    (hs : install_fault_page s p v k writable c.room = (b, t))
    (hnone : (s.procs p).pagedir v = none) (htable : HasTable s p v c) :
    (t.procs p).pagedir v = some ⟨k, writable⟩ := by
  rcases install_absent (k := k) (c := c) hnone writable with ⟨-, u, hu, hmap⟩ | ⟨hno, -⟩
  · rw [hs] at hu
    rw [(Prod.mk.inj hu).2]
    exact hmap
  · exact absurd htable hno

/-- A fault with a frame for a page that is not swapped: the frame may be freed after a short
read, and the page is mapped, listed and marked. -/
theorem load_page_steps {write room : Bool} {x : Spte} (hx : s.sptes a = some x)
    (hs : load_page s p v write a k x room = .ok s') : ∃ frames bits b t,
      install_fault_page (s.setPool frames bits) p v k x.writable room = (b, t) ∧
      s' = { (t.setSpte a { x with loaded := true, dirty := x.dirty || write }).ret p with
        frame_table := s.frame_table ++ [⟨k, p, some a⟩] } := by
  unfold load_page at hs
  dsimp only at hs
  -- the frame may be given back before it is mapped
  obtain ⟨frames, bits, hs⟩ : ∃ frames bits,
      (mark_loaded (allocate_frame (install_fault_page (s.setPool frames bits) p v k x.writable
        room).2 p k (some a)) a write >>= fun s => Except.ok (s.ret p)) = .ok s' := by
    split at hs
    · obtain ⟨u, hu, hs⟩ := bind_eq_ok hs
      obtain ⟨-, rfl⟩ := palloc_free_page_spec hu
      exact ⟨_, _, hs⟩
    · obtain ⟨u, hu, hs⟩ := bind_eq_ok hs
      obtain rfl := Except.ok.inj hu
      exact ⟨_, s.used_map.bits, hs⟩
  obtain ⟨u, hmark, hs⟩ := bind_eq_ok hs
  obtain rfl := Except.ok.inj hs
  obtain ⟨y, hy, rfl⟩ := mark_loaded_spec hmark
  cases hinst : install_fault_page (s.setPool frames bits) p v k x.writable room with
  | mk b t =>
    rw [hinst] at hy
    obtain ⟨procs, rfl, -⟩ := install_fault_page_fields hinst
    obtain rfl : y = x := Option.some.inj (hy.symm.trans hx)
    exact ⟨frames, bits, b, _, hinst, rfl⟩

namespace LinkInv

/-- A page is mapped and listed by a fault. -/
theorem load_page {v a k : ℕ} {write : Bool} {c : Choice} {x : Spte} (h : LinkInv all s)
    (hE : EntryInv s) (hpt : (s.procs p).point = .load (.entry v write a) k)
    (hx : s.sptes a = some x) (hsw : x.swapped = false) (htable : HasTable s p v c)
    (hs : load_page s p v write a k x c.room = .ok s') : LinkInv all s' := by
  obtain ⟨frames, bits, b, t, hinst, rfl⟩ := load_page_steps hx hs
  have hkey : (v, a) ∈ (s.procs p).points.flatMap Point.keys := by
    rw [Proc.points, hpt]
    exact List.mem_append_left _ (List.mem_singleton.mpr rfl)
  have hl := hE.keyed hkey
  obtain ⟨-, y, hy, hyv⟩ := hE.block p v a hl
  obtain rfl := Option.some.inj (hx.symm.trans hy)
  obtain ⟨hq₁, hc⟩ := EntryInv.quiet_install (p := p)
    (Quiet.of_eq rfl rfl rfl rfl : Quiet p s (s.setPool frames bits)) hinst
  obtain ⟨procs, rfl, -⟩ := install_fault_page_fields hinst
  set x' : Spte := { x with loaded := true, dirty := x.dirty || write } with hx'
  set u : Mem := ({ s.setPool frames bits with procs := procs } : Mem).setSpte a x' with hu
  have hq : Quiet p s u := hq₁.trans (Quiet.set hx rfl)
  have hread : (u.ret p).sptes a = some x' := Function.update_self _ _ _
  have hret : LinkInv all (u.ret p) := by
    refine h.install_ret hE hpt rfl rfl (List.mem_singleton.mpr rfl) hq hc rfl
      (fun b z hz hzs => ?_) ?_ (fun _ _ _ hf => (by cases hf))
    · change Function.update s.sptes a (some x') b = some z at hz
      by_cases hb : b = a
      · subst hb
        rw [Function.update_self] at hz
        obtain rfl := Option.some.inj hz
        exact ⟨x, hx, hzs⟩
      · rw [Function.update_of_ne hb] at hz
        exact ⟨z, hz, hzs⟩
    · exact (install_dir hinst).imp id fun hdir =>
        ⟨hdir.1, _, hdir.2, fun hw => ⟨a, x, hl, hx, hw⟩⟩
  have hF : Follows p s (u.ret p) := hq.ret.follows (leaving_ret hpt rfl hc)
  refine hret.list_frame (hE.ret hq hc) ⟨k, p, some a⟩ (fun b z hb hz => ?_) (fun b hb ht _ => ?_)
    (fun b z hb _ hz => ?_) (fun e' he' b hb' hb ht' _ => ?_) (fun _ _ hc => (by cases hc)) ?_
    fun b hb => ?_
  · obtain rfl := Option.some.inj hb
    obtain rfl := Option.some.inj (hread.symm.trans hz)
    rw [hq.ret.page_lookup]
    change page_lookup s p x.user_vaddr = some a
    rw [hyv]
    exact hl
  · obtain rfl := Option.some.inj hb
    refine ⟨x', hread, Or.inl ⟨⟨k, x.writable⟩, ?_, rfl⟩⟩
    have hnone := h.absent hkey (hF.tracked (hE.key_lt hkey) ht)
    rw [ret_pagedir]
    change (procs p).pagedir x.user_vaddr = _
    rw [hyv]
    exact install_there hinst hnone htable
  · obtain rfl := Option.some.inj hb
    obtain rfl := Option.some.inj (hread.symm.trans hz)
    exact hsw
  · obtain rfl := Option.some.inj hb
    exact h.not_listed hE (Proc.alive_at hpt rfl) (by rw [hpt]; rfl) hkey he' hb'
      (hF.tracked (hE.key_lt hkey) ht')
  · rw [Mem.ret_self]
    exact Proc.ret_point_ne _
  · obtain rfl := Option.some.inj hb
    exact hE.key_lt hkey

/-- What comes after the loop around `swap_out`. -/
theorem step_load {w : Want} {k : ℕ} {c : Choice} (h : LinkInv all s) (hE : EntryInv s)
    (hpt : (s.procs p).point = .load w k) (hok : Linking all s (.run p c))
    (hs : step_load s p w k c = .ok s') : LinkInv all s' := by
  unfold Linking at hok
  dsimp only at hok
  rw [hpt] at hok
  cases w with
  | entry v write a =>
    obtain ⟨x, hx, ⟨-, rfl⟩ | ⟨hsw, hload⟩⟩ := step_load_entry_spec hs
    · exact h.goto hE hpt (.plain (fun _ hk => hk) (fun _ hv => hv) rfl rfl rfl rfl Point.noConfusion)
        (Quiet.refl p s) rfl rfl fun b y hy hsw => ⟨y, hy, hsw⟩
    · exact h.load_page hE hpt hx hsw (hok x hx hsw) hload
  | grow v =>
    rcases step_load_grow_spec hs with rfl | ⟨t, hinst, rfl⟩
    · exact h.exit hE hpt rfl rfl (Quiet.refl p s) rfl rfl fun b y hy hsw => ⟨y, hy, hsw⟩
    · obtain ⟨hq, hc⟩ := EntryInv.quiet_install (Quiet.refl p s) hinst
      have hnone : (s.procs p).pagedir v = none ∧ HasTable s p v c := by
        rcases install_fault_page_spec hinst with ⟨hc, -⟩ | ⟨-, hnone, -⟩
        · cases hc
        · refine ⟨hnone, ?_⟩
          rcases install_absent (k := k) (c := c) hnone true with ⟨htable, -⟩ | ⟨-, hno⟩
          · exact htable
          · rw [hinst] at hno
            cases (Prod.mk.inj hno).1
      have hdir := install_dir hinst
      obtain ⟨procs, rfl, -⟩ := install_fault_page_fields hinst
      have hret := h.install_ret hE hpt rfl rfl (List.mem_singleton.mpr rfl) hq hc rfl
        (fun b y hy hsw => ⟨y, hy, hsw⟩) (hdir.imp id fun ⟨hn, hd⟩ => ⟨hn, _, hd, nofun⟩) nofun
      have hEret := hE.ret hq hc
      have hins : LinkInv all (allocate_page (({ s with procs := procs } : Mem).ret p) p v
          c.junk) := hret.insert_page hEret nofun
      have hlist := hins.list_frame (hEret.insert_page _) ⟨k, p, none⟩ nofun nofun nofun
        (fun _ _ => nofun) (fun hall _ => absurd hnone.2 (hok hall hnone.1)) ?_ nofun
      · refine Eq.mp (congrArg (LinkInv all) ?_) hlist
        unfold allocate_page
        rw [insert_page_ret]
        unfold Vm.insert_page
        dsimp only
        cases (procs p).sup_page_table v <;> rfl
      · unfold allocate_page
        rw [insert_page_point, Mem.ret_self]
        exact Proc.ret_point_ne _
  | stack =>
    obtain ⟨b, ⟨t, hinst, rfl⟩ | ⟨t, hfree, rfl⟩⟩ := step_load_stack_spec hs
    · obtain ⟨hq, hc⟩ := EntryInv.quiet_install (p := p)
        (Quiet.of_eq rfl rfl rfl rfl : Quiet p s (s.setFrame k b)) hinst
      have hdir := install_dir hinst
      obtain ⟨procs, rfl, -⟩ := install_fault_page_fields hinst
      exact h.install_ret hE hpt rfl rfl (List.mem_singleton.mpr rfl) hq hc rfl
        (fun b y hy hsw => ⟨y, hy, hsw⟩) (hdir.imp id fun ⟨hn, hd⟩ => ⟨hn, _, hd, nofun⟩) nofun
    · obtain ⟨-, rfl⟩ := palloc_free_page_spec hfree
      exact h.exit hE hpt rfl rfl (Quiet.of_eq rfl rfl rfl rfl) rfl rfl
        fun b y hy hsw => ⟨y, hy, hsw⟩

theorem step_install {v a k : ℕ} {write : Bool} {c : Choice} (h : LinkInv all s)
    (hE : EntryInv s) (hpt : (s.procs p).point = .install v write a k)
    (htable : HasTable s p v c) (hs : step_install s p v write a k c = .ok s') :
    LinkInv all s' := by
  obtain ⟨x, b, t, hx, hinst, rfl⟩ := step_install_spec hs
  have hkey : (v, a) ∈ (s.procs p).points.flatMap Point.keys := by
    rw [Proc.points, hpt]
    exact List.mem_append_left _ (List.mem_singleton.mpr rfl)
  have hl := hE.keyed hkey
  obtain ⟨hq₁, hc⟩ := EntryInv.quiet_install (Quiet.refl p s) hinst
  have hdir := install_dir hinst
  obtain ⟨procs, rfl, -⟩ := install_fault_page_fields hinst
  have hq : Quiet p s (({ s with procs := procs } : Mem).setSpte a
      { x with loaded := true, dirty := x.dirty || write }) := hq₁.trans (Quiet.set hx rfl)
  refine h.install_ret hE hpt rfl rfl (List.mem_singleton.mpr rfl) hq hc rfl
    (fun b z hz hzs => ?_) ?_ (fun u k' d hf hd ht => ?_)
  · change Function.update s.sptes a _ b = some z at hz
    by_cases hb : b = a
    · subst hb
      rw [Function.update_self] at hz
      obtain rfl := Option.some.inj hz
      exact ⟨x, hx, hzs⟩
    · rw [Function.update_of_ne hb] at hz
      exact ⟨z, hz, hzs⟩
  · exact hdir.imp id fun hd => ⟨hd.1, _, hd.2, fun hw => ⟨a, x, hl, hx, hw⟩⟩
  · -- the frame was listed by `swap_in`, and is mapped now
    obtain ⟨rfl, rfl⟩ := Prod.mk.inj (Option.some.inj hf)
    obtain rfl := Option.some.inj (hl.symm.trans hd)
    have hthere := install_there hinst (h.absent hkey ht) htable
    exact ⟨_, hthere, rfl⟩

/-! ## Steps of `munmap` and `exit` -/

/-- The process returns without a page. -/
theorem ret {pt : Point} (h : LinkInv all s) (hE : EntryInv s) (hpt : (s.procs p).point = pt)
    (hlive : pt.live = true) (hleave : pt.leaving = false) (hfills : pt.fills = none) :
    LinkInv all (s.ret p) := by
  have hstays := fun hl => @leaving_ret s s p pt hpt hleave rfl hl
  have hq : Quiet p s (s.ret p) := (Quiet.refl p s).ret
  refine h.calm hE hq hstays rfl (fun w => Or.inl ?_) (fun b y hy hsw => ⟨y, hy, hsw⟩)
    (fun _ => Proc.alive_at hpt hlive) (fun _ f hf => ?_) ?_ ?_
  · rw [ret_pagedir]
  · rw [hpt, hfills] at hf
    cases hf
  · rw [Mem.ret_self]
    exact Proc.ret_point_ne _
  · rw [Mem.ret_self]
    refine StackLink.ret (StackLink.mono (hq.follows hstays) (h.stack p).2 (fun w b hk => ?_)
      fun w b _ _ hn => ?_)
    · refine hE.key_lt (p := p) (w := w) ?_
      rw [Proc.points, List.flatMap_cons]
      exact List.mem_append_right _ hk
    · rw [ret_pagedir]
      exact hn

theorem step_unmapping {mapping : ℕ} (h : LinkInv all s) (hE : EntryInv s)
    (hpt : (s.procs p).point = .unmapping mapping) (hs : step_unmapping s p mapping = .ok s') :
    LinkInv all s' := by
  rcases step_unmapping_spec hs with ⟨rfl, -⟩ | ⟨d, a, -, -, rfl | ⟨-, x, -, rfl⟩⟩
  · exact h.ret hE hpt rfl rfl rfl
  · exact h
  · exact h.goto hE hpt (.plain nofun nofun rfl rfl rfl rfl nofun)
      (Quiet.of_eq rfl rfl rfl rfl) rfl rfl fun b y hy hsw => ⟨y, hy, hsw⟩

end LinkInv

/-- A page that `munmap` clears is one of a mapping. -/
theorem EntryInv.clears (h : EntryInv s) {m : Unmap} {x : Spte}
    (hpt : (s.procs p).point = .munmap m) (hx : s.sptes m.spte = some x)
    (hlt : m.iter < x.page_cnt) : ∃ b y, page_lookup s p m.vaddr = some b ∧ s.sptes b = some y ∧
      y.mmapped = true := by
  obtain ⟨d, hd, hdm, -, hl, hv⟩ := (h.head hpt).unmaps m rfl
  obtain ⟨n, ⟨hn, hcov⟩, -⟩ := h.maps p d hd hdm
  obtain ⟨b, y, hb, hy, -, hyn⟩ := hcov 0 hn
  obtain rfl := Option.some.inj (hb.symm.trans hl)
  obtain rfl := Option.some.inj (hx.symm.trans hy)
  obtain ⟨b', y', hb', hy', hym, -⟩ := hcov m.iter (by omega)
  exact ⟨b', y', by rw [hv]; exact hb', hy', hym⟩

/-- The first page of a mapping that is being removed is one of a mapping. -/
theorem EntryInv.first_page (h : EntryInv s) {m : Unmap} {x : Spte}
    (hpt : (s.procs p).point = .unlist m) (hx : s.sptes m.spte = some x) :
    page_lookup s p x.user_vaddr = some m.spte ∧ x.mmapped = true := by
  obtain ⟨d, hd, hdm, -, hl, -⟩ := (h.head hpt).unmaps m rfl
  obtain ⟨n, ⟨hn, hcov⟩, -⟩ := h.maps p d hd hdm
  obtain ⟨b, y, hb, hy, hym, -⟩ := hcov 0 hn
  obtain rfl := Option.some.inj (hb.symm.trans hl)
  obtain rfl := Option.some.inj (hx.symm.trans hy)
  obtain ⟨-, z, hz, hzv⟩ := h.block p _ _ hl
  obtain rfl := Option.some.inj (hx.symm.trans hz)
  exact ⟨by rw [hzv]; exact hl, hym⟩

namespace LinkInv

/-- A turn of the loop clears a page that no frame is listed for. -/
theorem unmap_page {s₁ : Mem} {m : Unmap} {x : Spte} (h : LinkInv all s) (hE : EntryInv s)
    (hpt : (s.procs p).point = .munmap m) (hx : s.sptes m.spte = some x)
    (hno : ∀ e ∈ s.frame_table, e.owner = p → ∀ a, e.spte = some a →
      page_lookup s p m.vaddr = some a → ¬ Tracked all s p a)
    (hs : unmap_page s₁ p m x = .ok s') (hq : Quiet p s s₁) (hprocs : s₁.procs = s.procs)
    (hsptes : s₁.sptes = s.sptes) (hft : s₁.frame_table = s.frame_table) : LinkInv all s' := by
  obtain ⟨-, rfl⟩ := unmap_page_spec hs
  have hmid : Quiet p s₁ (s₁.setSpte m.spte { x with mid := 0 }) :=
    Quiet.set (x := x) (by rw [hsptes]; exact hx) rfl
  have hset : Quiet p s (s₁.setSpte m.spte { x with mid := 0 }) := hq.trans hmid
  set u : Mem := (s₁.setSpte m.spte { x with mid := 0 }).upd p (fun t => { t with
    pagedir := Function.update t.pagedir m.vaddr none
    point := .munmap m.next }) with hu
  have hqu : Quiet p s u := hset.upd rfl rfl
  have hself : u.procs p = { s.procs p with
      pagedir := Function.update (s.procs p).pagedir m.vaddr none
      point := .munmap m.next } := by
    rw [← hprocs]
    exact Mem.upd_self _ _ _
  have hstays : (u.procs p).leaving = false → (s.procs p).leaving = false := fun hl => by
    rw [hself] at hl
    change ((s.procs p).callers.map Caller.point).any Point.leaving = false at hl
    change ((s.procs p).point.leaving || ((s.procs p).callers.map Caller.point).any _) = false
    rw [hpt, hl]
    rfl
  refine h.calm hE hqu hstays hft (fun w => ?_) (fun b y hy hsw => ?_)
    (fun _ => Proc.alive_at hpt rfl) (fun _ f hf => ?_) ?_ ?_
  · rw [hself]
    by_cases hw : w = m.vaddr
    · subst hw
      exact Or.inr ⟨Function.update_self _ _ _, fun _ => hno⟩
    · exact Or.inl (Function.update_of_ne hw _ _)
  · change Function.update s₁.sptes m.spte _ b = some y at hy
    rw [hsptes] at hy
    by_cases hb : b = m.spte
    · subst hb
      rw [Function.update_self] at hy
      obtain rfl := Option.some.inj hy
      exact ⟨x, hx, hsw⟩
    · rw [Function.update_of_ne hb] at hy
      exact ⟨y, hy, hsw⟩
  · rw [hpt] at hf
    cases hf
  · rw [hself]
    exact nofun
  · rw [hself]
    change StackLink all u p (.munmap m.next :: (s.procs p).callers.map Caller.point)
    refine ⟨FrameLink.plain rfl rfl rfl, StackLink.mono (hqu.follows hstays) (h.stack p).2
      (fun w b hk => ?_) fun w b _ _ hn => ?_⟩
    · refine hE.key_lt (p := p) (w := w) ?_
      rw [Proc.points, List.flatMap_cons]
      exact List.mem_append_right _ hk
    · rw [hself]
      by_cases hw : w = m.vaddr
      · subst hw
        exact Function.update_self _ _ _
      · exact (Function.update_of_ne hw _ _).trans hn

theorem step_munmap {m : Unmap} {c : Choice} (h : LinkInv all s) (hE : EntryInv s)
    (hpt : (s.procs p).point = .munmap m) (hok : Linking all s (.run p c))
    (hs : step_munmap s p m c = .ok s') : LinkInv all s' := by
  unfold Linking at hok
  dsimp only at hok
  rw [hpt] at hok
  have hno : ∀ x, s.sptes m.spte = some x → m.iter < x.page_cnt → ∀ e ∈ s.frame_table,
      e.owner = p → ∀ a, e.spte = some a → page_lookup s p m.vaddr = some a →
      ¬ Tracked all s p a := by
    intro x hx hlt e he hown a ha hl ht
    cases all with
    | true => exact hok rfl ht ⟨x, hx, hlt⟩ e he hown a ha hl
    | false =>
      -- the page is of a mapped file
      obtain ⟨b, y, hb, hy, hym⟩ := hE.clears hpt hx hlt
      obtain rfl := Option.some.inj (hb.symm.trans hl)
      obtain ⟨z, hz, hzm⟩ := ht
      obtain rfl := Option.some.inj (hy.symm.trans hz)
      rw [hym] at hzm
      cases hzm
  obtain ⟨x, hx, ⟨-, rfl⟩ | ⟨hlt, files, hpage⟩ | ⟨hlt, hnone, hfault⟩⟩ := step_munmap_spec hs
  · exact h.goto hE hpt (.plain nofun nofun rfl rfl rfl rfl nofun) (Quiet.refl p s) rfl rfl
      fun b y hy hsw => ⟨y, hy, hsw⟩
  · exact h.unmap_page hE hpt hx (hno x hx hlt) hpage (Quiet.of_eq rfl rfl rfl rfl) rfl rfl rfl
  · have hpts : (s.procs p).points = (Caller.munmap m :: (s.procs p).callers).map
        Caller.point := by
      rw [Proc.points, hpt]
      rfl
    have hv : m.vaddr * PGSIZE / PGSIZE = m.vaddr := Nat.mul_div_cancel _ (by decide)
    refine h.fault hE (by rw [hpt]; rfl) (by rw [hpt]; rfl) ?_ ?_ ?_ ?_ ?_ hfault
    · rw [← hpts]
      exact h.stack p
    · rw [← hpts]
      exact fun u b hk => hE.key_lt hk
    · rw [← hpts]
      exact id
    · rw [hv]
      exact fun _ _ _ _ _ _ => hnone
    · -- only `exit` is below, which wants no page
      intro u b hk
      change (u, b) ∈ [] ++ ((s.procs p).callers.map Caller.point).flatMap Point.keys at hk
      rcases (hE.head hpt).called rfl with hrest | hrest
      · rw [hrest] at hk
        cases hk
      · rw [hrest] at hk
        cases hk

/-- `munmap` takes off the frames of its mapping and frees the first entry. -/
theorem step_unlist {m : Unmap} {c : Choice} (h : LinkInv all s) (hE : EntryInv s)
    (hpt : (s.procs p).point = .unlist m) (hok : Linking all s (.run p c))
    (hs : step_unlist s p m c = .ok s') : LinkInv all s' := by
  unfold Linking at hok
  dsimp only at hok
  rw [hpt] at hok
  obtain ⟨x, frames, bits, hx, -, rfl⟩ := step_unlist_spec hs
  obtain ⟨hfirst, hxm⟩ := hE.first_page hpt hx
  set f : Proc → Proc := fun t => { t with
    sup_page_table := Function.update t.sup_page_table x.user_vaddr none
    fd_list := t.fd_list.map (fun d : FdElem =>
      if d.mmapped && d.mapid == m.mapping then { d with mmapped := false } else d) } with hf
  generalize hu : ({ s.setPool frames bits with
    frame_table := s.frame_table.filter (fun e => mid_of s c.stale_mid e != m.mapping)
    sptes := Function.update s.sptes m.spte none
    filesys_lock := none } : Mem) = u
  have hup : u.procs = s.procs := by rw [← hu]; rfl
  have hus : ((u.upd p f).ret p).sptes = Function.update s.sptes m.spte none := by
    change u.sptes = _
    rw [← hu]
  have hself : (u.upd p f).procs p = f (s.procs p) := by rw [Mem.upd_self, hup]
  have hmem : ∀ e ∈ ((u.upd p f).ret p).frame_table, e ∈ s.frame_table := fun e he => by
    change e ∈ u.frame_table at he
    rw [← hu] at he
    exact (List.mem_filter.mp he).1
  have hlook : ∀ v, page_lookup ((u.upd p f).ret p) p v =
      Function.update (s.procs p).sup_page_table x.user_vaddr none v := fun v => by
    unfold page_lookup
    rw [Mem.ret_self, Proc.ret_hash, hself]
  have hstill : ∀ v a, a ≠ m.spte → page_lookup s p v = some a →
      page_lookup ((u.upd p f).ret p) p v = some a := by
    intro v a hne ha
    rw [hlook, Function.update_of_ne]
    · exact ha
    · rintro rfl
      exact hne (Option.some.inj (ha.symm.trans hfirst))
  have hold : ∀ a, a ≠ m.spte → ((u.upd p f).ret p).sptes a = s.sptes a := fun a hne => by
    rw [hus, Function.update_of_ne hne]
  have hkept : ∀ a y, ((u.upd p f).ret p).sptes a = some y → a ≠ m.spte := by
    rintro a y hy rfl
    rw [hus, Function.update_self] at hy
    cases hy
  have hF : Follows p s ((u.upd p f).ret p) := by
    refine ⟨fun q hq => ?_, ?_, fun a _ x' hx' => ?_, fun q v a y hq hv hy => ?_,
      leaving_ret hpt rfl (by rw [hself])⟩
    · rw [Mem.ret_of_ne hq, Mem.upd_of_ne _ hq, hup]
    · change s.fresh ≤ u.fresh
      rw [← hu]
      exact le_rfl
    · rw [hold a (hkept a x' hx')] at hx'
      exact ⟨x', hx', rfl⟩
    · refine ⟨y, ?_, rfl⟩
      rw [hold]
      · exact hy
      · rintro rfl
        exact hq (hE.owned q p v _ _ hv hfirst)
  have hdir : (((u.upd p f).ret p).procs p).pagedir = (s.procs p).pagedir := by
    rw [ret_pagedir, hself]
  refine h.of_proc hE hF ?_ (fun e he _ => hmem e he) (fun e he hown a y ha hy => ?_)
    (fun e he hown a ha ht _ => ?_) (fun e he a y ha ht hy => ?_) ?_
    (fun hall e he hown hl => ?_) (fun v pte _ hpte hw => ?_) (fun a y _ hy hm => ?_)
    (fun _ _ _ => ?_) (fun e he _ a ha => ?_)
  · rw [Mem.ret_self]
    refine StackLink.ret ?_
    rw [hself]
    change StackLink all _ p ((s.procs p).callers.map Caller.point)
    rcases (hE.head hpt).called rfl with hrest | hrest
    · rw [hrest]
      trivial
    · rw [hrest]
      exact ⟨FrameLink.plain rfl rfl rfl, trivial⟩
  · have hne := hkept a y hy
    rw [hold a hne] at hy
    have hmine := h.owns e (hmem e he) a y ha hy
    rw [hown] at hmine
    exact hstill _ a hne hmine
  · have hne : a ≠ m.spte := by
      rintro rfl
      cases all with
      | true => exact hok rfl (hF.stays ht) e (hmem e he) hown ha
      | false =>
        obtain ⟨y, hy, -⟩ := ht
        exact hkept _ y hy rfl
    have hlink := h.linked e (hmem e he) a ha
    rw [hown] at hlink
    obtain ⟨y, hy, hmap⟩ := hlink (hF.tracked (h.blocks e (hmem e he) a ha) ht)
      (Proc.alive_at hpt rfl)
    refine ⟨y, (hold a hne).trans hy, Or.inl ?_⟩
    rw [hown] at hmap ⊢
    rw [hpt] at hmap
    rw [hdir]
    exact hmap.resolve_right nofun
  · rw [hold a (hkept a y hy)] at hy
    exact h.resident e (hmem e he) a y ha (hF.tracked (h.blocks e (hmem e he) a ha) ht) hy
  · have hft : ((u.upd p f).ret p).frame_table =
        s.frame_table.filter (fun e => mid_of s c.stale_mid e != m.mapping) := by
      change u.frame_table = _
      rw [← hu]
    rw [hft]
    exact (h.single hF).filter _
  · exact h.named hall e (hmem e he) (by rw [hown]; exact hF.stays hl)
  · rw [hdir] at hpte
    obtain ⟨a, y, hl, hy, hyw⟩ := h.readonly p v pte (Proc.alive_at hpt rfl) hpte hw
    have hne : a ≠ m.spte := by
      rintro rfl
      obtain rfl := Option.some.inj (hx.symm.trans hy)
      rw [h.mapped _ x hx hxm] at hyw
      cases hyw
    exact ⟨a, y, hstill v a hne hl, (hold a hne).trans hy, hyw⟩
  · rw [hold a (hkept a y hy)] at hy
    exact h.mapped a y hy hm
  · rw [Mem.ret_self]
    exact Proc.ret_point_ne _
  · exact (h.blocks e (hmem e he) a ha).trans_le hF.fresh

/-- The pages are given up; the frames stay listed until the end of `thread_exit`. -/
theorem thread_exit (h : LinkInv all s) (hE : EntryInv s) (hlast : (s.procs p).callers = [])
    (halive : (s.procs p).alive) (hfills : (s.procs p).point.fills = none)
    (hs : thread_exit s p = .ok s') : LinkInv all s' := by
  obtain ⟨frames, bits, -, rfl⟩ := thread_exit_spec hs
  have hq := Quiet.give_up p s frames bits
  refine h.calm hE (hq.goto .reap) (fun hl => ?_) rfl (fun w => Or.inr ?_)
    (fun b y hy hsw => ⟨y, hy, hsw⟩) (fun _ => halive) (fun _ f hf => ?_) ?_ ?_
  · rw [Mem.goto_self] at hl
    cases hl
  · rw [Mem.goto_self]
    refine ⟨?_, fun hc => (by cases hc)⟩
    rw [Mem.upd_self]
  · rw [hfills] at hf
    cases hf
  · rw [Mem.goto_self]
    exact nofun
  · rw [Mem.goto_self, Mem.upd_self]
    change StackLink all _ p (.reap :: (s.procs p).callers.map Caller.point)
    rw [hlast]
    exact ⟨FrameLink.plain rfl rfl rfl, trivial⟩

theorem step_exit (h : LinkInv all s) (hE : EntryInv s) (hpt : (s.procs p).point = .exit)
    (hs : step_exit s p = .ok s') : LinkInv all s' := by
  have hlast := (hE.head hpt).last rfl
  rcases step_exit_spec hs with ⟨mapping, rfl⟩ | hexit
  · refine h.calm hE ((Quiet.refl p s).upd rfl rfl) (fun hl => ?_) rfl (fun w => Or.inl ?_)
      (fun b y hy hsw => ⟨y, hy, hsw⟩) (fun _ => Proc.alive_at hpt rfl) (fun _ f hf => ?_) ?_ ?_
    · rw [Mem.upd_self] at hl
      cases hl
    · rw [Mem.upd_self]
    · rw [hpt] at hf
      cases hf
    · rw [Mem.upd_self]
      exact nofun
    · rw [Mem.upd_self]
      exact ⟨FrameLink.plain rfl rfl rfl, FrameLink.plain rfl rfl rfl, trivial⟩
  · exact h.thread_exit hE (List.map_eq_nil_iff.mp hlast) (Proc.alive_at hpt rfl)
      (by rw [hpt]; rfl) hexit

/-- The frames of a process that is gone are not listed any more. -/
theorem step_reap (h : LinkInv all s) (hE : EntryInv s) (hpt : (s.procs p).point = .reap) :
    LinkInv all (step_reap s p) := by
  have hlast := (hE.head hpt).last rfl
  have hself := step_reap_self s p
  have hmem : ∀ e ∈ (Vm.step_reap s p).frame_table, e ∈ s.frame_table ∧ e.owner ≠ p :=
    fun e he => by
      change e ∈ s.frame_table.filter (fun e => e.owner != p) at he
      rw [List.mem_filter, bne_iff_ne] at he
      exact he
  have hback : ∀ a y, (Vm.step_reap s p).sptes a = some y → s.sptes a = some y := fun a y hy => by
    change (s.sptes a).filter _ = some y at hy
    exact (Option.filter_eq_some_iff.mp hy).1
  have hF : Follows p s (Vm.step_reap s p) := by
    refine ⟨fun q hq => Function.update_of_ne hq _ _, le_rfl, fun a _ x' hx' =>
      ⟨x', hback a x' hx', rfl⟩, fun q v a y hq hv hy => ⟨y, ?_, rfl⟩, fun hl => ?_⟩
    · change (s.sptes a).filter (fun x => page_lookup s p x.user_vaddr != some a) = some y
      rw [Option.filter_eq_some_iff, bne_iff_ne]
      exact ⟨hy, fun hc => hq (hE.owned q p v _ a hv hc)⟩
    · rw [hself] at hl
      cases hl
  refine h.of_proc hE hF ?_ (fun e he _ => (hmem e he).1)
    (fun e he hown => absurd hown (hmem e he).2) (fun e he hown => absurd hown (hmem e he).2)
    (fun e he a y ha ht hy => ?_) ((h.single hF).filter _)
    (fun _ e he hown => absurd hown (hmem e he).2) (fun v pte halive hpte hw => ?_)
    (fun a y _ hy hm => h.mapped a y (hback a y hy) hm)
    (fun e he hown => absurd hown (hmem e he).2) (fun e he hown => absurd hown (hmem e he).2)
  · rw [hself]
    change StackLink all _ p (.dead :: (s.procs p).callers.map Caller.point)
    rw [hlast]
    exact ⟨FrameLink.plain rfl rfl rfl, trivial⟩
  · exact h.resident e (hmem e he).1 a y ha
      (hF.tracked (h.blocks e (hmem e he).1 a ha) ht) (hback a y hy)
  · rw [hself] at halive
    cases halive

/-! ## The system calls -/

theorem load_segments {file : ℕ} {segs : List Segment} {junk : ℕ → Spte}
    (hs : segs.foldlM (fun s g => load_segment s p file g junk) s = .ok s') (h : LinkInv all s)
    (hE : EntryInv s) : LinkInv all s' := by
  have hpages : ∀ (f : ℕ → Spte), (∀ i, (f i).mmapped = false) → ∀ (l : List ℕ) (u : Mem),
      LinkInv all u → EntryInv u →
      LinkInv all (l.foldl (fun s i => Vm.insert_page s p (f i)) u) := by
    intro f hf l
    induction l with
    | nil => exact fun u hu _ => hu
    | cons i rest ih =>
      intro u hu hEu
      refine ih _ (hu.insert_page hEu fun hm => ?_) (hEu.insert_page (f i))
      rw [hf i] at hm
      cases hm
  induction segs generalizing s with
  | nil =>
    rw [← Except.ok.inj hs]
    exact h
  | cons g rest ih =>
    rw [List.foldlM_cons] at hs
    obtain ⟨t, ht, hs⟩ := bind_eq_ok hs
    obtain ⟨_, -, ht⟩ := bind_eq_ok ht
    obtain ⟨_, -, ht⟩ := bind_eq_ok ht
    obtain rfl := Except.ok.inj ht
    exact ih hs (hpages _ (fun _ => rfl) _ _ h hE) (hE.insert_pages _ _)

/-- A new process has no frames and maps nothing. -/
theorem renew (h : LinkInv all s) (hE : EntryInv s) (hpt : (s.procs p).point = .unused)
    (hother : ∀ q, q ≠ p → s'.procs q = s.procs q) (hfresh : s'.fresh = s.fresh)
    (hsptes : s'.sptes = s.sptes) (hft : s'.frame_table = s.frame_table)
    (hpts : (s'.procs p).points = [.get .stack])
    (hdir : (s'.procs p).pagedir = fun _ => none) : LinkInv all s' := by
  have hfree : ∀ e ∈ s'.frame_table, e.owner ≠ p := fun e he hown => by
    rw [hft] at he
    rw [← hown] at hpt
    exact h.born e he hpt
  have hstay : (s.procs p).leaving = false := by
    unfold Proc.leaving Proc.points
    rw [hpt, (hE.head hpt).last rfl]
    rfl
  have hF : Follows p s s' :=
    ⟨hother, hfresh.ge, fun a _ x' hx' => ⟨x', by rw [← hsptes]; exact hx', rfl⟩,
      fun q v a y _ _ hy => ⟨y, by rw [hsptes]; exact hy, rfl⟩, fun _ => hstay⟩
  refine h.of_proc hE hF ?_ (fun e he _ => by rw [hft] at he; exact he)
    (fun e he hown => absurd hown (hfree e he)) (fun e he hown => absurd hown (hfree e he))
    (fun e he a y ha ht hy => ?_) ?_ (fun _ e he hown => absurd hown (hfree e he))
    (fun v pte _ hpte _ => ?_) (fun a y _ hy hm => ?_)
    (fun e he hown => absurd hown (hfree e he)) (fun e he hown => absurd hown (hfree e he))
  · rw [hpts]
    exact ⟨⟨nofun, fun _ _ _ _ hk => (by cases hk), nofun, nofun⟩, trivial⟩
  · rw [hft] at he
    rw [hsptes] at hy
    exact h.resident e he a y ha (hF.tracked (h.blocks e he a ha) ht) hy
  · rw [hft]
    exact h.single hF
  · rw [hdir] at hpte
    cases hpte
  · rw [hsptes] at hy
    exact h.mapped a y hy hm

theorem load {file : ℕ} {segs : List Segment} {junk : ℕ → Spte} (h : LinkInv all s)
    (hE : EntryInv s) (hpt : (s.procs p).point = .unused)
    (hs : load s p file segs junk = .ok s') : LinkInv all s' := by
  refine load_segments hs ?_ (hE.renew rfl rfl rfl rfl (fun _ => rfl) (fun _ => rfl) fun _ _ =>
    ⟨FrameOk.plain rfl rfl fun hc => (by cases hc), trivial⟩)
  refine h.renew hE hpt (fun q hq => Function.update_of_ne hq _ _) rfl rfl rfl ?_ ?_
  · refine (congrArg Proc.points (Function.update_self p _ _)).trans ?_
    rfl
  · refine (congrArg Proc.pagedir (Function.update_self p _ _)).trans ?_
    rfl

theorem mmap {fd addr : ℕ} {junk : ℕ → Spte} (h : LinkInv all s) (hE : EntryInv s) :
    LinkInv all (mmap s p fd addr junk) := by
  cases hd : (s.procs p).fd_list.find? (fun d => d.fd == fd) with
  | none =>
    unfold Vm.mmap
    rw [hd]
    exact h
  | some d =>
    by_cases hok : MmapOk s p addr d
    swap
    · unfold Vm.mmap
      rw [hd]
      dsimp only
      rw [if_pos (not_not.mp hok)]
      exact h
    obtain ⟨-, hfree⟩ := hok.pages
    obtain ⟨table, hmmap, hlook⟩ := mmap_eq junk hd hok
    rw [hmmap]
    refine @grows _ s _ p h hE (fun q hq => Function.update_of_ne hq _ _) (Nat.le_add_right _ _)
      (fun b hb => if_neg (by omega)) (fun b y hle hy hm => ?_) (fun v a ha => ?_) rfl ?_ ?_
    · dsimp only at hy
      split at hy
      · obtain rfl := Option.some.inj hy
        rfl
      · exact h.mapped b y hy hm
    · refine (congrArg (fun t => Proc.sup_page_table t v) (Function.update_self p _ _)).trans ?_
      refine (hlook v).trans ?_
      rw [if_neg]
      · exact ha
      · rintro ⟨hle, hlt⟩
        have hnone := hfree (v - addr) (by omega)
        rw [show addr + (v - addr) = v by omega, ha] at hnone
        cases hnone
    · refine (congrArg Proc.pagedir (Function.update_self p _ _)).trans ?_
      rfl
    · refine (congrArg Proc.points (Function.update_self p _ _)).trans ?_
      rfl

theorem open_file (file : ℕ) (h : LinkInv all s) (hE : EntryInv s) :
    LinkInv all (open_file s p file) := by
  refine @grows _ s _ p h hE (fun q hq => Function.update_of_ne hq _ _) le_rfl
    (fun _ _ => rfl) (fun b y _ hy hm => h.mapped b y hy hm) (fun v a ha => ?_) rfl ?_ ?_
  · refine (congrArg (fun t => Proc.sup_page_table t v) (Function.update_self p _ _)).trans ?_
    exact ha
  · refine (congrArg Proc.pagedir (Function.update_self p _ _)).trans ?_
    rfl
  · refine (congrArg Proc.points (Function.update_self p _ _)).trans ?_
    rfl

/-- A page that user code faults on is not mapped: a mapped page that it may not write is not
writable for the kernel either, and the fault is the last. -/
theorem user_access {v i : ℕ} {store : Option UInt8} {near_esp : Bool} (h : LinkInv all s)
    (hE : EntryInv s) (hi : i < PGSIZE) (hpts : (s.procs p).points = [.user])
    (hs : user_access s p v i store near_esp = .ok s') : LinkInv all s' := by
  obtain ⟨hpt, hmap⟩ := List.cons.inj hpts
  have hcalls : (s.procs p).callers = [] := List.map_eq_nil_iff.mp hmap
  have hv : (v * PGSIZE + i) / PGSIZE = v := by
    unfold PGSIZE at hi ⊢
    omega
  have hfault : ∀ write, (∀ a x, page_lookup s p v = some a → s.sptes a = some x →
      (write = true → x.writable = true) → Tracked all s p a → (s.procs p).pagedir v = none) →
      page_fault s p (v * PGSIZE + i) write near_esp = .ok s' → LinkInv all s' := by
    intro write habsent hs
    have hcs : s.upd p (fun t => { t with callers := [] }) = s := by
      have hid := Function.update_eq_self p s.procs
      unfold Mem.upd
      rw [← hcalls]
      exact congrArg (fun procs => { s with procs := procs }) hid
    refine @fault _ s s' p [] _ _ _ h hE (by rw [hpt]; rfl) (by rw [hpt]; rfl) trivial nofun
      (fun _ => ?_) ?_ nofun (hcs.symm ▸ hs)
    · unfold Proc.leaving
      rw [hpts]
      rfl
    · rw [hv]
      exact habsent
  unfold Vm.user_access at hs
  split at hs
  · obtain rfl := Except.ok.inj hs
    exact h
  · rename_i pte b hpte
    split at hs
    · obtain rfl := Except.ok.inj hs
      exact @grows _ s _ p h hE (fun _ _ => rfl) le_rfl (fun _ _ => rfl)
        (fun b y _ hy hm => h.mapped b y hy hm) (fun _ _ ha => ha) rfl rfl rfl
    · rename_i hro
      refine hfault _ (fun a x hl hx hw _ => ?_) hs
      obtain ⟨a', x', hl', hx', hxw⟩ := h.readonly p v pte (Proc.alive_at hpt rfl) hpte
        (Bool.eq_false_of_not_eq_true hro)
      obtain rfl := Option.some.inj (hl.symm.trans hl')
      obtain rfl := Option.some.inj (hx.symm.trans hx')
      rw [hw rfl] at hxw
      cases hxw
  · rename_i hnone
    exact hfault _ (fun _ _ _ _ _ _ => hnone) hs

/-! ## The system -/

/-- **One kernel step** that meets the condition. -/
theorem run {c : Choice} (h : LinkInv all s) (hE : EntryInv s) (hok : Linking all s (.run p c))
    (hs : run s p c = .ok s') : LinkInv all s' := by
  unfold Vm.run at hs
  cases hpt : (s.procs p).point <;> rw [hpt] at hs
  case get w => exact h.step_get hE hpt hs
  case evict w =>
    unfold Linking at hok
    dsimp only at hok
    rw [hpt] at hok
    exact h.step_evict hE hpt hok hs
  case save w e => exact h.step_save hE hpt hs
  case writeback w e => exact h.step_writeback hE hpt hs
  case free w k => exact h.step_free hE hpt hs
  case load w k => exact h.step_load hE hpt hok hs
  case swapin v write a k => exact h.step_swapin hE hpt hs
  case refill v write a k b => exact h.step_refill hE hpt hs
  case install v write a k =>
    unfold Linking at hok
    dsimp only at hok
    rw [hpt] at hok
    exact h.step_install hE hpt hok hs
  case unmapping mapping => exact h.step_unmapping hE hpt hs
  case munmap m => exact h.step_munmap hE hpt hok hs
  case unlist m => exact h.step_unlist hE hpt hok hs
  case exit => exact h.step_exit hE hpt hs
  case reap =>
    rw [← Except.ok.inj hs]
    exact h.step_reap hE hpt
  -- user code, a process that is gone and one that never was
  all_goals
    rw [← Except.ok.inj hs]
    exact h

/-- **One event** that meets the condition. -/
theorem exec {ev : Event} (h : LinkInv all s) (hE : EntryInv s) (hok : Linking all s ev)
    (hs : exec s ev = .ok s') : LinkInv all s' := by
  cases ev with
  | run p c => exact h.run hE hok hs
  | load p file segs junk => exact of_guard h (fun hu hs => h.load hE (isUnused_point hu) hs) hs
  | access p v i store near_esp =>
    refine of_guard h (fun hu hs => ?_) hs
    rw [Bool.and_eq_true, decide_eq_true_eq] at hu
    exact h.user_access hE hu.2 (hE.user_points hu.1) hs
  | open_file p file =>
    refine of_guard h (fun _ hs => ?_) hs
    rw [← Except.ok.inj hs]
    exact h.open_file file hE
  | mmap p fd addr junk =>
    refine of_guard h (fun _ hs => ?_) hs
    rw [← Except.ok.inj hs]
    exact h.mmap hE
  | munmap p mapping =>
    refine of_guard h (fun hu hs => ?_) hs
    rw [← Except.ok.inj hs]
    exact h.goto hE (inUser_point hu) (.plain nofun nofun rfl rfl rfl rfl nofun)
      (Quiet.refl p s) rfl rfl fun b y hy hsw => ⟨y, hy, hsw⟩
  | exit p =>
    refine of_guard h (fun hu hs => ?_) hs
    rw [← Except.ok.inj hs]
    exact h.exit hE (inUser_point hu) rfl rfl (Quiet.refl p s) rfl rfl
      fun b y hy hsw => ⟨y, hy, hsw⟩
  | kill p =>
    refine of_guard h (fun hu hs => ?_) hs
    have hpt := inUser_point hu
    exact h.thread_exit hE (List.map_eq_nil_iff.mp (List.cons.inj (hE.user_points hu)).2)
      (Proc.alive_at hpt rfl) (by rw [hpt]; rfl) hs

end LinkInv

/-- Before the first process no frame is listed. -/
theorem Boot.link (h : Boot s) : LinkInv all s := by
  have hnone : ∀ e, e ∉ s.frame_table := fun e he => by
    rw [h.frame_table] at he
    cases he
  refine ⟨fun p => ?_, fun e he => absurd he (hnone e), fun e he => absurd he (hnone e),
    fun e he => absurd he (hnone e), ?_, fun _ e he => absurd he (hnone e),
    fun p v pte _ hpte => ?_, fun a x hx => ?_, fun e he => absurd he (hnone e),
    fun e he => absurd he (hnone e)⟩
  · rw [h.unused p]
    exact ⟨FrameLink.plain rfl rfl rfl, trivial⟩
  · rw [h.frame_table]
    exact List.Pairwise.nil
  · rw [h.unused p] at hpte
    cases hpte
  · rw [h.sptes a] at hx
    cases hx

/-- **In every run that meets the condition**, the frame table and the page directories agree. -/
theorem reachable_link (h : Reachable paging (Linking all) s) : EntryInv s ∧ LinkInv all s :=
  @Reachable.invariant _ _ paging (Linking all) (fun s => EntryInv s ∧ LinkInv all s)
    (fun _ hb => ⟨Boot.entries hb, Boot.link hb⟩)
    (fun _ _ _ hi hok hs => ⟨hi.1.exec hs, hi.2.exec hi.1 hok hs⟩) s h

/-! ## Frame table entries -/

/-- The frame table entry names the supplemental entry that its owner finds at the page that the
owner's page directory maps to the frame. -/
def RealPage (s : Mem) (e : Fte) : Prop :=
  ∃ a x pte, e.spte = some a ∧ s.sptes a = some x ∧
    page_lookup s e.owner x.user_vaddr = some a ∧
    (s.procs e.owner).pagedir x.user_vaddr = some pte ∧ pte.frame = e.frame

/-- The owner does not exit, and is not in the fault that brings the page in. -/
def Resting (s : Mem) (e : Fte) : Prop :=
  (s.procs e.owner).leaving = false ∧ ∀ v, (s.procs e.owner).point.fills ≠ some (v, e.frame)

/-- A process that does not exit is there. -/
theorem Proc.alive_of_stays {t : Proc} (hl : t.leaving = false) (hu : t.point ≠ .unused) :
    t.alive := by
  change (t.point.leaving || _) = false at hl
  rw [Bool.or_eq_false_iff] at hl
  unfold Proc.alive
  cases hpt : t.point <;> rw [hpt] at hl hu
  case reap => cases hl.1
  case dead => cases hl.1
  case unused => exact absurd rfl hu
  all_goals rfl

/-- **Frame table entries point at real pages** in the runs whose faults map what they list and
do not grow the stack, whose evictions clear the victim's page, and whose `munmap` clears no
page that is listed. -/
theorem frame_table_real (h : Reachable paging (Linking true) s) :
    ∀ e ∈ s.frame_table, Resting s e → RealPage s e := by
  obtain ⟨-, hi⟩ := reachable_link h
  intro e he ⟨hl, hfills⟩
  obtain ⟨a, ha⟩ := Option.ne_none_iff_exists'.mp (hi.named rfl e he hl)
  obtain ⟨x, hx, hmap⟩ := hi.linked e he a ha hl (Proc.alive_of_stays hl (hi.born e he))
  obtain ⟨pte, hpte, hframe⟩ := hmap.resolve_right (hfills _)
  exact ⟨a, x, pte, ha, hx, hi.owns e he a x ha hx, hpte, hframe⟩

/-! ## One process -/

/-- The condition, computed, for runs without `munmap`. -/
def linking (s : Mem) : Event → Bool
  | .run p c =>
    match (s.procs p).point with
    | .evict _ => s.frame_table.head?.all (fun e => e.owner == p)
    | .load (.entry _ _ _) _ => c.room
    | .load (.grow _) _ => false
    | .install _ _ _ _ => c.room
    | .munmap _ => false
    | .unlist _ => false
    | _ => true
  | _ => true

theorem linking_of (s : Mem) (ev : Event) (h : linking s ev = true) : Linking true s ev := by
  have htable : ∀ q w (c : Choice), c.room = true → HasTable s q w c := fun q w c hc => by
    unfold HasTable
    rw [hc, Bool.or_true]
  cases ev with
  | run p c =>
    unfold linking at h
    unfold Linking
    dsimp only at h ⊢
    cases hpt : (s.procs p).point <;> rw [hpt] at h <;> try trivial
    case evict w =>
      intro _ e he a x _ _
      rw [Option.mem_def] at he
      rw [he] at h
      exact Or.inl (eq_of_beq h)
    case load w k =>
      cases w with
      | entry v write a => exact fun _ _ _ => htable p v c h
      | grow v => cases h
      | stack => trivial
    case install v write a k => exact htable p v c h
  | _ => trivial

/-- The process is in user code, and frame `k` is listed for it. -/
def lists (k : ℕ) (s : Mem) : Bool :=
  (s.procs 0).inUser && s.frame_table.any (fun e => e.frame == k && e.owner == 0)

/-- What a followed run that ends so has listed. -/
theorem resting_of_lists (hE : EntryInv s) (h : lists k s = true) :
    ∃ e ∈ s.frame_table, e.frame = k ∧ e.owner = 0 ∧ Resting s e := by
  unfold lists at h
  rw [Bool.and_eq_true, List.any_eq_true] at h
  obtain ⟨huser, e, he, hek⟩ := h
  rw [Bool.and_eq_true, beq_iff_eq, beq_iff_eq] at hek
  obtain ⟨hpt, hmap⟩ := List.cons.inj (hE.user_points huser)
  refine ⟨e, he, hek.1, hek.2, ?_, fun v => ?_⟩
  · unfold Proc.leaving
    rw [hek.2, hE.user_points huser]
    rfl
  · rw [hek.2, hpt]
    exact nofun

/-- A process with one frame for two pages: the frame is listed for the page it holds. -/
theorem frame_table_real_evicted : ∃ s, Reachable paging (Linking true) s ∧
    ∃ e ∈ s.frame_table, e.frame = 1 ∧ RealPage s e := by
  have hrun : follow exec linking (lists 1) (small_boot 2)
      (load_run 0 2 ++ touch_run 0 8 2 ++ touch_run 0 9 6) = true := by
    decide +kernel
  have hstart : Reachable paging (fun s e => linking s e = true) (small_boot 2) :=
    .init (small_boot_boot 2)
  obtain ⟨s, hr, hs⟩ := follow_reachable (fun _ _ _ h => h) hstart hrun
  have hr' : Reachable paging (Linking true) s := hr.weaken linking_of
  obtain ⟨e, he, hk, -, hrest⟩ := resting_of_lists (reachable_link hr').1 hs
  exact ⟨s, hr', e, he, hk, frame_table_real hr' e he hrest⟩

/-- **A frame of the stack names nothing.** A process grows its stack by a page. -/
theorem grown_page_unnamed : ¬ ∀ s, Reachable paging (fun _ _ => True) s →
    ∀ e ∈ s.frame_table, Resting s e → RealPage s e := by
  intro hreal
  have hrun : follow exec (fun _ _ => true)
      (fun s => lists 1 s && s.frame_table.all (fun e => e.spte.isNone)) (small_boot 2)
      (load_run 0 1 ++ .access 0 9 0 (some 1) true :: List.replicate 2 (.run 0 plain)) = true := by
    decide +kernel
  have hstart : Reachable paging (fun _ _ => true = true) (small_boot 2) :=
    .init (small_boot_boot 2)
  obtain ⟨s, hr, hs⟩ := follow_reachable (fun _ _ _ h => h) hstart hrun
  have hr' : Reachable paging (fun _ _ => True) s := hr.weaken fun _ _ _ => trivial
  rw [Bool.and_eq_true, List.all_eq_true] at hs
  obtain ⟨e, he, -, -, hrest⟩ := resting_of_lists (reachable_entries hr') hs.1
  obtain ⟨a, -, -, ha, -⟩ := hreal s hr' e he hrest
  have hnone := hs.2 e he
  rw [ha] at hnone
  cases hnone

end Pintos.Vm
