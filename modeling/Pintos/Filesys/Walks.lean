/-
Walks through inodes that need not be directories.

`Resolve` compares the loop of `dir_lookup` with the components of a path as long as these
name directories. The loop itself never asks: it reads every inode on the way as a directory.
`Leads` is where it gets then, and on a tree it is the resolution again. Whatever a walk
finds, reference counts are all it changes (`Raised`).

A search that returns has found the first entry of the file, and a search for an entry that
is there does return; neither needs the block behind the end of the file.
-/
import Pintos.Filesys.Calls

set_option autoImplicit false

namespace Pintos.Filesys

open Pintos.Kernel WordImage

/-! ## Counts that rise -/

/-- Reference counts have risen. An inode that was open has its other fields as they were, and
one that was not is as `inode_open` reads it. -/
structure Raised (st st' : Store) : Prop where
  fs : st'.fs = st.fs
  live : st'.live = st.live
  kept : ∀ y inode, st.open_inodes y = some inode →
    ∃ n, inode.open_cnt ≤ n ∧ st'.open_inodes y = some { inode with open_cnt := n }
  fresh : ∀ y inode, st.open_inodes y = none → st'.open_inodes y = some inode →
    0 < inode.open_cnt ∧ inode = ⟨y, inode.open_cnt, false, 0, inode_of_sector (st.fs.disk y)⟩

theorem Raised.refl (st : Store) : Raised st st where
  fs := rfl
  live := rfl
  kept _ inode h := ⟨inode.open_cnt, le_rfl, h⟩
  fresh y inode h h' := by
    rw [h] at h'
    cases h'

theorem Raised.trans {st st' st'' : Store} (h : Raised st st') (h' : Raised st' st'') :
    Raised st st'' := by
  refine ⟨h'.fs.trans h.fs, h'.live.trans h.live, fun y inode hy => ?_, fun y inode hy hy' => ?_⟩
  · obtain ⟨n, hn, hmid⟩ := h.kept y inode hy
    obtain ⟨m, hm, hend⟩ := h'.kept y _ hmid
    exact ⟨m, hn.trans hm, hend⟩
  · cases hmid : st'.open_inodes y with
    | none =>
      have hfresh := h'.fresh y inode hmid hy'
      rwa [h.fs] at hfresh
    | some i =>
      -- it was opened in the first half, and only counted in the second
      obtain ⟨hpos, hi⟩ := h.fresh y i hy hmid
      obtain ⟨n, hn, hend⟩ := h'.kept y i hmid
      rw [hy'] at hend
      obtain rfl := Option.some.inj hend
      exact ⟨hpos.trans_le hn, by rw [hi]⟩

theorem inode_open_raised {st st' : Store} {x : ℕ} (h : st.inode_open x = .ok st') :
    Raised st st' := by
  unfold Store.inode_open at h
  cases hx : st.open_inodes x with
  | some i =>
    rw [hx] at h
    obtain rfl := Except.ok.inj h
    refine ⟨rfl, rfl, fun y inode hy => ?_, fun y inode hy hy' => ?_⟩
    · by_cases hyx : y = x
      · rw [hyx, hx] at hy
        obtain rfl := Option.some.inj hy
        exact ⟨_, Nat.le_succ _, by rw [hyx, set_inode_self]⟩
      · exact ⟨_, le_rfl, (set_inode_of_ne _ hyx).trans hy⟩
    · have hyx : y ≠ x := by
        rintro rfl
        rw [hx] at hy
        cases hy
      rw [set_inode_of_ne _ hyx, hy] at hy'
      cases hy'
  | none =>
    rw [hx] at h
    obtain ⟨i, hread, hret⟩ := bind_eq_ok h
    obtain ⟨b, hdisk, hi⟩ := bind_eq_ok hread
    obtain ⟨-, -, hb⟩ := bind_eq_ok hdisk
    obtain rfl := Except.ok.inj hb
    obtain rfl := Except.ok.inj hi
    obtain rfl := Except.ok.inj hret
    refine ⟨rfl, rfl, fun y inode hy => ?_, fun y inode hy hy' => ?_⟩
    · have hyx : y ≠ x := by
        rintro rfl
        rw [hx] at hy
        cases hy
      exact ⟨_, le_rfl, (set_inode_of_ne _ hyx).trans hy⟩
    · by_cases hyx : y = x
      · rw [hyx, set_inode_self] at hy'
        rw [← Option.some.inj hy', hyx]
        exact ⟨Nat.one_pos, rfl⟩
      · rw [set_inode_of_ne _ hyx, hy] at hy'
        cases hy'

theorem walk_loop_raised (ts : List Str) : ∀ (st : Store) (x : ℕ) (v : InodeVar) (b : Bool)
    (w : InodeVar) (st' : Store), walk_loop st x v ts = .ok (b, w, st') → Raised st st' := by
  induction ts with
  | nil =>
    intro st x v b w st' h
    obtain ⟨-, h⟩ := Prod.mk.inj (Except.ok.inj h)
    obtain ⟨-, rfl⟩ := Prod.mk.inj h
    exact Raised.refl st
  | cons t ts ih =>
    intro st x v b w st' h
    unfold walk_loop at h
    by_cases ht : t = dot
    · rw [if_pos ht] at h
      exact ih st x v b w st' h
    rw [if_neg ht] at h
    obtain ⟨r, -, h⟩ := bind_eq_ok h
    cases r with
    | none =>
      obtain ⟨-, h⟩ := Prod.mk.inj (Except.ok.inj h)
      obtain ⟨-, rfl⟩ := Prod.mk.inj h
      exact Raised.refl st
    | some e =>
      obtain ⟨st₁, hopen, h⟩ := bind_eq_ok h
      exact (inode_open_raised hopen).trans (ih _ _ _ _ _ _ h)

/-- **`dir_lookup`** changes nothing but reference counts. -/
theorem dir_lookup_raised {st st' : Store} {curr_dir : Option ℕ} {x : ℕ} {name : Str} {b : Bool}
    {v : InodeVar} (h : dir_lookup st curr_dir x name = .ok (b, v, st')) : Raised st st' := by
  unfold dir_lookup at h
  by_cases hname : name = []
  · rw [if_pos hname] at h
    cases curr_dir with
    | none => cases h
    | some c =>
      obtain ⟨-, h⟩ := Prod.mk.inj (Except.ok.inj h)
      obtain ⟨-, rfl⟩ := Prod.mk.inj h
      exact Raised.refl st
  rw [if_neg hname] at h
  by_cases hslash : slash ∈ name
  · rw [if_pos hslash] at h
    exact walk_loop_raised _ _ _ _ _ _ _ h
  rw [if_neg hslash] at h
  by_cases hdot : name = dot
  · rw [if_pos hdot] at h
    obtain ⟨st₁, hopen, h⟩ := bind_eq_ok h
    obtain ⟨-, h⟩ := Prod.mk.inj (Except.ok.inj h)
    obtain ⟨-, rfl⟩ := Prod.mk.inj h
    exact inode_open_raised hopen
  rw [if_neg hdot] at h
  obtain ⟨r, -, h⟩ := bind_eq_ok h
  cases r with
  | none =>
    obtain ⟨-, h⟩ := Prod.mk.inj (Except.ok.inj h)
    obtain ⟨-, rfl⟩ := Prod.mk.inj h
    exact Raised.refl st
  | some e =>
    obtain ⟨st₁, hopen, h⟩ := bind_eq_ok h
    obtain ⟨-, h⟩ := Prod.mk.inj (Except.ok.inj h)
    obtain ⟨-, rfl⟩ := Prod.mk.inj h
    exact inode_open_raised hopen

/-- What a store with higher counts says about its inodes. -/
theorem Raised.open_data {st st' : Store} (h : Raised st st') (y : ℕ) :
    st'.open_data y = st.open_data y := by
  cases hy : st.open_inodes y with
  | some inode =>
    obtain ⟨n, -, hy'⟩ := h.kept y inode hy
    rw [Store.open_data, Store.open_data, hy, hy']
  | none =>
    cases hy' : st'.open_inodes y with
    | none => rw [Store.open_data, Store.open_data, hy, hy', h.fs]
    | some inode =>
      obtain ⟨-, hi⟩ := h.fresh y inode hy hy'
      rw [Store.open_data, Store.open_data, hy, hy']
      dsimp only
      rw [hi]

/-! ## Where the loop leads -/

/-- The components, looked up one after the other whatever the inodes on the way are, lead to
an inode, or a name is missing. Nothing holds of a walk that reads a sector out of range. -/
def Leads (st : Store) : ℕ → List Str → Option ℕ → Prop
  | x, [], r => r = some x
  | x, c :: cs, r =>
    if Moves c then peek st x c = .ok none ∧ r = none ∨ ∃ e ofs, peek st x c = .ok (some (e, ofs)) ∧
      Reads st e.inode_sector ∧ Leads st e.inode_sector cs r
    else Leads st x cs r

/-- Following the components passes the inode `y`. -/
def Passes (st : Store) : ℕ → List Str → ℕ → Prop
  | _, [], _ => False
  | x, c :: cs, y =>
    if Moves c then ∃ e ofs, peek st x c = .ok (some (e, ofs)) ∧
      (e.inode_sector = y ∨ Passes st e.inode_sector cs y)
    else Passes st x cs y

theorem Leads.unique {st : Store} {cs : List Str} : ∀ {x : ℕ} {r r' : Option ℕ},
    Leads st x cs r → Leads st x cs r' → r = r' := by
  induction cs with
  | nil =>
    rintro x r r' rfl h
    exact h.symm
  | cons c cs ih =>
    intro x r r' h h'
    unfold Leads at h h'
    by_cases hc : Moves c
    swap
    · rw [if_neg hc] at h h'
      exact ih h h'
    rw [if_pos hc] at h h'
    rcases h with ⟨hpeek, rfl⟩ | ⟨e, ofs, hpeek, -, hrest⟩
    · rcases h' with ⟨-, rfl⟩ | ⟨e', ofs', hpeek', -⟩
      · rfl
      · rw [hpeek] at hpeek'
        cases hpeek'
    · rcases h' with ⟨hpeek', -⟩ | ⟨e', ofs', hpeek', -, hrest'⟩
      · rw [hpeek] at hpeek'
        cases hpeek'
      · rw [hpeek] at hpeek'
        cases hpeek'
        exact ih hrest hrest'

/-- Components that stay in place lead nowhere else. -/
theorem Leads.of_stay {st : Store} {x : ℕ} {cs : List Str} (hcs : ∀ c ∈ cs, ¬ Moves c)
    {r : Option ℕ} : Leads st x cs r ↔ r = some x := by
  induction cs with
  | nil => exact Iff.rfl
  | cons c cs ih =>
    unfold Leads
    rw [if_neg (hcs c List.mem_cons_self)]
    exact ih fun d hd => hcs d (List.mem_cons_of_mem c hd)

/-- What the loop leaves in the caller's variable, which was `v`. -/
def walked (cs : List Str) (v : InodeVar) : Option ℕ → InodeVar
  | none => .null
  | some y => if ∃ c ∈ cs, Moves c then .inode y else v

theorem walked_moves {cs : List Str} (h : ∃ c ∈ cs, Moves c) (v : InodeVar) (y : ℕ) :
    walked cs v (some y) = .inode y := if_pos h

theorem walked_stays {cs : List Str} (h : ¬ ∃ c ∈ cs, Moves c) (v : InodeVar) (y : ℕ) :
    walked cs v (some y) = v := if_neg h

/-- **The loop of `dir_lookup`** goes where the components lead. -/
theorem walk_loop_leads {st : Store} (cs : List Str) : ∀ (st' : Store) (x : ℕ) (v : InodeVar),
    Opened st st' → st'.open_inodes x ≠ none →
    (∀ r, Leads st x cs r → ∃ st'',
      walk_loop st' x v (named cs) = .ok (r.isSome, walked cs v r, st'') ∧ Opened st st'' ∧
        ∀ y, r = some y → st''.open_inodes y ≠ none) ∧
    ∀ q, walk_loop st' x v (named cs) = .ok q → ∃ r, Leads st x cs r := by
  induction cs with
  | nil =>
    intro st' x v hop hx
    refine ⟨?_, fun q _ => ⟨some x, rfl⟩⟩
    rintro r rfl
    refine ⟨st', ?_, hop, fun y hy => ?_⟩
    · rw [walked_stays (by simp)]
      rfl
    · rw [← Option.some.inj hy]
      exact hx
  | cons c cs ih =>
    intro st' x v hop hx
    by_cases hc : Moves c
    swap
    · have hwalked : ∀ r, walked (c :: cs) v r = walked cs v r := by
        intro r
        cases r with
        | none => rfl
        | some y => simp [walked, hc]
      unfold Leads
      simp only [walk_loop_stay hc, if_neg hc, hwalked]
      exact ih st' x v hop hx
    unfold Leads
    simp only [if_pos hc]
    have hmoves : ∃ d ∈ c :: cs, Moves d := ⟨c, List.mem_cons_self, hc⟩
    cases hpeek : peek st x c with
    | error f =>
      have herror : walk_loop st' x v (named (c :: cs)) = .error f := by
        rw [named_cons_of_ne hc.1, walk_loop, if_neg hc.2, hop.lookup hx, hpeek]
        rfl
      rw [herror]
      simp
    | ok p =>
      cases p with
      | none =>
        rw [walk_loop_missing hop hx hc hpeek]
        refine ⟨?_, fun q _ => ⟨none, Or.inl ⟨rfl, rfl⟩⟩⟩
        rintro r (⟨-, rfl⟩ | ⟨e, ofs, hsome, -⟩)
        · exact ⟨st', rfl, hop, fun y hy => by cases hy⟩
        · cases hsome
      | some p =>
        obtain ⟨e, ofs⟩ := p
        by_cases hreads : Reads st e.inode_sector
        · obtain ⟨st'', hop', hopen, hrun⟩ := walk_loop_found hop hx hc hpeek hreads
          rw [hrun]
          obtain ⟨hgo, hback⟩ := ih st'' e.inode_sector (.inode e.inode_sector) hop' hopen
          refine ⟨?_, fun q hq => ?_⟩
          · rintro r (⟨hnone, -⟩ | ⟨e', ofs', hsome, -, hrest⟩)
            · cases hnone
            obtain ⟨rfl, rfl⟩ := Prod.mk.inj (Option.some.inj (Except.ok.inj hsome))
            -- when no name follows, the inode just opened is the one reached
            have hwalked : walked cs (.inode e.inode_sector) r = walked (c :: cs) v r := by
              cases r with
              | none => rfl
              | some y =>
                rw [walked_moves hmoves]
                by_cases hcs : ∃ d ∈ cs, Moves d
                · rw [walked_moves hcs]
                · rw [walked_stays hcs]
                  push Not at hcs
                  rw [Option.some.inj ((Leads.of_stay hcs).mp hrest)]
            rw [← hwalked]
            exact hgo r hrest
          · obtain ⟨r, hr⟩ := hback q hq
            exact ⟨r, Or.inr ⟨e, ofs, rfl, hreads, hr⟩⟩
        · obtain ⟨f, hrun⟩ : ∃ f, st'.inode_open e.inode_sector = .error f := by
            cases hopen : st'.inode_open e.inode_sector with
            | error f => exact ⟨f, rfl⟩
            | ok st'' => exact absurd ((hop.reads_iff _).mp (inode_open_reads hopen)) hreads
          have herror : walk_loop st' x v (named (c :: cs)) = .error f := by
            rw [named_cons_of_ne hc.1, walk_loop, if_neg hc.2, hop.lookup hx, hpeek, ok_bind]
            dsimp only
            rw [hrun]
            rfl
          rw [herror]
          simp [hreads]

/-- An inode that was found, or null. -/
def found_var : Option ℕ → InodeVar
  | none => .null
  | some y => .inode y

/-- What `dir_lookup` leaves in the caller's variable. -/
def looked_up (name : Str) (r : Option ℕ) : InodeVar :=
  if slash ∈ name then walked (components name) .unassigned r else found_var r

/-- What is assigned is what was reached. -/
theorem looked_up_inode {name : Str} {r : Option ℕ} {y : ℕ} (h : looked_up name r = .inode y) :
    r = some y := by
  unfold looked_up at h
  cases r with
  | none =>
    split_ifs at h
    · cases h
    · cases h
  | some z =>
    split_ifs at h
    · by_cases hmoves : ∃ c ∈ components name, Moves c
      · rw [walked_moves hmoves] at h
        rw [InodeVar.inode.inj h]
      · rw [walked_stays hmoves] at h
        cases h
    · rw [InodeVar.inode.inj h]

/-- **`dir_lookup`** of a path goes where its components lead. -/
theorem dir_lookup_leads {st st' : Store} (hop : Opened st st') {x : ℕ}
    (hx : st'.open_inodes x ≠ none) (curr_dir : Option ℕ) {name : Str} (hname : name ≠ []) :
    (∀ r, Leads st x (components name) r → ∃ st'',
      dir_lookup st' curr_dir x name = .ok (r.isSome, looked_up name r, st'') ∧ Opened st st'' ∧
        ∀ y, r = some y → st''.open_inodes y ≠ none) ∧
    ∀ q, dir_lookup st' curr_dir x name = .ok q → ∃ r, Leads st x (components name) r := by
  unfold dir_lookup looked_up
  rw [if_neg hname]
  by_cases hslash : slash ∈ name
  · simp only [if_pos hslash, tokens_eq]
    exact walk_loop_leads (components name) st' x .unassigned hop hx
  simp only [if_neg hslash, components_single hslash]
  by_cases hdot : name = dot
  · have hstay : ∀ c ∈ [name], ¬ Moves c := by
      intro c hc hmoves
      rw [List.mem_singleton.mp hc] at hmoves
      exact hmoves.2 hdot
    obtain ⟨st'', hrun, hop', hopen⟩ := inode_open_opened (Or.inl hx)
    rw [if_pos hdot, hrun]
    refine ⟨fun r hr => ?_, fun q _ => ⟨some x, (Leads.of_stay hstay).mpr rfl⟩⟩
    obtain rfl := (Leads.of_stay hstay).mp hr
    refine ⟨st'', rfl, hop.trans hop', fun y hy => ?_⟩
    rw [← Option.some.inj hy]
    exact hopen
  have hmoves : Moves name := ⟨hname, hdot⟩
  rw [if_neg hdot, hop.lookup hx]
  unfold Leads
  simp only [if_pos hmoves]
  cases hpeek : peek st x name with
  | error f =>
    rw [error_bind]
    simp
  | ok p =>
    cases p with
    | none =>
      refine ⟨?_, fun q _ => ⟨none, Or.inl ⟨rfl, rfl⟩⟩⟩
      rintro r (⟨-, rfl⟩ | ⟨e, ofs, hsome, -⟩)
      · exact ⟨st', rfl, hop, fun y hy => by cases hy⟩
      · cases hsome
    | some p =>
      obtain ⟨e, ofs⟩ := p
      rw [ok_bind]
      dsimp only
      refine ⟨?_, fun q hq => ?_⟩
      · rintro r (⟨hnone, -⟩ | ⟨e', ofs', hsome, hreads, hrest⟩)
        · cases hnone
        obtain ⟨rfl, rfl⟩ := Prod.mk.inj (Option.some.inj (Except.ok.inj hsome))
        obtain rfl : r = some e.inode_sector := hrest
        obtain ⟨st'', hrun, hop', hopen⟩ := inode_open_opened ((hop.reads_iff _).mpr hreads)
        rw [hrun]
        refine ⟨st'', rfl, hop.trans hop', fun y hy => ?_⟩
        rw [← Option.some.inj hy]
        exact hopen
      · obtain ⟨st'', hopen, -⟩ := bind_eq_ok hq
        exact ⟨_, Or.inr ⟨e, ofs, rfl, (hop.reads_iff _).mp (inode_open_reads hopen), rfl⟩⟩

/-- On a tree, as long as no regular file stands on the way, this is the resolution. -/
theorem TreeOk.leads_iff {st : Store} (h : TreeOk st) (cs : List Str) : ∀ {x : ℕ}, Node st x →
    (st.open_data x).isdir = true → file_before st x cs = none → ∀ r,
    (Leads st x cs r ↔ r = resolve st x cs) := by
  induction cs with
  | nil => exact fun _ _ _ r => Iff.rfl
  | cons c cs ih =>
    intro x hx hdir hfile r
    unfold Leads
    by_cases hc : Moves c
    swap
    · rw [if_neg hc]
      cases cs with
      | nil =>
        rw [show resolve st x [c] = some x from follow_of_stay hc]
        exact Iff.rfl
      | cons d cs =>
        have hresolve : resolve st x (c :: d :: cs) = resolve st x (d :: cs) := by
          simp only [resolve, follow_of_stay hc, hdir, if_true]
        have hbefore : file_before st x (c :: d :: cs) = file_before st x (d :: cs) := by
          simp only [file_before, follow_of_stay hc, hdir, if_true]
        rw [hresolve]
        exact ih hx hdir (hbefore.symm.trans hfile) r
    rw [if_pos hc]
    rcases h.follow_cases hx hc with ⟨hnone, hpeek⟩ | ⟨e, ofs, hsome, hpeek⟩
    · have hresolve : resolve st x (c :: cs) = none := by
        cases cs with
        | nil => exact hnone
        | cons d cs => simp only [resolve, hnone]
      rw [hresolve, hpeek]
      simp
    · have hy := h.node_follow hx hdir hsome
      have hreads := h.reads hy
      have hgo : (peek st x c = .ok none ∧ r = none ∨ ∃ e ofs, peek st x c = .ok (some (e, ofs)) ∧
          Reads st e.inode_sector ∧ Leads st e.inode_sector cs r) ↔
          Leads st e.inode_sector cs r := by
        rw [hpeek]
        constructor
        · rintro (⟨hnone, -⟩ | ⟨e', ofs', hsome', -, hrest⟩)
          · cases hnone
          · obtain ⟨rfl, rfl⟩ := Prod.mk.inj (Option.some.inj (Except.ok.inj hsome'))
            exact hrest
        · exact fun hrest => Or.inr ⟨e, ofs, rfl, hreads, hrest⟩
      rw [hgo]
      cases cs with
      | nil =>
        rw [show resolve st x [c] = some e.inode_sector from hsome]
        exact Iff.rfl
      | cons d cs =>
        have hisdir : (st.open_data e.inode_sector).isdir = true := by
          by_contra hnot
          simp only [file_before, hsome, hnot] at hfile
          cases hfile
        have hresolve : resolve st x (c :: d :: cs) = resolve st e.inode_sector (d :: cs) := by
          simp only [resolve, hsome, hisdir, if_true]
        have hbefore : file_before st x (c :: d :: cs) =
            file_before st e.inode_sector (d :: cs) := by
          simp only [file_before, hsome, hisdir, if_true]
        rw [hresolve]
        exact ih hy hisdir (hbefore.symm.trans hfile) r

/-! ## Searches that return -/

/-- A file whose block map is well formed. -/
structure Readable (s : FileSys) (d : InodeDisk) : Prop where
  disk : DiskOk s
  map : MapOk s d d.blocks
  max : d.blocks ≤ MAX_BLOCKS

/-- A read returns no byte from behind the end. -/
theorem read_loop_length {s : FileSys} {inode : Inode} : ∀ (fuel size offset : ℕ) (c : IndexCache)
    {bytes : List UInt8}, read_loop s inode fuel size offset c = .ok bytes →
    bytes.length ≤ inode.data.length - offset := by
  intro fuel
  induction fuel with
  | zero =>
    intro size offset c bytes h
    rw [← Except.ok.inj h]
    exact Nat.zero_le _
  | succ fuel ih =>
    intro size offset c bytes h
    unfold read_loop at h
    by_cases hsize : size = 0
    · rw [if_pos hsize] at h
      rw [← Except.ok.inj h]
      exact Nat.zero_le _
    rw [if_neg hsize] at h
    obtain ⟨r, -, h⟩ := bind_eq_ok h
    by_cases hn : chunk_size inode.data size offset = 0
    · rw [if_pos hn] at h
      rw [← Except.ok.inj h]
      exact Nat.zero_le _
    rw [if_neg hn] at h
    obtain ⟨b, -, h⟩ := bind_eq_ok h
    obtain ⟨rest, hrest, h⟩ := bind_eq_ok h
    obtain rfl := Except.ok.inj h
    have hlen := ih _ _ _ hrest
    have hchunk : chunk_size inode.data size offset ≤ inode.data.length - offset := by
      simp only [chunk_size]
      split_ifs <;> omega
    rw [List.length_append, List.length_map, List.length_range]
    omega

section Searches

variable {s : FileSys} {inode : Inode}

/-- Reading an entry that is there. -/
theorem Readable.read_entry (h : Readable s inode.data) {i : ℕ}
    (hi : i < inode.data.length / dir_entry_size) :
    read_entry s inode (dir_entry_size * i) = .ok (some (entry_at s.disk inode.data i)) := by
  unfold Filesys.read_entry
  rw [inode_read_at_spec h.disk h.map h.max _ _ (entry_lt_iff.mp hi), ok_bind,
    if_pos (by rw [List.length_map, List.length_range])]
  rfl

/-- Behind the last entry there is none, if the read returns. -/
theorem read_entry_end {r : Option DirEntry} {i : ℕ} (hi : inode.data.length / dir_entry_size ≤ i)
    (h : read_entry s inode (dir_entry_size * i) = .ok r) : r = none := by
  obtain ⟨bytes, hread, hret⟩ := bind_eq_ok h
  obtain rfl := Except.ok.inj hret
  have hlen := read_loop_length _ _ _ _ hread
  have hshort := Nat.not_le.mp (mt entry_lt_iff.mpr (Nat.not_lt.mpr hi))
  have hpos : 0 < dir_entry_size := by decide
  rw [if_neg (by omega)]

/-- The records of a file from the `i`-th on. -/
def entries_from (d : InodeDisk) (i : ℕ) : List ℕ :=
  List.range' i (d.length / dir_entry_size - i)

theorem entries_from_of_lt {d : InodeDisk} {i : ℕ} (hi : i < d.length / dir_entry_size) :
    entries_from d i = i :: entries_from d (i + 1) := by
  obtain ⟨k, hk⟩ : ∃ k, d.length / dir_entry_size - i = k + 1 :=
    ⟨d.length / dir_entry_size - i - 1, by omega⟩
  have hk' : d.length / dir_entry_size - (i + 1) = k := by omega
  unfold entries_from
  rw [hk, hk', List.range'_succ]

theorem entries_from_end {d : InodeDisk} {i : ℕ} (hi : d.length / dir_entry_size ≤ i) :
    entries_from d i = [] := by
  unfold entries_from
  rw [Nat.sub_eq_zero_of_le hi]
  rfl

/-- What `find_entry` finds from the `i`-th record on. -/
def find_from (disk : ℕ → Sector) (d : InodeDisk) (name : Str) (i : ℕ) : Option (DirEntry × ℕ) :=
  ((entries_from d i).find? fun i => (entry_at disk d i).Matches name).map
    fun i => (entry_at disk d i, dir_entry_size * i)

theorem find_from_zero (disk : ℕ → Sector) (d : InodeDisk) (name : Str) :
    find_from disk d name 0 = find_entry disk d name := by
  unfold find_from find_entry entries_from
  rw [Nat.sub_zero, List.range_eq_range']

theorem find_from_of_lt {disk : ℕ → Sector} {d : InodeDisk} {name : Str} {i : ℕ}
    (hi : i < d.length / dir_entry_size) : find_from disk d name i =
      if (entry_at disk d i).Matches name then some (entry_at disk d i, dir_entry_size * i)
      else find_from disk d name (i + 1) := by
  unfold find_from
  rw [entries_from_of_lt hi]
  by_cases hmatch : (entry_at disk d i).Matches name
  · rw [if_pos hmatch, List.find?_cons_of_pos (by simpa using hmatch)]
    rfl
  · rw [if_neg hmatch, List.find?_cons_of_neg (by simpa using hmatch)]

theorem find_from_end {disk : ℕ → Sector} {d : InodeDisk} {name : Str} {i : ℕ}
    (hi : d.length / dir_entry_size ≤ i) : find_from disk d name i = none := by
  unfold find_from
  rw [entries_from_end hi]
  rfl

/-- The loop of `lookup`: what it returns, and when it is sure to return. -/
theorem Readable.lookup_loop (h : Readable s inode.data) (name : Str) : ∀ fuel i : ℕ,
    i + fuel = entry_rounds inode →
    (∀ r, lookup_loop s inode name fuel (dir_entry_size * i) = .ok r →
      r = find_from s.disk inode.data name i) ∧
    ∀ p, find_from s.disk inode.data name i = some p →
      lookup_loop s inode name fuel (dir_entry_size * i) = .ok (some p) := by
  intro fuel
  induction fuel with
  | zero =>
    intro i hround
    unfold entry_rounds at hround
    refine ⟨fun r hr => (by cases hr), fun p hp => ?_⟩
    rw [find_from_end (by omega)] at hp
    cases hp
  | succ fuel ih =>
    intro i hround
    unfold Filesys.lookup_loop
    by_cases hi : i < inode.data.length / dir_entry_size
    · rw [h.read_entry hi, ok_bind, find_from_of_lt hi]
      dsimp only
      by_cases hmatch : (entry_at s.disk inode.data i).Matches name
      · rw [if_pos hmatch, if_pos hmatch]
        exact ⟨fun r hr => (Except.ok.inj hr).symm, fun p hp => by rw [← hp]; rfl⟩
      · rw [if_neg hmatch, if_neg hmatch, ← Nat.mul_succ]
        exact ih (i + 1) (by omega)
    · have hend := Nat.not_lt.mp hi
      rw [find_from_end hend]
      refine ⟨fun r hr => ?_, fun p hp => by cases hp⟩
      obtain ⟨e, hread, hr⟩ := bind_eq_ok hr
      obtain rfl := read_entry_end hend hread
      exact (Except.ok.inj hr).symm

/-- A search that returns has found the first entry of the name. -/
theorem Readable.lookup_returns {st : Store} {x : ℕ} (hx : st.open_inodes x = some inode)
    (h : Readable st.fs inode.data) {name : Str} {r : Option (DirEntry × ℕ)}
    (hrun : lookup st x name = .ok r) : r = find_entry st.fs.disk inode.data name := by
  unfold lookup Store.deref at hrun
  rw [hx] at hrun
  rw [← find_from_zero]
  exact (h.lookup_loop name _ 0 (Nat.zero_add _)).1 r hrun

/-- A search for a name that is there returns. -/
theorem Readable.lookup_found {st : Store} {x : ℕ} (hx : st.open_inodes x = some inode)
    (h : Readable st.fs inode.data) {name : Str} {p : DirEntry × ℕ}
    (hfind : find_entry st.fs.disk inode.data name = some p) : lookup st x name = .ok (some p) := by
  unfold lookup Store.deref
  rw [hx]
  rw [← find_from_zero] at hfind
  exact (h.lookup_loop name _ 0 (Nat.zero_add _)).2 p hfind

end Searches

/-! ## The small tree with its free map -/

/-- The free map's inode of the small tree, with its block in sector 7. -/
def mounted_map : InodeDisk :=
  { one_block 0 4 true with direct_block := fun k => if k = 0 then 7 else 0 }

/-- The small tree on a disk of 16 sectors, the first eight of them in use. -/
def mounted_tree : Store :=
  { small_tree with
    fs := { small_tree.fs with
      free_map := { bit_cnt := 16, bits := fun i => i < 8 }
      free_map_file := some ⟨0, 1, false, 0, mounted_map⟩ }
    live := [0, 1, 3, 5] }

/-- The block behind each inode of the tree. -/
def mounted_block (x : ℕ) : ℕ := if x = 0 then 7 else x + 1

theorem mounted_data : mounted_tree.inode_data 0 = mounted_map ∧
    mounted_tree.inode_data 1 = one_block 1 48 true ∧
    mounted_tree.inode_data 3 = one_block 3 24 false ∧
    mounted_tree.inode_data 5 = one_block 5 24 true :=
  ⟨rfl, rfl, inode_of_sector_image (one_block_fits (by norm_num) (by norm_num)),
    inode_of_sector_image (one_block_fits (by norm_num) (by norm_num))⟩

/-- An inode of the tree has one block at most. -/
theorem mounted_inode {x : ℕ} (hx : x ∈ mounted_tree.live) :
    (mounted_tree.inode_data x).blocks = 1 ∧
      (mounted_tree.inode_data x).direct_block 0 = mounted_block x := by
  obtain ⟨h0, h1, h3, h5⟩ := mounted_data
  have hmem : x = 0 ∨ x = 1 ∨ x = 3 ∨ x = 5 := by simpa [mounted_tree] using hx
  rcases hmem with rfl | rfl | rfl | rfl
  · rw [h0]
    exact ⟨rfl, rfl⟩
  · rw [h1]
    exact ⟨rfl, rfl⟩
  · rw [h3]
    exact ⟨rfl, rfl⟩
  · rw [h5]
    exact ⟨rfl, rfl⟩

theorem mounted_slot {x : ℕ} (hx : x ∈ mounted_tree.live) {σ : Slot}
    (hσ : σ.pos < (mounted_tree.inode_data x).blocks) (disk : ℕ → Sector) :
    σ = .data 0 ∧ disk_slot disk (mounted_tree.inode_data x) σ = mounted_block x := by
  obtain ⟨hblocks, hdirect⟩ := mounted_inode hx
  rw [hblocks] at hσ
  cases σ with
  | data k =>
    obtain rfl : k = 0 := by simpa [Slot.pos] using hσ
    exact ⟨rfl, hdirect⟩
  | indirect => simp [Slot.pos] at hσ
  | doubly => simp [Slot.pos] at hσ
  | parent j => simp [Slot.pos] at hσ

/-- The inodes and their blocks are different sectors below 8. -/
theorem mounted_block_spec : ∀ x ∈ mounted_tree.live, mounted_block x < 8 ∧ x < 8 ∧
    mounted_block x ≠ 0 ∧ mounted_block x ≠ 1 ∧ ∀ y ∈ mounted_tree.live,
      mounted_block x ≠ y ∧ (mounted_block x = mounted_block y → x = y) := by
  decide

theorem mounted_sectors {x z : ℕ} (hx : x ∈ mounted_tree.live) (hz : z ∈ mounted_tree.sectors x) :
    z = x ∨ z = mounted_block x := by
  rcases hz with rfl | ⟨σ, hσ, rfl⟩
  · exact Or.inl rfl
  · exact Or.inr (mounted_slot hx hσ _).2

theorem mounted_tree_inv : mounted_tree.Inv := by
  have hmark : ∀ i < 8, mounted_tree.fs.free_map.bits i = true := fun i hi => decide_eq_true hi
  have hmap : ∀ x ∈ mounted_tree.live,
      MapOk mounted_tree.fs (mounted_tree.inode_data x) (mounted_tree.inode_data x).blocks := by
    intro x hx
    refine ⟨fun σ τ hσ hτ _ => ?_, fun σ hσ => ?_⟩
    · rw [(mounted_slot hx hσ mounted_tree.fs.disk).1, (mounted_slot hx hτ mounted_tree.fs.disk).1]
    · rw [(mounted_slot hx hσ _).2]
      exact hmark _ (mounted_block_spec x hx).1
  have hboot : 0 ∈ mounted_tree.live := by decide
  have hfile : ∀ f, mounted_tree.fs.free_map_file = some f → f.data = mounted_tree.inode_data 0 := by
    intro f hf
    rw [← Option.some.inj hf]
    rfl
  have hmax : ∀ x ∈ mounted_tree.live, (mounted_tree.inode_data x).blocks ≤ MAX_BLOCKS := by
    intro x hx
    rw [(mounted_inode hx).1]
    decide
  have hready : Ready mounted_tree.fs := by
    refine ⟨⟨⟨by decide, fun i hi => ?_⟩, fun f hf => ?_⟩, ⟨rfl, rfl, rfl⟩, rfl, fun f hf τ hτ => ?_⟩
    · have hlt : i < 8 := of_decide_eq_true hi
      show i < 16
      omega
    · refine ⟨?_, ?_, ?_, ?_⟩
      · rw [hfile f hf]
        exact hmap 0 hboot
      · rw [hfile f hf]
        exact hmax 0 hboot
      · rw [hfile f hf]
        rfl
      · rw [← Option.some.inj hf]
    · rw [hfile f hf] at hτ ⊢
      rw [(mounted_slot hboot hτ _).2]
      decide
  refine ⟨hready, ⟨_, rfl⟩, hboot, rfl, fun x inode hx => ?_, fun x hx => ?_, fun x hx hx0 => ?_,
    fun x hx y hy hne z hz hz' => ?_⟩
  · have hopen : (if x = 1 then some ⟨1, 1, false, 0, one_block 1 48 true⟩ else none) = some inode := hx
    split_ifs at hopen with h1
    rw [← Option.some.inj hopen, h1]
    exact ⟨rfl, by decide, by decide, by decide⟩
  · obtain ⟨hblock, hlt, hb0, hb1, hother⟩ := mounted_block_spec x hx
    refine ⟨hmap x hx, hmax x hx, hmark x hlt, fun σ hσ => ?_, fun σ hσ => ?_, fun σ hσ => ?_⟩
    · rw [(mounted_slot hx hσ _).2]
      exact (hother x hx).1
    · rw [(mounted_slot hx hσ _).2]
      exact hb0
    · rw [(mounted_slot hx hσ _).2]
      exact hb1
  · obtain ⟨-, h1, h3, h5⟩ := mounted_data
    have hmem : x = 0 ∨ x = 1 ∨ x = 3 ∨ x = 5 := by simpa [mounted_tree] using hx
    rcases hmem with rfl | rfl | rfl | rfl
    · exact absurd rfl hx0
    · rw [h1]
      exact ⟨rfl, one_block_fits (by norm_num) (by norm_num)⟩
    · rw [h3]
      exact ⟨rfl, one_block_fits (by norm_num) (by norm_num)⟩
    · rw [h5]
      exact ⟨rfl, one_block_fits (by norm_num) (by norm_num)⟩
  · obtain ⟨-, -, -, -, hother⟩ := mounted_block_spec x hx
    obtain ⟨-, -, -, -, hother'⟩ := mounted_block_spec y hy
    rcases mounted_sectors hx hz with rfl | rfl <;> rcases mounted_sectors hy hz' with he | he
    · exact hne he
    · exact (hother' z hx).1 he.symm
    · exact (hother y hy).1 he
    · exact hne ((hother y hy).2 he)

/-- The tree while a process runs `"f"`, whose inode is open and denies writes. -/
def running_tree : Store :=
  mounted_tree.set_inode 3 (some ⟨3, 1, false, 1, mounted_tree.inode_data 3⟩)

theorem running_tree_inv : running_tree.Inv :=
  mounted_tree_inv.set_inode (by decide) (by decide) rfl Nat.one_pos rfl

end Pintos.Filesys
