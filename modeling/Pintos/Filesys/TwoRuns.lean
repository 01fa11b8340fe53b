/-
`chdir` and `mkdir` called with one path from two current directories.

Two walks to the parent leave stores that differ in reference counts and in the inodes that
are open. What `mkdir` does behind the walks depends on neither, down to the way it fails:
the reads, the writes and the allocations look at the data of the inodes, and at the counts
only where an inode is closed (`make_dir_same`). So the two runs agree when they reach the
same parent. They do not reach it where the path is looked up from the current directory
although it starts with a slash.
-/
import Pintos.Filesys.CurrentDir

set_option autoImplicit false

namespace Pintos.Filesys

open Pintos.Kernel WordImage

/-! ## Two runs -/

/-- Two runs with the same outcome: results that are related, or the same fault. -/
def SameOutcome {α β : Type} (R : α → β → Prop) : Res α → Res β → Prop
  | .ok a, .ok b => R a b
  | .error e, .error f => e = f
  | _, _ => False

theorem SameOutcome.bind {α β α' β' : Type} {R : α → β → Prop} {S : α' → β' → Prop} {x : Res α}
    {y : Res β} {f : α → Res α'} {g : β → Res β'} (h : SameOutcome R x y)
    (hfg : ∀ a b, x = .ok a → y = .ok b → R a b → SameOutcome S (f a) (g b)) :
    SameOutcome S (x >>= f) (y >>= g) := by
  cases x with
  | error e =>
    cases y with
    | error e' => exact h
    | ok b => exact h.elim
  | ok a =>
    cases y with
    | error e' => exact h.elim
    | ok b => exact hfg a b rfl rfl h

theorem SameOutcome.refl {α : Type} {R : α → α → Prop} (hR : ∀ a, R a a) (x : Res α) :
    SameOutcome R x x := by
  cases x with
  | error e => rfl
  | ok a => exact hR a

theorem SameOutcome.mono {α β : Type} {R S : α → β → Prop} {x : Res α} {y : Res β}
    (h : SameOutcome R x y) (hRS : ∀ a b, R a b → S a b) : SameOutcome S x y := by
  cases x with
  | error e =>
    cases y with
    | error f => exact h
    | ok b => exact h
  | ok a =>
    cases y with
    | error f => exact h
    | ok b => exact hRS a b h

/-- Two runs that start with the same call. -/
theorem SameOutcome.bind_same {α α' β' : Type} {S : α' → β' → Prop} (x : Res α) {f : α → Res α'}
    {g : α → Res β'} (hfg : ∀ a, x = .ok a → SameOutcome S (f a) (g a)) :
    SameOutcome S (x >>= f) (x >>= g) := by
  refine (SameOutcome.refl (R := Eq) (fun _ => rfl) x).bind ?_
  rintro a b ha - rfl
  exact hfg a ha

/-- Two inodes that differ in their reference counts. -/
def CountApart (i j : Inode) : Prop := j = { i with open_cnt := j.open_cnt }

section Counts

variable {i j : Inode} {s : FileSys}

theorem CountApart.data (h : CountApart i j) : j.data = i.data := by rw [h]

theorem CountApart.sector (h : CountApart i j) : j.sector = i.sector := by rw [h]

theorem CountApart.symm (h : CountApart i j) : CountApart j i := by
  unfold CountApart at h ⊢
  rw [h]

theorem CountApart.trans {k : Inode} (h : CountApart i j) (h' : CountApart j k) :
    CountApart i k := by
  unfold CountApart at h h' ⊢
  rw [h', h]

/-- Giving both inodes new data. -/
theorem CountApart.set_data (h : CountApart i j) (d : InodeDisk) :
    CountApart { i with data := d } { j with data := d } := by
  unfold CountApart
  rw [h]

theorem add_blocks_apart (h : CountApart i j) (new_eof : ℕ) :
    SameOutcome (fun a b => CountApart a.1 b.1 ∧ a.2 = b.2) (add_blocks s i new_eof)
      (add_blocks s j new_eof) := by
  unfold add_blocks
  rw [h.data]
  refine SameOutcome.bind_same _ fun s₁ _ => SameOutcome.bind_same _ fun a _ => ?_
  by_cases ha : a.1 = true
  · rw [if_pos ha, if_pos ha]
    exact SameOutcome.bind_same _ fun s₂ _ => ⟨h.set_data _, rfl⟩
  · rw [if_neg ha, if_neg ha]
    exact ⟨h.set_data _, rfl⟩

theorem write_loop_congr (h : j.data = i.data) (buffer : ℕ → UInt8) (fuel : ℕ) :
    ∀ (size offset bw : ℕ) (c : IndexCache) (s : FileSys),
      write_loop j buffer fuel size offset bw c s = write_loop i buffer fuel size offset bw c s := by
  induction fuel with
  | zero => exact fun _ _ _ _ _ => rfl
  | succ fuel ih =>
    intro size offset bw c s
    unfold write_loop
    rw [h]
    simp only [ih]

/-- **A write** does not look at the reference count. -/
theorem inode_write_at_apart (h : CountApart i j) (buffer : ℕ → UInt8) (size offset : ℕ) :
    SameOutcome (fun a b => a.1 = b.1 ∧ CountApart a.2.1 b.2.1 ∧ a.2.2 = b.2.2)
      (inode_write_at s i buffer size offset) (inode_write_at s j buffer size offset) := by
  have hdeny : j.deny_write_cnt = i.deny_write_cnt := by rw [h]
  have hext : SameOutcome (fun a b => CountApart a.1 b.1 ∧ a.2 = b.2)
      (if i.data.length < offset + size then extend_with add_blocks s i size offset
        else .ok (i, s))
      (if j.data.length < offset + size then extend_with add_blocks s j size offset
        else .ok (j, s)) := by
    rw [h.data]
    by_cases hlt : i.data.length < offset + size
    swap
    · rw [if_neg hlt, if_neg hlt]
      exact ⟨h, rfl⟩
    rw [if_pos hlt, if_pos hlt]
    unfold extend_with
    rw [h.data]
    have hgrow : SameOutcome (fun a b => CountApart a.1 b.1 ∧ a.2 = b.2)
        (if needs_blocks i.data.length (offset + size) then add_blocks s i (offset + size)
          else .ok (i, s))
        (if needs_blocks i.data.length (offset + size) then add_blocks s j (offset + size)
          else .ok (j, s)) := by
      by_cases hneed : needs_blocks i.data.length (offset + size)
      · rw [if_pos hneed, if_pos hneed]
        exact add_blocks_apart h _
      · rw [if_neg hneed, if_neg hneed]
        exact ⟨h, rfl⟩
    refine hgrow.bind fun a b _ _ hab => ?_
    obtain ⟨hapart, heq⟩ := hab
    rw [heq, hapart.data]
    refine SameOutcome.bind_same _ fun s₁ _ => ?_
    dsimp only
    rw [hapart.sector]
    refine SameOutcome.bind_same _ fun s₂ _ => ⟨?_, rfl⟩
    unfold CountApart at hapart ⊢
    dsimp only
    rw [hapart]
  unfold inode_write_at inode_write_at_with
  rw [hdeny]
  by_cases hd : i.deny_write_cnt ≠ 0
  · rw [if_pos hd, if_pos hd]
    exact ⟨rfl, h, rfl⟩
  rw [if_neg hd, if_neg hd]
  by_cases hover : 2 ^ 31 ≤ offset + size
  · rw [if_pos hover, if_pos hover]
    rfl
  rw [if_neg hover, if_neg hover]
  refine hext.bind fun a b _ _ hab => ?_
  obtain ⟨hapart, heq⟩ := hab
  rw [heq, write_loop_congr hapart.data]
  exact SameOutcome.bind_same _ fun w _ => ⟨rfl, hapart, rfl⟩

end Counts

/-! ## Inodes that stay open -/

/-- The inodes of the list keep their place and everything but their data. -/
def Rewritten (st st' : Store) : Prop :=
  ∀ y, ∃ data, st'.open_inodes y = (st.open_inodes y).map fun i => { i with data := data }

section Rewriting

variable {st st' : Store} {i j : Inode} {s : FileSys} {x y : ℕ} {name : Str}

theorem Rewritten.refl (st : Store) : Rewritten st st := by
  intro y
  cases hy : st.open_inodes y with
  | none => exact ⟨blank_inode 0 0 false, by rw [Option.map_none]⟩
  | some i => exact ⟨i.data, by rw [Option.map_some]⟩

/-- A write changes the data of the inode only. -/
theorem inode_write_at_rest {buffer : ℕ → UInt8} {size offset : ℕ} {r : ℕ × Inode × FileSys}
    (h : inode_write_at s i buffer size offset = .ok r) :
    r.2.1 = { i with data := r.2.1.data } := by
  have hgrow : ∀ {new_eof : ℕ} {q : Inode × FileSys}, add_blocks s i new_eof = .ok q →
      q.1 = { i with data := q.1.data } := by
    intro new_eof q hq
    unfold add_blocks at hq
    obtain ⟨s₁, -, hq⟩ := bind_eq_ok hq
    obtain ⟨a, -, hq⟩ := bind_eq_ok hq
    by_cases ha : a.1 = true
    · rw [if_pos ha] at hq
      obtain ⟨s₂, -, hq⟩ := bind_eq_ok hq
      rw [← Except.ok.inj hq]
    · rw [if_neg ha] at hq
      rw [← Except.ok.inj hq]
  unfold inode_write_at inode_write_at_with at h
  by_cases hd : i.deny_write_cnt ≠ 0
  · rw [if_pos hd] at h
    rw [← Except.ok.inj h]
  rw [if_neg hd] at h
  by_cases hover : 2 ^ 31 ≤ offset + size
  · rw [if_pos hover] at h
    cases h
  rw [if_neg hover] at h
  obtain ⟨q, hq, h⟩ := bind_eq_ok h
  obtain ⟨w, -, h⟩ := bind_eq_ok h
  rw [← Except.ok.inj h]
  change q.1 = { i with data := q.1.data }
  by_cases hlt : i.data.length < offset + size
  swap
  · rw [if_neg hlt] at hq
    rw [← Except.ok.inj hq]
  rw [if_pos hlt] at hq
  unfold extend_with at hq
  obtain ⟨g, hg, hq⟩ := bind_eq_ok hq
  obtain ⟨s₁, -, hq⟩ := bind_eq_ok hq
  obtain ⟨s₂, -, hq⟩ := bind_eq_ok hq
  rw [← Except.ok.inj hq]
  have hsame : g.1 = { i with data := g.1.data } := by
    by_cases hneed : needs_blocks i.data.length (offset + size)
    · rw [if_pos hneed] at hg
      exact hgrow hg
    · rw [if_neg hneed] at hg
      rw [← Except.ok.inj hg]
  dsimp only
  rw [hsame]

theorem write_at_rewritten {w : WriteReq} {r : ℕ × Store} (h : st.write_at x w = .ok r) :
    Rewritten st r.2 ∧ ∀ y ≠ x, r.2.open_inodes y = st.open_inodes y := by
  obtain ⟨i, hi, h⟩ := bind_eq_ok h
  obtain ⟨q, hq, h⟩ := bind_eq_ok h
  rw [deref_eq_ok] at hi
  rw [← Except.ok.inj h]
  refine ⟨fun y => ?_, fun y hy => set_inode_of_ne (t := st) _ hy⟩
  by_cases hy : y = x
  · subst hy
    refine ⟨q.2.1.data, ?_⟩
    rw [hi, Option.map_some, ← inode_write_at_rest hq]
    exact set_inode_self (t := st) _
  · obtain ⟨data, hdata⟩ := Rewritten.refl st y
    exact ⟨data, (set_inode_of_ne (t := st) _ hy).trans hdata⟩

/-- `dir_add` changes the data of the directory only. -/
theorem dir_add_rewritten {d : ℕ} {r : Bool × Store} (h : dir_add st d name x = .ok r) :
    Rewritten st r.2 ∧ ∀ y ≠ d, r.2.open_inodes y = st.open_inodes y := by
  unfold dir_add at h
  split_ifs at h
  · rw [← Except.ok.inj h]
    exact ⟨Rewritten.refl st, fun _ _ => rfl⟩
  obtain ⟨l, -, h⟩ := bind_eq_ok h
  cases l with
  | some p =>
    rw [← Except.ok.inj h]
    exact ⟨Rewritten.refl st, fun _ _ => rfl⟩
  | none =>
    obtain ⟨i, -, h⟩ := bind_eq_ok h
    obtain ⟨ofs, -, h⟩ := bind_eq_ok h
    obtain ⟨w, hw, h⟩ := bind_eq_ok h
    rw [← Except.ok.inj h]
    exact write_at_rewritten hw

theorem inode_close_others (h : st.inode_close x = .ok st') {y : ℕ} (hy : y ≠ x) :
    st'.open_inodes y = st.open_inodes y := by
  unfold Store.inode_close at h
  cases hx : st.open_inodes x with
  | none =>
    rw [hx] at h
    cases h
  | some i =>
    rw [hx] at h
    dsimp only at h
    split_ifs at h
    · obtain ⟨fs, -, h⟩ := bind_eq_ok h
      rw [← Except.ok.inj h]
      exact set_inode_of_ne (t := st) _ hy
    · rw [← Except.ok.inj h]
      exact set_inode_of_ne _ hy
    · rw [← Except.ok.inj h]
      exact set_inode_of_ne _ hy

theorem Rewritten.some (h : Rewritten st st') (hi : st.open_inodes y = some i) :
    ∃ data, st'.open_inodes y = some { i with data := data } := by
  obtain ⟨data, hdata⟩ := h y
  rw [hi, Option.map_some] at hdata
  exact ⟨data, hdata⟩

end Rewriting

/-! ## The same calls in two stores -/

/-- The same file system, and the inodes that are open in both stores differ in their counts
only. -/
structure SameTree (st₁ st₂ : Store) : Prop where
  fs : st₂.fs = st₁.fs
  live : st₂.live = st₁.live
  inodes : ∀ y i j, st₁.open_inodes y = some i → st₂.open_inodes y = some j → CountApart i j

section SameStores

variable {st₁ st₂ : Store} {i j : Inode} {x d p : ℕ} {name : Str}

theorem SameTree.set_inode (h : SameTree st₁ st₂) {o₁ o₂ : Option Inode}
    (ho : ∀ i j, o₁ = some i → o₂ = some j → CountApart i j) :
    SameTree (st₁.set_inode x o₁) (st₂.set_inode x o₂) := by
  refine ⟨h.fs, h.live, fun y i j hi hj => ?_⟩
  by_cases hy : y = x
  · rw [hy, set_inode_self] at hi hj
    exact ho i j hi hj
  · rw [set_inode_of_ne _ hy] at hi hj
    exact h.inodes y i j hi hj

/-- Putting the same file system into both. -/
theorem SameTree.set_fs (h : SameTree st₁ st₂) (s : FileSys) (l : List ℕ) :
    SameTree { st₁ with fs := s, live := l } { st₂ with fs := s, live := l } :=
  ⟨rfl, rfl, h.inodes⟩

theorem inode_open_same (h : SameTree st₁ st₂) (hx : st₁.open_inodes x = st₂.open_inodes x) :
    SameOutcome (fun a b => SameTree a b ∧ a.open_inodes x = b.open_inodes x ∧
      ∃ i, a.open_inodes x = some i) (st₁.inode_open x) (st₂.inode_open x) := by
  have hset : ∀ k : Inode, SameTree (st₁.set_inode x (some k)) (st₂.set_inode x (some k)) ∧
      (st₁.set_inode x (some k)).open_inodes x = (st₂.set_inode x (some k)).open_inodes x ∧
      ∃ i, (st₁.set_inode x (some k)).open_inodes x = some i := by
    intro k
    refine ⟨h.set_inode fun i j hi hj => ?_, ?_, k, set_inode_self _⟩
    · obtain rfl := Option.some.inj (hi.symm.trans hj)
      rfl
    · rw [set_inode_self, set_inode_self]
  unfold Store.inode_open
  rw [← hx]
  cases st₁.open_inodes x with
  | some k => exact hset _
  | none =>
    dsimp only
    rw [h.fs]
    exact SameOutcome.bind_same _ fun k _ => hset k

theorem slot_loop_congr {s : FileSys} (h : j.data = i.data) : ∀ fuel ofs : ℕ,
    slot_loop s j fuel ofs = slot_loop s i fuel ofs := by
  intro fuel
  induction fuel with
  | zero => exact fun _ => rfl
  | succ fuel ih =>
    intro ofs
    unfold slot_loop read_entry inode_read_at
    rw [read_loop_congr h]
    simp only [ih]

/-- **`dir_add`** in two stores where the directory is open. -/
theorem dir_add_same (h : SameTree st₁ st₂) (hi : st₁.open_inodes d = some i)
    (hj : st₂.open_inodes d = some j) :
    SameOutcome (fun a b => a.1 = b.1 ∧ SameTree a.2 b.2) (dir_add st₁ d name x)
      (dir_add st₂ d name x) := by
  have hap := h.inodes d i j hi hj
  have hrounds : entry_rounds j = entry_rounds i := by
    unfold entry_rounds
    rw [hap.data]
  have hlookup : lookup st₂ d name = lookup st₁ d name := by
    unfold lookup Store.deref
    rw [hi, hj, ok_bind, ok_bind, h.fs, hrounds]
    exact lookup_loop_congr hap.data name _ _
  unfold dir_add
  split_ifs with hlen
  · exact ⟨rfl, h⟩
  rw [hlookup]
  refine SameOutcome.bind_same _ fun l _ => ?_
  cases l with
  | some l => exact ⟨rfl, h⟩
  | none =>
    dsimp only
    rw [deref_eq_ok.mpr hi, deref_eq_ok.mpr hj, ok_bind, ok_bind, h.fs, hrounds,
      slot_loop_congr hap.data]
    refine SameOutcome.bind_same _ fun ofs _ => ?_
    unfold Store.write_at
    rw [deref_eq_ok.mpr hi, deref_eq_ok.mpr hj, ok_bind, ok_bind, h.fs]
    refine SameOutcome.bind (R := fun a b => a.1 = b.1 ∧ SameTree a.2 b.2) ?_ fun a b _ _ hab => ?_
    · refine (inode_write_at_apart hap _ _ _).bind fun a b _ _ hab => ?_
      obtain ⟨hn, hapart, hfs⟩ := hab
      refine ⟨hn, ?_, ?_, ?_⟩
      · exact hfs.symm
      · exact h.live
      · refine (h.set_inode (x := d) fun k l hk hl => ?_).inodes
        rw [← Option.some.inj hk, ← Option.some.inj hl]
        exact hapart
    · exact ⟨by rw [hab.1], hab.2⟩

/-- Closing the same inode in two stores. -/
theorem inode_close_same (h : SameTree st₁ st₂) (hi : st₁.open_inodes x = some i)
    (hj : st₂.open_inodes x = some i) :
    SameOutcome (fun a b => SameTree a b ∧ a.open_inodes x = b.open_inodes x)
      (st₁.inode_close x) (st₂.inode_close x) := by
  have hset : ∀ o : Option Inode, SameTree (st₁.set_inode x o) (st₂.set_inode x o) ∧
      (st₁.set_inode x o).open_inodes x = (st₂.set_inode x o).open_inodes x := by
    intro o
    refine ⟨h.set_inode fun k l hk hl => ?_, by rw [set_inode_self, set_inode_self]⟩
    obtain rfl := Option.some.inj (hk.symm.trans hl)
    rfl
  unfold Store.inode_close
  rw [hi, hj]
  dsimp only
  by_cases hlast : i.open_cnt - 1 = 0
  swap
  · rw [if_neg hlast, if_neg hlast]
    exact hset _
  rw [if_pos hlast, if_pos hlast]
  by_cases hrem : i.removed = true
  swap
  · rw [if_neg hrem, if_neg hrem]
    exact hset none
  rw [if_pos hrem, if_pos hrem]
  have hfs : (st₂.set_inode x none).fs = (st₁.set_inode x none).fs := h.fs
  have hlive : (st₂.set_inode x none).live = (st₁.set_inode x none).live := h.live
  rw [hfs, hlive]
  exact SameOutcome.bind_same _ fun s _ => ⟨(hset none).1.set_fs s _, (hset none).2⟩

/-- The entry of the parent in the new directory. -/
theorem enter_parent_same (h : SameTree st₁ st₂)
    (hx : st₁.open_inodes x = st₂.open_inodes x) :
    SameOutcome (fun a b => SameTree a b ∧ a.open_inodes x = b.open_inodes x)
      (enter_parent st₁ x p) (enter_parent st₂ x p) := by
  unfold enter_parent
  refine (inode_open_same h hx).bind fun a b _ _ hab => ?_
  obtain ⟨htree, heq, k, hk⟩ := hab
  have hk' : b.open_inodes x = some k := heq ▸ hk
  refine (dir_add_same htree hk hk').bind fun r q hr hq hrq => ?_
  obtain ⟨-, htree'⟩ := hrq
  -- the entry has given both the same data, and left both counts
  obtain ⟨data, hi⟩ := (dir_add_rewritten hr).1.some hk
  obtain ⟨data', hj⟩ := (dir_add_rewritten hq).1.some hk'
  have hdata : data' = data := (htree'.inodes x _ _ hi hj).data
  rw [hdata] at hj
  exact inode_close_same htree' hi hj

theorem add_parent_same (h : SameTree st₁ st₂)
    (hx : st₁.open_inodes x = st₂.open_inodes x) :
    SameOutcome SameTree (add_parent st₁ x p) (add_parent st₂ x p) := by
  unfold add_parent
  by_cases h0 : x = FREE_MAP_SECTOR
  swap
  · rw [if_neg h0, if_neg h0]
    exact (enter_parent_same h hx).mono fun a b hab => hab.1
  rw [if_pos h0, if_pos h0, h0]
  have hput : SameTree (st₁.set_inode FREE_MAP_SECTOR st₁.fs.free_map_file)
      (st₂.set_inode FREE_MAP_SECTOR st₂.fs.free_map_file) := by
    refine h.set_inode fun i j hi hj => ?_
    rw [h.fs, hi] at hj
    rw [Option.some.inj hj]
    rfl
  refine (enter_parent_same hput (by rw [set_inode_self, set_inode_self, h.fs])).bind
    fun a b _ _ hab => ?_
  obtain ⟨htree, heq⟩ := hab
  refine ⟨?_, htree.live, (htree.set_inode fun i j hi _ => by cases hi).inodes⟩
  change { b.fs with free_map_file := b.open_inodes FREE_MAP_SECTOR } =
    { a.fs with free_map_file := a.open_inodes FREE_MAP_SECTOR }
  rw [htree.fs, heq]

/-- The entry of the parent leaves every other inode of the list alone. -/
theorem add_parent_frame {st st' : Store} (h : add_parent st x p = .ok st') {y : ℕ}
    (hy : y ≠ x) : st'.open_inodes y = st.open_inodes y := by
  have henter : ∀ {t t' : Store}, enter_parent t x p = .ok t' →
      t'.open_inodes y = t.open_inodes y := by
    intro t t' hrun
    obtain ⟨t₁, hopen, hrun⟩ := bind_eq_ok hrun
    obtain ⟨r, hadd, hclose⟩ := bind_eq_ok hrun
    obtain ⟨k, rfl, -⟩ := inode_open_cases hopen
    rw [inode_close_others hclose hy, (dir_add_rewritten hadd).2 y hy, set_inode_of_ne _ hy]
  unfold add_parent at h
  by_cases h0 : x = FREE_MAP_SECTOR
  · rw [if_pos h0] at h
    obtain ⟨t, hrun, h⟩ := bind_eq_ok h
    rw [← Except.ok.inj h]
    rw [h0] at hy
    change (t.set_inode FREE_MAP_SECTOR none).open_inodes y = _
    rw [set_inode_of_ne _ hy, henter hrun, set_inode_of_ne _ hy]
  · rw [if_neg h0] at h
    exact henter h

/-- **`dir_create`** in two stores where the parent is open. -/
theorem dir_create_same (h : SameTree st₁ st₂) (hi : st₁.open_inodes p = some i)
    (hj : st₂.open_inodes p = some j) (hxp : x ≠ p)
    (hx : st₁.open_inodes x = st₂.open_inodes x) (n : ℕ) :
    SameOutcome (fun a b => SameTree a.2 b.2) (dir_create st₁ (some p) x n name)
      (dir_create st₂ (some p) x n name) := by
  unfold dir_create
  rw [h.fs, h.live]
  refine SameOutcome.bind_same _ fun c _ => ?_
  have hput := h.set_fs c.2 (if c.1 then x :: st₁.live else st₁.live)
  by_cases hroot : x = ROOT_DIR_SECTOR
  · rw [if_pos hroot, if_pos hroot]
    exact hput
  rw [if_neg hroot, if_neg hroot]
  dsimp only
  refine (dir_add_same hput hi hj).bind fun r q hr hq hrq => ?_
  obtain ⟨-, htree⟩ := hrq
  have hx' : r.2.open_inodes x = q.2.open_inodes x := by
    rw [(dir_add_rewritten hr).2 x hxp, (dir_add_rewritten hq).2 x hxp]
    exact hx
  exact (add_parent_same htree hx').bind fun a b _ _ hab => hab

theorem dir_create_frame {st : Store} (hi : st.open_inodes p = some i) (hxp : x ≠ p) {n : ℕ}
    {r : Bool × Store} (h : dir_create st (some p) x n name = .ok r) :
    ∃ data, r.2.open_inodes p = some { i with data := data } := by
  obtain ⟨c, -, h⟩ := bind_eq_ok h
  by_cases hroot : x = ROOT_DIR_SECTOR
  · rw [if_pos hroot] at h
    rw [← Except.ok.inj h]
    exact ⟨i.data, hi⟩
  rw [if_neg hroot] at h
  obtain ⟨q, hadd, h⟩ := bind_eq_ok h
  obtain ⟨st', hparent, h⟩ := bind_eq_ok h
  obtain ⟨data, hdata⟩ := (dir_add_rewritten hadd).1.some hi
  refine ⟨data, ?_⟩
  rw [← Except.ok.inj h]
  exact (add_parent_frame hparent (Ne.symm hxp)).trans hdata

/-- An inode that a close does not delete. -/
def Quiet (inode : Inode) : Prop := inode.removed = false ∨ 2 ≤ inode.open_cnt

/-- The end of `mkdir`: the parent loses at most a count, or its place on the list. -/
theorem leave_parent {st : Store} {c : ℕ} (hi : st.open_inodes p = some i)
    (hquiet : c = p ∨ Quiet i) :
    ∃ o, (if c = p then (.ok st : Res Store) else st.inode_close p) = .ok (st.set_inode p o) ∧
      ∀ k, o = some k → CountApart i k ∧ (0 < i.open_cnt → 0 < k.open_cnt) := by
  by_cases hc : c = p
  · have hself : st.set_inode p (some i) = st := by
      unfold Store.set_inode
      rw [← hi, Function.update_eq_self]
    refine ⟨some i, by rw [if_pos hc, hself], fun k hk => ?_⟩
    rw [← Option.some.inj hk]
    exact ⟨rfl, id⟩
  rw [if_neg hc]
  unfold Store.inode_close
  rw [hi]
  dsimp only
  by_cases hlast : i.open_cnt - 1 = 0
  · have hrem : ¬ i.removed = true := by
      rcases hquiet.resolve_left hc with hr | hr
      · simp [hr]
      · omega
    rw [if_pos hlast, if_neg hrem]
    exact ⟨none, rfl, fun k hk => by cases hk⟩
  · rw [if_neg hlast]
    refine ⟨_, rfl, fun k hk => ?_⟩
    rw [← Option.some.inj hk]
    exact ⟨rfl, fun _ => Nat.pos_of_ne_zero hlast⟩

/-- **What `mkdir` does in the parent** is the same in two stores that differ in counts. -/
theorem make_dir_same (h : SameTree st₁ st₂) {c₁ c₂ : ℕ} (hi : st₁.open_inodes p = some i)
    (hj : st₂.open_inodes p = some j) (hquiet₁ : c₁ = p ∨ Quiet i) (hquiet₂ : c₂ = p ∨ Quiet j)
    (hfresh : ∀ q, free_map_allocate st₁.fs 1 = .ok q →
      st₁.open_inodes (q.1.getD 0) = none ∧ st₂.open_inodes (q.1.getD 0) = none) :
    SameOutcome SameTree (make_dir st₁ c₁ (some p) name) (make_dir st₂ c₂ (some p) name) := by
  unfold make_dir
  rw [h.fs]
  refine SameOutcome.bind_same _ fun a ha => ?_
  obtain ⟨hx₁, hx₂⟩ := hfresh a ha
  have hxp : a.1.getD 0 ≠ p := by
    rintro hxp
    rw [hxp, hi] at hx₁
    cases hx₁
  have hput : SameTree { st₁ with fs := a.2 } { st₂ with fs := a.2 } := ⟨rfl, h.live, h.inodes⟩
  refine (dir_create_same hput hi hj hxp (hx₁.trans hx₂.symm) 1).bind fun r q hr hq hrq => ?_
  obtain ⟨d₁, hi'⟩ := @dir_create_frame _ _ _ _ { st₁ with fs := a.2 } hi hxp _ _ hr
  obtain ⟨d₂, hj'⟩ := @dir_create_frame _ _ _ _ { st₂ with fs := a.2 } hj hxp _ _ hq
  obtain ⟨o₁, hleave₁, hap₁⟩ := leave_parent (c := c₁) hi' hquiet₁
  obtain ⟨o₂, hleave₂, hap₂⟩ := leave_parent (c := c₂) hj' hquiet₂
  have hap := hrq.inodes p _ _ hi' hj'
  dsimp only
  rw [pure_eq_ok, pure_eq_ok, hleave₁, hleave₂]
  exact hrq.set_inode fun k l hk hl => (hap₁ k hk).1.symm.trans (hap.trans (hap₂ l hl).1)

end SameStores

end Pintos.Filesys
