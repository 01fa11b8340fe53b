/-
`chdir` and `mkdir` of one absolute path from two current directories.

Neither call tests for the leading slash, so both look the components up from the current
directory. They agree where that makes no difference: the components lead to the same place
from both directories (`chdir`), or both calls of `mkdir` refuse, or both go on in the same
parent, where they do the same (`make_dir_same`). Two parents that both have room are told
apart by the entry `".."` of the new directory.
-/
import Pintos.Filesys.MkdirReport

set_option autoImplicit false

namespace Pintos.Filesys

open Pintos.Kernel WordImage

section TwoParents

variable {st : Store} {c₁ c₂ : ℕ} {dir : Str}

/-- The sector that is taken for a new inode is the sector of no open one. -/
theorem Store.Inv.allocated_closed (h : st.Inv) {q : Option ℕ × FileSys}
    (hq : free_map_allocate st.fs 1 = .ok q) : st.open_inodes (q.1.getD 0) = none := by
  by_contra hopen
  obtain ⟨i, hi⟩ := Option.ne_none_iff_exists'.mp hopen
  obtain ⟨-, hlive, h0, -⟩ := h.opened _ i hi
  by_cases hfull : (free_sectors st.fs).card = 0
  · rw [free_map_allocate_full hfull] at hq
    obtain rfl := Except.ok.inj hq
    exact h0 rfl
  · obtain ⟨x, s₁, htake, hT⟩ := take_sector_spec h.ready.ok (Nat.pos_of_ne_zero hfull)
    rw [free_map_allocate_one (Nat.pos_of_ne_zero hfull), htake] at hq
    obtain rfl := Except.ok.inj hq
    have hused := (h.inode _ hlive).used
    rw [Option.getD_some, hT.free] at hused
    cases hused

/-- Two walks over one store. -/
theorem Raised.same_tree {st₁ st₂ : Store} (h₁ : Raised st st₁) (h₂ : Raised st st₂) :
    SameTree st₁ st₂ := by
  refine ⟨h₂.fs.trans h₁.fs.symm, h₂.live.trans h₁.live.symm, fun y i j hi hj => ?_⟩
  cases hy : st.open_inodes y with
  | none =>
    obtain ⟨-, hfresh₁⟩ := h₁.fresh y i hy hi
    obtain ⟨-, hfresh₂⟩ := h₂.fresh y j hy hj
    unfold CountApart
    rw [hfresh₁, hfresh₂]
  | some k =>
    obtain ⟨n, -, hk₁⟩ := h₁.kept y k hy
    obtain ⟨m, -, hk₂⟩ := h₂.kept y k hy
    obtain rfl := Option.some.inj (hk₁.symm.trans hi)
    obtain rfl := Option.some.inj (hk₂.symm.trans hj)
    rfl

/-- The two runs of `mkdir` have the same outcome: the same result and the same tree, or the
same fault. -/
def SameMade (st : Store) (c₁ c₂ : ℕ) (dir : Str) : Prop :=
  SameOutcome (fun a b => a.1 = b.1 ∧ SameTree a.2 b.2) (mkdir st c₁ dir) (mkdir st c₂ dir)

/-- `mkdir` goes on in `p`, and no regular file is taken for a directory on the way. -/
structure Reaches (st : Store) (c : ℕ) (dir path file : Str) (p : ℕ) : Prop where
  makes : Makes st c dir path file p
  plain : file_before st c (components dir) = none
  plain_path : file_before st c (components path) = none

/-- Both calls refuse, or both go on in the same parent. -/
def PartsAgree (st : Store) (c₁ c₂ : ℕ) (dir : Str) : Prop :=
  Refuses st c₁ dir ∧ Refuses st c₂ dir ∨
    ∃ path file p, Reaches st c₁ dir path file p ∧ Reaches st c₂ dir path file p

/-- What a call that goes on comes to. -/
theorem Reaches.run (h : DirTree st) {c : ℕ} (hc : OpenDir st c) (hdir : dir ≠ [])
    {path file : Str} {p : ℕ} (hr : Reaches st c dir path file p) :
    ∃ st₁ ip, mkdir st c dir = (do
        let st ← make_dir st₁ c (some p) file
        return (true, st)) ∧
      Raised st st₁ ∧ st₁.Inv ∧ st₁.open_inodes p = some ip ∧ (c = p ∨ Quiet ip) := by
  obtain ⟨st₁, hrun, -, hraised, hopen, hlt, hwithin⟩ := mkdir_makes hc.opened hdir hr.makes
  have hinv₁ := h.inv.raised hraised (hwithin h.tree hc.node hc.isdir hr.plain hr.plain_path)
  obtain ⟨ip, hi⟩ := Option.ne_none_iff_exists'.mp hopen
  have hcnt : Counted st := fun y i hy => (h.inv.opened y i hy).2.2.2
  exact ⟨st₁, ip, hrun, hraised, hinv₁, hi, quiet_of_raised hcnt hraised hi hlt⟩

/-- **Two calls that reach the same parent** have the same outcome. -/
theorem same_made_of_agree (h : DirTree st) (hc₁ : OpenDir st c₁) (hc₂ : OpenDir st c₂)
    (hdir : dir ≠ []) (hagree : PartsAgree st c₁ c₂ dir) : SameMade st c₁ c₂ dir := by
  unfold SameMade
  rcases hagree with ⟨href₁, href₂⟩ | ⟨path, file, p, hr₁, hr₂⟩
  · obtain ⟨st₁, hrun₁, hraised₁⟩ := mkdir_refuses hc₁.opened hdir href₁
    obtain ⟨st₂, hrun₂, hraised₂⟩ := mkdir_refuses hc₂.opened hdir href₂
    rw [hrun₁, hrun₂]
    exact ⟨rfl, hraised₁.same_tree hraised₂⟩
  · obtain ⟨st₁, i, hrun₁, hraised₁, hinv₁, hi, hquiet₁⟩ := hr₁.run h hc₁ hdir
    obtain ⟨st₂, j, hrun₂, hraised₂, hinv₂, hj, hquiet₂⟩ := hr₂.run h hc₂ hdir
    rw [hrun₁, hrun₂]
    refine (make_dir_same (hraised₁.same_tree hraised₂) hi hj hquiet₁ hquiet₂
      fun q hq => ⟨hinv₁.allocated_closed hq, hinv₂.allocated_closed ?_⟩).bind
        fun a b _ _ hab => ⟨rfl, hab⟩
    rwa [hraised₂.fs, ← hraised₁.fs]

/-- Two new directories in the same tree have the same parent. -/
theorem NewDir.same_parent {a b : Store} {p₁ p₂ x₁ x₂ : ℕ} {n₁ n₂ : Str}
    (h₁ : NewDir st a p₁ n₁ x₁) (h₂ : NewDir st b p₂ n₂ x₂) (hsame : SameTree a b) : p₁ = p₂ := by
  have hx : x₂ = x₁ := by
    have hlive := hsame.live
    rw [h₁.live, h₂.live] at hlive
    exact (List.cons.inj hlive).1
  subst hx
  have hnode₁ : Node a x₂ := ⟨by rw [h₁.live]; exact List.mem_cons_self, h₁.boot⟩
  have hnode₂ : Node b x₂ := ⟨by rw [h₂.live]; exact List.mem_cons_self, h₂.boot⟩
  -- the data of the new directory are the ones on the disk
  have hdata : b.open_data x₂ = a.open_data x₂ := by
    rw [h₁.inv.open_data hnode₁, h₂.inv.open_data hnode₂, hsame.fs]
  have hdots : entry_sector b x₂ dot_dot = entry_sector a x₂ dot_dot := by
    unfold entry_sector
    rw [hdata, hsame.fs]
  rw [h₁.self, h₂.self, if_pos rfl] at hdots
  exact (Option.some.inj hdots).symm

/-- Two calls with the same result have both refused, or both gone on; with room in both
parents, these are the same. -/
theorem agree_of_same_made (h : DirTree st) (hc₁ : OpenDir st c₁) (hc₂ : OpenDir st c₂)
    (hzero : (0 : UInt8) ∉ dir) (hdir : dir ≠ []) {a b : Bool × Store}
    (ha : mkdir st c₁ dir = .ok a) (hb : mkdir st c₂ dir = .ok b) (hflag : a.1 = b.1)
    (hsame : SameTree a.2 b.2) : Refuses st c₁ dir ∧ Refuses st c₂ dir ∨
      ∃ path file p₁ p₂, Makes st c₁ dir path file p₁ ∧ Makes st c₂ dir path file p₂ ∧
        (Settles st c₁ dir path file p₁ → Settles st c₂ dir path file p₂ → p₁ = p₂) := by
  rcases mkdir_returns hc₁.opened hdir ha with ⟨ha1, href₁⟩ | ⟨ha1, path, file, p₁, hm₁⟩
  · rcases mkdir_returns hc₂.opened hdir hb with ⟨-, href₂⟩ | ⟨hb1, -⟩
    · exact Or.inl ⟨href₁, href₂⟩
    · rw [ha1, hb1] at hflag
      cases hflag
  · rcases mkdir_returns hc₂.opened hdir hb with ⟨hb1, -⟩ | ⟨-, path', file', p₂, hm₂⟩
    · rw [ha1, hb1] at hflag
      cases hflag
    · obtain ⟨rfl, rfl⟩ := Prod.mk.inj (Except.ok.inj (hm₁.2.1.symm.trans hm₂.2.1))
      refine Or.inr ⟨path, file, p₁, p₂, hm₁, hm₂, fun hs₁ hs₂ => ?_⟩
      have hcomps : path_components dir ≠ [] := by
        intro hnil
        -- a path without a component leads to the current directory itself
        have hleads := leads_path_components.mpr hm₁.1
        rw [hnil] at hleads
        cases hleads
      obtain ⟨x₁, a', hrun₁, hN₁⟩ := hs₁.new_dir h hc₁ hzero hcomps
      obtain ⟨x₂, b', hrun₂, hN₂⟩ := hs₂.new_dir h hc₂ hzero hcomps
      obtain rfl := Except.ok.inj (hrun₁.symm.trans ha)
      obtain rfl := Except.ok.inj (hrun₂.symm.trans hb)
      exact hN₁.same_parent hN₂ hsame

/-- **Absolute paths.** `chdir` selects the same directory from both current directories
exactly when the components lead to the same place from both. `mkdir` has the same outcome
when both calls refuse or go on in the same parent; and when the two calls return with the
same result and the same tree, they have, as far as the parents have room. -/
theorem absolute_paths_agree (h : DirTree st) (hc₁ : OpenDir st c₁) (hc₂ : OpenDir st c₂)
    (hzero : (0 : UInt8) ∉ dir) (habs : is_absolute dir) :
    (SameChoice st c₁ c₂ dir ↔ LeadsAlike st c₁ c₂ dir) ∧
    (PartsAgree st c₁ c₂ dir → SameMade st c₁ c₂ dir) ∧
    ∀ a b, mkdir st c₁ dir = .ok a → mkdir st c₂ dir = .ok b → a.1 = b.1 → SameTree a.2 b.2 →
      Refuses st c₁ dir ∧ Refuses st c₂ dir ∨
      ∃ path file p₁ p₂, Makes st c₁ dir path file p₁ ∧ Makes st c₂ dir path file p₂ ∧
        (Settles st c₁ dir path file p₁ → Settles st c₂ dir path file p₂ → p₁ = p₂) := by
  have hcnt : Counted st := fun y i hy => (h.inv.opened y i hy).2.2.2
  have hdir := is_absolute_ne_nil habs
  exact ⟨same_choice_iff hcnt hc₁.opened hc₂.opened habs, same_made_of_agree h hc₁ hc₂ hdir,
    fun a b ha hb hflag hsame => agree_of_same_made h hc₁ hc₂ hzero hdir ha hb hflag hsame⟩

end TwoParents

/-! ## Two directories of the small tree -/

/-- Opening inodes of the tree leaves the tree. -/
theorem DirTree.raised {st st' : Store} (h : DirTree st) (hr : Raised st st') (hw : Within st st') :
    DirTree st' := by
  refine ⟨h.inv.raised hr hw, ⟨fun x hx hx0 => ?_, fun x hx hx0 hdir i hi huse => ?_⟩,
    fun x hx hdir => ?_⟩
  · rw [hr.live] at hx
    rw [hr.fs, hr.open_data]
    exact h.tree.read x hx hx0
  · rw [hr.live] at hx
    rw [hr.open_data] at hdir hi
    rw [hr.fs, hr.open_data] at huse ⊢
    rw [hr.live]
    exact h.tree.entries x hx hx0 hdir i hi huse
  · rw [hr.open_data] at hdir ⊢
    exact h.whole x ⟨hr.live ▸ hx.1, hx.2⟩ hdir

/-- The small tree with the directory `d` open as well as the root. -/
def two_dirs : Store :=
  (mounted_on 16).set_inode 5
    (some ⟨5, 1, false, 0, inode_of_sector ((mounted_on 16).fs.disk 5)⟩)

theorem two_dirs_tree : DirTree two_dirs := by
  have hopen : (mounted_on 16).inode_open 5 = .ok two_dirs := rfl
  have hnode : Node (mounted_on 16) 5 := ⟨by decide, by decide⟩
  exact (mounted_on_tree (by norm_num) (by norm_num)).raised (inode_open_raised hopen)
    (inode_open_within (Within.refl _) hnode hopen)

theorem two_dirs_root : OpenDir two_dirs 1 := ⟨⟨by decide, by decide⟩, rfl, by decide⟩

theorem two_dirs_sub : OpenDir two_dirs 5 :=
  ⟨⟨by decide, by decide⟩, by decide +kernel, by decide⟩

/-- `"/x/y"`, which is found from neither directory. -/
theorem absolute_paths_missing : SameChoice two_dirs 1 5 [47, 120, 47, 121] ∧
    SameMade two_dirs 1 5 [47, 120, 47, 121] := by
  have hroot : peek two_dirs 1 [120] = .ok none := by decide +kernel
  have hsub : peek two_dirs 5 [120] = .ok none := by decide +kernel
  have hleads : ∀ c, peek two_dirs c [120] = .ok none →
      ∀ cs, Leads two_dirs c ([] :: [120] :: cs) none := by
    intro c hc cs
    unfold Leads
    rw [if_neg (by decide)]
    unfold Leads
    rw [if_pos (by decide)]
    exact Or.inl ⟨hc, rfl⟩
  have hrefuses : ∀ c, peek two_dirs c [120] = .ok none → Refuses two_dirs c [47, 120, 47, 121] :=
    fun c hc => Or.inr ⟨hleads c hc [[121]], [47, 120], [121], by decide, by decide, hleads c hc []⟩
  have hagree := @absolute_paths_agree two_dirs 1 5 [47, 120, 47, 121] two_dirs_tree
    two_dirs_root two_dirs_sub (by decide) (by decide)
  exact ⟨hagree.1.mpr ⟨none, hleads 1 hroot [[121]], hleads 5 hsub [[121]],
      fun hne => absurd rfl hne⟩,
    hagree.2.1 (Or.inl ⟨hrefuses 1 hroot, hrefuses 5 hsub⟩)⟩

/-- **A leading slash is not looked at.** `chdir ("/d")` succeeds in the root and fails in
`d`. -/
theorem absolute_path_relative : ¬ ∀ (st : Store) (c₁ c₂ : ℕ) (dir : Str), DirTree st →
    OpenDir st c₁ → OpenDir st c₂ → (0 : UInt8) ∉ dir → is_absolute dir →
    SameChoice st c₁ c₂ dir ∧ SameMade st c₁ c₂ dir := by
  intro hall
  obtain ⟨⟨b, d₁, d₂, st₁, st₂, h₁, h₂, -⟩, -⟩ := hall two_dirs 1 5 [47, 100] two_dirs_tree
    two_dirs_root two_dirs_sub (by decide) (by decide)
  have hroot : (chdir two_dirs 1 [47, 100]).map Prod.fst = .ok true := by decide +kernel
  have hsub : (chdir two_dirs 5 [47, 100]).map Prod.fst = .ok false := by decide +kernel
  rw [h₁] at hroot
  rw [h₂] at hsub
  have htrue : b = true := Except.ok.inj hroot
  have hfalse : b = false := Except.ok.inj hsub
  rw [htrue] at hfalse
  cases hfalse

end Pintos.Filesys
