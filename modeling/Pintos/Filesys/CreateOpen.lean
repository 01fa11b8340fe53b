/-
`filesys_create`, and the `filesys_open` that follows it.

Both cut the path with `parse_path` and look the directory part up. For a directory part that is
empty `filesys_create` calls `dir_lookup` all the same, which gives the current directory for an
empty path, so a file called `"/x"` is made there. `filesys_open` opens the root.
-/
import Pintos.Filesys.NewFile

set_option autoImplicit false

namespace Pintos.Filesys

open Pintos.Kernel WordImage

/-! ## Paths -/

/-- Components joined by single slashes, with one before them in an absolute path. -/
def joined (absolute : Bool) (cs : List Str) : Str :=
  (if absolute then [slash] else []) ++ [slash].intercalate cs

/-- A path of components of 1 to 13 characters joined by single slashes, the last of them neither
`"."` nor `".."`. -/
structure Spelt (name : Str) (absolute : Bool) (init : List Str) (last : Str) : Prop where
  eq : name = joined absolute (init ++ [last])
  component : ∀ c ∈ init ++ [last], c ≠ [] ∧ c.length ≤ 13 ∧ slash ∉ c ∧ (0 : UInt8) ∉ c
  last : last ≠ dot ∧ last ≠ dot_dot

/-- The directory part, without the slash behind it. -/
def dir_part (absolute : Bool) (init : List Str) : Str :=
  if init = [] then [] else joined absolute init

section Spelling

variable {name last : Str} {absolute : Bool} {init cs : List Str}

theorem path_components_intercalate (h : ∀ c ∈ cs, c ≠ [] ∧ slash ∉ c) :
    path_components ([slash].intercalate cs) = cs := by
  induction cs with
  | nil => rfl
  | cons c cs ih =>
    obtain ⟨hne, hrun⟩ := h c List.mem_cons_self
    cases cs with
    | nil => rw [List.intercalate_singleton, path_components_run hne hrun]
    | cons c' cs =>
      rw [List.intercalate_cons_cons, List.append_assoc, List.singleton_append,
        path_components_append_slash, path_components_run hne hrun,
        ih fun d hd => h d (List.mem_cons_of_mem c hd)]
      rfl

theorem path_components_joined (h : ∀ c ∈ cs, c ≠ [] ∧ slash ∉ c) :
    path_components (joined absolute cs) = cs := by
  cases absolute with
  | false => exact path_components_intercalate h
  | true =>
    change path_components ([] ++ slash :: [slash].intercalate cs) = cs
    rw [path_components_append_slash, path_components_nil, List.nil_append,
      path_components_intercalate h]

theorem intercalate_concat (hinit : init ≠ []) :
    [slash].intercalate (init ++ [last]) = [slash].intercalate init ++ slash :: last := by
  induction init with
  | nil => exact absurd rfl hinit
  | cons c init ih =>
    cases init with
    | nil => simp
    | cons c' init =>
      rw [List.cons_append, List.intercalate_cons_of_ne_nil (by simp), ih (by simp),
        List.intercalate_cons_cons]
      simp

theorem joined_concat (hinit : init ≠ []) :
    joined absolute (init ++ [last]) = joined absolute init ++ slash :: last := by
  unfold joined
  rw [intercalate_concat hinit, List.append_assoc]

/-- The first character of the first component. -/
theorem intercalate_head (h : ∀ c ∈ cs, c ≠ [] ∧ slash ∉ c) :
    ([slash].intercalate cs).head? ≠ some slash := by
  cases cs with
  | nil => simp
  | cons c cs =>
    obtain ⟨hne, hrun⟩ := h c List.mem_cons_self
    obtain ⟨b, c, rfl⟩ := List.exists_cons_of_ne_nil hne
    rw [List.intercalate_cons_cons_left, List.head?_cons]
    intro hb
    exact hrun (Option.some.inj hb ▸ List.mem_cons_self)

/-- `parse_path` of a path whose last component has a slash before it. -/
theorem parse_path_cut {dir : Str} (hne : last ≠ []) (hrun : slash ∉ last)
    (hlen : last.length ≤ 13) : parse_path (dir ++ slash :: last) = .ok (dir, last) := by
  have htoken : (tokens (dir ++ slash :: last)).getLast? = some last := by
    rw [tokens_eq]
    change (path_components (dir ++ slash :: last)).getLast? = some last
    rw [path_components_append_slash, path_components_run hne hrun, List.getLast?_concat]
  have hcut :
      (dir ++ slash :: last).take ((dir ++ slash :: last).length - last.length - 1) = dir := by
    have hlength : dir.length + (last.length + 1) - last.length - 1 = dir.length := by omega
    rw [List.length_append, List.length_cons, hlength, List.take_left]
  have hsize : file_name_size = 14 := rfl
  unfold parse_path parse_path_into
  rw [if_pos (by simp), htoken]
  dsimp only
  rw [if_neg (by omega), hcut]

namespace Spelt

variable (h : Spelt name absolute init last)

include h

theorem of_mem {c : Str} (hc : c ∈ init) : c ≠ [] ∧ slash ∉ c := by
  obtain ⟨hne, -, hrun, -⟩ := h.component c (List.mem_append_left _ hc)
  exact ⟨hne, hrun⟩

theorem of_last : last ≠ [] ∧ last.length ≤ 13 ∧ slash ∉ last ∧ (0 : UInt8) ∉ last :=
  h.component last (List.mem_append_right _ (List.mem_singleton_self last))

theorem moves : Moves last := ⟨h.of_last.1, h.last.1⟩

theorem path_components : path_components (dir_part absolute init) = init := by
  unfold dir_part
  by_cases hinit : init = []
  · rw [if_pos hinit, hinit, path_components_nil]
  · rw [if_neg hinit, path_components_joined fun c hc => h.of_mem hc]

theorem dir_part_eq_nil : dir_part absolute init = [] ↔ init = [] := by
  refine ⟨fun hnil => ?_, fun hinit => if_pos hinit⟩
  have hcomps := h.path_components
  rw [hnil, path_components_nil] at hcomps
  exact hcomps.symm

/-- What `parse_path` makes of the path. -/
theorem parse : parse_path name = .ok (dir_part absolute init, last) := by
  obtain ⟨hne, hlen, hrun, -⟩ := h.of_last
  have hsize : file_name_size = 14 := rfl
  rw [h.eq]
  unfold dir_part
  by_cases hinit : init = []
  · rw [if_pos hinit, hinit]
    cases absolute with
    | true => simpa [joined] using @parse_path_cut last [] hne hrun hlen
    | false =>
      have hname : joined false ([] ++ [last]) = last := by simp [joined]
      unfold parse_path parse_path_into
      rw [hname, if_neg hrun, if_neg (by omega)]
  · rw [if_neg hinit, joined_concat hinit, parse_path_cut hne hrun hlen]

theorem absolute_iff : is_absolute name ↔ absolute = true := by
  have hhead := @intercalate_head (init ++ [last]) fun c hc =>
    ⟨(h.component c hc).1, (h.component c hc).2.2.1⟩
  unfold is_absolute
  rw [h.eq]
  cases absolute with
  | true => exact iff_of_true rfl rfl
  | false => exact iff_of_false hhead (by simp)

/-- No second slash follows the first. -/
theorem second (habs : is_absolute name) : (name.drop 1).head? ≠ some slash := by
  have hhead := @intercalate_head (init ++ [last]) fun c hc =>
    ⟨(h.component c hc).1, (h.component c hc).2.2.1⟩
  rw [h.absolute_iff] at habs
  rw [h.eq, habs]
  exact hhead

end Spelt

end Spelling

/-! ## Create, then open -/

/-- The directory the prefix of a path denotes. -/
def Denotes (st : Store) (c : ℕ) (name : Str) (init : List Str) (d : ℕ) : Prop :=
  resolve st (start_dir c name) init = some d ∧ (st.open_data d).isdir = true

/-- `filesys_open` opens the inode that `filesys_create` has made, and the entry for it is in the
directory that the prefix denotes. -/
def Agrees (st st₁ : Store) (c : ℕ) (name : Str) (init : List Str) (last : Str) : Prop :=
  ∃ x d st₂, st₁.live = x :: st.live ∧ x ∉ st.live ∧
    filesys_open st₁ (some c) name = .ok (some x, st₂) ∧ Denotes st c name init d ∧
    entry_sector st₁ d last = some x

section Calls

variable {st st' st₁ : Store} {c d x n : ℕ} {name last path : Str} {absolute : Bool}
  {init : List Str}

/-- Everything on the way is a directory. -/
theorem Denotes.dirs (hd : Denotes st c name init d) (h : Rooted st) (hc : OpenDir st c)
    (hs : Spelt name absolute init last) :
    Dirs st (start_dir c name) (components (dir_part absolute init)) := by
  have hdirs := resolve_dirs init hd.1 hd.2
  rw [← hs.path_components] at hdirs
  exact (Dirs.filter _ (h.start hc name).2).mp hdirs

/-- The directory part leads to the directory the prefix denotes, if it is not empty. -/
theorem Denotes.part {d₀ : ℕ} (hd : Denotes st c name init d₀) (h : Rooted st) (hc : OpenDir st c)
    (hs : Spelt name absolute init last)
    (hpart : DirPart st (some c) name (dir_part absolute init) d) :
    d = if init = [] then c else d₀ := by
  obtain ⟨hnode, hdir⟩ := h.start hc name
  have hdirs := hd.dirs h hc hs
  rcases hpart.resolves h hc hdirs with ⟨hnil, hdc⟩ | ⟨hne, -, hresolve⟩
  · rw [if_pos (hs.dir_part_eq_nil.mp hnil), hdc]
  · rw [if_neg fun hinit => hne (hs.dir_part_eq_nil.mpr hinit)]
    have hplain := (resolve_dirs init hd.1 hd.2).file_before
    have hleads := (h.tree.leads_iff init hnode hdir hplain _).mpr hd.1.symm
    rw [← hs.path_components, leads_path_components, h.tree.leads_iff _ hnode hdir
      hdirs.file_before, hresolve] at hleads
    exact (Option.some.inj hleads).symm

/-- With no components before the last the prefix denotes the directory a path starts from. -/
theorem Denotes.nil (hd : Denotes st c name [] d) : d = start_dir c name :=
  (Option.some.inj hd.1).symm

/-- `filesys_open` looks a directory part up as `filesys_remove` does. -/
theorem open_dir_eq (hs : Spelt name absolute init last) :
    open_dir st c name (dir_part absolute init) =
      remove_dir st c name (dir_part absolute init) := by
  by_cases hinit : init = []
  · rw [hs.dir_part_eq_nil.mpr hinit]
    rfl
  have hne : dir_part absolute init ≠ [] := fun hnil => hinit (hs.dir_part_eq_nil.mp hnil)
  unfold open_dir remove_dir
  rw [if_neg hne, if_neg hne]
  by_cases habs : is_absolute name
  · simp only [if_neg (hs.second habs)]
  · rw [if_neg habs, if_neg habs]

/-- The file that is open afterwards. -/
theorem NewFile.filesys_open (hN : NewFile st st₁ d last x) (h : Rooted st) (hc : OpenDir st c)
    (hs : Spelt name absolute init last) (hd : Denotes st c name init d) (hgone : ¬ Gone st c)
    (hpart : DirPart st (some c) name (dir_part absolute init) d) :
    ∃ st₂, Filesys.filesys_open st₁ (some c) name = .ok (some x, st₂) := by
  obtain ⟨inode, hinode⟩ := Option.ne_none_iff_exists'.mp hc.opened
  obtain ⟨i, hi, hremoved⟩ := hN.opened c inode hinode
  have hthere : ¬ i.removed = true := fun hr => hgone ⟨inode, hinode, hremoved ▸ hr⟩
  obtain ⟨st₂, hdir, hA⟩ := hN.remove_dir h hc (hd.dirs h hc hs) hpart
  have hsame : (if dir_part absolute init = [] then start_dir c name else d) = d := by
    by_cases hinit : init = []
    · rw [hinit] at hd
      rw [if_pos (hs.dir_part_eq_nil.mpr hinit), hd.nil]
    · rw [if_neg fun hnil => hinit (hs.dir_part_eq_nil.mp hnil)]
  rw [hsame] at hdir hA
  rw [← open_dir_eq hs] at hdir
  obtain ⟨hnode, -⟩ := hpart.node h hc (hd.dirs h hc hs)
  have hleads : Leads st₁ d (components last) (some x) := by
    rw [components_single hs.of_last.2.2.1]
    exact hN.leads_new hnode hs.moves
  obtain ⟨hgo, -⟩ := dir_lookup_leads hA.opened hA.open_dir (some c) hs.of_last.1
  obtain ⟨st₃, hlookup, -⟩ := hgo _ hleads
  refine ⟨st₃, ?_⟩
  unfold Filesys.filesys_open
  rw [hs.parse, ok_bind]
  dsimp only
  rw [deref_eq_ok.mpr hi, ok_bind, if_neg hthere, hdir, ok_bind]
  unfold open_in
  dsimp only
  rw [hlookup, ok_bind]
  unfold looked_up
  rw [if_neg hs.of_last.2.2.1]
  rfl

/-- **`filesys_create` and `filesys_open` agree** on a path exactly when the prefix denotes a
directory, and the path is not that of a file in the root, made from another directory. -/
theorem create_open_agree (h : Rooted st) (hc : OpenDir st c) (hs : Spelt name absolute init last)
    (hspace : ∀ d, DirPart st (some c) name (dir_part absolute init) d →
      CreateSpace st.fs n (st.open_data d))
    (hrun : filesys_create st (some c) name n = .ok (true, st₁)) :
    Agrees st st₁ c name init last ↔ (∃ d, Denotes st c name init d) ∧
      (init = [] → is_absolute name → c = ROOT_DIR_SECTOR) := by
  have hmade : ∀ {d₀}, Denotes st c name init d₀ → ¬ Gone st c ∧ ∃ x,
      DirPart st (some c) name (dir_part absolute init) (if init = [] then c else d₀) ∧
        NewFile st st₁ (if init = [] then c else d₀) last x := by
    intro d₀ hd
    obtain ⟨hgone, d, x, hpart, hN⟩ := filesys_create_new_file h hc hs.parse hs.of_last.2.2.2
      (hd.dirs h hc hs) hspace hrun
    obtain rfl := hd.part h hc hs hpart
    exact ⟨hgone, x, hpart, hN⟩
  constructor
  · rintro ⟨x, d, st₂, -, hfresh, -, hd, hentry⟩
    refine ⟨⟨d, hd⟩, fun hinit habs => ?_⟩
    by_contra hne
    obtain ⟨-, y, -, hN⟩ := hmade hd
    rw [hinit] at hd
    obtain rfl : d = ROOT_DIR_SECTOR := hd.nil.trans (if_pos habs)
    -- the root has the entries it had, and they name inodes that were there
    rw [if_pos hinit] at hN
    rw [hN.others ROOT_DIR_SECTOR h.root (Ne.symm hne)] at hentry
    have hfollow : follow st ROOT_DIR_SECTOR last = some x := by
      rw [follow, if_pos hs.moves, hentry]
    exact hfresh (h.tree.node_follow h.root h.root_isdir hfollow).1
  · rintro ⟨⟨d, hd⟩, hroot⟩
    obtain ⟨hgone, x, hpart, hN⟩ := hmade hd
    have hsame : (if init = [] then c else d) = d := by
      by_cases hinit : init = []
      · rw [hinit] at hd
        rw [if_pos hinit, hd.nil, start_dir]
        by_cases habs : is_absolute name
        · rw [if_pos habs, hroot hinit habs]
        · rw [if_neg habs]
      · rw [if_neg hinit]
    rw [hsame] at hpart hN
    obtain ⟨st₂, hopen⟩ := hN.filesys_open h hc hs hd hgone hpart
    exact ⟨x, d, st₂, hN.live, hN.fresh, hopen, hd, by rw [hN.entry, if_pos rfl]⟩

end Calls

/-! ## Files of the small tree -/

/-- `"/d/x"`, made and opened from the directory `d`. -/
theorem create_open_agree_sub : ∃ st₁,
    filesys_create two_dirs (some 5) [47, 100, 47, 120] 512 = .ok (true, st₁) ∧
      Agrees two_dirs st₁ 5 [47, 100, 47, 120] [[100]] [120] := by
  obtain ⟨st₁, hrun⟩ := @exists_of_created (filesys_create two_dirs (some 5) [47, 100, 47, 120] 512)
    (by decide +kernel)
  have hs : Spelt [47, 100, 47, 120] true [[100]] [120] := ⟨by decide, by decide, by decide⟩
  have hd : Denotes two_dirs 5 [47, 100, 47, 120] [[100]] 5 := by
    unfold Denotes
    decide +kernel
  refine ⟨st₁, hrun, (create_open_agree two_dirs_rooted two_dirs_sub hs (fun d hpart => ?_)
    hrun).mpr ⟨⟨5, hd⟩, fun hinit => absurd hinit (by decide)⟩⟩
  obtain rfl : d = 5 := hd.part two_dirs_rooted two_dirs_sub hs hpart
  exact two_dirs_space.2

/-- **A file in the root**, made from another directory: `filesys_create ("/x")` in `d` makes `x`
in `d`, and `filesys_open ("/x")` does not find it. -/
theorem create_open_disagree : ¬ ∀ (st st₁ : Store) (c n : ℕ) (name : Str) (absolute : Bool)
    (init : List Str) (last : Str), Rooted st → OpenDir st c → Spelt name absolute init last →
    filesys_create st (some c) name n = .ok (true, st₁) → Agrees st st₁ c name init last := by
  intro hall
  obtain ⟨st₁, hrun⟩ := @exists_of_created (filesys_create two_dirs (some 5) [47, 120] 512)
    (by decide +kernel)
  have hopen : (filesys_create two_dirs (some 5) [47, 120] 512 >>= fun r =>
      (filesys_open r.2 (some 5) [47, 120]).map Prod.fst) = .ok none := by
    decide +kernel
  obtain ⟨x, -, st₂, -, -, hfound, -⟩ := hall two_dirs st₁ 5 512 [47, 120] true [] [120]
    two_dirs_rooted two_dirs_sub ⟨by decide, by decide, by decide⟩ hrun
  rw [hrun, ok_bind, hfound] at hopen
  cases hopen

end Pintos.Filesys
