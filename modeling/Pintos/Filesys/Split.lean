/-
`parse_path` against the components of a path.

The last component is the last token, and `strtok_r` takes a run of slashes for one.
The directory part is cut by length: the string without as many characters as the last
token has, and one for the slash before it. The two agree on a path that ends in its
last component, and on one with a single slash behind it, where the slash that is cut
off is that one. With two slashes behind the last component the cut is too short, and
characters of the last component are left in the directory part.
-/
import Pintos.Filesys.Path

set_option autoImplicit false

namespace Pintos.Filesys

variable {s : Str}

/-! ## The components of a path -/

/-- The components of a path, which are the maximal runs of characters other than a
slash. -/
def path_components (s : Str) : List Str := (components s).filter (fun c => c ≠ [])

/-- A slash parts the components before it from those behind it. -/
theorem path_components_append_slash (a b : Str) :
    path_components (a ++ slash :: b) = path_components a ++ path_components b := by
  unfold path_components components
  rw [List.splitOn_append_cons_self, List.filter_append]

/-- A run without a slash is a component. -/
theorem path_components_run {t : Str} (hne : t ≠ []) (ht : slash ∉ t) :
    path_components t = [t] := by
  unfold path_components
  rw [components_single ht, List.filter_cons_of_pos (by simpa using hne), List.filter_nil]

theorem path_components_nil : path_components [] = [] := rfl

/-- Slashes are no components. -/
theorem path_components_slashes (k : ℕ) : path_components (List.replicate k slash) = [] := by
  induction k with
  | zero => rfl
  | succ k ih =>
    have happ := path_components_append_slash [] (List.replicate k slash)
    rwa [List.nil_append, path_components_nil, List.nil_append, ih] at happ

/-- A string that starts with another character has a component. -/
theorem path_components_cons_ne_nil {c : UInt8} (hc : c ≠ slash) (l : Str) :
    path_components (c :: l) ≠ [] := by
  have hrun : (c :: l).takeWhile (fun c => c ≠ slash) ≠ [] := by
    rw [List.takeWhile_cons_of_pos (by simpa using hc)]
    exact List.cons_ne_nil _ _
  rcases takeWhile_append slash (c :: l) with ⟨-, hall⟩ | hsplit
  · rw [hall, path_components_run hrun (notMem_takeWhile slash _)]
    exact List.cons_ne_nil _ _
  · rw [hsplit, path_components_append_slash,
      path_components_run hrun (notMem_takeWhile slash _)]
    exact List.cons_ne_nil _ _

/-! ## The shape of a path -/

/-- The slashes at the end, cut off. The induction takes the last character. -/
theorem exists_trailing (s : Str) :
    ∃ t k, s = t ++ List.replicate k slash ∧ t.getLast? ≠ some slash := by
  induction s using List.reverseRecOn with
  | nil => exact ⟨[], 0, rfl, by simp⟩
  | append_singleton s c ih =>
    by_cases hc : c = slash
    · obtain ⟨t, k, hs, ht⟩ := ih
      refine ⟨t, k + 1, ?_, ht⟩
      rw [hs, hc, List.replicate_succ', List.append_assoc]
    · refine ⟨s ++ [c], 0, by rw [List.replicate_zero, List.append_nil], ?_⟩
      rw [List.getLast?_concat]
      exact fun h => hc (Option.some.inj h)

/-- The last run, with what stands before it: nothing, or a string that ends in a slash. -/
theorem exists_last_run (t : Str) :
    ∃ dir last, t = dir ++ last ∧ slash ∉ last ∧ (dir = [] ∨ ∃ up, dir = up ++ [slash]) := by
  induction t using List.reverseRecOn with
  | nil => exact ⟨[], [], rfl, by simp, Or.inl rfl⟩
  | append_singleton t c ih =>
    by_cases hc : c = slash
    · exact ⟨t ++ [c], [], by rw [List.append_nil], by simp, Or.inr ⟨t, by rw [hc]⟩⟩
    · obtain ⟨dir, last, ht, hlast, hdir⟩ := ih
      refine ⟨dir, last ++ [c], by rw [ht, List.append_assoc], ?_, hdir⟩
      rw [List.mem_append, List.mem_singleton]
      rintro (h | h)
      · exact hlast h
      · exact hc h.symm

/-- A path as its directory part, its last component and `k` slashes behind it. The
components of the directory part are those of `up`. -/
structure Shape (s dir last : Str) (k : ℕ) : Prop where
  eq : s = dir ++ (last ++ List.replicate k slash)
  ne_nil : last ≠ []
  run : slash ∉ last
  dir : dir = [] ∨ ∃ up, dir = up ++ [slash]

/-- A path with a component has a shape. -/
theorem exists_shape (h : path_components s ≠ []) : ∃ dir last k, Shape s dir last k := by
  obtain ⟨t, k, hs, hend⟩ := exists_trailing s
  obtain ⟨dir, last, ht, hrun, hdir⟩ := exists_last_run t
  refine ⟨dir, last, k, ⟨by rw [hs, ht, List.append_assoc], ?_, hrun, hdir⟩⟩
  rintro rfl
  rw [List.append_nil] at ht
  rcases hdir with rfl | ⟨up, rfl⟩
  · -- nothing but slashes
    rw [hs, ht, List.nil_append, path_components_slashes] at h
    exact h rfl
  · rw [ht, List.getLast?_concat] at hend
    exact hend rfl

namespace Shape

variable {dir last : Str} {k : ℕ}

/-- What comes behind the directory part adds its own components. -/
theorem dir_append (h : Shape s dir last k) (b : Str) :
    path_components (dir ++ b) = path_components dir ++ path_components b := by
  rcases h.dir with rfl | ⟨up, rfl⟩
  · rfl
  · rw [List.append_assoc, List.singleton_append, path_components_append_slash,
      path_components_append_slash, path_components_nil, List.append_nil]

/-- The last component and the slashes behind it are one component. -/
theorem last_component (h : Shape s dir last k) :
    path_components (last ++ List.replicate k slash) = [last] := by
  cases k with
  | zero => rw [List.replicate_zero, List.append_nil, path_components_run h.ne_nil h.run]
  | succ k =>
    rw [List.replicate_succ, path_components_append_slash, path_components_slashes,
      List.append_nil, path_components_run h.ne_nil h.run]

theorem path_components (h : Shape s dir last k) :
    path_components s = Filesys.path_components dir ++ [last] := by
  rw [h.eq, h.dir_append, h.last_component]

theorem length (h : Shape s dir last k) : s.length = dir.length + last.length + k := by
  rw [h.eq, List.length_append, List.length_append, List.length_replicate]
  omega

/-- Two slashes at the end are two behind the last component. -/
theorem two_slashes (h : Shape s dir last k) : [slash, slash] <:+ s ↔ 2 ≤ k := by
  constructor
  · rintro ⟨a, ha⟩
    by_contra hk
    have hlt : k ≤ 1 := by omega
    obtain ⟨b, c, hb⟩ : ∃ b c, last = b ++ [c] :=
      ⟨last.dropLast, last.getLast h.ne_nil, (List.dropLast_append_getLast h.ne_nil).symm⟩
    have hc : c ≠ slash := by
      rintro rfl
      exact h.run (by rw [hb]; simp)
    rw [h.eq, hb] at ha
    rcases Nat.le_one_iff_eq_zero_or_eq_one.mp hlt with rfl | rfl
    · have hend := congrArg List.getLast? ha
      simp [← List.append_assoc] at hend
      exact hc hend.symm
    · have hend := congrArg (fun l => l.dropLast.getLast?) ha
      simp [← List.append_assoc, List.dropLast_append_of_ne_nil] at hend
      exact hc hend.symm
  · intro hk
    refine ⟨dir ++ (last ++ List.replicate (k - 2) slash), ?_⟩
    rw [h.eq, show k = k - 2 + 2 by omega, List.replicate_add]
    simp [List.replicate_succ]

/-- **The cut.** Without one character for each of the last token and one more, the
components of the directory part are left exactly when at most one slash stands behind
the last component. -/
theorem cut (h : Shape s dir last k) (hslash : slash ∈ s) :
    Filesys.path_components (s.take (s.length - last.length - 1)) =
      Filesys.path_components dir ↔ k ≤ 1 := by
  have hlen := h.length
  rcases Nat.lt_or_ge k 1 with hk | hk
  · -- no slash behind: the one that is cut off stands before the last component
    obtain rfl : k = 0 := by omega
    refine iff_of_true ?_ (Nat.zero_le 1)
    rcases h.dir with rfl | ⟨up, rfl⟩
    · refine absurd hslash ?_
      rw [h.eq, List.replicate_zero, List.append_nil, List.nil_append]
      exact h.run
    · have htake : s.take (s.length - last.length - 1) = up := by
        rw [hlen, h.eq, List.length_append, List.length_singleton, List.append_assoc]
        rw [List.take_append_of_le_length (by omega), List.take_of_length_le (by omega)]
      rw [htake, path_components_append_slash, path_components_nil, List.append_nil]
  · have htake : s.take (s.length - last.length - 1) =
        dir ++ (last ++ List.replicate k slash).take (k - 1) := by
      rw [show s.length - last.length - 1 = dir.length + (k - 1) by omega, h.eq,
        List.take_length_add_append]
    rw [htake, h.dir_append, List.append_right_eq_self]
    constructor
    · intro hnil
      by_contra hk'
      obtain ⟨c, l, hcl⟩ := List.exists_cons_of_ne_nil h.ne_nil
      have hc : c ≠ slash := by
        rintro rfl
        exact h.run (by rw [hcl]; simp)
      obtain ⟨m, hm⟩ : ∃ m, k - 1 = m + 1 := ⟨k - 2, by omega⟩
      rw [hm, hcl, List.cons_append, List.take_succ_cons] at hnil
      exact path_components_cons_ne_nil hc _ hnil
    · intro hk'
      rw [show k - 1 = 0 by omega, List.take_zero, path_components_nil]

end Shape

/-! ## `parse_path` -/

/-- The call returns, with the last component in `file_name` and all the others in
`path`. -/
def Splits (size : ℕ) (full_name : Str) : Prop :=
  ∃ path file_name, parse_path_into size full_name = .ok (path, file_name) ∧
    path_components full_name = path_components path ++ [file_name]

/-- **`parse_path` splits a path** exactly when the last component fits the buffer and
the path does not end in two slashes. -/
theorem parse_path_splits {size : ℕ} (h : path_components s ≠ []) :
    Splits size s ↔
      (∀ c, (path_components s).getLast? = some c → c.length < size) ∧
        ¬ [slash, slash] <:+ s := by
  obtain ⟨dir, last, k, hshape⟩ := exists_shape h
  have hcomps := hshape.path_components
  have hlast : (path_components s).getLast? = some last := by
    rw [hcomps, List.getLast?_concat]
  have hfit : (∀ c, (path_components s).getLast? = some c → c.length < size) ↔
      last.length < size := by
    rw [hlast]
    exact ⟨fun hc => hc last rfl, fun hlt c hc => Option.some.inj hc ▸ hlt⟩
  have htoken : (tokens s).getLast? = some last := by
    rw [tokens_eq]
    exact hlast
  rw [hfit, hshape.two_slashes, not_le, Nat.lt_succ_iff]
  unfold Splits parse_path_into
  by_cases hslash : slash ∈ s
  · rw [if_pos hslash, htoken]
    dsimp only
    by_cases hroom : last.length < size
    · rw [if_neg (by omega), ← hshape.cut hslash, hcomps]
      constructor
      · rintro ⟨path, file_name, hrun, hsplit⟩
        obtain ⟨rfl, rfl⟩ := Prod.mk.inj (Except.ok.inj hrun)
        exact ⟨hroom, (List.append_cancel_right hsplit).symm⟩
      · rintro ⟨-, hcut⟩
        exact ⟨_, _, rfl, by rw [hcut]⟩
    · rw [if_pos (by omega)]
      refine iff_of_false ?_ (fun hand => hroom hand.1)
      rintro ⟨path, file_name, hrun, -⟩
      cases hrun
  · -- one component, and no directory part
    rw [if_neg hslash]
    have hk : k = 0 := by
      by_contra hne
      apply hslash
      rw [hshape.eq, List.mem_append, List.mem_append, List.mem_replicate]
      exact Or.inr (Or.inr ⟨hne, rfl⟩)
    have hdir : dir = [] := by
      rcases hshape.dir with hnil | ⟨up, hup⟩
      · exact hnil
      · refine absurd ?_ hslash
        rw [hshape.eq, hup]
        simp
    obtain rfl : s = last := by
      rw [hshape.eq, hdir, hk, List.nil_append, List.replicate_zero, List.append_nil]
    by_cases hroom : s.length < size
    · rw [if_neg (by omega)]
      exact iff_of_true ⟨[], s, rfl, hcomps.trans (by rw [hdir])⟩ ⟨hroom, by omega⟩
    · rw [if_pos (by omega)]
      refine iff_of_false ?_ (fun hand => hroom hand.1)
      rintro ⟨path, file_name, hrun, -⟩
      cases hrun

/-- `"/a/b/"` is split, `"/a/b//"` is not. -/
theorem parse_path_splits_small :
    Splits file_name_size [47, 97, 47, 98, 47] ∧
      ¬ Splits file_name_size [47, 97, 47, 98, 47, 47] := by
  constructor
  · apply (parse_path_splits (by decide)).mpr
    exact ⟨fun c hc => by rw [← Option.some.inj hc]; decide, by decide⟩
  · rw [parse_path_splits (by decide)]
    exact fun h => h.2 (by decide)

/-- **Two slashes at the end.** `"/a/b//"` is cut into `"/a/b"` and `"b"`. -/
theorem trailing_slashes_missplit : ¬ ∀ (size : ℕ) (full_name : Str),
    path_components full_name ≠ [] →
    (∀ c, (path_components full_name).getLast? = some c → c.length < size) →
    Splits size full_name := by
  intro hall
  obtain ⟨path, file_name, hrun, hsplit⟩ := hall 14 [47, 97, 47, 98, 47, 47] (by decide)
    (fun c hc => by rw [← Option.some.inj hc]; decide)
  have hcut : parse_path_into 14 [47, 97, 47, 98, 47, 47] = .ok ([47, 97, 47, 98], [98]) := by
    decide
  obtain ⟨rfl, rfl⟩ := Prod.mk.inj (Except.ok.inj (hcut.symm.trans hrun))
  exact absurd hsplit (by decide)

end Pintos.Filesys
