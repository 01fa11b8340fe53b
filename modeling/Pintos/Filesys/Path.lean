/-
Path strings (`lib/string.c`, `filesys/directory.c`).

A C string is the list of its bytes without the final zero. `dir_lookup` and
`parse_path` cut paths with `strtok_r`, which skips runs of slashes; the components
of a path are what `List.splitOn` gives, empty ones included. `tokens_eq` ties the
two together, so the rest of the development speaks of components.
-/
import Pintos.Base
import Mathlib.Data.List.TakeWhile

set_option autoImplicit false

namespace Pintos.Filesys

/-- A C string: its bytes up to the terminating zero. -/
abbrev Str := List UInt8

/-- The character `'/'`. -/
def slash : UInt8 := 47

/-- The string `"."`. -/
def dot : Str := [46]

/-- The string `".."`. -/
def dot_dot : Str := [46, 46]

/-! ## `strtok_r` -/

/-- `strtok_r`: the token and what `save_ptr` points to. -/
def strtok_r (delimiters s : Str) : Option (Str × Str) :=
  let s := s.dropWhile (fun c => c ∈ delimiters)
  if s = [] then none
  else some (s.takeWhile (fun c => c ∉ delimiters),
    (s.dropWhile (fun c => c ∉ delimiters)).drop 1)

/-- `for (token = strtok_r (…); token != NULL; token = strtok_r (NULL, …))`: the tokens
the loop goes through. A round takes a character at least. -/
def token_loop (delimiters : Str) : ℕ → Str → List Str
  | 0, _ => []
  | fuel + 1, s =>
    match strtok_r delimiters s with
    | none => []
    | some (token, save_ptr) => token :: token_loop delimiters fuel save_ptr

/-- The tokens of a path. -/
def tokens (s : Str) : List Str := token_loop [slash] (s.length + 1) s

/-! ## Components -/

/-- The components of a path, the empty ones included. -/
def components (s : Str) : List Str := s.splitOn slash

/-- A component that is followed; `""` and `"."` stay in place. -/
def Moves (c : Str) : Prop := c ≠ [] ∧ c ≠ dot

instance (c : Str) : Decidable (Moves c) := inferInstanceAs (Decidable (_ ∧ _))

theorem splitOn_cons_self (d : UInt8) (s : Str) : (d :: s).splitOn d = [] :: s.splitOn d := by
  rw [List.splitOn, List.splitOnP_cons_eq_if_modifyHead, if_pos (by simp)]
  rfl

/-- Another character belongs to the first part. -/
theorem splitOn_cons_of_ne {d c : UInt8} (hc : c ≠ d) (s : Str) :
    (c :: s).splitOn d = (s.splitOn d).modifyHead (c :: ·) := by
  rw [List.splitOn, List.splitOnP_cons_eq_if_modifyHead, if_neg (by simpa using hc)]
  rfl

/-- The characters of a part are characters of the string. -/
theorem mem_of_mem_splitOn {d : UInt8} {s t : Str} (ht : t ∈ s.splitOn d) {c : UInt8}
    (hc : c ∈ t) : c ∈ s := by
  induction s generalizing t with
  | nil =>
    have hone : List.splitOn d ([] : Str) = [[]] := rfl
    rw [hone, List.mem_singleton] at ht
    rw [ht] at hc
    cases hc
  | cons a s ih =>
    by_cases ha : a = d
    · rw [ha, splitOn_cons_self] at ht
      rcases List.mem_cons.mp ht with rfl | hrest
      · cases hc
      · exact List.mem_cons_of_mem _ (ih hrest hc)
    · obtain ⟨u, l, hul⟩ := List.exists_cons_of_ne_nil (List.splitOn_ne_nil d s)
      rw [splitOn_cons_of_ne ha, hul, List.modifyHead_cons] at ht
      rcases List.mem_cons.mp ht with rfl | hrest
      · rcases List.mem_cons.mp hc with rfl | hcu
        · exact List.mem_cons_self
        · exact List.mem_cons_of_mem _ (ih (by rw [hul]; exact List.mem_cons_self) hcu)
      · exact List.mem_cons_of_mem _
          (ih (by rw [hul]; exact List.mem_cons_of_mem _ hrest) hc)

/-- A first part, and the rest. -/
theorem splitOn_append {d : UInt8} {t : Str} (ht : d ∉ t) (s : Str) :
    (t ++ d :: s).splitOn d = t :: s.splitOn d := by
  unfold List.splitOn
  refine List.splitOnP_append_cons_of_forall_mem (fun c hc => ?_) d (by simp) s
  have hne : c ≠ d := fun heq => ht (heq ▸ hc)
  simpa using hne

/-- A string without the delimiter is one part. -/
theorem splitOn_run {d : UInt8} {t : Str} (ht : d ∉ t) : t.splitOn d = [t] := by
  unfold List.splitOn
  refine List.splitOnP_eq_singleton fun c hc => ?_
  have hne : c ≠ d := fun heq => ht (heq ▸ hc)
  simpa using hne

/-- A path without a slash is one component. -/
theorem components_single {t : Str} (ht : slash ∉ t) : components t = [t] := splitOn_run ht

/-- Leading delimiters give empty parts. -/
theorem splitOn_dropWhile (d : UInt8) (s : Str) :
    ((s.dropWhile (fun c => c = d)).splitOn d).filter (fun c => c ≠ []) =
      (s.splitOn d).filter (fun c => c ≠ []) := by
  induction s with
  | nil => rfl
  | cons c s ih =>
    by_cases hc : c = d
    · rw [List.dropWhile_cons_of_pos (by simp [hc]), ih, hc, splitOn_cons_self]
      simp
    · rw [List.dropWhile_cons_of_neg (by simp [hc])]

theorem notMem_takeWhile (d : UInt8) (s : Str) : d ∉ s.takeWhile (fun c => c ≠ d) := by
  intro hmem
  simpa using List.mem_takeWhile_imp hmem

/-- What the second `while` of `strtok_r` cuts off. -/
theorem takeWhile_append (d : UInt8) (s : Str) : s.dropWhile (fun c => c ≠ d) = [] ∧
      s = s.takeWhile (fun c => c ≠ d) ∨
    s = s.takeWhile (fun c => c ≠ d) ++ d :: (s.dropWhile (fun c => c ≠ d)).drop 1 := by
  have happ := (List.takeWhile_append_dropWhile (p := fun c => c ≠ d) (l := s)).symm
  cases hrest : s.dropWhile (fun c => c ≠ d) with
  | nil =>
    rw [hrest, List.append_nil] at happ
    exact Or.inl ⟨rfl, happ⟩
  | cons c l =>
    have hc : c = d := by
      have hhead := List.head?_dropWhile_not (fun c => c ≠ d) s
      rw [hrest] at hhead
      simpa using hhead
    rw [hrest, hc] at happ
    exact Or.inr happ

/-- A string that does not start with the delimiter starts with a run. -/
theorem takeWhile_ne_nil {d : UInt8} (s : Str)
    (hnil : s.dropWhile (fun c => c = d) ≠ []) :
    (s.dropWhile (fun c => c = d)).takeWhile (fun c => c ≠ d) ≠ [] := by
  obtain ⟨c, l, hcl⟩ := List.exists_cons_of_ne_nil hnil
  have hc := List.head?_dropWhile_not (fun c => decide (c = d)) s
  rw [hcl] at hc
  rw [hcl, List.takeWhile_cons_of_pos (by simpa using hc)]
  exact List.cons_ne_nil _ _

/-- The tokens are the parts that are not empty. -/
theorem token_loop_splitOn (d : UInt8) (fuel : ℕ) (s : Str) (hfuel : s.length < fuel) :
    token_loop [d] fuel s = (s.splitOn d).filter (fun c => c ≠ []) := by
  induction fuel generalizing s with
  | zero => omega
  | succ fuel ih =>
    rw [← splitOn_dropWhile]
    have hlen := List.length_dropWhile_le (fun c => decide (c = d)) s
    have hhead := @takeWhile_ne_nil d s
    unfold token_loop strtok_r
    simp only [List.mem_singleton, ← ne_eq]
    set r := s.dropWhile (fun c => c = d) with hr
    by_cases hnil : r = []
    · rw [hnil]
      rfl
    simp only [if_neg hnil]
    have hhead := hhead hnil
    rcases takeWhile_append d r with ⟨hend, hall⟩ | hsplit
    · have hpos := List.length_pos_of_ne_nil hnil
      have hzero : (List.drop 1 ([] : Str)).length < fuel := by
        rw [List.drop_nil, List.length_nil]
        omega
      rw [hend, ih _ hzero]
      have hsingle := splitOn_run (notMem_takeWhile d r)
      rw [← hall] at hsingle
      rw [hsingle, ← hall]
      simp [hnil, List.splitOn]
    · have hpos := List.length_pos_of_ne_nil hhead
      have hle := congrArg List.length hsplit
      rw [List.length_append, List.length_cons] at hle
      rw [ih _ (by omega)]
      conv_rhs => rw [hsplit, splitOn_append (notMem_takeWhile d r)]
      rw [List.filter_cons_of_pos (by simpa using hhead)]

/-- **`strtok_r` goes through the components** of a path that are not empty. -/
theorem tokens_eq (s : Str) : tokens s = (components s).filter (fun c => c ≠ []) :=
  token_loop_splitOn slash _ s (Nat.lt_succ_self _)

theorem slash_notMem_token {s t : Str} (ht : t ∈ tokens s) : slash ∉ t := by
  have hloop : ∀ (fuel : ℕ) (s : Str), t ∈ token_loop [slash] fuel s → slash ∉ t := by
    intro fuel
    induction fuel with
    | zero =>
      intro s hmem
      cases hmem
    | succ fuel ih =>
      intro s hmem
      unfold token_loop strtok_r at hmem
      simp only [List.mem_singleton, ← ne_eq] at hmem
      by_cases hnil : s.dropWhile (fun c => c = slash) = []
      · rw [if_pos hnil] at hmem
        cases hmem
      · rw [if_neg hnil] at hmem
        rcases List.mem_cons.mp hmem with rfl | hrest
        · exact notMem_takeWhile _ _
        · exact ih _ hrest
  exact hloop _ s ht

theorem token_ne_nil {s t : Str} (ht : t ∈ tokens s) : t ≠ [] := by
  rw [tokens_eq] at ht
  simpa using (List.mem_filter.mp ht).2

example : tokens [47, 97, 47, 47, 98] = [[97], [98]] := by decide

/-! ## `parse_path` -/

/-- `parse_path` into a buffer `file_name` of `size` characters: the directory part and the last
component. Without a token `prev_token` is read uninitialised; a last component that is too long
is written past the end of `file_name`. -/
def parse_path_into (size : ℕ) (full_name : Str) : Res (Str × Str) :=
  if slash ∈ full_name then
    match (tokens full_name).getLast? with
    | none => .error .uninitialised
    | some prev_token =>
      if size < prev_token.length + 1 then .error .bounds
      else .ok (full_name.take (full_name.length - prev_token.length - 1), prev_token)
  else if size < full_name.length + 1 then .error .bounds
  else .ok ([], full_name)

/-- The size of the buffer for the last component that the callers allocate. -/
def file_name_size : ℕ := 14

/-- `parse_path`, as its callers call it. -/
def parse_path (full_name : Str) : Res (Str × Str) := parse_path_into file_name_size full_name

/-- The last component has no slash, and it is empty for the empty path only. -/
theorem parse_path_file {name path file : Str} (h : parse_path name = .ok (path, file)) :
    slash ∉ file ∧ (name ≠ [] → file ≠ []) := by
  unfold parse_path parse_path_into at h
  by_cases hslash : slash ∈ name
  · rw [if_pos hslash] at h
    cases hlast : (tokens name).getLast? with
    | none =>
      rw [hlast] at h
      cases h
    | some t =>
      rw [hlast] at h
      dsimp only at h
      split_ifs at h
      obtain ⟨-, rfl⟩ := Prod.mk.inj (Except.ok.inj h)
      have hmem : t ∈ tokens name := List.mem_of_getLast? hlast
      exact ⟨slash_notMem_token hmem, fun _ => token_ne_nil hmem⟩
  · rw [if_neg hslash] at h
    split_ifs at h
    obtain ⟨-, rfl⟩ := Prod.mk.inj (Except.ok.inj h)
    exact ⟨hslash, id⟩

end Pintos.Filesys
