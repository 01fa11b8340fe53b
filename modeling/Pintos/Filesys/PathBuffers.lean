/-
`parse_path` (`filesys/directory.c`) on the buffers of its callers.

`filesys_open`, `filesys_create`, `filesys_remove` and `mkdir` pass a buffer of `strlen + 1` bytes
for the directory part and one of 14 bytes for the last component, both filled with zeros. The
last component is copied with its own length, and without one `prev_token` was never assigned.
`malloc` returns null or a block with arbitrary contents; `memset` asserts that it is not null.
-/
import Pintos.Lib.Tokenize
import Pintos.Filesys.Split

set_option autoImplicit false

namespace Pintos.Filesys.Buffers

open Pintos.Lib.Strings
open Pintos.Filesys (Str slash file_name_size)

/-! ## The code -/

/-- The loop that sets `has_delimiter`. -/
def delimiter_loop (full_name : Block) : ℕ → ℕ → Res Bool
  | 0, _ => .error .diverge
  | fuel + 1, i => do
    let n ← strlen full_name 0
    if i < n then do
      let c ← load full_name i
      if c = slash then return true else delimiter_loop full_name fuel (i + 1)
    else return false

/-- The loop over the tokens: `prev_token` and the block in the end. `none` is a `prev_token` that
was never assigned. -/
def prev_token_loop (delimiters : Block) :
    ℕ → Block → Option ℕ → Option ℕ → Option ℕ → Res (Option ℕ × Block)
  | 0, _, _, _, _ => .error .diverge
  | fuel + 1, b, s, save_ptr, prev_token => do
    let r ← Lib.Strings.strtok_r b s delimiters save_ptr
    match r.1 with
    | none => return (prev_token, r.2.1)
    | some token => prev_token_loop delimiters fuel r.2.1 none (some r.2.2) (some token)

/-- `parse_path`: the buffers afterwards. -/
def parse_path (malloc : ℕ → Option (ℕ → UInt8)) (full_name path file_name : Block) :
    Res (Block × Block) := do
  let has_delimiter ← delimiter_loop full_name (full_name.length + 1) 0
  let n ← strlen full_name 0
  if has_delimiter then
    match malloc (n + 1) with
    | none => .error .assertion
    | some memory => do
      let full_name_copy ← memset ((List.range (n + 1)).map memory) 0 nul (n + 1)
      let full_name_copy ← memcpy full_name_copy 0 full_name 0 n
      let path ← memset path 0 nul (n + 1)
      let r ← prev_token_loop (c_string [slash]) (full_name_copy.length + 1) full_name_copy (some 0)
        none none
      match r.1 with
      | none => .error .uninitialised
      | some prev_token => do
        let file_name_len ← strlen r.2 prev_token
        let file_name ← memset file_name 0 nul (file_name_len + 1)
        let file_name ← memcpy file_name 0 r.2 prev_token file_name_len
        -- a size below zero would wrap
        if n < file_name_len + 1 then .error .bounds
        else do
          let path ← memcpy path 0 full_name 0 (n - file_name_len - 1)
          return (path, file_name)
  else do
    let file_name ← memcpy file_name 0 full_name 0 (n + 1)
    return (path, file_name)

/-- The call, with the buffers that the callers make. -/
def call (malloc : ℕ → Option (ℕ → UInt8)) (name : Str) : Res (Block × Block) :=
  parse_path malloc (c_string name) (List.replicate (name.length + 1) nul)
    (List.replicate file_name_size nul)

/-! ## The loops -/

variable {name s d : Str} {b : Block} {p : ℕ}

/-- The loop looks for a slash. The induction is on the turns that are left. -/
theorem delimiter_loop_spec (hs : nul ∉ s) : ∀ fuel i, i ≤ s.length → s.length - i < fuel →
    delimiter_loop (c_string s) fuel i = .ok (decide (slash ∈ s.drop i)) := by
  intro fuel
  induction fuel with
  | zero => omega
  | succ fuel ih =>
    intro i hi hfuel
    rw [delimiter_loop, (pointsTo_c_string hs).strlen, ok_bind]
    rcases Nat.eq_or_lt_of_le hi with rfl | hlt
    · rw [if_neg (lt_irrefl _), List.drop_length]
      rfl
    · have hget := c_string_get (List.getElem?_eq_getElem hlt)
      rw [if_pos hlt, load_eq hget, ok_bind, List.drop_eq_getElem_cons hlt]
      by_cases hc : s[i] = slash
      · rw [if_pos hc, hc, decide_eq_true List.mem_cons_self]
        rfl
      · rw [if_neg hc, ih (i + 1) hlt (by omega)]
        have hmem : slash ∈ s[i] :: s.drop (i + 1) ↔ slash ∈ s.drop (i + 1) := by
          rw [List.mem_cons]
          exact or_iff_right (Ne.symm hc)
        simp only [hmem]

/-- The loop over the tokens ends with the last of them. The induction is on the turns that are
left. -/
theorem prev_token_loop_spec (hs : nul ∉ s) (hd : nul ∉ d) : ∀ fuel p b str save_ptr prev_token,
    Uncut b s p → p ≤ s.length → b.length = s.length + 1 →
    Option.or str save_ptr = some p → s.length - p < fuel →
    ∃ runs : List (ℕ × ℕ),
      Tokens s p (List.replicate (runs.length + 1) d) (runs.map some ++ [none]) ∧
      prev_token_loop (c_string d) fuel b str save_ptr prev_token
        = .ok ((runs.getLast?.map Prod.fst).or prev_token, cut b (runs.map Prod.snd)) := by
  intro fuel
  induction fuel with
  | zero => omega
  | succ fuel ih =>
    intro p b str save_ptr prev_token hb hp hlen hstart hfuel
    rw [prev_token_loop]
    rcases strtok_r_spec hs hd hb hp hlen hstart with ⟨hnone, hcall⟩ | ⟨i, j, hrun, hcall⟩
    · refine ⟨[], .null hnone .nil, ?_⟩
      rw [hcall, ok_bind, List.map_nil, cut_nil]
      rfl
    · have h1 := hrun.from_le
      have h2 := hrun.lt
      have h3 := hrun.le
      obtain ⟨runs, htokens, hloop⟩ := ih (min (j + 1) s.length) (cut b [j]) none
        (some (min (j + 1) s.length)) (some i) (hb.cut hp (by omega)) (min_le_right _ _)
        (by rw [cut_length, hlen]) rfl (by omega)
      refine ⟨(i, j) :: runs, .token hrun htokens, ?_⟩
      rw [hcall, ok_bind]
      dsimp only
      rw [hloop, cut_cut, List.getLast?_cons]
      cases runs.getLast? <;> rfl

/-- **The last token of a path**, with a null pointer for a path that has none. -/
theorem last_token_spec (hs : nul ∉ s) : ∃ q b', prev_token_loop (c_string [slash])
      ((c_string s).length + 1) (c_string s) (some 0) none none = .ok (q, b') ∧
    match (tokens s).getLast? with
    | none => q = none
    | some t => ∃ i, q = some i ∧ PointsTo b' i t := by
  obtain ⟨runs, htokens, hloop⟩ := prev_token_loop_spec hs (show nul ∉ [slash] by decide)
    ((c_string s).length + 1) 0 (c_string s) (some 0) none none (uncut_self s) (Nat.zero_le _)
    (c_string_length s) rfl (by rw [c_string_length]; omega)
  have hids : (runs.map some ++ [none]).filterMap id = runs := by
    rw [List.filterMap_append, List.filterMap_map, List.filterMap_cons_none rfl]
    simp
  have hends : ends (runs.map some ++ [none]) = runs.map Prod.snd := by
    rw [ends, List.filterMap_append, List.filterMap_map, List.filterMap_cons_none rfl]
    simp
  have htexts : tokens s = runs.map (fun r => (s.take r.2).drop r.1) := by
    have hall := htokens.token_loop rfl (by simp) (Nat.zero_le _)
      (show s.length - 0 < s.length + 1 by omega)
    rw [List.drop_zero, hids] at hall
    exact hall
  refine ⟨_, _, hloop, ?_⟩
  rw [htexts, List.getLast?_map]
  cases hlast : runs.getLast? with
  | none => rfl
  | some r =>
    have hmem : some r ∈ runs.map some ++ [none] :=
      List.mem_append_left _ (List.mem_map_of_mem (List.mem_of_getLast? hlast))
    have hpoints := htokens.pointsTo (i := r.1) (j := r.2) hs hmem
    rw [hends] at hpoints
    exact ⟨r.1, rfl, hpoints⟩

/-! ## The buffers -/

variable {malloc : ℕ → Option (ℕ → UInt8)} {t : Str} {n : ℕ}

/-- A buffer of `n` bytes with a string and zeros behind it. -/
def padded (n : ℕ) (t : Str) : Block := t ++ List.replicate (n - t.length) nul

theorem padded_length (h : t.length ≤ n) : (padded n t).length = n := by
  rw [padded, List.length_append, List.length_replicate, Nat.add_sub_cancel' h]

/-- The copy that `strtok_r` cuts is the string. -/
theorem memcpy_full_name (hs : nul ∉ s) :
    memcpy (List.replicate (s.length + 1) nul) 0 (c_string s) 0 s.length = .ok (c_string s) := by
  rw [(pointsTo_c_string hs).memcpy le_rfl (Nat.le_succ _), List.take_length,
    Nat.succ_sub (le_refl _), Nat.sub_self]
  rfl

/-- A name without a slash is copied with its NUL. -/
theorem memcpy_name (s : Str) (n : ℕ) :
    memcpy (List.replicate n nul) 0 (c_string s) 0 (s.length + 1) =
      if n < s.length + 1 then .error .bounds else .ok (padded n s) := by
  have hlen := c_string_length s
  rw [memcpy, if_pos (by omega), List.drop_zero, ← hlen, List.take_length]
  by_cases hn : n < (c_string s).length
  · rw [if_pos hn, overwrite, if_neg (by simpa using hn)]
  · have hcount : n - s.length = 1 + (n - (s.length + 1)) := by omega
    rw [if_neg hn, overwrite_start (by simpa using hn), List.drop_replicate, hlen, padded, hcount,
      List.replicate_add, c_string, List.append_assoc]
    rfl

/-- The last component is shorter than a path with a slash. -/
theorem last_token_lt (hslash : slash ∈ s) (ht : (tokens s).getLast? = some t) :
    t.length < s.length := by
  have htokens : tokens s = path_components s := tokens_eq s
  have hcomps : path_components s ≠ [] := by
    intro hnil
    rw [htokens, hnil] at ht
    cases ht
  obtain ⟨dir, last, k, hshape⟩ := exists_shape hcomps
  rw [htokens, hshape.path_components, List.getLast?_concat] at ht
  obtain rfl := Option.some.inj ht
  have hlen := hshape.length
  by_contra hge
  have hdir : dir = [] := List.length_eq_zero_iff.mp (by omega)
  have hk : k = 0 := by omega
  rw [hshape.eq, hdir, hk, List.nil_append, List.replicate_zero, List.append_nil] at hslash
  exact hshape.run hslash

/-- **`parse_path` on its buffers** does what it does on strings: it leaves the directory part and
the last component in them, with zeros behind, or stops with the same fault. -/
theorem call_eq (hs : nul ∉ name) {memory : ℕ → UInt8}
    (hmalloc : malloc (name.length + 1) = some memory) :
    call malloc name = (Filesys.parse_path name).map
      (fun r => (padded (name.length + 1) r.1, padded file_name_size r.2)) := by
  have hdelim := delimiter_loop_spec hs ((c_string name).length + 1) 0 (Nat.zero_le _)
    (by rw [c_string_length]; omega)
  rw [List.drop_zero] at hdelim
  have hname := pointsTo_c_string hs
  unfold call parse_path Filesys.parse_path parse_path_into
  rw [hdelim, ok_bind, hname.strlen, ok_bind]
  by_cases hslash : slash ∈ name
  · have hmemory : ((List.range (name.length + 1)).map memory).length = name.length + 1 := by
      rw [List.length_map, List.length_range]
    have hset := memset_all ((List.range (name.length + 1)).map memory)
    rw [hmemory] at hset
    obtain ⟨q, b', hloop, hlast⟩ := last_token_spec hs
    rw [decide_eq_true hslash, if_pos rfl, if_pos hslash, hmalloc]
    dsimp only
    rw [hset, ok_bind, memcpy_full_name hs, ok_bind, memset_zeros le_rfl, ok_bind, hloop, ok_bind]
    cases ht : (tokens name).getLast? with
    | none =>
      rw [ht] at hlast
      dsimp only at hlast ⊢
      rw [hlast]
      rfl
    | some t =>
      rw [ht] at hlast
      obtain ⟨i, rfl, hpoints⟩ := hlast
      have hlt := last_token_lt hslash ht
      dsimp only
      rw [hpoints.strlen, ok_bind]
      by_cases hfit : file_name_size < t.length + 1
      · rw [memset_past hfit, if_pos hfit]
        rfl
      · have hdir : (name.take (name.length - t.length - 1)).length
            = name.length - t.length - 1 := by
          rw [List.length_take]
          omega
        rw [memset_zeros (not_lt.mp hfit), ok_bind, hpoints.memcpy le_rfl (by omega), ok_bind,
          List.take_length, if_neg (by omega), hname.memcpy (by omega) (by omega), ok_bind,
          if_neg hfit]
        show _ = Except.ok (padded _ _, padded _ _)
        rw [padded, padded, hdir]
        rfl
  · rw [if_neg (by simp [hslash]), if_neg hslash, memcpy_name]
    by_cases hfit : file_name_size < name.length + 1
    · rw [if_pos hfit, if_pos hfit]
      rfl
    · rw [if_neg hfit, if_neg hfit]
      rfl

/-! ## Which paths the buffers hold -/

/-- Whatever `malloc` does, the call returns with a string in `file_name`, inside the buffers and
from assigned variables only, or it stops because there is no memory. -/
def Contained (name : Str) : Prop := ∀ malloc,
  (∃ path file_name, call malloc name = .ok (path, file_name) ∧
    path.length = name.length + 1 ∧ file_name.length = file_name_size ∧ nul ∈ file_name) ∨
  (call malloc name = .error .assertion ∧ malloc (name.length + 1) = none)

/-- A path has a component unless it is empty, and the last one fits `file_name` with its NUL. -/
def Fits (name : Str) : Prop :=
  (name ≠ [] → path_components name ≠ []) ∧
    ∀ c, (path_components name).getLast? = some c → c.length < file_name_size

/-- The only call of `malloc` comes before all else. -/
theorem call_no_memory (hs : nul ∉ name) (hslash : slash ∈ name)
    (hmalloc : malloc (name.length + 1) = none) : call malloc name = .error .assertion := by
  have hdelim := delimiter_loop_spec hs ((c_string name).length + 1) 0 (Nat.zero_le _)
    (by rw [c_string_length]; omega)
  rw [List.drop_zero] at hdelim
  unfold call parse_path
  rw [hdelim, ok_bind, (pointsTo_c_string hs).strlen, ok_bind, decide_eq_true hslash, if_pos rfl,
    hmalloc]

/-- A name without a slash is copied without the help of `malloc`. -/
theorem call_plain (hs : nul ∉ name) (hslash : slash ∉ name)
    (malloc malloc' : ℕ → Option (ℕ → UInt8)) : call malloc name = call malloc' name := by
  have hdelim := delimiter_loop_spec hs ((c_string name).length + 1) 0 (Nat.zero_le _)
    (by rw [c_string_length]; omega)
  rw [List.drop_zero, decide_eq_false hslash] at hdelim
  unfold call parse_path
  rw [hdelim]
  rfl

/-- The components of a path without a slash. -/
theorem path_components_plain (hslash : slash ∉ name) :
    path_components name = if name = [] then [] else [name] := by
  by_cases hne : name = []
  · rw [if_pos hne, hne, path_components_nil]
  · rw [if_neg hne, path_components_run hne hslash]

/-- `parse_path` on strings returns for the paths that fit. -/
theorem parse_path_returns (name : Str) :
    (∃ dir last, Filesys.parse_path name = .ok (dir, last)) ↔ Fits name := by
  have htokens : tokens name = path_components name := tokens_eq name
  unfold Filesys.parse_path parse_path_into Fits
  by_cases hslash : slash ∈ name
  · have hne : name ≠ [] := List.ne_nil_of_mem hslash
    rw [if_pos hslash, htokens]
    cases hlast : (path_components name).getLast? with
    | none =>
      have hnil : path_components name = [] := List.getLast?_eq_none_iff.mp hlast
      constructor
      · rintro ⟨dir, last, h⟩
        cases h
      · rintro ⟨hcomps, -⟩
        exact absurd hnil (hcomps hne)
    | some t =>
      have hcomps : path_components name ≠ [] := by
        intro hnil
        rw [hnil] at hlast
        cases hlast
      dsimp only
      by_cases hfit : file_name_size < t.length + 1
      · rw [if_pos hfit]
        constructor
        · rintro ⟨dir, last, h⟩
          cases h
        · rintro ⟨-, hfits⟩
          exact absurd (hfits t rfl) (by omega)
      · rw [if_neg hfit]
        refine ⟨fun _ => ⟨fun _ => hcomps, fun c hc => ?_⟩, fun _ => ⟨_, _, rfl⟩⟩
        obtain rfl := Option.some.inj hc
        omega
  · rw [if_neg hslash, path_components_plain hslash]
    by_cases hne : name = []
    · subst hne
      simp [file_name_size]
    · rw [if_neg hne]
      by_cases hfit : file_name_size < name.length + 1
      · rw [if_pos hfit]
        constructor
        · rintro ⟨dir, last, h⟩
          cases h
        · rintro ⟨-, hfits⟩
          exact absurd (hfits name rfl) (by omega)
      · rw [if_neg hfit]
        refine ⟨fun _ => ⟨fun _ => List.cons_ne_nil _ _, fun c hc => ?_⟩, fun _ => ⟨_, _, rfl⟩⟩
        obtain rfl : name = c := Option.some.inj hc
        omega

/-- What `parse_path` returns fits the buffers. -/
theorem parse_path_lengths {dir last : Str} (h : Filesys.parse_path name = .ok (dir, last)) :
    dir.length ≤ name.length + 1 ∧ last.length < file_name_size := by
  unfold Filesys.parse_path parse_path_into at h
  by_cases hslash : slash ∈ name
  · rw [if_pos hslash] at h
    cases hlast : (tokens name).getLast? with
    | none =>
      rw [hlast] at h
      cases h
    | some t =>
      rw [hlast] at h
      dsimp only at h
      by_cases hfit : file_name_size < t.length + 1
      · rw [if_pos hfit] at h
        cases h
      · rw [if_neg hfit] at h
        obtain ⟨rfl, rfl⟩ := Prod.mk.inj (Except.ok.inj h)
        rw [List.length_take]
        omega
  · rw [if_neg hslash] at h
    by_cases hfit : file_name_size < name.length + 1
    · rw [if_pos hfit] at h
      cases h
    · rw [if_neg hfit] at h
      obtain ⟨rfl, rfl⟩ := Prod.mk.inj (Except.ok.inj h)
      exact ⟨Nat.zero_le _, by omega⟩

/-- A string that is shorter than its buffer ends in it. -/
theorem nul_mem_padded (h : t.length < n) : nul ∈ padded n t := by
  rw [padded, List.mem_append, List.mem_replicate]
  exact Or.inr ⟨by omega, rfl⟩

/-- **Path splitting respects its buffers** for the paths that have a component, unless they are
empty, and whose last component leaves room for its NUL; it does so for no other path. -/
theorem path_contained_iff (hs : nul ∉ name) : Contained name ↔ Fits name := by
  rw [← parse_path_returns]
  constructor
  · intro h
    rcases h (fun _ => some fun _ => nul) with ⟨path, file_name, hcall, -⟩ | ⟨-, hmalloc⟩
    · rw [call_eq hs (show (fun _ => some fun _ => nul) (name.length + 1) = some fun _ => nul
        from rfl)] at hcall
      cases hparse : Filesys.parse_path name with
      | error fault =>
        rw [hparse] at hcall
        cases hcall
      | ok r => exact ⟨r.1, r.2, rfl⟩
    · cases hmalloc
  · rintro ⟨dir, last, hparse⟩ malloc
    obtain ⟨hdir, hlast⟩ := parse_path_lengths hparse
    have hreturns : ∀ malloc memory, malloc (name.length + 1) = some memory →
        call malloc name = .ok (padded (name.length + 1) dir, padded file_name_size last) := by
      intro malloc memory hmalloc
      rw [call_eq hs hmalloc, hparse]
      rfl
    have hfits := And.intro (padded_length hdir)
      (And.intro (padded_length hlast.le) (nul_mem_padded hlast))
    cases hmalloc : malloc (name.length + 1) with
    | some memory => exact Or.inl ⟨_, _, hreturns malloc memory hmalloc, hfits⟩
    | none =>
      by_cases hslash : slash ∈ name
      · exact Or.inr ⟨call_no_memory hs hslash hmalloc, rfl⟩
      · refine Or.inl ⟨_, _, ?_, hfits⟩
        rw [call_plain hs hslash malloc (fun _ => some fun _ => nul)]
        exact hreturns _ _ rfl

theorem path_contained_iff_nested : nul ∉ [slash, 97, slash, 98] ∧
    (Contained [slash, 97, slash, 98] ↔ Fits [slash, 97, slash, 98]) :=
  ⟨by decide, path_contained_iff (by decide)⟩

/-- With `open("/")` the unassigned `prev_token` is read, and a component of 14 characters leaves no
room for its NUL. -/
theorem root_not_contained :
    ¬ Contained [slash] ∧ ¬ Contained (slash :: List.replicate file_name_size 97) := by
  have hroot : call (fun _ => some fun _ => nul) [slash] = .error .uninitialised := by decide
  have hlong : call (fun _ => some fun _ => nul) (slash :: List.replicate file_name_size 97)
      = .error .bounds := by decide
  constructor
  · intro h
    rcases h (fun _ => some fun _ => nul) with ⟨path, file_name, hcall, -⟩ | ⟨-, hmalloc⟩
    · rw [hroot] at hcall
      cases hcall
    · cases hmalloc
  · intro h
    rcases h (fun _ => some fun _ => nul) with ⟨path, file_name, hcall, -⟩ | ⟨-, hmalloc⟩
    · rw [hlong] at hcall
      cases hcall
    · cases hmalloc

end Pintos.Filesys.Buffers
