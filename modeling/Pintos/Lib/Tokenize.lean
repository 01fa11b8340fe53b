/-
A string cut into tokens by calls of `strtok_r`.

The first call gets the string, the others a null pointer, and each its own delimiters. A call
goes on behind the cut of the one before it, returns the next run of characters that are no
delimiters of its own, and turns the delimiter behind the run into a NUL. Once there is no run
left, the saved pointer is at the end of the string and stays there.
-/
import Pintos.Lib.Strings

set_option autoImplicit false

namespace Pintos.Lib.Strings

open Pintos.Filesys (Str)

variable {b b' : Block} {s d : Str} {p i j k : ℕ} {c : UInt8}

/-! ## One call -/

/-- The bytes at these positions turned into NULs. -/
def cut (b : Block) (ends : List ℕ) : Block :=
  b.mapIdx (fun k c => if k ∈ ends then nul else c)

theorem cut_get (b : Block) (ends : List ℕ) (k : ℕ) :
    (cut b ends)[k]? = if k ∈ ends then b[k]?.map (fun _ => nul) else b[k]? := by
  rw [cut, List.getElem?_mapIdx]
  by_cases hk : k ∈ ends
  · simp only [if_pos hk]
  · simp only [if_neg hk, Option.map_id']

theorem cut_one_get (b : Block) (e k : ℕ) :
    (cut b [e])[k]? = if k = e then b[k]?.map (fun _ => nul) else b[k]? := by
  rw [cut_get]
  simp only [List.mem_singleton]

theorem cut_nil (b : Block) : cut b [] = b := by
  apply List.ext_getElem?
  intro k
  rw [cut_get, if_neg List.not_mem_nil]

theorem cut_cut (b : Block) (e : ℕ) (ends : List ℕ) : cut (cut b [e]) ends = cut b (e :: ends) := by
  apply List.ext_getElem?
  intro k
  rw [cut_get, cut_one_get, cut_get]
  simp only [List.mem_cons]
  by_cases hke : k = e
  · rw [if_pos hke, if_pos (Or.inl hke)]
    by_cases hk : k ∈ ends
    · rw [if_pos hk, Option.map_map]
      rfl
    · rw [if_neg hk]
  · rw [if_neg hke]
    simp only [hke, false_or]

theorem cut_length (b : Block) (ends : List ℕ) : (cut b ends).length = b.length :=
  List.length_mapIdx

/-- A byte overwritten with NUL. -/
theorem set_nul (b : Block) (e : ℕ) : b.set e nul = cut b [e] := by
  apply List.ext_getElem?
  intro k
  rw [cut_one_get, List.getElem?_set]
  by_cases hke : e = k
  · subst hke
    rw [if_pos rfl, if_pos rfl]
    by_cases hlt : e < b.length
    · rw [if_pos hlt, List.getElem?_eq_getElem hlt]
      rfl
    · rw [if_neg hlt, List.getElem?_eq_none (not_lt.mp hlt)]
      rfl
  · rw [if_neg hke, if_neg (Ne.symm hke)]

/-- The NUL of the string need not be written. -/
theorem cut_end (hb : Uncut b s s.length) : cut b [s.length] = b := by
  apply List.ext_getElem?
  intro k
  rw [cut_one_get]
  by_cases hk : k = s.length
  · rw [if_pos hk, hk, hb _ le_rfl, c_string_end]
    rfl
  · rw [if_neg hk]

/-- **One call of `strtok_r`.** It returns the next run, cuts behind it and saves the position
behind the cut, or it returns null and saves the end of the string. -/
theorem strtok_r_spec (hs : nul ∉ s) (hd : nul ∉ d) (hb : Uncut b s p) (hp : p ≤ s.length)
    (hlen : b.length = s.length + 1) {str save_ptr : Option ℕ} (hstart : str.or save_ptr = some p) :
    (NoRun s d p ∧ strtok_r b str (c_string d) save_ptr = .ok (none, b, s.length)) ∨
      ∃ i j, NextRun s d p i j ∧ strtok_r b str (c_string d) save_ptr
        = .ok (some i, cut b [j], min (j + 1) s.length) := by
  obtain ⟨i, hpi, hi, hskip, hrun, hloop⟩ := skip_loop_spec hs hd (b.length + 1) p hb hp (by omega)
  rw [strtok_r, hstart]
  dsimp only
  rw [hloop, ok_bind]
  rcases Nat.eq_or_lt_of_le hi with rfl | hlt
  · refine Or.inl ⟨fun k c hk hc => ?_, ?_⟩
    · exact hskip k c hk (List.getElem?_eq_some_iff.mp hc).1 hc
    · rw [decide_eq_true rfl, if_pos rfl]
      rfl
  · obtain ⟨j, hij, hj, htoken, hstop, hend⟩ := token_loop_spec hs hd (b.length + 1) i
      (hb.mono hpi) hi (by omega)
    have hij' : i < j := by
      rcases Nat.eq_or_lt_of_le hij with rfl | hlt'
      · have hc := List.getElem?_eq_getElem hlt
        exact absurd (hstop _ hc) (hrun _ hc)
      · exact hlt'
    refine Or.inr ⟨i, j, ⟨hpi, hij', hj, hskip, htoken, hstop⟩, ?_⟩
    rw [decide_eq_false (Nat.ne_of_lt hlt), if_neg (by simp)]
    dsimp only
    rw [hend, ok_bind]
    rcases c_string_cases hj with ⟨c, hc, hget⟩ | ⟨rfl, hget⟩
    · have hlt' : j < s.length := (List.getElem?_eq_some_iff.mp hc).1
      rw [load_eq ((hb j (by omega)).trans hget), ok_bind, if_pos (getElem?_ne_nul hs hc), store,
        if_pos (by omega), ok_bind, set_nul, min_eq_left (by omega)]
      rfl
    · -- the token reaches to the end, where nothing is written
      rw [load_eq ((hb _ (by omega)).trans hget), ok_bind, if_neg (by simp),
        cut_end (hb.mono (by omega)), min_eq_right (by omega)]
      rfl

/-! ## Sequences of calls -/

/-- Calls of `strtok_r` with these delimiters, the first one with `str` and the others with a null
pointer. -/
def calls (b : Block) (str save_ptr : Option ℕ) :
    List Block → Res (List (Option ℕ) × Block × Option ℕ)
  | [] => .ok ([], b, save_ptr)
  | d :: ds => do
    let r ← strtok_r b str d save_ptr
    let rs ← calls r.2.1 none (some r.2.2) ds
    return (r.1 :: rs.1, rs.2)

/-- What the calls should return: the runs from `p` on, each with respect to the delimiters of its
call and behind the one before it. -/
inductive Tokens (s : Str) : ℕ → List Str → List (Option (ℕ × ℕ)) → Prop
  | nil {p : ℕ} : Tokens s p [] []
  | token {p i j : ℕ} {d : Str} {ds : List Str} {rs : List (Option (ℕ × ℕ))}
      (hrun : NextRun s d p i j) (hrest : Tokens s (min (j + 1) s.length) ds rs) :
      Tokens s p (d :: ds) (some (i, j) :: rs)
  | null {p : ℕ} {d : Str} {ds : List Str} {rs : List (Option (ℕ × ℕ))}
      (hnone : NoRun s d p) (hrest : Tokens s s.length ds rs) :
      Tokens s p (d :: ds) (none :: rs)

/-- Where the runs end. -/
def ends (rs : List (Option (ℕ × ℕ))) : List ℕ := rs.filterMap (Option.map Prod.snd)

theorem mem_ends {rs : List (Option (ℕ × ℕ))} : k ∈ ends rs ↔ ∃ i, some (i, k) ∈ rs := by
  rw [ends, List.mem_filterMap]
  constructor
  · rintro ⟨r, hr, hk⟩
    obtain ⟨⟨i, j⟩, rfl, rfl⟩ := Option.map_eq_some_iff.mp hk
    exact ⟨i, hr⟩
  · rintro ⟨i, hi⟩
    exact ⟨some (i, k), hi, rfl⟩

theorem Uncut.cut (hb : Uncut b s p) (hp : p ≤ s.length) (hpj : p ≤ j) :
    Uncut (Strings.cut b [j]) s (min (j + 1) s.length) := by
  intro k hk
  rw [cut_one_get]
  by_cases hkj : k = j
  · -- only if the token reaches to the end
    subst hkj
    have hle : s.length ≤ k := by
      by_contra hlt
      rw [min_eq_left (by omega)] at hk
      omega
    rw [if_pos rfl, hb k hpj]
    rcases Nat.eq_or_lt_of_le hle with rfl | hlt
    · rw [c_string_end]
      rfl
    · rw [List.getElem?_eq_none (by rw [c_string_length]; omega)]
      rfl
  · rw [if_neg hkj]
    by_cases hpk : p ≤ k
    · exact hb k hpk
    · omega

/-- **The calls return the tokens** and cut the string at their ends. The induction is on the
calls. -/
theorem calls_spec (hs : nul ∉ s) {ds : List Str} (hds : ∀ d ∈ ds, nul ∉ d) (hb : Uncut b s p)
    (hp : p ≤ s.length) (hlen : b.length = s.length + 1) {str save_ptr : Option ℕ}
    (hstart : str.or save_ptr = some p) (hsave : ∀ q ∈ save_ptr, q ≤ s.length) :
    ∃ rs save, Tokens s p ds rs ∧ (∀ q ∈ save, q ≤ s.length) ∧
      calls b str save_ptr (ds.map c_string)
        = .ok (rs.map (Option.map Prod.fst), cut b (ends rs), save) := by
  induction ds generalizing b p str save_ptr with
  | nil => exact ⟨[], save_ptr, .nil, hsave, by rw [ends, List.filterMap_nil, cut_nil]; rfl⟩
  | cons d ds ih =>
    have hds' : ∀ d ∈ ds, nul ∉ d := fun d' hd' => hds d' (List.mem_cons_of_mem d hd')
    rw [List.map_cons, calls]
    rcases strtok_r_spec hs (hds d List.mem_cons_self) hb hp hlen hstart with
      ⟨hnone, hcall⟩ | ⟨i, j, hrun, hcall⟩
    · obtain ⟨rs, save, htokens, hsave', hcalls⟩ := ih hds' (hb.mono hp) le_rfl hlen
        (show (none : Option ℕ).or (some s.length) = some s.length from rfl) (by simp)
      refine ⟨none :: rs, save, .null hnone htokens, hsave', ?_⟩
      rw [hcall, ok_bind]
      dsimp only
      rw [hcalls]
      rfl
    · obtain ⟨rs, save, htokens, hsave', hcalls⟩ := ih hds'
        (hb.cut hp (le_trans hrun.from_le hrun.lt.le)) (min_le_right _ _)
        (by rw [cut_length, hlen])
        (show (none : Option ℕ).or (some (min (j + 1) s.length)) = _ from rfl) (by simp)
      refine ⟨some (i, j) :: rs, save, .token hrun htokens, hsave', ?_⟩
      rw [hcall, ok_bind]
      dsimp only
      rw [hcalls, cut_cut]
      rfl

/-! ## What the tokens are -/

variable {ds : List Str} {rs : List (Option (ℕ × ℕ))}

theorem Tokens.run (h : Tokens s p ds rs) (hmem : some (i, j) ∈ rs) :
    ∃ d ∈ ds, ∃ q, p ≤ q ∧ NextRun s d q i j := by
  induction h with
  | nil => cases hmem
  | @token p i' j' d ds rs hrun _ ih =>
    rcases List.mem_cons.mp hmem with heq | hmem
    · obtain ⟨rfl, rfl⟩ := Prod.mk.inj (Option.some.inj heq)
      exact ⟨d, List.mem_cons_self, p, le_rfl, hrun⟩
    · obtain ⟨d', hd', q, hq, hrun'⟩ := ih hmem
      have hp : p ≤ min (j' + 1) s.length := by
        have h1 := hrun.from_le
        have h2 := hrun.lt
        have h3 := hrun.le
        omega
      exact ⟨d', List.mem_cons_of_mem d hd', q, le_trans hp hq, hrun'⟩
  | @null p d ds rs _ _ ih =>
    rcases List.mem_cons.mp hmem with heq | hmem
    · cases heq
    · obtain ⟨d', -, q, hq, hrun'⟩ := ih hmem
      have h1 := hrun'.from_le
      have h2 := hrun'.lt
      have h3 := hrun'.le
      omega

/-- A token lies behind the position the calls start from. -/
theorem Tokens.from_le (h : Tokens s p ds rs) (hmem : some (i, j) ∈ rs) :
    p ≤ i ∧ i < j ∧ j ≤ s.length := by
  obtain ⟨d, -, q, hq, hrun⟩ := h.run hmem
  exact ⟨le_trans hq hrun.from_le, hrun.lt, hrun.le⟩

/-- Tokens come one behind the other, with a character between them. -/
theorem Tokens.order (h : Tokens s p ds rs) :
    rs.Pairwise (fun r r' => ∀ i j i' j', r = some (i, j) → r' = some (i', j') → j < i') := by
  induction h with
  | nil => exact List.Pairwise.nil
  | @token p i j d ds rs hrun hrest ih =>
    refine List.pairwise_cons.mpr ⟨fun r' hr' i₁ j₁ i' j' heq heq' => ?_, ih⟩
    obtain ⟨rfl, rfl⟩ := Prod.mk.inj (Option.some.inj heq)
    rw [heq'] at hr'
    have hle := hrest.from_le hr'
    have hj := hrun.le
    omega
  | null _ _ ih =>
    exact List.pairwise_cons.mpr ⟨fun r' _ i j i' j' heq => (by cases heq), ih⟩

/-- Two tokens are the same or one lies behind the other. -/
theorem Tokens.apart (h : Tokens s p ds rs) {i' j' : ℕ} (hmem : some (i, j) ∈ rs)
    (hmem' : some (i', j') ∈ rs) : (i = i' ∧ j = j') ∨ j < i' ∨ j' < i := by
  induction h with
  | nil => cases hmem
  | @token p i₁ j₁ d ds rs hrun hrest ih =>
    have hle := hrun.le
    rcases List.mem_cons.mp hmem with heq | htail
    · obtain ⟨rfl, rfl⟩ := Prod.mk.inj (Option.some.inj heq)
      rcases List.mem_cons.mp hmem' with heq' | htail'
      · obtain ⟨rfl, rfl⟩ := Prod.mk.inj (Option.some.inj heq')
        exact Or.inl ⟨rfl, rfl⟩
      · have hfrom := hrest.from_le htail'
        omega
    · rcases List.mem_cons.mp hmem' with heq' | htail'
      · obtain ⟨rfl, rfl⟩ := Prod.mk.inj (Option.some.inj heq')
        have hfrom := hrest.from_le htail
        omega
      · exact ih htail htail'
  | null _ _ ih =>
    rcases List.mem_cons.mp hmem with heq | hmem
    · cases heq
    · rcases List.mem_cons.mp hmem' with heq' | hmem'
      · cases heq'
      · exact ih hmem hmem'

/-- After a null pointer there are null pointers only. -/
theorem Tokens.nulls (h : Tokens s p ds rs) : rs.Pairwise (fun r r' => r = none → r' = none) := by
  induction h with
  | nil => exact List.Pairwise.nil
  | token _ _ ih => exact List.pairwise_cons.mpr ⟨fun r' _ heq => (by cases heq), ih⟩
  | @null p d ds rs _ hrest ih =>
    refine List.pairwise_cons.mpr ⟨fun r' hr' _ => ?_, ih⟩
    cases r' with
    | none => rfl
    | some ij =>
      have hle := hrest.from_le (i := ij.1) (j := ij.2) hr'
      omega

/-- Every token takes a character, so the calls come to a null pointer. -/
theorem Tokens.null_mem (h : Tokens s p ds rs) (hp : p ≤ s.length)
    (hcalls : s.length - p < ds.length) : none ∈ rs := by
  induction h with
  | nil => simp at hcalls
  | @token p i j d ds rs hrun _ ih =>
    rw [List.length_cons] at hcalls
    have h1 := hrun.from_le
    have h2 := hrun.lt
    have h3 := hrun.le
    exact List.mem_cons_of_mem _ (ih (min_le_right _ _) (by omega))
  | null _ _ _ => exact List.mem_cons_self

/-! ## What is in the block -/

/-- The pointers point to the tokens. -/
theorem Tokens.pointsTo (h : Tokens s p ds rs) (hs : nul ∉ s) (hmem : some (i, j) ∈ rs) :
    PointsTo (cut (c_string s) (ends rs)) i ((s.take j).drop i) := by
  obtain ⟨-, hij, hj⟩ := h.from_le hmem
  have hlen : ((s.take j).drop i).length = j - i := by
    rw [List.length_drop, List.length_take, min_eq_left hj]
  constructor
  · exact fun hnul => hs (List.mem_of_mem_take (List.mem_of_mem_drop hnul))
  · intro k hk
    rw [hlen] at hk
    -- no token ends inside this one
    have hout : i + k ∉ ends rs := by
      rw [mem_ends]
      rintro ⟨i', hmem'⟩
      obtain ⟨-, hij', -⟩ := h.from_le hmem'
      rcases h.apart hmem hmem' with ⟨-, heq⟩ | hlt | hlt <;> omega
    rw [cut_get, if_neg hout, c_string, List.getElem?_append_left (by omega),
      List.getElem?_drop, List.getElem?_take_of_lt (by omega)]
  · have hend : j ∈ ends rs := mem_ends.mpr ⟨i, hmem⟩
    have hget : j < (c_string s).length := by
      rw [c_string_length]
      omega
    rw [hlen, Nat.add_sub_cancel' hij.le, cut_get, if_pos hend, List.getElem?_eq_getElem hget]
    rfl

/-- Only delimiters are overwritten. -/
theorem Tokens.writes (h : Tokens s p ds rs) (k : ℕ) :
    (cut (c_string s) (ends rs))[k]? = (c_string s)[k]? ∨
      (cut (c_string s) (ends rs))[k]? = some nul ∧ ∃ d ∈ ds, ∃ c ∈ d, s[k]? = some c := by
  rw [cut_get]
  by_cases hk : k ∈ ends rs
  · obtain ⟨i, hmem⟩ := mem_ends.mp hk
    obtain ⟨d, hd, q, -, hrun⟩ := h.run hmem
    rw [if_pos hk]
    rcases c_string_cases hrun.le with ⟨c, hc, hget⟩ | ⟨rfl, hget⟩
    · refine Or.inr ⟨?_, d, hd, c, hrun.stop c hc, hc⟩
      rw [hget]
      rfl
    · rw [hget]
      exact Or.inl rfl
  · rw [if_neg hk]
    exact Or.inl rfl

/-! ## The same delimiters in every call -/

/-- A run of characters that are no delimiters, with a delimiter or an end of the string on either
side. -/
structure MaximalRun (s d : Str) (i j : ℕ) : Prop where
  lt : i < j
  le : j ≤ s.length
  run : ∀ k c, i ≤ k → k < j → s[k]? = some c → c ∉ d
  start : ∀ k c, i = k + 1 → s[k]? = some c → c ∈ d
  stop : ∀ c, s[j]? = some c → c ∈ d

/-- The delimiters of one of equal calls, and of the others. -/
theorem same_delimiters {m : ℕ} {d' : Str} (h : d' :: ds = List.replicate m d) :
    d' = d ∧ ∃ m', ds = List.replicate m' d := by
  cases m with
  | zero => cases h
  | succ m =>
    obtain ⟨hd, hds⟩ := List.cons.inj h
    exact ⟨hd, m, hds⟩

theorem exists_get (hk : k < s.length) : ∃ c, s[k]? = some c := ⟨s[k], List.getElem?_eq_getElem hk⟩

/-- A run that the calls return is maximal, if they start behind a delimiter. -/
theorem Tokens.maximal {m : ℕ} (h : Tokens s p ds rs) (hds : ds = List.replicate m d)
    (hp : ∀ k c, p = k + 1 → s[k]? = some c → p < s.length → c ∈ d)
    (hmem : some (i, j) ∈ rs) : MaximalRun s d i j := by
  induction h generalizing m with
  | nil => cases hmem
  | @token p i' j' d' ds rs hrun hrest ih =>
    obtain ⟨rfl, m', hds⟩ := same_delimiters hds
    rcases List.mem_cons.mp hmem with heq | hmem
    · obtain ⟨rfl, rfl⟩ := Prod.mk.inj (Option.some.inj heq)
      refine ⟨hrun.lt, hrun.le, hrun.run, fun k c hik hc => ?_, hrun.stop⟩
      have hfrom := hrun.from_le
      rcases Nat.lt_or_ge k p with hkp | hpk
      · have hlt := hrun.lt
        have hle := hrun.le
        exact hp k c (by omega) hc (by omega)
      · exact hrun.skipped k c hpk (by omega) hc
    · refine ih hds (fun k c hk hc hlt => ?_) hmem
      have hkj : k = j' := by omega
      exact hrun.stop c (hkj ▸ hc)
  | @null p d' ds rs _ hrest ih =>
    rcases List.mem_cons.mp hmem with heq | hmem
    · cases heq
    · have hle := hrest.from_le hmem
      omega

/-- Every maximal run is returned before the first null pointer. -/
theorem Tokens.complete {m : ℕ} (h : Tokens s p ds rs) (hds : ds = List.replicate m d)
    (hnull : none ∈ rs) (hmax : MaximalRun s d i j) (hpi : p ≤ i) : some (i, j) ∈ rs := by
  obtain ⟨c, hc⟩ := exists_get (lt_of_lt_of_le hmax.lt hmax.le)
  have hcd : c ∉ d := hmax.run i c le_rfl hmax.lt hc
  induction h generalizing m with
  | nil => cases hnull
  | @token p i' j' d' ds rs hrun hrest ih =>
    obtain ⟨rfl, m', hds⟩ := same_delimiters hds
    have hnull' : none ∈ rs := by simpa using hnull
    rcases Nat.lt_trichotomy i' i with hlt | rfl | hgt
    · -- the run in front of this one ends before it
      have hj' : j' < i := by
        by_contra hge
        obtain ⟨k, rfl⟩ : ∃ k, i = k + 1 := ⟨i - 1, by omega⟩
        have hle := hmax.le
        have hlt' := hmax.lt
        obtain ⟨c', hc'⟩ := exists_get (show k < s.length by omega)
        exact hrun.run k c' (by omega) (by omega) hc' (hmax.start k c' rfl hc')
      exact List.mem_cons_of_mem _ (ih hds hnull' (by omega))
    · -- both runs start here, and end at the first delimiter
      have hj : j' = j := by
        have hle := hrun.le
        have hle' := hmax.le
        have hlt := hrun.lt
        have hlt' := hmax.lt
        rcases Nat.lt_trichotomy j' j with hlt₁ | heq | hlt₁
        · obtain ⟨c', hc'⟩ := exists_get (show j' < s.length by omega)
          exact absurd (hrun.stop c' hc') (hmax.run j' c' (by omega) hlt₁ hc')
        · exact heq
        · obtain ⟨c', hc'⟩ := exists_get (show j < s.length by omega)
          exact absurd (hmax.stop c' hc') (hrun.run j c' (by omega) hlt₁ hc')
      rw [hj]
      exact List.mem_cons_self
    · exact absurd (hrun.skipped i c hpi hgt hc) hcd
  | @null p d' ds rs hnone _ ih =>
    obtain ⟨rfl, -⟩ := same_delimiters hds
    exact absurd (hnone i c hpi hc) hcd

/-! ## The tokens of a string -/

theorem slice_append (hpi : p ≤ i) (hi : i ≤ s.length) :
    (s.take i).drop p ++ s.drop i = s.drop p := by
  rw [← List.drop_append_of_le_length (by rw [List.length_take]; omega), List.take_append_drop]

/-- The characters of a slice, by their positions. -/
theorem of_mem_slice {P : UInt8 → Prop} (h : ∀ k c, p ≤ k → k < i → s[k]? = some c → P c)
    (hc : c ∈ (s.take i).drop p) : P c := by
  obtain ⟨k, hk⟩ := List.getElem?_of_mem hc
  obtain ⟨hlt, -⟩ := List.getElem?_eq_some_iff.mp hk
  rw [List.length_drop, List.length_take] at hlt
  rw [List.getElem?_drop, List.getElem?_take_of_lt (by omega)] at hk
  exact h _ c (Nat.le_add_right p k) (by omega) hk

/-- The call is the one on strings. -/
theorem NextRun.strtok_r (h : NextRun s d p i j) :
    Filesys.strtok_r d (s.drop p) = some ((s.take j).drop i, s.drop (min (j + 1) s.length)) := by
  have hpi := h.from_le
  have hij := h.lt
  have hj := h.le
  have hsplit : s.drop p = (s.take i).drop p ++ ((s.take j).drop i ++ s.drop j) := by
    rw [slice_append hij.le hj, slice_append hpi (by omega)]
  have hskip : ∀ c ∈ (s.take i).drop p, decide (c ∈ d) = true :=
    fun c hc => decide_eq_true (of_mem_slice h.skipped hc)
  have hrun : ∀ c ∈ (s.take j).drop i, decide (c ∉ d) = true :=
    fun c hc => decide_eq_true (of_mem_slice h.run hc)
  obtain ⟨c, t, hct⟩ : ∃ c t, (s.take j).drop i = c :: t := by
    apply List.exists_cons_of_ne_nil
    intro hnil
    have hlen := congrArg List.length hnil
    rw [List.length_drop, List.length_take, List.length_nil] at hlen
    omega
  have hdrop : (s.drop p).dropWhile (fun c => c ∈ d) = (s.take j).drop i ++ s.drop j := by
    have hcd := hrun c (by rw [hct]; exact List.mem_cons_self)
    rw [hsplit, List.dropWhile_append_of_pos hskip, hct, List.cons_append,
      List.dropWhile_cons_of_neg (by simpa using hcd)]
  have hrest : (s.drop j).takeWhile (fun c => c ∉ d) = [] ∧
      (s.drop j).dropWhile (fun c => c ∉ d) = s.drop j := by
    cases hsj : s.drop j with
    | nil => exact ⟨rfl, rfl⟩
    | cons c' r =>
      have hc' : s[j]? = some c' := by rw [← List.head?_drop, hsj, List.head?_cons]
      have hmem := h.stop c' hc'
      exact ⟨List.takeWhile_cons_of_neg (by simpa using hmem),
        List.dropWhile_cons_of_neg (by simpa using hmem)⟩
  rw [Filesys.strtok_r, hdrop, if_neg (by rw [hct]; simp), List.takeWhile_append_of_pos hrun,
    List.dropWhile_append_of_pos hrun, hrest.1, hrest.2, List.append_nil, List.drop_drop]
  congr 2
  rcases Nat.eq_or_lt_of_le hj with rfl | hlt
  · rw [min_eq_right (by omega), List.drop_length, List.drop_of_length_le (by omega)]
  · rw [min_eq_left (by omega)]

theorem NoRun.strtok_r (h : NoRun s d p) : Filesys.strtok_r d (s.drop p) = none := by
  have hall : (s.drop p).dropWhile (fun c => c ∈ d) = [] := by
    rw [List.dropWhile_eq_nil_iff]
    intro c hc
    obtain ⟨k, hk⟩ := List.getElem?_of_mem hc
    rw [List.getElem?_drop] at hk
    exact decide_eq_true (h _ c (Nat.le_add_right p k) hk)
  rw [Filesys.strtok_r, hall, if_pos rfl]

/-- **The loop over the tokens** goes through those of the string. -/
theorem Tokens.token_loop {m : ℕ} (h : Tokens s p ds rs) (hds : ds = List.replicate m d)
    (hnull : none ∈ rs) {fuel : ℕ} (hp : p ≤ s.length) (hfuel : s.length - p < fuel) :
    Filesys.token_loop d fuel (s.drop p) =
      (rs.filterMap id).map (fun r => (s.take r.2).drop r.1) := by
  induction h generalizing m fuel with
  | nil => cases hnull
  | @token p i j d' ds rs hrun hrest ih =>
    obtain ⟨rfl, m', hds⟩ := same_delimiters hds
    obtain ⟨fuel, rfl⟩ := Nat.exists_eq_succ_of_ne_zero (Nat.ne_of_gt (Nat.zero_lt_of_lt hfuel))
    have hnull' : none ∈ rs := by simpa using hnull
    have h1 := hrun.from_le
    have h2 := hrun.lt
    have h3 := hrun.le
    rw [Filesys.token_loop, hrun.strtok_r]
    dsimp only
    rw [ih hds hnull' (min_le_right _ _) (by omega)]
    rfl
  | @null p d' ds rs hnone hrest ih =>
    obtain ⟨rfl, -⟩ := same_delimiters hds
    obtain ⟨fuel, rfl⟩ := Nat.exists_eq_succ_of_ne_zero (Nat.ne_of_gt (Nat.zero_lt_of_lt hfuel))
    have hnone' : rs.filterMap id = [] := by
      rw [List.filterMap_eq_nil_iff]
      intro r hr
      have hnulls := (List.pairwise_cons.mp (Tokens.null hnone hrest).nulls).1
      exact hnulls r hr rfl
    rw [Filesys.token_loop, hnone.strtok_r, List.filterMap_cons_none rfl, hnone']
    rfl

/-- **Tokenizing is exact.** The calls return, without reading or writing behind the NUL of the
string. Their tokens are the next runs, each with respect to the delimiters of its call, and each
ends in a NUL; only delimiters are overwritten; after a null pointer there are null pointers only.
With the same delimiters in all of more calls than the string has characters, a null pointer is
returned and the tokens before it are all maximal runs. -/
theorem strtok_r_exact (hs : nul ∉ s) {ds : List Str} (hds : ∀ d ∈ ds, nul ∉ d) :
    ∃ rs b' save, calls (c_string s) (some 0) none (ds.map c_string)
        = .ok (rs.map (Option.map Prod.fst), b', save) ∧
      Tokens s 0 ds rs ∧ (∀ i j, some (i, j) ∈ rs → text b' i = (s.take j).drop i) ∧
      (∀ k : ℕ, b'[k]? = (c_string s)[k]? ∨
        b'[k]? = some nul ∧ ∃ d ∈ ds, ∃ c ∈ d, s[k]? = some c) ∧
      (∀ q ∈ save, q ≤ s.length) ∧
      rs.Pairwise (fun r r' => ∀ i j i' j', r = some (i, j) → r' = some (i', j') → j < i') ∧
      rs.Pairwise (fun r r' => r = none → r' = none) ∧
      ∀ d m, ds = List.replicate m d → s.length < m →
        none ∈ rs ∧ ∀ i j, some (i, j) ∈ rs ↔ MaximalRun s d i j := by
  obtain ⟨rs, save, htokens, hsave, hcalls⟩ := calls_spec hs hds (uncut_self s) (Nat.zero_le _)
    (c_string_length s) (show (some 0).or none = some 0 from rfl) (by simp)
  refine ⟨rs, _, save, hcalls, htokens, fun i j hmem => (htokens.pointsTo hs hmem).text,
    htokens.writes, hsave, htokens.order, htokens.nulls, fun d m hd hm => ?_⟩
  have hnull : none ∈ rs := by
    apply htokens.null_mem (Nat.zero_le _)
    rw [hd, List.length_replicate]
    omega
  refine ⟨hnull, fun i j => ⟨fun hmem => ?_, fun hmax => ?_⟩⟩
  · exact htokens.maximal hd (fun k c hk => by omega) hmem
  · exact htokens.complete hd hnull hmax (Nat.zero_le i)

/-- The string `"a  b"`, with a blank for the delimiter of five calls. -/
theorem strtok_r_exact_blanks :
    ∃ (rs : List (Option (ℕ × ℕ))) (b' : Block) (save : Option ℕ),
      calls (c_string [97, 32, 32, 98]) (some 0) none ((List.replicate 5 [32]).map c_string)
        = .ok (rs.map (Option.map Prod.fst), b', save) ∧
      none ∈ rs ∧ ∀ i j, some (i, j) ∈ rs ↔ MaximalRun [97, 32, 32, 98] [32] i j := by
  have hs : nul ∉ [97, 32, 32, 98] := by decide
  have hds : ∀ d ∈ List.replicate 5 [32], nul ∉ d := by decide
  obtain ⟨rs, b', save, hcalls, -, -, -, -, -, -, hall⟩ := strtok_r_exact hs hds
  exact ⟨rs, b', save, hcalls, hall [32] 5 rfl (by decide)⟩

end Pintos.Lib.Strings
