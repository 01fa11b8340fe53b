/-
`lib/string.c`, byte by byte: `strlen`, `memset`, `memcpy`, `strchr` and `strtok_r`.

A block is an object in memory, and a pointer into it is an index. What lies outside a block is not
there: reading or writing it ends the run with `Fault.bounds`. A loop goes one character further
with every turn, so it comes to the end of its block before `fuel` is used up.
-/
import Pintos.Filesys.Path

set_option autoImplicit false

namespace Pintos.Lib.Strings

open Pintos.Filesys (Str)

/-! ## The code -/

/-- An object in memory. -/
abbrev Block := List UInt8

/-- `'\0'`. -/
def nul : UInt8 := 0

/-- The block of a string. -/
def c_string (s : Str) : Block := s ++ [nul]

/-- `*p`. -/
def load (b : Block) (p : ℕ) : Res UInt8 :=
  match b[p]? with
  | some c => .ok c
  | none => .error .bounds

/-- `*p = c`. -/
def store (b : Block) (p : ℕ) (c : UInt8) : Res Block :=
  if p < b.length then .ok (b.set p c) else .error .bounds

/-- The bytes from `p` on replaced. -/
def overwrite (b : Block) (p : ℕ) (bytes : List UInt8) : Res Block :=
  if p + bytes.length ≤ b.length then
    .ok (b.take p ++ bytes ++ b.drop (p + bytes.length))
  else .error .bounds

/-- `memset`. -/
def memset (dst : Block) (p : ℕ) (value : UInt8) (size : ℕ) : Res Block :=
  overwrite dst p (List.replicate size value)

/-- `memcpy`. -/
def memcpy (dst : Block) (p : ℕ) (src : Block) (q size : ℕ) : Res Block :=
  if q + size ≤ src.length then overwrite dst p ((src.drop q).take size) else .error .bounds

/-- The loop of `strlen`. -/
def strlen_loop (string : Block) : ℕ → ℕ → Res ℕ
  | 0, _ => .error .diverge
  | fuel + 1, p => do
    let c ← load string p
    if c = nul then return p else strlen_loop string fuel (p + 1)

/-- `strlen`. -/
def strlen (string : Block) (p : ℕ) : Res ℕ := do
  let e ← strlen_loop string (string.length + 1) p
  return e - p

/-- The loop of `strchr`. -/
def strchr_loop (string : Block) (c : UInt8) : ℕ → ℕ → Res (Option ℕ)
  | 0, _ => .error .diverge
  | fuel + 1, p => do
    let ch ← load string p
    if ch = c then return some p
    else if ch = nul then return none
    else strchr_loop string c fuel (p + 1)

/-- `strchr`. -/
def strchr (string : Block) (c : UInt8) : Res (Option ℕ) :=
  strchr_loop string c (string.length + 1) 0

/-- The first loop of `strtok_r`: where it stops, and whether it is the end of the string. -/
def skip_loop (delimiters b : Block) : ℕ → ℕ → Res (ℕ × Bool)
  | 0, _ => .error .diverge
  | fuel + 1, s => do
    let c ← load b s
    let found ← strchr delimiters c
    if found ≠ none then
      if c = nul then return (s, true) else skip_loop delimiters b fuel (s + 1)
    else return (s, false)

/-- The second loop. -/
def token_loop (delimiters b : Block) : ℕ → ℕ → Res ℕ
  | 0, _ => .error .diverge
  | fuel + 1, s => do
    let c ← load b s
    let found ← strchr delimiters c
    if found = none then token_loop delimiters b fuel (s + 1) else return s

/-- `strtok_r` on the string in a block: the token, the block, and `*save_ptr`. A null pointer is
`none`, and so is a `save_ptr` that was never set. -/
def strtok_r (b : Block) (s : Option ℕ) (delimiters : Block) (save_ptr : Option ℕ) :
    Res (Option ℕ × Block × ℕ) :=
  match s.or save_ptr with
  | none => .error .assertion
  | some s => do
    let r ← skip_loop delimiters b (b.length + 1) s
    if r.2 then return (none, b, r.1)
    else do
      let e ← token_loop delimiters b (b.length + 1) r.1
      let c ← load b e
      if c ≠ nul then do
        let b ← store b e nul
        return (some r.1, b, e + 1)
      else return (some r.1, b, e)

/-! ## Blocks -/

variable {b b' : Block} {s d : Str} {p i j k : ℕ} {c : UInt8}

/-- From `p` on the block holds the string. -/
def Uncut (b : Block) (s : Str) (p : ℕ) : Prop := ∀ k, p ≤ k → b[k]? = (c_string s)[k]?

theorem Uncut.mono (h : Uncut b s p) {q : ℕ} (hq : p ≤ q) : Uncut b s q :=
  fun k hk => h k (le_trans hq hk)

theorem uncut_self (s : Str) : Uncut (c_string s) s p := fun _ _ => rfl

theorem c_string_length (s : Str) : (c_string s).length = s.length + 1 := by
  rw [c_string, List.length_append, List.length_singleton]

theorem c_string_get (hk : s[k]? = some c) : (c_string s)[k]? = some c := by
  obtain ⟨hlt, -⟩ := List.getElem?_eq_some_iff.mp hk
  rw [c_string, List.getElem?_append_left hlt, hk]

theorem c_string_end (s : Str) : (c_string s)[s.length]? = some nul := by
  rw [c_string, List.getElem?_append_right le_rfl, Nat.sub_self]
  rfl

/-- Behind the string there is nothing but its NUL. -/
theorem c_string_cases (hp : p ≤ s.length) :
    (∃ c, s[p]? = some c ∧ (c_string s)[p]? = some c) ∨
      p = s.length ∧ (c_string s)[p]? = some nul := by
  rcases Nat.lt_or_ge p s.length with hlt | hge
  · exact Or.inl ⟨s[p], List.getElem?_eq_getElem hlt, c_string_get (List.getElem?_eq_getElem hlt)⟩
  · obtain rfl : p = s.length := le_antisymm hp hge
    exact Or.inr ⟨rfl, c_string_end s⟩

theorem load_eq (h : b[p]? = some c) : load b p = .ok c := by rw [load, h]

theorem getElem?_ne_nul (hs : nul ∉ s) (hk : s[k]? = some c) : c ≠ nul := by
  rintro rfl
  exact hs (List.mem_of_getElem? hk)

/-- The string that a pointer points to. -/
def text (b : Block) (p : ℕ) : Str := (b.drop p).takeWhile (fun c => c ≠ nul)

/-- The pointer points to this string. -/
structure PointsTo (b : Block) (p : ℕ) (t : Str) : Prop where
  nonul : nul ∉ t
  chars : ∀ k < t.length, b[p + k]? = t[k]?
  stop : b[p + t.length]? = some nul

theorem pointsTo_c_string (hs : nul ∉ s) : PointsTo (c_string s) 0 s := by
  refine ⟨hs, fun k hk => ?_, ?_⟩
  · rw [Nat.zero_add, c_string, List.getElem?_append_left hk]
  · rw [Nat.zero_add, c_string_end]

/-- What lies in the block from a pointer on: its string, the NUL, and the rest. -/
theorem PointsTo.drop {t : Str} (h : PointsTo b p t) :
    b.drop p = t ++ nul :: b.drop (p + t.length + 1) := by
  apply List.ext_getElem?
  intro k
  rw [List.getElem?_drop]
  rcases Nat.lt_trichotomy k t.length with hlt | rfl | hgt
  · rw [List.getElem?_append_left hlt, h.chars k hlt]
  · rw [List.getElem?_append_right le_rfl, Nat.sub_self, h.stop]
    rfl
  · obtain ⟨m, rfl⟩ := Nat.exists_eq_add_of_lt hgt
    rw [List.getElem?_append_right (by omega), show t.length + m + 1 - t.length = m + 1 by omega,
      List.getElem?_cons_succ, List.getElem?_drop]
    congr 1
    omega

/-- A text is read off up to its NUL. -/
theorem PointsTo.text {t : Str} (h : PointsTo b p t) : text b p = t := by
  have hne : ∀ c ∈ t, decide (c ≠ nul) = true := by
    intro c hc
    rw [decide_eq_true_iff]
    exact fun heq => h.nonul (heq ▸ hc)
  rw [Strings.text, h.drop, List.takeWhile_append_of_pos hne,
    List.takeWhile_cons_of_neg (by simp), List.append_nil]

/-! ## `strlen`, `memset` and `memcpy` -/

/-- The loop of `strlen` comes to the NUL. The induction is on the turns that are left. -/
theorem strlen_loop_spec {t : Str} (h : PointsTo b p t) : ∀ fuel k, k ≤ t.length →
    t.length - k < fuel → strlen_loop b fuel (p + k) = .ok (p + t.length) := by
  intro fuel
  induction fuel with
  | zero => omega
  | succ fuel ih =>
    intro k hk hfuel
    rw [strlen_loop]
    rcases Nat.eq_or_lt_of_le hk with rfl | hlt
    · rw [load_eq h.stop, ok_bind, if_pos rfl]
      rfl
    · have hget := h.chars k hlt
      rw [List.getElem?_eq_getElem hlt] at hget
      have hne : t[k] ≠ nul := getElem?_ne_nul h.nonul (List.getElem?_eq_getElem hlt)
      rw [load_eq hget, ok_bind, if_neg hne]
      exact ih (k + 1) hlt (by omega)

theorem PointsTo.strlen {t : Str} (h : PointsTo b p t) : strlen b p = .ok t.length := by
  have hlt : p + t.length < b.length := (List.getElem?_eq_some_iff.mp h.stop).1
  have hloop : strlen_loop b (b.length + 1) p = .ok (p + t.length) :=
    strlen_loop_spec h (b.length + 1) 0 (Nat.zero_le _) (by omega)
  rw [Strings.strlen, hloop, ok_bind, Nat.add_sub_cancel_left]
  rfl

theorem overwrite_start {bytes : List UInt8} (h : bytes.length ≤ b.length) :
    overwrite b 0 bytes = .ok (bytes ++ b.drop bytes.length) := by
  rw [overwrite, if_pos (by omega), List.take_zero, List.nil_append, Nat.zero_add]

/-- Zeros stay zeros. -/
theorem memset_zeros {n size : ℕ} (h : size ≤ n) :
    memset (List.replicate n nul) 0 nul size = .ok (List.replicate n nul) := by
  rw [memset, overwrite_start (by simpa using h), List.length_replicate, List.drop_replicate,
    ← List.replicate_add, Nat.add_sub_cancel' h]

theorem memset_past {n size : ℕ} (h : n < size) :
    memset (List.replicate n nul) 0 nul size = .error .bounds := by
  rw [memset, overwrite, if_neg (by simpa using h)]

/-- All bytes set. -/
theorem memset_all (b : Block) : memset b 0 nul b.length = .ok (List.replicate b.length nul) := by
  rw [memset, overwrite_start (by simp), List.length_replicate, List.drop_length, List.append_nil]

/-- The beginning of a string copied into zeros. -/
theorem PointsTo.memcpy {t : Str} (h : PointsTo b p t) {n size : ℕ} (hsize : size ≤ t.length)
    (hn : size ≤ n) : memcpy (List.replicate n nul) 0 b p size
      = .ok (t.take size ++ List.replicate (n - size) nul) := by
  have hlt : p + t.length < b.length := (List.getElem?_eq_some_iff.mp h.stop).1
  have htake : (b.drop p).take size = t.take size := by
    rw [h.drop, List.take_append_of_le_length hsize]
  have hlen : (t.take size).length = size := by rw [List.length_take, min_eq_left hsize]
  rw [Strings.memcpy, if_pos (by omega), htake, overwrite_start (by simp [hn]), hlen,
    List.drop_replicate]

/-! ## `strchr` -/

/-- The loop finds what lies from `p` on. The induction is on the turns that are left. -/
theorem strchr_loop_spec (hd : nul ∉ d) : ∀ fuel p, p ≤ d.length → d.length - p < fuel →
    ∃ r, strchr_loop (c_string d) c fuel p = .ok r ∧
      (r ≠ none ↔ c ∈ (c_string d).drop p) := by
  intro fuel
  induction fuel with
  | zero => omega
  | succ fuel ih =>
    intro p hp hfuel
    rw [strchr_loop]
    rcases c_string_cases hp with ⟨ch, hch, hget⟩ | ⟨rfl, hget⟩
    · have hlt : p < (c_string d).length := (List.getElem?_eq_some_iff.mp hget).1
      have hdrop : (c_string d).drop p = ch :: (c_string d).drop (p + 1) := by
        rw [List.drop_eq_getElem_cons hlt, (List.getElem?_eq_some_iff.mp hget).2]
      rw [load_eq hget, ok_bind, hdrop, List.mem_cons]
      by_cases hc : ch = c
      · rw [if_pos hc]
        exact ⟨some p, rfl, by simp [hc]⟩
      · have hp' : p < d.length := (List.getElem?_eq_some_iff.mp hch).1
        rw [if_neg hc, if_neg (getElem?_ne_nul hd hch)]
        obtain ⟨r, hr, hiff⟩ := ih (p + 1) hp' (by omega)
        exact ⟨r, hr, hiff.trans (by simp [Ne.symm hc])⟩
    · -- the NUL of the string ends the search
      have hdrop : (c_string d).drop d.length = [nul] := List.drop_left
      rw [load_eq hget, ok_bind, hdrop, List.mem_singleton]
      by_cases hc : nul = c
      · rw [if_pos hc]
        exact ⟨some d.length, rfl, by simp [hc]⟩
      · rw [if_neg hc, if_pos rfl]
        exact ⟨none, rfl, by simp [Ne.symm hc]⟩

/-- **`strchr`** finds the characters of the string and its NUL. -/
theorem strchr_spec (hd : nul ∉ d) (c : UInt8) :
    ∃ r, strchr (c_string d) c = .ok r ∧ (r ≠ none ↔ c ∈ d ∨ c = nul) := by
  obtain ⟨r, hr, hiff⟩ := strchr_loop_spec (c := c) hd ((c_string d).length + 1) 0 (Nat.zero_le _)
    (by rw [c_string_length]; omega)
  refine ⟨r, hr, hiff.trans ?_⟩
  rw [List.drop_zero, c_string, List.mem_append, List.mem_singleton]

/-! ## `strtok_r` -/

/-- From `p` on, the first run of characters that are no delimiters. -/
structure NextRun (s d : Str) (p i j : ℕ) : Prop where
  from_le : p ≤ i
  lt : i < j
  le : j ≤ s.length
  skipped : ∀ k c, p ≤ k → k < i → s[k]? = some c → c ∈ d
  run : ∀ k c, i ≤ k → k < j → s[k]? = some c → c ∉ d
  stop : ∀ c, s[j]? = some c → c ∈ d

/-- From `p` on there are delimiters only. -/
def NoRun (s d : Str) (p : ℕ) : Prop := ∀ k c, p ≤ k → s[k]? = some c → c ∈ d

/-- The first loop goes over the delimiters. The induction is on the turns that are left. -/
theorem skip_loop_spec (hs : nul ∉ s) (hd : nul ∉ d) : ∀ fuel p, Uncut b s p → p ≤ s.length →
    s.length - p < fuel → ∃ i, p ≤ i ∧ i ≤ s.length ∧
      (∀ k c, p ≤ k → k < i → s[k]? = some c → c ∈ d) ∧ (∀ c, s[i]? = some c → c ∉ d) ∧
      skip_loop (c_string d) b fuel p = .ok (i, decide (i = s.length)) := by
  intro fuel
  induction fuel with
  | zero => omega
  | succ fuel ih =>
    intro p hb hp hfuel
    rw [skip_loop]
    rcases c_string_cases hp with ⟨c, hc, hget⟩ | ⟨rfl, hget⟩
    · have hlt : p < s.length := (List.getElem?_eq_some_iff.mp hc).1
      obtain ⟨r, hr, hiff⟩ := strchr_spec hd c
      rw [load_eq ((hb p le_rfl).trans hget), ok_bind, hr, ok_bind]
      by_cases hmem : c ∈ d
      · rw [if_pos (hiff.mpr (Or.inl hmem)), if_neg (getElem?_ne_nul hs hc)]
        obtain ⟨i, hpi, hi, hskip, hrun, hloop⟩ := ih (p + 1) (hb.mono (Nat.le_succ p)) hlt
          (by omega)
        refine ⟨i, by omega, hi, fun k c' hpk hki hk => ?_, hrun, hloop⟩
        rcases Nat.eq_or_lt_of_le hpk with rfl | hlt'
        · obtain rfl := Option.some.inj (hc.symm.trans hk)
          exact hmem
        · exact hskip k c' hlt' hki hk
      · have hnone : ¬r ≠ none := fun hne =>
          (hiff.mp hne).elim hmem (getElem?_ne_nul hs hc)
        rw [if_neg hnone]
        refine ⟨p, le_rfl, hp, fun k c' hpk hkp => by omega, fun c' hc' => ?_, ?_⟩
        · obtain rfl := Option.some.inj (hc.symm.trans hc')
          exact hmem
        · rw [decide_eq_false (Nat.ne_of_lt hlt)]
          rfl
    · -- the NUL is found in any delimiter string
      obtain ⟨r, hr, hiff⟩ := strchr_spec hd nul
      rw [load_eq ((hb _ le_rfl).trans hget), ok_bind, hr, ok_bind,
        if_pos (hiff.mpr (Or.inr rfl)), if_pos rfl]
      refine ⟨s.length, le_rfl, le_rfl, fun k c' hpk hkp => by omega, fun c' hc' => ?_, ?_⟩
      · rw [List.getElem?_eq_none le_rfl] at hc'
        cases hc'
      · rw [decide_eq_true rfl]
        rfl

/-- The second loop goes over the token. The induction is on the turns that are left. -/
theorem token_loop_spec (hs : nul ∉ s) (hd : nul ∉ d) : ∀ fuel p, Uncut b s p → p ≤ s.length →
    s.length - p < fuel → ∃ j, p ≤ j ∧ j ≤ s.length ∧
      (∀ k c, p ≤ k → k < j → s[k]? = some c → c ∉ d) ∧ (∀ c, s[j]? = some c → c ∈ d) ∧
      token_loop (c_string d) b fuel p = .ok j := by
  intro fuel
  induction fuel with
  | zero => omega
  | succ fuel ih =>
    intro p hb hp hfuel
    rw [token_loop]
    rcases c_string_cases hp with ⟨c, hc, hget⟩ | ⟨rfl, hget⟩
    · have hlt : p < s.length := (List.getElem?_eq_some_iff.mp hc).1
      obtain ⟨r, hr, hiff⟩ := strchr_spec hd c
      rw [load_eq ((hb p le_rfl).trans hget), ok_bind, hr, ok_bind]
      by_cases hmem : c ∈ d
      · rw [if_neg (hiff.mpr (Or.inl hmem))]
        refine ⟨p, le_rfl, hp, fun k c' hpk hkp => by omega, fun c' hc' => ?_, rfl⟩
        obtain rfl := Option.some.inj (hc.symm.trans hc')
        exact hmem
      · have hnone : r = none := by
          by_contra hne
          exact (hiff.mp hne).elim hmem (getElem?_ne_nul hs hc)
        rw [if_pos hnone]
        obtain ⟨j, hpj, hj, hrun, hstop, hloop⟩ := ih (p + 1) (hb.mono (Nat.le_succ p)) hlt
          (by omega)
        refine ⟨j, by omega, hj, fun k c' hpk hkj hk => ?_, hstop, hloop⟩
        rcases Nat.eq_or_lt_of_le hpk with rfl | hlt'
        · obtain rfl := Option.some.inj (hc.symm.trans hk)
          exact hmem
        · exact hrun k c' hlt' hkj hk
    · obtain ⟨r, hr, hiff⟩ := strchr_spec hd nul
      rw [load_eq ((hb _ le_rfl).trans hget), ok_bind, hr, ok_bind,
        if_neg (hiff.mpr (Or.inr rfl))]
      refine ⟨s.length, le_rfl, le_rfl, fun k c' hpk hkp => by omega, fun c' hc' => ?_, rfl⟩
      rw [List.getElem?_eq_none le_rfl] at hc'
      cases hc'

end Pintos.Lib.Strings
