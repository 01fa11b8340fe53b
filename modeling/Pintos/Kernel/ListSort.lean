/-
`list_sort` of `lib/kernel/list.c`: a natural merge sort in place.

A pass goes over the list once, finds two adjacent runs at a time and merges them by splicing
single elements forward. It ends with as many runs as it counted, so a pass that counts at most
one has sorted the list, and a pass that counts more leaves fewer descents than it found.
-/
import Pintos.Kernel.ListOps
import Pintos.Library.StableMerge

set_option autoImplicit false

namespace Pintos.Kernel.Lists

open DoubleLinks StableMerge

variable {α : Type} [DecidableEq α]

/-! ## The code -/

/-- The loop of `is_sorted`. -/
def is_sorted_loop (less : α → α → Bool) (h : Links α) (b : α) : ℕ → α → Res Bool
  | 0, _ => .error .diverge
  | fuel + 1, a => do
    let a ← list_next h a
    if a = b then return true
    else do
      let p ← list_prev h a
      if less a p then return false else is_sorted_loop less h b fuel a

/-- `is_sorted`. -/
def is_sorted (fuel : ℕ) (less : α → α → Bool) (h : Links α) (a b : α) : Res Bool :=
  if a = b then .ok true else is_sorted_loop less h b fuel a

/-- The loop of `find_end_of_run`. -/
def find_end_loop (less : α → α → Bool) (h : Links α) (b : α) : ℕ → α → Res α
  | 0, _ => .error .diverge
  | fuel + 1, a => do
    let a ← list_next h a
    if a = b then return a
    else do
      let p ← list_prev h a
      if less a p then return a else find_end_loop less h b fuel a

/-- `find_end_of_run`. -/
def find_end_of_run (fuel : ℕ) (less : α → α → Bool) (h : Links α) (a b : α) : Res α := do
  ASSERT (a ≠ b)
  find_end_loop less h b fuel a

/-- The loop of `inplace_merge`. -/
def merge_loop (less : α → α → Bool) (b1 : α) : ℕ → Links α → α → α → Res (Links α)
  | 0, _, _, _ => .error .diverge
  | fuel + 1, h, a0, a1b0 =>
    if a0 ≠ a1b0 ∧ a1b0 ≠ b1 then
      if !less a1b0 a0 then do
        let a0 ← list_next h a0
        merge_loop less b1 fuel h a0 a1b0
      else do
        let a1b0 ← list_next h a1b0
        let p ← list_prev h a1b0
        let h ← list_splice h a0 p a1b0
        merge_loop less b1 fuel h a0 a1b0
    else .ok h

/-- `inplace_merge`. -/
def inplace_merge (fuel : ℕ) (less : α → α → Bool) (h : Links α) (a0 a1b0 b1 : α) :
    Res (Links α) := do
  let s ← is_sorted fuel less h a0 a1b0
  ASSERT (s = true)
  let s ← is_sorted fuel less h a1b0 b1
  ASSERT (s = true)
  merge_loop less b1 fuel h a0 a1b0

/-- The `for` loop of `list_sort`: one pass over the list, from `a0` on, with the runs that were
output so far. -/
def pass_loop (fuel : ℕ) (less : α → α → Bool) (list : ListHdr α) :
    ℕ → Links α → α → ℕ → Res (Links α × ℕ)
  | 0, _, _, _ => .error .diverge
  | turns + 1, h, a0, output_run_cnt =>
    if a0 = list_end list then .ok (h, output_run_cnt)
    else do
      let output_run_cnt := output_run_cnt + 1
      let a1b0 ← find_end_of_run fuel less h a0 (list_end list)
      if a1b0 = list_end list then return (h, output_run_cnt)
      else do
        let b1 ← find_end_of_run fuel less h a1b0 (list_end list)
        let h ← inplace_merge fuel less h a0 a1b0 b1
        pass_loop fuel less list turns h b1 output_run_cnt

/-- The `do` loop of `list_sort`. -/
def sort_loop (fuel : ℕ) (less : α → α → Bool) (list : ListHdr α) :
    ℕ → Links α → Res (Links α)
  | 0, _ => .error .diverge
  | passes + 1, h => do
    let a0 ← list_begin h list
    let r ← pass_loop fuel less list fuel h a0 0
    if 1 < r.2 then sort_loop fuel less list passes r.1 else return r.1

/-- `list_sort`. -/
def list_sort (fuel : ℕ) (h : Links α) (list : ListHdr α) (less : α → α → Bool) :
    Res (Links α) := do
  let h ← sort_loop fuel less list fuel h
  let b ← list_begin h list
  let s ← is_sorted fuel less h b (list_end list)
  ASSERT (s = true)
  return h

/-! ## The order -/

/-- `less` is a strict weak order. -/
structure StrictWeak (less : α → α → Bool) : Prop where
  irrefl : ∀ a, less a a = false
  trans : ∀ a b c, less a b = true → less b c = true → less a c = true
  incomp : ∀ a b c, less a b = false → less b a = false → less b c = false →
    less c b = false → less a c = false ∧ less c a = false

/-- Not out of order. -/
def le_of (less : α → α → Bool) (a b : α) : Bool := !less b a

variable {less : α → α → Bool}

omit [DecidableEq α] in
theorem StrictWeak.asymm (hs : StrictWeak less) {a b : α} (h : less a b = true) :
    less b a = false := by
  by_contra hba
  have haa := hs.trans a b a h (by simpa using hba)
  rw [hs.irrefl] at haa
  cases haa

omit [DecidableEq α] in
theorem StrictWeak.le_total (hs : StrictWeak less) (a b : α) :
    (le_of less a b || le_of less b a) = true := by
  unfold le_of
  cases hab : less a b with
  | true => simp [hs.asymm hab]
  | false => simp

omit [DecidableEq α] in
theorem StrictWeak.le_trans (hs : StrictWeak less) (a b c : α) (hab : le_of less a b = true)
    (hbc : le_of less b c = true) : le_of less a c = true := by
  unfold le_of at *
  rw [Bool.not_eq_true'] at *
  by_contra hca
  have hca : less c a = true := by simpa using hca
  cases h₁ : less a b with
  | true =>
    have hcb := hs.trans c a b hca h₁
    rw [hbc] at hcb
    cases hcb
  | false =>
    cases h₂ : less b c with
    | true =>
      have hba := hs.trans b c a h₂ hca
      rw [hab] at hba
      cases hba
    | false =>
      -- equal to `b` both, `a` and `c` are equal
      have heq := (hs.incomp a b c h₁ hab h₂ hbc).2
      rw [hca] at heq
      cases heq

/-! ## Walking -/

variable {h : Links α} {list : ListHdr α} {pre post xs ys : List α}

omit [DecidableEq α] in
theorem WellLinked.next_of (hw : WellLinked h list (pre ++ ys ++ post)) {x : α} {l : List α}
    (hx : ys = l ++ [x]) : list_next h x = .ok (pos list post) := by
  refine hw.next (l := list.head :: pre ++ l) ?_
  rw [hx]
  simp

omit [DecidableEq α] in
theorem WellLinked.prev_of (hw : WellLinked h list (pre ++ ys ++ post)) {x : α} {l : List α}
    (hx : ys = l ++ [x]) : list_prev h (pos list post) = .ok x := by
  refine hw.prev (l := list.head :: pre ++ l) ?_
  rw [hx]
  simp

omit [DecidableEq α] in
/-- Two positions are the same only when nothing lies between them. -/
theorem WellLinked.pos_eq_iff (hw : WellLinked h list (pre ++ ys ++ post)) :
    pos list (ys ++ post) = pos list post ↔ ys = [] := by
  cases ys with
  | nil => exact iff_of_true rfl rfl
  | cons y ys =>
    refine iff_of_false ?_ (by simp)
    intro heq
    obtain ⟨_, _, _, _, _, _, hc, _, _, hpos, hne, _⟩ := hw.range (by simp)
    exact hne (hpos.symm.trans heq)

/-- The loop of `is_sorted`, from `x` on. -/
theorem is_sorted_loop_spec {x : α} {fuel : ℕ} (hw : WellLinked h list (pre ++ x :: ys ++ post))
    (hs : (x :: ys).IsChain (fun a b => le_of less a b = true)) (hfuel : ys.length < fuel) :
    is_sorted_loop less h (pos list post) fuel x = .ok true := by
  induction ys generalizing pre x fuel with
  | nil =>
    obtain ⟨n, rfl⟩ := Nat.exists_eq_succ_of_ne_zero (Nat.ne_of_gt hfuel)
    have hnext : list_next h x = .ok (pos list post) := hw.next_of (l := []) rfl
    rw [is_sorted_loop, hnext]
    simp only [ok_bind, if_true]
    rfl
  | cons y ys ih =>
    obtain ⟨n, rfl⟩ := Nat.exists_eq_succ_of_ne_zero (Nat.ne_of_gt (Nat.zero_lt_of_lt hfuel))
    obtain ⟨hxy, hys⟩ := List.isChain_cons_cons.mp hs
    have hw₁ : WellLinked h list (pre ++ [x] ++ (y :: ys ++ post)) := by
      rw [List.append_assoc, List.singleton_append, ← List.cons_append, ← List.append_assoc]
      exact hw
    have hw₂ : WellLinked h list (pre ++ [x] ++ (y :: ys) ++ post) := by
      rw [List.append_assoc (pre ++ [x])]
      exact hw₁
    have hnext : list_next h x = .ok y := hw₁.next_of (l := []) rfl
    have hprev : list_prev h y = .ok x := hw₁.prev_of (l := []) rfl
    have hne : y ≠ pos list post := by
      intro heq
      have hnil := hw₂.pos_eq_iff.mp heq
      cases hnil
    have hless : less y x = false := by simpa [le_of] using hxy
    rw [is_sorted_loop, hnext]
    simp only [ok_bind]
    rw [if_neg hne, hprev]
    simp only [ok_bind, hless]
    exact ih hw₂ hys (by simpa using hfuel)

/-- **The assertions.** `is_sorted` on a sorted range. -/
theorem is_sorted_spec {fuel : ℕ} (hw : WellLinked h list (pre ++ ys ++ post))
    (hs : ys.IsChain (fun a b => le_of less a b = true)) (hfuel : ys.length < fuel) :
    is_sorted fuel less h (pos list (ys ++ post)) (pos list post) = .ok true := by
  cases ys with
  | nil => exact if_pos rfl
  | cons x ys =>
    rw [is_sorted, if_neg (fun heq => (by cases hw.pos_eq_iff.mp heq))]
    exact is_sorted_loop_spec hw hs (Nat.lt_of_succ_lt hfuel)

/-- The loop of `find_end_of_run`, from `x` on. -/
theorem find_end_loop_spec {x : α} {fuel : ℕ} (hw : WellLinked h list (pre ++ x :: ys))
    (hfuel : ys.length < fuel) :
    find_end_loop less h (list_end list) fuel x
      = .ok (pos list (run (le_of less) x ys).2) := by
  induction ys generalizing pre x fuel with
  | nil =>
    obtain ⟨n, rfl⟩ := Nat.exists_eq_succ_of_ne_zero (Nat.ne_of_gt hfuel)
    have hw' : WellLinked h list (pre ++ [x] ++ []) := by
      rw [List.append_nil]
      exact hw
    have hnext : list_next h x = .ok list.tail := hw'.next_of (l := []) rfl
    rw [find_end_loop, hnext]
    simp only [ok_bind]
    exact if_pos rfl
  | cons y ys ih =>
    obtain ⟨n, rfl⟩ := Nat.exists_eq_succ_of_ne_zero (Nat.ne_of_gt (Nat.zero_lt_of_lt hfuel))
    have hw₁ : WellLinked h list (pre ++ [x] ++ y :: ys) := by
      rw [← List.append_cons]
      exact hw
    have hnext : list_next h x = .ok y := hw₁.next_of (l := []) rfl
    have hprev : list_prev h y = .ok x := hw₁.prev_of (l := []) rfl
    have hne : y ≠ list_end list := by
      intro heq
      have hnil := hw₁.pos_eq_end.mp heq
      cases hnil
    rw [find_end_loop, hnext]
    simp only [ok_bind]
    rw [if_neg hne, hprev]
    simp only [ok_bind]
    by_cases hle : le_of less x y = true
    · have hless : less y x = false := by simpa [le_of] using hle
      simp only [hless, run, if_pos hle]
      exact ih hw₁ (by simpa using hfuel)
    · have hless : less y x = true := by simpa [le_of] using hle
      simp only [hless, run, if_neg hle]
      rfl

/-- **`find_end_of_run`** returns the position behind the run. -/
theorem find_end_of_run_spec {x : α} {fuel : ℕ} (hw : WellLinked h list (pre ++ x :: ys))
    (hfuel : ys.length < fuel) :
    find_end_of_run fuel less h (pos list (x :: ys)) (list_end list)
      = .ok (pos list (run (le_of less) x ys).2) := by
  have hne : pos list (x :: ys) ≠ list_end list := by
    intro heq
    have hnil := hw.pos_eq_end.mp heq
    cases hnil
  rw [find_end_of_run, ASSERT_pos hne]
  exact find_end_loop_spec hw hfuel

/-! ## Merging in place -/

/-- **The loop of `inplace_merge`** merges the two ranges. -/
theorem merge_loop_spec {as bs : List α} {fuel : ℕ}
    (hw : WellLinked h list (pre ++ as ++ bs ++ post)) (hfuel : as.length + bs.length < fuel) :
    ∃ h', merge_loop less (pos list post) fuel h (pos list (as ++ bs ++ post))
        (pos list (bs ++ post)) = .ok h'
      ∧ WellLinked h' list (pre ++ List.merge as bs (le_of less) ++ post) := by
  induction fuel generalizing h pre as bs with
  | zero => omega
  | succ n ih =>
    have hwa : WellLinked h list (pre ++ as ++ (bs ++ post)) := by
      rw [← List.append_assoc]
      exact hw
    have hassoc : as ++ bs ++ post = as ++ (bs ++ post) := List.append_assoc ..
    rw [merge_loop, hassoc]
    cases as with
    | nil =>
      rw [if_neg (fun hc => hc.1 rfl)]
      refine ⟨h, rfl, ?_⟩
      rw [List.nil_merge]
      rw [List.append_nil] at hw
      exact hw
    | cons x as =>
      cases bs with
      | nil =>
        rw [if_neg (fun hc => hc.2 rfl)]
        refine ⟨h, rfl, ?_⟩
        rw [List.merge_right]
        rw [List.append_nil] at hw
        exact hw
      | cons y bs =>
        have hne₁ : pos list (x :: as ++ (y :: bs ++ post)) ≠ pos list (y :: bs ++ post) :=
          fun heq => (by cases hwa.pos_eq_iff.mp heq)
        have hne₂ : pos list (y :: bs ++ post) ≠ pos list post :=
          fun heq => (by cases hw.pos_eq_iff.mp heq)
        rw [if_pos ⟨hne₁, hne₂⟩]
        show ∃ h', (if (!less y x) = true then _ else _) = _ ∧ _
        by_cases hle : le_of less x y = true
        · -- the first element stays in front
          have hw₁ : WellLinked h list (pre ++ [x] ++ as ++ y :: bs ++ post) := by
            have hl : pre ++ [x] ++ as = pre ++ x :: as := by simp
            rw [hl]
            exact hw
          have hw₂ : WellLinked h list (pre ++ [x] ++ (as ++ (y :: bs ++ post))) := by
            rw [← List.append_assoc, ← List.append_assoc]
            exact hw₁
          have hnext : list_next h x = .ok (pos list (as ++ (y :: bs ++ post))) :=
            hw₂.next_of (l := []) rfl
          obtain ⟨h', hloop, hw'⟩ := ih hw₁ (by
            simp only [List.length_cons] at hfuel ⊢
            omega)
          refine ⟨h', ?_, ?_⟩
          · have hless : (!less y x) = true := hle
            rw [if_pos hless]
            show (list_next h x >>= _) = _
            rw [hnext]
            simp only [ok_bind]
            rw [List.append_assoc] at hloop
            exact hloop
          · rw [List.cons_merge_cons_pos _ _ _ hle]
            have hl : pre ++ x :: List.merge as (y :: bs) (le_of less)
                = pre ++ [x] ++ List.merge as (y :: bs) (le_of less) := by simp
            rw [hl]
            exact hw'
        · -- the first element of the second run is spliced to the front
          have hl₁ : pre ++ x :: as ++ y :: bs ++ post
              = pre ++ x :: as ++ [y] ++ (bs ++ post) := by simp
          have hw₁ : WellLinked h list (pre ++ x :: as ++ [y] ++ (bs ++ post)) := by
            rw [← hl₁]
            exact hw
          have hnext : list_next h y = .ok (pos list (bs ++ post)) := hw₁.next_of (l := []) rfl
          have hprev : list_prev h (pos list (bs ++ post)) = .ok y := hw₁.prev_of (l := []) rfl
          obtain ⟨h₁, hsplice, hw₂, _⟩ := hw₁.splice_back (List.cons_ne_nil x as)
          have hw₃ : WellLinked h₁ list (pre ++ [y] ++ x :: as ++ bs ++ post) := by
            rw [List.append_assoc _ bs post]
            exact hw₂
          obtain ⟨h', hloop, hw'⟩ := ih hw₃ (by
            simp only [List.length_cons] at hfuel ⊢
            omega)
          refine ⟨h', ?_, ?_⟩
          · have hless : ¬ (!less y x) = true := hle
            rw [if_neg hless]
            show (list_next h y >>= _) = _
            rw [hnext]
            simp only [ok_bind]
            rw [hprev]
            simp only [ok_bind]
            have hs : list_splice h x y (pos list (bs ++ post)) = .ok h₁ := hsplice
            show (list_splice h x y (pos list (bs ++ post)) >>= _) = _
            rw [hs]
            exact hloop
          · rw [List.cons_merge_cons_neg _ _ _ hle]
            have hl : pre ++ y :: List.merge (x :: as) bs (le_of less)
                = pre ++ [y] ++ List.merge (x :: as) bs (le_of less) := by simp
            rw [hl]
            exact hw'

/-- **`inplace_merge`**: its assertions hold, and it merges the two runs. -/
theorem inplace_merge_spec {as bs : List α} {fuel : ℕ}
    (hw : WellLinked h list (pre ++ as ++ bs ++ post))
    (has : as.IsChain (fun a b => le_of less a b = true))
    (hbs : bs.IsChain (fun a b => le_of less a b = true))
    (hfuel : as.length + bs.length < fuel) :
    ∃ h', inplace_merge fuel less h (pos list (as ++ bs ++ post)) (pos list (bs ++ post))
        (pos list post) = .ok h'
      ∧ WellLinked h' list (pre ++ List.merge as bs (le_of less) ++ post) := by
  have hwa : WellLinked h list (pre ++ as ++ (bs ++ post)) := by
    rw [← List.append_assoc]
    exact hw
  have hsa := is_sorted_spec hwa has (Nat.lt_of_le_of_lt (Nat.le_add_right ..) hfuel)
  have hsb := is_sorted_spec hw hbs (Nat.lt_of_le_of_lt (Nat.le_add_left ..) hfuel)
  obtain ⟨h', hloop, hw'⟩ := @merge_loop_spec _ _ less _ _ _ _ _ _ _ hw hfuel
  refine ⟨h', ?_, hw'⟩
  rw [← List.append_assoc] at hsa
  rw [inplace_merge, hsa]
  simp only [ok_bind]
  rw [ASSERT_pos trivial, hsb]
  simp only [ok_bind]
  rw [ASSERT_pos trivial]
  exact hloop

/-! ## A pass -/

/-- What a pass makes of the part of the list that it has not seen: a stable rearrangement, with
at most as many runs as were counted, about half of those there were. -/
structure Passed (less : α → α → Bool) (xs ys : List α) (cnt : ℕ) : Prop where
  stable : Stable (le_of less) xs ys
  runs : descents (le_of less) ys ≤ cnt - 1
  counted : xs ≠ [] → 0 < cnt
  half : 2 * cnt ≤ if xs = [] then 0 else descents (le_of less) xs + 2

omit [DecidableEq α] in
/-- One turn of the pass: two runs are merged, and the rest is passed over. -/
theorem Passed.turn (hs : StrictWeak less) {as bs cs zs : List α} {cnt : ℕ} (hne : as ≠ [])
    (has : as.IsChain (fun a b => le_of less a b = true))
    (hbs : bs.IsChain (fun a b => le_of less a b = true))
    (hd : descents (le_of less) (as ++ bs ++ cs)
      = 1 + if cs = [] then 0 else 1 + descents (le_of less) cs)
    (hp : Passed less cs zs cnt) :
    Passed less (as ++ bs ++ cs) (List.merge as bs (le_of less) ++ zs) (1 + cnt) := by
  have htrans : Trans (fun a b => le_of less a b = true) (fun a b => le_of less a b = true)
      (fun a b => le_of less a b = true) := ⟨fun h₁ h₂ => hs.le_trans _ _ _ h₁ h₂⟩
  have has' := List.isChain_iff_pairwise.mp has
  have hbs' := List.isChain_iff_pairwise.mp hbs
  have hmerged : descents (le_of less) (List.merge as bs (le_of less)) = 0 := by
    rw [descents_eq_zero_iff]
    exact (List.pairwise_merge hs.le_trans hs.le_total as bs has' hbs').isChain
  have hhalf := hp.half
  constructor
  · exact (merge_stable hs.le_trans has').append hp.stable
  · by_cases hcs : cs = []
    · have hzs : zs = [] := by
        have hperm := hp.stable.1
        rw [hcs] at hperm
        exact hperm.eq_nil
      rw [hzs, List.append_nil, hmerged]
      exact Nat.zero_le _
    · have hle := descents_append_le (le_of less) (List.merge as bs (le_of less)) zs
      have hpos := hp.counted hcs
      have hruns := hp.runs
      omega
  · intro _
    omega
  · have hne' : as ++ bs ++ cs ≠ [] := by simp [hne]
    rw [if_neg hne', hd]
    by_cases hcs : cs = []
    · rw [if_pos hcs] at hhalf ⊢
      omega
    · rw [if_neg hcs] at hhalf ⊢
      omega

/-- **A pass** of `list_sort`, from where it is to the end of the list. -/
theorem pass_loop_spec (hs : StrictWeak less) {fuel turns c : ℕ}
    (hw : WellLinked h list (pre ++ xs)) (hfuel : xs.length < fuel) (hturns : xs.length < turns) :
    ∃ h' ys cnt, pass_loop fuel less list turns h (pos list xs) c = .ok (h', c + cnt)
      ∧ WellLinked h' list (pre ++ ys) ∧ Passed less xs ys cnt := by
  induction turns generalizing h pre xs c with
  | zero => omega
  | succ n ih =>
    rw [pass_loop]
    cases xs with
    | nil =>
      refine ⟨h, [], 0, if_pos rfl, hw, Stable.refl _ _, Nat.le_refl _, fun h => absurd rfl h, ?_⟩
      exact Nat.le_refl _
    | cons x xs =>
      have hne : pos list (x :: xs) ≠ list_end list := by
        intro heq
        have hnil := hw.pos_eq_end.mp heq
        cases hnil
      rw [if_neg hne, find_end_of_run_spec hw (Nat.lt_of_succ_lt hfuel)]
      simp only [ok_bind]
      have hsplit := run_append (le_of less) x xs
      have hsorted := run_sorted (le_of less) x xs
      have hdesc := descents_run (le_of less) x xs
      obtain ⟨r, hr⟩ := run_cons (le_of less) x xs
      generalize (run (le_of less) x xs).1 = as at *
      generalize (run (le_of less) x xs).2 = rest at *
      have hwa : WellLinked h list (pre ++ as ++ rest) := by
        rw [List.append_assoc, hsplit]
        exact hw
      cases rest with
      | nil =>
        -- the list ends with this run
        rw [if_pos rfl] at hdesc
        rw [if_pos (hwa.pos_eq_end.mpr rfl)]
        refine ⟨h, x :: xs, 1, rfl, hw, Stable.refl _ _, ?_, fun _ => Nat.one_pos, ?_⟩
        · rw [hdesc]
        · rw [if_neg (List.cons_ne_nil x xs)]
          omega
      | cons y rest =>
        have hne' : pos list (y :: rest) ≠ list_end list := by
          intro heq
          have hnil := hwa.pos_eq_end.mp heq
          cases hnil
        have hlen : as.length + (y :: rest).length = (x :: xs).length := by
          rw [← List.length_append, hsplit]
        rw [if_neg (List.cons_ne_nil y rest)] at hdesc
        rw [if_neg hne', find_end_of_run_spec hwa (by
          simp only [List.length_cons] at hlen hfuel
          omega)]
        simp only [ok_bind]
        have hsplit₂ := run_append (le_of less) y rest
        have hsorted₂ := run_sorted (le_of less) y rest
        have hdesc₂ := descents_run (le_of less) y rest
        generalize (run (le_of less) y rest).1 = bs at *
        generalize (run (le_of less) y rest).2 = cs at *
        have hall : as ++ bs ++ cs = x :: xs := by rw [List.append_assoc, hsplit₂, hsplit]
        have hlen₂ : as.length + bs.length + cs.length = (x :: xs).length := by
          rw [← hall, List.length_append, List.length_append]
        have hwm : WellLinked h list (pre ++ as ++ bs ++ cs) := by
          rw [List.append_assoc (pre ++ as), hsplit₂]
          exact hwa
        have has : as ≠ [] := by
          rw [hr]
          exact List.cons_ne_nil x r
        have haslen : 0 < as.length := List.length_pos_iff.mpr has
        have hshort : as.length + bs.length < fuel := by omega
        obtain ⟨h₁, hmerge, hw₁⟩ := inplace_merge_spec hwm hsorted hsorted₂ hshort
        obtain ⟨h', zs, cnt, hloop, hw', hpassed⟩ := ih (c := c + 1) hw₁ (by omega) (by omega)
        refine ⟨h', List.merge as bs (le_of less) ++ zs, 1 + cnt, ?_, ?_, ?_⟩
        · have hpos₀ : pos list (x :: xs) = pos list (as ++ bs ++ cs) := by rw [hall]
          have hpos₁ : pos list (y :: rest) = pos list (bs ++ cs) := by rw [hsplit₂]
          rw [hpos₀, hpos₁, hmerge]
          simp only [ok_bind]
          rw [hloop, Nat.add_assoc]
        · rw [← List.append_assoc]
          exact hw'
        · rw [← hall] at hdesc ⊢
          rw [hdesc₂] at hdesc
          exact hpassed.turn hs has hsorted hsorted₂ hdesc

/-! ## `list_sort` -/

/-- The passes go on until one run is left; each leaves fewer descents than it found. -/
theorem sort_loop_spec (hs : StrictWeak less) {fuel passes : ℕ} (hw : WellLinked h list xs)
    (hfuel : xs.length < fuel) (hpasses : descents (le_of less) xs < passes) :
    ∃ h' ys, sort_loop fuel less list passes h = .ok h' ∧ WellLinked h' list ys
      ∧ Stable (le_of less) xs ys ∧ descents (le_of less) ys = 0 := by
  induction passes generalizing h xs with
  | zero => omega
  | succ n ih =>
    have hw₀ : WellLinked h list ([] ++ xs) := hw
    obtain ⟨h₁, ys, cnt, hloop, hw₁, hpassed⟩ := pass_loop_spec hs (c := 0) hw₀ hfuel hfuel
    have hruns := hpassed.runs
    have hhalf := hpassed.half
    rw [sort_loop, hw.begin]
    simp only [ok_bind]
    rw [hloop]
    simp only [ok_bind, Nat.zero_add]
    by_cases hcnt : 1 < cnt
    · rw [if_pos hcnt]
      have hfewer : descents (le_of less) ys < n := by
        split at hhalf <;> omega
      obtain ⟨h', zs, hrest, hw', hstable, hsorted⟩ := ih hw₁ (by
        rw [List.nil_append, hpassed.stable.1.length_eq]
        exact hfuel) hfewer
      exact ⟨h', zs, hrest, hw', hpassed.stable.trans hstable, hsorted⟩
    · rw [if_neg hcnt]
      exact ⟨h₁, ys, rfl, hw₁, hpassed.stable, by omega⟩

/-- **`list_sort` is a stable sort.** With any bound on the turns of its loops that is above the
length of the list it returns, no assertion fails, and the list is well linked again: a
permutation of what it was, in order, in which no two elements that were not out of order, equal
ones in particular, have changed places. -/
theorem list_sort_spec (hs : StrictWeak less) (hw : WellLinked h list xs) {fuel : ℕ}
    (hfuel : xs.length < fuel) :
    ∃ h' ys, list_sort fuel h list less = .ok h' ∧ WellLinked h' list ys
      ∧ ys.Perm xs ∧ ys.Pairwise (fun a b => less b a = false)
      ∧ ∀ a b, [a, b].Sublist xs → less b a = false → [a, b].Sublist ys := by
  have hdesc : descents (le_of less) xs < fuel := by
    cases xs with
    | nil => exact Nat.zero_lt_of_lt hfuel
    | cons x xs =>
      have hlt := descents_lt_length (le_of less) x xs
      omega
  obtain ⟨h', ys, hloop, hw', hstable, hzero⟩ :=
    sort_loop_spec hs hw hfuel hdesc
  have hchain := descents_eq_zero_iff.mp hzero
  have hw₀ : WellLinked h' list ([] ++ ys ++ []) := by
    rw [List.append_nil]
    exact hw'
  have hlen : ys.length < fuel := by
    rw [hstable.1.length_eq]
    exact hfuel
  have hsorted := is_sorted_spec hw₀ hchain hlen
  rw [List.append_nil] at hsorted
  refine ⟨h', ys, ?_, hw', hstable.1, ?_, ?_⟩
  · rw [list_sort, hloop]
    simp only [ok_bind]
    rw [hw'.begin]
    simp only [ok_bind]
    show (is_sorted fuel less h' (pos list ys) (pos list []) >>= _) = _
    rw [hsorted]
    rfl
  · have htrans : Trans (fun a b => le_of less a b = true) (fun a b => le_of less a b = true)
        (fun a b => le_of less a b = true) := ⟨fun h₁ h₂ => hs.le_trans _ _ _ h₁ h₂⟩
    refine (List.isChain_iff_pairwise.mp hchain).imp (fun hab => ?_)
    simpa [le_of] using hab
  · intro a b hab hless
    exact hstable.2 a b hab (by simpa [le_of] using hless)

/-- Sorting 2 and 3 in descending order. -/
theorem list_sort_spec_two :
    ∃ h' ys, list_sort 3 two_elements ⟨0, 1⟩ (fun a b => decide (b < a)) = .ok h'
      ∧ WellLinked h' ⟨0, 1⟩ ys ∧ ys.Perm [2, 3]
      ∧ ys.Pairwise (fun a b => decide (a < b) = false)
      ∧ ∀ a b, [a, b].Sublist [2, 3] → decide (a < b) = false → [a, b].Sublist ys := by
  have hs : StrictWeak (fun a b : ℕ => decide (b < a)) := by
    constructor
    · intro a
      simp
    · intro a b c hab hbc
      simp only [decide_eq_true_eq] at *
      omega
    · intro a b c h₁ h₂ h₃ h₄
      simp only [decide_eq_false_iff_not] at *
      omega
  exact list_sort_spec hs two_elements_linked (by decide)

end Pintos.Kernel.Lists
