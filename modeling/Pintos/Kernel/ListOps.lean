/-
`lib/kernel/list.c`: the loops that change links while they walk on them.

`list_reverse` swaps the two links of each element and goes on through the one that it has just
written. `list_unique` takes elements out of the list that it walks on, and may put them on
another one.
-/
import Mathlib.Data.List.Destutter
import Pintos.Kernel.Lists

set_option autoImplicit false

namespace Pintos.Kernel.Lists

open DoubleLinks

variable {α : Type} [DecidableEq α] {h h' : Links α} {list : ListHdr α} {xs pre post : List α}

/-! ## `list_reverse` -/

/-- The links with those of some elements swapped. -/
def swapped (h : Links α) (ys : List α) : Links α :=
  ⟨fun x => if x ∈ ys then h.next x else h.prev x,
    fun x => if x ∈ ys then h.prev x else h.next x⟩

theorem swapped_cons {x : α} {ys : List α} (hx : x ∉ ys) :
    swapped (swap_links h x) ys = swapped h (x :: ys) := by
  have hp : ∀ z, z ≠ x → (swap_links h x).prev z = h.prev z :=
    fun z hz => Function.update_of_ne hz ..
  have hn : ∀ z, z ≠ x → (swap_links h x).next z = h.next z :=
    fun z hz => Function.update_of_ne hz ..
  have hpx : (swap_links h x).prev x = h.next x := Function.update_self ..
  have hnx : (swap_links h x).next x = h.prev x := Function.update_self ..
  apply Links.ext
  · funext z
    by_cases hz : z = x
    · simp [swapped, hz, hx, hpx]
    · simp [swapped, hz, hp z hz, hn z hz]
  · funext z
    by_cases hz : z = x
    · simp [swapped, hz, hx, hnx]
    · simp [swapped, hz, hp z hz, hn z hz]

/-- The loop swaps the links of every element from where it is. -/
theorem reverse_loop_eq {ys : List α} {fuel : ℕ} (hc : Chain h (ys ++ [list.tail]))
    (hnd : (ys ++ [list.tail]).Nodup) (hfuel : ys.length < fuel) :
    reverse_loop list fuel h (pos list ys) = .ok (swapped h ys) := by
  induction ys generalizing h fuel with
  | nil =>
    obtain ⟨n, rfl⟩ := Nat.exists_eq_succ_of_ne_zero (Nat.ne_of_gt hfuel)
    rw [reverse_loop]
    exact if_pos rfl
  | cons x ys ih =>
    obtain ⟨n, rfl⟩ := Nat.exists_eq_succ_of_ne_zero (Nat.ne_of_gt (Nat.zero_lt_of_lt hfuel))
    obtain ⟨hx, hnd'⟩ := List.nodup_cons.mp hnd
    obtain ⟨r, hr⟩ := from_pos list ys
    have hlink : Link h x (pos list ys) := by
      rw [List.cons_append, hr] at hc
      exact (List.isChain_cons_cons.mp hc).1
    have hne : x ≠ list_end list := by
      rintro heq
      exact hx (by rw [heq]; simp [list_end])
    have hu : Untouched h (swap_links h x) [x] := by
      intro z hz
      have hzx : z ≠ x := fun heq => hz (by rw [heq]; exact List.mem_singleton_self x)
      exact ⟨Function.update_of_ne hzx .., Function.update_of_ne hzx ..⟩
    have hc' : Chain (swap_links h x) (ys ++ [list.tail]) := by
      have htail : Chain h (ys ++ [list.tail]) := List.IsChain.tail hc
      refine htail.untouched hu (fun z hz hmem => ?_)
      rw [List.mem_singleton.mp hmem] at hz
      exact hx hz
    -- the swap puts the next element where the loop looks for it
    have hstep : (swap_links h x).prev x = some (pos list ys) := by
      rw [← hlink.1]
      exact Function.update_self ..
    show reverse_loop list (n + 1) h x = _
    rw [reverse_loop, if_neg hne]
    simp only [hstep, deref, ok_bind]
    rw [ih hc' hnd' (by simpa using hfuel), swapped_cons (fun hmem => hx (by simp [hmem]))]

/-- Swapping the links of a chain turns it round. -/
theorem chain_swapped (hc : Chain h xs) : Chain (swapped h xs) xs.reverse := by
  apply List.isChain_reverse.mpr
  apply List.IsChain.imp_of_mem_imp _ hc
  intro a b ha hb hlink
  exact ⟨by simp [swapped, hb, hlink.2], by simp [swapped, ha, hlink.1]⟩

/-- What `list_reverse` does after its loop: the ends of the list change places. -/
theorem list_reverse_eq (hw : WellLinked h list xs) {fuel : ℕ} (hfuel : xs.length < fuel)
    {a b : α} {m₁ m₂ : List α} (ha : xs = a :: m₁) (hb : xs = m₂ ++ [b]) :
    list_reverse fuel h list = .ok (((swapped h xs).join list.head b).join a list.tail) := by
  have hw₀ : WellLinked h list ([] ++ xs) := hw
  have hwb : WellLinked h list (xs ++ []) := by
    rw [List.append_nil]
    exact hw
  have hpos : pos list xs = a := by
    rw [ha]
    rfl
  obtain ⟨l, c, r, hl, hr, hn, hlink⟩ := hw₀.at_pos
  have hc : list.head = c := @last_inj _ [] l _ _ hl
  rw [hpos, ← hc] at hlink
  obtain ⟨l', d, _, hl', _, _, hlink'⟩ := hwb.at_pos
  have hd : b = d := by
    rw [hb, ← List.cons_append] at hl'
    exact last_inj hl'
  rw [← hd] at hlink'
  have hlink'' : Link h b list.tail := hlink'
  have hnd := hw.nodup
  have ham : a ∈ xs := by rw [ha]; exact List.mem_cons_self
  have hbm : b ∈ xs := by rw [hb]; simp
  obtain ⟨hhead, hnd'⟩ := List.nodup_cons.mp hnd
  obtain ⟨_, _, htail⟩ := List.nodup_append.mp hnd'
  have hheadx : list.head ∉ xs := fun hmem => hhead (by simp [hmem])
  have htailx : list.tail ∉ xs := fun hmem => htail _ hmem _ (by simp) rfl
  have hbt : b ≠ list.tail := fun heq => htailx (heq ▸ hbm)
  have hah : a ≠ list.head := fun heq => hheadx (heq ▸ ham)
  have hchain : Chain h (xs ++ [list.tail]) := List.IsChain.tail hw.chain
  have hne : xs ≠ [] := by
    rw [ha]
    simp
  rw [list_reverse, hw.empty]
  simp only [ok_bind]
  rw [if_neg (by simpa using hne), hw.begin]
  simp only [ok_bind]
  rw [reverse_loop_eq hchain hnd' hfuel]
  have hsn : (swapped h xs).next list.head = some a := by simp [swapped, hheadx, hlink.1]
  have hsp : (swapped h xs).prev list.tail = some b := by simp [swapped, htailx, hlink''.2]
  simp only [ok_bind, hsn, hsp]
  -- the four links that are swapped in the end
  generalize hsw : swapped h xs = sw
  have hbn : (set_prev (set_next sw list.head (some b)) list.tail (some a)).prev b
      = some list.tail := by
    refine (Function.update_of_ne hbt ..).trans ?_
    rw [← hsw]
    simp [swapped, hbm, hlink''.1, set_next]
  have han : (set_prev (set_next sw list.head (some b)) list.tail (some a)).next a
      = some list.head := by
    refine (Function.update_of_ne hah ..).trans ?_
    rw [← hsw]
    simp [swapped, ham, hlink.2]
  have hhn : (set_prev (set_next sw list.head (some b)) list.tail (some a)).next list.head
      = some b := Function.update_self ..
  have htp : (set_prev (set_next sw list.head (some b)) list.tail (some a)).prev list.tail
      = some a := Function.update_self ..
  rw [hhn, htp]
  simp only [deref, ok_bind]
  rw [hbn, han]
  refine congrArg Except.ok (Links.ext ?_ rfl)
  exact (Function.update_comm hbt ..).symm

/-- **`list_reverse`** turns the list round. -/
theorem WellLinked.reverse (hw : WellLinked h list xs) {fuel : ℕ} (hfuel : xs.length < fuel) :
    ∃ h', list_reverse fuel h list = .ok h' ∧ WellLinked h' list xs.reverse
      ∧ Untouched h h' (nodes list xs) := by
  by_cases hxs : xs = []
  · refine ⟨h, ?_, by rw [hxs] at hw ⊢; exact hw, Untouched.refl h _⟩
    rw [list_reverse, hw.empty]
    simp only [ok_bind]
    rw [if_pos (by simpa using hxs)]
    rfl
  obtain ⟨a, m₁, ha⟩ := List.exists_cons_of_ne_nil hxs
  have hb : xs = xs.dropLast ++ [xs.getLast hxs] := (List.dropLast_append_getLast hxs).symm
  generalize xs.getLast hxs = b at hb
  generalize xs.dropLast = m₂ at hb
  refine ⟨_, list_reverse_eq hw hfuel ha hb, ?_, ?_⟩
  · have hperm : (nodes list xs.reverse).Perm (nodes list xs) :=
      ((List.reverse_perm xs).cons _).append_right _
    have hnd : (nodes list xs.reverse).Nodup := hperm.nodup_iff.mpr hw.nodup
    have hnd₀ := hw.nodup
    obtain ⟨hhead, hnd'⟩ := List.nodup_cons.mp hnd₀
    obtain ⟨_, _, htail⟩ := List.nodup_append.mp hnd'
    have hheadx : list.head ∉ xs := fun hmem => hhead (by simp [hmem])
    have htailx : list.tail ∉ xs := fun hmem => htail _ hmem _ (by simp) rfl
    have hbm : b ∈ xs := by rw [hb]; simp
    have ham : a ∈ xs := by rw [ha]; exact List.mem_cons_self
    have hht : list.head ≠ list.tail := fun heq => hhead (by simp [heq])
    have hhb : list.head ≠ b := fun heq => hheadx (by rw [heq]; exact hbm)
    have hta : list.tail ≠ a := fun heq => htailx (by rw [heq]; exact ham)
    have hrev : xs.reverse = b :: m₂.reverse := by rw [hb]; simp
    have hrev' : xs.reverse = m₁.reverse ++ [a] := by rw [ha]; simp
    have hmid : Chain (swapped h xs) xs.reverse := by
      apply chain_swapped
      exact (chain_append.mp (List.IsChain.tail hw.chain)).1
    refine ⟨?_, ?_, ?_, hnd⟩
    · -- the head in front of the last element, and the tail behind the first
      have hn₁ : ([] ++ [list.head] ++ b :: m₂.reverse).Nodup := by
        rw [← hrev]
        exact (List.nodup_append.mp hnd).1
      have hfront : Chain ((swapped h xs).join list.head b) ([] ++ [list.head] ++ xs.reverse) := by
        rw [hrev] at hmid ⊢
        exact (chain_singleton _ list.head).glue hmid hn₁
      have hlist : [] ++ [list.head] ++ xs.reverse = list.head :: m₁.reverse ++ [a] := by
        rw [hrev']
        simp
      rw [hlist] at hfront
      have hall : nodes list xs.reverse = list.head :: m₁.reverse ++ [a] ++ [list.tail] := by
        rw [nodes, hrev']
        simp
      rw [hall] at hnd ⊢
      exact hfront.glue (chain_singleton _ list.tail) hnd
    · rw [join_prev_of_ne hht, join_prev_of_ne hhb]
      simp [swapped, hheadx, hw.front]
    · rw [join_next_of_ne hta, join_next_of_ne hht.symm]
      simp [swapped, htailx, hw.back]
  · intro x hx
    have hxm : x ∉ xs := fun hmem => hx (by simp [nodes, hmem])
    have hxh : x ≠ list.head := fun heq => hx (by simp [nodes, heq])
    have hxt : x ≠ list.tail := fun heq => hx (by simp [nodes, heq])
    have hxa : x ≠ a := fun heq => hxm (by rw [heq, ha]; exact List.mem_cons_self)
    have hxb : x ≠ b := fun heq => hxm (by rw [heq, hb]; simp)
    rw [join_prev_of_ne hxt, join_prev_of_ne hxb, join_next_of_ne hxa, join_next_of_ne hxh]
    simp [swapped, hxm]

/-! ## `list_unique` -/

/-- Two elements that are not equal according to `less`. -/
def Differ (less : α → α → Bool) (a b : α) : Prop := (less a b || less b a) = true

instance (less : α → α → Bool) : DecidableRel (Differ less) :=
  fun a b => inferInstanceAs (Decidable ((less a b || less b a) = true))

/-- The elements behind `e` that are equal to the last one kept. -/
def repeats (less : α → α → Bool) : α → List α → List α
  | _, [] => []
  | e, y :: ys => if Differ less e y then repeats less y ys else y :: repeats less e ys

/-- The elements of a list that are equal to the last one kept. -/
def all_repeats (less : α → α → Bool) : List α → List α
  | [] => []
  | e :: ys => repeats less e ys

omit [DecidableEq α] in
/-- The test of the loop. -/
theorem not_differ_iff (less : α → α → Bool) (a b : α) :
    (!less a b && !less b a) = true ↔ ¬ Differ less a b := by
  simp [Differ]

/-- The elements of the duplicates list, when there is one. -/
def dup_nodes (duplicates : Option (ListHdr α)) (ds : List α) : List α :=
  duplicates.elim [] (nodes · ds)

/-- Where there is a duplicates list, it is `ds`, apart from the list that is walked on. -/
def DupsAre (h : Links α) (duplicates : Option (ListHdr α)) (ds ns : List α) : Prop :=
  ∀ d ∈ duplicates, WellLinked h d ds ∧ ∀ x ∈ ns, x ∉ nodes d ds

/-- One element more at the end of the duplicates list. -/
theorem push_duplicate {d : ListHdr α} {ds : List α} {e : α} (hw : WellLinked h d ds)
    (he : e ∉ nodes d ds) :
    ∃ h', list_push_back h d e = .ok h' ∧ WellLinked h' d (ds ++ [e])
      ∧ Untouched h h' (e :: nodes d ds) := by
  have hw' : WellLinked h d (ds ++ []) := by
    rw [List.append_nil]
    exact hw
  have he' : e ∉ nodes d (ds ++ []) := by
    rw [List.append_nil]
    exact he
  have hins := hw'.insert he'
  rw [List.append_nil] at hins
  exact hins

/-- The loop of `list_unique`, from the element `e` that is kept. -/
theorem unique_loop_spec {duplicates : Option (ListHdr α)} (less : α → α → Bool) {e : α}
    {ys ds : List α} {fuel : ℕ} (hw : WellLinked h list (pre ++ e :: ys))
    (hd : DupsAre h duplicates ds (nodes list (pre ++ e :: ys))) (hfuel : ys.length < fuel) :
    ∃ h', unique_loop list duplicates less fuel h e = .ok h'
      ∧ WellLinked h' list (pre ++ ys.destutter' (Differ less) e)
      ∧ (∀ d ∈ duplicates, WellLinked h' d (ds ++ repeats less e ys))
      ∧ Untouched h h' (nodes list (pre ++ e :: ys) ++ dup_nodes duplicates ds) := by
  induction ys generalizing h pre e ds fuel with
  | nil =>
    obtain ⟨n, rfl⟩ := Nat.exists_eq_succ_of_ne_zero (Nat.ne_of_gt hfuel)
    have hnext : list_next h e = .ok list.tail := by
      have hw' : WellLinked h list ((pre ++ [e]) ++ []) := by
        rw [List.append_nil]
        exact hw
      exact hw'.next (l := list.head :: pre) rfl
    refine ⟨h, ?_, hw, fun d hmem => ?_, Untouched.refl h _⟩
    · rw [unique_loop, hnext]
      simp only [ok_bind]
      exact if_pos rfl
    · rw [repeats, List.append_nil]
      exact (hd d hmem).1
  | cons y ys ih =>
    obtain ⟨n, rfl⟩ := Nat.exists_eq_succ_of_ne_zero (Nat.ne_of_gt (Nat.zero_lt_of_lt hfuel))
    have hw' : WellLinked h list ((pre ++ [e]) ++ y :: ys) := by
      rw [← List.append_cons]
      exact hw
    have hnext : list_next h e = .ok y := hw'.next (l := list.head :: pre) rfl
    have hend : y ≠ list_end list := fun heq => by
      have hnil := hw'.pos_eq_end.mp heq
      cases hnil
    have hlen : ys.length < n := by simpa using hfuel
    rw [unique_loop, hnext]
    simp only [ok_bind]
    rw [if_neg hend]
    by_cases hdiff : Differ less e y
    · -- `y` is kept and the loop goes on from it
      rw [if_neg (fun h => (not_differ_iff less e y).mp h hdiff)]
      rw [List.append_cons] at hd ⊢
      obtain ⟨h', hloop, hl, hds, hu⟩ := ih hw' hd hlen
      refine ⟨h', hloop, ?_, ?_, hu⟩
      · rw [List.destutter'_cons_pos _ hdiff, List.append_cons]
        exact hl
      · rw [repeats, if_pos hdiff]
        exact hds
    · -- `y` is taken out
      rw [if_pos ((not_differ_iff less e y).mpr hdiff)]
      obtain ⟨h₁, hremove, hw₁, hu₁⟩ := hw'.remove
      have hsub : nodes list ((pre ++ [e]) ++ ys) ⊆ nodes list (pre ++ e :: y :: ys) := by
        intro x hx
        simp only [nodes, List.mem_cons, List.mem_append, List.cons_append] at hx ⊢
        tauto
      have hy : y ∈ nodes list (pre ++ e :: y :: ys) := by simp [nodes]
      rw [hremove, repeats, if_neg hdiff, List.destutter'_cons_neg _ hdiff]
      simp only [ok_bind]
      rw [← List.append_cons] at hw₁
      cases duplicates with
      | none =>
        obtain ⟨h', hloop, hl, _, hu⟩ :=
          @ih h₁ pre e ds n hw₁ (fun d hmem => (by cases hmem)) hlen
        refine ⟨h', hloop, hl, fun d hmem => (by cases hmem), ?_⟩
        rw [List.append_cons] at hu
        refine (hu₁.mono ?_).trans (hu.mono ?_)
        · exact fun x hx => List.mem_append_left _ (hsub hx)
        · intro x hx
          rcases List.mem_append.mp hx with hx | hx
          · exact List.mem_append_left _ (hsub hx)
          · cases hx
      | some d =>
        obtain ⟨hwd, hdis⟩ := hd d rfl
        have hwd₁ : WellLinked h₁ d ds :=
          hwd.untouched hu₁ (fun x hx hmem => hdis x (hsub hmem) hx)
        obtain ⟨h₂, hpush, hwd₂, hu₂⟩ := push_duplicate hwd₁ (hdis y hy)
        -- pushing leaves the list that is walked on alone
        have hynot : y ∉ nodes list ((pre ++ [e]) ++ ys) := by
          have hperm : (nodes list ((pre ++ [e]) ++ y :: ys)).Perm
              (y :: nodes list ((pre ++ [e]) ++ ys)) := by
            rw [nodes_append, nodes_append]
            exact List.perm_middle
          exact (List.nodup_cons.mp (hperm.nodup_iff.mp hw'.nodup)).1
        rw [List.append_cons] at hw₁
        have hw₂ : WellLinked h₂ list ((pre ++ [e]) ++ ys) := by
          refine hw₁.untouched hu₂ (fun x hx hmem => ?_)
          rcases List.mem_cons.mp hmem with rfl | hmem
          · exact hynot hx
          · exact hdis x (hsub hx) hmem
        rw [← List.append_cons] at hw₂
        have hd₂ : DupsAre h₂ (some d) (ds ++ [y]) (nodes list (pre ++ e :: ys)) := by
          intro d' hmem
          cases hmem
          refine ⟨hwd₂, fun x hx hmem => ?_⟩
          rw [List.append_cons] at hx
          simp only [nodes, List.mem_cons, List.mem_append, List.cons_append,
            List.not_mem_nil, or_false] at hmem
          have hxd : x ∉ nodes d ds := hdis x (hsub hx)
          simp only [nodes, List.mem_cons, List.mem_append, List.cons_append,
            List.not_mem_nil, or_false] at hxd
          have hxy : x ≠ y := fun heq => hynot (heq ▸ hx)
          tauto
        obtain ⟨h', hloop, hl, hds, hu⟩ := ih hw₂ hd₂ hlen
        refine ⟨h', ?_, hl, ?_, ?_⟩
        · show (list_push_back h₁ d y >>= fun h => unique_loop list (some d) less n h e) = _
          rw [hpush]
          exact hloop
        · intro d' hmem
          have hres := hds d' hmem
          rw [List.append_assoc, List.singleton_append] at hres
          exact hres
        · rw [List.append_cons] at hu
          refine (hu₁.mono ?_).trans ((hu₂.mono ?_).trans (hu.mono ?_))
          · exact fun x hx => List.mem_append_left _ (hsub hx)
          · intro x hx
            rcases List.mem_cons.mp hx with rfl | hx
            · exact List.mem_append_left _ hy
            · exact List.mem_append_right _ hx
          · intro x hx
            rcases List.mem_append.mp hx with hx | hx
            · exact List.mem_append_left _ (hsub hx)
            · have hx' : x ∈ nodes d (ds ++ [y]) := hx
              simp only [nodes, List.mem_cons, List.mem_append, List.cons_append,
                List.not_mem_nil, or_false] at hx'
              have hgoal : x ∈ nodes list (pre ++ e :: y :: ys) ++ nodes d ds := by
                simp only [nodes, List.mem_cons, List.mem_append, List.cons_append,
                  List.not_mem_nil, or_false]
                tauto
              exact hgoal

/-- **`list_unique`** keeps the first of each set of adjacent equal elements; the others go to
the end of the duplicates list, when there is one. -/
theorem WellLinked.unique {duplicates : Option (ListHdr α)} {ds : List α}
    (hw : WellLinked h list xs) (hd : DupsAre h duplicates ds (nodes list xs))
    (less : α → α → Bool) {fuel : ℕ} (hfuel : xs.length < fuel) :
    ∃ h', list_unique fuel h list duplicates less = .ok h'
      ∧ WellLinked h' list (xs.destutter (Differ less))
      ∧ (∀ d ∈ duplicates, WellLinked h' d (ds ++ all_repeats less xs))
      ∧ Untouched h h' (nodes list xs ++ dup_nodes duplicates ds) := by
  rw [list_unique, hw.empty]
  simp only [ok_bind]
  cases xs with
  | nil =>
    refine ⟨h, by rfl, hw, fun d hmem => ?_, Untouched.refl h _⟩
    rw [all_repeats, List.append_nil]
    exact (hd d hmem).1
  | cons e ys =>
    rw [hw.begin]
    simp only [ok_bind]
    obtain ⟨h', hloop, hl, hds, hu⟩ := @unique_loop_spec _ _ h list [] duplicates less e ys ds fuel
      hw hd (Nat.lt_of_succ_lt hfuel)
    exact ⟨h', hloop, hl, hds, hu⟩

/-! ## The operations on sequences -/

/-- **The pointer operations do what they say to the sequences.** In any heap, on any list that
is well linked: `list_insert`, `list_remove`, `list_splice` into another list, to an earlier and
to a later position of the same one, `list_reverse` and `list_unique` return, leave well-linked
lists of the sequences that they should, and touch no link of another list. -/
theorem list_ops_refine (h : Links α) :
    (∀ list pre post e, WellLinked h list (pre ++ post) → e ∉ nodes list (pre ++ post) →
      ∃ h', list_insert h (pos list post) e = .ok h' ∧ WellLinked h' list (pre ++ e :: post)
        ∧ Untouched h h' (e :: nodes list (pre ++ post)))
    ∧ (∀ list pre post e, WellLinked h list (pre ++ e :: post) →
      ∃ h', list_remove h e = .ok (pos list post, h') ∧ WellLinked h' list (pre ++ post)
        ∧ Untouched h h' (nodes list (pre ++ post)))
    ∧ (∀ list pre mid post list₂ pre₂ post₂, WellLinked h list (pre ++ mid ++ post) →
      WellLinked h list₂ (pre₂ ++ post₂) →
      (∀ x ∈ nodes list (pre ++ mid ++ post), x ∉ nodes list₂ (pre₂ ++ post₂)) →
      ∃ h', list_splice h (pos list₂ post₂) (pos list (mid ++ post)) (pos list post) = .ok h'
        ∧ WellLinked h' list (pre ++ post) ∧ WellLinked h' list₂ (pre₂ ++ mid ++ post₂)
        ∧ Untouched h h' (nodes list (pre ++ mid ++ post) ++ nodes list₂ (pre₂ ++ post₂)))
    ∧ (∀ list p q mid post, q ≠ [] → WellLinked h list (p ++ q ++ mid ++ post) →
      ∃ h', list_splice h (pos list (q ++ mid ++ post)) (pos list (mid ++ post)) (pos list post)
          = .ok h'
        ∧ WellLinked h' list (p ++ mid ++ q ++ post)
        ∧ Untouched h h' (nodes list (p ++ q ++ mid ++ post)))
    ∧ (∀ list pre mid p q, WellLinked h list (pre ++ mid ++ (p ++ q)) →
      ∃ h', list_splice h (pos list q) (pos list (mid ++ (p ++ q))) (pos list (p ++ q)) = .ok h'
        ∧ WellLinked h' list (pre ++ p ++ mid ++ q)
        ∧ Untouched h h' (nodes list (pre ++ mid ++ (p ++ q))))
    ∧ (∀ list xs fuel, WellLinked h list xs → xs.length < fuel →
      ∃ h', list_reverse fuel h list = .ok h' ∧ WellLinked h' list xs.reverse
        ∧ Untouched h h' (nodes list xs))
    ∧ (∀ list xs duplicates ds less fuel, WellLinked h list xs →
      DupsAre h duplicates ds (nodes list xs) → xs.length < fuel →
      ∃ h', list_unique fuel h list duplicates less = .ok h'
        ∧ WellLinked h' list (xs.destutter (Differ less))
        ∧ (∀ d ∈ duplicates, WellLinked h' d (ds ++ all_repeats less xs))
        ∧ Untouched h h' (nodes list xs ++ dup_nodes duplicates ds)) := by
  refine ⟨?_, ?_, ?_, ?_, ?_, ?_, ?_⟩
  · intro list pre post e hw he
    exact hw.insert he
  · intro list pre post e hw
    exact hw.remove
  · intro list pre mid post list₂ pre₂ post₂ hw hw₂ hdis
    exact hw.splice_into hw₂ hdis
  · intro list p q mid post hq hw
    exact hw.splice_back hq
  · intro list pre mid p q hw
    exact hw.splice_forward
  · intro list xs fuel hw hfuel
    exact hw.reverse hfuel
  · intro list xs duplicates ds less fuel hw hd hfuel
    exact hw.unique hd less hfuel

/-- Elements 2 and 3 between the head 0 and the tail 1. -/
def two_elements : Links ℕ :=
  ⟨fun x => if x = 2 then some 0 else if x = 3 then some 2 else if x = 1 then some 3 else none,
    fun x => if x = 0 then some 2 else if x = 2 then some 3 else if x = 3 then some 1 else none⟩

theorem two_elements_linked : WellLinked two_elements ⟨0, 1⟩ [2, 3] where
  chain := by simp [Chain, nodes, Link, two_elements]
  front := rfl
  back := rfl
  nodup := by decide

/-- Turning that list round. -/
theorem list_ops_refine_two :
    ∃ h', list_reverse 3 two_elements ⟨0, 1⟩ = .ok h' ∧ WellLinked h' ⟨0, 1⟩ [3, 2]
      ∧ Untouched two_elements h' (nodes ⟨0, 1⟩ [2, 3]) :=
  (list_ops_refine two_elements).2.2.2.2.2.1 ⟨0, 1⟩ [2, 3] 3 two_elements_linked (by decide)

end Pintos.Kernel.Lists
