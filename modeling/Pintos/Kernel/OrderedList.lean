/-
Ordered insertion and removal from the back (`lib/kernel/list.c`), pointer by pointer.

`list_insert_ordered` goes from the front to the first element that the new one is `less` than,
and inserts in front of it.
-/
import Pintos.Kernel.Lists

set_option autoImplicit false

namespace Pintos.Kernel.Lists

open DoubleLinks

variable {α : Type} [DecidableEq α]

/-! ## The code -/

/-- `list_init`. -/
def list_init (h : Links α) (list : ListHdr α) : Links α :=
  let h := set_prev h list.head none
  let h := set_next h list.head (some list.tail)
  let h := set_prev h list.tail (some list.head)
  set_next h list.tail none

/-- The loop of `list_insert_ordered`, which ends with the element to insert before. -/
def insert_place (list : ListHdr α) (less : α → α → Bool) (elem : α) :
    ℕ → Links α → α → Res α
  | 0, _, _ => .error .diverge
  | fuel + 1, h, e =>
    if e = list_end list then .ok e
    else if less elem e then .ok e
    else do
      let e ← list_next h e
      insert_place list less elem fuel h e

/-- `list_insert_ordered`. -/
def list_insert_ordered (fuel : ℕ) (h : Links α) (list : ListHdr α) (elem : α)
    (less : α → α → Bool) : Res (Links α) := do
  let e ← list_begin h list
  let e ← insert_place list less elem fuel h e
  list_insert h e elem

/-- `list_back`. -/
def list_back (h : Links α) (list : ListHdr α) : Res α := do
  let empty ← list_empty h list
  ASSERT (empty = false)
  deref (h.prev list.tail)

/-- `list_pop_back`. -/
def list_pop_back (h : Links α) (list : ListHdr α) : Res (α × Links α) := do
  let back ← list_back h list
  let r ← list_remove h back
  return (back, r.2)

/-! ## What the code does to the list -/

variable {h h' : Links α} {list : ListHdr α} {xs pre post : List α} {e : α}

/-- A new list is empty. -/
theorem list_init_linked (h : Links α) (hne : list.head ≠ list.tail) :
    WellLinked (list_init h list) list [] where
  chain := by
    refine List.isChain_cons_cons.mpr ⟨⟨?_, ?_⟩, List.isChain_singleton _⟩
    · show Function.update (Function.update h.next list.head (some list.tail)) list.tail none
        list.head = some list.tail
      rw [Function.update_of_ne hne, Function.update_self]
    · exact Function.update_self ..
  front := by
    show Function.update (Function.update h.prev list.head none) list.tail (some list.head)
      list.head = none
    rw [Function.update_of_ne hne, Function.update_self]
  back := Function.update_self ..
  nodup := by simpa [nodes] using hne

/-- The loop stops in front of the first element that the new one is less than. The induction is
on what lies behind the position. -/
theorem insert_place_spec (less : α → α → Bool) {fuel : ℕ}
    (hw : WellLinked h list (pre ++ post)) (hfuel : post.length < fuel) :
    insert_place list less e fuel h (pos list post)
      = .ok (pos list (post.dropWhile (fun b => !less e b))) := by
  induction post generalizing pre fuel with
  | nil =>
    obtain ⟨fuel, rfl⟩ := Nat.exists_eq_succ_of_ne_zero (Nat.ne_of_gt hfuel)
    rw [insert_place, if_pos (hw.pos_eq_end.mpr rfl)]
    rfl
  | cons b post ih =>
    obtain ⟨fuel, rfl⟩ := Nat.exists_eq_succ_of_ne_zero (Nat.ne_of_gt (Nat.zero_lt_of_lt hfuel))
    have hend : pos list (b :: post) ≠ list_end list := fun heq =>
      List.cons_ne_nil b post (hw.pos_eq_end.mp heq)
    have hb : pos list (b :: post) = b := rfl
    rw [insert_place, if_neg hend, hb]
    by_cases hless : less e b = true
    · rw [if_pos hless, List.dropWhile_cons_of_neg (by simp [hless])]
      rfl
    · have hw' : WellLinked h list ((pre ++ [b]) ++ post) := by
        rw [List.append_assoc]
        exact hw
      rw [if_neg hless, List.dropWhile_cons_of_pos (by simp [hless]),
        hw'.next (l := list.head :: pre) rfl, ok_bind]
      exact ih hw' (Nat.lt_of_succ_lt_succ hfuel)

/-- **`list_insert_ordered`** inserts into the sequence. -/
theorem WellLinked.insert_ordered (hw : WellLinked h list xs) (he : e ∉ nodes list xs)
    (less : α → α → Bool) {fuel : ℕ} (hfuel : xs.length < fuel) :
    ∃ h', list_insert_ordered fuel h list e less = .ok h' ∧
      WellLinked h' list (xs.orderedInsert (fun a b => less a b = true) e) ∧
      Untouched h h' (e :: nodes list xs) := by
  have hplace := @insert_place_spec α _ h list [] xs e less fuel hw hfuel
  have hsplit := List.takeWhile_append_dropWhile (p := fun b => !less e b) (l := xs)
  have hw' : WellLinked h list (xs.takeWhile (fun b => !less e b)
      ++ xs.dropWhile (fun b => !less e b)) := by
    rw [hsplit]
    exact hw
  obtain ⟨h', hrun, hw'', hu⟩ := hw'.insert (e := e) (by rw [hsplit]; exact he)
  refine ⟨h', ?_, ?_, ?_⟩
  · rw [list_insert_ordered, hw.begin, ok_bind, hplace, ok_bind, hrun]
  · rw [List.orderedInsert_eq_take_drop]
    simpa using hw''
  · rwa [hsplit] at hu

/-- **`list_pop_back`** takes the last element off. -/
theorem WellLinked.pop_back (hw : WellLinked h list (xs ++ [e])) :
    ∃ h', list_pop_back h list = .ok (e, h') ∧ WellLinked h' list xs ∧
      Untouched h h' (nodes list xs) := by
  have hw₁ : WellLinked h list (xs ++ e :: []) := hw
  obtain ⟨h', hremove, hw', hu⟩ := hw₁.remove
  rw [List.append_nil] at hw' hu
  have hempty : list_empty h list = .ok false := by
    rw [hw.empty, decide_eq_false (by simp)]
  have hw₂ : WellLinked h list ((xs ++ [e]) ++ []) := by
    rw [List.append_nil]
    exact hw
  obtain ⟨l, a, r, hl, -, -, hlink⟩ := hw₂.at_pos
  have hlast : e = a := @last_inj _ (list.head :: xs) l _ _ hl
  have hback : list_back h list = .ok e := by
    have hprev : h.prev list.tail = some a := hlink.2
    rw [list_back, hempty, ok_bind, ASSERT_pos rfl, ok_bind, hprev, hlast]
    rfl
  exact ⟨h', by rw [list_pop_back, hback, ok_bind, hremove, ok_bind]; rfl, hw', hu⟩

end Pintos.Kernel.Lists
