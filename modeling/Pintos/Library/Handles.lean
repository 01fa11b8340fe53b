/-
Handles on counted objects.

A handle is an address under which a program keeps a reference to an object, and an object
lives as long as its count says that somebody refers to it. The addresses are given out in
ascending order, so that a handle that was closed is never taken for one that was created later.

What a program owes its objects is `Covers`: each counts at least the references there are.
Creating a handle has to come with one count more, and closing one gives one count back; the
two rules below are all that the code that does it has to be checked against.
-/
import Mathlib.Tactic

set_option autoImplicit false

/-- The open handles, the newest first, with the objects behind them. -/
structure Handles (α : Type*) where
  entries : List (ℕ × α)
  /-- The address of the next handle. -/
  next : ℕ
  descending : (next :: entries.map Prod.fst).Pairwise (fun a b => b < a)

namespace Handles

variable {α : Type*} {t : Handles α} {h h' : ℕ} {a b : α}

/-! ## Tables of handles -/

def empty : Handles α := ⟨[], 0, List.pairwise_singleton _ 0⟩

/-- The object behind a handle, if the handle is open. -/
def get (t : Handles α) (h : ℕ) : Option α := t.entries.lookup h

/-- The references the handles are. -/
def targets (t : Handles α) : List α := t.entries.map Prod.snd

/-- A new handle, at the address `t.next`. -/
def create (t : Handles α) (a : α) : Handles α where
  entries := (t.next, a) :: t.entries
  next := t.next + 1
  descending := by
    refine List.pairwise_cons.mpr ⟨fun b hb => ?_, t.descending⟩
    rcases List.mem_cons.mp hb with rfl | hb
    · exact Nat.lt_succ_self _
    · exact (List.rel_of_pairwise_cons t.descending hb).trans (Nat.lt_succ_self _)

def close (t : Handles α) (h : ℕ) : Handles α where
  entries := t.entries.eraseP fun d => d.1 == h
  next := t.next
  descending := by
    have hsub : (t.entries.eraseP fun d => d.1 == h).Sublist t.entries := List.eraseP_sublist
    exact t.descending.sublist ((hsub.map Prod.fst).cons_cons t.next)

/-- An open handle is older than the next one. -/
theorem lt_next (hget : t.get h = some a) : h < t.next := by
  obtain ⟨l, l', hl, -⟩ := List.lookup_eq_some_iff.mp hget
  refine List.rel_of_pairwise_cons t.descending (List.mem_map.mpr ⟨(h, a), ?_, rfl⟩)
  rw [hl]
  exact List.mem_append_right l List.mem_cons_self

theorem mem_targets (hget : t.get h = some a) : a ∈ t.targets := by
  obtain ⟨l, l', hl, -⟩ := List.lookup_eq_some_iff.mp hget
  unfold targets
  rw [hl]
  exact List.mem_map.mpr ⟨(h, a), List.mem_append_right l List.mem_cons_self, rfl⟩

@[simp] theorem get_create_self : (t.create a).get t.next = some a := by
  simp [get, create]

/-- Creating a handle changes no other one. -/
theorem get_create (hget : t.get h = some b) : (t.create a).get h = some b := by
  have hne : h ≠ t.next := (lt_next hget).ne
  unfold get create
  rw [List.lookup_cons, beq_false_of_ne hne]
  exact hget

/-- Closing a handle changes no other one. -/
theorem get_close (hne : h' ≠ h) : (t.close h).get h' = t.get h' := by
  unfold get close
  dsimp only
  induction t.entries with
  | nil => rfl
  | cons d l ih =>
    by_cases hd : d.1 = h
    · have hd' : h' ≠ d.1 := by rwa [hd]
      rw [List.eraseP_cons_of_pos (by simpa using hd), List.lookup_cons, beq_false_of_ne hd']
    · rw [List.eraseP_cons_of_neg (by simpa using hd), List.lookup_cons, List.lookup_cons, ih]

/-- Closing a handle takes one reference away. -/
theorem targets_close (hget : t.get h = some a) : t.targets.Perm (a :: (t.close h).targets) := by
  obtain ⟨l, l', hl, hnot⟩ := List.lookup_eq_some_iff.mp hget
  have hskip : ∀ d ∈ l, ¬ (d.1 == h) = true := fun d hd heq => by
    have hne := hnot d hd
    rw [eq_of_beq heq, bne_self_eq_false] at hne
    cases hne
  have hfirst : ((h, a) :: l').eraseP (fun d => d.1 == h) = l' :=
    List.eraseP_cons_of_pos (beq_self_eq_true h)
  unfold targets close
  dsimp only
  rw [hl, List.eraseP_append_right _ hskip, hfirst, List.map_append, List.map_append,
    List.map_cons]
  exact List.perm_middle

/-! ## Counts -/

section Counts

variable [DecidableEq α] {cnt cnt' : α → ℕ} {refs refs' : List α}

/-- Each object counts at least the references there are. -/
def Covers (cnt : α → ℕ) (refs : List α) : Prop := ∀ a, refs.count a ≤ cnt a

theorem Covers.perm (hc : Covers cnt refs) (hp : refs.Perm refs') : Covers cnt refs' := by
  intro a
  rw [← hp.count_eq a]
  exact hc a

theorem Covers.mono (hc : Covers cnt refs) (hle : ∀ a, cnt a ≤ cnt' a) : Covers cnt' refs :=
  fun a => (hc a).trans (hle a)

/-- **The rule of creation.** One reference more, if it is counted. -/
theorem Covers.cons (hc : Covers cnt refs) (hle : ∀ b, cnt b + [a].count b ≤ cnt' b) :
    Covers cnt' (a :: refs) := by
  intro b
  have hb := hle b
  have hrefs := hc b
  rw [← List.singleton_append, List.count_append]
  omega

/-- **The rule of closing.** One reference less, for one count. -/
theorem Covers.tail (hc : Covers cnt (a :: refs)) (hle : ∀ b, cnt b ≤ cnt' b + [a].count b) :
    Covers cnt' refs := by
  intro b
  have hb := hle b
  have hrefs := hc b
  rw [← List.singleton_append, List.count_append] at hrefs
  omega

/-- An object that is referred to has a positive count. -/
theorem Covers.pos (hc : Covers cnt refs) (ha : a ∈ refs) : 0 < cnt a :=
  (List.count_pos_iff.mpr ha).trans_le (hc a)

end Counts

end Handles
