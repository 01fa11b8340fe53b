/-
Lists kept in order by insertion, and served from their end.

A line is the elements that wait, in the order of their arrival, and a key for each. It serves
the greatest key first and equal keys in the order of their arrival: `argmax` is the first of the
greatest. A list that is kept by ascending keys serves its line from the end, if an element that
arrives goes in front of all elements with the same key. The comparison of the insertion is `≤`
for that reason; with `<` the last to come would be the first to go.
-/
import Mathlib.Tactic
import Mathlib.Data.List.MinMax
import Mathlib.Data.List.Sort

set_option autoImplicit false

namespace Fifo

/-! ## Ordered insertion -/

section Insertion

variable {α : Type*} {less R : α → α → Prop} [DecidableRel less] {l : List α} {a last : α}

/-- The last element of an ordered list comes after all others. -/
theorem pairwise_last (h : l.Pairwise R) (hl : l.getLast? = some last) {b : α} (hb : b ∈ l) :
    b = last ∨ R b last := by
  obtain ⟨pre, rfl⟩ := List.getLast?_eq_some_iff.mp hl
  rcases List.mem_append.mp hb with hb | hb
  · exact Or.inr ((List.pairwise_append.mp h).2.2 b hb last (List.mem_singleton_self last))
  · exact Or.inl (List.mem_singleton.mp hb)

/-- An insertion that goes by one order keeps another one, if they agree on the new element. -/
theorem pairwise_orderedInsert [IsTrans α less] (hless : l.Pairwise less) (h : l.Pairwise R)
    (hbefore : ∀ b ∈ l, ¬ less a b → R b a) (hafter : ∀ b ∈ l, less a b → R a b) :
    (l.orderedInsert less a).Pairwise R := by
  induction l with
  | nil => exact List.pairwise_singleton R a
  | cons b l ih =>
    rw [List.pairwise_cons] at hless h
    by_cases hab : less a b
    · -- all that comes after `b` comes after the new element too
      rw [List.orderedInsert_cons, if_pos hab]
      refine List.pairwise_cons.mpr ⟨fun x hx => ?_, List.pairwise_cons.mpr h⟩
      rcases List.mem_cons.mp hx with rfl | hx
      · exact hafter x List.mem_cons_self hab
      · exact hafter x (List.mem_cons_of_mem b hx) (IsTrans.trans _ _ _ hab (hless.1 x hx))
    · rw [List.orderedInsert_cons, if_neg hab]
      refine List.pairwise_cons.mpr ⟨fun x hx => ?_, ih hless.2 h.2 ?_ ?_⟩
      · rcases (List.mem_orderedInsert _).mp hx with rfl | hx
        · exact hbefore b List.mem_cons_self hab
        · exact h.1 x hx
      · exact fun x hx => hbefore x (List.mem_cons_of_mem b hx)
      · exact fun x hx => hafter x (List.mem_cons_of_mem b hx)

end Insertion

/-! ## Lines -/

/-- Those who wait, first come first, and their keys. -/
structure Line (α β : Type*) where
  arrivals : List α
  key : α → β

variable {α β : Type*} [LinearOrder β] {L : Line α β} {xs : List α} {t u : α}

/-- Whose turn it is: of those with the greatest key the first that came. -/
def Line.next (L : Line α β) : Option α := L.arrivals.argmax L.key

/-- One more comes. -/
def Line.join (L : Line α β) (t : α) : Line α β := { L with arrivals := L.arrivals ++ [t] }

/-- One leaves. -/
def Line.leave [DecidableEq α] (L : Line α β) (t : α) : Line α β :=
  { L with arrivals := L.arrivals.erase t }

/-- `u` is served before `t`. -/
def Line.Yields (L : Line α β) (t u : α) : Prop :=
  L.key t < L.key u ∨ L.key t = L.key u ∧ [u, t].Sublist L.arrivals

theorem Line.Yields.key_le (h : L.Yields t u) : L.key t ≤ L.key u := by
  rcases h with hlt | ⟨heq, -⟩
  · exact hlt.le
  · exact heq.le

/-- The list serves the line from its end. -/
structure Line.Serves (L : Line α β) (xs : List α) : Prop where
  perm : xs.Perm L.arrivals
  order : xs.Pairwise L.Yields

theorem Line.Serves.sorted (h : L.Serves xs) :
    xs.Pairwise (fun a b => L.key a ≤ L.key b) := h.order.imp Line.Yields.key_le

/-- Two that are on a list without repetitions, one before the other. -/
theorem idxOf_le_of_sublist [DecidableEq α] {l : List α} (hnd : l.Nodup)
    (h : [u, t].Sublist l) : l.idxOf u ≤ l.idxOf t := by
  induction l with
  | nil => cases h
  | cons a l ih =>
    by_cases hua : a = u
    · rw [hua, List.idxOf_cons_self]
      exact Nat.zero_le _
    · have hrest : [u, t].Sublist l := by
        cases h with
        | cons _ hsub => exact hsub
        | cons_cons _ _ => exact absurd rfl hua
      have htl : t ∈ l := hrest.subset (by simp)
      have hta : a ≠ t := by
        rintro rfl
        exact (List.nodup_cons.mp hnd).1 htl
      rw [List.idxOf_cons_ne _ hua, List.idxOf_cons_ne _ hta]
      exact Nat.succ_le_succ (ih (List.nodup_cons.mp hnd).2 hrest)

/-- **The turn is the last element's.** -/
theorem Line.Serves.next_eq [DecidableEq α] (h : L.Serves (xs ++ [t])) (hnd : L.arrivals.Nodup) :
    L.next = some t := by
  have hlast : ∀ u ∈ L.arrivals, u = t ∨ L.Yields u t :=
    fun u hu => pairwise_last h.order List.getLast?_concat (h.perm.mem_iff.mpr hu)
  rw [Line.next, List.argmax_eq_some_iff]
  refine ⟨h.perm.mem_iff.mp (by simp), fun u hu => ?_, fun u hu hle => ?_⟩
  · rcases hlast u hu with rfl | hyields
    · exact le_rfl
    · exact hyields.key_le
  · rcases hlast u hu with rfl | hlt | ⟨-, hsub⟩
    · exact le_rfl
    · exact absurd hlt (not_lt.mpr hle)
    · exact idxOf_le_of_sublist hnd hsub

/-- **An arrival** goes in front of the first element whose key is no smaller. -/
theorem Line.Serves.join (h : L.Serves xs) (t : α) :
    (L.join t).Serves (xs.orderedInsert (fun a b => L.key a ≤ L.key b) t) := by
  have htrans : IsTrans α (fun a b => L.key a ≤ L.key b) := ⟨fun _ _ _ => le_trans⟩
  have hlater : ∀ {a b : α}, L.Yields a b → (L.join t).Yields a b := by
    rintro a b (hlt | ⟨heq, hsub⟩)
    · exact Or.inl hlt
    · exact Or.inr ⟨heq, hsub.trans (List.sublist_append_left _ _)⟩
  constructor
  · exact (List.perm_orderedInsert _ t xs).trans
      ((h.perm.cons t).trans (List.perm_append_singleton t _).symm)
  · refine pairwise_orderedInsert h.sorted (h.order.imp hlater) (fun b _ hless => ?_)
      (fun b hb hless => ?_)
    · exact Or.inl (not_le.mp hless)
    · -- with the same key, the new one comes after those that are there
      rcases lt_or_eq_of_le hless with hlt | heq
      · exact Or.inl hlt
      · have hmem : [b].Sublist L.arrivals :=
          List.singleton_sublist.mpr (h.perm.mem_iff.mp hb)
        exact Or.inr ⟨heq, hmem.append (List.Sublist.refl [t])⟩

/-- **The one who is served** leaves the rest in order. -/
theorem Line.Serves.leave [DecidableEq α] (h : L.Serves (xs ++ [t])) (hnd : L.arrivals.Nodup) :
    (L.leave t).Serves xs := by
  have hne : ∀ u ∈ xs, u ≠ t := by
    have hnd' := h.perm.nodup_iff.mpr hnd
    exact fun u hu => (List.nodup_append.mp hnd').2.2 u hu t (List.mem_singleton_self t)
  constructor
  · have herase := h.perm.erase t
    rwa [List.erase_append_right _ (fun ht => hne t ht rfl), List.erase_cons_head,
      List.append_nil] at herase
  · refine (List.pairwise_append.mp h.order).1.imp_of_mem (fun {a b} ha hb hyields => ?_)
    rcases hyields with hlt | ⟨heq, hsub⟩
    · exact Or.inl hlt
    · have herase := hsub.erase t
      rw [List.erase_of_not_mem (by simp [(hne a ha).symm, (hne b hb).symm])] at herase
      exact Or.inr ⟨heq, herase⟩

/-- The keys of those who do not wait do not matter. -/
theorem Line.Serves.congr {key : α → β} (h : L.Serves xs)
    (hkey : ∀ a ∈ L.arrivals, key a = L.key a) :
    Line.Serves { L with key := key } xs := by
  refine ⟨h.perm, h.order.imp_of_mem (fun {a b} ha hb hyields => ?_)⟩
  simp only [Line.Yields, hkey a (h.perm.mem_iff.mp ha), hkey b (h.perm.mem_iff.mp hb)]
  exact hyields

/-- **First come, first served** among equal keys. -/
theorem Line.next_fifo [DecidableEq α] (hnd : L.arrivals.Nodup)
    (hbefore : [t, u].Sublist L.arrivals) (hkey : L.key t = L.key u) (hne : t ≠ u) :
    L.next ≠ some u := by
  intro hnext
  rw [Line.next, List.argmax_eq_some_iff] at hnext
  have htl : t ∈ L.arrivals := hbefore.subset (by simp)
  have hle := hnext.2.2 t htl hkey.ge
  have hle' := idxOf_le_of_sublist hnd hbefore
  exact hne (List.idxOf_inj htl |>.mp (le_antisymm hle' hle))

end Fifo
