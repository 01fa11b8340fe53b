/-
Doubly linked chains.

A heap of links is two partial functions, and a chain is a list each of whose neighbours point
to each other. Everything that is done to doubly linked lists in place is a few applications of
`join`, which lets two elements point to each other: the two lemmas that carry the rest are that
a join elsewhere leaves a chain alone (`Chain.join`) and that a join at the ends makes one chain
of two (`Chain.glue`).
-/
import Mathlib.Tactic

set_option autoImplicit false

namespace DoubleLinks

variable {α : Type*}

/-- The links of all elements. -/
@[ext] structure Links (α : Type*) where
  prev : α → Option α
  next : α → Option α

/-- Two elements that point to each other. -/
def Link (h : Links α) (a b : α) : Prop := h.next a = some b ∧ h.prev b = some a

/-- Neighbours point to each other. -/
def Chain (h : Links α) (l : List α) : Prop := l.IsChain (Link h)

/-- The links of all other elements are as they were. -/
def Untouched (h h' : Links α) (S : List α) : Prop :=
  ∀ x, x ∉ S → h'.prev x = h.prev x ∧ h'.next x = h.next x

variable {h h' : Links α} {a b : α} {l r : List α}

theorem Untouched.refl (h : Links α) (S : List α) : Untouched h h S := fun _ _ => ⟨rfl, rfl⟩

theorem Untouched.trans {h'' : Links α} {S : List α} (h₁ : Untouched h h' S)
    (h₂ : Untouched h' h'' S) : Untouched h h'' S := by
  intro x hx
  exact ⟨(h₂ x hx).1.trans (h₁ x hx).1, (h₂ x hx).2.trans (h₁ x hx).2⟩

theorem Untouched.mono {S T : List α} (hu : Untouched h h' S) (hsub : S ⊆ T) :
    Untouched h h' T := fun x hx => hu x (fun hmem => hx (hsub hmem))

/-! ## Chains -/

theorem chain_append {l r : List α} : Chain h (l ++ r) ↔ Chain h l ∧ Chain h r
    ∧ ∀ x ∈ l.getLast?, ∀ y ∈ r.head?, Link h x y := List.isChain_append

theorem chain_concat_cons : Chain h (l ++ [a] ++ b :: r)
    ↔ Chain h (l ++ [a]) ∧ Link h a b ∧ Chain h (b :: r) := by
  rw [chain_append]
  simp only [List.getLast?_concat, List.head?_cons, Option.mem_some_iff]
  constructor
  · rintro ⟨hl, hr, hlink⟩
    exact ⟨hl, hlink a rfl b rfl, hr⟩
  · rintro ⟨hl, hlink, hr⟩
    refine ⟨hl, hr, ?_⟩
    rintro x rfl y rfl
    exact hlink

theorem chain_singleton (h : Links α) (a : α) : Chain h [a] := List.isChain_singleton a

/-- A chain needs the `next` of all but its last element and the `prev` of all but its first. -/
theorem Chain.congr (hc : Chain h l) (hnext : ∀ x ∈ l.dropLast, h'.next x = h.next x)
    (hprev : ∀ x ∈ l.tail, h'.prev x = h.prev x) : Chain h' l := by
  induction l with
  | nil => exact List.IsChain.nil
  | cons x l ih =>
    cases l with
    | nil => exact chain_singleton h' x
    | cons y l =>
      obtain ⟨⟨hn, hp⟩, hrest⟩ := List.isChain_cons_cons.mp hc
      refine List.isChain_cons_cons.mpr ⟨⟨?_, ?_⟩, ih hrest ?_ ?_⟩
      · rw [hnext x (by simp), hn]
      · rw [hprev y (by simp), hp]
      · intro z hz
        exact hnext z (by rw [List.dropLast_cons_cons]; exact List.mem_cons_of_mem _ hz)
      · intro z hz
        exact hprev z (List.mem_cons_of_mem _ hz)

/-- What is untouched is a chain still. -/
theorem Chain.untouched {S : List α} (hc : Chain h l) (hu : Untouched h h' S)
    (hd : ∀ x ∈ l, x ∉ S) : Chain h' l :=
  hc.congr (fun x hx => (hu x (hd x (List.mem_of_mem_dropLast hx))).2)
    (fun x hx => (hu x (hd x (List.mem_of_mem_tail hx))).1)

/-! ## Joining -/

variable [DecidableEq α]

/-- Let `a` and `b` point to each other. -/
def Links.join (h : Links α) (a b : α) : Links α :=
  ⟨Function.update h.prev b (some a), Function.update h.next a (some b)⟩

theorem join_link (h : Links α) (a b : α) : Link (h.join a b) a b :=
  ⟨Function.update_self .., Function.update_self ..⟩

theorem join_prev_of_ne {x : α} (hx : x ≠ b) : (h.join a b).prev x = h.prev x :=
  Function.update_of_ne hx ..

theorem join_next_of_ne {x : α} (hx : x ≠ a) : (h.join a b).next x = h.next x :=
  Function.update_of_ne hx ..

theorem join_untouched (h : Links α) (a b : α) : Untouched h (h.join a b) [a, b] := by
  intro x hx
  rw [List.mem_cons, List.mem_singleton, not_or] at hx
  exact ⟨join_prev_of_ne hx.2, join_next_of_ne hx.1⟩

/-- A join elsewhere leaves a chain alone. -/
theorem Chain.join (hc : Chain h l) (ha : a ∉ l.dropLast) (hb : b ∉ l.tail) :
    Chain (h.join a b) l :=
  hc.congr (fun _ hx => join_next_of_ne (fun heq => ha (heq ▸ hx)))
    (fun _ hx => join_prev_of_ne (fun heq => hb (heq ▸ hx)))

/-- **Gluing.** Joining the end of a chain to the beginning of another makes one chain. -/
theorem Chain.glue (hl : Chain h (l ++ [a])) (hr : Chain h (b :: r))
    (hnd : (l ++ [a] ++ b :: r).Nodup) : Chain (h.join a b) (l ++ [a] ++ b :: r) := by
  obtain ⟨hndl, hndr, hdis⟩ := List.nodup_append.mp hnd
  have hal : a ∉ l := fun hmem => by
    obtain ⟨_, _, hd⟩ := List.nodup_append.mp hndl
    exact hd a hmem a (List.mem_singleton_self a) rfl
  have hbr : b ∉ r := (List.nodup_cons.mp hndr).1
  refine chain_concat_cons.mpr ⟨hl.join ?_ ?_, join_link h a b, hr.join ?_ ?_⟩
  · rw [List.dropLast_concat]
    exact hal
  · intro hmem
    exact hdis b (List.mem_of_mem_tail hmem) b List.mem_cons_self rfl
  · intro hmem
    exact hdis a (by simp) a (List.mem_of_mem_dropLast hmem) rfl
  · exact hbr

/-! ## Taking a segment out and putting one in -/

variable {m : List α} {c d : α}

/-- **Taking out** what lies between `a` and `b`. -/
theorem Chain.unlink (hc : Chain h (l ++ [a] ++ m ++ b :: r))
    (hnd : (l ++ [a] ++ m ++ b :: r).Nodup) :
    Chain (h.join a b) (l ++ [a] ++ b :: r) ∧ Chain (h.join a b) m := by
  have hleft : Chain h (l ++ [a]) := (chain_append.mp (chain_append.mp hc).1).1
  have hmid : Chain h m := (chain_append.mp (chain_append.mp hc).1).2.1
  have hright : Chain h (b :: r) := (chain_append.mp hc).2.1
  have hsub : (l ++ [a] ++ b :: r).Sublist (l ++ [a] ++ m ++ b :: r) := by
    rw [List.append_assoc (l ++ [a]) m]
    exact List.Sublist.append_left (List.sublist_append_right m _) _
  refine ⟨hleft.glue hright (hnd.sublist hsub), hmid.join ?_ ?_⟩
  · intro hmem
    obtain ⟨hnd', _, _⟩ := List.nodup_append.mp hnd
    obtain ⟨_, _, hdis⟩ := List.nodup_append.mp hnd'
    exact hdis a (by simp) a (List.mem_of_mem_dropLast hmem) rfl
  · intro hmem
    obtain ⟨_, _, hdis⟩ := List.nodup_append.mp hnd
    exact hdis b (by simp [List.mem_of_mem_tail hmem]) b List.mem_cons_self rfl

/-- **Putting in.** A segment from `c` to `d` between `a` and `b`. -/
theorem Chain.relink {m₁ m₂ : List α} (hc : Chain h (l ++ [a] ++ b :: r)) (hm : Chain h m)
    (hfirst : m = c :: m₁) (hlast : m = m₂ ++ [d])
    (hnd : (l ++ [a] ++ m ++ b :: r).Nodup) :
    Chain ((h.join a c).join d b) (l ++ [a] ++ m ++ b :: r) := by
  obtain ⟨hleft, _, hright⟩ := chain_concat_cons.mp hc
  obtain ⟨hndl, hndr, hdis⟩ := List.nodup_append.mp hnd
  -- first the part before the segment
  have h₁ : Chain (h.join a c) (l ++ [a] ++ m) := by
    rw [hfirst] at hm hndl ⊢
    exact hleft.glue hm hndl
  have h₂ : Chain (h.join a c) (b :: r) := by
    apply hright.join
    · intro hmem
      exact hdis a (by simp) a (List.mem_of_mem_dropLast hmem) rfl
    · intro hmem
      exact hdis c (by simp [hfirst]) c (List.mem_cons_of_mem _ hmem) rfl
  -- then the part behind it
  rw [hlast, ← List.append_assoc] at h₁ hnd ⊢
  exact h₁.glue h₂ hnd

end DoubleLinks
