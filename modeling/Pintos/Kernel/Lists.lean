/-
`lib/kernel/list.c`, pointer by pointer.

A list has a head and a tail element of its own, and the elements on it lie between them. The
elements are the addresses `α`, and their two links are kept in one heap for all lists, so that
an operation on one list could damage any other. A null pointer is `none`.

Loops have a bound on their turns, `fuel`; what a caller needs to know is that they return
when the bound is large enough. The comparison function is a function of the two elements: none
of these functions changes what it reads.
-/
import Pintos.Base
import Pintos.Library.DoubleLinks

set_option autoImplicit false

namespace Pintos.Kernel.Lists

open DoubleLinks

variable {α : Type}

/-! ## The code -/

section

variable [DecidableEq α]

/-- `struct list`: its two header elements. -/
structure ListHdr (α : Type) where
  head : α
  tail : α

/-- `elem->prev = v`. -/
def set_prev (h : Links α) (elem : α) (v : Option α) : Links α :=
  { h with prev := Function.update h.prev elem v }

/-- `elem->next = v`. -/
def set_next (h : Links α) (elem : α) (v : Option α) : Links α :=
  { h with next := Function.update h.next elem v }

/-- Following a pointer, which must not be null. -/
def deref (p : Option α) : Res α :=
  match p with
  | some x => .ok x
  | none => .error .dangling

/-- `is_head`. -/
def is_head (h : Links α) (elem : α) : Bool := (h.prev elem).isNone && (h.next elem).isSome

/-- `is_interior`. -/
def is_interior (h : Links α) (elem : α) : Bool := (h.prev elem).isSome && (h.next elem).isSome

/-- `is_tail`. -/
def is_tail (h : Links α) (elem : α) : Bool := (h.prev elem).isSome && (h.next elem).isNone

/-- `list_begin`. -/
def list_begin (h : Links α) (list : ListHdr α) : Res α := deref (h.next list.head)

/-- `list_end`. -/
def list_end (list : ListHdr α) : α := list.tail

/-- `list_next`. -/
def list_next (h : Links α) (elem : α) : Res α := do
  ASSERT ((is_head h elem || is_interior h elem) = true)
  deref (h.next elem)

/-- `list_prev`. -/
def list_prev (h : Links α) (elem : α) : Res α := do
  ASSERT ((is_interior h elem || is_tail h elem) = true)
  deref (h.prev elem)

/-- `list_empty`. -/
def list_empty (h : Links α) (list : ListHdr α) : Res Bool := do
  let b ← list_begin h list
  return decide (b = list_end list)

/-- `list_insert`. -/
def list_insert (h : Links α) (before elem : α) : Res (Links α) := do
  ASSERT ((is_interior h before || is_tail h before) = true)
  let h := set_prev h elem (h.prev before)
  let h := set_next h elem (some before)
  let p ← deref (h.prev before)
  let h := set_next h p (some elem)
  return set_prev h before (some elem)

/-- `list_push_back`. -/
def list_push_back (h : Links α) (list : ListHdr α) (elem : α) : Res (Links α) :=
  list_insert h (list_end list) elem

/-- `list_splice`. -/
def list_splice (h : Links α) (before first last : α) : Res (Links α) := do
  ASSERT ((is_interior h before || is_tail h before) = true)
  if first = last then return h
  else do
    let last ← list_prev h last
    ASSERT (is_interior h first = true)
    ASSERT (is_interior h last = true)
    -- "Cleanly remove FIRST...LAST from its current list."
    let p ← deref (h.prev first)
    let h := set_next h p (h.next last)
    let n ← deref (h.next last)
    let h := set_prev h n (h.prev first)
    -- "Splice FIRST...LAST into new list."
    let h := set_prev h first (h.prev before)
    let h := set_next h last (some before)
    let p ← deref (h.prev before)
    let h := set_next h p (some first)
    return set_prev h before (some last)

/-- `list_remove`. -/
def list_remove (h : Links α) (elem : α) : Res (α × Links α) := do
  ASSERT (is_interior h elem = true)
  let p ← deref (h.prev elem)
  let h := set_next h p (h.next elem)
  let n ← deref (h.next elem)
  let h := set_prev h n (h.prev elem)
  let n ← deref (h.next elem)
  return (n, h)

/-- `swap (&e->prev, &e->next)`. -/
def swap_links (h : Links α) (e : α) : Links α :=
  set_next (set_prev h e (h.next e)) e (h.prev e)

/-- The loop of `list_reverse`, from `e` on. -/
def reverse_loop (list : ListHdr α) : ℕ → Links α → α → Res (Links α)
  | 0, _, _ => .error .diverge
  | fuel + 1, h, e =>
    if e = list_end list then .ok h
    else do
      let h := swap_links h e
      let e ← deref (h.prev e)
      reverse_loop list fuel h e

/-- `list_reverse`. -/
def list_reverse (fuel : ℕ) (h : Links α) (list : ListHdr α) : Res (Links α) := do
  let empty ← list_empty h list
  if empty then return h
  else do
    let b ← list_begin h list
    let h ← reverse_loop list fuel h b
    -- swap (&list->head.next, &list->tail.prev);
    let hn := h.next list.head
    let tp := h.prev list.tail
    let h := set_prev (set_next h list.head tp) list.tail hn
    -- swap (&list->head.next->prev, &list->tail.prev->next);
    let x ← deref (h.next list.head)
    let y ← deref (h.prev list.tail)
    let xp := h.prev x
    let yn := h.next y
    return set_next (set_prev h x yn) y xp

/-- The loop of `list_unique`, with `elem` kept. -/
def unique_loop (list : ListHdr α) (duplicates : Option (ListHdr α)) (less : α → α → Bool) :
    ℕ → Links α → α → Res (Links α)
  | 0, _, _ => .error .diverge
  | fuel + 1, h, elem => do
    let next ← list_next h elem
    if next = list_end list then return h
    else if !less elem next && !less next elem then do
      let r ← list_remove h next
      match duplicates with
      | some d => do
        let h ← list_push_back r.2 d next
        unique_loop list duplicates less fuel h elem
      | none => unique_loop list duplicates less fuel r.2 elem
    else unique_loop list duplicates less fuel h next

/-- `list_unique`. -/
def list_unique (fuel : ℕ) (h : Links α) (list : ListHdr α) (duplicates : Option (ListHdr α))
    (less : α → α → Bool) : Res (Links α) := do
  let empty ← list_empty h list
  if empty then return h
  else do
    let elem ← list_begin h list
    unique_loop list duplicates less fuel h elem

end

/-! ## Well-linked lists -/

/-- The elements of the list `xs` with its two header elements. -/
def nodes (list : ListHdr α) (xs : List α) : List α := list.head :: xs ++ [list.tail]

/-- The position before `post`: its first element, or the tail. -/
def pos (list : ListHdr α) (post : List α) : α := post.headD list.tail

/-- The heap holds the list `xs` between the header elements of `list`. -/
structure WellLinked (h : Links α) (list : ListHdr α) (xs : List α) : Prop where
  chain : Chain h (nodes list xs)
  front : h.prev list.head = none
  back : h.next list.tail = none
  nodup : (nodes list xs).Nodup

variable {h h' : Links α} {list : ListHdr α} {xs pre post mid : List α}

/-- What comes before a position, up to its last element. -/
theorem before_pos (list : ListHdr α) (pre : List α) :
    ∃ l a, list.head :: pre = l ++ [a] := by
  refine ⟨(list.head :: pre).dropLast, (list.head :: pre).getLast (by simp), ?_⟩
  exact (List.dropLast_append_getLast _).symm

/-- What comes from a position on. -/
theorem from_pos (list : ListHdr α) (post : List α) :
    ∃ r, post ++ [list.tail] = pos list post :: r := by
  cases post with
  | nil => exact ⟨[], rfl⟩
  | cons x post => exact ⟨post ++ [list.tail], rfl⟩

theorem nodes_append (list : ListHdr α) (pre post : List α) :
    nodes list (pre ++ post) = (list.head :: pre) ++ (post ++ [list.tail]) := by
  simp [nodes]

theorem last_inj {l l' : List α} {a a' : α} (h : l ++ [a] = l' ++ [a']) : a = a' := by
  have hlast := (List.append_inj' h rfl).2
  exact (List.cons.inj hlast).1

/-- The neighbours of a position. -/
theorem WellLinked.at_pos (hw : WellLinked h list (pre ++ post)) :
    ∃ l a r, list.head :: pre = l ++ [a] ∧ post ++ [list.tail] = pos list post :: r
      ∧ nodes list (pre ++ post) = l ++ [a] ++ pos list post :: r
      ∧ Link h a (pos list post) := by
  obtain ⟨l, a, hl⟩ := before_pos list pre
  obtain ⟨r, hr⟩ := from_pos list post
  have hn : nodes list (pre ++ post) = l ++ [a] ++ pos list post :: r := by
    rw [nodes_append, hl, hr]
  have hc := hw.chain
  rw [hn] at hc
  exact ⟨l, a, r, hl, hr, hn, (chain_concat_cons.mp hc).2.1⟩

/-- A position is an interior element or a tail. -/
theorem WellLinked.pos_ok (hw : WellLinked h list (pre ++ post)) :
    (is_interior h (pos list post) || is_tail h (pos list post)) = true := by
  obtain ⟨l, a, r, _, _, _, hlink⟩ := hw.at_pos
  simp only [is_interior, is_tail, hlink.2, Option.isSome_some, Bool.true_and]
  cases h.next (pos list post) <;> rfl

/-- An element of a list is an interior element. -/
theorem WellLinked.interior (hw : WellLinked h list xs) {x : α} (hx : x ∈ xs) :
    is_interior h x = true := by
  obtain ⟨pre, post, rfl⟩ := List.append_of_mem hx
  obtain ⟨_, a, _, _, _, _, hlink⟩ := hw.at_pos
  have hw' : WellLinked h list ((pre ++ [x]) ++ post) := by
    rw [List.append_assoc]
    exact hw
  obtain ⟨l, b, _, hl, _, _, hlink'⟩ := hw'.at_pos
  have hb : x = b := @last_inj _ (list.head :: pre) l _ _ hl
  rw [← hb] at hlink'
  have hprev : h.prev x = some a := hlink.2
  simp [is_interior, hprev, hlink'.1]

/-- `list_next` from an element or the head. -/
theorem WellLinked.next (hw : WellLinked h list (pre ++ post)) {l : List α} {a : α}
    (hl : list.head :: pre = l ++ [a]) : list_next h a = .ok (pos list post) := by
  obtain ⟨l', a', r, hl', _, hn, hlink⟩ := hw.at_pos
  have ha : a' = a := last_inj (hl'.symm.trans hl)
  rw [ha] at hlink
  have hcase : (is_head h a || is_interior h a) = true := by
    simp only [is_head, is_interior, hlink.1, Option.isSome_some, Bool.and_true]
    cases h.prev a <;> rfl
  rw [list_next, ASSERT_pos hcase]
  simp only [ok_bind, hlink.1, deref]

/-- `list_prev` from a position. -/
theorem WellLinked.prev (hw : WellLinked h list (pre ++ post)) {l : List α} {a : α}
    (hl : list.head :: pre = l ++ [a]) : list_prev h (pos list post) = .ok a := by
  obtain ⟨l', a', r, hl', _, hn, hlink⟩ := hw.at_pos
  have ha : a' = a := last_inj (hl'.symm.trans hl)
  rw [list_prev, ASSERT_pos hw.pos_ok]
  simp only [ok_bind, hlink.2, deref, ha]

/-- `list_begin`. -/
theorem WellLinked.begin (hw : WellLinked h list xs) : list_begin h list = .ok (pos list xs) := by
  have hw' : WellLinked h list ([] ++ xs) := hw
  obtain ⟨l, a, r, hl, _, _, hlink⟩ := hw'.at_pos
  have hhead : list.head = a := @last_inj _ [] l _ _ hl
  rw [list_begin, hhead, hlink.1]
  rfl

/-- A position is the end of the list only behind its last element. -/
theorem WellLinked.pos_eq_end (hw : WellLinked h list (pre ++ post)) :
    pos list post = list_end list ↔ post = [] := by
  cases post with
  | nil => exact iff_of_true rfl rfl
  | cons x post =>
    refine iff_of_false ?_ (by simp)
    intro heq
    have hnd := hw.nodup
    rw [nodes_append] at hnd
    obtain ⟨_, hnd', _⟩ := List.nodup_append.mp hnd
    obtain ⟨_, _, hdis⟩ := List.nodup_append.mp hnd'
    exact hdis x List.mem_cons_self list.tail (List.mem_singleton_self _) heq

/-- A list that is untouched is well linked still. -/
theorem WellLinked.untouched {S : List α} (hw : WellLinked h list xs) (hu : Untouched h h' S)
    (hd : ∀ x ∈ nodes list xs, x ∉ S) : WellLinked h' list xs where
  chain := hw.chain.untouched hu hd
  front := by rw [(hu _ (hd _ (by simp [nodes]))).1, hw.front]
  back := by rw [(hu _ (hd _ (by simp [nodes]))).2, hw.back]
  nodup := hw.nodup

/-! ## `list_insert`, `list_remove` and `list_splice` -/

/-- Read in the other order: what lies around a segment. -/
theorem nodes_mid (list : ListHdr α) (pre mid post : List α) :
    nodes list (pre ++ mid ++ post) = (list.head :: pre) ++ mid ++ (post ++ [list.tail]) := by
  simp [nodes]

theorem perm_mid (pre mid post : List α) :
    (pre ++ mid ++ post).Perm (mid ++ (pre ++ post)) := by
  rw [← List.append_assoc mid]
  exact List.perm_append_comm.append_right _

/-- A range of a list, for `list_splice`: its ends, and what `list_prev` makes of its
exclusive end. -/
theorem WellLinked.range (hw : WellLinked h list (pre ++ mid ++ post)) (hm : mid ≠ []) :
    ∃ c m₁ m₂ d l a, mid = c :: m₁ ∧ mid = m₂ ++ [d] ∧ list.head :: pre = l ++ [a]
      ∧ pos list (mid ++ post) = c ∧ c ≠ pos list post
      ∧ list_prev h (pos list post) = .ok d ∧ h.prev c = some a
      ∧ h.next d = some (pos list post) ∧ a ≠ d := by
  obtain ⟨c, m₁, hc⟩ := List.exists_cons_of_ne_nil hm
  have hd : mid = mid.dropLast ++ [mid.getLast hm] := (List.dropLast_append_getLast hm).symm
  have hw₁ : WellLinked h list (pre ++ (mid ++ post)) := by
    rw [← List.append_assoc]
    exact hw
  obtain ⟨l, a, r, hl, hr, hn, hlink⟩ := hw₁.at_pos
  have hpos : pos list (mid ++ post) = c := by rw [hc]; rfl
  have hl₂ : list.head :: (pre ++ mid) = (list.head :: pre ++ mid.dropLast)
      ++ [mid.getLast hm] := by
    rw [List.append_assoc, ← hd, List.cons_append]
  obtain ⟨l₃, d₃, r₃, hl₃, hr₃, hn₃, hlink₃⟩ := hw.at_pos
  have hd₃ : mid.getLast hm = d₃ := last_inj (hl₂.symm.trans hl₃)
  rw [← hd₃] at hlink₃
  have hnd := hw.nodup
  rw [nodes_mid] at hnd
  obtain ⟨hnd', _, hdis⟩ := List.nodup_append.mp hnd
  obtain ⟨_, _, hdis'⟩ := List.nodup_append.mp hnd'
  refine ⟨c, m₁, mid.dropLast, mid.getLast hm, l, a, hc, hd, hl, hpos, ?_, hw.prev hl₂, ?_,
    hlink₃.1, ?_⟩
  · refine hdis c (by rw [hc]; simp) (pos list post) ?_
    obtain ⟨r', hr'⟩ := from_pos list post
    rw [hr']
    exact List.mem_cons_self
  · rw [← hpos]
    exact hlink.2
  · exact hdis' a (by rw [hl]; simp) _ (List.getLast_mem hm)

variable [DecidableEq α]

theorem WellLinked.empty (hw : WellLinked h list xs) :
    list_empty h list = .ok (decide (xs = [])) := by
  have hw' : WellLinked h list ([] ++ xs) := hw
  rw [list_empty, hw.begin]
  simp only [ok_bind, hw'.pos_eq_end]
  rfl

/-- A segment between two neighbours is a list again, when the head and the tail keep their
outer links. -/
theorem WellLinked.put_in {h₁ : Links α} {c d : α} {m₁ m₂ : List α}
    (hw : WellLinked h list (pre ++ post)) (hm : Chain h mid)
    (hfirst : mid = c :: m₁) (hlast : mid = m₂ ++ [d])
    (hnd : (nodes list (pre ++ mid ++ post)).Nodup) {l : List α} {a : α}
    (hl : list.head :: pre = l ++ [a]) (h₁_eq : h₁ = (h.join a c).join d (pos list post)) :
    WellLinked h₁ list (pre ++ mid ++ post)
      ∧ Untouched h h₁ (mid ++ nodes list (pre ++ post)) := by
  obtain ⟨r, hr⟩ := from_pos list post
  have hn : nodes list (pre ++ mid ++ post) = l ++ [a] ++ mid ++ pos list post :: r := by
    rw [nodes_mid, hl, hr]
  have hn₀ : nodes list (pre ++ post) = l ++ [a] ++ pos list post :: r := by
    rw [nodes_append, hl, hr]
  have hnd' := hnd
  rw [hn] at hnd'
  obtain ⟨hndl, _, hdis⟩ := List.nodup_append.mp hnd'
  obtain ⟨_, _, hdism⟩ := List.nodup_append.mp hndl
  have hc := hw.chain
  rw [hn₀] at hc
  have hcm : c ∈ mid := by simp [hfirst]
  have hdm : d ∈ mid := by simp [hlast]
  -- the head has no `prev` and the tail no `next` to be overwritten
  have hhead : list.head ∈ l ++ [a] := by rw [← hl]; exact List.mem_cons_self
  have htail : list.tail ∈ pos list post :: r := by rw [← hr]; simp
  refine ⟨⟨?_, ?_, ?_, hnd⟩, ?_⟩
  · rw [hn, h₁_eq]
    exact hc.relink hm hfirst hlast hnd'
  · rw [h₁_eq, join_prev_of_ne, join_prev_of_ne, hw.front]
    · exact hdism _ hhead _ hcm
    · exact hdis _ (List.mem_append_left _ hhead) _ List.mem_cons_self
  · rw [h₁_eq, join_next_of_ne, join_next_of_ne, hw.back]
    · exact (hdis a (by simp) _ htail).symm
    · exact (hdis _ (by simp [hdm]) _ htail).symm
  · intro x hx
    rw [List.mem_append, not_or, hn₀] at hx
    have hxa : x ≠ a := fun heq => hx.2 (by simp [heq])
    have hxb : x ≠ pos list post := fun heq => hx.2 (by simp [heq])
    have hxc : x ≠ c := fun heq => hx.1 (heq ▸ hcm)
    have hxd : x ≠ d := fun heq => hx.1 (heq ▸ hdm)
    rw [h₁_eq]
    exact ⟨by rw [join_prev_of_ne hxb, join_prev_of_ne hxc],
      by rw [join_next_of_ne hxd, join_next_of_ne hxa]⟩

/-- A list without a segment, when its neighbours are joined. -/
theorem WellLinked.take_out (hw : WellLinked h list (pre ++ mid ++ post)) {l : List α} {a : α}
    (hl : list.head :: pre = l ++ [a]) :
    WellLinked (h.join a (pos list post)) list (pre ++ post)
      ∧ Chain (h.join a (pos list post)) mid
      ∧ Untouched h (h.join a (pos list post)) (nodes list (pre ++ post)) := by
  obtain ⟨r, hr⟩ := from_pos list post
  have hn : nodes list (pre ++ mid ++ post) = l ++ [a] ++ mid ++ pos list post :: r := by
    rw [nodes_mid, hl, hr]
  have hn₀ : nodes list (pre ++ post) = l ++ [a] ++ pos list post :: r := by
    rw [nodes_append, hl, hr]
  have hnd := hw.nodup
  have hc := hw.chain
  rw [hn] at hnd hc
  obtain ⟨_, _, hdis⟩ := List.nodup_append.mp hnd
  have hhead : list.head ∈ l ++ [a] := by rw [← hl]; exact List.mem_cons_self
  have htail : list.tail ∈ pos list post :: r := by rw [← hr]; simp
  obtain ⟨hchain, hmid⟩ := hc.unlink hnd
  have hsub : (l ++ [a] ++ pos list post :: r).Sublist
      (l ++ [a] ++ mid ++ pos list post :: r) := by
    rw [List.append_assoc (l ++ [a]) mid]
    exact List.Sublist.append_left (List.sublist_append_right mid _) _
  refine ⟨⟨by rw [hn₀]; exact hchain, ?_, ?_, by rw [hn₀]; exact hnd.sublist hsub⟩, hmid, ?_⟩
  · rw [join_prev_of_ne, hw.front]
    exact hdis _ (List.mem_append_left _ hhead) _ List.mem_cons_self
  · rw [join_next_of_ne, hw.back]
    exact (hdis a (by simp) _ htail).symm
  · refine (join_untouched h a _).mono ?_
    rw [hn₀]
    intro x hx
    rcases List.mem_cons.mp hx with rfl | hx
    · simp
    · rw [List.mem_singleton.mp hx]
      simp

/-- `list_insert` joins the element with its new neighbours. -/
theorem list_insert_eq {a b e : α} (hb : (is_interior h b || is_tail h b) = true)
    (hlink : h.prev b = some a) (hea : e ≠ a) (heb : e ≠ b) :
    list_insert h b e = .ok ((h.join a e).join e b) := by
  have hprev : (set_next (set_prev h e (h.prev b)) e (some b)).prev b = some a := by
    rw [← hlink]
    exact Function.update_of_ne heb.symm ..
  rw [list_insert, ASSERT_pos hb]
  simp only [ok_bind, hprev, deref]
  rw [hlink]
  congr 1
  -- the two `next` links are written in the other order
  exact Links.ext rfl (Function.update_comm hea.symm ..).symm

/-- `list_remove` joins the neighbours of the element. -/
theorem list_remove_eq {a b e : α} (he : is_interior h e = true) (hp : h.prev e = some a)
    (hn : h.next e = some b) (hea : e ≠ a) :
    list_remove h e = .ok (b, h.join a b) := by
  have hnext : (set_next h a (h.next e)).next e = some b := by
    rw [← hn]
    exact Function.update_of_ne hea ..
  have hprev : (set_next h a (h.next e)).prev e = some a := hp
  have hnext' : (set_prev (set_next h a (h.next e)) b (some a)).next e = some b := hnext
  rw [list_remove, ASSERT_pos he]
  simp only [ok_bind, hp, deref]
  rw [hnext]
  simp only [ok_bind]
  rw [hprev, hnext', hn]
  rfl

/-- `list_splice` joins the neighbours of the range, and then the range with its new
neighbours. -/
theorem list_splice_eq {p n a b c d last : α} (hb : (is_interior h b || is_tail h b) = true)
    (hne : c ≠ last) (hlast : list_prev h last = .ok d) (hc : is_interior h c = true)
    (hd : is_interior h d = true) (hp : h.prev c = some p) (hn : h.next d = some n)
    (ha : (h.join p n).prev b = some a) (hpd : p ≠ d) (hcb : c ≠ b)
    (hda : d ≠ a) :
    list_splice h b c last = .ok (((h.join p n).join a c).join d b) := by
  have hnext : (set_next h p (h.next d)).next d = some n := by
    rw [← hn]
    exact Function.update_of_ne hpd.symm ..
  have hj : set_prev (set_next h p (some n)) n (some p) = h.join p n := rfl
  have hprev : (set_next (set_prev (h.join p n) c (some a)) d (some b)).prev b = some a := by
    rw [← ha]
    exact Function.update_of_ne hcb.symm ..
  rw [list_splice, ASSERT_pos hb]
  simp only [ok_bind]
  rw [if_neg hne, hlast]
  simp only [ok_bind]
  rw [ASSERT_pos hc, ASSERT_pos hd]
  simp only [ok_bind, hp, deref]
  rw [hnext]
  simp only [ok_bind]
  have hp' : (set_next h p (h.next d)).prev c = some p := hp
  rw [hp', hn, hj, ha, hprev]
  simp only [ok_bind]
  congr 1
  exact Links.ext rfl (Function.update_comm hda ..)

/-- **`list_insert`** puts the element before the position. -/
theorem WellLinked.insert (hw : WellLinked h list (pre ++ post)) {e : α}
    (he : e ∉ nodes list (pre ++ post)) :
    ∃ h', list_insert h (pos list post) e = .ok h' ∧ WellLinked h' list (pre ++ e :: post)
      ∧ Untouched h h' (e :: nodes list (pre ++ post)) := by
  obtain ⟨l, a, r, hl, hr, hn, hlink⟩ := hw.at_pos
  have hea : e ≠ a := by
    rintro rfl
    exact he (by rw [hn]; simp)
  have heb : e ≠ pos list post := by
    rintro heq
    exact he (by rw [hn, heq]; simp)
  have hperm : (nodes list (pre ++ [e] ++ post)).Perm (e :: nodes list (pre ++ post)) := by
    rw [nodes_mid, nodes_append, List.append_assoc, List.singleton_append]
    exact List.perm_middle
  have hnd : (nodes list (pre ++ [e] ++ post)).Nodup :=
    hperm.nodup_iff.mpr (List.nodup_cons.mpr ⟨he, hw.nodup⟩)
  obtain ⟨hw', hu⟩ := hw.put_in (chain_singleton h e) rfl (List.nil_append [e]).symm hnd hl rfl
  refine ⟨_, list_insert_eq hw.pos_ok hlink.2 hea heb, ?_, hu⟩
  rw [List.append_cons]
  exact hw'

/-- **`list_remove`** takes the element out, and returns the position behind it. -/
theorem WellLinked.remove {e : α} (hw : WellLinked h list (pre ++ e :: post)) :
    ∃ h', list_remove h e = .ok (pos list post, h') ∧ WellLinked h' list (pre ++ post)
      ∧ Untouched h h' (nodes list (pre ++ post)) := by
  obtain ⟨l, a, r, hl, hr, hn, hlink⟩ := hw.at_pos
  have hw' : WellLinked h list (pre ++ [e] ++ post) := by
    rw [← List.append_cons]
    exact hw
  obtain ⟨l', e', _, hl', _, _, hlink'⟩ := hw'.at_pos
  have he' : e = e' := @last_inj _ (list.head :: pre) l' _ _ hl'
  rw [← he'] at hlink'
  have hea : e ≠ a := by
    have hnd := hw.nodup
    rw [hn] at hnd
    obtain ⟨_, _, hdis⟩ := List.nodup_append.mp hnd
    exact (hdis a (by simp) e List.mem_cons_self).symm
  obtain ⟨hout, _, hu⟩ := hw'.take_out hl
  exact ⟨_, list_remove_eq (hw.interior (by simp)) hlink.2 hlink'.1 hea, hout, hu⟩

/-- **`list_splice`** of a range that is not empty, before a position of what is left. The
destination is given as it is after the range is taken out: another list, or the same one. -/
theorem WellLinked.splice (hw : WellLinked h list (pre ++ mid ++ post)) (hm : mid ≠ [])
    {list₂ : ListHdr α} {pre₂ post₂ : List α}
    (hb : (is_interior h (pos list₂ post₂) || is_tail h (pos list₂ post₂)) = true)
    (hw₂ : ∀ l a, list.head :: pre = l ++ [a] →
      WellLinked (h.join a (pos list post)) list₂ (pre₂ ++ post₂))
    (hnd : (nodes list₂ (pre₂ ++ mid ++ post₂)).Nodup) :
    ∃ h₁ h', list_splice h (pos list₂ post₂) (pos list (mid ++ post)) (pos list post) = .ok h'
      ∧ WellLinked h₁ list (pre ++ post) ∧ Untouched h h₁ (nodes list (pre ++ post))
      ∧ WellLinked h' list₂ (pre₂ ++ mid ++ post₂)
      ∧ Untouched h₁ h' (mid ++ nodes list₂ (pre₂ ++ post₂)) := by
  obtain ⟨c, m₁, m₂, d, l, a, hc, hd, hl, hpos, hne, hlast, hprev, hnext, had⟩ := hw.range hm
  obtain ⟨hout, hmid, hu⟩ := hw.take_out hl
  have hdest := hw₂ l a hl
  obtain ⟨l₂, a₂, r₂, hl₂, hr₂, hn₂, hlink₂⟩ := hdest.at_pos
  obtain ⟨hin, hu₂⟩ := hdest.put_in hmid hc hd hnd hl₂ rfl
  have hcm : c ∈ mid := by rw [hc]; exact List.mem_cons_self
  have hdm : d ∈ mid := by rw [hd]; simp
  rw [nodes_mid] at hnd
  obtain ⟨hnd', _, hdis⟩ := List.nodup_append.mp hnd
  obtain ⟨_, _, hdis'⟩ := List.nodup_append.mp hnd'
  have hsplice := list_splice_eq hb hne hlast (hw.interior (by simp [hcm]))
    (hw.interior (by simp [hdm])) hprev hnext hlink₂.2 had
    (hdis c (by simp [hcm]) _ (by rw [hr₂]; exact List.mem_cons_self))
    (hdis' a₂ (by rw [hl₂]; simp) d hdm).symm
  refine ⟨_, _, ?_, hout, hu, hin, hu₂⟩
  rw [hpos]
  exact hsplice

/-- The empty range is left where it is. -/
theorem WellLinked.splice_nil {before first : α}
    (hb : (is_interior h before || is_tail h before) = true) :
    list_splice h before first first = .ok h := by
  rw [list_splice, ASSERT_pos hb]
  simp

/-- **Into another list.** -/
theorem WellLinked.splice_into (hw : WellLinked h list (pre ++ mid ++ post))
    {list₂ : ListHdr α} {pre₂ post₂ : List α} (hw₂ : WellLinked h list₂ (pre₂ ++ post₂))
    (hdis : ∀ x ∈ nodes list (pre ++ mid ++ post), x ∉ nodes list₂ (pre₂ ++ post₂)) :
    ∃ h', list_splice h (pos list₂ post₂) (pos list (mid ++ post)) (pos list post) = .ok h'
      ∧ WellLinked h' list (pre ++ post) ∧ WellLinked h' list₂ (pre₂ ++ mid ++ post₂)
      ∧ Untouched h h' (nodes list (pre ++ mid ++ post) ++ nodes list₂ (pre₂ ++ post₂)) := by
  by_cases hm : mid = []
  · rw [hm, List.append_nil] at hw ⊢
    rw [List.append_nil]
    exact ⟨h, WellLinked.splice_nil hw₂.pos_ok, hw, hw₂, Untouched.refl h _⟩
  have hsub : nodes list (pre ++ post) ⊆ nodes list (pre ++ mid ++ post) := by
    intro x hx
    simp only [nodes, List.mem_cons, List.mem_append, List.cons_append] at hx ⊢
    tauto
  have hmid : ∀ x ∈ mid, x ∈ nodes list (pre ++ mid ++ post) := by
    intro x hx
    simp [nodes, hx]
  have hperm : (nodes list₂ (pre₂ ++ mid ++ post₂)).Perm (mid ++ nodes list₂ (pre₂ ++ post₂)) := by
    rw [nodes_mid, nodes_append]
    exact perm_mid _ mid _
  have hnd : (nodes list₂ (pre₂ ++ mid ++ post₂)).Nodup := by
    refine hperm.nodup_iff.mpr (List.nodup_append.mpr ⟨?_, hw₂.nodup, ?_⟩)
    · have hn := hw.nodup
      rw [nodes_mid] at hn
      exact (List.nodup_append.mp (List.nodup_append.mp hn).1).2.1
    · rintro x hx y hy rfl
      exact hdis x (hmid x hx) hy
  -- the other list does not see the range being taken out
  have hdest : ∀ l a, list.head :: pre = l ++ [a] →
      WellLinked (h.join a (pos list post)) list₂ (pre₂ ++ post₂) := by
    intro l a hl
    refine hw₂.untouched (hw.take_out hl).2.2 (fun x hx hmem => ?_)
    exact hdis x (hsub hmem) hx
  obtain ⟨h₁, h', hsplice, hout, hu, hin, hu'⟩ := hw.splice hm hw₂.pos_ok hdest hnd
  refine ⟨h', hsplice, ?_, hin, ?_⟩
  · refine hout.untouched hu' (fun x hx hmem => ?_)
    rcases List.mem_append.mp hmem with hxm | hx₂
    · have hn := hw.nodup
      rw [nodes_mid] at hn
      obtain ⟨hn', _, hd₂⟩ := List.nodup_append.mp hn
      obtain ⟨_, _, hd₁⟩ := List.nodup_append.mp hn'
      rw [nodes_append] at hx
      rcases List.mem_append.mp hx with hl | hr
      · exact hd₁ x hl x hxm rfl
      · exact hd₂ x (by simp [hxm]) x hr rfl
    · exact hdis x (hsub hx) hx₂
  · refine (hu.mono ?_).trans (hu'.mono ?_)
    · intro x hx
      exact List.mem_append_left _ (hsub hx)
    · intro x hx
      rcases List.mem_append.mp hx with hxm | hx₂
      · exact List.mem_append_left _ (hmid x hxm)
      · exact List.mem_append_right _ hx₂

/-- **Within one list.** What is left when the range is taken out is split at the position. -/
theorem WellLinked.splice_within (hw : WellLinked h list (pre ++ mid ++ post)) (hm : mid ≠ [])
    (pre₂ post₂ : List α) (hsplit : pre ++ post = pre₂ ++ post₂)
    (hb : (is_interior h (pos list post₂) || is_tail h (pos list post₂)) = true) :
    ∃ h', list_splice h (pos list post₂) (pos list (mid ++ post)) (pos list post) = .ok h'
      ∧ WellLinked h' list (pre₂ ++ mid ++ post₂)
      ∧ Untouched h h' (nodes list (pre ++ mid ++ post)) := by
  have hperm : (nodes list (pre₂ ++ mid ++ post₂)).Perm (nodes list (pre ++ mid ++ post)) := by
    have h₂ := perm_mid pre mid post
    rw [hsplit] at h₂
    exact (((perm_mid pre₂ mid post₂).trans h₂.symm).cons _).append_right _
  have hdest : ∀ l a, list.head :: pre = l ++ [a] →
      WellLinked (h.join a (pos list post)) list (pre₂ ++ post₂) := by
    intro l a hl
    rw [← hsplit]
    exact (hw.take_out hl).1
  obtain ⟨h₁, h', hsplice, _, hu, hin, hu'⟩ :=
    hw.splice hm hb hdest (hperm.nodup_iff.mpr hw.nodup)
  refine ⟨h', hsplice, hin, (hu.mono ?_).trans (hu'.mono ?_)⟩
  · intro x hx
    simp only [nodes, List.mem_cons, List.mem_append, List.cons_append] at hx ⊢
    tauto
  · rw [← hsplit]
    intro x hx
    simp only [nodes, List.mem_cons, List.mem_append, List.cons_append] at hx ⊢
    tauto

/-- **To the front**, before an element that comes earlier. -/
theorem WellLinked.splice_back {p q : List α} (hw : WellLinked h list (p ++ q ++ mid ++ post))
    (hq : q ≠ []) :
    ∃ h', list_splice h (pos list (q ++ mid ++ post)) (pos list (mid ++ post)) (pos list post)
        = .ok h'
      ∧ WellLinked h' list (p ++ mid ++ q ++ post)
      ∧ Untouched h h' (nodes list (p ++ q ++ mid ++ post)) := by
  obtain ⟨x, q', rfl⟩ := List.exists_cons_of_ne_nil hq
  have hw' : WellLinked h list (p ++ (x :: q' ++ mid ++ post)) := by
    rw [← List.append_assoc, ← List.append_assoc]
    exact hw
  by_cases hm : mid = []
  · rw [hm, List.append_nil] at hw hw' ⊢
    rw [List.append_nil]
    exact ⟨h, WellLinked.splice_nil hw'.pos_ok, hw, Untouched.refl h _⟩
  obtain ⟨h', hsplice, hin, hu⟩ := hw.splice_within hm p (x :: q' ++ post)
    (List.append_assoc ..) hw'.pos_ok
  refine ⟨h', hsplice, ?_, hu⟩
  rw [List.append_assoc (p ++ mid)]
  exact hin

/-- **To the back**, before a position that comes later. -/
theorem WellLinked.splice_forward {p q : List α}
    (hw : WellLinked h list (pre ++ mid ++ (p ++ q))) :
    ∃ h', list_splice h (pos list q) (pos list (mid ++ (p ++ q))) (pos list (p ++ q)) = .ok h'
      ∧ WellLinked h' list (pre ++ p ++ mid ++ q)
      ∧ Untouched h h' (nodes list (pre ++ mid ++ (p ++ q))) := by
  have hw' : WellLinked h list ((pre ++ mid ++ p) ++ q) := by
    rw [List.append_assoc]
    exact hw
  by_cases hm : mid = []
  · rw [hm, List.append_nil] at hw hw' ⊢
    rw [List.append_nil]
    exact ⟨h, WellLinked.splice_nil hw'.pos_ok, hw', Untouched.refl h _⟩
  exact hw.splice_within hm (pre ++ p) q (List.append_assoc ..).symm hw'.pos_ok

end Pintos.Kernel.Lists
