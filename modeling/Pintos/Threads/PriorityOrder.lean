/-
The lists of threads that are kept by priority (`threads/thread.c`, `threads/synch.c`).

`ready_list` and the waiters of a semaphore are filled with `list_insert_ordered` and
`less_priority` and emptied with `list_pop_back`. `less_priority` is `<=`, so a thread is inserted
in front of all threads with its priority, and the end that is taken off is the far one: the
thread that came first. A thread is its `elem` here. Its priority may change while it is on no
list.
-/
import Pintos.Kernel.OrderedList
import Pintos.Library.Fifo

set_option autoImplicit false

namespace Pintos.Threads.PriorityOrder

open DoubleLinks Fifo Pintos.Kernel.Lists

variable {α : Type} [DecidableEq α]

/-! ## The code -/

/-- The links of the lists, and `t->priority`. -/
structure Queue (α : Type) where
  links : Links α
  priority : α → ℤ

/-- `less_priority`. -/
def less_priority (q : Queue α) (t_a t_b : α) : Bool := decide (q.priority t_a ≤ q.priority t_b)

/-- `next_thread_to_run`. -/
def next_thread_to_run (q : Queue α) (ready_list : ListHdr α) (idle_thread : α) :
    Res (α × Queue α) := do
  let empty ← list_empty q.links ready_list
  if empty then return (idle_thread, q)
  else do
    let r ← list_pop_back q.links ready_list
    return (r.1, { q with links := r.2 })

/-! ## Sequences of operations -/

/-- What is done to a list, and a priority that is set. -/
inductive Op (α : Type)
  /-- `list_insert_ordered (list, &t->elem, &less_priority, NULL)`. -/
  | insert_ordered (t : α)
  /-- `list_pop_back (list)`. -/
  | pop_back
  /-- `t->priority = p`. -/
  | set_priority (t : α) (p : ℤ)

/-- An operation, with the thread that it returns. -/
def exec (fuel : ℕ) (list : ListHdr α) (q : Queue α) : Op α → Res (Option α × Queue α)
  | .insert_ordered t => do
    let links ← list_insert_ordered fuel q.links list t (less_priority q)
    return (none, { q with links := links })
  | .pop_back => do
    let r ← list_pop_back q.links list
    return (some r.1, { q with links := r.2 })
  | .set_priority t p => .ok (none, { q with priority := Function.update q.priority t p })

/-- A sequence of operations, with the threads that they return. -/
def run (fuel : ℕ) (list : ListHdr α) : Queue α → List (Op α) → Res (List α × Queue α)
  | q, [] => .ok ([], q)
  | q, o :: ops => do
    let r ← exec fuel list q o
    let rs ← run fuel list r.2 ops
    return (r.1.toList ++ rs.1, rs.2)

/-! ## What the threads see -/

/-- What an operation does to the line of the threads that are queued. -/
def effect (L : Line α ℤ) : Op α → Line α ℤ
  | .insert_ordered t => L.join t
  | .pop_back => L.next.elim L L.leave
  | .set_priority t p => { L with key := Function.update L.key t p }

/-- The thread whose turn it is at a removal. -/
def turn (L : Line α ℤ) : Op α → Option α
  | .pop_back => L.next
  | _ => none

/-- The line after a sequence of operations. -/
def line_after (L : Line α ℤ) (ops : List (Op α)) : Line α ℤ := ops.foldl effect L

/-- The turns of a sequence of operations. -/
def turns : Line α ℤ → List (Op α) → List α
  | _, [] => []
  | L, o :: ops => (turn L o).toList ++ turns (effect L o) ops

/-- A thread that is inserted is not queued, one is queued at a removal, and priorities change
only off the queue. -/
def Valid (list : ListHdr α) (L : Line α ℤ) : Op α → Prop
  | .insert_ordered t => t ∉ nodes list L.arrivals
  | .pop_back => L.arrivals ≠ []
  | .set_priority t _ => t ∉ L.arrivals

/-- Every operation of a sequence is valid where it happens. -/
def AllValid (list : ListHdr α) : Line α ℤ → List (Op α) → Prop
  | _, [] => True
  | L, o :: ops => Valid list L o ∧ AllValid list (effect L o) ops

/-! ## Every run -/

variable {q : Queue α} {list : ListHdr α} {L : Line α ℤ} {xs : List α} {fuel : ℕ}

/-- The list in the heap serves the line. -/
structure Keeps (q : Queue α) (list : ListHdr α) (L : Line α ℤ) (xs : List α) : Prop where
  linked : WellLinked q.links list xs
  serves : L.Serves xs
  priority : q.priority = L.key

omit [DecidableEq α] in
theorem Keeps.nodup (h : Keeps q list L xs) : L.arrivals.Nodup := by
  have hnd := (List.nodup_cons.mp h.linked.nodup).2
  exact h.serves.perm.nodup_iff.mp (List.nodup_append.mp hnd).1

omit [DecidableEq α] in
/-- What the list holds, with its header elements, is the line. -/
theorem Keeps.mem_nodes (h : Keeps q list L xs) {t : α} :
    t ∈ nodes list xs ↔ t ∈ nodes list L.arrivals := by
  unfold nodes
  rw [List.cons_append, List.cons_append, List.mem_cons, List.mem_cons, List.mem_append,
    List.mem_append, h.serves.perm.mem_iff]

/-- **A removal** takes off the thread whose turn it is. -/
theorem Keeps.pop_back (h : Keeps q list L xs) (hne : L.arrivals ≠ []) :
    ∃ t links xs', L.next = some t ∧ list_pop_back q.links list = .ok (t, links) ∧
      xs = xs' ++ [t] ∧ Keeps { q with links := links } list (L.leave t) xs' := by
  have hxs : xs ≠ [] := by
    rintro rfl
    exact hne h.serves.perm.nil_eq.symm
  obtain ⟨xs', t, rfl⟩ : ∃ xs' t, xs = xs' ++ [t] :=
    ⟨_, _, (List.dropLast_append_getLast hxs).symm⟩
  obtain ⟨links, hrun, hlinked, -⟩ := h.linked.pop_back
  exact ⟨t, links, xs', h.serves.next_eq h.nodup, hrun, rfl, hlinked, h.serves.leave h.nodup,
    h.priority⟩

/-- **An operation** returns the thread whose turn it is, and keeps the list in the line's
order. -/
theorem Keeps.exec (h : Keeps q list L xs) {o : Op α} (hvalid : Valid list L o)
    (hfuel : xs.length < fuel) :
    ∃ q' xs', PriorityOrder.exec fuel list q o = .ok (turn L o, q') ∧
      Keeps q' list (effect L o) xs' ∧ xs'.length ≤ xs.length + 1 := by
  cases o with
  | insert_ordered t =>
    have ht : t ∉ nodes list xs := fun hmem => hvalid (h.mem_nodes.mp hmem)
    obtain ⟨links, hrun, hlinked, -⟩ := h.linked.insert_ordered ht (less_priority q) hfuel
    have hserves := h.serves.join t
    have hinsert : xs.orderedInsert (fun a b => less_priority q a b = true) t
        = xs.orderedInsert (fun a b => L.key a ≤ L.key b) t := by
      simp only [less_priority, decide_eq_true_eq, h.priority]
    rw [hinsert] at hlinked
    refine ⟨{ q with links := links }, _, ?_, ⟨hlinked, hserves, h.priority⟩, ?_⟩
    · rw [PriorityOrder.exec, hrun]
      rfl
    · rw [List.orderedInsert_length]
  | pop_back =>
    obtain ⟨t, links, xs', hnext, hrun, rfl, hkeeps⟩ := h.pop_back hvalid
    refine ⟨{ q with links := links }, xs', ?_, ?_, ?_⟩
    · rw [PriorityOrder.exec, hrun, turn, hnext]
      rfl
    · rw [effect, hnext]
      exact hkeeps
    · rw [List.length_append]
      omega
  | set_priority t p =>
    refine ⟨_, xs, rfl, ⟨h.linked, h.serves.congr (fun a ha => ?_), ?_⟩, Nat.le_succ _⟩
    · have hat : a ≠ t := fun heq => hvalid (heq ▸ ha)
      exact Function.update_of_ne hat ..
    · rw [effect, h.priority]

/-- A sequence of operations. The induction is on the operations. -/
theorem Keeps.run (h : Keeps q list L xs) {ops : List (Op α)} (hvalid : AllValid list L ops)
    (hfuel : xs.length + ops.length < fuel) :
    ∃ q' xs', PriorityOrder.run fuel list q ops = .ok (turns L ops, q') ∧
      Keeps q' list (line_after L ops) xs' := by
  induction ops generalizing q L xs with
  | nil => exact ⟨q, xs, rfl, h⟩
  | cons o ops ih =>
    obtain ⟨ho, hrest⟩ := hvalid
    rw [List.length_cons] at hfuel
    obtain ⟨q₁, xs₁, hexec, hkeeps, hlen⟩ := h.exec ho (show xs.length < fuel by omega)
    obtain ⟨q', xs', hrun, hkeeps'⟩ := ih hkeeps hrest (by omega)
    refine ⟨q', xs', ?_, hkeeps'⟩
    rw [PriorityOrder.run, hexec, ok_bind, hrun]
    rfl

/-- **`next_thread_to_run`** takes the thread whose turn it is, or the idle thread. -/
theorem Keeps.next_thread_to_run (h : Keeps q list L xs) (idle_thread : α) :
    ∃ q' xs', PriorityOrder.next_thread_to_run q list idle_thread
        = .ok (L.next.getD idle_thread, q') ∧
      Keeps q' list (effect L .pop_back) xs' := by
  rw [PriorityOrder.next_thread_to_run, h.linked.empty, ok_bind]
  by_cases hne : L.arrivals = []
  · have hnext : L.next = none := by rw [Line.next, hne, List.argmax_nil]
    have hxs : xs = [] := (hne ▸ h.serves.perm).eq_nil
    refine ⟨q, xs, ?_, ?_⟩
    · rw [decide_eq_true hxs, hnext]
      rfl
    · rw [effect, hnext]
      exact h
  · obtain ⟨t, links, xs', hnext, hrun, rfl, hkeeps⟩ := h.pop_back hne
    refine ⟨{ q with links := links }, xs', ?_, ?_⟩
    · rw [decide_eq_false (by simp), hnext, hrun]
      rfl
    · rw [effect, hnext]
      exact hkeeps

/-- **Priorities first, then first come, first served.** After `list_init`, any sequence of
insertions and removals returns the threads whose turn it is: of those with the greatest priority
the first that was inserted. The list stays in ascending order of the priorities, and no thread
is passed by one that came after it with the same priority. -/
theorem priority_queue_fifo (h : Links α) {list : ListHdr α} (hne : list.head ≠ list.tail)
    (priority : α → ℤ) {ops : List (Op α)} (hvalid : AllValid list ⟨[], priority⟩ ops)
    {fuel : ℕ} (hfuel : ops.length < fuel) :
    ∃ q xs, run fuel list ⟨list_init h list, priority⟩ ops = .ok (turns ⟨[], priority⟩ ops, q) ∧
      WellLinked q.links list xs ∧ xs.Perm (line_after ⟨[], priority⟩ ops).arrivals ∧
      xs.Pairwise (fun a b => q.priority a ≤ q.priority b) ∧
      ∀ t u, t ≠ u → q.priority t = q.priority u →
        [t, u].Sublist (line_after ⟨[], priority⟩ ops).arrivals →
        turn (line_after ⟨[], priority⟩ ops) .pop_back ≠ some u := by
  have hinit : Keeps ⟨list_init h list, priority⟩ list ⟨[], priority⟩ [] :=
    ⟨list_init_linked h hne, ⟨List.Perm.nil, List.Pairwise.nil⟩, rfl⟩
  obtain ⟨q, xs, hrun, hkeeps⟩ := hinit.run hvalid
    (show ([] : List α).length + ops.length < fuel by rwa [List.length_nil, Nat.zero_add])
  refine ⟨q, xs, hrun, hkeeps.linked, hkeeps.serves.perm, ?_, fun t u hne heq hsub => ?_⟩
  · rw [hkeeps.priority]
    exact hkeeps.serves.sorted
  · rw [hkeeps.priority] at heq
    exact Line.next_fifo hkeeps.nodup hsub heq hne

/-- Two threads with one priority and one with a greater one, put on a list and taken off. -/
def three_threads : List (Op ℕ) :=
  [.insert_ordered 2, .insert_ordered 3, .insert_ordered 4, .pop_back, .pop_back, .pop_back]

theorem priority_queue_fifo_three :
    ∃ q, run 7 ⟨0, 1⟩ ⟨list_init ⟨fun _ => none, fun _ => none⟩ ⟨0, 1⟩,
        fun t => if t = 4 then 7 else 5⟩ three_threads = .ok ([4, 2, 3], q) ∧
      WellLinked q.links ⟨0, 1⟩ [] := by
  have hvalid : AllValid ⟨0, 1⟩ ⟨[], fun t => if t = 4 then 7 else 5⟩ three_threads := by
    refine ⟨?_, ?_, ?_, ?_, ?_, ?_, trivial⟩ <;> unfold Valid <;> decide
  obtain ⟨q, xs, hrun, hlinked, hperm, -, -⟩ := priority_queue_fifo ⟨fun _ => none, fun _ => none⟩
    (by decide) (fun t => if t = 4 then 7 else 5) hvalid (show three_threads.length < 7 by decide)
  obtain rfl : xs = [] := hperm.eq_nil
  exact ⟨q, hrun, hlinked⟩

end Pintos.Threads.PriorityOrder
