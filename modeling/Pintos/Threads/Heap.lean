/-
`threads/malloc.c` in runs: `free`, `realloc`, and what holds of the heap after any sequence of
calls.

The block that is freed goes to the front of its list. When its arena is now wholly free, every
block of that arena is on the list, which is where counting pays: the loop that unlinks them
finds each of them, and no other arena's.
-/
import Pintos.Threads.Malloc
import Pintos.Library.StepSystem

set_option autoImplicit false

namespace Pintos.Threads.Malloc

open StepSystem

variable {s : State} {a cnt : ℕ} {d : DescId}

/-! ## Giving pages back -/

/-- The loop of `free` takes the blocks off the list, and no others. -/
theorem remove_blocks_spec {h : Heap} {bs : List ℕ} (hnd : (h.free_list d).Nodup)
    (hbs : bs.Nodup) (hsub : bs ⊆ h.free_list d) :
    ∃ h', remove_blocks h d bs = .ok h' ∧ h'.pages = h.pages ∧ h'.arenas = h.arenas
      ∧ h'.mem = h.mem
      ∧ h'.free_list = Function.update h.free_list d ((h.free_list d).filter (· ∉ bs)) := by
  induction bs generalizing h with
  | nil =>
    refine ⟨h, rfl, rfl, rfl, rfl, ?_⟩
    simp
  | cons b bs ih =>
    obtain ⟨hb, hbs'⟩ := List.nodup_cons.mp hbs
    have hmem : b ∈ h.free_list d := hsub List.mem_cons_self
    have hself : (h.set_list d ((h.free_list d).erase b)).free_list d
        = (h.free_list d).filter (· ≠ b) := by
      refine (Function.update_self ..).trans ?_
      rw [hnd.erase_eq_filter]
      apply List.filter_congr
      intro x _
      by_cases hx : x = b
      · simp [hx]
      · simp [hx]
    obtain ⟨h', hr, hp, ha, hm, hl⟩ := @ih (h.set_list d ((h.free_list d).erase b))
      (by rw [hself]; exact hnd.filter _) hbs' (by
        intro x hx
        rw [hself, List.mem_filter]
        refine ⟨hsub (List.mem_cons_of_mem _ hx), ?_⟩
        simp only [decide_eq_true_eq]
        rintro rfl
        exact hb hx)
    refine ⟨h', by rw [remove_blocks, if_pos hmem, hr], hp, ha, hm, ?_⟩
    rw [hl, hself]
    simp only [Heap.set_list, Function.update_idem, List.filter_filter]
    congr 1
    apply List.filter_congr
    intro x _
    simp only [List.mem_cons, not_or, Bool.decide_and, Bool.and_comm]

/-- **Giving a range back.** No block in use is left in it, and its blocks are on no list. -/
theorem Inv.drop (h : Inv s) {h' : Heap} {live' : List ℕ} (hr : Ranges h')
    (harenas : h'.arenas = Function.update s.heap.arenas a none)
    (hlists : ∀ e, h'.free_list e = (s.heap.free_list e).filter (fun x => pg_round_down x ≠ a))
    (hlive : ∀ x, x ∈ live' ↔ x ∈ s.live ∧ pg_round_down x ≠ a) (hdistinct : live'.Nodup) :
    Inv ⟨h', live'⟩ := by
  have hold : ∀ x ar, h'.arenas x = some ar → x ≠ a ∧ s.heap.arenas x = some ar := by
    intro x ar hx
    rw [harenas] at hx
    by_cases hxa : x = a
    · rw [hxa, Function.update_self] at hx
      cases hx
    · rw [Function.update_of_ne hxa] at hx
      exact ⟨hxa, hx⟩
  have hkeep : ∀ x ar, s.heap.arenas x = some ar → x ≠ a → h'.arenas x = some ar := by
    intro x ar hx hxa
    rw [harenas, Function.update_of_ne hxa, hx]
  have hmem : ∀ e x, x ∈ h'.free_list e ↔ x ∈ s.heap.free_list e ∧ pg_round_down x ≠ a := by
    intro e x
    rw [hlists, List.mem_filter]
    simp
  constructor
  · exact hr
  · intro e b hb
    obtain ⟨hb', hba⟩ := (hmem e b).mp hb
    obtain ⟨x, c, hx, hbx⟩ := h.listed e b hb'
    refine ⟨x, c, hkeep x _ hx ?_, hbx⟩
    rw [← h.page_of_block hx hbx]
    exact hba
  · intro e
    show (h'.free_list e).Nodup
    rw [hlists]
    exact (h.nodup e).filter _
  · intro x e c hx
    obtain ⟨hxa, hx'⟩ := hold x _ hx
    show c = (free_in (h'.free_list e) x).length
    rw [h.count x e c hx', hlists, free_in, free_in, List.filter_filter]
    congr 1
    apply List.filter_congr
    intro y _
    by_cases hy : pg_round_down y = x
    · simp [hy, hxa]
    · simp [hy]
  · intro x e c hx b hb
    obtain ⟨hxa, hx'⟩ := hold x _ hx
    have hba : pg_round_down b ≠ a := by
      rw [h.page_of_block hx' hb]
      exact hxa
    show b ∈ live' ↔ b ∉ h'.free_list e
    rw [hlive, hmem, h.small x e c hx' b hb]
    tauto
  · intro x c hx
    obtain ⟨hxa, hx'⟩ := hold x _ hx
    refine (hlive _).mpr ⟨h.big x c hx', ?_⟩
    rw [pg_round_down_add (h.ranges.aligned hx') (by decide)]
    exact hxa
  · intro p hp
    obtain ⟨hp', hpa⟩ := (hlive p).mp hp
    obtain ⟨x, ⟨desc, c⟩, hx, hshape⟩ := h.live p hp'
    refine ⟨x, _, hkeep x _ hx ?_, hshape⟩
    rcases hshape with ⟨_, rfl⟩ | ⟨e, he, hb⟩
    · rwa [pg_round_down_add (h.ranges.aligned hx) (by decide)] at hpa
    · dsimp only at he
      rw [he] at hx
      rwa [h.page_of_block hx hb] at hpa
  · exact hdistinct

/-! ## `free` -/

/-- The other blocks in use keep their sizes and their bytes. -/
def Spares (s : State) (p : ℕ) (h' : Heap) : Prop :=
  ∀ q ∈ s.live, q ≠ p → ∀ n, block_size s.heap q = .ok n →
    block_size h' q = .ok n ∧ ∀ i < n, h'.mem (q + i) = s.heap.mem (q + i)

theorem memset_of_apart {mem : ℕ → UInt8} {dst size q n : ℕ} {v : UInt8}
    (h : dst + size ≤ q ∨ q + n ≤ dst) {i : ℕ} (hi : i < n) :
    memset mem dst v size (q + i) = mem (q + i) := by
  rw [memset, if_neg (by omega)]

/-- The size of a block depends on the header of its page only. -/
theorem block_size_congr {h h' : Heap} {q : ℕ}
    (ha : h'.arenas (pg_round_down q) = h.arenas (pg_round_down q)) :
    block_size h' q = block_size h q := by
  simp only [block_size, block_to_arena, ha]

/-- The state after the block is on the list again, before anything is given back. -/
theorem Inv.push (h : Inv s) (ha : s.heap.arenas a = some ⟨some d, cnt⟩) {p : ℕ}
    (hp : p ∈ s.live) (hb : p ∈ arena_blocks a d) (mem : ℕ → UInt8) :
    Inv ⟨({ s.heap with mem := mem }.set_list d (p :: s.heap.free_list d)).set_arena a
      (some ⟨some d, cnt + 1⟩), s.live.erase p⟩ := by
  have hpage := h.page_of_block ha hb
  have hnot := (h.small a d cnt ha p hb).mp hp
  refine h.move ha hb rfl rfl rfl (List.nodup_cons.mpr ⟨hnot, h.nodup d⟩) ?_ ?_ ?_
    (h.distinct.erase p) ?_ ?_
  · intro x hx
    rw [List.mem_cons, or_iff_right hx]
  · rw [← hpage, free_in_cons_self, List.length_cons, hpage, ← h.count a d cnt ha]
  · intro x hx
    rw [free_in_cons_of_ne (by rw [hpage]; exact hx)]
  · intro x hx
    exact List.mem_erase_of_ne hx
  · exact iff_of_false (h.distinct.not_mem_erase) (by simp)

/-- **A wholly free arena.** When the header counts every block, every block is on the list, and
none is in use. -/
theorem Inv.wholly_free (h : Inv s)
    (ha : s.heap.arenas a = some ⟨some d, (descs d).blocks_per_arena⟩) :
    arena_blocks a d ⊆ s.heap.free_list d ∧ ∀ x ∈ s.live, pg_round_down x ≠ a := by
  have hsub := (h.count_le ha).1
  have hlen : (arena_blocks a d).length ≤ (free_in (s.heap.free_list d) a).length := by
    rw [← h.count a d _ ha, arena_blocks, List.length_map, List.length_range]
  have hperm := (((h.nodup d).filter _).subperm hsub).perm_of_length_le hlen
  have hall : arena_blocks a d ⊆ s.heap.free_list d := by
    intro b hb
    exact (List.mem_filter.mp (hperm.mem_iff.mpr hb)).1
  refine ⟨hall, ?_⟩
  intro x hx hxa
  obtain ⟨a', ⟨desc, c⟩, ha', hshape⟩ := h.live x hx
  rcases hshape with ⟨hd, rfl⟩ | ⟨e, he, hb⟩
  · rw [pg_round_down_add (h.ranges.aligned ha') (by decide)] at hxa
    dsimp only at hd
    rw [hxa, ha, hd] at ha'
    cases ha'
  · dsimp only at he
    rw [he] at ha'
    rw [h.page_of_block ha' hb] at hxa
    rw [hxa] at ha' hb
    rw [ha, Option.some.injEq, Arena.mk.injEq, Option.some.injEq] at ha'
    rw [← ha'.1] at hb
    exact (h.small a d _ ha x hb).mp hx (hall hb)

/-- Every block of another arena, or of another size, lies in another page. -/
theorem Inv.listed_page (h : Inv s) (ha : s.heap.arenas a = some ⟨some d, cnt⟩) {e : DescId}
    {x : ℕ} (hx : x ∈ s.heap.free_list e) :
    pg_round_down x = a ↔ e = d ∧ x ∈ arena_blocks a d := by
  obtain ⟨y, c, hy, hxy⟩ := h.listed e x hx
  have hpage := h.page_of_block hy hxy
  constructor
  · intro hxa
    have hya : y = a := hpage.symm.trans hxa
    rw [hya] at hy hxy
    rw [ha, Option.some.injEq, Arena.mk.injEq, Option.some.injEq] at hy
    exact ⟨hy.1.symm, by rw [hy.1]; exact hxy⟩
  · rintro ⟨_, hb⟩
    exact h.page_of_block ha hb

/-- What `free` achieves. -/
structure Freed (s : State) (p : ℕ) (h' : Heap) : Prop where
  inv : Inv ⟨h', s.live.erase p⟩
  busy : Busy ⟨h', s.live.erase p⟩ none
  spares : Spares s p h'

/-- Freeing a big block. -/
theorem Inv.free_big (h : Inv s) (hbusy : Busy s none) (ha : s.heap.arenas a = some ⟨none, cnt⟩) :
    ∃ h', free s.heap (some (a + ARENA_SIZE)) = .ok h' ∧ Freed s (a + ARENA_SIZE) h' := by
  have hal := h.ranges.aligned ha
  have hp := h.big a cnt ha
  have hpage : pg_round_down (a + ARENA_SIZE) = a := pg_round_down_add hal (by decide)
  obtain ⟨c, hmem⟩ := h.ranges.held a _ ha
  obtain ⟨ar, har, hc⟩ := h.ranges.header _ hmem
  rw [ha, Option.some.injEq] at har
  rw [← har, if_pos rfl] at hc
  dsimp only at hc
  rw [hc] at hmem
  obtain ⟨h', hfree, hr, harenas, hlists, hpages, hbytes⟩ := h.ranges.drop hmem
  -- nothing else is in use in that page
  have halone : ∀ x ∈ s.live, pg_round_down x = a → x = a + ARENA_SIZE := by
    intro x hx hxa
    obtain ⟨y, ⟨desc, k⟩, hy, ⟨hd, rfl⟩ | ⟨e, he, hb⟩⟩ := h.live x hx
    · rw [pg_round_down_add (h.ranges.aligned hy) (by decide)] at hxa
      rw [hxa]
    · dsimp only at he
      rw [he] at hy
      rw [h.page_of_block hy hb] at hxa
      rw [hxa, ha] at hy
      cases hy
  refine ⟨h', ?_, ?_, ?_, ?_⟩
  · simp only [free, block_to_arena_big hal ha]
    exact hfree
  · refine h.drop hr harenas ?_ ?_ (h.distinct.erase _)
    · intro e
      rw [hlists]
      symm
      apply List.filter_eq_self.mpr
      intro x hx
      obtain ⟨y, k, hy, hxy⟩ := h.listed e x hx
      rw [h.page_of_block hy hxy]
      simp only [decide_eq_true_eq]
      rintro rfl
      rw [ha] at hy
      cases hy
    · intro x
      rw [h.distinct.mem_erase_iff, and_comm]
      constructor
      · rintro ⟨hx, hne⟩
        exact ⟨hx, fun hxa => hne (halone x hx hxa)⟩
      · rintro ⟨hx, hxa⟩
        refine ⟨hx, ?_⟩
        rintro rfl
        exact hxa hpage
  · intro x e k hx _
    have hx' : h'.arenas x = some ⟨some e, k⟩ := hx
    rw [harenas] at hx'
    have hxa : x ≠ a := by
      rintro rfl
      rw [Function.update_self] at hx'
      cases hx'
    rw [Function.update_of_ne hxa] at hx'
    exact hbusy x e k hx' (fun h => (by cases h))
  · intro q hq hne n hn
    have hqa : pg_round_down q ≠ a := fun heq => hne (halone q hq heq)
    refine ⟨?_, fun i hi => ?_⟩
    · rw [← hn]
      exact block_size_congr (by rw [harenas, Function.update_of_ne hqa])
    · obtain ⟨n', e, hn', hqc, hqlo, hqe⟩ := h.extent hq
      rw [hn] at hn'
      cases hn'
      rw [hbytes]
      have hsep := h.ranges.split hmem hqc (fun heq => hqa heq.symm) le_rfl (by omega) le_rfl hqe
      exact memset_of_apart hsep hi

/-- Freeing a block of an arena. -/
theorem Inv.free_small (h : Inv s) (hbusy : Busy s none)
    (ha : s.heap.arenas a = some ⟨some d, cnt⟩) {p : ℕ} (hp : p ∈ s.live)
    (hb : p ∈ arena_blocks a d) :
    ∃ h', free s.heap (some p) = .ok h' ∧ Freed s p h' := by
  have hal := h.ranges.aligned ha
  have hpage := h.page_of_block ha hb
  have hsize := block_size_small hal ha hb
  have hb2a := block_to_arena_small hal ha hb
  have hpush := h.push ha hp hb (memset s.heap.mem p 0xcc (descs d).block_size)
  obtain ⟨_, hle⟩ := hpush.count_le (Function.update_self ..)
  -- what the list and the header become before the test
  have hbytes : ∀ q ∈ s.live, q ≠ p → ∀ n, block_size s.heap q = .ok n → ∀ i < n,
      memset s.heap.mem p 0xcc (descs d).block_size (q + i) = s.heap.mem (q + i) := by
    intro q hq hne n hn i hi
    exact memset_of_apart (h.disjoint hp hq (fun heq => hne heq.symm) hsize hn) hi
  have hsame : ∀ q ∈ s.live, ∀ n, block_size s.heap q = .ok n →
      block_size (({ s.heap with mem := memset s.heap.mem p 0xcc (descs d).block_size }.set_list d
        (p :: s.heap.free_list d)).set_arena a (some ⟨some d, cnt + 1⟩)) q = .ok n := by
    intro q hq n hn
    rw [← hn]
    exact h.keeps_size (keeps_recount ha rfl) hq
  generalize hh1 : ({ s.heap with mem := memset s.heap.mem p 0xcc (descs d).block_size }.set_list d
    (p :: s.heap.free_list d)).set_arena a (some ⟨some d, cnt + 1⟩) = h1 at hpush hsame
  have harenas1 : h1.arenas = Function.update s.heap.arenas a (some ⟨some d, cnt + 1⟩) := by
    rw [← hh1]
    rfl
  have hmem1 : h1.mem = memset s.heap.mem p 0xcc (descs d).block_size := by
    rw [← hh1]
    rfl
  have hself1 : h1.arenas a = some ⟨some d, cnt + 1⟩ := by rw [harenas1, Function.update_self]
  have hothers : ∀ x e k, h1.arenas x = some ⟨some e, k⟩ → x ≠ a →
      k < (descs e).blocks_per_arena := by
    intro x e k hx hxa
    rw [harenas1, Function.update_of_ne hxa] at hx
    exact hbusy x e k hx (fun h => (by cases h))
  by_cases hfull : (descs d).blocks_per_arena ≤ cnt + 1
  · -- the last block in use: the arena goes back
    have heq : cnt + 1 = (descs d).blocks_per_arena := Nat.le_antisymm hle hfull
    rw [heq] at hself1
    obtain ⟨hall, hnone⟩ := hpush.wholly_free hself1
    obtain ⟨h2, hremove, hpages2, harenas2, hmem2, hlists2⟩ := remove_blocks_spec (hpush.nodup d)
      (nodup_arena_blocks a d) hall
    have hr2 : Ranges h2 := hpush.ranges.of_eq hpages2 harenas2
    obtain ⟨c, hmem⟩ := hr2.held a _ (by rw [harenas2, hself1])
    obtain ⟨ar, har, hc⟩ := hr2.header _ hmem
    rw [harenas2] at har
    rw [hself1, Option.some.injEq] at har
    rw [← har, if_neg (fun h => (by cases h))] at hc
    dsimp only at hc
    rw [hc] at hmem
    obtain ⟨h', hfree, hr, harenas, hlists, _, hbytes'⟩ := hr2.drop hmem
    rw [harenas2] at harenas
    refine ⟨h', ?_, ?_, ?_, ?_⟩
    · simp only [free, hb2a]
      show (if (descs d).blocks_per_arena ≤ cnt + 1 then _ else _) = _
      rw [if_pos hfull, ASSERT_pos heq]
      simp only [ok_bind]
      rw [hh1, hremove]
      exact hfree
    · refine hpush.drop hr harenas ?_ ?_ hpush.distinct
      · intro e
        rw [hlists, hlists2]
        by_cases hed : e = d
        · rw [hed, Function.update_self]
          apply List.filter_congr
          intro x hx
          have hiff := hpush.listed_page hself1 hx
          by_cases hxb : x ∈ arena_blocks a d
          · simp [hxb, hiff.mpr ⟨rfl, hxb⟩]
          · have hxa : ¬ pg_round_down x = a := fun heq => hxb (hiff.mp heq).2
            simp [hxb, hxa]
        · rw [Function.update_of_ne hed]
          symm
          apply List.filter_eq_self.mpr
          intro x hx
          simp only [decide_eq_true_eq]
          exact fun hxa => hed ((hpush.listed_page hself1 hx).mp hxa).1
      · intro x
        exact ⟨fun hx => ⟨hx, hnone x hx⟩, fun hx => hx.1⟩
    · intro x e k hx _
      have hx' : h'.arenas x = some ⟨some e, k⟩ := hx
      rw [harenas] at hx'
      have hxa : x ≠ a := by
        rintro rfl
        rw [Function.update_self] at hx'
        cases hx'
      rw [Function.update_of_ne hxa] at hx'
      exact hothers x e k hx' hxa
    · intro q hq hne n hn
      have hq1 : q ∈ s.live.erase p := (List.mem_erase_of_ne hne).mpr hq
      have hqa := hnone q hq1
      refine ⟨?_, fun i hi => ?_⟩
      · rw [← hsame q hq n hn]
        exact block_size_congr (by rw [harenas, Function.update_of_ne hqa])
      · obtain ⟨n', e, hn', hqc, hqlo, hqe⟩ := hpush.extent hq1
        have hn1 : block_size h1 q = .ok n := hsame q hq n hn
        rw [hn1] at hn'
        cases hn'
        have hqc2 : (pg_round_down q, e) ∈ h2.pages := by
          rw [hpages2]
          exact hqc
        have hsep := hr2.split hmem hqc2 (fun heq => hqa heq.symm) le_rfl (by omega) le_rfl hqe
        rw [hbytes', memset_of_apart hsep hi, hmem2]
        show h1.mem (q + i) = _
        rw [hmem1, hbytes q hq hne n hn i hi]
  · refine ⟨h1, ?_, hpush, ?_, ?_⟩
    · simp only [free, hb2a]
      show (if (descs d).blocks_per_arena ≤ cnt + 1 then _ else _) = _
      rw [if_neg hfull, hh1]
      rfl
    · intro x e k hx _
      by_cases hxa : x = a
      · have hx' : h1.arenas x = some ⟨some e, k⟩ := hx
        rw [hxa, hself1] at hx'
        simp only [Option.some.injEq, Arena.mk.injEq] at hx'
        rw [← hx'.1, ← hx'.2]
        exact Nat.lt_of_not_le hfull
      · exact hothers x e k hx hxa
    · intro q hq hne n hn
      refine ⟨hsame q hq n hn, fun i hi => ?_⟩
      rw [hmem1]
      exact hbytes q hq hne n hn i hi

/-- **`free` of a block in use returns.** -/
theorem Inv.free (h : Inv s) (hbusy : Busy s none) {p : ℕ} (hp : p ∈ s.live) :
    ∃ h', Malloc.free s.heap (some p) = .ok h' ∧ Freed s p h' := by
  obtain ⟨a, ⟨desc, c⟩, ha, ⟨hd, rfl⟩ | ⟨d, hd, hb⟩⟩ := h.live p hp
  · dsimp only at hd
    rw [hd] at ha
    exact h.free_big hbusy ha
  · dsimp only at hd
    rw [hd] at ha
    exact h.free_small hbusy ha hp hb

/-! ## Requested sizes -/

/-- **A request that does not wrap is served in full.** Up to `2 ^ 32 - 12` the sums that round
up either stay below `2 ^ 32` or come out as no pages at all. -/
theorem le_granted_size {h : Heap} {size : ℕ} {pal : ℕ → Option ℕ} (hsize : size ≤ 2 ^ 32 - 12)
    (hr : ¬ Refused h size pal) : size ≤ granted_size size := by
  obtain ⟨_, hr'⟩ := not_or.mp hr
  unfold granted_size
  cases hf : find_desc size with
  | some d => exact find_desc_le hf
  | none =>
    rw [hf] at hr'
    have hpos : big_page_cnt size ≠ 0 := (not_or.mp hr').1
    show size ≤ PGSIZE * big_page_cnt size - ARENA_SIZE
    revert hpos
    unfold big_page_cnt DIV_ROUND_UP size_t PGSIZE ARENA_SIZE
    intro hpos
    omega

/-- A larger request wraps: it asks for one page. -/
theorem big_page_cnt_wraps {size : ℕ} (hlo : 2 ^ 32 - 12 < size) (hhi : size < 2 ^ 32) :
    find_desc size = none ∧ big_page_cnt size = 1 := by
  constructor
  · cases hf : find_desc size with
    | none => rfl
    | some d =>
      have hle := find_desc_le hf
      obtain ⟨_, hthree, hfit⟩ := desc_fits d
      have hmul : 1 * (descs d).block_size
          ≤ (descs d).blocks_per_arena * (descs d).block_size :=
        Nat.mul_le_mul_right _ (by omega)
      unfold PGSIZE at hfit
      omega
  · unfold big_page_cnt DIV_ROUND_UP size_t PGSIZE ARENA_SIZE
    omega

/-! ## Runs -/

/-- A call, or a write of a client to a block of its own. -/
inductive Call
  | malloc (size : ℕ) (pal : ℕ → Option ℕ)
  | calloc (a b : ℕ) (pal : ℕ → Option ℕ)
  | realloc (old_block : Option ℕ) (new_size : ℕ) (pal : ℕ → Option ℕ)
  | free (p : Option ℕ)
  | store (p i : ℕ) (v : UInt8)

/-- The blocks in use without one of them. -/
def without (live : List ℕ) : Option ℕ → List ℕ
  | none => live
  | some p => live.erase p

/-- What a call does. -/
def exec (s : State) : Call → Res State
  | .malloc size pal => do
    let r ← malloc s.heap size pal
    return ⟨r.2, r.1.toList ++ s.live⟩
  | .calloc a b pal => do
    let r ← calloc s.heap a b pal
    return ⟨r.2, r.1.toList ++ s.live⟩
  | .realloc old_block new_size pal => do
    let r ← realloc s.heap old_block new_size pal
    match r.1 with
    | some p => return ⟨r.2, p :: without s.live old_block⟩
    | none => return ⟨r.2, if new_size = 0 then without s.live old_block else s.live⟩
  | .free p => do
    let h ← free s.heap p
    return ⟨h, without s.live p⟩
  | .store p i v => return { s with
      heap := { s.heap with mem := Function.update s.heap.mem (p + i) v } }

/-- What callers and `palloc` keep to: `palloc` answers with fresh pages, only blocks in use are
freed and resized, and a client writes within its blocks. -/
def Allowed (s : State) : Call → Prop
  | .malloc _ pal => Palloc s.heap pal
  | .calloc _ _ pal => Palloc s.heap pal
  | .realloc old_block _ pal => Palloc s.heap pal ∧ ∀ p ∈ old_block, p ∈ s.live
  | .free p => ∀ q ∈ p, q ∈ s.live
  | .store p i _ => p ∈ s.live ∧ ∃ n, block_size s.heap p = .ok n ∧ i < n

/-- `malloc` serves the request in full: it is at most `2 ^ 32 - 12` bytes, or there is no page
for it. -/
def MallocFits (size : ℕ) (pal : ℕ → Option ℕ) : Prop := size ≤ 2 ^ 32 - 12 ∨ pal 1 = none

/-- `calloc` serves the request in full: the product is at most `2 ^ 32 - 12`, or the test
catches the wrap, or there is no memory for what the product wraps to. -/
def CallocFits (h : Heap) (a b : ℕ) (pal : ℕ → Option ℕ) : Prop :=
  a * b ≤ 2 ^ 32 - 12 ∨ size_t (a * b) < a ∨ size_t (a * b) < b
    ∨ Refused h (size_t (a * b)) pal

/-- A request that fits is served in full when it is granted. -/
theorem MallocFits.le_granted_size {h : Heap} {size : ℕ} {pal : ℕ → Option ℕ}
    (hfit : MallocFits size pal) (hlt : size < 2 ^ 32) (hr : ¬ Refused h size pal) :
    size ≤ granted_size size := by
  by_cases hle : size ≤ 2 ^ 32 - 12
  · exact Malloc.le_granted_size hle hr
  · -- the one page that such a request asks for is not to be had
    obtain ⟨hfind, hone⟩ := big_page_cnt_wraps (Nat.lt_of_not_le hle) hlt
    refine absurd (Or.inr ?_) hr
    rw [hfind]
    exact Or.inr (by rw [hone]; exact hfit.resolve_left hle)

/-- The sizes of the call do not wrap. -/
def Fits (s : State) : Call → Prop
  | .malloc size pal => size < 2 ^ 32 ∧ MallocFits size pal
  | .calloc a b pal => a < 2 ^ 32 ∧ b < 2 ^ 32 ∧ CallocFits s.heap a b pal
  | .realloc _ new_size pal => new_size < 2 ^ 32 ∧ MallocFits new_size pal
  | .free _ => True
  | .store _ _ _ => True

/-- Runs begin with the descriptors that `malloc_init` fills in: all lists are empty. -/
def malloc_system : System State Call where
  init s := s.heap.pages = [] ∧ (∀ a, s.heap.arenas a = none)
    ∧ (∀ d, s.heap.free_list d = []) ∧ s.live = []
  step s c s' := Allowed s c ∧ exec s c = .ok s'

/-- The invariant, and every arena has a block in use. -/
def Sound (s : State) : Prop := Inv s ∧ Busy s none

/-- The bytes have no part in the invariant. -/
theorem Sound.of_mem {h : Heap} {live : List ℕ} (hs : Sound ⟨h, live⟩) (mem : ℕ → UInt8) :
    Sound ⟨{ h with mem := mem }, live⟩ :=
  ⟨⟨hs.1.ranges.of_eq rfl rfl, hs.1.listed, hs.1.nodup, hs.1.count, hs.1.small, hs.1.big,
    hs.1.live, hs.1.distinct⟩, hs.2⟩

/-- **`malloc`** returns a null pointer and changes nothing, or grants the request. -/
theorem Sound.malloc (hs : Sound s) {size : ℕ} {pal : ℕ → Option ℕ} (hp : Palloc s.heap pal) :
    (Refused s.heap size pal ∧ Malloc.malloc s.heap size pal = .ok (none, s.heap))
      ∨ (¬ Refused s.heap size pal ∧ ∃ p h', Malloc.malloc s.heap size pal = .ok (some p, h')
        ∧ Granted s size p h') := by
  by_cases hr : Refused s.heap size pal
  · exact Or.inl ⟨hr, malloc_refused hr⟩
  · exact Or.inr ⟨hr, hs.1.malloc_granted hs.2 hp hr⟩

/-- **`free`** of a null pointer does nothing; a block in use is freed. -/
theorem Sound.free (hs : Sound s) {p : Option ℕ} (hp : ∀ q ∈ p, q ∈ s.live) :
    ∃ h', Malloc.free s.heap p = .ok h' ∧ Sound ⟨h', without s.live p⟩ := by
  cases p with
  | none => exact ⟨s.heap, rfl, hs⟩
  | some q =>
    obtain ⟨h', hfree, hfreed⟩ := hs.1.free hs.2 (hp q rfl)
    exact ⟨h', hfree, hfreed.inv, hfreed.busy⟩

/-- Moving a block: the new one is granted, the bytes are copied, the old one is freed. -/
theorem Sound.move_block {p q size : ℕ} {h₁ : Heap} (hp : p ∈ s.live)
    (hg : Granted s size q h₁) (k : ℕ) :
    ∃ h', Malloc.free { h₁ with mem := memcpy h₁.mem q p k } (some p) = .ok h'
      ∧ Sound ⟨h', q :: s.live.erase p⟩
      ∧ ∀ i < k, i < granted_size size → h'.mem (q + i) = s.heap.mem (p + i) := by
  have hsound : Sound ⟨{ h₁ with mem := memcpy h₁.mem q p k }, q :: s.live⟩ :=
    Sound.of_mem ⟨hg.inv, hg.busy⟩ _
  have hqp : q ≠ p := by
    rintro rfl
    exact (List.nodup_cons.mp hg.inv.distinct).1 hp
  obtain ⟨h', hfree, hfreed⟩ := hsound.1.free hsound.2 (List.mem_cons_of_mem q hp)
  have herase : (q :: s.live).erase p = q :: s.live.erase p :=
    List.erase_cons_tail (by simpa using hqp)
  refine ⟨h', hfree, ?_, fun i hi hig => ?_⟩
  · rw [← herase]
    exact ⟨hfreed.inv, hfreed.busy⟩
  · have hsize : block_size { h₁ with mem := memcpy h₁.mem q p k } q
        = .ok (granted_size size) := hg.size
    obtain ⟨_, hbytes⟩ := hfreed.spares q List.mem_cons_self hqp _ hsize
    rw [hbytes i hig]
    show memcpy h₁.mem q p k (q + i) = _
    rw [memcpy, if_pos (by omega), Nat.add_sub_cancel_left, hg.mem]

/-- **`realloc`** returns; when it moves the block, the bytes go with it. -/
theorem Sound.realloc (hs : Sound s) {old_block : Option ℕ} {new_size : ℕ}
    {pal : ℕ → Option ℕ} (hp : Palloc s.heap pal) (hold : ∀ p ∈ old_block, p ∈ s.live) :
    (∃ s', exec s (.realloc old_block new_size pal) = .ok s' ∧ Sound s')
      ∧ ∀ p ∈ old_block, ∀ q h', Malloc.realloc s.heap old_block new_size pal = .ok (some q, h') →
        new_size < 2 ^ 32 → MallocFits new_size pal → ∀ n, block_size s.heap p = .ok n →
        ∀ i < min n new_size, h'.mem (q + i) = s.heap.mem (p + i) := by
  by_cases h0 : new_size = 0
  · obtain ⟨h', hfree, hsound⟩ := hs.free hold
    have hre : Malloc.realloc s.heap old_block new_size pal = .ok (none, h') := by
      rw [Malloc.realloc, if_pos h0, hfree]
      rfl
    refine ⟨⟨⟨h', without s.live old_block⟩, ?_, hsound⟩, ?_⟩
    · simp only [exec, hre, ok_bind, if_pos h0]
      rfl
    · intro p _ q h'' hq
      rw [hre] at hq
      cases hq
  rcases hs.malloc hp with ⟨hr, hm⟩ | ⟨hr, q, h₁, hm, hg⟩
  · have hre : Malloc.realloc s.heap old_block new_size pal = .ok (none, s.heap) := by
      rw [Malloc.realloc, if_neg h0, hm]
      cases old_block <;> rfl
    refine ⟨⟨s, ?_, hs⟩, ?_⟩
    · simp only [exec, hre, ok_bind, if_neg h0]
      rfl
    · intro p _ q h'' hq
      rw [hre] at hq
      cases hq
  · cases old_block with
    | none =>
      have hre : Malloc.realloc s.heap none new_size pal = .ok (some q, h₁) := by
        rw [Malloc.realloc, if_neg h0, hm]
        rfl
      refine ⟨⟨⟨h₁, q :: s.live⟩, ?_, hg.inv, hg.busy⟩, fun p hp => (by cases hp)⟩
      simp only [exec, hre, ok_bind]
      rfl
    | some p =>
      have hpl : p ∈ s.live := hold p rfl
      obtain ⟨n, _, hn, _⟩ := hs.1.extent hpl
      have hn₁ : block_size h₁ p = .ok n := by
        rw [← hn]
        exact hs.1.keeps_size hg.keeps hpl
      obtain ⟨h', hfree, hsound, hbytes⟩ :=
        Sound.move_block hpl hg (if new_size < n then new_size else n)
      have hre : Malloc.realloc s.heap (some p) new_size pal = .ok (some q, h') := by
        rw [Malloc.realloc, if_neg h0, hm]
        simp only [ok_bind, hn₁, hfree]
        rfl
      refine ⟨⟨⟨h', q :: s.live.erase p⟩, ?_, hsound⟩, ?_⟩
      · simp only [exec, hre, ok_bind]
        rfl
      · intro p' hp' q' h'' hq' hlt hfit n' hn' i hi
        cases hp'
        rw [hre] at hq'
        cases hq'
        rw [hn] at hn'
        cases hn'
        rw [lt_min_iff] at hi
        refine hbytes i (by split <;> omega) ?_
        exact lt_of_lt_of_le hi.2 (hfit.le_granted_size hlt hr)

/-- **`calloc`** returns; what it grants is zeroed as far as it asked `malloc`. -/
theorem Sound.calloc (hs : Sound s) {a b : ℕ} {pal : ℕ → Option ℕ} (hp : Palloc s.heap pal) :
    ((size_t (a * b) < a ∨ size_t (a * b) < b ∨ Refused s.heap (size_t (a * b)) pal)
        ∧ Malloc.calloc s.heap a b pal = .ok (none, s.heap))
      ∨ (¬ (size_t (a * b) < a ∨ size_t (a * b) < b ∨ Refused s.heap (size_t (a * b)) pal)
        ∧ ∃ p h', Granted s (size_t (a * b)) p h' ∧ Malloc.calloc s.heap a b pal
          = .ok (some p, { h' with mem := memset h'.mem p 0 (size_t (a * b)) })) := by
  by_cases htest : size_t (a * b) < a ∨ size_t (a * b) < b
  · refine Or.inl ⟨htest.elim Or.inl (fun h => Or.inr (Or.inl h)), ?_⟩
    rw [Malloc.calloc]
    exact if_pos htest
  obtain ⟨ha, hb⟩ := not_or.mp htest
  rcases hs.malloc hp with ⟨hr, hm⟩ | ⟨hr, p, h', hm, hg⟩
  · refine Or.inl ⟨Or.inr (Or.inr hr), ?_⟩
    simp only [Malloc.calloc, if_neg htest, hm]
    rfl
  · refine Or.inr ⟨fun h => h.elim ha (fun h => h.elim hb hr), p, h', hg, ?_⟩
    simp only [Malloc.calloc, if_neg htest, hm]
    rfl

/-- **A call returns and keeps the heap sound.** -/
theorem Sound.exec (hs : Sound s) {c : Call} (hc : Allowed s c) :
    ∃ s', Malloc.exec s c = .ok s' ∧ Sound s' := by
  cases c with
  | malloc size pal =>
    rcases @Sound.malloc s hs size pal hc with ⟨_, hm⟩ | ⟨_, p, h', hm, hg⟩
    · exact ⟨s, by simp only [Malloc.exec, hm]; rfl, hs⟩
    · exact ⟨⟨h', p :: s.live⟩, by simp only [Malloc.exec, hm]; rfl, hg.inv, hg.busy⟩
  | calloc a b pal =>
    rcases @Sound.calloc s hs a b pal hc with ⟨_, hm⟩ | ⟨_, p, h', hg, hm⟩
    · exact ⟨s, by simp only [Malloc.exec, hm]; rfl, hs⟩
    · exact ⟨_, by simp only [Malloc.exec, hm]; rfl, Sound.of_mem ⟨hg.inv, hg.busy⟩ _⟩
  | realloc old_block new_size pal => exact (hs.realloc hc.1 hc.2).1
  | free p =>
    obtain ⟨h', hfree, hsound⟩ := hs.free hc
    exact ⟨_, by simp only [Malloc.exec, hfree]; rfl, hsound⟩
  | store p i v => exact ⟨_, rfl, hs.of_mem _⟩

theorem sound_init (hinit : malloc_system.init s) : Sound s := by
  obtain ⟨hpages, harenas, hlists, hlive⟩ := hinit
  constructor
  · constructor
    · constructor
      · rw [hpages]
        simp
      · rw [hpages]
        exact List.Pairwise.nil
      · rw [hpages]
        simp
      · intro a ar ha
        rw [harenas] at ha
        cases ha
    all_goals simp [hlists, hlive, harenas]
  · intro a d cnt ha
    rw [harenas] at ha
    cases ha

/-- **The heap is sound after any run**, with no bound on the sizes that are asked for: a size
that wraps gets a smaller block, and the heap stays sound. -/
theorem reachable_sound {ok : State → Call → Prop} (hr : Reachable malloc_system ok s) :
    Sound s := by
  apply hr.invariant (fun _ => sound_init)
  intro s c s' hs _ ⟨hallowed, hstep⟩
  obtain ⟨s'', hexec, hsound⟩ := hs.exec hallowed
  rw [hstep] at hexec
  cases hexec
  exact hsound

/-! ## What holds of the heap -/

/-- The heap as its clients and `palloc` see it. -/
structure HeapOk (s : State) : Prop where
  /-- No block is returned twice. -/
  distinct : s.live.Nodup
  /-- A block in use has a size. -/
  sized : ∀ p ∈ s.live, ∃ n, block_size s.heap p = .ok n
  /-- Blocks in use do not overlap. -/
  disjoint : ∀ p ∈ s.live, ∀ q ∈ s.live, p ≠ q → ∀ m n, block_size s.heap p = .ok m →
    block_size s.heap q = .ok n → p + m ≤ q ∨ q + n ≤ p
  /-- They do not overlap a block on a free list, and so none of its links. -/
  apart : ∀ p ∈ s.live, ∀ n, block_size s.heap p = .ok n → ∀ d, ∀ b ∈ s.heap.free_list d,
    p + n ≤ b ∨ b + (descs d).block_size ≤ p
  /-- They do not overlap a header. -/
  clear : ∀ p ∈ s.live, ∀ n, block_size s.heap p = .ok n → ∀ a ar, s.heap.arenas a = some ar →
    p + n ≤ a ∨ a + ARENA_SIZE ≤ p
  /-- A block of an arena is one of the places behind the header, within the page. -/
  placed : ∀ p ∈ s.live, ∀ d cnt, s.heap.arenas (pg_round_down p) = some ⟨some d, cnt⟩ →
    ∃ k < (descs d).blocks_per_arena,
      p = pg_round_down p + ARENA_SIZE + k * (descs d).block_size
        ∧ p + (descs d).block_size ≤ pg_round_down p + PGSIZE
  /-- A header counts the blocks of its arena on the free list. -/
  counts : ∀ a d cnt, s.heap.arenas a = some ⟨some d, cnt⟩ →
    cnt = ((s.heap.free_list d).filter (fun b => pg_round_down b = a)).length
  /-- No block is on a free list twice, or on two. -/
  once : ∀ d, (s.heap.free_list d).Nodup ∧ ∀ e, ∀ b ∈ s.heap.free_list d,
    b ∈ s.heap.free_list e → d = e
  /-- Pages are held as long as there is a block in use in them. -/
  held : ∀ a, (∃ cnt, (a, cnt) ∈ s.heap.pages) ↔ ∃ p ∈ s.live, pg_round_down p = a

/-- An arena has a block in use. -/
theorem Sound.block_in_use (hs : Sound s) (ha : s.heap.arenas a = some ⟨some d, cnt⟩) :
    ∃ p ∈ s.live, pg_round_down p = a := by
  by_contra hno
  -- otherwise every block is on the list, and the header counts them all
  have hall : arena_blocks a d ⊆ free_in (s.heap.free_list d) a := by
    intro b hb
    have hpage := hs.1.page_of_block ha hb
    refine List.mem_filter.mpr ⟨?_, by simpa using hpage⟩
    by_contra hnot
    exact hno ⟨b, (hs.1.small a d cnt ha b hb).mpr hnot, hpage⟩
  have hlen := (nodup_arena_blocks a d).length_le_of_subset hall
  rw [← hs.1.count a d cnt ha, arena_blocks, List.length_map, List.length_range] at hlen
  have hlt := hs.2 a d cnt ha (fun h => (by cases h))
  omega

theorem Sound.heapOk (hs : Sound s) : HeapOk s where
  distinct := hs.1.distinct
  sized := by
    intro p hp
    obtain ⟨n, _, hn, _⟩ := hs.1.extent hp
    exact ⟨n, hn⟩
  disjoint := fun p hp q hq hne m n hm hn => hs.1.disjoint hp hq hne hm hn
  apart := by
    intro p hp n hn d b hb
    obtain ⟨a, cnt, ha, hba⟩ := hs.1.listed d b hb
    refine hs.1.apart hp hn ha hba ?_
    rintro rfl
    exact (hs.1.small a d cnt ha p hba).mp hp hb
  clear := by
    intro p hp n hn a ar ha
    obtain ⟨n', c, hn', hpc, hlo, hhi⟩ := hs.1.extent hp
    rw [hn] at hn'
    cases hn'
    by_cases hpa : pg_round_down p = a
    · exact Or.inr (by omega)
    · obtain ⟨e, hmem⟩ := hs.1.ranges.held a ar ha
      obtain ⟨_, _, hpos, _⟩ := hs.1.ranges.pages _ hmem
      have hfit : a + ARENA_SIZE ≤ a + PGSIZE * e := by
        have hle : PGSIZE * 1 ≤ PGSIZE * e := Nat.mul_le_mul_left _ hpos
        unfold PGSIZE ARENA_SIZE at *
        omega
      exact hs.1.ranges.split hpc hmem hpa (by omega) le_rfl hhi hfit
  placed := by
    intro p hp d cnt ha
    obtain ⟨x, ⟨desc, c⟩, hx, ⟨hd, rfl⟩ | ⟨e, he, hb⟩⟩ := hs.1.live p hp
    · rw [pg_round_down_add (hs.1.ranges.aligned hx) (by decide), hx] at ha
      dsimp only at hd
      rw [hd] at ha
      cases ha
    · dsimp only at he
      rw [he] at hx
      have hpage := hs.1.page_of_block hx hb
      rw [hpage, hx, Option.some.injEq, Arena.mk.injEq, Option.some.injEq] at ha
      rw [hpage, ← ha.1]
      obtain ⟨k, hk, rfl⟩ := mem_arena_blocks.mp hb
      refine ⟨k, hk, rfl, ?_⟩
      have hend := block_end_le hk
      rw [arena_to_block]
      omega
  counts := hs.1.count
  once := fun d => ⟨hs.1.nodup d, fun e b hd he => hs.1.listed_once hd he⟩
  held := by
    intro a
    constructor
    · rintro ⟨c, hmem⟩
      obtain ⟨⟨desc, cnt⟩, har, _⟩ := hs.1.ranges.header _ hmem
      cases desc with
      | none =>
        refine ⟨a + ARENA_SIZE, hs.1.big a cnt har, ?_⟩
        exact pg_round_down_add (hs.1.ranges.aligned har) (by decide)
      | some d => exact hs.block_in_use har
    · rintro ⟨p, hp, rfl⟩
      obtain ⟨_, c, _, hmem, _⟩ := hs.1.extent hp
      exact ⟨c, hmem⟩

/-- The request is below `2 ^ 31` bytes. -/
def Call.Below : Call → Prop
  | .malloc size _ => size < 2 ^ 31
  | .calloc a b _ => a * b < 2 ^ 31
  | .realloc _ new_size _ => new_size < 2 ^ 31
  | .free _ => True
  | .store _ _ _ => True

/-- **The heap invariant.** After any run of calls for less than `2 ^ 31` bytes: the heap is as
`HeapOk` says, every call returns, a page goes back exactly when the last block in use in it is
freed, and `realloc` moves the bytes of a block with it. -/
theorem heap_invariant (hr : Reachable malloc_system (fun _ c => c.Below) s) :
    HeapOk s
      ∧ (∀ c, Allowed s c → ∃ s', exec s c = .ok s')
      ∧ (∀ c s', Allowed s c → exec s c = .ok s' → ∀ a, (∃ cnt, (a, cnt) ∈ s.heap.pages) →
        ((∀ cnt, (a, cnt) ∉ s'.heap.pages) ↔ ∀ p ∈ s'.live, pg_round_down p ≠ a))
      ∧ ∀ p ∈ s.live, ∀ new_size < 2 ^ 31, ∀ pal, Palloc s.heap pal → ∀ q h',
        realloc s.heap (some p) new_size pal = .ok (some q, h') →
        ∀ n, block_size s.heap p = .ok n → ∀ i < min n new_size,
          h'.mem (q + i) = s.heap.mem (p + i) := by
  have hs : Sound s := reachable_sound hr
  refine ⟨hs.heapOk, ?_, ?_, ?_⟩
  · intro c hc
    obtain ⟨s', hexec, _⟩ := hs.exec hc
    exact ⟨s', hexec⟩
  · intro c s' hc hexec a _
    obtain ⟨s'', hexec', hs'⟩ := hs.exec hc
    rw [hexec] at hexec'
    cases hexec'
    have hiff := hs'.heapOk.held a
    constructor
    · intro hno p hp hpa
      obtain ⟨c, hmem⟩ := hiff.mpr ⟨p, hp, hpa⟩
      exact hno c hmem
    · intro hno c hmem
      obtain ⟨p, hp, hpa⟩ := hiff.mp ⟨c, hmem⟩
      exact hno p hp hpa
  · intro p hp new_size hlt pal hpal q h' hre n hn i hi
    have hold : ∀ x ∈ some p, x ∈ s.live := by
      intro x hx
      cases hx
      exact hp
    exact (hs.realloc hpal hold).2 p rfl q h' hre (by omega) (Or.inl (by omega)) n hn i hi

/-- An empty heap. -/
def empty_heap : State := ⟨⟨[], fun _ => none, fun _ => [], fun _ => 0⟩, []⟩

/-- A page allocator that has sixty-four pages from `0x100000` on. -/
def pages_at_1M (cnt : ℕ) : Option ℕ := if cnt ≤ 64 then some 0x100000 else none

theorem palloc_pages_at_1M : Palloc empty_heap.heap pages_at_1M := by
  intro cnt a hc ha
  unfold pages_at_1M at ha
  split at ha
  · cases ha
    refine ⟨by decide, by decide, ?_, fun r hr => (by cases hr)⟩
    unfold PGSIZE
    omega
  · cases ha

theorem empty_heap_init : malloc_system.init empty_heap :=
  ⟨rfl, fun _ => rfl, fun _ => rfl, rfl⟩

/-- A page allocator that has one page. -/
def page_at (a cnt : ℕ) : Option ℕ := if cnt = 1 then some a else none

theorem palloc_page_at {h : Heap} {a : ℕ} (hf : Fresh h a 1) : Palloc h (page_at a) := by
  intro cnt b _ hb
  unfold page_at at hb
  split at hb
  · rename_i hone
    cases hb
    rw [hone]
    exact hf
  · cases hb

/-- The state after a call. -/
def after (s : State) (c : Call) : State := (exec s c).toOption.getD s

theorem reachable_after (hr : Reachable malloc_system (fun _ c => c.Below) s) {c : Call}
    (hb : c.Below) (hc : Allowed s c) :
    Reachable malloc_system (fun _ c => c.Below) (after s c) := by
  obtain ⟨s', hexec, -⟩ := (reachable_sound hr).exec hc
  have heq : after s c = s' := by
    unfold after
    rw [hexec]
    rfl
  rw [heq]
  exact hr.step hb ⟨hc, hexec⟩

/-- A block of 100 bytes. -/
def one_block : State := after empty_heap (.malloc 100 (page_at 0x100000))

/-- Then a block of 20 bytes, in a page of its own. -/
def two_blocks : State := after one_block (.malloc 20 (page_at 0x101000))

/-- The first block grows, and the page it leaves goes back. -/
def grown_block : State := after two_blocks (.realloc (some 0x10000c) 200 (page_at 0x102000))

/-- The second block is freed, and its page goes back. -/
def freed_block : State := after grown_block (.free (some 0x10100c))

theorem heap_invariant_four_calls : two_blocks.live = [0x10100c, 0x10000c] ∧
    freed_block.live = [0x10200c] ∧ freed_block.heap.pages = [(0x102000, 1)] ∧
    HeapOk freed_block := by
  have h₁ : Reachable malloc_system (fun _ c => c.Below) one_block := by
    refine reachable_after (Reachable.init empty_heap_init) (by simp [Call.Below]) ?_
    exact palloc_page_at ⟨by decide, by decide, by decide, fun r hr => (by cases hr)⟩
  have h₂ : Reachable malloc_system (fun _ c => c.Below) two_blocks := by
    refine reachable_after h₁ (by simp [Call.Below]) ?_
    have hpages : one_block.heap.pages = [(0x100000, 1)] := rfl
    refine palloc_page_at ⟨by decide, by decide, by decide, ?_⟩
    rw [hpages]
    simp [Apart, PGSIZE]
  have h₃ : Reachable malloc_system (fun _ c => c.Below) grown_block := by
    refine reachable_after h₂ (by simp [Call.Below]) ⟨?_, ?_⟩
    · have hpages : two_blocks.heap.pages = [(0x101000, 1), (0x100000, 1)] := rfl
      refine palloc_page_at ⟨by decide, by decide, by decide, ?_⟩
      rw [hpages]
      simp [Apart, PGSIZE]
    · have hlive : two_blocks.live = [0x10100c, 0x10000c] := rfl
      simp [hlive]
  have h₄ : Reachable malloc_system (fun _ c => c.Below) freed_block := by
    refine reachable_after h₃ trivial ?_
    have hlive : grown_block.live = [0x10200c, 0x10100c] := rfl
    simp [Allowed, hlive]
  exact ⟨rfl, rfl, rfl, (heap_invariant h₄).1⟩

/-! ## Whether a request is served in full -/

/-- At least `n` bytes from `p` on are usable, and they lie in pages from `palloc`. -/
def Honoured (h : Heap) (p n : ℕ) : Prop :=
  ∃ size, block_size h p = .ok size ∧ n ≤ size
    ∧ ∃ r ∈ h.pages, r.1 ≤ p ∧ p + size ≤ r.1 + PGSIZE * r.2

/-- `malloc` returns, and a block that it returns has as many bytes as were asked for. -/
def MallocHonours (h : Heap) (size : ℕ) (pal : ℕ → Option ℕ) : Prop :=
  ∃ r, malloc h size pal = .ok r ∧ ∀ p ∈ r.1, Honoured r.2 p size

/-- `calloc` returns, and a block that it returns has `a * b` bytes, all of them zero. -/
def CallocHonours (h : Heap) (a b : ℕ) (pal : ℕ → Option ℕ) : Prop :=
  ∃ r, calloc h a b pal = .ok r
    ∧ ∀ p ∈ r.1, Honoured r.2 p (a * b) ∧ ∀ i < a * b, r.2.mem (p + i) = 0

/-- A granted block has the size that was rounded up for it, within a page range. -/
theorem Granted.honoured_iff {p size n : ℕ} {h' : Heap} (hg : Granted s size p h')
    (mem : ℕ → UInt8) : Honoured { h' with mem := mem } p n ↔ n ≤ granted_size size := by
  obtain ⟨k, c, hk, hmem, hlo, hhi⟩ := hg.inv.extent List.mem_cons_self
  have hk' : block_size h' p = .ok k := hk
  rw [hg.size] at hk'
  cases hk'
  constructor
  · rintro ⟨m, hm, hle, _⟩
    have hm' : block_size h' p = .ok m := hm
    rw [hg.size] at hm'
    cases hm'
    exact hle
  · intro hle
    exact ⟨_, hg.size, hle, _, hmem, by dsimp only; omega, hhi⟩

/-- What a granted block can hold is less than `2 ^ 32` bytes. -/
theorem granted_size_lt (size : ℕ) : granted_size size < 2 ^ 32 := by
  unfold granted_size
  cases find_desc size with
  | some d =>
    obtain ⟨_, hthree, hfit⟩ := desc_fits d
    have hmul : 1 * (descs d).block_size ≤ (descs d).blocks_per_arena * (descs d).block_size :=
      Nat.mul_le_mul_right _ (by omega)
    unfold PGSIZE at hfit
    show (descs d).block_size < 2 ^ 32
    omega
  | none =>
    show PGSIZE * big_page_cnt size - ARENA_SIZE < 2 ^ 32
    unfold big_page_cnt DIV_ROUND_UP size_t PGSIZE ARENA_SIZE
    omega

theorem Sound.malloc_honours_iff (hs : Sound s) {size : ℕ} {pal : ℕ → Option ℕ}
    (hp : Palloc s.heap pal) (hlt : size < 2 ^ 32) :
    MallocHonours s.heap size pal ↔ MallocFits size pal := by
  rcases hs.malloc hp with ⟨hr, hm⟩ | ⟨hr, p, h', hm, hg⟩
  · -- a null pointer; then nothing wrapped, or the one page was not to be had
    refine iff_of_true ⟨_, hm, fun p hp => (by cases hp)⟩ ?_
    by_cases hle : size ≤ 2 ^ 32 - 12
    · exact Or.inl hle
    · obtain ⟨hfind, hone⟩ := big_page_cnt_wraps (Nat.lt_of_not_le hle) hlt
      have hr' := hr.resolve_left (by omega)
      rw [hfind] at hr'
      have hno : big_page_cnt size = 0 ∨ pal (big_page_cnt size) = none := hr'
      rw [hone] at hno
      exact Or.inr (hno.resolve_left Nat.one_ne_zero)
  · constructor
    · rintro ⟨r, hr', hall⟩
      rw [hm] at hr'
      cases hr'
      have hle := (hg.honoured_iff h'.mem).mp (hall p rfl)
      refine Or.inl ?_
      by_contra hgt
      obtain ⟨hfind, hone⟩ := big_page_cnt_wraps (Nat.lt_of_not_le hgt) hlt
      simp only [granted_size, hfind, hone] at hle
      unfold PGSIZE ARENA_SIZE at hle
      omega
    · intro hfit
      refine ⟨_, hm, fun q hq => ?_⟩
      cases hq
      exact (hg.honoured_iff h'.mem).mpr (hfit.le_granted_size hlt hr)

theorem Sound.calloc_honours_iff (hs : Sound s) {a b : ℕ} {pal : ℕ → Option ℕ}
    (hp : Palloc s.heap pal) : CallocHonours s.heap a b pal ↔ CallocFits s.heap a b pal := by
  rcases hs.calloc hp with ⟨hr, hm⟩ | ⟨hr, p, h', hg, hm⟩
  · exact iff_of_true ⟨_, hm, fun p hp => (by cases hp)⟩ (Or.inr hr)
  · rw [CallocFits, or_iff_left hr]
    have hrefused : ¬ Refused s.heap (size_t (a * b)) pal :=
      fun h => hr (Or.inr (Or.inr h))
    constructor
    · rintro ⟨r, hr', hall⟩
      rw [hm] at hr'
      cases hr'
      have hle := (hg.honoured_iff _).mp (hall p rfl).1
      have hlt := granted_size_lt (size_t (a * b))
      -- the product did not wrap, since the block holds it
      have hsize : size_t (a * b) = a * b := Nat.mod_eq_of_lt (by omega)
      rw [hsize] at hle hlt
      by_contra hgt
      obtain ⟨hfind, hone⟩ := big_page_cnt_wraps (Nat.lt_of_not_le hgt) (by omega)
      simp only [granted_size, hfind, hone] at hle
      unfold PGSIZE ARENA_SIZE at hle
      omega
    · intro hle
      have hsize : size_t (a * b) = a * b := Nat.mod_eq_of_lt (by omega)
      rw [hsize] at hm hg hrefused
      refine ⟨_, hm, fun q hq => ?_⟩
      cases hq
      refine ⟨(hg.honoured_iff _).mpr (Malloc.le_granted_size hle hrefused), fun i hi => ?_⟩
      show memset h'.mem p 0 (a * b) (p + i) = 0
      rw [memset, if_pos (by omega)]

/-- **When requests are served in full.** After any run whose calls did not wrap, `malloc` is
honest exactly for requests that fit, and so is `calloc`. -/
theorem sizes_honoured_iff (hr : Reachable malloc_system Fits s) {pal : ℕ → Option ℕ}
    (hp : Palloc s.heap pal) :
    (∀ size < 2 ^ 32, MallocHonours s.heap size pal ↔ MallocFits size pal)
      ∧ ∀ a < 2 ^ 32, ∀ b < 2 ^ 32,
        CallocHonours s.heap a b pal ↔ CallocFits s.heap a b pal := by
  have hs : Sound s := reachable_sound hr
  exact ⟨fun size hlt => hs.malloc_honours_iff hp hlt, fun a _ b _ => hs.calloc_honours_iff hp⟩

theorem sizes_honoured_iff_empty :
    (∀ size < 2 ^ 32, MallocHonours empty_heap.heap size pages_at_1M
        ↔ MallocFits size pages_at_1M)
      ∧ ∀ a < 2 ^ 32, ∀ b < 2 ^ 32, CallocHonours empty_heap.heap a b pages_at_1M
        ↔ CallocFits empty_heap.heap a b pages_at_1M :=
  sizes_honoured_iff (Reachable.init empty_heap_init) palloc_pages_at_1M

/-- A block that is smaller than what was asked for. -/
theorem not_honoured {x : Res (Option ℕ × Heap)} {r : Option ℕ × Heap} {p n k : ℕ}
    (hr : x = .ok r) (hfst : x.map Prod.fst = .ok (some p))
    (hsize : (x >>= fun r => block_size r.2 p) = .ok n) (hlt : n < k) :
    r.1 = some p ∧ ¬ Honoured r.2 p k := by
  rw [hr] at hfst hsize
  refine ⟨Except.ok.inj hfst, ?_⟩
  rintro ⟨m, hm, hle, _⟩
  have hm' : block_size r.2 p = .ok n := hsize
  rw [hm] at hm'
  cases hm'
  omega

/-- `malloc (2 ^ 32 - 1)` returns 4084 bytes, and `calloc (65537, 65537)` far less than the
product. -/
theorem sizes_wrap :
    ¬ (∀ s, Reachable malloc_system Fits s → ∀ pal, Palloc s.heap pal →
        ∀ size < 2 ^ 32, MallocHonours s.heap size pal)
      ∧ ¬ (∀ s, Reachable malloc_system Fits s → ∀ pal, Palloc s.heap pal →
        ∀ a < 2 ^ 32, ∀ b < 2 ^ 32, CallocHonours s.heap a b pal) := by
  have hinit : Reachable malloc_system Fits empty_heap := Reachable.init empty_heap_init
  constructor
  · intro h
    obtain ⟨r, hr, hall⟩ := h _ hinit _ palloc_pages_at_1M (2 ^ 32 - 1) (by norm_num)
    obtain ⟨hp, hno⟩ := @not_honoured _ _ 0x10000c 4084 (2 ^ 32 - 1) hr rfl rfl (by norm_num)
    exact hno (hall _ hp)
  · intro h
    obtain ⟨r, hr, hall⟩ := h _ hinit _ palloc_pages_at_1M 65537 (by norm_num) 65537
      (by norm_num)
    obtain ⟨hp, hno⟩ := @not_honoured _ _ 0x10000c 135156 (65537 * 65537) hr rfl rfl
      (by norm_num)
    exact hno (hall _ hp).1

end Pintos.Threads.Malloc
