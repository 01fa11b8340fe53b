/-
`threads/malloc.c`: blocks cut from pages.

A descriptor stands for a block size and has a list of free blocks; a page that was cut into
blocks of that size begins with an arena header, which counts the free ones. A request that no
descriptor serves gets pages of its own, with a header that counts the pages.

Addresses are natural numbers below `2 ^ 32`, and the sums that can pass `2 ^ 32` are reduced
where the code forms them. Arena headers and the links of the free lists are kept beside the
bytes of memory: that a client which stays within its blocks cannot reach them is part of what
is proved. What `palloc` answers is an argument of each call.
-/
import Pintos.Base

set_option autoImplicit false

namespace Pintos.Threads.Malloc

/-! ## Descriptors -/

/-- Bytes in a page. -/
def PGSIZE : ℕ := 4096

/-- `sizeof (struct arena)`. -/
def ARENA_SIZE : ℕ := 12

/-- A sum or product in `size_t`. -/
def size_t (x : ℕ) : ℕ := x % 2 ^ 32

/-- `DIV_ROUND_UP`, in `size_t`. -/
def DIV_ROUND_UP (x step : ℕ) : ℕ := size_t (x + step - 1) / step

/-- `pg_round_down`. -/
def pg_round_down (va : ℕ) : ℕ := va / PGSIZE * PGSIZE

/-- `pg_ofs`. -/
def pg_ofs (va : ℕ) : ℕ := va % PGSIZE

/-- `struct desc`, but for its free list and its lock. -/
structure Desc where
  block_size : ℕ
  blocks_per_arena : ℕ
  deriving DecidableEq

/-- The loop of `malloc_init`, with `room` places of `descs` left. -/
def malloc_init_loop : ℕ → ℕ → Res (List Desc)
  | 0, block_size => if block_size < PGSIZE / 2 then .error .assertion else .ok []
  | room + 1, block_size =>
    if block_size < PGSIZE / 2 then do
      let ds ← malloc_init_loop room (block_size * 2)
      return ⟨block_size, (PGSIZE - ARENA_SIZE) / block_size⟩ :: ds
    else .ok []

/-- `malloc_init`. -/
def malloc_init : Res (List Desc) := malloc_init_loop 10 16

/-- A place of `descs` below `desc_cnt`. -/
abbrev DescId := Fin 7

/-- `descs`. -/
def descs (d : DescId) : Desc := ⟨16 * 2 ^ d.val, (PGSIZE - ARENA_SIZE) / (16 * 2 ^ d.val)⟩

/-- `malloc_init` fills seven places, within the ten there are. -/
theorem malloc_init_eq : malloc_init = .ok (List.ofFn descs) := by decide

/-- The search of `malloc` for the smallest descriptor that satisfies the request. -/
def find_desc (size : ℕ) : Option DescId :=
  (List.finRange 7).find? (fun d => size ≤ (descs d).block_size)

/-! ## The heap -/

/-- `struct arena`; `magic` is what makes a header be there at all. -/
structure Arena where
  desc : Option DescId
  free_cnt : ℕ
  deriving DecidableEq

/-- The pages obtained and not given back (start and number), the headers, the free lists and
the bytes of memory. -/
structure Heap where
  pages : List (ℕ × ℕ)
  arenas : ℕ → Option Arena
  free_list : DescId → List ℕ
  mem : ℕ → UInt8

/-- Writing a header. -/
def Heap.set_arena (h : Heap) (a : ℕ) (ar : Option Arena) : Heap :=
  { h with arenas := Function.update h.arenas a ar }

/-- Writing a free list. -/
def Heap.set_list (h : Heap) (d : DescId) (l : List ℕ) : Heap :=
  { h with free_list := Function.update h.free_list d l }

/-- `memset`. -/
def memset (mem : ℕ → UInt8) (dst : ℕ) (value : UInt8) (size : ℕ) : ℕ → UInt8 :=
  fun x => if dst ≤ x ∧ x < dst + size then value else mem x

/-- `memcpy`. -/
def memcpy (mem : ℕ → UInt8) (dst src size : ℕ) : ℕ → UInt8 :=
  fun x => if dst ≤ x ∧ x < dst + size then mem (src + (x - dst)) else mem x

/-- `palloc_get_multiple`, which answers `pal`. -/
def palloc_get_multiple (h : Heap) (pal : ℕ → Option ℕ) (page_cnt : ℕ) : Option ℕ × Heap :=
  if page_cnt = 0 then (none, h)
  else match pal page_cnt with
    | none => (none, h)
    | some a => (some a, { h with pages := (a, page_cnt) :: h.pages })

/-- `palloc_free_multiple`: the pages are overwritten, and a header with them. -/
def palloc_free_multiple (h : Heap) (a page_cnt : ℕ) : Res Heap :=
  if (a, page_cnt) ∈ h.pages then
    .ok { h with
      pages := h.pages.erase (a, page_cnt)
      arenas := Function.update h.arenas a none
      mem := memset h.mem a 0xcc (PGSIZE * page_cnt) }
  else .error .assertion

/-- `block_to_arena`: the address of the header and the header. -/
def block_to_arena (h : Heap) (b : ℕ) : Res (ℕ × Arena) :=
  let a := pg_round_down b
  match h.arenas a with
  | none => .error .assertion
  | some ar => do
    ASSERT (∀ d ∈ ar.desc, (pg_ofs b - ARENA_SIZE) % (descs d).block_size = 0)
    ASSERT (ar.desc = none → pg_ofs b = ARENA_SIZE)
    return (a, ar)

/-- `arena_to_block`. -/
def arena_to_block (a : ℕ) (d : DescId) (idx : ℕ) : ℕ :=
  a + ARENA_SIZE + idx * (descs d).block_size

/-- The blocks of an arena, in the order of the two loops over them. -/
def arena_blocks (a : ℕ) (d : DescId) : List ℕ :=
  (List.range (descs d).blocks_per_arena).map (arena_to_block a d)

/-! ## `malloc` and `calloc` -/

/-- The pages of a block that is too big for any descriptor. -/
def big_page_cnt (size : ℕ) : ℕ := DIV_ROUND_UP (size_t (size + ARENA_SIZE)) PGSIZE

/-- "If the free list is empty, create a new arena": `none` when there is no page. -/
def refill (h : Heap) (d : DescId) (pal : ℕ → Option ℕ) : Option Heap :=
  if h.free_list d = [] then
    match palloc_get_multiple h pal 1 with
    | (none, _) => none
    | (some a, h) =>
      let h := h.set_arena a (some ⟨some d, (descs d).blocks_per_arena⟩)
      some (h.set_list d (h.free_list d ++ arena_blocks a d))
  else some h

/-- "Get a block from free list and return it." -/
def take_block (h : Heap) (d : DescId) : Res (ℕ × Heap) :=
  match h.free_list d with
  | [] => .error .assertion
  | b :: rest => do
    let h := h.set_list d rest
    let a ← block_to_arena h b
    return (b, h.set_arena a.1 (some { a.2 with free_cnt := a.2.free_cnt - 1 }))

/-- `malloc`. -/
def malloc (h : Heap) (size : ℕ) (pal : ℕ → Option ℕ) : Res (Option ℕ × Heap) :=
  if size = 0 then .ok (none, h)
  else match find_desc size with
    | none =>
      let page_cnt := big_page_cnt size
      match palloc_get_multiple h pal page_cnt with
      | (none, h) => .ok (none, h)
      | (some a, h) => .ok (some (a + ARENA_SIZE), h.set_arena a (some ⟨none, page_cnt⟩))
    | some d =>
      match refill h d pal with
      | none => .ok (none, h)
      | some h => do
        let r ← take_block h d
        return (some r.1, r.2)

/-- `calloc`. -/
def calloc (h : Heap) (a b : ℕ) (pal : ℕ → Option ℕ) : Res (Option ℕ × Heap) :=
  let size := size_t (a * b)
  if size < a ∨ size < b then .ok (none, h)
  else do
    let r ← malloc h size pal
    match r.1 with
    | none => return r
    | some p => return (some p, { r.2 with mem := memset r.2.mem p 0 size })

/-! ## `free` and `realloc` -/

/-- `block_size`. -/
def block_size (h : Heap) (block : ℕ) : Res ℕ := do
  let a ← block_to_arena h block
  match a.2.desc with
  | some d => return (descs d).block_size
  | none => return PGSIZE * a.2.free_cnt - pg_ofs block

/-- The loop of `free` that takes every block of the arena off the list. -/
def remove_blocks (h : Heap) (d : DescId) : List ℕ → Res Heap
  | [] => .ok h
  | b :: bs =>
    if b ∈ h.free_list d then remove_blocks (h.set_list d ((h.free_list d).erase b)) d bs
    else .error .dangling

/-- `free`. -/
def free (h : Heap) : Option ℕ → Res Heap
  | none => .ok h
  | some b => do
    let a ← block_to_arena h b
    match a.2.desc with
    | some d =>
      let h := { h with mem := memset h.mem b 0xcc (descs d).block_size }
      let h := h.set_list d (b :: h.free_list d)
      let h := h.set_arena a.1 (some { a.2 with free_cnt := a.2.free_cnt + 1 })
      if (descs d).blocks_per_arena ≤ a.2.free_cnt + 1 then do
        ASSERT (a.2.free_cnt + 1 = (descs d).blocks_per_arena)
        let h ← remove_blocks h d (arena_blocks a.1 d)
        palloc_free_multiple h a.1 1
      else return h
    | none => palloc_free_multiple h a.1 a.2.free_cnt

/-- `realloc`. -/
def realloc (h : Heap) (old_block : Option ℕ) (new_size : ℕ) (pal : ℕ → Option ℕ) :
    Res (Option ℕ × Heap) :=
  if new_size = 0 then do
    let h ← free h old_block
    return (none, h)
  else do
    let r ← malloc h new_size pal
    match old_block, r.1 with
    | some old_block, some new_block => do
      let old_size ← block_size r.2 old_block
      let min_size := if new_size < old_size then new_size else old_size
      let h := { r.2 with mem := memcpy r.2.mem new_block old_block min_size }
      let h ← free h (some old_block)
      return (some new_block, h)
    | _, _ => return r

/-! ## Where blocks lie -/

/-- A size class: blocks are at least 16 bytes, there are at least three of them, and they fit
behind the header. -/
theorem desc_fits (d : DescId) :
    16 ≤ (descs d).block_size ∧ 3 ≤ (descs d).blocks_per_arena
      ∧ ARENA_SIZE + (descs d).blocks_per_arena * (descs d).block_size ≤ PGSIZE := by
  revert d
  decide

theorem block_end_le {d : DescId} {k : ℕ} (hk : k < (descs d).blocks_per_arena) :
    ARENA_SIZE + k * (descs d).block_size + (descs d).block_size ≤ PGSIZE := by
  obtain ⟨_, _, hfit⟩ := desc_fits d
  have hmul : (k + 1) * (descs d).block_size
      ≤ (descs d).blocks_per_arena * (descs d).block_size := Nat.mul_le_mul_right _ hk
  rw [Nat.add_mul, Nat.one_mul] at hmul
  omega

/-- An address less than a page above a page boundary is rounded down to it. -/
theorem pg_round_down_add {a o : ℕ} (ha : a % PGSIZE = 0) (ho : o < PGSIZE) :
    pg_round_down (a + o) = a := by
  unfold pg_round_down
  unfold PGSIZE at *
  omega

theorem pg_ofs_add {a o : ℕ} (ha : a % PGSIZE = 0) (ho : o < PGSIZE) : pg_ofs (a + o) = o := by
  unfold pg_ofs
  unfold PGSIZE at *
  omega

/-- Every block of an arena is in its page. -/
theorem pg_round_down_block {a k : ℕ} {d : DescId} (ha : a % PGSIZE = 0)
    (hk : k < (descs d).blocks_per_arena) : pg_round_down (arena_to_block a d k) = a := by
  obtain ⟨hsize, _, _⟩ := desc_fits d
  have hend := block_end_le hk
  rw [arena_to_block, Nat.add_assoc]
  exact pg_round_down_add ha (by omega)

theorem pg_ofs_block {a k : ℕ} {d : DescId} (ha : a % PGSIZE = 0)
    (hk : k < (descs d).blocks_per_arena) :
    pg_ofs (arena_to_block a d k) = ARENA_SIZE + k * (descs d).block_size := by
  obtain ⟨hsize, _, _⟩ := desc_fits d
  have hend := block_end_le hk
  rw [arena_to_block, Nat.add_assoc]
  exact pg_ofs_add ha (by omega)

/-- Blocks of one arena have different places. -/
theorem arena_to_block_inj {a j k : ℕ} {d : DescId}
    (h : arena_to_block a d j = arena_to_block a d k) : j = k := by
  obtain ⟨hsize, _, _⟩ := desc_fits d
  have hmul : j * (descs d).block_size = k * (descs d).block_size := by
    simp only [arena_to_block] at h
    omega
  exact Nat.eq_of_mul_eq_mul_right (by omega) hmul

theorem mem_arena_blocks {a b : ℕ} {d : DescId} :
    b ∈ arena_blocks a d ↔ ∃ k, k < (descs d).blocks_per_arena ∧ b = arena_to_block a d k := by
  simp only [arena_blocks, List.mem_map, List.mem_range]
  constructor
  · rintro ⟨k, hk, rfl⟩
    exact ⟨k, hk, rfl⟩
  · rintro ⟨k, hk, rfl⟩
    exact ⟨k, hk, rfl⟩

theorem nodup_arena_blocks (a : ℕ) (d : DescId) : (arena_blocks a d).Nodup :=
  List.Nodup.map (fun _ _ h => arena_to_block_inj h) List.nodup_range

/-- The descriptor that is found is big enough. -/
theorem find_desc_le {size : ℕ} {d : DescId} (h : find_desc size = some d) :
    size ≤ (descs d).block_size := by
  have hp := List.find?_some h
  simpa using hp

/-! ## The invariant -/

/-- The heap, and the blocks that were returned and not freed. -/
structure State where
  heap : Heap
  live : List ℕ

/-- A page range ends before another one begins. -/
def Apart (r q : ℕ × ℕ) : Prop := r.1 + PGSIZE * r.2 ≤ q.1 ∨ q.1 + PGSIZE * q.2 ≤ r.1

/-- The blocks of an arena on the free list. -/
def free_in (l : List ℕ) (a : ℕ) : List ℕ := l.filter (fun b => pg_round_down b = a)

/-- The page ranges and their headers. -/
structure Ranges (h : Heap) : Prop where
  /-- Page ranges are aligned, are not empty and lie in memory. -/
  pages : ∀ r ∈ h.pages, r.1 % PGSIZE = 0 ∧ r.1 ≠ 0 ∧ 0 < r.2 ∧ r.1 + PGSIZE * r.2 ≤ 2 ^ 32
  /-- No page is in two ranges. -/
  apart : h.pages.Pairwise Apart
  /-- A range begins with a header. -/
  header : ∀ r ∈ h.pages, ∃ ar, h.arenas r.1 = some ar
    ∧ r.2 = (if ar.desc = none then ar.free_cnt else 1)
  /-- A header is in a range that was obtained. -/
  held : ∀ a ar, h.arenas a = some ar → ∃ cnt, (a, cnt) ∈ h.pages

/-- **The heap invariant**, but for the arenas that are about to be given back. -/
structure Inv (s : State) : Prop where
  ranges : Ranges s.heap
  /-- What is on a free list is a block of an arena of that size. -/
  listed : ∀ d, ∀ b ∈ s.heap.free_list d, ∃ a cnt, s.heap.arenas a = some ⟨some d, cnt⟩
    ∧ b ∈ arena_blocks a d
  /-- No block is on a free list twice. -/
  nodup : ∀ d, (s.heap.free_list d).Nodup
  /-- A header counts the blocks of its arena on the free list. -/
  count : ∀ a d cnt, s.heap.arenas a = some ⟨some d, cnt⟩ →
    cnt = (free_in (s.heap.free_list d) a).length
  /-- The blocks of an arena that are not on the free list are those in use. -/
  small : ∀ a d cnt, s.heap.arenas a = some ⟨some d, cnt⟩ →
    ∀ b ∈ arena_blocks a d, b ∈ s.live ↔ b ∉ s.heap.free_list d
  /-- The block behind the header of a big block is in use. -/
  big : ∀ a cnt, s.heap.arenas a = some ⟨none, cnt⟩ → a + ARENA_SIZE ∈ s.live
  /-- A block in use is a big one or is one of an arena. -/
  live : ∀ p ∈ s.live, ∃ a ar, s.heap.arenas a = some ar
    ∧ ((ar.desc = none ∧ p = a + ARENA_SIZE) ∨ ∃ d, ar.desc = some d ∧ p ∈ arena_blocks a d)
  /-- No block is in use twice. -/
  distinct : s.live.Nodup

/-- Every arena but `x` has a block in use. -/
def Busy (s : State) (x : Option ℕ) : Prop :=
  ∀ a d cnt, s.heap.arenas a = some ⟨some d, cnt⟩ → x ≠ some a →
    cnt < (descs d).blocks_per_arena

variable {s : State}

theorem Ranges.aligned {h : Heap} (hr : Ranges h) {a : ℕ} {ar : Arena}
    (ha : h.arenas a = some ar) : a % PGSIZE = 0 := by
  obtain ⟨cnt, hmem⟩ := hr.held a ar ha
  exact (hr.pages _ hmem).1

/-- The arena of a block is found from its address. -/
theorem Inv.page_of_block (h : Inv s) {a b : ℕ} {d : DescId} {cnt : ℕ}
    (ha : s.heap.arenas a = some ⟨some d, cnt⟩) (hb : b ∈ arena_blocks a d) :
    pg_round_down b = a := by
  obtain ⟨k, hk, rfl⟩ := mem_arena_blocks.mp hb
  exact pg_round_down_block (h.ranges.aligned ha) hk

/-- A block is on the free list of one size only. -/
theorem Inv.listed_once (h : Inv s) {d e : DescId} {b : ℕ} (hd : b ∈ s.heap.free_list d)
    (he : b ∈ s.heap.free_list e) : d = e := by
  obtain ⟨a, cnt, ha, hba⟩ := h.listed d b hd
  obtain ⟨a', cnt', ha', hba'⟩ := h.listed e b he
  rw [← h.page_of_block ha hba] at ha
  rw [← h.page_of_block ha' hba', ha] at ha'
  simp only [Option.some.injEq, Arena.mk.injEq] at ha'
  exact ha'.1

/-- `block_to_arena` on a block of an arena. -/
theorem block_to_arena_small {h : Heap} {a b : ℕ} {d : DescId} {cnt : ℕ} (hal : a % PGSIZE = 0)
    (ha : h.arenas a = some ⟨some d, cnt⟩) (hb : b ∈ arena_blocks a d) :
    block_to_arena h b = .ok (a, ⟨some d, cnt⟩) := by
  obtain ⟨k, hk, rfl⟩ := mem_arena_blocks.mp hb
  have hofs := pg_ofs_block hal hk
  have hmod : (pg_ofs (arena_to_block a d k) - ARENA_SIZE) % (descs d).block_size = 0 := by
    rw [hofs, Nat.add_sub_cancel_left, Nat.mul_mod_left]
  simp only [block_to_arena, pg_round_down_block hal hk, ha]
  rw [ASSERT_pos (by simpa using hmod), ASSERT_pos (by simp)]
  rfl

/-- `block_to_arena` on a big block. -/
theorem block_to_arena_big {h : Heap} {a cnt : ℕ} (hal : a % PGSIZE = 0)
    (ha : h.arenas a = some ⟨none, cnt⟩) :
    block_to_arena h (a + ARENA_SIZE) = .ok (a, ⟨none, cnt⟩) := by
  have hlt : ARENA_SIZE < PGSIZE := by decide
  simp only [block_to_arena, pg_round_down_add hal hlt, ha]
  rw [ASSERT_pos (by simp), ASSERT_pos (fun _ => pg_ofs_add hal hlt)]
  rfl

/-! ## Page ranges come and go -/

instance : Std.Symm Apart := ⟨fun _ _ h => Or.symm h⟩

/-- Two nonempty ranges that are apart begin at different pages. -/
theorem Apart.start_ne {r q : ℕ × ℕ} (h : Apart r q) (hr : 0 < r.2) (hq : 0 < q.2) :
    r.1 ≠ q.1 := by
  unfold Apart PGSIZE at h
  omega

/-- `palloc` answers with pages that nobody has. -/
def Fresh (h : Heap) (a cnt : ℕ) : Prop :=
  a % PGSIZE = 0 ∧ a ≠ 0 ∧ a + PGSIZE * cnt ≤ 2 ^ 32 ∧ ∀ r ∈ h.pages, Apart (a, cnt) r

/-- What is relied on in `palloc`: every answer to a request is a fresh range of that many
pages. -/
def Palloc (h : Heap) (pal : ℕ → Option ℕ) : Prop :=
  ∀ cnt a, 0 < cnt → pal cnt = some a → Fresh h a cnt

section

variable {h h' : Heap} {a cnt : ℕ}

theorem Ranges.of_eq (hr : Ranges h) (hp : h'.pages = h.pages) (ha : h'.arenas = h.arenas) :
    Ranges h' :=
  ⟨by rw [hp]; exact hr.pages, by rw [hp]; exact hr.apart, by rw [hp, ha]; exact hr.header,
    by rw [hp, ha]; exact hr.held⟩

/-- There is no header in a fresh page. -/
theorem Ranges.fresh_none (hr : Ranges h) (hf : Fresh h a cnt) (hc : 0 < cnt) :
    h.arenas a = none := by
  by_contra hne
  obtain ⟨ar, har⟩ := Option.ne_none_iff_exists'.mp hne
  obtain ⟨c, hmem⟩ := hr.held a ar har
  exact (hf.2.2.2 _ hmem).start_ne hc (hr.pages _ hmem).2.2.1 rfl

/-- A fresh range with its header. -/
theorem Ranges.add (hr : Ranges h) (hf : Fresh h a cnt) (hc : 0 < cnt) {ar : Arena}
    (har : cnt = if ar.desc = none then ar.free_cnt else 1) :
    Ranges ({ h with pages := (a, cnt) :: h.pages }.set_arena a (some ar)) where
  pages := by
    intro r hmem
    rcases List.mem_cons.mp hmem with rfl | hold
    · exact ⟨hf.1, hf.2.1, hc, hf.2.2.1⟩
    · exact hr.pages r hold
  apart := List.pairwise_cons.mpr ⟨hf.2.2.2, hr.apart⟩
  header := by
    intro r hmem
    rcases List.mem_cons.mp hmem with rfl | hold
    · exact ⟨ar, Function.update_self .., har⟩
    · have hne : r.1 ≠ a := ((hf.2.2.2 r hold).start_ne hc (hr.pages r hold).2.2.1).symm
      obtain ⟨ar', har', hcnt⟩ := hr.header r hold
      exact ⟨ar', (Function.update_of_ne hne ..).trans har', hcnt⟩
  held := by
    intro b ar' hb
    by_cases hba : b = a
    · exact ⟨cnt, by rw [hba]; exact List.mem_cons_self⟩
    · obtain ⟨c, hmem⟩ := hr.held b ar' ((Function.update_of_ne hba ..).symm.trans hb)
      exact ⟨c, List.mem_cons_of_mem _ hmem⟩

/-- Counting anew in the header of a small arena. -/
theorem Ranges.recount (hr : Ranges h) {d : DescId} {c c' : ℕ}
    (ha : h.arenas a = some ⟨some d, c⟩) : Ranges (h.set_arena a (some ⟨some d, c'⟩)) where
  pages := hr.pages
  apart := hr.apart
  header := by
    intro r hmem
    obtain ⟨ar, har, hcnt⟩ := hr.header r hmem
    by_cases hra : r.1 = a
    · rw [hra, ha, Option.some.injEq] at har
      rw [← har] at hcnt
      exact ⟨⟨some d, c'⟩, by rw [hra]; exact Function.update_self .., hcnt⟩
    · exact ⟨ar, (Function.update_of_ne hra ..).trans har, hcnt⟩
  held := by
    intro b ar hb
    by_cases hba : b = a
    · rw [hba]
      exact hr.held a _ ha
    · exact hr.held b ar ((Function.update_of_ne hba ..).symm.trans hb)

/-- Ranges that begin at the same page are one. -/
theorem Ranges.eq_of_start (hr : Ranges h) {r q : ℕ × ℕ} (hmr : r ∈ h.pages)
    (hmq : q ∈ h.pages) (hs : r.1 = q.1) : r = q := by
  by_contra hne
  have hap : Apart r q := hr.apart.forall hmr hmq hne
  exact hap.start_ne (hr.pages r hmr).2.2.1 (hr.pages q hmq).2.2.1 hs

theorem Ranges.nodup (hr : Ranges h) : h.pages.Nodup := by
  apply hr.apart.imp_of_mem
  intro r q hmr hmq hap heq
  exact hap.start_ne (hr.pages r hmr).2.2.1 (hr.pages q hmq).2.2.1 (congrArg Prod.fst heq)

/-- Giving a range back. -/
theorem Ranges.drop (hr : Ranges h) (hmem : (a, cnt) ∈ h.pages) :
    ∃ h', palloc_free_multiple h a cnt = .ok h' ∧ Ranges h'
      ∧ h'.arenas = Function.update h.arenas a none ∧ h'.free_list = h.free_list
      ∧ h'.pages = h.pages.erase (a, cnt)
      ∧ h'.mem = memset h.mem a 0xcc (PGSIZE * cnt) := by
  refine ⟨{ h with
      pages := h.pages.erase (a, cnt)
      arenas := Function.update h.arenas a none
      mem := memset h.mem a 0xcc (PGSIZE * cnt) },
    by rw [palloc_free_multiple, if_pos hmem], ⟨?_, ?_, ?_, ?_⟩, rfl, rfl, rfl, rfl⟩
  · intro r hmr
    exact hr.pages r (List.mem_of_mem_erase hmr)
  · exact hr.apart.sublist List.erase_sublist
  · intro r hmr
    obtain ⟨hne, hold⟩ := (hr.nodup.mem_erase_iff).mp hmr
    have hra : r.1 ≠ a := fun heq => hne (hr.eq_of_start hold hmem heq)
    obtain ⟨ar, har, hcnt⟩ := hr.header r hold
    exact ⟨ar, (Function.update_of_ne hra ..).trans har, hcnt⟩
  · intro b ar hb
    have hba : b ≠ a := by
      rintro rfl
      have hself : Function.update h.arenas b none b = some ar := hb
      rw [Function.update_self] at hself
      cases hself
    obtain ⟨c, hold⟩ := hr.held b ar ((Function.update_of_ne hba ..).symm.trans hb)
    refine ⟨c, (hr.nodup.mem_erase_iff).mpr ⟨?_, hold⟩⟩
    exact fun heq => hba (congrArg Prod.fst heq)

end

/-! ## Blocks move between the free lists and the clients -/

section

variable {a cnt : ℕ} {d : DescId}

/-- A block in use lies in a page that begins with a header. -/
theorem Inv.arena_of_live (h : Inv s) {p : ℕ} (hp : p ∈ s.live) :
    ∃ ar, s.heap.arenas (pg_round_down p) = some ar := by
  obtain ⟨a, ar, ha, ⟨_, rfl⟩ | ⟨d, hd, hb⟩⟩ := h.live p hp
  · rw [pg_round_down_add (h.ranges.aligned ha) (by decide)]
    exact ⟨ar, ha⟩
  · obtain ⟨desc, c⟩ := ar
    dsimp only at hd
    rw [hd] at ha
    rw [h.page_of_block ha hb]
    exact ⟨_, ha⟩

/-- A header counts no more blocks than there are. -/
theorem Inv.count_le (h : Inv s) (ha : s.heap.arenas a = some ⟨some d, cnt⟩) :
    free_in (s.heap.free_list d) a ⊆ arena_blocks a d
      ∧ cnt ≤ (descs d).blocks_per_arena := by
  have hsub : free_in (s.heap.free_list d) a ⊆ arena_blocks a d := by
    intro b hb
    obtain ⟨hlist, hpage⟩ := List.mem_filter.mp hb
    obtain ⟨a', cnt', ha', hba'⟩ := h.listed d b hlist
    have heq : a' = a := by
      rw [← h.page_of_block ha' hba']
      simpa using hpage
    rw [← heq]
    exact hba'
  refine ⟨hsub, ?_⟩
  have hlen := ((h.nodup d).filter _).length_le_of_subset hsub
  rw [h.count a d cnt ha]
  simpa [free_in, arena_blocks] using hlen

/-- **A big block.** Fresh pages with a header that counts them, and the block behind it. -/
theorem Inv.add_big (h : Inv s) (hf : Fresh s.heap a cnt) (hc : 0 < cnt) :
    Inv ⟨{ s.heap with pages := (a, cnt) :: s.heap.pages }.set_arena a (some ⟨none, cnt⟩),
      (a + ARENA_SIZE) :: s.live⟩ := by
  have hnone := h.ranges.fresh_none hf hc
  have hpage : pg_round_down (a + ARENA_SIZE) = a := pg_round_down_add hf.1 (by decide)
  -- every header but the new one is an old one
  have hold : ∀ x ar, x ≠ a → (Function.update s.heap.arenas a (some ⟨none, cnt⟩) x = some ar
      ↔ s.heap.arenas x = some ar) := by
    intro x ar hne
    rw [Function.update_of_ne hne]
  have hkeep : ∀ x ar, s.heap.arenas x = some ar → x ≠ a := by
    rintro x ar hx rfl
    rw [hnone] at hx
    cases hx
  have hsmall : ∀ x e c, Function.update s.heap.arenas a (some ⟨none, cnt⟩) x = some ⟨some e, c⟩ →
      x ≠ a := by
    rintro x e c hx rfl
    rw [Function.update_self] at hx
    cases hx
  constructor
  · exact h.ranges.add hf hc (by simp)
  · intro e b hb
    obtain ⟨x, c, hx, hbx⟩ := h.listed e b hb
    exact ⟨x, c, (hold x _ (hkeep x _ hx)).mpr hx, hbx⟩
  · exact h.nodup
  · intro x e c hx
    exact h.count x e c ((hold x _ (hsmall x e c hx)).mp hx)
  · intro x e c hx b hb
    have hxa := hsmall x e c hx
    have hx' := (hold x _ hxa).mp hx
    have hne : b ≠ a + ARENA_SIZE := by
      rintro rfl
      exact hxa ((h.page_of_block hx' hb).symm.trans hpage)
    rw [List.mem_cons, or_iff_right hne]
    exact h.small x e c hx' b hb
  · intro x c hx
    by_cases hxa : x = a
    · rw [hxa]
      exact List.mem_cons_self
    · exact List.mem_cons_of_mem _ (h.big x c ((hold x _ hxa).mp hx))
  · intro p hp
    rcases List.mem_cons.mp hp with rfl | hp
    · exact ⟨a, _, Function.update_self .., Or.inl ⟨rfl, rfl⟩⟩
    · obtain ⟨x, ar, hx, hcase⟩ := h.live p hp
      exact ⟨x, ar, (hold x _ (hkeep x _ hx)).mpr hx, hcase⟩
  · refine List.nodup_cons.mpr ⟨fun hmem => ?_, h.distinct⟩
    obtain ⟨ar, har⟩ := h.arena_of_live hmem
    rw [hpage, hnone] at har
    cases har

/-- **A new arena.** All of its blocks are on the free list, which was empty. -/
theorem Inv.add_small (h : Inv s) (hf : Fresh s.heap a 1) (hempty : s.heap.free_list d = []) :
    Inv ⟨({ s.heap with pages := (a, 1) :: s.heap.pages }.set_arena a
      (some ⟨some d, (descs d).blocks_per_arena⟩)).set_list d (arena_blocks a d), s.live⟩ := by
  have hnone := h.ranges.fresh_none hf Nat.one_pos
  have hpage : ∀ b ∈ arena_blocks a d, pg_round_down b = a := by
    intro b hb
    obtain ⟨k, hk, rfl⟩ := mem_arena_blocks.mp hb
    exact pg_round_down_block hf.1 hk
  have hlist : ∀ e, e ≠ d → Function.update s.heap.free_list d (arena_blocks a d) e
      = s.heap.free_list e := fun e hne => Function.update_of_ne hne ..
  have hkeep : ∀ x ar, s.heap.arenas x = some ar → x ≠ a := by
    rintro x ar hx rfl
    rw [hnone] at hx
    cases hx
  have hnew : ∀ x, x ≠ a → Function.update s.heap.arenas a
      (some ⟨some d, (descs d).blocks_per_arena⟩) x = s.heap.arenas x :=
    fun x hne => Function.update_of_ne hne ..
  -- the new header, or an old one of another page
  have hcase : ∀ x ar, Function.update s.heap.arenas a
      (some ⟨some d, (descs d).blocks_per_arena⟩) x = some ar →
      (x = a ∧ ar = ⟨some d, (descs d).blocks_per_arena⟩)
        ∨ (x ≠ a ∧ s.heap.arenas x = some ar) := by
    intro x ar hx
    by_cases hxa : x = a
    · rw [hxa, Function.update_self, Option.some.injEq] at hx
      exact Or.inl ⟨hxa, hx.symm⟩
    · rw [hnew x hxa] at hx
      exact Or.inr ⟨hxa, hx⟩
  constructor
  · have hadd := @Ranges.add _ _ _ h.ranges hf Nat.one_pos
      ⟨some d, (descs d).blocks_per_arena⟩ rfl
    exact hadd.of_eq rfl rfl
  · intro e b hb
    by_cases hed : e = d
    · rw [hed] at hb ⊢
      have hb' : b ∈ Function.update s.heap.free_list d (arena_blocks a d) d := hb
      rw [Function.update_self] at hb'
      exact ⟨a, _, Function.update_self .., hb'⟩
    · have hb' : b ∈ Function.update s.heap.free_list d (arena_blocks a d) e := hb
      rw [hlist e hed] at hb'
      obtain ⟨x, c, hx, hbx⟩ := h.listed e b hb'
      exact ⟨x, c, (hnew x (hkeep x _ hx)).trans hx, hbx⟩
  · intro e
    show (Function.update s.heap.free_list d (arena_blocks a d) e).Nodup
    by_cases hed : e = d
    · rw [hed, Function.update_self]
      exact nodup_arena_blocks a d
    · rw [hlist e hed]
      exact h.nodup e
  · intro x e c hx
    show c = (free_in (Function.update s.heap.free_list d (arena_blocks a d) e) x).length
    rcases hcase x _ hx with ⟨rfl, heq⟩ | ⟨hxa, hx'⟩
    · simp only [Arena.mk.injEq, Option.some.injEq] at heq
      obtain ⟨rfl, rfl⟩ := heq
      have hall : free_in (arena_blocks x e) x = arena_blocks x e := by
        apply List.filter_eq_self.mpr
        intro b hb
        simpa using hpage b hb
      rw [Function.update_self, hall]
      simp [arena_blocks]
    · have hc := h.count x e c hx'
      by_cases hed : e = d
      · have hnil : free_in (arena_blocks a d) x = [] := by
          apply List.filter_eq_nil_iff.mpr
          intro b hb
          rw [hpage b hb]
          simpa using fun heq => hxa heq.symm
        rw [hed] at hc ⊢
        rw [Function.update_self, hnil, hc, hempty]
        rfl
      · rw [hlist e hed]
        exact hc
  · intro x e c hx b hb
    show b ∈ s.live ↔ b ∉ Function.update s.heap.free_list d (arena_blocks a d) e
    rcases hcase x _ hx with ⟨rfl, heq⟩ | ⟨hxa, hx'⟩
    · simp only [Arena.mk.injEq, Option.some.injEq] at heq
      obtain ⟨rfl, rfl⟩ := heq
      rw [Function.update_self]
      refine ⟨fun hlive => ?_, fun hno => absurd hb hno⟩
      obtain ⟨ar, har⟩ := h.arena_of_live hlive
      rw [hpage b hb, hnone] at har
      cases har
    · have hsm := h.small x e c hx' b hb
      by_cases hed : e = d
      · rw [hed] at hsm hb hx' ⊢
        rw [Function.update_self, hsm, hempty]
        have hbx : b ∉ arena_blocks a d := fun hba =>
          hxa ((h.page_of_block hx' hb).symm.trans (hpage b hba))
        exact iff_of_true List.not_mem_nil hbx
      · rw [hlist e hed]
        exact hsm
  · intro x c hx
    rcases hcase x _ hx with ⟨_, heq⟩ | ⟨_, hx'⟩
    · cases heq
    · exact h.big x c hx'
  · intro p hp
    obtain ⟨x, ar, hx, hshape⟩ := h.live p hp
    exact ⟨x, ar, (hnew x (hkeep x _ hx)).trans hx, hshape⟩
  · exact h.distinct

/-- What `take_block` and `free` share: block `b` of arena `a` changes sides, and the header
counts anew. -/
theorem Inv.move (h : Inv s) (ha : s.heap.arenas a = some ⟨some d, cnt⟩) {b cnt' : ℕ}
    (hb : b ∈ arena_blocks a d) {h' : Heap} {l' live' : List ℕ}
    (hpages : h'.pages = s.heap.pages)
    (harenas : h'.arenas = Function.update s.heap.arenas a (some ⟨some d, cnt'⟩))
    (hlists : h'.free_list = Function.update s.heap.free_list d l')
    (hnd : l'.Nodup) (hl : ∀ x, x ≠ b → (x ∈ l' ↔ x ∈ s.heap.free_list d))
    (hcnt : cnt' = (free_in l' a).length)
    (hother : ∀ x, x ≠ a → (free_in l' x).length = (free_in (s.heap.free_list d) x).length)
    (hdistinct : live'.Nodup) (hlive : ∀ x, x ≠ b → (x ∈ live' ↔ x ∈ s.live))
    (hside : b ∈ live' ↔ b ∉ l') : Inv ⟨h', live'⟩ := by
  -- the other headers stay, and so do the other lists
  have hcase : ∀ x ar, h'.arenas x = some ar → (x = a ∧ ar = ⟨some d, cnt'⟩)
      ∨ (x ≠ a ∧ s.heap.arenas x = some ar) := by
    intro x ar hx
    rw [harenas] at hx
    by_cases hxa : x = a
    · rw [hxa, Function.update_self, Option.some.injEq] at hx
      exact Or.inl ⟨hxa, hx.symm⟩
    · rw [Function.update_of_ne hxa] at hx
      exact Or.inr ⟨hxa, hx⟩
  have hdesc : ∀ x e c, s.heap.arenas x = some ⟨e, c⟩ → ∃ c', h'.arenas x = some ⟨e, c'⟩ := by
    intro x e c hx
    rw [harenas]
    by_cases hxa : x = a
    · rw [hxa, ha] at hx
      simp only [Option.some.injEq, Arena.mk.injEq] at hx
      exact ⟨cnt', by rw [hxa, Function.update_self, hx.1]⟩
    · exact ⟨c, by rw [Function.update_of_ne hxa, hx]⟩
  have hself : h'.free_list d = l' := by rw [hlists, Function.update_self]
  have hlist : ∀ e, e ≠ d → h'.free_list e = s.heap.free_list e := by
    intro e hne
    rw [hlists, Function.update_of_ne hne]
  have hmem : ∀ e x, x ≠ b → (x ∈ h'.free_list e ↔ x ∈ s.heap.free_list e) := by
    intro e x hxb
    by_cases hed : e = d
    · rw [hed, hself]
      exact hl x hxb
    · rw [hlist e hed]
  constructor
  · have hre : Ranges (s.heap.set_arena a (some ⟨some d, cnt'⟩)) := h.ranges.recount ha
    exact hre.of_eq hpages harenas
  · intro e x hx
    by_cases hxb : x = b
    · -- `b` can be on no list but that of its own size
      have hed : e = d := by
        by_contra hne
        rw [hxb] at hx
        have hx' : b ∈ s.heap.free_list e := by rwa [hlist e hne] at hx
        obtain ⟨y, c, hy, hby⟩ := h.listed e b hx'
        rw [← h.page_of_block hy hby, h.page_of_block ha hb, ha] at hy
        simp only [Option.some.injEq, Arena.mk.injEq] at hy
        exact hne hy.1.symm
      obtain ⟨c, hc⟩ := hdesc a (some d) cnt ha
      rw [hed, hxb]
      exact ⟨a, c, hc, hb⟩
    · obtain ⟨y, c, hy, hxy⟩ := h.listed e x ((hmem e x hxb).mp hx)
      obtain ⟨c', hc'⟩ := hdesc y (some e) c hy
      exact ⟨y, c', hc', hxy⟩
  · intro e
    by_cases hed : e = d
    · rw [hed]
      show (h'.free_list d).Nodup
      rw [hself]
      exact hnd
    · show (h'.free_list e).Nodup
      rw [hlist e hed]
      exact h.nodup e
  · intro x e c hx
    show c = (free_in (h'.free_list e) x).length
    rcases hcase x _ hx with ⟨rfl, heq⟩ | ⟨hxa, hx'⟩
    · simp only [Arena.mk.injEq, Option.some.injEq] at heq
      obtain ⟨rfl, rfl⟩ := heq
      rw [hself]
      exact hcnt
    · rw [h.count x e c hx']
      by_cases hed : e = d
      · rw [hed, hself]
        exact (hother x hxa).symm
      · rw [hlist e hed]
  · intro x e c hx y hy
    show y ∈ live' ↔ y ∉ h'.free_list e
    obtain ⟨c₀, hx₀⟩ : ∃ c₀, s.heap.arenas x = some ⟨some e, c₀⟩ := by
      rcases hcase x _ hx with ⟨rfl, heq⟩ | ⟨_, hx'⟩
      · simp only [Arena.mk.injEq] at heq
        exact ⟨cnt, by rw [ha, heq.1]⟩
      · exact ⟨c, hx'⟩
    by_cases hyb : y = b
    · have hxa : x = a := by
        rw [← h.page_of_block hx₀ hy, hyb]
        exact h.page_of_block ha hb
      have hed : e = d := by
        rw [hxa, ha] at hx₀
        simp only [Option.some.injEq, Arena.mk.injEq] at hx₀
        exact hx₀.1.symm
      rw [hyb, hed, hself]
      exact hside
    · rw [hlive y hyb, hmem e y hyb]
      exact h.small x e c₀ hx₀ y hy
  · intro x c hx
    rcases hcase x _ hx with ⟨_, heq⟩ | ⟨hxa, hx'⟩
    · cases heq
    · have hne : x + ARENA_SIZE ≠ b := by
        rintro heq
        apply hxa
        rw [← h.page_of_block ha hb, ← heq]
        exact (pg_round_down_add (h.ranges.aligned hx') (by decide)).symm
      exact (hlive _ hne).mpr (h.big x c hx')
  · intro p hp
    by_cases hpb : p = b
    · obtain ⟨c, hc⟩ := hdesc a (some d) cnt ha
      exact ⟨a, _, hc, Or.inr ⟨d, rfl, by rw [hpb]; exact hb⟩⟩
    · obtain ⟨x, ar, hx, hshape⟩ := h.live p ((hlive p hpb).mp hp)
      obtain ⟨c', hc'⟩ := hdesc x ar.desc ar.free_cnt hx
      exact ⟨x, _, hc', hshape⟩
  · exact hdistinct

/-- The headers stay where they are, for the same size; those of big blocks stay as they are. -/
def KeepsHeaders (h h' : Heap) : Prop :=
  ∀ x ar, h.arenas x = some ar →
    ∃ ar', h'.arenas x = some ar' ∧ ar'.desc = ar.desc ∧ (ar.desc = none → ar' = ar)

theorem keeps_recount {h h' : Heap} {c : ℕ} (ha : h.arenas a = some ⟨some d, cnt⟩)
    (ha' : h'.arenas = Function.update h.arenas a (some ⟨some d, c⟩)) : KeepsHeaders h h' := by
  intro x ar hx
  rw [ha']
  by_cases hxa : x = a
  · rw [hxa, ha, Option.some.injEq] at hx
    rw [hxa, ← hx]
    exact ⟨_, Function.update_self .., rfl, fun h => (by cases h)⟩
  · exact ⟨ar, (Function.update_of_ne hxa ..).trans hx, rfl, fun _ => rfl⟩

theorem keeps_new {h h' : Heap} (hnone : h.arenas a = none)
    (ha : ∀ x, x ≠ a → h'.arenas x = h.arenas x) : KeepsHeaders h h' := by
  intro x ar hx
  have hxa : x ≠ a := by
    rintro rfl
    rw [hnone] at hx
    cases hx
  exact ⟨ar, (ha x hxa).trans hx, rfl, fun _ => rfl⟩

theorem KeepsHeaders.trans {h h' h'' : Heap} (h₁ : KeepsHeaders h h')
    (h₂ : KeepsHeaders h' h'') : KeepsHeaders h h'' := by
  intro x ar hx
  obtain ⟨ar', hx', hd, hn⟩ := h₁ x ar hx
  obtain ⟨ar'', hx'', hd', hn'⟩ := h₂ x ar' hx'
  exact ⟨ar'', hx'', hd'.trans hd, fun h0 => (hn' (hd.trans h0)).trans (hn h0)⟩

/-- Counting one block less, or one more, concerns its own arena only. -/
theorem free_in_cons_self {l : List ℕ} {b : ℕ} :
    free_in (b :: l) (pg_round_down b) = b :: free_in l (pg_round_down b) := by
  simp [free_in]

theorem free_in_cons_of_ne {l : List ℕ} {b x : ℕ} (hx : x ≠ pg_round_down b) :
    free_in (b :: l) x = free_in l x := by
  have hne : ¬ pg_round_down b = x := fun heq => hx heq.symm
  simp [free_in, hne]

/-- **`take_block`.** The first block of the list goes to the client. -/
theorem Inv.take_block (h : Inv s) {b : ℕ} {rest : List ℕ}
    (hl : s.heap.free_list d = b :: rest) :
    ∃ h' c, Malloc.take_block s.heap d = .ok (b, h') ∧ Inv ⟨h', b :: s.live⟩
      ∧ h'.mem = s.heap.mem ∧ b ∈ arena_blocks (pg_round_down b) d
      ∧ c < (descs d).blocks_per_arena
      ∧ h'.arenas = Function.update s.heap.arenas (pg_round_down b) (some ⟨some d, c⟩)
      ∧ KeepsHeaders s.heap h' := by
  have hmem : b ∈ s.heap.free_list d := by
    rw [hl]
    exact List.mem_cons_self
  obtain ⟨a, cnt, ha, hba⟩ := h.listed d b hmem
  have hpage := h.page_of_block ha hba
  have hnd := h.nodup d
  rw [hl] at hnd
  obtain ⟨hnotin, hnd'⟩ := List.nodup_cons.mp hnd
  have hcount := h.count a d cnt ha
  rw [hl, ← hpage, free_in_cons_self, List.length_cons] at hcount
  have hle := (h.count_le ha).2
  have hb2a : block_to_arena (s.heap.set_list d rest) b = .ok (a, ⟨some d, cnt⟩) :=
    block_to_arena_small (h.ranges.aligned ha) ha hba
  refine ⟨(s.heap.set_list d rest).set_arena a (some ⟨some d, cnt - 1⟩), cnt - 1, ?_, ?_, rfl,
    by rw [hpage]; exact hba, by omega, by rw [hpage]; rfl, keeps_recount ha rfl⟩
  · simp only [Malloc.take_block, hl, hb2a]
    rfl
  · refine h.move ha hba rfl rfl rfl hnd' ?_ ?_ ?_ ?_ ?_ ?_
    · intro x hx
      rw [hl, List.mem_cons, or_iff_right hx]
    · rw [← hpage]
      omega
    · intro x hx
      rw [hl, free_in_cons_of_ne (by rw [hpage]; exact hx)]
    · refine List.nodup_cons.mpr ⟨?_, h.distinct⟩
      rw [h.small a d cnt ha b hba]
      exact fun hno => hno hmem
    · intro x hx
      rw [List.mem_cons, or_iff_right hx]
    · exact iff_of_true List.mem_cons_self hnotin

/-! ## `malloc` -/

/-- There is no memory for the request: no free block of the size and no page to cut, or no
pages for a big block. -/
def Refused (h : Heap) (size : ℕ) (pal : ℕ → Option ℕ) : Prop :=
  size = 0 ∨ match find_desc size with
    | some d => h.free_list d = [] ∧ pal 1 = none
    | none => big_page_cnt size = 0 ∨ pal (big_page_cnt size) = none

/-- The bytes behind the address that `malloc` returns. -/
def granted_size (size : ℕ) : ℕ :=
  match find_desc size with
  | some d => (descs d).block_size
  | none => PGSIZE * big_page_cnt size - ARENA_SIZE

/-- What a request gives: one more block in use, nothing written to memory. -/
structure Granted (s : State) (size p : ℕ) (h' : Heap) : Prop where
  inv : Inv ⟨h', p :: s.live⟩
  busy : Busy ⟨h', p :: s.live⟩ none
  mem : h'.mem = s.heap.mem
  size : block_size h' p = .ok (granted_size size)
  keeps : KeepsHeaders s.heap h'

/-- `block_size` of a block of an arena. -/
theorem block_size_small {h : Heap} {b : ℕ} (hal : a % PGSIZE = 0)
    (ha : h.arenas a = some ⟨some d, cnt⟩) (hb : b ∈ arena_blocks a d) :
    block_size h b = .ok (descs d).block_size := by
  rw [block_size, block_to_arena_small hal ha hb]
  rfl

/-- `block_size` of a big block. -/
theorem block_size_big {h : Heap} (hal : a % PGSIZE = 0) (ha : h.arenas a = some ⟨none, cnt⟩) :
    block_size h (a + ARENA_SIZE) = .ok (PGSIZE * cnt - ARENA_SIZE) := by
  rw [block_size, block_to_arena_big hal ha]
  show Except.ok _ = Except.ok _
  rw [pg_ofs_add hal (by decide)]

/-- Where the headers stay, the blocks in use keep their sizes. -/
theorem Inv.keeps_size (h : Inv s) {h' : Heap} (hk : KeepsHeaders s.heap h') {q : ℕ}
    (hq : q ∈ s.live) : block_size h' q = block_size s.heap q := by
  obtain ⟨a, ⟨desc, c⟩, ha, hcase⟩ := h.live q hq
  have hal := h.ranges.aligned ha
  obtain ⟨⟨desc', c'⟩, ha', hd', hn'⟩ := hk a _ ha
  rcases hcase with ⟨hd, rfl⟩ | ⟨d, hd, hb⟩
  · have heq := hn' hd
    dsimp only at hd
    rw [hd] at ha heq
    rw [heq] at ha'
    rw [block_size_big hal ha, block_size_big hal ha']
  · dsimp only at hd hd'
    rw [hd] at hd' ha
    rw [hd'] at ha'
    rw [block_size_small hal ha hb, block_size_small hal ha' hb]

/-- Taking a block leaves every arena with a block in use. -/
theorem Inv.take_granted (h : Inv s) {x : Option ℕ} (hbusy : Busy s x) {size : ℕ}
    (hfind : find_desc size = some d) {b : ℕ} {rest : List ℕ}
    (hl : s.heap.free_list d = b :: rest) (hx : x = none ∨ x = some (pg_round_down b)) :
    ∃ h', Malloc.take_block s.heap d = .ok (b, h') ∧ Granted s size b h' := by
  obtain ⟨h', c, htake, hinv, hmem, hblock, hc, harenas, hkeeps⟩ := h.take_block hl
  have hself : h'.arenas (pg_round_down b) = some ⟨some d, c⟩ := by
    rw [harenas, Function.update_self]
  refine ⟨h', htake, hinv, ?_, hmem, ?_, hkeeps⟩
  · intro a e cnt ha _
    by_cases hab : a = pg_round_down b
    · have ha' : h'.arenas a = some ⟨some e, cnt⟩ := ha
      rw [hab, hself] at ha'
      simp only [Option.some.injEq, Arena.mk.injEq] at ha'
      rw [← ha'.1, ← ha'.2]
      exact hc
    · have ha' : h'.arenas a = some ⟨some e, cnt⟩ := ha
      rw [harenas, Function.update_of_ne hab] at ha'
      refine hbusy a e cnt ha' ?_
      rcases hx with rfl | rfl
      · exact fun h => (by cases h)
      · exact fun heq => hab (Option.some.inj heq).symm
  · rw [block_size_small (hinv.ranges.aligned hself) hself hblock]
    simp only [granted_size, hfind]

/-- A request that there is no memory for changes nothing. -/
theorem malloc_refused {h : Heap} {size : ℕ} {pal : ℕ → Option ℕ} (hr : Refused h size pal) :
    malloc h size pal = .ok (none, h) := by
  by_cases h0 : size = 0
  · rw [malloc, if_pos h0]
  have hr' := hr.resolve_left h0
  rw [malloc, if_neg h0]
  cases hf : find_desc size with
  | none =>
    rw [hf] at hr'
    by_cases hc : big_page_cnt size = 0
    · simp [palloc_get_multiple, hc]
    · simp [palloc_get_multiple, hc, hr'.resolve_left hc]
  | some d =>
    rw [hf] at hr'
    obtain ⟨hl, hpal⟩ := hr'
    simp [refill, hl, palloc_get_multiple, hpal]

/-- Every other request is granted. -/
theorem Inv.malloc_granted (h : Inv s) (hbusy : Busy s none) {size : ℕ} {pal : ℕ → Option ℕ}
    (hp : Palloc s.heap pal) (hr : ¬ Refused s.heap size pal) :
    ∃ p h', malloc s.heap size pal = .ok (some p, h') ∧ Granted s size p h' := by
  obtain ⟨h0, hr'⟩ := not_or.mp hr
  rw [malloc, if_neg h0]
  cases hf : find_desc size with
  | none =>
    rw [hf] at hr'
    obtain ⟨hc, hpal⟩ := not_or.mp hr'
    obtain ⟨a, ha⟩ := Option.ne_none_iff_exists'.mp hpal
    have hfresh := hp _ _ (Nat.pos_of_ne_zero hc) ha
    have hinv := h.add_big hfresh (Nat.pos_of_ne_zero hc)
    refine ⟨a + ARENA_SIZE, _, by simp only [palloc_get_multiple, if_neg hc, ha], hinv, ?_,
      rfl, ?_, keeps_new (h.ranges.fresh_none hfresh (Nat.pos_of_ne_zero hc))
        (fun x hx => Function.update_of_ne hx ..)⟩
    · intro x e c hx _
      have hxa : x ≠ a := by
        rintro rfl
        have hself : Function.update s.heap.arenas x (some ⟨none, big_page_cnt size⟩) x
          = some ⟨some e, c⟩ := hx
        rw [Function.update_self] at hself
        cases hself
      exact hbusy x e c ((Function.update_of_ne hxa ..).symm.trans hx) (fun h => (by cases h))
    · rw [block_size_big hfresh.1 (Function.update_self ..)]
      simp only [granted_size, hf]
  | some d =>
    rw [hf] at hr'
    by_cases hl : s.heap.free_list d = []
    · -- the new arena's first block is returned
      have hpal : pal 1 ≠ none := fun hno => hr' ⟨hl, hno⟩
      obtain ⟨a, ha⟩ := Option.ne_none_iff_exists'.mp hpal
      have hfresh := hp _ _ Nat.one_pos ha
      have hinv := h.add_small (d := d) hfresh hl
      obtain ⟨_, hthree, _⟩ := desc_fits d
      obtain ⟨n, hn⟩ := Nat.exists_eq_add_of_le hthree
      have hfirst : ∃ rest, arena_blocks a d = arena_to_block a d 0 :: rest := by
        rw [arena_blocks, hn, Nat.add_comm, List.range_succ_eq_map]
        exact ⟨_, rfl⟩
      obtain ⟨rest, hrest⟩ := hfirst
      have hbusy' : Busy ⟨({ s.heap with pages := (a, 1) :: s.heap.pages }.set_arena a
          (some ⟨some d, (descs d).blocks_per_arena⟩)).set_list d (arena_blocks a d), s.live⟩
          (some (pg_round_down (arena_to_block a d 0))) := by
        rw [pg_round_down_block hfresh.1 (by omega)]
        intro x e c hx hne
        have hxa : x ≠ a := fun heq => hne (by rw [heq])
        exact hbusy x e c ((Function.update_of_ne hxa ..).symm.trans hx) (fun h => (by cases h))
      obtain ⟨h', htake, hg⟩ := hinv.take_granted hbusy' hf
        ((Function.update_self ..).trans hrest) (Or.inr rfl)
      have hnew : KeepsHeaders s.heap (({ s.heap with
          pages := (a, 1) :: s.heap.pages }.set_arena a
          (some ⟨some d, (descs d).blocks_per_arena⟩)).set_list d (arena_blocks a d)) :=
        keeps_new (h.ranges.fresh_none hfresh Nat.one_pos)
          (fun x hx => Function.update_of_ne hx ..)
      refine ⟨_, h', ?_, hg.inv, hg.busy, hg.mem, hg.size, hnew.trans hg.keeps⟩
      have hrefill : refill s.heap d pal = some (({ s.heap with
          pages := (a, 1) :: s.heap.pages }.set_arena a
          (some ⟨some d, (descs d).blocks_per_arena⟩)).set_list d (arena_blocks a d)) := by
        simp only [refill, if_pos hl, palloc_get_multiple, if_neg Nat.one_ne_zero, ha]
        simp only [Heap.set_arena, hl, List.nil_append]
      simp only [hrefill, htake]
      rfl
    · obtain ⟨b, rest, hrest⟩ := List.exists_cons_of_ne_nil hl
      obtain ⟨h', htake, hg⟩ := h.take_granted hbusy hf hrest (Or.inl rfl)
      refine ⟨b, h', ?_, hg⟩
      simp only [refill, if_neg hl, htake]
      rfl

/-! ## The extents of blocks -/

/-- A block in use lies behind the header of its range and ends within the range. -/
theorem Inv.extent (h : Inv s) {p : ℕ} (hp : p ∈ s.live) :
    ∃ n cnt, block_size s.heap p = .ok n ∧ (pg_round_down p, cnt) ∈ s.heap.pages
      ∧ pg_round_down p + ARENA_SIZE ≤ p ∧ p + n ≤ pg_round_down p + PGSIZE * cnt := by
  obtain ⟨a, ⟨desc, c⟩, ha, hcase⟩ := h.live p hp
  have hal := h.ranges.aligned ha
  obtain ⟨cnt, hmem⟩ := h.ranges.held a _ ha
  obtain ⟨ar, har, hcnt⟩ := h.ranges.header _ hmem
  obtain ⟨_, _, hpos, _⟩ := h.ranges.pages _ hmem
  rw [ha, Option.some.injEq] at har
  rw [← har] at hcnt
  rcases hcase with ⟨hd, rfl⟩ | ⟨d, hd, hb⟩
  · dsimp only at hd hcnt hpos
    rw [hd] at ha
    rw [if_pos hd] at hcnt
    rw [pg_round_down_add hal (by decide)]
    refine ⟨_, cnt, block_size_big hal ha, hmem, le_rfl, ?_⟩
    rw [hcnt]
    have hsz : ARENA_SIZE ≤ PGSIZE * c := by
      unfold ARENA_SIZE PGSIZE
      omega
    omega
  · dsimp only at hd hcnt
    rw [hd] at ha
    rw [hd, if_neg (fun h => (by cases h))] at hcnt
    rw [h.page_of_block ha hb]
    refine ⟨_, cnt, block_size_small hal ha hb, hmem, ?_, ?_⟩
    · obtain ⟨k, _, rfl⟩ := mem_arena_blocks.mp hb
      exact Nat.le_add_right ..
    · obtain ⟨k, hk, rfl⟩ := mem_arena_blocks.mp hb
      have hend := block_end_le hk
      rw [hcnt, Nat.mul_one, arena_to_block]
      omega

/-- Blocks at different places of one arena do not overlap. -/
theorem blocks_apart {p q : ℕ} (hp : p ∈ arena_blocks a d) (hq : q ∈ arena_blocks a d)
    (hne : p ≠ q) : p + (descs d).block_size ≤ q ∨ q + (descs d).block_size ≤ p := by
  obtain ⟨j, _, rfl⟩ := mem_arena_blocks.mp hp
  obtain ⟨k, _, rfl⟩ := mem_arena_blocks.mp hq
  have hjk : j ≠ k := fun heq => hne (by rw [heq])
  have hstep : ∀ m n : ℕ, m < n →
      m * (descs d).block_size + (descs d).block_size ≤ n * (descs d).block_size := by
    intro m n hmn
    have hmul := Nat.mul_le_mul_right (descs d).block_size (Nat.succ_le_of_lt hmn)
    rwa [Nat.succ_mul] at hmul
  simp only [arena_to_block]
  rcases Nat.lt_or_gt_of_ne hjk with hlt | hgt
  · have hle := hstep j k hlt
    omega
  · have hle := hstep k j hgt
    omega

/-- Two addresses in ranges that begin at different pages are apart with all that follows them
in the ranges. -/
theorem Ranges.split {h : Heap} (hr : Ranges h) {a b m n c e p q : ℕ}
    (ha : (a, c) ∈ h.pages) (hb : (b, e) ∈ h.pages) (hne : a ≠ b) (hap : a ≤ p) (hbq : b ≤ q)
    (hpm : p + m ≤ a + PGSIZE * c) (hqn : q + n ≤ b + PGSIZE * e) : p + m ≤ q ∨ q + n ≤ p := by
  have hap' : Apart (a, c) (b, e) :=
    hr.apart.forall ha hb (fun heq => hne (congrArg Prod.fst heq))
  unfold Apart at hap'
  dsimp only at hap'
  omega

/-- A block in use does not overlap another place of an arena, in use or free. -/
theorem Inv.apart (h : Inv s) {p b n : ℕ} (hp : p ∈ s.live) (hn : block_size s.heap p = .ok n)
    (ha : s.heap.arenas a = some ⟨some d, cnt⟩) (hb : b ∈ arena_blocks a d) (hne : p ≠ b) :
    p + n ≤ b ∨ b + (descs d).block_size ≤ p := by
  have hal := h.ranges.aligned ha
  by_cases hpage : pg_round_down p = a
  · -- in the page of an arena there are blocks of that arena only
    have hpb : p ∈ arena_blocks a d := by
      obtain ⟨a', ⟨desc, cnt'⟩, ha', ⟨hd, rfl⟩ | ⟨e, hd, hbe⟩⟩ := h.live p hp
      · dsimp only at hd
        rw [pg_round_down_add (h.ranges.aligned ha') (by decide)] at hpage
        rw [hpage, ha, hd] at ha'
        cases ha'
      · dsimp only at hd
        rw [hd] at ha'
        obtain rfl : a' = a := (h.page_of_block ha' hbe).symm.trans hpage
        rw [ha, Option.some.injEq, Arena.mk.injEq, Option.some.injEq] at ha'
        rw [ha'.1]
        exact hbe
    rw [block_size_small hal ha hpb] at hn
    cases hn
    exact blocks_apart hpb hb hne
  · obtain ⟨m, c, hm, hmem, hlo, hhi⟩ := h.extent hp
    rw [hn] at hm
    cases hm
    obtain ⟨e, hheld⟩ := h.ranges.held a _ ha
    obtain ⟨-, -, hpos, -⟩ := h.ranges.pages _ hheld
    obtain ⟨k, hk, rfl⟩ := mem_arena_blocks.mp hb
    have hend := block_end_le hk
    have hle : PGSIZE * 1 ≤ PGSIZE * e := Nat.mul_le_mul_left _ hpos
    unfold arena_to_block
    exact h.ranges.split hmem hheld hpage (by omega) (by omega) hhi (by omega)

/-- **Blocks in use do not overlap.** -/
theorem Inv.disjoint (h : Inv s) {p q m n : ℕ} (hp : p ∈ s.live) (hq : q ∈ s.live) (hne : p ≠ q)
    (hm : block_size s.heap p = .ok m) (hn : block_size s.heap q = .ok n) :
    p + m ≤ q ∨ q + n ≤ p := by
  obtain ⟨a, ⟨desc, cnt⟩, ha, hcase⟩ := h.live p hp
  obtain ⟨a', ⟨desc', cnt'⟩, ha', hcase'⟩ := h.live q hq
  have hal := h.ranges.aligned ha
  have hal' := h.ranges.aligned ha'
  rcases hcase' with ⟨hd', rfl⟩ | ⟨d', hd', hb'⟩
  · rcases hcase with ⟨hd, rfl⟩ | ⟨d, hd, hb⟩
    · -- two big blocks lie in different ranges of pages
      obtain ⟨m', c, hm', hpc, hpa, hpe⟩ := h.extent hp
      obtain ⟨n', e, hn', hqc, hqa, hqe⟩ := h.extent hq
      rw [hm] at hm'
      rw [hn] at hn'
      cases hm'
      cases hn'
      refine h.ranges.split hpc hqc (fun hpage => hne ?_) (by omega) (by omega) hpe hqe
      rw [pg_round_down_add hal (by decide), pg_round_down_add hal' (by decide)] at hpage
      rw [hpage]
    · dsimp only at hd
      rw [hd] at ha
      rw [block_size_small hal ha hb] at hm
      cases hm
      exact (h.apart hq hn ha hb hne.symm).symm
  · dsimp only at hd'
    rw [hd'] at ha'
    rw [block_size_small hal' ha' hb'] at hn
    cases hn
    exact h.apart hp hm ha' hb' hne

end

end Pintos.Threads.Malloc
