/-
`threads/palloc.c`: the kernel pool and the user pool.

`palloc_init` cuts the memory behind the kernel in two. A pool begins with its own bitmap,
and its pages follow from the next page boundary on; page `i` of the pool is bit `i` of the
bitmap. Whoever frees pages hands in an address only, and the pool is found from it.

A run keeps the list of live ranges beside the two pools. The invariant is that the marked
pages of a pool are those the live ranges cover, so that the first run of clear bits is a
range nobody has. The locks of the pools have no part in a sequence of calls.
-/
import Pintos.Kernel.WordBitmap
import Pintos.Library.StepSystem
import Pintos.Library.WordImage
import Pintos.Threads.Vaddr

set_option autoImplicit false

namespace Pintos.Threads.Palloc

open Pintos.Kernel Pintos.Kernel.Words Vaddr WordImage StepSystem

/-! ## `threads/palloc.c` -/

/-- `struct pool`. The map itself is kept beside the address of its storage. -/
structure Pool where
  used_map_at : Addr
  used_map : Words.Bitmap
  base : Addr

/-- `enum palloc_flags`. -/
structure PallocFlags where
  pal_assert : Bool
  pal_zero : Bool
  pal_user : Bool
  deriving DecidableEq

/-- The two pools and the bytes of memory, other than the storage of the maps. -/
structure Pools where
  kernel_pool : Pool
  user_pool : Pool
  mem : Addr → UInt8

/-- `flags & PAL_USER ? &user_pool : &kernel_pool`. -/
def Pools.pool (s : Pools) (user : Bool) : Pool := if user then s.user_pool else s.kernel_pool

/-- A pool with another map. -/
def Pools.set_map (s : Pools) (user : Bool) (b : Words.Bitmap) : Pools :=
  if user then { s with user_pool := { s.user_pool with used_map := b } }
  else { s with kernel_pool := { s.kernel_pool with used_map := b } }

/-- `memset`. -/
def memset (mem : Addr → UInt8) (dst : Addr) (value : UInt8) (size : ℕ) : Addr → UInt8 :=
  fun a => if (a - dst).toNat < size then value else mem a

/-- What lies in memory from `block` on, as the elements of a bitmap behind its header. -/
def mem_elems (mem : Addr → UInt8) (block : Addr) (k : ℕ) : Elem :=
  BitVec.ofNat 32 (word (fun i => mem (block + BitVec.ofNat 32 (8 + i))) k)

/-- `init_pool`. -/
def init_pool (mem : Addr → UInt8) (base : Addr) (page_cnt : ℕ) : Res Pool :=
  let bm_pages := (bitmap_buf_size page_cnt + PGSIZE - 1) / PGSIZE
  if page_cnt < bm_pages then .error .assertion
  else do
    let b ← bitmap_create_in_buf (page_cnt - bm_pages) (mem_elems mem base) (bm_pages * PGSIZE)
    return { used_map_at := base, used_map := b,
             base := base + BitVec.ofNat 32 (bm_pages * PGSIZE) }

/-- `palloc_init`, with the kernel ending at `end_`. -/
def palloc_init (mem : Addr → UInt8) (end_ : Addr) (ram_pages user_page_limit : ℕ) :
    Res Pools := do
  let free_start := pg_round_up end_
  let free_end ← ptov (BitVec.ofNat 32 (ram_pages * PGSIZE))
  let free_pages := ((free_end - free_start).sdiv 4096#32).toNat
  let user_pages := if user_page_limit < free_pages / 2 then user_page_limit else free_pages / 2
  let kernel_pages := free_pages - user_pages
  let k ← init_pool mem free_start kernel_pages
  let u ← init_pool mem (free_start + BitVec.ofNat 32 (kernel_pages * PGSIZE)) user_pages
  return { kernel_pool := k, user_pool := u, mem := mem }

/-- `palloc_get_multiple`. -/
def palloc_get_multiple (s : Pools) (flags : PallocFlags) (page_cnt : ℕ) :
    Res (Addr × Pools) :=
  if page_cnt = 0 then .ok (0#32, s)
  else do
    let pool := s.pool flags.pal_user
    let r ← bitmap_scan_and_flip pool.used_map 0 page_cnt false
    let s := s.set_map flags.pal_user r.2
    let pages := match r.1 with
      | some page_idx => pool.base + BitVec.ofNat 32 (PGSIZE * page_idx)
      | none => 0#32
    if pages ≠ 0#32 then
      if flags.pal_zero then return (pages, { s with mem := memset s.mem pages 0 (PGSIZE * page_cnt) })
      else return (pages, s)
    else if flags.pal_assert then .error .assertion
    else return (pages, s)

/-- `page_from_pool`. -/
def page_from_pool (pool : Pool) (page : Addr) : Prop :=
  let page_no := (pg_no page).toNat
  let start_page := (pg_no pool.base).toNat
  let end_page := start_page + pool.used_map.bit_cnt
  start_page ≤ page_no ∧ page_no < end_page

instance (pool : Pool) (page : Addr) : Decidable (page_from_pool pool page) :=
  inferInstanceAs (Decidable (_ ∧ _))

/-- `palloc_free_multiple`, from the choice of the pool on. -/
def free_from_pool (s : Pools) (user : Bool) (pages : Addr) (page_cnt : ℕ) : Res Pools := do
  let pool := s.pool user
  let page_idx := (pg_no pages - pg_no pool.base).toNat
  let s : Pools := { s with mem := memset s.mem pages 0xcc (PGSIZE * page_cnt) }
  let all ← bitmap_all pool.used_map page_idx page_cnt
  ASSERT (all = true)
  let b ← bitmap_set_multiple pool.used_map page_idx page_cnt false
  return s.set_map user b

/-- `palloc_free_multiple`. -/
def palloc_free_multiple (s : Pools) (pages : Addr) (page_cnt : ℕ) : Res Pools := do
  ASSERT (pg_ofs pages = 0#32)
  if pages = 0#32 ∨ page_cnt = 0 then return s
  else if page_from_pool s.kernel_pool pages then free_from_pool s false pages page_cnt
  else if page_from_pool s.user_pool pages then free_from_pool s true pages page_cnt
  else .error .assertion

/-! ## Runs -/

/-- The pages that one call returned: the pool it named, their address and their number. -/
structure PageRange where
  user : Bool
  start : Addr
  cnt : ℕ
  deriving DecidableEq

/-- The address behind a range. -/
def PageRange.stop (r : PageRange) : ℕ := r.start.toNat + PGSIZE * r.cnt

/-- The pools, and the ranges that were returned and not yet freed. -/
structure State where
  pools : Pools
  live : List PageRange

/-- One call. -/
inductive Call
  | get (flags : PallocFlags) (page_cnt : ℕ)
  | free (r : PageRange)

/-- What a call does. Only live ranges are freed. -/
def exec (s : State) : Call → Res State
  | .get flags page_cnt => do
    let r ← palloc_get_multiple s.pools flags page_cnt
    if r.1 = 0#32 then return { s with pools := r.2 }
    else return { pools := r.2, live := ⟨flags.pal_user, r.1, page_cnt⟩ :: s.live }
  | .free r =>
    if r ∈ s.live then do
      let p ← palloc_free_multiple s.pools r.start r.cnt
      return { pools := p, live := s.live.erase r }
    else .error .dangling

/-- The machine: where the kernel ends, how much memory there is, and the limit from the
command line. The kernel is in memory, and memory ends below the top of the address space;
the loader caps it at 64 MB. -/
structure Machine where
  end_ : Addr
  ram_pages : ℕ
  user_page_limit : ℕ
  kernel : 0xc0000000 ≤ end_.toNat
  ram : (end_.toNat + 4095) / 4096 * 4096 ≤ 0xc0000000 + PGSIZE * ram_pages
  top : ram_pages < 2 ^ 18

/-- Runs start with the pools that `palloc_init` makes in memory of any contents. -/
def palloc_system (m : Machine) : System State Call where
  init s := ∃ mem, palloc_init mem m.end_ m.ram_pages m.user_page_limit = .ok s.pools ∧
    s.live = []
  step s c s' := exec s c = .ok s'

/-! ## The split of memory -/

/-- The pages behind the kernel. -/
def Machine.free_pages (m : Machine) : ℕ :=
  (0xc0000000 + PGSIZE * m.ram_pages - (m.end_.toNat + 4095) / 4096 * 4096) / PGSIZE

/-- The pages of the user pool and its bitmap. -/
def Machine.user_pages (m : Machine) : ℕ := min m.user_page_limit (m.free_pages / 2)

/-- Where the user pool begins. -/
def Machine.split (m : Machine) : ℕ :=
  (m.end_.toNat + 4095) / 4096 * 4096 + PGSIZE * (m.free_pages - m.user_pages)

/-- Where a pool begins. -/
def Machine.lo (m : Machine) : Bool → ℕ
  | false => (m.end_.toNat + 4095) / 4096 * 4096
  | true => m.split

/-- Where a pool ends. -/
def Machine.hi (m : Machine) : Bool → ℕ
  | false => m.split
  | true => 0xc0000000 + PGSIZE * m.ram_pages

theorem Machine.split_add (m : Machine) : m.split + PGSIZE * m.user_pages = m.hi true := by
  have hP : PGSIZE = 4096 := rfl
  have hram := m.ram
  have hle : m.user_pages ≤ m.free_pages := by
    unfold Machine.user_pages
    omega
  change m.split + _ = 0xc0000000 + PGSIZE * m.ram_pages
  unfold Machine.split
  unfold Machine.free_pages at hle ⊢
  rw [hP] at hram hle ⊢
  omega

/-- A pool between two addresses: its bitmap first, then its pages. -/
structure PoolOk (p : Pool) (lo hi : ℕ) : Prop where
  used_map : p.used_map_at.toNat = lo
  map : lo + bitmap_buf_size p.used_map.bit_cnt ≤ p.base.toNat
  aligned : p.base.toNat % 4096 = 0
  top : p.base.toNat + PGSIZE * p.used_map.bit_cnt = hi

section Split

variable {mem : Addr → UInt8} {m : Machine}

/-- **`init_pool`** puts the bitmap at the front of the pool and clears it. -/
theorem init_pool_spec {base : Addr} {page_cnt : ℕ} {p : Pool}
    (h : init_pool mem base page_cnt = .ok p) (haligned : base.toNat % 4096 = 0)
    (htop : base.toNat + PGSIZE * page_cnt < 2 ^ 32) :
    PoolOk p base.toNat (base.toNat + PGSIZE * page_cnt) ∧
      ∀ i < p.used_map.bit_cnt, p.used_map.bit i = false := by
  have hP : PGSIZE = 4096 := rfl
  unfold init_pool at h
  dsimp only at h
  set bm_pages := (bitmap_buf_size page_cnt + PGSIZE - 1) / PGSIZE with hbm
  by_cases hroom : page_cnt < bm_pages
  · rw [if_pos hroom] at h
    cases h
  · rw [if_neg hroom] at h
    obtain ⟨b, hcreate, hret⟩ := bind_eq_ok h
    obtain ⟨_, hassert, hcreate⟩ := bind_eq_ok hcreate
    obtain rfl := Except.ok.inj hret
    obtain ⟨b', hcreate', hcnt, hclear⟩ :=
      bitmap_create_spec (page_cnt - bm_pages) (mem_elems mem base)
    obtain rfl : b = b' := Except.ok.inj (hcreate.symm.trans hcreate')
    have hsize := ASSERT_eq_ok hassert
    have hbase : (base + BitVec.ofNat 32 (bm_pages * PGSIZE)).toNat =
        base.toNat + bm_pages * PGSIZE := by
      apply toNat_add_ofNat
      rw [hP] at htop ⊢
      omega
    refine ⟨⟨rfl, ?_, ?_, ?_⟩, ?_⟩
    · change base.toNat + bitmap_buf_size b.bit_cnt ≤ _
      rw [hbase, hcnt]
      omega
    · change (base + _).toNat % 4096 = 0
      rw [hbase, hP]
      omega
    · change (base + _).toNat + PGSIZE * b.bit_cnt = _
      rw [hbase, hcnt, hP]
      omega
    · intro i hi
      exact hclear i (by rw [← hcnt]; exact hi)

/-- **`palloc_init`** splits the memory behind the kernel. -/
theorem palloc_init_spec {s : Pools}
    (h : palloc_init mem m.end_ m.ram_pages m.user_page_limit = .ok s) (user : Bool) :
    PoolOk (s.pool user) (m.lo user) (m.hi user) ∧
      ∀ i < (s.pool user).used_map.bit_cnt, (s.pool user).used_map.bit i = false := by
  have hP : PGSIZE = 4096 := rfl
  have hkernel := m.kernel
  have hram := m.ram
  have htop := m.top
  rw [hP] at hram
  have hstart : (pg_round_up m.end_).toNat = (m.end_.toNat + 4095) / 4096 * 4096 :=
    pg_round_up_toNat (by omega)
  have hpaddr : (BitVec.ofNat 32 (m.ram_pages * PGSIZE)).toNat = m.ram_pages * 4096 := by
    rw [BitVec.toNat_ofNat, hP]
    omega
  obtain ⟨hptov, hend⟩ := @ptov_eq (BitVec.ofNat 32 (m.ram_pages * PGSIZE))
    (by rw [hpaddr]; omega)
  unfold palloc_init at h
  rw [hptov, ok_bind] at h
  dsimp only at h
  -- the difference of the two pointers is positive
  have hfree : ((BitVec.ofNat 32 (m.ram_pages * PGSIZE) + PHYS_BASE - pg_round_up m.end_).sdiv
      4096#32).toNat = m.free_pages := by
    have hdiff : (BitVec.ofNat 32 (m.ram_pages * PGSIZE) + PHYS_BASE - pg_round_up m.end_).toNat =
        m.ram_pages * 4096 + 0xc0000000 - (m.end_.toNat + 4095) / 4096 * 4096 := by
      rw [BitVec.toNat_sub, hend, hpaddr, hstart]
      omega
    have hmsb : (BitVec.ofNat 32 (m.ram_pages * PGSIZE) + PHYS_BASE -
        pg_round_up m.end_).msb = false := by
      rw [BitVec.msb_eq_false_iff_two_mul_lt, hdiff]
      omega
    rw [BitVec.sdiv_eq, hmsb, show (4096#32).msb = false from rfl]
    dsimp only
    rw [BitVec.udiv_eq, BitVec.toNat_udiv, hdiff, show (4096#32).toNat = 4096 from rfl]
    unfold Machine.free_pages
    rw [hP]
    omega
  have huser : (if m.user_page_limit < m.free_pages / 2 then m.user_page_limit
      else m.free_pages / 2) = m.user_pages := by
    unfold Machine.user_pages
    split_ifs <;> omega
  rw [hfree, huser] at h
  obtain ⟨k, hk, h⟩ := bind_eq_ok h
  obtain ⟨u, hu, hret⟩ := bind_eq_ok h
  obtain rfl := Except.ok.inj hret
  have hsplit := m.split_add
  have hhi : m.hi true = 0xc0000000 + 4096 * m.ram_pages := rfl
  have hsplit_lt : m.split < 2 ^ 32 := by
    rw [hP] at hsplit
    omega
  have hkernel_top : (m.end_.toNat + 4095) / 4096 * 4096 + PGSIZE * (m.free_pages - m.user_pages)
      = m.split := rfl
  have hmid : (pg_round_up m.end_ + BitVec.ofNat 32 ((m.free_pages - m.user_pages) * PGSIZE)).toNat
      = m.split := by
    rw [toNat_add_ofNat, hstart, Nat.mul_comm _ PGSIZE, hkernel_top]
    rw [hstart, Nat.mul_comm _ PGSIZE, hkernel_top]
    exact hsplit_lt
  have haligned : m.split % 4096 = 0 := by
    rw [← hkernel_top, hP]
    omega
  cases user with
  | false =>
    have hspec := init_pool_spec hk (by rw [hstart]; omega) (by rw [hstart, hkernel_top]; exact hsplit_lt)
    rw [hstart, hkernel_top] at hspec
    exact hspec
  | true =>
    have hspec := init_pool_spec hu (by rw [hmid]; exact haligned)
      (by rw [hmid, hsplit, hhi]; omega)
    rw [hmid, hsplit] at hspec
    exact hspec

end Split

/-! ## Live ranges -/

/-- The address of page `i` of a pool. -/
def Pool.page_addr (p : Pool) (i : ℕ) : ℕ := p.base.toNat + PGSIZE * i

/-- The byte at `a` belongs to a range. -/
def PageRange.Covers (r : PageRange) (a : ℕ) : Prop := r.start.toNat ≤ a ∧ a < r.stop

/-- Page `i` of a pool is nobody's. -/
def State.FreePage (s : State) (user : Bool) (i : ℕ) : Prop :=
  i < (s.pools.pool user).used_map.bit_cnt ∧
    ∀ r ∈ s.live, ¬ r.Covers ((s.pools.pool user).page_addr i)

/-- Page `i` of a pool can be returned by the next call. -/
def Pools.Available (s : Pools) (user : Bool) (i : ℕ) : Prop :=
  i < (s.pool user).used_map.bit_cnt ∧ (s.pool user).used_map.bit i = false

/-- What holds between two calls. -/
structure Inv (m : Machine) (s : State) : Prop where
  pool : ∀ user, PoolOk (s.pools.pool user) (m.lo user) (m.hi user)
  range : ∀ r ∈ s.live, 0 < r.cnt ∧ ∃ k, r.start.toNat = (s.pools.pool r.user).page_addr k ∧
    k + r.cnt ≤ (s.pools.pool r.user).used_map.bit_cnt
  marked : ∀ user, ∀ i < (s.pools.pool user).used_map.bit_cnt,
    (s.pools.pool user).used_map.bit i = true ↔
      ∃ r ∈ s.live, r.Covers ((s.pools.pool user).page_addr i)
  disjoint : s.live.Pairwise fun r r' => ∀ a, ¬ (r.Covers a ∧ r'.Covers a)

theorem pool_set_map (s : Pools) (user user' : Bool) (b : Words.Bitmap) :
    (s.set_map user b).pool user' =
      if user' = user then { s.pool user with used_map := b } else s.pool user' := by
  cases user <;> cases user' <;> rfl

theorem PoolOk.set_map {p : Pool} {lo hi : ℕ} (h : PoolOk p lo hi) {b : Words.Bitmap}
    (hcnt : b.bit_cnt = p.used_map.bit_cnt) : PoolOk { p with used_map := b } lo hi where
  used_map := h.used_map
  map := by
    change lo + bitmap_buf_size b.bit_cnt ≤ _
    rw [hcnt]
    exact h.map
  aligned := h.aligned
  top := by
    change _ + PGSIZE * b.bit_cnt = hi
    rw [hcnt]
    exact h.top

section Ranges

variable {m : Machine} {pools : Pools} {r : PageRange} {k : ℕ}

/-- A range of a pool covers the pages of that pool that it counts, and no other. -/
theorem covers_page_iff (hpool : ∀ user, PoolOk (pools.pool user) (m.lo user) (m.hi user))
    (hk : r.start.toNat = (pools.pool r.user).page_addr k)
    (hle : k + r.cnt ≤ (pools.pool r.user).used_map.bit_cnt) (user : Bool) {i : ℕ}
    (hi : i < (pools.pool user).used_map.bit_cnt) :
    r.Covers ((pools.pool user).page_addr i) ↔ user = r.user ∧ k ≤ i ∧ i < k + r.cnt := by
  have hP : PGSIZE = 4096 := rfl
  have hkernel := (hpool false).top
  have huser := (hpool true).map
  have hbuf : 0 < bitmap_buf_size (pools.pool true).used_map.bit_cnt := by
    unfold bitmap_buf_size
    omega
  have hmid : m.hi false = m.lo true := rfl
  unfold PageRange.Covers PageRange.stop
  rw [hk]
  unfold Pool.page_addr
  rw [hP] at hkernel ⊢
  by_cases hsame : user = r.user
  · rw [hsame, eq_self_iff_true, true_and]
    omega
  · -- the other pool lies on one side
    have hout : ¬ ((pools.pool r.user).base.toNat + 4096 * k ≤
        (pools.pool user).base.toNat + 4096 * i ∧ (pools.pool user).base.toNat + 4096 * i <
          (pools.pool r.user).base.toNat + 4096 * k + 4096 * r.cnt) := by
      cases user with
      | false =>
        have hr : r.user = true := by simpa using Ne.symm hsame
        rw [hr] at hle ⊢
        omega
      | true =>
        have hr : r.user = false := by simpa using Ne.symm hsame
        rw [hr] at hle ⊢
        omega
    exact iff_of_false hout (fun h => hsame h.1)

/-- A byte of a range is on a page of the range. -/
theorem covers_page (hpool : ∀ user, PoolOk (pools.pool user) (m.lo user) (m.hi user))
    (hk : r.start.toNat = (pools.pool r.user).page_addr k)
    (hle : k + r.cnt ≤ (pools.pool r.user).used_map.bit_cnt) {a : ℕ} (ha : r.Covers a) :
    ∃ i < (pools.pool r.user).used_map.bit_cnt, k ≤ i ∧ i < k + r.cnt ∧
      ∀ (r' : PageRange) (k' : ℕ), r'.start.toNat = (pools.pool r'.user).page_addr k' → r'.Covers a →
        r'.Covers ((pools.pool r.user).page_addr i) := by
  have hP : PGSIZE = 4096 := rfl
  have haligned : ∀ user, (pools.pool user).base.toNat % 4096 = 0 := fun user =>
    (hpool user).aligned
  unfold PageRange.Covers PageRange.stop at *
  rw [hk] at ha
  unfold Pool.page_addr at *
  rw [hP] at ha ⊢
  refine ⟨(a - (pools.pool r.user).base.toNat) / 4096, by omega, by omega, by omega, ?_⟩
  intro r' k' hk' ha'
  have h1 := haligned r.user
  have h2 := haligned r'.user
  rw [hk'] at ha' ⊢
  omega

end Ranges

/-! ## One call -/

section Step

variable {m : Machine} {s s' : State}

/-- The marked pages are the covered ones. -/
theorem Inv.available_iff (h : Inv m s) (user : Bool) (i : ℕ) :
    s.pools.Available user i ↔ s.FreePage user i := by
  unfold Pools.Available State.FreePage
  refine and_congr_right fun hi => ?_
  rw [← Bool.not_eq_true, h.marked user i hi]
  push Not
  rfl

theorem Inv.base_lt (h : Inv m s) (user : Bool) :
    0xc0000000 ≤ (s.pools.pool user).base.toNat ∧
      (s.pools.pool user).page_addr (s.pools.pool user).used_map.bit_cnt < 2 ^ 32 := by
  have hP : PGSIZE = 4096 := rfl
  have hmap := (h.pool user).map
  have htop := (h.pool user).top
  have hkernel := m.kernel
  have hram := m.top
  have hsplit := m.split_add
  have hlast : m.hi true = 0xc0000000 + PGSIZE * m.ram_pages := rfl
  have hlo : m.lo false = (m.end_.toNat + 4095) / 4096 * 4096 := rfl
  have hmid : m.lo true = m.split := rfl
  have hmid' : m.hi false = m.split := rfl
  have hlow : (m.end_.toNat + 4095) / 4096 * 4096 ≤ m.split := Nat.le_add_right _ _
  unfold Pool.page_addr
  rw [hP] at *
  cases user <;> omega

/-- **`palloc_get_multiple`** returns the first run of pages nobody has, marks it, and
returns null if there is none. -/
theorem Inv.get_cases (h : Inv m s) (flags : PallocFlags) {page_cnt : ℕ} (hpos : 0 < page_cnt) :
    (∃ i b mem pages, palloc_get_multiple s.pools flags page_cnt =
        .ok (pages, { s.pools.set_map flags.pal_user b with mem := mem }) ∧
      pages.toNat = (s.pools.pool flags.pal_user).page_addr i ∧
      i + page_cnt ≤ (s.pools.pool flags.pal_user).used_map.bit_cnt ∧
      (∀ k < page_cnt, (s.pools.pool flags.pal_user).used_map.bit (i + k) = false) ∧
      b.bit_cnt = (s.pools.pool flags.pal_user).used_map.bit_cnt ∧
      b.bit = fun j => if i ≤ j ∧ j < i + page_cnt then true
        else (s.pools.pool flags.pal_user).used_map.bit j) ∨
    (palloc_get_multiple s.pools flags page_cnt =
        (if flags.pal_assert then .error .assertion else .ok (0#32, s.pools)) ∧
      ∀ i, i + page_cnt ≤ (s.pools.pool flags.pal_user).used_map.bit_cnt →
        ∃ k < page_cnt, (s.pools.pool flags.pal_user).used_map.bit (i + k) ≠ false) := by
  have hP : PGSIZE = 4096 := rfl
  have hbase := h.base_lt flags.pal_user
  unfold palloc_get_multiple
  rw [if_neg (by omega)]
  dsimp only
  rcases bitmap_scan_and_flip_cases page_cnt false
      (Nat.zero_le (s.pools.pool flags.pal_user).used_map.bit_cnt) with
    ⟨i, b, hrun, -, hle, hclear, hcnt, hbit⟩ | ⟨hrun, hnone⟩
  · left
    have hpages : ((s.pools.pool flags.pal_user).base + BitVec.ofNat 32 (PGSIZE * i)).toNat =
        (s.pools.pool flags.pal_user).page_addr i := by
      unfold Pool.page_addr at hbase ⊢
      apply toNat_add_ofNat
      rw [hP] at hbase ⊢
      omega
    have hne : (s.pools.pool flags.pal_user).base + BitVec.ofNat 32 (PGSIZE * i) ≠ 0#32 := by
      intro hzero
      rw [hzero] at hpages
      unfold Pool.page_addr at hpages
      rw [BitVec.toNat_ofNat] at hpages
      omega
    -- `PAL_ZERO` clears the pages
    refine ⟨i, b, if flags.pal_zero then memset (s.pools.set_map flags.pal_user b).mem
        ((s.pools.pool flags.pal_user).base + BitVec.ofNat 32 (PGSIZE * i)) 0 (PGSIZE * page_cnt)
        else (s.pools.set_map flags.pal_user b).mem, _, ?_, hpages, hle, hclear, hcnt,
      by simpa using hbit⟩
    rw [hrun, ok_bind]
    dsimp only
    rw [if_pos hne]
    cases flags.pal_zero <;> rfl
  · right
    refine ⟨?_, fun i hle => hnone i (Nat.zero_le i) hle⟩
    have hsame : s.pools.set_map flags.pal_user (s.pools.pool flags.pal_user).used_map =
        s.pools := by
      unfold Pools.set_map Pools.pool
      cases flags.pal_user <;> rfl
    rw [hrun, ok_bind]
    dsimp only
    rw [if_neg (by simp), hsame, pure_eq_ok]

/-- **`palloc_free_multiple`** finds the pool of a live range and clears its bits. -/
theorem Inv.free_spec (h : Inv m s) {r : PageRange} (hr : r ∈ s.live) :
    ∃ k b mem, palloc_free_multiple s.pools r.start r.cnt =
        .ok { s.pools.set_map r.user b with mem := mem } ∧
      r.start.toNat = (s.pools.pool r.user).page_addr k ∧
      k + r.cnt ≤ (s.pools.pool r.user).used_map.bit_cnt ∧
      b.bit_cnt = (s.pools.pool r.user).used_map.bit_cnt ∧
      b.bit = fun j => if k ≤ j ∧ j < k + r.cnt then false
        else (s.pools.pool r.user).used_map.bit j := by
  have hP : PGSIZE = 4096 := rfl
  obtain ⟨hpos, k, hk, hle⟩ := h.range r hr
  have hbase := h.base_lt r.user
  have haligned := (h.pool r.user).aligned
  have hstart : r.start.toNat = (s.pools.pool r.user).base.toNat + 4096 * k := hk
  have htop : (s.pools.pool r.user).base.toNat +
      4096 * (s.pools.pool r.user).used_map.bit_cnt < 2 ^ 32 := hbase.2
  have hofs : pg_ofs r.start = 0#32 := by
    apply BitVec.eq_of_toNat_eq
    rw [pg_ofs_toNat, hstart]
    change _ = 0
    omega
  have hnull : ¬ (r.start = 0#32 ∨ r.cnt = 0) := by
    rintro (hzero | hzero)
    · have hto := congrArg BitVec.toNat hzero
      rw [hstart] at hto
      change _ = 0 at hto
      omega
    · omega
  -- the page number tells the pools apart
  have hno : (pg_no r.start).toNat = (s.pools.pool r.user).base.toNat / 4096 + k := by
    rw [pg_no_toNat, hstart]
    omega
  have hown : page_from_pool (s.pools.pool r.user) r.start := by
    unfold page_from_pool
    dsimp only
    rw [hno, pg_no_toNat]
    omega
  have hother : r.user = true → ¬ page_from_pool s.pools.kernel_pool r.start := by
    intro huser
    have hkernel := (h.pool false).top
    have hmap := (h.pool true).map
    have hal := (h.pool false).aligned
    have hmid : m.hi false = m.lo true := rfl
    unfold page_from_pool
    dsimp only
    rw [hno, pg_no_toNat, huser]
    rw [hP] at hkernel
    have hkpool : s.pools.kernel_pool = s.pools.pool false := rfl
    rw [hkpool]
    omega
  have hidx : (pg_no r.start - pg_no (s.pools.pool r.user).base).toNat = k := by
    have hlt := (pg_no r.start).isLt
    rw [BitVec.toNat_sub, hno, pg_no_toNat]
    rw [hno] at hlt
    omega
  -- every page of the range is marked
  have hall : bitmap_all (s.pools.pool r.user).used_map k r.cnt = .ok true := by
    refine bitmap_all_true hle fun j hj => ?_
    rw [h.marked r.user (k + j) (by omega)]
    exact ⟨r, hr, (covers_page_iff h.pool hk hle r.user (by omega)).mpr ⟨rfl, by omega, by omega⟩⟩
  obtain ⟨b, hset, hcnt, hbit⟩ := bitmap_set_multiple_spec false hle
  have hpool : ∀ user, r.user = user → free_from_pool s.pools user r.start r.cnt =
      .ok { s.pools.set_map r.user b with
        mem := memset s.pools.mem r.start 0xcc (PGSIZE * r.cnt) } := by
    rintro user rfl
    unfold free_from_pool
    dsimp only
    rw [hidx, hall, ok_bind, ASSERT_pos rfl, ok_bind, hset, ok_bind, pure_eq_ok]
    unfold Pools.set_map
    cases r.user <;> rfl
  refine ⟨k, b, memset s.pools.mem r.start 0xcc (PGSIZE * r.cnt), ?_, hk, hle, hcnt, hbit⟩
  unfold palloc_free_multiple
  rw [ASSERT_pos hofs, ok_bind, if_neg hnull]
  cases huser : r.user with
  | false =>
    rw [huser] at hown hpool
    rw [if_pos (show page_from_pool s.pools.kernel_pool r.start from hown)]
    exact hpool false rfl
  | true =>
    rw [if_neg (hother huser)]
    rw [huser] at hown hpool
    rw [if_pos (show page_from_pool s.pools.user_pool r.start from hown)]
    exact hpool true rfl

/-- Another map of the same size leaves the pools where they are. -/
theorem geometry (pools : Pools) {user : Bool} {b : Words.Bitmap} (mem : Addr → UInt8)
    (hcnt : b.bit_cnt = (pools.pool user).used_map.bit_cnt) (user' : Bool) :
    (({ pools.set_map user b with mem := mem } : Pools).pool user').used_map.bit_cnt =
        (pools.pool user').used_map.bit_cnt ∧
      ∀ i, (({ pools.set_map user b with mem := mem } : Pools).pool user').page_addr i =
        (pools.pool user').page_addr i := by
  have hpool : ({ pools.set_map user b with mem := mem } : Pools).pool user' =
      (pools.set_map user b).pool user' := by
    cases user' <;> rfl
  rw [hpool, pool_set_map]
  by_cases hu : user' = user
  · rw [if_pos hu, hu]
    exact ⟨hcnt, fun _ => rfl⟩
  · rw [if_neg hu]
    exact ⟨rfl, fun _ => rfl⟩

/-- What is to be shown of a call that changes the map of one pool. -/
theorem Inv.change (h : Inv m s) {user : Bool} {b : Words.Bitmap} (mem : Addr → UInt8)
    {live : List PageRange} (hcnt : b.bit_cnt = (s.pools.pool user).used_map.bit_cnt)
    (hrange : ∀ r ∈ live, 0 < r.cnt ∧ ∃ k, r.start.toNat = (s.pools.pool r.user).page_addr k ∧
      k + r.cnt ≤ (s.pools.pool r.user).used_map.bit_cnt)
    (hmarked : ∀ i < (s.pools.pool user).used_map.bit_cnt, b.bit i = true ↔
      ∃ r ∈ live, r.Covers ((s.pools.pool user).page_addr i))
    (hother : ∀ user', user' ≠ user → ∀ i < (s.pools.pool user').used_map.bit_cnt,
      (∃ r ∈ live, r.Covers ((s.pools.pool user').page_addr i)) ↔
        ∃ r ∈ s.live, r.Covers ((s.pools.pool user').page_addr i))
    (hdisjoint : live.Pairwise fun r r' => ∀ a, ¬ (r.Covers a ∧ r'.Covers a)) :
    Inv m ⟨{ s.pools.set_map user b with mem := mem }, live⟩ := by
  have hpool : ∀ user', ({ s.pools.set_map user b with mem := mem } : Pools).pool user' =
      if user' = user then { s.pools.pool user with used_map := b } else s.pools.pool user' := by
    intro user'
    rw [← pool_set_map]
    cases user' <;> rfl
  refine ⟨?_, ?_, ?_, hdisjoint⟩
  · intro user'
    rw [hpool]
    by_cases hu : user' = user
    · rw [if_pos hu, hu]
      exact (h.pool user).set_map hcnt
    · rw [if_neg hu]
      exact h.pool user'
  · intro r hr
    obtain ⟨hpos, k, hk, hle⟩ := hrange r hr
    obtain ⟨hsize, haddr⟩ := geometry s.pools mem hcnt r.user
    exact ⟨hpos, k, hk.trans (haddr k).symm, by rw [hsize]; exact hle⟩
  · intro user' i hi
    obtain ⟨hsize, haddr⟩ := geometry s.pools mem hcnt user'
    rw [hsize] at hi
    rw [haddr i, hpool]
    by_cases hu : user' = user
    · rw [if_pos hu, hu]
      rw [hu] at hi
      exact hmarked i hi
    · rw [if_neg hu, hother user' hu i hi]
      exact h.marked user' i hi

/-- A range that was returned. -/
theorem Inv.get_step (h : Inv m s) {user : Bool} {page_cnt i : ℕ} {b : Words.Bitmap}
    {pages : Addr} (mem : Addr → UInt8) (hpos : 0 < page_cnt)
    (hpages : pages.toNat = (s.pools.pool user).page_addr i)
    (hle : i + page_cnt ≤ (s.pools.pool user).used_map.bit_cnt)
    (hclear : ∀ k < page_cnt, (s.pools.pool user).used_map.bit (i + k) = false)
    (hcnt : b.bit_cnt = (s.pools.pool user).used_map.bit_cnt)
    (hbit : b.bit = fun j => if i ≤ j ∧ j < i + page_cnt then true
      else (s.pools.pool user).used_map.bit j) :
    Inv m ⟨{ s.pools.set_map user b with mem := mem }, ⟨user, pages, page_cnt⟩ :: s.live⟩ := by
  set r₀ : PageRange := ⟨user, pages, page_cnt⟩ with hr₀
  have hcover : ∀ user', ∀ j < (s.pools.pool user').used_map.bit_cnt,
      r₀.Covers ((s.pools.pool user').page_addr j) ↔ user' = user ∧ i ≤ j ∧ j < i + page_cnt :=
    fun user' j hj => covers_page_iff h.pool (r := r₀) hpages hle user' hj
  refine h.change mem hcnt ?_ ?_ ?_ ?_
  · intro r hr
    rcases List.mem_cons.mp hr with rfl | hr
    · exact ⟨hpos, i, hpages, hle⟩
    · exact h.range r hr
  · intro j hj
    rw [hbit, List.exists_mem_cons_iff, hcover user j hj, ← h.marked user j hj]
    by_cases hin : i ≤ j ∧ j < i + page_cnt
    · simp [hin]
    · simp [hin]
  · intro user' hu j hj
    rw [List.exists_mem_cons_iff, hcover user' j hj]
    simp [hu]
  · rw [List.pairwise_cons]
    refine ⟨?_, h.disjoint⟩
    rintro r hr a ⟨ha, ha'⟩
    -- a common byte is on a page that was clear
    obtain ⟨-, k', hk', -⟩ := h.range r hr
    obtain ⟨j, hj, hij, hji, hpage⟩ := covers_page h.pool (r := r₀) hpages hle ha
    have hmarked := (h.marked user j hj).mpr ⟨r, hr, hpage r k' hk' ha'⟩
    have hfree := hclear (j - i) (by change j < i + page_cnt at hji; omega)
    rw [show i + (j - i) = j by omega, hmarked] at hfree
    cases hfree

/-- A live range is apart from the others. -/
theorem Inv.erase_disjoint (h : Inv m s) {r : PageRange} (hr : r ∈ s.live) :
    (∀ r' ∈ s.live.erase r, ∀ a, ¬ (r.Covers a ∧ r'.Covers a)) ∧
      (s.live.erase r).Pairwise fun r r' => ∀ a, ¬ (r.Covers a ∧ r'.Covers a) := by
  have hsymm : ∀ {r r' : PageRange}, (∀ a, ¬ (r.Covers a ∧ r'.Covers a)) →
      ∀ a, ¬ (r'.Covers a ∧ r.Covers a) := fun hrr a ha => hrr a ⟨ha.2, ha.1⟩
  have hperm := ((List.perm_cons_erase hr).pairwise_iff hsymm).mp h.disjoint
  exact ⟨(List.pairwise_cons.mp hperm).1, (List.pairwise_cons.mp hperm).2⟩

/-- A range that was freed. -/
theorem Inv.free_step (h : Inv m s) {r : PageRange} (hr : r ∈ s.live) {k : ℕ} {b : Words.Bitmap}
    (mem : Addr → UInt8) (hk : r.start.toNat = (s.pools.pool r.user).page_addr k)
    (hle : k + r.cnt ≤ (s.pools.pool r.user).used_map.bit_cnt)
    (hcnt : b.bit_cnt = (s.pools.pool r.user).used_map.bit_cnt)
    (hbit : b.bit = fun j => if k ≤ j ∧ j < k + r.cnt then false
      else (s.pools.pool r.user).used_map.bit j) :
    Inv m ⟨{ s.pools.set_map r.user b with mem := mem }, s.live.erase r⟩ := by
  obtain ⟨hapart, hdisjoint⟩ := h.erase_disjoint hr
  have hrest : ∀ a, ¬ r.Covers a →
      ((∃ r' ∈ s.live.erase r, r'.Covers a) ↔ ∃ r' ∈ s.live, r'.Covers a) := by
    intro a ha
    constructor
    · rintro ⟨r', hr', hc⟩
      exact ⟨r', List.mem_of_mem_erase hr', hc⟩
    · rintro ⟨r', hr', hc⟩
      refine ⟨r', (List.mem_erase_of_ne ?_).mpr hr', hc⟩
      rintro rfl
      exact ha hc
  refine h.change mem hcnt ?_ ?_ ?_ hdisjoint
  · exact fun r' hr' => h.range r' (List.mem_of_mem_erase hr')
  · intro j hj
    have hcover := covers_page_iff h.pool hk hle r.user hj
    rw [hbit]
    by_cases hin : k ≤ j ∧ j < k + r.cnt
    · dsimp only
      rw [if_pos hin]
      refine iff_of_false (by simp) ?_
      rintro ⟨r', hr', hc⟩
      exact hapart r' hr' _ ⟨hcover.mpr ⟨rfl, hin⟩, hc⟩
    · dsimp only
      rw [if_neg hin, hrest _ (fun hc => hin (hcover.mp hc).2)]
      exact h.marked r.user j hj
  · intro user' hu j hj
    exact hrest _ (fun hc => hu ((covers_page_iff h.pool hk hle user' hj).mp hc).1)

/-- **One call** keeps the invariant. -/
theorem Inv.step (h : Inv m s) {c : Call} (hc : exec s c = .ok s') : Inv m s' := by
  cases c with
  | get flags page_cnt =>
    obtain ⟨r, hget, hret⟩ := bind_eq_ok hc
    by_cases hzero : page_cnt = 0
    · rw [hzero, palloc_get_multiple, if_pos rfl] at hget
      obtain rfl := Except.ok.inj hget
      rw [if_pos rfl] at hret
      obtain rfl := Except.ok.inj hret
      exact h
    rcases h.get_cases flags (Nat.pos_of_ne_zero hzero) with
      ⟨i, b, mem, pages, hrun, hpages, hle, hclear, hcnt, hbit⟩ | ⟨hrun, -⟩
    · obtain rfl := Except.ok.inj (hget.symm.trans hrun)
      have hne : pages ≠ 0#32 := by
        rintro rfl
        have hbase := (h.base_lt flags.pal_user).1
        unfold Pool.page_addr at hpages
        rw [BitVec.toNat_ofNat] at hpages
        omega
      dsimp only at hret
      rw [if_neg hne] at hret
      obtain rfl := Except.ok.inj hret
      exact h.get_step mem (Nat.pos_of_ne_zero hzero) hpages hle hclear hcnt hbit
    · rw [hrun] at hget
      by_cases hassert : flags.pal_assert = true
      · rw [if_pos hassert] at hget
        cases hget
      · rw [if_neg hassert] at hget
        obtain rfl := Except.ok.inj hget
        rw [if_pos rfl] at hret
        obtain rfl := Except.ok.inj hret
        exact h
  | free r =>
    rw [exec] at hc
    by_cases hr : r ∈ s.live
    · rw [if_pos hr] at hc
      obtain ⟨p, hfree, hret⟩ := bind_eq_ok hc
      obtain rfl := Except.ok.inj hret
      obtain ⟨k, b, mem, hrun, hk, hle, hcnt, hbit⟩ := h.free_spec hr
      obtain rfl := Except.ok.inj (hfree.symm.trans hrun)
      exact h.free_step hr mem hk hle hcnt hbit
    · rw [if_neg hr] at hc
      cases hc

/-- Whole runs. -/
theorem inv_of_reachable (h : Reachable (palloc_system m) (fun _ _ => True) s) : Inv m s := by
  refine h.invariant ?_ (fun _ _ _ hinv _ hstep => hinv.step hstep)
  rintro s ⟨mem, hinit, hlive⟩
  refine ⟨fun user => (palloc_init_spec hinit user).1, ?_, ?_, ?_⟩
  · intro r hr
    rw [hlive] at hr
    cases hr
  · intro user i hi
    rw [(palloc_init_spec hinit user).2 i hi, hlive]
    simp
  · rw [hlive]
    exact List.Pairwise.nil

end Step

/-! ## The page allocator -/

/-- What the page allocator promises in a state. -/
structure Sound (m : Machine) (s : State) : Prop where
  /-- No byte has two owners. -/
  disjoint : s.live.Pairwise fun r r' => ∀ a, ¬ (r.Covers a ∧ r'.Covers a)
  /-- A live range is made of pages inside the pool it was taken from, behind its bitmap. -/
  inside : ∀ r ∈ s.live, r.start.toNat % PGSIZE = 0 ∧
    m.lo r.user + bitmap_buf_size (s.pools.pool r.user).used_map.bit_cnt ≤ r.start.toNat ∧
    r.stop ≤ m.hi r.user
  /-- A call succeeds if the pool has a run of pages nobody has. -/
  get : ∀ (flags : PallocFlags) (page_cnt i : ℕ), 0 < page_cnt →
    (∀ k < page_cnt, s.FreePage flags.pal_user (i + k)) →
    ∃ pages pools, palloc_get_multiple s.pools flags page_cnt = .ok (pages, pools) ∧ pages ≠ 0#32
  /-- It returns null, or panics with `PAL_ASSERT`, if there is none. -/
  null : ∀ (flags : PallocFlags) (page_cnt : ℕ), 0 < page_cnt →
    (¬ ∃ i, ∀ k < page_cnt, s.FreePage flags.pal_user (i + k)) →
    palloc_get_multiple s.pools flags page_cnt =
      if flags.pal_assert then .error .assertion else .ok (0#32, s.pools)
  /-- Pages are available when nobody has them, and freeing a range adds its pages. -/
  available : ∀ user i, s.pools.Available user i ↔ s.FreePage user i
  free : ∀ r ∈ s.live, ∃ pools, palloc_free_multiple s.pools r.start r.cnt = .ok pools ∧
    ∀ user i, pools.Available user i ↔ s.pools.Available user i ∨
      i < (s.pools.pool user).used_map.bit_cnt ∧ r.Covers ((s.pools.pool user).page_addr i)

/-- **The page allocator** hands out disjoint ranges of its pools, and finds one exactly when
there is one. -/
theorem palloc_sound {m : Machine} {s : State}
    (h : Reachable (palloc_system m) (fun _ _ => True) s) : Sound m s := by
  have hP : PGSIZE = 4096 := rfl
  have hinv := inv_of_reachable h
  refine ⟨hinv.disjoint, ?_, ?_, ?_, hinv.available_iff, ?_⟩
  · intro r hr
    obtain ⟨-, k, hk, hle⟩ := hinv.range r hr
    obtain ⟨-, hmap, haligned, htop⟩ := hinv.pool r.user
    unfold PageRange.stop
    rw [hk]
    unfold Pool.page_addr
    rw [hP] at htop ⊢
    refine ⟨by omega, by omega, by omega⟩
  · intro flags page_cnt i hpos hfree
    rcases hinv.get_cases flags hpos with
      ⟨j, b, mem, pages, hrun, hpages, -⟩ | ⟨-, hnone⟩
    · refine ⟨pages, _, hrun, ?_⟩
      rintro rfl
      have hbase := (hinv.base_lt flags.pal_user).1
      unfold Pool.page_addr at hpages
      rw [BitVec.toNat_ofNat] at hpages
      omega
    · have hlast := (hfree (page_cnt - 1) (by omega)).1
      obtain ⟨k, hk, hbit⟩ := hnone i (by omega)
      exact absurd ((hinv.available_iff _ _).mpr (hfree k hk)).2 hbit
  · intro flags page_cnt hpos hnofree
    rcases hinv.get_cases flags hpos with
      ⟨j, b, mem, pages, -, -, hle, hclear, -⟩ | ⟨hrun, -⟩
    · refine absurd ⟨j, fun k hk => ?_⟩ hnofree
      exact (hinv.available_iff _ _).mp ⟨by omega, hclear k hk⟩
    · exact hrun
  · intro r hr
    obtain ⟨k, b, mem, hrun, hk, hle, hcnt, hbit⟩ := hinv.free_spec hr
    refine ⟨_, hrun, ?_⟩
    intro user i
    have hpool : ({ s.pools.set_map r.user b with mem := mem } : Pools).pool user =
        (s.pools.set_map r.user b).pool user := by
      cases user <;> rfl
    unfold Pools.Available
    rw [hpool, pool_set_map]
    by_cases hi : i < (s.pools.pool user).used_map.bit_cnt
    · have hcover := covers_page_iff hinv.pool hk hle user hi
      by_cases hu : user = r.user
      · rw [if_pos hu, hcover, hu, hcnt, hbit]
        rw [hu] at hi
        by_cases hin : k ≤ i ∧ i < k + r.cnt
        · simp [hi, hin]
        · simp [hi, hin]
      · rw [if_neg hu, hcover]
        simp [hu]
    · by_cases hu : user = r.user
      · rw [if_pos hu, hu, hcnt]
        rw [hu] at hi
        simp [hi]
      · rw [if_neg hu]
        simp [hi]

/-- A machine with sixteen pages behind the kernel. -/
def small_machine : Machine where
  end_ := 0xc0100800#32
  ram_pages := 273
  user_page_limit := 2 ^ 32 - 1
  kernel := by decide
  ram := by decide
  top := by decide

/-- Three pages from the kernel pool, two from the user pool, and the three freed. -/
def small_calls : List Call :=
  [.get ⟨true, false, false⟩ 3, .get ⟨false, true, true⟩ 2, .free ⟨false, 0xc0102000#32, 3⟩]

/-- Those calls, to a state with one live range. -/
def small_run (p : Pools) : Bool :=
  follow exec (fun _ _ => true) (fun s => s.live.length == 1) ⟨p, []⟩ small_calls

theorem small_run_init : ∃ p, palloc_init (fun _ => 0) small_machine.end_ small_machine.ram_pages
    small_machine.user_page_limit = .ok p ∧ small_run p = true := by
  have hrun : ((palloc_init (fun _ => 0) small_machine.end_ small_machine.ram_pages
      small_machine.user_page_limit).map small_run).toOption = some true := by decide +kernel
  cases hinit : palloc_init (fun _ => 0) small_machine.end_ small_machine.ram_pages
      small_machine.user_page_limit with
  | error e =>
    rw [hinit] at hrun
    cases hrun
  | ok p =>
    rw [hinit] at hrun
    exact ⟨p, rfl, Option.some.inj hrun⟩

/-- The state after those calls. -/
theorem palloc_sound_small : ∃ s, Reachable (palloc_system small_machine) (fun _ _ => True) s ∧
    (s.live.length == 1) = true ∧ Sound small_machine s := by
  obtain ⟨p, hinit, hrun⟩ := small_run_init
  have hstart : Reachable (palloc_system small_machine) (fun _ _ => true = true) ⟨p, []⟩ :=
    .init ⟨_, hinit, rfl⟩
  obtain ⟨s, hreach, hlive⟩ := follow_reachable (fun _ _ _ h => h) hstart hrun
  have hreach' : Reachable (palloc_system small_machine) (fun _ _ => True) s :=
    hreach.weaken (fun _ _ _ => trivial)
  exact ⟨s, hreach', hlive, palloc_sound hreach'⟩

end Pintos.Threads.Palloc
