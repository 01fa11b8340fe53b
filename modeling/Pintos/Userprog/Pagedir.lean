/-
`userprog/pagedir.c`: page directories as words in memory.

A directory is a page of 1024 words, each naming a page of 1024 words. What `palloc_get_page`
returns is an argument of the call that asks for it. `invalidate_pagedir` reloads `cr3` and
changes no word; it is left out.

The flat view is a partial map from page numbers to frames, kept by what was last set and not
cleared since. The words are tied to it by one invariant (`Inv`), in which a table appears when
its first page is set, a cleared entry keeps every bit but one, and the upper quarter of the
directory is that of the kernel.
-/
import Pintos.Library.StepSystem
import Pintos.Threads.Pte

set_option autoImplicit false

namespace Pintos.Userprog.Pagedir

open Pintos.Threads.Vaddr StepSystem

/-! ## Memory -/

/-- The words of memory, by address. -/
abbrev Mem := Addr → Entry

/-- `table + i`, for an array of words. -/
def slot (table : Addr) (i : ℕ) : Addr := table + BitVec.ofNat 32 (4 * i)

/-- Storing a word. -/
def store (mem : Mem) (a : Addr) (e : Entry) : Mem := Function.update mem a e

/-- The words of a page, all set to one value. -/
def fill_page (mem : Mem) (page : Addr) (e : Entry) : Mem :=
  fun a => if (a - page).toNat < PGSIZE then e else mem a

/-- `memcpy (dst, src, PGSIZE)`. -/
def copy_page (mem : Mem) (dst src : Addr) : Mem :=
  fun a => if (a - dst).toNat < PGSIZE then mem (a - dst + src) else mem a

/-! ## `userprog/pagedir.c` -/

/-- `pagedir_create`, with `pd` what `palloc_get_page (0)` returns. -/
def pagedir_create (mem : Mem) (base_page_dir pd : Addr) : Addr × Mem :=
  if pd ≠ 0#32 then (pd, copy_page mem pd base_page_dir) else (pd, mem)

/-- `lookup_page`, with `page` what `palloc_get_page (PAL_ZERO)` returns if it is called. The
pointer returned is null if there is no page table. -/
def lookup_page (mem : Mem) (pd vaddr : Addr) (create : Bool) (page : Addr) : Res (Addr × Mem) := do
  ASSERT (pd ≠ 0#32)
  ASSERT (create = false ∨ is_user_vaddr vaddr)
  let pde := slot pd (pd_no vaddr).toNat
  if mem pde = 0#32 then
    if create then
      if page = 0#32 then return (0#32, mem)
      else do
        let e ← pde_create page
        let mem := store (fill_page mem page 0#32) pde e
        let pt ← pde_get_pt (mem pde)
        return (slot pt (pt_no vaddr).toNat, mem)
    else return (0#32, mem)
  else do
    let pt ← pde_get_pt (mem pde)
    return (slot pt (pt_no vaddr).toNat, mem)

/-- `pagedir_set_page`. -/
def pagedir_set_page (mem : Mem) (base_page_dir : Addr) (ram_pages : ℕ) (pd upage kpage : Addr)
    (writable : Bool) (page : Addr) : Res (Bool × Mem) := do
  ASSERT (pg_ofs upage = 0#32)
  ASSERT (pg_ofs kpage = 0#32)
  ASSERT (is_user_vaddr upage)
  let p ← vtop kpage
  ASSERT ((p >>> 12).toNat < ram_pages)
  ASSERT (pd ≠ base_page_dir)
  let r ← lookup_page mem pd upage true page
  if r.1 ≠ 0#32 then do
    ASSERT (r.2 r.1 &&& PTE_P = 0#32)
    let e ← pte_create_user kpage writable
    return (true, store r.2 r.1 e)
  else return (false, r.2)

/-- `pagedir_get_page`. -/
def pagedir_get_page (mem : Mem) (pd uaddr : Addr) : Res Addr := do
  ASSERT (is_user_vaddr uaddr)
  let r ← lookup_page mem pd uaddr false 0#32
  if r.1 ≠ 0#32 ∧ r.2 r.1 &&& PTE_P ≠ 0#32 then do
    let k ← pte_get_page (r.2 r.1)
    return k + pg_ofs uaddr
  else return 0#32

/-- `pagedir_clear_page`. -/
def pagedir_clear_page (mem : Mem) (pd upage : Addr) : Res Mem := do
  ASSERT (pg_ofs upage = 0#32)
  ASSERT (is_user_vaddr upage)
  let r ← lookup_page mem pd upage false 0#32
  if r.1 ≠ 0#32 ∧ r.2 r.1 &&& PTE_P ≠ 0#32 then return store r.2 r.1 (r.2 r.1 &&& ~~~ PTE_P)
  else return r.2

/-- `pagedir_set_dirty` and `pagedir_set_accessed`, with the flag they set or clear. -/
def set_flag (flag : Entry) (mem : Mem) (pd vpage : Addr) (value : Bool) : Res Mem := do
  let r ← lookup_page mem pd vpage false 0#32
  if r.1 ≠ 0#32 then
    if value then return store r.2 r.1 (r.2 r.1 ||| flag)
    else return store r.2 r.1 (r.2 r.1 &&& ~~~ flag)
  else return r.2

/-- `pagedir_is_dirty` and `pagedir_is_accessed`, with the flag they test. -/
def is_flag (flag : Entry) (mem : Mem) (pd vpage : Addr) : Res Bool := do
  let r ← lookup_page mem pd vpage false 0#32
  return decide (r.1 ≠ 0#32 ∧ r.2 r.1 &&& flag ≠ 0#32)

/-- `pagedir_is_dirty`. -/
def pagedir_is_dirty (mem : Mem) (pd vpage : Addr) : Res Bool := is_flag PTE_D mem pd vpage

/-- `pagedir_is_accessed`. -/
def pagedir_is_accessed (mem : Mem) (pd vpage : Addr) : Res Bool := is_flag PTE_A mem pd vpage

/-- `pagedir_set_dirty`. -/
def pagedir_set_dirty (mem : Mem) (pd vpage : Addr) (dirty : Bool) : Res Mem :=
  set_flag PTE_D mem pd vpage dirty

/-- `pagedir_set_accessed`. -/
def pagedir_set_accessed (mem : Mem) (pd vpage : Addr) (accessed : Bool) : Res Mem :=
  set_flag PTE_A mem pd vpage accessed

/-- Memory, and the pages that `palloc_free_page` was called with. -/
abbrev Freed := Mem × List Addr

/-- `palloc_free_page`, which fills the page with `0xcc`. -/
def palloc_free_page (s : Freed) (page : Addr) : Freed :=
  (fill_page s.1 page 0xcccccccc#32, s.2 ++ [page])

/-- The inner loop of `pagedir_destroy`: `cnt` entries of a page table from `i` on. -/
def destroy_ptes (pt : Addr) : (cnt i : ℕ) → Freed → Res Freed
  | 0, _, s => .ok s
  | cnt + 1, i, s =>
    if s.1 (slot pt i) &&& PTE_P ≠ 0#32 then do
      let k ← pte_get_page (s.1 (slot pt i))
      destroy_ptes pt cnt (i + 1) (palloc_free_page s k)
    else destroy_ptes pt cnt (i + 1) s

/-- The outer loop: `cnt` entries of the directory from `i` on. -/
def destroy_pdes (pd : Addr) : (cnt i : ℕ) → Freed → Res Freed
  | 0, _, s => .ok s
  | cnt + 1, i, s =>
    if s.1 (slot pd i) &&& PTE_P ≠ 0#32 then do
      let pt ← pde_get_pt (s.1 (slot pd i))
      let s ← destroy_ptes pt (PGSIZE / 4) 0 s
      destroy_pdes pd cnt (i + 1) (palloc_free_page s pt)
    else destroy_pdes pd cnt (i + 1) s

/-- `pagedir_destroy`. -/
def pagedir_destroy (mem : Mem) (base_page_dir pd : Addr) : Res Freed :=
  if pd = 0#32 then .ok (mem, [])
  else do
    ASSERT (pd ≠ base_page_dir)
    let s ← destroy_pdes pd (pd_no PHYS_BASE).toNat 0 (mem, [])
    return palloc_free_page s pd

/-! ## Runs -/

/-- What `paging_init` leaves: memory, `base_page_dir`, the number of pages of memory and the
pages in use. The directory maps no user address; each of its other entries is zero or names a
page table of its own. -/
structure Boot where
  mem : Mem
  base_page_dir : Addr
  ram_pages : ℕ
  used : Addr → Prop
  base_page : IsPage base_page_dir
  base_used : used base_page_dir
  user : ∀ i < 768, mem (slot base_page_dir i) = 0#32
  kernel : ∀ i, 768 ≤ i → i < 1024 → mem (slot base_page_dir i) ≠ 0#32 →
    ∃ pt, IsPage pt ∧ used pt ∧ pt ≠ base_page_dir ∧
      pde_create pt = .ok (mem (slot base_page_dir i))
  distinct : ∀ i j, 768 ≤ i → i < 1024 → 768 ≤ j → j < 1024 → mem (slot base_page_dir i) ≠ 0#32 →
    mem (slot base_page_dir i) = mem (slot base_page_dir j) → i = j

/-- A directory, and the frame each user page has according to the calls made so far, by
page number. -/
structure State where
  mem : Mem
  pd : Addr
  frames : ℕ → Option Addr

/-- One call. `page` is the page `palloc_get_page` has for it, or null. -/
inductive Call
  | set_page (upage kpage : Addr) (writable : Bool) (page : Addr)
  | clear_page (upage : Addr)
  | set_dirty (vpage : Addr) (dirty : Bool)
  | set_accessed (vpage : Addr) (accessed : Bool)

/-- The page a call is about. -/
def Call.page : Call → Addr
  | .set_page upage _ _ _ => upage
  | .clear_page upage => upage
  | .set_dirty vpage _ => vpage
  | .set_accessed vpage _ => vpage

/-- The page table an entry of a directory names, null if there is none. -/
def table (mem : Mem) (pd : Addr) (i : ℕ) : Addr :=
  if mem (slot pd i) = 0#32 then 0#32 else (mem (slot pd i) &&& PTE_ADDR) + PHYS_BASE

/-- The pages a directory is made of, and those that were in use before it. -/
def Own (b : Boot) (s : State) (a : Addr) : Prop :=
  a = s.pd ∨ b.used a ∨ ∃ i < 768, table s.mem s.pd i = a

/-- What callers and `palloc_get_page` see to: a frame is a page of memory that holds no part
of a directory, a page that is returned is in no use, and the page that is set is not mapped. -/
def Enabled (b : Boot) (s : State) : Call → Prop
  | .set_page upage kpage _ page =>
    IsPage kpage ∧ ¬ Own b s kpage ∧ kpage ≠ page ∧ s.frames (pg_no upage).toNat = none ∧
      (page = 0#32 ∨ IsPage page ∧ ¬ Own b s page ∧ ∀ p, s.frames p ≠ some page)
  | _ => True

/-- What a call does to memory and to the map. -/
def exec (b : Boot) (s : State) : Call → Res State
  | .set_page upage kpage writable page => do
    let r ← pagedir_set_page s.mem b.base_page_dir b.ram_pages s.pd upage kpage writable page
    return { s with
      mem := r.2
      frames := if r.1 then Function.update s.frames (pg_no upage).toNat (some kpage)
        else s.frames }
  | .clear_page upage => do
    let mem ← pagedir_clear_page s.mem s.pd upage
    return { s with mem := mem, frames := Function.update s.frames (pg_no upage).toNat none }
  | .set_dirty vpage dirty => do
    let mem ← pagedir_set_dirty s.mem s.pd vpage dirty
    return { s with mem := mem }
  | .set_accessed vpage accessed => do
    let mem ← pagedir_set_accessed s.mem s.pd vpage accessed
    return { s with mem := mem }

/-- Runs start with a directory in a page that was free. -/
def pagedir_system (b : Boot) : System State Call where
  init s := IsPage s.pd ∧ ¬ b.used s.pd ∧
    pagedir_create b.mem b.base_page_dir s.pd = (s.pd, s.mem) ∧ s.frames = fun _ => none
  step s c s' := Enabled b s c ∧ exec b s c = .ok s'

/-! ## Words in pages -/

section Words

variable {mem : Mem} {p q : Addr} {i j : ℕ} {e : Entry}

theorem slot_toNat (hp : IsPage p) (hi : i < 1024) : (slot p i).toNat = p.toNat + 4 * i := by
  have haligned := hp.aligned
  have hlt := p.isLt
  exact toNat_add_ofNat (by omega)

/-- Words of different pages, or with different numbers, are different words. -/
theorem slot_inj (hp : IsPage p) (hq : IsPage q) (hi : i < 1024) (hj : j < 1024) :
    slot q j = slot p i ↔ q = p ∧ j = i := by
  constructor
  · intro he
    have hto := congrArg BitVec.toNat he
    rw [slot_toNat hp hi, slot_toNat hq hj] at hto
    have h1 := hp.aligned
    have h2 := hq.aligned
    exact ⟨BitVec.eq_of_toNat_eq (by omega), by omega⟩
  · rintro ⟨rfl, rfl⟩
    rfl

theorem slot_ne_null (hp : IsPage p) (hi : i < 1024) : slot p i ≠ 0#32 := by
  intro he
  have hto := congrArg BitVec.toNat he
  rw [slot_toNat hp hi] at hto
  have hkernel := hp.kernel
  simp at hto
  omega

theorem store_slot (hp : IsPage p) (hq : IsPage q) (hi : i < 1024) (hj : j < 1024) :
    store mem (slot p i) e (slot q j) = if q = p ∧ j = i then e else mem (slot q j) := by
  unfold store
  by_cases h : q = p ∧ j = i
  · rw [if_pos h, (slot_inj hp hq hi hj).mpr h, Function.update_self]
  · rw [if_neg h, Function.update_of_ne (mt (slot_inj hp hq hi hj).mp h)]

/-- A word is inside a page when it is a word of that page. -/
theorem slot_sub_lt (hp : IsPage p) (hq : IsPage q) (hj : j < 1024) :
    (slot q j - p).toNat < PGSIZE ↔ q = p := by
  have hP : PGSIZE = 4096 := rfl
  have h1 := hp.aligned
  have h2 := hq.aligned
  have hlt := p.isLt
  have hlt' := q.isLt
  rw [BitVec.toNat_sub, slot_toNat hq hj, hP]
  constructor
  · intro h
    exact BitVec.eq_of_toNat_eq (by omega)
  · rintro rfl
    omega

theorem fill_page_slot (hp : IsPage p) (hq : IsPage q) (hj : j < 1024) :
    fill_page mem p e (slot q j) = if q = p then e else mem (slot q j) := by
  unfold fill_page
  by_cases h : q = p
  · rw [if_pos h, if_pos ((slot_sub_lt hp hq hj).mpr h)]
  · rw [if_neg h, if_neg (mt (slot_sub_lt hp hq hj).mp h)]

theorem copy_page_slot {src : Addr} (hp : IsPage p) (hq : IsPage q) (hj : j < 1024) :
    copy_page mem p src (slot q j) = if q = p then mem (slot src j) else mem (slot q j) := by
  unfold copy_page
  by_cases h : q = p
  · rw [if_pos h, if_pos ((slot_sub_lt hp hq hj).mpr h), h]
    congr 1
    unfold slot
    rw [BitVec.add_comm p, BitVec.add_sub_cancel, BitVec.add_comm]
  · rw [if_neg h, if_neg (mt (slot_sub_lt hp hq hj).mp h)]

end Words

/-! ## Entries -/

/-- The bits of an entry that say where a page is and what may be done with it: all but those
for "accessed" and "dirty". -/
def CORE : Entry := ~~~ (PTE_A ||| PTE_D)

/-- The word of a page table that `pde_create` makes. -/
theorem pde_create_eq {pt : Addr} (h : IsPage pt) :
    pde_create pt = .ok (frame pt ||| (PTE_U ||| PTE_P ||| PTE_W)) := by
  rw [pde_create, ASSERT_pos h.pg_ofs, ok_bind, h.vtop, ok_bind, pure_eq_ok, BitVec.or_assoc,
    BitVec.or_assoc, BitVec.or_assoc]

/-- What `pde_create` makes names the page table and is present. -/
theorem pde_create_spec {pt : Addr} {e : Entry} (h : IsPage pt) (he : pde_create pt = .ok e) :
    e ≠ 0#32 ∧ pde_get_pt e = .ok pt ∧ (e &&& PTE_ADDR) + PHYS_BASE = pt ∧ e &&& PTE_P ≠ 0#32 := by
  rw [pde_create_eq h] at he
  obtain rfl := Except.ok.inj he
  have haddr : (frame pt ||| (PTE_U ||| PTE_P ||| PTE_W)) &&& PTE_ADDR = frame pt :=
    h.addr_of_or rfl
  have hpresent : (frame pt ||| (PTE_U ||| PTE_P ||| PTE_W)) &&& PTE_P = PTE_P := by
    rw [BitVec.and_or_distrib_right, h.frame_and rfl, BitVec.zero_or]
    rfl
  have hne : PTE_P ≠ 0#32 := by decide
  refine ⟨?_, ?_, ?_, by rw [hpresent]; exact hne⟩
  · intro hzero
    rw [hzero, BitVec.zero_and] at hpresent
    exact hne hpresent.symm
  · rw [pde_get_pt, hpresent, ASSERT_pos hne, ok_bind, haddr, h.ptov]
  · rw [haddr, frame, BitVec.sub_add_cancel]

/-- Two page tables have different words. -/
theorem pde_create_inj {pt pt' : Addr} {e : Entry} (h : IsPage pt) (h' : IsPage pt')
    (he : pde_create pt = .ok e) (he' : pde_create pt' = .ok e) : pt = pt' := by
  rw [← (pde_create_spec h he).2.2.1, ← (pde_create_spec h' he').2.2.1]

/-- An entry for a frame, or for none. -/
def EntryOk (e : Entry) : Option Addr → Prop
  | none => e &&& PTE_P = 0#32
  | some k => e &&& PTE_P ≠ 0#32 ∧ e &&& PTE_ADDR = frame k

/-- What `pte_create_user` makes is an entry for its frame. -/
theorem pte_create_user_spec {k : Addr} (h : IsPage k) (writable : Bool) :
    ∃ e, pte_create_user k writable = .ok e ∧ EntryOk e (some k) := by
  refine ⟨frame k ||| PTE_P ||| (if writable then PTE_W else 0#32) ||| PTE_U, ?_, ?_, ?_⟩
  · rw [pte_create_user, pte_create_kernel, ASSERT_pos h.pg_ofs, ok_bind, h.vtop, ok_bind,
      pure_eq_ok, ok_bind, pure_eq_ok]
  · rw [BitVec.or_assoc, BitVec.or_assoc, BitVec.and_or_distrib_right, h.frame_and rfl,
      BitVec.zero_or]
    cases writable <;> decide
  · rw [BitVec.or_assoc, BitVec.or_assoc]
    apply h.addr_of_or
    cases writable <;> rfl

/-- Under a mask that a flag is no part of, setting and clearing the flag does nothing. -/
theorem flag_and {flag mask : Entry} (h : flag &&& mask = 0#32) (h' : ~~~ flag &&& mask = mask)
    (e : Entry) : (e ||| flag) &&& mask = e &&& mask ∧ (e &&& ~~~ flag) &&& mask = e &&& mask := by
  constructor
  · rw [BitVec.and_or_distrib_right, h, BitVec.or_zero]
  · rw [BitVec.and_assoc, h']

/-! ## The two levels -/

/-- Entry `j` of table `i`, zero where there is no table. -/
def pte (mem : Mem) (pd : Addr) (i j : ℕ) : Entry :=
  if mem (slot pd i) = 0#32 then 0#32 else mem (slot (table mem pd i) j)

/-- A directory whose tables are pages of their own: new ones for user pages, those of the
kernel for the rest. -/
structure DirOk (b : Boot) (mem : Mem) (pd : Addr) : Prop where
  page : IsPage pd
  fresh : ¬ b.used pd
  tables : ∀ i < 1024, mem (slot pd i) ≠ 0#32 → ∃ pt, IsPage pt ∧
    pde_create pt = .ok (mem (slot pd i)) ∧ pt ≠ pd ∧ (b.used pt ↔ 768 ≤ i)
  distinct : ∀ i < 1024, ∀ j < 1024, mem (slot pd i) ≠ 0#32 →
    mem (slot pd i) = mem (slot pd j) → i = j
  kernel : ∀ i, 768 ≤ i → i < 1024 → mem (slot pd i) = b.mem (slot b.base_page_dir i)

section Directory

variable {b : Boot} {mem mem' : Mem} {pd : Addr} {i j : ℕ}

theorem DirOk.table (h : DirOk b mem pd) (hi : i < 1024) (hne : mem (slot pd i) ≠ 0#32) :
    IsPage (table mem pd i) ∧ pde_create (table mem pd i) = .ok (mem (slot pd i)) ∧
      pde_get_pt (mem (slot pd i)) = .ok (table mem pd i) ∧ table mem pd i ≠ pd ∧
      (b.used (table mem pd i) ↔ 768 ≤ i) := by
  obtain ⟨pt, hpt, hcreate, hpd, hused⟩ := h.tables i hi hne
  obtain ⟨-, hget, haddr, -⟩ := pde_create_spec hpt hcreate
  have htable : Pagedir.table mem pd i = pt := by
    rw [Pagedir.table, if_neg hne, haddr]
  rw [htable]
  exact ⟨hpt, hcreate, hget, hpd, hused⟩

/-- No two entries name the same table. -/
theorem DirOk.table_inj (h : DirOk b mem pd) (hi : i < 1024) (hj : j < 1024)
    (hnei : mem (slot pd i) ≠ 0#32) (hnej : mem (slot pd j) ≠ 0#32)
    (he : Pagedir.table mem pd i = Pagedir.table mem pd j) : i = j := by
  obtain ⟨-, hi', -⟩ := h.table hi hnei
  obtain ⟨-, hj', -⟩ := h.table hj hnej
  rw [he, hj'] at hi'
  exact h.distinct i hi j hj hnei (Except.ok.inj hi').symm

theorem pd_no_lt (va : Addr) : (pd_no va).toNat < 1024 := by
  have hlt := va.isLt
  rw [pd_no_toNat]
  omega

theorem pt_no_lt (va : Addr) : (pt_no va).toNat < 1024 := by
  rw [pt_no_toNat]
  omega

/-- The page number of an address, from its two indices. -/
theorem page_no_eq (va : Addr) :
    (pg_no va).toNat = 1024 * (pd_no va).toNat + (pt_no va).toNat := by
  rw [pg_no_toNat, pd_no_toNat, pt_no_toNat]
  omega

theorem pd_no_user {va : Addr} : is_user_vaddr va ↔ (pd_no va).toNat < 768 := by
  have hlt := va.isLt
  rw [is_user_vaddr, BitVec.lt_def, toNat_PHYS_BASE, pd_no_toNat]
  omega

/-- **`lookup_page`** without creating. -/
theorem DirOk.lookup (h : DirOk b mem pd) (va page : Addr) :
    lookup_page mem pd va false page = .ok (if mem (slot pd (pd_no va).toNat) = 0#32 then 0#32
      else slot (Pagedir.table mem pd (pd_no va).toNat) (pt_no va).toNat, mem) := by
  unfold lookup_page
  rw [ASSERT_pos h.page.ne_null, ok_bind, ASSERT_pos (Or.inl rfl), ok_bind]
  dsimp only
  by_cases hnone : mem (slot pd (pd_no va).toNat) = 0#32
  · rw [if_pos hnone, if_pos hnone, if_neg (by simp)]
    rfl
  · rw [if_neg hnone, if_neg hnone, (h.table (pd_no_lt va) hnone).2.2.1, ok_bind]
    rfl

/-- Memory in which the words of the directory are the same. -/
theorem DirOk.congr (h : DirOk b mem pd) (hsame : ∀ i < 1024, mem' (slot pd i) = mem (slot pd i)) :
    DirOk b mem' pd ∧ ∀ i < 1024, Pagedir.table mem' pd i = Pagedir.table mem pd i := by
  refine ⟨⟨h.page, h.fresh, ?_, ?_, ?_⟩, ?_⟩
  · intro i hi hne
    rw [hsame i hi] at hne ⊢
    exact h.tables i hi hne
  · intro i hi j hj hne he
    rw [hsame i hi] at hne he
    rw [hsame j hj] at he
    exact h.distinct i hi j hj hne he
  · intro i hlo hi
    rw [hsame i hi]
    exact h.kernel i hlo hi
  · intro i hi
    unfold Pagedir.table
    rw [hsame i hi]

/-- Storing an entry in a table. -/
theorem DirOk.store (h : DirOk b mem pd) (hi : i < 1024) (hj : j < 1024)
    (hne : mem (slot pd i) ≠ 0#32) (e : Entry) :
    DirOk b (store mem (slot (Pagedir.table mem pd i) j) e) pd ∧
    (∀ k < 1024, Pagedir.table (store mem (slot (Pagedir.table mem pd i) j) e) pd k =
      Pagedir.table mem pd k) ∧
    ∀ k < 1024, ∀ l < 1024, pte (store mem (slot (Pagedir.table mem pd i) j) e) pd k l =
      if k = i ∧ l = j then e else pte mem pd k l := by
  obtain ⟨hpage, -, -, hpd, -⟩ := h.table hi hne
  have hsame : ∀ k < 1024, Pagedir.store mem (slot (Pagedir.table mem pd i) j) e (slot pd k) =
      mem (slot pd k) := by
    intro k hk
    rw [store_slot hpage h.page hj hk, if_neg (fun hc => hpd hc.1.symm)]
  obtain ⟨hdir, htable⟩ := h.congr hsame
  refine ⟨hdir, htable, ?_⟩
  intro k hk l hl
  unfold pte
  rw [hsame k hk, htable k hk]
  by_cases hnone : mem (slot pd k) = 0#32
  · rw [if_pos hnone, if_pos hnone, if_neg (by rintro ⟨rfl, -⟩; exact hne hnone)]
  · obtain ⟨hpage', -⟩ := h.table hk hnone
    rw [if_neg hnone, store_slot hpage hpage' hj hl]
    by_cases hki : k = i
    · rw [hki, if_neg hne]
      simp
    · rw [if_neg (fun hc => hki (h.table_inj hk hi hnone hne hc.1)), if_neg (fun hc => hki hc.1),
        if_neg hnone]

/-- Adding an empty table. -/
theorem DirOk.add_table (h : DirOk b mem pd) (hi : i < 768) (hnone : mem (slot pd i) = 0#32)
    {page : Addr} (hpage : IsPage page) (hpd : page ≠ pd) (hused : ¬ b.used page)
    (hnew : ∀ k < 768, Pagedir.table mem pd k ≠ page) {e : Entry} (he : pde_create page = .ok e) :
    DirOk b (Pagedir.store (fill_page mem page 0#32) (slot pd i) e) pd ∧
    (∀ k < 1024, Pagedir.table (Pagedir.store (fill_page mem page 0#32) (slot pd i) e) pd k =
      if k = i then page else Pagedir.table mem pd k) ∧
    ∀ k < 1024, ∀ l < 1024, pte (Pagedir.store (fill_page mem page 0#32) (slot pd i) e) pd k l =
      pte mem pd k l := by
  set mem₁ := Pagedir.store (fill_page mem page 0#32) (slot pd i) e with hmem₁
  have hi' : i < 1024 := by omega
  obtain ⟨hene, -, haddr, -⟩ := pde_create_spec hpage he
  have hword : ∀ k < 1024, mem₁ (slot pd k) = if k = i then e else mem (slot pd k) := by
    intro k hk
    rw [hmem₁, store_slot h.page h.page hi' hk, fill_page_slot hpage h.page hk,
      if_neg (Ne.symm hpd)]
    simp
  have htable : ∀ k < 1024, Pagedir.table mem₁ pd k =
      if k = i then page else Pagedir.table mem pd k := by
    intro k hk
    unfold Pagedir.table
    rw [hword k hk]
    by_cases hki : k = i
    · rw [if_pos hki, if_pos hki, if_neg hene, haddr]
    · rw [if_neg hki, if_neg hki]
  -- no other entry has the word of the new table
  have hother : ∀ k < 1024, mem (slot pd k) ≠ 0#32 → mem (slot pd k) ≠ e := by
    intro k hk hne hke
    obtain ⟨hkpage, hcreate, -, -, hkused⟩ := h.table hk hne
    rw [hke] at hcreate
    have hsame := pde_create_inj hkpage hpage hcreate he
    by_cases hlow : k < 768
    · exact hnew k hlow hsame
    · exact hused (hsame ▸ hkused.mpr (by omega))
  refine ⟨⟨h.page, h.fresh, ?_, ?_, ?_⟩, htable, ?_⟩
  · intro k hk hne
    rw [hword k hk] at hne ⊢
    by_cases hki : k = i
    · rw [if_pos hki]
      exact ⟨page, hpage, he, hpd, iff_of_false hused (by omega)⟩
    · rw [if_neg hki] at hne ⊢
      exact h.tables k hk hne
  · intro k hk l hl hne heq
    rw [hword k hk] at hne heq
    rw [hword l hl] at heq
    by_cases hki : k = i
    · by_cases hli : l = i
      · rw [hki, hli]
      · rw [if_pos hki, if_neg hli] at heq
        exact absurd heq.symm (hother l hl (by rw [← heq]; exact hene))
    · rw [if_neg hki] at hne heq
      by_cases hli : l = i
      · rw [if_pos hli] at heq
        exact absurd heq (hother k hk hne)
      · rw [if_neg hli] at heq
        exact h.distinct k hk l hl hne heq
  · intro k hlo hk
    rw [hword k hk, if_neg (by omega)]
    exact h.kernel k hlo hk
  · intro k hk l hl
    unfold pte
    rw [htable k hk, hword k hk]
    by_cases hki : k = i
    · -- the new table is as empty as no table
      rw [if_pos hki, if_pos hki, if_neg hene, hki, if_pos hnone, hmem₁,
        store_slot h.page hpage hi' hl, if_neg (fun hc => hpd hc.1), fill_page_slot hpage hpage hl,
        if_pos rfl]
    · rw [if_neg hki, if_neg hki]
      by_cases hne : mem (slot pd k) = 0#32
      · rw [if_pos hne, if_pos hne]
      · obtain ⟨hkpage, -, -, hkpd, hkused⟩ := h.table hk hne
        have hkp : Pagedir.table mem pd k ≠ page := by
          by_cases hlow : k < 768
          · exact hnew k hlow
          · intro hsame
            exact hused (hsame ▸ hkused.mpr (by omega))
        rw [if_neg hne, if_neg hne, hmem₁, store_slot h.page hkpage hi' hl,
          if_neg (fun hc => hkpd hc.1), fill_page_slot hpage hkpage hl, if_neg hkp]

end Directory

/-! ## The invariant -/

/-- The words behind the flat map. -/
structure Inv (b : Boot) (s : State) : Prop where
  dir : DirOk b s.mem s.pd
  kernel : ∀ i, 768 ≤ i → i < 1024 → ∀ j < 1024,
    pte s.mem s.pd i j &&& CORE = pte b.mem b.base_page_dir i j &&& CORE
  entries : ∀ i < 768, ∀ j < 1024, EntryOk (pte s.mem s.pd i j) (s.frames (1024 * i + j))
  frames : ∀ p k, s.frames p = some k → p < 768 * 1024 ∧ IsPage k ∧ ¬ Own b s k

section Step

variable {b : Boot} {s s' : State}

/-- The page directory as it is created. -/
theorem inv_init (hs : (pagedir_system b).init s) : Inv b s := by
  obtain ⟨hpage, hfresh, hcreate, hframes⟩ := hs
  rw [pagedir_create, if_pos hpage.ne_null] at hcreate
  have hmem : copy_page b.mem s.pd b.base_page_dir = s.mem := (Prod.mk.inj hcreate).2
  have hword : ∀ i < 1024, s.mem (slot s.pd i) = b.mem (slot b.base_page_dir i) := by
    intro i hi
    rw [← hmem, copy_page_slot hpage hpage hi, if_pos rfl]
  have hlow : ∀ i < 1024, s.mem (slot s.pd i) ≠ 0#32 → 768 ≤ i := by
    intro i hi hne
    by_contra hlt
    rw [hword i hi] at hne
    exact hne (b.user i (by omega))
  have hdir : DirOk b s.mem s.pd := by
    refine ⟨hpage, hfresh, ?_, ?_, fun i _ hi => hword i hi⟩
    · intro i hi hne
      have hle := hlow i hi hne
      rw [hword i hi] at hne ⊢
      obtain ⟨pt, hpt, hused, -, hcreate⟩ := b.kernel i hle hi hne
      refine ⟨pt, hpt, hcreate, ?_, iff_of_true hused hle⟩
      rintro rfl
      exact hfresh hused
    · intro i hi j hj hne he
      have hlei := hlow i hi hne
      have hlej := hlow j hj (by rw [← he]; exact hne)
      rw [hword i hi] at hne he
      rw [hword j hj] at he
      exact b.distinct i j hlei hi hlej hj hne he
  refine ⟨hdir, ?_, ?_, ?_⟩
  · intro i hlo hi j hj
    unfold pte
    rw [hword i hi]
    by_cases hnone : b.mem (slot b.base_page_dir i) = 0#32
    · rw [if_pos hnone, if_pos hnone]
    · have hne : s.mem (slot s.pd i) ≠ 0#32 := by
        rw [hword i hi]
        exact hnone
      obtain ⟨htpage, -, -, htpd, -⟩ := hdir.table hi hne
      have htable : table s.mem s.pd i = table b.mem b.base_page_dir i := by
        unfold table
        rw [hword i hi]
      rw [if_neg hnone, if_neg hnone, ← hmem, copy_page_slot hpage (by rw [hmem]; exact htpage) hj,
        hmem, if_neg htpd, htable]
  · intro i hi j hj
    rw [hframes]
    unfold pte
    rw [hword i (by omega), if_pos (b.user i hi)]
    exact BitVec.zero_and
  · intro p k hk
    rw [hframes] at hk
    cases hk

/-- A frame of the map is outside the directory as long as the directory has the same pages. -/
theorem Own.congr {mem : Mem} (frames : ℕ → Option Addr)
    (htable : ∀ i < 1024, table mem s.pd i = table s.mem s.pd i) (a : Addr) :
    Own b { s with mem := mem, frames := frames } a ↔ Own b s a := by
  unfold Own
  refine or_congr_right (or_congr_right ?_)
  constructor
  · rintro ⟨i, hi, he⟩
    exact ⟨i, hi, by rw [← htable i (by omega)]; exact he⟩
  · rintro ⟨i, hi, he⟩
    exact ⟨i, hi, by rw [htable i (by omega)]; exact he⟩

/-- Storing an entry: a user entry for what the map says of its page, or a kernel entry that
differs in the two usage bits. -/
theorem Inv.store (h : Inv b s) {i j : ℕ} (hi : i < 1024) (hj : j < 1024)
    (hne : s.mem (slot s.pd i) ≠ 0#32) {e : Entry} {frames : ℕ → Option Addr}
    (huser : i < 768 → EntryOk e (frames (1024 * i + j)))
    (hkernel : 768 ≤ i → e &&& CORE = pte s.mem s.pd i j &&& CORE)
    (hother : ∀ p, p ≠ 1024 * i + j → frames p = s.frames p)
    (hnew : ∀ k, frames (1024 * i + j) = some k → i < 768 ∧ IsPage k ∧ ¬ Own b s k) :
    Inv b { s with
      mem := Pagedir.store s.mem (slot (table s.mem s.pd i) j) e, frames := frames } := by
  obtain ⟨hdir, htable, hpte⟩ := h.dir.store hi hj hne e
  refine ⟨hdir, ?_, ?_, ?_⟩
  · intro k hlo hk l hl
    change pte _ s.pd k l &&& CORE = _
    rw [hpte k hk l hl]
    by_cases hkl : k = i ∧ l = j
    · obtain ⟨rfl, rfl⟩ := hkl
      rw [if_pos ⟨rfl, rfl⟩, hkernel hlo]
      exact h.kernel k hlo hk l hl
    · rw [if_neg hkl]
      exact h.kernel k hlo hk l hl
  · intro k hk l hl
    change EntryOk (pte _ s.pd k l) (frames (1024 * k + l))
    rw [hpte k (by omega) l hl]
    by_cases hkl : k = i ∧ l = j
    · obtain ⟨rfl, rfl⟩ := hkl
      rw [if_pos ⟨rfl, rfl⟩]
      exact huser hk
    · rw [if_neg hkl, hother _ (by omega)]
      exact h.entries k hk l hl
  · intro p k hk
    change frames p = some k at hk
    rw [Own.congr frames htable]
    by_cases hp : p = 1024 * i + j
    · rw [hp] at hk ⊢
      obtain ⟨hlow, hpage, hown⟩ := hnew k hk
      exact ⟨by omega, hpage, hown⟩
    · rw [hother p hp] at hk
      exact h.frames p k hk

/-- `lookup_page` without creating, for the calls below: no table, or an entry of one. -/
theorem Inv.lookup_cases (h : Inv b s) (va : Addr) :
    (s.mem (slot s.pd (pd_no va).toNat) = 0#32 ∧
      lookup_page s.mem s.pd va false 0#32 = .ok (0#32, s.mem)) ∨
    (s.mem (slot s.pd (pd_no va).toNat) ≠ 0#32 ∧
      slot (table s.mem s.pd (pd_no va).toNat) (pt_no va).toNat ≠ 0#32 ∧
      s.mem (slot (table s.mem s.pd (pd_no va).toNat) (pt_no va).toNat) =
        pte s.mem s.pd (pd_no va).toNat (pt_no va).toNat ∧
      lookup_page s.mem s.pd va false 0#32 =
        .ok (slot (table s.mem s.pd (pd_no va).toNat) (pt_no va).toNat, s.mem)) := by
  rw [h.dir.lookup]
  by_cases hnone : s.mem (slot s.pd (pd_no va).toNat) = 0#32
  · left
    exact ⟨hnone, by rw [if_pos hnone]⟩
  · right
    have hpage := (h.dir.table (pd_no_lt va) hnone).1
    exact ⟨hnone, slot_ne_null hpage (pt_no_lt va), by rw [pte, if_neg hnone], by rw [if_neg hnone]⟩

/-- **`pagedir_get_page`** is the flat map. -/
theorem Inv.get (h : Inv b s) {va : Addr} (hva : is_user_vaddr va) :
    pagedir_get_page s.mem s.pd va = .ok (match s.frames (pg_no va).toNat with
      | some k => k + pg_ofs va
      | none => 0#32) := by
  have hentry := h.entries _ (pd_no_user.mp hva) _ (pt_no_lt va)
  rw [← page_no_eq] at hentry
  unfold pagedir_get_page
  rw [ASSERT_pos hva, ok_bind]
  rcases h.lookup_cases va with ⟨hnone, hrun⟩ | ⟨hne, hptr, hword, hrun⟩
  · -- without a table nothing is mapped
    have hframe : s.frames (pg_no va).toNat = none := by
      cases hf : s.frames (pg_no va).toNat with
      | none => rfl
      | some k =>
        rw [hf, pte, if_pos hnone] at hentry
        exact absurd BitVec.zero_and hentry.1
    rw [hrun, ok_bind, hframe, if_neg (by simp)]
    rfl
  · rw [← hword] at hentry
    rw [hrun, ok_bind]
    cases hf : s.frames (pg_no va).toNat with
    | none =>
      rw [hf] at hentry
      rw [if_neg (fun hc => hc.2 hentry)]
      rfl
    | some k =>
      rw [hf] at hentry
      obtain ⟨-, hpage, -⟩ := h.frames _ k hf
      rw [if_pos ⟨hptr, hentry.1⟩]
      dsimp only
      rw [pte_get_page, hentry.2, hpage.ptov, ok_bind]
      rfl

/-- What a call on the page of `va` may do: the invariant stays, and other entries do. -/
structure Stepped (b : Boot) (s s' : State) (va : Addr) : Prop where
  inv : Inv b s'
  pd : s'.pd = s.pd
  others : ∀ i < 1024, ∀ j < 1024, ¬ (i = (pd_no va).toNat ∧ j = (pt_no va).toNat) →
    pte s'.mem s'.pd i j = pte s.mem s.pd i j

/-- Nothing happens. -/
theorem Inv.stay (h : Inv b s) (va : Addr) : Stepped b s s va := ⟨h, rfl, fun _ _ _ _ _ => rfl⟩

/-- The entry of `va` is replaced. -/
theorem Inv.replace (h : Inv b s) {va : Addr} (hne : s.mem (slot s.pd (pd_no va).toNat) ≠ 0#32)
    {e : Entry} {frames : ℕ → Option Addr}
    (huser : is_user_vaddr va → EntryOk e (frames (pg_no va).toNat))
    (hkernel : ¬ is_user_vaddr va →
      e &&& CORE = pte s.mem s.pd (pd_no va).toNat (pt_no va).toNat &&& CORE)
    (hother : ∀ p, p ≠ (pg_no va).toNat → frames p = s.frames p)
    (hnew : ∀ k, frames (pg_no va).toNat = some k → is_user_vaddr va ∧ IsPage k ∧ ¬ Own b s k) :
    Stepped b s { s with
      mem := Pagedir.store s.mem (slot (table s.mem s.pd (pd_no va).toNat) (pt_no va).toNat) e
      frames := frames } va := by
  rw [page_no_eq] at huser hother hnew
  rw [pd_no_user] at huser hkernel
  simp only [pd_no_user] at hnew
  refine ⟨h.store (pd_no_lt va) (pt_no_lt va) hne huser (fun hle => hkernel (by omega)) hother hnew,
    rfl, ?_⟩
  intro i hi j hj hout
  have hpte := (h.dir.store (pd_no_lt va) (pt_no_lt va) hne e).2.2 i hi j hj
  rw [if_neg hout] at hpte
  exact hpte

/-- **`pagedir_clear_page`.** -/
theorem Inv.clear (h : Inv b s) {va : Addr} (hva : is_user_vaddr va) (halign : pg_ofs va = 0#32) :
    ∃ mem, pagedir_clear_page s.mem s.pd va = .ok mem ∧ Stepped b s
      { s with mem := mem, frames := Function.update s.frames (pg_no va).toNat none } va := by
  have hentry := h.entries _ (pd_no_user.mp hva) _ (pt_no_lt va)
  rw [← page_no_eq] at hentry
  unfold pagedir_clear_page
  rw [ASSERT_pos halign, ok_bind, ASSERT_pos hva, ok_bind]
  -- a page that is not mapped stays so
  have habsent : pte s.mem s.pd (pd_no va).toNat (pt_no va).toNat &&& PTE_P = 0#32 →
      Stepped b s { s with
        mem := s.mem, frames := Function.update s.frames (pg_no va).toNat none } va := by
    intro hP
    have hframe : s.frames (pg_no va).toNat = none := by
      cases hf : s.frames (pg_no va).toNat with
      | none => rfl
      | some k =>
        rw [hf] at hentry
        exact absurd hP hentry.1
    have hsame : Function.update s.frames (pg_no va).toNat none = s.frames := by
      rw [← hframe, Function.update_eq_self]
    rw [hsame]
    exact h.stay va
  rcases h.lookup_cases va with ⟨hnone, hrun⟩ | ⟨hne, hptr, hword, hrun⟩
  · refine ⟨s.mem, ?_, habsent ?_⟩
    · rw [hrun, ok_bind, if_neg (by simp)]
      rfl
    · rw [pte, if_pos hnone]
      exact BitVec.zero_and
  · rw [hrun, ok_bind]
    dsimp only
    by_cases hP : s.mem (slot (table s.mem s.pd (pd_no va).toNat) (pt_no va).toNat) &&& PTE_P = 0#32
    · refine ⟨s.mem, ?_, habsent (by rw [← hword]; exact hP)⟩
      rw [if_neg (fun hc => hc.2 hP)]
      rfl
    · rw [if_pos ⟨hptr, hP⟩]
      refine ⟨_, rfl, h.replace hne ?_ ?_ ?_ ?_⟩
      · intro _
        rw [Function.update_self]
        change _ &&& PTE_P = 0#32
        rw [BitVec.and_assoc, show ~~~ PTE_P &&& PTE_P = 0#32 from rfl, BitVec.and_zero]
      · exact fun hker => absurd hva hker
      · exact fun p hp => Function.update_of_ne hp _ _
      · intro k hk
        rw [Function.update_self] at hk
        cases hk

/-- **`pagedir_set_dirty`** and **`pagedir_set_accessed`**, for any address. -/
theorem Inv.set_flag (h : Inv b s) {flag : Entry} (hflag : flag = PTE_A ∨ flag = PTE_D) (va : Addr)
    (value : Bool) : ∃ mem, set_flag flag s.mem s.pd va value = .ok mem ∧
      Stepped b s { s with mem := mem } va := by
  -- the two flags are outside every mask that is read back
  have hmask : ∀ mask ∈ [PTE_P, PTE_ADDR, CORE],
      flag &&& mask = 0#32 ∧ ~~~ flag &&& mask = mask := by
    intro mask hm
    simp only [List.mem_cons, List.not_mem_nil, or_false] at hm
    rcases hflag with rfl | rfl <;> rcases hm with rfl | rfl | rfl <;> exact ⟨rfl, rfl⟩
  unfold Pagedir.set_flag
  rcases h.lookup_cases va with ⟨hnone, hrun⟩ | ⟨hne, hptr, hword, hrun⟩
  · refine ⟨s.mem, ?_, h.stay va⟩
    rw [hrun, ok_bind, if_neg (by simp)]
    rfl
  · rw [hrun, ok_bind]
    dsimp only
    rw [if_pos hptr]
    set old := s.mem (slot (table s.mem s.pd (pd_no va).toNat) (pt_no va).toNat) with hold
    have hstep : ∀ e, (∀ mask ∈ [PTE_P, PTE_ADDR, CORE], e &&& mask = old &&& mask) →
        Stepped b s { s with
          mem := Pagedir.store s.mem (slot (table s.mem s.pd (pd_no va).toNat) (pt_no va).toNat) e
          frames := s.frames } va := by
      intro e he
      refine h.replace hne ?_ ?_ (fun _ _ => rfl) ?_
      · intro hva
        have hentry := h.entries _ (pd_no_user.mp hva) _ (pt_no_lt va)
        rw [← page_no_eq, ← hword] at hentry
        unfold EntryOk at hentry ⊢
        rw [he PTE_P (by simp), he PTE_ADDR (by simp)]
        exact hentry
      · intro _
        rw [he CORE (by simp), hword]
      · intro k hk
        obtain ⟨hlt, hpage, hown⟩ := h.frames _ k hk
        refine ⟨?_, hpage, hown⟩
        rw [pd_no_user]
        rw [page_no_eq] at hlt
        omega
    cases value with
    | true =>
      refine ⟨_, rfl, hstep _ fun mask hm => ?_⟩
      exact (flag_and (hmask mask hm).1 (hmask mask hm).2 old).1
    | false =>
      refine ⟨_, rfl, hstep _ fun mask hm => ?_⟩
      exact (flag_and (hmask mask hm).1 (hmask mask hm).2 old).2

/-- One thing after another on the same page. -/
theorem Stepped.trans {s₁ s₂ : State} {va : Addr} (h₁ : Stepped b s s₁ va)
    (h₂ : Stepped b s₁ s₂ va) : Stepped b s s₂ va := by
  refine ⟨h₂.inv, h₂.pd.trans h₁.pd, ?_⟩
  intro i hi j hj hout
  rw [h₂.others i hi j hj hout, h₁.others i hi j hj hout]

/-- A new page table. No page is mapped by it. -/
theorem Inv.add_table (h : Inv b s) {i : ℕ} (hi : i < 768) (hnone : s.mem (slot s.pd i) = 0#32)
    {page : Addr} (hpage : IsPage page) (hown : ¬ Own b s page)
    (hframes : ∀ p, s.frames p ≠ some page) {e : Entry} (he : pde_create page = .ok e) :
    Inv b { s with
      mem := Pagedir.store (fill_page s.mem page 0#32) (slot s.pd i) e, frames := s.frames } ∧
    table (Pagedir.store (fill_page s.mem page 0#32) (slot s.pd i) e) s.pd i = page ∧
    (∀ k < 1024, ∀ l < 1024,
      pte (Pagedir.store (fill_page s.mem page 0#32) (slot s.pd i) e) s.pd k l =
        pte s.mem s.pd k l) ∧
    ∀ a, Own b { s with
      mem := Pagedir.store (fill_page s.mem page 0#32) (slot s.pd i) e, frames := s.frames } a →
      Own b s a ∨ a = page := by
  have hpd : page ≠ s.pd := fun hc => hown (Or.inl hc)
  have hused : ¬ b.used page := fun hc => hown (Or.inr (Or.inl hc))
  have hnew : ∀ k < 768, table s.mem s.pd k ≠ page :=
    fun k hk hc => hown (Or.inr (Or.inr ⟨k, hk, hc⟩))
  obtain ⟨hdir, htable, hpte⟩ := h.dir.add_table hi hnone hpage hpd hused hnew he
  have hgrow : ∀ a, Own b { s with
      mem := Pagedir.store (fill_page s.mem page 0#32) (slot s.pd i) e, frames := s.frames } a →
      Own b s a ∨ a = page := by
    rintro a (ha | ha | ⟨k, hk, ha⟩)
    · exact Or.inl (Or.inl ha)
    · exact Or.inl (Or.inr (Or.inl ha))
    · change table (Pagedir.store (fill_page s.mem page 0#32) (slot s.pd i) e) s.pd k = a at ha
      rw [htable k (by omega)] at ha
      by_cases hki : k = i
      · rw [if_pos hki] at ha
        exact Or.inr ha.symm
      · rw [if_neg hki] at ha
        exact Or.inl (Or.inr (Or.inr ⟨k, hk, ha⟩))
  refine ⟨⟨hdir, ?_, ?_, ?_⟩, by rw [htable i (by omega), if_pos rfl], hpte, hgrow⟩
  · intro k hlo hk l hl
    change pte _ s.pd k l &&& CORE = _
    rw [hpte k hk l hl]
    exact h.kernel k hlo hk l hl
  · intro k hk l hl
    change EntryOk (pte _ s.pd k l) (s.frames (1024 * k + l))
    rw [hpte k (by omega) l hl]
    exact h.entries k hk l hl
  · intro p k hk
    change s.frames p = some k at hk
    obtain ⟨hlt, hkpage, hkown⟩ := h.frames p k hk
    refine ⟨hlt, hkpage, fun hc => ?_⟩
    rcases hgrow k hc with hc | rfl
    · exact hkown hc
    · exact hframes p hk

/-- The entry of an unmapped page, once it has a table, takes the frame. -/
theorem Inv.set_entry (h : Inv b s) {va kpage : Addr} (hva : is_user_vaddr va)
    (hne : s.mem (slot s.pd (pd_no va).toNat) ≠ 0#32) (hkpage : IsPage kpage)
    (hown : ¬ Own b s kpage) (hnone : s.frames (pg_no va).toNat = none) (writable : Bool) :
    s.mem (slot (table s.mem s.pd (pd_no va).toNat) (pt_no va).toNat) &&& PTE_P = 0#32 ∧
    ∃ e, pte_create_user kpage writable = .ok e ∧ Stepped b s { s with
      mem := Pagedir.store s.mem (slot (table s.mem s.pd (pd_no va).toNat) (pt_no va).toNat) e
      frames := Function.update s.frames (pg_no va).toNat (some kpage) } va := by
  have hentry := h.entries _ (pd_no_user.mp hva) _ (pt_no_lt va)
  rw [← page_no_eq, hnone, pte, if_neg hne] at hentry
  obtain ⟨e, hcreate, hok⟩ := pte_create_user_spec hkpage writable
  refine ⟨hentry, e, hcreate, h.replace hne ?_ ?_ ?_ ?_⟩
  · intro _
    rw [Function.update_self]
    exact hok
  · exact fun hker => absurd hva hker
  · exact fun p hp => Function.update_of_ne hp _ _
  · intro k hk
    rw [Function.update_self] at hk
    obtain rfl := Option.some.inj hk
    exact ⟨hva, hkpage, hown⟩

/-- **`pagedir_set_page`** on an unmapped page: it maps the page, unless it needs a page table
and there is no page for one. -/
theorem Inv.set_page (h : Inv b s) {va kpage page : Addr} {writable : Bool}
    (hva : is_user_vaddr va) (halign : pg_ofs va = 0#32)
    (hram : (frame kpage >>> 12).toNat < b.ram_pages)
    (hen : Enabled b s (.set_page va kpage writable page)) :
    ∃ ok mem, pagedir_set_page s.mem b.base_page_dir b.ram_pages s.pd va kpage writable page =
        .ok (ok, mem) ∧ (page ≠ 0#32 → ok = true) ∧ Stepped b s { s with
          mem := mem
          frames := if ok then Function.update s.frames (pg_no va).toNat (some kpage)
            else s.frames } va := by
  obtain ⟨hkpage, hkown, hkne, hfree, hpage⟩ := hen
  have hpd : s.pd ≠ b.base_page_dir := fun hc => h.dir.fresh (hc ▸ b.base_used)
  have hi := pd_no_user.mp hva
  unfold pagedir_set_page
  rw [ASSERT_pos halign, ok_bind, ASSERT_pos hkpage.pg_ofs, ok_bind, ASSERT_pos hva, ok_bind,
    hkpage.vtop, ok_bind, ASSERT_pos hram, ok_bind, ASSERT_pos hpd, ok_bind]
  unfold lookup_page
  rw [ASSERT_pos h.dir.page.ne_null, ok_bind, ASSERT_pos (Or.inr hva), ok_bind]
  dsimp only
  by_cases hnone : s.mem (slot s.pd (pd_no va).toNat) = 0#32
  · rw [if_pos hnone, if_pos rfl]
    by_cases hnull : page = 0#32
    · refine ⟨false, s.mem, ?_, fun hc => absurd hnull hc, h.stay va⟩
      rw [if_pos hnull]
      rfl
    · -- the table is made first, and then has an empty entry for the page
      obtain ⟨hppage, hpown, hpframes⟩ := hpage.resolve_left hnull
      have he := pde_create_eq hppage
      set e := frame page ||| (PTE_U ||| PTE_P ||| PTE_W)
      obtain ⟨hene, hget, -, -⟩ := pde_create_spec hppage he
      obtain ⟨hinv, htable, hpte, hgrow⟩ := h.add_table hi hnone hppage hpown hpframes he
      set mem₁ := Pagedir.store (fill_page s.mem page 0#32) (slot s.pd (pd_no va).toNat) e
        with hmem₁
      have hword : mem₁ (slot s.pd (pd_no va).toNat) = e := by
        rw [hmem₁, store_slot h.dir.page h.dir.page (pd_no_lt va) (pd_no_lt va), if_pos ⟨rfl, rfl⟩]
      have hkown₁ : ¬ Own b { s with mem := mem₁, frames := s.frames } kpage := by
        intro hc
        rcases hgrow kpage hc with hc | hc
        · exact hkown hc
        · exact hkne hc
      have hne₁ : mem₁ (slot s.pd (pd_no va).toNat) ≠ 0#32 := by
        rw [hword]
        exact hene
      obtain ⟨habsent, e', he', hstep⟩ := hinv.set_entry hva hne₁ hkpage hkown₁ hfree writable
      dsimp only at habsent hstep
      rw [htable] at habsent hstep
      refine ⟨true, Pagedir.store mem₁ (slot page (pt_no va).toNat) e', ?_, fun _ => rfl, ?_⟩
      · rw [if_neg hnull, he, ok_bind, ← hmem₁, hword, hget, ok_bind]
        simp only [pure_eq_ok, ok_bind]
        rw [if_pos (slot_ne_null hppage (pt_no_lt va)), ASSERT_pos habsent, ok_bind, he', ok_bind]
      · have hfirst : Stepped b s { s with mem := mem₁, frames := s.frames } va :=
          ⟨hinv, rfl, fun i hi j hj _ => hpte i hi j hj⟩
        exact hfirst.trans hstep
  · obtain ⟨htpage, -, hget, -, -⟩ := h.dir.table (pd_no_lt va) hnone
    obtain ⟨habsent, e, he, hstep⟩ := h.set_entry hva hnone hkpage hkown hfree writable
    refine ⟨true, _, ?_, fun _ => rfl, hstep⟩
    rw [if_neg hnone, hget, ok_bind]
    simp only [pure_eq_ok, ok_bind]
    rw [if_pos (slot_ne_null htpage (pt_no_lt va)), ASSERT_pos habsent, ok_bind, he, ok_bind]

/-- **One call**: it keeps the invariant and every entry but that of its page. -/
theorem Inv.step (h : Inv b s) {c : Call} (hen : Enabled b s c) (hexec : exec b s c = .ok s') :
    Stepped b s s' c.page := by
  cases c with
  | set_page upage kpage writable page =>
    obtain ⟨r, hrun, hexec⟩ := bind_eq_ok hexec
    obtain rfl := Except.ok.inj hexec
    have hasserts := hrun
    obtain ⟨_, halign, hasserts⟩ := bind_eq_ok hasserts
    obtain ⟨_, -, hasserts⟩ := bind_eq_ok hasserts
    obtain ⟨_, hva, hasserts⟩ := bind_eq_ok hasserts
    obtain ⟨p, hp, hasserts⟩ := bind_eq_ok hasserts
    obtain ⟨_, hram, -⟩ := bind_eq_ok hasserts
    rw [hen.1.vtop] at hp
    obtain rfl := Except.ok.inj hp
    obtain ⟨ok, mem, hrun', -, hstep⟩ :=
      h.set_page (ASSERT_eq_ok hva) (ASSERT_eq_ok halign) (ASSERT_eq_ok hram) hen
    rw [hrun'] at hrun
    obtain rfl := Except.ok.inj hrun
    exact hstep
  | clear_page upage =>
    obtain ⟨mem, hrun, hexec⟩ := bind_eq_ok hexec
    obtain rfl := Except.ok.inj hexec
    have hasserts := hrun
    obtain ⟨_, halign, hasserts⟩ := bind_eq_ok hasserts
    obtain ⟨_, hva, -⟩ := bind_eq_ok hasserts
    obtain ⟨mem', hrun', hstep⟩ := h.clear (ASSERT_eq_ok hva) (ASSERT_eq_ok halign)
    rw [hrun'] at hrun
    obtain rfl := Except.ok.inj hrun
    exact hstep
  | set_dirty vpage dirty =>
    obtain ⟨mem, hrun, hexec⟩ := bind_eq_ok hexec
    obtain rfl := Except.ok.inj hexec
    obtain ⟨mem', hrun', hstep⟩ := h.set_flag (Or.inr rfl) vpage dirty
    rw [pagedir_set_dirty, hrun'] at hrun
    obtain rfl := Except.ok.inj hrun
    exact hstep
  | set_accessed vpage accessed =>
    obtain ⟨mem, hrun, hexec⟩ := bind_eq_ok hexec
    obtain rfl := Except.ok.inj hexec
    obtain ⟨mem', hrun', hstep⟩ := h.set_flag (Or.inl rfl) vpage accessed
    rw [pagedir_set_accessed, hrun'] at hrun
    obtain rfl := Except.ok.inj hrun
    exact hstep

/-- The arguments the assertions of the calls ask for. -/
def Valid (b : Boot) : Call → Prop
  | .set_page upage kpage _ _ =>
    pg_ofs upage = 0#32 ∧ is_user_vaddr upage ∧ (frame kpage >>> 12).toNat < b.ram_pages
  | .clear_page upage => pg_ofs upage = 0#32 ∧ is_user_vaddr upage
  | _ => True

/-- No assertion fails in a call with such arguments. -/
theorem Inv.returns (h : Inv b s) {c : Call} (hen : Enabled b s c) (hvalid : Valid b c) :
    ∃ s', exec b s c = .ok s' := by
  cases c with
  | set_page upage kpage writable page =>
    obtain ⟨halign, hva, hram⟩ := hvalid
    obtain ⟨ok, mem, hrun, -⟩ := h.set_page hva halign hram hen
    exact ⟨_, by rw [exec, hrun]; rfl⟩
  | clear_page upage =>
    obtain ⟨mem, hrun, -⟩ := h.clear hvalid.2 hvalid.1
    exact ⟨_, by rw [exec, hrun]; rfl⟩
  | set_dirty vpage dirty =>
    obtain ⟨mem, hrun, -⟩ := h.set_flag (Or.inr rfl) vpage dirty
    exact ⟨_, by rw [exec, pagedir_set_dirty, hrun]; rfl⟩
  | set_accessed vpage accessed =>
    obtain ⟨mem, hrun, -⟩ := h.set_flag (Or.inl rfl) vpage accessed
    exact ⟨_, by rw [exec, pagedir_set_accessed, hrun]; rfl⟩

/-- **The invariant holds in every state a run reaches.** -/
theorem inv_of_reachable {ok : State → Call → Prop} (hr : Reachable (pagedir_system b) ok s) :
    Inv b s :=
  hr.invariant (fun _ hs => inv_init hs) fun _ _ _ h _ hs => (h.step hs.1 hs.2).inv

/-! ## What is read through a directory -/

/-- A flag is that of the entry. -/
theorem Inv.is_flag (h : Inv b s) (flag : Entry) (va : Addr) :
    is_flag flag s.mem s.pd va =
      .ok (decide (pte s.mem s.pd (pd_no va).toNat (pt_no va).toNat &&& flag ≠ 0#32)) := by
  unfold Pagedir.is_flag
  rcases h.lookup_cases va with ⟨hnone, hrun⟩ | ⟨hne, hptr, hword, hrun⟩
  · rw [hrun, ok_bind, pte, if_pos hnone, BitVec.zero_and]
    simp
  · rw [hrun, ok_bind, ← hword]
    simp only [ne_eq, hptr, not_false_eq_true, true_and, pure_eq_ok]

/-- How the processor finds the page of an address: its frame and what may be done with it, if
both levels are present. -/
def translate (mem : Mem) (pd va : Addr) : Option Entry :=
  let pde := mem (slot pd (pd_no va).toNat)
  if pde &&& PTE_P = 0#32 then none
  else
    let pte := mem (slot ((pde &&& PTE_ADDR) + PHYS_BASE) (pt_no va).toNat)
    if pte &&& PTE_P = 0#32 then none else some (pte &&& CORE)

/-- What the processor finds, from the entry of the address. -/
theorem translate_eq {mem : Mem} {pd : Addr} (va : Addr)
    (htable : mem (slot pd (pd_no va).toNat) ≠ 0#32 →
      mem (slot pd (pd_no va).toNat) &&& PTE_P ≠ 0#32) :
    translate mem pd va = if pte mem pd (pd_no va).toNat (pt_no va).toNat &&& CORE &&& PTE_P = 0#32
      then none else some (pte mem pd (pd_no va).toNat (pt_no va).toNat &&& CORE) := by
  have hcore : ∀ e : Entry, e &&& CORE &&& PTE_P = e &&& PTE_P := by
    intro e
    rw [BitVec.and_assoc, show CORE &&& PTE_P = PTE_P from rfl]
  unfold translate pte
  rw [hcore]
  by_cases hnone : mem (slot pd (pd_no va).toNat) = 0#32
  · simp only [hnone, BitVec.zero_and, if_true]
  · rw [if_neg hnone, table, if_neg hnone]
    dsimp only
    rw [if_neg (htable hnone)]

/-- **Kernel addresses** are found where the kernel's own directory has them. -/
theorem Inv.translate (h : Inv b s) {va : Addr} (hva : ¬ is_user_vaddr va) :
    translate s.mem s.pd va = translate b.mem b.base_page_dir va := by
  rw [pd_no_user, not_lt] at hva
  have hdir : s.mem (slot s.pd (pd_no va).toNat) = b.mem (slot b.base_page_dir (pd_no va).toNat) :=
    h.dir.kernel _ hva (pd_no_lt va)
  have hpresent : b.mem (slot b.base_page_dir (pd_no va).toNat) ≠ 0#32 →
      b.mem (slot b.base_page_dir (pd_no va).toNat) &&& PTE_P ≠ 0#32 := by
    intro hne
    obtain ⟨pt, hpt, -, -, hcreate⟩ := b.kernel _ hva (pd_no_lt va) hne
    exact (pde_create_spec hpt hcreate).2.2.2
  rw [translate_eq va hpresent, translate_eq va (by rw [hdir]; exact hpresent),
    h.kernel _ hva (pd_no_lt va) _ (pt_no_lt va)]

/-- **Other pages**: a call on one page is not seen through another. -/
theorem Stepped.other {va : Addr} (hstep : Stepped b s s' va) (h : Inv b s) {va' : Addr}
    (hne : pg_no va' ≠ pg_no va) :
    (is_user_vaddr va' → pagedir_get_page s'.mem s'.pd va' = pagedir_get_page s.mem s.pd va') ∧
    pagedir_is_dirty s'.mem s'.pd va' = pagedir_is_dirty s.mem s.pd va' ∧
    pagedir_is_accessed s'.mem s'.pd va' = pagedir_is_accessed s.mem s.pd va' := by
  have hentry : pte s'.mem s'.pd (pd_no va').toNat (pt_no va').toNat =
      pte s.mem s.pd (pd_no va').toNat (pt_no va').toNat := by
    refine hstep.others _ (pd_no_lt va') _ (pt_no_lt va') ?_
    rintro ⟨hi, hj⟩
    apply hne
    apply BitVec.eq_of_toNat_eq
    rw [page_no_eq, page_no_eq, hi, hj]
  have hflags : ∀ flag,
      Pagedir.is_flag flag s'.mem s'.pd va' = Pagedir.is_flag flag s.mem s.pd va' := by
    intro flag
    rw [hstep.inv.is_flag, h.is_flag, hentry]
  refine ⟨fun hva => ?_, hflags PTE_D, hflags PTE_A⟩
  have hold := h.entries _ (pd_no_user.mp hva) _ (pt_no_lt va')
  have hnew := hstep.inv.entries _ (pd_no_user.mp hva) _ (pt_no_lt va')
  rw [hentry] at hnew
  rw [← page_no_eq] at hold hnew
  rw [h.get hva, hstep.inv.get hva]
  -- the same entry stands for the same frame
  cases hf : s.frames (pg_no va').toNat with
  | none =>
    cases hf' : s'.frames (pg_no va').toNat with
    | none => rfl
    | some k =>
      rw [hf] at hold
      rw [hf'] at hnew
      exact absurd hold hnew.1
  | some k =>
    cases hf' : s'.frames (pg_no va').toNat with
    | none =>
      rw [hf] at hold
      rw [hf'] at hnew
      exact absurd hnew hold.1
    | some k' =>
      rw [hf] at hold
      rw [hf'] at hnew
      have hframe : frame k = frame k' := hold.2.symm.trans hnew.2
      have hsame : k = k' := by
        rw [← BitVec.sub_add_cancel k PHYS_BASE, ← BitVec.sub_add_cancel k' PHYS_BASE]
        exact congrArg (· + PHYS_BASE) hframe
      rw [hsame]

/-! ## `pagedir_destroy` -/

/-- A page that is freed loses its words, and no other page does. -/
theorem palloc_free_page_slot {m : Freed} {page q : Addr} (hpage : IsPage page) (hq : IsPage q)
    (hne : q ≠ page) {l : ℕ} (hl : l < 1024) :
    (palloc_free_page m page).1 (slot q l) = m.1 (slot q l) := by
  change fill_page m.1 page _ (slot q l) = _
  rw [fill_page_slot hpage hq hl, if_neg hne]

/-- **The inner loop** frees the frames of the entries, in order. -/
theorem destroy_ptes_spec {pt : Addr} (hpt : IsPage pt) {F : ℕ → Option Addr} {cnt i : ℕ}
    {m : Freed} (hi : i + cnt ≤ 1024)
    (hentries : ∀ j, i ≤ j → j < i + cnt → EntryOk (m.1 (slot pt j)) (F j))
    (hframes : ∀ j k, F j = some k → IsPage k ∧ pt ≠ k) :
    ∃ mem, destroy_ptes pt cnt i m = .ok (mem, m.2 ++ (List.range' i cnt).filterMap F) ∧
      ∀ q, IsPage q → (∀ j, F j ≠ some q) → ∀ l < 1024, mem (slot q l) = m.1 (slot q l) := by
  induction cnt generalizing i m with
  | zero => exact ⟨m.1, by simp [destroy_ptes], fun _ _ _ _ _ => rfl⟩
  | succ cnt ih =>
    have hentry := hentries i le_rfl (by omega)
    rw [destroy_ptes, List.range'_succ]
    cases hF : F i with
    | none =>
      rw [hF] at hentry
      have habsent : m.1 (slot pt i) &&& PTE_P = 0#32 := hentry
      obtain ⟨mem, hrun, hkeep⟩ := @ih (i + 1) m (by omega)
        (fun j hlo hhi => hentries j (by omega) (by omega))
      refine ⟨mem, ?_, hkeep⟩
      rw [if_neg (not_not_intro habsent), hrun, List.filterMap_cons_none hF]
    | some k =>
      rw [hF] at hentry
      obtain ⟨hk, hptk⟩ := hframes i k hF
      obtain ⟨mem, hrun, hkeep⟩ := @ih (i + 1) (palloc_free_page m k) (by omega) (by
        intro j hlo hhi
        rw [palloc_free_page_slot hk hpt hptk (by omega)]
        exact hentries j (by omega) (by omega))
      refine ⟨mem, ?_, ?_⟩
      · rw [if_pos hentry.1, pte_get_page, hentry.2, hk.ptov, ok_bind, hrun,
          List.filterMap_cons_some hF, palloc_free_page, List.append_assoc, List.singleton_append]
      · intro q hq hqF l hl
        rw [hkeep q hq hqF l hl, palloc_free_page_slot hk hq (fun hc => hqF i (hc ▸ hF)) hl]

/-- What is freed for entry `i` of a directory: the frames mapped through its table, then the
table. -/
def released (s : State) (i : ℕ) : List Addr :=
  if s.mem (slot s.pd i) = 0#32 then []
  else (List.range 1024).filterMap (fun j => s.frames (1024 * i + j)) ++ [table s.mem s.pd i]

/-- **The outer loop** frees what each entry stands for. -/
theorem Inv.destroy_pdes (h : Inv b s) {cnt i : ℕ} {m : Freed} (hi : i + cnt ≤ 768)
    (hkeep : ∀ q, IsPage q → (q = s.pd ∨ ∃ k, i ≤ k ∧ k < 768 ∧ s.mem (slot s.pd k) ≠ 0#32 ∧
      table s.mem s.pd k = q) → ∀ l < 1024, m.1 (slot q l) = s.mem (slot q l)) :
    ∃ mem, destroy_pdes s.pd cnt i m =
      .ok (mem, m.2 ++ (List.range' i cnt).flatMap (released s)) := by
  induction cnt generalizing i m with
  | zero => exact ⟨m.1, by simp [Pagedir.destroy_pdes]⟩
  | succ cnt ih =>
    have hword := hkeep s.pd h.dir.page (Or.inl rfl) i (by omega)
    rw [Pagedir.destroy_pdes, List.range'_succ, List.flatMap_cons, hword, released]
    by_cases hnone : s.mem (slot s.pd i) = 0#32
    · obtain ⟨mem, hrun⟩ := @ih (i + 1) m (by omega) (by
        rintro q hq (hc | ⟨k, hlo, hhi, hne, hk⟩)
        · exact hkeep q hq (Or.inl hc)
        · exact hkeep q hq (Or.inr ⟨k, by omega, hhi, hne, hk⟩))
      refine ⟨mem, ?_⟩
      rw [if_neg (by rw [hnone, BitVec.zero_and]; simp), hrun, if_pos hnone, List.nil_append]
    · obtain ⟨hpt, hcreate, hget, hpd, hused⟩ := h.dir.table (by omega) hnone
      have hpresent := (pde_create_spec hpt hcreate).2.2.2
      have hown : Own b s (table s.mem s.pd i) := Or.inr (Or.inr ⟨i, by omega, rfl⟩)
      -- the frames are pages of memory that are no part of the directory
      have hframes : ∀ j k, s.frames (1024 * i + j) = some k →
          IsPage k ∧ table s.mem s.pd i ≠ k := by
        intro j k hk
        obtain ⟨-, hkpage, hkown⟩ := h.frames _ k hk
        exact ⟨hkpage, fun hc => hkown (hc ▸ hown)⟩
      obtain ⟨mem₁, hptes, hkeep₁⟩ := @destroy_ptes_spec _ hpt
        (fun j => s.frames (1024 * i + j)) 1024 0 m (by omega) (by
          intro j _ hj
          have hentry := h.entries i (by omega) j (by omega)
          rw [pte, if_neg hnone] at hentry
          rw [hkeep _ hpt (Or.inr ⟨i, le_rfl, by omega, hnone, rfl⟩) j (by omega)]
          exact hentry) hframes
      obtain ⟨mem, hrun⟩ := @ih (i + 1) (palloc_free_page
          (mem₁, m.2 ++ (List.range' 0 1024).filterMap (fun j => s.frames (1024 * i + j)))
          (table s.mem s.pd i)) (by omega) (by
        intro q hq hc l hl
        have hqown : Own b s q := by
          rcases hc with hc | ⟨k, -, hk, -, hkq⟩
          · exact Or.inl hc
          · exact Or.inr (Or.inr ⟨k, hk, hkq⟩)
        have hqpt : q ≠ table s.mem s.pd i := by
          rcases hc with hc | ⟨k, hlo, hk, hne, hkq⟩
          · exact fun hsame => hpd (hsame ▸ hc)
          · intro hsame
            have hki := h.dir.table_inj (by omega) (by omega) hne hnone (hkq.trans hsame)
            omega
        rw [palloc_free_page_slot hpt hq hqpt hl]
        change mem₁ (slot q l) = _
        rw [hkeep₁ q hq (fun j hj => (h.frames _ q hj).2.2 hqown) l hl]
        refine hkeep q hq ?_ l hl
        rcases hc with hc | ⟨k, hlo, hk, hne, hkq⟩
        · exact Or.inl hc
        · exact Or.inr ⟨k, by omega, hk, hne, hkq⟩)
      refine ⟨mem, ?_⟩
      rw [if_pos hpresent, hget, ok_bind, show PGSIZE / 4 = 1024 from rfl, hptes, ok_bind, hrun,
        if_neg hnone, palloc_free_page, ← List.range_eq_range']
      simp only [List.append_assoc]

/-- **`pagedir_destroy`** returns, having freed the frames and tables entry by entry and the
directory last. -/
theorem Inv.destroy (h : Inv b s) : ∃ mem, pagedir_destroy s.mem b.base_page_dir s.pd =
    .ok (mem, (List.range 768).flatMap (released s) ++ [s.pd]) := by
  have hpd : s.pd ≠ b.base_page_dir := fun hc => h.dir.fresh (hc ▸ b.base_used)
  obtain ⟨mem, hrun⟩ := @Inv.destroy_pdes b s h 768 0 (s.mem, []) (by omega) (fun _ _ _ _ _ => rfl)
  rw [← List.range_eq_range', List.nil_append] at hrun
  have hhalf : (pd_no PHYS_BASE).toNat = 768 := by
    rw [pd_no_toNat, toNat_PHYS_BASE]
    rfl
  refine ⟨fill_page mem s.pd 0xcccccccc#32, ?_⟩
  rw [pagedir_destroy, if_neg h.dir.page.ne_null, ASSERT_pos hpd, ok_bind, hhalf, hrun, ok_bind,
    pure_eq_ok, palloc_free_page]

/-- The page tables of a directory that hold user pages. -/
def IsTable (s : State) (a : Addr) : Prop :=
  ∃ i < 768, s.mem (slot s.pd i) ≠ 0#32 ∧ table s.mem s.pd i = a

/-- What is freed, as a set. -/
theorem Inv.mem_released (h : Inv b s) (a : Addr) :
    (∃ i < 768, a ∈ released s i) ↔ (∃ p, s.frames p = some a) ∨ IsTable s a := by
  constructor
  · rintro ⟨i, hi, ha⟩
    rw [released] at ha
    by_cases hnone : s.mem (slot s.pd i) = 0#32
    · rw [if_pos hnone] at ha
      cases ha
    · rw [if_neg hnone, List.mem_append, List.mem_filterMap, List.mem_singleton] at ha
      rcases ha with ⟨j, -, hj⟩ | rfl
      · exact Or.inl ⟨_, hj⟩
      · exact Or.inr ⟨i, hi, hnone, rfl⟩
  · rintro (⟨p, hp⟩ | ⟨i, hi, hne, rfl⟩)
    · obtain ⟨hlt, -, -⟩ := h.frames p a hp
      have hsplit : 1024 * (p / 1024) + p % 1024 = p := by omega
      have hentry := h.entries (p / 1024) (by omega) (p % 1024) (by omega)
      rw [hsplit, hp] at hentry
      have hne : s.mem (slot s.pd (p / 1024)) ≠ 0#32 := by
        intro hnone
        rw [pte, if_pos hnone] at hentry
        exact hentry.1 BitVec.zero_and
      refine ⟨p / 1024, by omega, ?_⟩
      rw [released, if_neg hne, List.mem_append, List.mem_filterMap]
      exact Or.inl ⟨p % 1024, List.mem_range.mpr (by omega), by rw [hsplit]; exact hp⟩
    · refine ⟨i, hi, ?_⟩
      rw [released, if_neg hne]
      exact List.mem_append_right _ (List.mem_singleton.mpr rfl)

/-- **Nothing is freed twice** if no frame is mapped at two pages. -/
theorem Inv.released_nodup (h : Inv b s)
    (hinj : ∀ p q k, s.frames p = some k → s.frames q = some k → p = q) :
    ((List.range 768).flatMap (released s)).Nodup := by
  rw [List.nodup_flatMap]
  constructor
  · intro i hi
    rw [List.mem_range] at hi
    rw [released]
    by_cases hnone : s.mem (slot s.pd i) = 0#32
    · rw [if_pos hnone]
      exact List.nodup_nil
    · rw [if_neg hnone, List.nodup_append]
      refine ⟨?_, List.nodup_singleton _, ?_⟩
      · refine List.nodup_range.filterMap ?_
        intro j j' k hj hj'
        have hsame := hinj _ _ k hj hj'
        omega
      · intro a ha a' ha' hsame
        rw [List.mem_filterMap] at ha
        rw [List.mem_singleton] at ha'
        obtain ⟨j, -, hj⟩ := ha
        exact (h.frames _ a hj).2.2 (Or.inr (Or.inr ⟨i, hi, by rw [hsame, ha']⟩))
  · refine List.nodup_range.imp_of_mem ?_
    intro i i' hi hi' hne a ha ha'
    rw [List.mem_range] at hi hi'
    rw [released] at ha ha'
    by_cases hnone : s.mem (slot s.pd i) = 0#32
    · rw [if_pos hnone] at ha
      cases ha
    by_cases hnone' : s.mem (slot s.pd i') = 0#32
    · rw [if_pos hnone'] at ha'
      cases ha'
    rw [if_neg hnone, List.mem_append, List.mem_filterMap, List.mem_singleton] at ha
    rw [if_neg hnone', List.mem_append, List.mem_filterMap, List.mem_singleton] at ha'
    rcases ha with ⟨j, hj, hja⟩ | ha
    · rcases ha' with ⟨j', hj', hja'⟩ | ha'
      · have hsame := hinj _ _ a hja hja'
        rw [List.mem_range] at hj hj'
        omega
      · exact (h.frames _ a hja).2.2 (Or.inr (Or.inr ⟨i', hi', ha'.symm⟩))
    · rcases ha' with ⟨j', -, hja'⟩ | ha'
      · exact (h.frames _ a hja').2.2 (Or.inr (Or.inr ⟨i, hi, ha.symm⟩))
      · exact hne (h.dir.table_inj (by omega) (by omega) hnone hnone' (ha.symm.trans ha'))

end Step

/-! ## Every run -/

/-- What a directory is for: a partial map from user pages to frames, beside the mappings of
the kernel. -/
structure Refines (b : Boot) (s : State) : Prop where
  /-- A user address is where the map says, at its offset; without a frame it is nowhere. -/
  get : ∀ va, is_user_vaddr va → pagedir_get_page s.mem s.pd va =
    .ok (match s.frames (pg_no va).toNat with
      | some k => k + pg_ofs va
      | none => 0#32)
  /-- An address of the kernel is where it was before there were user pages. -/
  kernel : ∀ va, ¬ is_user_vaddr va → translate s.mem s.pd va = translate b.mem b.base_page_dir va
  /-- The calls return. -/
  returns : ∀ c, Enabled b s c → Valid b c → ∃ s', exec b s c = .ok s'
  /-- A call on one page does nothing to another. -/
  others : ∀ c s', Enabled b s c → exec b s c = .ok s' → ∀ va, pg_no va ≠ pg_no c.page →
    (is_user_vaddr va → pagedir_get_page s'.mem s'.pd va = pagedir_get_page s.mem s.pd va) ∧
    pagedir_is_dirty s'.mem s'.pd va = pagedir_is_dirty s.mem s.pd va ∧
    pagedir_is_accessed s'.mem s'.pd va = pagedir_is_accessed s.mem s.pd va
  /-- If no frame is mapped at two pages, `pagedir_destroy` frees each frame and each page table
  once, and then the directory. -/
  destroy : (∀ p q k, s.frames p = some k → s.frames q = some k → p = q) →
    ∃ mem freed, pagedir_destroy s.mem b.base_page_dir s.pd = .ok (mem, freed ++ [s.pd]) ∧
      freed.Nodup ∧ s.pd ∉ freed ∧ ∀ a, a ∈ freed ↔ (∃ p, s.frames p = some a) ∨ IsTable s a

/-- **A page directory refines a partial map**, in every state that calls on it reach. -/
theorem pagedir_refines (b : Boot) {s : State}
    (hr : Reachable (pagedir_system b) (fun _ _ => True) s) : Refines b s := by
  have h := inv_of_reachable hr
  refine ⟨fun va hva => h.get hva, fun va hva => h.translate hva, fun c hen hvalid =>
    h.returns hen hvalid, fun c s' hen hexec va hne => (h.step hen hexec).other h hne, ?_⟩
  intro hinj
  obtain ⟨mem, hrun⟩ := h.destroy
  have hmem : ∀ a, a ∈ (List.range 768).flatMap (released s) ↔
      (∃ p, s.frames p = some a) ∨ IsTable s a := by
    intro a
    rw [← h.mem_released, List.mem_flatMap]
    simp only [List.mem_range]
  refine ⟨mem, _, hrun, h.released_nodup hinj, ?_, hmem⟩
  -- the directory is neither a frame nor one of its own tables
  rw [hmem]
  rintro (⟨p, hp⟩ | ⟨i, hi, hne, hsame⟩)
  · exact (h.frames p _ hp).2.2 (Or.inl rfl)
  · exact (h.dir.table (by omega) hne).2.2.2.1 hsame

/-- A machine whose kernel has one page table, for the first four megabytes. -/
def small_boot : Boot where
  mem := Pagedir.store (fun _ => 0#32) (slot 0xc0100000#32 768) 0x00101007#32
  base_page_dir := 0xc0100000#32
  ram_pages := 1024
  used a := a = 0xc0100000#32 ∨ a = 0xc0101000#32
  base_page := ⟨by decide, by decide⟩
  base_used := Or.inl rfl
  user i hi := by
    have hp : IsPage 0xc0100000#32 := ⟨by decide, by decide⟩
    rw [store_slot hp hp (by omega) (by omega), if_neg (fun hc => by omega)]
  kernel i hlo hi hne := by
    have hp : IsPage 0xc0100000#32 := ⟨by decide, by decide⟩
    rw [store_slot hp hp (by omega) hi] at hne ⊢
    by_cases hi768 : i = 768
    · refine ⟨0xc0101000#32, ⟨by decide, by decide⟩, Or.inr rfl, by decide, ?_⟩
      rw [if_pos ⟨rfl, hi768⟩]
      decide
    · rw [if_neg (fun hc => hi768 hc.2)] at hne
      exact absurd rfl hne
  distinct i j hlo hi hloj hj hne he := by
    have hp : IsPage 0xc0100000#32 := ⟨by decide, by decide⟩
    rw [store_slot hp hp (by omega) hi] at hne he
    rw [store_slot hp hp (by omega) hj] at he
    by_cases hi768 : i = 768
    · by_cases hj768 : j = 768
      · rw [hi768, hj768]
      · rw [if_pos ⟨rfl, hi768⟩, if_neg (fun hc => hj768 hc.2)] at he
        cases he
    · rw [if_neg (fun hc => hi768 hc.2)] at hne
      exact absurd rfl hne

/-- A directory that was just made on it. -/
def small_pagedir : State where
  mem := copy_page small_boot.mem 0xc0102000#32 0xc0100000#32
  pd := 0xc0102000#32
  frames _ := none

/-- Mapping the page at 0x08048000 in it takes a page for the table. -/
theorem small_pagedir_refines :
    ∃ s, s.frames 0x8048 = some 0xc0200000#32 ∧ Refines small_boot s := by
  have hpd : IsPage 0xc0102000#32 := ⟨by decide, by decide⟩
  have hinit : (pagedir_system small_boot).init small_pagedir := by
    refine ⟨hpd, ?_, rfl, rfl⟩
    rintro (hc | hc) <;> exact absurd hc (by decide)
  -- the directory has no tables yet
  have hown : ∀ a, a ≠ 0#32 → a ≠ 0xc0100000#32 → a ≠ 0xc0101000#32 → a ≠ 0xc0102000#32 →
      ¬ Own small_boot small_pagedir a := by
    rintro a hnull h0 h1 h2 (hc | hc | ⟨i, hi, hc⟩)
    · exact h2 hc
    · exact hc.elim h0 h1
    · have hword : small_pagedir.mem (slot small_pagedir.pd i) = 0#32 :=
        (copy_page_slot hpd hpd (by omega)).trans ((if_pos rfl).trans (small_boot.user i hi))
      rw [table, if_pos hword] at hc
      exact hnull hc.symm
  have hen : Enabled small_boot small_pagedir
      (.set_page 0x08048000#32 0xc0200000#32 true 0xc0103000#32) :=
    ⟨⟨by decide, by decide⟩, hown _ (by decide) (by decide) (by decide) (by decide), by decide, rfl,
      Or.inr ⟨⟨by decide, by decide⟩, hown _ (by decide) (by decide) (by decide) (by decide),
        fun _ hc => (by cases hc)⟩⟩
  obtain ⟨ok, mem, hrun, hok, -⟩ := @Inv.set_page small_boot small_pagedir (inv_init hinit)
    0x08048000#32 0xc0200000#32 0xc0103000#32 true (by decide) (by decide) (by decide) hen
  obtain rfl := hok (by decide)
  set s : State := { small_pagedir with
    mem := mem, frames := Function.update (fun _ => none) 0x8048 (some 0xc0200000#32) } with hs
  have hexec : exec small_boot small_pagedir
      (.set_page 0x08048000#32 0xc0200000#32 true 0xc0103000#32) = .ok s := by
    rw [exec, hrun]
    rfl
  refine ⟨s, ?_, pagedir_refines small_boot (.step (.init hinit) trivial ⟨hen, hexec⟩)⟩
  simp only [hs, Function.update_self]

end Pintos.Userprog.Pagedir
