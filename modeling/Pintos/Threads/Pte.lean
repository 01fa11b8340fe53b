/-
`threads/pte.h`: the words of page directories and page tables.

A word is a physical address with flags in its low twelve bits. The address is that of a
page, so address and flags do not overlap, and each can be read back under its mask.
-/
import Pintos.Threads.Vaddr

set_option autoImplicit false

namespace Pintos.Threads.Vaddr

/-- An entry of a page directory or a page table. -/
abbrev Entry := BitVec 32

/-- `PTMASK`. -/
def PTMASK : Addr := 0x003ff000#32

/-- `pt_no`. -/
def pt_no (va : Addr) : Addr := (va &&& PTMASK) >>> 12

/-- `pd_no`. -/
def pd_no (va : Addr) : Addr := va >>> 22

/-- `PTE_ADDR`. -/
def PTE_ADDR : Entry := 0xfffff000#32

/-- `PTE_P`. -/
def PTE_P : Entry := 0x1#32

/-- `PTE_W`. -/
def PTE_W : Entry := 0x2#32

/-- `PTE_U`. -/
def PTE_U : Entry := 0x4#32

/-- `PTE_A`. -/
def PTE_A : Entry := 0x20#32

/-- `PTE_D`. -/
def PTE_D : Entry := 0x40#32

/-- `pde_create`. -/
def pde_create (pt : Addr) : Res Entry := do
  ASSERT (pg_ofs pt = 0#32)
  let p ← vtop pt
  return p ||| PTE_U ||| PTE_P ||| PTE_W

/-- `pde_get_pt`. -/
def pde_get_pt (pde : Entry) : Res Addr := do
  ASSERT (pde &&& PTE_P ≠ 0#32)
  ptov (pde &&& PTE_ADDR)

/-- `pte_create_kernel`. -/
def pte_create_kernel (page : Addr) (writable : Bool) : Res Entry := do
  ASSERT (pg_ofs page = 0#32)
  let p ← vtop page
  return p ||| PTE_P ||| (if writable then PTE_W else 0#32)

/-- `pte_create_user`. -/
def pte_create_user (page : Addr) (writable : Bool) : Res Entry := do
  let e ← pte_create_kernel page writable
  return e ||| PTE_U

/-- `pte_get_page`. -/
def pte_get_page (pte : Entry) : Res Addr := ptov (pte &&& PTE_ADDR)

/-! ## Pages and the numbers in an address -/

/-- The address of a page of physical memory, as the kernel sees it. -/
structure IsPage (a : Addr) : Prop where
  aligned : a.toNat % 4096 = 0
  kernel : 0xc0000000 ≤ a.toNat

theorem pd_no_toNat (va : Addr) : (pd_no va).toNat = va.toNat / 2 ^ 22 := by
  rw [pd_no, BitVec.toNat_ushiftRight, Nat.shiftRight_eq_div_pow]

theorem pt_no_toNat (va : Addr) : (pt_no va).toNat = va.toNat / 4096 % 1024 := by
  have hshift : pt_no va = (va >>> 12) &&& 1023#32 := by
    have hmask : PTMASK >>> 12 = 1023#32 := rfl
    rw [pt_no, BitVec.ushiftRight_and_distrib, hmask]
  have hmask : (1023#32).toNat = 2 ^ 10 - 1 := rfl
  rw [hshift, BitVec.toNat_and, hmask, Nat.and_two_pow_sub_one_eq_mod, BitVec.toNat_ushiftRight,
    Nat.shiftRight_eq_div_pow]

theorem IsPage.pg_ofs {a : Addr} (h : IsPage a) : pg_ofs a = 0#32 := by
  apply BitVec.eq_of_toNat_eq
  rw [pg_ofs_toNat, h.aligned]
  rfl

theorem IsPage.ne_null {a : Addr} (h : IsPage a) : a ≠ 0#32 := by
  rintro rfl
  have hkernel := h.kernel
  simp at hkernel

/-- The physical address of a page. -/
def frame (a : Addr) : Entry := a - PHYS_BASE

theorem IsPage.vtop {a : Addr} (h : IsPage a) : vtop a = .ok (frame a) := (vtop_eq h.kernel).1

theorem IsPage.frame_toNat {a : Addr} (h : IsPage a) : (frame a).toNat = a.toNat - 0xc0000000 :=
  (vtop_eq h.kernel).2

theorem IsPage.ptov {a : Addr} (h : IsPage a) : ptov (frame a) = .ok a := by
  have hlt := a.isLt
  have hkernel := h.kernel
  have hsmall : (frame a).toNat < 2 ^ 30 := by
    rw [h.frame_toNat]
    omega
  rw [(ptov_eq hsmall).1, frame, BitVec.sub_add_cancel]

/-- The low bits of a physical page address are clear. -/
theorem IsPage.frame_flags {a : Addr} (h : IsPage a) : frame a &&& PGMASK = 0#32 := by
  have haligned := h.aligned
  have hkernel := h.kernel
  apply BitVec.eq_of_toNat_eq
  change (Vaddr.pg_ofs (frame a)).toNat = 0
  rw [pg_ofs_toNat, h.frame_toNat]
  omega

/-- An address under the address mask. -/
theorem IsPage.frame_addr {a : Addr} (h : IsPage a) : frame a &&& PTE_ADDR = frame a := by
  have hsplit : frame a = (frame a &&& PTE_ADDR) ||| (frame a &&& PGMASK) := by
    rw [← BitVec.and_or_distrib_left, show PTE_ADDR ||| PGMASK = BitVec.allOnes 32 from rfl,
      BitVec.and_allOnes]
  rw [h.frame_flags, BitVec.or_zero] at hsplit
  exact hsplit.symm

/-- A flag of a physical page address is clear. -/
theorem IsPage.frame_and {a : Addr} (h : IsPage a) {flag : Entry} (hflag : PGMASK &&& flag = flag) :
    frame a &&& flag = 0#32 := by
  rw [← hflag, ← BitVec.and_assoc, h.frame_flags, BitVec.zero_and]

/-- The address of a word with flags. -/
theorem IsPage.addr_of_or {a : Addr} (h : IsPage a) {flags : Entry}
    (hflags : flags &&& PTE_ADDR = 0#32) : (frame a ||| flags) &&& PTE_ADDR = frame a := by
  rw [BitVec.and_or_distrib_right, h.frame_addr, hflags, BitVec.or_zero]

end Pintos.Threads.Vaddr
