/-
`threads/vaddr.h`: 32-bit addresses, pages, and the mapping of physical memory at
`PHYS_BASE`.

Addresses are words, so that a sum wraps where the machine's does. What the macros of the
header mean as arithmetic is said once here, over the number an address is.
-/
import Pintos.Base

set_option autoImplicit false

namespace Pintos.Threads.Vaddr

/-- A pointer, or a physical address. -/
abbrev Addr := BitVec 32

/-- `PGSIZE`. -/
def PGSIZE : ℕ := 4096

/-- `PGMASK`. -/
def PGMASK : Addr := 0xfff#32

/-- `PHYS_BASE`. -/
def PHYS_BASE : Addr := 0xc0000000#32

/-- `pg_ofs`. -/
def pg_ofs (va : Addr) : Addr := va &&& PGMASK

/-- `pg_no`. -/
def pg_no (va : Addr) : Addr := va >>> 12

/-- `pg_round_up`. -/
def pg_round_up (va : Addr) : Addr := (va + 4096#32 - 1#32) &&& ~~~ PGMASK

/-- `pg_round_down`. -/
def pg_round_down (va : Addr) : Addr := va &&& ~~~ PGMASK

/-- `is_user_vaddr`. -/
def is_user_vaddr (vaddr : Addr) : Prop := vaddr < PHYS_BASE

instance (vaddr : Addr) : Decidable (is_user_vaddr vaddr) := inferInstanceAs (Decidable (_ < _))

/-- `ptov`. -/
def ptov (paddr : Addr) : Res Addr := do
  ASSERT (paddr < PHYS_BASE)
  return paddr + PHYS_BASE

/-- `vtop`. -/
def vtop (vaddr : Addr) : Res Addr := do
  ASSERT (PHYS_BASE ≤ vaddr)
  return vaddr - PHYS_BASE

/-! ## Arithmetic -/

theorem toNat_PHYS_BASE : PHYS_BASE.toNat = 0xc0000000 := rfl

theorem getLsbD_PGMASK {i : ℕ} (hi : i < 32) : PGMASK.getLsbD i = decide (i < 12) := by
  have hall : ∀ i < 32, PGMASK.getLsbD i = decide (i < 12) := by decide
  exact hall i hi

theorem pg_ofs_toNat (va : Addr) : (pg_ofs va).toNat = va.toNat % 4096 := by
  have hmask : PGMASK.toNat = 2 ^ 12 - 1 := rfl
  rw [pg_ofs, BitVec.toNat_and, hmask, Nat.and_two_pow_sub_one_eq_mod]

theorem pg_no_toNat (va : Addr) : (pg_no va).toNat = va.toNat / 4096 := by
  rw [pg_no, BitVec.toNat_ushiftRight, Nat.shiftRight_eq_div_pow]

/-- Dropping the offset of an address. -/
theorem toNat_and_not_PGMASK (va : Addr) :
    (va &&& ~~~ PGMASK).toNat = va.toNat / 4096 * 4096 := by
  have hshift : va &&& ~~~ PGMASK = (va >>> 12) <<< 12 := by
    apply BitVec.eq_of_getLsbD_eq
    intro i hi
    rw [BitVec.getLsbD_and, BitVec.getLsbD_not, getLsbD_PGMASK hi, BitVec.getLsbD_shiftLeft,
      BitVec.getLsbD_ushiftRight]
    by_cases hlow : i < 12
    · simp [hlow]
    · have hsum : 12 + (i - 12) = i := by omega
      simp [hlow, hi, hsum]
  have hlt := va.isLt
  rw [hshift, BitVec.toNat_shiftLeft, BitVec.toNat_ushiftRight, Nat.shiftRight_eq_div_pow,
    Nat.shiftLeft_eq]
  omega

theorem pg_round_up_toNat {va : Addr} (h : va.toNat + 4095 < 2 ^ 32) :
    (pg_round_up va).toNat = (va.toNat + 4095) / 4096 * 4096 := by
  have hsum : va + 4096#32 - 1#32 = va + 4095#32 := by
    apply BitVec.eq_of_toNat_eq
    rw [BitVec.toNat_sub, BitVec.toNat_add, BitVec.toNat_add]
    simp only [BitVec.toNat_ofNat]
    omega
  rw [pg_round_up, hsum, toNat_and_not_PGMASK, BitVec.toNat_add]
  simp only [BitVec.toNat_ofNat]
  omega

/-- An offset that does not wrap. -/
theorem toNat_add_ofNat {a : Addr} {d : ℕ} (h : a.toNat + d < 2 ^ 32) :
    (a + BitVec.ofNat 32 d).toNat = a.toNat + d := by
  rw [BitVec.toNat_add, BitVec.toNat_ofNat]
  omega

/-- Physical memory is below the gigabyte that is mapped. -/
theorem ptov_eq {paddr : Addr} (h : paddr.toNat < 2 ^ 30) :
    ptov paddr = .ok (paddr + PHYS_BASE) ∧
      (paddr + PHYS_BASE).toNat = paddr.toNat + 0xc0000000 := by
  constructor
  · have hlt : paddr < PHYS_BASE := by
      rw [BitVec.lt_def, toNat_PHYS_BASE]
      omega
    rw [ptov, ASSERT_pos hlt, ok_bind, pure_eq_ok]
  · rw [BitVec.toNat_add, toNat_PHYS_BASE]
    omega

theorem vtop_eq {vaddr : Addr} (h : 0xc0000000 ≤ vaddr.toNat) :
    vtop vaddr = .ok (vaddr - PHYS_BASE) ∧
      (vaddr - PHYS_BASE).toNat = vaddr.toNat - 0xc0000000 := by
  constructor
  · have hle : PHYS_BASE ≤ vaddr := by
      rw [BitVec.le_def, toNat_PHYS_BASE]
      exact h
    rw [vtop, ASSERT_pos hle, ok_bind, pure_eq_ok]
  · have hlt := vaddr.isLt
    rw [BitVec.toNat_sub, toNat_PHYS_BASE]
    omega

end Pintos.Threads.Vaddr
