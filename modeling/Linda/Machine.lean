/-
The 32-bit machine: unsigned arithmetic, the page geometry of mach.h and the
address-space constants of memlayout.h and mmap.h.
-/
import Mathlib.Data.Nat.Bitwise
import Mathlib.Tactic.Common

namespace Linda

/-- `uint_t` arithmetic is arithmetic modulo `2 ^ 32`. -/
def u32 (n : Nat) : Nat := n % 4294967296

/-- Unsigned subtraction of 32-bit values. -/
def sub32 (a b : Nat) : Nat := (a + 4294967296 - b) % 4294967296

def pgSize : Nat := 4096
def pgMask : Nat := 0xFFFFF000
def npdEntries : Nat := 1024

def extMem : Nat := 0x100000
def kernBase : Nat := 0xC0000000
def kernSize : Nat := 0x40000000
def memNormal : Nat := 0x38000000

/-- `PGROUNDDOWN`, as the mask `~(PGSIZE-1)` of a 32-bit word. -/
def pgRoundDown (a : Nat) : Nat := a &&& pgMask

/-- `PGROUNDUP`; the sum wraps like any other. -/
def pgRoundUp (sz : Nat) : Nat := u32 (sz + pgSize - 1) &&& pgMask

/-- Kernel address of a physical address. -/
def p2v (addr : Nat) : Nat := u32 (addr + kernBase)

/-- Physical address of a kernel address. -/
def v2p (addr : Nat) : Nat := sub32 addr kernBase

/-- Page directory index. -/
def pdx (va : Nat) : Nat := (va >>> 22) &&& 0x3FF

/-- Page table index. -/
def ptx (va : Nat) : Nat := (va >>> 12) &&& 0x3FF

theorem u32_of_lt {n : Nat} (h : n < 4294967296) : u32 n = n :=
  Nat.mod_eq_of_lt h

theorem sub32_of_le {a b : Nat} (ha : a < 4294967296) (h : b ≤ a) :
    sub32 a b = a - b := by
  unfold sub32
  omega

theorem pdx_eq (va : Nat) : pdx va = va / 4194304 % 1024 := by
  simp only [pdx, Nat.shiftRight_eq_div_pow]
  exact Nat.and_two_pow_sub_one_eq_mod _ 10

theorem ptx_eq (va : Nat) : ptx va = va / 4096 % 1024 := by
  simp only [ptx, Nat.shiftRight_eq_div_pow]
  exact Nat.and_two_pow_sub_one_eq_mod _ 10

/-- Masking with `PGMASK` clears the offset of a 32-bit address. -/
theorem and_pgMask_eq (a : Nat) :
    a &&& pgMask = a / 4096 % 1048576 * 4096 := by
  have hmask : pgMask = 4096 * 1048575 := rfl
  apply Nat.eq_of_testBit_eq
  intro i
  rw [Nat.testBit_and, hmask, show (4096 : Nat) = 2 ^ 12 from rfl,
    show (1048576 : Nat) = 2 ^ 20 from rfl, Nat.testBit_two_pow_mul,
    Nat.mul_comm (a / 2 ^ 12 % 2 ^ 20), Nat.testBit_two_pow_mul,
    Nat.testBit_mod_two_pow, Nat.testBit_div_two_pow,
    show (1048575 : Nat) = 2 ^ 20 - 1 from rfl, Nat.testBit_two_pow_sub_one]
  by_cases hlow : 12 ≤ i
  · simp [hlow, Nat.sub_add_cancel hlow, Bool.and_comm]
  · simp [hlow]

theorem and_pgMask {a : Nat} (h : a < 4294967296) :
    a &&& pgMask = a / 4096 * 4096 := by
  rw [and_pgMask_eq]
  omega

/-- The page of a 32-bit address is the pair of its two indices. -/
theorem and_pgMask_eq_iff (va va' : Nat) :
    va &&& pgMask = va' &&& pgMask ↔ pdx va = pdx va' ∧ ptx va = ptx va' := by
  rw [and_pgMask_eq, and_pgMask_eq, pdx_eq, pdx_eq, ptx_eq, ptx_eq]
  omega

theorem pdx_lt (va : Nat) : pdx va < 1024 := by
  rw [pdx_eq]
  omega

theorem ptx_lt (va : Nat) : ptx va < 1024 := by
  rw [ptx_eq]
  omega

theorem pgRoundDown_eq {a : Nat} (h : a < 4294967296) :
    pgRoundDown a = a / 4096 * 4096 := and_pgMask h

end Linda
