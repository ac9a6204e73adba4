/-
Two-level page tables in memory: the entries of a page, the walk the hardware
makes through them, and what the writing of one entry does to a walk.
-/
import Linda.Kernel
import Mathlib.Data.Nat.Bitwise

namespace Linda

open ByteMemory

def pteP : Nat := 1 <<< 0
def pteW : Nat := 1 <<< 1
def pteU : Nat := 1 <<< 2

/-- Entry `i` of the directory or table in the page at `page`. -/
def entry (m : Memory) (page i : Nat) : Nat := load32 m (page + 4 * i)

def setEntry (m : Memory) (page i v : Nat) : Memory :=
  store32 m (page + 4 * i) v

/-- What the hardware finds for a page: its frame and whether writes and user
accesses may go there. -/
structure Translation where
  frame : Nat
  writable : Bool
  user : Bool
deriving Repr, DecidableEq

/-- The address in `mem` of the table a directory entry refers to. -/
def tableOf (pde : Nat) : Nat := kernBase + (pde &&& pgMask)

/-- A page table entry met below the directory entry `pde`. -/
def leaf (pde pte : Nat) : Option Translation :=
  if pte.testBit 0 then
    some ⟨pte &&& pgMask, pde.testBit 1 && pte.testBit 1,
      pde.testBit 2 && pte.testBit 2⟩
  else none

/-- The walk below a directory entry; entry.S turns 4 MB pages on. -/
def walkEntry (m : Memory) (pde va : Nat) : Option Translation :=
  if pde.testBit 0 then
    if pde.testBit 7 then
      some ⟨(pde &&& 0xFFC00000) + (va &&& 0x3FF000), pde.testBit 1,
        pde.testBit 2⟩
    else leaf pde (entry m (tableOf pde) (ptx va))
  else none

/-- The walk of the hardware from the directory at the physical address
`root`. -/
def pageWalk (m : Memory) (root va : Nat) : Option Translation :=
  walkEntry m (entry m (kernBase + root) (pdx va)) va

/-- An access raises a page fault when nothing is mapped, or a user touches a
supervisor page. -/
def accessFaults (user : Bool) (t : Option Translation) : Bool :=
  match t with
  | none => true
  | some t => user && !t.user

/-- A directory entry for a page table: present, writable, not a large page. -/
structure PlainEntry (pde : Nat) : Prop where
  present : pde.testBit 0 = true
  writable : pde.testBit 1 = true
  small : pde.testBit 7 = false

/-- The word `mmap_do_map` builds for an entry. -/
def pteWord (addr flags : Nat) : Nat :=
  (addr &&& pgMask) ||| pteP ||| pteW ||| flags

@[simp] theorem walkEntry_zero (m : Memory) (va : Nat) :
    walkEntry m 0 va = none := by
  simp [walkEntry]

@[simp] theorem leaf_zero (pde : Nat) : leaf pde 0 = none := by
  simp [leaf]

theorem PlainEntry.ne_zero {pde : Nat} (h : PlainEntry pde) : pde ≠ 0 := by
  rintro rfl
  simpa using h.present

theorem PlainEntry.walk {pde : Nat} (h : PlainEntry pde) (m : Memory)
    (va : Nat) :
    walkEntry m pde va = leaf pde (entry m (tableOf pde) (ptx va)) := by
  simp [walkEntry, h.present, h.small]

section Words

variable {addr flags : Nat}

theorem pgMask_testBit {i : Nat} : pgMask.testBit i = (12 ≤ i && i < 32 : Bool) := by
  have hmask : pgMask = 2 ^ 12 * (2 ^ 20 - 1) := rfl
  rw [hmask, Nat.testBit_two_pow_mul, Nat.testBit_two_pow_sub_one]
  by_cases hlow : 12 ≤ i
  · have hiff : i - 12 < 20 ↔ i < 32 := by omega
    simp [hlow, hiff]
  · simp [hlow]

theorem flags_testBit (hflags : flags < 4096) {i : Nat} (hi : 12 ≤ i) :
    flags.testBit i = false := by
  apply Nat.testBit_lt_two_pow
  calc flags < 2 ^ 12 := hflags
    _ ≤ 2 ^ i := Nat.pow_le_pow_right (by omega) hi

theorem pteWord_testBit (i : Nat) :
    (pteWord addr flags).testBit i =
      ((addr.testBit i && (12 ≤ i && i < 32 : Bool)) || decide (i = 0) ||
        decide (i = 1) || flags.testBit i) := by
  have hone : pteP = 2 ^ 0 := rfl
  have htwo : pteW = 2 ^ 1 := rfl
  simp only [pteWord, Nat.testBit_or, Nat.testBit_and, pgMask_testBit, hone,
    htwo, Nat.testBit_two_pow, eq_comm]

theorem pteWord_lt (hflags : flags < 4096) :
    pteWord addr flags < 4294967296 := by
  have hlow : addr &&& pgMask < 2 ^ 32 := by
    rw [and_pgMask_eq]
    omega
  have hp : pteP < 2 ^ 32 := by decide
  have hw : pteW < 2 ^ 32 := by decide
  have hf : flags < 2 ^ 32 := by omega
  exact Nat.or_lt_two_pow
    (Nat.or_lt_two_pow (Nat.or_lt_two_pow hlow hp) hw) hf

/-- The flags stay below the frame number. -/
theorem pteWord_mask (hflags : flags < 4096) :
    pteWord addr flags &&& pgMask = addr &&& pgMask := by
  apply Nat.eq_of_testBit_eq
  intro i
  rw [Nat.testBit_and, pteWord_testBit, Nat.testBit_and, pgMask_testBit]
  by_cases hi : 12 ≤ i
  · have hflag := flags_testBit hflags hi
    have hzero : i ≠ 0 := by omega
    have hone : i ≠ 1 := by omega
    simp [hi, hflag, hzero, hone]
  · simp [hi]

theorem pteWord_tableOf (hflags : flags < 4096) :
    tableOf (pteWord addr flags) = kernBase + (addr &&& pgMask) := by
  rw [tableOf, pteWord_mask hflags]

theorem pteWord_plain (hflags : flags.testBit 7 = false) :
    PlainEntry (pteWord addr flags) := by
  constructor
  · rw [pteWord_testBit]
    simp
  · rw [pteWord_testBit]
    simp
  · rw [pteWord_testBit]
    simp [hflags]

theorem pteWord_ne_zero : pteWord addr flags ≠ 0 := by
  intro hzero
  have hbit : (pteWord addr flags).testBit 0 = true := by
    rw [pteWord_testBit]
    simp
  rw [hzero] at hbit
  simp at hbit

/-- A mapped page is present and writable, and open to the user where both
levels say so. -/
theorem leaf_pteWord {pde : Nat} (hpde : PlainEntry pde)
    (hflags : flags < 4096) :
    leaf pde (pteWord addr flags) =
      some ⟨addr &&& pgMask, true, pde.testBit 2 && flags.testBit 2⟩ := by
  have hbit : ∀ i, (pteWord addr flags).testBit i = _ := pteWord_testBit
  rw [leaf, hbit, hbit, hbit, pteWord_mask hflags, hpde.writable]
  simp

end Words

section Entries

variable {m m' : Memory} {page page' i i' v : Nat}

theorem entry_congr (hi : i < 1024)
    (h : ∀ x, page ≤ x → x < page + 4096 → m' x = m x) :
    entry m' page i = entry m page i :=
  load32_congr fun x _ _ => h x (by omega) (by omega)

@[simp] theorem entry_setEntry_same :
    entry (setEntry m page i v) page i = v % 4294967296 :=
  load32_store32_same m _ v

/-- Entries of aligned pages do not overlap. -/
theorem entry_setEntry_of_ne (hpage : page % 4096 = 0)
    (hpage' : page' % 4096 = 0) (hi : i < 1024) (hi' : i' < 1024)
    (hne : page' ≠ page ∨ i' ≠ i) :
    entry (setEntry m page i v) page' i' = entry m page' i' := by
  apply load32_store32_of_disjoint
  omega

theorem entry_fill_zero (hi : i < 1024) :
    entry (fill m page 4096 0) page i = 0 :=
  load32_fill_zero m (by omega)

theorem entry_fill_of_ne (hpage : page % 4096 = 0)
    (hpage' : page' % 4096 = 0) (hi' : i' < 1024) (hne : page' ≠ page) :
    entry (fill m page 4096 0) page' i' = entry m page' i' := by
  apply load32_fill_of_disjoint
  omega

end Entries

end Linda
