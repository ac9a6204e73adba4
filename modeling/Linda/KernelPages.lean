/-
The kernel's virtual pages: the status array of vmmgr.c and the operations
that take pages out of it and put them back.
-/
import Linda.Kernel
import Mathlib.Data.List.Range
import Mathlib.Data.List.Nodup

namespace Linda

def vmUsed : UInt8 := (1 : UInt8) <<< 0
def vmMapped : UInt8 := (1 : UInt8) <<< 1

/-- `KERNSIZE/PGSIZE` -/
def nvmBlocks : Nat := 262144

/-- The test of `kvm_alloc_page`: mapped and not used. -/
def VmBlock.available (block : VmBlock) : Bool :=
  block.status &&& vmMapped != 0 && !(block.status &&& vmUsed != 0)

def VmBlock.use (block : VmBlock) : VmBlock :=
  { block with status := block.status ||| vmUsed }

/-- The scan of `kvm_alloc_page` over `n` entries from `i` on. -/
def kvmScan (kvmlist : Nat → VmBlock) (found : VmBlock → Bool) :
    Nat → Nat → Option Nat
  | 0, _ => none
  | n + 1, i =>
      if found (kvmlist i) then some i else kvmScan kvmlist found n (i + 1)

def setBlock (kvmlist : Nat → VmBlock) (i : Nat) (block : VmBlock) :
    Nat → VmBlock :=
  fun j => if j = i then block else kvmlist j

def kvmAllocPage (k : Kernel) : Except Halt (Nat × Kernel) :=
  match kvmScan k.kvmlist VmBlock.available nvmBlocks 0 with
  | some i =>
      .ok ((k.kvmlist i).address,
        k.setKvmlist (setBlock k.kvmlist i (k.kvmlist i).use))
  | none => .error (.panic .noMappedPage)

/-- A page of the kernel space no frame is mapped to; it stays unused in the
list. -/
def kvmAllocUmappedPage (k : Kernel) : Except Halt Nat :=
  match kvmScan k.kvmlist (fun block => block.status &&& vmMapped == 0)
      nvmBlocks 0 with
  | some i => .ok (k.kvmlist i).address
  | none => .error (.panic .noUnmappedPage)

def kvmFreePage (k : Kernel) (addr : Nat) : Except Halt Kernel :=
  let offset := sub32 addr kernBase
  if kernSize ≤ offset then .error (.panic .freeOutside)
  else
    let idx := offset / pgSize
    let block := k.kvmlist idx
    let address := if block.address = 0 then p2v (idx * pgSize) else block.address
    .ok (k.setKvmlist (setBlock k.kvmlist idx
      ⟨address, block.status &&& ~~~vmUsed⟩))

/-- `kvm_map_page` records the page as mapped. -/
def kvmMapPage (k : Kernel) (addr : Nat) : Except Halt Kernel :=
  let offset := sub32 addr kernBase
  if kernSize ≤ offset then .error (.panic .mapOutside)
  else
    let idx := offset / pgSize
    let block := k.kvmlist idx
    .ok (k.setKvmlist (setBlock k.kvmlist idx
      { block with status := block.status ||| vmMapped }))

/-- `~VM_MAPPED`: the macro has no parentheses, so `~` takes its `1` alone. -/
def vmUnmapMask : UInt8 := (~~~1 : UInt8) <<< 1

/-- `kvm_unmap_page`; the message it stops with names `kvm_map_page`. -/
def kvmUnmapPage (k : Kernel) (addr : Nat) : Except Halt Kernel :=
  let offset := sub32 addr kernBase
  if kernSize ≤ offset then .error (.panic .mapOutside)
  else
    let idx := offset / pgSize
    let block := k.kvmlist idx
    .ok (k.setKvmlist (setBlock k.kvmlist idx
      { block with status := block.status &&& vmUnmapMask }))

/-- The pages `kvm_alloc_page` hands out next, in that order. -/
def availablePages (kvmlist : Nat → VmBlock) : List Nat :=
  ((List.range nvmBlocks).filter fun i => (kvmlist i).available).map
    fun i => (kvmlist i).address

theorem kvmScan_some {kvmlist : Nat → VmBlock} {found : VmBlock → Bool}
    {n start i : Nat} (h : kvmScan kvmlist found n start = some i) :
    start ≤ i ∧ i < start + n ∧ found (kvmlist i) = true ∧
      ∀ j, start ≤ j → j < i → found (kvmlist j) = false := by
  induction n generalizing start with
  | zero => simp [kvmScan] at h
  | succ n ih =>
      rw [kvmScan] at h
      split_ifs at h with hfound
      · obtain rfl := Option.some.inj h
        exact ⟨le_rfl, by omega, hfound, fun j hj hlt => by omega⟩
      · obtain ⟨hlo, hhi, hi, hbefore⟩ := ih h
        refine ⟨by omega, by omega, hi, fun j hj hlt => ?_⟩
        rcases Nat.eq_or_lt_of_le hj with rfl | hj
        · simpa using hfound
        · exact hbefore j hj hlt

theorem kvmScan_none {kvmlist : Nat → VmBlock} {found : VmBlock → Bool}
    {n start : Nat} (h : kvmScan kvmlist found n start = none) :
    ∀ j, start ≤ j → j < start + n → found (kvmlist j) = false := by
  induction n generalizing start with
  | zero => intro j hj hlt; omega
  | succ n ih =>
      intro j hj hlt
      rw [kvmScan] at h
      split_ifs at h with hfound
      rcases Nat.eq_or_lt_of_le hj with rfl | hj
      · simpa using hfound
      · exact ih h j hj (by omega)

/-- A property of every status byte is 256 cases. -/
theorem forall_status {P : UInt8 → Prop}
    (h : ∀ n : Fin 256, P (UInt8.ofNat n)) (status : UInt8) : P status := by
  have hstatus := h ⟨status.toNat, status.toNat_lt⟩
  rwa [UInt8.ofNat_toNat] at hstatus

theorem VmBlock.use_not_available (block : VmBlock) :
    block.use.available = false := by
  have hbits : ∀ status : UInt8,
      ((status ||| vmUsed) &&& vmUsed != 0) = true :=
    forall_status (by decide +kernel)
  simp only [VmBlock.available, VmBlock.use, hbits, Bool.not_true, Bool.and_false]

/-- The entries differ in their used bits at most. -/
def SameMapped (kvmlist kvmlist' : Nat → VmBlock) : Prop :=
  ∀ i, (kvmlist' i).address = (kvmlist i).address ∧
    (kvmlist' i).status &&& vmMapped = (kvmlist i).status &&& vmMapped

theorem SameMapped.refl (kvmlist : Nat → VmBlock) :
    SameMapped kvmlist kvmlist := fun _ => ⟨rfl, rfl⟩

theorem SameMapped.trans {a b c : Nat → VmBlock} (h₁ : SameMapped a b)
    (h₂ : SameMapped b c) : SameMapped a c := fun i =>
  ⟨(h₂ i).1.trans (h₁ i).1, (h₂ i).2.trans (h₁ i).2⟩

theorem sameMapped_use (kvmlist : Nat → VmBlock) (i : Nat) :
    SameMapped kvmlist (setBlock kvmlist i (kvmlist i).use) := by
  have hbits : ∀ status : UInt8,
      (status ||| vmUsed) &&& vmMapped = status &&& vmMapped :=
    forall_status (by decide +kernel)
  intro j
  by_cases hj : j = i
  · subst hj
    simp [setBlock, VmBlock.use, hbits]
  · simp [setBlock, hj]

/-- Taking entry `i` out of the available ones: it was the first, and the
others stay as they are. -/
theorem availablePages_use {kvmlist : Nat → VmBlock} {i : Nat}
    (hi : i < nvmBlocks) (havail : (kvmlist i).available = true)
    (hfirst : ∀ j, j < i → (kvmlist j).available = false) :
    availablePages kvmlist = (kvmlist i).address ::
      availablePages (setBlock kvmlist i (kvmlist i).use) := by
  obtain ⟨rest, hrest⟩ := Nat.exists_eq_add_of_lt hi
  have hsplit : List.range nvmBlocks =
      List.range i ++ i :: (List.range rest).map (fun j => i + 1 + j) := by
    rw [hrest, Nat.add_assoc, List.range_add, List.range_succ_eq_map]
    simp [Nat.add_comm, Nat.add_left_comm, Function.comp_def]
  have hbefore : (List.range i).filter (fun j => (kvmlist j).available) = [] := by
    rw [List.filter_eq_nil_iff]
    intro j hj
    simp [hfirst j (List.mem_range.mp hj)]
  have hbefore' : (List.range i).filter (fun j =>
      (setBlock kvmlist i (kvmlist i).use j).available) = [] := by
    rw [List.filter_eq_nil_iff]
    intro j hj
    have hlt := List.mem_range.mp hj
    simp [setBlock, Nat.ne_of_lt hlt, hfirst j hlt]
  have hat : (setBlock kvmlist i (kvmlist i).use i).available = false := by
    simp [setBlock, VmBlock.use_not_available]
  have hafter : ∀ j, setBlock kvmlist i (kvmlist i).use (i + 1 + j) =
      kvmlist (i + 1 + j) := by
    intro j
    have hne : i + 1 + j ≠ i := by omega
    simp [setBlock, hne]
  simp [availablePages, hsplit, List.filter_append, hbefore, hbefore',
    havail, hat, List.filter_map, Function.comp_def, hafter]

/-- `kvm_alloc_page` pops the available pages and stops when there is none. -/
theorem kvmAllocPage_spec (k : Kernel) :
    (availablePages k.kvmlist = [] ∧ kvmAllocPage k = .error (.panic .noMappedPage)) ∨
      ∃ page kvmlist',
        kvmAllocPage k = .ok (page, k.setKvmlist kvmlist') ∧
        availablePages k.kvmlist = page :: availablePages kvmlist' ∧
        SameMapped k.kvmlist kvmlist' := by
  cases hscan : kvmScan k.kvmlist VmBlock.available nvmBlocks 0 with
  | none =>
      have hnone := kvmScan_none hscan
      refine Or.inl ⟨?_, by simp [kvmAllocPage, hscan]⟩
      rw [availablePages, List.map_eq_nil_iff, List.filter_eq_nil_iff]
      intro i hi
      simp [hnone i (Nat.zero_le i) (by simpa using hi)]
  | some i =>
      obtain ⟨_, hi, havail, hfirst⟩ := kvmScan_some hscan
      refine Or.inr ⟨(k.kvmlist i).address,
        setBlock k.kvmlist i (k.kvmlist i).use, by simp [kvmAllocPage, hscan],
        ?_, sameMapped_use k.kvmlist i⟩
      exact availablePages_use (by simpa using hi) havail
        fun j hj => hfirst j (Nat.zero_le j) hj

theorem mem_availablePages {kvmlist : Nat → VmBlock} {page : Nat} :
    page ∈ availablePages kvmlist ↔ ∃ i < nvmBlocks,
      (kvmlist i).available = true ∧ (kvmlist i).address = page := by
  simp only [availablePages, List.mem_map, List.mem_filter, List.mem_range,
    and_assoc]

/-- `kvm_init` leaves the entries with pairwise distinct addresses. -/
theorem availablePages_nodup {kvmlist : Nat → VmBlock}
    (haddr : ∀ i < nvmBlocks, (kvmlist i).address = kernBase + i * pgSize) :
    (availablePages kvmlist).Nodup := by
  rw [availablePages]
  refine List.Nodup.map_on ?_ (List.nodup_range.filter _)
  intro i hi j hj heq
  have hi' := List.mem_range.mp (List.mem_of_mem_filter hi)
  have hj' := List.mem_range.mp (List.mem_of_mem_filter hj)
  rw [haddr i hi', haddr j hj'] at heq
  simp only [pgSize] at heq
  omega

-- unfolding it in a unification problem would count to `nvmBlocks`
attribute [irreducible] availablePages

end Linda
