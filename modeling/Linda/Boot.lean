/-
The boot of the memory system, in the order of kern_bootstrap: phy_mem_init,
kmap_init and kvm_init, on a machine whose memory map and memory contents are
parameters.
-/
import Linda.KernelMmap

namespace Linda

open ByteMemory FuelLoop

/-- The linked kernel: where kernel.ld puts the symbols the boot code reads.
The text starts at `KERNLINK`, and entry.S maps 12 MB. -/
structure Image where
  kpgdir : Nat
  kpgtbl : Nat
  kernEnd : Nat
  bootPgdir : Nat
  kpgdir_aligned : kpgdir % 4096 = 0
  kpgtbl_aligned : kpgtbl % 4096 = 0
  kpgdir_lo : kernBase + extMem ≤ kpgdir
  kpgtbl_lo : kernBase + extMem ≤ kpgtbl
  kpgdir_hi : kpgdir + 4096 ≤ kernEnd
  kpgtbl_hi : kpgtbl + 4194304 ≤ kernEnd
  apart : kpgdir + 4096 ≤ kpgtbl ∨ kpgtbl + 4194304 ≤ kpgdir
  kernEnd_hi : kernEnd ≤ kernBase + 0xC00000

/-- `kern_start` -/
def kernStart : Nat := kernBase + extMem

/-- The fields of `struct multiboot_mmap_entry` the kernel reads. -/
structure MmapEntry where
  addrLow : Nat
  lenLow : Nat
  type : Nat
deriving Repr, DecidableEq

/-- `MULTIBOOT_MEMORY_AVAILABLE` -/
def memoryAvailable : Nat := 1

/-- The `for` of `phy_mem_init` over the entries it visits.  `bounds` is what
the uninitialised `start_addr` and `end_addr` hold. -/
def memoryBounds (image : Image) (bounds : Nat × Nat)
    (entries : List MmapEntry) : Nat × Nat :=
  entries.foldl (fun bounds mapEntry =>
    if mapEntry.type = memoryAvailable ∧ mapEntry.addrLow = extMem then
      (u32 (mapEntry.addrLow + (image.kernEnd - kernStart)),
        u32 (mapEntry.addrLow + mapEntry.lenLow))
    else bounds) bounds

/-- One round of the `while` of `phy_mem_init`. -/
def pushBody (startAddr : Nat) :
    MemMap × Nat → Except Halt ((MemMap × Nat) ⊕ MemMap)
  | (memMap, endAddr) =>
      if startAddr ≤ endAddr then
        let memMap := phyMemFree memMap endAddr
        .ok (.inl ({ memMap with pageCount := u32 (memMap.pageCount + 1) },
          sub32 endAddr pgSize))
      else .ok (.inr memMap)

def phyMemInit (image : Image) (bounds : Nat × Nat) (entries : List MmapEntry)
    (fuel : Nat) (memMap : MemMap) : Except Halt MemMap :=
  let (startAddr, endAddr) := memoryBounds image bounds entries
  loop .spin (pushBody (pgRoundUp startAddr)) fuel
    (memMap, pgRoundDown endAddr)

/-- The page table below entry `pdx` of `kpgdir`; an empty entry gets the one
of `kpgtbl`. -/
def bootTable (image : Image) (m : Memory) (pdx : Nat) : Nat × Memory :=
  let pgtbl := entry m image.kpgdir pdx &&& pgMask
  if pgtbl = 0 then
    let pgtbl := image.kpgtbl + 4096 * pdx
    (pgtbl, setEntry m image.kpgdir pdx (pteWord (v2p pgtbl) 0))
  else (p2v pgtbl, m)

/-- One round of the first `while` of `kmap_init`. -/
def identityBody (image : Image) :
    Kernel × Nat → Except Halt ((Kernel × Nat) ⊕ Kernel)
  | (k, phyAddr) =>
      if phyAddr < memNormal then do
        let virtAddr := p2v phyAddr
        let (pgtbl, m) := bootTable image k.mem (pdx virtAddr)
        let m := setEntry m pgtbl (ptx virtAddr) (pteWord phyAddr 0)
        let k ← kvmMapPage (k.setMem m) virtAddr
        let k ← kvmFreePage k virtAddr
        .ok (.inl (k, u32 (phyAddr + pgSize)))
      else .ok (.inr k)

/-- One round of the second `while`: the frames of the direct map leave the
allocator. -/
def drainBody : MemMap × Nat → Except Halt ((MemMap × Nat) ⊕ (MemMap × Nat))
  | (memMap, phyAddr) =>
      if phyAddr < memNormal then
        let (phyAddr, memMap) := phyMemAlloc memMap
        .ok (.inl (memMap, phyAddr))
      else .ok (.inr (memMap, phyAddr))

def kmapInit (image : Image) (fuel : Nat) (k : Kernel) :
    Except Halt Kernel := do
  let k ← loop .spin (identityBody image) fuel (k, 0)
  let (memMap, phyAddr) ← loop .spin drainBody fuel (k.memMap, 0)
  let memMap :=
    if memNormal ≤ phyAddr then phyMemFree memMap phyAddr else memMap
  .ok { k with memMap := memMap, cr3 := v2p image.kpgdir }

/-- `virt_kern_addr`: the list of free frames stands behind the kernel. -/
def virtKernAddr (image : Image) (memMap : MemMap) : Nat :=
  u32 (image.kernEnd + memMap.pageCount * 4)

/-- `kvm_init`; the rounds of its `for` are independent. -/
def kvmInit (image : Image) (k : Kernel) : Kernel :=
  let kernAddr := virtKernAddr image k.memMap
  k.setKvmlist fun i =>
    if i < nvmBlocks then
      ⟨u32 (kernBase + i * pgSize),
        if p2v (i * pgSize) ≤ kernAddr then
          (k.kvmlist i).status ||| (vmUsed ||| vmMapped)
        else (k.kvmlist i).status⟩
    else k.kvmlist i

/-- The kernel entry.S starts: its own variables are zero, `ram` is the rest
of memory and `slots` the memory behind the kernel. -/
def loadedKernel (image : Image) (ram : Memory) (slots : Int → Nat) :
    Kernel where
  mem := ram
  kmemList := 0
  kvmlist := fun _ => ⟨0, 0⟩
  memMap := .zeroed slots
  mmaplist := 0
  cr3 := image.bootPgdir
  curproc := none

/-- The memory part of kern_bootstrap. -/
def boot (image : Image) (bounds : Nat × Nat) (entries : List MmapEntry)
    (fuel : Nat) (k : Kernel) : Except Halt Kernel := do
  let memMap ← phyMemInit image bounds entries fuel k.memMap
  let k ← kmapInit image fuel { k with memMap := memMap }
  .ok (kvmInit image k)

/-- The frames in the list of the allocator. -/
def Pushed (memMap : MemMap) (frame : Nat) : Prop :=
  ∃ i : Int, 1 ≤ i ∧ i ≤ memMap.header ∧ memMap.freeList i = frame

end Linda
