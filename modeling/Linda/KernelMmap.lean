/-
The paging code of mmap.c: mapping and unmapping a page, the list of mappings
behind `mmaplist`, the directories of processes and the page fault handler.

The direct map [KERNBASE, KERNBASE+MEM_NORMAL) is read and written flat; every
other access of the kernel goes through the tables behind `cr3`.
-/
import Linda.KernelHeap
import Linda.PageWalk

namespace Linda

open ByteMemory FuelLoop

/-- Where in `mem` an access of the kernel at `va` goes. -/
def resolve (k : Kernel) (va : Nat) : Option Nat :=
  if kernBase ≤ va ∧ va < kernBase + memNormal then some va
  else (pageWalk k.mem k.cr3 va).map fun t =>
    kernBase + t.frame + va % pgSize

def loadByte (k : Kernel) (va : Nat) : Except Halt UInt8 :=
  match resolve k va with
  | some x => .ok (k.mem x)
  | none => .error (.fault va)

def storeByte (k : Kernel) (va : Nat) (b : UInt8) : Except Halt Kernel :=
  match resolve k va with
  | some x => .ok (k.setMem (store8 k.mem x b))
  | none => .error (.fault va)

def loadWord (k : Kernel) (va : Nat) : Except Halt Nat := do
  let b₀ ← loadByte k (u32 va)
  let b₁ ← loadByte k (u32 (va + 1))
  let b₂ ← loadByte k (u32 (va + 2))
  let b₃ ← loadByte k (u32 (va + 3))
  .ok (b₀.toNat + 256 * b₁.toNat + 65536 * b₂.toNat + 16777216 * b₃.toNat)

def storeWord (k : Kernel) (va v : Nat) : Except Halt Kernel := do
  let k ← storeByte k (u32 va) (UInt8.ofNat v)
  let k ← storeByte k (u32 (va + 1)) (UInt8.ofNat (v / 256))
  let k ← storeByte k (u32 (va + 2)) (UInt8.ofNat (v / 65536))
  storeByte k (u32 (va + 3)) (UInt8.ofNat (v / 16777216))

/-- `sizeof(struct mmap_block)` -/
def mmapBlockSize : Nat := 16

/-- One round of the `while` of `mmap_do_unmap`. -/
def unlinkBody (va fuel : Nat) : Kernel × Nat × Nat × Nat →
    Except Halt ((Kernel × Nat × Nat × Nat) ⊕ Kernel)
  | (k, last, map, first) =>
      if map = 0 then .ok (.inr k)
      else do
        let virtAddr ← loadWord k map
        if virtAddr &&& pgMask = va &&& pgMask then
          if first ≠ 0 then do
            let next ← loadWord k (map + 12)
            let k ← storeWord k (last + 12) next
            let k ← kmfree fuel k map
            .ok (.inr k)
          else do
            -- the rest of the list goes with its first node
            let k ← kmfree fuel { k with mmaplist := 0 } map
            .ok (.inr k)
        else do
          let next ← loadWord k (map + 12)
          .ok (.inl (k, map, next, first + 1))

def mmapDoUnmap (fuel : Nat) (k : Kernel) (mmap va : Nat) :
    Except Halt Kernel := do
  let pde ← loadWord k (mmap + 4 * pdx va)
  if pde &&& pgMask = 0 then .ok k
  else do
    let pgtbl := p2v (pde &&& pgMask)
    let k ← storeWord k (pgtbl + 4 * ptx va) 0
    loop .spin (unlinkBody va fuel) fuel (k, k.mmaplist, k.mmaplist, 0)

/-- The first half of `mmap_do_map`: the entry of the page, in a new table if
the directory has none. -/
def mapEntry (k : Kernel) (mmap va pa flags : Nat) : Except Halt Kernel := do
  let pde ← loadWord k (mmap + 4 * pdx va)
  if pde &&& pgMask = 0 then do
    let (pgtbl, k) ← kvmAllocPage k
    let k := k.setMem (memset k.mem pgtbl 0 pgSize)
    let k ← storeWord k (mmap + 4 * pdx va) (pteWord (v2p pgtbl) flags)
    storeWord k (pgtbl + 4 * ptx va) (pteWord pa flags)
  else
    storeWord k (p2v (pde &&& pgMask) + 4 * ptx va) (pteWord pa flags)

/-- The fields of a list node; its `next` is not among them. -/
def fillBlock (k : Kernel) (map va pa : Nat) : Except Halt Kernel := do
  let k ← storeWord k map va
  let k ← storeWord k (map + 4) pa
  storeByte k (u32 (map + 8)) 1

/-- One round of the `while` of `mmap_do_map`, up to a node not in use. -/
def findUnusedBody (k : Kernel) :
    Nat × Nat → Except Halt ((Nat × Nat) ⊕ (Nat × Nat))
  | (last, map) =>
      if map = 0 then .ok (.inr (last, map))
      else do
        let mapped ← loadByte k (u32 (map + 8))
        if mapped ≠ 0 then do
          let next ← loadWord k (map + 12)
          .ok (.inl (map, next))
        else .ok (.inr (last, map))

/-- The second half of `mmap_do_map`: the mapping enters `mmaplist`. -/
def recordMap (fuel : Nat) (k : Kernel) (va pa : Nat) : Except Halt Kernel :=
  if k.mmaplist = 0 then do
    let (map, k) ← kmalloc fuel k mmapBlockSize
    let k ← fillBlock k map (va &&& pgMask) (pa &&& pgMask)
    .ok { k with mmaplist := map }
  else do
    let (last, map) ← loop .spin (findUnusedBody k) fuel (0, k.mmaplist)
    if map ≠ 0 then fillBlock k map va pa
    else do
      let (map, k) ← kmalloc fuel k mmapBlockSize
      let k ← fillBlock k map va pa
      storeWord k (last + 12) map

def mmapDoMap (fuel : Nat) (k : Kernel) (mmap va pa flags : Nat) :
    Except Halt Kernel := do
  let k ← mmapDoUnmap fuel k mmap va
  let k ← mapEntry k mmap va pa flags
  recordMap fuel k va pa

/-- The `for` of `umap_init` over `n` entries from `i` on. -/
def copyEntries (kpgdir pgdir : Nat) : Nat → Nat → Kernel → Except Halt Kernel
  | 0, _, k => .ok k
  | n + 1, i, k => do
      let pde ← loadWord k (kpgdir + 4 * i)
      let k ← storeWord k (pgdir + 4 * i) pde
      copyEntries kpgdir pgdir n (i + 1) k

/-- A page directory for a process: the user half of the page stays as
`kvm_alloc_page` returned it. -/
def umapInit (kpgdir : Nat) (k : Kernel) : Except Halt (Nat × Kernel) := do
  let (pgdir, k) ← kvmAllocPage k
  let k ← copyEntries kpgdir pgdir (npdEntries - pdx kernBase) (pdx kernBase) k
  .ok (pgdir, k)

def copyUp (dest src : Nat) : Nat → Kernel → Except Halt Kernel
  | 0, k => .ok k
  | count + 1, k => do
      let b ← loadByte k (u32 src)
      let k ← storeByte k (u32 dest) b
      copyUp (dest + 1) (src + 1) count k

def copyDown (dest src : Nat) : Nat → Kernel → Except Halt Kernel
  | 0, k => .ok k
  | count + 1, k => do
      let b ← loadByte k (u32 (src + count))
      let k ← storeByte k (u32 (dest + count)) b
      copyDown dest src count k

/-- `memmove` of lib/string.c. -/
def memmove (k : Kernel) (dest src count : Nat) : Except Halt Kernel :=
  if dest ≤ src then copyUp dest src count k else copyDown dest src count k

def uvmInit (kpgdir fuel : Nat) (k : Kernel) (pgdir init sz : Nat) :
    Except Halt Kernel := do
  let (phyMem, memMap) := phyMemAlloc k.memMap
  let virtMem ← kvmAllocUmappedPage k
  if pgSize < sz then .error (.panic .programTooBig)
  else if phyMem = 0 then .error (.panic .noPhysicalPage)
  else do
    let k ← mmapDoMap fuel { k with memMap := memMap } kpgdir virtMem phyMem 0
    let k ← memmove k virtMem init sz
    let k ← mmapDoUnmap fuel k kpgdir virtMem
    mmapDoMap fuel k pgdir 0 phyMem pteU

/-- The offset of `pgdir` in `struct process`. -/
def pgdirOffset : Nat := 16

/-- The handler looks neither at the error code nor at a `NULL` frame. -/
def pageFaultHandler (kpgdir fuel : Nat) (k : Kernel) (addr : Nat) :
    Except Halt Kernel :=
  let (frame, memMap) := phyMemAlloc k.memMap
  if kernBase ≤ addr then
    mmapDoMap fuel { k with memMap := memMap } kpgdir addr frame 0
  else
    match k.curproc with
    | some pgdir =>
        mmapDoMap fuel { k with memMap := memMap } pgdir addr frame pteU
    | none => .error (.fault pgdirOffset)

/-- `switch_to_uvm`, after the scheduler made the process the current one. -/
def Kernel.switchToUvm (k : Kernel) (pgdir : Nat) : Kernel :=
  { k with curproc := some pgdir, cr3 := v2p pgdir }

/-- `switch_to_kvm`; the current process stays the current one. -/
def Kernel.switchToKvm (k : Kernel) (kpgdir : Nat) : Kernel :=
  { k with cr3 := v2p kpgdir }

end Linda
