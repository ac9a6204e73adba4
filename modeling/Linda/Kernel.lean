/-
The kernel state shared by the memory modules, and the ways a kernel function
stops without returning.

Kernel pointers address `mem` directly: the byte the direct map shows at
`KERNBASE + p` is the physical byte `p`, and that is also its index here.
-/
import Linda.ByteMemory
import Linda.FrameStack

namespace Linda

open ByteMemory

/-- The panics of mm/, by the message they print. -/
inductive Panic where
  | splitTooSmall
  | splitUsed
  | glueEmpty
  | noChunk
  | noHeap
  | noMappedPage
  | noUnmappedPage
  | freeOutside
  | mapOutside
  | programTooBig
  | noPhysicalPage
deriving Repr, DecidableEq

/-- The format strings of their calls of `panic`. -/
def Panic.text : Panic → String
  | .splitTooSmall => "chunk_split: kmem chunk does`t have enough size!\n"
  | .splitUsed => "chunk_split: cannot split used kmem chunk!\n"
  | .glueEmpty => "chunk_glue: these is no memory chunk to glue!\n"
  | .noChunk => "kmalloc: there is no enough free memory!\n"
  | .noHeap => "kmalloc: annot alloc any memory, sorry!\n"
  | .noMappedPage => "no free mapped page!\n"
  | .noUnmappedPage => "kvm_alloc_umapped_page: no page!\n"
  | .freeOutside => "kvm_free_page: 0x%x is not in kernel!\n"
  | .mapOutside => "kvm_map_page: 0x%x is not in kernel!\n"
  | .programTooBig => "uvm_init: more than a page!\n"
  | .noPhysicalPage => "uvm_init: no physical page!\n"

/-- `fault` is a memory access of the kernel itself that its page tables do
not allow, `spin` a loop that outran its fuel. -/
inductive Halt where
  | panic (why : Panic)
  | fault (addr : Nat)
  | spin
deriving Repr, DecidableEq

/-- `struct vm_block`. -/
structure VmBlock where
  address : Nat
  status : UInt8
deriving Repr, DecidableEq

/-- The memory and the globals of mm/: the heap, the pages of the kernel, the
frames and the list of mappings, with the directory and the process in use. -/
structure Kernel where
  mem : Memory
  kmemList : Nat
  kvmlist : Nat → VmBlock
  memMap : MemMap
  mmaplist : Nat
  /-- physical address of the page directory the hardware uses -/
  cr3 : Nat
  /-- `pgdir` of `curcpu.curprocess`, none while that is `NULL` -/
  curproc : Option Nat

/-- The kernel after a store. -/
def Kernel.setMem (k : Kernel) (m : Memory) : Kernel := { k with mem := m }

/-- The kernel after a change of page states. -/
def Kernel.setKvmlist (k : Kernel) (kvmlist : Nat → VmBlock) : Kernel :=
  { k with kvmlist := kvmlist }

namespace Kernel

variable (k : Kernel) (m m' : Memory) (kvmlist : Nat → VmBlock)

@[simp] theorem setMem_mem : (k.setMem m).mem = m := rfl
@[simp] theorem setMem_kmemList : (k.setMem m).kmemList = k.kmemList := rfl
@[simp] theorem setMem_kvmlist : (k.setMem m).kvmlist = k.kvmlist := rfl
@[simp] theorem setMem_memMap : (k.setMem m).memMap = k.memMap := rfl
@[simp] theorem setMem_mmaplist : (k.setMem m).mmaplist = k.mmaplist := rfl
@[simp] theorem setMem_cr3 : (k.setMem m).cr3 = k.cr3 := rfl
@[simp] theorem setMem_curproc : (k.setMem m).curproc = k.curproc := rfl
@[simp] theorem setMem_setMem : (k.setMem m).setMem m' = k.setMem m' := rfl

@[simp] theorem setKvmlist_mem : (k.setKvmlist kvmlist).mem = k.mem := rfl
@[simp] theorem setKvmlist_kmemList :
    (k.setKvmlist kvmlist).kmemList = k.kmemList := rfl
@[simp] theorem setKvmlist_kvmlist :
    (k.setKvmlist kvmlist).kvmlist = kvmlist := rfl
@[simp] theorem setKvmlist_memMap :
    (k.setKvmlist kvmlist).memMap = k.memMap := rfl
@[simp] theorem setKvmlist_mmaplist :
    (k.setKvmlist kvmlist).mmaplist = k.mmaplist := rfl
@[simp] theorem setKvmlist_cr3 : (k.setKvmlist kvmlist).cr3 = k.cr3 := rfl
@[simp] theorem setKvmlist_curproc :
    (k.setKvmlist kvmlist).curproc = k.curproc := rfl

@[simp] theorem setKvmlist_setKvmlist (kvmlist' : Nat → VmBlock) :
    (k.setKvmlist kvmlist).setKvmlist kvmlist' = k.setKvmlist kvmlist' := rfl

end Kernel

end Linda
