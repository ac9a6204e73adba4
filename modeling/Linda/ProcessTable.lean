/-
The process table and what `alloc_process` builds on a new kernel stack, byte
for byte: the structures of process.h and mach.h as the C compiler lays them
out, and the stores into them.
-/
import Linda.X86
import Linda.KernelPages
import Linda.Scheduler

namespace Linda

open ByteMemory WordStack X86

structure CType where
  size : Nat
  align : Nat

def ushortType : CType := ⟨2, 2⟩
def uintType : CType := ⟨4, 4⟩
def pointerType : CType := ⟨4, 4⟩
def enumType : CType := ⟨4, 4⟩

def alignTo (align n : Nat) : Nat := (n + align - 1) / align * align

section Struct

variable {α : Type} [DecidableEq α] (type : α → CType)

/-- The offset of field `f` when the fields before start at `n`. -/
def fieldOffset (f : α) : List α → Nat → Nat
  | [], n => n
  | g :: fields, n =>
      let offset := alignTo (type g).align n
      if g = f then offset else fieldOffset f fields (offset + (type g).size)

/-- `sizeof`, padded to whole multiples of the strictest alignment. -/
def structSize (fields : List α) : Nat :=
  alignTo ((fields.map fun f => (type f).align).foldr max 1)
    (fields.foldl (fun n f => alignTo (type f).align n + (type f).size) 0)

end Struct

inductive TrapField where
  | edi
  | esi
  | ebp
  | oesp
  | ebx
  | edx
  | ecx
  | eax
  | gs
  | padding1
  | fs
  | padding2
  | es
  | padding3
  | ds
  | padding4
  | trapno
  | err
  | eip
  | cs
  | padding5
  | eflags
  | esp
  | ss
  | padding6
deriving Repr, DecidableEq

namespace TrapField

def type : TrapField → CType
  | .gs | .fs | .es | .ds | .cs | .ss => ushortType
  | .padding1 | .padding2 | .padding3 | .padding4 | .padding5 | .padding6 =>
      ushortType
  | _ => uintType

/-- `struct trapframe`. -/
def fields : List TrapField :=
  [.edi, .esi, .ebp, .oesp, .ebx, .edx, .ecx, .eax, .gs, .padding1, .fs,
    .padding2, .es, .padding3, .ds, .padding4, .trapno, .err, .eip, .cs,
    .padding5, .eflags, .esp, .ss, .padding6]

def offset (f : TrapField) : Nat := fieldOffset type f fields 0

end TrapField

/-- `sizeof(struct trapframe)` -/
def trapframeSize : Nat := structSize TrapField.type TrapField.fields

inductive ContextField where
  | edi
  | esi
  | ebx
  | ebp
  | eip
deriving Repr, DecidableEq

namespace ContextField

def type (_ : ContextField) : CType := uintType

/-- `struct context`. -/
def fields : List ContextField := [.edi, .esi, .ebx, .ebp, .eip]

def offset (f : ContextField) : Nat := fieldOffset type f fields 0

end ContextField

/-- `sizeof(struct context)` -/
def contextSize : Nat := structSize ContextField.type ContextField.fields

inductive ProcessField where
  | size
  | pid
  | context
  | kstack
  | pgdir
  | state
  | parent
  | tf
  | killed
  | name
deriving Repr, DecidableEq

namespace ProcessField

def type : ProcessField → CType
  | .size | .pid | .killed => uintType
  | .context | .kstack | .pgdir | .parent | .tf => pointerType
  | .state => enumType
  | .name => ⟨64, 1⟩

/-- `struct process`. -/
def fields : List ProcessField :=
  [.size, .pid, .context, .kstack, .pgdir, .state, .parent, .tf, .killed, .name]

def offset (f : ProcessField) : Nat := fieldOffset type f fields 0

end ProcessField

/-- `sizeof(struct process)` -/
def processSize : Nat := structSize ProcessField.type ProcessField.fields

/-- `sizeof(struct spinlock)`: the flag and the name, before the processes in
`struct process_table`. -/
def spinlockSize : Nat := 8

theorem trapframeSize_eq : trapframeSize = 76 := by decide

theorem contextSize_eq : contextSize = 20 := by decide

theorem processSize_eq : processSize = 100 := by decide

/-- `sizeof(struct process_table)` -/
def ptableSize : Nat := spinlockSize + processSize * nproc

/-- `n` bytes from `a` on and `n'` bytes from `b` on. -/
def NoOverlap (a n b n' : Nat) : Prop := a + n ≤ b ∨ b + n' ≤ a

instance (a n b n' : Nat) : Decidable (NoOverlap a n b n') :=
  inferInstanceAs (Decidable (a + n ≤ b ∨ b + n' ≤ a))

/-- The addresses the linker gives.  The boot stack of entry.S is the one
`scheduler` runs on. -/
structure Symbols where
  kernEnd : Nat
  ptable : Word
  /-- `curcpu`, with the pointer `scheduler` first -/
  curcpu : Word
  kstackBottom : Word
  forkret : Word
  trapret : Word
  switchContext : Word
  kernEnd_le : kernEnd ≤ 4294967296
  ptable_le : ptable.toNat + ptableSize ≤ kernEnd
  curcpu_le : curcpu.toNat + 4 ≤ kernEnd
  kstackBottom_le : kstackBottom.toNat + 4096 ≤ kernEnd
  ptable_curcpu : NoOverlap ptable.toNat ptableSize curcpu.toNat 4
  ptable_kstack : NoOverlap ptable.toNat ptableSize kstackBottom.toNat 4096
  curcpu_kstack : NoOverlap curcpu.toNat 4 kstackBottom.toNat 4096

/-- `&ptable.process[i].context` -/
def Symbols.context (sym : Symbols) (i : Nat) : Word :=
  sym.ptable + BitVec.ofNat 32
    (spinlockSize + processSize * i + ProcessField.offset .context)

/-- `&curcpu.scheduler` -/
def Symbols.scheduler (sym : Symbols) : Word := sym.curcpu

def kstackSize : Word := 4096

/-- A slot of the table without `context`, which lies in memory where
`switch_context` stores it. -/
structure ProcessSlot where
  pid : Word
  kstack : Word
  pgdir : Word
  state : PState
  tf : Word

structure ProcessTable where
  process : Nat → ProcessSlot
  nextpid : Word

def ProcessTable.set (t : ProcessTable) (i : Nat) (p : ProcessSlot) :
    ProcessTable :=
  { t with process := fun j => if j = i then p else t.process j }

/-- The frame, the address of `trapret` and the context, from the top of the
kernel stack down. -/
def tfOf (kstack : Word) : Word :=
  kstack + kstackSize - BitVec.ofNat 32 trapframeSize

def contextOf (kstack : Word) : Word :=
  tfOf kstack - 4 - BitVec.ofNat 32 contextSize

/-- What `alloc_process` stores for slot `i`. -/
def stackMemory (sym : Symbols) (i : Nat) (kstack : Word) (m : Memory) :
    Memory :=
  let m := putWord m (tfOf kstack - 4) sym.trapret
  let m := putWord m (sym.context i) (contextOf kstack)
  let m := fill m (contextOf kstack).toNat contextSize 0
  putWord m (contextOf kstack + BitVec.ofNat 32 (ContextField.offset .eip))
    sym.forkret

/-- `none` is `NULL`; a slot that got no stack is `UNUSED` again. -/
def allocProcess (sym : Symbols) (t : ProcessTable) (k : Kernel) :
    Except Halt (Option Nat × ProcessTable × Kernel) :=
  match (List.range nproc).find? fun i => (t.process i).state = .unused with
  | none => .ok (none, t, k)
  | some i =>
      let p := { t.process i with state := .embryo, pid := t.nextpid }
      let t := { t with nextpid := t.nextpid + 1 }
      match kvmAllocPage k with
      | .error why => .error why
      | .ok (page, k) =>
          let kstack := BitVec.ofNat 32 page
          if kstack = 0 then
            .ok (none, t.set i { p with kstack, state := .unused }, k)
          else
            .ok (some i, t.set i { p with kstack, tf := tfOf kstack },
              k.setMem (stackMemory sym i kstack k.mem))

def segKdata : Nat := 2
def segUcode : Nat := 3
def segUdata : Nat := 4
def dplUser : Nat := 3

/-- The task state that `switch_to_uvm` loads for a process. -/
def ProcessSlot.tss (p : ProcessSlot) : Tss :=
  ⟨p.kstack + kstackSize, BitVec.ofNat 16 (segKdata <<< 3)⟩

/-- The selector of a user segment. -/
def userSelector (seg : Nat) : Selector :=
  BitVec.ofNat 16 (seg <<< 3 ||| dplUser)

/-- How `uinitproc_setup` fills the trap frame. -/
def setupFrame (tf : Word) (m : Memory) : Memory :=
  let field (f : TrapField) : Word := tf + BitVec.ofNat 32 f.offset
  let m := fill m tf.toNat trapframeSize 0
  let m := putHalf m (field .cs) (userSelector segUcode)
  let m := putHalf m (field .ds) (userSelector segUdata)
  let m := putHalf m (field .es) (halfAt m (field .ds))
  let m := putHalf m (field .ss) (halfAt m (field .ds))
  let m := putWord m (field .eflags) interruptFlag
  let m := putWord m (field .esp) (BitVec.ofNat 32 pgSize)
  putWord m (field .eip) 0

/-- The registers a process starts with. -/
def initialCpu : Cpu where
  eax := 0
  ecx := 0
  edx := 0
  ebx := 0
  esp := BitVec.ofNat 32 pgSize
  ebp := 0
  esi := 0
  edi := 0
  eip := 0
  eflags := interruptFlag
  cs := userSelector segUcode
  ds := userSelector segUdata
  es := userSelector segUdata
  fs := 0
  gs := 0
  ss := userSelector segUdata

variable {sym : Symbols} {t t' : ProcessTable} {k k' : Kernel} {i : Nat}

@[simp] theorem ProcessTable.set_same (t : ProcessTable) (i : Nat)
    (p : ProcessSlot) : (t.set i p).process i = p := if_pos rfl

theorem ProcessTable.set_of_ne (t : ProcessTable) {i j : Nat} (p : ProcessSlot)
    (h : j ≠ i) : (t.set i p).process j = t.process j := if_neg h

/-- A process with a stack of its own. -/
theorem allocProcess_some
    (h : allocProcess sym t k = .ok (some i, t', k')) :
    ∃ page k₁, i < nproc ∧ (t.process i).state = .unused ∧
      kvmAllocPage k = .ok (page, k₁) ∧ BitVec.ofNat 32 page ≠ 0 ∧
      t' = ({ t with nextpid := t.nextpid + 1 } : ProcessTable).set i
        { t.process i with
          state := .embryo, pid := t.nextpid
          kstack := BitVec.ofNat 32 page
          tf := tfOf (BitVec.ofNat 32 page) } ∧
      k' = k₁.setMem (stackMemory sym i (BitVec.ofNat 32 page) k₁.mem) := by
  rw [allocProcess] at h
  cases hfind : (List.range nproc).find?
      fun i => (t.process i).state = .unused with
  | none =>
      rw [hfind] at h
      cases h
  | some j =>
      rw [hfind] at h
      have hstate := List.find?_some hfind
      have hmem := List.mem_of_find?_eq_some hfind
      cases hpage : kvmAllocPage k with
      | error why =>
          simp only [hpage] at h
          cases h
      | ok r =>
          simp only [hpage] at h
          split_ifs at h with hzero
          · cases h
          · cases h
            exact ⟨r.1, r.2, List.mem_range.mp hmem, of_decide_eq_true hstate,
              rfl, hzero, rfl, rfl⟩

theorem allocProcess_tf (h : allocProcess sym t k = .ok (some i, t', k')) :
    (t'.process i).tf = tfOf (t'.process i).kstack := by
  obtain ⟨page, k₁, -, -, -, -, rfl, -⟩ := allocProcess_some h
  rw [ProcessTable.set_same]

end Linda
