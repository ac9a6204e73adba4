/-
Processes that take turns: what a process leaves on its kernel stack is there
when it is dispatched the next time.
-/
import Linda.ContextSwitch
import Linda.KvmHistory
import Linda.ProcessStack

namespace Linda

open ByteMemory WordStack X86

/-- `running` is the process whose kernel stack is in use; without one it is
the scheduler's, which is the boot stack. -/
structure System where
  kernel : Kernel
  table : ProcessTable
  cpu : Cpu
  running : Option Nat

inductive SwitchEvent where
  | allocProcess
  /-- the rest of `uinitproc_setup` for a process it allocated -/
  | setup (i : Nat) (pgdir : Word)
  | kvm (call : KvmCall)
  /-- anything else that whoever runs does -/
  | work (mem : Memory) (cpu : Cpu)
  | dispatch (i : Nat)
  | yieldCpu

namespace System

variable (sym : Symbols) (x : System)

def state : State := ⟨x.cpu, x.kernel.mem⟩

def Live (i : Nat) : Prop := i < nproc ∧ (x.table.process i).state ≠ .unused

/-- The scheduler or a process. -/
def Thread : Option Nat → Prop
  | none => True
  | some i => x.Live i

def stack : Option Nat → Word
  | none => sym.kstackBottom
  | some i => (x.table.process i).kstack

/-- A page with the kernel image or the stack of a process in it. -/
def Held (block : Nat) : Prop :=
  kernBase + block * pgSize < sym.kernEnd ∨
    ∃ i, x.Live i ∧
      (x.table.process i).kstack.toNat = kernBase + block * pgSize

end System

/-- A thread that has a pointer, be it live or not. -/
def InTable : Option Nat → Prop
  | none => True
  | some i => i < nproc

/-- Where the stack pointer of a thread that does not run is kept. -/
def Symbols.pointer (sym : Symbols) : Option Nat → Word
  | none => sym.scheduler
  | some i => sym.context i

def regionAt (a : Word) (n : Nat) : Set Nat := Set.Ico a.toNat (a.toNat + n)

/-- `here` is about to call `switch_context` for `there`, in the kernel and
with room on its stack. -/
structure System.CallsSwitch (sym : Symbols) (x : System)
    (here there : Option Nat) : Prop where
  running : x.running = here
  level : x.cpu.cpl = 0
  args : x.state.Holds [.word (sym.pointer here),
    .word (wordAt x.kernel.mem (sym.pointer there))]
  low : (x.stack sym here).toNat + contextSize ≤ x.cpu.esp.toNat
  high : x.cpu.esp.toNat + 8 ≤ (x.stack sym here).toNat + 4096

namespace SwitchEvent

variable (pad : Word → Selector) (sym : Symbols)

def exec (event : SwitchEvent) (x : System) : Except Halt System :=
  match event with
  | .allocProcess =>
      match Linda.allocProcess sym x.table x.kernel with
      | .ok (_, table, kernel) => .ok { x with table, kernel }
      | .error why => .error why
  | .setup i pgdir =>
      let p := x.table.process i
      .ok { x with
        kernel := x.kernel.setMem (setupFrame p.tf x.kernel.mem)
        table := x.table.set i { p with pgdir, state := .runable } }
  | .kvm call =>
      match kvmCall call ⟨x.kernel, []⟩ with
      | .ok r => .ok { x with kernel := r.kernel }
      | .error why => .error why
  | .work mem cpu => .ok { x with kernel := x.kernel.setMem mem, cpu }
  | .dispatch i =>
      let s := callSwitch pad sym x.state
      let p := x.table.process i
      .ok ⟨x.kernel.setMem s.mem, x.table.set i { p with state := .running },
        s.cpu, some i⟩
  | .yieldCpu =>
      let s := callSwitch pad sym x.state
      match x.running with
      | some i =>
          let p := x.table.process i
          .ok ⟨x.kernel.setMem s.mem,
            x.table.set i { p with state := .runable }, s.cpu, none⟩
      | none => .ok x

/-- The event can happen in this state: whoever runs writes no stack but its
own and gives away no page of one. -/
def Occurs (x : System) : SwitchEvent → Prop
  | .allocProcess => True
  | .setup i pgdir =>
      i < nproc ∧ (x.table.process i).state = .embryo ∧ pgdir ≠ 0
  | .kvm call => ∀ addr, call = .free addr ∨ call = .unmap addr →
      ¬ x.Held sym (kvmIndex addr)
  | .work mem _ => ∀ thread, x.Thread thread → thread ≠ x.running →
      Set.EqOn mem x.kernel.mem (regionAt (x.stack sym thread) 4096) ∧
        Set.EqOn mem x.kernel.mem (regionAt (sym.pointer thread) 4)
  | .dispatch i => i < nproc ∧ (x.table.process i).state = .runable ∧
      x.CallsSwitch sym none (some i)
  | .yieldCpu => ∃ i, x.CallsSwitch sym (some i) none

/-- The event wakes the thread up or makes its frame. -/
def Touches : SwitchEvent → Option Nat → Prop
  | .setup i _, thread => thread = some i
  | .dispatch i, thread => thread = some i
  | .yieldCpu, thread => thread = none
  | _, _ => False

end SwitchEvent

/-- What every run keeps. -/
structure System.Sound (sym : Symbols) (x : System) : Prop where
  addressed : Addressed x.kernel.kvmlist
  used : ∀ block < nvmBlocks, x.Held sym block →
    (x.kernel.kvmlist block).used = true
  page : ∀ i, x.Live i → ∃ block < nvmBlocks,
    (x.table.process i).kstack.toNat = kernBase + block * pgSize ∧
      sym.kernEnd ≤ kernBase + block * pgSize
  distinct : ∀ i j, x.Live i → x.Live j →
    (x.table.process i).kstack = (x.table.process j).kstack → i = j
  tf : ∀ i, x.Live i →
    (x.table.process i).tf = tfOf (x.table.process i).kstack
  current : ∀ i, x.running = some i →
    i < nproc ∧ (x.table.process i).state = .running
  fresh : ∀ i, i < nproc → (x.table.process i).state = .embryo →
    wordAt x.kernel.mem (sym.context i) =
        contextOf (x.table.process i).kstack ∧
      StackAt x.kernel.mem (contextOf (x.table.process i).kstack)
        (freshSlots sym)

@[simp] theorem System.stack_some (sym : Symbols) (x : System) (i : Nat) :
    x.stack sym (some i) = (x.table.process i).kstack := rfl

section Regions

variable {sym : Symbols} {x : System} {i j : Nat} {here there : Option Nat}

theorem context_toNat (sym : Symbols) (hi : i < nproc) :
    (sym.context i).toNat = sym.ptable.toNat + (16 + 100 * i) := by
  have hplace := sym.ptable_le
  have hend := sym.kernEnd_le
  have hoffset : ProcessField.offset .context = 8 := by decide
  rw [ptableSize, processSize_eq] at hplace
  rw [Symbols.context, processSize_eq, hoffset]
  simp only [spinlockSize, nproc] at hi hplace ⊢
  bv_omega

/-- The pointers of the processes lie in the table. -/
theorem context_inside (sym : Symbols) (hi : i < nproc) :
    sym.ptable.toNat ≤ (sym.context i).toNat ∧
      (sym.context i).toNat + 4 ≤ sym.ptable.toNat + ptableSize := by
  rw [context_toNat sym hi, ptableSize, processSize_eq]
  simp only [spinlockSize, nproc] at hi ⊢
  omega

theorem System.Thread.inTable (h : x.Thread here) : InTable here := by
  cases here with
  | none => trivial
  | some i => exact h.1

theorem pointer_fits (sym : Symbols) (hhere : InTable here) :
    (sym.pointer here).toNat + 4 ≤ sym.kernEnd := by
  cases here with
  | none => exact sym.curcpu_le
  | some i => exact (context_inside sym hhere).2.trans sym.ptable_le

theorem pointers_apart (sym : Symbols) (hhere : InTable here)
    (hthere : InTable there) (hne : here ≠ there) :
    NoOverlap (sym.pointer here).toNat 4 (sym.pointer there).toNat 4 := by
  have hapart := sym.ptable_curcpu
  rw [NoOverlap] at hapart ⊢
  cases here with
  | none =>
      cases there with
      | none => exact absurd rfl hne
      | some j =>
          have hinside := context_inside sym hthere
          simp only [Symbols.pointer, Symbols.scheduler]
          omega
  | some i =>
      have hinside := context_inside sym hhere
      cases there with
      | none =>
          simp only [Symbols.pointer, Symbols.scheduler]
          omega
      | some j =>
          have hij : i ≠ j := fun h => hne (congrArg some h)
          simp only [Symbols.pointer, context_toNat sym hhere,
            context_toNat sym hthere]
          omega

namespace System.Sound

theorem stack_fits (hs : x.Sound sym) (hhere : x.Thread here) :
    (x.stack sym here).toNat + 4096 ≤ 4294967296 := by
  cases here with
  | none => exact sym.kstackBottom_le.trans sym.kernEnd_le
  | some i =>
      obtain ⟨block, hblock, hpage, -⟩ := hs.page i hhere
      rw [System.stack, hpage]
      simp only [kernBase, pgSize, nvmBlocks] at hblock ⊢
      omega

/-- A stack of a process lies behind the kernel image. -/
theorem kernEnd_le_stack (hs : x.Sound sym) (hi : x.Live i) :
    sym.kernEnd ≤ (x.table.process i).kstack.toNat := by
  obtain ⟨block, -, hpage, hend⟩ := hs.page i hi
  rw [hpage]
  exact hend

theorem stacks_apart (hs : x.Sound sym) (hhere : x.Thread here)
    (hthere : x.Thread there) (hne : here ≠ there) :
    NoOverlap (x.stack sym here).toNat 4096 (x.stack sym there).toNat 4096 := by
  cases here with
  | none =>
      cases there with
      | none => exact absurd rfl hne
      | some j =>
          exact .inl (sym.kstackBottom_le.trans (hs.kernEnd_le_stack hthere))
  | some i =>
      cases there with
      | none =>
          exact .inr (sym.kstackBottom_le.trans (hs.kernEnd_le_stack hhere))
      | some j =>
          obtain ⟨block, -, hpage, -⟩ := hs.page i hhere
          obtain ⟨block', -, hpage', -⟩ := hs.page j hthere
          have hblock : block ≠ block' := by
            rintro rfl
            exact hne (congrArg some (hs.distinct i j hhere hthere
              (BitVec.eq_of_toNat_eq (hpage.trans hpage'.symm))))
          rw [NoOverlap, System.stack, System.stack, hpage, hpage']
          simp only [pgSize]
          omega

theorem pointer_stack (hs : x.Sound sym) (hhere : InTable here)
    (hthere : x.Thread there) :
    NoOverlap (sym.pointer here).toNat 4 (x.stack sym there).toNat 4096 := by
  cases there with
  | some j =>
      exact .inl ((pointer_fits sym hhere).trans (hs.kernEnd_le_stack hthere))
  | none =>
      cases here with
      | none => exact sym.curcpu_kstack
      | some i =>
          have hinside := context_inside sym hhere
          have hapart := sym.ptable_kstack
          rw [NoOverlap] at hapart ⊢
          simp only [Symbols.pointer, System.stack]
          omega

end System.Sound

/-- The event left the stack of the thread and the pointer to it alone. -/
structure LeftAlone (sym : Symbols) (x y : System) (thread : Option Nat) :
    Prop where
  stack : Set.EqOn y.kernel.mem x.kernel.mem
    (regionAt (x.stack sym thread) 4096)
  pointer : Set.EqOn y.kernel.mem x.kernel.mem (regionAt (sym.pointer thread) 4)
  slot : ∀ i, thread = some i → y.table.process i = x.table.process i
  parked : y.running ≠ thread

/-- A switch writes to the stack and the pointer of the thread that calls it. -/
theorem System.CallsSwitch.mem_of_outside {pad : Word → Selector} {a : Nat}
    (hcall : x.CallsSwitch sym here there) (hhere : x.Thread here)
    (hstack : a < (x.stack sym here).toNat ∨
      (x.stack sym here).toNat + 4096 ≤ a)
    (hpointer : a < (sym.pointer here).toNat ∨
      (sym.pointer here).toNat + 4 ≤ a) :
    (callSwitch pad sym x.state).mem a = x.kernel.mem a := by
  have hlow := hcall.low
  have hhigh := hcall.high
  have hsize := contextSize_eq
  have hfit : contextSize ≤ x.cpu.esp.toNat := by omega
  have hx : a < x.cpu.esp.toNat - contextSize ∨ x.cpu.esp.toNat ≤ a := by omega
  rw [callSwitch_eq pad sym hcall.args]
  exact switchMemory_of_outside hfit
    ((pointer_fits sym hhere.inTable).trans sym.kernEnd_le) hx hpointer

theorem System.CallsSwitch.keeps {t : Option Nat} (pad : Word → Selector)
    (hcall : x.CallsSwitch sym here there) (hs : x.Sound sym)
    (hhere : x.Thread here) (ht : x.Thread t) (hne : here ≠ t) :
    Set.EqOn (callSwitch pad sym x.state).mem x.kernel.mem
        (regionAt (x.stack sym t) 4096) ∧
      Set.EqOn (callSwitch pad sym x.state).mem x.kernel.mem
        (regionAt (sym.pointer t) 4) := by
  have hstack := hs.stacks_apart hhere ht hne
  have hpointer := pointers_apart sym hhere.inTable ht.inTable hne
  have hpointerStack := hs.pointer_stack hhere.inTable ht
  have hstackPointer := hs.pointer_stack ht.inTable hhere
  rw [NoOverlap] at hstack hpointer hpointerStack hstackPointer
  constructor
  · rintro a ⟨hlo, hhi⟩
    exact hcall.mem_of_outside hhere (by omega) (by omega)
  · rintro a ⟨hlo, hhi⟩
    exact hcall.mem_of_outside hhere (by omega) (by omega)

end Regions

/-- What a call of `alloc_process` does that returns slot `i`. -/
structure NewProcess (sym : Symbols) (t : ProcessTable) (k : Kernel)
    (t' : ProcessTable) (k' : Kernel) (i block : Nat) : Prop where
  lt : i < nproc
  unused : (t.process i).state = .unused
  block_lt : block < nvmBlocks
  free : (k.kvmlist block).used = false
  kstack : (t'.process i).kstack.toNat = kernBase + block * pgSize
  tf : (t'.process i).tf = tfOf (t'.process i).kstack
  state : (t'.process i).state = .embryo
  others : ∀ j, j ≠ i → t'.process j = t.process j
  kvmlist : k'.kvmlist =
    setBlock k.kvmlist block (KvmOp.alloc.apply (k.kvmlist block))
  mem : k'.mem = stackMemory sym i (t'.process i).kstack k.mem

theorem block_toNat {block : Nat} (h : block < nvmBlocks) :
    (BitVec.ofNat 32 (kernBase + block * pgSize)).toNat =
      kernBase + block * pgSize := by
  rw [BitVec.toNat_ofNat]
  simp only [nvmBlocks, kernBase, pgSize] at h ⊢
  omega

/-- `alloc_process` makes a process or changes nothing; no page is at 0. -/
theorem allocProcess_cases {sym : Symbols} {t t' : ProcessTable} {k k' : Kernel}
    {out : Option Nat} (haddr : Addressed k.kvmlist)
    (h : allocProcess sym t k = .ok (out, t', k')) :
    (t' = t ∧ k' = k) ∨ ∃ i block, NewProcess sym t k t' k' i block := by
  cases out with
  | some i =>
      obtain ⟨page, k₁, hi, hunused, hpage, -, rfl, rfl⟩ := allocProcess_some h
      obtain ⟨block, hblock, rfl, hfree, rfl⟩ := kvmAllocPage_page haddr hpage
      refine .inr
        ⟨i, block, hi, hunused, hblock, hfree, ?_, ?_, ?_, ?_, rfl, ?_⟩
      · rw [ProcessTable.set_same]
        exact block_toNat hblock
      · rw [ProcessTable.set_same]
      · rw [ProcessTable.set_same]
      · exact fun j hj => ProcessTable.set_of_ne _ _ hj
      · rw [ProcessTable.set_same]
        rfl
  | none =>
      rw [allocProcess] at h
      cases hfind : (List.range nproc).find?
          fun i => (t.process i).state = .unused with
      | none =>
          rw [hfind] at h
          cases h
          exact .inl ⟨rfl, rfl⟩
      | some i =>
          cases hpage : kvmAllocPage k with
          | error why =>
              simp only [hfind, hpage] at h
              cases h
          | ok r =>
              obtain ⟨block, hblock, hr, -⟩ := kvmAllocPage_page haddr hpage
              have hne : BitVec.ofNat 32 r.1 ≠ 0 := by
                intro hzero
                have htoNat := block_toNat hblock
                rw [← hr, hzero, hr] at htoNat
                exact absurd htoNat.symm (Nat.ne_of_gt (Nat.add_pos_left
                  (by decide) _))
              simp only [hfind, hpage, if_neg hne] at h
              cases h

section Steps

variable {sym : Symbols} {pad : Word → Selector} {x y : System}
  {event : SwitchEvent} {t : Option Nat} {i : Nat}

namespace System.Sound

/-- A page that is not in use holds nothing yet. -/
theorem unheld {block : Nat} (hs : x.Sound sym) (hblock : block < nvmBlocks)
    (hfree : (x.kernel.kvmlist block).used = false) :
    sym.kernEnd ≤ kernBase + block * pgSize ∧ ∀ j, x.Live j →
      (x.table.process j).kstack.toNat ≠ kernBase + block * pgSize := by
  have hheld : ¬ x.Held sym block := fun hheld => by
    rw [hs.used block hblock hheld] at hfree
    cases hfree
  rw [System.Held, not_or, not_lt] at hheld
  exact ⟨hheld.1, fun j hj hpage => hheld.2 ⟨j, hj, hpage⟩⟩

/-- The new stack is none of those there are. -/
theorem newStack_apart {block : Nat} (hs : x.Sound sym)
    (hblock : block < nvmBlocks)
    (hfree : (x.kernel.kvmlist block).used = false) (ht : x.Thread t) :
    NoOverlap (kernBase + block * pgSize) 4096 (x.stack sym t).toNat 4096 := by
  obtain ⟨hend, hnew⟩ := hs.unheld hblock hfree
  cases t with
  | none => exact .inr (sym.kstackBottom_le.trans hend)
  | some j =>
      obtain ⟨block', -, hpage, -⟩ := hs.page j ht
      have hne := hnew j ht
      rw [NoOverlap, System.stack]
      rw [hpage] at hne ⊢
      simp only [pgSize] at hne ⊢
      omega

end System.Sound

theorem NewProcess.stack_fits {table : ProcessTable} {kernel : Kernel}
    {block : Nat}
    (hnew : NewProcess sym x.table x.kernel table kernel i block) :
    (table.process i).kstack.toNat + 4096 ≤ 4294967296 := by
  have hblock := hnew.block_lt
  rw [hnew.kstack]
  simp only [nvmBlocks, kernBase, pgSize] at hblock ⊢
  omega

theorem NewProcess.keeps {table : ProcessTable} {kernel : Kernel} {block : Nat}
    (hnew : NewProcess sym x.table x.kernel table kernel i block)
    (hs : x.Sound sym) (ht : x.Thread t) :
    Set.EqOn kernel.mem x.kernel.mem (regionAt (x.stack sym t) 4096) ∧
      Set.EqOn kernel.mem x.kernel.mem (regionAt (sym.pointer t) 4) := by
  have hne : some i ≠ t := by
    rintro rfl
    exact ht.2 hnew.unused
  have hi : InTable (some i) := hnew.lt
  obtain ⟨hend, -⟩ := hs.unheld hnew.block_lt hnew.free
  have hstack := hs.newStack_apart hnew.block_lt hnew.free ht
  have hpointer := pointer_fits sym ht.inTable
  have hcontext : (sym.context i).toNat + 4 ≤ 4294967296 :=
    (pointer_fits sym hi).trans sym.kernEnd_le
  have hcontextStack : NoOverlap (sym.context i).toNat 4
    (x.stack sym t).toNat 4096 := hs.pointer_stack hi ht
  have hcontextPointer : NoOverlap (sym.context i).toNat 4
    (sym.pointer t).toNat 4 := pointers_apart sym hi ht.inTable hne
  have hfit := hnew.stack_fits
  rw [← hnew.kstack, NoOverlap] at hstack
  rw [← hnew.kstack] at hend
  rw [NoOverlap] at hcontextStack hcontextPointer
  rw [hnew.mem]
  constructor
  · rintro a ⟨hlo, hhi⟩
    exact stackMemory_of_outside hfit hcontext (by omega) (by omega)
  · rintro a ⟨hlo, hhi⟩
    exact stackMemory_of_outside hfit hcontext (by omega) (by omega)

theorem setup_keeps (hs : x.Sound sym) (hi : x.Thread (some i))
    (ht : x.Thread t) (hne : some i ≠ t) :
    Set.EqOn (setupFrame (x.table.process i).tf x.kernel.mem) x.kernel.mem
        (regionAt (x.stack sym t) 4096) ∧
      Set.EqOn (setupFrame (x.table.process i).tf x.kernel.mem) x.kernel.mem
        (regionAt (sym.pointer t) 4) := by
  have hfit := hs.stack_fits hi
  have htf := tfOf_toNat hfit
  have hstack := hs.stacks_apart hi ht hne
  have hpointer := hs.pointer_stack ht.inTable hi
  rw [System.stack_some] at hfit htf
  rw [NoOverlap, System.stack_some] at hstack hpointer
  rw [hs.tf i hi]
  constructor
  · rintro a ⟨hlo, hhi⟩
    exact setupFrame_of_outside (by omega) (by omega)
  · rintro a ⟨hlo, hhi⟩
    exact setupFrame_of_outside (by omega) (by omega)

/-- A new process, or nothing at all. -/
theorem exec_allocProcess (hs : x.Sound sym)
    (hexec : SwitchEvent.allocProcess.exec pad sym x = .ok y) :
    y = x ∨ ∃ table kernel i block,
      NewProcess sym x.table x.kernel table kernel i block ∧
        y = { x with table, kernel } := by
  rw [SwitchEvent.exec] at hexec
  cases halloc : Linda.allocProcess sym x.table x.kernel with
  | error why =>
      rw [halloc] at hexec
      cases hexec
  | ok out =>
      rw [halloc] at hexec
      cases hexec
      rcases allocProcess_cases hs.addressed halloc with
        ⟨htable, hkernel⟩ | ⟨i, block, hnew⟩
      · exact .inl (by rw [htable, hkernel])
      · exact .inr ⟨_, _, i, block, hnew, rfl⟩

theorem exec_kvm {call : KvmCall} (hs : x.Sound sym)
    (hexec : (SwitchEvent.kvm call).exec pad sym x = .ok y) :
    ∃ page, y = { x with
        kernel := x.kernel.setKvmlist (setBlock x.kernel.kvmlist page
          (call.op.apply (x.kernel.kvmlist page))) } ∧
      ∀ addr, call = .free addr ∨ call = .unmap addr →
        page = kvmIndex addr := by
  rw [SwitchEvent.exec] at hexec
  cases hcall : kvmCall call ⟨x.kernel, []⟩ with
  | error why =>
      rw [hcall] at hexec
      cases hexec
  | ok r =>
      rw [hcall] at hexec
      cases hexec
      obtain ⟨page, -, rfl, -, hpage⟩ := kvmCall_cases hs.addressed hcall
      exact ⟨page, rfl, hpage⟩

theorem exec_yieldCpu (hrunning : x.running = some i)
    (hexec : SwitchEvent.yieldCpu.exec pad sym x = .ok y) :
    y = ⟨x.kernel.setMem (callSwitch pad sym x.state).mem,
      x.table.set i { x.table.process i with state := .runable },
      (callSwitch pad sym x.state).cpu, none⟩ := by
  rw [SwitchEvent.exec, hrunning] at hexec
  exact (Except.ok.inj hexec).symm

/-- Who runs is a process or the scheduler. -/
theorem System.Sound.thread (hs : x.Sound sym) (hrunning : x.running = t) :
    x.Thread t := by
  cases t with
  | none => trivial
  | some i =>
      obtain ⟨hi, hstate⟩ := hs.current i hrunning
      exact ⟨hi, fun h => by rw [hstate] at h; cases h⟩

/-- Whoever runs leaves the other threads alone. -/
theorem System.Sound.kept (hs : x.Sound sym) (hoccurs : event.Occurs sym x)
    (hexec : event.exec pad sym x = .ok y) (ht : x.Thread t)
    (hrun : x.running ≠ t) (htouch : ¬ event.Touches t) :
    LeftAlone sym x y t := by
  cases event with
  | allocProcess =>
      rcases exec_allocProcess hs hexec with
        rfl | ⟨table, kernel, i, block, hnew, rfl⟩
      · exact ⟨fun _ _ => rfl, fun _ _ => rfl, fun _ _ => rfl, hrun⟩
      · obtain ⟨hstack, hpointer⟩ := hnew.keeps hs ht
        refine ⟨hstack, hpointer, ?_, hrun⟩
        rintro j rfl
        exact hnew.others j fun h => ht.2 (h ▸ hnew.unused)
  | setup i pgdir =>
      cases hexec
      obtain ⟨hi, hembryo, -⟩ := hoccurs
      have hlive : x.Live i := ⟨hi, fun h => by rw [hembryo] at h; cases h⟩
      have hne : some i ≠ t := fun h => htouch h.symm
      obtain ⟨hstack, hpointer⟩ := setup_keeps hs hlive ht hne
      refine ⟨hstack, hpointer, ?_, hrun⟩
      rintro j rfl
      exact ProcessTable.set_of_ne _ _ fun h => hne (congrArg some h.symm)
  | kvm call =>
      obtain ⟨page, rfl, -⟩ := exec_kvm hs hexec
      exact ⟨fun _ _ => rfl, fun _ _ => rfl, fun _ _ => rfl, hrun⟩
  | work mem cpu =>
      cases hexec
      obtain ⟨hstack, hpointer⟩ := hoccurs t ht (Ne.symm hrun)
      exact ⟨hstack, hpointer, fun _ _ => rfl, hrun⟩
  | dispatch i =>
      cases hexec
      obtain ⟨-, -, hcall⟩ := hoccurs
      have hnone : none ≠ t := hcall.running ▸ hrun
      obtain ⟨hstack, hpointer⟩ := hcall.keeps pad hs trivial ht hnone
      have hne : some i ≠ t := fun h => htouch h.symm
      refine ⟨hstack, hpointer, ?_, hne⟩
      rintro j rfl
      exact ProcessTable.set_of_ne _ _ fun h => hne (congrArg some h.symm)
  | yieldCpu =>
      obtain ⟨i, hcall⟩ := hoccurs
      obtain rfl := exec_yieldCpu hcall.running hexec
      have hne : some i ≠ t := hcall.running ▸ hrun
      obtain ⟨hstack, hpointer⟩ :=
        hcall.keeps pad hs (hs.thread hcall.running) ht hne
      refine ⟨hstack, hpointer, ?_, fun h => htouch h.symm⟩
      rintro j rfl
      exact ProcessTable.set_of_ne _ _ fun h => hne (congrArg some h.symm)

namespace LeftAlone

theorem pointerWord (h : LeftAlone sym x y t) (ht : InTable t) :
    wordAt y.kernel.mem (sym.pointer t) = wordAt x.kernel.mem (sym.pointer t) :=
  SameFrom.wordAt (.of_bytes ((pointer_fits sym ht).trans sym.kernEnd_le)
    fun _ hlo hhi => h.pointer ⟨hlo, hhi⟩) le_rfl

theorem sameFrom {a : Word} {n : Nat} (h : LeftAlone sym x y t)
    (hs : x.Sound sym) (ht : x.Thread t) (hlo : (x.stack sym t).toNat ≤ a.toNat)
    (hhi : a.toNat + n ≤ (x.stack sym t).toNat + 4096) :
    SameFrom x.kernel.mem y.kernel.mem a n := by
  have hfit := hs.stack_fits ht
  exact .of_bytes (by omega) fun b hb hb' => h.stack ⟨by omega, by omega⟩

/-- What `alloc_process` left for the first dispatch is still there. -/
theorem fresh (h : LeftAlone sym x y (some i)) (hs : x.Sound sym)
    (hi : x.Thread (some i))
    (hfresh : wordAt x.kernel.mem (sym.context i) =
        contextOf (x.table.process i).kstack ∧
      StackAt x.kernel.mem (contextOf (x.table.process i).kstack)
        (freshSlots sym)) :
    wordAt y.kernel.mem (sym.context i) =
        contextOf (x.table.process i).kstack ∧
      StackAt y.kernel.mem (contextOf (x.table.process i).kstack)
        (freshSlots sym) := by
  have hcontext := contextOf_toNat (hs.stack_fits hi)
  rw [System.stack_some] at hcontext
  refine ⟨(h.pointerWord hi.1).trans hfresh.1, hfresh.2.congr ?_⟩
  refine h.sameFrom hs hi ?_ ?_
  · rw [System.stack_some]
    omega
  · rw [System.stack_some]
    simp only [freshSlots, List.length_cons, List.length_nil]
    omega

end LeftAlone

/-- Who has not been made runable never ran. -/
theorem System.Sound.embryo (hs : x.Sound sym) (hi : i < nproc)
    (hstate : (x.table.process i).state = .embryo) :
    x.Live i ∧ x.running ≠ some i := by
  refine ⟨⟨hi, fun h => ?_⟩, fun h => ?_⟩
  · rw [hstate] at h
    cases h
  · have hrunning := (hs.current i h).2
    rw [hstate] at hrunning
    cases hrunning

/-- An event that makes no process. -/
theorem System.Sound.of_same (hs : x.Sound sym) (hoccurs : event.Occurs sym x)
    (hexec : event.exec pad sym x = .ok y) (haddr : Addressed y.kernel.kvmlist)
    (hused : ∀ block < nvmBlocks, x.Held sym block →
      (y.kernel.kvmlist block).used = true)
    (hslot : ∀ j, (y.table.process j).kstack = (x.table.process j).kstack ∧
      (y.table.process j).tf = (x.table.process j).tf ∧
      ((y.table.process j).state = .unused ↔
        (x.table.process j).state = .unused))
    (hcurrent : ∀ j, y.running = some j →
      j < nproc ∧ (y.table.process j).state = .running)
    (hembryo : ∀ j, (y.table.process j).state = .embryo →
      (x.table.process j).state = .embryo ∧ ¬ event.Touches (some j)) :
    y.Sound sym := by
  have hlive (j : Nat) : y.Live j ↔ x.Live j := by
    rw [System.Live, System.Live, ne_eq, ne_eq, (hslot j).2.2]
  refine ⟨haddr, ?_, ?_, ?_, ?_, hcurrent, ?_⟩
  · rintro block hblock (hend | ⟨j, hj, hpage⟩)
    · exact hused block hblock (.inl hend)
    · rw [(hslot j).1] at hpage
      exact hused block hblock (.inr ⟨j, (hlive j).mp hj, hpage⟩)
  · intro j hj
    rw [(hslot j).1]
    exact hs.page j ((hlive j).mp hj)
  · intro j j' hj hj' hsame
    rw [(hslot j).1, (hslot j').1] at hsame
    exact hs.distinct j j' ((hlive j).mp hj) ((hlive j').mp hj') hsame
  · intro j hj
    rw [(hslot j).1, (hslot j).2.1]
    exact hs.tf j ((hlive j).mp hj)
  · intro j hj hstate
    obtain ⟨hbefore, htouch⟩ := hembryo j hstate
    obtain ⟨hjlive, hrun⟩ := hs.embryo hj hbefore
    have hkept := hs.kept hoccurs hexec (t := some j) hjlive hrun htouch
    rw [(hslot j).1]
    exact hkept.fresh hs hjlive (hs.fresh j hj hbefore)

/-- The state of a process changed and no more that matters here. -/
theorem set_slot (table : ProcessTable) (state : PState) {p : ProcessSlot}
    {i j : Nat} (hstack : p.kstack = (table.process i).kstack)
    (htf : p.tf = (table.process i).tf) (hp : p.state = state)
    (hstate : state ≠ .unused) (hi : (table.process i).state ≠ .unused) :
    ((table.set i p).process j).kstack = (table.process j).kstack ∧
      ((table.set i p).process j).tf = (table.process j).tf ∧
      (((table.set i p).process j).state = .unused ↔
        (table.process j).state = .unused) := by
  by_cases hj : j = i
  · subst hj
    rw [ProcessTable.set_same]
    exact ⟨hstack, htf, iff_of_false (hp ▸ hstate) hi⟩
  · rw [ProcessTable.set_of_ne _ _ hj]
    exact ⟨rfl, rfl, Iff.rfl⟩

theorem set_embryo {table : ProcessTable} (state : PState) {p : ProcessSlot}
    {i j : Nat} (hp : p.state = state) (hstate : state ≠ .embryo)
    (h : ((table.set i p).process j).state = .embryo) :
    (table.process j).state = .embryo ∧ j ≠ i := by
  by_cases hj : j = i
  · subst hj
    rw [ProcessTable.set_same] at h
    exact absurd (hp.symm.trans h) hstate
  · rw [ProcessTable.set_of_ne _ _ hj] at h
    exact ⟨h, hj⟩

namespace NewProcess

variable {table : ProcessTable} {kernel : Kernel} {block : Nat}

theorem live (hnew : NewProcess sym x.table x.kernel table kernel i block)
    {j : Nat} (hj : j ≠ i) :
    System.Live { x with table, kernel } j ↔ x.Live j := by
  rw [System.Live, System.Live, hnew.others j hj]

/-- The new page is marked, and no other mark is lost. -/
theorem used (hnew : NewProcess sym x.table x.kernel table kernel i block)
    (hs : x.Sound sym) {block' : Nat} (hblock' : block' < nvmBlocks)
    (hheld : System.Held sym { x with table, kernel } block') :
    (kernel.kvmlist block').used = true := by
  rw [hnew.kvmlist]
  by_cases hsame : block' = block
  · rw [hsame, setBlock, if_pos rfl, apply_used]
  · have halloc : ¬ (KvmOp.alloc = .free ∨ KvmOp.alloc = .unmap) := by decide
    refine used_setBlock (hs.used block' hblock' ?_) (absurd · halloc)
    rcases hheld with hend | ⟨j, hj, hpage⟩
    · exact .inl hend
    · refine .inr ⟨j, ?_⟩
      have hji : j ≠ i := by
        rintro rfl
        rw [hnew.kstack] at hpage
        simp only [pgSize] at hpage
        omega
      rw [hnew.others j hji] at hpage
      exact ⟨(hnew.live hji).mp hj, hpage⟩

/-- The page of the new stack was nobody's, so no two stacks share one. -/
theorem distinct (hnew : NewProcess sym x.table x.kernel table kernel i block)
    (hs : x.Sound sym) {j j' : Nat}
    (hj : System.Live { x with table, kernel } j)
    (hj' : System.Live { x with table, kernel } j')
    (hsame : (table.process j).kstack = (table.process j').kstack) : j = j' := by
  obtain ⟨-, hnone⟩ := hs.unheld hnew.block_lt hnew.free
  by_cases hji : j = i
  · by_cases hji' : j' = i
    · exact hji.trans hji'.symm
    · refine absurd ?_ (hnone j' ((hnew.live hji').mp hj'))
      rw [← hnew.others j' hji', ← hsame, hji, hnew.kstack]
  · by_cases hji' : j' = i
    · refine absurd ?_ (hnone j ((hnew.live hji).mp hj))
      rw [← hnew.others j hji, hsame, hji', hnew.kstack]
    · rw [hnew.others j hji, hnew.others j' hji'] at hsame
      exact hs.distinct j j' ((hnew.live hji).mp hj) ((hnew.live hji').mp hj')
        hsame

/-- The stack built for slot `i` is the one a first dispatch needs. -/
theorem slots (hnew : NewProcess sym x.table x.kernel table kernel i block)
    (hs : x.Sound sym) :
    wordAt kernel.mem (sym.context i) = contextOf (table.process i).kstack ∧
      StackAt kernel.mem (contextOf (table.process i).kstack)
        (freshSlots sym) := by
  obtain ⟨hend, -⟩ := hs.unheld hnew.block_lt hnew.free
  have hpointer : InTable (some i) := hnew.lt
  have hcontext := pointer_fits sym hpointer
  have hpage : sym.kernEnd ≤ (table.process i).kstack.toNat := by
    rw [hnew.kstack]
    exact hend
  have hslots := stackMemory_slots (m := x.kernel.mem) hnew.stack_fits
    (hcontext.trans sym.kernEnd_le) (.inl (hcontext.trans hpage))
  rw [← hnew.mem] at hslots
  exact hslots.symm

theorem sound (hnew : NewProcess sym x.table x.kernel table kernel i block)
    (hs : x.Sound sym)
    (hexec : SwitchEvent.allocProcess.exec pad sym x =
      .ok { x with table, kernel }) :
    System.Sound sym { x with table, kernel } := by
  refine ⟨?_, fun _ => hnew.used hs, ?_, fun _ _ => hnew.distinct hs,
    ?_, ?_, ?_⟩
  · rw [hnew.kvmlist]
    exact hs.addressed.step .alloc block
  · intro j hj
    by_cases hji : j = i
    · subst hji
      exact ⟨block, hnew.block_lt, hnew.kstack,
        (hs.unheld hnew.block_lt hnew.free).1⟩
    · rw [hnew.others j hji]
      exact hs.page j ((hnew.live hji).mp hj)
  · intro j hj
    by_cases hji : j = i
    · subst hji
      exact hnew.tf
    · rw [hnew.others j hji]
      exact hs.tf j ((hnew.live hji).mp hj)
  · intro j hj
    obtain ⟨hlt, hstate⟩ := hs.current j hj
    have hji : j ≠ i := fun h => by
      rw [h, hnew.unused] at hstate
      cases hstate
    rw [hnew.others j hji]
    exact ⟨hlt, hstate⟩
  · intro j hj hstate
    by_cases hji : j = i
    · subst hji
      exact hnew.slots hs
    · rw [hnew.others j hji] at hstate ⊢
      obtain ⟨hjlive, hrun⟩ := hs.embryo hj hstate
      have hoccurs : SwitchEvent.allocProcess.Occurs sym x := trivial
      have hkept := hs.kept hoccurs hexec (t := some j) hjlive hrun id
      exact hkept.fresh hs hjlive (hs.fresh j hj hstate)

end NewProcess

/-- Every event keeps what a run keeps. -/
theorem System.Sound.step (hs : x.Sound sym) (hoccurs : event.Occurs sym x)
    (hexec : event.exec pad sym x = .ok y) : y.Sound sym := by
  have hoccurs' := hoccurs
  have hexec' := hexec
  cases event with
  | allocProcess =>
      rcases exec_allocProcess hs hexec with
        rfl | ⟨table, kernel, i, block, hnew, rfl⟩
      · exact hs
      · exact hnew.sound hs hexec
  | setup i pgdir =>
      cases hexec
      obtain ⟨hi, hembryo, -⟩ := hoccurs
      have hused : (x.table.process i).state ≠ .unused := by
        rw [hembryo]
        decide
      refine hs.of_same hoccurs' hexec' hs.addressed hs.used
        (fun j => set_slot x.table .runable rfl rfl rfl (by decide) hused) ?_ ?_
      · intro j hj
        obtain ⟨hlt, hstate⟩ := hs.current j hj
        have hne : j ≠ i := fun h => by
          rw [h, hembryo] at hstate
          cases hstate
        exact ⟨hlt, (congrArg ProcessSlot.state
          (ProcessTable.set_of_ne _ _ hne)).trans hstate⟩
      · intro j hj
        obtain ⟨hbefore, hne⟩ := set_embryo .runable rfl (by decide) hj
        exact ⟨hbefore, fun h => hne (Option.some.inj h)⟩
  | kvm call =>
      obtain ⟨page, rfl, hpage⟩ := exec_kvm hs hexec
      refine hs.of_same hoccurs' hexec' (hs.addressed.step call.op page) ?_
        (fun j => ⟨rfl, rfl, Iff.rfl⟩) hs.current (fun j h => ⟨h, id⟩)
      intro block hblock hheld
      refine used_setBlock (hs.used block hblock hheld) ?_
      rintro hop rfl
      cases call with
      | map addr => rcases hop with h | h <;> cases h
      | alloc => rcases hop with h | h <;> cases h
      | unmap addr =>
          exact hoccurs addr (.inr rfl) (hpage addr (.inr rfl) ▸ hheld)
      | free addr =>
          exact hoccurs addr (.inl rfl) (hpage addr (.inl rfl) ▸ hheld)
  | work mem cpu =>
      cases hexec
      exact hs.of_same hoccurs' hexec' hs.addressed hs.used
        (fun j => ⟨rfl, rfl, Iff.rfl⟩) hs.current (fun j h => ⟨h, id⟩)
  | dispatch i =>
      cases hexec
      obtain ⟨hi, hstate, hcall⟩ := hoccurs
      have hused : (x.table.process i).state ≠ .unused := by
        rw [hstate]
        decide
      refine hs.of_same hoccurs' hexec' hs.addressed hs.used
        (fun j => set_slot x.table .running rfl rfl rfl (by decide) hused) ?_ ?_
      · intro j hj
        obtain rfl := Option.some.inj hj
        exact ⟨hi, congrArg ProcessSlot.state (ProcessTable.set_same _ _ _)⟩
      · intro j hj
        obtain ⟨hbefore, hne⟩ := set_embryo .running rfl (by decide) hj
        exact ⟨hbefore, fun h => hne (Option.some.inj h)⟩
  | yieldCpu =>
      obtain ⟨i, hcall⟩ := hoccurs
      obtain rfl := exec_yieldCpu hcall.running hexec
      have hused := (hs.thread hcall.running).2
      refine hs.of_same hoccurs' hexec' hs.addressed hs.used
        (fun j => set_slot x.table .runable rfl rfl rfl (by decide) hused)
        (fun j hj => nomatch hj) ?_
      intro j hj
      obtain ⟨hbefore, -⟩ := set_embryo .runable rfl (by decide) hj
      exact ⟨hbefore, fun h => nomatch h⟩

end Steps

end Linda
