/-
A system call from `int $64` to the instruction behind it: the frame that the
stubs push is the trap frame syscall.c reads, and the result comes back in
`eax`.
-/
import Linda.StackFootprint
import Linda.TrapEntry
import Linda.ProcessSwitches
import Linda.Print

namespace Linda

open ByteMemory WordStack X86

section Entry

variable {pad : Word → Selector} {tss : Tss} {table : Nat → Word}
  {vector : Nat} {err : Word} {s : State}

/-- The processor on the stack of the task state, with nothing pushed yet. -/
def onKernelStack (tss : Tss) (s : State) : State :=
  ⟨{ s.cpu with esp := tss.esp0, ss := tss.ss0 }, s.mem⟩

theorem interrupt_grows (pad : Word → Selector) (tss : Tss)
    (table : Nat → Word) (vector : Nat) (houter : 0 < s.cpu.cpl) (code : Option Word) :
    Grows (onKernelStack tss s)
      (interrupt pad tss (idt table vector) code s)
      (20 + 4 * code.toList.length) := by
  have hswitch : switchStack pad tss (rpl (idt table vector).cs) s =
      ((onKernelStack tss s).pushSelector pad s.cpu.ss).push s.cpu.esp := by
    rw [switchStack, idt_level, if_pos houter]
    rfl
  have hss := Grows.pushSelector pad (onKernelStack tss s) s.cpu.ss
  have hesp := hss.trans (Grows.push _ s.cpu.esp)
  have heflags := hesp.trans (Grows.push _ s.cpu.eflags)
  have hcs := heflags.trans (Grows.pushSelector pad _ s.cpu.cs)
  have heip := hcs.trans (Grows.push _ s.cpu.eip)
  cases code with
  | none =>
      rw [interrupt, hswitch]
      exact ⟨heip.esp, heip.mem⟩
  | some e =>
      have hcode := heip.trans (Grows.push _ e)
      rw [interrupt, hswitch]
      exact ⟨hcode.esp, hcode.mem⟩

/-- A trap from the user writes the top of the kernel stack and nothing
else. -/
theorem enterTrap_grows (houter : 0 < s.cpu.cpl) :
    Grows (onKernelStack tss s) (enterTrap pad tss table vector err s) 80 := by
  have hinterrupt := interrupt_grows pad tss table vector houter
    (if PushesErrorCode vector then some err else none)
  have hstub := run_grows pad (trapHandler vector)
    (interrupt pad tss (idt table vector)
      (if PushesErrorCode vector then some err else none) s) (by
      intro instr hinstr
      rw [trapHandler] at hinstr
      split at hinstr <;> simp only [List.cons_append, List.nil_append,
        List.mem_cons, List.not_mem_nil, or_false] at hinstr
      · rcases hinstr with rfl | rfl <;> rfl
      · rw [hinstr]
        rfl)
  have hcommon := run_grows pad trapHandlers
    (reachHandlers pad tss table vector err s) (by decide)
  have htotal := (hinterrupt.trans hstub).trans hcommon
  have hlength : 20 + 4 * (if PushesErrorCode vector then some err
        else none).toList.length +
      ((trapHandler vector).map fun instr => instr.pushed.getD 0).sum +
      (trapHandlers.map fun instr => instr.pushed.getD 0).sum = 80 := by
    by_cases hcode : PushesErrorCode vector
    · have hmem : ¬ vector ∉ trapWithErrno :=
        not_not.mpr ((pushesErrorCode_iff vector).mp hcode)
      rw [trapHandler, if_pos hcode, if_neg hmem]
      rfl
    · have hmem : vector ∉ trapWithErrno :=
        fun hmem => hcode ((pushesErrorCode_iff vector).mpr hmem)
      rw [trapHandler, if_neg hcode, if_pos hmem]
      rfl
  rwa [hlength] at htotal

end Entry

/-- `struct trapframe` at an address, as syscall.c reads it. -/
def trapFrameAt (m : Memory) (frame : Word) : TrapFrame where
  edi := UInt32.ofBitVec (trapWord m frame .edi)
  esi := UInt32.ofBitVec (trapWord m frame .esi)
  ebp := UInt32.ofBitVec (trapWord m frame .ebp)
  oesp := UInt32.ofBitVec (trapWord m frame .oesp)
  ebx := UInt32.ofBitVec (trapWord m frame .ebx)
  edx := UInt32.ofBitVec (trapWord m frame .edx)
  ecx := UInt32.ofBitVec (trapWord m frame .ecx)
  eax := UInt32.ofBitVec (trapWord m frame .eax)
  gs := UInt16.ofBitVec (trapHalf m frame .gs)
  fs := UInt16.ofBitVec (trapHalf m frame .fs)
  es := UInt16.ofBitVec (trapHalf m frame .es)
  ds := UInt16.ofBitVec (trapHalf m frame .ds)
  trapno := UInt32.ofBitVec (trapWord m frame .trapno)
  err := UInt32.ofBitVec (trapWord m frame .err)
  eip := UInt32.ofBitVec (trapWord m frame .eip)
  cs := UInt16.ofBitVec (trapHalf m frame .cs)
  eflags := UInt32.ofBitVec (trapWord m frame .eflags)
  esp := UInt32.ofBitVec (trapWord m frame .esp)
  ss := UInt16.ofBitVec (trapHalf m frame .ss)

/-- The frame of a system call made with the registers `c`. -/
def callFrame (c : Cpu) (oesp : Word) : TrapFrame where
  edi := UInt32.ofBitVec c.edi
  esi := UInt32.ofBitVec c.esi
  ebp := UInt32.ofBitVec c.ebp
  oesp := UInt32.ofBitVec oesp
  ebx := UInt32.ofBitVec c.ebx
  edx := UInt32.ofBitVec c.edx
  ecx := UInt32.ofBitVec c.ecx
  eax := UInt32.ofBitVec c.eax
  gs := UInt16.ofBitVec c.gs
  fs := UInt16.ofBitVec c.fs
  es := UInt16.ofBitVec c.es
  ds := UInt16.ofBitVec c.ds
  trapno := 64
  err := 0
  eip := UInt32.ofBitVec c.eip
  cs := UInt16.ofBitVec c.cs
  eflags := UInt32.ofBitVec c.eflags
  esp := UInt32.ofBitVec c.esp
  ss := UInt16.ofBitVec c.ss

/-- `int $64`, up to the call of the dispatcher. -/
def enterSyscall (pad : Word → Selector) (tss : Tss) (table : Nat → Word)
    (s : State) : State := enterTrap pad tss table irqSyscall 0 s

section Frame

variable {pad : Word → Selector} {tss : Tss} {table : Nat → Word} {s s' : State}
  {c : Cpu} {frame oesp trapno err : Word}

theorem trapFrameAt_of_slots (houter : 0 < c.cpl)
    (hstack : StackAt s.mem frame (frameSlots 0 c oesp 64 0)) :
    trapFrameAt s.mem frame = callFrame c oesp := by
  have hshown := frameShows_of_slots hstack
  have hoesp : trapWord s.mem frame .oesp = oesp := hstack.get (i := 3) rfl
  have hesp := hshown.esp houter
  have hss := hshown.ss houter
  rw [trapFrameAt, hshown.edi, hshown.esi, hshown.ebp, hoesp, hshown.ebx,
    hshown.edx, hshown.ecx, hshown.eax, hshown.gs, hshown.fs, hshown.es,
    hshown.ds, hshown.trapno, hshown.err, hshown.eip, hshown.cs, hshown.eflags,
    hesp, hss]
  rfl

/-- The way out of a trap loads the frame, whatever it has become. -/
theorem leaveTrap_loads (pad : Word → Selector) (hesp : s'.cpu.esp + 4 = frame)
    (hcs : s'.cpu.cs = 0x08)
    (hframe : StackAt s'.mem frame (frameSlots 0 c oesp trapno err)) :
    (run pad leaveTrap s').cpu = { c with
      esp := if 0 < c.cpl then c.esp else frame + 68
      ss := if 0 < c.cpl then c.ss else s'.cpu.ss } := by
  let s₀ : State := ⟨{ s'.cpu with esp := s'.cpu.esp + 4 }, s'.mem⟩
  have hcpl : s₀.cpu.cpl = 0 := by
    change rpl s'.cpu.cs = 0
    rw [hcs]
    decide
  have hs₀ : s₀.cpu.esp = frame := hesp
  have hslots : s₀.Holds (frameSlots s₀.cpu.cpl c oesp trapno err) := by
    rw [hcpl, State.Holds, hs₀]
    exact hframe
  have hdrop : X86.exec pad s' (.addl 4 .esp) = s₀ := rfl
  rw [leaveTrap, run_cons, hdrop, trapret_run pad hslots, hcpl, hs₀]

/-- The dispatcher called at `s` comes back at `s'` with `eax` of the frame
set, and the rest of the frame as it was. -/
structure ReturnsEax (c : Cpu) (eax : Word) (s s' : State) : Prop where
  esp : s'.cpu.esp = s.cpu.esp
  cs : s'.cpu.cs = s.cpu.cs
  ss : s'.cpu.ss = s.cpu.ss
  frame : SameFrom
    (putWord s.mem (s.cpu.esp + 4 + BitVec.ofNat 32 (TrapField.offset .eax)) eax)
    s'.mem (s.cpu.esp + 4) (frameSize c)

theorem ReturnsEax.slots {vector : Nat} {eax : Word}
    (h : ReturnsEax s.cpu eax (enterTrap pad tss table vector err s) s') :
    StackAt s'.mem (frameAddress tss s.cpu)
      (frameSlots 0 { s.cpu with eax := eax } (frameAddress tss s.cpu + 32)
        (BitVec.ofNat 32 vector) (shownCode vector err)) := by
  have hbehind : frameAddress tss s.cpu - 4 + 4 = frameAddress tss s.cpu :=
    BitVec.sub_add_cancel _ _
  have hlength := frameSlots_length s.cpu (frameAddress tss s.cpu + 32)
    (BitVec.ofNat 32 vector) (shownCode vector err)
  have hkept := h.frame
  rw [enterTrap_esp, hbehind, ← hlength] at hkept
  have hstored := (enterTrap_frame pad tss table vector err s).setWord
    (k := 7) (by
      rw [frameSlots, List.length_append]
      exact Nat.lt_add_right _ (Nat.lt_of_sub_eq_succ rfl)) (by
      rw [hlength, frameSize]
      split <;> decide) eax
  have hset : (frameSlots 0 s.cpu (frameAddress tss s.cpu + 32)
      (BitVec.ofNat 32 vector) (shownCode vector err)).set 7 (.word eax) =
      frameSlots 0 { s.cpu with eax := eax } (frameAddress tss s.cpu + 32)
        (BitVec.ofNat 32 vector) (shownCode vector err) := rfl
  rw [hset] at hstored
  exact hstored.congr hkept

/-- The interrupted code goes on with another `eax`, and nothing else is
different. -/
theorem leaveTrap_eax {vector : Nat} {eax : Word}
    (h : ReturnsEax s.cpu eax (enterTrap pad tss table vector err s) s') :
    (run pad leaveTrap s').cpu = { s.cpu with eax := eax } := by
  have hesp : s'.cpu.esp + 4 = frameAddress tss s.cpu := by
    rw [h.esp, enterTrap_esp, BitVec.sub_add_cancel]
  have hcs : s'.cpu.cs = 0x08 := h.cs.trans (enterTrap_cs ..)
  have hss : s'.cpu.ss = if 0 < s.cpu.cpl then tss.ss0 else s.cpu.ss :=
    h.ss.trans (enterTrap_ss ..)
  rw [leaveTrap_loads pad hesp hcs h.slots, hss]
  by_cases houter : 0 < s.cpu.cpl
  · have houter' : 0 < ({ s.cpu with eax := eax } : Cpu).cpl := houter
    simp only [if_pos houter']
  · have hback : frameAddress tss s.cpu + 68 = s.cpu.esp := by
      rw [frameAddress, if_neg houter, BitVec.sub_add_cancel]
    have houter' : ¬ 0 < ({ s.cpu with eax := eax } : Cpu).cpl := houter
    simp only [if_neg houter', if_neg houter, hback]

end Frame

section Reading

variable {proc : Process} {m m' : Memory} {n size addr : UInt32}

theorem fetchInt_congr (h : ∀ a < proc.size.toNat, m' a = m a) :
    fetchInt proc m' addr = fetchInt proc m addr := by
  rw [fetchInt, fetchInt]
  simp only [fetchInt_bound]
  by_cases hinside : addr.toNat + 4 ≤ proc.size.toNat
  · have hload : load32 m' addr.toNat = load32 m addr.toNat :=
      load32_congr fun x _ hx => h x (by omega)
    rw [hload]
  · rw [if_pos hinside, if_pos hinside]

theorem strScan_congr {first k : Nat} : ∀ {s : Nat},
    (∀ a, s ≤ a → a < s + k → m' a = m a) →
      strScan m' first k s = strScan m first k s := by
  induction k with
  | zero => exact fun _ => rfl
  | succ k ih =>
      intro s h
      rw [strScan, strScan, h s le_rfl (by omega),
        ih fun a ha hlt => h a (by omega) (by omega)]

theorem fetchStr_congr (h : ∀ a < proc.size.toNat, m' a = m a) :
    fetchStr proc m' addr = fetchStr proc m addr := by
  rw [fetchStr, fetchStr, strScan_congr fun a _ ha => h a (by omega)]

theorem argptr_congr (h : ∀ a < proc.size.toNat, m' a = m a) :
    argptr proc m' n size = argptr proc m n size := by
  simp only [argptr, argint, fetchInt_congr h]

theorem argstr_congr (h : ∀ a < proc.size.toNat, m' a = m a) :
    argstr proc m' n = argstr proc m n := by
  simp only [argstr, argint, fetchInt_congr h, fetchStr_congr h]

theorem fetchStr_inside (hret : 0 ≤ (fetchStr proc m addr).ret) :
    addr.toNat + (fetchStr proc m addr).ret.toNat ≤ proc.size.toNat := by
  have hnul : ∃ nul, FirstNul proc m addr.toNat nul := by
    by_contra hnone
    rw [fetchStr_none hnone] at hret
    omega
  obtain ⟨nul, hfirst⟩ := hnul
  have hlow := hfirst.1
  have hhigh := hfirst.2.1
  have hsize := proc.size.toNat_lt
  rw [fetchStr_found hfirst] at hret ⊢
  have hnear : nul - addr.toNat < 2147483648 := by
    by_contra hfar
    have hneg := asInt_ofNat_neg (d := nul - addr.toNat) (by omega) (by omega)
    omega
  rw [asInt_ofNat hnear, Int.toNat_natCast]
  omega

/-- An accepted string ends inside the process. -/
theorem argstr_inside {msg : UInt32} (hres : (argstr proc m n).res = some msg)
    (hret : 0 ≤ (argstr proc m n).ret) :
    msg.toNat + (argstr proc m n).ret.toNat ≤ proc.size.toNat := by
  cases hword : (argint proc m n).res with
  | none =>
      rw [argstr, hword] at hres
      cases hres
  | some start =>
      simp only [argstr, hword] at hres hret ⊢
      have hinside := fetchStr_inside hret
      rw [fetchStr] at hres
      split at hres
      · cases hres
      · cases hres
        exact hinside

/-- `print` reads the memory of the process only. -/
theorem print_congr (h : ∀ a < proc.size.toNat, m' a = m a) (va : VaList) :
    print va proc m' = print va proc m := by
  rw [print, print, argstr_congr h]
  cases hres : (argstr proc m 0).res with
  | none => rfl
  | some msg =>
      simp only
      by_cases hret : (argstr proc m 0).ret < 0
      · rw [if_pos hret, if_pos hret]
      · have hinside := argstr_inside hres (by omega)
        have hbytes : bytesAt m' msg.toNat (argstr proc m 0).ret.toNat =
            bytesAt m msg.toNat (argstr proc m 0).ret.toNat := by
          apply List.map_congr_left
          intro i hi
          have hlt := List.mem_range.mp hi
          exact h _ (by omega)
        rw [if_neg hret, if_neg hret, hbytes]

end Reading

/-- A process as a system call finds it: its kernel stack is a page of the
kernel, with the trap frame on top. -/
structure Caller where
  slot : ProcessSlot
  size : UInt32
  name : List UInt8
  size_le : size.toNat ≤ userSize
  tf_eq : slot.tf = tfOf slot.kstack
  kernel : kernBase ≤ slot.kstack.toNat
  fits : slot.kstack.toNat + 4096 ≤ 4294967296

namespace Caller

/-- The fields that syscall.c reads, in the memory `m`. -/
def process (p : Caller) (m : Memory) : Process where
  size := p.size
  pid := UInt32.ofBitVec p.slot.pid
  name := p.name
  tf := trapFrameAt m p.slot.tf
  size_le := p.size_le

/-- The process with the registers `c` in its trap frame. -/
def calling (p : Caller) (c : Cpu) : Process where
  size := p.size
  pid := UInt32.ofBitVec p.slot.pid
  name := p.name
  tf := callFrame c (p.slot.tf + 32)
  size_le := p.size_le

/-- The kernel stack of a new process is a page of the kernel. -/
theorem kstack_in_kernel {sym : Symbols} {t t' : ProcessTable} {k k' : Kernel}
    {i block : Nat} (hnew : NewProcess sym t k t' k' i block) :
    kernBase ≤ (t'.process i).kstack.toNat ∧
      (t'.process i).kstack.toNat + 4096 ≤ 4294967296 := by
  have hblock := hnew.block_lt
  rw [hnew.kstack]
  simp only [nvmBlocks, kernBase, pgSize] at hblock ⊢
  omega

/-- What `alloc_process` makes, with the size and the name set. -/
def ofNewProcess {sym : Symbols} {t t' : ProcessTable} {k k' : Kernel}
    {i block : Nat} (hnew : NewProcess sym t k t' k' i block) (size : UInt32)
    (name : List UInt8) (hsize : size.toNat ≤ userSize) : Caller where
  slot := t'.process i
  size := size
  name := name
  size_le := hsize
  tf_eq := hnew.tf
  kernel := (kstack_in_kernel hnew).1
  fits := (kstack_in_kernel hnew).2

variable (p : Caller) {pad : Word → Selector} {table : Nat → Word} {s s' : State}

theorem frameAddress_eq (houter : 0 < s.cpu.cpl) :
    frameAddress p.slot.tss s.cpu = p.slot.tf := by
  rw [frameAddress, if_pos houter, p.tf_eq, tfOf, trapframeSize_eq,
    ProcessSlot.tss]
  bv_omega

/-- The trap leaves the memory of the process alone. -/
theorem enterSyscall_user (houter : 0 < s.cpu.cpl) {a : Nat}
    (ha : a < kernBase) :
    (enterSyscall pad p.slot.tss table s).mem a = s.mem a := by
  have hgrows : Grows (onKernelStack p.slot.tss s)
      (enterTrap pad p.slot.tss table irqSyscall 0 s) 80 :=
    enterTrap_grows houter
  refine hgrows.mem a fun i hi => ?_
  have hkernel := p.kernel
  have hfits := p.fits
  change a ≠ (p.slot.kstack + kstackSize - BitVec.ofNat 32 (i + 1)).toNat
  simp only [kernBase] at ha hkernel
  rw [kstackSize]
  bv_omega

theorem process_enterSyscall (houter : 0 < s.cpu.cpl) :
    p.process (enterSyscall pad p.slot.tss table s).mem = p.calling s.cpu := by
  have hstack := enterTrap_frame pad p.slot.tss table irqSyscall 0 s
  rw [p.frameAddress_eq houter] at hstack
  rw [process, enterSyscall, trapFrameAt_of_slots houter hstack]
  rfl

end Caller

/-- What a system call with the number in `eax` returns; `result` is what the
functions of the table return. -/
def callResult (behind : Nat → UInt32) (result : Callee → UInt32)
    (eax : Word) : UInt32 :=
  let idx := asInt (UInt32.ofBitVec eax)
  if 0 < idx then ((syscallEntry behind idx.toNat).map result).getD 0xFFFFFFFF
  else 0xFFFFFFFF

theorem syscall_tf (behind : Nat → UInt32) (result : Callee → UInt32)
    (proc : Process) : (syscall behind result proc).tf =
      { proc.tf with eax := callResult behind result proc.tf.eax.toBitVec } := by
  simp only [syscall, callResult]
  by_cases hpositive : 0 < asInt proc.tf.eax
  · rw [if_pos hpositive, if_pos hpositive]
    cases syscallEntry behind (asInt proc.tf.eax).toNat with
    | none => rfl
    | some callee => rfl
  · rw [if_neg hpositive, if_neg hpositive]

/-- What a system call is for the process that makes it in the state `s`. -/
structure SystemCall (p : Caller) (pad : Word → Selector) (table : Nat → Word)
    (s : State) : Prop where
  /-- `tf` is the frame that was pushed -/
  process : p.process (enterSyscall pad p.slot.tss table s).mem =
    p.calling s.cpu
  /-- arguments are read from the stack and the memory of the process -/
  pointer : ∀ n size,
    argptr (p.process (enterSyscall pad p.slot.tss table s).mem)
      (enterSyscall pad p.slot.tss table s).mem n size =
    argptr (p.calling s.cpu) s.mem n size
  string : ∀ n,
    argstr (p.process (enterSyscall pad p.slot.tss table s).mem)
      (enterSyscall pad p.slot.tss table s).mem n =
    argstr (p.calling s.cpu) s.mem n
  print : ∀ va,
    print va (p.process (enterSyscall pad p.slot.tss table s).mem)
      (enterSyscall pad p.slot.tss table s).mem =
    print va (p.calling s.cpu) s.mem
  /-- what `syscall` stores is what the process gets, in `eax` only -/
  returns : ∀ behind result s',
    ReturnsEax s.cpu (callResult behind result s.cpu.eax).toBitVec
        (enterSyscall pad p.slot.tss table s) s' →
      trapFrameAt s'.mem p.slot.tf = (syscall behind result (p.process
        (enterSyscall pad p.slot.tss table s).mem)).tf ∧
      (run pad leaveTrap s').cpu = { s.cpu with
        eax := (callResult behind result s.cpu.eax).toBitVec }

/-- Every system call, of every process and with every number and argument. -/
theorem systemCall (p : Caller) (pad : Word → Selector) (table : Nat → Word)
    (s : State) (houter : 0 < s.cpu.cpl) : SystemCall p pad table s := by
  have hprocess : p.process (enterSyscall pad p.slot.tss table s).mem =
      p.calling s.cpu := p.process_enterSyscall houter
  have huser : ∀ a < p.size.toNat,
      (enterSyscall pad p.slot.tss table s).mem a = s.mem a := fun a ha =>
    p.enterSyscall_user houter (ha.trans_le p.size_le)
  refine ⟨hprocess, ?_, ?_, ?_, ?_⟩
  · intro n size
    rw [hprocess]
    exact argptr_congr huser
  · intro n
    rw [hprocess]
    exact argstr_congr huser
  · intro va
    rw [hprocess]
    exact print_congr huser va
  · intro behind result s' hreturns
    have hslots := ReturnsEax.slots hreturns
    rw [p.frameAddress_eq houter] at hslots
    refine ⟨?_, leaveTrap_eax hreturns⟩
    have hframe := trapFrameAt_of_slots (c := { s.cpu with
      eax := (callResult behind result s.cpu.eax).toBitVec }) houter hslots
    rw [hprocess, syscall_tf, hframe]
    rfl

/-- `print` called for the process `p` that has trapped in the state `s`. -/
def Caller.printed (p : Caller) (pad : Word → Selector) (table : Nat → Word)
    (va : VaList) (s : State) : Except Formatted (Printed × Int) :=
  print va (p.process (enterSyscall pad p.slot.tss table s).mem)
    (enterSyscall pad p.slot.tss table s).mem

/-- A system call `print` shows `text` and comes back with `eax`. -/
def PrintCall (p : Caller) (pad : Word → Selector) (table : Nat → Word)
    (behind : Nat → UInt32) (va : VaList) (s : State) (text : List UInt8)
    (eax : Word) : Prop :=
  ∃ printed ret, p.printed pad table va s = .ok (printed, ret) ∧
    printed.console = text ∧
    ∀ s', ReturnsEax s.cpu (callResult behind
          (fun _ => UInt32.ofBitVec (BitVec.ofInt 32 ret)) s.cpu.eax).toBitVec
        (enterSyscall pad p.slot.tss table s) s' →
      (run pad leaveTrap s').cpu = { s.cpu with eax := eax }

theorem print_refused {va : VaList} {proc : Process} {m : Memory}
    (h : (argstr proc m 0).ret < 0) :
    print va proc m = (do
      let printed ← kprintf va printArgError
      .ok (printed, -1)) := by
  rw [print]
  cases (argstr proc m 0).res with
  | none => rfl
  | some msg => exact if_pos h

section PrintCalls

variable {p : Caller} {pad : Word → Selector} {table : Nat → Word}
  {behind : Nat → UInt32} {va : VaList} {s : State} {text : List UInt8}

theorem printCall_of_printed {printed : Printed} {ret : Int}
    (houter : 0 < s.cpu.cpl) (heax : s.cpu.eax = 22)
    (hprint : print va (p.calling s.cpu) s.mem = .ok (printed, ret)) :
    PrintCall p pad table behind va s printed.console (BitVec.ofInt 32 ret) := by
  have hcall := systemCall p pad table s houter
  refine ⟨printed, ret, (hcall.print va).trans hprint, rfl, ?_⟩
  intro s' hreturns
  rw [(hcall.returns _ _ s' hreturns).2, heax]
  rfl

end PrintCalls

/-- A process with one page, and its kernel stack on the page 0xC0400000. -/
def onePageCaller : Caller where
  slot := ⟨1, 0xC0400000, 0, .running, tfOf 0xC0400000⟩
  size := 4096
  name := []
  size_le := by decide
  tf_eq := rfl
  kernel := by decide
  fits := by decide

/-- It calls `print` with the string `hi`. -/
def hiState : State :=
  ⟨{ initialCpu with eax := 22, esp := 0 }, twoCharacters 0x68 0x69⟩

theorem systemCall_hi :
    SystemCall onePageCaller (fun _ => 0) (fun _ => 0) hiState :=
  systemCall onePageCaller (fun _ => 0) (fun _ => 0) hiState (by decide)

theorem passesString_hi :
    PassesString (onePageCaller.calling hiState.cpu) hiState.mem
      [0x68, 0x69] := by
  have hword : argWord (onePageCaller.calling hiState.cpu) hiState.mem 0 =
      some 8 := rfl
  have hnul : FirstNul (onePageCaller.calling hiState.cpu) hiState.mem
      (8 : UInt32).toNat 10 := by
    refine ⟨by decide, by decide, rfl, ?_⟩
    intro a hlow hhigh
    obtain rfl | rfl : a = 8 ∨ a = 9 := by
      have hstart : (8 : UInt32).toNat = 8 := rfl
      omega
    · decide
    · decide
  constructor
  · rw [argstr_some hword, fetchStr_found hnul]
    decide
  · exact ⟨8, hword, hnul, rfl⟩

/-- The string that a process passes comes to the console, and its length
back; for one that is refused there is a message and -1. -/
theorem printCall (p : Caller) (pad : Word → Selector) (table : Nat → Word)
    (behind : Nat → UInt32) (va : VaList) (s : State) (houter : 0 < s.cpu.cpl)
    (heax : s.cpu.eax = 22) :
    (∀ msg, PassesString (p.calling s.cpu) s.mem msg → msg ≠ [] →
      msg.length ≤ 1023 → NoConversion msg →
        PrintCall p pad table behind va s msg (BitVec.ofNat 32 msg.length)) ∧
    ((argstr (p.calling s.cpu) s.mem 0).ret < 0 →
      PrintCall p pad table behind va s printArgError (-1)) := by
  constructor
  · intro msg hpasses hne _ hconversion
    have hprint := hpasses.print_eq va
    rw [kprintf_copies va hne hpasses.noNul hconversion] at hprint
    exact printCall_of_printed houter heax hprint
  · intro hrefused
    have hprint : print va (p.calling s.cpu) s.mem = _ := print_refused hrefused
    rw [kprintf_copies va (by decide) (by decide) (by
      unfold NoConversion
      decide)] at hprint
    exact printCall_of_printed houter heax hprint

theorem printCall_hi :
    PrintCall onePageCaller (fun _ => 0) (fun _ => 0) (fun _ => 0)
      ⟨fun _ => 0, fun _ => []⟩ hiState [0x68, 0x69] 2 :=
  (printCall onePageCaller (fun _ => 0) (fun _ => 0) (fun _ => 0)
    ⟨fun _ => 0, fun _ => []⟩ hiState (by decide) rfl).1 _ passesString_hi
    (by decide) (by decide) (by
      unfold NoConversion
      decide)

end Linda
