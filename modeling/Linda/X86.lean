/-
A part of the x86 processor in protected mode: its registers, the instructions
that move them to and from a stack, and what an interrupt and the return from
one do.  Programs are straight.  Arithmetic leaves the flags alone here, and
selectors are not looked up in a descriptor table.
-/
import Linda.WordStack

namespace X86

open ByteMemory WordStack

abbrev Selector := BitVec 16

structure Cpu where
  eax : Word
  ecx : Word
  edx : Word
  ebx : Word
  esp : Word
  ebp : Word
  esi : Word
  edi : Word
  eip : Word
  eflags : Word
  cs : Selector
  ds : Selector
  es : Selector
  fs : Selector
  gs : Selector
  ss : Selector
deriving Repr, DecidableEq

structure State where
  cpu : Cpu
  mem : Memory

/-- The privilege level a selector asks for. -/
def rpl (sel : Selector) : Nat := sel.toNat % 4

/-- The level the processor runs at. -/
def Cpu.cpl (c : Cpu) : Nat := rpl c.cs

inductive Reg where
  | eax
  | ecx
  | edx
  | ebx
  | esp
  | ebp
  | esi
  | edi
deriving Repr, DecidableEq

inductive Seg where
  | ds
  | es
  | fs
  | gs
deriving Repr, DecidableEq

namespace Cpu

def get (c : Cpu) : Reg → Word
  | .eax => c.eax
  | .ecx => c.ecx
  | .edx => c.edx
  | .ebx => c.ebx
  | .esp => c.esp
  | .ebp => c.ebp
  | .esi => c.esi
  | .edi => c.edi

def set (c : Cpu) (v : Word) : Reg → Cpu
  | .eax => { c with eax := v }
  | .ecx => { c with ecx := v }
  | .edx => { c with edx := v }
  | .ebx => { c with ebx := v }
  | .esp => { c with esp := v }
  | .ebp => { c with ebp := v }
  | .esi => { c with esi := v }
  | .edi => { c with edi := v }

def getSeg (c : Cpu) : Seg → Selector
  | .ds => c.ds
  | .es => c.es
  | .fs => c.fs
  | .gs => c.gs

def setSeg (c : Cpu) (v : Selector) : Seg → Cpu
  | .ds => { c with ds := v }
  | .es => { c with es := v }
  | .fs => { c with fs := v }
  | .gs => { c with gs := v }

end Cpu

/-- Some instructions, the target of a move last. -/
inductive Instr where
  | pushl (r : Reg)
  | pushImm (v : Word)
  | pushSeg (g : Seg)
  | pushal
  | popl (r : Reg)
  | popSeg (g : Seg)
  | popal
  /-- `movw $v, %ax` -/
  | movAx (v : Selector)
  /-- `movw %ax, %g` -/
  | movSeg (g : Seg)
  | movl (src dst : Reg)
  /-- `movl disp(%base), %dst` -/
  | load (disp : Word) (base dst : Reg)
  /-- `movl %src, (%base)` -/
  | store (src base : Reg)
  | addl (v : Word) (r : Reg)
  /-- `eip` is the address behind the instruction -/
  | call (target : Word)
  | ret
  | iret
deriving Repr, DecidableEq

namespace State

def push (s : State) (v : Word) : State :=
  ⟨{ s.cpu with esp := s.cpu.esp - 4 }, putWord s.mem (s.cpu.esp - 4) v⟩

/-- A selector fills the lower half of its word; what the processor leaves in
the other half is `pad`, for every address. -/
def pushSelector (pad : Word → Selector) (s : State) (sel : Selector) : State :=
  s.push (pad (s.cpu.esp - 4) ++ sel)

/-- The word `n` bytes above the top of the stack. -/
def peek (s : State) (n : Word) : Word := wordAt s.mem (s.cpu.esp + n)

def peekHalf (s : State) (n : Word) : Selector :=
  halfAt s.mem (s.cpu.esp + n)

/-- What the stack holds from the top on. -/
def Holds (s : State) (slots : List Slot) : Prop :=
  StackAt s.mem s.cpu.esp slots

end State

def exec (pad : Word → Selector) (s : State) : Instr → State
  | .pushl r => s.push (s.cpu.get r)
  | .pushImm v => s.push v
  | .pushSeg g => s.pushSelector pad (s.cpu.getSeg g)
  | .pushal =>
      [s.cpu.eax, s.cpu.ecx, s.cpu.edx, s.cpu.ebx, s.cpu.esp, s.cpu.ebp,
        s.cpu.esi, s.cpu.edi].foldl State.push s
  | .popl r =>
      { s with cpu := { s.cpu with esp := s.cpu.esp + 4 }.set (s.peek 0) r }
  | .popSeg g =>
      { s with
        cpu := { s.cpu with esp := s.cpu.esp + 4 }.setSeg (s.peekHalf 0) g }
  | .popal => { s with cpu := { s.cpu with
      edi := s.peek 0
      esi := s.peek 4
      ebp := s.peek 8
      ebx := s.peek 16
      edx := s.peek 20
      ecx := s.peek 24
      eax := s.peek 28
      esp := s.cpu.esp + 32 } }
  | .movAx v => { s with cpu := { s.cpu with
      eax := s.cpu.eax.extractLsb' 16 16 ++ v } }
  | .movSeg g => { s with cpu := s.cpu.setSeg (s.cpu.eax.setWidth 16) g }
  | .movl src dst => { s with cpu := s.cpu.set (s.cpu.get src) dst }
  | .load disp base dst => { s with
      cpu := s.cpu.set (wordAt s.mem (s.cpu.get base + disp)) dst }
  | .store src base => { s with
      mem := putWord s.mem (s.cpu.get base) (s.cpu.get src) }
  | .addl v r => { s with cpu := s.cpu.set (s.cpu.get r + v) r }
  | .call target =>
      let s := s.push s.cpu.eip
      { s with cpu := { s.cpu with eip := target } }
  | .ret => { s with cpu := { s.cpu with
      eip := s.peek 0, esp := s.cpu.esp + 4 } }
  | .iret =>
      let c := { s.cpu with
        eip := s.peek 0, cs := s.peekHalf 4, eflags := s.peek 8 }
      -- the stack pointer too is on the stack when the level changes
      if s.cpu.cpl < c.cpl then { s with cpu := { c with
        esp := s.peek 12, ss := s.peekHalf 16 } }
      else { s with cpu := { c with esp := s.cpu.esp + 12 } }

/-- The instructions one after the other. -/
def run (pad : Word → Selector) (instrs : List Instr) (s : State) : State :=
  instrs.foldl (exec pad) s

/-- Where an interrupt goes; a trap gate leaves the interrupt flag alone. -/
structure Gate where
  offset : Word
  cs : Selector
  trap : Bool

/-- The stack for interrupts from outer levels. -/
structure Tss where
  esp0 : Word
  ss0 : Selector

def interruptFlag : Word := 0x200

/-- `TF`, `NT`, `RF` and `VM`, which every interrupt clears. -/
def clearedFlags : Word := 0x34100

def Gate.flags (gate : Gate) (eflags : Word) : Word :=
  (if gate.trap then eflags else eflags &&& ~~~interruptFlag) &&&
    ~~~clearedFlags

/-- An interrupt from an outer level goes to the stack of the task state and
saves the old one there. -/
def switchStack (pad : Word → Selector) (tss : Tss) (level : Nat) (s : State) :
    State :=
  if level < s.cpu.cpl then
    (State.pushSelector pad
      ⟨{ s.cpu with esp := tss.esp0, ss := tss.ss0 }, s.mem⟩ s.cpu.ss).push
        s.cpu.esp
  else s

def pushCode (code : Option Word) (s : State) : State :=
  match code with
  | some e => s.push e
  | none => s

/-- What the processor does at an interrupt, with an error code or without. -/
def interrupt (pad : Word → Selector) (tss : Tss) (gate : Gate)
    (code : Option Word) (s : State) : State :=
  let c := s.cpu
  let s := switchStack pad tss (rpl gate.cs) s
  let s := pushCode code
    (((s.push c.eflags).pushSelector pad c.cs).push c.eip)
  { s with cpu := { s.cpu with
    eip := gate.offset
    cs := gate.cs
    eflags := gate.flags c.eflags } }

/-- The stack as saved by an interrupt from an outer level. -/
def outerSlots (level : Nat) (c : Cpu) : List Slot :=
  if level < c.cpl then [.word c.esp, .half c.ss] else []

/-- What an interrupt to `level` leaves for `iret`. -/
def returnSlots (level : Nat) (c : Cpu) : List Slot :=
  .word c.eip :: .half c.cs :: .word c.eflags :: outerSlots level c

section Stack

variable {pad : Word → Selector} {s : State} {v : Word} {sel : Selector}
  {g : Seg} {slot : Slot} {slots : List Slot}

@[simp] theorem run_nil (pad : Word → Selector) (s : State) :
    run pad [] s = s := rfl

@[simp] theorem run_cons (pad : Word → Selector) (instr : Instr)
    (instrs : List Instr) (s : State) :
    run pad (instr :: instrs) s = run pad instrs (exec pad s instr) := rfl

@[simp] theorem run_append (pad : Word → Selector) (first second : List Instr)
    (s : State) :
    run pad (first ++ second) s = run pad second (run pad first s) :=
  List.foldl_append

@[simp] theorem push_cpu (s : State) (v : Word) :
    (s.push v).cpu = { s.cpu with esp := s.cpu.esp - 4 } := rfl

@[simp] theorem pushSelector_cpu (s : State) (sel : Selector) :
    (s.pushSelector pad sel).cpu = { s.cpu with esp := s.cpu.esp - 4 } := rfl

theorem setWidth_append (high low : Selector) :
    (high ++ low : Word).setWidth 16 = low := by
  ext i hi
  rw [BitVec.getElem_setWidth, BitVec.getLsbD_append, if_pos hi,
    BitVec.getLsbD_eq_getElem hi]

theorem State.holds_nil (s : State) : s.Holds [] := trivial

theorem State.Holds.push (h : s.Holds slots) (v : Word)
    (hroom : 4 * slots.length + 4 ≤ 4294967296) :
    (s.push v).Holds (.word v :: slots) :=
  StackAt.push h rfl hroom

theorem State.Holds.pushSelector (h : s.Holds slots)
    (pad : Word → Selector) (sel : Selector)
    (hroom : 4 * slots.length + 4 ≤ 4294967296) :
    (s.pushSelector pad sel).Holds (.half sel :: slots) :=
  StackAt.push h (setWidth_append _ sel) hroom

theorem State.Holds.pushes (h : s.Holds slots) (ws : List Word)
    (hroom : 4 * (ws.length + slots.length) ≤ 4294967296) :
    (ws.foldl State.push s).Holds (ws.reverse.map .word ++ slots) := by
  induction ws generalizing s slots with
  | nil => exact h
  | cons w ws ih =>
      rw [List.length_cons] at hroom
      have hrest := ih (h.push w (by omega)) (by
        rw [List.length_cons]
        omega)
      rwa [List.reverse_cons, List.map_append, List.append_assoc]

theorem pushes_cpu (s : State) (ws : List Word) :
    (ws.foldl State.push s).cpu =
      { s.cpu with esp := s.cpu.esp - BitVec.ofNat 32 (4 * ws.length) } := by
  induction ws generalizing s with
  | nil =>
      rw [List.length_nil, Nat.mul_zero]
      exact congrArg (fun esp => { s.cpu with esp }) (BitVec.sub_zero _).symm
  | cons w ws ih =>
      rw [List.foldl_cons, ih, push_cpu, BitVec.sub_sub, List.length_cons,
        Nat.mul_succ, Nat.add_comm, BitVec.ofNat_add]
      rfl

/-- Pushes write under the stack pointer only. -/
theorem pushes_mem {ws : List Word} {x : Nat}
    (hfit : 4 * ws.length ≤ s.cpu.esp.toNat)
    (hx : x < s.cpu.esp.toNat - 4 * ws.length ∨ s.cpu.esp.toNat ≤ x) :
    (ws.foldl State.push s).mem x = s.mem x := by
  induction ws generalizing s with
  | nil => rfl
  | cons w ws ih =>
      rw [List.length_cons] at hfit hx
      have hesp : (s.cpu.esp - 4).toNat = s.cpu.esp.toNat - 4 := by bv_omega
      have hlt := s.cpu.esp.isLt
      have hrest : (ws.foldl State.push (s.push w)).mem x = (s.push w).mem x :=
        ih (by rw [push_cpu, hesp]; omega) (by rw [push_cpu, hesp]; omega)
      rw [List.foldl_cons, hrest]
      exact putWord_of_beside (by omega) (by omega)

@[simp] theorem set_cs (c : Cpu) (v : Word) (r : Reg) :
    (c.set v r).cs = c.cs := by
  cases r <;> rfl

@[simp] theorem set_ss (c : Cpu) (v : Word) (r : Reg) :
    (c.set v r).ss = c.ss := by
  cases r <;> rfl

@[simp] theorem setSeg_cs (c : Cpu) (sel : Selector) (g : Seg) :
    (c.setSeg sel g).cs = c.cs := by
  cases g <;> rfl

@[simp] theorem setSeg_ss (c : Cpu) (sel : Selector) (g : Seg) :
    (c.setSeg sel g).ss = c.ss := by
  cases g <;> rfl

/-- No other instruction loads `cs` and `ss`. -/
theorem exec_selectors (pad : Word → Selector) (s : State) {instr : Instr}
    (h : instr ≠ .iret) : (exec pad s instr).cpu.cs = s.cpu.cs ∧
      (exec pad s instr).cpu.ss = s.cpu.ss := by
  cases instr with
  | iret => exact absurd rfl h
  | pushal => simp only [exec, pushes_cpu, and_self]
  | pushl r => exact ⟨rfl, rfl⟩
  | pushImm v => exact ⟨rfl, rfl⟩
  | pushSeg g => exact ⟨rfl, rfl⟩
  | popl r => simp only [exec, set_cs, set_ss, and_self]
  | popSeg g => simp only [exec, setSeg_cs, setSeg_ss, and_self]
  | popal => exact ⟨rfl, rfl⟩
  | movAx v => exact ⟨rfl, rfl⟩
  | movSeg g => simp only [exec, setSeg_cs, setSeg_ss, and_self]
  | movl src dst => simp only [exec, set_cs, set_ss, and_self]
  | load disp base dst => simp only [exec, set_cs, set_ss, and_self]
  | store src base => exact ⟨rfl, rfl⟩
  | addl v r => simp only [exec, set_cs, set_ss, and_self]
  | call target => exact ⟨rfl, rfl⟩
  | ret => exact ⟨rfl, rfl⟩

theorem run_selectors (pad : Word → Selector) {instrs : List Instr} (s : State)
    (h : Instr.iret ∉ instrs) : (run pad instrs s).cpu.cs = s.cpu.cs ∧
      (run pad instrs s).cpu.ss = s.cpu.ss := by
  induction instrs generalizing s with
  | nil => exact ⟨rfl, rfl⟩
  | cons instr instrs ih =>
      rw [List.mem_cons, not_or] at h
      obtain ⟨hcs, hss⟩ := exec_selectors pad s (Ne.symm h.1)
      obtain ⟨hcs', hss'⟩ := ih (exec pad s instr) h.2
      exact ⟨hcs'.trans hcs, hss'.trans hss⟩

theorem State.Holds.peek_at {i : Nat} (h : s.Holds slots)
    (hi : slots[i]? = some (.word v)) :
    s.peek (BitVec.ofNat 32 (4 * i)) = v := StackAt.get h hi

theorem State.Holds.peekHalf_at {i : Nat} (h : s.Holds slots)
    (hi : slots[i]? = some (.half sel)) :
    s.peekHalf (BitVec.ofNat 32 (4 * i)) = sel := StackAt.get h hi

/-- `popal` passes over the slot of `esp`. -/
theorem exec_popal {edi esi ebp ebx edx ecx eax : Word}
    (h : s.Holds (.word edi :: .word esi :: .word ebp :: slot :: .word ebx ::
      .word edx :: .word ecx :: .word eax :: slots)) :
    exec pad s .popal = ⟨{ s.cpu with
      edi := edi, esi := esi, ebp := ebp, ebx := ebx
      edx := edx, ecx := ecx, eax := eax, esp := s.cpu.esp + 32 }, s.mem⟩ := by
  have hedi : s.peek 0 = edi := h.peek_at (i := 0) rfl
  have hesi : s.peek 4 = esi := h.peek_at (i := 1) rfl
  have hebp : s.peek 8 = ebp := h.peek_at (i := 2) rfl
  have hebx : s.peek 16 = ebx := h.peek_at (i := 4) rfl
  have hedx : s.peek 20 = edx := h.peek_at (i := 5) rfl
  have hecx : s.peek 24 = ecx := h.peek_at (i := 6) rfl
  have heax : s.peek 28 = eax := h.peek_at (i := 7) rfl
  rw [exec, hedi, hesi, hebp, hebx, hedx, hecx, heax]

theorem State.Holds.returnSlots_prefix {c : Cpu} {level : Nat}
    (h : s.Holds (returnSlots level c ++ slots)) :
    s.peek 0 = c.eip ∧ s.peekHalf 4 = c.cs ∧ s.peek 8 = c.eflags :=
  ⟨h.peek_at (i := 0) rfl, h.peekHalf_at (i := 1) rfl, h.peek_at (i := 2) rfl⟩

/-- `iret` undoes what an interrupt to the level it runs at has pushed. -/
theorem exec_iret {c : Cpu}
    (h : s.Holds (returnSlots s.cpu.cpl c ++ slots)) :
    exec pad s .iret = ⟨{ s.cpu with
      eip := c.eip, cs := c.cs, eflags := c.eflags
      esp := if s.cpu.cpl < c.cpl then c.esp else s.cpu.esp + 12
      ss := if s.cpu.cpl < c.cpl then c.ss else s.cpu.ss }, s.mem⟩ := by
  obtain ⟨heip, hcs, heflags⟩ := h.returnSlots_prefix
  simp only [exec, heip, hcs, heflags]
  by_cases hlevel : s.cpu.cpl < c.cpl
  · rw [returnSlots, outerSlots, if_pos hlevel] at h
    have hesp : s.peek 12 = c.esp := h.peek_at (i := 3) rfl
    have hss : s.peekHalf 16 = c.ss := h.peekHalf_at (i := 4) rfl
    simp only [hesp, hss, if_pos hlevel]
    exact if_pos hlevel
  · simp only [if_neg hlevel]
    exact if_neg hlevel

theorem outerSlots_length_le (level : Nat) (c : Cpu) :
    (outerSlots level c).length ≤ 2 := by
  rw [outerSlots]
  split
  · exact le_rfl
  · exact Nat.zero_le 2

theorem returnSlots_length_le (level : Nat) (c : Cpu) :
    (returnSlots level c).length ≤ 5 :=
  Nat.add_le_add_right (outerSlots_length_le level c) 3

theorem switchStack_cpu (pad : Word → Selector) (tss : Tss) (level : Nat)
    (s : State) :
    (switchStack pad tss level s).cpu = { s.cpu with
      esp := if level < s.cpu.cpl then tss.esp0 - 8 else s.cpu.esp
      ss := if level < s.cpu.cpl then tss.ss0 else s.cpu.ss } := by
  rw [switchStack]
  split
  · simp only [push_cpu, pushSelector_cpu, BitVec.sub_sub]
    rfl
  · rfl

theorem switchStack_holds (pad : Word → Selector) (tss : Tss) (level : Nat)
    (s : State) :
    (switchStack pad tss level s).Holds (outerSlots level s.cpu) := by
  rw [switchStack, outerSlots]
  split
  · refine ((State.holds_nil _).pushSelector pad s.cpu.ss ?_).push s.cpu.esp ?_
    · exact Nat.le_of_ble_eq_true rfl
    · exact Nat.le_of_ble_eq_true rfl
  · exact s.holds_nil

theorem pushCode_holds {code : Option Word} (h : s.Holds slots)
    (hroom : 4 * slots.length + 4 ≤ 4294967296) :
    (pushCode code s).Holds (code.toList.map .word ++ slots) := by
  cases code with
  | none => exact h
  | some e => exact h.push e hroom

/-- An interrupt changes these registers only. -/
theorem interrupt_cpu (pad : Word → Selector) (tss : Tss) (gate : Gate)
    (code : Option Word) (s : State) :
    (interrupt pad tss gate code s).cpu = { s.cpu with
      eip := gate.offset
      cs := gate.cs
      eflags := gate.flags s.cpu.eflags
      esp := (if rpl gate.cs < s.cpu.cpl then tss.esp0 - 8 else s.cpu.esp) -
        BitVec.ofNat 32 (12 + 4 * code.toList.length)
      ss := if rpl gate.cs < s.cpu.cpl then tss.ss0 else s.cpu.ss } := by
  cases code with
  | none =>
      simp only [interrupt, pushCode, push_cpu, pushSelector_cpu,
        switchStack_cpu, BitVec.sub_sub]
      rfl
  | some e =>
      simp only [interrupt, pushCode, push_cpu, pushSelector_cpu,
        switchStack_cpu, BitVec.sub_sub]
      rfl

theorem interrupt_holds (pad : Word → Selector) (tss : Tss) (gate : Gate)
    (code : Option Word) (s : State) :
    (interrupt pad tss gate code s).Holds
      (code.toList.map .word ++ returnSlots (rpl gate.cs) s.cpu) := by
  have hlen := outerSlots_length_le (rpl gate.cs) s.cpu
  have heflags := (switchStack_holds pad tss (rpl gate.cs) s).push
    s.cpu.eflags (by omega)
  have hcs := heflags.pushSelector pad s.cpu.cs (by
    rw [List.length_cons]
    omega)
  have heip := hcs.push s.cpu.eip (by
    rw [List.length_cons, List.length_cons]
    omega)
  have hreturn := returnSlots_length_le (rpl gate.cs) s.cpu
  exact pushCode_holds heip (by omega)

end Stack

end X86
