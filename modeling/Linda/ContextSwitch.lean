/-
`switch_context` of switch.S: what a call of it saves and where it goes.
-/
import Linda.ProcessTable

namespace Linda

open ByteMemory WordStack X86

/-- `switch_context`, as the assembler has it. -/
def switchContext : List Instr :=
  [.load 4 .esp .eax, .load 8 .esp .edx, .pushl .ebp, .pushl .ebx, .pushl .esi,
    .pushl .edi, .store .esp .eax, .movl .edx .esp, .popl .edi, .popl .esi,
    .popl .ebx, .popl .ebp, .ret]

/-- The call, with `old` and `new` on the stack and `eip` behind it. -/
def callSwitch (pad : Word → Selector) (sym : Symbols) (s : State) : State :=
  run pad (.call sym.switchContext :: switchContext) s

/-- `struct context` under the stack pointer of the caller. -/
def savedStack (s : State) : State :=
  [s.cpu.eip, s.cpu.ebp, s.cpu.ebx, s.cpu.esi, s.cpu.edi].foldl State.push s

def switchMemory (s : State) (old : Word) : Memory :=
  putWord (savedStack s).mem old (s.cpu.esp - BitVec.ofNat 32 contextSize)

/-- A processor after it loaded the context at `new`. -/
def Cpu.loadContext (c : Cpu) (m : Memory) (new : Word) : Cpu :=
  { c with
    edi := wordAt m new
    esi := wordAt m (new + 4)
    ebx := wordAt m (new + 8)
    ebp := wordAt m (new + 12)
    eip := wordAt m (new + 16)
    esp := new + 20 }

variable {s : State} {old new : Word}

/-- The first half, up to the new stack. -/
theorem saveContext_run (pad : Word → Selector) (sym : Symbols)
    (h : s.Holds [.word old, .word new]) :
    run pad (.call sym.switchContext :: switchContext.take 8) s =
      ⟨{ s.cpu with
        eax := old, edx := new, eip := sym.switchContext, esp := new },
        switchMemory s old⟩ := by
  have hcall := h.push s.cpu.eip (Nat.le_of_ble_eq_true rfl)
  have hold : wordAt (s.push s.cpu.eip).mem (s.cpu.esp - 4 + 4) = old :=
    hcall.peek_at (i := 1) rfl
  have hnew : wordAt (s.push s.cpu.eip).mem (s.cpu.esp - 4 + 8) = new :=
    hcall.peek_at (i := 2) rfl
  have hesp : s.cpu.esp - BitVec.ofNat 32 contextSize =
      s.cpu.esp - 4 - 4 - 4 - 4 - 4 := by
    rw [contextSize_eq]
    bv_omega
  simp only [switchContext, List.take, run_cons, run_nil, X86.exec, Cpu.get,
    Cpu.set, push_cpu, hold, hnew]
  rw [switchMemory, hesp]
  rfl

/-- The second half, on the new stack. -/
theorem loadContext_run (pad : Word → Selector) (s : State) :
    run pad (switchContext.drop 8) s =
      ⟨Cpu.loadContext s.cpu s.mem s.cpu.esp, s.mem⟩ := by
  simp only [switchContext, List.drop, run_cons, run_nil, X86.exec, State.peek,
    Cpu.set, Cpu.loadContext, BitVec.add_assoc, BitVec.add_zero,
    BitVec.reduceAdd, BitVec.ofNat_eq_ofNat]

theorem callSwitch_eq (pad : Word → Selector) (sym : Symbols)
    (h : s.Holds [.word old, .word new]) :
    callSwitch pad sym s =
      ⟨Cpu.loadContext { s.cpu with
        eax := old, edx := new, eip := sym.switchContext, esp := new }
        (switchMemory s old) new, switchMemory s old⟩ := by
  have hsplit : Instr.call sym.switchContext :: switchContext =
      (.call sym.switchContext :: switchContext.take 8) ++
        switchContext.drop 8 := rfl
  rw [callSwitch, hsplit, run_append, saveContext_run pad sym h,
    loadContext_run]

/-- The context that a call of `switch_context` saves. -/
def contextSlots (c : Cpu) : List Slot :=
  [.word c.edi, .word c.esi, .word c.ebx, .word c.ebp, .word c.eip]

theorem loadContext_slots {m : Memory} {c : Cpu} (b : Cpu)
    (h : StackAt m new (contextSlots c)) :
    Cpu.loadContext b m new = { b with
      edi := c.edi, esi := c.esi, ebx := c.ebx, ebp := c.ebp, eip := c.eip
      esp := new + 20 } := by
  have hedi : wordAt m new = c.edi := h.1
  have hesi : wordAt m (new + 4) = c.esi := h.get (i := 1) rfl
  have hebx : wordAt m (new + 8) = c.ebx := h.get (i := 2) rfl
  have hebp : wordAt m (new + 12) = c.ebp := h.get (i := 3) rfl
  have heip : wordAt m (new + 16) = c.eip := h.get (i := 4) rfl
  rw [Cpu.loadContext, hedi, hesi, hebx, hebp, heip]

theorem savedStack_holds (s : State) :
    (savedStack s).Holds (contextSlots s.cpu) :=
  s.holds_nil.pushes [s.cpu.eip, s.cpu.ebp, s.cpu.ebx, s.cpu.esi, s.cpu.edi]
    (Nat.le_of_ble_eq_true rfl)

theorem savedStack_esp (s : State) :
    (savedStack s).cpu.esp = s.cpu.esp - BitVec.ofNat 32 contextSize := by
  rw [savedStack, pushes_cpu, contextSize_eq]
  rfl

/-- A switch writes its context and the pointer to it. -/
theorem switchMemory_of_outside {x : Nat}
    (hfit : contextSize ≤ s.cpu.esp.toNat)
    (hold : old.toNat + 4 ≤ 4294967296)
    (hx : x < s.cpu.esp.toNat - contextSize ∨ s.cpu.esp.toNat ≤ x)
    (hx' : x < old.toNat ∨ old.toNat + 4 ≤ x) :
    switchMemory s old x = s.mem x := by
  rw [contextSize_eq] at hfit hx
  rw [switchMemory, putWord_of_beside hold hx']
  exact pushes_mem hfit hx

theorem switchMemory_pointer (s : State) (old : Word) :
    wordAt (switchMemory s old) old =
      s.cpu.esp - BitVec.ofNat 32 contextSize :=
  wordAt_putWord_same _ old _

theorem switchMemory_context (hfit : contextSize ≤ s.cpu.esp.toNat)
    (hold : old.toNat + 4 ≤ 4294967296)
    (hover : NoOverlap old.toNat 4 (s.cpu.esp.toNat - contextSize)
      contextSize) :
    StackAt (switchMemory s old) (s.cpu.esp - BitVec.ofNat 32 contextSize)
      (contextSlots s.cpu) := by
  have hsaved := savedStack_holds s
  rw [State.Holds, savedStack_esp] at hsaved
  rw [contextSize_eq] at hfit hover hsaved ⊢
  rw [NoOverlap] at hover
  have hlt := s.cpu.esp.isLt
  have hbase : (s.cpu.esp - BitVec.ofNat 32 20).toNat =
      s.cpu.esp.toNat - 20 := by
    bv_omega
  refine hsaved.congr (.of_bytes ?_ fun x hlo hhi => ?_)
  · rw [hbase, contextSlots]
    simp only [List.length_cons, List.length_nil]
    omega
  · rw [hbase] at hlo hhi
    simp only [contextSlots, List.length_cons, List.length_nil] at hhi
    exact putWord_of_beside hold (by omega)

-- `callSwitch_eq` says all that is used of it
attribute [irreducible] callSwitch

end Linda
