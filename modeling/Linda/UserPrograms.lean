/-
The test programs processA.S and processB.S in user mode: what they print
through system calls, whenever interrupts come in between.
-/
import Linda.MachineCode
import Linda.ProgramLoad
import Linda.SyscallEntry

namespace Linda

open ByteMemory WordStack X86

/-- Where a test program goes behind its system call. -/
inductive Ending where
  | spin
  | start
deriving Repr, DecidableEq

namespace Ending

def jump : Ending → BitVec 8
  | .spin => 0xFE
  | .start => 0xED

/-- The instruction that is jumped to. -/
def target : Ending → Nat
  | .spin => 5
  | .start => 0

/-- The instruction that comes after `n` others. -/
def position : Ending → Nat → Nat
  | .spin, n => min n 5
  | .start, n => n % 6

/-- The instruction behind the `k`-th one. -/
def next (ending : Ending) (k : Nat) : Nat :=
  if k = 5 then ending.target else k + 1

/-- How many system calls are behind them. -/
def calls : Ending → Nat → Nat
  | .spin, n => if 4 ≤ n then 1 else 0
  | .start, n => (n + 2) / 6

theorem position_lt (ending : Ending) (n : Nat) : ending.position n < 6 := by
  cases ending with
  | spin => exact (Nat.min_le_right n 5).trans_lt (by decide)
  | start => exact Nat.mod_lt n (by decide)

theorem position_succ (ending : Ending) (n : Nat) :
    ending.position (n + 1) = ending.next (ending.position n) := by
  cases ending with
  | spin =>
      change min (n + 1) 5 = if min n 5 = 5 then 5 else min n 5 + 1
      split_ifs <;> omega
  | start =>
      change (n + 1) % 6 = if n % 6 = 5 then 0 else n % 6 + 1
      split_ifs <;> omega

theorem calls_succ (ending : Ending) (n : Nat) :
    ending.calls (n + 1) =
      ending.calls n + if ending.position n = 3 then 1 else 0 := by
  cases ending with
  | spin =>
      change (if 4 ≤ n + 1 then 1 else 0) =
        (if 4 ≤ n then 1 else 0) + if min n 5 = 3 then 1 else 0
      split_ifs <;> omega
  | start =>
      change (n + 1 + 2) / 6 = (n + 2) / 6 + if n % 6 = 3 then 1 else 0
      split_ifs <;> omega

end Ending

/-- `start`; `$msg` is the address behind the code. -/
def testCode (ending : Ending) : List Coded :=
  [.pushl 19, .pushb 0, .movlEax 22, .int 64, .addlEsp 8, .jmp ending.jump]

/-- `.string` puts a NUL behind the characters. -/
def testProgram (ending : Ending) (msg : List UInt8) : List UInt8 :=
  (testCode ending).flatMap Coded.encode ++ (msg ++ [0])

/-- processA.S, with `"A\n\0"` -/
def processA : List UInt8 := testProgram .spin [0x41, 0x0A, 0]

/-- processB.S, with `"B\0"` -/
def processB : List UInt8 := testProgram .start [0x42, 0]

/-- A process in user mode and the texts that its calls have printed. -/
structure UserRun where
  machine : State
  printed : List (List UInt8)

/-- `print` called from user mode at `s` has shown `shown` and comes back at
`s'`, in front of the way out of the trap; the kernel has left the memory of the
process alone. -/
structure PrintReturns (p : Caller) (pad : Word → Selector)
    (table : Nat → Word) (behind : Nat → UInt32) (va : VaList)
    (s : State) (shown : Printed × Int) (s' : State) : Prop where
  printed : p.printed pad table va s = .ok shown
  called : (syscall behind
      (fun _ => UInt32.ofBitVec (BitVec.ofInt 32 shown.2))
      (p.process (enterSyscall pad p.slot.tss table s).mem)).called =
    some (.listed .print)
  eax : ReturnsEax s.cpu (syscall behind
      (fun _ => UInt32.ofBitVec (BitVec.ofInt 32 shown.2))
      (p.process (enterSyscall pad p.slot.tss table s).mem)).tf.eax.toBitVec
    (enterSyscall pad p.slot.tss table s) s'
  user : ∀ a < kernBase, s'.mem a = s.mem a

/-- One instruction of the process. -/
inductive OwnStep (p : Caller) (pad : Word → Selector) (table : Nat → Word)
    (behind : Nat → UInt32) : UserRun → UserRun → Prop
  | instr {u : UserRun} {instr : Coded}
      (hinstr : Coded.decode u.machine.mem u.machine.cpu.eip = some instr)
      (hint : ∀ vector, instr ≠ .int vector) :
      OwnStep p pad table behind u ⟨instr.exec u.machine, u.printed⟩
  | print {u : UserRun} {s' : State} {shown : Printed × Int} (va : VaList)
      (hinstr : Coded.decode u.machine.mem u.machine.cpu.eip =
        some (.int 64))
      (hreturns : PrintReturns p pad table behind va
        ((Coded.int 64).exec u.machine) shown s') :
      OwnStep p pad table behind u
        ⟨run pad leaveTrap s', u.printed ++ [shown.1.console]⟩

/-- Interrupts have come and gone, and other processes may have run. -/
structure Interrupted (u u' : UserRun) : Prop where
  cpu : u'.machine.cpu = u.machine.cpu
  user : ∀ a < kernBase, u'.machine.mem a = u.machine.mem a
  printed : u'.printed = u.printed

/-- Some instructions of the process, with interrupts at any point. -/
inductive UserRuns (p : Caller) (pad : Word → Selector) (table : Nat → Word)
    (behind : Nat → UInt32) (u : UserRun) : Nat → UserRun → Prop
  | refl : UserRuns p pad table behind u 0 u
  | own {n : Nat} {v w : UserRun} (hruns : UserRuns p pad table behind u n v)
      (hstep : OwnStep p pad table behind v w) :
      UserRuns p pad table behind u (n + 1) w
  | interrupt {n : Nat} {v w : UserRun}
      (hruns : UserRuns p pad table behind u n v) (hw : Interrupted v w) :
      UserRuns p pad table behind u n w

/-- The program is loaded, and the process enters user mode. -/
structure StartsAt (program : List UInt8) (u : UserRun) : Prop where
  cpu : u.machine.cpu = initialCpu
  code : CodeAt u.machine.mem 0 program
  printed : u.printed = []

/-- In every run the text has been printed `calls n` times once the process
has executed `n` instructions, and the next one can be executed. -/
def PrintsText (p : Caller) (pad : Word → Selector) (table : Nat → Word)
    (behind : Nat → UInt32) (program text : List UInt8) (calls : Nat → Nat) :
    Prop :=
  ∀ u n v, StartsAt program u → UserRuns p pad table behind u n v →
    v.printed = List.replicate (calls n) text ∧
      ∃ w, OwnStep p pad table behind v w

/-- What the directory of a process makes of the memory. -/
def userMemory (m : Memory) (pgdir : Nat) : Memory := fun va =>
  match pageWalk m (v2p pgdir) va with
  | some t => m (kernBase + t.frame + va % pgSize)
  | none => 0

/-- A text that `print` copies. -/
structure Printable (text : List UInt8) : Prop where
  ne : text ≠ []
  noNul : 0 ∉ text
  plain : NoConversion text
  fits : text.length ≤ 1023

/-- What the program has on its stack in front of the `k`-th instruction. -/
def stackTop : Nat → Word
  | 1 => 4092
  | 2 => 4088
  | 3 => 4088
  | 4 => 4088
  | _ => 4096

/-- The process is in front of the `k`-th instruction. -/
structure Going (ending : Ending) (msg : List UInt8) (k : Nat) (s : State) :
    Prop where
  eip : s.cpu.eip = BitVec.ofNat 32 (codeOffset (testCode ending) k)
  esp : s.cpu.esp = stackTop k
  code : CodeAt s.mem 0 (testProgram ending msg)
  arg : 1 ≤ k → k ≤ 4 → wordAt s.mem 4092 = 19
  eax : k = 3 → s.cpu.eax = 22
  user : 0 < s.cpu.cpl

section Invariant

variable {p : Caller} {pad : Word → Selector} {table : Nat → Word}
  {behind : Nat → UInt32} {va : VaList} {ending : Ending} {k n : Nat}
  {msg text : List UInt8} {instr : Coded} {m : Memory} {s s' : State}
  {u v w : UserRun}

theorem Printable.length_le (h : Printable text) :
    (text ++ [0]).length ≤ 4068 := by
  have hfits := h.fits
  rw [List.length_append, List.length_singleton]
  omega

/-- The code has 19 bytes. -/
theorem testProgram_length (ending : Ending) (msg : List UInt8) :
    (testProgram ending msg).length = 19 + (msg.length + 1) := by
  rw [testProgram, List.length_append, List.length_append]
  cases ending <;> rfl

/-- The next instruction is the one of the program. -/
theorem Going.decode (h : Going ending msg k s)
    (hk : (testCode ending)[k]? = some instr) :
    Coded.decode s.mem s.cpu.eip = some instr := by
  have hcode := (codeAt_append.mp h.code).1.decode_code hk
  have hplace : (0 : Word) + BitVec.ofNat 32 (codeOffset (testCode ending) k) =
      s.cpu.eip := (BitVec.zero_add _).trans h.eip.symm
  rwa [hplace] at hcode

theorem codeAt_user (hmsg : msg.length ≤ 4068)
    (h : CodeAt s.mem 0 (testProgram ending msg))
    (hmem : ∀ a < 4088, m a = s.mem a) :
    CodeAt m 0 (testProgram ending msg) := by
  have hlength := testProgram_length ending msg
  have hzero : (0 : Word).toNat = 0 := rfl
  refine h.congr (SameFrom.of_bytes (by omega) fun x _ hx => hmem x ?_)
  omega

/-- A push on the stack of the process, above its program. -/
theorem codeAt_push {a w : Word} (hmsg : msg.length ≤ 4068)
    (h : CodeAt s.mem 0 (testProgram ending msg)) (hlo : 4088 ≤ a.toNat)
    (hhi : a.toNat + 4 ≤ 4096) :
    CodeAt (putWord s.mem a w) 0 (testProgram ending msg) :=
  codeAt_user hmsg h fun _ hx =>
    putWord_of_beside (by omega) (.inl (by omega))

theorem Going.of_user {e : Word} (h : Going ending msg k s)
    (hmsg : msg.length ≤ 4068) (hcpu : s'.cpu = { s.cpu with eax := e })
    (heax : k = 3 → e = 22) (hmem : ∀ a < kernBase, s'.mem a = s.mem a) :
    Going ending msg k s' := by
  have hlow : ∀ a < 4096, s'.mem a = s.mem a := fun a ha =>
    hmem a (ha.trans (by decide))
  constructor
  · rw [hcpu]
    exact h.eip
  · rw [hcpu]
    exact h.esp
  · exact codeAt_user hmsg h.code fun a ha => hlow a (by omega)
  · intro hlo hhi
    rw [← h.arg hlo hhi]
    refine SameFrom.wordAt (SameFrom.of_bytes (n := 4) (by decide) ?_) le_rfl
    exact fun x _ hx => hlow x hx
  · rw [hcpu]
    exact heax
  · rw [hcpu]
    exact h.user

theorem Going.eip_next (h : Going ending msg k s)
    (hk : (testCode ending)[k]? = some instr) (hjmp : ∀ d, instr ≠ .jmp d) :
    (instr.exec s).cpu.eip =
      BitVec.ofNat 32 (codeOffset (testCode ending) (k + 1)) := by
  rw [Coded.exec_eip s hjmp, h.eip, codeOffset_succ hk, BitVec.ofNat_add]

theorem Going.pushl (h : Going ending msg 0 s) (hmsg : msg.length ≤ 4068) :
    Going ending msg 1 ((Coded.pushl 19).exec s) := by
  have hesp : s.cpu.esp - 4 = 4092 := by
    rw [h.esp]
    rfl
  have hmem : ((Coded.pushl 19).exec s).mem = putWord s.mem 4092 19 := by
    rw [← hesp]
    rfl
  constructor
  · exact h.eip_next rfl fun _ => Coded.noConfusion
  · exact hesp
  · rw [hmem]
    exact codeAt_push hmsg h.code (by decide) (by decide)
  · intro _ _
    rw [hmem, wordAt_putWord_same]
  · intro hk
    cases hk
  · exact h.user

theorem Going.pushb (h : Going ending msg 1 s) (hmsg : msg.length ≤ 4068) :
    Going ending msg 2 ((Coded.pushb 0).exec s) := by
  have hesp : s.cpu.esp - 4 = 4088 := by
    rw [h.esp]
    rfl
  have hmem : ((Coded.pushb 0).exec s).mem = putWord s.mem 4088 0 := by
    rw [← hesp]
    rfl
  constructor
  · exact h.eip_next rfl fun _ => Coded.noConfusion
  · exact hesp
  · rw [hmem]
    exact codeAt_push hmsg h.code (by decide) (by decide)
  · intro _ _
    rw [hmem, ← h.arg le_rfl (by decide)]
    have habove := SameFrom.putWord_below (n := 4) s.mem 4092 0 (by decide)
    exact habove.wordAt le_rfl
  · intro hk
    cases hk
  · exact h.user

theorem Going.movl (h : Going ending msg 2 s) :
    Going ending msg 3 ((Coded.movlEax 22).exec s) where
  eip := h.eip_next rfl fun _ => Coded.noConfusion
  esp := h.esp
  code := h.code
  arg := fun _ _ => h.arg (by decide) (by decide)
  eax := fun _ => rfl
  user := h.user

theorem Going.addl (h : Going ending msg 4 s) :
    Going ending msg 5 ((Coded.addlEsp 8).exec s) where
  eip := h.eip_next rfl fun _ => Coded.noConfusion
  esp := by
    change s.cpu.esp + BitVec.signExtend 32 (8 : BitVec 8) = 4096
    rw [h.esp]
    rfl
  code := h.code
  arg := fun _ hk => absurd hk (by decide)
  eax := fun hk => absurd hk (by decide)
  user := h.user

/-- The jump goes back to an instruction of the program. -/
theorem Going.jmp (h : Going ending msg 5 s) :
    Going ending msg ending.target ((Coded.jmp ending.jump).exec s) where
  eip := by
    change s.cpu.eip + 2 + ending.jump.signExtend 32 = _
    rw [h.eip]
    cases ending <;> rfl
  esp := h.esp.trans (by cases ending <;> rfl)
  code := h.code
  arg := by
    intro hlo hhi
    cases ending with
    | spin => exact absurd hhi (by decide)
    | start => exact absurd hlo (by decide)
  eax := by
    intro hk
    cases ending <;> cases hk
  user := h.user

/-- A system call comes back behind its `int`. -/
theorem Going.int (h : Going ending msg 3 s) :
    Going ending msg 4 ((Coded.int 64).exec s) where
  eip := h.eip_next rfl fun _ => Coded.noConfusion
  esp := h.esp
  code := h.code
  arg := fun _ _ => h.arg (by decide) (by decide)
  eax := fun hk => absurd hk (by decide)
  user := h.user

/-- Every instruction but the `int`. -/
theorem Going.exec (h : Going ending msg k s) (hmsg : msg.length ≤ 4068)
    (hk : (testCode ending)[k]? = some instr)
    (hint : ∀ vector, instr ≠ .int vector) :
    Going ending msg (ending.next k) (instr.exec s) := by
  have hlt : k < 6 := (List.getElem?_eq_some_iff.mp hk).1
  obtain rfl | rfl | rfl | rfl | rfl | rfl :
      k = 0 ∨ k = 1 ∨ k = 2 ∨ k = 3 ∨ k = 4 ∨ k = 5 := by
    omega
  all_goals cases hk
  · exact h.pushl hmsg
  · exact h.pushb hmsg
  · exact h.movl
  · exact absurd rfl (hint 64)
  · exact h.addl
  · exact h.jmp

/-- The words of the stack as `fetch_int` reads them. -/
theorem load32_wordAt {a : Word} (hfit : a.toNat + 4 ≤ 4294967296) :
    load32 m a.toNat = (wordAt m a).toNat := by
  have h1 : (a + 1).toNat = a.toNat + 1 := by bv_omega
  have h2 : (a + 2).toNat = a.toNat + 2 := by bv_omega
  have h3 : (a + 3).toNat = a.toNat + 3 := by bv_omega
  rw [wordAt, h1, h2, h3, load32]
  simp only [BitVec.toNat_append, UInt8.toNat_toBitVec]
  have hb0 := (m a.toNat).toNat_lt
  have hb1 := (m (a.toNat + 1)).toNat_lt
  have hb2 := (m (a.toNat + 2)).toNat_lt
  rw [← Nat.shiftLeft_add_eq_or_of_lt hb0, ← Nat.shiftLeft_add_eq_or_of_lt hb1,
    ← Nat.shiftLeft_add_eq_or_of_lt hb2]
  simp only [Nat.shiftLeft_eq]
  omega

/-- The text behind the code. -/
theorem testProgram_text {i : Nat} (htext : Printable text)
    (h : CodeAt m 0 (testProgram ending (text ++ [0])))
    (hi : i < (text ++ [0]).length) : m (19 + i) = (text ++ [0])[i] := by
  have hlength : ((testCode ending).flatMap Coded.encode).length = 19 := by
    cases ending <;> rfl
  have hplace : ((0 : Word) + BitVec.ofNat 32 19).toNat = 19 := rfl
  have hfits := htext.fits
  have hend : (text ++ [0]).length = text.length + 1 := by
    rw [List.length_append, List.length_singleton]
  have hcode := (codeAt_append.mp h).2
  rw [hlength] at hcode
  have hbyte := (codeAt_append.mp hcode).1.get hi (by omega)
  rwa [hplace] at hbyte

theorem Going.passes (h : Going ending (text ++ [0]) 4 s)
    (htext : Printable text) (hsize : p.size = 4096) :
    PassesString (p.calling s.cpu) s.mem text := by
  have hfits := htext.fits
  have hlength : (text ++ [0]).length = text.length + 1 := by
    rw [List.length_append, List.length_singleton]
  have hbyte (i : Nat) (hi : i < text.length) : s.mem (19 + i) = text[i] := by
    rw [testProgram_text htext h.code (by omega), List.getElem_append_left hi]
  have hend : s.mem (19 + text.length) = 0 := by
    rw [testProgram_text htext h.code (by omega), List.getElem_concat_length rfl]
  have hword : argWord (p.calling s.cpu) s.mem 0 = some 19 := by
    have hesp : (p.calling s.cpu).tf.esp = 4088 :=
      congrArg UInt32.ofBitVec h.esp
    have hsize' : (p.calling s.cpu).size = 4096 := hsize
    have hload : load32 s.mem 4092 = 19 :=
      (load32_wordAt (a := 4092) (by decide)).trans
        (congrArg BitVec.toNat (h.arg (by decide) le_rfl))
    have haddr : (4088 + 0 * 4 + 4 : UInt32).toNat = 4092 := rfl
    rw [argWord, hesp, hsize']
    simp only [haddr, hload]
    rfl
  have hnul : FirstNul (p.calling s.cpu) s.mem (19 : UInt32).toNat
      ((19 : UInt32).toNat + text.length) := by
    have hsize' : (p.calling s.cpu).size.toNat = 4096 :=
      congrArg UInt32.toNat hsize
    have hplace : (19 : UInt32).toNat = 19 := rfl
    rw [hplace]
    refine ⟨Nat.le_add_right _ _, by omega, hend, ?_⟩
    intro a hlo hhi hzero
    obtain ⟨i, rfl⟩ := Nat.exists_eq_add_of_le hlo
    rw [hbyte i (by omega)] at hzero
    exact htext.noNul (hzero ▸ List.getElem_mem _)
  constructor
  · rw [argstr_some hword, fetchStr_found hnul, Nat.add_sub_cancel_left,
      asInt_ofNat (by omega)]
    exact Int.natCast_nonneg _
  · refine ⟨19, hword, hnul, List.ext_getElem ?_ ?_⟩
    · rw [bytesAt, List.length_map, List.length_range]
    · intro i hi _
      simp only [bytesAt, List.getElem_map, List.getElem_range]
      exact (hbyte i hi).symm

/-- The way out of a trap reads the stack only. -/
theorem leaveTrap_mem (pad : Word → Selector) (s : State) :
    (run pad leaveTrap s).mem = s.mem := by
  have hiret (t : State) : (X86.exec pad t .iret).mem = t.mem := by
    simp only [X86.exec]
    split_ifs <;> rfl
  exact hiret _

/-- In front of its `int` the process calls `print` with its text. -/
theorem Going.printed (h : Going ending (text ++ [0]) 3 s)
    (htext : Printable text) (hsize : p.size = 4096) (va : VaList) :
    PrintCall p pad table behind va ((Coded.int 64).exec s) text
      (BitVec.ofInt 32 text.length) := by
  have hint := h.int
  have hprint := (hint.passes htext hsize).print_eq va
  rw [kprintf_copies va htext.ne htext.noNul htext.plain] at hprint
  exact printCall_of_printed hint.user (h.eax rfl) hprint

/-- The call shows the text. -/
theorem Going.prints {shown : Printed × Int}
    (h : Going ending (text ++ [0]) 3 s) (htext : Printable text)
    (hsize : p.size = 4096)
    (hreturns : PrintReturns p pad table behind va ((Coded.int 64).exec s)
      shown s') :
    Going ending (text ++ [0]) 4 (run pad leaveTrap s') ∧
      shown.1.console = text := by
  have hint := h.int
  obtain ⟨printed, ret, hprinted, hconsole, -⟩ :
      PrintCall p pad table behind va ((Coded.int 64).exec s) text
        (BitVec.ofInt 32 text.length) := h.printed htext hsize va
  obtain rfl := Except.ok.inj (hreturns.printed.symm.trans hprinted)
  refine ⟨?_, hconsole⟩
  have hreturned := hreturns.eax
  rw [syscall_tf, p.process_enterSyscall hint.user] at hreturned
  have hmem : ∀ a < kernBase,
      (run pad leaveTrap s').mem a = ((Coded.int 64).exec s).mem a := by
    rw [leaveTrap_mem]
    exact hreturns.user
  exact hint.of_user htext.length_le (leaveTrap_eax hreturned)
    (fun hk => absurd hk (by decide)) hmem

/-- The one `int` of the program. -/
theorem testCode_int {vector : UInt8} :
    (testCode ending)[k]? = some (.int vector) ↔ k = 3 ∧ vector = 64 := by
  constructor
  · intro hk
    have hlt : k < 6 := (List.getElem?_eq_some_iff.mp hk).1
    obtain rfl | rfl | rfl | rfl | rfl | rfl :
        k = 0 ∨ k = 1 ∨ k = 2 ∨ k = 3 ∨ k = 4 ∨ k = 5 := by
      omega
    all_goals cases hk
    exact ⟨rfl, rfl⟩
  · rintro ⟨rfl, rfl⟩
    rfl

theorem Going.instruction (h : Going ending msg k s) (hlt : k < 6) :
    ∃ instr, (testCode ending)[k]? = some instr ∧
      Coded.decode s.mem s.cpu.eip = some instr :=
  have hk : k < (testCode ending).length := hlt
  ⟨(testCode ending)[k], List.getElem?_eq_getElem hk,
    h.decode (List.getElem?_eq_getElem hk)⟩

theorem Going.ownStep (h : Going ending (text ++ [0]) k u.machine)
    (hlt : k < 6) (htext : Printable text) (hsize : p.size = 4096)
    (hstep : OwnStep p pad table behind u v) :
    Going ending (text ++ [0]) (ending.next k) v.machine ∧
      v.printed = u.printed ++
        List.replicate (if k = 3 then 1 else 0) text := by
  have hlength := htext.length_le
  obtain ⟨found, hk, hfound⟩ := h.instruction hlt
  cases hstep with
  | instr hinstr hint =>
      cases hinstr.symm.trans hfound
      have hother : k ≠ 3 := by
        rintro rfl
        exact hint 64 (Option.some.inj hk).symm
      rw [if_neg hother, List.replicate_zero, List.append_nil]
      exact ⟨h.exec hlength hk hint, rfl⟩
  | print va hinstr hreturns =>
      cases hinstr.symm.trans hfound
      obtain ⟨rfl, -⟩ := testCode_int.mp hk
      obtain ⟨hgoing, hconsole⟩ := h.prints htext hsize hreturns
      exact ⟨hgoing, congrArg (u.printed ++ [·]) hconsole⟩

/-- What a run keeps, with interrupts at any point of it. -/
theorem going_of_runs (htext : Printable text) (hsize : p.size = 4096)
    (hstart : Going ending (text ++ [0]) 0 u.machine)
    (hruns : UserRuns p pad table behind u n v) :
    Going ending (text ++ [0]) (ending.position n) v.machine ∧
      v.printed = u.printed ++ List.replicate (ending.calls n) text := by
  induction hruns with
  | refl =>
      cases ending with
      | spin => exact ⟨hstart, (List.append_nil _).symm⟩
      | start => exact ⟨hstart, (List.append_nil _).symm⟩
  | own hruns hstep ih =>
      obtain ⟨hgoing, hprinted⟩ := ih
      obtain ⟨hnext, hmore⟩ := hgoing.ownStep (ending.position_lt _) htext
        hsize hstep
      rw [ending.position_succ, ending.calls_succ, List.replicate_add,
        ← List.append_assoc, ← hprinted]
      exact ⟨hnext, hmore⟩
  | interrupt hruns hw ih =>
      obtain ⟨hgoing, hprinted⟩ := ih
      rw [hw.printed]
      exact ⟨hgoing.of_user htext.length_le hw.cpu hgoing.eax hw.user, hprinted⟩

/-- The call of `print` that a process makes can come back: the value is
stored into the frame, on the kernel stack. -/
theorem exists_printReturns (p : Caller) (pad : Word → Selector)
    (table : Nat → Word) (behind : Nat → UInt32) (va : VaList)
    {shown : Printed × Int} (houter : 0 < s.cpu.cpl) (heax : s.cpu.eax = 22)
    (hprinted : p.printed pad table va s = .ok shown) :
    ∃ s', PrintReturns p pad table behind va s shown s' := by
  let entered := enterSyscall pad p.slot.tss table s
  let result : Callee → UInt32 := fun _ =>
    UInt32.ofBitVec (BitVec.ofInt 32 shown.2)
  let eax := (syscall behind result (p.process entered.mem)).tf.eax.toBitVec
  have hframe : entered.cpu.esp + 4 = p.slot.tf := by
    change (enterTrap pad p.slot.tss table irqSyscall 0 s).cpu.esp + 4 = _
    rw [enterTrap_esp, BitVec.sub_add_cancel, p.frameAddress_eq houter]
  refine ⟨⟨entered.cpu, putWord entered.mem (entered.cpu.esp + 4 +
    BitVec.ofNat 32 (TrapField.offset .eax)) eax⟩, hprinted, ?_, ?_, ?_⟩
  · rw [p.process_enterSyscall houter]
    simp only [syscall, Caller.calling, callFrame, heax]
    rfl
  · exact ⟨rfl, rfl, rfl, fun _ _ => rfl⟩
  · intro a ha
    have hkernel := p.kernel
    have hfits := p.fits
    have hplace : (entered.cpu.esp + 4 +
        BitVec.ofNat 32 (TrapField.offset .eax)).toNat =
          p.slot.kstack.toNat + 4048 := by
      rw [hframe, p.tf_eq, tfOf, trapframeSize_eq, kstackSize]
      change (p.slot.kstack + 4096 - 76 + 28).toNat = _
      bv_omega
    rw [← p.enterSyscall_user houter ha]
    exact putWord_of_beside (by omega) (.inl (by omega))

/-- The process can always go on. -/
theorem Going.exists_ownStep (h : Going ending (text ++ [0]) k u.machine)
    (hlt : k < 6) (htext : Printable text) (hsize : p.size = 4096)
    (pad : Word → Selector) (table : Nat → Word) (behind : Nat → UInt32) :
    ∃ v, OwnStep p pad table behind u v := by
  obtain ⟨instr, hk, hdecode⟩ := h.instruction hlt
  by_cases hthree : k = 3
  · subst hthree
    cases hk
    obtain ⟨printed, ret, hprinted, -⟩ :
        PrintCall p pad table behind ⟨fun _ => 0, fun _ => []⟩
          ((Coded.int 64).exec u.machine) text (BitVec.ofInt 32 text.length) :=
      h.printed htext hsize _
    obtain ⟨s', hreturns⟩ := exists_printReturns p pad table behind
      ⟨fun _ => 0, fun _ => []⟩ h.int.user (h.eax rfl) hprinted
    exact ⟨_, .print _ hdecode hreturns⟩
  · refine ⟨_, .instr hdecode fun vector hint => hthree ?_⟩
    rw [hint] at hk
    exact (testCode_int.mp hk).1

theorem StartsAt.going
    (h : StartsAt (testProgram ending msg) u) : Going ending msg 0 u.machine := by
  constructor
  · rw [h.cpu]
    rfl
  · rw [h.cpu]
    rfl
  · exact h.code
  · intro hlo
    exact absurd hlo (by decide)
  · intro hk
    cases hk
  · rw [h.cpu]
    decide

theorem printsText_testProgram (ending : Ending) (htext : Printable text)
    (hsize : p.size = 4096) :
    PrintsText p pad table behind (testProgram ending (text ++ [0])) text
      ending.calls := by
  intro u n v hstart hruns
  obtain ⟨hgoing, hprinted⟩ := going_of_runs htext hsize hstart.going hruns
  rw [hstart.printed, List.nil_append] at hprinted
  exact ⟨hprinted,
    hgoing.exists_ownStep (ending.position_lt n) htext hsize pad table behind⟩

/-- A process that `uvm_init` gave its program, with the registers of
`uinitproc_setup`. -/
theorem ProgramLoaded.startsAt {kpgdir pgdir init : Nat} {k₀ k₁ : Kernel}
    {program : List UInt8} (hload : ProgramLoaded kpgdir k₀ pgdir init
      program.length k₁) (hfits : program.length ≤ pgSize)
    (hinit : ∀ i (hi : i < program.length), k₀.mem (init + i) = program[i])
    (hcpu : s.cpu = initialCpu)
    (hmem : ∀ a < pgSize, s.mem a = userMemory k₁.mem pgdir a) :
    StartsAt program ⟨s, []⟩ := by
  refine ⟨hcpu, ?_, rfl⟩
  have hzero : (0 : Word).toNat = 0 := rfl
  simp only [pgSize] at hfits
  refine codeAt_of_bytes (by omega) fun i hi => ?_
  have hsmall : i < pgSize := by
    simp only [pgSize]
    omega
  have hoffset : i % pgSize = i := Nat.mod_eq_of_lt hsmall
  rw [hzero, Nat.zero_add, hmem i hsmall, userMemory, hload.page i hsmall,
    ← hinit i hi, ← hload.program i hi]
  simp only [hoffset]

end Invariant

/-- processA prints its text once and processB again and again: once after 4
instructions, then after every 6 of them. -/
theorem testPrograms_print (p : Caller) (pad : Word → Selector)
    (table : Nat → Word) (behind : Nat → UInt32) (hsize : p.size = 4096) :
    PrintsText p pad table behind processA [0x41, 0x0A]
        (fun n => if 4 ≤ n then 1 else 0) ∧
      PrintsText p pad table behind processB [0x42] (fun n => (n + 2) / 6) := by
  have hA : Printable [0x41, 0x0A] := by
    refine ⟨by decide, by decide, ?_, by decide⟩
    unfold NoConversion
    decide
  have hB : Printable [0x42] := by
    refine ⟨by decide, by decide, ?_, by decide⟩
    unfold NoConversion
    decide
  exact ⟨printsText_testProgram .spin hA hsize,
    printsText_testProgram .start hB hsize⟩

/-- In front of its first instruction, with nothing else in its page. -/
def freshRun (program : List UInt8) : UserRun :=
  ⟨⟨initialCpu, fun a => program.getD a 0⟩, []⟩

theorem freshRun_startsAt {program : List UInt8}
    (hfits : program.length ≤ pgSize) :
    StartsAt program (freshRun program) := by
  refine ⟨rfl, codeAt_of_bytes ?_ fun i hi => ?_, rfl⟩
  · have hzero : (0 : Word).toNat = 0 := rfl
    simp only [pgSize] at hfits
    omega
  · have hplace : (0 : Word).toNat + i = i := Nat.zero_add i
    rw [hplace]
    exact (List.getElem_eq_getD 0).symm

theorem testPrograms_print_onePage : ∃ v : UserRun,
    UserRuns onePageCaller (fun _ => 0) (fun _ => 0) (fun _ => 0)
      (freshRun processA) 4 v ∧ v.printed = [[0x41, 0x0A]] := by
  have hprints := (testPrograms_print onePageCaller (fun _ => 0) (fun _ => 0)
    (fun _ => 0) rfl).1
  have hstart : StartsAt processA (freshRun processA) :=
    freshRun_startsAt (by decide)
  have hruns : ∀ n, ∃ v, UserRuns onePageCaller (fun _ => 0) (fun _ => 0)
      (fun _ => 0) (freshRun processA) n v := by
    intro n
    induction n with
    | zero => exact ⟨_, .refl⟩
    | succ n ih =>
        obtain ⟨v, hv⟩ := ih
        obtain ⟨w, hw⟩ := (hprints _ n v hstart hv).2
        exact ⟨w, hv.own hw⟩
  obtain ⟨v, hv⟩ := hruns 4
  exact ⟨v, hv, (hprints _ 4 v hstart hv).1⟩

end Linda
