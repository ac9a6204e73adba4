/-
The way into a trap handler and back: the stubs of vectors.py, the common part
in trapasm.S, and `struct trapframe` as the handlers read it.
-/
import Linda.ProcessTable

namespace Linda

open ByteMemory WordStack X86

/-- `trap_with_errno` -/
def trapWithErrno : List Nat := [8, 10, 11, 12, 13, 14, 17]

/-- The vectors for which the processor pushes an error code. -/
def PushesErrorCode (vector : Nat) : Prop :=
  vector = 8 ∨ 10 ≤ vector ∧ vector ≤ 14 ∨ vector = 17

instance (vector : Nat) : Decidable (PushesErrorCode vector) :=
  inferInstanceAs (Decidable (vector = 8 ∨ 10 ≤ vector ∧ vector ≤ 14 ∨
    vector = 17))

/-- `trap_handler<i>` as vectors.py prints it, up to its jump. -/
def trapHandler (i : Nat) : List Instr :=
  (if i ∉ trapWithErrno then [.pushImm 0] else []) ++
    [.pushImm (BitVec.ofNat 32 i)]

/-- `trap_handlers` up to its call of `interrupt_handler_dispatcher`. -/
def trapHandlers : List Instr :=
  [.pushSeg .ds, .pushSeg .es, .pushSeg .fs, .pushSeg .gs, .pushal,
    .movAx 0x10, .movSeg .ds, .movSeg .es, .movSeg .fs, .movSeg .gs,
    .pushl .esp]

def trapret : List Instr :=
  [.popal, .popSeg .gs, .popSeg .fs, .popSeg .es, .popSeg .ds, .addl 8 .esp,
    .iret]

def irqSyscall : Nat := 64

/-- What `trap_init` puts into the interrupt table. -/
def idt (trapHandlersTable : Nat → Word) (vector : Nat) : Gate where
  offset := trapHandlersTable vector
  cs := 0x08
  trap := vector = irqSyscall

/-- From the interrupt to `trap_handlers`; `err` is the error code if there is
one. -/
def reachHandlers (pad : Word → Selector) (tss : Tss) (table : Nat → Word)
    (vector : Nat) (err : Word) (s : State) : State :=
  run pad (trapHandler vector) (interrupt pad tss (idt table vector)
    (if PushesErrorCode vector then some err else none) s)

/-- From the interrupt to the call of the dispatcher. -/
def enterTrap (pad : Word → Selector) (tss : Tss) (table : Nat → Word)
    (vector : Nat) (err : Word) (s : State) : State :=
  run pad trapHandlers (reachHandlers pad tss table vector err s)

/-- From the return of the dispatcher on. -/
def leaveTrap : List Instr := .addl 4 .esp :: trapret

/-- A field of a trap frame, of 32 or of 16 bits. -/
def trapWord (m : Memory) (frame : Word) (f : TrapField) : Word :=
  wordAt m (frame + BitVec.ofNat 32 f.offset)

def trapHalf (m : Memory) (frame : Word) (f : TrapField) : Selector :=
  halfAt m (frame + BitVec.ofNat 32 f.offset)

/-- The frame at `frame` is that of `c` stopped by the vector `trapno`. -/
structure FrameShows (m : Memory) (frame : Word) (c : Cpu) (trapno err : Word) :
    Prop where
  edi : trapWord m frame .edi = c.edi
  esi : trapWord m frame .esi = c.esi
  ebp : trapWord m frame .ebp = c.ebp
  ebx : trapWord m frame .ebx = c.ebx
  edx : trapWord m frame .edx = c.edx
  ecx : trapWord m frame .ecx = c.ecx
  eax : trapWord m frame .eax = c.eax
  gs : trapHalf m frame .gs = c.gs
  fs : trapHalf m frame .fs = c.fs
  es : trapHalf m frame .es = c.es
  ds : trapHalf m frame .ds = c.ds
  trapno : trapWord m frame .trapno = trapno
  err : trapWord m frame .err = err
  eip : trapWord m frame .eip = c.eip
  cs : trapHalf m frame .cs = c.cs
  eflags : trapWord m frame .eflags = c.eflags
  esp : 0 < c.cpl → trapWord m frame .esp = c.esp
  ss : 0 < c.cpl → trapHalf m frame .ss = c.ss

/-- The registers a frame stores. -/
def frameCpu (m : Memory) (frame : Word) : Cpu where
  eax := trapWord m frame .eax
  ecx := trapWord m frame .ecx
  edx := trapWord m frame .edx
  ebx := trapWord m frame .ebx
  esp := trapWord m frame .esp
  ebp := trapWord m frame .ebp
  esi := trapWord m frame .esi
  edi := trapWord m frame .edi
  eip := trapWord m frame .eip
  eflags := trapWord m frame .eflags
  cs := trapHalf m frame .cs
  ds := trapHalf m frame .ds
  es := trapHalf m frame .es
  fs := trapHalf m frame .fs
  gs := trapHalf m frame .gs
  ss := trapHalf m frame .ss

/-- The frame of an interrupted `c`, slot by slot. -/
def frameSlots (level : Nat) (c : Cpu) (oesp trapno err : Word) : List Slot :=
  [.word c.edi, .word c.esi, .word c.ebp, .word oesp, .word c.ebx, .word c.edx,
    .word c.ecx, .word c.eax, .half c.gs, .half c.fs, .half c.es, .half c.ds,
    .word trapno, .word err] ++ returnSlots level c

variable {pad : Word → Selector} {tss : Tss} {table : Nat → Word} {s : State}
  {c : Cpu} {m : Memory} {frame oesp trapno err : Word} {slots : List Slot}

theorem frameShows_of_slots
    (h : StackAt m frame (frameSlots 0 c oesp trapno err)) :
    FrameShows m frame c trapno err where
  edi := h.get (i := 0) rfl
  esi := h.get (i := 1) rfl
  ebp := h.get (i := 2) rfl
  ebx := h.get (i := 4) rfl
  edx := h.get (i := 5) rfl
  ecx := h.get (i := 6) rfl
  eax := h.get (i := 7) rfl
  gs := h.get (i := 8) rfl
  fs := h.get (i := 9) rfl
  es := h.get (i := 10) rfl
  ds := h.get (i := 11) rfl
  trapno := h.get (i := 12) rfl
  err := h.get (i := 13) rfl
  eip := h.get (i := 14) rfl
  cs := h.get (i := 15) rfl
  eflags := h.get (i := 16) rfl
  esp := fun houter => @StackAt.get _ _ (.word c.esp) _ 17 h (by
    rw [frameSlots, returnSlots, outerSlots, if_pos houter]
    rfl)
  ss := fun houter => @StackAt.get _ _ (.half c.ss) _ 18 h (by
    rw [frameSlots, returnSlots, outerSlots, if_pos houter]
    rfl)

theorem frameCpu_of_shows (h : FrameShows m frame c trapno err)
    (houter : 0 < c.cpl) : frameCpu m frame = c := by
  rw [frameCpu, h.eax, h.ecx, h.edx, h.ebx, h.esp houter, h.ebp, h.esi, h.edi,
    h.eip, h.eflags, h.cs, h.ds, h.es, h.fs, h.gs, h.ss houter]

/-- The stubs push a dummy where the processor pushes no code. -/
theorem pushesErrorCode_iff (vector : Nat) :
    PushesErrorCode vector ↔ vector ∈ trapWithErrno := by
  simp only [PushesErrorCode, trapWithErrno, List.mem_cons, List.not_mem_nil,
    or_false]
  omega

/-- The error code that a handler sees. -/
def shownCode (vector : Nat) (err : Word) : Word :=
  if PushesErrorCode vector then err else 0

theorem trapHandler_holds (pad : Word → Selector) (vector : Nat)
    (h : s.Holds ((if PushesErrorCode vector then some err
      else none).toList.map .word ++ slots))
    (hroom : 4 * slots.length + 8 ≤ 4294967296) :
    (run pad (trapHandler vector) s).Holds
      (.word (BitVec.ofNat 32 vector) :: .word (shownCode vector err) ::
        slots) := by
  by_cases hcode : PushesErrorCode vector
  · have hmem : ¬ vector ∉ trapWithErrno :=
      not_not.mpr ((pushesErrorCode_iff vector).mp hcode)
    rw [if_pos hcode] at h
    rw [trapHandler, if_neg hmem, shownCode, if_pos hcode]
    exact h.push _ (by
      simp only [Option.toList, List.map_cons, List.map_nil, List.cons_append,
        List.nil_append, List.length_cons]
      omega)
  · have hmem : vector ∉ trapWithErrno :=
      fun hmem => hcode ((pushesErrorCode_iff vector).mpr hmem)
    rw [if_neg hcode] at h
    rw [trapHandler, if_pos hmem, shownCode, if_neg hcode]
    have hdummy : (s.push 0).Holds (.word 0 :: slots) :=
      State.Holds.push h 0 (by
        simp only [Option.toList, List.map_nil, List.nil_append]
        omega)
    exact hdummy.push _ (by
      rw [List.length_cons]
      omega)

theorem trapHandler_cpu (pad : Word → Selector) (vector : Nat) (s : State) :
    (run pad (trapHandler vector) s).cpu = { s.cpu with
      esp := s.cpu.esp -
        BitVec.ofNat 32 (if PushesErrorCode vector then 4 else 8) } := by
  by_cases hcode : PushesErrorCode vector
  · have hmem : ¬ vector ∉ trapWithErrno :=
      not_not.mpr ((pushesErrorCode_iff vector).mp hcode)
    rw [trapHandler, if_neg hmem, if_pos hcode]
    rfl
  · have hmem : vector ∉ trapWithErrno :=
      fun hmem => hcode ((pushesErrorCode_iff vector).mpr hmem)
    rw [trapHandler, if_pos hmem, if_neg hcode, List.cons_append,
      List.nil_append, run_cons, run_cons, run_nil]
    simp only [X86.exec, push_cpu, BitVec.sub_sub]
    rfl

theorem savedRegisters_esp (pad : Word → Selector) (s : State) :
    (run pad (trapHandlers.take 5) s).cpu.esp = s.cpu.esp - 48 := by
  simp only [trapHandlers, List.take, run_cons, run_nil, X86.exec, pushes_cpu,
    pushSelector_cpu, BitVec.sub_sub]
  rfl

theorem trapHandlers_esp (pad : Word → Selector) (s : State) :
    (run pad trapHandlers s).cpu.esp = s.cpu.esp - 52 := by
  have hpush : (run pad trapHandlers s).cpu.esp =
      (run pad (trapHandlers.take 5) s).cpu.esp - 4 := rfl
  rw [hpush, savedRegisters_esp, BitVec.sub_sub]
  rfl

/-- The common part saves the other registers. -/
theorem trapHandlers_holds (pad : Word → Selector) (h : s.Holds slots)
    (hroom : 4 * slots.length + 52 ≤ 4294967296) :
    (run pad trapHandlers s).Holds (.word (s.cpu.esp - 48) ::
      [.word s.cpu.edi, .word s.cpu.esi, .word s.cpu.ebp,
        .word (s.cpu.esp - 16), .word s.cpu.ebx, .word s.cpu.edx,
        .word s.cpu.ecx, .word s.cpu.eax, .half s.cpu.gs, .half s.cpu.fs,
        .half s.cpu.es, .half s.cpu.ds] ++ slots) := by
  have hds := h.pushSelector pad s.cpu.ds (by omega)
  have hes := hds.pushSelector pad s.cpu.es (by
    simp only [List.length_cons]
    omega)
  have hfs := hes.pushSelector pad s.cpu.fs (by
    simp only [List.length_cons]
    omega)
  have hgs := hfs.pushSelector pad s.cpu.gs (by
    simp only [List.length_cons]
    omega)
  have hall := hgs.pushes [s.cpu.eax, s.cpu.ecx, s.cpu.edx, s.cpu.ebx,
    s.cpu.esp - 4 - 4 - 4 - 4, s.cpu.ebp, s.cpu.esi, s.cpu.edi] (by
      simp only [List.length_cons, List.length_nil]
      omega)
  have hoesp : s.cpu.esp - 4 - 4 - 4 - 4 = s.cpu.esp - 16 := by bv_omega
  rw [← savedRegisters_esp pad s, ← hoesp]
  exact State.Holds.push hall _ (by
    simp only [List.length_append, List.length_map, List.length_reverse,
      List.length_cons, List.length_nil]
    omega)

/-- Handlers run in the kernel. -/
theorem idt_level (table : Nat → Word) (vector : Nat) :
    rpl (idt table vector).cs = 0 := by
  change rpl 0x08 = 0
  decide

/-- Where the frame lies: at the end of the stack of the task state, or below
what the kernel had on its stack. -/
def frameAddress (tss : Tss) (c : Cpu) : Word :=
  (if 0 < c.cpl then tss.esp0 - 8 else c.esp) - 68

/-- Every register but the stack pointer and those an interrupt loads is what
it was. -/
theorem reachHandlers_cpu (pad : Word → Selector) (tss : Tss)
    (table : Nat → Word) (vector : Nat) (err : Word) (s : State) :
    (reachHandlers pad tss table vector err s).cpu = { s.cpu with
      eip := table vector
      cs := 0x08
      eflags := (idt table vector).flags s.cpu.eflags
      esp := frameAddress tss s.cpu + 48
      ss := if 0 < s.cpu.cpl then tss.ss0 else s.cpu.ss } := by
  have hesp : ((if 0 < s.cpu.cpl then tss.esp0 - 8 else s.cpu.esp) -
      BitVec.ofNat 32 (12 + 4 * (if PushesErrorCode vector then some err
        else none).toList.length)) -
        BitVec.ofNat 32 (if PushesErrorCode vector then 4 else 8) =
      frameAddress tss s.cpu + 48 := by
    rw [frameAddress]
    by_cases hcode : PushesErrorCode vector
    · rw [if_pos hcode, if_pos hcode]
      simp only [Option.toList, List.length_cons, List.length_nil]
      bv_omega
    · rw [if_neg hcode, if_neg hcode]
      simp only [Option.toList, List.length_nil]
      bv_omega
  rw [reachHandlers, trapHandler_cpu, interrupt_cpu, idt_level, hesp]
  rfl

theorem reachHandlers_holds (pad : Word → Selector) (tss : Tss)
    (table : Nat → Word) (vector : Nat) (err : Word) (s : State) :
    (reachHandlers pad tss table vector err s).Holds
      (.word (BitVec.ofNat 32 vector) :: .word (shownCode vector err) ::
        returnSlots 0 s.cpu) := by
  have hlen := returnSlots_length_le 0 s.cpu
  have hpushed := interrupt_holds pad tss (idt table vector)
    (if PushesErrorCode vector then some err else none) s
  rw [idt_level] at hpushed
  exact trapHandler_holds pad vector hpushed (by omega)

/-- The handler's argument, and the frame it points to. -/
theorem enterTrap_holds (pad : Word → Selector) (tss : Tss)
    (table : Nat → Word) (vector : Nat) (err : Word) (s : State) :
    (enterTrap pad tss table vector err s).Holds
      (.word (frameAddress tss s.cpu) :: frameSlots 0 s.cpu
        (frameAddress tss s.cpu + 32) (BitVec.ofNat 32 vector)
        (shownCode vector err)) := by
  have hlen := returnSlots_length_le 0 s.cpu
  have hsaved := trapHandlers_holds pad
    (reachHandlers_holds pad tss table vector err s) (by
      rw [List.length_cons, List.length_cons]
      omega)
  have harg : frameAddress tss s.cpu + 48 - 48 = frameAddress tss s.cpu := by
    bv_omega
  have hoesp : frameAddress tss s.cpu + 48 - 16 =
      frameAddress tss s.cpu + 32 := by
    bv_omega
  simp only [reachHandlers_cpu, harg, hoesp] at hsaved
  exact hsaved

theorem enterTrap_esp (pad : Word → Selector) (tss : Tss)
    (table : Nat → Word) (vector : Nat) (err : Word) (s : State) :
    (enterTrap pad tss table vector err s).cpu.esp =
      frameAddress tss s.cpu - 4 := by
  rw [enterTrap, trapHandlers_esp, reachHandlers_cpu]
  change frameAddress tss s.cpu + 48 - 52 = frameAddress tss s.cpu - 4
  bv_omega

theorem enterTrap_cs (pad : Word → Selector) (tss : Tss)
    (table : Nat → Word) (vector : Nat) (err : Word) (s : State) :
    (enterTrap pad tss table vector err s).cpu.cs = 0x08 := by
  rw [enterTrap, (run_selectors pad _ (by decide)).1, reachHandlers_cpu]

theorem enterTrap_ss (pad : Word → Selector) (tss : Tss)
    (table : Nat → Word) (vector : Nat) (err : Word) (s : State) :
    (enterTrap pad tss table vector err s).cpu.ss =
      if 0 < s.cpu.cpl then tss.ss0 else s.cpu.ss := by
  rw [enterTrap, (run_selectors pad _ (by decide)).2, reachHandlers_cpu]

theorem popSegs_run {gs fs es ds : Selector} (pad : Word → Selector)
    (h : s.Holds (.half gs :: .half fs :: .half es :: .half ds :: slots)) :
    run pad [.popSeg .gs, .popSeg .fs, .popSeg .es, .popSeg .ds] s =
      ⟨{ s.cpu with
        gs := gs, fs := fs, es := es, ds := ds
        esp := s.cpu.esp + 16 }, s.mem⟩ := by
  have hgs : halfAt s.mem (s.cpu.esp + 0) = gs := h.peekHalf_at (i := 0) rfl
  have hfs : halfAt s.mem (s.cpu.esp + 4) = fs := h.peekHalf_at (i := 1) rfl
  have hes : halfAt s.mem (s.cpu.esp + 8) = es := h.peekHalf_at (i := 2) rfl
  have hds : halfAt s.mem (s.cpu.esp + 12) = ds := h.peekHalf_at (i := 3) rfl
  simp only [run_cons, run_nil, X86.exec, State.peekHalf, Cpu.setSeg,
    BitVec.add_assoc, BitVec.reduceAdd, BitVec.ofNat_eq_ofNat]
    at hgs hfs hes hds ⊢
  rw [hgs, hfs, hes, hds]

/-- `trapret` loads everything from the frame under the stack pointer. -/
theorem trapret_run (pad : Word → Selector)
    (h : s.Holds (frameSlots s.cpu.cpl c oesp trapno err)) :
    run pad trapret s = ⟨{ c with
      esp := if s.cpu.cpl < c.cpl then c.esp else s.cpu.esp + 68
      ss := if s.cpu.cpl < c.cpl then c.ss else s.cpu.ss }, s.mem⟩ := by
  let popped : State := ⟨{ s.cpu with
    edi := c.edi, esi := c.esi, ebp := c.ebp, ebx := c.ebx
    edx := c.edx, ecx := c.ecx, eax := c.eax, esp := s.cpu.esp + 32 }, s.mem⟩
  let loaded : State := ⟨{ popped.cpu with
    gs := c.gs, fs := c.fs, es := c.es, ds := c.ds
    esp := s.cpu.esp + 32 + 16 }, s.mem⟩
  have hpopal : X86.exec pad s .popal = popped := exec_popal h
  have hsegs : run pad [.popSeg .gs, .popSeg .fs, .popSeg .es, .popSeg .ds]
      popped = loaded := popSegs_run (s := popped) pad (h.drop 8)
  let skipped : State := ⟨{ loaded.cpu with
    esp := s.cpu.esp + 32 + 16 + 8 }, s.mem⟩
  have hskip : X86.exec pad loaded (.addl 8 .esp) = skipped := rfl
  have hreturn : skipped.Holds (returnSlots skipped.cpu.cpl c ++ []) := by
    have hunder := h.drop 14
    have hoffset : s.cpu.esp + BitVec.ofNat 32 (4 * 14) =
        s.cpu.esp + 32 + 16 + 8 := by
      bv_omega
    rw [hoffset] at hunder
    rw [List.append_nil]
    exact hunder
  have hesp : s.cpu.esp + 32 + 16 + 8 + 12 = s.cpu.esp + 68 := by bv_omega
  have hsplit : trapret = .popal :: ([.popSeg .gs, .popSeg .fs, .popSeg .es,
      .popSeg .ds] ++ [.addl 8 .esp, .iret]) := rfl
  rw [hsplit, run_cons, hpopal, run_append, hsegs, run_cons, hskip, run_cons,
    run_nil, exec_iret hreturn, ← hesp]
  rfl

/-- The bytes of the frame of `c`: `esp` and `ss` belong to it only when the
trap came from an outer level. -/
def frameSize (c : Cpu) : Nat :=
  if 0 < c.cpl then trapframeSize else TrapField.offset .esp

/-- The handler called at `s` comes back at `s'` with the frame of `c` as it
was; the frame starts behind the handler's argument. -/
structure HandlerReturns (c : Cpu) (s s' : State) : Prop where
  esp : s'.cpu.esp = s.cpu.esp
  cs : s'.cpu.cs = s.cpu.cs
  ss : s'.cpu.ss = s.cpu.ss
  frame : SameFrom s.mem s'.mem (s.cpu.esp + 4) (frameSize c)

example (s : State) : HandlerReturns c s s :=
  ⟨rfl, rfl, rfl, fun _ _ => rfl⟩

theorem frameSlots_length (c : Cpu) (oesp trapno err : Word) :
    4 * (frameSlots 0 c oesp trapno err).length = frameSize c := by
  rw [frameSlots, frameSize, returnSlots, outerSlots]
  split <;> rfl

theorem enterTrap_frame (pad : Word → Selector) (tss : Tss)
    (table : Nat → Word) (vector : Nat) (err : Word) (s : State) :
    StackAt (enterTrap pad tss table vector err s).mem (frameAddress tss s.cpu)
      (frameSlots 0 s.cpu (frameAddress tss s.cpu + 32)
        (BitVec.ofNat 32 vector) (shownCode vector err)) := by
  have hframe := (enterTrap_holds pad tss table vector err s).drop 1
  have hbehind : frameAddress tss s.cpu - 4 + BitVec.ofNat 32 (4 * 1) =
      frameAddress tss s.cpu := by
    bv_omega
  rwa [enterTrap_esp, hbehind] at hframe

theorem leaveTrap_restores (pad : Word → Selector) (tss : Tss)
    (table : Nat → Word) (vector : Nat) (err : Word) (s : State) {s' : State}
    (h : HandlerReturns s.cpu (enterTrap pad tss table vector err s) s') :
    (run pad leaveTrap s').cpu = s.cpu := by
  have hbehind : frameAddress tss s.cpu - 4 + 4 = frameAddress tss s.cpu :=
    BitVec.sub_add_cancel _ _
  have hesp : s'.cpu.esp + 4 = frameAddress tss s.cpu := by
    rw [h.esp, enterTrap_esp, hbehind]
  have hkept := h.frame
  rw [enterTrap_esp, hbehind,
    ← frameSlots_length s.cpu (frameAddress tss s.cpu + 32)
      (BitVec.ofNat 32 vector) (shownCode vector err)] at hkept
  have hframe := (enterTrap_frame pad tss table vector err s).congr hkept
  -- the handler's argument dropped, `trapret` finds the frame
  let s₀ : State := ⟨{ s'.cpu with esp := s'.cpu.esp + 4 }, s'.mem⟩
  have hcpl : s₀.cpu.cpl = 0 := by
    have hcs : s₀.cpu.cs = 0x08 := h.cs.trans (enterTrap_cs ..)
    rw [Cpu.cpl, hcs]
    decide
  have hslots : s₀.Holds (frameSlots s₀.cpu.cpl s.cpu
      (frameAddress tss s.cpu + 32) (BitVec.ofNat 32 vector)
      (shownCode vector err)) := by
    rw [hcpl]
    exact hesp ▸ hframe
  have hss : s₀.cpu.ss = if 0 < s.cpu.cpl then tss.ss0 else s.cpu.ss :=
    h.ss.trans (enterTrap_ss ..)
  have hdrop : X86.exec pad s' (.addl 4 .esp) = s₀ := rfl
  rw [leaveTrap, run_cons, hdrop, trapret_run pad hslots, hcpl, hss]
  by_cases houter : 0 < s.cpu.cpl
  · simp only [if_pos houter]
  · have hback : s₀.cpu.esp + 68 = s.cpu.esp := by
      have hs₀ : s₀.cpu.esp = frameAddress tss s.cpu := hesp
      rw [hs₀, frameAddress, if_neg houter, BitVec.sub_add_cancel]
    simp only [if_neg houter, hback]

/-- What a trap is for the code it interrupts and for its handler. -/
structure TrapTransparent (sym : Symbols) (pad : Word → Selector) (tss : Tss)
    (table : Nat → Word) (vector : Fin 256) (err : Word) (s : State) :
    Prop where
  argument : (enterTrap pad tss table vector err s).peek 0 =
    frameAddress tss s.cpu
  frame : FrameShows (enterTrap pad tss table vector err s).mem
    (frameAddress tss s.cpu) s.cpu (BitVec.ofNat 32 vector)
    (shownCode vector err)
  oesp : trapWord (enterTrap pad tss table vector err s).mem
    (frameAddress tss s.cpu) .oesp = frameAddress tss s.cpu + 32
  restores : ∀ s', HandlerReturns s.cpu
    (enterTrap pad tss table vector err s) s' →
      (run pad leaveTrap s').cpu = s.cpu
  /-- the frame of a process that traps is its `tf` -/
  current : 0 < s.cpu.cpl → ∀ t k i t' k',
    allocProcess sym t k = .ok (some i, t', k') →
      tss = (t'.process i).tss →
        frameAddress tss s.cpu = (t'.process i).tf

/-- Every trap, from every privilege level. -/
theorem trapTransparent (sym : Symbols) (pad : Word → Selector) (tss : Tss)
    (table : Nat → Word) (vector : Fin 256) (err : Word) (s : State) :
    TrapTransparent sym pad tss table vector err s where
  argument := (enterTrap_holds pad tss table vector err s).peek_at (i := 0) rfl
  frame := frameShows_of_slots (enterTrap_frame pad tss table vector err s)
  oesp := (enterTrap_frame pad tss table vector err s).get (i := 3) rfl
  restores _ := leaveTrap_restores pad tss table vector err s
  current := by
    intro houter t k i t' k' halloc htss
    rw [allocProcess_tf halloc, frameAddress, if_pos houter, htss, tfOf,
      trapframeSize_eq, ProcessSlot.tss]
    bv_omega

end Linda
