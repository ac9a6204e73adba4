/-
Runs of processes that take turns: the first dispatch of a process enters user
mode from its trap frame, every later one goes on where the process left.
-/
import Linda.BootPaging
import Linda.ProcessSwitches

namespace Linda

open ByteMemory WordStack X86

/-- No process has been made, and the pages of the kernel image are taken. -/
structure System.Started (sym : Symbols) (x : System) : Prop where
  addressed : Addressed x.kernel.kvmlist
  image : ∀ block < nvmBlocks, kernBase + block * pgSize < sym.kernEnd →
    (x.kernel.kvmlist block).used = true
  unused : ∀ i < nproc, (x.table.process i).state = .unused
  running : x.running = none

/-- The event happens and leads to `y`. -/
def Switch (pad : Word → Selector) (sym : Symbols) (x : System)
    (event : SwitchEvent) (y : System) : Prop :=
  event.Occurs sym x ∧ event.exec pad sym x = .ok y

/-- The events happen one after the other. -/
inductive Trace (pad : Word → Selector) (sym : Symbols) :
    System → List SwitchEvent → System → Prop
  | nil (x : System) : Trace pad sym x [] x
  | cons {x y z : System} {event : SwitchEvent} {events : List SwitchEvent}
      (hswitch : Switch pad sym x event y) (hrest : Trace pad sym y events z) :
      Trace pad sym x (event :: events) z

/-- `forkret` called at `s` comes back at `s'`, in front of its `ret`, with
what lies above its frame as it was. -/
structure ForkretReturns (s s' : State) : Prop where
  esp : s'.cpu.esp = s.cpu.esp
  cs : s'.cpu.cs = s.cpu.cs
  stack : SameFrom s.mem s'.mem s.cpu.esp (4 + trapframeSize)

/-- Execution goes through `forkret` and `trapret` to `c` in user mode. -/
structure EntersUser (pad : Word → Selector) (sym : Symbols) (s : State)
    (c : Cpu) : Prop where
  entry : s.cpu.eip = sym.forkret
  next : ∀ s', ForkretReturns s s' →
    (X86.exec pad s' .ret).cpu.eip = sym.trapret
  user : ∀ s', ForkretReturns s s' → (run pad (.ret :: trapret) s').cpu = c
  level : c.cpl = 3

/-- What `switch_context` gives back to the code that called it at `c`; `eip`
is behind the call. -/
structure Resumes (c c' : Cpu) : Prop where
  ebx : c'.ebx = c.ebx
  esi : c'.esi = c.esi
  edi : c'.edi = c.edi
  ebp : c'.ebp = c.ebp
  esp : c'.esp = c.esp
  eip : c'.eip = c.eip

section Runs

variable {pad : Word → Selector} {sym : Symbols} {x y z : System}
  {event : SwitchEvent} {events : List SwitchEvent} {t : Option Nat} {i : Nat}

theorem System.Started.sound (h : x.Started sym) : x.Sound sym where
  addressed := h.addressed
  used := by
    rintro block hblock (hend | ⟨i, hi, -⟩)
    · exact h.image block hblock hend
    · exact absurd (h.unused i hi.1) hi.2
  page := fun i hi => absurd (h.unused i hi.1) hi.2
  distinct := fun i _ hi => absurd (h.unused i hi.1) hi.2
  tf := fun i hi => absurd (h.unused i hi.1) hi.2
  current := by
    intro i hi
    rw [h.running] at hi
    cases hi
  fresh := by
    intro i hi hstate
    rw [h.unused i hi] at hstate
    cases hstate

theorem Trace.sound (h : Trace pad sym x events y) (hs : x.Sound sym) :
    y.Sound sym := by
  induction h with
  | nil x => exact hs
  | cons hswitch hrest ih => exact ih (hs.step hswitch.1 hswitch.2)

theorem LeftAlone.stack_eq (h : LeftAlone sym x y t) :
    y.stack sym t = x.stack sym t := by
  cases t with
  | none => rfl
  | some i => rw [System.stack_some, System.stack_some, h.slot i rfl]

theorem LeftAlone.refl (hrun : x.running ≠ t) : LeftAlone sym x x t :=
  ⟨fun _ _ => rfl, fun _ _ => rfl, fun _ _ => rfl, hrun⟩

theorem LeftAlone.trans (h : LeftAlone sym x y t) (h' : LeftAlone sym y z t) :
    LeftAlone sym x z t where
  stack := by
    have hstack := h'.stack
    rw [h.stack_eq] at hstack
    exact hstack.trans h.stack
  pointer := h'.pointer.trans h.pointer
  slot := fun i hi => (h'.slot i hi).trans (h.slot i hi)
  parked := h'.parked

/-- While a process is not dispatched, its stack stays as it is. -/
theorem Trace.kept (h : Trace pad sym x events y) (hs : x.Sound sym)
    (hi : x.Thread (some i)) (hrun : x.running ≠ some i)
    (hstate : (x.table.process i).state ≠ .embryo)
    (hno : SwitchEvent.dispatch i ∉ events) : LeftAlone sym x y (some i) := by
  induction h with
  | nil x => exact .refl hrun
  | @cons x y z event events hswitch hrest ih =>
      rw [List.mem_cons, not_or] at hno
      have htouch : ¬ event.Touches (some i) := by
        intro htouch
        cases event with
        | allocProcess => exact htouch
        | setup j pgdir =>
            obtain rfl := Option.some.inj htouch
            exact hstate hswitch.1.2.1
        | kvm call => exact htouch
        | work mem cpu => exact htouch
        | dispatch j =>
            obtain rfl := Option.some.inj htouch
            exact hno.1 rfl
        | yieldCpu => cases htouch
      have hkept := hs.kept hswitch.1 hswitch.2 hi hrun htouch
      have hslot := hkept.slot i rfl
      have hi' : y.Thread (some i) := by
        rw [System.Thread, System.Live, hslot]
        exact hi
      refine hkept.trans (ih (hs.step hswitch.1 hswitch.2) hi' hkept.parked ?_
        hno.2)
      rw [hslot]
      exact hstate

/-- A dispatch loads the context that the pointer of the process points to,
and leaves the stack of the process alone. -/
theorem dispatch_loads {c : Cpu} {new : Word} (hs : x.Sound sym)
    (hswitch : Switch pad sym x (.dispatch i) y)
    (hnew : wordAt x.kernel.mem (sym.pointer (some i)) = new)
    (hlo : (x.table.process i).kstack.toNat ≤ new.toNat)
    (hhi : new.toNat + 20 ≤ (x.table.process i).kstack.toNat + 4096)
    (hslots : StackAt x.kernel.mem new (contextSlots c)) :
    Resumes { c with esp := new + 20 } y.cpu ∧ y.cpu.cpl = 0 ∧
      Set.EqOn y.kernel.mem x.kernel.mem
        (regionAt (x.table.process i).kstack 4096) := by
  obtain ⟨⟨hi, hstate, hcall⟩, hexec⟩ := hswitch
  cases hexec
  have hlive : x.Thread (some i) :=
    ⟨hi, fun h => by rw [hstate] at h; cases h⟩
  have hne : none ≠ some i := fun h => nomatch h
  obtain ⟨hstack, -⟩ := hcall.keeps pad hs trivial hlive hne
  have hfit := hs.stack_fits hlive
  rw [System.stack_some] at hfit
  have hsame : SameFrom x.kernel.mem (callSwitch pad sym x.state).mem new
      (4 * (contextSlots c).length) := by
    refine .of_bytes ?_ fun a ha ha' => hstack ⟨?_, ?_⟩
    · simp only [contextSlots, List.length_cons, List.length_nil]
      omega
    · exact hlo.trans ha
    · simp only [contextSlots, List.length_cons, List.length_nil] at ha'
      rw [System.stack_some]
      omega
  have hcontext := hslots.congr hsame
  have hcpu : (callSwitch pad sym x.state).cpu = Cpu.loadContext { x.cpu with
      eax := sym.pointer none, edx := new, eip := sym.switchContext
      esp := new } (callSwitch pad sym x.state).mem new := by
    have hargs := hcall.args
    rw [hnew] at hargs
    rw [callSwitch_eq pad sym hargs]
    rfl
  rw [loadContext_slots _ hcontext] at hcpu
  refine ⟨?_, ?_, hstack⟩
  · rw [hcpu]
    exact ⟨rfl, rfl, rfl, rfl, rfl, rfl⟩
  · rw [hcpu]
    exact hcall.level

/-- A yield leaves the context of the process on its stack, and the pointer to
it in the table. -/
structure Yielded (sym : Symbols) (x y : System) (i : Nat) : Prop where
  pointer : wordAt y.kernel.mem (sym.pointer (some i)) =
    x.cpu.esp - BitVec.ofNat 32 contextSize
  context : StackAt y.kernel.mem (x.cpu.esp - BitVec.ofNat 32 contextSize)
    (contextSlots x.cpu)
  kstack : (y.table.process i).kstack = (x.table.process i).kstack
  state : (y.table.process i).state = .runable
  running : y.running = none
  low : (x.table.process i).kstack.toNat + contextSize ≤ x.cpu.esp.toNat
  high : x.cpu.esp.toNat + 8 ≤ (x.table.process i).kstack.toNat + 4096

theorem yield_saves (hs : x.Sound sym) (hrunning : x.running = some i)
    (hswitch : Switch pad sym x .yieldCpu y) : Yielded sym x y i := by
  obtain ⟨⟨j, hcall⟩, hexec⟩ := hswitch
  obtain rfl : j = i := Option.some.inj (hcall.running.symm.trans hrunning)
  obtain rfl := exec_yieldCpu hrunning hexec
  have hlive := hs.thread hrunning
  have hlow := hcall.low
  have hhigh := hcall.high
  rw [System.stack_some] at hlow hhigh
  have hfit : contextSize ≤ x.cpu.esp.toNat := by omega
  have hpointer := (pointer_fits sym hlive.inTable).trans sym.kernEnd_le
  have hover : NoOverlap (sym.pointer (some j)).toNat 4
      (x.cpu.esp.toNat - contextSize) contextSize := by
    have hstack := hs.pointer_stack hlive.inTable hlive
    rw [NoOverlap, System.stack_some] at hstack
    rw [NoOverlap]
    omega
  have hmem : (callSwitch pad sym x.state).mem =
      switchMemory x.state (sym.pointer (some j)) := by
    rw [callSwitch_eq pad sym hcall.args]
  constructor
  · exact hmem ▸ switchMemory_pointer x.state (sym.pointer (some j))
  · exact hmem ▸ switchMemory_context hfit hpointer hover
  · exact (congrArg ProcessSlot.kstack (ProcessTable.set_same _ _ _)).trans rfl
  · exact congrArg ProcessSlot.state (ProcessTable.set_same _ _ _)
  · rfl
  · exact hlow
  · exact hhigh

/-- Whatever happens before the process is dispatched again. -/
theorem resumes_of_trace {x' : System} (hs : x.Sound sym)
    (hrunning : x.running = some i) (hyield : Switch pad sym x .yieldCpu x')
    (htrace : Trace pad sym x' events y)
    (hno : SwitchEvent.dispatch i ∉ events)
    (hdispatch : Switch pad sym y (.dispatch i) z) : Resumes x.cpu z.cpu := by
  have hyielded := yield_saves hs hrunning hyield
  have hs' := hs.step hyield.1 hyield.2
  have hi : x'.Thread (some i) :=
    ⟨(hs.current i hrunning).1, fun h => by
      rw [hyielded.state] at h
      cases h⟩
  have hrun : x'.running ≠ some i := by
    rw [hyielded.running]
    exact fun h => nomatch h
  have hstate : (x'.table.process i).state ≠ .embryo := by
    rw [hyielded.state]
    decide
  have hkept := htrace.kept hs' hi hrun hstate hno
  have hlow := hyielded.low
  have hhigh := hyielded.high
  have hsize := contextSize_eq
  have hnew : (x.cpu.esp - BitVec.ofNat 32 contextSize).toNat =
      x.cpu.esp.toNat - 20 := by
    rw [hsize]
    bv_omega
  have hkstack : (y.table.process i).kstack = (x.table.process i).kstack := by
    rw [hkept.slot i rfl]
    exact hyielded.kstack
  have hcontext : StackAt y.kernel.mem
      (x.cpu.esp - BitVec.ofNat 32 contextSize) (contextSlots x.cpu) := by
    refine hyielded.context.congr (hkept.sameFrom hs' hi ?_ ?_)
    · rw [System.stack_some, hyielded.kstack]
      omega
    · rw [System.stack_some, hyielded.kstack]
      simp only [contextSlots, List.length_cons, List.length_nil]
      omega
  obtain ⟨hresumes, -, -⟩ := dispatch_loads (htrace.sound hs') hdispatch
    ((hkept.pointerWord hi.inTable).trans hyielded.pointer)
    (by rw [hkstack]; omega) (by rw [hkstack]; omega) hcontext
  have hesp : x.cpu.esp - BitVec.ofNat 32 contextSize + 20 = x.cpu.esp := by
    rw [hsize]
    exact BitVec.sub_add_cancel _ _
  rw [hesp] at hresumes
  exact hresumes

/-- A process that is ready to be dispatched the first time. -/
structure Prepared (sym : Symbols) (x : System) (i : Nat) : Prop where
  pointer : wordAt x.kernel.mem (sym.pointer (some i)) =
    contextOf (x.table.process i).kstack
  slots : StackAt x.kernel.mem (contextOf (x.table.process i).kstack)
    (startSlots sym)
  frame : frameCpu x.kernel.mem (x.table.process i).tf = initialCpu
  state : (x.table.process i).state = .runable
  parked : x.running ≠ some i
  thread : x.Thread (some i)

theorem exec_setup {pgdir : Word}
    (hexec : (SwitchEvent.setup i pgdir).exec pad sym x = .ok y) :
    y.kernel.mem = setupFrame (x.table.process i).tf x.kernel.mem ∧
      y.table.process i =
        { x.table.process i with pgdir, state := .runable } ∧
      y.running = x.running := by
  cases hexec
  exact ⟨rfl, ProcessTable.set_same _ _ _, rfl⟩

theorem setup_prepares {pgdir : Word} (hs : x.Sound sym)
    (hswitch : Switch pad sym x (.setup i pgdir) y) : Prepared sym y i := by
  obtain ⟨⟨hi, hembryo, -⟩, hexec⟩ := hswitch
  obtain ⟨hmem, hslot, hrunning⟩ := exec_setup hexec
  have hlive : x.Thread (some i) :=
    ⟨hi, fun h => by rw [hembryo] at h; cases h⟩
  have hfit := hs.stack_fits hlive
  have hover := hs.pointer_stack hlive.inTable hlive
  rw [System.stack_some] at hfit hover
  rw [NoOverlap] at hover
  have htf := tfOf_toNat hfit
  have hfits := (pointer_fits sym hlive.inTable).trans sym.kernEnd_le
  obtain ⟨hpointer, hfresh⟩ := hs.fresh i hi hembryo
  rw [hs.tf i hlive] at hmem
  have hframe : StackAt y.kernel.mem (tfOf (x.table.process i).kstack)
      (frameSlots 0 initialCpu 0 0 0) := by
    rw [hmem]
    exact setupFrame_slots (by omega)
  constructor
  · have hsame : SameFrom x.kernel.mem y.kernel.mem
        (sym.pointer (some i)) 4 := by
      rw [hmem]
      exact .of_bytes hfits fun a hlo hhi =>
        setupFrame_of_outside (by omega) (by omega)
    rw [hslot, hsame.wordAt le_rfl]
    exact hpointer
  · rw [hslot, hmem]
    exact setupFrame_start hfit hfresh
  · rw [hslot, hs.tf i hlive]
    refine frameCpu_of_shows (frameShows_of_slots hframe) ?_
    rw [initialCpu_level]
    decide
  · rw [hslot]
  · intro h
    have hstate := (hs.current i (hrunning.symm.trans h)).2
    rw [hembryo] at hstate
    cases hstate
  · refine ⟨hi, ?_⟩
    rw [hslot]
    intro h
    cases h

/-- From the address of `trapret` on, the stack leads into user mode. -/
theorem entersUser_of_slots {s : State} (hentry : s.cpu.eip = sym.forkret)
    (hlevel : s.cpu.cpl = 0)
    (hslots : s.Holds (.word sym.trapret :: frameSlots 0 initialCpu 0 0 0)) :
    EntersUser pad sym s initialCpu := by
  have hkept (s' : State) (h : ForkretReturns s s') :
      s'.Holds (.word sym.trapret :: frameSlots 0 initialCpu 0 0 0) := by
    have hbytes : 4 * (Slot.word sym.trapret ::
        frameSlots 0 initialCpu 0 0 0).length = 4 + trapframeSize := by
      rw [List.length_cons, Nat.mul_succ, frameSlots_length]
      decide
    rw [State.Holds, h.esp]
    exact StackAt.congr hslots (hbytes ▸ h.stack)
  refine ⟨hentry, fun s' h => (hkept s' h).peek_at (i := 0) rfl, ?_,
    initialCpu_level⟩
  intro s' h
  let returned : State :=
    ⟨{ s'.cpu with eip := s'.peek 0, esp := s'.cpu.esp + 4 }, s'.mem⟩
  have hret : X86.exec pad s' .ret = returned := rfl
  have hcpl : returned.cpu.cpl = 0 := by
    have hcs : returned.cpu.cs = s.cpu.cs := h.cs
    rw [Cpu.cpl, hcs]
    exact hlevel
  have hframe : returned.Holds
      (frameSlots returned.cpu.cpl initialCpu 0 0 0) := by
    rw [hcpl]
    exact (hkept s' h).2
  have houter : 0 < initialCpu.cpl := by
    rw [initialCpu_level]
    decide
  rw [run_cons, hret, trapret_run pad hframe, hcpl, if_pos houter,
    if_pos houter]

theorem entersUser_of_trace {x' : System} {pgdir : Word} (hs : x.Sound sym)
    (hsetup : Switch pad sym x (.setup i pgdir) x')
    (htrace : Trace pad sym x' events y)
    (hno : SwitchEvent.dispatch i ∉ events)
    (hdispatch : Switch pad sym y (.dispatch i) z) :
    EntersUser pad sym z.state initialCpu := by
  have hprepared := setup_prepares hs hsetup
  have hs' := hs.step hsetup.1 hsetup.2
  have hi := hprepared.thread
  have hstate : (x'.table.process i).state ≠ .embryo := by
    rw [hprepared.state]
    decide
  have hkept := htrace.kept hs' hi hprepared.parked hstate hno
  have hs'' := htrace.sound hs'
  have hfit := hs'.stack_fits hi
  rw [System.stack_some] at hfit
  have hctx := contextOf_toNat hfit
  have hslots : StackAt y.kernel.mem (contextOf (x'.table.process i).kstack)
      (startSlots sym) := by
    refine hprepared.slots.congr (hkept.sameFrom hs' hi ?_ ?_)
    · rw [System.stack_some]
      omega
    · have hlength : (startSlots sym).length = 25 := rfl
      rw [System.stack_some, hlength]
      omega
  have hkstack : (y.table.process i).kstack = (x'.table.process i).kstack := by
    rw [hkept.slot i rfl]
  have hsplit : startSlots sym =
      contextSlots { initialCpu with eip := sym.forkret } ++
        (.word sym.trapret :: frameSlots 0 initialCpu 0 0 0) := rfl
  obtain ⟨hresumes, hlevel, hstack⟩ := dispatch_loads hs'' hdispatch
    ((hkept.pointerWord hi.inTable).trans hprepared.pointer)
    (by rw [hkstack]; omega) (by rw [hkstack]; omega)
    (hsplit ▸ hslots).of_append
  refine entersUser_of_slots hresumes.eip hlevel ?_
  have hrest := hslots.drop 5
  rw [hkstack] at hstack
  have hesp : z.cpu.esp = contextOf (x'.table.process i).kstack +
    BitVec.ofNat 32 (4 * 5) := hresumes.esp
  have hesp' : (contextOf (x'.table.process i).kstack +
      BitVec.ofNat 32 (4 * 5)).toNat =
        (x'.table.process i).kstack.toNat + 4016 := by
    bv_omega
  have hlength : ((startSlots sym).drop 5).length = 20 := rfl
  rw [State.Holds, System.state, hesp]
  refine hrest.congr (.of_bytes ?_ fun a hlo hhi => hstack ⟨?_, ?_⟩)
  · rw [hesp', hlength]
    omega
  · omega
  · rw [hesp', hlength] at hhi
    omega

/-- Whoever runs can put the arguments of `switch_context` on its stack. -/
theorem System.Sound.canCall {here there : Option Nat} (hs : x.Sound sym)
    (hhere : x.running = here) (hthere : InTable there) :
    ∃ mem cpu, (SwitchEvent.work mem cpu).Occurs sym x ∧
      System.CallsSwitch sym { x with kernel := x.kernel.setMem mem, cpu }
        here there := by
  have hthread := hs.thread hhere
  have hfit := hs.stack_fits hthread
  let new := wordAt x.kernel.mem (sym.pointer there)
  let s : State := ⟨{ x.cpu with
    esp := x.stack sym here + 4096, cs := 0x08 }, x.kernel.mem⟩
  let pushed := (s.push new).push (sym.pointer here)
  have htop : (x.stack sym here + 4096 - 4).toNat =
      (x.stack sym here).toNat + 4092 := by
    bv_omega
  have hesp : (x.stack sym here + 4096 - 4 - 4).toNat =
      (x.stack sym here).toNat + 4088 := by
    bv_omega
  have hmem (a : Nat) (ha : a < (x.stack sym here).toNat ∨
      (x.stack sym here).toNat + 4096 ≤ a) : pushed.mem a = x.kernel.mem a := by
    have hlast : pushed.mem a = (s.push new).mem a :=
      putWord_of_beside (a := x.stack sym here + 4096 - 4 - 4) (by omega)
        (by omega)
    have hfirst : (s.push new).mem a = x.kernel.mem a :=
      putWord_of_beside (a := x.stack sym here + 4096 - 4) (by omega)
        (by omega)
    exact hlast.trans hfirst
  have hpointer := hs.pointer_stack hthere hthread
  rw [NoOverlap] at hpointer
  have hsame : wordAt pushed.mem (sym.pointer there) = new :=
    SameFrom.wordAt (.of_bytes ((pointer_fits sym hthere).trans sym.kernEnd_le)
      fun a hlo hhi => hmem a (by omega)) le_rfl
  have hargs : pushed.Holds [.word (sym.pointer here), .word new] :=
    (s.holds_nil.push new (by decide)).push (sym.pointer here)
      (Nat.le_of_ble_eq_true rfl)
  have hlevel : rpl 0x08 = 0 := by decide
  have hstack : System.stack sym { x with
      kernel := x.kernel.setMem pushed.mem, cpu := pushed.cpu } here =
        x.stack sym here := by
    cases here <;> rfl
  refine ⟨pushed.mem, pushed.cpu, ?_, hhere, hlevel, hsame.symm ▸ hargs, ?_, ?_⟩
  · intro t ht hne
    have hstacks := hs.stacks_apart hthread ht (hhere ▸ Ne.symm hne)
    have hpointers := hs.pointer_stack ht.inTable hthread
    rw [NoOverlap] at hstacks hpointers
    constructor
    all_goals
      rintro a ⟨hlo, hhi⟩
      exact hmem a (by omega)
  · rw [hstack, contextSize_eq]
    change (x.stack sym here).toNat + 20 ≤
      (x.stack sym here + 4096 - 4 - 4).toNat
    omega
  · rw [hstack]
    change (x.stack sym here + 4096 - 4 - 4).toNat + 8 ≤
      (x.stack sym here).toNat + 4096
    omega

/-- The scheduler can dispatch any process that is ready. -/
theorem System.Sound.canDispatch (pad : Word → Selector) (hs : x.Sound sym)
    (hrunning : x.running = none) (hi : i < nproc)
    (hstate : (x.table.process i).state = .runable) :
    ∃ mem cpu y z, Switch pad sym x (.work mem cpu) y ∧
      Switch pad sym y (.dispatch i) z ∧ z.running = some i := by
  have hthere : InTable (some i) := hi
  obtain ⟨mem, cpu, hwork, hcall⟩ := hs.canCall hrunning hthere
  exact ⟨mem, cpu, _, _, ⟨hwork, rfl⟩, ⟨⟨hi, hstate, hcall⟩, rfl⟩, rfl⟩

/-- A process that runs can yield. -/
theorem System.Sound.canYield (pad : Word → Selector) (hs : x.Sound sym)
    (hrunning : x.running = some i) :
    ∃ mem cpu y z, Switch pad sym x (.work mem cpu) y ∧ y.running = some i ∧
      Switch pad sym y .yieldCpu z := by
  have hthere : InTable none := trivial
  obtain ⟨mem, cpu, hwork, hcall⟩ := hs.canCall hrunning hthere
  have hyield (y : System) (hy : y.running = some i) :
      ∃ z, SwitchEvent.yieldCpu.exec pad sym y = .ok z := by
    rw [SwitchEvent.exec, hy]
    exact ⟨_, rfl⟩
  obtain ⟨z, hz⟩ := hyield
    { x with kernel := x.kernel.setMem mem, cpu } hrunning
  exact ⟨mem, cpu, _, z, ⟨hwork, rfl⟩, hrunning, ⟨i, hcall⟩, hz⟩

end Runs

/-- What context switches do for every process. -/
structure ProcessesPreserved (pad : Word → Selector) (sym : Symbols)
    (start : System) : Prop where
  /-- the first dispatch, after `uinitproc_setup` filled the frame -/
  first : ∀ events x i pgdir x' events' y z, Trace pad sym start events x →
    Switch pad sym x (.setup i pgdir) x' → Trace pad sym x' events' y →
      .dispatch i ∉ events' → Switch pad sym y (.dispatch i) z →
        EntersUser pad sym z.state
          (frameCpu x'.kernel.mem (x'.table.process i).tf)
  /-- a later one, after the process called `switch_context` at `x` -/
  resumed : ∀ events x i x' events' y z, Trace pad sym start events x →
    x.running = some i → Switch pad sym x .yieldCpu x' →
      Trace pad sym x' events' y → .dispatch i ∉ events' →
        Switch pad sym y (.dispatch i) z → Resumes x.cpu z.cpu

/-- For any processes and any order of dispatches and yields. -/
theorem processesPreserved {pad : Word → Selector} {sym : Symbols}
    {start : System} (hstart : start.Started sym) :
    ProcessesPreserved pad sym start where
  first := by
    intro events x i pgdir x' events' y z hbefore hsetup htrace hno hdispatch
    have hs := hbefore.sound hstart.sound
    rw [(setup_prepares hs hsetup).frame]
    exact entersUser_of_trace hs hsetup htrace hno hdispatch
  resumed := by
    intro events x i x' events' y z hbefore hrunning hyield htrace hno hdispatch
    exact resumes_of_trace (hbefore.sound hstart.sound) hrunning hyield htrace
      hno hdispatch

/-- The boot leaves the pages of the kernel image in use. -/
theorem started_of_boot {sym : Symbols} {image : Image} {ram : Memory}
    {slots : Int → Nat} {bounds : Nat × Nat} {entries : List MmapEntry}
    {fuel : Nat} {x : System} (hend : sym.kernEnd = image.kernEnd)
    (hloaded : Loaded image ram)
    (hboot : boot image bounds entries fuel (loadedKernel image ram slots) =
      .ok x.kernel) (hunused : ∀ i < nproc, (x.table.process i).state = .unused)
    (hrunning : x.running = none) : x.Started sym := by
  obtain ⟨memMap, hkernel, hcount⟩ := boot_ok hloaded hboot
  obtain ⟨-, -, -, -, hhi⟩ := image.bounds
  have hlist (i : Nat) (hi : i < nvmBlocks) : x.kernel.kvmlist i =
      ⟨u32 (kernBase + i * pgSize),
        if p2v (i * pgSize) ≤ virtKernAddr image memMap then
          (if i < 229376 then ⟨p2v (i * 4096), vmMapped⟩ else
            (⟨0, 0⟩ : VmBlock)).status ||| (vmUsed ||| vmMapped)
        else (if i < 229376 then ⟨p2v (i * 4096), vmMapped⟩ else
          (⟨0, 0⟩ : VmBlock)).status⟩ := by
    rw [hkernel]
    exact if_pos hi
  have haddr (i : Nat) (hi : i < nvmBlocks) :
      u32 (kernBase + i * pgSize) = kernBase + i * pgSize := by
    simp only [nvmBlocks, kernBase, pgSize] at hi ⊢
    exact u32_of_lt (by omega)
  refine ⟨fun i hi => ?_, fun i hi himage => ?_, hunused, hrunning⟩
  · rw [hlist i hi]
    exact haddr i hi
  · have hkern : virtKernAddr image memMap =
        image.kernEnd + memMap.pageCount * 4 := u32_of_lt (by omega)
    have hbefore : p2v (i * pgSize) ≤ virtKernAddr image memMap := by
      rw [p2v, Nat.add_comm, haddr i hi, hkern]
      omega
    rw [hlist i hi, if_pos hbefore]
    split_ifs
    · change ((vmMapped ||| (vmUsed ||| vmMapped)) &&& vmUsed != 0) = true
      decide
    · change ((0 ||| (vmUsed ||| vmMapped)) &&& vmUsed != 0) = true
      decide

/-- The table and the stack of a small kernel, in its last pages. -/
def smallSymbols : Symbols where
  kernEnd := 0xC0011000
  ptable := 0xC000E000
  curcpu := 0xC000FF00
  kstackBottom := 0xC0010000
  forkret := 0xC0001000
  trapret := 0xC0002000
  switchContext := 0xC0003000
  kernEnd_le := by decide
  ptable_le := by decide
  curcpu_le := by decide
  kstackBottom_le := by decide
  ptable_curcpu := by decide
  ptable_kstack := by decide
  curcpu_kstack := by decide

def smallSystem : System where
  kernel := startedKernel.setKvmlist fun i =>
    ⟨kernBase + i * pgSize, if i ≤ 16 then vmUsed ||| vmMapped else vmMapped⟩
  table := ⟨fun _ => ⟨0, 0, 0, .unused, 0⟩, 1⟩
  cpu := { initialCpu with cs := 0x08 }
  running := none

theorem smallSystem_started : smallSystem.Started smallSymbols where
  addressed := fun _ _ => rfl
  image := by
    intro block _ hend
    have hle : block ≤ 16 := by
      change 3221225472 + block * 4096 < 3221295104 at hend
      omega
    change VmBlock.used
      ⟨_, if block ≤ 16 then vmUsed ||| vmMapped else vmMapped⟩ = true
    rw [if_pos hle]
    change ((vmUsed ||| vmMapped) &&& vmUsed != 0) = true
    decide
  unused := fun _ _ => rfl
  running := rfl

theorem smallSystem_alloc (pad : Word → Selector) :
    ∃ x, Switch pad smallSymbols smallSystem .allocProcess x ∧
      (x.table.process 0).state = .embryo := by
  have hslot : (List.range nproc).find? (fun i =>
      (smallSystem.table.process i).state = .unused) = some 0 := by
    decide +kernel
  have hpage : kvmScan smallSystem.kernel.kvmlist VmBlock.available
      nvmBlocks 0 = some 17 := by
    decide +kernel
  have hne : BitVec.ofNat 32 (kernBase + 17 * pgSize) ≠ 0 := by decide
  have halloc : ∃ t k, allocProcess smallSymbols smallSystem.table
      smallSystem.kernel = .ok (some 0, t, k) ∧
        (t.process 0).state = .embryo := by
    rw [allocProcess, hslot]
    simp only [kvmAllocPage, hpage]
    refine ⟨_, _, if_neg hne, rfl⟩
  obtain ⟨t, k, halloc, hstate⟩ := halloc
  refine ⟨{ smallSystem with table := t, kernel := k }, ⟨trivial, ?_⟩, hstate⟩
  rw [SwitchEvent.exec, halloc]

/-- A process made, dispatched, yielding and dispatched again. -/
theorem processesPreserved_twoTurns :
    ∃ (w u x z : System) (first second : List SwitchEvent),
      Trace (fun _ => 0) smallSymbols smallSystem first u ∧
        EntersUser (fun _ => 0) smallSymbols u.state
          (frameCpu w.kernel.mem (w.table.process 0).tf) ∧
        Trace (fun _ => 0) smallSymbols u second z ∧
        x.running = some 0 ∧ Resumes x.cpu z.cpu := by
  have hall := @processesPreserved (fun _ => 0) smallSymbols smallSystem
    smallSystem_started
  obtain ⟨v, halloc, hembryo⟩ := smallSystem_alloc fun _ => 0
  have hv := smallSystem_started.sound.step halloc.1 halloc.2
  obtain ⟨w, hsetup⟩ : ∃ w,
      Switch (fun _ => 0) smallSymbols v (.setup 0 1) w :=
    ⟨_, ⟨by decide, hembryo, by decide⟩, rfl⟩
  have hprepared := setup_prepares hv hsetup
  have hw := hv.step hsetup.1 hsetup.2
  have hidle : w.running = none := by
    rw [(exec_setup hsetup.2).2.2]
    rcases exec_allocProcess smallSystem_started.sound halloc.2 with
      rfl | ⟨_, _, _, _, -, rfl⟩
    · rfl
    · rfl
  obtain ⟨mem, cpu, y, u, hwork, hdispatch, hrunning⟩ :=
    hw.canDispatch (fun _ => 0) hidle (by decide) hprepared.state
  have hu := (hw.step hwork.1 hwork.2).step hdispatch.1 hdispatch.2
  obtain ⟨mem', cpu', x, x', hwork', hrunning', hyield⟩ :=
    hu.canYield (fun _ => 0) hrunning
  have hx := hu.step hwork'.1 hwork'.2
  have hyielded := yield_saves hx hrunning' hyield
  obtain ⟨mem'', cpu'', y', z, hwork'', hdispatch', -⟩ :=
    (hx.step hyield.1 hyield.2).canDispatch (fun _ => 0) hyielded.running
      (by decide) hyielded.state
  have hfirst : Trace (fun _ => 0) smallSymbols smallSystem
      [.allocProcess, .setup 0 1, .work mem cpu, .dispatch 0] u :=
    .cons halloc (.cons hsetup (.cons hwork (.cons hdispatch (.nil u))))
  have hsecond : Trace (fun _ => 0) smallSymbols u
      [.work mem' cpu', .yieldCpu, .work mem'' cpu'', .dispatch 0] z :=
    .cons hwork' (.cons hyield (.cons hwork'' (.cons hdispatch' (.nil z))))
  refine ⟨w, u, x, z, _, _, hfirst, ?_, hsecond, hrunning', ?_⟩
  · exact hall.first [.allocProcess] v 0 1 w [.work mem cpu] y u
      (.cons halloc (.nil v)) hsetup (.cons hwork (.nil y)) (by simp) hdispatch
  · exact hall.resumed [.allocProcess, .setup 0 1, .work mem cpu, .dispatch 0,
      .work mem' cpu'] x 0 x' [.work mem'' cpu''] y' z
      (.cons halloc (.cons hsetup (.cons hwork (.cons hdispatch
        (.cons hwork' (.nil x)))))) hrunning' hyield
      (.cons hwork'' (.nil y')) (by simp) hdispatch'

end Linda
