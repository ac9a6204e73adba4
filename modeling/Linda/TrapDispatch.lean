/-
The interrupt controllers and `interrupt_handler_dispatcher`: what the devices,
the processor and the dispatchers of all stacks do to each other, in any order.
-/
import Linda.Pic8259
import Linda.TrapEntry
import Mathlib.Logic.Relation

namespace Linda

open Pic8259

def masterCmdPort : Nat := 0x20
def masterDataPort : Nat := 0x21
def slaveCmdPort : Nat := 0xA0
def slaveDataPort : Nat := 0xA1

def icw1Icw4 : Byte := 0x01
def icw1Init : Byte := 0x10
def icw4Mode8086 : Byte := 0x01

/-- The line of the master at which the slave asks. -/
def slaveLine : Line := ⟨2, by decide⟩

/-- `outb`, for the ports of the controllers. -/
def outb (port : Nat) (cnt : Byte) (pics : Pair) : Pair :=
  if port = masterCmdPort then
    { pics with master := pics.master.command cnt }
  else if port = masterDataPort then
    { pics with master := pics.master.data cnt }
  else if port = slaveCmdPort then
    Pair.link slaveLine { pics with slave := pics.slave.command cnt }
  else if port = slaveDataPort then
    Pair.link slaveLine { pics with slave := pics.slave.data cnt }
  else pics

/-- `pic_remap`; `outb` takes the lower byte of an offset. -/
def picRemap (masterOffset slaveOffset : BitVec 16) (pics : Pair) : Pair :=
  let pics := outb masterCmdPort (icw1Init + icw1Icw4) pics
  let pics := outb slaveCmdPort (icw1Init + icw1Icw4) pics
  let pics := outb masterDataPort (masterOffset.setWidth 8) pics
  let pics := outb slaveDataPort (slaveOffset.setWidth 8) pics
  let pics := outb masterDataPort 4 pics
  let pics := outb slaveDataPort 2 pics
  let pics := outb masterDataPort icw4Mode8086 pics
  outb slaveDataPort icw4Mode8086 pics

def nidt : Nat := 256

def irq0 : Nat := 32
def irq1 : Nat := 33
def irq7 : Nat := 39
def irq14 : Nat := 46
def irq15 : Nat := 47
def cpuPF : Nat := 14

/-- `allowed_traps` -/
def allowedTraps : List Nat :=
  [0, 1, 2, 3, 4, 5, 6, 7, 8, 9, 10, 11, 12, 13, 14, 15, 16, 17, 18, 19,
    32, 33, 34, 35, 36, 37, 38, 39, 40, 41, 42, 43, 44, 45, 46, 47, irqSyscall]

variable {α : Type}

/-- `register_trap_handler`, which panics with the number it refuses. -/
def registerTrapHandler (trapno : Nat) (handler : α)
    (handlers : Nat → Option α) : Except Nat (Nat → Option α) :=
  if trapno ∈ allowedTraps then
    .ok fun v => if v = trapno then some handler else handlers v
  else .error trapno

/-- How far a dispatcher has come. -/
inductive DispatchStage where
  | entered
  /-- the slave has its end of interrupt, where it gets one -/
  | slaveEnded
  /-- and the master -/
  | ended
  /-- in the handler, or behind it -/
  | handling
  /-- back, with no handler called -/
  | returned
  /-- in the loop of `panic` -/
  | panicked
deriving Repr, DecidableEq

/-- A trap on a stack, with the lines that went into service with it. -/
structure TrapFrameState where
  trapno : Nat
  stage : DispatchStage
  /-- the interrupt flag that `iret` restores -/
  intFlag : Bool
  master : Finset Line
  slave : Finset Line
deriving DecidableEq

namespace TrapFrameState

/-- What the dispatcher still has to end. -/
def masterOwed (f : TrapFrameState) : Finset Line :=
  if f.stage = .entered ∨ f.stage = .slaveEnded then f.master else ∅

def slaveOwed (f : TrapFrameState) : Finset Line :=
  if f.stage = .entered then f.slave else ∅

/-- In a handler anything may happen; the dispatcher itself neither traps nor
gives the processor away. -/
def Ordinary (f : TrapFrameState) : Prop := f.stage = .handling

instance (f : TrapFrameState) : Decidable f.Ordinary :=
  inferInstanceAs (Decidable (f.stage = .handling))

end TrapFrameState

/-- The traps that a stack is in, innermost first. -/
abbrev TrapStack := List TrapFrameState

/-- The code that runs on a stack is no dispatcher's. -/
def TrapStack.Ordinary (stack : TrapStack) : Prop :=
  ∀ f ∈ stack.head?, f.Ordinary

instance (stack : TrapStack) : Decidable stack.Ordinary :=
  inferInstanceAs (Decidable (∀ f ∈ stack.head?, f.Ordinary))

structure TrapState (α : Type) where
  pics : Pair
  intFlag : Bool
  handlers : Nat → Option α
  /-- the stack that runs -/
  running : TrapStack
  waiting : List TrapStack
  /-- the vectors of all traps so far, the last one first -/
  taken : List Nat
  /-- the calls of handlers so far, the last one first -/
  calls : List (Nat × α)

/-- An input of the controllers. -/
inductive Irq where
  | master (n : Line)
  | slave (n : Line)
deriving Repr, DecidableEq

inductive TrapEvent where
  | raise (irq : Irq)
  | lower (irq : Irq)
  /-- the processor takes an interrupt -/
  | interrupt
  /-- an exception, or the system call -/
  | trap (vector : Nat)
  /-- the dispatcher goes on -/
  | dispatch
  /-- `cli` or `sti` -/
  | setFlag (flag : Bool)
  | iret
  /-- the stack that runs is switched -/
  | switch (stack : TrapStack)
  /-- `alloc_process` makes a stack with a trap frame -/
  | create (trapno : Nat) (intFlag : Bool)
deriving DecidableEq

namespace TrapState

/-- A device moves an input; the slave's line is none of theirs. -/
def device (irq : Irq) (change : Line → Pic → Pic) (s : TrapState α) :
    Option (TrapState α) :=
  match irq with
  | .master n =>
      if n = slaveLine then none
      else some { s with
        pics := { s.pics with master := change n s.pics.master } }
  | .slave n =>
      some { s with
        pics := Pair.link slaveLine
          { s.pics with slave := change n s.pics.slave } }

/-- The processor enters the stub of `vector`; a trap gate leaves interrupts
as they are. -/
def enter (vector : Nat) (pics : Pair) (s : TrapState α) : TrapState α :=
  { s with
    pics := pics
    intFlag := s.intFlag && (idt (fun _ => 0) vector).trap
    running :=
      { trapno := vector
        stage := .entered
        intFlag := s.intFlag
        master := pics.master.service \ s.pics.master.service
        slave := pics.slave.service \ s.pics.slave.service } :: s.running
    taken := vector :: s.taken }

def atStage (f : TrapFrameState) (rest : TrapStack) (stage : DispatchStage)
    (s : TrapState α) : TrapState α :=
  { s with running := { f with stage := stage } :: rest }

/-- `interrupt_handler_dispatcher` of the frame `f`, from where it is. -/
def dispatch (f : TrapFrameState) (rest : TrapStack) (s : TrapState α) :
    Option (TrapState α) :=
  match f.stage with
  | .entered =>
      let s := if 40 ≤ f.trapno then
        { s with pics := outb slaveCmdPort 0x20 s.pics } else s
      some (s.atStage f rest .slaveEnded)
  | .slaveEnded =>
      let s := { s with pics := outb masterCmdPort 0x20 s.pics }
      some (s.atStage f rest .ended)
  | .ended =>
      if f.trapno = irq7 then some (s.atStage f rest .returned)
      else match s.handlers f.trapno with
        | none => some (s.atStage f rest .panicked)
        | some handler =>
            let s := { s with calls := (f.trapno, handler) :: s.calls }
            some (s.atStage f rest .handling)
  | _ => none

def step (event : TrapEvent) (s : TrapState α) : Option (TrapState α) :=
  match event with
  | .raise irq => s.device irq Pic.raise
  | .lower irq => s.device irq Pic.lower
  | .interrupt =>
      if s.intFlag then
        let taken := s.pics.acknowledge slaveLine
        some (s.enter taken.2 taken.1)
      else none
  | .trap vector =>
      if s.running.Ordinary ∧ (vector < 32 ∨ vector = irqSyscall) then
        some (s.enter vector s.pics)
      else none
  | .dispatch =>
      match s.running with
      | f :: rest => s.dispatch f rest
      | [] => none
  | .setFlag flag =>
      -- `panic` has a `pushcli` and a `popcli` of its own
      if ∀ f ∈ s.running.head?, f.stage = .handling ∨ f.stage = .panicked then
        some { s with intFlag := flag }
      else none
  | .iret =>
      match s.running with
      | f :: rest =>
          if f.stage = .handling ∨ f.stage = .returned then
            some { s with intFlag := f.intFlag, running := rest }
          else none
      | [] => none
  | .switch stack =>
      if s.running.Ordinary ∧ stack ∈ s.waiting then
        some { s with
          running := stack
          waiting := s.running :: s.waiting.erase stack }
      else none
  | .create trapno intFlag =>
      if s.running.Ordinary then
        some { s with
          waiting := [⟨trapno, .handling, intFlag, ∅, ∅⟩] :: s.waiting }
      else none

/-- In the boot thread, with interrupts off. -/
def start (handlers : Nat → Option α) (pics : Pair) : TrapState α where
  pics := pics
  intFlag := false
  handlers := handlers
  running := []
  waiting := []
  taken := []
  calls := []

/-- After `trap_init` has set up the controllers, with these handlers
registered. -/
def boot (handlers : Nat → Option α) (pics : Pair) : TrapState α :=
  start handlers (picRemap 0x20 0x28 pics)

def run : List TrapEvent → TrapState α → Option (TrapState α)
  | [], s => some s
  | event :: events, s => (step event s).bind (run events)

/-- What can be reached after the boot, whatever the controllers did before. -/
def Reachable (handlers : Nat → Option α) (s : TrapState α) : Prop :=
  ∃ pics, Relation.ReflTransGen
    (fun s s' => ∃ event, step event s = some s') (boot handlers pics) s

end TrapState

/-- A controller as `pic_remap` leaves it. -/
def remapped (base cascade : Byte) : Pic where
  stage := .ready
  base := base &&& 0xF8
  cascade := cascade
  single := false
  needsIcw4 := true
  autoEoi := false
  request := ∅
  service := ∅
  mask := ∅

theorem picRemap_eq (masterOffset slaveOffset : BitVec 16) (pics : Pair) :
    picRemap masterOffset slaveOffset pics =
      ⟨remapped (masterOffset.setWidth 8) 4,
        remapped (slaveOffset.setWidth 8) 2⟩ := by
  simp [picRemap, outb, Pic.command, Pic.data, Pair.link, Pic.next, remapped,
    masterCmdPort, masterDataPort, slaveCmdPort, slaveDataPort, icw1Init,
    icw1Icw4, icw4Mode8086]

/-- A controller in its normal mode, which masks nothing. -/
structure PicReady (base : Byte) (p : Pic) : Prop where
  stage : p.stage = .ready
  base : p.base = base
  autoEoi : p.autoEoi = false
  mask : p.mask = ∅

/-- Both controllers, with no more than one line each in service. -/
structure PicsReady (pics : Pair) : Prop where
  master : PicReady 0x20 pics.master
  slave : PicReady 0x28 pics.slave
  linked : pics.Linked slaveLine
  masterSingle : pics.master.service.card ≤ 1
  slaveSingle : pics.slave.service.card ≤ 1

theorem PicReady.endOfInterrupt {base : Byte} {p : Pic} (h : PicReady base p) :
    PicReady base p.endOfInterrupt := by
  rw [Pic.endOfInterrupt]
  split
  · exact ⟨h.stage, h.base, h.autoEoi, h.mask⟩
  · exact h

theorem PicReady.acknowledge {base : Byte} {p : Pic} (h : PicReady base p) :
    PicReady base p.acknowledge := by
  rw [Pic.acknowledge]
  cases p.next with
  | none => exact h
  | some n => exact ⟨h.stage, h.base, h.autoEoi, h.mask⟩

theorem PicReady.link (pics : Pair) (h : PicReady 0x20 pics.master)
    (line : Line) : PicReady 0x20 (pics.link line).master := by
  rw [Pair.link]
  split
  · exact ⟨h.stage, h.base, h.autoEoi, h.mask⟩
  · exact h

namespace PicsReady

variable {pics : Pair}

theorem remap (pics : Pair) : PicsReady (picRemap 0x20 0x28 pics) := by
  rw [picRemap_eq]
  refine ⟨⟨rfl, rfl, rfl, rfl⟩, ⟨rfl, rfl, rfl, rfl⟩, ?_, Nat.zero_le 1,
    Nat.zero_le 1⟩
  intro hasks
  obtain ⟨n, hrequest, -⟩ := Pic.next_isSome_iff.mp hasks
  exact absurd hrequest (Finset.notMem_empty n)

/-- An input of the slave moves. -/
theorem slaveInput {slave : Pic} (h : PicsReady pics)
    (hready : PicReady 0x28 slave) (hservice : slave.service.card ≤ 1) :
    PicsReady (Pair.link slaveLine { pics with slave := slave }) where
  master := PicReady.link { pics with slave := slave } h.master _
  slave := by
    rw [Pair.link_slave]
    exact hready
  linked := Pair.linked_link slaveLine _
  masterSingle := by
    rw [Pair.link_service]
    exact h.masterSingle
  slaveSingle := by
    rw [Pair.link_slave]
    exact hservice

/-- An input of the master moves, or its service. -/
theorem masterInput {master : Pic} (h : PicsReady pics)
    (hready : PicReady 0x20 master) (hservice : master.service.card ≤ 1)
    (hline : slaveLine ∈ pics.master.request → slaveLine ∈ master.request) :
    PicsReady { pics with master := master } where
  master := hready
  slave := h.slave
  linked := fun hasks => hline (h.linked hasks)
  masterSingle := hservice
  slaveSingle := h.slaveSingle

end PicsReady

theorem outb_slaveEoi (pics : Pair) : outb slaveCmdPort 0x20 pics =
    Pair.link slaveLine { pics with slave := pics.slave.endOfInterrupt } := rfl

theorem outb_masterEoi (pics : Pair) : outb masterCmdPort 0x20 pics =
    { pics with master := pics.master.endOfInterrupt } := rfl

namespace PicsReady

variable {pics : Pair}

theorem slaveEoi (h : PicsReady pics) :
    PicsReady (outb slaveCmdPort 0x20 pics) := by
  rw [outb_slaveEoi]
  apply h.slaveInput h.slave.endOfInterrupt
  rw [Pic.endOfInterrupt_eq h.slaveSingle]
  exact Nat.zero_le 1

theorem masterEoi (h : PicsReady pics) :
    PicsReady (outb masterCmdPort 0x20 pics) := by
  rw [outb_masterEoi, Pic.endOfInterrupt_eq h.masterSingle]
  exact h.masterInput ⟨h.master.stage, h.master.base, h.master.autoEoi,
    h.master.mask⟩ (Nat.zero_le 1) id

/-- Nothing in service, an interrupt puts in service what it answers. -/
theorem acknowledge (h : PicsReady pics) (hmaster : pics.master.service = ∅)
    (hslave : pics.slave.service = ∅) :
    PicsReady (pics.acknowledge slaveLine).1 := by
  have hsingle : ∀ p : Pic, p.service = ∅ → p.acknowledge.service.card ≤ 1 := by
    intro p hservice
    rw [Pic.acknowledge]
    cases p.next with
    | none => exact hservice ▸ Nat.zero_le 1
    | some n =>
        simp only [hservice]
        split
        · exact Nat.zero_le 1
        · exact (Finset.card_singleton n).le
  refine ⟨?_, ?_, h.linked.acknowledge h.slave.autoEoi, ?_, ?_⟩ <;>
    rw [Pair.acknowledge] <;> split
  · exact h.master.acknowledge
  · exact h.master.acknowledge
  · exact h.slave.acknowledge
  · exact h.slave
  · exact hsingle _ hmaster
  · exact hsingle _ hmaster
  · exact hsingle _ hslave
  · exact h.slaveSingle

end PicsReady

/-- What the dispatcher on a stack still has to end. -/
def TrapStack.masterOwed (stack : TrapStack) : Finset Line :=
  (stack.head?.map TrapFrameState.masterOwed).getD ∅

def TrapStack.slaveOwed (stack : TrapStack) : Finset Line :=
  (stack.head?.map TrapFrameState.slaveOwed).getD ∅

/-- The dispatcher of a frame has nothing to end. -/
def TrapFrameState.Idle (f : TrapFrameState) : Prop :=
  f.masterOwed = ∅ ∧ f.slaveOwed = ∅

/-- The controllers serve exactly what the running dispatcher still has to
end, and nothing while interrupts are on. -/
structure Served (s : TrapState α) : Prop where
  ready : PicsReady s.pics
  master : s.pics.master.service = s.running.masterOwed
  slave : s.pics.slave.service = s.running.slaveOwed
  enabled : s.intFlag = true → ∀ f ∈ s.running.head?, f.Idle
  below : ∀ f ∈ s.running.tail, f.Idle
  waiting : ∀ stack ∈ s.waiting, ∀ f ∈ stack, f.Idle
  /-- a vector of the slave is one that gets it its end of interrupt -/
  vector : ∀ f ∈ s.running.head?, f.trapno < 40 → f.slaveOwed = ∅

namespace TrapFrameState

variable {f : TrapFrameState}

theorem Ordinary.idle (h : f.Ordinary) : f.Idle := by
  rw [Ordinary] at h
  constructor
  · simp [masterOwed, h]
  · simp [slaveOwed, h]

theorem idle_of_stage (hentered : f.stage ≠ .entered)
    (hended : f.stage ≠ .slaveEnded) : f.Idle := by
  constructor
  · simp [masterOwed, hentered, hended]
  · simp [slaveOwed, hentered]

end TrapFrameState

namespace TrapStack

variable {stack : TrapStack}

theorem masterOwed_of_idle (h : ∀ f ∈ stack.head?, f.Idle) :
    stack.masterOwed = ∅ := by
  cases stack with
  | nil => rfl
  | cons f rest => exact (h f rfl).1

theorem slaveOwed_of_idle (h : ∀ f ∈ stack.head?, f.Idle) :
    stack.slaveOwed = ∅ := by
  cases stack with
  | nil => rfl
  | cons f rest => exact (h f rfl).2

theorem Ordinary.idle (h : stack.Ordinary) : ∀ f ∈ stack.head?, f.Idle :=
  fun f hf => (h f hf).idle

theorem idle_of_mem (h : ∀ f ∈ stack, f.Idle) : ∀ f ∈ stack.head?, f.Idle :=
  fun f hf => h f (List.mem_of_mem_head? hf)

end TrapStack

/-- A device moves its own request and nothing else. -/
structure MovesRequest (change : Line → Pic → Pic) : Prop where
  ready : ∀ base n p, PicReady base p → PicReady base (change n p)
  service : ∀ n p, (change n p).service = p.service
  others : ∀ n p m, m ≠ n → m ∈ p.request → m ∈ (change n p).request

theorem movesRequest_raise : MovesRequest Pic.raise where
  ready _ _ _ h := ⟨h.stage, h.base, h.autoEoi, h.mask⟩
  service _ _ := rfl
  others _ _ _ _ hmem := Finset.mem_insert_of_mem hmem

theorem movesRequest_lower : MovesRequest Pic.lower where
  ready _ _ _ h := ⟨h.stage, h.base, h.autoEoi, h.mask⟩
  service _ _ := rfl
  others _ _ _ hne hmem := Finset.mem_erase.mpr ⟨hne, hmem⟩

namespace Served

variable {s s' : TrapState α}

theorem start (handlers : Nat → Option α) {pics : Pair}
    (hready : PicsReady pics) (hmaster : pics.master.service = ∅)
    (hslave : pics.slave.service = ∅) :
    Served (TrapState.start handlers pics) := by
  refine ⟨hready, hmaster, hslave, ?_, ?_, ?_, ?_⟩
  · intro hon
    cases hon
  · intro f hf
    cases hf
  · intro stack hstack
    cases hstack
  · intro f hf
    cases hf

theorem boot (handlers : Nat → Option α) (pics : Pair) :
    Served (TrapState.boot handlers pics) := by
  have hready := PicsReady.remap pics
  rw [TrapState.boot]
  rw [picRemap_eq] at hready ⊢
  exact start handlers hready rfl rfl

theorem device {irq : Irq} {change : Line → Pic → Pic} (h : Served s)
    (hmoves : MovesRequest change) (hstep : s.device irq change = some s') :
    Served s' := by
  cases irq with
  | master n =>
      rw [TrapState.device] at hstep
      by_cases hn : n = slaveLine
      · rw [if_pos hn] at hstep
        cases hstep
      · rw [if_neg hn] at hstep
        cases hstep
        have hservice := hmoves.service n s.pics.master
        refine { h with
          ready := h.ready.masterInput (hmoves.ready _ _ _ h.ready.master) ?_
            (hmoves.others _ _ _ (Ne.symm hn))
          master := hservice.trans h.master }
        rw [hservice]
        exact h.ready.masterSingle
  | slave n =>
      cases hstep
      have hservice := hmoves.service n s.pics.slave
      refine { h with
        ready := h.ready.slaveInput (hmoves.ready _ _ _ h.ready.slave) ?_
        master := (Pair.link_service ..).trans h.master
        slave := ?_ }
      · rw [hservice]
        exact h.ready.slaveSingle
      · rw [Pair.link_slave]
        exact hservice.trans h.slave

theorem nothingServed (h : Served s) (hidle : ∀ f ∈ s.running.head?, f.Idle) :
    s.pics.master.service = ∅ ∧ s.pics.slave.service = ∅ :=
  ⟨h.master.trans (TrapStack.masterOwed_of_idle hidle),
    h.slave.trans (TrapStack.slaveOwed_of_idle hidle)⟩

theorem running_idle (h : Served s) (hidle : ∀ f ∈ s.running.head?, f.Idle) :
    ∀ f ∈ s.running, f.Idle := by
  intro f hf
  rcases hrunning : s.running with _ | ⟨g, rest⟩
  · rw [hrunning] at hf
    cases hf
  · rw [hrunning] at hf hidle
    rcases List.mem_cons.mp hf with rfl | hrest
    · exact hidle f rfl
    · exact h.below f (by rwa [hrunning])

/-- A trap that is taken where nothing is in service owes what it puts there. -/
theorem enter {vector : Nat} {pics : Pair} (h : Served s)
    (hidle : ∀ f ∈ s.running.head?, f.Idle) (hready : PicsReady pics)
    (hflag : (idt (fun _ => 0) vector).trap = true →
      pics.master.service = ∅ ∧ pics.slave.service = ∅)
    (hvector : vector < 40 → pics.slave.service = ∅) :
    Served (s.enter vector pics) := by
  obtain ⟨hmaster, hslave⟩ := h.nothingServed hidle
  refine ⟨hready, ?_, ?_, ?_, ?_, h.waiting, ?_⟩
  · change pics.master.service = pics.master.service \ s.pics.master.service
    rw [hmaster, Finset.sdiff_empty]
  · change pics.slave.service = pics.slave.service \ s.pics.slave.service
    rw [hslave, Finset.sdiff_empty]
  · intro hon f hf
    obtain rfl := Option.some.inj hf
    have hboth := hflag (Bool.and_eq_true .. ▸ hon : _ ∧ _).2
    constructor
    · change pics.master.service \ _ = ∅
      rw [hboth.1, Finset.empty_sdiff]
    · change pics.slave.service \ _ = ∅
      rw [hboth.2, Finset.empty_sdiff]
  · exact h.running_idle hidle
  · intro f hf hlow
    obtain rfl := Option.some.inj hf
    change pics.slave.service \ _ = ∅
    rw [hvector hlow, Finset.empty_sdiff]

theorem interrupt (h : Served s) (hon : s.intFlag = true) :
    Served (s.enter (s.pics.acknowledge slaveLine).2
      (s.pics.acknowledge slaveLine).1) := by
  have hidle := h.enabled hon
  obtain ⟨hmaster, hslave⟩ := h.nothingServed hidle
  have hmasterBase : s.pics.master.base.toNat = 0x20 :=
    congrArg BitVec.toNat h.ready.master.base
  have hslaveBase : s.pics.slave.base.toNat = 0x28 :=
    congrArg BitVec.toNat h.ready.slave.base
  have hmasterAnswer := s.pics.master.answer.isLt
  have hslaveAnswer := s.pics.slave.answer.isLt
  apply h.enter hidle (h.ready.acknowledge hmaster hslave)
  · intro htrap
    have hvector : (s.pics.acknowledge slaveLine).2 = irqSyscall :=
      of_decide_eq_true htrap
    rw [Pair.acknowledge] at hvector
    split at hvector
    · simp only [Pic.vector, irqSyscall] at hvector
      omega
    · simp only [Pic.vector, irqSyscall] at hvector
      omega
  · rw [Pair.acknowledge]
    split
    · intro hlow
      simp only [Pic.vector] at hlow
      omega
    · exact fun _ => hslave

theorem trap {vector : Nat} (h : Served s) (hordinary : s.running.Ordinary) :
    Served (s.enter vector s.pics) := by
  have hidle := hordinary.idle
  have hnone := h.nothingServed hidle
  exact h.enter hidle h.ready (fun _ => hnone) (fun _ => hnone.2)

/-- The dispatcher goes on to `stage`. -/
theorem atStage {f : TrapFrameState} {rest : TrapStack} {pics : Pair}
    {stage : DispatchStage} {calls : List (Nat × α)} (h : Served s)
    (hrunning : s.running = f :: rest) (hready : PicsReady pics)
    (hmaster : pics.master.service = { f with stage := stage }.masterOwed)
    (hslave : pics.slave.service = { f with stage := stage }.slaveOwed)
    (hidle : f.Idle → { f with stage := stage }.Idle)
    (hvector : f.slaveOwed = ∅ → { f with stage := stage }.slaveOwed = ∅) :
    Served (TrapState.atStage f rest stage
      { s with pics := pics, calls := calls }) where
  ready := hready
  master := hmaster
  slave := hslave
  enabled hon g hg := by
    obtain rfl := Option.some.inj hg
    exact hidle (h.enabled hon f (by rw [hrunning]; rfl))
  below g hg := h.below g (by rwa [hrunning])
  waiting := h.waiting
  vector g hg hlow := by
    obtain rfl := Option.some.inj hg
    exact hvector (h.vector f (by rw [hrunning]; rfl) hlow)

/-- The dispatcher ends what its frame owes. -/
theorem dispatch {f : TrapFrameState} {rest : TrapStack} (h : Served s)
    (hrunning : s.running = f :: rest) (hstep : s.dispatch f rest = some s') :
    Served s' := by
  have hmaster : s.pics.master.service = f.masterOwed := by
    rw [h.master, hrunning]
    rfl
  have hslave : s.pics.slave.service = f.slaveOwed := by
    rw [h.slave, hrunning]
    rfl
  have hvector : f.trapno < 40 → f.slaveOwed = ∅ :=
    h.vector f (by rw [hrunning]; rfl)
  -- behind the two commands nothing is owed
  have hbehind : f.stage = .ended → ∀ {stage} {calls : List (Nat × α)},
      stage ≠ .entered → stage ≠ .slaveEnded → Served (TrapState.atStage f rest
        stage { s with calls := calls }) := by
    intro hended stage calls hentered hslaveEnded
    have hidle : { f with stage := stage }.Idle :=
      TrapFrameState.idle_of_stage hentered hslaveEnded
    have hidle' : f.Idle := TrapFrameState.idle_of_stage
      (by rw [hended]; decide) (by rw [hended]; decide)
    exact h.atStage hrunning h.ready (hmaster.trans (hidle'.1.trans hidle.1.symm))
      (hslave.trans (hidle'.2.trans hidle.2.symm)) (fun _ => hidle)
      (fun _ => hidle.2)
  rw [TrapState.dispatch] at hstep
  cases hstage : f.stage with
  | entered =>
      simp only [hstage] at hstep
      have howed : { f with stage := .slaveEnded }.masterOwed = f.masterOwed := by
        simp [TrapFrameState.masterOwed, hstage]
      have hnone : { f with stage := .slaveEnded }.slaveOwed = ∅ := by
        simp [TrapFrameState.slaveOwed]
      by_cases hhigh : 40 ≤ f.trapno
      · rw [if_pos hhigh] at hstep
        cases hstep
        apply h.atStage hrunning h.ready.slaveEoi
        · rw [outb_slaveEoi, Pair.link_service]
          exact hmaster.trans howed.symm
        · rw [outb_slaveEoi, Pair.link_slave,
            Pic.endOfInterrupt_eq h.ready.slaveSingle]
          exact hnone.symm
        · exact fun hidle => ⟨howed.trans hidle.1, hnone⟩
        · exact fun _ => hnone
      · rw [if_neg hhigh] at hstep
        cases hstep
        apply h.atStage hrunning h.ready
        · exact hmaster.trans howed.symm
        · exact (hslave.trans (hvector (by omega))).trans hnone.symm
        · exact fun hidle => ⟨howed.trans hidle.1, hnone⟩
        · exact fun _ => hnone
  | slaveEnded =>
      simp only [hstage] at hstep
      cases hstep
      have hidle : { f with stage := .ended }.Idle :=
        TrapFrameState.idle_of_stage (by simp) (by simp)
      apply h.atStage hrunning h.ready.masterEoi
      · rw [outb_masterEoi, Pic.endOfInterrupt_eq h.ready.masterSingle]
        exact hidle.1.symm
      · have hnone : f.slaveOwed = ∅ := by
          simp [TrapFrameState.slaveOwed, hstage]
        exact hslave.trans (hnone.trans hidle.2.symm)
      · exact fun _ => hidle
      · exact fun _ => hidle.2
  | ended =>
      simp only [hstage] at hstep
      by_cases hirq7 : f.trapno = irq7
      · rw [if_pos hirq7] at hstep
        cases hstep
        exact hbehind hstage (by decide) (by decide)
      · rw [if_neg hirq7] at hstep
        cases hhandler : s.handlers f.trapno with
        | none =>
            simp only [hhandler] at hstep
            cases hstep
            exact hbehind hstage (by decide) (by decide)
        | some handler =>
            simp only [hhandler] at hstep
            cases hstep
            exact hbehind hstage (by decide) (by decide)
  | handling =>
      simp only [hstage] at hstep
      cases hstep
  | returned =>
      simp only [hstage] at hstep
      cases hstep
  | panicked =>
      simp only [hstage] at hstep
      cases hstep

/-- The processor goes to a stack that owes nothing. -/
theorem moveTo {stack : TrapStack} {flag : Bool} {waiting : List TrapStack}
    (h : Served s) (hidle : ∀ f ∈ s.running.head?, f.Idle)
    (hstack : ∀ f ∈ stack, f.Idle)
    (hwaiting : ∀ other ∈ waiting, ∀ f ∈ other, f.Idle) :
    Served { s with intFlag := flag, running := stack, waiting := waiting } where
  ready := h.ready
  master := (h.nothingServed hidle).1.trans
    (TrapStack.masterOwed_of_idle (TrapStack.idle_of_mem hstack)).symm
  slave := (h.nothingServed hidle).2.trans
    (TrapStack.slaveOwed_of_idle (TrapStack.idle_of_mem hstack)).symm
  enabled := fun _ => TrapStack.idle_of_mem hstack
  below f hf := hstack f (List.mem_of_mem_tail hf)
  waiting := hwaiting
  vector f hf := fun _ => (TrapStack.idle_of_mem hstack f hf).2

/-- One step of whatever is running, or of a device. -/
theorem step {event : TrapEvent} (h : Served s)
    (hstep : TrapState.step event s = some s') : Served s' := by
  cases event with
  | raise irq => exact h.device movesRequest_raise hstep
  | lower irq => exact h.device movesRequest_lower hstep
  | interrupt =>
      rw [TrapState.step] at hstep
      by_cases hon : s.intFlag = true
      · rw [if_pos hon] at hstep
        cases hstep
        exact h.interrupt hon
      · rw [if_neg hon] at hstep
        cases hstep
  | trap vector =>
      rw [TrapState.step] at hstep
      by_cases hcan : s.running.Ordinary ∧ (vector < 32 ∨ vector = irqSyscall)
      · rw [if_pos hcan] at hstep
        cases hstep
        exact h.trap hcan.1
      · rw [if_neg hcan] at hstep
        cases hstep
  | dispatch =>
      rw [TrapState.step] at hstep
      cases hrunning : s.running with
      | nil =>
          rw [hrunning] at hstep
          cases hstep
      | cons f rest =>
          rw [hrunning] at hstep
          exact h.dispatch hrunning hstep
  | setFlag flag =>
      rw [TrapState.step] at hstep
      by_cases hcan : ∀ f ∈ s.running.head?,
          f.stage = .handling ∨ f.stage = .panicked
      · rw [if_pos hcan] at hstep
        cases hstep
        refine { h with enabled := fun _ f hf => ?_ }
        rcases hcan f hf with hstage | hstage
        · exact TrapFrameState.idle_of_stage (by rw [hstage]; decide)
            (by rw [hstage]; decide)
        · exact TrapFrameState.idle_of_stage (by rw [hstage]; decide)
            (by rw [hstage]; decide)
      · rw [if_neg hcan] at hstep
        cases hstep
  | iret =>
      rw [TrapState.step] at hstep
      cases hrunning : s.running with
      | nil =>
          rw [hrunning] at hstep
          cases hstep
      | cons f rest =>
          simp only [hrunning] at hstep
          by_cases hcan : f.stage = .handling ∨ f.stage = .returned
          · rw [if_pos hcan] at hstep
            cases hstep
            have hidle : f.Idle := by
              rcases hcan with hstage | hstage <;>
                exact TrapFrameState.idle_of_stage (by rw [hstage]; decide)
                  (by rw [hstage]; decide)
            have hbelow : ∀ g ∈ rest, g.Idle :=
              fun g hg => h.below g (by rwa [hrunning])
            apply h.moveTo _ hbelow h.waiting
            rw [hrunning]
            rintro g ⟨⟩
            exact hidle
          · rw [if_neg hcan] at hstep
            cases hstep
  | switch stack =>
      rw [TrapState.step] at hstep
      by_cases hcan : s.running.Ordinary ∧ stack ∈ s.waiting
      · rw [if_pos hcan] at hstep
        cases hstep
        apply h.moveTo hcan.1.idle (h.waiting stack hcan.2)
        intro other hother
        rcases List.mem_cons.mp hother with rfl | hother
        · exact h.running_idle hcan.1.idle
        · exact h.waiting other (List.mem_of_mem_erase hother)
      · rw [if_neg hcan] at hstep
        cases hstep
  | create trapno intFlag =>
      rw [TrapState.step] at hstep
      by_cases hcan : s.running.Ordinary
      · rw [if_pos hcan] at hstep
        cases hstep
        refine { h with waiting := fun stack hstack => ?_ }
        rcases List.mem_cons.mp hstack with rfl | hstack
        · intro f hf
          obtain rfl := List.mem_singleton.mp hf
          exact TrapFrameState.Ordinary.idle rfl
        · exact h.waiting stack hstack
      · rw [if_neg hcan] at hstep
        cases hstep

end Served

theorem reachable_of_run {handlers : Nat → Option α} (events : List TrapEvent)
    {s s' : TrapState α} (hs : s.Reachable handlers)
    (hrun : TrapState.run events s = some s') : s'.Reachable handlers := by
  induction events generalizing s with
  | nil =>
      cases hrun
      exact hs
  | cons event events ih =>
      obtain ⟨next, hstep, hrest⟩ := Option.bind_eq_some_iff.mp hrun
      obtain ⟨pics, hbefore⟩ := hs
      exact ih ⟨pics, hbefore.tail ⟨event, hstep⟩⟩ hrest

theorem TrapState.boot_reachable (handlers : Nat → Option α) (pics : Pair) :
    (boot handlers pics).Reachable handlers :=
  ⟨pics, .refl⟩

/-- In every run the controllers serve exactly what the running dispatcher has
still to end. -/
theorem served_of_reachable (handlers : Nat → Option α) (s : TrapState α)
    (h : s.Reachable handlers) : Served s := by
  obtain ⟨pics, hrun⟩ := h
  induction hrun with
  | refl => exact Served.boot handlers pics
  | tail _ hstep ih =>
      obtain ⟨event, hstep⟩ := hstep
      exact ih.step hstep

/-- The controllers as a firmware may leave them, with a request in service. -/
def firmwarePics : Pair where
  master := { remapped 0x08 4 with service := linesOf 0x01, mask := linesOf 0x12 }
  slave := remapped 0x70 2

/-- The line of the timer at the master, that of the disk at the slave. -/
def timerLine : Line := ⟨0, by decide⟩
def diskLine : Line := ⟨6, by decide⟩

/-- The timer interrupts before the disk does. -/
def timerBeforeDisk : List TrapEvent :=
  [.setFlag true, .raise (.slave diskLine), .raise (.master timerLine), .interrupt,
    .dispatch, .dispatch, .dispatch, .iret, .interrupt]

theorem served_timerBeforeDisk : ∃ s : TrapState Nat,
    TrapState.run timerBeforeDisk
      (TrapState.boot (fun v => some v) firmwarePics) = some s ∧
      s.pics.slave.service = {diskLine} ∧ Served s :=
  ⟨_, rfl, by decide, served_of_reachable (fun v => some v) _
    (reachable_of_run timerBeforeDisk (TrapState.boot_reachable _ firmwarePics)
      rfl)⟩

end Linda
