/-
The scheduler and its lock on one processor: scheduler.c, spinlock.c, forkret
of process.c and the timer handler, one micro-operation at a time.  A stack is
the list of operations still to be done on it; switching contexts exchanges
such lists, and an interrupt puts its handler in front of the running one.
-/
import Mathlib.Tactic.Common

namespace Linda

/-- `enum pstate`. -/
inductive PState where
  | unused
  | embryo
  | runable
  | running
  | sleeping
  | zombie
deriving Repr, DecidableEq

/-- `NPROC` -/
def nproc : Nat := 64

/-- How the scheduler and the lock stop; `nullProcess` is a `NULL`
`curprocess` used as a process. -/
inductive SchedHalt where
  | acquireLocked
  | releaseUnlocked
  | popcliEnabled
  | popcliNoCli
  | notHolding
  | schedLocks
  | schedInterruptible
  | schedRunning
  | noStack
  | noPgdir
  | nullProcess
deriving Repr, DecidableEq

/-- The panic messages, their arguments filled in for `ptable.lock`. -/
def SchedHalt.text (ncli : Int) : SchedHalt → String
  | .acquireLocked => "acquire: ptable is locked!\n"
  | .releaseUnlocked => "release: ptable lock is not locked!\n"
  | .popcliEnabled => "popcli: interrupt has enable!\n"
  | .popcliNoCli => "popcli: no cli!\n"
  | .notHolding => "goto_scheduler: ptable is locked\n"
  | .schedLocks => "goto_scheduler: sched locks, ncli:" ++ toString ncli ++ "\n"
  | .schedInterruptible => "goto_scheduler: sched interruptible\n"
  | .schedRunning => "goto_scheduler: process is running\n"
  | .noStack => "switch_to_uvm : no stack\n"
  | .noPgdir => "switch_to_uvm : no pgdir\n"
  | .nullProcess => ""

/-- The micro-operations.  A local variable of the source is an argument of
the operations that use it. -/
inductive Op where
  | pushcli
  | cli (eflags : Bool)
  | count (eflags : Bool)
  | popcli
  | uncount
  | sti
  | acquireTest
  | acquireXchg
  | releaseTest
  | releaseClear
  | schedulerLoop
  | scan (proc : Nat)
  | setCurprocess (proc : Nat)
  | setRunning (proc : Nat)
  | switchUvm (proc : Nat)
  | switchIn (proc : Nat)
  | switchKvm
  | yieldState
  | gotoScheduler
  | testHolding
  | testNcli
  | testFlags
  | testState (proc : Option Nat)
  | saveIntena (proc : Option Nat)
  | switchOut (proc : Option Nat)
  | restoreIntena (intena : Bool)
  | timerHandler
  | iret (eflags : Bool)
  /-- kernel code of a trap that leaves `ncli` balanced -/
  | service
  /-- the process in user mode -/
  | user
deriving Repr, DecidableEq

/-- `curcpu`, `ptable` and the interrupt flag; `control` is the running
stack. -/
structure Machine where
  intFlag : Bool
  ncli : Int
  intena : Bool
  curprocess : Option Nat
  locked : Bool
  pstate : Nat → PState
  context : Nat → List Op
  kstack : Nat → Nat
  pgdir : Nat → Nat
  scheduler : List Op
  control : List Op

def acquire : List Op := [.pushcli, .acquireTest, .acquireXchg]

def release : List Op := [.releaseTest, .releaseClear, .popcli]

/-- `switch_to_uvm`; the loads between its `pushcli` and `popcli` touch
nothing modelled here. -/
def switchToUvm (proc : Nat) : List Op := [.switchUvm proc, .pushcli, .popcli]

/-- The body of the loop of `scheduler` for a process that is `RUNABLE`. -/
def dispatch (proc : Nat) : List Op :=
  [.setCurprocess proc, .setRunning proc] ++ switchToUvm proc ++
    [.switchIn proc, .switchKvm]

def yieldCpu : List Op := acquire ++ [.yieldState, .gotoScheduler] ++ release

def forkret : List Op := release

/-- What `alloc_process` leaves in `context`: `forkret`, then `trapret` into
user mode with interrupts enabled. -/
def freshContext : List Op := forkret ++ [.iret true, .user]

/-- What the outside decides at a step. -/
inductive Choice where
  /-- the next operation; user code keeps computing, trap code returns -/
  | run
  /-- the timer, delivered if interrupts are enabled -/
  | timer
  /-- user code traps, through a gate that keeps or clears the flag -/
  | trap (keep : Bool)
  /-- trap code takes a lock around code of its kind -/
  | nest
  /-- a new process becomes `RUNABLE` -/
  | create (proc : Nat)
deriving Repr, DecidableEq

def setState (pstate : Nat → PState) (proc : Nat) (state : PState) :
    Nat → PState := fun i => if i = proc then state else pstate i

def setContext (context : Nat → List Op) (proc : Nat) (stack : List Op) :
    Nat → List Op := fun i => if i = proc then stack else context i

/-- One operation, `rest` behind it on the stack. -/
def exec (choice : Choice) (m : Machine) (rest : List Op) :
    Op → Except SchedHalt Machine
  | .pushcli =>
      .ok { m with control := .cli m.intFlag :: .count m.intFlag :: rest }
  | .cli _ => .ok { m with intFlag := false, control := rest }
  | .count eflags => .ok { m with
      intena := if m.ncli = 0 then eflags else m.intena
      ncli := m.ncli + 1
      control := rest }
  | .popcli =>
      if m.intFlag then .error .popcliEnabled
      else .ok { m with control := .uncount :: .sti :: rest }
  | .uncount =>
      if m.ncli - 1 < 0 then .error .popcliNoCli
      else .ok { m with ncli := m.ncli - 1, control := rest }
  | .sti => .ok { m with
      intFlag := m.intFlag || (m.ncli = 0 && m.intena), control := rest }
  | .acquireTest =>
      if m.locked then .error .acquireLocked
      else .ok { m with control := rest }
  | .acquireXchg =>
      if m.locked then .ok m else .ok { m with locked := true, control := rest }
  | .releaseTest =>
      if m.locked then .ok { m with control := rest }
      else .error .releaseUnlocked
  | .releaseClear => .ok { m with locked := false, control := rest }
  | .schedulerLoop => .ok { m with control := acquire ++ .scan 0 :: rest }
  | .scan proc =>
      if nproc ≤ proc then
        .ok { m with control := release ++ .schedulerLoop :: rest }
      else if m.pstate proc ≠ .runable then
        .ok { m with control := .scan (proc + 1) :: rest }
      else .ok { m with
        control := dispatch proc ++ .scan (proc + 1) :: rest }
  | .setCurprocess proc =>
      .ok { m with curprocess := some proc, control := rest }
  | .setRunning proc => .ok { m with
      pstate := setState m.pstate proc .running, control := rest }
  | .switchUvm proc =>
      if m.kstack proc = 0 then .error .noStack
      else if m.pgdir proc = 0 then .error .noPgdir
      else .ok { m with control := rest }
  | .switchIn proc =>
      .ok { m with scheduler := rest, control := m.context proc }
  | .switchKvm => .ok { m with control := rest }
  | .yieldState =>
      match m.curprocess with
      | some proc => .ok { m with
          pstate := setState m.pstate proc .runable, control := rest }
      | none => .error .nullProcess
  | .gotoScheduler => .ok { m with
      control := .testHolding :: .testNcli :: .testFlags ::
        .testState m.curprocess :: .saveIntena m.curprocess :: rest }
  | .testHolding =>
      if m.locked then .ok { m with control := rest } else .error .notHolding
  | .testNcli =>
      if m.ncli ≠ 1 then .error .schedLocks else .ok { m with control := rest }
  | .testFlags =>
      if m.intFlag then .error .schedInterruptible
      else .ok { m with control := rest }
  | .testState (some proc) =>
      if m.pstate proc = .running then .error .schedRunning
      else .ok { m with control := rest }
  | .testState none => .error .nullProcess
  | .saveIntena proc =>
      .ok { m with control := .switchOut proc :: .restoreIntena m.intena :: rest }
  | .switchOut (some proc) => .ok { m with
      context := setContext m.context proc rest, control := m.scheduler }
  | .switchOut none => .error .nullProcess
  | .restoreIntena intena => .ok { m with intena := intena, control := rest }
  | .timerHandler =>
      match m.curprocess with
      | some proc =>
          if m.pstate proc = .running then
            .ok { m with control := yieldCpu ++ rest }
          else .ok { m with control := rest }
      | none => .ok { m with control := rest }
  | .iret eflags => .ok { m with intFlag := eflags, control := rest }
  | .service =>
      match choice with
      | .nest => .ok { m with
          control := .pushcli :: .service :: .popcli :: .service :: rest }
      | _ => .ok { m with control := rest }
  | .user =>
      match choice with
      | .trap keep => .ok { m with
          intFlag := m.intFlag && keep
          control := .service :: .iret m.intFlag :: .user :: rest }
      | _ => .ok m

def step (choice : Choice) (m : Machine) : Except SchedHalt Machine :=
  match choice with
  | .timer =>
      if m.intFlag then .ok { m with
        intFlag := false, control := .timerHandler :: .iret true :: m.control }
      else .ok m
  | .create proc =>
      if m.pstate proc = .unused ∨ m.pstate proc = .embryo then .ok { m with
        pstate := setState m.pstate proc .runable
        context := setContext m.context proc freshContext }
      else .ok m
  | _ =>
      match m.control with
      | op :: rest => exec choice m rest op
      | [] => .ok m

/-- The choices that execute an operation of the running stack. -/
def Choice.executes : Choice → Bool
  | .timer | .create _ => false
  | _ => true

/-- The boot thread enters `scheduler`, no process having run. -/
structure Machine.Boot (m : Machine) : Prop where
  control : m.control = [.schedulerLoop]
  ncli : m.ncli = 0
  unlocked : m.locked = false
  curprocess : m.curprocess = none
  notRunning : ∀ i, m.pstate i ≠ .running
  fresh : ∀ i, m.pstate i = .runable → m.context i = freshContext

/-- One step of a run that does not stop. -/
def Steps (m m' : Machine) : Prop := ∃ choice, step choice m = .ok m'

def runChoices : List Choice → Machine → Except SchedHalt Machine
  | [], m => .ok m
  | choice :: choices, m =>
      match step choice m with
      | .ok m' => runChoices choices m'
      | .error why => .error why

/-- The operations that exchange stacks. -/
def Op.switches : Op → Bool
  | .switchIn _ => true
  | .switchOut _ => true
  | _ => false

/-- The guarantees of the hand-off, in one state. -/
structure HandOff (m : Machine) : Prop where
  running : ∀ i, m.pstate i = .running → m.curprocess = some i
  oneRunning : ∀ i j, m.pstate i = .running → m.pstate j = .running → i = j
  userFree : m.control.head? = some .user → m.locked = false ∧ m.ncli = 0
  disabled : 0 < m.ncli ∨ m.locked = true → m.intFlag = false
  switching : ∀ op, m.control.head? = some op → op.switches = true →
    m.locked = true ∧ m.ncli = 1
  noPanic : ∀ choice why, step choice m = .error why →
    why = .noStack ∨ why = .noPgdir

end Linda
