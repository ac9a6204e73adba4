/-
The invariant of the hand-off.  Every stack, running or suspended, is typed:
each operation on it names what it needs of the processor when its turn comes,
and what it leaves.  A suspended stack is typed for the moment a switch
resumes it, with the lock held and one `pushcli` open.
-/
import Linda.Scheduler
import Mathlib.Logic.Relation

namespace Linda

/-- Where a dispatch or a yield stands. -/
inductive Phase where
  /-- no process is `RUNNING` -/
  | idle
  /-- the scheduler has found a `RUNABLE` process -/
  | chosen (proc : Nat)
  /-- and made it `curprocess` -/
  | named (proc : Nat)
  /-- the process is `RUNNING` -/
  | active (proc : Nat)
  /-- the process is `RUNABLE` again and still on its stack -/
  | yielded (proc : Nat)
deriving Repr, DecidableEq

/-- What a typing knows of the processor; `off` is that interrupts are. -/
structure Abs where
  ncli : Nat
  locked : Bool
  off : Bool
  phase : Phase
deriving Repr, DecidableEq

/-- The phase of a stack outside the lock: `none` is the scheduler's. -/
def homePhase : Option Nat → Phase
  | none => .idle
  | some proc => .active proc

/-- Nothing is held, interrupts may be on. -/
def Abs.Open (a : Abs) (stack : Option Nat) : Prop :=
  a.ncli = 0 ∧ a.locked = false ∧ a.phase = homePhase stack

/-- The processor at a switch. -/
def handing (phase : Phase) : Abs := ⟨1, true, true, phase⟩

/-- What an operation needs on `stack`. -/
def Op.Pre (stack : Option Nat) (a : Abs) : Op → Prop
  | .count _ => a.off = true
  | .popcli => 0 < a.ncli ∧
      (a.ncli = 1 → a.locked = false ∧ a.phase = homePhase stack)
  | .uncount => 0 < a.ncli ∧ a.off = true
  | .sti => a.off = true ∧ (a.ncli = 0 → a.Open stack)
  | .acquireTest | .acquireXchg => a.locked = false ∧ a.off = true
  | .releaseTest => a.locked = true
  | .releaseClear => a.off = true
  | .schedulerLoop => stack = none ∧ a.Open stack
  | .scan _ => stack = none ∧ a = handing .idle
  | .setCurprocess proc => stack = none ∧ a = handing (.chosen proc)
  | .setRunning proc => stack = none ∧ a = handing (.named proc)
  | .switchIn proc => stack = none ∧ a = handing (.active proc)
  | .yieldState => ∃ proc, stack = some proc ∧ a = handing (.active proc)
  | .gotoScheduler => ∃ proc, stack = some proc ∧ a = handing (.yielded proc)
  | .testHolding => a.locked = true
  | .testNcli => a.ncli = 1
  | .testFlags => a.off = true
  | .testState proc => ∃ p, proc = some p ∧ a.phase = .yielded p
  | .saveIntena proc | .switchOut proc =>
      stack = proc ∧ ∃ p, proc = some p ∧ a = handing (.yielded p)
  | .timerHandler => a.Open stack ∧ a.off = true
  | .iret _ => a.Open stack
  | .service => a.ncli = 0 → a.Open stack
  | .user => (∃ proc, stack = some proc) ∧ a.Open stack
  | _ => True

/-- What it leaves. -/
def Op.post (stack : Option Nat) (a : Abs) : Op → Abs
  | .pushcli => { a with ncli := a.ncli + 1, off := true }
  | .cli _ => { a with off := true }
  | .count _ => { a with ncli := a.ncli + 1 }
  | .popcli => { a with ncli := a.ncli - 1, off := 1 < a.ncli }
  | .uncount => { a with ncli := a.ncli - 1 }
  | .sti | .service => { a with off := 0 < a.ncli }
  | .acquireXchg => { a with locked := true }
  | .releaseClear => { a with locked := false }
  | .setCurprocess proc => { a with phase := .named proc }
  | .setRunning proc => { a with phase := .active proc }
  | .switchIn _ => { a with phase := .idle }
  | .yieldState =>
      { a with phase := stack.elim a.phase fun proc => .yielded proc }
  | .gotoScheduler | .saveIntena _ | .switchOut _ =>
      { a with phase := homePhase stack }
  | .timerHandler | .iret _ => { a with off := false }
  | _ => a

/-- The operations at the bottom of a stack. -/
def Op.bottom : Op → Bool
  | .schedulerLoop | .scan _ | .user => true
  | _ => false

/-- The stack runs to its bottom from a processor that is as `a` says. -/
def Typed (stack : Option Nat) : List Op → Abs → Prop
  | [], _ => False
  | op :: rest, a => op.Pre stack a ∧
      if op.bottom then rest = [] else Typed stack rest (op.post stack a)

def Phase.Holds (m : Machine) : Phase → Prop
  | .idle => ∀ i, m.pstate i ≠ .running
  | .chosen proc => (∀ i, m.pstate i ≠ .running) ∧ m.pstate proc = .runable
  | .named proc => (∀ i, m.pstate i ≠ .running) ∧ m.pstate proc = .runable ∧
      m.curprocess = some proc
  | .active proc => (∀ i, m.pstate i = .running ↔ i = proc) ∧
      m.curprocess = some proc
  | .yielded proc => (∀ i, m.pstate i ≠ .running) ∧ m.curprocess = some proc

/-- The processor is as `a` says. -/
structure Agrees (stack : Option Nat) (a : Abs) (m : Machine) : Prop where
  ncli : m.ncli = a.ncli
  locked : m.locked = a.locked
  off : a.off = true → m.intFlag = false
  opened : a.off = false → a.Open stack
  phase : a.phase.Holds m

structure Valid (m : Machine) (stack : Option Nat) (a : Abs) : Prop where
  agrees : Agrees stack a m
  control : Typed stack m.control a
  scheduler : stack ≠ none → Typed none m.scheduler (handing .idle)
  ready : ∀ i, stack ≠ some i →
    (m.pstate i = .runable ∨ a.phase = .active i) →
    Typed (some i) (m.context i) (handing (.active i))

/-- A step keeps the invariant or stops for want of a stack or directory. -/
def Progress : Except SchedHalt Machine → Prop
  | .ok m' => ∃ stack a, Valid m' stack a
  | .error why => why = .noStack ∨ why = .noPgdir

/-- The same, on the stack that runs then. -/
def ProgressOn (stack : Option Nat) : Except SchedHalt Machine → Prop
  | .ok m' => ∃ a, Valid m' stack a
  | .error why => why = .noStack ∨ why = .noPgdir

/-- Whose stack runs after an operation. -/
def Op.thread (stack : Option Nat) : Op → Option Nat
  | .switchIn proc => some proc
  | .switchOut _ => none
  | _ => stack

section Typing

variable {stack : Option Nat} {a : Abs} {op : Op} {rest : List Op}

theorem typed_cons (hop : op.bottom = false) :
    Typed stack (op :: rest) a ↔
      op.Pre stack a ∧ Typed stack rest (op.post stack a) := by
  simp [Typed, hop]

theorem typed_bottom (hop : op.bottom = true) :
    Typed stack (op :: rest) a ↔ op.Pre stack a ∧ rest = [] := by
  simp [Typed, hop]

/-- `acquire` is typed where the lock is free and leaves it held. -/
theorem typed_acquire (hfree : a.locked = false)
    (hrest : Typed stack rest ⟨a.ncli + 1, true, true, a.phase⟩) :
    Typed stack (acquire ++ rest) a := by
  simp only [acquire, List.cons_append, List.nil_append, Typed, Op.Pre,
    Op.post, Op.bottom, hfree, Bool.false_eq_true, ↓reduceIte, true_and]
  exact hrest

/-- `release` ends a section opened by one `pushcli`. -/
theorem typed_release {phase : Phase} (hhome : phase = homePhase stack)
    (hrest : Typed stack rest ⟨0, false, false, phase⟩) :
    Typed stack (release ++ rest) (handing phase) := by
  simp only [release, handing, List.cons_append, List.nil_append, Typed,
    Op.Pre, Op.post, Op.bottom, Bool.false_eq_true, ↓reduceIte, true_and]
  exact ⟨⟨Nat.one_pos, fun _ => hhome⟩, hrest⟩

theorem typed_yieldCpu {proc : Nat}
    (hrest : Typed (some proc) rest ⟨0, false, false, .active proc⟩)
    (hopen : a.Open (some proc)) :
    Typed (some proc) (yieldCpu ++ rest) a := by
  obtain ⟨hncli, hfree, hphase⟩ := hopen
  rw [yieldCpu, List.append_assoc, List.append_assoc]
  refine typed_acquire hfree ?_
  rw [hncli, hphase]
  exact ⟨⟨proc, rfl, rfl⟩, ⟨proc, rfl, rfl⟩, typed_release rfl hrest⟩

theorem typed_freshContext (proc : Nat) :
    Typed (some proc) freshContext (handing (.active proc)) := by
  rw [freshContext, forkret]
  refine typed_release rfl ⟨⟨rfl, rfl, rfl⟩, ⟨⟨proc, rfl⟩, rfl, rfl, rfl⟩, ?_⟩
  simp [Op.bottom]

end Typing

section Steps

variable {m : Machine} {stack : Option Nat} {a : Abs} {op : Op}
  {rest : List Op}

theorem ProgressOn.progress {result : Except SchedHalt Machine}
    (h : ProgressOn stack result) : Progress result := by
  cases result with
  | ok m' => exact ⟨stack, h⟩
  | error why => exact h

/-- The running stack goes on; states and suspended stacks are as before. -/
theorem Valid.proceed {m' : Machine} (h : Valid m stack a) (a' : Abs)
    (hcontext : m'.context = m.context) (hscheduler : m'.scheduler = m.scheduler)
    (hpstate : m'.pstate = m.pstate) (hcurprocess : m'.curprocess = m.curprocess)
    (hphase : a'.phase = a.phase) (hncli : m'.ncli = a'.ncli)
    (hlocked : m'.locked = a'.locked)
    (hoff : a'.off = true → m'.intFlag = false)
    (hopened : a'.off = false → a'.Open stack)
    (hcontrol : Typed stack m'.control a') : Valid m' stack a' where
  agrees := by
    refine ⟨hncli, hlocked, hoff, hopened, ?_⟩
    have hholds := h.agrees.phase
    rw [hphase]
    cases hp : a.phase <;> rw [hp] at hholds <;>
      simpa only [Phase.Holds, hpstate, hcurprocess] using hholds
  control := hcontrol
  scheduler hstack := by
    rw [hscheduler]
    exact h.scheduler hstack
  ready i hi hready := by
    rw [hcontext]
    rw [hpstate, hphase] at hready
    exact h.ready i hi hready

theorem Valid.typed_rest (h : Valid m stack a) (hcontrol : m.control = op :: rest)
    (hop : op.bottom = false) :
    op.Pre stack a ∧ Typed stack rest (op.post stack a) := by
  have htyped := h.control
  rw [hcontrol] at htyped
  exact (typed_cons hop).mp htyped

theorem Valid.typed_last (h : Valid m stack a) (hcontrol : m.control = op :: rest)
    (hop : op.bottom = true) : op.Pre stack a ∧ rest = [] := by
  have htyped := h.control
  rw [hcontrol] at htyped
  exact (typed_bottom hop).mp htyped

/-- With something held, interrupts are off. -/
theorem Agrees.off_of_held (h : Agrees stack a m)
    (hheld : 0 < a.ncli ∨ a.locked = true) : a.off = true := by
  by_contra hon
  obtain ⟨hncli, hfree, _⟩ := h.opened (by simpa using hon)
  rcases hheld with hpos | hlocked
  · omega
  · rw [hfree] at hlocked
    contradiction

/-- The operations of spinlock.c. -/
theorem exec_pushcli (h : Valid m stack a) (hcontrol : m.control = op :: rest)
    {choice : Choice} (hop : op ∈ [Op.pushcli, .popcli, .uncount, .sti] ∨
      (∃ f, op = .cli f) ∨ ∃ f, op = .count f) :
    ProgressOn (op.thread stack) (exec choice m rest op) := by
  have hagrees := h.agrees
  have hncli := hagrees.ncli
  simp only [List.mem_cons, List.not_mem_nil, or_false] at hop
  rcases hop with (rfl | rfl | rfl | rfl) | ⟨f, rfl⟩ | ⟨f, rfl⟩
  · obtain ⟨_, hrest⟩ := h.typed_rest hcontrol rfl
    exact ⟨a, h.proceed a rfl rfl rfl rfl rfl hncli hagrees.locked
      hagrees.off hagrees.opened ⟨trivial, rfl, hrest⟩⟩
  · obtain ⟨⟨hpos, hlast⟩, hrest⟩ := h.typed_rest hcontrol rfl
    have hoff := hagrees.off_of_held (Or.inl hpos)
    have hpost : Op.post stack (Op.post stack a .uncount) .sti =
        Op.post stack a .popcli := by
      have hflag : 0 < a.ncli - 1 ↔ 1 < a.ncli := by omega
      simp only [Op.post, hflag]
    rw [← hpost] at hrest
    simp only [exec, hagrees.off hoff, Bool.false_eq_true, ↓reduceIte]
    refine ⟨a, h.proceed a rfl rfl rfl rfl rfl hncli hagrees.locked
      (fun _ => rfl) hagrees.opened
      ⟨⟨hpos, hoff⟩, ⟨hoff, fun hzero => ?_⟩, hrest⟩⟩
    have hzero' : a.ncli - 1 = 0 := hzero
    exact ⟨hzero, hlast (by omega)⟩
  · obtain ⟨⟨hpos, hoff⟩, hrest⟩ := h.typed_rest hcontrol rfl
    have hnot : ¬ m.ncli - 1 < 0 := by omega
    simp only [exec, hnot, ↓reduceIte]
    refine ⟨_, h.proceed (Op.post stack a .uncount)
      rfl rfl rfl rfl rfl ?_ hagrees.locked
      hagrees.off ?_ hrest⟩
    · simp only [Op.post]
      omega
    · intro hon
      simp only [Op.post, hoff] at hon
      contradiction
  · obtain ⟨⟨hoff, hlast⟩, hrest⟩ := h.typed_rest hcontrol rfl
    refine ⟨_, h.proceed (Op.post stack a .sti)
      rfl rfl rfl rfl rfl hncli hagrees.locked
      ?_ ?_ hrest⟩
    · intro hpos
      have hne : m.ncli ≠ 0 := by
        have hpos' : 0 < a.ncli := by simpa [Op.post] using hpos
        omega
      simp [hagrees.off hoff, hne]
    · intro hzero
      have hzero' : a.ncli = 0 := by simpa [Op.post] using hzero
      exact hlast hzero'
  · obtain ⟨_, hrest⟩ := h.typed_rest hcontrol rfl
    exact ⟨_, h.proceed (Op.post stack a (.cli f))
      rfl rfl rfl rfl rfl hncli hagrees.locked
      (fun _ => rfl) (fun hon => by simp [Op.post] at hon) hrest⟩
  · obtain ⟨hoff, hrest⟩ := h.typed_rest hcontrol rfl
    have hoff' : a.off = true := hoff
    refine ⟨_, h.proceed (Op.post stack a (.count f))
      rfl rfl rfl rfl rfl ?_ hagrees.locked
      hagrees.off ?_ hrest⟩
    · simp only [Op.post, hncli]
      omega
    · intro hon
      simp only [Op.post, hoff'] at hon
      contradiction

theorem exec_lock (h : Valid m stack a) (hcontrol : m.control = op :: rest)
    {choice : Choice} (hop : op ∈ [Op.acquireTest, .acquireXchg, .releaseTest,
      .releaseClear]) : ProgressOn (op.thread stack) (exec choice m rest op) := by
  have hagrees := h.agrees
  have hncli := hagrees.ncli
  simp only [List.mem_cons, List.not_mem_nil, or_false] at hop
  rcases hop with rfl | rfl | rfl | rfl
  · obtain ⟨⟨hfree, _⟩, hrest⟩ := h.typed_rest hcontrol rfl
    simp only [exec, hagrees.locked, hfree, Bool.false_eq_true, ↓reduceIte]
    exact ⟨a, h.proceed a rfl rfl rfl rfl rfl hncli hfree.symm
      hagrees.off hagrees.opened hrest⟩
  · obtain ⟨⟨hfree, hoff⟩, hrest⟩ := h.typed_rest hcontrol rfl
    simp only [exec, hagrees.locked, hfree, Bool.false_eq_true, ↓reduceIte]
    refine ⟨_, h.proceed (Op.post stack a .acquireXchg)
      rfl rfl rfl rfl rfl hncli rfl hagrees.off ?_
      hrest⟩
    intro hon
    simp only [Op.post, hoff] at hon
    contradiction
  · obtain ⟨hheld, hrest⟩ := h.typed_rest hcontrol rfl
    have hlocked : m.locked = true := hagrees.locked.trans hheld
    simp only [exec, hlocked, ↓reduceIte]
    exact ⟨a, h.proceed a rfl rfl rfl rfl rfl hncli (Eq.symm hheld)
      hagrees.off hagrees.opened hrest⟩
  · obtain ⟨hoff, hrest⟩ := h.typed_rest hcontrol rfl
    have hoff' : a.off = true := hoff
    refine ⟨_, h.proceed (Op.post stack a .releaseClear)
      rfl rfl rfl rfl rfl hncli rfl hagrees.off ?_
      hrest⟩
    intro hon
    simp only [Op.post, hoff'] at hon
    contradiction

/-- The scheduler's own operations, up to its switch. -/
theorem exec_scheduler (h : Valid m stack a) (hcontrol : m.control = op :: rest)
    {choice : Choice} (hop : op = .schedulerLoop ∨ op = .switchKvm ∨
      ∃ proc, op = .scan proc ∨ op = .setCurprocess proc ∨
        op = .setRunning proc ∨ op = .switchUvm proc) :
    ProgressOn (op.thread stack) (exec choice m rest op) := by
  have hagrees := h.agrees
  rcases hop with rfl | rfl | ⟨proc, rfl | rfl | rfl | rfl⟩
  · obtain ⟨⟨rfl, hncli, hfree, hphase⟩, rfl⟩ := h.typed_last hcontrol rfl
    refine ⟨a, h.proceed a rfl rfl rfl rfl rfl hagrees.ncli hagrees.locked
      hagrees.off hagrees.opened (typed_acquire hfree ?_)⟩
    rw [hncli, hphase]
    exact ⟨⟨rfl, rfl⟩, rfl⟩
  · obtain ⟨_, hrest⟩ := h.typed_rest hcontrol rfl
    exact ⟨a, h.proceed a rfl rfl rfl rfl rfl hagrees.ncli hagrees.locked
      hagrees.off hagrees.opened hrest⟩
  · obtain ⟨⟨rfl, rfl⟩, rfl⟩ := h.typed_last hcontrol rfl
    have hidle : ∀ i, m.pstate i ≠ .running := hagrees.phase
    simp only [exec, Op.thread]
    split_ifs with hend hstate
    · exact ⟨_, h.proceed (handing .idle)
      rfl rfl rfl rfl rfl hagrees.ncli hagrees.locked
        hagrees.off hagrees.opened
        (typed_release rfl ⟨⟨rfl, rfl, rfl, rfl⟩, rfl⟩)⟩
    · exact ⟨_, h.proceed (handing .idle)
      rfl rfl rfl rfl rfl hagrees.ncli hagrees.locked
        hagrees.off hagrees.opened ⟨⟨rfl, rfl⟩, rfl⟩⟩
    · have hrunable : m.pstate proc = .runable := by simpa using hstate
      refine ⟨handing (.chosen proc), ⟨hagrees.ncli, hagrees.locked,
        hagrees.off, fun hon => by simp [handing] at hon,
        ⟨hidle, hrunable⟩⟩, ?_, fun hne => absurd rfl hne, ?_⟩
      · simp [dispatch, switchToUvm, Typed, Op.Pre, Op.post, Op.bottom,
          handing]
      · intro i hi hready
        refine h.ready i hi (Or.inl ?_)
        simpa [handing] using hready
  · obtain ⟨⟨rfl, rfl⟩, hrest⟩ := h.typed_rest hcontrol rfl
    obtain ⟨hidle, hrunable⟩ := hagrees.phase
    refine ⟨handing (.named proc), ⟨hagrees.ncli, hagrees.locked,
      hagrees.off, fun hon => by simp [handing] at hon,
      ⟨hidle, hrunable, rfl⟩⟩, hrest, fun hne => absurd rfl hne, ?_⟩
    intro i hi hready
    refine h.ready i hi (Or.inl ?_)
    simpa [handing] using hready
  · obtain ⟨⟨rfl, rfl⟩, hrest⟩ := h.typed_rest hcontrol rfl
    obtain ⟨hidle, hrunable, hcur⟩ := hagrees.phase
    refine ⟨handing (.active proc), ⟨hagrees.ncli, hagrees.locked,
      hagrees.off, fun hon => by simp [handing] at hon, ⟨fun i => ?_, hcur⟩⟩,
      hrest, fun hne => absurd rfl hne, fun i hi hready => ?_⟩
    · by_cases hproc : i = proc
      · simp [setState, hproc]
      · simp [setState, hproc, hidle i]
    · refine h.ready i hi (Or.inl ?_)
      by_cases hproc : i = proc
      · rw [hproc]
        exact hrunable
      · rcases hready with hready | hready
        · simpa [setState, hproc] using hready
        · simp only [handing, Phase.active.injEq] at hready
          exact absurd hready.symm hproc
  · obtain ⟨_, hrest⟩ := h.typed_rest hcontrol rfl
    simp only [exec]
    split_ifs
    · exact Or.inl rfl
    · exact Or.inr rfl
    · exact ⟨a, h.proceed a rfl rfl rfl rfl rfl hagrees.ncli
        hagrees.locked hagrees.off hagrees.opened hrest⟩

/-- Both sides of a switch. -/
theorem exec_switch (h : Valid m stack a) (hcontrol : m.control = op :: rest)
    {choice : Choice} (hop : (∃ proc, op = .switchIn proc) ∨
      ∃ proc, op = .switchOut proc) : ProgressOn (op.thread stack) (exec choice m rest op) := by
  have hagrees := h.agrees
  rcases hop with ⟨proc, rfl⟩ | ⟨proc, rfl⟩
  · obtain ⟨⟨rfl, rfl⟩, hrest⟩ := h.typed_rest hcontrol rfl
    refine ⟨handing (.active proc), ⟨hagrees.ncli, hagrees.locked,
      hagrees.off, fun hon => by simp [handing] at hon, hagrees.phase⟩,
      h.ready proc (by simp) (Or.inr rfl), fun _ => hrest, ?_⟩
    intro i hi hready
    rcases hready with hready | hready
    · exact h.ready i (by simp) (Or.inl hready)
    · simp only [handing, Phase.active.injEq] at hready
      exact absurd (congrArg some hready) hi
  · obtain ⟨⟨rfl, p, rfl, rfl⟩, hrest⟩ := h.typed_rest hcontrol rfl
    obtain ⟨hidle, hcur⟩ := hagrees.phase
    refine ⟨handing .idle, ⟨hagrees.ncli, hagrees.locked, hagrees.off,
      fun hon => by simp [handing] at hon, hidle⟩, h.scheduler (by simp),
      fun hne => absurd rfl hne, ?_⟩
    intro i _ hready
    have hrunable : m.pstate i = .runable := by simpa [handing] using hready
    by_cases hproc : i = p
    · subst hproc
      simp only [setContext, ↓reduceIte]
      exact hrest
    · have hcontext := h.ready i (by simpa using fun heq => hproc heq.symm)
        (Or.inl hrunable)
      simpa [setContext, hproc] using hcontext

/-- `yield_cpu` and the tests of `goto_scheduler`. -/
theorem exec_yield (h : Valid m stack a) (hcontrol : m.control = op :: rest)
    {choice : Choice} (hop : op ∈ [Op.yieldState, .gotoScheduler, .testHolding,
      .testNcli, .testFlags] ∨ (∃ proc, op = .testState proc) ∨
      (∃ proc, op = .saveIntena proc) ∨ ∃ f, op = .restoreIntena f) :
    ProgressOn (op.thread stack) (exec choice m rest op) := by
  have hagrees := h.agrees
  simp only [List.mem_cons, List.not_mem_nil, or_false] at hop
  rcases hop with (rfl | rfl | rfl | rfl | rfl) | ⟨proc, rfl⟩ | ⟨proc, rfl⟩ |
      ⟨f, rfl⟩
  · obtain ⟨⟨proc, rfl, rfl⟩, hrest⟩ := h.typed_rest hcontrol rfl
    obtain ⟨hrun, hcur⟩ := hagrees.phase
    simp only [exec, hcur]
    refine ⟨handing (.yielded proc), ⟨hagrees.ncli, hagrees.locked,
      hagrees.off, fun hon => by simp [handing] at hon, ⟨fun i => ?_, rfl⟩⟩,
      hrest, fun _ => h.scheduler (by simp), fun i hi hready => ?_⟩
    · by_cases hproc : i = proc
      · simp [setState, hproc]
      · simpa [setState, hproc] using fun hi => hproc ((hrun i).mp hi)
    · have hproc : i ≠ proc := fun heq => hi (congrArg some heq.symm)
      refine h.ready i hi (Or.inl ?_)
      simpa [handing, setState, hproc] using hready
  · obtain ⟨⟨proc, rfl, rfl⟩, hrest⟩ := h.typed_rest hcontrol rfl
    have hcur : m.curprocess = some proc := hagrees.phase.2
    refine ⟨_, h.proceed (handing (.yielded proc))
      rfl rfl rfl rfl rfl hagrees.ncli
      hagrees.locked hagrees.off hagrees.opened ?_⟩
    rw [hcur]
    exact ⟨rfl, rfl, rfl, ⟨proc, rfl, rfl⟩, ⟨rfl, proc, rfl, rfl⟩, hrest⟩
  · obtain ⟨hheld, hrest⟩ := h.typed_rest hcontrol rfl
    have hlocked : m.locked = true := hagrees.locked.trans hheld
    simp only [exec, hlocked, ↓reduceIte]
    exact ⟨a, h.proceed a rfl rfl rfl rfl rfl hagrees.ncli (Eq.symm hheld)
      hagrees.off hagrees.opened hrest⟩
  · obtain ⟨hone, hrest⟩ := h.typed_rest hcontrol rfl
    have hncli : m.ncli = 1 := by
      have hone' : a.ncli = 1 := hone
      rw [hagrees.ncli, hone']
      rfl
    simp only [exec, hncli, ne_eq, not_true_eq_false, ↓reduceIte]
    exact ⟨a, h.proceed a rfl rfl rfl rfl rfl
      (hncli.symm.trans hagrees.ncli) hagrees.locked hagrees.off hagrees.opened
      hrest⟩
  · obtain ⟨hoff, hrest⟩ := h.typed_rest hcontrol rfl
    simp only [exec, hagrees.off hoff, Bool.false_eq_true, ↓reduceIte]
    exact ⟨a, h.proceed a rfl rfl rfl rfl rfl hagrees.ncli hagrees.locked
      (fun _ => rfl) hagrees.opened hrest⟩
  · obtain ⟨⟨p, rfl, hphase⟩, hrest⟩ := h.typed_rest hcontrol rfl
    have hholds := hagrees.phase
    rw [hphase] at hholds
    simp only [exec, hholds.1 p, ↓reduceIte]
    exact ⟨a, h.proceed a rfl rfl rfl rfl rfl hagrees.ncli hagrees.locked
      hagrees.off hagrees.opened hrest⟩
  · obtain ⟨⟨rfl, p, rfl, rfl⟩, hrest⟩ := h.typed_rest hcontrol rfl
    exact ⟨_, h.proceed (handing (.yielded p))
      rfl rfl rfl rfl rfl hagrees.ncli hagrees.locked
      hagrees.off hagrees.opened ⟨⟨rfl, p, rfl, rfl⟩, trivial, hrest⟩⟩
  · obtain ⟨_, hrest⟩ := h.typed_rest hcontrol rfl
    exact ⟨a, h.proceed a rfl rfl rfl rfl rfl hagrees.ncli hagrees.locked
      hagrees.off hagrees.opened hrest⟩

/-- The timer handler yields for the process whose stack it runs on. -/
theorem exec_timerHandler (h : Valid m stack a)
    (hcontrol : m.control = .timerHandler :: rest) {choice : Choice} :
    ProgressOn stack (exec choice m rest .timerHandler) := by
  obtain ⟨⟨hopen, _⟩, hrest⟩ := h.typed_rest hcontrol rfl
  have hagrees := h.agrees
  have hreturn : ProgressOn stack (.ok { m with control := rest }) :=
    ⟨{ a with off := false }, h.proceed { a with off := false } rfl rfl
      rfl rfl rfl hagrees.ncli hagrees.locked (fun hoff => by simp at hoff)
      (fun _ => hopen) hrest⟩
  cases hcur : m.curprocess with
  | none =>
      simp only [exec, hcur]
      rw [hcur] at hreturn
      exact hreturn
  | some q =>
      simp only [exec, hcur]
      rw [hcur] at hreturn
      split_ifs with hrun
      · obtain ⟨hncli, hfree, hphase⟩ := hopen
        have hholds := hagrees.phase
        rw [hphase] at hholds
        cases stack with
        | none => exact absurd hrun (hholds q)
        | some p =>
            refine ⟨a, ?_⟩
            rw [← hcur]
            refine h.proceed a rfl rfl rfl rfl rfl hagrees.ncli hagrees.locked
              hagrees.off hagrees.opened ?_
            refine typed_yieldCpu ?_ ⟨hncli, hfree, hphase⟩
            simpa only [Op.post, hncli, hfree, hphase, homePhase] using hrest
      · exact hreturn

/-- The entry and the return of a trap, and the code between. -/
theorem exec_trap (h : Valid m stack a) (hcontrol : m.control = op :: rest)
    {choice : Choice} (hop : (∃ f, op = .iret f) ∨ op = .service ∨ op = .user) :
    ProgressOn (op.thread stack) (exec choice m rest op) := by
  have hagrees := h.agrees
  rcases hop with ⟨f, rfl⟩ | rfl | rfl
  · obtain ⟨hopen, hrest⟩ := h.typed_rest hcontrol rfl
    exact ⟨_, h.proceed (Op.post stack a (.iret f)) rfl rfl rfl rfl rfl
      hagrees.ncli hagrees.locked (fun hoff => by simp [Op.post] at hoff)
      (fun _ => hopen) hrest⟩
  · obtain ⟨hopen, hrest⟩ := h.typed_rest hcontrol rfl
    have hopen' : a.ncli = 0 → a.Open stack := hopen
    have hreturn : ProgressOn stack (.ok { m with control := rest }) := by
      refine ⟨_, h.proceed (Op.post stack a .service) rfl rfl rfl rfl
        rfl hagrees.ncli hagrees.locked (fun hpos => ?_) (fun hzero => ?_)
        hrest⟩
      · have hpos' : 0 < a.ncli := by simpa [Op.post] using hpos
        exact hagrees.off (hagrees.off_of_held (Or.inl hpos'))
      · exact hopen' (by simpa [Op.post] using hzero)
    have hnest : ProgressOn stack (.ok { m with
        control := .pushcli :: .service :: .popcli :: .service :: rest }) := by
      refine ⟨a, h.proceed a rfl rfl rfl rfl rfl hagrees.ncli
        hagrees.locked hagrees.off hagrees.opened ⟨trivial, ?_, ⟨?_, ?_⟩, ?_,
        ?_⟩⟩
      · exact fun hzero => absurd hzero (Nat.succ_ne_zero a.ncli)
      · exact Nat.succ_pos a.ncli
      · exact fun hone => (hopen' (Nat.succ.inj hone)).2
      · exact fun hzero => hopen' hzero
      · exact hrest
    cases choice with
    | nest => exact hnest
    | _ => exact hreturn
  · obtain ⟨⟨⟨proc, rfl⟩, hopen⟩, rfl⟩ := h.typed_last hcontrol rfl
    have hstay : ProgressOn (some proc) (.ok m) := ⟨a, h⟩
    obtain ⟨hncli, hfree, hphase⟩ := hopen
    cases choice with
    | trap keep =>
        refine ⟨_, h.proceed ⟨0, false, false, .active proc⟩ rfl rfl
          rfl rfl hphase.symm (by rw [hagrees.ncli, hncli])
          (hagrees.locked.trans hfree) (fun hoff => by simp at hoff)
          (fun _ => ⟨rfl, rfl, rfl⟩) ⟨fun _ => ⟨rfl, rfl, rfl⟩,
          ⟨rfl, rfl, rfl⟩, ⟨⟨proc, rfl⟩, rfl, rfl, rfl⟩, rfl⟩⟩
    | _ => exact hstay

/-- One operation of a valid state. -/
theorem exec_progress (h : Valid m stack a) (hcontrol : m.control = op :: rest)
    (choice : Choice) : ProgressOn (op.thread stack) (exec choice m rest op) := by
  cases op with
  | pushcli => exact exec_pushcli h hcontrol (by simp)
  | cli f => exact exec_pushcli h hcontrol (by simp)
  | count f => exact exec_pushcli h hcontrol (by simp)
  | popcli => exact exec_pushcli h hcontrol (by simp)
  | uncount => exact exec_pushcli h hcontrol (by simp)
  | sti => exact exec_pushcli h hcontrol (by simp)
  | acquireTest => exact exec_lock h hcontrol (by simp)
  | acquireXchg => exact exec_lock h hcontrol (by simp)
  | releaseTest => exact exec_lock h hcontrol (by simp)
  | releaseClear => exact exec_lock h hcontrol (by simp)
  | schedulerLoop => exact exec_scheduler h hcontrol (by simp)
  | scan proc => exact exec_scheduler h hcontrol (by simp)
  | setCurprocess proc => exact exec_scheduler h hcontrol (by simp)
  | setRunning proc => exact exec_scheduler h hcontrol (by simp)
  | switchUvm proc => exact exec_scheduler h hcontrol (by simp)
  | switchKvm => exact exec_scheduler h hcontrol (by simp)
  | switchIn proc => exact exec_switch h hcontrol (by simp)
  | switchOut proc => exact exec_switch h hcontrol (by simp)
  | yieldState => exact exec_yield h hcontrol (by simp)
  | gotoScheduler => exact exec_yield h hcontrol (by simp)
  | testHolding => exact exec_yield h hcontrol (by simp)
  | testNcli => exact exec_yield h hcontrol (by simp)
  | testFlags => exact exec_yield h hcontrol (by simp)
  | testState proc => exact exec_yield h hcontrol (by simp)
  | saveIntena proc => exact exec_yield h hcontrol (by simp)
  | restoreIntena f => exact exec_yield h hcontrol (by simp)
  | timerHandler => exact exec_timerHandler h hcontrol
  | iret f => exact exec_trap h hcontrol (by simp)
  | service => exact exec_trap h hcontrol (by simp)
  | user => exact exec_trap h hcontrol (by simp)

/-- An interrupt finds nothing held. -/
theorem step_timer (h : Valid m stack a) : ProgressOn stack (step .timer m) := by
  simp only [step]
  split_ifs with hflag
  · have hon : a.off = false := by
      by_contra hoff
      have hdisabled := h.agrees.off (by simpa using hoff)
      rw [hflag] at hdisabled
      contradiction
    have hopen := h.agrees.opened hon
    have hback : Typed stack m.control { a with off := false } := by
      have heq : ({ a with off := false } : Abs) = a := by rw [← hon]
      rw [heq]
      exact h.control
    exact ⟨_, h.proceed { a with off := true } rfl rfl rfl rfl rfl
      h.agrees.ncli h.agrees.locked (fun _ => rfl) (fun hoff => by simp at hoff)
      ⟨⟨hopen, rfl⟩, hopen, hback⟩⟩
  · exact ⟨a, h⟩

/-- A process made `RUNABLE` was neither running nor suspended. -/
theorem step_create (h : Valid m stack a) (proc : Nat) :
    ProgressOn stack (step (.create proc) m) := by
  simp only [step]
  split_ifs with hnew
  · have hnotRunning : m.pstate proc ≠ .running := by
      rcases hnew with hnew | hnew <;> simp [hnew]
    have hstate : ∀ i, setState m.pstate proc .runable i = .running ↔
        m.pstate i = .running := by
      intro i
      by_cases hi : i = proc
      · simp [setState, hi, hnotRunning]
      · simp [setState, hi]
    have hkeep : ∀ i, m.pstate i = .runable →
        setState m.pstate proc .runable i = .runable := by
      intro i hi
      by_cases heq : i = proc
      · simp [setState, heq]
      · simp [setState, heq, hi]
    refine ⟨a, ⟨h.agrees.ncli, h.agrees.locked, h.agrees.off,
      h.agrees.opened, ?_⟩, h.control, h.scheduler, ?_⟩
    · have hholds := h.agrees.phase
      cases hp : a.phase with
      | idle =>
          rw [hp] at hholds
          exact fun i => by simpa [hstate] using hholds i
      | chosen p =>
          rw [hp] at hholds
          exact ⟨fun i => by simpa [hstate] using hholds.1 i,
            hkeep p hholds.2⟩
      | named p =>
          rw [hp] at hholds
          exact ⟨fun i => by simpa [hstate] using hholds.1 i,
            hkeep p hholds.2.1, hholds.2.2⟩
      | active p =>
          rw [hp] at hholds
          exact ⟨fun i => by simpa [hstate] using hholds.1 i, hholds.2⟩
      | yielded p =>
          rw [hp] at hholds
          exact ⟨fun i => by simpa [hstate] using hholds.1 i, hholds.2⟩
    · intro i hi hready
      by_cases heq : i = proc
      · subst heq
        simp only [setContext, ↓reduceIte]
        exact typed_freshContext i
      · have hold := h.ready i hi (by simpa [setState, heq] using hready)
        simpa [setContext, heq] using hold
  · exact ⟨a, h⟩

theorem step_nil {choice : Choice} (hchoice : choice.executes = true)
    (hcontrol : m.control = []) : step choice m = .ok m := by
  cases choice with
  | timer | create _ => cases hchoice
  | run | trap _ | nest => simp only [step, hcontrol]

theorem step_cons {choice : Choice} (hchoice : choice.executes = true)
    {op : Op} {rest : List Op} (hcontrol : m.control = op :: rest) :
    step choice m = exec choice m rest op := by
  cases choice with
  | timer | create _ => cases hchoice
  | run | trap _ | nest => simp only [step, hcontrol]

/-- Every step of a valid state keeps the invariant. -/
theorem step_progress (h : Valid m stack a) (choice : Choice) :
    Progress (step choice m) := by
  have hexec : choice.executes = true → Progress (step choice m) := by
    intro hchoice
    cases hcontrol : m.control with
    | nil =>
        rw [step_nil hchoice hcontrol]
        exact ⟨stack, a, h⟩
    | cons op rest =>
        rw [step_cons hchoice hcontrol]
        exact (exec_progress h hcontrol choice).progress
  cases choice with
  | timer => exact (step_timer h).progress
  | create proc => exact (step_create h proc).progress
  | run => exact hexec rfl
  | trap keep => exact hexec rfl
  | nest => exact hexec rfl

theorem Machine.Boot.valid (h : m.Boot) :
    Valid m none ⟨0, false, false, .idle⟩ where
  agrees := ⟨h.ncli, h.unlocked, fun hoff => by simp at hoff,
    fun _ => ⟨rfl, rfl, rfl⟩, h.notRunning⟩
  control := by
    rw [h.control]
    exact ⟨⟨rfl, rfl, rfl, rfl⟩, rfl⟩
  scheduler hne := absurd rfl hne
  ready i _ hready := by
    have hrunable : m.pstate i = .runable := by simpa using hready
    rw [h.fresh i hrunable]
    exact typed_freshContext i

/-- The invariant holds in every state of every run. -/
theorem valid_of_steps {m₀ : Machine} (hboot : m₀.Boot)
    (hrun : Relation.ReflTransGen Steps m₀ m) :
    ∃ stack a, Valid m stack a := by
  induction hrun with
  | refl => exact ⟨none, _, hboot.valid⟩
  | tail _ hstep ih =>
      obtain ⟨stack, a, hvalid⟩ := ih
      obtain ⟨choice, hstep⟩ := hstep
      have hprogress := step_progress hvalid choice
      rw [hstep] at hprogress
      exact hprogress

/-- `RUNNING` is `curprocess` alone. -/
theorem Phase.Holds.running {phase : Phase} (h : phase.Holds m) {i : Nat}
    (hi : m.pstate i = .running) :
    m.curprocess = some i ∧ ∀ j, m.pstate j = .running → j = i := by
  cases phase with
  | idle => exact absurd hi (h i)
  | chosen p => exact absurd hi (h.1 i)
  | named p => exact absurd hi (h.1 i)
  | yielded p => exact absurd hi (h.1 i)
  | active p =>
      obtain ⟨hrun, hcur⟩ := h
      obtain rfl := (hrun i).mp hi
      exact ⟨hcur, fun j hj => (hrun j).mp hj⟩

theorem Valid.handOff (h : Valid m stack a) : HandOff m where
  running i hi := (h.agrees.phase.running hi).1
  oneRunning i j hi hj := (h.agrees.phase.running hj).2 i hi
  userFree huser := by
    obtain ⟨rest, hcontrol⟩ := List.head?_eq_some_iff.mp huser
    obtain ⟨⟨_, hncli, hfree, _⟩, _⟩ := h.typed_last hcontrol rfl
    exact ⟨h.agrees.locked.trans hfree, by rw [h.agrees.ncli, hncli]; rfl⟩
  disabled hheld := by
    refine h.agrees.off (h.agrees.off_of_held ?_)
    rw [h.agrees.ncli, h.agrees.locked] at hheld
    exact hheld.imp_left Int.natCast_pos.mp
  switching op hhead hswitch := by
    obtain ⟨rest, hcontrol⟩ := List.head?_eq_some_iff.mp hhead
    cases op with
    | switchIn proc =>
        obtain ⟨⟨_, rfl⟩, _⟩ := h.typed_rest hcontrol rfl
        exact ⟨h.agrees.locked, h.agrees.ncli⟩
    | switchOut proc =>
        obtain ⟨⟨_, p, _, rfl⟩, _⟩ := h.typed_rest hcontrol rfl
        exact ⟨h.agrees.locked, h.agrees.ncli⟩
    | _ => simp [Op.switches] at hswitch
  noPanic choice why hstep := by
    have hprogress := step_progress h choice
    rw [hstep] at hprogress
    exact hprogress

end Steps

/-- In every state of every run the hand-off is in order. -/
theorem handOff_of_run {m₀ m : Machine} (hboot : m₀.Boot)
    (hrun : Relation.ReflTransGen Steps m₀ m) : HandOff m := by
  obtain ⟨stack, a, hvalid⟩ := valid_of_steps hboot hrun
  exact hvalid.handOff

theorem steps_of_runChoices {choices : List Choice} {m m' : Machine}
    (h : runChoices choices m = .ok m') : Relation.ReflTransGen Steps m m' := by
  induction choices generalizing m with
  | nil =>
      obtain rfl := Except.ok.inj h
      exact .refl
  | cons choice choices ih =>
      rw [runChoices] at h
      cases hstep : step choice m with
      | error why => simp [hstep] at h
      | ok m₁ =>
          rw [hstep] at h
          exact (ih h).head ⟨choice, hstep⟩

/-- One process, its stack and directory in place, ready at the start. -/
def bootMachine : Machine where
  intFlag := true
  ncli := 0
  intena := false
  curprocess := none
  locked := false
  pstate := fun i => if i = 0 then .runable else .unused
  context := fun _ => freshContext
  kstack := fun _ => 0xC0800000
  pgdir := fun _ => 0xC0801000
  scheduler := []
  control := [.schedulerLoop]

theorem bootMachine_boot : bootMachine.Boot where
  control := rfl
  ncli := rfl
  unlocked := rfl
  curprocess := rfl
  notRunning i := by
    by_cases hi : i = 0
    · simp [bootMachine, hi]
    · simp [bootMachine, hi]
  fresh _ _ := rfl

/-- The process reaches user mode and is interrupted there. -/
def firstYield : List Choice :=
  List.replicate 24 .run ++ .timer :: List.replicate 13 .run

/-- It is about to hand the processor back. -/
theorem handOff_of_firstYield : ∃ m : Machine,
    m.control.head? = some (.switchOut (some 0)) ∧ HandOff m := by
  have hhead : (runChoices firstYield bootMachine).map
      (fun m => m.control.head?) = .ok (some (.switchOut (some 0))) := by rfl
  cases hrun : runChoices firstYield bootMachine with
  | error why => simp [hrun, Except.map] at hhead
  | ok m =>
      exact ⟨m, by simpa [hrun, Except.map] using hhead,
        handOff_of_run bootMachine_boot (steps_of_runChoices hrun)⟩

end Linda
