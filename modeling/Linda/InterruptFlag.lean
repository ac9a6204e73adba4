/-
The interrupt flag across an acquire and the matching release.  Beside the
machine stands, for each thread of control, what it has acquired and not yet
released; the locks of all the code are covered, each being a pushcli and a
popcli.
-/
import Linda.CallHistory
import Linda.SchedulerInvariant

namespace Linda

open CallHistory FuelLoop

/-- A `pushcli` that waits for its `popcli`. -/
structure Pending where
  /-- the interrupt flag before it -/
  flag : Bool
  /-- `ncli` was 0 before it -/
  outer : Bool
  /-- its thread has dispatched a process since, in the loop of `scheduler` -/
  dispatched : Bool
deriving Repr, DecidableEq

def Pending.dispatch (p : Pending) : Pending := { p with dispatched := true }

/-- The machine, the thread that runs and what each has pending, innermost
first; `none` is the boot thread, which becomes the scheduler's. -/
structure Traced where
  machine : Machine
  thread : Option Nat
  pending : Option Nat → List Pending

/-- What happens; a device interrupts if interrupts are enabled. -/
inductive Event where
  | choice (choice : Choice)
  | device
deriving Repr, DecidableEq

/-- The next operation of the running stack is executed. -/
def Event.executes : Event → Bool
  | .choice .timer => false
  | .choice (.create _) => false
  | .choice _ => true
  | .device => false

/-- What the running thread has pending after an operation. -/
def Op.book (m : Machine) (mine : List Pending) : Op → List Pending
  | .pushcli => ⟨m.intFlag, m.ncli = 0, false⟩ :: mine
  | .sti => mine.tail
  | .switchIn _ => mine.map Pending.dispatch
  | _ => mine

def setPending (pending : Option Nat → List Pending) (thread : Option Nat)
    (mine : List Pending) : Option Nat → List Pending :=
  fun t => if t = thread then mine else pending t

def Traced.note (t : Traced) (m' : Machine) (op : Op) : Traced where
  machine := m'
  thread := op.thread t.thread
  pending := setPending t.pending t.thread
    (op.book t.machine (t.pending t.thread))

/-- An interrupt of a device. -/
def deviceStep (m : Machine) : Machine :=
  if m.intFlag then { m with
    intFlag := false, control := .service :: .iret true :: m.control }
  else m

def Traced.step (event : Event) (t : Traced) : Except SchedHalt Traced :=
  match event with
  | .device => .ok { t with machine := deviceStep t.machine }
  | .choice choice => do
      let m' ← Linda.step choice t.machine
      match event.executes, t.machine.control with
      | true, op :: _ => .ok (t.note m' op)
      | _, _ => .ok { t with machine := m' }

/-- `kern_bootstrap`: the set-up, `sti`, `uinitproc_setup` and `scheduler`. -/
structure Machine.Bootstrap (m : Machine) : Prop where
  control : m.control = [.service, .iret true, .service, .schedulerLoop]
  disabled : m.intFlag = false
  ncli : m.ncli = 0
  unlocked : m.locked = false
  curprocess : m.curprocess = none
  notRunning : ∀ i, m.pstate i ≠ .running
  notRunable : ∀ i, m.pstate i ≠ .runable

def Traced.start (m : Machine) : Traced := ⟨m, none, fun _ => []⟩

/-- The event ends the release that matches `p`, the outermost acquire. -/
structure Traced.Ends (t : Traced) (event : Event) (p : Pending) : Prop where
  executes : event.executes = true
  sti : t.machine.control.head? = some .sti
  matching : (t.pending t.thread).head? = some p
  outer : p.outer = true

/-- What is known of the processor and of the running thread; `off` is that
interrupts are. -/
structure Book where
  ncli : Nat
  off : Bool
  intena : Bool
  pending : List Pending

/-- With this `intena` the release restores the flag, unless it was set and a
process was dispatched. -/
def Pending.Settled (p : Pending) (intena : Bool) : Prop :=
  intena = p.flag ↔ p.flag = false ∨ p.dispatched = false

/-- What an operation needs of the book. -/
def Op.Fits (b : Book) : Op → Prop
  | .count f => b.off = true ∧ ∃ rest,
      b.pending = ⟨f, decide (b.ncli = 0), false⟩ :: rest
  | .popcli => 0 < b.ncli ∧ ∀ p ∈ b.pending.head?, p.outer = true →
      b.ncli = 1 ∧ p.Settled b.intena
  | .sti => ∀ p ∈ b.pending.head?, p.outer = true →
      b.ncli = 0 ∧ p.Settled b.intena
  | .scan _ => ∃ p rest, b.pending = p :: rest ∧ p.outer = true ∧
      p.Settled b.intena
  | .gotoScheduler | .saveIntena _ | .switchOut _ => b.intena = false
  | .timerHandler => b.off = true
  | _ => True

/-- What it may leave when the running thread goes on behind it. -/
def Op.Leaves (b b' : Book) : Op → Prop
  | .pushcli => ∃ flag, (b.off = true → flag = false) ∧
      b' = ⟨b.ncli + 1, true, if b.ncli = 0 then flag else b.intena,
        ⟨flag, decide (b.ncli = 0), false⟩ :: b.pending⟩
  | .cli _ => b' = { b with off := true }
  | .count f => b' = { b with
      ncli := b.ncli + 1, intena := if b.ncli = 0 then f else b.intena }
  | .popcli => b' = ⟨b.ncli - 1, decide (1 < b.ncli), b.intena, b.pending.tail⟩
  | .uncount => b' = { b with ncli := b.ncli - 1 }
  | .sti => b' = { b with
      off := decide (0 < b.ncli), pending := b.pending.tail }
  | .service => b' = { b with off := decide (0 < b.ncli) }
  | .timerHandler | .iret _ => b' = { b with off := false }
  | .switchIn _ => b' = { b with
      intena := false
      pending := b.pending.map Pending.dispatch }
  | .switchOut _ => ∃ i, b' = { b with intena := i }
  | .restoreIntena f => b' = { b with intena := f }
  | .user | .schedulerLoop | .scan _ => False
  | _ => b' = b

/-- The stack runs to its bottom and every release on it is settled.  While
interrupts may be on, `intena` is anything. -/
def FlagsKept : List Op → Book → Prop
  | [], _ => True
  | op :: rest, b => ∀ i, (b.off = true → i = b.intena) →
      op.Fits { b with intena := i } ∧
        ∀ b', op.Leaves { b with intena := i } b' → FlagsKept rest b'

/-- Every stack is kept, a suspended one for the moment a switch resumes it. -/
structure Bookkept (t : Traced) (off : Bool) : Prop where
  disabled : off = true → t.machine.intFlag = false
  held : 0 < t.machine.ncli → off = true
  control : FlagsKept t.machine.control
    ⟨t.machine.ncli.toNat, off, t.machine.intena, t.pending t.thread⟩
  scheduler : t.thread ≠ none →
    FlagsKept t.machine.scheduler ⟨1, true, false, t.pending none⟩
  ready : ∀ i, t.thread ≠ some i →
    t.machine.pstate i = .runable ∨ t.machine.pstate i = .running →
      ∀ intena, FlagsKept (t.machine.context i)
        ⟨1, true, intena, t.pending (some i)⟩
  alive : ∀ i, t.thread = some i →
    t.machine.pstate i = .runable ∨ t.machine.pstate i = .running
  blank : ∀ i, t.machine.pstate i ≠ .runable → t.machine.pstate i ≠ .running →
    t.pending (some i) = []

section FlagsKept

variable {op : Op} {rest : List Op} {b : Book} {n : Nat} {off i : Bool}
  {mine : List Pending}

theorem flagsKept_off (hoff : b.off = true) : FlagsKept (op :: rest) b ↔
    op.Fits b ∧ ∀ b', op.Leaves b b' → FlagsKept rest b' := by
  constructor
  · exact fun h => h b.intena fun _ => rfl
  · intro h i hi
    obtain rfl := hi hoff
    exact h

theorem FlagsKept.now (h : FlagsKept (op :: rest) b) :
    op.Fits b ∧ ∀ b', op.Leaves b b' → FlagsKept rest b' :=
  h b.intena fun _ => rfl

/-- While interrupts may be on, `intena` does not matter. -/
theorem FlagsKept.drift {ops : List Op} (h : FlagsKept ops ⟨n, false, i, mine⟩)
    (i' : Bool) : FlagsKept ops ⟨n, false, i', mine⟩ := by
  cases ops with
  | nil => trivial
  | cons op rest => exact fun j _ => h j (by simp)

theorem flagsKept_acquire
    (h : ∀ flag, (off = true → flag = false) → ∀ j, (off = true → j = i) →
      FlagsKept rest ⟨n + 1, true, if n = 0 then flag else j,
        ⟨flag, decide (n = 0), false⟩ :: mine⟩) :
    FlagsKept (acquire ++ rest) ⟨n, off, i, mine⟩ := by
  intro j hj
  refine ⟨trivial, ?_⟩
  rintro b' ⟨flag, hflag, rfl⟩
  refine (flagsKept_off rfl).mpr ⟨trivial, ?_⟩
  rintro b' rfl
  refine (flagsKept_off rfl).mpr ⟨trivial, ?_⟩
  rintro b' rfl
  exact h flag hflag j hj

theorem flagsKept_release
    (hfits : ∀ p ∈ mine.head?, p.outer = true → p.Settled i)
    (h : FlagsKept rest ⟨0, false, i, mine.tail⟩) :
    FlagsKept (release ++ rest) ⟨1, true, i, mine⟩ := by
  refine (flagsKept_off rfl).mpr ⟨trivial, ?_⟩
  rintro b' rfl
  refine (flagsKept_off rfl).mpr ⟨trivial, ?_⟩
  rintro b' rfl
  refine (flagsKept_off rfl).mpr
    ⟨⟨Nat.one_pos, fun p hp houter => ⟨rfl, hfits p hp houter⟩⟩, ?_⟩
  rintro b' rfl
  exact h

theorem flagsKept_user : FlagsKept [.user] b :=
  fun _ _ => ⟨trivial, fun _ h => h.elim⟩

theorem flagsKept_iret {f : Bool}
    (h : ∀ j, FlagsKept rest ⟨b.ncli, false, j, b.pending⟩) :
    FlagsKept (.iret f :: rest) b := by
  refine fun j _ => ⟨trivial, ?_⟩
  rintro b' rfl
  exact h j

/-- A new process has nothing pending. -/
theorem flagsKept_freshContext : FlagsKept freshContext ⟨1, true, i, []⟩ := by
  rw [freshContext, forkret]
  exact flagsKept_release (by simp) (flagsKept_iret fun _ => flagsKept_user)

/-- The flag is clear when `yield_cpu` acquires. -/
theorem flagsKept_yieldCpu (h : FlagsKept rest ⟨0, false, i, mine⟩) :
    FlagsKept (yieldCpu ++ rest) ⟨0, true, i, mine⟩ := by
  rw [yieldCpu, List.append_assoc, List.append_assoc]
  refine flagsKept_acquire fun flag hflag j hj => ?_
  obtain rfl := hflag rfl
  refine (flagsKept_off rfl).mpr ⟨trivial, ?_⟩
  rintro b' rfl
  refine (flagsKept_off rfl).mpr ⟨rfl, ?_⟩
  rintro b' rfl
  refine flagsKept_release ?_ (h.drift false)
  rintro p hp -
  obtain rfl := Option.some.inj hp
  exact iff_of_true rfl (Or.inl rfl)

/-- A lock around code of the kernel. -/
theorem flagsKept_nest (h : FlagsKept (.service :: rest) ⟨n, off, i, mine⟩) :
    FlagsKept (.pushcli :: .service :: .popcli :: .service :: rest)
      ⟨n, off, i, mine⟩ := by
  intro j hj
  refine ⟨trivial, ?_⟩
  rintro b' ⟨flag, hflag, rfl⟩
  refine (flagsKept_off rfl).mpr ⟨trivial, ?_⟩
  rintro b' rfl
  refine (flagsKept_off (decide_eq_true (Nat.succ_pos n))).mpr
    ⟨⟨Nat.succ_pos n, fun p hp houter => ?_⟩, ?_⟩
  · obtain rfl := Option.some.inj hp
    have hzero : n = 0 := of_decide_eq_true houter
    refine ⟨by rw [hzero], ?_⟩
    simp [Pending.Settled, hzero]
  · rintro b' rfl
    intro j' hj'
    refine ⟨trivial, ?_⟩
    rintro b' rfl
    have hrest := (h j hj).2 _ rfl
    by_cases hzero : n = 0
    · subst hzero
      exact FlagsKept.drift hrest j'
    · have hpos : 1 < n + 1 := by omega
      have hj'' := hj' (decide_eq_true hpos)
      simp only [hzero, ↓reduceIte] at hj''
      rw [hj'']
      exact hrest

/-- The scheduler runs a process and comes back with `intena` clear. -/
theorem flagsKept_dispatch {proc : Nat}
    (h : (Op.scan (proc + 1)).Fits ⟨1, true, false,
      mine.map Pending.dispatch⟩) :
    FlagsKept (dispatch proc ++ [.scan (proc + 1)]) ⟨1, true, i, mine⟩ := by
  have hswitch : FlagsKept [.switchIn proc, .switchKvm, .scan (proc + 1)]
      ⟨1, true, i, mine⟩ := by
    refine (flagsKept_off rfl).mpr ⟨trivial, ?_⟩
    rintro b' rfl
    refine (flagsKept_off rfl).mpr ⟨trivial, ?_⟩
    rintro b' rfl
    exact (flagsKept_off rfl).mpr ⟨h, fun _ hb => hb.elim⟩
  refine (flagsKept_off rfl).mpr ⟨trivial, ?_⟩
  rintro b' rfl
  refine (flagsKept_off rfl).mpr ⟨trivial, ?_⟩
  rintro b' rfl
  refine (flagsKept_off rfl).mpr ⟨trivial, ?_⟩
  rintro b' rfl
  refine (flagsKept_off rfl).mpr ⟨trivial, ?_⟩
  rintro b' ⟨flag, -, rfl⟩
  refine (flagsKept_off rfl).mpr ⟨⟨Nat.succ_pos _, ?_⟩, ?_⟩
  · rintro p hp houter
    obtain rfl := Option.some.inj hp
    cases houter
  · rintro b' rfl
    exact hswitch

end FlagsKept

section Steps

@[simp] theorem setPending_self (pending : Option Nat → List Pending)
    (thread : Option Nat) :
    setPending pending thread (pending thread) = pending := by
  funext i
  by_cases hi : i = thread
  · simp [setPending, hi]
  · simp [setPending, hi]

variable {t : Traced} {a : Abs} {off : Bool} {op : Op} {rest : List Op}
  {m' : Machine} {choice : Choice}

/-- The running thread goes on; states and suspended stacks are as before. -/
theorem Bookkept.proceed (h : Bookkept t off) {mine : List Pending}
    (off' : Bool)
    (hcontext : m'.context = t.machine.context)
    (hscheduler : m'.scheduler = t.machine.scheduler)
    (hpstate : m'.pstate = t.machine.pstate)
    (hdisabled : off' = true → m'.intFlag = false)
    (hheld : 0 < m'.ncli → off' = true)
    (hcontrol : FlagsKept m'.control ⟨m'.ncli.toNat, off', m'.intena, mine⟩) :
    Bookkept ⟨m', t.thread, setPending t.pending t.thread mine⟩ off' where
  disabled := hdisabled
  held := hheld
  control := by simpa [setPending] using hcontrol
  scheduler hne := by
    simpa [setPending, Ne.symm hne, hscheduler] using h.scheduler hne
  ready i hi hready intena := by
    rw [hpstate] at hready
    simpa [setPending, Ne.symm hi, hcontext] using h.ready i hi hready intena
  alive i hi := by
    rw [hpstate]
    exact h.alive i hi
  blank i hi hi' := by
    rw [hpstate] at hi hi'
    have hne : some i ≠ t.thread := fun heq =>
      (h.alive i heq.symm).elim hi hi'
    simpa [setPending, hne] using h.blank i hi hi'

theorem Bookkept.flagsKept (h : Bookkept t off)
    (hcontrol : t.machine.control = op :: rest) :
    FlagsKept (op :: rest)
      ⟨t.machine.ncli.toNat, off, t.machine.intena, t.pending t.thread⟩ := by
  have hkept := h.control
  rwa [hcontrol] at hkept

/-- It goes on behind the operation. -/
theorem Bookkept.advance (h : Bookkept t off)
    (hcontrol : t.machine.control = op :: rest)
    (b' : Book)
    (hleaves : op.Leaves ⟨t.machine.ncli.toNat, off, t.machine.intena,
      t.pending t.thread⟩ b')
    (hpending : op.book t.machine (t.pending t.thread) = b'.pending)
    (hthread : op.thread t.thread = t.thread)
    (hcontext : m'.context = t.machine.context)
    (hscheduler : m'.scheduler = t.machine.scheduler)
    (hpstate : m'.pstate = t.machine.pstate) (hrest : m'.control = rest)
    (hncli : m'.ncli.toNat = b'.ncli) (hintena : m'.intena = b'.intena)
    (hdisabled : b'.off = true → m'.intFlag = false)
    (hheld : 0 < m'.ncli → b'.off = true) :
    ∃ off', Bookkept (t.note m' op) off' := by
  have hkept := h.flagsKept hcontrol
  refine ⟨b'.off, ?_⟩
  rw [Traced.note, hpending, hthread]
  refine h.proceed b'.off hcontext hscheduler hpstate hdisabled hheld ?_
  rw [hrest, hncli, hintena]
  exact hkept.now.2 b' hleaves

theorem Valid.ncli_toNat {m : Machine} {stack : Option Nat}
    (hv : Valid m stack a) : m.ncli.toNat = a.ncli := by
  rw [hv.agrees.ncli]
  rfl

/-- `pushcli`. -/
theorem bookkept_pushcli (hv : Valid t.machine t.thread a) (h : Bookkept t off)
    (hcontrol : t.machine.control = op :: rest)
    (hop : op = .pushcli ∨ (∃ f, op = .cli f) ∨ ∃ f, op = .count f)
    (hexec : exec choice t.machine rest op = .ok m') :
    ∃ off', Bookkept (t.note m' op) off' := by
  have hncli := hv.agrees.ncli
  have hkept := h.flagsKept hcontrol
  rcases hop with rfl | ⟨f, rfl⟩ | ⟨f, rfl⟩
  · obtain rfl := Except.ok.inj hexec
    refine ⟨off, h.proceed off rfl rfl rfl h.disabled h.held ?_⟩
    intro j hj
    refine ⟨trivial, ?_⟩
    rintro b' rfl
    have hzero : decide (t.machine.ncli = 0) =
        decide (t.machine.ncli.toNat = 0) := by
      rw [hncli]
      simp
    simp only [Op.book, hzero]
    refine (flagsKept_off rfl).mpr ⟨⟨rfl, _, rfl⟩, ?_⟩
    rintro b' rfl
    exact (hkept j hj).2 _ ⟨_, h.disabled, rfl⟩
  · obtain rfl := Except.ok.inj hexec
    exact h.advance hcontrol _ rfl rfl rfl rfl rfl rfl rfl rfl rfl
      (fun _ => rfl) fun _ => rfl
  · obtain rfl := Except.ok.inj hexec
    obtain ⟨⟨hoff, -⟩, -⟩ := hkept.now
    have hoff' : off = true := hoff
    refine h.advance hcontrol _ rfl rfl rfl rfl rfl rfl rfl ?_ ?_ h.disabled
      fun _ => hoff'
    · dsimp only
      omega
    · dsimp only
      have hzero : t.machine.ncli = 0 ↔ t.machine.ncli.toNat = 0 := by omega
      exact if_congr hzero rfl rfl

/-- `popcli`. -/
theorem bookkept_popcli (hv : Valid t.machine t.thread a) (h : Bookkept t off)
    (hcontrol : t.machine.control = op :: rest)
    (hop : op = .popcli ∨ op = .uncount ∨ op = .sti)
    (hexec : exec choice t.machine rest op = .ok m') :
    ∃ off', Bookkept (t.note m' op) off' := by
  have hncli := hv.agrees.ncli
  have hkept := h.flagsKept hcontrol
  rcases hop with rfl | rfl | rfl
  · simp only [exec] at hexec
    split_ifs at hexec with hflag
    obtain rfl := Except.ok.inj hexec
    refine ⟨true, h.proceed true rfl rfl rfl (fun _ => by simpa using hflag)
      (fun _ => rfl) ?_⟩
    obtain ⟨⟨hpos, hfits⟩, hleaves⟩ := hkept.now
    refine (flagsKept_off rfl).mpr ⟨trivial, ?_⟩
    rintro b' rfl
    refine (flagsKept_off rfl).mpr ⟨fun p hp houter => ?_, ?_⟩
    · obtain ⟨hone, hsettled⟩ := hfits p hp houter
      dsimp only at hone ⊢
      exact ⟨by omega, hsettled⟩
    · rintro b' rfl
      refine hleaves _ ?_
      simp only [Op.Leaves, Op.book, Book.mk.injEq, and_true, true_and,
        decide_eq_decide]
      dsimp only at hpos
      omega
  · simp only [exec] at hexec
    split_ifs at hexec with hpos
    obtain rfl := Except.ok.inj hexec
    refine h.advance hcontrol _ rfl rfl rfl rfl rfl rfl rfl ?_ rfl h.disabled
      fun hpos' => h.held ?_
    · dsimp only
      omega
    · dsimp only at hpos'
      omega
  · obtain rfl := Except.ok.inj hexec
    refine h.advance hcontrol _ rfl rfl rfl rfl rfl rfl rfl rfl rfl
      (fun hpos => ?_) fun hpos => ?_
    · have hpos' : 0 < t.machine.ncli := by
        have hpos' := of_decide_eq_true hpos
        dsimp only at hpos'
        omega
      have hne : t.machine.ncli ≠ 0 := by omega
      simp [h.disabled (h.held hpos'), hne]
    · dsimp only at hpos ⊢
      exact decide_eq_true (by omega)

/-- The operations that leave the book as it is. -/
theorem bookkept_pass (hv : Valid t.machine t.thread a) (h : Bookkept t off)
    (hcontrol : t.machine.control = op :: rest)
    (hop : op ∈ [Op.acquireTest, .acquireXchg, .releaseTest, .releaseClear,
      .switchKvm, .testHolding, .testNcli, .testFlags] ∨
      (∃ proc, op = .setCurprocess proc ∨ op = .switchUvm proc) ∨
      ∃ proc, op = .testState proc)
    (hexec : exec choice t.machine rest op = .ok m') :
    ∃ off', Bookkept (t.note m' op) off' := by
  have hgo : ∀ m', op.Leaves ⟨t.machine.ncli.toNat, off, t.machine.intena,
      t.pending t.thread⟩ ⟨t.machine.ncli.toNat, off, t.machine.intena,
      t.pending t.thread⟩ → op.book t.machine (t.pending t.thread) =
        t.pending t.thread → op.thread t.thread = t.thread →
      m'.context = t.machine.context → m'.scheduler = t.machine.scheduler →
      m'.pstate = t.machine.pstate → m'.control = rest →
      m'.ncli = t.machine.ncli → m'.intena = t.machine.intena →
      m'.intFlag = t.machine.intFlag →
        ∃ off', Bookkept (t.note m' op) off' := by
    intro m' hleaves hbook hthread hcontext hscheduler hpstate hrest hncli
      hintena hflag
    refine h.advance hcontrol _ hleaves hbook hthread hcontext hscheduler
      hpstate hrest (congrArg Int.toNat hncli) hintena (fun hoff => ?_)
      fun hpos => ?_
    · rw [hflag]
      exact h.disabled hoff
    · exact h.held (hncli ▸ hpos)
  simp only [List.mem_cons, List.not_mem_nil, or_false] at hop
  rcases hop with (rfl | rfl | rfl | rfl | rfl | rfl | rfl | rfl) |
    ⟨proc, rfl | rfl⟩ | ⟨_ | proc, rfl⟩
  all_goals simp only [exec] at hexec
  case inl.inr.inl =>
    obtain ⟨⟨hfree, -⟩, -⟩ := hv.typed_rest hcontrol rfl
    have hlocked : t.machine.locked = false := hv.agrees.locked.trans hfree
    rw [hlocked, if_neg (by simp)] at hexec
    obtain rfl := Except.ok.inj hexec
    exact hgo _ rfl rfl rfl rfl rfl rfl rfl rfl rfl rfl
  case inr.inr.none => cases hexec
  all_goals
    try split_ifs at hexec
    obtain rfl := Except.ok.inj hexec
    exact hgo _ rfl rfl rfl rfl rfl rfl rfl rfl rfl rfl

/-- A pass of the scheduler over the table. -/
theorem bookkept_scan (hv : Valid t.machine t.thread a) (h : Bookkept t off)
    (hcontrol : t.machine.control = op :: rest)
    (hop : op = .schedulerLoop ∨ ∃ proc, op = .scan proc)
    (hexec : exec choice t.machine rest op = .ok m') :
    ∃ off', Bookkept (t.note m' op) off' := by
  have hkept := h.flagsKept hcontrol
  rcases hop with rfl | ⟨proc, rfl⟩
  · obtain ⟨⟨-, hncli, -⟩, rfl⟩ := hv.typed_last hcontrol rfl
    obtain rfl := Except.ok.inj hexec
    refine ⟨off, h.proceed off rfl rfl rfl h.disabled h.held ?_⟩
    refine flagsKept_acquire fun flag _ j _ => ?_
    rw [hv.ncli_toNat, hncli]
    refine (flagsKept_off rfl).mpr ⟨⟨_, _, rfl, rfl, ?_⟩, fun b' hb => hb.elim⟩
    exact iff_of_true rfl (Or.inr rfl)
  · obtain ⟨⟨-, rfl⟩, rfl⟩ := hv.typed_last hcontrol rfl
    obtain ⟨p, more, hpending, houter, hsettled⟩ := hkept.now.1
    have hflag : t.machine.intFlag = false := hv.agrees.off rfl
    have hone : t.machine.ncli.toNat = 1 := hv.ncli_toNat
    dsimp only at hpending
    simp only [exec] at hexec
    split_ifs at hexec
    · obtain rfl := Except.ok.inj hexec
      refine ⟨true, h.proceed true rfl rfl rfl (fun _ => hflag)
        (fun _ => rfl) ?_⟩
      dsimp only
      rw [hone]
      refine flagsKept_release ?_ fun _ _ => ⟨trivial, fun _ hb => hb.elim⟩
      rintro p' hp' -
      obtain rfl : p = p' := by simpa [Op.book, hpending] using hp'
      exact hsettled
    · obtain rfl := Except.ok.inj hexec
      refine ⟨true, h.proceed true rfl rfl rfl (fun _ => hflag)
        (fun _ => rfl) ?_⟩
      exact (flagsKept_off rfl).mpr ⟨⟨p, more, hpending, houter, hsettled⟩,
        fun _ hb => hb.elim⟩
    · obtain rfl := Except.ok.inj hexec
      refine ⟨true, h.proceed true rfl rfl rfl (fun _ => hflag)
        (fun _ => rfl) ?_⟩
      dsimp only
      rw [hone]
      refine flagsKept_dispatch ⟨p.dispatch, more.map Pending.dispatch, ?_,
        houter, ?_⟩
      · simp only [Op.book, hpending, List.map_cons]
      · have hiff : false = p.flag ↔ p.flag = false := eq_comm
        simpa only [Pending.Settled, Pending.dispatch, reduceCtorEq, or_false]
          using hiff

/-- Both sides of a switch. -/
theorem bookkept_switch (hv : Valid t.machine t.thread a) (h : Bookkept t off)
    (hcontrol : t.machine.control = op :: rest)
    (hop : (∃ proc, op = .switchIn proc) ∨ ∃ proc, op = .switchOut proc)
    (hexec : exec choice t.machine rest op = .ok m') :
    ∃ off', Bookkept (t.note m' op) off' := by
  have hkept := h.flagsKept hcontrol
  rcases hop with ⟨proc, rfl⟩ | ⟨proc, rfl⟩
  · obtain ⟨⟨hthread, rfl⟩, -⟩ := hv.typed_rest hcontrol rfl
    have hone : t.machine.ncli.toNat = 1 := hv.ncli_toNat
    have hncli : t.machine.ncli = 1 := hv.agrees.ncli
    have hoff : off = true := h.held (by omega)
    have hrunning : t.machine.pstate proc = .running :=
      (hv.agrees.phase.1 proc).mpr rfl
    obtain rfl := Except.ok.inj hexec
    have hrest := hkept.now.2 _ rfl
    refine ⟨true, fun _ => hv.agrees.off rfl, fun _ => rfl, ?_, fun _ => ?_,
      ?_, ?_, ?_⟩
    · simp only [Traced.note, hone, Op.thread, hthread, setPending,
        reduceCtorEq, ↓reduceIte]
      exact h.ready proc (by simp [hthread]) (Or.inr hrunning) _
    · simpa [Traced.note, hthread, setPending, Op.book, hone, hoff] using hrest
    · intro i hi hready intena
      simp only [Traced.note, hthread, setPending, reduceCtorEq, ↓reduceIte]
      exact h.ready i (by simp [hthread]) hready intena
    · intro i hi
      obtain rfl := Option.some.inj hi
      exact Or.inr hrunning
    · intro i hi hi'
      simp only [Traced.note, hthread, setPending, reduceCtorEq, ↓reduceIte]
      exact h.blank i hi hi'
  · obtain ⟨⟨hthread, p, rfl, rfl⟩, -⟩ := hv.typed_rest hcontrol rfl
    have hone : t.machine.ncli.toNat = 1 := hv.ncli_toNat
    have hncli : t.machine.ncli = 1 := hv.agrees.ncli
    have hoff : off = true := h.held (by omega)
    obtain rfl := Except.ok.inj hexec
    obtain ⟨hclear, hleaves⟩ := hkept.now
    have hintena : t.machine.intena = false := hclear
    refine ⟨true, fun _ => hv.agrees.off rfl, fun _ => rfl, ?_,
      fun hne => absurd rfl hne, ?_, ?_, ?_⟩
    · simp only [Traced.note, hone, Op.thread, hthread, setPending, hintena,
        reduceCtorEq, ↓reduceIte]
      exact h.scheduler (by simp [hthread])
    · intro i hi hready intena
      simp only [Traced.note, hthread, setPending, Op.book]
      by_cases hip : i = p
      · subst hip
        have hrest := hleaves _ ⟨intena, rfl⟩
        simpa [setContext, hone, hoff, hthread] using hrest
      · have hne : t.thread ≠ some i := by
          rw [hthread]
          exact fun heq => hip (Option.some.inj heq).symm
        simpa [setContext, hip] using h.ready i hne hready intena
    · intro i hi
      cases hi
    · intro i hi hi'
      have hne : some i ≠ t.thread := fun heq =>
        (h.alive i heq.symm).elim hi hi'
      simpa [Traced.note, setPending, hne] using h.blank i hi hi'

/-- The operations on `pstate` of the running thread. -/
theorem bookkept_state (hv : Valid t.machine t.thread a) (h : Bookkept t off)
    (hcontrol : t.machine.control = op :: rest)
    (hop : op = .yieldState ∨ ∃ proc, op = .setRunning proc)
    (hexec : exec choice t.machine rest op = .ok m') :
    ∃ off', Bookkept (t.note m' op) off' := by
  have hkept := h.flagsKept hcontrol
  -- the state of `proc` changes, which runs or is `RUNABLE`
  have hgo : ∀ proc state, (state = .runable ∨ state = .running) →
      (t.machine.pstate proc = .runable ∨ t.machine.pstate proc = .running) →
      FlagsKept rest ⟨t.machine.ncli.toNat, off, t.machine.intena,
        t.pending t.thread⟩ →
      op.book t.machine (t.pending t.thread) = t.pending t.thread →
      op.thread t.thread = t.thread →
        Bookkept (t.note { t.machine with
          pstate := setState t.machine.pstate proc state, control := rest }
          op) off := by
    intro proc state hstate hold hrest hbook hthread
    have hkeep : ∀ i, (setState t.machine.pstate proc state i = .runable ∨
        setState t.machine.pstate proc state i = .running) ↔
          (t.machine.pstate i = .runable ∨ t.machine.pstate i = .running) := by
      intro i
      by_cases hi : i = proc
      · subst hi
        simp only [setState, ↓reduceIte]
        exact iff_of_true hstate hold
      · simp [setState, hi]
    rw [Traced.note, hbook, hthread, setPending_self]
    refine ⟨h.disabled, h.held, hrest, h.scheduler, fun i hi hready =>
      h.ready i hi ((hkeep i).mp hready),
      fun i hi => (hkeep i).mpr (h.alive i hi), fun i hi hi' => ?_⟩
    have hnone := not_or.mp (mt (hkeep i).mpr (not_or.mpr ⟨hi, hi'⟩))
    exact h.blank i hnone.1 hnone.2
  rcases hop with rfl | ⟨proc, rfl⟩
  · obtain ⟨⟨proc, hthread, rfl⟩, -⟩ := hv.typed_rest hcontrol rfl
    have hcur : t.machine.curprocess = some proc := hv.agrees.phase.2
    simp only [exec] at hexec
    split at hexec
    · rename_i p hp
      obtain rfl : proc = p := Option.some.inj (hcur.symm.trans hp)
      obtain rfl := Except.ok.inj hexec
      exact ⟨off, hgo proc .runable (Or.inl rfl) (h.alive proc hthread)
        (hkept.now.2 _ rfl) rfl rfl⟩
    · cases hexec
  · obtain ⟨⟨-, rfl⟩, -⟩ := hv.typed_rest hcontrol rfl
    obtain rfl := Except.ok.inj hexec
    exact ⟨off, hgo proc .running (Or.inr rfl) (Or.inl hv.agrees.phase.2.1)
      (hkept.now.2 _ rfl) rfl rfl⟩

/-- `goto_scheduler` up to its switch, and behind it. -/
theorem bookkept_goto (hv : Valid t.machine t.thread a) (h : Bookkept t off)
    (hcontrol : t.machine.control = op :: rest)
    (hop : op = .gotoScheduler ∨ (∃ proc, op = .saveIntena proc) ∨
      ∃ f, op = .restoreIntena f)
    (hexec : exec choice t.machine rest op = .ok m') :
    ∃ off', Bookkept (t.note m' op) off' := by
  have hkept := h.flagsKept hcontrol
  have hheld : a.ncli = 1 → off = true := by
    intro hone
    have hncli := hv.agrees.ncli
    exact h.held (by omega)
  rcases hop with rfl | ⟨proc, rfl⟩ | ⟨f, rfl⟩
  · obtain ⟨⟨p, -, rfl⟩, -⟩ := hv.typed_rest hcontrol rfl
    obtain rfl := hheld rfl
    obtain rfl := Except.ok.inj hexec
    refine ⟨true, h.proceed true rfl rfl rfl h.disabled h.held ?_⟩
    obtain ⟨hclear, hleaves⟩ := hkept.now
    refine (flagsKept_off rfl).mpr ⟨trivial, ?_⟩
    rintro b' rfl
    refine (flagsKept_off rfl).mpr ⟨trivial, ?_⟩
    rintro b' rfl
    refine (flagsKept_off rfl).mpr ⟨trivial, ?_⟩
    rintro b' rfl
    refine (flagsKept_off rfl).mpr ⟨trivial, ?_⟩
    rintro b' rfl
    refine (flagsKept_off rfl).mpr ⟨hclear, ?_⟩
    rintro b' rfl
    exact hleaves _ rfl
  · obtain ⟨⟨-, p, -, rfl⟩, -⟩ := hv.typed_rest hcontrol rfl
    obtain rfl := hheld rfl
    obtain rfl := Except.ok.inj hexec
    refine ⟨true, h.proceed true rfl rfl rfl h.disabled h.held ?_⟩
    obtain ⟨hclear, hleaves⟩ := hkept.now
    refine (flagsKept_off rfl).mpr ⟨hclear, ?_⟩
    rintro b' ⟨i, rfl⟩
    refine (flagsKept_off rfl).mpr ⟨trivial, ?_⟩
    rintro b' rfl
    exact hleaves _ rfl
  · obtain rfl := Except.ok.inj hexec
    exact h.advance hcontrol _ rfl rfl rfl rfl rfl rfl rfl rfl rfl h.disabled
      h.held

/-- The timer's interrupt, and the way back from an interrupt. -/
theorem bookkept_timer (hv : Valid t.machine t.thread a)
    (h : Bookkept t off) (hcontrol : t.machine.control = op :: rest)
    (hop : op = .timerHandler ∨ ∃ f, op = .iret f)
    (hexec : exec choice t.machine rest op = .ok m') :
    ∃ off', Bookkept (t.note m' op) off' := by
  have hncli := hv.ncli_toNat
  have hkept := h.flagsKept hcontrol
  rcases hop with rfl | ⟨f, rfl⟩
  · obtain ⟨⟨⟨hzero, -⟩, -⟩, -⟩ := hv.typed_rest hcontrol rfl
    have hnone : t.machine.ncli = 0 := by rw [hv.agrees.ncli, hzero]; rfl
    obtain ⟨hoff, hleaves⟩ := hkept.now
    have hoff' : off = true := hoff
    subst hoff'
    have hreturn : ∃ off', Bookkept (t.note { t.machine with control := rest }
        .timerHandler) off' :=
      h.advance hcontrol _ rfl rfl rfl rfl rfl rfl rfl rfl rfl
        (fun hon => by cases hon) fun hpos => by
          dsimp only at hpos
          omega
    have hrest := hleaves _ rfl
    simp only [hncli, hzero] at hrest
    simp only [exec] at hexec
    split at hexec
    · split_ifs at hexec
      · obtain rfl := Except.ok.inj hexec
        refine ⟨true, h.proceed true rfl rfl rfl h.disabled h.held ?_⟩
        dsimp only
        rw [hncli, hzero]
        exact flagsKept_yieldCpu hrest
      · obtain rfl := Except.ok.inj hexec
        exact hreturn
    · obtain rfl := Except.ok.inj hexec
      exact hreturn
  · obtain ⟨⟨hzero, -⟩, -⟩ := hv.typed_rest hcontrol rfl
    have hnone : t.machine.ncli = 0 := by rw [hv.agrees.ncli, hzero]; rfl
    obtain rfl := Except.ok.inj hexec
    exact h.advance hcontrol _ rfl rfl rfl rfl rfl rfl rfl rfl rfl
      (fun hon => by cases hon) fun hpos => by
        dsimp only at hpos
        omega

/-- Other kernel code, and user code that traps into the kernel. -/
theorem bookkept_service (hv : Valid t.machine t.thread a) (h : Bookkept t off)
    (hcontrol : t.machine.control = op :: rest)
    (hop : op = .service ∨ op = .user)
    (hexec : exec choice t.machine rest op = .ok m') :
    ∃ off', Bookkept (t.note m' op) off' := by
  have hkept := h.flagsKept hcontrol
  rcases hop with rfl | rfl
  · have hheld : decide (0 < t.machine.ncli.toNat) = true →
        t.machine.intFlag = false := by
      intro hpos
      have hpos' := of_decide_eq_true hpos
      exact h.disabled (h.held (by omega))
    have hreturn : ∃ off', Bookkept (t.note { t.machine with control := rest }
        .service) off' :=
      h.advance hcontrol _ rfl rfl rfl rfl rfl rfl rfl rfl rfl hheld
        fun hpos => decide_eq_true (by dsimp only at hpos ⊢; omega)
    have hnest : ∃ off', Bookkept (t.note { t.machine with
        control := .pushcli :: .service :: .popcli :: .service :: rest }
        .service) off' :=
      ⟨off, h.proceed off rfl rfl rfl h.disabled h.held (flagsKept_nest hkept)⟩
    cases choice with
    | nest =>
        obtain rfl := Except.ok.inj hexec
        exact hnest
    | _ =>
        obtain rfl := Except.ok.inj hexec
        exact hreturn
  · have hstay : ∃ off', Bookkept (t.note t.machine .user) off' :=
      ⟨off, h.proceed off rfl rfl rfl h.disabled h.held h.control⟩
    obtain ⟨-, rfl⟩ := hv.typed_last hcontrol rfl
    cases choice with
    | trap keep =>
        obtain rfl := Except.ok.inj hexec
        refine ⟨off, h.proceed off rfl rfl rfl (fun hoff => ?_) h.held ?_⟩
        · simp [h.disabled hoff]
        · refine fun j _ => ⟨trivial, ?_⟩
          rintro b' rfl
          exact flagsKept_iret fun _ => flagsKept_user
    | _ =>
        obtain rfl := Except.ok.inj hexec
        exact hstay

/-- One operation. -/
theorem bookkept_exec (hv : Valid t.machine t.thread a) (h : Bookkept t off)
    (hcontrol : t.machine.control = op :: rest)
    (hexec : exec choice t.machine rest op = .ok m') :
    ∃ off', Bookkept (t.note m' op) off' := by
  cases op with
  | pushcli => exact bookkept_pushcli hv h hcontrol (by simp) hexec
  | cli f => exact bookkept_pushcli hv h hcontrol (by simp) hexec
  | count f => exact bookkept_pushcli hv h hcontrol (by simp) hexec
  | popcli => exact bookkept_popcli hv h hcontrol (by simp) hexec
  | uncount => exact bookkept_popcli hv h hcontrol (by simp) hexec
  | sti => exact bookkept_popcli hv h hcontrol (by simp) hexec
  | acquireTest => exact bookkept_pass hv h hcontrol (by simp) hexec
  | acquireXchg => exact bookkept_pass hv h hcontrol (by simp) hexec
  | releaseTest => exact bookkept_pass hv h hcontrol (by simp) hexec
  | releaseClear => exact bookkept_pass hv h hcontrol (by simp) hexec
  | schedulerLoop => exact bookkept_scan hv h hcontrol (by simp) hexec
  | scan proc => exact bookkept_scan hv h hcontrol (by simp) hexec
  | setCurprocess proc => exact bookkept_pass hv h hcontrol (by simp) hexec
  | setRunning proc => exact bookkept_state hv h hcontrol (by simp) hexec
  | switchUvm proc => exact bookkept_pass hv h hcontrol (by simp) hexec
  | switchKvm => exact bookkept_pass hv h hcontrol (by simp) hexec
  | switchIn proc => exact bookkept_switch hv h hcontrol (by simp) hexec
  | switchOut proc => exact bookkept_switch hv h hcontrol (by simp) hexec
  | yieldState => exact bookkept_state hv h hcontrol (by simp) hexec
  | gotoScheduler => exact bookkept_goto hv h hcontrol (by simp) hexec
  | testHolding => exact bookkept_pass hv h hcontrol (by simp) hexec
  | testNcli => exact bookkept_pass hv h hcontrol (by simp) hexec
  | testFlags => exact bookkept_pass hv h hcontrol (by simp) hexec
  | testState proc => exact bookkept_pass hv h hcontrol (by simp) hexec
  | saveIntena proc => exact bookkept_goto hv h hcontrol (by simp) hexec
  | restoreIntena f => exact bookkept_goto hv h hcontrol (by simp) hexec
  | timerHandler => exact bookkept_timer hv h hcontrol (by simp) hexec
  | iret f => exact bookkept_timer hv h hcontrol (by simp) hexec
  | service => exact bookkept_service hv h hcontrol (by simp) hexec
  | user => exact bookkept_service hv h hcontrol (by simp) hexec

/-- The flag after the last operation of a release. -/
theorem bookkept_sti (hv : Valid t.machine t.thread a) (h : Bookkept t off)
    (hcontrol : t.machine.control = .sti :: rest) {p : Pending}
    (hmatching : (t.pending t.thread).head? = some p) (houter : p.outer = true)
    (hexec : exec choice t.machine rest .sti = .ok m') :
    m'.intFlag = p.flag ↔ p.flag = false ∨ p.dispatched = false := by
  obtain ⟨⟨hoff, -⟩, -⟩ := hv.typed_rest hcontrol rfl
  have hkept := h.flagsKept hcontrol
  obtain ⟨hzero, hsettled⟩ := hkept.now.1 p hmatching houter
  have hncli : t.machine.ncli = 0 := by
    have hzero' : t.machine.ncli.toNat = 0 := hzero
    have hpos := hv.agrees.ncli
    omega
  obtain rfl := Except.ok.inj hexec
  have hflag : (t.machine.intFlag || (t.machine.ncli = 0 && t.machine.intena)) =
      t.machine.intena := by
    simp [hv.agrees.off hoff, hncli]
  exact hflag.symm ▸ hsettled

/-- An interrupt puts its handler in front. -/
theorem bookkept_interrupt (h : Bookkept t off)
    (hflag : t.machine.intFlag = true) {handler : Op}
    (hhandler : handler = .timerHandler ∨ handler = .service) :
    Bookkept { t with machine := { t.machine with
      intFlag := false
      control := handler :: .iret true :: t.machine.control } } true := by
  have hon : off = false := by
    by_contra hoff
    rw [h.disabled (by simpa using hoff)] at hflag
    cases hflag
  have hncli : t.machine.ncli.toNat = 0 := by
    by_contra hne
    have hoff := h.held (by omega)
    rw [hon] at hoff
    cases hoff
  subst hon
  have hback : ∀ b : Book, b.ncli = 0 → b.pending = t.pending t.thread →
      FlagsKept (.iret true :: t.machine.control) b := by
    intro b hzero hpending
    refine flagsKept_iret fun j => ?_
    rw [hzero, hpending, ← hncli]
    exact h.control.drift j
  have hcontrol : FlagsKept (handler :: .iret true :: t.machine.control)
      ⟨t.machine.ncli.toNat, true, t.machine.intena, t.pending t.thread⟩ := by
    rw [hncli]
    rcases hhandler with rfl | rfl
    · refine (flagsKept_off rfl).mpr ⟨rfl, ?_⟩
      rintro b' rfl
      exact hback _ rfl rfl
    · refine (flagsKept_off rfl).mpr ⟨trivial, ?_⟩
      rintro b' rfl
      exact hback _ rfl rfl
  rw [← setPending_self t.pending t.thread]
  exact h.proceed true rfl rfl rfl (fun _ => rfl) (fun _ => rfl) hcontrol

/-- A new process. -/
theorem bookkept_create (h : Bookkept t off) {proc : Nat}
    (hnew : t.machine.pstate proc = .unused ∨ t.machine.pstate proc = .embryo) :
    Bookkept { t with machine := { t.machine with
      pstate := setState t.machine.pstate proc .runable
      context := setContext t.machine.context proc freshContext } } off := by
  have hdead : t.machine.pstate proc ≠ .runable ∧
      t.machine.pstate proc ≠ .running := by
    rcases hnew with hnew | hnew <;> simp [hnew]
  refine ⟨h.disabled, h.held, h.control, h.scheduler, ?_, ?_, ?_⟩
  · intro i hi hready intena
    by_cases heq : i = proc
    · subst heq
      simp only [setContext, ↓reduceIte, h.blank i hdead.1 hdead.2]
      exact flagsKept_freshContext
    · simp only [setState, heq, ↓reduceIte] at hready
      simpa [setContext, heq] using h.ready i hi hready intena
  · intro i hi
    by_cases heq : i = proc
    · simp [setState, heq]
    · simpa [setState, heq] using h.alive i hi
  · intro i hi hi'
    by_cases heq : i = proc
    · simp [setState, heq] at hi
    · simp only [setState, heq, ↓reduceIte] at hi hi'
      exact h.blank i hi hi'

/-- The interrupt of a device, like that of the timer, finds nothing held. -/
theorem Valid.deviceStep {m : Machine} {stack : Option Nat}
    (hv : Valid m stack a) : ∃ a', Valid (deviceStep m) stack a' := by
  rw [Linda.deviceStep]
  split_ifs with hflag
  · have hon : a.off = false := by
      by_contra hoff
      rw [hv.agrees.off (by simpa using hoff)] at hflag
      cases hflag
    have hopen := hv.agrees.opened hon
    have hback : Typed stack m.control { a with off := false } := by
      rw [← hon]
      exact hv.control
    have hpost : (Op.post stack { a with off := true } .service) =
        { a with off := false } := by
      simp [Op.post, hopen.1]
    refine ⟨_, hv.proceed { a with off := true } rfl rfl rfl rfl rfl
      hv.agrees.ncli hv.agrees.locked (fun _ => rfl)
      (fun hoff => by simp at hoff) ⟨fun _ => hopen, ?_⟩⟩
    change Typed stack (.iret true :: m.control) _
    rw [hpost]
    exact ⟨hopen, hback⟩
  · exact ⟨a, hv⟩

/-- The invariant of a run. -/
def Traced.Sound (t : Traced) : Prop :=
  (∃ a, Valid t.machine t.thread a) ∧ ∃ off, Bookkept t off

/-- What the release does with the flag. -/
def Traced.Restores (t : Traced) (event : Event) (t' : Traced) : Prop :=
  ∀ p, t.Ends event p →
    (t'.machine.intFlag = p.flag ↔ p.flag = false ∨ p.dispatched = false)

theorem Traced.Sound.step_exec {event : Event} {t' : Traced} (h : t.Sound)
    (hstep : t.step event = .ok t') (hevent : event = .choice choice)
    (hexecutes : event.executes = true) : t'.Sound ∧ t.Restores event t' := by
  subst hevent
  obtain ⟨⟨a, hv⟩, off, hb⟩ := h
  obtain ⟨m', hm', ht'⟩ := ok_of_bind hstep
  rw [hexecutes] at ht'
  have hchoice : choice.executes = true := by
    cases choice with
    | timer | create _ => cases hexecutes
    | run | trap _ | nest => rfl
  cases hcontrol : t.machine.control with
  | nil =>
      rw [hcontrol] at ht'
      rw [step_nil hchoice hcontrol] at hm'
      obtain rfl := Except.ok.inj hm'
      obtain rfl := Except.ok.inj ht'
      refine ⟨⟨⟨a, hv⟩, off, hb⟩, fun p hp => ?_⟩
      have hsti := hp.sti
      rw [hcontrol] at hsti
      cases hsti
  | cons op rest =>
      rw [hcontrol] at ht'
      rw [step_cons hchoice hcontrol] at hm'
      obtain rfl := Except.ok.inj ht'
      have hprogress := exec_progress hv hcontrol choice
      rw [hm'] at hprogress
      refine ⟨⟨hprogress, bookkept_exec hv hb hcontrol hm'⟩, fun p hp => ?_⟩
      have hsti := hp.sti
      rw [hcontrol] at hsti
      obtain rfl := Option.some.inj hsti
      exact bookkept_sti hv hb hcontrol hp.matching hp.outer hm'

theorem Traced.Sound.step {event : Event} {t' : Traced} (h : t.Sound)
    (hstep : t.step event = .ok t') : t'.Sound ∧ t.Restores event t' := by
  by_cases hexecutes : event.executes = true
  · cases event with
    | device => cases hexecutes
    | choice choice => exact h.step_exec hstep rfl hexecutes
  refine ⟨?_, fun p hp => absurd hp.executes hexecutes⟩
  obtain ⟨⟨a, hv⟩, off, hb⟩ := h
  have hquiet : ∀ choice, (Event.choice choice).executes = false →
      t.step (.choice choice) = .ok t' →
        ∃ m', Linda.step choice t.machine = .ok m' ∧
          t' = { t with machine := m' } := by
    intro choice hnot hstep
    obtain ⟨m', hm', ht'⟩ := ok_of_bind hstep
    rw [hnot] at ht'
    exact ⟨m', hm', (Except.ok.inj ht').symm⟩
  cases event with
  | device =>
      obtain rfl := Except.ok.inj hstep
      refine ⟨hv.deviceStep, ?_⟩
      by_cases hflag : t.machine.intFlag = true
      · simp only [Linda.deviceStep, hflag, ↓reduceIte]
        exact ⟨true, bookkept_interrupt hb hflag (Or.inr rfl)⟩
      · simp only [Linda.deviceStep, hflag]
        exact ⟨off, hb⟩
  | choice choice =>
      obtain ⟨m', hm', rfl⟩ := hquiet choice (by simpa using hexecutes) hstep
      cases choice with
      | timer =>
          have hprogress := step_timer hv
          rw [hm'] at hprogress
          refine ⟨hprogress, ?_⟩
          simp only [Linda.step] at hm'
          split_ifs at hm' with hflag
          · obtain rfl := Except.ok.inj hm'
            exact ⟨true, bookkept_interrupt hb hflag (Or.inl rfl)⟩
          · obtain rfl := Except.ok.inj hm'
            exact ⟨off, hb⟩
      | create proc =>
          have hprogress := step_create hv proc
          rw [hm'] at hprogress
          refine ⟨hprogress, ?_⟩
          simp only [Linda.step] at hm'
          split_ifs at hm' with hnew
          · obtain rfl := Except.ok.inj hm'
            exact ⟨off, bookkept_create hb hnew⟩
          · obtain rfl := Except.ok.inj hm'
            exact ⟨off, hb⟩
      | run => exact absurd rfl hexecutes
      | trap keep => exact absurd rfl hexecutes
      | nest => exact absurd rfl hexecutes

end Steps

theorem Machine.Bootstrap.sound {m : Machine} (h : m.Bootstrap) :
    (Traced.start m).Sound := by
  refine ⟨⟨⟨0, false, false, .idle⟩, ?_⟩, false, ?_⟩
  · constructor
    · exact ⟨h.ncli, h.unlocked, fun hoff => by simp at hoff,
        fun _ => ⟨rfl, rfl, rfl⟩, h.notRunning⟩
    · rw [Traced.start, h.control]
      exact ⟨fun _ => ⟨rfl, rfl, rfl⟩, ⟨rfl, rfl, rfl⟩,
        fun _ => ⟨rfl, rfl, rfl⟩, ⟨rfl, rfl, rfl, rfl⟩, rfl⟩
    · exact fun hne => absurd rfl hne
    · intro i _ hready
      exact absurd hready (by simp [Traced.start, h.notRunable i])
  · constructor
    · exact fun hoff => by cases hoff
    · intro hpos
      rw [Traced.start, h.ncli] at hpos
      exact absurd hpos (Int.lt_irrefl 0)
    · rw [Traced.start, h.control]
      intro i _
      refine ⟨trivial, ?_⟩
      rintro b' rfl
      refine flagsKept_iret fun j => ?_
      intro i _
      refine ⟨trivial, ?_⟩
      rintro b' rfl
      exact fun _ _ => ⟨trivial, fun _ hb => hb.elim⟩
    · exact fun hne => absurd rfl hne
    · intro i _ hready
      exact absurd hready (not_or.mpr ⟨h.notRunable i, h.notRunning i⟩)
    · intro i hi
      cases hi
    · exact fun _ _ _ => rfl

/-- In every run a release restores the flag exactly when it was clear at the
acquire or its thread has not dispatched a process in between. -/
theorem restores_of_run {m : Machine} (hboot : m.Bootstrap)
    (events : List Event) :
    EachStep Traced.step Traced.Restores events (Traced.start m) :=
  eachStep_of_invariant Traced.Sound (fun _ _ _ h => h.step) events hboot.sound

/-- The boot thread, with no process yet. -/
def bootThread : Machine := { bootMachine with
  intFlag := false
  pstate := fun _ => .unused
  control := [.service, .iret true, .service, .schedulerLoop] }

theorem bootThread_bootstrap : bootThread.Bootstrap where
  control := rfl
  disabled := rfl
  ncli := rfl
  unlocked := rfl
  curprocess := rfl
  notRunning _ := by simp [bootThread]
  notRunable _ := by simp [bootThread]

/-- A process is created, dispatched and interrupted by the timer, and the
scheduler comes to the end of its pass. -/
def firstPass : List Event :=
  [.choice .run, .choice .run, .choice (.create 0)] ++
    List.replicate 25 (.choice .run) ++ .choice .timer ::
      List.replicate 83 (.choice .run)

theorem restores_firstPass :
    EachStep Traced.step Traced.Restores (firstPass ++ [.choice .run])
      (Traced.start bootThread) :=
  restores_of_run bootThread_bootstrap (firstPass ++ [.choice .run])

/-- The scheduler is at the last step of its release, and what it releases. -/
theorem firstPass_ends :
    (run Traced.step firstPass (Traced.start bootThread)).map (fun t =>
      (t.machine.control.head?, (t.pending t.thread).head?)) =
        .ok (some .sti, some ⟨true, true, true⟩) := by
  rfl

/-- The flag behind that step. -/
theorem firstPass_flag :
    (run Traced.step (firstPass ++ [.choice .run])
      (Traced.start bootThread)).map (fun t => t.machine.intFlag) =
        .ok false := by
  rfl

/-- `scheduler` takes its lock with interrupts enabled; once a process has run
and yielded they stay disabled. -/
theorem scheduler_loses_flag :
    ¬ ∀ (m : Machine), m.Bootstrap → ∀ events : List Event,
      EachStep Traced.step (fun t event t' =>
        ∀ p, t.Ends event p → t'.machine.intFlag = p.flag) events
          (Traced.start m) := by
  intro hall
  have heach := hall _ bootThread_bootstrap (firstPass ++ [.choice .run])
  have hends := firstPass_ends
  have hflag := firstPass_flag
  rw [run_snoc] at hflag
  cases hrun : run Traced.step firstPass (Traced.start bootThread) with
  | error why =>
      rw [hrun] at hends
      cases hends
  | ok t =>
      rw [hrun] at hends hflag
      obtain ⟨hsti, hhead⟩ := Prod.mk.inj (Except.ok.inj hends)
      cases hstep : t.step (.choice .run) with
      | error why =>
          rw [ok_bind, hstep] at hflag
          cases hflag
      | ok t' =>
          rw [ok_bind, hstep] at hflag
          have hclear : t'.machine.intFlag = false := Except.ok.inj hflag
          have hset := heach.last hrun hstep _ ⟨rfl, hsti, hhead, rfl⟩
          rw [hclear] at hset
          cases hset

end Linda
