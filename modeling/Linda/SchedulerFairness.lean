/-
The scheduler's passes over the process table are a round robin: between two
dispatches of a process every other one has its turn once.
-/
import Linda.FuelLoop
import Linda.RoundRobin
import Linda.SchedulerInvariant

namespace Linda

open FuelLoop

/-- `scheduler` makes the process it dispatches `RUNNING`. -/
def Op.dispatches : Op → Option Nat
  | .setRunning proc => some proc
  | _ => none

/-- The process that the next step dispatches. -/
def dispatched (choice : Choice) (m : Machine) : Option Nat :=
  match choice with
  | .timer | .create _ => none
  | _ => m.control.head?.bind Op.dispatches

/-- The processes dispatched in a run, in order. -/
def dispatchLog : List Choice → Machine → List Nat
  | [], _ => []
  | choice :: choices, m => (dispatched choice m).toList ++
      match step choice m with
      | .ok m' => dispatchLog choices m'
      | .error _ => []

/-- The place of the table the scheduler's stack comes to next. -/
def AtTurn (turn : Nat) : List Op → Prop
  | [] => turn = 0
  | .scan proc :: _ => proc = turn
  | .setRunning proc :: rest =>
      proc = turn ∧ proc < nproc ∧ AtTurn (turn + 1) rest
  | _ :: rest => AtTurn turn rest

/-- The stack of `scheduler`, running or suspended. -/
def Machine.schedulerStack (m : Machine) (thread : Option Nat) : List Op :=
  if thread = none then m.control else m.scheduler

/-- The table as the scheduler goes around it: who runs is ready again when the
scheduler comes back. -/
structure Circling (m : Machine) (thread : Option Nat) (s : RoundRobin.State) :
    Prop where
  turn : AtTurn s.turn (m.schedulerStack thread)
  ready : ∀ i, s.ready i ↔ m.pstate i = .runable ∨ m.pstate i = .running

/-- The operations that leave the states, the turn and the stacks alone. -/
def Op.quiet : Op → Bool
  | .schedulerLoop | .scan _ | .setRunning _ => false
  | .switchIn _ | .switchOut _ | .yieldState => false
  | _ => true

section Steps

variable {m m' : Machine} {stack : Option Nat} {a : Abs} {op : Op}
  {rest : List Op} {choice : Choice} {s : RoundRobin.State}

theorem exec_quiet (hop : op.quiet = true) (hcontrol : m.control = op :: rest)
    (hexec : exec choice m rest op = .ok m') :
    m'.pstate = m.pstate ∧ m'.scheduler = m.scheduler ∧
      ∀ turn, AtTurn turn m'.control ↔ AtTurn turn m.control := by
  have hturn : ∀ turn, AtTurn turn rest ↔ AtTurn turn m.control := by
    intro turn
    rw [hcontrol]
    cases op <;> first | rfl | cases hop
  cases op with
  | schedulerLoop | scan _ | setRunning _ | switchIn _ | switchOut _
  | yieldState => cases hop
  | acquireXchg =>
      simp only [exec] at hexec
      split_ifs at hexec
      · obtain rfl := Except.ok.inj hexec
        exact ⟨rfl, rfl, fun _ => Iff.rfl⟩
      · obtain rfl := Except.ok.inj hexec
        exact ⟨rfl, rfl, hturn⟩
  | count eflags =>
      obtain rfl := Except.ok.inj hexec
      exact ⟨rfl, rfl, hturn⟩
  | testState proc =>
      cases proc with
      | none => cases hexec
      | some proc =>
          simp only [exec] at hexec
          split_ifs at hexec
          obtain rfl := Except.ok.inj hexec
          exact ⟨rfl, rfl, hturn⟩
  | timerHandler =>
      simp only [exec] at hexec
      split at hexec
      · split_ifs at hexec
        all_goals
          obtain rfl := Except.ok.inj hexec
          exact ⟨rfl, rfl, hturn⟩
      · obtain rfl := Except.ok.inj hexec
        exact ⟨rfl, rfl, hturn⟩
  | service =>
      cases choice
      all_goals
        obtain rfl := Except.ok.inj hexec
        exact ⟨rfl, rfl, hturn⟩
  | user =>
      cases choice with
      | trap keep =>
          obtain rfl := Except.ok.inj hexec
          exact ⟨rfl, rfl, hturn⟩
      | _ =>
          obtain rfl := Except.ok.inj hexec
          exact ⟨rfl, rfl, fun _ => Iff.rfl⟩
  | _ =>
      simp only [exec] at hexec
      try split_ifs at hexec
      obtain rfl := Except.ok.inj hexec
      exact ⟨rfl, rfl, hturn⟩

theorem Circling.quiet (h : Circling m stack s) (hop : op.quiet = true)
    (hcontrol : m.control = op :: rest)
    (hexec : exec choice m rest op = .ok m') : Circling m' stack s := by
  obtain ⟨hpstate, hscheduler, hturn⟩ := exec_quiet hop hcontrol hexec
  refine ⟨?_, fun i => by rw [hpstate]; exact h.ready i⟩
  have hold := h.turn
  cases stack with
  | none => exact (hturn s.turn).mpr hold
  | some proc =>
      simp only [Machine.schedulerStack, reduceCtorEq, ↓reduceIte] at hold ⊢
      exact hscheduler ▸ hold

/-- The dispatch serves the process at the turn, which is `RUNABLE`. -/
theorem Circling.dispatch {proc : Nat} (h : Circling m stack s)
    (hv : Valid m stack a) (hcontrol : m.control = .setRunning proc :: rest)
    (hexec : exec choice m rest (.setRunning proc) = .ok m') :
    s.turn = proc ∧ proc < nproc ∧ m.pstate proc = .runable ∧
      Circling m' stack ⟨proc + 1, s.ready⟩ := by
  obtain ⟨⟨rfl, rfl⟩, -⟩ := hv.typed_rest hcontrol rfl
  have hrunable : m.pstate proc = .runable := hv.agrees.phase.2.1
  have hold := h.turn
  simp only [Machine.schedulerStack, hcontrol, AtTurn, ↓reduceIte] at hold
  obtain ⟨hturn, hlt, hnext⟩ := hold
  obtain rfl := Except.ok.inj hexec
  refine ⟨hturn.symm, hlt, hrunable, ?_, fun i => ?_⟩
  · rw [← hturn] at hnext
    exact hnext
  · dsimp only
    rw [h.ready i]
    by_cases hi : i = proc
    · simp [setState, hi, hrunable]
    · simp [setState, hi]

theorem Circling.exec (h : Circling m stack s) (hv : Valid m stack a)
    (hcontrol : m.control = op :: rest)
    (hexec : exec choice m rest op = .ok m') :
    ∃ s', RoundRobin.Run nproc s op.dispatches.toList s' ∧
      Circling m' (op.thread stack) s' := by
  have hold := h.turn
  cases op with
  | setRunning proc =>
      obtain ⟨hturn, hlt, hrunable, hnext⟩ := h.dispatch hv hcontrol hexec
      subst hturn
      have hready : s.ready s.turn := (h.ready s.turn).mpr (Or.inl hrunable)
      exact ⟨_, .single (.serve hlt hready), hnext⟩
  | schedulerLoop =>
      obtain ⟨⟨rfl, -⟩, rfl⟩ := hv.typed_last hcontrol rfl
      simp only [Machine.schedulerStack, hcontrol, AtTurn, ↓reduceIte] at hold
      obtain rfl := Except.ok.inj hexec
      exact ⟨s, .refl s, hold.symm, h.ready⟩
  | scan proc =>
      obtain ⟨⟨rfl, rfl⟩, rfl⟩ := hv.typed_last hcontrol rfl
      have hidle : ∀ i, m.pstate i ≠ .running := hv.agrees.phase
      simp only [Machine.schedulerStack, hcontrol, AtTurn, ↓reduceIte] at hold
      subst hold
      simp only [Linda.exec] at hexec
      split_ifs at hexec with hend hstate
      · obtain rfl := Except.ok.inj hexec
        exact ⟨_, .single (.wrap hend), rfl, h.ready⟩
      · obtain rfl := Except.ok.inj hexec
        have hnot : ¬ s.ready s.turn := by
          rw [h.ready]
          exact not_or.mpr ⟨hstate, hidle _⟩
        exact ⟨_, .single (.pass (by omega) hnot), rfl, h.ready⟩
      · obtain rfl := Except.ok.inj hexec
        exact ⟨s, .refl s, ⟨rfl, by omega, rfl⟩, h.ready⟩
  | switchIn proc =>
      obtain ⟨⟨rfl, rfl⟩, -⟩ := hv.typed_rest hcontrol rfl
      simp only [Machine.schedulerStack, hcontrol, AtTurn, ↓reduceIte] at hold
      obtain rfl := Except.ok.inj hexec
      exact ⟨s, .refl s, hold, h.ready⟩
  | switchOut proc =>
      obtain ⟨⟨rfl, p, rfl, rfl⟩, -⟩ := hv.typed_rest hcontrol rfl
      obtain rfl := Except.ok.inj hexec
      exact ⟨s, .refl s, hold, h.ready⟩
  | yieldState =>
      obtain ⟨⟨proc, rfl, rfl⟩, -⟩ := hv.typed_rest hcontrol rfl
      obtain ⟨hrunning, hcur⟩ := hv.agrees.phase
      simp only [Linda.exec] at hexec
      split at hexec
      · rename_i p hp
        obtain rfl : proc = p := Option.some.inj (hcur.symm.trans hp)
        obtain rfl := Except.ok.inj hexec
        refine ⟨s, .refl s, hold, fun i => ?_⟩
        rw [h.ready i]
        by_cases hi : i = proc
        · simp [setState, hi, (hrunning proc).mpr rfl]
        · simp [setState, hi]
      · cases hexec
  | _ => exact ⟨s, .refl s, h.quiet rfl hcontrol hexec⟩

theorem Circling.step (h : Circling m stack s) (hv : Valid m stack a)
    (hstep : step choice m = .ok m') :
    ∃ stack' a' s', Valid m' stack' a' ∧
      RoundRobin.Run nproc s (dispatched choice m).toList s' ∧
      Circling m' stack' s' := by
  have hexec : choice.executes = true →
      dispatched choice m = m.control.head?.bind Op.dispatches →
        ∃ stack' a' s', Valid m' stack' a' ∧
          RoundRobin.Run nproc s (dispatched choice m).toList s' ∧
          Circling m' stack' s' := by
    intro hchoice hlog
    rw [hlog]
    have hm' := hstep
    cases hcontrol : m.control with
    | nil =>
        rw [step_nil hchoice hcontrol] at hm'
        obtain rfl := Except.ok.inj hm'
        exact ⟨stack, a, s, hv, .refl s, h⟩
    | cons op rest =>
        rw [step_cons hchoice hcontrol] at hm'
        have hprogress := exec_progress hv hcontrol choice
        rw [hm'] at hprogress
        obtain ⟨a', hv'⟩ := hprogress
        obtain ⟨s', hrun, hcircle⟩ := h.exec hv hcontrol hm'
        exact ⟨_, a', s', hv', hrun, hcircle⟩
  cases choice with
  | timer =>
      have hprogress := step_timer hv
      rw [hstep] at hprogress
      obtain ⟨a', hv'⟩ := hprogress
      refine ⟨stack, a', s, hv', .refl s, ?_⟩
      simp only [Linda.step] at hstep
      split_ifs at hstep
      · obtain rfl := Except.ok.inj hstep
        refine ⟨?_, h.ready⟩
        have hold := h.turn
        cases stack with
        | none => exact hold
        | some proc => exact hold
      · obtain rfl := Except.ok.inj hstep
        exact h
  | create proc =>
      have hprogress := step_create hv proc
      rw [hstep] at hprogress
      obtain ⟨a', hv'⟩ := hprogress
      simp only [Linda.step] at hstep
      split_ifs at hstep
      · obtain rfl := Except.ok.inj hstep
        refine ⟨stack, a', ⟨s.turn, fun i => s.ready i ∨ i = proc⟩, hv',
          .single (.wake _ fun i => Or.inl), h.turn, fun i => ?_⟩
        dsimp only
        rw [h.ready i]
        by_cases hi : i = proc
        · simp [setState, hi]
        · simp [setState, hi]
      · obtain rfl := Except.ok.inj hstep
        exact ⟨stack, a', s, hv', .refl s, h⟩
  | run => exact hexec rfl rfl
  | trap keep => exact hexec rfl rfl
  | nest => exact hexec rfl rfl

theorem Circling.run {choices : List Choice} (h : Circling m stack s)
    (hv : Valid m stack a) (hrun : runChoices choices m = .ok m') :
    ∃ stack' a' s', Valid m' stack' a' ∧
      RoundRobin.Run nproc s (dispatchLog choices m) s' ∧
      Circling m' stack' s' := by
  induction choices generalizing m stack a s with
  | nil =>
      obtain rfl := Except.ok.inj hrun
      exact ⟨stack, a, s, hv, .refl s, h⟩
  | cons choice choices ih =>
      rw [runChoices] at hrun
      rw [dispatchLog]
      cases hstep : Linda.step choice m with
      | error why =>
          rw [hstep] at hrun
          cases hrun
      | ok m₁ =>
          rw [hstep] at hrun
          obtain ⟨stack₁, a₁, s₁, hv₁, hrun₁, h₁⟩ := h.step hv hstep
          obtain ⟨stack', a', s', hv', hrun', h'⟩ := ih h₁ hv₁ hrun
          exact ⟨stack', a', s', hv', hrun₁.trans hrun', h'⟩

/-- The dispatch is the next operation of the running stack. -/
theorem dispatched_eq_some {proc : Nat} (h : dispatched choice m = some proc) :
    ∃ rest, m.control = .setRunning proc :: rest ∧
      step choice m = exec choice m rest (.setRunning proc) := by
  have hhead : m.control.head?.bind Op.dispatches = some proc ∧
      choice.executes = true := by
    cases choice with
    | timer | create _ => cases h
    | run | trap _ | nest => exact ⟨h, rfl⟩
  obtain ⟨hhead, hchoice⟩ := hhead
  cases hcontrol : m.control with
  | nil =>
      rw [hcontrol] at hhead
      cases hhead
  | cons op rest =>
      rw [hcontrol] at hhead
      cases op with
      | setRunning proc' =>
          obtain rfl : proc' = proc := Option.some.inj hhead
          exact ⟨rest, rfl, step_cons hchoice hcontrol⟩
      | _ => cases hhead

end Steps

/-- In every state of every run the scheduler goes around the table. -/
theorem circling_of_steps {m₀ m : Machine} (hboot : m₀.Boot)
    (hrun : Relation.ReflTransGen Steps m₀ m) :
    ∃ stack a s, Valid m stack a ∧ Circling m stack s := by
  induction hrun with
  | refl =>
      refine ⟨none, _, ⟨0, fun i => m₀.pstate i = .runable ∨
        m₀.pstate i = .running⟩, hboot.valid, ?_, fun _ => Iff.rfl⟩
      simp [Machine.schedulerStack, hboot.control, AtTurn]
  | tail _ hstep ih =>
      obtain ⟨stack, a, s, hv, h⟩ := ih
      obtain ⟨choice, hstep⟩ := hstep
      obtain ⟨stack', a', s', hv', -, h'⟩ := h.step hv hstep
      exact ⟨stack', a', s', hv', h'⟩

/-- What the processes may expect of a scheduler that starts in `m₀`. -/
structure FairRuns (m₀ : Machine) : Prop where
  /-- who is dispatched is `RUNABLE` -/
  runable : ∀ m choice proc, Relation.ReflTransGen Steps m₀ m →
    dispatched choice m = some proc → m.pstate proc = .runable
  /-- between two consecutive dispatches of one process every other one is
  dispatched at most once, and once if it was `RUNABLE` at the first -/
  once : ∀ m m₁ m₂ first between next proc,
    Relation.ReflTransGen Steps m₀ m → dispatched first m = some proc →
      step first m = .ok m₁ → runChoices between m₁ = .ok m₂ →
        proc ∉ dispatchLog between m₁ → dispatched next m₂ = some proc →
          ∀ q < nproc, q ≠ proc → (dispatchLog between m₁).count q ≤ 1 ∧
            (m.pstate q = .runable → (dispatchLog between m₁).count q = 1)

theorem fairRuns_of_boot {m₀ : Machine} (hboot : m₀.Boot) : FairRuns m₀ := by
  constructor
  · intro m choice proc hbefore hdispatch
    obtain ⟨stack, a, s, hv, h⟩ := circling_of_steps hboot hbefore
    obtain ⟨rest, hcontrol, -⟩ := dispatched_eq_some hdispatch
    have hexec : exec choice m rest (.setRunning proc) = .ok _ := rfl
    exact (h.dispatch hv hcontrol hexec).2.2.1
  · intro m m₁ m₂ first between next proc hbefore hfirst hstep hbetween
      hconsecutive hnext q hq hne
    obtain ⟨stack, a, s, hv, h⟩ := circling_of_steps hboot hbefore
    obtain ⟨rest, hcontrol, hexec⟩ := dispatched_eq_some hfirst
    rw [hexec] at hstep
    obtain ⟨hturn, hlt, hrunable, hcircle⟩ := h.dispatch hv hcontrol hstep
    have hprogress := exec_progress hv hcontrol first
    rw [hstep] at hprogress
    obtain ⟨a₁, hv₁⟩ := hprogress
    obtain ⟨stack₂, a₂, s₂, hv₂, hrun, h₂⟩ := hcircle.run hv₁ hbetween
    obtain ⟨rest₂, hcontrol₂, -⟩ := dispatched_eq_some hnext
    have hexec₂ : exec next m₂ rest₂ (.setRunning proc) = .ok _ := rfl
    obtain ⟨hback, -⟩ := h₂.dispatch hv₂ hcontrol₂ hexec₂
    have hready : s.ready proc := (h.ready proc).mpr (Or.inl hrunable)
    obtain ⟨hmost, hone⟩ :=
      RoundRobin.fair hlt hready hrun hconsecutive hback q hq hne
    exact ⟨hmost, fun hq => hone ((h.ready q).mpr (Or.inl hq))⟩

def pairMachine : Machine := { bootMachine with
  pstate := fun i => if i < 2 then .runable else .unused }

theorem pairMachine_boot : pairMachine.Boot := by
  refine ⟨rfl, rfl, rfl, rfl, fun i => ?_, fun _ _ => rfl⟩
  by_cases hi : i < 2
  · simp only [pairMachine, if_pos hi]
    decide
  · simp only [pairMachine, if_neg hi]
    decide

/-- From the dispatch of the first process around the table: each process runs
until the timer interrupts it. -/
def pairRound : List Choice :=
  List.replicate 14 .run ++ .timer :: (List.replicate 32 .run ++
    .timer :: List.replicate 91 .run)

/-- The first process is dispatched, the other one is ready, and the round comes
back to the first. -/
theorem pairRound_eval : (do
    let m ← runChoices (List.replicate 8 .run) pairMachine
    let m₁ ← step .run m
    let m₂ ← runChoices pairRound m₁
    Except.ok (dispatched .run m, m.pstate 1, dispatchLog pairRound m₁,
      dispatched .run m₂)).toOption = some (some 0, .runable, [1], some 0) := by
  decide +kernel

/-- The second process runs once in between. -/
theorem pairMachine_fair : ∃ m m₁ m₂, Relation.ReflTransGen Steps pairMachine m ∧
    dispatched .run m = some 0 ∧ step .run m = .ok m₁ ∧
      runChoices pairRound m₁ = .ok m₂ ∧ dispatched .run m₂ = some 0 ∧
        (dispatchLog pairRound m₁).count 1 = 1 := by
  obtain ⟨m, hbefore, heval⟩ := ok_of_bind (ok_of_toOption pairRound_eval)
  obtain ⟨m₁, hstep, heval⟩ := ok_of_bind heval
  obtain ⟨m₂, hround, heval⟩ := ok_of_bind heval
  simp only [Except.ok.injEq, Prod.mk.injEq] at heval
  obtain ⟨hfirst, hready, hlog, hnext⟩ := heval
  have hsteps := steps_of_runChoices hbefore
  have honce := (fairRuns_of_boot pairMachine_boot).once m m₁ m₂ .run pairRound
    .run 0 hsteps hfirst hstep hround (by simp [hlog]) hnext 1 (by decide)
    (by decide)
  exact ⟨m, m₁, m₂, hsteps, hfirst, hstep, hround, hnext, honce.2 hready⟩

end Linda
