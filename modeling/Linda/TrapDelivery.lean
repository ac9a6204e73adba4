/-
Whose interrupt the processor takes, and that every trap comes to its handler
once, in all runs of the controllers and the dispatchers.
-/
import Linda.TrapDispatch
import Mathlib.Algebra.BigOperators.Group.List.Basic

namespace Linda

open Pic8259

variable {α : Type}

namespace Irq

/-- The place in the order in which the inputs are served. -/
def priority : Irq → Nat
  | .master n => if n < slaveLine then n else n + 8
  | .slave n => n + 2

def vector : Irq → Nat
  | .master n => irq0 + n
  | .slave n => irq0 + 8 + n

/-- A device asks at the input, and has not been answered. -/
def Pending (pics : Pair) : Irq → Prop
  | .master n => n ≠ slaveLine ∧ n ∈ pics.master.request
  | .slave n => n ∈ pics.slave.request

end Irq

instance (pics : Pair) : (irq : Irq) → Decidable (irq.Pending pics)
  | .master n => inferInstanceAs (Decidable (n ≠ slaveLine ∧ _))
  | .slave n => inferInstanceAs (Decidable (n ∈ pics.slave.request))

/-- The interrupt `s` → `s'` answers `irq`: the first of those who ask. -/
structure AnswersFirst (s s' : TrapState α) (irq : Irq) : Prop where
  pending : irq.Pending s.pics
  first : ∀ other : Irq, other.Pending s.pics → irq.priority ≤ other.priority
  entered : s'.running.head?.map TrapFrameState.trapno = some irq.vector
  answered : ¬ irq.Pending s'.pics
  others : ∀ other ≠ irq, other.Pending s'.pics ↔ other.Pending s.pics

/-- The slave is asked for a request that was taken back. -/
structure AnswersNone (s s' : TrapState α) : Prop where
  withdrawn : ∀ n, ¬ (Irq.slave n).Pending s.pics
  entered : s'.running.head?.map TrapFrameState.trapno = some irq15
  answered : slaveLine ∉ s'.pics.master.request
  others : ∀ other : Irq, other.Pending s'.pics ↔ other.Pending s.pics

namespace Served

variable {s : TrapState α} {n k : Line}

theorem asks_of_pending (h : Served s) (hon : s.intFlag = true) {irq : Irq}
    (hpending : irq.Pending s.pics) : s.pics.master.next.isSome := by
  obtain ⟨hmaster, hslave⟩ := h.nothingServed (h.enabled hon)
  rw [Pic.next_isSome_iff, hmaster, h.ready.master.mask]
  cases irq with
  | master n => exact ⟨n, hpending.2, by simp, by simp⟩
  | slave n =>
      have hasks : s.pics.slave.next.isSome := by
        rw [Pic.next_isSome_iff, hslave, h.ready.slave.mask]
        exact ⟨n, hpending, by simp, by simp⟩
      exact ⟨slaveLine, h.ready.linked hasks, by simp, by simp⟩

/-- A line of the master's own is answered. -/
theorem answers_master (h : Served s) (hon : s.intFlag = true)
    (hnext : s.pics.master.next = some n) (hline : n ≠ slaveLine) :
    AnswersFirst s (s.enter (s.pics.acknowledge slaveLine).2
      (s.pics.acknowledge slaveLine).1) (.master n) := by
  have hurgent := Pic.next_eq_some_iff.mp hnext
  have hmask : ∀ m, m ∉ s.pics.master.mask := by
    simp [h.ready.master.mask]
  have hack : s.pics.acknowledge slaveLine =
      (⟨s.pics.master.acknowledge, s.pics.slave⟩, s.pics.master.vector) := by
    rw [Pair.acknowledge, if_neg]
    rw [hnext]
    exact fun heq => hline (Option.some.inj heq)
  have hrequest : s.pics.master.acknowledge.request =
      s.pics.master.request.erase n := by
    rw [Pic.acknowledge, hnext]
  rw [hack]
  refine ⟨⟨hline, hurgent.request⟩, ?_, ?_, ?_, ?_⟩
  · intro other hother
    cases other with
    | master m =>
        have hle : n.val ≤ m.val := hurgent.first m hother.2 (hmask m)
        simp only [Irq.priority, slaveLine, Fin.lt_def]
        split <;> split <;> omega
    | slave m =>
        have hasks : s.pics.slave.next.isSome := by
          rw [Pic.next_isSome_iff, (h.nothingServed (h.enabled hon)).2,
            h.ready.slave.mask]
          exact ⟨m, hother, by simp, by simp⟩
        have hle := hurgent.first slaveLine (h.ready.linked hasks) (hmask _)
        have hlt : n < slaveLine := lt_of_le_of_ne hle hline
        have hval : n.val < 2 := hlt
        simp only [Irq.priority, if_pos hlt]
        omega
  · have hbase : s.pics.master.base.toNat = 0x20 :=
      congrArg BitVec.toNat h.ready.master.base
    change some (s.pics.master.base.toNat + s.pics.master.answer.val) = _
    rw [Pic.answer, hnext, hbase]
    rfl
  · intro hpending
    have hmem : n ∈ s.pics.master.acknowledge.request := hpending.2
    rw [hrequest] at hmem
    exact Finset.notMem_erase n _ hmem
  · intro other hother
    cases other with
    | master m =>
        have hne : m ≠ n := fun heq => hother (heq ▸ rfl)
        change m ≠ slaveLine ∧ m ∈ s.pics.master.acknowledge.request ↔ _
        rw [hrequest, Finset.mem_erase]
        exact and_congr_right fun _ => and_iff_right hne
    | slave m => exact Iff.rfl

/-- The slave asks, and no line before its own. -/
theorem answers_slave (h : Served s)
    (hline : s.pics.master.next = some slaveLine)
    (hnext : s.pics.slave.next = some k) :
    AnswersFirst s (s.enter (s.pics.acknowledge slaveLine).2
      (s.pics.acknowledge slaveLine).1) (.slave k) := by
  have hurgent := Pic.next_eq_some_iff.mp hline
  have hurgentSlave := Pic.next_eq_some_iff.mp hnext
  have hmaster : ∀ m, m ∉ s.pics.master.mask := by simp [h.ready.master.mask]
  have hslave : ∀ m, m ∉ s.pics.slave.mask := by simp [h.ready.slave.mask]
  have hack : s.pics.acknowledge slaveLine =
      (⟨s.pics.master.acknowledge, s.pics.slave.acknowledge⟩,
        s.pics.slave.vector) := by
    rw [Pair.acknowledge, if_pos hline]
  have hmasterRequest : s.pics.master.acknowledge.request =
      s.pics.master.request.erase slaveLine := by
    rw [Pic.acknowledge, hline]
  have hslaveRequest : s.pics.slave.acknowledge.request =
      s.pics.slave.request.erase k := by
    rw [Pic.acknowledge, hnext]
  rw [hack]
  refine ⟨hurgentSlave.request, ?_, ?_, ?_, ?_⟩
  · intro other hother
    cases other with
    | master m =>
        have hle : 2 ≤ m.val := hurgent.first m hother.2 (hmaster m)
        have hne : m.val ≠ 2 := fun heq => hother.1 (Fin.ext heq)
        have hlast : ¬ m < slaveLine := by
          intro hlt
          have hval : m.val < 2 := hlt
          omega
        simp only [Irq.priority, if_neg hlast]
        omega
    | slave m =>
        exact Nat.add_le_add_right (hurgentSlave.first m hother (hslave m)) 2
  · have hbase : s.pics.slave.base.toNat = 0x28 :=
      congrArg BitVec.toNat h.ready.slave.base
    change some (s.pics.slave.base.toNat + s.pics.slave.answer.val) = _
    rw [Pic.answer, hnext, hbase]
    rfl
  · intro hpending
    have hmem : k ∈ s.pics.slave.acknowledge.request := hpending
    rw [hslaveRequest] at hmem
    exact Finset.notMem_erase k _ hmem
  · intro other hother
    cases other with
    | master m =>
        change m ≠ slaveLine ∧ m ∈ s.pics.master.acknowledge.request ↔ _
        rw [hmasterRequest, Finset.mem_erase]
        exact and_congr_right fun hne => and_iff_right hne
    | slave m =>
        have hne : m ≠ k := fun heq => hother (heq ▸ rfl)
        change m ∈ s.pics.slave.acknowledge.request ↔ _
        rw [hslaveRequest, Finset.mem_erase]
        exact and_iff_right hne

/-- The line of the slave is up, but nothing is asked for there any more. -/
theorem answersNone (h : Served s) (hon : s.intFlag = true)
    (hline : s.pics.master.next = some slaveLine)
    (hnext : s.pics.slave.next = none) :
    AnswersNone s (s.enter (s.pics.acknowledge slaveLine).2
      (s.pics.acknowledge slaveLine).1) := by
  have hack : s.pics.acknowledge slaveLine =
      (⟨s.pics.master.acknowledge, s.pics.slave⟩, s.pics.slave.vector) := by
    rw [Pair.acknowledge, if_pos hline]
    simp only [Pic.acknowledge, hnext]
  have hrequest : s.pics.master.acknowledge.request =
      s.pics.master.request.erase slaveLine := by
    rw [Pic.acknowledge, hline]
  have hempty := (Pic.next_eq_none_iff
    (h.nothingServed (h.enabled hon)).2).mp hnext
  rw [hack]
  refine ⟨?_, ?_, ?_, ?_⟩
  · intro n hpending
    have hmem := hempty n hpending
    rw [h.ready.slave.mask] at hmem
    exact Finset.notMem_empty n hmem
  · have hbase : s.pics.slave.base.toNat = 0x28 :=
      congrArg BitVec.toNat h.ready.slave.base
    change some (s.pics.slave.base.toNat + s.pics.slave.answer.val) = _
    rw [Pic.answer, hnext, hbase]
    rfl
  · change slaveLine ∉ s.pics.master.acknowledge.request
    rw [hrequest]
    exact Finset.notMem_erase _ _
  · intro other
    cases other with
    | master m =>
        change m ≠ slaveLine ∧ m ∈ s.pics.master.acknowledge.request ↔ _
        rw [hrequest, Finset.mem_erase]
        exact and_congr_right fun hne => and_iff_right hne
    | slave m => exact Iff.rfl

end Served

/-- With interrupts on, an input that asks is never blocked: the processor can
take an interrupt, and what it takes is the first of those who ask, unless the
slave answers for a request that was taken back. -/
theorem interrupt_answers (handlers : Nat → Option α) (s : TrapState α)
    (h : s.Reachable handlers) (hon : s.intFlag = true) (irq : Irq)
    (hpending : irq.Pending s.pics) :
    ∃ s', s.step .interrupt = some s' ∧
      ((∃ first, AnswersFirst s s' first) ∨ AnswersNone s s') := by
  have hserved := served_of_reachable handlers s h
  have hasks := hserved.asks_of_pending hon hpending
  refine ⟨_, by rw [TrapState.step, if_pos hon], ?_⟩
  obtain ⟨n, hn⟩ := Option.isSome_iff_exists.mp hasks
  by_cases hline : n = slaveLine
  · rw [hline] at hn
    cases hnext : s.pics.slave.next with
    | some k => exact .inl ⟨_, hserved.answers_slave hn hnext⟩
    | none => exact .inr (hserved.answersNone hon hn hnext)
  · exact .inl ⟨_, hserved.answers_master hon hn hline⟩

/-- The timer and the disk ask. -/
def bothAsk : List TrapEvent :=
  [.setFlag true, .raise (.slave diskLine), .raise (.master timerLine)]

theorem interrupt_answers_bothAsk : ∃ s : TrapState Nat,
    TrapState.run bothAsk
      (TrapState.boot (fun v => some v) firmwarePics) = some s ∧
      ∃ s', s.step .interrupt = some s' ∧
        ((∃ first, AnswersFirst s s' first) ∨ AnswersNone s s') :=
  ⟨_, rfl, interrupt_answers (fun v => some v) _
    (reachable_of_run bothAsk (TrapState.boot_reachable _ firmwarePics) rfl)
    rfl (.slave diskLine) (by decide)⟩

/-- The trap `vector` of a frame has not come to a handler. -/
def TrapFrameState.Unhandled (vector : Nat) (f : TrapFrameState) : Prop :=
  f.trapno = vector ∧ f.stage ≠ .handling ∧ f.stage ≠ .returned

instance (vector : Nat) (f : TrapFrameState) : Decidable (f.Unhandled vector) :=
  inferInstanceAs (Decidable (_ ∧ _ ∧ _))

/-- How many traps `vector` on a stack have not come to a handler. -/
def TrapStack.unhandled (vector : Nat) (stack : TrapStack) : Nat :=
  stack.countP (·.Unhandled vector)

def TrapState.unhandled (vector : Nat) (s : TrapState α) : Nat :=
  s.running.unhandled vector + (s.waiting.map (TrapStack.unhandled vector)).sum

theorem TrapStack.unhandled_cons (vector : Nat) (f : TrapFrameState)
    (rest : TrapStack) : TrapStack.unhandled vector (f :: rest) =
      rest.unhandled vector + if f.Unhandled vector then 1 else 0 := by
  rw [TrapStack.unhandled, List.countP_cons]
  simp only [decide_eq_true_eq, TrapStack.unhandled]

theorem TrapFrameState.unhandled_of_stage {f : TrapFrameState} {vector : Nat}
    (hhandling : f.stage ≠ .handling) (hreturned : f.stage ≠ .returned) :
    f.Unhandled vector ↔ f.trapno = vector :=
  and_iff_left ⟨hhandling, hreturned⟩

/-- Every trap is handled by the handler of its vector, and once; a trap
without one is in `panic`. -/
structure HandledOnce (handlers : Nat → Option α) (s : TrapState α) : Prop where
  handlers_eq : s.handlers = handlers
  once : ∀ vector, vector ≠ irq7 →
    s.taken.count vector =
      (s.calls.map Prod.fst).count vector + s.unhandled vector
  own : ∀ call ∈ s.calls, call.1 ≠ irq7 ∧ handlers call.1 = some call.2
  panicked : ∀ stack ∈ s.running :: s.waiting, ∀ f ∈ stack,
    f.stage = .panicked → handlers f.trapno = none

namespace HandledOnce

variable {handlers : Nat → Option α} {s s' : TrapState α} {pics : Pair}
  {flag : Bool}

theorem enter {vector : Nat} (h : HandledOnce handlers s) :
    HandledOnce handlers (s.enter vector pics) where
  handlers_eq := h.handlers_eq
  once v hv := by
    have honce := h.once v hv
    rw [TrapState.unhandled] at honce
    rw [TrapState.enter, TrapState.unhandled, TrapStack.unhandled_cons,
      List.count_cons]
    simp only [TrapFrameState.Unhandled, beq_iff_eq, ne_eq, reduceCtorEq,
      not_false_eq_true, and_true]
    omega
  own := h.own
  panicked stack hstack f hf hstage := by
    rcases List.mem_cons.mp hstack with rfl | hstack
    · rcases List.mem_cons.mp hf with rfl | hf
      · cases hstage
      · exact h.panicked _ List.mem_cons_self f hf hstage
    · exact h.panicked stack (List.mem_cons_of_mem _ hstack) f hf hstage

/-- The dispatcher goes on to `stage`, with what it has called. -/
theorem atStage {f : TrapFrameState} {rest : TrapStack} {stage : DispatchStage}
    (called : List (Nat × α)) (h : HandledOnce handlers s)
    (hrunning : s.running = f :: rest) (hcalled : ∀ call ∈ called,
      call.1 ≠ irq7 ∧ handlers call.1 = some call.2)
    (hcount : ∀ v, v ≠ irq7 → (if f.Unhandled v then 1 else 0) =
      (called.map Prod.fst).count v +
        if { f with stage := stage }.Unhandled v then 1 else 0)
    (hpanicked : stage = .panicked → handlers f.trapno = none) :
    HandledOnce handlers (TrapState.atStage f rest stage
      { s with pics := pics, calls := called ++ s.calls }) where
  handlers_eq := h.handlers_eq
  once v hv := by
    have honce := h.once v hv
    have hmoved := hcount v hv
    rw [TrapState.unhandled, hrunning, TrapStack.unhandled_cons] at honce
    rw [TrapState.atStage, TrapState.unhandled, TrapStack.unhandled_cons,
      List.map_append, List.count_append]
    dsimp only
    omega
  own call hcall := by
    rcases List.mem_append.mp hcall with hcall | hcall
    · exact hcalled call hcall
    · exact h.own call hcall
  panicked stack hstack g hg hstage := by
    rcases List.mem_cons.mp hstack with rfl | hstack
    · rcases List.mem_cons.mp hg with rfl | hg
      · exact hpanicked hstage
      · exact h.panicked s.running List.mem_cons_self g
          (by rw [hrunning]; exact List.mem_cons_of_mem f hg) hstage
    · exact h.panicked stack (List.mem_cons_of_mem _ hstack) g hg hstage

theorem dispatch {f : TrapFrameState} {rest : TrapStack}
    (h : HandledOnce handlers s) (hrunning : s.running = f :: rest)
    (hstep : s.dispatch f rest = some s') : HandledOnce handlers s' := by
  -- while no handler is called, the frame counts as it did
  have hsame : ∀ {stage} {pics : Pair}, f.stage ≠ .handling →
      f.stage ≠ .returned → stage ≠ .handling → stage ≠ .returned →
      (stage = .panicked → handlers f.trapno = none) →
      HandledOnce handlers (TrapState.atStage f rest stage
        { s with pics := pics }) := by
    intro stage pics hhandling hreturned hhandling' hreturned' hpanicked
    apply h.atStage [] hrunning (by simp) _ hpanicked
    intro v _
    rw [List.map_nil, List.count_nil, Nat.zero_add,
      if_congr (TrapFrameState.unhandled_of_stage hhandling hreturned) rfl rfl,
      if_congr (TrapFrameState.unhandled_of_stage hhandling' hreturned') rfl rfl]
  rw [TrapState.dispatch] at hstep
  cases hstage : f.stage with
  | entered =>
      simp only [hstage] at hstep
      cases hstep
      split
      · exact hsame (by simp [hstage]) (by simp [hstage]) (by simp) (by simp)
          (by simp)
      · exact hsame (by simp [hstage]) (by simp [hstage]) (by simp) (by simp)
          (by simp)
  | slaveEnded =>
      simp only [hstage] at hstep
      cases hstep
      exact hsame (by simp [hstage]) (by simp [hstage]) (by simp) (by simp)
        (by simp)
  | ended =>
      simp only [hstage] at hstep
      by_cases hirq7 : f.trapno = irq7
      · rw [if_pos hirq7] at hstep
        cases hstep
        apply h.atStage [] hrunning (by simp) _ (by simp)
        intro v hv
        have hother : ¬ f.Unhandled v := fun hboth =>
          hv (hboth.1.symm.trans hirq7)
        have hreturned : ¬ { f with stage := .returned }.Unhandled v :=
          fun hboth => hboth.2.2 rfl
        rw [if_neg hother, if_neg hreturned]
        rfl
      · rw [if_neg hirq7] at hstep
        cases hhandler : s.handlers f.trapno with
        | none =>
            simp only [hhandler] at hstep
            cases hstep
            exact hsame (by simp [hstage]) (by simp [hstage]) (by simp)
              (by simp) (fun _ => h.handlers_eq ▸ hhandler)
        | some handler =>
            simp only [hhandler] at hstep
            cases hstep
            apply h.atStage [(f.trapno, handler)] hrunning _ _ (by simp)
            · intro call hcall
              obtain rfl := List.mem_singleton.mp hcall
              exact ⟨hirq7, h.handlers_eq ▸ hhandler⟩
            · intro v _
              have hhandled : ¬ { f with stage := .handling }.Unhandled v :=
                fun hboth => hboth.2.1 rfl
              rw [if_neg hhandled, Nat.add_zero, List.map_singleton,
                List.count_singleton, if_congr
                  (TrapFrameState.unhandled_of_stage (by simp [hstage])
                    (by simp [hstage])) rfl rfl]
              simp only [beq_iff_eq]
  | handling =>
      simp only [hstage] at hstep
      cases hstep
  | returned =>
      simp only [hstage] at hstep
      cases hstep
  | panicked =>
      simp only [hstage] at hstep
      cases hstep

/-- The processor goes to another stack, with the same traps to handle. -/
theorem moveTo {stack : TrapStack} {waiting : List TrapStack} (flag : Bool)
    (h : HandledOnce handlers s)
    (hcount : ∀ v, TrapStack.unhandled v stack +
      (waiting.map (TrapStack.unhandled v)).sum = s.unhandled v)
    (hframes : ∀ other ∈ stack :: waiting, ∀ f ∈ other,
      f.stage = .panicked → ∃ known ∈ s.running :: s.waiting, f ∈ known) :
    HandledOnce handlers
      { s with intFlag := flag, running := stack, waiting := waiting } where
  handlers_eq := h.handlers_eq
  once v hv := by
    rw [h.once v hv, ← hcount v]
    rfl
  own := h.own
  panicked other hother f hf hstage := by
    obtain ⟨known, hknown, hmem⟩ := hframes other hother f hf hstage
    exact h.panicked known hknown f hmem hstage

theorem device {irq : Irq} {change : Line → Pic → Pic}
    (h : HandledOnce handlers s) (hstep : s.device irq change = some s') :
    HandledOnce handlers s' := by
  cases irq with
  | master n =>
      rw [TrapState.device] at hstep
      by_cases hn : n = slaveLine
      · rw [if_pos hn] at hstep
        cases hstep
      · rw [if_neg hn] at hstep
        cases hstep
        exact { h with }
  | slave n =>
      cases hstep
      exact { h with }

theorem step {event : TrapEvent} (h : HandledOnce handlers s)
    (hstep : s.step event = some s') : HandledOnce handlers s' := by
  cases event with
  | raise irq => exact h.device hstep
  | lower irq => exact h.device hstep
  | interrupt =>
      rw [TrapState.step] at hstep
      by_cases hon : s.intFlag = true
      · rw [if_pos hon] at hstep
        cases hstep
        exact h.enter
      · rw [if_neg hon] at hstep
        cases hstep
  | trap vector =>
      rw [TrapState.step] at hstep
      by_cases hcan : s.running.Ordinary ∧ (vector < 32 ∨ vector = irqSyscall)
      · rw [if_pos hcan] at hstep
        cases hstep
        exact h.enter
      · rw [if_neg hcan] at hstep
        cases hstep
  | dispatch =>
      rw [TrapState.step] at hstep
      cases hrunning : s.running with
      | nil =>
          rw [hrunning] at hstep
          cases hstep
      | cons f rest =>
          rw [hrunning] at hstep
          exact h.dispatch hrunning hstep
  | setFlag flag =>
      rw [TrapState.step] at hstep
      split at hstep
      · cases hstep
        exact { h with }
      · cases hstep
  | iret =>
      rw [TrapState.step] at hstep
      cases hrunning : s.running with
      | nil =>
          rw [hrunning] at hstep
          cases hstep
      | cons f rest =>
          simp only [hrunning] at hstep
          by_cases hcan : f.stage = .handling ∨ f.stage = .returned
          · rw [if_pos hcan] at hstep
            cases hstep
            apply h.moveTo
            · intro v
              have hhandled : ¬ f.Unhandled v := by
                rintro ⟨-, hhandling, hreturned⟩
                exact hcan.elim hhandling hreturned
              rw [TrapState.unhandled, hrunning, TrapStack.unhandled_cons,
                if_neg hhandled, Nat.add_zero]
            · intro other hother g hg _
              rcases List.mem_cons.mp hother with rfl | hother
              · exact ⟨s.running, List.mem_cons_self, by
                  rw [hrunning]
                  exact List.mem_cons_of_mem f hg⟩
              · exact ⟨other, List.mem_cons_of_mem _ hother, hg⟩
          · rw [if_neg hcan] at hstep
            cases hstep
  | switch stack =>
      rw [TrapState.step] at hstep
      by_cases hcan : s.running.Ordinary ∧ stack ∈ s.waiting
      · rw [if_pos hcan] at hstep
        cases hstep
        apply h.moveTo s.intFlag
        · intro v
          have hsum := ((List.perm_cons_erase hcan.2).map
            (TrapStack.unhandled v)).sum_eq
          rw [List.map_cons, List.sum_cons] at hsum
          rw [TrapState.unhandled, List.map_cons, List.sum_cons, hsum]
          exact Nat.add_left_comm _ _ _
        · intro other hother g hg _
          rcases List.mem_cons.mp hother with rfl | hother
          · exact ⟨_, List.mem_cons_of_mem _ hcan.2, hg⟩
          · rcases List.mem_cons.mp hother with rfl | hother
            · exact ⟨_, List.mem_cons_self, hg⟩
            · exact ⟨_, List.mem_cons_of_mem _ (List.mem_of_mem_erase hother),
                hg⟩
      · rw [if_neg hcan] at hstep
        cases hstep
  | create trapno intFlag =>
      rw [TrapState.step] at hstep
      by_cases hcan : s.running.Ordinary
      · rw [if_pos hcan] at hstep
        cases hstep
        apply h.moveTo s.intFlag
        · intro v
          have hnone : TrapStack.unhandled v
              [⟨trapno, .handling, intFlag, ∅, ∅⟩] = 0 := by
            rw [TrapStack.unhandled_cons, if_neg fun hboth => hboth.2.1 rfl]
            rfl
          rw [TrapState.unhandled, List.map_cons, List.sum_cons, hnone,
            Nat.zero_add]
        · intro other hother g hg hstage
          rcases List.mem_cons.mp hother with rfl | hother
          · exact ⟨_, List.mem_cons_self, hg⟩
          · rcases List.mem_cons.mp hother with rfl | hother
            · obtain rfl := List.mem_singleton.mp hg
              cases hstage
            · exact ⟨_, List.mem_cons_of_mem _ hother, hg⟩
      · rw [if_neg hcan] at hstep
        cases hstep

end HandledOnce

theorem HandledOnce.of_reachable {handlers : Nat → Option α} {s : TrapState α}
    (h : s.Reachable handlers) : HandledOnce handlers s := by
  obtain ⟨pics, hrun⟩ := h
  induction hrun with
  | refl =>
      refine ⟨rfl, fun _ _ => rfl, ?_, ?_⟩
      · rintro call ⟨⟩
      · intro stack hstack f hf
        obtain rfl := List.mem_singleton.mp hstack
        cases hf
  | tail _ hstep ih =>
      obtain ⟨event, hstep⟩ := hstep
      exact ih.step hstep

/-- The calls of `register_trap_handler` at the boot, on the table cleared by
`trap_init`. -/
def registerTrapHandlers (registrations : List (Nat × α)) :
    Except Nat (Nat → Option α) :=
  registrations.foldlM (fun handlers r => registerTrapHandler r.1 r.2 handlers)
    fun _ => none

/-- The handler registered last for a vector. -/
def lastRegistered (registrations : List (Nat × α)) (vector : Nat) : Option α :=
  (registrations.reverse.find? (·.1 = vector)).map Prod.snd

theorem registerTrapHandlers_ok {registrations : List (Nat × α)}
    {handlers : Nat → Option α}
    (h : registerTrapHandlers registrations = .ok handlers) :
    handlers = lastRegistered registrations := by
  induction registrations using List.reverseRecOn generalizing handlers with
  | nil =>
      cases h
      rfl
  | append_singleton registrations r ih =>
      rw [registerTrapHandlers, List.foldlM_append] at h
      change (registerTrapHandlers registrations >>= _) = _ at h
      cases hbefore : registerTrapHandlers registrations with
      | error trapno =>
          rw [hbefore] at h
          cases h
      | ok before =>
          have hlast := ih hbefore
          rw [hbefore] at h
          change (registerTrapHandler r.1 r.2 before >>= pure) = _ at h
          rw [bind_pure, registerTrapHandler] at h
          by_cases hallowed : r.1 ∈ allowedTraps
          · rw [if_pos hallowed] at h
            cases h
            funext v
            rw [lastRegistered, List.reverse_append, List.reverse_singleton,
              List.singleton_append, List.find?_cons]
            by_cases hv : v = r.1
            · simp [hv]
            · simp [hv, Ne.symm hv, hlast, lastRegistered]
          · rw [if_neg hallowed] at h
            cases h

/-- Whatever the boot has registered, in every run no trap is lost, none is
handled twice, and each is handled by the handler registered last. -/
theorem handledOnce_of_registered (registrations : List (Nat × α))
    (handlers : Nat → Option α)
    (hregistered : registerTrapHandlers registrations = .ok handlers)
    (s : TrapState α) (h : s.Reachable handlers) :
    HandledOnce (lastRegistered registrations) s := by
  rw [← registerTrapHandlers_ok hregistered]
  exact HandledOnce.of_reachable h

inductive BootHandler where
  | pageFaultHandler
  | kbdTrapHandler
  | timerHandler
  | syscallHandler
  | ideHandler
deriving Repr, DecidableEq

/-- What `kmap_init`, `kbd_init`, `timer_setup`, `syscall_init` and `ide_init`
register, in the order of `kern_bootstrap`. -/
def bootRegistrations : List (Nat × BootHandler) :=
  [(cpuPF, .pageFaultHandler), (irq1, .kbdTrapHandler), (irq0, .timerHandler),
    (irqSyscall, .syscallHandler), (irq14, .ideHandler)]

theorem handledOnce_timerBeforeDisk : ∃ handlers s,
    registerTrapHandlers bootRegistrations = .ok handlers ∧
      TrapState.run timerBeforeDisk (TrapState.boot handlers firmwarePics) =
        some s ∧
      HandledOnce (lastRegistered bootRegistrations) s :=
  ⟨_, _, rfl, rfl, handledOnce_of_registered bootRegistrations _ rfl _
    (reachable_of_run timerBeforeDisk (TrapState.boot_reachable _ firmwarePics)
      rfl)⟩

end Linda
