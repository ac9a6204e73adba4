/-
Round robin: a turn that goes around a table of `n` places and serves the
ready ones.  Between two services of one place every other place that was
ready is served once.
-/
import Mathlib.Data.List.Count
import Mathlib.Tactic.Common

namespace RoundRobin

/-- Where the turn is and who is ready. -/
structure State where
  turn : Nat
  ready : Nat → Prop

/-- A step, and the place it serves. -/
inductive Step (n : Nat) : State → Option Nat → State → Prop
  /-- the place whose turn it is; it is ready again when the turn moves on -/
  | serve {s : State} (hturn : s.turn < n) (hready : s.ready s.turn) :
      Step n s (some s.turn) ⟨s.turn + 1, s.ready⟩
  | pass {s : State} (hturn : s.turn < n) (hready : ¬ s.ready s.turn) :
      Step n s none ⟨s.turn + 1, s.ready⟩
  | wrap {s : State} (hturn : n ≤ s.turn) : Step n s none ⟨0, s.ready⟩
  /-- places become ready, none ceases to be -/
  | wake {s : State} (ready : Nat → Prop) (hmore : ∀ i, s.ready i → ready i) :
      Step n s none ⟨s.turn, ready⟩

/-- A run, and the places it serves. -/
inductive Run (n : Nat) : State → List Nat → State → Prop
  | refl (s : State) : Run n s [] s
  | head {s s₁ s' : State} {served : Option Nat} {log : List Nat}
      (hstep : Step n s served s₁) (hrun : Run n s₁ log s') :
      Run n s (served.toList ++ log) s'

variable {n p : Nat} {s s' s₀ : State} {log log' : List Nat}

theorem Run.trans {s'' : State} (h : Run n s log s') (h' : Run n s' log' s'') :
    Run n s (log ++ log') s'' := by
  induction h with
  | refl _ => exact h'
  | head hstep _ ih =>
      rw [List.append_assoc]
      exact .head hstep (ih h')

theorem Run.single {served : Option Nat} (h : Step n s served s') :
    Run n s served.toList s' := by
  have hrun := Run.head h (.refl s')
  rwa [List.append_nil] at hrun

/-- The places the turn has been at since it left `p`. -/
def Behind (p : Nat) (wrapped : Bool) (turn q : Nat) : Prop :=
  if wrapped then p < q ∨ q < turn else p < q ∧ q < turn

/-- Since the service of `p` in `s₀` those behind the turn had their service,
those before it still wait for theirs. -/
structure Since (n p : Nat) (s₀ : State) (log : List Nat) (wrapped : Bool)
    (s : State) : Prop where
  before : wrapped = false → p < s.turn ∧ s.turn ≤ n
  after : wrapped = true → s.turn ≤ p
  self : s.ready p
  served : ∀ q < n, q ≠ p → Behind p wrapped s.turn q →
    log.count q ≤ 1 ∧ (s₀.ready q → log.count q = 1)
  waits : ∀ q < n, q ≠ p → ¬ Behind p wrapped s.turn q →
    log.count q = 0 ∧ (s₀.ready q → s.ready q)

section Since

variable {wrapped : Bool}

/-- The turn moves on; the place it was at has had its service if it was to. -/
theorem Since.advance (h : Since n p s₀ log wrapped s) (hturn : s.turn < n)
    (hne : s.turn ≠ p) {log' : List Nat}
    (hothers : ∀ q, q ≠ s.turn → log'.count q = log.count q)
    (hcount : log'.count s.turn ≤ 1 ∧
      (s₀.ready s.turn → log'.count s.turn = 1)) :
    Since n p s₀ log' wrapped ⟨s.turn + 1, s.ready⟩ := by
  have hbehind : ∀ q, q ≠ s.turn →
      (Behind p wrapped (s.turn + 1) q ↔ Behind p wrapped s.turn q) := by
    intro q hq
    cases wrapped <;> simp only [Behind, Bool.false_eq_true, ↓reduceIte] <;> omega
  have hself : Behind p wrapped (s.turn + 1) s.turn := by
    cases wrapped with
    | false =>
        have hlo := (h.before rfl).1
        simp only [Behind, Bool.false_eq_true, ↓reduceIte]
        omega
    | true =>
        simp only [Behind, ↓reduceIte]
        omega
  constructor
  · intro hfalse
    have hlo := h.before hfalse
    dsimp only
    omega
  · intro htrue
    have hhi := h.after htrue
    dsimp only
    omega
  · exact h.self
  · intro q hq hqp hbehind'
    by_cases heq : q = s.turn
    · subst heq
      exact hcount
    · rw [hothers q heq]
      exact h.served q hq hqp ((hbehind q heq).mp hbehind')
  · intro q hq hqp hbehind'
    have heq : q ≠ s.turn := by
      rintro rfl
      exact hbehind' hself
    rw [hothers q heq]
    exact h.waits q hq hqp (mt (hbehind q heq).mpr hbehind')

theorem Since.not_behind (h : Since n p s₀ log wrapped s) :
    ¬ Behind p wrapped s.turn s.turn := by
  cases wrapped with
  | false => simp [Behind]
  | true =>
      have hhi := h.after rfl
      simp only [Behind, ↓reduceIte]
      omega

/-- One step that does not serve `p`. -/
theorem Since.step (h : Since n p s₀ log wrapped s) (hp : p < n)
    {served : Option Nat} (hstep : Step n s served s')
    (hnone : p ∉ served.toList) :
    ∃ wrapped', Since n p s₀ (log ++ served.toList) wrapped' s' := by
  cases hstep with
  | serve hturn hready =>
      have hne : s.turn ≠ p := fun heq => hnone (by simp [heq])
      obtain ⟨hcount, -⟩ := h.waits _ hturn hne h.not_behind
      refine ⟨wrapped, h.advance hturn hne (fun q hq => ?_) ?_⟩
      · simp [List.count_append, Ne.symm hq]
      · simp [List.count_append, hcount]
  | pass hturn hready =>
      have hne : s.turn ≠ p := fun heq => hready (heq ▸ h.self)
      obtain ⟨hcount, hkeeps⟩ := h.waits _ hturn hne h.not_behind
      refine ⟨wrapped, h.advance hturn hne (fun q _ => ?_) ?_⟩
      · simp
      · simp only [Option.toList_none, List.append_nil, hcount]
        exact ⟨Nat.zero_le 1, fun hready₀ => absurd (hkeeps hready₀) hready⟩
  | wrap hturn =>
      have hwrapped : wrapped = false := by
        by_contra hcon
        have hhi := h.after (by simpa using hcon)
        omega
      subst hwrapped
      have hbehind : ∀ q < n, q ≠ p →
          (Behind p true 0 q ↔ Behind p false s.turn q) := by
        intro q hq hqp
        simp only [Behind, Bool.false_eq_true, ↓reduceIte]
        omega
      rw [Option.toList_none, List.append_nil]
      exact ⟨true, (fun hcon => by cases hcon), fun _ => Nat.zero_le p, h.self,
        fun q hq hqp hb => h.served q hq hqp ((hbehind q hq hqp).mp hb),
        fun q hq hqp hb => h.waits q hq hqp (mt (hbehind q hq hqp).mpr hb)⟩
  | wake ready hmore =>
      rw [Option.toList_none, List.append_nil]
      refine ⟨wrapped, h.before, h.after, hmore p h.self, h.served, ?_⟩
      intro q hq hqp hb
      obtain ⟨hcount, hkeeps⟩ := h.waits q hq hqp hb
      exact ⟨hcount, fun hready => hmore q (hkeeps hready)⟩

theorem Since.run (h : Since n p s₀ log wrapped s) (hp : p < n)
    (hrun : Run n s log' s') (hnone : p ∉ log') :
    ∃ wrapped', Since n p s₀ (log ++ log') wrapped' s' := by
  induction hrun generalizing log wrapped with
  | refl _ => exact ⟨wrapped, by rwa [List.append_nil]⟩
  | head hstep _ ih =>
      rw [List.mem_append, not_or] at hnone
      obtain ⟨wrapped', hnext⟩ := h.step hp hstep hnone.1
      rw [← List.append_assoc]
      exact ih hnext hnone.2

end Since

/-- From one service of `p` until its next turn every other place is served at
most once, and exactly once if it was ready at the first. -/
theorem fair (hp : p < n) (hready : s₀.ready p)
    (hrun : Run n ⟨p + 1, s₀.ready⟩ log s') (hnone : p ∉ log)
    (hturn : s'.turn = p) : ∀ q < n, q ≠ p →
      log.count q ≤ 1 ∧ (s₀.ready q → log.count q = 1) := by
  have hstart : Since n p s₀ [] false ⟨p + 1, s₀.ready⟩ := by
    refine ⟨fun _ => ⟨Nat.lt_succ_self p, hp⟩, (fun hcon => by cases hcon),
      hready, fun q hq hqp hb => ?_, fun q hq hqp hb => ⟨rfl, fun h => h⟩⟩
    simp only [Behind, Bool.false_eq_true, ↓reduceIte] at hb
    omega
  obtain ⟨wrapped, hsince⟩ := hstart.run hp hrun hnone
  intro q hq hqp
  apply hsince.served q hq hqp
  cases wrapped with
  | false =>
      have hlo := (hsince.before rfl).1
      omega
  | true =>
      simp only [Behind, ↓reduceIte]
      omega

end RoundRobin
