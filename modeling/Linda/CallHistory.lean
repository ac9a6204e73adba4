/-
Histories of calls: what holds between the states before and after each call
of a sequence, until one of them stops.
-/
import Linda.FuelLoop
import Mathlib.Tactic.Common

namespace CallHistory

universe u v w

variable {σ : Type u} {α : Type v} {ε : Type w}
variable {step : α → σ → Except ε σ} {P Q : σ → α → σ → Prop}

/-- The state the calls lead to, unless one of them stops. -/
def run (step : α → σ → Except ε σ) : List α → σ → Except ε σ
  | [], s => .ok s
  | call :: calls, s => do run step calls (← step call s)

/-- `P` holds between the states around every call that returns. -/
def EachStep (step : α → σ → Except ε σ) (P : σ → α → σ → Prop) :
    List α → σ → Prop
  | [], _ => True
  | call :: calls, s =>
      ∀ s', step call s = .ok s' → P s call s' ∧ EachStep step P calls s'

/-- Every call returns, and `P` holds between the states around it. -/
def EachReturns (step : α → σ → Except ε σ) (P : σ → α → σ → Prop) :
    List α → σ → Prop
  | [], _ => True
  | call :: calls, s =>
      ∃ s', step call s = .ok s' ∧ P s call s' ∧ EachReturns step P calls s'

theorem eachReturns_cons {call : α} {calls : List α} {s s' : σ}
    (hstep : step call s = .ok s') :
    EachReturns step P (call :: calls) s ↔
      P s call s' ∧ EachReturns step P calls s' := by
  constructor
  · rintro ⟨s'', hstep', hboth⟩
    rw [hstep] at hstep'
    cases hstep'
    exact hboth
  · intro hboth
    exact ⟨s', hstep, hboth⟩

theorem eachStep_cons {call : α} {calls : List α} {s s' : σ}
    (hstep : step call s = .ok s') :
    EachStep step P (call :: calls) s ↔ P s call s' ∧ EachStep step P calls s' := by
  constructor
  · exact fun heach => heach s' hstep
  · intro hboth s'' hstep'
    rw [hstep] at hstep'
    cases hstep'
    exact hboth

/-- Every call is made in a state that meets `Q`. -/
def EachMeets (step : α → σ → Except ε σ) (Q : σ → α → Prop) :
    List α → σ → Prop
  | [], _ => True
  | call :: calls, s =>
      Q s call ∧ ∀ s', step call s = .ok s' → EachMeets step Q calls s'

/-- Under an invariant, which may look at the calls to come, the calls return
with `P` exactly when they are made in states that meet `Q`. -/
theorem eachReturns_iff (Inv : List α → σ → Prop) {Q : σ → α → Prop}
    (hreturns : ∀ s call calls, Inv (call :: calls) s → Q s call →
      ∃ s', step call s = .ok s' ∧ P s call s' ∧ Inv calls s')
    (hmeets : ∀ s call calls s', Inv (call :: calls) s →
      step call s = .ok s' → P s call s' → Q s call)
    (calls : List α) {s : σ} (hs : Inv calls s) :
    EachReturns step P calls s ↔ EachMeets step Q calls s := by
  induction calls generalizing s with
  | nil => exact Iff.rfl
  | cons call calls ih =>
      constructor
      · rintro ⟨s', hstep, hp, hrest⟩
        have hq := hmeets s call calls s' hs hstep hp
        obtain ⟨s'', hstep', -, hinv⟩ := hreturns s call calls hs hq
        rw [hstep] at hstep'
        cases hstep'
        refine ⟨hq, fun s'' hstep' => ?_⟩
        rw [hstep] at hstep'
        cases hstep'
        exact (ih hinv).mp hrest
      · rintro ⟨hq, hrest⟩
        obtain ⟨s', hstep, hp, hinv⟩ := hreturns s call calls hs hq
        exact ⟨s', hstep, hp, (ih hinv).mpr (hrest s' hstep)⟩

theorem run_snoc (calls : List α) (call : α) (s : σ) :
    run step (calls ++ [call]) s = run step calls s >>= step call := by
  induction calls generalizing s with
  | nil =>
      change step call s >>= run step [] = step call s
      cases step call s <;> rfl
  | cons first calls ih =>
      rw [List.cons_append, run, run]
      cases step first s with
      | error e => rfl
      | ok s' => exact ih s'

/-- Each step includes the last one. -/
theorem EachStep.last {calls : List α} {call : α} {s s₁ s₂ : σ}
    (heach : EachStep step P (calls ++ [call]) s)
    (hrun : run step calls s = .ok s₁) (hstep : step call s₁ = .ok s₂) :
    P s₁ call s₂ := by
  induction calls generalizing s with
  | nil =>
      cases hrun
      exact (heach s₂ hstep).1
  | cons first calls ih =>
      cases hfirst : step first s with
      | error e =>
          rw [run, hfirst] at hrun
          cases hrun
      | ok s' =>
          rw [run, hfirst] at hrun
          exact ih (heach s' hfirst).2 hrun

/-- Under an invariant, which may look at the calls to come, `P` may be checked
as `Q`. -/
theorem eachStep_congr (Inv : List α → σ → Prop)
    (hiff : ∀ s call calls s', Inv (call :: calls) s →
      step call s = .ok s' → (P s call s' ↔ Q s call s'))
    (hinv : ∀ s call calls s', Inv (call :: calls) s →
      step call s = .ok s' → Q s call s' → Inv calls s')
    (calls : List α) {s : σ} (hs : Inv calls s) :
    EachStep step P calls s ↔ EachStep step Q calls s := by
  induction calls generalizing s with
  | nil => exact Iff.rfl
  | cons call calls ih =>
      apply forall_congr'
      intro s'
      apply imp_congr_right
      intro hstep
      rw [hiff s call calls s' hs hstep]
      apply and_congr_right
      intro hq
      exact ih (hinv s call calls s' hs hstep hq)

/-- What every step gives under an invariant that it keeps. -/
theorem EachStep.of_invariant {calls : List α} {s : σ}
    (heach : EachStep step Q calls s) (Inv : σ → Prop)
    (hstep : ∀ s call s', Inv s → step call s = .ok s' → Q s call s' →
      Inv s' ∧ P s call s') (hs : Inv s) : EachStep step P calls s := by
  induction calls generalizing s with
  | nil => trivial
  | cons call calls ih =>
      intro s' hs'
      obtain ⟨hq, hrest⟩ := heach s' hs'
      obtain ⟨hinv, hp⟩ := hstep s call s' hs hs' hq
      exact ⟨hp, ih hrest hinv⟩

/-- What every step gives under an invariant that every step keeps. -/
theorem eachStep_of_invariant (Inv : σ → Prop)
    (hstep : ∀ s call s', Inv s → step call s = .ok s' →
      Inv s' ∧ P s call s') (calls : List α) {s : σ} (hs : Inv s) :
    EachStep step P calls s := by
  induction calls generalizing s with
  | nil => trivial
  | cons call calls ih =>
      intro s' hs'
      obtain ⟨hinv, hp⟩ := hstep s call s' hs hs'
      exact ⟨hp, ih hinv⟩

/-- Every call is made in a state that meets `Q`, where the calls have all the
fuel they need. -/
def EachSettled (exec : Nat → α → σ → Except ε σ) (Q : σ → α → Prop) :
    List α → σ → Prop
  | [], _ => True
  | call :: calls, s => Q s call ∧ ∀ s',
      FuelLoop.Settles (fun fuel => exec fuel call s) (.ok s') →
        EachSettled exec Q calls s'

theorem eachSettled_cons {exec : Nat → α → σ → Except ε σ} {Q : σ → α → Prop}
    {call : α} {calls : List α} {s s' : σ}
    (hstep : FuelLoop.Settles (fun fuel => exec fuel call s) (.ok s')) :
    EachSettled exec Q (call :: calls) s ↔
      Q s call ∧ EachSettled exec Q calls s' := by
  refine and_congr_right fun _ => ⟨fun hall => hall s' hstep, ?_⟩
  intro hrest s'' hstep'
  obtain rfl := Except.ok.inj (hstep.unique hstep')
  exact hrest

end CallHistory
