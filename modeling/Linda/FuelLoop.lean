/-
Loops under a fuel bound.  A loop is one iteration of its body, repeated until
the body exits or fails; `spin` is the answer of a loop that ran out of fuel.
`Settles` is the answer that every large enough fuel agrees on, so statements
about a program need not mention how much fuel it was given.
-/
import Mathlib.Tactic.Common

namespace FuelLoop

universe u v w

variable {ε : Type u} {σ : Type v} {α β : Type w}

/-- Iterate `body`: `inl` continues with a new state, `inr` leaves the loop. -/
def loop (spin : ε) (body : σ → Except ε (σ ⊕ β)) : Nat → σ → Except ε β
  | 0, _ => .error spin
  | n + 1, s =>
      match body s with
      | .error e => .error e
      | .ok (.inl s') => loop spin body n s'
      | .ok (.inr b) => .ok b

/-- Every fuel from some point on gives the answer `r`. -/
def Settles (f : Nat → Except ε α) (r : Except ε α) : Prop :=
  ∃ bound, ∀ n, bound ≤ n → f n = r

/-- One more unit of fuel never changes an answer other than `spin`. -/
def Stable (spin : ε) (f : Nat → Except ε α) : Prop :=
  ∀ n, f n ≠ .error spin → f (n + 1) = f n

theorem Stable.of_le {spin : ε} {f : Nat → Except ε α} (hf : Stable spin f)
    {n m : Nat} (hle : n ≤ m) (hn : f n ≠ .error spin) : f m = f n := by
  obtain ⟨extra, rfl⟩ := Nat.exists_eq_add_of_le hle
  induction extra with
  | zero => rfl
  | succ k ih =>
      have hk := ih (Nat.le_add_right n k)
      exact (hf (n + k) (hk ▸ hn)).trans hk

theorem ok_bind (a : α) (f : α → Except ε β) : (Except.ok a >>= f) = f a := rfl

/-- Both parts of a sequence that returned have returned. -/
theorem ok_of_bind {x : Except ε α} {f : α → Except ε β} {b : β}
    (h : x >>= f = .ok b) : ∃ a, x = .ok a ∧ f a = .ok b := by
  cases x with
  | error e => cases h
  | ok a => exact ⟨a, rfl, h⟩

theorem ok_of_toOption {x : Except ε α} {a : α} (h : x.toOption = some a) :
    x = .ok a := by
  cases x with
  | error e => cases h
  | ok b => exact congrArg Except.ok (Option.some.inj h)

theorem Settles.unique {f : Nat → Except ε α} {r r' : Except ε α}
    (h : Settles f r) (h' : Settles f r') : r = r' := by
  obtain ⟨N, hN⟩ := h
  obtain ⟨N', hN'⟩ := h'
  exact (hN (max N N') (by omega)).symm.trans (hN' (max N N') (by omega))

/-- An answer given at one fuel is the answer the program settles on. -/
theorem Stable.settles {spin : ε} {f : Nat → Except ε α} (hf : Stable spin f)
    {n : Nat} {r : Except ε α} (hn : f n = r) (hr : r ≠ .error spin) :
    Settles f r :=
  ⟨n, fun _ hle => (hf.of_le hle (hn ▸ hr)).trans hn⟩

theorem Stable.eq_of_settles {spin : ε} {f : Nat → Except ε α}
    (hf : Stable spin f) {n : Nat} {r r' : Except ε α} (hn : f n = r)
    (hr : r ≠ .error spin) (h : Settles f r') : r = r' :=
  (hf.settles hn hr).unique h

theorem settles_const (r : Except ε α) : Settles (fun _ => r) r :=
  ⟨0, fun _ _ => rfl⟩

theorem stable_const (spin : ε) (r : Except ε α) :
    Stable spin (fun _ => r) := fun _ _ => rfl

theorem Stable.bind {spin : ε} {f : Nat → Except ε α}
    {g : Nat → α → Except ε β} (hf : Stable spin f)
    (hg : ∀ a, Stable spin (fun n => g n a)) :
    Stable spin (fun n => f n >>= g n) := by
  intro n hn
  cases hfn : f n with
  | error e =>
      have hne : f n ≠ .error spin := by
        intro hspin
        simp [hspin, Bind.bind, Except.bind] at hn
      simp [hf n hne, hfn, Bind.bind, Except.bind]
  | ok a =>
      have hstep : f (n + 1) = .ok a := by rw [hf n (by simp [hfn]), hfn]
      have hga : g n a ≠ .error spin := by
        simpa [hfn, Bind.bind, Except.bind] using hn
      simpa [hfn, hstep, Bind.bind, Except.bind] using hg a n hga

theorem Settles.bind {f : Nat → Except ε α} {g : Nat → α → Except ε β}
    {a : α} {r : Except ε β} (hf : Settles f (.ok a))
    (hg : Settles (fun n => g n a) r) : Settles (fun n => f n >>= g n) r := by
  obtain ⟨N, hN⟩ := hf
  obtain ⟨N', hN'⟩ := hg
  refine ⟨max N N', fun n hn => ?_⟩
  have hfn := hN n (by omega)
  have hgn := hN' n (by omega)
  simpa [hfn, Bind.bind, Except.bind] using hgn

/-- What follows without fuel. -/
theorem Settles.bind_const {f : Nat → Except ε α} {r : Except ε α}
    (h : Settles f r) (g : α → Except ε β) :
    Settles (fun n => f n >>= g) (r >>= g) := by
  obtain ⟨N, hN⟩ := h
  exact ⟨N, fun n hn => by simp only [hN n hn]⟩

/-- The program settles, and where it settles on a value `post` holds of it. -/
def Ends (f : Nat → Except ε α) (post : α → Prop) : Prop :=
  ∃ r, Settles f r ∧ ∀ a, r = .ok a → post a

section Ends

variable {f : Nat → Except ε α} {g : Nat → α → Except ε β} {a : α} {e : ε}
  {mid post : α → Prop} {last : β → Prop}

theorem Ends.of_ok (h : Settles f (.ok a)) (hpost : post a) : Ends f post := by
  refine ⟨.ok a, h, fun b hb => ?_⟩
  obtain rfl := Except.ok.inj hb
  exact hpost

theorem Ends.of_error (h : Settles f (.error e)) : Ends f post :=
  ⟨.error e, h, fun _ hb => nomatch hb⟩

/-- What a call that returned is known to have done. -/
theorem Ends.elim (h : Ends f post) (hret : Settles f (.ok a)) : post a := by
  obtain ⟨r, hr, hpost⟩ := h
  exact hpost a (hr.unique hret)

end Ends

section Loops

variable {spin : ε} {body : Nat → σ → Except ε (σ ⊕ β)}

/-- The body may use the fuel for loops of its own. -/
theorem loop_stable (hbody : ∀ s, Stable spin (fun n => body n s)) (s : σ) :
    Stable spin (fun n => loop spin (body n) n s) := by
  have key : ∀ k n s, loop spin (body n) k s ≠ .error spin →
      loop spin (body (n + 1)) (k + 1) s = loop spin (body n) k s := by
    intro k
    induction k with
    | zero => intro n s h; exact absurd rfl h
    | succ k ih =>
        intro n s h
        rw [loop] at h ⊢
        rw [loop]
        have hne : body n s ≠ .error spin := by
          intro hspin
          simp [hspin] at h
        have hstep : body (n + 1) s = body n s := hbody s n hne
        rw [hstep]
        cases hb : body n s with
        | error e => rfl
        | ok next =>
            cases next with
            | inl s' => exact ih n s' (by simpa [hb] using h)
            | inr b => rfl
  intro n h
  exact key n n s h

/-- What every round keeps, and the last one turns into `post`, holds of the
answer of the loop. -/
theorem loop_ok (inv : σ → Prop) (post : β → Prop)
    {body : σ → Except ε (σ ⊕ β)}
    (hround : ∀ s, inv s → ∀ next, body s = .ok next →
      next.elim inv post) {fuel : Nat} {s : σ} {b : β} (hs : inv s)
    (hcall : loop spin body fuel s = .ok b) : post b := by
  induction fuel generalizing s with
  | zero => cases hcall
  | succ n ih =>
      rw [loop] at hcall
      cases hb : body s with
      | error e => simp [hb] at hcall
      | ok next =>
          have hnext := hround s hs next hb
          cases next with
          | inl s' => exact ih hnext (by simpa [hb] using hcall)
          | inr b' =>
              simp only [hb, Except.ok.injEq] at hcall
              exact hcall ▸ hnext

/-- Two loops whose rounds keep a relation between their states. -/
theorem loop_related {σ' : Type v} {β' : Type w} (related : σ → σ' → Prop)
    (answer : β → β' → Prop) {body : σ → Except ε (σ ⊕ β)}
    {body' : σ' → Except ε (σ' ⊕ β')}
    (hround : ∀ s s', related s s' → ∀ next, body s = .ok next →
      ∃ next', body' s' = .ok next' ∧ Sum.LiftRel related answer next next')
    {fuel : Nat} {s : σ} {s' : σ'} {b : β} (hs : related s s')
    (hcall : loop spin body fuel s = .ok b) :
    ∃ b', loop spin body' fuel s' = .ok b' ∧ answer b b' := by
  induction fuel generalizing s s' with
  | zero => cases hcall
  | succ n ih =>
      rw [loop] at hcall ⊢
      cases hb : body s with
      | error e => simp [hb] at hcall
      | ok next =>
          obtain ⟨next', hb', hnext⟩ := hround s s' hs next hb
          rw [hb']
          rw [hb] at hcall
          cases hnext with
          | inl h => exact ih h hcall
          | inr h =>
              obtain rfl := Except.ok.inj hcall
              exact ⟨_, rfl, h⟩

/-- A loop returns when every round leaves it or lowers a measure. -/
theorem loop_returns (inv : σ → Nat → Prop) {body : σ → Except ε (σ ⊕ β)}
    (hround : ∀ s n, inv s n → (∃ b, body s = .ok (.inr b)) ∨
      ∃ s', ∃ n' < n, body s = .ok (.inl s') ∧ inv s' n')
    {s : σ} {n fuel : Nat} (hs : inv s n) (hfuel : n < fuel) :
    ∃ b, loop spin body fuel s = .ok b := by
  induction fuel generalizing s n with
  | zero => omega
  | succ fuel ih =>
      rcases hround s n hs with ⟨b, hb⟩ | ⟨s', n', hlt, hb, hs'⟩
      · exact ⟨b, by rw [loop, hb]⟩
      · rw [loop, hb]
        exact ih hs' (by omega)

/-- The loop entered in `s` answers `r`, whatever fuel it and its body get
beyond some bound. -/
def Runs (spin : ε) (body : Nat → σ → Except ε (σ ⊕ β)) (s : σ)
    (r : Except ε β) : Prop :=
  ∃ bound, ∀ n k, bound ≤ n → bound ≤ k → loop spin (body n) k s = r

theorem Runs.settles {s : σ} {r : Except ε β} (h : Runs spin body s r) :
    Settles (fun n => loop spin (body n) n s) r := by
  obtain ⟨N, hN⟩ := h
  exact ⟨N, fun n hn => hN n n hn hn⟩

theorem Runs.exit {s : σ} {b : β}
    (h : Settles (fun n => body n s) (.ok (.inr b))) :
    Runs spin body s (.ok b) := by
  obtain ⟨N, hN⟩ := h
  refine ⟨N + 1, fun n k hn hk => ?_⟩
  obtain ⟨k, rfl⟩ := Nat.exists_eq_add_of_lt (Nat.lt_of_succ_le hk)
  have hb := hN n (by omega)
  simp only at hb
  rw [loop, hb]

theorem Runs.fail {s : σ} {e : ε}
    (h : Settles (fun n => body n s) (.error e)) :
    Runs spin body s (.error e) := by
  obtain ⟨N, hN⟩ := h
  refine ⟨N + 1, fun n k hn hk => ?_⟩
  obtain ⟨k, rfl⟩ := Nat.exists_eq_add_of_lt (Nat.lt_of_succ_le hk)
  have hb := hN n (by omega)
  simp only at hb
  rw [loop, hb]

theorem Runs.next {s s' : σ} {r : Except ε β}
    (h : Settles (fun n => body n s) (.ok (.inl s')))
    (hrest : Runs spin body s' r) : Runs spin body s r := by
  obtain ⟨N, hN⟩ := h
  obtain ⟨N', hN'⟩ := hrest
  refine ⟨max N N' + 1, fun n k hn hk => ?_⟩
  obtain ⟨k, rfl⟩ := Nat.exists_eq_add_of_lt (Nat.lt_of_succ_le hk)
  have hb := hN n (by omega)
  simp only at hb
  rw [loop, hb]
  exact hN' n _ (by omega) (by omega)

end Loops

end FuelLoop
