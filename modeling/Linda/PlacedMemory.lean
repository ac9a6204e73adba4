/-
Private memories in a common one.  A cell of a private memory has a place in
the common memory, or none yet; what is known of the cell is what stands there.
-/
import Mathlib.Logic.Function.Basic

namespace PlacedMemory

universe u v w

variable {ι : Type u} {α : Type v} {β : Type w}

/-- What is known of a cell stands in its place. -/
def Holds (place : ι → Option α) (m : α → β) (known : ι → Option β) : Prop :=
  ∀ i b, known i = some b → ∃ x, place i = some x ∧ m x = b

/-- No two cells are in one place. -/
def PlacesApart (place : ι → Option α) : Prop :=
  ∀ i j x, place i = some x → place j = some x → i = j

variable {place place' : ι → Option α} {m m' : α → β} {known known' : ι → Option β}

theorem holds_nothing (place : ι → Option α) (m : α → β) :
    Holds place m fun _ => none := by
  intro i b hb
  cases hb

theorem Holds.keep (h : Holds place m known)
    (hplace : ∀ i x, place i = some x → place' i = some x)
    (hmem : ∀ i x, place i = some x → m' x = m x) : Holds place' m' known := by
  intro i b hb
  obtain ⟨x, hx, hm⟩ := h i b hb
  exact ⟨x, hplace i x hx, (hmem i x hx).trans hm⟩

/-- Something may be found out about cells by looking at their places. -/
theorem Holds.learn (h : Holds place m known)
    (hknown : ∀ i b, known' i = some b →
      known i = some b ∨ ∃ x, place i = some x ∧ m x = b) :
    Holds place m known' := by
  intro i b hb
  rcases hknown i b hb with hold | hfound
  · exact h i b hold
  · exact hfound

theorem Holds.store [DecidableEq ι] [DecidableEq α] (h : Holds place m known)
    (hapart : PlacesApart place) {i : ι} {x : α} (hi : place i = some x) (b : β) :
    Holds place (Function.update m x b) (Function.update known i (some b)) := by
  intro j c hc
  by_cases hj : j = i
  · subst hj
    rw [Function.update_self] at hc
    obtain rfl := Option.some.inj hc
    exact ⟨x, hi, Function.update_self x b m⟩
  · rw [Function.update_of_ne hj] at hc
    obtain ⟨y, hy, hm⟩ := h j c hc
    have hne : y ≠ x := by
      rintro rfl
      exact hj (hapart j i y hy hi)
    exact ⟨y, hy, (Function.update_of_ne hne b m).trans hm⟩

end PlacedMemory
