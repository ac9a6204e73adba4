/-
A text read from its front: the longest run of coded items, and what stops it.
-/
import Mathlib.Data.List.Basic
import Mathlib.Tactic.Common

namespace Linda.LongestMatch

universe u v

variable {α : Type u} {β : Type v}

/-- The text is at its end, or goes on with something `p` does not take. -/
def EndsRun (p : β → Bool) (rest : List β) : Prop :=
  ∀ c ∈ rest.head?, p c = false

theorem endsRun_nil (p : β → Bool) : EndsRun p [] := by
  simp [EndsRun]

theorem endsRun_cons {p : β → Bool} {c : β} {rest : List β} :
    EndsRun p (c :: rest) ↔ p c = false := by
  simp [EndsRun]

/-- What stands behind the first character does not matter. -/
theorem endsRun_behind {p : β → Bool} (front : List β) (c : β) (rest : List β) :
    EndsRun p (front ++ c :: rest) ↔ EndsRun p (front ++ [c]) := by
  cases front with
  | nil => simp only [List.nil_append, endsRun_cons]
  | cons b front => simp only [List.cons_append, endsRun_cons]

/-- Every text begins with as many items as can be read. -/
theorem exists_longest {p : β → Bool} {code : α → β}
    (hcode : ∀ c, p c = true → ∃ a, code a = c) (text : List β) :
    ∃ (items : List α) (rest : List β),
      text = items.map code ++ rest ∧ EndsRun p rest := by
  induction text with
  | nil => exact ⟨[], [], rfl, endsRun_nil p⟩
  | cons c text ih =>
      cases hc : p c with
      | false => exact ⟨[], c :: text, rfl, endsRun_cons.mpr hc⟩
      | true =>
          obtain ⟨a, rfl⟩ := hcode c hc
          obtain ⟨items, rest, rfl, hends⟩ := ih
          exact ⟨a :: items, rest, rfl, hends⟩

/-- The items read first are the same, however the text is cut. -/
theorem longest_unique {p : β → Bool} {code : α → β}
    (hinj : Function.Injective code) (hcode : ∀ a, p (code a) = true)
    {items items' : List α} {rest rest' : List β}
    (htext : items.map code ++ rest = items'.map code ++ rest')
    (hends : EndsRun p rest) (hends' : EndsRun p rest') :
    items = items' ∧ rest = rest' := by
  induction items generalizing items' with
  | nil =>
      cases items' with
      | nil => exact ⟨rfl, htext⟩
      | cons a items' =>
          have hrest : rest = code a :: (items'.map code ++ rest') := htext
          rw [hrest, endsRun_cons, hcode] at hends
          cases hends
  | cons a items ih =>
      cases items' with
      | nil =>
          have hrest : code a :: (items.map code ++ rest) = rest' := htext
          rw [← hrest, endsRun_cons, hcode] at hends'
          cases hends'
      | cons b items' =>
          obtain ⟨hfirst, hmore⟩ := List.cons.inj htext
          obtain ⟨rfl, hrest⟩ := ih hmore
          exact ⟨by rw [hinj hfirst], hrest⟩

end Linda.LongestMatch
