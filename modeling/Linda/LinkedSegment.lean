/-
Singly linked segments.  `next` is read out of whatever memory holds the
nodes; a segment is the list of nodes met on the way from one pointer to
another, and a null-terminated list is a segment that ends in `null`.
-/
import Mathlib.Tactic.Common

namespace LinkedSegment

universe u

variable {α : Type u} {null : α} {next next' : α → α}

/-- Following `next` from `p` meets exactly the nodes of `l`, none of them
null, and then stands on `q`. -/
def Segment (null : α) (next : α → α) : α → List α → α → Prop
  | p, [], q => p = q
  | p, a :: rest, q => p = a ∧ a ≠ null ∧ Segment null next (next a) rest q

@[simp] theorem segment_nil {p q : α} : Segment null next p [] q ↔ p = q :=
  Iff.rfl

@[simp] theorem segment_cons {p a q : α} {rest : List α} :
    Segment null next p (a :: rest) q ↔
      p = a ∧ a ≠ null ∧ Segment null next (next a) rest q := Iff.rfl

theorem segment_append {p q : α} {l₁ l₂ : List α} :
    Segment null next p (l₁ ++ l₂) q ↔
      ∃ r, Segment null next p l₁ r ∧ Segment null next r l₂ q := by
  induction l₁ generalizing p with
  | nil => simp
  | cons a rest ih =>
      simp only [List.cons_append, segment_cons, ih]
      constructor
      · rintro ⟨hp, ha, r, h₁, h₂⟩
        exact ⟨r, ⟨hp, ha, h₁⟩, h₂⟩
      · rintro ⟨r, ⟨hp, ha, h₁⟩, h₂⟩
        exact ⟨hp, ha, r, h₁, h₂⟩

/-- A segment reads only the links of its own nodes. -/
theorem Segment.congr {p q : α} {l : List α} (h : Segment null next p l q)
    (hagree : ∀ a ∈ l, next' a = next a) : Segment null next' p l q := by
  induction l generalizing p with
  | nil => exact h
  | cons a rest ih =>
      obtain ⟨hp, ha, hrest⟩ := h
      refine ⟨hp, ha, ?_⟩
      rw [hagree a List.mem_cons_self]
      exact ih hrest fun b hb => hagree b (List.mem_cons_of_mem a hb)

theorem segment_snoc {p a : α} {l : List α} :
    Segment null next p (l ++ [a]) null ↔
      Segment null next p l a ∧ a ≠ null ∧ next a = null := by
  rw [segment_append]
  constructor
  · rintro ⟨r, hl, rfl, ha, hnext⟩
    exact ⟨hl, ha, hnext⟩
  · rintro ⟨hl, ha, hnext⟩
    exact ⟨a, hl, rfl, ha, hnext⟩

/-- The nodes in front of a node, the node, and the nodes behind it. -/
theorem segment_middle {p a q : α} {pre post : List α} :
    Segment null next p (pre ++ a :: post) q ↔
      Segment null next p pre a ∧ a ≠ null ∧
        Segment null next (next a) post q := by
  rw [segment_append]
  constructor
  · rintro ⟨r, hpre, rfl, ha, hpost⟩
    exact ⟨hpre, ha, hpost⟩
  · rintro ⟨hpre, ha, hpost⟩
    exact ⟨a, hpre, rfl, ha, hpost⟩

theorem Segment.ne_null {p q a : α} {l : List α}
    (h : Segment null next p l q) (ha : a ∈ l) : a ≠ null := by
  obtain ⟨pre, post, rfl⟩ := List.append_of_mem ha
  exact (segment_middle.mp h).2.1

theorem Segment.eq_nil_iff {p : α} {l : List α}
    (h : Segment null next p l null) : l = [] ↔ p = null := by
  cases l with
  | nil => simpa using h
  | cons a rest =>
      obtain ⟨rfl, ha, _⟩ := h
      simp [ha]

/-- Memory determines the nodes of a null-terminated list. -/
theorem Segment.unique {p : α} {l l' : List α}
    (h : Segment null next p l null) (h' : Segment null next p l' null) :
    l = l' := by
  induction l generalizing p l' with
  | nil => exact ((h'.eq_nil_iff).mpr h).symm
  | cons a rest ih =>
      obtain ⟨rfl, ha, hrest⟩ := h
      cases l' with
      | nil => exact absurd h' ha
      | cons b rest' =>
          obtain ⟨rfl, _, hrest'⟩ := h'
          rw [ih hrest hrest']

/-- Dropping the node behind `a`. -/
theorem Segment.unlink {p q a b : α} {pre post : List α}
    (h : Segment null next p (pre ++ a :: b :: post) q)
    (hlink : next' a = next b) (hpre : ∀ c ∈ pre, next' c = next c)
    (hpost : ∀ c ∈ post, next' c = next c) :
    Segment null next' p (pre ++ a :: post) q := by
  rw [segment_middle] at h ⊢
  obtain ⟨hfront, ha, _, _, hrest⟩ := h
  refine ⟨hfront.congr hpre, ha, ?_⟩
  rw [hlink]
  exact hrest.congr hpost

/-- Hanging a node behind the last one. -/
theorem Segment.extend {p a b : α} {pre : List α}
    (h : Segment null next p (pre ++ [a]) null) (hlink : next' a = b)
    (hb : b ≠ null) (hend : next' b = null)
    (hpre : ∀ c ∈ pre, next' c = next c) :
    Segment null next' p (pre ++ [a, b]) null := by
  rw [segment_snoc] at h
  obtain ⟨hfront, ha, _⟩ := h
  rw [segment_middle]
  exact ⟨hfront.congr hpre, ha, hlink, hb, hend⟩

/-- Each node's `prev` is the node in front of it, that of the first is
`p`. -/
def Back (prev : α → α) : α → List α → Prop
  | _, [] => True
  | p, a :: rest => prev a = p ∧ Back prev a rest

section Backwards

variable {prev prev' : α → α}

theorem back_append {p : α} {l₁ l₂ : List α} :
    Back prev p (l₁ ++ l₂) ↔
      Back prev p l₁ ∧ Back prev (l₁.getLastD p) l₂ := by
  induction l₁ generalizing p with
  | nil => simp [Back]
  | cons a rest ih =>
      rw [List.cons_append, Back, Back, ih, and_assoc, List.getLastD_cons]

theorem Back.congr {p : α} {l : List α} (h : Back prev p l)
    (hagree : ∀ a ∈ l, prev' a = prev a) : Back prev' p l := by
  induction l generalizing p with
  | nil => trivial
  | cons a rest ih =>
      refine ⟨(hagree a List.mem_cons_self).trans h.1, ?_⟩
      exact ih h.2 fun b hb => hagree b (List.mem_cons_of_mem a hb)

end Backwards

end LinkedSegment
