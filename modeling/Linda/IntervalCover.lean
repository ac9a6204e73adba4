/-
How often a family of half-open intervals covers a point.  Two families tile
the same set when their counts agree everywhere; a family whose counts never
exceed one is pairwise disjoint.  Cutting or joining intervals keeps counts.
-/
import Mathlib.Data.List.Count
import Mathlib.Data.List.Perm.Basic
import Mathlib.Tactic.Common

namespace IntervalCover

/-- The interval from `lo` up to but not including `hi`. -/
structure Interval where
  lo : Nat
  hi : Nat
deriving Repr, DecidableEq

instance : Membership Nat Interval where
  mem I x := I.lo ≤ x ∧ x < I.hi

theorem Interval.mem_iff {I : Interval} {x : Nat} :
    x ∈ I ↔ I.lo ≤ x ∧ x < I.hi := Iff.rfl

instance (x : Nat) (I : Interval) : Decidable (x ∈ I) :=
  inferInstanceAs (Decidable (I.lo ≤ x ∧ x < I.hi))

/-- No point lies in both. -/
def Interval.Disjoint (I J : Interval) : Prop := ∀ x, x ∈ I → x ∉ J

theorem Interval.Disjoint.ordered {I J : Interval} (h : I.Disjoint J)
    (hI : I.lo < I.hi) (hJ : J.lo < J.hi) : I.hi ≤ J.lo ∨ J.hi ≤ I.lo := by
  by_contra hcon
  push Not at hcon
  have hmem := h (max I.lo J.lo)
  simp only [Interval.mem_iff] at hmem
  omega

theorem Interval.disjoint_iff {I J : Interval} (hI : I.lo < I.hi)
    (hJ : J.lo < J.hi) : I.Disjoint J ↔ I.hi ≤ J.lo ∨ J.hi ≤ I.lo := by
  constructor
  · exact fun h => h.ordered hI hJ
  · rintro (h | h) x hx hmem
    · exact absurd hmem.1 (Nat.not_le.mpr (Nat.lt_of_lt_of_le hx.2 h))
    · exact absurd hx.1 (Nat.not_le.mpr (Nat.lt_of_lt_of_le hmem.2 h))

/-- The number of members of the family that contain `x`. -/
def coverCount (family : List Interval) (x : Nat) : Nat :=
  family.countP (fun I => decide (x ∈ I))

@[simp] theorem coverCount_nil (x : Nat) : coverCount [] x = 0 := rfl

theorem coverCount_cons (I : Interval) (family : List Interval) (x : Nat) :
    coverCount (I :: family) x =
      (if x ∈ I then 1 else 0) + coverCount family x := by
  simp only [coverCount, List.countP_cons, decide_eq_true_eq]
  omega

@[simp] theorem coverCount_append (family family' : List Interval) (x : Nat) :
    coverCount (family ++ family') x =
      coverCount family x + coverCount family' x := by
  simp [coverCount]

theorem coverCount_perm {family family' : List Interval}
    (h : family.Perm family') (x : Nat) :
    coverCount family x = coverCount family' x :=
  h.countP_eq _

/-- Cutting an interval in two changes no count. -/
theorem coverCount_cut {lo mid hi : Nat} (h₁ : lo ≤ mid) (h₂ : mid ≤ hi)
    (family : List Interval) (x : Nat) :
    coverCount (⟨lo, mid⟩ :: ⟨mid, hi⟩ :: family) x =
      coverCount (⟨lo, hi⟩ :: family) x := by
  simp only [coverCount_cons, Interval.mem_iff]
  split_ifs <;> omega

theorem coverCount_pos_iff {family : List Interval} {x : Nat} :
    0 < coverCount family x ↔ ∃ I ∈ family, x ∈ I := by
  simp [coverCount, List.countP_pos_iff]

/-- A family that covers no point twice is pairwise disjoint. -/
theorem pairwise_disjoint_of_coverCount_le_one {family : List Interval}
    (h : ∀ x, coverCount family x ≤ 1) :
    family.Pairwise Interval.Disjoint := by
  induction family with
  | nil => exact List.Pairwise.nil
  | cons I rest ih =>
      refine List.Pairwise.cons (fun J hJ x hI hmem => ?_) (ih fun x => ?_)
      · have hrest : 0 < coverCount rest x :=
          coverCount_pos_iff.mpr ⟨J, hJ, hmem⟩
        have hx := h x
        rw [coverCount_cons, if_pos hI] at hx
        omega
      · have hx := h x
        rw [coverCount_cons] at hx
        omega

end IntervalCover
