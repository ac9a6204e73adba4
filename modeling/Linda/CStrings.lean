/-
NUL-terminated strings in a byte memory.
-/
import Linda.ByteMemory
import Mathlib.Data.List.TakeWhile

namespace CStrings

open ByteMemory

/-- The characters `cs` and their NUL stand from `a` on. -/
def CString (m : Memory) : Nat → List UInt8 → Prop
  | a, [] => m a = 0
  | a, c :: cs => m a = c ∧ c ≠ 0 ∧ CString m (a + 1) cs

variable {m m' : Memory} {a : Nat} {c : UInt8} {cs ds : List UInt8}

theorem cString_congr (h : ∀ x, a ≤ x → x ≤ a + cs.length → m' x = m x) :
    CString m' a cs ↔ CString m a cs := by
  induction cs generalizing a with
  | nil =>
      have hnul := h a le_rfl le_rfl
      rw [CString, CString, hnul]
  | cons c cs ih =>
      rw [List.length_cons] at h
      have hc := h a le_rfl (by omega)
      have hcs := ih (a := a + 1) fun x hx hlt => h x (by omega) (by omega)
      rw [CString, CString, hc, hcs]

/-- The end of a string is a string. -/
theorem CString.suffix (h : CString m a (cs ++ ds)) :
    CString m (a + cs.length) ds := by
  induction cs generalizing a with
  | nil => exact h
  | cons c cs ih =>
      have hrest := ih h.2.2
      rwa [List.length_cons, Nat.add_comm cs.length, ← Nat.add_assoc]

theorem CString.nul (h : CString m a cs) : m (a + cs.length) = 0 := by
  have hsuffix : CString m (a + cs.length) [] :=
    CString.suffix (by rwa [List.append_nil])
  exact hsuffix

theorem CString.ne_zero (h : CString m a cs) : 0 ∉ cs := by
  induction cs generalizing a with
  | nil => exact List.not_mem_nil
  | cons c cs ih =>
      rw [List.mem_cons, not_or]
      exact ⟨h.2.1.symm, ih h.2.2⟩

/-- A NUL put behind the first characters cuts the string off there. -/
theorem CString.cut (h : CString m a (cs ++ c :: ds)) :
    CString (store8 m (a + cs.length) 0) a cs := by
  induction cs generalizing a with
  | nil => exact store8_same m a 0
  | cons c' cs ih =>
      obtain ⟨hc, hne, hrest⟩ := h
      have htail := ih hrest
      have hplace : a + (c' :: cs).length = a + 1 + cs.length := by
        rw [List.length_cons]
        omega
      rw [hplace]
      refine ⟨?_, hne, htail⟩
      rw [store8, if_neg (by omega)]
      exact hc

/-- What the cut leaves behind it is a string as before. -/
theorem CString.behind (h : CString m a (cs ++ c :: ds)) :
    CString (store8 m (a + cs.length) 0) (a + cs.length + 1) ds := by
  have hrest := h.suffix.2.2
  refine (cString_congr fun x hx _ => ?_).mpr hrest
  rw [store8, if_neg (by omega)]

/-- A string read byte by byte. -/
theorem cString_iff : CString m a cs ↔
    (∀ i (hi : i < cs.length), m (a + i) = cs[i]) ∧ 0 ∉ cs ∧
      m (a + cs.length) = 0 := by
  induction cs generalizing a with
  | nil => simp [CString]
  | cons c cs ih =>
      have hplace (i : Nat) : a + (i + 1) = a + 1 + i := by omega
      have hend : a + (c :: cs).length = a + 1 + cs.length := hplace cs.length
      rw [CString, ih, hend, List.mem_cons, not_or]
      constructor
      · rintro ⟨hc, hne, hbytes, hzero, hnul⟩
        refine ⟨?_, ⟨hne.symm, hzero⟩, hnul⟩
        intro i hi
        cases i with
        | zero => exact hc
        | succ i =>
            have hbyte := hbytes i (Nat.lt_of_succ_lt_succ hi)
            exact (congrArg m (hplace i)).trans hbyte
      · rintro ⟨hbytes, ⟨hne, hzero⟩, hnul⟩
        refine ⟨hbytes 0 (Nat.succ_pos _), Ne.symm hne, ?_, hzero, hnul⟩
        intro i hi
        have hbyte := hbytes (i + 1) (Nat.succ_lt_succ hi)
        exact (congrArg m (hplace i)).symm.trans hbyte

/-- The words of a text: the longest runs without a separator. -/
def words (p : UInt8 → Bool) (cs : List UInt8) : List (List UInt8) :=
  (cs.splitOnP p).filter (· ≠ [])

theorem words_nil (p : UInt8 → Bool) : words p [] = [] := by
  simp [words]

/-- Separators in front make no word. -/
theorem words_skip (p : UInt8 → Bool) (hcs : ∀ c ∈ cs, p c = true) :
    words p (cs ++ ds) = words p ds := by
  induction cs with
  | nil => rfl
  | cons c cs ih =>
      obtain ⟨hc, htail⟩ := List.forall_mem_cons.mp hcs
      rw [← ih htail, words, words, List.cons_append, List.splitOnP_cons_eq_if_modifyHead,
        if_pos hc]
      simp

/-- A word that the text ends with. -/
theorem words_last (p : UInt8 → Bool) (hcs : ∀ c ∈ cs, p c = false)
    (hne : cs ≠ []) : words p cs = [cs] := by
  rw [words, List.splitOnP_eq_singleton hcs]
  simp [hne]

/-- A word with a separator behind it. -/
theorem words_first (p : UInt8 → Bool) (hcs : ∀ c ∈ cs, p c = false)
    (hne : cs ≠ []) (hc : p c = true) :
    words p (cs ++ c :: ds) = cs :: words p ds := by
  rw [words, words, List.splitOnP_append_cons_of_forall_mem hcs c hc ds]
  simp [hne]

end CStrings
