/-
The comparisons of string.c and `strstr`, which compares at every place.
-/
import Linda.StringLibrary
import Mathlib.Data.List.Infix

namespace Linda

open ByteMemory CStrings FuelLoop

/-- `signed char res = a - b` -/
def charDiff (a b : UInt8) : Int8 := (a - b).toInt8

/-- `memcmp` -/
def memcmp (m : Memory) (cs ct : Nat) : Nat → Int8
  | 0 => 0
  | count + 1 =>
      let res := charDiff (m cs) (m ct)
      if res ≠ 0 then res else memcmp m (cs + 1) (ct + 1) count

/-- `if ((__res = *cs - *ct++) != 0 || !*cs++) break;` -/
def strcmpBody (m : Memory) (s : Nat × Nat) :
    Except StringHalt (Nat × Nat ⊕ Int8) :=
  let res := charDiff (m s.1) (m s.2)
  if res ≠ 0 ∨ m s.1 = 0 then .ok (.inr res) else .ok (.inl (s.1 + 1, s.2 + 1))

def strcmp (m : Memory) (cs ct fuel : Nat) : Except StringHalt Int8 :=
  loop .spin (strcmpBody m) fuel (cs, ct)

/-- The `while` of `strstr`, for `s1` and `l1`. -/
def strstrBody (m : Memory) (s2 : Nat) (l2 : Int32) (s : Nat × Int32) :
    Except StringHalt (Nat × Int32 ⊕ Nat) :=
  if l2 ≤ s.2 then
    if memcmp m s.1 s2 l2.toUInt32.toNat = 0 then .ok (.inr s.1)
    else .ok (.inl (s.1 + 1, s.2 - 1))
  else .ok (.inr 0)

/-- `strstr`, whose lengths are of type `int`. -/
def strstr (m : Memory) (s1 s2 fuel : Nat) : Except StringHalt Nat := do
  let l2 ← strlen m s2 fuel
  if Int32.ofNat l2 = 0 then .ok s1
  else do
    let l1 ← strlen m s1 fuel
    loop .spin (strstrBody m s2 (Int32.ofNat l2)) fuel (s1, Int32.ofNat l1)

variable {m : Memory} {a b : Nat} {cs ds : List UInt8}

section Comparisons

theorem toInt_charDiff (a b : UInt8) :
    (charDiff a b).toInt = ((a.toNat : Int) - b.toNat).bmod 256 := by
  have hbyte (c : UInt8) : c.toInt8.toInt = (c.toNat : Int).bmod 256 :=
    BitVec.toInt_eq_toNat_bmod _
  rw [charDiff, UInt8.toInt8_sub, Int8.toInt_sub, hbyte, hbyte]
  exact (Int.bmod_sub_bmod ..).trans (Int.sub_bmod_bmod ..)

/-- The difference is never taken for none. -/
theorem charDiff_eq_zero (a b : UInt8) : charDiff a b = 0 ↔ a = b := by
  have ha := a.toNat_lt
  have hb := b.toNat_lt
  rw [← Int8.toInt_inj, toInt_charDiff, ← UInt8.toNat_inj, Int8.toInt_zero,
    Int.bmod_def]
  omega

theorem charDiff_neg {a b : UInt8} (ha : a < 0x80) (hb : b < 0x80) :
    charDiff a b < 0 ↔ a < b := by
  rw [UInt8.lt_iff_toNat_lt] at ha hb
  change a.toNat < 128 at ha
  change b.toNat < 128 at hb
  rw [Int8.lt_iff_toInt_lt, toInt_charDiff, UInt8.lt_iff_toNat_lt,
    Int8.toInt_zero, Int.bmod_def]
  omega

/-- What `strcmp` says of two strings. -/
structure Compares (cs ds : List UInt8) (res : Int8) : Prop where
  eq : res = 0 ↔ cs = ds
  lt : (∀ c ∈ cs, c < 0x80) → (∀ d ∈ ds, d < 0x80) → (res < 0 ↔ cs < ds)

theorem Compares.cons {c : UInt8} {res : Int8} (h : Compares cs ds res) :
    Compares (c :: cs) (c :: ds) res := by
  constructor
  · rw [h.eq, List.cons.injEq]
    exact (and_iff_right rfl).symm
  · intro hcs hds
    have hcs := (List.forall_mem_cons.mp hcs).2
    have hds := (List.forall_mem_cons.mp hds).2
    rw [h.lt hcs hds, List.cons_lt_cons_iff]
    simp

theorem Compares.differ {c d : UInt8} (hne : c ≠ d) :
    Compares (c :: cs) (d :: ds) (charDiff c d) := by
  constructor
  · rw [charDiff_eq_zero, List.cons.injEq]
    exact iff_of_false hne fun hboth => hne hboth.1
  · intro hcs hds
    have hc := (List.forall_mem_cons.mp hcs).1
    have hd := (List.forall_mem_cons.mp hds).1
    rw [charDiff_neg hc hd, List.cons_lt_cons_iff]
    exact ⟨.inl, fun h => h.resolve_right fun hboth => hne hboth.1⟩

/-- The end of the first string: its NUL is compared like a character. -/
theorem Compares.end (hds : 0 ∉ ds) : Compares [] ds (charDiff 0 (ds.headD 0)) := by
  cases ds with
  | nil =>
      refine ⟨iff_of_true rfl rfl, fun _ _ => iff_of_false ?_ ?_⟩
      · decide
      · exact List.not_lt_nil _
  | cons d ds =>
      have hd : (0 : UInt8) ≠ d := fun h => hds (h ▸ List.mem_cons_self)
      constructor
      · rw [List.headD_cons, charDiff_eq_zero]
        exact iff_of_false hd (List.cons_ne_nil d ds).symm
      · intro _ hds
        have hlow := (List.forall_mem_cons.mp hds).1
        rw [List.headD_cons, charDiff_neg (by decide) hlow]
        refine iff_of_true ?_ (List.nil_lt_cons d ds)
        exact UInt8.pos_iff_ne_zero.mpr hd.symm

theorem Compares.longer {c : UInt8} (hc : c ≠ 0) :
    Compares (c :: cs) [] (charDiff c 0) := by
  constructor
  · rw [charDiff_eq_zero]
    exact iff_of_false hc (List.cons_ne_nil c cs)
  · intro hcs _
    have hlow := (List.forall_mem_cons.mp hcs).1
    rw [charDiff_neg hlow (by decide)]
    exact iff_of_false UInt8.not_lt_zero (List.not_lt_nil _)

/-- `strcmp` answers 0 for equal strings only, and orders ASCII texts like a
dictionary. -/
theorem strcmp_compares (hcs : CString m a cs) (hds : CString m b ds) :
    ∃ res, Settles (strcmp m a b) (.ok res) ∧ Compares cs ds res := by
  suffices hruns : ∃ res, Runs .spin (fun _ => strcmpBody m) (a, b) (.ok res) ∧
      Compares cs ds res by
    obtain ⟨res, hruns, hres⟩ := hruns
    exact ⟨res, hruns.settles, hres⟩
  have hstop {a b : Nat} (h : charDiff (m a) (m b) ≠ 0 ∨ m a = 0) :
      Runs .spin (fun _ => strcmpBody m) (a, b)
        (.ok (charDiff (m a) (m b))) := by
    refine Runs.exit ?_
    simp only [strcmpBody, if_pos h]
    exact settles_const _
  induction cs generalizing a b ds with
  | nil =>
      have hnul : m a = 0 := hcs
      have hhead : m b = ds.headD 0 := by
        cases ds with
        | nil => exact hds
        | cons d ds => exact hds.1
      refine ⟨_, hstop (.inr hnul), ?_⟩
      rw [hnul, hhead]
      exact .end hds.ne_zero
  | cons c cs ih =>
      obtain ⟨hc, hne, hcs⟩ := hcs
      cases ds with
      | nil =>
          have hnul : m b = 0 := hds
          have hdiff : charDiff (m a) (m b) ≠ 0 := by
            rw [Ne, charDiff_eq_zero, hc, hnul]
            exact hne
          refine ⟨_, hstop (.inl hdiff), ?_⟩
          rw [hc, hnul]
          exact .longer hne
      | cons d ds =>
          obtain ⟨hd, hdne, hds⟩ := hds
          by_cases hsame : c = d
          · obtain ⟨res, hruns, hres⟩ := ih hcs hds
            have hgoes : ¬ (charDiff (m a) (m b) ≠ 0 ∨ m a = 0) := by
              rw [hc, hd, hsame]
              exact not_or.mpr ⟨not_not.mpr ((charDiff_eq_zero d d).mpr rfl),
                hdne⟩
            refine ⟨res, Runs.next ?_ hruns, hsame ▸ hres.cons⟩
            simp only [strcmpBody, if_neg hgoes]
            exact settles_const _
          · have hdiff : charDiff (m a) (m b) ≠ 0 := by
              rw [Ne, charDiff_eq_zero, hc, hd]
              exact hsame
            refine ⟨_, hstop (.inl hdiff), ?_⟩
            rw [hc, hd]
            exact .differ hsame

/-- The texts `ab` at 100 and `ac` at 200. -/
def abAndAc : Memory := fun x =>
  if x < 200 then [0x61, 0x62].getD (x - 100) 0
  else [0x61, 0x63].getD (x - 200) 0

theorem abAndAc_ab : CString abAndAc 100 [0x61, 0x62] :=
  ⟨rfl, by decide, rfl, by decide, rfl⟩

theorem abAndAc_ac : CString abAndAc 200 [0x61, 0x63] :=
  ⟨rfl, by decide, rfl, by decide, rfl⟩

theorem strcmp_compares_abAndAc : ∃ res,
    Settles (strcmp abAndAc 100 200) (.ok res) ∧
      Compares [0x61, 0x62] [0x61, 0x63] res :=
  strcmp_compares abAndAc_ab abAndAc_ac

end Comparisons

section Search

/-- Compared over the length of the second string, two strings are equal when
the one begins with the other. -/
theorem memcmp_prefix (hcs : CString m a cs) (hds : CString m b ds)
    (hlength : ds.length ≤ cs.length) :
    memcmp m a b ds.length = 0 ↔ ds <+: cs := by
  induction ds generalizing a b cs with
  | nil => exact iff_of_true rfl List.nil_prefix
  | cons d ds ih =>
      cases cs with
      | nil => exact absurd hlength (Nat.not_succ_le_zero _)
      | cons c cs =>
          obtain ⟨hc, -, hcs⟩ := hcs
          obtain ⟨hd, -, hds⟩ := hds
          have htail := ih hcs hds (Nat.le_of_succ_le_succ hlength)
          rw [List.length_cons, memcmp, hc, hd, List.cons_prefix_cons]
          by_cases hsame : c = d
          · have hnone : charDiff c d = 0 := (charDiff_eq_zero c d).mpr hsame
            simp only [hnone, ne_eq, not_true_eq_false, ↓reduceIte]
            rw [htail]
            exact (and_iff_right hsame.symm).symm
          · have hsome : charDiff c d ≠ 0 :=
              fun h => hsame ((charDiff_eq_zero c d).mp h)
            simp only [if_pos hsome]
            exact iff_of_false hsome fun hboth => hsame hboth.1.symm

/-- What `strstr` returns: where `ds` begins first in the text `cs` at `a`. -/
def FirstIn (ds cs : List UInt8) (a r : Nat) : Prop :=
  (∃ i ≤ cs.length, r = a + i ∧ ds <+: cs.drop i ∧
    ∀ j < i, ¬ ds <+: cs.drop j) ∨
  r = 0 ∧ ¬ ds <:+: cs

theorem FirstIn.cons {c : UInt8} {r : Nat} (hnot : ¬ ds <+: c :: cs)
    (h : FirstIn ds cs (a + 1) r) : FirstIn ds (c :: cs) a r := by
  rcases h with ⟨i, hi, rfl, hprefix, hfirst⟩ | ⟨rfl, hnone⟩
  · refine .inl ⟨i + 1, Nat.succ_le_succ hi, by omega, hprefix, ?_⟩
    intro j hj
    cases j with
    | zero => exact hnot
    | succ j => exact hfirst j (Nat.lt_of_succ_lt_succ hj)
  · refine .inr ⟨rfl, ?_⟩
    rw [List.infix_cons_iff]
    exact not_or.mpr ⟨hnot, hnone⟩

theorem strstr_runs (hcs : CString m a cs) (hds : CString m b ds)
    (hne : ds ≠ []) (hcslt : cs.length < 2 ^ 31) (hdslt : ds.length < 2 ^ 31) :
    ∃ r, Runs .spin (fun _ => strstrBody m b (Int32.ofNat ds.length))
      (a, Int32.ofNat cs.length) (.ok r) ∧ FirstIn ds cs a r := by
  have hlength : (Int32.ofNat ds.length).toUInt32.toNat = ds.length := by
    rw [Int32.toUInt32_ofNat']
    exact UInt32.toNat_ofNat_of_lt (by rw [UInt32.size]; omega)
  have hle {n : Nat} (hn : n < 2 ^ 31) :
      Int32.ofNat ds.length ≤ Int32.ofNat n ↔ ds.length ≤ n := by
    rw [Int32.le_iff_toInt_le, Int32.toInt_ofNat_of_lt hdslt,
      Int32.toInt_ofNat_of_lt hn, Int.ofNat_le]
  induction cs generalizing a with
  | nil =>
      have hshort : ¬ ds.length ≤ 0 := by
        have hpos := List.length_pos_iff.mpr hne
        omega
      refine ⟨0, Runs.exit ?_, .inr ⟨rfl, ?_⟩⟩
      · simp only [strstrBody]
        rw [if_neg (by rw [hle hcslt]; exact hshort)]
        exact settles_const _
      · rw [List.infix_nil]
        exact hne
  | cons c cs ih =>
      by_cases hshort : ds.length ≤ (c :: cs).length
      · have hcmp := memcmp_prefix hcs hds hshort
        have hbody : strstrBody m b (Int32.ofNat ds.length)
            (a, Int32.ofNat (c :: cs).length) =
            if memcmp m a b ds.length = 0 then .ok (.inr a)
            else .ok (.inl (a + 1, Int32.ofNat cs.length)) := by
          have hdec : Int32.ofNat (c :: cs).length - 1 = Int32.ofNat cs.length :=
            (Int32.ofNat_sub (cs.length + 1) 1 (by omega)).symm
          rw [strstrBody, if_pos ((hle hcslt).mpr hshort), hlength, hdec]
        by_cases hhere : ds <+: c :: cs
        · refine ⟨a, Runs.exit ?_, .inl ⟨0, Nat.zero_le _, rfl, hhere, ?_⟩⟩
          · rw [hbody, if_pos (hcmp.mpr hhere)]
            exact settles_const _
          · exact fun j hj => absurd hj (Nat.not_lt_zero j)
        · rw [List.length_cons] at hcslt
          obtain ⟨r, hruns, hr⟩ := ih hcs.2.2 (by omega)
          refine ⟨r, Runs.next ?_ hruns, hr.cons hhere⟩
          rw [hbody, if_neg fun h => hhere (hcmp.mp h)]
          exact settles_const _
      · refine ⟨0, Runs.exit ?_, .inr ⟨rfl, fun h => hshort h.length_le⟩⟩
        rw [strstrBody, if_neg (by rw [hle hcslt]; exact hshort)]
        exact settles_const _

/-- `strstr` finds the first place of one string in another, and `NULL` if it
has none. -/
theorem strstr_settles (hcs : CString m a cs) (hds : CString m b ds)
    (hcslt : cs.length < 2 ^ 31) (hdslt : ds.length < 2 ^ 31) :
    ∃ r, Settles (strstr m a b) (.ok r) ∧ FirstIn ds cs a r := by
  by_cases hne : ds = []
  · refine ⟨a, (strlen_settles hds).bind ?_, .inl ⟨0, Nat.zero_le _, rfl, ?_, ?_⟩⟩
    · rw [hne]
      exact settles_const _
    · rw [hne]
      exact List.nil_prefix
    · exact fun j hj => absurd hj (Nat.not_lt_zero j)
  · obtain ⟨r, hruns, hr⟩ := strstr_runs hcs hds hne hcslt hdslt
    have hsome : Int32.ofNat ds.length ≠ 0 := by
      intro hzero
      have hint := Int32.toInt_ofNat_of_lt hdslt
      rw [hzero, Int32.toInt_zero] at hint
      have hpos := List.length_pos_iff.mpr hne
      omega
    refine ⟨r, (strlen_settles hds).bind ?_, hr⟩
    simp only [if_neg hsome]
    exact (strlen_settles hcs).bind hruns.settles

theorem strstr_settles_abAndAc : ∃ r,
    Settles (strstr abAndAc 100 200) (.ok r) ∧
      FirstIn [0x61, 0x63] [0x61, 0x62] 100 r :=
  strstr_settles abAndAc_ab abAndAc_ac (by decide) (by decide)

end Search

end Linda
