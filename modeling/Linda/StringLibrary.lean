/-
string.c: the scans over NUL-terminated strings, and `strtok`, which cuts a
text into its words over many calls.
-/
import Linda.FuelLoop
import Linda.CStrings

namespace Linda

open ByteMemory CStrings FuelLoop

/-- `spin` is a loop that outran its fuel. -/
inductive StringHalt where
  | spin
deriving Repr, DecidableEq

/-- `for (sc = s; *sc != '\0'; ++sc)` -/
def strlenBody (m : Memory) (s sc : Nat) : Except StringHalt (Nat ⊕ Nat) :=
  if m sc ≠ 0 then .ok (.inl (sc + 1)) else .ok (.inr (sc - s))

def strlen (m : Memory) (s fuel : Nat) : Except StringHalt Nat :=
  loop .spin (strlenBody m s) fuel s

/-- `for (a = accept; *a != '\0'; ++a)` of `strspn`, left where `*p == *a`. -/
def acceptBody (m : Memory) (p a : Nat) : Except StringHalt (Nat ⊕ Nat) :=
  if m a ≠ 0 then
    if m p = m a then .ok (.inr a) else .ok (.inl (a + 1))
  else .ok (.inr a)

/-- A round of `strspn`, for `p` and `count`. -/
def strspnBody (m : Memory) (accept fuel : Nat) (s : Nat × Nat) :
    Except StringHalt (Nat × Nat ⊕ Nat) :=
  if m s.1 ≠ 0 then do
    let a ← loop .spin (acceptBody m s.1) fuel accept
    if m a = 0 then .ok (.inr s.2) else .ok (.inl (s.1 + 1, s.2 + 1))
  else .ok (.inr s.2)

def strspn (m : Memory) (s accept fuel : Nat) : Except StringHalt Nat :=
  loop .spin (strspnBody m accept fuel) fuel (s, 0)

/-- `for (sc2 = ct; *sc2 != '\0'; ++sc2)` of `strpbrk`: whether it returns. -/
def pickBody (m : Memory) (sc1 sc2 : Nat) : Except StringHalt (Nat ⊕ Bool) :=
  if m sc2 ≠ 0 then
    if m sc1 = m sc2 then .ok (.inr true) else .ok (.inl (sc2 + 1))
  else .ok (.inr false)

def strpbrkBody (m : Memory) (ct fuel sc1 : Nat) :
    Except StringHalt (Nat ⊕ Nat) :=
  if m sc1 ≠ 0 then do
    let found ← loop .spin (pickBody m sc1) fuel ct
    if found then .ok (.inr sc1) else .ok (.inl (sc1 + 1))
  else .ok (.inr 0)

def strpbrk (m : Memory) (cs ct fuel : Nat) : Except StringHalt Nat :=
  loop .spin (strpbrkBody m ct fuel) fuel cs

/-- The memory and `___strtok`. -/
structure StrtokState where
  mem : Memory
  strtok : Nat

/-- Where a call of `strtok` starts. -/
def sbegin (s : Nat) (st : StrtokState) : Nat := if s ≠ 0 then s else st.strtok

/-- `strtok`: the word it returns, 0 for `NULL`. -/
def strtok (s ct fuel : Nat) (st : StrtokState) :
    Except StringHalt (Nat × StrtokState) :=
  if sbegin s st = 0 then .ok (0, st)
  else do
    let skip ← strspn st.mem (sbegin s st) ct fuel
    let word := sbegin s st + skip
    if st.mem word = 0 then .ok (0, { st with strtok := 0 })
    else do
      let send ← strpbrk st.mem word ct fuel
      if send ≠ 0 ∧ st.mem send ≠ 0 then
        .ok (word, ⟨store8 st.mem send 0, send + 1⟩)
      else .ok (word, { st with strtok := send })

/-- What `n` calls return, the first one for `s` and the others for `NULL`. -/
def strtokCalls (ct fuel : Nat) :
    Nat → Nat → StrtokState → Except StringHalt (List Nat × StrtokState)
  | 0, _, st => .ok ([], st)
  | n + 1, s, st => do
      let first ← strtok s ct fuel st
      let rest ← strtokCalls ct fuel n 0 first.2
      .ok (first.1 :: rest.1, rest.2)

section Scans

variable {m : Memory} {a p : Nat} {cs ds pre rest : List UInt8}

theorem strlen_settles (h : CString m a cs) :
    Settles (strlen m a) (.ok cs.length) := by
  have hscan : ∀ sc, a ≤ sc → CString m sc cs →
      Runs .spin (fun _ => strlenBody m a) sc (.ok (sc - a + cs.length)) := by
    clear h
    induction cs with
    | nil =>
        intro sc _ h
        have hnul : m sc = 0 := h
        refine Runs.exit ?_
        rw [strlenBody, if_neg (not_not.mpr hnul)]
        exact settles_const _
    | cons c cs ih =>
        intro sc hle h
        obtain ⟨hc, hne, htail⟩ := h
        have hlength : sc - a + (c :: cs).length = sc + 1 - a + cs.length := by
          rw [List.length_cons]
          omega
        rw [hlength]
        refine Runs.next ?_ (ih (sc + 1) (by omega) htail)
        rw [strlenBody, if_pos (hc ▸ hne)]
        exact settles_const _
  have hruns := hscan a le_rfl h
  rw [Nat.sub_self, Nat.zero_add] at hruns
  exact hruns.settles

theorem acceptBody_runs (h : CString m a ds) :
    ∃ a', Runs .spin (fun _ => acceptBody m p) a (.ok a') ∧
      (m a' = 0 ↔ m p ∉ ds) := by
  induction ds generalizing a with
  | nil =>
      have hnul : m a = 0 := h
      refine ⟨a, Runs.exit ?_, by simp [hnul]⟩
      rw [acceptBody, if_neg (not_not.mpr hnul)]
      exact settles_const _
  | cons d ds ih =>
      obtain ⟨hd, hne, htail⟩ := h
      have hbody : acceptBody m p a =
          if m p = m a then .ok (.inr a) else .ok (.inl (a + 1)) :=
        if_pos (hd ▸ hne)
      by_cases hhit : m p = m a
      · refine ⟨a, Runs.exit ?_, ?_⟩
        · rw [hbody, if_pos hhit]
          exact settles_const _
        · have hmem : m p ∈ d :: ds := by
            rw [hhit, hd]
            exact List.mem_cons_self
          exact iff_of_false (hd ▸ hne) (not_not.mpr hmem)
      · obtain ⟨a', hruns, hfound⟩ := ih htail
        refine ⟨a', Runs.next ?_ hruns, ?_⟩
        · rw [hbody, if_neg hhit]
          exact settles_const _
        · rw [hfound, List.mem_cons, not_or]
          exact (and_iff_right (hd ▸ hhit)).symm

theorem pickBody_runs (h : CString m a ds) :
    Runs .spin (fun _ => pickBody m p) a (.ok (decide (m p ∈ ds))) := by
  induction ds generalizing a with
  | nil =>
      have hnul : m a = 0 := h
      refine Runs.exit ?_
      rw [pickBody, if_neg (not_not.mpr hnul), decide_eq_false List.not_mem_nil]
      exact settles_const _
  | cons d ds ih =>
      obtain ⟨hd, hne, htail⟩ := h
      have hbody : pickBody m p a =
          if m p = m a then .ok (.inr true) else .ok (.inl (a + 1)) :=
        if_pos (hd ▸ hne)
      by_cases hhit : m p = m a
      · refine Runs.exit ?_
        rw [hbody, if_pos hhit, hhit, hd, decide_eq_true List.mem_cons_self]
        exact settles_const _
      · have hmem : m p ∈ d :: ds ↔ m p ∈ ds := by
          rw [List.mem_cons]
          exact or_iff_right (hd ▸ hhit)
        simp only [hmem]
        refine Runs.next ?_ (ih htail)
        rw [hbody, if_neg hhit]
        exact settles_const _

/-- `strspn` counts the characters up to the first one that it does not
accept. -/
theorem strspn_settles (h : CString m p (pre ++ rest)) (hct : CString m a ds)
    (hpre : ∀ c ∈ pre, c ∈ ds) (hrest : ∀ c ∈ rest.head?, c ∉ ds) :
    Settles (strspn m p a) (.ok pre.length) := by
  have hscan : ∀ p count, CString m p (pre ++ rest) →
      Runs .spin (strspnBody m a) (p, count) (.ok (count + pre.length)) := by
    clear h
    induction pre with
    | nil =>
        intro p count h
        refine Runs.exit ?_
        cases rest with
        | nil =>
            have hnul : m p = 0 := h
            simp only [strspnBody, if_neg (not_not.mpr hnul)]
            exact settles_const _
        | cons c rest =>
            obtain ⟨hc, hne, -⟩ := h
            have hp : m p ≠ 0 := hc ▸ hne
            obtain ⟨a', hruns, hfound⟩ := acceptBody_runs (p := p) hct
            have hnul : m a' = 0 := hfound.mpr (hc ▸ hrest c rfl)
            simp only [strspnBody, if_pos hp]
            refine hruns.settles.bind ?_
            rw [if_pos hnul]
            exact settles_const _
    | cons c pre ih =>
        intro p count h
        obtain ⟨hc, hne, htail⟩ := h
        obtain ⟨hmem, hpre⟩ := List.forall_mem_cons.mp hpre
        have hp : m p ≠ 0 := hc ▸ hne
        obtain ⟨a', hruns, hfound⟩ := acceptBody_runs (p := p) hct
        have hhit : m a' ≠ 0 := fun hnul => hfound.mp hnul (hc ▸ hmem)
        have hlength : count + (c :: pre).length = count + 1 + pre.length := by
          rw [List.length_cons]
          omega
        rw [hlength]
        refine Runs.next ?_ (ih hpre (p + 1) (count + 1) htail)
        simp only [strspnBody, if_pos hp]
        refine hruns.settles.bind ?_
        rw [if_neg hhit]
        exact settles_const _
  have hruns := hscan p 0 h
  rw [Nat.zero_add] at hruns
  exact hruns.settles

/-- `strpbrk` stops at the first character of `ct`. -/
theorem strpbrk_settles (h : CString m p (pre ++ rest)) (hct : CString m a ds)
    (hpre : ∀ c ∈ pre, c ∉ ds) (hrest : ∀ c ∈ rest.head?, c ∈ ds) :
    Settles (strpbrk m p a)
      (.ok (if rest = [] then 0 else p + pre.length)) := by
  suffices hscan : Runs .spin (strpbrkBody m a) p
      (.ok (if rest = [] then 0 else p + pre.length)) from hscan.settles
  induction pre generalizing p with
  | nil =>
      refine Runs.exit ?_
      cases rest with
      | nil =>
          have hnul : m p = 0 := h
          simp only [strpbrkBody, if_neg (not_not.mpr hnul)]
          exact settles_const _
      | cons c rest =>
          obtain ⟨hc, hne, -⟩ := h
          have hmem : m p ∈ ds := hc ▸ hrest c rfl
          simp only [strpbrkBody, if_pos (hc ▸ hne : m p ≠ 0)]
          refine (pickBody_runs hct).settles.bind ?_
          rw [decide_eq_true hmem]
          exact settles_const _
  | cons c pre ih =>
      obtain ⟨hc, hne, htail⟩ := h
      obtain ⟨hnot, hpre⟩ := List.forall_mem_cons.mp hpre
      have hplace : p + (c :: pre).length = p + 1 + pre.length := by
        rw [List.length_cons]
        omega
      rw [hplace]
      refine Runs.next ?_ (ih htail hpre)
      simp only [strpbrkBody, if_pos (hc ▸ hne : m p ≠ 0)]
      refine (pickBody_runs hct).settles.bind ?_
      rw [decide_eq_false (hc ▸ hnot)]
      exact settles_const _

end Scans

section Words

/-- Whether a character of `ct` separates words. -/
def separates (ds : List UInt8) (c : UInt8) : Bool := decide (c ∈ ds)

/-- The separators between `lo` and `hi` of which some became NULs. -/
def Overwritten (ds : List UInt8) (lo hi : Nat) (m m' : Memory) : Prop :=
  ∀ x, m' x ≠ m x → lo ≤ x ∧ x < hi ∧ m x ∈ ds ∧ m' x = 0

/-- Where `strtok` goes on: behind the pointer `q`, if it is one, stands
`rest`. -/
def Remaining (m : Memory) (q hi : Nat) (rest : List UInt8) : Prop :=
  q = 0 ∧ rest = [] ∨ q ≠ 0 ∧ CString m q rest ∧ q + rest.length = hi

/-- What a call of `strtok` made of the text `rest` behind `q`: the word `w` at
`p`, and behind it `q'` for the next call. -/
structure NextWord (ds : List UInt8) (m : Memory) (q hi : Nat)
    (rest : List UInt8) (m' : Memory) (p q' : Nat) (w rest' : List UInt8) :
    Prop where
  words_eq : words (separates ds) rest = w :: words (separates ds) rest'
  word : CString m' p w
  low : q ≤ p
  high : p < hi
  overwritten : Overwritten ds q hi m m'
  remaining : Remaining m' q' hi rest'
  behind : q' ≠ 0 → p + w.length < q'

variable {m m' m'' : Memory} {s ct q q' p lo hi : Nat} {st : StrtokState}
  {cs ds w rest rest' : List UInt8}

theorem Overwritten.trans (hnul : (0 : UInt8) ∉ ds)
    (h : Overwritten ds lo hi m m') (h' : Overwritten ds lo hi m' m'') :
    Overwritten ds lo hi m m'' := by
  intro x hx
  by_cases hfirst : m' x = m x
  · obtain ⟨hlo, hhi, hmem, hzero⟩ := h' x (hfirst ▸ hx)
    exact ⟨hlo, hhi, hfirst ▸ hmem, hzero⟩
  · obtain ⟨hlo, hhi, hmem, hzero⟩ := h x hfirst
    refine ⟨hlo, hhi, hmem, ?_⟩
    by_cases hsecond : m'' x = m' x
    · exact hsecond.trans hzero
    · have hmem' := (h' x hsecond).2.2.1
      exact absurd (hzero ▸ hmem') hnul

theorem Overwritten.mono {lo' : Nat} (h : Overwritten ds lo hi m m')
    (hle : lo' ≤ lo) : Overwritten ds lo' hi m m' := by
  intro x hx
  obtain ⟨hlo, hrest⟩ := h x hx
  exact ⟨hle.trans hlo, hrest⟩

/-- What stands in front of the places is left alone. -/
theorem Overwritten.before (h : Overwritten ds lo hi m m')
    (hw : CString m p w) (hlt : p + w.length < lo) : CString m' p w := by
  refine (cString_congr fun x _ hx => ?_).mpr hw
  by_contra hne
  have hlo := (h x hne).1
  omega

theorem Overwritten.apart (h : Overwritten ds lo hi m m')
    (hw : CString m p w) (hapart : p + w.length < lo ∨ hi ≤ p) :
    CString m' p w := by
  refine (cString_congr fun x hx hx' => ?_).mpr hw
  by_contra hne
  obtain ⟨hlo, hhi, -⟩ := h x hne
  omega

/-- A list up to the first element without `P`. -/
theorem exists_span (P : UInt8 → Prop) (cs : List UInt8) :
    ∃ pre rest, cs = pre ++ rest ∧ (∀ c ∈ pre, P c) ∧
      ∀ c ∈ rest.head?, ¬ P c := by
  induction cs with
  | nil => exact ⟨[], [], rfl, by simp, by simp⟩
  | cons c cs ih =>
      by_cases hc : P c
      · obtain ⟨pre, rest, hcs, hpre, hrest⟩ := ih
        refine ⟨c :: pre, rest, by rw [hcs, List.cons_append], ?_, hrest⟩
        exact List.forall_mem_cons.mpr ⟨hc, hpre⟩
      · refine ⟨[], c :: cs, rfl, by simp, ?_⟩
        rintro c' hc'
        obtain rfl := Option.some.inj hc'
        exact hc

theorem strtok_null (hq : sbegin s st = 0) (ct : Nat) :
    Settles (fun fuel => strtok s ct fuel st) (.ok (0, st)) := by
  simp only [strtok, if_pos hq]
  exact settles_const _

/-- A word that ends with the text leaves nothing for the next call. -/
theorem NextWord.last (hwords : words (separates ds) rest =
      words (separates ds) w) (hw : ∀ c ∈ w, c ∉ ds) (hne : w ≠ [])
    (hplace : CString m p w) (hlow : q ≤ p) (hhi : p + w.length = hi) :
    NextWord ds m q hi rest m p 0 w [] := by
  have hpos : 0 < w.length := List.length_pos_iff.mpr hne
  refine ⟨?_, hplace, hlow, by omega, fun _ hx => absurd rfl hx,
    .inl ⟨rfl, rfl⟩, fun hzero => absurd rfl hzero⟩
  rw [hwords, words_nil]
  exact words_last _ (fun c hc => decide_eq_false (hw c hc)) hne

/-- A word is cut off at the separator behind it. -/
theorem NextWord.cut {d : UInt8} (hwords : words (separates ds) rest =
      words (separates ds) (w ++ d :: rest')) (hw : ∀ c ∈ w, c ∉ ds)
    (hne : w ≠ []) (hd : d ∈ ds) (hplace : CString m p (w ++ d :: rest'))
    (hlow : q ≤ p) (hhi : p + w.length + 1 + rest'.length = hi) :
    NextWord ds m q hi rest (store8 m (p + w.length) 0) p (p + w.length + 1) w
      rest' := by
  have hpos : 0 < w.length := List.length_pos_iff.mpr hne
  have hnext : Remaining (store8 m (p + w.length) 0) (p + w.length + 1) hi
      rest' := .inr ⟨by omega, hplace.behind, hhi⟩
  refine ⟨?_, hplace.cut, hlow, by omega, ?_, hnext, fun _ => by omega⟩
  · rw [hwords]
    exact words_first _ (fun c hc => decide_eq_false (hw c hc)) hne
      (decide_eq_true hd)
  · intro x hx
    have hxeq : x = p + w.length := by
      by_contra hother
      exact hx (store8_of_ne m 0 hother)
    have hsep : m x = d := hxeq ▸ hplace.suffix.1
    refine ⟨by omega, by omega, hsep ▸ hd, ?_⟩
    rw [hxeq, store8_same]

/-- A call finds the next word, or that there is none. -/
theorem strtok_settles (hq : sbegin s st = q) (hq0 : q ≠ 0)
    (h : CString st.mem q rest) (hct : CString st.mem ct ds)
    (hhi : q + rest.length = hi) :
    (words (separates ds) rest = [] ∧
      Settles (fun fuel => strtok s ct fuel st)
        (.ok (0, { st with strtok := 0 }))) ∨
    ∃ m' p q' w rest', NextWord ds st.mem q hi rest m' p q' w rest' ∧
      Settles (fun fuel => strtok s ct fuel st) (.ok (p, ⟨m', q'⟩)) := by
  obtain ⟨skipped, text, rfl, hskipped, htext⟩ := exists_span (· ∈ ds) rest
  have hskip := strspn_settles h hct hskipped htext
  have hwords : words (separates ds) (skipped ++ text) =
      words (separates ds) text :=
    words_skip (separates ds) fun c hc => decide_eq_true (hskipped c hc)
  have hbehind : CString st.mem (q + skipped.length) text := h.suffix
  rw [List.length_append] at hhi
  cases text with
  | nil =>
      refine .inl ⟨hwords.trans (words_nil _), ?_⟩
      have hnul : st.mem (q + skipped.length) = 0 := hbehind
      simp only [strtok, hq, if_neg hq0]
      refine hskip.bind ?_
      simp only [if_pos hnul]
      exact settles_const _
  | cons c text =>
      right
      obtain ⟨w, rest', hsplit, hw, hrest'⟩ := exists_span (· ∉ ds) (c :: text)
      have hstart : st.mem (q + skipped.length) ≠ 0 := by
        rw [hbehind.1]
        exact hbehind.2.1
      have hwne : w ≠ [] := by
        rintro rfl
        have hhead : c ∈ rest'.head? := by
          rw [← List.nil_append rest', ← hsplit]
          rfl
        exact hrest' c hhead (htext c rfl)
      replace hwords := hwords.trans (congrArg (words (separates ds)) hsplit)
      rw [hsplit] at hbehind hhi
      rw [List.length_append] at hhi
      have hpick := strpbrk_settles hbehind hct hw fun c hc =>
        not_not.mp (hrest' c hc)
      have hcall (send : Nat) (hsend : Settles
          (strpbrk st.mem (q + skipped.length) ct) (.ok send)) :
          Settles (fun fuel => strtok s ct fuel st)
            (.ok (if send ≠ 0 ∧ st.mem send ≠ 0 then
                (q + skipped.length, ⟨store8 st.mem send 0, send + 1⟩)
              else (q + skipped.length, { st with strtok := send }))) := by
        simp only [strtok, hq, if_neg hq0]
        refine hskip.bind ?_
        simp only [if_neg hstart]
        refine hsend.bind ?_
        split_ifs <;> exact settles_const _
      cases rest' with
      | nil =>
          rw [List.append_nil] at hbehind hwords
          have hlast := hcall 0 hpick
          rw [if_neg fun hboth => hboth.1 rfl] at hlast
          exact ⟨_, _, _, w, [], .last hwords hw hwne hbehind (by omega)
            (by simpa [← Nat.add_assoc] using hhi), hlast⟩
      | cons d rest' =>
          rw [if_neg (List.cons_ne_nil d rest')] at hpick
          have hd : d ∈ ds := not_not.mp (hrest' d rfl)
          have hsep := hbehind.suffix
          have hnext := hcall _ hpick
          rw [if_pos ⟨by omega, hsep.1 ▸ hsep.2.1⟩] at hnext
          rw [List.length_cons] at hhi
          exact ⟨_, _, _, w, rest', .cut hwords hw hwne hd hbehind (by omega)
            (by omega), hnext⟩

/-- What a run of calls returns for the words `ws`: as many pointers, each to
its word, and no more than that. -/
structure CutInto (ds : List UInt8) (lo hi n : Nat) (ws : List (List UInt8))
    (m : Memory) (answers : List Nat) (m' : Memory) : Prop where
  pointers : ∃ ptrs, answers = ptrs ++ List.replicate (n - ws.length) 0 ∧
    List.Forall₂ (CString m') ptrs (ws.take n) ∧ ptrs.Pairwise (· < ·) ∧
    ∀ p ∈ ptrs, lo ≤ p ∧ p < hi
  overwritten : Overwritten ds lo hi m m'

/-- Once there is no text left, every call returns `NULL`. -/
theorem strtokCalls_null (n : Nat) (hq : sbegin s st = 0) :
    Settles (fun fuel => strtokCalls ct fuel n s st)
      (.ok (List.replicate n 0, st)) := by
  induction n generalizing s with
  | zero => exact settles_const _
  | succ n ih =>
      have hnone : sbegin 0 st = 0 := by
        rw [sbegin] at hq ⊢
        split_ifs at hq with hs
        · exact absurd hq hs
        · exact hq
      exact (strtok_null hq ct).bind ((ih hnone).bind (settles_const _))

theorem CutInto.nil (ds : List UInt8) (lo hi n : Nat) (m : Memory) :
    CutInto ds lo hi n [] m (List.replicate n 0) m := by
  refine ⟨⟨[], rfl, ?_, .nil, by simp⟩, fun _ hx => absurd rfl hx⟩
  rw [List.take_nil]
  exact .nil

theorem strtokCalls_settles (n : Nat) (hq : sbegin s st = q)
    (hrest : Remaining st.mem q hi rest) (hlo : q ≠ 0 → lo ≤ q)
    (hct : CString st.mem ct ds) (hapart : ct + ds.length < lo ∨ hi ≤ ct) :
    ∃ answers st', Settles (fun fuel => strtokCalls ct fuel n s st)
        (.ok (answers, st')) ∧
      CutInto ds lo hi n (words (separates ds) rest) st.mem answers
        st'.mem := by
  induction n generalizing s st q rest lo with
  | zero =>
      refine ⟨[], st, settles_const _, ⟨[], ?_, .nil, .nil, by simp⟩,
        fun _ hx => absurd rfl hx⟩
      rw [Nat.zero_sub]
      rfl
  | succ n ih =>
      rcases hrest with ⟨rfl, rfl⟩ | ⟨hq0, htext, hhi⟩
      · refine ⟨_, st, strtokCalls_null (n + 1) hq, ?_⟩
        rw [words_nil]
        exact .nil ..
      · have hlo := hlo hq0
        rcases strtok_settles hq hq0 htext hct hhi with
          ⟨hnone, hcall⟩ | ⟨m', p, q', w, rest', hword, hcall⟩
        · have hnull : sbegin 0 { st with strtok := 0 } = 0 := rfl
          refine ⟨_, _, hcall.bind
            ((strtokCalls_null n hnull).bind (settles_const _)), ?_⟩
          rw [hnone]
          exact .nil ds lo hi (n + 1) st.mem
        · have hct' : CString m' ct ds :=
            hword.overwritten.apart hct (by omega)
          have hlow := hword.low
          have hgoes : sbegin 0 ⟨m', q'⟩ = q' := rfl
          have hapart' : ct + ds.length < p + w.length + 1 ∨ hi ≤ ct := by
            omega
          obtain ⟨answers, st', hcalls, hcut⟩ :=
            ih hgoes hword.remaining hword.behind hct' hapart'
          obtain ⟨ptrs, rfl, hwords, hsorted, hbounds⟩ := hcut.pointers
          refine ⟨_, st', hcall.bind (hcalls.bind (settles_const _)), ?_, ?_⟩
          · rw [hword.words_eq]
            refine ⟨p :: ptrs, ?_, ?_, ?_, ?_⟩
            · rw [List.length_cons, Nat.add_sub_add_right]
              rfl
            · rw [List.take_succ_cons]
              exact .cons (hcut.overwritten.before hword.word (by omega)) hwords
            · refine List.pairwise_cons.mpr ⟨fun x hx => ?_, hsorted⟩
              have hx := (hbounds x hx).1
              omega
            · intro x hx
              rcases List.mem_cons.mp hx with rfl | hx
              · exact ⟨hlo.trans hlow, hword.high⟩
              · have hx := hbounds x hx
                exact ⟨by omega, hx.2⟩
          · have hnul := hct.ne_zero
            have hfirst := hword.overwritten.mono hlo
            exact hfirst.trans hnul (hcut.overwritten.mono (by omega))

/-- Whatever has been asked of it before, `strtok` cuts a text into its words:
the calls return them one after the other, then `NULL`, and of the text only
separators are overwritten. -/
theorem strtok_cuts (n : Nat) (st : StrtokState) (hs : s ≠ 0)
    (htext : CString st.mem s cs) (hct : CString st.mem ct ds)
    (hapart : ct + ds.length < s ∨ s + cs.length ≤ ct) :
    ∃ answers st', Settles (fun fuel => strtokCalls ct fuel n s st)
        (.ok (answers, st')) ∧
      CutInto ds s (s + cs.length) n (words (separates ds) cs) st.mem answers
        st'.mem :=
  strtokCalls_settles n (if_pos hs) (.inr ⟨hs, htext, rfl⟩) (fun _ => le_rfl)
    hct hapart

/-- The text `a b` at 100 and a blank at 200. -/
def aAndB : Memory := fun x =>
  if x < 200 then [0x61, 0x20, 0x62].getD (x - 100) 0
  else [0x20].getD (x - 200) 0

theorem aAndB_text : CString aAndB 100 [0x61, 0x20, 0x62] :=
  ⟨rfl, by decide, rfl, by decide, rfl, by decide, rfl⟩

theorem aAndB_blank : CString aAndB 200 [0x20] := ⟨rfl, by decide, rfl⟩

theorem strtok_cuts_aAndB : ∃ answers st',
    Settles (fun fuel => strtokCalls 200 fuel 3 100 ⟨aAndB, 0⟩)
      (.ok (answers, st')) ∧
      CutInto [0x20] 100 103 3 (words (separates [0x20]) [0x61, 0x20, 0x62])
        aAndB answers st'.mem :=
  strtok_cuts 3 ⟨aAndB, 0⟩ (Nat.succ_ne_zero 99) aAndB_text aAndB_blank
    (.inr (by decide))

end Words

end Linda
