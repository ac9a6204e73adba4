/-
The scan of a format by `vsprintf`, pointer by pointer: every `*fmt` is a read
of memory, and `fmt` moves as the source moves it.
-/
import Linda.FormatLanguage
import Linda.FuelLoop
import Linda.Print

namespace Linda

open ByteMemory FuelLoop

/-- The pointer `fmt` and the addresses `*fmt` has read so far. -/
structure Scan where
  fmt : Nat
  reads : List Nat
deriving Repr, DecidableEq

/-- `spin` is a loop that outran its fuel, `aborted` the `ud2` of a conversion
of a `short`. -/
inductive ScanHalt where
  | spin
  | aborted (s : Formatted) (scan : Scan)
deriving Repr, DecidableEq

namespace Scan

variable (mem : Memory)

/-- `*fmt` -/
def read (s : Scan) : UInt8 × Scan :=
  (mem s.fmt, { s with reads := s.reads ++ [s.fmt] })

/-- `++fmt` -/
def next (s : Scan) : Scan := { s with fmt := s.fmt + 1 }

/-- `--fmt` -/
def back (s : Scan) : Scan := { s with fmt := s.fmt - 1 }

/-- `is_digit(*fmt)`, a macro that reads its argument twice. -/
def atDigit (s : Scan) : Bool × Scan :=
  let (c, s) := s.read mem
  if 0x30 ≤ c then
    let (c, s) := s.read mem
    (c ≤ 0x39, s)
  else (false, s)

/-- `*fmt == c || …` -/
def sees : List UInt8 → Scan → Bool × Scan
  | [], s => (false, s)
  | c :: cs, s =>
      let (found, s) := s.read mem
      if found = c then (true, s) else sees cs s

end Scan

/-- From the label `repeat` to its `goto`s. -/
def flagsBody (mem : Memory) :
    Flags × Scan → Except ScanHalt ((Flags × Scan) ⊕ (Flags × Scan))
  | (flags, scan) =>
      let (c, scan) := scan.next.read mem
      if c = 0x2D then .ok (.inl ({ flags with left := true }, scan))
      else if c = 0x2B then .ok (.inl ({ flags with plus := true }, scan))
      else if c = 0x20 then .ok (.inl ({ flags with space := true }, scan))
      else if c = 0x23 then .ok (.inl ({ flags with special := true }, scan))
      else if c = 0x30 then .ok (.inl ({ flags with zeropad := true }, scan))
      else .ok (.inr (flags, scan))

/-- The loop of `skip_atoi`. -/
def atoiBody (mem : Memory) :
    Int32 × Scan → Except ScanHalt ((Int32 × Scan) ⊕ (Int32 × Scan))
  | (i, scan) =>
      let (more, scan) := scan.atDigit mem
      if more then
        let (c, scan) := scan.read mem
        .ok (.inl (i * 10 + Int32.ofNat c.toNat - 0x30, scan.next))
      else .ok (.inr (i, scan))

/-- `skip_atoi(&fmt)` -/
def scanAtoi (fuel : Nat) (mem : Memory) (scan : Scan) :
    Except ScanHalt (Int32 × Scan) :=
  loop .spin (atoiBody mem) fuel (0, scan)

/-- The field width. The directive holds what was read, its format stays
empty. -/
def scanWidth (fuel : Nat) (va : VaList) (mem : Memory) (d : Directive)
    (scan : Scan) : Except ScanHalt (Directive × Scan) :=
  let (number, scan) := scan.atDigit mem
  if number then do
    let (width, scan) ← scanAtoi fuel mem scan
    .ok ({ d with width := width }, scan)
  else
    let (c, scan) := scan.read mem
    if c = 0x2A then
      let width := (va.word d.taken).toInt32
      if width < 0 then
        .ok ({ d with
          width := -width, flags := { d.flags with left := true },
          taken := d.taken + 1 }, scan.next)
      else .ok ({ d with width := width, taken := d.taken + 1 }, scan.next)
    else .ok (d, scan)

/-- What stands behind the `.` of a precision. -/
def scanPrecisionNumber (fuel : Nat) (va : VaList) (mem : Memory) (d : Directive)
    (scan : Scan) : Except ScanHalt (Directive × Scan) :=
  let (number, scan) := scan.atDigit mem
  if number then do
    let (precision, scan) ← scanAtoi fuel mem scan
    .ok ({ d with precision := precision }, scan)
  else
    let (c, scan) := scan.read mem
    if c = 0x2A then
      .ok ({ d with
        precision := (va.word d.taken).toInt32, taken := d.taken + 1 }, scan.next)
    else .ok (d, scan)

def scanPrecision (fuel : Nat) (va : VaList) (mem : Memory) (d : Directive)
    (scan : Scan) : Except ScanHalt (Directive × Scan) :=
  let (c, scan) := scan.read mem
  if c = 0x2E then do
    let (d, scan) ← scanPrecisionNumber fuel va mem d scan.next
    .ok ({ d with
      precision := if d.precision < 0 then 0 else d.precision }, scan)
  else .ok (d, scan)

def scanQualifier (mem : Memory) (d : Directive) (scan : Scan) :
    Directive × Scan :=
  let (found, scan) := scan.sees mem [0x68, 0x6C, 0x4C]
  if found then
    let (c, scan) := scan.read mem
    ({ d with qualifier := some c }, scan.next)
  else (d, scan)

/-- The `switch` on the conversion character; its last branch steps back from
a NUL. -/
def scanConvert (va : VaList) (mem : Memory) (d : Directive) (s : Formatted)
    (scan : Scan) : Except ScanHalt (Formatted × Scan) :=
  let (c, scan) := scan.read mem
  let arg := va.word d.taken
  if aborts d.qualifier c then .error (.aborted { s with taken := d.taken } scan)
  else
    match conversion va d c arg with
    | some text =>
        .ok ({ s with out := s.out ++ text, taken := d.taken + 1 }, scan)
    | none =>
        if c = 0x6E then
          .ok ({ s with
            taken := d.taken + 1, stores := s.stores ++ [(arg, s.out.length)] },
            scan)
        else
          let (c, scan) := scan.read mem
          let out := if c ≠ 0x25 then s.out ++ [0x25] else s.out
          let (c, scan) := scan.read mem
          if c ≠ 0 then
            let (c, scan) := scan.read mem
            .ok ({ s with out := out ++ [c], taken := d.taken }, scan)
          else .ok ({ s with out := out, taken := d.taken }, scan.back)

/-- A conversion, from its `%` on. -/
def scanDirective (fuel : Nat) (va : VaList) (mem : Memory) (s : Formatted)
    (scan : Scan) : Except ScanHalt (Formatted × Scan) := do
  let (flags, scan) ← loop .spin (flagsBody mem) fuel ({}, scan)
  let (d, scan) ← scanWidth fuel va mem ⟨flags, -1, -1, none, [], s.taken⟩ scan
  let (d, scan) ← scanPrecision fuel va mem d scan
  let (d, scan) := scanQualifier mem d scan
  scanConvert va mem d s scan

/-- A round of `for (str=buf ; *fmt ; ++fmt)`. -/
def formatBody (va : VaList) (mem : Memory) (fuel : Nat) :
    Formatted × Scan →
      Except ScanHalt ((Formatted × Scan) ⊕ (Formatted × Scan))
  | (s, scan) =>
      let (c, scan) := scan.read mem
      if c = 0 then .ok (.inr (s, scan))
      else
        let (c, scan) := scan.read mem
        if c ≠ 0x25 then
          let (c, scan) := scan.read mem
          .ok (.inl ({ s with out := s.out ++ [c] }, scan.next))
        else do
          let (s, scan) ← scanDirective fuel va mem s scan
          .ok (.inl (s, scan.next))

/-- `vsprintf` with the format at an address, and where its scan ends. -/
def vsprintfScan (fuel : Nat) (va : VaList) (mem : Memory) (fmt : Nat) :
    Except ScanHalt (Formatted × Scan) :=
  loop .spin (formatBody va mem fuel) fuel (⟨[], 0, []⟩, ⟨fmt, []⟩)

/-- A string in memory, from its first character to its NUL. -/
structure StringAt (mem : Memory) (start nul : Nat) : Prop where
  order : start ≤ nul
  ends : mem nul = 0
  inside : ∀ a, start ≤ a → a < nul → mem a ≠ 0

/-- What is left of the format, with all that was read inside the string. -/
structure Follows (mem : Memory) (start nul : Nat) (fmt : List UInt8)
    (scan : Scan) : Prop where
  fmt : fmt = bytesAt mem scan.fmt (nul - scan.fmt)
  low : start ≤ scan.fmt
  high : scan.fmt ≤ nul
  reads : ∀ a ∈ scan.reads, start ≤ a ∧ a ≤ nul

theorem bytesAt_cons (mem : Memory) (start len : Nat) :
    bytesAt mem start (len + 1) = mem start :: bytesAt mem (start + 1) len := by
  rw [bytesAt, bytesAt, List.range_succ_eq_map, List.map_cons, List.map_map]
  congr 1
  refine List.map_congr_left fun i _ => ?_
  exact congrArg mem (by omega)

/-- What the string says and what the scan answers: both go on, or both come to
the `ud2` with nothing read outside the string. -/
inductive SameEnd {α : Type} (start nul : Nat) (goes : α → Formatted × Scan → Prop) :
    Except Formatted α → Except ScanHalt (Formatted × Scan) → Prop
  | goes {a : α} {last : Formatted × Scan} (h : goes a last) :
      SameEnd start nul goes (.ok a) (.ok last)
  | aborted {s : Formatted} {scan : Scan}
      (h : ∀ a ∈ scan.reads, start ≤ a ∧ a ≤ nul) :
      SameEnd start nul goes (.error s) (.error (.aborted s scan))

/-- The `++fmt` of the loop brings the scan to what is left of the format. -/
def GoesOn (mem : Memory) (start nul : Nat) (s : Formatted × List UInt8)
    (last : Formatted × Scan) : Prop :=
  last.1 = s.1 ∧ Follows mem start nul s.2 last.2.next

/-- The scan has come to the NUL. -/
def ComesToNul (mem : Memory) (start nul : Nat) (s : Formatted)
    (last : Formatted × Scan) : Prop :=
  last.1 = s ∧ Follows mem start nul [] last.2

namespace Follows

variable {mem : Memory} {start nul : Nat} {fmt : List UInt8} {c : UInt8}
  {scan : Scan}

theorem nil_iff (h : Follows mem start nul fmt scan) :
    fmt = [] ↔ scan.fmt = nul := by
  have hhigh := h.high
  rw [h.fmt, bytesAt, List.map_eq_nil_iff, List.range_eq_nil]
  omega

/-- The next character, unless the scan is at the NUL. -/
theorem cons_iff (h : Follows mem start nul (c :: fmt) scan) :
    mem scan.fmt = c ∧ scan.fmt < nul ∧ Follows mem start nul fmt scan.next := by
  have hne : scan.fmt ≠ nul := fun hend => nomatch h.nil_iff.mpr hend
  have hlt : scan.fmt < nul := lt_of_le_of_ne h.high hne
  have hlen : nul - scan.fmt = nul - (scan.fmt + 1) + 1 := by omega
  have hfmt := h.fmt
  rw [hlen, bytesAt_cons] at hfmt
  obtain ⟨hc, hrest⟩ := List.cons.inj hfmt
  exact ⟨hc.symm, hlt, hrest, Nat.le_succ_of_le h.low, hlt, h.reads⟩

theorem next (h : Follows mem start nul fmt scan) (hhead : fmt.headD 0 ≠ 0) :
    Follows mem start nul fmt.tail scan.next := by
  cases fmt with
  | nil => exact absurd rfl hhead
  | cons c rest => exact h.cons_iff.2.2

theorem read (h : Follows mem start nul fmt scan) (hends : mem nul = 0) :
    ∃ scan', scan.read mem = (fmt.headD 0, scan') ∧ scan'.fmt = scan.fmt ∧
      Follows mem start nul fmt scan' := by
  refine ⟨{ scan with reads := scan.reads ++ [scan.fmt] }, ?_, rfl, h.fmt, h.low,
    h.high, ?_⟩
  · rw [Scan.read]
    cases fmt with
    | nil => rw [h.nil_iff.mp rfl, hends]; rfl
    | cons c rest => rw [h.cons_iff.1]; rfl
  · intro a ha
    rcases List.mem_append.mp ha with ha | ha
    · exact h.reads a ha
    · obtain rfl := List.mem_singleton.mp ha
      exact ⟨h.low, h.high⟩

theorem atDigit (h : Follows mem start nul fmt scan) (hends : mem nul = 0) :
    ∃ scan', scan.atDigit mem = (isDigit (fmt.headD 0), scan') ∧
      Follows mem start nul fmt scan' := by
  obtain ⟨first, hfirst, -, h⟩ := h.read hends
  obtain ⟨second, hsecond, -, hlast⟩ := h.read hends
  by_cases hlow : 0x30 ≤ fmt.headD 0
  · refine ⟨second, ?_, hlast⟩
    simp only [Scan.atDigit, hfirst, hlow, ↓reduceIte, hsecond, isDigit,
      decide_true, Bool.true_and]
  · refine ⟨first, ?_, h⟩
    simp only [Scan.atDigit, hfirst, hlow, ↓reduceIte, isDigit, decide_false,
      Bool.false_and]

theorem sees (h : Follows mem start nul fmt scan) (hends : mem nul = 0)
    (cs : List UInt8) :
    ∃ scan', scan.sees mem cs = (decide (fmt.headD 0 ∈ cs), scan') ∧
      Follows mem start nul fmt scan' := by
  induction cs generalizing scan with
  | nil => exact ⟨scan, rfl, h⟩
  | cons c cs ih =>
      obtain ⟨first, hfirst, -, h⟩ := h.read hends
      by_cases hc : fmt.headD 0 = c
      · refine ⟨first, ?_, h⟩
        simp only [Scan.sees, hfirst, hc, ↓reduceIte, List.mem_cons, true_or,
          decide_true]
      · obtain ⟨last, hlast, h⟩ := ih h
        refine ⟨last, ?_, h⟩
        simp only [Scan.sees, hfirst, hc, ↓reduceIte, hlast, List.mem_cons,
          false_or]

end Follows

section Heads

variable (va : VaList) (d : Directive)

theorem readWidth_head :
    readWidth va d =
      if isDigit (d.fmt.headD 0) then
        { d with width := (skipAtoi 0 d.fmt).1, fmt := (skipAtoi 0 d.fmt).2 }
      else if d.fmt.headD 0 = 0x2A then
        if (va.word d.taken).toInt32 < 0 then
          { d with
            width := -(va.word d.taken).toInt32,
            flags := { d.flags with left := true },
            fmt := d.fmt.tail, taken := d.taken + 1 }
        else
          { d with
            width := (va.word d.taken).toInt32, fmt := d.fmt.tail,
            taken := d.taken + 1 }
      else d := by
  obtain ⟨_, _, _, _, fmt, _⟩ := d
  cases fmt <;> rfl

theorem readPrecisionNumber_head :
    readPrecisionNumber va d =
      if isDigit (d.fmt.headD 0) then
        { d with precision := (skipAtoi 0 d.fmt).1, fmt := (skipAtoi 0 d.fmt).2 }
      else if d.fmt.headD 0 = 0x2A then
        { d with
          precision := (va.word d.taken).toInt32, fmt := d.fmt.tail,
          taken := d.taken + 1 }
      else d := by
  obtain ⟨_, _, _, _, fmt, _⟩ := d
  cases fmt <;> rfl

theorem readPrecision_head :
    readPrecision va d =
      if d.fmt.headD 0 = 0x2E then
        { readPrecisionNumber va { d with fmt := d.fmt.tail } with
          precision :=
            if (readPrecisionNumber va { d with fmt := d.fmt.tail }).precision < 0
            then 0
            else (readPrecisionNumber va { d with fmt := d.fmt.tail }).precision }
      else d := by
  obtain ⟨_, _, _, _, fmt, _⟩ := d
  cases fmt <;> rfl

theorem readQualifier_head :
    readQualifier d =
      if d.fmt.headD 0 ∈ [(0x68 : UInt8), 0x6C, 0x4C] then
        { d with qualifier := some (d.fmt.headD 0), fmt := d.fmt.tail }
      else d := by
  obtain ⟨_, _, _, _, fmt, _⟩ := d
  cases fmt with
  | nil => rfl
  | cons c rest => simp [readQualifier]

end Heads

section Readers

variable {mem : Memory} {start nul : Nat} (va : VaList) {scan : Scan}

/-- The flags, read by the list and by the pointer. -/
theorem flagsBody_runs (hends : mem nul = 0) {fmt : List UInt8} (flags : Flags)
    (h : Follows mem start nul fmt scan.next) :
    ∃ scan', Runs ScanHalt.spin (fun _ => flagsBody mem) (flags, scan)
        (.ok ((readFlags flags fmt).1, scan')) ∧
      Follows mem start nul (readFlags flags fmt).2 scan' := by
  induction fmt generalizing flags scan with
  | nil =>
      obtain ⟨scan', hread, -, h⟩ := h.read hends
      refine ⟨scan', Runs.exit ?_, h⟩
      simp only [flagsBody, hread]
      exact settles_const _
  | cons c rest ih =>
      obtain ⟨scan', hread, -, h⟩ := h.read hends
      have hrest := h.cons_iff.2.2
      rw [readFlags]
      split_ifs with hleft hplus hspace hspecial hzero
      case neg =>
        refine ⟨scan', Runs.exit ?_, h⟩
        simp only [flagsBody, hread, List.headD_cons, hleft, hplus, hspace,
          hspecial, hzero, ↓reduceIte]
        exact settles_const _
      all_goals
        obtain ⟨last, hruns, hlast⟩ := ih _ hrest
        refine ⟨last, Runs.next ?_ hruns, hlast⟩
        simp only [flagsBody, List.headD_cons, *, ↓reduceIte]
        exact settles_const _

theorem atoiBody_runs (hends : mem nul = 0) {fmt : List UInt8} (i : Int32)
    (h : Follows mem start nul fmt scan) :
    ∃ scan', Runs ScanHalt.spin (fun _ => atoiBody mem) (i, scan)
        (.ok ((skipAtoi i fmt).1, scan')) ∧
      Follows mem start nul (skipAtoi i fmt).2 scan' := by
  induction fmt generalizing i scan with
  | nil =>
      obtain ⟨scan', hdigit, h⟩ := h.atDigit hends
      refine ⟨scan', Runs.exit ?_, h⟩
      simp only [atoiBody, hdigit]
      exact settles_const _
  | cons c rest ih =>
      obtain ⟨first, hdigit, h⟩ := h.atDigit hends
      rw [skipAtoi]
      cases hc : isDigit c with
      | true =>
          obtain ⟨scan', hread, -, h⟩ := h.read hends
          obtain ⟨last, hruns, hlast⟩ := ih
            (i * 10 + Int32.ofNat c.toNat - 0x30) h.cons_iff.2.2
          refine ⟨last, Runs.next ?_ hruns, hlast⟩
          simp only [atoiBody, hdigit, List.headD_cons, hc, ↓reduceIte, hread]
          exact settles_const _
      | false =>
          refine ⟨first, Runs.exit ?_, h⟩
          simp only [atoiBody, hdigit, List.headD_cons, hc, Bool.false_eq_true,
            ↓reduceIte]
          exact settles_const _

/-- What a directive holds apart from its format. -/
def Directive.bare (d : Directive) : Directive := { d with fmt := [] }

theorem scanAtoi_settles (hends : mem nul = 0) {fmt : List UInt8}
    (h : Follows mem start nul fmt scan) :
    ∃ scan', Settles (fun fuel => scanAtoi fuel mem scan)
        (.ok ((skipAtoi 0 fmt).1, scan')) ∧
      Follows mem start nul (skipAtoi 0 fmt).2 scan' := by
  obtain ⟨scan', hruns, h⟩ := atoiBody_runs hends 0 h
  exact ⟨scan', hruns.settles, h⟩

theorem scanWidth_settles (hends : mem nul = 0) (d : Directive)
    (h : Follows mem start nul d.fmt scan) :
    ∃ scan', Settles (fun fuel => scanWidth fuel va mem d.bare scan)
        (.ok ((readWidth va d).bare, scan')) ∧
      Follows mem start nul (readWidth va d).fmt scan' := by
  obtain ⟨first, hdigit, h⟩ := h.atDigit hends
  obtain ⟨second, hread, -, hsecond⟩ := h.read hends
  rw [readWidth_head]
  split_ifs with hnumber hstar hneg
  · obtain ⟨last, hatoi, hlast⟩ := scanAtoi_settles hends h
    refine ⟨last, ?_, hlast⟩
    simp only [scanWidth, hdigit, hnumber, ↓reduceIte]
    exact hatoi.bind (settles_const _)
  · refine ⟨second.next, ?_, hsecond.next (by rw [hstar]; decide)⟩
    simp only [scanWidth, hdigit, hread, hstar, Directive.bare, hneg, ↓reduceIte]
    exact settles_const _
  · refine ⟨second.next, ?_, hsecond.next (by rw [hstar]; decide)⟩
    simp only [scanWidth, hdigit, hread, hstar, Directive.bare, hneg, ↓reduceIte]
    exact settles_const _
  · refine ⟨second, ?_, hsecond⟩
    simp only [scanWidth, hdigit, hnumber, hread, hstar, ↓reduceIte,
      Bool.false_eq_true]
    exact settles_const _

theorem scanPrecisionNumber_settles (hends : mem nul = 0) (d : Directive)
    (h : Follows mem start nul d.fmt scan) :
    ∃ scan', Settles (fun fuel => scanPrecisionNumber fuel va mem d.bare scan)
        (.ok ((readPrecisionNumber va d).bare, scan')) ∧
      Follows mem start nul (readPrecisionNumber va d).fmt scan' := by
  obtain ⟨first, hdigit, h⟩ := h.atDigit hends
  obtain ⟨second, hread, -, hsecond⟩ := h.read hends
  rw [readPrecisionNumber_head]
  split_ifs with hnumber hstar
  · obtain ⟨last, hatoi, hlast⟩ := scanAtoi_settles hends h
    refine ⟨last, ?_, hlast⟩
    simp only [scanPrecisionNumber, hdigit, hnumber, ↓reduceIte]
    exact hatoi.bind (settles_const _)
  · refine ⟨second.next, ?_, hsecond.next (by rw [hstar]; decide)⟩
    simp only [scanPrecisionNumber, hdigit, hread, hstar, Directive.bare,
      ↓reduceIte]
    exact settles_const _
  · refine ⟨second, ?_, hsecond⟩
    simp only [scanPrecisionNumber, hdigit, hnumber, hread, hstar, ↓reduceIte,
      Bool.false_eq_true]
    exact settles_const _

theorem scanPrecision_settles (hends : mem nul = 0) (d : Directive)
    (h : Follows mem start nul d.fmt scan) :
    ∃ scan', Settles (fun fuel => scanPrecision fuel va mem d.bare scan)
        (.ok ((readPrecision va d).bare, scan')) ∧
      Follows mem start nul (readPrecision va d).fmt scan' := by
  obtain ⟨first, hread, -, h⟩ := h.read hends
  rw [readPrecision_head]
  by_cases hdot : d.fmt.headD 0 = 0x2E
  · rw [if_pos hdot]
    obtain ⟨last, hnumber, hlast⟩ := scanPrecisionNumber_settles va hends
      { d with fmt := d.fmt.tail } (h.next (by rw [hdot]; decide))
    refine ⟨last, ?_, hlast⟩
    simp only [scanPrecision, hread, hdot, ↓reduceIte]
    exact hnumber.bind (settles_const _)
  · rw [if_neg hdot]
    refine ⟨first, ?_, h⟩
    simp only [scanPrecision, hread, hdot, ↓reduceIte]
    exact settles_const _

theorem scanQualifier_eq (hends : mem nul = 0) (d : Directive)
    (h : Follows mem start nul d.fmt scan) :
    ∃ scan', scanQualifier mem d.bare scan = ((readQualifier d).bare, scan') ∧
      Follows mem start nul (readQualifier d).fmt scan' := by
  obtain ⟨first, hsees, h⟩ := h.sees hends [0x68, 0x6C, 0x4C]
  obtain ⟨second, hread, -, hsecond⟩ := h.read hends
  rw [readQualifier_head]
  split_ifs with hfound
  · refine ⟨second.next, ?_, hsecond.next ?_⟩
    · simp only [scanQualifier, hsees, hfound, hread, decide_true, ↓reduceIte]
      rfl
    · intro hzero
      rw [hzero] at hfound
      exact absurd hfound (by decide)
  · refine ⟨first, ?_, h⟩
    simp only [scanQualifier, hsees, hfound, decide_false, Bool.false_eq_true,
      ↓reduceIte]

theorem Scan.back_next {scan : Scan} (hpos : 0 < scan.fmt) :
    scan.back.next = scan := by
  obtain ⟨fmt, reads⟩ := scan
  exact congrArg (Scan.mk · reads) (Nat.sub_add_cancel hpos)

/-- The `++fmt` of the loop makes up for the step back from the NUL. -/
theorem scanConvert_end (hends : mem nul = 0) (hnul : 0 < nul) (d : Directive)
    (s : Formatted) (hnozero : 0 ∉ d.fmt)
    (h : Follows mem start nul d.fmt scan) :
    SameEnd start nul (GoesOn mem start nul) (convert va d s)
      (scanConvert va mem d.bare s scan) := by
  obtain ⟨first, hfirst, -, h⟩ := h.read hends
  obtain ⟨second, hsecond, -, h₂⟩ := h.read hends
  obtain ⟨third, hthird, -, h₃⟩ := h₂.read hends
  obtain ⟨fourth, hfourth, -, h₄⟩ := h₃.read hends
  have hqualifier : d.bare.qualifier = d.qualifier := rfl
  have htaken : d.bare.taken = d.taken := rfl
  rw [convert]
  cases hfmt : d.fmt with
  | nil =>
      rw [hfmt] at hfirst hsecond hthird h₃
      have hend := h₃.nil_iff.mp rfl
      have habort : aborts d.qualifier 0 = false := by
        rw [aborts]
        exact Bool.and_eq_false_iff.mpr (.inr (by decide))
      have hscan : scanConvert va mem d.bare s scan =
          .ok ({ s with out := s.out ++ [0x25], taken := d.taken }, third.back) := by
        simp only [scanConvert, hfirst, hsecond, hthird, List.headD_nil,
          hqualifier, habort]
        rfl
      rw [hscan]
      refine .goes ⟨rfl, ?_⟩
      rw [Scan.back_next (by omega)]
      exact h₃
  | cons c rest =>
      rw [hfmt, List.headD_cons] at hfirst hsecond hthird hfourth
      rw [hfmt] at h h₄ hnozero
      have hc : c ≠ 0 := fun hzero => hnozero (hzero ▸ List.mem_cons_self)
      have hsame : conversion va d.bare c = conversion va d c := rfl
      dsimp only
      cases habort : aborts d.qualifier c with
      | true =>
          simp only [scanConvert, hfirst, hqualifier, htaken, habort, ↓reduceIte]
          exact .aborted h.reads
      | false =>
          cases hconversion : conversion va d c (va.word d.taken) with
          | some text =>
              simp only [scanConvert, hfirst, hqualifier, htaken, habort, hsame,
                hconversion, Bool.false_eq_true, ↓reduceIte]
              exact .goes ⟨rfl, h.cons_iff.2.2⟩
          | none =>
              by_cases hn : c = 0x6E
              · subst hn
                simp only [scanConvert, hfirst, hqualifier, htaken, habort,
                  hsame, hconversion, Bool.false_eq_true, ↓reduceIte]
                exact .goes ⟨rfl, h.cons_iff.2.2⟩
              · simp only [scanConvert, hfirst, hqualifier, htaken, habort,
                  hsame, hconversion, hn, hsecond, hthird, hfourth, hc, ne_eq,
                  not_false_eq_true, Bool.false_eq_true, ↓reduceIte]
                by_cases hpercent : c = 0x25
                · simp only [hpercent, not_true_eq_false, ↓reduceIte]
                  exact .goes ⟨rfl, h₄.cons_iff.2.2⟩
                · simp only [hpercent, not_false_eq_true, ↓reduceIte,
                    List.append_assoc, List.singleton_append]
                  exact .goes ⟨rfl, h₄.cons_iff.2.2⟩

end Readers

theorem StringAt.noNul {mem : Memory} {start nul : Nat}
    (h : StringAt mem start nul) : 0 ∉ bytesAt mem start (nul - start) := by
  intro hmem
  obtain ⟨i, hi, hzero⟩ := List.mem_map.mp hmem
  have hlt := List.mem_range.mp hi
  exact h.inside (start + i) (by omega) (by omega) hzero

section Formats

variable {mem : Memory} {start nul : Nat} (va : VaList) {scan : Scan}

theorem scanDirective_settles (hends : mem nul = 0) (hnul : 0 < nul) {rest : List UInt8}
    (s : Formatted) (hnozero : 0 ∉ rest)
    (h : Follows mem start nul rest scan.next) :
    ∃ r, Settles (fun fuel => scanDirective fuel va mem s scan) r ∧
      SameEnd start nul (GoesOn mem start nul)
        (convert va (readDirective va rest s.taken) s) r := by
  obtain ⟨scan₁, hflags, h⟩ := flagsBody_runs hends {} h
  obtain ⟨scan₂, hwidth, h⟩ := scanWidth_settles va hends
    ⟨(readFlags {} rest).1, -1, -1, none, (readFlags {} rest).2, s.taken⟩ h
  obtain ⟨scan₃, hprecision, h⟩ := scanPrecision_settles va hends _ h
  obtain ⟨scan₄, hqualifier, h⟩ := scanQualifier_eq hends _ h
  have hsuffix := (readDirective_reads va rest s.taken).fmt
  refine ⟨_, hflags.settles.bind (hwidth.bind (hprecision.bind ?_)),
    scanConvert_end va hends hnul (readDirective va rest s.taken) s
      (fun hzero => hnozero (hsuffix.mem hzero)) h⟩
  simp only [hqualifier]
  exact settles_const _

/-- A round that finds a `%` reads a directive and moves on. -/
theorem formatBody_directive (hends : mem nul = 0) {rest : List UInt8}
    (s : Formatted) (hrest : 0 ∉ rest)
    (h : Follows mem start nul (0x25 :: rest) scan) :
    ∃ r : Except ScanHalt (Formatted × Scan),
      Settles (fun fuel => formatBody va mem fuel (s, scan))
        (r >>= fun (s, scan) => .ok (.inl (s, scan.next))) ∧
      SameEnd start nul (GoesOn mem start nul)
        (convert va (readDirective va rest s.taken) s) r := by
  have hnul : 0 < nul := Nat.zero_lt_of_lt h.cons_iff.2.1
  obtain ⟨first, hfirst, -, h⟩ := h.read hends
  obtain ⟨second, hsecond, -, h⟩ := h.read hends
  obtain ⟨r, hdirective, hend⟩ :=
    scanDirective_settles va hends hnul s hrest h.cons_iff.2.2
  rw [List.headD_cons] at hfirst hsecond
  have hbody : ∀ fuel, formatBody va mem fuel (s, scan) =
      (scanDirective fuel va mem s second >>= fun (s, scan) =>
        .ok (.inl (s, scan.next))) := by
    intro fuel
    simp only [formatBody, hfirst, hsecond, ne_eq, not_true_eq_false, ↓reduceIte]
    rfl
  refine ⟨r, ?_, hend⟩
  simp only [hbody]
  exact hdirective.bind_const _

/-- Every round leaves less of the format; the last one finds the NUL, or
aborts. -/
theorem formatBody_runs (hends : mem nul = 0) (fuel : Nat) {fmt : List UInt8}
    (s : Formatted) (hfuel : fmt.length ≤ fuel) (hnozero : 0 ∉ fmt)
    (h : Follows mem start nul fmt scan) :
    ∃ r, Runs ScanHalt.spin (formatBody va mem) (s, scan) r ∧
      SameEnd start nul (ComesToNul mem start nul) (formatLoop va fuel fmt s) r := by
  induction fuel generalizing fmt s scan with
  | zero =>
      obtain rfl := List.eq_nil_of_length_eq_zero (Nat.le_zero.mp hfuel)
      obtain ⟨scan', hread, -, h⟩ := h.read hends
      refine ⟨.ok (s, scan'), Runs.exit ?_, .goes ⟨rfl, h⟩⟩
      simp only [formatBody, hread]
      exact settles_const _
  | succ fuel ih =>
      have hformat := h
      obtain ⟨first, hfirst, -, h⟩ := h.read hends
      cases fmt with
      | nil =>
          refine ⟨.ok (s, first), Runs.exit ?_, .goes ⟨rfl, h⟩⟩
          simp only [formatBody, hfirst]
          exact settles_const _
      | cons c rest =>
          obtain ⟨second, hsecond, -, h⟩ := h.read hends
          obtain ⟨third, hthird, -, h₃⟩ := h.read hends
          rw [List.headD_cons] at hfirst hsecond hthird
          have hc : c ≠ 0 := fun hzero => hnozero (hzero ▸ List.mem_cons_self)
          have hrest : 0 ∉ rest := fun hzero => hnozero (List.mem_cons_of_mem c hzero)
          have hlength : rest.length ≤ fuel := Nat.le_of_succ_le_succ hfuel
          by_cases hpercent : c = 0x25
          · subst hpercent
            obtain ⟨r, hbody, hend⟩ := formatBody_directive va hends s hrest hformat
            rw [convert_eq] at hend
            rw [formatLoop_directive]
            cases habort : (readDirective va rest s.taken).aborts with
            | true =>
                rw [habort] at hend
                cases hend with
                | aborted hreads => exact ⟨_, Runs.fail hbody, .aborted hreads⟩
            | false =>
                rw [habort] at hend
                cases hend with
                | goes hgoes =>
                    rename_i last
                    obtain ⟨s', scan'⟩ := last
                    obtain ⟨rfl, h⟩ := hgoes
                    have hsuffix : (readDirective va rest s.taken).rest <:+ rest :=
                      (Directive.rest_suffix _).trans
                        (readDirective_reads va _ _).fmt
                    obtain ⟨r, hruns, hlast⟩ := ih _
                      (hsuffix.length_le.trans hlength)
                      (fun hzero => hrest (hsuffix.mem hzero)) h
                    exact ⟨r, Runs.next hbody hruns, hlast⟩
          · obtain ⟨r, hruns, hlast⟩ := ih { s with out := s.out ++ [c] }
              hlength hrest h₃.cons_iff.2.2
            rw [formatLoop, if_neg hc, if_neg hpercent]
            refine ⟨r, Runs.next ?_ hruns, hlast⟩
            simp only [formatBody, hfirst, hc, hsecond, hpercent, ne_eq,
              not_false_eq_true, ↓reduceIte, hthird]
            exact settles_const _

end Formats

section Strings

variable (va : VaList) {mem : Memory} {start nul : Nat}

theorem StringAt.scan (h : StringAt mem start nul) :
    ∃ r, Settles (fun fuel => vsprintfScan fuel va mem start) r ∧
      SameEnd start nul (ComesToNul mem start nul)
        (vsprintf va (bytesAt mem start (nul - start))) r := by
  have hfollows : Follows mem start nul (bytesAt mem start (nul - start))
      ⟨start, []⟩ := ⟨rfl, le_rfl, h.order, fun _ ha => nomatch ha⟩
  obtain ⟨r, hruns, hend⟩ := formatBody_runs va h.ends _ ⟨[], 0, []⟩ le_rfl
    h.noNul hfollows
  exact ⟨r, hruns.settles, hend⟩

/-- `vsprintf` comes back with its pointer at the NUL, and has read nothing of
the format beyond it. -/
def EndsAtNul (va : VaList) (mem : Memory) (start nul : Nat) : Prop :=
  ∃ s scan, Settles (fun fuel => vsprintfScan fuel va mem start) (.ok (s, scan)) ∧
    scan.fmt = nul ∧ ∀ a ∈ scan.reads, start ≤ a ∧ a ≤ nul

/-- The scan of a format ends at its NUL exactly when no directive converts a
`short`. -/
theorem endsAtNul_iff (h : StringAt mem start nul) :
    EndsAtNul va mem start nul ↔
      ¬ ConvertsShort (bytesAt mem start (nul - start)) := by
  obtain ⟨r, hsettles, hend⟩ := h.scan va
  rw [← vsprintf_returns_iff va h.noNul]
  generalize vsprintf va (bytesAt mem start (nul - start)) = written at hend
  cases hend with
  | goes hgoes =>
      rename_i last
      obtain ⟨s, scan⟩ := last
      obtain ⟨rfl, hlast⟩ := hgoes
      exact iff_of_true
        ⟨_, scan, hsettles, hlast.nil_iff.mp rfl, hlast.reads⟩ ⟨_, rfl⟩
  | aborted hreads =>
      refine iff_of_false ?_ (fun ⟨s, hs⟩ => nomatch hs)
      rintro ⟨s, scan, hother, -⟩
      cases hsettles.unique hother

/-- The format ends behind `%-`. -/
theorem endsAtNul_truncated :
    EndsAtNul ⟨fun _ => 0, fun _ => []⟩ (twoCharacters 0x25 0x2D) 8 10 := by
  have hstring : StringAt (twoCharacters 0x25 0x2D) 8 10 := by
    refine ⟨by decide, rfl, fun a hlow hhigh => ?_⟩
    obtain rfl | rfl : a = 8 ∨ a = 9 := by omega
    all_goals decide
  apply (endsAtNul_iff ⟨fun _ => 0, fun _ => []⟩ hstring).mpr
  rw [← vsprintf_returns_iff ⟨fun _ => 0, fun _ => []⟩ hstring.noNul]
  exact ⟨⟨[0x25], 0, []⟩, by decide +kernel⟩

/-- `"%hd"` comes to the `ud2`, with two characters behind the `%` read. -/
theorem short_never_ends :
    ¬ EndsAtNul ⟨fun _ => 5, fun _ => []⟩
      (fun a => [0x25, 0x68, 0x64].getD a 0) 0 3 := by
  have hstring : StringAt (fun a => [0x25, 0x68, 0x64].getD a 0) 0 3 := by
    refine ⟨by decide, rfl, fun a hlow hhigh => ?_⟩
    obtain rfl | rfl | rfl : a = 0 ∨ a = 1 ∨ a = 2 := by omega
    all_goals decide
  have haborts : vsprintf ⟨fun _ => 5, fun _ => []⟩
      (bytesAt (fun a => [0x25, 0x68, 0x64].getD a 0) 0 (3 - 0)) =
        .error ⟨[], 0, []⟩ := by decide +kernel
  obtain ⟨r, hsettles, hend⟩ := hstring.scan ⟨fun _ => 5, fun _ => []⟩
  rw [haborts] at hend
  cases hend
  rintro ⟨s, scan, hother, -⟩
  cases hsettles.unique hother

/-- Whether the scan ends or aborts, a string that a process passes to `print` is
read inside the process. -/
theorem PassesString.scan {proc : Process} {msg : List UInt8}
    (h : PassesString proc mem msg) :
    ∃ fmt nul r, argWord proc mem 0 = some fmt ∧ nul < proc.size.toNat ∧
      Settles (fun fuel => vsprintfScan fuel va mem fmt.toNat) r ∧
      SameEnd fmt.toNat nul (ComesToNul mem fmt.toNat nul) (vsprintf va msg) r := by
  obtain ⟨fmt, hword, ⟨horder, hinside, hends, hfirst⟩, hbytes⟩ := h.bytes
  obtain ⟨r, hsettles, hend⟩ :=
    StringAt.scan va (StringAt.mk horder hends hfirst)
  rw [Nat.add_sub_cancel_left, ← hbytes] at hend
  exact ⟨fmt, _, r, hword, hinside, hsettles, hend⟩

end Strings

end Linda
