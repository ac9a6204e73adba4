/-
The format language of `vsprintf`: its directives in their parts, and that every
format is read as the one way to cut it into them.
-/
import Linda.FuelLoop
import Linda.LongestMatch
import Linda.PrintfScan

namespace Linda

open LongestMatch

/-- The flags behind a `%`. -/
inductive FlagSign where
  | left
  | plus
  | space
  | special
  | zero
deriving Repr, DecidableEq

def FlagSign.char : FlagSign → UInt8
  | left => 0x2D
  | plus => 0x2B
  | space => 0x20
  | special => 0x23
  | zero => 0x30

def FlagSign.set (flags : Flags) : FlagSign → Flags
  | left => { flags with left := true }
  | plus => { flags with plus := true }
  | space => { flags with space := true }
  | special => { flags with special := true }
  | zero => { flags with zeropad := true }

def isFlag (c : UInt8) : Bool := c ∈ [0x2D, 0x2B, 0x20, 0x23, 0x30]

def digitChar (d : Fin 10) : UInt8 := UInt8.ofNat (0x30 + d)

/-- The number that digits behind a number stand for. -/
def decimal (i : Nat) (digits : List (Fin 10)) : Nat :=
  digits.foldl (fun i d => i * 10 + d) i

/-- A number in a directive: nothing, its digits, or an argument. -/
inductive NumberField where
  | absent
  | digits (first : Fin 10) (more : List (Fin 10))
  | star
deriving Repr, DecidableEq

namespace NumberField

def text : NumberField → List UInt8
  | absent => []
  | digits first more => (first :: more).map digitChar
  | star => [0x2A]

/-- The format behind the number does not go on with it. -/
def EndsAt : NumberField → List UInt8 → Prop
  | absent, rest => EndsRun (fun c => isDigit c || c == 0x2A) rest
  | digits _ _, rest => EndsRun isDigit rest
  | star, _ => True

/-- The number as an `int`, `-1` where there is none. -/
def value (va : VaList) (taken : Nat) : NumberField → Int32
  | absent => -1
  | digits first more => Int32.ofNat (decimal 0 (first :: more))
  | star => (va.word taken).toInt32

/-- The number as a width; the least `int` keeps its sign. -/
def width (va : VaList) (taken : Nat) : NumberField → Int32
  | star =>
      if (va.word taken).toInt32 < 0 then -(va.word taken).toInt32
      else (va.word taken).toInt32
  | field => field.value va taken

/-- A negative argument for the width is the flag `-`. -/
def justify (va : VaList) (taken : Nat) (flags : Flags) : NumberField → Flags
  | star =>
      if (va.word taken).toInt32 < 0 then { flags with left := true } else flags
  | _ => flags

/-- The arguments it reads. -/
def args : NumberField → Nat
  | star => 1
  | _ => 0

end NumberField

inductive Qualifier where
  | short
  | long
  | longDouble
deriving Repr, DecidableEq

def Qualifier.char : Qualifier → UInt8
  | short => 0x68
  | long => 0x6C
  | longDouble => 0x4C

def isQualifier (c : UInt8) : Bool := c ∈ [0x68, 0x6C, 0x4C]

/-- What a directive has between its `%` and its last character. -/
structure Modifiers where
  flags : List FlagSign
  width : NumberField
  precision : Option NumberField
  qualifier : Option Qualifier
deriving Repr, DecidableEq

def precisionText : Option NumberField → List UInt8
  | none => []
  | some field => 0x2E :: field.text

def PrecisionEnds : Option NumberField → List UInt8 → Prop
  | none, rest => EndsRun (· == 0x2E) rest
  | some field, rest => field.EndsAt rest

def precisionValue (va : VaList) (taken : Nat) : Option NumberField → Int32
  | none => -1
  | some field =>
      if field.value va taken < 0 then 0 else field.value va taken

def precisionArgs : Option NumberField → Nat
  | none => 0
  | some field => field.args

def qualifierText : Option Qualifier → List UInt8
  | none => []
  | some qualifier => [qualifier.char]

def QualifierEnds : Option Qualifier → List UInt8 → Prop
  | none, rest => EndsRun isQualifier rest
  | some _, _ => True

namespace Modifiers

def text (m : Modifiers) : List UInt8 :=
  m.flags.map FlagSign.char ++
    (m.width.text ++ (precisionText m.precision ++ qualifierText m.qualifier))

/-- Each part is as long as it can be in front of `rest`. -/
structure Ends (m : Modifiers) (rest : List UInt8) : Prop where
  flags : EndsRun isFlag
    (m.width.text ++
      (precisionText m.precision ++ (qualifierText m.qualifier ++ rest)))
  width : m.width.EndsAt
    (precisionText m.precision ++ (qualifierText m.qualifier ++ rest))
  precision : PrecisionEnds m.precision (qualifierText m.qualifier ++ rest)
  qualifier : QualifierEnds m.qualifier rest

/-- The arguments they read. -/
def args (m : Modifiers) : Nat := m.width.args + precisionArgs m.precision

/-- What they mean, in front of `fmt` and behind `taken` arguments. -/
def directive (va : VaList) (m : Modifiers) (fmt : List UInt8) (taken : Nat) :
    Directive where
  flags := m.width.justify va taken (m.flags.foldl FlagSign.set {})
  width := m.width.width va taken
  precision := precisionValue va (taken + m.width.args) m.precision
  qualifier := m.qualifier.map Qualifier.char
  fmt := fmt
  taken := taken + m.args

/-- Whether they ask for a `short` that is converted as an integer. -/
def aborts (m : Modifiers) (last : UInt8) : Bool :=
  m.qualifier = some .short && last ∈ [0x6F, 0x58, 0x78, 0x64, 0x69, 0x75]

end Modifiers

/-- A piece of a format: a character of its own, or a directive. -/
inductive FormatPiece where
  | plain (c : UInt8) (hc : c ≠ 0 ∧ c ≠ 0x25)
  | directive (m : Modifiers) (last : UInt8) (hlast : last ≠ 0)
      (hends : m.Ends [last])

def FormatPiece.text : FormatPiece → List UInt8
  | plain c _ => [c]
  | directive m last _ _ => 0x25 :: (m.text ++ [last])

theorem FormatPiece.plain_append (c : UInt8) (hc : c ≠ 0 ∧ c ≠ 0x25)
    (rest : List UInt8) : (plain c hc).text ++ rest = c :: rest := rfl

theorem FormatPiece.directive_append (m : Modifiers) (last : UInt8)
    (hlast : last ≠ 0) (hends : m.Ends [last]) (rest : List UInt8) :
    (directive m last hlast hends).text ++ rest =
      0x25 :: (m.text ++ last :: rest) := by
  simp only [text, List.cons_append, List.append_assoc, List.nil_append]

/-- Whether `vsprintf` comes to its `ud2` in the piece. -/
def FormatPiece.aborts : FormatPiece → Bool
  | plain _ _ => false
  | directive m last _ _ => m.aborts last

/-- What a piece writes, or what had been written when it aborts. -/
def FormatPiece.write (va : VaList) (s : Formatted) :
    FormatPiece → Except Formatted Formatted
  | plain c _ => .ok { s with out := s.out ++ [c] }
  | directive m last _ _ =>
      if m.aborts last then .error { s with taken := s.taken + m.args }
      else .ok ((m.directive va [last] s.taken).add va s)

/-- A format: its pieces, and a directive it may be cut off in. -/
structure FormatText where
  pieces : List FormatPiece
  cut : Option { m : Modifiers // m.Ends [] }

namespace FormatText

def cutText : Option { m : Modifiers // m.Ends [] } → List UInt8
  | none => []
  | some m => 0x25 :: m.val.text

def text (format : FormatText) : List UInt8 :=
  format.pieces.flatMap FormatPiece.text ++ cutText format.cut

/-- Whether one of its pieces aborts. -/
def aborts (format : FormatText) : Bool := format.pieces.any FormatPiece.aborts

/-- What the format writes: piece after piece, up to one that aborts, and a `%`
for a directive that is cut off. -/
def write (va : VaList) (format : FormatText) : Except Formatted Formatted := do
  let s ← format.pieces.foldlM (FormatPiece.write va) ⟨[], 0, []⟩
  match format.cut with
  | none => .ok s
  | some m => .ok ((m.val.directive va [] s.taken).add va s)

end FormatText

/-- A directive of the format converts a `short` as an integer. -/
def ConvertsShort (fmt : List UInt8) : Prop :=
  ∃ format : FormatText, format.text = fmt ∧ format.aborts = true

section Reading

variable (va : VaList)

theorem exists_flagSign : ∀ c, isFlag c = true → ∃ a : FlagSign, a.char = c := by
  intro c hc
  simp only [isFlag, List.mem_cons, List.not_mem_nil, or_false,
    decide_eq_true_eq] at hc
  rcases hc with rfl | rfl | rfl | rfl | rfl
  · exact ⟨.left, rfl⟩
  · exact ⟨.plus, rfl⟩
  · exact ⟨.space, rfl⟩
  · exact ⟨.special, rfl⟩
  · exact ⟨.zero, rfl⟩

theorem isFlag_char (a : FlagSign) : isFlag a.char = true := by
  cases a <;> decide

theorem flagSign_injective : Function.Injective FlagSign.char := by
  intro a b
  cases a <;> cases b <;> decide

theorem exists_digitChar :
    ∀ c, isDigit c = true → ∃ d : Fin 10, digitChar d = c := by
  intro c hc
  simp only [isDigit, Bool.and_eq_true, decide_eq_true_eq,
    UInt8.le_iff_toNat_le] at hc
  have hlow : 0x30 ≤ c.toNat := hc.1
  have hhigh : c.toNat ≤ 0x39 := hc.2
  refine ⟨⟨c.toNat - 0x30, by omega⟩, ?_⟩
  rw [digitChar, Nat.add_sub_cancel' hlow, UInt8.ofNat_toNat]

theorem isDigit_digitChar : ∀ d, isDigit (digitChar d) = true := by
  decide

theorem digitChar_injective : Function.Injective digitChar := by
  unfold Function.Injective
  decide

/-- `i*10 + c - '0'` -/
theorem digitChar_value (i : Nat) (d : Fin 10) :
    Int32.ofNat i * 10 + Int32.ofNat (digitChar d).toNat - 0x30 =
      Int32.ofNat (i * 10 + d) := by
  have hchar : ∀ d : Fin 10,
      Int32.ofNat (digitChar d).toNat = Int32.ofNat d + 0x30 := by
    decide
  rw [hchar, ← Int32.add_assoc, Int32.add_sub_cancel, Int32.ofNat_add,
    Int32.ofNat_mul]
  rfl

theorem readFlags_text {rest : List UInt8} (hends : EndsRun isFlag rest)
    (signs : List FlagSign) (flags : Flags) :
    readFlags flags (signs.map FlagSign.char ++ rest) =
      (signs.foldl FlagSign.set flags, rest) := by
  induction signs generalizing flags with
  | nil =>
      cases rest with
      | nil => rfl
      | cons c rest =>
          have hc := endsRun_cons.mp hends
          simp only [isFlag, List.mem_cons, List.not_mem_nil, or_false,
            decide_eq_false_iff_not, not_or] at hc
          simp only [List.map_nil, List.nil_append, readFlags, hc, ↓reduceIte,
            List.foldl_nil]
  | cons a signs ih =>
      rw [List.foldl_cons, ← ih]
      cases a <;> rfl

theorem skipAtoi_text {rest : List UInt8} (hends : EndsRun isDigit rest)
    (digits : List (Fin 10)) (i : Nat) :
    skipAtoi (Int32.ofNat i) (digits.map digitChar ++ rest) =
      (Int32.ofNat (decimal i digits), rest) := by
  induction digits generalizing i with
  | nil =>
      cases rest with
      | nil => rfl
      | cons c rest =>
          have hc := endsRun_cons.mp hends
          simp only [List.map_nil, List.nil_append, skipAtoi, hc,
            Bool.false_eq_true, ↓reduceIte]
          rfl
  | cons d digits ih =>
      rw [List.map_cons, List.cons_append, skipAtoi,
        if_pos (isDigit_digitChar d), digitChar_value, ih]
      rfl

namespace NumberField

variable {va}
variable {flags : Flags} {width precision : Int32} {qualifier : Option UInt8}
  {rest : List UInt8} {taken : Nat}

/-- Behind no number stands neither a digit nor a `*`. -/
theorem absent_cons {c : UInt8} (h : absent.EndsAt (c :: rest)) :
    isDigit c = false ∧ c ≠ 0x2A := by
  have hc := endsRun_cons.mp h
  rw [Bool.or_eq_false_iff] at hc
  exact ⟨hc.1, ne_of_beq_false hc.2⟩

theorem readWidth_text (field : NumberField) (hends : field.EndsAt rest) :
    readWidth va ⟨flags, -1, precision, qualifier, field.text ++ rest, taken⟩ =
      ⟨field.justify va taken flags, field.width va taken, precision, qualifier,
        rest, taken + field.args⟩ := by
  cases field with
  | absent =>
      cases rest with
      | nil => rfl
      | cons c rest =>
          obtain ⟨hdigit, hstar⟩ := absent_cons hends
          simp only [text, List.nil_append, readWidth, hdigit, hstar,
            Bool.false_eq_true, ↓reduceIte]
          rfl
  | digits first more =>
      have hread : skipAtoi 0 (digitChar first :: (more.map digitChar ++ rest)) =
          (Int32.ofNat (decimal 0 (first :: more)), rest) :=
        skipAtoi_text hends (first :: more) 0
      simp only [text, List.map_cons, List.cons_append]
      simp only [readWidth, isDigit_digitChar, ↓reduceIte, hread]
      rfl
  | star =>
      have hstar : isDigit 0x2A = false := by decide
      simp only [text, List.cons_append, List.nil_append, readWidth, hstar,
        Bool.false_eq_true, ↓reduceIte, justify, NumberField.width, args]
      split_ifs <;> rfl

theorem readPrecisionNumber_text (field : NumberField)
    (hends : field.EndsAt rest) :
    readPrecisionNumber va
        ⟨flags, width, -1, qualifier, field.text ++ rest, taken⟩ =
      ⟨flags, width, field.value va taken, qualifier, rest,
        taken + field.args⟩ := by
  cases field with
  | absent =>
      cases rest with
      | nil => rfl
      | cons c rest =>
          obtain ⟨hdigit, hstar⟩ := absent_cons hends
          simp only [text, List.nil_append, readPrecisionNumber, hdigit, hstar,
            Bool.false_eq_true, ↓reduceIte]
          rfl
  | digits first more =>
      have hread : skipAtoi 0 (digitChar first :: (more.map digitChar ++ rest)) =
          (Int32.ofNat (decimal 0 (first :: more)), rest) :=
        skipAtoi_text hends (first :: more) 0
      simp only [text, List.map_cons, List.cons_append]
      simp only [readPrecisionNumber, isDigit_digitChar, ↓reduceIte, hread]
      rfl
  | star =>
      have hstar : isDigit 0x2A = false := by decide
      simp only [text, List.cons_append, List.nil_append, readPrecisionNumber,
        hstar, Bool.false_eq_true, ↓reduceIte, value, args]

end NumberField

theorem readPrecision_text {flags : Flags} {width : Int32} {rest : List UInt8}
    {taken : Nat} (field : Option NumberField) (hends : PrecisionEnds field rest) :
    readPrecision va ⟨flags, width, -1, none, precisionText field ++ rest, taken⟩ =
      ⟨flags, width, precisionValue va taken field, none, rest,
        taken + precisionArgs field⟩ := by
  cases field with
  | none =>
      cases rest with
      | nil => rfl
      | cons c rest =>
          have hdot : c ≠ 0x2E := ne_of_beq_false (hends c rfl)
          simp only [precisionText, List.nil_append, readPrecision, hdot, ↓reduceIte]
          rfl
  | some field =>
      simp only [precisionText, List.cons_append, readPrecision, ↓reduceIte,
        field.readPrecisionNumber_text hends]
      rfl

theorem readQualifier_text {flags : Flags} {width precision : Int32}
    {rest : List UInt8} {taken : Nat} (qualifier : Option Qualifier)
    (hends : QualifierEnds qualifier rest) :
    readQualifier
        ⟨flags, width, precision, none, qualifierText qualifier ++ rest, taken⟩ =
      ⟨flags, width, precision, qualifier.map Qualifier.char, rest, taken⟩ := by
  cases qualifier with
  | none =>
      cases rest with
      | nil => rfl
      | cons c rest =>
          have hc := endsRun_cons.mp hends
          simp only [isQualifier, List.mem_cons, List.not_mem_nil, or_false,
            decide_eq_false_iff_not] at hc
          simp only [qualifierText, List.nil_append, readQualifier, hc, ↓reduceIte]
          rfl
  | some qualifier => cases qualifier <;> rfl

/-- The modifiers are read back, whatever stands behind them. -/
theorem Modifiers.readDirective_text (m : Modifiers) {rest : List UInt8}
    (hends : m.Ends rest) (taken : Nat) :
    readDirective va (m.text ++ rest) taken = m.directive va rest taken := by
  simp only [readDirective, Modifiers.text, List.append_assoc,
    readFlags_text hends.flags]
  rw [m.width.readWidth_text hends.width,
    readPrecision_text va m.precision hends.precision,
    readQualifier_text m.qualifier hends.qualifier]
  simp only [Modifiers.directive, Modifiers.args, Nat.add_assoc]

/-- Only the character behind the modifiers matters for them. -/
theorem Modifiers.ends_behind (m : Modifiers) (c : UInt8) (rest : List UInt8) :
    m.Ends (c :: rest) ↔ m.Ends [c] := by
  have hrun : ∀ (p : UInt8 → Bool) (front : List UInt8),
      EndsRun p (front ++ c :: rest) ↔ EndsRun p (front ++ [c]) :=
    fun p front => endsRun_behind front c rest
  have hfield : ∀ (field : NumberField) (front : List UInt8),
      field.EndsAt (front ++ c :: rest) ↔ field.EndsAt (front ++ [c]) := by
    intro field front
    cases field with
    | absent => exact hrun _ front
    | digits first more => exact hrun _ front
    | star => rfl
  have hflags := hrun isFlag (m.width.text ++
    (precisionText m.precision ++ qualifierText m.qualifier))
  have hwidth := hfield m.width
    (precisionText m.precision ++ qualifierText m.qualifier)
  simp only [List.append_assoc] at hflags hwidth
  have hprecision : PrecisionEnds m.precision
      (qualifierText m.qualifier ++ c :: rest) ↔
        PrecisionEnds m.precision (qualifierText m.qualifier ++ [c]) := by
    cases m.precision with
    | none => exact hrun _ _
    | some field => exact hfield field _
  have hqualifier : QualifierEnds m.qualifier (c :: rest) ↔
      QualifierEnds m.qualifier [c] := by
    cases m.qualifier with
    | none => exact hrun _ []
    | some qualifier => rfl
  constructor
  · rintro ⟨h₁, h₂, h₃, h₄⟩
    exact ⟨hflags.mp h₁, hwidth.mp h₂, hprecision.mp h₃, hqualifier.mp h₄⟩
  · rintro ⟨h₁, h₂, h₃, h₄⟩
    exact ⟨hflags.mpr h₁, hwidth.mpr h₂, hprecision.mpr h₃, hqualifier.mpr h₄⟩

theorem Modifiers.directive_aborts (m : Modifiers) (last : UInt8)
    (rest : List UInt8) (taken : Nat) :
    (m.directive va (last :: rest) taken).aborts = m.aborts last := by
  have hqualifier : decide (m.qualifier.map Qualifier.char = some 0x68) =
      decide (m.qualifier = some .short) := by
    cases m.qualifier with
    | none => rfl
    | some qualifier => cases qualifier <;> rfl
  exact congrArg (· && _) hqualifier

/-- The loop goes over a piece, or aborts in it. -/
theorem FormatPiece.formatLoop_text (piece : FormatPiece) (rest : List UInt8)
    {fuel : Nat} (hfuel : (piece.text ++ rest).length ≤ fuel) :
    ∃ left, rest.length ≤ left ∧ ∀ s,
      formatLoop va fuel (piece.text ++ rest) s =
        (piece.write va s >>= formatLoop va left rest) := by
  cases piece with
  | plain c hc =>
      rw [plain_append] at hfuel ⊢
      rw [List.length_cons] at hfuel
      obtain ⟨left, rfl⟩ := Nat.exists_eq_add_of_le' (Nat.one_le_of_lt hfuel)
      refine ⟨left, Nat.le_of_succ_le_succ hfuel, fun s => ?_⟩
      rw [formatLoop, if_neg hc.1, if_neg hc.2]
      rfl
  | directive m last hlast hends =>
      rw [directive_append] at hfuel ⊢
      rw [List.length_cons, List.length_append, List.length_cons] at hfuel
      obtain ⟨left, rfl⟩ := Nat.exists_eq_add_of_le' (Nat.one_le_of_lt hfuel)
      refine ⟨left, by omega, fun s => ?_⟩
      have hrest : (m.directive va (last :: rest) s.taken).rest = rest :=
        if_neg hlast
      rw [formatLoop_directive,
        m.readDirective_text va ((m.ends_behind last rest).mpr hends), hrest,
        m.directive_aborts, write]
      cases m.aborts last <;> rfl

/-- The loop goes over any number of them. -/
theorem formatLoop_pieces (pieces : List FormatPiece) (behind : List UInt8)
    {fuel : Nat}
    (hfuel : (pieces.flatMap FormatPiece.text ++ behind).length ≤ fuel) :
    ∃ left, behind.length ≤ left ∧ ∀ s,
      formatLoop va fuel (pieces.flatMap FormatPiece.text ++ behind) s =
        (pieces.foldlM (FormatPiece.write va) s >>= formatLoop va left behind) := by
  induction pieces generalizing fuel with
  | nil => exact ⟨fuel, hfuel, fun s => rfl⟩
  | cons piece pieces ih =>
      rw [List.flatMap_cons, List.append_assoc] at hfuel ⊢
      obtain ⟨left, hleft, hpiece⟩ := piece.formatLoop_text va _ hfuel
      obtain ⟨left', hleft', hmore⟩ := ih hleft
      refine ⟨left', hleft', fun s => ?_⟩
      rw [hpiece, List.foldlM_cons, bind_assoc]
      exact congrArg (piece.write va s >>= ·) (funext hmore)

/-- `vsprintf` writes what the format means. -/
theorem FormatText.vsprintf_text (format : FormatText) :
    vsprintf va format.text = format.write va := by
  obtain ⟨pieces, cut⟩ := format
  obtain ⟨left, hleft, hloop⟩ :=
    formatLoop_pieces va pieces (cutText cut) le_rfl
  refine (hloop ⟨[], 0, []⟩).trans (congrArg (_ >>= ·) (funext fun s => ?_))
  cases cut with
  | none => exact formatLoop_nil _ _
  | some m =>
      obtain ⟨fuel, rfl⟩ := Nat.exists_eq_add_of_le' (Nat.one_le_of_lt hleft)
      have hread := m.val.readDirective_text va m.property s.taken
      rw [List.append_nil] at hread
      rw [cutText, formatLoop_directive, hread]
      exact formatLoop_nil _ _

end Reading

section Cutting

namespace NumberField

theorem exists_text (fmt : List UInt8) :
    ∃ (field : NumberField) (rest : List UInt8),
      fmt = field.text ++ rest ∧ field.EndsAt rest := by
  obtain ⟨digits, rest, rfl, hends⟩ := exists_longest exists_digitChar fmt
  cases digits with
  | cons first more => exact ⟨digits first more, rest, rfl, hends⟩
  | nil =>
      cases rest with
      | nil => exact ⟨absent, [], rfl, endsRun_nil _⟩
      | cons c rest =>
          by_cases hstar : c = 0x2A
          · exact ⟨star, rest, by rw [hstar]; rfl, trivial⟩
          · refine ⟨absent, c :: rest, rfl, endsRun_cons.mpr ?_⟩
            rw [Bool.or_eq_false_iff]
            exact ⟨endsRun_cons.mp hends, beq_false_of_ne hstar⟩

/-- The digits of one number do not begin another field. -/
theorem digits_ne {first : Fin 10} {more : List (Fin 10)} {rest rest' : List UInt8}
    (field : NumberField) (hends : field.EndsAt rest')
    (htext : (digits first more).text ++ rest = field.text ++ rest') :
    ∃ first' more', field = digits first' more' := by
  have hdigit := isDigit_digitChar first
  cases field with
  | digits first' more' => exact ⟨first', more', rfl⟩
  | absent =>
      have hrest : digitChar first :: (more.map digitChar ++ rest) = rest' := htext
      rw [← hrest] at hends
      rw [(absent_cons hends).1] at hdigit
      cases hdigit
  | star =>
      have hstar : digitChar first = 0x2A := (List.cons.inj htext).1
      rw [hstar] at hdigit
      exact absurd hdigit (by decide)

theorem text_unique {rest rest' : List UInt8} (field field' : NumberField)
    (hends : field.EndsAt rest) (hends' : field'.EndsAt rest')
    (htext : field.text ++ rest = field'.text ++ rest') :
    field = field' ∧ rest = rest' := by
  cases field with
  | digits first more =>
      obtain ⟨first', more', rfl⟩ := digits_ne field' hends' htext
      obtain ⟨hdigits, hrest⟩ := longest_unique digitChar_injective
        isDigit_digitChar htext hends hends'
      obtain ⟨rfl, rfl⟩ := List.cons.inj hdigits
      exact ⟨rfl, hrest⟩
  | absent =>
      cases field' with
      | absent => exact ⟨rfl, htext⟩
      | digits first' more' =>
          obtain ⟨first, more, hfield⟩ := digits_ne absent hends htext.symm
          cases hfield
      | star =>
          have hrest : rest = 0x2A :: rest' := htext
          rw [hrest] at hends
          exact absurd rfl (absent_cons hends).2
  | star =>
      cases field' with
      | absent =>
          have hrest : 0x2A :: rest = rest' := htext
          rw [← hrest] at hends'
          exact absurd rfl (absent_cons hends').2
      | digits first' more' =>
          obtain ⟨first, more, hfield⟩ := digits_ne star hends htext.symm
          cases hfield
      | star => exact ⟨rfl, (List.cons.inj htext).2⟩

end NumberField

theorem exists_precisionText (fmt : List UInt8) :
    ∃ (field : Option NumberField) (rest : List UInt8),
      fmt = precisionText field ++ rest ∧ PrecisionEnds field rest := by
  cases fmt with
  | nil => exact ⟨none, [], rfl, endsRun_nil _⟩
  | cons c fmt =>
      by_cases hdot : c = 0x2E
      · obtain ⟨field, rest, rfl, hends⟩ := NumberField.exists_text fmt
        exact ⟨some field, rest, by rw [hdot]; rfl, hends⟩
      · exact ⟨none, c :: fmt, rfl, endsRun_cons.mpr (beq_false_of_ne hdot)⟩

theorem precisionText_unique {rest rest' : List UInt8}
    (field field' : Option NumberField) (hends : PrecisionEnds field rest)
    (hends' : PrecisionEnds field' rest')
    (htext : precisionText field ++ rest = precisionText field' ++ rest') :
    field = field' ∧ rest = rest' := by
  cases field with
  | none =>
      cases field' with
      | none => exact ⟨rfl, htext⟩
      | some field' =>
          have hrest : rest = 0x2E :: (field'.text ++ rest') := htext
          rw [hrest] at hends
          exact absurd rfl (ne_of_beq_false (hends 0x2E rfl))
  | some field =>
      cases field' with
      | none =>
          have hrest : 0x2E :: (field.text ++ rest) = rest' := htext
          rw [← hrest] at hends'
          exact absurd rfl (ne_of_beq_false (hends' 0x2E rfl))
      | some field' =>
          obtain ⟨rfl, hrest⟩ := field.text_unique field' hends hends'
            (List.cons.inj htext).2
          exact ⟨rfl, hrest⟩

theorem isQualifier_char (qualifier : Qualifier) :
    isQualifier qualifier.char = true := by
  cases qualifier <;> decide

theorem exists_qualifierText (fmt : List UInt8) :
    ∃ (qualifier : Option Qualifier) (rest : List UInt8),
      fmt = qualifierText qualifier ++ rest ∧ QualifierEnds qualifier rest := by
  cases fmt with
  | nil => exact ⟨none, [], rfl, endsRun_nil _⟩
  | cons c fmt =>
      cases hc : isQualifier c with
      | false => exact ⟨none, c :: fmt, rfl, endsRun_cons.mpr hc⟩
      | true =>
          simp only [isQualifier, List.mem_cons, List.not_mem_nil, or_false,
            decide_eq_true_eq] at hc
          rcases hc with rfl | rfl | rfl
          · exact ⟨some .short, fmt, rfl, trivial⟩
          · exact ⟨some .long, fmt, rfl, trivial⟩
          · exact ⟨some .longDouble, fmt, rfl, trivial⟩

theorem qualifierText_unique {rest rest' : List UInt8}
    (qualifier qualifier' : Option Qualifier)
    (hends : QualifierEnds qualifier rest)
    (hends' : QualifierEnds qualifier' rest')
    (htext : qualifierText qualifier ++ rest = qualifierText qualifier' ++ rest') :
    qualifier = qualifier' ∧ rest = rest' := by
  cases qualifier with
  | none =>
      cases qualifier' with
      | none => exact ⟨rfl, htext⟩
      | some q' =>
          have hrest : rest = q'.char :: rest' := htext
          have hfalse := hends q'.char (by rw [hrest]; rfl)
          rw [isQualifier_char] at hfalse
          cases hfalse
  | some q =>
      cases qualifier' with
      | none =>
          have hrest : q.char :: rest = rest' := htext
          have hfalse := hends' q.char (by rw [← hrest]; rfl)
          rw [isQualifier_char] at hfalse
          cases hfalse
      | some q' =>
          obtain ⟨hchar, hrest⟩ := List.cons.inj htext
          refine ⟨?_, hrest⟩
          revert hchar
          cases q <;> cases q' <;> decide

namespace Modifiers

/-- Every text begins with modifiers, each as long as it can be. -/
theorem exists_text (fmt : List UInt8) :
    ∃ (m : Modifiers) (rest : List UInt8), fmt = m.text ++ rest ∧ m.Ends rest := by
  obtain ⟨flags, rest, rfl, hflags⟩ := exists_longest exists_flagSign fmt
  obtain ⟨width, rest, rfl, hwidth⟩ := NumberField.exists_text rest
  obtain ⟨precision, rest, rfl, hprecision⟩ := exists_precisionText rest
  obtain ⟨qualifier, rest, rfl, hqualifier⟩ := exists_qualifierText rest
  refine ⟨⟨flags, width, precision, qualifier⟩, rest, ?_,
    hflags, hwidth, hprecision, hqualifier⟩
  simp only [text, List.append_assoc]

/-- There is one way to cut them off. -/
theorem text_unique {rest rest' : List UInt8} (m m' : Modifiers)
    (hends : m.Ends rest) (hends' : m'.Ends rest')
    (htext : m.text ++ rest = m'.text ++ rest') : m = m' ∧ rest = rest' := by
  obtain ⟨flags, width, precision, qualifier⟩ := m
  obtain ⟨flags', width', precision', qualifier'⟩ := m'
  simp only [text, List.append_assoc] at htext
  obtain ⟨rfl, hwidth⟩ := longest_unique flagSign_injective isFlag_char htext
    hends.flags hends'.flags
  obtain ⟨hfield, hprecision⟩ :=
    width.text_unique width' hends.width hends'.width hwidth
  obtain ⟨hpoint, hqualifier⟩ := precisionText_unique precision precision'
    hends.precision hends'.precision hprecision
  obtain ⟨hletter, hrest⟩ := qualifierText_unique qualifier qualifier'
    hends.qualifier hends'.qualifier hqualifier
  exact ⟨by rw [hfield, hpoint, hletter], hrest⟩

end Modifiers

/-- A piece and what stands behind it are told apart. -/
theorem FormatPiece.text_unique {rest rest' : List UInt8}
    (piece piece' : FormatPiece)
    (htext : piece.text ++ rest = piece'.text ++ rest') :
    piece = piece' ∧ rest = rest' := by
  cases piece with
  | plain c hc =>
      cases piece' with
      | plain c' hc' =>
          obtain ⟨rfl, hrest⟩ := List.cons.inj htext
          exact ⟨rfl, hrest⟩
      | directive m' last' hlast' hends' =>
          exact absurd (List.cons.inj htext).1 hc.2
  | directive m last hlast hends =>
      cases piece' with
      | plain c' hc' => exact absurd (List.cons.inj htext).1.symm hc'.2
      | directive m' last' hlast' hends' =>
          rw [directive_append, directive_append] at htext
          obtain ⟨rfl, hmore⟩ := m.text_unique m'
            ((m.ends_behind last rest).mpr hends)
            ((m'.ends_behind last' rest').mpr hends') (List.cons.inj htext).2
          obtain ⟨rfl, hrest⟩ := List.cons.inj hmore
          exact ⟨rfl, hrest⟩

namespace FormatText

variable {rest : List UInt8}

/-- A piece is no directive that is cut off. -/
theorem piece_ne_cut (piece : FormatPiece) (cut : Option { m : Modifiers // m.Ends [] }) :
    piece.text ++ rest ≠ cutText cut := by
  intro htext
  cases cut with
  | none => cases piece <;> cases htext
  | some m =>
      obtain ⟨m, hm⟩ := m
      cases piece with
      | plain c hc => exact hc.2 (List.cons.inj htext).1
      | directive m' last hlast hends =>
          rw [FormatPiece.directive_append] at htext
          have hmore := (List.cons.inj htext).2
          rw [← List.append_nil m.text] at hmore
          have hrest := (m'.text_unique m
            ((m'.ends_behind last rest).mpr hends) hm hmore).2
          cases hrest

theorem cutText_injective : Function.Injective cutText := by
  intro cut cut' htext
  cases cut with
  | none =>
      cases cut' with
      | none => rfl
      | some m' => cases htext
  | some m =>
      cases cut' with
      | none => cases htext
      | some m' =>
          have hmore := (List.cons.inj htext).2
          rw [← List.append_nil m.val.text, ← List.append_nil m'.val.text] at hmore
          have hm := (m.val.text_unique m'.val m.property m'.property hmore).1
          rw [Subtype.ext hm]

theorem text_cons (piece : FormatPiece) (pieces : List FormatPiece)
    (cut : Option { m : Modifiers // m.Ends [] }) :
    text ⟨piece :: pieces, cut⟩ = piece.text ++ text ⟨pieces, cut⟩ := by
  simp only [text, List.flatMap_cons, List.append_assoc]

/-- A text is that of one format only. -/
theorem text_injective : Function.Injective text := by
  rintro ⟨pieces, cut⟩ ⟨pieces', cut'⟩ htext
  induction pieces generalizing pieces' with
  | nil =>
      cases pieces' with
      | nil =>
          have hcut : cut = cut' := cutText_injective htext
          rw [hcut]
      | cons piece' pieces' =>
          rw [text_cons] at htext
          exact absurd htext.symm (piece_ne_cut piece' cut)
  | cons piece pieces ih =>
      rw [text_cons] at htext
      cases pieces' with
      | nil => exact absurd htext (piece_ne_cut piece cut')
      | cons piece' pieces' =>
          rw [text_cons] at htext
          obtain ⟨rfl, hmore⟩ := piece.text_unique piece' htext
          cases ih pieces' hmore
          rfl

/-- Every text up to a NUL is that of a format. -/
theorem exists_text {fmt : List UInt8} (hnul : 0 ∉ fmt) :
    ∃ format : FormatText, format.text = fmt := by
  induction hlen : fmt.length using Nat.strong_induction_on generalizing fmt with
  | h n ih =>
      have hbehind : ∀ (piece : FormatPiece) (rest : List UInt8),
          fmt = piece.text ++ rest → rest.length < fmt.length →
          ∃ format : FormatText, format.text = fmt := by
        rintro piece rest rfl hlt
        obtain ⟨⟨pieces, cut⟩, hformat⟩ := ih rest.length (by omega)
          (fun hmem => hnul (List.mem_append_right _ hmem)) rfl
        exact ⟨⟨piece :: pieces, cut⟩, by rw [text_cons, hformat]⟩
      cases fmt with
      | nil => exact ⟨⟨[], none⟩, rfl⟩
      | cons c fmt =>
          by_cases hpercent : c = 0x25
          · subst hpercent
            obtain ⟨m, rest, rfl, hends⟩ := Modifiers.exists_text fmt
            cases rest with
            | nil =>
                exact ⟨⟨[], some ⟨m, hends⟩⟩, by rw [List.append_nil]; rfl⟩
            | cons last rest =>
                have hlast : last ≠ 0 := by
                  rintro rfl
                  exact hnul (by simp)
                refine hbehind (.directive m last hlast
                  ((m.ends_behind last rest).mp hends)) rest ?_ ?_
                · rw [FormatPiece.directive_append]
                · simp only [List.length_cons, List.length_append]
                  omega
          · have hc : c ≠ 0 ∧ c ≠ 0x25 :=
              ⟨fun hzero => hnul (by simp [hzero]), hpercent⟩
            exact hbehind (.plain c hc) fmt rfl (Nat.lt_succ_self _)

end FormatText

end Cutting

section Aborting

variable (va : VaList)

theorem pieces_return_iff (pieces : List FormatPiece) (s : Formatted) :
    (∃ t, pieces.foldlM (FormatPiece.write va) s = .ok t) ↔
      pieces.any FormatPiece.aborts = false := by
  induction pieces generalizing s with
  | nil => exact iff_of_true ⟨s, rfl⟩ rfl
  | cons piece pieces ih =>
      rw [List.foldlM_cons, List.any_cons]
      cases piece with
      | plain c hc => exact ih { s with out := s.out ++ [c] }
      | directive m last hlast hends =>
          rw [FormatPiece.write, FormatPiece.aborts]
          cases m.aborts last with
          | true => exact iff_of_false (fun ⟨_, ht⟩ => nomatch ht) (by simp)
          | false => exact ih ((m.directive va [last] s.taken).add va s)

theorem FormatText.write_returns_iff (format : FormatText) :
    (∃ s, format.write va = .ok s) ↔ format.aborts = false := by
  rw [aborts, ← pieces_return_iff va format.pieces ⟨[], 0, []⟩, write]
  constructor
  · rintro ⟨s, hs⟩
    obtain ⟨t, ht, -⟩ := FuelLoop.ok_of_bind hs
    exact ⟨t, ht⟩
  · rintro ⟨t, ht⟩
    rw [ht]
    cases format.cut with
    | none => exact ⟨t, rfl⟩
    | some m => exact ⟨(m.val.directive va [] t.taken).add va t, rfl⟩

/-- `vsprintf` comes back from the formats that convert no `short`, whatever
its arguments are. -/
theorem vsprintf_returns_iff {fmt : List UInt8} (hnul : 0 ∉ fmt) :
    (∃ s, vsprintf va fmt = .ok s) ↔ ¬ ConvertsShort fmt := by
  obtain ⟨format, rfl⟩ := FormatText.exists_text hnul
  rw [format.vsprintf_text, format.write_returns_iff va, ← Bool.not_eq_true]
  refine not_congr ⟨fun haborts => ⟨format, rfl, haborts⟩, ?_⟩
  rintro ⟨other, hother, haborts⟩
  rwa [← FormatText.text_injective hother]

end Aborting

/-- Every format is cut into pieces in one way, each directive as long as it
can be, and `vsprintf` writes what they mean, one after the other, up to one that
aborts. -/
theorem vsprintf_means (va : VaList) {fmt : List UInt8} (hnul : 0 ∉ fmt) :
    ∃ format : FormatText, format.text = fmt ∧
      (∀ other : FormatText, other.text = fmt → other = format) ∧
      vsprintf va fmt = format.write va := by
  obtain ⟨format, rfl⟩ := FormatText.exists_text hnul
  exact ⟨format, rfl, fun other hother => FormatText.text_injective hother,
    format.vsprintf_text va⟩

/-- `"%-5d%%"` -/
theorem vsprintf_means_field :
    ∃ format : FormatText, format.text = [0x25, 0x2D, 0x35, 0x64, 0x25, 0x25] ∧
      (∀ other : FormatText, other.text = [0x25, 0x2D, 0x35, 0x64, 0x25, 0x25] →
        other = format) ∧
      vsprintf ⟨fun _ => 7, fun _ => []⟩ [0x25, 0x2D, 0x35, 0x64, 0x25, 0x25] =
        format.write ⟨fun _ => 7, fun _ => []⟩ :=
  vsprintf_means ⟨fun _ => 7, fun _ => []⟩ (by decide)

end Linda
