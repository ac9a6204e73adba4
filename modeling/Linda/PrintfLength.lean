/-
How much `vsprintf` writes: the columns of each conversion, and the buffer of
`kprintf` and `panic`.
-/
import Linda.Printf
import Mathlib.Data.Nat.Digits.Lemmas

namespace Linda

theorem pad_length (c : UInt8) (n : Int) : (pad c n).length = n.toNat := by
  rw [pad, List.length_replicate]

/-- The columns of a number's digits. -/
def digitCount (base num : Nat) : Nat := max 1 (Nat.digits base num).length

/-- The columns of the field that the sign, the prefix and the digits leave. -/
def columnsLeft (num : UInt32) (base : Nat) (size precision : Int)
    (type : Flags) : Int :=
  size - (signed type num).1.length - (baseMark type base).length -
    max precision (digitCount base (signed type num).2)

/-- The columns of the padding loops that the flags leave in. -/
def paddings (type : Flags) (room : Int32) : Int :=
  if type.left then max room.toInt 0
  else if type.zeropad then max room.toInt 0 + max (passed 0 room).toInt 0
  else max room.toInt 0 + max (passed 0 room).toInt 0 +
    max (passed 0 (passed 0 room)).toInt 0

/-- The columns of a number: the padding, counted down in an `int`, the sign,
the mark and the digits. -/
def numberLength (num : UInt32) (base : Nat) (size precision : Int32)
    (type : Flags) : Nat :=
  (paddings type
      (Int32.ofInt (columnsLeft num base size.toInt precision.toInt type)) +
    (signed type num).1.length + (baseMark type base).length +
    max precision.toInt (digitCount base (signed type num).2)).toNat

theorem divDigits_eq {base : Nat} (hbase : 1 < base) (fuel num : Nat)
    (hnum : num < base ^ fuel) :
    divDigits base fuel num = Nat.digits base num := by
  induction fuel generalizing num with
  | zero =>
      obtain rfl : num = 0 := by simpa using hnum
      rw [divDigits, Nat.digits_zero]
  | succ fuel ih =>
      by_cases hzero : num = 0
      · rw [divDigits, if_pos hzero, hzero, Nat.digits_zero]
      · have hdiv : num / base < base ^ fuel := by
          apply Nat.div_lt_of_lt_mul
          rwa [Nat.pow_succ'] at hnum
        rw [divDigits, if_neg hzero, ih _ hdiv,
          Nat.digits_def' hbase (Nat.pos_of_ne_zero hzero)]

theorem tmpDigits_length (large : Bool) {base num : Nat} (hbase : 1 < base)
    (hnum : num < 4294967296) :
    (tmpDigits large base num).length = digitCount base num := by
  by_cases hzero : num = 0
  · rw [tmpDigits, if_pos hzero, hzero, digitCount, Nat.digits_zero]
    rfl
  · have hfuel : num < base ^ 32 :=
      lt_of_lt_of_le hnum (Nat.pow_le_pow_left hbase 32)
    have hne : Nat.digits base num ≠ [] := Nat.digits_ne_nil_iff_ne_zero.mpr hzero
    have hpos := List.length_pos_iff.mpr hne
    rw [tmpDigits, if_neg hzero, List.length_map, divDigits_eq hbase 32 num hfuel,
      digitCount, Nat.max_eq_right hpos]

theorem signed_lt (type : Flags) (num : UInt32) :
    (signed type num).2 < 4294967296 := by
  have hpos := num.toNat_lt
  have hneg := (-num).toNat_lt
  unfold signed
  split_ifs <;> assumption

section Numbers

variable (num : UInt32) {base : Nat} (size precision : Int32) (type : Flags)

theorem signed_clearZeropad :
    signed (clearZeropad type) num = signed type num := by
  rw [clearZeropad]
  split_ifs <;> rfl

theorem baseMark_clearZeropad (base : Nat) :
    baseMark (clearZeropad type) base = baseMark type base := by
  rw [clearZeropad]
  split_ifs <;> rfl

theorem clearZeropad_large : (clearZeropad type).large = type.large := by
  rw [clearZeropad]
  split_ifs <;> rfl

theorem signedDigits_length (hlow : 2 ≤ base) :
    (tmpDigits type.large base (signed type num).2).length =
      digitCount base (signed type num).2 :=
  tmpDigits_length type.large hlow (signed_lt type num)

theorem digitCount_le (hlow : 2 ≤ base) {n : Nat} (hn : n < 4294967296) :
    digitCount base n ≤ 32 := by
  have hpow : n < base ^ 32 := hn.trans_le (Nat.pow_le_pow_left hlow 32)
  have hlength := (Nat.digits_length_le_iff hlow n).mpr hpow
  exact max_le (by decide) hlength

/-- `if (i > precision) precision = i;` -/
theorem raised_toInt {i : Nat} (hi : i ≤ 32) :
    (if precision.toInt < i then Int32.ofNat i else precision).toInt =
      max precision.toInt i := by
  split_ifs with hlt
  · rw [Int32.toInt_ofNat_of_lt (by omega)]
    omega
  · omega

/-- The padding of `number` starts with the columns left, as an `int`. -/
theorem number_text (hlow : 2 ≤ base) (hhigh : base ≤ 36) :
    number num base size precision type =
      some (numberText (clearZeropad type) (signed type num).1
        (baseMark type base) (tmpDigits type.large base (signed type num).2)
        (max precision.toInt (digitCount base (signed type num).2))
        (Int32.ofInt (columnsLeft num base size.toInt precision.toInt type))) := by
  have hbase : ¬ (base < 2 ∨ 36 < base) := by omega
  have hcount := signedDigits_length num type hlow
  have hraised := raised_toInt precision
    (digitCount_le hlow (signed_lt type num))
  have hroom : Int32.ofInt (columnsLeft num base size.toInt precision.toInt type) =
      size - Int32.ofNat (signed type num).1.length -
        Int32.ofNat (baseMark type base).length -
        (if precision.toInt < (digitCount base (signed type num).2 : Int) then
          Int32.ofNat (digitCount base (signed type num).2) else precision) := by
    rw [columnsLeft, ← hraised]
    simp only [Int32.ofInt_sub, Int32.ofInt_toInt, Int32.ofInt_eq_ofNat]
  simp only [number, if_neg hbase, signed_clearZeropad, baseMark_clearZeropad,
    clearZeropad_large, hcount, hroom, hraised]

theorem numberText_length (sign mark : List UInt8) {tmp : List UInt8}
    {precision : Int} (htmp : tmp.length ≤ precision) (room : Int32) :
    ((numberText (clearZeropad type) sign mark tmp precision room).length : Int) =
      paddings type room + sign.length + mark.length + precision := by
  unfold numberText clearZeropad paddings
  cases hleft : type.left <;> cases hzeropad : type.zeropad
  all_goals
    simp only [hleft, hzeropad, Bool.false_or, Bool.true_or, Bool.or_true,
      Bool.false_eq_true, ↓reduceIte, List.length_append, pad_length,
      List.length_reverse, List.length_nil]
    omega

/-- `number` writes the columns it should. -/
theorem number_length (hlow : 2 ≤ base) (hhigh : base ≤ 36) :
    ∃ text, number num base size precision type = some text ∧
      text.length = numberLength num base size precision type := by
  refine ⟨_, number_text num size precision type hlow hhigh, ?_⟩
  have hcount := signedDigits_length num type hlow
  have hfits : ((tmpDigits type.large base (signed type num).2).length : Int) ≤
      max precision.toInt (digitCount base (signed type num).2) := by omega
  have hlength := numberText_length type (signed type num).1
    (baseMark type base) hfits
    (Int32.ofInt (columnsLeft num base size.toInt precision.toInt type))
  rw [numberLength, ← hlength, Int.toNat_natCast]

end Numbers

/-- The columns of a text of `len` characters: the padding goes on where a
count has passed the least `int`. -/
def justifiedLength (left : Bool) (width len : Int32) : Nat :=
  (if left then 0 else (width.toInt - len.toInt).toNat) + len.toInt.toNat +
    ((if left then width else passed len width).toInt - len.toInt).toNat

/-- The columns of a character. -/
def charLength (left : Bool) (width : Int32) : Nat :=
  (if left then 0 else (width - 1).toInt.toNat) + 1 +
    ((if left then width else if 0 < width - 1 then 0 else width - 1) -
      1).toInt.toNat

theorem justified_length (left : Bool) (width : Int32) {text : List UInt8}
    {len : Int32} (hlen : len.toInt ≤ text.length) :
    (justified left width text len).length = justifiedLength left width len := by
  have htake : (text.take len.toInt.toNat).length = len.toInt.toNat := by
    rw [List.length_take]
    omega
  cases left
  all_goals
    simp only [justified, justifiedLength, Bool.false_eq_true, ↓reduceIte,
      List.length_append, pad_length, htake, List.length_nil]

theorem convertChar_length (d : Directive) (arg : UInt32) :
    (convertChar d arg).length = charLength d.flags.left d.width := by
  cases hleft : d.flags.left
  all_goals
    simp only [convertChar, charLength, hleft, Bool.false_eq_true, ↓reduceIte,
      List.length_append, pad_length, List.length_nil, List.length_singleton]

theorem toInt32_toInt_le (word : UInt32) : word.toInt32.toInt ≤ word.toNat := by
  have hint : word.toInt32.toInt = word.toBitVec.toInt := rfl
  have hnat : word.toNat = word.toBitVec.toNat := rfl
  rw [hint, hnat, BitVec.toInt_eq_toNat_cond]
  split_ifs <;> omega

theorem textLen_le (precision : Int32) (text : List UInt8) :
    (textLen precision text).toInt ≤ text.length := by
  have hle := toInt32_toInt_le
    (UInt32.ofNat (min text.length precision.toUInt32.toNat))
  have hmod : (UInt32.ofNat (min text.length precision.toUInt32.toNat)).toNat ≤
      text.length := by
    rw [UInt32.toNat_ofNat']
    exact (Nat.mod_le _ _).trans (Nat.min_le_left _ _)
  rw [textLen]
  omega

section Conversions

variable (va : VaList) (d : Directive)

/-- The conversion characters that read an argument. -/
def readsArg (c : UInt8) : Bool :=
  c ∈ [0x63, 0x73, 0x70, 0x6E, 0x6F, 0x58, 0x78, 0x64, 0x69, 0x75]

/-- Whether a conversion read up to its last character comes to the `ud2`. -/
def Directive.aborts : Bool :=
  match d.fmt with
  | [] => false
  | c :: _ => Linda.aborts d.qualifier c

/-- The characters of a conversion read up to its last character. -/
def Directive.text : List UInt8 :=
  match d.fmt with
  | [] => [0x25]
  | c :: _ =>
      match conversion va d c (va.word d.taken) with
      | some text => text
      | none =>
          if c = 0x6E then []
          else if c = 0x25 then [c]
          else if c = 0 then [0x25]
          else [0x25, c]

/-- The arguments read when it is done. -/
def Directive.after : Nat :=
  match d.fmt with
  | [] => d.taken
  | c :: _ => if readsArg c then d.taken + 1 else d.taken

/-- The format the loop goes on with. -/
def Directive.rest : List UInt8 :=
  match d.fmt with
  | [] => []
  | c :: rest => if c = 0 then c :: rest else rest

/-- The integer `%n` stores. -/
def Directive.stored (written : Nat) : List (UInt32 × Nat) :=
  match d.fmt with
  | [] => []
  | c :: _ => if c = 0x6E then [(va.word d.taken, written)] else []

/-- The columns of a conversion. -/
def conversionLength (c : UInt8) (arg : UInt32) : Nat :=
  if c = 0x63 then charLength d.flags.left d.width
  else if c = 0x73 then
    justifiedLength d.flags.left d.width
      (textLen d.precision (if arg = 0 then nullText else va.text arg))
  else if c = 0x70 then
    if d.width = -1 then
      numberLength arg 16 8 d.precision { d.flags with zeropad := true }
    else numberLength arg 16 d.width d.precision d.flags
  else
    match integerConversion d.flags c with
    | some (base, flags) => numberLength arg base d.width d.precision flags
    | none =>
        if c = 0x6E then 0 else if c = 0x25 ∨ c = 0 then 1 else 2

def Directive.length : Nat :=
  match d.fmt with
  | [] => 1
  | c :: _ => conversionLength va d c (va.word d.taken)

theorem integerConversion_base {flags flags' : Flags} {c : UInt8} {base : Nat}
    (h : integerConversion flags c = some (base, flags')) :
    2 ≤ base ∧ base ≤ 36 := by
  unfold integerConversion at h
  split_ifs at h <;> cases h <;> decide

theorem integerConversion_reads {flags : Flags} {c : UInt8}
    {found : Nat × Flags} (h : integerConversion flags c = some found) :
    readsArg c = true ∧ c ≠ 0 ∧ c ≠ 0x6E := by
  unfold integerConversion at h
  split_ifs at h with ho hX hx hd hu
  · rw [ho]
    decide
  · rw [hX]
    decide
  · rw [hx]
    decide
  · rcases hd with hd | hd <;> rw [hd] <;> decide
  · rw [hu]
    decide

theorem readsArg_integer {flags : Flags} {c : UInt8} (hc : c ≠ 0x63)
    (hs : c ≠ 0x73) (hp : c ≠ 0x70) (h : integerConversion flags c = none) :
    readsArg c = true ↔ c = 0x6E := by
  unfold integerConversion at h
  split_ifs at h with ho hX hx hd hu
  obtain ⟨hd, hi⟩ := not_or.mp hd
  simp [readsArg, hc, hs, hp, ho, hX, hx, hd, hi, hu]

/-- A conversion that writes reads its argument. -/
theorem conversion_cases (c : UInt8) (arg : UInt32) :
    (∃ text, conversion va d c arg = some text ∧ readsArg c = true ∧
      c ≠ 0 ∧ c ≠ 0x6E ∧ text.length = conversionLength va d c arg) ∨
    (conversion va d c arg = none ∧ (readsArg c = true ↔ c = 0x6E) ∧
      conversionLength va d c arg =
        if c = 0x6E then 0 else if c = 0x25 ∨ c = 0 then 1 else 2) := by
  by_cases hc : c = 0x63
  · subst hc
    left
    exact ⟨_, rfl, by decide, by decide, by decide, convertChar_length d arg⟩
  by_cases hs : c = 0x73
  · subst hs
    left
    exact ⟨_, rfl, by decide, by decide, by decide,
      justified_length _ _ (textLen_le _ _)⟩
  by_cases hp : c = 0x70
  · subst hp
    left
    by_cases hwidth : d.width = -1
    · obtain ⟨text, hnumber, hlength⟩ := number_length arg
        8 d.precision { d.flags with zeropad := true } (show 2 ≤ 16 by decide)
        (by decide)
      refine ⟨text, ?_, by decide, by decide, by decide, ?_⟩
      · simp [conversion, hwidth, hnumber]
      · simp only [conversionLength, hwidth, ↓reduceIte]
        exact hlength
    · obtain ⟨text, hnumber, hlength⟩ := number_length arg
        d.width d.precision d.flags (show 2 ≤ 16 by decide) (by decide)
      refine ⟨text, ?_, by decide, by decide, by decide, ?_⟩
      · simp [conversion, hwidth, hnumber]
      · simp only [conversionLength, hwidth, ↓reduceIte]
        exact hlength
  cases hinteger : integerConversion d.flags c with
  | none =>
      right
      simp only [conversion, conversionLength, hc, hs, hp, ↓reduceIte, hinteger,
        readsArg_integer hc hs hp hinteger, true_and]
  | some found =>
      left
      obtain ⟨base, flags⟩ := found
      obtain ⟨hlow, hhigh⟩ := integerConversion_base hinteger
      obtain ⟨hreads, hzero, hn⟩ := integerConversion_reads hinteger
      obtain ⟨text, hnumber, hlength⟩ := number_length arg d.width d.precision
        flags hlow hhigh
      refine ⟨text, ?_, hreads, hzero, hn, ?_⟩
      · simp only [conversion, hc, hs, hp, ↓reduceIte, hinteger, hnumber]
      · simp only [conversionLength, hc, hs, hp, ↓reduceIte, hinteger, hlength]

/-- What a directive adds. -/
def Directive.add (s : Formatted) : Formatted :=
  ⟨s.out ++ d.text va, d.after, s.stores ++ d.stored va s.out.length⟩

theorem convert_eq (s : Formatted) :
    convert va d s =
      if d.aborts then .error { s with taken := d.taken }
      else .ok (d.add va s, d.rest) := by
  unfold convert Directive.aborts Directive.add Directive.text Directive.after
    Directive.rest Directive.stored
  cases d.fmt with
  | nil => simp
  | cons c rest =>
      cases habort : aborts d.qualifier c with
      | true => simp [habort]
      | false =>
          rcases conversion_cases va d c (va.word d.taken) with
            ⟨text, hsome, hreads, hzero, hn, -⟩ | ⟨hnone, hreads, -⟩
          · simp [habort, hsome, hreads, hzero, hn]
          · by_cases hn : c = 0x6E
            · subst hn
              simp [habort, hnone, readsArg]
            · simp only [habort, hnone, hreads, hn, ↓reduceIte]
              split_ifs <;> simp_all

theorem Directive.text_length : (d.text va).length = d.length va := by
  unfold Directive.text Directive.length
  cases d.fmt with
  | nil => rfl
  | cons c rest =>
      rcases conversion_cases va d c (va.word d.taken) with
        ⟨text, hsome, -, -, -, hlength⟩ | ⟨hnone, -, hlength⟩
      · simp only [hsome, hlength]
      · simp only [hnone, hlength]
        split_ifs <;> simp_all

/-- The columns of a whole format behind `taken` arguments, up to a conversion
that aborts. -/
def formatLength (va : VaList) : Nat → List UInt8 → Nat → Nat
  | 0, _, _ => 0
  | _ + 1, [], _ => 0
  | fuel + 1, c :: rest, taken =>
      if c = 0 then 0
      else if c = 0x25 then
        let d := readDirective va rest taken
        if d.aborts then 0
        else d.length va + formatLength va fuel d.rest d.after
      else 1 + formatLength va fuel rest taken

/-- Whether a format comes to a conversion that aborts. -/
def formatAborts (va : VaList) : Nat → List UInt8 → Nat → Bool
  | 0, _, _ => false
  | _ + 1, [], _ => false
  | fuel + 1, c :: rest, taken =>
      if c = 0 then false
      else if c = 0x25 then
        let d := readDirective va rest taken
        d.aborts || formatAborts va fuel d.rest d.after
      else formatAborts va fuel rest taken

theorem formatLoop_directive (fuel : Nat) (rest : List UInt8) (s : Formatted) :
    formatLoop va (fuel + 1) (0x25 :: rest) s =
      if (readDirective va rest s.taken).aborts then
        .error { s with taken := (readDirective va rest s.taken).taken }
      else formatLoop va fuel (readDirective va rest s.taken).rest
        ((readDirective va rest s.taken).add va s) := by
  have hne : ¬ (0x25 : UInt8) = 0 := by decide
  rw [formatLoop, if_neg hne, if_pos rfl, convert_eq]
  split_ifs <;> rfl

theorem formatLength_directive (fuel : Nat) (rest : List UInt8) (taken : Nat) :
    formatLength va (fuel + 1) (0x25 :: rest) taken =
      if (readDirective va rest taken).aborts then 0
      else (readDirective va rest taken).length va +
        formatLength va fuel (readDirective va rest taken).rest
          (readDirective va rest taken).after := by
  have hne : ¬ (0x25 : UInt8) = 0 := by decide
  rw [formatLength, if_neg hne, if_pos rfl]

theorem formatAborts_directive (fuel : Nat) (rest : List UInt8) (taken : Nat) :
    formatAborts va (fuel + 1) (0x25 :: rest) taken =
      ((readDirective va rest taken).aborts ||
        formatAborts va fuel (readDirective va rest taken).rest
          (readDirective va rest taken).after) := by
  have hne : ¬ (0x25 : UInt8) = 0 := by decide
  rw [formatAborts, if_neg hne, if_pos rfl]

/-- What the loop leaves is as long as its columns, aborted or not. -/
theorem formatLoop_length (fuel : Nat) (fmt : List UInt8) (s : Formatted) :
    ∃ t : Formatted,
      formatLoop va fuel fmt s =
        (if formatAborts va fuel fmt s.taken then .error t else .ok t) ∧
      t.out.length = s.out.length + formatLength va fuel fmt s.taken := by
  induction fuel generalizing fmt s with
  | zero => exact ⟨s, rfl, rfl⟩
  | succ fuel ih =>
      cases fmt with
      | nil => exact ⟨s, rfl, rfl⟩
      | cons c rest =>
          by_cases hpercent : c = 0x25
          · subst hpercent
            rw [formatLoop_directive, formatLength_directive,
              formatAborts_directive]
            cases (readDirective va rest s.taken).aborts with
            | true => exact ⟨_, rfl, rfl⟩
            | false =>
                obtain ⟨t, hloop, hlength⟩ := ih
                  (readDirective va rest s.taken).rest
                  ((readDirective va rest s.taken).add va s)
                refine ⟨t, hloop, ?_⟩
                rw [hlength, Directive.add, List.length_append,
                  Directive.text_length, Nat.add_assoc]
                rfl
          · rw [formatLoop, formatLength, formatAborts]
            by_cases hend : c = 0
            · simp only [hend, ↓reduceIte]
              exact ⟨s, rfl, rfl⟩
            · simp only [hend, hpercent, ↓reduceIte]
              obtain ⟨t, hloop, hlength⟩ := ih rest { s with out := s.out ++ [c] }
              refine ⟨t, hloop, ?_⟩
              rw [hlength, List.length_append, List.length_singleton,
                Nat.add_assoc]

end Conversions

/-- The columns of a format. -/
def formatColumns (va : VaList) (fmt : List UInt8) : Nat :=
  formatLength va fmt.length fmt 0

/-- The bytes of `buf` that `vsprintf` has written: the text and its NUL, or
what came before the `ud2`. -/
def bytesUsed : Except Formatted Printed → Nat
  | .ok printed => printed.buf.length
  | .error s => s.out.length

/-- What is written lies in the buffer. -/
def StaysInBuffer (va : VaList) (fmt : List UInt8) : Prop :=
  bytesUsed (kprintf va fmt) ≤ printBuffer ∧
    bytesUsed (panic va fmt) ≤ printBuffer

section Printing

variable {error : List UInt8} {va : VaList} {fmt : List UInt8} {s : Formatted}

theorem printWith_ok (h : vsprintf va fmt = .ok s) :
    printWith error va fmt =
      .ok ⟨s.out ++ [0],
        if s.out = [] then error else consoleWrite (s.out ++ [0]), s.taken,
        s.stores, s.out.length⟩ := by
  rw [printWith, h]
  rfl

theorem printWith_returns {printed : Printed}
    (h : printWith error va fmt = .ok printed) :
    ∃ s, vsprintf va fmt = .ok s := by
  cases hloop : vsprintf va fmt with
  | ok s => exact ⟨s, rfl⟩
  | error s =>
      rw [printWith, hloop] at h
      cases h

theorem vsprintf_length (h : vsprintf va fmt = .ok s) :
    s.out.length = formatColumns va fmt := by
  obtain ⟨t, hloop, hlength⟩ := formatLoop_length va fmt.length fmt ⟨[], 0, []⟩
  rw [List.length_nil, Nat.zero_add] at hlength
  rw [vsprintf, hloop] at h
  split_ifs at h
  obtain rfl := Except.ok.inj h
  exact hlength

theorem printWith_error (h : vsprintf va fmt = .error s) :
    printWith error va fmt = .error s := by
  rw [printWith, h]
  rfl

end Printing

/-- Exactly the formats of at most 1023 columns stay in the buffer; one more
fits where a conversion aborts, as no NUL follows. -/
theorem staysInBuffer_iff (va : VaList) (fmt : List UInt8) :
    StaysInBuffer va fmt ↔
      formatColumns va fmt ≤
        if formatAborts va fmt.length fmt 0 then 1024 else 1023 := by
  have hbuf : ∀ error, bytesUsed (printWith error va fmt) ≤ 1024 ↔
      formatColumns va fmt ≤
        if formatAborts va fmt.length fmt 0 then 1024 else 1023 := by
    intro error
    obtain ⟨t, hloop, hlength⟩ := formatLoop_length va fmt.length fmt ⟨[], 0, []⟩
    rw [List.length_nil, Nat.zero_add] at hlength
    rw [formatColumns, ← hlength]
    cases habort : formatAborts va fmt.length fmt 0 with
    | true =>
        simp only [habort, ↓reduceIte] at hloop
        rw [printWith_error hloop, if_pos rfl]
        rfl
    | false =>
        simp only [habort, Bool.false_eq_true, ↓reduceIte] at hloop
        rw [printWith_ok hloop, bytesUsed, List.length_append,
          List.length_singleton, if_neg (by decide)]
        exact Nat.succ_le_succ_iff
  rw [StaysInBuffer, kprintf, panic, printBuffer, hbuf, hbuf, and_self]

/-- `"%2000d"` takes 2000 columns for any argument. -/
theorem wide_field_overflows :
    ¬ StaysInBuffer ⟨fun _ => 7, fun _ => []⟩
      [0x25, 0x32, 0x30, 0x30, 0x30, 0x64] := by
  rintro ⟨hbuf, -⟩
  exact absurd hbuf (by decide +kernel)

end Linda
