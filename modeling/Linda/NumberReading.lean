/-
`simple_strtoul` of kprintf.c over the character table of ctypes.c: what it
reads of a text, and that it reads back what `number` writes.
-/
import Linda.NumberLoops

namespace Linda

open FuelLoop

namespace Ctype

/-- The bits of ctype.h. -/
def upper : UInt8 := 0x01
def lower : UInt8 := 0x02
def decimal : UInt8 := 0x04
def cntrl : UInt8 := 0x08
def punct : UInt8 := 0x10
def white : UInt8 := 0x20
def hex : UInt8 := 0x40
def hardSpace : UInt8 := 0x80

/-- `_ctype`, from the entry for `EOF` on. -/
def table : List UInt8 :=
  [0x00] ++
  List.replicate 8 cntrl ++
  [cntrl, cntrl ||| white, cntrl ||| white, cntrl ||| white, cntrl ||| white,
    cntrl ||| white, cntrl, cntrl] ++
  List.replicate 16 cntrl ++
  [white ||| hardSpace] ++ List.replicate 15 punct ++
  List.replicate 10 decimal ++ List.replicate 6 punct ++
  [punct] ++ List.replicate 6 (upper ||| hex) ++ List.replicate 20 upper ++
  List.replicate 5 punct ++
  [punct] ++ List.replicate 6 (lower ||| hex) ++ List.replicate 20 lower ++
  List.replicate 4 punct ++ [cntrl] ++
  List.replicate 128 0

/-- `(_ctype+1)[c]` for a `char`, which is signed: most of the characters from
0x80 on lead to the bytes before the table. -/
def entry (before : Nat → UInt8) (c : UInt8) : UInt8 :=
  if c < 0x80 then table.getD (c.toNat + 1) 0
  else if c = 0xFF then table.getD 0 0
  else before (255 - c.toNat)

def isdigit (before : Nat → UInt8) (c : UInt8) : Bool :=
  entry before c &&& decimal != 0

def islower (before : Nat → UInt8) (c : UInt8) : Bool :=
  entry before c &&& lower != 0

def isxdigit (before : Nat → UInt8) (c : UInt8) : Bool :=
  entry before c &&& (decimal ||| hex) != 0

end Ctype

/-- A `char` as an `unsigned long`. -/
def charWord (c : UInt8) : UInt32 :=
  if c < 0x80 then c.toUInt32 else c.toUInt32 - 0x100

/-- `toupper` -/
def Ctype.toupper (before : Nat → UInt8) (c : UInt8) : UInt32 :=
  if islower before c then charWord c - (0x61 - 0x41) else charWord c

/-- `value`, for a character that `isxdigit` accepts. -/
def charValue (before : Nat → UInt8) (c : UInt8) : UInt32 :=
  if Ctype.isdigit before c then charWord c - 0x30
  else
    (if Ctype.islower before c then Ctype.toupper before c
      else charWord c) - 0x41 + 10

/-- The condition of the loop. -/
def readsDigit (before : Nat → UInt8) (base : UInt32) (c : UInt8) : Bool :=
  Ctype.isxdigit before c && charValue before c < base

/-- The loop of `simple_strtoul`; no digit is a NUL, so it ends there too. -/
def readNumber (before : Nat → UInt8) (base : UInt32) :
    UInt32 → List UInt8 → UInt32 × List UInt8
  | result, [] => (result, [])
  | result, c :: cp =>
      if readsDigit before base c then
        readNumber before base (result * base + charValue before c) cp
      else (result, c :: cp)

/-- The character at the start of a string, its NUL if nothing else. -/
def peekChar (cp : List UInt8) : UInt8 := cp.head?.getD 0

/-- The base that a text starts with, and what is behind its mark. -/
def detectBase (before : Nat → UInt8) (cp : List UInt8) : UInt32 × List UInt8 :=
  if peekChar cp = 0x30 then
    let cp := cp.tail
    if peekChar cp = 0x78 ∧ Ctype.isxdigit before (peekChar cp.tail) then
      (16, cp.tail)
    else (8, cp)
  else (10, cp)

/-- `simple_strtoul`: what it returns, and `*endp`. The string `cp` ends
before its NUL. -/
def simpleStrtoul (before : Nat → UInt8) (cp : List UInt8) (base : UInt32) :
    UInt32 × List UInt8 :=
  if base = 0 then
    readNumber before (detectBase before cp).1 0 (detectBase before cp).2
  else readNumber before base 0 cp

section Reading

variable {before : Nat → UInt8} {base : UInt32} {cs rest : List UInt8}

/-- What is before the table makes no difference for the characters of
ASCII. -/
theorem entry_ascii (before before' : Nat → UInt8) {c : UInt8} (hc : c < 0x80) :
    Ctype.entry before c = Ctype.entry before' c := by
  rw [Ctype.entry, Ctype.entry, if_pos hc, if_pos hc]

theorem readsDigit_ascii (before before' : Nat → UInt8) (base : UInt32)
    {c : UInt8} (hc : c < 0x80) :
    readsDigit before base c = readsDigit before' base c ∧
      charValue before c = charValue before' c := by
  have hentry := entry_ascii before before' hc
  unfold readsDigit charValue Ctype.toupper Ctype.isxdigit Ctype.isdigit
    Ctype.islower
  rw [hentry]
  exact ⟨rfl, rfl⟩

theorem digit_ascii (large : Bool) : ∀ d < 36, digit large d < 0x80 := by
  cases large <;> decide

theorem charValue_digit (before : Nat → UInt8) (large : Bool) {d : Nat}
    (hd : d < 16) :
    Ctype.isxdigit before (digit large d) = true ∧
      charValue before (digit large d) = UInt32.ofNat d := by
  have hascii := digit_ascii large d (by omega)
  have hentry := entry_ascii before (fun _ => 0) hascii
  have hzero : ∀ d < 16, Ctype.isxdigit (fun _ => 0) (digit large d) = true ∧
      charValue (fun _ => 0) (digit large d) = UInt32.ofNat d := by
    cases large <;> decide
  rw [(readsDigit_ascii before (fun _ => 0) 0 hascii).2]
  simpa only [Ctype.isxdigit, hentry] using hzero d hd

theorem readsDigit_digit (before : Nat → UInt8) (large : Bool) {d b : Nat}
    (hd : d < b) (hb : b ≤ 16) :
    readsDigit before (UInt32.ofNat b) (digit large d) = true := by
  obtain ⟨hhex, hvalue⟩ := charValue_digit before large (hd.trans_le hb)
  have hd' : (UInt32.ofNat d).toNat = d :=
    UInt32.toNat_ofNat_of_lt (by rw [UInt32.size]; omega)
  have hb' : (UInt32.ofNat b).toNat = b :=
    UInt32.toNat_ofNat_of_lt (by rw [UInt32.size]; omega)
  have hlt : UInt32.ofNat d < UInt32.ofNat b := by
    rw [UInt32.lt_iff_toNat_lt, hd', hb']
    exact hd
  rw [readsDigit, hhex, hvalue, Bool.true_and]
  exact decide_eq_true hlt

/-- The digits are read to the first character that is none. -/
theorem readNumber_append (result : UInt32)
    (hcs : ∀ c ∈ cs, readsDigit before base c = true)
    (hrest : ∀ c ∈ rest.head?, readsDigit before base c = false) :
    readNumber before base result (cs ++ rest) =
      (cs.foldl (fun n c => n * base + charValue before c) result, rest) := by
  induction cs generalizing result with
  | nil =>
      cases rest with
      | nil => rfl
      | cons c rest =>
          have hstop := hrest c rfl
          rw [List.nil_append, readNumber, if_neg (by simp [hstop])]
          rfl
  | cons c cs ih =>
      obtain ⟨hc, htail⟩ := List.forall_mem_cons.mp hcs
      rw [List.cons_append, readNumber, if_pos hc, ih _ htail]
      rfl

theorem foldl_toNat {b : Nat} (large : Bool) (hb : b ≤ 16) (result : UInt32)
    (hcs : ∀ c ∈ cs, ∃ d < b, c = digit large d) :
    (cs.foldl (fun n c => n * UInt32.ofNat b + charValue before c)
      result).toNat =
    cs.foldl (fun n c => n * b + digitValue c) result.toNat % 4294967296 := by
  have hbase : (UInt32.ofNat b).toNat = b :=
    UInt32.toNat_ofNat_of_lt (by rw [UInt32.size]; omega)
  -- what the number is before the digits counts modulo the word size only
  suffices hmod : ∀ n : Nat, n % 4294967296 = result.toNat →
      (cs.foldl (fun n c => n * UInt32.ofNat b + charValue before c)
        result).toNat =
      cs.foldl (fun n c => n * b + digitValue c) n % 4294967296 from
    hmod _ (Nat.mod_eq_of_lt result.toNat_lt)
  induction cs generalizing result with
  | nil => exact fun n hn => hn.symm
  | cons c cs ih =>
      intro n hn
      obtain ⟨⟨d, hd, rfl⟩, htail⟩ := List.forall_mem_cons.mp hcs
      have hvalue := (charValue_digit before large (hd.trans_le hb)).2
      have hd' : (UInt32.ofNat d).toNat = d :=
        UInt32.toNat_ofNat_of_lt (by rw [UInt32.size]; omega)
      rw [List.foldl_cons, List.foldl_cons, hvalue,
        digitValue_digit large d (by omega)]
      apply ih _ htail
      rw [UInt32.toNat_add, UInt32.toNat_mul, hbase, hd', ← hn]
      simp only [Nat.add_mod, Nat.mul_mod, Nat.mod_mod, Nat.reducePow]

/-- Digits of a base up to 16 are read as the number they stand for. -/
theorem readNumber_digits {b : Nat} (large : Bool) (hb : b ≤ 16)
    (hcs : ∀ c ∈ cs, ∃ d < b, c = digit large d)
    (hrest : ∀ c ∈ rest.head?, readsDigit before (UInt32.ofNat b) c = false) :
    readNumber before (UInt32.ofNat b) 0 (cs ++ rest) =
      (UInt32.ofNat (readDigits b cs), rest) := by
  have hreads : ∀ c ∈ cs, readsDigit before (UInt32.ofNat b) c = true := by
    intro c hc
    obtain ⟨d, hd, rfl⟩ := hcs c hc
    exact readsDigit_digit before large hd hb
  rw [readNumber_append 0 hreads hrest, Prod.mk.injEq]
  refine ⟨UInt32.toNat_inj.mp ?_, rfl⟩
  rw [foldl_toNat large hb 0 hcs]
  exact (UInt32.toNat_ofNat' ..).symm

end Reading

section RoundTrip

variable {before : Nat → UInt8} {num : UInt32} {base : Nat}
  {precision : Int} {type : Flags}

theorem blank_stops (b : UInt32) : readsDigit before b 0x20 = false := by
  have hascii : (0x20 : UInt8) < 0x80 := by decide
  have hhex : Ctype.isxdigit before 0x20 = false := by
    rw [Ctype.isxdigit, entry_ascii before (fun _ => 0) hascii]
    decide
  rw [readsDigit, hhex, Bool.false_and]

/-- What `number` writes for a number without a sign and with no blanks in
front of it. -/
structure Unsigned (num : UInt32) (base : Nat) (precision : Int) (type : Flags)
    (text mark digits blanks : List UInt8) : Prop where
  text_eq : text = mark ++ (digits ++ blanks)
  mark_eq : mark = if type.special then
      if base = 8 then [0x30]
      else if base = 16 then [0x30, if type.large then 0x58 else 0x78]
      else []
    else []
  each : ∀ c ∈ digits, ∃ d < base, c = digit type.large d
  nonempty : digits ≠ []
  value : readDigits base digits = num.toNat
  bare : type.zeropad = false → precision ≤ 1 →
    digits = (tmpDigits type.large base num.toNat).reverse
  blank : ∀ c ∈ blanks, c = 0x20

/-- Only blanks come behind the parts, where a counter has gone round. -/
theorem numberText_padded (hpad : type.left = true ∨ type.zeropad = true)
    (sign mark tmp : List UInt8) (precision : Int) (room : Int32) :
    ∃ blanks, (∀ c ∈ blanks, c = 0x20) ∧
      numberText (clearZeropad type) sign mark tmp precision room =
        (numberParts type sign mark tmp precision room.toInt).text ++ blanks := by
  cases hleft : type.left with
  | true =>
      refine ⟨[], by simp, ?_⟩
      simp only [numberText, clearZeropad, numberParts, NumberParts.text, hleft,
        ↓reduceIte, Bool.or_true, Bool.not_true, Bool.and_false,
        Bool.false_eq_true, List.append_nil, List.nil_append]
  | false =>
      have hzeropad : type.zeropad = true := by simpa [hleft] using hpad
      refine ⟨pad 0x20 (passed 0 room).toInt, fun c hc => mem_pad hc, ?_⟩
      simp only [numberText, clearZeropad, numberParts, NumberParts.text, hleft,
        hzeropad, ↓reduceIte, Bool.or_false, Bool.not_false, Bool.and_true,
        Bool.false_eq_true, List.append_nil, List.nil_append, List.append_assoc]

theorem number_unsigned (num : UInt32) (size precision : Int32)
    (hlow : 2 ≤ base) (hhigh : base ≤ 36) (hsign : type.sign = false)
    (hpad : type.left = true ∨ type.zeropad = true) :
    ∃ text mark digits blanks,
      number num base size precision type = some text ∧
        Unsigned num base precision.toInt type text mark digits blanks := by
  have hnumber := number_text num size precision type hlow hhigh
  generalize Int32.ofInt (columnsLeft num base size.toInt precision.toInt type) =
    room at hnumber
  have hshows := numberParts_shows num type hlow hhigh precision.toInt room.toInt
  obtain ⟨trailing, htrailing, htext⟩ := numberText_padded hpad
    (signed type num).1 (baseMark type base)
    (tmpDigits type.large base (signed type num).2)
    (max precision.toInt (digitCount base (signed type num).2)) room
  rw [htext] at hnumber
  generalize hparts : numberParts type (signed type num).1 (baseMark type base)
    (tmpDigits type.large base (signed type num).2)
    (max precision.toInt (digitCount base (signed type num).2)) room.toInt = p
    at hshows hnumber
  refine ⟨_, p.mark, p.zeros ++ p.digits, p.right ++ trailing, hnumber, ?_⟩
  have hleft : p.left = [] := by
    rw [← hparts, numberParts]
    exact if_pos (by simpa [or_comm] using hpad)
  have hplain : p.sign = [] := by
    rw [hshows.sign, hsign]
    rfl
  have hmagnitude : magnitude type num = num.toNat := by
    rw [magnitude, hsign]
    rfl
  refine ⟨?_, hshows.mark, ?_, ?_, hshows.value.trans hmagnitude, ?_,
    fun c hc => (List.mem_append.mp hc).elim (hshows.right c) (htrailing c)⟩
  · rw [NumberParts.text, hleft, hplain]
    simp only [List.nil_append, List.append_assoc]
  · intro c hc
    rcases List.mem_append.mp hc with hc | hc
    · refine ⟨0, by omega, (hshows.zeros c hc).trans ?_⟩
      cases type.large <;> rfl
    · exact hshows.digits c hc
  · intro hnone
    have hcount := hshows.count
    rw [(List.append_eq_nil_iff.mp hnone).2, List.length_nil] at hcount
    have hpos : 1 ≤ digitCount base (magnitude type num) := le_max_left _ _
    omega
  · intro hzeropad hprecision
    have hsigned : (signed type num).2 = num.toNat :=
      (signed_magnitude type num).trans hmagnitude
    have hcount := signedDigits_length num type hlow
    have hpos : 1 ≤ digitCount base (signed type num).2 := le_max_left _ _
    have hzeros : p.zeros = [] := by
      rw [← hparts]
      simp only [numberParts, hzeropad, Bool.false_and, hcount]
      exact pad_nonpos _ (by omega)
    rw [hzeros, ← hparts, numberParts, hsigned, List.nil_append]

/-- In the right base the number comes back, and the blanks behind it are
left. -/
theorem Unsigned.reads {text mark digits blanks : List UInt8}
    (h : Unsigned num base precision type text mark digits blanks)
    (before : Nat → UInt8) (hhigh : base ≤ 16) :
    readNumber before (UInt32.ofNat base) 0 (digits ++ blanks) =
      (num, blanks) := by
  have hrest : ∀ c ∈ blanks.head?,
      readsDigit before (UInt32.ofNat base) c = false := by
    intro c hc
    rw [h.blank c (List.mem_of_mem_head? hc)]
    exact blank_stops _
  rw [readNumber_digits type.large hhigh h.each hrest, h.value,
    UInt32.ofNat_toNat]

/-- What `number` writes, `simple_strtoul` reads back. -/
theorem simpleStrtoul_number (before stack : Nat → UInt8) (num : UInt32)
    {base : Nat} (size precision : Int32) (type : Flags) (hlow : 2 ≤ base)
    (hhigh : base ≤ 16) (hsign : type.sign = false)
    (hspecial : type.special = false)
    (hpad : type.left = true ∨ type.zeropad = true) :
    ∃ text blanks,
      Settles (fun fuel => numberLoops fuel stack num base size precision type)
        (.ok (some text)) ∧
      (∀ c ∈ blanks, c = 0x20) ∧
      simpleStrtoul before text (UInt32.ofNat base) = (num, blanks) := by
  obtain ⟨text, mark, digits, blanks, hnumber, htext⟩ :=
    number_unsigned num size precision hlow (by omega) hsign hpad
  have hsettles := numberLoops_settles stack num base size precision type
  rw [hnumber] at hsettles
  refine ⟨text, blanks, hsettles, htext.blank, ?_⟩
  have hmark : mark = [] := by
    rw [htext.mark_eq, hspecial]
    rfl
  have hbase : UInt32.ofNat base ≠ 0 := by
    intro hzero
    have htoNat : (UInt32.ofNat base).toNat = base :=
      UInt32.toNat_ofNat_of_lt (by rw [UInt32.size]; omega)
    rw [hzero] at htoNat
    change 0 = base at htoNat
    omega
  rw [simpleStrtoul, if_neg hbase, htext.text_eq, hmark, List.nil_append]
  exact htext.reads before hhigh

theorem simpleStrtoul_beef : ∃ text blanks,
    Settles (fun fuel => numberLoops fuel (fun _ => 0) 0xBEEF 16 6 0
      { left := true }) (.ok (some text)) ∧
      (∀ c ∈ blanks, c = 0x20) ∧
      simpleStrtoul (fun _ => 0) text 16 = (0xBEEF, blanks) :=
  simpleStrtoul_number (fun _ => 0) (fun _ => 0) 0xBEEF 6 0 { left := true }
    (by decide) (by decide) rfl rfl (.inl rfl)

theorem Unsigned.peek {text mark digits blanks : List UInt8}
    (h : Unsigned num base precision type text mark digits blanks) :
    ∃ d < base, peekChar (digits ++ blanks) = digit type.large d := by
  cases digits with
  | nil => exact absurd rfl h.nonempty
  | cons c digits => exact h.each c List.mem_cons_self

end RoundTrip

end Linda
