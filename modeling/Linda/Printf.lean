/-
The formatter of kprintf.c: `vsprintf` and `number` over a format and the
words and strings behind the variadic arguments, and its two callers.
-/
import Mathlib.Data.Nat.Digits.Defs
import Mathlib.Tactic.Common

namespace Linda

/-- The variadic arguments: the words on the caller's stack, and the string at
an address, without its NUL. -/
structure VaList where
  word : Nat → UInt32
  text : UInt32 → List UInt8

/-- A word as an `int`. -/
def asInt (word : UInt32) : Int :=
  if word.toNat < 2147483648 then word.toNat else word.toNat - 4294967296

/-- The flags of `number`, each a bit of its own. -/
structure Flags where
  zeropad : Bool := false
  sign : Bool := false
  plus : Bool := false
  space : Bool := false
  left : Bool := false
  special : Bool := false
  large : Bool := false
deriving Repr, DecidableEq

/-- `digits[d]`, in the string for lower or for upper case. -/
def digit (large : Bool) (d : Nat) : UInt8 :=
  UInt8.ofNat (if d < 10 then 0x30 + d else if large then 0x37 + d else 0x57 + d)

/-- What `do_div` splits off until the number is zero, the lowest digit
first. -/
def divDigits (base : Nat) : Nat → Nat → List Nat
  | 0, _ => []
  | fuel + 1, num =>
      if num = 0 then [] else num % base :: divDigits base fuel (num / base)

/-- `tmp`, whose first `i` characters are the digits. -/
def tmpDigits (large : Bool) (base num : Nat) : List UInt8 :=
  if num = 0 then [0x30] else (divDigits base 32 num).map (digit large)

/-- The characters of `while (n-- > 0) *str++ = c;` -/
def pad (c : UInt8) (n : Int) : List UInt8 := List.replicate n.toNat c

/-- What `while (low < n--)` leaves of `n`. -/
def passed (low n : Int32) : Int32 := if low < n then low - 1 else n - 1

/-- `sign`, and `num` without it. -/
def signed (type : Flags) (num : UInt32) : List UInt8 × Nat :=
  if type.sign then
    if asInt num < 0 then ([0x2D], (-num).toNat)
    else if type.plus then ([0x2B], num.toNat)
    else if type.space then ([0x20], num.toNat)
    else ([], num.toNat)
  else ([], num.toNat)

/-- What `SPECIAL` writes before the digits. -/
def baseMark (type : Flags) (base : Nat) : List UInt8 :=
  if type.special then
    if base = 8 then [0x30]
    else if base = 16 then [0x30, digit type.large 33]
    else []
  else []

/-- The characters of a number whose padding starts with `room` columns: the
loops count `size` down, each from where the one before has left it. -/
def numberText (type : Flags) (sign mark tmp : List UInt8) (precision : Int)
    (room : Int32) : List UInt8 :=
  let c : UInt8 := if type.zeropad then 0x30 else 0x20
  let plain := type.zeropad || type.left
  let lead := if plain then [] else pad 0x20 room.toInt
  let room := if plain then room else passed 0 room
  let fill := if type.left then [] else pad c room.toInt
  let room := if type.left then room else passed 0 room
  lead ++ sign ++ mark ++ fill ++ pad 0x30 (precision - tmp.length) ++
    tmp.reverse ++ pad 0x20 room.toInt

/-- `type &= ~ZEROPAD` of a left-justified number. -/
def clearZeropad (type : Flags) : Flags :=
  if type.left then { type with zeropad := false } else type

/-- `number`, as the characters it writes; it returns `NULL` for a base it
does not know. -/
def number (num : UInt32) (base : Nat) (size precision : Int32) (type : Flags) :
    Option (List UInt8) :=
  let type := clearZeropad type
  if base < 2 ∨ 36 < base then none
  else
    let sign := (signed type num).1
    let mark := baseMark type base
    let tmp := tmpDigits type.large base (signed type num).2
    let precision :=
      if precision.toInt < tmp.length then Int32.ofNat tmp.length else precision
    let size := size - Int32.ofNat sign.length - Int32.ofNat mark.length - precision
    some (numberText type sign mark tmp precision.toInt size)

/-- A conversion while it is read: `fmt` is what is left of the format and
`taken` the number of arguments read. -/
structure Directive where
  flags : Flags
  width : Int32
  precision : Int32
  qualifier : Option UInt8
  fmt : List UInt8
  taken : Nat

def isDigit (c : UInt8) : Bool := 0x30 ≤ c && c ≤ 0x39

/-- `skip_atoi`, from where it has read `i`. -/
def skipAtoi : Int32 → List UInt8 → Int32 × List UInt8
  | i, [] => (i, [])
  | i, c :: rest =>
      if isDigit c then skipAtoi (i * 10 + Int32.ofNat c.toNat - 0x30) rest
      else (i, c :: rest)

/-- The loop behind `repeat`. -/
def readFlags : Flags → List UInt8 → Flags × List UInt8
  | flags, [] => (flags, [])
  | flags, c :: rest =>
      if c = 0x2D then readFlags { flags with left := true } rest
      else if c = 0x2B then readFlags { flags with plus := true } rest
      else if c = 0x20 then readFlags { flags with space := true } rest
      else if c = 0x23 then readFlags { flags with special := true } rest
      else if c = 0x30 then readFlags { flags with zeropad := true } rest
      else (flags, c :: rest)

/-- The field width, a number or a `*`. -/
def readWidth (va : VaList) (d : Directive) : Directive :=
  match d.fmt with
  | [] => d
  | c :: rest =>
      if isDigit c then
        let (width, fmt) := skipAtoi 0 d.fmt
        { d with width := width, fmt := fmt }
      else if c = 0x2A then
        let width := (va.word d.taken).toInt32
        if width < 0 then
          { d with
            width := -width, flags := { d.flags with left := true },
            fmt := rest, taken := d.taken + 1 }
        else { d with width := width, fmt := rest, taken := d.taken + 1 }
      else d

/-- What stands behind the `.` of a precision. -/
def readPrecisionNumber (va : VaList) (d : Directive) : Directive :=
  match d.fmt with
  | [] => d
  | c :: rest =>
      if isDigit c then
        let (precision, fmt) := skipAtoi 0 d.fmt
        { d with precision := precision, fmt := fmt }
      else if c = 0x2A then
        { d with
          precision := (va.word d.taken).toInt32, fmt := rest,
          taken := d.taken + 1 }
      else d

def readPrecision (va : VaList) (d : Directive) : Directive :=
  match d.fmt with
  | [] => d
  | c :: rest =>
      if c = 0x2E then
        let d := readPrecisionNumber va { d with fmt := rest }
        { d with precision := if d.precision < 0 then 0 else d.precision }
      else d

def readQualifier (d : Directive) : Directive :=
  match d.fmt with
  | [] => d
  | c :: rest =>
      if c = 0x68 ∨ c = 0x6C ∨ c = 0x4C then
        { d with qualifier := some c, fmt := rest }
      else d

/-- Behind a `%`, up to the conversion character. -/
def readDirective (va : VaList) (fmt : List UInt8) (taken : Nat) : Directive :=
  let (flags, fmt) := readFlags {} fmt
  readQualifier (readPrecision va (readWidth va
    ⟨flags, -1, -1, none, fmt, taken⟩))

/-- What has been written so far, the arguments read for it and the integers
`%n` has stored. -/
structure Formatted where
  out : List UInt8
  taken : Nat
  stores : List (UInt32 × Nat)
deriving Repr, DecidableEq

/-- `while (len < field_width--)`, once to the left of the text and once to its
right. -/
def justified (left : Bool) (width : Int32) (text : List UInt8) (len : Int32) :
    List UInt8 :=
  let lead := if left then [] else pad 0x20 (width.toInt - len.toInt)
  let width := if left then width else passed len width
  lead ++ text.take len.toInt.toNat ++ pad 0x20 (width.toInt - len.toInt)

/-- `case 'c'`; the loops decrement before they compare. -/
def convertChar (d : Directive) (arg : UInt32) : List UInt8 :=
  let lead := if d.flags.left then [] else pad 0x20 (d.width - 1).toInt
  let width :=
    if d.flags.left then d.width
    else if 0 < d.width - 1 then 0
    else d.width - 1
  lead ++ [arg.toUInt8] ++ pad 0x20 (width - 1).toInt

/-- `"<NULL>"` -/
def nullText : List UInt8 := [0x3C, 0x4E, 0x55, 0x4C, 0x4C, 0x3E]

/-- `len`: the precision is a `size_t` for `strnlen`. -/
def textLen (precision : Int32) (text : List UInt8) : Int32 :=
  (UInt32.ofNat (min text.length precision.toUInt32.toNat)).toInt32

def convertText (va : VaList) (d : Directive) (arg : UInt32) : List UInt8 :=
  let text := if arg = 0 then nullText else va.text arg
  justified d.flags.left d.width text (textLen d.precision text)

/-- The base and flags of an integer conversion. -/
def integerConversion (flags : Flags) (c : UInt8) : Option (Nat × Flags) :=
  if c = 0x6F then some (8, flags)
  else if c = 0x58 then some (16, { flags with large := true })
  else if c = 0x78 then some (16, flags)
  else if c = 0x64 ∨ c = 0x69 then some (10, { flags with sign := true })
  else if c = 0x75 then some (10, flags)
  else none

/-- The integer conversions of a `short`: `va_arg(args, short)` is built as
`ud2`. -/
def aborts (qualifier : Option UInt8) (c : UInt8) : Bool :=
  qualifier = some 0x68 && c ∈ [0x6F, 0x58, 0x78, 0x64, 0x69, 0x75]

/-- The characters of a conversion that reads an argument, other than `%n`. -/
def conversion (va : VaList) (d : Directive) (c : UInt8) (arg : UInt32) :
    Option (List UInt8) :=
  if c = 0x63 then some (convertChar d arg)
  else if c = 0x73 then some (convertText va d arg)
  else if c = 0x70 then
    if d.width = -1 then
      number arg 16 8 d.precision { d.flags with zeropad := true }
    else number arg 16 d.width d.precision d.flags
  else
    match integerConversion d.flags c with
    | none => none
    | some (base, flags) => number arg base d.width d.precision flags

/-- The `switch` on the conversion character, and the format the loop goes on
with: the `--fmt` of the last branch keeps it on the NUL. An error is the
`ud2`, with what had been written. -/
def convert (va : VaList) (d : Directive) (s : Formatted) :
    Except Formatted (Formatted × List UInt8) :=
  match d.fmt with
  | [] => .ok ({ s with out := s.out ++ [0x25], taken := d.taken }, [])
  | c :: rest =>
      let arg := va.word d.taken
      if aborts d.qualifier c then .error { s with taken := d.taken }
      else
        match conversion va d c arg with
        | some text =>
            .ok ({ s with out := s.out ++ text, taken := d.taken + 1 }, rest)
        | none =>
            if c = 0x6E then
              .ok ({ s with
                taken := d.taken + 1,
                stores := s.stores ++ [(arg, s.out.length)] }, rest)
            else if c = 0x25 then
              .ok ({ s with out := s.out ++ [c], taken := d.taken }, rest)
            else if c = 0 then
              .ok ({ s with out := s.out ++ [0x25], taken := d.taken }, c :: rest)
            else
              .ok ({ s with out := s.out ++ [0x25, c], taken := d.taken }, rest)

/-- The loop of `vsprintf`. -/
def formatLoop (va : VaList) :
    Nat → List UInt8 → Formatted → Except Formatted Formatted
  | 0, _, s => .ok s
  | _ + 1, [], s => .ok s
  | fuel + 1, c :: rest, s =>
      if c = 0 then .ok s
      else if c = 0x25 then do
        let (s, rest) ← convert va (readDirective va rest s.taken) s
        formatLoop va fuel rest s
      else formatLoop va fuel rest { s with out := s.out ++ [c] }

/-- `vsprintf`; every round takes a character of the format. -/
def vsprintf (va : VaList) (fmt : List UInt8) : Except Formatted Formatted :=
  formatLoop va fmt.length fmt ⟨[], 0, []⟩

/-- The characters `console_write` hands to `console_put`. -/
def consoleWrite (buf : List UInt8) : List UInt8 := buf.takeWhile (· ≠ 0)

/-- A call of `kprintf` or `panic`: what lies in `buf` when `vsprintf`
returns, what the console gets and the arguments read and written to. -/
structure Printed where
  buf : List UInt8
  console : List UInt8
  taken : Nat
  stores : List (UInt32 × Nat)
  ret : Nat
deriving Repr, DecidableEq

/-- `"kprintf has a error!"` -/
def kprintfError : List UInt8 :=
  [0x6B, 0x70, 0x72, 0x69, 0x6E, 0x74, 0x66, 0x20, 0x68, 0x61, 0x73, 0x20,
   0x61, 0x20, 0x65, 0x72, 0x72, 0x6F, 0x72, 0x21]

/-- `"panic has an error!"` -/
def panicError : List UInt8 :=
  [0x70, 0x61, 0x6E, 0x69, 0x63, 0x20, 0x68, 0x61, 0x73, 0x20, 0x61, 0x6E,
   0x20, 0x65, 0x72, 0x72, 0x6F, 0x72, 0x21]

/-- The common part of the two, with the text for an empty result. -/
def printWith (error : List UInt8) (va : VaList) (fmt : List UInt8) :
    Except Formatted Printed := do
  let s ← vsprintf va fmt
  let buf := s.out ++ [0]
  .ok ⟨buf, if s.out = [] then error else consoleWrite buf, s.taken, s.stores,
    s.out.length⟩

def kprintf (va : VaList) (fmt : List UInt8) : Except Formatted Printed :=
  printWith kprintfError va fmt

/-- `panic` up to the loop it ends in. -/
def panic (va : VaList) (fmt : List UInt8) : Except Formatted Printed :=
  printWith panicError va fmt

/-- The size of `buf` in both. -/
def printBuffer : Nat := 1024

end Linda
