/-
The keyboard driver of kbd.c: the shift state behind `kbd_read` and the tables
of kbd.h, against the events a sequence of scan codes stands for.
-/
import Mathlib.Data.Nat.Bitwise
import Mathlib.Data.List.Induction
import Mathlib.Tactic.Common

namespace Linda

def kbsDib : Nat := 0x01

def shiftKey : Nat := 1 <<< 0
def ctlKey : Nat := 1 <<< 1
def altKey : Nat := 1 <<< 2
def capsLock : Nat := 1 <<< 3
def numLock : Nat := 1 <<< 4
def scrollLock : Nat := 1 <<< 5
def e0Esc : Nat := 1 <<< 6

def shiftcode : Nat → Nat
  | 0x1D => ctlKey
  | 0x2A => shiftKey
  | 0x36 => shiftKey
  | 0x38 => altKey
  | 0x9D => ctlKey
  | 0xB8 => altKey
  | _ => 0

def togglecode : Nat → Nat
  | 0x3A => capsLock
  | 0x45 => numLock
  | 0x46 => scrollLock
  | _ => 0

def normalRows : List Nat :=
  [0x00, 0x1B, 0x31, 0x32, 0x33, 0x34, 0x35, 0x36,
   0x37, 0x38, 0x39, 0x30, 0x2D, 0x3D, 0x08, 0x09,
   0x71, 0x77, 0x65, 0x72, 0x74, 0x79, 0x75, 0x69,
   0x6F, 0x70, 0x5B, 0x5D, 0x0A, 0x00, 0x61, 0x73,
   0x64, 0x66, 0x67, 0x68, 0x6A, 0x6B, 0x6C, 0x3B,
   0x27, 0x60, 0x00, 0x5C, 0x7A, 0x78, 0x63, 0x76,
   0x62, 0x6E, 0x6D, 0x2C, 0x2E, 0x2F, 0x00, 0x2A,
   0x00, 0x20, 0x00, 0x00, 0x00, 0x00, 0x00, 0x00,
   0x00, 0x00, 0x00, 0x00, 0x00, 0x00, 0x00, 0x37,
   0x38, 0x39, 0x2D, 0x34, 0x35, 0x36, 0x2B, 0x31,
   0x32, 0x33, 0x30, 0x2E]

def shiftRows : List Nat :=
  [0x00, 0x1B, 0x21, 0x40, 0x23, 0x24, 0x25, 0x5E,
   0x26, 0x2A, 0x28, 0x29, 0x5F, 0x2B, 0x08, 0x09,
   0x51, 0x57, 0x45, 0x52, 0x54, 0x59, 0x55, 0x49,
   0x4F, 0x50, 0x7B, 0x7D, 0x0A, 0x00, 0x41, 0x53,
   0x44, 0x46, 0x47, 0x48, 0x4A, 0x4B, 0x4C, 0x3A,
   0x22, 0x7E, 0x00, 0x7C, 0x5A, 0x58, 0x43, 0x56,
   0x42, 0x4E, 0x4D, 0x3C, 0x3E, 0x3F, 0x00, 0x2A,
   0x00, 0x20, 0x00, 0x00, 0x00, 0x00, 0x00, 0x00,
   0x00, 0x00, 0x00, 0x00, 0x00, 0x00, 0x00, 0x37,
   0x38, 0x39, 0x2D, 0x34, 0x35, 0x36, 0x2B, 0x31,
   0x32, 0x33, 0x30, 0x2E]

/-- The entries are `C(x)`, a letter less `@`, as an `unsigned char`. -/
def ctlRows : List Nat :=
  [0x00, 0x00, 0x00, 0x00, 0x00, 0x00, 0x00, 0x00,
   0x00, 0x00, 0x00, 0x00, 0x00, 0x00, 0x00, 0x00,
   0x11, 0x17, 0x05, 0x12, 0x14, 0x19, 0x15, 0x09,
   0x0F, 0x10, 0x00, 0x00, 0x0D, 0x00, 0x01, 0x13,
   0x04, 0x06, 0x07, 0x08, 0x0A, 0x0B, 0x0C, 0x00,
   0x00, 0x00, 0x00, 0x1C, 0x1A, 0x18, 0x03, 0x16,
   0x02, 0x0E, 0x0D, 0x00, 0x00, 0xEF]

/-- The keys behind the prefix, the same in every map. -/
def cursorKey : Nat → Option Nat
  | 0xC8 => some 0xE2
  | 0xD0 => some 0xE3
  | 0xC9 => some 0xE6
  | 0xD1 => some 0xE7
  | 0xCB => some 0xE4
  | 0xCD => some 0xE5
  | 0x97 => some 0xE0
  | 0xCF => some 0xE1
  | 0xD2 => some 0xE8
  | 0xD3 => some 0xE9
  | _ => none

def keymap (rows : List Nat) (enter div data : Nat) : Nat :=
  if data = 0x9C then enter
  else if data = 0xB5 then div
  else (cursorKey data).getD (rows.getD data 0)

def normalmap : Nat → Nat := keymap normalRows 0x0A 0x2F
def shiftmap : Nat → Nat := keymap shiftRows 0x0A 0x2F
def ctlmap : Nat → Nat := keymap ctlRows 0x0D 0xEF

/-- `charcode[shift & (CTL|SHIFT)]` -/
def charcode : Nat → Nat → Nat
  | 0 => normalmap
  | 1 => shiftmap
  | _ => ctlmap

/-- `~x` for a 32-bit word. -/
def not32 (x : Nat) : Nat := 4294967295 ^^^ x

/-- `~E0ESC`: the macro has no parentheses, so `~` takes its `1` alone. -/
def notE0Esc : Nat := not32 1 <<< 6 % 4294967296

def swapCase (ch : Nat) : Nat :=
  if 0x61 ≤ ch ∧ ch ≤ 0x7A then ch - 32
  else if 0x41 ≤ ch ∧ ch ≤ 0x5A then ch + 32
  else ch

/-- `kbd_read` with `st` and `data` on its ports: what it returns and the
shift state it leaves. -/
def kbdRead (shift st data : Nat) : Int × Nat :=
  if st &&& kbsDib = 0 then (-1, shift)
  else if data = 0xE0 then (0, shift ||| e0Esc)
  else if data &&& 0x80 ≠ 0 then
    let data := if shift &&& e0Esc ≠ 0 then data else data &&& 0x7F
    (0, shift &&& not32 (shiftcode data ||| e0Esc))
  else
    let (data, shift) :=
      if shift &&& e0Esc ≠ 0 then (data ||| 0x80, shift &&& notE0Esc)
      else (data, shift)
    let shift := shift ||| shiftcode data
    let shift := shift ^^^ togglecode data
    let ch := charcode (shift &&& (ctlKey ||| shiftKey)) data
    (if shift &&& capsLock ≠ 0 then swapCase ch else ch, shift)

/-- The shift state after `bytes` were delivered, each found in the buffer. -/
def shiftState (bytes : List UInt8) : Nat :=
  bytes.foldl (fun shift data => (kbdRead shift kbsDib data.toNat).2) 0

/-- A key made or broken. -/
structure KeyEvent where
  key : Nat
  make : Bool
deriving Repr, DecidableEq

/-- What a sequence of bytes stands for: whether a prefix is pending, and the
events so far, the latest first. -/
structure ScanState where
  prefixed : Bool
  events : List KeyEvent
deriving Repr, DecidableEq

def ScanState.scan (state : ScanState) (byte : UInt8) : ScanState :=
  if byte.toNat = 0xE0 then { state with prefixed := true }
  else if byte.toNat < 0x80 then
    let key := if state.prefixed then byte.toNat + 0x80 else byte.toNat
    ⟨false, ⟨key, true⟩ :: state.events⟩
  else
    let key := if state.prefixed then byte.toNat else byte.toNat - 0x80
    ⟨false, ⟨key, false⟩ :: state.events⟩

def scanned (bytes : List UInt8) : ScanState :=
  bytes.foldl ScanState.scan ⟨false, []⟩

/-- The latest event among the keys of the modifier was a make. -/
def held (bit : Nat) (events : List KeyEvent) : Bool :=
  (events.find? fun event => (shiftcode event.key).testBit bit).any
    KeyEvent.make

/-- The lock has been made an odd number of times. -/
def locked (bit : Nat) (events : List KeyEvent) : Bool :=
  (events.countP fun event =>
    event.make && (togglecode event.key).testBit bit) % 2 = 1

/-- What the bit of the shift state stands for: the first three are modifiers,
the next three locks. -/
def modifier (bit : Nat) (events : List KeyEvent) : Bool :=
  if bit < 3 then held bit events else locked bit events

/-- After every complete scan code the shift state is the modifiers'. -/
def TracksModifiers (bytes : List UInt8) : Prop :=
  ∀ pre post, bytes = pre ++ post → (scanned pre).prefixed = false →
    ∀ bit < 6, (shiftState pre).testBit bit = modifier bit (scanned pre).events

/-- A prefixed key is made only while no lock is on and no modifier but the
key's own is held. -/
def PrefixedMakesAlone (bytes : List UInt8) : Prop :=
  ∀ pre byte post, bytes = pre ++ byte :: post →
    (scanned pre).prefixed = true → byte.toNat < 0x80 →
      ∀ bit < 6, modifier bit (scanned pre).events = true →
        (shiftcode (byte.toNat + 0x80)).testBit bit = true

theorem shiftState_snoc (bytes : List UInt8) (byte : UInt8) :
    shiftState (bytes ++ [byte]) =
      (kbdRead (shiftState bytes) kbsDib byte.toNat).2 := by
  simp [shiftState]

theorem scanned_snoc (bytes : List UInt8) (byte : UInt8) :
    scanned (bytes ++ [byte]) = (scanned bytes).scan byte := by
  simp [scanned]

section Scanning

variable {state : ScanState} {byte : UInt8}

theorem scan_escape (hbyte : byte.toNat = 0xE0) :
    state.scan byte = ⟨true, state.events⟩ := by
  rw [ScanState.scan, if_pos hbyte]

theorem scan_made (hbyte : byte.toNat < 0x80) :
    state.scan byte =
      ⟨false, ⟨if state.prefixed then byte.toNat + 0x80 else byte.toNat, true⟩
        :: state.events⟩ := by
  have hne : byte.toNat ≠ 0xE0 := by omega
  rw [ScanState.scan, if_neg hne, if_pos hbyte]

theorem scan_broken (hbyte : 0x80 ≤ byte.toNat) (hne : byte.toNat ≠ 0xE0) :
    state.scan byte =
      ⟨false, ⟨if state.prefixed then byte.toNat else byte.toNat - 0x80, false⟩
        :: state.events⟩ := by
  rw [ScanState.scan, if_neg hne, if_neg (Nat.not_lt.mpr hbyte)]

/-- A byte is the prefix, makes a key or breaks one. -/
theorem byte_cases (byte : UInt8) :
    byte.toNat = 0xE0 ∨ byte.toNat < 0x80 ∨
      (0x80 ≤ byte.toNat ∧ byte.toNat ≠ 0xE0) := by
  omega

end Scanning

section Bits

variable {shift key bit : Nat}

/-- The modifier bits are the first three. -/
theorem shiftcode_testBit (hbit : (shiftcode key).testBit bit = true) :
    bit < 3 := by
  unfold shiftcode at hbit
  split at hbit
  all_goals simp only [shiftKey, ctlKey, altKey, Nat.one_shiftLeft,
    Nat.testBit_two_pow, decide_eq_true_eq, Nat.zero_testBit,
    Bool.false_eq_true] at hbit
  all_goals omega

/-- The lock bits are the next three. -/
theorem togglecode_testBit (hbit : (togglecode key).testBit bit = true) :
    3 ≤ bit ∧ bit < 6 := by
  unfold togglecode at hbit
  split at hbit
  all_goals simp only [capsLock, numLock, scrollLock, Nat.one_shiftLeft,
    Nat.testBit_two_pow, decide_eq_true_eq, Nat.zero_testBit,
    Bool.false_eq_true] at hbit
  all_goals omega

theorem togglecode_prefixed (hkey : 0x80 ≤ key) : togglecode key = 0 := by
  unfold togglecode
  split
  all_goals first | rfl | omega

theorem e0Esc_testBit (bit : Nat) : e0Esc.testBit bit = decide (bit = 6) := by
  rw [e0Esc, Nat.one_shiftLeft, Nat.testBit_two_pow]
  simp only [eq_comm]

theorem and_e0Esc (shift : Nat) :
    shift &&& e0Esc ≠ 0 ↔ shift.testBit 6 = true := by
  constructor
  · intro hne
    by_contra hbit
    apply hne
    apply Nat.eq_of_testBit_eq
    intro i
    rw [Nat.testBit_and, e0Esc_testBit, Nat.zero_testBit]
    by_cases hi : i = 6
    · subst hi
      rw [Bool.eq_false_iff.mpr hbit, Bool.false_and]
    · simp [hi]
  · intro hbit hzero
    have hand : (shift &&& e0Esc).testBit 6 = true := by
      rw [Nat.testBit_and, hbit, e0Esc_testBit]
      rfl
    rw [hzero] at hand
    simp at hand

theorem not32_testBit {x : Nat} (hbit : bit < 32) :
    (not32 x).testBit bit = !x.testBit bit := by
  have hones : (4294967295 : Nat) = 2 ^ 32 - 1 := rfl
  rw [not32, Nat.testBit_xor, hones, Nat.testBit_two_pow_sub_one,
    decide_eq_true hbit, Bool.true_xor]

/-- The unparenthesised mask clears the modifiers and the locks too. -/
theorem notE0Esc_testBit (hbit : bit < 7) : notE0Esc.testBit bit = false := by
  have hall : ∀ bit < 7, notE0Esc.testBit bit = false := by decide
  exact hall bit hbit

/-- A key made: its modifier is set and its lock turned over. -/
theorem made_testBit (shift key bit : Nat) :
    ((shift ||| shiftcode key) ^^^ togglecode key).testBit bit =
      ((shift.testBit bit || (shiftcode key).testBit bit) ^^
        (togglecode key).testBit bit) := by
  rw [Nat.testBit_xor, Nat.testBit_or]

/-- A key broken: its modifier is cleared. -/
theorem broken_testBit (shift key : Nat) (hbit : bit < 32) :
    (shift &&& not32 (shiftcode key ||| e0Esc)).testBit bit =
      (shift.testBit bit && !((shiftcode key).testBit bit || bit = 6)) := by
  rw [Nat.testBit_and, not32_testBit hbit, Nat.testBit_or, e0Esc_testBit]

end Bits

section Reading

variable {shift : Nat} {byte : UInt8}

theorem kbdRead_escape (shift : Nat) (hbyte : byte.toNat = 0xE0) :
    (kbdRead shift kbsDib byte.toNat).2 = shift ||| e0Esc := by
  have hst : ¬ kbsDib &&& kbsDib = 0 := by decide
  simp only [kbdRead, hst, ↓reduceIte, hbyte]

theorem kbdRead_broken (hbyte : 0x80 ≤ byte.toNat) (hne : byte.toNat ≠ 0xE0) :
    (kbdRead shift kbsDib byte.toNat).2 =
      shift &&& not32 (shiftcode
        (if shift.testBit 6 then byte.toNat else byte.toNat - 0x80) |||
          e0Esc) := by
  have hst : ¬ kbsDib &&& kbsDib = 0 := by decide
  have hbits : ∀ n < 256, 0x80 ≤ n → n &&& 0x80 ≠ 0 ∧ n &&& 0x7F = n - 0x80 := by
    decide +kernel
  obtain ⟨hhigh, hlow⟩ := hbits _ byte.toNat_lt hbyte
  simp only [kbdRead, hst, ↓reduceIte, hne, hhigh, ne_eq, not_false_eq_true,
    hlow, ← and_e0Esc]

theorem kbdRead_made (hbyte : byte.toNat < 0x80) :
    (kbdRead shift kbsDib byte.toNat).2 =
      if shift.testBit 6 then
        ((shift &&& notE0Esc) ||| shiftcode (byte.toNat + 0x80)) ^^^
          togglecode (byte.toNat + 0x80)
      else (shift ||| shiftcode byte.toNat) ^^^ togglecode byte.toNat := by
  have hst : ¬ kbsDib &&& kbsDib = 0 := by decide
  have hne : byte.toNat ≠ 0xE0 := by omega
  have hbits : ∀ n < 256, n < 0x80 → n &&& 0x80 = 0 ∧ n ||| 0x80 = n + 0x80 := by
    decide +kernel
  obtain ⟨hhigh, hlow⟩ := hbits _ byte.toNat_lt hbyte
  simp only [kbdRead, hst, ↓reduceIte, hne, hhigh, ne_eq, not_true_eq_false,
    hlow, ← and_e0Esc]
  split_ifs <;> rfl

end Reading

section Modifiers

variable {bit : Nat}

theorem held_cons (bit key : Nat) (make : Bool) (events : List KeyEvent) :
    held bit (⟨key, make⟩ :: events) =
      if (shiftcode key).testBit bit then make else held bit events := by
  simp only [held, List.find?_cons]
  cases (shiftcode key).testBit bit <;> rfl

theorem locked_cons (bit key : Nat) (make : Bool) (events : List KeyEvent) :
    locked bit (⟨key, make⟩ :: events) =
      (locked bit events ^^ (make && (togglecode key).testBit bit)) := by
  simp only [locked, List.countP_cons]
  cases make && (togglecode key).testBit bit with
  | false => simp
  | true =>
      simp only [↓reduceIte, Bool.xor_true]
      rw [← decide_not, decide_eq_decide]
      omega

/-- A make sets the key's modifier and turns its lock over; a break clears the
modifier. -/
theorem modifier_cons (hbit : bit < 6) (key : Nat) (make : Bool)
    (events : List KeyEvent) :
    modifier bit (⟨key, make⟩ :: events) =
      if make then
        ((modifier bit events || (shiftcode key).testBit bit) ^^
          (togglecode key).testBit bit)
      else modifier bit events && !(shiftcode key).testBit bit := by
  by_cases hlow : bit < 3
  · have htoggle : (togglecode key).testBit bit = false := by
      by_contra hset
      have hrange := togglecode_testBit (Bool.not_eq_false _ ▸ hset)
      omega
    rw [modifier, if_pos hlow, held_cons, htoggle, modifier, if_pos hlow]
    cases (shiftcode key).testBit bit <;> cases make <;> simp
  · have hshift : (shiftcode key).testBit bit = false := by
      by_contra hset
      exact hlow (shiftcode_testBit (Bool.not_eq_false _ ▸ hset))
    rw [modifier, if_neg hlow, locked_cons, hshift, modifier, if_neg hlow]
    cases make <;> simp

/-- The shift state is the modifiers'. -/
def ModifiersMatch (bytes : List UInt8) : Prop :=
  ∀ bit < 6, (shiftState bytes).testBit bit =
    modifier bit (scanned bytes).events

/-- No key moves the prefix flag. -/
theorem shiftcode_flag (key : Nat) : (shiftcode key).testBit 6 = false := by
  by_contra hset
  have hlow := shiftcode_testBit (Bool.not_eq_false _ ▸ hset)
  omega

theorem togglecode_flag (key : Nat) : (togglecode key).testBit 6 = false := by
  by_contra hset
  have hlow := togglecode_testBit (Bool.not_eq_false _ ▸ hset)
  omega

/-- The prefix flag is up exactly while a prefix is pending. -/
theorem shiftState_prefixed (bytes : List UInt8) :
    (shiftState bytes).testBit 6 = (scanned bytes).prefixed := by
  induction bytes using List.reverseRecOn with
  | nil => rfl
  | append_singleton bytes byte ih =>
      rw [shiftState_snoc, scanned_snoc]
      rcases byte_cases byte with hescape | hmade | ⟨hbroken, hne⟩
      · rw [scan_escape hescape, kbdRead_escape _ hescape, Nat.testBit_or,
          e0Esc_testBit, decide_eq_true rfl, Bool.or_true]
      · rw [scan_made hmade, kbdRead_made hmade]
        cases hpending : (shiftState bytes).testBit 6 with
        | true =>
            rw [if_pos rfl, made_testBit, Nat.testBit_and,
              notE0Esc_testBit (by omega), shiftcode_flag, togglecode_flag,
              Bool.and_false]
            rfl
        | false =>
            rw [if_neg Bool.false_ne_true, made_testBit, hpending,
              shiftcode_flag, togglecode_flag]
            rfl
      · rw [scan_broken hbroken hne, kbdRead_broken hbroken hne,
          broken_testBit _ _ (by omega), decide_eq_true rfl, Bool.or_true]
        apply Bool.and_false

/-- One more byte: only a prefixed make can part the two. -/
theorem modifiersMatch_snoc {bytes : List UInt8} (h : ModifiersMatch bytes)
    (byte : UInt8) :
    ModifiersMatch (bytes ++ [byte]) ↔
      ((scanned bytes).prefixed = true → byte.toNat < 0x80 → ∀ bit < 6,
        modifier bit (scanned bytes).events = true →
          (shiftcode (byte.toNat + 0x80)).testBit bit = true) := by
  have hpending := shiftState_prefixed bytes
  unfold ModifiersMatch
  rw [shiftState_snoc, scanned_snoc]
  rcases byte_cases byte with hescape | hmade | ⟨hbroken, hne⟩
  · rw [scan_escape hescape, kbdRead_escape _ hescape]
    have hlarge : ¬ byte.toNat < 0x80 := by omega
    simp only [hlarge, false_implies, implies_true, iff_true]
    intro bit hbit
    have hflag : bit ≠ 6 := by omega
    rw [Nat.testBit_or, e0Esc_testBit, h bit hbit, decide_eq_false hflag,
      Bool.or_false]
  · rw [scan_made hmade, kbdRead_made hmade, hpending]
    cases (scanned bytes).prefixed with
    | false =>
        simp only [Bool.false_eq_true, ↓reduceIte, false_implies, iff_true]
        intro bit hbit
        rw [made_testBit, modifier_cons hbit, if_pos rfl, h bit hbit]
    | true =>
        simp only [↓reduceIte, hmade, forall_const]
        apply forall_congr'
        intro bit
        apply imp_congr_right
        intro hbit
        have htoggle : (togglecode (byte.toNat + 0x80)).testBit bit = false := by
          rw [togglecode_prefixed (by omega), Nat.zero_testBit]
        rw [made_testBit, Nat.testBit_and, notE0Esc_testBit (by omega),
          modifier_cons hbit, if_pos rfl, htoggle]
        cases modifier bit (scanned bytes).events <;>
          cases (shiftcode (byte.toNat + 0x80)).testBit bit <;> simp
  · rw [scan_broken hbroken hne, kbdRead_broken hbroken hne, hpending]
    have hlarge : ¬ byte.toNat < 0x80 := by omega
    simp only [hlarge, false_implies, implies_true, iff_true]
    intro bit hbit
    have hflag : bit ≠ 6 := by omega
    rw [broken_testBit _ _ (by omega), modifier_cons hbit, h bit hbit,
      decide_eq_false hflag, Bool.or_false, if_neg Bool.false_ne_true]

theorem modifiersMatch_nil : ModifiersMatch [] := by
  intro bit hbit
  simp [shiftState, scanned, modifier, held, locked]

/-- The modifiers are tracked on exactly the sequences in which every prefixed
key is made alone. -/
theorem tracksModifiers_iff (bytes : List UInt8) :
    TracksModifiers bytes ↔ PrefixedMakesAlone bytes := by
  constructor
  · intro htracks
    -- between complete codes only the prefix flag changes
    have hall : ∀ pre post, bytes = pre ++ post → ModifiersMatch pre := by
      intro pre
      induction pre using List.reverseRecOn with
      | nil => exact fun _ _ => modifiersMatch_nil
      | append_singleton pre byte ih =>
          intro post hsplit
          cases hpre : (scanned (pre ++ [byte])).prefixed with
          | false => exact htracks _ post hsplit hpre
          | true =>
              have hbefore : ModifiersMatch pre :=
                ih (byte :: post) (by simpa using hsplit)
              rw [modifiersMatch_snoc hbefore]
              intro _ hmade
              rw [scanned_snoc, scan_made hmade] at hpre
              exact absurd hpre Bool.false_ne_true
    intro pre byte post hsplit
    have hbefore : ModifiersMatch pre := hall pre _ hsplit
    have hafter : ModifiersMatch (pre ++ [byte]) :=
      hall _ post (by simpa using hsplit)
    exact (modifiersMatch_snoc hbefore byte).mp hafter
  · intro halone
    have hall : ∀ pre post, bytes = pre ++ post → ModifiersMatch pre := by
      intro pre
      induction pre using List.reverseRecOn with
      | nil => exact fun _ _ => modifiersMatch_nil
      | append_singleton pre byte ih =>
          intro post hsplit
          have hsplit' : bytes = pre ++ byte :: post := by simpa using hsplit
          apply (modifiersMatch_snoc (ih _ hsplit') byte).mpr
          exact halone pre byte post hsplit'
    intro pre post hsplit _
    exact hall pre post hsplit

end Modifiers

/-- Shift held, then the up arrow: the shift is forgotten. -/
theorem shift_lost_with_arrow : ¬ TracksModifiers [0x2A, 0xE0, 0x48] := by
  intro htracks
  have hlost := htracks [0x2A, 0xE0, 0x48] [] rfl (by decide) 0 (by decide)
  exact absurd hlost (by decide)

end Linda
