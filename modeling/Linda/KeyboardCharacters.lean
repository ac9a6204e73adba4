/-
The characters that `kbd_read` returns for the keys of a sequence of scan
codes, by the modifiers held and the locks on.
-/
import Linda.Keyboard

namespace Linda

def isLower (ch : Nat) : Bool := decide (0x61 ≤ ch ∧ ch ≤ 0x7A)

/-- The character of a key with the modifiers and the locks of `events`: the
shift key and the caps lock cancel out on a letter, and no lock changes another
key. -/
def keyCharacter (key : Nat) (events : List KeyEvent) : Nat :=
  let ctl := held 1 events
  let shift := held 0 events
  let caps := locked 3 events
  if isLower (normalmap key) then
    if ctl then normalmap key - 0x60
    else if shift != caps then normalmap key - 0x20
    else normalmap key
  else if ctl then ctlmap key
  else if shift then shiftmap key
  else normalmap key

/-- What a byte types: only a key made is a character. -/
def typed (before : ScanState) (byte : UInt8) : Int :=
  let after := before.scan byte
  if byte.toNat < 0x80 then
    (after.events.head?.elim 0 fun event => keyCharacter event.key after.events)
  else 0

section Maps

/-- The three maps agree on where the letters are. -/
theorem maps_letter : ∀ key < 256, isLower (normalmap key) = true →
    shiftmap key = normalmap key - 0x20 ∧
      ctlmap key = normalmap key - 0x60 := by
  decide +kernel

/-- The other keys have no letter in any of the maps. -/
theorem maps_other : ∀ key < 256, isLower (normalmap key) = false →
    swapCase (normalmap key) = normalmap key ∧
      swapCase (shiftmap key) = shiftmap key ∧
      swapCase (ctlmap key) = ctlmap key := by
  decide +kernel

theorem swapCase_lower {ch : Nat} (h : isLower ch = true) :
    swapCase ch = ch - 0x20 ∧ swapCase (ch - 0x20) = ch ∧
      swapCase (ch - 0x60) = ch - 0x60 := by
  have hrange := of_decide_eq_true h
  unfold swapCase
  refine ⟨if_pos hrange, ?_, ?_⟩
  · rw [if_neg (by omega), if_pos (by omega)]
    omega
  · rw [if_neg (by omega), if_neg (by omega)]

/-- The map chosen by the two lowest bits of the shift state. -/
theorem charcode_bits (shift : Nat) :
    charcode (shift &&& (ctlKey ||| shiftKey)) =
      if shift.testBit 1 then ctlmap
      else if shift.testBit 0 then shiftmap
      else normalmap := by
  have hlow : shift &&& (ctlKey ||| shiftKey) = shift % 4 := by
    have hmask : ctlKey ||| shiftKey = 2 ^ 2 - 1 := rfl
    rw [hmask, Nat.and_two_pow_sub_one_eq_mod]
  have hcases : ∀ low < 4, charcode low =
      if low.testBit 1 then ctlmap
      else if low.testBit 0 then shiftmap
      else normalmap := by
    intro low hlt
    have hlow : low = 0 ∨ low = 1 ∨ low = 2 ∨ low = 3 := by omega
    rcases hlow with rfl | rfl | rfl | rfl <;> rfl
  rw [hlow, hcases _ (Nat.mod_lt _ (by decide))]
  have hpow : (4 : Nat) = 2 ^ 2 := rfl
  rw [hpow, Nat.testBit_mod_two_pow, Nat.testBit_mod_two_pow]
  rfl

theorem and_capsLock (shift : Nat) :
    shift &&& capsLock ≠ 0 ↔ shift.testBit 3 = true := by
  have hcaps : capsLock = 2 ^ 3 := rfl
  rw [hcaps, Nat.and_two_pow]
  cases shift.testBit 3 <;> simp

end Maps

section Typing

variable {shift : Nat} {byte : UInt8}

/-- Only a key made returns a character. -/
theorem kbdRead_none (hbyte : 0x80 ≤ byte.toNat) :
    (kbdRead shift kbsDib byte.toNat).1 = 0 := by
  have hst : ¬ kbsDib &&& kbsDib = 0 := by decide
  have hbits : ∀ n < 256, 0x80 ≤ n → n &&& 0x80 ≠ 0 := by decide +kernel
  have hhigh := hbits _ byte.toNat_lt hbyte
  rw [kbdRead, if_neg hst]
  split_ifs <;> rfl

/-- The character is read off the shift state that the key leaves. -/
theorem kbdRead_character (hbyte : byte.toNat < 0x80) :
    (kbdRead shift kbsDib byte.toNat).1 =
      let key := if shift.testBit 6 then byte.toNat + 0x80 else byte.toNat
      let after := (kbdRead shift kbsDib byte.toNat).2
      let ch := charcode (after &&& (ctlKey ||| shiftKey)) key
      if after.testBit 3 then swapCase ch else ch := by
  have hst : ¬ kbsDib &&& kbsDib = 0 := by decide
  have hne : byte.toNat ≠ 0xE0 := by omega
  have hbits : ∀ n < 256, n < 0x80 → n &&& 0x80 = 0 ∧ n ||| 0x80 = n + 0x80 := by
    decide +kernel
  obtain ⟨hhigh, hlow⟩ := hbits _ byte.toNat_lt hbyte
  simp only [kbdRead, hst, ↓reduceIte, hne, hhigh, ne_eq, not_true_eq_false,
    hlow, ← and_e0Esc, ← and_capsLock]
  split_ifs <;> rfl

/-- A key's character with the bits of a shift state that matches the
modifiers. -/
theorem character_eq {after key : Nat} {events : List KeyEvent}
    (hkey : key < 256)
    (hmatch : ∀ bit < 6, after.testBit bit = modifier bit events) :
    (let ch := charcode (after &&& (ctlKey ||| shiftKey)) key
      if after.testBit 3 then swapCase ch else ch) =
      keyCharacter key events := by
  have hshift : after.testBit 0 = held 0 events := hmatch 0 (by decide)
  have hctl : after.testBit 1 = held 1 events := hmatch 1 (by decide)
  have hcaps : after.testBit 3 = locked 3 events := hmatch 3 (by decide)
  simp only [charcode_bits, hshift, hctl, hcaps, keyCharacter]
  cases hletter : isLower (normalmap key) with
  | true =>
      obtain ⟨hupper, hcontrol⟩ := maps_letter key hkey hletter
      obtain ⟨hup, hdown, hkeep⟩ := swapCase_lower hletter
      cases held 1 events <;> cases held 0 events <;> cases locked 3 events <;>
        simp [hupper, hcontrol, hup, hdown, hkeep]
  | false =>
      obtain ⟨hnormal, hupper, hcontrol⟩ := maps_other key hkey hletter
      cases held 1 events <;> cases held 0 events <;> cases locked 3 events <;>
        simp [hnormal, hupper, hcontrol]

/-- While the shift state matches the modifiers, a byte types its character. -/
theorem kbdRead_typed {bytes : List UInt8}
    (hafter : ModifiersMatch (bytes ++ [byte])) :
    (kbdRead (shiftState bytes) kbsDib byte.toNat).1 =
      typed (scanned bytes) byte := by
  have hpending := shiftState_prefixed bytes
  by_cases hmade : byte.toNat < 0x80
  · have hkey : (if (scanned bytes).prefixed then byte.toNat + 0x80
        else byte.toNat) < 256 := by
      split_ifs <;> omega
    have hmatch : ∀ bit < 6, (kbdRead (shiftState bytes) kbsDib
        byte.toNat).2.testBit bit =
          modifier bit ((scanned bytes).scan byte).events := by
      intro bit hbit
      rw [← shiftState_snoc, ← scanned_snoc]
      exact hafter bit hbit
    have hcharacter := character_eq hkey hmatch
    rw [kbdRead_character hmade, hpending, typed, if_pos hmade]
    simp only [hcharacter]
    rw [scan_made hmade]
    rfl
  · rw [kbdRead_none (Nat.not_lt.mp hmade), typed, if_neg hmade]

/-- Where prefixed keys are made alone, the shift state is the modifiers'
throughout. -/
theorem modifiersMatch_of_alone {bytes pre post : List UInt8}
    (halone : PrefixedMakesAlone bytes) (hsplit : bytes = pre ++ post) :
    ModifiersMatch pre := by
  induction pre using List.reverseRecOn generalizing post with
  | nil => exact modifiersMatch_nil
  | append_singleton pre byte ih =>
      have hsplit' : bytes = pre ++ byte :: post := by simpa using hsplit
      apply (modifiersMatch_snoc (ih hsplit') byte).mpr
      exact halone pre byte post hsplit'

/-- In every sequence of scan codes whose prefixed keys are made alone, each
byte returns the character that the modifiers held and the locks on give the
key it makes, and 0 where it makes none. -/
theorem kbdRead_types {bytes : List UInt8} (halone : PrefixedMakesAlone bytes)
    (pre post : List UInt8) (byte : UInt8)
    (hsplit : bytes = pre ++ byte :: post) :
    (kbdRead (shiftState pre) kbsDib byte.toNat).1 =
      typed (scanned pre) byte := by
  have hafter : bytes = (pre ++ [byte]) ++ post := by simpa using hsplit
  exact kbdRead_typed (modifiersMatch_of_alone halone hafter)

/-- Without a prefix there is no prefixed key. -/
theorem prefixedMakesAlone_plain {bytes : List UInt8}
    (hplain : (bytes.all fun byte => byte.toNat != 0xE0) = true) :
    PrefixedMakesAlone bytes := by
  intro pre byte post hsplit hpending
  have hpre : ∀ byte ∈ pre, byte.toNat ≠ 0xE0 := by
    intro byte hbyte
    have hmem : byte ∈ bytes := hsplit ▸ List.mem_append_left _ hbyte
    exact bne_iff_ne.mp (List.all_eq_true.mp hplain byte hmem)
  have hnone : (scanned pre).prefixed = false := by
    clear hsplit hpending
    induction pre using List.reverseRecOn with
    | nil => rfl
    | append_singleton pre byte _ =>
        have hne := hpre byte (by simp)
        rw [scanned_snoc]
        rcases byte_cases byte with hescape | hmade | ⟨hbroken, -⟩
        · exact absurd hescape hne
        · rw [scan_made hmade]
        · rw [scan_broken hbroken hne]
  rw [hnone] at hpending
  exact absurd hpending Bool.false_ne_true

theorem capsShift_alone : PrefixedMakesAlone [0x3A, 0x2A, 0x1E] :=
  prefixedMakesAlone_plain rfl

/-- Caps lock, shift and the `a` key: the `a` is a small one. -/
theorem kbdRead_types_capsShift :
    (kbdRead (shiftState [0x3A, 0x2A]) kbsDib (0x1E : UInt8).toNat).1 =
      typed (scanned [0x3A, 0x2A]) 0x1E :=
  kbdRead_types capsShift_alone [0x3A, 0x2A] [] 0x1E rfl

end Typing

end Linda
