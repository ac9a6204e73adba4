/-
From the keyboard to the screen: `kbd_trap_handler` run for each byte of a
sequence of scan codes.
-/
import Linda.ConsoleLayout
import Linda.KeyboardCharacters

namespace Linda

open Layout

/-- A run of `kbd_trap_handler`, each time with a byte in the buffer. -/
def typeKeys (bytes : List UInt8) (r : Console × Nat) : Console × Nat :=
  bytes.foldl (fun r byte => kbdTrapHandler r.2 kbsDib byte.toNat r.1) r

/-- The characters of the bytes, one each. -/
def characters : ScanState → List UInt8 → List UInt8
  | _, [] => []
  | state, byte :: bytes =>
      UInt8.ofInt (typed state byte) :: characters (state.scan byte) bytes

/-- What the bytes type. -/
def typedText (bytes : List UInt8) : List UInt8 :=
  (characters ⟨false, []⟩ bytes).filter fun c => decide (Textual c)

section Characters

variable {key : Nat} {state : ScanState} {byte : UInt8}

theorem maps_bound : ∀ key < 256,
    normalmap key < 0xFF ∧ shiftmap key < 0xFF ∧ ctlmap key < 0xFF := by
  decide +kernel

theorem keyCharacter_lt (hkey : key < 256) (events : List KeyEvent) :
    keyCharacter key events < 0xFF := by
  obtain ⟨hnormal, hshift, hctl⟩ := maps_bound key hkey
  simp only [keyCharacter]
  split_ifs <;> omega

/-- No byte is taken for the absence of one. -/
theorem typed_ne (state : ScanState) (byte : UInt8) :
    UInt8.ofInt (typed state byte) ≠ 0xFF := by
  rw [typed]
  by_cases hmade : byte.toNat < 0x80
  · have hkey : (if state.prefixed then byte.toNat + 0x80 else byte.toNat) <
        256 := by
      split_ifs <;> omega
    rw [if_pos hmade, scan_made hmade, List.head?_cons, Option.elim_some]
    dsimp only
    generalize (⟨_, true⟩ :: state.events : List KeyEvent) = events
    have hlt := keyCharacter_lt hkey events
    generalize keyCharacter _ events = ch at hlt
    intro heq
    have hch : ((ch : Int) % 2 ^ 8).toNat = ch := by omega
    have hnat := congrArg UInt8.toNat heq
    rw [UInt8.ofInt, hch, UInt8.toNat_ofNat', Nat.mod_eq_of_lt (by omega)]
      at hnat
    exact absurd hnat (Nat.ne_of_lt hlt)
  · rw [if_neg hmade]
    decide

end Characters

section Typing

variable {edge : Nat → UInt16} {s : Console} {l : Layout} {bytes : List UInt8}

/-- A character without a place on the screen changes nothing there. -/
theorem Shows.put_other {c : UInt8} (h : Console.Shows edge s l)
    (hwidth : l.line.length ≤ 78) (htext : ¬ Textual c) (hback : c ≠ 0x08) :
    Console.Shows edge (s.put c) l := by
  simp only [Textual, not_or] at htext
  obtain ⟨hnewline, htab, hprint⟩ := htext
  have hadvance : Console.advance c s = s := by
    simp only [Console.advance]
    rw [if_neg hnewline, if_neg hback, if_neg htab, if_neg hprint]
  have hx := h.x
  have hy := h.y_le
  have hwrap : s.wrap = s := by
    have hcolumns : (tmlColumns : Int) - 1 = 79 := rfl
    rw [Console.wrap, hcolumns, if_neg (by omega)]
  have hscroll : s.scroll = s := by
    have hrows : (tmlRows : Int) - 1 = 24 := rfl
    rw [Console.scroll, hrows, if_neg (by omega)]
  rw [Console.put, hadvance, hwrap, hscroll]
  exact ⟨h.x, h.y, h.below, h.scrolled, h.rows⟩

theorem kbdTrapHandler_types {pre : List UInt8} {byte : UInt8}
    (hmatch : ModifiersMatch (pre ++ [byte])) (s : Console) :
    kbdTrapHandler (shiftState pre) kbsDib byte.toNat s =
      (s.put (UInt8.ofInt (typed (scanned pre) byte)),
        shiftState (pre ++ [byte])) := by
  simp only [kbdTrapHandler]
  rw [kbdRead_typed hmatch, if_pos (typed_ne _ _), shiftState_snoc]

theorem typeKeys_shows {pre post : List UInt8}
    (halone : PrefixedMakesAlone bytes) (hsplit : bytes = pre ++ post)
    (hback : 0x08 ∉ characters (scanned pre) post)
    (h : Console.Shows edge s l) (hwidth : l.line.length ≤ 78) :
    Console.Shows edge (typeKeys post (s, shiftState pre)).1
      (((characters (scanned pre) post).filter
        fun c => decide (Textual c)).foldl Layout.put l) := by
  induction post generalizing pre s l with
  | nil => exact h
  | cons byte post ih =>
      have hsplit' : bytes = (pre ++ [byte]) ++ post := by simpa using hsplit
      have hhandler := kbdTrapHandler_types
        (modifiersMatch_of_alone halone hsplit') s
      rw [characters, List.mem_cons, not_or] at hback
      obtain ⟨hne, hrest⟩ := hback
      rw [← scanned_snoc] at hrest
      have hstep : typeKeys (byte :: post) (s, shiftState pre) =
          typeKeys post (kbdTrapHandler (shiftState pre) kbsDib byte.toNat s) :=
        rfl
      rw [hstep, hhandler, characters, ← scanned_snoc]
      by_cases htext : Textual (UInt8.ofInt (typed (scanned pre) byte))
      · obtain ⟨hput, hwidth'⟩ := h.put hwidth htext
        rw [List.filter_cons_of_pos (by simpa using htext), List.foldl_cons]
        exact ih hsplit' hrest hput hwidth'
      · have hput := Shows.put_other h hwidth htext (Ne.symm hne)
        rw [List.filter_cons_of_neg (by simpa using htext)]
        exact ih hsplit' hrest hput hwidth

/-- What is typed after `console_clear`, without a backspace, is shown: each
key's character by its modifiers, in lines of the screen. -/
theorem typeKeys_showsText (s : Console) (halone : PrefixedMakesAlone bytes)
    (hback : 0x08 ∉ characters ⟨false, []⟩ bytes)
    (hlines : (ofText (typedText bytes)).lines.length ≤ 24) :
    ∀ row < tmlRows, ∀ col < tmlColumns,
      (typeKeys bytes (s.clear, 0)).1.screen row col =
        (ofText (typedText bytes)).cell row col := by
  have hsplit : bytes = [] ++ bytes := rfl
  have hshows := typeKeys_shows halone hsplit hback (Console.shows_clear s)
    (Nat.zero_le _)
  exact hshows.screen_iff.mpr (.inl hlines)

/-- Shift and `a`, the `b` key, then the enter key. -/
theorem typeKeys_showsText_ab : ∃ s : Console,
    s = (typeKeys [0x2A, 0x1E, 0xAA, 0x30, 0x1C] (Console.dark.clear, 0)).1 ∧
      ∀ row < tmlRows, ∀ col < tmlColumns, s.screen row col =
        (ofText (typedText [0x2A, 0x1E, 0xAA, 0x30, 0x1C])).cell row col :=
  ⟨_, rfl, typeKeys_showsText Console.dark (prefixedMakesAlone_plain rfl) (by decide)
    (by decide)⟩

end Typing

end Linda
