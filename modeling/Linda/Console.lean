/-
The text console of console.c: characters go to a window of video memory that
scrolls, and the cursor follows them.
-/
import Linda.Keyboard
import Linda.Printf

namespace Linda

inductive VgaColor where
  | black
  | blue
  | green
  | cyan
  | red
  | magenta
  | brown
  | lightGrey
  | darkGrey
  | lightBlue
  | lightGreen
  | lightCyan
  | lightRed
  | lightMagenta
  | lightBrown
  | white
deriving Repr, DecidableEq

def VgaColor.code : VgaColor → UInt8
  | .black => 0
  | .blue => 1
  | .green => 2
  | .cyan => 3
  | .red => 4
  | .magenta => 5
  | .brown => 6
  | .lightGrey => 7
  | .darkGrey => 8
  | .lightBlue => 9
  | .lightGreen => 10
  | .lightCyan => 11
  | .lightRed => 12
  | .lightMagenta => 13
  | .lightBrown => 14
  | .white => 15

def tmlRows : Nat := 25
def tmlColumns : Nat := 80

/-- `console_fb` shows video memory to both sides of the screen.  `chars` are
the cells `console_put` wrote characters to since the screen was cleared, the
latest first; `cursor` is what the display was told. -/
structure Console where
  fb : Int → UInt16
  x : Int
  y : Int
  cursor : UInt16
  chars : List Int

def setCell (fb : Int → UInt16) (index : Int) (cell : UInt16) : Int → UInt16 :=
  fun i => if i = index then cell else fb i

namespace Console

/-- `console_setcolor` -/
def setcolor (cnt : UInt16) (fg bg : VgaColor) : UInt16 :=
  let color := fg.code ||| bg.code <<< 4
  cnt ||| color.toUInt16 <<< 8

/-- A cell that shows nothing. -/
def blank : UInt16 := setcolor 0x20 .lightGrey .black

/-- One assignment of the loops of `console_scroll`. -/
def scrollCell (row : Nat) (fb : Int → UInt16) (col : Nat) : Int → UInt16 :=
  setCell fb (row * tmlColumns + col) (fb ((row + 1) * tmlColumns + col))

def scrollRow (fb : Int → UInt16) (row : Nat) : Int → UInt16 :=
  (List.range tmlColumns).foldl (scrollCell row) fb

def scroll (s : Console) : Console :=
  if (tmlRows : Int) - 1 ≤ s.y then
    { s with
      fb := (List.range tmlRows).foldl scrollRow s.fb
      y := s.y - 1 }
  else s

/-- `console_move` -/
def move (s : Console) : Console :=
  { s with cursor := UInt16.ofInt (s.y * tmlColumns + s.x) }

/-- One assignment of the loops of `console_init` and `console_clear`. -/
def clearCell (row : Nat) (fb : Int → UInt16) (col : Nat) : Int → UInt16 :=
  setCell fb (row * tmlColumns + col) blank

def clearRow (fb : Int → UInt16) (row : Nat) : Int → UInt16 :=
  (List.range tmlColumns).foldl (clearCell row) fb

def cleared (fb : Int → UInt16) : Int → UInt16 :=
  (List.range tmlRows).foldl clearRow fb

def init (s : Console) : Console :=
  { s with fb := cleared s.fb, x := 0, y := 0, chars := [] }

def clear (s : Console) : Console :=
  move { s with fb := cleared s.fb, x := 0, y := 0, chars := [] }

/-- `(ushort_t)cnt` of a signed character. -/
def extend (cnt : UInt8) : UInt16 := cnt.toInt8.toInt16.toUInt16

/-- The `if` chain of `console_put`; a `char` is signed, and a negative one is
below the blank. -/
def advance (cnt : UInt8) (s : Console) : Console :=
  let index := s.y * tmlColumns + s.x
  if cnt = 0x0A then { s with y := s.y + 1, x := 0 }
  else if cnt = 0x08 then { s with x := s.x - 1 }
  else if cnt = 0x09 then { s with x := (s.x + 8) / 8 * 8 }
  else if 0x20 ≤ cnt.toInt8 then
    { s with
      fb := setCell s.fb index (setcolor (extend cnt) .lightGrey .black)
      x := s.x + 1
      chars := index :: s.chars }
  else s

def wrap (s : Console) : Console :=
  if (tmlColumns : Int) - 1 ≤ s.x then { s with y := s.y + 1, x := 0 } else s

/-- `console_put` -/
def put (s : Console) (cnt : UInt8) : Console :=
  move (scroll (wrap (advance cnt s)))

/-- `console_write` -/
def write (s : Console) (buf : List UInt8) : Console :=
  (consoleWrite buf).foldl put s

end Console

/-- The character a key gives goes to the console; -1 is no key. -/
def kbdTrapHandler (shift st data : Nat) (s : Console) : Console × Nat :=
  let (ch, shift) := kbdRead shift st data
  let ch := UInt8.ofInt ch
  (if ch ≠ 0xFF then s.put ch else s, shift)

/-- What is typed reaches the console one character at a time. -/
theorem kbdTrapHandler_put (shift st data : Nat) (s : Console) :
    ∃ cs : List UInt8, cs.length ≤ 1 ∧
      (kbdTrapHandler shift st data s).1 = cs.foldl Console.put s := by
  simp only [kbdTrapHandler]
  split_ifs with hkey
  · exact ⟨[_], le_rfl, rfl⟩
  · exact ⟨[], by decide, rfl⟩

namespace Console

/-- The cursor and all cells written to are on the screen. -/
structure OnScreen (s : Console) : Prop where
  x_lo : 0 ≤ s.x
  x_hi : s.x < tmlColumns
  y_lo : 0 ≤ s.y
  y_hi : s.y < tmlRows
  chars : ∀ i ∈ s.chars, 0 ≤ i ∧ i ≤ tmlRows * tmlColumns - 1

/-- The state before each character: no backspace comes in the first column. -/
def SparesEdge (s : Console) (cs : List UInt8) : Prop :=
  ∀ pre, pre ++ [0x08] <+: cs → (pre.foldl put s).x ≠ 0

/-- Where the cursor is after each character that `SparesEdge` allows. -/
structure Inside (s : Console) : Prop where
  x_lo : 0 ≤ s.x
  x_hi : s.x < 79
  y_lo : 0 ≤ s.y
  y_hi : s.y < 24
  chars : ∀ i ∈ s.chars, 0 ≤ i ∧ i ≤ 1999

theorem Inside.onScreen {s : Console} (h : s.Inside) : s.OnScreen where
  x_lo := h.x_lo
  x_hi := by
    have hx := h.x_hi
    simp only [tmlColumns]
    omega
  y_lo := h.y_lo
  y_hi := by
    have hy := h.y_hi
    simp only [tmlRows]
    omega
  chars i hi := by
    obtain ⟨hlo, hhi⟩ := h.chars i hi
    simp only [tmlRows, tmlColumns]
    omega

theorem init_inside (s : Console) : s.init.Inside where
  x_lo := le_rfl
  x_hi := show (0 : Int) < 79 by decide
  y_lo := le_rfl
  y_hi := show (0 : Int) < 24 by decide
  chars _ hi := by cases hi

theorem clear_inside (s : Console) : s.clear.Inside where
  x_lo := le_rfl
  x_hi := show (0 : Int) < 79 by decide
  y_lo := le_rfl
  y_hi := show (0 : Int) < 24 by decide
  chars _ hi := by cases hi

section Fields

variable (s : Console)

@[simp] theorem move_x : s.move.x = s.x := rfl
@[simp] theorem move_fb : s.move.fb = s.fb := rfl
@[simp] theorem move_chars : s.move.chars = s.chars := rfl

@[simp] theorem scroll_x : s.scroll.x = s.x := by
  rw [scroll]
  split_ifs <;> rfl

@[simp] theorem scroll_chars : s.scroll.chars = s.chars := by
  rw [scroll]
  split_ifs <;> rfl

theorem scroll_y : s.scroll.y = if 24 ≤ s.y then s.y - 1 else s.y := by
  have hlast : (tmlRows : Int) - 1 = 24 := rfl
  rw [scroll, hlast]
  split_ifs <;> rfl

@[simp] theorem wrap_chars : s.wrap.chars = s.chars := by
  rw [wrap]
  split_ifs <;> rfl

theorem wrap_x : s.wrap.x = if 79 ≤ s.x then 0 else s.x := by
  have hlast : (tmlColumns : Int) - 1 = 79 := rfl
  rw [wrap, hlast]
  split_ifs <;> rfl

theorem wrap_y : s.wrap.y = if 79 ≤ s.x then s.y + 1 else s.y := by
  have hlast : (tmlColumns : Int) - 1 = 79 := rfl
  rw [wrap, hlast]
  split_ifs <;> rfl

theorem put_x (cnt : UInt8) :
    (s.put cnt).x = if 79 ≤ (advance cnt s).x then 0 else (advance cnt s).x := by
  rw [put, move_x, scroll_x, wrap_x]

@[simp] theorem put_chars (cnt : UInt8) :
    (s.put cnt).chars = (advance cnt s).chars := by
  rw [put, move_chars, scroll_chars, wrap_chars]

end Fields

/-- What a character makes of a cursor inside, before wrap and scroll. -/
theorem advance_inside {s : Console} {cnt : UInt8} (h : s.Inside)
    (hedge : cnt = 0x08 → s.x ≠ 0) :
    (0 ≤ (advance cnt s).x ∧ 0 ≤ (advance cnt s).y) ∧
      ((advance cnt s).y ≤ 23 ∨
        (advance cnt s).y = 24 ∧ (advance cnt s).x = 0) ∧
      ∀ i ∈ (advance cnt s).chars, 0 ≤ i ∧ i ≤ 1999 := by
  obtain ⟨hx, hx', hy, hy', hchars⟩ := h
  simp only [advance]
  split_ifs with hnewline hback htab hprint
  · refine ⟨⟨le_rfl, ?_⟩, ?_, hchars⟩
    · dsimp only
      omega
    · dsimp only
      omega
  · have hne := hedge hback
    refine ⟨⟨?_, hy⟩, Or.inl ?_, hchars⟩
    · dsimp only
      omega
    · dsimp only
      omega
  · refine ⟨⟨?_, hy⟩, Or.inl ?_, hchars⟩
    · dsimp only
      omega
    · dsimp only
      omega
  · refine ⟨⟨?_, hy⟩, Or.inl ?_, fun i hi => ?_⟩
    · dsimp only
      omega
    · dsimp only
      omega
    · rcases List.mem_cons.mp hi with rfl | hi
      · simp only [tmlColumns]
        omega
      · exact hchars i hi
  · exact ⟨⟨hx, hy⟩, Or.inl (by omega), hchars⟩

/-- The step: away from the edge every character keeps the cursor inside. -/
theorem Inside.put {s : Console} {cnt : UInt8} (h : s.Inside)
    (hedge : cnt = 0x08 → s.x ≠ 0) : (s.put cnt).Inside := by
  obtain ⟨⟨hx, hy⟩, hlast, hchars⟩ := advance_inside h hedge
  have hy' : (s.put cnt).y = _ := scroll_y _
  rw [wrap_y] at hy'
  constructor
  · rw [put_x]
    split_ifs <;> omega
  · rw [put_x]
    split_ifs <;> omega
  · rw [hy']
    split_ifs <;> omega
  · rw [hy']
    split_ifs <;> omega
  · rw [put_chars]
    exact hchars

/-- At the edge a backspace leaves the screen. -/
theorem put_backspace {s : Console} (hx : s.x = 0) :
    ¬ (s.put 0x08).OnScreen := by
  intro hon
  have hlo := hon.x_lo
  have hat : (advance 0x08 s).x = s.x - 1 := rfl
  rw [put_x, hat, hx] at hlo
  exact absurd hlo (by decide)

theorem SparesEdge.tail {s : Console} {c : UInt8} {cs : List UInt8}
    (h : SparesEdge s (c :: cs)) : SparesEdge (s.put c) cs := by
  intro pre hpre
  exact h (c :: pre) (List.cons_prefix_cons.mpr ⟨rfl, hpre⟩)

theorem SparesEdge.head {s : Console} {c : UInt8} {cs : List UInt8}
    (h : SparesEdge s (c :: cs)) (hback : c = 0x08) : s.x ≠ 0 := by
  subst hback
  exact h [] (List.cons_prefix_cons.mpr ⟨rfl, List.nil_prefix⟩)

/-- The run: the cursor stays inside. -/
theorem Inside.foldl {s : Console} (cs : List UInt8) (h : s.Inside)
    (hedge : SparesEdge s cs) : (cs.foldl Console.put s).Inside := by
  induction cs generalizing s with
  | nil => exact h
  | cons c cs ih => exact ih (h.put hedge.head) hedge.tail

theorem SparesEdge.take {s : Console} {cs pre : List UInt8}
    (h : SparesEdge s cs) (hpre : pre <+: cs) : SparesEdge s pre :=
  fun pre' hpre' => h pre' (hpre'.trans hpre)

/-- From a cursor inside, the screen is never left exactly when no backspace
comes in the first column. -/
theorem Inside.onScreen_iff {s : Console} (h : s.Inside) (cs : List UInt8) :
    (∀ pre, pre <+: cs → (pre.foldl Console.put s).OnScreen) ↔
      SparesEdge s cs := by
  constructor
  · intro hon pre hpre hx
    have hafter := hon _ hpre
    rw [List.foldl_append] at hafter
    exact put_backspace hx hafter
  · intro hedge pre hpre
    exact (h.foldl pre (hedge.take hpre)).onScreen

/-- The cursor of the console stays on the screen, from `console_init` or
`console_clear` on, exactly as long as no backspace comes in column 0. -/
theorem staysOnScreen_iff (s : Console) (cs : List UInt8) :
    ((∀ pre, pre <+: cs → (pre.foldl put s.init).OnScreen) ↔
      SparesEdge s.init cs) ∧
    ((∀ pre, pre <+: cs → (pre.foldl put s.clear).OnScreen) ↔
      SparesEdge s.clear cs) :=
  ⟨(init_inside s).onScreen_iff cs, (clear_inside s).onScreen_iff cs⟩

/-- A console whose video memory is zero. -/
def dark : Console := ⟨fun _ => 0, 0, 0, 0, []⟩

/-- One backspace on a clear screen puts the cursor in column -1, and the next
character in front of the screen. -/
theorem backspace_leaves_screen :
    ¬ ∀ (s : Console) (cs : List UInt8) (pre : List UInt8), pre <+: cs →
      (pre.foldl put s.clear).OnScreen := by
  intro hall
  have hon := hall dark [0x08, 0x41] [0x08, 0x41] List.prefix_rfl
  have hfirst := hon.chars (-1) (by decide +kernel)
  exact absurd hfirst.1 (by decide)

end Console

end Linda
