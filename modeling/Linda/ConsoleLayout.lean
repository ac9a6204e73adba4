/-
What the console shows of a text: the text laid out in lines, and the screen as
a window over the last of them.
-/
import Linda.Console
import Mathlib.Data.List.TakeWhile

namespace Linda

/-- A text in lines: those that ended, and the cells of the one that did not. -/
structure Layout where
  done : List (List UInt16)
  line : List UInt16

namespace Layout

def empty : Layout := ⟨[], []⟩

def newline (l : Layout) : Layout := ⟨l.done ++ [l.line], []⟩

/-- A line that reaches the last column of the screen ends. -/
def settle (l : Layout) : Layout :=
  if 79 ≤ l.line.length then l.newline else l

/-- The line goes on with these cells. -/
def extend (l : Layout) (cells : List UInt16) : Layout :=
  ⟨l.done, l.line ++ cells⟩

/-- Blank cells up to the next multiple of 8. -/
def tab (l : Layout) : Layout :=
  l.extend (List.replicate (8 - l.line.length % 8) Console.blank)

/-- How a character shows. -/
def glyph (c : UInt8) : UInt16 :=
  Console.setcolor (Console.extend c) .lightGrey .black

def put (l : Layout) (c : UInt8) : Layout :=
  if c = 0x0A then l.newline
  else if c = 0x09 then l.tab.settle
  else (l.extend [glyph c]).settle

def ofText (text : List UInt8) : Layout := text.foldl put empty

def lines (l : Layout) : List (List UInt16) := l.done ++ [l.line]

/-- A screen of the last 24 lines; what no line fills is blank. -/
def cell (l : Layout) (row col : Nat) : UInt16 :=
  ((l.lines.drop (l.lines.length - 24))[row]?.getD [])[col]?.getD Console.blank

/-- The characters of a text: printable ones, newlines and tabs. -/
def Textual (c : UInt8) : Prop := c = 0x0A ∨ c = 0x09 ∨ 0x20 ≤ c.toInt8

instance (c : UInt8) : Decidable (Textual c) :=
  inferInstanceAs (Decidable (_ ∨ _))

end Layout

/-- The cells of the screen. -/
def Console.screen (s : Console) (row col : Nat) : UInt16 :=
  s.fb (row * tmlColumns + col)

section Sweep

/-- The cells from 0 on are set one after the other to what `g` computes. -/
def sweep (g : (Int → UInt16) → Int → UInt16) (fb : Int → UInt16) (n : Nat) :
    Int → UInt16 :=
  (List.range n).foldl (fun fb (i : Nat) => setCell fb i (g fb i)) fb

variable {g : (Int → UInt16) → Int → UInt16}

theorem sweep_succ (fb : Int → UInt16) (n : Nat) :
    sweep g fb (n + 1) = setCell (sweep g fb n) n (g (sweep g fb n) n) := by
  rw [sweep, List.range_succ, List.foldl_append]
  rfl

/-- Where no cell is computed from one set before, all are computed from the
cells the sweep started with. -/
theorem sweep_eq (hg : ∀ fb fb' : Int → UInt16, ∀ i : Int,
      (∀ j, i ≤ j → fb j = fb' j) → g fb i = g fb' i)
    (fb : Int → UInt16) (n : Nat) :
    sweep g fb n = fun i : Int =>
      if 0 ≤ i ∧ i < n then g fb i else fb i := by
  induction n with
  | zero =>
      funext i
      rw [if_neg (by omega)]
      rfl
  | succ n ih =>
      have hlater : ∀ j : Int, (n : Int) ≤ j → sweep g fb n j = fb j := by
        intro j hj
        rw [ih]
        exact if_neg (by omega)
      funext i
      rw [sweep_succ, hg _ fb _ hlater, setCell]
      by_cases hi : i = n
      · rw [if_pos hi, if_pos (by omega), hi]
      · rw [if_neg hi, ih]
        exact if_congr (by omega) rfl rfl

/-- Row by row and in each row column by column is a sweep. -/
theorem sweep_rows {row : (Int → UInt16) → Nat → Int → UInt16} {columns : Nat}
    (hrow : ∀ fb r, row fb r = (List.range columns).foldl
      (fun fb (col : Nat) =>
        setCell fb (r * columns + col) (g fb (r * columns + col))) fb)
    (fb : Int → UInt16) (n : Nat) :
    (List.range n).foldl row fb = sweep g fb (n * columns) := by
  have hcols : ∀ r m, (List.range m).foldl (fun fb (col : Nat) =>
      setCell fb (r * columns + col : Nat) (g fb (r * columns + col : Nat)))
        (sweep g fb (r * columns)) = sweep g fb (r * columns + m) := by
    intro r m
    induction m with
    | zero => rfl
    | succ m ih =>
        rw [List.range_succ, List.foldl_append, ih, ← Nat.add_assoc, sweep_succ]
        rfl
  induction n with
  | zero => simp [sweep]
  | succ n ih =>
      rw [List.range_succ, List.foldl_append, ih, List.foldl_cons,
        List.foldl_nil, hrow, Nat.succ_mul, ← hcols n columns]
      push_cast
      rfl

end Sweep

namespace Console

open Layout

section Cells

theorem screen_size : ((tmlRows * tmlColumns : Nat) : Int) = 2000 := rfl

theorem scrolled_eq (fb : Int → UInt16) :
    (List.range tmlRows).foldl scrollRow fb =
      fun i => if 0 ≤ i ∧ i < 2000 then fb (i + 80) else fb i := by
  have hnext : ∀ r col : Nat, ((r : Int) + 1) * tmlColumns + col =
      r * tmlColumns + col + 80 := by
    intro r col
    simp only [tmlColumns]
    omega
  have hcell : ∀ r, scrollCell r = fun fb (col : Nat) =>
      setCell fb (r * tmlColumns + col) (fb (r * tmlColumns + col + 80)) := by
    intro r
    funext fb col
    rw [scrollCell, hnext]
  have hrow : ∀ (fb : Int → UInt16) (r : Nat), scrollRow fb r =
      (List.range tmlColumns).foldl (fun fb (col : Nat) => setCell fb
        (r * tmlColumns + col) (fb (r * tmlColumns + col + 80))) fb := by
    intro fb r
    rw [scrollRow, hcell]
  rw [sweep_rows (g := fun fb i => fb (i + 80)) hrow,
    sweep_eq fun fb fb' i h => h (i + 80) (by omega), screen_size]

theorem cleared_eq (fb : Int → UInt16) :
    cleared fb = fun i => if 0 ≤ i ∧ i < 2000 then blank else fb i := by
  have hrow : ∀ fb r, clearRow fb r = (List.range tmlColumns).foldl
      (fun fb (col : Nat) => setCell fb (r * tmlColumns + col) blank) fb :=
    fun _ _ => rfl
  rw [cleared, sweep_rows (g := fun _ _ => blank) hrow,
    sweep_eq fun _ _ _ _ => rfl, screen_size]

end Cells

end Console

namespace Layout

section Window

variable {l : Layout} {row col : Nat}

theorem lines_length (l : Layout) : l.lines.length = l.done.length + 1 := by
  rw [lines, List.length_append, List.length_singleton]

/-- The row the last line is shown in. -/
def lastRow (l : Layout) : Nat := min l.done.length 23

/-- The window by rows: ended lines, the last line, and blank rows. -/
theorem cell_eq (l : Layout) (row col : Nat) :
    l.cell row col =
      if row < l.lastRow then
        (l.done[l.done.length - 23 + row]?.getD [])[col]?.getD Console.blank
      else if row = l.lastRow then l.line[col]?.getD Console.blank
      else Console.blank := by
  have hdrop : l.lines.length - 24 = l.done.length - 23 := by
    rw [lines_length]
    omega
  rw [cell, hdrop, List.getElem?_drop, lines, List.getElem?_append, lastRow]
  by_cases hdone : l.done.length - 23 + row < l.done.length
  · rw [if_pos hdone, if_pos (by omega)]
  · rw [if_neg hdone, if_neg (by omega)]
    by_cases hlast : row = min l.done.length 23
    · have hzero : l.done.length - 23 + row - l.done.length = 0 := by omega
      rw [if_pos hlast, hzero]
      rfl
    · have hpos : l.done.length - 23 + row - l.done.length ≠ 0 := by omega
      rw [if_neg hlast, List.getElem?_singleton, if_neg hpos]
      rfl

theorem extend_length (cells : List UInt16) :
    (l.extend cells).line.length = l.line.length + cells.length :=
  List.length_append

/-- More cells in the last line. -/
theorem extend_cell (cells : List UInt16) :
    (l.extend cells).cell row col =
      if row = l.lastRow ∧ l.line.length ≤ col then
        cells[col - l.line.length]?.getD Console.blank
      else l.cell row col := by
  have hrow : (l.extend cells).lastRow = l.lastRow := rfl
  rw [cell_eq, cell_eq, hrow]
  by_cases hlast : row = l.lastRow
  · subst hlast
    rw [if_neg (lt_irrefl _), if_pos rfl, if_neg (lt_irrefl _), if_pos rfl]
    simp only [extend, List.getElem?_append, true_and]
    by_cases hcol : col < l.line.length
    · rw [if_pos hcol, if_neg (by omega)]
    · rw [if_neg hcol, if_pos (by omega)]
  · simp only [hlast, false_and, ↓reduceIte]
    rfl

/-- Skipped cells are blank like those not reached yet. -/
theorem tab_cell : l.tab.cell row col = l.cell row col := by
  rw [tab, extend_cell]
  split_ifs with hlast
  · obtain ⟨rfl, hcol⟩ := hlast
    rw [cell_eq, if_neg (lt_irrefl _), if_pos rfl,
      List.getElem?_eq_none hcol, List.getElem?_replicate]
    split_ifs <;> rfl
  · rfl

/-- A new line moves the window down once the screen is full. -/
theorem newline_cell :
    l.newline.cell row col =
      if 23 ≤ l.done.length then l.cell (row + 1) col else l.cell row col := by
  have hlines : l.newline.lines = l.lines ++ [[]] := rfl
  have hblank : ∀ (xs : List (List UInt16)) (i : Nat),
      ((xs ++ [[]])[i]?.getD [])[col]?.getD Console.blank =
        (xs[i]?.getD [])[col]?.getD Console.blank := by
    intro xs i
    by_cases hi : i < xs.length
    · rw [List.getElem?_append_left hi]
    · rw [List.getElem?_append_right (by omega),
        List.getElem?_eq_none (l := xs) (by omega), List.getElem?_singleton]
      split_ifs <;> rfl
  have hlength := l.lines_length
  rw [cell, hlines, List.length_append, List.length_singleton,
    List.getElem?_drop, hblank]
  split_ifs with hfull
  · have hat : l.lines.length + 1 - 24 + row =
        l.lines.length - 24 + (row + 1) := by omega
    rw [cell, List.getElem?_drop, hat]
  · have hat : l.lines.length + 1 - 24 + row = l.lines.length - 24 + row := by
      omega
    rw [cell, List.getElem?_drop, hat]

theorem cell_below (hrow : 24 ≤ row) : l.cell row col = Console.blank := by
  have hlast : l.lastRow ≤ 23 := Nat.min_le_right _ _
  rw [cell_eq, if_neg (by omega), if_neg (by omega)]

end Window

end Layout

namespace Console

open Layout

/-- The console shows the layout: the cursor stands behind its last line, and
the rows are its window unless what lay behind the screen, `edge`, has been
scrolled in. -/
structure Shows (edge : Nat → UInt16) (s : Console) (l : Layout) : Prop where
  x : s.x = l.line.length
  y : s.y = l.lastRow
  below : ∀ col < 80, s.screen 25 col = edge col
  scrolled : 24 ≤ l.done.length → ∀ col < 80, s.screen 24 col = edge col
  rows : (∀ col < 80, edge col = blank) ∨ l.done.length ≤ 23 →
    ∀ row < 25, ∀ col < 80, s.screen row col = l.cell row col

section Steps

variable {edge : Nat → UInt16} {s : Console} {l : Layout}

theorem Shows.y_le (h : Shows edge s l) : s.y ≤ 23 := by
  have hy := h.y
  have hlast : l.lastRow ≤ 23 := Nat.min_le_right _ _
  omega

/-- Cells of different places are different cells. -/
theorem screen_setCell (fb : Int → UInt16) (cell : UInt16) {y x row col : Nat}
    (hx : x < 80) (hcol : col < 80) :
    setCell fb ((y : Int) * tmlColumns + x) cell (row * tmlColumns + col) =
      if row = y ∧ col = x then cell else fb (row * tmlColumns + col) := by
  simp only [setCell, tmlColumns]
  exact if_congr (by omega) rfl rfl

/-- One row up. -/
theorem screen_scroll (hy : 24 ≤ s.y) {row col : Nat} (hrow : row < 25)
    (hcol : col < 80) : s.scroll.screen row col = s.screen (row + 1) col := by
  have hlast : (tmlRows : Int) - 1 = 24 := rfl
  have hin : 0 ≤ (row : Int) * tmlColumns + col ∧
      (row : Int) * tmlColumns + col < 2000 := by
    simp only [tmlColumns]
    omega
  have hnext : (row : Int) * tmlColumns + col + 80 =
      ((row + 1 : Nat) : Int) * tmlColumns + col := by
    simp only [tmlColumns]
    omega
  rw [scroll, hlast, if_pos hy, screen, screen, scrolled_eq]
  dsimp only
  rw [if_pos hin, hnext]

theorem screen_scroll_below (col : Nat) :
    s.scroll.screen 25 col = s.screen 25 col := by
  have hout : ¬ (0 ≤ ((25 : Nat) : Int) * tmlColumns + col ∧
      ((25 : Nat) : Int) * tmlColumns + col < 2000) := by
    simp only [tmlColumns]
    omega
  rw [scroll]
  split_ifs
  · rw [screen, screen, scrolled_eq]
    dsimp only
    rw [if_neg hout]
  · rfl

/-- A character in the last line. -/
theorem Shows.type (h : Shows edge s l) (hwidth : l.line.length ≤ 78)
    (cell : UInt16) :
    Shows edge { s with
      fb := setCell s.fb (s.y * tmlColumns + s.x) cell
      x := s.x + 1
      chars := (s.y * tmlColumns + s.x) :: s.chars } (l.extend [cell]) := by
  have hcell : ∀ row col : Nat, col < 80 →
      setCell s.fb (s.y * tmlColumns + s.x) cell (row * tmlColumns + col) =
        if row = l.lastRow ∧ col = l.line.length then cell
        else s.screen row col := by
    intro row col hcol
    rw [h.y, h.x]
    exact screen_setCell s.fb cell (by omega) hcol
  have hlast : l.lastRow ≤ 23 := Nat.min_le_right _ _
  refine ⟨?_, h.y, fun col hcol => ?_, fun hdone col hcol => ?_,
    fun hrows row hrow col hcol => ?_⟩
  · rw [extend_length, h.x]
    rfl
  · exact (hcell 25 col hcol).trans ((if_neg (by omega)).trans (h.below col hcol))
  · exact (hcell 24 col hcol).trans
      ((if_neg (by omega)).trans (h.scrolled hdone col hcol))
  · refine (hcell row col hcol).trans ?_
    rw [extend_cell, h.rows hrows row hrow col hcol]
    by_cases hat : row = l.lastRow ∧ col = l.line.length
    · rw [if_pos hat, if_pos ⟨hat.1, hat.2.ge⟩, hat.2, Nat.sub_self]
      rfl
    · rw [if_neg hat]
      split_ifs with hin
      · -- a cell behind the new one was blank before
        rw [List.getElem?_eq_none (by simp; omega), cell_eq, hin.1,
          if_neg (lt_irrefl _), if_pos rfl, List.getElem?_eq_none hin.2]
      · rfl

theorem Shows.skip (h : Shows edge s l) :
    Shows edge { s with x := (s.x + 8) / 8 * 8 } l.tab := by
  refine ⟨?_, h.y, h.below, h.scrolled, fun hrows row hrow col hcol => ?_⟩
  · rw [tab, extend_length, List.length_replicate, h.x]
    dsimp only
    omega
  · rw [tab_cell]
    exact h.rows hrows row hrow col hcol

/-- A new line, and the scroll that keeps it on the screen. -/
theorem Shows.feed (h : Shows edge s l) :
    Shows edge (scroll { s with y := s.y + 1, x := 0 }) l.newline := by
  have hlength : l.newline.done.length = l.done.length + 1 := by
    rw [newline, List.length_append, List.length_singleton]
  have hlast : l.newline.lastRow = min (l.done.length + 1) 23 := by
    rw [lastRow, hlength]
  have hy := h.y
  rw [lastRow] at hy
  by_cases hfull : 23 ≤ l.done.length
  · have hbottom : 24 ≤ s.y + 1 := by omega
    have hup : ∀ row < 25, ∀ col < 80,
        (scroll { s with y := s.y + 1, x := 0 }).screen row col =
          s.screen (row + 1) col := fun row hrow col hcol =>
      screen_scroll (s := { s with y := s.y + 1, x := 0 }) hbottom hrow hcol
    refine ⟨by rw [scroll_x]; rfl, ?_, fun col hcol => ?_, fun _ col hcol => ?_,
      fun hrows row hrow col hcol => ?_⟩
    · rw [scroll_y, if_pos hbottom, hlast]
      dsimp only
      omega
    · rw [screen_scroll_below]
      exact h.below col hcol
    · rw [hup 24 (by decide) col hcol]
      exact h.below col hcol
    · rw [hlength] at hrows
      have hedge : ∀ col < 80, edge col = blank := hrows.resolve_right (by omega)
      rw [hup row hrow col hcol, newline_cell, if_pos hfull]
      by_cases hnext : row + 1 < 25
      · exact h.rows (Or.inl hedge) (row + 1) hnext col hcol
      · have hrow' : row + 1 = 25 := by omega
        rw [hrow', h.below col hcol, hedge col hcol, cell_below (by decide)]
  · have hstay : scroll { s with y := s.y + 1, x := 0 } =
        { s with y := s.y + 1, x := 0 } := by
      have hlastRow : (tmlRows : Int) - 1 = 24 := rfl
      rw [scroll, hlastRow]
      exact if_neg (by dsimp only; omega)
    rw [hstay]
    refine ⟨rfl, ?_, h.below, fun hdone => ?_, fun hrows row hrow col hcol => ?_⟩
    · rw [hlast]
      dsimp only
      omega
    · rw [hlength] at hdone
      omega
    · rw [newline_cell, if_neg hfull]
      exact h.rows (Or.inr (by omega)) row hrow col hcol

/-- The end of a line that has become full. -/
theorem Shows.settle (h : Shows edge s l) :
    Shows edge (scroll (wrap s)) l.settle := by
  have hlast : (tmlColumns : Int) - 1 = 79 := rfl
  have hx := h.x
  rw [wrap, hlast, Layout.settle]
  by_cases hfull : 79 ≤ l.line.length
  · rw [if_pos hfull, if_pos (by omega)]
    exact h.feed
  · have hrow : (tmlRows : Int) - 1 = 24 := rfl
    have hy := h.y_le
    rw [if_neg hfull, if_neg (by omega), scroll, hrow, if_neg (by omega)]
    exact h

theorem settle_width (l : Layout) : l.settle.line.length ≤ 78 := by
  rw [Layout.settle]
  split_ifs with hfull
  · exact Nat.zero_le _
  · omega

/-- The step: the console follows the layout. -/
theorem Shows.put {c : UInt8} (h : Shows edge s l) (hwidth : l.line.length ≤ 78)
    (hc : Textual c) :
    Shows edge (s.put c) (l.put c) ∧ (l.put c).line.length ≤ 78 := by
  have hmove : ∀ {s l}, Shows edge s l → Shows edge s.move l := fun h =>
    ⟨h.x, h.y, h.below, h.scrolled, h.rows⟩
  rw [Console.put, Layout.put]
  simp only [advance]
  by_cases hnewline : c = 0x0A
  · rw [if_pos hnewline, if_pos hnewline]
    have hwrap : wrap { s with y := s.y + 1, x := 0 } =
        { s with y := s.y + 1, x := 0 } := rfl
    rw [hwrap]
    exact ⟨hmove h.feed, Nat.zero_le _⟩
  · have hback : c ≠ 0x08 := by
      rintro rfl
      rcases hc with hc | hc | hc
      · exact absurd hc (by decide)
      · exact absurd hc (by decide)
      · exact absurd hc (by decide)
    rw [if_neg hnewline, if_neg hnewline, if_neg hback]
    by_cases htab : c = 0x09
    · rw [if_pos htab, if_pos htab]
      exact ⟨hmove h.skip.settle, settle_width _⟩
    · have hprint : 0x20 ≤ c.toInt8 :=
        (hc.resolve_left hnewline).resolve_left htab
      rw [if_neg htab, if_neg htab, if_pos hprint]
      exact ⟨hmove (h.type hwidth _).settle, settle_width _⟩

/-- The run. -/
theorem Shows.foldl (text : List UInt8) (h : Shows edge s l)
    (hwidth : l.line.length ≤ 78) (htext : ∀ c ∈ text, Textual c) :
    Shows edge (text.foldl Console.put s) (text.foldl Layout.put l) := by
  induction text generalizing s l with
  | nil => exact h
  | cons c text ih =>
      obtain ⟨hc, htext⟩ := List.forall_mem_cons.mp htext
      obtain ⟨hput, hwidth'⟩ := h.put hwidth hc
      exact ih hput hwidth' htext

/-- After `console_clear` the screen shows the empty text. -/
theorem shows_clear (s : Console) : Shows (s.screen 25) s.clear Layout.empty where
  x := rfl
  y := rfl
  below col hcol := by
    have hout : ¬ (0 ≤ ((25 : Nat) : Int) * tmlColumns + col ∧
        ((25 : Nat) : Int) * tmlColumns + col < 2000) := by
      simp only [tmlColumns]
      omega
    rw [screen, clear, move_fb, cleared_eq]
    dsimp only
    rw [if_neg hout, screen]
  scrolled hdone := absurd hdone (by decide)
  rows _ row hrow col hcol := by
    have hin : 0 ≤ (row : Int) * tmlColumns + col ∧
        (row : Int) * tmlColumns + col < 2000 := by
      simp only [tmlColumns]
      omega
    have hempty : Layout.empty.cell row col = blank := by
      rw [cell_eq]
      have hlast : Layout.empty.lastRow = 0 := rfl
      rw [hlast, if_neg (Nat.not_lt_zero _)]
      split_ifs <;> rfl
    rw [hempty, screen, clear, move_fb, cleared_eq]
    dsimp only
    rw [if_pos hin]

end Steps

section Text

variable {bufs : List (List UInt8)}

/-- Characters of a text are no ends of strings. -/
theorem write_textual {buf : List UInt8} (s : Console)
    (htext : ∀ c ∈ buf, Textual c) : s.write buf = buf.foldl put s := by
  rw [write, consoleWrite, List.takeWhile_eq_self_iff.mpr]
  intro c hc
  have hne : c ≠ 0 := by
    rintro rfl
    rcases htext 0 hc with h | h | h
    · exact absurd h (by decide)
    · exact absurd h (by decide)
    · exact absurd h (by decide)
  exact decide_eq_true hne

/-- Several calls write the text that their strings make up. -/
theorem writes_textual (s : Console)
    (htext : ∀ buf ∈ bufs, ∀ c ∈ buf, Textual c) :
    bufs.foldl write s = bufs.flatten.foldl put s := by
  induction bufs generalizing s with
  | nil => rfl
  | cons buf bufs ih =>
      obtain ⟨hbuf, hbufs⟩ := List.forall_mem_cons.mp htext
      rw [List.foldl_cons, write_textual s hbuf, ih _ hbufs,
        List.flatten_cons, List.foldl_append]

theorem shows_text (s : Console) (htext : ∀ buf ∈ bufs, ∀ c ∈ buf, Textual c) :
    Shows (s.screen 25) (bufs.foldl write s.clear) (ofText bufs.flatten) := by
  rw [writes_textual _ htext]
  refine (shows_clear s).foldl bufs.flatten (Nat.zero_le _) fun c hc => ?_
  obtain ⟨buf, hbuf, hc⟩ := List.mem_flatten.mp hc
  exact htext buf hbuf c hc

/-- What is scrolled in is seen in the last row of the screen. -/
theorem Shows.last_row {edge : Nat → UInt16} {s : Console} {l : Layout}
    (h : Shows edge s l) (hscrolled : 24 < l.lines.length) {col : Nat}
    (hcol : col < 80) : s.screen 24 col = edge col := by
  rw [Layout.lines_length] at hscrolled
  exact h.scrolled (by omega) col hcol

theorem Shows.screen_iff {edge : Nat → UInt16} {s : Console} {l : Layout}
    (h : Shows edge s l) :
    (∀ row < 25, ∀ col < 80, s.screen row col = l.cell row col) ↔
      l.lines.length ≤ 24 ∨ ∀ col < 80, edge col = blank := by
  constructor
  · intro hscreen
    by_cases hscrolled : 24 < l.lines.length
    · refine Or.inr fun col hcol => ?_
      rw [← h.last_row hscrolled hcol, hscreen 24 (by decide) col hcol,
        cell_below le_rfl]
    · exact Or.inl (by omega)
  · intro hcond
    have hlength := l.lines_length
    exact h.rows (hcond.symm.imp_right fun hle => by omega)

/-- The screen shows the last lines of the text, whatever calls it was written
in, exactly when the text has not scrolled or the row behind the screen was
blank; and only a text that has not scrolled leaves the screen independent of
what was there. -/
theorem showsText_iff (s : Console) (htext : ∀ buf ∈ bufs, ∀ c ∈ buf, Textual c) :
    ((∀ row < tmlRows, ∀ col < tmlColumns,
        (bufs.foldl write s.clear).screen row col =
          (ofText bufs.flatten).cell row col) ↔
      (ofText bufs.flatten).lines.length ≤ 24 ∨
        ∀ col < tmlColumns, s.screen tmlRows col = blank) ∧
    ((∀ s' : Console, ∀ row < tmlRows, ∀ col < tmlColumns,
        (bufs.foldl write s'.clear).screen row col =
          (bufs.foldl write s.clear).screen row col) ↔
      (ofText bufs.flatten).lines.length ≤ 24) := by
  have hshows : ∀ s' : Console, Shows (s'.screen 25) (bufs.foldl write s'.clear)
      (ofText bufs.flatten) := fun s' => shows_text s' htext
  refine ⟨(hshows s).screen_iff, ?_, ?_⟩
  · intro hall
    by_contra hscrolled
    -- another cell behind the screen shows in the last row
    have hother := hall { s with fb := fun i => s.fb i + 1 } 24 (by decide) 0
      (by decide)
    rw [(hshows _).last_row (by omega) (by decide),
      (hshows s).last_row (by omega) (by decide)] at hother
    have hne : ∀ w : UInt16, w + 1 ≠ w := by
      intro w heq
      have hnat := congrArg UInt16.toNat heq
      rw [UInt16.toNat_add, UInt16.toNat_one] at hnat
      omega
    exact hne _ hother
  · intro hfew s' row hrow col hcol
    have hplain : ∀ s' : Console, (bufs.foldl write s'.clear).screen row col =
        (ofText bufs.flatten).cell row col := fun s' =>
      (hshows s').screen_iff.mpr (Or.inl hfew) row hrow col hcol
    rw [hplain, hplain]

end Text

/-- On a machine whose video memory holds zeros behind the screen, 24 lines
scroll a row in that is not blank. -/
theorem scroll_shows_edge :
    ¬ ∀ (s : Console) (bufs : List (List UInt8)),
      (∀ buf ∈ bufs, ∀ c ∈ buf, Textual c) →
      ∀ row < tmlRows, ∀ col < tmlColumns,
        (bufs.foldl write s.clear).screen row col =
          (ofText bufs.flatten).cell row col := by
  intro hall
  have htext : ∀ buf ∈ [List.replicate 24 (0x0A : UInt8)], ∀ c ∈ buf,
      Textual c := by
    intro buf hbuf c hc
    obtain rfl := List.mem_singleton.mp hbuf
    exact Or.inl (List.eq_of_mem_replicate hc)
  have hlast := (shows_text dark htext).last_row (by decide) (show 0 < 80 by decide)
  rw [hall dark _ htext 24 (by decide) 0 (by decide), cell_below le_rfl] at hlast
  exact absurd hlast (by decide)

/-- A text in two calls. -/
theorem showsText_small : ∃ s : Console,
    s = [[0x41, 0x09], [0x42, 0x0A]].foldl write dark.clear ∧
      ∀ row < tmlRows, ∀ col < tmlColumns,
        s.screen row col = (ofText [0x41, 0x09, 0x42, 0x0A]).cell row col := by
  have hletter : Textual 0x41 ∧ Textual 0x42 := ⟨by decide, by decide⟩
  have htext : ∀ buf ∈ [[0x41, 0x09], [0x42, 0x0A]], ∀ c ∈ buf, Textual c := by
    intro buf hbuf c hc
    simp only [List.mem_cons, List.not_mem_nil, or_false] at hbuf
    rcases hbuf with rfl | rfl
    · simp only [List.mem_cons, List.not_mem_nil, or_false] at hc
      rcases hc with rfl | rfl
      · exact hletter.1
      · exact Or.inr (Or.inl rfl)
    · simp only [List.mem_cons, List.not_mem_nil, or_false] at hc
      rcases hc with rfl | rfl
      · exact hletter.2
      · exact Or.inl rfl
  exact ⟨_, rfl, (showsText_iff dark htext).1.mpr (Or.inl (by decide))⟩

end Console

end Linda
