/-
The second output path of console.c, with colours of its own, beside the first:
how far the two leave the same screen and the same cursor.
-/
import Linda.Console
import Mathlib.Data.List.TakeWhile

namespace Linda

namespace Console

/-- The `if` chain of `console_put_color`. -/
def advanceColor (cnt : UInt8) (fg bg : VgaColor) (s : Console) : Console :=
  let index := s.y * tmlColumns + s.x
  if cnt = 0x0A then { s with y := s.y + 1, x := 0 }
  else if cnt = 0x08 then { s with x := s.x - 1 }
  else if cnt = 0x09 then { s with x := (s.x + 8) / 8 * 8 }
  else if 0x20 ≤ cnt.toInt8 then
    { s with
      fb := setCell s.fb index (setcolor (extend cnt) fg bg)
      x := s.x + 1
      chars := index :: s.chars }
  else s

/-- Its end of a line comes one column later than that of `console_put`, and
`console_x` stays where it is. -/
def wrapColor (s : Console) : Console :=
  if (tmlColumns : Int) ≤ s.x then { s with y := s.y + 1 } else s

/-- `console_put_color` -/
def putColor (fg bg : VgaColor) (s : Console) (cnt : UInt8) : Console :=
  move (scroll (wrapColor (advanceColor cnt fg bg s)))

/-- `console_write_color` -/
def writeColor (s : Console) (buf : List UInt8) (fg bg : VgaColor) : Console :=
  (consoleWrite buf).foldl (putColor fg bg) s

/-- The calls of console.h that change the screen. -/
inductive DriverCall where
  | init
  | clear
  | put (cnt : UInt8)
  | write (buf : List UInt8)
  | putColor (cnt : UInt8) (fg bg : VgaColor)
  | writeColor (buf : List UInt8) (fg bg : VgaColor)
deriving Repr, DecidableEq

def DriverCall.exec (s : Console) : DriverCall → Console
  | .init => s.init
  | .clear => s.clear
  | .put cnt => s.put cnt
  | .write buf => s.write buf
  | .putColor cnt fg bg => s.putColor fg bg cnt
  | .writeColor buf fg bg => s.writeColor buf fg bg

/-- The same video memory and the same cursor, in the driver and on the
display. -/
structure Agrees (s t : Console) : Prop where
  fb : s.fb = t.fb
  x : s.x = t.x
  y : s.y = t.y
  cursor : s.cursor = t.cursor

/-- The column a character leads to before any line ends. -/
def columnAfter (x : Int) (cnt : UInt8) : Int :=
  if cnt = 0x0A then 0
  else if cnt = 0x08 then x - 1
  else if cnt = 0x09 then (x + 8) / 8 * 8
  else if 0x20 ≤ cnt.toInt8 then x + 1
  else x

/-- No character of the string leads past column 78. -/
def StaysLeft : Int → List UInt8 → Prop
  | _, [] => True
  | x, c :: cs => columnAfter x c ≤ 78 ∧ StaysLeft (columnAfter x c) cs

section Paths

variable {s : Console} {c : UInt8} {cs : List UInt8}

theorem advanceColor_default (c : UInt8) (s : Console) :
    advanceColor c .lightGrey .black s = advance c s := rfl

theorem advance_x (c : UInt8) (s : Console) :
    (advance c s).x = columnAfter s.x c := by
  simp only [advance, columnAfter]
  split_ifs <;> rfl

theorem wrapColor_x (s : Console) : s.wrapColor.x = s.x := by
  rw [wrapColor]
  split_ifs <;> rfl

/-- `console_put_color` never returns to the first column by itself. -/
theorem putColor_x (fg bg : VgaColor) (s : Console) (c : UInt8) :
    (putColor fg bg s c).x = columnAfter s.x c := by
  have hcolor : (advanceColor c fg bg s).x = columnAfter s.x c := by
    simp only [advanceColor, columnAfter]
    split_ifs <;> rfl
  rw [putColor, move_x, scroll_x, wrapColor_x, hcolor]

/-- A line of printable characters goes on to the right for ever. -/
theorem putColor_drifts (fg bg : VgaColor) (s : Console)
    (hprint : ∀ c ∈ cs, 0x20 ≤ c.toInt8) :
    (cs.foldl (putColor fg bg) s).x = s.x + cs.length := by
  induction cs generalizing s with
  | nil => exact (Int.add_zero s.x).symm
  | cons c cs ih =>
      obtain ⟨hc, hcs⟩ := List.forall_mem_cons.mp hprint
      have hcolumn : columnAfter s.x c = s.x + 1 := by
        have hnewline : c ≠ 0x0A := by
          rintro rfl
          exact absurd hc (by decide)
        have hback : c ≠ 0x08 := by
          rintro rfl
          exact absurd hc (by decide)
        have htab : c ≠ 0x09 := by
          rintro rfl
          exact absurd hc (by decide)
        rw [columnAfter, if_neg hnewline, if_neg hback, if_neg htab, if_pos hc]
      rw [List.foldl_cons, ih _ hcs, putColor_x, hcolumn, List.length_cons]
      omega

/-- Left of column 79 neither path ends a line. -/
theorem putColor_eq_put (hleft : columnAfter s.x c ≤ 78) :
    putColor .lightGrey .black s c = put s c := by
  have hx := advance_x c s
  have hcolumns : (tmlColumns : Int) = 80 := rfl
  have hwrap : wrap (advance c s) = advance c s := by
    rw [wrap, if_neg (by omega)]
  have hwrapColor : wrapColor (advance c s) = advance c s := by
    rw [wrapColor, if_neg (by omega)]
  rw [putColor, put, advanceColor_default, hwrap, hwrapColor]

theorem put_column (hleft : columnAfter s.x c ≤ 78) :
    (put s c).x = columnAfter s.x c := by
  rw [← putColor_eq_put hleft, putColor_x]

/-- From column 79 on only `console_put` goes back to the first. -/
theorem column_of_same_x
    (hsame : (putColor .lightGrey .black s c).x = (put s c).x) :
    columnAfter s.x c ≤ 78 := by
  rw [putColor_x, put_x, advance_x] at hsame
  split_ifs at hsame with hright
  · omega
  · omega

/-- The run: where no character leads past column 78 the paths do the same. -/
theorem StaysLeft.foldl (h : StaysLeft s.x cs) :
    cs.foldl (putColor .lightGrey .black) s = cs.foldl put s := by
  induction cs generalizing s with
  | nil => rfl
  | cons c cs ih =>
      obtain ⟨hc, hcs⟩ := h
      rw [List.foldl_cons, List.foldl_cons, putColor_eq_put hc]
      exact ih (put_column hc ▸ hcs)

theorem StaysLeft.take {x : Int} {pre : List UInt8} (h : StaysLeft x cs)
    (hpre : pre <+: cs) : StaysLeft x pre := by
  induction pre generalizing x cs with
  | nil => trivial
  | cons c pre ih =>
      obtain ⟨rest, rfl⟩ := hpre
      exact ⟨h.1, ih h.2 (List.prefix_append pre rest)⟩

/-- The first character past column 78 leaves two different cursors. -/
theorem staysLeft_of_same_x
    (hsame : ∀ pre, pre <+: cs →
      (pre.foldl (putColor .lightGrey .black) s).x = (pre.foldl put s).x) :
    StaysLeft s.x cs := by
  induction cs generalizing s with
  | nil => trivial
  | cons c cs ih =>
      have hc : columnAfter s.x c ≤ 78 := by
        apply column_of_same_x
        exact hsame [c] (List.cons_prefix_cons.mpr ⟨rfl, List.nil_prefix⟩)
      refine ⟨hc, ?_⟩
      rw [← put_column hc]
      apply ih
      intro pre hpre
      have hnext := hsame (c :: pre) (List.cons_prefix_cons.mpr ⟨rfl, hpre⟩)
      rwa [List.foldl_cons, List.foldl_cons, putColor_eq_put hc] at hnext

end Paths

section Strings

variable {buf pre : List UInt8}

theorem consoleWrite_isPrefix (h : pre <+: buf) :
    consoleWrite pre <+: consoleWrite buf := by
  induction pre generalizing buf with
  | nil => exact List.nil_prefix
  | cons c pre ih =>
      obtain ⟨rest, rfl⟩ := h
      have htail := ih (List.prefix_append pre rest)
      simp only [consoleWrite, List.cons_append, List.takeWhile_cons] at htail ⊢
      split_ifs with hc
      · exact List.cons_prefix_cons.mpr ⟨rfl, htail⟩
      · exact List.nil_prefix

theorem consoleWrite_of_prefix (h : pre <+: consoleWrite buf) :
    consoleWrite pre = pre := by
  rw [consoleWrite, List.takeWhile_eq_self_iff]
  intro c hc
  have hmem : c ∈ buf.takeWhile (· ≠ 0) := h.subset hc
  exact List.mem_takeWhile_imp (p := fun ch : UInt8 => ch ≠ 0) hmem

end Strings

/-- The two paths leave the same screen and cursor after a string and each of
its beginnings exactly when no character leads past column 78. -/
theorem pathsAgree_iff (s : Console) (buf : List UInt8) :
    (∀ pre, pre <+: buf →
      Agrees (s.writeColor pre .lightGrey .black) (s.write pre)) ↔
      StaysLeft s.x (consoleWrite buf) := by
  constructor
  · intro hagrees
    apply staysLeft_of_same_x
    intro pre hpre
    have hsame := (hagrees pre
      (hpre.trans (List.takeWhile_prefix _))).x
    rwa [writeColor, write, consoleWrite_of_prefix hpre] at hsame
  · intro hleft pre hpre
    have hsame : s.writeColor pre .lightGrey .black = s.write pre :=
      (hleft.take (consoleWrite_isPrefix hpre)).foldl
    rw [hsame]
    exact ⟨rfl, rfl, rfl, rfl⟩

/-- A line of 79 characters on a clear screen: `console_write` ends it and
`console_write_color` does not. -/
theorem paths_disagree :
    ¬ ∀ (s : Console) (calls : List DriverCall) (buf : List UInt8),
      Agrees ((calls.foldl DriverCall.exec s.init).writeColor buf .lightGrey
        .black) ((calls.foldl DriverCall.exec s.init).write buf) := by
  intro hall
  have hx := (hall dark [.clear] (List.replicate 79 0x41)).x
  exact absurd hx (by decide +kernel)

end Console

end Linda
