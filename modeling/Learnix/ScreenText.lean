import Learnix.Vga
import Mathlib.Data.List.GetD
import Mathlib.Data.List.TakeWhile

/-!
# Text in one row

What characters that are shown do to the screen: as long as they do not reach the last
column they fill the cells from the cursor on and move it along (`putChars_row`), and from
the last column it goes on to the next row, or the screen scrolls (`vgaPutchar_last`).
-/

namespace Learnix

open Machine

/-- The characters before the first NUL. -/
def upToNul (cs : List Byte) : CString :=
  ⟨cs.takeWhile fun c => c ≠ 0#8, fun _ member => by simpa using List.mem_takeWhile_imp member⟩

/-- A string literal. -/
def literalText (s : String) : CString := upToNul (s.toList.map fun c => BitVec.ofNat 8 c.toNat)

theorem chars_upToNul {cs : List Byte} (noNul : ∀ c ∈ cs, c ≠ 0#8) : (upToNul cs).chars = cs :=
  List.takeWhile_eq_self_iff.mpr fun c member => decide_eq_true (noNul c member)

/-- What comes after a NUL is not part of the string. -/
theorem chars_upToNul_append (cs rest : List Byte) :
    (upToNul (cs ++ 0#8 :: rest)).chars = (upToNul cs).chars := by
  induction cs with
  | nil => rfl
  | cons c cs ih =>
      simp only [upToNul] at ih
      simp only [upToNul, List.cons_append, List.takeWhile_cons, ih]

/-- The string in an array that has a NUL. -/
theorem chars_upToNul_range {f : Nat → Byte} {n size : Nat} (below : n < size) (nul : f n = 0#8) :
    (upToNul ((List.range size).map f)).chars = (upToNul ((List.range n).map f)).chars := by
  rcases Nat.exists_eq_add_of_lt below with ⟨k, rfl⟩
  have shape : n + k + 1 = n + (k + 1) := by omega
  rw [shape, List.range_add, List.map_append, List.range_succ_eq_map, List.map_cons, List.map_cons,
    Nat.add_zero, nul]
  exact chars_upToNul_append _ _

/-- The characters, one after the other. -/
def putChars (text : List Byte) (s : Vga) : Vga := text.foldl (fun s c => vgaPutchar c s) s

/-- `vga_putchar` shows the character in a cell. -/
def Plain (c : Byte) : Prop := c ≠ 0x0A#8 ∧ c ≠ 0x0D#8 ∧ c ≠ 0x09#8

/-- A printable character of ASCII. -/
def Printable (c : Byte) : Prop := 0x20 ≤ c.toNat ∧ c.toNat < 0x7F

instance (c : Byte) : Decidable (Printable c) := inferInstanceAs (Decidable (_ ∧ _))

variable {s s' s'' : Vga} {c : Byte} {text text' : List Byte}

theorem Printable.plain (printable : Printable c) : Plain c := by
  refine ⟨?_, ?_, ?_⟩ <;> rintro rfl <;> exact absurd printable (by decide)

theorem putChars_append (text text' : List Byte) (s : Vga) :
    putChars (text ++ text') s = putChars text' (putChars text s) :=
  List.foldl_append

/-- Cell `k` of the text. -/
def textCell (color : Byte) (text : List Byte) (k : Int) : BitVec 16 :=
  vgaEntry (text.getD k.toNat 0#8) color

/-- The text stands in the cells from the cursor on, and the cursor behind it in the same row. -/
structure RowPrinted (s : Vga) (text : List Byte) (s' : Vga) : Prop where
  cursorX : s'.cursorX = s.cursorX + text.length
  cursorY : s'.cursorY = s.cursorY
  currentColor : s'.currentColor = s.currentColor
  cells : ∀ i, s'.cells i =
    if s.cursorY * 80 + s.cursorX ≤ i ∧ i < s.cursorY * 80 + s.cursorX + text.length then
      textCell s.currentColor text (i - (s.cursorY * 80 + s.cursorX))
    else s.cells i

theorem RowPrinted.nil (s : Vga) : RowPrinted s [] s := by
  refine ⟨(Int.add_zero _).symm, rfl, rfl, fun i => ?_⟩
  rw [List.length_nil, if_neg (by omega)]

theorem RowPrinted.append (first : RowPrinted s text s') (second : RowPrinted s' text' s'') :
    RowPrinted s (text ++ text') s'' := by
  rcases first with ⟨x, y, color, cells⟩
  rcases second with ⟨x', y', color', cells'⟩
  refine ⟨?_, y'.trans y, color'.trans color, fun i => ?_⟩
  · rw [x', x, List.length_append]
    omega
  · rw [cells', cells, x, y, color, List.length_append]
    by_cases late : s.cursorY * 80 + s.cursorX + text.length ≤ i
    · by_cases inside : i < s.cursorY * 80 + s.cursorX + text.length + text'.length
      · have index : (i - (s.cursorY * 80 + s.cursorX)).toNat =
            text.length + (i - (s.cursorY * 80 + (s.cursorX + text.length))).toNat := by omega
        rw [if_pos (by omega), if_pos (by omega), textCell, textCell, index,
          List.getD_append_right _ _ _ _ (Nat.le_add_right _ _), Nat.add_sub_cancel_left]
      · rw [if_neg (by omega), if_neg (by omega), if_neg (by omega)]
    · by_cases early : s.cursorY * 80 + s.cursorX ≤ i
      · rw [if_neg (by omega), if_pos (by omega), if_pos (by omega), textCell, textCell,
          List.getD_append _ _ _ _ (by omega)]
      · rw [if_neg (by omega), if_neg (by omega), if_neg (by omega)]

/-! ## One character -/

theorem placeChar_plain (plain : Plain c) (s : Vga) :
    placeChar c s = { s.store (s.cursorY * 80 + s.cursorX) (vgaEntry c s.currentColor) with
      cursorX := s.cursorX + 1 } := by
  rw [placeChar, if_neg plain.1, if_neg plain.2.1, if_neg plain.2.2]
  rfl

/-- The cell of a character. -/
theorem placeChar_row (plain : Plain c) (s : Vga) : RowPrinted s [c] (placeChar c s) := by
  rw [placeChar_plain plain]
  refine ⟨rfl, rfl, rfl, fun i => ?_⟩
  refine (Vga.store_cells ..).trans ?_
  rw [List.length_singleton]
  by_cases here : i = s.cursorY * 80 + s.cursorX
  · have first : (i - (s.cursorY * 80 + s.cursorX)).toNat = 0 := by omega
    rw [if_pos here, if_pos (by omega), textCell, first]
    rfl
  · rw [if_neg here, if_neg (by omega)]

/-- A character before the last column. -/
theorem vgaPutchar_row (plain : Plain c) (room : s.cursorX + 1 < 80) (onScreen : s.cursorY < 50) :
    RowPrinted s [c] (vgaPutchar c s) := by
  have placed := placeChar_row plain s
  have x : (placeChar c s).cursorX = s.cursorX + 1 := placed.cursorX
  have stays : wrapLine (placeChar c s) = placeChar c s := by
    rw [wrapLine, if_neg]
    rw [x, vgaCols]
    omega
  have still : ¬ (placeChar c s).cursorY ≥ vgaRows := by
    rw [placed.cursorY, vgaRows]
    omega
  have same : vgaPutchar c s = { placeChar c s with trace.cursors :=
      ((placeChar c s).cursorX, (placeChar c s).cursorY) :: (placeChar c s).trace.cursors } := by
    rw [vgaPutchar]
    simp only [stays, if_neg still]
  rw [same]
  exact ⟨placed.cursorX, placed.cursorY, placed.currentColor, placed.cells⟩

/-- A text that does not reach the last column. -/
theorem putChars_row (plain : ∀ c ∈ text, Plain c) (room : s.cursorX + text.length < 80)
    (onScreen : s.cursorY < 50) : RowPrinted s text (putChars text s) := by
  induction text generalizing s with
  | nil => exact .nil s
  | cons c text ih =>
      rw [List.length_cons] at room
      have first := vgaPutchar_row (plain c List.mem_cons_self) (s := s) (by omega) onScreen
      have x : (vgaPutchar c s).cursorX = s.cursorX + 1 := first.cursorX
      have rest := ih (s := vgaPutchar c s)
        (fun d member => plain d (List.mem_cons_of_mem c member)) (by omega)
        (first.cursorY.symm ▸ onScreen)
      exact first.append rest

theorem wrapLine_cursorX (s : Vga) :
    (wrapLine s).cursorX = if s.cursorX ≥ 80 then 0 else s.cursorX := by
  have cols : ((vgaCols : Nat) : Int) = 80 := rfl
  unfold wrapLine
  rw [cols]
  split <;> rfl

theorem vgaScroll_cursorX (s : Vga) : (vgaScroll s).cursorX = s.cursorX := by
  rcases vgaScroll_eq s with ⟨t, drawn, eq, -⟩
  rw [eq]
  exact drawn.cursorX

/-- The column after a character, wherever the cursor is. -/
theorem vgaPutchar_cursorX (plain : Plain c) (s : Vga) :
    (vgaPutchar c s).cursorX = if s.cursorX + 1 ≥ 80 then 0 else s.cursorX + 1 := by
  have x : (wrapLine (placeChar c s)).cursorX =
      if s.cursorX + 1 ≥ 80 then 0 else s.cursorX + 1 := by
    rw [wrapLine_cursorX, placeChar_plain plain]
  rw [vgaPutchar]
  simp only
  split
  · exact (vgaScroll_cursorX _).trans x
  · exact x

/-- A character in the last column of a row that is not the last one. -/
theorem vgaPutchar_last (plain : Plain c) (last : s.cursorX = 79) (above : s.cursorY < 49) :
    (vgaPutchar c s).cursorX = 0 ∧ (vgaPutchar c s).cursorY = s.cursorY + 1 ∧
      (vgaPutchar c s).cells = (placeChar c s).cells := by
  have placed := placeChar_row plain s
  have x : (placeChar c s).cursorX = s.cursorX + 1 := placed.cursorX
  have wraps : wrapLine (placeChar c s) =
      { placeChar c s with cursorX := 0, cursorY := s.cursorY + 1 } := by
    rw [wrapLine, if_pos, placed.cursorY]
    rw [x, last]
    decide
  have still : ¬ s.cursorY + 1 ≥ vgaRows := by
    rw [vgaRows]
    omega
  rw [vgaPutchar]
  simp only [wraps, if_neg still]
  exact ⟨trivial, trivial, trivial⟩

/-- The rows move up, and the last one is blank. -/
def scrolled (color : Byte) (cells : Int → BitVec 16) (i : Int) : BitVec 16 :=
  if 0 ≤ i ∧ i < 3920 then cells (i + 80)
  else if 3920 ≤ i ∧ i < 4000 then vgaEntry 0x20#8 color
  else cells i

/-- A character in the last column of the last row. -/
theorem vgaPutchar_corner (plain : Plain c) (last : s.cursorX = 79) (bottom : s.cursorY = 49) :
    (vgaPutchar c s).cursorX = 0 ∧ (vgaPutchar c s).cursorY = 49 ∧
      (vgaPutchar c s).cells = scrolled s.currentColor (placeChar c s).cells := by
  have placed := placeChar_row plain s
  have x : (placeChar c s).cursorX = s.cursorX + 1 := placed.cursorX
  have wraps : wrapLine (placeChar c s) =
      { placeChar c s with cursorX := 0, cursorY := 50 } := by
    rw [wrapLine, if_pos, placed.cursorY, bottom]
    · rfl
    · rw [x, last]
      decide
  have full : (50 : Int) ≥ vgaRows := by decide
  rcases vgaScroll_eq (wrapLine (placeChar c s)) with ⟨t, drawn, eq, cells⟩
  rw [wraps] at drawn eq cells
  rw [vgaPutchar]
  simp only [wraps, if_pos full, eq]
  refine ⟨drawn.cursorX, trivial, funext fun i => ?_⟩
  rw [cells, placed.currentColor]
  rfl

end Learnix
