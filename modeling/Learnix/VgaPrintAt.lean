import Learnix.ScreenText

/-!
# Text at a position

`vga_print_at` sets the cursor and prints from there, so that the cursor stays where the text
ends. It is where it was before only if it was there already, and a text that ends in the
last cell of the screen scrolls it (`print_at_iff`).
-/

namespace Learnix

open Machine

variable {s u : Vga} {str : CString} {text : List Byte} {x y : Int}

/-- The call changes only the cells of the text, and the cursor is where it was before. -/
structure KeepsConsole (str : CString) (x y : Int) (s : Vga) : Prop where
  cells : ∀ i, ¬ (y * 80 + x ≤ i ∧ i < y * 80 + x + str.chars.length) →
    (vgaPrintAt str x y s).cells i = s.cells i
  cursorX : (vgaPrintAt str x y s).cursorX = s.cursorX
  cursorY : (vgaPrintAt str x y s).cursorY = s.cursorY

/-- Where a text of this length ends. -/
def printEnd (length : Nat) (x y : Int) : Int × Int :=
  if x + length < 80 then (x + length, y) else (0, min (y + 1) 49)

/-- Each row above the text has blanks in front of its first column and then the text itself,
and in the last row there are blanks in front of it. -/
def ScrollsInPlace (str : CString) (x : Int) (s : Vga) : Prop :=
  ∀ i, 0 ≤ i → i < 3920 + x → s.cells i =
    if i % 80 < x then vgaEntry 0x20#8 s.currentColor
    else textCell s.currentColor str.chars (i % 80 - x)

/-- A text that fills its row up: the cursor goes on to the next row, and from the last one the
screen scrolls. -/
theorem putChars_full (plain : ∀ c ∈ text, Plain c) (column : s.cursorX < 80)
    (row : s.cursorY < 50) (full : s.cursorX + text.length = 80) :
    ((putChars text s).cursorX, (putChars text s).cursorY) = (0, min (s.cursorY + 1) 49) ∧
      ∃ u, RowPrinted s text u ∧ (putChars text s).cells =
        if s.cursorY = 49 then scrolled s.currentColor u.cells else u.cells := by
  rcases List.eq_nil_or_concat' text with none | ⟨text, c, rfl⟩
  · rw [none, List.length_nil] at full
    omega
  · rw [List.length_append, List.length_singleton] at full
    have first := putChars_row (fun d member => plain d (List.mem_append_left _ member))
      (by omega : s.cursorX + text.length < 80) row
    have plainC := plain c (List.mem_append_right _ (List.mem_singleton_self c))
    have whole := first.append (placeChar_row plainC _)
    have last : (putChars text s).cursorX = 79 := by
      rw [first.cursorX]
      omega
    have split : putChars (text ++ [c]) s = vgaPutchar c (putChars text s) :=
      putChars_append text [c] s
    rw [split]
    rcases Int.lt_or_eq_of_le (Int.le_of_lt_add_one row : s.cursorY ≤ 49) with above | bottom
    · rcases vgaPutchar_last plainC last (first.cursorY.trans_lt above) with ⟨x', y', cells⟩
      refine ⟨?_, _, whole, ?_⟩
      · rw [x', y', first.cursorY]
        exact Prod.ext rfl (by simp only; omega)
      · rw [cells, if_neg (by omega)]
    · rcases vgaPutchar_corner plainC last (first.cursorY.trans bottom) with ⟨x', y', cells⟩
      refine ⟨?_, _, whole, ?_⟩
      · rw [x', y']
        exact Prod.ext rfl (by simp only; omega)
      · rw [cells, first.currentColor, if_pos bottom]

/-- What the call does to the screen. -/
theorem vgaPrintAt_eq (printable : ∀ c ∈ str.chars, Printable c) (column : 0 ≤ x ∧ x < 80)
    (row : 0 ≤ y ∧ y < 50) (fits : x + str.chars.length ≤ 80) (s : Vga) :
    ((vgaPrintAt str x y s).cursorX, (vgaPrintAt str x y s).cursorY) =
        printEnd str.chars.length x y ∧
      ∃ u, RowPrinted { s with cursorX := x, cursorY := y } str.chars u ∧
        (vgaPrintAt str x y s).cells =
          if x + str.chars.length = 80 ∧ y = 49 then scrolled s.currentColor u.cells
          else u.cells := by
  have plain := fun c member => (printable c member).plain
  have call : vgaPrintAt str x y s = putChars str.chars { s with cursorX := x, cursorY := y } := rfl
  rw [call, printEnd]
  rcases Int.lt_or_eq_of_le fits with short | full
  · have row := putChars_row (s := { s with cursorX := x, cursorY := y }) plain short row.2
    rw [if_pos short]
    refine ⟨Prod.ext row.cursorX row.cursorY, _, row, ?_⟩
    rw [if_neg (by omega)]
  · rw [if_neg (by omega)]
    simp only [full, true_and]
    exact putChars_full (s := { s with cursorX := x, cursorY := y }) plain column.2 row.2 full

/-! ## The screen after a scroll -/

theorem scrolled_above {color : Byte} {cells : Int → BitVec 16} {i : Int} (low : 0 ≤ i)
    (high : i < 3920) : scrolled color cells i = cells (i + 80) :=
  if_pos ⟨low, high⟩

theorem scrolled_last {color : Byte} {cells : Int → BitVec 16} {i : Int} (low : 3920 ≤ i)
    (high : i < 4000) : scrolled color cells i = vgaEntry 0x20#8 color := by
  rw [scrolled, if_neg (by omega), if_pos ⟨low, high⟩]

theorem scrolled_off {color : Byte} {cells : Int → BitVec 16} {i : Int}
    (off : i < 0 ∨ 4000 ≤ i) : scrolled color cells i = cells i := by
  rw [scrolled, if_neg (by omega), if_neg (by omega)]

/-- A text that ends in the last cell of the screen, before it scrolls. -/
structure FillsLastRow (str : CString) (x : Int) (s : Vga) (cells : Int → BitVec 16) : Prop where
  text : ∀ i, 3920 + x ≤ i → i < 4000 →
    cells i = textCell s.currentColor str.chars (i - (3920 + x))
  before : ∀ i, i < 3920 + x ∨ 4000 ≤ i → cells i = s.cells i

theorem RowPrinted.fillsLastRow
    (printed : RowPrinted { s with cursorX := x, cursorY := 49 } str.chars u)
    (full : x + str.chars.length = 80) : FillsLastRow str x s u.cells := by
  have base : (49 : Int) * 80 + x = 3920 + x := rfl
  constructor
  · intro i low high
    rw [printed.cells]
    simp only [base]
    rw [if_pos (by omega)]
  · intro i outside
    rw [printed.cells]
    simp only [base]
    rw [if_neg (by omega)]

/-- What the scroll brings to a place before the end of the text, if the row below it is as it
should be. -/
theorem FillsLastRow.scrolled_eq {cells : Int → BitVec 16} {i : Int}
    (fills : FillsLastRow str x s cells) (column : 0 ≤ x ∧ x < 80) (low : 0 ≤ i)
    (high : i < 3920 + x)
    (below : i + 80 < 3920 + x → s.cells (i + 80) =
      if (i + 80) % 80 < x then vgaEntry 0x20#8 s.currentColor
      else textCell s.currentColor str.chars ((i + 80) % 80 - x)) :
    scrolled s.currentColor cells i =
      if i % 80 < x then vgaEntry 0x20#8 s.currentColor
      else textCell s.currentColor str.chars (i % 80 - x) := by
  rcases lt_or_ge i 3920 with above | last
  · rw [scrolled_above low above]
    rcases lt_or_ge (i + 80) (3920 + x) with blank | text
    · have same : (i + 80) % 80 = i % 80 := by omega
      rw [fills.before _ (.inl blank), below blank, same]
    · have place : i + 80 - (3920 + x) = i % 80 - x := by omega
      rw [fills.text _ text (by omega), place, if_neg (by omega)]
  · rw [scrolled_last last (by omega), if_pos (by omega)]

/-- The scroll changes nothing before the text exactly if it brings to each row what stands
there already. -/
theorem scrollsInPlace_iff {cells : Int → BitVec 16} (fills : FillsLastRow str x s cells)
    (column : 0 ≤ x ∧ x < 80) :
    (∀ i, ¬ (3920 + x ≤ i ∧ i < 4000) → scrolled s.currentColor cells i = s.cells i) ↔
      ScrollsInPlace str x s := by
  constructor
  · intro unchanged
    -- from the last row up
    have up (n : Nat) : ∀ i, 0 ≤ i → i < 3920 + x → 4000 ≤ i + n → s.cells i =
        if i % 80 < x then vgaEntry 0x20#8 s.currentColor
        else textCell s.currentColor str.chars (i % 80 - x) := by
      induction n with
      | zero => intro i low high near; omega
      | succ n ih =>
          intro i low high near
          rw [← unchanged i (by omega)]
          exact fills.scrolled_eq column low high fun blank => ih _ (by omega) blank (by omega)
    intro i low high
    exact up 4000 i low high (by omega)
  · intro inPlace i outside
    rcases lt_or_ge i 0 with negative | low
    · rw [scrolled_off (.inl negative), fills.before _ (.inl (by omega))]
    · rcases lt_or_ge i 4000 with inside | off
      · rw [inPlace i low (by omega)]
        exact fills.scrolled_eq column low (by omega) (inPlace _ (by omega))
      · rw [scrolled_off (.inr off), fills.before _ (.inr off)]

/-! ## The cursor -/

/-- For every text of printable characters that fits in the row, on every screen: the call
changes only the cells of the text and leaves the cursor alone exactly if the cursor was
where the text ends and, should the text end in the last cell of the screen, every row above
shows the same text already. -/
theorem print_at_iff (s : Vga) (printable : ∀ c ∈ str.chars, Printable c)
    (column : 0 ≤ x ∧ x < 80) (row : 0 ≤ y ∧ y < 50) (fits : x + str.chars.length ≤ 80) :
    KeepsConsole str x y s ↔
      (s.cursorX, s.cursorY) = printEnd str.chars.length x y ∧
      (x + str.chars.length = 80 → y = 49 → ScrollsInPlace str x s) := by
  rcases vgaPrintAt_eq printable column row fits s with ⟨cursor, u, printed, cells⟩
  have same : (vgaPrintAt str x y s).cursorX = s.cursorX ∧
      (vgaPrintAt str x y s).cursorY = s.cursorY ↔
      (s.cursorX, s.cursorY) = printEnd str.chars.length x y := by
    rw [← cursor, Prod.mk.injEq]
    exact and_congr eq_comm eq_comm
  have outside : (∀ i, ¬ (y * 80 + x ≤ i ∧ i < y * 80 + x + str.chars.length) →
      (vgaPrintAt str x y s).cells i = s.cells i) ↔
      (x + str.chars.length = 80 → y = 49 → ScrollsInPlace str x s) := by
    rw [cells]
    by_cases corner : x + str.chars.length = 80 ∧ y = 49
    · rcases corner with ⟨full, rfl⟩
      have base : (49 : Int) * 80 + x = 3920 + x := rfl
      have end_ : 3920 + x + str.chars.length = 4000 := by omega
      rw [if_pos ⟨full, rfl⟩, base, end_,
        scrollsInPlace_iff (printed.fillsLastRow full) column]
      simp [full]
    · rw [if_neg corner]
      refine iff_of_true (fun i off => ?_) fun full bottom => absurd ⟨full, bottom⟩ corner
      exact (printed.cells i).trans (if_neg off)
  constructor
  · intro keeps
    exact ⟨same.mp ⟨keeps.cursorX, keeps.cursorY⟩, outside.mp keeps.cells⟩
  · intro condition
    rcases same.mpr condition.1 with ⟨cursorX, cursorY⟩
    exact ⟨outside.mpr condition.2, cursorX, cursorY⟩

/-- The string `A`. -/
def letterA : CString := ⟨[0x41#8], by decide⟩

/-- A cleared screen with the cursor here. -/
def cursorAt (x y : Int) : Vga := { vgaStart fun _ => 0#16 with cursorX := x, cursorY := y }

/-- `A` in front of the cursor. -/
theorem print_at_iff_before : KeepsConsole letterA 4 7 (cursorAt 5 7) := by
  refine (print_at_iff _ (by decide) (by decide) (by decide) (by decide)).mpr ⟨rfl, fun full => ?_⟩
  exact absurd full (by decide)

/-- `A` in row 22, with the cursor in the first one. -/
theorem print_at_moves :
    (vgaPrintAt letterA 0 22 (cursorAt 0 0)).cursorY = 22 ∧ (cursorAt 0 0).cursorY = 0 ∧
      ¬ KeepsConsole letterA 0 22 (cursorAt 0 0) := by
  have moved : (vgaPrintAt letterA 0 22 (cursorAt 0 0)).cursorY = 22 := rfl
  refine ⟨moved, rfl, fun keeps => ?_⟩
  have row := keeps.cursorY
  rw [moved] at row
  exact absurd row (by decide)

end Learnix
