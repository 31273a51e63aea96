import Learnix.Vga

/-!
# The screen as a window

A terminal with 80 columns and without a last row never scrolls. After the screen has been
cleared it shows 50 rows of such a terminal, the last of them the row of the cursor once
there are so many (`screen_shows_terminal`).
-/

namespace Learnix

open Machine

/-- The grid of characters, by row and column, and the cursor. -/
structure Terminal where
  grid : Nat → Nat → Byte
  x : Nat
  y : Nat

namespace Terminal

/-- Nothing but spaces. -/
def blank : Terminal := ⟨fun _ _ => 0x20#8, 0, 0⟩

/-- A newline, a carriage return, a tab to the next multiple of 4, or a character that is
shown. -/
def place (c : Byte) (t : Terminal) : Terminal :=
  if c = 0x0A#8 then { t with x := 0, y := t.y + 1 }
  else if c = 0x0D#8 then { t with x := 0 }
  else if c = 0x09#8 then { t with x := (t.x / 4 + 1) * 4 }
  else
    { t with
      grid := fun r k => if r = t.y ∧ k = t.x then c else t.grid r k
      x := t.x + 1 }

/-- The line ends after column 79. -/
def wrap (t : Terminal) : Terminal := if t.x ≥ 80 then { t with x := 0, y := t.y + 1 } else t

/-- One character. -/
def put (c : Byte) (t : Terminal) : Terminal := (t.place c).wrap

end Terminal

/-- What is done after the screen has been cleared. -/
inductive Output
  | char (c : Byte)
  | color (fg bg : Byte)

def Output.run : Output → Vga → Vga
  | char c => vgaPutchar c
  | color fg bg => vgaSetColor fg bg

/-- The terminal has no colours. -/
def Output.show : Output → Terminal → Terminal
  | char c => Terminal.put c
  | color _ _ => id

/-- The character of a cell. -/
def cellChar (v : BitVec 16) : Byte := v.setWidth 8

variable {s : Vga} {t : Terminal} {c : Byte} {top : Nat}

theorem cellChar_vgaEntry (c color : Byte) : cellChar (vgaEntry c color) = c := by
  unfold cellChar vgaEntry
  ext i below
  have low : i < 16 := by omega
  simp [BitVec.getElem_signExtend, below, low]

/-! ## The window moves on -/

/-- Row `r` of the screen is row `r + top` of the terminal, the cursor is at the same place,
and the rows of the terminal after those on the screen are empty. -/
structure ScreenWindow (top : Nat) (s : Vga) (t : Terminal) : Prop where
  x : s.cursorX = t.x
  y : s.cursorY + top = t.y
  rows : ∀ r x : Nat, r < 50 → x < 80 → cellChar (s.cells (r * 80 + x)) = t.grid (r + top) x
  below : ∀ r x, top + 50 ≤ r → t.grid r x = 0x20#8

theorem ScreenWindow.store (c color : Byte) (window : ScreenWindow top s t) (column : t.x < 80)
    (high : t.y < top + 50) :
    ScreenWindow top { s.store (s.cursorY * vgaCols + s.cursorX) (vgaEntry c color) with
        cursorX := s.cursorX + 1 }
      { t with grid := fun r k => if r = t.y ∧ k = t.x then c else t.grid r k, x := t.x + 1 } := by
  rcases window with ⟨x, y, rows, below⟩
  refine ⟨?_, y, fun r k row col => ?_, fun r k beyond => ?_⟩
  · exact (congrArg (· + 1) x).trans (Nat.cast_succ t.x).symm
  · have here : ((r : Int) * 80 + k = s.cursorY * vgaCols + s.cursorX) ↔
        (r + top = t.y ∧ k = t.x) := by
      unfold vgaCols
      omega
    have cell := Vga.store_cells s (s.cursorY * vgaCols + s.cursorX) (r * 80 + k) (vgaEntry c color)
    refine (congrArg cellChar cell).trans ?_
    simp only [here]
    split
    · exact cellChar_vgaEntry c color
    · exact rows r k row col
  · have other : ¬ (r = t.y ∧ k = t.x) := fun same => by omega
    exact (if_neg other).trans (below r k beyond)

/-- The cursor goes to the start of the next row. -/
theorem ScreenWindow.down (window : ScreenWindow top s t) :
    ScreenWindow top { s with cursorX := 0, cursorY := s.cursorY + 1 }
      { t with x := 0, y := t.y + 1 } := by
  refine ⟨rfl, ?_, window.rows, window.below⟩
  show s.cursorY + 1 + top = ((t.y + 1 : Nat) : Int)
  have y := window.y
  omega

theorem ScreenWindow.place (c : Byte) (window : ScreenWindow top s t) (column : t.x < 80)
    (high : t.y < top + 50) : ScreenWindow top (placeChar c s) (t.place c) := by
  unfold placeChar Terminal.place
  split
  · exact window.down
  · split
    · exact ⟨rfl, window.y, window.rows, window.below⟩
    · split
      · refine ⟨?_, window.y, window.rows, window.below⟩
        show (s.cursorX + 4) / 4 * 4 = (((t.x / 4 + 1) * 4 : Nat) : Int)
        have x := window.x
        omega
      · exact window.store c s.currentColor column high

theorem ScreenWindow.wrap (window : ScreenWindow top s t) :
    ScreenWindow top (wrapLine s) t.wrap := by
  have full : s.cursorX ≥ vgaCols ↔ t.x ≥ 80 := by
    rw [window.x]
    unfold vgaCols
    omega
  unfold wrapLine Terminal.wrap
  simp only [full]
  split
  · exact window.down
  · exact window

/-- Below the last row of the screen the terminal is still empty, as the last row is after
the others have moved up. -/
theorem ScreenWindow.scroll (window : ScreenWindow top s t) (full : t.y = top + 50) :
    ScreenWindow (top + 1) (vgaScroll s) t := by
  rcases vgaScroll_eq s with ⟨s', drawn, eq, cells⟩
  have rows : ∀ r x : Nat, r < 50 → x < 80 →
      cellChar (s'.cells (r * 80 + x)) = t.grid (r + (top + 1)) x := by
    intro r x row col
    rw [cells]
    rcases Nat.lt_or_ge r 49 with above | last
    · have source : (r : Int) * 80 + x + 80 = ((r + 1 : Nat) : Int) * 80 + x := by omega
      have place : r + 1 + top = r + (top + 1) := by omega
      rw [if_pos (by omega), source, window.rows (r + 1) x (by omega) col, place]
    · rw [if_neg (by omega), if_pos (by omega), cellChar_vgaEntry,
        window.below _ x (by omega)]
  have y : (49 : Int) + (top + 1 : Nat) = t.y := by omega
  rw [eq]
  exact ⟨drawn.cursorX.trans window.x, y, rows, fun r x beyond => window.below r x (by omega)⟩

/-! ## The whole output -/

theorem Terminal.place_cursor (c : Byte) (column : t.x < 80) :
    t.y ≤ (t.place c).y ∧ ((t.place c).x < 80 ∧ (t.place c).y ≤ t.y + 1 ∨
      (t.place c).x = 80 ∧ (t.place c).y = t.y) := by
  unfold Terminal.place
  split
  · exact ⟨Nat.le_succ _, .inl ⟨Nat.zero_lt_succ _, Nat.le_refl _⟩⟩
  · split
    · exact ⟨Nat.le_refl _, .inl ⟨Nat.zero_lt_succ _, Nat.le_succ _⟩⟩
    · split
      · have tab : (t.x / 4 + 1) * 4 < 80 ∨ (t.x / 4 + 1) * 4 = 80 := by omega
        exact ⟨Nat.le_refl _, tab.imp (fun less => ⟨less, Nat.le_succ _⟩) fun same => ⟨same, rfl⟩⟩
      · have next : t.x + 1 < 80 ∨ t.x + 1 = 80 := by omega
        exact ⟨Nat.le_refl _, next.imp (fun less => ⟨less, Nat.le_succ _⟩) fun same => ⟨same, rfl⟩⟩

/-- The cursor of the terminal goes down one row at most. -/
theorem Terminal.put_cursor (c : Byte) (column : t.x < 80) :
    (t.put c).x < 80 ∧ t.y ≤ (t.put c).y ∧ (t.put c).y ≤ t.y + 1 := by
  have placed := Terminal.place_cursor c column
  unfold Terminal.put Terminal.wrap
  split
  · refine ⟨Nat.zero_lt_succ _, ?_, ?_⟩
    · show t.y ≤ (t.place c).y + 1
      omega
    · show (t.place c).y + 1 ≤ t.y + 1
      omega
  · omega

/-- The screen shows the terminal: its last row is that of the cursor, or one before it. -/
def Shows (s : Vga) (t : Terminal) : Prop := ScreenWindow (t.y - 49) s t ∧ t.x < 80

theorem Shows.putchar (c : Byte) (shows : Shows s t) : Shows (vgaPutchar c s) (t.put c) := by
  rcases shows with ⟨window, column⟩
  rcases Terminal.put_cursor c column with ⟨column', down, step⟩
  have moved := (window.place c column (by omega)).wrap
  change ScreenWindow (t.y - 49) (wrapLine (placeChar c s)) (t.put c) at moved
  refine ⟨?_, column'⟩
  have scrolled : ScreenWindow ((t.put c).y - 49)
      (if (wrapLine (placeChar c s)).cursorY ≥ vgaRows then vgaScroll (wrapLine (placeChar c s))
        else wrapLine (placeChar c s)) (t.put c) := by
    have row := moved.y
    unfold vgaRows
    split
    · next full =>
      have top : (t.put c).y - 49 = t.y - 49 + 1 := by omega
      rw [top]
      exact moved.scroll (by omega)
    · next inside =>
      have top : (t.put c).y - 49 = t.y - 49 := by omega
      rwa [top]
  exact ⟨scrolled.x, scrolled.y, scrolled.rows, scrolled.below⟩

theorem shows_clear (s : Vga) : Shows (vgaClear s) .blank := by
  rcases vgaClear_eq s with ⟨s', drawn, eq, cells⟩
  have rows : ∀ r x : Nat, r < 50 → x < 80 → cellChar (s'.cells (r * 80 + x)) = 0x20#8 := by
    intro r x row col
    rw [cells _ (by unfold OnScreen; omega), cellChar_vgaEntry]
  rw [eq]
  exact ⟨⟨rfl, rfl, rows, fun _ _ _ => rfl⟩, Nat.zero_lt_succ _⟩

theorem Output.run_shows (o : Output) (shows : Shows s t) : Shows (o.run s) (o.show t) := by
  cases o with
  | char c => exact shows.putchar c
  | color fg bg => exact ⟨⟨shows.1.x, shows.1.y, shows.1.rows, shows.1.below⟩, shows.2⟩

theorem output_shows (outputs : List Output) (shows : Shows s t) :
    Shows (outputs.foldl (fun s o => o.run s) s) (outputs.foldl (fun t o => o.show t) t) := by
  induction outputs generalizing s t with
  | nil => exact shows
  | cons o outputs ih => exact ih (o.run_shows shows)

/-- After `vga_clear`, and whatever characters and colours, the screen shows the rows of the
terminal from `Y - 49` on, or from the first, where `Y` is the row of its cursor. -/
theorem screen_shows_terminal (s : Vga) (outputs : List Output) :
    let screen := outputs.foldl (fun s o => o.run s) (vgaClear s)
    let terminal := outputs.foldl (fun t o => o.show t) Terminal.blank
    (∀ r x : Nat, r < 50 → x < 80 →
      cellChar (screen.cells (r * 80 + x)) = terminal.grid (r + (terminal.y - 49)) x) ∧
    screen.cursorX = terminal.x ∧ screen.cursorY = (min terminal.y 49 : Nat) := by
  intro screen terminal
  rcases output_shows outputs (shows_clear s) with ⟨window, column⟩
  have row : screen.cursorY + (terminal.y - 49 : Nat) = terminal.y := window.y
  exact ⟨window.rows, window.x, by omega⟩

end Learnix
