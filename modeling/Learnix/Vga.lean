import Learnix.Lib.ByteMemory
import Learnix.Lib.ForLoop

/-!
# The screen

`vga.c`. A cell of the screen holds a character and, in its upper byte, the colour. Beside
the variables of the program the state records which indices of `vga` and of the digit
buffers were used, and the cursor after every character: all of them stay inside
(`calls_stay_inside`), for the cursor does so after every character.
-/

namespace Learnix

open Machine ForLoop

/-- A string: the characters before its NUL. -/
structure CString where
  chars : List Byte
  noNul : ∀ c ∈ chars, c ≠ 0#8

/-- The string in an array of a character and a NUL. -/
def charString (c : Byte) : CString :=
  if nul : c = 0#8 then ⟨[], by simp⟩ else ⟨[c], by simpa using nul⟩

/-- `VGA_COLS`. -/
def vgaCols : Nat := 80

/-- `VGA_ROWS`. -/
def vgaRows : Nat := 50

/-- What was used so far. -/
structure VgaTrace where
  /-- The indices of `vga` that were read or written. -/
  cells : List Int
  /-- The cursor after each `vga_putchar`. -/
  cursors : List (Int × Int)
  /-- The indices at which `vga_print_int` wrote to its buffer. -/
  intDigits : List Int
  /-- The indices at which `vga_print_hex` wrote to its buffer. -/
  hexDigits : List Int

/-- The video memory and the static variables of `vga.c`. -/
structure Vga where
  cells : Int → BitVec 16
  cursorX : Int
  cursorY : Int
  currentColor : Byte
  trace : VgaTrace

namespace Vga

/-- Read `vga[i]`. -/
def load (i : Int) (s : Vga) : BitVec 16 × Vga :=
  (s.cells i, { s with trace.cells := i :: s.trace.cells })

/-- `vga[i] = v`. -/
def store (i : Int) (v : BitVec 16) (s : Vga) : Vga :=
  { s with cells := Function.update s.cells i v, trace.cells := i :: s.trace.cells }

theorem store_cells (s : Vga) (i j : Int) (v : BitVec 16) :
    (s.store i v).cells j = if j = i then v else s.cells j :=
  Function.update_apply s.cells i v j

end Vga

/-- A `char` is signed: above 0x7F its sign comes into the upper byte. -/
def vgaEntry (c color : Byte) : BitVec 16 := c.signExtend 16 ||| (color.setWidth 16 <<< 8)

def vgaColor (fg bg : Byte) : Byte := fg ||| (bg <<< 4)

def vgaClear (s : Vga) : Vga :=
  let s := (List.range (vgaCols * vgaRows)).foldl
    (fun s i => s.store i (vgaEntry 0x20#8 s.currentColor)) s
  { s with cursorX := 0, cursorY := 0 }

def vgaSetColor (fg bg : Byte) (s : Vga) : Vga := { s with currentColor := vgaColor fg bg }

/-- The body of the loops that move the rows up. -/
def moveCell (y x : Nat) (s : Vga) : Vga :=
  let moved := s.load ((y + 1) * vgaCols + x)
  moved.2.store (y * vgaCols + x) moved.1

def vgaScroll (s : Vga) : Vga :=
  let s := (List.range (vgaRows - 1)).foldl
    (fun s y => (List.range vgaCols).foldl (fun s x => moveCell y x s) s) s
  let s := (List.range vgaCols).foldl
    (fun s x => s.store (((vgaRows - 1 : Nat) : Int) * vgaCols + x)
      (vgaEntry 0x20#8 s.currentColor)) s
  { s with cursorY := ((vgaRows - 1 : Nat) : Int) }

/-- The four cases of `vga_putchar`: newline, carriage return, tab, and the others. In a tab,
`(cursor_x + 4) & ~3` is the multiple of 4 below. -/
def placeChar (c : Byte) (s : Vga) : Vga :=
  if c = 0x0A#8 then { s with cursorX := 0, cursorY := s.cursorY + 1 }
  else if c = 0x0D#8 then { s with cursorX := 0 }
  else if c = 0x09#8 then { s with cursorX := (s.cursorX + 4) / 4 * 4 }
  else
    let s := s.store (s.cursorY * vgaCols + s.cursorX) (vgaEntry c s.currentColor)
    { s with cursorX := s.cursorX + 1 }

def wrapLine (s : Vga) : Vga :=
  if s.cursorX ≥ vgaCols then { s with cursorX := 0, cursorY := s.cursorY + 1 } else s

def vgaPutchar (c : Byte) (s : Vga) : Vga :=
  let s := wrapLine (placeChar c s)
  let s := if s.cursorY ≥ vgaRows then vgaScroll s else s
  { s with trace.cursors := (s.cursorX, s.cursorY) :: s.trace.cursors }

def vgaPrint (str : CString) (s : Vga) : Vga := str.chars.foldl (fun s c => vgaPutchar c s) s

def vgaPrintAt (str : CString) (x y : Int) (s : Vga) : Vga :=
  vgaPrint str { s with cursorX := x, cursorY := y }

/-- A buffer of digits, with the indices at which it was written. -/
structure Digits where
  buf : Int → Byte
  written : List Int

def Digits.store (i : Int) (v : Byte) (d : Digits) : Digits where
  buf := Function.update d.buf i v
  written := i :: d.written

/-- The loop of `vga_print_int` that takes the digits off: `i` and the buffer after it. -/
def takeDigits (n i : Int) (d : Digits) : Int × Digits :=
  if 0 < n then takeDigits (n / 10) (i + 1) (d.store i (BitVec.ofInt 8 (0x30 + n % 10)))
  else (i, d)
termination_by n.toNat
decreasing_by omega

/-- The loops that print the digits from the last that was stored to the first. -/
def printBack (d : Digits) : Nat → Vga → Vga
  | 0, s => s
  | j + 1, s => printBack d j (vgaPutchar (d.buf j) s)

/-- `-n` is `n` for the smallest number: then no loop runs. -/
def vgaPrintInt (n : BitVec 32) (buf : Int → Byte) (s : Vga) : Vga :=
  let (n, s) := if n.slt 0#32 then (-n, vgaPutchar 0x2D#8 s) else (n, s)
  if n = 0#32 then vgaPutchar 0x30#8 s
  else
    let (i, d) := takeDigits n.toInt 0 ⟨buf, []⟩
    printBack d i.toNat { s with trace.intDigits := d.written ++ s.trace.intDigits }

/-- `"0123456789ABCDEF"`. -/
def hexChars : List Byte :=
  [0x30#8, 0x31#8, 0x32#8, 0x33#8, 0x34#8, 0x35#8, 0x36#8, 0x37#8, 0x38#8, 0x39#8, 0x41#8, 0x42#8,
    0x43#8, 0x44#8, 0x45#8, 0x46#8]

/-- The loop of `vga_print_hex` that takes the digits off, with the indices below `k` to go. -/
def takeHex : Nat → BitVec 32 → Digits → Digits
  | 0, _, d => d
  | i + 1, n, d => takeHex i (n >>> 4) (d.store i (hexChars.getD (n &&& 0xF#32).toNat 0#8))

def vgaPrintHex (n : BitVec 32) (buf : Int → Byte) (s : Vga) : Vga :=
  let d := takeHex 8 n ⟨buf, []⟩
  (List.range 8).foldl (fun s (i : Nat) => vgaPutchar (d.buf i) s)
    { s with trace.hexDigits := d.written ++ s.trace.hexDigits }

/-- The calls of the other parts of the kernel. A buffer of digits is given with what it
held before. -/
inductive VgaCall
  | clear
  | setColor (fg bg : Byte)
  | putchar (c : Byte)
  | print (str : CString)
  | printAt (str : CString) (x y : Int)
  | printInt (n : BitVec 32) (buf : Int → Byte)
  | printHex (n : BitVec 32) (buf : Int → Byte)

def VgaCall.run : VgaCall → Vga → Vga
  | clear => vgaClear
  | setColor fg bg => vgaSetColor fg bg
  | putchar c => vgaPutchar c
  | print str => vgaPrint str
  | printAt str x y => vgaPrintAt str x y
  | printInt n buf => vgaPrintInt n buf
  | printHex n buf => vgaPrintHex n buf

/-- The position that `vga_print_at` is given is one on the screen. -/
def VgaCall.PlacedOnScreen : VgaCall → Prop
  | printAt _ x y => 0 ≤ x ∧ x < vgaCols ∧ 0 ≤ y ∧ y < vgaRows
  | _ => True

/-- The static variables as they are at the start. -/
def vgaStart (cells : Int → BitVec 16) : Vga := ⟨cells, 0, 0, 0#8, ⟨[], [], [], []⟩⟩

/-! ## The loops over the cells -/

/-- `i` is the index of a cell. -/
def OnScreen (i : Int) : Prop := 0 ≤ i ∧ i < 4000

/-- Only cells of the screen were used, and nothing but cells was changed. -/
structure Drawn (s s' : Vga) : Prop where
  cursorX : s'.cursorX = s.cursorX
  cursorY : s'.cursorY = s.cursorY
  currentColor : s'.currentColor = s.currentColor
  cursors : s'.trace.cursors = s.trace.cursors
  intDigits : s'.trace.intDigits = s.trace.intDigits
  hexDigits : s'.trace.hexDigits = s.trace.hexDigits
  cells : ∀ i ∈ s'.trace.cells, i ∈ s.trace.cells ∨ OnScreen i

variable {s s' s'' : Vga} {i : Int} {v : BitVec 16} {c : Byte}

theorem Drawn.refl (s : Vga) : Drawn s s :=
  ⟨rfl, rfl, rfl, rfl, rfl, rfl, fun _ member => .inl member⟩

theorem Drawn.trans (first : Drawn s s') (second : Drawn s' s'') : Drawn s s'' where
  cursorX := second.cursorX.trans first.cursorX
  cursorY := second.cursorY.trans first.cursorY
  currentColor := second.currentColor.trans first.currentColor
  cursors := second.cursors.trans first.cursors
  intDigits := second.intDigits.trans first.intDigits
  hexDigits := second.hexDigits.trans first.hexDigits
  cells i member := (second.cells i member).elim (first.cells i) .inr

theorem used_or_onScreen {js : List Int} (inside : OnScreen i) :
    ∀ j ∈ i :: js, j ∈ js ∨ OnScreen j := by
  intro j member
  rcases List.mem_cons.mp member with rfl | old
  · exact .inr inside
  · exact .inl old

theorem Drawn.load (inside : OnScreen i) : Drawn s (s.load i).2 :=
  ⟨rfl, rfl, rfl, rfl, rfl, rfl, used_or_onScreen inside⟩

theorem Drawn.store (inside : OnScreen i) : Drawn s (s.store i v) :=
  ⟨rfl, rfl, rfl, rfl, rfl, rfl, used_or_onScreen inside⟩

/-- A loop that clears the `n` cells from `base` on. -/
theorem clearCells (s : Vga) (index : Nat → Int) (base : Int) (n : Nat)
    (index_eq : ∀ x, index x = base + x) (low : 0 ≤ base) (high : base + n ≤ 4000) :
    let s' := (List.range n).foldl
      (fun s x => s.store (index x) (vgaEntry 0x20#8 s.currentColor)) s
    Drawn s s' ∧ ∀ i, s'.cells i =
      if base ≤ i ∧ i < base + n then vgaEntry 0x20#8 s.currentColor else s.cells i := by
  intro s'
  refine foldl_range (P := fun k t => Drawn s t ∧ ∀ i, t.cells i =
    if base ≤ i ∧ i < base + k then vgaEntry 0x20#8 s.currentColor else s.cells i) ?_ ?_
  · refine ⟨Drawn.refl s, fun i => ?_⟩
    rw [if_neg (by omega)]
  · rintro j t below ⟨drawn, cells⟩
    have inside : OnScreen (index j) := by
      rw [index_eq]
      unfold OnScreen
      omega
    refine ⟨drawn.trans (.store inside), fun i => ?_⟩
    rw [Vga.store_cells, drawn.currentColor, cells, index_eq]
    split <;> split <;> grind

/-- The loops that move the rows up come to `k` cells. -/
def MovedUp (s : Vga) (k : Int) (s' : Vga) : Prop :=
  Drawn s s' ∧ ∀ i, s'.cells i = if 0 ≤ i ∧ i < k then s.cells (i + 80) else s.cells i

theorem moveCell_movedUp {x y : Nat} (left : x < 80) (above : y < 49)
    (moved : MovedUp s (y * 80 + x) s') :
    MovedUp s (y * 80 + (x + 1 : Nat)) (moveCell y x s') := by
  rcases moved with ⟨drawn, cells⟩
  have target : OnScreen ((y : Int) * vgaCols + x) := by
    unfold OnScreen vgaCols
    omega
  have source : OnScreen (((y : Int) + 1) * vgaCols + x) := by
    unfold OnScreen vgaCols
    omega
  refine ⟨(drawn.trans (.load source)).trans (.store target), fun i => ?_⟩
  have step : (moveCell y x s').cells i =
      if i = (y : Int) * vgaCols + x then s'.cells (((y : Int) + 1) * vgaCols + x)
      else s'.cells i := Vga.store_cells ..
  rw [step, cells, cells]
  unfold vgaCols
  split
  · next here =>
    rw [if_neg (by omega), if_pos (by omega)]
    exact congrArg s.cells (by omega)
  · split <;> split <;> first | rfl | omega

theorem movedUp_zero (s : Vga) : MovedUp s 0 s := by
  refine ⟨Drawn.refl s, fun i => ?_⟩
  rw [if_neg (by omega)]

theorem moveRow_movedUp {y : Nat} (above : y < 49) (moved : MovedUp s (y * 80) s') :
    MovedUp s ((y + 1 : Nat) * 80)
      ((List.range vgaCols).foldl (fun s x => moveCell y x s) s') := by
  have row : MovedUp s (y * 80 + (vgaCols : Nat))
      ((List.range vgaCols).foldl (fun s x => moveCell y x s) s') := by
    refine foldl_range (P := fun x t => MovedUp s (y * 80 + x) t) ?_ ?_
    · rwa [Nat.cast_zero, Int.add_zero]
    · intro x t left moved
      exact moveCell_movedUp left above moved
  have next : ((y + 1 : Nat) : Int) * 80 = y * 80 + (vgaCols : Nat) := by
    unfold vgaCols
    omega
  rwa [next]

/-- The screen after the rows have moved up. -/
theorem vgaScroll_eq (s : Vga) : ∃ s', Drawn s s' ∧ vgaScroll s = { s' with cursorY := 49 } ∧
    ∀ i, s'.cells i = if 0 ≤ i ∧ i < 3920 then s.cells (i + 80)
      else if 3920 ≤ i ∧ i < 4000 then vgaEntry 0x20#8 s.currentColor else s.cells i := by
  have rows : MovedUp s ((vgaRows - 1 : Nat) * 80) ((List.range (vgaRows - 1)).foldl
      (fun s y => (List.range vgaCols).foldl (fun s x => moveCell y x s) s) s) := by
    refine foldl_range (P := fun y t => MovedUp s (y * 80) t) ?_ ?_
    · rw [Nat.cast_zero, Int.zero_mul]
      exact movedUp_zero s
    · intro y t above moved
      exact moveRow_movedUp above moved
  rcases rows with ⟨drawn, moved⟩
  have last := fun t => clearCells t (fun x => ((vgaRows - 1 : Nat) : Int) * vgaCols + x) 3920
    vgaCols (fun x => rfl) (by decide) (by decide)
  refine ⟨_, drawn.trans (last _).1, rfl, fun i => ?_⟩
  rw [(last _).2, moved, drawn.currentColor]
  unfold vgaRows vgaCols
  split <;> split <;> grind

/-- The screen after it has been cleared. -/
theorem vgaClear_eq (s : Vga) :
    ∃ s', Drawn s s' ∧ vgaClear s = { s' with cursorX := 0, cursorY := 0 } ∧
      ∀ i, OnScreen i → s'.cells i = vgaEntry 0x20#8 s.currentColor := by
  rcases clearCells s (fun x => x) 0 (vgaCols * vgaRows) (fun x => (Int.zero_add _).symm)
    (Int.le_refl 0) (by decide) with ⟨drawn, cells⟩
  refine ⟨_, drawn, rfl, fun i inside => ?_⟩
  rw [cells]
  exact if_pos ⟨inside.1, by rw [Int.zero_add]; exact inside.2⟩

/-! ## What stays inside -/

/-- Whatever was used lies inside. -/
structure TraceInside (trace : VgaTrace) : Prop where
  cells : ∀ i ∈ trace.cells, OnScreen i
  cursors : ∀ p ∈ trace.cursors, (0 ≤ p.1 ∧ p.1 < vgaCols) ∧ 0 ≤ p.2 ∧ p.2 < vgaRows
  intDigits : ∀ i ∈ trace.intDigits, 0 ≤ i ∧ i < 12
  hexDigits : ∀ i ∈ trace.hexDigits, 0 ≤ i ∧ i < 8

/-- The cursor is on the screen, and so far everything was. -/
structure VgaInside (s : Vga) : Prop where
  x : 0 ≤ s.cursorX ∧ s.cursorX < vgaCols
  y : 0 ≤ s.cursorY ∧ s.cursorY < vgaRows
  trace : TraceInside s.trace

theorem TraceInside.of_drawn (inside : TraceInside s.trace) (drawn : Drawn s s') :
    TraceInside s'.trace where
  cells i member := (drawn.cells i member).elim (inside.cells i) id
  cursors := drawn.cursors.symm ▸ inside.cursors
  intDigits := drawn.intDigits.symm ▸ inside.intDigits
  hexDigits := drawn.hexDigits.symm ▸ inside.hexDigits

/-- Where the first part of `vga_putchar` leaves the cursor: the line or the screen may be at
its end, and not both. -/
def AtEnd (x y : Int) : Prop := 0 ≤ x ∧ 0 ≤ y ∧ (x = 0 ∧ y ≤ 50 ∨ x ≤ 80 ∧ y < 50)

theorem placeChar_inside (c : Byte) (inside : VgaInside s) :
    TraceInside (placeChar c s).trace ∧ AtEnd (placeChar c s).cursorX (placeChar c s).cursorY := by
  rcases inside with ⟨x, y, trace⟩
  unfold vgaCols at x
  unfold vgaRows at y
  unfold placeChar
  split
  · exact ⟨trace, (⟨by omega, by omega, by omega⟩ : AtEnd 0 (s.cursorY + 1))⟩
  · split
    · exact ⟨trace, (⟨by omega, by omega, by omega⟩ : AtEnd 0 s.cursorY)⟩
    · split
      · exact ⟨trace, (⟨by omega, by omega, by omega⟩ : AtEnd ((s.cursorX + 4) / 4 * 4) s.cursorY)⟩
      · have cell : OnScreen (s.cursorY * vgaCols + s.cursorX) := by
          unfold OnScreen vgaCols
          omega
        have drawn : Drawn s (s.store (s.cursorY * vgaCols + s.cursorX)
          (vgaEntry c s.currentColor)) := .store cell
        have stored := trace.of_drawn drawn
        exact ⟨stored, (⟨by omega, by omega, by omega⟩ : AtEnd (s.cursorX + 1) s.cursorY)⟩

theorem wrapLine_inside (trace : TraceInside s.trace) (ends : AtEnd s.cursorX s.cursorY) :
    TraceInside (wrapLine s).trace ∧ (0 ≤ (wrapLine s).cursorX ∧ (wrapLine s).cursorX < vgaCols) ∧
      0 ≤ (wrapLine s).cursorY ∧ (wrapLine s).cursorY ≤ vgaRows := by
  rcases ends with ⟨x, y, ends⟩
  unfold wrapLine vgaCols vgaRows
  split
  · have column : (0 : Int) ≤ 0 ∧ (0 : Int) < 80 := by decide
    have next : 0 ≤ s.cursorY + 1 ∧ s.cursorY + 1 ≤ 50 := by omega
    exact ⟨trace, column, next⟩
  · exact ⟨trace, by omega, y, by omega⟩

theorem vgaScroll_inside (trace : TraceInside s.trace)
    (x : 0 ≤ s.cursorX ∧ s.cursorX < vgaCols) : VgaInside (vgaScroll s) := by
  rcases vgaScroll_eq s with ⟨s', drawn, eq, -⟩
  have drawnInside : TraceInside s'.trace := trace.of_drawn drawn
  have lastRow : (0 : Int) ≤ 49 ∧ (49 : Int) < vgaRows := by decide
  rw [eq]
  exact ⟨drawn.cursorX.symm ▸ x, lastRow, drawnInside⟩

/-- Every character leaves the cursor on the screen. -/
theorem vgaPutchar_inside (c : Byte) (inside : VgaInside s) : VgaInside (vgaPutchar c s) := by
  rcases placeChar_inside c inside with ⟨trace, ends⟩
  rcases wrapLine_inside trace ends with ⟨trace, x, y⟩
  unfold vgaPutchar
  generalize wrapLine (placeChar c s) = t at trace x y
  have scrolled : VgaInside (if t.cursorY ≥ vgaRows then vgaScroll t else t) := by
    split
    · exact vgaScroll_inside trace x
    · next below => exact ⟨x, ⟨y.1, Int.not_le.mp below⟩, trace⟩
  simp only
  generalize (if t.cursorY ≥ vgaRows then vgaScroll t else t) = u at scrolled
  rcases scrolled with ⟨x, y, cells, cursors, int_, hex⟩
  refine ⟨x, y, cells, fun p member => ?_, int_, hex⟩
  rcases List.mem_cons.mp member with rfl | old
  · exact ⟨x, y⟩
  · exact cursors p old

theorem vgaPrint_inside (str : CString) (inside : VgaInside s) : VgaInside (vgaPrint str s) := by
  unfold vgaPrint
  induction str.chars generalizing s with
  | nil => exact inside
  | cons c cs ih => exact ih (vgaPutchar_inside c inside)

/-- A number of `k` digits is stored at `k` indices. -/
theorem takeDigits_written (k : Nat) {n i : Int} {d : Digits} (few : n < 10 ^ k) (low : 0 ≤ i)
    (high : i + k ≤ 12) :
    ∀ j ∈ (takeDigits n i d).2.written, j ∈ d.written ∨ 0 ≤ j ∧ j < 12 := by
  induction k generalizing n i d with
  | zero =>
      rw [takeDigits, if_neg (by omega)]
      exact fun j member => .inl member
  | succ k ih =>
      rw [takeDigits]
      split
      · have fewer : n / 10 < 10 ^ k := by
          rw [pow_succ] at few
          omega
        intro j member
        rcases ih fewer (by omega) (by omega) j member with stored | inside
        · rcases List.mem_cons.mp stored with rfl | old
          · exact .inr (by omega)
          · exact .inl old
        · exact .inr inside
      · exact fun j member => .inl member

theorem takeHex_written (k : Nat) (n : BitVec 32) (d : Digits) :
    ∀ j ∈ (takeHex k n d).written, j ∈ d.written ∨ 0 ≤ j ∧ j < k := by
  induction k generalizing n d with
  | zero => exact fun j member => .inl member
  | succ k ih =>
      intro j member
      rcases ih _ _ j member with stored | inside
      · rcases List.mem_cons.mp stored with rfl | old
        · exact .inr (by omega)
        · exact .inl old
      · exact .inr (by omega)

/-- What a buffer of digits was used for comes to what was used before. -/
theorem inside_append {P : Int → Prop} {new old : List Int}
    (written : ∀ j ∈ new, j ∈ ([] : List Int) ∨ P j) (before : ∀ j ∈ old, P j) :
    ∀ j ∈ new ++ old, P j := by
  intro j member
  rcases List.mem_append.mp member with here | earlier
  · exact (written j here).resolve_left List.not_mem_nil
  · exact before j earlier

theorem printBack_inside (d : Digits) (j : Nat) (inside : VgaInside s) :
    VgaInside (printBack d j s) := by
  induction j generalizing s with
  | zero => exact inside
  | succ j ih => exact ih (vgaPutchar_inside _ inside)

theorem vgaPrintInt_inside (n : BitVec 32) (buf : Int → Byte) (inside : VgaInside s) :
    VgaInside (vgaPrintInt n buf s) := by
  have signed : ∃ m t, (if n.slt 0#32 then (-n, vgaPutchar 0x2D#8 s) else (n, s)) = (m, t) ∧
      VgaInside t := by
    split
    · exact ⟨_, _, rfl, vgaPutchar_inside _ inside⟩
    · exact ⟨_, _, rfl, inside⟩
  rcases signed with ⟨m, t, eq, inside⟩
  unfold vgaPrintInt
  rw [eq]
  simp only
  split
  · exact vgaPutchar_inside _ inside
  · have few : m.toInt < 10 ^ 10 := by
      have bound := BitVec.toInt_lt (x := m)
      omega
    have written := takeDigits_written 10 (d := ⟨buf, []⟩) few (Int.le_refl 0) (by decide)
    apply printBack_inside
    exact ⟨inside.x, inside.y, inside.trace.cells, inside.trace.cursors,
      inside_append written inside.trace.intDigits, inside.trace.hexDigits⟩

theorem vgaPrintHex_inside (n : BitVec 32) (buf : Int → Byte) (inside : VgaInside s) :
    VgaInside (vgaPrintHex n buf s) := by
  have written := takeHex_written 8 n ⟨buf, []⟩
  unfold vgaPrintHex
  generalize takeHex 8 n ⟨buf, []⟩ = d at written
  apply foldl_range (P := fun _ t => VgaInside t)
  case step => exact fun j t _ now => vgaPutchar_inside _ now
  exact ⟨inside.x, inside.y, inside.trace.cells, inside.trace.cursors, inside.trace.intDigits,
    inside_append written inside.trace.hexDigits⟩

theorem vgaPrintAt_inside (str : CString) {x y : Int} (inside : VgaInside s)
    (placed : 0 ≤ x ∧ x < vgaCols ∧ 0 ≤ y ∧ y < vgaRows) : VgaInside (vgaPrintAt str x y s) := by
  unfold vgaPrintAt
  apply vgaPrint_inside
  exact ⟨⟨placed.1, placed.2.1⟩, placed.2.2, inside.trace⟩

theorem vgaClear_inside (inside : VgaInside s) : VgaInside (vgaClear s) := by
  rcases vgaClear_eq s with ⟨s', drawn, eq, -⟩
  have trace : TraceInside s'.trace := inside.trace.of_drawn drawn
  have origin : (0 : Int) ≤ 0 ∧ (0 : Int) < vgaCols ∧ (0 : Int) < vgaRows := by decide
  rw [eq]
  exact ⟨⟨origin.1, origin.2.1⟩, ⟨origin.1, origin.2.2⟩, trace⟩

/-- One call. -/
theorem VgaCall.run_inside (call : VgaCall) (placed : call.PlacedOnScreen)
    (inside : VgaInside s) : VgaInside (call.run s) := by
  cases call with
  | clear => exact vgaClear_inside inside
  | setColor fg bg => exact ⟨inside.x, inside.y, inside.trace⟩
  | putchar c => exact vgaPutchar_inside c inside
  | print str => exact vgaPrint_inside str inside
  | printAt str x y => exact vgaPrintAt_inside str inside placed
  | printInt n buf => exact vgaPrintInt_inside n buf inside
  | printHex n buf =>
      rw [VgaCall.run]
      exact vgaPrintHex_inside n buf inside

theorem vgaStart_inside (cells : Int → BitVec 16) : VgaInside (vgaStart cells) := by
  have origin : (0 : Int) ≤ 0 ∧ (0 : Int) < vgaCols ∧ (0 : Int) < vgaRows := by decide
  have nothing : TraceInside ⟨[], [], [], []⟩ := by constructor <;> simp
  exact ⟨⟨origin.1, origin.2.1⟩, ⟨origin.1, origin.2.2⟩, nothing⟩

/-- Whatever is called in whatever order, if `vga_print_at` is given positions on the
screen: the cursor is on the screen now and was after every character, and every index of
the video memory and of the buffers that was used lies inside. -/
theorem calls_stay_inside (cells : Int → BitVec 16) (calls : List VgaCall)
    (placed : ∀ call ∈ calls, call.PlacedOnScreen) :
    VgaInside (calls.foldl (fun s call => call.run s) (vgaStart cells)) := by
  have start := vgaStart_inside cells
  generalize vgaStart cells = s at start
  induction calls generalizing s with
  | nil => exact start
  | cons call calls ih =>
      exact ih (fun d member => placed d (List.mem_cons_of_mem call member)) _
        (call.run_inside (placed call (List.mem_cons_self ..)) start)

/-- `A` in the last column of the last row, which scrolls. -/
theorem calls_stay_inside_corner :
    VgaInside ([.clear, .printAt ⟨[0x41#8], by decide⟩ 79 49].foldl
      (fun s (call : VgaCall) => call.run s) (vgaStart fun _ => 0#16)) := by
  apply calls_stay_inside
  intro call member
  rcases List.mem_cons.mp member with rfl | last
  · exact trivial
  · rw [List.mem_singleton.mp last]
    exact ⟨by decide, by decide, by decide, by decide⟩

end Learnix
