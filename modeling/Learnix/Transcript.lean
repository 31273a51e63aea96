import Learnix.VgaPrintInt
import Learnix.VgaTerminal

/-!
# What a call shows

A call that prints text and numbers in some colours does to the screen what a list of
characters and colours does (`Draws`), and calls one after the other do what their lists do
one after the other (`Draws.andThen`). The record of the indices that were used is left out of
the comparison.
-/

namespace Learnix

open Machine

/-- The same cells, cursor and colour. -/
structure SameScreen (s t : Vga) : Prop where
  cells : s.cells = t.cells
  cursorX : s.cursorX = t.cursorX
  cursorY : s.cursorY = t.cursorY
  currentColor : s.currentColor = t.currentColor

/-- What there is to see of a screen, and what the next character depends on. -/
structure Picture where
  cells : Int → BitVec 16
  cursorX : Int
  cursorY : Int
  currentColor : Byte

namespace Vga

def picture (s : Vga) : Picture := ⟨s.cells, s.cursorX, s.cursorY, s.currentColor⟩

/-- The screen with another picture on it. -/
def paint (p : Picture) (s : Vga) : Vga :=
  { s with
    cells := p.cells
    cursorX := p.cursorX
    cursorY := p.cursorY
    currentColor := p.currentColor }

end Vga

/-- Characters and colours, one after the other. -/
def drawn (out : List Output) (s : Vga) : Vga := out.foldl (fun s o => o.run s) s

/-- On every screen the call does what the characters and colours do. -/
def Draws (call : Vga → Vga) (out : List Output) : Prop := ∀ s, SameScreen (call s) (drawn out s)

/-- The characters of a text. -/
def textOut (text : List Byte) : List Output := text.map .char

/-- A string literal. -/
def literalOut (text : String) : List Output := textOut (literalText text).chars

/-- What `vga_print_int` shows of a number. -/
def intOut (n : Word) : List Output := textOut (intChars n)

/-- `VGA_BLACK`, the background of all texts. -/
def vgaBlack : Byte := 0#8

/-- `VGA_RED`. -/
def vgaRed : Byte := 4#8

/-- `VGA_LIGHT_GREEN`. -/
def vgaLightGreen : Byte := 10#8

/-- `VGA_LIGHT_CYAN`. -/
def vgaLightCyan : Byte := 11#8

/-- `VGA_LIGHT_RED`. -/
def vgaLightRed : Byte := 12#8

/-- `VGA_YELLOW`. -/
def vgaYellow : Byte := 14#8

/-- `VGA_WHITE`. -/
def vgaWhite : Byte := 15#8

/-- A colour on black. -/
def colorOut (fg : Byte) : List Output := [.color fg vgaBlack]

variable {s t u : Vga} {call call' : Vga → Vga} {out out' : List Output} {c : Byte}

/-! ## Screens that are the same -/

theorem sameScreen_refl (s : Vga) : SameScreen s s := ⟨rfl, rfl, rfl, rfl⟩

theorem SameScreen.symm (same : SameScreen s t) : SameScreen t s :=
  ⟨same.cells.symm, same.cursorX.symm, same.cursorY.symm, same.currentColor.symm⟩

theorem SameScreen.trans (same : SameScreen s t) (same' : SameScreen t u) : SameScreen s u :=
  ⟨same.cells.trans same'.cells, same.cursorX.trans same'.cursorX,
    same.cursorY.trans same'.cursorY, same.currentColor.trans same'.currentColor⟩

theorem SameScreen.picture_eq (same : SameScreen s t) : s.picture = t.picture := by
  rcases same with ⟨cells, x, y, color⟩
  rw [Vga.picture, cells, x, y, color]
  rfl

theorem sameScreen_paint (p : Picture) (s t : Vga) : SameScreen (s.paint p) (t.paint p) :=
  ⟨rfl, rfl, rfl, rfl⟩

theorem SameScreen.placeChar (same : SameScreen s t) (c : Byte) :
    SameScreen (placeChar c s) (placeChar c t) := by
  rcases same with ⟨cells, x, y, color⟩
  unfold Learnix.placeChar
  split
  · exact ⟨cells, rfl, congrArg (· + 1) y, color⟩
  · split
    · exact ⟨cells, rfl, y, color⟩
    · split
      · exact ⟨cells, congrArg (fun x : Int => (x + 4) / 4 * 4) x, y, color⟩
      · refine ⟨?_, congrArg (· + 1) x, y, color⟩
        funext i
        show (Vga.store _ _ s).cells i = (Vga.store _ _ t).cells i
        rw [Vga.store_cells, Vga.store_cells, cells, x, y, color]

theorem SameScreen.wrapLine (same : SameScreen s t) : SameScreen (wrapLine s) (wrapLine t) := by
  unfold Learnix.wrapLine
  rw [same.cursorX]
  split
  · exact ⟨same.cells, rfl, congrArg (· + 1) same.cursorY, same.currentColor⟩
  · exact same

theorem SameScreen.vgaScroll (same : SameScreen s t) : SameScreen (vgaScroll s) (vgaScroll t) := by
  obtain ⟨s', drawn, eq, cells⟩ := vgaScroll_eq s
  obtain ⟨t', drawn', eq', cells'⟩ := vgaScroll_eq t
  rw [eq, eq']
  refine ⟨funext fun i => ?_, ?_, rfl, ?_⟩
  · show s'.cells i = t'.cells i
    rw [cells, cells', same.cells, same.currentColor]
  · exact drawn.cursorX.trans (same.cursorX.trans drawn'.cursorX.symm)
  · exact drawn.currentColor.trans (same.currentColor.trans drawn'.currentColor.symm)

theorem SameScreen.vgaPutchar (same : SameScreen s t) (c : Byte) :
    SameScreen (vgaPutchar c s) (vgaPutchar c t) := by
  have placed := (same.placeChar c).wrapLine
  have noted (u : Vga) (cursors : List (Int × Int)) :
      SameScreen { u with trace.cursors := cursors } u := ⟨rfl, rfl, rfl, rfl⟩
  unfold Learnix.vgaPutchar
  refine (noted _ _).trans (SameScreen.trans ?_ (noted _ _).symm)
  rw [placed.cursorY]
  split
  · exact placed.vgaScroll
  · exact placed

theorem SameScreen.run (same : SameScreen s t) (o : Output) : SameScreen (o.run s) (o.run t) := by
  cases o with
  | char c => exact same.vgaPutchar c
  | color fg bg => exact ⟨same.cells, same.cursorX, same.cursorY, rfl⟩

theorem SameScreen.drawn (same : SameScreen s t) (out : List Output) :
    SameScreen (drawn out s) (drawn out t) := by
  induction out generalizing s t with
  | nil => exact same
  | cons o out ih => exact ih (same.run o)

/-! ## Calls -/

theorem drawn_append (out out' : List Output) (s : Vga) :
    drawn (out ++ out') s = drawn out' (drawn out s) := List.foldl_append

/-- A call after another. -/
theorem Draws.andThen (first : Draws call out) (second : Draws call' out') :
    Draws (fun s => call' (call s)) (out ++ out') := by
  intro s
  rw [drawn_append]
  exact (second (call s)).trans ((first s).drawn out')

theorem draws_id : Draws id [] := sameScreen_refl

theorem drawn_textOut (text : List Byte) (s : Vga) : drawn (textOut text) s = putChars text s := by
  rw [drawn, textOut, List.foldl_map]
  rfl

theorem draws_vgaPrint (str : CString) : Draws (vgaPrint str) (textOut str.chars) := by
  intro s
  rw [drawn_textOut]
  exact sameScreen_refl _

theorem draws_literal (text : String) : Draws (vgaPrint (literalText text)) (literalOut text) :=
  draws_vgaPrint _

theorem draws_vgaSetColor (fg : Byte) : Draws (vgaSetColor fg vgaBlack) (colorOut fg) :=
  fun _ => sameScreen_refl _

theorem draws_of_emits {chars : List Byte} (emits : Emits call chars) :
    Draws call (textOut chars) := by
  intro s
  have same := emits s
  rw [drawn_textOut]
  have cells : ((call s).withInt []).cells = ((putChars chars s).withInt []).cells := by rw [same]
  have x : ((call s).withInt []).cursorX = ((putChars chars s).withInt []).cursorX := by rw [same]
  have y : ((call s).withInt []).cursorY = ((putChars chars s).withInt []).cursorY := by rw [same]
  have color : ((call s).withInt []).currentColor
      = ((putChars chars s).withInt []).currentColor := by rw [same]
  exact ⟨cells, x, y, color⟩

theorem draws_vgaPrintInt (n : Word) (buf : Int → Byte) : Draws (vgaPrintInt n buf) (intOut n) :=
  draws_of_emits (emits_vgaPrintInt n buf)

/-- A loop that shows its elements one after the other. -/
theorem draws_foldl {α : Type} {show_ : α → Vga → Vga} {shown : α → List Output} (l : List α)
    (each : ∀ a ∈ l, Draws (show_ a) (shown a)) :
    Draws (fun s => l.foldl (fun s a => show_ a s) s) (l.flatMap shown) := by
  induction l with
  | nil => exact draws_id
  | cons a l ih =>
      rw [List.flatMap_cons]
      exact (each a List.mem_cons_self).andThen
        (ih fun b member => each b (List.mem_cons_of_mem a member))

/-! ## Numbers in hexadecimal -/

/-- The digit of the last four bits. -/
def hexDigit (n : Word) : Byte := hexChars.getD (n &&& 0xF#32).toNat 0#8

/-- The last `k` digits of a number, the first one first. -/
def hexDigits : Nat → Word → List Byte
  | 0, _ => []
  | k + 1, n => hexDigits k (n >>> 4) ++ [hexDigit n]

/-- The number that hexadecimal digits stand for. -/
def hexValue (digits : List Byte) : Nat :=
  digits.foldl (fun v c => 16 * v + hexChars.idxOf c) 0

/-- What `vga_print_hex` shows of a number. -/
def hexOut (n : Word) : List Output := textOut (hexDigits 8 n)

variable {k : Nat} {n : Word}

theorem length_hexDigits (k : Nat) (n : Word) : (hexDigits k n).length = k := by
  induction k generalizing n with
  | zero => rfl
  | succ k ih => rw [hexDigits, List.length_append, ih, List.length_singleton]

theorem hexDigit_mem (n : Word) : hexDigit n ∈ hexChars := by
  have digits : ∀ d < 16, hexChars.getD d 0#8 ∈ hexChars := by decide
  apply digits
  rw [BitVec.toNat_and]
  exact Nat.lt_succ_of_le Nat.and_le_right

theorem hexDigits_mem (k : Nat) (n : Word) : ∀ c ∈ hexDigits k n, c ∈ hexChars := by
  induction k generalizing n with
  | zero => exact fun c member => absurd member List.not_mem_nil
  | succ k ih =>
      intro c member
      rcases List.mem_append.mp member with early | last
      · exact ih (n >>> 4) c early
      · rw [List.mem_singleton.mp last]
        exact hexDigit_mem n

theorem idxOf_hexDigit (n : Word) : hexChars.idxOf (hexDigit n) = n.toNat % 16 := by
  have digits : ∀ d < 16, hexChars.idxOf (hexChars.getD d 0#8) = d := by decide
  have last : (n &&& 0xF#32).toNat = n.toNat % 16 := by
    rw [BitVec.toNat_and]
    exact Nat.and_two_pow_sub_one_eq_mod n.toNat 4
  rw [hexDigit, last]
  exact digits _ (Nat.mod_lt _ (by decide))

/-- The digits stand for the bits they were taken from. -/
theorem hexValue_hexDigits (k : Nat) (n : Word) :
    hexValue (hexDigits k n) = n.toNat % 16 ^ k := by
  induction k generalizing n with
  | zero => rw [hexDigits, pow_zero, Nat.mod_one]; rfl
  | succ k ih =>
      have concat : hexValue (hexDigits k (n >>> 4) ++ [hexDigit n]) =
          16 * hexValue (hexDigits k (n >>> 4)) + hexChars.idxOf (hexDigit n) :=
        List.foldl_append
      have shifted : (n >>> 4).toNat = n.toNat / 16 :=
        (BitVec.toNat_ushiftRight n 4).trans (Nat.shiftRight_eq_div_pow _ 4)
      rw [hexDigits, concat, ih, idxOf_hexDigit, shifted, pow_succ, Nat.mul_comm (16 ^ k),
        Nat.mod_mul, Nat.add_comm]

/-- The loop stores the digits in front of the index, the last one first. -/
theorem takeHex_buf (k : Nat) (n : Word) (d : Digits) :
    ((List.range k).map fun i => (takeHex k n d).buf (i : Nat)) = hexDigits k n ∧
      ∀ i : Int, k ≤ i → (takeHex k n d).buf i = d.buf i := by
  induction k generalizing n d with
  | zero => exact ⟨rfl, fun _ _ => rfl⟩
  | succ k ih =>
      obtain ⟨early, kept⟩ := ih (n >>> 4) (d.store k (hexDigit n))
      constructor
      · rw [List.range_succ, List.map_append, List.map_singleton, hexDigits]
        refine congrArg₂ (· ++ ·) early (congrArg (fun c => [c]) ?_)
        exact (kept k (Int.le_refl _)).trans (Function.update_self ..)
      · intro i after
        refine (kept i (by omega)).trans ?_
        exact Function.update_of_ne (by omega) _ _

theorem draws_vgaPrintHex (n : Word) (buf : Int → Byte) : Draws (vgaPrintHex n buf) (hexOut n) := by
  intro s
  have digits := (takeHex_buf 8 n ⟨buf, []⟩).1
  unfold vgaPrintHex hexOut
  generalize takeHex 8 n ⟨buf, []⟩ = d at digits ⊢
  rw [← digits]
  have same : SameScreen { s with trace.hexDigits := d.written ++ s.trace.hexDigits } s :=
    ⟨rfl, rfl, rfl, rfl⟩
  have shown := same.drawn (textOut ((List.range 8).map fun i => d.buf (i : Nat)))
  rw [drawn_textOut, putChars, List.foldl_map] at shown
  exact shown

/-- `vga_print_hex` shows exactly eight hexadecimal digits, and they stand for the number. -/
theorem print_hex (n : Word) (buf : Int → Byte) :
    ∃ digits, digits.length = 8 ∧ (∀ c ∈ digits, c ∈ hexChars) ∧ hexValue digits = n.toNat ∧
      Draws (vgaPrintHex n buf) (textOut digits) := by
  refine ⟨hexDigits 8 n, length_hexDigits 8 n, hexDigits_mem 8 n, ?_, draws_vgaPrintHex n buf⟩
  rw [hexValue_hexDigits]
  exact Nat.mod_eq_of_lt n.isLt

end Learnix
