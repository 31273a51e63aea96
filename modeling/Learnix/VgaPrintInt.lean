import Learnix.Lib.Decimal
import Learnix.ScreenText

/-!
# Printed numbers

`vga_print_int` prints the characters of `intChars`: a sign, and the digits in the order
opposite to the one in which they were found. They are the decimal numeral of the number,
except for the smallest one, whose negation is the number itself (`print_int_iff`).
-/

namespace Learnix

open Machine Decimal

/-- The state with another record of the indices at which `vga_print_int` stored. -/
def Vga.withInt (written : List Int) (s : Vga) : Vga := { s with trace.intDigits := written }

/-- The call does to the screen and to the cursor what these characters do, printed one
after the other. -/
def Emits (call : Vga → Vga) (chars : List Byte) : Prop :=
  ∀ s, (call s).withInt [] = (putChars chars s).withInt []

/-- The smallest number. -/
def intMin : Word := 0x80000000#32

/-- What `vga_print_int` prints. -/
def intChars (n : Word) : List Byte :=
  if n = intMin then [0x2D#8]
  else if n.slt 0#32 then 0x2D#8 :: (lastFirst n.toInt.natAbs).reverse
  else if n = 0#32 then [0x30#8]
  else (lastFirst n.toInt.natAbs).reverse

variable {s : Vga} {c : Byte} {written : List Int} {n : Word}

/-! ## The record of the digits -/

theorem vgaScroll_withInt (written : List Int) (s : Vga) :
    vgaScroll (s.withInt written) = (vgaScroll s).withInt written := by
  have row (y : Nat) (s : Vga) : (List.range vgaCols).foldl (fun s x => moveCell y x s)
      (s.withInt written) =
        ((List.range vgaCols).foldl (fun s x => moveCell y x s) s).withInt written :=
    List.foldl_hom (Vga.withInt written) fun _ _ => rfl
  have rows (s : Vga) : (List.range (vgaRows - 1)).foldl
      (fun s y => (List.range vgaCols).foldl (fun s x => moveCell y x s) s)
      (s.withInt written) = ((List.range (vgaRows - 1)).foldl
        (fun s y => (List.range vgaCols).foldl (fun s x => moveCell y x s) s) s).withInt written :=
    List.foldl_hom (Vga.withInt written) fun s y => row y s
  have last (s : Vga) : (List.range vgaCols).foldl
      (fun s x => s.store (((vgaRows - 1 : Nat) : Int) * vgaCols + x)
        (vgaEntry 0x20#8 s.currentColor)) (s.withInt written) = ((List.range vgaCols).foldl
      (fun s x => s.store (((vgaRows - 1 : Nat) : Int) * vgaCols + x)
        (vgaEntry 0x20#8 s.currentColor)) s).withInt written :=
    List.foldl_hom (Vga.withInt written) fun _ _ => rfl
  rw [vgaScroll, rows, last]
  rfl

theorem placeChar_withInt (c : Byte) (written : List Int) (s : Vga) :
    placeChar c (s.withInt written) = (placeChar c s).withInt written := by
  unfold placeChar
  split
  · rfl
  · split
    · rfl
    · split <;> rfl

theorem wrapLine_withInt (written : List Int) (s : Vga) :
    wrapLine (s.withInt written) = (wrapLine s).withInt written := by
  unfold wrapLine
  have same : (s.withInt written).cursorX = s.cursorX := rfl
  rw [same]
  split <;> rfl

/-- The characters do not depend on the record. -/
theorem vgaPutchar_withInt (c : Byte) (written : List Int) (s : Vga) :
    vgaPutchar c (s.withInt written) = (vgaPutchar c s).withInt written := by
  have noted (u : Vga) : { u.withInt written with
      trace.cursors := ((u.withInt written).cursorX, (u.withInt written).cursorY) ::
        (u.withInt written).trace.cursors } =
      { u with trace.cursors := (u.cursorX, u.cursorY) :: u.trace.cursors }.withInt written := rfl
  have row : ((wrapLine (placeChar c s)).withInt written).cursorY =
      (wrapLine (placeChar c s)).cursorY := rfl
  unfold vgaPutchar
  rw [placeChar_withInt, wrapLine_withInt]
  simp only [vgaScroll_withInt, row]
  split
  · exact noted (vgaScroll (wrapLine (placeChar c s)))
  · exact noted (wrapLine (placeChar c s))

theorem putChars_withInt (chars : List Byte) (written : List Int) (s : Vga) :
    putChars chars (s.withInt written) = (putChars chars s).withInt written :=
  List.foldl_hom (Vga.withInt written) fun s c => vgaPutchar_withInt c written s

/-! ## The number of characters -/

theorem wrapLine_cursors (s : Vga) : (wrapLine s).trace.cursors = s.trace.cursors := by
  unfold wrapLine
  split <;> rfl

theorem placeChar_cursors (c : Byte) (s : Vga) :
    (placeChar c s).trace.cursors = s.trace.cursors := by
  unfold placeChar
  split
  · rfl
  · split
    · rfl
    · split <;> rfl

theorem vgaPutchar_cursors (c : Byte) (s : Vga) :
    (vgaPutchar c s).trace.cursors.length = s.trace.cursors.length + 1 := by
  have before : (wrapLine (placeChar c s)).trace.cursors = s.trace.cursors :=
    (wrapLine_cursors _).trans (placeChar_cursors c s)
  rw [vgaPutchar]
  simp only [List.length_cons]
  split
  · rcases vgaScroll_eq (wrapLine (placeChar c s)) with ⟨t, drawn, eq, -⟩
    rw [eq]
    simp only [drawn.cursors, before]
  · rw [before]

theorem putChars_cursors (chars : List Byte) (s : Vga) :
    (putChars chars s).trace.cursors.length = s.trace.cursors.length + chars.length := by
  induction chars generalizing s with
  | nil => rfl
  | cons c chars ih =>
      have rest := ih (vgaPutchar c s)
      rw [vgaPutchar_cursors] at rest
      rw [List.length_cons]
      exact rest.trans (by omega)

/-- All that is printed has the same number of characters. -/
theorem Emits.length_eq {call : Vga → Vga} {chars chars' : List Byte} (emits : Emits call chars)
    (emits' : Emits call chars') : chars.length = chars'.length := by
  have same := (emits (vgaStart fun _ => 0#16)).symm.trans (emits' (vgaStart fun _ => 0#16))
  have cursors := congrArg (fun s : Vga => s.trace.cursors.length) same
  have left := putChars_cursors chars (vgaStart fun _ => 0#16)
  have right := putChars_cursors chars' (vgaStart fun _ => 0#16)
  simp only [Vga.withInt] at cursors
  omega

/-! ## The digits -/

/-- The loop stores the digits of a number from index `i` on, the last one first. -/
theorem takeDigits_eq (n : Nat) (i : Int) (d : Digits) :
    (takeDigits n i d).1 = i + (lastFirst n).length ∧
      (∀ k (below : k < (lastFirst n).length),
        (takeDigits n i d).2.buf (i + k) = (lastFirst n)[k]) ∧
      ∀ j < i, (takeDigits n i d).2.buf j = d.buf j := by
  induction n using Nat.strong_induction_on generalizing i d with
  | _ n ih =>
      rw [takeDigits]
      rcases Nat.eq_zero_or_pos n with rfl | pos
      · rw [if_neg (by decide)]
        exact ⟨by simp [lastFirst_zero], fun k below => absurd below (Nat.not_lt_zero k),
          fun _ _ => rfl⟩
      · have tenth : (n : Int) / 10 = (n / 10 : Nat) := rfl
        have digit : BitVec.ofInt 8 (0x30 + (n : Int) % 10) = digitChar (n % 10) := by
          rw [digitChar, ← BitVec.ofInt_natCast]
          rfl
        rcases ih (n / 10) (by omega) (i + 1) (d.store i (digitChar (n % 10))) with
          ⟨count, stored, kept⟩
        rw [if_pos (by omega), tenth, digit]
        simp only [lastFirst_of_pos pos, List.length_cons]
        refine ⟨by rw [count]; omega, fun k below => ?_, fun j before => ?_⟩
        · cases k with
          | zero =>
              rw [Nat.cast_zero, Int.add_zero, kept i (by omega)]
              exact Function.update_self ..
          | succ k =>
              have place : i + ((k + 1 : Nat) : Int) = i + 1 + k := by omega
              rw [place]
              exact stored k (Nat.lt_of_succ_lt_succ below)
        · rw [kept j (by omega)]
          exact Function.update_of_ne (by omega) _ _

theorem printBack_eq (d : Digits) (j : Nat) (s : Vga) :
    printBack d j s = putChars ((List.range j).map fun (k : Nat) => d.buf k).reverse s := by
  induction j generalizing s with
  | zero => rfl
  | succ j ih =>
      rw [printBack, ih, List.range_succ, List.map_append, List.reverse_append]
      rfl

/-- The two loops print the digits of a number. -/
theorem printBack_takeDigits (n : Nat) (buf : Int → Byte) (s : Vga) :
    printBack (takeDigits n 0 ⟨buf, []⟩).2 (takeDigits n 0 ⟨buf, []⟩).1.toNat s =
      putChars (lastFirst n).reverse s := by
  rcases takeDigits_eq n 0 ⟨buf, []⟩ with ⟨count, stored, -⟩
  have length : (takeDigits n 0 ⟨buf, []⟩).1.toNat = (lastFirst n).length := by
    rw [count]
    omega
  rw [printBack_eq, length]
  congr 2
  refine List.ext_getElem (by simp) fun k _ below => ?_
  have digit := stored k below
  rw [Int.zero_add] at digit
  rw [List.getElem_map, List.getElem_range, digit]

/-! ## The number -/

/-- What is printed after the sign. -/
theorem printMagnitude (m : Word) {k : Nat} (magnitude : m.toInt = k) (buf : Int → Byte)
    (s : Vga) :
    (printBack (takeDigits m.toInt 0 ⟨buf, []⟩).2 (takeDigits m.toInt 0 ⟨buf, []⟩).1.toNat
      (s.withInt written)).withInt [] = (putChars (lastFirst k).reverse s).withInt [] := by
  rw [magnitude, printBack_takeDigits, putChars_withInt]
  rfl

theorem toInt_neg_eq {k : Nat} (other : n ≠ intMin) (negative : n.toInt = -k) :
    (-n).toInt = k := by
  rw [BitVec.toInt_neg_of_ne_intMin other, negative, Int.neg_neg]

/-- What `vga_print_int` prints. -/
theorem emits_vgaPrintInt (n : Word) (buf : Int → Byte) :
    Emits (vgaPrintInt n buf) (intChars n) := by
  intro s
  unfold vgaPrintInt intChars
  by_cases smallest : n = intMin
  · rw [if_pos smallest, smallest]
    -- the number is still negative, and no loop runs
    have negative : intMin.slt 0#32 = true := by decide
    have same : -intMin = intMin := by decide
    have other : intMin ≠ 0#32 := by decide
    have below : ¬ 0 < intMin.toInt := by decide
    simp only [if_pos negative, same, if_neg other]
    rw [takeDigits, if_neg below]
    rfl
  · rw [if_neg smallest]
    by_cases negative : n.slt 0#32 = true
    · have below : n.toInt < 0 := by simpa using BitVec.slt_iff_toInt_lt.mp negative
      have magnitude := toInt_neg_eq smallest (by omega : n.toInt = -(n.toInt.natAbs : Int))
      have other : -n ≠ 0#32 := by
        intro zero
        rw [zero, BitVec.toInt_zero] at magnitude
        omega
      simp only [if_pos negative, if_neg other]
      exact printMagnitude (-n) magnitude buf (vgaPutchar 0x2D#8 s)
    · simp only [if_neg negative]
      by_cases zero : n = 0#32
      · rw [if_pos zero, if_pos zero]
        rfl
      · have above : 0 ≤ n.toInt := by
          have := mt BitVec.slt_iff_toInt_lt.mpr negative
          simpa using this
        rw [if_neg zero, if_neg zero]
        exact printMagnitude n (by omega) buf s

/-- It is the numeral of the number, unless this is the smallest one. -/
theorem isInteger_intChars (other : n ≠ intMin) : IsInteger n.toInt (intChars n) := by
  unfold intChars
  rw [if_neg other]
  by_cases negative : n.slt 0#32 = true
  · have below : n.toInt < 0 := by simpa using BitVec.slt_iff_toInt_lt.mp negative
    have magnitude : n.toInt = -(n.toInt.natAbs : Int) := by omega
    rw [if_pos negative]
    have numeral := IsInteger.neg (by omega : 0 < n.toInt.natAbs) (isNumeral_reverse (by omega))
    rwa [← magnitude] at numeral
  · rw [if_neg negative]
    by_cases zero : n = 0#32
    · rw [if_pos zero, zero]
      exact .nonneg isNumeral_zero
    · have nonzero : n.toInt ≠ 0 := fun eq => zero (BitVec.eq_of_toInt_eq eq)
      have above : 0 ≤ n.toInt := by
        have := mt BitVec.slt_iff_toInt_lt.mpr negative
        simpa using this
      have magnitude : n.toInt = (n.toInt.natAbs : Int) := by omega
      rw [if_neg zero]
      have numeral := IsInteger.nonneg (isNumeral_reverse (by omega : 0 < n.toInt.natAbs))
      rwa [← magnitude] at numeral

/-- Of the smallest number only the sign is printed. -/
theorem not_isInteger_intMin {buf : Int → Byte} {chars : List Byte}
    (emits : Emits (vgaPrintInt intMin buf) chars) : ¬ IsInteger intMin.toInt chars := by
  intro integer
  have many := integer.two_le_length (by decide)
  rw [emits.length_eq (emits_vgaPrintInt intMin buf)] at many
  exact absurd many (by decide)

/-- What `vga_print_int` prints is the decimal numeral of the number exactly if this is not the
smallest one. -/
theorem print_int_iff (n : Word) (buf : Int → Byte) :
    (∃ chars, Emits (vgaPrintInt n buf) chars ∧ IsInteger n.toInt chars) ↔ n ≠ 0x80000000#32 := by
  constructor
  · intro printed smallest
    subst smallest
    rcases printed with ⟨chars, emits, integer⟩
    exact not_isInteger_intMin emits integer
  · intro other
    exact ⟨intChars n, emits_vgaPrintInt n buf, isInteger_intChars other⟩

/-- The smallest number, -2147483648. -/
theorem print_int_smallest :
    Emits (vgaPrintInt 0x80000000#32 fun _ => 0#8) [0x2D#8] ∧
      ¬ ∃ chars, Emits (vgaPrintInt 0x80000000#32 fun _ => 0#8) chars ∧
        IsInteger (0x80000000#32 : Word).toInt chars := by
  refine ⟨emits_vgaPrintInt intMin _, fun printed => ?_⟩
  rcases printed with ⟨chars, emits, integer⟩
  exact not_isInteger_intMin emits integer

end Learnix
