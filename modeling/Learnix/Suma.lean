import Learnix.LineReader
import Learnix.VgaPrintInt
import Learnix.Lib.Reversal

/-!
# The program that adds

`suma.c`. `int_to_str` takes the digits off with the loop of `vga_print_int` and turns them
round in its buffer, where they are the string that `vga_print_int` prints
(`int_to_str_string`); `str_to_int` reads it back (`str_to_int_of_int_to_str`). An `int` has
32 bits and wraps around.
-/

namespace Learnix

open Machine Decimal LineEditor Reversal

def minus : Byte := 0x2D#8

def plus : Byte := 0x2B#8

/-- A blank or a tab. -/
def IsBlank (c : Byte) : Prop := c = 0x20#8 ∨ c = 0x09#8

instance (c : Byte) : Decidable (IsBlank c) := inferInstanceAs (Decidable (_ ∨ _))

/-! ## `str_to_int` -/

/-- The first loop: the characters from `s[i]` on after it. -/
def skipBlanks : List Byte → List Byte
  | [] => []
  | c :: cs => if IsBlank c then skipBlanks cs else c :: cs

/-- The loop over the digits. -/
def takeNumber : List Byte → Word → Word
  | [], resultado => resultado
  | c :: cs, resultado =>
    if 0x30#8 ≤ c ∧ c ≤ 0x39#8 then takeNumber cs (resultado * 10#32 + (c - 0x30#8).setWidth 32)
    else resultado

def strToInt (s : CString) : Word :=
  match skipBlanks s.chars with
  | [] => takeNumber [] 0#32
  | c :: cs =>
    if c = minus then -takeNumber cs 0#32
    else if c = plus then takeNumber cs 0#32
    else takeNumber (c :: cs) 0#32

/-- It depends on the characters only. -/
theorem strToInt_congr {s t : CString} (same : s.chars = t.chars) : strToInt s = strToInt t := by
  unfold strToInt
  rw [same]

/-! ## `int_to_str` -/

/-- One round of the loop that turns the string round. -/
def swapEnds (i : Int) (d : Digits) (j : Nat) : Digits :=
  let tmp := d.buf j
  (d.store j (d.buf (i - 1 - j))).store (i - 1 - j) tmp

/-- `num = -num` leaves the smallest number as it is: then the loop finds no digits. -/
def intToStr (num : Word) (d : Digits) : Digits :=
  if num = 0#32 then (d.store 0 0x30#8).store 1 0#8
  else
    let negativo := num.slt 0#32
    let num := if negativo then -num else num
    let r := takeDigits num.toInt 0 d
    let r := if negativo then (r.1 + 1, r.2.store r.1 minus) else r
    (List.range (r.1 / 2).toNat).foldl (swapEnds r.1) (r.2.store r.1 0#8)

/-! ## The characters in the buffer -/

variable {num : Word} {d : Digits} {i : Int} {c : Byte} {cs digits text : List Byte} {v : Nat}

/-- What is printed of a number other than zero: its sign, and the digits that the loop finds,
the last one first. -/
theorem intChars_eq (nonzero : num ≠ 0#32) : intChars num =
    (if num.slt 0#32 then [minus] else []) ++
      (lastFirst (if num.slt 0#32 then -num else num).toInt.toNat).reverse := by
  unfold intChars
  by_cases smallest : num = intMin
  · rw [if_pos smallest, smallest]
    decide +kernel
  · rw [if_neg smallest]
    by_cases negative : num.slt 0#32 = true
    · have below : num.toInt < 0 := by simpa using BitVec.slt_iff_toInt_lt.mp negative
      have magnitude := toInt_neg_eq smallest (by omega : num.toInt = -(num.toInt.natAbs : Int))
      rw [if_pos negative, if_pos negative, if_pos negative, magnitude]
      rfl
    · have above : 0 ≤ num.toInt := by
        have := mt BitVec.slt_iff_toInt_lt.mpr negative
        simpa using this
      have magnitude : num.toInt.toNat = num.toInt.natAbs := by omega
      rw [if_neg negative, if_neg negative, if_neg negative, if_neg nonzero, magnitude]
      rfl

/-- A negative number has no digits to take off. -/
theorem takeDigits_toNat (n i : Int) (d : Digits) :
    takeDigits n i d = takeDigits n.toNat i d := by
  by_cases pos : 0 < n
  · rw [Int.toNat_of_nonneg (Int.le_of_lt pos)]
  · have zero : n.toNat = 0 := by omega
    rw [zero, takeDigits, if_neg pos, takeDigits, if_neg (by decide)]

/-- Where the loop has stored the text, with how many characters. -/
structure Filled (text : List Byte) (r : Int × Digits) : Prop where
  count : r.1 = text.length
  chars : ∀ k (below : k < text.length), r.2.buf k = text[k]
  inside : ∀ j ∈ r.2.written, 0 ≤ j ∧ j < 12

theorem filled_takeDigits (num : Word) (buf : Int → Byte) :
    Filled (lastFirst num.toInt.toNat) (takeDigits num.toInt 0 ⟨buf, []⟩) ∧
      (lastFirst num.toInt.toNat).length ≤ 10 := by
  have bound := BitVec.toInt_lt (x := num)
  have few : num.toInt.toNat < 10 ^ 10 := by omega
  rcases takeDigits_eq num.toInt.toNat 0 ⟨buf, []⟩ with ⟨count, stored, -⟩
  rw [takeDigits_toNat]
  refine ⟨⟨by rw [count]; omega, fun k below => ?_, fun j member => ?_⟩,
    (length_lastFirst_le_iff 10 _).mpr few⟩
  · have digit := stored k below
    rwa [Int.zero_add] at digit
  · have small : ((num.toInt.toNat : Nat) : Int) < 10 ^ 10 := by omega
    exact (takeDigits_written 10 small (Int.le_refl 0) (by decide) j member).resolve_left
      List.not_mem_nil

theorem Filled.snoc {r : Int × Digits} (filled : Filled text r) (room : text.length < 12)
    (c : Byte) : Filled (text ++ [c]) (r.1 + 1, r.2.store r.1 c) := by
  have count := filled.count
  refine ⟨by rw [count]; simp, fun k below => ?_, fun j member => ?_⟩
  · rw [List.length_append, List.length_singleton] at below
    show Function.update r.2.buf r.1 c k = _
    rcases Nat.lt_or_ge k text.length with old | last
    · rw [Function.update_of_ne (by omega), filled.chars k old, List.getElem_append_left old]
    · obtain rfl : k = text.length := by omega
      rw [count, Function.update_self, List.getElem_concat_length rfl]
  · rcases List.mem_cons.mp member with rfl | old
    · omega
    · exact filled.inside j old

/-- The rounds of the last loop are those of a reversal in place. -/
theorem foldl_swapEnds (i : Int) (d : Digits) (n : Nat) (room : n ≤ i) :
    ((List.range n).foldl (swapEnds i) d).buf = reverseLoop i n d.buf ∧
      ∀ j ∈ ((List.range n).foldl (swapEnds i) d).written, j ∈ d.written ∨ 0 ≤ j ∧ j < i := by
  induction n with
  | zero => exact ⟨rfl, fun j member => .inl member⟩
  | succ n ih =>
      rcases ih (by omega) with ⟨buf, written⟩
      rw [List.range_succ, List.foldl_append, reverseLoop_succ, ← buf]
      refine ⟨rfl, fun j member => ?_⟩
      rcases List.mem_cons.mp member with rfl | member
      · exact .inr (by omega)
      · rcases List.mem_cons.mp member with rfl | member
        · exact .inr (by omega)
        · exact written j member

/-- After the last loop the text stands in the buffer the other way round, with its NUL. -/
theorem Filled.turned {r : Int × Digits} (filled : Filled text r) (room : text.length < 12)
    (solid : ∀ c ∈ text, c ≠ 0#8) :
    HoldsString ((List.range (r.1 / 2).toNat).foldl (swapEnds r.1) (r.2.store r.1 0#8)).buf
        text.reverse ∧
      ∀ j ∈ ((List.range (r.1 / 2).toNat).foldl (swapEnds r.1) (r.2.store r.1 0#8)).written,
        0 ≤ j ∧ j < 12 := by
  have count := filled.count
  have half : (r.1 / 2).toNat = text.length / 2 := by omega
  rcases foldl_swapEnds r.1 (r.2.store r.1 0#8) (r.1 / 2).toNat (by omega) with ⟨buf, written⟩
  refine ⟨⟨fun k below => ⟨?_, ?_⟩, ?_⟩, fun j member => ?_⟩
  · rw [List.length_reverse] at below
    rw [buf, half, count, reverseLoop_half text.length _ (by omega) (by omega),
      List.getElem_reverse]
    have place : ((text.length : Nat) : Int) - 1 - k = ((text.length - 1 - k : Nat) : Int) := by
      omega
    show Function.update r.2.buf (text.length : Nat) 0#8 _ = _
    rw [place, Function.update_of_ne (by omega), filled.chars _ (by omega)]
  · exact solid _ (List.mem_reverse.mp (List.getElem_mem below))
  · rw [List.length_reverse, buf, half, count, reverseLoop_apply (by omega), if_neg (by omega)]
    exact Function.update_self ..
  · rcases written j member with stored | inside
    · rcases List.mem_cons.mp stored with rfl | old
      · omega
      · exact filled.inside j old
    · omega

theorem lastFirst_solid (n : Nat) : ∀ c ∈ lastFirst n, IsDigit c := by
  intro c member
  rcases List.mem_map.mp member with ⟨digit, inDigits, rfl⟩
  exact isDigit_digitChar (Nat.digits_lt_base (by decide) inDigits)

theorem ne_of_isDigit {c c' : Byte} (digit : IsDigit c) (other : ¬ IsDigit c') : c ≠ c' :=
  fun same => other (same ▸ digit)

theorem not_isDigit : ¬ IsDigit 0#8 ∧ ¬ IsDigit minus ∧ ¬ IsDigit plus ∧ ¬ IsDigit 0x20#8 ∧
    ¬ IsDigit 0x09#8 := by
  unfold IsDigit minus plus
  decide

/-- `int_to_str` leaves the string that `vga_print_int` prints. -/
theorem holdsString_intToStr (num : Word) (buf : Int → Byte) :
    HoldsString (intToStr num ⟨buf, []⟩).buf (intChars num) ∧
      ∀ i ∈ (intToStr num ⟨buf, []⟩).written, 0 ≤ i ∧ i < 12 := by
  unfold intToStr
  by_cases zero : num = 0#32
  · have chars : intChars num = [0x30#8] := by
      rw [zero]
      decide
    have one : (1 : Int) ≠ 0 := by decide
    rw [if_pos zero, chars]
    refine ⟨⟨fun k below => ?_, ?_⟩, fun i member => ?_⟩
    · obtain rfl : k = 0 := Nat.lt_one_iff.mp below
      refine ⟨?_, (by decide : 0x30#8 ≠ 0#8)⟩
      show Function.update (Function.update buf 0 0x30#8) 1 0#8 0 = _
      rw [Function.update_of_ne one.symm, Function.update_self]
      rfl
    · show Function.update (Function.update buf 0 0x30#8) 1 0#8 1 = 0#8
      exact Function.update_self ..
    · rcases List.mem_cons.mp member with rfl | member
      · decide
      · rw [List.mem_singleton.mp member]
        decide
  · rw [if_neg zero]
    rcases filled_takeDigits (if num.slt 0#32 then -num else num) buf with ⟨filled, few⟩
    have digits := lastFirst_solid (if num.slt 0#32 then -num else num).toInt.toNat
    rw [intChars_eq zero]
    simp only
    generalize (if num.slt 0#32 then -num else num) = m at filled few digits ⊢
    have solid : ∀ c ∈ lastFirst m.toInt.toNat, c ≠ 0#8 := fun c member =>
      ne_of_isDigit (digits c member) not_isDigit.1
    by_cases negative : num.slt 0#32 = true
    · rw [if_pos negative, if_pos negative]
      have whole := (filled.snoc (by omega) minus).turned (by
        rw [List.length_append, List.length_singleton]
        omega) (fun c member => (List.mem_append.mp member).elim (solid c) fun sign => by
          rw [List.mem_singleton.mp sign]
          decide)
      rwa [List.reverse_append] at whole
    · rw [if_neg negative, if_neg negative, List.nil_append]
      exact filled.turned (by omega) solid

/-- `int_to_str` leaves the string that `vga_print_int` prints, and stores only in the first 12
of the 32 characters of its buffer. The string is the decimal numeral of the number, unless
this is the smallest one. -/
theorem int_to_str_string (num : Word) (buf : Int → Byte) :
    HoldsString (intToStr num ⟨buf, []⟩).buf (intChars num) ∧
      (∀ i ∈ (intToStr num ⟨buf, []⟩).written, 0 ≤ i ∧ i < 12) ∧
      (IsInteger num.toInt (intChars num) ↔ num ≠ intMin) := by
  rcases holdsString_intToStr num buf with ⟨holds, inside⟩
  refine ⟨holds, inside, fun integer smallest => ?_, isInteger_intChars⟩
  subst smallest
  exact absurd (integer.two_le_length (by decide)) (by decide)

/-! ## What `str_to_int` reads -/

/-- The parts of a string as `str_to_int` goes through them: blanks, a sign, digits, and the
rest, where it stops. -/
structure Reads (cs blanks sign digits rest : List Byte) : Prop where
  shape : cs = blanks ++ (sign ++ (digits ++ rest))
  blank : ∀ c ∈ blanks, IsBlank c
  signed : sign = [] ∨ sign = [minus] ∨ sign = [plus]
  solid : ∀ c ∈ digits, IsDigit c
  stops : ∀ c, rest.head? = some c → ¬ IsDigit c
  /-- Without a sign and digits, the rest begins with neither blank nor sign. -/
  bare : sign = [] → digits = [] → ∀ c, rest.head? = some c → ¬ IsBlank c ∧ c ≠ minus ∧ c ≠ plus

/-- The number that the parts stand for. -/
def signedValue (sign digits : List Byte) : Int :=
  if sign = [minus] then -(value digits : Int) else value digits

/-- The tests of the loop find the digits. -/
theorem digit_test (c : Byte) : (0x30#8 ≤ c ∧ c ≤ 0x39#8) ↔ IsDigit c := by
  rw [IsDigit, BitVec.le_def, BitVec.le_def]
  rfl

/-- The loop over the digits adds them to the value, modulo 2^32. -/
theorem takeNumber_eq {rest : List Byte} (solid : ∀ c ∈ digits, IsDigit c)
    (stops : ∀ c, rest.head? = some c → ¬ IsDigit c) (v : Nat) :
    takeNumber (digits ++ rest) (BitVec.ofNat 32 v) =
      BitVec.ofNat 32 (digits.foldl (fun v c => 10 * v + (c.toNat - 0x30)) v) := by
  induction digits generalizing v with
  | nil =>
      cases rest with
      | nil => rfl
      | cons c rest => exact if_neg (mt (digit_test c).mp (stops c rfl))
  | cons c digits ih =>
      have digit := solid c List.mem_cons_self
      have next : BitVec.ofNat 32 v * 10#32 + (c - 0x30#8).setWidth 32 =
          BitVec.ofNat 32 (10 * v + (c.toNat - 0x30)) := by
        have low := digit.1
        have bound := c.isLt
        apply BitVec.eq_of_toNat_eq
        simp only [BitVec.toNat_add, BitVec.toNat_mul, BitVec.toNat_ofNat, BitVec.toNat_setWidth,
          BitVec.toNat_sub]
        omega
      rw [List.cons_append, takeNumber, if_pos ((digit_test c).mpr digit), next]
      exact ih (fun d member => solid d (List.mem_cons_of_mem c member)) _

theorem skipBlanks_eq {blanks rest : List Byte} (blank : ∀ c ∈ blanks, IsBlank c)
    (stops : ∀ c, rest.head? = some c → ¬ IsBlank c) : skipBlanks (blanks ++ rest) = rest := by
  induction blanks with
  | nil =>
      cases rest with
      | nil => rfl
      | cons c rest => exact if_neg (stops c rfl)
  | cons c blanks ih =>
      rw [List.cons_append, skipBlanks, if_pos (blank c List.mem_cons_self)]
      exact ih fun d member => blank d (List.mem_cons_of_mem c member)

theorem not_isBlank_of_isDigit (digit : IsDigit c) : ¬ IsBlank c := by
  rintro (rfl | rfl)
  · exact not_isDigit.2.2.2.1 digit
  · exact not_isDigit.2.2.2.2 digit

theorem ofInt_neg_ofNat (n : Nat) : -BitVec.ofNat 32 n = BitVec.ofInt 32 (-(n : Int)) := by
  rw [BitVec.ofInt_neg, BitVec.ofInt_natCast]

/-- `str_to_int` returns the number that the parts stand for, modulo 2^32. -/
theorem Reads.strToInt {s : CString} {blanks sign rest : List Byte}
    (reads : Reads s.chars blanks sign digits rest) :
    strToInt s = BitVec.ofInt 32 (signedValue sign digits) := by
  have number := takeNumber_eq reads.solid reads.stops 0
  have digits_ : BitVec.ofNat 32 (value digits) = takeNumber (digits ++ rest) 0#32 := number.symm
  unfold Learnix.strToInt signedValue
  rw [reads.shape]
  have isSign : ¬ IsBlank minus ∧ ¬ IsBlank plus := by decide
  rcases reads.signed with rfl | rfl | rfl
  · -- no sign: the first character is a digit, or none that the function looks for
    have first : ∀ c, (digits ++ rest).head? = some c →
        ¬ IsBlank c ∧ c ≠ minus ∧ c ≠ plus := by
      intro c head
      cases digits with
      | nil => exact reads.bare rfl rfl c head
      | cons d ds =>
          cases head
          have digit := reads.solid c List.mem_cons_self
          exact ⟨not_isBlank_of_isDigit digit, ne_of_isDigit digit not_isDigit.2.1,
            ne_of_isDigit digit not_isDigit.2.2.1⟩
    rw [List.nil_append, skipBlanks_eq reads.blank fun c head => (first c head).1,
      if_neg (by decide), BitVec.ofInt_natCast, digits_]
    cases shape : digits ++ rest with
    | nil => rfl
    | cons c cs =>
        rcases first c (by rw [shape]; rfl) with ⟨-, notMinus, notPlus⟩
        exact (if_neg notMinus).trans (if_neg notPlus)
  · rw [skipBlanks_eq reads.blank fun c head => by cases head; exact isSign.1, if_pos rfl,
      ← ofInt_neg_ofNat, digits_]
    exact if_pos rfl
  · rw [skipBlanks_eq reads.blank fun c head => by cases head; exact isSign.2,
      if_neg (by decide), BitVec.ofInt_natCast, digits_]
    exact (if_neg (by decide)).trans (if_pos rfl)

/-- Every string has such parts. -/
theorem exists_reads (cs : List Byte) : ∃ blanks sign digits rest,
    Reads cs blanks sign digits rest := by
  have span (l : List Byte) : ∃ digits rest, l = digits ++ rest ∧ (∀ c ∈ digits, IsDigit c) ∧
      ∀ c, rest.head? = some c → ¬ IsDigit c := by
    refine ⟨l.takeWhile fun c => 0x30#8 ≤ c ∧ c ≤ 0x39#8, l.dropWhile fun c => 0x30#8 ≤ c ∧
      c ≤ 0x39#8, (List.takeWhile_append_dropWhile ..).symm, fun c member => ?_, fun c head => ?_⟩
    · exact (digit_test c).mp (by simpa using List.mem_takeWhile_imp member)
    · have stops := List.head?_dropWhile_not (fun c : Byte => 0x30#8 ≤ c ∧ c ≤ 0x39#8) l
      rw [head] at stops
      exact fun digit => by simp [(digit_test c).mpr digit] at stops
  induction cs with
  | nil => exact ⟨[], [], [], [], ⟨rfl, by simp, .inl rfl, by simp, nofun, nofun⟩⟩
  | cons c cs ih =>
      by_cases blank : IsBlank c
      · rcases ih with ⟨blanks, sign, digits, rest, reads⟩
        refine ⟨c :: blanks, sign, digits, rest, by rw [reads.shape]; rfl, fun d member => ?_,
          reads.signed, reads.solid, reads.stops, reads.bare⟩
        rcases List.mem_cons.mp member with rfl | member
        · exact blank
        · exact reads.blank d member
      · by_cases signed : c = minus ∨ c = plus
        · rcases span cs with ⟨digits, rest, shape, solid, stops⟩
          refine ⟨[], [c], digits, rest, by rw [shape]; rfl, by simp, .inr ?_, solid, stops, nofun⟩
          exact signed.imp (congrArg (· :: [])) (congrArg (· :: []))
        · rcases span (c :: cs) with ⟨digits, rest, shape, solid, stops⟩
          refine ⟨[], [], digits, rest, shape, by simp, .inl rfl, solid, stops, ?_⟩
          rintro - rfl d head
          rw [List.nil_append] at shape
          rw [← shape] at head
          cases head
          exact ⟨blank, not_or.mp signed⟩

/-- Of any string `str_to_int` reads the blanks, the sign and the digits that follow, up to the
first other character, and returns the number that they stand for, modulo 2^32. -/
theorem str_to_int_reads (s : CString) : ∃ blanks sign digits rest,
    Reads s.chars blanks sign digits rest ∧
      strToInt s = BitVec.ofInt 32 (signedValue sign digits) := by
  rcases exists_reads s.chars with ⟨blanks, sign, digits, rest, reads⟩
  exact ⟨blanks, sign, digits, rest, reads, reads.strToInt⟩

/-- A numeral has the value that it stands for. -/
theorem reads_of_isInteger {m : Int} (integer : IsInteger m cs) :
    ∃ sign digits, Reads cs [] sign digits [] ∧ signedValue sign digits = m := by
  cases integer with
  | @nonneg n _ numeral =>
      refine ⟨[], cs, ⟨by simp, by simp, .inl rfl, numeral.digits, nofun, nofun⟩, ?_⟩
      rw [signedValue, if_neg (by decide), numeral.value]
  | @neg n digits _ numeral =>
      refine ⟨[minus], digits, ⟨by simp [minus], by simp, .inr (.inl rfl), numeral.digits, nofun,
        nofun⟩, ?_⟩
      rw [signedValue, if_pos rfl, numeral.value]

theorem strToInt_numeral {m : Int} {s : CString} (integer : IsInteger m s.chars) :
    strToInt s = BitVec.ofInt 32 m := by
  rcases reads_of_isInteger integer with ⟨sign, digits, reads, rfl⟩
  exact reads.strToInt

theorem length_intChars_le (num : Word) : (intChars num).length ≤ 11 := by
  by_cases zero : num = 0#32
  · rw [zero]
    decide
  · have few := (filled_takeDigits (if num.slt 0#32 then -num else num) fun _ => 0#8).2
    have sign : (if num.slt 0#32 then [minus] else []).length ≤ 1 := by split <;> decide
    rw [intChars_eq zero, List.length_append, List.length_reverse]
    exact Nat.add_le_add sign few

/-- The string that `int_to_str` leaves. -/
theorem chars_intToStr (num : Word) (buf : Int → Byte) :
    (bufString 32 (intToStr num ⟨buf, []⟩).buf).chars = intChars num :=
  (holdsString_intToStr num buf).1.chars 32
    (Nat.lt_of_le_of_lt (length_intChars_le num) (by decide))

/-- `str_to_int` gets every number back from the string that `int_to_str` makes of it, but for
the smallest one, which it takes for zero. -/
theorem str_to_int_of_int_to_str (num : Word) (buf : Int → Byte) :
    strToInt (bufString 32 (intToStr num ⟨buf, []⟩).buf) = num ↔ num ≠ intMin := by
  have chars := chars_intToStr num buf
  constructor
  · intro back smallest
    subst smallest
    have reads : Reads (bufString 32 (intToStr intMin ⟨buf, []⟩).buf).chars [] [minus] [] [] := by
      rw [chars]
      exact ⟨by decide, by simp, .inr (.inl rfl), by simp, nofun, nofun⟩
    rw [reads.strToInt] at back
    exact absurd back (by decide)
  · intro other
    have integer := isInteger_intChars other
    rw [← chars] at integer
    rw [strToInt_numeral integer, BitVec.ofInt_toInt]

end Learnix
