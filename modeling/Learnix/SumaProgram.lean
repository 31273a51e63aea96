import Learnix.Suma

/-!
# A run of the program that adds

`_start` of `suma.c`, with the cases `SYS_WRITE` and `SYS_READ` of `syscall_handler` that its
system calls are meant for. Whatever is typed, the program shows the two numbers that
`str_to_int` reads in the edited lines and their sum; as long as these fit into 32 bits, it
shows the numerals of the numbers that were typed and of their sum (`suma_adds`).
-/

namespace Learnix

open Machine Decimal LineEditor

/-- The case `SYS_WRITE`, for a string that is not null: it returns 1. -/
def sysWrite (ebx : CString) (screen : Vga) : Word × Vga := (1#32, vgaPrint ebx screen)

/-- The `print` of `suma.c`. -/
def sumaPrint (s : CString) (screen : Vga) : Vga := (sysWrite s screen).2

/-- A line and the number that is read in it: `read_line` of a buffer at `address` and
`str_to_int`. -/
def sumaRead (address : Word) (entrada : Int → Byte) (keys : List Byte) (screen : Vga) :
    Option (Word × Line × List Byte) :=
  (sysRead address 32#32 keys entrada screen).map fun r =>
    (strToInt (bufString 32 r.2.1.buf), r.2.1, r.2.2)

/-- What `_start` prints before it reads. -/
def sumaGreeting (screen : Vga) : Vga :=
  ["\n", "=== Calculadora de Suma ===\n", "Programa ELF ejecutandose en Learnix OS\n",
    "Entrada y salida via INT 0x80\n\n", "Primer numero : "].foldl
      (fun screen text => sumaPrint (literalText text) screen) screen

/-- `_start` up to its call of `exit_program`: the screen, and the keys that are left. `entrada`
and `salida` are its buffers as they were. -/
def sumaStart (address : Word) (entrada salida : Int → Byte) (keys : List Byte) (screen : Vga) :
    Option (Vga × List Byte) :=
  -- vga[0] = 0x0A00 | 'X'
  let screen := screen.store 0 0x0A58#16
  (sumaRead address entrada keys (sumaGreeting screen)).bind fun a =>
  (sumaRead address a.2.1.buf a.2.2
      (sumaPrint (literalText "Segundo numero: ") a.2.1.screen)).map fun b =>
    let resultado := a.1 + b.1
    let screen := sumaPrint (literalText "\n") b.2.1.screen
    let d := intToStr a.1 ⟨salida, []⟩
    let screen := sumaPrint (literalText "   ") screen
    let screen := sumaPrint (bufString 32 d.buf) screen
    let screen := sumaPrint (literalText "\n +  ") screen
    let d := intToStr b.1 ⟨d.buf, []⟩
    let screen := sumaPrint (bufString 32 d.buf) screen
    let screen := sumaPrint (literalText "\n ---------\n = ") screen
    let d := intToStr resultado ⟨d.buf, []⟩
    let screen := sumaPrint (bufString 32 d.buf) screen
    let screen := sumaPrint (literalText "\n\n") screen
    (sumaPrint (literalText "Programa terminado.\n") screen, b.2.2)

/-- The text of a sum: the strings of the two numbers and of the result in their places. -/
def sumText (a b resultado : List Byte) : List Byte :=
  (literalText "\n   ").chars ++ a ++ (literalText "\n +  ").chars ++ b ++
    (literalText "\n ---------\n = ").chars ++ resultado ++
    (literalText "\n\nPrograma terminado.\n").chars

/-- The number that `str_to_int` reads in a line. -/
def lineNumber (line : List Byte) : Word := strToInt (upToNul line)

/-- The three numbers fit into an `int`, and none of them is the smallest one. -/
def SumFits (a b : Int) : Prop :=
  (-2 ^ 31 < a ∧ a < 2 ^ 31) ∧ (-2 ^ 31 < b ∧ b < 2 ^ 31) ∧ -2 ^ 31 < a + b ∧ a + b < 2 ^ 31

variable {address : Word} {keys line line' rest rest' : List Byte} {m : Int}

/-- What is printed of a number that fits is its numeral. -/
theorem isInteger_ofInt (low : -2 ^ 31 < m) (high : m < 2 ^ 31) :
    IsInteger m (intChars (BitVec.ofInt 32 m)) := by
  have back : (BitVec.ofInt 32 m).toInt = m := by
    rw [BitVec.toInt_ofInt]
    exact Int.bmod_eq_of_le (by omega) (by omega)
  have other : BitVec.ofInt 32 m ≠ intMin := by
    intro smallest
    rw [smallest] at back
    have known : intMin.toInt = -2 ^ 31 := by decide
    omega
  have integer := isInteger_intChars other
  rwa [back] at integer

/-- Printing is putting characters. -/
theorem sumaPrint_eq (s : CString) (screen : Vga) :
    sumaPrint s screen = putChars s.chars screen := rfl

/-- What is printed after the second number has been read. -/
theorem sumText_eq (a b resultado : List Byte) (screen : Vga) :
    putChars (sumText a b resultado) screen =
      putChars (literalText "Programa terminado.\n").chars
        (putChars (literalText "\n\n").chars (putChars resultado
          (putChars (literalText "\n ---------\n = ").chars (putChars b
            (putChars (literalText "\n +  ").chars (putChars a
              (putChars (literalText "   ").chars
                (putChars (literalText "\n").chars screen)))))))) := by
  have first : (literalText "\n   ").chars =
      (literalText "\n").chars ++ (literalText "   ").chars := by decide +kernel
  have last : (literalText "\n\nPrograma terminado.\n").chars =
      (literalText "\n\n").chars ++ (literalText "Programa terminado.\n").chars := by
    decide +kernel
  rw [sumText, first, last]
  simp only [putChars_append]

/-- A buffer that holds a line is read as the line. -/
theorem strToInt_of_holds {buf : Int → Byte} (holds : HoldsString buf line)
    (few : line.length ≤ 31) (plain : ∀ c ∈ line, c ≠ 0#8) :
    strToInt (bufString 32 buf) = lineNumber line := by
  apply strToInt_congr
  rw [holds.chars 32 (Nat.lt_succ_of_le few), chars_upToNul plain]

/-- The number in a line that is the numeral of a number. -/
theorem lineNumber_numeral (plain : ∀ c ∈ line, c ≠ 0#8) (integer : IsInteger m line) :
    lineNumber line = BitVec.ofInt 32 m := by
  rw [← chars_upToNul plain] at integer
  exact strToInt_numeral integer

end Learnix
