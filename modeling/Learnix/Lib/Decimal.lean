import Mathlib.Data.Nat.Digits.Lemmas

/-!
# Decimal numerals

A numeral of a number is a string of digits without leading zeros that has the number as
its value; a numeral of an integer has a minus sign in front of it when the integer is
negative. `lastFirst` gives the digits in the order in which division by ten finds them,
and its reverse is the numeral of a number other than zero (`isNumeral_reverse`).
-/

namespace Decimal

/-- The character of a digit. -/
def digitChar (d : Nat) : BitVec 8 := BitVec.ofNat 8 (0x30 + d)

def IsDigit (c : BitVec 8) : Prop := 0x30 ≤ c.toNat ∧ c.toNat ≤ 0x39

/-- What a string of digits stands for. -/
def value (cs : List (BitVec 8)) : Nat := cs.foldl (fun v c => 10 * v + (c.toNat - 0x30)) 0

/-- The string is the number in decimal, without leading zeros. -/
structure IsNumeral (n : Nat) (cs : List (BitVec 8)) : Prop where
  digits : ∀ c ∈ cs, IsDigit c
  nonempty : cs ≠ []
  leading : cs.head? = some 0x30#8 → cs = [0x30#8]
  value : value cs = n

/-- The string is the integer in decimal. -/
inductive IsInteger : Int → List (BitVec 8) → Prop
  | nonneg {n : Nat} {cs} : IsNumeral n cs → IsInteger n cs
  | neg {n : Nat} {cs} : 0 < n → IsNumeral n cs → IsInteger (-n) (0x2D#8 :: cs)

/-- The digits of a number, the last one first; there are none for zero. -/
def lastFirst (n : Nat) : List (BitVec 8) := (Nat.digits 10 n).map digitChar

variable {n d : Nat} {c : BitVec 8} {cs : List (BitVec 8)}

theorem toNat_digitChar (small : d < 10) : (digitChar d).toNat = 0x30 + d := by
  rw [digitChar, BitVec.toNat_ofNat, Nat.mod_eq_of_lt (by omega)]

theorem isDigit_digitChar (small : d < 10) : IsDigit (digitChar d) := by
  rw [IsDigit, toNat_digitChar small]
  omega

/-- Division by ten takes the last digit off. -/
theorem lastFirst_of_pos (pos : 0 < n) :
    lastFirst n = digitChar (n % 10) :: lastFirst (n / 10) := by
  rw [lastFirst, Nat.digits_def' (by decide) pos, List.map_cons, lastFirst]

theorem lastFirst_zero : lastFirst 0 = [] := rfl

theorem length_lastFirst_le_iff (k n : Nat) : (lastFirst n).length ≤ k ↔ n < 10 ^ k := by
  rw [lastFirst, List.length_map]
  exact Nat.digits_length_le_iff (by decide) n

theorem value_concat (cs : List (BitVec 8)) (c : BitVec 8) :
    value (cs ++ [c]) = 10 * value cs + (c.toNat - 0x30) :=
  List.foldl_append

theorem value_reverse_map {ds : List Nat} (small : ∀ d ∈ ds, d < 10) :
    value (ds.map digitChar).reverse = Nat.ofDigits 10 ds := by
  induction ds with
  | nil => rfl
  | cons d ds ih =>
      have low := toNat_digitChar (small d List.mem_cons_self)
      rw [List.map_cons, List.reverse_cons, value_concat, low,
        ih fun e member => small e (List.mem_cons_of_mem d member), Nat.ofDigits_cons]
      omega

/-- The digits in the other order are the numeral. -/
theorem isNumeral_reverse (pos : 0 < n) : IsNumeral n (lastFirst n).reverse := by
  have small : ∀ d ∈ Nat.digits 10 n, d < 10 := fun d member =>
    Nat.digits_lt_base (by decide) member
  have some_ : lastFirst n ≠ [] := by
    rw [lastFirst_of_pos pos]
    exact List.cons_ne_nil _ _
  refine ⟨fun c member => ?_, by simpa using some_, fun zero => ?_, ?_⟩
  · rcases List.mem_map.mp (List.mem_reverse.mp member) with ⟨d, digit, rfl⟩
    exact isDigit_digitChar (small d digit)
  · -- the first character is the last digit that division finds, and it is not zero
    have digits : Nat.digits 10 n ≠ [] := Nat.digits_ne_nil_iff_ne_zero.mpr (by omega)
    have nonzero := Nat.getLast_digit_ne_zero 10 (Nat.pos_iff_ne_zero.mp pos)
    have low := toNat_digitChar (small _ (List.getLast_mem digits))
    rw [List.head?_reverse, lastFirst, List.getLast?_map, List.getLast?_eq_some_getLast digits,
      Option.map_some, Option.some_inj] at zero
    rw [zero, BitVec.toNat_ofNat] at low
    omega
  · rw [lastFirst, value_reverse_map small, Nat.ofDigits_digits]

theorem isNumeral_zero : IsNumeral 0 [0x30#8] :=
  ⟨by simp [IsDigit], List.cons_ne_nil _ _, fun _ => rfl, rfl⟩

/-- A numeral of a negative number has two characters at least. -/
theorem IsInteger.two_le_length {m : Int} (integer : IsInteger m cs) (negative : m < 0) :
    2 ≤ cs.length := by
  cases integer with
  | nonneg numeral => exact absurd negative (by omega)
  | neg pos numeral =>
      have some_ := List.length_pos_iff.mpr numeral.nonempty
      rw [List.length_cons]
      omega

end Decimal
