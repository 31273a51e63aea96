import Mathlib.Algebra.Order.Group.Int
import Mathlib.Logic.Function.Basic

/-!
# Reversing an array in place

An array is a function of its indices. The loop that exchanges the entries `j` and
`n - 1 - j` for `j` from `0` on has, after `k` rounds, reversed the two outer parts of the
first `n` entries (`reverseLoop_apply`); after `n / 2` rounds it has reversed all of them
(`reverseLoop_half`).
-/

namespace Reversal

variable {α : Type*}

/-- Exchange two entries. -/
def swap (i j : Int) (f : Int → α) : Int → α :=
  Function.update (Function.update f i (f j)) j (f i)

/-- The first `k` rounds of the loop. -/
def reverseLoop (n : Int) (k : Nat) (f : Int → α) : Int → α :=
  (List.range k).foldl (fun f (j : Nat) => swap j (n - 1 - j) f) f

variable {n x : Int} {k : Nat} {f : Int → α}

theorem swap_apply (i j : Int) (f : Int → α) (x : Int) :
    swap i j f x = if x = j then f i else if x = i then f j else f x := by
  rw [swap, Function.update_apply, Function.update_apply]

theorem reverseLoop_succ (n : Int) (k : Nat) (f : Int → α) :
    reverseLoop n (k + 1) f = swap k (n - 1 - k) (reverseLoop n k f) := by
  rw [reverseLoop, List.range_succ, List.foldl_append]
  rfl

/-- After `k` rounds the outer entries are reversed and the inner ones as they were. -/
theorem reverseLoop_apply (half : 2 * k ≤ n) (f : Int → α) (x : Int) :
    reverseLoop n k f x =
      if 0 ≤ x ∧ x < k ∨ n - k ≤ x ∧ x < n then f (n - 1 - x) else f x := by
  induction k generalizing x with
  | zero =>
      rw [if_neg (by omega)]
      rfl
  | succ k ih =>
      have before := ih (by omega)
      rw [reverseLoop_succ, swap_apply]
      by_cases right : x = n - 1 - k
      · rw [if_pos right, before, if_neg (by omega), if_pos (by omega)]
        congr 1
        omega
      · rw [if_neg right]
        by_cases left : x = k
        · rw [if_pos left, before, if_neg (by omega), if_pos (by omega), left]
        · rw [if_neg left, before]
          by_cases outer : 0 ≤ x ∧ x < k ∨ n - k ≤ x ∧ x < n
          · rw [if_pos outer, if_pos (by omega)]
          · rw [if_neg outer, if_neg (by omega)]

/-- The whole loop. -/
theorem reverseLoop_half (count : Nat) (f : Int → α) (low : 0 ≤ x) (high : x < count) :
    reverseLoop count (count / 2) f x = f (count - 1 - x) := by
  rw [reverseLoop_apply (by omega)]
  by_cases outer : 0 ≤ x ∧ x < (count / 2 : Nat) ∨
      (count : Int) - (count / 2 : Nat) ≤ x ∧ x < count
  · rw [if_pos outer]
  · -- the entry in the middle stays where it is
    rw [if_neg outer]
    congr 1
    omega

end Reversal
