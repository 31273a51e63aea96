import Mathlib.Data.List.DropRight
import Mathlib.Data.List.GetD
import Mathlib.Data.List.OfFn

/-!
# Padded fields

A field of fixed width holds a run of characters, then blanks. A run without blanks can be
told from the field that holds it (`eq_trim`), whatever longer or blank-ended list was
written into it.
-/

namespace Padded

variable {α : Type*} {blank : α} {run l : List α} {n k : Nat}

/-- The field that `l` is written into, from its start. -/
def pad (blank : α) (n : Nat) (l : List α) : Fin n → α := fun i => l.getD i blank

theorem ofFn_pad (fits : l.length ≤ n) :
    List.ofFn (pad blank n l) = l ++ List.replicate (n - l.length) blank := by
  apply List.ext_getElem
  · rw [List.length_ofFn, List.length_append, List.length_replicate]
    omega
  · intro i left _
    rw [List.getElem_ofFn, pad]
    rcases Nat.lt_or_ge i l.length with below | above
    · rw [List.getElem_append_left below, List.getD_eq_getElem _ _ below]
    · rw [List.getElem_append_right above, List.getElem_replicate, List.getD_eq_default _ _ above]

/-- What does not fit is not in the field. -/
theorem pad_take (blank : α) (n : Nat) (l : List α) : pad blank n (l.take n) = pad blank n l := by
  funext i
  rw [pad, pad, List.getD_eq_getElem?_getD, List.getD_eq_getElem?_getD,
    List.getElem?_take_of_lt i.isLt]

variable [DecidableEq α]

/-- `l` cut to the width of the field, without the blanks at its end. -/
def trim (blank : α) (n : Nat) (l : List α) : List α :=
  (l.take n).rdropWhile fun c => c = blank

theorem rdropWhile_blanks (l : List α) (k : Nat) :
    (l ++ List.replicate k blank).rdropWhile (fun c => c = blank) =
      l.rdropWhile fun c => c = blank := by
  induction k with
  | zero => rw [List.replicate_zero, List.append_nil]
  | succ k ih =>
      rw [List.replicate_succ', ← List.append_assoc]
      have shorter := List.rdropWhile_concat_pos (fun c => decide (c = blank))
        (l ++ List.replicate k blank) blank (decide_eq_true rfl)
      exact shorter.trans ih

theorem rdropWhile_solid (solid : blank ∉ l) : l.rdropWhile (fun c => c = blank) = l := by
  rw [List.rdropWhile_eq_self_iff]
  intro some_ last
  exact solid (of_decide_eq_true last ▸ List.getLast_mem some_)

theorem trim_of_fits (fits : l.length ≤ n) (solid : blank ∉ l) : trim blank n l = l := by
  rw [trim, List.take_of_length_le fits, rdropWhile_solid solid]

/-- A run without blanks is read off from the field. -/
theorem eq_trim (fits : run.length ≤ n) (solid : blank ∉ run)
    (same : pad blank n l = pad blank n run) : run = trim blank n l := by
  have fields := congrArg List.ofFn ((pad_take blank n l).trans same)
  rw [ofFn_pad (List.length_take_le n l), ofFn_pad fits] at fields
  calc run = (run ++ List.replicate (n - run.length) blank).rdropWhile (fun c => c = blank) := by
        rw [rdropWhile_blanks, rdropWhile_solid solid]
    _ = trim blank n l := by rw [← fields, rdropWhile_blanks, trim]

end Padded
