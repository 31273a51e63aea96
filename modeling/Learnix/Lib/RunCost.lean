import Learnix.Lib.Run
import Mathlib.Algebra.BigOperators.Group.List.Basic
import Mathlib.Data.List.Induction
import Mathlib.Data.List.Nodup
import Mathlib.Data.Nat.Cast.Basic

/-!
# What a run costs

Every step of a run has a cost. `Run.total_le`: when each step is paid for out of a
budget that the state carries, the whole run costs no more than the budget it
starts with. `Run.total_eq`: when each step adds its cost to a gauge, the gauge
shows the total.
-/

namespace Sys

variable {σ ι M : Type*} {step : σ → ι → σ → Prop} {s t : σ} {tr tr' : List (Event σ ι)}

/-- The cost of all steps of `tr`. -/
def total [AddMonoid M] (cost : Event σ ι → M) (tr : List (Event σ ι)) : M := (tr.map cost).sum

section Sums

variable [AddMonoid M] (cost : Event σ ι → M)

@[simp] theorem total_nil : total cost [] = 0 := rfl

@[simp] theorem total_snoc (e : Event σ ι) : total cost (tr ++ [e]) = total cost tr + cost e := by
  simp [total]

/-- **Gauge rule.** A gauge that each step advances by its cost is advanced by the run by
the total. -/
theorem Run.total_eq {I : σ → Prop} (run : Run step s tr t) (gauge : σ → M) (start : I s)
    (keeps : ∀ {t op u}, I t → step t op u → I u)
    (counts : ∀ {t op u}, I t → step t op u → gauge u = gauge t + cost ⟨t, op, u⟩) :
    gauge t = gauge s + total cost tr := by
  induction run with
  | nil => exact (add_zero _).symm
  | snoc before last ih =>
      rw [counts (before.invariant start keeps) last, ih, total_snoc, add_assoc]

end Sums

/-- **Budget rule.** `Has t n`: in `t` there are `n` units left to spend. When every step
of the run pays its cost from what is left before it, the run and what is left at its
end cost no more than there was at its start. -/
theorem Run.total_le (cost : Event σ ι → Nat) (Has : σ → Nat → Prop) {m : Nat}
    (run : Run step s tr t) (start : Has s m)
    (pays : ∀ e ∈ tr, ∀ n, Has e.pre n → ∃ k, Has e.post k ∧ cost e + k ≤ n) :
    ∃ k, Has t k ∧ total cost tr + k ≤ m := by
  induction run with
  | nil => exact ⟨m, start, Nat.le_of_eq (Nat.zero_add m)⟩
  | @snoc tr t op u before last ih =>
      rcases ih fun e member => pays e (List.mem_append_left _ member) with ⟨n, has, spent⟩
      rcases pays ⟨t, op, u⟩ (by simp) n has with ⟨k, left, cost_⟩
      refine ⟨k, left, ?_⟩
      rw [total_snoc]
      omega

/-- A cost of one for each member of a kind counts them. -/
theorem sum_map_ite_one {α : Type*} [AddMonoidWithOne M] (P : α → Prop) [DecidablePred P]
    (l : List α) : (l.map fun a => if P a then (1 : M) else 0).sum = l.countP P := by
  induction l using List.reverseRecOn with
  | nil => exact Nat.cast_zero.symm
  | append_singleton l a ih =>
      rw [List.map_append, List.sum_append, ih, List.countP_append, List.countP_singleton,
        Nat.cast_add]
      split <;> simp_all

/-- How many steps of a kind a run has, as its cost. -/
theorem total_ite [AddMonoidWithOne M] (P : Event σ ι → Prop) [DecidablePred P]
    (tr : List (Event σ ι)) : total (fun e => if P e then (1 : M) else 0) tr = tr.countP P :=
  sum_map_ite_one P tr

/-- Steps counted by what they belong to: when the owner of each of them is in the list, the
counts of the owners add up to the number of steps. -/
theorem sum_countP_fiber {α : Type*} [DecidableEq α] {owners : List α} (nodup : owners.Nodup)
    {P : Event σ ι → Prop} [DecidablePred P] {owner : Event σ ι → α}
    (owned : ∀ e ∈ tr, P e → owner e ∈ owners) :
    (owners.map fun a => tr.countP fun e => P e ∧ owner e = a).sum = tr.countP P := by
  induction tr using List.reverseRecOn with
  | nil => simp
  | append_singleton tr e ih =>
      have once : (owners.map fun a => if P e ∧ owner e = a then 1 else 0).sum =
          if P e then 1 else 0 := by
        by_cases counts : P e
        · have member := owned e (by simp) counts
          simp only [counts, true_and, if_true]
          rw [sum_map_ite_one (M := Nat) (fun a => owner e = a)]
          simp only [eq_comm (a := owner e)]
          exact List.count_eq_one_of_mem nodup member
        · simp [counts]
      simp only [List.countP_append, List.countP_singleton, List.sum_map_add, decide_eq_true_eq]
      rw [ih fun f member => owned f (List.mem_append_left _ member), once]

end Sys
