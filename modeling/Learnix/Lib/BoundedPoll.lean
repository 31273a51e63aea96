import Mathlib.Logic.Basic

/-!
# Bounded polling

A device is asked until one of its answers decides the matter, but not more than a fixed number
of times: `poll` asks, and counts the questions. What it comes to is told by the first answer
that decides (`DecidedAt`), if that is near enough.
-/

namespace BoundedPoll

variable {α β : Type*}

/-- The decision, if one of the first `budget` answers gives one, and the number of answers that
were looked at. -/
def poll (judge : α → Option β) (answers : Nat → α) : Nat → Nat → Option β × Nat
  | 0, _ => (none, 0)
  | budget + 1, start =>
    match judge (answers start) with
    | some b => (some b, 1)
    | none =>
      let (decision, polls) := poll judge answers budget (start + 1)
      (decision, polls + 1)

/-- The first answer from `start` on that decides comes after `k` others. -/
structure DecidedAt (judge : α → Option β) (answers : Nat → α) (start k : Nat) (b : β) :
    Prop where
  before : ∀ j, j < k → judge (answers (start + j)) = none
  decides : judge (answers (start + k)) = some b

variable {judge : α → Option β} {answers : Nat → α} {budget start k : Nat} {b : β}

theorem DecidedAt.of_undecided (undecided : judge (answers start) = none)
    (decided : DecidedAt judge answers (start + 1) k b) :
    DecidedAt judge answers start (k + 1) b := by
  rcases decided with ⟨before, decides⟩
  refine ⟨fun j below => ?_, ?_⟩
  · cases j with
    | zero => exact undecided
    | succ j =>
        have later := before j (Nat.lt_of_succ_lt_succ below)
        rwa [Nat.add_assoc, Nat.add_comm 1 j] at later
  · rwa [Nat.add_assoc, Nat.add_comm 1 k] at decides

/-- A decision is the first one, and it is the last answer that is looked at. -/
theorem decidedAt_of_poll (budget start : Nat)
    (decided : (poll judge answers budget start).1 = some b) :
    ∃ k, k < budget ∧ (poll judge answers budget start).2 = k + 1 ∧
      DecidedAt judge answers start k b := by
  induction budget generalizing start with
  | zero => cases decided
  | succ budget ih =>
      rw [poll] at decided ⊢
      cases answer : judge (answers start) with
      | some c =>
          rw [answer] at decided
          cases decided
          refine ⟨0, Nat.succ_pos budget, rfl, fun j below => absurd below (Nat.not_lt_zero j), ?_⟩
          exact answer
      | none =>
          rw [answer] at decided
          rcases ih (start + 1) decided with ⟨k, below, polls, later⟩
          refine ⟨k + 1, Nat.succ_lt_succ below, ?_, later.of_undecided answer⟩
          exact congrArg (· + 1) polls

/-- The first decision is reached, if it is within the budget. -/
theorem DecidedAt.poll_eq (decided : DecidedAt judge answers start k b) (below : k < budget) :
    poll judge answers budget start = (some b, k + 1) := by
  rcases decided with ⟨before, decides⟩
  induction k generalizing budget start with
  | zero =>
      cases budget with
      | zero => exact absurd below (Nat.not_lt_zero 0)
      | succ budget =>
          rw [Nat.add_zero] at decides
          rw [poll, decides]
  | succ k ih =>
      cases budget with
      | zero => exact absurd below (Nat.not_lt_zero _)
      | succ budget =>
          have first := before 0 (Nat.succ_pos k)
          rw [Nat.add_zero] at first
          have rest : poll judge answers budget (start + 1) = (some b, k + 1) := by
            apply ih (Nat.lt_of_succ_lt_succ below)
            · intro j less
              have later := before (j + 1) (Nat.succ_lt_succ less)
              rwa [Nat.add_assoc, Nat.add_comm 1 j]
            · rwa [Nat.add_assoc, Nat.add_comm 1 k]
          rw [poll, first]
          simp only [rest]

/-- Which decision a poll comes to. -/
theorem poll_eq_some_iff :
    (poll judge answers budget start).1 = some b ↔
      ∃ k, k < budget ∧ DecidedAt judge answers start k b := by
  constructor
  · intro decided
    rcases decidedAt_of_poll budget start decided with ⟨k, below, -, at_⟩
    exact ⟨k, below, at_⟩
  · intro decided
    rcases decided with ⟨k, below, at_⟩
    rw [at_.poll_eq below]

end BoundedPoll
