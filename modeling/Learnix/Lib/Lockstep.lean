import Mathlib.Data.Option.Basic

/-!
# Two programs in lock step

Two partial step functions that keep a relation between their states: one of them has no next
state exactly if the other has none. Then the same holds of any number of steps, also if the
relation is only kept from some of the states and the second function comes to no others
(`rounds_rel`).
-/

namespace Lockstep

variable {α β γ δ : Type*} {R : α → β → Prop} {S : γ → δ → Prop}

/-- So many steps, one after the other. -/
def rounds (step : α → Option α) : Nat → α → Option α
  | 0, a => some a
  | n + 1, a => (step a).bind (rounds step n)

/-- Both call the same function, which may not return, and go on with its result. -/
theorem rel_bind_same {f : α → Option γ} {g : α → Option δ} (called : Option α)
    (goesOn : ∀ x, Option.Rel S (f x) (g x)) : Option.Rel S (called.bind f) (called.bind g) := by
  cases called with
  | none => exact .none
  | some x => exact goesOn x

theorem rel_map_same {f : α → γ} {g : α → δ} (called : Option α) (goesOn : ∀ x, S (f x) (g x)) :
    Option.Rel S (called.map f) (called.map g) := by
  cases called with
  | none => exact .none
  | some x => exact .some (goesOn x)

/-- **Rule for lock step.** What a step keeps from the states that are come to, any number of
steps keep. -/
theorem rounds_rel {G : β → Prop} {step : α → Option α} {step' : β → Option β}
    (keeps : ∀ a b, R a b → G b → Option.Rel R (step a) (step' b)) (n : Nat) {a : α} {b : β}
    (related : R a b) (visited : ∀ k < n, ∀ b', rounds step' k b = some b' → G b') :
    Option.Rel R (rounds step n a) (rounds step' n b) := by
  induction n generalizing a b with
  | zero => exact .some related
  | succ n ih =>
      have first := keeps a b related (visited 0 (Nat.succ_pos n) b rfl)
      rw [rounds, rounds]
      cases taken : step a with
      | none =>
          cases taken' : step' b with
          | none => exact .none
          | some b' =>
              rw [taken, taken'] at first
              cases first
      | some a' =>
          cases taken' : step' b with
          | none =>
              rw [taken, taken'] at first
              cases first
          | some b' =>
              rw [taken, taken'] at first
              cases first with
              | some next =>
                  apply ih next
                  intro k below b'' reached
                  apply visited (k + 1) (Nat.succ_lt_succ below) b''
                  rw [rounds, taken']
                  exact reached

end Lockstep
