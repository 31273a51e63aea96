import Mathlib.Data.List.Basic

/-!
# While loops

A loop is given by what one round does: `round s` is the state after a round from `s`, and
`none` where the loop ends, at its test or at a `break`. Such a loop need not end. `Reaches`
counts the rounds, `Ends` says that the loop ends after some of them, and `loop` runs it with
fuel.
-/

namespace WhileLoop

variable {σ : Type*}

/-- `n` rounds lead from `s` to a state. -/
inductive Reaches (round : σ → Option σ) (s : σ) : Nat → σ → Prop
  | start : Reaches round s 0 s
  | more {n t u} : Reaches round s n t → round t = some u → Reaches round s (n + 1) u

/-- The loop ends after `n` rounds. -/
def Ends (round : σ → Option σ) (s : σ) (n : Nat) (t : σ) : Prop :=
  Reaches round s n t ∧ round t = none

/-- The state where the loop ends; `none` if there is not enough fuel. -/
def loop (round : σ → Option σ) : Nat → σ → Option σ
  | 0, _ => none
  | fuel + 1, s =>
    match round s with
    | none => some s
    | some t => loop round fuel t

variable {round : σ → Option σ} {s t u : σ} {m n fuel : Nat}

theorem Reaches.cons (first : round s = some t) (rest : Reaches round t n u) :
    Reaches round s (n + 1) u := by
  induction rest with
  | start => exact .more .start first
  | more _ last ih => exact .more ih last

/-- The first round of a run that has one. -/
theorem Reaches.uncons (reaches : Reaches round s (n + 1) u) :
    ∃ t, round s = some t ∧ Reaches round t n u := by
  induction n generalizing u with
  | zero =>
      cases reaches with
      | more before last =>
          cases before
          exact ⟨u, last, .start⟩
  | succ n ih =>
      cases reaches with
      | more before last =>
          rcases ih before with ⟨t, first, rest⟩
          exact ⟨t, first, .more rest last⟩

/-- The rounds are deterministic. -/
theorem Reaches.unique (first : Reaches round s n t) (second : Reaches round s n u) : t = u := by
  induction first generalizing u with
  | start =>
      cases second
      rfl
  | more _ last ih =>
      cases second with
      | more before last' =>
          rw [ih before] at last
          exact Option.some_inj.mp (last.symm.trans last')

/-- Along the way to a state there is a state after every number of rounds. -/
theorem Reaches.exists_of_le (reaches : Reaches round s n t) (le : m ≤ n) :
    ∃ u, Reaches round s m u ∧ (m < n → ∃ v, round u = some v) := by
  induction reaches with
  | start =>
      obtain rfl : m = 0 := Nat.le_zero.mp le
      exact ⟨s, .start, fun less => absurd less (Nat.lt_irrefl 0)⟩
  | @more n t u before last ih =>
      rcases Nat.lt_or_ge n m with later | earlier
      · obtain rfl : m = n + 1 := by omega
        exact ⟨u, .more before last, fun less => absurd less (Nat.lt_irrefl _)⟩
      · rcases Nat.eq_or_lt_of_le earlier with rfl | less
        · exact ⟨t, before, fun _ => ⟨u, last⟩⟩
        · rcases ih earlier with ⟨v, reaches, next⟩
          exact ⟨v, reaches, fun _ => next less⟩

/-- No round is taken after the loop has ended. -/
theorem Ends.le (ends : Ends round s n t) (reaches : Reaches round s m u) : m ≤ n := by
  by_contra later
  rcases reaches.exists_of_le (Nat.le_of_not_le later) with ⟨v, before, next⟩
  rcases next (Nat.lt_of_not_le later) with ⟨w, goes⟩
  rw [before.unique ends.1, ends.2] at goes
  cases goes

/-! ## Rules -/

/-- **Invariant rule.** The invariant may speak of the number of rounds. -/
theorem Reaches.invariant {I : Nat → σ → Prop} (reaches : Reaches round s n t) (start : I 0 s)
    (keeps : ∀ n t u, I n t → round t = some u → I (n + 1) u) : I n t := by
  induction reaches with
  | start => exact start
  | more _ last ih => exact keeps _ _ _ ih last

/-- **Termination rule.** A loop that goes on only in its first `bound` rounds ends. -/
theorem exists_ends {I : Nat → σ → Prop} (bound : Nat) (start : I 0 s)
    (keeps : ∀ n t u, I n t → round t = some u → I (n + 1) u)
    (few : ∀ n t u, I n t → round t = some u → n < bound) :
    ∃ n t, n ≤ bound ∧ Ends round s n t ∧ I n t := by
  have from_ : ∀ k n t, n + k = bound → Reaches round s n t → I n t →
      ∃ n t, n ≤ bound ∧ Ends round s n t ∧ I n t := by
    intro k
    induction k with
    | zero =>
        intro n t total reaches inv
        cases last : round t with
        | none => exact ⟨n, t, Nat.le_of_eq total, ⟨reaches, last⟩, inv⟩
        | some u => exact absurd (few n t u inv last) (Nat.not_lt.mpr (Nat.le_of_eq total.symm))
    | succ k ih =>
        intro n t total reaches inv
        cases next : round t with
        | none => exact ⟨n, t, by omega, ⟨reaches, next⟩, inv⟩
        | some u => exact ih (n + 1) u (by omega) (.more reaches next) (keeps n t u inv next)
  exact from_ bound 0 s (Nat.zero_add bound) .start start

/-- **Progress rule.** A loop whose invariant lets it go on never ends. -/
theorem exists_reaches {I : Nat → σ → Prop} (start : I 0 s)
    (goes : ∀ n t, I n t → ∃ u, round t = some u ∧ I (n + 1) u) (n : Nat) :
    ∃ t, Reaches round s n t ∧ I n t := by
  induction n with
  | zero => exact ⟨s, .start, start⟩
  | succ n ih =>
      rcases ih with ⟨t, reaches, inv⟩
      rcases goes n t inv with ⟨u, next, inv'⟩
      exact ⟨u, .more reaches next, inv'⟩

theorem not_ends {I : Nat → σ → Prop} (start : I 0 s)
    (goes : ∀ n t, I n t → ∃ u, round t = some u ∧ I (n + 1) u) (n : Nat) (t : σ) :
    ¬ Ends round s n t := by
  intro ends
  rcases exists_reaches start goes (n + 1) with ⟨u, reaches, -⟩
  exact absurd (ends.le reaches) (Nat.not_succ_le_self n)

/-! ## Fuel -/

theorem loop_eq_some_iff : loop round fuel s = some t ↔ ∃ n < fuel, Ends round s n t := by
  induction fuel generalizing s with
  | zero => simp [loop]
  | succ fuel ih =>
      rw [loop]
      cases first : round s with
      | none =>
          constructor
          · intro same
            cases same
            exact ⟨0, Nat.zero_lt_succ fuel, .start, first⟩
          · rintro ⟨n, -, reaches, -⟩
            cases n with
            | zero =>
                cases reaches
                rfl
            | succ n =>
                rcases reaches.uncons with ⟨u, goes, -⟩
                rw [first] at goes
                cases goes
      | some v =>
          simp only [ih]
          constructor
          · rintro ⟨n, less, reaches, last⟩
            exact ⟨n + 1, Nat.succ_lt_succ less, .cons first reaches, last⟩
          · rintro ⟨n, less, reaches, last⟩
            cases n with
            | zero =>
                cases reaches
                rw [first] at last
                cases last
            | succ n =>
                rcases reaches.uncons with ⟨u, goes, rest⟩
                cases first.symm.trans goes
                exact ⟨n, Nat.lt_of_succ_lt_succ less, rest, last⟩

theorem loop_eq_none_iff : loop round fuel s = none ↔ ∀ n < fuel, ∀ t, ¬ Ends round s n t := by
  rw [Option.eq_none_iff_forall_ne_some]
  constructor
  · intro never n less t ends
    exact never t (loop_eq_some_iff.mpr ⟨n, less, ends⟩)
  · intro never t ended
    rcases loop_eq_some_iff.mp ended with ⟨n, less, ends⟩
    exact never n less t ends

end WhileLoop
