import Mathlib.Data.BitVec

/-!
# Counting loops

`forLoop bound body i s` is the loop `for (; i < bound; i++) body` over a state.
The bound is a machine word that is read anew before every round, so that the
body may change it; the counter stays below it and never wraps, and the loop
always ends. `rounds` lists the counter and the state before every round, and `forLoopE` is
the loop with steps that may fail. A loop with a constant bound is a `List.foldl` over a
range (`foldl_range`).
-/

namespace ForLoop

variable {σ : Type*} {w : Nat}

def forLoop (bound : σ → BitVec w) (body : Nat → σ → σ) (i : Nat) (s : σ) : σ :=
  if i < (bound s).toNat then forLoop bound body (i + 1) (body i s) else s
termination_by 2 ^ w - i
decreasing_by
  have := (bound s).isLt
  omega

/-- The loop when finding the bound and taking a round may fail. -/
def forLoopE {ε : Type*} (bound : σ → Except ε (BitVec w)) (body : Nat → σ → Except ε σ) (i : Nat)
    (s : σ) : Except ε σ :=
  match bound s with
  | .error e => .error e
  | .ok n =>
    if i < n.toNat then
      match body i s with
      | .error e => .error e
      | .ok s' => forLoopE bound body (i + 1) s'
    else .ok s
termination_by 2 ^ w - i
decreasing_by
  have := n.isLt
  omega

/-- The counter and the state before every round. -/
def rounds (bound : σ → BitVec w) (body : Nat → σ → σ) (i : Nat) (s : σ) : List (Nat × σ) :=
  if i < (bound s).toNat then (i, s) :: rounds bound body (i + 1) (body i s) else []
termination_by 2 ^ w - i
decreasing_by
  have := (bound s).isLt
  omega

variable {bound : σ → BitVec w} {body : Nat → σ → σ} {i : Nat} {s t : σ}

theorem forLoop_of_lt (more : i < (bound s).toNat) :
    forLoop bound body i s = forLoop bound body (i + 1) (body i s) := by
  rw [forLoop, if_pos more]

theorem forLoop_of_le (done : (bound s).toNat ≤ i) : forLoop bound body i s = s := by
  rw [forLoop, if_neg (Nat.not_lt.mpr done)]

theorem rounds_of_lt (more : i < (bound s).toNat) :
    rounds bound body i s = (i, s) :: rounds bound body (i + 1) (body i s) := by
  rw [rounds, if_pos more]

theorem rounds_of_le (done : (bound s).toNat ≤ i) : rounds bound body i s = [] := by
  rw [rounds, if_neg (Nat.not_lt.mpr done)]

/-- Induction on the rounds of a loop. -/
theorem loop_induction (bound : σ → BitVec w) (body : Nat → σ → σ) {motive : Nat → σ → Prop}
    (done : ∀ i s, (bound s).toNat ≤ i → motive i s)
    (more : ∀ i s, i < (bound s).toNat → motive (i + 1) (body i s) → motive i s) (i : Nat)
    (s : σ) : motive i s := by
  induction i, s using forLoop.induct bound body with
  | case1 i s below ih => exact more i s below ih
  | case2 i s above => exact done i s (Nat.not_lt.mp above)

/-- The rule for a bound that the invariant fixes. -/
theorem forLoop_fixed {P : Nat → σ → Prop} {n : Nat} (start : P i s) (le : i ≤ n)
    (fixed : ∀ j s', i ≤ j → j ≤ n → P j s' → (bound s').toNat = n)
    (step : ∀ j s', i ≤ j → j < n → P j s' → P (j + 1) (body j s')) :
    P n (forLoop bound body i s) := by
  induction i, s using loop_induction bound body with
  | done i s above =>
      have last : i = n := Nat.le_antisymm le (fixed i s (Nat.le_refl i) le start ▸ above)
      rw [forLoop_of_le above, ← last]
      exact start
  | more i s below ih =>
      have below' : i < n := fixed i s (Nat.le_refl i) le start ▸ below
      rw [forLoop_of_lt below]
      exact ih (step i s (Nat.le_refl i) below' start) below'
        (fun j s' after => fixed j s' (Nat.le_of_succ_le after))
        fun j s' after => step j s' (Nat.le_of_succ_le after)

/-- The rounds of such a loop. -/
theorem mem_rounds_fixed (bound : σ → BitVec w) (body : Nat → σ → σ) {P : Nat → σ → Prop}
    {n : Nat} (start : P i s) (le : i ≤ n)
    (fixed : ∀ j s', i ≤ j → j ≤ n → P j s' → (bound s').toNat = n)
    (step : ∀ j s', i ≤ j → j < n → P j s' → P (j + 1) (body j s')) :
    (∀ r ∈ rounds bound body i s, r.1 < n ∧ P r.1 r.2) ∧
      ∀ j, i ≤ j → j < n → ∃ s', (j, s') ∈ rounds bound body i s := by
  induction i, s using loop_induction bound body with
  | done i s above =>
      have last : i = n := Nat.le_antisymm le (fixed i s (Nat.le_refl i) le start ▸ above)
      rw [rounds_of_le above]
      exact ⟨fun r member => absurd member List.not_mem_nil, fun j low high => by omega⟩
  | more i s below ih =>
      have below' : i < n := fixed i s (Nat.le_refl i) le start ▸ below
      obtain ⟨all, each⟩ := ih (step i s (Nat.le_refl i) below' start) below'
        (fun j s' after => fixed j s' (Nat.le_of_succ_le after))
        fun j s' after => step j s' (Nat.le_of_succ_le after)
      rw [rounds_of_lt below]
      refine ⟨fun r member => ?_, fun j low high => ?_⟩
      · rcases List.mem_cons.mp member with rfl | later
        · exact ⟨below', start⟩
        · exact all r later
      · rcases Nat.eq_or_lt_of_le low with rfl | after
        · exact ⟨s, List.mem_cons_self⟩
        · obtain ⟨s', member⟩ := each j after high
          exact ⟨s', List.mem_cons_of_mem _ member⟩

/-- Two runs that agree on the bound take their rounds together. -/
theorem forLoop_related (bound : σ → BitVec w) (body : Nat → σ → σ) {R : σ → σ → Prop}
    (start : R s t)
    (same : ∀ s' t', R s' t' → bound s' = bound t')
    (step : ∀ j s' t', (j, s') ∈ rounds bound body i s → R s' t' → R (body j s') (body j t')) :
    R (forLoop bound body i s) (forLoop bound body i t) := by
  induction i, s using loop_induction bound body generalizing t with
  | done i s above =>
      rw [forLoop_of_le above, forLoop_of_le (same s t start ▸ above)]
      exact start
  | more i s below ih =>
      have below' : i < (bound t).toNat := same s t start ▸ below
      rw [rounds_of_lt below] at step
      rw [forLoop_of_lt below, forLoop_of_lt below']
      exact ih (step i s t List.mem_cons_self start)
        fun j s' t' member => step j s' t' (List.mem_cons_of_mem _ member)

section Failing

variable {ε τ : Type*} {boundE : σ → Except ε (BitVec w)} {bodyE : Nat → σ → Except ε σ}
  {bound : τ → BitVec w} {body : Nat → τ → τ} {s s' : σ} {n : BitVec w}

theorem forLoopE_of_lt (known : boundE s = .ok n) (more : i < n.toNat)
    (round : bodyE i s = .ok s') :
    forLoopE boundE bodyE i s = forLoopE boundE bodyE (i + 1) s' := by
  rw [forLoopE, known]
  simp only [if_pos more, round]

theorem forLoopE_of_le (known : boundE s = .ok n) (done : n.toNat ≤ i) :
    forLoopE boundE bodyE i s = .ok s := by
  rw [forLoopE, known]
  simp only [if_neg (Nat.not_lt.mpr done)]

/-- A loop that may fail takes its rounds together with one that cannot, and does not fail, if
it does not fail in any of these rounds. -/
theorem forLoopE_refines (boundE : σ → Except ε (BitVec w)) (bodyE : Nat → σ → Except ε σ)
    (bound : τ → BitVec w) (body : Nat → τ → τ) {t : τ} {R : σ → τ → Prop} (start : R s t)
    (same : ∀ s' t', R s' t' → boundE s' = .ok (bound t'))
    (step : ∀ j s' t', (j, t') ∈ rounds bound body i t → R s' t' →
      ∃ s'', bodyE j s' = .ok s'' ∧ R s'' (body j t')) :
    ∃ s'', forLoopE boundE bodyE i s = .ok s'' ∧ R s'' (forLoop bound body i t) := by
  induction i, t using loop_induction bound body generalizing s with
  | done i t above =>
      rw [forLoop_of_le above, forLoopE_of_le (same s t start) above]
      exact ⟨s, rfl, start⟩
  | more i t below ih =>
      rw [rounds_of_lt below] at step
      rcases step i s t List.mem_cons_self start with ⟨s', round, next⟩
      rw [forLoop_of_lt below, forLoopE_of_lt (same s t start) below round]
      exact ih next fun j s' t' member => step j s' t' (List.mem_cons_of_mem _ member)

end Failing

/-- The rule for a loop with a constant bound. -/
theorem foldl_range {P : Nat → σ → Prop} {round : σ → Nat → σ} {n : Nat} (start : P 0 s)
    (step : ∀ j s', j < n → P j s' → P (j + 1) (round s' j)) :
    P n ((List.range n).foldl round s) := by
  induction n with
  | zero => exact start
  | succ n ih =>
      rw [List.range_succ, List.foldl_append, List.foldl_cons, List.foldl_nil]
      exact step n _ (Nat.lt_succ_self n) (ih fun j s' below => step j s' (Nat.lt_succ_of_lt below))

end ForLoop
