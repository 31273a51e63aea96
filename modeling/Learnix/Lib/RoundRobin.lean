import Mathlib.Algebra.Order.Ring.Nat
import Mathlib.Data.List.Count
import Mathlib.Logic.Function.Iterate

/-!
# Weighted round robin

A queue of clients is served one unit at a time. The client at the head is
served until it has got as many units in a row as its weight says and then goes
to the end of the queue. Seen from outside, the clients are served as `turns`
lists them, over and over again (`head_iterate`); after every lap the queue is
what it was and each client has gained its weight (`iterate_laps`).
-/

namespace RoundRobin

variable {α : Type*}

/-- The clients in the order of their turns, the units the first one has got in this
turn, and the units that each client has got in all. -/
structure State (α : Type*) where
  queue : List α
  used : Nat
  gained : α → Nat

/-- Units for one client. -/
def credit [DecidableEq α] (a : α) (n : Nat) (gained : α → Nat) : α → Nat :=
  Function.update gained a (gained a + n)

/-- Serve one unit. -/
def tick [DecidableEq α] (weight : α → Nat) (s : State α) : State α :=
  match s.queue with
  | [] => s
  | a :: rest =>
    if s.used + 1 < weight a then ⟨a :: rest, s.used + 1, credit a 1 s.gained⟩
    else ⟨rest ++ [a], 0, credit a 1 s.gained⟩

/-- The clients by units, through the whole queue. -/
def turns (weight : α → Nat) (queue : List α) : List α :=
  queue.flatMap fun a => List.replicate (weight a) a

/-- The units of a lap. -/
def lap (weight : α → Nat) (queue : List α) : Nat := (queue.map weight).sum

variable {weight : α → Nat} {gained : α → Nat} {a x : α} {l rest : List α} {j n : Nat}

@[simp] theorem turns_cons :
    turns weight (a :: l) = List.replicate (weight a) a ++ turns weight l :=
  List.flatMap_cons

@[simp] theorem lap_cons : lap weight (a :: l) = weight a + lap weight l :=
  List.sum_cons

variable [DecidableEq α]

@[simp] theorem credit_credit (m n : Nat) :
    credit a n (credit a m gained) = credit a (m + n) gained := by
  unfold credit
  rw [Function.update_idem, Function.update_self, Nat.add_assoc]

theorem credit_zero : credit a 0 gained = gained :=
  Function.update_eq_self _ _

theorem credit_apply : credit a n gained x = gained x + if x = a then n else 0 := by
  rw [credit, Function.update_apply]
  split
  · next here => rw [here]
  · rfl

/-- Nobody joins or leaves the queue. -/
theorem mem_tick {s : State α} : x ∈ (tick weight s).queue ↔ x ∈ s.queue := by
  unfold tick
  split
  · next none => rw [none]
  · next a rest shape =>
    rw [shape]
    split
    · exact Iff.rfl
    · rw [List.mem_append, List.mem_singleton, List.mem_cons, or_comm]

/-! ## One turn -/

/-- In the middle of a turn. -/
theorem iterate_turn (below : j < weight a) :
    (tick weight)^[j] ⟨a :: rest, 0, gained⟩ = ⟨a :: rest, j, credit a j gained⟩ := by
  induction j with
  | zero =>
      rw [credit_zero]
      rfl
  | succ j ih =>
      rw [Function.iterate_succ_apply', ih (Nat.lt_of_succ_lt below)]
      exact (if_pos below).trans (by rw [credit_credit])

/-- At its end. -/
theorem iterate_weight (pos : 0 < weight a) :
    (tick weight)^[weight a] ⟨a :: rest, 0, gained⟩ =
      ⟨rest ++ [a], 0, credit a (weight a) gained⟩ := by
  obtain ⟨n, last⟩ := Nat.exists_eq_succ_of_ne_zero (Nat.ne_of_gt pos)
  have before : n < weight a := last ▸ Nat.lt_succ_self n
  have spent : ¬ n + 1 < weight a := Nat.not_lt.mpr (Nat.le_of_eq last)
  rw [last, Function.iterate_succ_apply', iterate_turn before]
  exact (if_neg spent).trans (by rw [credit_credit])

/-! ## Laps -/

/-- After the turns of `l` its clients are at the end of the queue. -/
theorem iterate_lap (pos : ∀ a ∈ l, 0 < weight a) (gained : α → Nat) (rest : List α) :
    (tick weight)^[lap weight l] ⟨l ++ rest, 0, gained⟩ =
      ⟨rest ++ l, 0, fun x => gained x + l.count x * weight x⟩ := by
  induction l generalizing gained rest with
  | nil => simp [lap]
  | cons a l ih =>
      have gain : ∀ x, credit a (weight a) gained x + l.count x * weight x =
          gained x + (a :: l).count x * weight x := by
        intro x
        rw [credit_apply, List.count_cons]
        by_cases here : x = a
        · subst here
          rw [if_pos rfl, if_pos (beq_self_eq_true x), Nat.succ_mul, Nat.add_assoc,
            Nat.add_comm (weight x)]
        · simp [here, Ne.symm here]
      have goOn := ih (fun b member => pos b (List.mem_cons_of_mem a member))
        (credit a (weight a) gained) (rest ++ [a])
      simp only [gain] at goOn
      rw [lap_cons, Nat.add_comm, Function.iterate_add_apply, List.cons_append,
        iterate_weight (pos a List.mem_cons_self), List.append_assoc, goOn, List.append_assoc]
      rfl

/-- Who is at the head during the turns of `l`. -/
theorem head_lap (pos : ∀ a ∈ l, 0 < weight a) (gained : α → Nat) (rest : List α)
    (below : j < lap weight l) :
    ((tick weight)^[j] ⟨l ++ rest, 0, gained⟩).queue.head? = (turns weight l)[j]? := by
  induction l generalizing gained rest j with
  | nil => cases below
  | cons a l ih =>
      rw [turns_cons]
      rcases Nat.lt_or_ge j (weight a) with inside | after
      · rw [List.cons_append, iterate_turn inside, List.getElem?_append_left
          (by rwa [List.length_replicate]), List.getElem?_replicate, if_pos inside]
        rfl
      · obtain ⟨i, rfl⟩ := Nat.exists_eq_add_of_le' after
        rw [lap_cons] at below
        rw [List.cons_append, Function.iterate_add_apply,
          iterate_weight (pos a List.mem_cons_self), List.append_assoc,
          ih (fun b member => pos b (List.mem_cons_of_mem a member)) _ _
            (Nat.lt_of_add_lt_add_right (Nat.lt_of_lt_of_eq below (Nat.add_comm _ _))),
          List.getElem?_append_right (by rw [List.length_replicate]; exact after),
          List.length_replicate, Nat.add_sub_cancel]

/-- After `n` laps the queue is the same and each client has got `n` times its weight. -/
theorem iterate_laps (pos : ∀ a ∈ l, 0 < weight a) (gained : α → Nat) (n : Nat) :
    (tick weight)^[n * lap weight l] ⟨l, 0, gained⟩ =
      ⟨l, 0, fun x => gained x + n * (l.count x * weight x)⟩ := by
  induction n with
  | zero => simp
  | succ n ih =>
      have once := iterate_lap pos (fun x => gained x + n * (l.count x * weight x)) []
      rw [List.append_nil, List.nil_append] at once
      rw [Nat.succ_mul, Nat.add_comm, Function.iterate_add_apply, ih, once]
      simp only [Nat.succ_mul, Nat.add_assoc]

/-- The client that the `n`-th unit goes to. -/
theorem head_iterate (pos : ∀ a ∈ l, 0 < weight a) (some_ : 0 < lap weight l)
    (gained : α → Nat) (n : Nat) :
    ((tick weight)^[n] ⟨l, 0, gained⟩).queue.head? =
      (turns weight l)[n % lap weight l]? := by
  have split : n = n % lap weight l + n / lap weight l * lap weight l := by
    rw [Nat.mul_comm, Nat.mod_add_div]
  have within := head_lap pos (fun x => gained x + n / lap weight l * (l.count x * weight x)) []
    (Nat.mod_lt n some_)
  rw [List.append_nil] at within
  rw [← within, ← iterate_laps pos, ← Function.iterate_add_apply, ← split]

end RoundRobin
