import Learnix.Process
import Mathlib.Logic.Function.Iterate

/-!
# What a tick can do

`scheduler_tick` has four outcomes, the constructors of `Ticked`: nothing to
schedule, the tick is counted, the quantum is used up and the process goes on,
or it gives way to the process that the skip loop ends at (`landing`). Every
fact about ticks is derived from these, with what each does to the PCBs.
-/

namespace Learnix

open Machine

/-- The successor of a process. -/
def ProcState.next (s : ProcState) (p : Word) : Word := (s.pcb p).next

/-- The scheduler is running and has a process. -/
def Active (s : ProcState) : Prop := s.schedulerRunning = true ∧ s.currentProcess ≠ 0#32

/-- The tick to come uses up the quantum of the current process. -/
def QuantumUsed (s : ProcState) : Prop :=
  ¬ s.tickCount + 1#32 < (s.pcb s.currentProcess).ticksQuantum

/-- The skip loop passes over `p`. -/
def Skipped (s : ProcState) (p : Word) : Prop :=
  (s.pcb p).state = .dead ∨ (s.pcb p).state = .blocked

instance (s : ProcState) : Decidable (Active s) :=
  inferInstanceAs (Decidable (s.schedulerRunning = true ∧ s.currentProcess ≠ 0#32))

instance (s : ProcState) : Decidable (QuantumUsed s) :=
  inferInstanceAs (Decidable (¬ s.tickCount + 1#32 < (s.pcb s.currentProcess).ticksQuantum))

instance (s : ProcState) (p : Word) : Decidable (Skipped s p) :=
  inferInstanceAs (Decidable ((s.pcb p).state = .dead ∨ (s.pcb p).state = .blocked))

/-- Where the skip loop of a tick ends. -/
def landing (s : ProcState) : Word := skipLoop s maxProcesses (s.next s.currentProcess)

variable {s s' : ProcState} {p q esp next : Word} {n : Nat}

/-! ## The skip loop -/

theorem skipLoop_congr (same : ∀ p, (s'.pcb p).state = (s.pcb p).state ∧ s'.next p = s.next p)
    (n : Nat) (p : Word) : skipLoop s' n p = skipLoop s n p := by
  induction n generalizing p with
  | zero => rfl
  | succ n ih =>
      have next : (s'.pcb p).next = (s.pcb p).next := (same p).2
      rw [skipLoop, skipLoop, (same p).1, next]
      split
      · exact ih _
      · rfl

/-- The skip loop goes on until it finds a process to run or its attempts are
used up. -/
theorem skipLoop_eq (s : ProcState) (n : Nat) (p : Word) :
    ∃ k ≤ n, skipLoop s n p = s.next^[k] p ∧ (∀ j < k, Skipped s (s.next^[j] p)) ∧
      (k = n ∨ ¬ Skipped s (s.next^[k] p)) := by
  induction n generalizing p with
  | zero => exact ⟨0, Nat.le_refl _, rfl, fun j below => absurd below (Nat.not_lt_zero j), .inl rfl⟩
  | succ n ih =>
      rw [skipLoop]
      by_cases skip : Skipped s p
      · obtain ⟨k, bound, at_, before, stop⟩ := ih (s.next p)
        refine ⟨k + 1, Nat.succ_le_succ bound, ?_, fun j below => ?_, stop.imp (congrArg _) id⟩
        · exact (if_pos skip).trans at_
        · cases j with
          | zero => exact skip
          | succ j => exact before j (Nat.lt_of_succ_lt_succ below)
      · exact ⟨0, Nat.zero_le _, if_neg skip, fun j below => absurd below (Nat.not_lt_zero j),
          .inr skip⟩

/-! ## What the parts of a tick do to the PCBs -/

theorem countTick_field {β : Type} (field : Pcb → β)
    (same : ∀ b ticks, field { b with ticksTotal := ticks } = field b) :
    field ((countTick s).pcb p) = field (s.pcb p) :=
  setPcb_field (s := s) (q := s.currentProcess)
    (f := fun b => { b with ticksTotal := b.ticksTotal + 1#32 }) field (same _ _)

theorem saveContext_field {β : Type} (field : Pcb → β)
    (same : ∀ b esp, field { b with esp := esp } = field b) :
    field ((saveContext esp s).pcb p) = field (s.pcb p) :=
  setPcb_field (s := s) (q := s.currentProcess) (f := fun b => { b with esp := esp }) field
    (same _ _)

theorem switchTo_field {β : Type} (field : Pcb → β)
    (same : ∀ b state, field { b with state := state } = field b) :
    field ((switchTo next s).pcb p) = field (s.pcb p) :=
  (setPcb_field (q := next) (f := fun b => { b with state := .running }) field (same _ _)).trans
    (setPcb_field (s := s) (q := s.currentProcess) (f := fun b => { b with state := .ready }) field
      (same _ _))

theorem startCurrent_field {β : Type} (field : Pcb → β)
    (same : ∀ b state, field { b with state := state } = field b) :
    field ((startCurrent s).pcb p) = field (s.pcb p) :=
  setPcb_field (s := s) (q := s.currentProcess) (f := fun b => { b with state := .running }) field
    (same _ _)

theorem saveContext_esp : ((saveContext esp s).pcb p).esp =
    if p = s.currentProcess then esp else (s.pcb p).esp := by
  unfold saveContext
  simp only [setPcb_pcb]
  split <;> rfl

theorem switchTo_state : ((switchTo next s).pcb p).state =
    if p = next then .running else if p = s.currentProcess then .ready else (s.pcb p).state := by
  unfold switchTo
  simp only [setPcb_pcb]
  split
  · rfl
  · split <;> rfl

/-! ## The outcomes of a tick -/

/-- What `scheduler_tick` returns: the stack pointer to go on with, and the
processes. -/
inductive Ticked (esp : Word) (s : ProcState) : Word × ProcState → Prop
  | idle : ¬ Active s → Ticked esp s (esp, s)
  | counted : Active s → ¬ QuantumUsed s → Ticked esp s (esp, countTick s)
  | kept : Active s → QuantumUsed s →
    (landing s = s.currentProcess ∨ (s.pcb (landing s)).state = .dead) →
    Ticked esp s (esp, saveContext esp (countTick s))
  | switched : Active s → QuantumUsed s → landing s ≠ s.currentProcess →
    (s.pcb (landing s)).state ≠ .dead →
    Ticked esp s ((s.pcb (landing s)).esp, switchTo (landing s) (saveContext esp (countTick s)))

theorem Ticked.of_call {r : Word × ProcState} (call : schedulerTick esp s = r) :
    Ticked esp s r := by
  subst call
  have state : ∀ p, ((saveContext esp (countTick s)).pcb p).state = (s.pcb p).state := fun p =>
    (saveContext_field Pcb.state fun _ _ => rfl).trans (countTick_field Pcb.state fun _ _ => rfl)
  have nextOf : ∀ p, ((saveContext esp (countTick s)).pcb p).next = (s.pcb p).next := fun p =>
    (saveContext_field Pcb.next fun _ _ => rfl).trans (countTick_field Pcb.next fun _ _ => rfl)
  have land : skipLoop (saveContext esp (countTick s)) maxProcesses
      ((saveContext esp (countTick s)).pcb s.currentProcess).next = landing s := by
    rw [nextOf, landing]
    exact skipLoop_congr (fun p => ⟨state p, nextOf p⟩) _ _
  have quantum : ((countTick s).pcb s.currentProcess).ticksQuantum =
      (s.pcb s.currentProcess).ticksQuantum := countTick_field Pcb.ticksQuantum fun _ _ => rfl
  unfold schedulerTick
  by_cases active : Active s
  · have some_ : ¬(s.schedulerRunning = false ∨ s.currentProcess = 0#32) := by
      simp [active.1, active.2]
    rw [if_neg some_]
    by_cases used : QuantumUsed s
    · have expired : ¬ (countTick s).tickCount <
          ((countTick s).pcb (countTick s).currentProcess).ticksQuantum := quantum ▸ used
      simp only [if_neg expired]
      have current : (saveContext esp (countTick s)).currentProcess = s.currentProcess := rfl
      rw [current, land, state]
      by_cases keep : landing s = s.currentProcess ∨ (s.pcb (landing s)).state = .dead
      · rw [if_pos keep]
        exact .kept active used keep
      · rw [if_neg keep]
        obtain ⟨other, alive⟩ := not_or.mp keep
        have saved : ((switchTo (landing s) (saveContext esp (countTick s))).pcb (landing s)).esp =
            (s.pcb (landing s)).esp := by
          have counted : ((countTick s).pcb (landing s)).esp = (s.pcb (landing s)).esp :=
            countTick_field Pcb.esp fun _ _ => rfl
          have other' : ¬ landing s = (countTick s).currentProcess := other
          rw [switchTo_field Pcb.esp fun _ _ => rfl, saveContext_esp, if_neg other', counted]
        rw [saved]
        exact .switched active used other alive
    · have under : (countTick s).tickCount <
          ((countTick s).pcb (countTick s).currentProcess).ticksQuantum := quantum ▸ not_not.mp used
      simp only [if_pos under]
      exact .counted active used
  · have none : s.schedulerRunning = false ∨ s.currentProcess = 0#32 := by
      by_contra both
      obtain ⟨running, some_⟩ := not_or.mp both
      exact active ⟨Bool.eq_true_of_not_eq_false running, some_⟩
    rw [if_pos none]
    exact .idle active

/-- A tick changes state, stack pointer and number of ticks of a PCB only. -/
theorem schedulerTick_field {β : Type} (field : Pcb → β)
    (same : ∀ b state esp ticks,
      field { b with state := state, esp := esp, ticksTotal := ticks } = field b) :
    field ((schedulerTick esp s).2.pcb p) = field (s.pcb p) := by
  have counted : field ((countTick s).pcb p) = field (s.pcb p) :=
    countTick_field field fun b ticks => same b b.state b.esp ticks
  have saved : field ((saveContext esp (countTick s)).pcb p) = field (s.pcb p) :=
    (saveContext_field field fun b esp => same b b.state esp b.ticksTotal).trans counted
  generalize call : schedulerTick esp s = result
  cases Ticked.of_call call with
  | idle _ => rfl
  | counted _ _ => exact counted
  | kept _ _ _ => exact saved
  | switched _ _ _ _ =>
      exact (switchTo_field field fun b state => same b state b.esp b.ticksTotal).trans saved

end Learnix
