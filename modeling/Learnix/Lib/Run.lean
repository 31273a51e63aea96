import Mathlib.Data.List.Basic

/-!
# Runs of a labelled step relation

A system is a relation `step : σ → ι → σ → Prop`: one operation `ι` takes a
state to a state. `Run step s tr t` is a finite run, and its trace `tr` lists
the executed steps, oldest first, each with the state before and after it. A
statement about every state of a run, or about the steps that led to a state,
is a statement about the entries of the trace.
-/

namespace Sys

variable {σ ι : Type*}

/-- One executed step: the state before, the operation, the state after. -/
structure Event (σ ι : Type*) where
  pre : σ
  op : ι
  post : σ

/-- The steps of `tr`, oldest first, lead from `s` to `t`. -/
inductive Run (step : σ → ι → σ → Prop) (s : σ) : List (Event σ ι) → σ → Prop
  | nil : Run step s [] s
  | snoc {tr t op u} : Run step s tr t → step t op u → Run step s (tr ++ [⟨t, op, u⟩]) u

variable {step : σ → ι → σ → Prop} {s t u : σ} {tr : List (Event σ ι)}

/-- **Invariant rule.** What the start satisfies and every step keeps holds at
the end of every run. -/
theorem Run.invariant {I : σ → Prop} (run : Run step s tr t) (start : I s)
    (keeps : ∀ {t op u}, I t → step t op u → I u) : I t := by
  induction run with
  | nil => exact start
  | snoc _ last ih => exact keeps ih last

/-- A property of every step of a run that is one step longer. -/
theorem forall_mem_snoc {P : Event σ ι → Prop} {f : Event σ ι} (before : ∀ e ∈ tr, P e)
    (last : P f) : ∀ e ∈ tr ++ [f], P e :=
  List.forall_mem_append.mpr ⟨before, List.forall_mem_singleton.mpr last⟩

/-- **Invariant rule over the history.** The invariant may speak of the trace
that led to the state. -/
theorem Run.history_invariant {I : List (Event σ ι) → σ → Prop} (run : Run step s tr t)
    (start : I [] s)
    (keeps : ∀ {tr t op u}, Run step s tr t → I tr t → step t op u →
      I (tr ++ [⟨t, op, u⟩]) u) : I tr t := by
  induction run with
  | nil => exact start
  | snoc before last ih => exact keeps before ih last

/-- Every entry of a trace is a step taken from a state that an earlier part of
the run reached, and the rest of the run goes on from its outcome. -/
theorem Run.split {e : Event σ ι} (run : Run step s tr t) (member : e ∈ tr) :
    ∃ before after, tr = before ++ e :: after ∧ Run step s before e.pre ∧
      step e.pre e.op e.post ∧ Run step e.post after t := by
  induction run with
  | nil => cases member
  | @snoc tr t op u before last ih =>
      rcases List.mem_append.mp member with earlier | final
      · obtain ⟨left, right, shape, reach, edge, rest⟩ := ih earlier
        exact ⟨left, right ++ [⟨t, op, u⟩], by rw [shape, List.append_assoc]; rfl,
          reach, edge, .snoc rest last⟩
      · rw [List.mem_singleton] at final
        subst final
        exact ⟨tr, [], rfl, before, last, .nil⟩

/-- The part of a run before one of its steps, and that step. -/
theorem Run.split_at {e : Event σ ι} {before after : List (Event σ ι)} (run : Run step s tr t)
    (shape : tr = before ++ e :: after) : Run step s before e.pre ∧ step e.pre e.op e.post := by
  induction run generalizing after with
  | nil => cases before <;> cases shape
  | @snoc tr t op u reach last ih =>
      rcases List.eq_nil_or_concat' after with rfl | ⟨rest, f, rfl⟩
      · obtain ⟨rfl, final⟩ := List.append_inj' shape rfl
        cases final
        exact ⟨reach, last⟩
      · rw [← List.cons_append, ← List.append_assoc] at shape
        exact ih (List.append_inj' shape rfl).1

/-- Runs compose. -/
theorem Run.trans {tr' : List (Event σ ι)} (first : Run step s tr t)
    (second : Run step t tr' u) : Run step s (tr ++ tr') u := by
  induction second with
  | nil => rw [List.append_nil]; exact first
  | snoc _ last ih =>
      rw [← List.append_assoc]
      exact .snoc ih last

/-- An event of one system as an event of another. -/
def Event.map {τ κ : Type*} (f : σ → τ) (g : ι → κ) (e : Event σ ι) : Event τ κ :=
  ⟨f e.pre, g e.op, f e.post⟩

/-- **Simulation rule.** When every step from the invariant is a step of another system
between the images of the states, every run is a run of the other system. -/
theorem Run.simulate {τ κ : Type*} {step' : τ → κ → τ → Prop} {I : σ → Prop} {f : σ → τ}
    {g : ι → κ} (run : Run step s tr t) (start : I s)
    (keeps : ∀ {t op u}, I t → step t op u → I u)
    (simulates : ∀ {t op u}, I t → step t op u → step' (f t) (g op) (f u)) :
    Run step' (f s) (tr.map (Event.map f g)) (f t) := by
  induction run with
  | nil => exact .nil
  | snoc before last ih =>
      rw [List.map_append, List.map_singleton]
      exact .snoc ih (simulates (before.invariant start keeps) last)

/-! ## Runs that compute -/

/-- The trace and the end of the run of the operations `ops`, where `f` computes the
outcome of an operation. -/
def exec (f : σ → ι → Option σ) (s : σ) : List ι → Option (List (Event σ ι) × σ)
  | [] => some ([], s)
  | op :: ops =>
    (f s op).bind fun t => (exec f t ops).map fun r => (⟨s, op, t⟩ :: r.1, r.2)

/-- What an executable step computes is a run. -/
theorem Run.of_exec {f : σ → ι → Option σ} (sound : ∀ {s op t}, f s op = some t → step s op t)
    {ops : List ι} (computed : exec f s ops = some (tr, t)) : Run step s tr t := by
  induction ops generalizing s tr with
  | nil =>
      cases computed
      exact .nil
  | cons op ops ih =>
      obtain ⟨u, first, rest⟩ := Option.bind_eq_some_iff.mp computed
      obtain ⟨⟨tr', t'⟩, later, same⟩ := Option.map_eq_some_iff.mp rest
      cases same
      exact (Run.snoc .nil (sound first)).trans (ih later)

/-- A property of the run of the operations `ops` can be computed. -/
theorem Run.exists_trace_of_exec {f : σ → ι → Option σ} {P : List (Event σ ι) → σ → Prop}
    [∀ tr t, Decidable (P tr t)] (ops : List ι) (sound : ∀ {s op t}, f s op = some t → step s op t)
    (computed : ((exec f s ops).any fun r => decide (P r.1 r.2)) = true) :
    ∃ tr t, Run step s tr t ∧ P tr t := by
  cases outcome : exec f s ops with
  | none =>
      rw [outcome] at computed
      cases computed
  | some r =>
      rw [outcome] at computed
      exact ⟨r.1, r.2, .of_exec sound outcome, of_decide_eq_true computed⟩

/-- A property of the state that the operations `ops` lead to can be computed. -/
theorem Run.exists_of_exec {f : σ → ι → Option σ} {P : σ → Prop} [DecidablePred P] (ops : List ι)
    (sound : ∀ {s op t}, f s op = some t → step s op t)
    (computed : ((exec f s ops).any fun r => decide (P r.2)) = true) :
    ∃ tr t, Run step s tr t ∧ P t :=
  Run.exists_trace_of_exec (P := fun _ t => P t) ops sound computed

/-- **Invariant rule, at every step.** Along a run that starts in the invariant,
each step starts and ends in it. -/
theorem Run.invariant_of_mem {I : σ → Prop} {e : Event σ ι} (run : Run step s tr t)
    (member : e ∈ tr) (start : I s) (keeps : ∀ {t op u}, I t → step t op u → I u) :
    I e.pre ∧ step e.pre e.op e.post ∧ I e.post := by
  obtain ⟨_, _, -, reach, edge, -⟩ := run.split member
  have before : I e.pre := reach.invariant start keeps
  exact ⟨before, edge, keeps before edge⟩

/-- **Guarded invariant rule.** An invariant that survives only the steps that
meet a condition holds along every run whose steps all meet it. -/
theorem Run.invariant_of_guard {I : σ → Prop} {G : σ → ι → Prop} (run : Run step s tr t)
    (start : I s) (guarded : ∀ e ∈ tr, G e.pre e.op)
    (keeps : ∀ {t op u}, I t → G t op → step t op u → I u) :
    I t ∧ ∀ e ∈ tr, I e.pre ∧ I e.post := by
  induction run with
  | nil => exact ⟨start, fun e member => by cases member⟩
  | @snoc tr t op u _ last ih =>
      obtain ⟨reached, along⟩ :=
        ih (fun e member => guarded e (List.mem_append_left _ member))
      have final : I u := keeps reached (guarded ⟨t, op, u⟩ (by simp)) last
      exact ⟨final, forall_mem_snoc along ⟨reached, final⟩⟩

/-! ## Steps and what led to them -/

/-- Every step of the trace is, with the steps before it, as `P` says. -/
def EachStep (P : List (Event σ ι) → Event σ ι → Prop) (tr : List (Event σ ι)) : Prop :=
  ∀ before e after, tr = before ++ e :: after → P before e

theorem eachStep_nil {P : List (Event σ ι) → Event σ ι → Prop} : EachStep P [] := by
  intro before e after shape
  cases before <;> cases shape

theorem eachStep_snoc {P : List (Event σ ι) → Event σ ι → Prop} {f : Event σ ι} :
    EachStep P (tr ++ [f]) ↔ EachStep P tr ∧ P tr f := by
  constructor
  · intro each
    refine ⟨fun before e after shape => each before e (after ++ [f]) ?_, each tr f [] rfl⟩
    rw [shape, List.append_assoc, List.cons_append]
  · rintro ⟨each, last⟩ before e after shape
    rcases List.eq_nil_or_concat' after with rfl | ⟨rest, g, rfl⟩
    · rcases List.append_inj' shape rfl with ⟨rfl, same⟩
      cases same
      exact last
    · rw [← List.cons_append, ← List.append_assoc] at shape
      exact each before e rest (List.append_inj' shape rfl).1

/-! ## The latest event of a kind -/

/-- What `f` says about the latest event of the trace that it says anything about. -/
def latest {β : Type*} (f : Event σ ι → Option β) (tr : List (Event σ ι)) : Option β :=
  tr.reverse.findSome? f

@[simp] theorem latest_snoc {β : Type*} (f : Event σ ι → Option β) (e : Event σ ι) :
    latest f (tr ++ [e]) = (f e).or (latest f tr) := by
  rw [latest, latest, List.reverse_append, List.reverse_singleton, List.singleton_append,
    List.findSome?_cons]
  cases f e <;> rfl

theorem latest_eq_none {β : Type*} {f : Event σ ι → Option β} :
    latest f tr = none ↔ ∀ e ∈ tr, f e = none := by
  simp [latest, List.findSome?_eq_none_iff]

end Sys
