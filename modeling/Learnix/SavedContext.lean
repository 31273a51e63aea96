import Learnix.RingIntegrity

/-!
# No context is lost

`scheduler_tick` saves the stack pointer of the process it interrupts in its PCB
and goes on with the one in the PCB of the next process. Along any run, the
stack pointer in the PCB of a process that is not current is the one it was last
interrupted with, or the one `process_create` built (`SavedInvariant`), so that
is what a tick that switches to it returns (`context_kept`).
-/

namespace Learnix

open Machine CircularList

/-- A step of a run of processes. -/
abbrev ProcEvent := Sys.Event ProcRunState ProcOp

/-- The stack pointer passed to the tick `e`, if the tick switched away from `q`. -/
def switchedAway (q : Word) (e : ProcEvent) : Option Word :=
  match e.op with
  | .tick esp =>
    if e.pre.proc.currentProcess = q ∧ e.post.proc.currentProcess ≠ q then some esp else none
  | _ => none

/-- The stack pointer that `process_create` built for `q`, if `e` created it. -/
def createdWith (q : Word) (e : ProcEvent) : Option Word :=
  match e.op with
  | .create _ _ _ _ _ =>
    if q ∉ e.pre.created ∧ q ∈ e.post.created then some (e.post.proc.pcb q).esp else none
  | _ => none

/-- The stack pointer that `q` has to go on with after the steps of `tr`: the one
that it was last switched away with or, if it never was, the one it was created
with. -/
def resumeContext (q : Word) (tr : List ProcEvent) : Option Word :=
  (Sys.latest (switchedAway q) tr).or (Sys.latest (createdWith q) tr)

variable {s t u : ProcRunState} {op : ProcOp} {q c : Word} {tr : List ProcEvent} {e : ProcEvent}

theorem resumeContext_snoc (left : switchedAway q e = none) (old : createdWith q e = none) :
    resumeContext q (tr ++ [e]) = resumeContext q tr := by
  simp only [resumeContext, Sys.latest_snoc, left, old, Option.none_or]

theorem resumeContext_snoc_switched (left : switchedAway q e = some c) :
    resumeContext q (tr ++ [e]) = some c := by
  simp only [resumeContext, Sys.latest_snoc, left, Option.some_or]

theorem resumeContext_snoc_created (never : ∀ e ∈ tr, switchedAway q e = none)
    (left : switchedAway q e = none) (new : createdWith q e = some c) :
    resumeContext q (tr ++ [e]) = some c := by
  simp only [resumeContext, Sys.latest_snoc, left, new, Sys.latest_eq_none.mpr never,
    Option.none_or, Option.some_or]

/-- A process that is not current has the stack pointer to go on with in its PCB;
only processes that exist have been switched away from. -/
structure SavedInvariant (tr : List ProcEvent) (s : ProcRunState) : Prop where
  ring : ProcInvariant s.proc s.created
  switched : ∀ q, q ∉ s.created → ∀ e ∈ tr, switchedAway q e = none
  saved : ∀ q ∈ s.created, q ≠ s.proc.currentProcess →
    resumeContext q tr = some (s.proc.pcb q).esp

/-- A step that neither switches nor creates, and leaves the saved stack pointers of
the waiting processes. -/
theorem SavedInvariant.quiet (inv : SavedInvariant tr s) (step : ProcStep s op u)
    (current : u.proc.currentProcess = s.proc.currentProcess) (created : u.created = s.created)
    (esp : ∀ q ∈ s.created, q ≠ s.proc.currentProcess →
      (u.proc.pcb q).esp = (s.proc.pcb q).esp) :
    SavedInvariant (tr ++ [⟨s, op, u⟩]) u := by
  have left : ∀ q, switchedAway q ⟨s, op, u⟩ = none := by
    intro q
    unfold switchedAway
    cases op with
    | tick esp => exact if_neg fun both => both.2 (current.trans both.1)
    | _ => rfl
  have old : ∀ q, createdWith q ⟨s, op, u⟩ = none := by
    intro q
    unfold createdWith
    cases op with
    | create _ _ _ _ _ => exact if_neg fun both => both.1 (created ▸ both.2)
    | _ => rfl
  refine ⟨inv.ring.step step, fun q absent => ?_, fun q member waiting => ?_⟩
  · exact Sys.forall_mem_snoc (inv.switched q (created ▸ absent)) (left q)
  · rw [current] at waiting
    rw [created] at member
    rw [resumeContext_snoc (left q) (old q), esp q member waiting]
    exact inv.saved q member waiting

/-- The new process has the stack pointer it was created with. -/
theorem SavedInvariant.create {proc stack entry priority : Word} {name : List Byte}
    {s' : ProcState} (inv : SavedInvariant tr s) (fresh : proc ∉ s.created) (notNull : proc ≠ 0#32)
    (joined : Joined s.proc s' proc stack entry) :
    SavedInvariant (tr ++ [⟨s, .create proc stack entry name priority, ⟨s', s.created ++ [proc]⟩⟩])
      ⟨s', s.created ++ [proc]⟩ := by
  refine ⟨inv.ring.create fresh notNull joined, fun q absent => ?_, fun q member waiting => ?_⟩
  · have new : q ∉ s.created := fun old => absent (List.mem_append_left _ old)
    exact Sys.forall_mem_snoc (inv.switched q new) rfl
  · rcases List.mem_append.mp member with old | new
    · have some_ : s.proc.currentProcess ≠ 0#32 := by
        rcases inv.ring.ring with ⟨-, none⟩ | ⟨others, -, perm⟩
        · rw [none] at old
          cases old
        · exact fun null => inv.ring.notNull (null ▸ perm.mem_iff.mp List.mem_cons_self)
      have other : q ≠ proc := fun eq => fresh (eq ▸ old)
      obtain ⟨next, pcb⟩ := joined.kept q other
      rw [(joined.ring some_).1] at waiting
      have known : createdWith q ⟨s, .create proc stack entry name priority,
          ⟨s', s.created ++ [proc]⟩⟩ = none := if_neg fun both => both.1 old
      rw [resumeContext_snoc rfl known, pcb]
      exact inv.saved q old waiting
    · rw [List.mem_singleton.mp new]
      have created : proc ∈ s.created ++ [proc] := by simp
      exact resumeContext_snoc_created (inv.switched proc fresh) rfl (if_pos ⟨fresh, created⟩)

/-- A tick that switches saves the stack pointer of the process it leaves. -/
theorem SavedInvariant.switch {esp : Word} {s' : ProcState} (inv : SavedInvariant tr s)
    (some_ : s.proc.currentProcess ≠ 0#32)
    (after : s' = switchTo (landing s.proc) (saveContext esp (countTick s.proc)))
    (ring : ProcInvariant s' s.created) :
    SavedInvariant (tr ++ [⟨s, .tick esp, ⟨s', s.created⟩⟩]) ⟨s', s.created⟩ := by
  have current : s'.currentProcess = landing s.proc := by rw [after]; rfl
  have pcb : ∀ q, (s'.pcb q).esp =
      if q = s.proc.currentProcess then esp else (s.proc.pcb q).esp := by
    intro q
    have counted : ((countTick s.proc).pcb q).esp = (s.proc.pcb q).esp :=
      countTick_field Pcb.esp fun _ _ => rfl
    rw [after, switchTo_field Pcb.esp fun _ _ => rfl, saveContext_esp, counted]
    rfl
  have left : ∀ q, q ≠ s.proc.currentProcess →
      switchedAway q ⟨s, .tick esp, ⟨s', s.created⟩⟩ = none := fun q ne =>
    if_neg fun both => ne both.1.symm
  refine ⟨ring, fun q absent => ?_, fun q member waiting => ?_⟩
  · have other : q ≠ s.proc.currentProcess := fun eq => absent (eq ▸ inv.ring.current_mem some_)
    exact Sys.forall_mem_snoc (inv.switched q absent) (left q other)
  · rw [pcb]
    by_cases here : q = s.proc.currentProcess
    · rw [if_pos here]
      apply resumeContext_snoc_switched
      exact if_pos ⟨here.symm, fun eq => waiting eq.symm⟩
    · rw [if_neg here, resumeContext_snoc (left q here) rfl]
      exact inv.saved q member here

/-- **Step lemma.** -/
theorem SavedInvariant.step (inv : SavedInvariant tr s) (step : ProcStep s op u) :
    SavedInvariant (tr ++ [⟨s, op, u⟩]) u := by
  cases op with
  | create proc stack entry name priority =>
      have whole := step
      cases step with
      | create fresh call =>
          rcases inv.ring.created_cases fresh call with ⟨rfl, unjoined⟩ | ⟨rfl, notNull, joined⟩
          · refine inv.quiet whole unjoined.currentProcess rfl fun q member _ => ?_
            rw [unjoined.kept q fun eq => fresh (eq ▸ member)]
          · simp only [if_neg notNull]
            exact inv.create fresh notNull joined
  | tick esp =>
      have whole := step
      cases step with
      | tick =>
          have ring := inv.ring.tick esp
          generalize call : schedulerTick esp s.proc = r at whole ring ⊢
          cases Ticked.of_call call with
          | idle _ => exact inv.quiet whole rfl rfl fun _ _ _ => rfl
          | counted _ _ =>
              exact inv.quiet whole rfl rfl fun _ _ _ => countTick_field Pcb.esp fun _ _ => rfl
          | kept _ _ _ =>
              refine inv.quiet whole rfl rfl fun q _ waiting => ?_
              have waiting' : ¬ q = (countTick s.proc).currentProcess := waiting
              rw [saveContext_esp, if_neg waiting', countTick_field Pcb.esp fun _ _ => rfl]
          | switched active _ _ _ => exact inv.switch active.2 rfl ring
  | _ =>
      obtain ⟨restated, created⟩ := step.restated inv.ring (by intros; exact nofun)
        (by intros; exact nofun)
      refine inv.quiet step restated.currentProcess created fun q _ _ => ?_
      obtain ⟨state, pcb⟩ := restated.pcb q
      rw [pcb]

/-- **Run lemma.** -/
theorem SavedInvariant.run {p : ProcState} (run : Sys.Run ProcStep (procInit p) tr t) :
    SavedInvariant tr t := by
  refine run.history_invariant (I := SavedInvariant) ?_ fun _ inv step => inv.step step
  exact ⟨procInvariant_init p, (fun _ _ _ member => by cases member),
    fun _ member => by cases member⟩

/-- In every run, a tick that switches to a process returns the stack pointer with
which that process was last switched away, or the one it was created with if it never
was; a tick that does not switch returns its argument. -/
theorem context_kept {p : ProcState} (run : Sys.Run ProcStep (procInit p) tr t)
    {before after : List ProcEvent} {esp : Word} (member : tr = before ++ e :: after)
    (tick : e.op = .tick esp) :
    (e.post.proc.currentProcess ≠ e.pre.proc.currentProcess →
        resumeContext e.post.proc.currentProcess before =
          some (schedulerTick esp e.pre.proc).1) ∧
      (e.post.proc.currentProcess = e.pre.proc.currentProcess →
        (schedulerTick esp e.pre.proc).1 = esp) := by
  rcases e with ⟨s, op, u⟩
  have tick : op = .tick esp := tick
  subst tick
  obtain ⟨reach, (step : ProcStep s (.tick esp) u)⟩ := run.split_at member
  have inv : SavedInvariant before s := SavedInvariant.run reach
  cases step with
  | tick =>
      generalize call : schedulerTick esp s.proc = r
      cases Ticked.of_call call with
      | idle _ => exact ⟨fun moved => absurd rfl moved, fun _ => rfl⟩
      | counted _ _ => exact ⟨fun moved => absurd rfl moved, fun _ => rfl⟩
      | kept _ _ _ => exact ⟨fun moved => absurd rfl moved, fun _ => rfl⟩
      | switched active _ other _ =>
          refine ⟨fun _ => ?_, fun same => absurd same other⟩
          exact inv.saved (landing s.proc) (inv.ring.landing_mem active.2) other

/-- Two processes, with a quantum of 5 ticks each: the tenth tick goes back to the first
one, with the stack pointer that the fifth tick was given. -/
theorem context_kept_back :
    ∃ tr t, Sys.Run ProcStep (procInit blankProc) tr t ∧
      t.proc.currentProcess = 0x204067#32 ∧
      (schedulerTick 0x22222222#32 t.proc).2.currentProcess = 0x20000D#32 ∧
      resumeContext 0x20000D#32 tr = some 0x11111111#32 := by
  obtain ⟨tr, t, run, here, next, esp⟩ := exists_run
    (P := fun t => t.proc.currentProcess = 0x204067#32 ∧
      (schedulerTick 0x22222222#32 t.proc).2.currentProcess = 0x20000D#32 ∧
      (schedulerTick 0x22222222#32 t.proc).1 = 0x11111111#32)
    (twoProcesses ++ List.replicate 4 (.tick 0#32) ++ [.tick 0x11111111#32] ++
      List.replicate 4 (.tick 0#32)) (by decide +kernel)
  refine ⟨tr, t, run, here, next, ?_⟩
  have kept := (context_kept (run.snoc ProcStep.tick) rfl rfl).1
    (by rw [here, next]; decide)
  rw [next, esp] at kept
  exact kept

end Learnix
