import Learnix.RunCommand

/-!
# A `hlt` within a system call

Vector 0x80 has an interrupt gate: IF is off in `syscall_handler`, and in a program that
its `SYS_EXEC` runs until the program sets it. The loop of `process_exit` executes `hlt`
and waits for the timer, which then never comes. A system call does not stop the machine
for good exactly if it reaches no `process_exit` of a process and each program executes
`hlt` with an `sti` of its own in force (`never_stopped_iff`).

The model enters `syscall_handler` with any four words. The stub as it stands never passes
the number of a call (`syscallCase_numberPassed`) and so hides this (`numberPassed_returns`).
-/

namespace Learnix

open Machine

/-! ## The system -/

/-- The flags of the gate of vector 0x80. -/
def int80Flags : Byte := 0xEE#8

/-- The flags say that the gate is a 32-bit interrupt gate: the CPU clears IF. -/
def isInterruptGate (flags : Byte) : Bool := flags &&& 0x0F#8 = 0x0E#8

/-- The code that the process of the call executes: `syscall_handler` with its arguments,
a program that `elf_load` has entered, the code that made the call, or the loop of
`process_exit`; or the machine is stopped. -/
inductive CallCode
  | handler (eax ebx ecx edx : Word)
  | program (entry : Word) (filename : List Byte)
  | caller
  | exitLoop
  | stopped
deriving DecidableEq, Repr

def CallCode.isProgram : CallCode → Bool
  | .program _ _ => true
  | _ => false

/-- What an `iret` of `int80_handler` returns to. -/
structure InterruptFrame where
  interrupts : Bool
  code : CallCode

/-- The processes, IF, and the code that is executed, with the frames of the system calls
that it is within, innermost first. -/
structure CallState where
  procs : ProcRunState
  interrupts : Bool
  code : CallCode
  frames : List InterruptFrame

/-- `syscall_handler` goes on, up to the entry point for `SYS_EXEC`, where `filename` is
the string at EBX and `loaded` the entry point, if `elf_load` gets there; a program sets
or clears IF, executes `hlt` or `int 0x80`, or returns to `elf_load`; and a timer
interrupt, after which other processes execute `ops` until this one is resumed. -/
inductive CallOp
  | dispatch (filename : List Byte) (loaded : Option Word)
  | setIF (on : Bool)
  | hlt
  | int80 (eax ebx ecx edx : Word)
  | ret (proc stack : Word)
  | timer (esp : Word) (ops : List ProcOp)

namespace CallState

def current (s : CallState) : Word := s.procs.proc.currentProcess

/-- `int 0x80`, up to `syscall_handler`, which gets the four words. -/
def int80 (eax ebx ecx edx : Word) (s : CallState) : CallState :=
  { s with
    interrupts := s.interrupts && !isInterruptGate int80Flags
    code := .handler eax ebx ecx edx
    frames := ⟨s.interrupts, s.code⟩ :: s.frames }

/-- `syscall_handler` returns, and `int80_handler` to the code that made the call. -/
def iret (s : CallState) : CallState :=
  match s.frames with
  | f :: frames => { s with interrupts := f.interrupts, code := f.code, frames := frames }
  | [] => s

/-- `hlt`: with IF off no interrupt ends it. -/
def hlt (s : CallState) : CallState :=
  if s.interrupts = true then s else { s with code := .stopped }

/-- `SYS_EXIT`: `process_exit`, including the first `hlt` of its loop. -/
def exit (s : CallState) : CallState :=
  if s.current = 0#32 then s.iret
  else { s with procs := ⟨processExit s.procs.proc, s.procs.created⟩, code := .exitLoop }.hlt

/-- `SYS_EXEC`: `elf_load` up to the call of the entry point. -/
def exec (ebx : Word) (filename : List Byte) (loaded : Option Word) (s : CallState) : CallState :=
  if ebx = 0#32 then s.iret
  else match loaded with
    | some entry => { s with code := .program entry filename }
    | none => s.iret

/-- The cases of `syscall_handler`. All but two execute no `hlt` and return, if they end. -/
def syscallHandler (eax ebx : Word) (filename : List Byte) (loaded : Option Word)
    (s : CallState) : CallState :=
  match syscallCase eax with
  | .exit => s.exit
  | .exec => s.exec ebx filename loaded
  | _ => s.iret

end CallState

/-- One step of the process of the call. -/
inductive CallStep (s : CallState) : CallOp → CallState → Prop
  | dispatch {eax ebx ecx edx : Word} {filename : List Byte} {loaded : Option Word} :
    s.code = .handler eax ebx ecx edx →
    CallStep s (.dispatch filename loaded) (s.syscallHandler eax ebx filename loaded)
  | setIF {on : Bool} :
    s.code.isProgram = true → CallStep s (.setIF on) { s with interrupts := on }
  | hlt : s.code.isProgram = true ∨ s.code = .exitLoop → CallStep s .hlt s.hlt
  | int80 {eax ebx ecx edx : Word} :
    s.code.isProgram = true → CallStep s (.int80 eax ebx ecx edx) (s.int80 eax ebx ecx edx)
  | ret {proc stack entry : Word} {filename : List Byte} {t : ProcRunState} :
    s.code = .program entry filename →
    ProcOp.exec s.procs (.create proc stack entry filename priorityNormal) = some t →
    CallStep s (.ret proc stack) { s with procs := t }.iret
  | timer {esp : Word} {ops : List ProcOp} {tr : List (Sys.Event ProcRunState ProcOp)}
    {t : ProcRunState} :
    s.code.isProgram = true ∨ s.code = .exitLoop → s.interrupts = true →
    Sys.exec ProcOp.exec s.procs (.tick esp :: ops) = some (tr, t) →
    (tr.tail.all fun e => e.pre.proc.currentProcess ≠ s.current) = true →
    t.proc.currentProcess = s.current → CallStep s (.timer esp ops) { s with procs := t }

abbrev CallEvent := Sys.Event CallState CallOp

/-- A system call by code that runs with IF as `interrupts`, where `syscall_handler` gets
the four words. -/
def callInit (procs : ProcRunState) (interrupts : Bool) (eax ebx ecx edx : Word) : CallState :=
  CallState.int80 eax ebx ecx edx ⟨procs, interrupts, .caller, []⟩

/-! ## What the code executes -/

/-- The number and the first argument that the step `e` goes on with in `syscall_handler`. -/
def dispatched (e : CallEvent) : Option (Word × Word) :=
  match e.pre.code, e.op with
  | .handler eax ebx _ _, .dispatch _ _ => some (eax, ebx)
  | _, _ => none

/-- The call runs a program. -/
def runsProgram (number : Word × Word) (loaded : Option Word) : Bool :=
  syscallCase number.1 = .exec && number.2 ≠ 0#32 && loaded.isSome

/-- What one step does to `enabled`. -/
def enabledAfter (on : List Bool) (e : CallEvent) : List Bool :=
  match e.op with
  | .dispatch _ loaded =>
    if (dispatched e).any (runsProgram · loaded) = true then false :: on else on
  | .setIF b => b :: on.tail
  | .ret _ _ => on.tail
  | _ => on

/-- For each program that has been entered and has not returned, innermost first: it has
set IF and not cleared it since. -/
def enabled (tr : List CallEvent) : List Bool := tr.foldl enabledAfter []

/-- The step `e` is no `SYS_EXIT` in a process, and if it is a `hlt`, the program that
executes it has set IF. -/
structure Careful (before : List CallEvent) (e : CallEvent) : Prop where
  exit : ∀ number, dispatched e = some number → syscallCase number.1 = .exit →
    e.pre.current = 0#32
  hlt : e.op = .hlt → (enabled before).head? = some true

/-- No step reaches a `hlt` with IF off. -/
def NeverStopped (tr : List CallEvent) : Prop := ∀ e ∈ tr, e.post.code ≠ .stopped

variable {procs : ProcRunState} {interrupts : Bool} {eax ebx ecx edx : Word} {s t : CallState}
  {op : CallOp} {tr : List CallEvent} {on : List Bool} {frames : List InterruptFrame}

/-! ## The invariant -/

/-- The frames of programs within system calls of each other, down to the code that made
the call, have saved IF as the programs had it. -/
inductive Nested : List Bool → List InterruptFrame → Prop
  | caller {f : InterruptFrame} : f.code = .caller → Nested [] [f]
  | program {on : List Bool} {f : InterruptFrame} {frames : List InterruptFrame} :
    f.code.isProgram = true → Nested on frames → Nested (f.interrupts :: on) (f :: frames)

/-- The call is over, in `syscall_handler` with IF off, or in a program with IF as the
program has it. -/
inductive InCall (on : List Bool) (s : CallState) : Prop
  | ended : s.code = .caller → InCall on s
  | handler {eax ebx ecx edx : Word} : s.code = .handler eax ebx ecx edx →
    s.interrupts = false → Nested on s.frames → InCall on s
  | program {rest : List Bool} : s.code.isProgram = true → on = s.interrupts :: rest →
    Nested rest s.frames → InCall on s

theorem InCall.running (inCall : InCall on s) : s.code ≠ .stopped := by
  cases inCall with
  | ended code =>
      rw [code]
      exact CallCode.noConfusion
  | handler code _ _ =>
      rw [code]
      exact CallCode.noConfusion
  | program code _ _ =>
      intro stopped
      rw [stopped] at code
      cases code

/-- A system call ends in the code that made it. -/
theorem Nested.iret (nested : Nested on s.frames) : InCall on s.iret := by
  unfold CallState.iret
  generalize s.frames = frames at nested
  cases nested with
  | caller code => exact .ended code
  | program code rest => exact .program code rfl rest

/-- The gate turns IF off. -/
theorem Nested.int80 (nested : Nested on (⟨s.interrupts, s.code⟩ :: s.frames))
    (eax ebx ecx edx : Word) : InCall on (s.int80 eax ebx ecx edx) := by
  have off : (s.int80 eax ebx ecx edx).interrupts = false := Bool.and_false s.interrupts
  exact .handler rfl off nested

theorem enabled_snoc (tr : List CallEvent) (e : CallEvent) :
    enabled (tr ++ [e]) = enabledAfter (enabled tr) e :=
  List.foldl_concat ..

/-! ## One step -/

/-- What a step from within a call comes to: the call goes on, or the machine is stopped,
and then the step was not careful. -/
def Goes (tr : List CallEvent) (e : CallEvent) : Prop :=
  InCall (enabled (tr ++ [e])) e.post ∧ Careful tr e ∨ e.post.code = .stopped ∧ ¬ Careful tr e

/-- A step that is no `hlt` and goes on with no `SYS_EXIT`. -/
theorem Goes.of_quiet {e : CallEvent} (inCall : InCall (enabledAfter (enabled tr) e) e.post)
    (noExit : ∀ number, dispatched e = some number → syscallCase number.1 ≠ .exit)
    (noHlt : e.op ≠ .hlt) : Goes tr e := by
  refine .inl ⟨?_, ⟨fun number here exit => absurd exit (noExit number here),
    fun hlt => absurd hlt noHlt⟩⟩
  rw [enabled_snoc]
  exact inCall

theorem dispatched_dispatch {filename : List Byte} {loaded : Option Word}
    (code : s.code = .handler eax ebx ecx edx) :
    dispatched ⟨s, .dispatch filename loaded, t⟩ = some (eax, ebx) := by
  unfold dispatched
  simp only [code]

theorem enabledAfter_dispatch {filename : List Byte} {loaded : Option Word}
    (code : s.code = .handler eax ebx ecx edx) :
    enabledAfter on ⟨s, .dispatch filename loaded, t⟩ =
      if runsProgram (eax, ebx) loaded = true then false :: on else on := by
  unfold enabledAfter
  simp only [dispatched_dispatch code, Option.any_some]

/-- `SYS_EXIT` stops the machine if there is a current process. -/
theorem goes_exit {filename : List Byte} {loaded : Option Word}
    (code : s.code = .handler eax ebx ecx edx) (off : s.interrupts = false)
    (nested : Nested (enabled tr) s.frames) (exit : syscallCase eax = .exit) :
    Goes tr ⟨s, .dispatch filename loaded, s.exit⟩ := by
  have here : dispatched ⟨s, .dispatch filename loaded, s.exit⟩ = some (eax, ebx) :=
    dispatched_dispatch code
  by_cases none_ : s.current = 0#32
  · have returns : s.exit = s.iret := if_pos none_
    have noProgram : runsProgram (eax, ebx) loaded = false := by
      unfold runsProgram
      rw [exit]
      rfl
    refine .inl ⟨?_, ⟨fun _ _ _ => none_, fun hlt => by cases hlt⟩⟩
    rw [enabled_snoc, enabledAfter_dispatch code, noProgram, returns]
    exact nested.iret
  · refine .inr ⟨?_, fun careful => none_ (careful.exit _ here exit)⟩
    have stopped : s.exit.code = .stopped := by
      unfold CallState.exit CallState.hlt
      simp only [if_neg none_, off]
      rfl
    exact stopped

/-- `SYS_EXEC` returns, or enters a program with IF off. -/
theorem InCall.exec {filename : List Byte} {loaded : Option Word} (off : s.interrupts = false)
    (nested : Nested on s.frames) (exec : syscallCase eax = .exec) :
    InCall (if runsProgram (eax, ebx) loaded = true then false :: on else on)
      (s.exec ebx filename loaded) := by
  unfold runsProgram CallState.exec
  rw [exec]
  by_cases none_ : ebx = 0#32
  · simp only [none_]
    exact nested.iret
  · cases loaded with
    | none => simpa [none_] using nested.iret
    | some entry =>
        rw [if_neg none_, if_pos (by simp [none_])]
        exact .program rfl (congrArg (· :: on) off.symm) nested

theorem goes_dispatch {filename : List Byte} {loaded : Option Word}
    (code : s.code = .handler eax ebx ecx edx) (off : s.interrupts = false)
    (nested : Nested (enabled tr) s.frames) :
    Goes tr ⟨s, .dispatch filename loaded, s.syscallHandler eax ebx filename loaded⟩ := by
  unfold CallState.syscallHandler
  split
  · next exit => exact goes_exit code off nested exit
  · next exec =>
    apply Goes.of_quiet
    · rw [enabledAfter_dispatch code]
      exact .exec off nested exec
    · intro number here
      rw [dispatched_dispatch code] at here
      cases here
      rw [exec]
      exact SyscallCase.noConfusion
    · exact CallOp.noConfusion
  · next noExit noExec =>
    apply Goes.of_quiet
    · rw [enabledAfter_dispatch code, runsProgram, decide_eq_false noExec]
      exact nested.iret
    · intro number here
      rw [dispatched_dispatch code] at here
      cases here
      exact noExit
    · exact CallOp.noConfusion

theorem dispatched_program (code : s.code.isProgram = true) : dispatched ⟨s, op, t⟩ = none := by
  unfold dispatched
  split
  · next handler _ =>
    rw [show s.code = _ from handler] at code
    cases code
  · rfl

/-- A `hlt` of a program stops the machine if the program has not set IF. -/
theorem goes_hlt {rest : List Bool} (code : s.code.isProgram = true)
    (flags : enabled tr = s.interrupts :: rest) (nested : Nested rest s.frames) :
    Goes tr ⟨s, .hlt, s.hlt⟩ := by
  unfold CallState.hlt
  cases interrupts : s.interrupts with
  | true =>
      refine .inl ⟨?_, ⟨fun number here => ?_, fun _ => ?_⟩⟩
      · rw [enabled_snoc]
        exact .program code flags nested
      · rw [dispatched_program code] at here
        cases here
      · rw [flags, interrupts]
        rfl
  | false =>
      refine .inr ⟨rfl, fun careful => ?_⟩
      have set := careful.hlt rfl
      rw [flags, interrupts] at set
      cases set

/-- The steps of a program other than `hlt`. -/
theorem goes_program {rest : List Bool} (code : s.code.isProgram = true)
    (flags : enabled tr = s.interrupts :: rest) (nested : Nested rest s.frames)
    (step : CallStep s op t) (noHlt : op ≠ .hlt) : Goes tr ⟨s, op, t⟩ := by
  have noExit : ∀ number, dispatched ⟨s, op, t⟩ = some number → syscallCase number.1 ≠ .exit := by
    intro number here
    rw [dispatched_program code] at here
    cases here
  apply Goes.of_quiet _ noExit noHlt
  cases step with
  | dispatch handler =>
      rw [handler] at code
      cases code
  | setIF _ =>
      refine .program code ?_ nested
      unfold enabledAfter
      rw [flags, List.tail_cons]
  | hlt _ => exact absurd rfl noHlt
  | int80 _ =>
      apply Nested.int80
      unfold enabledAfter
      rw [flags]
      exact .program (f := ⟨s.interrupts, s.code⟩) code nested
  | ret _ _ =>
      unfold enabledAfter
      rw [flags, List.tail_cons]
      exact Nested.iret nested
  | timer _ _ _ _ _ => exact .program code flags nested

/-- Nothing follows the end of the call. -/
theorem CallStep.not_caller (step : CallStep s op t) : s.code ≠ .caller := by
  intro code
  cases step <;> simp_all [CallCode.isProgram]

/-- In `syscall_handler` there is one way on. -/
theorem CallStep.of_handler (step : CallStep s op t) (code : s.code = .handler eax ebx ecx edx) :
    ∃ filename loaded, op = .dispatch filename loaded ∧
      t = s.syscallHandler eax ebx filename loaded := by
  cases step with
  | dispatch handler =>
      rw [code] at handler
      cases handler
      exact ⟨_, _, rfl, rfl⟩
  | _ => simp_all [CallCode.isProgram]

/-- **Step lemma.** -/
theorem InCall.step (inCall : InCall (enabled tr) s) (step : CallStep s op t) :
    Goes tr ⟨s, op, t⟩ := by
  cases inCall with
  | ended code => exact absurd code step.not_caller
  | handler code off nested =>
      rcases step.of_handler code with ⟨filename, loaded, rfl, rfl⟩
      exact goes_dispatch code off nested
  | program code flags nested =>
      by_cases hlt : op = .hlt
      · subst hlt
        cases step with
        | hlt _ => exact goes_hlt code flags nested
      · exact goes_program code flags nested step hlt

/-! ## Every run -/

/-- The call is entered with IF off. -/
theorem inCall_init (procs : ProcRunState) (interrupts : Bool) (eax ebx ecx edx : Word) :
    InCall (enabled []) (callInit procs interrupts eax ebx ecx edx) :=
  Nested.int80 (.caller rfl) eax ebx ecx edx

/-- **Run lemma.** -/
theorem InCall.run (run : Sys.Run CallStep (callInit procs interrupts eax ebx ecx edx) tr t) :
    InCall (enabled tr) t ∧ NeverStopped tr ∧ Sys.EachStep Careful tr ∨
      ¬ NeverStopped tr ∧ ¬ Sys.EachStep Careful tr := by
  apply run.history_invariant (I := fun tr t =>
    InCall (enabled tr) t ∧ NeverStopped tr ∧ Sys.EachStep Careful tr ∨
      ¬ NeverStopped tr ∧ ¬ Sys.EachStep Careful tr)
  · have nothing : NeverStopped [] := fun _ member => absurd member List.not_mem_nil
    exact .inl ⟨inCall_init procs interrupts eax ebx ecx edx, nothing, Sys.eachStep_nil⟩
  · intro tr s op t _ so_far step
    rw [Sys.eachStep_snoc]
    rcases so_far with ⟨inCall, never, careful⟩ | ⟨stopped, careless⟩
    · rcases inCall.step step with ⟨goesOn, now⟩ | ⟨stopped, careless⟩
      · exact .inl ⟨goesOn, Sys.forall_mem_snoc never goesOn.running, careful, now⟩
      · refine .inr ⟨fun never => ?_, fun all => careless all.2⟩
        exact never _ (List.mem_append_right _ (List.mem_singleton_self _)) stopped
    · refine .inr ⟨fun never => ?_, fun all => careless all.1⟩
      exact stopped fun e member => never e (List.mem_append_left _ member)

/-- Whatever processes there are, and whatever `syscall_handler` is called with through the
gate, its execution never reaches a `hlt` with IF off exactly if it does no `SYS_EXIT` in
a process and the programs that it runs execute `hlt` only when they have set IF. -/
theorem never_stopped_iff
    (run : Sys.Run CallStep (callInit procs interrupts eax ebx ecx edx) tr t) :
    NeverStopped tr ↔ Sys.EachStep Careful tr := by
  rcases InCall.run run with ⟨-, never, careful⟩ | ⟨stopped, careless⟩
  · exact iff_of_true never careful
  · exact iff_of_false stopped careless

/-- With a number that the stub passes as it stands the call just returns. -/
theorem numberPassed_returns
    (run : Sys.Run CallStep (callInit procs interrupts (numberPassed eax) ebx ecx edx) tr t) :
    NeverStopped tr := by
  have returns : ∀ {s op t}, (s = callInit procs interrupts (numberPassed eax) ebx ecx edx ∨
      s.code = .caller) → CallStep s op t → t.code = .caller := by
    rintro s op t (rfl | code) step
    · rcases step.of_handler rfl with ⟨filename, loaded, -, rfl⟩
      unfold CallState.syscallHandler
      rw [syscallCase_numberPassed]
      rfl
    · exact absurd code step.not_caller
  intro e member
  rcases run.invariant_of_mem (I := fun s =>
    s = callInit procs interrupts (numberPassed eax) ebx ecx edx ∨ s.code = .caller)
    member (.inl rfl) fun before step => .inr (returns before step) with ⟨before, step, -⟩
  rw [returns before step]
  exact CallCode.noConfusion

/-! ## Runs that compute -/

/-- The outcome of a step, where it is possible. -/
def CallOp.exec (s : CallState) : CallOp → Option CallState
  | .dispatch filename loaded =>
    match s.code with
    | .handler eax ebx _ _ => some (s.syscallHandler eax ebx filename loaded)
    | _ => none
  | .setIF on => if s.code.isProgram = true then some { s with interrupts := on } else none
  | .hlt => if s.code.isProgram = true ∨ s.code = .exitLoop then some s.hlt else none
  | .int80 eax ebx ecx edx =>
    if s.code.isProgram = true then some (s.int80 eax ebx ecx edx) else none
  | .ret proc stack =>
    match s.code with
    | .program entry filename =>
      (ProcOp.exec s.procs (.create proc stack entry filename priorityNormal)).map fun t =>
        { s with procs := t }.iret
    | _ => none
  | .timer esp ops =>
    if (s.code.isProgram = true ∨ s.code = .exitLoop) ∧ s.interrupts = true then
      (Sys.exec ProcOp.exec s.procs (.tick esp :: ops)).bind fun r =>
        if (r.1.tail.all fun e => e.pre.proc.currentProcess ≠ s.current) = true ∧
            r.2.proc.currentProcess = s.current then
          some { s with procs := r.2 }
        else none
    else none

theorem CallStep.of_exec (outcome : op.exec s = some t) : CallStep s op t := by
  cases op with
  | dispatch filename loaded =>
      simp only [CallOp.exec] at outcome
      split at outcome
      · next code =>
        cases outcome
        exact .dispatch code
      · cases outcome
  | setIF on =>
      rcases Option.ite_none_right_eq_some.mp outcome with ⟨code, outcome⟩
      cases outcome
      exact .setIF code
  | hlt =>
      rcases Option.ite_none_right_eq_some.mp outcome with ⟨code, outcome⟩
      cases outcome
      exact .hlt code
  | int80 eax ebx ecx edx =>
      rcases Option.ite_none_right_eq_some.mp outcome with ⟨code, outcome⟩
      cases outcome
      exact .int80 code
  | ret proc stack =>
      simp only [CallOp.exec] at outcome
      split at outcome
      · next code =>
        rcases Option.map_eq_some_iff.mp outcome with ⟨u, created, rfl⟩
        exact .ret code created
      · cases outcome
  | timer esp ops =>
      rcases Option.ite_none_right_eq_some.mp outcome with ⟨⟨code, on⟩, outcome⟩
      rcases Option.bind_eq_some_iff.mp outcome with ⟨⟨tr, u⟩, others, outcome⟩
      rcases Option.ite_none_right_eq_some.mp outcome with ⟨⟨away, same⟩, outcome⟩
      cases outcome
      exact .timer code on others away same

/-- A property of a system call by the shell, with a program of low priority next to it,
can be computed. -/
theorem exists_call {P : List CallEvent → CallState → Prop} [∀ tr t, Decidable (P tr t)]
    (eax ebx : Word) (ops : List CallOp)
    (computed : ((Sys.exec ProcOp.exec (procInit blankProc) twoProcesses).any fun r =>
      ((Sys.exec CallOp.exec (callInit r.2 true eax ebx 0#32 0#32) ops).any fun r' =>
        decide (P r'.1 r'.2))) = true) :
    ∃ tr₀ procs tr t, Sys.Run ProcStep (procInit blankProc) tr₀ procs ∧
      Sys.Run CallStep (callInit procs true eax ebx 0#32 0#32) tr t ∧ P tr t := by
  rcases exists_run (P := fun procs =>
    ((Sys.exec CallOp.exec (callInit procs true eax ebx 0#32 0#32) ops).any fun r' =>
      decide (P r'.1 r'.2)) = true) twoProcesses (by simpa using computed) with
    ⟨tr₀, procs, created, computed⟩
  rcases Sys.Run.exists_trace_of_exec (P := P) ops CallStep.of_exec computed with
    ⟨tr, t, run, holds⟩
  exact ⟨tr₀, procs, tr, t, created, run, holds⟩

/-- A program that sets IF and waits while the other process runs, then writes and returns. -/
theorem never_stopped_iff_exec :
    ∃ tr₀ procs tr t, Sys.Run ProcStep (procInit blankProc) tr₀ procs ∧
      Sys.Run CallStep (callInit procs true 7#32 0x103000#32 0#32 0#32) tr t ∧
      t.code = .caller ∧ tr.length = 11 ∧ Sys.EachStep Careful tr := by
  rcases exists_call (P := fun tr t => (tr.all fun e => e.post.code ≠ .stopped) = true ∧
      t.code = .caller ∧ tr.length = 11) 7#32 0x103000#32
    ([.dispatch [0x43#8] (some 0x104000#32), .setIF true, .hlt] ++
      List.replicate 4 (.timer 0x205000#32 []) ++
      [.timer 0x205000#32 (List.replicate 5 (.tick 0x208000#32)),
        .int80 2#32 0x104100#32 0#32 0#32, .dispatch [] none, .ret 0x209000#32 0x20A000#32])
    (by decide +kernel) with ⟨tr₀, procs, tr, t, created, run, never, ended, length⟩
  refine ⟨tr₀, procs, tr, t, created, run, ended, length, (never_stopped_iff run).mp ?_⟩
  intro e member
  exact of_decide_eq_true (List.all_eq_true.mp never e member)

/-- `SYS_EXIT` of the shell stops the machine, with the program READY. -/
theorem exit_stops :
    ∃ tr₀ procs tr t, Sys.Run ProcStep (procInit blankProc) tr₀ procs ∧
      Sys.Run CallStep (callInit procs true 1#32 0#32 0#32 0#32) tr t ∧
      t.code = .stopped ∧ t.interrupts = false ∧
      (t.procs.proc.pcb 0x204067#32).state = .ready ∧ ¬ NeverStopped tr := by
  rcases exists_call (P := fun tr t => (t.code = .stopped ∧ t.interrupts = false ∧
      (t.procs.proc.pcb 0x204067#32).state = .ready) ∧ ∃ e ∈ tr, e.post.code = .stopped) 1#32 0#32
    [.dispatch [] none] (by decide +kernel) with
    ⟨tr₀, procs, tr, t, created, run, ⟨stopped, off, ready⟩, e, member, at_⟩
  exact ⟨tr₀, procs, tr, t, created, run, stopped, off, ready, fun never => never e member at_⟩

end Learnix
