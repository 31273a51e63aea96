import Learnix.ContextSwitch
import Learnix.SchedulerStart

/-!
# Preemption is transparent

The tables of `scheduler.c` and the code of `irq0` on one machine. A program is
interrupted by the timer; its registers are on its stack, the address of this frame is
in its PCB, and other programs run. Nothing protects the frame, but as long as no other
program writes to it, the program goes on with exactly the registers that it was
interrupted with, and a new process at its entry (`preemption`).

A call of `process.c` is one step, and so is `scheduler_start`. The code makes these
calls with interrupts on, and a tick inside of one is left out here: one that ends the
quantum while `process_create` links the ring finds a ring that is not closed. Timer
interrupts inside of `scheduler_start` are the subject of `clean_start_iff`.
-/

namespace Learnix

open Machine Memory X86

/-! ## The machine -/

/-- The processes, and the program that the CPU runs, with all of the memory. -/
structure MachineState where
  procs : ProcRunState
  running : Context

/-- What can happen: the program that runs comes to another context, calls a function of
`process.c` that comes to its end, or is interrupted by the timer outside of these calls; or
`kernel_main` starts the scheduler. -/
inductive MachineOp
  | work
  | call (op : ProcOp)
  | start
  | timer

abbrev MachineEvent := Sys.Event MachineState MachineOp

/-- The processes, with the stacks in the memory `m`. -/
def ProcRunState.inMemory (s : ProcRunState) (m : Memory) : ProcRunState :=
  ⟨{ s.proc with mem := m }, s.created⟩

/-- The process `p` does not run, so that its frame is on its stack. Before the scheduler is
started no process runs. -/
def Suspended (s : ProcRunState) (p : Word) : Prop :=
  p ∈ s.created ∧ (s.proc.schedulerRunning = true → p ≠ s.proc.currentProcess)

/-- The frames of the suspended processes are in `m'` what they are in `m`. -/
def FramesKept (s : ProcRunState) (m m' : Memory) : Prop :=
  ∀ p ∈ s.created, (s.proc.schedulerRunning = true → p ≠ s.proc.currentProcess) →
    words m' (s.proc.pcb p).esp 15 = words m (s.proc.pcb p).esp 15

instance (s : ProcRunState) (m m' : Memory) : Decidable (FramesKept s m m') :=
  List.decidableBAll _ s.created

/-- The stack that `kmalloc` returns for a new process overlaps no frame. -/
def StackApart (s : ProcRunState) : ProcOp → Prop
  | .create _ stack _ _ _ => ∀ p, Suspended s p → Sep (s.proc.pcb p).esp 60 stack stackSize
  | _ => True

/-- The stack pointer that `scheduler_tick` is given, entered in `e`. -/
def tickArg (e : Cpu) : Word := (e.args 1).headD 0#32

/-- The timer interrupts the program that runs: `timer_handler`, entered in `e₀`, and
`scheduler_tick`, entered in `e`, return in `r₀` and `r`. The former follows the calling
convention; the latter has the result that its source says, and does not write to the frame
that it is given. -/
structure TimerRun (callee : Callee → Cpu → Option Cpu) (back back' : Word) (s : MachineState)
    (e₀ r₀ e r : Cpu) : Prop where
  timer : TimerConvention callee
  calls : (run callee (irq0 back back') s.running.interrupted).1 =
    [(.timerHandler, e₀), (.schedulerTick, e)]
  handled : callee .timerHandler e₀ = some r₀
  ticked : callee .schedulerTick e = some r
  kept : words r.mem (tickArg e) 15 = words e.mem (tickArg e) 15
  result : r.reg .eax = (schedulerTick (tickArg e) s.procs.proc).1
  frames : FramesKept s.procs s.running.cpu.mem r.mem

/-- `scheduler_start` comes to its inline assembly in the state `u`, with the stack pointer of
the current process in the register `r`. -/
structure StartRun (s : MachineState) (r : Reg) (u : Cpu) : Prop where
  off : s.procs.proc.schedulerRunning = false
  loads : (schedulerStart s.procs.proc).1 = some (u.reg r)
  frames : FramesKept s.procs s.running.cpu.mem u.mem

/-- The processes after a tick in which `scheduler_tick` is entered in `e`. -/
def MachineState.ticked (s : MachineState) (e : Cpu) : ProcRunState :=
  ⟨(schedulerTick (tickArg e) s.procs.proc).2, s.procs.created⟩

/-- One step. No program writes to the frame of a suspended process, and no call is
interrupted. -/
inductive MachineStep : MachineState → MachineOp → MachineState → Prop
  | work {s : MachineState} {c : Context} :
    FramesKept s.procs s.running.cpu.mem c.cpu.mem →
    MachineStep s .work ⟨s.procs, c⟩
  | call {s : MachineState} {op : ProcOp} {t : ProcRunState} {c : Context} :
    op.isCall = true → StackApart s.procs op →
    ProcStep (s.procs.inMemory s.running.cpu.mem) op t →
    FramesKept t t.proc.mem c.cpu.mem →
    MachineStep s (.call op) ⟨t, c⟩
  | start {s : MachineState} {callee : Callee → Cpu → Option Cpu} {r : Reg} {u : Cpu}
    {c : Context} :
    StartRun s r u → resumed callee (schedulerStartAsm r) u = some c →
    MachineStep s .start ⟨⟨(schedulerStart s.procs.proc).2, s.procs.created⟩, c⟩
  | timer {s : MachineState} {callee : Callee → Cpu → Option Cpu} {back back' : Word}
    {e₀ r₀ e r : Cpu} {c : Context} :
    TimerRun callee back back' s e₀ r₀ e r →
    resumed callee (irq0 back back') s.running.interrupted = some c →
    MachineStep s .timer ⟨s.ticked e, c⟩

/-- `kernel_main` runs, and there are no processes. -/
def machineInit (p : ProcState) (c : Context) : MachineState := ⟨procInit p, c⟩

/-- The program whose frame the step leaves on the stack of `p`: the new process, or the
program that a tick takes the CPU from. -/
def frameLeft (p : Word) (e : MachineEvent) : Option Context :=
  match e.op with
  | .call (.create _ stack entry _ _) =>
    if p ∉ e.pre.procs.created ∧ p ∈ e.post.procs.created then
      some (initialContext entry stack e.pre.running.cpu.mem)
    else none
  | .timer =>
    if e.pre.procs.proc.currentProcess = p ∧ e.post.procs.proc.currentProcess ≠ p then
      some e.pre.running
    else none
  | _ => none

/-- The program that `p` has to go on with after the steps of `tr`: the one that it was
when it last lost the CPU or, if it never had it, the one that it was created as. -/
def goesOnAs (p : Word) (tr : List MachineEvent) : Option Context := Sys.latest (frameLeft p) tr

/-- The program that has to run after the tick in which `scheduler_tick` is entered in `e`: the
one that was interrupted, or that of the process which the tick has chosen. -/
def nextProgram (tr : List MachineEvent) (s : MachineState) (e : Cpu) : Option Context :=
  if (s.ticked e).proc.currentProcess = s.procs.proc.currentProcess then some s.running
  else goesOnAs (s.ticked e).proc.currentProcess tr

/-- The frame of `c` is on the stack of `p`, and its address in the PCB. -/
def HasFrame (s : MachineState) (p : Word) (c : Context) : Prop :=
  (s.procs.proc.pcb p).esp = frameEsp c ∧
    ∃ w, words s.running.cpu.mem (frameEsp c) 15 = savedFrame c w

variable {p₀ : ProcState} {c₀ c : Context} {s t : MachineState} {tr : List MachineEvent}
  {op : MachineOp} {p : Word} {callee : Callee → Cpu → Option Cpu} {back back' : Word}
  {e₀ r₀ e r : Cpu}

/-! ## The memory of `process.c` -/

section Stores

variable {x x' : ProcState} {u v : ProcRunState} {call : ProcOp} {m : Memory}

theorem linkProcess_mem {proc : Word} (link : linkProcess proc x = some x') : x'.mem = x.mem := by
  unfold linkProcess at link
  split at link
  · cases link
    rfl
  · obtain ⟨last, -, rfl⟩ := Option.map_eq_some_iff.mp link
    rfl

/-- `process_create` stores to nothing but the new stack. -/
theorem processCreate_mem {proc stack entry priority result : Word} {name : List Byte}
    {h : List Word}
    (made : processCreate answering entry name priority x [proc, stack] = some (result, x', h)) :
    result = 0#32 ∧ x'.mem = x.mem ∨
      result ≠ 0#32 ∧ x'.mem = (initialStack entry stack x.mem).2 := by
  by_cases noBlock : proc = 0#32
  · simp [processCreate, answering, noBlock] at made
    exact .inl ⟨made.1.symm, congrArg ProcState.mem made.2.1.symm⟩
  by_cases noStack : stack = 0#32
  · simp [processCreate, answering, noBlock, noStack] at made
    refine .inl ⟨made.1.symm, ?_⟩
    rw [← made.2.1]
    rfl
  simp only [processCreate, answering, List.headD_cons, List.tail_cons, noBlock, noStack,
    if_false] at made
  obtain ⟨y, link, same⟩ := Option.map_eq_some_iff.mp made
  cases same
  exact .inr ⟨noBlock, linkProcess_mem link⟩

theorem blockOthersLoop_mem {fuel : Nat} (loop : blockOthersLoop fuel p x = some x') :
    x'.mem = x.mem := by
  induction fuel generalizing p x with
  | zero => cases loop
  | succ fuel ih =>
      unfold blockOthersLoop at loop
      split at loop
      · rw [ih loop]
        split <;> rfl
      · cases loop
        rfl

/-- A call leaves the frames alone if the stack that it may get lies apart from them. -/
theorem ProcStep.framesKept (step : ProcStep (u.inMemory m) call v) (isCall : call.isCall = true)
    (apart : StackApart u call) : FramesKept u m v.proc.mem := by
  have same (eq : v.proc.mem = m) : FramesKept u m v.proc.mem := fun _ _ _ => by rw [eq]
  cases step with
  | create fresh made =>
      rename_i proc stack entry priority result name x' h
      rcases processCreate_mem made with ⟨-, eq⟩ | ⟨-, eq⟩
      · exact same eq
      · rw [eq]
        intro q member suspended
        apply words_congr (by decide)
        intro a inside
        obtain ⟨-, -, outside⟩ := initialStack_frame entry stack m m
        exact outside a (apart q ⟨member, suspended⟩ a inside)
  | exit =>
      apply same
      unfold processExit
      split <;> rfl
  | block _ =>
      apply same
      unfold processBlock
      split <;> rfl
  | unblock _ =>
      apply same
      unfold processUnblock
      split <;> rfl
  | blockOthers made =>
      apply same
      unfold processBlockOthers at made
      split at made
      · cases made
        rfl
      · exact blockOthersLoop_mem made
  | start => cases isCall
  | tick => cases isCall

end Stores

/-! ## The frames on the stacks -/

/-- Every suspended process has the frame of the program that it has to go on with. -/
structure FramesInvariant (tr : List MachineEvent) (s : MachineState) : Prop where
  ring : ProcInvariant s.procs.proc s.procs.created
  saved : ∀ p, Suspended s.procs p → ∃ c, goesOnAs p tr = some c ∧ HasFrame s p c

/-- A frame that a step leaves alone is still that of the program to go on with. -/
theorem FramesInvariant.kept (inv : FramesInvariant tr s) (suspended : Suspended s.procs p)
    (silent : frameLeft p ⟨s, op, t⟩ = none)
    (esp : (t.procs.proc.pcb p).esp = (s.procs.proc.pcb p).esp)
    (frame : words t.running.cpu.mem (s.procs.proc.pcb p).esp 15 =
      words s.running.cpu.mem (s.procs.proc.pcb p).esp 15) :
    ∃ c, goesOnAs p (tr ++ [⟨s, op, t⟩]) = some c ∧ HasFrame t p c := by
  obtain ⟨c, last, at_, w, saved⟩ := inv.saved p suspended
  refine ⟨c, ?_, esp.trans at_, w, ?_⟩
  · rw [goesOnAs, Sys.latest_snoc, silent, Option.none_or]
    exact last
  · rw [at_] at frame
    exact frame.trans saved

theorem goesOnAs_snoc (left : frameLeft p ⟨s, op, t⟩ = some c) :
    goesOnAs p (tr ++ [⟨s, op, t⟩]) = some c := by
  rw [goesOnAs, Sys.latest_snoc, left, Option.some_or]

/-- A suspended process is gone on with exactly where it has to. -/
theorem FramesInvariant.resumed (inv : FramesInvariant tr s) (suspended : Suspended s.procs p)
    (callee : Callee → Cpu → Option Cpu) (code : List (Code Callee))
    (same : ∀ v, viewRun code v = viewRun irq0Restore v) (short : code.length = 5) {u : Cpu}
    (esp : u.reg .esp = (s.procs.proc.pcb p).esp)
    (frames : FramesKept s.procs s.running.cpu.mem u.mem) :
    ∃ d c, Learnix.resumed callee code u = some d ∧ goesOnAs p tr = some c ∧ Resumes d c := by
  obtain ⟨c, last, at_, w, saved⟩ := inv.saved p suspended
  have frame : words u.mem (frameEsp c) 15 = savedFrame c w := by
    rw [← saved, ← at_]
    exact frames p suspended.1 suspended.2
  have goesOn : ∃ d, Learnix.resumed callee code u = some d ∧ Resumes d c :=
    resumed_frame same short (esp.trans at_) frame
  rcases goesOn with ⟨d, goesOn, resumes_⟩
  exact ⟨d, c, goesOn, last, resumes_⟩

/-- The end of `irq0` stores nothing. -/
theorem resumed_mem {u : Cpu} (goesOn : resumed callee irq0Restore u = some c) :
    c.cpu.mem = u.mem := by
  cases goesOn
  rfl

/-! ## Calls -/

/-- A process that is there before a call keeps its frame. -/
theorem FramesInvariant.call_old {op : ProcOp} {v : ProcRunState} (inv : FramesInvariant tr s)
    (isCall : op.isCall = true) (apart : StackApart s.procs op)
    (step : ProcStep (s.procs.inMemory s.running.cpu.mem) op v)
    (frames : FramesKept v v.proc.mem c.cpu.mem) (suspended : Suspended v p)
    (old : p ∈ s.procs.created) :
    ∃ d, goesOnAs p (tr ++ [⟨s, .call op, ⟨v, c⟩⟩]) = some d ∧ HasFrame ⟨v, c⟩ p d := by
  have ring : ProcInvariant (s.procs.inMemory s.running.cpu.mem).proc s.procs.created :=
    { inv.ring with }
  have called := step.called ring isCall
  obtain ⟨running, -⟩ := step.clock ring isCall
  have some_ : s.procs.proc.currentProcess ≠ 0#32 := by
    intro null
    rcases inv.ring.ring with ⟨-, none⟩ | ⟨others, -, perm⟩
    · rw [none] at old
      cases old
    · exact inv.ring.notNull (null ▸ perm.mem_iff.mp List.mem_cons_self)
  have before : Suspended s.procs p := by
    refine ⟨old, fun on => ?_⟩
    have other := suspended.2 (running.trans on)
    rw [called.current some_] at other
    exact other
  have unmade : createdWith p ⟨s.procs.inMemory s.running.cpu.mem, op, v⟩ = none := by
    unfold createdWith
    cases op with
    | create _ _ _ _ _ => exact if_neg fun both => both.1 old
    | _ => rfl
  have silent : frameLeft p ⟨s, .call op, ⟨v, c⟩⟩ = none := by
    unfold frameLeft
    cases op with
    | create _ _ _ _ _ => exact if_neg fun both => both.1 old
    | _ => rfl
  have esp : (v.proc.pcb p).esp = (s.procs.proc.pcb p).esp := by
    have known := called.esp p suspended.1 (some (s.procs.proc.pcb p).esp) fun _ => rfl
    rw [unmade, Option.none_or] at known
    exact (Option.some.inj known).symm
  apply inv.kept before silent esp
  have kept := frames p suspended.1 suspended.2
  rw [esp] at kept
  exact kept.trans (step.framesKept isCall apart p old before.2)

/-- A new process has the frame of a program at its entry. -/
theorem FramesInvariant.call_new {op : ProcOp} {v : ProcRunState} (inv : FramesInvariant tr s)
    (isCall : op.isCall = true) (step : ProcStep (s.procs.inMemory s.running.cpu.mem) op v)
    (frames : FramesKept v v.proc.mem c.cpu.mem) (suspended : Suspended v p)
    (new : p ∉ s.procs.created) :
    ∃ d, goesOnAs p (tr ++ [⟨s, .call op, ⟨v, c⟩⟩]) = some d ∧ HasFrame ⟨v, c⟩ p d := by
  have ring : ProcInvariant (s.procs.inMemory s.running.cpu.mem).proc s.procs.created :=
    { inv.ring with }
  have frame := frames p suspended.1 suspended.2
  have member := suspended.1
  cases step with
  | create fresh made =>
      rename_i proc stack entry priority result name x' h
      have left : frameLeft p ⟨s, .call (.create proc stack entry name priority),
          ⟨⟨x', if result = 0#32 then s.procs.created else s.procs.created ++ [result]⟩, c⟩⟩ =
          some (initialContext entry stack s.running.cpu.mem) := if_pos ⟨new, member⟩
      refine ⟨_, goesOnAs_snoc left, ?_⟩
      by_cases failed : result = 0#32
      · rw [if_pos failed] at member
        exact absurd member new
      · rw [if_neg failed] at member
        have here : p = result := by
          rcases List.mem_append.mp member with old | last
          · exact absurd old new
          · exact List.mem_singleton.mp last
        rcases ring.created_cases fresh made with ⟨null, -⟩ | ⟨same, -, joined⟩
        · exact absurd null failed
        · rcases processCreate_mem made with ⟨null, -⟩ | ⟨-, stores⟩
          · exact absurd null failed
          rcases initialStack_frame entry stack s.running.cpu.mem s.running.cpu.mem with
            ⟨top, initial, -⟩
          have esp : (x'.pcb p).esp = (initialStack entry stack s.running.cpu.mem).1 := by
            rw [here, same]
            exact joined.esp
          refine ⟨esp.trans top, 0#32, ?_⟩
          rw [← top, ← initial, ← esp]
          exact frame.trans (congrArg (fun m => words m (x'.pcb p).esp 15) stores)
  | start => cases isCall
  | tick => cases isCall
  | _ => exact absurd member new

theorem FramesInvariant.call {op : ProcOp} {v : ProcRunState} (inv : FramesInvariant tr s)
    (isCall : op.isCall = true) (apart : StackApart s.procs op)
    (step : ProcStep (s.procs.inMemory s.running.cpu.mem) op v)
    (frames : FramesKept v v.proc.mem c.cpu.mem) :
    FramesInvariant (tr ++ [⟨s, .call op, ⟨v, c⟩⟩]) ⟨v, c⟩ := by
  have ring : ProcInvariant (s.procs.inMemory s.running.cpu.mem).proc s.procs.created :=
    { inv.ring with }
  refine ⟨ring.step step, fun p suspended => ?_⟩
  by_cases old : p ∈ s.procs.created
  · exact inv.call_old isCall apart step frames suspended old
  · exact inv.call_new isCall step frames suspended old

/-! ## The start -/

variable {q : Reg} {u : Cpu}

/-- `scheduler_start` has a process to load, and lets it run. -/
theorem StartRun.loaded (start : StartRun s q u) : s.procs.proc.currentProcess ≠ 0#32 ∧
    u.reg q = (s.procs.proc.pcb s.procs.proc.currentProcess).esp ∧
    (schedulerStart s.procs.proc).2 = startCurrent s.procs.proc := by
  have loads := start.loads
  unfold schedulerStart at loads ⊢
  split at loads
  · cases loads
  · next some_ =>
    refine ⟨some_, ?_, if_neg some_ ▸ rfl⟩
    rw [← Option.some.inj loads]
    exact startCurrent_field Pcb.esp fun _ _ => rfl

theorem FramesInvariant.start (inv : FramesInvariant tr s) (start : StartRun s q u)
    (goesOn : Learnix.resumed callee (schedulerStartAsm q) u = some c) :
    FramesInvariant
      (tr ++ [⟨s, .start, ⟨⟨(schedulerStart s.procs.proc).2, s.procs.created⟩, c⟩⟩])
      ⟨⟨(schedulerStart s.procs.proc).2, s.procs.created⟩, c⟩ := by
  have mem : c.cpu.mem = u.mem := by
    cases goesOn
    rfl
  refine ⟨inv.ring.start, fun p suspended => ?_⟩
  have before : Suspended s.procs p := by
    refine ⟨suspended.1, fun on => ?_⟩
    rw [start.off] at on
    cases on
  apply inv.kept before rfl
  · rw [start.loaded.2.2]
    exact startCurrent_field Pcb.esp fun _ _ => rfl
  · rw [mem]
    exact start.frames p before.1 before.2

/-! ## Timer interrupts -/

/-- What the CPU and `irq0` leave when `scheduler_tick` returns: the frame of the program that
was interrupted is on the stack, at the address that `scheduler_tick` was given, and `irq0`
goes on with the address that it returned. -/
structure TimerReturned (callee : Callee → Cpu → Option Cpu) (back back' : Word)
    (s : MachineState) (e r : Cpu) : Prop where
  arg : tickArg e = frameEsp s.running
  frame : words r.mem (frameEsp s.running) 15 =
    savedFrame s.running (s.running.cpu.reg .esp - 12#32)
  goesOn : resumed callee (irq0 back back') s.running.interrupted =
    resumed callee irq0Restore (r.setReg .esp (r.reg .eax))

theorem TimerRun.returned (timer : TimerRun callee back back' s e₀ r₀ e r) :
    TimerReturned callee back back' s e r := by
  obtain ⟨e₁, first, returns⟩ := irq0_run timer.timer s.running back back'
  rw [timer.calls] at first
  cases first
  obtain ⟨e₂, entered, calls, goesOn⟩ := returns r₀ timer.handled
  rw [timer.calls] at calls
  cases calls
  have arg : tickArg e = frameEsp s.running := by
    rw [tickArg, entered.args]
    rfl
  refine ⟨arg, ?_, goesOn r timer.ticked⟩
  rw [← entered.frame, ← arg]
  exact timer.kept

/-- After a tick the right program runs. -/
theorem FramesInvariant.resumed_timer (inv : FramesInvariant tr s)
    (timer : TimerRun callee back back' s e₀ r₀ e r) :
    ∃ d c, Learnix.resumed callee (irq0 back back') s.running.interrupted = some d ∧
      nextProgram tr s e = some c ∧ Resumes d c := by
  have returned := timer.returned
  rw [returned.goesOn]
  have eax : (r.setReg .esp (r.reg .eax)).reg .esp = (schedulerTick (tickArg e) s.procs.proc).1 :=
    setReg_self.trans timer.result
  unfold nextProgram MachineState.ticked
  dsimp only
  generalize call : schedulerTick (tickArg e) s.procs.proc = x at eax ⊢
  -- a tick that keeps the process returns its argument, which is the address of the frame
  have same (result : x.1 = tickArg e)
      (here : x.2.currentProcess = s.procs.proc.currentProcess) :
      ∃ d c, Learnix.resumed callee irq0Restore (r.setReg .esp (r.reg .eax)) = some d ∧
        (if x.2.currentProcess = s.procs.proc.currentProcess then some s.running
          else goesOnAs x.2.currentProcess tr) = some c ∧ Resumes d c := by
    rw [result, returned.arg] at eax
    have goesOn : ∃ d, Learnix.resumed callee irq0Restore (r.setReg .esp (r.reg .eax)) = some d ∧
        Resumes d s.running := resumed_frame (fun _ => rfl) rfl eax returned.frame
    rcases goesOn with ⟨d, goesOn, resumes_⟩
    exact ⟨d, s.running, goesOn, if_pos here, resumes_⟩
  cases Ticked.of_call call with
  | idle _ => exact same rfl rfl
  | counted _ _ => exact same rfl rfl
  | kept _ _ _ => exact same rfl rfl
  | switched active _ other _ =>
      have suspended : Suspended s.procs (landing s.procs.proc) :=
        ⟨inv.ring.landing_mem active.2, fun _ => other⟩
      rcases inv.resumed suspended callee irq0Restore (fun _ => rfl) rfl eax timer.frames with
        ⟨d, c, goesOn, last, resumes_⟩
      exact ⟨d, c, goesOn, (if_neg other).trans last, resumes_⟩

/-- The frame of a process that does not run after the tick. -/
theorem FramesInvariant.timer_saved (inv : FramesInvariant tr s)
    (timer : TimerRun callee back back' s e₀ r₀ e r) (mem : c.cpu.mem = r.mem)
    (suspended : Suspended (s.ticked e) p) :
    ∃ d, goesOnAs p (tr ++ [⟨s, .timer, ⟨s.ticked e, c⟩⟩]) = some d ∧
      HasFrame ⟨s.ticked e, c⟩ p d := by
  have member : p ∈ s.procs.created := suspended.1
  have returned := timer.returned
  -- a process that did not run before keeps its frame
  have quiet (before : Suspended s.procs p)
      (stays : s.procs.proc.currentProcess = p → (s.ticked e).proc.currentProcess = p)
      (esp : ((s.ticked e).proc.pcb p).esp = (s.procs.proc.pcb p).esp) :
      ∃ d, goesOnAs p (tr ++ [⟨s, .timer, ⟨s.ticked e, c⟩⟩]) = some d ∧
        HasFrame ⟨s.ticked e, c⟩ p d := by
    have silent : frameLeft p ⟨s, .timer, ⟨s.ticked e, c⟩⟩ = none :=
      if_neg fun both => both.2 (stays both.1)
    apply inv.kept before silent esp
    change words c.cpu.mem _ 15 = _
    rw [mem]
    exact timer.frames p member before.2
  unfold MachineState.ticked at suspended quiet ⊢
  generalize call : schedulerTick (tickArg e) s.procs.proc = x at suspended quiet ⊢
  cases Ticked.of_call call with
  | idle _ => exact quiet ⟨member, suspended.2⟩ id rfl
  | counted _ _ =>
      exact quiet ⟨member, suspended.2⟩ id (countTick_field Pcb.esp fun _ _ => rfl)
  | kept active _ _ =>
      have other : p ≠ s.procs.proc.currentProcess := suspended.2 active.1
      have other' : ¬ p = (countTick s.procs.proc).currentProcess := other
      refine quiet ⟨member, suspended.2⟩ id ?_
      rw [saveContext_esp, if_neg other']
      exact countTick_field Pcb.esp fun _ _ => rfl
  | switched active _ _ _ =>
      have away : p ≠ landing s.procs.proc := suspended.2 active.1
      have esp : ((switchTo (landing s.procs.proc) (saveContext (tickArg e)
          (countTick s.procs.proc))).pcb p).esp =
          if p = s.procs.proc.currentProcess then tickArg e else (s.procs.proc.pcb p).esp := by
        have counted : ((countTick s.procs.proc).pcb p).esp = (s.procs.proc.pcb p).esp :=
          countTick_field Pcb.esp fun _ _ => rfl
        rw [switchTo_field Pcb.esp fun _ _ => rfl, saveContext_esp, counted]
        rfl
      by_cases here : p = s.procs.proc.currentProcess
      · rw [if_pos here] at esp
        refine ⟨s.running, goesOnAs_snoc (if_pos ⟨here.symm, fun eq => away eq.symm⟩),
          esp.trans returned.arg, s.running.cpu.reg .esp - 12#32, ?_⟩
        change words c.cpu.mem _ 15 = _
        rw [mem]
        exact returned.frame
      · rw [if_neg here] at esp
        exact quiet ⟨member, fun _ => here⟩ (fun eq => absurd eq.symm here) esp

theorem FramesInvariant.timer (inv : FramesInvariant tr s)
    (timer : TimerRun callee back back' s e₀ r₀ e r)
    (goesOn : Learnix.resumed callee (irq0 back back') s.running.interrupted = some c) :
    FramesInvariant (tr ++ [⟨s, .timer, ⟨s.ticked e, c⟩⟩]) ⟨s.ticked e, c⟩ := by
  rw [timer.returned.goesOn] at goesOn
  have mem : c.cpu.mem = (r.setReg .esp (r.reg .eax)).mem := resumed_mem goesOn
  exact ⟨inv.ring.tick _, fun p suspended => inv.timer_saved timer mem suspended⟩

/-! ## Runs -/

/-- **Step lemma.** -/
theorem FramesInvariant.step (inv : FramesInvariant tr s) (step : MachineStep s op t) :
    FramesInvariant (tr ++ [⟨s, op, t⟩]) t := by
  cases step with
  | work frames =>
      refine ⟨inv.ring, fun p suspended => ?_⟩
      exact inv.kept suspended rfl rfl (frames p suspended.1 suspended.2)
  | call isCall apart step frames => exact inv.call isCall apart step frames
  | start start goesOn => exact inv.start start goesOn
  | timer timer goesOn => exact inv.timer timer goesOn

/-- **Run lemma.** -/
theorem FramesInvariant.run (run : Sys.Run MachineStep (machineInit p₀ c₀) tr t) :
    FramesInvariant tr t := by
  apply run.history_invariant (I := FramesInvariant)
  · exact ⟨procInvariant_init p₀, fun _ suspended => by cases suspended.1⟩
  · exact fun _ inv step => inv.step step

/-- Functions that return at once, `scheduler_tick` with the result that its source says. -/
def plainCallee (x : ProcState) : Callee → Cpu → Option Cpu
  | .schedulerTick, e => some ((e.setReg .eax (schedulerTick (tickArg e) x).1).discard 1)
  | _, e => some (e.discard 1)

theorem plainCallee_timer (x : ProcState) : TimerConvention (plainCallee x) := by
  intro e r returned
  cases returned
  refine ⟨setReg_self, fun q saved => setReg_of_ne ?_, rfl, rfl⟩
  rintro rfl
  exact absurd saved (by simp [CalleeSaved])

/-- The new stack lies below or above the frames. -/
def stackBeside (s : ProcRunState) : ProcOp → Bool
  | .create _ stack _ _ _ => s.created.all fun p => (s.proc.pcb p).esp.toNat + 60 ≤ 2 ^ 32 &&
      stack.toNat + stackSize ≤ 2 ^ 32 &&
      ((s.proc.pcb p).esp.toNat + 60 ≤ stack.toNat ||
        stack.toNat + stackSize ≤ (s.proc.pcb p).esp.toNat)
  | _ => true

/-- One way in which each step can go: a program that works sets EAX to 7 and goes on with the
next instruction, and functions return at once. -/
def MachineOp.sample (s : MachineState) : MachineOp → Option MachineState
  | .work => some ⟨s.procs, { s.running with
      cpu := s.running.cpu.setReg .eax 7#32
      eip := s.running.eip + 5#32 }⟩
  | .call op =>
    if op.isCall = true ∧ stackBeside s.procs op = true then
      (op.exec (s.procs.inMemory s.running.cpu.mem)).map fun t =>
        ⟨t, { s.running with cpu := { s.running.cpu with mem := t.proc.mem } }⟩
    else none
  | .start =>
    match (schedulerStart s.procs.proc).1 with
    | none => none
    | some esp =>
      if s.procs.proc.schedulerRunning = false then
        (resumed (plainCallee s.procs.proc) (schedulerStartAsm .eax)
          (s.running.cpu.setReg .eax esp)).map fun c =>
            ⟨⟨(schedulerStart s.procs.proc).2, s.procs.created⟩, c⟩
      else none
  | .timer =>
    match run (plainCallee s.procs.proc) (irq0 0#32 0#32) s.running.interrupted with
    | ([(.timerHandler, _), (.schedulerTick, e)], some u) =>
      if FramesKept s.procs s.running.cpu.mem e.mem then some ⟨s.ticked e, iret u⟩ else none
    | _ => none

theorem stackBeside_apart {x : ProcRunState} {call : ProcOp} (beside : stackBeside x call = true) :
    StackApart x call := by
  unfold stackBeside at beside
  unfold StackApart
  cases call with
  | create proc stack entry name priority =>
      intro q suspended
      have checked := List.all_eq_true.mp beside q suspended.1
      simp only [Bool.and_eq_true, Bool.or_eq_true, decide_eq_true_eq] at checked
      exact sep_of_le checked.1.1 checked.1.2 checked.2
  | _ => trivial

theorem MachineStep.of_sample (outcome : op.sample s = some t) : MachineStep s op t := by
  cases op with
  | work =>
      cases outcome
      exact .work fun _ _ _ => rfl
  | call op =>
      obtain ⟨⟨isCall, beside⟩, outcome⟩ := Option.ite_none_right_eq_some.mp outcome
      obtain ⟨v, made, rfl⟩ := Option.map_eq_some_iff.mp outcome
      exact .call isCall (stackBeside_apart beside) (.of_exec made) fun _ _ _ => rfl
  | start =>
      rw [MachineOp.sample] at outcome
      split at outcome
      · cases outcome
      · next esp loads =>
        obtain ⟨off, outcome⟩ := Option.ite_none_right_eq_some.mp outcome
        obtain ⟨c, goesOn, rfl⟩ := Option.map_eq_some_iff.mp outcome
        exact .start ⟨off, loads.trans (congrArg some setReg_self.symm), fun _ _ _ => rfl⟩ goesOn
  | timer =>
      rw [MachineOp.sample] at outcome
      split at outcome
      · next e₀ e u ran =>
        obtain ⟨frames, outcome⟩ := Option.ite_none_right_eq_some.mp outcome
        cases outcome
        have goesOn : resumed (plainCallee s.procs.proc) (irq0 0#32 0#32) s.running.interrupted =
            some (iret u) := by
          rw [resumed, ran]
          rfl
        refine .timer ⟨plainCallee_timer _, congrArg Prod.fst ran, rfl, rfl, rfl, ?_, frames⟩
          goesOn
        rw [Cpu.discard, setReg_of_ne (by decide), setReg_self]
      · cases outcome

/-- Two processes of priority 0, so that every tick switches. The first one works until a tick
takes the CPU from it. -/
def firstInterrupted : List MachineOp :=
  [.call (.create 0x20000D#32 0x20005A#32 0x101000#32 [0x41#8] 0#32),
    .call (.create 0x204067#32 0x2040B4#32 0x102000#32 [0x42#8] 0#32), .start, .work, .timer]

/-- The second process runs, and the next tick gives the CPU back to the first one. -/
def GivesBack (t : MachineState) : Prop :=
  t.procs.proc.currentProcess = 0x204067#32 ∧
    ((MachineOp.timer.sample t).any fun u => u.procs.proc.currentProcess = 0x20000D#32 ∧
      u.running.cpu.reg .eax = 7#32 ∧ u.running.eip = 0x101005#32) = true

instance (t : MachineState) : Decidable (GivesBack t) := inferInstanceAs (Decidable (_ ∧ _))

end Learnix
