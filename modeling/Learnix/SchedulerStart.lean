import Learnix.SavedContext

/-!
# Starting the scheduler under interrupts

`kernel_main` enables interrupts and calls `scheduler_start`, which runs on the boot
stack step by step, with timer interrupts between any two of them. From
`scheduler_running = 1` until it loads the stack pointer of the first process, a tick
takes the boot code for that process. If one of these ticks ends the quantum, the boot
stack pointer is saved in the PCB of the process, whose own one is lost;
`clean_start_iff` says that nothing else can go wrong.
-/

namespace Learnix

open Machine CircularList

/-! ## The system -/

/-- The steps of `scheduler_start` up to the last one, which loads the stack pointer. -/
inductive StartPoint
  | test
  | setRunning
  | setState
  | print
  | readEsp
  | returned
deriving DecidableEq, Repr

/-- Code that can be interrupted and gone on with: the boot code before a step of
`scheduler_start`, or before it loads the stack pointer `esp`, with which `target` was
interrupted; and the code of a process. -/
inductive Thread
  | boot (point : StartPoint)
  | loading (esp : Word) (target : Thread)
  | process (p : Word)
deriving DecidableEq, Repr

def Thread.isBoot : Thread → Bool
  | .process _ => false
  | _ => true

/-- `scheduler_start` has set `scheduler_running` and is still on the boot stack. -/
def Thread.inWindow : Thread → Bool
  | .boot .setState | .boot .print | .boot .readEsp | .loading _ _ => true
  | _ => false

/-- The processes, the code that runs, and the code whose stack pointer the PCB of each
process holds. -/
structure StartState where
  procs : ProcRunState
  running : Thread
  holder : Word → Thread

/-- What can happen: the running code of `scheduler_start` takes a step, the timer
interrupts the running code when its stack pointer is `esp`, or the running process
operates on processes. -/
inductive StartOp
  | step
  | tick (esp : Word)
  | process (op : ProcOp)

/-- The processes become `s'`, and the boot code goes on with `thread`. -/
def StartState.goOn (s : StartState) (s' : ProcState) (thread : Thread) : StartState :=
  ⟨⟨s', s.procs.created⟩, thread, s.holder⟩

/-- The next step of `scheduler_start`. -/
def StartState.bootStep (s : StartState) : Option StartState :=
  let p := s.procs.proc
  match s.running with
  | .boot .test =>
    some (s.goOn p (.boot (if p.currentProcess = 0#32 then .returned else .setRunning)))
  | .boot .setRunning => some (s.goOn { p with schedulerRunning := true } (.boot .setState))
  | .boot .setState =>
    some (s.goOn (p.setPcb p.currentProcess fun b => { b with state := .running }) (.boot .print))
  | .boot .print => some (s.goOn p (.boot .readEsp))
  | .boot .readEsp =>
    some (s.goOn p (.loading (p.pcb p.currentProcess).esp (s.holder p.currentProcess)))
  | .loading _ target => some (s.goOn p target)
  | .boot .returned | .process _ => none

/-- `irq0`: the stack pointer that `scheduler_tick` saves is that of the running code, and
the one that it returns says what runs next. -/
def StartState.tick (esp : Word) (s : StartState) : StartState :=
  let p := s.procs.proc
  let p' := (schedulerTick esp p).2
  let holder := if Active p ∧ QuantumUsed p then Function.update s.holder p.currentProcess s.running
    else s.holder
  ⟨⟨p', s.procs.created⟩,
    if p'.currentProcess = p.currentProcess then s.running else holder p'.currentProcess, holder⟩

/-- One step of the system. -/
inductive StartStep : StartState → StartOp → StartState → Prop
  | step {s t : StartState} : s.bootStep = some t → StartStep s .step t
  | tick {s : StartState} {esp : Word} : StartStep s (.tick esp) (s.tick esp)
  | process {s : StartState} {op : ProcOp} {t : ProcRunState} {p : Word} :
    s.running = .process p → op.isCall = true → ProcStep s.procs op t →
    StartStep s (.process op) ⟨t, s.running, s.holder⟩

/-- The outcome of a step, where it has one. -/
def StartOp.exec (s : StartState) : StartOp → Option StartState
  | .step => s.bootStep
  | .tick esp => some (s.tick esp)
  | .process op =>
    if s.running.isBoot = false ∧ op.isCall = true then
      (op.exec s.procs).map fun t => ⟨t, s.running, s.holder⟩
    else none

/-- `kernel_main` calls `scheduler_start`. No PCB holds the stack pointer of any code
but that of its own process. -/
def startInit (s : ProcRunState) : StartState := ⟨s, .boot .test, .process⟩

abbrev StartEvent := Sys.Event StartState StartOp

/-- The process whose stack pointer is loaded, and that stack pointer. -/
def resumes (e : StartEvent) : Option (Word × Word) :=
  let p := e.pre.procs.proc
  match e.op with
  | .step =>
    match e.pre.running with
    | .loading esp _ => some (p.currentProcess, esp)
    | _ => none
  | .tick esp =>
    let r := schedulerTick esp p
    if r.2.currentProcess = p.currentProcess then none else some (r.2.currentProcess, r.1)
  | .process _ => none

/-- A timer interrupt between `scheduler_running = 1` and the load of the stack pointer. -/
def windowTick (e : StartEvent) : Bool :=
  match e.op with
  | .tick _ => e.pre.running.inWindow
  | _ => false

/-- How many timer interrupts arrive there. -/
def windowTicks (tr : List StartEvent) : Nat := tr.countP windowTick

/-- The same, for the operations of processes. -/
def createdBy (p : Word) (e : StartEvent) : Option Word :=
  match e.op with
  | .process op => createdWith p ⟨e.pre.procs, op, e.post.procs⟩
  | _ => none

/-- The stack pointer that `process_create` stored for `p`, in the steps of `tr` or in
those of `tr₀` before them. -/
def initialEsp (tr₀ : List ProcEvent) (tr : List StartEvent) (p : Word) : Option Word :=
  (Sys.latest (createdBy p) tr).or (Sys.latest (createdWith p) tr₀)

/-- No step of `tr` resumes `p`. -/
def NeverResumed (p : Word) (tr : List StartEvent) : Prop :=
  ∀ e ∈ tr, ∀ esp, resumes e ≠ some (p, esp)

/-- After the step `e` no PCB holds the stack pointer of the boot code, and a process that
`e` resumes for the first time has the stack pointer that `process_create` stored. -/
structure CleanStep (tr₀ : List ProcEvent) (tr : List StartEvent) (e : StartEvent) : Prop where
  unheld : ∀ p ∈ e.post.procs.created, (e.post.holder p).isBoot = false
  first : ∀ p esp, resumes e = some (p, esp) → NeverResumed p tr →
    initialEsp tr₀ tr p = some esp

/-- Every step of the run is clean. -/
def CleanStart (tr₀ : List ProcEvent) : List StartEvent → Prop := Sys.EachStep (CleanStep tr₀)

section Calls

variable {s t : ProcRunState} {op : ProcOp} {p : Word} {tr₀ : List ProcEvent}

/-! ## What the calls of processes do to stack pointers -/

theorem blockOthersLoop_clock {fuel : Nat} {s s' : ProcState}
    (loop : blockOthersLoop fuel p s = some s') :
    s'.schedulerRunning = s.schedulerRunning ∧ s'.tickCount = s.tickCount := by
  induction fuel generalizing p s with
  | zero => cases loop
  | succ fuel ih =>
      unfold blockOthersLoop at loop
      split at loop
      · rcases ih loop with ⟨running, count⟩
        rw [running, count]
        split <;> exact ⟨rfl, rfl⟩
      · cases loop
        exact ⟨rfl, rfl⟩

/-- They leave the scheduler alone. -/
theorem ProcStep.clock (step : ProcStep s op t) (inv : ProcInvariant s.proc s.created)
    (call : op.isCall = true) : t.proc.schedulerRunning = s.proc.schedulerRunning ∧
      t.proc.tickCount = s.proc.tickCount := by
  cases step with
  | create fresh made =>
      rcases inv.created_cases fresh made with ⟨-, unjoined⟩ | ⟨-, -, joined⟩
      · exact ⟨unjoined.schedulerRunning, unjoined.tickCount⟩
      · exact ⟨joined.schedulerRunning, joined.tickCount⟩
  | exit =>
      unfold processExit
      split <;> exact ⟨rfl, rfl⟩
  | block _ =>
      unfold processBlock
      split <;> exact ⟨rfl, rfl⟩
  | unblock _ =>
      unfold processUnblock
      split <;> exact ⟨rfl, rfl⟩
  | blockOthers made =>
      unfold processBlockOthers at made
      split at made
      · cases made
        exact ⟨rfl, rfl⟩
      · exact blockOthersLoop_clock made
  | start => cases call
  | tick => cases call

/-- A call keeps the processes there are, with their stack pointers, and the current one;
a process that it creates has the stack pointer that it was created with. -/
structure Called (s : ProcRunState) (op : ProcOp) (t : ProcRunState) : Prop where
  current : s.proc.currentProcess ≠ 0#32 → t.proc.currentProcess = s.proc.currentProcess
  created : ∀ p ∈ s.created, p ∈ t.created
  esp : ∀ p ∈ t.created, ∀ x, (p ∈ s.created → x = some (s.proc.pcb p).esp) →
    (createdWith p ⟨s, op, t⟩).or x = some (t.proc.pcb p).esp

theorem ProcStep.called (step : ProcStep s op t) (inv : ProcInvariant s.proc s.created)
    (call : op.isCall = true) : Called s op t := by
  have kept : ∀ p ∈ s.created, p ∈ t.created := fun _ => step.mem_created
  -- what creates no process stores to state fields only
  have restated (notCreate : ∀ proc stack entry name priority,
      op ≠ .create proc stack entry name priority) : Called s op t := by
    have notTick : ∀ esp, op ≠ .tick esp := by
      rintro esp rfl
      cases call
    rcases step.restated inv notCreate notTick with ⟨restated, same⟩
    refine ⟨fun _ => restated.currentProcess, kept, ?_⟩
    intro p member x known
    have none_ : createdWith p ⟨s, op, t⟩ = none := by
      unfold createdWith
      cases op with
      | create _ _ _ _ _ => exact absurd rfl (notCreate _ _ _ _ _)
      | _ => rfl
    rcases restated.pcb p with ⟨state, pcb⟩
    rw [none_, Option.none_or, known (same ▸ member), pcb]
  cases op with
  | create proc stack entry name priority =>
      cases step with
      | create fresh made =>
          rename_i r s' h
          rcases inv.created_cases fresh made with ⟨rfl, unjoined⟩ | ⟨rfl, notNull, joined⟩
          · simp only [if_true] at kept ⊢
            refine ⟨fun _ => unjoined.currentProcess, kept, ?_⟩
            intro p member x known
            have old : createdWith p ⟨s, .create proc stack entry name priority, ⟨s', s.created⟩⟩ =
                none := if_neg fun both => both.1 member
            rw [old, Option.none_or, known member, unjoined.kept p fun eq => fresh (eq ▸ member)]
          · simp only [if_neg notNull] at kept ⊢
            refine ⟨fun some_ => (joined.ring some_).1, kept, ?_⟩
            intro p member x known
            by_cases old : p ∈ s.created
            · have known_ : createdWith p ⟨s, .create r stack entry name priority,
                  ⟨s', s.created ++ [r]⟩⟩ = none := if_neg fun both => both.1 old
              rcases joined.kept p fun eq => fresh (eq ▸ old) with ⟨next, pcb⟩
              rw [known_, Option.none_or, known old, pcb]
            · have new : createdWith p ⟨s, .create r stack entry name priority,
                  ⟨s', s.created ++ [r]⟩⟩ = some (s'.pcb p).esp := if_pos ⟨old, member⟩
              rw [new, Option.some_or]
  | start => cases call
  | tick esp => cases call
  | exit => exact restated fun _ _ _ _ _ same => by cases same
  | block p => exact restated fun _ _ _ _ _ same => by cases same
  | unblock p => exact restated fun _ _ _ _ _ same => by cases same
  | blockOthers => exact restated fun _ _ _ _ _ same => by cases same

/-! ## Before the start -/

/-- Until `scheduler_start` is called, every PCB has the stack pointer that
`process_create` stored, and no tick counts. -/
structure Unstarted (tr₀ : List ProcEvent) (s : ProcRunState) : Prop where
  ring : ProcInvariant s.proc s.created
  off : s.proc.schedulerRunning = false
  zero : s.proc.tickCount = 0#32
  esp : ∀ p ∈ s.created, Sys.latest (createdWith p) tr₀ = some (s.proc.pcb p).esp

theorem Unstarted.step (unstarted : Unstarted tr₀ s) (step : ProcStep s op t)
    (notStart : op ≠ .start) : Unstarted (tr₀ ++ [⟨s, op, t⟩]) t := by
  have call (isCall : op.isCall = true) : Unstarted (tr₀ ++ [⟨s, op, t⟩]) t := by
    rcases step.clock unstarted.ring isCall with ⟨running, count⟩
    have called := step.called unstarted.ring isCall
    refine ⟨unstarted.ring.step step, running.trans unstarted.off, count.trans unstarted.zero, ?_⟩
    intro p member
    rw [Sys.latest_snoc]
    exact called.esp p member _ (unstarted.esp p)
  cases op with
  | start => exact absurd rfl notStart
  | tick esp =>
      cases step with
      | tick =>
          have idle : schedulerTick esp s.proc = (esp, s.proc) := if_pos (.inl unstarted.off)
          simp only [idle]
          refine ⟨unstarted.ring, unstarted.off, unstarted.zero, fun p member => ?_⟩
          rw [Sys.latest_snoc]
          exact unstarted.esp p member
  | _ => exact call rfl

theorem Unstarted.run {q : ProcState} (run : Sys.Run ProcStep (procInit q) tr₀ s)
    (notStart : ∀ e ∈ tr₀, e.op ≠ .start) : Unstarted tr₀ s := by
  induction run with
  | nil => exact ⟨procInvariant_init q, rfl, rfl, fun _ member => absurd member List.not_mem_nil⟩
  | snoc _ last ih =>
      have before := ih fun e member => notStart e (List.mem_append_left _ member)
      exact before.step last (notStart _ (List.mem_append_right _ (List.mem_singleton_self _)))

end Calls

/-! ## As long as nothing goes wrong -/

variable {s₀ : ProcRunState} {tr₀ : List ProcEvent} {tr : List StartEvent} {s t : StartState}
  {op : StartOp} {e : StartEvent} {p esp : Word}

/-- `n` ticks do not use up the quantum. -/
def Short (n : Nat) (quantum : Word) : Prop := n = 0 ∨ n < quantum.toNat

/-- The quantum of the current process. -/
def ProcRunState.quantum (s : ProcRunState) : Word :=
  (s.proc.pcb s.proc.currentProcess).ticksQuantum

/-- Processes that were never resumed have the stack pointer that `process_create` stored. -/
structure Pristine (tr₀ : List ProcEvent) (tr : List StartEvent) (s : ProcRunState) : Prop where
  resumed : ∀ e ∈ tr, ∀ p esp, resumes e = some (p, esp) → p ∈ s.created
  initial : ∀ p ∈ s.created, NeverResumed p tr → initialEsp tr₀ tr p = some (s.proc.pcb p).esp

/-- The boot code is in the window: its ticks have been counted, and if it has read a
stack pointer, that is the one of the current process. -/
structure Window (s₀ : ProcRunState) (tr : List StartEvent) (s : StartState) : Prop where
  active : Active s.procs.proc
  current : s.procs.proc.currentProcess = s₀.proc.currentProcess
  quantum : s.procs.quantum = s₀.quantum
  count : s.procs.proc.tickCount.toNat = windowTicks tr
  silent : ∀ e ∈ tr, resumes e = none
  read : ∀ esp target, s.running = .loading esp target →
    esp = (s.procs.proc.pcb s.procs.proc.currentProcess).esp ∧
      target = .process s.procs.proc.currentProcess

/-- How far the boot code has come. -/
inductive StartPhase (s₀ : ProcRunState) (tr : List StartEvent) (s : StartState) : Prop
  | before (point : StartPoint) : s.running = .boot point → s.running.inWindow = false →
    (point = .setRunning → s₀.proc.currentProcess ≠ 0#32) → s.procs = s₀ → windowTicks tr = 0 →
    (∀ e ∈ tr, resumes e = none) → StartPhase s₀ tr s
  | window : s.running.inWindow = true → Window s₀ tr s → StartPhase s₀ tr s
  | left : s.running = .process s.procs.proc.currentProcess →
    s.procs.proc.currentProcess ≠ 0#32 →
    (∃ e ∈ tr, ∃ esp, resumes e = some (s.procs.proc.currentProcess, esp)) → StartPhase s₀ tr s

/-- Nothing has gone wrong so far. -/
structure StartInvariant (tr₀ : List ProcEvent) (s₀ : ProcRunState) (tr : List StartEvent)
    (s : StartState) : Prop where
  ring : ProcInvariant s.procs.proc s.procs.created
  holder : s.holder = .process
  short : Short (windowTicks tr) s₀.quantum
  pristine : Pristine tr₀ tr s.procs
  phase : StartPhase s₀ tr s

theorem windowTicks_snoc (notWindow : windowTick e = false) :
    windowTicks (tr ++ [e]) = windowTicks tr := by
  unfold windowTicks
  rw [List.countP_append, List.countP_singleton, if_neg (by rw [notWindow]; decide), Nat.add_zero]

theorem windowTicks_snoc_window (window : windowTick e = true) :
    windowTicks (tr ++ [e]) = windowTicks tr + 1 := by
  unfold windowTicks
  rw [List.countP_append, List.countP_singleton, if_pos window]

theorem initialEsp_snoc :
    initialEsp tr₀ (tr ++ [e]) p = (createdBy p e).or (initialEsp tr₀ tr p) := by
  rw [initialEsp, initialEsp, Sys.latest_snoc, Option.or_assoc]

theorem NeverResumed.before (never : NeverResumed p (tr ++ [e])) : NeverResumed p tr :=
  fun f member => never f (List.mem_append_left _ member)

theorem Pristine.snoc (before : Pristine tr₀ tr e.pre.procs)
    (created : ∀ p ∈ e.pre.procs.created, p ∈ e.post.procs.created)
    (resumed : ∀ p esp, resumes e = some (p, esp) → p ∈ e.post.procs.created)
    (made : ∀ p ∈ e.post.procs.created, NeverResumed p (tr ++ [e]) →
      (createdBy p e).or (initialEsp tr₀ tr p) = some (e.post.procs.proc.pcb p).esp) :
    Pristine tr₀ (tr ++ [e]) e.post.procs where
  resumed := Sys.forall_mem_snoc
    (fun f member p esp at_ => created p (before.resumed f member p esp at_)) resumed
  initial := fun p member never => initialEsp_snoc.trans (made p member never)

/-- A step that creates no process and leaves alone the stack pointers of those that were
never resumed. -/
theorem Pristine.same (before : Pristine tr₀ tr e.pre.procs)
    (created : e.post.procs.created = e.pre.procs.created)
    (resumed : ∀ p esp, resumes e = some (p, esp) → p ∈ e.pre.procs.created)
    (none_ : ∀ p, createdBy p e = none)
    (kept : ∀ p, NeverResumed p (tr ++ [e]) →
      (e.post.procs.proc.pcb p).esp = (e.pre.procs.proc.pcb p).esp) :
    Pristine tr₀ (tr ++ [e]) e.post.procs := by
  apply before.snoc
  · exact fun p member => created ▸ member
  · exact fun p esp at_ => created ▸ resumed p esp at_
  · intro p member never
    rw [none_, Option.none_or, kept p never]
    exact before.initial p (created ▸ member) never.before

theorem StartInvariant.window (inv : StartInvariant tr₀ s₀ tr s)
    (inside : s.running.inWindow = true) : Window s₀ tr s := by
  cases inv.phase with
  | before _ _ outside _ _ _ _ =>
      rw [inside] at outside
      cases outside
  | window _ window => exact window
  | left running _ _ =>
      rw [running] at inside
      cases inside

/-- A step that resumes nothing and leaves the stack pointers in the PCBs. -/
theorem StartInvariant.quiet (inv : StartInvariant tr₀ s₀ tr s) (op : StartOp) (t : StartState)
    (ring : ProcInvariant t.procs.proc t.procs.created) (holder : t.holder = s.holder)
    (short : Short (windowTicks (tr ++ [⟨s, op, t⟩])) s₀.quantum)
    (silent : resumes ⟨s, op, t⟩ = none) (none_ : ∀ p, createdBy p ⟨s, op, t⟩ = none)
    (created : t.procs.created = s.procs.created)
    (kept : ∀ p, (t.procs.proc.pcb p).esp = (s.procs.proc.pcb p).esp)
    (phase : StartPhase s₀ (tr ++ [⟨s, op, t⟩]) t) :
    StartInvariant tr₀ s₀ (tr ++ [⟨s, op, t⟩]) t ∧ CleanStep tr₀ tr ⟨s, op, t⟩ := by
  have held : t.holder = .process := holder.trans inv.holder
  have nothing : ∀ p esp, resumes ⟨s, op, t⟩ ≠ some (p, esp) := by
    intro p esp at_
    rw [silent] at at_
    cases at_
  refine ⟨⟨ring, held, short, ?_, phase⟩, ?_, fun p esp at_ => absurd at_ (nothing p esp)⟩
  · exact Pristine.same (e := ⟨s, op, t⟩) inv.pristine created
      (fun p esp at_ => absurd at_ (nothing p esp)) none_ fun p _ => kept p
  · intro p _
    rw [held]
    rfl

/-- A step of the boot code that resumes nothing. -/
theorem StartInvariant.goOn (inv : StartInvariant tr₀ s₀ tr s) (s' : ProcState) (thread : Thread)
    (ring : ProcInvariant s' s.procs.created)
    (silent : resumes ⟨s, .step, s.goOn s' thread⟩ = none)
    (kept : ∀ p, (s'.pcb p).esp = (s.procs.proc.pcb p).esp)
    (phase : StartPhase s₀ (tr ++ [⟨s, .step, s.goOn s' thread⟩]) (s.goOn s' thread)) :
    StartInvariant tr₀ s₀ (tr ++ [⟨s, .step, s.goOn s' thread⟩]) (s.goOn s' thread) ∧
      CleanStep tr₀ tr ⟨s, .step, s.goOn s' thread⟩ := by
  apply inv.quiet .step (s.goOn s' thread) ring rfl _ silent (fun _ => rfl) rfl kept phase
  rw [windowTicks_snoc rfl]
  exact inv.short

/-- What is known before the window. -/
theorem StartInvariant.outside {point : StartPoint} (inv : StartInvariant tr₀ s₀ tr s)
    (thread : s.running = .boot point) (outside : s.running.inWindow = false) :
    (point = .setRunning → s₀.proc.currentProcess ≠ 0#32) ∧ s.procs = s₀ ∧
      windowTicks tr = 0 ∧ ∀ e ∈ tr, resumes e = none := by
  cases inv.phase with
  | before point' running _ known same none_ silent =>
      rw [thread] at running
      cases running
      exact ⟨known, same, none_, silent⟩
  | window inside _ =>
      rw [outside] at inside
      cases inside
  | left running _ _ =>
      rw [thread] at running
      cases running

/-- A step of the boot code that resumes nothing keeps the window. -/
theorem Window.goOn {s' : ProcState} {thread : Thread} (window : Window s₀ tr s)
    (active : Active s') (current : s'.currentProcess = s.procs.proc.currentProcess)
    (count : s'.tickCount = s.procs.proc.tickCount)
    (quantum : ∀ p, (s'.pcb p).ticksQuantum = (s.procs.proc.pcb p).ticksQuantum)
    (silent : resumes ⟨s, .step, s.goOn s' thread⟩ = none)
    (read : ∀ esp target, thread = .loading esp target →
      esp = (s'.pcb s'.currentProcess).esp ∧ target = .process s'.currentProcess) :
    Window s₀ (tr ++ [⟨s, .step, s.goOn s' thread⟩]) (s.goOn s' thread) where
  active := active
  current := current.trans window.current
  quantum := by
    rw [← window.quantum, ProcRunState.quantum, ProcRunState.quantum, ← current]
    exact quantum _
  count := by
    rw [windowTicks_snoc rfl, ← window.count]
    exact congrArg BitVec.toNat count
  silent := Sys.forall_mem_snoc window.silent silent
  read := read

/-- The step of the boot code that leaves it. -/
theorem StartInvariant.load {esp : Word} {target : Thread} (inv : StartInvariant tr₀ s₀ tr s)
    (thread : s.running = .loading esp target) :
    StartInvariant tr₀ s₀ (tr ++ [⟨s, .step, s.goOn s.procs.proc target⟩])
        (s.goOn s.procs.proc target) ∧
      CleanStep tr₀ tr ⟨s, .step, s.goOn s.procs.proc target⟩ := by
  have window := inv.window (by rw [thread]; rfl)
  have member := inv.ring.current_mem window.active.2
  rcases window.read esp target thread with ⟨place, own⟩
  have at_ : resumes ⟨s, .step, s.goOn s.procs.proc target⟩ =
      some (s.procs.proc.currentProcess, esp) := by
    simp only [resumes, thread]
  refine ⟨⟨inv.ring, inv.holder, ?_, ?_, .left own window.active.2 ?_⟩, ?_, ?_⟩
  · rw [windowTicks_snoc rfl]
    exact inv.short
  · apply Pristine.same (e := ⟨s, .step, s.goOn s.procs.proc target⟩) inv.pristine rfl _
      (fun _ => rfl) fun _ _ => rfl
    intro p x at'
    rw [at_] at at'
    cases at'
    exact member
  · exact ⟨_, List.mem_append_right _ (List.mem_singleton_self _), esp, at_⟩
  · intro p _
    have held : (s.goOn s.procs.proc target).holder = .process := inv.holder
    rw [held]
    rfl
  · intro p x at' never
    rw [at_] at at'
    cases at'
    rw [place]
    exact inv.pristine.initial _ member never

/-- **Step lemma**, for the steps of `scheduler_start`. -/
theorem StartInvariant.bootStep (inv : StartInvariant tr₀ s₀ tr s)
    (unstarted : Unstarted tr₀ s₀) (step : s.bootStep = some t) :
    StartInvariant tr₀ s₀ (tr ++ [⟨s, .step, t⟩]) t ∧ CleanStep tr₀ tr ⟨s, .step, t⟩ := by
  unfold StartState.bootStep at step
  cases thread : s.running with
  | process p =>
      rw [thread] at step
      cases step
  | loading esp target =>
      rw [thread] at step
      cases step
      exact inv.load thread
  | boot point =>
      have silent : ∀ u, resumes ⟨s, .step, u⟩ = none := by
        intro u
        simp only [resumes, thread]
      rw [thread] at step
      cases point with
      | returned => cases step
      | test =>
          cases step
          rcases inv.outside thread (by rw [thread]; rfl) with ⟨-, same, none_, quiet⟩
          apply inv.goOn _ _ inv.ring (silent _) fun _ => rfl
          by_cases null : s.procs.proc.currentProcess = 0#32
          · rw [if_pos null]
            exact .before .returned rfl rfl (fun other => by cases other) same
              ((windowTicks_snoc rfl).trans none_) (Sys.forall_mem_snoc quiet (silent _))
          · rw [if_neg null]
            exact .before .setRunning rfl rfl (fun _ => same ▸ null) same
              ((windowTicks_snoc rfl).trans none_) (Sys.forall_mem_snoc quiet (silent _))
      | setRunning =>
          cases step
          rcases inv.outside thread (by rw [thread]; rfl) with ⟨some_, rfl, none_, quiet⟩
          have ring : ProcInvariant { s.procs.proc with schedulerRunning := true }
              s.procs.created :=
            inv.ring.of_same (.inl rfl) rfl (fun _ => rfl) rfl inv.ring.running
          apply inv.goOn _ _ ring (silent _) fun _ => rfl
          apply StartPhase.window rfl
          refine ⟨⟨rfl, some_ rfl⟩, rfl, rfl, ?_, Sys.forall_mem_snoc quiet (silent _), ?_⟩
          · rw [windowTicks_snoc rfl, none_]
            exact congrArg BitVec.toNat unstarted.zero
          · intro _ _ same
            cases same
      | setState =>
          cases step
          have window := inv.window (by rw [thread]; rfl)
          have field : ∀ {β : Type} (f : Pcb → β), (∀ b state, f { b with state := state } = f b) →
              ∀ p, f ((s.procs.proc.setPcb s.procs.proc.currentProcess
                fun b => { b with state := .running }).pcb p) = f (s.procs.proc.pcb p) :=
            fun f same p => startCurrent_field f same
          apply inv.goOn _ _ inv.ring.runCurrent (silent _) (field Pcb.esp fun _ _ => rfl)
          apply StartPhase.window rfl
          exact window.goOn window.active rfl rfl (field Pcb.ticksQuantum fun _ _ => rfl) (silent _)
            fun _ _ same => by cases same
      | print =>
          cases step
          have window := inv.window (by rw [thread]; rfl)
          apply inv.goOn _ _ inv.ring (silent _) fun _ => rfl
          apply StartPhase.window rfl
          exact window.goOn window.active rfl rfl (fun _ => rfl) (silent _)
            fun _ _ same => by cases same
      | readEsp =>
          cases step
          have window := inv.window (by rw [thread]; rfl)
          apply inv.goOn _ _ inv.ring (silent _) fun _ => rfl
          apply StartPhase.window rfl
          apply window.goOn window.active rfl rfl (fun _ => rfl) (silent _)
          intro esp target same
          rw [inv.holder] at same
          cases same
          exact ⟨rfl, rfl⟩

/-- A tick that finds nothing to schedule. -/
theorem StartState.tick_idle (idle : ¬ Active s.procs.proc) (esp : Word) :
    s.tick esp = s ∧ resumes ⟨s, .tick esp, s⟩ = none := by
  have outcome : schedulerTick esp s.procs.proc = (esp, s.procs.proc) := by
    generalize call : schedulerTick esp s.procs.proc = r
    cases Ticked.of_call call with
    | idle _ => rfl
    | counted active _ => exact absurd active idle
    | kept active _ _ => exact absurd active idle
    | switched active _ _ _ => exact absurd active idle
  constructor
  · simp only [StartState.tick, outcome, if_true, if_neg fun both => idle (And.left both)]
  · simp only [resumes, outcome, if_true]

/-- A tick that is only counted. -/
theorem StartState.tick_counted (active : Active s.procs.proc) (unused : ¬ QuantumUsed s.procs.proc)
    (esp : Word) : s.tick esp = s.goOn (countTick s.procs.proc) s.running ∧
      ∀ t, resumes ⟨s, .tick esp, t⟩ = none := by
  have outcome : schedulerTick esp s.procs.proc = (esp, countTick s.procs.proc) := by
    generalize call : schedulerTick esp s.procs.proc = r
    cases Ticked.of_call call with
    | idle idle => exact absurd active idle
    | counted _ _ => rfl
    | kept _ used _ => exact absurd used unused
    | switched _ used _ _ => exact absurd used unused
  have same : (countTick s.procs.proc).currentProcess = s.procs.proc.currentProcess := rfl
  constructor
  · simp only [StartState.tick, outcome, same, if_true, if_neg fun both => unused (And.right both),
      StartState.goOn]
  · intro t
    simp only [resumes, outcome, same, if_true]

/-- A tick leaves the stack pointers of the processes that it does not interrupt. -/
theorem schedulerTick_esp {s : ProcState} (other : p ≠ s.currentProcess) :
    ((schedulerTick esp s).2.pcb p).esp = (s.pcb p).esp := by
  have counted : ((countTick s).pcb p).esp = (s.pcb p).esp := countTick_field Pcb.esp fun _ _ => rfl
  have saved : ((saveContext esp (countTick s)).pcb p).esp = (s.pcb p).esp := by
    have other : ¬ p = (countTick s).currentProcess := other
    rw [saveContext_esp, if_neg other, counted]
  generalize call : schedulerTick esp s = r
  cases Ticked.of_call call with
  | idle _ => rfl
  | counted _ _ => exact counted
  | kept _ _ _ => exact saved
  | switched _ _ _ _ => exact (switchTo_field Pcb.esp fun _ _ => rfl).trans saved

/-- What a tick resumes is another process of the ring, with the stack pointer in its PCB. -/
theorem resumes_tick {x : Word} (ring : ProcInvariant s.procs.proc s.procs.created)
    (at_ : resumes ⟨s, .tick esp, t⟩ = some (p, x)) :
    p ∈ s.procs.created ∧ (schedulerTick esp s.procs.proc).2.currentProcess = p ∧
      x = (s.procs.proc.pcb p).esp := by
  unfold resumes at at_
  simp only at at_
  generalize call : schedulerTick esp s.procs.proc = r at at_ ⊢
  rcases Option.ite_none_left_eq_some.mp at_ with ⟨other, same⟩
  cases same
  cases Ticked.of_call call with
  | idle _ => exact absurd rfl other
  | counted _ _ => exact absurd rfl other
  | kept _ _ _ => exact absurd rfl other
  | switched active _ _ _ => exact ⟨ring.landing_mem active.2, rfl, rfl⟩

/-- A tick that interrupts the current process. -/
theorem StartInvariant.tickProcess (inv : StartInvariant tr₀ s₀ tr s)
    (running : s.running = .process s.procs.proc.currentProcess)
    (some_ : s.procs.proc.currentProcess ≠ 0#32)
    (resumed : ∃ e ∈ tr, ∃ x, resumes e = some (s.procs.proc.currentProcess, x)) (esp : Word) :
    StartInvariant tr₀ s₀ (tr ++ [⟨s, .tick esp, s.tick esp⟩]) (s.tick esp) ∧
      CleanStep tr₀ tr ⟨s, .tick esp, s.tick esp⟩ := by
  have ring : ProcInvariant (s.tick esp).procs.proc (s.tick esp).procs.created :=
    inv.ring.tick esp
  have holder : (s.tick esp).holder = .process := by
    unfold StartState.tick
    simp only [inv.holder, running]
    split
    · exact Function.update_eq_self _ _
    · rfl
  have thread : (s.tick esp).running = .process (s.tick esp).procs.proc.currentProcess := by
    rw [StartState.tick] at holder ⊢
    simp only at holder ⊢
    split
    · next same => rw [running, same]
    · rw [holder]
  have resumed_ : ∀ p x, resumes ⟨s, .tick esp, s.tick esp⟩ = some (p, x) →
      p ∈ s.procs.created ∧ x = (s.procs.proc.pcb p).esp := by
    intro p x at_
    rcases resumes_tick inv.ring at_ with ⟨member, -, place⟩
    exact ⟨member, place⟩
  have notWindow : windowTick ⟨s, .tick esp, s.tick esp⟩ = false := by
    simp only [windowTick, running]
    rfl
  refine ⟨⟨ring, holder, ?_, ?_, .left thread ?_ ?_⟩, ?_, ?_⟩
  · rw [windowTicks_snoc notWindow]
    exact inv.short
  · apply Pristine.same (e := ⟨s, .tick esp, s.tick esp⟩) inv.pristine rfl
      (fun p x at_ => (resumed_ p x at_).1) fun _ => rfl
    intro p never
    apply schedulerTick_esp
    rintro rfl
    rcases resumed with ⟨e, member, x, at_⟩
    exact never.before e member x at_
  · intro null
    have none_ := ring.created_eq_nil null
    have member := inv.ring.current_mem some_
    have same : (s.tick esp).procs.created = s.procs.created := rfl
    rw [← same, none_] at member
    cases member
  · by_cases stays : (schedulerTick esp s.procs.proc).2.currentProcess = s.procs.proc.currentProcess
    · rcases resumed with ⟨e, member, x, at_⟩
      exact ⟨e, List.mem_append_left _ member, x, at_.trans (by rw [← stays]; rfl)⟩
    · exact ⟨_, List.mem_append_right _ (List.mem_singleton_self _), _, if_neg stays⟩
  · intro p _
    have held : (s.tick esp).holder p = .process p := congrFun holder p
    rw [held]
    rfl
  · intro p x at_ never
    rcases resumed_ p x at_ with ⟨member, rfl⟩
    exact inv.pristine.initial p member never

/-- The next tick ends the quantum when there have been as many as it has. -/
theorem Window.quantumUsed_iff (window : Window s₀ tr s)
    (short : Short (windowTicks tr) s₀.quantum) :
    QuantumUsed s.procs.proc ↔ ¬ Short (windowTicks tr + 1) s₀.quantum := by
  have bound := s₀.quantum.isLt
  have next : (s.procs.proc.tickCount + 1#32).toNat = windowTicks tr + 1 := by
    have one : (1#32).toNat = 1 := rfl
    rw [BitVec.toNat_add, window.count, one]
    unfold Short at short
    omega
  have compared : s.procs.proc.tickCount + 1#32 <
        (s.procs.proc.pcb s.procs.proc.currentProcess).ticksQuantum ↔
      windowTicks tr + 1 < s₀.quantum.toNat := by
    rw [BitVec.lt_def, next, ← window.quantum]
    rfl
  unfold QuantumUsed Short
  rw [compared]
  omega

/-- A tick in the window that is only counted. -/
theorem StartInvariant.tickWindow (inv : StartInvariant tr₀ s₀ tr s)
    (inside : s.running.inWindow = true) (window : Window s₀ tr s)
    (unused : ¬ QuantumUsed s.procs.proc) (esp : Word) :
    StartInvariant tr₀ s₀ (tr ++ [⟨s, .tick esp, s.tick esp⟩]) (s.tick esp) ∧
      CleanStep tr₀ tr ⟨s, .tick esp, s.tick esp⟩ := by
  have counted : ∀ {β : Type} (f : Pcb → β),
      (∀ b ticks, f { b with ticksTotal := ticks } = f b) →
      ∀ p, f ((countTick s.procs.proc).pcb p) = f (s.procs.proc.pcb p) :=
    fun f same _ => countTick_field f same
  rcases StartState.tick_counted window.active unused esp with ⟨after, silent⟩
  have count : windowTicks (tr ++ [⟨s, .tick esp, s.tick esp⟩]) = windowTicks tr + 1 :=
    windowTicks_snoc_window inside
  have short : Short (windowTicks tr + 1) s₀.quantum := by
    by_contra long
    exact unused ((window.quantumUsed_iff inv.short).mpr long)
  have next : (s.procs.proc.tickCount + 1#32).toNat = windowTicks tr + 1 := by
    have bound := s₀.quantum.isLt
    have one : (1#32).toNat = 1 := rfl
    rw [BitVec.toNat_add, one, window.count]
    unfold Short at short
    omega
  rw [after] at count ⊢
  apply inv.quiet (.tick esp) (s.goOn (countTick s.procs.proc) s.running) inv.ring.countTick rfl _
    (silent _) (fun _ => rfl) rfl (counted Pcb.esp fun _ _ => rfl)
  · refine .window inside ⟨window.active, window.current, ?_, ?_,
      Sys.forall_mem_snoc window.silent (silent _), ?_⟩
    · exact (counted Pcb.ticksQuantum (fun _ _ => rfl) _).trans window.quantum
    · rw [count]
      exact next
    · intro x target loading
      rcases window.read x target loading with ⟨place, own⟩
      exact ⟨place.trans (counted Pcb.esp (fun _ _ => rfl) _).symm, own⟩
  · rw [count]
    exact short

/-- **Step lemma**, for a tick that does not end the quantum in the window. -/
theorem StartInvariant.tick (inv : StartInvariant tr₀ s₀ tr s) (unstarted : Unstarted tr₀ s₀)
    (esp : Word) (unused : s.running.inWindow = true → ¬ QuantumUsed s.procs.proc) :
    StartInvariant tr₀ s₀ (tr ++ [⟨s, .tick esp, s.tick esp⟩]) (s.tick esp) ∧
      CleanStep tr₀ tr ⟨s, .tick esp, s.tick esp⟩ := by
  cases inv.phase with
  | before point running outside known same none_ quiet =>
      have idle : ¬ Active s.procs.proc := by
        rintro ⟨on, -⟩
        rw [same, unstarted.off] at on
        cases on
      rcases StartState.tick_idle idle esp with ⟨unchanged, silent⟩
      have count : windowTicks (tr ++ [⟨s, .tick esp, s⟩]) = windowTicks tr :=
        windowTicks_snoc outside
      rw [unchanged]
      apply inv.quiet (.tick esp) s inv.ring rfl _ silent (fun _ => rfl) rfl fun _ => rfl
      · exact .before point running outside known same (count.trans none_)
          (Sys.forall_mem_snoc quiet silent)
      · rw [count]
        exact inv.short
  | window inside window => exact inv.tickWindow inside window (unused inside) esp
  | left running some_ resumed => exact inv.tickProcess running some_ resumed esp

/-- **Step lemma**, for the calls of processes. -/
theorem StartInvariant.process {op : ProcOp} {t : ProcRunState} (inv : StartInvariant tr₀ s₀ tr s)
    (running : s.running = .process p) (call : op.isCall = true) (step : ProcStep s.procs op t) :
    StartInvariant tr₀ s₀ (tr ++ [⟨s, .process op, ⟨t, s.running, s.holder⟩⟩])
        ⟨t, s.running, s.holder⟩ ∧
      CleanStep tr₀ tr ⟨s, .process op, ⟨t, s.running, s.holder⟩⟩ := by
  have called := step.called inv.ring call
  have left : s.running = .process s.procs.proc.currentProcess ∧
      s.procs.proc.currentProcess ≠ 0#32 ∧
      ∃ e ∈ tr, ∃ x, resumes e = some (s.procs.proc.currentProcess, x) := by
    cases inv.phase with
    | before _ boot _ _ _ _ _ =>
        rw [running] at boot
        cases boot
    | window inside _ =>
        rw [running] at inside
        cases inside
    | left own some_ resumed => exact ⟨own, some_, resumed⟩
  rcases left with ⟨own, some_, e, member, x, at_⟩
  have current := called.current some_
  refine ⟨⟨inv.ring.step step, inv.holder, ?_, ?_, .left ?_ ?_ ?_⟩, ?_, ?_⟩
  · rw [windowTicks_snoc rfl]
    exact inv.short
  · apply Pristine.snoc (e := ⟨s, .process op, ⟨t, s.running, s.holder⟩⟩) inv.pristine
      called.created
    · intro p esp resumed
      cases resumed
    · intro p member never
      exact called.esp p member _ fun old => inv.pristine.initial p old never.before
  · simp only [current]
    exact own
  · simp only [current]
    exact some_
  · simp only [current]
    exact ⟨e, List.mem_append_left _ member, x, at_⟩
  · intro p _
    simp only [inv.holder]
    rfl
  · intro p esp resumed
    cases resumed

/-- A tick that ends the quantum in the window saves the stack pointer of the boot code. -/
theorem Window.saved (window : Window s₀ tr s) (ring : ProcInvariant s.procs.proc s.procs.created)
    (inside : s.running.inWindow = true) (used : QuantumUsed s.procs.proc) (esp : Word) :
    s.procs.proc.currentProcess ∈ (s.tick esp).procs.created ∧
      ((s.tick esp).holder s.procs.proc.currentProcess).isBoot = true := by
  have boot : s.running.isBoot = true := by
    cases thread : s.running with
    | process p =>
        rw [thread] at inside
        cases inside
    | _ => rfl
  refine ⟨ring.current_mem window.active.2, ?_⟩
  simp only [StartState.tick, if_pos (And.intro window.active used), Function.update_self, boot]

/-- A step that is not such a tick is clean and keeps the invariant; such a tick is not
clean, and there have been too many of them. -/
theorem StartInvariant.step (inv : StartInvariant tr₀ s₀ tr s) (unstarted : Unstarted tr₀ s₀)
    (step : StartStep s op t) :
    StartInvariant tr₀ s₀ (tr ++ [⟨s, op, t⟩]) t ∧ CleanStep tr₀ tr ⟨s, op, t⟩ ∨
      ¬ Short (windowTicks (tr ++ [⟨s, op, t⟩])) s₀.quantum ∧ ¬ CleanStep tr₀ tr ⟨s, op, t⟩ := by
  cases step with
  | step step => exact .inl (inv.bootStep unstarted step)
  | process running call step => exact .inl (inv.process running call step)
  | @tick esp =>
      by_cases ends : s.running.inWindow = true ∧ QuantumUsed s.procs.proc
      · rcases ends with ⟨inside, used⟩
        have window := inv.window inside
        rcases window.saved inv.ring inside used esp with ⟨member, boot⟩
        have count : windowTicks (tr ++ [⟨s, .tick esp, s.tick esp⟩]) = windowTicks tr + 1 :=
          windowTicks_snoc_window inside
        refine .inr ⟨?_, fun clean => ?_⟩
        · rw [count]
          exact (window.quantumUsed_iff inv.short).mp used
        · have held := clean.unheld s.procs.proc.currentProcess member
          rw [boot] at held
          cases held
      · exact .inl (inv.tick unstarted esp fun inside used => ends ⟨inside, used⟩)

/-- **Run lemma.** -/
theorem StartInvariant.run (unstarted : Unstarted tr₀ s₀)
    (run : Sys.Run StartStep (startInit s₀) tr t) :
    StartInvariant tr₀ s₀ tr t ∧ CleanStart tr₀ tr ∨
      ¬ Short (windowTicks tr) s₀.quantum ∧ ¬ CleanStart tr₀ tr := by
  apply run.history_invariant (I := fun tr t => StartInvariant tr₀ s₀ tr t ∧ CleanStart tr₀ tr ∨
    ¬ Short (windowTicks tr) s₀.quantum ∧ ¬ CleanStart tr₀ tr)
  · have silent : ∀ e ∈ ([] : List StartEvent), resumes e = none :=
      fun _ member => absurd member List.not_mem_nil
    have pristine : Pristine tr₀ [] s₀ :=
      ⟨fun _ member => absurd member List.not_mem_nil, fun p member _ => unstarted.esp p member⟩
    have phase : StartPhase s₀ [] (startInit s₀) :=
      .before .test rfl rfl (fun other => by cases other) rfl rfl silent
    exact .inl ⟨⟨unstarted.ring, rfl, .inl rfl, pristine, phase⟩, Sys.eachStep_nil⟩
  · intro tr s op t _ so_far step
    unfold CleanStart
    rw [Sys.eachStep_snoc]
    rcases so_far with ⟨inv, clean⟩ | ⟨long, unclean⟩
    · rcases inv.step unstarted step with ⟨inv', now⟩ | ⟨long, unclean⟩
      · exact .inl ⟨inv', clean, now⟩
      · exact .inr ⟨long, fun all => unclean all.2⟩
    · have more : windowTicks tr ≤ windowTicks (tr ++ [⟨s, op, t⟩]) := by
        unfold windowTicks
        rw [List.countP_append]
        exact Nat.le_add_right _ _
      refine .inr ⟨fun short => ?_, fun all => unclean all.1⟩
      unfold Short at long short
      omega

/-- Whatever processes there are when `scheduler_start` is called, and wherever timer
interrupts arrive, all is well exactly if none of them, or fewer than the quantum of the
current process, arrives between `scheduler_running = 1` and the load of the stack pointer:
no PCB ever holds the stack pointer of the boot code, and each process is resumed for the
first time with the stack pointer that `process_create` stored for it. -/
theorem clean_start_iff {q : ProcState} (created : Sys.Run ProcStep (procInit q) tr₀ s₀)
    (notStart : ∀ e ∈ tr₀, e.op ≠ .start) (run : Sys.Run StartStep (startInit s₀) tr t) :
    CleanStart tr₀ tr ↔ windowTicks tr = 0 ∨ windowTicks tr <
      (s₀.proc.pcb s₀.proc.currentProcess).ticksQuantum.toNat := by
  have unstarted := Unstarted.run created notStart
  rcases StartInvariant.run unstarted run with ⟨inv, clean⟩ | ⟨long, unclean⟩
  · exact iff_of_true clean inv.short
  · exact iff_of_false unclean long

/-! ## Runs that compute -/

theorem StartStep.of_exec (outcome : op.exec s = some t) : StartStep s op t := by
  cases op with
  | step => exact .step outcome
  | tick esp =>
      cases outcome
      exact .tick
  | process op =>
      rcases Option.ite_none_right_eq_some.mp outcome with ⟨⟨notBoot, call⟩, outcome⟩
      rcases Option.map_eq_some_iff.mp outcome with ⟨u, made, rfl⟩
      cases thread : s.running with
      | process p =>
          rw [← thread]
          exact .process thread call (.of_exec made)
      | _ =>
          rw [thread] at notBoot
          cases notBoot

/-- Without interrupts the boot code does what `scheduler_start` does. -/
theorem exec_bootSteps (s : ProcRunState) (some_ : s.proc.currentProcess ≠ 0#32) :
    ∃ tr t esp, Sys.exec StartOp.exec (startInit s) (List.replicate 6 .step) = some (tr, t) ∧
      t.procs.proc = (schedulerStart s.proc).2 ∧ t.running = .process s.proc.currentProcess ∧
      (schedulerStart s.proc).1 = some esp ∧
      tr.filterMap resumes = [(s.proc.currentProcess, esp)] := by
  have next : (if s.proc.currentProcess = 0#32 then StartPoint.returned else .setRunning) =
      .setRunning := if_neg some_
  rw [schedulerStart, if_neg some_]
  simp only [List.replicate, Sys.exec, StartOp.exec, StartState.bootStep, startInit,
    StartState.goOn, next, Option.bind_some, Option.map_some]
  exact ⟨_, _, _, rfl, rfl, rfl, rfl, rfl⟩

/-- A property of a run from two processes of low priority can be computed. -/
theorem exists_start {P : ProcRunState → List StartEvent → StartState → Prop}
    [∀ s tr t, Decidable (P s tr t)] (ops : List StartOp)
    (computed : ((Sys.exec ProcOp.exec (procInit blankProc) (twoProcesses.take 2)).any fun r =>
      decide ((∀ e ∈ r.1, ProcOp.isCall e.op = true) ∧
        ((Sys.exec StartOp.exec (startInit r.2) ops).any fun r' =>
          decide (P r.2 r'.1 r'.2)) = true)) = true) :
    ∃ tr₀ s₀ tr t, Sys.Run ProcStep (procInit blankProc) tr₀ s₀ ∧ (∀ e ∈ tr₀, e.op ≠ .start) ∧
      Sys.Run StartStep (startInit s₀) tr t ∧ P s₀ tr t := by
  rcases Sys.Run.exists_trace_of_exec
    (P := fun tr₀ s₀ => (∀ e ∈ tr₀, ProcOp.isCall e.op = true) ∧
      ((Sys.exec StartOp.exec (startInit s₀) ops).any fun r => decide (P s₀ r.1 r.2)) = true)
    _ ProcStep.of_exec computed with ⟨tr₀, s₀, created, calls, computed⟩
  rcases Sys.Run.exists_trace_of_exec (P := P s₀) ops StartStep.of_exec computed with
    ⟨tr, t, run, holds⟩
  refine ⟨tr₀, s₀, tr, t, created, fun e member start => ?_, run, holds⟩
  have call := calls e member
  rw [start] at call
  cases call

/-- Four ticks in the window leave one of the quantum: the boot code loads the stack
pointer of the first process. -/
theorem clean_start_iff_four :
    ∃ tr₀ s₀ tr t, Sys.Run ProcStep (procInit blankProc) tr₀ s₀ ∧
      Sys.Run StartStep (startInit s₀) tr t ∧ windowTicks tr = 4 ∧
      t.running = .process 0x20000D#32 ∧ CleanStart tr₀ tr := by
  rcases exists_start
      (P := fun s tr t => windowTicks tr = 4 ∧ t.running = .process 0x20000D#32 ∧
        (s.proc.pcb s.proc.currentProcess).ticksQuantum = 5#32)
      ([.step, .step] ++ List.replicate 4 (.tick 0x8FF00#32) ++ List.replicate 4 .step)
      (by decide +kernel) with ⟨tr₀, s₀, tr, t, created, notStart, run, four, left, quantum⟩
  refine ⟨tr₀, s₀, tr, t, created, run, four, left,
    (clean_start_iff created notStart run).mpr (.inr ?_)⟩
  rw [four, quantum]
  decide

/-- With a fifth one the PCB of the first process gets the stack pointer of the boot code.
When its turn comes again, the process is resumed for the first time, with that one. -/
theorem boot_context_saved :
    ∃ tr₀ s₀ tr t, Sys.Run ProcStep (procInit blankProc) tr₀ s₀ ∧ (∀ e ∈ tr₀, e.op ≠ .start) ∧
      Sys.Run StartStep (startInit s₀) tr t ∧
      tr.filterMap resumes = [(0x204067#32, 0x208078#32), (0x20000D#32, 0x8FF00#32)] ∧
      ¬ CleanStart tr₀ tr := by
  rcases exists_start
      (P := fun _ tr _ =>
        tr.filterMap resumes = [(0x204067#32, 0x208078#32), (0x20000D#32, 0x8FF00#32)] ∧
        ∃ e ∈ tr, 0x20000D#32 ∈ e.post.procs.created ∧
          (e.post.holder 0x20000D#32).isBoot = true)
      ([.step, .step] ++ List.replicate 5 (.tick 0x8FF00#32) ++
        List.replicate 5 (.tick 0x207FF0#32))
      (by decide +kernel) with
    ⟨tr₀, s₀, tr, t, created, notStart, run, resumed, e, member, here, boot⟩
  refine ⟨tr₀, s₀, tr, t, created, notStart, run, resumed, fun clean => ?_⟩
  rcases List.append_of_mem member with ⟨before, after, shape⟩
  have held := (clean before e after shape).unheld _ here
  rw [boot] at held
  cases held

end Learnix
