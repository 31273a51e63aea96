import Learnix.Heap
import Learnix.Scheduling
import Learnix.SystemCall

/-!
# Programs that the shell runs

`run` calls `elf_load`, which calls the entry point of the program as a C function, in
the process of its caller, and creates a process for the program when that call has
returned. `SYS_EXIT` marks the current process DEAD. So an exit ends the program only if
the code that calls it runs in the process created for it; until then it ends the shell,
or whichever process called `elf_load` (`exits_alone_iff`).

Nothing checks where a program stores, or where it has `SYS_READ` and `SYS_FREAD` store, or
where `elf_load` stores its segments. A step that stores to memory of the kernel, such as the
state in a PCB, may come to anything.
-/

namespace Learnix

open Machine

/-! ## The system -/

/-- `PRIORITY_NORMAL`. -/
def priorityNormal : Word := 2#32

/-- A call of an entry point by `elf_load`: the number of the load, the process that makes
the call, and what `process_create` will be called with. -/
structure EntryCall where
  load : Nat
  proc : Word
  entry : Word
  filename : List Byte

/-- Where the shell is: at its prompt, in the `elf_load` of `run`, or in the loop that
waits for the program. -/
inductive ShellPhase
  | prompt
  | loading
  | waiting
deriving DecidableEq, Repr

/-- The processes and the shell; how many loads there have been, the calls of entry points
that have not returned, innermost first, and the load that a process was created for; and
the processes in the loop of `process_exit`. -/
structure RunState where
  procs : ProcRunState
  shell : Word
  phase : ShellPhase
  loads : Nat
  calls : List EntryCall
  made : Word → Option Nat
  exited : Word → Bool

/-- The bytes that are stored, in their order, and where the frames of the program that runs lie
on the stack of its process: their address and size. -/
structure ProgramStores where
  bytes : List (Word × Byte)
  frames : Word × Nat

/-- What can happen: the shell executes `run`, a program calls `syscall_handler` or stores
itself, a program returns from its entry point to `elf_load`, the shell waits, a tick, and
calls of processes other than the shell and the programs. `loaded` is the entry point, if
`elf_load` gets there; what it then has stored is the segments. -/
inductive RunOp
  | run (filename : List Byte) (loaded : Option Word) (segments : ProgramStores)
  | syscall (args : CallArgs) (filename : List Byte) (loaded : Option Word) (stores : ProgramStores)
  | store (stores : ProgramStores)
  | ret (proc stack : Word)
  | wait
  | tick (esp : Word)
  | process (op : ProcOp)

namespace RunState

def current (s : RunState) : Word := s.procs.proc.currentProcess

/-- The innermost call of an entry point by the current process. -/
def call (s : RunState) : Option EntryCall := s.calls.find? fun c => c.proc = s.current

/-- The load whose code the current process executes. -/
def program (s : RunState) : Option Nat :=
  if s.exited s.current = true then none
  else match s.call with
    | some c => some c.load
    | none => s.made s.current

/-- The current process executes the code of the shell. -/
def inShell (s : RunState) : Bool :=
  s.current = s.shell && s.call.isNone && !s.exited s.current

/-- `elf_load` up to the call of the entry point. -/
def elfLoad (filename : List Byte) (loaded : Option Word) (s : RunState) : RunState :=
  match loaded with
  | some entry =>
    { s with loads := s.loads + 1, calls := ⟨s.loads, s.current, entry, filename⟩ :: s.calls }
  | none => s

/-- The bytes are stored, beside the PCBs and the variables of the kernel. -/
def put (stores : ProgramStores) (s : RunState) : RunState :=
  { s with procs.proc.mem :=
      stores.bytes.foldl (fun m b => m.write8 b.1 b.2) s.procs.proc.mem }

/-- `syscall_handler`, up to the entry point for `SYS_EXEC`, with what it stores. -/
def syscall (args : CallArgs) (filename : List Byte) (loaded : Option Word) (stores : ProgramStores)
    (s : RunState) : RunState :=
  match syscallCase args.eax with
  | .exit =>
    { s with
      procs := ⟨processExit s.procs.proc, s.procs.created⟩
      exited := Function.update s.exited s.current true }
  | .exec => if args.ebx = 0#32 then s else (s.put stores).elfLoad filename loaded
  | .read => if args.ebx = 0#32 ∨ args.ecx = 0#32 then s else s.put stores
  | .fread => if args.ebx = 0#32 ∨ args.ecx = 0#32 then s else s.put stores
  | _ => s

/-- `a` is an address of the kernel that the current program has no business at: of its image,
which begins at 1 MB, or of the heap, where the PCBs are, but not of the frames of the program
on the stack of the current process. -/
def Guards (s : RunState) (frames : Word × Nat) (a : Word) : Prop :=
  Memory.InRange 0x100000#32 (heapStart - 0x100000) a ∨
    InHeap a ∧ ¬ (Memory.InRange frames.1 frames.2 a ∧
      Memory.InRange (s.procs.proc.pcb s.current).stack stackSize a)

instance (s : RunState) (frames : Word × Nat) (a : Word) : Decidable (s.Guards frames a) :=
  inferInstanceAs (Decidable (Memory.InRange 0x100000#32 (heapStart - 0x100000) a ∨
    InHeap a ∧ ¬ (Memory.InRange frames.1 frames.2 a ∧
      Memory.InRange (s.procs.proc.pcb s.current).stack stackSize a)))

/-- `elf_load` after the entry point has returned and `process_create` has made `t` of the
processes, with its PCB at `proc` unless it failed. The shell waits if it was its call. -/
def afterCall (c : EntryCall) (proc : Word) (t : ProcRunState) (s : RunState) : RunState :=
  let calls := s.calls.filter (·.load ≠ c.load)
  let outermost := c.proc = s.shell ∧ ∀ d ∈ calls, d.proc ≠ s.shell
  { s with
    procs := t
    calls := calls
    made := if proc ∈ t.created then Function.update s.made proc (some c.load) else s.made
    phase := if outermost then if proc ∈ t.created then .waiting else .prompt else s.phase }

end RunState

/-- What a step stores in the name of a program. -/
def RunOp.stores : RunOp → ProgramStores
  | .run _ _ segments => segments
  | .syscall _ _ _ stores => stores
  | .store stores => stores
  | _ => ⟨[], 0#32, 0⟩

/-- The step stores nothing to memory of the kernel. -/
def RunOp.Spares (s : RunState) (op : RunOp) : Prop :=
  ∀ b ∈ op.stores.bytes, ¬ s.Guards op.stores.frames b.1

/-- A call stores to the buffer it is given, and `SYS_EXEC` wherever the segments go. -/
def CallArgs.MayStore (args : CallArgs) (a : Word) : Prop :=
  args.InBuffer a ∨ syscallCase args.eax = .exec

instance (args : CallArgs) (a : Word) : Decidable (args.MayStore a) :=
  inferInstanceAs (Decidable (args.InBuffer a ∨ syscallCase args.eax = .exec))

/-- The outcome of a step, where it is possible. -/
def RunOp.exec (s : RunState) : RunOp → Option RunState
  | .run filename loaded segments =>
    if s.inShell = true ∧ s.phase = .prompt then
      some { (s.put segments).elfLoad filename loaded with
        phase := if loaded.isSome then .loading else .prompt }
    else none
  | .syscall args filename loaded stores =>
    if s.program ≠ none ∧ (stores.bytes.all fun b => args.MayStore b.1) = true then
      some (s.syscall args filename loaded stores)
    else none
  | .store stores => if s.program ≠ none then some (s.put stores) else none
  | .ret proc stack =>
    if s.exited s.current = true then none
    else s.call.bind fun c =>
      (ProcOp.exec s.procs (.create proc stack c.entry c.filename priorityNormal)).map fun t =>
        s.afterCall c proc t
  | .wait =>
    if s.inShell = true ∧ s.phase = .waiting then
      (processCountActive s.procs.proc).map fun n =>
        { s with phase := if 1 < n then .waiting else .prompt }
    else none
  | .tick esp => some { s with procs := ⟨(schedulerTick esp s.procs.proc).2, s.procs.created⟩ }
  | .process op =>
    if s.current ≠ s.shell ∧ s.made s.current = none ∧ op.isCall = true then
      (op.exec s.procs).map fun t => { s with procs := t }
    else none

/-- One step of the system. After a store to memory of the kernel the state may be any. -/
def RunStep (s : RunState) (op : RunOp) (t : RunState) : Prop :=
  op.Spares s → op.exec s = some t

abbrev RunEvent := Sys.Event RunState RunOp

/-- The shell is current, and at its prompt. -/
def runInit (s : ProcRunState) : RunState :=
  ⟨s, s.proc.currentProcess, .prompt, 0, [], fun _ => none, fun _ => false⟩

/-- The load whose code executes `SYS_EXIT` in the step `e`. -/
def exits (e : RunEvent) : Option Nat :=
  match e.op with
  | .syscall args _ _ _ => if syscallCase args.eax = .exit then e.pre.program else none
  | _ => none

/-- The step `e` does not make the shell DEAD, and if it is a `SYS_EXIT`, it makes no
process DEAD but one that `elf_load` created for the program. -/
structure ExitsAlone (e : RunEvent) : Prop where
  shell : Dead e.post.procs.proc e.pre.shell → Dead e.pre.procs.proc e.pre.shell
  own : ∀ n, exits e = some n → ∀ p ∈ e.pre.procs.created,
    Dead e.post.procs.proc p → Dead e.pre.procs.proc p ∨ e.pre.made p = some n

/-! ## What makes a process DEAD -/

/-- A store that leaves its own process alive kills none. -/
theorem dead_of_setPcb {s : ProcState} {p q : Word} {f : Pcb → Pcb}
    (alive : (f (s.pcb q)).state ≠ .dead) (dead : Dead (s.setPcb q f) p) : Dead s p := by
  unfold Dead at dead
  rw [setPcb_pcb] at dead
  split at dead
  · exact absurd dead alive
  · exact dead

theorem dead_of_tick {s : ProcState} {p esp : Word} (dead : Dead (schedulerTick esp s).2 p) :
    Dead s p := by
  have counted : ((countTick s).pcb p).state = (s.pcb p).state :=
    countTick_field Pcb.state fun _ _ => rfl
  have saved : ((saveContext esp (countTick s)).pcb p).state = (s.pcb p).state :=
    (saveContext_field Pcb.state fun _ _ => rfl).trans counted
  unfold Dead at dead ⊢
  generalize call : schedulerTick esp s = r at dead
  cases Ticked.of_call call with
  | idle _ => exact dead
  | counted _ _ => rwa [counted] at dead
  | kept _ _ _ => rwa [saved] at dead
  | switched _ _ _ _ =>
      rw [switchTo_state] at dead
      split at dead
      · cases dead
      · split at dead
        · cases dead
        · rwa [saved] at dead

/-- A process that a step finds alive and leaves DEAD has executed `process_exit`. -/
theorem ProcStep.dead_cases {s t : ProcRunState} {op : ProcOp} {p : Word}
    (step : ProcStep s op t) (inv : ProcInvariant s.proc s.created) (member : p ∈ s.created)
    (dead : Dead t.proc p) : Dead s.proc p ∨ op = .exit ∧ p = s.proc.currentProcess := by
  cases step with
  | create fresh call =>
      obtain ⟨next, pcb⟩ := inv.created_pcb fresh member call
      rw [Dead, pcb] at dead
      exact .inl dead
  | exit =>
      by_cases here : p = s.proc.currentProcess
      · exact .inr ⟨rfl, here⟩
      · unfold processExit at dead
        split at dead
        · exact .inl dead
        · rw [Dead, setPcb_pcb_of_ne here] at dead
          exact .inl dead
  | block _ =>
      unfold processBlock at dead
      split at dead
      · dsimp only at dead
        exact .inl (dead_of_setPcb ProcessState.noConfusion dead)
      · exact .inl dead
  | unblock _ =>
      unfold processUnblock at dead
      split at dead
      · dsimp only at dead
        exact .inl (dead_of_setPcb ProcessState.noConfusion dead)
      · exact .inl dead
  | blockOthers call =>
      obtain ⟨-, -, pcbs⟩ := inv.blockedOthers call
      rw [Dead, pcbs] at dead
      split at dead
      · cases dead
      · exact .inl dead
  | start =>
      unfold schedulerStart at dead
      split at dead
      · exact .inl dead
      · have marked : Dead (s.proc.setPcb s.proc.currentProcess fun b =>
            { b with state := .running }) p := dead
        exact .inl (dead_of_setPcb ProcessState.noConfusion marked)
  | tick => exact .inl (dead_of_tick dead)

/-! ## The invariant -/

/-- The shell, and the processes made for programs. -/
def RunState.Involved (s : RunState) (p : Word) : Prop := p = s.shell ∨ s.made p ≠ none

/-- Only the shell and programs are in calls of entry points, no process was created for
such a call yet, and of them only those that executed `process_exit` are DEAD. -/
structure RunInvariant (s : RunState) : Prop where
  ring : ProcInvariant s.procs.proc s.procs.created
  shell : s.shell ∈ s.procs.created
  callers : ∀ c ∈ s.calls, c.load < s.loads ∧ s.Involved c.proc
  made : ∀ p n, s.made p = some n → p ∈ s.procs.created ∧ p ≠ s.shell ∧ n < s.loads ∧
    ∀ c ∈ s.calls, c.load ≠ n
  dead : ∀ p, s.Involved p → Dead s.procs.proc p → s.exited p = true

variable {s t : RunState} {op : RunOp} {e : RunEvent} {p : Word} {n : Nat}

theorem RunInvariant.member (inv : RunInvariant s) (involved : s.Involved p) :
    p ∈ s.procs.created := by
  rcases involved with rfl | notNone
  · exact inv.shell
  · obtain ⟨n, made⟩ := Option.ne_none_iff_exists'.mp notNone
    exact (inv.made p n made).1

theorem mem_of_call {c : EntryCall} (call : s.call = some c) :
    c ∈ s.calls ∧ c.proc = s.current := by
  have found := List.find?_some (p := fun c : EntryCall => decide (c.proc = s.current)) call
  exact ⟨List.mem_of_find?_eq_some call, of_decide_eq_true found⟩

/-- A program runs in a process that has not exited: within a call of its entry point, or
as the process that was created for it. -/
theorem program_cases (running : s.program = some n) : s.exited s.current ≠ true ∧
    ((∃ c, s.call = some c ∧ c.load = n) ∨ s.call = none ∧ s.made s.current = some n) := by
  unfold RunState.program at running
  split at running
  · cases running
  · next alive =>
    refine ⟨alive, ?_⟩
    split at running
    · next c call => exact .inl ⟨c, call, Option.some.inj running⟩
    · next none_ => exact .inr ⟨none_, running⟩

theorem RunInvariant.involved_of_program (inv : RunInvariant s) (running : s.program = some n) :
    s.Involved s.current := by
  rcases (program_cases running).2 with ⟨c, call, -⟩ | ⟨-, made⟩
  · obtain ⟨member, here⟩ := mem_of_call call
    exact here ▸ (inv.callers c member).2
  · exact .inr (by rw [made]; exact Option.some_ne_none n)

/-- A program that is running is not DEAD. -/
theorem RunInvariant.alive (inv : RunInvariant s) (running : s.program = some n) :
    ¬ Dead s.procs.proc s.current := fun dead =>
  (program_cases running).1 (inv.dead _ (inv.involved_of_program running) dead)

/-- Processes change, and no more of those involved are DEAD. -/
theorem RunInvariant.ofProcs {u : ProcRunState} (inv : RunInvariant s)
    (ring : ProcInvariant u.proc u.created) (created : ∀ p ∈ s.procs.created, p ∈ u.created)
    (dead : ∀ p, s.Involved p → Dead u.proc p → Dead s.procs.proc p) :
    RunInvariant { s with procs := u } where
  ring := ring
  shell := created _ inv.shell
  callers := inv.callers
  made := fun p n made => by
    obtain ⟨member, rest⟩ := inv.made p n made
    exact ⟨created p member, rest⟩
  dead := fun p involved now => inv.dead p involved (dead p involved now)

theorem RunInvariant.phase (inv : RunInvariant s) (phase : ShellPhase) :
    RunInvariant { s with phase := phase } :=
  ⟨inv.ring, inv.shell, inv.callers, inv.made, inv.dead⟩

theorem RunInvariant.elfLoad {filename : List Byte} {loaded : Option Word} (inv : RunInvariant s)
    (caller : s.Involved s.current) : RunInvariant (s.elfLoad filename loaded) := by
  cases loaded with
  | none => exact inv
  | some entry =>
      refine ⟨inv.ring, inv.shell, ?_, ?_, inv.dead⟩
      · intro c member
        rcases List.mem_cons.mp member with rfl | old
        · exact ⟨Nat.lt_succ_self _, caller⟩
        · obtain ⟨below, involved⟩ := inv.callers c old
          exact ⟨Nat.lt_succ_of_lt below, involved⟩
      · intro p n made
        obtain ⟨member, other, below, unmade⟩ := inv.made p n made
        refine ⟨member, other, Nat.lt_succ_of_lt below, fun c inside => ?_⟩
        rcases List.mem_cons.mp inside with rfl | old
        · exact Nat.ne_of_gt below
        · exact unmade c old

/-- `process_exit` ends the process that runs. -/
theorem RunInvariant.exit (inv : RunInvariant s) :
    RunInvariant { s with
      procs := ⟨processExit s.procs.proc, s.procs.created⟩
      exited := Function.update s.exited s.current true } where
  ring := inv.ring.exit
  shell := inv.shell
  callers := inv.callers
  made := inv.made
  dead := fun p involved dead => by
    rcases ProcStep.exit.dead_cases inv.ring (inv.member involved) dead with old | ⟨-, rfl⟩
    · have before : s.exited p = true := inv.dead p involved old
      have now := Function.update_apply s.exited s.current true p
      rw [before, ite_self] at now
      exact now
    · exact Function.update_self _ _ _

/-- What is stored beside the PCBs and the variables of the kernel. -/
theorem RunInvariant.put (inv : RunInvariant s) (stores : ProgramStores) :
    RunInvariant (s.put stores) := by
  have ring : ProcInvariant (s.put stores).procs.proc s.procs.created :=
    inv.ring.of_same (.inl rfl) rfl (fun _ => rfl) rfl inv.ring.running
  exact inv.ofProcs ring (fun _ member => member) fun _ _ dead => dead

theorem RunInvariant.syscall {args : CallArgs} {filename : List Byte} {loaded : Option Word}
    {stores : ProgramStores} (inv : RunInvariant s) (running : s.program = some n) :
    RunInvariant (s.syscall args filename loaded stores) := by
  unfold RunState.syscall
  split
  · exact inv.exit
  · split
    · exact inv
    · exact (inv.put stores).elfLoad ((inv.put stores).involved_of_program running)
  · split
    · exact inv
    · exact inv.put stores
  · split
    · exact inv
    · exact inv.put stores
  · exact inv

/-- After the call of an entry point a process was created for the program, or none was. -/
theorem RunInvariant.afterCall {c : EntryCall} {proc : Word} {t : ProcRunState}
    (inv : RunInvariant s) (call : s.call = some c) (fresh : proc ∉ s.procs.created)
    (ring : ProcInvariant t.proc t.created) (created : ∀ p ∈ s.procs.created, p ∈ t.created)
    (dead : ∀ p, p ∈ s.procs.created → Dead t.proc p → Dead s.procs.proc p)
    (new : proc ∈ t.created → ¬ Dead t.proc proc) : RunInvariant (s.afterCall c proc t) := by
  have below := (inv.callers c (mem_of_call call).1).1
  have made_cases : ∀ p n, (s.afterCall c proc t).made p = some n →
      p = proc ∧ proc ∈ t.created ∧ n = c.load ∨ s.made p = some n := by
    intro p n made
    unfold RunState.afterCall at made
    simp only at made
    split at made
    · next given =>
      by_cases here : p = proc
      · rw [here, Function.update_self] at made
        exact .inl ⟨here, given, (Option.some.inj made).symm⟩
      · rw [Function.update_of_ne here] at made
        exact .inr made
    · exact .inr made
  have involved : ∀ p, s.Involved p → (s.afterCall c proc t).Involved p := by
    rintro p (here | made)
    · exact .inl here
    · right
      unfold RunState.afterCall
      simp only
      split
      · by_cases here : p = proc
        · rw [here, Function.update_self]
          exact Option.some_ne_none _
        · rwa [Function.update_of_ne here]
      · exact made
  refine ⟨ring, created _ inv.shell, fun d member => ?_, fun p n made => ?_, fun p inside now => ?_⟩
  · obtain ⟨small, caller⟩ := inv.callers d (List.mem_of_mem_filter member)
    exact ⟨small, involved _ caller⟩
  · rcases made_cases p n made with ⟨rfl, given, rfl⟩ | old
    · refine ⟨given, fun same => fresh (same ▸ inv.shell), below, fun d member => ?_⟩
      exact of_decide_eq_true (List.mem_filter.mp member).2
    · obtain ⟨member, other, small, unmade⟩ := inv.made p n old
      exact ⟨created p member, other, small, fun d inside =>
        unmade d (List.mem_of_mem_filter inside)⟩
  · have old : s.Involved p → s.exited p = true := fun before =>
      inv.dead p before (dead p (inv.member before) now)
    rcases inside with here | notNone
    · exact old (.inl here)
    · obtain ⟨n, made⟩ := Option.ne_none_iff_exists'.mp notNone
      rcases made_cases p n made with ⟨rfl, given, -⟩ | before
      · exact absurd now (new given)
      · exact old (.inr (by rw [before]; exact Option.some_ne_none n))

/-- A process that has just been created is not DEAD. -/
theorem created_not_dead {s t : ProcRunState} {proc stack entry priority : Word}
    {name : List Byte} (inv : ProcInvariant s.proc s.created)
    (step : ProcStep s (.create proc stack entry name priority) t) :
    proc ∉ s.created ∧ (proc ∈ t.created → ¬ Dead t.proc proc) := by
  cases step with
  | create fresh call =>
      rcases inv.created_cases fresh call with ⟨rfl, unjoined⟩ | ⟨rfl, notNull, joined⟩
      · exact ⟨fresh, fun member => absurd member fresh⟩
      · refine ⟨fresh, fun _ dead => ?_⟩
        rw [Dead, joined.state] at dead
        cases dead

/-- **Step lemma.** -/
theorem RunInvariant.step (inv : RunInvariant s) (step : op.exec s = some t) :
    RunInvariant t := by
  cases op with
  | run filename loaded segments =>
      obtain ⟨⟨inShell, -⟩, outcome⟩ := Option.ite_none_right_eq_some.mp step
      cases outcome
      have here : s.current = s.shell := by
        unfold RunState.inShell at inShell
        simp only [Bool.and_eq_true, decide_eq_true_eq] at inShell
        exact inShell.1.1
      exact ((inv.put segments).elfLoad (.inl here)).phase _
  | syscall args filename loaded stores =>
      obtain ⟨⟨running, -⟩, outcome⟩ := Option.ite_none_right_eq_some.mp step
      cases outcome
      obtain ⟨n, running⟩ := Option.ne_none_iff_exists'.mp running
      exact inv.syscall running
  | store stores =>
      obtain ⟨-, outcome⟩ := Option.ite_none_right_eq_some.mp step
      cases outcome
      exact inv.put stores
  | ret proc stack =>
      obtain ⟨-, outcome⟩ := Option.ite_none_left_eq_some.mp step
      obtain ⟨c, call, outcome⟩ := Option.bind_eq_some_iff.mp outcome
      obtain ⟨u, created, rfl⟩ := Option.map_eq_some_iff.mp outcome
      have create := ProcStep.of_exec created
      obtain ⟨fresh, new⟩ := created_not_dead inv.ring create
      apply inv.afterCall call fresh (inv.ring.step create) (fun _ => create.mem_created) _ new
      intro p member dead
      exact (create.dead_cases inv.ring member dead).resolve_right fun both => by cases both.1
  | wait =>
      obtain ⟨-, outcome⟩ := Option.ite_none_right_eq_some.mp step
      obtain ⟨n, -, rfl⟩ := Option.map_eq_some_iff.mp outcome
      exact inv.phase _
  | tick esp =>
      cases step
      exact inv.ofProcs (inv.ring.tick esp) (fun _ member => member) fun p _ dead =>
        dead_of_tick dead
  | process op =>
      obtain ⟨⟨notShell, unmade, call⟩, outcome⟩ := Option.ite_none_right_eq_some.mp step
      obtain ⟨u, made, rfl⟩ := Option.map_eq_some_iff.mp outcome
      have step := ProcStep.of_exec made
      apply inv.ofProcs (inv.ring.step step) fun _ => step.mem_created
      intro p involved dead
      apply (step.dead_cases inv.ring (inv.member involved) dead).resolve_right
      -- the process that executes `process_exit` is neither the shell nor a program
      rintro ⟨-, rfl⟩
      rcases involved with here | notNone
      · exact notShell here
      · exact notNone unmade

/-! ## Whom an exit ends -/

theorem program_of_exits (at_ : exits ⟨s, op, t⟩ = some n) : s.program = some n ∧
    ∃ args filename loaded stores, op = .syscall args filename loaded stores ∧
      syscallCase args.eax = .exit := by
  unfold exits at at_
  cases op with
  | syscall args filename loaded stores =>
      obtain ⟨exit, running⟩ := Option.ite_none_right_eq_some.mp at_
      exact ⟨running, args, filename, loaded, stores, rfl, exit⟩
  | _ => cases at_

/-- `SYS_EXIT` makes the current process DEAD. -/
theorem RunInvariant.dead_of_exits (inv : RunInvariant s) (step : op.exec s = some t)
    (at_ : exits ⟨s, op, t⟩ = some n) :
    t.procs = ⟨processExit s.procs.proc, s.procs.created⟩ ∧ s.current ∈ s.procs.created ∧
      Dead t.procs.proc s.current := by
  obtain ⟨running, args, filename, loaded, stores, rfl, exit⟩ := program_of_exits at_
  have member := inv.member (inv.involved_of_program running)
  have some_ : s.procs.proc.currentProcess ≠ 0#32 := fun null =>
    inv.ring.notNull (null ▸ member)
  obtain ⟨-, outcome⟩ := Option.ite_none_right_eq_some.mp step
  have after : t.procs = ⟨processExit s.procs.proc, s.procs.created⟩ := by
    cases outcome
    simp only [RunState.syscall, exit]
  refine ⟨after, member, ?_⟩
  have current : s.current = s.procs.proc.currentProcess := rfl
  rw [after, Dead, processExit, if_neg some_, current, setPcb_pcb_self]

theorem elfLoad_procs (filename : List Byte) (loaded : Option Word) (s : RunState) :
    (s.elfLoad filename loaded).procs = s.procs := by
  cases loaded <;> rfl

/-- Any other step leaves the PCBs alone or is an operation on processes, and an exit only of
a process other than the shell. -/
theorem RunOp.procs_cases (step : op.exec s = some t) (none_ : exits ⟨s, op, t⟩ = none) :
    t.procs.proc.pcb = s.procs.proc.pcb ∨
      ∃ op', ProcStep s.procs op' t.procs ∧ (op' = .exit → s.current ≠ s.shell) := by
  cases op with
  | run filename loaded segments =>
      obtain ⟨-, outcome⟩ := Option.ite_none_right_eq_some.mp step
      cases outcome
      left
      rw [elfLoad_procs]
      rfl
  | syscall args filename loaded stores =>
      obtain ⟨⟨running, -⟩, outcome⟩ := Option.ite_none_right_eq_some.mp step
      cases outcome
      left
      unfold RunState.syscall
      split
      · next exit =>
        have program : s.program = none := (if_pos exit).symm.trans none_
        exact absurd program running
      · split
        · rfl
        · rw [elfLoad_procs]
          rfl
      · split <;> rfl
      · split <;> rfl
      · rfl
  | store stores =>
      obtain ⟨-, outcome⟩ := Option.ite_none_right_eq_some.mp step
      cases outcome
      exact .inl rfl
  | ret proc stack =>
      obtain ⟨-, outcome⟩ := Option.ite_none_left_eq_some.mp step
      obtain ⟨c, -, outcome⟩ := Option.bind_eq_some_iff.mp outcome
      obtain ⟨u, created, rfl⟩ := Option.map_eq_some_iff.mp outcome
      exact .inr ⟨_, .of_exec created, fun other => by cases other⟩
  | wait =>
      obtain ⟨-, outcome⟩ := Option.ite_none_right_eq_some.mp step
      obtain ⟨n, -, rfl⟩ := Option.map_eq_some_iff.mp outcome
      exact .inl rfl
  | tick esp =>
      cases step
      exact .inr ⟨_, .tick, fun other => by cases other⟩
  | process op =>
      obtain ⟨⟨notShell, -, -⟩, outcome⟩ := Option.ite_none_right_eq_some.mp step
      obtain ⟨u, made, rfl⟩ := Option.map_eq_some_iff.mp outcome
      exact .inr ⟨op, .of_exec made, fun _ => notShell⟩

/-- Any other step leaves the shell alive. -/
theorem RunInvariant.shell_alive (inv : RunInvariant s) (step : op.exec s = some t)
    (none_ : exits ⟨s, op, t⟩ = none) (dead : Dead t.procs.proc s.shell) :
    Dead s.procs.proc s.shell := by
  rcases RunOp.procs_cases step none_ with same | ⟨op', step', notShell⟩
  · unfold Dead at dead ⊢
    rwa [same] at dead
  · rcases step'.dead_cases inv.ring inv.shell dead with before | ⟨exit, here⟩
    · exact before
    · exact absurd here.symm (notShell exit)

/-- A step is as it should be unless a program executes `SYS_EXIT` while `elf_load` has
not got its call of the entry point back. -/
theorem RunInvariant.exitsAlone_iff (inv : RunInvariant s) (step : op.exec s = some t) :
    ExitsAlone ⟨s, op, t⟩ ↔ ∀ n, exits ⟨s, op, t⟩ = some n → s.call = none := by
  constructor
  · intro alone n at_
    have running := (program_of_exits at_).1
    obtain ⟨-, member, dead⟩ := inv.dead_of_exits step at_
    rcases (program_cases running).2 with ⟨c, call, load⟩ | ⟨none_, -⟩
    · rcases alone.own n at_ s.current member dead with before | made
      · exact absurd before (inv.alive running)
      · have unmade := (inv.made s.current n made).2.2.2 c (mem_of_call call).1
        exact absurd load unmade
    · exact none_
  · intro outside
    cases at_ : exits ⟨s, op, t⟩ with
    | none => exact ⟨inv.shell_alive step at_, fun n other => by rw [at_] at other; cases other⟩
    | some n =>
        have running := (program_of_exits at_).1
        obtain ⟨after, -, -⟩ := inv.dead_of_exits step at_
        have made : s.made s.current = some n := by
          rcases (program_cases running).2 with ⟨c, call, -⟩ | ⟨-, made⟩
          · rw [outside n at_] at call
            cases call
          · exact made
        have marks : ∀ p ∈ s.procs.created, Dead t.procs.proc p →
            Dead s.procs.proc p ∨ p = s.current := by
          intro p member dead
          rw [after] at dead
          exact (ProcStep.exit.dead_cases inv.ring member dead).imp_right And.right
        constructor
        · intro dead
          rcases marks s.shell inv.shell dead with before | here
          · exact before
          · exact absurd here.symm (inv.made s.current n made).2.1
        · intro m same p member dead
          rw [at_] at same
          cases same
          rcases marks p member dead with before | rfl
          · exact .inl before
          · exact .inr made

theorem runInvariant_init {s : ProcRunState} (ring : ProcInvariant s.proc s.created)
    (some_ : s.proc.currentProcess ≠ 0#32) (alive : ¬ Dead s.proc s.proc.currentProcess) :
    RunInvariant (runInit s) where
  ring := ring
  shell := ring.current_mem some_
  callers := fun _ member => absurd member List.not_mem_nil
  made := fun _ _ made => by cases made
  dead := fun p involved dead => by
    rcases involved with rfl | notNone
    · exact absurd dead alive
    · exact absurd rfl notNone

/-- In every run from a ring of which the shell is the current process, and in which nothing is
stored to memory of the kernel, no step makes the shell DEAD and every `SYS_EXIT` only a
process that `elf_load` created for the program, exactly if no program executes `SYS_EXIT`
while the call of its entry point by `elf_load` has not returned. -/
theorem exits_alone_iff {q : ProcState} {s : ProcRunState}
    {tr₀ : List (Sys.Event ProcRunState ProcOp)} {tr : List RunEvent}
    (reach : Sys.Run ProcStep (procInit q) tr₀ s)
    (some_ : s.proc.currentProcess ≠ 0#32) (alive : ¬ Dead s.proc s.proc.currentProcess)
    (run : Sys.Run RunStep (runInit s) tr t) (spares : ∀ e ∈ tr, e.op.Spares e.pre) :
    (∀ e ∈ tr, ExitsAlone e) ↔ ∀ e ∈ tr, ∀ n, exits e = some n → e.pre.call = none := by
  have start := runInvariant_init ((procInvariant_init q).run reach) some_ alive
  have along := (run.invariant_of_guard (G := fun s op => op.Spares s) start spares
    fun inv spared step => inv.step (step spared)).2
  have each : ∀ e ∈ tr, (ExitsAlone e ↔ ∀ n, exits e = some n → e.pre.call = none) := by
    intro e member
    obtain ⟨-, -, -, -, step, -⟩ := run.split member
    exact (along e member).1.exitsAlone_iff (step (spares e member))
  exact forall₂_congr each

/-- A property of a run of the shell, which is the only process, can be computed. -/
theorem exists_shell_run {P : List RunEvent → RunState → Prop} [∀ tr t, Decidable (P tr t)]
    (ops : List RunOp)
    (computed : ((Sys.exec ProcOp.exec (procInit blankProc)
        [.create 0x20000D#32 0x20005A#32 0x101000#32 [0x41#8] 1#32, .start]).any fun r =>
      decide (r.2.proc.currentProcess ≠ 0#32 ∧ ¬ Dead r.2.proc r.2.proc.currentProcess ∧
        ((Sys.exec RunOp.exec (runInit r.2) ops).any fun r' => decide (P r'.1 r'.2)) = true)) =
          true) :
    ∃ tr₀ s tr t, Sys.Run ProcStep (procInit blankProc) tr₀ s ∧
      s.proc.currentProcess ≠ 0#32 ∧ ¬ Dead s.proc s.proc.currentProcess ∧
      Sys.Run RunStep (runInit s) tr t ∧ P tr t := by
  rcases exists_run (P := fun s => s.proc.currentProcess ≠ 0#32 ∧
      ¬ Dead s.proc s.proc.currentProcess ∧
      ((Sys.exec RunOp.exec (runInit s) ops).any fun r => decide (P r.1 r.2)) = true)
    _ computed with ⟨tr₀, s, reach, some_, alive, computed⟩
  have sound : ∀ {s op t}, RunOp.exec s op = some t → RunStep s op t := fun outcome _ => outcome
  obtain ⟨tr, t, run, holds⟩ := Sys.Run.exists_trace_of_exec (P := P) ops sound computed
  exact ⟨tr₀, s, tr, t, reach, some_, alive, run, holds⟩

/-- A call with this number, by a program that stores nothing. -/
def quietCall (eax : Word) : RunOp := .syscall ⟨eax, 0#32, 0#32, 0#32⟩ [] none ⟨[], 0#32, 0⟩

/-- A program that is loaded at 0x400000, reads two characters there and returns, and executes
`SYS_EXIT` when its process is current: the exit ends this process. -/
theorem exits_alone_iff_returned :
    ∃ tr₀ s tr t, Sys.Run ProcStep (procInit blankProc) tr₀ s ∧
      Sys.Run RunStep (runInit s) tr t ∧ t.made 0x204067#32 = some 0 ∧
      Dead t.procs.proc 0x204067#32 ∧ ∀ e ∈ tr, ExitsAlone e := by
  rcases exists_shell_run
      (P := fun tr t => t.made 0x204067#32 = some 0 ∧ Dead t.procs.proc 0x204067#32 ∧
        ∀ e ∈ tr, (exits e = none ∨ e.pre.call.isNone = true) ∧
          (e.op.stores.bytes.all fun b => ¬ e.pre.Guards e.op.stores.frames b.1) = true)
      ([.run [0x42#8] (some 0x400000#32) ⟨[(0x400000#32, 0xC3#8)], 0#32, 0⟩,
        .syscall ⟨3#32, 0x400010#32, 8#32, 0#32⟩ [] none
          ⟨[(0x400010#32, 0x68#8), (0x400011#32, 0#8)], 0#32, 0⟩,
        .ret 0x204067#32 0x2040B4#32, .wait] ++
        List.replicate 5 (.tick 0x20400D#32) ++ [quietCall 1#32])
      (by decide +kernel) with
    ⟨tr₀, s, tr, t, reach, some_, alive, run, made, dead, outside⟩
  have spares : ∀ e ∈ tr, e.op.Spares e.pre := by
    intro e member b stored
    exact of_decide_eq_true (List.all_eq_true.mp (outside e member).2 b stored)
  refine ⟨tr₀, s, tr, t, reach, run, made, dead,
    (exits_alone_iff reach some_ alive run spares).mpr ?_⟩
  intro e member n at_
  rcases (outside e member).1 with none_ | none_
  · rw [none_] at at_
    cases at_
  · exact Option.isNone_iff_eq_none.mp none_

/-- A program that executes `SYS_EXIT` makes the shell DEAD. -/
theorem exit_ends_shell :
    ∃ tr₀ s tr t, Sys.Run ProcStep (procInit blankProc) tr₀ s ∧
      s.proc.currentProcess ≠ 0#32 ∧ ¬ Dead s.proc s.proc.currentProcess ∧
      Sys.Run RunStep (runInit s) tr t ∧ (∀ e ∈ tr, e.op.stores.bytes = []) ∧
      Dead t.procs.proc t.shell ∧ ¬ ∀ e ∈ tr, ExitsAlone e := by
  rcases exists_shell_run
      (P := fun tr t => (∀ e ∈ tr, e.op.stores.bytes.isEmpty = true) ∧ Dead t.procs.proc t.shell ∧
        ∃ e ∈ tr, Dead e.post.procs.proc e.pre.shell ∧ ¬ Dead e.pre.procs.proc e.pre.shell)
      [.run [0x42#8] (some 0x400000#32) ⟨[], 0#32, 0⟩, quietCall 1#32] (by decide +kernel) with
    ⟨tr₀, s, tr, t, reach, some_, alive, run, nothing, shell, e, member, dead, before⟩
  exact ⟨tr₀, s, tr, t, reach, some_, alive, run,
    fun e member => List.isEmpty_iff.mp (nothing e member), shell, fun all =>
    before ((all e member).shell dead)⟩

end Learnix
