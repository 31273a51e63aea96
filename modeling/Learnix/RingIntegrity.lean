import Learnix.ProcessRing

/-!
# The process ring in every run

In every state that a run of process operations reaches, the list through
`next` is one ring of the processes created so far, numbered from 1, and every
loop of `process.c` over it ends after visiting each process once
(`process_ring`). Only the current process is running, and a tick that switches
leaves it so (`running_current`).
-/

namespace Learnix

open Machine CircularList

variable {s : ProcState} {others created : List Word}

/-- The ring as the loops of `process.c` see it: `others` are the processes after the
current one, in ring order. -/
structure RingIntegrity (s : ProcState) (created others : List Word) : Prop where
  ring : IsRing s.next s.currentProcess others
  members : (s.currentProcess :: others).Perm created
  last : findLast s pointerSpace s.currentProcess =
    some ((s.currentProcess :: others).getLast (List.cons_ne_nil _ _))
  printed : processPrintAll s = some ((s.currentProcess :: others).map s.pcb)
  alive : processCountAlive s =
    some ((s.currentProcess :: others).countP fun p => (s.pcb p).state ≠ .dead)
  active : processCountActive s =
    some ((s.currentProcess :: others).countP fun p =>
      (s.pcb p).state = .ready ∨ (s.pcb p).state = .running)
  blocked : ∃ s', processBlockOthers s = some s' ∧ ∀ p, s'.pcb p =
    if p ∈ others ∧ (s.pcb p).state ≠ .dead then { s.pcb p with state := .blocked }
    else s.pcb p

theorem ringIntegrity (some_ : s.currentProcess ≠ 0#32)
    (ring : IsRing s.next s.currentProcess others)
    (members : (s.currentProcess :: others).Perm created) : RingIntegrity s created others := by
  obtain ⟨once, nodup⟩ := List.nodup_cons.mp ring.nodup
  have enough : others.length < pointerSpace := length_le_pointerSpace ring.nodup
  have counts : ∀ counted : ProcessState → Bool, countProcesses counted s =
      some ((s.currentProcess :: others).countP fun p => counted (s.pcb p).state) := by
    intro counted
    rw [countProcesses, if_neg some_, countLoop_path ring.path once enough, Nat.zero_add]
  exact {
    ring := ring
    members := members
    last := findLast_path ring.path once enough
    printed := (if_neg some_).trans (printLoop_path ring.path once enough)
    alive := counts _
    active := counts _
    blocked := ⟨_, (if_neg some_).trans (blockOthersLoop_path ring.path once enough),
      (foldl_blockAlive nodup s).2.2⟩ }

/-- The pids are the numbers from 1 on; there are fewer than 2^32 processes. -/
theorem ProcInvariant.pids_eq (inv : ProcInvariant s created) :
    created.length < 2 ^ 32 ∧
      created.map (fun p => (s.pcb p).pid.toNat) = List.range' 1 created.length := by
  have few : created.length < 2 ^ 32 :=
    length_le_pointerSpace (List.nodup_cons.mpr ⟨inv.notNull, inv.nodup⟩)
  refine ⟨few, ?_⟩
  have pids := congrArg (List.map BitVec.toNat) inv.pids
  rw [List.map_map, List.map_map] at pids
  rw [List.range'_eq_map_range]
  refine Eq.trans pids (List.map_congr_left fun i member => ?_)
  have below := List.mem_range.mp member
  rw [Function.comp_apply, BitVec.toNat_ofNat, Nat.mod_eq_of_lt (by omega), Nat.add_comm]

/-- In every run the processes created so far form one ring through the current
process, every loop over it visits each of them once, their pids are `1` to their
number, and a new process is put in as the last one. -/
theorem process_ring {s : ProcState} {t : ProcRunState} {tr : List (Sys.Event ProcRunState ProcOp)}
    (run : Sys.Run ProcStep (procInit s) tr t) :
    (t.proc.currentProcess = 0#32 → t.created = []) ∧
      (t.proc.currentProcess ≠ 0#32 → ∃ others, RingIntegrity t.proc t.created others) ∧
      t.created.map (fun p => (t.proc.pcb p).pid.toNat) = List.range' 1 t.created.length ∧
      ∀ proc stack entry name priority, proc ∉ t.created →
        ∃ r s' h, processCreate answering entry name priority t.proc [proc, stack] =
            some (r, s', h) ∧
          (r = 0#32 → s'.currentProcess = t.proc.currentProcess ∧
            ∀ q ∈ t.created, s'.pcb q = t.proc.pcb q) ∧
          (r ≠ 0#32 → r = proc ∧
            (t.proc.currentProcess = 0#32 → s'.currentProcess = r ∧ IsRing s'.next r []) ∧
            (t.proc.currentProcess ≠ 0#32 → s'.currentProcess = t.proc.currentProcess ∧
              ∀ others, IsRing t.proc.next t.proc.currentProcess others →
                IsRing s'.next t.proc.currentProcess (others ++ [r]))) := by
  have inv := (procInvariant_init s).run run
  refine ⟨inv.created_eq_nil, fun some_ => ?_, inv.pids_eq.2,
    fun proc stack entry name priority fresh => ?_⟩
  · obtain ⟨others, ring, perm, -⟩ := inv.exists_ring some_
    exact ⟨others, ringIntegrity some_ ring perm⟩
  · obtain ⟨r, s', h, call, outcome⟩ := inv.processCreate fresh stack entry name priority
    refine ⟨r, s', h, call, fun failed => ?_, fun succeeded => ?_⟩
    · rcases outcome with ⟨-, -, unjoined⟩ | ⟨rfl, notNull, -⟩
      · exact ⟨unjoined.currentProcess, fun q member =>
          unjoined.kept q fun eq => fresh (eq ▸ member)⟩
      · exact absurd failed notNull
    · rcases outcome with ⟨null, -⟩ | ⟨rfl, -, joined⟩
      · exact absurd null succeeded
      · exact ⟨rfl, joined.first, joined.ring⟩

/-- The variables of the two files before `process_init`. -/
def blankProc : ProcState :=
  ⟨fun _ => ⟨0#32, .ready, 0#32, 0#32, 0#32, [], 0#32, 0#32, 0#32⟩, fun _ => 0#8, 0#32, 0#32,
    0#32, false⟩

/-- A run that creates a first process. -/
theorem exists_run_create {proc stack : Word} (notNull : proc ≠ 0#32) (given : stack ≠ 0#32)
    (entry : Word) (name : List Byte) (priority : Word) :
    ∃ s', Sys.Run ProcStep (procInit blankProc)
        [⟨procInit blankProc, .create proc stack entry name priority, ⟨s', [proc]⟩⟩] ⟨s', [proc]⟩ ∧
      s'.currentProcess = proc := by
  obtain ⟨s', step, joined⟩ := (procInvariant_init blankProc).exists_create
    (List.not_mem_nil : proc ∉ []) notNull given entry name priority
  exact ⟨s', .snoc .nil step, (joined.first rfl).1⟩

/-- The shell and a program of low priority each, and the scheduler started. -/
def twoProcesses : List ProcOp :=
  [.create 0x20000D#32 0x20005A#32 0x101000#32 [0x41#8] 1#32,
    .create 0x204067#32 0x2040B4#32 0x102000#32 [0x42#8] 1#32, .start]

/-- A property of the state that the operations `ops` lead to is one of a run. -/
theorem exists_run {P : ProcRunState → Prop} [DecidablePred P] (ops : List ProcOp)
    (computed : ((Sys.exec ProcOp.exec (procInit blankProc) ops).any
      fun r => decide (P r.2)) = true) :
    ∃ tr t, Sys.Run ProcStep (procInit blankProc) tr t ∧ P t :=
  Sys.Run.exists_of_exec ops ProcStep.of_exec computed

theorem process_ring_first :
    ∃ s', Sys.Run ProcStep (procInit blankProc)
        [⟨procInit blankProc, .create 0x20000D#32 0x20005A#32 0x101000#32 [0x41#8] 2#32,
          ⟨s', [0x20000D#32]⟩⟩] ⟨s', [0x20000D#32]⟩ ∧
      (s'.pcb 0x20000D#32).pid.toNat = 1 ∧
      ∃ others, RingIntegrity s' [0x20000D#32] others := by
  obtain ⟨s', run, current⟩ := exists_run_create (by decide : 0x20000D#32 ≠ 0#32)
    (by decide : 0x20005A#32 ≠ 0#32) 0x101000#32 [0x41#8] 2#32
  obtain ⟨-, ring, pids, -⟩ := process_ring run
  refine ⟨s', run, (List.cons.inj pids).1, ring ?_⟩
  simp only [current]
  decide

/-! ## The running process -/

/-- A tick that switches makes the process it goes to the running one, and the one it
leaves ready. -/
theorem schedulerTick_switched {esp : Word}
    (moved : (schedulerTick esp s).2.currentProcess ≠ s.currentProcess) :
    ((schedulerTick esp s).2.pcb (schedulerTick esp s).2.currentProcess).state = .running ∧
      ((schedulerTick esp s).2.pcb s.currentProcess).state = .ready := by
  generalize call : schedulerTick esp s = r at moved ⊢
  cases Ticked.of_call call with
  | idle _ => exact absurd rfl moved
  | counted _ _ => exact absurd rfl moved
  | kept _ _ _ => exact absurd rfl moved
  | switched _ _ other _ =>
      have left : s.currentProcess ≠ landing s := Ne.symm other
      constructor
      · exact switchTo_state.trans (if_pos rfl)
      · exact switchTo_state.trans ((if_neg left).trans (if_pos rfl))

/-- In every run no process but the current one is running, and after each tick that
switches the current process is running and the one it left is not. -/
theorem running_current {s : ProcState} {t : ProcRunState}
    {tr : List (Sys.Event ProcRunState ProcOp)} (run : Sys.Run ProcStep (procInit s) tr t) :
    (∀ p ∈ t.created, p ≠ t.proc.currentProcess → (t.proc.pcb p).state ≠ .running) ∧
      ∀ e ∈ tr, ∀ esp, e.op = .tick esp →
        e.post.proc.currentProcess ≠ e.pre.proc.currentProcess →
          (e.post.proc.pcb e.post.proc.currentProcess).state = .running ∧
            (e.post.proc.pcb e.pre.proc.currentProcess).state ≠ .running := by
  have inv := (procInvariant_init s).run run
  constructor
  · intro p member other running
    exact other (inv.running p member running)
  · intro e member esp op moved
    rcases run.split member with ⟨-, -, -, -, step, -⟩
    obtain ⟨pre, op', post⟩ := e
    dsimp only at op step moved ⊢
    subst op
    cases step with
    | tick =>
        rcases schedulerTick_switched moved with ⟨running, ready⟩
        refine ⟨running, ?_⟩
        rw [ready]
        decide

/-- The shell gives way to the program at the fifth tick. -/
theorem running_current_second :
    ∃ tr t, Sys.Run ProcStep (procInit blankProc) tr t ∧
      t.proc.currentProcess = 0x204067#32 ∧ (t.proc.pcb 0x204067#32).state = .running ∧
      (t.proc.pcb 0x20000D#32).state ≠ .running := by
  rcases exists_run (P := fun t => 0x20000D#32 ∈ t.created ∧
      t.proc.currentProcess = 0x20000D#32 ∧
      (schedulerTick 0#32 t.proc).2.currentProcess = 0x204067#32)
    (twoProcesses ++ List.replicate 4 (.tick 0#32)) (by decide +kernel)
    with ⟨tr, t, run, member, first, second⟩
  have step : ProcStep t (.tick 0#32) ⟨(schedulerTick 0#32 t.proc).2, t.created⟩ := .tick
  have later := run.snoc step
  have moved : (schedulerTick 0#32 t.proc).2.currentProcess ≠ t.proc.currentProcess := by
    rw [first, second]
    decide
  have switch := (running_current later).2 _ (List.mem_append_right _ (List.mem_singleton_self _))
    0#32 rfl moved
  refine ⟨_, _, later, second, second ▸ switch.1, ?_⟩
  exact (running_current later).1 _ member (by rw [second]; decide)

end Learnix
