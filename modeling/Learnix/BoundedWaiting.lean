import Learnix.ProcessorTime
import Learnix.Scheduling

/-!
# Bounded waiting

A READY process waits for the rest of the turn of the current process and for one turn
of each process between them on the ring (`waitTicks`). Ticks use this up, and nothing
else that happens meanwhile adds to it: a new process is put in behind all others. So no
process that stays READY is passed over for longer (`bounded_waiting`), as long as the
ring has no more processes than the skip loop can see.
-/

namespace Learnix

open Machine CircularList

/-- The ticks that a turn of `p` takes at most. -/
def turnTicks (s : ProcState) (p : Word) : Nat := max 1 (s.pcb p).ticksQuantum.toNat

/-- The ticks that are left of the turn of the current process. -/
def ticksLeft (s : ProcState) : Nat :=
  max 1 ((s.pcb s.currentProcess).ticksQuantum.toNat - s.tickCount.toNat)

/-- The ticks that come before the turn of the process behind `before` on the ring. -/
def waitTicks (s : ProcState) (before : List Word) : Nat :=
  ticksLeft s + (before.map (turnTicks s)).sum

/-- `p` is current, or has at most `n` ticks to wait. -/
inductive Waits (p : Word) (s : ProcState) : Nat → Prop
  | here : s.currentProcess = p → Waits p s 0
  | behind {before after : List Word} :
    IsRing s.next s.currentProcess (before ++ p :: after) → Waits p s (waitTicks s before)

/-- The tick counter is within the quantum that it measures. -/
def CountWithin (s : ProcState) : Prop :=
  s.tickCount = 0#32 ∨
    s.currentProcess ≠ 0#32 ∧ s.tickCount < (s.pcb s.currentProcess).ticksQuantum

variable {q : ProcState} {s t u : ProcRunState} {op : ProcOp} {p esp : Word}
  {tr later : List ProcEvent} {before after : List Word}

theorem ticksLeft_pos (s : ProcState) : 0 < ticksLeft s :=
  Nat.lt_of_lt_of_le Nat.one_pos (Nat.le_max_left _ _)

/-! ## The tick counter -/

theorem countWithin_tick (within : CountWithin s.proc) (esp : Word) :
    CountWithin (schedulerTick esp s.proc).2 := by
  have quantum : ∀ p, ((schedulerTick esp s.proc).2.pcb p).ticksQuantum =
      (s.proc.pcb p).ticksQuantum := fun p =>
    schedulerTick_field Pcb.ticksQuantum fun _ _ _ _ => rfl
  generalize call : schedulerTick esp s.proc = r at quantum
  cases Ticked.of_call call with
  | idle _ => exact within
  | counted active under =>
      refine .inr ⟨active.2, ?_⟩
      rw [quantum]
      exact not_not.mp under
  | kept _ _ _ => exact .inl rfl
  | switched _ _ _ _ => exact .inl rfl

theorem CountWithin.step (within : CountWithin s.proc) (inv : ProcInvariant s.proc s.created)
    (step : ProcStep s op t) : CountWithin t.proc := by
  by_cases tick : op.isTick = true
  · cases step with
    | tick => exact countWithin_tick within _
    | _ => cases tick
  · have unticked := step.unticked inv (by simpa using tick)
    rcases within with zero | ⟨some_, below⟩
    · exact .inl (unticked.tickCount.trans zero)
    · have current := unticked.currentProcess some_
      rcases unticked.kept _ (inv.current_mem some_) with ⟨state, next, pcb⟩
      refine .inr ⟨current ▸ some_, ?_⟩
      rw [unticked.tickCount, current, pcb]
      exact below

/-- The counter does not wrap around while the quantum is not used up. -/
theorem CountWithin.toNat_succ (within : CountWithin s.proc) :
    (s.proc.tickCount + 1#32).toNat = s.proc.tickCount.toNat + 1 := by
  have bound : s.proc.tickCount.toNat + 1 < 2 ^ 32 := by
    rcases within with zero | ⟨-, below⟩
    · rw [zero]
      decide
    · have quantum := (s.proc.pcb s.proc.currentProcess).ticksQuantum.isLt
      rw [BitVec.lt_def] at below
      omega
  rw [BitVec.toNat_add, BitVec.toNat_ofNat]
  exact Nat.mod_eq_of_lt bound

/-! ## What happens while a process waits -/

/-- Other operations leave the wait as it is. -/
theorem Waits.unticked {n : Nat} (waits : Waits p s.proc n) (some_ : s.proc.currentProcess ≠ 0#32)
    (inv : ProcInvariant s.proc s.created) (unticked : Unticked s t) : Waits p t.proc n := by
  have current := unticked.currentProcess some_
  cases waits with
  | here here => exact .here (current.trans here)
  | @behind before after ring =>
      rcases inv.exists_ring some_ with ⟨others, around, perm, -⟩
      rw [around.unique ring] at perm
      have quantum : ∀ x ∈ s.proc.currentProcess :: (before ++ p :: after),
          (t.proc.pcb x).ticksQuantum = (s.proc.pcb x).ticksQuantum := by
        intro x member
        rcases unticked.kept x (perm.mem_iff.mp member) with ⟨state, next, pcb⟩
        rw [pcb]
      have left : ticksLeft t.proc = ticksLeft s.proc := by
        rw [ticksLeft, ticksLeft, current, unticked.tickCount, quantum _ List.mem_cons_self]
      have turns : before.map (turnTicks t.proc) = before.map (turnTicks s.proc) :=
        List.map_congr_left fun x member => by
          rw [turnTicks, turnTicks, quantum x
            (List.mem_cons_of_mem _ (List.mem_append_left _ member))]
      have same : waitTicks t.proc before = waitTicks s.proc before := by
        rw [waitTicks, waitTicks, left, turns]
      rcases unticked.ring some_ _ ring with ⟨new, grown⟩
      rw [List.append_assoc, List.cons_append, ← current] at grown
      exact same ▸ .behind grown

/-- A tick in the middle of a turn uses up one unit of the wait. -/
theorem waitTicks_countTick (within : CountWithin s.proc) (under : ¬ QuantumUsed s.proc)
    (before : List Word) : 1 + waitTicks (countTick s.proc) before = waitTicks s.proc before := by
  have quantum : ∀ p, ((countTick s.proc).pcb p).ticksQuantum = (s.proc.pcb p).ticksQuantum :=
    fun p => countTick_field Pcb.ticksQuantum fun _ _ => rfl
  have turns : before.map (turnTicks (countTick s.proc)) = before.map (turnTicks s.proc) :=
    List.map_congr_left fun x _ => by rw [turnTicks, turnTicks, quantum]
  have below := not_not.mp under
  have next := within.toNat_succ
  have left : 1 + ticksLeft (countTick s.proc) = ticksLeft s.proc := by
    show 1 + max 1 (((countTick s.proc).pcb s.proc.currentProcess).ticksQuantum.toNat -
      (s.proc.tickCount + 1#32).toNat) = _
    rw [BitVec.lt_def, next] at below
    rw [quantum, next, ticksLeft]
    omega
  rw [waitTicks, waitTicks, turns, ← left, Nat.add_assoc]

/-- On the ring, the processes before a READY one that are not READY themselves are skipped. -/
theorem landing_first (inv : ProcInvariant s.proc s.created) (some_ : s.proc.currentProcess ≠ 0#32)
    (ring : IsRing s.proc.next s.proc.currentProcess (before ++ p :: after))
    (none_ : ∀ x ∈ before, ¬ Ready s.proc x) (ready : Ready s.proc p)
    (near : before.length ≤ maxProcesses) : landing s.proc = p := by
  rcases inv.exists_ring some_ with ⟨others, around, perm, -⟩
  rw [around.unique ring] at perm
  refine skipLoop_path (path_append.mp ring.path).1 (fun x member => ?_) ready.not_skipped near
  have there : x ∈ before ++ p :: after := List.mem_append_left _ member
  have other : x ≠ s.proc.currentProcess := fun eq =>
    (List.nodup_cons.mp ring.nodup).1 (eq ▸ there)
  have notRunning := mt (inv.running x (perm.mem_iff.mp (List.mem_cons_of_mem _ there))) other
  have notReady := none_ x member
  unfold Ready at notReady
  unfold Skipped
  cases state : (s.proc.pcb x).state with
  | ready => exact absurd state notReady
  | running => exact absurd state notRunning
  | blocked => exact .inr rfl
  | dead => exact .inl rfl

/-- A switch to the process behind `skipped` leaves the turns of those behind it to wait for. -/
theorem waitTicks_switch {skipped rest : List Word} {x : Word} {s' : ProcState}
    (quantum : ∀ y, (s'.pcb y).ticksQuantum = (s.proc.pcb y).ticksQuantum)
    (current : s'.currentProcess = x) (fresh : s'.tickCount = 0#32) :
    1 + waitTicks s' rest ≤ waitTicks s.proc (skipped ++ x :: rest) := by
  have turns : rest.map (turnTicks s') = rest.map (turnTicks s.proc) :=
    List.map_congr_left fun y _ => by rw [turnTicks, turnTicks, quantum]
  have left : ticksLeft s' = turnTicks s.proc x := by
    rw [ticksLeft, turnTicks, current, fresh, quantum]
    rfl
  have pos := ticksLeft_pos s.proc
  rw [waitTicks, waitTicks, turns, left, List.map_append, List.sum_append, List.map_cons,
    List.sum_cons]
  omega

/-- **Step lemma.** A tick takes one unit from the wait of a READY process that the skip loop
can see. -/
theorem Waits.tick {n : Nat} (waits : Waits p s.proc n) (other : s.proc.currentProcess ≠ p)
    (inv : ProcInvariant s.proc s.created) (within : CountWithin s.proc) (active : Active s.proc)
    (ready : Ready s.proc p) (few : s.created.length ≤ maxProcesses + 2) (esp : Word) :
    ∃ k, Waits p (schedulerTick esp s.proc).2 k ∧ 1 + k ≤ n := by
  cases waits with
  | here here => exact absurd here other
  | @behind before after ring =>
      rcases inv.exists_ring active.2 with ⟨others, around, perm, -⟩
      rw [around.unique ring] at perm
      have near : before.length ≤ maxProcesses := by
        have size := perm.length_eq
        rw [List.length_cons, List.length_append, List.length_cons] at size
        omega
      have next : (schedulerTick esp s.proc).2.next = s.proc.next :=
        funext fun x => schedulerTick_field Pcb.next fun _ _ _ _ => rfl
      have quantum : ∀ x, ((schedulerTick esp s.proc).2.pcb x).ticksQuantum =
          (s.proc.pcb x).ticksQuantum := fun x =>
        schedulerTick_field Pcb.ticksQuantum fun _ _ _ _ => rfl
      by_cases used : QuantumUsed s.proc
      · have moves (notDead : ¬ Dead s.proc (landing s.proc))
            (away : landing s.proc ≠ s.proc.currentProcess) :
            (schedulerTick esp s.proc).2 =
              switchTo (landing s.proc) (saveContext esp (countTick s.proc)) := by
          rw [tick_of_not_keeps active used (not_or.mpr ⟨away, notDead⟩)]
        have notDead {x : Word} (ready : Ready s.proc x) : ¬ Dead s.proc x := fun dead =>
          ready.not_skipped (.inl dead)
        have once := (List.nodup_cons.mp ring.nodup).1
        -- the first READY process on the way is the next one
        cases found : before.find? fun x => Ready s.proc x with
        | none =>
            have none_ : ∀ x ∈ before, ¬ Ready s.proc x := by
              simpa using List.find?_eq_none.mp found
            have land := landing_first inv active.2 ring none_ ready near
            have moved := moves (land ▸ notDead ready) (land ▸ other.symm)
            refine ⟨0, .here ?_, ?_⟩
            · rw [moved, land]
              rfl
            · have pos := ticksLeft_pos s.proc
              rw [waitTicks]
              omega
        | some x =>
            rcases List.find?_eq_some_iff_append.mp found with
              ⟨readyX, skipped, rest, shape, none_⟩
            have readyX : Ready s.proc x := by simpa using readyX
            have none_ : ∀ y ∈ skipped, ¬ Ready s.proc y := by simpa using none_
            subst shape
            rw [List.append_assoc, List.cons_append] at ring
            have land := landing_first inv active.2 ring none_ readyX
              (by rw [List.length_append] at near; omega)
            have away : x ≠ s.proc.currentProcess := fun eq => once (by simp [eq])
            have moved := moves (land ▸ notDead readyX) (land ▸ away)
            have current : (schedulerTick esp s.proc).2.currentProcess = x := by
              rw [moved, land]
              rfl
            have fresh : (schedulerTick esp s.proc).2.tickCount = 0#32 := by
              rw [moved]
              rfl
            have turned := ring.rotate
            rw [List.append_assoc, List.cons_append, ← next, ← current] at turned
            exact ⟨_, .behind turned, waitTicks_switch quantum current fresh⟩
      · have counted : (schedulerTick esp s.proc).2 = countTick s.proc := by
          generalize call : schedulerTick esp s.proc = r
          cases Ticked.of_call call with
          | idle idle => exact absurd active idle
          | counted _ _ => rfl
          | kept _ used' _ => exact absurd used' used
          | switched _ used' _ _ => exact absurd used' used
        rw [counted] at next ⊢
        have around : IsRing (countTick s.proc).next (countTick s.proc).currentProcess
            (before ++ p :: after) := next ▸ ring
        exact ⟨_, .behind around, Nat.le_of_eq (waitTicks_countTick within used before)⟩

/-! ## Runs -/

theorem CountWithin.run (reach : Sys.Run ProcStep (procInit q) tr s) : CountWithin s.proc :=
  (reach.invariant (I := fun s => ProcInvariant s.proc s.created ∧ CountWithin s.proc)
    ⟨procInvariant_init q, .inl rfl⟩ fun both step =>
      ⟨both.1.step step, both.2.step both.1 step⟩).2

/-- Nothing stops the scheduler. -/
theorem started_step (started : s.proc.schedulerRunning = true)
    (inv : ProcInvariant s.proc s.created) (step : ProcStep s op t) :
    t.proc.schedulerRunning = true := by
  by_cases tick : op.isTick = true
  · cases step with
    | @tick esp =>
        generalize call : schedulerTick esp s.proc = r
        cases Ticked.of_call call <;> exact started
    | _ => cases tick
  · exact (step.unticked inv (by simpa using tick)).started started

theorem length_created_of_run (run : Sys.Run ProcStep s tr t) :
    s.created.length ≤ t.created.length := by
  refine run.invariant (I := fun u => s.created.length ≤ u.created.length) (Nat.le_refl _) ?_
  intro u op v grown step
  cases step with
  | create _ _ =>
      dsimp only
      split
      · exact grown
      · rw [List.length_append]
        exact Nat.le_add_right_of_le grown
  | _ => exact grown

/-- A process that stays READY while others are current waits for no more ticks than the rest
of the current turn and the turns of the processes before it on the ring take. When so many
ticks have come, it is current. Calls of any kind may come between the ticks. -/
theorem bounded_waiting (reach : Sys.Run ProcStep (procInit q) tr s)
    (started : s.proc.schedulerRunning = true) (member : p ∈ s.created)
    (ring : IsRing s.proc.next s.proc.currentProcess (before ++ p :: after))
    (run : Sys.Run ProcStep s later t) (few : t.created.length ≤ maxProcesses + 2)
    (waiting : ∀ e ∈ later, Ready e.pre.proc p ∧ e.pre.proc.currentProcess ≠ p) :
    later.countP (fun e => e.op.isTick) ≤ waitTicks s.proc before ∧
      (later.countP (fun e => e.op.isTick) = waitTicks s.proc before →
        t.proc.currentProcess = p) := by
  have pays : ∀ e ∈ later, ∀ n, Waits p e.pre.proc n →
      ∃ k, Waits p e.post.proc k ∧ (if e.op.isTick = true then 1 else 0) + k ≤ n := by
    intro e event n waits
    rcases run.split event with ⟨first, rest, -, toE, step, fromE⟩
    have reachE := reach.trans toE
    have inv := (procInvariant_init q).run reachE
    have on : e.pre.proc.schedulerRunning = true :=
      (toE.invariant (I := fun s => ProcInvariant s.proc s.created ∧ s.proc.schedulerRunning = true)
        ⟨(procInvariant_init q).run reach, started⟩ fun both step =>
          ⟨both.1.step step, started_step both.2 both.1 step⟩).2
    have some_ : e.pre.proc.currentProcess ≠ 0#32 := fun null => by
      have known := mem_created_of_run toE member
      rw [inv.created_eq_nil null] at known
      cases known
    rcases e with ⟨u, op, v⟩
    have step : ProcStep u op v := step
    by_cases tick : op.isTick = true
    · cases step with
      | @tick esp =>
          show ∃ k, Waits p (schedulerTick esp u.proc).2 k ∧ 1 + k ≤ n
          have fewU : u.created.length ≤ maxProcesses + 2 :=
            (length_created_of_run fromE).trans few
          exact waits.tick (waiting _ event).2 inv (CountWithin.run reachE) ⟨on, some_⟩
            (waiting _ event).1 fewU esp
      | _ => cases tick
    · rw [if_neg tick]
      have unticked := step.unticked inv (by simpa using tick)
      exact ⟨n, waits.unticked some_ inv unticked, Nat.le_of_eq (Nat.zero_add n)⟩
  have start : Waits p s.proc (waitTicks s.proc before) := .behind ring
  rcases Sys.Run.total_le (fun e : ProcEvent => if e.op.isTick = true then 1 else 0)
    (fun s : ProcRunState => Waits p s.proc) run start pays with ⟨k, left, spent⟩
  have count : Sys.total (fun e : ProcEvent => if e.op.isTick = true then 1 else 0) later =
      later.countP fun e => e.op.isTick := by
    rw [Sys.total_ite (M := Nat)]
    simp
  rw [count] at spent
  refine ⟨by omega, fun all => ?_⟩
  cases left with
  | here here => exact here
  | @behind before' _ _ =>
      have pos := ticksLeft_pos t.proc
      unfold waitTicks at spent
      unfold waitTicks at all
      omega

/-- The shell has used one tick of its turn of five: the program behind it waits for the four
that are left. -/
theorem bounded_waiting_program : ∃ tr s later t, Sys.Run ProcStep (procInit blankProc) tr s ∧
    Sys.Run ProcStep s later t ∧ later.countP (fun e => e.op.isTick) = 4 ∧
    waitTicks s.proc [] = 4 ∧ t.proc.currentProcess = 0x204067#32 := by
  obtain ⟨tr, s, run, started, known, current, next, back, wait, ops⟩ := exists_run
    (P := fun s => s.proc.schedulerRunning = true ∧ 0x204067#32 ∈ s.created ∧
      s.proc.currentProcess = 0x20000D#32 ∧ s.proc.next 0x20000D#32 = 0x204067#32 ∧
      s.proc.next 0x204067#32 = 0x20000D#32 ∧ waitTicks s.proc [] = 4 ∧
      ((Sys.exec ProcOp.exec s (List.replicate 4 (.tick 0#32))).any fun r =>
        decide ((∀ e ∈ r.1, Ready e.pre.proc 0x204067#32 ∧
          e.pre.proc.currentProcess ≠ 0x204067#32) ∧ r.2.created.length ≤ maxProcesses + 2 ∧
          r.1.countP (fun e => e.op.isTick) = 4)) = true)
    (twoProcesses ++ [.tick 0#32]) (by decide +kernel)
  obtain ⟨later, t, four, waiting, few, count⟩ := Sys.Run.exists_trace_of_exec (f := ProcOp.exec)
    (P := fun tr t => (∀ e ∈ tr, Ready e.pre.proc 0x204067#32 ∧
      e.pre.proc.currentProcess ≠ 0x204067#32) ∧ t.created.length ≤ maxProcesses + 2 ∧
      tr.countP (fun e => e.op.isTick) = 4)
    (s := s) (List.replicate 4 (.tick 0#32)) ProcStep.of_exec ops
  have ring : IsRing s.proc.next s.proc.currentProcess ([] ++ 0x204067#32 :: []) := by
    rw [current]
    exact ⟨by decide, path_cons.mpr ⟨next, path_nil.mpr back⟩⟩
  have turn := (bounded_waiting run started known ring four few waiting).2
  exact ⟨tr, s, later, t, run, four, count, wait, turn (count.trans wait.symm)⟩

end Learnix
