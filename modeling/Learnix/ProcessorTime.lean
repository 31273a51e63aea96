import Learnix.SchedulerStart
import Learnix.ProportionalShare
import Learnix.Lib.RunCost

/-!
# Who is charged for a tick

`scheduler_tick` adds one to `ticks_total` of the process that it interrupts, and the
other operations leave the counts of the processes alone (`Unticked`). So along every
run `ticks_total` is the number of ticks that came while the process was current, and
together the processes were charged for every tick once (`ticks_charged`).
-/

namespace Learnix

open Machine CircularList

/-- A timer interrupt. -/
def ProcOp.isTick : ProcOp → Bool
  | .tick _ => true
  | _ => false

/-- A tick that finds the scheduler running and a process to interrupt. -/
def Counts (e : ProcEvent) : Prop := e.op.isTick = true ∧ Active e.pre.proc

/-- A tick that interrupts `p`. -/
def ChargedTo (p : Word) (e : ProcEvent) : Prop := Counts e ∧ e.pre.proc.currentProcess = p

instance (e : ProcEvent) : Decidable (Counts e) :=
  inferInstanceAs (Decidable (e.op.isTick = true ∧ Active e.pre.proc))

instance (p : Word) (e : ProcEvent) : Decidable (ChargedTo p e) :=
  inferInstanceAs (Decidable (Counts e ∧ e.pre.proc.currentProcess = p))

/-- What an operation other than a tick leaves: of the processes there are, everything but
states and links, and a ring that at most has one process more at its end. -/
structure Unticked (s t : ProcRunState) : Prop where
  currentProcess : s.proc.currentProcess ≠ 0#32 → t.proc.currentProcess = s.proc.currentProcess
  tickCount : t.proc.tickCount = s.proc.tickCount
  started : s.proc.schedulerRunning = true → t.proc.schedulerRunning = true
  kept : ∀ p ∈ s.created, ∃ state next,
    t.proc.pcb p = { s.proc.pcb p with state := state, next := next }
  new : ∀ p ∈ t.created, p ∉ s.created → (t.proc.pcb p).ticksTotal = 0#32
  ring : s.proc.currentProcess ≠ 0#32 → ∀ others,
    IsRing s.proc.next s.proc.currentProcess others →
      ∃ later, IsRing t.proc.next s.proc.currentProcess (others ++ later)

variable {q : ProcState} {s t u : ProcRunState} {op : ProcOp} {p esp : Word}
  {tr later : List ProcEvent}

/-! ## Operations other than ticks -/

theorem Restated.unticked (restated : Restated s.proc t.proc) (same : t.created = s.created)
    (clock : t.proc.tickCount = s.proc.tickCount)
    (started : s.proc.schedulerRunning = true → t.proc.schedulerRunning = true) :
    Unticked s t := by
  refine ⟨fun _ => restated.currentProcess, clock, started, fun p _ => ?_, fun p new old => ?_,
    fun _ others ring => ⟨[], ?_⟩⟩
  · rcases restated.pcb p with ⟨state, pcb⟩
    exact ⟨state, (s.proc.pcb p).next, pcb⟩
  · exact absurd (same ▸ new) old
  · rw [List.append_nil]
    refine ring.congr fun x _ => ?_
    rcases restated.pcb x with ⟨state, pcb⟩
    unfold ProcState.next
    rw [pcb]

/-- A new process has not been charged for anything. -/
theorem create_ticksTotal {s s' : ProcState} {proc stack entry priority r : Word} {h : List Word}
    {name : List Byte} (notNull : r ≠ 0#32)
    (call : processCreate answering entry name priority s [proc, stack] = some (r, s', h)) :
    (s'.pcb r).ticksTotal = 0#32 := by
  cases Creates.of_call call with
  | noBlock _ => exact absurd rfl notNull
  | noStack _ _ _ => exact absurd rfl notNull
  | joined _ _ _ _ link =>
      rcases setUpProcess_link link with ⟨next, pcb⟩
      rw [pcb]

theorem ProcStep.unticked (step : ProcStep s op t) (inv : ProcInvariant s.proc s.created)
    (notTick : op.isTick = false) : Unticked s t := by
  have notTick' : ∀ esp, op ≠ .tick esp := by
    rintro esp rfl
    cases notTick
  by_cases call : op.isCall = true
  · rcases step.clock inv call with ⟨running, clock⟩
    have started : s.proc.schedulerRunning = true → t.proc.schedulerRunning = true :=
      running.trans
    by_cases create : ∃ proc stack entry name priority, op = .create proc stack entry name priority
    · rcases create with ⟨proc, stack, entry, name, priority, rfl⟩
      cases step with
      | create fresh made =>
          rename_i r s' h
          have old : ∀ p ∈ s.created, p ≠ proc := fun p member eq => fresh (eq ▸ member)
          rcases inv.created_cases fresh made with ⟨rfl, unjoined⟩ | ⟨rfl, notNull, joined⟩
          · simp only [if_true] at clock started ⊢
            refine ⟨fun _ => unjoined.currentProcess, clock, started, fun p member => ?_,
              fun p new absent => absurd new absent, fun some_ others ring => ⟨[], ?_⟩⟩
            · exact ⟨_, _, unjoined.kept p (old p member)⟩
            · rw [List.append_nil]
              rcases inv.exists_ring some_ with ⟨l, around, perm, -⟩
              refine ring.congr fun x member => ?_
              rw [ring.unique around] at member
              exact congrArg Pcb.next (unjoined.kept x (old x (perm.mem_iff.mp member)))
          · simp only [if_neg notNull] at clock started ⊢
            refine ⟨fun some_ => (joined.ring some_).1, clock, started, fun p member => ?_,
              fun p new absent => ?_, fun some_ others ring => ⟨[r], ?_⟩⟩
            · rcases joined.kept p (old p member) with ⟨next, pcb⟩
              exact ⟨_, next, pcb⟩
            · rcases List.mem_append.mp new with there | here
              · exact absurd there absent
              · rw [List.mem_singleton.mp here]
                exact create_ticksTotal notNull made
            · exact (joined.ring some_).2 others ring
    · have notCreate : ∀ proc stack entry name priority,
          op ≠ .create proc stack entry name priority := fun proc stack entry name priority same =>
        create ⟨proc, stack, entry, name, priority, same⟩
      rcases step.restated inv notCreate notTick' with ⟨restated, same⟩
      exact restated.unticked same clock started
  · cases step with
    | start =>
        rcases (ProcStep.start (s := s)).restated inv nofun nofun with ⟨restated, -⟩
        refine restated.unticked rfl ?_ ?_
        · unfold schedulerStart
          split <;> rfl
        · unfold schedulerStart
          split
          · exact id
          · exact fun _ => rfl
    | tick => cases notTick
    | create _ _ => exact absurd rfl call
    | exit => exact absurd rfl call
    | block _ => exact absurd rfl call
    | unblock _ => exact absurd rfl call
    | blockOthers _ => exact absurd rfl call

/-! ## Ticks -/

/-- A tick adds one to the count of the process that it interrupts, whatever it makes of the
quantum. -/
theorem schedulerTick_ticksTotal (esp : Word) (s : ProcState) (p : Word) :
    ((schedulerTick esp s).2.pcb p).ticksTotal =
      (s.pcb p).ticksTotal + if Active s ∧ s.currentProcess = p then 1#32 else 0#32 := by
  have counted (active : Active s) : (s.pcb p).ticksTotal +
      BitVec.ofNat 32 (if p = s.currentProcess then 1 else 0) =
        (s.pcb p).ticksTotal + if Active s ∧ s.currentProcess = p then 1#32 else 0#32 := by
    by_cases here : s.currentProcess = p
    · rw [if_pos here.symm, if_pos ⟨active, here⟩]
    · rw [if_neg (Ne.symm here), if_neg fun both => here both.2]
  have saved := (tickCounted_countTick s).saveContext esp
  generalize call : schedulerTick esp s = r
  cases Ticked.of_call call with
  | idle idle => simp [idle]
  | counted active _ => exact ((tickCounted_countTick s).total p).trans (counted active)
  | kept active _ _ => exact (saved.total p).trans (counted active)
  | switched active _ _ _ =>
      exact (switchTo_field Pcb.ticksTotal fun _ _ => rfl).trans
        ((saved.total p).trans (counted active))

/-- **Step lemma.** What `ticks_total` shows of a process, from its creation on. -/
theorem ProcStep.ticksTotal (step : ProcStep s op t) (inv : ProcInvariant s.proc s.created)
    (p : Word) :
    (if p ∈ t.created then (t.proc.pcb p).ticksTotal else 0#32) =
      (if p ∈ s.created then (s.proc.pcb p).ticksTotal else 0#32) +
        if ChargedTo p ⟨s, op, t⟩ then 1 else 0 := by
  by_cases tick : op.isTick = true
  · cases step with
    | @tick esp =>
        have charged : ChargedTo p ⟨s, .tick esp, ⟨(schedulerTick esp s.proc).2, s.created⟩⟩ ↔
            Active s.proc ∧ s.proc.currentProcess = p := by
          simp [ChargedTo, Counts, ProcOp.isTick]
        simp only [charged]
        by_cases member : p ∈ s.created
        · rw [if_pos member, if_pos member, schedulerTick_ticksTotal]
          rfl
        · have other : ¬ (Active s.proc ∧ s.proc.currentProcess = p) := fun both =>
            member (both.2 ▸ inv.current_mem both.1.2)
          rw [if_neg member, if_neg member, if_neg other]
          rfl
    | _ => cases tick
  · have unticked := step.unticked inv (by simpa using tick)
    have uncharged : ¬ ChargedTo p ⟨s, op, t⟩ := fun charged => tick charged.1.1
    rw [if_neg uncharged]
    by_cases member : p ∈ s.created
    · rcases unticked.kept p member with ⟨state, next, pcb⟩
      rw [if_pos member, if_pos (step.mem_created member), pcb]
      exact (BitVec.add_zero _).symm
    · rw [if_neg member]
      split
      · next new => exact unticked.new p new member
      · rfl

/-! ## Runs -/

/-- Every tick that counts is charged to a process there is. -/
theorem Counts.charged {e : ProcEvent} (counts : Counts e)
    (inv : ProcInvariant e.pre.proc e.pre.created) :
    e.pre.proc.currentProcess ∈ e.pre.created := inv.current_mem counts.2.2

/-- Whoever has been created stays so. -/
theorem mem_created_of_run (run : Sys.Run ProcStep s tr t) (member : p ∈ s.created) :
    p ∈ t.created :=
  run.invariant (I := fun s => p ∈ s.created) member fun known step => step.mem_created known

/-- In every run `ticks_total` of a process is the number of the ticks that interrupted it
(modulo 2^32), and every tick that the scheduler counts was charged to one process. -/
theorem ticks_charged (run : Sys.Run ProcStep (procInit q) tr t) :
    (∀ p ∈ t.created, (t.proc.pcb p).ticksTotal = BitVec.ofNat 32 (tr.countP (ChargedTo p))) ∧
      (t.created.map fun p => tr.countP (ChargedTo p)).sum = tr.countP Counts := by
  have init := procInvariant_init q
  refine ⟨fun p member => ?_, ?_⟩
  · have total := Sys.Run.total_eq (fun e => if ChargedTo p e then 1 else 0)
      (I := fun s => ProcInvariant s.proc s.created) run
      (fun s => if p ∈ s.created then (s.proc.pcb p).ticksTotal else 0#32) init
      (fun inv step => inv.step step) fun inv step => step.ticksTotal inv p
    have none_ : p ∉ (procInit q).created := List.not_mem_nil
    rw [if_pos member, if_neg none_, Sys.total_ite, BitVec.natCast_eq_ofNat] at total
    rw [total]
    exact BitVec.zero_add _
  · apply Sys.sum_countP_fiber (init.run run).nodup
    intro e event counts
    rcases run.split event with ⟨before, after, -, reach, step, rest⟩
    exact mem_created_of_run rest (step.mem_created (counts.charged (init.run reach)))

/-- Two processes and seven ticks, of which the first one gets the first turn of five. -/
theorem ticks_charged_two : ∃ tr t, Sys.Run ProcStep (procInit blankProc) tr t ∧
    t.created = [0x20000D#32, 0x204067#32] ∧ tr.countP Counts = 7 ∧
    (t.proc.pcb 0x20000D#32).ticksTotal = BitVec.ofNat 32 (tr.countP (ChargedTo 0x20000D#32)) ∧
    (t.created.map fun p => tr.countP (ChargedTo p)).sum = 7 := by
  obtain ⟨tr, t, run, known, seven⟩ := Sys.Run.exists_trace_of_exec (f := ProcOp.exec)
    (P := fun tr t => t.created = [0x20000D#32, 0x204067#32] ∧ tr.countP Counts = 7)
    (s := procInit blankProc) (twoProcesses ++ List.replicate 7 (.tick 0#32)) ProcStep.of_exec
    (by decide +kernel)
  rcases ticks_charged run with ⟨each, all⟩
  exact ⟨tr, t, run, known, seven, each _ (known ▸ List.mem_cons_self), all.trans seven⟩

end Learnix
