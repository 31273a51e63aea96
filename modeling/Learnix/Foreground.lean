import Learnix.BoundedWaiting

/-!
# The shell in the foreground

After `process_block_others` every process but the current one is BLOCKED or DEAD
(`Alone`). As long as nobody creates or unblocks one, and the current process neither
exits nor is blocked, every tick returns to it: it has the processor to itself
(`foreground`).
-/

namespace Learnix

open Machine CircularList

/-- The current process can run, and no other one there is. -/
structure Alone (s : ProcRunState) : Prop where
  runs : ¬ Skipped s.proc s.proc.currentProcess
  others : ∀ p ∈ s.created, p ≠ s.proc.currentProcess → Skipped s.proc p

/-- The operations that leave the current process alone: all but creating, unblocking another
process, and exiting or being blocked oneself. -/
def LeavesAlone (s : ProcRunState) : ProcOp → Prop
  | .create _ _ _ _ _ | .exit => False
  | .block p => p ≠ s.proc.currentProcess
  | .unblock p => p = 0#32 ∨ p = s.proc.currentProcess
  | .blockOthers | .start | .tick _ => True

variable {q : ProcState} {s t : ProcRunState} {op : ProcOp} {p esp : Word}
  {tr later : List ProcEvent}

theorem skipped_iff (s : ProcState) (p : Word) :
    Skipped s p ↔ ¬ ((s.pcb p).state = .ready ∨ (s.pcb p).state = .running) := by
  unfold Skipped
  cases (s.pcb p).state <;> simp

theorem Skipped.congr {s s' : ProcState} (same : (s'.pcb p).state = (s.pcb p).state) :
    Skipped s' p ↔ Skipped s p := by
  unfold Skipped
  rw [same]

/-! ## What keeps it alone -/

/-- Storing a state that fits the role of the process. -/
theorem Alone.setState (alone : Alone s) (p : Word) (state : ProcessState)
    (current : p = s.proc.currentProcess → state = .ready ∨ state = .running)
    (other : p ≠ s.proc.currentProcess → state = .blocked) :
    Alone ⟨s.proc.setPcb p fun b => { b with state := state }, s.created⟩ := by
  have stored : ∀ x, ((s.proc.setPcb p fun b => { b with state := state }).pcb x).state =
      if x = p then state else (s.proc.pcb x).state := by
    intro x
    rw [setPcb_pcb]
    split <;> rfl
  constructor
  · show ¬ Skipped (s.proc.setPcb p fun b => { b with state := state }) s.proc.currentProcess
    by_cases here : s.proc.currentProcess = p
    · rw [skipped_iff, stored, if_pos here, not_not]
      exact current here.symm
    · rw [Skipped.congr ((stored _).trans (if_neg here))]
      exact alone.runs
  · intro x member away
    have away : x ≠ s.proc.currentProcess := away
    show Skipped (s.proc.setPcb p fun b => { b with state := state }) x
    by_cases here : x = p
    · exact .inr ((stored x).trans ((if_pos here).trans (other (here ▸ away))))
    · rw [Skipped.congr ((stored _).trans (if_neg here))]
      exact alone.others x member away

/-- `process_block_others` makes it so. -/
theorem alone_blockOthers (inv : ProcInvariant s.proc s.created)
    (runs : ¬ Skipped s.proc s.proc.currentProcess) {s' : ProcState}
    (call : processBlockOthers s.proc = some s') : Alone ⟨s', s.created⟩ := by
  rcases inv.blockedOthers call with ⟨current, -, pcbs⟩
  constructor
  · have kept : (s'.pcb s.proc.currentProcess).state =
        (s.proc.pcb s.proc.currentProcess).state := by
      rw [pcbs, if_neg fun all => all.2.1 rfl]
    show ¬ Skipped s' s'.currentProcess
    rw [current, Skipped.congr kept]
    exact runs
  · intro x member away
    have away : x ≠ s.proc.currentProcess := fun eq => away (eq.trans current.symm)
    show Skipped s' x
    unfold Skipped
    by_cases dead : (s.proc.pcb x).state = .dead
    · rw [pcbs, if_neg fun all => all.2.2 dead]
      exact .inl dead
    · rw [pcbs, if_pos ⟨member, away, dead⟩]
      exact .inr rfl

/-- The skip loop comes back to the only process that can run. -/
theorem Alone.landing (alone : Alone s) (inv : ProcInvariant s.proc s.created)
    (some_ : s.proc.currentProcess ≠ 0#32) (few : s.created.length ≤ maxProcesses + 1) :
    Learnix.landing s.proc = s.proc.currentProcess := by
  rcases inv.exists_ring some_ with ⟨others, ring, perm, -⟩
  refine skipLoop_path ring.path (fun x member => ?_) alone.runs ?_
  · have away : x ≠ s.proc.currentProcess := fun eq =>
      (List.nodup_cons.mp ring.nodup).1 (eq ▸ member)
    exact alone.others x (perm.mem_iff.mp (List.mem_cons_of_mem _ member)) away
  · have size := perm.length_eq
    rw [List.length_cons] at size
    omega

/-- A tick returns to where it came from. -/
theorem Alone.tick (alone : Alone s) (inv : ProcInvariant s.proc s.created)
    (few : s.created.length ≤ maxProcesses + 1) (esp : Word) :
    (schedulerTick esp s.proc).1 = esp ∧
      (schedulerTick esp s.proc).2.currentProcess = s.proc.currentProcess ∧
      ∀ p, ((schedulerTick esp s.proc).2.pcb p).state = (s.proc.pcb p).state := by
  have counted : ∀ p, ((countTick s.proc).pcb p).state = (s.proc.pcb p).state := fun p =>
    countTick_field Pcb.state fun _ _ => rfl
  generalize call : schedulerTick esp s.proc = r
  cases Ticked.of_call call with
  | idle _ => exact ⟨rfl, rfl, fun _ => rfl⟩
  | counted _ _ => exact ⟨rfl, rfl, counted⟩
  | kept _ _ _ =>
      exact ⟨rfl, rfl, fun p => (saveContext_field Pcb.state fun _ _ => rfl).trans (counted p)⟩
  | switched active _ away _ => exact absurd (alone.landing inv active.2 few) away

/-- **Step lemma.** -/
theorem Alone.step (alone : Alone s) (inv : ProcInvariant s.proc s.created)
    (few : s.created.length ≤ maxProcesses + 1) (allowed : LeavesAlone s op)
    (step : ProcStep s op t) :
    Alone t ∧ t.proc.currentProcess = s.proc.currentProcess ∧ t.created = s.created := by
  cases step with
  | create _ _ => exact absurd allowed id
  | exit => exact absurd allowed id
  | block known =>
      unfold processBlock
      split
      · exact ⟨alone.setState _ _ (fun here => absurd here allowed) fun _ => rfl, rfl, rfl⟩
      · exact ⟨alone, rfl, rfl⟩
  | unblock known =>
      unfold processUnblock
      split
      · next some_ =>
        have here := allowed.resolve_left some_
        exact ⟨alone.setState _ _ (fun _ => .inl rfl) fun away => absurd here away, rfl, rfl⟩
      · exact ⟨alone, rfl, rfl⟩
  | blockOthers call =>
      exact ⟨alone_blockOthers inv alone.runs call, (inv.blockedOthers call).1, rfl⟩
  | start =>
      unfold schedulerStart
      split
      · exact ⟨alone, rfl, rfl⟩
      · have running := alone.setState s.proc.currentProcess .running (fun _ => .inr rfl)
          fun away => absurd rfl away
        exact ⟨⟨running.runs, running.others⟩, rfl, rfl⟩
  | @tick esp =>
      rcases alone.tick inv few esp with ⟨-, current, states⟩
      refine ⟨⟨?_, fun x member away => ?_⟩, current, rfl⟩
      · dsimp only
        rw [current, Skipped.congr (states _)]
        exact alone.runs
      · exact (Skipped.congr (states x)).mpr (alone.others x member fun eq => away (eq.trans
          current.symm))

/-! ## Runs -/

/-- From `process_block_others` on, as long as nobody creates or unblocks a process and the
caller neither exits nor is blocked, the caller stays the current process, and every tick goes
on with the stack pointer that it was interrupted with. -/
theorem foreground {s' : ProcState} (reach : Sys.Run ProcStep (procInit q) tr s)
    (runs : ¬ Skipped s.proc s.proc.currentProcess) (few : s.created.length ≤ maxProcesses + 1)
    (call : processBlockOthers s.proc = some s')
    (run : Sys.Run ProcStep ⟨s', s.created⟩ later t)
    (allowed : ∀ e ∈ later, LeavesAlone e.pre e.op) :
    t.proc.currentProcess = s.proc.currentProcess ∧ ¬ Skipped t.proc t.proc.currentProcess ∧
      ∀ e ∈ later, ∀ esp, e.op = .tick esp → (schedulerTick esp e.pre.proc).1 = esp ∧
        e.post.proc.currentProcess = s.proc.currentProcess := by
  have inv := (procInvariant_init q).run reach
  have start := alone_blockOthers inv runs call
  obtain ⟨final, along⟩ := run.invariant_of_guard
    (I := fun u => ProcInvariant u.proc u.created ∧ Alone u ∧
      u.proc.currentProcess = s.proc.currentProcess ∧ u.created.length ≤ maxProcesses + 1)
    (G := LeavesAlone)
    ⟨inv.blockOthers call, start, (inv.blockedOthers call).1, few⟩ allowed
    (fun {u op v} both guard step => by
      rcases both with ⟨invU, aloneU, currentU, fewU⟩
      rcases aloneU.step invU fewU guard step with ⟨aloneV, currentV, createdV⟩
      exact ⟨invU.step step, aloneV, currentV.trans currentU, createdV ▸ fewU⟩)
  refine ⟨final.2.2.1, final.2.1.runs, fun e event esp tick => ?_⟩
  rcases along e event with ⟨⟨invE, aloneE, -, fewE⟩, -, -, currentE, -⟩
  exact ⟨(aloneE.tick invE fewE esp).1, currentE⟩

/-- At the end of its quantum the shell would give way to the program, if it had not blocked
it. -/
theorem foreground_shell : ∃ tr s s' t, Sys.Run ProcStep (procInit blankProc) tr s ∧
    (schedulerTick 7#32 s.proc).2.currentProcess = 0x204067#32 ∧
    processBlockOthers s.proc = some s' ∧
    Sys.Run ProcStep ⟨s', s.created⟩ [⟨⟨s', s.created⟩, .tick 7#32, t⟩] t ∧
    t.proc.currentProcess = 0x20000D#32 := by
  obtain ⟨tr, s, run, current, runs, few, gives⟩ := exists_run
    (P := fun s => s.proc.currentProcess = 0x20000D#32 ∧
      ¬ Skipped s.proc s.proc.currentProcess ∧ s.created.length ≤ maxProcesses + 1 ∧
      (schedulerTick 7#32 s.proc).2.currentProcess = 0x204067#32)
    (twoProcesses ++ List.replicate 4 (.tick 0#32)) (by decide +kernel)
  obtain ⟨s', call, -⟩ := ((procInvariant_init blankProc).run run).processBlockOthers
  have tick : Sys.Run ProcStep ⟨s', s.created⟩ [⟨⟨s', s.created⟩, .tick 7#32, ⟨_, _⟩⟩] ⟨_, _⟩ :=
    .snoc .nil .tick
  have stays := foreground run runs few call tick fun e event => by
    rw [List.mem_singleton.mp event]
    trivial
  exact ⟨tr, s, s', _, run, gives, call, tick, stays.1.trans current⟩

end Learnix
