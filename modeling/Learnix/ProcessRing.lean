import Learnix.Scheduler
import Learnix.Lib.Ring
import Learnix.Lib.Run

/-!
# The ring of processes

The loops of `process.c` go once around the circular list: on a ring each of
them ends, with the result that its body gives over the processes in ring order
(`findLast_ring`, `printLoop_ring`, `countLoop_ring`, `blockOthersLoop_ring`).
`ProcStep` is one operation on processes, and `ProcInvariant` what all of them
keep: the list is a ring of exactly the processes that were created.
-/

namespace Learnix

open Machine CircularList

variable {s s' : ProcState} {p q : Word} {l others created : List Word} {fuel n : Nat}

/-! ## Loops on a ring -/

section Loops

variable (path : Path s.next p l s.currentProcess) (once : s.currentProcess ∉ l)
  (enough : l.length < fuel)

include path once enough

theorem findLast_path : findLast s fuel p = some ((p :: l).getLast (List.cons_ne_nil p l)) := by
  refine path.rounds (motive := fun fuel p l =>
    findLast s fuel p = some ((p :: l).getLast (List.cons_ne_nil p l))) ?_ ?_ once enough
  · intro k p back
    exact if_neg (not_not.mpr back)
  · intro k p q l first goOn ih
    have first : (s.pcb p).next = q := first
    rw [findLast, first, if_pos goOn, ih, List.getLast_cons_cons]

theorem printLoop_path : printLoop s fuel p = some ((p :: l).map s.pcb) := by
  refine path.rounds (motive := fun fuel p l => printLoop s fuel p = some ((p :: l).map s.pcb))
    ?_ ?_ once enough
  · intro k p back
    exact if_neg (not_not.mpr back)
  · intro k p q l first goOn ih
    have first : (s.pcb p).next = q := first
    rw [printLoop, first, if_pos goOn, ih]
    rfl

theorem countLoop_path (counted : ProcessState → Bool) (n : Nat) :
    countLoop s counted fuel p n =
      some (n + (p :: l).countP fun p => counted (s.pcb p).state) := by
  revert n
  refine path.rounds (motive := fun fuel p l => ∀ n, countLoop s counted fuel p n =
    some (n + (p :: l).countP fun p => counted (s.pcb p).state)) ?_ ?_ once enough
  · intro k p back n
    have back : (s.pcb p).next = s.currentProcess := back
    rw [countLoop, if_neg (not_not.mpr back), List.countP_singleton]
    split <;> rfl
  · intro k p q l first goOn ih n
    have first : (s.pcb p).next = q := first
    rw [countLoop, first, if_pos goOn, ih, List.countP_cons (l := q :: l)]
    split
    · rw [Nat.add_right_comm, Nat.add_assoc]
    · rfl

end Loops

/-- Block the process at `p` unless it is dead. -/
def blockAlive (s : ProcState) (p : Word) : ProcState :=
  if (s.pcb p).state ≠ .dead then s.setPcb p fun b => { b with state := .blocked } else s

theorem blockAlive_pcb (s : ProcState) (p q : Word) :
    (blockAlive s q).pcb p =
      if p = q ∧ (s.pcb p).state ≠ .dead then { s.pcb p with state := .blocked } else s.pcb p := by
  unfold blockAlive
  by_cases here : p = q
  · subst here
    by_cases dead : (s.pcb p).state = .dead
    · simp [dead]
    · simp [dead]
  · rw [if_neg (fun both : p = q ∧ _ => here both.1)]
    split
    · exact setPcb_pcb_of_ne here
    · rfl

theorem blockAlive_rest (s : ProcState) (p : Word) :
    (blockAlive s p).currentProcess = s.currentProcess ∧ (blockAlive s p).next = s.next ∧
      (blockAlive s p).nextPid = s.nextPid := by
  unfold blockAlive
  split
  · exact ⟨rfl, funext fun q => setPcb_field Pcb.next rfl, rfl⟩
  · exact ⟨rfl, rfl, rfl⟩

theorem blockOthersLoop_path (path : Path s.next p l s.currentProcess)
    (once : s.currentProcess ∉ l) (enough : l.length < fuel) :
    blockOthersLoop fuel (s.next p) s = some (l.foldl blockAlive s) := by
  have result := path.rounds (motive := fun fuel p l => ∀ s' : ProcState,
    s'.currentProcess = s.currentProcess → s'.next = s.next →
      blockOthersLoop fuel (s.next p) s' = some (l.foldl blockAlive s')) ?_ ?_ once enough
  · exact result s rfl rfl
  · intro k p back s' current _
    rw [blockOthersLoop, back, current, if_neg (not_not.mpr rfl)]
    rfl
  · intro k p q l first goOn ih s' current next
    rcases blockAlive_rest s' q with ⟨current', next', -⟩
    have after : ((blockAlive s' q).pcb q).next = s.next q :=
      (congrFun next' q).trans (congrFun next q)
    rw [blockOthersLoop, first, current, if_pos goOn]
    exact (congrArg (blockOthersLoop k · (blockAlive s' q)) after).trans
      (ih (blockAlive s' q) (current'.trans current) (next'.trans next))

/-- What `process_block_others` does, PCB by PCB. -/
theorem foldl_blockAlive (nodup : l.Nodup) (s : ProcState) :
    (l.foldl blockAlive s).currentProcess = s.currentProcess ∧
      (l.foldl blockAlive s).nextPid = s.nextPid ∧
      ∀ p, (l.foldl blockAlive s).pcb p =
        if p ∈ l ∧ (s.pcb p).state ≠ .dead then { s.pcb p with state := .blocked }
        else s.pcb p := by
  induction l generalizing s with
  | nil => simp
  | cons q l ih =>
      rcases List.nodup_cons.mp nodup with ⟨absent, nodup⟩
      rcases ih nodup (blockAlive s q) with ⟨current, pid, pcbs⟩
      rcases blockAlive_rest s q with ⟨current', -, pid'⟩
      refine ⟨current.trans current', pid.trans pid', fun p => ?_⟩
      rw [List.foldl_cons, pcbs, blockAlive_pcb]
      by_cases here : p = q
      · subst here
        by_cases dead : (s.pcb p).state = .dead
        · simp [absent, dead]
        · simp [absent, dead]
      · simp [here]

/-! ## Operations -/

/-- One operation on processes. `kmalloc` answers the two requests of
`process_create` with `proc` and `stack`. -/
inductive ProcOp
  | create (proc stack entry : Word) (name : List Byte) (priority : Word)
  | exit
  | block (p : Word)
  | unblock (p : Word)
  | blockOthers
  | start
  | tick (esp : Word)

/-- A process calls neither `scheduler_start` nor `scheduler_tick`. -/
def ProcOp.isCall : ProcOp → Bool
  | .start | .tick _ => false
  | _ => true

/-- The processes, and the addresses of those created so far, oldest first. -/
structure ProcRunState where
  proc : ProcState
  created : List Word

instance (s : ProcRunState) (p : Word) : Decidable (p ∈ s.created) :=
  List.instDecidableMemOfLawfulBEq p s.created

/-- A heap that answers its requests from a list. -/
def answering : Allocator (List Word) := ⟨fun _ h => (h.headD 0#32, h.tail), fun _ h => h⟩

/-- One operation. `kmalloc` may fail, and returns no block that is in use; only
null and processes that exist are blocked and unblocked. -/
inductive ProcStep : ProcRunState → ProcOp → ProcRunState → Prop
  | create {s : ProcRunState} {proc stack entry priority r : Word} {name : List Byte}
    {s' : ProcState} {h : List Word} :
    proc ∉ s.created →
    processCreate answering entry name priority s.proc [proc, stack] = some (r, s', h) →
    ProcStep s (.create proc stack entry name priority)
      ⟨s', if r = 0#32 then s.created else s.created ++ [r]⟩
  | exit {s : ProcRunState} : ProcStep s .exit ⟨processExit s.proc, s.created⟩
  | block {s : ProcRunState} {p : Word} :
    (p = 0#32 ∨ p ∈ s.created) → ProcStep s (.block p) ⟨processBlock p s.proc, s.created⟩
  | unblock {s : ProcRunState} {p : Word} :
    (p = 0#32 ∨ p ∈ s.created) → ProcStep s (.unblock p) ⟨processUnblock p s.proc, s.created⟩
  | blockOthers {s : ProcRunState} {s' : ProcState} :
    processBlockOthers s.proc = some s' → ProcStep s .blockOthers ⟨s', s.created⟩
  | start {s : ProcRunState} : ProcStep s .start ⟨(schedulerStart s.proc).2, s.created⟩
  | tick {s : ProcRunState} {esp : Word} :
    ProcStep s (.tick esp) ⟨(schedulerTick esp s.proc).2, s.created⟩

/-- The outcome of an operation, where it has one. -/
def ProcOp.exec (s : ProcRunState) : ProcOp → Option ProcRunState
  | .create proc stack entry name priority =>
    if proc ∈ s.created then none
    else (processCreate answering entry name priority s.proc [proc, stack]).map fun r =>
      ⟨r.2.1, if r.1 = 0#32 then s.created else s.created ++ [r.1]⟩
  | .exit => some ⟨processExit s.proc, s.created⟩
  | .block p => if p = 0#32 ∨ p ∈ s.created then some ⟨processBlock p s.proc, s.created⟩ else none
  | .unblock p =>
    if p = 0#32 ∨ p ∈ s.created then some ⟨processUnblock p s.proc, s.created⟩ else none
  | .blockOthers => (processBlockOthers s.proc).map fun s' => ⟨s', s.created⟩
  | .start => some ⟨(schedulerStart s.proc).2, s.created⟩
  | .tick esp => some ⟨(schedulerTick esp s.proc).2, s.created⟩

theorem ProcStep.of_exec {s t : ProcRunState} {op : ProcOp} (outcome : op.exec s = some t) :
    ProcStep s op t := by
  cases op with
  | create proc stack entry name priority =>
      rcases Option.ite_none_left_eq_some.mp outcome with ⟨fresh, outcome⟩
      rcases Option.map_eq_some_iff.mp outcome with ⟨⟨r, s', h⟩, call, rfl⟩
      exact .create fresh call
  | block p =>
      rcases Option.ite_none_right_eq_some.mp outcome with ⟨known, outcome⟩
      cases outcome
      exact .block known
  | unblock p =>
      rcases Option.ite_none_right_eq_some.mp outcome with ⟨known, outcome⟩
      cases outcome
      exact .unblock known
  | blockOthers =>
      rcases Option.map_eq_some_iff.mp outcome with ⟨s', call, rfl⟩
      exact .blockOthers call
  | exit =>
      cases outcome
      exact .exit
  | start =>
      cases outcome
      exact .start
  | tick esp =>
      cases outcome
      exact .tick

/-- After `process_init` and `scheduler_init`. -/
def procInit (s : ProcState) : ProcRunState := ⟨processInit (schedulerInit s), []⟩

/-! ## The invariant -/

/-- The processes in `created` form the ring, numbered in the order of creation, and
no other than the current one is running. -/
structure ProcInvariant (s : ProcState) (created : List Word) : Prop where
  notNull : 0#32 ∉ created
  ring : s.currentProcess = 0#32 ∧ created = [] ∨
    ∃ others, IsRing s.next s.currentProcess others ∧ (s.currentProcess :: others).Perm created
  pids : created.map (fun p => (s.pcb p).pid) =
    (List.range created.length).map fun i => BitVec.ofNat 32 (i + 1)
  nextPid : s.nextPid = BitVec.ofNat 32 (created.length + 1)
  running : ∀ p ∈ created, (s.pcb p).state = .running → p = s.currentProcess

theorem procInvariant_init (s : ProcState) :
    ProcInvariant (procInit s).proc (procInit s).created where
  notNull := List.not_mem_nil
  ring := .inl ⟨rfl, rfl⟩
  pids := rfl
  nextPid := rfl
  running := fun _ member => absurd member List.not_mem_nil

theorem ProcInvariant.current_mem (inv : ProcInvariant s created)
    (some_ : s.currentProcess ≠ 0#32) : s.currentProcess ∈ created := by
  rcases inv.ring with ⟨null, -⟩ | ⟨others, -, perm⟩
  · exact absurd null some_
  · exact perm.mem_iff.mp List.mem_cons_self

theorem ProcInvariant.created_eq_nil (inv : ProcInvariant s created)
    (null : s.currentProcess = 0#32) : created = [] := by
  rcases inv.ring with ⟨-, none⟩ | ⟨others, -, perm⟩
  · exact none
  · exact absurd (perm.mem_iff.mp (null ▸ List.mem_cons_self)) inv.notNull

/-- With a current process there is a ring, which a lap of `pointerSpace` rounds
goes around. -/
theorem ProcInvariant.exists_ring (inv : ProcInvariant s created)
    (some_ : s.currentProcess ≠ 0#32) :
    ∃ others, IsRing s.next s.currentProcess others ∧
      (s.currentProcess :: others).Perm created ∧ others.length < pointerSpace := by
  rcases inv.ring with ⟨null, -⟩ | ⟨others, ring, perm⟩
  · exact absurd null some_
  · exact ⟨others, ring, perm, length_le_pointerSpace ring.nodup⟩

theorem ProcInvariant.nodup (inv : ProcInvariant s created) : created.Nodup := by
  rcases inv.ring with ⟨-, rfl⟩ | ⟨others, ring, perm⟩
  · exact List.nodup_nil
  · exact perm.nodup_iff.mp ring.nodup

/-- The ring is the same read from any of its processes, whatever happens to the
other fields. -/
theorem ProcInvariant.of_same (inv : ProcInvariant s created)
    (current : s'.currentProcess = s.currentProcess ∨ s'.currentProcess ∈ created)
    (next : s'.next = s.next) (pid : ∀ p, (s'.pcb p).pid = (s.pcb p).pid)
    (nextPid : s'.nextPid = s.nextPid)
    (running : ∀ p ∈ created, (s'.pcb p).state = .running → p = s'.currentProcess) :
    ProcInvariant s' created := by
  refine ⟨inv.notNull, ?_, by simp only [pid, inv.pids], nextPid.trans inv.nextPid, running⟩
  rw [next]
  rcases inv.ring with ⟨null, rfl⟩ | ⟨others, ring, perm⟩
  · rcases current with same | member
    · exact .inl ⟨same.trans null, rfl⟩
    · cases member
  · right
    rcases current with same | member
    · exact ⟨others, same ▸ ring, same ▸ perm⟩
    · rcases List.mem_cons.mp (perm.mem_iff.mpr member) with same | other
      · exact ⟨others, same ▸ ring, same ▸ perm⟩
      · rcases List.append_of_mem other with ⟨l₁, l₂, shape⟩
        subst shape
        refine ⟨l₂ ++ s.currentProcess :: l₁, ring.rotate, List.Perm.trans ?_ perm⟩
        exact @List.perm_append_comm _ (s'.currentProcess :: l₂) _

/-! ## Every operation but creation leaves the list alone -/

/-- A store to the state field of any process, other than RUNNING. -/
theorem ProcInvariant.setState (inv : ProcInvariant s created) (p : Word) {state : ProcessState}
    (other : state ≠ .running) :
    ProcInvariant (s.setPcb p fun b => { b with state := state }) created := by
  refine inv.of_same (.inl rfl) (funext fun q => setPcb_field Pcb.next rfl)
    (fun q => setPcb_field Pcb.pid rfl) rfl fun q member running => ?_
  rw [setPcb_pcb] at running
  split at running
  · exact absurd running other
  · exact inv.running q member running

theorem ProcInvariant.exit (inv : ProcInvariant s created) :
    ProcInvariant (processExit s) created := by
  unfold processExit
  split
  · exact inv
  · exact inv.setState _ (by decide)

theorem ProcInvariant.block (inv : ProcInvariant s created) (p : Word) :
    ProcInvariant (processBlock p s) created := by
  unfold processBlock
  split
  · exact inv.setState p (by decide)
  · exact inv

theorem ProcInvariant.unblock (inv : ProcInvariant s created) (p : Word) :
    ProcInvariant (processUnblock p s) created := by
  unfold processUnblock
  split
  · exact inv.setState p (by decide)
  · exact inv

/-- What `process_block_others` does: it blocks every process but the current and
the dead ones. -/
theorem ProcInvariant.processBlockOthers (inv : ProcInvariant s created) :
    ∃ s', processBlockOthers s = some s' ∧ s'.currentProcess = s.currentProcess ∧
      s'.nextPid = s.nextPid ∧ ∀ p, s'.pcb p =
        if p ∈ created ∧ p ≠ s.currentProcess ∧ (s.pcb p).state ≠ .dead then
          { s.pcb p with state := .blocked } else s.pcb p := by
  unfold Learnix.processBlockOthers
  by_cases null : s.currentProcess = 0#32
  · refine ⟨s, if_pos null, rfl, rfl, fun p => ?_⟩
    rcases inv.ring with ⟨-, rfl⟩ | ⟨others, -, perm⟩
    · rw [if_neg fun both => by cases both.1]
    · exact absurd (perm.mem_iff.mp (null ▸ List.mem_cons_self)) inv.notNull
  · rcases inv.exists_ring null with ⟨others, ring, perm, enough⟩
    rcases List.nodup_cons.mp ring.nodup with ⟨once, nodup⟩
    rcases foldl_blockAlive nodup s with ⟨current, nextPid, pcbs⟩
    rw [if_neg null]
    refine ⟨_, blockOthersLoop_path ring.path once enough, current, nextPid, fun p => ?_⟩
    have member : p ∈ others ↔ p ∈ created ∧ p ≠ s.currentProcess := by
      rw [← perm.mem_iff, List.mem_cons]
      constructor
      · exact fun other => ⟨.inr other, fun eq => once (eq ▸ other)⟩
      · exact fun both => both.1.resolve_left both.2
    simp only [pcbs, member, and_assoc]

/-- What is known of a call of `process_block_others` that has returned. -/
theorem ProcInvariant.blockedOthers (inv : ProcInvariant s created)
    (call : Learnix.processBlockOthers s = some s') :
    s'.currentProcess = s.currentProcess ∧ s'.nextPid = s.nextPid ∧ ∀ p, s'.pcb p =
      if p ∈ created ∧ p ≠ s.currentProcess ∧ (s.pcb p).state ≠ .dead then
        { s.pcb p with state := .blocked } else s.pcb p := by
  obtain ⟨t, call', effect⟩ := inv.processBlockOthers
  rw [call] at call'
  cases call'
  exact effect

theorem ProcInvariant.blockOthers (inv : ProcInvariant s created)
    (call : Learnix.processBlockOthers s = some s') : ProcInvariant s' created := by
  rcases inv.blockedOthers call with ⟨current, nextPid, pcbs⟩
  refine inv.of_same (.inl current) (funext fun p => ?_) (fun p => ?_) nextPid
    fun p member running => ?_
  · unfold ProcState.next
    rw [pcbs]
    split <;> rfl
  · rw [pcbs]
    split <;> rfl
  · rw [pcbs] at running
    rw [current]
    split at running
    · cases running
    · exact inv.running p member running

/-- The current process may be made the running one. -/
theorem ProcInvariant.runCurrent (inv : ProcInvariant s created) :
    ProcInvariant (s.setPcb s.currentProcess fun b => { b with state := .running }) created := by
  refine inv.of_same (.inl rfl) (funext fun _ => startCurrent_field Pcb.next fun _ _ => rfl)
    (fun _ => startCurrent_field Pcb.pid fun _ _ => rfl) rfl fun p member running => ?_
  by_cases here : p = s.currentProcess
  · exact here
  · rw [setPcb_pcb_of_ne here] at running
    exact inv.running p member running

theorem ProcInvariant.start (inv : ProcInvariant s created) :
    ProcInvariant (schedulerStart s).2 created := by
  unfold schedulerStart
  split
  · exact inv
  · have started := inv.runCurrent
    exact started.of_same (.inl rfl) rfl (fun _ => rfl) rfl started.running

/-- The process that a tick would switch to is one of the ring. -/
theorem ProcInvariant.landing_mem (inv : ProcInvariant s created)
    (some_ : s.currentProcess ≠ 0#32) : landing s ∈ created := by
  rcases inv.exists_ring some_ with ⟨others, ring, perm, -⟩
  rcases skipLoop_eq s maxProcesses (s.next s.currentProcess) with ⟨k, -, at_, -⟩
  rw [landing, at_, ← Function.iterate_succ_apply]
  exact perm.mem_iff.mp (ring.iterate_mem _)

theorem ProcInvariant.countTick (inv : ProcInvariant s created) :
    ProcInvariant (countTick s) created :=
  inv.of_same (.inl rfl) (funext fun _ => countTick_field Pcb.next fun _ _ => rfl)
    (fun _ => countTick_field Pcb.pid fun _ _ => rfl) rfl fun p member running =>
      inv.running p member ((countTick_field Pcb.state fun _ _ => rfl).symm.trans running)

theorem ProcInvariant.saveContext (inv : ProcInvariant s created) (esp : Word) :
    ProcInvariant (saveContext esp s) created :=
  inv.of_same (.inl rfl) (funext fun _ => saveContext_field Pcb.next fun _ _ => rfl)
    (fun _ => saveContext_field Pcb.pid fun _ _ => rfl) rfl fun p member running =>
      inv.running p member ((saveContext_field Pcb.state fun _ _ => rfl).symm.trans running)

theorem ProcInvariant.switchTo (inv : ProcInvariant s created) (member : q ∈ created) :
    ProcInvariant (switchTo q s) created := by
  refine inv.of_same (.inr member) (funext fun _ => switchTo_field Pcb.next fun _ _ => rfl)
    (fun _ => switchTo_field Pcb.pid fun _ _ => rfl) rfl fun p memberP running => ?_
  rw [switchTo_state] at running
  split at running
  · next here => exact here
  · split at running
    · cases running
    · next other => exact absurd (inv.running p memberP running) other

theorem ProcInvariant.tick (inv : ProcInvariant s created) (esp : Word) :
    ProcInvariant (schedulerTick esp s).2 created := by
  generalize call : schedulerTick esp s = r
  cases Ticked.of_call call with
  | idle _ => exact inv
  | counted _ _ => exact inv.countTick
  | kept _ _ _ => exact inv.countTick.saveContext esp
  | switched active _ _ _ =>
      exact (inv.countTick.saveContext esp).switchTo (inv.landing_mem active.2)

/-! ## Creation -/

/-- `s'` is `s` with other successors in the PCBs, and maybe another current process. -/
structure Relinked (s s' : ProcState) : Prop where
  pcb : ∀ q, ∃ next, s'.pcb q = { s.pcb q with next := next }
  nextPid : s'.nextPid = s.nextPid
  tickCount : s'.tickCount = s.tickCount
  schedulerRunning : s'.schedulerRunning = s.schedulerRunning

theorem setPcb_next_pcb (s : ProcState) (p q next : Word) : ∃ n,
    (s.setPcb p fun b => { b with next := next }).pcb q = { s.pcb q with next := n } := by
  rw [setPcb_pcb]
  split
  · next here => exact ⟨next, by rw [here]⟩
  · exact ⟨(s.pcb q).next, rfl⟩

/-- The first process is a ring of its own. -/
theorem linkProcess_first (proc : Word) (null : s.currentProcess = 0#32) :
    ∃ s', linkProcess proc s = some s' ∧ Relinked s s' ∧ s'.currentProcess = proc ∧
      IsRing s'.next proc [] := by
  refine ⟨_, if_pos null, ⟨fun q => setPcb_next_pcb s proc q proc, rfl, rfl, rfl⟩, rfl, ?_⟩
  apply isRing_singleton
  unfold ProcState.next
  simp only [setPcb_pcb_self]

/-- A further process comes last, just before the current one. -/
theorem linkProcess_ring (proc : Word) (some_ : s.currentProcess ≠ 0#32)
    (ring : IsRing s.next s.currentProcess others) (fresh : proc ∉ s.currentProcess :: others) :
    ∃ s', linkProcess proc s = some s' ∧ Relinked s s' ∧
      s'.currentProcess = s.currentProcess ∧
      IsRing s'.next s.currentProcess (others ++ [proc]) := by
  rcases List.nodup_cons.mp ring.nodup with ⟨once, -⟩
  have walk := findLast_path ring.path once (length_le_pointerSpace ring.nodup)
  have memberLast := List.getLast_mem (List.cons_ne_nil s.currentProcess others)
  generalize last : (s.currentProcess :: others).getLast (List.cons_ne_nil _ _) = tmp at walk
  rw [last] at memberLast
  have apart : tmp ≠ proc := fun eq => fresh (eq ▸ memberLast)
  refine ⟨(s.setPcb tmp fun b => { b with next := proc }).setPcb proc fun b =>
    { b with next := s.currentProcess }, ?_, ⟨fun q => ?_, rfl, rfl, rfl⟩, rfl, ?_⟩
  · rw [linkProcess, if_neg some_, walk]
    rfl
  · rcases setPcb_next_pcb s tmp q proc with ⟨n, first⟩
    obtain ⟨k, second⟩ := setPcb_next_pcb (s.setPcb tmp fun b => { b with next := proc }) proc q
      s.currentProcess
    exact ⟨k, by rw [second, first]⟩
  · refine ring.insert fresh ?_ ?_ fun q member notLast => ?_
    · rw [last]
      unfold ProcState.next
      rw [setPcb_pcb_of_ne apart, setPcb_pcb_self]
    · unfold ProcState.next
      rw [setPcb_pcb_self]
    · rw [last] at notLast
      have other : q ≠ proc := fun eq => fresh (eq ▸ member)
      unfold ProcState.next
      rw [setPcb_pcb_of_ne other, setPcb_pcb_of_ne notLast]

/-- Wherever a process is put in, only successors change. -/
theorem linkProcess_relinked {proc : Word} (call : linkProcess proc s = some s') :
    Relinked s s' := by
  unfold linkProcess at call
  split at call
  · cases call
    exact ⟨fun q => setPcb_next_pcb s proc q proc, rfl, rfl, rfl⟩
  · rcases Option.map_eq_some_iff.mp call with ⟨tmp, -, rfl⟩
    refine ⟨fun q => ?_, rfl, rfl, rfl⟩
    rcases setPcb_next_pcb s tmp q proc with ⟨n, first⟩
    obtain ⟨k, second⟩ := setPcb_next_pcb (s.setPcb tmp fun b => { b with next := proc }) proc q
      s.currentProcess
    exact ⟨k, by rw [second, first]⟩

/-- What `process_create` returns, by the answers of the heap to its two requests. -/
inductive Creates {η : Type} (heap : Allocator η) (entry : Word) (name : List Byte)
    (priority : Word) (s : ProcState) (h : η) : Word × ProcState × η → Prop
  | noBlock {h₁ : η} : heap.kmalloc (BitVec.ofNat 32 processBytes) h = (0#32, h₁) →
    Creates heap entry name priority s h (0#32, s, h₁)
  | noStack {proc : Word} {h₁ h₂ : η} :
    heap.kmalloc (BitVec.ofNat 32 processBytes) h = (proc, h₁) → proc ≠ 0#32 →
    heap.kmalloc (BitVec.ofNat 32 stackSize) h₁ = (0#32, h₂) →
    Creates heap entry name priority s h
      (0#32, s.setPcb proc fun b => { b with stack := 0#32 }, heap.kfree proc h₂)
  | joined {proc stack : Word} {h₁ h₂ : η} {s' : ProcState} :
    heap.kmalloc (BitVec.ofNat 32 processBytes) h = (proc, h₁) → proc ≠ 0#32 →
    heap.kmalloc (BitVec.ofNat 32 stackSize) h₁ = (stack, h₂) → stack ≠ 0#32 →
    linkProcess proc (setUpProcess proc stack entry name priority
      (s.setPcb proc fun b => { b with stack := stack })) = some s' →
    Creates heap entry name priority s h (proc, s', h₂)

theorem Creates.of_call {η : Type} {heap : Allocator η} {h : η} {entry priority : Word}
    {name : List Byte} {r : Word × ProcState × η}
    (call : processCreate heap entry name priority s h = some r) :
    Creates heap entry name priority s h r := by
  unfold processCreate at call
  rcases first : heap.kmalloc (BitVec.ofNat 32 processBytes) h with ⟨proc, h₁⟩
  rcases second : heap.kmalloc (BitVec.ofNat 32 stackSize) h₁ with ⟨stack, h₂⟩
  simp only [first, second] at call
  split at call
  · next null =>
    cases call
    exact .noBlock (null ▸ first)
  · next some_ =>
    split at call
    · next null =>
      cases call
      subst null
      exact .noStack first some_ second
    · next given =>
      rcases Option.map_eq_some_iff.mp call with ⟨s', link, rfl⟩
      exact .joined first some_ second given link

/-- Any heap could be one that answers from a list. -/
theorem Creates.answering {η : Type} {heap : Allocator η} {h h' : η} {entry priority r : Word}
    {name : List Byte} (creates : Creates heap entry name priority s h (r, s', h')) :
    ∃ stack rest, processCreate answering entry name priority s
      [(heap.kmalloc (BitVec.ofNat 32 processBytes) h).1, stack] = some (r, s', rest) := by
  cases creates with
  | noBlock first =>
      refine ⟨0#32, [0#32], ?_⟩
      simp [processCreate, Learnix.answering, first]
  | noStack first some_ second =>
      refine ⟨0#32, [], ?_⟩
      simp [processCreate, Learnix.answering, first, some_]
  | @joined proc stack h₁ _ _ first some_ second given link =>
      refine ⟨stack, [], ?_⟩
      simp [processCreate, Learnix.answering, first, some_, given, link]

/-- What `process_create` returns depends on the heap by its answers only. -/
theorem exists_processCreate {η : Type} {heap : Allocator η} {h h₁ h₂ : η}
    {proc stack entry priority r : Word} {name : List Byte} {rest : List Word}
    (first : heap.kmalloc (BitVec.ofNat 32 processBytes) h = (proc, h₁))
    (second : heap.kmalloc (BitVec.ofNat 32 stackSize) h₁ = (stack, h₂))
    (call : processCreate Learnix.answering entry name priority s [proc, stack] =
      some (r, s', rest)) :
    ∃ h', processCreate heap entry name priority s h = some (r, s', h') := by
  cases Creates.of_call call with
  | noBlock null =>
      have zero : proc = 0#32 := congrArg Prod.fst null
      exact ⟨h₁, by simp [processCreate, first, zero]⟩
  | @noStack here rest₁ _ block some_ null =>
      have same : proc = here := congrArg Prod.fst block
      have tail : [stack] = rest₁ := congrArg Prod.snd block
      subst same tail
      have zero : stack = 0#32 := congrArg Prod.fst null
      exact ⟨heap.kfree proc h₂, by simp [processCreate, first, second, some_, zero]⟩
  | @joined _ there rest₁ _ _ block some_ given notNull link =>
      have same : proc = r := congrArg Prod.fst block
      have tail : [stack] = rest₁ := congrArg Prod.snd block
      subst same tail
      have same : stack = there := congrArg Prod.fst given
      subst same
      exact ⟨h₂, by simp [processCreate, first, second, some_, notNull, link]⟩

/-- The PCB of a new process. -/
theorem setUpProcess_link {proc stack entry priority : Word} {name : List Byte}
    (link : linkProcess proc (setUpProcess proc stack entry name priority
      (s.setPcb proc fun b => { b with stack := stack })) = some s') :
    ∃ next, s'.pcb proc = ⟨s.nextPid, .ready, priority, (initialStack entry stack s.mem).1, stack,
      copyName 31 name, 0#32, priority * 5#32, next⟩ := by
  rcases (linkProcess_relinked link).pcb proc with ⟨next, pcb⟩
  refine ⟨next, ?_⟩
  rw [pcb]
  simp [setUpProcess]

/-- What a successful `process_create` does. -/
structure Joined (s s' : ProcState) (proc stack entry : Word) : Prop where
  state : (s'.pcb proc).state = .ready
  pid : (s'.pcb proc).pid = s.nextPid
  esp : (s'.pcb proc).esp = (initialStack entry stack s.mem).1
  kept : ∀ q, q ≠ proc → ∃ next, s'.pcb q = { s.pcb q with next := next }
  nextPid : s'.nextPid = s.nextPid + 1#32
  tickCount : s'.tickCount = s.tickCount
  schedulerRunning : s'.schedulerRunning = s.schedulerRunning
  first : s.currentProcess = 0#32 → s'.currentProcess = proc ∧ IsRing s'.next proc []
  ring : s.currentProcess ≠ 0#32 → s'.currentProcess = s.currentProcess ∧
    ∀ others, IsRing s.next s.currentProcess others →
      IsRing s'.next s.currentProcess (others ++ [proc])

/-- What a failed `process_create` leaves: at most the block that it freed again has
changed. -/
structure Unjoined (s s' : ProcState) (proc : Word) : Prop where
  kept : ∀ q, q ≠ proc → s'.pcb q = s.pcb q
  currentProcess : s'.currentProcess = s.currentProcess
  nextPid : s'.nextPid = s.nextPid
  tickCount : s'.tickCount = s.tickCount
  schedulerRunning : s'.schedulerRunning = s.schedulerRunning

/-- `process_create` always returns: with null if an allocation failed, or with the new
process in the ring. -/
theorem ProcInvariant.processCreate (inv : ProcInvariant s created) {proc : Word}
    (fresh : proc ∉ created) (stack entry : Word) (name : List Byte) (priority : Word) :
    ∃ r s' h, processCreate answering entry name priority s [proc, stack] = some (r, s', h) ∧
      (r = 0#32 ∧ (proc = 0#32 ∨ stack = 0#32) ∧ Unjoined s s' proc ∨
        r = proc ∧ proc ≠ 0#32 ∧ Joined s s' proc stack entry) := by
  by_cases noBlock : proc = 0#32
  · refine ⟨0#32, s, [stack], ?_, .inl ⟨rfl, .inl noBlock, fun _ _ => rfl, rfl, rfl, rfl,
      rfl⟩⟩
    simp [Learnix.processCreate, answering, noBlock]
  by_cases noStack : stack = 0#32
  · refine ⟨0#32, s.setPcb proc fun b => { b with stack := stack }, [], ?_,
      .inl ⟨rfl, .inr noStack, fun q other => setPcb_pcb_of_ne other, rfl, rfl, rfl, rfl⟩⟩
    simp [Learnix.processCreate, answering, noBlock, noStack]
  generalize setUp : setUpProcess proc stack entry name priority
    (s.setPcb proc fun b => { b with stack := stack }) = u
  have call : ∀ s', linkProcess proc u = some s' →
      Learnix.processCreate answering entry name priority s [proc, stack] =
        some (proc, s', []) := by
    intro s' link
    simp [Learnix.processCreate, answering, noBlock, noStack, setUp, link]
  have kept : ∀ q, q ≠ proc → u.pcb q = s.pcb q := by
    intro q other
    subst setUp
    simp only [setUpProcess, setPcb_pcb_of_ne other]
  have current : u.currentProcess = s.currentProcess := by subst setUp; rfl
  have new : (u.pcb proc).state = .ready ∧ (u.pcb proc).pid = s.nextPid ∧
      (u.pcb proc).esp = (initialStack entry stack s.mem).1 := by
    subst setUp
    simp [setUpProcess]
  have rest : u.nextPid = s.nextPid + 1#32 ∧ u.tickCount = s.tickCount ∧
      u.schedulerRunning = s.schedulerRunning := by
    subst setUp
    exact ⟨rfl, rfl, rfl⟩
  have joined : ∀ s', Relinked u s' →
      (s.currentProcess = 0#32 → s'.currentProcess = proc ∧ IsRing s'.next proc []) →
      (s.currentProcess ≠ 0#32 → s'.currentProcess = s.currentProcess ∧
        ∀ others, IsRing s.next s.currentProcess others →
          IsRing s'.next s.currentProcess (others ++ [proc])) →
      Joined s s' proc stack entry := by
    intro s' relinked first ring
    rcases relinked.pcb proc with ⟨next, pcb⟩
    refine ⟨by rw [pcb]; exact new.1, by rw [pcb]; exact new.2.1, by rw [pcb]; exact new.2.2,
      fun q other => ?_, relinked.nextPid.trans rest.1, relinked.tickCount.trans rest.2.1,
      relinked.schedulerRunning.trans rest.2.2, first, ring⟩
    rcases relinked.pcb q with ⟨n, pcbQ⟩
    exact ⟨n, by rw [pcbQ, kept q other]⟩
  by_cases null : s.currentProcess = 0#32
  · rcases linkProcess_first proc (current.trans null) with ⟨s', link, relinked, now, ring⟩
    exact ⟨proc, s', [], call s' link, .inr ⟨rfl, noBlock, joined s' relinked
      (fun _ => ⟨now, ring⟩) fun some_ => absurd null some_⟩⟩
  · rcases inv.exists_ring null with ⟨others, ring, perm, -⟩
    have outside : proc ∉ s.currentProcess :: others := fun member =>
      fresh (perm.mem_iff.mp member)
    have same : IsRing u.next u.currentProcess others := by
      rw [current]
      refine ring.congr fun q member => ?_
      unfold ProcState.next
      rw [kept q fun eq => outside (eq ▸ member)]
    obtain ⟨s', link, relinked, now, grown⟩ := linkProcess_ring proc
      (current ▸ null) same (current ▸ outside)
    refine ⟨proc, s', [], call s' link, .inr ⟨rfl, noBlock, joined s' relinked
      (fun none => absurd none null) fun _ => ⟨now.trans current, fun l ringL => ?_⟩⟩⟩
    rw [ringL.unique ring, ← current]
    exact grown

/-- The two outcomes of a call of `process_create` that has returned. -/
theorem ProcInvariant.created_cases (inv : ProcInvariant s created)
    {proc stack entry priority r : Word} {name : List Byte} {h : List Word}
    (fresh : proc ∉ created)
    (call : Learnix.processCreate answering entry name priority s [proc, stack] = some (r, s', h)) :
    r = 0#32 ∧ Unjoined s s' proc ∨ r = proc ∧ proc ≠ 0#32 ∧ Joined s s' proc stack entry := by
  rcases inv.processCreate fresh stack entry name priority with ⟨r', s'', h', call', outcome⟩
  rw [call] at call'
  cases call'
  exact outcome.imp_left fun failed => ⟨failed.1, failed.2.2⟩

/-- The processes there are keep their PCBs but for `next`. -/
theorem ProcInvariant.created_pcb (inv : ProcInvariant s created)
    {proc stack entry priority r q : Word} {name : List Byte} {h : List Word}
    (fresh : proc ∉ created) (member : q ∈ created)
    (call : Learnix.processCreate answering entry name priority s [proc, stack] = some (r, s', h)) :
    ∃ next, s'.pcb q = { s.pcb q with next := next } := by
  have other : q ≠ proc := fun eq => fresh (eq ▸ member)
  rcases inv.created_cases fresh call with ⟨-, unjoined⟩ | ⟨-, -, joined⟩
  · exact ⟨(s.pcb q).next, unjoined.kept q other⟩
  · exact joined.kept q other

theorem ProcInvariant.create (inv : ProcInvariant s created) {proc stack entry : Word}
    (fresh : proc ∉ created) (notNull : proc ≠ 0#32) (joined : Joined s s' proc stack entry) :
    ProcInvariant s' (created ++ [proc]) := by
  have old : ∀ q ∈ created, q ≠ proc := fun q member eq => fresh (eq ▸ member)
  have field : ∀ {β : Type} (f : Pcb → β), (∀ b next, f { b with next := next } = f b) →
      ∀ q ∈ created, f (s'.pcb q) = f (s.pcb q) := by
    intro β f same q member
    rcases joined.kept q (old q member) with ⟨next, pcb⟩
    rw [pcb, same]
  refine ⟨?_, .inr ?_, ?_, ?_, fun q member running => ?_⟩
  · rw [List.mem_append, List.mem_singleton]
    exact fun either => either.elim inv.notNull fun eq => notNull eq.symm
  · rcases inv.ring with ⟨null, rfl⟩ | ⟨others, ring, perm⟩
    · rcases joined.first null with ⟨current, single⟩
      exact ⟨[], current ▸ single, current ▸ List.Perm.refl _⟩
    · have some_ : s.currentProcess ≠ 0#32 := fun null =>
        inv.notNull (null ▸ perm.mem_iff.mp List.mem_cons_self)
      rcases joined.ring some_ with ⟨current, grown⟩
      rw [current]
      exact ⟨others ++ [proc], grown others ring, perm.append_right [proc]⟩
  · have oldPids : created.map (fun p => (s'.pcb p).pid) = created.map fun p => (s.pcb p).pid :=
      List.map_congr_left (field Pcb.pid fun _ _ => rfl)
    rw [List.map_append, oldPids, inv.pids, List.length_append, List.length_singleton,
      List.range_succ, List.map_append, List.map_singleton, List.map_singleton, joined.pid,
      inv.nextPid]
  · rw [joined.nextPid, inv.nextPid, List.length_append, List.length_singleton,
      BitVec.ofNat_add (created.length + 1) 1]
  · rcases List.mem_append.mp member with earlier | new
    · have some_ : s.currentProcess ≠ 0#32 := by
        rcases inv.ring with ⟨-, none⟩ | ⟨others, -, perm⟩
        · rw [none] at earlier
          cases earlier
        · exact fun null => inv.notNull (null ▸ perm.mem_iff.mp List.mem_cons_self)
      rw [field Pcb.state (fun _ _ => rfl) q earlier] at running
      rw [(joined.ring some_).1]
      exact inv.running q earlier running
    · rw [List.mem_singleton.mp new, joined.state] at running
      cases running

theorem ProcInvariant.createFailed (inv : ProcInvariant s created) {proc : Word}
    (fresh : proc ∉ created) (unjoined : Unjoined s s' proc) : ProcInvariant s' created := by
  have old : ∀ q ∈ created, s'.pcb q = s.pcb q := fun q member =>
    unjoined.kept q fun eq => fresh (eq ▸ member)
  refine ⟨inv.notNull, ?_, ?_, unjoined.nextPid.trans inv.nextPid, fun q member running => ?_⟩
  · rw [unjoined.currentProcess]
    rcases inv.ring with none | ⟨others, ring, perm⟩
    · exact .inl none
    · refine .inr ⟨others, ring.congr fun q member => ?_, perm⟩
      unfold ProcState.next
      rw [old q (perm.mem_iff.mp member)]
  · rw [← inv.pids]
    exact List.map_congr_left fun q member => by rw [old q member]
  · rw [unjoined.currentProcess]
    rw [old q member] at running
    exact inv.running q member running

/-- **Step lemma.** -/
theorem ProcInvariant.step {s t : ProcRunState} {op : ProcOp}
    (inv : ProcInvariant s.proc s.created) (step : ProcStep s op t) :
    ProcInvariant t.proc t.created := by
  cases step with
  | @create proc stack entry priority r name s' h fresh call =>
      rcases inv.created_cases fresh call with ⟨rfl, unjoined⟩ | ⟨rfl, notNull, joined⟩
      · exact inv.createFailed fresh unjoined
      · simp only [if_neg notNull]
        exact inv.create fresh notNull joined
  | exit => exact inv.exit
  | block _ => exact inv.block _
  | unblock _ => exact inv.unblock _
  | blockOthers call => exact inv.blockOthers call
  | start => exact inv.start
  | tick => exact inv.tick _

/-- No process is ever taken off the list. -/
theorem ProcStep.mem_created {s t : ProcRunState} {op : ProcOp} {p : Word}
    (step : ProcStep s op t) (member : p ∈ s.created) : p ∈ t.created := by
  cases step with
  | create _ _ =>
      split
      · exact member
      · exact List.mem_append_left _ member
  | _ => exact member

/-- When both allocations succeed, so does `process_create`. -/
theorem ProcInvariant.exists_create {s : ProcRunState} (inv : ProcInvariant s.proc s.created)
    {proc stack : Word} (fresh : proc ∉ s.created) (notNull : proc ≠ 0#32) (given : stack ≠ 0#32)
    (entry : Word) (name : List Byte) (priority : Word) :
    ∃ s', ProcStep s (.create proc stack entry name priority) ⟨s', s.created ++ [proc]⟩ ∧
      Joined s.proc s' proc stack entry := by
  rcases inv.processCreate fresh stack entry name priority with ⟨r, s', h, call, outcome⟩
  rcases outcome with ⟨-, failed, -⟩ | ⟨rfl, -, joined⟩
  · exact absurd failed (not_or.mpr ⟨notNull, given⟩)
  · have step := ProcStep.create fresh call
    rw [if_neg notNull] at step
    exact ⟨s', step, joined⟩

/-- `s'` is `s` with other states in the PCBs. -/
structure Restated (s s' : ProcState) : Prop where
  currentProcess : s'.currentProcess = s.currentProcess
  pcb : ∀ q, ∃ state, s'.pcb q = { s.pcb q with state := state }

theorem restated_refl (s : ProcState) : Restated s s := ⟨rfl, fun q => ⟨(s.pcb q).state, rfl⟩⟩

theorem restated_setPcb (s : ProcState) (p : Word) (state : ProcessState) :
    Restated s (s.setPcb p fun b => { b with state := state }) := by
  refine ⟨rfl, fun q => ?_⟩
  rw [setPcb_pcb]
  split
  · next here => exact ⟨state, by rw [here]⟩
  · exact ⟨(s.pcb q).state, rfl⟩

/-- Apart from creation and ticks, operations store to state fields only. -/
theorem ProcStep.restated {s t : ProcRunState} {op : ProcOp}
    (inv : ProcInvariant s.proc s.created) (step : ProcStep s op t)
    (notCreate : ∀ proc stack entry name priority, op ≠ .create proc stack entry name priority)
    (notTick : ∀ esp, op ≠ .tick esp) : Restated s.proc t.proc ∧ t.created = s.created := by
  cases step with
  | create _ _ => exact absurd rfl (notCreate _ _ _ _ _)
  | exit =>
      refine ⟨?_, rfl⟩
      unfold processExit
      split
      · exact restated_refl _
      · exact restated_setPcb _ _ _
  | block _ =>
      refine ⟨?_, rfl⟩
      unfold processBlock
      split
      · exact restated_setPcb _ _ _
      · exact restated_refl _
  | unblock _ =>
      refine ⟨?_, rfl⟩
      unfold processUnblock
      split
      · exact restated_setPcb _ _ _
      · exact restated_refl _
  | blockOthers call =>
      rcases inv.blockedOthers call with ⟨current, -, pcbs⟩
      refine ⟨⟨current, fun q => ?_⟩, rfl⟩
      simp only [pcbs]
      split
      · exact ⟨.blocked, rfl⟩
      · exact ⟨(s.proc.pcb q).state, rfl⟩
  | start =>
      refine ⟨?_, rfl⟩
      unfold schedulerStart
      split
      · exact restated_refl _
      · exact ⟨rfl, (restated_setPcb s.proc s.proc.currentProcess .running).pcb⟩
  | tick => exact absurd rfl (notTick _)

/-- **Run lemma.** -/
theorem ProcInvariant.run {s t : ProcRunState} {tr : List (Sys.Event ProcRunState ProcOp)}
    (inv : ProcInvariant s.proc s.created) (run : Sys.Run ProcStep s tr t) :
    ProcInvariant t.proc t.created :=
  run.invariant (I := fun s => ProcInvariant s.proc s.created) inv fun inv step => inv.step step

end Learnix
