import Learnix.RingIntegrity
import Learnix.Lib.RoundRobin

/-!
# Proportional share

`scheduler_tick` on a ring whose states nothing else changes serves the current
process and the READY ones as a weighted round robin does, with five times the
priority as the weight (`Serves.tick`). So each of them gets exactly its share of
every lap, and the other processes nothing (`proportional_share`).
-/

namespace Learnix

open Machine CircularList

/-- The ticks of one turn of a process: what `process_create` makes its quantum, as a
number. -/
def share (s : ProcState) (p : Word) : Nat := 5 * (s.pcb p).priority.toNat

/-- The current process and the READY ones, in ring order. -/
def runnable (s : ProcState) (others : List Word) : List Word :=
  s.currentProcess :: others.filter fun p => (s.pcb p).state = .ready

/-- Ticks with the given stack pointers. -/
def ticks (esps : List Word) (s : ProcState) : ProcState :=
  esps.foldl (fun s esp => (schedulerTick esp s).2) s

/-- A ring of at most `MAX_PROCESSES` processes with the quantum that `process_create`
gives them, at the start of a turn. -/
structure FairStart (s : ProcState) (others : List Word) : Prop where
  ring : IsRing s.next s.currentProcess others
  few : (s.currentProcess :: others).length ≤ maxProcesses
  notNull : 0#32 ∉ s.currentProcess :: others
  started : s.schedulerRunning = true
  priority : ∀ p ∈ s.currentProcess :: others,
    1 ≤ (s.pcb p).priority.toNat ∧ 5 * (s.pcb p).priority.toNat < 2 ^ 32
  quantum : ∀ p ∈ s.currentProcess :: others,
    (s.pcb p).ticksQuantum = (s.pcb p).priority * 5#32
  fresh : s.tickCount = 0#32
  current : (s.pcb s.currentProcess).state = .running
  waiting : ∀ p ∈ others, (s.pcb p).state ≠ .running

/-- `s` is what the queue `r` is when the ticks that led to both started in `s₀`. -/
structure Serves (s₀ s : ProcState) (others : List Word) (r : RoundRobin.State Word) : Prop where
  ring : IsRing s.next s.currentProcess others
  few : (s.currentProcess :: others).length ≤ maxProcesses
  notNull : 0#32 ∉ s.currentProcess :: others
  started : s.schedulerRunning = true
  quantum : ∀ p ∈ s.currentProcess :: others, (s.pcb p).ticksQuantum.toNat = share s₀ p
  pos : ∀ p ∈ s.currentProcess :: others, 0 < share s₀ p
  within : s.tickCount.toNat < share s₀ s.currentProcess
  current : (s.pcb s.currentProcess).state = .running
  waiting : ∀ p ∈ others, (s.pcb p).state ≠ .running
  queue : r.queue = runnable s others
  used : r.used = s.tickCount.toNat
  gained : ∀ p, (s.pcb p).ticksTotal = (s₀.pcb p).ticksTotal + BitVec.ofNat 32 (r.gained p)
  outside : ∀ p, p ∉ r.queue → s.pcb p = s₀.pcb p

variable {s s₀ : ProcState} {others created : List Word} {r : RoundRobin.State Word}
  {p a z esp : Word} {l : List Word} {n : Nat}

theorem FairStart.serves (start : FairStart s others) :
    Serves s s others ⟨runnable s others, 0, fun _ => 0⟩ := by
  have quantum : ∀ p ∈ s.currentProcess :: others, (s.pcb p).ticksQuantum.toNat = share s p := by
    intro p member
    have bound := (start.priority p member).2
    rw [start.quantum p member, share, BitVec.toNat_mul, Nat.mul_comm]
    exact Nat.mod_eq_of_lt bound
  have pos : ∀ p ∈ s.currentProcess :: others, 0 < share s p := fun p member =>
    Nat.mul_pos (Nat.succ_pos 4) (start.priority p member).1
  have within : s.tickCount.toNat < share s s.currentProcess := by
    rw [start.fresh]
    exact pos s.currentProcess List.mem_cons_self
  have used : 0 = s.tickCount.toNat := by rw [start.fresh]; rfl
  exact ⟨start.ring, start.few, start.notNull, start.started, quantum, pos, within, start.current,
    start.waiting, rfl, used, fun p => (BitVec.add_zero _).symm, fun _ _ => rfl⟩

theorem Serves.active (serves : Serves s₀ s others r) : Active s :=
  ⟨serves.started, (List.ne_of_not_mem_cons serves.notNull).symm⟩

/-! ## Where the skip loop ends -/

/-- It follows a path of processes that it skips to one that it does not. -/
theorem skipLoop_path (path : Path s.next a l z) (skipped : ∀ p ∈ l, Skipped s p)
    (stop : ¬ Skipped s z) (enough : l.length ≤ n) : skipLoop s n (s.next a) = z := by
  induction l generalizing a n with
  | nil =>
      rw [path_nil.mp path]
      cases n with
      | zero => rfl
      | succ n => exact if_neg stop
  | cons b l ih =>
      rcases path_cons.mp path with ⟨first, rest⟩
      rcases Nat.exists_eq_succ_of_ne_zero (Nat.ne_zero_of_lt enough) with ⟨m, rfl⟩
      rw [first]
      exact (if_pos (skipped b List.mem_cons_self)).trans
        (ih rest (fun p member => skipped p (List.mem_cons_of_mem b member))
          (Nat.le_of_succ_le_succ enough))

theorem Serves.skipped (serves : Serves s₀ s others r) (member : p ∈ others)
    (notReady : (s.pcb p).state ≠ .ready) : Skipped s p := by
  have notRunning := serves.waiting p member
  unfold Skipped
  cases state : (s.pcb p).state with
  | ready => exact absurd state notReady
  | running => exact absurd state notRunning
  | blocked => exact .inr rfl
  | dead => exact .inl rfl

/-- The process that a tick lands on: the current one if no other is READY, and else
the first READY one. -/
inductive Lands (s : ProcState) : List Word → Prop
  | alone {others : List Word} : (∀ p ∈ others, (s.pcb p).state ≠ .ready) →
    landing s = s.currentProcess → Lands s others
  | next {before after : List Word} {p : Word} : (∀ q ∈ before, (s.pcb q).state ≠ .ready) →
    (s.pcb p).state = .ready → landing s = p → Lands s (before ++ p :: after)

theorem Serves.lands (serves : Serves s₀ s others r) : Lands s others := by
  have few : others.length ≤ maxProcesses := Nat.le_of_succ_le serves.few
  cases found : others.find? fun p => (s.pcb p).state = .ready with
  | none =>
      have none : ∀ p ∈ others, (s.pcb p).state ≠ .ready := by
        simpa using List.find?_eq_none.mp found
      have stop : ¬ Skipped s s.currentProcess := by
        rw [Skipped, serves.current]
        exact not_or.mpr ⟨nofun, nofun⟩
      exact .alone none (skipLoop_path serves.ring.path
        (fun p member => serves.skipped member (none p member)) stop few)
  | some p =>
      rcases List.find?_eq_some_iff_append.mp found with ⟨ready, before, after, shape, none⟩
      simp only [decide_eq_true_eq, Bool.not_eq_eq_eq_not, Bool.not_true,
        decide_eq_false_iff_not] at ready none
      subst shape
      have stop : ¬ Skipped s p := by
        rw [Skipped, ready]
        exact not_or.mpr ⟨nofun, nofun⟩
      rw [List.length_append] at few
      exact .next none ready (skipLoop_path (path_append.mp serves.ring.path).1
        (fun q member => serves.skipped (List.mem_append_left _ member) (none q member)) stop
        (Nat.le_of_add_right_le few))

/-! ## A tick serves one unit -/

/-- `s'` is `s` with a tick counted, and maybe the stack pointer saved. -/
structure TickCounted (s s' : ProcState) : Prop where
  currentProcess : s'.currentProcess = s.currentProcess
  schedulerRunning : s'.schedulerRunning = s.schedulerRunning
  next : s'.next = s.next
  state : ∀ p, (s'.pcb p).state = (s.pcb p).state
  quantum : ∀ p, (s'.pcb p).ticksQuantum = (s.pcb p).ticksQuantum
  total : ∀ p, (s'.pcb p).ticksTotal =
    (s.pcb p).ticksTotal + BitVec.ofNat 32 (if p = s.currentProcess then 1 else 0)
  other : ∀ p, p ≠ s.currentProcess → s'.pcb p = s.pcb p

theorem tickCounted_countTick (s : ProcState) : TickCounted s (countTick s) where
  currentProcess := rfl
  schedulerRunning := rfl
  next := funext fun p => countTick_field Pcb.next fun _ _ => rfl
  state := fun p => countTick_field Pcb.state fun _ _ => rfl
  quantum := fun p => countTick_field Pcb.ticksQuantum fun _ _ => rfl
  total := fun p => by
    unfold countTick
    simp only [setPcb_pcb]
    split
    · next here => rw [here]
    · exact (BitVec.add_zero _).symm
  other := fun p other => by
    unfold countTick
    simp only [setPcb_pcb_of_ne other]

theorem TickCounted.saveContext {s' : ProcState} (counted : TickCounted s s') (esp : Word) :
    TickCounted s (saveContext esp s') where
  currentProcess := counted.currentProcess
  schedulerRunning := counted.schedulerRunning
  next := (funext fun p => saveContext_field Pcb.next fun _ _ => rfl).trans counted.next
  state := fun p => (saveContext_field Pcb.state fun _ _ => rfl).trans (counted.state p)
  quantum := fun p => (saveContext_field Pcb.ticksQuantum fun _ _ => rfl).trans (counted.quantum p)
  total := fun p => (saveContext_field Pcb.ticksTotal fun _ _ => rfl).trans (counted.total p)
  other := fun p other => by
    have other' : p ≠ s'.currentProcess := counted.currentProcess ▸ other
    unfold Learnix.saveContext
    simp only [setPcb_pcb_of_ne other']
    exact counted.other p other

/-- The counter does not wrap around. -/
theorem Serves.tickCount_succ (serves : Serves s₀ s others r) :
    (s.tickCount + 1#32).toNat = r.used + 1 := by
  have quantum := serves.quantum s.currentProcess List.mem_cons_self
  have within := serves.within
  have bound := (s.pcb s.currentProcess).ticksQuantum.isLt
  rw [serves.used, BitVec.toNat_add, BitVec.toNat_ofNat]
  exact Nat.mod_eq_of_lt (by omega)

/-- The quantum of the process is its share of the lap. -/
theorem Serves.quantumUsed_iff (serves : Serves s₀ s others r) :
    QuantumUsed s ↔ ¬ r.used + 1 < share s₀ s.currentProcess := by
  rw [QuantumUsed, BitVec.lt_def, serves.tickCount_succ,
    serves.quantum s.currentProcess List.mem_cons_self]

/-- The unit goes to the current process. -/
theorem Serves.counted (serves : Serves s₀ s others r) {s' : ProcState}
    (counted : TickCounted s s') (within : s'.tickCount.toNat < share s₀ s.currentProcess) :
    Serves s₀ s' others
      ⟨r.queue, s'.tickCount.toNat, RoundRobin.credit s.currentProcess 1 r.gained⟩ := by
  have queue : r.queue = runnable s' others := by
    rw [serves.queue, runnable, runnable, counted.currentProcess]
    simp only [counted.state]
  have gained : ∀ p, (s'.pcb p).ticksTotal = (s₀.pcb p).ticksTotal +
      BitVec.ofNat 32 (RoundRobin.credit s.currentProcess 1 r.gained p) := by
    intro p
    rw [counted.total, RoundRobin.credit_apply, BitVec.ofNat_add, ← BitVec.add_assoc,
      ← serves.gained]
  have outside : ∀ p, p ∉ r.queue → s'.pcb p = s₀.pcb p := by
    intro p absent
    have other : p ≠ s.currentProcess := by
      rw [serves.queue] at absent
      exact List.ne_of_not_mem_cons absent
    rw [counted.other p other, serves.outside p absent]
  have ring := serves.ring
  have few := serves.few
  have notNull := serves.notNull
  have quantum := serves.quantum
  have pos := serves.pos
  have current := serves.current
  rw [← counted.currentProcess] at within ring few notNull quantum pos current
  rw [← counted.next] at ring
  rw [← counted.state] at current
  exact ⟨ring, few, notNull, counted.schedulerRunning.trans serves.started,
    fun p member => by rw [counted.quantum, quantum p member], pos, within, current,
    fun p member => by rw [counted.state]; exact serves.waiting p member, queue, rfl, gained,
    outside⟩

/-- The ring from the process that the switch goes to. -/
theorem rotated_perm {before after : List Word} :
    (s.currentProcess :: (before ++ p :: after)).Perm
      (p :: (after ++ s.currentProcess :: before)) := by
  rw [← List.cons_append, ← List.cons_append]
  exact List.perm_append_comm

/-- A switch changes the states of the two processes only. -/
theorem switchTo_state_of_mem {before after : List Word} {q : Word}
    (nodup : (s.currentProcess :: (before ++ p :: after)).Nodup) (member : q ∈ before ++ after) :
    ((switchTo p s).pcb q).state = (s.pcb q).state := by
  rcases List.nodup_cons.mp (rotated_perm.nodup_iff.mp nodup) with ⟨absent, nodup'⟩
  have notNext : q ≠ p := fun eq => absent (by
    rw [← eq, List.mem_append, List.mem_cons]
    exact (List.mem_append.mp member).elim (.inr ∘ .inr) .inl)
  have notPrev : q ≠ s.currentProcess := by
    intro eq
    rw [List.mem_append] at member
    rw [eq] at member
    exact (List.nodup_middle.mp nodup').notMem (List.mem_append.mpr member.symm)
  rw [switchTo_state, if_neg notNext, if_neg notPrev]

theorem switchTo_state_current {before after : List Word}
    (nodup : (s.currentProcess :: (before ++ p :: after)).Nodup) :
    ((switchTo p s).pcb s.currentProcess).state = .ready := by
  have here : s.currentProcess ≠ p := fun eq => (List.nodup_cons.mp nodup).1 (by simp [eq])
  rw [switchTo_state, if_neg here, if_pos rfl]

/-- The queue before a switch to the first READY process. -/
theorem runnable_of_first {before after : List Word}
    (none : ∀ q ∈ before, (s.pcb q).state ≠ .ready) (ready : (s.pcb p).state = .ready) :
    runnable s (before ++ p :: after) =
      s.currentProcess :: p :: after.filter fun q => (s.pcb q).state = .ready := by
  rw [runnable, List.filter_append, List.filter_cons_of_pos (by simpa using ready),
    List.filter_eq_nil_iff.mpr (by simpa using none)]
  rfl

/-- The switch takes the first process of the queue to its end. -/
theorem runnable_switchTo {before after : List Word}
    (nodup : (s.currentProcess :: (before ++ p :: after)).Nodup)
    (none : ∀ q ∈ before, (s.pcb q).state ≠ .ready) (ready : (s.pcb p).state = .ready) :
    runnable (switchTo p s) (after ++ s.currentProcess :: before) =
      (runnable s (before ++ p :: after)).tail ++ [s.currentProcess] := by
  have behind : after.filter (fun q => (s.pcb q).state = .ready) =
      after.filter fun q => ((switchTo p s).pcb q).state = .ready :=
    List.filter_congr fun q member => by
      rw [switchTo_state_of_mem nodup (List.mem_append_right _ member)]
  have skipped : before.filter (fun q => ((switchTo p s).pcb q).state = .ready) = [] :=
    List.filter_eq_nil_iff.mpr fun q member => by
      rw [switchTo_state_of_mem nodup (List.mem_append_left _ member)]
      simpa using none q member
  rw [runnable_of_first none ready, runnable, List.filter_append,
    List.filter_cons_of_pos (by simpa using switchTo_state_current nodup), skipped, ← behind]
  rfl

/-- The first READY process becomes the current one, which goes to the end. -/
theorem Serves.switchTo {before after queue : List Word} {gained : Word → Nat}
    (serves : Serves s₀ s (before ++ p :: after) ⟨queue, 0, gained⟩)
    (none : ∀ q ∈ before, (s.pcb q).state ≠ .ready) (ready : (s.pcb p).state = .ready) :
    Serves s₀ (switchTo p s) (after ++ s.currentProcess :: before)
      ⟨queue.tail ++ [s.currentProcess], 0, gained⟩ := by
  have nodup := serves.ring.nodup
  have next : (Learnix.switchTo p s).next = s.next :=
    funext fun q => switchTo_field Pcb.next fun _ _ => rfl
  have queue_ : queue = runnable s (before ++ p :: after) := serves.queue
  have new := runnable_switchTo nodup none ready
  rw [← queue_] at new
  have waiting : ∀ q ∈ after ++ s.currentProcess :: before,
      ((Learnix.switchTo p s).pcb q).state ≠ .running := by
    intro q member
    rw [List.mem_append, List.mem_cons] at member
    rcases member with behind | rfl | skipped
    · rw [switchTo_state_of_mem nodup (List.mem_append_right _ behind)]
      exact serves.waiting q (List.mem_append_right _ (List.mem_cons_of_mem p behind))
    · rw [switchTo_state_current nodup]
      nofun
    · rw [switchTo_state_of_mem nodup (List.mem_append_left _ skipped)]
      exact serves.waiting q (List.mem_append_left _ skipped)
  have outside : ∀ q, q ∉ queue.tail ++ [s.currentProcess] →
      (Learnix.switchTo p s).pcb q = s₀.pcb q := by
    intro q absentQ
    have old := queue_.trans (runnable_of_first none ready)
    have notQueued : q ∉ queue := by
      rw [old] at absentQ ⊢
      rw [List.tail_cons, List.mem_append, List.mem_singleton, not_or] at absentQ
      rw [List.mem_cons, not_or]
      exact absentQ.symm
    have notNext : q ≠ p := fun eq => notQueued (by rw [old, eq]; simp)
    have notPrev : q ≠ s.currentProcess := fun eq => notQueued (by rw [old, eq]; simp)
    unfold Learnix.switchTo
    simp only [setPcb_pcb_of_ne notNext, setPcb_pcb_of_ne notPrev]
    exact serves.outside q notQueued
  have few := serves.few
  rw [rotated_perm.length_eq] at few
  have start : s.tickCount.toNat = 0 := serves.used.symm
  have running : ((Learnix.switchTo p s).pcb p).state = .running := by
    rw [switchTo_state, if_pos rfl]
  have quantum : ∀ q ∈ p :: (after ++ s.currentProcess :: before),
      ((Learnix.switchTo p s).pcb q).ticksQuantum.toNat = share s₀ q := by
    intro q member
    rw [switchTo_field Pcb.ticksQuantum fun _ _ => rfl]
    exact serves.quantum q (rotated_perm.mem_iff.mpr member)
  have pos : ∀ q ∈ p :: (after ++ s.currentProcess :: before), 0 < share s₀ q := fun q member =>
    serves.pos q (rotated_perm.mem_iff.mpr member)
  have within : s.tickCount.toNat < share s₀ p := start ▸ pos p List.mem_cons_self
  exact ⟨by rw [next]; exact serves.ring.rotate, few,
    mt rotated_perm.mem_iff.mpr serves.notNull, serves.started, quantum, pos, within, running,
    waiting, new.symm, start.symm,
    fun q => (switchTo_field Pcb.ticksTotal fun _ _ => rfl).trans (serves.gained q), outside⟩

/-- **Step lemma.** A tick is a tick of the round robin. -/
theorem Serves.tick (serves : Serves s₀ s others r) (esp : Word) :
    ∃ others', Serves s₀ (schedulerTick esp s).2 others' (RoundRobin.tick (share s₀) r) := by
  have served : RoundRobin.tick (share s₀) r =
      if r.used + 1 < share s₀ s.currentProcess then
        ⟨r.queue, r.used + 1, RoundRobin.credit s.currentProcess 1 r.gained⟩
      else
        ⟨r.queue.tail ++ [s.currentProcess], 0,
          RoundRobin.credit s.currentProcess 1 r.gained⟩ := by
    rw [RoundRobin.tick, serves.queue, runnable]
    rfl
  have saved : Serves s₀ (saveContext esp (countTick s)) others
      ⟨r.queue, 0, RoundRobin.credit s.currentProcess 1 r.gained⟩ :=
    serves.counted ((tickCounted_countTick s).saveContext esp)
      (serves.pos s.currentProcess List.mem_cons_self)
  have sameState : ∀ p, ((saveContext esp (countTick s)).pcb p).state = (s.pcb p).state :=
    ((tickCounted_countTick s).saveContext esp).state
  generalize call : schedulerTick esp s = result
  cases Ticked.of_call call with
  | idle idle => exact absurd serves.active idle
  | counted _ unused =>
      have goesOn := not_not.mp (mt serves.quantumUsed_iff.mpr unused)
      have count : (countTick s).tickCount.toNat = r.used + 1 := serves.tickCount_succ
      rw [served, if_pos goesOn, ← count]
      exact ⟨others, serves.counted (tickCounted_countTick s) (count ▸ goesOn)⟩
  | kept _ used keeps =>
      rw [served, if_neg (serves.quantumUsed_iff.mp used)]
      cases serves.lands with
      | alone none _ =>
          have queue : r.queue = [s.currentProcess] := by
            rw [serves.queue, runnable, List.filter_eq_nil_iff.mpr (by simpa using none)]
          rw [queue] at saved ⊢
          exact ⟨others, saved⟩
      | @next before after p none ready land =>
          have other : p ≠ s.currentProcess := fun eq =>
            (List.nodup_cons.mp serves.ring.nodup).1 (by simp [← eq])
          rw [land, ready] at keeps
          exact absurd keeps (not_or.mpr ⟨other, nofun⟩)
  | switched _ used moves _ =>
      rw [served, if_neg (serves.quantumUsed_iff.mp used)]
      cases serves.lands with
      | alone _ here => exact absurd here moves
      | @next before after p none ready land =>
          rw [land]
          exact ⟨_, saved.switchTo (fun q member => sameState q ▸ none q member)
            ((sameState p).trans ready)⟩

/-- **Run lemma.** -/
theorem Serves.ticks (serves : Serves s₀ s others r) (esps : List Word) :
    ∃ others', Serves s₀ (ticks esps s) others'
      ((RoundRobin.tick (share s₀))^[esps.length] r) := by
  induction esps generalizing s others r with
  | nil => exact ⟨others, serves⟩
  | cons esp esps ih =>
      rcases serves.tick esp with ⟨others', after⟩
      exact ih after

theorem runnable_sublist : (runnable s others).Sublist (s.currentProcess :: others) :=
  List.filter_sublist.cons_cons _

theorem mem_iterate_tick {weight : Word → Nat} (n : Nat) (r : RoundRobin.State Word) :
    p ∈ ((RoundRobin.tick weight)^[n] r).queue ↔ p ∈ r.queue := by
  induction n generalizing r with
  | zero => exact Iff.rfl
  | succ n ih => rw [Function.iterate_succ_apply, ih, RoundRobin.mem_tick]

/-- From the start of a turn, with the states of the other processes left alone, the
current process and the READY ones run in ring order, each for its share of ticks, lap
after lap. After `k` laps each has gained `k` times its share and the first is current
again; the other processes have gained nothing and are as they were, all along. -/
theorem proportional_share (start : FairStart s others) :
    (∀ esps, some (ticks esps s).currentProcess =
      (RoundRobin.turns (share s) (runnable s others))[
        esps.length % RoundRobin.lap (share s) (runnable s others)]?) ∧
    (∀ esps p, p ∉ runnable s others → (ticks esps s).pcb p = s.pcb p) ∧
    ∀ k esps, esps.length = k * RoundRobin.lap (share s) (runnable s others) →
      (ticks esps s).currentProcess = s.currentProcess ∧
      ∀ p ∈ runnable s others, ((ticks esps s).pcb p).ticksTotal =
        (s.pcb p).ticksTotal + BitVec.ofNat 32 (k * share s p) := by
  have pos : ∀ p ∈ runnable s others, 0 < share s p := fun p member =>
    start.serves.pos p (runnable_sublist.subset member)
  have nodup : (runnable s others).Nodup := start.ring.nodup.sublist runnable_sublist
  have some_ : 0 < RoundRobin.lap (share s) (runnable s others) := by
    have first := pos s.currentProcess List.mem_cons_self
    rw [runnable, RoundRobin.lap_cons]
    exact Nat.add_pos_left first _
  have current : ∀ esps, some (ticks esps s).currentProcess =
      (RoundRobin.turns (share s) (runnable s others))[
        esps.length % RoundRobin.lap (share s) (runnable s others)]? := by
    intro esps
    rcases start.serves.ticks esps with ⟨others', serves⟩
    rw [← RoundRobin.head_iterate pos some_ (fun _ => 0), serves.queue]
    rfl
  refine ⟨current, fun esps p absent => ?_, fun k esps length => ⟨?_, fun p member => ?_⟩⟩
  · rcases start.serves.ticks esps with ⟨others', serves⟩
    exact serves.outside p (mt (mem_iterate_tick _ _).mp absent)
  · rcases start.serves.ticks esps with ⟨others', serves⟩
    have queue := serves.queue
    rw [length, RoundRobin.iterate_laps pos] at queue
    exact (List.cons.inj queue).1.symm
  · rcases start.serves.ticks esps with ⟨others', serves⟩
    have gained := serves.gained p
    rw [length, RoundRobin.iterate_laps pos] at gained
    dsimp only at gained
    rw [gained, List.count_eq_one_of_mem nodup member, Nat.one_mul, Nat.zero_add]

/-! ## Runs that lead to the start of a turn -/

/-- The quantum is the one that `process_create` gave. -/
def QuantumGiven (s : ProcState) (created : List Word) : Prop :=
  ∀ p ∈ created, (s.pcb p).ticksQuantum = (s.pcb p).priority * 5#32

theorem QuantumGiven.of_same {s' : ProcState} (given : QuantumGiven s created)
    (same : ∀ p ∈ created, (s'.pcb p).ticksQuantum = (s.pcb p).ticksQuantum ∧
      (s'.pcb p).priority = (s.pcb p).priority) : QuantumGiven s' created := by
  intro p member
  rw [(same p member).1, (same p member).2, given p member]

/-- **Step lemma.** -/
theorem QuantumGiven.step {s t : ProcRunState} {op : ProcOp}
    (inv : ProcInvariant s.proc s.created) (given : QuantumGiven s.proc s.created)
    (step : ProcStep s op t) : QuantumGiven t.proc t.created := by
  have restated (notCreate : ∀ proc stack entry name priority,
      op ≠ .create proc stack entry name priority) (notTick : ∀ esp, op ≠ .tick esp) :
      QuantumGiven t.proc t.created := by
    rcases step.restated inv notCreate notTick with ⟨restated, same⟩
    rw [same]
    refine given.of_same fun p _ => ?_
    rcases restated.pcb p with ⟨state, pcb⟩
    rw [pcb]
    exact ⟨rfl, rfl⟩
  cases step with
  | @create proc stack entry priority r name s' h fresh call =>
      have old : ∀ q ∈ s.created, q ≠ proc := fun q member eq => fresh (eq ▸ member)
      rcases inv.created_cases fresh call with ⟨rfl, unjoined⟩ | ⟨rfl, notNull, joined⟩
      · refine given.of_same fun q member => ?_
        rw [unjoined.kept q (old q member)]
        exact ⟨rfl, rfl⟩
      · have quantum : (s'.pcb r).ticksQuantum = (s'.pcb r).priority * 5#32 := by
          cases Creates.of_call call with
          | noBlock _ => exact absurd rfl notNull
          | noStack _ _ _ => exact absurd rfl notNull
          | joined _ _ _ _ link =>
              rcases setUpProcess_link link with ⟨next, pcb⟩
              rw [pcb]
        simp only [if_neg notNull]
        intro q member
        rcases List.mem_append.mp member with earlier | last
        · rcases joined.kept q (old q earlier) with ⟨next, pcb⟩
          rw [pcb]
          exact given q earlier
        · rw [List.mem_singleton.mp last, quantum]
  | tick =>
      exact given.of_same fun p _ => ⟨schedulerTick_field Pcb.ticksQuantum fun _ _ _ _ => rfl,
        schedulerTick_field Pcb.priority fun _ _ _ _ => rfl⟩
  | exit => exact restated nofun nofun
  | block _ => exact restated nofun nofun
  | unblock _ => exact restated nofun nofun
  | blockOthers _ => exact restated nofun nofun
  | start => exact restated nofun nofun

/-- In every run, the state at the start of the turn of a RUNNING process. -/
theorem exists_fairStart {s : ProcState} {t : ProcRunState}
    {tr : List (Sys.Event ProcRunState ProcOp)} (run : Sys.Run ProcStep (procInit s) tr t)
    (active : Active t.proc) (few : t.created.length ≤ maxProcesses)
    (priority : ∀ p ∈ t.created,
      1 ≤ (t.proc.pcb p).priority.toNat ∧ 5 * (t.proc.pcb p).priority.toNat < 2 ^ 32)
    (fresh : t.proc.tickCount = 0#32)
    (current : (t.proc.pcb t.proc.currentProcess).state = .running) :
    ∃ others, FairStart t.proc others ∧ (t.proc.currentProcess :: others).Perm t.created := by
  obtain ⟨inv, given⟩ := run.invariant
    (I := fun s => ProcInvariant s.proc s.created ∧ QuantumGiven s.proc s.created)
    ⟨procInvariant_init s, fun _ member => absurd member List.not_mem_nil⟩
    fun both step => ⟨both.1.step step, both.2.step both.1 step⟩
  rcases inv.exists_ring active.2 with ⟨others, ring, perm, -⟩
  have member : ∀ {p}, p ∈ t.proc.currentProcess :: others ↔ p ∈ t.created := perm.mem_iff
  have waiting : ∀ p ∈ others, (t.proc.pcb p).state ≠ .running := by
    intro p other running
    have same := inv.running p (member.mp (List.mem_cons_of_mem _ other)) running
    exact (List.nodup_cons.mp ring.nodup).1 (same ▸ other)
  exact ⟨others, ⟨ring, perm.length_eq ▸ few, mt member.mp inv.notNull, active.1,
    fun p inRing => priority p (member.mp inRing), fun p inRing => given p (member.mp inRing),
    fresh, current, waiting⟩, perm⟩

/-- The shell and a program, both of low priority: after ten ticks the shell is current
again and each has run for five. -/
theorem proportional_share_two :
    ∃ tr t, Sys.Run ProcStep (procInit blankProc) tr t ∧ t.created = [0x20000D#32, 0x204067#32] ∧
      ∀ esps, esps.length = 10 →
        (ticks esps t.proc).currentProcess = t.proc.currentProcess ∧
        ∀ p ∈ t.created,
          ((ticks esps t.proc).pcb p).ticksTotal = (t.proc.pcb p).ticksTotal + 5#32 := by
  obtain ⟨tr, t, run, active, known, low, lowSecond, fresh, current, first, ready⟩ := exists_run
    (P := fun t => Active t.proc ∧ t.created = [0x20000D#32, 0x204067#32] ∧
      (t.proc.pcb 0x20000D#32).priority = 1#32 ∧ (t.proc.pcb 0x204067#32).priority = 1#32 ∧
      t.proc.tickCount = 0#32 ∧
      (t.proc.pcb t.proc.currentProcess).state = .running ∧
      t.proc.currentProcess = 0x20000D#32 ∧ (t.proc.pcb 0x204067#32).state = .ready)
    twoProcesses (by decide +kernel)
  have priority : ∀ p ∈ t.created, (t.proc.pcb p).priority = 1#32 := by
    rw [known]
    exact List.forall_mem_cons.mpr ⟨low, List.forall_mem_singleton.mpr lowSecond⟩
  have few : t.created.length ≤ maxProcesses := by rw [known]; decide
  obtain ⟨others, start, perm⟩ := exists_fairStart run active few
    (fun p member => by rw [priority p member]; decide) fresh current
  rw [known, first] at perm
  have second : others = [0x204067#32] := List.perm_singleton.mp (List.Perm.cons_inv perm)
  subst second
  have queue : runnable t.proc [0x204067#32] = t.created := by
    rw [known, runnable, first, List.filter_cons_of_pos (by simpa using ready), List.filter_nil]
  have shares : ∀ p ∈ t.created, share t.proc p = 5 := by
    intro p member
    rw [share, priority p member]
    rfl
  have lap : RoundRobin.lap (share t.proc) (runnable t.proc [0x204067#32]) = 10 := by
    rw [known] at queue shares
    rw [queue, RoundRobin.lap, List.map_congr_left shares]
    rfl
  rcases proportional_share start with ⟨-, -, laps⟩
  rw [lap, queue] at laps
  refine ⟨tr, t, run, known, fun esps ten => ?_⟩
  rcases laps 1 esps ten with ⟨again, gained⟩
  refine ⟨again, fun p member => ?_⟩
  rw [gained p member, shares p member]

end Learnix
