import Learnix.RingIntegrity

/-!
# Which process a tick chooses

The skip loop of `scheduler_tick` looks at no more than 17 processes after the
current one, and the test behind it refuses a dead process but not a blocked
one. `choice_iff` says in exactly which states the tick nevertheless makes the
right choice, and `dead_final_iff` along which runs a dead process stays dead.
-/

namespace Learnix

open Machine CircularList

/-- The process `k` places after the current one. -/
def ProcState.after (s : ProcState) (k : Nat) : Word := s.next^[k] s.currentProcess

/-- `p` is READY. -/
def Ready (s : ProcState) (p : Word) : Prop := (s.pcb p).state = .ready

/-- `p` is DEAD. -/
def Dead (s : ProcState) (p : Word) : Prop := (s.pcb p).state = .dead

instance (s : ProcState) (p : Word) : Decidable (Ready s p) :=
  inferInstanceAs (Decidable ((s.pcb p).state = .ready))

instance (s : ProcState) (p : Word) : Decidable (Dead s p) :=
  inferInstanceAs (Decidable ((s.pcb p).state = .dead))

/-- In a ring of `n` processes, the first READY one after the current process is `d`
places behind it. -/
structure FirstReady (s : ProcState) (n d : Nat) : Prop where
  pos : 0 < d
  bound : d < n
  ready : Ready s (s.after d)
  first : ∀ j, 0 < j → j < d → ¬ Ready s (s.after j)

/-- No process of the ring other than the current one is READY. -/
def NoneReady (s : ProcState) (n : Nat) : Prop := ∀ d, 0 < d → d < n → ¬ Ready s (s.after d)

variable {s : ProcState} {created : List Word} {d j k n : Nat} {esp : Word}

theorem firstReady_or_noneReady (s : ProcState) (n : Nat) :
    (∃ d, FirstReady s n d) ∨ NoneReady s n := by
  by_cases some_ : ∃ d, 0 < d ∧ d < n ∧ Ready s (s.after d)
  · rcases Nat.findX some_ with ⟨d, ⟨pos, bound, ready⟩, least⟩
    refine .inl ⟨d, pos, bound, ready, fun j posJ below readyJ => ?_⟩
    exact least j below ⟨posJ, below.trans bound, readyJ⟩
  · exact .inr fun d pos bound ready => some_ ⟨d, pos, bound, ready⟩

/-! ## Places on the ring -/

theorem ProcInvariant.after_mem (inv : ProcInvariant s created)
    (some_ : s.currentProcess ≠ 0#32) (k : Nat) : s.after k ∈ created := by
  rcases inv.exists_ring some_ with ⟨others, ring, perm, -⟩
  exact perm.mem_iff.mp (ring.iterate_mem k)

theorem ProcInvariant.after_eq_current_iff (inv : ProcInvariant s created)
    (some_ : s.currentProcess ≠ 0#32) : s.after k = s.currentProcess ↔ created.length ∣ k := by
  rcases inv.exists_ring some_ with ⟨others, ring, perm, -⟩
  rw [← perm.length_eq]
  exact ring.iterate_eq_self_iff

theorem ProcInvariant.after_ne_current (inv : ProcInvariant s created)
    (some_ : s.currentProcess ≠ 0#32) (pos : 0 < k) (bound : k < created.length) :
    s.after k ≠ s.currentProcess := fun same =>
  Nat.not_dvd_of_pos_of_lt pos bound ((inv.after_eq_current_iff some_).mp same)

theorem ProcInvariant.after_inj (inv : ProcInvariant s created)
    (some_ : s.currentProcess ≠ 0#32) (boundJ : j < created.length) (boundK : k < created.length)
    (same : s.after j = s.after k) : j = k := by
  rcases inv.exists_ring some_ with ⟨others, ring, perm, -⟩
  rw [← perm.length_eq] at boundJ boundK
  exact ring.iterate_inj boundJ boundK same

/-- A process other than the current one that is not READY is skipped. -/
theorem ProcInvariant.skipped (inv : ProcInvariant s created) (some_ : s.currentProcess ≠ 0#32)
    (other : s.after k ≠ s.currentProcess) (notReady : ¬ Ready s (s.after k)) :
    Skipped s (s.after k) := by
  have notRunning := mt (inv.running _ (inv.after_mem some_ k)) other
  unfold Ready at notReady
  unfold Skipped
  cases state : (s.pcb (s.after k)).state with
  | ready => exact absurd state notReady
  | running => exact absurd state notRunning
  | blocked => exact .inr rfl
  | dead => exact .inl rfl

theorem Ready.not_skipped {p : Word} (ready : Ready s p) : ¬ Skipped s p := by
  intro skipped
  rcases skipped with dead | blocked
  · rw [ready] at dead
    cases dead
  · rw [ready] at blocked
    cases blocked

/-- The skip loop ends `k ≤ 17` places after the current process; it skipped all
before, and ends there because it found a process to run or had no attempt left. -/
theorem landing_eq (s : ProcState) : ∃ k, 0 < k ∧ k ≤ 17 ∧ landing s = s.after k ∧
    (∀ j, 0 < j → j < k → Skipped s (s.after j)) ∧ (k = 17 ∨ ¬ Skipped s (s.after k)) := by
  rcases skipLoop_eq s maxProcesses (s.next s.currentProcess) with ⟨k, bound, at_, before, stop⟩
  refine ⟨k + 1, Nat.succ_pos k, Nat.succ_le_succ bound, at_, fun j pos below => ?_,
    stop.imp (congrArg Nat.succ) id⟩
  rcases Nat.exists_eq_succ_of_ne_zero (Nat.ne_of_gt pos) with ⟨i, rfl⟩
  exact before i (Nat.lt_of_succ_lt_succ below)

/-- The tick keeps the current process when it lands on it or on a dead one. -/
def Keeps (s : ProcState) : Prop := landing s = s.currentProcess ∨ Dead s (landing s)

theorem tick_of_keeps (active : Active s) (used : QuantumUsed s) (keeps : Keeps s) (esp : Word) :
    schedulerTick esp s = (esp, saveContext esp (countTick s)) := by
  generalize call : schedulerTick esp s = r
  cases Ticked.of_call call with
  | idle idle => exact absurd active idle
  | counted _ unused => exact absurd used unused
  | kept _ _ _ => rfl
  | switched _ _ other alive => exact absurd keeps (not_or.mpr ⟨other, alive⟩)

theorem tick_of_not_keeps (active : Active s) (used : QuantumUsed s) (moves : ¬ Keeps s)
    (esp : Word) : schedulerTick esp s =
      ((s.pcb (landing s)).esp, switchTo (landing s) (saveContext esp (countTick s))) := by
  generalize call : schedulerTick esp s = r
  cases Ticked.of_call call with
  | idle idle => exact absurd active idle
  | counted _ unused => exact absurd used unused
  | kept _ _ keeps => exact absurd keeps moves
  | switched _ _ _ _ => rfl

/-! ## The choice -/

/-- The tick switches to the first READY process after the current one, goes on with
the current one if there is none, and never switches to a BLOCKED or DEAD one. -/
structure RightChoice (s : ProcState) (n : Nat) (esp : Word) : Prop where
  switches : ∀ d, FirstReady s n d →
    (schedulerTick esp s).2.currentProcess = s.after d ∧
      (schedulerTick esp s).1 = (s.pcb (s.after d)).esp
  stays : NoneReady s n →
    (schedulerTick esp s).2.currentProcess = s.currentProcess ∧ (schedulerTick esp s).1 = esp
  runnable : (schedulerTick esp s).2.currentProcess ≠ s.currentProcess →
    ¬ Skipped s (schedulerTick esp s).2.currentProcess

/-- The first READY process is no more than 17 places away; or there is none, and the
loop ends at the current process or has a dead one 17 places on. -/
def ChoosesRight (s : ProcState) (n : Nat) : Prop :=
  (∃ d, FirstReady s n d ∧ d ≤ 17) ∨
    NoneReady s n ∧ (n ≤ 16 ∧ ¬ Skipped s s.currentProcess ∨
      s.after 17 = s.currentProcess ∨ Dead s (s.after 17))

/-- Up to 17 places away the loop finds the first READY process. -/
theorem ProcInvariant.landing_firstReady (inv : ProcInvariant s created)
    (some_ : s.currentProcess ≠ 0#32) (first : FirstReady s created.length d) (near : d ≤ 17) :
    landing s = s.after d := by
  rcases landing_eq s with ⟨k, posK, boundK, at_, before, stop⟩
  rcases Nat.lt_trichotomy k d with below | same | above
  · have other := inv.after_ne_current some_ posK (below.trans first.bound)
    have skipped := inv.skipped some_ other (first.first k posK below)
    rcases stop with last | free
    · exact absurd (last ▸ below) (Nat.not_lt.mpr near)
    · exact absurd skipped free
  · rw [at_, same]
  · exact absurd (before d first.pos above) first.ready.not_skipped

/-- Farther away it does not get there. -/
theorem ProcInvariant.landing_far (inv : ProcInvariant s created)
    (some_ : s.currentProcess ≠ 0#32) (first : FirstReady s created.length d) (far : 17 < d) :
    landing s = s.after 17 ∧ s.after 17 ≠ s.after d ∧ s.currentProcess ≠ s.after d := by
  rcases landing_eq s with ⟨k, posK, boundK, at_, -, stop⟩
  have below : k < d := Nat.lt_of_le_of_lt boundK far
  have other := inv.after_ne_current some_ posK (below.trans first.bound)
  have skipped := inv.skipped some_ other (first.first k posK below)
  have last : k = 17 := stop.resolve_right fun free => free skipped
  refine ⟨last ▸ at_, fun same => ?_, (inv.after_ne_current some_ first.pos first.bound).symm⟩
  have places := inv.after_inj some_ (far.trans first.bound) first.bound same
  exact absurd places (Nat.ne_of_lt far)

/-- With no READY process the tick stays where it is exactly when the loop ends at the
current process or at a dead one. -/
theorem ProcInvariant.keeps_iff (inv : ProcInvariant s created)
    (some_ : s.currentProcess ≠ 0#32) (none : NoneReady s created.length) :
    Keeps s ↔ created.length ≤ 16 ∧ ¬ Skipped s s.currentProcess ∨
      s.after 17 = s.currentProcess ∨ Dead s (s.after 17) := by
  rcases landing_eq s with ⟨k, posK, boundK, at_, before, stop⟩
  -- other processes of the ring are skipped, wherever the loop meets them
  have skipped : ∀ j, s.after j ≠ s.currentProcess → Skipped s (s.after j) := by
    intro j other
    refine inv.skipped some_ other fun ready => ?_
    rcases inv.exists_ring some_ with ⟨others, ring, perm, -⟩
    rcases ring.exists_iterate (ring.iterate_mem j) with ⟨i, bound, same⟩
    have same : s.after i = s.after j := same
    rw [perm.length_eq] at bound
    have posI : 0 < i := Nat.pos_of_ne_zero fun zero => other (by rw [← same, zero]; rfl)
    exact none i posI bound (same ▸ ready)
  have last : landing s ≠ s.currentProcess → k = 17 := fun other =>
    stop.resolve_right fun free => free (skipped k (at_ ▸ other))
  unfold Keeps
  constructor
  · intro keeps
    rcases stop with last | free
    · rw [at_, last] at keeps
      exact .inr keeps
    · have here : landing s = s.currentProcess := keeps.resolve_right fun dead =>
        free (.inl (at_ ▸ dead))
      have lap := (inv.after_eq_current_iff some_).mp (at_ ▸ here)
      by_cases end_ : k = 17
      · exact .inr (.inl (end_ ▸ at_ ▸ here))
      · refine .inl ⟨?_, by rw [← here, at_]; exact free⟩
        have := Nat.le_of_dvd posK lap
        omega
  · intro condition
    by_cases here : landing s = s.currentProcess
    · exact .inl here
    · have end_ := last here
      subst end_
      rw [at_] at here ⊢
      rcases condition with ⟨short, free⟩ | condition
      · have size : 0 < created.length := List.length_pos_of_mem (inv.current_mem some_)
        have back : s.after created.length = s.currentProcess :=
          (inv.after_eq_current_iff some_).mpr (Nat.dvd_refl _)
        exact absurd (back ▸ before created.length size (by omega)) free
      · exact condition

theorem FirstReady.unique (first : FirstReady s n d) (first' : FirstReady s n k) : k = d := by
  rcases Nat.lt_trichotomy k d with below | same | above
  · exact absurd first'.ready (first.first k first'.pos below)
  · exact same
  · exact absurd first.ready (first'.first d first.pos above)

/-- The tick is right about a READY process that the loop reaches. -/
theorem ProcInvariant.right_of_near (inv : ProcInvariant s created) (active : Active s)
    (used : QuantumUsed s) (first : FirstReady s created.length d) (near : d ≤ 17) (esp : Word) :
    RightChoice s created.length esp := by
  have other := inv.after_ne_current active.2 first.pos first.bound
  have land := inv.landing_firstReady active.2 first near
  have moves : ¬ Keeps s := by
    unfold Keeps Dead
    rw [land, first.ready]
    exact not_or.mpr ⟨other, nofun⟩
  have tick := tick_of_not_keeps active used moves esp
  have next : (schedulerTick esp s).2.currentProcess = s.after d := by
    rw [tick, ← land]
    rfl
  refine ⟨fun k first' => ?_, fun none => ?_, fun _ => ?_⟩
  · rw [first.unique first', next, tick, land]
    exact ⟨rfl, rfl⟩
  · exact absurd first.ready (none d first.pos first.bound)
  · rw [next]
    exact first.ready.not_skipped

/-- It is wrong about one that the loop does not reach. -/
theorem ProcInvariant.wrong_of_far (inv : ProcInvariant s created) (active : Active s)
    (used : QuantumUsed s) (first : FirstReady s created.length d) (far : 17 < d) (esp : Word) :
    ¬ RightChoice s created.length esp := by
  intro right
  rcases inv.landing_far active.2 first far with ⟨land, wrong, wrong'⟩
  have next := (right.switches d first).1
  by_cases keeps : Keeps s
  · rw [tick_of_keeps active used keeps] at next
    exact wrong' next
  · rw [tick_of_not_keeps active used keeps] at next
    exact wrong (land ▸ next)

/-- With no READY process it is right exactly when it does not switch. -/
theorem right_iff_keeps (active : Active s) (used : QuantumUsed s) (none : NoneReady s n)
    (esp : Word) : RightChoice s n esp ↔ Keeps s := by
  constructor
  · intro right
    by_contra moves
    have stays := (right.stays none).1
    rw [tick_of_not_keeps active used moves] at stays
    exact (not_or.mp moves).1 stays
  · intro keeps
    have tick := tick_of_keeps active used keeps esp
    refine ⟨fun d first => ?_, fun _ => ?_, fun moved => ?_⟩
    · exact absurd first.ready (none d first.pos first.bound)
    · rw [tick]
      exact ⟨rfl, rfl⟩
    · rw [tick] at moved
      exact absurd rfl moved

/-- In every reachable state in which a tick finds the quantum used up, the tick makes
the right choice if and only if `ChoosesRight`. -/
theorem choice_iff {p : ProcState} {t : ProcRunState} {tr : List (Sys.Event ProcRunState ProcOp)}
    (run : Sys.Run ProcStep (procInit p) tr t) (active : Active t.proc)
    (used : QuantumUsed t.proc) (esp : Word) :
    RightChoice t.proc t.created.length esp ↔ ChoosesRight t.proc t.created.length := by
  have inv := (procInvariant_init p).run run
  rcases firstReady_or_noneReady t.proc t.created.length with ⟨d, first⟩ | none
  · rcases Nat.lt_or_ge 17 d with far | near
    · refine iff_of_false (inv.wrong_of_far active used first far esp) fun condition => ?_
      rcases condition with ⟨k, first', near⟩ | ⟨none, -⟩
      · rw [first.unique first'] at near
        exact absurd near (Nat.not_le.mpr far)
      · exact none d first.pos first.bound first.ready
    · exact iff_of_true (inv.right_of_near active used first near esp) (.inl ⟨d, first, near⟩)
  · rw [right_iff_keeps active used none, inv.keeps_iff active.2 none]
    constructor
    · exact fun keeps => .inr ⟨none, keeps⟩
    · intro condition
      rcases condition with ⟨d, first, -⟩ | ⟨-, keeps⟩
      · exact absurd first.ready (none d first.pos first.bound)
      · exact keeps

/-- The shell has exited in the middle of its quantum and the only other process is
BLOCKED: the fifth tick makes the blocked process current. -/
theorem blocked_chosen :
    ∃ tr t, Sys.Run ProcStep (procInit blankProc) tr t ∧ Active t.proc ∧ QuantumUsed t.proc ∧
      NoneReady t.proc t.created.length ∧
      (t.proc.pcb (schedulerTick 0#32 t.proc).2.currentProcess).state = .blocked ∧
      ¬ RightChoice t.proc t.created.length 0#32 := by
  obtain ⟨tr, t, run, active, used, none, moved, blocked⟩ := exists_run
    (P := fun t => Active t.proc ∧ QuantumUsed t.proc ∧
      (∀ d, d < t.created.length → ¬ (0 < d ∧ Ready t.proc (t.proc.after d))) ∧
      (schedulerTick 0#32 t.proc).2.currentProcess ≠ t.proc.currentProcess ∧
      (t.proc.pcb (schedulerTick 0#32 t.proc).2.currentProcess).state = .blocked)
    (twoProcesses ++ [.block 0x204067#32, .exit] ++ List.replicate 4 (.tick 0#32))
    (by decide +kernel)
  have none : NoneReady t.proc t.created.length := fun d pos bound ready =>
    none d bound ⟨pos, ready⟩
  exact ⟨tr, t, run, active, used, none, blocked, fun right => moved (right.stays none).1⟩

/-- Both processes live: the fifth tick switches to the second. -/
theorem choice_iff_two :
    ∃ tr t, Sys.Run ProcStep (procInit blankProc) tr t ∧
      RightChoice t.proc t.created.length 0#32 := by
  obtain ⟨tr, t, run, active, used, bound, ready⟩ := exists_run
    (P := fun t => Active t.proc ∧ QuantumUsed t.proc ∧ 1 < t.created.length ∧
      Ready t.proc (t.proc.after 1))
    (twoProcesses ++ List.replicate 4 (.tick 0#32)) (by decide +kernel)
  have first : FirstReady t.proc t.created.length 1 :=
    ⟨Nat.one_pos, bound, ready, fun j pos below => absurd pos (Nat.not_lt.mpr (by omega))⟩
  exact ⟨tr, t, run, (choice_iff run active used 0#32).mpr (.inl ⟨1, first, by decide⟩)⟩

/-! ## Dead processes -/

/-- An operation that may come after process `p` has died: no other start of the
scheduler, no exit of `p`, and only processes that are not DEAD are blocked and
unblocked. -/
def AfterDeath (p : Word) (s : ProcRunState) : ProcOp → Prop
  | .exit => s.proc.currentProcess ≠ p
  | .block q => q = 0#32 ∨ ¬ Dead s.proc q
  | .unblock q => q = 0#32 ∨ ¬ Dead s.proc q
  | .start => False
  | _ => True

/-- A tick in this state does not take the CPU from the current process: the scheduler
is not active, the quantum is not used up, or the loop passes over the 16 processes
that follow and ends at the current process or at a dead one. -/
def Harmless (s : ProcState) : Prop :=
  ¬ Active s ∨ ¬ QuantumUsed s ∨
    (∀ j, 0 < j → j ≤ 16 → Skipped s (s.after j)) ∧
      (s.after 17 = s.currentProcess ∨ Dead s (s.after 17))

/-- For a dead current process that is exactly when the tick does not switch. -/
theorem keeps_iff_of_dead (dead : Dead s s.currentProcess) :
    Keeps s ↔ (∀ j, 0 < j → j ≤ 16 → Skipped s (s.after j)) ∧
      (s.after 17 = s.currentProcess ∨ Dead s (s.after 17)) := by
  rcases landing_eq s with ⟨k, posK, boundK, at_, before, stop⟩
  unfold Keeps
  constructor
  · intro keeps
    have skipped : Skipped s (landing s) := by
      rcases keeps with here | deadLanding
      · rw [here]
        exact .inl dead
      · exact .inl deadLanding
    have last : k = 17 := stop.resolve_right fun free => free (at_ ▸ skipped)
    subst last
    exact ⟨fun j pos bound => before j pos (Nat.lt_succ_of_le bound), at_ ▸ keeps⟩
  · intro condition
    obtain ⟨all, end_⟩ := condition
    have last : k = 17 := by
      by_contra early
      have free := stop.resolve_left early
      exact free (all k posK (by omega))
    subst last
    rw [at_]
    exact end_

/-- A tick that is not harmless makes a dead current process READY. -/
theorem harmless_of_dead (dead : Dead s s.currentProcess)
    (after : Dead (schedulerTick esp s).2 s.currentProcess) : Harmless s := by
  by_contra harmful
  rcases not_or.mp harmful with ⟨active, harmful⟩
  rcases not_or.mp harmful with ⟨used, harmful⟩
  rw [← keeps_iff_of_dead dead] at harmful
  have other : s.currentProcess ≠ landing s := fun eq => (not_or.mp harmful).1 eq.symm
  have revived : ((schedulerTick esp s).2.pcb s.currentProcess).state = .ready := by
    rw [tick_of_not_keeps (not_not.mp active) (not_not.mp used) harmful, switchTo_state,
      if_neg other]
    exact if_pos rfl
  rw [Dead, revived] at after
  cases after

theorem Dead.setPcb {p q : Word} {f : Pcb → Pcb} (dead : Dead s p) (other : p ≠ q) :
    Dead (s.setPcb q f) p := by
  rw [Dead, setPcb_pcb_of_ne other]
  exact dead

/-- Blocking or unblocking a process that is not dead leaves the dead ones dead. -/
theorem Dead.setPcb_of_alive {p q : Word} {f : Pcb → Pcb} (dead : Dead s p)
    (allowed : q = 0#32 ∨ ¬ Dead s q) : Dead (if q ≠ 0#32 then s.setPcb q f else s) p := by
  split
  · next some_ =>
    have alive := allowed.resolve_left some_
    apply dead.setPcb
    exact fun eq => alive (eq ▸ dead)
  · exact dead

/-- A harmless tick leaves a dead process dead, and no tick switches to it. -/
theorem Dead.tick {p : Word} (dead : Dead s p) (harmless : s.currentProcess = p → Harmless s)
    (esp : Word) : Dead (schedulerTick esp s).2 p ∧
      ((schedulerTick esp s).2.currentProcess ≠ s.currentProcess →
        (schedulerTick esp s).2.currentProcess ≠ p) := by
  have counted : Dead (countTick s) p := (countTick_field Pcb.state fun _ _ => rfl).trans dead
  have saved : Dead (saveContext esp (countTick s)) p :=
    (saveContext_field Pcb.state fun _ _ => rfl).trans counted
  generalize call : schedulerTick esp s = r
  cases Ticked.of_call call with
  | idle _ => exact ⟨dead, fun moved => absurd rfl moved⟩
  | counted _ _ => exact ⟨counted, fun moved => absurd rfl moved⟩
  | kept _ _ _ => exact ⟨saved, fun moved => absurd rfl moved⟩
  | switched active used here alive =>
      have notNext : p ≠ landing s := fun eq => alive (eq ▸ dead)
      have notPrev : p ≠ s.currentProcess := by
        intro eq
        have deadNow : Dead s s.currentProcess := eq ▸ dead
        rcases harmless eq.symm with idle | unused | condition
        · exact idle active
        · exact unused used
        · exact not_or.mpr ⟨here, alive⟩ ((keeps_iff_of_dead deadNow).mpr condition)
      refine ⟨?_, fun _ eq => notNext eq.symm⟩
      rw [Dead, switchTo_state, if_neg notNext, saved]
      exact if_neg notPrev

/-- **Step lemma.** A dead process stays dead, and no tick switches to it, as long as
the ticks that interrupt it are harmless. -/
theorem dead_step {s u : ProcRunState} {op : ProcOp} {p : Word}
    (inv : ProcInvariant s.proc s.created) (member : p ∈ s.created) (dead : Dead s.proc p)
    (step : ProcStep s op u) (allowed : AfterDeath p s op)
    (harmless : ∀ esp, op = .tick esp → s.proc.currentProcess = p → Harmless s.proc) :
    Dead u.proc p ∧ p ∈ u.created ∧
      ∀ esp, op = .tick esp → u.proc.currentProcess ≠ s.proc.currentProcess →
        u.proc.currentProcess ≠ p := by
  cases step with
  | @create proc stack entry priority r name s' h fresh call =>
      have deadAfter : Dead s' p := by
        rcases inv.created_pcb fresh member call with ⟨next, pcb⟩
        rw [Dead, pcb]
        exact dead
      have known : p ∈ (if r = 0#32 then s.created else s.created ++ [r]) := by
        split
        · exact member
        · exact List.mem_append_left _ member
      exact ⟨deadAfter, known, nofun⟩
  | exit =>
      refine ⟨?_, member, nofun⟩
      unfold processExit
      split
      · exact dead
      · dsimp only
        apply dead.setPcb
        exact fun eq => allowed eq.symm
  | block _ => exact ⟨dead.setPcb_of_alive allowed, member, nofun⟩
  | unblock _ => exact ⟨dead.setPcb_of_alive allowed, member, nofun⟩
  | blockOthers call =>
      rcases inv.blockedOthers call with ⟨-, -, pcbs⟩
      refine ⟨?_, member, nofun⟩
      rw [Dead, pcbs, if_neg fun all => all.2.2 dead]
      exact dead
  | start => exact absurd allowed id
  | @tick esp =>
      rcases dead.tick (harmless esp rfl) esp with ⟨deadAfter, notNext⟩
      exact ⟨deadAfter, member, fun _ _ => notNext⟩

/-- After a process has died, it stays dead and no tick switches to it, all along a
run of the operations that may follow, if and only if every tick that interrupts it is
harmless. -/
theorem dead_final_iff {q : ProcState} {s t : ProcRunState} {p : Word}
    {tr later : List (Sys.Event ProcRunState ProcOp)} (reach : Sys.Run ProcStep (procInit q) tr s)
    (member : p ∈ s.created) (dead : Dead s.proc p) (run : Sys.Run ProcStep s later t)
    (allowed : ∀ e ∈ later, AfterDeath p e.pre e.op) :
    (Dead t.proc p ∧ ∀ e ∈ later, Dead e.pre.proc p ∧ Dead e.post.proc p ∧
        ∀ esp, e.op = .tick esp → e.post.proc.currentProcess ≠ e.pre.proc.currentProcess →
          e.post.proc.currentProcess ≠ p) ↔
      ∀ e ∈ later, ∀ esp, e.op = .tick esp → e.pre.proc.currentProcess = p →
        Harmless e.pre.proc := by
  have inv := (procInvariant_init q).run reach
  constructor
  · intro final e memberE esp tick here
    rcases final.2 e memberE with ⟨deadPre, deadPost, -⟩
    rcases run.split memberE with ⟨before, after, -, -, step, -⟩
    rcases e with ⟨u, op, v⟩
    have tick : op = .tick esp := tick
    subst tick
    have step : ProcStep u (.tick esp) v := step
    cases step with
    | tick => exact harmless_of_dead (here ▸ deadPre) (here ▸ deadPost)
  · intro harmless
    obtain ⟨final, along⟩ := run.invariant_of_guard
      (I := fun s => ProcInvariant s.proc s.created ∧ p ∈ s.created ∧ Dead s.proc p)
      (G := fun s op => AfterDeath p s op ∧
        ∀ esp, op = .tick esp → s.proc.currentProcess = p → Harmless s.proc)
      ⟨inv, member, dead⟩ (fun e memberE => ⟨allowed e memberE, harmless e memberE⟩)
      (fun {u op v} I guard step => by
        rcases dead_step I.1 I.2.1 I.2.2 step guard.1 guard.2 with ⟨deadV, memberV, -⟩
        exact ⟨I.1.step step, memberV, deadV⟩)
    refine ⟨final.2.2, fun e memberE => ?_⟩
    rcases along e memberE with ⟨pre, post⟩
    rcases run.split memberE with ⟨before, after, -, -, step, -⟩
    exact ⟨pre.2.2, post.2.2,
      (dead_step pre.1 pre.2.1 pre.2.2 step (allowed e memberE) (harmless e memberE)).2.2⟩

/-- The shell exits in the middle of its quantum while the program is READY. The tick
that ends the quantum makes the dead shell READY again. -/
theorem dead_revived :
    ∃ tr s t, Sys.Run ProcStep (procInit blankProc) tr s ∧ 0x20000D#32 ∈ s.created ∧
      Dead s.proc 0x20000D#32 ∧ Sys.Run ProcStep s [⟨s, .tick 0#32, t⟩] t ∧
      AfterDeath 0x20000D#32 s (.tick 0#32) ∧ Ready t.proc 0x20000D#32 := by
  obtain ⟨tr, s, run, member, dead, revived⟩ := exists_run
    (P := fun s => 0x20000D#32 ∈ s.created ∧ Dead s.proc 0x20000D#32 ∧
      Ready (schedulerTick 0#32 s.proc).2 0x20000D#32)
    (twoProcesses ++ [.exit] ++ List.replicate 4 (.tick 0#32)) (by decide +kernel)
  exact ⟨tr, s, _, run, member, dead, .snoc .nil .tick, trivial, revived⟩

/-- The shell is the only process: after it has exited it stays DEAD at the end of its
quantum. -/
theorem dead_final_iff_alone :
    ∃ tr s t, Sys.Run ProcStep (procInit blankProc) tr s ∧ QuantumUsed s.proc ∧
      Sys.Run ProcStep s [⟨s, .tick 0#32, t⟩] t ∧ Dead t.proc 0x20000D#32 := by
  obtain ⟨tr, s, run, member, dead, used, here, keeps⟩ := exists_run
    (P := fun s => 0x20000D#32 ∈ s.created ∧ Dead s.proc 0x20000D#32 ∧ QuantumUsed s.proc ∧
      s.proc.currentProcess = 0x20000D#32 ∧
      (landing s.proc = s.proc.currentProcess ∨ Dead s.proc (landing s.proc)))
    ([.create 0x20000D#32 0x20005A#32 0x101000#32 [0x41#8] 1#32, .start, .exit] ++
      List.replicate 4 (.tick 0#32)) (by decide +kernel)
  have later : Sys.Run ProcStep s [⟨s, .tick 0#32, ⟨_, _⟩⟩] ⟨_, _⟩ := .snoc .nil .tick
  refine ⟨tr, s, _, run, used, later, ((dead_final_iff run member dead later ?_).mpr ?_).1⟩
  · intro e event
    rw [List.mem_singleton.mp event]
    trivial
  · intro e event _ _ _
    rw [List.mem_singleton.mp event]
    exact .inr (.inr ((keeps_iff_of_dead (here ▸ dead)).mp keeps))

end Learnix
