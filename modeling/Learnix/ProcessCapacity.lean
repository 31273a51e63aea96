import Learnix.HeapOwnership
import Learnix.Lib.Gaps

/-!
# How many processes there can be

`process_create` does not look at `MAX_PROCESSES`. No PCB and no stack is ever given
back, so the heap fills from the left with pairs of them, whatever happens in between
(`Populated.run`): the number of processes is the number of creations, until the 64th
finds no room for a stack. The ring is within `MAX_PROCESSES`, the number of attempts
of the loop in `scheduler_tick`, exactly as long as there were no more creations than
that (`process_limit_iff`).
-/

namespace Learnix

open Machine Tiling CircularList

variable {s t : KernelState} {op : KernelOp} {h h' : HeapState} {live : List (Word × Word)}
  {l l' : List Block} {n : Nat} {p : Word}

/-! ## The tiling that a memory holds -/

theorem Linked.unique {m : Memory} {prev prev' next next' : Word} {lo hi : Nat}
    (linked : Linked m prev l next) (linked' : Linked m prev' l' next')
    (tiles : Tiles headerBytes lo hi l) (tiles' : Tiles headerBytes lo hi l')
    (fits : ∀ b ∈ l, b.size < 2 ^ 32) (fits' : ∀ b ∈ l', b.size < 2 ^ 32) : l = l' := by
  have bytes : 0 < headerBytes := by decide
  induction l generalizing lo prev prev' l' with
  | nil =>
      cases l' with
      | nil => rfl
      | cons c cs => exact absurd (tiles'.lt bytes) (Nat.not_lt.mpr (Nat.le_of_eq tiles.symm))
  | cons b bs ih =>
      cases l' with
      | nil => exact absurd (tiles.lt bytes) (Nat.not_lt.mpr (Nat.le_of_eq tiles'.symm))
      | cons c cs =>
          obtain ⟨head, rest⟩ := linked
          obtain ⟨head', rest'⟩ := linked'
          obtain ⟨start, behind⟩ := tiles
          obtain ⟨start', behind'⟩ := tiles'
          have place : b.addr = c.addr := start.trans start'.symm
          rw [addrOf, place, ← addrOf, head', BlockHeader.mk.injEq] at head
          have size : b.size = c.size := by
            have same := congrArg BitVec.toNat head.1
            rw [BitVec.toNat_ofNat, BitVec.toNat_ofNat,
              Nat.mod_eq_of_lt (fits b List.mem_cons_self),
              Nat.mod_eq_of_lt (fits' c List.mem_cons_self)] at same
            exact same.symm
          have used : b.used = c.used := by
            have same : c.used = false ↔ b.used = false := by
              rw [← usedByte_eq_zero, head.2.1, usedByte_eq_zero]
            cases usedB : b.used <;> cases usedC : c.used <;> simp_all
          have blocks : b = c := by
            rcases b with ⟨addr, size, used⟩
            rcases c with ⟨addr', size', used'⟩
            rw [Block.mk.injEq]
            exact ⟨place, size, used⟩
          subst blocks
          rw [ih rest rest' behind behind' (fun d member => fits d (List.mem_cons_of_mem _ member))
            fun d member => fits' d (List.mem_cons_of_mem _ member)]

/-- A memory holds one tiling. -/
theorem Represents.unique (represents : Represents h l) (represents' : Represents h l') : l = l' :=
  represents.linked.unique represents'.linked represents.tiles represents'.tiles
    (fun b member => (addressable represents.tiles b member).2)
    fun b member => (addressable represents'.tiles b member).2

/-- Heaps with the same blocks in use hold the same tiling. -/
theorem Holds.represents (holds : Holds h live) (holds' : Holds h' live)
    (represents : Represents h l) : Represents h' l := by
  rcases holds with ⟨l₁, inv⟩
  rcases holds' with ⟨l₂, inv'⟩
  have here : l₁ = l := inv.represents.unique represents
  have there : l₂ = l₁ := inv'.eq_of_live inv fun _ => Iff.rfl
  rw [← here, ← there]
  exact inv'.represents

/-! ## The heap with the PCBs and the stacks of `n` processes -/

/-- How many pairs of a PCB and a stack fit in the heap. -/
def processCapacity : Nat := heapSize / (headerBytes + processBytes + headerBytes + stackSize)

/-- The payloads of `n` processes, in the order in which they are taken. -/
def processPayloads : Nat → List Nat
  | 0 => []
  | n + 1 => processPayloads n ++ [processBytes, stackSize]

/-- The heap from which `ns` has been taken. -/
def heapFilled (ns : List Nat) : List Block :=
  filled headerBytes heapStart (heapStart + heapSize) ns

theorem extent_processPayloads (n : Nat) :
    extent headerBytes (processPayloads n) = n * 16474 := by
  induction n with
  | zero => rfl
  | succ n ih =>
      have pair : extent headerBytes [processBytes, stackSize] = 16474 := by decide
      rw [processPayloads, extent_append, ih, pair, Nat.add_mul, Nat.one_mul]

/-- What `kmalloc` does to such a heap when there is room. -/
theorem allocate_heapFilled {ns : List Nat} {size : Word} {k : Nat} (some_ : size ≠ 0#32)
    (aligned : (alignSize size).toNat = k)
    (room : extent headerBytes ns + headerBytes + k + headerBytes + 4 ≤ heapSize) :
    (allocate size (heapFilled ns)).1 ≠ 0#32 ∧
      (allocate size (heapFilled ns)).2 = heapFilled (ns ++ [k]) := by
  have fit : firstFit headerBytes 4 (alignSize size).toNat (heapFilled ns) =
      some (heapStart + extent headerBytes ns, heapFilled (ns ++ [k])) := by
    rw [aligned]
    exact firstFit_filled (by omega)
  rw [allocate, if_neg some_, fit]
  refine ⟨fun null => ?_, rfl⟩
  have zero := congrArg BitVec.toNat null
  have start : heapStart = 0x200000 := rfl
  have bytes : headerBytes = 13 := rfl
  have end_ : heapSize = 0x100000 := rfl
  simp only [BitVec.toNat_ofNat] at zero
  omega

/-- And when there is not. -/
theorem allocate_heapFilled_full {ns : List Nat} {size : Word}
    (room : extent headerBytes ns + headerBytes ≤ heapSize)
    (full : heapSize < extent headerBytes ns + headerBytes + (alignSize size).toNat) :
    allocate size (heapFilled ns) = (0#32, heapFilled ns) := by
  have miss : firstFit headerBytes 4 (alignSize size).toNat (heapFilled ns) = none :=
    firstFit_filled_full (by omega) (by omega)
  unfold allocate
  split
  · rfl
  · rw [miss]

/-- A PCB fits next to as many processes as there can be. -/
theorem allocate_pcb (few : n ≤ processCapacity) :
    (allocate (BitVec.ofNat 32 processBytes) (heapFilled (processPayloads n))).1 ≠ 0#32 ∧
      (allocate (BitVec.ofNat 32 processBytes) (heapFilled (processPayloads n))).2 =
        heapFilled (processPayloads n ++ [processBytes]) := by
  have most : n ≤ 63 := few
  apply allocate_heapFilled (by decide) (by decide)
  rw [extent_processPayloads]
  unfold headerBytes processBytes heapSize
  omega

/-- A stack fits behind it unless there are that many. -/
theorem allocate_stack (few : n < processCapacity) :
    (allocate (BitVec.ofNat 32 stackSize)
        (heapFilled (processPayloads n ++ [processBytes]))).1 ≠ 0#32 ∧
      (allocate (BitVec.ofNat 32 stackSize) (heapFilled (processPayloads n ++ [processBytes]))).2 =
        heapFilled (processPayloads (n + 1)) := by
  have less : n < 63 := few
  have taken : extent headerBytes [processBytes] = 77 := by decide
  have pair : processPayloads (n + 1) = processPayloads n ++ [processBytes] ++ [stackSize] := by
    rw [processPayloads, List.append_assoc]
    rfl
  rw [pair]
  apply allocate_heapFilled (by decide) (by decide)
  rw [extent_append, extent_processPayloads, taken]
  unfold headerBytes stackSize heapSize
  omega

theorem allocate_stack_full :
    allocate (BitVec.ofNat 32 stackSize)
        (heapFilled (processPayloads processCapacity ++ [processBytes])) =
      (0#32, heapFilled (processPayloads processCapacity ++ [processBytes])) := by
  have most : processCapacity = 63 := by decide
  have taken : extent headerBytes [processBytes] = 77 := by decide
  have aligned : (alignSize (BitVec.ofNat 32 stackSize)).toNat = 16384 := by decide
  apply allocate_heapFilled_full
  · rw [extent_append, extent_processPayloads, taken, most]
    decide
  · rw [extent_append, extent_processPayloads, taken, most, aligned]
    decide

/-! ## Runs -/

/-- There are `n` processes, and the heap has nothing but their blocks. -/
structure Populated (s : KernelState) (n : Nat) : Prop where
  few : n ≤ processCapacity
  invariant : ∃ live, KernelInvariant s live
  heap : Represents s.heap (heapFilled (processPayloads n))
  count : s.procs.created.length = n

/-- How many calls of `process_create` there are in a trace. -/
def creations (tr : List (Sys.Event KernelState KernelOp)) : Nat :=
  tr.countP fun e => match e.op with
    | .create _ _ _ => true
    | _ => false

theorem populated_init (h : HeapState) (q : ProcState) : Populated (kernelInit h q) 0 where
  few := Nat.zero_le _
  invariant := ⟨[], kernelInvariant_init h q⟩
  heap := represents_heapInit h
  count := rfl

/-- What creates no process and leaves the blocks in use as they are. -/
theorem Populated.of_same (populated : Populated s n) (inv : KernelInvariant s live)
    (inv' : KernelInvariant t live) (created : t.procs.created = s.procs.created) :
    Populated t n where
  few := populated.few
  invariant := ⟨live, inv'⟩
  heap := inv.holds.represents inv'.holds populated.heap
  count := by rw [created, populated.count]

/-- A creation adds a process until there is no room for its stack. -/
theorem Populated.create {entry priority r : Word} {name : List Byte} {q : ProcState}
    (populated : Populated s n)
    (call : processCreate kernelHeap entry name priority s.procs.proc s.heap =
      some (r, q, h')) :
    Populated ⟨h', ⟨q, if r = 0#32 then s.procs.created else s.procs.created ++ [r]⟩⟩
      (min (n + 1) processCapacity) := by
  rcases populated with ⟨few, ⟨live, inv⟩, heap, count⟩
  have room := allocate_pcb few
  have invariant := inv.create call
  cases Creates.of_call call with
  | noBlock first =>
      rcases heap.kmalloc_returned (inv.holds.kernelHeap_kmalloc first) with ⟨null, -⟩
      exact absurd null.symm room.1
  | @noStack proc h₁ h₂ first some_ second =>
      have first := inv.holds.kernelHeap_kmalloc first
      have second := (inv.holds.kmalloc first).kernelHeap_kmalloc second
      rcases heap.kmalloc_returned first with ⟨-, heap₁, -⟩
      rw [room.2] at heap₁
      rcases heap₁.kmalloc_returned second with ⟨null, -⟩
      have full : n = processCapacity := by
        by_contra less
        exact (allocate_stack (Nat.lt_of_le_of_ne few less)).1 null.symm
      have same : min (n + 1) processCapacity = n := by omega
      rw [same]
      exact ⟨few, invariant,
        inv.holds.represents (inv.holds.giveBack first some_ second).1 heap, count⟩
  | @joined proc stack h₁ _ _ first some_ second given link =>
      have first := inv.holds.kernelHeap_kmalloc first
      have second := (inv.holds.kmalloc first).kernelHeap_kmalloc second
      rcases heap.kmalloc_returned first with ⟨-, heap₁, -⟩
      rw [room.2] at heap₁
      rcases heap₁.kmalloc_returned second with ⟨place, heap₂, -⟩
      have less : n < processCapacity := by
        by_contra all
        have full : n = processCapacity := by omega
        rw [full, allocate_stack_full] at place
        exact given place
      have next : min (n + 1) processCapacity = n + 1 := by omega
      rw [(allocate_stack less).2] at heap₂
      rw [if_neg some_] at invariant ⊢
      rw [next]
      exact ⟨less, invariant, heap₂, by rw [List.length_append, count]; rfl⟩

/-- **Step lemma.** -/
theorem Populated.step (populated : Populated s n) (step : KernelStep s op t) :
    Populated t (min (n + creations [⟨s, op, t⟩]) processCapacity) := by
  have same : min (n + 0) processCapacity = n := Nat.min_eq_left populated.few
  rcases populated.invariant with ⟨live, inv⟩
  cases step with
  | create call => exact populated.create call
  | @process op t notCreate step =>
      rcases step.stack inv.procs notCreate with ⟨created, place⟩
      have inv' : KernelInvariant ⟨s.heap, t⟩ live :=
        inv.of_same inv.holds (inv.procs.step step) created fun p _ => place p
      exact same.symm ▸ populated.of_same inv inv' created
  | printInfo call =>
      rcases inv.holds.heapPrintInfo with ⟨info, h', call', holds⟩
      rw [call] at call'
      cases call'
      exact same.symm ▸
        populated.of_same inv (inv.of_same holds inv.procs rfl fun _ _ => rfl) rfl
  | @store a v inside =>
      have holds := inv.holds.store (v := v) (inv.owned inside)
      exact same.symm ▸
        populated.of_same inv (inv.of_same holds inv.procs rfl fun _ _ => rfl) rfl

/-- **Run lemma.** -/
theorem Populated.run {q : ProcState} {tr : List (Sys.Event KernelState KernelOp)}
    (run : Sys.Run KernelStep (kernelInit h q) tr t) :
    Populated t (min (creations tr) processCapacity) := by
  apply run.history_invariant (I := fun tr t => Populated t (min (creations tr) processCapacity))
  · exact populated_init h q
  · intro tr t op u _ populated step
    have total : creations (tr ++ [⟨t, op, u⟩]) = creations tr + creations [⟨t, op, u⟩] :=
      List.countP_append
    have sum : min (min (creations tr) processCapacity + creations [⟨t, op, u⟩])
        processCapacity = min (creations (tr ++ [⟨t, op, u⟩])) processCapacity := by
      rw [total]
      omega
    exact sum ▸ populated.step step

/-! ## The ring -/

/-- The processes of the ring, from the current one on. -/
def Rings (s : ProcState) (ps : List Word) : Prop :=
  s.currentProcess = 0#32 ∧ ps = [] ∨
    ∃ others, ps = s.currentProcess :: others ∧ IsRing s.next s.currentProcess others

/-- The ring holds at most `MAX_PROCESSES` processes. -/
def WithinLimit (s : KernelState) : Prop :=
  ∃ ps, Rings s.procs.proc ps ∧ ps.length ≤ maxProcesses

theorem Populated.ring (populated : Populated s n) :
    ∃ ps, Rings s.procs.proc ps ∧ ps.length = n := by
  rcases populated.invariant with ⟨live, inv⟩
  have count := populated.count
  rcases inv.procs.ring with ⟨null, empty⟩ | ⟨others, ring, perm⟩
  · exact ⟨[], .inl ⟨null, rfl⟩, by rw [← count, empty]⟩
  · exact ⟨_, .inr ⟨others, rfl, ring⟩, by rw [← count, perm.length_eq]⟩

/-- There is one ring. -/
theorem Populated.length_ring {ps : List Word} (populated : Populated s n)
    (rings : Rings s.procs.proc ps) (some_ : s.procs.proc.currentProcess ≠ 0#32) :
    ps.length = n := by
  rcases populated.ring with ⟨qs, rings', length⟩
  rcases rings with ⟨null, -⟩ | ⟨others, rfl, ring⟩
  · exact absurd null some_
  · rcases rings' with ⟨null, -⟩ | ⟨others', rfl, ring'⟩
    · exact absurd null some_
    · rw [← length, ring.unique ring']

theorem Populated.withinLimit_iff (populated : Populated s n) :
    WithinLimit s ↔ n ≤ maxProcesses := by
  constructor
  · rintro ⟨ps, rings, short⟩
    by_cases null : s.procs.proc.currentProcess = 0#32
    · rcases populated.invariant with ⟨live, inv⟩
      have none_ : n = 0 := by rw [← populated.count, inv.procs.created_eq_nil null]; rfl
      exact none_ ▸ Nat.zero_le _
    · exact populated.length_ring rings null ▸ short
  · intro few
    rcases populated.ring with ⟨ps, rings, length⟩
    exact ⟨ps, rings, length ▸ few⟩

/-- In every run of operations on processes and of `heap_print_info`, the ring holds at
most `MAX_PROCESSES` processes throughout exactly when `process_create` is called at most
that often. -/
theorem process_limit_iff {q : ProcState} {tr : List (Sys.Event KernelState KernelOp)}
    (run : Sys.Run KernelStep (kernelInit h q) tr t) :
    (∀ e ∈ tr, WithinLimit e.pre ∧ WithinLimit e.post) ↔ creations tr ≤ maxProcesses := by
  have most : maxProcesses < processCapacity := by decide
  have limit : ∀ {tr t}, Sys.Run KernelStep (kernelInit h q) tr t →
      (WithinLimit t ↔ creations tr ≤ maxProcesses) := by
    intro tr t run
    rw [(Populated.run run).withinLimit_iff]
    omega
  constructor
  · intro within
    cases run with
    | nil => exact Nat.zero_le _
    | snoc before last =>
        have here := within _ (List.mem_append_right _ (List.mem_singleton_self _))
        exact (limit (before.snoc last)).mp here.2
  · intro few e member
    rcases run.split member with ⟨before, after, shape, reach, edge, -⟩
    have next : Sys.Run KernelStep (kernelInit h q) (before ++ [e]) e.post := reach.snoc edge
    have sum : creations tr = creations (before ++ [e]) + creations after := by
      rw [shape, List.append_cons]
      exact List.countP_append
    have sum' : creations (before ++ [e]) = creations before + creations [e] :=
      List.countP_append
    exact ⟨(limit reach).mpr (by omega), (limit next).mpr (by omega)⟩

/-- Any number of calls is possible. -/
theorem exists_creations (h : HeapState) (q : ProcState) (n : Nat) :
    ∃ tr t, Sys.Run KernelStep (kernelInit h q) tr t ∧ creations tr = n := by
  induction n with
  | zero => exact ⟨[], _, .nil, rfl⟩
  | succ n ih =>
      rcases ih with ⟨tr, t, run, count⟩
      rcases (Populated.run run).invariant with ⟨live, inv⟩
      rcases inv.exists_create 0x101000#32 [0x41#8] 2#32 with ⟨r, q, h', call⟩
      have total : ∀ u, creations (tr ++ [⟨t, .create 0x101000#32 [0x41#8] 2#32, u⟩]) = n + 1 :=
        fun u => List.countP_append.trans (congrArg (· + 1) count)
      exact ⟨_, _, run.snoc (.create call), total _⟩

/-- The limit can be used up. -/
theorem process_limit_iff_sixteen :
    ∃ tr t, Sys.Run KernelStep (kernelInit blankHeap blankProc) tr t ∧ creations tr = 16 ∧
      ∀ e ∈ tr, WithinLimit e.pre ∧ WithinLimit e.post := by
  rcases exists_creations blankHeap blankProc 16 with ⟨tr, t, run, count⟩
  exact ⟨tr, t, run, count, (process_limit_iff run).mpr (Nat.le_of_eq count)⟩

/-- After seventeen calls there are seventeen processes in the ring. -/
theorem seventeen_processes :
    ∃ tr t, Sys.Run KernelStep (kernelInit blankHeap blankProc) tr t ∧ creations tr = 17 ∧
      ¬ WithinLimit t ∧ ∃ ps, Rings t.procs.proc ps ∧ ps.length = 17 := by
  rcases exists_creations blankHeap blankProc 17 with ⟨tr, t, run, count⟩
  have populated := Populated.run run
  rw [count] at populated
  refine ⟨tr, t, run, count, fun within => ?_, populated.ring⟩
  exact absurd (populated.withinLimit_iff.mp within) (by decide)

end Learnix
