import Learnix.ElfHeap
import Learnix.ElfReads
import Learnix.RunCommand

/-!
# When `elf_load` fails

`elf_load` calls the entry point itself ("PRUEBA: ejecutar directamente, sin scheduler")
before it creates the process. When the file is missing or rejected it has changed nothing
but `elf_buffer`. When there is no memory for the process, the segments have been stored
and the program has run (`load_atomic_iff`).
-/

namespace Learnix

open Machine Memory Tiling

variable {elfBuffer entry size p : Word} {l : Loader} {h h' : HeapState} {q q' : ProcState}
  {live : List (Word × Word)} {disk : Disk} {fs : Fat16} {filename : List Byte}

/-- What `elf_load` returns, and what it leaves. Whether it has called the entry point is
not part of the source. -/
structure LoadResult where
  value : Int
  heap : HeapState
  procs : ProcState
  executed : Bool

/-- `kmalloc` in whatever state a program has left the heap: one of its loops may not end,
and there is no heap then. -/
def kmallocWalk (size : Word) (h : Option HeapState) : Word × Option HeapState :=
  match h.bind (kmalloc size) with
  | some (p, h) => (p, some h)
  | none => (0#32, none)

/-- Such a heap, for `process_create`. -/
def walkedHeap : Allocator (Option HeapState) where
  kmalloc := kmallocWalk
  kfree proc h := h.map (kernelHeap.kfree proc)

/-- The characters of a file name that `fat16_read_file` looks at. What is not in the list
is 0. -/
def fatChars (filename : List Byte) : Fin 11 → Byte := fun i => filename.getD i 0#8

/-- `elf_load`, with `elf_buffer` at `elfBuffer`; `none` if it does not return. `program` is
the code that is at the entry point by then: what it leaves of the heap and the processes,
if it returns. -/
def elfLoad (disk : Disk) (fs : Fat16) (filename : List Byte) (elfBuffer : Word)
    (program : Word → HeapState × ProcState → Option (HeapState × ProcState))
    (h : HeapState) (q : ProcState) : Option LoadResult :=
  match elfLoadToEntry disk fs (fatChars filename) elfBuffer h.mem with
  | none => none
  | some (.rejected m) => some ⟨-1, { h with mem := m }, q, false⟩
  | some (.entered entry l) =>
    (program entry ({ h with mem := l.mem }, q)).bind fun (h, q) =>
      (processCreate walkedHeap entry filename priorityNormal q (some h)).bind fun (proc, q, h) =>
        h.map fun h => ⟨if proc = 0#32 then -1 else 0, h, q, true⟩

/-- The call has changed no memory but `elf_buffer` and executed nothing of the program, and
the block list, the ring and `next_pid` are as they were. -/
structure LoadResult.Untouched (r : LoadResult) (elfBuffer : Word) (h : HeapState)
    (q : ProcState) : Prop where
  mem : ∀ a, ¬ InRange elfBuffer elfBufferSize a → r.heap.mem a = h.mem a
  executed : r.executed = false
  blocks : ∃ bs, h.blocks = some bs ∧ r.heap.blocks = some bs
  procs : r.procs = q

/-- The heap refuses one of the two requests of `process_create`. -/
def Refuses (h : HeapState) : Prop :=
  (∃ h₁, kmalloc (BitVec.ofNat 32 processBytes) h = some (0#32, h₁)) ∨
    ∃ p h₁ h₂, kmalloc (BitVec.ofNat 32 processBytes) h = some (p, h₁) ∧ p ≠ 0#32 ∧
      kmalloc (BitVec.ofNat 32 stackSize) h₁ = some (0#32, h₂)

theorem kmallocWalk_eq (call : kmalloc size h = some (p, h')) :
    kmallocWalk size (some h) = (p, some h') := by
  rw [kmallocWalk, Option.bind_some, call]

theorem kmalloc_of_walk {g : Option HeapState} (answer : kmallocWalk size g = (p, some h')) :
    ∃ h, g = some h ∧ kmalloc size h = some (p, h') := by
  unfold kmallocWalk at answer
  rcases walk : g.bind (kmalloc size) with _ | ⟨r, u⟩
  · rw [walk] at answer
    cases answer
  · rw [walk] at answer
    cases answer
    exact Option.bind_eq_some_iff.mp walk

/-- `process_create` fails when the heap refuses, -/
theorem Refuses.create (refuses : Refuses h) (entry priority : Word) (name : List Byte)
    (q : ProcState) :
    ∃ q' h', processCreate walkedHeap entry name priority q (some h) =
      some (0#32, q', some h') := by
  rcases refuses with ⟨h₁, first⟩ | ⟨p, h₁, h₂, first, some_, second⟩
  · exact ⟨q, h₁, by simp [processCreate, walkedHeap, kmallocWalk_eq first]⟩
  · refine ⟨q.setPcb p fun b => { b with stack := 0#32 }, kernelHeap.kfree p h₂, ?_⟩
    simp [processCreate, walkedHeap, kmallocWalk_eq first, some_, kmallocWalk_eq second]

/-- and only then. -/
theorem refuses_of_create {priority : Word} {name : List Byte}
    (call : processCreate walkedHeap entry name priority q (some h) =
      some (0#32, q', some h')) : Refuses h := by
  generalize made : (0#32, q', some h') = r at call
  cases Creates.of_call call with
  | noBlock first =>
      cases made
      obtain ⟨u, same, block⟩ := kmalloc_of_walk first
      cases same
      exact .inl ⟨h', block⟩
  | @noStack proc g₁ g₂ first some_ second =>
      -- There is a heap in the end, so no walk has failed to end.
      rcases g₂ with _ | h₂
      · cases congrArg (fun r : Word × ProcState × Option HeapState => r.2.2) made
      · obtain ⟨h₁, rfl, stack⟩ := kmalloc_of_walk second
        obtain ⟨u, same, block⟩ := kmalloc_of_walk first
        cases same
        exact .inr ⟨proc, h₁, h₂, block, some_, stack⟩
  | joined _ some_ _ _ _ =>
      cases made
      exact absurd rfl some_

theorem mem_of_rejected {bytes : Int} {m u : Memory}
    (rejected : elfLoadRead elfBuffer bytes m = .rejected u) : u = m := by
  unfold elfLoadRead at rejected
  split at rejected
  · exact (ElfLoad.rejected.inj rejected).symm
  · split at rejected
    · exact (ElfLoad.rejected.inj rejected).symm
    · cases rejected

/-- A load that ends before the segments has changed nothing. -/
theorem untouched_of_rejected {name : Fin 11 → Byte} {m : Memory} (holds : Holds h live)
    (apart : ∀ a, InHeap a → ¬ InRange elfBuffer elfBufferSize a)
    (rejected : elfLoadToEntry disk fs name elfBuffer h.mem = some (.rejected m))
    (q : ProcState) : LoadResult.Untouched ⟨-1, { h with mem := m }, q, false⟩ elfBuffer h q := by
  obtain ⟨bytes, n, file, le, -, reads⟩ := exists_read disk fs name
  obtain ⟨b, read, memory⟩ := reads elfBuffer h.mem
  rw [elfLoadToEntry_of_read read, memory, Option.some.injEq] at rejected
  have outside : ∀ a, ¬ InRange elfBuffer elfBufferSize a → m a = h.mem a := by
    intro a beyond
    rw [mem_of_rejected rejected]
    exact withFile_of_not_inRange fun inside => beyond (Nat.lt_of_lt_of_le inside le)
  have holds' : Holds { h with mem := m } live :=
    holds.frame fun a inHeap => outside a (apart a inHeap)
  exact ⟨outside, rfl, holds.blocks_eq holds', rfl⟩

/-- The file is accepted, and the program returns and leaves a heap that refuses. -/
def RefusedAfterRun (disk : Disk) (fs : Fat16) (filename : List Byte) (elfBuffer : Word)
    (program : Word → HeapState × ProcState → Option (HeapState × ProcState))
    (h : HeapState) (q : ProcState) : Prop :=
  ∃ entry l h' q', elfLoadToEntry disk fs (fatChars filename) elfBuffer h.mem =
      some (.entered entry l) ∧
    program entry ({ h with mem := l.mem }, q) = some (h', q') ∧ Refuses h'

theorem RefusedAfterRun.elfLoad {program : Word → HeapState × ProcState →
    Option (HeapState × ProcState)}
    (refused : RefusedAfterRun disk fs filename elfBuffer program h q) :
    ∃ g u, elfLoad disk fs filename elfBuffer program h q = some ⟨-1, g, u, true⟩ := by
  rcases refused with ⟨entry, l, h', q', entered, returned, refuses⟩
  obtain ⟨u, g, call⟩ := refuses.create entry priorityNormal filename q'
  refine ⟨g, u, ?_⟩
  unfold Learnix.elfLoad
  rw [entered]
  simp [returned, call]

/-- With `elf_buffer` apart from the heap, and the heap in a state that it can be in: when
`elf_load` returns -1 it has changed nothing, if and only if it is not the case that the
file is accepted and the program returns to a heap without room for its process. -/
theorem load_atomic_iff (holds : Holds h live)
    (apart : ∀ a, InHeap a → ¬ InRange elfBuffer elfBufferSize a) (disk : Disk) (fs : Fat16)
    (filename : List Byte)
    (program : Word → HeapState × ProcState → Option (HeapState × ProcState)) (q : ProcState) :
    (∀ r, elfLoad disk fs filename elfBuffer program h q = some r → r.value = -1 →
        r.Untouched elfBuffer h q) ↔
      ¬ RefusedAfterRun disk fs filename elfBuffer program h q := by
  constructor
  · intro atomic refused
    obtain ⟨g, u, fails⟩ := refused.elfLoad
    cases (atomic _ fails rfl).executed
  · intro never r load failed
    unfold elfLoad at load
    split at load
    · cases load
    · next m rejected =>
      cases load
      exact untouched_of_rejected holds apart rejected q
    · next entry l entered =>
      obtain ⟨⟨h', q'⟩, returned, load⟩ := Option.bind_eq_some_iff.mp load
      obtain ⟨⟨proc, u, g⟩, call, load⟩ := Option.bind_eq_some_iff.mp load
      obtain ⟨h'', rfl, rfl⟩ := Option.map_eq_some_iff.mp load
      have null : proc = 0#32 := by
        by_contra some_
        rw [if_neg some_] at failed
        cases failed
      rw [null] at call
      exact absurd ⟨entry, l, h', q', entered, returned, refuses_of_create call⟩ never

theorem fatChars_ofFn (name : Fin 11 → Byte) : fatChars (List.ofFn name) = name := by
  funext i
  have inside : i.val < (List.ofFn name).length := i.isLt.trans_eq (List.length_ofFn).symm
  rw [fatChars, List.getD_eq_getElem?_getD, List.getElem?_eq_getElem inside, Option.getD_some,
    List.getElem_ofFn]

/-- Loading a file without a byte changes nothing. -/
theorem load_atomic_iff_empty :
    ∃ r, elfLoad (readable (oneFile 0 [])) fragmentedFs (List.ofFn (oneFileEntry 0).fatName)
        0x110000#32 (fun _ s => some s) (heapInit blankHeap) blankProc = some r ∧ r.value = -1 ∧
      r.Untouched 0x110000#32 (heapInit blankHeap) blankProc := by
  have zeros : elfVerify (elf32Hdr (heapInit blankHeap).mem 0x110000#32) ≠ .ok () := by
    decide +kernel
  obtain ⟨m, bad⟩ := elfLoadRead_rejected_iff.mpr (.inr zeros : (0 : Int) < 0 ∨ _)
  have rejected : elfLoadToEntry (readable (oneFile 0 [])) fragmentedFs
      (fatChars (List.ofFn (oneFileEntry 0).fatName)) 0x110000#32 (heapInit blankHeap).mem =
        some (.rejected m) := by
    rw [fatChars_ofFn, elfLoadToEntry_empty, bad]
  have load : elfLoad (readable (oneFile 0 [])) fragmentedFs
      (List.ofFn (oneFileEntry 0).fatName) 0x110000#32 (fun _ s => some s)
      (heapInit blankHeap) blankProc =
        some ⟨-1, { heapInit blankHeap with mem := m }, blankProc, false⟩ := by
    rw [elfLoad, rejected]
  refine ⟨_, load, rfl, ?_⟩
  apply (load_atomic_iff holds_heapInit bufferApart (readable (oneFile 0 [])) fragmentedFs
    (List.ofFn (oneFileEntry 0).fatName) (fun _ s => some s) blankProc).mpr
  · rintro ⟨entry, l, h', q', entered, -⟩
    rw [rejected] at entered
    cases entered
  · exact load
  · rfl

/-- With 8550 bytes left in the heap, a program that returns at once has run when
`elf_load` returns -1. -/
theorem load_runs_program :
    ∃ t, Sys.Run HeapStep (heapRunInit blankHeap)
        [⟨heapRunInit blankHeap, .kmalloc 1040000#32, t⟩] t ∧
      ∃ r, elfLoad (readable (oneFile 85 (tinyElf 0x300000))) fragmentedFs
          (List.ofFn (oneFileEntry 85).fatName) 0x110000#32 (fun _ s => some s) t.heap
          blankProc = some r ∧
        r.value = -1 ∧ r.executed = true ∧ ¬ r.Untouched 0x110000#32 t.heap blankProc := by
  obtain ⟨t, run, inv⟩ := exists_run_kmalloc 1040000#32
  have small : (oneFileEntry 85).fileSize.toNat ≤ elfBufferSize := by decide +kernel
  obtain ⟨bytes, buffer, entry, l, read, entered, keeps, headers, outside⟩ :=
    wellFormed_tiny.entered t.heap.mem lookup_tiny small (by decide +kernel)
  have loaded := loaded_of_entered read entered keeps
  -- The segment keeps off the heap, which has as little room as before.
  have same : ∀ a, InHeap a → l.mem a = t.heap.mem a := by
    intro a inHeap
    rw [loaded.frame a fun ph member storesTo =>
      keepsHeap_tiny headers ph member a storesTo inHeap]
    exact outside a (bufferApart a inHeap)
  obtain ⟨h₁, h₂, first, second⟩ := (inv.represents.frame same).kmalloc_full
  have refused : RefusedAfterRun (readable (oneFile 85 (tinyElf 0x300000))) fragmentedFs
      (List.ofFn (oneFileEntry 85).fatName) 0x110000#32 (fun _ s => some s) t.heap blankProc := by
    refine ⟨entry, l, { t.heap with mem := l.mem }, blankProc, ?_, rfl, ?_⟩
    · rw [fatChars_ofFn]
      exact entered
    · exact .inr ⟨0x2FDE9A#32, h₁, h₂, first, by decide, second⟩
  obtain ⟨g, u, fails⟩ := refused.elfLoad
  refine ⟨t, run, _, fails, rfl, rfl, fun untouched => ?_⟩
  cases untouched.executed

end Learnix
