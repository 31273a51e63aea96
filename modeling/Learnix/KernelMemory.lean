import Learnix.HeapIntegrity
import Learnix.Pmm

/-!
# The heap and the frame allocator in one address space

`kernel_main` starts the physical memory manager and the heap over the same
memory. `MemoryStep` interleaves their operations, with the frames that are
allocated as part of the state. Whether the two ever hand out the same memory
is decided by the first `pmm_alloc_frame` (`allocators_disjoint_iff`): the
frames start at `PMM_START_ADDR`, and so does the heap.
-/

namespace Learnix

open Machine

/-- One use of either allocator. -/
inductive MemoryOp
  | heap (op : HeapOp)
  | pmmAllocFrame
  | pmmFreeFrame (addr : Word)

/-- The heap, the frame allocator, and the frames that are allocated. -/
structure KernelMemory where
  heap : HeapRunState
  pmm : PmmState
  frames : List Word

/-- One legal operation. A frame that is freed is one that is allocated. -/
inductive MemoryStep : KernelMemory → MemoryOp → KernelMemory → Prop
  | heap {s : KernelMemory} {op : HeapOp} {h : HeapRunState} :
    HeapStep s.heap op h → MemoryStep s (.heap op) { s with heap := h }
  | pmmAllocFrame {s : KernelMemory} {a : Word} {p : PmmState} :
    Learnix.pmmAllocFrame s.pmm = (a, p) →
    MemoryStep s .pmmAllocFrame
      { s with pmm := p, frames := if a = 0#32 then s.frames else a :: s.frames }
  | pmmFreeFrame {s : KernelMemory} {a : Word} :
    a ∈ s.frames →
    MemoryStep s (.pmmFreeFrame a)
      { s with pmm := Learnix.pmmFreeFrame a s.pmm, frames := s.frames.erase a }

/-- After `pmm_init(mem)` and `heap_init`, as `kernel_main` runs them. -/
def memoryInit (mem : Word) (h : HeapState) (p : PmmState) : KernelMemory :=
  ⟨heapRunInit h, pmmInit mem p, []⟩

/-- No allocated frame shares an address with the heap. -/
def AllocatorsDisjoint (s : KernelMemory) : Prop :=
  ∀ a ∈ s.frames, Memory.Sep a pmmFrameSize (BitVec.ofNat 32 heapStart) heapSize

variable {s t : KernelMemory} {mem : Word} {h : HeapState} {p : PmmState}
  {tr : List (Sys.Event KernelMemory MemoryOp)}

/-- With more than eight frames, the first frame that `pmm_alloc_frame` returns is
the one at the start of the heap. -/
theorem pmmAllocFrame_first (many : 8 < frameCount mem) :
    (pmmAllocFrame (pmmInit mem p)).1 = BitVec.ofNat 32 heapStart := by
  obtain ⟨total, used, free⟩ := pmmInit_eq mem p
  have max : pmmFramesMax = 8192 := rfl
  have room : (pmmInit mem p).usedFrames < (pmmInit mem p).totalFrames := by
    rw [BitVec.lt_def, total, used]
    omega
  have eighth : FreeFrame (pmmInit mem p) 8 := (free 8).mpr (by omega)
  have least : ∀ g < 8, ¬ FreeFrame (pmmInit mem p) g := fun g below freeG => by
    have := (free g).mp freeG
    omega
  exact pmmAllocFrame_eq room eighth least

/-- With at most eight frames there is none to hand out. -/
theorem pmmAllocFrame_none (few : frameCount mem ≤ 8) :
    pmmAllocFrame (pmmInit mem p) = (0#32, pmmInit mem p) := by
  obtain ⟨total, used, -⟩ := pmmInit_eq mem p
  apply pmmAllocFrame_of_full
  rw [BitVec.le_def, total, used]
  omega

theorem not_allocatorsDisjoint (frame : BitVec.ofNat 32 heapStart ∈ s.frames) :
    ¬ AllocatorsDisjoint s := by
  intro disjoint
  exact disjoint _ frame (BitVec.ofNat 32 heapStart) (by decide) (by decide)

/-- Until a frame is handed out, the frame allocator is as `pmm_init` left it. -/
structure Untouched (mem : Word) (p : PmmState) (s : KernelMemory) : Prop where
  pmm : s.pmm = pmmInit mem p
  frames : s.frames = []

theorem untouched_memoryInit (mem : Word) (h : HeapState) (p : PmmState) :
    Untouched mem p (memoryInit mem h p) :=
  ⟨rfl, rfl⟩

theorem Untouched.disjoint (untouched : Untouched mem p s) : AllocatorsDisjoint s := by
  intro a member
  rw [untouched.frames] at member
  cases member

/-- Only `pmm_alloc_frame` ends that, and only when there is a frame. -/
theorem Untouched.step {op : MemoryOp} (untouched : Untouched mem p s) (step : MemoryStep s op t)
    (quiet : op ≠ .pmmAllocFrame ∨ frameCount mem ≤ 8) : Untouched mem p t := by
  cases step with
  | heap _ => exact ⟨untouched.pmm, untouched.frames⟩
  | pmmAllocFrame call =>
      have few := quiet.resolve_left fun other => other rfl
      rw [untouched.pmm, pmmAllocFrame_none few] at call
      cases call
      exact ⟨rfl, untouched.frames⟩
  | pmmFreeFrame member =>
      rw [untouched.frames] at member
      cases member

/-- The first `pmm_alloc_frame` hands out the start of the heap. -/
theorem Untouched.pmmAllocFrame (untouched : Untouched mem p s) (many : 8 < frameCount mem)
    (step : MemoryStep s .pmmAllocFrame t) : BitVec.ofNat 32 heapStart ∈ t.frames := by
  cases step with
  | pmmAllocFrame call =>
      have first := pmmAllocFrame_first (p := p) many
      rw [← untouched.pmm, call] at first
      simp only at first
      rw [first, if_neg (by decide)]
      exact List.mem_cons_self

theorem exists_pmmAllocFrame (s : KernelMemory) : ∃ t, MemoryStep s .pmmAllocFrame t :=
  ⟨_, .pmmAllocFrame rfl⟩

/-- Some state of the run has a frame in the heap, or none has been handed out. -/
theorem overlap_or_untouched (many : 8 < frameCount mem)
    (run : Sys.Run MemoryStep (memoryInit mem h p) tr t) :
    (∃ e ∈ tr, ¬ AllocatorsDisjoint e.post) ∨
      (∀ e ∈ tr, e.op ≠ .pmmAllocFrame) ∧ Untouched mem p t := by
  refine run.history_invariant
    (I := fun tr t => (∃ e ∈ tr, ¬ AllocatorsDisjoint e.post) ∨
      (∀ e ∈ tr, e.op ≠ .pmmAllocFrame) ∧ Untouched mem p t)
    (.inr ⟨(fun e member => by cases member), untouched_memoryInit mem h p⟩) ?_
  intro tr s op u _ before step
  rcases before with ⟨e, member, overlap⟩ | ⟨quiet, untouched⟩
  · exact .inl ⟨e, List.mem_append_left _ member, overlap⟩
  · by_cases alloc : op = .pmmAllocFrame
    · subst alloc
      exact .inl ⟨⟨s, .pmmAllocFrame, u⟩, by simp,
        not_allocatorsDisjoint (untouched.pmmAllocFrame many step)⟩
    · exact .inr ⟨Sys.forall_mem_snoc quiet alloc, untouched.step step (.inl alloc)⟩

/-- A frame allocator before `pmm_init`. -/
def blankPmm : PmmState := ⟨fun _ => 0#32, 0#32, 0#32⟩

/-- The frame allocator and the heap keep apart in every state of a run if and only
if memory ends where the heap starts, give or take less than a frame, or the run
allocates no frame. -/
theorem allocators_disjoint_iff (run : Sys.Run MemoryStep (memoryInit mem h p) tr t) :
    (AllocatorsDisjoint t ∧ ∀ e ∈ tr, AllocatorsDisjoint e.pre ∧ AllocatorsDisjoint e.post) ↔
      mem.toNat / pmmFrameSize ≤ 8 ∨ ∀ e ∈ tr, e.op ≠ .pmmAllocFrame := by
  constructor
  · intro disjoint
    have along := disjoint.2
    by_cases many : 8 < frameCount mem
    · rcases overlap_or_untouched many run with ⟨e, member, overlap⟩ | ⟨quiet, -⟩
      · exact absurd (along e member).2 overlap
      · exact .inr quiet
    · exact .inl (Nat.le_of_not_lt many)
  · intro quiet
    obtain ⟨final, along⟩ := run.invariant_of_guard (I := Untouched mem p)
      (G := fun _ op => op ≠ .pmmAllocFrame ∨ frameCount mem ≤ 8) (untouched_memoryInit mem h p)
      (fun e member => quiet.symm.imp (· e member) id)
      (fun untouched guard step => untouched.step step guard)
    exact ⟨final.disjoint, fun e member =>
      ⟨(along e member).1.disjoint, (along e member).2.disjoint⟩⟩

theorem allocators_disjoint_iff_kmalloc :
    ∃ t, MemoryStep (memoryInit 0x8000000#32 blankHeap blankPmm) (.heap (.kmalloc 5#32)) t ∧
      AllocatorsDisjoint t := by
  obtain ⟨u, step, -⟩ := (heapInvariant_init blankHeap).exists_kmalloc 5#32
  have edge : MemoryStep (memoryInit 0x8000000#32 blankHeap blankPmm) (.heap (.kmalloc 5#32)) _ :=
    .heap step
  refine ⟨_, edge, ((allocators_disjoint_iff (.snoc .nil edge)).mpr (.inr ?_)).1⟩
  intro e member
  rw [List.nil_append, List.mem_singleton] at member
  rw [member]
  exact fun other => by cases other

/-- With 128 MB the first frame handed out is the one that the heap starts in. -/
theorem frame_meets_heap :
    ∃ t, Sys.Run MemoryStep (memoryInit 0x8000000#32 blankHeap blankPmm)
        [⟨memoryInit 0x8000000#32 blankHeap blankPmm, .pmmAllocFrame, t⟩] t ∧
      0x200000#32 ∈ t.frames ∧ ¬ AllocatorsDisjoint t := by
  obtain ⟨t, step⟩ := exists_pmmAllocFrame (memoryInit 0x8000000#32 blankHeap blankPmm)
  have untouched := untouched_memoryInit 0x8000000#32 blankHeap blankPmm
  have frame := untouched.pmmAllocFrame (by simp [frameCount, pmmFrameSize]) step
  exact ⟨t, .snoc .nil step, frame, not_allocatorsDisjoint frame⟩

end Learnix
