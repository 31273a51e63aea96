import Learnix.Paging
import Learnix.PmmRuns

/-!
# Frames that are mapped

`pmm_alloc_frame` hands out physical memory up to the end of it, and `paging_init` maps the
lowest 4 MB. A frame that lies above can not be used. Eight frames lie between `PMM_START_ADDR`
and 4 MB, and the least free one is handed out: all frames in use are mapped as long as at most
eight are in use at a time, and no longer, and one that is not mapped is only handed out when the
eight are taken (`frames_mapped_iff`).
-/

namespace Learnix

open Machine PageWalk

/-- Every address of the frame at `a` is mapped to itself. -/
def IdentityMapped (translation : Word → Option Word) (a : Word) : Prop :=
  ∀ v, Memory.InRange a pmmFrameSize v → translation v = some v

/-- The frames from `PMM_START_ADDR` to 4 MB. -/
def mappedFrames : Nat := (0x400000 - pmmStartAddr) / pmmFrameSize

variable {memSize a tableAddr : Word} {p : PmmState} {s t : PmmRunState}
  {tr : List (Sys.Event PmmRunState PmmOp)}

/-- A frame is mapped if it is one of the first eight. -/
theorem PmmInvariant.identityMapped_iff (inv : PmmInvariant memSize s) (member : a ∈ s.frames)
    (aligned : Aligned tableAddr) (others : Word → Table) (g : PagingState) :
    IdentityMapped (translate tableAddr others (pagingInit tableAddr g)) a ↔
      frameOf a < 8 + mappedFrames := by
  have place := inv.address a member
  have bound := (inv.live member).2.2
  have size : pmmFrameSize = 262144 := rfl
  have count : mappedFrames = 8 := rfl
  rw [size] at place
  constructor
  · intro mapped
    by_contra high
    have first : Memory.InRange a pmmFrameSize a := by
      rw [Memory.InRange, BitVec.sub_self]
      decide
    have here := mapped a first
    rw [translate_pagingInit aligned, if_neg (by omega)] at here
    cases here
  · intro low v inside
    rw [Memory.inRange_iff (by omega), size] at inside
    rw [translate_pagingInit aligned, if_pos (by omega)]

/-- When a frame is handed out that is not mapped, the eight that are mapped are in use. -/
theorem PmmInvariant.taken (inv : PmmInvariant memSize s) (step : PmmStep s (.alloc a) t)
    (notNull : a ≠ 0#32) (aligned : Aligned tableAddr) (others : Word → Table) (g : PagingState)
    (unmapped : ¬ IdentityMapped (translate tableAddr others (pagingInit tableAddr g)) a) {f : ℕ}
    (low : 8 ≤ f) (high : f < 8 + mappedFrames) : ∃ b ∈ s.frames, frameOf b = f := by
  have member : a ∈ t.frames := by
    cases step with
    | alloc _ =>
        rw [if_neg notNull]
        exact List.mem_cons_self
  have beyond : 8 + mappedFrames ≤ frameOf a :=
    Nat.not_lt.mp (mt ((inv.step step).identityMapped_iff member aligned others g).mpr unmapped)
  have abstract_ : LeastFree.Step s.abs (.take (some (frameOf a))) t.abs := by
    have same : (PmmOp.alloc a).abs = .take (some (frameOf a)) := by rw [PmmOp.abs, if_neg notNull]
    rw [← same]
    exact inv.simulates step
  have live : f ∈ s.abs.live := by
    generalize t.abs = t' at abstract_
    cases abstract_ with
    | take free least => exact inv.frames.live_of_lt free least low (high.trans_le beyond)
  obtain ⟨b, inUse, number⟩ := List.mem_map.mp live
  exact ⟨b, inUse, number⟩

/-- In a run of `pmm_alloc_frame` and `pmm_free_frame` from `pmm_init`, with the paging of
`paging_init`, all frames in use are mapped to themselves in every state if and only if in every
state at most eight frames are in use. A frame that is not mapped is handed out only when the
eight are taken. -/
theorem frames_mapped_iff (run : Sys.Run PmmStep (pmmRunInit memSize p) tr t)
    (aligned : Aligned tableAddr) (others : Word → Table) (g : PagingState) :
    ((∀ e ∈ tr, ∀ a ∈ e.post.frames,
        IdentityMapped (translate tableAddr others (pagingInit tableAddr g)) a) ↔
      ∀ e ∈ tr, e.post.frames.length ≤ mappedFrames) ∧
    ∀ e ∈ tr, ∀ a, e.op = .alloc a → a ≠ 0#32 →
      ¬ IdentityMapped (translate tableAddr others (pagingInit tableAddr g)) a →
      ∀ f, 8 ≤ f → f < 8 + mappedFrames → ∃ b ∈ e.pre.frames, frameOf b = f := by
  have start := pmmInvariant_init memSize p
  have abstract_ := run.simulate start (fun inv step => inv.step step)
    (fun inv step => inv.simulates step)
  rw [PmmRunState.abs, pmmRunInit, freeSet_pmmInit] at abstract_
  have first := LeastFree.run_first_iff (n := mappedFrames) abstract_
  have number : ∀ e ∈ tr, ∀ a ∈ e.post.frames,
      (IdentityMapped (translate tableAddr others (pagingInit tableAddr g)) a ↔
        frameOf a < 8 + mappedFrames) := fun e member a live =>
    (run.invariant_of_mem member start fun inv step => inv.step step).2.2.identityMapped_iff live
      aligned others g
  rw [List.forall_mem_map, List.forall_mem_map] at first
  have length : ∀ e ∈ tr, (e.post.frames.map frameOf).length = e.post.frames.length :=
    fun e _ => List.length_map frameOf
  refine ⟨⟨?_, ?_⟩, fun e member a call notNull unmapped f low high => ?_⟩
  · intro mapped e member
    rw [← length e member]
    refine first.mp (fun e member m live => ?_) e member
    obtain ⟨a, frame, rfl⟩ := List.mem_map.mp live
    exact (number e member a frame).mp (mapped e member a frame)
  · intro few e member a live
    refine (number e member a live).mpr ?_
    exact first.mpr (fun e member => (length e member).trans_le (few e member)) e member _
      (List.mem_map_of_mem live)
  · obtain ⟨inv, step, -⟩ := run.invariant_of_mem member start fun inv step => inv.step step
    rw [call] at step
    exact inv.taken step notNull aligned others g unmapped low high

/-- The first frame of a machine with 4 MB. -/
theorem frames_mapped_iff_one :
    ∃ a q, Sys.Run PmmStep (pmmRunInit 0x400000#32 ⟨fun _ => 0#32, 0#32, 0#32⟩)
        [⟨pmmRunInit 0x400000#32 ⟨fun _ => 0#32, 0#32, 0#32⟩, .alloc a, q⟩] q ∧
      ∀ b ∈ q.frames, IdentityMapped (translate 0x10A000#32 (fun _ _ => 0#32)
        (pagingInit 0x10A000#32 blankPaging)) b := by
  have run : Sys.Run PmmStep (pmmRunInit 0x400000#32 ⟨fun _ => 0#32, 0#32, 0#32⟩) _ _ :=
    .snoc .nil (.alloc rfl)
  have aligned : Aligned 0x10A000#32 := by decide
  refine ⟨_, _, run, (frames_mapped_iff run aligned _ blankPaging).1.mpr ?_ _
    (List.mem_singleton_self _)⟩
  intro e member
  rw [List.nil_append, List.mem_singleton] at member
  subst member
  simp only
  split
  · exact Nat.zero_le _
  · exact Nat.le_of_ble_eq_true rfl

end Learnix
