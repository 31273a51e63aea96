import Learnix.PmmRuns

/-!
# The self-test of the physical memory manager

`pmm_print_info` allocates three frames, prints their addresses and frees all three. With
three free frames it leaves the manager as it was. With fewer the last address is null, and
freeing it makes the first frame of physical memory a free one (`pmm_self_test_iff`).
-/

namespace Learnix

open Machine

/-- The numbers that `pmm_print_info` prints. -/
structure PmmInfo where
  totalFrames : Word
  usedFrames : Word
  freeFrames : Word
  frame1 : Word
  frame2 : Word
  frame3 : Word

def pmmPrintInfo (s : PmmState) : PmmInfo × PmmState :=
  let f1 := pmmAllocFrame s
  let f2 := pmmAllocFrame f1.2
  let f3 := pmmAllocFrame f2.2
  (⟨s.totalFrames, s.usedFrames, pmmGetFreeFrames s, f1.1, f2.1, f3.1⟩,
    pmmFreeFrame f3.1 (pmmFreeFrame f2.1 (pmmFreeFrame f1.1 f3.2)))

/-- The call leaves the bitmap and the counter as they were, and no frame below
`PMM_START_ADDR` is free after it. -/
structure Neutral (s : PmmState) : Prop where
  bitmap : (pmmPrintInfo s).2.bitmap = s.bitmap
  usedFrames : (pmmPrintInfo s).2.usedFrames = s.usedFrames
  low : ∀ f, f * pmmFrameSize < pmmStartAddr → ¬ FreeFrame (pmmPrintInfo s).2 f

variable {memSize a : Word} {f : ℕ} {p q : PmmState} {s t : PmmRunState}

/-! ## Allocations -/

/-- `pmm_alloc_frame` takes frame `f`. -/
structure Takes (p : PmmState) (f : ℕ) (a : Word) (q : PmmState) : Prop where
  free : FreeFrame p f
  low : 8 ≤ f
  address : frameOf a = f
  state : q = { p with bitmap := Bitmap.set p.bitmap f, usedFrames := p.usedFrames + 1#32 }

theorem PmmInvariant.alloc (inv : PmmInvariant memSize s) :
    PmmInvariant memSize ⟨(pmmAllocFrame s.pmm).2,
      if (pmmAllocFrame s.pmm).1 = 0#32 then s.frames else (pmmAllocFrame s.pmm).1 :: s.frames⟩ :=
  inv.step (.alloc rfl)

theorem PmmInvariant.takes (inv : PmmInvariant memSize s) (some_ : 0 < (freeSet s.pmm).card) :
    ∃ f, Takes s.pmm f (pmmAllocFrame s.pmm).1 (pmmAllocFrame s.pmm).2 := by
  have outcome := inv.allocated
  generalize pmmAllocFrame s.pmm = r at outcome ⊢
  cases outcome with
  | full empty =>
      rw [empty] at some_
      exact absurd some_ (Nat.lt_irrefl 0)
  | @frame f free least =>
      rcases inv.bound free with ⟨low, -, bound⟩
      exact ⟨f, mem_freeSet.mp free, low, (frameOf_address bound).2, rfl⟩

theorem PmmInvariant.frame_eq_zero_iff (inv : PmmInvariant memSize s) :
    (pmmAllocFrame s.pmm).1 = 0#32 ↔ (freeSet s.pmm).card = 0 := by
  rw [Finset.card_eq_zero]
  exact (inv.allocSpec (Prod.mk.eta).symm).null

/-- An allocation takes a frame from the free ones, if there is one. -/
theorem PmmInvariant.card_alloc (inv : PmmInvariant memSize s) :
    (freeSet (pmmAllocFrame s.pmm).2).card = (freeSet s.pmm).card - 1 := by
  rcases Nat.eq_zero_or_pos (freeSet s.pmm).card with none | some_
  · have unchanged := (inv.allocSpec (Prod.mk.eta).symm).unchanged (inv.frame_eq_zero_iff.mpr none)
    rw [unchanged, none]
  · rcases inv.takes some_ with ⟨f, takes⟩
    rw [takes.state, freeSet_set, Finset.card_erase_of_mem (mem_freeSet.mpr takes.free)]

/-! ## The self-test -/

theorem freeFrame_zero (s : PmmState) : FreeFrame (pmmFreeFrame 0#32 s) 0 := by
  refine ⟨by decide, ?_⟩
  rw [pmmFreeFrame, frameOf_eq, Bitmap.test_clear (by decide)]
  rfl

/-- With fewer than three free frames the third allocation fails. -/
theorem PmmInvariant.frame3_eq_zero (inv : PmmInvariant memSize s)
    (few : (freeSet s.pmm).card < 3) : (pmmPrintInfo s.pmm).1.frame3 = 0#32 := by
  have first := inv.alloc
  have second := first.alloc
  have card1 := inv.card_alloc
  have card2 := first.card_alloc
  have none : (freeSet (pmmAllocFrame (pmmAllocFrame s.pmm).2).2).card = 0 := by
    simp only at card2
    omega
  exact second.frame_eq_zero_iff.mpr none

theorem pmmFreeFrame_eq (a : Word) (s : PmmState) :
    (pmmFreeFrame a s).bitmap = Bitmap.clear s.bitmap (frameOf a) ∧
      (0 < s.usedFrames.toNat →
        (pmmFreeFrame a s).usedFrames.toNat = s.usedFrames.toNat - 1) := by
  refine ⟨by rw [pmmFreeFrame, frameOf_eq], fun counted => ?_⟩
  have positive : 0#32 < s.usedFrames := counted
  rw [pmmFreeFrame]
  simp only [if_pos positive]
  bv_omega

/-- Three frames that are taken and freed come back. -/
theorem free_takes {q1 q2 q3 : PmmState} {a1 a2 a3 : Word} {f1 f2 f3 : ℕ}
    (takes1 : Takes p f1 a1 q1) (takes2 : Takes q1 f2 a2 q2) (takes3 : Takes q2 f3 a3 q3)
    (few : p.usedFrames.toNat + 3 < 2 ^ 32) :
    (pmmFreeFrame a3 (pmmFreeFrame a2 (pmmFreeFrame a1 q3))).bitmap = p.bitmap ∧
      (pmmFreeFrame a3 (pmmFreeFrame a2 (pmmFreeFrame a1 q3))).usedFrames = p.usedFrames := by
  have bitmap1 : q1.bitmap = Bitmap.set p.bitmap f1 := by rw [takes1.state]
  have bitmap2 : q2.bitmap = Bitmap.set q1.bitmap f2 := by rw [takes2.state]
  have bitmap3 : q3.bitmap = Bitmap.set q2.bitmap f3 := by rw [takes3.state]
  have used3 : q3.usedFrames.toNat = p.usedFrames.toNat + 3 := by
    rw [takes3.state, takes2.state, takes1.state]
    bv_omega
  constructor
  · have free1 := takes1.free.2
    have free2 := takes2.free.2
    have free3 := takes3.free.2
    rw [bitmap1, Bitmap.test_set (by decide), Bool.or_eq_false_iff] at free2
    rw [bitmap2, Bitmap.test_set (by decide), bitmap1, Bitmap.test_set (by decide),
      Bool.or_eq_false_iff, Bool.or_eq_false_iff] at free3
    have free : ∀ f ∈ [f1, f2, f3], Bitmap.test p.bitmap f = false := by
      simp only [List.forall_mem_cons]
      exact ⟨free1, free2.2, free3.2.2, fun _ member => absurd member List.not_mem_nil⟩
    rw [(pmmFreeFrame_eq a3 _).1, (pmmFreeFrame_eq a2 _).1, (pmmFreeFrame_eq a1 _).1,
      takes1.address, takes2.address, takes3.address, bitmap3, bitmap2, bitmap1]
    exact Bitmap.foldl_clear_foldl_set (by decide) free
  · have used2 := (pmmFreeFrame_eq a1 q3).2 (by omega)
    have used1 := (pmmFreeFrame_eq a2 (pmmFreeFrame a1 q3)).2 (by omega)
    have used0 := (pmmFreeFrame_eq a3 (pmmFreeFrame a2 (pmmFreeFrame a1 q3))).2 (by omega)
    apply BitVec.eq_of_toNat_eq
    omega

theorem PmmInvariant.neutral (inv : PmmInvariant memSize s) (enough : 3 ≤ (freeSet s.pmm).card) :
    Neutral s.pmm := by
  have first := inv.alloc
  have second := first.alloc
  have card1 := inv.card_alloc
  have card2 := first.card_alloc
  have used := inv.used
  have count : frameCount memSize < 2 ^ 32 := inv.total ▸ s.pmm.totalFrames.isLt
  rcases inv.takes (by omega) with ⟨f1, takes1⟩
  rcases first.takes (by simp only; omega) with ⟨f2, takes2⟩
  rcases second.takes (by simp only at card2 ⊢; omega) with ⟨f3, takes3⟩
  rcases free_takes takes1 takes2 takes3 (by omega) with ⟨bitmap, usedFrames⟩
  refine ⟨bitmap, usedFrames, fun f below free => ?_⟩
  have free' : f ∈ freeSet s.pmm := mem_freeSet.mpr ⟨free.1, bitmap ▸ free.2⟩
  have low := (inv.bound free').1
  have size : pmmFrameSize = 262144 := rfl
  have start : pmmStartAddr = 8 * 262144 := rfl
  rw [size, start] at below
  omega

/-- In every state that `pmm_init` and calls of the manager lead to, the self-test is neutral
exactly if three frames are free. -/
theorem pmm_self_test_iff {tr : List (Sys.Event PmmRunState PmmOp)}
    (run : Sys.Run PmmStep (pmmRunInit memSize p) tr t) :
    Neutral t.pmm ↔ 3 ≤ (pmmGetFreeFrames t.pmm).toNat := by
  have inv := (pmmInvariant_init memSize p).run run
  rw [inv.freeFrames]
  constructor
  · intro neutral
    by_contra few
    have null := inv.frame3_eq_zero (Nat.lt_of_not_le few)
    apply neutral.low 0 (by decide)
    change FreeFrame (pmmFreeFrame (pmmPrintInfo t.pmm).1.frame3 _) 0
    rw [null]
    exact freeFrame_zero _
  · exact inv.neutral

/-- The manager before `pmm_init`. -/
def emptyPmm : PmmState := ⟨fun _ => 0#32, 0#32, 0#32⟩

/-- After `pmm_init` with 4 MB eight frames are free. -/
theorem pmm_self_test_ok : Neutral (pmmInit 0x400000#32 emptyPmm) := by
  have run : Sys.Run PmmStep (pmmRunInit 0x400000#32 emptyPmm) [] _ := .nil
  exact (pmm_self_test_iff run).mpr (by decide +kernel)

/-- With 2304 KB there is one: two allocations fail, and the first frame becomes free. -/
theorem pmm_self_test_null :
    let s := pmmInit 0x240000#32 emptyPmm
    Sys.Run PmmStep (pmmRunInit 0x240000#32 emptyPmm) [] ⟨s, []⟩ ∧
      s.usedFrames = 8#32 ∧ (pmmPrintInfo s).1.frame1 = 0x200000#32 ∧
      (pmmPrintInfo s).1.frame2 = 0#32 ∧ (pmmPrintInfo s).1.frame3 = 0#32 ∧
      (pmmPrintInfo s).2.usedFrames = 6#32 ∧ FreeFrame (pmmPrintInfo s).2 0 ∧ ¬ Neutral s := by
  intro s
  have free : FreeFrame (pmmPrintInfo s).2 0 := ⟨by decide, by decide +kernel⟩
  refine ⟨.nil, by decide +kernel, by decide +kernel, by decide +kernel, by decide +kernel,
    by decide +kernel, free, fun neutral => ?_⟩
  exact neutral.low 0 (by decide) free

end Learnix
