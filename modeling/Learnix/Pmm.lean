import Learnix.Lib.Bitmap
import Learnix.Lib.ByteMemory

/-!
# The physical memory manager

`pmm.c`: a bitmap with one bit for each frame of physical memory, set when the
frame is in use, and the counters of all and of used frames. `FreeFrame` is the
set that the bitmap stands for; `pmmInit` makes it the frames from
`PMM_START_ADDR` to the end of memory (`freeFrame_pmmInit`), and
`pmmAllocFrame` takes its least element (`pmmAllocFrame_eq`).
-/

namespace Learnix

open Machine

/-- `PMM_FRAME_SIZE`. -/
def pmmFrameSize : Nat := 262144

/-- `PMM_FRAMES_MAX`. -/
def pmmFramesMax : Nat := 8192

/-- `PMM_BITMAP_SIZE`. -/
def pmmBitmapSize : Nat := pmmFramesMax / 32

/-- `PMM_START_ADDR`. -/
def pmmStartAddr : Nat := 0x200000

/-- `pmm_bitmap`, `total_frames` and `used_frames`. The words from
`PMM_BITMAP_SIZE` on are those behind the array. -/
structure PmmState where
  bitmap : Bitmap.Words 32
  totalFrames : Word
  usedFrames : Word

/-- The loop of `pmm_init` that frees `n` frames from frame `i` on. -/
def pmmInitLoop : Nat → Nat → PmmState → PmmState
  | 0, _, s => s
  | n + 1, i, s =>
    pmmInitLoop n (i + 1)
      { s with bitmap := Bitmap.clear s.bitmap i, usedFrames := s.usedFrames - 1#32 }

def pmmInit (memSize : Word) (s : PmmState) : PmmState :=
  let totalFrames := memSize / BitVec.ofNat 32 pmmFrameSize
  let bitmap : Bitmap.Words 32 := fun i => if i < pmmBitmapSize then 0xFFFFFFFF#32 else s.bitmap i
  let startFrame := pmmStartAddr / pmmFrameSize
  let endFrame := if BitVec.ofNat 32 pmmFramesMax < totalFrames then pmmFramesMax
    else totalFrames.toNat
  pmmInitLoop (endFrame - startFrame) startFrame ⟨bitmap, totalFrames, totalFrames⟩

/-- The index of the first free frame; `none` is the result `-1`. -/
def pmmFindFreeFrame (s : PmmState) : Option Nat := Bitmap.firstClear s.bitmap pmmBitmapSize 0

def pmmAllocFrame (s : PmmState) : Word × PmmState :=
  if s.totalFrames ≤ s.usedFrames then (0#32, s)
  else
    match pmmFindFreeFrame s with
    | none => (0#32, s)
    | some frame =>
      (BitVec.ofNat 32 (frame * pmmFrameSize),
        { s with bitmap := Bitmap.set s.bitmap frame, usedFrames := s.usedFrames + 1#32 })

def pmmFreeFrame (addr : Word) (s : PmmState) : PmmState :=
  let frame := (addr / BitVec.ofNat 32 pmmFrameSize).toNat
  { s with
    bitmap := Bitmap.clear s.bitmap frame
    usedFrames := if 0#32 < s.usedFrames then s.usedFrames - 1#32 else s.usedFrames }

def pmmGetFreeFrames (s : PmmState) : Word := s.totalFrames - s.usedFrames

/-! ## The set of free frames -/

/-- Frame `f` is in the bitmap, and its bit is clear. -/
def FreeFrame (s : PmmState) (f : Nat) : Prop := f < pmmFramesMax ∧ Bitmap.test s.bitmap f = false

variable {s : PmmState} {f n i : Nat}

theorem pmmInitLoop_eq (n i : Nat) (s : PmmState) :
    (pmmInitLoop n i s).totalFrames = s.totalFrames ∧
      (pmmInitLoop n i s).usedFrames = s.usedFrames - BitVec.ofNat 32 n ∧
      ∀ f, Bitmap.test (pmmInitLoop n i s).bitmap f =
        (!decide (i ≤ f ∧ f < i + n) && Bitmap.test s.bitmap f) := by
  induction n generalizing i s with
  | zero =>
      refine ⟨rfl, (BitVec.sub_zero _).symm, fun f => ?_⟩
      rw [decide_eq_false (by omega)]
      rfl
  | succ n ih =>
      obtain ⟨total, used, bits⟩ := ih (i + 1)
        { s with bitmap := Bitmap.clear s.bitmap i, usedFrames := s.usedFrames - 1#32 }
      refine ⟨total, ?_, fun f => ?_⟩
      · rw [pmmInitLoop, used, BitVec.sub_sub, ← BitVec.ofNat_add, Nat.add_comm]
      · rw [pmmInitLoop, bits, Bitmap.test_clear (by decide), ← Bool.and_assoc, ← Bool.not_or]
        congr 2
        rw [Bool.eq_iff_iff]
        simp only [Bool.or_eq_true, decide_eq_true_iff]
        omega

/-- The number of frames that `pmm_init` is told of. -/
def frameCount (memSize : Word) : Nat := memSize.toNat / pmmFrameSize

theorem toNat_totalFrames (memSize : Word) :
    (memSize / BitVec.ofNat 32 pmmFrameSize).toNat = frameCount memSize :=
  BitVec.toNat_udiv

theorem pmmInit_eq (memSize : Word) (s : PmmState) :
    (pmmInit memSize s).totalFrames.toNat = frameCount memSize ∧
      (pmmInit memSize s).usedFrames.toNat =
        frameCount memSize - (min (frameCount memSize) pmmFramesMax - 8) ∧
      ∀ f, FreeFrame (pmmInit memSize s) f ↔ 8 ≤ f ∧ f < min (frameCount memSize) pmmFramesMax := by
  have total := toNat_totalFrames memSize
  have limit : (BitVec.ofNat 32 pmmFramesMax).toNat = 8192 := rfl
  have start : pmmStartAddr / pmmFrameSize = 8 := rfl
  have max : pmmFramesMax = 8192 := rfl
  have endFrame : (if BitVec.ofNat 32 pmmFramesMax < memSize / BitVec.ofNat 32 pmmFrameSize then
      pmmFramesMax else (memSize / BitVec.ofNat 32 pmmFrameSize).toNat) =
      min (frameCount memSize) pmmFramesMax := by
    simp only [BitVec.lt_def, limit, total]
    split <;> omega
  have few : frameCount memSize < 2 ^ 32 := total ▸ (memSize / BitVec.ofNat 32 pmmFrameSize).isLt
  unfold pmmInit
  simp only [endFrame, start]
  obtain ⟨totalAfter, usedAfter, bits⟩ :=
    pmmInitLoop_eq (min (frameCount memSize) pmmFramesMax - 8) 8
    ⟨fun i => if i < pmmBitmapSize then 0xFFFFFFFF#32 else s.bitmap i,
      memSize / BitVec.ofNat 32 pmmFrameSize, memSize / BitVec.ofNat 32 pmmFrameSize⟩
  refine ⟨by rw [totalAfter, total], ?_, fun f => ?_⟩
  · rw [usedAfter, BitVec.toNat_sub, total, BitVec.toNat_ofNat]
    omega
  · have full : f < pmmFramesMax →
        Bitmap.test (fun i => if i < pmmBitmapSize then 0xFFFFFFFF#32 else s.bitmap i) f =
          true := by
      intro inside
      have word : f / 32 < pmmBitmapSize := by
        unfold pmmBitmapSize
        omega
      have bit : f % 32 < 32 := Nat.mod_lt _ (by decide)
      rw [Bitmap.test, if_pos word]
      exact (BitVec.getLsbD_allOnes (v := 32)).trans (decide_eq_true bit)
    rw [FreeFrame, bits]
    constructor
    · rintro ⟨inside, clear⟩
      rw [full inside, Bool.and_true, Bool.not_eq_false', decide_eq_true_iff] at clear
      omega
    · intro within
      refine ⟨by omega, ?_⟩
      rw [decide_eq_true (by omega)]
      rfl

/-- The scan returns the least free frame. -/
theorem pmmFindFreeFrame_eq_some (found : pmmFindFreeFrame s = some f) :
    FreeFrame s f ∧ ∀ g < f, ¬ FreeFrame s g := by
  obtain ⟨-, high, clear, before⟩ := Bitmap.firstClear_eq_some found
  rw [Nat.zero_add] at high
  refine ⟨⟨high, clear⟩, fun g below free => ?_⟩
  have busy := before g (by rw [Nat.zero_mul]; exact Nat.zero_le _) below
  rw [free.2] at busy
  cases busy

theorem pmmFindFreeFrame_eq_none (none : pmmFindFreeFrame s = none) : ¬ FreeFrame s f := by
  intro free
  have busy := Bitmap.firstClear_eq_none (g := f) none
    (by rw [Nat.zero_mul]; exact Nat.zero_le _) (by rw [Nat.zero_add]; exact free.1)
  rw [free.2] at busy
  cases busy

/-- While the counters allow it, `pmm_alloc_frame` returns the least free frame. -/
theorem pmmAllocFrame_eq (room : s.usedFrames < s.totalFrames) (free : FreeFrame s f)
    (least : ∀ g < f, ¬ FreeFrame s g) :
    (pmmAllocFrame s).1 = BitVec.ofNat 32 (f * pmmFrameSize) := by
  unfold pmmAllocFrame
  rw [if_neg (by bv_omega)]
  cases found : pmmFindFreeFrame s with
  | none => exact absurd free (pmmFindFreeFrame_eq_none found)
  | some g =>
      obtain ⟨freeG, leastG⟩ := pmmFindFreeFrame_eq_some found
      have same : g = f := by
        by_contra other
        rcases Nat.lt_or_gt_of_ne other with below | above
        · exact least g below freeG
        · exact leastG f above free
      rw [same]

/-- With all frames counted as used there is nothing to hand out. -/
theorem pmmAllocFrame_of_full (full : s.totalFrames ≤ s.usedFrames) :
    pmmAllocFrame s = (0#32, s) :=
  if_pos full

end Learnix
