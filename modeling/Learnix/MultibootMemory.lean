import Learnix.Pmm

/-!
# Memory as the boot loader reports it

`memory_init_multiboot` turns the kilobytes above 1 MB that the boot loader reports into
the bytes of all memory, in 32 bits, and `pmm_init` frees the frames up to there. The free
frames are those of the machine's memory exactly if the bytes fit in 32 bits, or leave at
least 2 GB, as many as the bitmap covers, when they are cut off (`free_frames_iff`).
-/

namespace Learnix

open Machine

/-- The fields of `multiboot_info_t` that `memory_init_multiboot` reads. -/
structure MultibootInfo where
  flags : Word
  memUpper : Word

/-- What the boot loader passes as `magic`. -/
def multibootMagic : Word := 0x2BADB002#32

/-- `memory_init_multiboot`: the new `total_memory`, which `memory_get_total` returns. -/
def memoryInitMultiboot (magic : Word) (mbi : MultibootInfo) (totalMemory : Word) : Word :=
  if magic ≠ multibootMagic then totalMemory
  else if mbi.flags &&& 1#32 ≠ 0#32 then (mbi.memUpper + 1024#32) * 1024#32
  else totalMemory

/-- The bytes of memory, with `memUpper` kilobytes above the first one megabyte. -/
def ramSize (memUpper : Word) : Nat := (memUpper.toNat + 1024) * 1024

/-- Frame `f` is managed, and lies in memory to its end. -/
def RamFrame (memUpper : Word) (f : Nat) : Prop :=
  8 ≤ f ∧ f < pmmFramesMax ∧ (f + 1) * pmmFrameSize ≤ ramSize memUpper

variable {magic total memUpper : Word} {mbi : MultibootInfo} {s : PmmState} {f : Nat}

/-- The bytes that the kernel works with are those of memory, cut off to 32 bits. -/
theorem toNat_memoryInitMultiboot (valid : magic = multibootMagic)
    (given : mbi.flags &&& 1#32 ≠ 0#32) (total : Word) :
    (memoryInitMultiboot magic mbi total).toNat = ramSize mbi.memUpper % 2 ^ 32 := by
  have known : ¬ magic ≠ multibootMagic := not_not.mpr valid
  rw [memoryInitMultiboot, if_neg known, if_pos given, BitVec.toNat_mul, BitVec.toNat_add, ramSize]
  exact (Nat.mod_mul_mod _ _ _)

/-- A frame lies in memory if it is one of the first that memory is divided into. -/
theorem ramFrame_iff (memUpper : Word) (f : Nat) :
    RamFrame memUpper f ↔ 8 ≤ f ∧ f < min (ramSize memUpper / pmmFrameSize) pmmFramesMax := by
  have inside : (f + 1) * pmmFrameSize ≤ ramSize memUpper ↔ f < ramSize memUpper / pmmFrameSize :=
    (Nat.le_div_iff_mul_le (by decide)).symm
  rw [RamFrame, inside, lt_min_iff]
  exact and_congr_right fun _ => and_comm

/-- The frames that are free in the end are those of as much memory as 32 bits can tell. -/
theorem freeFrame_memoryInitMultiboot (valid : magic = multibootMagic)
    (given : mbi.flags &&& 1#32 ≠ 0#32) (total : Word) (s : PmmState) (f : Nat) :
    FreeFrame (pmmInit (memoryInitMultiboot magic mbi total) s) f ↔
      8 ≤ f ∧ f < min (ramSize mbi.memUpper % 2 ^ 32 / pmmFrameSize) pmmFramesMax := by
  rcases pmmInit_eq (memoryInitMultiboot magic mbi total) s with ⟨-, -, free⟩
  rw [free, frameCount, toNat_memoryInitMultiboot valid given]

/-- Whatever `pmm_bitmap` holds before, the frames that are free after
`memory_init_multiboot` and `pmm_init` are the managed ones of memory exactly if the size
of memory is below 4 GB, or what is left of it modulo 4 GB is 2 GB or more. -/
theorem free_frames_iff (valid : magic = multibootMagic) (given : mbi.flags &&& 1#32 ≠ 0#32)
    (total : Word) (s : PmmState) :
    (∀ f, FreeFrame (pmmInit (memoryInitMultiboot magic mbi total) s) f ↔
        RamFrame mbi.memUpper f) ↔
      ramSize mbi.memUpper < 2 ^ 32 ∨ 2 ^ 31 ≤ ramSize mbi.memUpper % 2 ^ 32 := by
  have max : pmmFramesMax = 8192 := rfl
  have frame : pmmFrameSize = 2 ^ 18 := rfl
  simp only [freeFrame_memoryInitMultiboot valid given, ramFrame_iff, max, frame]
  constructor
  · intro same
    -- the last frame of the bitmap tells whether too little is left
    have last := same 8191
    omega
  · rintro (small | large) f
    · rw [Nat.mod_eq_of_lt small]
    · omega

/-- The frame allocator of `kernel_main` on a machine with so much memory. -/
def bootedPmm (memUpper : Word) : PmmState :=
  pmmInit (memoryInitMultiboot multibootMagic ⟨1#32, memUpper⟩ 0#32) ⟨fun _ => 0#32, 0#32, 0#32⟩

/-- A machine with 128 MB has frames up to number 511. -/
theorem free_frames_iff_small :
    FreeFrame (bootedPmm 130048#32) 511 ∧ ¬ FreeFrame (bootedPmm 130048#32) 512 := by
  have given : (⟨1#32, 130048#32⟩ : MultibootInfo).flags &&& 1#32 ≠ 0#32 := by decide
  have small : ramSize 130048#32 < 2 ^ 32 := by decide
  have same := (free_frames_iff rfl given 0#32 ⟨fun _ => 0#32, 0#32, 0#32⟩).mpr (.inl small)
  have max : pmmFramesMax = 8192 := rfl
  have frames : ramSize 130048#32 / pmmFrameSize = 512 := rfl
  simp only [ramFrame_iff, frames] at same
  exact ⟨(same 511).mpr (by omega), fun free => by have := (same 512).mp free; omega⟩

/-- With 4 GB no frame is free, although there is memory for all of them. -/
theorem no_frame_free :
    (∀ f, ¬ FreeFrame (bootedPmm 4193280#32) f) ∧
      (∀ f, 8 ≤ f → f < pmmFramesMax → RamFrame 4193280#32 f) ∧
      ¬ ∀ f, FreeFrame (bootedPmm 4193280#32) f ↔ RamFrame 4193280#32 f := by
  have max : pmmFramesMax = 8192 := rfl
  have size : ramSize 4193280#32 = 2 ^ 32 := rfl
  have none (f : Nat) : ¬ FreeFrame (bootedPmm 4193280#32) f := by
    intro free
    have given : (⟨1#32, 4193280#32⟩ : MultibootInfo).flags &&& 1#32 ≠ 0#32 := by decide
    have inside := (freeFrame_memoryInitMultiboot rfl given 0#32 _ f).mp free
    rw [size, Nat.mod_self, Nat.zero_div] at inside
    omega
  have all (f : Nat) (low : 8 ≤ f) (high : f < pmmFramesMax) : RamFrame 4193280#32 f := by
    have frames : 2 ^ 32 / pmmFrameSize = 16384 := rfl
    rw [ramFrame_iff, size, frames]
    omega
  refine ⟨none, all, fun same => none 8 ((same 8).mpr (all 8 (Nat.le_refl 8) ?_))⟩
  decide

end Learnix
