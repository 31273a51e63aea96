import Learnix.Lib.ByteMemory

/-!
# Two-level address translation

What a 32-bit x86 does with a linear address when paging is on, without the
extensions for large pages: the upper ten bits choose an entry of the page
directory, the next ten an entry of the page table that it points to, and the
lower twelve are the offset in the page. An entry is the address of a frame
with flags in the lower twelve bits; bit 0 says that it is present.
-/

namespace PageWalk

open Machine

/-- A page directory or a page table, by index. -/
abbrev Table := Nat → Word

/-- The index into the page directory. -/
def dirIndex (v : Word) : Nat := (v >>> 22).toNat

/-- The index into a page table. -/
def tableIndex (v : Word) : Nat := ((v >>> 12) &&& 0x3FF#32).toNat

/-- The number of the page. -/
def page (v : Word) : Nat := v.toNat / 4096

/-- The address of the frame in an entry. -/
def frame (entry : Word) : Word := entry &&& 0xFFFFF000#32

/-- The entry is present. -/
def Present (entry : Word) : Prop := entry.getLsbD 0 = true

instance (entry : Word) : Decidable (Present entry) :=
  inferInstanceAs (Decidable (entry.getLsbD 0 = true))

/-- The physical address of `v`, if it has one; `tables` gives the page table in every
frame. -/
def walk (dir : Table) (tables : Word → Table) (v : Word) : Option Word :=
  if Present (dir (dirIndex v)) then
    let entry := tables (frame (dir (dirIndex v))) (tableIndex v)
    if Present entry then some (frame entry ||| (v &&& 0xFFF#32)) else none
  else none

/-- An entry for the frame at `a`. -/
def entry (a flags : Word) : Word := a ||| (flags &&& 0xFFF#32)

/-- An address of a page or of a frame. -/
def Aligned (a : Word) : Prop := a.toNat % 4096 = 0

instance (a : Word) : Decidable (Aligned a) := inferInstanceAs (Decidable (a.toNat % 4096 = 0))

variable {v w a flags : Word}

theorem dirIndex_eq (v : Word) : dirIndex v = v.toNat / 2 ^ 22 := by
  rw [dirIndex, BitVec.toNat_ushiftRight, Nat.shiftRight_eq_div_pow]

theorem tableIndex_eq (v : Word) : tableIndex v = v.toNat / 4096 % 1024 := by
  have mask : (0x3FF#32 : Word).toNat = 2 ^ 10 - 1 := rfl
  rw [tableIndex, BitVec.toNat_and, mask, Nat.and_two_pow_sub_one_eq_mod, BitVec.toNat_ushiftRight,
    Nat.shiftRight_eq_div_pow]

/-- A mask is known by its 32 bits. -/
theorem getLsbD_mask {mask : Word} {p : Nat → Prop} [DecidablePred p]
    (bits : ∀ i, i < 32 → mask.getLsbD i = decide (p i)) (none : ∀ i, 32 ≤ i → ¬ p i) (i : Nat) :
    mask.getLsbD i = decide (p i) := by
  rcases Nat.lt_or_ge i 32 with inside | beyond
  · exact bits i inside
  · rw [BitVec.getLsbD_of_ge _ _ beyond, decide_eq_false (none i beyond)]

theorem low_mask (i : Nat) : (0xFFF#32 : Word).getLsbD i = decide (i < 12) :=
  getLsbD_mask (p := fun i => i < 12) (by decide) (fun i beyond => by omega) i

theorem high_mask (i : Nat) : (0xFFFFF000#32 : Word).getLsbD i = decide (12 ≤ i ∧ i < 32) :=
  getLsbD_mask (p := fun i => 12 ≤ i ∧ i < 32) (by decide) (fun i beyond => by omega) i

theorem Aligned.low_bit (aligned : Aligned a) {i : Nat} (low : i < 12) : a.getLsbD i = false := by
  have bit : (a.toNat % 2 ^ 12).testBit i = a.toNat.testBit i := by
    rw [Nat.testBit_mod_two_pow, decide_eq_true low, Bool.true_and]
  have zero : a.toNat % 2 ^ 12 = 0 := aligned
  rw [BitVec.getLsbD, ← bit, zero, Nat.zero_testBit]

@[simp] theorem frame_entry (aligned : Aligned a) : frame (entry a flags) = a := by
  apply BitVec.eq_of_getLsbD_eq
  intro i inside
  rw [frame, entry, BitVec.getLsbD_and, BitVec.getLsbD_or, BitVec.getLsbD_and, low_mask, high_mask]
  by_cases low : i < 12
  · have off : ¬ (12 ≤ i ∧ i < 32) := fun high => absurd high.1 (Nat.not_le.mpr low)
    rw [decide_eq_false off, Bool.and_false, aligned.low_bit low]
  · have on : 12 ≤ i ∧ i < 32 := ⟨Nat.le_of_not_lt low, inside⟩
    rw [decide_eq_false low, decide_eq_true on, Bool.and_false, Bool.or_false, Bool.and_true]

theorem present_entry (aligned : Aligned a) : Present (entry a flags) ↔ flags.getLsbD 0 = true := by
  rw [Present, entry, BitVec.getLsbD_or, BitVec.getLsbD_and, low_mask,
    aligned.low_bit (by decide), decide_eq_true (by decide), Bool.false_or, Bool.and_true]

/-- Frame and offset do not overlap. -/
theorem or_offset (aligned : Aligned a) (v : Word) :
    a ||| (v &&& 0xFFF#32) = a + BitVec.ofNat 32 (v.toNat % 4096) := by
  have mask : (0xFFF#32 : Word).toNat = 2 ^ 12 - 1 := rfl
  have offset : v &&& 0xFFF#32 = BitVec.ofNat 32 (v.toNat % 4096) := by
    apply BitVec.eq_of_toNat_eq
    rw [BitVec.toNat_and, mask, Nat.and_two_pow_sub_one_eq_mod, BitVec.toNat_ofNat,
      Nat.mod_eq_of_lt (a := v.toNat % 4096) (by omega)]
  rw [← offset]
  refine (BitVec.add_eq_or_of_and_eq_zero _ _ ?_).symm
  apply BitVec.eq_of_getLsbD_eq
  intro i inside
  rw [BitVec.getLsbD_and, BitVec.getLsbD_and, low_mask, BitVec.getLsbD_zero]
  by_cases low : i < 12
  · rw [aligned.low_bit low, Bool.false_and]
  · rw [decide_eq_false low, Bool.and_false, Bool.and_false]

end PageWalk
