import Mathlib.Data.BitVec
import Mathlib.Logic.Function.Basic

/-!
# Bitmaps kept in machine words

A set of numbers kept as bits of an array of `w`-bit words: number `f` is bit
`f % w` of word `f / w`. `set` and `clear` change one bit with a mask, as
programs do, and `firstClear` scans word by word for the least clear bit,
skipping the words that are full.
-/

namespace Bitmap

/-- An array of `w`-bit words. -/
abbrev Words (w : Nat) := Nat → BitVec w

variable {w : Nat}

/-- Bit `f`. -/
def test (m : Words w) (f : Nat) : Bool := (m (f / w)).getLsbD (f % w)

/-- Set bit `f`. -/
def set (m : Words w) (f : Nat) : Words w :=
  Function.update m (f / w) (m (f / w) ||| (1#w <<< (f % w)))

/-- Clear bit `f`. -/
def clear (m : Words w) (f : Nat) : Words w :=
  Function.update m (f / w) (m (f / w) &&& ~~~(1#w <<< (f % w)))

/-- The least clear bit of a word. -/
def firstClearBit (v : BitVec w) : Option Nat :=
  (List.range w).find? fun b => v &&& (1#w <<< b) = 0#w

/-- The least clear bit of the `n` words from word `i` on. -/
def firstClear (m : Words w) : Nat → Nat → Option Nat
  | 0, _ => none
  | n + 1, i =>
    if m i ≠ BitVec.allOnes w then
      match firstClearBit (m i) with
      | some b => some (i * w + b)
      | none => firstClear m n (i + 1)
    else firstClear m n (i + 1)

variable {m : Words w} {v : BitVec w} {b f g i n : Nat}

theorem getLsbD_one_shiftLeft (bound : b < w) :
    (1#w <<< b).getLsbD i = decide (i = b) := by
  rw [BitVec.getLsbD_shiftLeft, BitVec.getLsbD_one]
  by_cases same : i = b
  · subst same
    simp [bound, Nat.zero_lt_of_lt bound]
  · by_cases below : i < b
    · simp [same, below]
    · have above : i - b ≠ 0 := by omega
      simp [same, above]

/-- A one-bit mask tests its bit. -/
theorem and_mask_eq_zero (bound : b < w) : v &&& (1#w <<< b) = 0#w ↔ v.getLsbD b = false := by
  constructor
  · intro zero
    have bit := congrArg (BitVec.getLsbD · b) zero
    simpa [getLsbD_one_shiftLeft bound] using bit
  · intro off
    apply BitVec.eq_of_getLsbD_eq
    intro j _
    rw [BitVec.getLsbD_and, getLsbD_one_shiftLeft bound, BitVec.getLsbD_zero]
    by_cases same : j = b
    · rw [same, off, Bool.false_and]
    · rw [decide_eq_false same, Bool.and_false]

/-! ## One bit changes -/

/-- Bit `b` of word `i` is bit `i * w + b`. -/
theorem test_mul_add (bound : b < w) : test m (i * w + b) = (m i).getLsbD b := by
  have width : 0 < w := Nat.zero_lt_of_lt bound
  rw [test, Nat.mul_comm, Nat.mul_add_div width, Nat.mul_add_mod, Nat.div_eq_of_lt bound,
    Nat.mod_eq_of_lt bound, Nat.add_zero]

/-- Two numbers in one word are told apart by their bits. -/
theorem mod_eq_iff (word : g / w = f / w) : g % w = f % w ↔ g = f := by
  constructor
  · intro bit
    rw [← Nat.div_add_mod g w, word, bit, Nat.div_add_mod]
  · intro same
    rw [same]

@[simp] theorem test_set (width : 0 < w) : test (set m f) g = (decide (g = f) || test m g) := by
  have bound : f % w < w := Nat.mod_lt _ width
  unfold test set
  by_cases word : g / w = f / w
  · rw [word, Function.update_self, BitVec.getLsbD_or, getLsbD_one_shiftLeft bound, Bool.or_comm]
    simp only [mod_eq_iff word]
  · have other : g ≠ f := fun same => word (same ▸ rfl)
    rw [Function.update_of_ne word, decide_eq_false other, Bool.false_or]

@[simp] theorem test_clear (width : 0 < w) :
    test (clear m f) g = (!decide (g = f) && test m g) := by
  have bound : f % w < w := Nat.mod_lt _ width
  unfold test clear
  by_cases word : g / w = f / w
  · rw [word, Function.update_self, BitVec.getLsbD_and, BitVec.getLsbD_not,
      getLsbD_one_shiftLeft bound, Bool.and_comm, decide_eq_true (Nat.mod_lt g width),
      Bool.true_and]
    simp only [mod_eq_iff word]
  · have other : g ≠ f := fun same => word (same ▸ rfl)
    rw [Function.update_of_ne word, decide_eq_false other, Bool.not_false, Bool.true_and]

/-! ## Several bits change -/

/-- A bitmap is known by its bits. -/
theorem ext_test {m' : Words w} (same : ∀ f, test m f = test m' f) : m = m' := by
  funext i
  apply BitVec.eq_of_getLsbD_eq
  intro b bound
  have bit := same (i * w + b)
  rwa [test_mul_add bound, test_mul_add bound] at bit

theorem test_foldl_set (width : 0 < w) (fs : List Nat) (m : Words w) (g : Nat) :
    test (fs.foldl set m) g = (decide (g ∈ fs) || test m g) := by
  induction fs generalizing m with
  | nil => rfl
  | cons f fs ih =>
      rw [List.foldl_cons, ih, test_set width, ← Bool.or_assoc]
      simp only [List.mem_cons, Bool.decide_or, Bool.or_comm]

theorem test_foldl_clear (width : 0 < w) (fs : List Nat) (m : Words w) (g : Nat) :
    test (fs.foldl clear m) g = (!decide (g ∈ fs) && test m g) := by
  induction fs generalizing m with
  | nil => rfl
  | cons f fs ih =>
      rw [List.foldl_cons, ih, test_clear width, ← Bool.and_assoc, ← Bool.not_or]
      simp only [List.mem_cons, Bool.decide_or, Bool.or_comm]

/-- Clear bits that are set and cleared again are as they were. -/
theorem foldl_clear_foldl_set (width : 0 < w) {fs : List Nat}
    (free : ∀ f ∈ fs, test m f = false) : fs.foldl clear (fs.foldl set m) = m := by
  apply ext_test
  intro g
  rw [test_foldl_clear width, test_foldl_set width]
  by_cases member : g ∈ fs
  · rw [free g member, decide_eq_true member]
    rfl
  · rw [decide_eq_false member]
    rfl

/-! ## The scan -/

theorem firstClearBit_eq_some (found : firstClearBit v = some b) :
    b < w ∧ v.getLsbD b = false ∧ ∀ c < b, v.getLsbD c = true := by
  obtain ⟨zero, member, before⟩ := List.find?_range_eq_some.mp found
  have bound : b < w := List.mem_range.mp member
  refine ⟨bound, (and_mask_eq_zero bound).mp (of_decide_eq_true zero), fun c below => ?_⟩
  have busy := before c below
  simp only [Bool.not_eq_true', decide_eq_false_iff_not] at busy
  rw [and_mask_eq_zero (below.trans bound)] at busy
  simpa using busy

theorem firstClearBit_eq_none (full : firstClearBit v = none) : v = BitVec.allOnes w := by
  apply BitVec.eq_of_getLsbD_eq
  intro b bound
  have busy := List.find?_eq_none.mp full b (List.mem_range.mpr bound)
  rw [decide_eq_true_iff, and_mask_eq_zero bound] at busy
  rw [BitVec.getLsbD_allOnes, decide_eq_true bound]
  simpa using busy

/-- The bits of word `i` are set when the word is full. -/
theorem test_of_full (full : m i = BitVec.allOnes w) (low : i * w ≤ g) (high : g < (i + 1) * w) :
    test m g = true := by
  rw [Nat.add_mul, Nat.one_mul] at high
  obtain ⟨b, rfl⟩ := Nat.exists_eq_add_of_le low
  have bound : b < w := by omega
  rw [test_mul_add bound, full, BitVec.getLsbD_allOnes, decide_eq_true bound]

/-- The scan finds the least clear bit. -/
theorem firstClear_eq_some (found : firstClear m n i = some f) :
    i * w ≤ f ∧ f < (i + n) * w ∧ test m f = false ∧
      ∀ g, i * w ≤ g → g < f → test m g = true := by
  induction n generalizing i with
  | zero => cases found
  | succ n ih =>
      have skip : m i = BitVec.allOnes w → firstClear m n (i + 1) = some f →
          i * w ≤ f ∧ f < (i + (n + 1)) * w ∧ test m f = false ∧
            ∀ g, i * w ≤ g → g < f → test m g = true := by
        intro full later
        obtain ⟨low, high, off, before⟩ := ih later
        rw [Nat.add_right_comm] at high
        refine ⟨?_, high, off, fun g above below => ?_⟩
        · rw [Nat.add_mul] at low
          omega
        · by_cases here : g < (i + 1) * w
          · exact test_of_full full above here
          · exact before g (by omega) below
      unfold firstClear at found
      split at found
      · split at found
        · next b bit =>
          obtain ⟨bound, off, before⟩ := firstClearBit_eq_some bit
          cases Option.some.inj found
          refine ⟨Nat.le_add_right _ _, ?_, by rw [test_mul_add bound, off],
            fun g above below => ?_⟩
          · have : (i + 1) * w ≤ (i + (n + 1)) * w := Nat.mul_le_mul_right w (by omega)
            rw [Nat.add_mul, Nat.one_mul] at this
            omega
          · obtain ⟨c, rfl⟩ := Nat.exists_eq_add_of_le above
            have less : c < b := by omega
            rw [test_mul_add (less.trans bound)]
            exact before c less
        · next full => exact skip (firstClearBit_eq_none full) found
      · next full => exact skip (not_not.mp full) found

/-- The scan fails only when every bit is set. -/
theorem firstClear_eq_none (none : firstClear m n i = none) (low : i * w ≤ g)
    (high : g < (i + n) * w) : test m g = true := by
  induction n generalizing i with
  | zero => exact absurd high (Nat.not_lt.mpr low)
  | succ n ih =>
      have skip : m i = BitVec.allOnes w → firstClear m n (i + 1) = Option.none →
          test m g = true := by
        intro full later
        by_cases here : g < (i + 1) * w
        · exact test_of_full full low here
        · exact ih later (by omega) (by rw [Nat.add_right_comm]; exact high)
      unfold firstClear at none
      split at none
      · split at none
        · cases none
        · next full => exact skip (firstClearBit_eq_none full) none
      · next full => exact skip (not_not.mp full) none

end Bitmap
