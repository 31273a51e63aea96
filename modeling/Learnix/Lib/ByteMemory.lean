import Mathlib.Data.BitVec
import Mathlib.Data.Fintype.Card
import Mathlib.Tactic.Linarith

/-!
# Byte-addressed memory of a 32-bit machine

A memory gives the byte at every 32-bit address; multi-byte accesses are
little-endian and wrap at the end of the address space, as the machine's do.
`InRange a n x` says that `x` is one of the `n` addresses from `a` on, counted
with that wrap-around, and `Sep a n b k` that two such ranges share no address.
A read depends on the bytes of its own range only (`read32_congr`), and a write
changes no byte outside its own (`write32_apply_of_not_inRange`): those are the
two facts every frame argument is made of.
-/

namespace Machine

/-- A 32-bit machine word. -/
abbrev Word := BitVec 32

/-- A byte. -/
abbrev Byte := BitVec 8

/-- The contents of a 32-bit address space. -/
abbrev Memory := Word → Byte

/-- More steps than there are addresses. A walk through pointers that changes
nothing and has not ended after so many steps has come back to a pointer it
already passed, and never ends. -/
def pointerSpace : Nat := 2 ^ 32

/-- There are not more different pointers than addresses. -/
theorem length_le_pointerSpace {l : List Word} (nodup : l.Nodup) : l.length ≤ pointerSpace := by
  have bound := (nodup.map BitVec.equivFin.injective).length_le_card
  rwa [List.length_map, Fintype.card_fin] at bound

namespace Memory

/-- Store one byte. -/
def write8 (m : Memory) (a : Word) (v : Byte) : Memory :=
  fun x => if x = a then v else m x

/-- Load the little-endian half-word at `a`. -/
def read16 (m : Memory) (a : Word) : BitVec 16 := m (a + 1) ++ m a

/-- Load the little-endian word at `a`. -/
def read32 (m : Memory) (a : Word) : Word :=
  m (a + 3) ++ m (a + 2) ++ m (a + 1) ++ m a

/-- Store the little-endian word `v` at `a`. -/
def write32 (m : Memory) (a v : Word) : Memory :=
  (((m.write8 a (v.extractLsb' 0 8)).write8 (a + 1) (v.extractLsb' 8 8)).write8
    (a + 2) (v.extractLsb' 16 8)).write8 (a + 3) (v.extractLsb' 24 8)

/-- Address `x` is one of the `n` addresses from `a` on. -/
def InRange (a : Word) (n : Nat) (x : Word) : Prop := (x - a).toNat < n

/-- The ranges of `n` addresses from `a` and of `k` addresses from `b` share no
address. -/
def Sep (a : Word) (n : Nat) (b : Word) (k : Nat) : Prop :=
  ∀ x, InRange a n x → ¬ InRange b k x

instance (a : Word) (n : Nat) (x : Word) : Decidable (InRange a n x) :=
  inferInstanceAs (Decidable ((x - a).toNat < n))

theorem Sep.symm {a b : Word} {n k : Nat} (sep : Sep a n b k) : Sep b k a n :=
  fun x inB inA => sep x inA inB

/-- A range that does not run past the end of the address space is an interval. -/
theorem inRange_iff {a x : Word} {n : Nat} (fits : a.toNat + n ≤ 2 ^ 32) :
    InRange a n x ↔ a.toNat ≤ x.toNat ∧ x.toNat < a.toNat + n := by
  unfold InRange
  bv_omega

/-- Intervals that do not meet are separate ranges. -/
theorem sep_of_le {a b : Word} {n k : Nat} (fitsA : a.toNat + n ≤ 2 ^ 32)
    (fitsB : b.toNat + k ≤ 2 ^ 32)
    (apart : a.toNat + n ≤ b.toNat ∨ b.toNat + k ≤ a.toNat) : Sep a n b k := by
  intro x inA inB
  rw [inRange_iff fitsA] at inA
  rw [inRange_iff fitsB] at inB
  omega

@[simp] theorem write8_self (m : Memory) (a : Word) (v : Byte) : m.write8 a v a = v := by
  simp [write8]

theorem write8_apply_of_ne {m : Memory} {a x : Word} {v : Byte} (ne : x ≠ a) :
    m.write8 a v x = m x := by
  simp [write8, ne]

theorem write32_apply_of_not_inRange {m : Memory} {a v x : Word} (outside : ¬ InRange a 4 x) :
    m.write32 a v x = m x := by
  have h0 : x ≠ a := fun e => outside (by subst e; unfold InRange; bv_omega)
  have h1 : x ≠ a + 1 := fun e => outside (by subst e; unfold InRange; bv_omega)
  have h2 : x ≠ a + 2 := fun e => outside (by subst e; unfold InRange; bv_omega)
  have h3 : x ≠ a + 3 := fun e => outside (by subst e; unfold InRange; bv_omega)
  simp only [write32, write8, h0, h1, h2, h3, if_false]

/-- A load depends on the four bytes at its address only. -/
theorem read32_congr {m m' : Memory} {a : Word} (same : ∀ x, InRange a 4 x → m x = m' x) :
    m.read32 a = m'.read32 a := by
  unfold read32
  rw [same a (by unfold InRange; bv_omega), same (a + 1) (by unfold InRange; bv_omega),
    same (a + 2) (by unfold InRange; bv_omega), same (a + 3) (by unfold InRange; bv_omega)]

theorem read16_congr {m m' : Memory} {a : Word} (same : ∀ x, InRange a 2 x → m x = m' x) :
    m.read16 a = m'.read16 a := by
  unfold read16
  rw [same a (by unfold InRange; bv_omega), same (a + 1) (by unfold InRange; bv_omega)]

/-- A part of a range. -/
theorem inRange_of_add {a x : Word} {n k o : Nat} (inside : InRange (a + BitVec.ofNat 32 o) k x)
    (le : o + k ≤ n) : InRange a n x := by
  unfold InRange at inside ⊢
  bv_omega

theorem read32_write32_sep {m : Memory} {a b v : Word} (sep : Sep a 4 b 4) :
    (m.write32 b v).read32 a = m.read32 a :=
  read32_congr fun x inA => write32_apply_of_not_inRange (sep x inA)

theorem read32_write8_sep {m : Memory} {a b : Word} {v : Byte} (outside : ¬ InRange a 4 b) :
    (m.write8 b v).read32 a = m.read32 a :=
  read32_congr fun _ inA => write8_apply_of_ne fun e => outside (e ▸ inA)

/-- The `n` bytes from `a` on in `m` are those from `a'` on in `m'`. -/
def SameBytes (m : Memory) (a : Word) (m' : Memory) (a' : Word) (n : Nat) : Prop :=
  ∀ k < n, m (a + BitVec.ofNat 32 k) = m' (a' + BitVec.ofNat 32 k)

theorem inRange_add {n k : Nat} (a : Word) (below : k < n) :
    InRange a n (a + BitVec.ofNat 32 k) := by
  have offset : a + BitVec.ofNat 32 k - a = BitVec.ofNat 32 k := by bv_omega
  rw [InRange, offset, BitVec.toNat_ofNat]
  exact Nat.lt_of_le_of_lt (Nat.mod_le k _) below

section SameBytes

variable {m m' : Memory} {a a' : Word} {n o : Nat}

theorem SameBytes.of_inRange (same : ∀ x, InRange a n x → m x = m' x) : SameBytes m a m' a n :=
  fun _ below => same _ (inRange_add a below)

theorem SameBytes.mono {k : Nat} (same : SameBytes m a m' a' n) (le : k ≤ n) :
    SameBytes m a m' a' k :=
  fun b below => same b (Nat.lt_of_lt_of_le below le)

theorem SameBytes.offset {k : Nat} (same : SameBytes m a m' a' n) (inside : o + k ≤ n) :
    SameBytes m (a + BitVec.ofNat 32 o) m' (a' + BitVec.ofNat 32 o) k := by
  intro b below
  rw [BitVec.add_assoc, BitVec.add_assoc, ← BitVec.ofNat_add]
  exact same (o + b) (by omega)

theorem SameBytes.read8 (same : SameBytes m a m' a' n) (inside : o < n) :
    m (a + BitVec.ofNat 32 o) = m' (a' + BitVec.ofNat 32 o) :=
  same o inside

theorem SameBytes.read16 (same : SameBytes m a m' a' n) (inside : o + 2 ≤ n) :
    m.read16 (a + BitVec.ofNat 32 o) = m'.read16 (a' + BitVec.ofNat 32 o) := by
  have next := same (o + 1) (by omega)
  rw [BitVec.ofNat_add, ← BitVec.add_assoc, ← BitVec.add_assoc] at next
  rw [Memory.read16, Memory.read16, same o (by omega)]
  exact congrArg (· ++ _) next

theorem SameBytes.read32 (same : SameBytes m a m' a' n) (inside : o + 4 ≤ n) :
    m.read32 (a + BitVec.ofNat 32 o) = m'.read32 (a' + BitVec.ofNat 32 o) := by
  have next := same.offset inside
  have first := same o (by omega)
  have second := next 1 (by decide)
  have third := next 2 (by decide)
  have fourth := next 3 (by decide)
  rw [Memory.read32, Memory.read32, first]
  exact congrArg (· ++ _) (congrArg₂ _ (congrArg₂ _ fourth third) second)

end SameBytes

/-- The four bytes of a word, put together again. -/
theorem append_extractLsb' (v : Word) :
    v.extractLsb' 24 8 ++ v.extractLsb' 16 8 ++ v.extractLsb' 8 8 ++ v.extractLsb' 0 8 = v := by
  ext i hi
  simp only [BitVec.getElem_append, BitVec.getElem_extractLsb']
  grind

/-- The two bytes of a half-word, put together again. -/
theorem append_extractLsb'_half (v : BitVec 16) :
    v.extractLsb' 8 8 ++ v.extractLsb' 0 8 = v := by
  ext i hi
  simp only [BitVec.getElem_append, BitVec.getElem_extractLsb']
  grind

theorem read16_eq_iff {m : Memory} {a : Word} {v : BitVec 16} :
    m.read16 a = v ↔ m a = v.extractLsb' 0 8 ∧ m (a + 1) = v.extractLsb' 8 8 := by
  refine ⟨?_, fun ⟨low, high⟩ => by rw [read16, low, high, append_extractLsb'_half]⟩
  rintro rfl
  refine ⟨?_, ?_⟩ <;> ext i hi <;>
    simp only [read16, BitVec.getElem_extractLsb', BitVec.getLsbD_append] <;> grind

@[simp] theorem read32_write32_self (m : Memory) (a v : Word) :
    (m.write32 a v).read32 a = v := by
  have b0 : m.write32 a v a = v.extractLsb' 0 8 := by
    have h1 : a ≠ a + 1 := by bv_omega
    have h2 : a ≠ a + 2 := by bv_omega
    have h3 : a ≠ a + 3 := by bv_omega
    simp only [write32, write8, h1, h2, h3, if_false, if_true]
  have b1 : m.write32 a v (a + 1) = v.extractLsb' 8 8 := by
    have h2 : a + 1 ≠ a + 2 := by bv_omega
    have h3 : a + 1 ≠ a + 3 := by bv_omega
    simp only [write32, write8, h2, h3, if_false, if_true]
  have b2 : m.write32 a v (a + 2) = v.extractLsb' 16 8 := by
    have h3 : a + 2 ≠ a + 3 := by bv_omega
    simp only [write32, write8, h3, if_false, if_true]
  have b3 : m.write32 a v (a + 3) = v.extractLsb' 24 8 := by
    simp only [write32, write8, if_true]
  rw [read32, b0, b1, b2, b3, append_extractLsb']

end Memory

end Machine
