import Learnix.Lib.Tiling

/-!
# The gaps of an interval

Some addresses of an interval `[lo, hi)` are taken. A gap is a maximal
interval of addresses that are not, whatever the list of blocks that an
allocator keeps. When the taken addresses are those of the used blocks of a
tiling, the gaps are its free blocks exactly if the tiling is canonical, and
`firstFit` fails or takes the lowest gap that is large enough. Blocks that are
taken and never given back fill the interval from the left (`filled`), and the
last gap decides how many they are.
-/

namespace Tiling

/-- No address of `[a, z)` is taken. -/
def Clear (taken : Nat → Prop) (a z : Nat) : Prop := ∀ x, a ≤ x → x < z → ¬ taken x

/-- `[a, z)` is a maximal interval of `[lo, hi)` that is clear. -/
structure IsGap (taken : Nat → Prop) (lo hi a z : Nat) : Prop where
  lt : a < z
  lower : lo ≤ a
  upper : z ≤ hi
  clear : Clear taken a z
  maximal : ∀ a' z', lo ≤ a' → a' ≤ a → z ≤ z' → z' ≤ hi → Clear taken a' z' → a' = a ∧ z' = z

/-- The address is one of a used block. -/
def Taken (h : Nat) (l : List Block) (x : Nat) : Prop :=
  ∃ b ∈ l, b.used = true ∧ b.addr ≤ x ∧ x < b.stop h

variable {taken taken' : Nat → Prop} {h slack n lo hi a z x : Nat} {b c : Block} {l : List Block}

theorem Clear.union (left : Clear taken a z) {a' z' : Nat} (right : Clear taken a' z')
    (meet : a' ≤ z) (meet' : a ≤ z') : Clear taken (min a a') (max z z') := by
  intro x lower upper
  rcases Nat.lt_or_ge x a with below | above
  · exact right x (by omega) (by omega)
  · rcases Nat.lt_or_ge x z with inside | beyond
    · exact left x above inside
    · exact right x (by omega) (by omega)

theorem IsGap.congr (same : ∀ x, taken x ↔ taken' x) :
    IsGap taken lo hi a z ↔ IsGap taken' lo hi a z := by
  rw [funext fun x => propext (same x)]

/-! ## Blocks of a tiling -/

/-- Every address of the interval is one of a block. -/
theorem Tiles.exists_mem (tiles : Tiles h lo hi l) (lower : lo ≤ x) (upper : x < hi) :
    ∃ b ∈ l, b.addr ≤ x ∧ x < b.stop h := by
  induction l generalizing lo with
  | nil =>
      have empty : lo = hi := tiles
      omega
  | cons b bs ih =>
      obtain ⟨start, rest⟩ := tiles
      rcases Nat.lt_or_ge x (b.stop h) with inside | beyond
      · exact ⟨b, List.mem_cons_self, start ▸ lower, inside⟩
      · rcases ih rest beyond with ⟨c, member, at_⟩
        exact ⟨c, List.mem_cons_of_mem _ member, at_⟩

/-- Of two neighbours in a canonical tiling one is used. -/
theorem Tiles.used_of_adjacent (tiles : Tiles h lo hi l) (header : 0 < h)
    (canonical : Canonical l) (left : b ∈ l) (right : c ∈ l) (meet : b.stop h = c.addr) :
    b.used = true ∨ c.used = true := by
  induction l generalizing lo with
  | nil => cases left
  | cons d ds ih =>
      have pairs := tiles.pairwise
      obtain ⟨-, rest⟩ := tiles
      have behind := (List.pairwise_cons.mp pairs).1
      rcases List.mem_cons.mp right with rfl | rightLater
      · rcases List.mem_cons.mp left with rfl | leftLater
        · unfold Block.stop at meet
          omega
        · have apart := behind b leftLater
          unfold Block.stop at meet apart
          omega
      · rcases List.mem_cons.mp left with rfl | leftLater
        · cases ds with
          | nil => cases rightLater
          | cons e es =>
              have same : c = e := rest.eq_of_addr_eq header rightLater List.mem_cons_self
                (meet.symm.trans rest.1.symm)
              rw [same]
              exact (List.isChain_cons_cons.mp canonical).1
        · exact ih rest canonical.tail leftLater rightLater

/-- The addresses of a free block are not taken. -/
theorem Tiles.clear_of_free (tiles : Tiles h lo hi l) (member : b ∈ l) (free : b.used = false) :
    Clear (Taken h l) b.addr (b.stop h) := by
  rintro x lower upper ⟨c, memberC, used, fromC, toC⟩
  rcases tiles.eq_or_apart member memberC with rfl | before | behind
  · rw [free] at used
    cases used
  · omega
  · omega

/-- A block with an address that is not taken is free. -/
theorem free_of_not_taken (member : b ∈ l) (lower : b.addr ≤ x) (upper : x < b.stop h)
    (clear : ¬ Taken h l x) : b.used = false := by
  by_contra used
  exact clear ⟨b, member, by simpa using used, lower, upper⟩

/-- A free block of a canonical tiling is a gap. -/
theorem Tiles.isGap_of_free (tiles : Tiles h lo hi l) (header : 0 < h) (canonical : Canonical l)
    (member : b ∈ l) (free : b.used = false) : IsGap (Taken h l) lo hi b.addr (b.stop h) := by
  have bounds := tiles.bounds member
  have some_ : b.addr < b.stop h := by
    unfold Block.stop
    omega
  have busy : ∀ c ∈ l, b.stop h = c.addr ∨ c.stop h = b.addr → c.used ≠ false := by
    intro c memberC meet freeC
    rcases meet with meet | meet
    · have used := tiles.used_of_adjacent header canonical member memberC meet
      simp [free, freeC] at used
    · have used := tiles.used_of_adjacent header canonical memberC member meet
      simp [free, freeC] at used
  refine ⟨some_, bounds.1, bounds.2, tiles.clear_of_free member free, ?_⟩
  intro a' z' lower before behind upper clear
  constructor
  · -- the block that ends where `b` starts would be clear as well
    by_contra less
    rcases tiles.exists_mem (x := b.addr - 1) (by omega) (by omega) with ⟨c, memberC, fromC, toC⟩
    have meet : c.stop h = b.addr := by
      rcases tiles.eq_or_apart memberC member with rfl | apart | apart <;> omega
    refine busy c memberC (.inr meet) (free_of_not_taken memberC fromC toC (clear _ ?_ ?_))
    · omega
    · omega
  · by_contra more
    rcases tiles.exists_mem (x := b.stop h) (by omega) (by omega) with
      ⟨c, memberC, fromC, toC⟩
    have meet : b.stop h = c.addr := by
      rcases tiles.eq_or_apart memberC member with rfl | apart | apart
      · omega
      · omega
      · exact Nat.le_antisymm apart fromC
    refine busy c memberC (.inl meet) (free_of_not_taken memberC fromC toC (clear _ ?_ ?_))
    · omega
    · omega

/-- In a canonical tiling the gaps are the free blocks. -/
theorem Tiles.isGap_iff (tiles : Tiles h lo hi l) (header : 0 < h) (canonical : Canonical l) :
    IsGap (Taken h l) lo hi a z ↔ ∃ b ∈ l, b.used = false ∧ b.addr = a ∧ b.stop h = z := by
  constructor
  · intro gap
    have before : a < hi := Nat.lt_of_lt_of_le gap.lt gap.upper
    rcases tiles.exists_mem gap.lower before with ⟨b, member, lower, upper⟩
    have free := free_of_not_taken member lower upper (gap.clear a (Nat.le_refl a) gap.lt)
    have block := tiles.isGap_of_free header canonical member free
    -- both the gap and the block extend to their union
    have all := gap.clear.union block.clear (Nat.le_trans lower (Nat.le_of_lt gap.lt))
      (Nat.le_of_lt upper)
    have inside := Nat.le_min.mpr ⟨gap.lower, block.lower⟩
    have inside' := Nat.max_le.mpr ⟨gap.upper, block.upper⟩
    have gapUnion := gap.maximal _ _ inside (Nat.min_le_left _ _) (Nat.le_max_left _ _) inside' all
    have blockUnion :=
      block.maximal _ _ inside (Nat.min_le_right _ _) (Nat.le_max_right _ _) inside' all
    exact ⟨b, member, free, blockUnion.1.symm.trans gapUnion.1,
      blockUnion.2.symm.trans gapUnion.2⟩
  · rintro ⟨b, member, free, rfl, rfl⟩
    exact tiles.isGap_of_free header canonical member free

/-! ## First fit and the gaps -/

theorem firstFit_eq_none : firstFit h slack n l = none ↔ ∀ b ∈ l, b.used = false → b.size < n := by
  induction l with
  | nil => simp [firstFit]
  | cons b bs ih =>
      rw [firstFit, List.forall_mem_cons]
      split
      · next fits =>
        refine iff_of_false (Option.some_ne_none _) fun all => ?_
        exact absurd (all.1 fits.1) (Nat.not_lt.mpr fits.2)
      · next misses =>
        rw [Option.map_eq_none_iff, ih]
        refine ⟨fun rest => ⟨fun free => ?_, rest⟩, And.right⟩
        by_contra large
        exact misses ⟨free, Nat.not_lt.mp large⟩

/-- First fit fails exactly when no gap can hold a header and `n` more addresses. -/
theorem Tiles.firstFit_none_iff (tiles : Tiles h lo hi l) (header : 0 < h)
    (canonical : Canonical l) :
    firstFit h slack n l = none ↔ ∀ a z, IsGap (Taken h l) lo hi a z → z - a < h + n := by
  rw [firstFit_eq_none]
  constructor
  · intro small a z gap
    rcases (tiles.isGap_iff header canonical).mp gap with ⟨b, member, free, rfl, rfl⟩
    have few := small b member free
    unfold Block.stop
    omega
  · intro small b member free
    have few := small _ _ (tiles.isGap_of_free header canonical member free)
    unfold Block.stop at few
    omega

/-- First fit takes the lowest gap that can. -/
theorem Tiles.firstFit_lowest (tiles : Tiles h lo hi l) (header : 0 < h) (canonical : Canonical l)
    {r : Nat × List Block} (fit : firstFit h slack n l = some r) :
    ∃ z, IsGap (Taken h l) lo hi r.1 z ∧ h + n ≤ z - r.1 ∧
      ∀ a' z', IsGap (Taken h l) lo hi a' z' → h + n ≤ z' - a' → r.1 ≤ a' := by
  rcases firstFit_eq_some fit with ⟨pre, b, post, rfl, free, room, skipped, rfl⟩
  have member : b ∈ pre ++ b :: post := by simp
  refine ⟨b.stop h, tiles.isGap_of_free header canonical member free, ?_, fun a' z' gap large => ?_⟩
  · unfold Block.stop
    omega
  · rcases (tiles.isGap_iff header canonical).mp gap with ⟨c, memberC, freeC, rfl, rfl⟩
    have order := tiles.pairwise_addr header
    rcases List.mem_append.mp memberC with early | late
    · -- what comes before the block is used or too small
      rcases skipped c early with used | small
      · rw [freeC] at used
        cases used
      · unfold Block.stop at large
        omega
    · rcases List.mem_cons.mp late with rfl | later
      · exact Nat.le_refl _
      · exact Nat.le_of_lt
          ((List.pairwise_cons.mp (List.pairwise_append.mp order).2.1).1 c later)

/-! ## Filling an interval from the left -/

/-- Used blocks with the payloads `ns`, one behind the other, and the rest free. -/
def filled (h lo hi : Nat) : List Nat → List Block
  | [] => [⟨lo, hi - lo - h, false⟩]
  | n :: ns => ⟨lo, n, true⟩ :: filled h (lo + h + n) hi ns

/-- The addresses that blocks with the payloads `ns` take. -/
def extent (h : Nat) : List Nat → Nat
  | [] => 0
  | n :: ns => h + n + extent h ns

theorem extent_append (ns ks : List Nat) : extent h (ns ++ ks) = extent h ns + extent h ks := by
  induction ns with
  | nil => exact (Nat.zero_add _).symm
  | cons n ns ih => rw [List.cons_append, extent, extent, ih, ← Nat.add_assoc]

/-- First fit takes the next block of a filled interval from the free rest. -/
theorem firstFit_filled {ns : List Nat}
    (room : lo + extent h ns + h + n + h + slack ≤ hi) :
    firstFit h slack n (filled h lo hi ns) =
      some (lo + extent h ns, filled h lo hi (ns ++ [n])) := by
  induction ns generalizing lo with
  | nil =>
      have room : lo + 0 + h + n + h + slack ≤ hi := room
      have holds : n ≤ hi - lo - h := by omega
      have splits : n + h + slack ≤ hi - lo - h := by omega
      have rest : hi - lo - h - n - h = hi - (lo + h + n) - h := by omega
      rw [filled, firstFit, if_pos ⟨rfl, holds⟩, carve, if_pos splits, rest]
      rfl
  | cons k ns ih =>
      rw [extent] at room ⊢
      have busy : ¬ (true = false ∧ n ≤ k) := fun free => absurd free.1 Bool.true_eq_false.mp
      have sum : lo + h + k + extent h ns = lo + (h + k + extent h ns) := by omega
      rw [filled, firstFit, if_neg busy, ih (by omega), Option.map_some, sum]
      rfl

/-- It fails when the free rest is too small. -/
theorem firstFit_filled_full {ns : List Nat} (room : lo + extent h ns + h ≤ hi)
    (full : hi < lo + extent h ns + h + n) : firstFit h slack n (filled h lo hi ns) = none := by
  induction ns generalizing lo with
  | nil =>
      have room : lo + 0 + h ≤ hi := room
      have full : hi < lo + 0 + h + n := full
      have small : ¬ (false = false ∧ n ≤ hi - lo - h) := by omega
      rw [filled, firstFit, if_neg small]
      rfl
  | cons k ns ih =>
      rw [extent] at room full
      have busy : ¬ (true = false ∧ n ≤ k) := fun free => absurd free.1 Bool.true_eq_false.mp
      rw [filled, firstFit, if_neg busy, ih (by omega) (by omega), Option.map_none]

end Tiling
