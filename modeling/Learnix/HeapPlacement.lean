import Learnix.HeapIntegrity
import Learnix.Lib.Gaps

/-!
# Where `kmalloc` places a block

In every state that a run of the heap reaches: a request is given a block that
holds it, unless it is too large to be rounded up and some block is free
(`kmalloc_enough_iff`), and a request that can be rounded up goes to the lowest
gap between the used blocks that can hold it with its header, or fails without
a trace when there is none (`kmalloc_lowest_gap`).
-/

namespace Learnix

open Machine Tiling

variable {s t : HeapRunState} {l : List Block} {b c : Block} {prev size : Word}

/-! ## Rounding up -/

/-- The rounded request, as a number. -/
theorem toNat_alignSize (size : Word) :
    (alignSize size).toNat = (size.toNat + 3) / 4 * 4 % 2 ^ 32 := by
  have bound := size.isLt
  unfold alignSize
  simp only [unaligned_iff]
  split
  · rw [BitVec.toNat_add, toNat_pad]
    omega
  · omega

theorem toNat_alignSize_of_small (small : size ≤ 0xFFFFFFFC#32) :
    (alignSize size).toNat = (size.toNat + 3) / 4 * 4 := by
  have limit : size.toNat ≤ 0xFFFFFFFC := small
  rw [toNat_alignSize]
  omega

/-- Rounding up wraps to zero. -/
theorem alignSize_of_large (large : ¬ size ≤ 0xFFFFFFFC#32) : alignSize size = 0#32 := by
  have limit : ¬ size.toNat ≤ 0xFFFFFFFC := large
  have bound := size.isLt
  refine BitVec.eq_of_toNat_eq ((toNat_alignSize size).trans ?_)
  have zero : (0#32).toNat = 0 := rfl
  omega

/-! ## The gaps of the raw block list -/

/-- The address is one of a used block of the list, or of its header. -/
def TakenBy (bs : List (Word × BlockHeader)) (x : Nat) : Prop :=
  ∃ y ∈ bs, y.2.used ≠ 0#8 ∧ y.1.toNat ≤ x ∧ x < y.1.toNat + headerBytes + y.2.size.toNat

/-- A maximal interval of the heap that no used block covers. -/
def HeapGap (bs : List (Word × BlockHeader)) (a z : Nat) : Prop :=
  IsGap (TakenBy bs) heapStart (heapStart + heapSize) a z

theorem takenBy_encode (tiles : HeapTiling l) (x : Nat) :
    TakenBy (encode prev l) x ↔ Taken headerBytes l x := by
  have fits := fitting tiles
  constructor
  · rintro ⟨y, memberY, usedY, lower, upper⟩
    rcases mem_encode memberY with ⟨b, memberB, place, used, size⟩
    rw [place, (fits b memberB).1] at lower
    rw [place, size, (fits b memberB).1, (fits b memberB).2] at upper
    refine ⟨b, memberB, ?_, lower, upper⟩
    by_contra free
    exact usedY (used.trans (usedByte_eq_zero.mpr (by simpa using free)))
  · rintro ⟨b, memberB, used, lower, upper⟩
    rcases exists_mem_encode prev memberB with ⟨y, memberY, place, usedY, size⟩
    refine ⟨y, memberY, ?_, ?_, ?_⟩
    · rw [usedY, used]
      decide
    · rw [place, (fits b memberB).1]
      exact lower
    · rw [place, size, (fits b memberB).1, (fits b memberB).2]
      exact upper

theorem heapGap_encode (tiles : HeapTiling l) (a z : Nat) :
    HeapGap (encode prev l) a z ↔
      IsGap (Taken headerBytes l) heapStart (heapStart + heapSize) a z :=
  IsGap.congr (takenBy_encode tiles)

/-- `kmalloc` that finds no block leaves the heap alone. -/
theorem Represents.kmalloc_none {h : HeapState} (represents : Represents h l)
    (notZero : size ≠ 0#32) (fit : firstFit headerBytes 4 (alignSize size).toNat l = none) :
    Learnix.kmalloc size h = some (0#32, h) := by
  have head := represents.headAddr_eq
  obtain ⟨-, tiles, linked⟩ := represents
  have scan := linked.kmallocScan (alignSize size) (addressable tiles)
    (length_lt_pointerSpace tiles)
  rw [← head, fit] at scan
  rw [Learnix.kmalloc, if_neg notZero, scan]
  rfl

theorem Represents.kmalloc_some {h : HeapState} {r : Nat × List Block}
    (represents : Represents h l) (notZero : size ≠ 0#32)
    (fit : firstFit headerBytes 4 (alignSize size).toNat l = some r) :
    ∃ h', Learnix.kmalloc size h = some (BitVec.ofNat 32 (r.1 + headerBytes), h') := by
  rcases represents.kmalloc size with ⟨h', call, -⟩
  refine ⟨h', call.trans ?_⟩
  simp only [allocate, if_neg notZero, fit]

/-! ## Size -/

/-- The block whose payload starts at `p` lies in the heap and holds `n` bytes, and no
other block meets the first `n` bytes of it. -/
def HoldsRequest (bs : List (Word × BlockHeader)) (p n : Word) : Prop :=
  ∃ x ∈ bs, p = x.1 + BitVec.ofNat 32 headerBytes ∧ n ≤ x.2.size ∧ heapStart ≤ x.1.toNat ∧
    p.toNat + x.2.size.toNat ≤ heapStart + heapSize ∧
    ∀ y ∈ bs, y.1 ≠ x.1 → y.1.toNat + headerBytes + y.2.size.toNat ≤ p.toNat ∨
      p.toNat + n.toNat ≤ y.1.toNat

/-- A block of a tiling holds what is not larger than itself, and no more. -/
theorem holdsRequest_encode (tiles : HeapTiling l) (member : b ∈ l) (n : Word) :
    HoldsRequest (encode prev l) (payloadPtr b) n ↔ n.toNat ≤ b.size := by
  have fits := fitting tiles
  have place := toNat_payloadPtr tiles member
  have inside := heap_bounds tiles member
  constructor
  · rintro ⟨x, memberX, start, size, -⟩
    rcases mem_encode memberX with ⟨c, memberC, placeC, -, sizeC⟩
    rw [placeC, addrOf, ← BitVec.ofNat_add] at start
    obtain rfl : b = c := payloadPtr_inj tiles member memberC start
    rw [sizeC] at size
    exact (fits b member).2 ▸ BitVec.le_def.mp size
  · intro few
    rcases exists_mem_encode prev member with ⟨x, memberX, placeX, -, sizeX⟩
    refine ⟨x, memberX, by rw [placeX, addrOf, payloadPtr, BitVec.ofNat_add], ?_, ?_, ?_, ?_⟩
    · rw [sizeX, BitVec.le_def, (fits b member).2]
      exact few
    · rw [placeX, (fits b member).1]
      exact inside.1
    · rw [place, sizeX, (fits b member).2]
      exact inside.2
    · intro y memberY other
      rcases mem_encode memberY with ⟨c, memberC, placeC, -, sizeC⟩
      rw [placeC, sizeC, (fits c memberC).1, (fits c memberC).2, place]
      rcases tiles.eq_or_apart memberC member with rfl | before | behind
      · exact absurd (placeC.trans placeX.symm) other
      · exact .inl (Nat.le_trans before (Nat.le_add_right _ _))
      · unfold Block.stop at behind
        exact .inr (by omega)

/-- The block that `kmalloc` returns holds the request exactly if it was rounded up. -/
theorem HeapInvariant.holdsRequest_iff {n p : Word} {h : HeapState} (inv : HeapInvariant s l)
    (call : Learnix.kmalloc n s.heap = some (p, h)) (notNull : p ≠ 0#32) :
    (∃ bs, h.blocks = some bs ∧ HoldsRequest bs p n) ↔ n ≤ 0xFFFFFFFC#32 := by
  have tiles := inv.represents.tiles
  rcases inv.represents.kmalloc_returned call with ⟨place, represents, -⟩
  rcases allocate_cases n l with none | ⟨pre, b, post, shape, -, room, some⟩
  · rw [none] at place
    exact absurd place notNull
  · rw [some] at place represents
    let b' : Block := ⟨b.addr, carvedSize headerBytes 4 (alignSize n).toNat b, true⟩
    have carved : b' ∈ carve headerBytes 4 (alignSize n).toNat b :=
      (mem_live.mp (live_carve ▸ List.mem_singleton_self b')).1
    have member : b' ∈ pre ++ carve headerBytes 4 (alignSize n).toNat b ++ post := by
      simp [carved]
    have here : p = payloadPtr b' := place
    have inside := heap_bounds tiles (b := b) (by rw [shape]; simp)
    have between : (alignSize n).toNat ≤ b'.size ∧ b'.size ≤ b.size := by
      dsimp only [b', carvedSize]
      split <;> omega
    rw [represents.blocks_eq, here]
    simp only [Option.some.injEq, exists_eq_left']
    rw [holdsRequest_encode represents.tiles member, BitVec.le_def]
    have limit : (0xFFFFFFFC#32).toNat = 0xFFFFFFFC := rfl
    constructor
    · intro few
      omega
    · intro small
      rw [toNat_alignSize_of_small small] at between
      omega

/-- `kmalloc` returns a block if the request rounds up to nothing and a block is free. -/
theorem HeapInvariant.kmalloc_of_large {n : Word} (inv : HeapInvariant s l)
    (large : ¬ n ≤ 0xFFFFFFFC#32) :
    (∃ p h, Learnix.kmalloc n s.heap = some (p, h) ∧ p ≠ 0#32) ↔
      ∃ bs, s.heap.blocks = some bs ∧ ∃ x ∈ bs, x.2.used = 0#8 := by
  have represents := inv.represents
  have tiles := represents.tiles
  have notZero : n ≠ 0#32 := fun zero => large (zero ▸ by decide)
  rw [represents.blocks_eq]
  simp only [Option.some.injEq, exists_eq_left']
  constructor
  · rintro ⟨p, h, call, notNull⟩
    by_contra none
    have fit : firstFit headerBytes 4 (alignSize n).toNat l = .none := by
      rw [firstFit_eq_none]
      intro b member free
      rcases exists_mem_encode 0#32 member with ⟨x, memberX, -, used, -⟩
      exact absurd ⟨x, memberX, used.trans (usedByte_eq_zero.mpr free)⟩ none
    have failed := call.symm.trans (represents.kmalloc_none notZero fit)
    exact notNull (Prod.mk.inj (Option.some_inj.mp failed)).1
  · rintro ⟨x, memberX, used⟩
    rcases mem_encode memberX with ⟨b, member, -, usedB, -⟩
    have free : b.used = false := usedByte_eq_zero.mp (usedB.symm.trans used)
    cases fit : firstFit headerBytes 4 (alignSize n).toNat l with
    | none =>
        have few := firstFit_eq_none.mp fit b member free
        rw [alignSize_of_large large] at few
        exact absurd few (Nat.not_lt_zero _)
    | some r =>
        rcases represents.kmalloc_some notZero fit with ⟨h, call⟩
        rcases firstFit_eq_some fit with ⟨pre, c, post, shape, -, -, -, rfl⟩
        have memberC : c ∈ l := by
          rw [shape]
          simp
        exact ⟨_, h, call, payloadPtr_ne_zero tiles memberC⟩

/-- In every run, what `kmalloc` returns for a request holds it, inside the heap and apart
from every other block, exactly when the request can be rounded up or there is no free
block to return. -/
theorem kmalloc_enough_iff {h : HeapState} {tr : List (Sys.Event HeapRunState HeapOp)}
    (run : Sys.Run HeapStep (heapRunInit h) tr t) (n : Word) :
    (∀ p h', kmalloc n t.heap = some (p, h') → p ≠ 0#32 →
        ∃ bs, h'.blocks = some bs ∧ HoldsRequest bs p n) ↔
      n ≤ 0xFFFFFFFC#32 ∨ ∀ bs, t.heap.blocks = some bs → ∀ x ∈ bs, x.2.used ≠ 0#8 := by
  rcases (heapInvariant_init h).run run with ⟨l, inv⟩
  constructor
  · intro all
    by_cases small : n ≤ 0xFFFFFFFC#32
    · exact .inl small
    · right
      intro bs blocks x member free
      rcases (inv.kmalloc_of_large small).mpr ⟨bs, blocks, x, member, free⟩ with
        ⟨p, h', call, notNull⟩
      exact small ((inv.holdsRequest_iff call notNull).mp (all p h' call notNull))
  · intro either p h' call notNull
    rw [inv.holdsRequest_iff call notNull]
    by_contra large
    rcases (inv.kmalloc_of_large large).mp ⟨p, h', call, notNull⟩ with ⟨bs, blocks, x, member, free⟩
    rcases either with small | busy
    · exact large small
    · exact busy bs blocks x member free

theorem kmalloc_enough_iff_nine :
    ∃ t h', Sys.Run HeapStep (heapRunInit blankHeap)
        [⟨heapRunInit blankHeap, .kmalloc 5#32, t⟩] t ∧
      kmalloc 9#32 t.heap = some (0x200022#32, h') ∧
      ∃ bs, h'.blocks = some bs ∧ HoldsRequest bs 0x200022#32 9#32 := by
  rcases exists_run_kmalloc 5#32 with ⟨t, run, inv⟩
  rcases inv.represents.kmalloc 9#32 with ⟨h', call, -⟩
  have place : (allocate 9#32 (allocate 5#32 [⟨heapStart, heapSize - headerBytes, false⟩]).2).1 =
      0x200022#32 := by decide
  rw [place] at call
  have enough := (kmalloc_enough_iff run 9#32).mpr (.inl (by decide))
  exact ⟨t, h', run, call, enough _ _ call (by decide)⟩

/-- A request for all but the whole of the address space is given a block of no bytes. -/
theorem kmalloc_too_small :
    ∃ h', kmalloc 0xFFFFFFFD#32 (heapInit blankHeap) = some (0x20000D#32, h') ∧
      (∃ bs, h'.blocks = some bs ∧ ∃ x ∈ bs, x.1 = 0x200000#32 ∧ x.2.size = 0#32) ∧
      ¬ ∃ bs, h'.blocks = some bs ∧ HoldsRequest bs 0x20000D#32 0xFFFFFFFD#32 := by
  have inv := heapInvariant_init blankHeap
  rcases inv.represents.kmalloc 0xFFFFFFFD#32 with ⟨h', call, represents, -⟩
  refine ⟨h', call, ⟨_, represents.blocks_eq, by decide⟩, fun holds => ?_⟩
  exact absurd ((inv.holdsRequest_iff call (by decide)).mp holds) (by decide)

/-! ## Placement -/

/-- In every run, a request that can be rounded up to `m` fails, leaving the heap as it is,
exactly when no gap can hold a header and `m` bytes. Else it goes to the start of the
lowest such gap. -/
theorem kmalloc_lowest_gap {h : HeapState} {tr : List (Sys.Event HeapRunState HeapOp)}
    (run : Sys.Run HeapStep (heapRunInit h) tr t) {n : Word} (some_ : 1#32 ≤ n)
    (small : n ≤ 0xFFFFFFFC#32) :
    ∃ bs p h', t.heap.blocks = some bs ∧ kmalloc n t.heap = some (p, h') ∧
      (p = 0#32 ↔ ∀ a z, HeapGap bs a z → z - a < headerBytes + (n.toNat + 3) / 4 * 4) ∧
      (p = 0#32 → h' = t.heap) ∧
      (p ≠ 0#32 → ∃ a z, HeapGap bs a z ∧ headerBytes + (n.toNat + 3) / 4 * 4 ≤ z - a ∧
        (∀ a' z', HeapGap bs a' z' → headerBytes + (n.toNat + 3) / 4 * 4 ≤ z' - a' → a ≤ a') ∧
        p.toNat = a + headerBytes) := by
  rcases (heapInvariant_init h).run run with ⟨l, inv⟩
  have represents := inv.represents
  have tiles := represents.tiles
  have notZero : n ≠ 0#32 := by bv_omega
  have round := toNat_alignSize_of_small small
  simp only [← round]
  cases fit : firstFit headerBytes 4 (alignSize n).toNat l with
  | none =>
      have few := (tiles.firstFit_none_iff (by decide) inv.canonical).mp fit
      refine ⟨_, 0#32, t.heap, represents.blocks_eq, represents.kmalloc_none notZero fit,
        iff_of_true rfl fun a z gap => few a z ((heapGap_encode tiles a z).mp gap), fun _ => rfl,
        fun notNull => absurd rfl notNull⟩
  | some r =>
      rcases represents.kmalloc_some notZero fit with ⟨h', call⟩
      rcases tiles.firstFit_lowest (by decide) inv.canonical fit with ⟨z, gap, large, lowest⟩
      have place : (BitVec.ofNat 32 (r.1 + headerBytes)).toNat = r.1 + headerBytes := by
        have bounds := gap.upper
        have bytes : headerBytes = 13 := rfl
        have top : heapStart + heapSize = 0x300000 := rfl
        rw [BitVec.toNat_ofNat, Nat.mod_eq_of_lt (by omega)]
      have notNull : BitVec.ofNat 32 (r.1 + headerBytes) ≠ 0#32 := by
        intro null
        rw [null] at place
        have bytes : headerBytes = 13 := rfl
        have zero : (0#32).toNat = 0 := rfl
        omega
      refine ⟨_, _, h', represents.blocks_eq, call, iff_of_false notNull fun few => ?_,
        fun null => absurd null notNull, fun _ => ⟨r.1, z, (heapGap_encode tiles _ _).mpr gap,
          large, fun a' z' gap' => lowest a' z' ((heapGap_encode tiles _ _).mp gap'), place⟩⟩
      exact absurd large (Nat.not_le.mpr (few _ _ ((heapGap_encode tiles _ _).mpr gap)))

/-- After a request of five bytes, one of nine goes behind its block. -/
theorem kmalloc_lowest_gap_nine :
    ∃ t h', Sys.Run HeapStep (heapRunInit blankHeap)
        [⟨heapRunInit blankHeap, .kmalloc 5#32, t⟩] t ∧
      kmalloc 9#32 t.heap = some (0x200022#32, h') := by
  rcases exists_run_kmalloc 5#32 with ⟨t, run, inv⟩
  rcases kmalloc_lowest_gap run (by decide : 1#32 ≤ 9#32) (by decide) with
    ⟨bs, p, h', blocks, call, fails, -, placed⟩
  have list : (allocate 5#32 [⟨heapStart, heapSize - headerBytes, false⟩]).2 =
      [⟨0x200000, 8, true⟩, ⟨0x200015, 0xFFFDE, false⟩] := by decide
  rw [list] at inv
  have tiles := inv.represents.tiles
  obtain rfl : encode 0#32 _ = bs := Option.some_inj.mp (inv.represents.blocks_eq.symm.trans blocks)
  have rest : HeapGap (encode 0#32 [⟨0x200000, 8, true⟩, ⟨0x200015, 0xFFFDE, false⟩])
      0x200015 0x300000 :=
    (heapGap_encode tiles _ _).mpr (tiles.isGap_of_free (by decide) inv.canonical
      (List.mem_cons_of_mem _ (List.mem_singleton_self _)) rfl)
  have notNull : p ≠ 0#32 := by
    intro null
    exact absurd (fails.mp null _ _ rest) (by decide)
  rcases placed notNull with ⟨a, z, gap, -, -, place⟩
  rcases (tiles.isGap_iff (by decide) inv.canonical).mp ((heapGap_encode tiles a z).mp gap) with
    ⟨b, member, free, rfl, -⟩
  have here : p = 0x200022#32 := by
    simp only [List.mem_cons, List.not_mem_nil, or_false] at member
    rcases member with rfl | rfl
    · cases free
    · exact BitVec.eq_of_toNat_eq place
  exact ⟨t, h', run, here ▸ call⟩

end Learnix
