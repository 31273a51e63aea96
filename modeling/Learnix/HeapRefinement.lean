import Learnix.HeapLayout

/-!
# The heap refines first-fit allocation

On a memory that represents a tiling, `kmalloc` computes `allocate` and `kfree`
computes `release`, and the memory afterwards represents the result. Both leave
the payloads of used blocks alone, and the list that the raw bytes encode is a
function of the tiling (`Represents.blocks_eq`).
-/

namespace Learnix

open Machine Tiling

/-- The pointer to a block's payload. -/
def payloadPtr (b : Block) : Word := BitVec.ofNat 32 (b.addr + headerBytes)

/-- What `kmalloc` does to a tiling: the pointer it returns, and the blocks
afterwards. -/
def allocate (size : Word) (l : List Block) : Word × List Block :=
  if size = 0#32 then (0#32, l)
  else
    match firstFit headerBytes 4 (alignSize size).toNat l with
    | none => (0#32, l)
    | some r => (BitVec.ofNat 32 (r.1 + headerBytes), r.2)

/-- The nodes of the raw block list for the blocks of a tiling. -/
def encode : Word → List Block → List (Word × BlockHeader)
  | _, [] => []
  | prev, b :: bs =>
    (addrOf b, ⟨BitVec.ofNat 32 b.size, usedByte b.used, headAddr 0#32 bs, prev⟩) ::
      encode (addrOf b) bs

variable {s : HeapState} {m : Memory} {prev size : Word} {b : Block} {l pre post : List Block}

/-- `allocate` fails, or takes a free block that is large enough. -/
theorem allocate_cases (size : Word) (l : List Block) :
    allocate size l = (0#32, l) ∨
      ∃ pre b post, l = pre ++ b :: post ∧ b.used = false ∧ (alignSize size).toNat ≤ b.size ∧
        allocate size l =
          (payloadPtr b, pre ++ carve headerBytes 4 (alignSize size).toNat b ++ post) := by
  by_cases zero : size = 0#32
  · exact .inl (if_pos zero)
  · cases fit : firstFit headerBytes 4 (alignSize size).toNat l with
    | none => exact .inl (by simp only [allocate, if_neg zero, fit])
    | some r =>
        obtain ⟨pre, b, post, shape, free, room, -, result⟩ := firstFit_eq_some fit
        refine .inr ⟨pre, b, post, shape, free, room, ?_⟩
        simp only [allocate, if_neg zero, fit, result, payloadPtr]

theorem toNat_payloadPtr (tiles : HeapTiling l) (member : b ∈ l) :
    (payloadPtr b).toNat = b.addr + headerBytes := by
  have inside := heap_bounds tiles member
  have bytes : headerBytes = 13 := rfl
  rw [payloadPtr, BitVec.toNat_ofNat, Nat.mod_eq_of_lt (by omega)]

theorem payloadPtr_ne_zero (tiles : HeapTiling l) (member : b ∈ l) : payloadPtr b ≠ 0#32 := by
  have place := toNat_payloadPtr tiles member
  have bytes : headerBytes = 13 := rfl
  intro null
  rw [null, BitVec.toNat_ofNat] at place
  omega

theorem payloadPtr_sub (b : Block) : payloadPtr b - BitVec.ofNat 32 headerBytes = addrOf b := by
  rw [payloadPtr, BitVec.ofNat_add, BitVec.add_sub_cancel, addrOf]

/-! ## The scan -/

/-- The pointers of `l` are not null and its sizes fit in a word. -/
def Addressable (l : List Block) : Prop := ∀ b ∈ l, addrOf b ≠ 0#32 ∧ b.size < 2 ^ 32

theorem addressable (tiles : HeapTiling l) : Addressable l := fun b member =>
  ⟨addrOf_ne_zero tiles member, by have := heap_bounds tiles member; omega⟩

theorem length_lt_pointerSpace (tiles : HeapTiling l) : l.length < pointerSpace := by
  have few := tiles.length_mul_le
  unfold heapStart heapSize headerBytes at few
  unfold pointerSpace
  omega

/-- The loop of `kmalloc` is `firstFit` on the blocks from `current` on. -/
theorem Linked.kmallocScan {fuel : Nat} (linked : Linked m prev l 0#32) (size : Word)
    (fits : Addressable l) (enough : l.length < fuel) :
    kmallocScan fuel size (headAddr 0#32 l) m =
      some (match firstFit headerBytes 4 size.toNat l with
        | none => (0#32, m)
        | some r => (BitVec.ofNat 32 r.1 + BitVec.ofNat 32 headerBytes,
            Learnix.takeBlock (BitVec.ofNat 32 r.1) size m)) := by
  induction l generalizing prev fuel with
  | nil =>
      cases fuel with
      | zero => cases enough
      | succ fuel => rfl
  | cons b bs ih =>
      cases fuel with
      | zero => cases enough
      | succ fuel =>
          obtain ⟨headB, rest⟩ := linked
          obtain ⟨notNull, sizeFits⟩ := fits b List.mem_cons_self
          have fitting : (header m (addrOf b)).used = 0#8 ∧ size ≤ (header m (addrOf b)).size ↔
              b.used = false ∧ size.toNat ≤ b.size := by
            rw [headB, usedByte_eq_zero, BitVec.le_def, BitVec.toNat_ofNat,
              Nat.mod_eq_of_lt sizeFits]
          have nextB : (header m (addrOf b)).next = headAddr 0#32 bs := by rw [headB]
          rw [headAddr, Learnix.kmallocScan, if_neg notNull, firstFit]
          by_cases fit : b.used = false ∧ size.toNat ≤ b.size
          · rw [if_pos (fitting.mpr fit), if_pos fit]
            rfl
          · rw [if_neg (mt fitting.mp fit), if_neg fit, nextB,
              ih rest (fun c member => fits c (List.mem_cons_of_mem _ member))
                (Nat.lt_of_succ_lt_succ enough)]
            cases firstFit headerBytes 4 size.toNat bs <;> rfl

/-! ## Sizes and addresses stay in range -/

/-- What `size % 4` leaves to the next multiple of four. -/
theorem toNat_pad (size : Word) : (4#32 - size % 4#32).toNat = 4 - size.toNat % 4 := by
  have four : (4#32).toNat = 4 := rfl
  rw [BitVec.toNat_sub, BitVec.toNat_umod, four]
  omega

theorem unaligned_iff (size : Word) : size % 4#32 ≠ 0#32 ↔ size.toNat % 4 ≠ 0 := by
  rw [ne_eq, BitVec.toNat_eq, BitVec.toNat_umod]
  rfl

/-- Rounding up is exact unless it passes the end of the 32-bit range. -/
theorem alignExact_iff (size : Word) : AlignExact size ↔ size ≤ 0xFFFFFFFC#32 := by
  have limit : (0xFFFFFFFC#32).toNat = 0xFFFFFFFC := rfl
  have four : (4#32).toNat = 4 := rfl
  unfold AlignExact SubExact AddExact
  rw [unaligned_iff, toNat_pad, BitVec.toNat_umod, four, BitVec.le_def, limit]
  omega

theorem Linked.scanExact {fuel : Nat} (linked : Linked m prev l 0#32)
    (fits : ∀ b ∈ l, (addrOf b).toNat + headerBytes + b.size ≤ 0x300000) :
    ScanExact fuel size (headAddr 0#32 l) m := by
  have bytes : headerBytes = 13 := rfl
  induction l generalizing prev fuel with
  | nil => cases fuel <;> trivial
  | cons b bs ih =>
      cases fuel with
      | zero => trivial
      | succ fuel =>
          obtain ⟨headB, rest⟩ := linked
          have fitsB := fits b List.mem_cons_self
          have sizeB : (header m (addrOf b)).size.toNat = b.size := by
            rw [headB, BitVec.toNat_ofNat, Nat.mod_eq_of_lt (by omega)]
          have nextB : (header m (addrOf b)).next = headAddr 0#32 bs := by rw [headB]
          rw [headAddr, ScanExact]
          split
          · trivial
          · split
            · next fit =>
              have room : size.toNat ≤ b.size := sizeB ▸ BitVec.le_def.mp fit.2
              have thirteen : (BitVec.ofNat 32 headerBytes).toNat = 13 := rfl
              have four : (4#32).toNat = 4 := rfl
              unfold TakeExact SplitExact AddExact SubExact
              simp only [BitVec.toNat_add, BitVec.toNat_sub, BitVec.le_def, thirteen, four, sizeB]
              omega
            · rw [nextB]
              exact ih rest fun c member => fits c (List.mem_cons_of_mem _ member)

/-- The sum that a merge of neighbours computes is exact. -/
theorem addExact_merge {c : Block} (tiles : HeapTiling l) (left : b ∈ l) (right : c ∈ l) :
    AddExact (BitVec.ofNat 32 headerBytes) (BitVec.ofNat 32 c.size) ∧
      AddExact (BitVec.ofNat 32 b.size)
        (BitVec.ofNat 32 headerBytes + BitVec.ofNat 32 c.size) := by
  have insideB := heap_bounds tiles left
  have insideC := heap_bounds tiles right
  have thirteen : (BitVec.ofNat 32 headerBytes).toNat = 13 := rfl
  unfold AddExact
  simp only [BitVec.toNat_add, BitVec.toNat_ofNat, thirteen]
  omega

theorem Linked.mergeNextExact (linked : Linked m prev (pre ++ b :: post) 0#32)
    (tiles : HeapTiling (pre ++ b :: post)) : MergeNextExact (addrOf b) m := by
  obtain ⟨-, headB, behind⟩ := linked_append.mp linked
  cases post with
  | nil => exact fun more => absurd (by rw [headB]; rfl) more
  | cons c cs =>
      intro _ _
      have next : (header m (addrOf b)).next = addrOf c := by rw [headB]; rfl
      rw [next, headB, behind.1]
      exact addExact_merge tiles (by simp) (by simp)

theorem Linked.mergePrevExact (linked : Linked m 0#32 (pre ++ b :: post) 0#32)
    (tiles : HeapTiling (pre ++ b :: post)) : MergePrevExact (addrOf b) m := by
  obtain ⟨before, headB, -⟩ := linked_append.mp linked
  rcases List.eq_nil_or_concat' pre with rfl | ⟨front, p, rfl⟩
  · exact fun more => absurd (by rw [headB]; rfl) more
  · intro _ _
    have headP := (linked_append.mp before).2.1
    have prevP : (header m (addrOf b)).prev = addrOf p := by rw [headB]; exact lastAddr_concat
    rw [prevP, headB, headP]
    exact addExact_merge tiles (by simp) (by simp)

/-! ## The operations -/

theorem represents_heapInit (s : HeapState) :
    Represents (heapInit s) [⟨heapStart, heapSize - headerBytes, false⟩] where
  start := rfl
  tiles := ⟨rfl, rfl⟩
  linked := by
    refine ⟨?_, trivial⟩
    have sizes : BitVec.ofNat 32 heapSize - BitVec.ofNat 32 headerBytes =
        BitVec.ofNat 32 (heapSize - headerBytes) := by decide
    simp [heapInit, addrOf, headAddr, usedByte, sizes]

theorem Represents.headAddr_eq (represents : Represents s l) :
    s.heapStartPtr = headAddr 0#32 l := by
  obtain ⟨start, tiles, -⟩ := represents
  cases l with
  | nil => cases tiles
  | cons b bs => rw [start, headAddr, addrOf, tiles.1]

/-- **`kmalloc` is `allocate`.** It always returns; it writes to headers and to the
payload of the free block that it takes. -/
theorem Represents.kmalloc (represents : Represents s l) (size : Word) :
    ∃ s', kmalloc size s = some ((allocate size l).1, s') ∧ Represents s' (allocate size l).2 ∧
      ∀ x, OffHeaders l x → (∀ b ∈ l, b.used = false → ¬ Memory.InRange (payloadPtr b) b.size x) →
        s'.mem x = s.mem x := by
  have head := represents.headAddr_eq
  obtain ⟨start, tiles, linked⟩ := represents
  by_cases zero : size = 0#32
  · refine ⟨s, ?_, ?_, fun _ _ _ => rfl⟩
    · rw [Learnix.kmalloc, allocate, if_pos zero, if_pos zero]
    · rw [allocate, if_pos zero]
      exact ⟨start, tiles, linked⟩
  · have scan := linked.kmallocScan (alignSize size) (addressable tiles)
      (length_lt_pointerSpace tiles)
    rw [← head] at scan
    cases fit : firstFit headerBytes 4 (alignSize size).toNat l with
    | none =>
        rw [fit] at scan
        refine ⟨s, ?_, ?_, fun _ _ _ => rfl⟩
        · simp only [Learnix.kmalloc, allocate, if_neg zero, scan, fit, Option.map_some]
        · simp only [allocate, if_neg zero, fit]
          exact ⟨start, tiles, linked⟩
    | some r =>
        rw [fit] at scan
        obtain ⟨pre, b, post, rfl, free, room, -, rfl⟩ := firstFit_eq_some fit
        obtain ⟨taken, frame⟩ := linked.takeBlock tiles room
        refine ⟨⟨takeBlock (addrOf b) (alignSize size) s.mem, s.heapStartPtr⟩, ?_, ?_, ?_⟩
        · simp only [Learnix.kmalloc, allocate, if_neg zero, scan, fit, Option.map_some,
            BitVec.ofNat_add, addrOf]
        · simp only [allocate, if_neg zero, fit]
          exact ⟨start, tiles.carve, taken⟩
        · refine fun x off outside => frame x off ?_
          have outsideB := outside b (by simp) free
          rwa [payloadPtr, BitVec.ofNat_add] at outsideB

/-- What is known of a call of `kmalloc` that has returned. -/
theorem Represents.kmalloc_returned {s' : HeapState} {p : Word} (represents : Represents s l)
    (call : Learnix.kmalloc size s = some (p, s')) :
    p = (allocate size l).1 ∧ Represents s' (allocate size l).2 ∧
      ∀ x, OffHeaders l x → (∀ b ∈ l, b.used = false → ¬ Memory.InRange (payloadPtr b) b.size x) →
        s'.mem x = s.mem x := by
  obtain ⟨t, call', effect⟩ := represents.kmalloc size
  rw [call] at call'
  cases call'
  exact ⟨rfl, effect⟩

/-- Being off the headers is a matter of where they are. -/
theorem OffHeaders.of_addr {l' : List Block} {x : Word} (off : OffHeaders l x)
    (same : ∀ b ∈ l', ∃ c ∈ l, b.addr = c.addr) : OffHeaders l' x := by
  intro b member
  obtain ⟨c, memberC, eq⟩ := same b member
  rw [addrOf, eq]
  exact off c memberC

/-- A call of `kmalloc` computes exactly unless rounding up wraps. -/
theorem Represents.kmallocExact_iff (represents : Represents s l) (size : Word) :
    KmallocExact size s ↔ size ≤ 0xFFFFFFFC#32 := by
  rw [← alignExact_iff]
  constructor
  · intro exact_
    by_cases zero : size = 0#32
    · subst zero
      exact fun odd => absurd rfl odd
    · exact (exact_ zero).1
  · intro aligned _
    refine ⟨aligned, ?_⟩
    rw [represents.headAddr_eq]
    refine represents.linked.scanExact fun b member => ?_
    rw [toNat_addrOf represents.tiles member]
    exact (heap_bounds represents.tiles member).2

/-- The two merges of `kfree`, one block deep on each side, release the block of a
canonical tiling. -/
theorem absorbLast_eq_release (canonical : Canonical (pre ++ b :: post))
    (absent : ∀ c ∈ pre, c.addr ≠ b.addr) :
    absorbLast headerBytes pre (absorb headerBytes { b with used := false } post) =
      release headerBytes b.addr (pre ++ b :: post) := by
  rw [release_append absent]
  rcases List.eq_nil_or_concat' pre with rfl | ⟨front, p, rfl⟩
  · rfl
  · rw [absorbLast_concat, List.foldr_append, List.foldr_cons, List.foldr_nil]
    obtain ⟨size, rest, shape⟩ := absorb_eq_cons (h := headerBytes) p
      (absorb headerBytes { b with used := false } post)
    rw [shape]
    rw [List.append_assoc] at canonical
    exact (foldr_absorb canonical).symm

/-- **`kfree` is `release`.** It writes to headers only, and computes exactly. -/
theorem Represents.kfree (represents : Represents s l) (canonical : Canonical l)
    (member : b ∈ l) :
    Represents (kfree (payloadPtr b) s) (release headerBytes b.addr l) ∧
      KfreeExact (payloadPtr b) s ∧
      ∀ x, OffHeaders l x → (Learnix.kfree (payloadPtr b) s).mem x = s.mem x := by
  obtain ⟨start, tiles, linked⟩ := represents
  have notNull := payloadPtr_ne_zero tiles member
  obtain ⟨pre, post, rfl⟩ := List.append_of_mem member
  have absent := tiles.absent (by decide)
  have freed := linked.setUsed tiles false
  have tilesFreed : HeapTiling (pre ++ { b with used := false } :: post) := by
    obtain ⟨mid, before, behind⟩ := tiles_append.mp tiles
    exact tiles_append.mpr ⟨mid, before, behind⟩
  obtain ⟨forward, frame₁⟩ := freed.mergeNext tilesFreed rfl
  have tilesForward : HeapTiling (pre ++ absorb headerBytes { b with used := false } post) := by
    obtain ⟨mid, before, behind⟩ := tiles_append.mp tilesFreed
    exact tiles_append.mpr ⟨mid, before, behind.absorb⟩
  have addresses : ∀ c ∈ pre ++ absorb headerBytes { b with used := false } post,
      ∃ d ∈ pre ++ b :: post, c.addr = d.addr := by
    intro c memberC
    rcases List.mem_append.mp memberC with early | late
    · exact ⟨c, by simp [early], rfl⟩
    · obtain ⟨d, memberD, eq⟩ := exists_addr_eq_of_mem_absorb late
      rcases List.mem_cons.mp memberD with rfl | later
      · exact ⟨b, by simp, eq⟩
      · exact ⟨d, by simp [later], eq⟩
  have released := absorbLast_eq_release canonical absent
  obtain ⟨size, rest, shape⟩ := absorb_eq_cons (h := headerBytes) { b with used := false } post
  rw [shape] at forward tilesForward addresses released
  obtain ⟨backward, frame₂⟩ := forward.mergePrev tilesForward rfl
  rw [released] at backward
  rw [Learnix.kfree, if_neg notNull, payloadPtr_sub]
  refine ⟨⟨start, tiles.release, backward⟩, fun _ => ?_, fun x off => ?_⟩
  · rw [payloadPtr_sub]
    refine ⟨?_, freed.mergeNextExact tilesFreed, forward.mergePrevExact tilesForward⟩
    have place := toNat_payloadPtr tiles (b := b) (by simp)
    rw [SubExact, place]
    exact Nat.le_add_left _ _
  calc Learnix.mergePrev (addrOf b) (Learnix.mergeNext (addrOf b) (setUsed s.mem (addrOf b) 0#8)) x
      = Learnix.mergeNext (addrOf b) (setUsed s.mem (addrOf b) 0#8) x :=
        frame₂ x (off.of_addr addresses)
    _ = setUsed s.mem (addrOf b) 0#8 x := frame₁ x (off.of_addr fun c memberC => by
        rcases List.mem_append.mp memberC with early | late
        · exact ⟨c, by simp [early], rfl⟩
        · rcases List.mem_cons.mp late with rfl | later
          · exact ⟨b, by simp, rfl⟩
          · exact ⟨c, by simp [later], rfl⟩)
    _ = s.mem x := setUsed_apply (off b (by simp))

/-! ## The raw block list -/

theorem Linked.blocksFrom {fuel : Nat} (linked : Linked m prev l 0#32) (fits : Addressable l)
    (enough : l.length < fuel) :
    blocksFrom fuel (headAddr 0#32 l) m = some (encode prev l) := by
  induction l generalizing prev fuel with
  | nil =>
      cases fuel with
      | zero => cases enough
      | succ fuel => rfl
  | cons b bs ih =>
      cases fuel with
      | zero => cases enough
      | succ fuel =>
          obtain ⟨headB, rest⟩ := linked
          have notNull := (fits b List.mem_cons_self).1
          rw [headAddr, Learnix.blocksFrom, if_neg notNull, headB,
            ih rest (fun c member => fits c (List.mem_cons_of_mem _ member))
              (Nat.lt_of_succ_lt_succ enough)]
          rfl

/-- The raw block list is a function of the tiling. -/
theorem Represents.blocks_eq (represents : Represents s l) : s.blocks = some (encode 0#32 l) := by
  rw [HeapState.blocks, represents.headAddr_eq]
  exact represents.linked.blocksFrom (addressable represents.tiles)
    (length_lt_pointerSpace represents.tiles)

end Learnix
