import Learnix.Heap
import Learnix.Lib.Tiling

/-!
# The heap list as a tiling

`Represents s l`: the headers in the memory of `s` spell out the tiling `l` of
the heap, each with the size and use of its block and linked both ways to its
neighbours. The section on field stores says what splitting and merging do to
the headers involved and that they leave every other byte alone; from that,
`takeBlock` and the two merges of `kfree` carry one tiling to the next
(`Linked.takeBlock`, `Linked.mergeNext`, `Linked.mergePrev`).
-/

namespace Learnix

open Machine Tiling

/-! ## What splitting and merging write -/

/-- Splitting rewrites the header of the block, writes the one of the block cut
off, and redirects the back link behind them. -/
theorem splitBlock_effect {m : Memory} {a n na nx : Word}
    (place : a + BitVec.ofNat 32 headerBytes + n = na) (next : (header m a).next = nx)
    (apart : Apart a na) (behind : nx ≠ 0#32 → Apart a nx ∧ Apart na nx) :
    header (splitBlock a n m) a = { header m a with size := n, next := na } ∧
      header (splitBlock a n m) na =
        ⟨(header m a).size - n - BitVec.ofNat 32 headerBytes, 0#8, nx, a⟩ ∧
      (nx ≠ 0#32 → header (splitBlock a n m) nx = { header m nx with prev := na }) ∧
      ∀ x, ¬ Memory.InRange a headerBytes x → ¬ Memory.InRange na headerBytes x →
        (nx ≠ 0#32 → ¬ Memory.InRange nx headerBytes x) → splitBlock a n m x = m x := by
  have apart' := apart.symm
  unfold splitBlock
  rw [place]
  by_cases last : nx = 0#32
  · subst last
    simp +contextual [apart, apart', next]
  · obtain ⟨aNext, newNext⟩ := behind last
    have aNext' := aNext.symm
    have newNext' := newNext.symm
    simp +contextual [apart, apart', next, last, aNext, aNext', newNext, newNext']

/-- `m'` is `m` with block `b` merged into the block `a` before it. -/
structure Merged (m m' : Memory) (a b : Word) : Prop where
  front : header m' a = { header m a with
    size := (header m a).size + (BitVec.ofNat 32 headerBytes + (header m b).size)
    next := (header m b).next }
  behind : (header m b).next ≠ 0#32 →
    header m' (header m b).next = { header m (header m b).next with prev := a }
  frame : ∀ x, ¬ Memory.InRange a headerBytes x →
    ((header m b).next ≠ 0#32 → ¬ Memory.InRange (header m b).next headerBytes x) → m' x = m x

theorem mergeNext_of_busy {m : Memory} {a : Word}
    (busy : (header m a).next ≠ 0#32 → (header m (header m a).next).used ≠ 0#8) :
    mergeNext a m = m := by
  unfold mergeNext
  rw [if_neg fun both => busy both.1 both.2]

theorem mergePrev_of_busy {m : Memory} {b : Word}
    (busy : (header m b).prev ≠ 0#32 → (header m (header m b).prev).used ≠ 0#8) :
    mergePrev b m = m := by
  unfold mergePrev
  rw [if_neg fun both => busy both.1 both.2]

/-- `kfree`'s first merge. -/
theorem merged_mergeNext {m : Memory} {a b : Word} (next : (header m a).next = b)
    (some_ : b ≠ 0#32) (free : (header m b).used = 0#8) (apart : Apart a b)
    (behind : (header m b).next ≠ 0#32 → Apart a (header m b).next) :
    Merged m (mergeNext a m) a b := by
  have apart' := apart.symm
  unfold mergeNext
  rw [next, if_pos ⟨some_, free⟩]
  by_cases last : (header m b).next = 0#32
  · constructor <;> simp +contextual [apart', next, last]
  · have aNext := behind last
    have aNext' := aNext.symm
    constructor <;> simp +contextual [apart', next, last, aNext, aNext']

/-- `kfree`'s second merge. -/
theorem merged_mergePrev {m : Memory} {a b : Word} (prev : (header m b).prev = a)
    (some_ : a ≠ 0#32) (free : (header m a).used = 0#8) (apart : Apart a b)
    (behind : (header m b).next ≠ 0#32 → Apart a (header m b).next) :
    Merged m (mergePrev b m) a b := by
  have apart' := apart.symm
  unfold mergePrev
  rw [prev, if_pos ⟨some_, free⟩]
  by_cases last : (header m b).next = 0#32
  · constructor <;> simp +contextual [apart', prev, last]
  · have aNext := behind last
    have aNext' := aNext.symm
    constructor <;> simp +contextual [apart', prev, last, aNext, aNext']

/-! ## The linked list of a tiling -/

/-- The address of a block's header, as a pointer. -/
def addrOf (b : Block) : Word := BitVec.ofNat 32 b.addr

/-- The value of the `used` field. -/
def usedByte (used : Bool) : Byte := if used then 1#8 else 0#8

/-- The first block of `l`, or `next` if there is none. -/
def headAddr (next : Word) : List Block → Word
  | [] => next
  | b :: _ => addrOf b

/-- The last block of `l`, or `prev` if there is none. -/
def lastAddr (prev : Word) : List Block → Word
  | [] => prev
  | b :: bs => lastAddr (addrOf b) bs

/-- The headers in `m` link the blocks of `l` in order, `prev` before them and
`next` behind them, each with the size and use of its block. -/
def Linked (m : Memory) : Word → List Block → Word → Prop
  | _, [], _ => True
  | prev, b :: bs, next =>
    header m (addrOf b) = ⟨BitVec.ofNat 32 b.size, usedByte b.used, headAddr next bs, prev⟩ ∧
      Linked m (addrOf b) bs next

/-- The blocks of `l` tile `[HEAP_START, HEAP_START + HEAP_SIZE)`. -/
abbrev HeapTiling (l : List Block) : Prop :=
  Tiles headerBytes heapStart (heapStart + heapSize) l

/-- The memory of `s` holds the tiling `l` of the heap. -/
structure Represents (s : HeapState) (l : List Block) : Prop where
  start : s.heapStartPtr = BitVec.ofNat 32 heapStart
  tiles : HeapTiling l
  linked : Linked s.mem 0#32 l 0#32

variable {m m' : Memory} {prev next : Word} {b c : Block} {l pre post : List Block}

theorem usedByte_eq_zero {used : Bool} : usedByte used = 0#8 ↔ used = false := by
  cases used <;> decide

theorem linked_append {l₁ l₂ : List Block} :
    Linked m prev (l₁ ++ l₂) next ↔
      Linked m prev l₁ (headAddr next l₂) ∧ Linked m (lastAddr prev l₁) l₂ next := by
  induction l₁ generalizing prev with
  | nil => simp [Linked, lastAddr]
  | cons b bs ih =>
      have head : headAddr next (bs ++ l₂) = headAddr (headAddr next l₂) bs := by
        cases bs <;> rfl
      simp only [List.cons_append, Linked, lastAddr, ih, head, and_assoc]

/-- The list does not change with bytes outside its headers. -/
theorem Linked.frame (linked : Linked m prev l next)
    (same : ∀ b ∈ l, header m' (addrOf b) = header m (addrOf b)) : Linked m' prev l next := by
  induction l generalizing prev with
  | nil => trivial
  | cons b bs ih =>
      obtain ⟨head, rest⟩ := linked
      exact ⟨(same b List.mem_cons_self).trans head,
        ih rest fun c member => same c (List.mem_cons_of_mem _ member)⟩

/-! ### Blocks of a tiling as pointers -/

/-- Within a 32-bit interval, headers that do not meet are apart as pointers. -/
theorem apart_of_le {i j : Nat} (fits : i + headerBytes ≤ 2 ^ 32) (fits' : j + headerBytes ≤ 2 ^ 32)
    (le : i + headerBytes ≤ j ∨ j + headerBytes ≤ i) :
    Apart (BitVec.ofNat 32 i) (BitVec.ofNat 32 j) := by
  have bytes : headerBytes = 13 := rfl
  have left : (BitVec.ofNat 32 i).toNat = i := by
    rw [BitVec.toNat_ofNat, Nat.mod_eq_of_lt (by omega)]
  have right : (BitVec.ofNat 32 j).toNat = j := by
    rw [BitVec.toNat_ofNat, Nat.mod_eq_of_lt (by omega)]
  exact Memory.sep_of_le (by rw [left]; omega) (by rw [right]; omega)
    (by rw [left, right]; exact le)

/-- The blocks lie between two and three megabytes. -/
theorem heap_bounds (tiles : HeapTiling l) (member : b ∈ l) :
    0x200000 ≤ b.addr ∧ b.addr + 13 + b.size ≤ 0x300000 :=
  tiles.bounds member

theorem toNat_addrOf (tiles : HeapTiling l) (member : b ∈ l) :
    (addrOf b).toNat = b.addr := by
  have inside := heap_bounds tiles member
  rw [addrOf, BitVec.toNat_ofNat, Nat.mod_eq_of_lt (by omega)]

theorem addrOf_ne_zero (tiles : HeapTiling l)
    (member : b ∈ l) : addrOf b ≠ 0#32 := by
  have inside := heap_bounds tiles member
  have at_ := toNat_addrOf tiles member
  intro null
  rw [null] at at_
  have : (0#32 : Word).toNat = 0 := rfl
  omega

/-- The headers of a tiling are pairwise apart. -/
theorem pairwise_apart (tiles : HeapTiling l) :
    l.Pairwise fun b c => Apart (addrOf b) (addrOf c) := by
  refine tiles.pairwise.imp_of_mem fun {b c} inB inC before => ?_
  have insideB := heap_bounds tiles inB
  have insideC := heap_bounds tiles inC
  have bytes : headerBytes = 13 := rfl
  have before : b.addr + 13 + b.size ≤ c.addr := before
  exact apart_of_le (by omega) (by omega) (.inl (by omega))

/-- A block of a tiling is apart from all the blocks before and behind it. -/
theorem apart_of_append (tiles : HeapTiling (pre ++ b :: post)) :
    (∀ c ∈ pre, Apart (addrOf c) (addrOf b)) ∧ ∀ c ∈ post, Apart (addrOf c) (addrOf b) := by
  have apart := pairwise_apart tiles
  obtain ⟨-, tail, across⟩ := List.pairwise_append.mp apart
  exact ⟨fun c member => across c member b List.mem_cons_self,
    fun c member => (List.rel_of_pairwise_cons tail member).symm⟩

/-! ### Merging -/

/-- A merge in memory is a merge in the tiling. -/
theorem Linked.merged (linked : Linked m prev (pre ++ b :: c :: post) 0#32)
    (tiles : HeapTiling (pre ++ b :: c :: post)) (merged : Merged m m' (addrOf b) (addrOf c)) :
    Linked m' prev (pre ++ { b with size := b.size + headerBytes + c.size } :: post) 0#32 := by
  obtain ⟨before, headB, headC, behind⟩ := linked_append.mp linked |>.imp_right id
  have apartB := apart_of_append tiles
  have next : (header m (addrOf c)).next = headAddr 0#32 post := by rw [headC]
  -- a header apart from the two that the merge touches keeps its bytes
  have keep : ∀ d : Block, Apart (addrOf d) (addrOf b) →
      (∀ e ∈ post.head?, Apart (addrOf d) (addrOf e)) →
      header m' (addrOf d) = header m (addrOf d) := by
    intro d offB offNext
    refine header_congr fun x inD => merged.frame x (offB x inD) fun more => ?_
    rw [next] at more ⊢
    cases post with
    | nil => exact absurd rfl more
    | cons e es => exact offNext e rfl x inD
  have sizes : BitVec.ofNat 32 b.size + (BitVec.ofNat 32 headerBytes + BitVec.ofNat 32 c.size) =
      BitVec.ofNat 32 (b.size + headerBytes + c.size) := by
    rw [BitVec.ofNat_add, BitVec.ofNat_add, BitVec.add_assoc]
  refine linked_append.mpr ⟨before.frame fun d member => ?_, ?_, ?_⟩
  · refine keep d (apartB.1 d member) fun e first => ?_
    have apart := List.pairwise_append.mp (pairwise_apart tiles) |>.2.2
    exact apart d member e (by simp [List.mem_of_mem_head? first])
  · have front := merged.front
    rw [headB, headC] at front
    rw [sizes] at front
    exact front
  · have same : addrOf { b with size := b.size + headerBytes + c.size } = addrOf b := rfl
    rw [same]
    cases post with
    | nil => trivial
    | cons e es =>
        obtain ⟨headE, rest⟩ := behind
        have apartE := (List.pairwise_append.mp (pairwise_apart tiles)).2.1.tail.tail
        refine ⟨?_, rest.frame fun d member => ?_⟩
        · have back := merged.behind (by
            rw [next]
            exact addrOf_ne_zero tiles (by simp))
          rw [next] at back
          exact back.trans (by rw [headAddr, headE])
        · refine keep d (apartB.2 d (by simp [member])) fun f first => ?_
          cases Option.some.inj first
          exact (List.rel_of_pairwise_cons apartE member).symm

/-- An address in no header of `l`. -/
def OffHeaders (l : List Block) (x : Word) : Prop :=
  ∀ b ∈ l, ¬ Memory.InRange (addrOf b) headerBytes x

/-- What a block's `next` leads to is apart from the blocks before it. -/
theorem Linked.next_apart (linked : Linked m prev (pre ++ b :: c :: post) 0#32)
    (tiles : HeapTiling (pre ++ b :: c :: post))
    (more : (header m (addrOf c)).next ≠ 0#32) :
    ∃ d ∈ post, (header m (addrOf c)).next = addrOf d ∧ Apart (addrOf b) (addrOf d) := by
  obtain ⟨-, -, headC, -⟩ := linked_append.mp linked
  cases post with
  | nil => exact absurd (by rw [headC]; rfl) more
  | cons d ds =>
      exact ⟨d, List.mem_cons_self, by rw [headC]; rfl,
        ((apart_of_append tiles).2 d (by simp)).symm⟩

/-- A merge writes headers only. -/
theorem Merged.offHeaders (merged : Merged m m' (addrOf b) (addrOf c))
    (linked : Linked m prev (pre ++ b :: c :: post) 0#32)
    (tiles : HeapTiling (pre ++ b :: c :: post)) :
    ∀ x, OffHeaders (pre ++ b :: c :: post) x → m' x = m x := by
  intro x off
  refine merged.frame x (off b (by simp)) fun more => ?_
  obtain ⟨d, member, next, -⟩ := linked.next_apart tiles more
  rw [next]
  exact off d (by simp [member])

/-- `kfree`'s first merge is absorption of what follows. -/
theorem Linked.mergeNext (linked : Linked m prev (pre ++ b :: post) 0#32)
    (tiles : HeapTiling (pre ++ b :: post))
    (free : b.used = false) :
    Linked (mergeNext (addrOf b) m) prev (pre ++ absorb headerBytes b post) 0#32 ∧
      ∀ x, OffHeaders (pre ++ b :: post) x → Learnix.mergeNext (addrOf b) m x = m x := by
  obtain ⟨-, headB, behind⟩ := linked_append.mp linked
  cases post with
  | nil =>
      rw [mergeNext_of_busy fun more => absurd (by rw [headB]; rfl) more]
      exact ⟨linked, fun _ _ => rfl⟩
  | cons c cs =>
      obtain ⟨headC, -⟩ := behind
      have next : (header m (addrOf b)).next = addrOf c := by rw [headB]; rfl
      have usedC : (header m (addrOf c)).used = usedByte c.used := by rw [headC]
      rw [absorb_cons_cons]
      cases used : c.used with
      | true =>
          rw [mergeNext_of_busy fun _ => by rw [next, usedC, used]; decide]
          exact ⟨by simpa [free] using linked, fun _ _ => rfl⟩
      | false =>
          rw [if_pos ⟨free, rfl⟩]
          have merged : Merged m (Learnix.mergeNext (addrOf b) m) (addrOf b) (addrOf c) := by
            refine merged_mergeNext next (addrOf_ne_zero tiles (by simp))
              (by rw [usedC, used]; rfl)
              ((apart_of_append tiles).2 c List.mem_cons_self).symm fun more => ?_
            obtain ⟨d, -, behind, apart⟩ := linked.next_apart tiles more
            rw [behind]
            exact apart
          exact ⟨linked.merged tiles merged, merged.offHeaders linked tiles⟩

theorem lastAddr_concat {p : Block} : lastAddr prev (pre ++ [p]) = addrOf p := by
  induction pre generalizing prev with
  | nil => rfl
  | cons d ds ih => exact ih

/-- What `kfree`'s second merge makes of the blocks `l` and what precedes them. -/
def absorbLast (h : Nat) (pre l : List Block) : List Block :=
  match pre.getLast? with
  | none => l
  | some p => pre.dropLast ++ absorb h p l

theorem absorbLast_concat {h : Nat} {p : Block} :
    absorbLast h (pre ++ [p]) l = pre ++ absorb h p l := by
  simp [absorbLast]

/-- `kfree`'s second merge is absorption into what precedes. -/
theorem Linked.mergePrev (linked : Linked m 0#32 (pre ++ b :: post) 0#32)
    (tiles : HeapTiling (pre ++ b :: post))
    (free : b.used = false) :
    Linked (mergePrev (addrOf b) m) 0#32 (absorbLast headerBytes pre (b :: post)) 0#32 ∧
      ∀ x, OffHeaders (pre ++ b :: post) x → Learnix.mergePrev (addrOf b) m x = m x := by
  obtain ⟨before, headB, -⟩ := linked_append.mp linked
  rcases List.eq_nil_or_concat' pre with rfl | ⟨front, p, rfl⟩
  · rw [mergePrev_of_busy fun more => absurd (by rw [headB]; rfl) more]
    exact ⟨linked, fun _ _ => rfl⟩
  · rw [absorbLast_concat, absorb_cons_cons]
    rw [List.append_assoc, List.singleton_append] at linked tiles ⊢
    obtain ⟨-, headP, -⟩ := linked_append.mp before
    have prevP : (header m (addrOf b)).prev = addrOf p := by rw [headB]; exact lastAddr_concat
    have usedP : (header m (addrOf p)).used = usedByte p.used := by rw [headP]
    cases used : p.used with
    | true =>
        rw [mergePrev_of_busy fun _ => by rw [prevP, usedP, used]; decide]
        exact ⟨by simpa using linked, fun _ _ => rfl⟩
    | false =>
        rw [if_pos ⟨rfl, free⟩, ← used]
        have merged : Merged m (Learnix.mergePrev (addrOf b) m) (addrOf p) (addrOf b) := by
          refine merged_mergePrev prevP (addrOf_ne_zero tiles (by simp))
            (by rw [usedP, used]; rfl)
            ((apart_of_append tiles).2 b List.mem_cons_self).symm fun more => ?_
          obtain ⟨d, -, behind, apart⟩ := linked.next_apart tiles more
          rw [behind]
          exact apart
        exact ⟨linked.merged tiles merged, merged.offHeaders linked tiles⟩

/-! ### Changing the use of a block, and splitting it -/

theorem Linked.setUsed (linked : Linked m prev (pre ++ b :: post) next)
    (tiles : HeapTiling (pre ++ b :: post)) (used : Bool) :
    Linked (setUsed m (addrOf b) (usedByte used)) prev (pre ++ { b with used } :: post) next := by
  obtain ⟨before, head, behind⟩ := linked_append.mp linked
  obtain ⟨apartPre, apartPost⟩ := apart_of_append tiles
  refine linked_append.mpr ⟨before.frame fun c member => ?_, ?_, behind.frame fun c member => ?_⟩
  · exact header_setUsed_apart (apartPre c member)
  · exact header_setUsed.trans (by rw [head])
  · exact header_setUsed_apart (apartPost c member)

/-- A split in memory is a split in the tiling. -/
theorem Linked.splitBlock (size : Word) (linked : Linked m prev (pre ++ b :: post) 0#32)
    (tiles : HeapTiling (pre ++ b :: post)) (room : size.toNat + headerBytes ≤ b.size) :
    let rest : Block :=
      ⟨b.addr + headerBytes + size.toNat, b.size - size.toNat - headerBytes, false⟩
    Linked (splitBlock (addrOf b) size m) prev
        (pre ++ ⟨b.addr, size.toNat, b.used⟩ :: rest :: post) 0#32 ∧
      ∀ x, OffHeaders (pre ++ b :: post) x → ¬ Memory.InRange (addrOf rest) headerBytes x →
        Learnix.splitBlock (addrOf b) size m x = m x := by
  intro rest
  have bytes : headerBytes = 13 := rfl
  have tiles' : HeapTiling (pre ++ ⟨b.addr, size.toNat, b.used⟩ :: rest :: post) :=
    tiles.split room b.used
  obtain ⟨before, headB, behind⟩ := linked_append.mp linked
  have apartB := apart_of_append tiles'
  have tilesRest : HeapTiling ((pre ++ [⟨b.addr, size.toNat, b.used⟩]) ++ rest :: post) := by
    simpa using tiles'
  have apartRest := apart_of_append tilesRest
  have place : addrOf b + BitVec.ofNat 32 headerBytes + size = addrOf rest := by
    simp only [addrOf, rest, BitVec.ofNat_add, BitVec.ofNat_toNat, BitVec.setWidth_eq]
  have nextOf : (header m (addrOf b)).next = headAddr 0#32 post := by rw [headB]
  have apart : Apart (addrOf b) (addrOf rest) := (apartB.2 rest List.mem_cons_self).symm
  have nextApart : headAddr 0#32 post ≠ 0#32 →
      Apart (addrOf b) (headAddr 0#32 post) ∧ Apart (addrOf rest) (headAddr 0#32 post) := by
    intro more
    cases post with
    | nil => exact absurd rfl more
    | cons d ds => exact ⟨(apartB.2 d (by simp)).symm, (apartRest.2 d (by simp)).symm⟩
  obtain ⟨front, cut, back, frame⟩ := splitBlock_effect place nextOf apart nextApart
  -- a header apart from the ones that the split touches keeps its bytes
  have keep : ∀ d : Block, Apart (addrOf d) (addrOf b) → Apart (addrOf d) (addrOf rest) →
      (∀ e ∈ post.head?, Apart (addrOf d) (addrOf e)) →
      header (Learnix.splitBlock (addrOf b) size m) (addrOf d) = header m (addrOf d) := by
    intro d offB offRest offNext
    refine header_congr fun x inD => frame x (offB x inD) (offRest x inD) fun more => ?_
    cases post with
    | nil => exact absurd rfl more
    | cons e es => exact offNext e rfl x inD
  refine ⟨linked_append.mpr ⟨before.frame fun d member => ?_, ?_, ?_, ?_⟩, ?_⟩
  · refine keep d (apartB.1 d member) (apartRest.1 d (by simp [member])) fun e first => ?_
    have across := (List.pairwise_append.mp (pairwise_apart tiles)).2.2
    exact across d member e (by simp [List.mem_of_mem_head? first])
  · exact front.trans (by rw [headB]; simp [headAddr])
  · have sizes : BitVec.ofNat 32 b.size - size - BitVec.ofNat 32 headerBytes =
        BitVec.ofNat 32 (b.size - size.toNat - headerBytes) := by
      rw [← BitVec.ofNat_sub_ofNat_of_le _ _ (by decide) (by omega),
        ← BitVec.ofNat_sub_ofNat_of_le _ _ size.isLt (by omega), BitVec.ofNat_toNat,
        BitVec.setWidth_eq]
    exact cut.trans (by rw [headB, sizes]; rfl)
  · cases post with
    | nil => trivial
    | cons e es =>
        obtain ⟨headE, later⟩ := behind
        have apartE := (List.pairwise_append.mp (pairwise_apart tiles)).2.1.tail
        refine ⟨?_, later.frame fun d member => ?_⟩
        · refine (back (addrOf_ne_zero tiles (by simp))).trans ?_
          rw [headAddr, headE]
        · refine keep d (apartB.2 d (by simp [member])) (apartRest.2 d (by simp [member]))
            fun f first => ?_
          cases Option.some.inj first
          exact (List.rel_of_pairwise_cons apartE member).symm
  · intro x off offRest
    refine frame x (off b (by simp)) offRest fun more => ?_
    cases post with
    | nil => exact absurd rfl more
    | cons d ds => exact off d (by simp)

/-- `takeBlock` carves the block. It writes to headers, and inside the payload of
the block that is taken. -/
theorem Linked.takeBlock {size : Word} (linked : Linked m prev (pre ++ b :: post) 0#32)
    (tiles : HeapTiling (pre ++ b :: post)) (room : size.toNat ≤ b.size) :
    Linked (takeBlock (addrOf b) size m) prev
        (pre ++ carve headerBytes 4 size.toNat b ++ post) 0#32 ∧
      ∀ x, OffHeaders (pre ++ b :: post) x →
        ¬ Memory.InRange (addrOf b + BitVec.ofNat 32 headerBytes) b.size x →
          Learnix.takeBlock (addrOf b) size m x = m x := by
  have bytes : headerBytes = 13 := rfl
  have inside := heap_bounds tiles (b := b) (by simp)
  have atB := toNat_addrOf tiles (b := b) (by simp)
  have sizeB : (header m (addrOf b)).size.toNat = b.size := by
    rw [(linked_append.mp linked).2.1, BitVec.toNat_ofNat, Nat.mod_eq_of_lt (by omega)]
  have enough : size + BitVec.ofNat 32 headerBytes + 4#32 ≤ (header m (addrOf b)).size ↔
      size.toNat + headerBytes + 4 ≤ b.size := by
    rw [BitVec.le_def, sizeB, bytes]
    bv_omega
  unfold Learnix.takeBlock carve
  by_cases split : size.toNat + headerBytes + 4 ≤ b.size
  · rw [if_pos (enough.mpr split), if_pos split]
    obtain ⟨cut, frame⟩ := linked.splitBlock size tiles (by omega)
    have cutUsed := cut.setUsed (tiles.split (by omega) b.used) true
    refine ⟨by simpa [usedByte, addrOf] using cutUsed, fun x off outside => ?_⟩
    refine (setUsed_apply (off b (by simp))).trans (frame x off fun inRest => outside ?_)
    have atRest : (addrOf ⟨b.addr + headerBytes + size.toNat, b.size - size.toNat - headerBytes,
        false⟩).toNat = b.addr + headerBytes + size.toNat :=
      toNat_addrOf (tiles.split (n := size.toNat) (by omega) b.used) (by simp)
    have atPayload : (addrOf b + BitVec.ofNat 32 headerBytes).toNat = b.addr + headerBytes := by
      rw [BitVec.toNat_add, atB, bytes, Nat.mod_eq_of_lt]
      · rfl
      · simp only [BitVec.toNat_ofNat]
        omega
    rw [Memory.inRange_iff (by omega), atRest] at inRest
    rw [Memory.inRange_iff (by omega), atPayload]
    omega
  · rw [if_neg (mt enough.mp split), if_neg split]
    refine ⟨by simpa [usedByte] using linked.setUsed tiles true, fun x off _ => ?_⟩
    exact setUsed_apply (off b (by simp))

end Learnix
