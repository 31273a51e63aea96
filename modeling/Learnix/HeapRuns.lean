import Learnix.HeapRefinement
import Learnix.Lib.Run

/-!
# Runs of the heap

The kernel calls `kmalloc` and `kfree`, and the owner of a live allocation
stores bytes in its payload. `HeapStep` is one of these operations, legal for
its caller; its state carries the live allocations, each with the size that its
block had when `kmalloc` returned it, and the last byte that an owner stored at
an address since the allocation. `HeapInvariant` ties both to the tiling that
the memory represents, and survives every step (`HeapInvariant.step`).
-/

namespace Learnix

open Machine Tiling

/-! ## Operations -/

/-- One use of the heap. -/
inductive HeapOp
  | kmalloc (size : Word)
  | kfree (ptr : Word)
  | store (a : Word) (v : Byte)

/-- The heap, the live allocations, and what their owners last stored. -/
structure HeapRunState where
  heap : HeapState
  live : List (Word × Word)
  written : Word → Option Byte

/-- The size field of the block that `kmalloc` returned as `p`. -/
def blockSize (h : HeapState) (p : Word) : Word :=
  (header h.mem (p - BitVec.ofNat 32 headerBytes)).size

/-- `x` is an address in the payload of the live allocation `r`. -/
def Owns (r : Word × Word) (x : Word) : Prop := Memory.InRange r.1 r.2.toNat x

instance (r : Word × Word) (x : Word) : Decidable (Owns r x) :=
  inferInstanceAs (Decidable (Memory.InRange r.1 r.2.toNat x))

/-- What `kmalloc` returning `p` on the heap `h` adds to the live allocations. -/
def allocated (p : Word) (h : HeapState) : List (Word × Word) :=
  if p = 0#32 then [] else [(p, blockSize h p)]

/-- One legal operation. A pointer that is freed is null or live, and a byte is
stored in a live payload. -/
inductive HeapStep : HeapRunState → HeapOp → HeapRunState → Prop
  | kmalloc {s : HeapRunState} {size p : Word} {h : HeapState} :
    kmalloc size s.heap = some (p, h) →
    HeapStep s (.kmalloc size) ⟨h, allocated p h ++ s.live,
      fun x => if ∃ r ∈ allocated p h, Owns r x then none else s.written x⟩
  | kfree {s : HeapRunState} {p : Word} :
    (p = 0#32 ∨ ∃ n, (p, n) ∈ s.live) →
    HeapStep s (.kfree p) ⟨kfree p s.heap, s.live.filter (·.1 ≠ p), s.written⟩
  | store {s : HeapRunState} {a : Word} {v : Byte} :
    (∃ r ∈ s.live, Owns r a) →
    HeapStep s (.store a v) ⟨{ s.heap with mem := s.heap.mem.write8 a v }, s.live,
      fun x => if x = a then some v else s.written x⟩

/-- The state that `heap_init` leaves, on any memory. -/
def heapRunInit (s : HeapState) : HeapRunState := ⟨heapInit s, [], fun _ => none⟩

/-- What an operation does to the tiling. -/
def HeapOp.apply : HeapOp → List Block → List Block
  | .kmalloc size, l => (allocate size l).2
  | .kfree p, l => if p = 0#32 then l else release headerBytes (p.toNat - headerBytes) l
  | .store _ _, l => l

/-! ## The invariant -/

/-- The live allocation that a used block is. -/
def allocation (b : Block) : Word × Word := (payloadPtr b, BitVec.ofNat 32 b.size)

/-- The state is the tiling `l`: its used blocks are the live allocations, and
their payloads hold what their owners stored. -/
structure HeapInvariant (s : HeapRunState) (l : List Block) : Prop where
  represents : Represents s.heap l
  canonical : Canonical l
  live : ∀ r, r ∈ s.live ↔ ∃ b ∈ live l, r = allocation b
  distinct : (s.live.map Prod.fst).Nodup
  written : ∀ r ∈ s.live, ∀ x, Owns r x → ∀ v, s.written x = some v → s.heap.mem x = v

variable {s t : HeapRunState} {op : HeapOp} {b c : Block} {l : List Block} {x : Word}

theorem Linked.header_of_mem {m : Memory} {prev next : Word} (linked : Linked m prev l next)
    (member : b ∈ l) : (header m (addrOf b)).size = BitVec.ofNat 32 b.size := by
  obtain ⟨pre, post, rfl⟩ := List.append_of_mem member
  rw [(linked_append.mp linked).2.1]

theorem payloadPtr_inj (tiles : HeapTiling l) (left : b ∈ l) (right : c ∈ l)
    (same : payloadPtr b = payloadPtr c) : b = c := by
  have places := congrArg BitVec.toNat same
  rw [toNat_payloadPtr tiles left, toNat_payloadPtr tiles right] at places
  exact tiles.eq_of_addr_eq (by decide) left right (Nat.add_right_cancel places)

/-- The addresses of a block's payload. -/
theorem owns_allocation (tiles : HeapTiling l) (member : b ∈ l) :
    Owns (allocation b) x ↔ b.addr + headerBytes ≤ x.toNat ∧ x.toNat < b.stop headerBytes := by
  have inside := heap_bounds tiles member
  have place := toNat_payloadPtr tiles member
  have bytes : headerBytes = 13 := rfl
  have size : (BitVec.ofNat 32 b.size).toNat = b.size := by
    rw [BitVec.toNat_ofNat, Nat.mod_eq_of_lt (by omega)]
  rw [Owns, allocation, size, Memory.inRange_iff (by rw [place]; omega), place, Block.stop]

/-- A payload contains no header and meets no other payload. -/
theorem owns_apart (tiles : HeapTiling l) (member : b ∈ l) (owns : Owns (allocation b) x) :
    OffHeaders l x ∧ ∀ c ∈ l, Owns (allocation c) x → c = b := by
  have inB := (owns_allocation tiles member).mp owns
  unfold Block.stop at inB
  refine ⟨fun c memberC inC => ?_, fun c memberC inC => ?_⟩
  · have place := toNat_addrOf tiles memberC
    have inside := heap_bounds tiles memberC
    have bytes : headerBytes = 13 := rfl
    rw [Memory.inRange_iff (by omega), place] at inC
    rcases tiles.eq_or_apart member memberC with rfl | before | behind
    · omega
    · unfold Block.stop at before; omega
    · unfold Block.stop at behind; omega
  · have inC := (owns_allocation tiles memberC).mp inC
    unfold Block.stop at inC
    rcases tiles.eq_or_apart memberC member with same | before | behind
    · exact same
    · unfold Block.stop at before; omega
    · unfold Block.stop at behind; omega

theorem owns_allocation_iff (tiles : HeapTiling l) (member : b ∈ l) :
    Owns (allocation b) x ↔ Memory.InRange (payloadPtr b) b.size x := by
  have inside := heap_bounds tiles member
  rw [Owns, allocation, BitVec.toNat_ofNat, Nat.mod_eq_of_lt (by omega)]

/-! ## Each operation keeps the invariant -/

theorem canonical_allocate {size : Word} (canonical : Canonical l) :
    Canonical (allocate size l).2 := by
  rcases allocate_cases size l with none | ⟨pre, b, post, rfl, free, -, some⟩
  · rwa [none]
  · rw [some]
    exact canonical.carve free

/-- The used blocks after `kmalloc` are those before, and the one it returned. -/
theorem Represents.live_allocate {size : Word} {h : HeapState} (tiles : HeapTiling l)
    (represents : Represents h (allocate size l).2) (r : Word × Word) :
    (∃ b ∈ Tiling.live (allocate size l).2, r = allocation b) ↔
      r ∈ allocated (allocate size l).1 h ∨ ∃ b ∈ Tiling.live l, r = allocation b := by
  rcases allocate_cases size l with none | ⟨pre, b, post, rfl, free, -, some⟩
  · rw [none]
    simp [allocated]
  · rw [some] at represents ⊢
    have notNull := payloadPtr_ne_zero tiles (b := b) (by simp)
    let b' : Block := ⟨b.addr, carvedSize headerBytes 4 (alignSize size).toNat b, true⟩
    have liveNow : Tiling.live (carve headerBytes 4 (alignSize size).toNat b) = [b'] := live_carve
    have memberNow : b' ∈ pre ++ carve headerBytes 4 (alignSize size).toNat b ++ post := by
      have := (mem_live.mp (liveNow ▸ List.mem_singleton_self b')).1
      simp [this]
    have sizeNow : blockSize h (payloadPtr b) = BitVec.ofNat 32 b'.size := by
      rw [blockSize, payloadPtr_sub]
      exact represents.linked.header_of_mem memberNow
    have new : allocated (payloadPtr b) h = [allocation b'] := by
      rw [allocated, if_neg notNull, sizeNow]
      rfl
    rw [new]
    simp only [live_append, liveNow, live_cons_free free, List.mem_append, List.mem_singleton]
    constructor
    · rintro ⟨c, (early | rfl) | late, rfl⟩
      · exact .inr ⟨c, .inl early, rfl⟩
      · exact .inl rfl
      · exact .inr ⟨c, .inr late, rfl⟩
    · rintro (rfl | ⟨c, early | late, rfl⟩)
      · exact ⟨b', .inl (.inr rfl), rfl⟩
      · exact ⟨c, .inl (.inl early), rfl⟩
      · exact ⟨c, .inr late, rfl⟩

/-- The block that `kmalloc` returns holds what was asked for. -/
theorem Represents.le_blockSize {size : Word} {h : HeapState} (tiles : HeapTiling l)
    (represents : Represents h (allocate size l).2) (some_ : (allocate size l).1 ≠ 0#32) :
    (alignSize size).toNat ≤ (blockSize h (allocate size l).1).toNat := by
  rcases allocate_cases size l with none | ⟨pre, b, post, rfl, -, room, some⟩
  · rw [none] at some_
    exact absurd rfl some_
  · rw [some] at represents ⊢
    let b' : Block := ⟨b.addr, carvedSize headerBytes 4 (alignSize size).toNat b, true⟩
    have memberCarved : b' ∈ carve headerBytes 4 (alignSize size).toNat b :=
      (mem_live.mp (live_carve ▸ List.mem_singleton_self b')).1
    have memberNow : b' ∈ pre ++ carve headerBytes 4 (alignSize size).toNat b ++ post := by
      simp [memberCarved]
    have inside := heap_bounds tiles (b := b) (by simp)
    have between : (alignSize size).toNat ≤ b'.size ∧ b'.size ≤ b.size := by
      dsimp only [b', carvedSize]
      split <;> omega
    rw [blockSize, payloadPtr_sub]
    have size_ := represents.linked.header_of_mem memberNow
    have same : addrOf b' = addrOf b := rfl
    rw [← same, size_, BitVec.toNat_ofNat, Nat.mod_eq_of_lt (by omega)]
    exact between.1

/-- `kmalloc` changes no byte of a live payload. -/
theorem HeapInvariant.kmalloc_frame {size p : Word} {h : HeapState} (inv : HeapInvariant s l)
    (call : kmalloc size s.heap = some (p, h)) :
    ∀ r ∈ s.live, ∀ x, Owns r x → h.mem x = s.heap.mem x := by
  have tiles := inv.represents.tiles
  obtain ⟨-, -, frame⟩ := inv.represents.kmalloc_returned call
  intro r member x owns
  obtain ⟨b, liveB, rfl⟩ := (inv.live r).mp member
  obtain ⟨memberB, usedB⟩ := mem_live.mp liveB
  obtain ⟨off, only⟩ := owns_apart tiles memberB owns
  refine frame x off fun c memberC freeC inC => ?_
  have := only c memberC ((owns_allocation_iff tiles memberC).mpr inC)
  rw [this, usedB] at freeC
  cases freeC

/-- `kmalloc` returns no pointer that is live. -/
theorem HeapInvariant.kmalloc_fresh {size p : Word} {h : HeapState} (inv : HeapInvariant s l)
    (call : kmalloc size s.heap = some (p, h)) :
    ((allocated p h ++ s.live).map Prod.fst).Nodup := by
  have tiles := inv.represents.tiles
  obtain ⟨rfl, -, -⟩ := inv.represents.kmalloc_returned call
  rcases allocate_cases size l with none | ⟨pre, b, post, shape, free, -, some⟩
  · rw [none]
    exact inv.distinct
  · have memberB : b ∈ l := by rw [shape]; simp
    rw [some, allocated, if_neg (payloadPtr_ne_zero tiles memberB)]
    refine List.nodup_cons.mpr ⟨fun taken => ?_, inv.distinct⟩
    obtain ⟨r, member, same⟩ := List.mem_map.mp taken
    obtain ⟨c, liveC, rfl⟩ := (inv.live r).mp member
    obtain ⟨memberC, usedC⟩ := mem_live.mp liveC
    rw [payloadPtr_inj tiles memberC memberB same, free] at usedC
    cases usedC

theorem HeapInvariant.kmalloc {size p : Word} {h : HeapState} (inv : HeapInvariant s l)
    (call : kmalloc size s.heap = some (p, h)) :
    HeapInvariant ⟨h, allocated p h ++ s.live,
      fun x => if ∃ r ∈ allocated p h, Owns r x then none else s.written x⟩
      (allocate size l).2 := by
  have frame := inv.kmalloc_frame call
  have distinct := inv.kmalloc_fresh call
  obtain ⟨rfl, represents, -⟩ := inv.represents.kmalloc_returned call
  refine ⟨represents, canonical_allocate inv.canonical, fun r => ?_, distinct,
    fun r member x owns v wrote => ?_⟩
  · rw [represents.live_allocate inv.represents.tiles, List.mem_append, inv.live]
  · simp only at wrote
    split at wrote
    · cases wrote
    · next old =>
      rcases List.mem_append.mp member with new | live
      · exact absurd ⟨r, new, owns⟩ old
      · rw [frame r live x owns]
        exact inv.written r live x owns v wrote

/-- What `kmalloc` returns may be freed. -/
theorem mem_allocated_or_null (p : Word) (h : HeapState) (live : List (Word × Word)) :
    p = 0#32 ∨ ∃ n, (p, n) ∈ allocated p h ++ live := by
  by_cases null : p = 0#32
  · exact .inl null
  · exact .inr ⟨blockSize h p, by simp [allocated, null]⟩

/-- The live allocations after what `kmalloc` returned is freed again. -/
theorem HeapInvariant.mem_filter_allocated {size p : Word} {h : HeapState}
    (inv : HeapInvariant s l) (call : Learnix.kmalloc size s.heap = some (p, h))
    (r : Word × Word) : r ∈ (allocated p h ++ s.live).filter (·.1 ≠ p) ↔ r ∈ s.live := by
  have distinct := inv.kmalloc_fresh call
  by_cases null : p = 0#32
  · subst null
    have notNull : r ∈ s.live → r.1 ≠ 0#32 := fun member => by
      obtain ⟨b, liveB, rfl⟩ := (inv.live r).mp member
      exact payloadPtr_ne_zero inv.represents.tiles (mem_live.mp liveB).1
    simpa [allocated] using notNull
  · rw [allocated, if_neg null, List.singleton_append, List.map_cons, List.nodup_cons] at distinct
    have other : r ∈ s.live → r.1 ≠ p := fun member same =>
      distinct.1 (List.mem_map.mpr ⟨r, member, same⟩)
    have new : ∀ n, r = (p, n) → r.1 = p := fun n eq => congrArg Prod.fst eq
    simp only [allocated, if_neg null, List.singleton_append, List.mem_filter, List.mem_cons,
      decide_eq_true_iff]
    constructor
    · rintro ⟨eq | member, ne⟩
      · exact absurd (new _ eq) ne
      · exact member
    · exact fun member => ⟨.inr member, other member⟩

/-- A live pointer is the payload of a used block. -/
theorem HeapInvariant.block_of_live {p n : Word} (inv : HeapInvariant s l)
    (live : (p, n) ∈ s.live) : ∃ b ∈ l, b.used = true ∧ p = payloadPtr b := by
  obtain ⟨b, liveB, eq⟩ := (inv.live (p, n)).mp live
  exact ⟨b, (mem_live.mp liveB).1, (mem_live.mp liveB).2, congrArg Prod.fst eq⟩

/-- `kfree` changes no byte of a live payload. -/
theorem HeapInvariant.kfree_frame {p : Word} (inv : HeapInvariant s l)
    (legal : p = 0#32 ∨ ∃ n, (p, n) ∈ s.live) :
    ∀ r ∈ s.live, ∀ x, Owns r x → (kfree p s.heap).mem x = s.heap.mem x := by
  intro r member x owns
  rcases legal with rfl | ⟨n, live⟩
  · rfl
  · obtain ⟨b, memberB, -, rfl⟩ := inv.block_of_live live
    obtain ⟨c, liveC, rfl⟩ := (inv.live r).mp member
    have off := (owns_apart inv.represents.tiles (mem_live.mp liveC).1 owns).1
    exact (inv.represents.kfree inv.canonical memberB).2.2 x off

theorem HeapInvariant.kfree {p : Word} (inv : HeapInvariant s l)
    (legal : p = 0#32 ∨ ∃ n, (p, n) ∈ s.live) :
    HeapInvariant ⟨Learnix.kfree p s.heap, s.live.filter (·.1 ≠ p), s.written⟩
      ((HeapOp.kfree p).apply l) := by
  have frame := inv.kfree_frame legal
  have tiles := inv.represents.tiles
  have written : ∀ r ∈ s.live.filter (·.1 ≠ p), ∀ x, Owns r x → ∀ v, s.written x = some v →
      (Learnix.kfree p s.heap).mem x = v := by
    intro r member x owns v wrote
    have live := (List.mem_filter.mp member).1
    rw [frame r live x owns]
    exact inv.written r live x owns v wrote
  have distinct : ((s.live.filter (·.1 ≠ p)).map Prod.fst).Nodup :=
    inv.distinct.sublist (List.filter_sublist.map _)
  by_cases null : p = 0#32
  · subst null
    refine ⟨inv.represents, inv.canonical, fun r => ?_, distinct, written⟩
    rw [HeapOp.apply, if_pos rfl, ← inv.live, List.mem_filter, and_iff_left_iff_imp]
    intro member
    obtain ⟨b, liveB, rfl⟩ := (inv.live r).mp member
    exact decide_eq_true (payloadPtr_ne_zero tiles (mem_live.mp liveB).1)
  · obtain ⟨n, live⟩ := legal.resolve_left null
    obtain ⟨b, memberB, usedB, rfl⟩ := inv.block_of_live live
    have place : (payloadPtr b).toNat - headerBytes = b.addr := by
      rw [toNat_payloadPtr tiles memberB, Nat.add_sub_cancel]
    rw [HeapOp.apply, if_neg null, place]
    refine ⟨(inv.represents.kfree inv.canonical memberB).1, inv.canonical.release, fun r => ?_,
      distinct, written⟩
    have remaining : ∀ c, c ∈ Tiling.live (release headerBytes b.addr l) ↔
        c ∈ Tiling.live l ∧ c ≠ b := fun c => mem_live_release tiles (by decide) memberB usedB
    rw [List.mem_filter, inv.live]
    constructor
    · rintro ⟨⟨c, liveC, rfl⟩, other⟩
      refine ⟨c, (remaining c).mpr ⟨liveC, ?_⟩, rfl⟩
      rintro rfl
      simp [allocation] at other
    · rintro ⟨c, liveC, rfl⟩
      obtain ⟨live, ne⟩ := (remaining c).mp liveC
      exact ⟨⟨c, live, rfl⟩, decide_eq_true fun same =>
        ne (payloadPtr_inj tiles (mem_live.mp live).1 memberB same)⟩

/-- A byte stored in a live payload is no byte of a header. -/
theorem HeapInvariant.store {a : Word} {v : Byte} (inv : HeapInvariant s l)
    (legal : ∃ r ∈ s.live, Owns r a) :
    HeapInvariant ⟨{ s.heap with mem := s.heap.mem.write8 a v }, s.live,
      fun x => if x = a then some v else s.written x⟩ l := by
  obtain ⟨r, member, owns⟩ := legal
  obtain ⟨b, liveB, rfl⟩ := (inv.live r).mp member
  obtain ⟨off, -⟩ := owns_apart inv.represents.tiles (mem_live.mp liveB).1 owns
  obtain ⟨⟨start, tiles, linked⟩, canonical, live, distinct, written⟩ := inv
  refine ⟨⟨start, tiles, linked.frame fun c memberC => ?_⟩, canonical, live, distinct,
    fun r member x owns w wrote => ?_⟩
  · exact header_congr fun x inC => Memory.write8_apply_of_ne fun eq => off c memberC (eq ▸ inC)
  · simp only at wrote ⊢
    split at wrote
    · next here =>
      rw [here, Memory.write8_self]
      exact Option.some.inj wrote
    · next elsewhere =>
      rw [Memory.write8_apply_of_ne elsewhere]
      exact written r member x owns w wrote

/-- A word stored in a live payload. -/
theorem HeapInvariant.store32 {a v : Word} {r : Word × Word} (inv : HeapInvariant s l)
    (member : r ∈ s.live) (owns : ∀ x, Memory.InRange a 4 x → Owns r x) :
    ∃ t, HeapInvariant t l ∧ t.heap = { s.heap with mem := s.heap.mem.write32 a v } ∧
      t.live = s.live := by
  have at_ : ∀ i : Word, i.toNat < 4 → Owns r (a + i) := fun i small => by
    apply owns
    rw [Memory.InRange, BitVec.add_comm, BitVec.add_sub_cancel]
    exact small
  have first : Owns r a := by simpa using at_ 0#32 (by decide)
  have inv₀ := inv.store (v := v.extractLsb' 0 8) ⟨r, member, first⟩
  have inv₁ := inv₀.store (v := v.extractLsb' 8 8) ⟨r, member, at_ 1#32 (by decide)⟩
  have inv₂ := inv₁.store (v := v.extractLsb' 16 8) ⟨r, member, at_ 2#32 (by decide)⟩
  have inv₃ := inv₂.store (v := v.extractLsb' 24 8) ⟨r, member, at_ 3#32 (by decide)⟩
  exact ⟨_, inv₃, rfl, rfl⟩

/-- **Step lemma.** Every legal operation keeps the invariant, and does to the
tiling what `apply` says. -/
theorem HeapInvariant.step (inv : HeapInvariant s l) (step : HeapStep s op t) :
    HeapInvariant t (op.apply l) := by
  cases step with
  | kmalloc call => exact inv.kmalloc call
  | kfree legal => exact inv.kfree legal
  | store legal => exact inv.store legal

/-- `kmalloc` is always possible. -/
theorem HeapInvariant.exists_kmalloc (inv : HeapInvariant s l) (size : Word) :
    ∃ t, HeapStep s (.kmalloc size) t ∧ HeapInvariant t (allocate size l).2 := by
  obtain ⟨h, call, -, -⟩ := inv.represents.kmalloc size
  exact ⟨_, .kmalloc call, inv.kmalloc call⟩

theorem heapInvariant_init (s : HeapState) :
    HeapInvariant (heapRunInit s) [⟨heapStart, heapSize - headerBytes, false⟩] where
  represents := represents_heapInit s
  canonical := List.isChain_singleton _
  live := by simp [heapRunInit, Tiling.live]
  distinct := List.nodup_nil
  written := by simp [heapRunInit]

/-- **Run lemma.** -/
theorem HeapInvariant.run {tr : List (Sys.Event HeapRunState HeapOp)} (inv : HeapInvariant s l)
    (run : Sys.Run HeapStep s tr t) : ∃ l, HeapInvariant t l :=
  run.invariant (I := fun s => ∃ l, HeapInvariant s l) ⟨l, inv⟩
    fun ⟨_, inv⟩ step => ⟨_, inv.step step⟩

end Learnix
