import Learnix.HeapRuns

/-!
# What every run of the heap keeps

Three results about runs of `kmalloc`, `kfree` and owner stores from
`heap_init`, in terms of the raw block list and the raw bytes: the list tiles
the heap and its used blocks are the live allocations
(`heap_integrity_iff`), payload bytes are changed by their owners only
(`heap_payloads`), and the list is a function of the live allocations
(`heap_canonical`).
-/

namespace Learnix

open Machine Tiling

/-! ## The raw block list of a tiling -/

/-- The raw block list tiles the heap, is linked both ways, and its used blocks
are the live allocations with the address and size they were returned with. -/
structure BlockListInvariant (live : List (Word × Word)) (bs : List (Word × BlockHeader)) :
    Prop where
  first : ∃ x ∈ bs.head?, x.1 = BitVec.ofNat 32 heapStart ∧ x.2.prev = 0#32
  links : bs.IsChain fun x y => x.2.next = y.1 ∧ y.2.prev = x.1 ∧
    y.1.toNat = x.1.toNat + headerBytes + x.2.size.toNat
  last : ∃ x ∈ bs.getLast?, x.2.next = 0#32 ∧
    x.1.toNat + headerBytes + x.2.size.toNat = heapStart + heapSize
  flags : ∀ x ∈ bs, x.2.used = 0#8 ∨ x.2.used = 1#8
  live : ∀ p n, (p, n) ∈ live ↔
    ∃ x ∈ bs, x.2.used = 1#8 ∧ p = x.1 + BitVec.ofNat 32 headerBytes ∧ n = x.2.size

/-- The state of the heap is sound: its block list is, every traversal of the list
ends, and the live payloads are disjoint and inside the heap. -/
structure HeapIntegrity (s : HeapRunState) : Prop where
  list : ∃ bs, s.heap.blocks = some bs ∧ BlockListInvariant s.live bs
  scan : ∀ size, ∃ r, kmalloc size s.heap = some r
  distinct : (s.live.map Prod.fst).Nodup
  disjoint : ∀ r ∈ s.live, ∀ q ∈ s.live, r ≠ q → Memory.Sep r.1 r.2.toNat q.1 q.2.toNat
  inside : ∀ r ∈ s.live, heapStart ≤ r.1.toNat ∧ r.1.toNat + r.2.toNat ≤ heapStart + heapSize

variable {s t : HeapRunState} {l : List Block} {b : Block} {prev : Word}

/-- The words for the addresses and sizes of the blocks are those numbers. -/
def Fitting (l : List Block) : Prop :=
  ∀ b ∈ l, (addrOf b).toNat = b.addr ∧ (BitVec.ofNat 32 b.size).toNat = b.size

theorem fitting (tiles : HeapTiling l) : Fitting l := fun b member => by
  have inside := heap_bounds tiles member
  exact ⟨toNat_addrOf tiles member, by rw [BitVec.toNat_ofNat, Nat.mod_eq_of_lt (by omega)]⟩

theorem encode_links {lo hi : Nat} (tiles : Tiles headerBytes lo hi l) (fits : Fitting l) :
    (encode prev l).IsChain fun x y => x.2.next = y.1 ∧ y.2.prev = x.1 ∧
      y.1.toNat = x.1.toNat + headerBytes + x.2.size.toNat := by
  induction l generalizing prev lo with
  | nil => exact .nil
  | cons b bs ih =>
      obtain ⟨-, rest⟩ := tiles
      have later := @ih (addrOf b) _ rest fun c member => fits c (List.mem_cons_of_mem _ member)
      cases bs with
      | nil => exact List.isChain_singleton _
      | cons c cs =>
          refine List.isChain_cons_cons.mpr ⟨⟨rfl, rfl, ?_⟩, later⟩
          have fitB := fits b (by simp)
          have fitC := fits c (by simp)
          simp only [fitB, fitC]
          exact rest.1

theorem encode_last {lo hi : Nat} (tiles : Tiles headerBytes lo hi l) (fits : Fitting l)
    (some_ : l ≠ []) :
    ∃ x ∈ (encode prev l).getLast?, x.2.next = 0#32 ∧
      x.1.toNat + headerBytes + x.2.size.toNat = hi := by
  induction l generalizing prev lo with
  | nil => exact absurd rfl some_
  | cons b bs ih =>
      obtain ⟨-, rest⟩ := tiles
      cases bs with
      | nil =>
          have fitB := fits b (by simp)
          refine ⟨(addrOf b, ⟨BitVec.ofNat 32 b.size, usedByte b.used, 0#32, prev⟩), rfl, rfl, ?_⟩
          simp only [fitB]
          exact rest
      | cons c cs =>
          obtain ⟨x, lastX, facts⟩ := @ih (addrOf b) _ rest
            (fun d member => fits d (List.mem_cons_of_mem _ member)) (by simp)
          refine ⟨x, ?_, facts⟩
          rw [encode, encode, List.getLast?_cons_cons]
          exact lastX

theorem mem_encode {x : Word × BlockHeader} (member : x ∈ encode prev l) :
    ∃ b ∈ l, x.1 = addrOf b ∧ x.2.used = usedByte b.used ∧ x.2.size = BitVec.ofNat 32 b.size := by
  induction l generalizing prev with
  | nil => cases member
  | cons b bs ih =>
      rcases List.mem_cons.mp member with rfl | later
      · exact ⟨b, by simp, rfl, rfl, rfl⟩
      · rcases ih later with ⟨c, memberC, facts⟩
        exact ⟨c, by simp [memberC], facts⟩

theorem exists_mem_encode (prev : Word) (member : b ∈ l) :
    ∃ x ∈ encode prev l, x.1 = addrOf b ∧ x.2.used = usedByte b.used ∧
      x.2.size = BitVec.ofNat 32 b.size := by
  induction l generalizing prev with
  | nil => cases member
  | cons c cs ih =>
      rcases List.mem_cons.mp member with rfl | later
      · exact ⟨_, List.mem_cons_self, rfl, rfl, rfl⟩
      · rcases @ih (addrOf c) later with ⟨x, memberX, facts⟩
        exact ⟨x, List.mem_cons_of_mem _ memberX, facts⟩

theorem HeapInvariant.blockList (inv : HeapInvariant s l) :
    BlockListInvariant s.live (encode 0#32 l) := by
  have tiles := inv.represents.tiles
  have fits := fitting tiles
  have some_ : l ≠ [] := fun none => by rw [none] at tiles; cases tiles
  refine ⟨?_, encode_links tiles fits, encode_last tiles fits some_, fun x member => ?_,
    fun p n => ?_⟩
  · cases l with
    | nil => exact absurd rfl some_
    | cons b bs => exact ⟨_, rfl, by rw [addrOf, tiles.1], rfl⟩
  · rcases mem_encode member with ⟨b, -, -, used, -⟩
    rw [used]
    cases b.used
    · exact .inl rfl
    · exact .inr rfl
  · rw [inv.live]
    constructor
    · rintro ⟨b, liveB, eq⟩
      rcases mem_live.mp liveB with ⟨memberB, usedB⟩
      rcases exists_mem_encode 0#32 memberB with ⟨x, memberX, place, used, size⟩
      rcases Prod.mk.inj eq with ⟨rfl, rfl⟩
      refine ⟨x, memberX, by rw [used, usedB]; rfl, ?_, size.symm⟩
      rw [place, payloadPtr, BitVec.ofNat_add, addrOf]
    · rintro ⟨x, memberX, usedX, rfl, rfl⟩
      rcases mem_encode memberX with ⟨b, memberB, place, used, size⟩
      have usedB : b.used = true := by
        rw [used] at usedX
        cases busy : b.used
        · rw [busy] at usedX; cases usedX
        · rfl
      refine ⟨b, mem_live.mpr ⟨memberB, usedB⟩, ?_⟩
      rw [place, size, allocation, payloadPtr, BitVec.ofNat_add, addrOf]

theorem HeapInvariant.integrity (inv : HeapInvariant s l) : HeapIntegrity s := by
  have tiles := inv.represents.tiles
  refine ⟨⟨_, inv.represents.blocks_eq, inv.blockList⟩, fun size => ?_, inv.distinct,
    fun r memberR q memberQ ne x inR inQ => ?_, fun r member => ?_⟩
  · rcases inv.represents.kmalloc size with ⟨h, call, -⟩
    exact ⟨_, call⟩
  · rcases (inv.live r).mp memberR with ⟨b, liveB, rfl⟩
    rcases (inv.live q).mp memberQ with ⟨c, liveC, rfl⟩
    have same := (owns_apart tiles (mem_live.mp liveB).1 inR).2 c (mem_live.mp liveC).1 inQ
    exact ne (by rw [same])
  · rcases (inv.live r).mp member with ⟨b, liveB, rfl⟩
    have memberB := (mem_live.mp liveB).1
    have inside := heap_bounds tiles memberB
    have place := toNat_payloadPtr tiles memberB
    have size := (fitting tiles b memberB).2
    have bytes : headerBytes = 13 := rfl
    have start : heapStart = 0x200000 := rfl
    have length : heapSize = 0x100000 := rfl
    simp only [allocation, place, size]
    omega

/-! ## Soundness of the block list -/

/-- No size or address that the operation computes wraps. -/
def HeapOp.Exact : HeapOp → HeapState → Prop
  | .kmalloc size, h => KmallocExact size h
  | .kfree p, h => KfreeExact p h
  | .store _ _, _ => True

/-- A request can be rounded up to a multiple of four within 32 bits. -/
def HeapOp.Roundable : HeapOp → Prop
  | .kmalloc size => size ≤ 0xFFFFFFFC#32
  | _ => True

theorem HeapInvariant.exact_iff {op : HeapOp} (inv : HeapInvariant s l) (step : HeapStep s op t) :
    op.Exact s.heap ↔ op.Roundable := by
  cases step with
  | kmalloc call => exact inv.represents.kmallocExact_iff _
  | kfree legal =>
      refine iff_of_true ?_ trivial
      rcases legal with rfl | ⟨n, live⟩
      · exact fun notNull => absurd rfl notNull
      · rcases inv.block_of_live live with ⟨b, memberB, -, rfl⟩
        exact (inv.represents.kfree inv.canonical memberB).2.1
  | store legal => exact Iff.rfl

/-- In every run the block list is sound in every state; and no computation of the
run wraps if and only if no request is too large to be rounded up. -/
theorem heap_integrity_iff {h : HeapState} {tr : List (Sys.Event HeapRunState HeapOp)}
    (run : Sys.Run HeapStep (heapRunInit h) tr t) :
    (HeapIntegrity t ∧ ∀ e ∈ tr, HeapIntegrity e.pre ∧ HeapIntegrity e.post ∧
        e.op.Exact e.pre.heap) ↔
      ∀ e ∈ tr, e.op.Roundable := by
  have start : ∃ l, HeapInvariant (heapRunInit h) l := ⟨_, heapInvariant_init h⟩
  have keeps : ∀ {s op u}, (∃ l, HeapInvariant s l) → HeapStep s op u → ∃ l, HeapInvariant u l :=
    fun ⟨_, inv⟩ step => ⟨_, inv.step step⟩
  constructor
  · rintro ⟨-, sound⟩ e member
    rcases run.invariant_of_mem member start keeps with ⟨⟨l, inv⟩, step, -⟩
    exact (inv.exact_iff step).mp (sound e member).2.2
  · intro small
    rcases run.invariant start keeps with ⟨l, inv⟩
    refine ⟨inv.integrity, fun e member => ?_⟩
    rcases run.invariant_of_mem member start keeps with ⟨⟨l, pre⟩, step, ⟨l', post⟩⟩
    exact ⟨pre.integrity, post.integrity, (pre.exact_iff step).mpr (small e member)⟩

/-- A heap in blank memory. -/
def blankHeap : HeapState := ⟨fun _ => 0#8, 0#32⟩

/-- The run of one `kmalloc` on a blank heap. -/
theorem exists_run_kmalloc (size : Word) :
    ∃ t, Sys.Run HeapStep (heapRunInit blankHeap) [⟨heapRunInit blankHeap, .kmalloc size, t⟩] t ∧
      HeapInvariant t (allocate size [⟨heapStart, heapSize - headerBytes, false⟩]).2 := by
  rcases (heapInvariant_init blankHeap).exists_kmalloc size with ⟨t, step, inv⟩
  exact ⟨t, .snoc .nil step, inv⟩

theorem heap_integrity_iff_five :
    ∃ t, Sys.Run HeapStep (heapRunInit blankHeap) [⟨heapRunInit blankHeap, .kmalloc 5#32, t⟩] t ∧
      HeapIntegrity t ∧ HeapOp.Exact (.kmalloc 5#32) (heapInit blankHeap) := by
  rcases exists_run_kmalloc 5#32 with ⟨t, run, -⟩
  obtain ⟨sound, steps⟩ := (heap_integrity_iff run).mpr fun e member => by
    rw [List.mem_singleton] at member
    subst member
    exact (by decide : 5#32 ≤ 0xFFFFFFFC#32)
  exact ⟨t, run, sound, (steps _ (List.mem_singleton_self _)).2.2⟩

/-- Rounding up `0xFFFFFFFF` wraps to zero, and `kmalloc` hands out a block of no
bytes for it. -/
theorem kmalloc_wraps :
    ∃ t, Sys.Run HeapStep (heapRunInit blankHeap)
        [⟨heapRunInit blankHeap, .kmalloc 0xFFFFFFFF#32, t⟩] t ∧
      (0x20000D#32, 0#32) ∈ t.live ∧
      ¬ HeapOp.Exact (.kmalloc 0xFFFFFFFF#32) (heapInit blankHeap) := by
  rcases exists_run_kmalloc 0xFFFFFFFF#32 with ⟨t, run, inv⟩
  refine ⟨t, run, (inv.live _).mpr ⟨⟨0x200000, 0, true⟩, by decide, rfl⟩, fun exact_ => ?_⟩
  have small := ((represents_heapInit blankHeap).kmallocExact_iff _).mp exact_
  exact absurd small (by decide)

/-! ## Payload bytes -/

/-- Owners' bytes survive: in every state a live payload holds what its owner last
stored, no `kmalloc` or `kfree` changes a byte of a payload that is live, and no
store changes the block list. -/
theorem heap_payloads {h : HeapState} {tr : List (Sys.Event HeapRunState HeapOp)}
    (run : Sys.Run HeapStep (heapRunInit h) tr t) :
    (∀ r ∈ t.live, ∀ x, Owns r x → ∀ v, t.written x = some v → t.heap.mem x = v) ∧
      ∀ e ∈ tr, match e.op with
        | .store _ _ => ∃ bs, e.pre.heap.blocks = some bs ∧ e.post.heap.blocks = some bs
        | _ => ∀ r ∈ e.pre.live, ∀ x, Owns r x → e.post.heap.mem x = e.pre.heap.mem x := by
  have start : ∃ l, HeapInvariant (heapRunInit h) l := ⟨_, heapInvariant_init h⟩
  have keeps : ∀ {s op u}, (∃ l, HeapInvariant s l) → HeapStep s op u → ∃ l, HeapInvariant u l :=
    fun ⟨_, inv⟩ step => ⟨_, inv.step step⟩
  rcases run.invariant start keeps with ⟨l, inv⟩
  refine ⟨inv.written, fun e member => ?_⟩
  rcases e with ⟨s, op, u⟩
  obtain ⟨⟨l, pre⟩, (step : HeapStep s op u), -⟩ := run.invariant_of_mem member start keeps
  cases step with
  | kmalloc call => exact pre.kmalloc_frame call
  | kfree legal => exact pre.kfree_frame legal
  | store legal => exact ⟨_, pre.represents.blocks_eq, (pre.store legal).represents.blocks_eq⟩

theorem heap_payloads_seven :
    ∃ t u, Sys.Run HeapStep (heapRunInit blankHeap)
        [⟨heapRunInit blankHeap, .kmalloc 5#32, t⟩, ⟨t, .store 0x20000D#32 7#8, u⟩] u ∧
      (0x20000D#32, 8#32) ∈ u.live ∧ u.heap.mem 0x20000D#32 = 7#8 := by
  rcases exists_run_kmalloc 5#32 with ⟨t, run, inv⟩
  have live : (0x20000D#32, 8#32) ∈ t.live :=
    (inv.live _).mpr ⟨⟨0x200000, 8, true⟩, by decide, rfl⟩
  have owned : Owns (0x20000D#32, 8#32) 0x20000D#32 := by decide
  have run' := run.snoc (.store (v := 7#8) ⟨_, live, owned⟩)
  exact ⟨t, _, run', live, (heap_payloads run').1 _ live _ owned _ rfl⟩

/-! ## The block list is a function of the live allocations -/

theorem allocation_inj {l' : List Block} {c : Block} (tiles : HeapTiling l) (left : b ∈ live l)
    (tiles' : HeapTiling l') (right : c ∈ live l') (same : allocation b = allocation c) :
    b = c := by
  rcases mem_live.mp left with ⟨memberB, usedB⟩
  rcases mem_live.mp right with ⟨memberC, usedC⟩
  rcases Prod.mk.inj same with ⟨places, sizes⟩
  have places := congrArg BitVec.toNat places
  have sizes := congrArg BitVec.toNat sizes
  rw [toNat_payloadPtr tiles memberB, toNat_payloadPtr tiles' memberC] at places
  rw [(fitting tiles b memberB).2, (fitting tiles' c memberC).2] at sizes
  rcases b with ⟨addr, size, used⟩
  rcases c with ⟨addr', size', used'⟩
  rw [Block.mk.injEq]
  exact ⟨Nat.add_right_cancel places, sizes, usedB.trans usedC.symm⟩

/-- States with the same live allocations are the same tiling. -/
theorem HeapInvariant.eq_of_live {l' : List Block} (inv : HeapInvariant s l)
    (inv' : HeapInvariant t l') (same : ∀ r, r ∈ s.live ↔ r ∈ t.live) : l = l' := by
  have tiles := inv.represents.tiles
  have tiles' := inv'.represents.tiles
  refine tiles.ext_of_mem_live (by decide) tiles' inv.canonical inv'.canonical fun b => ?_
  constructor
  · intro liveB
    rcases (inv'.live _).mp ((same _).mp ((inv.live _).mpr ⟨b, liveB, rfl⟩)) with ⟨c, liveC, eq⟩
    rwa [allocation_inj tiles liveB tiles' liveC eq]
  · intro liveB
    rcases (inv.live _).mp ((same _).mpr ((inv'.live _).mpr ⟨b, liveB, rfl⟩)) with ⟨c, liveC, eq⟩
    rwa [allocation_inj tiles' liveB tiles liveC eq]

/-- Free the pointers of `ps`, in order. -/
def kfreeAll (ps : List Word) (h : HeapState) : HeapState := ps.foldl (fun h p => kfree p h) h

/-- Freeing distinct live pointers leaves the other allocations. -/
theorem HeapInvariant.kfreeAll {ps : List Word} (inv : HeapInvariant s l) (nodup : ps.Nodup)
    (live : ∀ p ∈ ps, ∃ n, (p, n) ∈ s.live) :
    ∃ t l', HeapInvariant t l' ∧ t.heap = kfreeAll ps s.heap ∧
      ∀ r, r ∈ t.live ↔ r ∈ s.live ∧ r.1 ∉ ps := by
  induction ps generalizing s l with
  | nil => exact ⟨s, l, inv, rfl, by simp⟩
  | cons p ps ih =>
      rcases List.nodup_cons.mp nodup with ⟨absent, nodup⟩
      have inv' := inv.kfree (.inr (live p List.mem_cons_self))
      obtain ⟨t, l', invT, heap, liveT⟩ := ih inv' nodup fun q member => by
        rcases live q (List.mem_cons_of_mem _ member) with ⟨n, liveQ⟩
        refine ⟨n, List.mem_filter.mpr ⟨liveQ, decide_eq_true ?_⟩⟩
        rintro rfl
        exact absent member
      refine ⟨t, l', invT, heap, fun r => ?_⟩
      rw [liveT, List.mem_filter, List.mem_cons, not_or, and_assoc, decide_eq_true_iff]

/-- The addresses and sizes of the used blocks of a raw block list. -/
def usedPairs (bs : List (Word × BlockHeader)) : List (Word × Word) :=
  (bs.filter (·.2.used ≠ 0#8)).map fun x => (x.1, x.2.size)

/-- The live allocations can be read off the raw block list. -/
theorem BlockListInvariant.mem_live_iff {live : List (Word × Word)}
    {bs : List (Word × BlockHeader)} (sound : BlockListInvariant live bs) (p n : Word) :
    (p, n) ∈ live ↔ (p - BitVec.ofNat 32 headerBytes, n) ∈ usedPairs bs := by
  rw [sound.live, usedPairs, List.mem_map]
  constructor
  · rintro ⟨x, member, used, rfl, rfl⟩
    refine ⟨x, List.mem_filter.mpr ⟨member, ?_⟩, ?_⟩
    · rw [used]; rfl
    · rw [BitVec.add_sub_cancel]
  · rintro ⟨x, member, eq⟩
    rcases List.mem_filter.mp member with ⟨memberX, busy⟩
    rcases Prod.mk.inj eq with ⟨place, rfl⟩
    refine ⟨x, memberX, (sound.flags x memberX).resolve_left (of_decide_eq_true busy), ?_, rfl⟩
    rw [place, BitVec.sub_add_cancel]

theorem encode_canonical (canonical : Canonical l) :
    (encode prev l).IsChain fun x y => x.2.used ≠ 0#8 ∨ y.2.used ≠ 0#8 := by
  induction l generalizing prev with
  | nil => exact .nil
  | cons b bs ih =>
      cases bs with
      | nil => exact List.isChain_singleton _
      | cons c cs =>
          rcases List.isChain_cons_cons.mp canonical with ⟨seam, rest⟩
          refine List.isChain_cons_cons.mpr ⟨?_, ih rest⟩
          rcases seam with used | used
          · exact .inl fun free => by rw [usedByte_eq_zero.mp free] at used; cases used
          · exact .inr fun free => by rw [usedByte_eq_zero.mp free] at used; cases used

theorem HeapInvariant.blocks_eq_of_live {l' : List Block} (inv : HeapInvariant s l)
    (inv' : HeapInvariant t l') (same : ∀ r, r ∈ s.live ↔ r ∈ t.live) :
    s.heap.blocks = t.heap.blocks := by
  rw [inv.represents.blocks_eq, inv'.represents.blocks_eq, inv.eq_of_live inv' same]

/-- The order in which live pointers are freed does not matter. -/
theorem HeapInvariant.kfreeAll_perm {ps qs : List Word} (inv : HeapInvariant s l)
    (nodup : ps.Nodup) (live : ∀ p ∈ ps, ∃ n, (p, n) ∈ s.live) (perm : ps.Perm qs) :
    (Learnix.kfreeAll ps s.heap).blocks = (Learnix.kfreeAll qs s.heap).blocks := by
  rcases inv.kfreeAll nodup live with ⟨t, l₁, inv₁, heap₁, live₁⟩
  obtain ⟨u, l₂, inv₂, heap₂, live₂⟩ := inv.kfreeAll (perm.nodup_iff.mp nodup)
    fun p member => live p (perm.mem_iff.mpr member)
  rw [← heap₁, ← heap₂]
  exact inv₁.blocks_eq_of_live inv₂ fun r => by rw [live₁, live₂, perm.mem_iff]

/-- `kfree` undoes `kmalloc`. -/
theorem HeapInvariant.kfree_kmalloc {size p : Word} {h : HeapState} (inv : HeapInvariant s l)
    (call : Learnix.kmalloc size s.heap = some (p, h)) :
    (Learnix.kfree p h).blocks = s.heap.blocks :=
  ((inv.kmalloc call).kfree (mem_allocated_or_null p h s.live)).blocks_eq_of_live inv
    (inv.mem_filter_allocated call)

/-- The block list is in a canonical form: it is determined by the live
allocations, whatever the history. -/
theorem heap_canonical {h : HeapState} {tr : List (Sys.Event HeapRunState HeapOp)}
    (run : Sys.Run HeapStep (heapRunInit h) tr s) :
    (∃ bs, s.heap.blocks = some bs ∧ bs.IsChain fun x y => x.2.used ≠ 0#8 ∨ y.2.used ≠ 0#8) ∧
      (∀ h' tr' s', Sys.Run HeapStep (heapRunInit h') tr' s' →
        (∀ bs bs', s.heap.blocks = some bs → s'.heap.blocks = some bs' →
          (∀ r, r ∈ usedPairs bs ↔ r ∈ usedPairs bs') → bs = bs') ∧
        ((∀ r, r ∈ s.live ↔ r ∈ s'.live) → s.heap.blocks = s'.heap.blocks)) ∧
      (∀ ps qs : List Word, ps.Nodup → (∀ p ∈ ps, ∃ n, (p, n) ∈ s.live) → ps.Perm qs →
        (kfreeAll ps s.heap).blocks = (kfreeAll qs s.heap).blocks) ∧
      (∀ size p h', kmalloc size s.heap = some (p, h') → (kfree p h').blocks = s.heap.blocks) ∧
      (s.live = [] → s.heap.blocks = some [(BitVec.ofNat 32 heapStart,
        ⟨BitVec.ofNat 32 (heapSize - headerBytes), 0#8, 0#32, 0#32⟩)]) := by
  rcases (heapInvariant_init h).run run with ⟨l, inv⟩
  refine ⟨⟨_, inv.represents.blocks_eq, encode_canonical inv.canonical⟩, ?_,
    fun ps qs nodup live perm => inv.kfreeAll_perm nodup live perm,
    fun size p h' call => inv.kfree_kmalloc call, fun none => ?_⟩
  · intro h' tr' s' run'
    rcases (heapInvariant_init h').run run' with ⟨l', inv'⟩
    refine ⟨fun bs bs' blocks blocks' same => ?_, inv.blocks_eq_of_live inv'⟩
    have sound := inv.blockList
    have sound' := inv'.blockList
    rw [inv.represents.blocks_eq, Option.some.injEq] at blocks
    rw [inv'.represents.blocks_eq, Option.some.injEq] at blocks'
    subst blocks blocks'
    have lists : l = l' := inv.eq_of_live inv' fun r => by
      rw [← Prod.eta r, sound.mem_live_iff, sound'.mem_live_iff, same]
    rw [lists]
  · have empty : live l = [] := List.eq_nil_iff_forall_not_mem.mpr fun b liveB => by
      have := (inv.live _).mpr ⟨b, liveB, rfl⟩
      rw [none] at this
      cases this
    rw [inv.represents.blocks_eq, inv.represents.tiles.eq_singleton_of_live_eq_nil (by decide)
      inv.canonical (by decide) empty]
    rfl

theorem heap_canonical_five :
    ∃ t h, Sys.Run HeapStep (heapRunInit blankHeap)
        [⟨heapRunInit blankHeap, .kmalloc 5#32, t⟩] t ∧
      kmalloc 9#32 t.heap = some (0x200022#32, h) ∧
      (kfree 0x200022#32 h).blocks = t.heap.blocks := by
  rcases exists_run_kmalloc 5#32 with ⟨t, run, inv⟩
  rcases inv.represents.kmalloc 9#32 with ⟨h, call, -⟩
  have place : (allocate 9#32 (allocate 5#32 [⟨heapStart, heapSize - headerBytes, false⟩]).2).1 =
      0x200022#32 := by decide
  rw [place] at call
  exact ⟨t, h, run, call, (heap_canonical run).2.2.2.1 _ _ _ call⟩

end Learnix
