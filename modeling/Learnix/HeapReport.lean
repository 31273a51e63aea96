import Learnix.HeapOwnership

/-!
# What `heap_print_info` reports

`heap_print_info` adds up the sizes on the block list and tries out `kmalloc` and `kfree`. In
every state that the heap can be in its figures are those of the block list, and its test leaves
the list and all bytes in use as they were, whether or not there was room for it
(`heap_report`).
-/

namespace Learnix

open Machine Tiling

/-- The bytes in the payloads of these blocks. -/
def payloadBytes (bs : List (Word × BlockHeader)) : Nat := (bs.map fun x => x.2.size.toNat).sum

/-- The blocks in use. -/
def usedBlocks (bs : List (Word × BlockHeader)) : List (Word × BlockHeader) :=
  bs.filter (·.2.used ≠ 0#8)

/-- The free blocks. -/
def freeBlocks (bs : List (Word × BlockHeader)) : List (Word × BlockHeader) :=
  bs.filter (·.2.used = 0#8)

/-- A heap with the blocks `live` in use has become one that has `live'` in use, and no byte of
`live` has changed. -/
structure Preserves (h : HeapState) (live : List (Word × Word)) (h' : HeapState)
    (live' : List (Word × Word)) : Prop where
  holds : Holds h' live'
  still : ∀ r ∈ live, r ∈ live'
  bytes : ∀ r ∈ live, ∀ x, Owns r x → h'.mem x = h.mem x

variable {s : HeapRunState} {h h₁ h₂ : HeapState} {live live₁ : List (Word × Word)}
  {p size prev : Word} {l : List Block} {m : Memory}

/-! ## The test -/

theorem Holds.preserves (holds : Holds h live) : Preserves h live h live :=
  ⟨holds, fun _ member => member, fun _ _ _ _ => rfl⟩

theorem Preserves.kmalloc (keeps : Preserves h live h₁ live₁)
    (call : kmalloc size h₁ = some (p, h₂)) :
    Preserves h live h₂ (allocated p h₂ ++ live₁) := by
  rcases keeps with ⟨holds, still, bytes⟩
  refine ⟨holds.kmalloc call, fun r member => List.mem_append_right _ (still r member),
    fun r member x owns => ?_⟩
  rw [holds.kmalloc_frame call (still r member) owns]
  exact bytes r member x owns

theorem Preserves.kfree (keeps : Preserves h live h₁ live₁) (legal : Freeable p live₁)
    (other : ∀ r ∈ live, r.1 ≠ p) :
    Preserves h live (kfree p h₁) (live₁.filter (·.1 ≠ p)) := by
  rcases keeps with ⟨holds, still, bytes⟩
  refine ⟨holds.kfree legal, fun r member => ?_, fun r member x owns => ?_⟩
  · exact List.mem_filter.mpr ⟨still r member, decide_eq_true (other r member)⟩
  · rw [holds.kfree_frame legal (still r member) owns]
    exact bytes r member x owns

/-- The three blocks of the test are free again, and all else is as it was. -/
theorem Holds.selfTest {p1 p2 p3 : Word} {h₃ : HeapState} (holds : Holds h live)
    (first : Learnix.kmalloc 64#32 h = some (p1, h₁))
    (second : Learnix.kmalloc 128#32 h₁ = some (p2, h₂))
    (third : Learnix.kmalloc 256#32 h₂ = some (p3, h₃)) :
    Preserves h live (Learnix.kfree p3 (Learnix.kfree p2 (Learnix.kfree p1 h₃))) live := by
  have holds₁ := holds.kmalloc first
  have holds₂ := holds₁.kmalloc second
  have keeps := ((holds.preserves.kmalloc first).kmalloc second).kmalloc third
  -- no block that was in use before is one of the three
  have other₁ : ∀ r ∈ live, r.1 ≠ p1 := fun r member =>
    ((holds.mem_iff_of_kmalloc first r).mpr member).2
  have other₂ : ∀ r ∈ allocated p1 h₁ ++ live, r.1 ≠ p2 := fun r member =>
    ((holds₁.mem_iff_of_kmalloc second r).mpr member).2
  have other₃ : ∀ r ∈ allocated p2 h₂ ++ (allocated p1 h₁ ++ live), r.1 ≠ p3 := fun r member =>
    ((holds₂.mem_iff_of_kmalloc third r).mpr member).2
  -- and each of them is in use, or null, when its turn comes
  have got₁ : Freeable p1 (allocated p1 h₁ ++ live) := mem_allocated_or_null p1 h₁ live
  have got₂ : Freeable p2 (allocated p2 h₂ ++ (allocated p1 h₁ ++ live)) :=
    mem_allocated_or_null p2 h₂ _
  have got₃ : Freeable p3 (allocated p3 h₃ ++ (allocated p2 h₂ ++ (allocated p1 h₁ ++ live))) :=
    mem_allocated_or_null p3 h₃ _
  have free₁ := keeps.kfree got₁.append.append other₁
  have free₂ := free₁.kfree (got₂.append.filter (holds₁.ne_of_freeable second got₁))
    fun r member => other₂ r (List.mem_append_right _ member)
  have free₃ := free₂.kfree ((got₃.filter (holds₂.ne_of_freeable third got₁.append)).filter
    (holds₂.ne_of_freeable third got₂)) fun r member =>
      other₃ r (List.mem_append_right _ (List.mem_append_right _ member))
  refine ⟨free₃.holds.of_same holds.nodup fun r => ⟨free₃.still r, fun member => ?_⟩,
    fun r member => member, free₃.bytes⟩
  simp only [List.mem_filter, decide_eq_true_iff] at member
  rw [← holds.mem_iff_of_kmalloc first, ← holds₁.mem_iff_of_kmalloc second,
    ← holds₂.mem_iff_of_kmalloc third]
  tauto

/-! ## The figures -/

/-- The counters after these blocks. -/
def HeapTotals.add (t : HeapTotals) (l : List Block) : HeapTotals where
  blocks := t.blocks + BitVec.ofNat 32 l.length
  total := t.total + BitVec.ofNat 32 (l.map Block.size).sum
  used := t.used + BitVec.ofNat 32 ((l.filter (·.used)).map Block.size).sum
  free := t.free + BitVec.ofNat 32 ((l.filter (!·.used)).map Block.size).sum

theorem Linked.totalsLoop_eq {fuel : Nat} (linked : Linked m prev l 0#32) (fits : Addressable l)
    (enough : l.length < fuel) (t : HeapTotals) :
    Learnix.totalsLoop fuel (headAddr 0#32 l) m t = some (t.add l) := by
  induction l generalizing prev fuel t with
  | nil =>
      cases fuel with
      | zero => cases enough
      | succ fuel => simp [Learnix.totalsLoop, headAddr, HeapTotals.add]
  | cons b bs ih =>
      cases fuel with
      | zero => cases enough
      | succ fuel =>
          obtain ⟨headB, rest⟩ := linked
          rw [headAddr, Learnix.totalsLoop, if_neg (fits b List.mem_cons_self).1, headB]
          simp only
          rw [ih rest (fun c member => fits c (List.mem_cons_of_mem _ member))
            (Nat.lt_of_succ_lt_succ enough)]
          cases busy : b.used
          · simp [HeapTotals.add, usedByte, busy, BitVec.ofNat_add, BitVec.add_assoc,
              BitVec.add_comm 1#32]
          · simp [HeapTotals.add, usedByte, busy, BitVec.ofNat_add, BitVec.add_assoc,
              BitVec.add_comm 1#32]

/-- The raw block list has the sizes of the tiling. -/
theorem encode_sizes (fits : Fitting l) (prev : Word) :
    (encode prev l).map (fun x => (x.2.size.toNat, x.2.used)) =
      l.map fun b => (b.size, usedByte b.used) := by
  induction l generalizing prev with
  | nil => rfl
  | cons b bs ih =>
      rw [encode, List.map_cons, List.map_cons,
        ih (fun c member => fits c (List.mem_cons_of_mem _ member)) (addrOf b)]
      rw [(fits b List.mem_cons_self).2]

/-- The bytes of some blocks of the raw list are those of the same blocks of the tiling. -/
theorem payloadBytes_filter (fits : Fitting l) (prev : Word) (raw : Byte → Bool)
    (abs : Bool → Bool) (same : ∀ used, raw (usedByte used) = abs used) :
    payloadBytes ((encode prev l).filter fun x => raw x.2.used) =
      ((l.filter fun b => abs b.used).map Block.size).sum := by
  have sizes := congrArg (fun l => ((l.filter fun y => raw y.2).map Prod.fst).sum)
    (encode_sizes fits prev)
  simp only [List.filter_map, List.map_map] at sizes
  rw [payloadBytes]
  refine sizes.trans ?_
  congr 2
  exact List.filter_congr fun b _ => same b.used

/-- A sum of sizes does not wrap. -/
theorem toNat_sizes (tiles : HeapTiling l) (some_ : Block → Bool) :
    (0#32 + BitVec.ofNat 32 ((l.filter some_).map Block.size).sum).toNat =
      ((l.filter some_).map Block.size).sum := by
  have part : ((l.filter some_).map Block.size).sum ≤ (l.map Block.size).sum :=
    (List.filter_sublist.map Block.size).sum_le_sum fun _ _ => Nat.zero_le _
  have whole := tiles.sum_size
  have stop : heapStart + heapSize = 0x300000 := rfl
  rw [BitVec.zero_add, BitVec.toNat_ofNat, Nat.mod_eq_of_lt (by omega)]

/-- The counters at the start. -/
def noTotals : HeapTotals := ⟨0#32, 0#32, 0#32, 0#32⟩

/-- The counters at the end are sums over the raw block list. -/
theorem figures (tiles : HeapTiling l) :
    (noTotals.add l).total.toNat = payloadBytes (encode 0#32 l) ∧
      (noTotals.add l).used.toNat = payloadBytes (usedBlocks (encode 0#32 l)) ∧
      (noTotals.add l).free.toNat = payloadBytes (freeBlocks (encode 0#32 l)) := by
  have fits := fitting tiles
  have all := payloadBytes_filter fits 0#32 (fun _ => true) (fun _ => true) fun _ => rfl
  have used := payloadBytes_filter fits 0#32 (fun used => decide (used ≠ 0#8)) (fun used => used)
    (by decide)
  have free := payloadBytes_filter fits 0#32 (fun used => decide (used = 0#8)) (fun used => !used)
    (by decide)
  have total := toNat_sizes tiles fun _ => true
  rw [List.filter_true] at all total
  rw [List.filter_true] at all
  rw [usedBlocks, freeBlocks, all, used, free]
  exact ⟨total, toNat_sizes tiles _, toNat_sizes tiles _⟩

/-- The payloads and the headers are the heap. -/
theorem payloadBytes_add_headers (tiles : HeapTiling l) :
    payloadBytes (encode 0#32 l) + headerBytes * (encode 0#32 l).length = heapSize := by
  have sizes := encode_sizes (fitting tiles) 0#32
  have length := congrArg List.length sizes
  have bytes := congrArg (fun l => (l.map Prod.fst).sum) sizes
  simp only [List.map_map, List.length_map] at bytes length
  have whole := tiles.sum_size
  have start : (l.map (Prod.fst ∘ fun b => (b.size, usedByte b.used))).sum =
      (l.map Block.size).sum := rfl
  have payload : payloadBytes (encode 0#32 l) = (l.map Block.size).sum := bytes.trans start
  rw [payload, length, Nat.mul_comm]
  omega

/-- In every state of the heap, `heap_print_info` shows the bytes in all payloads in KB, those in
use, and the free ones in KB; with the headers they are the whole heap. Its test of `kmalloc` and
`kfree` leaves the block list, and every byte in use, as it was. -/
theorem heap_report {tr : List (Sys.Event HeapRunState HeapOp)}
    (run : Sys.Run HeapStep (heapRunInit h) tr s) :
    ∃ bs info h', s.heap.blocks = some bs ∧ heapPrintInfo s.heap = some (info, h') ∧
      h'.blocks = some bs ∧ (∀ r ∈ s.live, ∀ x, Owns r x → h'.mem x = s.heap.mem x) ∧
      info.total.toNat = payloadBytes bs / 1024 ∧
      info.used.toNat = payloadBytes (usedBlocks bs) ∧
      info.free.toNat = payloadBytes (freeBlocks bs) / 1024 ∧
      payloadBytes bs + headerBytes * bs.length = heapSize := by
  obtain ⟨l, inv⟩ := (heapInvariant_init h).run run
  have holds : Holds s.heap s.live := inv.holds inv.distinct fun _ => Iff.rfl
  have represents := inv.represents
  have tiles := represents.tiles
  have loop := represents.linked.totalsLoop_eq (addressable tiles) (length_lt_pointerSpace tiles)
    noTotals
  rw [← represents.headAddr_eq] at loop
  obtain ⟨p1, h₁, first⟩ := holds.exists_kmalloc 64#32
  obtain ⟨p2, h₂, second⟩ := (holds.kmalloc first).exists_kmalloc 128#32
  obtain ⟨p3, h₃, third⟩ := ((holds.kmalloc first).kmalloc second).exists_kmalloc 256#32
  have keeps := holds.selfTest first second third
  have printed : heapPrintInfo s.heap = some (⟨(noTotals.add l).total / 1024#32,
      (noTotals.add l).used, (noTotals.add l).free / 1024#32, p1, p2, p3⟩,
      Learnix.kfree p3 (Learnix.kfree p2 (Learnix.kfree p1 h₃))) := by
    unfold heapPrintInfo
    rw [show (⟨0#32, 0#32, 0#32, 0#32⟩ : HeapTotals) = noTotals from rfl, loop]
    simp only [first, second, third, Option.bind_some, Option.map_some]
  obtain ⟨bs, before, after⟩ := holds.blocks_eq keeps.holds
  obtain rfl : encode 0#32 l = bs := Option.some.inj (represents.blocks_eq.symm.trans before)
  obtain ⟨total, used, free⟩ := figures tiles
  refine ⟨_, _, _, before, printed, after, keeps.bytes, ?_, used, ?_,
    payloadBytes_add_headers tiles⟩
  · rw [BitVec.toNat_udiv, total]
    rfl
  · rw [BitVec.toNat_udiv, free]
    rfl

/-- With a block of eight bytes in use. -/
theorem heap_report_five :
    ∃ t info h', Sys.Run HeapStep (heapRunInit blankHeap)
        [⟨heapRunInit blankHeap, .kmalloc 5#32, t⟩] t ∧
      heapPrintInfo t.heap = some (info, h') ∧ h'.blocks = t.heap.blocks ∧ info.used.toNat = 8 := by
  obtain ⟨t, run, inv⟩ := exists_run_kmalloc 5#32
  obtain ⟨bs, info, h', blocks, printed, after, -, -, used, -, -⟩ := heap_report run
  obtain rfl := Option.some.inj (inv.represents.blocks_eq.symm.trans blocks)
  refine ⟨t, info, h', run, printed, after.trans blocks.symm, used.trans ?_⟩
  decide

end Learnix
