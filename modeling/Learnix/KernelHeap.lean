import Learnix.HeapIntegrity
import Learnix.RingIntegrity

/-!
# `process_create` on the kernel heap

`process_create` takes the PCB and the stack of a new process from the heap of
`heap.c`. When it fails, everything is as it was before the call: the block that
it may have got is free again and merged, and no PCB in use has changed
(`create_atomic`).
-/

namespace Learnix

open Machine Tiling CircularList

/-- Where `stack` is in `process_t`. -/
def stackOffset : Nat := 16

/-- The heap, for `process_create`. The block that it gives back is a PCB in which it
has just set `stack` to null. -/
def kernelHeap : Allocator HeapState where
  kmalloc size h := (kmalloc size h).getD (0#32, h)
  kfree proc h := kfree proc
    { h with mem := h.mem.write32 (proc + BitVec.ofNat 32 stackOffset) 0#32 }

/-- The heap is in a state that it can be in, with the blocks of `live` in use. -/
def Holds (h : HeapState) (live : List (Word × Word)) : Prop :=
  ∃ l, HeapInvariant ⟨h, live, fun _ => none⟩ l

variable {s : HeapRunState} {l : List Block} {p size : Word} {h h' : HeapState}
  {live live' : List (Word × Word)} {r : Word × Word}

/-! ## Blocks in use -/

theorem HeapInvariant.holds (inv : HeapInvariant s l) (nodup : (live.map Prod.fst).Nodup)
    (same : ∀ r, r ∈ live ↔ r ∈ s.live) : Holds s.heap live :=
  ⟨l, inv.represents, inv.canonical, fun r => (same r).trans (inv.live r), nodup, nofun⟩

theorem Holds.nodup (holds : Holds h live) : (live.map Prod.fst).Nodup :=
  holds.choose_spec.distinct

theorem Holds.of_same (holds : Holds h live) (nodup : (live'.map Prod.fst).Nodup)
    (same : ∀ r, r ∈ live' ↔ r ∈ live) : Holds h live' :=
  holds.choose_spec.holds nodup same

theorem Holds.exists_kmalloc (holds : Holds h live) (size : Word) :
    ∃ p h', kmalloc size h = some (p, h') := by
  obtain ⟨l, inv⟩ := holds
  obtain ⟨h', call, -⟩ := inv.represents.kmalloc size
  exact ⟨_, h', call⟩

/-- On such a heap the allocator of `process_create` is `kmalloc`. -/
theorem Holds.kernelHeap_kmalloc (holds : Holds h live)
    (answer : kernelHeap.kmalloc size h = (p, h')) : Learnix.kmalloc size h = some (p, h') := by
  obtain ⟨q, u, call⟩ := holds.exists_kmalloc size
  have same : kernelHeap.kmalloc size h = (q, u) := by
    simp only [kernelHeap, call, Option.getD_some]
  rw [call, ← answer, same]

theorem Holds.kmalloc (holds : Holds h live) (call : kmalloc size h = some (p, h')) :
    Holds h' (allocated p h' ++ live) := by
  obtain ⟨l, inv⟩ := holds
  have inv' := inv.kmalloc call
  exact inv'.holds inv'.distinct fun r => Iff.rfl

/-- The block that `kmalloc` returned holds what was asked for. -/
theorem Holds.le_blockSize (holds : Holds h live) (call : Learnix.kmalloc size h = some (p, h'))
    (some_ : p ≠ 0#32) : (alignSize size).toNat ≤ (blockSize h' p).toNat := by
  obtain ⟨l, inv⟩ := holds
  obtain ⟨rfl, represents, -⟩ := inv.represents.kmalloc_returned call
  exact represents.le_blockSize inv.represents.tiles some_

/-- What `kmalloc` returns was not in use. -/
theorem Holds.ne_of_kmalloc (holds : Holds h live) (call : Learnix.kmalloc size h = some (p, h'))
    (some_ : p ≠ 0#32) (member : r ∈ live) : r.1 ≠ p := by
  have distinct := (holds.kmalloc call).nodup
  rw [allocated, if_neg some_, List.singleton_append, List.map_cons, List.nodup_cons] at distinct
  exact fun same => distinct.1 (List.mem_map.mpr ⟨r, member, same⟩)

/-- A pointer that `kfree` may be given. -/
def Freeable (p : Word) (live : List (Word × Word)) : Prop := p = 0#32 ∨ ∃ n, (p, n) ∈ live

theorem Freeable.append (freeable : Freeable p live) : Freeable p (live' ++ live) :=
  freeable.imp_right fun ⟨n, member⟩ => ⟨n, List.mem_append_right live' member⟩

/-- It may still be given to `kfree` after another one has been freed. -/
theorem Freeable.filter {q : Word} (freeable : Freeable p live) (other : p ≠ 0#32 → p ≠ q) :
    Freeable p (live.filter (·.1 ≠ q)) := by
  by_cases null : p = 0#32
  · exact .inl null
  · obtain ⟨n, member⟩ := freeable.resolve_left null
    exact .inr ⟨n, List.mem_filter.mpr ⟨member, decide_eq_true (other null)⟩⟩

theorem Holds.ne_of_freeable {q : Word} (holds : Holds h live)
    (call : Learnix.kmalloc size h = some (p, h')) (freeable : Freeable q live)
    (some_ : p ≠ 0#32) : p ≠ q := by
  rcases freeable with rfl | ⟨n, member⟩
  · exact some_
  · exact (holds.ne_of_kmalloc call some_ member).symm

/-- What is in use after what `kmalloc` returned is freed again. -/
theorem Holds.mem_iff_of_kmalloc (holds : Holds h live)
    (call : Learnix.kmalloc size h = some (p, h')) (r : Word × Word) :
    r ∈ allocated p h' ++ live ∧ r.1 ≠ p ↔ r ∈ live := by
  obtain ⟨l, inv⟩ := holds
  rw [← inv.mem_filter_allocated call r, List.mem_filter, decide_eq_true_iff]

theorem Holds.kfree (holds : Holds h live) (legal : Freeable p live) :
    Holds (kfree p h) (live.filter (·.1 ≠ p)) := by
  obtain ⟨l, inv⟩ := holds
  have inv' := inv.kfree legal
  exact inv'.holds inv'.distinct fun r => Iff.rfl

theorem Holds.store {a : Word} {v : Byte} (holds : Holds h live) (legal : ∃ r ∈ live, Owns r a) :
    Holds { h with mem := h.mem.write8 a v } live := by
  obtain ⟨l, inv⟩ := holds
  have inv' := inv.store (v := v) legal
  exact inv'.holds inv'.distinct fun r => Iff.rfl

/-- Two blocks in use share no byte. -/
theorem Holds.disjoint {q : Word × Word} {x : Word} (holds : Holds h live) (left : r ∈ live)
    (right : q ∈ live) (ne : r ≠ q) (owns : Owns r x) : ¬ Owns q x :=
  holds.choose_spec.integrity.disjoint r left q right ne x owns

theorem Holds.kmalloc_frame {x : Word} (holds : Holds h live)
    (call : Learnix.kmalloc size h = some (p, h')) (member : r ∈ live) (owns : Owns r x) :
    h'.mem x = h.mem x :=
  holds.choose_spec.kmalloc_frame call r member x owns

theorem Holds.kfree_frame {x : Word} (holds : Holds h live)
    (legal : Freeable p live) (member : r ∈ live) (owns : Owns r x) :
    (Learnix.kfree p h).mem x = h.mem x :=
  holds.choose_spec.kfree_frame legal r member x owns

/-- The block list is a function of the blocks in use. -/
theorem Holds.blocks_eq (holds : Holds h live) (holds' : Holds h' live) :
    ∃ bs, h.blocks = some bs ∧ h'.blocks = some bs := by
  obtain ⟨l, inv⟩ := holds
  obtain ⟨l', inv'⟩ := holds'
  exact ⟨_, inv.represents.blocks_eq,
    (inv'.blocks_eq_of_live inv fun _ => Iff.rfl).trans inv.represents.blocks_eq⟩

/-! ## `process_create` that fails -/

/-- The stack field of a PCB is in its block. -/
theorem owns_stackField {n x : Word} (large : processBytes ≤ n.toNat)
    (field : Memory.InRange (p + BitVec.ofNat 32 stackOffset) 4 x) : Owns (p, n) x := by
  unfold processBytes at large
  unfold Memory.InRange stackOffset at field
  unfold Owns Memory.InRange
  bv_omega

/-- A PCB that is given back leaves the blocks in use, and their bytes, as they were
before it was taken. -/
theorem Holds.giveBack {h₁ h₂ : HeapState} (holds : Holds h live)
    (first : Learnix.kmalloc (BitVec.ofNat 32 processBytes) h = some (p, h₁)) (some_ : p ≠ 0#32)
    (second : Learnix.kmalloc (BitVec.ofNat 32 stackSize) h₁ = some (0#32, h₂)) :
    Holds (kernelHeap.kfree p h₂) live ∧
      ∀ r ∈ live, ∀ x, Owns r x → (kernelHeap.kfree p h₂).mem x = h.mem x := by
  have large : processBytes ≤ (blockSize h₁ p).toNat := holds.le_blockSize first some_
  have holds₁ := holds.kmalloc first
  have new : (p, blockSize h₁ p) ∈ allocated p h₁ ++ live := by simp [allocated, some_]
  have holds₂ : Holds h₂ (allocated p h₁ ++ live) := holds₁.kmalloc second
  obtain ⟨l, inv₂⟩ := holds₂
  obtain ⟨u, inv₃, heap, known⟩ := inv₂.store32 (v := 0#32) new
    fun x field => owns_stackField large field
  have holds₃ : Holds u.heap (allocated p h₁ ++ live) :=
    inv₃.holds holds₁.nodup fun r => by rw [known]
  have freed : Learnix.kfree p u.heap = kernelHeap.kfree p h₂ := by rw [heap]; rfl
  rw [← freed]
  refine ⟨(holds₃.kfree (.inr ⟨_, new⟩)).of_same holds.nodup fun r => ?_, fun r member x owns => ?_⟩
  · rw [List.mem_filter, decide_eq_true_iff]
    exact (holds.mem_iff_of_kmalloc first r).symm
  · have earlier : r ∈ allocated p h₁ ++ live := List.mem_append_right _ member
    have other : r ≠ (p, blockSize h₁ p) := fun eq =>
      holds.ne_of_kmalloc first some_ member (congrArg Prod.fst eq)
    calc (Learnix.kfree p u.heap).mem x
        = u.heap.mem x := holds₃.kfree_frame (.inr ⟨_, new⟩) earlier owns
      _ = h₂.mem x := by
          rw [heap]
          exact Memory.write32_apply_of_not_inRange fun field =>
            holds₁.disjoint earlier new other owns (owns_stackField large field)
      _ = h₁.mem x := holds₁.kmalloc_frame second earlier owns
      _ = h.mem x := holds.kmalloc_frame first member owns

/-- When `process_create` returns null on a heap in any state that it can be in, the block
list, the bytes of the blocks in use, the PCBs in them and so the ring, and the variables
of `process.c` and `scheduler.c` are what they were before the call. -/
theorem create_atomic {h₀ : HeapState} {tr : List (Sys.Event HeapRunState HeapOp)}
    (run : Sys.Run HeapStep (heapRunInit h₀) tr s) {q q' : ProcState} {entry priority : Word}
    {name : List Byte}
    (call : processCreate kernelHeap entry name priority q s.heap = some (0#32, q', h)) :
    (∃ bs, s.heap.blocks = some bs ∧ h.blocks = some bs) ∧
      (∀ r ∈ s.live, ∀ x, Owns r x → h.mem x = s.heap.mem x) ∧
      (∀ r ∈ s.live, q'.pcb r.1 = q.pcb r.1) ∧
      (∀ others, (∀ p ∈ q.currentProcess :: others, ∃ n, (p, n) ∈ s.live) →
        IsRing q.next q.currentProcess others → IsRing q'.next q'.currentProcess others) ∧
      q'.currentProcess = q.currentProcess ∧ q'.nextPid = q.nextPid ∧ q'.mem = q.mem ∧
      q'.tickCount = q.tickCount ∧ q'.schedulerRunning = q.schedulerRunning := by
  obtain ⟨l, inv⟩ := (heapInvariant_init h₀).run run
  have holds : Holds s.heap s.live := inv.holds inv.distinct fun _ => Iff.rfl
  have ring : (∀ r ∈ s.live, q'.pcb r.1 = q.pcb r.1) → q'.currentProcess = q.currentProcess →
      ∀ others, (∀ p ∈ q.currentProcess :: others, ∃ n, (p, n) ∈ s.live) →
        IsRing q.next q.currentProcess others → IsRing q'.next q'.currentProcess others := by
    intro pcbs current others owned ring
    rw [current]
    refine ring.congr fun p member => ?_
    obtain ⟨n, live⟩ := owned p member
    exact congrArg Pcb.next (pcbs (p, n) live)
  cases Creates.of_call call with
  | noBlock first =>
      have first := holds.kernelHeap_kmalloc first
      have holds₁ : Holds h s.live := holds.kmalloc first
      have same : ∀ r ∈ s.live, q.pcb r.1 = q.pcb r.1 := fun _ _ => rfl
      exact ⟨holds.blocks_eq holds₁, fun r member x owns => holds.kmalloc_frame first member owns,
        same, ring same rfl, rfl, rfl, rfl, rfl, rfl⟩
  | @noStack proc h₁ h₂ first some_ second =>
      have first := holds.kernelHeap_kmalloc first
      have second := (holds.kmalloc first).kernelHeap_kmalloc second
      obtain ⟨holds', frame⟩ := holds.giveBack first some_ second
      have same : ∀ r ∈ s.live, (q.setPcb proc fun b => { b with stack := 0#32 }).pcb r.1 =
          q.pcb r.1 := fun r member => setPcb_pcb_of_ne (holds.ne_of_kmalloc first some_ member)
      exact ⟨holds.blocks_eq holds', frame, same, ring same rfl, rfl, rfl, rfl, rfl, rfl⟩
  | joined _ some_ _ _ _ => exact absurd rfl some_

/-- With 8550 bytes left there is room for a PCB but not for a stack. -/
theorem Represents.kmalloc_full
    (represents : Represents h
      (allocate 1040000#32 [⟨heapStart, heapSize - headerBytes, false⟩]).2) :
    ∃ h₁ h₂, Learnix.kmalloc (BitVec.ofNat 32 processBytes) h = some (0x2FDE9A#32, h₁) ∧
      Learnix.kmalloc (BitVec.ofNat 32 stackSize) h₁ = some (0#32, h₂) := by
  obtain ⟨h₁, first, represents, -⟩ := represents.kmalloc (BitVec.ofNat 32 processBytes)
  obtain ⟨h₂, second, -⟩ := represents.kmalloc (BitVec.ofNat 32 stackSize)
  have block : (allocate (BitVec.ofNat 32 processBytes)
      (allocate 1040000#32 [⟨heapStart, heapSize - headerBytes, false⟩]).2).1 = 0x2FDE9A#32 := by
    decide
  have full : (allocate (BitVec.ofNat 32 stackSize) (allocate (BitVec.ofNat 32 processBytes)
      (allocate 1040000#32 [⟨heapStart, heapSize - headerBytes, false⟩]).2).2).1 = 0#32 := by
    decide
  rw [block] at first
  rw [full] at second
  exact ⟨h₁, h₂, first, second⟩

theorem create_atomic_full :
    ∃ t q h, Sys.Run HeapStep (heapRunInit blankHeap)
        [⟨heapRunInit blankHeap, .kmalloc 1040000#32, t⟩] t ∧
      processCreate kernelHeap 0x101000#32 [0x41#8] 2#32 blankProc t.heap =
        some (0#32, q, h) ∧
      q.nextPid = blankProc.nextPid ∧ ∃ bs, t.heap.blocks = some bs ∧ h.blocks = some bs := by
  obtain ⟨t, run, inv⟩ := exists_run_kmalloc 1040000#32
  obtain ⟨h₁, h₂, first, second⟩ := inv.represents.kmalloc_full
  have call : processCreate kernelHeap 0x101000#32 [0x41#8] 2#32 blankProc t.heap =
      some (0#32, blankProc.setPcb 0x2FDE9A#32 fun b => { b with stack := 0#32 },
        kernelHeap.kfree 0x2FDE9A#32 h₂) := by
    simp [processCreate, kernelHeap, first, second]
  obtain ⟨blocks, -, -, -, -, pid, -⟩ := create_atomic run call
  exact ⟨t, _, _, run, call, pid, blocks⟩

end Learnix
