import Learnix.Lib.ByteMemory

/-!
# The kernel heap

`heap.c` and `heap.h` over raw memory. Each block is a packed 13-byte header
(`block_header_t`) followed by its payload, and the headers form a doubly
linked list through `next` and `prev`, threaded through the memory that the
payloads share. `heapInit`, `kmalloc` and `kfree` read and write headers one
field at a time, in the order of the C statements, with the wrap-around
arithmetic of `uint32_t` and of 32-bit pointers.
-/

namespace Learnix

open Machine

/-! ## Block headers -/

/-- `HEAP_START`. -/
def heapStart : Nat := 0x200000

/-- `HEAP_SIZE`. -/
def heapSize : Nat := 0x100000

/-- `a` is an address of the heap. -/
def InHeap (a : Word) : Prop := Memory.InRange (BitVec.ofNat 32 heapStart) heapSize a

instance (a : Word) : Decidable (InHeap a) :=
  inferInstanceAs (Decidable (Memory.InRange (BitVec.ofNat 32 heapStart) heapSize a))

/-- `sizeof(block_header_t)`: the structure is packed. -/
def headerBytes : Nat := 13

/-- `block_header_t`. -/
structure BlockHeader where
  size : Word
  used : Byte
  next : Word
  prev : Word
deriving DecidableEq

/-- The header that the thirteen bytes at `a` encode. -/
def header (m : Memory) (a : Word) : BlockHeader :=
  ⟨m.read32 a, m (a + 4), m.read32 (a + 5), m.read32 (a + 9)⟩

/-- `a->size = v`. -/
def setSize (m : Memory) (a v : Word) : Memory := m.write32 a v

/-- `a->used = v`. -/
def setUsed (m : Memory) (a : Word) (v : Byte) : Memory := m.write8 (a + 4) v

/-- `a->next = v`. -/
def setNext (m : Memory) (a v : Word) : Memory := m.write32 (a + 5) v

/-- `a->prev = v`. -/
def setPrev (m : Memory) (a v : Word) : Memory := m.write32 (a + 9) v

/-- The memory, and `heap_start_ptr`. -/
structure HeapState where
  mem : Memory
  heapStartPtr : Word

/-! ## `heap_init` -/

def heapInit (s : HeapState) : HeapState :=
  let a := BitVec.ofNat 32 heapStart
  let m := setSize s.mem a (BitVec.ofNat 32 heapSize - BitVec.ofNat 32 headerBytes)
  let m := setUsed m a 0#8
  let m := setNext m a 0#32
  let m := setPrev m a 0#32
  ⟨m, a⟩

/-! ## `kmalloc` -/

/-- The request rounded up to a multiple of four. The sum is a `uint32_t`. -/
def alignSize (size : Word) : Word :=
  if size % 4#32 ≠ 0#32 then size + (4#32 - size % 4#32) else size

/-- Cut the block at `current` after `size` payload bytes: the rest becomes a
free block behind it. -/
def splitBlock (current size : Word) (m : Memory) : Memory :=
  let newBlock := current + BitVec.ofNat 32 headerBytes + size
  let m := setSize m newBlock
    ((header m current).size - size - BitVec.ofNat 32 headerBytes)
  let m := setUsed m newBlock 0#8
  let m := setNext m newBlock (header m current).next
  let m := setPrev m newBlock current
  let m :=
    if (header m current).next ≠ 0#32 then setPrev m (header m current).next newBlock else m
  let m := setNext m current newBlock
  setSize m current size

/-- Hand out the block at `current`, split if enough is left over. -/
def takeBlock (current size : Word) (m : Memory) : Memory :=
  let m :=
    if size + BitVec.ofNat 32 headerBytes + 4#32 ≤ (header m current).size then
      splitBlock current size m
    else m
  setUsed m current 1#8

/-- The `while (current)` loop: the pointer it returns and the memory it leaves,
or `none` if it does not end. -/
def kmallocScan : Nat → Word → Word → Memory → Option (Word × Memory)
  | 0, _, _, _ => none
  | fuel + 1, size, current, m =>
    if current = 0#32 then some (0#32, m)
    else if (header m current).used = 0#8 ∧ size ≤ (header m current).size then
      some (current + BitVec.ofNat 32 headerBytes, takeBlock current size m)
    else kmallocScan fuel size (header m current).next m

def kmalloc (size : Word) (s : HeapState) : Option (Word × HeapState) :=
  if size = 0#32 then some (0#32, s)
  else
    (kmallocScan pointerSpace (alignSize size) s.heapStartPtr s.mem).map
      fun r => (r.1, { s with mem := r.2 })

/-! ## `kfree` -/

/-- Merge the block with the one behind it, if there is one and it is free. -/
def mergeNext (block : Word) (m : Memory) : Memory :=
  if (header m block).next ≠ 0#32 ∧ (header m (header m block).next).used = 0#8 then
    let m := setSize m block ((header m block).size +
      (BitVec.ofNat 32 headerBytes + (header m (header m block).next).size))
    let m := setNext m block (header m (header m block).next).next
    if (header m block).next ≠ 0#32 then setPrev m (header m block).next block else m
  else m

/-- Merge the block into the one before it, if there is one and it is free. -/
def mergePrev (block : Word) (m : Memory) : Memory :=
  if (header m block).prev ≠ 0#32 ∧ (header m (header m block).prev).used = 0#8 then
    let m := setSize m (header m block).prev ((header m (header m block).prev).size +
      (BitVec.ofNat 32 headerBytes + (header m block).size))
    let m := setNext m (header m block).prev (header m block).next
    if (header m block).next ≠ 0#32 then setPrev m (header m block).next (header m block).prev
    else m
  else m

def kfree (ptr : Word) (s : HeapState) : HeapState :=
  if ptr = 0#32 then s
  else
    let block := ptr - BitVec.ofNat 32 headerBytes
    { s with mem := mergePrev block (mergeNext block (setUsed s.mem block 0#8)) }

/-! ## Computations that do not wrap

For each function, that none of the sums and differences of sizes and addresses
which a call computes leaves the range of `uint32_t`. -/

/-- `a + b` does not wrap. -/
def AddExact (a b : Word) : Prop := a.toNat + b.toNat < 2 ^ 32

/-- `a - b` does not wrap. -/
def SubExact (a b : Word) : Prop := b.toNat ≤ a.toNat

def AlignExact (size : Word) : Prop :=
  size % 4#32 ≠ 0#32 → SubExact 4#32 (size % 4#32) ∧ AddExact size (4#32 - size % 4#32)

def SplitExact (current size : Word) (m : Memory) : Prop :=
  AddExact current (BitVec.ofNat 32 headerBytes) ∧
    AddExact (current + BitVec.ofNat 32 headerBytes) size ∧
    SubExact (header m current).size size ∧
    SubExact ((header m current).size - size) (BitVec.ofNat 32 headerBytes)

def TakeExact (current size : Word) (m : Memory) : Prop :=
  AddExact size (BitVec.ofNat 32 headerBytes) ∧
    AddExact (size + BitVec.ofNat 32 headerBytes) 4#32 ∧
    (size + BitVec.ofNat 32 headerBytes + 4#32 ≤ (header m current).size →
      SplitExact current size m)

def ScanExact : Nat → Word → Word → Memory → Prop
  | 0, _, _, _ => True
  | fuel + 1, size, current, m =>
    if current = 0#32 then True
    else if (header m current).used = 0#8 ∧ size ≤ (header m current).size then
      TakeExact current size m ∧ AddExact current (BitVec.ofNat 32 headerBytes)
    else ScanExact fuel size (header m current).next m

def KmallocExact (size : Word) (s : HeapState) : Prop :=
  size ≠ 0#32 →
    AlignExact size ∧ ScanExact pointerSpace (alignSize size) s.heapStartPtr s.mem

def MergeNextExact (block : Word) (m : Memory) : Prop :=
  (header m block).next ≠ 0#32 → (header m (header m block).next).used = 0#8 →
    AddExact (BitVec.ofNat 32 headerBytes) (header m (header m block).next).size ∧
      AddExact (header m block).size
        (BitVec.ofNat 32 headerBytes + (header m (header m block).next).size)

def MergePrevExact (block : Word) (m : Memory) : Prop :=
  (header m block).prev ≠ 0#32 → (header m (header m block).prev).used = 0#8 →
    AddExact (BitVec.ofNat 32 headerBytes) (header m block).size ∧
      AddExact (header m (header m block).prev).size
        (BitVec.ofNat 32 headerBytes + (header m block).size)

def KfreeExact (ptr : Word) (s : HeapState) : Prop :=
  ptr ≠ 0#32 →
    let block := ptr - BitVec.ofNat 32 headerBytes
    let m := setUsed s.mem block 0#8
    SubExact ptr (BitVec.ofNat 32 headerBytes) ∧ MergeNextExact block m ∧
      MergePrevExact block (mergeNext block m)

/-! ## Walking the list -/

/-- The blocks met by following `next` from `a` until null, as
`heap_print_info` does; `none` if that does not end. -/
def blocksFrom : Nat → Word → Memory → Option (List (Word × BlockHeader))
  | 0, _, _ => none
  | fuel + 1, a, m =>
    if a = 0#32 then some []
    else (blocksFrom fuel (header m a).next m).map ((a, header m a) :: ·)

/-- The block list that the raw bytes encode. -/
def HeapState.blocks (s : HeapState) : Option (List (Word × BlockHeader)) :=
  blocksFrom pointerSpace s.heapStartPtr s.mem

/-! ## `heap_print_info` -/

/-- The local variables of the counting loop. -/
structure HeapTotals where
  blocks : Word
  total : Word
  used : Word
  free : Word

/-- `while (current)`, adding up the sizes. -/
def totalsLoop : Nat → Word → Memory → HeapTotals → Option HeapTotals
  | 0, _, _, _ => none
  | fuel + 1, current, m, t =>
    if current = 0#32 then some t
    else
      let size := (header m current).size
      let t := { t with blocks := t.blocks + 1#32, total := t.total + size }
      let t := if (header m current).used ≠ 0#8 then { t with used := t.used + size }
        else { t with free := t.free + size }
      totalsLoop fuel (header m current).next m t

/-- What `heap_print_info` prints: the three sizes, in KB, bytes and KB, and the
pointers that its test got. -/
structure HeapInfo where
  total : Word
  used : Word
  free : Word
  p1 : Word
  p2 : Word
  p3 : Word

/-- The numbers it prints and the heap it leaves. -/
def heapPrintInfo (s : HeapState) : Option (HeapInfo × HeapState) :=
  (totalsLoop pointerSpace s.heapStartPtr s.mem ⟨0#32, 0#32, 0#32, 0#32⟩).bind fun t =>
    (kmalloc 64#32 s).bind fun (p1, s) =>
      (kmalloc 128#32 s).bind fun (p2, s) =>
        (kmalloc 256#32 s).map fun (p3, s) =>
          (⟨t.total / 1024#32, t.used, t.free / 1024#32, p1, p2, p3⟩,
            kfree p3 (kfree p2 (kfree p1 s)))

/-! ## Headers as memory objects -/

section Frames

variable {m m' : Memory} {a b v x : Word} {w : Byte}

/-- A header is a function of its thirteen bytes. -/
theorem header_congr (same : ∀ x, Memory.InRange a headerBytes x → m x = m' x) :
    header m a = header m' a := by
  unfold header
  rw [Memory.read32_congr fun x inA => same x (by unfold Memory.InRange headerBytes at *; omega),
    same (a + 4) (by unfold Memory.InRange headerBytes; bv_omega),
    Memory.read32_congr fun x inA => same x
      (by unfold Memory.InRange headerBytes at *; bv_omega),
    Memory.read32_congr fun x inA => same x
      (by unfold Memory.InRange headerBytes at *; bv_omega)]

/-! A field store changes its own field, and no byte outside its header. -/

@[simp] theorem setSize_apply (outside : ¬ Memory.InRange a headerBytes x) :
    setSize m a v x = m x :=
  Memory.write32_apply_of_not_inRange fun inA =>
    outside (by unfold Memory.InRange headerBytes at *; omega)

@[simp] theorem setUsed_apply (outside : ¬ Memory.InRange a headerBytes x) :
    setUsed m a w x = m x :=
  Memory.write8_apply_of_ne fun eq =>
    outside (by subst eq; unfold Memory.InRange headerBytes; bv_omega)

@[simp] theorem setNext_apply (outside : ¬ Memory.InRange a headerBytes x) :
    setNext m a v x = m x :=
  Memory.write32_apply_of_not_inRange fun inA =>
    outside (by unfold Memory.InRange headerBytes at *; bv_omega)

@[simp] theorem setPrev_apply (outside : ¬ Memory.InRange a headerBytes x) :
    setPrev m a v x = m x :=
  Memory.write32_apply_of_not_inRange fun inA =>
    outside (by unfold Memory.InRange headerBytes at *; bv_omega)

@[simp] theorem header_setSize : header (setSize m a v) a = { header m a with size := v } := by
  have used : setSize m a v (a + 4) = m (a + 4) :=
    Memory.write32_apply_of_not_inRange (by unfold Memory.InRange; bv_omega)
  unfold header
  rw [used]
  unfold setSize
  rw [Memory.read32_write32_self, Memory.read32_write32_sep, Memory.read32_write32_sep]
  all_goals intro x inA inB; unfold Memory.InRange at *; bv_omega

@[simp] theorem header_setUsed : header (setUsed m a w) a = { header m a with used := w } := by
  unfold header setUsed
  rw [Memory.write8_self, Memory.read32_write8_sep, Memory.read32_write8_sep,
    Memory.read32_write8_sep]
  all_goals unfold Memory.InRange; bv_omega

@[simp] theorem header_setNext : header (setNext m a v) a = { header m a with next := v } := by
  have used : setNext m a v (a + 4) = m (a + 4) :=
    Memory.write32_apply_of_not_inRange (by unfold Memory.InRange; bv_omega)
  unfold header
  rw [used]
  unfold setNext
  rw [Memory.read32_write32_self, Memory.read32_write32_sep, Memory.read32_write32_sep]
  all_goals intro x inA inB; unfold Memory.InRange at *; bv_omega

@[simp] theorem header_setPrev : header (setPrev m a v) a = { header m a with prev := v } := by
  have used : setPrev m a v (a + 4) = m (a + 4) :=
    Memory.write32_apply_of_not_inRange (by unfold Memory.InRange; bv_omega)
  unfold header
  rw [used]
  unfold setPrev
  rw [Memory.read32_write32_self, Memory.read32_write32_sep, Memory.read32_write32_sep]
  all_goals intro x inA inB; unfold Memory.InRange at *; bv_omega

/-- Two headers that share no byte. -/
def Apart (a b : Word) : Prop := Memory.Sep a headerBytes b headerBytes

theorem Apart.symm (apart : Apart a b) : Apart b a := Memory.Sep.symm apart

@[simp] theorem header_setSize_apart (apart : Apart a b) : header (setSize m b v) a = header m a :=
  header_congr fun x inA => setSize_apply (apart x inA)

@[simp] theorem header_setUsed_apart (apart : Apart a b) : header (setUsed m b w) a = header m a :=
  header_congr fun x inA => setUsed_apply (apart x inA)

@[simp] theorem header_setNext_apart (apart : Apart a b) : header (setNext m b v) a = header m a :=
  header_congr fun x inA => setNext_apply (apart x inA)

@[simp] theorem header_setPrev_apart (apart : Apart a b) : header (setPrev m b v) a = header m a :=
  header_congr fun x inA => setPrev_apply (apart x inA)

end Frames

end Learnix
