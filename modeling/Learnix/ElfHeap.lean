import Learnix.ElfImage
import Learnix.KernelHeap

/-!
# Loading a program beside the heap

`elf_load` stores a segment wherever its header says. Nothing checks the addresses:
`user.ld` links programs at 0x300000, where the heap ends. What the segments do to the
heap is therefore what their headers say (`heap_kept`), with the table and the sources of
the segments off the text screen, on which `elf_load` prints.
-/

namespace Learnix

open Machine Memory Tiling

variable {m : Memory} {a elfBuffer entry : Word} {l : Loader} {h : HeapState}
  {live : List (Word × Word)} {disk : Disk} {fs : Fat16} {name : Fin 11 → Byte} {bytes : Int}
  {buffer : Word → Byte}

/-- No segment has a destination in the heap. -/
def KeepsHeap (m : Memory) (elfBuffer : Word) : Prop :=
  ∀ ph ∈ programHeaders m elfBuffer, ∀ a, ph.StoresTo a → ¬ InHeap a

/-- The block list does not change with bytes outside the heap. -/
theorem Represents.frame {bs : List Block} (represents : Represents h bs)
    (same : ∀ a, InHeap a → m a = h.mem a) : Represents { h with mem := m } bs := by
  obtain ⟨start, tiles, linked⟩ := represents
  refine ⟨start, tiles, linked.frame fun b member => header_congr fun x inHeader => ?_⟩
  apply same x
  have bounds := heap_bounds tiles member
  have size : heapSize = 0x100000 := rfl
  have start : heapStart = 0x200000 := rfl
  unfold InRange addrOf headerBytes at inHeader
  unfold InHeap InRange
  bv_omega

theorem Holds.frame (holds : Holds h live) (same : ∀ a, InHeap a → m a = h.mem a) :
    Holds { h with mem := m } live := by
  obtain ⟨bs, inv⟩ := holds
  obtain ⟨represents, canonical, known, distinct, -⟩ := inv
  exact ⟨bs, represents.frame same, canonical, known, distinct, nofun⟩

/-- A block in use is in the heap. -/
theorem Holds.inHeap {r : Word × Word} {x : Word} (holds : Holds h live) (member : r ∈ live)
    (owns : Owns r x) : InHeap x := by
  obtain ⟨bs, inv⟩ := holds
  obtain ⟨b, used, rfl⟩ := (inv.live r).mp member
  have listed := (mem_live.mp used).1
  have inside := (owns_allocation inv.represents.tiles listed).mp owns
  have bounds := heap_bounds inv.represents.tiles listed
  have bytes : headerBytes = 13 := rfl
  have size : heapSize = 0x100000 := rfl
  have start : heapStart = 0x200000 := rfl
  unfold Block.stop at inside
  unfold InHeap InRange
  bv_omega

/-- What an accepted file leaves, when its segments keep off its headers. -/
theorem loaded_of_entered
    (read : fat16ReadFile disk fs name (fun k => m (elfBuffer + k))
      (BitVec.ofNat 32 elfBufferSize) = some (bytes, buffer))
    (accepted : elfLoadToEntry disk fs name elfBuffer m = some (.entered entry l))
    (keeps : KeepsHeaders (afterRead elfBuffer buffer) elfBuffer) :
    Loaded (afterRead elfBuffer buffer) elfBuffer
      (headerCount (afterRead elfBuffer buffer) elfBuffer) l := by
  rw [elfLoadToEntry_of_read read, Option.some.injEq] at accepted
  have loaded := segmentLoop_loaded keeps
  have final : l = segmentLoop elfBuffer (tableAt (afterRead elfBuffer buffer) elfBuffer)
      ⟨afterRead elfBuffer buffer, []⟩ := by
    unfold elfLoadRead at accepted
    split at accepted
    · cases accepted
    · split at accepted
      · cases accepted
      · exact (ElfLoad.entered.inj accepted).2.symm
  rw [final]
  exact loaded

/-- The loops of `elf_load` store to the destinations that the headers of the file say, if
these keep off the headers themselves. So they store to the heap if and only if one of
these destinations is in it, and otherwise leave every byte of the heap and its block list
as they were. -/
theorem heap_kept
    (read : fat16ReadFile disk fs name (fun k => m (elfBuffer + k))
      (BitVec.ofNat 32 elfBufferSize) = some (bytes, buffer))
    (accepted : elfLoadToEntry disk fs name elfBuffer m = some (.entered entry l))
    (keeps : KeepsHeaders (afterRead elfBuffer buffer) elfBuffer) :
    (∀ a, a ∈ l.stored ↔ ∃ ph ∈ programHeaders (afterRead elfBuffer buffer) elfBuffer,
        ph.StoresTo a) ∧
      ((∀ a ∈ l.stored, ¬ InHeap a) ↔ KeepsHeap (afterRead elfBuffer buffer) elfBuffer) ∧
      (KeepsHeap (afterRead elfBuffer buffer) elfBuffer →
        (∀ a, InHeap a → l.mem a = afterRead elfBuffer buffer a) ∧
        ∀ h live, h.mem = afterRead elfBuffer buffer → Holds h live →
          Holds { h with mem := l.mem } live ∧
          (∃ bs, h.blocks = some bs ∧ { h with mem := l.mem }.blocks = some bs) ∧
          ∀ r ∈ live, ∀ x, Owns r x → l.mem x = h.mem x) := by
  have loaded := loaded_of_entered read accepted keeps
  have kept : KeepsHeap (afterRead elfBuffer buffer) elfBuffer →
      ∀ a, InHeap a → l.mem a = afterRead elfBuffer buffer a := fun keepsHeap a inHeap =>
    loaded.frame a fun ph member storesTo => keepsHeap ph member a storesTo inHeap
  refine ⟨loaded.stored, ⟨fun outside ph member a storesTo => ?_, fun keepsHeap a stored => ?_⟩,
    fun keepsHeap => ⟨kept keepsHeap, fun h live before holds => ?_⟩⟩
  · exact outside a ((loaded.stored a).mpr ⟨ph, member, storesTo⟩)
  · obtain ⟨ph, member, storesTo⟩ := (loaded.stored a).mp stored
    exact keepsHeap ph member a storesTo
  · have same : ∀ a, InHeap a → l.mem a = h.mem a := fun a inHeap =>
      (kept keepsHeap a inHeap).trans (congrFun before a).symm
    have holds' := holds.frame same
    refine ⟨holds', holds.blocks_eq holds', fun r member x owns => same x ?_⟩
    exact holds.inHeap member owns

/-- A well-formed file is accepted, and its headers are not stored to. -/
theorem WellFormed.entered {sectors : Word → Sector} {e : Entry} (m : Memory)
    (found : lookup (rootSlots sectors fs) name = some e)
    (small : e.fileSize.toNat ≤ elfBufferSize)
    (accepted : elfVerify (elf32Hdr (fileBytes sectors fs e) 0#32) = .ok ())
    (wellFormed : WellFormed (fileBytes sectors fs e) e.fileSize.toNat elfBuffer) :
    ∃ bytes buffer entry l, fat16ReadFile (readable sectors) fs name (fun k => m (elfBuffer + k))
        (BitVec.ofNat 32 elfBufferSize) = some (bytes, buffer) ∧
      elfLoadToEntry (readable sectors) fs name elfBuffer m = some (.entered entry l) ∧
      KeepsHeaders (afterRead elfBuffer buffer) elfBuffer ∧
      (programHeaders (afterRead elfBuffer buffer) elfBuffer =
        programHeaders (fileBytes sectors fs e) 0#32) ∧
      ∀ a, ¬ InRange elfBuffer elfBufferSize a → afterRead elfBuffer buffer a = m a := by
  obtain ⟨b, read, memory⟩ := read_file elfBuffer m found small
  have same := withFile_same elfBuffer e.fileSize.toNat (fileBytes sectors fs e) m
  have load := elfLoadToEntry_of_read read
  have header := elf32Hdr_buffered same wellFormed.header
  rw [memory, elfLoadRead_entered (Int.natCast_nonneg _) (header ▸ accepted)] at load
  refine ⟨_, b, _, _, read, load, ?_⟩
  rw [memory]
  exact ⟨wellFormed.keepsHeaders same small, wellFormed.programHeaders_eq same, fun a beyond =>
    withFile_of_not_inRange fun inside => beyond (Nat.lt_of_lt_of_le inside small)⟩

theorem holds_heapInit : Holds (heapInit blankHeap) [] :=
  (heapInvariant_init blankHeap).holds List.nodup_nil fun _ => Iff.rfl

/-- Loading the file after `heap_init` changes a byte of the heap. -/
def StoresToHeap (size : Nat) (elf : List Nat) : Prop :=
  ∃ entry l, elfLoadToEntry (readable (oneFile size elf)) fragmentedFs
      (oneFileEntry size).fatName 0x110000#32 (heapInit blankHeap).mem =
        some (.entered entry l) ∧
    ∃ a ∈ l.stored, InHeap a ∧ l.mem a ≠ (heapInit blankHeap).mem a

/-- The memory when the segments of such a file are loaded. -/
def memoryWith (size : Nat) (elf : List Nat) : Memory :=
  withFile 0x110000#32 (oneFileEntry size).fileSize.toNat
    (fileBytes (oneFile size elf) fragmentedFs (oneFileEntry size)) (heapInit blankHeap).mem

theorem storesToHeap_of {size : Nat} {elf : List Nat}
    (found : lookup (rootSlots (oneFile size elf) fragmentedFs) (oneFileEntry size).fatName =
      some (oneFileEntry size))
    (small : (oneFileEntry size).fileSize.toNat ≤ elfBufferSize)
    (accepted : elfVerify (elf32Hdr (memoryWith size elf) 0x110000#32) = .ok ())
    (stored : ∃ a ∈ (segmentLoop 0x110000#32 (tableAt (memoryWith size elf) 0x110000#32)
        ⟨memoryWith size elf, []⟩).stored, InHeap a ∧
      (segmentLoop 0x110000#32 (tableAt (memoryWith size elf) 0x110000#32)
        ⟨memoryWith size elf, []⟩).mem a ≠ (heapInit blankHeap).mem a) :
    StoresToHeap size elf := by
  obtain ⟨b, read, memory⟩ := read_file 0x110000#32 (heapInit blankHeap).mem found small
  have load := elfLoadToEntry_of_read read
  rw [memory, ← memoryWith, elfLoadRead_entered (Int.natCast_nonneg _) accepted] at load
  exact ⟨_, _, load, stored⟩

/-- A program whose first segment is stored to the second header, to its `p_vaddr`. -/
def rewritingElf : List Nat :=
  [0x7F, 0x45, 0x4C, 0x46, 1, 1, 1, 0, 0, 0, 0, 0, 0, 0, 0, 0, 2, 0, 3, 0, 1, 0, 0, 0] ++
    le32 0x300000 ++ le32 52 ++ le32 0 ++ le32 0 ++ [52, 0, 32, 0, 2, 0, 0, 0, 0, 0, 0, 0] ++
    le32 1 ++ le32 116 ++ le32 0x11005C ++ le32 0x11005C ++ le32 4 ++ le32 4 ++ le32 6 ++ le32 1 ++
    le32 1 ++ le32 116 ++ le32 0x300000 ++ le32 0x300000 ++ le32 4 ++ le32 4 ++ le32 5 ++ le32 1 ++
    le32 0x200000

/-- A program linked inside the heap is accepted, and stored to the first header of the
block list. So is one whose headers say nothing of the kind, but do not stay as they are. -/
theorem heap_kept_inside :
    Holds (heapInit blankHeap) [] ∧ StoresToHeap 85 (tinyElf 0x200000) ∧
      StoresToHeap 120 rewritingElf ∧ KeepsHeap (memoryWith 120 rewritingElf) 0x110000#32 := by
  have headers : programHeaders (memoryWith 120 rewritingElf) 0x110000#32 =
      [⟨1#32, 116#32, 0x11005C#32, 4#32, 4#32⟩, ⟨1#32, 116#32, 0x300000#32, 4#32, 4#32⟩] := by
    decide +kernel
  refine ⟨holds_heapInit, ?_, ?_, ?_⟩
  · exact storesToHeap_of (by decide +kernel) (by decide +kernel) (by decide +kernel)
      ⟨0x200000#32, by decide +kernel⟩
  · exact storesToHeap_of (by decide +kernel) (by decide +kernel) (by decide +kernel)
      ⟨0x200000#32, by decide +kernel⟩
  · intro ph member a storesTo inHeap
    rw [headers] at member
    rcases List.mem_cons.mp member with rfl | last
    · have within : InRange 0x11005C#32 4 a := storesTo.2
      exact sep_of_le (by decide) (by decide) (.inl (by decide)) a within inHeap
    · rw [List.mem_singleton.mp last] at storesTo
      have within : InRange 0x300000#32 4 a := storesTo.2
      exact sep_of_le (by decide) (by decide) (.inr (by decide)) a within inHeap

/-- The program linked at the end of the heap keeps off it. -/
theorem keepsHeap_tiny (headers : programHeaders m elfBuffer = programHeaders tinyFile 0#32) :
    KeepsHeap m elfBuffer := by
  unfold KeepsHeap
  rw [headers, programHeaders_tiny]
  intro ph member a storesTo inHeap
  rw [List.mem_singleton.mp member] at storesTo
  have within : InRange 0x300000#32 2 a := storesTo.2
  exact sep_of_le (by decide) (by decide) (.inr (by decide)) a within inHeap

/-- An address for `elf_buffer` apart from the heap. -/
theorem bufferApart : ∀ a, InHeap a → ¬ InRange 0x110000#32 elfBufferSize a :=
  fun a inHeap inBuffer => sep_of_le (by decide) (by decide) (.inl (by decide)) a inBuffer inHeap

theorem heap_kept_tiny :
    ∃ entry l, elfLoadToEntry (readable (oneFile 85 (tinyElf 0x300000))) fragmentedFs
        (oneFileEntry 85).fatName 0x110000#32 (heapInit blankHeap).mem =
          some (.entered entry l) ∧
      (∀ a ∈ l.stored, ¬ InHeap a) ∧ Holds { heapInit blankHeap with mem := l.mem } [] := by
  have small : (oneFileEntry 85).fileSize.toNat ≤ elfBufferSize := by decide +kernel
  obtain ⟨bytes, buffer, entry, l, read, load, keeps, headers, outside⟩ :=
    wellFormed_tiny.entered (heapInit blankHeap).mem lookup_tiny small (by decide +kernel)
  obtain ⟨-, stored, heap⟩ := heap_kept read load keeps
  have keepsHeap := keepsHeap_tiny headers
  have before : Holds { heapInit blankHeap with mem := afterRead 0x110000#32 buffer } [] :=
    holds_heapInit.frame fun a inHeap => outside a (bufferApart a inHeap)
  exact ⟨entry, l, load, stored.mpr keepsHeap, ((heap keepsHeap).2 _ [] rfl before).1⟩

end Learnix
