import Learnix.Fat16Lookup

/-!
# Files read as text

The shell's `cat` and three reads of `kernel_main` read a file into a buffer of
512 bytes, with 512 as the limit, and store a zero after what was read. The
zero lies in the buffer exactly when less than 512 bytes were read
(`text_inside_iff`): a file that fills the buffer has its terminator stored
behind it.
-/

namespace Learnix

open Machine

variable {disk : Disk} {fs : Fat16} {name : Fin 11 → Byte} {buffer : Word → Byte}

/-- The size of `filebuf` and `file_buf`, and the limit of the reads. -/
def fileBufSize : Nat := 512

/-- `n = fat16_read_file(name, buffer, 512)`, and `buffer[n] = '\0'` when `n > 0`; with
the returned `n`. -/
def readText (disk : Disk) (fs : Fat16) (name : Fin 11 → Byte) (buffer : Word → Byte) :
    Option (Int × (Word → Byte)) :=
  (fat16ReadFile disk fs name buffer (BitVec.ofNat 32 fileBufSize)).map fun r =>
    (r.1, if r.1 > 0 then Function.update r.2 (BitVec.ofInt 32 r.1) 0#8 else r.2)

/-- The `cat` command of `shell_run`, whose argument `to_fat_name` has made `fatname`. -/
def cat (disk : Disk) (fs : Fat16) (fatname : Fin 11 → Byte) (filebuf : Word → Byte) :
    Option (Int × (Word → Byte)) :=
  readText disk fs fatname filebuf

/-- The characters of a string literal of 11 characters. -/
def literalName (s : String) : Fin 11 → Byte := fun c => BitVec.ofNat 8 (s.toList.getD c ' ').toNat

/-- The three reads of `kernel_main`, into one `file_buf`; with the returned numbers. -/
def kernelMainReads (disk : Disk) (fs : Fat16) (fileBuf : Word → Byte) :
    Option (List Int × (Word → Byte)) := do
  let (hola, fileBuf) ← readText disk fs (literalName "HOLA    TXT") fileBuf
  let (test, fileBuf) ← readText disk fs (literalName "TEST    TXT") fileBuf
  let (readme, fileBuf) ← readText disk fs (literalName "README  TXT") fileBuf
  return ([hola, test, readme], fileBuf)

/-- The index of each terminator lies in the buffer, and nothing was stored outside of it. -/
structure Inside (buffer : Word → Byte) (counts : List Int) (after : Word → Byte) : Prop where
  index : ∀ n ∈ counts, n < fileBufSize
  kept : ∀ k, fileBufSize ≤ k.toNat → after k = buffer k

/-- The file that the name stands for, if any, is shorter than the buffer or cannot be
read at all. -/
def LeavesRoom (disk : Disk) (fs : Fat16) (name : Fin 11 → Byte) : Prop :=
  ∀ i e, FirstMatch (slotAt disk fs.rootStart) (slotCount fs) name i e →
    e.fileSize.toNat < fileBufSize ∨ disk (firstSector fs e.firstCluster) = none

/-! ## One read -/

/-- How many bytes a read of the entry into the buffer gives. -/
def textSize (disk : Disk) (fs : Fat16) (e : Entry) : Nat :=
  if disk (firstSector fs e.firstCluster) = none then 0 else min e.fileSize.toNat fileBufSize

/-- `fat16_read_file` with the limit of the buffer, on any disk. -/
theorem fat16ReadFile_text (disk : Disk) (fs : Fat16) (name : Fin 11 → Byte)
    (buffer : Word → Byte) :
    ((∀ i e, ¬ SlotMatches (slotAt disk fs.rootStart) (slotCount fs) name i e) ∧
      fat16ReadFile disk fs name buffer (BitVec.ofNat 32 fileBufSize) = some (-1, buffer)) ∨
    ∃ i e b, FirstMatch (slotAt disk fs.rootStart) (slotCount fs) name i e ∧
      fat16ReadFile disk fs name buffer (BitVec.ofNat 32 fileBufSize) =
        some ((textSize disk fs e : Int), b) ∧
      ∀ k, textSize disk fs e ≤ k.toNat → b k = buffer k := by
  have limit : (BitVec.ofNat 32 fileBufSize).toNat = fileBufSize := rfl
  rcases fat16ReadFile_any disk fs name (by decide : (BitVec.ofNat 32 fileBufSize).toNat < 2 ^ 31)
    with ⟨absent, fails⟩ | ⟨i, e, j, first, sound, stop, reads⟩
  · exact .inl ⟨absent, fails buffer⟩
  · have size : min (512 * j) (readSize e (BitVec.ofNat 32 fileBufSize)) = textSize disk fs e := by
      rw [readSize, limit] at stop ⊢
      unfold textSize
      have few : min e.fileSize.toNat fileBufSize ≤ 512 := Nat.min_le_right _ _
      rcases Nat.eq_zero_or_pos j with rfl | pos
      · split
        · omega
        · next read =>
          have nothing := mt stop (by rwa [BitVec.add_zero])
          omega
      · have read := sound 0 pos
        rw [BitVec.add_zero] at read
        rw [if_neg read]
        omega
    rw [size] at reads
    obtain ⟨b, call, bytes⟩ := reads buffer
    refine .inr ⟨i, e, b, first, call, fun k beyond => ?_⟩
    rw [bytes, if_neg (Nat.not_lt.mpr beyond)]

/-- A read that is not found, or that leaves room for the terminator, stays inside the
buffer. -/
theorem readText_inside (room : LeavesRoom disk fs name) (buffer : Word → Byte) :
    ∃ n b, readText disk fs name buffer = some (n, b) ∧ Inside buffer [n] b := by
  rcases fat16ReadFile_text disk fs name buffer with ⟨-, call⟩ | ⟨i, e, b, first, call, kept⟩
  · refine ⟨-1, buffer, by rw [readText, call]; rfl, ?_, fun k _ => rfl⟩
    simp [fileBufSize]
  · have below : textSize disk fs e < fileBufSize := by
      unfold textSize
      rcases room i e first with short | unreadable
      · split
        · exact Nat.zero_lt_of_lt short
        · exact Nat.lt_of_le_of_lt (Nat.min_le_left _ _) short
      · rw [if_pos unreadable]
        decide
    rw [readText, call, Option.map_some]
    refine ⟨_, _, rfl, ?_, fun k beyond => ?_⟩
    · intro n member
      rw [List.mem_singleton.mp member]
      exact Int.ofNat_lt.mpr below
    · have old := kept k (Nat.le_trans (Nat.le_of_lt below) beyond)
      split
      · have place : (BitVec.ofInt 32 (textSize disk fs e)).toNat = textSize disk fs e := by
          rw [BitVec.ofInt_natCast, BitVec.toNat_ofNat, Nat.mod_eq_of_lt]
          exact Nat.lt_trans below (by decide)
        refine (Function.update_of_ne ?_ _ _).trans old
        rintro rfl
        exact absurd beyond (Nat.not_le.mpr (place.trans_lt below))
      · exact old

/-- A read that fills the buffer: the terminator is stored behind it. -/
theorem readText_full (full : ¬ LeavesRoom disk fs name) (buffer : Word → Byte) :
    ∃ b, readText disk fs name buffer = some ((fileBufSize : Int), b) ∧ b 512#32 = 0#8 := by
  rcases fat16ReadFile_text disk fs name buffer with ⟨absent, call⟩ | ⟨i, e, b, first, call, -⟩
  · exact absurd (fun i e first => absurd first.1 (absent i e)) full
  · have size : textSize disk fs e = fileBufSize := by
      by_contra less
      refine full fun j d second => ?_
      obtain ⟨-, rfl⟩ := first.unique second
      by_contra neither
      rw [not_or] at neither
      rw [textSize, if_neg neither.2] at less
      omega
    rw [readText, call, Option.map_some, size]
    have some_ : (fileBufSize : Int) > 0 := by decide
    refine ⟨_, rfl, ?_⟩
    simp only [if_pos some_]
    exact Function.update_self (512#32) 0#8 b

/-! ## The callers -/

/-- The names of the three reads of `kernel_main`. -/
def kernelMainNames : List (Fin 11 → Byte) :=
  [literalName "HOLA    TXT", literalName "TEST    TXT", literalName "README  TXT"]

theorem Inside.append {buffer b b' : Word → Byte} {counts counts' : List Int}
    (first : Inside buffer counts b) (second : Inside b counts' b') :
    Inside buffer (counts ++ counts') b' :=
  ⟨List.forall_mem_append.mpr ⟨first.index, second.index⟩,
    fun k beyond => (second.kept k beyond).trans (first.kept k beyond)⟩

/-- Every read ends. -/
theorem exists_readText (disk : Disk) (fs : Fat16) (name : Fin 11 → Byte) (buffer : Word → Byte) :
    ∃ n b, readText disk fs name buffer = some (n, b) ∧
      (LeavesRoom disk fs name → Inside buffer [n] b) ∧
      (n < fileBufSize → LeavesRoom disk fs name) := by
  by_cases room : LeavesRoom disk fs name
  · obtain ⟨n, b, call, inside⟩ := readText_inside room buffer
    exact ⟨n, b, call, fun _ => inside, fun _ => room⟩
  · obtain ⟨b, call, -⟩ := readText_full room buffer
    exact ⟨_, b, call, fun leaves => absurd leaves room, fun less => absurd less (lt_irrefl _)⟩

theorem exists_kernelMainReads (disk : Disk) (fs : Fat16) (fileBuf : Word → Byte) :
    ∃ counts b, kernelMainReads disk fs fileBuf = some (counts, b) ∧
      ((∀ name ∈ kernelMainNames, LeavesRoom disk fs name) → Inside fileBuf counts b) ∧
      ((∀ n ∈ counts, n < fileBufSize) → ∀ name ∈ kernelMainNames, LeavesRoom disk fs name) := by
  rcases exists_readText disk fs (literalName "HOLA    TXT") fileBuf with
    ⟨hola, b, first, insideHola, roomHola⟩
  rcases exists_readText disk fs (literalName "TEST    TXT") b with
    ⟨test, b', second, insideTest, roomTest⟩
  rcases exists_readText disk fs (literalName "README  TXT") b' with
    ⟨readme, b'', third, insideReadme, roomReadme⟩
  refine ⟨[hola, test, readme], b'', ?_, fun rooms => ?_, fun below => ?_⟩
  · simp only [kernelMainReads, first, second, third, Option.bind_eq_bind, Option.bind_some]
    rfl
  · simp only [kernelMainNames, List.forall_mem_cons] at rooms
    exact (insideHola rooms.1).append ((insideTest rooms.2.1).append (insideReadme rooms.2.2.1))
  · simp only [List.forall_mem_cons] at below
    simp only [kernelMainNames, List.forall_mem_cons]
    exact ⟨roomHola below.1, roomTest below.2.1, roomReadme below.2.2.1,
      fun name member => absurd member List.not_mem_nil⟩

/-- The terminators that `cat` and `kernel_main` store lie inside their buffers, whatever
the buffers hold before, exactly when the files they read leave room for them. -/
theorem text_inside_iff (disk : Disk) (fs : Fat16) :
    (∀ fatname, (∀ filebuf, ∃ n b, cat disk fs fatname filebuf = some (n, b) ∧
        Inside filebuf [n] b) ↔ LeavesRoom disk fs fatname) ∧
      ((∀ fileBuf, ∃ counts b, kernelMainReads disk fs fileBuf = some (counts, b) ∧
        Inside fileBuf counts b) ↔ ∀ name ∈ kernelMainNames, LeavesRoom disk fs name) := by
  constructor
  · intro fatname
    constructor
    · intro all
      obtain ⟨n, b, call, inside⟩ := all fun _ => 0#8
      obtain ⟨n', b', call', -, room⟩ := exists_readText disk fs fatname fun _ => 0#8
      obtain ⟨rfl, -⟩ := Prod.mk.inj (Option.some_inj.mp (call.symm.trans call'))
      exact room (inside.index n (List.mem_singleton_self n))
    · exact readText_inside
  · constructor
    · intro all
      obtain ⟨counts, b, call, inside⟩ := all fun _ => 0#8
      obtain ⟨counts', b', call', -, rooms⟩ := exists_kernelMainReads disk fs fun _ => 0#8
      obtain ⟨rfl, -⟩ := Prod.mk.inj (Option.some_inj.mp (call.symm.trans call'))
      exact rooms inside.index
    · intro rooms fileBuf
      obtain ⟨counts, b, call, inside, -⟩ := exists_kernelMainReads disk fs fileBuf
      exact ⟨counts, b, call, inside rooms⟩

/-- A file of 512 bytes in the second cluster. -/
def fullText (lba : Word) : Sector :=
  if lba = 65#32 then
    sectorOf [0x48, 0x4F, 0x4C, 0x41, 0x20, 0x20, 0x20, 0x20, 0x54, 0x58, 0x54, 0x20,
      0, 0, 0, 0, 0, 0, 0, 0, 0, 0, 0, 0, 0, 0, 2, 0, 0x00, 0x02, 0, 0]
  else fragmented lba

/-- `HOLA.TXT` fills the buffer, and its terminator is stored behind it. -/
theorem cat_beyond :
    fat16Init (readable fullText) fragmentedFs = (0, fragmentedFs) ∧
      (∃ b, cat (readable fullText) fragmentedFs (literalName "HOLA    TXT") (fun _ => 0xFF#8) =
        some (512, b) ∧ b 512#32 = 0#8) ∧
      ¬ (∀ fatname filebuf, ∃ n b, cat (readable fullText) fragmentedFs fatname filebuf =
        some (n, b) ∧ Inside filebuf [n] b) ∧
      ¬ (∀ fileBuf, ∃ counts b, kernelMainReads (readable fullText) fragmentedFs fileBuf =
        some (counts, b) ∧ Inside fileBuf counts b) := by
  have first : FirstMatch (slotAt (readable fullText) fragmentedFs.rootStart)
      (slotCount fragmentedFs) (literalName "HOLA    TXT") 0 (entryAt (fullText 65#32) 0) :=
    firstMatch_zero (by decide +kernel) rfl (by decide +kernel) (by decide +kernel)
  have full : ¬ LeavesRoom (readable fullText) fragmentedFs (literalName "HOLA    TXT") := by
    intro room
    rcases room 0 _ first with short | unreadable
    · exact absurd short (by decide +kernel)
    · exact Option.some_ne_none _ unreadable
  refine ⟨rfl, readText_full full _, fun all => ?_, fun all => ?_⟩
  · obtain ⟨n, b, call, inside⟩ := all (literalName "HOLA    TXT") fun _ => 0#8
    obtain ⟨b', call', -⟩ := readText_full full fun _ => 0#8
    obtain ⟨rfl, -⟩ := Prod.mk.inj (Option.some_inj.mp (call.symm.trans call'))
    exact absurd (inside.index _ (List.mem_singleton_self _)) (lt_irrefl _)
  · obtain ⟨counts, b, call, inside⟩ := all fun _ => 0#8
    rcases exists_kernelMainReads (readable fullText) fragmentedFs fun _ => 0#8 with
      ⟨counts', b', call', -, rooms⟩
    obtain ⟨rfl, -⟩ := Prod.mk.inj (Option.some_inj.mp (call.symm.trans call'))
    exact full (rooms inside.index _ List.mem_cons_self)

end Learnix
