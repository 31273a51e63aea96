import Learnix.ElfSegments
import Learnix.Fat16Read

/-!
# The memory image of an ELF file

For a well-formed file, `elf_load` leaves at every address the byte that the last
`PT_LOAD` header says whose range contains it, and nothing else has changed outside
`elf_buffer` (`elfLoadToEntry_image`). The bytes of the file are those that
`fat16_read_file` takes, from consecutive sectors.
-/

namespace Learnix

open Machine Memory ForLoop

variable {m m' file : Memory} {a elfBuffer : Word} {i n : Nat} {ph : Elf32Phdr}
  {phs : List Elf32Phdr} {l l' : Loader} {sectors : Word → Sector} {fs : Fat16}
  {name : Fin 11 → Byte} {e : Entry}

/-! ## What the file says -/

/-- `a` is in the range of a segment that is loaded. -/
def Elf32Phdr.Covers (ph : Elf32Phdr) (a : Word) : Prop :=
  ph.pType = ptLoad ∧ ph.pVaddr.toNat ≤ a.toNat ∧ a.toNat < ph.pVaddr.toNat + ph.pMemsz.toNat

instance (ph : Elf32Phdr) (a : Word) : Decidable (ph.Covers a) :=
  inferInstanceAs (Decidable (ph.pType = ptLoad ∧ ph.pVaddr.toNat ≤ a.toNat ∧
    a.toNat < ph.pVaddr.toNat + ph.pMemsz.toNat))

/-- The last segment, in table order, whose range contains `a`. -/
def lastCovering (phs : List Elf32Phdr) (a : Word) : Option Elf32Phdr :=
  (phs.filter fun ph => ph.Covers a).getLast?

/-- The byte of the segment at `a`, in a file whose byte `k` is `file k`. -/
def Elf32Phdr.imageByte (ph : Elf32Phdr) (file : Memory) (a : Word) : Byte :=
  if a.toNat - ph.pVaddr.toNat < ph.pFilesz.toNat then
    file (BitVec.ofNat 32 (ph.pOffset.toNat + (a.toNat - ph.pVaddr.toNat)))
  else 0#8

/-- A file of `n` bytes that has its headers and its segments inside, and whose segments
go neither past the end of memory nor to `elf_buffer`. -/
structure WellFormed (file : Memory) (n : Nat) (elfBuffer : Word) : Prop where
  header : ehdrSize ≤ n
  entrySize : (elf32Hdr file 0#32).ePhentsize = BitVec.ofNat 16 phdrSize
  table : headerCount file 0#32 ≠ 0 →
    (elf32Hdr file 0#32).ePhoff.toNat + phdrSize * headerCount file 0#32 ≤ n
  source : ∀ ph ∈ programHeaders file 0#32, ph.pType = ptLoad → ph.pFilesz ≠ 0#32 →
    ph.pOffset.toNat + ph.pFilesz.toNat ≤ n
  sizes : ∀ ph ∈ programHeaders file 0#32, ph.pType = ptLoad →
    ph.pFilesz.toNat ≤ ph.pMemsz.toNat
  fits : ∀ ph ∈ programHeaders file 0#32, ph.pType = ptLoad →
    ph.pVaddr.toNat + ph.pMemsz.toNat ≤ 2 ^ 32
  apart : ∀ ph ∈ programHeaders file 0#32, ph.pType = ptLoad →
    Sep ph.pVaddr ph.pMemsz.toNat elfBuffer elfBufferSize

/-- The bytes of a file. -/
def fileBytes (sectors : Word → Sector) (fs : Fat16) (e : Entry) : Memory :=
  fun k => byteFrom sectors (firstSector fs e.firstCluster) k.toNat

theorem lastCovering_append (phs : List Elf32Phdr) (ph : Elf32Phdr) (a : Word) :
    lastCovering (phs ++ [ph]) a = if ph.Covers a then some ph else lastCovering phs a := by
  rw [lastCovering, List.filter_append]
  split
  case isTrue covers =>
    rw [List.filter_cons_of_pos (by simpa using covers), List.filter_nil, List.getLast?_concat]
  case isFalse uncovered =>
    rw [List.filter_cons_of_neg (by simpa using uncovered), List.filter_nil, List.append_nil]
    rfl

theorem mem_of_lastCovering (last : lastCovering phs a = some ph) : ph ∈ phs ∧ ph.Covers a := by
  have member := List.mem_filter.mp (List.mem_of_getLast? last)
  exact ⟨member.1, of_decide_eq_true member.2⟩

theorem WellFormed.covers_iff (wellFormed : WellFormed file n elfBuffer)
    (member : ph ∈ programHeaders file 0#32) : ph.Covers a ↔ ph.StoresTo a := by
  apply and_congr_right
  intro load
  have all : ph.extent = ph.pMemsz.toNat := Nat.max_eq_right (wellFormed.sizes ph member load)
  rw [all, inRange_iff (wellFormed.fits ph member load)]

/-- No segment is stored to `elf_buffer`. -/
theorem WellFormed.not_storesTo (wellFormed : WellFormed file n elfBuffer)
    (member : ph ∈ programHeaders file 0#32) (inBuffer : InRange elfBuffer elfBufferSize a) :
    ¬ ph.StoresTo a := by
  intro storesTo
  have all : ph.extent = ph.pMemsz.toNat :=
    Nat.max_eq_right (wellFormed.sizes ph member storesTo.1)
  exact wellFormed.apart ph member storesTo.1 a (all ▸ storesTo.2) inBuffer

/-! ## The file in `elf_buffer` -/

section Buffered

variable (same : SameBytes m elfBuffer file 0#32 n)
include same

theorem elf32Hdr_buffered (header : ehdrSize ≤ n) :
    elf32Hdr m elfBuffer = elf32Hdr file 0#32 :=
  elf32Hdr_congr (same.mono header)

theorem headerAt_buffered (header : ehdrSize ≤ n)
    (inside : (elf32Hdr file 0#32).ePhoff.toNat + phdrSize * (i + 1) ≤ n) :
    headerAt m elfBuffer i = headerAt file 0#32 i := by
  rw [headerAt, headerAt, tableAt, tableAt, elf32Hdr_buffered same header, phdrAt_eq, phdrAt_eq]
  exact elf32Phdr_congr (same.offset (by unfold phdrSize at inside ⊢; omega))

theorem WellFormed.programHeaders_eq (wellFormed : WellFormed file n elfBuffer) :
    programHeaders m elfBuffer = programHeaders file 0#32 := by
  have count : headerCount m elfBuffer = headerCount file 0#32 := by
    rw [headerCount, headerCount, elf32Hdr_buffered same wellFormed.header]
  rw [programHeaders, programHeaders, count, firstHeaders, firstHeaders]
  apply List.map_congr_left
  intro i member
  have below := List.mem_range.mp member
  have table := wellFormed.table (by omega)
  have rest : phdrSize * (i + 1) ≤ phdrSize * headerCount file 0#32 := Nat.mul_le_mul_left _ below
  exact headerAt_buffered same wellFormed.header (by omega)

/-- The headers are in `elf_buffer`, and so no segment is stored to them. -/
theorem WellFormed.keepsHeaders (wellFormed : WellFormed file n elfBuffer)
    (small : n ≤ elfBufferSize) : KeepsHeaders m elfBuffer := by
  intro ph member a storesTo inHeaders
  rw [wellFormed.programHeaders_eq same] at member
  refine wellFormed.not_storesTo member ?_ storesTo
  rcases inHeaders with inHeader | ⟨i, below, inEntry⟩
  · exact Nat.lt_of_lt_of_le inHeader (wellFormed.header.trans small)
  · have header := elf32Hdr_buffered same wellFormed.header
    rw [headerCount, header, ← headerCount] at below
    rw [tableAt, header, phdrAt_eq] at inEntry
    have table := wellFormed.table (by omega)
    have rest : phdrSize * (i + 1) ≤ phdrSize * headerCount file 0#32 :=
      Nat.mul_le_mul_left _ below
    have large : elfBufferSize = 65536 := rfl
    unfold InRange at inEntry ⊢
    unfold phdrSize at *
    bv_omega

/-! ## The image -/

/-- The memory shows the image of the first `i` headers. -/
def ShowsImage (m file : Memory) (elfBuffer : Word) (i : Nat) (l : Loader) : Prop :=
  ∀ a, l.mem a = match lastCovering (firstHeaders m elfBuffer i) a with
    | none => m a
    | some ph => ph.imageByte file a

/-- The bytes of the file stay in `elf_buffer` while the segments are stored. -/
theorem WellFormed.buffered (wellFormed : WellFormed file n elfBuffer) (small : n ≤ elfBufferSize)
    (loaded : Loaded m elfBuffer i l) (le : i ≤ headerCount m elfBuffer) :
    SameBytes l.mem elfBuffer file 0#32 n := by
  intro b below
  have inBuffer : InRange elfBuffer elfBufferSize (elfBuffer + BitVec.ofNat 32 b) :=
    inRange_add elfBuffer (Nat.lt_of_lt_of_le below small)
  rw [← same b below]
  apply loaded.frame
  intro ph member
  have listed := mem_programHeaders le member
  rw [wellFormed.programHeaders_eq same] at listed
  exact wellFormed.not_storesTo listed inBuffer

/-- **Step lemma.** -/
theorem WellFormed.showsImage_step (wellFormed : WellFormed file n elfBuffer)
    (small : n ≤ elfBufferSize) (below : i < headerCount m elfBuffer)
    (loaded : Loaded m elfBuffer i l) (shows_ : ShowsImage m file elfBuffer i l) :
    ShowsImage m file elfBuffer (i + 1) (segmentBody elfBuffer (tableAt m elfBuffer) i l) := by
  have listed : headerAt m elfBuffer i ∈ programHeaders file 0#32 :=
    wellFormed.programHeaders_eq same ▸ headerAt_mem below
  intro a
  rw [firstHeaders_succ, lastCovering_append]
  rcases loaded.segmentBody (wellFormed.keepsHeaders same small) below with
    ⟨other, unchanged⟩ | ⟨load, placed⟩
  · rw [if_neg fun covers => other covers.1, unchanged]
    exact shows_ a
  · generalize headerAt m elfBuffer i = ph at listed load placed
    split_ifs with covers
    · have storesTo := (wellFormed.covers_iff listed).mp covers
      have offset : (a - ph.pVaddr).toNat = a.toNat - ph.pVaddr.toNat := by
        have above := covers.2.1
        bv_omega
      have place : ph.pVaddr + BitVec.ofNat 32 (a.toNat - ph.pVaddr.toNat) = a := by bv_omega
      have inExtent : a.toNat - ph.pVaddr.toNat < ph.extent := offset ▸ storesTo.2
      obtain ⟨u, earlier, byte⟩ := placed.bytes _ inExtent
      rw [place] at byte
      rw [byte]
      refine ite_congr rfl (fun fromFile => ?_) fun _ => rfl
      have some_ : ph.pFilesz ≠ 0#32 := fun zero => by simp [zero] at fromFile
      have source := wellFormed.source ph listed load some_
      have inFile : ph.pOffset.toNat + (a.toNat - ph.pVaddr.toNat) < n := by omega
      have address : elfBuffer + ph.pOffset + BitVec.ofNat 32 (a.toNat - ph.pVaddr.toNat) =
          elfBuffer + BitVec.ofNat 32 (ph.pOffset.toNat + (a.toNat - ph.pVaddr.toNat)) := by
        rw [BitVec.ofNat_add, BitVec.ofNat_toNat, BitVec.setWidth_eq, BitVec.add_assoc]
      have inBuffer : InRange elfBuffer elfBufferSize
          (elfBuffer + BitVec.ofNat 32 (ph.pOffset.toNat + (a.toNat - ph.pVaddr.toNat))) :=
        inRange_add elfBuffer (Nat.lt_of_lt_of_le inFile small)
      have outside := wellFormed.not_storesTo listed inBuffer
      rw [address, earlier.frame _ fun within => outside ⟨load, within.2.trans inExtent⟩,
        wellFormed.buffered same small loaded (Nat.le_of_lt below) _ inFile, BitVec.zero_add]
    · rw [placed.stores.frame a fun within => covers
        ((wellFormed.covers_iff listed).mpr ⟨load, within.2⟩)]
      exact shows_ a

end Buffered

/-- What `fat16_read_file` leaves in `elf_buffer` for a file that fits. -/
theorem read_file (elfBuffer : Word) (m : Memory)
    (found : lookup (rootSlots sectors fs) name = some e)
    (small : e.fileSize.toNat ≤ elfBufferSize) :
    ∃ b, fat16ReadFile (readable sectors) fs name (fun k => m (elfBuffer + k))
        (BitVec.ofNat 32 elfBufferSize) = some ((e.fileSize.toNat : Int), b) ∧
      afterRead elfBuffer b = withFile elfBuffer e.fileSize.toNat (fileBytes sectors fs e) m := by
  obtain ⟨b, read, bytes⟩ := fat16ReadFile_eq sectors fs name (fun k => m (elfBuffer + k))
    (by decide : (BitVec.ofNat 32 elfBufferSize).toNat < 2 ^ 31)
  have size : readSize e (BitVec.ofNat 32 elfBufferSize) = e.fileSize.toNat := Nat.min_eq_left small
  rw [found, Option.elim_some, size] at read
  simp only [found, size] at bytes
  exact ⟨b, read, afterRead_eq bytes⟩

/-- `elf_load` reaches the entry point of a well-formed file with the memory image that
the file describes. -/
theorem elfLoadToEntry_image (m : Memory) (found : lookup (rootSlots sectors fs) name = some e)
    (small : e.fileSize.toNat ≤ elfBufferSize)
    (accepted : elfVerify (elf32Hdr (fileBytes sectors fs e) 0#32) = .ok ())
    (wellFormed : WellFormed (fileBytes sectors fs e) e.fileSize.toNat elfBuffer) :
    ∃ l, elfLoadToEntry (readable sectors) fs name elfBuffer m =
        some (.entered (elf32Hdr (fileBytes sectors fs e) 0#32).eEntry l) ∧
      ∀ a, (∀ ph, lastCovering (programHeaders (fileBytes sectors fs e) 0#32) a = some ph →
          l.mem a = ph.imageByte (fileBytes sectors fs e) a) ∧
        (lastCovering (programHeaders (fileBytes sectors fs e) 0#32) a = none →
          ¬ InRange elfBuffer elfBufferSize a → l.mem a = m a) := by
  obtain ⟨b, read, memory⟩ := read_file elfBuffer m found small
  have load := elfLoadToEntry_of_read read
  rw [memory] at load
  have same := withFile_same elfBuffer e.fileSize.toNat (fileBytes sectors fs e) m
  have header := elf32Hdr_buffered same wellFormed.header
  have keeps := wellFormed.keepsHeaders same small
  have entered := elfLoadRead_entered (Int.natCast_nonneg e.fileSize.toNat) (header ▸ accepted)
  obtain ⟨loaded, shows_⟩ := segmentLoop_run
    (P := ShowsImage _ (fileBytes sectors fs e) elfBuffer) keeps (fun _ => rfl)
    fun i l below loaded shows_ => wellFormed.showsImage_step same small below loaded shows_
  rw [loaded.elf32Hdr_eq keeps (Nat.le_refl _), header] at entered
  refine ⟨_, load.trans (congrArg some entered), fun a =>
    ⟨fun ph last => ?_, fun none_ beyond => ?_⟩⟩
  · rw [shows_ a, ← programHeaders, wellFormed.programHeaders_eq same, last]
  · rw [shows_ a, ← programHeaders, wellFormed.programHeaders_eq same, none_]
    exact withFile_of_not_inRange fun inFile => beyond (Nat.lt_of_lt_of_le inFile small)

/-- A file of 85 bytes with one header, the one of `tinyElf`. -/
theorem wellFormed_of_header {vaddr : Word}
    (entrySize : (elf32Hdr file 0#32).ePhentsize = BitVec.ofNat 16 phdrSize)
    (table : (elf32Hdr file 0#32).ePhoff.toNat + phdrSize * headerCount file 0#32 ≤ 85)
    (headers : programHeaders file 0#32 = [⟨1#32, 84#32, vaddr, 1#32, 2#32⟩])
    (fits : vaddr.toNat + 2 ≤ 2 ^ 32) (apart : Sep vaddr 2 elfBuffer elfBufferSize) :
    WellFormed file 85 elfBuffer := by
  refine ⟨by decide, entrySize, fun _ => table, ?_, ?_, ?_, ?_⟩ <;>
    rw [headers] <;> intro ph member load <;> rw [List.mem_singleton.mp member]
  · have source : (84#32).toNat + (1#32).toNat ≤ 85 := by decide
    exact fun _ => source
  · have sizes : (1#32).toNat ≤ (2#32).toNat := by decide
    exact sizes
  · exact fits
  · exact apart

/-- The file `tinyElf`, linked at the end of the heap. -/
def tinyFile : Memory :=
  fileBytes (oneFile 85 (tinyElf 0x300000)) fragmentedFs (oneFileEntry 85)

theorem lookup_tiny : lookup (rootSlots (oneFile 85 (tinyElf 0x300000)) fragmentedFs)
    (oneFileEntry 85).fatName = some (oneFileEntry 85) := by
  decide +kernel

theorem fileSize_tiny : (oneFileEntry 85).fileSize.toNat = 85 := by decide +kernel

theorem programHeaders_tiny :
    programHeaders tinyFile 0#32 = [⟨1#32, 84#32, 0x300000#32, 1#32, 2#32⟩] := by
  decide +kernel

theorem wellFormed_tiny : WellFormed tinyFile (oneFileEntry 85).fileSize.toNat 0x110000#32 := by
  rw [fileSize_tiny]
  exact wellFormed_of_header (by decide +kernel) (by decide +kernel) programHeaders_tiny (by decide)
    (sep_of_le (by decide) (by decide) (by decide))

end Learnix
