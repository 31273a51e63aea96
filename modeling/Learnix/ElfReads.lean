import Learnix.ElfImage

/-!
# What `elf_load` reads

`elf_load` tests the number of bytes that `fat16_read_file` returned for an error
only, and not against the headers and segments that it then takes from `elf_buffer`.
So it keeps inside the bytes that were read for the files that are long enough for what they
announce, if no segment is stored on the headers, and of these for no others
(`validated_iff`). The headers are looked at again in every round, so that a segment on them
makes the next rounds read what no check of the file could have found.
-/

namespace Learnix

open Machine Memory ForLoop

variable {m m' file : Memory} {a elfBuffer h phdrs x : Word} {i k n : Nat} {ph : Elf32Phdr}
  {l l' : Loader} {v v' : Byte} {disk : Disk} {fs : Fat16} {name : Fin 11 → Byte}
  {sectors : Word → Sector} {e : Entry}

/-! ## The checks of `elf_verify` -/

/-- The bytes of the header that `elf_verify` looks at, with the values that it wants. -/
def checkedBytes : List (Nat × Byte) :=
  [(0, 0x7F#8), (1, 0x45#8), (2, 0x4C#8), (3, 0x46#8), (4, 1#8), (5, 1#8), (16, 2#8), (17, 0#8),
    (18, 3#8), (19, 0#8)]

/-- A byte of the header is not what `elf_verify` wants. -/
def Wrong (m : Memory) (elfBuffer : Word) (c : Nat × Byte) : Prop :=
  m (elfBuffer + BitVec.ofNat 32 c.1) ≠ c.2

theorem elfVerify_eq_ok {hdr : Elf32Hdr} : elfVerify hdr = .ok () ↔
    (hdr.eIdent 0 = 0x7F#8 ∧ hdr.eIdent 1 = 0x45#8 ∧ hdr.eIdent 2 = 0x4C#8 ∧
      hdr.eIdent 3 = 0x46#8) ∧ hdr.eIdent 4 = 1#8 ∧ hdr.eIdent 5 = 1#8 ∧ hdr.eType = etExec ∧
      hdr.eMachine = em386 := by
  unfold elfVerify
  split_ifs with magic
  · simp only [false_iff]
    tauto
  all_goals simp_all

theorem elfVerify_eq_ok_iff :
    elfVerify (elf32Hdr m elfBuffer) = .ok () ↔ ∀ c ∈ checkedBytes, ¬ Wrong m elfBuffer c := by
  have half : ∀ (o : Nat) (v : BitVec 16), m.read16 (elfBuffer + BitVec.ofNat 32 o) = v ↔
      m (elfBuffer + BitVec.ofNat 32 o) = v.extractLsb' 0 8 ∧
        m (elfBuffer + BitVec.ofNat 32 (o + 1)) = v.extractLsb' 8 8 := by
    intro o v
    rw [read16_eq_iff, BitVec.ofNat_add, ← BitVec.add_assoc]
    rfl
  have type : (elf32Hdr m elfBuffer).eType = etExec ↔
      m (elfBuffer + 16#32) = 2#8 ∧ m (elfBuffer + 17#32) = 0#8 := half 16 etExec
  have machine : (elf32Hdr m elfBuffer).eMachine = em386 ↔
      m (elfBuffer + 18#32) = 3#8 ∧ m (elfBuffer + 19#32) = 0#8 := half 18 em386
  rw [elfVerify_eq_ok, type, machine]
  simp only [checkedBytes, Wrong, List.forall_mem_cons, List.not_mem_nil, false_imp_iff,
    implies_true, and_true, not_not, and_assoc]
  rfl

theorem elfLoadRead_rejected_iff {bytes : Int} :
    (∃ u, elfLoadRead elfBuffer bytes m = .rejected u) ↔
      bytes < 0 ∨ elfVerify (elf32Hdr m elfBuffer) ≠ .ok () := by
  by_cases negative : bytes < 0
  · exact iff_of_true ⟨m, by rw [elfLoadRead, if_pos negative]⟩ (.inl negative)
  · rw [elfLoadRead, if_neg negative, or_iff_right negative]
    cases elfVerify (elf32Hdr m elfBuffer) with
    | error e =>
        apply iff_of_true ⟨m, rfl⟩
        intro same
        cases same
    | ok _ =>
        refine iff_of_false ?_ fun ne => ne rfl
        rintro ⟨u, same⟩
        cases same

/-! ## Rounds -/

/-- The rounds of the loop over the program headers. -/
def segmentRounds (m : Memory) (elfBuffer : Word) : List (Nat × Loader) :=
  rounds (fun l => (elf32Hdr l.mem elfBuffer).ePhnum)
    (segmentBody elfBuffer (tableAt m elfBuffer)) 0 ⟨m, []⟩

/-- The rounds of the loop that copies the segment of the header at `ph`. -/
def copyRounds (elfBuffer ph : Word) (l : Loader) : List (Nat × Loader) :=
  rounds (fun l => (elf32Phdr l.mem ph).pFilesz)
    (copyByte (elf32Phdr l.mem ph).pVaddr (elfBuffer + (elf32Phdr l.mem ph).pOffset)) 0 l

/-- The rounds of the loop over the program headers, when it does not store to them. -/
theorem mem_segmentRounds (keeps : KeepsHeaders m elfBuffer) :
    (∀ r ∈ segmentRounds m elfBuffer,
        r.1 < headerCount m elfBuffer ∧ Loaded m elfBuffer r.1 r.2) ∧
      ∀ i < headerCount m elfBuffer, ∃ l, (i, l) ∈ segmentRounds m elfBuffer := by
  have all := mem_rounds_fixed (fun l => (elf32Hdr l.mem elfBuffer).ePhnum)
    (segmentBody elfBuffer (tableAt m elfBuffer)) (P := Loaded m elfBuffer)
    (loaded_zero m elfBuffer) (Nat.zero_le (headerCount m elfBuffer))
    (fun i l _ le loaded => by rw [loaded.elf32Hdr_eq keeps le]; rfl)
    (fun i l _ below loaded => loaded.step keeps below)
  exact ⟨all.1, fun i below => all.2 i (Nat.zero_le i) below⟩

/-- The rounds of the loop that copies a segment, when it does not store to its header. -/
theorem mem_copyRounds (elfBuffer : Word)
    (apart : Sep h phdrSize (elf32Phdr l.mem h).pVaddr (elf32Phdr l.mem h).extent) :
    (∀ r ∈ copyRounds elfBuffer h l, r.1 < (elf32Phdr l.mem h).pFilesz.toNat) ∧
      ∀ b < (elf32Phdr l.mem h).pFilesz.toNat, ∃ u, (b, u) ∈ copyRounds elfBuffer h l := by
  have filesz : (elf32Phdr l.mem h).pFilesz.toNat ≤ (elf32Phdr l.mem h).extent :=
    Nat.le_max_left _ _
  have small := (elf32Phdr l.mem h).pFilesz.isLt
  have all := mem_rounds_fixed (fun l => (elf32Phdr l.mem h).pFilesz)
    (copyByte (elf32Phdr l.mem h).pVaddr (elfBuffer + (elf32Phdr l.mem h).pOffset))
    (P := fun j u => Stores (elf32Phdr l.mem h).pVaddr 0 j l u) (Stores.refl _ _ l)
    (Nat.zero_le (elf32Phdr l.mem h).pFilesz.toNat)
    (fun j u _ le stores => by rw [stores.elf32Phdr_eq (le.trans filesz) apart])
    (fun j u low below stores => stores.store low (below.trans small))
  exact ⟨fun r member => (all.1 r member).1, fun b below => all.2 b (Nat.zero_le b) below⟩

/-- The header of a round and its destination, when the loop does not store to the headers. -/
theorem Loaded.round (loaded : Loaded m elfBuffer i l) (keeps : KeepsHeaders m elfBuffer)
    (below : i < headerCount m elfBuffer) :
    elf32Phdr l.mem (phdrAt (tableAt m elfBuffer) i) = headerAt m elfBuffer i ∧
      ((headerAt m elfBuffer i).pType = ptLoad →
        Sep (phdrAt (tableAt m elfBuffer) i) phdrSize (headerAt m elfBuffer i).pVaddr
          (headerAt m elfBuffer i).extent) :=
  ⟨loaded.elf32Phdr_eq keeps (Nat.le_of_lt below) below, fun load _ inHeader within =>
    keeps _ (headerAt_mem below) _ ⟨load, within⟩ (.inr ⟨i, below, inHeader⟩)⟩

/-! ## Inside the file -/

/-- The index in `elf_buffer`, without wrap-around, of a byte that `elf_load` interprets: of
the header, of the program header that a round looks at, or of the segment that it copies.
The program headers are looked at in each round as they then are, for a segment may have been
stored on them. -/
inductive Interprets (m : Memory) (elfBuffer : Word) : Nat → Prop
  | header {k : Nat} : k < ehdrSize → Interprets m elfBuffer k
  | table {i k : Nat} {l : Loader} :
    (i, l) ∈ segmentRounds m elfBuffer → k < phdrSize →
    Interprets m elfBuffer ((elf32Hdr m elfBuffer).ePhoff.toNat + phdrSize * i + k)
  | source {i b : Nat} {l u : Loader} :
    (i, l) ∈ segmentRounds m elfBuffer →
    (elf32Phdr l.mem (phdrAt (tableAt m elfBuffer) i)).pType = ptLoad →
    (b, u) ∈ copyRounds elfBuffer (phdrAt (tableAt m elfBuffer) i) l →
    Interprets m elfBuffer ((elf32Phdr l.mem (phdrAt (tableAt m elfBuffer) i)).pOffset.toNat + b)

/-- The index of a byte of the header, of a program header or of a segment to load, as the
headers say when they have been read. -/
inductive Announces (m : Memory) (elfBuffer : Word) : Nat → Prop
  | header {k : Nat} : k < ehdrSize → Announces m elfBuffer k
  | table {i k : Nat} :
    i < headerCount m elfBuffer → k < phdrSize →
    Announces m elfBuffer ((elf32Hdr m elfBuffer).ePhoff.toNat + phdrSize * i + k)
  | source {ph : Elf32Phdr} {k : Nat} :
    ph ∈ programHeaders m elfBuffer → ph.pType = ptLoad → k < ph.pFilesz.toNat →
    Announces m elfBuffer (ph.pOffset.toNat + k)

/-- Unless a segment is stored on the headers, `elf_load` interprets what they announce. -/
theorem interprets_iff_announces (keeps : KeepsHeaders m elfBuffer) :
    Interprets m elfBuffer k ↔ Announces m elfBuffer k := by
  obtain ⟨all, each⟩ := mem_segmentRounds keeps
  constructor
  · intro interprets
    cases interprets with
    | header below => exact .header below
    | table round within => exact .table (all _ round).1 within
    | @source i b l u round load copied =>
        obtain ⟨below, loaded⟩ := all _ round
        obtain ⟨header, apart⟩ := loaded.round keeps below
        simp only [header] at load copied ⊢
        rw [← header] at apart
        have inside := (mem_copyRounds elfBuffer (apart (header ▸ load))).1 _ copied
        rw [header] at inside
        exact .source (headerAt_mem below) load inside
  · intro announces
    cases announces with
    | header below => exact .header below
    | @table i b below within =>
        obtain ⟨l, round⟩ := each i below
        exact .table round within
    | @source ph b member load below =>
        obtain ⟨i, listed, rfl⟩ := mem_firstHeaders.mp member
        obtain ⟨l, round⟩ := each i listed
        obtain ⟨header, apart⟩ := (all _ round).2.round keeps listed
        rw [← header] at load below apart ⊢
        obtain ⟨u, copied⟩ := (mem_copyRounds elfBuffer (apart load)).2 b below
        exact .source round load copied

/-- The headers and the segments to load end within the first `n` bytes. -/
structure LongEnough (m : Memory) (elfBuffer : Word) (n : Nat) : Prop where
  header : ehdrSize ≤ n
  table : headerCount m elfBuffer = 0 ∨
    (elf32Hdr m elfBuffer).ePhoff.toNat + phdrSize * headerCount m elfBuffer ≤ n
  source : ∀ ph ∈ programHeaders m elfBuffer, ph.pType = ptLoad →
    ph.pFilesz.toNat = 0 ∨ ph.pOffset.toNat + ph.pFilesz.toNat ≤ n

theorem announces_iff_longEnough :
    (∀ k, Announces m elfBuffer k → k < n) ↔ LongEnough m elfBuffer n := by
  constructor
  · intro inside
    constructor
    · have last := inside (ehdrSize - 1) (.header (by decide))
      unfold ehdrSize at last ⊢
      omega
    · rcases Nat.eq_zero_or_pos (headerCount m elfBuffer) with none_ | some_
      · exact .inl none_
      · have last := inside _
          (.table (k := phdrSize - 1) (Nat.sub_lt some_ Nat.one_pos) (by decide))
        right
        unfold phdrSize at last ⊢
        omega
    · intro ph member load
      rcases Nat.eq_zero_or_pos ph.pFilesz.toNat with none_ | some_
      · exact .inl none_
      · have last := inside _ (.source member load (Nat.sub_lt some_ Nat.one_pos))
        exact .inr (by omega)
  · intro long k announces
    cases announces with
    | header below => exact Nat.lt_of_lt_of_le below long.header
    | @table i b below within =>
        have table := long.table.resolve_left (by omega)
        unfold phdrSize at *
        omega
    | @source ph b member load below =>
        have source := (long.source ph member load).resolve_left (by omega)
        omega

/-- The fields of the program headers of such a file are within it. -/
theorem LongEnough.inRange_field {o : Nat} (long : LongEnough m elfBuffer n)
    (below : i < headerCount m elfBuffer) (inside : o + 4 ≤ phdrSize)
    (within : InRange (phdrAt (tableAt m elfBuffer) i + BitVec.ofNat 32 o) 4 x) :
    InRange elfBuffer n x := by
  have table := long.table.resolve_left (by omega)
  have rest : phdrSize * (i + 1) ≤ phdrSize * headerCount m elfBuffer :=
    Nat.mul_le_mul_left _ below
  rw [Nat.mul_succ] at rest
  rw [tableAt, phdrAt_eq, BitVec.add_assoc, ← BitVec.ofNat_add] at within
  exact inRange_of_add within (by omega)

/-- So are the bytes of its segments. -/
theorem LongEnough.inRange_source {b : Nat} (long : LongEnough m elfBuffer n)
    (member : ph ∈ programHeaders m elfBuffer) (load : ph.pType = ptLoad)
    (inside : b < ph.pFilesz.toNat) :
    InRange elfBuffer n (elfBuffer + ph.pOffset + BitVec.ofNat 32 b) := by
  have source := long.source ph member load
  have place : elfBuffer + ph.pOffset + BitVec.ofNat 32 b =
      elfBuffer + BitVec.ofNat 32 (ph.pOffset.toNat + b) := by
    rw [BitVec.ofNat_add, BitVec.ofNat_toNat, BitVec.setWidth_eq, BitVec.add_assoc]
  rw [place]
  exact inRange_add elfBuffer (by omega)

/-- `elf_load` has returned -1, or every byte that it interprets is one of those that were
read. -/
def Validated (load : Option ElfLoad) (m : Memory) (elfBuffer : Word) (bytes : Int) : Prop :=
  (∃ u, load = some (.rejected u)) ∨ ∀ k, Interprets m elfBuffer k → (k : Int) < bytes

/-- `elf_load` rejects what it has read, or every byte that it interprets is one that it has
read, if the read fails, or the header is not what `elf_verify` wants, or the file is long
enough for the headers and segments that it announces and stores none of them on the headers.
Of the files that store none there, it is so for no others. -/
theorem validated_iff (disk : Disk) (fs : Fat16) (name : Fin 11 → Byte) (elfBuffer : Word)
    (m : Memory) :
    ∃ bytes buffer, fat16ReadFile disk fs name (fun k => m (elfBuffer + k))
        (BitVec.ofNat 32 elfBufferSize) = some (bytes, buffer) ∧ bytes ≤ elfBufferSize ∧
      ((bytes < 0 ∨ elfVerify (elf32Hdr (afterRead elfBuffer buffer) elfBuffer) ≠ .ok () ∨
          LongEnough (afterRead elfBuffer buffer) elfBuffer bytes.toNat ∧
            KeepsHeaders (afterRead elfBuffer buffer) elfBuffer) →
        Validated (elfLoadToEntry disk fs name elfBuffer m) (afterRead elfBuffer buffer)
          elfBuffer bytes) ∧
      (KeepsHeaders (afterRead elfBuffer buffer) elfBuffer →
        Validated (elfLoadToEntry disk fs name elfBuffer m) (afterRead elfBuffer buffer)
          elfBuffer bytes →
        bytes < 0 ∨ elfVerify (elf32Hdr (afterRead elfBuffer buffer) elfBuffer) ≠ .ok () ∨
          LongEnough (afterRead elfBuffer buffer) elfBuffer bytes.toNat) := by
  obtain ⟨bytes, n, file, le, count, reads⟩ := exists_read disk fs name
  obtain ⟨buffer, read, -⟩ := reads elfBuffer m
  have bound : bytes ≤ elfBufferSize := by omega
  have load := elfLoadToEntry_of_read read
  have inside : KeepsHeaders (afterRead elfBuffer buffer) elfBuffer → 0 ≤ bytes →
      ((∀ k, Interprets (afterRead elfBuffer buffer) elfBuffer k → (k : Int) < bytes) ↔
        LongEnough (afterRead elfBuffer buffer) elfBuffer bytes.toNat) := by
    intro keeps nonneg
    rw [← announces_iff_longEnough]
    refine forall_congr' fun k => ?_
    rw [interprets_iff_announces keeps]
    exact forall_congr' fun _ => by omega
  have rejects : (∃ u, elfLoadToEntry disk fs name elfBuffer m = some (.rejected u)) ↔
      bytes < 0 ∨ elfVerify (elf32Hdr (afterRead elfBuffer buffer) elfBuffer) ≠ .ok () := by
    simp only [load, Option.some.injEq, elfLoadRead_rejected_iff]
  refine ⟨bytes, buffer, read, bound, ?_, ?_⟩
  · rintro (fails | bad | ⟨long, keeps⟩)
    · exact .inl (rejects.mpr (.inl fails))
    · exact .inl (rejects.mpr (.inr bad))
    · rcases Int.lt_or_le bytes 0 with fails | nonneg
      · exact .inl (rejects.mpr (.inl fails))
      · exact .inr ((inside keeps nonneg).mpr long)
  · rintro keeps (rejected | within)
    · exact (rejects.mp rejected).imp_right .inl
    · rcases Int.lt_or_le bytes 0 with fails | nonneg
      · exact .inl fails
      · exact .inr (.inr ((inside keeps nonneg).mp within))

/-- `elf_buffer` after an earlier load of `tinyElf`. -/
def tinyLoaded : Memory :=
  withFile 0x110000#32 85 (fun k => BitVec.ofNat 8 ((tinyElf 0x300000).getD k.toNat 0))
    fun _ => 0#8

theorem tinyLoaded_outside (outside : ¬ InRange 0x110000#32 elfBufferSize a) :
    tinyLoaded a = 0#8 :=
  withFile_of_not_inRange fun inside => outside (Nat.lt_trans inside (by decide))

theorem lookup_empty : lookup (rootSlots (oneFile 0 []) fragmentedFs)
    (oneFileEntry 0).fatName = some (oneFileEntry 0) := by
  decide +kernel

theorem read_empty (elfBuffer : Word) (m : Memory) :
    ∃ b, fat16ReadFile (readable (oneFile 0 [])) fragmentedFs (oneFileEntry 0).fatName
        (fun k => m (elfBuffer + k)) (BitVec.ofNat 32 elfBufferSize) = some (0, b) ∧
      afterRead elfBuffer b = m := by
  have none_ : (oneFileEntry 0).fileSize.toNat = 0 := by decide +kernel
  have read := read_file elfBuffer m lookup_empty (by rw [none_]; exact Nat.zero_le _)
  rw [none_] at read
  exact read

theorem elfLoadToEntry_empty (elfBuffer : Word) (m : Memory) :
    elfLoadToEntry (readable (oneFile 0 [])) fragmentedFs (oneFileEntry 0).fatName elfBuffer m =
      some (elfLoadRead elfBuffer 0 m) := by
  obtain ⟨b, read, memory⟩ := read_empty elfBuffer m
  rw [elfLoadToEntry_of_read read, memory]

theorem elfVerify_tinyLoaded : elfVerify (elf32Hdr tinyLoaded 0x110000#32) = .ok () := by
  decide +kernel

/-- A file without a byte is loaded if an earlier load has left a program in the buffer. -/
theorem validated_empty :
    ∃ buffer, fat16ReadFile (readable (oneFile 0 [])) fragmentedFs (oneFileEntry 0).fatName
        (fun k => tinyLoaded (0x110000#32 + k)) (BitVec.ofNat 32 elfBufferSize) =
          some (0, buffer) ∧
      ¬ Validated (elfLoadToEntry (readable (oneFile 0 [])) fragmentedFs (oneFileEntry 0).fatName
        0x110000#32 tinyLoaded) (afterRead 0x110000#32 buffer) 0x110000#32 0 := by
  obtain ⟨b, read, -⟩ := read_empty 0x110000#32 tinyLoaded
  refine ⟨b, read, ?_⟩
  rintro (⟨u, rejected⟩ | inside)
  · rw [elfLoadToEntry_empty, Option.some.injEq] at rejected
    rcases elfLoadRead_rejected_iff.mp ⟨u, rejected⟩ with negative | bad
    · exact absurd negative (by decide)
    · exact bad elfVerify_tinyLoaded
  · exact absurd (inside 0 (.header (by decide))) (by decide)

end Learnix
