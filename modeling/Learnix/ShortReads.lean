import Learnix.Elf
import Learnix.FileText

/-!
# Reads that stop early

A sector of the directory that cannot be read makes `fat16_read_file` return -1. A sector
of the file ends its copy loop, and it returns how many bytes it has copied so far, which
`elf_load` takes for a file. It reads a whole file or fails exactly if the sectors of the
file that the name stands for can all be read (`no_short_read_iff`).
-/

namespace Learnix

open Machine

variable {disk : Disk} {fs : Fat16} {name : Fin 11 → Byte} {maxSize elfBuffer : Word}

/-- `n` bytes are as many as fit of the first entry in use with the name, and those in the
buffer come from sectors of the disk that can be read. -/
def ReadWhole (disk : Disk) (fs : Fat16) (name : Fin 11 → Byte) (maxSize : Word) (n : Int)
    (buffer : Word → Byte) : Prop :=
  ∃ i e, FirstMatch (slotAt disk fs.rootStart) (slotCount fs) name i e ∧
    n = (readSize e maxSize : Nat) ∧ ∀ k : Word, k.toNat < readSize e maxSize →
      ∃ s, disk (firstSector fs e.firstCluster + BitVec.ofNat 32 (k.toNat / 512)) = some s ∧
        buffer k = s.byte (k.toNat % 512)

/-- The sectors that the call needs: those of the directory up to the entry, and those of
the bytes that fit. -/
inductive NeededSector (disk : Disk) (fs : Fat16) (name : Fin 11 → Byte) (maxSize : Word) :
    Word → Prop
  | directory {s : Nat} : 16 * s < slotCount fs →
    (∀ i < 16 * s, ∃ d, slotAt disk fs.rootStart i = some d ∧ d.first ≠ 0x00#8) →
    (∀ i < 16 * s, ∀ d, ¬ SlotMatches (slotAt disk fs.rootStart) (slotCount fs) name i d) →
    NeededSector disk fs name maxSize (fs.rootStart + BitVec.ofNat 32 s)
  | file {i : Nat} {e : Entry} {j : Nat} :
    FirstMatch (slotAt disk fs.rootStart) (slotCount fs) name i e → 512 * j < readSize e maxSize →
    NeededSector disk fs name maxSize (firstSector fs e.firstCluster + BitVec.ofNat 32 j)

/-- A result that is not negative stands for a whole read, and with a sector that the call
needs and cannot read the result is negative. -/
def NoShortRead (disk : Disk) (fs : Fat16) (name : Fin 11 → Byte) (maxSize : Word) : Prop :=
  ∀ buffer, ∃ n b, fat16ReadFile disk fs name buffer maxSize = some (n, b) ∧
    (0 ≤ n → ReadWhole disk fs name maxSize n b) ∧
    ∀ sector, NeededSector disk fs name maxSize sector → disk sector = none → n < 0

/-- The sectors of the file that the name stands for can be read, as far as its bytes fit. -/
def FileReadable (disk : Disk) (fs : Fat16) (name : Fin 11 → Byte) (maxSize : Word) : Prop :=
  ∀ i e, FirstMatch (slotAt disk fs.rootStart) (slotCount fs) name i e →
    ∀ j, 512 * j < readSize e maxSize →
      disk (firstSector fs e.firstCluster + BitVec.ofNat 32 j) ≠ none

/-- The call of `fat16_read_file` in `elf_load`. -/
def elfRead (disk : Disk) (fs : Fat16) (name : Fin 11 → Byte) (elfBuffer : Word) (m : Memory) :
    Option (Int × (Word → Byte)) :=
  fat16ReadFile disk fs name (fun k => m (elfBuffer + k)) (BitVec.ofNat 32 elfBufferSize)

/-- `elf_load` goes on after its test of what was returned, and verifies what is in
`elf_buffer`. -/
def ElfVerifies (disk : Disk) (fs : Fat16) (name : Fin 11 → Byte) (elfBuffer : Word)
    (m : Memory) : Prop :=
  ∃ n b, elfRead disk fs name elfBuffer m = some (n, b) ∧ ¬ n < 0

/-- `elf_buffer` gets the whole file. -/
def ElfReadWhole (disk : Disk) (fs : Fat16) (name : Fin 11 → Byte) (elfBuffer : Word)
    (m : Memory) : Prop :=
  ∃ n b, elfRead disk fs name elfBuffer m = some (n, b) ∧
    ReadWhole disk fs name (BitVec.ofNat 32 elfBufferSize) n b

/-- `elf_load` verifies, copies and runs only files that were read whole. -/
structure LoadsWhole (disk : Disk) (fs : Fat16) (name : Fin 11 → Byte) (elfBuffer : Word) :
    Prop where
  verified : ∀ m, ElfVerifies disk fs name elfBuffer m → ElfReadWhole disk fs name elfBuffer m
  entered : ∀ m entry l, elfLoadToEntry disk fs name elfBuffer m = some (.entered entry l) →
    ElfReadWhole disk fs name elfBuffer m

/-! ## Reads -/

/-- A directory sector that is needed and cannot be read hides all entries. -/
theorem no_match_of_directory {s : Nat}
    (unmatched : ∀ i < 16 * s, ∀ d,
      ¬ SlotMatches (slotAt disk fs.rootStart) (slotCount fs) name i d)
    (fails : disk (fs.rootStart + BitVec.ofNat 32 s) = none) (i : Nat) (e : Entry) :
    ¬ SlotMatches (slotAt disk fs.rootStart) (slotCount fs) name i e := by
  intro hit
  rcases Nat.lt_or_ge i (16 * s) with before | after
  · exact unmatched i before e hit
  · obtain ⟨d, here, -⟩ := hit.reached (16 * s) after
    have place : 16 * s / 16 = s := Nat.mul_div_cancel_left s (by decide)
    rw [slotAt, place, fails] at here
    cases here

/-- With all sectors of the file, the read is whole. -/
theorem fat16ReadFile_whole (readable : FileReadable disk fs name maxSize)
    (small : maxSize.toNat < 2 ^ 31) : NoShortRead disk fs name maxSize := by
  intro buffer
  rcases fat16ReadFile_any disk fs name small with ⟨absent, fails⟩ | ⟨i, e, j, first, sound, stop,
    reads⟩
  · refine ⟨-1, buffer, fails buffer, fun none_ => absurd none_ (by decide), fun _ _ _ => ?_⟩
    decide
  · have all : readSize e maxSize ≤ 512 * j := by
      by_contra more
      have less : 512 * j < readSize e maxSize := Nat.not_le.mp more
      exact readable i e first j less (stop less)
    obtain ⟨b, call, bytes⟩ := reads buffer
    rw [Nat.min_eq_right all] at call bytes
    refine ⟨_, b, call, fun _ => ⟨i, e, first, rfl, fun k below => ?_⟩,
      fun sector needed fails => ?_⟩
    · have reached : k.toNat / 512 < j := by omega
      obtain ⟨s, read⟩ := Option.ne_none_iff_exists'.mp (sound _ reached)
      refine ⟨s, read, ?_⟩
      rw [bytes, if_pos below, byteFrom, read, Option.getD_some]
    · cases needed with
      | directory _ _ unmatched =>
          exact absurd first.1 (no_match_of_directory unmatched fails i e)
      | @file i' e' j' first' inside =>
          exact absurd fails (readable i' e' first' j' inside)

/-- A sector of the file that cannot be read makes a short read. -/
theorem fat16ReadFile_short {i j : Nat} {e : Entry}
    (first : FirstMatch (slotAt disk fs.rootStart) (slotCount fs) name i e)
    (inside : 512 * j < readSize e maxSize)
    (fails : disk (firstSector fs e.firstCluster + BitVec.ofNat 32 j) = none)
    (small : maxSize.toNat < 2 ^ 31) (buffer : Word → Byte) :
    ∃ (n : Nat) (b : Word → Byte), fat16ReadFile disk fs name buffer maxSize = some ((n : Int), b) ∧
      ¬ ReadWhole disk fs name maxSize n b := by
  rcases fat16ReadFile_any disk fs name small with
    ⟨absent, -⟩ | ⟨i', e', j', first', sound, -, reads⟩
  · exact absurd first.1 (absent i e)
  · obtain ⟨rfl, rfl⟩ := first.unique first'
    obtain ⟨b, call, -⟩ := reads buffer
    refine ⟨_, b, call, ?_⟩
    rintro ⟨i'', e'', first'', whole, -⟩
    obtain ⟨rfl, rfl⟩ := first.unique first''
    -- the loop came to no sector after the one that fails
    have early : j' ≤ j := by
      by_contra later
      exact sound j (Nat.not_le.mp later) fails
    omega

theorem noShortRead_iff (small : maxSize.toNat < 2 ^ 31) :
    NoShortRead disk fs name maxSize ↔ FileReadable disk fs name maxSize := by
  constructor
  · intro noShort i e first j inside fails
    obtain ⟨n, b, call, notWhole⟩ := fat16ReadFile_short first inside fails small fun _ => 0#8
    obtain ⟨n', b', call', whole, -⟩ := noShort fun _ => 0#8
    rw [call] at call'
    cases call'
    exact notWhole (whole (Int.natCast_nonneg n))
  · intro readable
    exact fat16ReadFile_whole readable small

/-! ## Loads -/

/-- An entry point is called only after the test. -/
theorem elfVerifies_of_entered {m : Memory} {entry : Word} {l : Loader}
    (entered : elfLoadToEntry disk fs name elfBuffer m = some (.entered entry l)) :
    ElfVerifies disk fs name elfBuffer m := by
  obtain ⟨⟨n, b⟩, call, rest⟩ := Option.map_eq_some_iff.mp entered
  refine ⟨n, b, call, fun negative => ?_⟩
  simp only [elfLoadRead, if_pos negative] at rest
  cases rest

theorem loadsWhole_iff : LoadsWhole disk fs name elfBuffer ↔
    FileReadable disk fs name (BitVec.ofNat 32 elfBufferSize) := by
  have small : (BitVec.ofNat 32 elfBufferSize).toNat < 2 ^ 31 := by decide
  constructor
  · intro loads i e first j inside fails
    obtain ⟨n, b, call, notWhole⟩ := fat16ReadFile_short first inside fails small fun _ => 0#8
    have verifies : ElfVerifies disk fs name elfBuffer fun _ => 0#8 :=
      ⟨n, b, call, Int.not_lt.mpr (Int.natCast_nonneg n)⟩
    obtain ⟨n', b', call', whole⟩ := loads.verified _ verifies
    rw [elfRead, call] at call'
    cases call'
    exact notWhole whole
  · intro readable
    have verified (m : Memory) (verifies : ElfVerifies disk fs name elfBuffer m) :
        ElfReadWhole disk fs name elfBuffer m := by
      rcases verifies with ⟨n, b, call, notNegative⟩
      rcases fat16ReadFile_whole readable small fun k => m (elfBuffer + k) with
        ⟨n', b', call', whole, -⟩
      rw [elfRead, call'] at call
      cases call
      exact ⟨n, b, call', whole (Int.not_lt.mp notNegative)⟩
    exact ⟨verified, fun m entry l entered => verified m (elfVerifies_of_entered entered)⟩

/-- On any disk, with any sectors that cannot be read, `fat16_read_file` reads a whole file
or returns a negative result, and `elf_load` takes no other file, exactly if the sectors of
the file that the name stands for can be read. -/
theorem no_short_read_iff (disk : Disk) (fs : Fat16) (name : Fin 11 → Byte) :
    (∀ maxSize : Word, maxSize.toNat < 2 ^ 31 →
      (NoShortRead disk fs name maxSize ↔ FileReadable disk fs name maxSize)) ∧
    ∀ elfBuffer, LoadsWhole disk fs name elfBuffer ↔
      FileReadable disk fs name (BitVec.ofNat 32 elfBufferSize) :=
  ⟨fun _ small => noShortRead_iff small, fun _ => loadsWhole_iff⟩

/-- On a disk that can be read all reads are whole. -/
theorem no_short_read_iff_readable :
    NoShortRead (readable fullText) fragmentedFs (literalName "HOLA    TXT") 512#32 ∧
      LoadsWhole (readable fullText) fragmentedFs (literalName "HOLA    TXT") 0x110000#32 := by
  rcases no_short_read_iff (readable fullText) fragmentedFs (literalName "HOLA    TXT") with
    ⟨reads, loads⟩
  have small : (512#32 : Word).toNat < 2 ^ 31 := by decide
  exact ⟨(reads 512#32 small).mpr fun _ _ _ _ _ => Option.some_ne_none _,
    (loads 0x110000#32).mpr fun _ _ _ _ _ => Option.some_ne_none _⟩

/-- `HOLA.TXT` on a disk whose sector 97, the only one of the file, cannot be read. -/
def brokenText : Disk := fun lba => if lba = 97#32 then none else some (fullText lba)

/-- Nothing of it is read, and this is no error. -/
theorem broken_read_succeeds :
    (∃ b, fat16ReadFile brokenText fragmentedFs (literalName "HOLA    TXT") (fun _ => 0xFF#8)
      512#32 = some (0, b) ∧ b 0#32 = 0xFF#8) ∧
      ¬ NoShortRead brokenText fragmentedFs (literalName "HOLA    TXT") 512#32 ∧
      ¬ LoadsWhole brokenText fragmentedFs (literalName "HOLA    TXT") 0x110000#32 := by
  have first : FirstMatch (slotAt brokenText fragmentedFs.rootStart) (slotCount fragmentedFs)
      (literalName "HOLA    TXT") 0 (entryAt (fullText 65#32) 0) :=
    firstMatch_zero (by decide +kernel) rfl (by decide +kernel) (by decide +kernel)
  have unreadable (maxSize : Word) (some_ : 0 < readSize (entryAt (fullText 65#32) 0) maxSize) :
      ¬ FileReadable brokenText fragmentedFs (literalName "HOLA    TXT") maxSize :=
    fun readable => readable 0 _ first 0 some_ rfl
  refine ⟨⟨_, rfl, rfl⟩, ?_, ?_⟩
  · rw [noShortRead_iff (by decide)]
    exact unreadable 512#32 (by decide +kernel)
  · rw [loadsWhole_iff]
    exact unreadable _ (by decide +kernel)

end Learnix
