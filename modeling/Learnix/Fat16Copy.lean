import Learnix.FileText
import Learnix.Lib.WhileLoop

/-!
# The sectors and indices of a copy

The copy loop of `fat16_read_file` as a while loop. Its counter and the clamp for the last
sector are 32-bit sums: up to a limit of `2 ^ 32 - 512` bytes they do not wrap, and the loop
reads one sector for every 512 bytes and stores below the limit; beyond it the loop comes
back to the start of the buffer and never ends (`bounded_read_iff`). The number of the first
sector is a 32-bit value too. It is compared with nothing, so that the data area is left
exactly when the sectors of the file, taken to be consecutive, do not all lie in it
(`data_area_iff`).
-/

namespace Learnix

open Machine WhileLoop

variable {disk : Disk} {sectors : Word → Sector} {fs : Fat16} {name : Fin 11 → Byte}
  {size start maxSize sector index : Word} {buffer : Word → Byte} {c c' : Copy} {e : Entry}
  {i j n : Nat}

/-- One round of the copy loop. -/
def copyRound (disk : Disk) (size : Word) (c : Copy) : Option Copy :=
  if c.bytesRead < size then (disk c.sector).map fun sectorBuf => copySector sectorBuf size c
  else none

/-- The round that begins here stores at this index of the buffer, if its sector is read. -/
def StoresAt (size : Word) (c : Copy) (index : Word) : Prop :=
  c.bytesRead < size ∧ ∃ b < (toCopy size c.bytesRead).toNat,
    index = c.bytesRead + BitVec.ofNat 32 b

/-- `size` in `fat16_read_file`. -/
def clampedSize (e : Entry) (maxSize : Word) : Word :=
  if e.fileSize > maxSize then maxSize else e.fileSize

/-- The copy loop ends after at most one sector for every 512 bytes of the limit, and stores
only below the limit. -/
structure BoundedCopy (disk : Disk) (size start : Word) (buffer : Word → Byte) (limit : Nat) :
    Prop where
  ends : ∃ n c, n ≤ (limit + 511) / 512 ∧ Ends (copyRound disk size) ⟨0#32, start, buffer⟩ n c
  inside : ∀ n c index, Reaches (copyRound disk size) ⟨0#32, start, buffer⟩ n c →
    StoresAt size c index → index.toNat < limit

/-- `fat16_read_file` returns, and its copy loop is bounded by the smaller one of the size in
the directory and the caller's limit. -/
structure BoundedRead (disk : Disk) (fs : Fat16) (name : Fin 11 → Byte) (maxSize : Word) :
    Prop where
  returns : ∀ buffer, fat16ReadFile disk fs name buffer maxSize ≠ none
  bounded : ∀ i e, FirstMatch (slotAt disk fs.rootStart) (slotCount fs) name i e →
    ∀ buffer, BoundedCopy disk (clampedSize e maxSize) (firstSector fs e.firstCluster) buffer
      (min e.fileSize.toNat maxSize.toNat)

/-- The copy loop passes this sector to `ata_read_sector`. -/
def Passed (disk : Disk) (size start : Word) (buffer : Word → Byte) (sector : Word) : Prop :=
  ∃ n c, Reaches (copyRound disk size) ⟨0#32, start, buffer⟩ n c ∧ c.bytesRead < size ∧
    c.sector = sector

/-! ## The loop -/

theorem copyLoop_eq_loop (disk : Disk) (size : Word) (fuel : Nat) (c : Copy) :
    copyLoop disk size fuel c = loop (copyRound disk size) fuel c := by
  induction fuel generalizing c with
  | zero => rfl
  | succ fuel ih =>
      rw [copyLoop, loop, copyRound]
      by_cases more : c.bytesRead < size
      · rw [if_pos more, if_pos more]
        cases disk c.sector with
        | none => rfl
        | some sectorBuf => exact ih _
      · rw [if_neg more, if_neg more]

theorem clampedSize_toNat (e : Entry) (maxSize : Word) :
    (clampedSize e maxSize).toNat = readSize e maxSize := toNat_size e maxSize

theorem copyRound_eq_some (next : copyRound disk size c = some c') :
    c.bytesRead < size ∧ ∃ sectorBuf, disk c.sector = some sectorBuf ∧
      c' = copySector sectorBuf size c := by
  unfold copyRound at next
  split at next
  · next more =>
    obtain ⟨sectorBuf, read, rfl⟩ := Option.map_eq_some_iff.mp next
    exact ⟨more, sectorBuf, read, rfl⟩
  · cases next

/-! ## Limits up to `2 ^ 32 - 512` -/

/-- What the rounds of the loop do on any disk. -/
theorem Copied.round (copied : Copied (fun lba => (disk lba).getD default) start size buffer n c)
    (small : size.toNat ≤ 2 ^ 32 - 512) (next : copyRound disk size c = some c') :
    Copied (fun lba => (disk lba).getD default) start size buffer (n + 1) c' := by
  obtain ⟨more, sectorBuf, read, rfl⟩ := copyRound_eq_some next
  have step := copied.step small more
  rwa [read, Option.getD_some] at step

theorem Copied.lt (copied : Copied sectors start size buffer n c) (more : c.bytesRead < size) :
    512 * n < size.toNat := by
  have less : c.bytesRead.toNat < size.toNat := more
  rw [copied.bytesRead] at less
  omega

theorem copied_of_reaches (small : size.toNat ≤ 2 ^ 32 - 512)
    (reaches : Reaches (copyRound disk size) ⟨0#32, start, buffer⟩ n c) :
    Copied (fun lba => (disk lba).getD default) start size buffer n c :=
  reaches.invariant (copied_zero start size buffer) fun _ _ _ copied next =>
    copied.round small next

/-- The loop ends on any disk. -/
theorem exists_ends_copy (disk : Disk) (start : Word) (buffer : Word → Byte)
    (small : size.toNat ≤ 2 ^ 32 - 512) :
    ∃ n c, n ≤ (size.toNat + 511) / 512 ∧
      Ends (copyRound disk size) ⟨0#32, start, buffer⟩ n c := by
  have few : ∀ n c c', Copied (fun lba => (disk lba).getD default) start size buffer n c →
      copyRound disk size c = some c' → n < (size.toNat + 511) / 512 := by
    intro n c c' copied next
    have less := copied.lt (copyRound_eq_some next).1
    omega
  rcases exists_ends _ (copied_zero start size buffer)
    (fun _ _ _ copied next => copied.round small next) few with ⟨n, c, bound, ends, -⟩
  exact ⟨n, c, bound, ends⟩

theorem storesAt_lt (small : size.toNat ≤ 2 ^ 32 - 512) (stores : StoresAt size c index) :
    index.toNat < size.toNat := by
  rcases stores with ⟨more, b, below, rfl⟩
  have less : c.bytesRead.toNat < size.toNat := more
  unfold toCopy at below
  split at below <;> bv_omega

theorem boundedCopy (disk : Disk) (start : Word) (buffer : Word → Byte)
    (small : size.toNat ≤ 2 ^ 32 - 512) : BoundedCopy disk size start buffer size.toNat :=
  ⟨exists_ends_copy disk start buffer small,
    fun _ _ _ _ stores => storesAt_lt small stores⟩

/-! ## Limits beyond it -/

/-- The counter is a multiple of 512 and therefore below the limit: the sum in the clamp is
at most `2 ^ 32 - 512`, or it has wrapped to 0. -/
theorem copySector_wraps (large : 2 ^ 32 - 512 < size.toNat) (whole : c.bytesRead.toNat % 512 = 0)
    (s : Sector) : c.bytesRead < size ∧ (copySector s size c).bytesRead.toNat % 512 = 0 := by
  have more : c.bytesRead < size := by bv_omega
  refine ⟨more, ?_⟩
  have all : toCopy size c.bytesRead = 512#32 := by
    unfold toCopy
    rw [if_neg]
    bv_omega
  simp only [copySector, all, BitVec.toNat_add, BitVec.toNat_ofNat]
  omega

theorem not_ends_copy (sectors : Word → Sector) (start : Word) (buffer : Word → Byte)
    (large : 2 ^ 32 - 512 < size.toNat) (n : Nat) (c : Copy) :
    ¬ Ends (copyRound (readable sectors) size) ⟨0#32, start, buffer⟩ n c := by
  apply not_ends (I := fun _ c => c.bytesRead.toNat % 512 = 0) rfl
  intro n c whole
  obtain ⟨more, whole'⟩ := copySector_wraps large whole (sectors c.sector)
  refine ⟨copySector (sectors c.sector) size c, ?_, whole'⟩
  rw [copyRound, if_pos more]
  rfl

theorem fat16ReadFile_found (first : FirstMatch (slotAt disk fs.rootStart) (slotCount fs) name i e)
    (buffer : Word → Byte) (maxSize : Word) :
    fat16ReadFile disk fs name buffer maxSize =
      (loop (copyRound disk (clampedSize e maxSize)) pointerSpace
        ⟨0#32, firstSector fs e.firstCluster, buffer⟩).map
          fun c => (c.bytesRead.toInt, c.buffer) := by
  unfold fat16ReadFile
  rcases scanRoot_root disk fs name with ⟨-, absent⟩ | ⟨j, d, found, first'⟩
  · exact absurd first.1 (absent i e)
  · obtain ⟨-, rfl⟩ := first.unique first'
    rw [found, ← copyLoop_eq_loop]
    rfl

theorem fat16ReadFile_never (first : FirstMatch (slotAt (readable sectors) fs.rootStart)
      (slotCount fs) name i e) (buffer : Word → Byte)
    (large : 2 ^ 32 - 512 < readSize e maxSize) :
    fat16ReadFile (readable sectors) fs name buffer maxSize = none := by
  rw [← clampedSize_toNat] at large
  rw [fat16ReadFile_found first, Option.map_eq_none_iff, loop_eq_none_iff]
  exact fun n _ c => not_ends_copy sectors _ buffer large n c

/-- On a disk that can be read, `fat16_read_file` is bounded exactly if no entry has the name,
or the size that the first one that matches gives, cut to the limit of the caller, is at most
`2 ^ 32 - 512`. -/
theorem bounded_read_iff (sectors : Word → Sector) (fs : Fat16) (name : Fin 11 → Byte)
    (maxSize : Word) :
    BoundedRead (readable sectors) fs name maxSize ↔
      ∀ i e, FirstMatch (slotAt (readable sectors) fs.rootStart) (slotCount fs) name i e →
        min e.fileSize.toNat maxSize.toNat ≤ 0xFFFFFE00 := by
  constructor
  · intro bounded i e first
    by_contra large
    exact bounded.returns (fun _ => 0#8)
      (fat16ReadFile_never first _ (Nat.not_le.mp large))
  · intro small
    have copies (i : Nat) (e : Entry) (first : FirstMatch (slotAt (readable sectors) fs.rootStart)
        (slotCount fs) name i e) (buffer : Word → Byte) :
        BoundedCopy (readable sectors) (clampedSize e maxSize) (firstSector fs e.firstCluster)
          buffer (readSize e maxSize) := by
      rw [← clampedSize_toNat]
      apply boundedCopy
      rw [clampedSize_toNat]
      exact small i e first
    refine ⟨fun buffer never => ?_, copies⟩
    rcases scanRoot_root (readable sectors) fs name with ⟨none, -⟩ | ⟨i, e, -, first⟩
    · rw [fat16ReadFile, none] at never
      cases never
    · rw [fat16ReadFile_found first, Option.map_eq_none_iff, loop_eq_none_iff] at never
      obtain ⟨n, c, few, ends⟩ := (copies i e first buffer).ends
      have enough : n < pointerSpace := by
        have := small i e first
        rw [readSize] at few
        rw [pointerSpace]
        omega
      exact never n enough c ends

/-- The volume of `fragmented`, with one file, `HOLA.TXT`; the bytes give its first cluster
and its size. -/
def withText (bytes : List Nat) (lba : Word) : Sector :=
  if lba = 65#32 then
    sectorOf ([0x48, 0x4F, 0x4C, 0x41, 0x20, 0x20, 0x20, 0x20, 0x54, 0x58, 0x54, 0x20,
      0, 0, 0, 0, 0, 0, 0, 0, 0, 0, 0, 0, 0, 0] ++ bytes)
  else fragmented lba

/-- Its size is 4 GB less one byte. -/
def endlessText : Word → Sector := withText [2, 0, 0xFF, 0xFF, 0xFF, 0xFF]

theorem firstMatch_endlessText : FirstMatch (slotAt (readable endlessText) fragmentedFs.rootStart)
    (slotCount fragmentedFs) (literalName "HOLA    TXT") 0 (entryAt (endlessText 65#32) 0) :=
  firstMatch_zero (by decide +kernel) rfl (by decide +kernel) (by decide +kernel)

/-- With this limit the call for such a file does not return. -/
theorem endless_read : fat16Init (readable endlessText) fragmentedFs = (0, fragmentedFs) ∧
    fat16ReadFile (readable endlessText) fragmentedFs (literalName "HOLA    TXT") (fun _ => 0#8)
      0xFFFFFFFF#32 = none ∧
    (∀ n c, ¬ Ends (copyRound (readable endlessText) 0xFFFFFFFF#32)
      ⟨0#32, 97#32, fun _ => 0#8⟩ n c) ∧
    ¬ ∀ sectors fs name maxSize, BoundedRead (readable sectors) fs name maxSize := by
  have never := fat16ReadFile_never firstMatch_endlessText (fun _ => 0#8)
    (by decide +kernel : 2 ^ 32 - 512 < readSize (entryAt (endlessText 65#32) 0) 0xFFFFFFFF#32)
  refine ⟨rfl, never, fun n c => not_ends_copy _ _ _ (by decide) n c, fun all => ?_⟩
  exact (all endlessText fragmentedFs (literalName "HOLA    TXT") 0xFFFFFFFF#32).returns _ never

/-! ## The sectors that are passed -/

/-- All sectors of the copy lie in the data area of the volume. -/
def StaysInDataArea (disk : Disk) (fs : Fat16) (name : Fin 11 → Byte) (maxSize : Word) : Prop :=
  ∀ i e, FirstMatch (slotAt disk fs.rootStart) (slotCount fs) name i e → ∀ buffer sector,
    Passed disk (clampedSize e maxSize) (firstSector fs e.firstCluster) buffer sector →
    fs.dataStart.toNat ≤ sector.toNat ∧ sector.toNat < volumeSectors fs.bootSector

/-- The sectors of the bytes that fit lie in the data area when they are consecutive. -/
def FileInDataArea (fs : Fat16) (e : Entry) (maxSize : Word) : Prop :=
  0 < readSize e maxSize →
    fs.dataStart.toNat ≤ (firstSector fs e.firstCluster).toNat ∧
    (firstSector fs e.firstCluster).toNat + (readSize e maxSize + 511) / 512 ≤
      volumeSectors fs.bootSector

/-- The loop comes to every sector that has only sectors before it that can be read. -/
theorem exists_reaches_copy (start : Word) (buffer : Word → Byte)
    (small : size.toNat ≤ 2 ^ 32 - 512)
    (goes : ∀ k < j, 512 * k < size.toNat ∧ disk (start + BitVec.ofNat 32 k) ≠ none) :
    ∃ c, Reaches (copyRound disk size) ⟨0#32, start, buffer⟩ j c := by
  induction j with
  | zero => exact ⟨_, .start⟩
  | succ j ih =>
      obtain ⟨c, reaches⟩ := ih fun k below => goes k (Nat.lt_succ_of_lt below)
      obtain ⟨inside, readable⟩ := goes j (Nat.lt_succ_self j)
      have copied := copied_of_reaches small reaches
      have more : c.bytesRead < size := by
        rw [BitVec.lt_def, copied.bytesRead]
        omega
      obtain ⟨sectorBuf, read⟩ := Option.ne_none_iff_exists'.mp readable
      rw [← copied.sector] at read
      refine ⟨copySector sectorBuf size c, .more reaches ?_⟩
      rw [copyRound, if_pos more, read, Option.map_some]

/-- The sectors that are passed are consecutive, up to the last one that is needed or the
first one that cannot be read. -/
theorem passed_iff (start : Word) (buffer : Word → Byte) (small : size.toNat ≤ 2 ^ 32 - 512) :
    Passed disk size start buffer sector ↔ ∃ j, 512 * j < size.toNat ∧
      sector = start + BitVec.ofNat 32 j ∧ ∀ k < j, disk (start + BitVec.ofNat 32 k) ≠ none := by
  constructor
  · rintro ⟨n, c, reaches, more, rfl⟩
    have copied := copied_of_reaches small reaches
    refine ⟨n, copied.lt more, copied.sector, fun k below => ?_⟩
    obtain ⟨d, before, next⟩ := reaches.exists_of_le (Nat.le_of_lt below)
    obtain ⟨d', goes⟩ := next below
    obtain ⟨-, sectorBuf, read, -⟩ := copyRound_eq_some goes
    rw [(copied_of_reaches small before).sector] at read
    rw [read]
    exact Option.some_ne_none sectorBuf
  · rintro ⟨j, inside, rfl, goes⟩
    rcases exists_reaches_copy start buffer small
      fun k below => ⟨by omega, goes k below⟩ with ⟨c, reaches⟩
    have copied := copied_of_reaches small reaches
    refine ⟨j, c, reaches, ?_, copied.sector⟩
    rw [BitVec.lt_def, copied.bytesRead]
    omega

theorem volumeSectors_lt (boot : BootSector) : volumeSectors boot < 2 ^ 32 := by
  unfold volumeSectors
  split
  · exact boot.largeSectors.isLt
  · exact Nat.lt_trans boot.totalSectors.isLt (by decide)

/-- When the numbers of a run of sectors all lie in the volume, they do not wrap. -/
theorem run_le {start : Word} {count low high : Nat} (few : high < 2 ^ 32) (some_ : 0 < count)
    (all : ∀ j < count, low ≤ (start + BitVec.ofNat 32 j).toNat ∧
      (start + BitVec.ofNat 32 j).toNat < high) :
    low ≤ start.toNat ∧ start.toNat + count ≤ high := by
  have first := all 0 some_
  rw [BitVec.add_zero] at first
  refine ⟨first.1, ?_⟩
  by_contra beyond
  rcases Nat.lt_or_ge (2 ^ 32 - 1 - start.toNat) count with wraps | below
  · -- the last number before the wrap is in no volume
    have last := (all _ wraps).2
    have top : (start + BitVec.ofNat 32 (2 ^ 32 - 1 - start.toNat)).toNat = 2 ^ 32 - 1 := by
      have := start.isLt
      rw [BitVec.toNat_add, BitVec.toNat_ofNat]
      omega
    omega
  · have last := (all (count - 1) (by omega)).2
    have place : (start + BitVec.ofNat 32 (count - 1)).toNat = start.toNat + (count - 1) := by
      rw [BitVec.toNat_add, BitVec.toNat_ofNat]
      omega
    omega

theorem FileInDataArea.contains (inside : FileInDataArea fs e maxSize)
    (needed : 512 * j < readSize e maxSize) :
    fs.dataStart.toNat ≤ (firstSector fs e.firstCluster + BitVec.ofNat 32 j).toNat ∧
      (firstSector fs e.firstCluster + BitVec.ofNat 32 j).toNat < volumeSectors fs.bootSector := by
  obtain ⟨low, high⟩ := inside (Nat.zero_lt_of_lt needed)
  have few := volumeSectors_lt fs.bootSector
  rw [BitVec.toNat_add, BitVec.toNat_ofNat]
  omega

theorem eq_readable (all : ∀ lba, disk lba ≠ none) : ∃ sectors, disk = readable sectors := by
  refine ⟨fun lba => (disk lba).getD default, funext fun lba => ?_⟩
  obtain ⟨s, read⟩ := Option.ne_none_iff_exists'.mp (all lba)
  rw [readable, read, Option.getD_some]

/-- For a file of at most `2 ^ 32 - 512` bytes, cut to the limit of the caller, the copy passes
consecutive sectors from the first one of the file on, whose number wraps. They lie in the
data area if all sectors of these bytes do, and on a disk that can be read only then; there
the call gives the number of bytes in any case. -/
theorem data_area_iff (first : FirstMatch (slotAt disk fs.rootStart) (slotCount fs) name i e)
    (small : readSize e maxSize ≤ 2 ^ 32 - 512) :
    (∀ buffer sector,
      Passed disk (clampedSize e maxSize) (firstSector fs e.firstCluster) buffer sector ↔
        ∃ j, 512 * j < readSize e maxSize ∧
          sector = firstSector fs e.firstCluster + BitVec.ofNat 32 j ∧
          ∀ k < j, disk (firstSector fs e.firstCluster + BitVec.ofNat 32 k) ≠ none) ∧
    (FileInDataArea fs e maxSize → StaysInDataArea disk fs name maxSize) ∧
    ((∀ lba, disk lba ≠ none) →
      (StaysInDataArea disk fs name maxSize → FileInDataArea fs e maxSize) ∧
      ∀ buffer, ∃ b, fat16ReadFile disk fs name buffer maxSize =
        some ((clampedSize e maxSize).toInt, b)) := by
  have passed (buffer : Word → Byte) (sector : Word) :=
    @passed_iff disk _ sector (firstSector fs e.firstCluster) buffer
      (clampedSize_toNat e maxSize ▸ small)
  simp only [clampedSize_toNat] at passed
  refine ⟨passed, fun inside => ?_, fun readable => ⟨fun stays => ?_, fun buffer => ?_⟩⟩
  · intro i' e' first' buffer sector pass
    obtain ⟨-, rfl⟩ := first.unique first'
    obtain ⟨j, needed, rfl, -⟩ := (passed buffer sector).mp pass
    exact inside.contains needed
  · intro some_
    apply run_le (volumeSectors_lt fs.bootSector) (by omega)
    intro j below
    apply stays i e first (fun _ => 0#8)
    rw [passed]
    exact ⟨j, by omega, rfl, fun k _ => readable _⟩
  · obtain ⟨sectors, rfl⟩ := eq_readable readable
    rcases copyLoop_eq sectors (firstSector fs e.firstCluster)
      (clampedSize_toNat e maxSize ▸ small) buffer with ⟨c, loop, count, -⟩
    refine ⟨c.buffer, ?_⟩
    rw [fat16ReadFile_found first, ← copyLoop_eq_loop, loop, Option.map_some, count]

/-- `HOLA.TXT` has the first cluster 0 and 512 bytes. -/
def strayText : Word → Sector := withText [0, 0, 0x00, 0x02, 0, 0]

theorem firstMatch_strayText : FirstMatch (slotAt (readable strayText) fragmentedFs.rootStart)
    (slotCount fragmentedFs) (literalName "HOLA    TXT") 0 (entryAt (strayText 65#32) 0) :=
  firstMatch_zero (by decide +kernel) rfl (by decide +kernel) (by decide +kernel)

/-- Its sector is the last but one of the root directory, and the read succeeds. -/
theorem stray_read : fat16Init (readable strayText) fragmentedFs = (0, fragmentedFs) ∧
    (∃ b, fat16ReadFile (readable strayText) fragmentedFs (literalName "HOLA    TXT")
      (fun _ => 0xFF#8) 512#32 = some (512, b)) ∧
    (∃ sector, Passed (readable strayText) 512#32 95#32 (fun _ => 0xFF#8) sector ∧
      sector.toNat < fragmentedFs.dataStart.toNat) ∧
    ¬ StaysInDataArea (readable strayText) fragmentedFs (literalName "HOLA    TXT") 512#32 := by
  have passes : Passed (readable strayText) 512#32 95#32 (fun _ => 0xFF#8) 95#32 :=
    ⟨0, _, .start, by decide, rfl⟩
  have size : clampedSize (entryAt (strayText 65#32) 0) 512#32 = 512#32 := by decide +kernel
  have place : firstSector fragmentedFs (entryAt (strayText 65#32) 0).firstCluster = 95#32 := by
    decide +kernel
  refine ⟨rfl, ?_, ⟨95#32, passes, by decide⟩, fun stays => ?_⟩
  · rcases copyLoop_eq strayText 95#32 (by decide : (512#32).toNat ≤ 2 ^ 32 - 512)
      (fun _ => 0xFF#8) with ⟨c, loop, count, -⟩
    refine ⟨c.buffer, ?_⟩
    rw [fat16ReadFile_found firstMatch_strayText, ← copyLoop_eq_loop, size, place, loop,
      Option.map_some, count]
    rfl
  · have low := (stays 0 _ firstMatch_strayText (fun _ => 0xFF#8) 95#32
      (size.symm ▸ place.symm ▸ passes)).1
    exact absurd low (by decide)

/-- The file of 512 bytes in the second cluster. -/
theorem data_area_fullText :
    StaysInDataArea (readable fullText) fragmentedFs (literalName "HOLA    TXT") 512#32 := by
  have first : FirstMatch (slotAt (readable fullText) fragmentedFs.rootStart)
      (slotCount fragmentedFs) (literalName "HOLA    TXT") 0 (entryAt (fullText 65#32) 0) :=
    firstMatch_zero (by decide +kernel) rfl (by decide +kernel) (by decide +kernel)
  rcases data_area_iff first (by decide +kernel : readSize _ 512#32 ≤ 2 ^ 32 - 512) with
    ⟨-, inside, -⟩
  apply inside
  intro _
  decide +kernel

end Learnix
