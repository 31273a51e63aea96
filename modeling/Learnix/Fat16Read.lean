import Learnix.Fat16
import Learnix.Lib.Blocks
import Mathlib.Tactic.Ring

/-!
# What `fat16_read_file` reads

On a disk whose sectors can all be read, `fat16_read_file` finds the first entry
in use with the name it is given (`scanRoot_eq_lookup`) and copies consecutive
sectors, from the first sector of the file on (`copyLoop_eq`). It never looks at
the FAT, so what it returns is the file if the clusters of its chain follow each
other (`read_consecutive`).
-/

namespace Learnix

open Machine

/-- A disk on which all sector reads succeed. -/
def readable (sectors : Word → Sector) : Disk := fun lba => some (sectors lba)

variable {sectors : Word → Sector} {name : Fin 11 → Byte} {fs : Fat16} {size : Word} {c : Copy}
  {buffer : Word → Byte} {j n : Nat}

/-! ## The directory -/

/-- The first entry in use with this name, before the first one that ends the
directory. -/
def lookup (slots : List Entry) (name : Fin 11 → Byte) : Option Entry :=
  (slots.takeWhile fun e => e.first ≠ 0x00#8).find? fun e => e.first ≠ 0xE5#8 ∧ e.fatName = name

/-- The entries of `n` sectors of a directory. -/
def slotsFrom (sectors : Word → Sector) (start : Word) (n : Nat) : List Entry :=
  (List.range n).flatMap fun s => entries (sectors (start + BitVec.ofNat 32 s))

/-- The entries of the root directory. -/
def rootSlots (sectors : Word → Sector) (fs : Fat16) : List Entry :=
  slotsFrom sectors fs.rootStart (rootSectors fs.bootSector).toNat

theorem slotsFrom_succ (sectors : Word → Sector) (start : Word) (n : Nat) :
    slotsFrom sectors start (n + 1) =
      entries (sectors start) ++ slotsFrom sectors (start + 1#32) n := by
  have first : start + BitVec.ofNat 32 0 = start := BitVec.add_zero start
  have rest : (fun s => entries (sectors (start + BitVec.ofNat 32 (s + 1)))) =
      fun s => entries (sectors (start + 1#32 + BitVec.ofNat 32 s)) := by
    funext s
    rw [Nat.add_comm, BitVec.ofNat_add, BitVec.add_assoc]
  rw [slotsFrom, List.range_succ_eq_map, List.flatMap_cons, List.flatMap_map, first]
  exact congrArg (fun f => entries (sectors start) ++ (List.range n).flatMap f) rest

theorem lookup_append (es rest : List Entry) (name : Fin 11 → Byte) :
    lookup (es ++ rest) name = match scanEntries name es with
      | .absent => none
      | .found e => some e
      | .more => lookup rest name := by
  induction es with
  | nil => rfl
  | cons e es ih =>
      rw [scanEntries]
      by_cases end_ : e.first = 0x00#8
      · simp [lookup, end_]
      · rw [if_neg end_]
        by_cases deleted : e.first = 0xE5#8
        · rw [if_pos deleted, ← ih]
          simp [lookup, deleted]
        · rw [if_neg deleted]
          by_cases named : e.fatName = name
          · simp [lookup, end_, deleted, named]
          · rw [if_neg named, ← ih]
            simp [lookup, end_, named]

/-- The two loops over the root directory find the first entry in use with the name. -/
theorem scanRoot_eq_lookup (sectors : Word → Sector) (name : Fin 11 → Byte) (n : Nat)
    (start : Word) :
    scanRoot (readable sectors) name n start = lookup (slotsFrom sectors start n) name := by
  induction n generalizing start with
  | zero => rfl
  | succ n ih =>
      rw [slotsFrom_succ, lookup_append, scanRoot, readable]
      simp only
      cases scanEntries name (entries (sectors start)) with
      | absent => rfl
      | found e => rfl
      | more => exact ih (start + 1#32)

/-! ## The copy loop -/

theorem copyBytes_apply (s : Sector) (at_ : Word) {n : Nat} (short : n ≤ 512)
    (buffer : Word → Byte) (k : Word) :
    copyBytes s at_ n buffer k =
      if (k - at_).toNat < n then s.byte (k - at_).toNat else buffer k := by
  unfold copyBytes
  induction n with
  | zero => rfl
  | succ n ih =>
      rw [List.range_succ, List.foldl_append, List.foldl_cons, List.foldl_nil]
      by_cases here : k = at_ + BitVec.ofNat 32 n
      · have place : (k - at_).toNat = n := by bv_omega
        rw [here, Function.update_self, ← here, place, if_pos (Nat.lt_succ_self n)]
      · have other : (k - at_).toNat ≠ n := by bv_omega
        rw [Function.update_of_ne here, ih (Nat.le_of_succ_le short)]
        have iff_ : (k - at_).toNat < n ↔ (k - at_).toNat < n + 1 := by omega
        simp only [iff_]

/-- Byte `k` of the sectors from `start` on. -/
def byteFrom (sectors : Word → Sector) (start : Word) (k : Nat) : Byte :=
  (sectors (start + BitVec.ofNat 32 (k / 512))).byte (k % 512)

/-- The copy loop has copied `j` sectors, the last one only as far as `size`. -/
structure Copied (sectors : Word → Sector) (start size : Word) (buffer : Word → Byte) (j : Nat)
    (c : Copy) : Prop where
  bytesRead : c.bytesRead.toNat = min (512 * j) size.toNat
  sector : c.sector = start + BitVec.ofNat 32 j
  stored : ∀ k, c.buffer k =
    if k.toNat < min (512 * j) size.toNat then byteFrom sectors start k.toNat else buffer k

/-- **Step lemma.** -/
theorem Copied.step {start : Word} (copied : Copied sectors start size buffer j c)
    (small : size.toNat ≤ 2 ^ 32 - 512) (more : c.bytesRead < size) :
    Copied sectors start size buffer (j + 1) (copySector (sectors c.sector) size c) := by
  obtain ⟨bytesRead, sector, stored⟩ := copied
  have more : c.bytesRead.toNat < size.toNat := more
  have here : c.bytesRead.toNat = 512 * j := by omega
  have count : (toCopy size c.bytesRead).toNat = min 512 (size.toNat - 512 * j) := by
    unfold toCopy
    split <;> bv_omega
  refine ⟨?_, ?_, fun k => ?_⟩
  · simp only [copySector, BitVec.toNat_add, count, here]
    omega
  · simp only [copySector, sector, BitVec.ofNat_add, BitVec.add_assoc]
  · have short : (toCopy size c.bytesRead).toNat ≤ 512 := by omega
    simp only [copySector, copyBytes_apply _ _ short, stored]
    by_cases old : k.toNat < 512 * j
    · have below : ¬ (k - c.bytesRead).toNat < (toCopy size c.bytesRead).toNat := by bv_omega
      rw [if_neg below, if_pos (by omega), if_pos (by omega)]
    · have offset : (k - c.bytesRead).toNat = k.toNat - 512 * j := by bv_omega
      by_cases new : k.toNat - 512 * j < min 512 (size.toNat - 512 * j)
      · have place : k.toNat / 512 = j ∧ k.toNat % 512 = k.toNat - 512 * j := by omega
        rw [offset, count, if_pos new, if_pos (by omega), byteFrom, place.1, place.2, sector]
      · rw [offset, count, if_neg new, if_neg (by omega), if_neg (by omega)]

/-- **Run lemma.** -/
theorem Copied.run {start : Word} {fuel : Nat} (copied : Copied sectors start size buffer j c)
    (small : size.toNat ≤ 2 ^ 32 - 512) (enough : size.toNat < min (512 * j) size.toNat + fuel) :
    ∃ c', copyLoop (readable sectors) size fuel c = some c' ∧ c'.bytesRead = size ∧
      ∀ k, c'.buffer k = if k.toNat < size.toNat then byteFrom sectors start k.toNat
        else buffer k := by
  induction fuel generalizing c j with
  | zero => exact absurd (Nat.min_le_right (512 * j) size.toNat) (Nat.not_le.mpr enough)
  | succ fuel ih =>
      rw [copyLoop]
      by_cases more : c.bytesRead < size
      · have less : c.bytesRead.toNat < size.toNat := more
        rw [copied.bytesRead] at less
        rw [if_pos more, readable]
        exact ih (copied.step small more) (by omega)
      · have all : ¬ c.bytesRead.toNat < size.toNat := more
        rw [copied.bytesRead] at all
        have done : min (512 * j) size.toNat = size.toNat := by omega
        refine ⟨c, if_neg more, BitVec.eq_of_toNat_eq (copied.bytesRead.trans done), ?_⟩
        exact done ▸ copied.stored

theorem copied_zero (start size : Word) (buffer : Word → Byte) :
    Copied sectors start size buffer 0 ⟨0#32, start, buffer⟩ := by
  refine ⟨?_, (BitVec.add_zero start).symm, fun k => ?_⟩
  · rw [Nat.mul_zero, Nat.zero_min]
    rfl
  · rw [Nat.mul_zero, Nat.zero_min, if_neg (Nat.not_lt_zero _)]

/-- The copy loop stores as many consecutive bytes of the disk as it is told. -/
theorem copyLoop_eq (sectors : Word → Sector) (start : Word) (small : size.toNat ≤ 2 ^ 32 - 512)
    (buffer : Word → Byte) :
    ∃ c', copyLoop (readable sectors) size pointerSpace ⟨0#32, start, buffer⟩ = some c' ∧
      c'.bytesRead = size ∧ ∀ k, c'.buffer k =
        if k.toNat < size.toNat then byteFrom sectors start k.toNat else buffer k := by
  exact (copied_zero start size buffer).run small (by rw [pointerSpace]; omega)

/-- On any disk the copy loop ends: it has copied some number of sectors, the same for all
buffers, and if that is not all it came to one that cannot be read. -/
theorem exists_copied (disk : Disk) (start size : Word) (small : size.toNat ≤ 2 ^ 32 - 512)
    (fuel j : Nat) (enough : size.toNat < min (512 * j) size.toNat + fuel) :
    ∃ j', (∀ i, j ≤ i → i < j' → disk (start + BitVec.ofNat 32 i) ≠ none) ∧
      (512 * j' < size.toNat → disk (start + BitVec.ofNat 32 j') = none) ∧
      ∀ buffer c, Copied (fun lba => (disk lba).getD default) start size buffer j c →
        ∃ c', copyLoop disk size fuel c = some c' ∧
          Copied (fun lba => (disk lba).getD default) start size buffer j' c' := by
  induction fuel generalizing j with
  | zero => exact absurd (Nat.min_le_right (512 * j) size.toNat) (Nat.not_le.mpr enough)
  | succ fuel ih =>
      by_cases more : min (512 * j) size.toNat < size.toNat
      · have goOn : ∀ buffer c, Copied (fun lba => (disk lba).getD default) start size buffer j c →
            c.bytesRead < size ∧ c.sector = start + BitVec.ofNat 32 j := fun buffer c copied =>
          ⟨BitVec.lt_def.mpr (copied.bytesRead ▸ more), copied.sector⟩
        cases read : disk (start + BitVec.ofNat 32 j) with
        | none =>
            refine ⟨j, fun i from_ below => absurd from_ (Nat.not_le.mpr below), fun _ => read,
              fun buffer c copied => ⟨c, ?_, copied⟩⟩
            obtain ⟨less, sector⟩ := goOn buffer c copied
            rw [copyLoop, if_pos less, sector, read]
        | some sectorBuf =>
            obtain ⟨j', sound, stop, rest⟩ := ih (j + 1) (by omega)
            refine ⟨j', fun i from_ below => ?_, stop, fun buffer c copied => ?_⟩
            · rcases Nat.eq_or_lt_of_le from_ with rfl | after
              · rw [read]
                exact Option.some_ne_none sectorBuf
              · exact sound i after below
            · obtain ⟨less, sector⟩ := goOn buffer c copied
              have next := copied.step small less
              rw [sector, read, Option.getD_some] at next
              rw [copyLoop, if_pos less, sector, read]
              exact rest buffer _ next
      · refine ⟨j, fun i from_ below => absurd from_ (Nat.not_le.mpr below),
          fun less => absurd less (by omega), fun buffer c copied => ⟨c, ?_, copied⟩⟩
        have stop : ¬ c.bytesRead < size := fun less =>
          more (copied.bytesRead ▸ BitVec.lt_def.mp less)
        rw [copyLoop, if_neg stop]

/-- The number of bytes that a call may return at most. -/
def readSize (e : Entry) (maxSize : Word) : Nat := min e.fileSize.toNat maxSize.toNat

/-- `size`, once it has been cut to `max_size`. -/
theorem toNat_size (e : Entry) (maxSize : Word) :
    (if e.fileSize > maxSize then maxSize else e.fileSize).toNat = readSize e maxSize := by
  unfold readSize
  split <;> bv_omega

/-- `fat16_read_file` on a disk that can be read: it returns -1 when no entry in use has
the name, and else stores consecutive bytes of the disk. -/
theorem fat16ReadFile_eq (sectors : Word → Sector) (fs : Fat16) (name : Fin 11 → Byte)
    (buffer : Word → Byte) {maxSize : Word} (small : maxSize.toNat < 2 ^ 31) :
    ∃ b, fat16ReadFile (readable sectors) fs name buffer maxSize =
        some ((lookup (rootSlots sectors fs) name).elim (-1)
          fun e => (readSize e maxSize : Int), b) ∧
      ∀ k, b k = match lookup (rootSlots sectors fs) name with
        | none => buffer k
        | some e => if k.toNat < readSize e maxSize then
            byteFrom sectors (firstSector fs e.firstCluster) k.toNat else buffer k := by
  unfold fat16ReadFile
  rw [scanRoot_eq_lookup, ← rootSlots]
  cases lookup (rootSlots sectors fs) name with
  | none => exact ⟨buffer, rfl, fun _ => rfl⟩
  | some e =>
      have size := toNat_size e maxSize
      have bound : readSize e maxSize < 2 ^ 31 := Nat.lt_of_le_of_lt (Nat.min_le_right _ _) small
      have few : (if e.fileSize > maxSize then maxSize else e.fileSize).toNat ≤ 2 ^ 32 - 512 := by
        omega
      obtain ⟨c, loop, bytesRead, stored⟩ := copyLoop_eq sectors (firstSector fs e.firstCluster)
        few buffer
      have returned : c.bytesRead.toInt = (readSize e maxSize : Int) := by
        rw [bytesRead, BitVec.toInt_eq_toNat_of_lt (by omega), size]
      rw [size] at stored
      simp only [loop, Option.map_some, returned]
      exact ⟨c.buffer, rfl, stored⟩

/-- On any disk `fat16_read_file` fails without storing anything, or it stores the first
`n` bytes of a file and returns `n`. Which of the two, and the bytes, do not depend on the
buffer. -/
theorem fat16ReadFile_prefix (disk : Disk) (fs : Fat16) (name : Fin 11 → Byte) {maxSize : Word}
    (small : maxSize.toNat < 2 ^ 31) :
    (∀ buffer, fat16ReadFile disk fs name buffer maxSize = some (-1, buffer)) ∨
      ∃ (n : Nat) (file : Nat → Byte), n ≤ maxSize.toNat ∧ ∀ buffer,
        fat16ReadFile disk fs name buffer maxSize =
          some ((n : Int), fun k => if k.toNat < n then file k.toNat else buffer k) := by
  unfold fat16ReadFile
  cases scanRoot disk name (rootSectors fs.bootSector).toNat fs.rootStart with
  | none => exact .inl fun _ => rfl
  | some e =>
      let size := if e.fileSize > maxSize then maxSize else e.fileSize
      let start := firstSector fs e.firstCluster
      have bound : size.toNat ≤ maxSize.toNat := by
        simp only [size]
        split <;> bv_omega
      rcases exists_copied disk start size (by omega) pointerSpace 0
        (by rw [pointerSpace]; omega) with ⟨j, -, -, all⟩
      refine .inr ⟨min (512 * j) size.toNat, byteFrom (fun lba => (disk lba).getD default) start,
        by omega, fun buffer => ?_⟩
      obtain ⟨c, loop, copied⟩ := all buffer _ (copied_zero start size buffer)
      have count := copied.bytesRead
      have returned : c.bytesRead.toInt = (min (512 * j) size.toNat : Nat) := by
        rw [BitVec.toInt_eq_toNat_of_lt (by omega), count]
      have bytes : c.buffer = fun k => if k.toNat < min (512 * j) size.toNat then
          byteFrom (fun lba => (disk lba).getD default) start k.toNat else buffer k :=
        funext copied.stored
      change (copyLoop disk size pointerSpace ⟨0#32, start, buffer⟩).map _ = _
      rw [loop, Option.map_some, returned, bytes]

/-! ## Clusters -/

/-- The bytes of a cluster. -/
def clusterSize (fs : Fat16) : Nat := fs.bootSector.sectorsPerCluster.toNat * 512

/-- The first sector of cluster `c`. -/
def clusterSector (fs : Fat16) (c : Nat) : Word :=
  fs.dataStart +
    (BitVec.ofNat 32 c - 2#32) * BitVec.ofNat 32 fs.bootSector.sectorsPerCluster.toNat

def clusterBytes (sectors : Word → Sector) (fs : Fat16) (c : Nat) : List Byte :=
  (List.range (clusterSize fs)).map (byteFrom sectors (clusterSector fs c))

/-- The clusters put together. -/
def contents (sectors : Word → Sector) (fs : Fat16) (clusters : List Nat) : List Byte :=
  clusters.flatMap (clusterBytes sectors fs)

/-- Entry `c` of the FAT. -/
def fatEntry (sectors : Word → Sector) (fs : Fat16) (c : Nat) : Nat :=
  ((sectors (fs.fatStart + BitVec.ofNat 32 (2 * c / 512))).le16 (2 * c % 512)).toNat

/-- The chain of the FAT that starts with cluster `c`. -/
def FatChain (sectors : Word → Sector) (fs : Fat16) : Nat → List Nat → Prop
  | c, [] => 0xFFF8 ≤ c
  | c, d :: ds => d = c ∧ 2 ≤ c ∧ c < 0xFFF0 ∧ FatChain sectors fs (fatEntry sectors fs c) ds

/-- The clusters of a file; an empty file need not have any. -/
def FileChain (sectors : Word → Sector) (fs : Fat16) (e : Entry) (clusters : List Nat) : Prop :=
  e.firstCluster = 0#16 ∧ clusters = [] ∨ FatChain sectors fs e.firstCluster.toNat clusters

instance decidableFatChain (sectors : Word → Sector) (fs : Fat16) :
    ∀ c cs, Decidable (FatChain sectors fs c cs)
  | c, [] => inferInstanceAs (Decidable (0xFFF8 ≤ c))
  | c, d :: ds =>
    have := decidableFatChain sectors fs (fatEntry sectors fs c) ds
    inferInstanceAs (Decidable (d = c ∧ 2 ≤ c ∧ c < 0xFFF0 ∧
      FatChain sectors fs (fatEntry sectors fs c) ds))

instance (sectors : Word → Sector) (fs : Fat16) (e : Entry) (clusters : List Nat) :
    Decidable (FileChain sectors fs e clusters) :=
  inferInstanceAs (Decidable (e.firstCluster = 0#16 ∧ clusters = [] ∨
    FatChain sectors fs e.firstCluster.toNat clusters))

theorem firstSector_eq (fs : Fat16) (cluster : BitVec 16) :
    firstSector fs cluster = clusterSector fs cluster.toNat := by
  rw [clusterSector, BitVec.ofNat_toNat, BitVec.ofNat_toNat]
  rfl

theorem clusterSector_add (fs : Fat16) (c i : Nat) :
    clusterSector fs (c + i) = clusterSector fs c +
      BitVec.ofNat 32 (i * fs.bootSector.sectorsPerCluster.toNat) := by
  rw [clusterSector, clusterSector, BitVec.ofNat_add, BitVec.ofNat_mul]
  ring

/-- Consecutive clusters are consecutive sectors. -/
theorem byteFrom_clusterSector (sectors : Word → Sector) (fs : Fat16) (c i k : Nat) :
    byteFrom sectors (clusterSector fs (c + i)) k =
      byteFrom sectors (clusterSector fs c) (i * clusterSize fs + k) := by
  have place : (i * clusterSize fs + k) / 512 =
      i * fs.bootSector.sectorsPerCluster.toNat + k / 512 := by
    rw [clusterSize, ← Nat.mul_assoc, Nat.mul_comm _ 512, Nat.mul_add_div (by decide)]
  have offset : (i * clusterSize fs + k) % 512 = k % 512 := by
    rw [clusterSize, ← Nat.mul_assoc, Nat.mul_comm _ 512, Nat.mul_add_mod]
  rw [byteFrom, byteFrom, place, offset, clusterSector_add, BitVec.ofNat_add, BitVec.add_assoc]

/-- The first bytes of consecutive clusters. -/
theorem take_contents (sectors : Word → Sector) (fs : Fat16) (pos : 0 < clusterSize fs)
    {clusters : List Nat} {first : Nat}
    (consecutive : ∀ i, i * clusterSize fs < n → clusters[i]? = some (first + i)) :
    (contents sectors fs clusters).take n =
      (List.range n).map (byteFrom sectors (clusterSector fs first)) :=
  Blocks.take_flatMap (fun c => byteFrom sectors (clusterSector fs c)) _ pos fun i reached =>
    ⟨first + i, consecutive i reached, byteFrom_clusterSector sectors fs first i⟩

/-! ## Files -/

/-- The entries before the one that ends the directory. -/
def directory (sectors : Word → Sector) (fs : Fat16) : List Entry :=
  (rootSlots sectors fs).takeWhile fun e => e.first ≠ 0x00#8

/-- The entry is in use. -/
def Entry.Live (e : Entry) : Prop := e.first ≠ 0xE5#8

/-- A file, and neither the label of the volume nor a directory. -/
def Entry.Regular (e : Entry) : Prop := e.Live ∧ e.attributes &&& 0x18#8 = 0#8

instance (e : Entry) : Decidable e.Live := inferInstanceAs (Decidable (e.first ≠ 0xE5#8))

instance (e : Entry) : Decidable e.Regular :=
  inferInstanceAs (Decidable (e.Live ∧ e.attributes &&& 0x18#8 = 0#8))

def volumeSectors (boot : BootSector) : Nat :=
  if boot.totalSectors = 0#16 then boot.largeSectors.toNat else boot.totalSectors.toNat

def clusterCount (fs : Fat16) : Nat :=
  (volumeSectors fs.bootSector - fs.dataStart.toNat) / fs.bootSector.sectorsPerCluster.toNat

/-- A FAT16 volume with sectors of 512 bytes, laid out as `fat16_init` finds: its FAT has
an entry for every cluster, and every file has a chain of clusters of the volume that is
long enough and shares none with another file. -/
structure ValidVolume (sectors : Word → Sector) (fs : Fat16) : Prop where
  mounted : ∃ old, fat16Init (readable sectors) old = (0, fs)
  sectorSize : fs.bootSector.bytesPerSector = 512#16
  sectorsPerCluster : fs.bootSector.sectorsPerCluster ∈
    [1#8, 2#8, 4#8, 8#8, 16#8, 32#8, 64#8, 128#8]
  reserved : fs.bootSector.reservedSectors ≠ 0#16
  fats : fs.bootSector.fatCount ≠ 0#8
  root : fs.bootSector.rootEntries ≠ 0#16
  clusters : 4085 ≤ clusterCount fs ∧ clusterCount fs < 65525
  fatSize : clusterCount fs + 2 ≤ 256 * fs.bootSector.sectorsPerFat.toNat
  chains : ∀ e ∈ directory sectors fs, e.Regular → ∃ cs, FileChain sectors fs e cs ∧ cs.Nodup ∧
    (∀ c ∈ cs, c < clusterCount fs + 2) ∧ e.fileSize.toNat ≤ cs.length * clusterSize fs
  apart : ((directory sectors fs).filter fun e => e.Regular).Pairwise fun d e => ∀ cs ds,
    FileChain sectors fs d cs → FileChain sectors fs e ds → cs.Disjoint ds

variable {e : Entry}

theorem ValidVolume.clusterSize_pos (valid : ValidVolume sectors fs) : 0 < clusterSize fs := by
  have power := valid.sectorsPerCluster
  have nonzero : fs.bootSector.sectorsPerCluster ≠ 0#8 := by
    intro zero
    rw [zero] at power
    exact absurd power (by decide)
  exact Nat.mul_pos (Nat.pos_of_ne_zero fun zero => nonzero (BitVec.eq_of_toNat_eq zero))
    (by decide)

/-- No entry in use that comes before this one in the directory has its name. A label or a
part of a long name may, in front of a file; two files may not. -/
def FirstNamed (es : List Entry) (e : Entry) : Prop :=
  ∃ before after, es = before ++ e :: after ∧ ∀ d ∈ before, d.Live → d.fatName ≠ e.fatName

/-- `fat16_read_file` finds the first entry in use that has its name. -/
theorem FirstNamed.lookup_eq (first : FirstNamed (directory sectors fs) e) (live : e.Live) :
    lookup (rootSlots sectors fs) e.fatName = some e := by
  rcases first with ⟨before, after, shape, earlier⟩
  rw [lookup, ← directory, List.find?_eq_some_iff_append]
  refine ⟨decide_eq_true ⟨live, rfl⟩, before, after, shape, fun d member => ?_⟩
  simp only [Bool.not_eq_eq_eq_not, Bool.not_true, decide_eq_false_iff_not, not_and]
  exact earlier d member

/-- The first `n` bytes of a buffer. -/
def stored (buffer : Word → Byte) (n : Nat) : List Byte :=
  (List.range n).map fun k => buffer (BitVec.ofNat 32 k)

/-- On a valid volume `fat16_read_file` returns as many bytes of a file as fit, taken from
the consecutive clusters that begin with the first cluster of the file. When the chain
of the file is consecutive as far as these bytes reach, they are its first bytes. -/
theorem read_consecutive (valid : ValidVolume sectors fs)
    (first : FirstNamed (directory sectors fs) e) (regular : e.Regular) (buffer : Word → Byte)
    {maxSize : Word} (small : maxSize.toNat < 2 ^ 31) :
    ∃ b, fat16ReadFile (readable sectors) fs e.fatName buffer maxSize =
        some ((readSize e maxSize : Int), b) ∧
      (∀ m, readSize e maxSize ≤ m * clusterSize fs → stored b (readSize e maxSize) =
        (contents sectors fs (List.range' e.firstCluster.toNat m)).take (readSize e maxSize)) ∧
      (∀ cs, FileChain sectors fs e cs →
        (∀ i, i * clusterSize fs < readSize e maxSize →
          cs[i]? = some (e.firstCluster.toNat + i)) →
        stored b (readSize e maxSize) = (contents sectors fs cs).take (readSize e maxSize)) ∧
      ∀ k, readSize e maxSize ≤ k.toNat → b k = buffer k := by
  have pos := valid.clusterSize_pos
  obtain ⟨b, call, bytes⟩ := fat16ReadFile_eq sectors fs e.fatName buffer small
  rw [first.lookup_eq regular.1] at call bytes
  have few : readSize e maxSize < 2 ^ 31 := Nat.lt_of_le_of_lt (Nat.min_le_right _ _) small
  have consecutive : ∀ cs : List Nat, (∀ i, i * clusterSize fs < readSize e maxSize →
      cs[i]? = some (e.firstCluster.toNat + i)) →
      stored b (readSize e maxSize) = (contents sectors fs cs).take (readSize e maxSize) := by
    intro cs follow
    rw [take_contents sectors fs pos follow, stored]
    refine List.map_congr_left fun k member => ?_
    have below := List.mem_range.mp member
    have index : (BitVec.ofNat 32 k).toNat = k := Nat.mod_eq_of_lt (by omega)
    rw [bytes, index, ← firstSector_eq]
    exact if_pos below
  refine ⟨b, call, fun m enough => consecutive _ fun i reached => ?_, fun cs _ => consecutive cs,
    fun k beyond => ?_⟩
  · have below : i < m := by
      rcases Nat.lt_or_ge i m with below | above
      · exact below
      · exact absurd (Nat.mul_le_mul_right (clusterSize fs) above) (by omega)
    rw [List.getElem?_range' below, Nat.one_mul]
  · rw [bytes]
    exact if_neg (Nat.not_lt.mpr beyond)

/-! ## A file in two pieces, and a label with the name of a file -/

/-- The first bytes of a sector, the others being zero. -/
def sectorOf (bytes : List Nat) : Sector := fun k => BitVec.ofNat 8 (bytes.getD k 0)

/-- The slot of a file of 513 bytes that begins in cluster 2. -/
def fragmentedSlot : List Nat :=
  [0x44, 0x45, 0x4D, 0x4F, 0x20, 0x20, 0x20, 0x20, 0x54, 0x58, 0x54, 0x20,
    0, 0, 0, 0, 0, 0, 0, 0, 0, 0, 0, 0, 0, 0, 2, 0, 0x01, 0x02, 0, 0]

/-- A volume of 4 MB with this root directory. The chain of cluster 2 is 2, 4. -/
def volumeOf (root : List Nat) (lba : Word) : Sector :=
  match lba.toNat with
  | 0 => sectorOf [0xEB, 0x3C, 0x90, 0x6D, 0x6B, 0x66, 0x73, 0x2E, 0x66, 0x61, 0x74, 0x00, 0x02, 1,
      1, 0, 2, 0x00, 0x02, 0x00, 0x20, 0xF8, 0x20, 0x00]
  | 1 => sectorOf [0xF8, 0xFF, 0xFF, 0xFF, 4, 0, 0, 0, 0xFF, 0xFF]
  | 33 => sectorOf [0xF8, 0xFF, 0xFF, 0xFF, 4, 0, 0, 0, 0xFF, 0xFF]
  | 65 => sectorOf root
  | 97 => sectorOf [0x41]
  | 99 => sectorOf [0x42]
  | _ => sectorOf []

/-- A volume with one file, in the clusters 2 and 4. -/
def fragmented : Word → Sector := volumeOf fragmentedSlot

/-- The slot of a volume label with the 11 bytes of `DEMO    TXT`. -/
def labelSlot : List Nat :=
  [0x44, 0x45, 0x4D, 0x4F, 0x20, 0x20, 0x20, 0x20, 0x54, 0x58, 0x54, 0x08,
    0, 0, 0, 0, 0, 0, 0, 0, 0, 0, 0, 0, 0, 0, 0, 0, 0, 0, 0, 0]

/-- The same volume with a label in front of the file. -/
def labelFirst : Word → Sector := volumeOf (labelSlot ++ fragmentedSlot)

def fragmentedFs : Fat16 := ⟨bootSector (fragmented 0#32), 1#32, 65#32, 97#32⟩

def fragmentedFile : Entry := entryAt (fragmented 65#32) 0

def fileBehindLabel : Entry := entryAt (labelFirst 65#32) 1

theorem directory_fragmented : directory fragmented fragmentedFs = [fragmentedFile] := by
  decide +kernel

theorem directory_labelled :
    directory labelFirst fragmentedFs = [entryAt (labelFirst 65#32) 0, fileBehindLabel] := by
  decide +kernel

/-- Both volumes are valid: the label is no file. -/
theorem validVolume_of_file {root : List Nat} (e : Entry)
    (mounted : fat16Init (readable (volumeOf root)) fragmentedFs = (0, fragmentedFs))
    (files : ((directory (volumeOf root) fragmentedFs).filter fun e => e.Regular) = [e])
    (chain : FileChain (volumeOf root) fragmentedFs e [2, 4]) (size : e.fileSize = 513#32) :
    ValidVolume (volumeOf root) fragmentedFs where
  mounted := ⟨fragmentedFs, mounted⟩
  sectorSize := by decide +kernel
  sectorsPerCluster := by decide +kernel
  reserved := by decide +kernel
  fats := by decide +kernel
  root := by decide +kernel
  clusters := by decide +kernel
  fatSize := by decide +kernel
  chains := by
    intro d member regular
    have file : d ∈ (directory (volumeOf root) fragmentedFs).filter fun e => e.Regular :=
      List.mem_filter.mpr ⟨member, by simpa using regular⟩
    rw [files] at file
    rw [List.mem_singleton.mp file, size]
    exact ⟨[2, 4], chain, by decide +kernel⟩
  apart := by
    rw [files]
    exact List.pairwise_singleton _ _

theorem validVolume_fragmented : ValidVolume fragmented fragmentedFs :=
  validVolume_of_file fragmentedFile rfl (by decide +kernel) (by decide +kernel)
    (by decide +kernel)

theorem validVolume_labelFirst : ValidVolume labelFirst fragmentedFs :=
  validVolume_of_file fileBehindLabel rfl (by decide +kernel) (by decide +kernel)
    (by decide +kernel)

theorem firstNamed_fragmented : FirstNamed (directory fragmented fragmentedFs) fragmentedFile := by
  refine ⟨[], [], directory_fragmented, fun d member => ?_⟩
  exact absurd member List.not_mem_nil

/-- The first cluster of the file is read as it should be. -/
theorem read_consecutive_demo :
    ∃ b, fat16ReadFile (readable fragmented) fragmentedFs fragmentedFile.fatName (fun _ => 0#8)
        512#32 = some (512, b) ∧
      stored b 512 = (contents fragmented fragmentedFs [2, 4]).take 512 := by
  obtain ⟨b, call, -, chain, -⟩ := read_consecutive validVolume_fragmented firstNamed_fragmented
    (by decide +kernel) (fun _ => 0#8) (by decide : (512#32).toNat < 2 ^ 31)
  have size : readSize fragmentedFile 512#32 = 512 := by decide +kernel
  have one : clusterSize fragmentedFs = 512 := by decide +kernel
  rw [size] at call chain
  refine ⟨b, call, chain [2, 4] (by decide +kernel) fun i reached => ?_⟩
  rw [one] at reached
  have first : i = 0 := by omega
  subst first
  decide +kernel

/-- The fragmented file is read whole, but its last byte comes from cluster 3 and not from
the second cluster of its chain. With a label in front of it that has its name nothing is
read: the empty label is found first. -/
theorem fragmented_read :
    (ValidVolume fragmented fragmentedFs ∧ fragmentedFile ∈ directory fragmented fragmentedFs ∧
      fragmentedFile.Regular ∧ FileChain fragmented fragmentedFs fragmentedFile [2, 4] ∧
      ∃ b, fat16ReadFile (readable fragmented) fragmentedFs fragmentedFile.fatName (fun _ => 0#8)
          1024#32 = some (513, b) ∧
        stored b 513 ≠ (contents fragmented fragmentedFs [2, 4]).take 513) ∧
    ValidVolume labelFirst fragmentedFs ∧ fileBehindLabel ∈ directory labelFirst fragmentedFs ∧
      fileBehindLabel.Regular ∧ readSize fileBehindLabel 1024#32 = 513 ∧
      ∃ b, fat16ReadFile (readable labelFirst) fragmentedFs fileBehindLabel.fatName (fun _ => 0#8)
          1024#32 = some (0, b) := by
  have small : (1024#32).toNat < 2 ^ 31 := by decide
  have size : readSize fragmentedFile 1024#32 = 513 := by decide +kernel
  refine ⟨?_, validVolume_labelFirst, ?_, by decide +kernel, by decide +kernel, ?_⟩
  · have member : fragmentedFile ∈ directory fragmented fragmentedFs := by
      rw [directory_fragmented]
      exact List.mem_singleton_self _
    obtain ⟨b, call, bytes⟩ := fat16ReadFile_eq fragmented fragmentedFs fragmentedFile.fatName
      (fun _ => 0#8) small
    have regular : fragmentedFile.Regular := by decide +kernel
    rw [firstNamed_fragmented.lookup_eq regular.1] at call bytes
    have returned : fat16ReadFile (readable fragmented) fragmentedFs fragmentedFile.fatName
        (fun _ => 0#8) 1024#32 = some (513, b) := by
      rw [call, Option.elim_some, size]
      rfl
    refine ⟨validVolume_fragmented, member, regular, by decide +kernel, b, returned,
      fun same => ?_⟩
    have last := congrArg (fun l => l[512]?) same
    have readByte : b 512#32 = 0#8 := by
      rw [bytes]
      decide +kernel
    have chainByte : ((contents fragmented fragmentedFs [2, 4]).take 513)[512]? = some 0x42#8 := by
      decide +kernel
    rw [stored, chainByte, List.getElem?_map, List.getElem?_range (by decide), Option.map_some,
      readByte] at last
    exact absurd last (by decide)
  · rw [directory_labelled]
    exact List.mem_cons_of_mem _ (List.mem_singleton_self _)
  · obtain ⟨b, call, -⟩ := fat16ReadFile_eq labelFirst fragmentedFs fileBehindLabel.fatName
      (fun _ => 0#8) small
    have found : (lookup (rootSlots labelFirst fragmentedFs) fileBehindLabel.fatName).elim (-1)
        (fun e => (readSize e 1024#32 : Int)) = 0 := by
      decide +kernel
    exact ⟨b, found ▸ call⟩

end Learnix
