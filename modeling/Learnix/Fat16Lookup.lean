import Learnix.Fat16Read

/-!
# The slot that `fat16_read_file` takes

The root directory seen as numbered slots: `FirstMatch` says which of them a
name stands for, without a word about the loops. On any disk the two loops over
the directory come to that slot, or to none when there is no such slot
(`scanRoot_cases`), and on a disk that can be read `fat16_read_file` returns
what the sectors after its first cluster hold (`fat16ReadFile_slots`).
-/

namespace Learnix

open Machine

variable {disk : Disk} {sectors : Word → Sector} {fs : Fat16} {name : Fin 11 → Byte}
  {slot : Nat → Option Entry} {e : Entry} {i j n count : Nat} {start : Word}

/-! ## Slots -/

/-- Slot `i` of the directory that starts with this sector, if its sector can be read. -/
def slotAt (disk : Disk) (start : Word) (i : Nat) : Option Entry :=
  (disk (start + BitVec.ofNat 32 (i / 16))).map fun sectorBuf => entryAt sectorBuf (i % 16)

/-- The number of slots of the root directory. -/
def slotCount (fs : Fat16) : Nat := (fs.bootSector.rootEntries.toNat * 32 + 511) / 512 * 16

/-- Slot `i` is in use and has the name, and no slot up to it ends the directory or
cannot be read. -/
structure SlotMatches (slot : Nat → Option Entry) (count : Nat) (name : Fin 11 → Byte) (i : Nat)
    (e : Entry) : Prop where
  below : i < count
  here : slot i = some e
  reached : ∀ j ≤ i, ∃ d, slot j = some d ∧ d.first ≠ 0x00#8
  live : e.first ≠ 0xE5#8
  named : e.fatName = name

/-- The first slot that matches. -/
def FirstMatch (slot : Nat → Option Entry) (count : Nat) (name : Fin 11 → Byte) (i : Nat)
    (e : Entry) : Prop :=
  SlotMatches slot count name i e ∧ ∀ j < i, ∀ d, ¬ SlotMatches slot count name j d

/-- The slots that come after the first `n`. -/
def slotsAfter (slot : Nat → Option Entry) (n i : Nat) : Option Entry := slot (n + i)

theorem slotAt_next (disk : Disk) (start : Word) :
    slotsAfter (slotAt disk start) 16 = slotAt disk (start + 1#32) := by
  funext i
  have place : (16 + i) / 16 = 1 + i / 16 := by omega
  have offset : (16 + i) % 16 = i % 16 := by omega
  rw [slotsAfter, slotAt, slotAt, place, offset, BitVec.ofNat_add, BitVec.add_assoc]

theorem slotAt_first {sectorBuf : Sector} (read : disk start = some sectorBuf) (small : i < 16) :
    slotAt disk start i = some (entryAt sectorBuf i) := by
  rw [slotAt, Nat.div_eq_of_lt small, Nat.mod_eq_of_lt small, BitVec.add_zero, read,
    Option.map_some]

/-- The slot at the start of the directory matches when it is in use and has the name. -/
theorem firstMatch_zero {sectorBuf : Sector} (some_ : 0 < count)
    (read : disk start = some sectorBuf)
    (inUse : (entryAt sectorBuf 0).first ≠ 0x00#8 ∧ (entryAt sectorBuf 0).first ≠ 0xE5#8)
    (named : (entryAt sectorBuf 0).fatName = name) :
    FirstMatch (slotAt disk start) count name 0 (entryAt sectorBuf 0) := by
  have here := slotAt_first read (Nat.zero_lt_succ 15)
  refine ⟨⟨some_, here, fun j le => ?_, inUse.2, named⟩,
    fun j below => absurd below (Nat.not_lt_zero j)⟩
  obtain rfl : j = 0 := Nat.le_zero.mp le
  exact ⟨_, here, inUse.1⟩

/-- A slot matches after `n` slots that do not end the directory exactly if it matches
among the slots after them. -/
theorem slotMatches_after (passed : ∀ j < n, ∃ d, slot j = some d ∧ d.first ≠ 0x00#8) :
    SlotMatches slot (n + count) name (n + i) e ↔
      SlotMatches (slotsAfter slot n) count name i e := by
  constructor
  · rintro ⟨below, here, reached, live, named⟩
    exact ⟨by omega, here, fun j le => reached (n + j) (by omega), live, named⟩
  · rintro ⟨below, here, reached, live, named⟩
    refine ⟨by omega, here, fun j le => ?_, live, named⟩
    rcases Nat.lt_or_ge j n with before | after
    · exact passed j before
    · obtain ⟨k, rfl⟩ := Nat.exists_eq_add_of_le after
      exact reached k (by omega)

/-! ## The loops over the directory -/

/-- What the loops come to: no slot, or the first that matches. -/
def Located (slot : Nat → Option Entry) (count : Nat) (name : Fin 11 → Byte)
    (result : Option Entry) : Prop :=
  (result = none ∧ ∀ i e, ¬ SlotMatches slot count name i e) ∨
    ∃ i e, result = some e ∧ FirstMatch slot count name i e

/-- The search goes on after slots none of which matches or ends the directory. -/
theorem Located.after {result : Option Entry}
    (located : Located (slotsAfter slot n) count name result)
    (passed : ∀ j < n, ∃ d, slot j = some d ∧ d.first ≠ 0x00#8)
    (other : ∀ j < n, ∀ d, ¬ SlotMatches slot (n + count) name j d) :
    Located slot (n + count) name result := by
  have none : (∀ i e, ¬ SlotMatches (slotsAfter slot n) count name i e) → ∀ i e, n ≤ i →
      ¬ SlotMatches slot (n + count) name i e := by
    intro absent i e le matches_
    obtain ⟨k, rfl⟩ := Nat.exists_eq_add_of_le le
    exact absent k e ((slotMatches_after passed).mp matches_)
  rcases located with ⟨eq, absent⟩ | ⟨i, e, eq, matches_, first⟩
  · refine .inl ⟨eq, fun i e => ?_⟩
    rcases Nat.lt_or_ge i n with before | after
    · exact other i before e
    · exact none absent i e after
  · refine .inr ⟨n + i, e, eq, (slotMatches_after passed).mpr matches_, fun j below d hit => ?_⟩
    rcases Nat.lt_or_ge j n with before | after
    · exact other j before d hit
    · obtain ⟨k, rfl⟩ := Nat.exists_eq_add_of_le after
      exact first k (by omega) d ((slotMatches_after passed).mp hit)

/-- A slot that is passed over. -/
theorem Located.skip {result : Option Entry} (here : slot 0 = some e) (inUse : e.first ≠ 0x00#8)
    (other : e.first = 0xE5#8 ∨ e.fatName ≠ name)
    (located : Located (slotsAfter slot 1) count name result) :
    Located slot (1 + count) name result := by
  refine located.after ?_ ?_
  · intro j below
    obtain rfl : j = 0 := by omega
    exact ⟨e, here, inUse⟩
  · intro j below d hit
    obtain rfl : j = 0 := by omega
    have same : d = e := Option.some_inj.mp (hit.here.symm.trans here)
    subst same
    rcases other with deleted | different
    · exact hit.live deleted
    · exact different hit.named

/-- The inner loop over the slots of `es`, where `result` is what the search in the slots
after them comes to. -/
theorem scanEntries_located {result : Option Entry} (es : List Entry)
    (here : ∀ i (below : i < es.length), slot i = some es[i])
    (rest : Located (slotsAfter slot es.length) count name result) :
    Located slot (es.length + count) name (match scanEntries name es with
      | .absent => none
      | .found e => some e
      | .more => result) := by
  induction es generalizing slot with
  | nil =>
      exact rest.after (fun j below => absurd below (Nat.not_lt_zero j))
        (fun j below => absurd below (Nat.not_lt_zero j))
  | cons e es ih =>
      have first : slot 0 = some e := here 0 (Nat.zero_lt_succ _)
      have count_ : (e :: es).length + count = 1 + (es.length + count) := by
        rw [List.length_cons]
        omega
      have later : ∀ i (below : i < es.length), slotsAfter slot 1 i = some es[i] := by
        intro i below
        have next := here (i + 1) (Nat.succ_lt_succ below)
        rw [slotsAfter, Nat.add_comm, next, List.getElem_cons_succ]
      have after : slotsAfter (slotsAfter slot 1) es.length = slotsAfter slot (e :: es).length := by
        funext i
        rw [slotsAfter, slotsAfter, slotsAfter, List.length_cons]
        exact congrArg slot (by omega)
      rw [scanEntries, count_]
      by_cases end_ : e.first = 0x00#8
      · rw [if_pos end_]
        refine .inl ⟨rfl, fun i d hit => ?_⟩
        obtain ⟨d, at_, inUse⟩ := hit.reached 0 (Nat.zero_le i)
        rw [first] at at_
        cases at_
        exact inUse end_
      · rw [if_neg end_]
        by_cases deleted : e.first = 0xE5#8
        · rw [if_pos deleted]
          exact (ih later (after ▸ rest)).skip first end_ (.inl deleted)
        · rw [if_neg deleted]
          by_cases named : e.fatName = name
          · rw [if_pos named]
            refine .inr ⟨0, e, rfl, ⟨by omega, first, fun j le => ?_, deleted, named⟩,
              fun j below => absurd below (Nat.not_lt_zero j)⟩
            obtain rfl : j = 0 := by omega
            exact ⟨e, first, end_⟩
          · rw [if_neg named]
            exact (ih later (after ▸ rest)).skip first end_ (.inr named)

/-- The two loops over `n` sectors of a directory, on any disk: a sector that cannot be
read ends the search. -/
theorem scanRoot_located (disk : Disk) (name : Fin 11 → Byte) (n : Nat) (start : Word) :
    Located (slotAt disk start) (n * 16) name (scanRoot disk name n start) := by
  induction n generalizing start with
  | zero => exact .inl ⟨rfl, fun i e hit => absurd hit.below (by omega)⟩
  | succ n ih =>
      rw [scanRoot]
      cases read : disk start with
      | none =>
          refine .inl ⟨rfl, fun i e hit => ?_⟩
          obtain ⟨d, at_, -⟩ := hit.reached 0 (Nat.zero_le i)
          rw [slotAt, BitVec.add_zero, read] at at_
          cases at_
      | some sectorBuf =>
          have length : (entries sectorBuf).length = 16 := by
            rw [entries, List.length_map, List.length_range]
          have here : ∀ i (below : i < (entries sectorBuf).length),
              slotAt disk start i = some (entries sectorBuf)[i] := by
            intro i below
            rw [slotAt_first read (length ▸ below)]
            simp [entries]
          have rest := ih (start + 1#32)
          rw [← slotAt_next, ← length] at rest
          have total : (n + 1) * 16 = (entries sectorBuf).length + n * 16 := by omega
          rw [total]
          exact scanEntries_located (entries sectorBuf) here (length ▸ rest)

/-- There is one first match. -/
theorem FirstMatch.unique {d : Entry} (first : FirstMatch slot count name i e)
    (second : FirstMatch slot count name j d) : i = j ∧ e = d := by
  have same : i = j := by
    rcases Nat.lt_trichotomy i j with less | same | more
    · exact absurd first.1 (second.2 i less e)
    · exact same
    · exact absurd second.1 (first.2 j more d)
  subst same
  exact ⟨rfl, Option.some_inj.mp (first.1.here.symm.trans second.1.here)⟩

/-- The search of `fat16_read_file`. -/
theorem scanRoot_root (disk : Disk) (fs : Fat16) (name : Fin 11 → Byte) :
    Located (slotAt disk fs.rootStart) (slotCount fs) name
      (scanRoot disk name (rootSectors fs.bootSector).toNat fs.rootStart) := by
  have few : (rootSectors fs.bootSector).toNat =
      (fs.bootSector.rootEntries.toNat * 32 + 511) / 512 := by
    have bound := fs.bootSector.rootEntries.isLt
    simp only [rootSectors, BitVec.toNat_udiv, BitVec.toNat_add, BitVec.toNat_mul,
      BitVec.toNat_setWidth, BitVec.toNat_ofNat, Nat.reducePow, Nat.reduceMod]
    omega
  rw [slotCount, ← few]
  exact scanRoot_located disk name _ fs.rootStart

/-! ## What is read -/

/-- `fat16_read_file` on any disk: no slot matches the name and it returns -1, or it stores
the sectors of the first slot that matches up to one that cannot be read, or as many bytes
as fit, and returns how many bytes these are. -/
theorem fat16ReadFile_any (disk : Disk) (fs : Fat16) (name : Fin 11 → Byte) {maxSize : Word}
    (small : maxSize.toNat < 2 ^ 31) :
    ((∀ i e, ¬ SlotMatches (slotAt disk fs.rootStart) (slotCount fs) name i e) ∧
      ∀ buffer, fat16ReadFile disk fs name buffer maxSize = some (-1, buffer)) ∨
    ∃ i e j, FirstMatch (slotAt disk fs.rootStart) (slotCount fs) name i e ∧
      (∀ k < j, disk (firstSector fs e.firstCluster + BitVec.ofNat 32 k) ≠ none) ∧
      (512 * j < readSize e maxSize →
        disk (firstSector fs e.firstCluster + BitVec.ofNat 32 j) = none) ∧
      ∀ buffer, ∃ b, fat16ReadFile disk fs name buffer maxSize =
          some (((min (512 * j) (readSize e maxSize) : Nat) : Int), b) ∧
        ∀ k, b k = if k.toNat < min (512 * j) (readSize e maxSize) then
            byteFrom (fun lba => (disk lba).getD default) (firstSector fs e.firstCluster) k.toNat
          else buffer k := by
  unfold fat16ReadFile
  rcases scanRoot_root disk fs name with ⟨none, absent⟩ | ⟨i, e, found, first⟩
  · rw [none]
    exact .inl ⟨absent, fun _ => rfl⟩
  · rw [found]
    let size := if e.fileSize > maxSize then maxSize else e.fileSize
    have bound : size.toNat = readSize e maxSize := toNat_size e maxSize
    have few : readSize e maxSize ≤ maxSize.toNat := Nat.min_le_right _ _
    rcases exists_copied disk (firstSector fs e.firstCluster) size (by omega) pointerSpace 0
      (by rw [pointerSpace]; omega) with ⟨j, sound, stop, all⟩
    rw [bound] at stop
    refine .inr ⟨i, e, j, first, fun k below => sound k (Nat.zero_le k) below, stop, ?_⟩
    intro buffer
    obtain ⟨c, loop, copied⟩ := all buffer _ (copied_zero _ size buffer)
    have count := copied.bytesRead
    rw [bound] at count
    have returned : c.bytesRead.toInt = (min (512 * j) (readSize e maxSize) : Nat) := by
      rw [BitVec.toInt_eq_toNat_of_lt (by omega), count]
    refine ⟨c.buffer, ?_, bound ▸ copied.stored⟩
    change (copyLoop disk size pointerSpace _).map _ = _
    rw [loop, Option.map_some, returned]

/-- After `fat16_init`, on a disk that can be read, `fat16_read_file` returns -1 exactly
when no slot of the root directory matches the name. Otherwise it returns as many bytes of
the first slot that matches as fit, from the consecutive sectors that begin with its first
cluster, and stores nothing else. -/
theorem fat16ReadFile_slots (sectors : Word → Sector) (old : Fat16) (name : Fin 11 → Byte)
    (buffer : Word → Byte) {maxSize : Word} (small : maxSize.toNat < 2 ^ 31) :
    ∃ fs r b, fat16Init (readable sectors) old = (0, fs) ∧
      fat16ReadFile (readable sectors) fs name buffer maxSize = some (r, b) ∧
      (r = -1 ↔ ∀ i e, ¬ SlotMatches (slotAt (readable sectors) fs.rootStart) (slotCount fs) name
        i e) ∧
      (r = -1 → b = buffer) ∧
      (r ≠ -1 → ∃ i e,
        FirstMatch (slotAt (readable sectors) fs.rootStart) (slotCount fs) name i e ∧
        r = (min e.fileSize.toNat maxSize.toNat : Nat) ∧
        ∀ k, b k = if k.toNat < min e.fileSize.toNat maxSize.toNat then
            (sectors (fs.dataStart + (e.firstCluster.setWidth 32 - 2#32) *
              fs.bootSector.sectorsPerCluster.setWidth 32 + BitVec.ofNat 32 (k.toNat / 512))).byte
              (k.toNat % 512)
          else buffer k) := by
  refine ⟨(fat16Init (readable sectors) old).2, ?_⟩
  have mounted : fat16Init (readable sectors) old = (0, (fat16Init (readable sectors) old).2) := rfl
  generalize (fat16Init (readable sectors) old).2 = fs at mounted ⊢
  obtain ⟨b, call, bytes⟩ := fat16ReadFile_eq sectors fs name buffer small
  have located := scanRoot_root (readable sectors) fs name
  rw [scanRoot_eq_lookup, ← rootSlots] at located
  rcases located with ⟨none, absent⟩ | ⟨i, e, found, first⟩
  · rw [none] at call bytes
    exact ⟨-1, b, mounted, call, iff_of_true rfl absent, fun _ => funext bytes,
      fun some_ => absurd rfl some_⟩
  · rw [found] at call bytes
    have count : ((readSize e maxSize : Nat) : Int) ≠ -1 := by omega
    refine ⟨readSize e maxSize, b, mounted, call, iff_of_false count ?_,
      fun failed => absurd failed count, fun _ => ⟨i, e, first, rfl, bytes⟩⟩
    exact fun absent => absent i e first.1

/-- The first sector of the file that lies in two pieces, read through its name. -/
theorem fat16ReadFile_slots_demo :
    ∃ fs b, fat16Init (readable fragmented) fragmentedFs = (0, fs) ∧
      fat16ReadFile (readable fragmented) fs fragmentedFile.fatName (fun _ => 0#8) 512#32 =
        some (512, b) ∧ b 0#32 = 0x41#8 ∧ b 512#32 = 0#8 := by
  rcases fat16ReadFile_slots fragmented fragmentedFs fragmentedFile.fatName (fun _ => 0#8)
    (by decide : (512#32).toNat < 2 ^ 31) with ⟨fs, r, b, mounted, call, absent, -, found⟩
  obtain rfl : fragmentedFs = fs := congrArg Prod.snd mounted
  have first : FirstMatch (slotAt (readable fragmented) fragmentedFs.rootStart)
      (slotCount fragmentedFs) fragmentedFile.fatName 0 fragmentedFile :=
    firstMatch_zero (by decide +kernel) rfl (by decide +kernel) (by decide +kernel)
  have some_ : r ≠ -1 := fun failed => absent.mp failed 0 fragmentedFile first.1
  obtain ⟨i, e, match_, count, bytes⟩ := found some_
  obtain ⟨-, rfl⟩ := match_.unique first
  have size : min fragmentedFile.fileSize.toNat (512#32).toNat = 512 := by decide +kernel
  rw [size] at count bytes
  refine ⟨fragmentedFs, b, mounted, call.trans (by rw [count]; rfl), ?_, ?_⟩
  · rw [bytes]
    decide +kernel
  · rw [bytes]
    decide

end Learnix
