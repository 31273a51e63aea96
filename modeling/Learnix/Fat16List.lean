import Learnix.Fat16Read

/-!
# The listing of the root directory

`fat16_list_root` walks the root directory as `fat16_read_file` does, and skips volume
labels and directories, which the other does not. On a disk that can be read the two agree
on a name exactly if the first entry in use with this name is one that is listed
(`reads_as_listed_iff`).
-/

namespace Learnix

open Machine

/-- `FAT16_ATTR_VOLUME`. -/
def attrVolume : Byte := 0x08#8

/-- `FAT16_ATTR_DIRECTORY`. -/
def attrDirectory : Byte := 0x10#8

/-- The loop over the entries of a sector: the entries it shows, and whether it came to the
one that ends the directory. -/
def listEntries : List Entry → List Entry × Bool
  | [] => ([], false)
  | e :: es =>
    if e.first = 0x00#8 then ([], true)
    else if e.first = 0xE5#8 then listEntries es
    else if e.attributes &&& attrVolume ≠ 0#8 then listEntries es
    else if e.attributes &&& attrDirectory ≠ 0#8 then listEntries es
    else (e :: (listEntries es).1, (listEntries es).2)

/-- The outer loop, with `n` sectors of the root directory to go. -/
def listSectors (disk : Disk) : Nat → Word → List Entry
  | 0, _ => []
  | n + 1, sector =>
    match disk sector with
    | none => []
    | some buffer =>
      match listEntries (entries buffer) with
      | (shown, true) => shown
      | (shown, false) => shown ++ listSectors disk n (sector + 1#32)

/-- The entries that `fat16_list_root` shows, in order; it also prints how many they are. -/
def fat16ListRoot (disk : Disk) (fs : Fat16) : List Entry :=
  listSectors disk (rootSectors fs.bootSector).toNat fs.rootStart

/-- The entry that `fat16_read_file` opens. -/
def openedEntry (disk : Disk) (fs : Fat16) (name : Fin 11 → Byte) : Option Entry :=
  scanRoot disk name (rootSectors fs.bootSector).toNat fs.rootStart

variable {sectors : Word → Sector} {fs : Fat16} {name : Fin 11 → Byte} {maxSize : Word}
  {buffer : Word → Byte} {e : Entry}

/-! ## The listed entries -/

theorem regular_iff (e : Entry) : e.Regular ↔
    e.Live ∧ e.attributes &&& attrVolume = 0#8 ∧ e.attributes &&& attrDirectory = 0#8 := by
  have bits : ∀ a : Byte,
      a &&& 0x18#8 = 0#8 ↔ a &&& attrVolume = 0#8 ∧ a &&& attrDirectory = 0#8 := by
    unfold attrVolume attrDirectory
    decide
  exact and_congr_right fun _ => bits e.attributes

/-- The files among these entries, up to the one that ends the directory. -/
def filesOf (slots : List Entry) : List Entry :=
  (slots.takeWhile fun e => e.first ≠ 0x00#8).filter fun e => e.Regular

theorem filesOf_append (es rest : List Entry) :
    filesOf (es ++ rest) = match listEntries es with
      | (shown, true) => shown
      | (shown, false) => shown ++ filesOf rest := by
  induction es with
  | nil => rfl
  | cons e es ih =>
      rw [listEntries]
      by_cases end_ : e.first = 0x00#8
      · simp [filesOf, end_]
      · rw [if_neg end_]
        have skip (other : ¬ e.Regular) : filesOf (e :: es ++ rest) = filesOf (es ++ rest) := by
          simp [filesOf, end_, other]
        by_cases deleted : e.first = 0xE5#8
        · rw [if_pos deleted, skip fun regular => regular.1 deleted, ih]
        · rw [if_neg deleted]
          by_cases label : e.attributes &&& attrVolume ≠ 0#8
          · rw [if_pos label, skip fun regular => label ((regular_iff e).mp regular).2.1, ih]
          · rw [if_neg label]
            by_cases folder : e.attributes &&& attrDirectory ≠ 0#8
            · rw [if_pos folder, skip fun regular => folder ((regular_iff e).mp regular).2.2, ih]
            · have regular : e.Regular :=
                (regular_iff e).mpr ⟨deleted, not_not.mp label, not_not.mp folder⟩
              have shown : filesOf (e :: es ++ rest) = e :: filesOf (es ++ rest) := by
                simp [filesOf, end_, regular]
              rw [if_neg folder, shown, ih]
              rcases listEntries es with ⟨es', _ | _⟩ <;> rfl

/-- The sectors of a directory are listed one after the other, up to the end mark. -/
theorem listSectors_eq (sectors : Word → Sector) (n : Nat) (start : Word) :
    listSectors (readable sectors) n start = filesOf (slotsFrom sectors start n) := by
  induction n generalizing start with
  | zero => rfl
  | succ n ih =>
      rw [slotsFrom_succ, filesOf_append, listSectors, readable]
      simp only
      split
      · rfl
      · next shown _ => exact congrArg (shown ++ ·) (ih (start + 1#32))

/-- The listing shows the files of the directory. -/
theorem fat16ListRoot_eq (sectors : Word → Sector) (fs : Fat16) :
    fat16ListRoot (readable sectors) fs =
      (directory sectors fs).filter (fun e => e.Regular) :=
  listSectors_eq sectors _ fs.rootStart

theorem mem_fat16ListRoot :
    e ∈ fat16ListRoot (readable sectors) fs ↔ e ∈ directory sectors fs ∧ e.Regular := by
  rw [fat16ListRoot_eq, List.mem_filter, decide_eq_true_iff]

theorem openedEntry_eq (sectors : Word → Sector) (fs : Fat16) (name : Fin 11 → Byte) :
    openedEntry (readable sectors) fs name =
      (directory sectors fs).find? fun e => e.first ≠ 0xE5#8 ∧ e.fatName = name :=
  scanRoot_eq_lookup sectors name _ fs.rootStart

/-- The first listed entry with the name. -/
def listedEntry (disk : Disk) (fs : Fat16) (name : Fin 11 → Byte) : Option Entry :=
  (fat16ListRoot disk fs).find? fun e => e.fatName = name

theorem listedEntry_eq (sectors : Word → Sector) (fs : Fat16) (name : Fin 11 → Byte) :
    listedEntry (readable sectors) fs name =
      (directory sectors fs).find? fun e => e.Regular ∧ e.fatName = name := by
  rw [listedEntry, fat16ListRoot_eq, List.find?_filter]
  simp only [decide_eq_true_eq]

theorem mem_of_listedEntry (listed : listedEntry (readable sectors) fs name = some e) :
    e ∈ fat16ListRoot (readable sectors) fs ∧ e.fatName = name := by
  have match_ := List.find?_some listed
  exact ⟨List.mem_of_find?_eq_some listed, of_decide_eq_true match_⟩

/-- If an entry with the name is listed, one is opened. -/
theorem openedEntry_of_listed {d : Entry} (listed : d ∈ fat16ListRoot (readable sectors) fs)
    (named : d.fatName = name) : ∃ e, openedEntry (readable sectors) fs name = some e := by
  rcases mem_fat16ListRoot.mp listed with ⟨member, regular⟩
  rw [← Option.isSome_iff_exists, openedEntry_eq, List.find?_isSome]
  exact ⟨d, member, decide_eq_true ⟨regular.1, named⟩⟩

/-- The entry that is opened is the first listed one with the name exactly if it is a file. -/
theorem listedEntry_eq_some_iff (opened : openedEntry (readable sectors) fs name = some e) :
    listedEntry (readable sectors) fs name = some e ↔ e.Regular := by
  rw [listedEntry_eq]
  rw [openedEntry_eq, List.find?_eq_some_iff_append] at opened
  rcases opened with ⟨match_, before, after, shape, earlier⟩
  have named := of_decide_eq_true match_
  constructor
  · intro found
    have match_ := List.find?_some found
    exact (of_decide_eq_true match_).1
  · intro regular
    rw [List.find?_eq_some_iff_append]
    refine ⟨decide_eq_true ⟨regular, named.2⟩, before, after, shape, fun d member => ?_⟩
    have other := earlier d member
    simp only [Bool.not_eq_true', decide_eq_false_iff_not] at other ⊢
    exact fun both => other ⟨both.1.1, both.2⟩

/-! ## What a read comes to -/

/-- On a disk that can be read the copy loop ends only with all bytes. -/
theorem copyLoop_all {size : Word} {fuel : Nat} {c c' : Copy}
    (loop : copyLoop (readable sectors) size fuel c = some c') : ¬ c'.bytesRead < size := by
  induction fuel generalizing c with
  | zero => cases loop
  | succ fuel ih =>
      unfold copyLoop at loop
      split at loop
      · exact ih loop
      · next done =>
        cases loop
        exact done

/-- The call returns a number of bytes exactly if an entry is opened, and there are not so
many that they make a negative `int`. -/
theorem fat16ReadFile_nonneg_iff (sectors : Word → Sector) (fs : Fat16) (name : Fin 11 → Byte)
    (buffer : Word → Byte) (maxSize : Word) :
    (∃ n b, fat16ReadFile (readable sectors) fs name buffer maxSize = some (n, b) ∧ 0 ≤ n) ↔
      ∃ e, openedEntry (readable sectors) fs name = some e ∧ readSize e maxSize < 2 ^ 31 := by
  unfold fat16ReadFile openedEntry
  cases scanRoot (readable sectors) name (rootSectors fs.bootSector).toNat fs.rootStart with
  | none =>
      refine iff_of_false ?_ fun ⟨e, none_, _⟩ => Option.some_ne_none e none_.symm
      rintro ⟨n, b, call, nonneg⟩
      cases call
      exact absurd nonneg (by decide)
  | some e =>
      let size := if e.fileSize > maxSize then maxSize else e.fileSize
      have bound : size.toNat = readSize e maxSize := toNat_size e maxSize
      constructor
      · rintro ⟨n, b, call, nonneg⟩
        refine ⟨e, rfl, ?_⟩
        rcases Option.map_eq_some_iff.mp call with ⟨c, loop, result⟩
        cases result
        have all : size.toNat ≤ c.bytesRead.toNat := BitVec.not_lt.mp (copyLoop_all loop)
        have small := BitVec.toInt_pos_iff.mp nonneg
        omega
      · rintro ⟨d, same, small⟩
        cases same
        have few : size.toNat < 2 ^ 31 := bound ▸ small
        rcases copyLoop_eq sectors (firstSector fs e.firstCluster)
          (by omega : size.toNat ≤ 2 ^ 32 - 512) buffer with ⟨c, loop, count, -⟩
        refine ⟨c.bytesRead.toInt, c.buffer, ?_, ?_⟩
        · change (copyLoop (readable sectors) size pointerSpace _).map _ = _
          rw [loop, Option.map_some]
        · rw [count, BitVec.toInt_eq_toNat_of_lt (by omega)]
          exact Int.natCast_nonneg _

/-! ## Listing and reading -/

/-- `fat16_read_file` finds the names that are listed, and opens for each the first entry
that is listed with it. -/
structure ReadsAsListed (sectors : Word → Sector) (fs : Fat16) (name : Fin 11 → Byte)
    (maxSize : Word) : Prop where
  found : ∀ buffer,
    (∃ n b, fat16ReadFile (readable sectors) fs name buffer maxSize = some (n, b) ∧ 0 ≤ n) ↔
      ∃ e ∈ fat16ListRoot (readable sectors) fs, e.fatName = name
  first : ∀ buffer n b e, fat16ReadFile (readable sectors) fs name buffer maxSize = some (n, b) →
    0 ≤ n → openedEntry (readable sectors) fs name = some e →
      listedEntry (readable sectors) fs name = some e

/-- The first entry in use with the name is a file. (With so many bytes that they make a
negative `int`, nothing is listed with the name.) -/
def OpensFile (sectors : Word → Sector) (fs : Fat16) (name : Fin 11 → Byte) (maxSize : Word) :
    Prop :=
  ∀ e, lookup (rootSlots sectors fs) name = some e →
    if readSize e maxSize < 2 ^ 31 then e.Regular
    else ∀ d ∈ directory sectors fs, d.Regular → d.fatName ≠ name

/-- On every disk that can be read, `fat16_read_file` finds what `fat16_list_root` lists
exactly if the first entry in use with the name, if there is one, is neither the label of
the volume nor a directory. -/
theorem reads_as_listed_iff (sectors : Word → Sector) (fs : Fat16) (name : Fin 11 → Byte)
    (maxSize : Word) :
    ReadsAsListed sectors fs name maxSize ↔ OpensFile sectors fs name maxSize := by
  have opened : openedEntry (readable sectors) fs name = lookup (rootSlots sectors fs) name :=
    scanRoot_eq_lookup sectors name _ fs.rootStart
  constructor
  · intro agrees e found
    rw [← opened] at found
    have returns := fat16ReadFile_nonneg_iff sectors fs name (fun _ => 0#8) maxSize
    split
    · next small =>
      rcases returns.mpr ⟨e, found, small⟩ with ⟨n, b, call, nonneg⟩
      exact (listedEntry_eq_some_iff found).mp (agrees.first _ n b e call nonneg found)
    · next large =>
      intro d member regular named
      have listed := mem_fat16ListRoot.mpr ⟨member, regular⟩
      rcases returns.mp ((agrees.found _).mpr ⟨d, listed, named⟩) with ⟨e', found', small⟩
      rw [found] at found'
      cases found'
      exact large small
  · intro opens
    refine ⟨fun buffer => ?_, fun buffer n b e call nonneg found => ?_⟩
    · rw [fat16ReadFile_nonneg_iff]
      constructor
      · rintro ⟨e, found, small⟩
        have regular := opens e (opened ▸ found)
        rw [if_pos small] at regular
        exact ⟨e, mem_of_listedEntry ((listedEntry_eq_some_iff found).mpr regular)⟩
      · rintro ⟨d, listed, named⟩
        rcases openedEntry_of_listed listed named with ⟨e, found⟩
        refine ⟨e, found, ?_⟩
        by_contra large
        have none_ := opens e (opened ▸ found)
        rw [if_neg large] at none_
        rcases mem_fat16ListRoot.mp listed with ⟨member, regular⟩
        exact none_ d member regular named
    · rcases (fat16ReadFile_nonneg_iff sectors fs name buffer maxSize).mp ⟨n, b, call, nonneg⟩ with
        ⟨e', found', small⟩
      rw [found] at found'
      cases found'
      have regular := opens e (opened ▸ found)
      rw [if_pos small] at regular
      exact (listedEntry_eq_some_iff found).mpr regular

/-- A root directory with the label `LEARNIX` only. -/
def labelled (lba : Word) : Sector :=
  if lba = 65#32 then
    sectorOf [0x4C, 0x45, 0x41, 0x52, 0x4E, 0x49, 0x58, 0x20, 0x20, 0x20, 0x20, 0x08]
  else fragmented lba

/-- The label is not listed, and opened as an empty file. -/
theorem label_opened :
    fat16ListRoot (readable labelled) fragmentedFs = [] ∧
      (∃ b, fat16ReadFile (readable labelled) fragmentedFs (entryAt (labelled 65#32) 0).fatName
        (fun _ => 0#8) 512#32 = some (0, b)) ∧
      ¬ ReadsAsListed labelled fragmentedFs (entryAt (labelled 65#32) 0).fatName 512#32 := by
  have nothing : fat16ListRoot (readable labelled) fragmentedFs = [] := by decide +kernel
  have read : ∃ b, fat16ReadFile (readable labelled) fragmentedFs
      (entryAt (labelled 65#32) 0).fatName (fun _ => 0#8) 512#32 = some (0, b) := ⟨_, rfl⟩
  refine ⟨nothing, read, fun agrees => ?_⟩
  rcases read with ⟨b, call⟩
  rcases (agrees.found _).mp ⟨0, b, call, Int.le_refl 0⟩ with ⟨e, listed, -⟩
  rw [nothing] at listed
  cases listed

end Learnix
