import Learnix.Lib.ByteMemory
import Learnix.Lib.WhileLoop

/-!
# The map of memory that the boot loader leaves

`memory_print_map` walks through the map of the boot loader. Each entry begins with a size
that leads to the next one, in 32 bits, and the walk goes on while the address is below the
end of the map. It ends and reads nothing outside of the map exactly if the sizes in the map
lead to its end, through entries that lie in it whole (`mmap_walk_iff`).
-/

namespace Learnix

open Machine WhileLoop

/-- The fields of `multiboot_info_t` that `memory_print_map` reads. -/
structure MultibootMap where
  flags : Word
  mmapLength : Word
  mmapAddr : Word

/-- `multiboot_mmap_entry_t`, and `memory_region_t` without its first and its last field. -/
structure MapEntry where
  base : BitVec 64
  length : BitVec 64
  type : Word

/-- What is printed of an entry. -/
structure MapLine where
  index : Word
  base : Word
  kilobytes : Word
  usable : Bool
  typeName : String
deriving DecidableEq

/-- `type_names`. -/
def typeNames : List String := ["Unknown", "Usable", "Reserved", "ACPI", "NVS", "Bad"]

def typeName (type : Word) : String :=
  if type ≤ 5#32 then typeNames.getD type.toNat "Unknown" else "Unknown"

def read64 (m : Memory) (a : Word) : BitVec 64 := m.read32 (a + 4#32) ++ m.read32 a

/-- `entry->size`. -/
def entrySize (m : Memory) (entry : Word) : Word := m.read32 entry

/-- The other fields of the entry at this address. -/
def mmapEntry (m : Memory) (entry : Word) : MapEntry :=
  ⟨read64 m (entry + 4#32), read64 m (entry + 12#32), m.read32 (entry + 20#32)⟩

/-- `(uint32_t) entry + entry->size + sizeof(uint32_t)`. -/
def nextEntry (m : Memory) (entry : Word) : Word := entry + entrySize m entry + 4#32

def mmapLine (i : Word) (e : MapEntry) : MapLine where
  index := i
  base := e.base.setWidth 32
  kilobytes := (e.length / 1024#64).setWidth 32
  usable := e.type = 1#32
  typeName := typeName e.type

/-- `regions[i]`, in the map of the own boot loader. -/
def regionAt (m : Memory) (i : Nat) : MapEntry :=
  let at_ := 0x500#32 + BitVec.ofNat 32 (24 * i)
  ⟨read64 m at_, read64 m (at_ + 8#32), m.read32 (at_ + 16#32)⟩

def regionLine (i : Nat) (e : MapEntry) : MapLine where
  index := BitVec.ofNat 32 i
  base := e.base.setWidth 32
  kilobytes := e.length.setWidth 32 / 1024#32
  usable := e.type = 1#32
  typeName := typeName e.type

/-- `entry` and `i`, and the lines that have been printed. -/
structure MapWalk where
  entry : Word
  i : Word
  lines : List MapLine

/-- One round of the walk. -/
def mapRound (m : Memory) (end_ : Word) (w : MapWalk) : Option MapWalk :=
  if w.entry < end_ then
    some ⟨nextEntry m w.entry, w.i + 1#32, w.lines ++ [mmapLine w.i (mmapEntry m w.entry)]⟩
  else none

/-- `end`. -/
def MultibootMap.end_ (mbi : MultibootMap) : Word := mbi.mmapAddr + mbi.mmapLength

def MultibootMap.start (mbi : MultibootMap) : MapWalk := ⟨mbi.mmapAddr, 0#32, []⟩

/-- The lines, and the megabytes of all memory; `none` if the walk needs more fuel. The lines are
printed as the walk goes on: the map is taken to be off the text screen. -/
def memoryPrintMap (fuel : Nat) (mbiPtr : Option MultibootMap) (m : Memory)
    (regionCount totalMemory : Word) : Option (List MapLine × Word) :=
  let total := totalMemory / (1024#32 * 1024#32)
  let regions := (List.range regionCount.toNat).map fun i => regionLine i (regionAt m i)
  match mbiPtr with
  | none => some (regions, total)
  | some mbi =>
    if mbi.flags &&& (1#32 <<< 6) ≠ 0#32 then
      (loop (mapRound m mbi.end_) fuel mbi.start).map fun w => (w.lines, total)
    else some (regions, total)

/-- The offsets and the sizes of the fields of an entry. -/
def entryFields : List (Nat × Nat) := [(0, 4), (4, 8), (12, 8), (20, 4)]

/-- The `n` bytes from `a` on lie in the map. -/
def MultibootMap.Contains (mbi : MultibootMap) (a : Word) (n : Nat) : Prop :=
  mbi.mmapAddr.toNat ≤ a.toNat ∧ a.toNat + n ≤ mbi.mmapAddr.toNat + mbi.mmapLength.toNat

/-- The walk ends, and the fields of every entry that it reads lie in the map. -/
structure WalksInside (m : Memory) (mbi : MultibootMap) : Prop where
  ends : ∃ fuel w, loop (mapRound m mbi.end_) fuel mbi.start = some w
  inside : ∀ n w, Reaches (mapRound m mbi.end_) mbi.start n w → w.entry < mbi.end_ →
    ∀ f ∈ entryFields, mbi.Contains (w.entry + BitVec.ofNat 32 f.1) f.2

/-- The entry that `n` sizes lead to from the start of the map. -/
def MultibootMap.entry (mbi : MultibootMap) (m : Memory) (n : Nat) : Word :=
  (nextEntry m)^[n] mbi.mmapAddr

/-- The sizes lead to the end of the map, and each entry before it lies in the map whole. -/
def Chained (m : Memory) (mbi : MultibootMap) : Prop :=
  ∃ n, (∀ j < n, mbi.Contains (mbi.entry m j) 24) ∧
    mbi.mmapAddr.toNat + mbi.mmapLength.toNat ≤ (mbi.entry m n).toNat

variable {m : Memory} {mbi : MultibootMap} {w w' : MapWalk} {a : Word} {n : Nat}

theorem entry_succ (m : Memory) (mbi : MultibootMap) (n : Nat) :
    mbi.entry m (n + 1) = nextEntry m (mbi.entry m n) :=
  Function.iterate_succ_apply' _ _ _

theorem toNat_end (fits : mbi.mmapAddr.toNat + mbi.mmapLength.toNat < 2 ^ 32) :
    mbi.end_.toNat = mbi.mmapAddr.toNat + mbi.mmapLength.toNat := by
  rw [MultibootMap.end_, BitVec.toNat_add, Nat.mod_eq_of_lt fits]

theorem mapRound_eq_some (next : mapRound m mbi.end_ w = some w') :
    w.entry < mbi.end_ ∧ w'.entry = nextEntry m w.entry := by
  unfold mapRound at next
  split at next
  · next more =>
    cases next
    exact ⟨more, rfl⟩
  · cases next

theorem mapRound_eq_none : mapRound m mbi.end_ w = none ↔ ¬ w.entry < mbi.end_ := by
  unfold mapRound
  split <;> simp_all

/-- The fields of an entry lie in the map exactly if all its bytes do. -/
theorem contains_fields_iff (fits : mbi.mmapAddr.toNat + mbi.mmapLength.toNat < 2 ^ 32) :
    (∀ f ∈ entryFields, mbi.Contains (a + BitVec.ofNat 32 f.1) f.2) ↔ mbi.Contains a 24 := by
  simp only [entryFields, List.forall_mem_cons, MultibootMap.Contains, BitVec.toNat_add,
    BitVec.toNat_ofNat]
  constructor
  · rintro ⟨size, base, length, type, -⟩
    omega
  · rintro ⟨low, high⟩
    refine ⟨by omega, by omega, by omega, by omega, fun _ member => absurd member List.not_mem_nil⟩

/-- The walk follows the sizes. -/
theorem entry_of_reaches (reaches : Reaches (mapRound m mbi.end_) mbi.start n w) :
    w.entry = mbi.entry m n := by
  refine reaches.invariant (I := fun n w => w.entry = mbi.entry m n) rfl fun n w w' same next => ?_
  rw [entry_succ, (mapRound_eq_some next).2, same]

theorem chained_of_walksInside (fits : mbi.mmapAddr.toNat + mbi.mmapLength.toNat < 2 ^ 32)
    (walks : WalksInside m mbi) : Chained m mbi := by
  rcases walks.ends with ⟨fuel, w, ended⟩
  rcases loop_eq_some_iff.mp ended with ⟨n, -, reaches, last⟩
  refine ⟨n, fun j below => ?_, ?_⟩
  · rcases reaches.exists_of_le (Nat.le_of_lt below) with ⟨v, before, next⟩
    rcases next below with ⟨v', goes⟩
    have inside := walks.inside j v before (mapRound_eq_some goes).1
    rwa [contains_fields_iff fits, entry_of_reaches before] at inside
  · have stop := mapRound_eq_none.mp last
    rwa [BitVec.not_lt, BitVec.le_def, toNat_end fits, entry_of_reaches reaches] at stop

theorem walksInside_of_chained (fits : mbi.mmapAddr.toNat + mbi.mmapLength.toNat < 2 ^ 32)
    (chained : Chained m mbi) : WalksInside m mbi := by
  rcases chained with ⟨n, inside, ends⟩
  -- a round that is taken is one of the first `n`
  have few (j : Nat) (w : MapWalk) (inv : w.entry = mbi.entry m j ∧ j ≤ n)
      (more : w.entry < mbi.end_) : j < n := by
    rcases Nat.lt_or_eq_of_le inv.2 with below | rfl
    · exact below
    · rw [BitVec.lt_def, toNat_end fits, inv.1] at more
      omega
  have keeps (j : Nat) (w w' : MapWalk) (inv : w.entry = mbi.entry m j ∧ j ≤ n)
      (next : mapRound m mbi.end_ w = some w') : w'.entry = mbi.entry m (j + 1) ∧ j + 1 ≤ n := by
    rcases mapRound_eq_some next with ⟨more, place⟩
    exact ⟨by rw [place, inv.1, entry_succ], few j w inv more⟩
  have start : mbi.start.entry = mbi.entry m 0 ∧ 0 ≤ n := ⟨rfl, Nat.zero_le n⟩
  constructor
  · rcases exists_ends n start keeps
      (fun j w w' inv next => few j w inv (mapRound_eq_some next).1) with ⟨k, w, -, stops, -⟩
    exact ⟨k + 1, w, loop_eq_some_iff.mpr ⟨k, Nat.lt_succ_self k, stops⟩⟩
  · intro j w reaches more
    have inv := reaches.invariant start keeps
    rw [contains_fields_iff fits, inv.1]
    exact inside j (few j w inv more)

/-! ## Maps as the boot loader should leave them -/

/-- Where entry `j` lies in the map when entries with these sizes follow each other. -/
def entryOffset (sizes : List Nat) (j : Nat) : Nat := ((sizes.take j).map (· + 4)).sum

/-- Entries with these sizes, each at least as large as its fields, fill the map. -/
structure LaidOut (m : Memory) (mbi : MultibootMap) (sizes : List Nat) : Prop where
  large : ∀ size ∈ sizes, 20 ≤ size
  stored : ∀ j (below : j < sizes.length),
    (entrySize m (mbi.mmapAddr + BitVec.ofNat 32 (entryOffset sizes j))).toNat = sizes[j]
  fills : entryOffset sizes sizes.length = mbi.mmapLength.toNat

variable {sizes : List Nat} {j k : Nat}

theorem entryOffset_succ (below : j < sizes.length) :
    entryOffset sizes (j + 1) = entryOffset sizes j + (sizes[j] + 4) := by
  rw [entryOffset, List.take_add_one, List.getElem?_eq_getElem below, List.map_append,
    List.sum_append]
  rfl

theorem entryOffset_mono (le : j ≤ k) (inside : k ≤ sizes.length) :
    entryOffset sizes j ≤ entryOffset sizes k := by
  induction k, le using Nat.le_induction with
  | base => exact Nat.le_refl _
  | succ k _ ih =>
      rw [entryOffset_succ inside]
      exact Nat.le_add_right_of_le (ih (Nat.le_of_succ_le inside))

theorem LaidOut.entry (laid : LaidOut m mbi sizes) (le : j ≤ sizes.length) :
    mbi.entry m j = mbi.mmapAddr + BitVec.ofNat 32 (entryOffset sizes j) := by
  induction j with
  | zero => exact (BitVec.add_zero _).symm
  | succ j ih =>
      have size := congrArg (BitVec.ofNat 32) (laid.stored j le)
      rw [BitVec.ofNat_toNat, BitVec.setWidth_eq] at size
      rw [entry_succ, ih (Nat.le_of_succ_le le), nextEntry, size, entryOffset_succ le,
        BitVec.ofNat_add, BitVec.ofNat_add, ← BitVec.add_assoc, ← BitVec.add_assoc]

/-- Such a map is chained. -/
theorem LaidOut.chained (laid : LaidOut m mbi sizes)
    (fits : mbi.mmapAddr.toNat + mbi.mmapLength.toNat < 2 ^ 32) : Chained m mbi := by
  have place (j : Nat) (le : j ≤ sizes.length) :
      (mbi.entry m j).toNat = mbi.mmapAddr.toNat + entryOffset sizes j := by
    have bound := entryOffset_mono le (Nat.le_refl _)
    rw [laid.fills] at bound
    rw [laid.entry le, BitVec.toNat_add, BitVec.toNat_ofNat]
    omega
  refine ⟨sizes.length, fun j below => ?_, ?_⟩
  · have next := entryOffset_mono (Nat.succ_le_of_lt below) (Nat.le_refl _)
    have large := laid.large _ (List.getElem_mem below)
    rw [entryOffset_succ below, laid.fills] at next
    rw [MultibootMap.Contains, place j (Nat.le_of_lt below)]
    omega
  · rw [place _ (Nat.le_refl _), laid.fills]

/-! ## All maps -/

/-- Whatever the map holds, the walk ends and reads its entries inside of the map exactly if
the sizes lead to the end of the map, through entries that lie in it whole. -/
theorem mmap_walk_iff (m : Memory) (mbi : MultibootMap)
    (fits : mbi.mmapAddr.toNat + mbi.mmapLength.toNat < 2 ^ 32) :
    WalksInside m mbi ↔ Chained m mbi :=
  ⟨chained_of_walksInside fits, walksInside_of_chained fits⟩

/-- A map with one entry of 24 bytes. -/
def oneRegion : MultibootMap := ⟨0x40#32, 24#32, 0x9000#32⟩

/-- Memory in which the size of this entry is 20. -/
def regionMemory : Memory := fun a => if a = 0x9000#32 then 20#8 else 0#8

theorem mmap_walk_one : WalksInside regionMemory oneRegion := by
  have fits : oneRegion.mmapAddr.toNat + oneRegion.mmapLength.toNat < 2 ^ 32 := by decide
  have laid : LaidOut regionMemory oneRegion [20] := by
    refine ⟨by simp, fun j below => ?_, rfl⟩
    obtain rfl : j = 0 := Nat.lt_one_iff.mp below
    exact (by decide : (entrySize regionMemory (0x9000#32 + 0#32)).toNat = 20)
  exact (mmap_walk_iff regionMemory oneRegion fits).mpr (laid.chained fits)

/-- Memory in which it is `-4`. -/
def stuckMemory : Memory := fun a => if a = 0x9000#32 then 0xFC#8 else 0xFF#8

/-- The walk stays at the first entry. -/
theorem mmap_walk_stays :
    oneRegion.mmapAddr.toNat + oneRegion.mmapLength.toNat < 2 ^ 32 ∧
      (∀ fuel regionCount total,
        memoryPrintMap fuel (some oneRegion) stuckMemory regionCount total = none) ∧
      ¬ WalksInside stuckMemory oneRegion := by
  have same : nextEntry stuckMemory 0x9000#32 = 0x9000#32 := by decide
  have never (fuel : Nat) : loop (mapRound stuckMemory oneRegion.end_) fuel oneRegion.start =
      none := by
    rw [loop_eq_none_iff]
    intro n _ w
    apply not_ends (I := fun _ w => w.entry = 0x9000#32) rfl
    intro n w here
    have more : w.entry < oneRegion.end_ := here ▸ (by decide)
    refine ⟨_, if_pos more, ?_⟩
    rw [here]
    exact same
  refine ⟨by decide, fun fuel regionCount total => ?_, fun walks => ?_⟩
  · have given : oneRegion.flags &&& (1#32 <<< 6) ≠ 0#32 := by decide
    simp only [memoryPrintMap, if_pos given, never, Option.map_none]
  · rcases walks.ends with ⟨fuel, w, ended⟩
    rw [never] at ended
    cases ended

end Learnix
