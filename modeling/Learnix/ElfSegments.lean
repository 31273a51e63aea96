import Learnix.Elf
import Learnix.Fat16Read

/-!
# What the segment loops store

One `PT_LOAD` header makes `elf_load` store to the bytes from `p_vaddr` on, as many
as the larger of `p_filesz` and `p_memsz` (`loadSegment_placed`), provided that
it does not store to the header itself. As long as no destination meets the
headers, the whole loop stores to just these ranges and leaves all other memory
as it was (`segmentLoop_loaded`).
-/

namespace Learnix

open Machine Memory ForLoop

variable {m m' file : Memory} {a a' dest elfBuffer h phdrs x : Word} {i j k n : Nat}
  {l l' l'' : Loader} {v : Byte}

/-! ## Headers -/

theorem elf32Phdr_congr (same : SameBytes m a m' a' phdrSize) :
    elf32Phdr m a = elf32Phdr m' a' := by
  unfold phdrSize at same
  simp only [elf32Phdr, Elf32Phdr.mk.injEq]
  exact ⟨same.read32 (by decide), same.read32 (by decide), same.read32 (by decide),
    same.read32 (by decide), same.read32 (by decide)⟩

theorem elf32Hdr_congr (same : SameBytes m a m' a' ehdrSize) : elf32Hdr m a = elf32Hdr m' a' := by
  unfold ehdrSize at same
  simp only [elf32Hdr, Elf32Hdr.mk.injEq]
  refine ⟨funext fun k => same.read8 (by omega), same.read16 (by decide), same.read16 (by decide),
    same.read32 (by decide), same.read32 (by decide), same.read16 (by decide),
    same.read16 (by decide)⟩

/-- The number of bytes that the two loops of a segment store to. -/
def Elf32Phdr.extent (ph : Elf32Phdr) : Nat := max ph.pFilesz.toNat ph.pMemsz.toNat

/-- The segment is to be stored, and `a` is one of its destinations. -/
def Elf32Phdr.StoresTo (ph : Elf32Phdr) (a : Word) : Prop :=
  ph.pType = ptLoad ∧ InRange ph.pVaddr ph.extent a

instance (ph : Elf32Phdr) (a : Word) : Decidable (ph.StoresTo a) :=
  inferInstanceAs (Decidable (ph.pType = ptLoad ∧ InRange ph.pVaddr ph.extent a))

/-- The program header table of an ELF file at `elfBuffer`. -/
def tableAt (m : Memory) (elfBuffer : Word) : Word := elfBuffer + (elf32Hdr m elfBuffer).ePhoff

/-- The number of program headers. -/
def headerCount (m : Memory) (elfBuffer : Word) : Nat := (elf32Hdr m elfBuffer).ePhnum.toNat

/-- Program header `i`. -/
def headerAt (m : Memory) (elfBuffer : Word) (i : Nat) : Elf32Phdr :=
  elf32Phdr m (phdrAt (tableAt m elfBuffer) i)

def firstHeaders (m : Memory) (elfBuffer : Word) (n : Nat) : List Elf32Phdr :=
  (List.range n).map (headerAt m elfBuffer)

/-- The program headers, in table order. -/
def programHeaders (m : Memory) (elfBuffer : Word) : List Elf32Phdr :=
  firstHeaders m elfBuffer (headerCount m elfBuffer)

variable {ph : Elf32Phdr}

theorem phdrAt_eq (elfBuffer phoff : Word) (i : Nat) :
    phdrAt (elfBuffer + phoff) i = elfBuffer + BitVec.ofNat 32 (phoff.toNat + phdrSize * i) := by
  rw [phdrAt, BitVec.ofNat_add, BitVec.ofNat_toNat, BitVec.setWidth_eq, BitVec.add_assoc]

theorem mem_firstHeaders :
    ph ∈ firstHeaders m elfBuffer n ↔ ∃ i < n, headerAt m elfBuffer i = ph := by
  simp only [firstHeaders, List.mem_map, List.mem_range]

theorem firstHeaders_succ (m : Memory) (elfBuffer : Word) (n : Nat) :
    firstHeaders m elfBuffer (n + 1) =
      firstHeaders m elfBuffer n ++ [headerAt m elfBuffer n] := by
  rw [firstHeaders, List.range_succ, List.map_append]
  rfl

theorem headerAt_mem (below : i < headerCount m elfBuffer) :
    headerAt m elfBuffer i ∈ programHeaders m elfBuffer :=
  mem_firstHeaders.mpr ⟨i, below, rfl⟩

theorem mem_programHeaders (le : n ≤ headerCount m elfBuffer)
    (member : ph ∈ firstHeaders m elfBuffer n) : ph ∈ programHeaders m elfBuffer := by
  obtain ⟨i, below, rfl⟩ := mem_firstHeaders.mp member
  exact headerAt_mem (Nat.lt_of_lt_of_le below le)

/-! ## The file in `elf_buffer` -/

/-- The memory once the first `n` bytes of a file are in `elf_buffer`. -/
def withFile (elfBuffer : Word) (n : Nat) (file m : Memory) : Memory :=
  fun a => if (a - elfBuffer).toNat < n then file (a - elfBuffer) else m a

theorem withFile_of_not_inRange (outside : ¬ InRange elfBuffer n a) :
    withFile elfBuffer n file m a = m a :=
  if_neg outside

theorem withFile_same (elfBuffer : Word) (n : Nat) (file m : Memory) :
    SameBytes (withFile elfBuffer n file m) elfBuffer file 0#32 n := by
  intro k below
  have offset : elfBuffer + BitVec.ofNat 32 k - elfBuffer = BitVec.ofNat 32 k := by bv_omega
  have index : (BitVec.ofNat 32 k).toNat < n := by
    rw [BitVec.toNat_ofNat]
    exact Nat.lt_of_le_of_lt (Nat.mod_le _ _) below
  rw [withFile, offset, if_pos index, BitVec.zero_add]

theorem afterRead_eq {b : Word → Byte}
    (bytes : ∀ k, b k = if k.toNat < n then file k else m (elfBuffer + k)) :
    afterRead elfBuffer b = withFile elfBuffer n file m := by
  funext a
  have back : elfBuffer + (a - elfBuffer) = a := by bv_omega
  rw [afterRead, bytes, back]
  rfl

/-- On any disk, what `elf_load` reads: nothing if `fat16_read_file` fails, and else the
first `n` bytes of a file. They do not depend on the memory. -/
theorem exists_read (disk : Disk) (fs : Fat16) (name : Fin 11 → Byte) :
    ∃ (bytes : Int) (n : Nat) (file : Memory), n ≤ elfBufferSize ∧ (bytes = -1 ∨ bytes = n) ∧
      ∀ elfBuffer m, ∃ buffer, fat16ReadFile disk fs name (fun k => m (elfBuffer + k))
          (BitVec.ofNat 32 elfBufferSize) = some (bytes, buffer) ∧
        afterRead elfBuffer buffer = withFile elfBuffer n file m := by
  have small : (BitVec.ofNat 32 elfBufferSize).toNat < 2 ^ 31 := by decide
  rcases fat16ReadFile_prefix disk fs name small with fails | ⟨n, file, le, reads⟩
  · exact ⟨-1, 0, fun _ => 0#8, Nat.zero_le _, .inl rfl, fun elfBuffer m =>
      ⟨_, fails _, afterRead_eq fun _ => rfl⟩⟩
  · exact ⟨n, n, fun k => file k.toNat, le, .inr rfl, fun elfBuffer m =>
      ⟨_, reads _, afterRead_eq fun _ => rfl⟩⟩

theorem elfLoadToEntry_of_read {disk : Disk} {fs : Fat16} {name : Fin 11 → Byte} {bytes : Int}
    {b : Word → Byte} (read : fat16ReadFile disk fs name (fun k => m (elfBuffer + k))
      (BitVec.ofNat 32 elfBufferSize) = some (bytes, b)) :
    elfLoadToEntry disk fs name elfBuffer m =
      some (elfLoadRead elfBuffer bytes (afterRead elfBuffer b)) := by
  rw [elfLoadToEntry, read, Option.map_some]

/-! ## One byte after the other -/

/-- From `l` to `l'`, the bytes `i` to `j` from `dest` on have been stored. -/
structure Stores (dest : Word) (i j : Nat) (l l' : Loader) : Prop where
  frame : ∀ x, ¬ (i ≤ (x - dest).toNat ∧ (x - dest).toNat < j) → l'.mem x = l.mem x
  stored : ∀ x, x ∈ l'.stored ↔ x ∈ l.stored ∨ i ≤ (x - dest).toNat ∧ (x - dest).toNat < j

theorem Stores.refl (dest : Word) (i : Nat) (l : Loader) : Stores dest i i l l where
  frame _ _ := rfl
  stored _ := (or_iff_left (by omega)).symm

theorem Stores.trans (first : Stores dest i j l l') (second : Stores dest j k l' l'') (le : i ≤ j)
    (le' : j ≤ k) : Stores dest i k l l'' where
  frame x outside := by
    rw [second.frame x (by omega), first.frame x (by omega)]
  stored x := by
    rw [second.stored, first.stored, or_assoc]
    apply or_congr_right
    omega

theorem Stores.store (stores : Stores dest i j l l') (le : i ≤ j) (small : j < 2 ^ 32) :
    Stores dest i (j + 1) l (l'.store (dest + BitVec.ofNat 32 j) v) := by
  have place : ∀ x, x = dest + BitVec.ofNat 32 j ↔ (x - dest).toNat = j := by
    intro x
    bv_omega
  constructor
  · intro x outside
    have other : x ≠ dest + BitVec.ofNat 32 j := by
      rw [ne_eq, place]
      omega
    rw [Loader.store_mem_of_ne other, stores.frame x (by omega)]
  · intro x
    rw [Loader.mem_stored_store, stores.stored, place, or_left_comm]
    apply or_congr_right
    omega

/-- A loop that stores one byte after the other. Each byte is the one that the body
computes after it has stored those before it. -/
theorem forLoop_stores {bound : Loader → Word} {value : Nat → Loader → Byte} (le : i ≤ n)
    (fixed : ∀ j l', i ≤ j → j ≤ n → Stores dest i j l l' → (bound l').toNat = n) :
    Stores dest i n l
        (forLoop bound (fun b l => l.store (dest + BitVec.ofNat 32 b) (value b l)) i l) ∧
      ∀ b, i ≤ b → b < n → ∃ l', Stores dest i b l l' ∧
        (forLoop bound (fun b l => l.store (dest + BitVec.ofNat 32 b) (value b l)) i l).mem
          (dest + BitVec.ofNat 32 b) = value b l' := by
  have small : n < 2 ^ 32 := fixed i l (Nat.le_refl i) le (.refl dest i l) ▸ (bound l).isLt
  refine forLoop_fixed (P := fun j l' => Stores dest i j l l' ∧ ∀ b, i ≤ b → b < j →
    ∃ l'', Stores dest i b l l'' ∧ l'.mem (dest + BitVec.ofNat 32 b) = value b l'')
    ⟨.refl dest i l, fun b low high => absurd low (Nat.not_le.mpr high)⟩ le
    (fun j l' low bounded inv => fixed j l' low bounded inv.1) fun j l' low high inv => ?_
  obtain ⟨stores, bytes⟩ := inv
  refine ⟨stores.store low (by omega), fun b from_ below => ?_⟩
  by_cases last : b = j
  · exact ⟨l', last ▸ stores, by rw [last, Loader.store_mem_self]⟩
  · obtain ⟨l'', earlier, byte⟩ := bytes b from_ (by omega)
    have other : dest + BitVec.ofNat 32 b ≠ dest + BitVec.ofNat 32 j := by bv_omega
    exact ⟨l'', earlier, by rw [Loader.store_mem_of_ne other, byte]⟩

/-! ## One segment -/

/-- A header that its own destination does not meet stays as it is while the bytes are
stored. -/
theorem Stores.elf32Phdr_eq (stores : Stores (elf32Phdr l.mem h).pVaddr i j l l')
    (le : j ≤ (elf32Phdr l.mem h).extent)
    (apart : Sep h phdrSize (elf32Phdr l.mem h).pVaddr (elf32Phdr l.mem h).extent) :
    elf32Phdr l'.mem h = elf32Phdr l.mem h := by
  apply elf32Phdr_congr
  apply SameBytes.of_inRange
  intro x inside
  apply stores.frame x
  intro within
  exact apart x inside (Nat.lt_of_lt_of_le within.2 le)

/-- The segment of `ph` has been stored, byte by byte. -/
structure Placed (elfBuffer : Word) (ph : Elf32Phdr) (l l' : Loader) : Prop where
  stores : Stores ph.pVaddr 0 ph.extent l l'
  bytes : ∀ b < ph.extent, ∃ u, Stores ph.pVaddr 0 b l u ∧
    l'.mem (ph.pVaddr + BitVec.ofNat 32 b) =
      if b < ph.pFilesz.toNat then u.mem (elfBuffer + ph.pOffset + BitVec.ofNat 32 b) else 0#8

/-- The loop that copies the bytes of the file. -/
theorem copySegment_stores (elfBuffer : Word)
    (apart : Sep h phdrSize (elf32Phdr l.mem h).pVaddr (elf32Phdr l.mem h).extent) :
    Stores (elf32Phdr l.mem h).pVaddr 0 (elf32Phdr l.mem h).pFilesz.toNat l
        (copySegment elfBuffer h l) ∧
      ∀ b, 0 ≤ b → b < (elf32Phdr l.mem h).pFilesz.toNat →
        ∃ u, Stores (elf32Phdr l.mem h).pVaddr 0 b l u ∧
          (copySegment elfBuffer h l).mem ((elf32Phdr l.mem h).pVaddr + BitVec.ofNat 32 b) =
            u.mem (elfBuffer + (elf32Phdr l.mem h).pOffset + BitVec.ofNat 32 b) := by
  have filesz : (elf32Phdr l.mem h).pFilesz.toNat ≤ (elf32Phdr l.mem h).extent :=
    Nat.le_max_left _ _
  exact forLoop_stores (Nat.zero_le _) fun j u _ le stores => by
    rw [stores.elf32Phdr_eq (le.trans filesz) apart]

theorem loadSegment_placed (elfBuffer : Word)
    (apart : Sep h phdrSize (elf32Phdr l.mem h).pVaddr (elf32Phdr l.mem h).extent) :
    Placed elfBuffer (elf32Phdr l.mem h) l (loadSegment elfBuffer h l) := by
  let p := elf32Phdr l.mem h
  have filesz : p.pFilesz.toNat ≤ p.extent := Nat.le_max_left _ _
  have memsz : p.pMemsz.toNat ≤ p.extent := Nat.le_max_right _ _
  let copied := copySegment elfBuffer h l
  obtain ⟨copy, copyBytes⟩ := copySegment_stores elfBuffer apart
  have header : elf32Phdr copied.mem h = p := copy.elf32Phdr_eq filesz apart
  have result : loadSegment elfBuffer h l = forLoop (fun l => (elf32Phdr l.mem h).pMemsz)
      (zeroByte p.pVaddr) p.pFilesz.toNat copied := by
    rw [loadSegment, zeroSegment, header]
  rcases Nat.le_total p.pMemsz.toNat p.pFilesz.toNat with none_ | some_
  · -- There is no `.bss`: the second loop makes no round.
    have all : p.extent = p.pFilesz.toNat := Nat.max_eq_left none_
    rw [result, forLoop_of_le (by rw [header]; exact none_)]
    refine ⟨all ▸ copy, fun b below => ?_⟩
    obtain ⟨l', earlier, byte⟩ := copyBytes b (Nat.zero_le b) (all ▸ below)
    exact ⟨l', earlier, by rw [if_pos (all ▸ below)]; exact byte⟩
  · have all : p.extent = p.pMemsz.toNat := Nat.max_eq_right some_
    obtain ⟨zero, zeroBytes⟩ : Stores p.pVaddr p.pFilesz.toNat p.pMemsz.toNat copied
        (loadSegment elfBuffer h l) ∧ ∀ b, p.pFilesz.toNat ≤ b → b < p.pMemsz.toNat →
          ∃ l', Stores p.pVaddr p.pFilesz.toNat b copied l' ∧
            (loadSegment elfBuffer h l).mem (p.pVaddr + BitVec.ofNat 32 b) = 0#8 := by
      rw [result]
      refine forLoop_stores some_ fun j l' low le stores => ?_
      have both : Stores p.pVaddr 0 j l l' := copy.trans stores (Nat.zero_le _) low
      rw [both.elf32Phdr_eq (le.trans memsz) apart]
    refine ⟨all ▸ copy.trans zero (Nat.zero_le _) some_, fun b below => ?_⟩
    by_cases fromFile : b < p.pFilesz.toNat
    · obtain ⟨l', earlier, byte⟩ := copyBytes b (Nat.zero_le b) fromFile
      have place : (p.pVaddr + BitVec.ofNat 32 b - p.pVaddr).toNat = b := by bv_omega
      have kept : (loadSegment elfBuffer h l).mem (p.pVaddr + BitVec.ofNat 32 b) =
          copied.mem (p.pVaddr + BitVec.ofNat 32 b) :=
        zero.frame _ fun within => absurd (place ▸ within.1) (Nat.not_le.mpr fromFile)
      exact ⟨l', earlier, by rw [if_pos fromFile]; exact kept.trans byte⟩
    · obtain ⟨l', earlier, byte⟩ := zeroBytes b (Nat.le_of_not_lt fromFile) (all ▸ below)
      refine ⟨l', copy.trans earlier (Nat.zero_le _) (Nat.le_of_not_lt fromFile), ?_⟩
      rw [if_neg fromFile, byte]

/-! ## All segments -/

/-- `a` is in the ELF header or in the program header table. -/
def InHeaders (m : Memory) (elfBuffer a : Word) : Prop :=
  InRange elfBuffer ehdrSize a ∨
    ∃ i < headerCount m elfBuffer, InRange (phdrAt (tableAt m elfBuffer) i) phdrSize a

/-- No segment is to be stored on the headers. -/
def KeepsHeaders (m : Memory) (elfBuffer : Word) : Prop :=
  ∀ ph ∈ programHeaders m elfBuffer, ∀ a, ph.StoresTo a → ¬ InHeaders m elfBuffer a

/-- The segments of the first `n` headers have been stored, and nothing else. -/
structure Loaded (m : Memory) (elfBuffer : Word) (n : Nat) (l : Loader) : Prop where
  frame : ∀ a, (∀ ph ∈ firstHeaders m elfBuffer n, ¬ ph.StoresTo a) → l.mem a = m a
  stored : ∀ a, a ∈ l.stored ↔ ∃ ph ∈ firstHeaders m elfBuffer n, ph.StoresTo a

theorem loaded_zero (m : Memory) (elfBuffer : Word) : Loaded m elfBuffer 0 ⟨m, []⟩ where
  frame _ _ := rfl
  stored a := by
    rw [firstHeaders, List.range_zero, List.map_nil]
    simp only [List.not_mem_nil, false_and, exists_false]

theorem Loaded.headers (loaded : Loaded m elfBuffer n l) (keeps : KeepsHeaders m elfBuffer)
    (le : n ≤ headerCount m elfBuffer) (inHeaders : InHeaders m elfBuffer a) :
    l.mem a = m a :=
  loaded.frame a fun ph member storesTo =>
    keeps ph (mem_programHeaders le member) a storesTo inHeaders

theorem Loaded.elf32Hdr_eq (loaded : Loaded m elfBuffer n l) (keeps : KeepsHeaders m elfBuffer)
    (le : n ≤ headerCount m elfBuffer) : elf32Hdr l.mem elfBuffer = elf32Hdr m elfBuffer :=
  elf32Hdr_congr (.of_inRange fun _ inside => loaded.headers keeps le (.inl inside))

theorem Loaded.elf32Phdr_eq (loaded : Loaded m elfBuffer n l) (keeps : KeepsHeaders m elfBuffer)
    (le : n ≤ headerCount m elfBuffer) (below : i < headerCount m elfBuffer) :
    elf32Phdr l.mem (phdrAt (tableAt m elfBuffer) i) = headerAt m elfBuffer i :=
  elf32Phdr_congr (.of_inRange fun _ inside => loaded.headers keeps le (.inr ⟨i, below, inside⟩))

/-- What one round does, as long as the headers are what they were. -/
theorem Loaded.segmentBody (loaded : Loaded m elfBuffer n l) (keeps : KeepsHeaders m elfBuffer)
    (below : n < headerCount m elfBuffer) :
    ((headerAt m elfBuffer n).pType ≠ ptLoad ∧
        segmentBody elfBuffer (tableAt m elfBuffer) n l = l) ∨
      ((headerAt m elfBuffer n).pType = ptLoad ∧
        Placed elfBuffer (headerAt m elfBuffer n) l
          (segmentBody elfBuffer (tableAt m elfBuffer) n l)) := by
  have header := loaded.elf32Phdr_eq keeps (Nat.le_of_lt below) below
  rw [Learnix.segmentBody, header]
  rcases eq_or_ne (headerAt m elfBuffer n).pType ptLoad with load | other
  · refine .inr ⟨load, ?_⟩
    rw [if_neg (not_not.mpr load), ← header]
    apply loadSegment_placed elfBuffer
    intro x inHeader within
    rw [header] at within
    exact keeps _ (headerAt_mem below) x ⟨load, within⟩ (.inr ⟨n, below, inHeader⟩)
  · exact .inl ⟨other, if_pos other⟩

/-- **Step lemma.** -/
theorem Loaded.step (loaded : Loaded m elfBuffer n l) (keeps : KeepsHeaders m elfBuffer)
    (below : n < headerCount m elfBuffer) :
    Loaded m elfBuffer (n + 1) (Learnix.segmentBody elfBuffer (tableAt m elfBuffer) n l) := by
  have member : ∀ a, (∃ ph ∈ firstHeaders m elfBuffer (n + 1), ph.StoresTo a) ↔
      (∃ ph ∈ firstHeaders m elfBuffer n, ph.StoresTo a) ∨ (headerAt m elfBuffer n).StoresTo a := by
    intro a
    rw [firstHeaders_succ]
    simp only [List.mem_append, List.mem_singleton, or_and_right, exists_or, exists_eq_left]
  have none_ : ∀ a, (∀ ph ∈ firstHeaders m elfBuffer (n + 1), ¬ ph.StoresTo a) →
      l.mem a = m a ∧ ¬ (headerAt m elfBuffer n).StoresTo a := by
    intro a unmet
    rw [firstHeaders_succ] at unmet
    exact ⟨loaded.frame a fun ph earlier => unmet ph (List.mem_append_left _ earlier),
      unmet _ (List.mem_append_right _ (List.mem_singleton_self _))⟩
  rcases loaded.segmentBody keeps below with ⟨other, same⟩ | ⟨load, placed⟩
  · rw [same]
    constructor
    · exact fun a unmet => (none_ a unmet).1
    · intro a
      rw [member, loaded.stored]
      exact (or_iff_left fun storesTo => other storesTo.1).symm
  · constructor
    · intro a unmet
      obtain ⟨earlier, now⟩ := none_ a unmet
      rw [placed.stores.frame a fun within => now ⟨load, within.2⟩, earlier]
    · intro a
      rw [placed.stores.stored, member, loaded.stored]
      apply or_congr_right
      exact ⟨fun within => ⟨load, within.2⟩, fun storesTo => ⟨Nat.zero_le _, storesTo.2⟩⟩

/-- The rule for the loop over the program headers, when it does not store to them. -/
theorem segmentLoop_run {P : Nat → Loader → Prop} (keeps : KeepsHeaders m elfBuffer)
    (start : P 0 ⟨m, []⟩)
    (step : ∀ n l, n < headerCount m elfBuffer → Loaded m elfBuffer n l → P n l →
      P (n + 1) (segmentBody elfBuffer (tableAt m elfBuffer) n l)) :
    Loaded m elfBuffer (headerCount m elfBuffer)
        (segmentLoop elfBuffer (tableAt m elfBuffer) ⟨m, []⟩) ∧
      P (headerCount m elfBuffer) (segmentLoop elfBuffer (tableAt m elfBuffer) ⟨m, []⟩) :=
  forLoop_fixed (P := fun n l => Loaded m elfBuffer n l ∧ P n l) ⟨loaded_zero m elfBuffer, start⟩
    (Nat.zero_le _)
    (fun n l _ le inv => by rw [inv.1.elf32Hdr_eq keeps le]; rfl)
    fun n l _ below inv => ⟨inv.1.step keeps below, step n l below inv.1 inv.2⟩

/-- **Run lemma.** -/
theorem segmentLoop_loaded (keeps : KeepsHeaders m elfBuffer) :
    Loaded m elfBuffer (headerCount m elfBuffer)
      (segmentLoop elfBuffer (tableAt m elfBuffer) ⟨m, []⟩) :=
  (segmentLoop_run (P := fun _ _ => True) keeps trivial fun _ _ _ _ _ => trivial).1

/-- A file that `elf_verify` accepts is entered once the loop has stored its segments. -/
theorem elfLoadRead_entered {bytes : Int} (nonneg : 0 ≤ bytes)
    (accepted : elfVerify (elf32Hdr m elfBuffer) = .ok ()) :
    elfLoadRead elfBuffer bytes m =
      .entered (elf32Hdr (segmentLoop elfBuffer (tableAt m elfBuffer) ⟨m, []⟩).mem elfBuffer).eEntry
        (segmentLoop elfBuffer (tableAt m elfBuffer) ⟨m, []⟩) := by
  rw [elfLoadRead, if_neg (Int.not_lt.mpr nonneg), accepted]
  rfl

/-! ## A small program -/

def le32 (v : Nat) : List Nat := [v % 256, v / 256 % 256, v / 65536 % 256, v / 16777216 % 256]

/-- A program with one segment, of one byte (`ret`) and one zero after it. -/
def tinyElf (vaddr : Nat) : List Nat :=
  [0x7F, 0x45, 0x4C, 0x46, 1, 1, 1, 0, 0, 0, 0, 0, 0, 0, 0, 0, 2, 0, 3, 0, 1, 0, 0, 0] ++
    le32 vaddr ++ le32 52 ++ le32 0 ++ le32 0 ++ [52, 0, 32, 0, 1, 0, 0, 0, 0, 0, 0, 0] ++
    le32 1 ++ le32 84 ++ le32 vaddr ++ le32 vaddr ++ le32 1 ++ le32 2 ++ le32 5 ++ le32 4096 ++
    [0xC3]

/-- A volume like `fragmented`, with one file in the cluster 2. -/
def oneFile (size : Nat) (bytes : List Nat) (lba : Word) : Sector :=
  match lba.toNat with
  | 0 => fragmented 0#32
  | 1 => sectorOf [0xF8, 0xFF, 0xFF, 0xFF, 0xFF, 0xFF]
  | 33 => sectorOf [0xF8, 0xFF, 0xFF, 0xFF, 0xFF, 0xFF]
  | 65 => sectorOf ([0x44, 0x45, 0x4D, 0x4F, 0x20, 0x20, 0x20, 0x20, 0x45, 0x4C, 0x46, 0x20,
      0, 0, 0, 0, 0, 0, 0, 0, 0, 0, 0, 0, 0, 0, 2, 0] ++ le32 size)
  | 97 => sectorOf bytes
  | _ => sectorOf []

def oneFileEntry (size : Nat) : Entry := entryAt (oneFile size [] 65#32) 0

end Learnix
