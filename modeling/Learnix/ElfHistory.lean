import Learnix.ElfReads

/-!
# What earlier loads leave behind

`elf_buffer` is not cleared between loads. What `elf_load` does with a file depends on
the file alone as long as it reads no byte that an earlier load has left there
(`load_own_bytes`), as is the case for a well-formed file (`WellFormed.ownReads`).
Whether it rejects a short file may depend on these bytes, and does unless one of the
bytes that were read is wrong (`decision_iff`). A table or a source that lies outside of
`elf_buffer` is taken to be off the text screen, on which `elf_load` prints.
-/

namespace Learnix

open Machine Memory ForLoop

variable {m m' file : Memory} {a elfBuffer h phdrs x : Word} {i k n : Nat} {l l' : Loader}
  {v v' : Byte} {disk : Disk} {fs : Fat16} {name : Fin 11 → Byte} {sectors : Word → Sector}
  {e : Entry}

/-! ## Fresh bytes -/

/-- The byte at `a` is not one that an earlier load has left in `elf_buffer`: it lies
elsewhere, or among the `n` bytes that were read, or has been stored since. -/
def Fresh (elfBuffer : Word) (n : Nat) (l : Loader) (a : Word) : Prop :=
  ¬ InRange elfBuffer elfBufferSize a ∨ InRange elfBuffer n a ∨ a ∈ l.stored

def FreshRange (elfBuffer : Word) (n : Nat) (l : Loader) (a : Word) (k : Nat) : Prop :=
  ∀ x, InRange a k x → Fresh elfBuffer n l x

/-- Whatever a round for the header at `ph` reads is fresh. -/
structure FreshSegment (elfBuffer : Word) (n : Nat) (ph : Word) (l : Loader) : Prop where
  type : FreshRange elfBuffer n l (ph + 0#32) 4
  fields : (elf32Phdr l.mem ph).pType = ptLoad →
    ∀ o ∈ [4, 8, 16, 20], FreshRange elfBuffer n l (ph + BitVec.ofNat 32 o) 4
  source : (elf32Phdr l.mem ph).pType = ptLoad → ∀ r ∈ copyRounds elfBuffer ph l,
    Fresh elfBuffer n r.2 (elfBuffer + (elf32Phdr l.mem ph).pOffset + BitVec.ofNat 32 r.1)

/-- After a read of `n` bytes, one of them makes `elf_verify` reject the file, or all that
is read from `elf_buffer` is fresh. -/
def ReadsOwn (m : Memory) (elfBuffer : Word) (n : Nat) : Prop :=
  (∃ c ∈ checkedBytes, c.1 < n ∧ Wrong m elfBuffer c) ∨
    46 ≤ n ∧ ∀ r ∈ segmentRounds m elfBuffer,
      FreshSegment elfBuffer n (phdrAt (tableAt m elfBuffer) r.1) r.2

/-- No byte that an earlier load has left is read. The bytes outside of `elf_buffer` that are
read, if any, are taken to be off the text screen. -/
def OwnReads (disk : Disk) (fs : Fat16) (name : Fin 11 → Byte) (elfBuffer : Word) (m : Memory) :
    Prop :=
  ∀ bytes buffer, fat16ReadFile disk fs name (fun k => m (elfBuffer + k))
      (BitVec.ofNat 32 elfBufferSize) = some (bytes, buffer) →
    0 ≤ bytes → ReadsOwn (afterRead elfBuffer buffer) elfBuffer bytes.toNat

/-- The same decision, the same entry point, and the same bytes in every destination. -/
def SameLoad : Option ElfLoad → Option ElfLoad → Prop
  | some (.rejected _), some (.rejected _) => True
  | some (.entered entry l), some (.entered entry' l') =>
    entry = entry' ∧ l.stored = l'.stored ∧ ∀ a ∈ l.stored, l.mem a = l'.mem a
  | _, _ => False

/-- Two loaders that have stored to the same addresses and agree on what is fresh. -/
structure Agree (elfBuffer : Word) (n : Nat) (l l' : Loader) : Prop where
  stored : l.stored = l'.stored
  mem : ∀ a, Fresh elfBuffer n l a → l.mem a = l'.mem a

theorem Fresh.store (fresh : Fresh elfBuffer n l x) : Fresh elfBuffer n (l.store a v) x :=
  fresh.imp_right (Or.imp_right fun stored => Loader.mem_stored_store.mpr (.inr stored))

theorem FreshRange.store (fresh : FreshRange elfBuffer n l x k) :
    FreshRange elfBuffer n (l.store a v) x k :=
  fun y inside => (fresh y inside).store

theorem freshRange_of_le {o j : Nat} (elfBuffer : Word) (l : Loader) (le : o + j ≤ n) :
    FreshRange elfBuffer n l (elfBuffer + BitVec.ofNat 32 o) j :=
  fun _ within => .inr (.inl (inRange_of_add within le))

theorem Agree.read16 (agree : Agree elfBuffer n l l') (fresh : FreshRange elfBuffer n l a 2) :
    l.mem.read16 a = l'.mem.read16 a :=
  read16_congr fun x inside => agree.mem x (fresh x inside)

theorem Agree.read32 (agree : Agree elfBuffer n l l') (fresh : FreshRange elfBuffer n l a 4) :
    l.mem.read32 a = l'.mem.read32 a :=
  read32_congr fun x inside => agree.mem x (fresh x inside)

theorem Agree.store (agree : Agree elfBuffer n l l') (same : v = v') :
    Agree elfBuffer n (l.store a v) (l'.store a v') := by
  refine ⟨congrArg (a :: ·) agree.stored, ?_⟩
  intro x fresh
  by_cases here : x = a
  · rw [here, Loader.store_mem_self, Loader.store_mem_self, same]
  · rw [Loader.store_mem_of_ne here, Loader.store_mem_of_ne here]
    apply agree.mem x
    apply fresh.imp_right (Or.imp_right _)
    intro stored
    exact (Loader.mem_stored_store.mp stored).resolve_left here

/-- The copy loop keeps two loaders in agreement. The sizes are read again in every round,
and stay fresh. -/
theorem FreshSegment.copySegment (fresh : FreshSegment elfBuffer n h l)
    (load : (elf32Phdr l.mem h).pType = ptLoad) (agree : Agree elfBuffer n l l') :
    Agree elfBuffer n (copySegment elfBuffer h l) (copySegment elfBuffer h l') ∧
      FreshRange elfBuffer n (Learnix.copySegment elfBuffer h l) (h + 16#32) 4 ∧
      FreshRange elfBuffer n (Learnix.copySegment elfBuffer h l) (h + 20#32) 4 := by
  have fields := fresh.fields load
  have offset : (elf32Phdr l'.mem h).pOffset = (elf32Phdr l.mem h).pOffset :=
    (agree.read32 (fields 4 (by decide))).symm
  have vaddr : (elf32Phdr l'.mem h).pVaddr = (elf32Phdr l.mem h).pVaddr :=
    (agree.read32 (fields 8 (by decide))).symm
  unfold Learnix.copySegment
  rw [vaddr, offset]
  exact forLoop_related _ _
    (R := fun s t => Agree elfBuffer n s t ∧ FreshRange elfBuffer n s (h + 16#32) 4 ∧
      FreshRange elfBuffer n s (h + 20#32) 4)
    ⟨agree, fields 16 (by decide), fields 20 (by decide)⟩
    (fun s t inv => inv.1.read32 inv.2.1)
    fun j s t round inv => ⟨inv.1.store (inv.1.mem _ (fresh.source load (j, s) round)),
      inv.2.1.store, inv.2.2.store⟩

/-- Both loops of a segment keep two loaders in agreement. -/
theorem FreshSegment.loadSegment (fresh : FreshSegment elfBuffer n h l)
    (load : (elf32Phdr l.mem h).pType = ptLoad) (agree : Agree elfBuffer n l l') :
    Agree elfBuffer n (loadSegment elfBuffer h l) (loadSegment elfBuffer h l') := by
  obtain ⟨copied, filesz, memsz⟩ := fresh.copySegment load agree
  have vaddr : (elf32Phdr l'.mem h).pVaddr = (elf32Phdr l.mem h).pVaddr :=
    (agree.read32 (fresh.fields load 8 (by decide))).symm
  have start : (elf32Phdr (Learnix.copySegment elfBuffer h l').mem h).pFilesz =
      (elf32Phdr (Learnix.copySegment elfBuffer h l).mem h).pFilesz :=
    (copied.read32 filesz).symm
  rw [Learnix.loadSegment, Learnix.loadSegment, vaddr, zeroSegment, zeroSegment, start]
  exact (forLoop_related (fun l => (elf32Phdr l.mem h).pMemsz)
    (zeroByte (elf32Phdr l.mem h).pVaddr)
    (R := fun s t => Agree elfBuffer n s t ∧ FreshRange elfBuffer n s (h + 20#32) 4)
    ⟨copied, memsz⟩ (fun s t inv => inv.1.read32 inv.2)
    fun j s t _ inv => ⟨inv.1.store rfl, inv.2.store⟩).1

theorem FreshSegment.segmentBody (fresh : FreshSegment elfBuffer n (phdrAt phdrs i) l)
    (agree : Agree elfBuffer n l l') :
    Agree elfBuffer n (segmentBody elfBuffer phdrs i l) (segmentBody elfBuffer phdrs i l') := by
  have type : (elf32Phdr l'.mem (phdrAt phdrs i)).pType =
      (elf32Phdr l.mem (phdrAt phdrs i)).pType :=
    (agree.read32 fresh.type).symm
  rw [Learnix.segmentBody, Learnix.segmentBody, type]
  split
  case isTrue => exact agree
  case isFalse load => exact fresh.loadSegment (not_not.mp load) agree

/-- The whole loop keeps two loaders in agreement. -/
theorem agree_segmentLoop (header : 46 ≤ n) (agree : Agree elfBuffer n ⟨m, []⟩ ⟨m', []⟩)
    (fresh : ∀ r ∈ segmentRounds m elfBuffer,
      FreshSegment elfBuffer n (phdrAt (tableAt m elfBuffer) r.1) r.2) :
    Agree elfBuffer n (segmentLoop elfBuffer (tableAt m elfBuffer) ⟨m, []⟩)
      (segmentLoop elfBuffer (tableAt m' elfBuffer) ⟨m', []⟩) := by
  have table : tableAt m' elfBuffer = tableAt m elfBuffer :=
    congrArg (elfBuffer + ·) (agree.read32 (freshRange_of_le elfBuffer _ (by omega))).symm
  rw [table]
  exact forLoop_related _ _ agree
    (fun s t inv => inv.read16 (freshRange_of_le elfBuffer s (by omega)))
    fun j s t round inv => (fresh (j, s) round).segmentBody inv

theorem withFile_of_le {o : Nat} (above : n ≤ o) (small : o < 2 ^ 32) :
    withFile elfBuffer n file m (elfBuffer + BitVec.ofNat 32 o) =
      m (elfBuffer + BitVec.ofNat 32 o) := by
  have offset : (elfBuffer + BitVec.ofNat 32 o - elfBuffer).toNat = o := by bv_omega
  apply withFile_of_not_inRange
  rw [InRange, offset]
  exact Nat.not_lt.mpr above

theorem withFile_agree (outside : ∀ a, ¬ InRange elfBuffer elfBufferSize a → m a = m' a) :
    Agree elfBuffer n ⟨withFile elfBuffer n file m, []⟩ ⟨withFile elfBuffer n file m', []⟩ := by
  refine ⟨rfl, fun a fresh => ?_⟩
  by_cases read : InRange elfBuffer n a
  · exact (if_pos read).trans (if_pos read).symm
  · have beyond := (or_iff_left (not_or.mpr ⟨read, List.not_mem_nil⟩)).mp fresh
    simp only [withFile_of_not_inRange read]
    exact outside a beyond

/-- A file that is long enough, and whose segments keep off its headers, is read without
what earlier loads have left. -/
theorem LongEnough.readsOwn (long : LongEnough m elfBuffer n) (keeps : KeepsHeaders m elfBuffer) :
    ReadsOwn m elfBuffer n := by
  refine .inr ⟨Nat.le_trans (by decide) long.header, fun r round => ?_⟩
  obtain ⟨below, loaded⟩ := (mem_segmentRounds keeps).1 r round
  obtain ⟨header, apart⟩ := loaded.round keeps below
  have field : ∀ o, o + 4 ≤ phdrSize →
      FreshRange elfBuffer n r.2 (phdrAt (tableAt m elfBuffer) r.1 + BitVec.ofNat 32 o) 4 :=
    fun o inside x within => .inr (.inl (long.inRange_field below inside within))
  refine ⟨field 0 (by decide), fun _ o member => field o ?_, fun load c copied => ?_⟩
  · have short : ∀ o ∈ [4, 8, 16, 20], o + 4 ≤ phdrSize := by decide
    exact short o member
  · rw [← header] at apart
    have inside := (mem_copyRounds elfBuffer (apart (header ▸ load))).1 c copied
    rw [header] at load inside ⊢
    exact .inr (.inl (long.inRange_source (headerAt_mem below) load inside))

theorem Agree.wrong_iff {c : Nat × Byte} (agree : Agree elfBuffer n ⟨m, []⟩ ⟨m', []⟩)
    (below : c.1 < n) : Wrong m elfBuffer c ↔ Wrong m' elfBuffer c := by
  have same : m (elfBuffer + BitVec.ofNat 32 c.1) = m' (elfBuffer + BitVec.ofNat 32 c.1) :=
    agree.mem _ (.inr (.inl (inRange_add elfBuffer below)))
  rw [Wrong, Wrong, same]

theorem sameLoad_of_rejected {bytes : Int} (left : elfVerify (elf32Hdr m elfBuffer) ≠ .ok ())
    (right : elfVerify (elf32Hdr m' elfBuffer) ≠ .ok ()) :
    SameLoad (some (elfLoadRead elfBuffer bytes m)) (some (elfLoadRead elfBuffer bytes m')) := by
  obtain ⟨u, rejected⟩ := elfLoadRead_rejected_iff.mpr (.inr left : bytes < 0 ∨ _)
  obtain ⟨u', rejected'⟩ := elfLoadRead_rejected_iff.mpr (.inr right : bytes < 0 ∨ _)
  rw [rejected, rejected']
  exact trivial

theorem ReadsOwn.sameLoad (own : ReadsOwn m elfBuffer n)
    (agree : Agree elfBuffer n ⟨m, []⟩ ⟨m', []⟩) :
    SameLoad (some (elfLoadRead elfBuffer (n : Int) m))
      (some (elfLoadRead elfBuffer (n : Int) m')) := by
  rcases own with ⟨c, checked, below, wrong⟩ | ⟨header, fresh⟩
  · refine sameLoad_of_rejected ?_ ?_ <;> rw [ne_eq, elfVerify_eq_ok_iff] <;> intro right
    · exact right c checked wrong
    · exact right c checked ((agree.wrong_iff below).mp wrong)
  · have short : ∀ c ∈ checkedBytes, c.1 < 46 := by decide
    have verify : elfVerify (elf32Hdr m elfBuffer) = .ok () ↔
        elfVerify (elf32Hdr m' elfBuffer) = .ok () := by
      rw [elfVerify_eq_ok_iff, elfVerify_eq_ok_iff]
      exact forall₂_congr fun c checked =>
        not_congr (agree.wrong_iff (Nat.lt_of_lt_of_le (short c checked) header))
    by_cases accepted : elfVerify (elf32Hdr m elfBuffer) = .ok ()
    · have final := agree_segmentLoop header agree fresh
      have nonneg : (0 : Int) ≤ n := Int.natCast_nonneg n
      rw [elfLoadRead_entered nonneg accepted, elfLoadRead_entered nonneg (verify.mp accepted)]
      exact ⟨final.read32 (freshRange_of_le elfBuffer _ (by omega)), final.stored,
        fun a stored => final.mem a (.inr (.inr stored))⟩
    · exact sameLoad_of_rejected accepted fun ok => accepted (verify.mpr ok)

/-- A load that reads no byte that an earlier one has left does the same whatever these
have left. -/
theorem load_own_bytes (outside : ∀ a, ¬ InRange elfBuffer elfBufferSize a → m a = m' a)
    (own : OwnReads disk fs name elfBuffer m) :
    SameLoad (elfLoadToEntry disk fs name elfBuffer m)
      (elfLoadToEntry disk fs name elfBuffer m') := by
  obtain ⟨bytes, n, file, -, count, reads⟩ := exists_read disk fs name
  obtain ⟨b, read, memory⟩ := reads elfBuffer m
  obtain ⟨b', read', memory'⟩ := reads elfBuffer m'
  rw [elfLoadToEntry_of_read read, elfLoadToEntry_of_read read', memory, memory']
  rcases count with rfl | rfl
  · exact trivial
  · have own := own n b read (Int.natCast_nonneg n)
    rw [memory, Int.toNat_natCast] at own
    exact own.sameLoad (withFile_agree outside)

/-- Memory in which all bytes that `elf_verify` looks at are what it wants. -/
def goodHeader (elfBuffer : Word) : Memory :=
  fun a => ((checkedBytes.find? fun c => c.1 = (a - elfBuffer).toNat).map Prod.snd).getD 0#8

theorem not_wrong_goodHeader {c : Nat × Byte} (elfBuffer : Word) (checked : c ∈ checkedBytes) :
    ¬ Wrong (goodHeader elfBuffer) elfBuffer c := by
  have small : ∀ c ∈ checkedBytes, c.1 < 2 ^ 32 ∧
      ((checkedBytes.find? fun d => d.1 = c.1).map Prod.snd).getD 0#8 = c.2 := by
    decide
  obtain ⟨index, value⟩ := small c checked
  have offset : (elfBuffer + BitVec.ofNat 32 c.1 - elfBuffer).toNat = c.1 := by bv_omega
  rw [Wrong, not_not, goodHeader, offset]
  exact value

/-- Whether a file is rejected depends on the file alone if and only if the read fails, it
covers the bytes that `elf_verify` looks at, or one of the bytes read is wrong. -/
theorem decision_iff (disk : Disk) (fs : Fat16) (name : Fin 11 → Byte) (elfBuffer : Word) :
    ∃ (bytes : Int) (n : Nat) (file : Memory), n ≤ elfBufferSize ∧ (bytes = -1 ∨ bytes = n) ∧
      (∀ m, elfLoadToEntry disk fs name elfBuffer m =
        some (elfLoadRead elfBuffer bytes (withFile elfBuffer n file m))) ∧
      ((∀ m m', (∀ a, ¬ InRange elfBuffer elfBufferSize a → m a = m' a) →
          ((∃ u, elfLoadToEntry disk fs name elfBuffer m = some (.rejected u)) ↔
            ∃ u, elfLoadToEntry disk fs name elfBuffer m' = some (.rejected u))) ↔
        bytes < 0 ∨ 20 ≤ n ∨ ∃ c ∈ checkedBytes, c.1 < n ∧ Wrong file 0#32 c) := by
  obtain ⟨bytes, n, file, le, count, reads⟩ := exists_read disk fs name
  have load : ∀ m, elfLoadToEntry disk fs name elfBuffer m =
      some (elfLoadRead elfBuffer bytes (withFile elfBuffer n file m)) := by
    intro m
    obtain ⟨b, read, memory⟩ := reads elfBuffer m
    rw [elfLoadToEntry_of_read read, memory]
  have wrong : ∀ m c, c.1 < n → (Wrong (withFile elfBuffer n file m) elfBuffer c ↔
      Wrong file 0#32 c) := by
    intro m c below
    rw [Wrong, Wrong, withFile_same elfBuffer n file m c.1 below]
  refine ⟨bytes, n, file, le, count, load, ?_⟩
  simp only [load, Option.some.injEq, elfLoadRead_rejected_iff, ne_eq, elfVerify_eq_ok_iff]
  constructor
  · intro same
    rw [or_iff_not_imp_left, or_iff_not_imp_left]
    intro nonneg short
    by_contra right
    -- The last byte that is looked at has not been read, and decides.
    let bad : Memory := (goodHeader elfBuffer).write8 (elfBuffer + 19#32) 0xFF#8
    have outside : ∀ a, ¬ InRange elfBuffer elfBufferSize a → goodHeader elfBuffer a = bad a := by
      intro a beyond
      refine (write8_apply_of_ne fun here => beyond ?_).symm
      exact here ▸ inRange_add elfBuffer (by decide)
    have accepted : ∀ c ∈ checkedBytes,
        ¬ Wrong (withFile elfBuffer n file (goodHeader elfBuffer)) elfBuffer c := by
      intro c checked
      by_cases below : c.1 < n
      · exact fun wrong_ => right ⟨c, checked, below, (wrong _ c below).mp wrong_⟩
      · have small : ∀ c ∈ checkedBytes, c.1 < 2 ^ 32 := by decide
        rw [Wrong, withFile_of_le (Nat.le_of_not_lt below) (small c checked)]
        exact not_wrong_goodHeader elfBuffer checked
    have rejected : Wrong (withFile elfBuffer n file bad) elfBuffer (19, 0#8) := by
      have stored : bad (elfBuffer + 19#32) = 0xFF#8 := write8_self _ _ _
      rw [Wrong, withFile_of_le (by omega) (by decide), stored]
      decide
    have both := (same _ _ outside).mpr (.inr fun all => all _ (by decide) rejected)
    exact both.elim nonneg fun bad_ => bad_ accepted
  · rintro (negative | long | ⟨c, checked, below, bad⟩) m m' outside
    · exact iff_of_true (.inl negative) (.inl negative)
    · have short : ∀ c ∈ checkedBytes, c.1 < 20 := by decide
      refine or_congr_right (not_congr (forall₂_congr fun c checked => not_congr ?_))
      have below := Nat.lt_of_lt_of_le (short c checked) long
      exact (wrong m c below).trans (wrong m' c below).symm
    · have never : ∀ m, ¬ ∀ c ∈ checkedBytes, ¬ Wrong (withFile elfBuffer n file m) elfBuffer c :=
        fun m all => all c checked ((wrong m c below).mpr bad)
      exact iff_of_true (.inr (never m)) (.inr (never m'))

/-- The headers of a well-formed file, and what they announce, are within the file. -/
theorem WellFormed.longEnough (wellFormed : WellFormed file n elfBuffer)
    (same : SameBytes m elfBuffer file 0#32 n) : LongEnough m elfBuffer n := by
  have header := elf32Hdr_buffered same wellFormed.header
  have count : headerCount m elfBuffer = headerCount file 0#32 := by
    rw [headerCount, headerCount, header]
  refine ⟨wellFormed.header, ?_, fun ph member load => ?_⟩
  · rw [count, header]
    exact or_iff_not_imp_left.mpr wellFormed.table
  · rw [wellFormed.programHeaders_eq same] at member
    refine or_iff_not_imp_left.mpr fun some_ => wellFormed.source ph member load fun zero => ?_
    exact some_ (congrArg BitVec.toNat zero)

/-- A well-formed file is read without what earlier loads have left. -/
theorem WellFormed.ownReads (m : Memory) (found : lookup (rootSlots sectors fs) name = some e)
    (small : e.fileSize.toNat ≤ elfBufferSize)
    (wellFormed : WellFormed (fileBytes sectors fs e) e.fileSize.toNat elfBuffer) :
    OwnReads (readable sectors) fs name elfBuffer m := by
  intro bytes buffer read _
  obtain ⟨b, same, memory⟩ := read_file elfBuffer m found small
  obtain ⟨rfl, rfl⟩ := Prod.mk.inj (Option.some.inj (read.symm.trans same))
  have file := withFile_same elfBuffer e.fileSize.toNat (fileBytes sectors fs e) m
  rw [memory, Int.toNat_natCast]
  exact (wellFormed.longEnough file).readsOwn (wellFormed.keepsHeaders file small)

/-- The small program is loaded alike into zeros and after an earlier load. -/
theorem load_own_bytes_tiny :
    SameLoad
      (elfLoadToEntry (readable (oneFile 85 (tinyElf 0x300000))) fragmentedFs
        (oneFileEntry 85).fatName 0x110000#32 fun _ => 0#8)
      (elfLoadToEntry (readable (oneFile 85 (tinyElf 0x300000))) fragmentedFs
        (oneFileEntry 85).fatName 0x110000#32 tinyLoaded) := by
  have small : (oneFileEntry 85).fileSize.toNat ≤ elfBufferSize := by decide +kernel
  exact load_own_bytes (fun a outside => (tinyLoaded_outside outside).symm)
    (wellFormed_tiny.ownReads _ lookup_tiny small)

/-- The empty file is loaded or not, depending on what an earlier load has left. -/
theorem load_own_bytes_empty :
    (∀ a, ¬ InRange 0x110000#32 elfBufferSize a → tinyLoaded a = (fun _ => 0#8 : Memory) a) ∧
      ¬ SameLoad
        (elfLoadToEntry (readable (oneFile 0 [])) fragmentedFs (oneFileEntry 0).fatName
          0x110000#32 tinyLoaded)
        (elfLoadToEntry (readable (oneFile 0 [])) fragmentedFs (oneFileEntry 0).fatName
          0x110000#32 fun _ => 0#8) := by
  refine ⟨fun a outside => tinyLoaded_outside outside, ?_⟩
  have zeros : elfVerify (elf32Hdr (fun _ => 0#8) 0x110000#32) ≠ .ok () := by decide +kernel
  obtain ⟨u, rejected⟩ := elfLoadRead_rejected_iff.mpr (.inr zeros : (0 : Int) < 0 ∨ _)
  rw [elfLoadToEntry_empty, elfLoadToEntry_empty, rejected,
    elfLoadRead_entered (Int.le_refl 0) elfVerify_tinyLoaded]
  exact id

end Learnix
