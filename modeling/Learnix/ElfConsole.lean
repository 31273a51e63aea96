import Learnix.ElfHistory
import Learnix.Paging
import Learnix.Transcript

/-!
# Loading a program with the screen in memory

`elf_load` with what it prints. The text screen is memory like any other: a call of `vga.c`
reads and writes the cells from 0xB8000 on, between and after the stores of the segments, and
a segment may be stored on them. An access to an address that `paging_init` does not map
faults. The code of the kernel, its stack and its variables, those of `vga.c` and the page
tables among them, are taken to be apart from the segments.

Off the screen `elf_load` does what it does without the prints (`elfLoad_agrees`), as long as
no round of its loops goes to the screen or to what is not mapped.
-/

namespace Learnix

open Machine Memory ForLoop

/-! ## The text screen -/

/-- `VGA_ADDRESS`. -/
def vgaAddress : Word := 0xB8000#32

/-- The bytes of the cells. -/
def screenBytes : Nat := 2 * (vgaCols * vgaRows)

def OnTextScreen (a : Word) : Prop := InRange vgaAddress screenBytes a

instance (a : Word) : Decidable (OnTextScreen a) :=
  inferInstanceAs (Decidable (InRange vgaAddress screenBytes a))

/-- Memory, and the variables of `vga.c` with the cursor on the screen. -/
structure Console where
  mem : Memory
  cursorX : Int
  cursorY : Int
  currentColor : Byte
  onScreen : (0 ≤ cursorX ∧ cursorX < vgaCols) ∧ 0 ≤ cursorY ∧ cursorY < vgaRows

/-- What `vga.c` finds: the cells that lie in memory. -/
def Console.vga (c : Console) : Vga where
  cells i := c.mem.read16 (vgaAddress + BitVec.ofInt 32 (2 * i))
  cursorX := c.cursorX
  cursorY := c.cursorY
  currentColor := c.currentColor
  trace := ⟨[], [], [], []⟩

/-- A call of `vga.c` that `elf_load` makes, with what its buffer of digits holds. -/
inductive Piece
  | color (fg : Byte)
  | text (s : String)
  | string (str : CString)
  | int (n : Word)
  | hex (n : Word)

def Piece.call (buf : Int → Byte) : Piece → VgaCall
  | color fg => .setColor fg vgaBlack
  | text s => .print (literalText s)
  | string str => .print str
  | int n => .printInt n buf
  | hex n => .printHex n buf

/-- The calls one after the other. -/
def Console.shown (buf : Int → Byte) (pieces : List Piece) (c : Console) : Vga :=
  pieces.foldl (fun s p => (p.call buf).run s) c.vga

/-- They use no cell but those of the screen, and the cursor stays there. -/
theorem Console.shown_inside (buf : Int → Byte) (pieces : List Piece) (c : Console) :
    VgaInside (c.shown buf pieces) := by
  have start : VgaInside c.vga := by
    refine ⟨c.onScreen.1, c.onScreen.2, ?_⟩
    constructor <;> exact fun _ member => absurd member List.not_mem_nil
  unfold Console.shown
  generalize c.vga = s at start
  induction pieces generalizing s with
  | nil => exact start
  | cons p pieces ih =>
      have placed : (p.call buf).PlacedOnScreen := by cases p <;> exact trivial
      exact ih _ ((p.call buf).run_inside placed start)

/-- The cells are put back where they lie. -/
def Console.print (buf : Int → Byte) (pieces : List Piece) (c : Console) : Console where
  mem a :=
    if OnTextScreen a then
      let cell := (c.shown buf pieces).cells (((a - vgaAddress).toNat / 2 : Nat) : Int)
      if (a - vgaAddress).toNat % 2 = 0 then cell.extractLsb' 0 8 else cell.extractLsb' 8 8
    else c.mem a
  cursorX := (c.shown buf pieces).cursorX
  cursorY := (c.shown buf pieces).cursorY
  currentColor := (c.shown buf pieces).currentColor
  onScreen := ⟨(c.shown_inside buf pieces).x, (c.shown_inside buf pieces).y⟩

theorem Console.print_mem {buf : Int → Byte} {pieces : List Piece} {c : Console} {a : Word}
    (outside : ¬ OnTextScreen a) : (c.print buf pieces).mem a = c.mem a :=
  if_neg outside

/-! ## Mapped memory -/

/-- `paging_init` maps `a`. -/
def Mapped (a : Word) : Prop := a.toNat < 0x400000

instance (a : Word) : Decidable (Mapped a) := inferInstanceAs (Decidable (a.toNat < 0x400000))

theorem mapped_iff {tableAddr : Word} {others : Word → PageWalk.Table}
    (aligned : PageWalk.Aligned tableAddr) (s : PagingState) (a : Word) :
    Mapped a ↔ translate tableAddr others (pagingInit tableAddr s) a = some a := by
  rw [translate_pagingInit aligned, Mapped]
  split
  case isTrue low => exact iff_of_true low rfl
  case isFalse high => exact iff_of_false high (Option.some_ne_none a).symm

namespace Console

def load (a : Word) (c : Console) : Except Word Byte :=
  if Mapped a then .ok (c.mem a) else .error a

/-- The four bytes lie together, so that the first and the last one tell. -/
def load32 (a : Word) (c : Console) : Except Word Word :=
  if Mapped a ∧ Mapped (a + 3#32) then .ok (c.mem.read32 a) else .error a

def store (a : Word) (v : Byte) (c : Console) : Except Word Console :=
  if Mapped a then .ok { c with mem := c.mem.write8 a v } else .error a

end Console

/-! ## `elf_load` -/

section Load

variable (buf : Int → Byte)

/-- What `elf_verify` prints. -/
def ElfError.pieces : ElfError → List Piece
  | magic => [.color vgaLightRed, .text "[ELF] ERROR: Magic bytes invalidos\n"]
  | class32 => [.color vgaLightRed, .text "[ELF] ERROR: Solo se soporta ELF 32-bit\n"]
  | littleEndian => [.color vgaLightRed, .text "[ELF] ERROR: Solo se soporta little endian\n"]
  | executable => [.color vgaLightRed, .text "[ELF] ERROR: No es un ejecutable (ET_EXEC)\n"]
  | machine => [.color vgaLightRed, .text "[ELF] ERROR: Solo se soporta x86 (EM_386)\n"]

namespace Console

def elfPrintInfo (elfBuffer : Word) (c : Console) : Console :=
  let c := c.print buf [.color vgaLightCyan, .text "[ELF] Informacion del ejecutable:\n",
    .color vgaWhite, .text "[ELF] Entry point: 0x"]
  let c := c.print buf [.hex (elf32Hdr c.mem elfBuffer).eEntry, .text "\n",
    .text "[ELF] Program Headers: "]
  let c := c.print buf [.int ((elf32Hdr c.mem elfBuffer).ePhnum.setWidth 32), .text "\n",
    .text "[ELF] Section Headers: "]
  -- `e_shnum` matters to nothing else.
  c.print buf [.int ((c.mem.read16 (elfBuffer + 48#32)).setWidth 32), .text "\n"]

/-- `dest[b] = src[b]`. -/
def copyByte (dest src : Word) (b : Nat) (c : Console) : Except Word Console := do
  let v ← c.load (src + BitVec.ofNat 32 b)
  c.store (dest + BitVec.ofNat 32 b) v

/-- `dest[b] = 0`. -/
def zeroByte (dest : Word) (b : Nat) (c : Console) : Except Word Console :=
  c.store (dest + BitVec.ofNat 32 b) 0#8

/-- The two loops for the header at `ph`. -/
def storeSegment (dest src ph : Word) (c : Console) : Except Word Console := do
  let c ← forLoopE (load32 (ph + 16#32)) (copyByte dest src) 0 c
  let filesz ← c.load32 (ph + 16#32)
  forLoopE (load32 (ph + 20#32)) (zeroByte dest) filesz.toNat c

/-- The line that is printed for header `i`, which lies at `ph`. -/
def printSegment (ph : Word) (i : Nat) (c : Console) : Except Word Console := do
  let c := c.print buf [.color vgaWhite, .text "[ELF] Segmento ", .int (BitVec.ofNat 32 i),
    .text ": 0x"]
  let vaddr ← c.load32 (ph + 8#32)
  let c := c.print buf [.hex vaddr, .text " size="]
  let filesz ← c.load32 (ph + 16#32)
  .ok (c.print buf [.int filesz, .text " bytes\n"])

/-- The body of the loop over the program headers for a `PT_LOAD` header at `ph`. -/
def loadSegment (elfBuffer ph : Word) (i : Nat) (c : Console) : Except Word Console := do
  let dest ← c.load32 (ph + 8#32)
  let offset ← c.load32 (ph + 4#32)
  let c ← c.printSegment buf ph i
  c.storeSegment dest (elfBuffer + offset) ph

/-- The body of the loop, with `segmentos_cargados`. -/
def segmentBody (elfBuffer phdrs : Word) (i : Nat) : Console × Word →
    Except Word (Console × Word) := fun (c, segmentosCargados) => do
  let type ← c.load32 (phdrAt phdrs i + 0#32)
  if type ≠ ptLoad then .ok (c, segmentosCargados)
  else
    let c ← c.loadSegment buf elfBuffer (phdrAt phdrs i) i
    .ok (c, segmentosCargados + 1#32)

end Console

/-- What `elf_load` comes to: it returns -1, or it is about to call the entry point, or it
has come to an address that is not mapped. -/
inductive ElfOutcome
  | rejected (c : Console)
  | entered (entry : Word) (c : Console)
  | faulted (a : Word)

/-- From the loop over the program headers on. -/
def Console.elfLoadSegments (elfBuffer : Word) (c : Console) : ElfOutcome :=
  let phdrs := elfBuffer + (elf32Hdr c.mem elfBuffer).ePhoff
  match forLoopE (fun s => .ok (elf32Hdr s.1.mem elfBuffer).ePhnum)
      (Console.segmentBody buf elfBuffer phdrs) 0 (c, 0#32) with
  | .error a => .faulted a
  | .ok (c, segmentosCargados) =>
    let c := c.print buf [.color vgaWhite, .text "[ELF] Segmentos cargados: ",
      .int segmentosCargados, .text "\n"]
    .entered (elf32Hdr c.mem elfBuffer).eEntry
      (c.print buf [.color vgaYellow, .color vgaYellow,
        .text "[ELF] Saltando al entry point directamente...\n"])

/-- What follows the read, when it returned `bytes`. -/
def Console.elfLoadRead (elfBuffer : Word) (bytes : Int) (c : Console) : ElfOutcome :=
  if bytes < 0 then
    .rejected (c.print buf [.color vgaLightRed, .text "[ELF] ERROR: No se encontro el archivo\n"])
  else
    let c := c.print buf [.color vgaWhite, .text "[ELF] Bytes leidos: ",
      .int (BitVec.ofInt 32 bytes), .text "\n"]
    match elfVerify (elf32Hdr c.mem elfBuffer) with
    | .error e => .rejected (c.print buf e.pieces)
    | .ok () => (c.elfPrintInfo buf elfBuffer).elfLoadSegments buf elfBuffer

/-- The first line that `elf_load` prints. -/
def Console.printLoading (filename : CString) (c : Console) : Console :=
  c.print buf [.color vgaLightCyan, .text "[ELF] Cargando ejecutable: ", .string filename,
    .text "\n"]

/-- `elf_load` up to `entry()`, with `elf_buffer` at `elfBuffer`. The first 11 characters of
`filename`, with what follows its NUL, are `name`. -/
def Console.elfLoad (disk : Disk) (fs : Fat16) (filename : CString) (name : Fin 11 → Byte)
    (elfBuffer : Word) (c : Console) : Option ElfOutcome :=
  let c := c.printLoading buf filename
  (fat16ReadFile disk fs name (fun k => c.mem (elfBuffer + k))
      (BitVec.ofNat 32 elfBufferSize)).map fun (bytes, buffer) =>
    { c with mem := afterRead elfBuffer buffer }.elfLoadRead buf elfBuffer bytes

end Load

/-! ## What happens off the screen -/

/-- The same bytes everywhere but on the text screen. -/
def OffScreen (m m' : Memory) : Prop := ∀ a, ¬ OnTextScreen a → m a = m' a

/-- `a` is mapped, and not on the text screen. -/
def Quiet (a : Word) : Prop := Mapped a ∧ ¬ OnTextScreen a

def QuietRange (a : Word) (k : Nat) : Prop := ∀ x, InRange a k x → Quiet x

/-- The rounds of the loop that sets the `.bss` to zero. -/
def zeroRounds (dest ph : Word) (l : Loader) : List (Nat × Loader) :=
  rounds (fun l => (elf32Phdr l.mem ph).pMemsz) (zeroByte dest) (elf32Phdr l.mem ph).pFilesz.toNat l

/-- Whatever a round for the header at `ph` reads and stores is quiet. -/
structure QuietSegment (elfBuffer ph : Word) (l : Loader) : Prop where
  type : QuietRange (ph + 0#32) 4
  fields : (elf32Phdr l.mem ph).pType = ptLoad →
    ∀ o ∈ [4, 8, 16, 20], QuietRange (ph + BitVec.ofNat 32 o) 4
  copied : (elf32Phdr l.mem ph).pType = ptLoad → ∀ r ∈ copyRounds elfBuffer ph l,
    Quiet (elfBuffer + (elf32Phdr l.mem ph).pOffset + BitVec.ofNat 32 r.1) ∧
      Quiet ((elf32Phdr l.mem ph).pVaddr + BitVec.ofNat 32 r.1)
  zeroed : (elf32Phdr l.mem ph).pType = ptLoad →
    ∀ r ∈ zeroRounds (elf32Phdr l.mem ph).pVaddr ph (copySegment elfBuffer ph l),
      Quiet ((elf32Phdr l.mem ph).pVaddr + BitVec.ofNat 32 r.1)

/-- Whatever the loops read and store is quiet. -/
def QuietLoad (m : Memory) (elfBuffer : Word) : Prop :=
  ∀ r ∈ segmentRounds m elfBuffer, QuietSegment elfBuffer (phdrAt (tableAt m elfBuffer) r.1) r.2

/-- The same outcome, and the same memory off the screen. -/
def Agrees : ElfOutcome → ElfLoad → Prop
  | .rejected c, .rejected m => OffScreen c.mem m
  | .entered entry c, .entered entry' l => entry = entry' ∧ OffScreen c.mem l.mem
  | _, _ => False

variable {m m' file : Memory} {a dest elfBuffer h phdrs src : Word} {i k n : Nat} {v : Byte}
  {c : Console} {l : Loader} {buf : Int → Byte} {pieces : List Piece} {disk : Disk} {fs : Fat16}
  {filename : CString} {name : Fin 11 → Byte} {sectors : Word → Sector} {e : Entry}

theorem offScreen_print (buf : Int → Byte) (pieces : List Piece) (c : Console) :
    OffScreen (c.print buf pieces).mem c.mem :=
  fun _ outside => Console.print_mem outside

theorem OffScreen.trans {m'' : Memory} (same : OffScreen m m') (same' : OffScreen m' m'') :
    OffScreen m m'' :=
  fun a outside => (same a outside).trans (same' a outside)

theorem OffScreen.print (same : OffScreen c.mem m) (buf : Int → Byte) (pieces : List Piece) :
    OffScreen (c.print buf pieces).mem m :=
  (offScreen_print buf pieces c).trans same

theorem OffScreen.elfPrintInfo (same : OffScreen c.mem m) (buf : Int → Byte) (elfBuffer : Word) :
    OffScreen (c.elfPrintInfo buf elfBuffer).mem m :=
  (((same.print buf _).print buf _).print buf _).print buf _

theorem OffScreen.load (same : OffScreen c.mem m) (quiet : Quiet a) : c.load a = .ok (m a) := by
  rw [Console.load, if_pos quiet.1, same a quiet.2]

theorem OffScreen.load32 (same : OffScreen c.mem m) (quiet : QuietRange a 4) :
    c.load32 a = .ok (m.read32 a) := by
  have first : InRange a 4 a := by
    unfold InRange
    bv_omega
  have last : InRange a 4 (a + 3#32) := by
    unfold InRange
    bv_omega
  rw [Console.load32, if_pos ⟨(quiet a first).1, (quiet _ last).1⟩]
  exact congrArg Except.ok (read32_congr fun x inside => same x (quiet x inside).2)

theorem OffScreen.store (same : OffScreen c.mem m) (quiet : Quiet a) :
    ∃ c', c.store a v = .ok c' ∧ OffScreen c'.mem (m.write8 a v) := by
  rw [Console.store, if_pos quiet.1]
  refine ⟨_, rfl, fun x outside => ?_⟩
  show c.mem.write8 a v x = m.write8 a v x
  by_cases here : x = a
  · rw [here, write8_self, write8_self]
  · rw [write8_apply_of_ne here, write8_apply_of_ne here]
    exact same x outside

/-- The bytes of `elf_buffer`, when it is off the screen. -/
theorem OffScreen.elf32Hdr_eq (same : OffScreen c.mem m)
    (apart : Sep elfBuffer elfBufferSize vgaAddress screenBytes) :
    elf32Hdr c.mem elfBuffer = elf32Hdr m elfBuffer := by
  apply elf32Hdr_congr
  apply SameBytes.of_inRange
  intro x inside
  exact same x (apart x (Nat.lt_trans inside (by decide)))

/-- The two loops of a segment, with the sizes read again in every round. -/
theorem QuietSegment.storeSegment (quiet : QuietSegment elfBuffer h l)
    (load : (elf32Phdr l.mem h).pType = ptLoad) (same : OffScreen c.mem l.mem) :
    ∃ c', c.storeSegment (elf32Phdr l.mem h).pVaddr (elfBuffer + (elf32Phdr l.mem h).pOffset) h =
        .ok c' ∧ OffScreen c'.mem (loadSegment elfBuffer h l).mem := by
  have fields := quiet.fields load
  rcases forLoopE_refines (Console.load32 (h + 16#32))
      (Console.copyByte (elf32Phdr l.mem h).pVaddr (elfBuffer + (elf32Phdr l.mem h).pOffset))
      (fun l : Loader => (elf32Phdr l.mem h).pFilesz)
      (copyByte (elf32Phdr l.mem h).pVaddr (elfBuffer + (elf32Phdr l.mem h).pOffset))
      (R := fun c l => OffScreen c.mem l.mem) same
      (fun c' l' same' => same'.load32 (fields 16 (by decide)))
      (fun j c' l' round same' => by
        obtain ⟨source, target⟩ := quiet.copied load (j, l') round
        rw [Console.copyByte, same'.load source]
        exact same'.store target) with ⟨c₁, copy, same₁⟩
  rcases forLoopE_refines (Console.load32 (h + 20#32))
      (Console.zeroByte (elf32Phdr l.mem h).pVaddr)
      (fun l : Loader => (elf32Phdr l.mem h).pMemsz) (zeroByte (elf32Phdr l.mem h).pVaddr)
      (R := fun c l => OffScreen c.mem l.mem)
      (i := (elf32Phdr (copySegment elfBuffer h l).mem h).pFilesz.toNat) same₁
      (fun c' l' same' => same'.load32 (fields 20 (by decide)))
      (fun j c' l' round same' => same'.store (quiet.zeroed load (j, l') round))
    with ⟨c₂, zero, same₂⟩
  refine ⟨c₂, ?_, same₂⟩
  have filesz : c₁.load32 (h + 16#32) =
      .ok (elf32Phdr (copySegment elfBuffer h l).mem h).pFilesz :=
    same₁.load32 (fields 16 (by decide))
  rw [Console.storeSegment, copy]
  simp only [bind, Except.bind, filesz]
  exact zero

theorem QuietSegment.printSegment (quiet : QuietSegment elfBuffer h l)
    (load : (elf32Phdr l.mem h).pType = ptLoad) (same : OffScreen c.mem l.mem) (buf : Int → Byte)
    (i : Nat) :
    ∃ c', c.printSegment buf h i = .ok c' ∧ OffScreen c'.mem l.mem := by
  have fields := quiet.fields load
  rw [Console.printSegment]
  simp only [bind, Except.bind, (same.print buf _).load32 (fields 8 (by decide)),
    ((same.print buf _).print buf _).load32 (fields 16 (by decide))]
  exact ⟨_, rfl, ((same.print buf _).print buf _).print buf _⟩

theorem QuietSegment.segmentBody {count : Word}
    (quiet : QuietSegment elfBuffer (phdrAt phdrs i) l) (same : OffScreen c.mem l.mem) :
    ∃ s, Console.segmentBody buf elfBuffer phdrs i (c, count) = .ok s ∧
      OffScreen s.1.mem (segmentBody elfBuffer phdrs i l).mem := by
  have type : c.load32 (phdrAt phdrs i + 0#32) =
      .ok (elf32Phdr l.mem (phdrAt phdrs i)).pType := same.load32 quiet.type
  rw [Console.segmentBody, Learnix.segmentBody]
  simp only [bind, Except.bind, type]
  split
  case isTrue => exact ⟨_, rfl, same⟩
  case isFalse load =>
    have load := not_not.mp load
    have fields := quiet.fields load
    have dest : c.load32 (phdrAt phdrs i + 8#32) =
        .ok (elf32Phdr l.mem (phdrAt phdrs i)).pVaddr := same.load32 (fields 8 (by decide))
    have offset : c.load32 (phdrAt phdrs i + 4#32) =
        .ok (elf32Phdr l.mem (phdrAt phdrs i)).pOffset := same.load32 (fields 4 (by decide))
    obtain ⟨c₁, print, same₁⟩ := quiet.printSegment load same buf i
    obtain ⟨c₂, store, same₂⟩ := quiet.storeSegment load same₁
    rw [Console.loadSegment]
    simp only [bind, Except.bind, dest, offset, print, store]
    exact ⟨_, rfl, same₂⟩

/-- From the loop over the program headers on. -/
theorem QuietLoad.elfLoadSegments (quiet : QuietLoad m elfBuffer) (buf : Int → Byte)
    (same : OffScreen c.mem m) (apart : Sep elfBuffer elfBufferSize vgaAddress screenBytes) :
    ∃ entry c', c.elfLoadSegments buf elfBuffer = .entered entry c' ∧
      entry = (elf32Hdr (segmentLoop elfBuffer (tableAt m elfBuffer) ⟨m, []⟩).mem
        elfBuffer).eEntry ∧
      OffScreen c'.mem (segmentLoop elfBuffer (tableAt m elfBuffer) ⟨m, []⟩).mem := by
  have table : elfBuffer + (elf32Hdr c.mem elfBuffer).ePhoff = tableAt m elfBuffer := by
    rw [same.elf32Hdr_eq apart]
    rfl
  have round : ∀ j (s : Console × Word) l, (j, l) ∈ segmentRounds m elfBuffer →
      OffScreen s.1.mem l.mem →
      ∃ s', Console.segmentBody buf elfBuffer (tableAt m elfBuffer) j s = .ok s' ∧
        OffScreen s'.1.mem (segmentBody elfBuffer (tableAt m elfBuffer) j l).mem := by
    rintro j ⟨c', count⟩ l member same'
    exact (quiet (j, l) member).segmentBody same'
  have bound : ∀ (s : Console × Word) (l : Loader), OffScreen s.1.mem l.mem →
      (Except.ok (elf32Hdr s.1.mem elfBuffer).ePhnum : Except Word (BitVec 16)) =
        .ok (elf32Hdr l.mem elfBuffer).ePhnum := by
    intro s l same'
    rw [same'.elf32Hdr_eq apart]
  rcases forLoopE_refines (fun s : Console × Word => .ok (elf32Hdr s.1.mem elfBuffer).ePhnum)
      (Console.segmentBody buf elfBuffer (tableAt m elfBuffer))
      (fun l : Loader => (elf32Hdr l.mem elfBuffer).ePhnum)
      (segmentBody elfBuffer (tableAt m elfBuffer)) (s := (c, 0#32)) (t := ⟨m, []⟩) (i := 0)
      (R := fun s l => OffScreen s.1.mem l.mem) same bound round with ⟨⟨c₁, count⟩, loop, same₁⟩
  have printed := same₁.print buf [.color vgaWhite, .text "[ELF] Segmentos cargados: ",
    .int count, .text "\n"]
  rw [Console.elfLoadSegments]
  simp only [table, loop]
  refine ⟨_, _, rfl, ?_, printed.print buf _⟩
  rw [printed.elf32Hdr_eq apart]
  rfl

theorem elfLoadRead_agrees {bytes : Int} (same : OffScreen c.mem m)
    (apart : Sep elfBuffer elfBufferSize vgaAddress screenBytes)
    (quiet : 0 ≤ bytes → elfVerify (elf32Hdr m elfBuffer) = .ok () → QuietLoad m elfBuffer) :
    Agrees (c.elfLoadRead buf elfBuffer bytes) (elfLoadRead elfBuffer bytes m) := by
  rw [Console.elfLoadRead]
  split
  case isTrue fails =>
    rw [elfLoadRead, if_pos fails]
    exact same.print buf _
  case isFalse nonneg =>
    have printed := same.print buf [.color vgaWhite, .text "[ELF] Bytes leidos: ",
      .int (BitVec.ofInt 32 bytes), .text "\n"]
    simp only [printed.elf32Hdr_eq apart]
    cases verify : elfVerify (elf32Hdr m elfBuffer) with
    | error e =>
        rw [elfLoadRead, if_neg nonneg, verify]
        exact printed.print buf _
    | ok _ =>
        have nonneg := Int.not_lt.mp nonneg
        rcases (quiet nonneg verify).elfLoadSegments buf
          (printed.elfPrintInfo buf elfBuffer) apart with
          ⟨entry, c', load, entry_eq, final⟩
        rw [elfLoadRead_entered nonneg verify]
        simp only [load]
        exact ⟨entry_eq, final⟩

/-- `elf_load` with what it prints comes to what it comes to without, and off the screen with
the same memory, if it has nothing to do with the screen and with what is not mapped. -/
theorem elfLoad_agrees (buf : Int → Byte) (filename : CString) (c : Console)
    (apart : Sep elfBuffer elfBufferSize vgaAddress screenBytes)
    (quiet : ∀ bytes buffer, fat16ReadFile disk fs name (fun k => c.mem (elfBuffer + k))
        (BitVec.ofNat 32 elfBufferSize) = some (bytes, buffer) → 0 ≤ bytes →
      elfVerify (elf32Hdr (afterRead elfBuffer buffer) elfBuffer) = .ok () →
      QuietLoad (afterRead elfBuffer buffer) elfBuffer) :
    ∃ o load, c.elfLoad buf disk fs filename name elfBuffer = some o ∧
      elfLoadToEntry disk fs name elfBuffer c.mem = some load ∧ Agrees o load := by
  obtain ⟨bytes, n, file, -, -, reads⟩ := exists_read disk fs name
  obtain ⟨b, read, memory⟩ := reads elfBuffer c.mem
  obtain ⟨b', read', memory'⟩ := reads elfBuffer (c.printLoading buf filename).mem
  have same : OffScreen (afterRead elfBuffer b') (afterRead elfBuffer b) := by
    intro a outside
    rw [memory, memory']
    unfold withFile
    split
    · rfl
    · exact offScreen_print buf _ c a outside
  have load : c.elfLoad buf disk fs filename name elfBuffer =
      some ({ c.printLoading buf filename with mem := afterRead elfBuffer b' }.elfLoadRead buf
        elfBuffer bytes) := by
    simp only [Console.elfLoad, read', Option.map_some]
  exact ⟨_, _, load, elfLoadToEntry_of_read read,
    elfLoadRead_agrees same apart (quiet bytes b read)⟩

/-! ## Well-formed files -/

/-- The rounds of the loop that sets the `.bss` to zero, when the segment is not stored on
its header. -/
theorem mem_zeroRounds (elfBuffer : Word)
    (apart : Sep h phdrSize (elf32Phdr l.mem h).pVaddr (elf32Phdr l.mem h).extent)
    (sizes : (elf32Phdr l.mem h).pFilesz.toNat ≤ (elf32Phdr l.mem h).pMemsz.toNat) :
    ∀ r ∈ zeroRounds (elf32Phdr l.mem h).pVaddr h (copySegment elfBuffer h l),
      r.1 < (elf32Phdr l.mem h).pMemsz.toNat := by
  have filesz : (elf32Phdr l.mem h).pFilesz.toNat ≤ (elf32Phdr l.mem h).extent :=
    Nat.le_max_left _ _
  have memsz : (elf32Phdr l.mem h).pMemsz.toNat ≤ (elf32Phdr l.mem h).extent :=
    Nat.le_max_right _ _
  have copy := (copySegment_stores elfBuffer apart).1
  have small := (elf32Phdr l.mem h).pMemsz.isLt
  unfold zeroRounds
  rw [copy.elf32Phdr_eq filesz apart]
  have all := mem_rounds_fixed (fun l => (elf32Phdr l.mem h).pMemsz)
    (zeroByte (elf32Phdr l.mem h).pVaddr)
    (P := fun j u => Stores (elf32Phdr l.mem h).pVaddr 0 j l u) copy sizes
    (fun j u _ le stores => by rw [stores.elf32Phdr_eq (le.trans memsz) apart])
    (fun j u _ below stores => stores.store (Nat.zero_le j) (below.trans small))
  exact fun r member => (all.1 r member).1

/-- A well-formed file is loaded quietly if its segments and `elf_buffer` are off the screen
and mapped. -/
theorem WellFormed.quietLoad (wellFormed : WellFormed file n elfBuffer)
    (same : SameBytes m elfBuffer file 0#32 n) (small : n ≤ elfBufferSize)
    (buffer : QuietRange elfBuffer elfBufferSize)
    (segments : ∀ ph ∈ programHeaders file 0#32, ∀ a, ph.Covers a → Quiet a) :
    QuietLoad m elfBuffer := by
  intro r round
  have long := wellFormed.longEnough same
  have keeps := wellFormed.keepsHeaders same small
  obtain ⟨below, loaded⟩ := (mem_segmentRounds keeps).1 r round
  obtain ⟨header, apart⟩ := loaded.round keeps below
  have member := headerAt_mem below
  have listed : headerAt m elfBuffer r.1 ∈ programHeaders file 0#32 :=
    wellFormed.programHeaders_eq same ▸ member
  have inFile : ∀ x, InRange elfBuffer n x → Quiet x := fun x inside =>
    buffer x (Nat.lt_of_lt_of_le inside small)
  have field : ∀ o, o + 4 ≤ phdrSize →
      QuietRange (phdrAt (tableAt m elfBuffer) r.1 + BitVec.ofNat 32 o) 4 :=
    fun o inside x within => inFile x (long.inRange_field below inside within)
  have stored : (headerAt m elfBuffer r.1).pType = ptLoad →
      ∀ b < (headerAt m elfBuffer r.1).extent,
        Quiet ((headerAt m elfBuffer r.1).pVaddr + BitVec.ofNat 32 b) := fun load b inside =>
    segments _ listed _ ((wellFormed.covers_iff listed).mpr ⟨load, inRange_add _ inside⟩)
  refine ⟨field 0 (by decide), fun _ o offset => field o ?_, fun load b copied => ?_,
    fun load b zeroed => ?_⟩
  · have short : ∀ o ∈ [4, 8, 16, 20], o + 4 ≤ phdrSize := by decide
    exact short o offset
  · rw [← header] at apart
    have inside := (mem_copyRounds elfBuffer (apart (header ▸ load))).1 b copied
    rw [header] at load inside ⊢
    exact ⟨inFile _ (long.inRange_source member load inside),
      stored load b.1 (Nat.lt_of_lt_of_le inside (Nat.le_max_left _ _))⟩
  · have sizes := wellFormed.sizes _ listed
    rw [← header] at apart sizes
    have inside := mem_zeroRounds elfBuffer (apart load) (sizes load) b zeroed
    rw [header] at load inside ⊢
    exact stored load b.1 (Nat.lt_of_lt_of_le inside (Nat.le_max_right _ _))

/-- The cursor in the corner, and every byte of memory 0xFF. -/
def cornerConsole : Console := ⟨fun _ => 0xFF#8, 0, 0, 0#8, by decide⟩

/-- A string for the name of the file. -/
def demoElf : CString := literalText "DEMO    ELF"

/-- The file `tinyElf`, linked at `vaddr`. -/
def tinyFileAt (vaddr : Nat) : Memory :=
  fileBytes (oneFile 85 (tinyElf vaddr)) fragmentedFs (oneFileEntry 85)

/-- What `elf_load` does with it. -/
theorem elfLoad_tinyAt {vaddr : Nat} (found : lookup (rootSlots (oneFile 85 (tinyElf vaddr))
    fragmentedFs) (oneFileEntry 85).fatName = some (oneFileEntry 85)) :
    cornerConsole.elfLoad (fun _ => 0#8) (readable (oneFile 85 (tinyElf vaddr))) fragmentedFs
        demoElf (oneFileEntry 85).fatName 0x110000#32 =
      some (Console.elfLoadRead (fun _ => 0#8) 0x110000#32 85
        { cornerConsole.printLoading (fun _ => 0#8) demoElf with
          mem := withFile 0x110000#32 85 (tinyFileAt vaddr)
            (cornerConsole.printLoading (fun _ => 0#8) demoElf).mem }) := by
  rcases read_file 0x110000#32 (cornerConsole.printLoading (fun _ => 0#8) demoElf).mem found
    (by decide +kernel) with ⟨b, read, memory⟩
  rw [fileSize_tiny] at read memory
  simp only [Console.elfLoad, read, Option.map_some, memory]
  rfl

/-- The entry point and the byte at `a` when it is called, or the address of the fault. -/
def ElfOutcome.look (a : Word) : ElfOutcome → Option (Except Word (Word × Byte))
  | rejected _ => none
  | entered entry c => some (.ok (entry, c.mem a))
  | faulted x => some (.error x)

theorem ElfOutcome.entered_of_look {o : ElfOutcome} {entry : Word}
    (seen : o.look a = some (.ok (entry, v))) : ∃ c, o = .entered entry c ∧ c.mem a = v := by
  cases o with
  | rejected _ => cases seen
  | faulted _ => cases seen
  | entered entry c =>
      cases seen
      exact ⟨c, rfl, rfl⟩

theorem ElfOutcome.faulted_of_look {o : ElfOutcome} {x : Word}
    (seen : o.look a = some (.error x)) : o = .faulted x := by
  cases o with
  | rejected _ => cases seen
  | entered _ _ => cases seen
  | faulted _ =>
      cases seen
      rfl

end Learnix
