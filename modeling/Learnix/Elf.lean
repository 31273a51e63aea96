import Learnix.Fat16
import Learnix.Lib.ForLoop

/-!
# The ELF loader

`elf_load` up to the call of the entry point, without its screen output, which
`Console.elfLoad` has: the bytes that are read and stored here are taken to be off
the text screen. The headers are decoded where they lie in memory, and again for
every use, since the copy loops may store to them. A destination is whatever address
the file gives.
-/

namespace Learnix

open Machine ForLoop

/-- `sizeof(elf_buffer)`. -/
def elfBufferSize : Nat := 65536

/-- `ET_EXEC`. -/
def etExec : BitVec 16 := 2#16

/-- `EM_386`. -/
def em386 : BitVec 16 := 3#16

/-- `PT_LOAD`. -/
def ptLoad : Word := 1#32

/-- The fields of `elf32_hdr_t` that matter to loading. -/
structure Elf32Hdr where
  eIdent : Fin 16 → Byte
  eType : BitVec 16
  eMachine : BitVec 16
  eEntry : Word
  ePhoff : Word
  ePhentsize : BitVec 16
  ePhnum : BitVec 16

/-- `sizeof(elf32_hdr_t)`. -/
def ehdrSize : Nat := 52

def elf32Hdr (m : Memory) (hdr : Word) : Elf32Hdr where
  eIdent := fun k => m (hdr + BitVec.ofNat 32 k)
  eType := m.read16 (hdr + 16#32)
  eMachine := m.read16 (hdr + 18#32)
  eEntry := m.read32 (hdr + 24#32)
  ePhoff := m.read32 (hdr + 28#32)
  ePhentsize := m.read16 (hdr + 42#32)
  ePhnum := m.read16 (hdr + 44#32)

/-- The fields of `elf32_phdr_t` that matter to loading. -/
structure Elf32Phdr where
  pType : Word
  pOffset : Word
  pVaddr : Word
  pFilesz : Word
  pMemsz : Word
deriving DecidableEq

/-- `sizeof(elf32_phdr_t)`. -/
def phdrSize : Nat := 32

def elf32Phdr (m : Memory) (ph : Word) : Elf32Phdr where
  pType := m.read32 (ph + 0#32)
  pOffset := m.read32 (ph + 4#32)
  pVaddr := m.read32 (ph + 8#32)
  pFilesz := m.read32 (ph + 16#32)
  pMemsz := m.read32 (ph + 20#32)

/-- Why `elf_verify` rejects a header. -/
inductive ElfError
  | magic
  | class32
  | littleEndian
  | executable
  | machine
deriving DecidableEq

def elfVerify (hdr : Elf32Hdr) : Except ElfError Unit :=
  if hdr.eIdent 0 ≠ 0x7F#8 ∨ hdr.eIdent 1 ≠ 0x45#8 ∨ hdr.eIdent 2 ≠ 0x4C#8 ∨
      hdr.eIdent 3 ≠ 0x46#8 then .error .magic
  else if hdr.eIdent 4 ≠ 1#8 then .error .class32
  else if hdr.eIdent 5 ≠ 1#8 then .error .littleEndian
  else if hdr.eType ≠ etExec then .error .executable
  else if hdr.eMachine ≠ em386 then .error .machine
  else .ok ()

/-- The memory that `elf_load` works on. The list of the addresses that its loops have
stored to is not part of the source. -/
structure Loader where
  mem : Memory
  stored : List Word

def Loader.store (l : Loader) (a : Word) (v : Byte) : Loader :=
  ⟨l.mem.write8 a v, a :: l.stored⟩

theorem Loader.store_mem_self (l : Loader) (a : Word) (v : Byte) : (l.store a v).mem a = v :=
  l.mem.write8_self a v

theorem Loader.store_mem_of_ne {l : Loader} {a x : Word} {v : Byte} (ne : x ≠ a) :
    (l.store a v).mem x = l.mem x :=
  Memory.write8_apply_of_ne ne

theorem Loader.mem_stored_store {l : Loader} {a x : Word} {v : Byte} :
    x ∈ (l.store a v).stored ↔ x = a ∨ x ∈ l.stored :=
  List.mem_cons

/-- `dest[b] = src[b]`. -/
def copyByte (dest src : Word) (b : Nat) (l : Loader) : Loader :=
  l.store (dest + BitVec.ofNat 32 b) (l.mem (src + BitVec.ofNat 32 b))

/-- `dest[b] = 0`. -/
def zeroByte (dest : Word) (b : Nat) (l : Loader) : Loader :=
  l.store (dest + BitVec.ofNat 32 b) 0#8

/-- The loop that copies the bytes of the file for the header at `ph`. -/
def copySegment (elfBuffer ph : Word) (l : Loader) : Loader :=
  let dest := (elf32Phdr l.mem ph).pVaddr
  let src := elfBuffer + (elf32Phdr l.mem ph).pOffset
  forLoop (fun l => (elf32Phdr l.mem ph).pFilesz) (copyByte dest src) 0 l

/-- The loop that sets the `.bss` to zero. -/
def zeroSegment (dest ph : Word) (l : Loader) : Loader :=
  forLoop (fun l => (elf32Phdr l.mem ph).pMemsz) (zeroByte dest)
    (elf32Phdr l.mem ph).pFilesz.toNat l

/-- The body of the loop over the program headers for a `PT_LOAD` header at `ph`. -/
def loadSegment (elfBuffer ph : Word) (l : Loader) : Loader :=
  zeroSegment (elf32Phdr l.mem ph).pVaddr ph (copySegment elfBuffer ph l)

/-- `&phdrs[i]`. -/
def phdrAt (phdrs : Word) (i : Nat) : Word := phdrs + BitVec.ofNat 32 (phdrSize * i)

def segmentBody (elfBuffer phdrs : Word) (i : Nat) (l : Loader) : Loader :=
  if (elf32Phdr l.mem (phdrAt phdrs i)).pType ≠ ptLoad then l
  else loadSegment elfBuffer (phdrAt phdrs i) l

/-- The loop over the program headers. -/
def segmentLoop (elfBuffer phdrs : Word) (l : Loader) : Loader :=
  forLoop (fun l => (elf32Hdr l.mem elfBuffer).ePhnum) (segmentBody elfBuffer phdrs) 0 l

/-- What `elf_load` comes to: it returns -1, or it is about to call the entry point. -/
inductive ElfLoad
  | rejected (m : Memory)
  | entered (entry : Word) (l : Loader)

/-- The memory after `fat16_read_file` has left `buffer` at `elfBuffer`. -/
def afterRead (elfBuffer : Word) (buffer : Word → Byte) : Memory := fun a => buffer (a - elfBuffer)

/-- What follows the read, when it returned `bytes`. -/
def elfLoadRead (elfBuffer : Word) (bytes : Int) (m : Memory) : ElfLoad :=
  if bytes < 0 then .rejected m
  else match elfVerify (elf32Hdr m elfBuffer) with
    | .error _ => .rejected m
    | .ok () =>
      let phdrs := elfBuffer + (elf32Hdr m elfBuffer).ePhoff
      let l := segmentLoop elfBuffer phdrs ⟨m, []⟩
      .entered (elf32Hdr l.mem elfBuffer).eEntry l

/-- `elf_load` up to `entry()`, with `elf_buffer` at `elfBuffer`. -/
def elfLoadToEntry (disk : Disk) (fs : Fat16) (name : Fin 11 → Byte) (elfBuffer : Word)
    (m : Memory) : Option ElfLoad :=
  (fat16ReadFile disk fs name (fun k => m (elfBuffer + k)) (BitVec.ofNat 32 elfBufferSize)).map
    fun (bytes, buffer) => elfLoadRead elfBuffer bytes (afterRead elfBuffer buffer)

end Learnix
