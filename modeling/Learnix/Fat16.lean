import Learnix.Lib.ByteMemory

/-!
# The FAT16 reader

`fat16.c`, without its screen output. A disk gives the bytes of each sector, or
fails to, and multi-byte fields are little-endian. The copy loop of
`fat16_read_file` runs over `uint32_t` values that may wrap, so that it need not
end; the model gives `none` then.
-/

namespace Learnix

open Machine

/-- The bytes of a sector. -/
abbrev Sector := Fin 512 → Byte

/-- What `ata_read_sector` reads; `none` when it fails. -/
abbrev Disk := Word → Option Sector

namespace Sector

def byte (s : Sector) (k : Nat) : Byte := s (Fin.ofNat 512 k)

def le16 (s : Sector) (k : Nat) : BitVec 16 := s.byte (k + 1) ++ s.byte k

def le32 (s : Sector) (k : Nat) : Word := s.le16 (k + 2) ++ s.le16 k

end Sector

/-- The fields of `fat16_boot_t` that lay out the volume. -/
structure BootSector where
  bytesPerSector : BitVec 16
  sectorsPerCluster : Byte
  reservedSectors : BitVec 16
  fatCount : Byte
  rootEntries : BitVec 16
  totalSectors : BitVec 16
  sectorsPerFat : BitVec 16
  largeSectors : Word

def bootSector (s : Sector) : BootSector where
  bytesPerSector := s.le16 11
  sectorsPerCluster := s.byte 13
  reservedSectors := s.le16 14
  fatCount := s.byte 16
  rootEntries := s.le16 17
  totalSectors := s.le16 19
  sectorsPerFat := s.le16 22
  largeSectors := s.le32 32

/-- The static variables of `fat16.c`. -/
structure Fat16 where
  bootSector : BootSector
  fatStart : Word
  rootStart : Word
  dataStart : Word

def rootSectors (boot : BootSector) : Word :=
  (boot.rootEntries.setWidth 32 * 32#32 + 511#32) / 512#32

def fat16Init (disk : Disk) (fs : Fat16) : Int × Fat16 :=
  match disk 0#32 with
  | none => (-1, fs)
  | some buffer =>
    let boot := bootSector buffer
    let fatStart := boot.reservedSectors.setWidth 32
    let rootStart := fatStart + boot.fatCount.setWidth 32 * boot.sectorsPerFat.setWidth 32
    (0, ⟨boot, fatStart, rootStart, rootStart + rootSectors boot⟩)

/-- The fields of `fat16_entry_t` that `fat16.c` reads. -/
structure Entry where
  name : Fin 8 → Byte
  ext : Fin 3 → Byte
  attributes : Byte
  firstCluster : BitVec 16
  fileSize : Word
deriving DecidableEq

/-- `entries[i]`. -/
def entryAt (s : Sector) (i : Nat) : Entry where
  name := fun c => s.byte (32 * i + c)
  ext := fun c => s.byte (32 * i + 8 + c)
  attributes := s.byte (32 * i + 11)
  firstCluster := s.le16 (32 * i + 26)
  fileSize := s.le32 (32 * i + 28)

/-- `name[0]`, which also tells the state of the entry. -/
def Entry.first (e : Entry) : Byte := e.name 0

/-- The entries of one sector of a directory. -/
def entries (s : Sector) : List Entry := (List.range 16).map (entryAt s)

/-- `fat_name`, "NOMBRE  EXT". -/
def Entry.fatName (e : Entry) : Fin 11 → Byte := Fin.append e.name e.ext

/-- What the inner loop over the entries of a sector comes to. -/
inductive Scan
  | absent
  | found (e : Entry)
  | more

def scanEntries (name : Fin 11 → Byte) : List Entry → Scan
  | [] => .more
  | e :: es =>
    if e.first = 0x00#8 then .absent
    else if e.first = 0xE5#8 then scanEntries name es
    else if e.fatName = name then .found e
    else scanEntries name es

/-- The outer loop, with `n` sectors of the root directory to go. -/
def scanRoot (disk : Disk) (name : Fin 11 → Byte) : Nat → Word → Option Entry
  | 0, _ => none
  | n + 1, sector =>
    match disk sector with
    | none => none
    | some sectorBuf =>
      match scanEntries name (entries sectorBuf) with
      | .absent => none
      | .found e => some e
      | .more => scanRoot disk name n (sector + 1#32)

/-- The variables of the copy loop, and the caller's buffer. -/
structure Copy where
  bytesRead : Word
  sector : Word
  buffer : Word → Byte

def toCopy (size bytesRead : Word) : Word :=
  if bytesRead + 512#32 > size then size - bytesRead else 512#32

/-- The loop that stores `n` bytes of the sector in the buffer. -/
def copyBytes (sectorBuf : Sector) (bytesRead : Word) (n : Nat) (buffer : Word → Byte) :
    Word → Byte :=
  (List.range n).foldl
    (fun buffer b => Function.update buffer (bytesRead + BitVec.ofNat 32 b) (sectorBuf.byte b))
    buffer

/-- The body of the copy loop, after the sector has been read. -/
def copySector (sectorBuf : Sector) (size : Word) (c : Copy) : Copy where
  bytesRead := c.bytesRead + toCopy size c.bytesRead
  sector := c.sector + 1#32
  buffer := copyBytes sectorBuf c.bytesRead (toCopy size c.bytesRead).toNat c.buffer

def copyLoop (disk : Disk) (size : Word) : Nat → Copy → Option Copy
  | 0, _ => none
  | fuel + 1, c =>
    if c.bytesRead < size then
      match disk c.sector with
      | none => some c
      | some sectorBuf => copyLoop disk size fuel (copySector sectorBuf size c)
    else some c

/-- The first sector of a file. -/
def firstSector (fs : Fat16) (cluster : BitVec 16) : Word :=
  fs.dataStart + (cluster.setWidth 32 - 2#32) * fs.bootSector.sectorsPerCluster.setWidth 32

/-- The returned value and the buffer; `none` if the copy loop does not end. -/
def fat16ReadFile (disk : Disk) (fs : Fat16) (name : Fin 11 → Byte) (buffer : Word → Byte)
    (maxSize : Word) : Option (Int × (Word → Byte)) :=
  match scanRoot disk name (rootSectors fs.bootSector).toNat fs.rootStart with
  | none => some (-1, buffer)
  | some e =>
    let size := if e.fileSize > maxSize then maxSize else e.fileSize
    (copyLoop disk size pointerSpace ⟨0#32, firstSector fs e.firstCluster, buffer⟩).map fun c =>
      (c.bytesRead.toInt, c.buffer)

end Learnix
