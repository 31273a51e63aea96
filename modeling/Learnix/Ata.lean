import Learnix.Fat16
import Learnix.Lib.BoundedPoll
import Learnix.Lib.ForLoop

/-!
# The ATA driver

`ata.c` talks to the slave drive of the primary bus through its ports. What the drive answers is
arbitrary; the ghost `waits` records the status waits. A sector read that returns 0 has waited
until the drive was ready and had data, with no error, and has asked for the sector with the low
28 bits of `lba` (`ata_success_lba28`); on a drive that holds sectors it returns that sector
(`ataReadSector_serves`).
-/

namespace Learnix

open Machine BoundedPoll

/-- A port number. -/
abbrev Port := BitVec 16

def ataPrimarySeccount : Port := 0x1F2#16

def ataPrimaryLbaLo : Port := 0x1F3#16

def ataPrimaryLbaMid : Port := 0x1F4#16

def ataPrimaryLbaHi : Port := 0x1F5#16

def ataPrimaryDrive : Port := 0x1F6#16

def ataPrimaryCommand : Port := 0x1F7#16

def ataStatusBsy : Byte := 0x80#8

def ataStatusDrdy : Byte := 0x40#8

def ataStatusDrq : Byte := 0x08#8

def ataStatusErr : Byte := 0x01#8

def ataCmdRead : Byte := 0x20#8

def ataCmdWrite : Byte := 0x30#8

/-- The command that flushes the cache of the drive. -/
def ataCmdFlush : Byte := 0xE7#8

/-- What a status wait waits for. -/
inductive WaitKind
  | ready
  | drq

/-- The status is the awaited one. -/
def WaitKind.Awaited : WaitKind → Byte → Prop
  | .ready, status => status &&& ataStatusBsy = 0#8 ∧ status &&& ataStatusDrdy ≠ 0#8
  | .drq, status => status &&& ataStatusDrq ≠ 0#8

instance (kind : WaitKind) (status : Byte) : Decidable (kind.Awaited status) :=
  match kind with
  | .ready => inferInstanceAs (Decidable (_ ∧ _))
  | .drq => inferInstanceAs (Decidable (_ ≠ _))

/-- The body of the loops of `ata_wait_ready` and `ata_wait_drq`. -/
def WaitKind.judge (kind : WaitKind) (status : Byte) : Option Int :=
  if status &&& ataStatusErr ≠ 0#8 then some (-1)
  else if kind.Awaited status then some 0
  else none

/-- A status wait: the number of the first status it read, and how many it read. -/
structure Wait where
  kind : WaitKind
  first : Nat
  polls : Nat

/-- What the driver sees of the drive, and what it has told it. -/
structure Ata where
  /-- The bytes that the status port returns, one after the other. -/
  status : Nat → Byte
  /-- The half-words that the data port returns, for the bytes written to the ports before. -/
  data : (Port → Byte) → Nat → BitVec 16
  statusReads : Nat
  dataReads : Nat
  /-- The byte last written to each port. -/
  ports : Port → Byte
  /-- The half-words written to the data port. -/
  sent : List (BitVec 16)
  waits : List Wait

namespace Ata

def outb (port : Port) (val : Byte) (d : Ata) : Ata :=
  { d with ports := Function.update d.ports port val }

/-- `inw(ATA_PRIMARY_DATA)`. -/
def inw (d : Ata) : BitVec 16 × Ata :=
  (d.data d.ports d.dataReads, { d with dataReads := d.dataReads + 1 })

/-- `outw(ATA_PRIMARY_DATA, val)`. -/
def outw (val : BitVec 16) (d : Ata) : Ata := { d with sent := d.sent ++ [val] }

end Ata

/-- The loops of `ata_wait_ready` and `ata_wait_drq`. -/
def ataWait (kind : WaitKind) (d : Ata) : Int × Ata :=
  let r := poll kind.judge d.status 100000 d.statusReads
  (r.1.getD (-1),
    { d with
      statusReads := d.statusReads + r.2
      waits := d.waits ++ [⟨kind, d.statusReads, r.2⟩] })

def ataWaitReady (d : Ata) : Int × Ata := ataWait .ready d

def ataWaitDrq (d : Ata) : Int × Ata := ataWait .drq d

/-- The six writes that start a command on one sector. -/
def ataSelect (command : Byte) (lba : Word) (d : Ata) : Ata :=
  let d := d.outb ataPrimarySeccount 1#8
  let d := d.outb ataPrimaryLbaLo ((lba &&& 0xFF#32).setWidth 8)
  let d := d.outb ataPrimaryLbaMid (((lba >>> 8) &&& 0xFF#32).setWidth 8)
  let d := d.outb ataPrimaryLbaHi (((lba >>> 16) &&& 0xFF#32).setWidth 8)
  let d := d.outb ataPrimaryDrive ((0xF0#32 ||| ((lba >>> 24) &&& 0x0F#32)).setWidth 8)
  d.outb ataPrimaryCommand command

/-- What `ata_read_sector` and `ata_write_sector` do before the data. -/
def ataStart (command : Byte) (lba : Word) (d : Ata) : Int × Ata :=
  let ready := ataWaitReady d
  if ready.1 < 0 then (-1, ready.2)
  else
    let drq := ataWaitDrq (ataSelect command lba ready.2)
    if drq.1 < 0 then (-1, drq.2) else (0, drq.2)

/-- `buf16[i] = val`. -/
def Sector.setWord (s : Sector) (i : Nat) (val : BitVec 16) : Sector := fun k =>
  if k.val = 2 * i then val.extractLsb' 0 8
  else if k.val = 2 * i + 1 then val.extractLsb' 8 8
  else s k

/-- `buf16[i]`. -/
def Sector.word (s : Sector) (i : Nat) : BitVec 16 := s.le16 (2 * i)

/-- A round of the loop of `ata_read_sector`. -/
def readWord (r : Sector × Ata) (i : Nat) : Sector × Ata :=
  (r.1.setWord i r.2.inw.1, r.2.inw.2)

/-- The returned value, and the buffer. -/
def ataReadSector (lba : Word) (buffer : Sector) (d : Ata) : Int × Sector × Ata :=
  let started := ataStart ataCmdRead lba d
  if started.1 < 0 then (-1, buffer, started.2)
  else (0, (List.range 256).foldl readWord (buffer, started.2))

/-- The result of the wait after the cache flush is not looked at. -/
def ataWriteSector (lba : Word) (buffer : Sector) (d : Ata) : Int × Ata :=
  let started := ataStart ataCmdWrite lba d
  if started.1 < 0 then (-1, started.2)
  else
    let d := (List.range 256).foldl (fun d i => d.outw (buffer.word i)) started.2
    (0, (ataWaitReady (d.outb ataPrimaryCommand ataCmdFlush)).2)

/-- The sector number that the registers hold, in LBA mode. -/
def lba28 (ports : Port → Byte) : Nat :=
  (ports ataPrimaryLbaLo).toNat + 2 ^ 8 * (ports ataPrimaryLbaMid).toNat +
    2 ^ 16 * (ports ataPrimaryLbaHi).toNat + 2 ^ 24 * (ports ataPrimaryDrive &&& 0x0F#8).toNat

/-- The registers select this sector of the slave. -/
structure Programmed (ports : Port → Byte) (lba : Nat) : Prop where
  slave : (ports ataPrimaryDrive).getLsbD 4 = true
  lbaMode : (ports ataPrimaryDrive).getLsbD 6 = true
  decodes : lba28 ports = lba

/-- The wait has ended in time in the awaited state, and no status had the error bit. -/
structure Wait.Succeeded (w : Wait) (status : Nat → Byte) : Prop where
  inTime : w.polls ≤ 100000
  noError : ∀ j, j < w.polls → status (w.first + j) &&& ataStatusErr = 0#8
  awaited : ∃ last, w.polls = last + 1 ∧ w.kind.Awaited (status (w.first + last))

/-- A call that starts in `d` and ends in `d'` has waited twice with success, and has selected
this sector; `rest` are its other waits. -/
structure Asked (lba : Nat) (d d' : Ata) (rest : List Wait) : Prop where
  waited : ∃ ready drq, d'.waits = d.waits ++ [ready, drq] ++ rest ∧ ready.kind = .ready ∧
    drq.kind = .drq ∧ ready.Succeeded d.status ∧ drq.Succeeded d.status
  programmed : Programmed d'.ports lba

variable {kind : WaitKind} {status : Byte} {command : Byte} {lba : Word} {buffer : Sector}
  {d : Ata} {w : Wait}

/-! ## The status waits -/

theorem judge_eq_zero :
    kind.judge status = some 0 ↔ status &&& ataStatusErr = 0#8 ∧ kind.Awaited status := by
  rw [WaitKind.judge]
  by_cases error : status &&& ataStatusErr = 0#8
  · by_cases awaited : kind.Awaited status <;> simp [error, awaited]
  · simp [error]

theorem noError_of_judge (undecided : kind.judge status = none) :
    status &&& ataStatusErr = 0#8 := by
  by_contra error
  rw [WaitKind.judge, if_pos error] at undecided
  cases undecided

theorem judge_range (decided : kind.judge status = some r) : r = 0 ∨ r = -1 := by
  rw [WaitKind.judge] at decided
  split at decided
  · exact .inr (Option.some.inj decided).symm
  split at decided
  · exact .inl (Option.some.inj decided).symm
  · cases decided

theorem ataWait_fst (kind : WaitKind) (d : Ata) :
    (ataWait kind d).1 = (poll kind.judge d.status 100000 d.statusReads).1.getD (-1) := rfl

@[simp] theorem ataWait_data (kind : WaitKind) (d : Ata) : (ataWait kind d).2.data = d.data := rfl

@[simp] theorem ataWait_dataReads (kind : WaitKind) (d : Ata) :
    (ataWait kind d).2.dataReads = d.dataReads := rfl

@[simp] theorem ataWait_ports (kind : WaitKind) (d : Ata) :
    (ataWait kind d).2.ports = d.ports := rfl

theorem ataWait_range (kind : WaitKind) (d : Ata) :
    (ataWait kind d).1 = 0 ∨ (ataWait kind d).1 = -1 := by
  rw [ataWait_fst]
  cases decision : (poll kind.judge d.status 100000 d.statusReads).1 with
  | none => exact .inr rfl
  | some r =>
      rcases poll_eq_some_iff.mp decision with ⟨k, -, decided⟩
      exact judge_range decided.decides

theorem ataWait_zero_of_nonneg (nonneg : ¬ (ataWait kind d).1 < 0) : (ataWait kind d).1 = 0 := by
  have range := ataWait_range kind d
  omega

theorem exists_wait (kind : WaitKind) (d : Ata) :
    ∃ w, (ataWait kind d).2.waits = d.waits ++ [w] := ⟨_, rfl⟩

/-- A wait that returns 0 has succeeded. -/
theorem ataWait_succeeded (zero : (ataWait kind d).1 = 0) :
    ∃ w, (ataWait kind d).2.waits = d.waits ++ [w] ∧ w.kind = kind ∧ w.Succeeded d.status := by
  have decision : (poll kind.judge d.status 100000 d.statusReads).1 = some 0 := by
    rw [ataWait_fst] at zero
    cases decision : (poll kind.judge d.status 100000 d.statusReads).1 with
    | none =>
        rw [decision] at zero
        exact absurd zero (by decide)
    | some r =>
        rw [decision] at zero
        exact congrArg some zero
  rcases decidedAt_of_poll _ _ decision with ⟨last, below, polls, decided⟩
  rcases judge_eq_zero.mp decided.decides with ⟨noError, awaited⟩
  refine ⟨_, rfl, rfl, ?_, fun j less => ?_, last, polls, awaited⟩
  · exact polls.trans_le below
  · rcases Nat.lt_succ_iff_lt_or_eq.mp (less.trans_eq polls) with before | same
    · exact noError_of_judge (decided.before j before)
    · exact same ▸ noError

/-- A wait for a state that the drive is in. -/
theorem ataWait_of_awaited (noError : d.status d.statusReads &&& ataStatusErr = 0#8)
    (awaited : kind.Awaited (d.status d.statusReads)) : (ataWait kind d).1 = 0 := by
  have decided : DecidedAt kind.judge d.status d.statusReads 0 0 :=
    ⟨fun j below => absurd below (Nat.not_lt_zero j), judge_eq_zero.mpr ⟨noError, awaited⟩⟩
  rw [ataWait_fst, decided.poll_eq (by decide)]
  rfl

/-! ## The registers -/

/-- A byte of a word, as the driver takes it out. -/
theorem byte_toNat (x : Word) : ((x &&& 0xFF#32).setWidth 8).toNat = x.toNat % 2 ^ 8 := by
  have mask : (0xFF#32).toNat = 2 ^ 8 - 1 := rfl
  rw [BitVec.toNat_setWidth, BitVec.toNat_and, mask, Nat.and_two_pow_sub_one_eq_mod, Nat.mod_mod]

/-- The low bits of the drive register. -/
theorem nibble_toNat (x : Word) :
    ((0xF0#32 ||| (x &&& 0x0F#32)).setWidth 8 &&& 0x0F#8).toNat = x.toNat % 2 ^ 4 := by
  have mask : (0x0F#8).toNat = 2 ^ 4 - 1 := rfl
  have drops : (0xF0#32 ||| (x &&& 0x0F#32)).setWidth 8 &&& 0x0F#8 = x.setWidth 8 &&& 0x0F#8 := by
    rw [BitVec.setWidth_or, BitVec.setWidth_and, BitVec.and_or_distrib_right, BitVec.and_assoc]
    simp
  rw [drops, BitVec.toNat_and, mask, Nat.and_two_pow_sub_one_eq_mod, BitVec.toNat_setWidth]
  exact Nat.mod_mod_of_dvd _ (by decide)

/-- Only the ports change. -/
theorem ataSelect_eq (command : Byte) (lba : Word) (d : Ata) :
    ataSelect command lba d = { d with ports := (ataSelect command lba d).ports } := by
  simp only [ataSelect, Ata.outb]

@[simp] theorem ataSelect_data (command : Byte) (lba : Word) (d : Ata) :
    (ataSelect command lba d).data = d.data := by
  rw [ataSelect_eq]

@[simp] theorem ataSelect_dataReads (command : Byte) (lba : Word) (d : Ata) :
    (ataSelect command lba d).dataReads = d.dataReads := by
  rw [ataSelect_eq]

theorem ataSelect_status (command : Byte) (lba : Word) (d : Ata) :
    (ataSelect command lba d).status = d.status := by
  rw [ataSelect_eq]

theorem ataSelect_waits (command : Byte) (lba : Word) (d : Ata) :
    (ataSelect command lba d).waits = d.waits := by
  rw [ataSelect_eq]

/-- The registers hold the low 28 bits of the number. -/
theorem programmed_ataSelect (command : Byte) (lba : Word) (d : Ata) :
    Programmed (ataSelect command lba d).ports (lba.toNat % 2 ^ 28) := by
  have drive : (ataSelect command lba d).ports ataPrimaryDrive =
      (0xF0#32 ||| ((lba >>> 24) &&& 0x0F#32)).setWidth 8 := rfl
  have low : (ataSelect command lba d).ports ataPrimaryLbaLo =
      (lba &&& 0xFF#32).setWidth 8 := rfl
  have mid : (ataSelect command lba d).ports ataPrimaryLbaMid =
      ((lba >>> 8) &&& 0xFF#32).setWidth 8 := rfl
  have high : (ataSelect command lba d).ports ataPrimaryLbaHi =
      ((lba >>> 16) &&& 0xFF#32).setWidth 8 := rfl
  refine ⟨?_, ?_, ?_⟩
  · rw [drive]
    simp
  · rw [drive]
    simp
  · rw [lba28, drive, low, mid, high, byte_toNat, byte_toNat, byte_toNat, nibble_toNat,
      BitVec.toNat_ushiftRight, BitVec.toNat_ushiftRight, BitVec.toNat_ushiftRight,
      Nat.shiftRight_eq_div_pow, Nat.shiftRight_eq_div_pow, Nat.shiftRight_eq_div_pow]
    omega

/-! ## The data -/

theorem setWord_byte (s : Sector) (i : Nat) (val : BitVec 16) {k : Nat} (inside : k < 512) :
    (s.setWord i val).byte k =
      if k = 2 * i then val.extractLsb' 0 8
      else if k = 2 * i + 1 then val.extractLsb' 8 8
      else s.byte k := by
  have index : (Fin.ofNat 512 k).val = k := Nat.mod_eq_of_lt inside
  rw [Sector.byte, Sector.setWord, index, Sector.byte]

theorem setWord_word_self (s : Sector) {i : Nat} (val : BitVec 16) (inside : i < 256) :
    (s.setWord i val).word i = val := by
  rw [Sector.word, Sector.le16, setWord_byte s i val (by omega), setWord_byte s i val (by omega),
    if_neg (by omega), if_pos rfl, if_pos rfl]
  exact Memory.append_extractLsb'_half val

theorem setWord_word_of_ne (s : Sector) {i j : Nat} (val : BitVec 16) (ne : j ≠ i)
    (inside : j < 256) : (s.setWord i val).word j = s.word j := by
  rw [Sector.word, Sector.le16, setWord_byte s i val (by omega), setWord_byte s i val (by omega),
    if_neg (by omega), if_neg (by omega), if_neg (by omega), if_neg (by omega)]
  rfl

/-- A sector is its half-words. -/
theorem sector_ext {s t : Sector} (same : ∀ i, i < 256 → s.word i = t.word i) : s = t := by
  funext k
  have words := same (k / 2) (by omega)
  rw [Sector.word, Sector.word, Sector.le16, Sector.le16] at words
  have low := congrArg (BitVec.extractLsb' 0 8) words
  have high := congrArg (BitVec.extractLsb' 8 8) words
  rw [BitVec.extractLsb'_append_eq_right, BitVec.extractLsb'_append_eq_right] at low
  rw [BitVec.extractLsb'_append_eq_left, BitVec.extractLsb'_append_eq_left] at high
  rcases Nat.mod_two_eq_zero_or_one k with even | odd
  · have index : Fin.ofNat 512 (2 * (k / 2)) = k := Fin.ext (by show _ % 512 = _; omega)
    rwa [Sector.byte, Sector.byte, index] at low
  · have index : Fin.ofNat 512 (2 * (k / 2) + 1) = k := Fin.ext (by show _ % 512 = _; omega)
    rwa [Sector.byte, Sector.byte, index] at high

/-- What the loop of `ata_read_sector` has done after `n` rounds. -/
theorem readWords (buffer : Sector) (d : Ata) {n : Nat} (le : n ≤ 256) :
    ((List.range n).foldl readWord (buffer, d)).2 = { d with dataReads := d.dataReads + n } ∧
      ∀ i, i < n → ((List.range n).foldl readWord (buffer, d)).1.word i =
        d.data d.ports (d.dataReads + i) := by
  induction n with
  | zero => exact ⟨rfl, fun i below => absurd below (Nat.not_lt_zero i)⟩
  | succ n ih =>
      rcases ih (Nat.le_of_succ_le le) with ⟨drive, words⟩
      rw [List.range_succ, List.foldl_append, List.foldl_cons, List.foldl_nil, readWord, drive]
      refine ⟨rfl, fun i below => ?_⟩
      rcases Nat.lt_succ_iff_lt_or_eq.mp below with before | same
      · exact (setWord_word_of_ne _ _ (Nat.ne_of_lt before) (by omega)).trans (words i before)
      · rw [same]
        exact setWord_word_self _ _ le

/-! ## The calls -/

theorem ataStart_eq (command : Byte) (lba : Word) (d : Ata) :
    ataStart command lba d =
      if (ataWaitReady d).1 < 0 then (-1, (ataWaitReady d).2)
      else if (ataWaitDrq (ataSelect command lba (ataWaitReady d).2)).1 < 0 then
        (-1, (ataWaitDrq (ataSelect command lba (ataWaitReady d).2)).2)
      else (0, (ataWaitDrq (ataSelect command lba (ataWaitReady d).2)).2) := rfl

theorem ataStart_range (command : Byte) (lba : Word) (d : Ata) :
    (ataStart command lba d).1 = 0 ∨ (ataStart command lba d).1 = -1 := by
  rw [ataStart_eq]
  split
  · exact .inr rfl
  split
  · exact .inr rfl
  · exact .inl rfl

/-- No data goes through the port before a command has started. -/
theorem ataStart_data (command : Byte) (lba : Word) (d : Ata) :
    (ataStart command lba d).2.data = d.data ∧
      (ataStart command lba d).2.dataReads = d.dataReads := by
  rw [ataStart_eq]
  split
  · simp [ataWaitReady]
  split <;> simp [ataWaitReady, ataWaitDrq]

/-- A command that has started: both waits have succeeded. -/
theorem ataStart_asked (started : (ataStart command lba d).1 = 0) :
    Asked (lba.toNat % 2 ^ 28) d (ataStart command lba d).2 [] ∧
      (ataStart command lba d).2.ports ataPrimaryCommand = command := by
  rw [ataStart_eq] at started ⊢
  split at started
  · cases started
  split at started
  · cases started
  rename_i ready drq
  rw [if_neg ready, if_neg drq]
  rcases ataWait_succeeded (ataWait_zero_of_nonneg ready) with ⟨r, waits, kind, succeeded⟩
  rcases ataWait_succeeded (ataWait_zero_of_nonneg drq) with ⟨q, waits', kind', succeeded'⟩
  rw [ataSelect_waits, ataWaitReady, waits, List.append_assoc] at waits'
  rw [ataSelect_status] at succeeded'
  refine ⟨⟨⟨r, q, ?_, kind, kind', succeeded, succeeded'⟩, ?_⟩, rfl⟩
  · rw [List.append_nil]
    exact waits'
  · exact programmed_ataSelect command lba (ataWaitReady d).2

theorem ataReadSector_eq (lba : Word) (buffer : Sector) (d : Ata) :
    ataReadSector lba buffer d =
      if (ataStart ataCmdRead lba d).1 < 0 then (-1, buffer, (ataStart ataCmdRead lba d).2)
      else (0, (List.range 256).foldl readWord (buffer, (ataStart ataCmdRead lba d).2)) := rfl

/-- A read fails, and the buffer is as before, or its command has started and the buffer holds
256 half-words of the data port. -/
theorem ataReadSector_cases (lba : Word) (buffer : Sector) (d : Ata) :
    ((ataStart ataCmdRead lba d).1 = -1 ∧
        ataReadSector lba buffer d = (-1, buffer, (ataStart ataCmdRead lba d).2)) ∨
      ((ataStart ataCmdRead lba d).1 = 0 ∧ (ataReadSector lba buffer d).1 = 0 ∧
        (∀ i, i < 256 → (ataReadSector lba buffer d).2.1.word i =
          d.data (ataStart ataCmdRead lba d).2.ports (d.dataReads + i)) ∧
        (ataReadSector lba buffer d).2.2 =
          { (ataStart ataCmdRead lba d).2 with dataReads := d.dataReads + 256 }) := by
  have untouched := ataStart_data ataCmdRead lba d
  rcases readWords buffer (ataStart ataCmdRead lba d).2 (Nat.le_refl 256) with ⟨drive, words⟩
  rw [untouched.2] at drive words
  rw [untouched.1] at words
  rcases ataStart_range ataCmdRead lba d with zero | fails
  · refine .inr ⟨zero, ?_⟩
    rw [ataReadSector_eq, if_neg (by omega)]
    exact ⟨rfl, words, drive⟩
  · refine .inl ⟨fails, ?_⟩
    rw [ataReadSector_eq, if_pos (by omega)]

/-- The half-words of the data go to the data port, and to no register. -/
theorem outWords (buffer : Sector) (n : Nat) (d : Ata) :
    (List.range n).foldl (fun d i => d.outw (buffer.word i)) d =
      { d with sent := d.sent ++ (List.range n).map buffer.word } := by
  induction n with
  | zero => simp
  | succ n ih =>
      rw [List.range_succ, List.foldl_append, ih, List.map_append, ← List.append_assoc]
      rfl

theorem ataWriteSector_eq (lba : Word) (buffer : Sector) (d : Ata) :
    ataWriteSector lba buffer d =
      if (ataStart ataCmdWrite lba d).1 < 0 then (-1, (ataStart ataCmdWrite lba d).2)
      else (0, (ataWaitReady (((List.range 256).foldl (fun d i => d.outw (buffer.word i))
        (ataStart ataCmdWrite lba d).2).outb ataPrimaryCommand ataCmdFlush)).2) := rfl

/-- A write returns 0 exactly if its command has started, whatever the wait after the cache flush
comes to. -/
theorem ataWriteSector_zero_iff (lba : Word) (buffer : Sector) (d : Ata) :
    (ataWriteSector lba buffer d).1 = 0 ↔ (ataStart ataCmdWrite lba d).1 = 0 := by
  rw [ataWriteSector_eq]
  rcases ataStart_range ataCmdWrite lba d with zero | fails
  · rw [if_neg (by omega), zero]
  · rw [if_pos (by omega), fails]

/-- A flush does not change the sector number. -/
theorem Programmed.outb_command {n : Nat} (programmed : Programmed d.ports n) (command : Byte) :
    Programmed (d.outb ataPrimaryCommand command).ports n := by
  rcases programmed with ⟨slave, lbaMode, decodes⟩
  exact ⟨slave, lbaMode, decodes⟩

theorem ataReadSector_asked (zero : (ataReadSector lba buffer d).1 = 0) :
    Asked (lba.toNat % 2 ^ 28) d (ataReadSector lba buffer d).2.2 [] := by
  rcases ataReadSector_cases lba buffer d with ⟨-, fails⟩ | ⟨started, -, -, drive⟩
  · rw [fails] at zero
    cases zero
  · rw [drive]
    rcases (ataStart_asked started).1 with ⟨waited, programmed⟩
    exact ⟨waited, programmed⟩

theorem ataWriteSector_asked (zero : (ataWriteSector lba buffer d).1 = 0) :
    ∃ flush, Asked (lba.toNat % 2 ^ 28) d (ataWriteSector lba buffer d).2 [flush] := by
  have started := (ataWriteSector_zero_iff lba buffer d).mp zero
  rcases (ataStart_asked started).1 with ⟨⟨r, q, waits, kinds⟩, programmed⟩
  rw [List.append_nil] at waits
  rw [ataWriteSector_eq, if_neg (by omega), outWords]
  rcases exists_wait .ready (Ata.outb ataPrimaryCommand ataCmdFlush
    { (ataStart ataCmdWrite lba d).2 with
      sent := (ataStart ataCmdWrite lba d).2.sent ++ (List.range 256).map buffer.word })
    with ⟨flush, last⟩
  refine ⟨flush, ⟨r, q, last.trans ?_, kinds⟩, programmed.outb_command ataCmdFlush⟩
  exact congrArg (· ++ [flush]) waits

/-- A call that returns 0 has waited until the drive was ready and until it had data, in time and
with no error, and has selected the sector with the low 28 bits of `lba`; a read that returns -1
leaves the buffer as it was. -/
theorem ata_success_lba28 (lba : Word) (buffer : Sector) (d : Ata) :
    ((ataReadSector lba buffer d).1 = 0 →
      Asked (lba.toNat % 2 ^ 28) d (ataReadSector lba buffer d).2.2 []) ∧
    ((ataWriteSector lba buffer d).1 = 0 →
      ∃ flush, Asked (lba.toNat % 2 ^ 28) d (ataWriteSector lba buffer d).2 [flush]) ∧
    ((ataReadSector lba buffer d).1 = -1 → (ataReadSector lba buffer d).2.1 = buffer) := by
  refine ⟨ataReadSector_asked, ataWriteSector_asked, fun fails => ?_⟩
  rcases ataReadSector_cases lba buffer d with ⟨-, failed⟩ | ⟨-, zero, -, -⟩
  · rw [failed]
  · rw [zero] at fails
    cases fails

/-- A drive that is always ready and always has data. -/
def steadyDrive : Ata where
  status := fun _ => 0x48#8
  data := fun _ _ => 0#16
  statusReads := 0
  dataReads := 0
  ports := fun _ => 0#8
  sent := []
  waits := []

theorem ataStart_steadyDrive (command : Byte) (lba : Word) :
    (ataStart command lba steadyDrive).1 = 0 := by
  have ready : (ataWaitReady steadyDrive).1 = 0 := ataWait_of_awaited (by decide) (by decide)
  have drq : (ataWaitDrq (ataSelect command lba (ataWaitReady steadyDrive).2)).1 = 0 :=
    ataWait_of_awaited (show 0x48#8 &&& ataStatusErr = 0#8 by decide)
      (show WaitKind.drq.Awaited 0x48#8 by decide)
  rw [ataStart_eq, ready, drq]
  rfl

theorem ataReadSector_steadyDrive (lba : Word) (buffer : Sector) :
    (ataReadSector lba buffer steadyDrive).1 = 0 := by
  rcases ataReadSector_cases lba buffer steadyDrive with ⟨fails, -⟩ | ⟨-, zero, -⟩
  · rw [ataStart_steadyDrive] at fails
    cases fails
  · exact zero

/-- Sector 5. -/
theorem ata_success_lba28_five :
    Asked 5 steadyDrive (ataReadSector 5#32 (fun _ => 0#8) steadyDrive).2.2 [] :=
  (ata_success_lba28 5#32 (fun _ => 0#8) steadyDrive).1 (ataReadSector_steadyDrive _ _)

/-- The first sector number with more than 28 bits: the read returns 0, and has selected
sector 0. -/
theorem ata_read_wraps :
    (ataReadSector 0x10000000#32 (fun _ => 0#8) steadyDrive).1 = 0 ∧
      Programmed (ataReadSector 0x10000000#32 (fun _ => 0#8) steadyDrive).2.2.ports 0 ∧
      ¬ ∀ (lba : Word) (buffer : Sector) (d : Ata), (ataReadSector lba buffer d).1 = 0 →
        Programmed (ataReadSector lba buffer d).2.2.ports lba.toNat := by
  have zero := ataReadSector_steadyDrive 0x10000000#32 (fun _ => 0#8)
  have programmed := (ataReadSector_asked zero).programmed
  refine ⟨zero, programmed, fun exact_ => ?_⟩
  have same := programmed.decodes.symm.trans (exact_ _ _ _ zero).decodes
  exact absurd same (by decide)

/-! ## A drive that holds sectors -/

/-- After a read command the data port gives the selected sector, half-word by half-word. -/
structure ServesSectors (d : Ata) (sectors : Nat → Sector) : Prop where
  data : ∀ ports lba, ports ataPrimaryCommand = ataCmdRead → Programmed ports lba →
    ∀ n, d.data ports n = (sectors lba).word (n % 256)
  whole : 256 ∣ d.dataReads

/-- A read of such a drive fails, or gives the sector with the low 28 bits of `lba`. -/
theorem ataReadSector_serves {sectors : Nat → Sector} (serves : ServesSectors d sectors)
    (lba : Word) (buffer : Sector) :
    ((ataReadSector lba buffer d).1 = -1 ∧ (ataReadSector lba buffer d).2.1 = buffer ∨
      (ataReadSector lba buffer d).1 = 0 ∧
        (ataReadSector lba buffer d).2.1 = sectors (lba.toNat % 2 ^ 28)) ∧
      ServesSectors (ataReadSector lba buffer d).2.2 sectors := by
  rcases serves with ⟨data, whole⟩
  have untouched := ataStart_data ataCmdRead lba d
  rcases ataReadSector_cases lba buffer d with ⟨-, fails⟩ | ⟨started, zero, words, drive⟩
  · rw [fails]
    refine ⟨.inl ⟨rfl, rfl⟩, ?_, ?_⟩
    · rw [untouched.1]
      exact data
    · rw [untouched.2]
      exact whole
  · rcases ataStart_asked started with ⟨asked, command⟩
    refine ⟨.inr ⟨zero, sector_ext fun i below => ?_⟩, ?_⟩
    · have place : (d.dataReads + i) % 256 = i := by omega
      rw [words i below, data _ _ command asked.programmed, place]
    · rw [drive]
      refine ⟨?_, Nat.dvd_add whole (Nat.dvd_refl 256)⟩
      show ∀ ports lba, _ → _ → ∀ n, (ataStart ataCmdRead _ d).2.data ports n = _
      rw [untouched.1]
      exact data

/-- The answers to the sector reads of a run, one after the other. -/
def sectorReads : List Word → Ata → List (Option Sector)
  | [], _ => []
  | lba :: lbas, d =>
    let r := ataReadSector lba (fun _ => 0#8) d
    (if r.1 = 0 then some r.2.1 else none) :: sectorReads lbas r.2.2

/-- In every run each read fails, or gives its own sector: the drive is a `Disk`. -/
theorem sectorReads_serves {sectors : Nat → Sector} (lbas : List Word)
    (serves : ServesSectors d sectors) :
    List.Forall₂ (fun (lba : Word) answer => answer = none ∨
      answer = some (sectors (lba.toNat % 2 ^ 28))) lbas (sectorReads lbas d) := by
  induction lbas generalizing d with
  | nil => exact .nil
  | cons lba lbas ih =>
      rcases ataReadSector_serves serves lba (fun _ => 0#8) with ⟨answer, still⟩
      refine .cons ?_ (ih still)
      rcases answer with ⟨fails, -⟩ | ⟨zero, sector⟩
      · rw [fails]
        exact .inl rfl
      · rw [if_pos zero, sector]
        exact .inr rfl

end Learnix
