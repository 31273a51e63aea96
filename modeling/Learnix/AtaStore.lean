import Learnix.Ata
import Learnix.Lib.FallibleStore

/-!
# The drive as a store

The calls of `ata_read_sector` and `ata_write_sector` in any order, on a drive that keeps what is
sent to it and whose status is arbitrary: the drive is a store whose operations may fail, under
the low 28 bits of the sector numbers. A read that returns 0 gives what the last write with this
sector number that returned 0 has sent, or what the drive held at the start (`ata_store`).
-/

namespace Learnix

open Machine FallibleStore

/-- The sector whose half-words these are. -/
def ofWords (words : List (BitVec 16)) : Sector := fun k =>
  if k.val % 2 = 0 then (words.getD (k.val / 2) 0#16).extractLsb' 0 8
  else (words.getD (k.val / 2) 0#16).extractLsb' 8 8

/-- A drive that holds `sectors` before a call that starts in `d` and ends in `d'` holds
`sectors'` after it: the half-words of a whole sector are stored where the registers say, and
where nothing is sent nothing changes. A drive that takes a whole sector, reports an error then,
and has not stored it is none of these. -/
structure DriveKeeps (d d' : Ata) (sectors sectors' : Nat → Sector) : Prop where
  silent : d'.sent = d.sent → sectors' = sectors
  stored : ∀ words lba, d'.sent = d.sent ++ words → words.length = 256 → Programmed d'.ports lba →
    sectors' = Function.update sectors lba (ofWords words)

/-- A call of the driver. -/
inductive SectorCall
  | read (lba : Word) (buffer : Sector)
  | write (lba : Word) (buffer : Sector)

/-- What the caller sees of a call, and the drive after it. -/
def SectorCall.run : SectorCall → Ata → Event Nat Sector × Ata
  | .read lba buffer, d =>
    let r := ataReadSector lba buffer d
    (.read (lba.toNat % 2 ^ 28) (if r.1 = 0 then some r.2.1 else none), r.2.2)
  | .write lba buffer, d =>
    let r := ataWriteSector lba buffer d
    (.write (lba.toNat % 2 ^ 28) buffer (r.1 = 0), r.2)

/-- Call after call, with what the callers see. Nothing is said about the drive between two calls
but that it serves what it holds. -/
inductive DriveRun : Ata → (Nat → Sector) → List (Event Nat Sector) → Ata → (Nat → Sector) → Prop
  | nil {d : Ata} {sectors : Nat → Sector} : DriveRun d sectors [] d sectors
  | cons {d d' e : Ata} {sectors sectors' sectors'' : Nat → Sector}
    {events : List (Event Nat Sector)} (call : SectorCall) :
    ServesSectors d sectors → DriveKeeps d (call.run d).2 sectors sectors' →
    DriveRun d' sectors' events e sectors'' →
    DriveRun d sectors ((call.run d).1 :: events) e sectors''

variable {d d' : Ata} {sectors sectors' : Nat → Sector} {events : List (Event Nat Sector)}
  {lba : Word} {buffer : Sector}

/-! ## What is sent -/

theorem ofWords_byte (words : List (BitVec 16)) {k : Nat} (inside : k < 512) :
    (ofWords words).byte k =
      if k % 2 = 0 then (words.getD (k / 2) 0#16).extractLsb' 0 8
      else (words.getD (k / 2) 0#16).extractLsb' 8 8 := by
  have index : (Fin.ofNat 512 k).val = k := Nat.mod_eq_of_lt inside
  rw [Sector.byte, ofWords, index]

theorem ofWords_word (words : List (BitVec 16)) {i : Nat} (inside : i < 256) :
    (ofWords words).word i = words.getD i 0#16 := by
  have low : 2 * i / 2 = i := by omega
  have high : (2 * i + 1) / 2 = i := by omega
  rw [Sector.word, Sector.le16, ofWords_byte words (by omega), ofWords_byte words (by omega),
    if_neg (by omega), if_pos (by omega), low, high]
  exact Memory.append_extractLsb'_half (words.getD i 0#16)

/-- What `ata_write_sector` sends is its buffer. -/
theorem ofWords_range (buffer : Sector) : ofWords ((List.range 256).map buffer.word) = buffer := by
  apply sector_ext
  intro i below
  rw [ofWords_word _ below, List.getD_eq_getElem?_getD, List.getElem?_map,
    List.getElem?_range below]
  rfl

theorem ataStart_sent (command : Byte) (lba : Word) (d : Ata) :
    (ataStart command lba d).2.sent = d.sent := by
  have waits (kind : WaitKind) (d : Ata) : (ataWait kind d).2.sent = d.sent := rfl
  have select (d : Ata) : (ataSelect command lba d).sent = d.sent := by rw [ataSelect_eq]
  rw [ataStart_eq]
  split
  · exact waits .ready d
  · split <;> exact (waits .drq _).trans ((select _).trans (waits .ready d))

/-- A read sends nothing. -/
theorem ataReadSector_sent (lba : Word) (buffer : Sector) (d : Ata) :
    (ataReadSector lba buffer d).2.2.sent = d.sent := by
  rcases ataReadSector_cases lba buffer d with ⟨-, fails⟩ | ⟨-, -, -, drive⟩
  · rw [fails]
    exact ataStart_sent ataCmdRead lba d
  · rw [drive]
    exact ataStart_sent ataCmdRead lba d

/-- A write that fails sends nothing; one that returns 0 sends its buffer to its sector. -/
theorem ataWriteSector_sent (lba : Word) (buffer : Sector) (d : Ata) :
    ((ataWriteSector lba buffer d).1 = -1 ∧ (ataWriteSector lba buffer d).2.sent = d.sent) ∨
      ((ataWriteSector lba buffer d).1 = 0 ∧
        (ataWriteSector lba buffer d).2.sent = d.sent ++ (List.range 256).map buffer.word ∧
        Programmed (ataWriteSector lba buffer d).2.ports (lba.toNat % 2 ^ 28)) := by
  have sent := ataStart_sent ataCmdWrite lba d
  rcases ataStart_range ataCmdWrite lba d with zero | fails
  · have returns := (ataWriteSector_zero_iff lba buffer d).mpr zero
    obtain ⟨flush, asked⟩ := ataWriteSector_asked returns
    refine .inr ⟨returns, ?_, asked.programmed⟩
    rw [ataWriteSector_eq, if_neg (by omega), outWords, ← sent]
    rfl
  · rw [ataWriteSector_eq, if_pos (by omega)]
    exact .inl ⟨rfl, sent⟩

/-! ## One call -/

/-- A call has an outcome that the store may give, and does to the drive what it says. -/
theorem run_keeps (serves : ServesSectors d sectors) (call : SectorCall)
    (keeps : DriveKeeps d (call.run d).2 sectors sectors') :
    (call.run d).1.Allowed sectors ∧ sectors' = (call.run d).1.apply sectors := by
  cases call with
  | read lba buffer =>
      refine ⟨?_, keeps.silent (ataReadSector_sent lba buffer d)⟩
      rcases (ataReadSector_serves serves lba buffer).1 with ⟨fails, -⟩ | ⟨zero, sector⟩
      · show Event.Allowed sectors (.read _ (if (ataReadSector lba buffer d).1 = 0 then _ else _))
        rw [fails]
        trivial
      · show Event.Allowed sectors (.read _ (if (ataReadSector lba buffer d).1 = 0 then _ else _))
        rw [if_pos zero]
        exact sector
  | write lba buffer =>
      refine ⟨trivial, ?_⟩
      show _ = Event.apply (.write _ buffer (decide ((ataWriteSector lba buffer d).1 = 0))) sectors
      rcases ataWriteSector_sent lba buffer d with ⟨fails, sent⟩ | ⟨zero, sent, programmed⟩
      · rw [fails]
        exact keeps.silent sent
      · have stored := keeps.stored _ _ sent (by simp) programmed
        rw [ofWords_range] at stored
        rw [zero]
        exact stored

/-! ## Call after call -/

theorem DriveRun.history (run : DriveRun d sectors events d' sectors') :
    History sectors events ∧ sectors' = after sectors events := by
  induction run with
  | nil => exact ⟨.nil, rfl⟩
  | cons call serves keeps _ ih =>
      obtain ⟨allowed, rfl⟩ := run_keeps serves call keeps
      exact ⟨.cons allowed ih.1, ih.2⟩

/-- After any calls of the driver, on a drive whose status may fail any of them: a read fails and
leaves its buffer alone, or it returns 0 and the buffer has what the last write that returned 0
sent to a sector number with the same low 28 bits, or what was there at the start. -/
theorem ata_store (run : DriveRun d sectors events d' sectors')
    (serves : ServesSectors d' sectors') (lba : Word) (buffer : Sector) :
    ((ataReadSector lba buffer d').1 = -1 ∧ (ataReadSector lba buffer d').2.1 = buffer) ∨
      ((ataReadSector lba buffer d').1 = 0 ∧
        (ataReadSector lba buffer d').2.1 =
          (lastWrite (lba.toNat % 2 ^ 28) none events).getD (sectors (lba.toNat % 2 ^ 28))) := by
  have holds := run.history.2
  rw [← after_eq, ← holds]
  exact (ataReadSector_serves serves lba buffer).1

/-! ## A drive that keeps what is sent to it -/

/-- A drive that is always ready, with these sectors. -/
def loadedDrive (sectors : Nat → Sector) : Ata :=
  { steadyDrive with data := fun ports n => (sectors (lba28 ports)).word (n % 256) }

theorem loadedDrive_serves (sectors : Nat → Sector) :
    ServesSectors (loadedDrive sectors) sectors := by
  refine ⟨fun ports lba _ programmed n => ?_, Nat.dvd_zero 256⟩
  show (sectors (lba28 ports)).word (n % 256) = _
  rw [programmed.decodes]

theorem ataStart_loadedDrive (command : Byte) (lba : Word) (sectors : Nat → Sector) :
    (ataStart command lba (loadedDrive sectors)).1 = 0 := by
  have ready : (ataWaitReady (loadedDrive sectors)).1 = 0 :=
    ataWait_of_awaited (show 0x48#8 &&& ataStatusErr = 0#8 by decide)
      (show WaitKind.ready.Awaited 0x48#8 by decide)
  have drq : (ataWaitDrq (ataSelect command lba (ataWaitReady (loadedDrive sectors)).2)).1 = 0 :=
    ataWait_of_awaited (show 0x48#8 &&& ataStatusErr = 0#8 by decide)
      (show WaitKind.drq.Awaited 0x48#8 by decide)
  rw [ataStart_eq, ready, drq]
  rfl

/-- It keeps what is written to it. -/
theorem loadedDrive_keeps (lba : Word) (buffer : Sector) (sectors : Nat → Sector) :
    DriveKeeps (loadedDrive sectors) (ataWriteSector lba buffer (loadedDrive sectors)).2 sectors
      (Function.update sectors (lba.toNat % 2 ^ 28) buffer) := by
  have zero := (ataWriteSector_zero_iff lba buffer (loadedDrive sectors)).mpr
    (ataStart_loadedDrive ataCmdWrite lba sectors)
  rcases ataWriteSector_sent lba buffer (loadedDrive sectors) with
    ⟨fails, -⟩ | ⟨-, sent, programmed⟩
  · rw [zero] at fails
    cases fails
  · refine ⟨fun silent => ?_, fun words lba' sent' size programmed' => ?_⟩
    · have lengths := congrArg List.length (sent.symm.trans silent)
      simp at lengths
    · have same := List.append_cancel_left (sent.symm.trans sent')
      rw [← same, ofWords_range, ← programmed.decodes, ← programmed'.decodes]

/-- Sector 5 is written, and the sector 2^28 + 5 is read. -/
theorem ata_store_wraps :
    (ataReadSector 0x10000005#32 (fun _ => 0#8)
      (loadedDrive (Function.update (fun _ _ => 0#8) 5 fun _ => 1#8))).2.1 = fun _ => 1#8 := by
  have run : DriveRun (loadedDrive fun _ _ => 0#8) (fun _ _ => 0#8) _
      (loadedDrive (Function.update (fun _ _ => 0#8) 5 fun _ => 1#8))
      (Function.update (fun _ _ => 0#8) 5 fun _ => 1#8) :=
    .cons (.write 5#32 fun _ => 1#8) (loadedDrive_serves _) (loadedDrive_keeps _ _ _) .nil
  have written := (ataWriteSector_zero_iff 5#32 (fun _ => 1#8) (loadedDrive fun _ _ => 0#8)).mpr
    (ataStart_loadedDrive ataCmdWrite 5#32 _)
  rcases ata_store run (loadedDrive_serves _) 0x10000005#32 (fun _ => 0#8) with
    ⟨fails, -⟩ | ⟨-, sector⟩
  · rcases ataReadSector_cases 0x10000005#32 (fun _ => 0#8)
      (loadedDrive (Function.update (fun _ _ => 0#8) 5 fun _ => 1#8)) with
      ⟨started, -⟩ | ⟨-, zero, -, -⟩
    · rw [ataStart_loadedDrive] at started
      cases started
    · rw [zero] at fails
      cases fails
  · rw [sector, SectorCall.run, written]
    rfl

end Learnix
