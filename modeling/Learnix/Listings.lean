import Learnix.RingIntegrity
import Learnix.ShellNames
import Learnix.Transcript

/-!
# The listings of `ls` and `ps`

What `fat16_list_root` and `process_print_all` show. On any disk, also on one that cannot be read
to the end, the first shows one row for each file, and their number (`ls_shows_files`); in every
run the second shows one row for each process that was created, the current one first, in the
order of the ring (`ps_shows_processes`). All calls of `vga_print_int` find the same content in
their buffers: it does not matter (`draws_vgaPrintInt`).
-/

namespace Learnix

open Machine CircularList

/-! ## `fat16_list_root` -/

/-- The loops that show a field: up to the first space, each character as a string of its own. -/
def showField : List Byte → Vga → Vga
  | [], screen => screen
  | c :: cs, screen =>
    if c = space then screen else showField cs (vgaPrint (charString c) screen)

/-- `if (entries[i].ext[0] != ' ')`: the extension after a dot. -/
def showExt (ext : List Byte) (screen : Vga) : Vga :=
  if ext.head? ≠ some space then showField ext (vgaPrint (literalText ".") screen) else screen

/-- What the inner loop shows of an entry. `buf` is what the buffer of `vga_print_int` held
before. -/
def showEntry (buf : Int → Byte) (e : Entry) (screen : Vga) : Vga :=
  let screen := vgaSetColor vgaWhite vgaBlack screen
  let screen := vgaPrint (literalText "  ") screen
  let screen := showField (List.ofFn e.name) screen
  let screen := showExt (List.ofFn e.ext) screen
  let screen := vgaPrint (literalText "  size=") screen
  let screen := vgaPrintInt e.fileSize buf screen
  let screen := vgaPrint (literalText " bytes  cluster=") screen
  let screen := vgaPrintInt (e.firstCluster.setWidth 32) buf screen
  vgaPrint (literalText "\n") screen

/-- The inner loop: `count` and the screen, and whether it came to the end of the directory. -/
def showEntries (buf : Int → Byte) : List Entry → Word × Vga → (Word × Vga) × Bool
  | [], r => (r, false)
  | e :: es, r =>
    if e.first = 0x00#8 then (r, true)
    else if e.first = 0xE5#8 then showEntries buf es r
    else if e.attributes &&& attrVolume ≠ 0#8 then showEntries buf es r
    else if e.attributes &&& attrDirectory ≠ 0#8 then showEntries buf es r
    else showEntries buf es (r.1 + 1#32, showEntry buf e r.2)

/-- The outer loop, with `n` sectors to go. -/
def showSectors (disk : Disk) (buf : Int → Byte) : Nat → Word → Word × Vga → Word × Vga
  | 0, _, r => r
  | n + 1, sector, r =>
    match disk sector with
    | none => r
    | some buffer =>
      match showEntries buf (entries buffer) r with
      | (r, true) => r
      | (r, false) => showSectors disk buf n (sector + 1#32) r

/-- The screen after `fat16_list_root`. -/
def showRoot (disk : Disk) (fs : Fat16) (buf : Int → Byte) (screen : Vga) : Vga :=
  let screen := vgaSetColor vgaLightCyan vgaBlack screen
  let screen := vgaPrint (literalText "[FAT16] Directorio raiz:\n") screen
  let r := showSectors disk buf (rootSectors fs.bootSector).toNat fs.rootStart (0#32, screen)
  let screen := vgaSetColor vgaLightGreen vgaBlack r.2
  let screen := vgaPrint (literalText "[FAT16] Total archivos: ") screen
  let screen := vgaPrintInt r.1 buf screen
  vgaPrint (literalText "\n") screen

/-- The row of an entry. -/
def entryRow (e : Entry) : List Output :=
  colorOut vgaWhite ++ literalOut "  " ++ textOut e.listText ++ literalOut "  size=" ++
    intOut e.fileSize ++ literalOut " bytes  cluster=" ++ intOut (e.firstCluster.setWidth 32) ++
    literalOut "\n"

/-- A listing of these entries. -/
def rootListing (listed : List Entry) : List Output :=
  colorOut vgaLightCyan ++ literalOut "[FAT16] Directorio raiz:\n" ++ listed.flatMap entryRow ++
    colorOut vgaLightGreen ++ literalOut "[FAT16] Total archivos: " ++
    intOut (BitVec.ofNat 32 listed.length) ++ literalOut "\n"

variable {disk : Disk} {fs : Fat16} {buf : Int → Byte} {e : Entry} {es : List Entry} {n : Nat}
  {sector : Word} {screen : Vga}

theorem draws_showField (cs : List Byte) : Draws (showField cs) (textOut (fieldText cs)) := by
  induction cs with
  | nil => exact draws_id
  | cons c cs ih =>
      by_cases end_ : c = space
      · have stops : showField (c :: cs) = id := funext fun screen => if_pos end_
        rw [stops, fieldText, if_pos end_]
        exact draws_id
      · have goesOn : showField (c :: cs) = fun screen =>
            showField cs (vgaPrint (charString c) screen) := funext fun screen => if_neg end_
        rw [goesOn, fieldText, if_neg end_, textOut, List.map_append]
        exact (draws_vgaPrint (charString c)).andThen ih

/-- The name, with the extension if there is one. -/
theorem draws_name (e : Entry) :
    Draws (fun screen => showExt (List.ofFn e.ext) (showField (List.ofFn e.name) screen))
      (textOut e.listText) := by
  have stem := draws_showField (List.ofFn e.name)
  have first : (List.ofFn e.ext).head? = some (e.ext 0) := rfl
  rw [Entry.listText, textOut, List.map_append]
  by_cases extended : e.ext 0 ≠ space
  · have shows : showExt (List.ofFn e.ext) = fun screen =>
        showField (List.ofFn e.ext) (vgaPrint (literalText ".") screen) :=
      funext fun screen => if_pos fun same => extended (Option.some_inj.mp (first.symm.trans same))
    rw [shows, if_pos extended]
    exact stem.andThen ((draws_literal ".").andThen (draws_showField (List.ofFn e.ext)))
  · have skips : showExt (List.ofFn e.ext) = id :=
      funext fun screen => if_neg (not_not.mpr (first.trans (congrArg some (not_not.mp extended))))
    rw [skips, if_neg extended]
    exact stem.andThen draws_id

theorem draws_showEntry (buf : Int → Byte) (e : Entry) :
    Draws (showEntry buf e) (entryRow e) := by
  have start := (draws_vgaSetColor vgaWhite).andThen (draws_literal "  ")
  have named := start.andThen (draws_name e)
  have sized := (named.andThen (draws_literal "  size=")).andThen (draws_vgaPrintInt e.fileSize buf)
  exact ((sized.andThen (draws_literal " bytes  cluster=")).andThen
    (draws_vgaPrintInt (e.firstCluster.setWidth 32) buf)).andThen (draws_literal "\n")

/-- The rows of a sector, and the count. -/
theorem showEntries_eq (buf : Int → Byte) (es : List Entry) (r : Word × Vga) :
    (showEntries buf es r).2 = (listEntries es).2 ∧
      (showEntries buf es r).1.1 = r.1 + BitVec.ofNat 32 (listEntries es).1.length ∧
      (showEntries buf es r).1.2 =
        (listEntries es).1.foldl (fun screen e => showEntry buf e screen) r.2 := by
  induction es generalizing r with
  | nil => exact ⟨rfl, (BitVec.add_zero _).symm, rfl⟩
  | cons e es ih =>
      rw [showEntries, listEntries]
      split
      · exact ⟨rfl, (BitVec.add_zero _).symm, rfl⟩
      · split
        · exact ih r
        · split
          · exact ih r
          · split
            · exact ih r
            · obtain ⟨ended, count, shown⟩ := ih (r.1 + 1#32, showEntry buf e r.2)
              refine ⟨ended, count.trans ?_, shown⟩
              rw [List.length_cons, Nat.add_comm, BitVec.ofNat_add, BitVec.add_assoc]

/-- The rows of the sectors, and the count. -/
theorem showSectors_eq (disk : Disk) (buf : Int → Byte) (n : Nat) (sector : Word)
    (r : Word × Vga) :
    showSectors disk buf n sector r =
      (r.1 + BitVec.ofNat 32 (listSectors disk n sector).length,
        (listSectors disk n sector).foldl (fun screen e => showEntry buf e screen) r.2) := by
  induction n generalizing sector r with
  | zero => exact Prod.ext (BitVec.add_zero _).symm rfl
  | succ n ih =>
      rw [showSectors, listSectors]
      cases disk sector with
      | none => exact Prod.ext (BitVec.add_zero _).symm rfl
      | some buffer =>
          obtain ⟨ended, count, shown⟩ := showEntries_eq buf (entries buffer) r
          simp only
          generalize showEntries buf (entries buffer) r = u at ended count shown ⊢
          generalize listEntries (entries buffer) = v at ended count shown ⊢
          rcases u with ⟨⟨k, screen⟩, last⟩
          rcases v with ⟨here, last'⟩
          cases ended
          cases last with
          | true => exact Prod.ext count shown
          | false =>
              simp only at count shown ⊢
              rw [ih, count, shown, List.length_append, List.foldl_append, BitVec.ofNat_add,
                BitVec.add_assoc]

theorem draws_showRoot (disk : Disk) (fs : Fat16) (buf : Int → Byte) :
    Draws (showRoot disk fs buf) (rootListing (fat16ListRoot disk fs)) := by
  have start := (draws_vgaSetColor vgaLightCyan).andThen
    (draws_literal "[FAT16] Directorio raiz:\n")
  have rows := start.andThen (draws_foldl (fat16ListRoot disk fs)
    fun e _ => draws_showEntry buf e)
  have total := (rows.andThen (draws_vgaSetColor vgaLightGreen)).andThen
    (draws_literal "[FAT16] Total archivos: ")
  have all := (total.andThen (draws_vgaPrintInt (BitVec.ofNat 32 (fat16ListRoot disk fs).length)
    buf)).andThen (draws_literal "\n")
  intro screen
  have shown := all screen
  unfold showRoot
  simp only [showSectors_eq, BitVec.zero_add]
  exact shown

/-- The slots of `n` sectors, up to the first sector that cannot be read. -/
def readableSlots (disk : Disk) : Nat → Word → List Entry
  | 0, _ => []
  | n + 1, sector =>
    match disk sector with
    | none => []
    | some buffer => entries buffer ++ readableSlots disk n (sector + 1#32)

theorem listSectors_readableSlots (disk : Disk) (n : Nat) (sector : Word) :
    listSectors disk n sector = filesOf (readableSlots disk n sector) := by
  induction n generalizing sector with
  | zero => rfl
  | succ n ih =>
      rw [listSectors, readableSlots]
      cases disk sector with
      | none => rfl
      | some buffer =>
          simp only
          rw [filesOf_append]
          rcases listEntries (entries buffer) with ⟨shown, _ | _⟩
          · exact congrArg (shown ++ ·) (ih (sector + 1#32))
          · rfl

/-- On any disk: between its header and its footer the listing has one row for each file of the
root directory in front of the entry that ends it, in order, up to the first sector that cannot
be read; and the footer shows their number. -/
theorem ls_shows_files (disk : Disk) (fs : Fat16) (buf : Int → Byte) :
    Draws (showRoot disk fs buf) (rootListing
      (filesOf (readableSlots disk (rootSectors fs.bootSector).toNat fs.rootStart))) := by
  rw [← listSectors_readableSlots]
  exact draws_showRoot disk fs buf

/-! ## `process_print_all` -/

/-- The four tests of the state. -/
def showState (state : ProcessState) (screen : Vga) : Vga :=
  let label (of : ProcessState) (fg : Byte) (text : String) (screen : Vga) :=
    if state = of then vgaPrint (literalText text) (vgaSetColor fg vgaBlack screen) else screen
  label .dead vgaRed "DEAD" (label .blocked vgaLightRed "BLOCKED"
    (label .running vgaYellow "RUNNING" (label .ready vgaLightGreen "READY" screen)))

/-- What one round of the loop shows of a process. -/
def showProcess (buf : Int → Byte) (b : Pcb) (screen : Vga) : Vga :=
  let screen := vgaSetColor vgaWhite vgaBlack screen
  let screen := vgaPrintInt b.pid buf (vgaPrint (literalText "  PID=") screen)
  let screen := vgaPrint (upToNul b.name) (vgaPrint (literalText " [") screen)
  let screen := vgaPrintInt b.priority buf (vgaPrint (literalText "] pri=") screen)
  let screen := vgaPrintInt b.ticksQuantum buf (vgaPrint (literalText " q=") screen)
  let screen := showState b.state (vgaPrint (literalText " estado=") screen)
  vgaPrint (literalText "\n") screen

/-- The `do … while (p != current_process)` loop. -/
def showLoop (s : ProcState) (buf : Int → Byte) : Nat → Word → Vga → Option Vga
  | 0, _, _ => none
  | fuel + 1, p, screen =>
    let screen := showProcess buf (s.pcb p) screen
    if (s.pcb p).next ≠ s.currentProcess then showLoop s buf fuel (s.pcb p).next screen
    else some screen

/-- The screen after `process_print_all`; `none` if the loop does not end. -/
def showProcesses (s : ProcState) (buf : Int → Byte) (screen : Vga) : Option Vga :=
  if s.currentProcess = 0#32 then some (vgaPrint (literalText "[PROC] Sin procesos\n") screen)
  else
    showLoop s buf pointerSpace s.currentProcess
      (vgaPrint (literalText "[PROC] Lista de procesos:\n")
        (vgaSetColor vgaLightCyan vgaBlack screen))

/-- The colour and the name of a state. -/
def stateOut : ProcessState → List Output
  | .ready => colorOut vgaLightGreen ++ literalOut "READY"
  | .running => colorOut vgaYellow ++ literalOut "RUNNING"
  | .blocked => colorOut vgaLightRed ++ literalOut "BLOCKED"
  | .dead => colorOut vgaRed ++ literalOut "DEAD"

/-- The row of a process. -/
def processRow (b : Pcb) : List Output :=
  colorOut vgaWhite ++ (literalOut "  PID=" ++ intOut b.pid) ++
    (literalOut " [" ++ textOut (upToNul b.name).chars) ++
    (literalOut "] pri=" ++ intOut b.priority) ++ (literalOut " q=" ++ intOut b.ticksQuantum) ++
    (literalOut " estado=" ++ stateOut b.state) ++ literalOut "\n"

/-- A listing of these processes. -/
def processListing (listed : List Pcb) : List Output :=
  colorOut vgaLightCyan ++ literalOut "[PROC] Lista de procesos:\n" ++ listed.flatMap processRow

section Processes

variable {s : ProcState} {p : Word} {l created : List Word} {fuel : Nat}

theorem draws_showState (state : ProcessState) : Draws (showState state) (stateOut state) := by
  have label (fg : Byte) (text : String) := (draws_vgaSetColor fg).andThen (draws_literal text)
  cases state with
  | ready => exact label vgaLightGreen "READY"
  | running => exact label vgaYellow "RUNNING"
  | blocked => exact label vgaLightRed "BLOCKED"
  | dead => exact label vgaRed "DEAD"

theorem draws_showProcess (buf : Int → Byte) (b : Pcb) :
    Draws (showProcess buf b) (processRow b) := by
  have pid := (draws_vgaSetColor vgaWhite).andThen
    ((draws_literal "  PID=").andThen (draws_vgaPrintInt b.pid buf))
  have name := pid.andThen ((draws_literal " [").andThen (draws_vgaPrint (upToNul b.name)))
  have priority := name.andThen
    ((draws_literal "] pri=").andThen (draws_vgaPrintInt b.priority buf))
  have quantum := priority.andThen
    ((draws_literal " q=").andThen (draws_vgaPrintInt b.ticksQuantum buf))
  have state := quantum.andThen
    ((draws_literal " estado=").andThen (draws_showState b.state))
  exact state.andThen (draws_literal "\n")

/-- The loop goes along the path, and shows each process of it. -/
theorem showLoop_path (path : Path s.next p l s.currentProcess) (once : s.currentProcess ∉ l)
    (enough : l.length < fuel) (buf : Int → Byte) (screen : Vga) :
    showLoop s buf fuel p screen = some (((p :: l).map s.pcb).foldl
      (fun screen b => showProcess buf b screen) screen) := by
  revert screen
  refine path.rounds (motive := fun fuel p l => ∀ screen, showLoop s buf fuel p screen =
    some (((p :: l).map s.pcb).foldl (fun screen b => showProcess buf b screen) screen))
    ?_ ?_ once enough
  · intro k p back screen
    exact if_neg (not_not.mpr back)
  · intro k p q l first goOn ih screen
    have first : (s.pcb p).next = q := first
    rw [showLoop]
    simp only [first, if_pos goOn]
    rw [ih]
    rfl

/-- The processes of the ring, once around. -/
theorem draws_showProcesses (some_ : s.currentProcess ≠ 0#32) {others : List Word}
    (ring : IsRing s.next s.currentProcess others) (buf : Int → Byte) :
    ∃ call, (∀ screen, showProcesses s buf screen = some (call screen)) ∧
      Draws call (processListing ((s.currentProcess :: others).map s.pcb)) := by
  have enough : others.length < pointerSpace := length_le_pointerSpace ring.nodup
  have header := (draws_vgaSetColor vgaLightCyan).andThen
    (draws_literal "[PROC] Lista de procesos:\n")
  refine ⟨_, fun screen => (if_neg some_).trans
    (showLoop_path ring.path (List.nodup_cons.mp ring.nodup).1 enough buf _), ?_⟩
  exact header.andThen (draws_foldl ((s.currentProcess :: others).map s.pcb)
    fun b _ => draws_showProcess buf b)

/-- In every run: without a process the listing says so; else it shows one row for each of the
processes that were created, the current one first and the others as they follow in the ring,
and each of the numbers from 1 to their number is the pid of one of the rows. -/
theorem ps_shows_processes {t : ProcRunState} {tr : List (Sys.Event ProcRunState ProcOp)}
    (run : Sys.Run ProcStep (procInit s) tr t) (buf : Int → Byte) :
    (t.proc.currentProcess = 0#32 → ∀ screen, showProcesses t.proc buf screen =
      some (vgaPrint (literalText "[PROC] Sin procesos\n") screen)) ∧
    (t.proc.currentProcess ≠ 0#32 → ∃ others call,
      IsRing t.proc.next t.proc.currentProcess others ∧
      (t.proc.currentProcess :: others).Perm t.created ∧
      ((t.proc.currentProcess :: others).map fun p => (t.proc.pcb p).pid.toNat).Perm
        (List.range' 1 t.created.length) ∧
      (∀ screen, showProcesses t.proc buf screen = some (call screen)) ∧
      Draws call (processListing ((t.proc.currentProcess :: others).map t.proc.pcb))) := by
  have inv := (procInvariant_init s).run run
  constructor
  · intro null screen
    exact if_pos null
  · intro some_
    obtain ⟨others, ring, perm, -⟩ := inv.exists_ring some_
    obtain ⟨call, shown, draws⟩ := draws_showProcesses some_ ring buf
    refine ⟨others, call, ring, perm, ?_, shown, draws⟩
    rw [← inv.pids_eq.2]
    exact perm.map _

/-- Two processes are shown. -/
theorem ps_shows_processes_two : ∃ tr t, Sys.Run ProcStep (procInit blankProc) tr t ∧
    ∃ others call, (t.proc.currentProcess :: others).Perm [0x20000D#32, 0x204067#32] ∧
      (∀ screen, showProcesses t.proc (fun _ => 0#8) screen = some (call screen)) ∧
      Draws call (processListing ((t.proc.currentProcess :: others).map t.proc.pcb)) := by
  rcases exists_run (P := fun t => t.created = [0x20000D#32, 0x204067#32] ∧
    t.proc.currentProcess = 0x20000D#32) twoProcesses (by decide +kernel)
    with ⟨tr, t, run, both, first⟩
  have some_ : t.proc.currentProcess ≠ 0#32 := by
    rw [first]
    decide
  rcases (ps_shows_processes run fun _ => 0#8).2 some_ with
    ⟨others, call, -, perm, -, shown, draws⟩
  exact ⟨tr, t, run, others, call, both ▸ perm, shown, draws⟩

end Processes

end Learnix
