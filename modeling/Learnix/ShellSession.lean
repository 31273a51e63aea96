import Learnix.ShellRun

/-!
# A session of the shell

A session has no arrays: it edits a line, takes it for a command, and shows characters in
colours (`Session.round`). On any disk, with any loaded programs and whatever the arrays held
before, the shell does round for round what the session does (`shell_session`), as long as no
file that is asked for with `cat` is too large for `filebuf`.
-/

namespace Learnix

open Machine LineEditor Lockstep Padded

/-- What the user sees of the shell: the keys that are not read yet, the processes, the screen,
and whether the shell has ended. -/
structure Session where
  keys : List Byte
  procs : ProcState
  screen : Vga
  exited : Bool

/-- A text in a colour. -/
def sayOut (fg : Byte) (text : String) : List Output := colorOut fg ++ literalOut text

/-- The 8+3 form of a name, padded. -/
def eightThree (s : CString) : Fin 11 → Byte :=
  Fin.append (pad space 8 (s.stem.map upperCase)) (pad space 3 (s.suffix.map upperCase))

/-- The text of the file with this name: its first sector, up to its size or a NUL; `none` if it
is not there, or empty, or cannot be read. -/
def fileText (disk : Disk) (fs : Fat16) (name : Fin 11 → Byte) : Option CString :=
  (openedEntry disk fs name).bind fun e =>
    (disk (firstSector fs e.firstCluster)).bind fun sector =>
      if e.fileSize = 0#32 then none
      else some (upToNul ((List.ofFn sector).take e.fileSize.toNat))

/-- What is shown of the keys that the editor reads. -/
def echoOut (limit : Nat) : List Byte → List Byte → List Output
  | _, [] => []
  | line, c :: keys =>
    if line.length < limit then
      if c = newline then textOut enterText.chars
      else if c = backspace then
        (if line = [] then [] else textOut eraseText.chars) ++ echoOut limit line.dropLast keys
      else textOut (charString c).chars ++ echoOut limit (line ++ [c]) keys
    else []

namespace Session

/-- Characters and colours are shown. -/
def put (out : List Output) (s : Session) : Session := { s with screen := drawn out s.screen }

def act (a : Activity) (s : Session) : Session :=
  { s with keys := s.keys.drop a.reads, procs := a.procs, screen := s.screen.paint a.picture }

def close (s : Session) : Session := { s with procs := processExit s.procs, exited := true }

end Session

/-- What `cat` shows. -/
def catOut (text : Option CString) (archivo : CString) : List Output :=
  match text with
  | some text => colorOut vgaYellow ++ textOut text.chars ++ literalOut "\n"
  | none => sayOut vgaLightRed "Archivo no encontrado: " ++ textOut archivo.chars ++ literalOut "\n"

/-- What `process_print_all` shows. -/
def psOut (s : ProcState) : Option (List Output) :=
  if s.currentProcess = 0#32 then some (literalOut "[PROC] Sin procesos\n")
  else (processPrintAll s).map processListing

/-- What `sys` shows. -/
def sysOut : List Output :=
  sayOut vgaLightCyan "Invocando INT 0x80 con SYS_WRITE...\n" ++ colorOut vgaYellow ++
    (sayOut vgaLightRed "[SYS] Syscall desconocida: " ++ intOut 16#32 ++ literalOut "\n") ++
    sayOut vgaLightGreen "Syscall completada\n"

/-- What `help` shows. -/
def helpOut : List Output :=
  sayOut vgaLightCyan "Comandos disponibles:\n" ++ colorOut vgaWhite ++ helpLines.flatMap literalOut

/-- What `process_exit` shows of the process. -/
def exitOut (b : Pcb) : List Output :=
  sayOut vgaLightRed "[PROC] Proceso PID=" ++ intOut b.pid ++ literalOut " [" ++
    textOut (upToNul b.name).chars ++ literalOut "] terminado\n"

/-- What is shown for an unknown command. -/
def unknownOut (cmd : CString) : List Output :=
  sayOut vgaLightRed "Comando desconocido: " ++ textOut cmd.chars ++ literalOut "\n" ++
    sayOut vgaWhite "Escribe 'help' para ver los comandos\n"

namespace Session

/-- `run`. -/
def run (m : Machinery) (elf : CString) (s : Session) : Option Session :=
  (m.programs.elfLoad (eightThree elf) s.keys s.procs s.screen.picture).bind fun r =>
    let s := s.act r.2
    if r.1 then
      let s := s.put (sayOut vgaLightGreen "Programa cargado. Ejecutando...\n" ++ colorOut vgaWhite)
      (m.programs.wait s.keys s.procs s.screen.picture).map fun a =>
        (s.act a).put (sayOut vgaLightCyan "\n[El programa termino]\n")
    else some (s.put (sayOut vgaLightRed "No se pudo cargar el programa\n"))

/-- `exit`. -/
def exit (s : Session) : Session :=
  if s.procs.currentProcess = 0#32 then s.put (sayOut vgaYellow "Cerrando shell...\n")
  else
    ((s.put (sayOut vgaYellow "Cerrando shell...\n")).put
      (exitOut (s.procs.pcb s.procs.currentProcess))).close

/-- What a command means. -/
def execute (m : Machinery) (c : Command) (s : Session) : Option Session :=
  match c with
  | .nothing => some s
  | .ls => some (s.put (rootListing (fat16ListRoot m.disk m.fs)))
  | .ps => (psOut s.procs).map s.put
  | .cat archivo => some (s.put (catOut (fileText m.disk m.fs (eightThree archivo)) archivo))
  | .run elf => s.run m elf
  | .sys => some (s.put sysOut)
  | .help => some (s.put helpOut)
  | .exit => some s.exit
  | .unknown cmd => some (s.put (unknownOut cmd))

/-- A prompt, a line, and its command. -/
def round (m : Machinery) (s : Session) : Option Session :=
  if s.exited then some s
  else
    (LineEditor.run newline backspace 63 [] s.keys).bind fun r =>
      execute m (shellCommand (upToNul r.1)) ({ s with keys := r.2 }.put
        (sayOut vgaLightCyan "learnix> " ++ colorOut vgaWhite ++ echoOut 63 [] s.keys ++
          textOut [newline]))

end Session

/-- What is shown before the first prompt. -/
def bannerOut : List Output :=
  colorOut vgaLightGreen ++ bannerLines.flatMap literalOut ++
    sayOut vgaWhite "Comandos: ls  cat <archivo>  run <elf>  ps  sys  help  exit\n\n"

/-- So many rounds, after the banner on a clear screen. -/
def Session.rounds (m : Machinery) (n : Nat) (s : Session) : Option Session :=
  (processBlockOthers s.procs).bind fun procs =>
    Lockstep.rounds (Session.round m) n
      ({ s with procs := procs, screen := vgaClear s.screen }.put bannerOut)

/-- If the next line is `cat` and a name, the file of this name leaves room for its NUL. -/
def Session.CatFits (m : Machinery) (s : Session) : Prop :=
  ∀ line rest archivo, s.exited = false →
    LineEditor.run newline backspace 63 [] s.keys = some (line, rest) →
    shellCommand (upToNul line) = .cat archivo → LeavesRoom m.disk m.fs (eightThree archivo)

/-- The shell stands where the session does, and shows the same. -/
structure Follows (s : Shell) (t : Session) : Prop where
  keys : s.keys = t.keys
  procs : s.procs = t.procs
  exited : s.exited = t.exited
  screen : SameScreen s.screen t.screen
  typed : ∀ c ∈ t.keys, c ≠ 0#8

variable {screen : Vga} {s : Shell} {t : Session} {m : Machinery} {call : Vga → Vga}
  {out : List Output} {keys line : List Byte} {l l' : Line} {max : Word}

theorem Session.put_screen (out : List Output) (t : Session) :
    (t.put out).screen = drawn out t.screen := rfl

theorem Session.put_put (out out' : List Output) : (t.put out).put out' = t.put (out ++ out') := by
  simp only [Session.put, drawn_append]

/-! ## What is shown -/

theorem draws_say (fg : Byte) (text : String) : Draws (say fg text) (sayOut fg text) :=
  (draws_vgaSetColor fg).andThen (draws_literal text)

theorem draws_lines (lines : List String) :
    Draws (fun screen => lines.foldl (fun screen text => vgaPrint (literalText text) screen) screen)
      (lines.flatMap literalOut) :=
  draws_foldl lines fun text _ => draws_literal text

theorem draws_showPrompt :
    Draws showPrompt (sayOut vgaLightCyan "learnix> " ++ colorOut vgaWhite) :=
  (draws_say vgaLightCyan "learnix> ").andThen (draws_vgaSetColor vgaWhite)

theorem draws_shellBanner : Draws shellBanner bannerOut := by
  have header := (draws_vgaSetColor vgaLightGreen).andThen (draws_lines bannerLines)
  have all := header.andThen
    (draws_say vgaWhite "Comandos: ls  cat <archivo>  run <elf>  ps  sys  help  exit\n\n")
  unfold shellBanner bannerOut
  exact all

theorem draws_syscallDefault (eax : Word) (digits : Int → Byte) :
    Draws (syscallDefault eax digits)
      (sayOut vgaLightRed "[SYS] Syscall desconocida: " ++ intOut eax ++ literalOut "\n") :=
  ((draws_say vgaLightRed "[SYS] Syscall desconocida: ").andThen
    (draws_vgaPrintInt eax digits)).andThen (draws_literal "\n")

/-- The stub passes 16. -/
theorem draws_shellSys (digits : Int → Byte) : Draws (shellSys digits) sysOut := by
  have invoked := (draws_say vgaLightCyan "Invocando INT 0x80 con SYS_WRITE...\n").andThen
    (draws_vgaSetColor vgaYellow)
  exact (invoked.andThen (draws_syscallDefault (numberPassed 2#32) digits)).andThen
    (draws_say vgaLightGreen "Syscall completada\n")

theorem draws_shellHelp : Draws shellHelp helpOut := by
  have header := (draws_say vgaLightCyan "Comandos disponibles:\n").andThen
    (draws_vgaSetColor vgaWhite)
  have all := header.andThen (draws_lines helpLines)
  unfold shellHelp helpOut
  exact all

theorem draws_showExit (b : Pcb) (digits : Int → Byte) :
    Draws (showExit b digits) (exitOut b) := by
  have pid := (draws_say vgaLightRed "[PROC] Proceso PID=").andThen (draws_vgaPrintInt b.pid digits)
  have name := (pid.andThen (draws_literal " [")).andThen (draws_vgaPrint (upToNul b.name))
  exact name.andThen (draws_literal "] terminado\n")

theorem draws_shellUnknown (cmd : CString) : Draws (shellUnknown cmd) (unknownOut cmd) :=
  (((draws_say vgaLightRed "Comando desconocido: ").andThen (draws_vgaPrint cmd)).andThen
    (draws_literal "\n")).andThen (draws_say vgaWhite "Escribe 'help' para ver los comandos\n")

theorem Follows.print (follows : Follows s t) (draws : Draws call out) :
    Follows (s.print call) (t.put out) := by
  refine ⟨follows.keys, follows.procs, follows.exited, ?_, follows.typed⟩
  exact (draws s.screen).trans (follows.screen.drawn out)

theorem Follows.act (follows : Follows s t) (a : Activity) :
    Follows (s.act a) (t.act a) := by
  refine ⟨congrArg (List.drop a.reads) follows.keys, rfl, follows.exited,
    sameScreen_paint a.picture s.screen t.screen, fun c member => ?_⟩
  exact follows.typed c (List.mem_of_mem_drop member)

theorem Follows.close (follows : Follows s t) : Follows s.close t.close :=
  ⟨follows.keys, congrArg processExit follows.procs, rfl, follows.screen, follows.typed⟩

/-! ## The line -/

/-- What the loop of the reader shows. -/
theorem readLoop_echo (nonzero : 1 ≤ max.toNat) {rest : List Byte} (holds : HoldsLine max l line)
    (loop : readLoop (fun i => i.ult (max - 1#32)) (fun i => (0#32).ult i) (fun i => i.toNat) keys
      l = some (l', rest)) :
    SameScreen l'.screen (drawn (echoOut (max.toNat - 1) line keys) l.screen) := by
  induction keys generalizing l line with
  | nil =>
      rw [readLoop] at loop
      split at loop
      · cases loop
      · cases loop
        exact sameScreen_refl _
  | cons c keys ih =>
      rw [readLoop] at loop
      rw [echoOut]
      by_cases room : line.length < max.toNat - 1
      · rw [if_pos ((holds.more nonzero).mpr room)] at loop
        rw [if_pos room]
        simp only at loop
        by_cases end_ : c = newline
        · rw [if_pos end_] at loop
          cases loop
          rw [if_pos end_, end_]
          exact draws_vgaPrint enterText l.screen
        · rw [if_neg end_] at loop
          rw [if_neg end_]
          by_cases erase : c = backspace
          · rw [if_pos erase] at loop
            rw [if_pos erase, drawn_append]
            refine (ih (holds.erase _ _) loop).trans (SameScreen.drawn ?_ _)
            have still : echo c l.screen = l.screen := by rw [echo, if_neg end_, if_pos erase]
            have count := holds.count
            by_cases empty : line = []
            · have zero : ¬ (0#32).ult l.i = true := by
                rw [BitVec.ult_iff_lt]
                rw [empty, List.length_nil] at count
                bv_omega
              rw [if_neg zero, if_pos empty, still]
              exact sameScreen_refl _
            · have some_ : (0#32).ult l.i = true := by
                rw [BitVec.ult_iff_lt]
                have pos := List.length_pos_iff.mpr empty
                bv_omega
              rw [if_pos some_, if_neg empty, still]
              exact draws_vgaPrint eraseText l.screen
          · rw [if_neg erase] at loop
            rw [if_neg erase, drawn_append]
            refine (ih (holds.append room c _) loop).trans (SameScreen.drawn ?_ _)
            have shown : echo c l.screen = vgaPrint (charString c) l.screen := by
              rw [echo, if_neg end_, if_neg erase]
            show SameScreen (echo c l.screen) _
            rw [shown]
            exact draws_vgaPrint (charString c) l.screen
      · rw [if_neg (mt (holds.more nonzero).mp room)] at loop
        cases loop
        rw [if_neg room]
        exact sameScreen_refl _

/-- `leer_linea` reads the line that the editor leaves, and shows what was typed. -/
theorem leerLinea_session (typed : ∀ c ∈ keys, c ≠ 0#8) (buf : Int → Byte) (screen : Vga) :
    match LineEditor.run newline backspace 63 [] keys with
    | none => leerLinea cmdMax keys buf screen = none
    | some (line, rest) => ∃ l, leerLinea cmdMax keys buf screen = some (l, rest) ∧
        HoldsString l.buf line ∧
        SameScreen l.screen (drawn (echoOut 63 [] keys ++ textOut [newline]) screen) := by
  have nonzero : 1 ≤ cmdMax.toNat := by decide
  have small : cmdMax.toNat < 2 ^ 31 := by decide
  have start : HoldsLine cmdMax ⟨0#32, buf, [], screen⟩ [] :=
    ⟨rfl, fun k below => absurd below (Nat.not_lt_zero k), by simp⟩
  have limit : cmdMax.toNat - 1 = 63 := rfl
  have loop := readLoop_editor nonzero keys start
  rw [limit] at loop
  have signed := readLoop_signed nonzero small keys (l := ⟨0#32, buf, [], screen⟩) nonzero
  cases edited : LineEditor.run newline backspace 63 [] keys with
  | none =>
      rw [edited] at loop
      rw [leerLinea, signed, loop]
      rfl
  | some r =>
      rcases r with ⟨line, rest⟩
      obtain ⟨l, call, holds⟩ := leerLinea_of_run typed nonzero small edited buf screen
      refine ⟨l, call, holds, ?_⟩
      rw [leerLinea, signed] at call
      obtain ⟨⟨u, rest'⟩, stopped, same⟩ := Option.map_eq_some_iff.mp call
      cases same
      rw [drawn_append]
      have newlineText : (charString newline).chars = [newline] := rfl
      have ended := draws_vgaPrint (charString newline) u.screen
      rw [newlineText] at ended
      exact ended.trans ((readLoop_echo nonzero start stopped).drawn _)

/-! ## The commands -/

theorem showLoop_eq (procs : ProcState) (digits : Int → Byte) (fuel : Nat) (p : Word)
    (screen : Vga) : showLoop procs digits fuel p screen =
      (printLoop procs fuel p).map fun listed =>
        listed.foldl (fun screen b => showProcess digits b screen) screen := by
  induction fuel generalizing p screen with
  | zero => rfl
  | succ fuel ih =>
      rw [showLoop, printLoop]
      split
      · rw [ih, Option.map_map]
        rfl
      · rfl

/-- `ps` shows the processes that `process_print_all` goes through. -/
theorem Follows.ps (follows : Follows s t) (digits : Int → Byte) :
    Option.Rel Follows
      ((showProcesses s.procs digits s.screen).map fun screen => { s with screen := screen })
      ((psOut t.procs).map t.put) := by
  rw [← follows.procs]
  unfold showProcesses psOut
  by_cases none_ : s.procs.currentProcess = 0#32
  · rw [if_pos none_, if_pos none_]
    exact .some (follows.print (draws_literal "[PROC] Sin procesos\n"))
  · rw [if_neg none_, if_neg none_, showLoop_eq, processPrintAll, if_neg none_]
    cases printLoop s.procs pointerSpace s.procs.currentProcess with
    | none => exact .none
    | some listed =>
        have header := (draws_vgaSetColor vgaLightCyan).andThen
          (draws_literal "[PROC] Lista de procesos:\n")
        exact .some (follows.print (header.andThen
          (draws_foldl listed fun b _ => draws_showProcess digits b)))

/-- What is in a buffer that holds the beginning of a sector and a NUL after it. -/
theorem fileString_eq {b : Word → Byte} {sector : Sector} {size : Nat} (room : size < fileBufSize)
    (bytes : ∀ k : Nat, k < size → b (BitVec.ofNat 32 k) = sector.byte k)
    (nul : b (BitVec.ofNat 32 size) = 0#8) :
    fileString b = upToNul ((List.ofFn sector).take size) := by
  refine CString.eq_of_chars ?_
  have whole : (List.range size).map (fun k => b (BitVec.ofNat 32 k)) =
      (List.ofFn sector).take size := by
    refine List.ext_getElem ?_ fun k below _ => ?_
    · rw [List.length_map, List.length_range, List.length_take, List.length_ofFn]
      exact (Nat.min_eq_left (Nat.le_of_lt room)).symm
    · rw [List.length_map, List.length_range] at below
      have inside : k < 512 := Nat.lt_trans below room
      rw [List.getElem_map, List.getElem_range, List.getElem_take, List.getElem_ofFn, bytes k below,
        Sector.byte]
      exact congrArg sector (Fin.ext (Nat.mod_eq_of_lt inside))
  rw [fileString, chars_upToNul_range room nul, whole]

/-- A file that leaves room for its NUL is shown up to its end or a NUL of its own. -/
theorem cat_fileText {disk : Disk} {fs : Fat16} {name : Fin 11 → Byte}
    (room : LeavesRoom disk fs name) (filebuf : Word → Byte) :
    ∃ n b, cat disk fs name filebuf = some (n, b) ∧ match fileText disk fs name with
      | none => ¬ n > 0
      | some text => n > 0 ∧ n < fileBufSize ∧ fileString b = text := by
  have small : (BitVec.ofNat 32 fileBufSize).toNat < 2 ^ 31 := by decide
  unfold cat readText fileText openedEntry
  rcases scanRoot_root disk fs name with ⟨none_, absent⟩ | ⟨i, e, found, first⟩
  · rcases fat16ReadFile_any disk fs name small with ⟨-, fails⟩ | ⟨i, e, -, first, -⟩
    · rw [fails, none_]
      exact ⟨-1, filebuf, rfl, fun pos => absurd pos (by decide : ¬ (-1 : Int) > 0)⟩
    · exact absurd first.1 (absent i e)
  · rcases fat16ReadFile_any disk fs name small with
      ⟨absent, -⟩ | ⟨i', e', j, first', sound, stop, reads⟩
    · exact absurd first.1 (absent i e)
    · obtain ⟨-, rfl⟩ := first'.unique first
      obtain ⟨b, call, bytes⟩ := reads filebuf
      have limit : readSize e' (BitVec.ofNat 32 fileBufSize) = min e'.fileSize.toNat 512 := rfl
      rw [limit] at stop call bytes
      rw [call, found, Option.map_some, Option.bind_some]
      cases read : disk (firstSector fs e'.firstCluster) with
      | none =>
          have nothing : j = 0 := by
            by_contra some_
            refine sound 0 (Nat.pos_of_ne_zero some_) ?_
            rwa [BitVec.add_zero]
          have count : min (512 * j) (min e'.fileSize.toNat 512) = 0 := by omega
          rw [count]
          exact ⟨_, _, rfl, lt_irrefl _⟩
      | some sector =>
          have short : e'.fileSize.toNat < fileBufSize := by
            rcases room i' e' first' with short | unreadable
            · exact short
            · exact absurd (read.symm.trans unreadable) (Option.some_ne_none sector)
          have count : min (512 * j) (min e'.fileSize.toNat 512) = e'.fileSize.toNat := by
            rw [fileBufSize] at short
            rcases Nat.eq_zero_or_pos j with rfl | some_
            · by_contra more
              have unreadable := stop (by omega)
              rw [BitVec.add_zero] at unreadable
              exact absurd (read.symm.trans unreadable) (Option.some_ne_none sector)
            · omega
          rw [count] at bytes ⊢
          by_cases empty : e'.fileSize = 0#32
          · rw [Option.bind_some, if_pos empty, empty]
            exact ⟨_, _, rfl, lt_irrefl _⟩
          · have some_ : 0 < e'.fileSize.toNat :=
              Nat.pos_of_ne_zero fun zero => empty (BitVec.eq_of_toNat_eq zero)
            have pos : ((e'.fileSize.toNat : Nat) : Int) > 0 := Int.natCast_pos.mpr some_
            rw [Option.bind_some, if_neg empty]
            refine ⟨_, _, rfl, pos, Int.ofNat_lt.mpr short, ?_⟩
            simp only [if_pos pos, BitVec.ofInt_natCast]
            refine fileString_eq short (fun k below => ?_) (Function.update_self _ _ _)
            have place : (BitVec.ofNat 32 k).toNat = k := by
              rw [BitVec.toNat_ofNat]
              exact Nat.mod_eq_of_lt (by omega)
            have other : BitVec.ofNat 32 k ≠ BitVec.ofNat 32 e'.fileSize.toNat := by
              intro same
              rw [BitVec.ofNat_toNat, BitVec.setWidth_eq] at same
              rw [same] at place
              omega
            have inside : k / 512 = 0 := Nat.div_eq_of_lt (Nat.lt_trans below short)
            have index : k % 512 = k := Nat.mod_eq_of_lt (Nat.lt_trans below short)
            rw [Function.update_of_ne other, bytes, place, if_pos below, byteFrom, inside, index,
              BitVec.add_zero, read]
            rfl

theorem Follows.cat (follows : Follows s t) (archivo : CString)
    (room : LeavesRoom m.disk m.fs (eightThree archivo)) :
    Option.Rel Follows (shellCat m archivo s)
      (some (t.put (catOut (fileText m.disk m.fs (eightThree archivo)) archivo))) := by
  have name : nameBytes (toFatName archivo s.fatname) = eightThree archivo :=
    nameBytes_toFatName archivo s.fatname
  obtain ⟨n, b, call, shown⟩ := cat_fileText room s.filebuf
  have kept : Follows { s with fatname := toFatName archivo s.fatname, filebuf := b } t :=
    ⟨follows.keys, follows.procs, follows.exited, follows.screen, follows.typed⟩
  unfold shellCat
  simp only [name, call, Option.bind_some]
  generalize fileText m.disk m.fs (eightThree archivo) = text at shown ⊢
  cases text with
  | none =>
      rw [if_neg shown]
      exact .some (kept.print (((draws_say vgaLightRed "Archivo no encontrado: ").andThen
        (draws_vgaPrint archivo)).andThen (draws_literal "\n")))
  | some text =>
      rcases shown with ⟨pos, below, rfl⟩
      rw [if_pos pos, if_pos below]
      exact .some (kept.print (((draws_vgaSetColor vgaYellow).andThen
        (draws_vgaPrint (fileString b))).andThen (draws_literal "\n")))

/-- The programs find the same keys, processes and picture. -/
theorem Follows.run (follows : Follows s t) (elf : CString) :
    Option.Rel Follows (shellRun m elf s) (t.run m elf) := by
  have name : nameBytes (toFatName elf s.fatname) = eightThree elf :=
    nameBytes_toFatName elf s.fatname
  have kept : Follows
      { s with fatname := toFatName elf s.fatname, keys := t.keys, procs := t.procs } t :=
    ⟨rfl, rfl, follows.exited, follows.screen, follows.typed⟩
  unfold shellRun Session.run
  simp only [name, follows.keys, follows.procs, follows.screen.picture_eq]
  apply rel_bind_same
  rintro ⟨loaded, a⟩
  cases loaded with
  | false =>
      exact .some ((kept.act a).print (draws_say vgaLightRed "No se pudo cargar el programa\n"))
  | true =>
      have started := (kept.act a).print
        ((draws_say vgaLightGreen "Programa cargado. Ejecutando...\n").andThen
          (draws_vgaSetColor vgaWhite))
      simp only [if_true]
      rw [started.keys, started.procs, started.screen.picture_eq]
      apply rel_map_same
      intro waited
      exact (started.act waited).print (draws_say vgaLightCyan "\n[El programa termino]\n")

theorem Follows.exit (follows : Follows s t) (digits : Int → Byte) :
    Follows (shellExit digits s) t.exit := by
  have closing := follows.print (draws_say vgaYellow "Cerrando shell...\n")
  have said := closing.print (draws_showExit (t.procs.pcb t.procs.currentProcess) digits)
  unfold shellExit Session.exit
  rw [follows.procs]
  split
  · exact closing
  · exact said.close

/-- Every command does what it means. -/
theorem Follows.execute (follows : Follows s t) (c : Command)
    (rooms : ∀ archivo, c = .cat archivo → LeavesRoom m.disk m.fs (eightThree archivo)) :
    Option.Rel Follows (shellExecute m c s) (t.execute m c) := by
  cases c with
  | nothing => exact .some follows
  | ls => exact .some (follows.print (draws_showRoot m.disk m.fs m.digits))
  | ps => exact follows.ps m.digits
  | cat archivo => exact follows.cat archivo (rooms archivo rfl)
  | run elf => exact follows.run elf
  | sys => exact .some (follows.print (draws_shellSys m.digits))
  | help => exact .some (follows.print draws_shellHelp)
  | exit => exact .some (follows.exit m.digits)
  | unknown cmd => exact .some (follows.print (draws_shellUnknown cmd))

/-- A round of the loop is a round of the session. -/
theorem Follows.round (follows : Follows s t) (fits : t.CatFits m) :
    Option.Rel Follows (shellRound m s) (t.round m) := by
  unfold shellRound Session.round
  rw [follows.exited]
  by_cases exited : t.exited = true
  · rw [if_pos exited, if_pos exited]
    exact .some follows
  · rw [if_neg exited, if_neg exited]
    have prompted := follows.print draws_showPrompt
    have reads := leerLinea_session follows.typed s.cmd (showPrompt s.screen)
    rw [follows.keys]
    cases edited : LineEditor.run newline backspace 63 [] t.keys with
    | none =>
        rw [edited] at reads
        rw [reads]
        exact .none
    | some r =>
        rcases r with ⟨line, rest⟩
        rw [edited] at reads
        rcases reads with ⟨l, call, holds, screen⟩
        have few := length_of_run (Nat.zero_le _) edited
        have inside : line.length < cmdMax.toNat := Nat.lt_succ_of_le few
        have solid : ∀ c ∈ line, c ≠ 0#8 := fun c member =>
          follows.typed c (((mem_of_run edited).1 c member).resolve_left List.not_mem_nil)
        have text : bufString cmdMax.toNat l.buf = upToNul line :=
          CString.eq_of_chars ((holds.chars _ inside).trans (chars_upToNul solid).symm)
        rw [call, Option.bind_some, Option.bind_some, text]
        have read : Follows
            { s with cmd := l.buf, keys := rest, screen := l.screen, exited := t.exited }
            (({ t with keys := rest }.put
                (sayOut vgaLightCyan "learnix> " ++ colorOut vgaWhite)).put
              (echoOut 63 [] t.keys ++ textOut [newline])) := by
          refine ⟨rfl, follows.procs, rfl, ?_, fun c member => ?_⟩
          · exact screen.trans (prompted.screen.drawn _)
          · exact follows.typed c ((mem_of_run edited).2 c member)
        rw [Session.put_put, ← List.append_assoc] at read
        refine read.execute _ fun archivo command => ?_
        exact fits line rest archivo (Bool.not_eq_true _ ▸ exited) edited command

/-- Whatever the arrays hold, and whatever the programs do, on the screen as well: let the session
ask for no file with `cat` that leaves no room. After any number of rounds the shell waits exactly
if the session does, and else has read the same keys, left the same processes, and shows the
screen of the session. -/
theorem shell_session (m : Machinery) (s : Shell) (typed : ∀ c ∈ s.keys, c ≠ 0#8)
    (fresh : s.exited = false) (n : Nat)
    (fits : ∀ k < n, ∀ t, Session.rounds m k ⟨s.keys, s.procs, s.screen, false⟩ = some t →
      t.CatFits m) :
    Option.Rel Follows (shellRounds m n s)
      (Session.rounds m n ⟨s.keys, s.procs, s.screen, false⟩) := by
  unfold Session.rounds at fits
  unfold shellRounds Session.rounds
  cases blocked : processBlockOthers s.procs with
  | none => exact .none
  | some procs =>
      have cleared : Follows { s with procs := procs, screen := vgaClear s.screen }
          ⟨s.keys, procs, vgaClear s.screen, false⟩ :=
        ⟨rfl, rfl, fresh, sameScreen_refl _, typed⟩
      refine rounds_rel (fun a b follows => follows.round) n (cleared.print draws_shellBanner) ?_
      intro k below t reached
      apply fits k below t
      rw [blocked]
      exact reached

/-- A volume with `HOLA.TXT`, which holds four letters. -/
def holaText (lba : Word) : Sector :=
  if lba = 65#32 then
    sectorOf [0x48, 0x4F, 0x4C, 0x41, 0x20, 0x20, 0x20, 0x20, 0x54, 0x58, 0x54, 0x20,
      0, 0, 0, 0, 0, 0, 0, 0, 0, 0, 0, 0, 0, 0, 2, 0, 4, 0, 0, 0]
  else if lba = 97#32 then sectorOf [0x48, 0x6F, 0x6C, 0x61]
  else fragmented lba

/-- A shell on this volume, without loadable programs. -/
def holaMachinery : Machinery :=
  ⟨readable holaText, fragmentedFs, ⟨fun _ _ _ _ => none, fun _ _ _ => none⟩, fun _ => 0xFF#8⟩

theorem leavesRoom_hola (name : Fin 11 → Byte) :
    LeavesRoom holaMachinery.disk holaMachinery.fs name := by
  intro i e first
  have zero : i = 0 := by
    by_contra later
    obtain ⟨d, at_, inUse⟩ := first.1.reached 1 (Nat.one_le_iff_ne_zero.mpr later)
    cases at_
    exact inUse rfl
  subst zero
  have entry : e = entryAt (holaText 65#32) 0 := (Option.some_inj.mp first.1.here).symm
  rw [entry]
  exact .inl (by decide +kernel)

/-- The keys of this text. -/
def typedAs (text : String) : List Byte := text.toList.map fun c => BitVec.ofNat 8 c.toNat

/-- The shell before its first prompt, when these keys will be typed. -/
def shellTyping (keys : List Byte) : Shell :=
  ⟨fun _ => 0xFF#8, fun _ => 0xFF#8, fun _ => 0xFF#8, keys, vgaStart fun _ => 0#16, blankProc,
    false⟩

/-- Two commands are typed. -/
theorem shell_session_hola : ∃ s t,
    shellRounds holaMachinery 2 (shellTyping (typedAs "cat hola.txt\nls\n")) = some s ∧
      Follows s t ∧ t.keys = [] := by
  have session := shell_session holaMachinery (shellTyping (typedAs "cat hola.txt\nls\n"))
    (by decide) rfl 2 fun _ _ _ _ _ _ archivo _ _ _ => leavesRoom_hola (eightThree archivo)
  have ends : (Session.rounds holaMachinery 2 ⟨typedAs "cat hola.txt\nls\n", blankProc,
      vgaStart fun _ => 0#16, false⟩).map (fun t => t.keys) = some [] := by
    decide +kernel
  obtain ⟨t, reached, empty⟩ := Option.map_eq_some_iff.mp ends
  rw [shellTyping, reached] at session
  cases ran : shellRounds holaMachinery 2 (shellTyping (typedAs "cat hola.txt\nls\n")) with
  | none =>
      rw [shellTyping] at ran
      rw [ran] at session
      cases session
  | some s =>
      rw [shellTyping] at ran
      rw [ran] at session
      cases session with
      | some follows => exact ⟨s, t, rfl, follows, empty⟩

end Learnix
