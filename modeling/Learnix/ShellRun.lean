import Learnix.LineReader
import Learnix.Listings
import Learnix.ShellCommands
import Learnix.SystemCall
import Learnix.Lib.Lockstep

/-!
# The loop of the shell

`shell_run` reads a line, finds out which command it is, and does what the command says. It keeps
the line, the name and the text of a file in three arrays that it never clears. The disk is
only read; what loaded programs do, and what happens while the shell waits for them, is left open
(`Programs`), but for the memory of the shell, which they leave alone. While the shell has the
processor to itself the ticks of the timer change nothing that it shows.
-/

namespace Learnix

open Machine Lockstep

/-- What the other code that runs before the shell goes on does: how many keys it takes, and
what it leaves of the processes and of the screen, on which it may print and store as it
likes. -/
structure Activity where
  reads : Nat
  procs : ProcState
  picture : Picture

/-- The code that `run` executes: `elf_load`, with the program that it calls and whether it
returns 0, and what happens while `process_count_active() > 1`; `none` if it does not come to an
end. It may depend on the keys, the processes and the screen that it finds; and on what earlier
programs have kept, for no two commands leave the same number of keys. -/
structure Programs where
  elfLoad : (Fin 11 → Byte) → List Byte → ProcState → Picture → Option (Bool × Activity)
  wait : List Byte → ProcState → Picture → Option Activity

/-- The arrays of `shell_run`, the keys that are not read yet, the screen, the processes, and
whether the shell has called `process_exit`. -/
structure Shell where
  cmd : Int → Byte
  fatname : Nat → Byte
  filebuf : Word → Byte
  keys : List Byte
  screen : Vga
  procs : ProcState
  exited : Bool

/-- The surroundings of the shell: the disk, the programs, and what the buffer of
`vga_print_int` holds. -/
structure Machinery where
  disk : Disk
  fs : Fat16
  programs : Programs
  digits : Int → Byte

/-- `CMD_MAX`. -/
def cmdMax : Word := 64#32

/-- A text in a colour. -/
def say (fg : Byte) (text : String) (screen : Vga) : Vga :=
  vgaPrint (literalText text) (vgaSetColor fg vgaBlack screen)

namespace Shell

def print (f : Vga → Vga) (s : Shell) : Shell := { s with screen := f s.screen }

def act (a : Activity) (s : Shell) : Shell :=
  { s with keys := s.keys.drop a.reads, procs := a.procs, screen := s.screen.paint a.picture }

/-- `process_exit`, which does not return. -/
def close (s : Shell) : Shell := { s with procs := processExit s.procs, exited := true }

end Shell

/-- The string in `filebuf`. -/
def fileString (filebuf : Word → Byte) : CString :=
  upToNul ((List.range fileBufSize).map fun k => filebuf (BitVec.ofNat 32 k))

/-- `cat`; `none` if it stores the NUL behind the array. -/
def shellCat (m : Machinery) (archivo : CString) (s : Shell) : Option Shell :=
  let fatname := toFatName archivo s.fatname
  (cat m.disk m.fs (nameBytes fatname) s.filebuf).bind fun r =>
    let s := { s with fatname := fatname, filebuf := r.2 }
    if r.1 > 0 then
      if r.1 < fileBufSize then
        some (s.print fun screen => vgaPrint (literalText "\n")
          (vgaPrint (fileString s.filebuf) (vgaSetColor vgaYellow vgaBlack screen)))
      else none
    else
      some (s.print fun screen => vgaPrint (literalText "\n")
        (vgaPrint archivo (say vgaLightRed "Archivo no encontrado: " screen)))

/-- `run`. -/
def shellRun (m : Machinery) (elf : CString) (s : Shell) : Option Shell :=
  let fatname := toFatName elf s.fatname
  (m.programs.elfLoad (nameBytes fatname) s.keys s.procs s.screen.picture).bind fun r =>
    let s := { s with fatname := fatname }.act r.2
    if r.1 then
      let s := s.print fun screen => vgaSetColor vgaWhite vgaBlack
        (say vgaLightGreen "Programa cargado. Ejecutando...\n" screen)
      (m.programs.wait s.keys s.procs s.screen.picture).map fun a =>
        (s.act a).print (say vgaLightCyan "\n[El programa termino]\n")
    else some (s.print (say vgaLightRed "No se pudo cargar el programa\n"))

/-- The default case of `syscall_handler`. -/
def syscallDefault (eax : Word) (digits : Int → Byte) (screen : Vga) : Vga :=
  vgaPrint (literalText "\n")
    (vgaPrintInt eax digits (say vgaLightRed "[SYS] Syscall desconocida: " screen))

/-- `sys`. The number that the stub of the call passes is none of a call
(`syscallCase_numberPassed`). -/
def shellSys (digits : Int → Byte) (screen : Vga) : Vga :=
  let screen := say vgaLightCyan "Invocando INT 0x80 con SYS_WRITE...\n" screen
  let screen := vgaSetColor vgaYellow vgaBlack screen
  let screen := syscallDefault (numberPassed 2#32) digits screen
  say vgaLightGreen "Syscall completada\n" screen

/-- The lines of `help`. -/
def helpLines : List String :=
  ["  ls             Listar archivos del disco\n",
    "  cat <archivo>  Mostrar el contenido de un archivo\n",
    "  run <elf>      Cargar y ejecutar un programa ELF\n",
    "  ps             Listar los procesos del sistema\n",
    "  sys            Probar una llamada al sistema\n",
    "  help           Mostrar esta ayuda\n",
    "  exit           Terminar el shell\n"]

/-- `help`. -/
def shellHelp (screen : Vga) : Vga :=
  helpLines.foldl (fun screen text => vgaPrint (literalText text) screen)
    (vgaSetColor vgaWhite vgaBlack (say vgaLightCyan "Comandos disponibles:\n" screen))

/-- What `process_exit` shows of the process. -/
def showExit (b : Pcb) (digits : Int → Byte) (screen : Vga) : Vga :=
  let screen := vgaPrintInt b.pid digits (say vgaLightRed "[PROC] Proceso PID=" screen)
  let screen := vgaPrint (upToNul b.name) (vgaPrint (literalText " [") screen)
  vgaPrint (literalText "] terminado\n") screen

/-- `exit`; without a process `process_exit` returns. -/
def shellExit (digits : Int → Byte) (s : Shell) : Shell :=
  if s.procs.currentProcess = 0#32 then s.print (say vgaYellow "Cerrando shell...\n")
  else
    ((s.print (say vgaYellow "Cerrando shell...\n")).print
      (showExit (s.procs.pcb s.procs.currentProcess) digits)).close

/-- The last `else`. -/
def shellUnknown (cmd : CString) (screen : Vga) : Vga :=
  let screen := vgaPrint cmd (say vgaLightRed "Comando desconocido: " screen)
  say vgaWhite "Escribe 'help' para ver los comandos\n" (vgaPrint (literalText "\n") screen)

/-- What is done for a command. -/
def shellExecute (m : Machinery) (c : Command) (s : Shell) : Option Shell :=
  match c with
  | .nothing => some s
  | .ls => some (s.print (showRoot m.disk m.fs m.digits))
  | .ps => (showProcesses s.procs m.digits s.screen).map fun screen => { s with screen := screen }
  | .cat archivo => shellCat m archivo s
  | .run elf => shellRun m elf s
  | .sys => some (s.print (shellSys m.digits))
  | .help => some (s.print shellHelp)
  | .exit => some (shellExit m.digits s)
  | .unknown cmd => some (s.print (shellUnknown cmd))

/-- What is shown before a line is read. -/
def showPrompt (screen : Vga) : Vga :=
  vgaSetColor vgaWhite vgaBlack (say vgaLightCyan "learnix> " screen)

/-- A round of the loop; `none` if it waits for a key. -/
def shellRound (m : Machinery) (s : Shell) : Option Shell :=
  if s.exited then some s
  else
    (leerLinea cmdMax s.keys s.cmd (showPrompt s.screen)).bind fun r =>
      shellExecute m (shellCommand (bufString cmdMax.toNat r.1.buf))
        { s with cmd := r.1.buf, keys := r.2, screen := r.1.screen }

/-- The lines that `shell_run` starts with. -/
def bannerLines : List String :=
  ["=========================================\n", "        Learnix OS Shell  v1.0           \n",
    "=========================================\n"]

/-- What is shown before the loop. -/
def shellBanner (screen : Vga) : Vga :=
  say vgaWhite "Comandos: ls  cat <archivo>  run <elf>  ps  sys  help  exit\n\n"
    (bannerLines.foldl (fun screen text => vgaPrint (literalText text) screen)
      (vgaSetColor vgaLightGreen vgaBlack screen))

/-- `shell_run` after its first key, with so many rounds of its loop. -/
def shellRounds (m : Machinery) (n : Nat) (s : Shell) : Option Shell :=
  (processBlockOthers s.procs).bind fun procs =>
    rounds (shellRound m) n
      ({ s with procs := procs, screen := vgaClear s.screen }.print shellBanner)

end Learnix
