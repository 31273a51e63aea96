import Learnix.Lib.ByteMemory

/-!
# Processes and the scheduler

`process.c` and `scheduler.c`. A process control block is an object of its own:
blocks that `kmalloc` returns do not overlap, so a store to one PCB is no store
to another, and the model keeps the PCBs apart from the bytes of the stacks.
Screen output is left out, except for the processes that `process_print_all`
walks through.
-/

namespace Learnix

open Machine

/-- `PROCESS_READY`, `PROCESS_RUNNING`, `PROCESS_BLOCKED` and `PROCESS_DEAD`. -/
inductive ProcessState
  | ready
  | running
  | blocked
  | dead
deriving DecidableEq, Repr

/-- `STACK_SIZE`. -/
def stackSize : Nat := 16384

/-- `MAX_PROCESSES`. -/
def maxProcesses : Nat := 16

/-- `sizeof(process_t)`. -/
def processBytes : Nat := 64

/-- `process_t`. The name is the C string in the array. -/
structure Pcb where
  pid : Word
  state : ProcessState
  priority : Word
  esp : Word
  stack : Word
  name : List Byte
  ticksTotal : Word
  ticksQuantum : Word
  next : Word

/-- The PCBs by address, the bytes of the stacks, and the variables of the two
files. -/
structure ProcState where
  pcb : Word → Pcb
  mem : Memory
  currentProcess : Word
  nextPid : Word
  tickCount : Word
  schedulerRunning : Bool

/-- Store to fields of the PCB at `p`. -/
def ProcState.setPcb (s : ProcState) (p : Word) (f : Pcb → Pcb) : ProcState :=
  { s with pcb := Function.update s.pcb p (f (s.pcb p)) }

/-- The two functions of the heap that processes use. -/
structure Allocator (η : Type) where
  kmalloc : Word → η → Word × η
  kfree : Word → η → η

/-! ## `process.c` -/

def processInit (s : ProcState) : ProcState :=
  { s with currentProcess := 0#32, nextPid := 1#32 }

/-- The loop that copies the name, with room for `n` more characters. -/
def copyName : Nat → List Byte → List Byte
  | 0, _ => []
  | _ + 1, [] => []
  | n + 1, c :: cs => if c = 0#8 then [] else c :: copyName n cs

/-- `*(--p) = v`. -/
def push (p : Word × Memory) (v : Word) : Word × Memory :=
  (p.1 - 4#32, p.2.write32 (p.1 - 4#32) v)

/-- The words of the initial stack, in the order they are pushed: EFLAGS, CS and
EIP, the eight registers that `popa` takes, and DS, ES, FS and GS. -/
def initialFrame (entry : Word) : List Word :=
  [0x202#32, 0x10#32, entry, 0#32, 0#32, 0#32, 0#32, 0#32, 0#32, 0#32, 0#32,
    0x10#32, 0x10#32, 0x10#32, 0x10#32]

/-- The stack pointer and the memory with the initial stack of a process. -/
def initialStack (entry stack : Word) (m : Memory) : Word × Memory :=
  (initialFrame entry).foldl push (stack + BitVec.ofNat 32 stackSize, m)

/-- Steps 2 and 3 of `process_create`: the fields of the PCB and the stack. -/
def setUpProcess (proc stack entry : Word) (name : List Byte) (priority : Word) (s : ProcState) :
    ProcState :=
  let p := initialStack entry stack s.mem
  { s.setPcb proc fun b => { b with
      pid := s.nextPid
      state := .ready
      priority := priority
      ticksTotal := 0#32
      ticksQuantum := priority * 5#32
      name := copyName 31 name
      esp := p.1 } with
    nextPid := s.nextPid + 1#32
    mem := p.2 }

/-- `while (tmp->next != current_process) tmp = tmp->next`. -/
def findLast (s : ProcState) : Nat → Word → Option Word
  | 0, _ => none
  | fuel + 1, tmp =>
    if (s.pcb tmp).next ≠ s.currentProcess then findLast s fuel (s.pcb tmp).next else some tmp

/-- Step 4 of `process_create`: the place in the circular list. -/
def linkProcess (proc : Word) (s : ProcState) : Option ProcState :=
  if s.currentProcess = 0#32 then
    some { s.setPcb proc fun b => { b with next := proc } with currentProcess := proc }
  else
    (findLast s pointerSpace s.currentProcess).map fun tmp =>
      (s.setPcb tmp fun b => { b with next := proc }).setPcb proc fun b =>
        { b with next := s.currentProcess }

/-- The PCB of the new process or null, the processes and the heap; `none` if the
loop does not end. -/
def processCreate {η : Type} (heap : Allocator η) (entry : Word) (name : List Byte)
    (priority : Word) (s : ProcState) (h : η) : Option (Word × ProcState × η) :=
  let (proc, h) := heap.kmalloc (BitVec.ofNat 32 processBytes) h
  if proc = 0#32 then some (0#32, s, h)
  else
    let (stack, h) := heap.kmalloc (BitVec.ofNat 32 stackSize) h
    let s := s.setPcb proc fun b => { b with stack := stack }
    if stack = 0#32 then some (0#32, s, heap.kfree proc h)
    else
      (linkProcess proc (setUpProcess proc stack entry name priority s)).map fun s => (proc, s, h)

/-- What `process_exit` does before it halts for good. -/
def processExit (s : ProcState) : ProcState :=
  if s.currentProcess = 0#32 then s
  else s.setPcb s.currentProcess fun b => { b with state := .dead }

def processBlock (proc : Word) (s : ProcState) : ProcState :=
  if proc ≠ 0#32 then s.setPcb proc fun b => { b with state := .blocked } else s

def processUnblock (proc : Word) (s : ProcState) : ProcState :=
  if proc ≠ 0#32 then s.setPcb proc fun b => { b with state := .ready } else s

/-- The `do … while (p != current_process)` loop of `process_print_all`: the PCBs
it prints, in order. -/
def printLoop (s : ProcState) : Nat → Word → Option (List Pcb)
  | 0, _ => none
  | fuel + 1, p =>
    if (s.pcb p).next ≠ s.currentProcess then
      (printLoop s fuel (s.pcb p).next).map (s.pcb p :: ·)
    else some [s.pcb p]

def processPrintAll (s : ProcState) : Option (List Pcb) :=
  if s.currentProcess = 0#32 then some [] else printLoop s pointerSpace s.currentProcess

/-- The `do … while (p != current_process)` loop of the two counting functions. -/
def countLoop (s : ProcState) (counted : ProcessState → Bool) : Nat → Word → Nat → Option Nat
  | 0, _, _ => none
  | fuel + 1, p, n =>
    let n := if counted (s.pcb p).state then n + 1 else n
    if (s.pcb p).next ≠ s.currentProcess then countLoop s counted fuel (s.pcb p).next n
    else some n

/-- The body of the two counting functions. -/
def countProcesses (counted : ProcessState → Bool) (s : ProcState) : Option Nat :=
  if s.currentProcess = 0#32 then some 0
  else countLoop s counted pointerSpace s.currentProcess 0

def processCountAlive : ProcState → Option Nat := countProcesses (· ≠ .dead)

def processCountActive : ProcState → Option Nat :=
  countProcesses fun state => state = .ready ∨ state = .running

/-- `while (p != current_process)`, blocking what is not dead. -/
def blockOthersLoop : Nat → Word → ProcState → Option ProcState
  | 0, _, _ => none
  | fuel + 1, p, s =>
    if p ≠ s.currentProcess then
      let s := if (s.pcb p).state ≠ .dead then s.setPcb p fun b => { b with state := .blocked }
        else s
      blockOthersLoop fuel (s.pcb p).next s
    else some s

def processBlockOthers (s : ProcState) : Option ProcState :=
  if s.currentProcess = 0#32 then some s
  else blockOthersLoop pointerSpace (s.pcb s.currentProcess).next s

/-! ## `scheduler.c` -/

def schedulerInit (s : ProcState) : ProcState :=
  { s with tickCount := 0#32, schedulerRunning := false }

/-- `scheduler_tick` counts the tick, for the process and for its quantum. -/
def countTick (s : ProcState) : ProcState :=
  { s.setPcb s.currentProcess fun b => { b with ticksTotal := b.ticksTotal + 1#32 } with
    tickCount := s.tickCount + 1#32 }

/-- `scheduler_tick` starts a new quantum and saves the stack pointer. -/
def saveContext (esp : Word) (s : ProcState) : ProcState :=
  { s.setPcb s.currentProcess fun b => { b with esp := esp } with tickCount := 0#32 }

/-- The loop that skips dead and blocked processes, with `intentos` attempts left. -/
def skipLoop (s : ProcState) : Nat → Word → Word
  | 0, next => next
  | intentos + 1, next =>
    if (s.pcb next).state = .dead ∨ (s.pcb next).state = .blocked then
      skipLoop s intentos (s.pcb next).next
    else next

/-- `scheduler_tick` makes `next` the current process. -/
def switchTo (next : Word) (s : ProcState) : ProcState :=
  { (s.setPcb s.currentProcess fun b => { b with state := .ready }).setPcb next
      fun b => { b with state := .running } with
    currentProcess := next }

/-- The stack pointer to go on with, and the processes. -/
def schedulerTick (currentEsp : Word) (s : ProcState) : Word × ProcState :=
  if s.schedulerRunning = false ∨ s.currentProcess = 0#32 then (currentEsp, s)
  else
    let s := countTick s
    if s.tickCount < (s.pcb s.currentProcess).ticksQuantum then (currentEsp, s)
    else
      let s := saveContext currentEsp s
      let next := skipLoop s maxProcesses (s.pcb s.currentProcess).next
      if next = s.currentProcess ∨ (s.pcb next).state = .dead then (currentEsp, s)
      else
        let s := switchTo next s
        ((s.pcb next).esp, s)

/-- `scheduler_start` turns the scheduler on and the current process running. -/
def startCurrent (s : ProcState) : ProcState :=
  { s.setPcb s.currentProcess fun b => { b with state := .running } with schedulerRunning := true }

/-- The stack pointer that is loaded, if there is a process, and the processes. -/
def schedulerStart (s : ProcState) : Option Word × ProcState :=
  if s.currentProcess = 0#32 then (none, s)
  else (some ((startCurrent s).pcb s.currentProcess).esp, startCurrent s)

/-! ## Stores to PCBs -/

section Stores

variable {s : ProcState} {p q : Word} {f : Pcb → Pcb}

theorem setPcb_pcb : (s.setPcb q f).pcb p = if p = q then f (s.pcb q) else s.pcb p :=
  Function.update_apply _ _ _ _

@[simp] theorem setPcb_pcb_self : (s.setPcb p f).pcb p = f (s.pcb p) :=
  Function.update_self _ _ _

theorem setPcb_pcb_of_ne (ne : p ≠ q) : (s.setPcb q f).pcb p = s.pcb p :=
  Function.update_of_ne ne _ _

@[simp] theorem setPcb_mem : (s.setPcb p f).mem = s.mem := rfl

@[simp] theorem setPcb_currentProcess : (s.setPcb p f).currentProcess = s.currentProcess := rfl

@[simp] theorem setPcb_nextPid : (s.setPcb p f).nextPid = s.nextPid := rfl

@[simp] theorem setPcb_tickCount : (s.setPcb p f).tickCount = s.tickCount := rfl

@[simp] theorem setPcb_schedulerRunning :
    (s.setPcb p f).schedulerRunning = s.schedulerRunning := rfl

/-- A field that a store leaves alone is the same in every PCB. -/
theorem setPcb_field {β : Type} (field : Pcb → β) (same : field (f (s.pcb q)) = field (s.pcb q)) :
    field ((s.setPcb q f).pcb p) = field (s.pcb p) := by
  rw [setPcb_pcb]
  split
  · next here => rw [same, here]
  · rfl

end Stores

end Learnix
