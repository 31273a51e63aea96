import Learnix.Lib.X86

/-!
# System calls

`int80_handler` of `isr.asm` and the dispatch of `syscall_handler`. The stub
loads the kernel's data selector through AX before it pushes the number of the
call, so that `syscall_handler` gets a number whose lower half is the selector.
The stub is taken to be loaded, and to be what gate 0x80 points at: `isr.asm` puts it into
the section `.note.GNU-stack`, which `linker.ld` does not place.
It does everything else right, and the number only if the lower half was the
selector already (`system_call_iff`).
-/

namespace Learnix

open Machine X86

/-- The C functions that `isr.asm` calls. -/
inductive Callee
  | syscallHandler
  | isrHandler
  | irqHandler
  | keyboardHandler
  | timerHandler
  | schedulerTick
deriving DecidableEq, Repr

/-- The selector of the kernel's data segment. -/
def kernelData : BitVec 16 := 0x10#16

/-- `int80_handler` up to the call. -/
def int80Enter : List (Instr Callee) :=
  [.pushSeg .ds, .pushSeg .es, .pushSeg .fs, .pushSeg .gs,
    .mov16 .eax kernelData, .movSeg .ds .eax, .movSeg .es .eax,
    .push .edx, .push .ecx, .push .ebx, .push .eax]

/-- `int80_handler` between the call and its `iret`. -/
def int80Leave : List (Instr Callee) :=
  [.discard 4, .popSeg .gs, .popSeg .fs, .popSeg .es, .popSeg .ds]

/-- `int80_handler` up to its `iret`; `syscall_handler` returns to `back`. -/
def int80Handler (back : Word) : List (Instr Callee) :=
  int80Enter ++ .call .syscallHandler back :: int80Leave

/-- The cases of the `switch` in `syscall_handler`. -/
inductive SyscallCase
  | exit
  | write
  | read
  | fread
  | close
  | exec
  | list
  | unknown
deriving DecidableEq, Repr

/-- The case that a number reaches; `SYS_OPEN` and `SYS_FREAD` share one. -/
def syscallCase (eax : Word) : SyscallCase :=
  match eax.toNat with
  | 1 => .exit
  | 2 => .write
  | 3 => .read
  | 4 => .fread
  | 5 => .close
  | 6 => .fread
  | 7 => .exec
  | 8 => .list
  | _ => .unknown

/-- EAX, EBX, ECX and EDX of a call. -/
structure CallArgs where
  eax : Word
  ebx : Word
  ecx : Word
  edx : Word

/-- `edx ? edx : 512`. -/
def readLimit (edx : Word) : Word := if edx ≠ 0#32 then edx else 512#32

/-- An address in the buffer that a call is given. -/
def SyscallCase.InBuffer (c : CallArgs) (a : Word) : SyscallCase → Prop
  | .read => Memory.InRange c.ebx c.ecx.toNat a
  | .fread => Memory.InRange c.ecx (readLimit c.edx).toNat a
  | _ => False

def CallArgs.InBuffer (c : CallArgs) (a : Word) : Prop := (syscallCase c.eax).InBuffer c a

instance decidableInBuffer (c : CallArgs) (a : Word) :
    ∀ kind : SyscallCase, Decidable (kind.InBuffer c a)
  | .read => inferInstanceAs (Decidable (Memory.InRange c.ebx c.ecx.toNat a))
  | .fread => inferInstanceAs (Decidable (Memory.InRange c.ecx (readLimit c.edx).toNat a))
  | .exit | .write | .close | .exec | .list | .unknown => inferInstanceAs (Decidable False)

instance (c : CallArgs) (a : Word) : Decidable (c.InBuffer a) :=
  decidableInBuffer c a (syscallCase c.eax)

/-- EAX after `mov ax, 0x10`. -/
def numberPassed (eax : Word) : Word := eax.extractLsb' 16 16 ++ kernelData

variable {callee : Callee → Cpu → Option Cpu} {back : Word} {s e r : Cpu}

/-! ## What the stub does -/

/-- The words that the stub pushes for the segment registers, the last one first. -/
def savedSegs (s : Cpu) : List Word :=
  [(s.seg .gs).setWidth 32, (s.seg .fs).setWidth 32, (s.seg .es).setWidth 32,
    (s.seg .ds).setWidth 32]

/-- What `syscall_handler` is called with. -/
def argsPassed (s : Cpu) : List Word :=
  [numberPassed (s.reg .eax), s.reg .ebx, s.reg .ecx, s.reg .edx]

/-- What is known when the call is reached. -/
def atCall (s : Cpu) : View where
  base := s.reg .esp + 12#32
  reg := Function.update s.reg .eax (numberPassed (s.reg .eax))
  seg := Function.update (Function.update s.seg .ds ((numberPassed (s.reg .eax)).setWidth 16)) .es
    ((numberPassed (s.reg .eax)).setWidth 16)
  stack := argsPassed s ++ (savedSegs s ++ s.top 3)

theorem length_atCall (s : Cpu) : (atCall s).stack.length = 11 := rfl

theorem viewAll_int80Enter (s : Cpu) : viewAll int80Enter (s.view 3) = some (atCall s) := rfl

/-- The four words that the stub pops are the ones it pushed, under the arguments. -/
theorem viewAll_int80Leave {v : View} {junk : List Word} (length : junk.length = 4)
    (stack : v.stack = junk ++ (savedSegs s ++ s.top 3)) :
    viewAll int80Leave v = some { v with seg := s.seg, stack := s.top 3 } := by
  have known : 4 ≤ v.stack.length := by
    rw [stack, List.length_append, length]
    exact Nat.le_add_right 4 _
  have drop : v.stack.drop 4 = savedSegs s ++ s.top 3 := by rw [stack, List.drop_left' length]
  have segs : ∀ seg : Seg → BitVec 16,
      Function.update (Function.update (Function.update (Function.update seg
        .gs (((s.seg .gs).setWidth 32).setWidth 16)) .fs (((s.seg .fs).setWidth 32).setWidth 16))
        .es (((s.seg .es).setWidth 32).setWidth 16)) .ds (((s.seg .ds).setWidth 32).setWidth 16) =
      s.seg := by
    intro seg
    funext g
    cases g <;> simp [Function.update]
  rw [int80Leave, viewAll, Instr.view, if_pos known, drop]
  exact congrArg (fun seg => some { v with seg := seg, stack := s.top 3 }) (segs v.seg)

/-- The stub calls `syscall_handler` once, and goes on when it returns. -/
theorem int80Handler_enter (callee : Callee → Cpu → Option Cpu) (back : Word) (s : Cpu) :
    ∃ e, Shows e { atCall s with stack := back :: (atCall s).stack } ∧
      exec callee (int80Handler back) s =
        match callee .syscallHandler e with
        | none => ([(.syscallHandler, e)], none)
        | some r => ((.syscallHandler, e) :: (exec callee int80Leave r).1,
            (exec callee int80Leave r).2) := by
  have known : (s.view 3).stack.length = 3 := length_words _ _ _
  obtain ⟨t, shows_, steps⟩ := viewAll_sound callee (.call .syscallHandler back :: int80Leave)
    (shows_view s 3) (by rw [known]; decide) (viewAll_int80Enter s)
  exact ⟨t.push back, shows_.push (by rw [length_atCall]; decide) back, steps⟩

/-- When it has returned the stub ends with the segment registers and the stack of its
caller, and the other registers as `syscall_handler` left them. -/
theorem int80Handler_leave (callee : Callee → Cpu → Option Cpu)
    (entered : Shows e { atCall s with stack := back :: (atCall s).stack })
    (convention : Cdecl 4 7 e r) :
    ∃ t, exec callee int80Leave r = ([], some t) ∧
      Shows t { s.view 3 with reg := r.reg } := by
  obtain ⟨junk, length, returned⟩ :=
    Cdecl.shows (argsPassed s) (savedSegs s ++ s.top 3) convention entered rfl
  have known : (junk ++ (savedSegs s ++ s.top 3)).length = 11 := by
    rw [List.length_append, length]
    rfl
  obtain ⟨t, shows_, steps⟩ := viewAll_sound callee [] returned
    (by rw [known]; decide) (viewAll_int80Leave length rfl)
  rw [List.append_nil] at steps
  exact ⟨t, steps, shows_⟩

/-! ## The number of the call -/

theorem numberPassed_low (eax : Word) : (numberPassed eax).setWidth 16 = kernelData := by
  ext i bound
  have low : i < 16 := bound
  rw [BitVec.getElem_setWidth, numberPassed, BitVec.getLsbD_append, if_pos low,
    BitVec.getLsbD_eq_getElem bound]

theorem numberPassed_eq_iff (eax : Word) :
    numberPassed eax = eax ↔ eax.setWidth 16 = kernelData := by
  constructor
  · intro same
    rw [← same]
    exact numberPassed_low eax
  · intro low
    rw [numberPassed, ← low]
    ext i bound
    simp only [BitVec.getElem_append, BitVec.getElem_extractLsb', BitVec.getElem_setWidth]
    grind

/-- No number that the stub passes is the number of a call. -/
theorem syscallCase_numberPassed (eax : Word) : syscallCase (numberPassed eax) = .unknown := by
  have low := congrArg BitVec.toNat (numberPassed_low eax)
  rw [BitVec.toNat_setWidth] at low
  have large : 8 < (numberPassed eax).toNat := by
    have : kernelData.toNat = 16 := rfl
    omega
  unfold syscallCase
  split <;> first | omega | rfl

/-! ## The system call -/

/-- `syscall_handler` is called once, with the caller's registers, so that the number of
the call reaches its own case; and when it has returned, the stub ends with its result in
EAX, with ESP at the unchanged frame of EIP, CS and EFLAGS, and with the caller's segment
registers. -/
def SystemCallRight (callee : Callee → Cpu → Option Cpu) (back : Word) (s : Cpu) : Prop :=
  ∃ e, (exec callee (int80Handler back) s).1 = [(.syscallHandler, e)] ∧
    e.args 4 = [s.reg .eax, s.reg .ebx, s.reg .ecx, s.reg .edx] ∧
    (e.args 4).head?.map syscallCase = some (syscallCase (s.reg .eax)) ∧
    ∀ r, callee .syscallHandler e = some r →
      ∃ t, (exec callee (int80Handler back) s).2 = some t ∧ t.reg .eax = r.reg .eax ∧
        t.reg .esp = s.reg .esp ∧ t.top 3 = s.top 3 ∧ t.seg = s.seg

/-- `syscall_handler` follows the calling convention when no call has the number it gets;
it only prints then. -/
def DefaultFollowsCdecl (callee : Callee → Cpu → Option Cpu) : Prop :=
  ∀ e r, (e.args 4).head?.map syscallCase = some .unknown →
    callee .syscallHandler e = some r → Cdecl 4 7 e r

/-- Whatever the registers, `syscall_handler` is called once, with the caller's EBX, ECX
and EDX and no number of a call; everything but the number is right. -/
theorem int80Handler_run (convention : DefaultFollowsCdecl callee) (back : Word) (s : Cpu) :
    ∃ e, (exec callee (int80Handler back) s).1 = [(.syscallHandler, e)] ∧
      e.args 4 = argsPassed s ∧
      ∀ r, callee .syscallHandler e = some r →
        ∃ t, (exec callee (int80Handler back) s).2 = some t ∧ t.reg .eax = r.reg .eax ∧
          t.reg .esp = s.reg .esp ∧ t.top 3 = s.top 3 ∧ t.seg = s.seg := by
  obtain ⟨e, entered, steps⟩ := int80Handler_enter callee back s
  have args : e.args 4 = argsPassed s := entered.args (argsPassed s) rfl
  cases outcome : callee .syscallHandler e with
  | none =>
      rw [outcome] at steps
      exact ⟨e, congrArg Prod.fst steps, args, fun r returned => by
        rw [outcome] at returned
        cases returned⟩
  | some r =>
      have unknown : (e.args 4).head?.map syscallCase = some .unknown := by
        rw [args]
        exact congrArg some (syscallCase_numberPassed (s.reg .eax))
      obtain ⟨t, leave, left⟩ := int80Handler_leave callee entered (convention e r unknown outcome)
      rw [outcome] at steps
      simp only [leave] at steps
      refine ⟨e, congrArg Prod.fst steps, args, fun r' returned => ?_⟩
      have same : r = r' := Option.some.inj (outcome.symm.trans returned)
      subst same
      have esp : t.reg .esp = s.reg .esp := (left.reg .esp).trans ((shows_view s 3).reg .esp).symm
      have length : (s.top 3).length = 3 := length_words _ _ _
      have frame := left.stack
      exact ⟨t, congrArg Prod.snd steps, left.reg .eax, esp, length ▸ frame, left.seg⟩

/-- The system call is right if and only if AX holds the kernel's data selector already. -/
theorem system_call_iff (convention : DefaultFollowsCdecl callee) (back : Word) (s : Cpu) :
    SystemCallRight callee back s ↔ (s.reg .eax).setWidth 16 = kernelData := by
  obtain ⟨e, calls, args, returns⟩ := int80Handler_run convention back s
  rw [← numberPassed_eq_iff]
  constructor
  · intro right
    obtain ⟨e', calls', args', -⟩ := right
    rw [calls] at calls'
    cases calls'
    rw [args] at args'
    exact (List.cons.inj args').1
  · intro number
    refine ⟨e, calls, ?_, ?_, returns⟩
    · rw [args, argsPassed, number]
    · rw [args, argsPassed, number]
      rfl

/-- `syscall_handler` where it only prints: it returns -1. -/
def unknownCall : Callee → Cpu → Option Cpu := fun _ e =>
  some ((e.setReg .eax (-1#32)).discard 1)

theorem unknownCall_convention : DefaultFollowsCdecl unknownCall := by
  intro e r _ returned
  cases returned
  exact {
    esp := setReg_self
    saved := fun q saved => by rcases saved with rfl | rfl | rfl | rfl <;> rfl
    seg := rfl
    frame := rfl }

/-- A program's registers when it makes a call. -/
def callerOf (number : Word) : Cpu where
  reg := fun r => match r with
    | .eax => number
    | .esp => 0x2040A8#32
    | _ => 0x103000#32
  seg := fun _ => kernelData
  mem := fun _ => 0#8

/-- Number 16 is no system call, and passed as it is. -/
theorem system_call_iff_sixteen : SystemCallRight unknownCall 0x100123#32 (callerOf 0x10#32) :=
  (system_call_iff unknownCall_convention 0x100123#32 (callerOf 0x10#32)).mpr rfl

/-- `SYS_WRITE` is not passed on, and `syscall_handler` prints that it does not know the
call. -/
theorem write_not_called :
    syscallCase 2#32 = .write ∧
      (∃ e, (exec unknownCall (int80Handler 0x100123#32) (callerOf 2#32)).1 =
        [(.syscallHandler, e)] ∧ (e.args 4).head?.map syscallCase = some .unknown) ∧
      ¬ SystemCallRight unknownCall 0x100123#32 (callerOf 2#32) := by
  obtain ⟨e, calls, args, -⟩ := int80Handler_run unknownCall_convention 0x100123#32 (callerOf 2#32)
  refine ⟨rfl, ⟨e, calls, by rw [args]; rfl⟩, fun right => ?_⟩
  obtain ⟨e', calls', -, reached, -⟩ := right
  rw [calls] at calls'
  cases calls'
  rw [args] at reached
  cases reached

end Learnix
