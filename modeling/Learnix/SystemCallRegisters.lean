import Learnix.SystemCall

/-!
# The registers across a system call

`INT 0x80` from the caller's side: the CPU pushes EFLAGS, CS and EIP, the stub
runs, and `iret` takes the three words off again. The wrappers of `syscall.h`
and `suma.c` tell the compiler that only EAX changes. The stub neither saves ECX
and EDX nor takes them back from the stack, so that this is true of those runs
only in which `syscall_handler` happens to leave both alone
(`registers_kept_iff`).
-/

namespace Learnix

open Machine X86

/-- The CPU takes an interrupt in ring 0. -/
def interrupt (eflags cs eip : Word) (s : Cpu) : Cpu := ((s.push eflags).push cs).push eip

/-- `INT 0x80` from the instruction to the end of the stub's `iret`, if `syscall_handler`
returns. -/
def int80 (callee : Callee → Cpu → Option Cpu) (back eflags cs eip : Word) (s : Cpu) :
    Option Cpu :=
  (exec callee (int80Handler back) (interrupt eflags cs eip s)).2.map fun t => t.discard 3

/-- `syscall_handler` follows the calling convention: it may leave any value in EAX, ECX
and EDX. -/
def FollowsCdecl (callee : Callee → Cpu → Option Cpu) : Prop :=
  ∀ e r, callee .syscallHandler e = some r → Cdecl 4 7 e r

/-- The caller finds every general register but EAX as it was. -/
def RegistersKept (callee : Callee → Cpu → Option Cpu) (back eflags cs eip : Word) (s : Cpu) :
    Prop :=
  ∀ t, int80 callee back eflags cs eip s = some t → ∀ q, q ≠ .eax → t.reg q = s.reg q

variable {callee : Callee → Cpu → Option Cpu} {back eflags cs eip : Word} {s e r t : Cpu} {q : Reg}

theorem calleeSaved_iff : CalleeSaved q ↔ q ≠ .eax ∧ q ≠ .ecx ∧ q ≠ .edx ∧ q ≠ .esp := by
  cases q <;> simp [CalleeSaved]

theorem interrupt_of_ne (ne : q ≠ .esp) : (interrupt eflags cs eip s).reg q = s.reg q := by
  rw [interrupt, push_of_ne ne, push_of_ne ne, push_of_ne ne]

theorem interrupt_esp : (interrupt eflags cs eip s).reg .esp = s.reg .esp - 12#32 := by
  rw [interrupt, push_esp, push_esp, push_esp, BitVec.sub_sub, BitVec.sub_sub]
  rfl

/-- `syscall_handler` is entered with the registers of the caller, EAX and ESP apart. -/
theorem entered_reg (entered : Shows e { atCall s with stack := back :: (atCall s).stack })
    (notEax : q ≠ .eax) (notEsp : q ≠ .esp) : e.reg q = s.reg q := by
  rw [entered.reg, View.get, if_neg notEsp]
  exact Function.update_of_ne notEax _ _

/-- The one call of a run of the stub, and the registers at its end. -/
theorem int80Handler_regs (convention : FollowsCdecl callee) (back : Word) (s : Cpu) :
    ∃ e, (exec callee (int80Handler back) s).1 = [(.syscallHandler, e)] ∧
      (∀ q, q ≠ .eax → q ≠ .esp → e.reg q = s.reg q) ∧
      (callee .syscallHandler e = none → (exec callee (int80Handler back) s).2 = none) ∧
      ∀ r, callee .syscallHandler e = some r →
        ∃ t, (exec callee (int80Handler back) s).2 = some t ∧ t.reg .esp = s.reg .esp ∧
          ∀ q, q ≠ .esp → t.reg q = r.reg q := by
  rcases int80Handler_enter callee back s with ⟨e, entered, steps⟩
  have regs : ∀ q, q ≠ .eax → q ≠ .esp → e.reg q = s.reg q := fun q => entered_reg entered
  cases outcome : callee .syscallHandler e with
  | none =>
      rw [outcome] at steps
      refine ⟨e, congrArg Prod.fst steps, regs, fun _ => congrArg Prod.snd steps,
        fun r returned => ?_⟩
      rw [outcome] at returned
      cases returned
  | some r =>
      rcases int80Handler_leave callee entered (convention e r outcome) with ⟨t, leave, left⟩
      rw [outcome] at steps
      simp only [leave] at steps
      refine ⟨e, congrArg Prod.fst steps, regs, fun none => ?_, fun r' returned => ?_⟩
      · rw [outcome] at none
        cases none
      · have same : r = r' := Option.some.inj (outcome.symm.trans returned)
        subst same
        have esp : t.reg .esp = s.reg .esp :=
          (left.reg .esp).trans ((shows_view s 3).reg .esp).symm
        refine ⟨t, congrArg Prod.snd steps, esp, fun q notEsp => ?_⟩
        rw [left.reg, View.get, if_neg notEsp]

/-- The registers that the convention keeps, and ESP, come back in every run. -/
theorem int80_saved (convention : FollowsCdecl callee)
    (returned : int80 callee back eflags cs eip s = some t) (saved : CalleeSaved q ∨ q = .esp) :
    t.reg q = s.reg q := by
  obtain ⟨e, -, entered, halts, returns⟩ :=
    int80Handler_regs convention back (interrupt eflags cs eip s)
  rcases Option.map_eq_some_iff.mp returned with ⟨u, handler, rfl⟩
  cases outcome : callee .syscallHandler e with
  | none =>
      rw [halts outcome] at handler
      cases handler
  | some r =>
      rcases returns r outcome with ⟨u', handler', esp, regs⟩
      cases handler.symm.trans handler'
      rcases saved with saved | rfl
      · rcases calleeSaved_iff.mp saved with ⟨notEax, -, -, notEsp⟩
        rw [Cpu.discard, setReg_of_ne notEsp, regs q notEsp,
          (convention e r outcome).saved q saved, entered q notEax notEsp, interrupt_of_ne notEsp]
      · rw [Cpu.discard, setReg_self, esp, interrupt_esp]
        exact BitVec.sub_add_cancel _ _

/-- ECX and EDX come back as `syscall_handler` left them, so that the caller finds its
registers again if and only if `syscall_handler` leaves these two as it found them. -/
theorem registers_kept_iff (convention : FollowsCdecl callee) (back eflags cs eip : Word)
    (s : Cpu) :
    RegistersKept callee back eflags cs eip s ↔
      ∀ e r, (exec callee (int80Handler back) (interrupt eflags cs eip s)).1 =
          [(.syscallHandler, e)] → callee .syscallHandler e = some r →
        r.reg .ecx = e.reg .ecx ∧ r.reg .edx = e.reg .edx := by
  obtain ⟨e, calls, entered, halts, returns⟩ :=
    int80Handler_regs convention back (interrupt eflags cs eip s)
  have given : ∀ q, q ≠ .eax → q ≠ .esp → e.reg q = s.reg q := fun q notEax notEsp =>
    (entered q notEax notEsp).trans (interrupt_of_ne notEsp)
  constructor
  · intro kept e' r calls' outcome
    rw [calls] at calls'
    cases calls'
    rcases returns r outcome with ⟨u, handler, -, regs⟩
    have back_ : ∀ q, q ≠ .eax → q ≠ .esp → r.reg q = e.reg q := by
      intro q notEax notEsp
      have same := kept (u.discard 3) (by rw [int80, handler]; rfl) q notEax
      rw [Cpu.discard, setReg_of_ne notEsp, regs q notEsp] at same
      rw [same, given q notEax notEsp]
    exact ⟨back_ .ecx (by decide) (by decide), back_ .edx (by decide) (by decide)⟩
  · intro leaves t returned q notEax
    by_cases saved : CalleeSaved q ∨ q = .esp
    · exact int80_saved convention returned saved
    · rcases Option.map_eq_some_iff.mp returned with ⟨u, handler, rfl⟩
      cases outcome : callee .syscallHandler e with
      | none =>
          rw [halts outcome] at handler
          cases handler
      | some r =>
          rcases returns r outcome with ⟨u', handler', -, regs⟩
          cases handler.symm.trans handler'
          rcases leaves e r calls outcome with ⟨ecx, edx⟩
          have notEsp : q ≠ .esp := fun esp => saved (.inr esp)
          have kept : r.reg q = e.reg q := by
            cases q with
            | ecx => exact ecx
            | edx => exact edx
            | eax => exact absurd rfl notEax
            | esp => exact absurd rfl notEsp
            | _ => exact absurd (.inl (calleeSaved_iff.mpr (by decide))) saved
          rw [Cpu.discard, setReg_of_ne notEsp, regs q notEsp, kept, given q notEax notEsp]

/-- A function that returns at once. -/
theorem cdecl_return {v : Word} (e : Cpu) (ne : q = .eax ∨ q = .ecx ∨ q = .edx) :
    Cdecl 4 7 e ((e.setReg q v).discard 1) := by
  have notEsp : q ≠ .esp := by rcases ne with rfl | rfl | rfl <;> decide
  refine ⟨?_, fun p saved => ?_, rfl, rfl⟩
  · rw [Cpu.discard, setReg_self, setReg_of_ne notEsp.symm]
  · rcases calleeSaved_iff.mp saved with ⟨notEax, notEcx, notEdx, notEsp'⟩
    have other : p ≠ q := by
      rcases ne with rfl | rfl | rfl
      · exact notEax
      · exact notEcx
      · exact notEdx
    rw [Cpu.discard, setReg_of_ne notEsp', setReg_of_ne other]

theorem unknownCall_follows : FollowsCdecl unknownCall := by
  intro e r returned
  cases returned
  exact cdecl_return e (.inl rfl)

/-- `unknownCall` happens to use no register but EAX. -/
theorem registers_kept_iff_unknown :
    RegistersKept unknownCall 0x100123#32 0x202#32 0x10#32 0x300040#32 (callerOf 2#32) := by
  refine (registers_kept_iff unknownCall_follows _ _ _ _ _).mpr fun e r _ returned => ?_
  cases returned
  exact ⟨rfl, rfl⟩

/-- `syscall_handler` compiled to use ECX as a scratch register. -/
def scratchEcx : Callee → Cpu → Option Cpu := fun _ e =>
  some ((e.setReg .ecx 0#32).discard 1)

/-- The convention allows it, and the caller's ECX is gone. -/
theorem ecx_lost :
    FollowsCdecl scratchEcx ∧
      ¬ RegistersKept scratchEcx 0x100123#32 0x202#32 0x10#32 0x300040#32 (callerOf 2#32) := by
  have follows : FollowsCdecl scratchEcx := by
    intro e r returned
    cases returned
    exact cdecl_return e (.inr (.inl rfl))
  refine ⟨follows, fun kept => ?_⟩
  obtain ⟨e, calls, entered, -⟩ := int80Handler_regs follows 0x100123#32
    (interrupt 0x202#32 0x10#32 0x300040#32 (callerOf 2#32))
  have ecx := entered .ecx (by decide) (by decide)
  rw [interrupt_of_ne (by decide)] at ecx
  have left : (0#32 : Word) = e.reg .ecx :=
    (((registers_kept_iff follows _ _ _ _ _).mp kept) e _ calls rfl).1
  rw [ecx] at left
  exact absurd left (by decide)

end Learnix
