import Learnix.Lib.X86

/-!
# Interrupts of a 32-bit x86

A program between two of its instructions is a `Context`. An interrupt in ring 0
pushes EFLAGS, CS and EIP on the stack of the program that it interrupts, and
`iret` takes the three words off again. `Code` adds to the instructions of a
stub those that save and restore all general registers at once, also as a raw
opcode byte, and those that talk to a device.
-/

namespace X86

open Machine Memory

/-- A program that can be interrupted or gone on with. -/
structure Context where
  cpu : Cpu
  eip : Word
  cs : BitVec 16
  eflags : Word

namespace Cpu

/-- EAX, ECX, EDX, EBX, ESP as it was, EBP, ESI and EDI. -/
def pushad (s : Cpu) : Cpu :=
  ([.eax, .ecx, .edx, .ebx, .esp, .ebp, .esi, .edi].map s.reg).foldl Cpu.push s

/-- The word `n` words above the top of the stack. -/
def peek (s : Cpu) (n : Nat) : Word := s.mem.read32 (s.reg .esp + BitVec.ofNat 32 (4 * n))

/-- The registers in the order opposite to `pushad`, but not ESP. -/
def popad (s : Cpu) : Cpu :=
  { s with reg := fun
      | .edi => s.peek 0
      | .esi => s.peek 1
      | .ebp => s.peek 2
      | .esp => s.reg .esp + 32#32
      | .ebx => s.peek 4
      | .edx => s.peek 5
      | .ecx => s.peek 6
      | .eax => s.peek 7 }

end Cpu

/-- The CPU takes an interrupt in ring 0. -/
def Context.interrupted (c : Context) : Cpu :=
  ((c.cpu.push c.eflags).push (c.cs.setWidth 32)).push c.eip

/-- The exceptions for which the CPU pushes an error code. -/
def hasErrorCode (vector : Byte) : Bool :=
  vector = 8#8 || (10#8 ≤ vector && vector ≤ 14#8) || vector = 17#8

/-- The CPU raises an exception in ring 0. -/
def Context.raised (c : Context) (vector : Byte) (error : Word) : Cpu :=
  if hasErrorCode vector then c.interrupted.push error else c.interrupted

/-- `iret` to ring 0. -/
def iret (s : Cpu) : Context where
  cpu := s.discard 3
  eip := s.peek 0
  cs := (s.peek 1).setWidth 16
  eflags := s.peek 2

/-- Instructions; `mov8` sets the low byte of a register, and `out` stores it in a device. -/
inductive Code (τ : Type)
  | plain (i : Instr τ)
  | pushad
  | popad
  | mov8 (r : Reg) (v : Byte)
  | out (port : Byte) (r : Reg)
  | movReg (r q : Reg)
  | byte (b : Byte)
deriving Repr

variable {τ : Type}

/-- What an instruction does that calls no function. Of the raw bytes only the opcodes of
`pushad` and `popad` are known. -/
def Code.effect : Code τ → Cpu → Option Cpu
  | .plain _, _ => none
  | .pushad, s => some s.pushad
  | .popad, s => some s.popad
  | .mov8 r v, s => some (s.setReg r ((s.reg r).extractLsb' 8 24 ++ v))
  | .out _ _, s => some s
  | .movReg r q, s => some (s.setReg r (s.reg q))
  | .byte b, s => if b = 0x60#8 then some s.pushad else if b = 0x61#8 then some s.popad else none

/-- The functions that the code calls, with the states in which they are entered, and
the state at its end, if every function returns. -/
def run (callee : τ → Cpu → Option Cpu) : List (Code τ) → Cpu → List (τ × Cpu) × Option Cpu
  | [], s => ([], some s)
  | .plain i :: code, s =>
    match exec callee [i] s with
    | (calls, none) => (calls, none)
    | (calls, some t) => (calls ++ (run callee code t).1, (run callee code t).2)
  | i :: code, s =>
    match i.effect s with
    | none => ([], none)
    | some t => run callee code t

/-! ## On the list -/

/-- The registers in the order in which `popad` takes them. -/
def popOrder : List Reg := [.edi, .esi, .ebp, .esp, .ebx, .edx, .ecx, .eax]

/-- The registers after `popad`, with these words on the stack. -/
def popped (ws : List Word) : Reg → Word := fun r => ws.getD (popOrder.idxOf r) 0#32

/-- `pushad` on a view of the state. -/
def View.pushad (v : View) : View := { v with stack := popOrder.map v.get ++ v.stack }

/-- `popad` on a view of the state. -/
def View.popad (v : View) : Option View :=
  if 8 ≤ v.stack.length then
    some { v with reg := popped (v.stack.take 8), stack := v.stack.drop 8 }
  else none

/-- One instruction that is no call, on a view of the state. -/
def Code.view : Code τ → View → Option View
  | .plain i, v => i.view v
  | .pushad, v => some v.pushad
  | .popad, v => v.popad
  | .mov8 r w, v =>
    if r = .esp then none
    else some { v with reg := Function.update v.reg r ((v.reg r).extractLsb' 8 24 ++ w) }
  | .out _ _, v => some v
  | .movReg r q, v =>
    if r = .esp then none else some { v with reg := Function.update v.reg r (v.get q) }
  | .byte b, v => if b = 0x60#8 then some v.pushad else if b = 0x61#8 then v.popad else none

/-- Code without calls. -/
def viewRun : List (Code τ) → View → Option View
  | [], v => some v
  | i :: code, v => (i.view v).bind (viewRun code)

section Views

variable {s t : Cpu} {u v : View} {i : Code τ} {code rest : List (Code τ)} {n : Nat}
  {callee : τ → Cpu → Option Cpu}

/-- The words that a view knows are on the stack. -/
theorem Shows.peek (shows_ : Shows s v) (known : n < v.stack.length) :
    s.peek n = v.stack[n] := by
  have at_ : ∀ (k n : Nat) (p : Word), n < k →
      (words s.mem p k)[n]? = some (s.mem.read32 (p + BitVec.ofNat 32 (4 * n))) := by
    intro k
    induction k with
    | zero => exact fun n p below => absurd below (Nat.not_lt_zero n)
    | succ k ih =>
        intro n p below
        cases n with
        | zero => simp [words]
        | succ n =>
            have place :
                p + 4#32 + BitVec.ofNat 32 (4 * n) = p + BitVec.ofNat 32 (4 * (n + 1)) := by
              rw [Nat.mul_succ, Nat.add_comm, BitVec.ofNat_add, BitVec.add_assoc]
            rw [words, List.getElem?_cons_succ, ih n _ (Nat.lt_of_succ_lt_succ below), place]
  have word := at_ v.stack.length n (s.reg .esp) known
  have same := shows_.stack
  rw [Cpu.top] at same
  rw [same, List.getElem?_eq_getElem known] at word
  exact (Option.some.inj word).symm

/-- Pushes of several words. -/
theorem Shows.pushes (shows_ : Shows s v) (ws : List Word)
    (room : 4 * (v.stack.length + ws.length) ≤ 2 ^ 32) :
    Shows (ws.foldl Cpu.push s) { v with stack := ws.reverse ++ v.stack } := by
  induction ws generalizing s v with
  | nil => exact shows_
  | cons w ws ih =>
      rw [List.length_cons] at room
      have pushed := ih (shows_.push (by omega) w) (by rw [List.length_cons]; omega)
      rw [List.reverse_cons, List.append_assoc]
      exact pushed

theorem Shows.pushad (shows_ : Shows s v) (room : 4 * (v.stack.length + 8) ≤ 2 ^ 32) :
    Shows s.pushad v.pushad := by
  have regs : s.reg = v.get := funext shows_.reg
  have pushed := shows_.pushes
    ([.eax, .ecx, .edx, .ebx, .esp, .ebp, .esi, .edi].map s.reg) room
  have order : ([Reg.eax, .ecx, .edx, .ebx, .esp, .ebp, .esi, .edi].map s.reg).reverse =
      popOrder.map v.get := by
    rw [regs]
    rfl
  rw [order] at pushed
  exact pushed

theorem Shows.popad (shows_ : Shows s v) (step : v.popad = some u) : Shows s.popad u := by
  unfold View.popad at step
  split at step
  · next known =>
    cases step
    have dropped := shows_.discard known
    have word : ∀ n (below : n < 8), s.peek n = (v.stack.take 8).getD n 0#32 := by
      intro n below
      have inside : n < v.stack.length := Nat.lt_of_lt_of_le below known
      rw [shows_.peek inside, List.getD_eq_getElem?_getD, List.getElem?_take_of_lt below,
        List.getElem?_eq_getElem inside, Option.getD_some]
    constructor
    · intro r
      have esp := dropped.reg .esp
      rw [Cpu.discard, setReg_self] at esp
      cases r with
      | esp => exact esp
      | eax => exact word 7 (by decide)
      | ecx => exact word 6 (by decide)
      | edx => exact word 5 (by decide)
      | ebx => exact word 4 (by decide)
      | ebp => exact word 2 (by decide)
      | esi => exact word 1 (by decide)
      | edi => exact word 0 (by decide)
    · exact shows_.seg
    · have stack := dropped.stack
      rw [Cpu.top, Cpu.discard, setReg_self] at stack
      exact stack
  · cases step

/-- An instruction that calls nothing is followed by the rest of the code. -/
theorem run_effect (notPlain : ∀ j, i ≠ .plain j) (effect : i.effect s = some t) :
    run callee (i :: rest) s = run callee rest t := by
  cases i with
  | plain j => exact absurd rfl (notPlain j)
  | _ =>
      rw [run, effect]
      exact notPlain

/-- **Step lemma.** An instruction does to a state what it does to a view of it. -/
theorem Code.view_sound (callee : τ → Cpu → Option Cpu) (rest : List (Code τ))
    (shows_ : Shows s v) (room : 4 * (v.stack.length + 8) ≤ 2 ^ 32) (step : i.view v = some u) :
    u.stack.length ≤ v.stack.length + 8 ∧
      ∃ t, Shows t u ∧ run callee (i :: rest) s = run callee rest t := by
  have pushed : View.pushad v = u → u.stack.length ≤ v.stack.length + 8 ∧ Shows s.pushad u := by
    rintro rfl
    have length : (popOrder.map v.get).length = 8 := rfl
    refine ⟨?_, shows_.pushad room⟩
    rw [View.pushad, List.length_append, length]
    omega
  have popped_ : View.popad v = some u → u.stack.length ≤ v.stack.length + 8 ∧ Shows s.popad u := by
    intro step
    refine ⟨?_, shows_.popad step⟩
    unfold View.popad at step
    split at step
    · cases step
      rw [List.length_drop]
      omega
    · cases step
  cases i with
  | plain j =>
      rcases j.view_sound callee [] shows_ (by omega) step with
        ⟨grown, t, shown, one⟩
      refine ⟨by omega, t, shown, ?_⟩
      rw [run, one]
      rfl
  | pushad =>
      rcases pushed (Option.some.inj step) with ⟨grown, shown⟩
      exact ⟨grown, _, shown, rfl⟩
  | popad =>
      rcases popped_ step with ⟨grown, shown⟩
      exact ⟨grown, _, shown, rfl⟩
  | mov8 r w =>
      rw [Code.view] at step
      split at step
      · cases step
      · next other =>
        cases step
        have same : s.reg r = v.reg r := by rw [shows_.reg, View.get, if_neg other]
        rw [← same]
        exact ⟨Nat.le_add_right _ 8, _, shows_.setReg other _, rfl⟩
  | out port r =>
      cases step
      exact ⟨Nat.le_add_right _ 8, s, shows_, rfl⟩
  | movReg r q =>
      rw [Code.view] at step
      split at step
      · cases step
      · next other =>
        cases step
        rw [← shows_.reg]
        exact ⟨Nat.le_add_right _ 8, _, shows_.setReg other _, rfl⟩
  | byte b =>
      have notPlain : ∀ j : Instr τ, Code.byte b ≠ .plain j := fun j same => by cases same
      rw [Code.view] at step
      split at step
      · next push =>
        rcases pushed (Option.some.inj step) with ⟨grown, shown⟩
        exact ⟨grown, _, shown, run_effect notPlain (if_pos push)⟩
      · next notPush =>
        split at step
        · next pop =>
          rcases popped_ step with ⟨grown, shown⟩
          exact ⟨grown, _, shown, run_effect notPlain ((if_neg notPush).trans (if_pos pop))⟩
        · cases step

/-- **Run lemma.** -/
theorem viewRun_sound (callee : τ → Cpu → Option Cpu) (code rest : List (Code τ))
    (shows_ : Shows s v) (room : 4 * (v.stack.length + 8 * code.length) ≤ 2 ^ 32)
    (all : viewRun code v = some u) :
    ∃ t, Shows t u ∧ run callee (code ++ rest) s = run callee rest t := by
  induction code generalizing s v with
  | nil =>
      cases all
      exact ⟨s, shows_, rfl⟩
  | cons i code ih =>
      rcases Option.bind_eq_some_iff.mp all with ⟨w, step, all⟩
      rw [List.length_cons] at room
      rcases i.view_sound callee (code ++ rest) shows_ (by omega) step with
        ⟨grown, t, shown, first⟩
      rcases ih shown (by omega) all with ⟨t', shown', later⟩
      exact ⟨t', shown', first.trans later⟩

/-! ## Interrupts on the list -/

variable {c : Context}

/-- The view at the start of a handler. -/
def Context.view (c : Context) : View :=
  ⟨c.cpu.reg .esp, c.cpu.reg, c.cpu.seg, [c.eip, c.cs.setWidth 32, c.eflags]⟩

theorem Context.length_view (c : Context) : c.view.stack.length = 3 := rfl

theorem shows_interrupted (c : Context) : Shows c.interrupted c.view := by
  have start := shows_view c.cpu 0
  rw [Cpu.view, Nat.mul_zero, BitVec.add_zero] at start
  have room : 4 * (0 + 3) ≤ 2 ^ 32 := by decide
  exact start.pushes [c.eflags, c.cs.setWidth 32, c.eip] room

/-- A program is gone on with as another one was interrupted, whatever is in memory. -/
structure Resumes (d c : Context) : Prop where
  reg : d.cpu.reg = c.cpu.reg
  seg : d.cpu.seg = c.cpu.seg
  eip : d.eip = c.eip
  cs : d.cs = c.cs
  eflags : d.eflags = c.eflags

/-- `iret` where a handler started. -/
theorem Shows.iret (shows_ : Shows s c.view) : Resumes (iret s) c := by
  have dropped := shows_.discard (n := 3) (Nat.le_refl 3)
  have word : ∀ n (below : n < 3), s.peek n = c.view.stack[n] := fun n below => shows_.peek below
  refine ⟨?_, shows_.seg, word 0 (by decide), ?_, word 2 (by decide)⟩
  · funext r
    rw [X86.iret, dropped.reg, View.get]
    split
    · next esp =>
      rw [esp]
      exact BitVec.sub_zero _
    · rfl
  · rw [X86.iret, word 1 (by decide)]
    exact BitVec.setWidth_setWidth_of_le c.cs (by decide : 16 ≤ 32)

end Views

end X86
