import Learnix.Lib.ByteMemory

/-!
# Straight-line code of a 32-bit x86

The registers, the data segment registers and the memory, and the instructions
that an interrupt stub is made of. The segments are flat, so that an address is
an offset, and the flags are left out: no instruction here reads them.

What a called function does is a parameter. `exec` records the state in which
every function is entered, and `Cdecl` is what the calling convention promises
about the state in which it returns. `Cpu.top n` reads the stack as a list of
`n` words, so that pushes and pops are `cons` and `tail`.
-/

namespace X86

open Machine Memory

/-- The general registers. -/
inductive Reg
  | eax
  | ecx
  | edx
  | ebx
  | esp
  | ebp
  | esi
  | edi
deriving DecidableEq, Repr

/-- The data segment registers. -/
inductive Seg
  | ds
  | es
  | fs
  | gs
deriving DecidableEq, Repr

structure Cpu where
  reg : Reg → Word
  seg : Seg → BitVec 16
  mem : Memory

namespace Cpu

def setReg (s : Cpu) (r : Reg) (v : Word) : Cpu := { s with reg := Function.update s.reg r v }

def setSeg (s : Cpu) (g : Seg) (v : BitVec 16) : Cpu :=
  { s with seg := Function.update s.seg g v }

def push (s : Cpu) (v : Word) : Cpu :=
  { s.setReg .esp (s.reg .esp - 4#32) with mem := s.mem.write32 (s.reg .esp - 4#32) v }

/-- Load a segment register from the word on top of the stack. -/
def popSeg (s : Cpu) (g : Seg) : Cpu :=
  (s.setSeg g ((s.mem.read32 (s.reg .esp)).setWidth 16)).setReg .esp (s.reg .esp + 4#32)

/-- Drop `n` words from the stack. -/
def discard (s : Cpu) (n : Nat) : Cpu :=
  s.setReg .esp (s.reg .esp + BitVec.ofNat 32 (4 * n))

end Cpu

/-- The `n` words from address `p` on. -/
def words (m : Memory) (p : Word) : Nat → List Word
  | 0 => []
  | n + 1 => m.read32 p :: words m (p + 4#32) n

/-- The `n` words on top of the stack. -/
def Cpu.top (s : Cpu) (n : Nat) : List Word := words s.mem (s.reg .esp) n

/-- The first `n` arguments of a function, in the state in which it is entered. -/
def Cpu.args (s : Cpu) (n : Nat) : List Word := words s.mem (s.reg .esp + 4#32) n

/-- The instructions, where `τ` names the functions that are called. `mov16` leaves the
upper half of the register, `discard n` adds `4 * n` to ESP, and `call` pushes the
address of the next instruction. -/
inductive Instr (τ : Type)
  | push (r : Reg)
  | pushSeg (g : Seg)
  | popSeg (g : Seg)
  | mov16 (r : Reg) (v : BitVec 16)
  | movSeg (g : Seg) (r : Reg)
  | discard (n : Nat)
  | call (f : τ) (back : Word)
deriving Repr

variable {τ : Type}

/-- The functions that the code calls, with the states in which they are entered, and
the state at its end, if every function returns. -/
def exec (callee : τ → Cpu → Option Cpu) : List (Instr τ) → Cpu → List (τ × Cpu) × Option Cpu
  | [], s => ([], some s)
  | .push r :: code, s => exec callee code (s.push (s.reg r))
  | .pushSeg g :: code, s => exec callee code (s.push ((s.seg g).setWidth 32))
  | .popSeg g :: code, s => exec callee code (s.popSeg g)
  | .mov16 r v :: code, s => exec callee code (s.setReg r ((s.reg r).extractLsb' 16 16 ++ v))
  | .movSeg g r :: code, s => exec callee code (s.setSeg g ((s.reg r).setWidth 16))
  | .discard n :: code, s => exec callee code (s.discard n)
  | .call f back :: code, s =>
    match callee f (s.push back) with
    | none => ([(f, s.push back)], none)
    | some t => ((f, s.push back) :: (exec callee code t).1, (exec callee code t).2)

/-- The registers that a function has to leave as they were. -/
def CalleeSaved (r : Reg) : Prop := r = .ebx ∨ r = .esi ∨ r = .edi ∨ r = .ebp

/-- What the calling convention promises about the state `r` in which a function of `n`
arguments returns that was entered in state `e`. It may change its arguments, but not
the `kept` words of its caller above them. -/
structure Cdecl (n kept : Nat) (e r : Cpu) : Prop where
  esp : r.reg .esp = e.reg .esp + 4#32
  saved : ∀ q, CalleeSaved q → r.reg q = e.reg q
  seg : r.seg = e.seg
  frame : words r.mem (e.reg .esp + 4#32 + BitVec.ofNat 32 (4 * n)) kept =
    words e.mem (e.reg .esp + 4#32 + BitVec.ofNat 32 (4 * n)) kept

section Registers

variable {s : Cpu} {r q : Reg} {v : Word}

@[simp] theorem setReg_self : (s.setReg r v).reg r = v := Function.update_self _ _ _

@[simp] theorem setReg_of_ne (ne : q ≠ r) : (s.setReg r v).reg q = s.reg q :=
  Function.update_of_ne ne _ _

@[simp] theorem push_esp : (s.push v).reg .esp = s.reg .esp - 4#32 :=
  @setReg_self s .esp (s.reg .esp - 4#32)

@[simp] theorem push_of_ne (ne : q ≠ .esp) : (s.push v).reg q = s.reg q :=
  Function.update_of_ne ne _ _

end Registers

/-! ## The stack as a list -/

section Stack

variable {m m' : Memory} {p v : Word} {n k : Nat} {s : Cpu} {ws : List Word}

@[simp] theorem length_words (m : Memory) (p : Word) (n : Nat) : (words m p n).length = n := by
  induction n generalizing p with
  | zero => rfl
  | succ n ih => exact congrArg Nat.succ (ih _)

theorem words_add (m : Memory) (p : Word) (n k : Nat) :
    words m p (n + k) = words m p n ++ words m (p + BitVec.ofNat 32 (4 * n)) k := by
  induction n generalizing p with
  | zero => simp [words]
  | succ n ih =>
      have place : p + 4#32 + BitVec.ofNat 32 (4 * n) = p + BitVec.ofNat 32 (4 * (n + 1)) := by
        rw [Nat.mul_succ, Nat.add_comm, BitVec.ofNat_add, BitVec.add_assoc]
      rw [Nat.succ_add, words, words, ih, place]
      rfl

/-- A store to the word below does not change the `n` words from `p` on, unless these
reach around the whole address space. -/
theorem words_write32 (m : Memory) (p v : Word) (room : 4 * n + 4 ≤ 2 ^ 32) :
    words (m.write32 (p - 4#32) v) p n = words m p n := by
  have keep : ∀ k q, (q - p).toNat + 4 * k ≤ 4 * n →
      words (m.write32 (p - 4#32) v) q k = words m q k := by
    intro k
    induction k with
    | zero => exact fun _ _ => rfl
    | succ k ih =>
        intro q inside
        have apart : Memory.Sep q 4 (p - 4#32) 4 := by
          unfold Memory.Sep InRange
          intro x inQ
          bv_omega
        have next : (q + 4#32 - p).toNat + 4 * k ≤ 4 * n := by bv_omega
        rw [words, words, read32_write32_sep apart, ih _ next]
  exact keep n p (by simp)

/-- Words depend on their own bytes only. -/
theorem words_congr (room : 4 * n ≤ 2 ^ 32)
    (same : ∀ x, Memory.InRange p (4 * n) x → m x = m' x) : words m p n = words m' p n := by
  induction n generalizing p with
  | zero => rfl
  | succ n ih =>
      have first : m.read32 p = m'.read32 p := by
        apply read32_congr
        intro x inside
        apply same
        unfold Memory.InRange at inside ⊢
        omega
      have rest : words m (p + 4#32) n = words m' (p + 4#32) n := by
        apply ih (by omega)
        intro x inside
        apply same
        unfold Memory.InRange at inside ⊢
        bv_omega
      rw [words, words, first, rest]

/-- A push is a `cons`. -/
theorem top_push (s : Cpu) (v : Word) (room : 4 * n + 4 ≤ 2 ^ 32) :
    (s.push v).top (n + 1) = v :: s.top n := by
  have place : s.reg .esp - 4#32 + 4#32 = s.reg .esp := BitVec.sub_add_cancel _ _
  rw [Cpu.top, push_esp, words, place]
  exact congrArg₂ List.cons (read32_write32_self _ _ _) (words_write32 _ _ _ room)

end Stack

/-! ## Code without calls, on the list -/

/-- What is known of a state: the registers, and the words of the stack below the
address `base`. ESP is known from these. -/
structure View where
  base : Word
  reg : Reg → Word
  seg : Seg → BitVec 16
  stack : List Word

def View.get (v : View) (r : Reg) : Word :=
  if r = .esp then v.base - BitVec.ofNat 32 (4 * v.stack.length) else v.reg r

/-- The state `s` is as `v` says. -/
structure Shows (s : Cpu) (v : View) : Prop where
  reg : ∀ r, s.reg r = v.get r
  seg : s.seg = v.seg
  stack : s.top v.stack.length = v.stack

/-- One instruction, if it is no call, leaves ESP to the stack and takes no unknown word. -/
def Instr.view : Instr τ → View → Option View
  | .push r, v => some { v with stack := v.get r :: v.stack }
  | .pushSeg g, v => some { v with stack := (v.seg g).setWidth 32 :: v.stack }
  | .popSeg g, v =>
    match v.stack with
    | [] => none
    | w :: ws => some { v with seg := Function.update v.seg g (w.setWidth 16), stack := ws }
  | .mov16 r w, v =>
    if r = .esp then none
    else some { v with reg := Function.update v.reg r ((v.reg r).extractLsb' 16 16 ++ w) }
  | .movSeg g r, v => some { v with seg := Function.update v.seg g ((v.get r).setWidth 16) }
  | .discard n, v => if n ≤ v.stack.length then some { v with stack := v.stack.drop n } else none
  | .call _ _, _ => none

/-- Code without calls. -/
def viewAll : List (Instr τ) → View → Option View
  | [], v => some v
  | i :: code, v => (i.view v).bind (viewAll code)

section Views

variable {s t : Cpu} {u v : View} {i : Instr τ} {code : List (Instr τ)} {w : Word} {n : Nat}
  {callee : τ → Cpu → Option Cpu}

/-- The registers and the first `n` words of the stack of `s`. -/
def Cpu.view (s : Cpu) (n : Nat) : View :=
  ⟨s.reg .esp + BitVec.ofNat 32 (4 * n), s.reg, s.seg, s.top n⟩

theorem shows_view (s : Cpu) (n : Nat) : Shows s (s.view n) := by
  have length : (s.top n).length = n := length_words _ _ _
  refine ⟨fun r => ?_, rfl, congrArg s.top length⟩
  unfold View.get Cpu.view
  split
  · next esp => rw [length, esp, BitVec.add_sub_cancel]
  · rfl

theorem Shows.push (shows_ : Shows s v) (room : 4 * v.stack.length + 4 ≤ 2 ^ 32) (w : Word) :
    Shows (s.push w) { v with stack := w :: v.stack } := by
  refine ⟨fun r => ?_, shows_.seg, ?_⟩
  · unfold View.get
    split
    · next esp =>
      rw [esp, push_esp, shows_.reg, View.get, if_pos rfl, List.length_cons, Nat.mul_succ,
        BitVec.ofNat_add, sub_add_eq_sub_sub]
    · next other => rw [push_of_ne other, shows_.reg, View.get, if_neg other]
  · exact (top_push s w room).trans (congrArg (w :: ·) shows_.stack)

theorem Shows.discard (shows_ : Shows s v) (known : n ≤ v.stack.length) :
    Shows (s.discard n) { v with stack := v.stack.drop n } := by
  have stack := shows_.stack
  have whole : n + (v.stack.length - n) = v.stack.length := Nat.add_sub_of_le known
  refine ⟨fun r => ?_, shows_.seg, ?_⟩
  · unfold View.get
    split
    · next esp =>
      have place : BitVec.ofNat 32 (4 * v.stack.length) =
          BitVec.ofNat 32 (4 * (v.stack.length - n)) + BitVec.ofNat 32 (4 * n) := by
        rw [← BitVec.ofNat_add, ← Nat.mul_add, Nat.add_comm, whole]
      rw [esp, Cpu.discard, setReg_self, shows_.reg, View.get, if_pos rfl, List.length_drop, place,
        sub_add_eq_sub_sub, BitVec.sub_add_cancel]
    · next other => rw [Cpu.discard, setReg_of_ne other, shows_.reg, View.get, if_neg other]
  · rw [← whole, Cpu.top, words_add] at stack
    have drop := congrArg (List.drop n) stack
    rw [List.drop_left' (length_words _ _ _)] at drop
    rw [List.length_drop, Cpu.top, Cpu.discard, setReg_self]
    exact drop

theorem Shows.setSeg (shows_ : Shows s v) (g : Seg) (w : BitVec 16) :
    Shows (s.setSeg g w) { v with seg := Function.update v.seg g w } := by
  refine ⟨shows_.reg, ?_, shows_.stack⟩
  rw [Cpu.setSeg, shows_.seg]

theorem Shows.setReg {r : Reg} (shows_ : Shows s v) (other : r ≠ .esp) (w : Word) :
    Shows (s.setReg r w) { v with reg := Function.update v.reg r w } := by
  refine ⟨fun q => ?_, shows_.seg, ?_⟩
  · unfold View.get
    by_cases here : q = r
    · rw [here, setReg_self, if_neg other]
      exact (Function.update_self r w v.reg).symm
    · rw [setReg_of_ne here, shows_.reg, View.get]
      split
      · rfl
      · exact (Function.update_of_ne here w v.reg).symm
  · rw [Cpu.top, setReg_of_ne other.symm]
    exact shows_.stack

/-- **Step lemma.** An instruction does to a state what it does to a view of it. -/
theorem Instr.view_sound (callee : τ → Cpu → Option Cpu) (rest : List (Instr τ))
    (shows_ : Shows s v) (room : 4 * v.stack.length + 4 ≤ 2 ^ 32) (step : i.view v = some u) :
    u.stack.length ≤ v.stack.length + 1 ∧
      ∃ t, Shows t u ∧ exec callee (i :: rest) s = exec callee rest t := by
  cases i with
  | push r =>
      cases step
      rw [← shows_.reg]
      exact ⟨Nat.le_refl _, _, shows_.push room (s.reg r), rfl⟩
  | pushSeg g =>
      cases step
      refine ⟨Nat.le_refl _, _, shows_.push room ((v.seg g).setWidth 32), ?_⟩
      rw [exec, shows_.seg]
  | popSeg g =>
      simp only [Instr.view] at step
      split at step
      · cases step
      · next w ws stack =>
        cases step
        have first := shows_.stack
        rw [stack] at first
        have top : s.mem.read32 (s.reg .esp) = w := (List.cons.inj first).1
        have popped := (shows_.setSeg g (w.setWidth 16)).discard (n := 1) (by simp [stack])
        rw [stack] at popped ⊢
        refine ⟨Nat.le_add_right _ 2, _, popped, ?_⟩
        rw [exec, Cpu.popSeg, top]
        rfl
  | mov16 r w =>
      simp only [Instr.view] at step
      split at step
      · cases step
      · next other =>
        cases step
        have same : s.reg r = v.reg r := by rw [shows_.reg, View.get, if_neg other]
        rw [← same]
        exact ⟨Nat.le_succ _, _, shows_.setReg other _, rfl⟩
  | movSeg g r =>
      cases step
      rw [← shows_.reg]
      exact ⟨Nat.le_succ _, _, shows_.setSeg g _, rfl⟩
  | discard n =>
      simp only [Instr.view] at step
      split at step
      · next known =>
        cases step
        exact ⟨by simp; omega, _, shows_.discard known, rfl⟩
      · cases step
  | call f back => cases step

/-- **Run lemma.** -/
theorem viewAll_sound (callee : τ → Cpu → Option Cpu) (rest : List (Instr τ)) (shows_ : Shows s v)
    (room : 4 * (v.stack.length + code.length) ≤ 2 ^ 32) (run : viewAll code v = some u) :
    ∃ t, Shows t u ∧ exec callee (code ++ rest) s = exec callee rest t := by
  induction code generalizing s v with
  | nil =>
      cases run
      exact ⟨s, shows_, rfl⟩
  | cons i code ih =>
      obtain ⟨w, step, run⟩ := Option.bind_eq_some_iff.mp run
      rw [List.length_cons] at room
      obtain ⟨grown, t, shows_, first⟩ := i.view_sound callee (code ++ rest) shows_ (by omega) step
      obtain ⟨t', shows', later⟩ := ih shows_ (by omega) run
      exact ⟨t', shows', first.trans later⟩

/-- The arguments are the words under the return address. -/
theorem Shows.args {back : Word} (args : List Word) {ws : List Word} (entered : Shows s v)
    (stack : v.stack = back :: (args ++ ws)) : s.args args.length = args := by
  have known := entered.stack
  rw [stack, List.length_cons, Cpu.top, words, List.length_append, words_add,
    List.cons.injEq] at known
  exact List.append_inj_left known.2 (length_words _ _ _)

/-- A function returns with its return address taken from the stack, and with the words
above its arguments as they were. -/
theorem Cdecl.shows {back : Word} (args ws : List Word) {e r : Cpu}
    (convention : Cdecl args.length ws.length e r) (entered : Shows e v)
    (stack : v.stack = back :: (args ++ ws)) :
    ∃ junk, junk.length = args.length ∧
      Shows r ⟨v.base, r.reg, e.seg, junk ++ ws⟩ := by
  have length : (words r.mem (r.reg .esp) args.length).length = args.length := length_words _ _ _
  refine ⟨words r.mem (r.reg .esp) args.length, length, fun q => ?_, convention.seg, ?_⟩
  · unfold View.get
    split
    · next esp =>
      have low := entered.reg .esp
      rw [View.get, if_pos rfl, stack, List.length_cons, List.length_append, Nat.mul_succ,
        BitVec.ofNat_add, ← BitVec.sub_sub] at low
      rw [esp, convention.esp, low, BitVec.sub_add_cancel, List.length_append,
        length_words]
    · rfl
  · have known := entered.stack
    rw [stack, List.length_cons, Cpu.top, words, List.length_append, words_add,
      List.cons.injEq] at known
    have kept := List.append_inj_right known.2 (length_words _ _ _)
    rw [List.length_append, length, Cpu.top, words_add, convention.esp, convention.frame, kept]

end Views

end X86
