import Learnix.Lib.X86Interrupt
import Learnix.Process
import Learnix.SystemCall

/-!
# The saved frame of a process

The fifteen words on the stack of a process that does not run are written in two
places, by `irq0` under the three words of the CPU and by `process_create` for a
process that has not run yet, and taken off in two, by the end of `irq0` and by
the inline assembly of `scheduler_start`. All four agree on their order
(`saved_frame`).
-/

namespace Learnix

open Machine Memory X86

/-! ## The code -/

/-- `irq0` up to its first call. -/
def irq0Save : List (Code Callee) :=
  [.pushad, .plain (.pushSeg .ds), .plain (.pushSeg .es), .plain (.pushSeg .fs),
    .plain (.pushSeg .gs), .plain (.mov16 .eax kernelData), .plain (.movSeg .ds .eax),
    .plain (.movSeg .es .eax)]

/-- `irq0` between its two calls: the end of the interrupt is signalled, and ESP is the
argument of `scheduler_tick`. -/
def irq0Acknowledge : List (Code Callee) :=
  [.mov8 .eax 0x20#8, .out 0x20#8 .eax, .plain (.push .esp)]

/-- The last instructions of `irq0` before its `iret`. -/
def irq0Restore : List (Code Callee) :=
  [.plain (.popSeg .gs), .plain (.popSeg .fs), .plain (.popSeg .es), .plain (.popSeg .ds), .popad]

/-- `irq0` up to its `iret`; the functions return to `back` and `back'`. -/
def irq0 (back back' : Word) : List (Code Callee) :=
  irq0Save ++ (.plain (.call .timerHandler back) :: (irq0Acknowledge ++
    (.plain (.call .schedulerTick back') :: .plain (.discard 1) :: .movReg .esp .eax ::
      irq0Restore)))

/-- The inline assembly of `scheduler_start` up to its `iret`, where the compiler has put
`esp` in the register `r`. -/
def schedulerStartAsm (r : Reg) : List (Code Callee) :=
  [.movReg .esp r, .plain (.popSeg .gs), .plain (.popSeg .fs), .plain (.popSeg .es),
    .plain (.popSeg .ds), .byte 0x61#8]

/-- The program that goes on after the code and an `iret`, if every function returns. -/
def resumed (callee : Callee → Cpu → Option Cpu) (code : List (Code Callee)) (s : Cpu) :
    Option Context :=
  (run callee code s).2.map iret

/-- A process that has not run yet. -/
def initialContext (entry stack : Word) (m : Memory) : Context where
  cpu := ⟨fun r => if r = .esp then stack + BitVec.ofNat 32 stackSize else 0#32,
    fun _ => 0x10#16, m⟩
  eip := entry
  cs := 0x10#16
  eflags := 0x202#32

/-- The words that are taken off the stack to go on with `c`, the first one first; `popad`
drops the word `w`. -/
def savedFrame (c : Context) (w : Word) : List Word :=
  [(c.cpu.seg .gs).setWidth 32, (c.cpu.seg .fs).setWidth 32, (c.cpu.seg .es).setWidth 32,
    (c.cpu.seg .ds).setWidth 32, c.cpu.reg .edi, c.cpu.reg .esi, c.cpu.reg .ebp, w,
    c.cpu.reg .ebx, c.cpu.reg .edx, c.cpu.reg .ecx, c.cpu.reg .eax, c.eip, c.cs.setWidth 32,
    c.eflags]

variable {callee : Callee → Cpu → Option Cpu} {c : Context} {s u : Cpu} {v : View} {w : Word}

/-! ## Taking the frame off -/

/-- The stack pointer under the frame of `c`. -/
def frameEsp (c : Context) : Word := c.cpu.reg .esp - 60#32

theorem viewRun_irq0Restore (stack : v.stack = savedFrame c w) (base : v.base = c.cpu.reg .esp) :
    ∃ v', viewRun irq0Restore v = some v' ∧ ∀ t, Shows t v' → Shows t c.view := by
  obtain ⟨b, reg, seg, st⟩ := v
  dsimp only at stack base
  subst stack base
  refine ⟨_, rfl, fun t shown => ?_⟩
  have segs : ∀ seg : Seg → BitVec 16, Function.update (Function.update (Function.update
      (Function.update seg .gs (((c.cpu.seg .gs).setWidth 32).setWidth 16))
        .fs (((c.cpu.seg .fs).setWidth 32).setWidth 16))
        .es (((c.cpu.seg .es).setWidth 32).setWidth 16))
        .ds (((c.cpu.seg .ds).setWidth 32).setWidth 16) = c.cpu.seg := by
    intro seg
    funext g
    cases g <;> simp [Function.update]
  refine ⟨fun r => ?_, shown.seg.trans (segs seg), shown.stack⟩
  rw [shown.reg]
  cases r <;> rfl

/-- Code that takes the words off as `irq0` does goes on with the program whose frame it
finds. -/
theorem resumed_frame {code : List (Code Callee)}
    (same : ∀ v, viewRun code v = viewRun irq0Restore v) (short : code.length = 5)
    (esp : s.reg .esp = frameEsp c) (frame : words s.mem (frameEsp c) 15 = savedFrame c w) :
    ∃ d, resumed callee code s = some d ∧ Resumes d c := by
  have base : (s.view 15).base = c.cpu.reg .esp := by
    rw [Cpu.view, esp]
    exact BitVec.sub_add_cancel _ _
  have stack : (s.view 15).stack = savedFrame c w := by
    rw [← frame, ← esp]
    rfl
  rcases viewRun_irq0Restore stack base with ⟨v', taken, shows_⟩
  rw [← same] at taken
  have room : 4 * ((s.view 15).stack.length + 8 * code.length) ≤ 2 ^ 32 := by
    have length : (savedFrame c w).length = 15 := rfl
    rw [stack, length, short]
    decide
  rcases viewRun_sound callee _ [] (shows_view s 15) room taken with ⟨t, shown, steps⟩
  rw [List.append_nil] at steps
  refine ⟨iret t, ?_, (shows_ t shown).iret⟩
  rw [resumed, steps]
  rfl

/-! ## The frame of `process_create` -/

/-- Pushes in the C code: the words in the order opposite to that of the pushes, and
nothing outside of them. -/
theorem foldl_push (ws : List Word) (p : Word) (m : Memory) (room : 4 * ws.length ≤ 2 ^ 32) :
    (ws.foldl push (p, m)).1 = p - BitVec.ofNat 32 (4 * ws.length) ∧
      words (ws.foldl push (p, m)).2 (ws.foldl push (p, m)).1 ws.length = ws.reverse ∧
      ∀ x, ¬ InRange (p - BitVec.ofNat 32 (4 * ws.length)) (4 * ws.length) x →
        (ws.foldl push (p, m)).2 x = m x := by
  induction ws using List.reverseRecOn with
  | nil => exact ⟨(BitVec.sub_zero p).symm, rfl, fun x _ => rfl⟩
  | append_singleton ws w ih =>
      rw [List.length_append, List.length_singleton] at room ⊢
      rcases ih (by omega) with ⟨esp, stack, outside⟩
      rw [List.foldl_append, List.foldl_cons, List.foldl_nil]
      generalize ws.foldl push (p, m) = r at esp stack outside ⊢
      obtain ⟨q, m'⟩ := r
      dsimp only at esp stack outside
      have place : q - 4#32 = p - BitVec.ofNat 32 (4 * (ws.length + 1)) := by
        rw [esp, Nat.mul_succ, BitVec.ofNat_add, sub_add_eq_sub_sub]
      refine ⟨place, ?_, fun x notIn => ?_⟩
      · have above : q - 4#32 + 4#32 = q := BitVec.sub_add_cancel _ _
        rw [List.reverse_concat, push, words, read32_write32_self, above,
          words_write32 _ _ _ (by omega), stack]
      · change m'.write32 (q - 4#32) w x = m x
        rw [write32_apply_of_not_inRange, outside]
        · intro inside
          apply notIn
          unfold InRange at inside ⊢
          bv_omega
        · intro inside
          apply notIn
          rw [← place]
          unfold InRange at inside ⊢
          omega

/-- The stack that `process_create` builds is the frame of a program at `entry`. -/
theorem initialStack_frame (entry stack : Word) (m m' : Memory) :
    (initialStack entry stack m).1 = frameEsp (initialContext entry stack m') ∧
      words (initialStack entry stack m).2 (initialStack entry stack m).1 15 =
        savedFrame (initialContext entry stack m') 0#32 ∧
      ∀ x, ¬ InRange stack stackSize x → (initialStack entry stack m).2 x = m x := by
  have length : (initialFrame entry).length = 15 := rfl
  rcases foldl_push (initialFrame entry) (stack + BitVec.ofNat 32 stackSize) m
    (by rw [length]; decide) with ⟨esp, pushed, outside⟩
  rw [length] at esp pushed outside
  refine ⟨esp, pushed, fun x notIn => outside x fun inside => notIn ?_⟩
  have size : stackSize = 16384 := rfl
  unfold InRange at inside ⊢
  rw [size] at inside ⊢
  bv_omega

/-! ## The frame of `irq0` -/

/-- `timer_handler` follows the calling convention. -/
def TimerConvention (callee : Callee → Cpu → Option Cpu) : Prop :=
  ∀ e r, callee .timerHandler e = some r → Cdecl 0 15 e r

/-- Code is followed by a call. -/
theorem run_call (callee : Callee → Cpu → Option Cpu) (f : Callee) (back : Word)
    (rest : List (Code Callee)) (s : Cpu) :
    run callee (.plain (.call f back) :: rest) s =
      match callee f (s.push back) with
      | none => ([(f, s.push back)], none)
      | some t => ((f, s.push back) :: (run callee rest t).1, (run callee rest t).2) := by
  rw [run, exec]
  cases callee f (s.push back) <;> rfl

/-- What is known when `timer_handler` is called: the frame of the interrupted program is
on the stack. -/
theorem irq0Save_shows (callee : Callee → Cpu → Option Cpu) (c : Context)
    (rest : List (Code Callee)) :
    ∃ t v, Shows t v ∧ v.base = c.cpu.reg .esp ∧
      v.stack = savedFrame c (c.cpu.reg .esp - 12#32) ∧
      run callee (irq0Save ++ rest) c.interrupted = run callee rest t := by
  have room : 4 * (c.view.stack.length + 8 * irq0Save.length) ≤ 2 ^ 32 := by
    rw [c.length_view]
    decide
  rcases viewRun_sound callee irq0Save rest (shows_interrupted c) room rfl with ⟨t, shown, steps⟩
  exact ⟨t, _, shown, rfl, rfl, steps⟩

/-- What is known when `scheduler_tick` is called. -/
structure TickEntered (c : Context) (e : Cpu) : Prop where
  args : e.args 1 = [frameEsp c]
  frame : words e.mem (frameEsp c) 15 = savedFrame c (c.cpu.reg .esp - 12#32)

/-- When `timer_handler` has returned, `scheduler_tick` is called with the address of the
frame. -/
theorem irq0Acknowledge_shows {e r : Cpu} {back : Word} (back' : Word)
    (entered : Shows e v) (base : v.base = c.cpu.reg .esp)
    (stack : v.stack = back :: savedFrame c (c.cpu.reg .esp - 12#32)) (convention : Cdecl 0 15 e r)
    (rest : List (Code Callee)) :
    ∃ t, TickEntered c (t.push back') ∧
      run callee (irq0Acknowledge ++ rest) r = run callee rest t := by
  rcases Cdecl.shows [] (savedFrame c (c.cpu.reg .esp - 12#32)) convention entered stack with
    ⟨junk, none, returned⟩
  rw [List.eq_nil_of_length_eq_zero none, List.nil_append, base] at returned
  have room : 4 * (15 + 8 * 3) ≤ 2 ^ 32 := by decide
  have room' : 4 * 16 + 4 ≤ 2 ^ 32 := by decide
  rcases viewRun_sound callee irq0Acknowledge rest returned room rfl with
    ⟨t, shown, steps⟩
  have called := shown.push room' back'
  refine ⟨t, ⟨called.args [frameEsp c] rfl, ?_⟩, steps⟩
  have esp : (t.push back').reg .esp = c.cpu.reg .esp - 68#32 := called.reg .esp
  have above : (t.push back').reg .esp + 4#32 + 4#32 = frameEsp c := by
    rw [esp, frameEsp]
    bv_omega
  have known : words (t.push back').mem ((t.push back').reg .esp) 17 =
    back' :: frameEsp c :: savedFrame c (c.cpu.reg .esp - 12#32) := called.stack
  rw [words, words, above] at known
  exact (List.cons.inj (List.cons.inj known).2).2

/-- `irq0` goes on with the stack pointer that `scheduler_tick` returns. -/
theorem run_irq0Restore (callee : Callee → Cpu → Option Cpu) (r : Cpu) :
    run callee (.plain (.discard 1) :: .movReg .esp .eax :: irq0Restore) r =
      run callee irq0Restore (r.setReg .esp (r.reg .eax)) := by
  have esp : (r.discard 1).setReg .esp ((r.discard 1).reg .eax) = r.setReg .esp (r.reg .eax) := by
    rw [Cpu.discard, setReg_of_ne (by decide)]
    exact congrArg (fun reg => ({ r with reg := reg } : Cpu)) (Function.update_idem _ _ _)
  rw [← esp]
  rfl

/-- What `irq0` takes off the stack calls nothing. -/
theorem run_irq0Restore_calls (callee : Callee → Cpu → Option Cpu) (u : Cpu) :
    (run callee irq0Restore u).1 = [] := by
  have room : 4 * (15 + 8 * 5) ≤ 2 ^ 32 := by decide
  rcases viewRun_sound callee irq0Restore [] (shows_view u 15) room rfl with
    ⟨t, -, steps⟩
  rw [List.append_nil] at steps
  rw [steps]
  rfl

/-- The run of `irq0`: its two calls, and what it goes on with. -/
theorem irq0_run (timer : TimerConvention callee) (c : Context) (back back' : Word) :
    ∃ e₀, (run callee (irq0 back back') c.interrupted).1.head? = some (.timerHandler, e₀) ∧
      ∀ r₀, callee .timerHandler e₀ = some r₀ → ∃ e, TickEntered c e ∧
        (run callee (irq0 back back') c.interrupted).1 =
          [(.timerHandler, e₀), (.schedulerTick, e)] ∧
        ∀ r, callee .schedulerTick e = some r → resumed callee (irq0 back back') c.interrupted =
          resumed callee irq0Restore (r.setReg .esp (r.reg .eax)) := by
  rcases irq0Save_shows callee c (.plain (.call .timerHandler back) :: (irq0Acknowledge ++
    (.plain (.call .schedulerTick back') :: .plain (.discard 1) :: .movReg .esp .eax ::
      irq0Restore))) with ⟨s, v, shown, base, stack, saved⟩
  have whole : run callee (irq0 back back') c.interrupted = _ := saved
  rw [run_call] at whole
  have room : 4 * v.stack.length + 4 ≤ 2 ^ 32 := by
    have length : (savedFrame c (c.cpu.reg .esp - 12#32)).length = 15 := rfl
    rw [stack, length]
    decide
  have entered := shown.push room back
  rw [stack] at entered
  refine ⟨s.push back, ?_, fun r₀ returned => ?_⟩
  · rw [whole]
    cases callee .timerHandler (s.push back) <;> rfl
  · rw [returned] at whole
    simp only at whole
    rcases irq0Acknowledge_shows back' entered base rfl (timer _ _ returned)
      (.plain (.call .schedulerTick back') :: .plain (.discard 1) :: .movReg .esp .eax ::
        irq0Restore) with ⟨t, called, steps⟩
    rw [steps, run_call] at whole
    refine ⟨t.push back', called, ?_, fun r switched => ?_⟩
    · rw [whole]
      cases callee .schedulerTick (t.push back') with
      | none => rfl
      | some r => simp only [run_irq0Restore, run_irq0Restore_calls]
    · rw [switched] at whole
      simp only [run_irq0Restore] at whole
      rw [resumed, whole]
      rfl

/-! ## Agreement -/

/-- The frame that an interrupt and `irq0` leave is taken off by `irq0` to exactly the
interrupted program, ESP included, and the one that `process_create` builds is taken off by
`irq0` and by `scheduler_start` to a program at its entry with an empty stack. -/
theorem saved_frame (timer : TimerConvention callee) :
    (∀ (c : Context) (back back' : Word), ∃ e₀,
      (run callee (irq0 back back') c.interrupted).1.head? = some (.timerHandler, e₀) ∧
      ∀ r₀, callee .timerHandler e₀ = some r₀ → ∃ e esp,
        (run callee (irq0 back back') c.interrupted).1 =
          [(.timerHandler, e₀), (.schedulerTick, e)] ∧
        e.args 1 = [esp] ∧
        (∀ u : Cpu, u.reg .esp = esp → words u.mem esp 15 = words e.mem esp 15 →
          ∃ d, resumed callee irq0Restore u = some d ∧ Resumes d c) ∧
        ∀ r, callee .schedulerTick e = some r → resumed callee (irq0 back back') c.interrupted =
          resumed callee irq0Restore (r.setReg .esp (r.reg .eax))) ∧
    ∀ entry stack m, ∃ esp m', initialStack entry stack m = (esp, m') ∧
      (∀ x, ¬ InRange stack stackSize x → m' x = m x) ∧
      ∀ u : Cpu, words u.mem esp 15 = words m' esp 15 →
        (u.reg .esp = esp → ∃ d, resumed callee irq0Restore u = some d ∧
          Resumes d (initialContext entry stack m)) ∧
        ∀ r, u.reg r = esp → ∃ d, resumed callee (schedulerStartAsm r) u = some d ∧
          Resumes d (initialContext entry stack m) := by
  constructor
  · intro c back back'
    rcases irq0_run timer c back back' with ⟨e₀, first, returns⟩
    refine ⟨e₀, first, fun r₀ returned => ?_⟩
    rcases returns r₀ returned with ⟨e, entered, calls, switched⟩
    refine ⟨e, frameEsp c, calls, entered.args, fun u esp same => ?_, switched⟩
    exact resumed_frame (fun _ => rfl) rfl esp (same.trans entered.frame)
  · intro entry stack m
    rcases initialStack_frame entry stack m m with ⟨esp, frame, outside⟩
    refine ⟨(initialStack entry stack m).1, (initialStack entry stack m).2, rfl, outside,
      fun u same => ⟨fun at_ => ?_, fun r at_ => ?_⟩⟩
    · rw [frame, esp] at same
      exact resumed_frame (fun _ => rfl) rfl (at_.trans esp) same
    · rw [frame, esp] at same
      have moved : resumed callee (schedulerStartAsm r) u =
          resumed callee ((schedulerStartAsm r).tail) (u.setReg .esp (u.reg r)) := rfl
      rw [moved]
      exact resumed_frame (fun _ => rfl) rfl (setReg_self.trans (at_.trans esp)) same

/-- The functions of a kernel that never switches: they return at once, `scheduler_tick`
with its argument. -/
def neverSwitch : Callee → Cpu → Option Cpu
  | .schedulerTick, e => some ((e.setReg .eax ((e.args 1).headD 0#32)).discard 1)
  | _, e => some (e.discard 1)

theorem neverSwitch_timer : TimerConvention neverSwitch := by
  intro e r returned
  cases returned
  refine ⟨setReg_self, fun q saved => setReg_of_ne ?_, rfl, rfl⟩
  rintro rfl
  exact absurd saved (by simp [CalleeSaved])

/-- A program in a loop at `0x101000`. -/
def loopContext : Context where
  cpu := ⟨fun r => if r = .esp then 0x204000#32 else 7#32, fun _ => 0x10#16, fun _ => 0#8⟩
  eip := 0x101000#32
  cs := 0x10#16
  eflags := 0x202#32

/-- It is interrupted and goes on. -/
theorem saved_frame_loop :
    ∃ d, resumed neverSwitch (irq0 0x100123#32 0x100456#32) loopContext.interrupted = some d ∧
      Resumes d loopContext := by
  rcases (saved_frame neverSwitch_timer).1 loopContext 0x100123#32 0x100456#32 with
    ⟨e₀, -, returns⟩
  rcases returns _ rfl with ⟨e, esp, -, args, restores, switched⟩
  rw [switched _ rfl]
  apply restores
  · have eax : ((e.setReg .eax ((e.args 1).headD 0#32)).discard 1).reg .eax = esp := by
      rw [Cpu.discard, setReg_of_ne (by decide), setReg_self, args]
      rfl
    rw [setReg_self, eax]
  · rfl

end Learnix
