import Learnix.ContextSwitch
import Learnix.Lib.ForLoop

/-!
# The handlers of the exceptions

`idt_init`, `isr_init` and `kernel_main` fill the table of interrupts one after the other.
An exception for which the CPU pushes an error code is returned from only by a handler that
drops it. The last of the three puts the handlers of the timer and of the keyboard, which do
not, at two such vectors; the frames of all others are balanced (`frame_balanced_iff`).
-/

namespace Learnix

open Machine Memory X86 ForLoop

/-! ## The table -/

/-- `idt_entry_t`. -/
structure IdtEntry where
  baseLow : BitVec 16
  selector : BitVec 16
  zero : Byte
  flags : Byte
  baseHigh : BitVec 16
deriving DecidableEq

abbrev Idt := Byte → IdtEntry

/-- The handlers of `isr.asm`. -/
inductive Handler
  | isr0
  | isr1
  | isr2
  | isr3
  | isr4
  | isr5
  | isr6
  | isr7
  | isr8
  | isr13
  | isr14
  | irq0
  | irq1
  | int80Handler
deriving DecidableEq

def idtSetGate (num : Byte) (base : Word) (selector : BitVec 16) (flags : Byte) (idt : Idt) :
    Idt :=
  Function.update idt num
    ⟨(base &&& 0xFFFF#32).setWidth 16, selector, 0#8, flags,
      ((base >>> 16) &&& 0xFFFF#32).setWidth 16⟩

/-- `idt_init`, where the labels of the handlers have these addresses. -/
def idtInit (address : Handler → Word) (idt : Idt) : Idt :=
  let idt := (List.range 256).foldl
    (fun idt i => idtSetGate (BitVec.ofNat 8 i) 0#32 0#16 0#8 idt) idt
  let idt := idtSetGate 32#8 (address .irq0) 0x08#16 0x8E#8 idt
  idtSetGate 33#8 (address .irq1) 0x08#16 0x8E#8 idt

def isrInit (address : Handler → Word) (idt : Idt) : Idt :=
  let idt := idtSetGate 0#8 (address .isr0) 0x10#16 0x8E#8 idt
  let idt := idtSetGate 1#8 (address .isr1) 0x10#16 0x8E#8 idt
  let idt := idtSetGate 2#8 (address .isr2) 0x10#16 0x8E#8 idt
  let idt := idtSetGate 3#8 (address .isr3) 0x10#16 0x8E#8 idt
  let idt := idtSetGate 4#8 (address .isr4) 0x10#16 0x8E#8 idt
  let idt := idtSetGate 5#8 (address .isr5) 0x10#16 0x8E#8 idt
  let idt := idtSetGate 6#8 (address .isr6) 0x10#16 0x8E#8 idt
  let idt := idtSetGate 7#8 (address .isr7) 0x10#16 0x8E#8 idt
  let idt := idtSetGate 8#8 (address .isr8) 0x10#16 0x8E#8 idt
  let idt := idtSetGate 13#8 (address .isr13) 0x10#16 0x8E#8 idt
  let idt := idtSetGate 14#8 (address .isr14) 0x10#16 0x8E#8 idt
  let idt := idtSetGate 32#8 (address .irq0) 0x10#16 0x8E#8 idt
  idtSetGate 0x21#8 (address .irq1) 0x10#16 0x8E#8 idt

/-- The calls of `kernel_main`. -/
def kernelMainGates (address : Handler → Word) (idt : Idt) : Idt :=
  let idt := idtSetGate 0x08#8 (address .irq0) 0x10#16 0x8E#8 idt
  let idt := idtSetGate 0x0E#8 (address .irq1) 0x10#16 0x8E#8 idt
  idtSetGate 0x80#8 (address .int80Handler) 0x10#16 0xEE#8 idt

/-- The table after the three of them. -/
def finalIdt (address : Handler → Word) (idt : Idt) : Idt :=
  kernelMainGates address (isrInit address (idtInit address idt))

namespace IdtEntry

/-- The address of the handler, as the CPU puts it together. -/
def base (g : IdtEntry) : Word := g.baseHigh ++ g.baseLow

/-- The gate is present. -/
def Present (g : IdtEntry) : Prop := g.flags &&& 0x80#8 ≠ 0#8

instance (g : IdtEntry) : Decidable g.Present := inferInstanceAs (Decidable (_ ≠ _))

end IdtEntry

/-! ## The handlers -/

/-- `irq1` up to its `iret`. -/
def irq1 (back : Word) : List (Code Callee) :=
  [.pushad, .plain (.call .keyboardHandler back), .mov8 .eax 0x20#8, .out 0x20#8 .eax, .popad]

/-- The code of a handler up to its `iret`; what it calls returns to `back` and `back'`. -/
def Handler.code (back back' : Word) : Handler → List (Code Callee)
  | isr0 | isr1 | isr2 | isr3 | isr4 | isr5 | isr6 | isr7 => []
  | isr8 | isr13 | isr14 => [.plain (.discard 1)]
  | irq0 => Learnix.irq0 back back'
  | irq1 => Learnix.irq1 back
  | int80Handler => (Learnix.int80Handler back).map .plain

/-- The exception is raised in the state `c`, and the handler at its gate comes to its
`iret` with ESP at the pushed EIP, so that the program goes on where it was. -/
def Balanced (callee : Callee → Cpu → Option Cpu) (address : Handler → Word) (idt : Idt)
    (vector : Byte) (error back back' : Word) (c : Context) : Prop :=
  ∃ h s, address h = (idt vector).base ∧
    (run callee (h.code back back') (c.raised vector error)).2 = some s ∧
    s.reg .esp = c.interrupted.reg .esp ∧ Resumes (iret s) c

/-- What is known of the functions that are called, as long as no context switch happens:
they follow the calling convention, and `scheduler_tick` returns its argument. -/
structure NoSwitch (callee : Callee → Cpu → Option Cpu) : Prop where
  timer : TimerConvention callee
  keyboard : ∀ e r, callee .keyboardHandler e = some r → Cdecl 0 11 e r
  tick : ∀ e r, callee .schedulerTick e = some r → [r.reg .eax] = e.args 1

variable {callee : Callee → Cpu → Option Cpu} {address : Handler → Word} {idt : Idt}
  {vector : Byte} {error back back' : Word} {c : Context} {s t : Cpu}

/-! ## What is installed -/

/-- A call of `idt_set_gate`. -/
structure Installation where
  num : Byte
  handler : Handler
  selector : BitVec 16
  flags : Byte

namespace Installation

def entry (address : Handler → Word) (g : Installation) : IdtEntry :=
  ⟨(address g.handler &&& 0xFFFF#32).setWidth 16, g.selector, 0#8, g.flags,
    ((address g.handler >>> 16) &&& 0xFFFF#32).setWidth 16⟩

def install (address : Handler → Word) (idt : Idt) (g : Installation) : Idt :=
  idtSetGate g.num (address g.handler) g.selector g.flags idt

end Installation

/-- The calls after the table has been cleared, in order. -/
def installations : List Installation :=
  [⟨32#8, .irq0, 0x08#16, 0x8E#8⟩, ⟨33#8, .irq1, 0x08#16, 0x8E#8⟩,
    ⟨0#8, .isr0, 0x10#16, 0x8E#8⟩, ⟨1#8, .isr1, 0x10#16, 0x8E#8⟩, ⟨2#8, .isr2, 0x10#16, 0x8E#8⟩,
    ⟨3#8, .isr3, 0x10#16, 0x8E#8⟩, ⟨4#8, .isr4, 0x10#16, 0x8E#8⟩, ⟨5#8, .isr5, 0x10#16, 0x8E#8⟩,
    ⟨6#8, .isr6, 0x10#16, 0x8E#8⟩, ⟨7#8, .isr7, 0x10#16, 0x8E#8⟩, ⟨8#8, .isr8, 0x10#16, 0x8E#8⟩,
    ⟨13#8, .isr13, 0x10#16, 0x8E#8⟩, ⟨14#8, .isr14, 0x10#16, 0x8E#8⟩,
    ⟨32#8, .irq0, 0x10#16, 0x8E#8⟩, ⟨0x21#8, .irq1, 0x10#16, 0x8E#8⟩,
    ⟨0x08#8, .irq0, 0x10#16, 0x8E#8⟩, ⟨0x0E#8, .irq1, 0x10#16, 0x8E#8⟩,
    ⟨0x80#8, .int80Handler, 0x10#16, 0xEE#8⟩]

/-- The last call for a vector. -/
def lastInstallation (vector : Byte) : Option Installation :=
  installations.reverse.find? fun g => g.num = vector

/-- The first part of `idt_init`. -/
def clearedIdt (idt : Idt) : Idt :=
  (List.range 256).foldl (fun idt i => idtSetGate (BitVec.ofNat 8 i) 0#32 0#16 0#8 idt) idt

theorem clearedIdt_apply (idt : Idt) (vector : Byte) :
    clearedIdt idt vector = ⟨0#16, 0#16, 0#8, 0#8, 0#16⟩ := by
  have cleared : ∀ v : Byte, v.toNat < 256 → clearedIdt idt v = ⟨0#16, 0#16, 0#8, 0#8, 0#16⟩ := by
    refine foldl_range (P := fun k (idt : Idt) => ∀ v : Byte, v.toNat < k →
      idt v = ⟨0#16, 0#16, 0#8, 0#8, 0#16⟩) ?_ ?_
    · exact fun v below => absurd below (Nat.not_lt_zero _)
    · intro k idt small cleared v below
      unfold idtSetGate
      by_cases here : v = BitVec.ofNat 8 k
      · rw [here, Function.update_self]
        rfl
      · rw [Function.update_of_ne here]
        apply cleared
        have other : v.toNat ≠ k := fun same => here (BitVec.eq_of_toNat_eq (by
          rw [same, BitVec.toNat_ofNat, Nat.mod_eq_of_lt small]))
        omega
  exact cleared vector vector.isLt

/-- The last call for a vector decides what the CPU finds there. -/
theorem foldl_install (address : Handler → Word) (gs : List Installation) (idt : Idt)
    (vector : Byte) : gs.foldl (Installation.install address) idt vector =
      ((gs.reverse.find? fun g => g.num = vector).map (Installation.entry address)).getD
        (idt vector) := by
  induction gs using List.reverseRecOn with
  | nil => rfl
  | append_singleton gs g ih =>
      rw [List.foldl_append, List.foldl_cons, List.foldl_nil, List.reverse_concat, List.find?_cons,
        Installation.install, idtSetGate]
      by_cases here : vector = g.num
      · rw [here, Function.update_self, decide_eq_true rfl]
        rfl
      · rw [Function.update_of_ne here, ih, decide_eq_false (Ne.symm here)]

theorem finalIdt_apply (address : Handler → Word) (idt : Idt) (vector : Byte) :
    finalIdt address idt vector = ((lastInstallation vector).map
      (Installation.entry address)).getD ⟨0#16, 0#16, 0#8, 0#8, 0#16⟩ := by
  have calls : finalIdt address idt =
      installations.foldl (Installation.install address) (clearedIdt idt) := rfl
  rw [calls, foldl_install, clearedIdt_apply, lastInstallation]

/-- The CPU puts the halves of the address together. -/
theorem base_entry (address : Handler → Word) (g : Installation) :
    (g.entry address).base = address g.handler := by
  unfold Installation.entry IdtEntry.base
  have mask : ∀ i, (0xFFFF#32).getLsbD i = decide (i < 16) := by
    intro i
    have ones : 0xFFFF#32 = (BitVec.allOnes 16).setWidth 32 := rfl
    rw [ones, BitVec.getLsbD_setWidth, BitVec.getLsbD_allOnes]
    grind
  ext i below
  simp only [BitVec.getElem_append, BitVec.getElem_setWidth, BitVec.getLsbD_and,
    BitVec.getLsbD_ushiftRight, mask]
  grind

/-- How many words a handler drops that does nothing else. -/
def Handler.dropped : Handler → Option Nat
  | isr0 | isr1 | isr2 | isr3 | isr4 | isr5 | isr6 | isr7 => some 0
  | isr8 | isr13 | isr14 => some 1
  | _ => none

/-- What is installed for the exceptions: handlers that drop what the CPU pushes, but at the
vectors 8 and 14 those of the timer and of the keyboard. -/
theorem lastInstallation_exception {g : Installation} (exception : vector.toNat < 32)
    (last : lastInstallation vector = some g) :
    g.flags &&& 0x80#8 ≠ 0#8 ∧ (g.handler = .irq0 ∧ vector = 8#8 ∨
      g.handler = .irq1 ∧ vector = 14#8 ∨
      (vector ≠ 8#8 ∧ vector ≠ 14#8) ∧
        g.handler.dropped = some (if hasErrorCode vector then 1 else 0)) := by
  have all : ∀ v : Byte, v.toNat < 32 → (lastInstallation v).all (fun g =>
      g.flags &&& 0x80#8 ≠ 0#8 ∧ (g.handler = .irq0 ∧ v = 8#8 ∨ g.handler = .irq1 ∧ v = 14#8 ∨
        (v ≠ 8#8 ∧ v ≠ 14#8) ∧ g.handler.dropped = some (if hasErrorCode v then 1 else 0))) =
      true := by
    decide +kernel
  have one := all vector exception
  rw [last] at one
  exact of_decide_eq_true one

/-! ## Handlers that do not drop the error code -/

/-- The top of the stack of a state that is known from its view. -/
theorem esp_of_shows {v : View} (shown : Shows s v) :
    s.reg .esp = v.base - BitVec.ofNat 32 (4 * v.stack.length) :=
  (shown.reg .esp).trans (if_pos rfl)

theorem pushad_esp (s : Cpu) : s.pushad.reg .esp = s.reg .esp - 32#32 := by
  have room : 4 * (0 + 8) ≤ 2 ^ 32 := by decide
  have shown := esp_of_shows ((shows_view s 0).pushad room)
  have base : (s.view 0).pushad.base = s.reg .esp := BitVec.add_zero _
  rw [shown, base]
  rfl

/-- `irq1` leaves ESP as it was. -/
theorem irq1_esp (quiet : NoSwitch callee) (ends : (run callee (irq1 back) s).2 = some t) :
    t.reg .esp = s.reg .esp := by
  have start : run callee (irq1 back) s = run callee (.plain (.call .keyboardHandler back) ::
    [.mov8 .eax 0x20#8, .out 0x20#8 .eax, .popad]) s.pushad := rfl
  rw [start, run_call] at ends
  split at ends
  · cases ends
  · next r returned =>
    have esp := (quiet.keyboard _ r returned).esp
    rw [push_esp, pushad_esp] at esp
    cases ends
    have popped_ : ∀ w, ((r.setReg .eax w).popad).reg .esp = r.reg .esp + 32#32 :=
      fun w => congrArg (· + 32#32) (setReg_of_ne (by decide))
    rw [popped_, esp]
    bv_omega

/-- The last part of `irq0` takes twelve words off. -/
theorem irq0Restore_esp (ends : (run callee irq0Restore s).2 = some t) :
    t.reg .esp = s.reg .esp + 48#32 := by
  have room : 4 * (12 + 8 * 5) ≤ 2 ^ 32 := by decide
  rcases viewRun_sound callee irq0Restore [] (shows_view s 12) room rfl with ⟨u, shown, steps⟩
  rw [List.append_nil] at steps
  rw [steps] at ends
  cases ends
  exact (esp_of_shows shown).trans (BitVec.sub_zero _)

/-- `irq0` leaves ESP as it was, for it gets it back from `scheduler_tick`. -/
theorem irq0_esp (quiet : NoSwitch callee) (ends : (run callee (irq0 back back') s).2 = some t) :
    t.reg .esp = s.reg .esp := by
  have room : 4 * (3 + 8 * 8) ≤ 2 ^ 32 := by decide
  rcases viewRun_sound callee irq0Save (.plain (.call .timerHandler back) :: (irq0Acknowledge ++
    (.plain (.call .schedulerTick back') :: .plain (.discard 1) :: .movReg .esp .eax ::
      irq0Restore))) (shows_view s 3) room rfl with ⟨u, shown, saved⟩
  have low : u.reg .esp = s.reg .esp + 12#32 - 60#32 := esp_of_shows shown
  have whole : run callee (irq0 back back') s = _ := saved
  rw [run_call] at whole
  rw [whole] at ends
  split at ends
  · cases ends
  · next r returned =>
    have kept := (quiet.timer _ r returned).esp
    rw [push_esp, BitVec.sub_add_cancel] at kept
    have room' : 4 * (0 + 8 * 3) ≤ 2 ^ 32 := by decide
    rcases viewRun_sound callee irq0Acknowledge (.plain (.call .schedulerTick back') ::
      .plain (.discard 1) :: .movReg .esp .eax :: irq0Restore) (shows_view r 0) room' rfl with
      ⟨q, asked, steps⟩
    rw [steps, run_call] at ends
    split at ends
    · cases ends
    · next r' returned' =>
      have room'' : 4 * 1 + 4 ≤ 2 ^ 32 := by decide
      have argument : (q.push back').args 1 = [r.reg .esp] := by
        have pushed : (r.view 0).get .esp = r.reg .esp := ((shows_view r 0).reg .esp).symm
        rw [← pushed]
        exact (asked.push room'' back').args [_] rfl
      have eax := (quiet.tick _ r' returned').trans argument
      simp only [run_irq0Restore] at ends
      have up := irq0Restore_esp ends
      rw [setReg_self, (List.cons.inj eax).1, kept, low] at up
      rw [up]
      bv_omega

/-! ## The frames of the exceptions -/

theorem Handler.code_eq {h : Handler} {n : Nat} (drops : h.dropped = some n) :
    h.code back back' = List.replicate n (.plain (.discard 1)) := by
  cases h <;> cases drops <;> rfl

/-- A handler that drops what the CPU pushes, and does nothing else, comes to the frame of
the program. -/
theorem dropped_resumes {h : Handler}
    (drops : h.dropped = some (if hasErrorCode vector then 1 else 0)) (error : Word)
    (c : Context) :
    ∃ s, (run callee (h.code back back') (c.raised vector error)).2 = some s ∧ Shows s c.view := by
  rw [Handler.code_eq drops, Context.raised]
  split
  · have room : 4 * 3 + 4 ≤ 2 ^ 32 := by decide
    have shown := ((shows_interrupted c).push room error).discard (n := 1) (Nat.le_add_left 1 3)
    exact ⟨_, rfl, shown⟩
  · exact ⟨_, rfl, shows_interrupted c⟩

theorem raised_esp (pushed : hasErrorCode vector = true) (error : Word) (c : Context) :
    (c.raised vector error).reg .esp = c.interrupted.reg .esp - 4#32 := by
  rw [Context.raised, if_pos pushed, push_esp]

/-- A handler that leaves ESP as it was does not come to the frame under an error code. -/
theorem not_balanced {h : Handler} (labels : Function.Injective address)
    (installed : (idt vector).base = address h) (pushed : hasErrorCode vector = true)
    (esp : ∀ s t, (run callee (h.code back back') s).2 = some t → t.reg .esp = s.reg .esp) :
    ¬ Balanced callee address idt vector error back back' c := by
  rintro ⟨h', t, at_, ends, top, -⟩
  obtain rfl : h' = h := labels (at_.trans installed)
  have kept := esp _ t ends
  rw [raised_esp pushed, top] at kept
  bv_omega

/-- The final table: what is at the vector of an exception. -/
theorem present_exception (exception : vector.toNat < 32)
    (present : (finalIdt address idt vector).Present) :
    ∃ h, (finalIdt address idt vector).base = address h ∧
      (h = .irq0 ∧ vector = 8#8 ∨ h = .irq1 ∧ vector = 14#8 ∨
        (vector ≠ 8#8 ∧ vector ≠ 14#8) ∧
          h.dropped = some (if hasErrorCode vector then 1 else 0)) := by
  rw [finalIdt_apply] at present ⊢
  cases last : lastInstallation vector with
  | none =>
      rw [last, Option.map_none, Option.getD_none] at present
      exact absurd present (by decide)
  | some g => exact ⟨g.handler, base_entry address g, (lastInstallation_exception exception last).2⟩

/-- For every exception with a gate in the final table, in every state: as long as no
context switch happens, the handler comes to its `iret` with the frame of the program on
top of the stack exactly if the vector is not one of those at which `kernel_main` has
installed the handlers of the timer and of the keyboard. -/
theorem frame_balanced_iff (labels : Function.Injective address) (quiet : NoSwitch callee)
    (idt : Idt) (vector : Byte) (exception : vector.toNat < 32)
    (present : (finalIdt address idt vector).Present) (error back back' : Word) (c : Context) :
    Balanced callee address (finalIdt address idt) vector error back back' c ↔
      vector ≠ 8#8 ∧ vector ≠ 14#8 := by
  rcases present_exception exception present with
    ⟨h, base, ⟨rfl, rfl⟩ | ⟨rfl, rfl⟩ | ⟨other, drops⟩⟩
  · refine iff_of_false ?_ fun both => both.1 rfl
    exact not_balanced labels base rfl fun s t ends => irq0_esp quiet ends
  · refine iff_of_false ?_ fun both => both.2 rfl
    exact not_balanced labels base rfl fun s t ends => irq1_esp quiet ends
  · refine iff_of_true ?_ other
    have resumes : ∃ s, (run callee (h.code back back') (c.raised vector error)).2 = some s ∧
        Shows s c.view := dropped_resumes drops error c
    rcases resumes with ⟨s, ends, shown⟩
    have top : s.reg .esp = c.interrupted.reg .esp :=
      (esp_of_shows shown).trans (esp_of_shows (shows_interrupted c)).symm
    exact ⟨h, s, base.symm, ends, top, shown.iret⟩

theorem neverSwitch_quiet : NoSwitch neverSwitch := by
  refine ⟨neverSwitch_timer, fun e r returned => ?_, fun e r returned => ?_⟩
  · cases returned
    refine ⟨setReg_self, fun q saved => setReg_of_ne ?_, rfl, rfl⟩
    rintro rfl
    exact absurd saved (by simp [CalleeSaved])
  · cases returned
    rw [Cpu.discard, setReg_of_ne (by decide), setReg_self]
    rfl

/-- Labels with room for 16 bytes of code each. -/
def spacedLabels (h : Handler) : Word := BitVec.ofNat 32 (0x100000 + 16 * h.ctorIdx)

theorem spacedLabels_injective : Function.Injective spacedLabels := by
  intro h h' same
  cases h <;> cases h' <;> first | rfl | exact absurd same (by decide)

/-- A general protection fault in the loop. -/
theorem frame_balanced_protection :
    Balanced neverSwitch spacedLabels (finalIdt spacedLabels fun _ => ⟨0#16, 0#16, 0#8, 0#8, 0#16⟩)
      13#8 0x18#32 0x100123#32 0x100456#32 loopContext :=
  (frame_balanced_iff spacedLabels_injective neverSwitch_quiet _ 13#8 (by decide)
    (by rw [finalIdt_apply]; decide) _ _ _ _).mpr ⟨by decide, by decide⟩

/-- A double fault enters `irq0`, whose `iret` takes the error code for EIP. -/
theorem double_fault_unbalanced :
    (finalIdt spacedLabels (fun _ => ⟨0#16, 0#16, 0#8, 0#8, 0#16⟩) 8#8).Present ∧
      ¬ Balanced neverSwitch spacedLabels
        (finalIdt spacedLabels fun _ => ⟨0#16, 0#16, 0#8, 0#8, 0#16⟩) 8#8 0#32 0x100123#32
        0x100456#32 loopContext := by
  have base : (finalIdt spacedLabels (fun _ => ⟨0#16, 0#16, 0#8, 0#8, 0#16⟩) 8#8).base =
      spacedLabels .irq0 := by
    rw [finalIdt_apply]
    decide
  refine ⟨by rw [finalIdt_apply]; decide, ?_⟩
  exact not_balanced spacedLabels_injective base rfl fun s t ends =>
    irq0_esp neverSwitch_quiet ends

end Learnix
