import Learnix.ScreenText

/-!
# The commands of the shell

The tests that `shell_run` makes of a line, with its own string functions. Each line is the text
of one command that can be written down (`Command.Proper`), and this is the command that the
tests find (`shell_command_iff`).
-/

namespace Learnix

open Machine

/-- `str_eq`; at the end of a string there is its NUL. -/
def strEq : List Byte → List Byte → Bool
  | a :: as, b :: bs => if a ≠ b then false else strEq as bs
  | as, bs => as.headD 0#8 == bs.headD 0#8

/-- `str_starts`. -/
def strStarts (s : List Byte) : List Byte → Bool
  | [] => true
  | c :: pre => if s.headD 0#8 ≠ c then false else strStarts s.tail pre

/-- `s + n`, where `n` is not behind the end of the string. -/
def CString.after (s : CString) (n : Nat) : CString :=
  ⟨s.chars.drop n, fun c member => s.noNul c (List.mem_of_mem_drop member)⟩

/-- What a line asks for. -/
inductive Command
  | nothing
  | ls
  | ps
  | cat (archivo : CString)
  | run (elf : CString)
  | sys
  | help
  | exit
  | unknown (cmd : CString)

/-- The tests of `shell_run`, in their order. -/
def shellCommand (cmd : CString) : Command :=
  if cmd.chars.headD 0#8 = 0#8 then .nothing
  else if strEq cmd.chars (literalText "ls").chars then .ls
  else if strEq cmd.chars (literalText "ps").chars then .ps
  else if strStarts cmd.chars (literalText "cat ").chars then .cat (cmd.after 4)
  else if strStarts cmd.chars (literalText "run ").chars then .run (cmd.after 4)
  else if strEq cmd.chars (literalText "sys").chars then .sys
  else if strEq cmd.chars (literalText "help").chars then .help
  else if strEq cmd.chars (literalText "exit").chars then .exit
  else .unknown cmd

namespace Command

/-- What is typed for a command. -/
def text : Command → List Byte
  | nothing => []
  | ls => (literalText "ls").chars
  | ps => (literalText "ps").chars
  | cat archivo => (literalText "cat ").chars ++ archivo.chars
  | run elf => (literalText "run ").chars ++ elf.chars
  | sys => (literalText "sys").chars
  | help => (literalText "help").chars
  | exit => (literalText "exit").chars
  | unknown cmd => cmd.chars

/-- The text of an unknown command is that of no other command. -/
def Proper : Command → Prop
  | unknown cmd => ∀ c, c.text = cmd.chars → ∃ cmd', c = unknown cmd'
  | _ => True

end Command

variable {s t cmd : CString} {a b pre : List Byte} {c : Command}

/-! ## The string functions -/

theorem strEq_iff (solid : ∀ c ∈ a, c ≠ 0#8) (solid' : ∀ c ∈ b, c ≠ 0#8) :
    strEq a b = true ↔ a = b := by
  induction a generalizing b with
  | nil =>
      cases b with
      | nil => exact iff_of_true rfl rfl
      | cons d bs =>
          have other : d ≠ 0#8 := solid' d List.mem_cons_self
          simp [strEq, other.symm]
  | cons c as ih =>
      have here : c ≠ 0#8 := solid c List.mem_cons_self
      cases b with
      | nil => simp [strEq, here]
      | cons d bs =>
          rw [strEq, List.cons.injEq]
          by_cases same : c = d
          · rw [if_neg (not_not.mpr same),
              ih (fun e member => solid e (List.mem_cons_of_mem c member))
                fun e member => solid' e (List.mem_cons_of_mem d member)]
            exact (and_iff_right same).symm
          · rw [if_pos same]
            exact iff_of_false Bool.false_ne_true fun both => same both.1

theorem strStarts_iff (solid : ∀ c ∈ pre, c ≠ 0#8) (s : List Byte) :
    strStarts s pre = true ↔ pre <+: s := by
  induction pre generalizing s with
  | nil => exact iff_of_true rfl List.nil_prefix
  | cons d pre ih =>
      have here : d ≠ 0#8 := solid d List.mem_cons_self
      have rest := fun s => ih (fun e member => solid e (List.mem_cons_of_mem d member)) s
      rw [strStarts]
      cases s with
      | nil => simp [here.symm]
      | cons c s =>
          rw [List.headD_cons, List.tail_cons, List.cons_prefix_cons]
          by_cases same : c = d
          · rw [if_neg (not_not.mpr same), rest]
            exact (and_iff_right same.symm).symm
          · rw [if_pos same]
            exact iff_of_false Bool.false_ne_true fun both => same both.1.symm

theorem strEq_literal (cmd : CString) (text : String) :
    strEq cmd.chars (literalText text).chars = true ↔ cmd.chars = (literalText text).chars :=
  strEq_iff cmd.noNul (literalText text).noNul

theorem strStarts_literal (cmd : CString) (text : String) :
    strStarts cmd.chars (literalText text).chars = true ↔ (literalText text).chars <+: cmd.chars :=
  strStarts_iff (literalText text).noNul cmd.chars

/-! ## The tests -/

theorem CString.eq_of_chars (same : s.chars = t.chars) : s = t := by
  cases s
  cases t
  cases same
  rfl

/-- A line that starts with four characters is these and the string behind them. -/
theorem chars_after (text : String) (four : (literalText text).chars.length = 4)
    (starts : strStarts cmd.chars (literalText text).chars = true) :
    (literalText text).chars ++ (cmd.after 4).chars = cmd.chars := by
  have split := List.prefix_iff_eq_append.mp ((strStarts_literal cmd text).mp starts)
  rw [four] at split
  exact split

/-- The command that is found has the text of the line, and is a proper one. -/
theorem shellCommand_sound (cmd : CString) :
    (shellCommand cmd).text = cmd.chars ∧ (shellCommand cmd).Proper := by
  unfold shellCommand
  split_ifs with empty ls ps cat run sys help exit
  · refine ⟨?_, trivial⟩
    cases shape : cmd.chars with
    | nil => rfl
    | cons d rest =>
        rw [shape, List.headD_cons] at empty
        exact absurd empty (cmd.noNul d (shape ▸ List.mem_cons_self))
  · exact ⟨((strEq_literal cmd "ls").mp ls).symm, trivial⟩
  · exact ⟨((strEq_literal cmd "ps").mp ps).symm, trivial⟩
  · exact ⟨chars_after "cat " rfl cat, trivial⟩
  · exact ⟨chars_after "run " rfl run, trivial⟩
  · exact ⟨((strEq_literal cmd "sys").mp sys).symm, trivial⟩
  · exact ⟨((strEq_literal cmd "help").mp help).symm, trivial⟩
  · exact ⟨((strEq_literal cmd "exit").mp exit).symm, trivial⟩
  · refine ⟨rfl, fun c text => ?_⟩
    cases c with
    | unknown cmd' => exact ⟨cmd', rfl⟩
    | nothing => exact absurd (text ▸ rfl) empty
    | ls => exact absurd ((strEq_literal cmd "ls").mpr text.symm) ls
    | ps => exact absurd ((strEq_literal cmd "ps").mpr text.symm) ps
    | cat archivo => exact absurd ((strStarts_literal cmd "cat ").mpr ⟨_, text⟩) cat
    | run elf => exact absurd ((strStarts_literal cmd "run ").mpr ⟨_, text⟩) run
    | sys => exact absurd ((strEq_literal cmd "sys").mpr text.symm) sys
    | help => exact absurd ((strEq_literal cmd "help").mpr text.symm) help
    | exit => exact absurd ((strEq_literal cmd "exit").mpr text.symm) exit

/-- The text of a proper command is that of no other. -/
theorem shellCommand_of_text (proper : c.Proper) (text : c.text = cmd.chars) :
    shellCommand cmd = c := by
  have literal {t : String} (same : (literalText t).chars = cmd.chars) : cmd = literalText t :=
    CString.eq_of_chars same.symm
  have joined {t : String} {a : CString} (same : (literalText t).chars ++ a.chars = cmd.chars) :
      cmd = ⟨(literalText t).chars ++ a.chars, same ▸ cmd.noNul⟩ := CString.eq_of_chars same.symm
  cases c with
  | nothing =>
      rw [CString.eq_of_chars (t := ⟨[], by simp⟩) text.symm]
      rfl
  | ls => rw [literal text]; rfl
  | ps => rw [literal text]; rfl
  | cat archivo => rw [joined text]; rfl
  | run elf => rw [joined text]; rfl
  | sys => rw [literal text]; rfl
  | help => rw [literal text]; rfl
  | exit => rw [literal text]; rfl
  | unknown cmd' =>
      rcases proper (shellCommand cmd) ((shellCommand_sound cmd).1.trans text.symm) with ⟨other, eq⟩
      have found := (shellCommand_sound cmd).1
      rw [eq] at found
      have chars : other.chars = cmd'.chars := found.trans text.symm
      rw [eq, CString.eq_of_chars chars]

/-- Of every line the shell finds the one proper command whose text it is. -/
theorem shell_command_iff (cmd : CString) (c : Command) :
    shellCommand cmd = c ↔ c.Proper ∧ c.text = cmd.chars := by
  constructor
  · rintro rfl
    exact (shellCommand_sound cmd).symm
  · intro ⟨proper, text⟩
    exact shellCommand_of_text proper text

end Learnix
