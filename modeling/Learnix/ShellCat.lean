import Learnix.ShellSession

/-!
# A file that is typed

From the prompt to the text of a file: `cat` and a name as `ls` shows it, in upper or lower case,
shows the bytes of the file (`cat_shows_file`), whatever the arrays of the shell held before.
-/

namespace Learnix

open Machine LineEditor

variable {m : Machinery} {e : Entry} {archivo : CString} {text rest line : List Byte}
  {limit : Nat}

/-- What is shown of a line that is typed without an erasure. -/
theorem echoOut_append_newline (plain : ∀ c ∈ text, c ≠ newline ∧ c ≠ backspace)
    (typed : ∀ c ∈ text, c ≠ 0#8) (room : line.length + text.length < limit) :
    echoOut limit line (text ++ newline :: rest) = textOut text ++ textOut enterText.chars := by
  induction text generalizing line with
  | nil =>
      rw [List.nil_append, echoOut, if_pos (by simpa using room), if_pos rfl]
      rfl
  | cons c text ih =>
      rw [List.length_cons] at room
      obtain ⟨goesOn, kept⟩ := plain c List.mem_cons_self
      have shown : (charString c).chars = [c] := by
        rw [charString, dif_neg (typed c List.mem_cons_self)]
      rw [List.cons_append, echoOut, if_pos (by omega), if_neg goesOn, if_neg kept, shown,
        ih (fun d member => plain d (List.mem_cons_of_mem c member))
          (fun d member => typed d (List.mem_cons_of_mem c member))
          (by rw [List.length_append, List.length_singleton]; omega)]
      rfl

/-- A valid name takes up twelve characters at most. -/
theorem length_listText_le (valid : ShortName e) : e.listText.length ≤ 12 := by
  rcases valid with ⟨name, ext, nameRun, extRun⟩
  have short := nameRun.fits
  have short' := extRun.fits
  rw [listText_eq nameRun extRun, nameText, List.length_append]
  split
  · exact Nat.le_trans short (by decide)
  · rw [List.length_cons]
    omega

theorem leavesRoom_of_opened {disk : Disk} {fs : Fat16} {name : Fin 11 → Byte}
    (opens : openedEntry disk fs name = some e) (few : e.fileSize.toNat < fileBufSize) :
    LeavesRoom disk fs name := by
  intro i d first
  unfold openedEntry at opens
  rcases scanRoot_root disk fs name with ⟨none_, -⟩ | ⟨i', e', found, first'⟩
  · exact absurd (none_.symm.trans opens) (Option.some_ne_none e).symm
  · cases found.symm.trans opens
    obtain ⟨-, rfl⟩ := first.unique first'
    exact .inl few

/-- The line `cat` and a name. -/
def catLine (archivo : CString) : List Byte := (Command.cat archivo).text

/-- What is shown from a prompt to the text of a file. -/
def catTranscript (archivo text : CString) : List Output :=
  sayOut vgaLightCyan "learnix> " ++ colorOut vgaWhite ++ textOut (catLine archivo) ++
    textOut enterText.chars ++ textOut [newline] ++ catOut (some text) archivo

/-- Let the first entry in use with its name have a valid short one, and stand for a file of 1 to
511 bytes whose sector can be read. Then `cat` and the text that the listing shows for the entry,
in any case, shows the bytes of the file up to its end or a NUL. -/
theorem cat_shows_file (m : Machinery) (valid : ShortName e)
    (opens : openedEntry m.disk m.fs e.fatName = some e) {sector : Sector}
    (read : m.disk (firstSector m.fs e.firstCluster) = some sector) (some_ : e.fileSize ≠ 0#32)
    (few : e.fileSize.toNat < fileBufSize) (archivo : CString)
    (spells : archivo.chars.map upperCase = e.listText)
    (plain : ∀ c ∈ archivo.chars, c ≠ newline ∧ c ≠ backspace) (s : Shell)
    (fresh : s.exited = false) (typed : ∀ c ∈ rest, c ≠ 0#8)
    (keys : s.keys = catLine archivo ++ newline :: rest) :
    ∃ s', shellRound m s = some s' ∧ s'.keys = rest ∧ s'.procs = s.procs ∧ s'.exited = false ∧
      SameScreen s'.screen (drawn (catTranscript archivo
        (upToNul ((List.ofFn sector).take e.fileSize.toNat))) s.screen) := by
  have solid : ∀ c ∈ catLine archivo, c ≠ 0#8 := by
    intro c member
    rcases List.mem_append.mp member with head | tail
    · exact (literalText "cat ").noNul c head
    · exact archivo.noNul c tail
  have plainLine : ∀ c ∈ catLine archivo, c ≠ newline ∧ c ≠ backspace := by
    intro c member
    rcases List.mem_append.mp member with head | tail
    · have letters : ∀ c ∈ (literalText "cat ").chars, c ≠ newline ∧ c ≠ backspace := by decide
      exact letters c head
    · exact plain c tail
  have short : (catLine archivo).length < 63 := by
    have le := length_listText_le valid
    rw [← spells, List.length_map] at le
    have four : (literalText "cat ").chars.length = 4 := by decide
    rw [catLine, Command.text, List.length_append]
    omega
  have room : ([] : List Byte).length + (catLine archivo).length < 63 := by
    rwa [List.length_nil, Nat.zero_add]
  have follows : Follows s ⟨s.keys, s.procs, s.screen, false⟩ := by
    refine ⟨rfl, rfl, fresh, sameScreen_refl _, fun c member => ?_⟩
    rw [keys] at member
    rcases List.mem_append.mp member with inLine | later
    · exact solid c inLine
    · rcases List.mem_cons.mp later with rfl | behind
      · decide
      · exact typed c behind
  have name : eightThree archivo = e.fatName :=
    (nameBytes_toFatName archivo s.fatname).symm.trans (nameBytes_of_spells valid spells s.fatname)
  have command : shellCommand (upToNul (catLine archivo)) = .cat archivo :=
    shellCommand_of_text trivial (chars_upToNul solid).symm
  have edited : LineEditor.run newline backspace 63 [] s.keys = some (catLine archivo, rest) := by
    rw [keys]
    exact run_append_newline plainLine room
  have text : fileText m.disk m.fs (eightThree archivo) =
      some (upToNul ((List.ofFn sector).take e.fileSize.toNat)) := by
    rw [fileText, name, opens, Option.bind_some, read, Option.bind_some, if_neg some_]
  have round := follows.round (m := m) fun line rest' archivo' _ edited' command' => by
    cases edited.symm.trans edited'
    cases command.symm.trans command'
    rw [name]
    exact leavesRoom_of_opened opens few
  have meaning : Session.round m ⟨s.keys, s.procs, s.screen, false⟩ = some (Session.put
      (catTranscript archivo (upToNul ((List.ofFn sector).take e.fileSize.toNat)))
      ⟨rest, s.procs, s.screen, false⟩) := by
    have echoed : echoOut 63 [] s.keys =
        textOut (catLine archivo) ++ textOut enterText.chars := by
      rw [keys]
      exact echoOut_append_newline plainLine solid room
    rw [Session.round, if_neg Bool.false_ne_true]
    simp only [edited, Option.bind_some, command, Session.execute, text, Session.put_put, echoed,
      catTranscript, List.append_assoc]
  rw [meaning] at round
  cases ran : shellRound m s with
  | none =>
      rw [ran] at round
      cases round
  | some s' =>
      rw [ran] at round
      cases round with
      | some after =>
          have screen := after.screen
          rw [Session.put_screen] at screen
          exact ⟨s', rfl, after.keys, after.procs, after.exited, screen⟩

/-- The entry of `HOLA.TXT`. -/
def holaTextEntry : Entry := entryAt (holaText 65#32) 0

theorem holaTextEntry_valid : ShortName holaTextEntry := by
  refine ⟨[0x48#8, 0x4F#8, 0x4C#8, 0x41#8], [0x54#8, 0x58#8, 0x54#8], ?_, ?_⟩
  · exact ⟨by decide, by unfold NameChar; decide, by decide +kernel⟩
  · exact ⟨by decide, by unfold NameChar; decide, by decide +kernel⟩

/-- `cat hola.txt` shows the four letters. -/
theorem cat_shows_file_hola :
    ∃ s', shellRound holaMachinery (shellTyping (typedAs "cat hola.txt\n")) = some s' ∧
      s'.keys = [] ∧ SameScreen s'.screen (drawn (catTranscript holaTyped
        (upToNul ((List.ofFn (holaText 97#32)).take holaTextEntry.fileSize.toNat)))
          (vgaStart fun _ => 0#16)) := by
  rcases cat_shows_file holaMachinery holaTextEntry_valid (by decide +kernel) rfl
    (by decide +kernel) (by decide +kernel) holaTyped (by decide +kernel) (by decide +kernel)
    (shellTyping (typedAs "cat hola.txt\n")) rfl (by decide : ∀ c ∈ ([] : List Byte), c ≠ 0#8)
    (by decide +kernel) with ⟨s', round, keys, -, -, screen⟩
  exact ⟨s', round, keys, screen⟩

end Learnix
