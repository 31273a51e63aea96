import Learnix.LineReader
import Learnix.ScreenText
import Learnix.VgaTerminal

/-!
# The echo of a line

`leer_linea` keeps the line in its buffer, and the screen shows what `esperar_tecla_char`
prints of each character and the erase text of each backspace. `vga_putchar` has no case for
a backspace, so that the erase text moves the cursor on: the row shows the line as long as
nothing has been erased (`echo_iff`).
-/

namespace Learnix

open Machine LineEditor

/-- One round of the loop of `leer_linea`, with a character that does not end the line. -/
def keyRound (l : Line) (c : Byte) : Line :=
  let l := { l with screen := echo c l.screen }
  if c = backspace then
    if (0#32).slt l.i then { l with i := l.i - 1#32, screen := vgaPrint eraseText l.screen } else l
  else { l.store l.i.toInt c with i := l.i + 1#32 }

/-- The reader after these characters. -/
def afterKeys (keys : List Byte) (l : Line) : Line := keys.foldl keyRound l

/-- The loop of `leer_linea`. -/
def leerLoop (max : Word) (keys : List Byte) (l : Line) : Option (Line × List Byte) :=
  readLoop (fun i => i.slt (max - 1#32)) (fun i => (0#32).slt i) BitVec.toInt keys l

/-- What `leer_linea` does after its loop. -/
def endLine (r : Line × List Byte) : Line × List Byte :=
  ({ r.1.store r.1.i.toInt 0#8 with screen := vgaPrint (charString newline) r.1.screen }, r.2)

/-- Row `r` of the screen shows this text, and blanks after it. -/
def RowShows (s : Vga) (r : Int) (text : List Byte) : Prop :=
  ∀ k : Nat, k < 80 → cellChar (s.cells (r * 80 + k)) = text.getD k 0x20#8

/-- The row shows this text, and the cursor is behind it. -/
structure EndsRow (s : Vga) (r : Int) (text : List Byte) : Prop where
  row : RowShows s r text
  cursorX : s.cursorX = text.length
  cursorY : s.cursorY = r

/-- `buf[0..i)`. -/
def Line.contents (l : Line) : List Byte := (List.range l.i.toNat).map fun (k : Nat) => l.buf k

/-- The row shows the prompt and what the buffer holds, and the cursor is behind it. -/
def EchoShown (prompt : List Byte) (r : Int) (l : Line) : Prop :=
  EndsRow l.screen r (prompt ++ l.contents)

variable {s s' screen : Vga} {r : Int} {text more prompt keys q line : List Byte} {c : Byte}
  {l : Line} {max : Word} {buf : Int → Byte}

/-! ## Rows -/

theorem RowPrinted.endsRow (ends : EndsRow s r text) (printed : RowPrinted s more s') :
    EndsRow s' r (text ++ more) := by
  rcases ends with ⟨row, x, y⟩
  refine ⟨fun k below => ?_, ?_, printed.cursorY.trans y⟩
  · rw [printed.cells, x, y]
    rcases Nat.lt_or_ge k text.length with old | new
    · rw [if_neg (by omega), row k below, List.getD_append _ _ _ _ old]
    · rw [List.getD_append_right _ _ _ _ new]
      by_cases inside : k < text.length + more.length
      · have index : ((r : Int) * 80 + k - (r * 80 + text.length)).toNat = k - text.length := by
          omega
        have here : k - text.length < more.length := by omega
        rw [if_pos (by omega), textCell, index, cellChar_vgaEntry,
          List.getD_eq_getElem _ _ here, List.getD_eq_getElem _ _ here]
      · rw [if_neg (by omega), row k below, List.getD_eq_default _ _ new,
          List.getD_eq_default _ _ (by omega)]
  · rw [printed.cursorX, x, List.length_append]
    omega

/-- A text that is printed in an empty row. -/
theorem endsRow_putChars (plain : ∀ c ∈ more, Plain c) (ends : EndsRow s r text)
    (room : text.length + more.length < 80) (onScreen : r < 50) :
    EndsRow (putChars more s) r (text ++ more) := by
  have x := ends.cursorX
  have y := ends.cursorY
  exact (putChars_row plain (by omega) (by omega)).endsRow ends

/-! ## The reader -/

/-- What the loop does with the characters, if it goes on before each of them. -/
theorem leerLoop_append (keys rest : List Byte) (l : Line) (oneLine : newline ∉ keys)
    (goOn : ∀ q c, q ++ [c] <+: keys → (afterKeys q l).i.slt (max - 1#32) = true) :
    leerLoop max (keys ++ rest) l = leerLoop max rest (afterKeys keys l) := by
  induction keys generalizing l with
  | nil => rfl
  | cons c keys ih =>
      have here : l.i.slt (max - 1#32) = true := goOn [] c (by simp)
      have other : c ≠ newline := fun end_ => oneLine (end_ ▸ List.mem_cons_self)
      have next : leerLoop max (c :: (keys ++ rest)) l =
          leerLoop max (keys ++ rest) (keyRound l c) := by
        rw [leerLoop, readLoop, if_pos here]
        simp only [if_neg other]
        rw [keyRound]
        by_cases erase : c = backspace
        · simp only [if_pos erase]
          rfl
        · simp only [if_neg erase]
          rfl
      refine next.trans (ih (keyRound l c) (fun later => oneLine (List.mem_cons_of_mem c later)) ?_)
      intro q d part
      exact goOn (c :: q) d (List.cons_prefix_cons.mpr ⟨rfl, part⟩)

theorem afterKeys_concat (q : List Byte) (c : Byte) (l : Line) :
    afterKeys (q ++ [c]) l = keyRound (afterKeys q l) c :=
  List.foldl_append

/-- The reader holds the line that the keys leave, whatever the screen shows. -/
theorem holdsLine_keyRound (holds : HoldsLine max l line) (small : max.toNat < 2 ^ 31)
    (room : line.length < max.toNat - 1) (c : Byte) :
    HoldsLine max (keyRound l c) (edit backspace line c) := by
  have count := holds.count
  have index : l.i.toInt = l.i.toNat := BitVec.toInt_eq_toNat_of_lt (by omega)
  have some_ : (0#32).slt l.i = (0#32).ult l.i := slt_eq_ult (by decide) (by omega)
  rw [keyRound, edit]
  simp only
  split
  · rw [some_]
    exact holds.erase _ _
  · rw [index]
    exact holds.append room c _

theorem HoldsLine.contents (holds : HoldsLine max l line) : l.contents = line := by
  rw [Line.contents, holds.count]
  refine List.ext_getElem (by simp) fun k _ below => ?_
  rw [List.getElem_map, List.getElem_range, holds.chars k below]

/-- The keys are read, as long as the line has room, and the row has room for what the line is
after each of them. -/
structure TypedInRow (max : Word) (prompt keys : List Byte) : Prop where
  printable : ∀ c ∈ keys, Printable c ∨ c = backspace
  reads : ∀ q c, q ++ [c] <+: keys → (lineOf backspace q).length < max.toNat - 1
  fits : ∀ q, q <+: keys → prompt.length + (lineOf backspace q).length < 80

/-- The reader before the first key. -/
def Line.start (buf : Int → Byte) (screen : Vga) : Line := ⟨0#32, buf, [], screen⟩

theorem holdsLine_afterKeys (typed : TypedInRow max prompt keys) (small : max.toNat < 2 ^ 31)
    (part : q <+: keys) (buf : Int → Byte) (screen : Vga) :
    HoldsLine max (afterKeys q (.start buf screen)) (lineOf backspace q) := by
  induction q using List.reverseRecOn with
  | nil =>
      exact ⟨rfl, fun k below => absurd below (Nat.not_lt_zero k), by simp [afterKeys, Line.start]⟩
  | append_singleton q c ih =>
      have before := ih ((List.prefix_append q [c]).trans part)
      rw [afterKeys_concat, lineOf_concat]
      exact holdsLine_keyRound before small (typed.reads q c part) c

/-- The loop is in this state after the keys. -/
theorem leerLoop_afterKeys (typed : TypedInRow max prompt keys) (nonzero : 1 ≤ max.toNat)
    (small : max.toNat < 2 ^ 31) (part : q <+: keys) (rest : List Byte) (buf : Int → Byte)
    (screen : Vga) :
    leerLoop max (q ++ rest) (.start buf screen) =
      leerLoop max rest (afterKeys q (.start buf screen)) := by
  apply leerLoop_append
  · intro member
    rcases typed.printable newline (part.subset member) with printable | same
    · exact absurd printable (by decide)
    · exact absurd same (by decide)
  · intro p c before
    have holds := holdsLine_afterKeys typed small
      ((List.prefix_append p [c]).trans (before.trans part)) buf screen
    have room := typed.reads p c (before.trans part)
    have count := holds.count
    have last : (max - 1#32).toNat = max.toNat - 1 := by bv_omega
    rw [slt_eq_ult (by omega) (by omega), holds.more nonzero]
    exact room

/-! ## The screen -/

theorem echo_printable (printable : Printable c) (screen : Vga) :
    echo c screen = putChars [c] screen := by
  have nul : c ≠ 0#8 := fun same => absurd printable (same ▸ by decide)
  have end_ : c ≠ newline := fun same => absurd printable (same ▸ by decide)
  have erase : c ≠ backspace := fun same => absurd printable (same ▸ by decide)
  rw [echo, if_neg end_, if_neg erase, charString, dif_neg nul]
  rfl

/-- While nothing is erased the row shows the line. -/
theorem echoShown_of_unerased (typed : TypedInRow max prompt keys) (small : max.toNat < 2 ^ 31)
    (start : EndsRow screen r prompt) (onScreen : r < 50)
    (unerased : ∀ q, q ++ [backspace] <+: keys → lineOf backspace q = []) (part : q <+: keys)
    (buf : Int → Byte) : EchoShown prompt r (afterKeys q (.start buf screen)) := by
  have holds {p : List Byte} (part : p <+: keys) := holdsLine_afterKeys typed small part buf screen
  rw [EchoShown, (holds part).contents]
  induction q using List.reverseRecOn with
  | nil =>
      rw [lineOf, List.foldl_nil, List.append_nil]
      exact start
  | append_singleton q c ih =>
      have partQ := (List.prefix_append q [c]).trans part
      have shown := ih partQ
      have room := typed.fits _ part
      rw [lineOf_concat, edit] at room ⊢
      rw [afterKeys_concat, keyRound]
      simp only
      by_cases erase : c = backspace
      · rw [erase] at part
        have empty := unerased q part
        have none : (afterKeys q (.start buf screen)).i = 0#32 := by
          apply BitVec.eq_of_toNat_eq
          rw [(holds partQ).count, empty]
          rfl
        have still : ¬ (0#32).slt (afterKeys q (.start buf screen)).i = true := by
          rw [none]
          decide
        rw [empty] at shown ⊢
        rw [if_pos erase, if_pos erase, if_neg still, erase]
        exact shown
      · have printable := (typed.printable c (part.subset (by simp))).resolve_right erase
        rw [if_neg erase] at room ⊢
        rw [if_neg erase, ← List.append_assoc]
        rw [List.length_append, List.length_singleton] at room
        have put : EndsRow (putChars [c] (afterKeys q (.start buf screen)).screen) r
            (prompt ++ lineOf backspace q ++ [c]) := by
          apply endsRow_putChars (by simpa using printable.plain) shown _ onScreen
          rw [List.length_append, List.length_singleton]
          omega
        rw [← echo_printable printable] at put
        exact put

/-- The erase text prints three characters. -/
theorem eraseText_cursorX (s : Vga) :
    (vgaPrint eraseText s).cursorX =
      (vgaPutchar 0x08#8 (vgaPutchar 0x20#8 (vgaPutchar 0x08#8 s))).cursorX := rfl

/-- The column after the erase text is not the one before the cursor. -/
theorem cursorX_eraseText (column : 1 ≤ s.cursorX ∧ s.cursorX < 80) :
    (vgaPrint eraseText s).cursorX ≠ s.cursorX - 1 := by
  have back : Plain 0x08#8 := by unfold Plain; decide
  have blank : Plain 0x20#8 := by unfold Plain; decide
  rw [eraseText_cursorX, vgaPutchar_cursorX back, vgaPutchar_cursorX blank, vgaPutchar_cursorX back]
  repeat' split
  all_goals omega

/-- Away from the end of the row it is three columns on. -/
theorem cursorX_eraseText_of_room (room : s.cursorX + 3 < 80) :
    (vgaPrint eraseText s).cursorX = s.cursorX + 3 := by
  have back : Plain 0x08#8 := by unfold Plain; decide
  have blank : Plain 0x20#8 := by unfold Plain; decide
  rw [eraseText_cursorX, vgaPutchar_cursorX back, vgaPutchar_cursorX blank,
    vgaPutchar_cursorX back, if_neg (by omega), if_neg (by omega), if_neg (by omega)]
  omega

theorem not_echoShown_of_erased (typed : TypedInRow max prompt keys) (small : max.toNat < 2 ^ 31)
    (part : q ++ [backspace] <+: keys) (some_ : lineOf backspace q ≠ []) (buf : Int → Byte)
    (screen : Vga) (shown : EchoShown prompt r (afterKeys q (.start buf screen))) :
    ¬ EchoShown prompt r (afterKeys (q ++ [backspace]) (.start buf screen)) := by
  have partQ := (List.prefix_append q [backspace]).trans part
  have holds := holdsLine_afterKeys typed small partQ buf screen
  have holds' := holdsLine_afterKeys typed small part buf screen
  have long := List.length_pos_iff.mpr some_
  have count := holds.count
  have few := typed.reads q backspace part
  have room := typed.fits q partQ
  have erases : (0#32).slt (afterKeys q (.start buf screen)).i = true := by
    rw [slt_eq_ult (by decide) (by omega), BitVec.ult_iff_lt, BitVec.lt_def, count]
    exact long
  intro shown'
  have before := shown.cursorX
  have after := shown'.cursorX
  rw [holds.contents, List.length_append] at before
  rw [holds'.contents, lineOf_concat, edit, if_pos rfl, List.length_append, List.length_dropLast]
    at after
  have same : (afterKeys (q ++ [backspace]) (.start buf screen)).screen =
      vgaPrint eraseText (afterKeys q (.start buf screen)).screen := by
    rw [afterKeys_concat, keyRound]
    simp only [if_pos erases]
    rfl
  rw [same] at after
  have moved := cursorX_eraseText (s := (afterKeys q (.start buf screen)).screen) (by omega)
  omega

/-- For keys that are all read and leave a line that stays in the row of the prompt:
`leer_linea` goes through the states after the keys, and in all of them the row shows the
prompt and the line, with the cursor behind it, exactly if no backspace is typed that has
something to erase. -/
theorem echo_iff (typed : TypedInRow max prompt keys) (nonzero : 1 ≤ max.toNat)
    (small : max.toNat < 2 ^ 31) (start : EndsRow screen r prompt) (onScreen : r < 50)
    (buf : Int → Byte) :
    (∀ q, q <+: keys → ∀ rest, leerLinea max (q ++ rest) buf screen =
      (leerLoop max rest (afterKeys q (.start buf screen))).map endLine) ∧
    ((∀ q, q <+: keys → EchoShown prompt r (afterKeys q (.start buf screen))) ↔
      ∀ q, q ++ [backspace] <+: keys → lineOf backspace q = []) := by
  constructor
  · intro q part rest
    rw [← leerLoop_afterKeys typed nonzero small part rest buf screen]
    rfl
  constructor
  · intro shown q part
    by_contra some_
    exact not_echoShown_of_erased typed small part some_ buf screen
      (shown q ((List.prefix_append q _).trans part)) (shown _ part)
  · intro unerased q part
    exact echoShown_of_unerased typed small start onScreen unerased part buf

/-- The prompt of the shell. -/
def shellPrompt : List Byte := (literalText "learnix> ").chars

/-- It has been printed in the first row of an empty screen. -/
def promptScreen : Vga := putChars shellPrompt (vgaStart fun _ => 0x20#16)

theorem endsRow_promptScreen : EndsRow promptScreen 0 shellPrompt := by
  have empty : EndsRow (vgaStart fun _ => 0x20#16) 0 [] :=
    ⟨fun _ _ => (by decide : cellChar 0x20#16 = 0x20#8), rfl, rfl⟩
  have plain (c : Byte) (member : c ∈ shellPrompt) : Plain c := by
    have all : ∀ c ∈ shellPrompt, Printable c := by decide
    exact (all c member).plain
  exact endsRow_putChars plain empty (by decide) (by decide)

theorem lineOf_length_le (q : List Byte) : (lineOf backspace q).length ≤ q.length := by
  induction q using List.reverseRecOn with
  | nil => exact Nat.le_refl 0
  | append_singleton q c ih =>
      rw [lineOf_concat, List.length_append, List.length_singleton]
      exact length_edit_le.trans (Nat.succ_le_succ ih)

/-- Few keys stay in the row. -/
theorem typedInRow_few (printable : ∀ c ∈ keys, Printable c ∨ c = backspace)
    (few : keys.length < 63) : TypedInRow 64#32 shellPrompt keys := by
  refine ⟨printable, fun q c part => ?_, fun q part => ?_⟩
  · have le := part.length_le
    have short := lineOf_length_le q
    rw [List.length_append, List.length_singleton] at le
    show _ < 64 - 1
    omega
  · have le := part.length_le
    have short := lineOf_length_le q
    have prompt : shellPrompt.length = 9 := by decide
    omega

/-- The letter `a`. -/
theorem echo_iff_letter :
    EchoShown shellPrompt 0 (afterKeys [0x61#8] (.start (fun _ => 0#8) promptScreen)) := by
  have typed : TypedInRow 64#32 shellPrompt [0x61#8] := typedInRow_few (by decide) (by decide)
  refine ((echo_iff typed (by decide) (by decide) endsRow_promptScreen (by decide) _).2.mpr ?_) _
    (List.prefix_refl _)
  intro q part
  have member : backspace ∈ [0x61#8] := part.subset (by simp)
  exact absurd member (by decide)

/-- The letter `a` and a backspace: the buffer is empty, and the cursor is four columns behind
the prompt. -/
theorem echo_erased :
    TypedInRow 64#32 shellPrompt [0x61#8, backspace] ∧ EndsRow promptScreen 0 shellPrompt ∧
      (afterKeys [0x61#8, backspace] (.start (fun _ => 0#8) promptScreen)).i = 0#32 ∧
      (afterKeys [0x61#8, backspace] (.start (fun _ => 0#8) promptScreen)).screen.cursorX = 13 ∧
      ¬ ∀ q, q <+: [0x61#8, backspace] →
        EchoShown shellPrompt 0 (afterKeys q (.start (fun _ => 0#8) promptScreen)) := by
  have typed : TypedInRow 64#32 shellPrompt [0x61#8, backspace] :=
    typedInRow_few (by decide) (by decide)
  have put : EndsRow (putChars [0x61#8] promptScreen) 0 (shellPrompt ++ [0x61#8]) :=
    endsRow_putChars (by unfold Plain; decide) endsRow_promptScreen (by decide) (by decide)
  have x : (putChars [0x61#8] promptScreen).cursorX = 10 := put.cursorX
  have erased : (vgaPrint eraseText (putChars [0x61#8] promptScreen)).cursorX = 13 := by
    rw [cursorX_eraseText_of_room (by omega), x]
    rfl
  refine ⟨typed, endsRow_promptScreen, rfl, erased, fun shown => ?_⟩
  exact not_echoShown_of_erased (q := [0x61#8]) typed (by decide) (List.prefix_refl _)
    (by decide) _ _ (shown _ (List.prefix_append _ _)) (shown _ (List.prefix_refl _))

end Learnix
