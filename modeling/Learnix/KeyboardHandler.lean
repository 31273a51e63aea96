import Learnix.LineReader

/-!
# The keyboard under interrupts

`keyboard_handler` collects a line key by key, one interrupt after the other, where the readers
wait for the keys. It never stops: a key for which there is no room is lost. Whatever the
scancodes, it stores inside of its buffer, holds the line of an editor, and tells the interrupt
controller once that it is done (`keyboard_interrupts`). The line that it has when Enter is
pressed is the one that `leer_linea` reads from the same keys, with the erasures made
(`keyboard_agrees`).
-/

namespace Learnix

open Machine LineEditor

/-- `BUFFER_SIZE`. -/
def bufferSize : Nat := 256

/-- The static variables of `keyboard.c`, with the indices at which the buffer was written; the
screen; and how often the interrupt controller was told that the interrupt is over. -/
structure Keyboard where
  bufferComando : Int → Byte
  written : List Int
  bufferIdx : Int
  comandoListo : Bool
  screen : Vga
  eois : Nat

namespace Keyboard

def store (index : Int) (c : Byte) (k : Keyboard) : Keyboard :=
  { k with
    bufferComando := Function.update k.bufferComando index c
    written := index :: k.written }

/-- `outb(0x20, 0x20)`. -/
def eoi (k : Keyboard) : Keyboard := { k with eois := k.eois + 1 }

end Keyboard

def keyboardInit (k : Keyboard) : Keyboard :=
  { { k with bufferIdx := 0 }.store 0 0#8 with comandoListo := false }

/-- What `keyboard_handler` does with the character of a key; `char` is signed. -/
def handleChar (c : Byte) (k : Keyboard) : Keyboard :=
  if c = newline then
    { k.store k.bufferIdx 0#8 with
      screen := vgaPrint (charString newline) k.screen
      comandoListo := true }
  else if c = backspace then
    if k.bufferIdx > 0 then { k with bufferIdx := k.bufferIdx - 1 } else k
  else if (0#8).slt c then
    if k.bufferIdx < bufferSize - 1 then
      { k.store k.bufferIdx c with
        bufferIdx := k.bufferIdx + 1
        screen := vgaPrint (charString c) k.screen }
    else k
  else k

/-- `keyboard_handler`, with what the port 0x60 gives. -/
def keyboardHandler (scancode : Byte) (k : Keyboard) : Keyboard :=
  if scancode &&& 0x80#8 ≠ 0#8 then k.eoi
  else
    (if scancode.toNat < 128 then handleChar (scancodeMap scancode) k else k).eoi

/-- The character that a scancode stands for, if it stands for one. -/
def keyOf (scancode : Byte) : Option Byte :=
  if scancode &&& 0x80#8 ≠ 0#8 ∨ scancodeMap scancode = 0#8 then none
  else some (scancodeMap scancode)

/-- One interrupt after the other. -/
def interrupts (scancodes : List Byte) (k : Keyboard) : Keyboard :=
  scancodes.foldl (fun k scancode => keyboardHandler scancode k) k

/-- The line of the handler. -/
def handlerLine (chars : List Byte) : List Byte :=
  lineWithin newline backspace (bufferSize - 1) [] chars

/-- The handler holds this line, and has stored inside of the buffer; `listo` is its flag. -/
structure HoldsKeys (k : Keyboard) (text : List Byte) (listo : Bool) : Prop where
  count : k.bufferIdx = text.length
  few : text.length ≤ bufferSize - 1
  chars : ∀ i (below : i < text.length), k.bufferComando i = text[i] ∧ text[i] ≠ 0#8
  inside : ∀ i ∈ k.written, 0 ≤ i ∧ i < bufferSize
  flag : k.comandoListo = listo

variable {k : Keyboard} {text chars scancodes : List Byte} {listo : Bool} {c scancode : Byte}

/-! ## One interrupt -/

theorem holdsKeys_init (clean : ∀ i ∈ k.written, 0 ≤ i ∧ i < bufferSize) :
    HoldsKeys (keyboardInit k) [] false := by
  refine ⟨rfl, Nat.zero_le _, fun i below => absurd below (Nat.not_lt_zero i), fun i member => ?_,
    rfl⟩
  rcases List.mem_cons.mp member with rfl | old
  · decide
  · exact clean i old

/-- The characters of the map are no negative numbers. -/
theorem slt_scancodeMap (scancode : Byte) :
    (0#8).slt (scancodeMap scancode) = true ↔ scancodeMap scancode ≠ 0#8 := by
  revert scancode
  decide +kernel

theorem HoldsKeys.handleChar (holds : HoldsKeys k text listo) (positive : (0#8).slt c = true) :
    HoldsKeys (handleChar c k) (editWithin newline backspace (bufferSize - 1) text c)
      (listo || c = newline) := by
  rcases holds with ⟨count, few, stored, inside, flag⟩
  have room : text.length < bufferSize := Nat.lt_of_le_of_lt few (by decide)
  have here : ∀ i ∈ k.bufferIdx :: k.written, 0 ≤ i ∧ i < bufferSize := by
    intro i member
    rcases List.mem_cons.mp member with rfl | old
    · omega
    · exact inside i old
  unfold Learnix.handleChar editWithin
  split
  · next enter =>
    refine ⟨count, few, fun i below => ?_, here, by simp [enter]⟩
    show Function.update k.bufferComando k.bufferIdx 0#8 i = _ ∧ _
    rw [Function.update_of_ne (by omega)]
    exact stored i below
  · next goesOn =>
    have still : (listo || decide (c = newline)) = listo := by simp [goesOn]
    rw [still]
    split
    · split
      · refine ⟨?_, ?_, fun i below => ?_, inside, flag⟩
        · show k.bufferIdx - 1 = _
          rw [List.length_dropLast]
          omega
        · rw [List.length_dropLast]
          omega
        · rw [List.length_dropLast] at below
          rw [List.getElem_dropLast]
          exact stored i (by omega)
      · have empty : text = [] := List.eq_nil_of_length_eq_zero (by omega)
        rw [empty] at count few stored ⊢
        exact ⟨count, few, stored, inside, flag⟩
    · have size : ((bufferSize - 1 : Nat) : Int) = bufferSize - 1 := by decide
      by_cases more : text.length < bufferSize - 1
      · rw [if_pos more, if_pos (by omega)]
        refine ⟨?_, ?_, fun i below => ?_, here, flag⟩
        · show k.bufferIdx + 1 = _
          rw [List.length_append, List.length_singleton]
          omega
        · rw [List.length_append]
          exact more
        · show Function.update k.bufferComando k.bufferIdx c i = _ ∧ _
          rw [List.length_append, List.length_singleton] at below
          rcases Nat.lt_or_ge i text.length with old | last
          · rw [Function.update_of_ne (by omega), List.getElem_append_left old]
            exact stored i old
          · obtain rfl : i = text.length := by omega
            rw [count, Function.update_self, List.getElem_concat_length rfl]
            refine ⟨rfl, fun nul => ?_⟩
            rw [nul] at positive
            exact absurd positive (by decide)
      · rw [if_neg more, if_neg (by omega)]
        exact ⟨count, few, stored, inside, flag⟩

/-- An interrupt handles the character of its scancode, if it has one. -/
theorem keyboardHandler_eq (scancode : Byte) (k : Keyboard) :
    keyboardHandler scancode k = match keyOf scancode with
      | none => k.eoi
      | some c => (handleChar c k).eoi := by
  unfold keyboardHandler keyOf
  by_cases released : scancode &&& 0x80#8 ≠ 0#8
  · rw [if_pos released, if_pos (.inl released)]
  · rw [if_neg released, if_pos (Nat.not_le.mp (mt (released_iff scancode).mpr released))]
    by_cases unknown : scancodeMap scancode = 0#8
    · rw [if_pos (.inr unknown), unknown]
      rfl
    · rw [if_neg (not_or.mpr ⟨released, unknown⟩)]

theorem HoldsKeys.eoi (holds : HoldsKeys k text listo) : HoldsKeys k.eoi text listo :=
  ⟨holds.count, holds.few, holds.chars, holds.inside, holds.flag⟩

theorem keyOf_positive (key : keyOf scancode = some c) : (0#8).slt c = true := by
  unfold keyOf at key
  split at key
  · cases key
  · next known =>
    cases key
    exact (slt_scancodeMap scancode).mpr (not_or.mp known).2

/-! ## Interrupt after interrupt -/

theorem HoldsKeys.interrupts (holds : HoldsKeys k text listo) (scancodes : List Byte) :
    HoldsKeys (interrupts scancodes k)
      (lineWithin newline backspace (bufferSize - 1) text (scancodes.filterMap keyOf))
      (listo || newline ∈ scancodes.filterMap keyOf) := by
  induction scancodes generalizing k text listo with
  | nil => simpa [Learnix.interrupts, lineWithin] using holds
  | cons scancode scancodes ih =>
      have step := keyboardHandler_eq scancode k
      show HoldsKeys (Learnix.interrupts scancodes (keyboardHandler scancode k)) _ _
      cases key : keyOf scancode with
      | none =>
          rw [key] at step
          rw [step, List.filterMap_cons_none key]
          exact ih holds.eoi
      | some c =>
          rw [key] at step
          rw [step, List.filterMap_cons_some key]
          have later := ih (holds.handleChar (keyOf_positive key)).eoi
          have flags : (listo || decide (newline ∈ c :: scancodes.filterMap keyOf)) =
              (listo || decide (c = newline) || decide (newline ∈ scancodes.filterMap keyOf)) := by
            simp [eq_comm (a := newline), Bool.or_assoc]
          rw [flags]
          exact later

theorem eois_handleChar (c : Byte) (k : Keyboard) : (handleChar c k).eois = k.eois := by
  unfold handleChar
  split
  · rfl
  · split
    · split <;> rfl
    · split
      · split <;> rfl
      · rfl

/-- Every interrupt is ended once. -/
theorem eois_interrupts (scancodes : List Byte) (k : Keyboard) :
    (interrupts scancodes k).eois = k.eois + scancodes.length := by
  induction scancodes generalizing k with
  | nil => rfl
  | cons scancode scancodes ih =>
      have once : (keyboardHandler scancode k).eois = k.eois + 1 := by
        rw [keyboardHandler_eq]
        split
        · rfl
        · exact congrArg (· + 1) (eois_handleChar _ k)
      show (interrupts scancodes (keyboardHandler scancode k)).eois = _
      rw [ih, once, List.length_cons]
      omega

/-- Enter ends the string that the buffer holds. -/
theorem HoldsKeys.enter (holds : HoldsKeys k text listo) :
    HoldsString (Learnix.handleChar newline k).bufferComando text := by
  have count := holds.count
  unfold Learnix.handleChar
  rw [if_pos rfl]
  refine ⟨fun i below => ?_, ?_⟩
  · show Function.update k.bufferComando k.bufferIdx 0#8 i = _ ∧ _
    rw [Function.update_of_ne (by omega)]
    exact holds.chars i below
  · show Function.update k.bufferComando k.bufferIdx 0#8 text.length = _
    rw [count, Function.update_self]

/-- Where Enter was the last key, its string is in the buffer. -/
theorem HoldsKeys.entered (holds : HoldsKeys k text listo) {typed : List Byte}
    (pressed : scancodes.filterMap keyOf = typed ++ [newline]) :
    HoldsString (Learnix.interrupts scancodes k).bufferComando
      (lineWithin newline backspace (bufferSize - 1) text typed) := by
  induction scancodes using List.reverseRecOn with
  | nil => exact absurd pressed.symm (List.append_ne_nil_of_right_ne_nil _ (List.cons_ne_nil _ _))
  | append_singleton scancodes scancode ih =>
      have last : Learnix.interrupts (scancodes ++ [scancode]) k =
          keyboardHandler scancode (Learnix.interrupts scancodes k) := List.foldl_append ..
      have step := keyboardHandler_eq scancode (Learnix.interrupts scancodes k)
      rw [List.filterMap_append] at pressed
      rw [last]
      cases key : keyOf scancode with
      | none =>
          rw [List.filterMap_cons_none key, List.filterMap_nil, List.append_nil] at pressed
          rw [key] at step
          rw [step]
          exact ih pressed
      | some c =>
          rw [List.filterMap_cons_some key, List.filterMap_nil] at pressed
          obtain ⟨before, same⟩ := List.append_inj' pressed rfl
          cases same
          rw [key] at step
          rw [step, ← before]
          exact (holds.interrupts scancodes).enter

/-- For all scancodes from `keyboard_init` on: the handler counts the line of an editor that
loses the keys for which there is no room, and has its characters in the buffer; it stores inside
of the buffer only, and ends every interrupt once. `comando_listo` says that there was an Enter;
where it was the last key, the line is the string in the buffer. -/
theorem keyboard_interrupts (scancodes : List Byte) (k : Keyboard) (fresh : k.written = []) :
    (interrupts scancodes (keyboardInit k)).bufferIdx =
        (handlerLine (scancodes.filterMap keyOf)).length ∧
      (handlerLine (scancodes.filterMap keyOf)).length ≤ bufferSize - 1 ∧
      (∀ i (below : i < (handlerLine (scancodes.filterMap keyOf)).length),
        (interrupts scancodes (keyboardInit k)).bufferComando i =
          (handlerLine (scancodes.filterMap keyOf))[i]) ∧
      (∀ i ∈ (interrupts scancodes (keyboardInit k)).written, 0 ≤ i ∧ i < bufferSize) ∧
      ((interrupts scancodes (keyboardInit k)).comandoListo = true ↔
        newline ∈ scancodes.filterMap keyOf) ∧
      (interrupts scancodes (keyboardInit k)).eois = k.eois + scancodes.length ∧
      ∀ typed, scancodes.filterMap keyOf = typed ++ [newline] →
        HoldsString (interrupts scancodes (keyboardInit k)).bufferComando
          (handlerLine (scancodes.filterMap keyOf)) := by
  have start : HoldsKeys (keyboardInit k) [] false :=
    holdsKeys_init fun i member => absurd (fresh ▸ member) List.not_mem_nil
  obtain ⟨count, few, stored, inside, flag⟩ := start.interrupts scancodes
  refine ⟨count, few, fun i below => (stored i below).1, inside, ?_,
    eois_interrupts scancodes (keyboardInit k), fun typed pressed => ?_⟩
  · rw [flag]
    simp
  · have line_ : handlerLine (scancodes.filterMap keyOf) = handlerLine typed := by
      rw [pressed]
      exact List.foldl_append ..
    rw [line_]
    exact start.entered pressed

/-- The static variables at boot. -/
def keyboardStart (screen : Vga) : Keyboard := ⟨fun _ => 0#8, [], 0, false, screen, 0⟩

/-- `a`, its release, a backspace and Enter. -/
theorem keyboard_interrupts_erased :
    (interrupts [0x1E#8, 0x9E#8, 0x0E#8, 0x1C#8]
        (keyboardInit (keyboardStart (vgaStart fun _ => 0#16)))).comandoListo = true ∧
      (interrupts [0x1E#8, 0x9E#8, 0x0E#8, 0x1C#8]
        (keyboardInit (keyboardStart (vgaStart fun _ => 0#16)))).bufferIdx = 0 := by
  rcases keyboard_interrupts [0x1E#8, 0x9E#8, 0x0E#8, 0x1C#8]
    (keyboardStart (vgaStart fun _ => 0#16)) rfl with ⟨count, -, -, -, listo, -, -⟩
  exact ⟨listo.mpr (by decide), count⟩

/-! ## The handler and the readers -/

/-- Where a reader with a buffer of this size or a smaller one stops at an Enter, it has the line
that the keys before leave, and the handler has the same string in its buffer when that Enter is
its last key. -/
theorem keyboard_agrees (scancodes : List Byte) (polls : List Poll) (keys rest : List Byte)
    (pressed : scancodes.filterMap keyOf = keys ++ [newline])
    (polled : delivered polls = keys ++ newline :: rest) (max : Word) (nonzero : 1 ≤ max.toNat)
    (small : max.toNat ≤ bufferSize) (buf : Int → Byte) (screen : Vga) (l : Line)
    (reads : leerLinea max (delivered polls) buf screen = some (l, rest)) (k : Keyboard)
    (fresh : k.written = []) :
    HoldsString l.buf (lineOf backspace keys) ∧
      HoldsString (interrupts scancodes (keyboardInit k)).bufferComando
        (lineOf backspace keys) := by
  have start : HoldsKeys (keyboardInit k) [] false :=
    holdsKeys_init fun i member => absurd (fresh ▸ member) List.not_mem_nil
  have size : bufferSize = 256 := rfl
  have empty : HoldsLine max ⟨0#32, buf, [], screen⟩ [] :=
    ⟨rfl, fun k below => absurd below (Nat.not_lt_zero k), by simp⟩
  cases result : run newline backspace (max.toNat - 1) [] (delivered polls) with
  | none =>
      have loop := readLoop_editor nonzero (delivered polls) empty
      have signed := readLoop_signed nonzero (by omega) (delivered polls)
        (l := ⟨0#32, buf, [], screen⟩) nonzero
      rw [result] at loop
      rw [leerLinea, signed, loop] at reads
      cases reads
  | some stop =>
      rcases stop with ⟨typed, rest'⟩
      rcases leerLinea_of_run (delivered_ne_nul polls) nonzero (by omega) result buf screen with
        ⟨l', call, holds⟩
      rw [reads] at call
      cases call
      rw [polled] at result
      have more : max.toNat - 1 ≤ bufferSize - 1 := by omega
      have same := lineWithin_of_run more result
      have last : lineWithin newline backspace (bufferSize - 1) [] (keys ++ [newline]) =
          lineWithin newline backspace (bufferSize - 1) [] keys := List.foldl_append ..
      rw [← lineOf_of_run result]
      exact ⟨holds, same ▸ last ▸ start.entered pressed⟩

/-- `h` and Enter. -/
theorem keyboard_agrees_typed :
    ∃ l, leerLinea 64#32 (delivered [⟨1#8, 0x23#8⟩, ⟨0#8, 0x23#8⟩, ⟨1#8, 0x1C#8⟩])
        (fun _ => 0xFF#8) (vgaStart fun _ => 0#16) = some (l, []) ∧
      HoldsString l.buf [0x68#8] ∧
      HoldsString (interrupts [0x23#8, 0xA3#8, 0x1C#8]
        (keyboardInit (keyboardStart (vgaStart fun _ => 0#16)))).bufferComando [0x68#8] := by
  have stops : (leerLinea 64#32 (delivered [⟨1#8, 0x23#8⟩, ⟨0#8, 0x23#8⟩, ⟨1#8, 0x1C#8⟩])
      (fun _ => 0xFF#8) (vgaStart fun _ => 0#16)).map Prod.snd = some [] := rfl
  obtain ⟨⟨l, rest⟩, reads, none_⟩ := Option.map_eq_some_iff.mp stops
  cases none_
  rcases keyboard_agrees [0x23#8, 0xA3#8, 0x1C#8] _ [0x68#8] [] (by decide) (by decide) 64#32
    (by decide) (by decide) _ _ l reads (keyboardStart (vgaStart fun _ => 0#16)) rfl with
    ⟨shell, handler⟩
  exact ⟨l, reads, shell, handler⟩

end Learnix
