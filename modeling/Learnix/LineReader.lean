import Learnix.Lib.LineEditor
import Learnix.ScreenText

/-!
# The two line readers

`leer_linea` of the shell and `SYS_READ` of the system calls read a line with the same loop,
one with a signed counter and one with an unsigned one. Both are the line editor whose line
has room for `max - 1` characters, on the characters that `esperar_tecla_char` delivers
(`readers_agree`).
-/

namespace Learnix

open Machine LineEditor

/-! ## The keyboard -/

/-- One round of the loop of `esperar_tecla_char`: what the ports 0x64 and 0x60 give. -/
structure Poll where
  status : Byte
  data : Byte

/-- `scancode_map`; the rest of the array is 0. -/
def scancodeMap (sc : Byte) : Byte :=
  [0x00#8, 0x1B#8, 0x31#8, 0x32#8, 0x33#8, 0x34#8, 0x35#8, 0x36#8, 0x37#8, 0x38#8, 0x39#8, 0x30#8,
    0x2D#8, 0x3D#8, 0x08#8, 0x09#8, 0x71#8, 0x77#8, 0x65#8, 0x72#8, 0x74#8, 0x79#8, 0x75#8, 0x69#8,
    0x6F#8, 0x70#8, 0x5B#8, 0x5D#8, 0x0A#8, 0x00#8, 0x61#8, 0x73#8, 0x64#8, 0x66#8, 0x67#8, 0x68#8,
    0x6A#8, 0x6B#8, 0x6C#8, 0x3B#8, 0x27#8, 0x60#8, 0x00#8, 0x5C#8, 0x7A#8, 0x78#8, 0x63#8, 0x76#8,
    0x62#8, 0x6E#8, 0x6D#8, 0x2C#8, 0x2E#8, 0x2F#8, 0x00#8, 0x2A#8, 0x00#8,
    0x20#8].getD sc.toNat 0#8

def newline : Byte := 0x0A#8

def backspace : Byte := 0x08#8

/-- `"<ENTER>"`. -/
def enterText : CString :=
  ⟨[0x3C#8, 0x45#8, 0x4E#8, 0x54#8, 0x45#8, 0x52#8, 0x3E#8], by decide⟩

/-- The character, the rounds that are left and the screen; `none` if it still waits. -/
def esperarTeclaChar : List Poll → Vga → Option (Byte × List Poll × Vga)
  | [], _ => none
  | p :: ps, screen =>
    if p.status &&& 0x01#8 = 0#8 then esperarTeclaChar ps screen
    else if p.data &&& 0x80#8 ≠ 0#8 then esperarTeclaChar ps screen
    else if 128 ≤ p.data.toNat then esperarTeclaChar ps screen
    else
      let c := scancodeMap p.data
      if c = 0#8 then esperarTeclaChar ps screen
      else if p.data = 28#8 then some (newline, ps, vgaPrint enterText screen)
      else if c = newline then some (newline, ps, screen)
      else if c = backspace then some (backspace, ps, screen)
      else some (c, ps, vgaPrint (charString c) screen)

/-- The character that a round delivers, if it delivers one. -/
def Poll.char (p : Poll) : Option Byte :=
  if p.status &&& 0x01#8 = 0#8 ∨ p.data &&& 0x80#8 ≠ 0#8 ∨ scancodeMap p.data = 0#8 then none
  else some (scancodeMap p.data)

/-- The characters that call after call delivers. -/
def delivered (polls : List Poll) : List Byte := polls.filterMap Poll.char

/-- What `esperar_tecla_char` prints with a character. -/
def echo (c : Byte) (screen : Vga) : Vga :=
  if c = newline then vgaPrint enterText screen
  else if c = backspace then screen
  else vgaPrint (charString c) screen

/-! ## The readers -/

/-- The counter, the buffer with the indices at which it was written, and the screen. -/
structure Line where
  i : Word
  buf : Int → Byte
  written : List Int
  screen : Vga

def Line.store (index : Int) (c : Byte) (l : Line) : Line :=
  { l with buf := Function.update l.buf index c, written := index :: l.written }

/-- `"\b \b"`. -/
def eraseText : CString := ⟨[0x08#8, 0x20#8, 0x08#8], by decide⟩

/-- The loop of both readers, over the characters that will be delivered (`pollLoop_eq`).
They differ in how they compare the counter and in the index that it stands for. -/
def readLoop (more pos : Word → Bool) (index : Word → Int) : List Byte → Line →
    Option (Line × List Byte)
  | [], l => if more l.i then none else some (l, [])
  | c :: cs, l =>
    if more l.i then
      let l := { l with screen := echo c l.screen }
      if c = newline then some (l, cs)
      else if c = backspace then
        readLoop more pos index cs
          (if pos l.i then { l with i := l.i - 1#32, screen := vgaPrint eraseText l.screen } else l)
      else readLoop more pos index cs { l.store (index l.i) c with i := l.i + 1#32 }
    else some (l, c :: cs)

/-- `leer_linea`, with an `int` counter; it ends the line on the screen. -/
def leerLinea (max : Word) (keys : List Byte) (buf : Int → Byte) (screen : Vga) :
    Option (Line × List Byte) :=
  (readLoop (fun i => i.slt (max - 1#32)) (fun i => (0#32).slt i) BitVec.toInt keys
    ⟨0#32, buf, [], screen⟩).map fun r =>
      ({ r.1.store r.1.i.toInt 0#8 with screen := vgaPrint (charString newline) r.1.screen }, r.2)

/-- `SYS_READ`, with a `uint32_t` counter; with what it returns. -/
def sysRead (ebx ecx : Word) (keys : List Byte) (buf : Int → Byte) (screen : Vga) :
    Option (Word × Line × List Byte) :=
  if ebx = 0#32 ∨ ecx = 0#32 then some (0#32, ⟨0#32, buf, [], screen⟩, keys)
  else
    (readLoop (fun i => i.ult (ecx - 1#32)) (fun i => (0#32).ult i) (fun i => i.toNat) keys
      ⟨0#32, buf, [], screen⟩).map fun r => (r.1.i, r.1.store r.1.i.toNat 0#8, r.2)

/-! ## What the keyboard delivers -/

variable {polls : List Poll} {c : Byte} {cs keys line : List Byte} {l : Line} {max : Word}

theorem delivered_ne_nul (polls : List Poll) : ∀ c ∈ delivered polls, c ≠ 0#8 := by
  intro c member
  obtain ⟨p, -, char⟩ := List.mem_filterMap.mp member
  unfold Poll.char at char
  split at char
  · cases char
  · next other =>
    cases char
    exact fun nul => other (.inr (.inr nul))

theorem released_iff (sc : Byte) : sc &&& 0x80#8 ≠ 0#8 ↔ 128 ≤ sc.toNat := by
  revert sc
  decide +kernel

/-- Only the key 28 delivers a newline. -/
theorem scancodeMap_eq_newline (sc : Byte) : scancodeMap sc = newline ↔ sc = 28#8 := by
  revert sc
  decide +kernel

/-- A call delivers the next character, and prints it. -/
theorem esperarTeclaChar_eq (polls : List Poll) (screen : Vga) :
    match esperarTeclaChar polls screen with
    | none => delivered polls = []
    | some (c, ps, after) => delivered polls = c :: delivered ps ∧ after = echo c screen := by
  induction polls with
  | nil => rfl
  | cons p ps ih =>
      have skip (silent : p.char = none) : delivered (p :: ps) = delivered ps :=
        List.filterMap_cons_none silent
      rw [esperarTeclaChar]
      by_cases empty : p.status &&& 0x01#8 = 0#8
      · rw [if_pos empty, skip (if_pos (.inl empty))]
        exact ih
      · rw [if_neg empty]
        by_cases released : p.data &&& 0x80#8 ≠ 0#8
        · rw [if_pos released, skip (if_pos (.inr (.inl released)))]
          exact ih
        · rw [if_neg released, if_neg (mt (released_iff p.data).mpr released)]
          simp only
          by_cases unknown : scancodeMap p.data = 0#8
          · rw [if_pos unknown, skip (if_pos (.inr (.inr unknown)))]
            exact ih
          · have key : delivered (p :: ps) = scancodeMap p.data :: delivered ps := by
              refine List.filterMap_cons_some (if_neg ?_)
              simp only [not_or]
              exact ⟨empty, released, unknown⟩
            rw [if_neg unknown]
            by_cases enter : p.data = 28#8
            · rw [if_pos enter]
              rw [(scancodeMap_eq_newline _).mpr enter] at key
              exact ⟨key, (if_pos rfl).symm⟩
            · have other := mt (scancodeMap_eq_newline p.data).mp enter
              rw [if_neg enter, if_neg other]
              by_cases erase : scancodeMap p.data = backspace
              · rw [if_pos erase]
                exact ⟨erase ▸ key, rfl⟩
              · rw [if_neg erase]
                refine ⟨key, ?_⟩
                rw [echo, if_neg other, if_neg erase]

/-- The loop of both readers with its calls of `esperar_tecla_char`, for at most `fuel`
rounds. -/
def pollLoop (more pos : Word → Bool) (index : Word → Int) : Nat → List Poll → Line →
    Option (Line × List Poll)
  | 0, _, _ => none
  | fuel + 1, polls, l =>
    if more l.i then
      match esperarTeclaChar polls l.screen with
      | none => none
      | some (c, ps, screen) =>
        let l := { l with screen := screen }
        if c = newline then some (l, ps)
        else if c = backspace then
          pollLoop more pos index fuel ps
            (if pos l.i then { l with i := l.i - 1#32, screen := vgaPrint eraseText l.screen }
              else l)
        else pollLoop more pos index fuel ps { l.store (index l.i) c with i := l.i + 1#32 }
    else some (l, polls)

/-- The loop reads what the keyboard delivers, with a round for each character. -/
theorem pollLoop_eq (more pos : Word → Bool) (index : Word → Int) {fuel : Nat}
    (enough : (delivered polls).length < fuel) :
    (pollLoop more pos index fuel polls l).map (fun r => (r.1, delivered r.2)) =
      readLoop more pos index (delivered polls) l := by
  induction fuel generalizing polls l with
  | zero => exact absurd enough (Nat.not_lt_zero _)
  | succ fuel ih =>
      rw [pollLoop]
      by_cases goOn : more l.i = true
      · rw [if_pos goOn]
        have call := esperarTeclaChar_eq polls l.screen
        generalize esperarTeclaChar polls l.screen = called at call
        rcases called with _ | ⟨c, ps, screen⟩
        · have silent : delivered polls = [] := call
          rw [silent, readLoop, if_pos goOn]
          rfl
        · rcases call with ⟨keys, rfl⟩
          have rest : (delivered ps).length < fuel := by
            rw [keys, List.length_cons] at enough
            omega
          rw [keys, readLoop, if_pos goOn]
          simp only
          split
          · rfl
          · split
            · exact ih rest
            · exact ih rest
      · rw [if_neg goOn]
        cases keys : delivered polls with
        | nil => simp [readLoop, goOn, keys]
        | cons c cs => simp [readLoop, goOn, keys]

/-! ## The loop and the editor -/

/-- The reader holds this line, and has stored it inside of the buffer. -/
structure HoldsLine (max : Word) (l : Line) (text : List Byte) : Prop where
  count : l.i.toNat = text.length
  chars : ∀ k (below : k < text.length), l.buf k = text[k]
  inside : ∀ i ∈ l.written, 0 ≤ i ∧ i < max.toNat

theorem HoldsLine.append (holds : HoldsLine max l line) (room : line.length < max.toNat - 1)
    (c : Byte) (screen : Vga) :
    HoldsLine max { { l with screen := screen }.store l.i.toNat c with i := l.i + 1#32 }
      (line ++ [c]) := by
  have count := holds.count
  have bound := max.isLt
  refine ⟨?_, fun k below => ?_, fun i member => ?_⟩
  · show (l.i + 1#32).toNat = (line ++ [c]).length
    rw [List.length_append, List.length_singleton, BitVec.toNat_add, BitVec.toNat_ofNat]
    omega
  · rw [List.length_append, List.length_singleton] at below
    show Function.update l.buf l.i.toNat c k = _
    rcases Nat.lt_or_ge k line.length with old | last
    · rw [Function.update_of_ne (by omega), holds.chars k old, List.getElem_append_left old]
    · obtain rfl : k = line.length := by omega
      rw [count, Function.update_self, List.getElem_concat_length rfl]
  · rcases List.mem_cons.mp member with rfl | old
    · omega
    · exact holds.inside i old

theorem HoldsLine.erase (holds : HoldsLine max l line) (screen screen' : Vga) :
    HoldsLine max (if (0#32).ult l.i then { l with i := l.i - 1#32, screen := screen }
      else { l with screen := screen' }) line.dropLast := by
  have count := holds.count
  split
  · next some_ =>
    have pos : 0 < l.i.toNat := by simpa [BitVec.ult] using some_
    refine ⟨?_, fun k below => ?_, holds.inside⟩
    · show (l.i - 1#32).toNat = line.dropLast.length
      rw [List.length_dropLast]
      bv_omega
    · rw [List.length_dropLast] at below
      rw [List.getElem_dropLast]
      exact holds.chars k (by omega)
  · next none_ =>
    have zero : l.i.toNat = 0 := by simpa [BitVec.ult] using none_
    obtain rfl : line = [] := List.eq_nil_of_length_eq_zero (by omega)
    exact ⟨count, holds.chars, holds.inside⟩

theorem HoldsLine.more (holds : HoldsLine max l line) (nonzero : 1 ≤ max.toNat) :
    l.i.ult (max - 1#32) = true ↔ line.length < max.toNat - 1 := by
  rw [← holds.count, BitVec.ult_iff_lt]
  bv_omega

/-- The unsigned loop is the editor. -/
theorem readLoop_editor (nonzero : 1 ≤ max.toNat) (keys : List Byte)
    (holds : HoldsLine max l line) :
    match run newline backspace (max.toNat - 1) line keys with
    | none => readLoop (fun i => i.ult (max - 1#32)) (fun i => (0#32).ult i) (fun i => i.toNat)
        keys l = none
    | some (line', rest) => ∃ l', readLoop (fun i => i.ult (max - 1#32)) (fun i => (0#32).ult i)
        (fun i => i.toNat) keys l = some (l', rest) ∧ HoldsLine max l' line' := by
  induction keys generalizing l line with
  | nil =>
      rw [run, readLoop]
      by_cases room : line.length < max.toNat - 1
      · rw [if_pos room, if_pos ((holds.more nonzero).mpr room)]
      · rw [if_neg room, if_neg (mt (holds.more nonzero).mp room)]
        exact ⟨l, rfl, holds⟩
  | cons c cs ih =>
      rw [run, readLoop]
      by_cases room : line.length < max.toNat - 1
      · rw [if_pos room, if_pos ((holds.more nonzero).mpr room)]
        simp only
        by_cases end_ : c = newline
        · rw [if_pos end_, if_pos end_]
          exact ⟨_, rfl, holds.count, holds.chars, holds.inside⟩
        · rw [if_neg end_, if_neg end_]
          by_cases erase : c = backspace
          · rw [if_pos erase, edit, if_pos erase]
            exact ih (holds.erase _ _)
          · rw [if_neg erase, edit, if_neg erase]
            exact ih (holds.append room c _)
      · rw [if_neg room, if_neg (mt (holds.more nonzero).mp room)]
        exact ⟨l, rfl, holds⟩

theorem slt_eq_ult {a b : Word} (left : a.toNat < 2 ^ 31) (right : b.toNat < 2 ^ 31) :
    a.slt b = a.ult b := by
  rw [BitVec.slt_eq_ult_of_msb_eq]
  rw [BitVec.msb_eq_false_iff_two_mul_lt.mpr (by omega),
    BitVec.msb_eq_false_iff_two_mul_lt.mpr (by omega)]

/-- Below 2^31 it makes no difference whether the counter is signed. -/
theorem readLoop_signed (nonzero : 1 ≤ max.toNat) (small : max.toNat < 2 ^ 31) (keys : List Byte)
    (below : l.i.toNat < max.toNat) :
    readLoop (fun i => i.slt (max - 1#32)) (fun i => (0#32).slt i) BitVec.toInt keys l =
      readLoop (fun i => i.ult (max - 1#32)) (fun i => (0#32).ult i) (fun i => i.toNat) keys l := by
  have last : (max - 1#32).toNat = max.toNat - 1 := by bv_omega
  induction keys generalizing l with
  | nil =>
      have more : l.i.slt (max - 1#32) = l.i.ult (max - 1#32) :=
        slt_eq_ult (by omega) (by omega)
      rw [readLoop, readLoop, more]
  | cons c cs ih =>
      have more : l.i.slt (max - 1#32) = l.i.ult (max - 1#32) :=
        slt_eq_ult (by omega) (by omega)
      have some_ : (0#32).slt l.i = (0#32).ult l.i := slt_eq_ult (by decide) (by omega)
      have index : l.i.toInt = l.i.toNat := BitVec.toInt_eq_toNat_of_lt (by omega)
      rw [readLoop, readLoop, more]
      simp only [some_, index]
      split
      · next room =>
        rw [BitVec.ult_iff_lt] at room
        split
        · rfl
        · split
          · apply ih
            split
            · next pos =>
              rw [BitVec.ult_iff_lt] at pos
              show (l.i - 1#32).toNat < max.toNat
              bv_omega
            · exact below
          · apply ih
            show (l.i + 1#32).toNat < max.toNat
            bv_omega
      · rfl

/-! ## The readers -/

/-- The buffer holds this string, and its NUL after it. -/
def HoldsString (buf : Int → Byte) (text : List Byte) : Prop :=
  (∀ k (below : k < text.length), buf k = text[k] ∧ text[k] ≠ 0#8) ∧ buf text.length = 0#8

/-- For all characters that the keyboard may deliver, and all sizes of the buffer below
2^31: both readers still wait after the same characters, or both stop at the place where the
editor does, with its line as the string in the buffer. They write only inside of the
buffer, and `SYS_READ` returns the length of the line. -/
theorem readers_agree (keys : List Byte) (typed : ∀ c ∈ keys, c ≠ 0#8) (max : Word)
    (nonzero : 1 ≤ max.toNat) (small : max.toNat < 2 ^ 31) (address : Word)
    (nonnull : address ≠ 0#32) (buf : Int → Byte) (screen : Vga) :
    (leerLinea max keys buf screen = none ∧ sysRead address max keys buf screen = none ∧
      ∀ q, q <+: keys → Open newline backspace (max.toNat - 1) q) ∨
    ∃ q rest line l l' n, keys = q ++ rest ∧
      Stops newline backspace (max.toNat - 1) q line ∧
      leerLinea max keys buf screen = some (l, rest) ∧
      sysRead address max keys buf screen = some (n, l', rest) ∧
      HoldsString l.buf line ∧ l'.buf = l.buf ∧ n.toNat = line.length ∧
      (∀ i ∈ l.written, 0 ≤ i ∧ i < max.toNat) ∧ ∀ i ∈ l'.written, 0 ≤ i ∧ i < max.toNat := by
  have start : HoldsLine max ⟨0#32, buf, [], screen⟩ [] :=
    ⟨rfl, fun k below => absurd below (Nat.not_lt_zero k), by simp⟩
  have some_ : ¬ (address = 0#32 ∨ max = 0#32) := by
    rintro (null | zero)
    · exact nonnull null
    · rw [zero] at nonzero
      exact absurd nonzero (by decide)
  have loop := readLoop_editor nonzero keys start
  have signed := readLoop_signed nonzero small keys (l := ⟨0#32, buf, [], screen⟩) nonzero
  rw [leerLinea, sysRead, if_neg some_, signed]
  rcases run_cases newline backspace (max.toNat - 1) keys [] (by simp) (by simp)
    (Nat.zero_le _) with ⟨stuck, all⟩ | ⟨q, line, rest, result, shape, stops⟩
  · change run newline backspace (max.toNat - 1) [] keys = none at stuck
    rw [stuck] at loop
    simp only at loop
    rw [loop]
    exact .inl ⟨rfl, rfl, all⟩
  · change run newline backspace (max.toNat - 1) [] keys = some (line, rest) at result
    rw [result] at loop
    rcases loop with ⟨l, eq, holds⟩
    have few := stops.length_le
    have count := holds.count
    have index : l.i.toInt = l.i.toNat := BitVec.toInt_eq_toNat_of_lt (by omega)
    have inside : ∀ i ∈ (l.i.toNat : Int) :: l.written, 0 ≤ i ∧ i < max.toNat := by
      intro i member
      rcases List.mem_cons.mp member with rfl | old
      · omega
      · exact holds.inside i old
    have held : HoldsString (Function.update l.buf l.i.toNat 0#8) line := by
      refine ⟨fun k below => ⟨?_, ?_⟩, ?_⟩
      · rw [Function.update_of_ne (by omega), holds.chars k below]
      · have key := stops.mem (List.getElem_mem below)
        have all : keys = q ++ rest := shape
        exact typed _ (all ▸ List.mem_append_left rest key)
      · rw [count, Function.update_self]
    rw [eq]
    refine .inr ⟨q, rest, line, _, _, _, shape, stops, rfl, rfl, ?_, ?_, count, ?_, inside⟩
    · simpa only [Line.store, index] using held
    · simp only [Line.store, index]
    · simpa only [Line.store, index] using inside

/-- After `a`, a backspace and a newline both readers have stopped. -/
theorem readers_agree_erased :
    (leerLinea 64#32 [0x61#8, backspace, newline] (fun _ => 0xFF#8)
        (vgaStart fun _ => 0#16)).isSome = true ∧
      (sysRead 0x8000#32 64#32 [0x61#8, backspace, newline] (fun _ => 0xFF#8)
        (vgaStart fun _ => 0#16)).isSome = true := by
  rcases readers_agree [0x61#8, backspace, newline] (by decide) 64#32 (by decide) (by decide)
    0x8000#32 (by decide) (fun _ => 0xFF#8) (vgaStart fun _ => 0#16) with
    ⟨-, -, waits⟩ | ⟨q, rest, line, l, l', n, -, -, shell, call, -⟩
  · have open_ := (waits _ (List.prefix_refl _)).1
    exact absurd (by decide) open_
  · rw [shell, call]
    exact ⟨rfl, rfl⟩

/-! ## A line that is read -/

/-- The string in the first `size` characters of a buffer. -/
def bufString (size : Nat) (buf : Int → Byte) : CString :=
  upToNul ((List.range size).map fun k => buf (k : Nat))

/-- What a buffer that holds a string is read as. -/
theorem HoldsString.chars {buf : Int → Byte} {text : List Byte} (holds : HoldsString buf text)
    (size : Nat) (room : text.length < size) :
    (bufString size buf).chars = text := by
  have whole : (List.range text.length).map (fun k => buf (k : Nat)) = text := by
    refine List.ext_getElem (by simp) fun k _ below => ?_
    rw [List.getElem_map, List.getElem_range]
    exact (holds.1 k below).1
  rw [bufString, chars_upToNul_range room holds.2, whole]
  apply chars_upToNul
  intro c member
  obtain ⟨k, below, rfl⟩ := List.getElem_of_mem member
  exact (holds.1 k below).2

/-- Where the editor stops, so does `SYS_READ`, and has its line as the string in the buffer. -/
theorem sysRead_of_run {rest : List Byte} (typed : ∀ c ∈ keys, c ≠ 0#8)
    (nonzero : 1 ≤ max.toNat) {address : Word} (nonnull : address ≠ 0#32)
    (stops : run newline backspace (max.toNat - 1) [] keys = some (line, rest))
    (buf : Int → Byte) (screen : Vga) :
    ∃ n l, sysRead address max keys buf screen = some (n, l, rest) ∧ HoldsString l.buf line ∧
      n.toNat = line.length ∧ ∀ i ∈ l.written, 0 ≤ i ∧ i < max.toNat := by
  have start : HoldsLine max ⟨0#32, buf, [], screen⟩ [] :=
    ⟨rfl, fun k below => absurd below (Nat.not_lt_zero k), by simp⟩
  have some_ : ¬ (address = 0#32 ∨ max = 0#32) := by
    rintro (null | zero)
    · exact nonnull null
    · rw [zero] at nonzero
      exact absurd nonzero (by decide)
  have loop := readLoop_editor nonzero keys start
  have few := length_of_run (Nat.zero_le _) stops
  rw [stops] at loop
  rcases loop with ⟨l, eq, holds⟩
  rw [sysRead, if_neg some_, eq]
  refine ⟨l.i, l.store l.i.toNat 0#8, rfl, ⟨fun k below => ⟨?_, ?_⟩, ?_⟩, holds.count, ?_⟩
  · show Function.update l.buf l.i.toNat 0#8 k = _
    have count := holds.count
    rw [Function.update_of_ne (by omega), holds.chars k below]
  · have key := (mem_of_run stops).1 _ (List.getElem_mem below)
    exact typed _ (key.resolve_left List.not_mem_nil)
  · show Function.update l.buf l.i.toNat 0#8 line.length = 0#8
    rw [holds.count, Function.update_self]
  · intro i member
    have count := holds.count
    rcases List.mem_cons.mp member with rfl | old
    · omega
    · exact holds.inside i old

/-- `leer_linea` does the same to the buffer. -/
theorem leerLinea_of_run {rest : List Byte} (typed : ∀ c ∈ keys, c ≠ 0#8)
    (nonzero : 1 ≤ max.toNat) (small : max.toNat < 2 ^ 31)
    (stops : run newline backspace (max.toNat - 1) [] keys = some (line, rest))
    (buf : Int → Byte) (screen : Vga) :
    ∃ l, leerLinea max keys buf screen = some (l, rest) ∧ HoldsString l.buf line := by
  rcases sysRead_of_run typed nonzero (by decide : 1#32 ≠ 0#32) stops buf screen with
    ⟨n, l, call, holds, count, -⟩
  have some_ : ¬ (1#32 = 0#32 ∨ max = 0#32) := by
    rintro (null | zero)
    · exact absurd null (by decide)
    · rw [zero] at nonzero
      exact absurd nonzero (by decide)
  have few := length_of_run (Nat.zero_le _) stops
  rw [sysRead, if_neg some_] at call
  obtain ⟨⟨u, rest'⟩, loop, same⟩ := Option.map_eq_some_iff.mp call
  cases same
  have count : u.i.toNat = line.length := count
  have index : u.i.toInt = u.i.toNat := BitVec.toInt_eq_toNat_of_lt (by omega)
  have signed := readLoop_signed nonzero small keys (l := ⟨0#32, buf, [], screen⟩) nonzero
  rw [leerLinea, signed, loop]
  exact ⟨_, rfl, index ▸ holds⟩

end Learnix
