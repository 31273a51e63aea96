import Learnix.Lib.Decimal
import Learnix.Process
import Learnix.ScreenText

/-!
# The statistics of the processes

`process_print_stats` shows the current process and the one after it, one in each of the two
rows that are left. The ticks of a process are turned to digits in a buffer of 10 bytes that
is filled from its end, and which also takes the NUL: there is room for nine digits
(`stats_in_buffer_iff`).
-/

namespace Learnix

open Machine Decimal

/-- `while (n > 0) { buf[--idx] = '0' + (n % 10); n /= 10; }`: `idx` and the buffer after it. -/
def ticksLoop (n : Word) (idx : Int) (d : Digits) : Int × Digits :=
  if 0#32 < n then
    ticksLoop (n / 10#32) (idx - 1) (d.store (idx - 1) ((0x30#32 + n % 10#32).setWidth 8))
  else (idx, d)
termination_by n.toNat
decreasing_by
  have pos : 0 < n.toNat := ‹0#32 < n›
  exact BitVec.toNat_udiv.trans_lt (Nat.div_lt_self pos (by decide))

/-- The digits of the ticks: `idx` and the buffer, which held this before. -/
def ticksDigits (ticksTotal : Word) (buf : Int → Byte) : Int × Digits :=
  let d := (⟨buf, []⟩ : Digits).store 9 0#8
  if ticksTotal = 0#32 then (8, d.store 8 0x30#8) else ticksLoop ticksTotal 9 d

/-- The string at `buf + idx`; it ends at index 9 at the latest. -/
def ticksText (r : Int × Digits) : CString :=
  upToNul ((List.range (9 - r.1).toNat).map fun (k : Nat) => r.2.buf (r.1 + k))

/-- What one round of the loop shows of a process in this row. -/
def printProcess (b : Pcb) (row : Int) (r : Int × Digits) (screen : Vga) : Vga :=
  vgaPrintAt (ticksText r) 15 row
    (vgaPrintAt (literalText " ticks=") 8 row
      (vgaPrintAt (upToNul b.name) 0 row (vgaSetColor 15#8 0#8 screen)))

/-- The loop from the process `p` and this row on, with `n` rows to go, one at least. Row for
row `stack` is what the buffer holds before. The processes are listed with `idx` and the
buffer of each. -/
def statsLoop (s : ProcState) (stack : Int → Int → Byte) :
    Nat → Word → Int → Vga → List (Pcb × Int × Digits) × Vga
  | 0, _, _, screen => ([], screen)
  | n + 1, p, row, screen =>
    let b := s.pcb p
    let r := ticksDigits b.ticksTotal (stack row)
    let screen := printProcess b row r screen
    if b.next ≠ s.currentProcess then
      let rest := statsLoop s stack n b.next (row + 1) screen
      ((b, r) :: rest.1, rest.2)
    else ([(b, r)], screen)

def processPrintStats (s : ProcState) (stack : Int → Int → Byte) (screen : Vga) :
    List (Pcb × Int × Digits) × Vga :=
  if s.currentProcess = 0#32 then ([], screen)
  else
    statsLoop s stack 2 s.currentProcess 23
      (vgaPrintAt (literalText "[PROC] Estadisticas CPU:") 0 22 (vgaSetColor 11#8 0#8 screen))

/-- For each process that is shown the buffer was written at the indices from 0 to 9 only, and
the string that is printed is the decimal numeral of its ticks. -/
def StatsInBuffer (s : ProcState) (stack : Int → Int → Byte) (screen : Vga) : Prop :=
  ∀ e ∈ (processPrintStats s stack screen).1,
    (∀ i ∈ e.2.2.written, 0 ≤ i ∧ i ≤ 9) ∧
      IsNumeral e.1.ticksTotal.toNat (ticksText e.2).chars

/-- The processes that are shown: the current one and, if there is another, the next one. -/
def shownProcesses (s : ProcState) : List Word :=
  if s.currentProcess = 0#32 then []
  else if (s.pcb s.currentProcess).next = s.currentProcess then [s.currentProcess]
  else [s.currentProcess, (s.pcb s.currentProcess).next]

variable {s : ProcState} {stack : Int → Int → Byte} {screen : Vga} {n : Word} {idx : Int}
  {d : Digits} {buf : Int → Byte}

/-! ## The digits -/

theorem digit_eq (n : Word) : (0x30#32 + n % 10#32).setWidth 8 = digitChar (n.toNat % 10) := by
  apply BitVec.eq_of_toNat_eq
  rw [toNat_digitChar (Nat.mod_lt _ (by decide))]
  simp only [BitVec.toNat_setWidth, BitVec.toNat_add, BitVec.toNat_umod, BitVec.toNat_ofNat,
    Nat.reducePow, Nat.reduceMod]
  omega

/-- `r` is what is left of `idx` and the buffer when the digits of `n` have been stored from the
index before `idx` down, the last one first. -/
structure DigitsStored (n : Nat) (idx : Int) (d : Digits) (r : Int × Digits) : Prop where
  index : r.1 = idx - (lastFirst n).length
  stored : ∀ k (below : k < (lastFirst n).length), r.2.buf (idx - 1 - k) = (lastFirst n)[k]
  kept : ∀ j, idx ≤ j → r.2.buf j = d.buf j
  written : ∀ i, i ∈ r.2.written ↔
    i ∈ d.written ∨ idx - (lastFirst n).length ≤ i ∧ i < idx

theorem digitsStored_zero (idx : Int) (d : Digits) : DigitsStored 0 idx d (idx, d) := by
  have none : (lastFirst 0).length = 0 := by rw [lastFirst_zero, List.length_nil]
  refine ⟨by rw [none]; exact (Int.sub_zero idx).symm, fun k below => ?_, fun _ _ => rfl,
    fun i => ?_⟩
  · omega
  · rw [none]
    exact ⟨.inl, fun here => here.elim id fun inside => by omega⟩

/-- One round of the loop. -/
theorem DigitsStored.round {m : Nat} {r : Int × Digits} (pos : 0 < m)
    (rest : DigitsStored (m / 10) (idx - 1) (d.store (idx - 1) (digitChar (m % 10))) r) :
    DigitsStored m idx d r := by
  rcases rest with ⟨index, stored, kept, written⟩
  have count : (lastFirst m).length = (lastFirst (m / 10)).length + 1 := by
    rw [lastFirst_of_pos pos, List.length_cons]
  refine ⟨by rw [index]; omega, fun k below => ?_, fun j after => ?_, fun i => ?_⟩
  · simp only [lastFirst_of_pos pos]
    cases k with
    | zero =>
        rw [Nat.cast_zero, Int.sub_zero, kept _ (Int.le_refl _)]
        exact Function.update_self ..
    | succ k =>
        have place : idx - 1 - ((k + 1 : Nat) : Int) = idx - 1 - 1 - k := by omega
        rw [place]
        exact stored k (by omega)
  · rw [kept j (by omega)]
    exact Function.update_of_ne (by omega) _ _
  · rw [written, Digits.store, List.mem_cons]
    constructor
    · intro here
      rcases here with (last | old) | inside
      · exact .inr (by omega)
      · exact .inl old
      · exact .inr (by omega)
    · intro here
      rcases here with old | inside
      · exact .inl (.inr old)
      · rcases Int.lt_or_eq_of_le (by omega : i ≤ idx - 1) with before | last
        · exact .inr (by omega)
        · exact .inl (.inl last)

/-- The loop stores the digits of the number. -/
theorem ticksLoop_eq (n : Word) (idx : Int) (d : Digits) :
    DigitsStored n.toNat idx d (ticksLoop n idx d) := by
  induction n, idx, d using ticksLoop.induct with
  | case1 n idx d more ih =>
      have tenth : (n / 10#32).toNat = n.toNat / 10 := BitVec.toNat_udiv
      rw [tenth, digit_eq] at ih
      rw [ticksLoop, if_pos more, digit_eq]
      exact ih.round more
  | case2 n idx d done =>
      have zero : n.toNat = 0 := Nat.eq_zero_of_not_pos done
      rw [ticksLoop, if_neg done, zero]
      exact digitsStored_zero idx d

/-- The string is the numeral of the ticks, whether or not it begins inside of the buffer. -/
theorem isNumeral_ticksText (n : Word) (buf : Int → Byte) :
    IsNumeral n.toNat (ticksText (ticksDigits n buf)).chars := by
  by_cases zero : n = 0#32
  · have text : (ticksText (ticksDigits n buf)).chars = [0x30#8] := by
      rw [zero]
      rfl
    rw [text, zero]
    exact isNumeral_zero
  · have pos : 0 < n.toNat := Nat.pos_of_ne_zero fun none => zero (BitVec.eq_of_toNat_eq none)
    rw [ticksDigits]
    simp only [if_neg zero]
    rcases ticksLoop_eq n 9 ((⟨buf, []⟩ : Digits).store 9 0#8) with ⟨count, stored, -, -⟩
    have digits : (List.range (9 - (ticksLoop n 9 ((⟨buf, []⟩ : Digits).store 9 0#8)).1).toNat).map
        (fun (k : Nat) => (ticksLoop n 9 ((⟨buf, []⟩ : Digits).store 9 0#8)).2.buf
          ((ticksLoop n 9 ((⟨buf, []⟩ : Digits).store 9 0#8)).1 + k)) =
        (lastFirst n.toNat).reverse := by
      rw [count]
      refine List.ext_getElem (by simp) fun k _ below => ?_
      rw [List.length_reverse] at below
      have place : (9 : Int) - (lastFirst n.toNat).length + k =
          9 - 1 - ((lastFirst n.toNat).length - 1 - k : Nat) := by omega
      rw [List.getElem_map, List.getElem_range, place, stored _ (by omega), List.getElem_reverse]
    have numeral := isNumeral_reverse pos
    rw [ticksText, digits, chars_upToNul]
    · exact numeral
    · intro c member nul
      have digit := numeral.digits c member
      rw [nul] at digit
      exact absurd digit.1 (by decide)

/-- The buffer has room for nine digits. -/
theorem ticksDigits_written_iff (n : Word) (buf : Int → Byte) :
    (∀ i ∈ (ticksDigits n buf).2.written, 0 ≤ i ∧ i ≤ 9) ↔ n.toNat < 10 ^ 9 := by
  rw [← length_lastFirst_le_iff]
  rw [ticksDigits]
  by_cases zero : n = 0#32
  · rw [zero]
    simp only [if_pos]
    refine iff_of_true ?_ (by decide)
    simp [Digits.store]
  · simp only [if_neg zero]
    rcases ticksLoop_eq n 9 ((⟨buf, []⟩ : Digits).store 9 0#8) with ⟨-, -, -, written⟩
    have before (i : Int) : i ∈ ((⟨buf, []⟩ : Digits).store 9 0#8).written ↔ i = 9 :=
      List.mem_singleton
    simp only [written, before]
    constructor
    · intro inside
      by_contra many
      have low := (inside (9 - (lastFirst n.toNat).length) (.inr ⟨Int.le_refl _, by omega⟩)).1
      omega
    · intro few i here
      rcases here with rfl | stored
      · decide
      · omega

/-! ## The processes -/

/-- What is known of the digits of one process. -/
def TicksInBuffer (b : Pcb) (r : Int × Digits) : Prop :=
  (∀ i ∈ r.2.written, 0 ≤ i ∧ i ≤ 9) ∧ IsNumeral b.ticksTotal.toNat (ticksText r).chars

theorem ticksInBuffer_iff (b : Pcb) (buf : Int → Byte) :
    TicksInBuffer b (ticksDigits b.ticksTotal buf) ↔ b.ticksTotal.toNat < 10 ^ 9 := by
  rw [← ticksDigits_written_iff b.ticksTotal buf]
  constructor
  · intro inBuffer
    exact inBuffer.1
  · intro inside
    exact ⟨inside, isNumeral_ticksText b.ticksTotal buf⟩

/-- One row of the loop. -/
theorem statsLoop_succ (s : ProcState) (stack : Int → Int → Byte) (n : Nat) (p : Word) (row : Int)
    (screen : Vga) :
    ∃ screen', (statsLoop s stack (n + 1) p row screen).1 =
      (s.pcb p, ticksDigits (s.pcb p).ticksTotal (stack row)) ::
        if (s.pcb p).next ≠ s.currentProcess then
          (statsLoop s stack n (s.pcb p).next (row + 1) screen').1
        else [] := by
  refine ⟨printProcess (s.pcb p) row (ticksDigits (s.pcb p).ticksTotal (stack row)) screen, ?_⟩
  rw [statsLoop]
  simp only
  split <;> rfl

/-- Two rows are left at most. -/
theorem processPrintStats_shown (s : ProcState) (stack : Int → Int → Byte) (screen : Vga) :
    (processPrintStats s stack screen).1 = (shownProcesses s).mapIdx fun i p =>
      (s.pcb p, ticksDigits (s.pcb p).ticksTotal (stack (23 + i))) := by
  unfold processPrintStats shownProcesses
  by_cases none : s.currentProcess = 0#32
  · rw [if_pos none, if_pos none]
    rfl
  · rw [if_neg none, if_neg none]
    rcases statsLoop_succ s stack 1 s.currentProcess 23
      (vgaPrintAt (literalText "[PROC] Estadisticas CPU:") 0 22 (vgaSetColor 11#8 0#8 screen))
      with ⟨screen', first⟩
    rw [first]
    by_cases alone : (s.pcb s.currentProcess).next = s.currentProcess
    · rw [if_pos alone, if_neg (not_not.mpr alone)]
      rfl
    · rcases statsLoop_succ s stack 0 (s.pcb s.currentProcess).next (23 + 1) screen' with
        ⟨screen'', second⟩
      rw [if_neg alone, if_pos alone, second, statsLoop, ite_self]
      rfl

/-- Whatever the processes, the buffer and the screen: the digits are stored inside of the
buffer, and are the decimal numeral of the ticks, exactly if no process that is shown has
counted 10 ^ 9 ticks. -/
theorem stats_in_buffer_iff (s : ProcState) (stack : Int → Int → Byte) (screen : Vga) :
    StatsInBuffer s stack screen ↔
      ∀ p ∈ shownProcesses s, (s.pcb p).ticksTotal.toNat < 10 ^ 9 := by
  have entries : StatsInBuffer s stack screen ↔ ∀ e ∈ (shownProcesses s).mapIdx fun i p =>
      (s.pcb p, ticksDigits (s.pcb p).ticksTotal (stack (23 + i))), TicksInBuffer e.1 e.2 := by
    rw [StatsInBuffer, processPrintStats_shown]
    rfl
  rw [entries]
  constructor
  · intro all p member
    rcases List.mem_iff_getElem.mp member with ⟨i, below, rfl⟩
    exact (ticksInBuffer_iff _ _).mp
      (all _ (List.mem_mapIdx.mpr ⟨i, below, rfl⟩))
  · intro few e member
    rcases List.mem_mapIdx.mp member with ⟨i, below, rfl⟩
    exact (ticksInBuffer_iff _ _).mpr (few _ (List.getElem_mem below))

/-- One process, that has counted so many ticks. -/
def oneProcess (ticks : Word) : ProcState where
  pcb := fun _ => ⟨1#32, .running, 0#32, 0#32, 0#32, [], ticks, 0#32, 0x200000#32⟩
  mem := fun _ => 0#8
  currentProcess := 0x200000#32
  nextPid := 2#32
  tickCount := 0#32
  schedulerRunning := true

/-- After 10 ^ 9 ticks the first digit is stored in front of the buffer. -/
theorem stats_before_buffer :
    (∃ e ∈ (processPrintStats (oneProcess 1000000000#32) (fun _ _ => 0#8)
      (vgaStart fun _ => 0#16)).1, -1 ∈ e.2.2.written) ∧
      ¬ StatsInBuffer (oneProcess 1000000000#32) (fun _ _ => 0#8) (vgaStart fun _ => 0#16) := by
  have ten : (lastFirst 1000000000).length = 10 :=
    Nat.le_antisymm ((length_lastFirst_le_iff 10 _).mpr (by decide))
      (Nat.lt_of_not_le (mt (length_lastFirst_le_iff 9 _).mp (by decide)))
  have early : -1 ∈ (ticksDigits 1000000000#32 fun _ => 0#8).2.written := by
    rcases ticksLoop_eq 1000000000#32 9 ((⟨fun _ => 0#8, []⟩ : Digits).store 9 0#8) with
      ⟨-, -, -, written⟩
    have number : (1000000000#32 : Word).toNat = 1000000000 := rfl
    rw [number, ten] at written
    exact (written (-1)).mpr (.inr (by decide))
  have member : ((oneProcess 1000000000#32).pcb 0x200000#32,
      ticksDigits 1000000000#32 fun _ => 0#8) ∈
      (processPrintStats (oneProcess 1000000000#32) (fun _ _ => 0#8)
        (vgaStart fun _ => 0#16)).1 := by
    rw [processPrintStats_shown]
    exact List.mem_singleton_self _
  refine ⟨⟨_, member, early⟩, fun inBuffer => ?_⟩
  exact absurd ((inBuffer _ member).1 (-1) early).1 (by decide)

end Learnix
