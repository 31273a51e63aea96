import Learnix.Fat16List
import Learnix.FileText
import Learnix.Lib.Padded
import Learnix.Vga

/-!
# The names that the shell converts

`to_fat_name` makes the 11 bytes that `fat16_read_file` looks for out of a name as it is
typed. What `fat16_list_root` prints for a valid entry is converted back to the bytes of the
entry (`listed_name_opens`). Of any other name only its 8+3 form counts
(`opened_short_form`): too long a name or extension is cut, and blanks at their ends are
dropped.
-/

namespace Learnix

open Machine Padded

def space : Byte := 0x20#8

def dot : Byte := 0x2E#8

/-- `if (c >= 'a' && c <= 'z') c -= 32`; the characters from 0x80 on are negative. -/
def upperCase (c : Byte) : Byte := if 0x61#8 ≤ c ∧ c ≤ 0x7A#8 then c - 32#8 else c

/-! ## `to_fat_name` -/

/-- The first loop of `to_fat_name`, and the end of its `out`. -/
def clearName (out : Nat → Byte) : Nat → Byte :=
  Function.update ((List.range 11).foldl (fun out i => Function.update out i space) out) 11 0#8

/-- The loop over the name: what is left of `in`, and `out`. -/
def copyStem : List Byte → Nat → (Nat → Byte) → List Byte × (Nat → Byte)
  | [], _, out => ([], out)
  | c :: cs, i, out =>
    if c ≠ dot ∧ i < 8 then copyStem cs (i + 1) (Function.update out i (upperCase c))
    else (c :: cs, out)

def skipToDot : List Byte → List Byte
  | [] => []
  | c :: cs => if c ≠ dot then skipToDot cs else c :: cs

/-- The loop over the extension. -/
def copyExt : List Byte → Nat → (Nat → Byte) → Nat → Byte
  | [], _, out => out
  | c :: cs, j, out =>
    if j < 11 then copyExt cs (j + 1) (Function.update out j (upperCase c)) else out

def toFatName (in_ : CString) (out : Nat → Byte) : Nat → Byte :=
  let copied := copyStem in_.chars 0 (clearName out)
  match skipToDot copied.1 with
  | [] => copied.2
  | _ :: cs => copyExt cs 8 copied.2

/-- The characters of `name` that `fat16_read_file` compares. -/
def nameBytes (name : Nat → Byte) : Fin 11 → Byte := fun c => name c

def beforeDot (cs : List Byte) : List Byte := cs.takeWhile fun c => c ≠ dot

def fromDot (cs : List Byte) : List Byte := cs.dropWhile fun c => c ≠ dot

namespace CString

/-- The characters before the first dot. -/
def stem (s : CString) : List Byte := beforeDot s.chars

/-- The characters after the first dot. -/
def suffix (s : CString) : List Byte := (fromDot s.chars).tail

end CString

variable {s : CString} {e : Entry} {name ext cs : List Byte} {c : Byte} {n : Nat}

theorem beforeDot_dot (cs : List Byte) : beforeDot (dot :: cs) = [] := by
  simp [beforeDot]

theorem beforeDot_cons (other : c ≠ dot) : beforeDot (c :: cs) = c :: beforeDot cs := by
  simp [beforeDot, other]

theorem fromDot_dot (cs : List Byte) : fromDot (dot :: cs) = dot :: cs := by
  simp [fromDot]

theorem fromDot_cons (other : c ≠ dot) : fromDot (c :: cs) = fromDot cs := by
  simp [fromDot, other]

theorem clearName_apply (out : Nat → Byte) (k : Nat) :
    clearName out k = if k < 11 then space else if k = 11 then 0#8 else out k := by
  have fill : ∀ m, (List.range m).foldl (fun out i => Function.update out i space) out k =
      if k < m then space else out k := by
    intro m
    induction m with
    | zero => rfl
    | succ m ih =>
        rw [List.range_succ, List.foldl_append, List.foldl_cons, List.foldl_nil,
          Function.update_apply, ih]
        split <;> split <;> grind
  rw [clearName, Function.update_apply, fill]
  split <;> grind

theorem skipToDot_eq (cs : List Byte) : skipToDot cs = fromDot cs := by
  induction cs with
  | nil => rfl
  | cons c cs ih =>
      by_cases end_ : c = dot
      · rw [end_, skipToDot, if_neg (not_not.mpr rfl), fromDot_dot]
      · rw [skipToDot, if_pos end_, ih, fromDot_cons end_]

/-- What the loop over the name leaves of `in` still has its dot and what comes after. -/
theorem copyStem_rest (cs : List Byte) (i : Nat) (out : Nat → Byte) :
    skipToDot (copyStem cs i out).1 = skipToDot cs := by
  induction cs generalizing i out with
  | nil => rfl
  | cons c cs ih =>
      rw [copyStem]
      split
      · next more => rw [ih, skipToDot, if_pos more.1]
      · rfl

/-- A loop that has stored `v` at `i`, and goes on with `vs` up to `n`. -/
theorem stored_cons {i k : Nat} (v : Byte) (vs : List Byte) (out : Nat → Byte) (room : i < n) :
    (if i + 1 ≤ k ∧ k < n then vs.getD (k - (i + 1)) (Function.update out i v k)
      else Function.update out i v k) =
      if i ≤ k ∧ k < n then (v :: vs).getD (k - i) (out k) else out k := by
  rcases Nat.lt_trichotomy k i with before | rfl | after
  · rw [if_neg (by omega), if_neg (by omega), Function.update_of_ne (by omega)]
  · rw [if_neg (by omega), if_pos ⟨Nat.le_refl _, room⟩, Function.update_self, Nat.sub_self,
      List.getD_cons_zero]
  · have place : k - i = k - (i + 1) + 1 := by omega
    rw [place, List.getD_cons_succ, Function.update_of_ne (by omega)]
    split <;> split <;> first | rfl | omega

/-- The loop over the name stores what comes before the dot, as far as it fits. -/
theorem copyStem_apply (cs : List Byte) (i : Nat) (out : Nat → Byte) (k : Nat) :
    (copyStem cs i out).2 k = if i ≤ k ∧ k < 8 then
        ((beforeDot cs).map upperCase).getD (k - i) (out k)
      else out k := by
  induction cs generalizing i out with
  | nil => exact (ite_self _).symm
  | cons c cs ih =>
      rw [copyStem]
      by_cases end_ : c = dot
      · rw [if_neg fun more => more.1 end_, end_, beforeDot_dot]
        exact (ite_self _).symm
      · rw [beforeDot_cons end_, List.map_cons]
        by_cases room : i < 8
        · rw [if_pos ⟨end_, room⟩, ih]
          exact stored_cons (upperCase c) _ out room
        · rw [if_neg fun more => room more.2, if_neg (by omega)]

theorem copyExt_apply (cs : List Byte) (j : Nat) (out : Nat → Byte) (k : Nat) :
    copyExt cs j out k = if j ≤ k ∧ k < 11 then (cs.map upperCase).getD (k - j) (out k)
      else out k := by
  induction cs generalizing j out with
  | nil => exact (ite_self _).symm
  | cons c cs ih =>
      rw [copyExt, List.map_cons]
      by_cases room : j < 11
      · rw [if_pos room, ih]
        exact stored_cons (upperCase c) _ out room
      · rw [if_neg room, if_neg (by omega)]

/-- `to_fat_name` writes the two parts of the name, padded, and a NUL; nothing behind it. -/
theorem toFatName_apply (s : CString) (out : Nat → Byte) (k : Nat) :
    toFatName s out k =
      if k < 8 then (s.stem.map upperCase).getD k space
      else if k < 11 then (s.suffix.map upperCase).getD (k - 8) space
      else if k = 11 then 0#8 else out k := by
  have parts : toFatName s out k =
      copyExt s.suffix 8 (copyStem s.chars 0 (clearName out)).2 k := by
    rw [toFatName, copyStem_rest, skipToDot_eq, CString.suffix]
    cases fromDot s.chars <;> rfl
  rw [parts, copyExt_apply, copyStem_apply, clearName_apply, Nat.sub_zero, CString.stem]
  split <;> grind

/-! ## Valid names and their text -/

/-- A field whose characters are printed up to the first space, each by `vga_print` as a
string of its own. -/
def fieldText : List Byte → List Byte
  | [] => []
  | c :: cs => if c = space then [] else (charString c).chars ++ fieldText cs

/-- The name of the entry as `fat16_list_root` prints it. -/
def Entry.listText (e : Entry) : List Byte :=
  fieldText (List.ofFn e.name) ++
    if e.ext 0 ≠ space then dot :: fieldText (List.ofFn e.ext) else []

/-- A name and an extension put together. -/
def nameText (name ext : List Byte) : List Byte :=
  name ++ if ext = [] then [] else dot :: ext

/-- No NUL, space, dot or lower-case letter. -/
def NameChar (c : Byte) : Prop :=
  c ≠ 0#8 ∧ c ≠ space ∧ c ≠ dot ∧ ¬ (0x61#8 ≤ c ∧ c ≤ 0x7A#8)

/-- The field holds these characters, which are valid, and then spaces. -/
structure HoldsRun (field : Fin n → Byte) (run : List Byte) : Prop where
  fits : run.length ≤ n
  valid : ∀ c ∈ run, NameChar c
  padded : field = pad space n run

/-- A valid short name. -/
def ShortName (e : Entry) : Prop := ∃ name ext, HoldsRun e.name name ∧ HoldsRun e.ext ext

theorem HoldsRun.solid {field : Fin n → Byte} (holds : HoldsRun field name) : space ∉ name :=
  fun member => (holds.valid space member).2.1 rfl

theorem HoldsRun.noDot {field : Fin n → Byte} (holds : HoldsRun field name) : dot ∉ name :=
  fun member => (holds.valid dot member).2.2.1 rfl

theorem fieldText_append_spaces (solid : ∀ c ∈ name, NameChar c) (k : Nat) :
    fieldText (name ++ List.replicate k space) = name := by
  induction name with
  | nil => cases k <;> rfl
  | cons c cs ih =>
      have here := solid c (List.mem_cons_self ..)
      rw [List.cons_append, fieldText, if_neg here.2.1,
        ih fun d member => solid d (List.mem_cons_of_mem c member), charString, dif_neg here.1]
      rfl

theorem HoldsRun.fieldText {field : Fin n → Byte} (holds : HoldsRun field name) :
    fieldText (List.ofFn field) = name := by
  rw [holds.padded, ofFn_pad holds.fits, fieldText_append_spaces holds.valid]

/-- The text of a valid entry. -/
theorem listText_eq (nameRun : HoldsRun e.name name) (extRun : HoldsRun e.ext ext) :
    e.listText = nameText name ext := by
  rw [Entry.listText, nameText, nameRun.fieldText, extRun.fieldText, extRun.padded]
  cases ext with
  | nil => rfl
  | cons c cs =>
      have solid : c ≠ space := (extRun.valid c (List.mem_cons_self ..)).2.1
      rw [if_neg (List.cons_ne_nil c cs), if_pos (by exact solid)]

/-! ## The text converted back -/

theorem upperCase_eq_dot (c : Byte) : upperCase c = dot ↔ c = dot := by
  revert c
  unfold upperCase dot
  decide

theorem upperCase_eq_space (c : Byte) : upperCase c = space ↔ c = space := by
  revert c
  unfold upperCase space
  decide

theorem map_beforeDot (cs : List Byte) :
    (beforeDot cs).map upperCase = beforeDot (cs.map upperCase) := by
  simp [beforeDot, List.takeWhile_map, Function.comp_def, upperCase_eq_dot]

theorem map_fromDot (cs : List Byte) :
    (fromDot cs).map upperCase = fromDot (cs.map upperCase) := by
  simp [fromDot, List.dropWhile_map, Function.comp_def, upperCase_eq_dot]

theorem beforeDot_nameText (noDot : dot ∉ name) : beforeDot (nameText name ext) = name := by
  induction name with
  | nil => cases ext <;> simp [nameText, beforeDot]
  | cons c cs ih =>
      rw [List.mem_cons, not_or] at noDot
      exact (beforeDot_cons (Ne.symm noDot.1)).trans (congrArg (c :: ·) (ih noDot.2))

theorem fromDot_nameText (noDot : dot ∉ name) : (fromDot (nameText name ext)).tail = ext := by
  induction name with
  | nil => cases ext <;> simp [nameText, fromDot]
  | cons c cs ih =>
      rw [List.mem_cons, not_or] at noDot
      exact (congrArg List.tail (fromDot_cons (Ne.symm noDot.1))).trans (ih noDot.2)

/-- A string that spells a text has its two parts. -/
theorem parts_of_spells (noDot : dot ∉ name)
    (spells : s.chars.map upperCase = nameText name ext) :
    s.stem.map upperCase = name ∧ s.suffix.map upperCase = ext := by
  rw [CString.stem, CString.suffix, map_beforeDot, List.map_tail, map_fromDot, spells]
  exact ⟨beforeDot_nameText noDot, fromDot_nameText noDot⟩

/-- The bytes that are looked for. -/
theorem nameBytes_toFatName (s : CString) (out : Nat → Byte) :
    nameBytes (toFatName s out) =
      Fin.append (pad space 8 (s.stem.map upperCase)) (pad space 3 (s.suffix.map upperCase)) := by
  funext (k : Fin (8 + 3))
  rw [nameBytes, toFatName_apply]
  induction k using Fin.addCases with
  | left i => rw [Fin.append_left, Fin.val_castAdd, if_pos i.isLt, pad]
  | right i => rw [Fin.append_right, Fin.val_natAdd, if_neg (by omega), if_pos (by omega),
      Nat.add_sub_cancel_left, pad]

theorem nameBytes_of_spells (valid : ShortName e) (spells : s.chars.map upperCase = e.listText)
    (out : Nat → Byte) : nameBytes (toFatName s out) = e.fatName := by
  rcases valid with ⟨name, ext, nameRun, extRun⟩
  rw [listText_eq nameRun extRun] at spells
  rcases parts_of_spells nameRun.noDot spells with ⟨stem, suffix⟩
  rw [nameBytes_toFatName, stem, suffix, Entry.fatName, nameRun.padded, extRun.padded]

/-- What `ls` prints for an entry with a valid name, in any case, `to_fat_name` converts to
the bytes of the entry and a NUL, and it stores nothing behind them. So `fat16_read_file`
opens the first entry in use with the name. -/
theorem listed_name_opens (s : CString) (e : Entry) (valid : ShortName e)
    (spells : s.chars.map upperCase = e.listText) (out : Nat → Byte) :
    nameBytes (toFatName s out) = e.fatName ∧ toFatName s out 11 = 0#8 ∧
      (∀ k, 11 < k → toFatName s out k = out k) ∧
      ∀ disk fs i, SlotMatches (slotAt disk fs.rootStart) (slotCount fs) e.fatName i e →
        ∃ j d, j ≤ i ∧ openedEntry disk fs (nameBytes (toFatName s out)) = some d ∧
          FirstMatch (slotAt disk fs.rootStart) (slotCount fs) e.fatName j d := by
  have bytes := nameBytes_of_spells valid spells out
  refine ⟨bytes, ?_, fun k after => ?_, fun disk fs i here => ?_⟩
  · rw [toFatName_apply, if_neg (by omega), if_neg (by omega), if_pos rfl]
  · rw [toFatName_apply, if_neg (by omega), if_neg (by omega), if_neg (by omega)]
  · rw [bytes]
    rcases scanRoot_root disk fs e.fatName with ⟨-, absent⟩ | ⟨j, d, found, first⟩
    · exact absurd here (absent i e)
    · exact ⟨j, d, Nat.le_of_not_lt fun after => first.2 i after e here, found, first⟩

/-- A sector of a directory with one entry of this name. -/
def oneEntry (name : Fin 11 → Byte) : Sector :=
  fun k => if named : k.val < 11 then name ⟨k, named⟩ else 0#8

/-- `hola.txt`, as it is typed. -/
def holaTyped : CString :=
  ⟨[0x68#8, 0x6F#8, 0x6C#8, 0x61#8, 0x2E#8, 0x74#8, 0x78#8, 0x74#8], by decide⟩

/-- The entry of `HOLA.TXT`. -/
def holaEntry : Entry := entryAt (oneEntry (literalName "HOLA    TXT")) 0

theorem holaEntry_valid : ShortName holaEntry := by
  refine ⟨[0x48#8, 0x4F#8, 0x4C#8, 0x41#8], [0x54#8, 0x58#8, 0x54#8], ?_, ?_⟩
  · exact ⟨by decide, by unfold NameChar; decide, by decide +kernel⟩
  · exact ⟨by decide, by unfold NameChar; decide, by decide +kernel⟩

theorem listed_name_opens_hola : toFatName holaTyped (fun _ => 0xFF#8) 11 = 0#8 ∧
    nameBytes (toFatName holaTyped fun _ => 0xFF#8) = holaEntry.fatName := by
  have both := listed_name_opens holaTyped holaEntry holaEntry_valid (by decide +kernel)
    fun _ => 0xFF#8
  exact ⟨both.2.1, both.1⟩

/-! ## Any name that is typed -/

namespace CString

/-- The 8+3 form of a name: its two parts in upper case, cut to 8 and 3 characters, without
spaces at the end. -/
def shortText (s : CString) : List Byte :=
  nameText (trim space 8 (s.stem.map upperCase)) (trim space 3 (s.suffix.map upperCase))

/-- The name is in 8+3 form: no part is too long or has a space, and if there is a dot, one
to three characters come after it, without another. -/
def FitsName (s : CString) : Prop :=
  s.stem.length ≤ 8 ∧ space ∉ s.stem ∧ (dot ∉ s.chars ∨
    s.suffix ≠ [] ∧ s.suffix.length ≤ 3 ∧ space ∉ s.suffix ∧ dot ∉ s.suffix)

/-- What is kept of the parts has no space before another character, and no other dot. -/
def Solid (s : CString) : Prop :=
  space ∉ trim space 8 (s.stem.map upperCase) ∧ space ∉ trim space 3 (s.suffix.map upperCase) ∧
    dot ∉ trim space 3 (s.suffix.map upperCase)

end CString

/-- Every entry in use of the root directory has a valid short name. -/
def ShortNames (disk : Disk) (fs : Fat16) : Prop :=
  ∀ i e, SlotMatches (slotAt disk fs.rootStart) (slotCount fs) e.fatName i e → ShortName e

theorem append_inj {a a' : Fin 8 → Byte} {b b' : Fin 3 → Byte}
    (same : Fin.append a b = Fin.append a' b') : a = a' ∧ b = b' := by
  constructor
  · funext i
    have here := congrFun same (Fin.castAdd 3 i)
    rwa [Fin.append_left, Fin.append_left] at here
  · funext i
    have here := congrFun same (Fin.natAdd 8 i)
    rwa [Fin.append_right, Fin.append_right] at here

/-- The name that an opened entry has. -/
theorem named_of_opened {disk : Disk} {fs : Fat16} {name : Fin 11 → Byte}
    (opened : openedEntry disk fs name = some e) :
    e.fatName = name ∧
      ∃ i, SlotMatches (slotAt disk fs.rootStart) (slotCount fs) e.fatName i e := by
  rcases scanRoot_root disk fs name with ⟨none_, -⟩ | ⟨i, d, found, first⟩
  · exact absurd (none_.symm.trans opened) (Option.some_ne_none e).symm
  · cases found.symm.trans opened
    exact ⟨first.1.named, i, by rw [first.1.named]; exact first.1⟩

/-- A valid entry with the bytes that are looked for has the 8+3 form of the name. -/
theorem runs_of_named {out : Nat → Byte} (nameRun : HoldsRun e.name name)
    (extRun : HoldsRun e.ext ext) (named : e.fatName = nameBytes (toFatName s out)) :
    name = trim space 8 (s.stem.map upperCase) ∧ ext = trim space 3 (s.suffix.map upperCase) := by
  rw [nameBytes_toFatName, Entry.fatName] at named
  rcases append_inj named with ⟨left, right⟩
  exact ⟨eq_trim nameRun.fits nameRun.solid (left.symm.trans nameRun.padded),
    eq_trim extRun.fits extRun.solid (right.symm.trans extRun.padded)⟩

theorem chars_eq (s : CString) : s.chars = s.stem ++ fromDot s.chars :=
  List.takeWhile_append_dropWhile.symm

/-- From the first dot on, if there is one. -/
theorem fromDot_eq (s : CString) :
    fromDot s.chars = if dot ∈ s.chars then dot :: s.suffix else [] := by
  unfold CString.suffix
  induction s.chars with
  | nil => rfl
  | cons c cs ih =>
      by_cases end_ : c = dot
      · rw [end_, fromDot_dot, if_pos (List.mem_cons_self ..), List.tail_cons]
      · simp only [fromDot_cons end_, List.mem_cons, Ne.symm end_, false_or]
        exact ih

theorem not_mem_map_upperCase {l : List Byte} (solid : space ∉ l) : space ∉ l.map upperCase := by
  intro member
  rcases List.mem_map.mp member with ⟨c, inside, eq⟩
  rw [(upperCase_eq_space c).mp eq] at inside
  exact solid inside

/-- A name that spells the text of a valid entry is in 8+3 form. -/
theorem fits_of_spells (nameRun : HoldsRun e.name name) (extRun : HoldsRun e.ext ext)
    (spells : s.chars.map upperCase = nameText name ext) : s.FitsName := by
  rcases parts_of_spells nameRun.noDot spells with ⟨stem, suffix⟩
  refine ⟨?_, fun member => ?_, ?_⟩
  · rw [← List.length_map (f := upperCase), stem]
    exact nameRun.fits
  · exact nameRun.solid (stem ▸ List.mem_map_of_mem (f := upperCase) member)
  · by_cases dotted : dot ∈ s.chars
    · refine .inr ⟨fun none_ => ?_, ?_, fun member => ?_, fun member => ?_⟩
      · rw [none_, List.map_nil] at suffix
        have inText : dot ∈ nameText name ext :=
          spells ▸ List.mem_map_of_mem (f := upperCase) dotted
        rw [← suffix, nameText, if_pos rfl, List.append_nil] at inText
        exact nameRun.noDot inText
      · rw [← List.length_map (f := upperCase), suffix]
        exact extRun.fits
      · exact extRun.solid (suffix ▸ List.mem_map_of_mem (f := upperCase) member)
      · exact extRun.noDot (suffix ▸ List.mem_map_of_mem (f := upperCase) member)
    · exact .inl dotted

/-- In 8+3 form a name is, in upper case, the text of its parts. -/
theorem CString.FitsName.spells (fits : s.FitsName) : s.chars.map upperCase = s.shortText := by
  rcases fits with ⟨short, solid, tail⟩
  rw [chars_eq, List.map_append, CString.shortText, nameText, fromDot_eq,
    trim_of_fits ((List.length_map _).trans_le short) (not_mem_map_upperCase solid)]
  rcases tail with undotted | ⟨some_, few, solid', -⟩
  · have none_ : s.suffix = [] := by
      rw [CString.suffix, fromDot_eq, if_neg undotted, List.tail_nil]
    rw [if_neg undotted, none_]
    rfl
  · have dotted : dot ∈ s.chars := by
      by_contra undotted
      rw [CString.suffix, fromDot_eq, if_neg undotted] at some_
      exact some_ rfl
    rw [if_pos dotted, trim_of_fits ((List.length_map _).trans_le few)
      (not_mem_map_upperCase solid'), if_neg (by simpa using some_)]
    rfl

/-- In a directory of valid short names, a name opens at most the entry of its 8+3 form,
whose text it is exactly if it is in this form itself. Names with other forms never open
the same entry, and one that keeps a space before another character, or another dot, opens
none. -/
theorem opened_short_form (disk : Disk) (fs : Fat16) (valid : ShortNames disk fs) (s : CString)
    (out : Nat → Byte) :
    (∀ e, openedEntry disk fs (nameBytes (toFatName s out)) = some e →
      e.listText = s.shortText ∧ (s.chars.map upperCase = e.listText ↔ s.FitsName)) ∧
    (∀ s' out' e, openedEntry disk fs (nameBytes (toFatName s out)) = some e →
      openedEntry disk fs (nameBytes (toFatName s' out')) = some e →
        s.shortText = s'.shortText) ∧
    (¬ s.Solid → openedEntry disk fs (nameBytes (toFatName s out)) = none) := by
  have short : ∀ (s : CString) out e,
      openedEntry disk fs (nameBytes (toFatName s out)) = some e →
      ∃ name ext, HoldsRun e.name name ∧ HoldsRun e.ext ext ∧
        name = trim space 8 (s.stem.map upperCase) ∧
        ext = trim space 3 (s.suffix.map upperCase) ∧ e.listText = s.shortText := by
    intro s out e opened
    rcases named_of_opened opened with ⟨named, i, here⟩
    rcases valid i e here with ⟨name, ext, nameRun, extRun⟩
    rcases runs_of_named nameRun extRun named with ⟨stem, suffix⟩
    refine ⟨name, ext, nameRun, extRun, stem, suffix, ?_⟩
    rw [listText_eq nameRun extRun, stem, suffix, CString.shortText]
  refine ⟨fun e opened => ?_, fun s' out' e opened opened' => ?_, fun hollow => ?_⟩
  · rcases short s out e opened with ⟨name, ext, nameRun, extRun, -, -, text⟩
    refine ⟨text, fun spells => ?_, fun fits => fits.spells.trans text.symm⟩
    rw [listText_eq nameRun extRun] at spells
    exact fits_of_spells nameRun extRun spells
  · rcases short s out e opened with ⟨-, -, -, -, -, -, text⟩
    rcases short s' out' e opened' with ⟨-, -, -, -, -, -, text'⟩
    exact text.symm.trans text'
  · by_contra some_
    rcases Option.ne_none_iff_exists'.mp some_ with ⟨e, opened⟩
    rcases short s out e opened with ⟨name, ext, nameRun, extRun, stem, suffix, -⟩
    exact hollow ⟨stem ▸ nameRun.solid, suffix ▸ extRun.solid, suffix ▸ extRun.noDot⟩

/-- A directory in which each sector has one entry, with this name. -/
def oneEntryDisk (name : Fin 11 → Byte) : Disk := readable fun _ => oneEntry name

theorem oneEntryDisk_matches {name name' : Fin 11 → Byte} {start : Word} {count i : Nat}
    (here : SlotMatches (slotAt (oneEntryDisk name) start) count name' i e) :
    e = entryAt (oneEntry name) 0 := by
  have first : i = 0 := by
    by_contra later
    rcases here.reached 1 (Nat.one_le_iff_ne_zero.mpr later) with ⟨d, at_, inUse⟩
    cases at_
    exact inUse rfl
  subst first
  exact (Option.some_inj.mp here.here).symm

theorem shortNames_oneEntryDisk {name : Fin 11 → Byte} {fs : Fat16}
    (valid : ShortName (entryAt (oneEntry name) 0)) : ShortNames (oneEntryDisk name) fs :=
  fun _ _ here => oneEntryDisk_matches here ▸ valid

theorem opened_short_form_hola :
    ∃ e, openedEntry (oneEntryDisk (literalName "HOLA    TXT")) fragmentedFs
        (nameBytes (toFatName holaTyped fun _ => 0xFF#8)) = some e ∧
      e.listText = holaTyped.shortText := by
  have opened : openedEntry (oneEntryDisk (literalName "HOLA    TXT")) fragmentedFs
      (nameBytes (toFatName holaTyped fun _ => 0xFF#8)) = some holaEntry := by decide +kernel
  have short := opened_short_form _ fragmentedFs (shortNames_oneEntryDisk holaEntry_valid) holaTyped
    fun _ => 0xFF#8
  exact ⟨holaEntry, opened, (short.1 holaEntry opened).1⟩

/-- `MIARCHIVOLARGO.TXT`, as it is typed. -/
def longTyped : CString :=
  ⟨[0x4D#8, 0x49#8, 0x41#8, 0x52#8, 0x43#8, 0x48#8, 0x49#8, 0x56#8, 0x4F#8, 0x4C#8, 0x41#8, 0x52#8,
    0x47#8, 0x4F#8, 0x2E#8, 0x54#8, 0x58#8, 0x54#8], by decide⟩

/-- The entry of `MIARCHIV.TXT`. -/
def shortEntry : Entry := entryAt (oneEntry (literalName "MIARCHIVTXT")) 0

theorem shortEntry_valid : ShortName shortEntry := by
  refine ⟨[0x4D#8, 0x49#8, 0x41#8, 0x52#8, 0x43#8, 0x48#8, 0x49#8, 0x56#8],
    [0x54#8, 0x58#8, 0x54#8], ?_, ?_⟩
  · exact ⟨by decide, by unfold NameChar; decide, by decide +kernel⟩
  · exact ⟨by decide, by unfold NameChar; decide, by decide +kernel⟩

/-- In a directory with `MIARCHIV.TXT` only, the long name opens this file. -/
theorem long_name_opens :
    ShortNames (oneEntryDisk (literalName "MIARCHIVTXT")) fragmentedFs ∧
      openedEntry (oneEntryDisk (literalName "MIARCHIVTXT")) fragmentedFs
        (nameBytes (toFatName longTyped fun _ => 0x00#8)) = some shortEntry ∧
      longTyped.chars.map upperCase ≠ shortEntry.listText := by
  refine ⟨shortNames_oneEntryDisk shortEntry_valid, ?_, ?_⟩
  · decide +kernel
  · decide +kernel

end Learnix
