import Mathlib.Data.List.Induction

/-!
# A line editor

The line that some keys leave behind: a backspace drops the last character, if there is
one, and any other key is appended. The editor reads until the first newline, or until the
line is full; `run` does so on a list of keys, and `run_cases` says that it stops at the
first place where it may.
-/

namespace LineEditor

variable {α : Type*} [DecidableEq α]

def edit (backspace : α) (line : List α) (c : α) : List α :=
  if c = backspace then line.dropLast else line ++ [c]

/-- The line that the keys leave. -/
def lineOf (backspace : α) (keys : List α) : List α := keys.foldl (edit backspace) []

/-- After these keys another one is read. -/
def Open (newline backspace : α) (limit : Nat) (keys : List α) : Prop :=
  newline ∉ keys ∧ (lineOf backspace keys).length < limit

/-- After these keys, and not before, the editor stops with this line: the last key is the
first newline, or the line is full. -/
structure Stops (newline backspace : α) (limit : Nat) (keys line : List α) : Prop where
  before : ∀ q, q <+: keys → q ≠ keys → Open newline backspace limit q
  ends : (∃ q, keys = q ++ [newline] ∧ line = lineOf backspace q) ∨
    (newline ∉ keys ∧ line = lineOf backspace keys ∧ line.length = limit)

/-- The line, and the keys that were not read; `none` if more keys are needed. -/
def run (newline backspace : α) (limit : Nat) : List α → List α → Option (List α × List α)
  | line, [] => if line.length < limit then none else some (line, [])
  | line, c :: keys =>
    if line.length < limit then
      if c = newline then some (line, keys)
      else run newline backspace limit (edit backspace line c) keys
    else some (line, c :: keys)

variable {newline backspace c : α} {limit : Nat} {line keys p q : List α}

theorem lineOf_concat (backspace c : α) (keys : List α) :
    lineOf backspace (keys ++ [c]) = edit backspace (lineOf backspace keys) c :=
  List.foldl_append ..

theorem length_edit_le : (edit backspace line c).length ≤ line.length + 1 := by
  unfold edit
  split
  · rw [List.length_dropLast]
    omega
  · exact Nat.le_of_eq List.length_append

theorem mem_edit {d : α} (member : d ∈ edit backspace line c) : d ∈ line ∨ d = c := by
  unfold edit at member
  split at member
  · exact .inl (List.dropLast_subset _ member)
  · exact (List.mem_append.mp member).imp_right List.mem_singleton.mp

/-- The line has no characters but those of the keys. -/
theorem mem_of_mem_lineOf {d : α} (member : d ∈ lineOf backspace keys) : d ∈ keys := by
  induction keys using List.reverseRecOn with
  | nil => exact member
  | append_singleton keys c ih =>
      rw [lineOf_concat] at member
      rcases mem_edit member with old | rfl
      · exact List.mem_append_left _ (ih old)
      · exact List.mem_append_right _ (List.mem_singleton_self d)

theorem Stops.length_le (stops : Stops newline backspace limit keys line) :
    line.length ≤ limit := by
  rcases stops.ends with ⟨q, rfl, rfl⟩ | ⟨-, -, full⟩
  · exact Nat.le_of_lt (stops.before q (List.prefix_append ..) (by simp)).2
  · exact Nat.le_of_eq full

theorem Stops.mem (stops : Stops newline backspace limit keys line) {d : α} (member : d ∈ line) :
    d ∈ keys := by
  rcases stops.ends with ⟨q, rfl, rfl⟩ | ⟨-, rfl, -⟩
  · exact List.mem_append_left _ (mem_of_mem_lineOf member)
  · exact mem_of_mem_lineOf member

/-- The keys before the last one are read by an editor that has not stopped. -/
theorem open_of_prefix_concat (open_ : Open newline backspace limit p)
    (before : ∀ q, q <+: p → q ≠ p → Open newline backspace limit q)
    (part : q <+: p ++ [c]) (other : q ≠ p ++ [c]) : Open newline backspace limit q := by
  rcases List.prefix_concat_iff.mp part with whole | part
  · exact absurd whole other
  · by_cases all : q = p
    · exact all ▸ open_
    · exact before q part all

/-- Where the keys `p` have been read, the editor stops at the first place where it may, or
goes on after all of the keys. -/
theorem run_cases (newline backspace : α) (limit : Nat) (keys p : List α)
    (before : ∀ q, q <+: p → q ≠ p → Open newline backspace limit q)
    (oneLine : newline ∉ p) (few : (lineOf backspace p).length ≤ limit) :
    (run newline backspace limit (lineOf backspace p) keys = none ∧
      ∀ q, q <+: p ++ keys → Open newline backspace limit q) ∨
    ∃ q line rest, run newline backspace limit (lineOf backspace p) keys = some (line, rest) ∧
      p ++ keys = q ++ rest ∧ Stops newline backspace limit q line := by
  induction keys generalizing p with
  | nil =>
      rw [run, List.append_nil]
      by_cases room : (lineOf backspace p).length < limit
      · rw [if_pos room]
        refine .inl ⟨rfl, fun q part => ?_⟩
        by_cases all : q = p
        · exact all ▸ ⟨oneLine, room⟩
        · exact before q part all
      · rw [if_neg room]
        exact .inr ⟨p, _, [], rfl, (List.append_nil p).symm, before,
          .inr ⟨oneLine, rfl, Nat.le_antisymm few (Nat.not_lt.mp room)⟩⟩
  | cons c keys ih =>
      rw [run]
      by_cases room : (lineOf backspace p).length < limit
      · rw [if_pos room]
        have before' : ∀ q, q <+: p ++ [c] → q ≠ p ++ [c] → Open newline backspace limit q :=
          fun q part other => open_of_prefix_concat ⟨oneLine, room⟩ before part other
        have shape : p ++ c :: keys = p ++ [c] ++ keys := List.append_cons ..
        by_cases end_ : c = newline
        · rw [if_pos end_]
          exact .inr ⟨p ++ [c], _, keys, rfl, shape, before', .inl ⟨p, by rw [end_], rfl⟩⟩
        · have oneLine' : newline ∉ p ++ [c] := by
            simp [oneLine, Ne.symm end_]
          rw [if_neg end_, ← lineOf_concat, shape]
          exact ih (p ++ [c]) before' oneLine'
            (by rw [lineOf_concat]; exact Nat.le_trans length_edit_le room)
      · rw [if_neg room]
        exact .inr ⟨p, _, c :: keys, rfl, rfl, before,
          .inr ⟨oneLine, rfl, Nat.le_antisymm few (Nat.not_lt.mp room)⟩⟩

/-- The editor takes its line, and what it leaves, from the keys. -/
theorem mem_of_run {line' rest : List α}
    (stops : run newline backspace limit line keys = some (line', rest)) :
    (∀ c ∈ line', c ∈ line ∨ c ∈ keys) ∧ (∀ c ∈ rest, c ∈ keys) := by
  induction keys generalizing line with
  | nil =>
      unfold run at stops
      split at stops
      · cases stops
      · cases stops
        exact ⟨fun c member => .inl member, fun c member => member⟩
  | cons d keys ih =>
      unfold run at stops
      split at stops
      · split at stops
        · cases stops
          exact ⟨fun c member => .inl member, fun c member => List.mem_cons_of_mem d member⟩
        · rcases ih stops with ⟨chars, left⟩
          refine ⟨fun c member => ?_, fun c member => List.mem_cons_of_mem d (left c member)⟩
          rcases chars c member with edited | later
          · rcases mem_edit edited with old | rfl
            · exact .inl old
            · exact .inr List.mem_cons_self
          · exact .inr (List.mem_cons_of_mem d later)
      · cases stops
        exact ⟨fun c member => .inl member, fun c member => member⟩

/-- The line has room for what the editor leaves in it. -/
theorem length_of_run {line' rest : List α} (few : line.length ≤ limit)
    (stops : run newline backspace limit line keys = some (line', rest)) :
    line'.length ≤ limit := by
  induction keys generalizing line with
  | nil =>
      unfold run at stops
      split at stops
      · cases stops
      · cases stops
        exact few
  | cons d keys ih =>
      unfold run at stops
      split at stops
      · next room =>
        split at stops
        · cases stops
          exact few
        · exact ih (Nat.le_trans length_edit_le room) stops
      · cases stops
        exact few

/-- A line that is typed without an erasure, and has room. -/
theorem run_append_newline {text rest : List α} (plain : ∀ c ∈ text, c ≠ newline ∧ c ≠ backspace)
    (room : line.length + text.length < limit) :
    run newline backspace limit line (text ++ newline :: rest) = some (line ++ text, rest) := by
  induction text generalizing line with
  | nil =>
      rw [List.nil_append, run, if_pos (by simpa using room), if_pos rfl, List.append_nil]
  | cons c text ih =>
      rw [List.length_cons] at room
      rcases plain c List.mem_cons_self with ⟨goesOn, kept⟩
      rw [List.cons_append, run, if_pos (by omega), if_neg goesOn, edit, if_neg kept,
        ih (fun d member => plain d (List.mem_cons_of_mem c member))
          (by rw [List.length_append, List.length_singleton]; omega), List.append_assoc]
      rfl

/-- Where the editor stops behind a newline, its line is what the keys before have left. -/
theorem lineOf_of_run {rest : List α}
    (stops : run newline backspace limit [] (keys ++ newline :: rest) = some (line, rest)) :
    line = lineOf backspace keys := by
  have open_ (q : List α) (part : q <+: []) (other : q ≠ []) : Open newline backspace limit q :=
    absurd (List.prefix_nil.mp part) other
  rcases run_cases newline backspace limit (keys ++ newline :: rest) [] open_ List.not_mem_nil
    (Nat.zero_le _) with ⟨none_, -⟩ | ⟨read, line', rest', some_, split, stopped⟩
  · exact absurd (none_.symm.trans stops) (Option.some_ne_none _).symm
  · cases some_.symm.trans stops
    have whole : keys ++ [newline] = read :=
      List.append_cancel_right ((List.append_cons keys newline rest).symm.trans split)
    rcases stopped.ends with ⟨typed, last, edited⟩ | ⟨oneLine, -⟩
    · rw [edited, (List.append_inj' (whole.trans last) rfl).1]
    · rw [← whole] at oneLine
      exact absurd (List.mem_append_right keys (List.mem_singleton_self newline)) oneLine

/-! ## An editor that does not stop -/

/-- A newline leaves the line alone, and a key for which there is no room is lost. -/
def editWithin (newline backspace : α) (limit : Nat) (line : List α) (c : α) : List α :=
  if c = newline then line
  else if c = backspace then line.dropLast
  else if line.length < limit then line ++ [c] else line

/-- The line that the keys leave. -/
def lineWithin (newline backspace : α) (limit : Nat) (line keys : List α) : List α :=
  keys.foldl (editWithin newline backspace limit) line

/-- Where an editor stops at a newline, one with as much room or more has the same line. -/
theorem lineWithin_of_run {line' rest : List α} {limit' : Nat} (more : limit ≤ limit')
    (stops : run newline backspace limit line (keys ++ newline :: rest) = some (line', rest)) :
    lineWithin newline backspace limit' line (keys ++ [newline]) = line' := by
  have longer {l : List α} (same : l ++ newline :: rest = rest) : False := by
    have lengths := congrArg List.length same
    rw [List.length_append, List.length_cons] at lengths
    omega
  induction keys generalizing line with
  | nil =>
      rw [List.nil_append, run, if_pos rfl] at stops
      split at stops
      · cases stops
        exact if_pos rfl
      · exact (longer (l := []) (Prod.mk.inj (Option.some.inj stops)).2).elim
  | cons c keys ih =>
      rw [List.cons_append, run] at stops
      split at stops
      · next room =>
        split at stops
        · exact (longer (Prod.mk.inj (Option.some.inj stops)).2).elim
        · next goesOn =>
          have same : editWithin newline backspace limit' line c = edit backspace line c := by
            rw [editWithin, if_neg goesOn, edit, if_pos (Nat.lt_of_lt_of_le room more)]
          rw [← ih stops, List.cons_append, lineWithin, List.foldl_cons, same]
          rfl
      · exact (longer (l := c :: keys) (Prod.mk.inj (Option.some.inj stops)).2).elim

end LineEditor
