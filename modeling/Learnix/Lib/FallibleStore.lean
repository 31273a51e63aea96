import Mathlib.Logic.Function.Basic

/-!
# A store whose operations may fail

A read that succeeds gives the value at its key; a write that succeeds changes the value at its
key, and no other one; an operation that fails changes nothing. After such a history a key has
the value of the last write to it that has succeeded, or the one from the start (`after_eq`).
-/

namespace FallibleStore

/-- An operation and its outcome. -/
inductive Event (K V : Type*)
  | read (k : K) (answer : Option V)
  | write (k : K) (v : V) (done : Bool)

variable {K V : Type*} [DecidableEq K]

def Event.apply : Event K V → (K → V) → K → V
  | .write k v true, store => Function.update store k v
  | .write _ _ false, store => store
  | .read _ _, store => store

/-- The outcome is one that this store may give. -/
def Event.Allowed (store : K → V) : Event K V → Prop
  | .read k (some v) => v = store k
  | .read _ none => True
  | .write _ _ _ => True

/-- The store after these operations. -/
def after (store : K → V) (events : List (Event K V)) : K → V :=
  events.foldl (fun store e => e.apply store) store

/-- Every outcome is one that the store may give at its time. -/
inductive History : (K → V) → List (Event K V) → Prop
  | nil {store : K → V} : History store []
  | cons {store : K → V} {e : Event K V} {events : List (Event K V)} :
    e.Allowed store → History (e.apply store) events → History store (e :: events)

/-- What is known of the last write to this key after an operation. -/
def Event.lastWrite (k : K) (last : Option V) : Event K V → Option V
  | .write k' v true => if k = k' then some v else last
  | .write _ _ false => last
  | .read _ _ => last

/-- The value of the last write to this key that has succeeded, if there is one; `last` is that
of the operations before. -/
def lastWrite (k : K) (last : Option V) (events : List (Event K V)) : Option V :=
  events.foldl (Event.lastWrite k) last

variable {store : K → V} {events : List (Event K V)} {k : K} {last : Option V}

theorem after_eq_getD (same : store k = last.getD v) :
    after store events k = (lastWrite k last events).getD v := by
  induction events generalizing store last with
  | nil => exact same
  | cons e events ih =>
      rcases e with ⟨k', answer⟩ | ⟨k', w, done⟩
      · exact ih same
      · cases done with
        | false => exact ih same
        | true =>
            apply ih
            show Function.update store k' w k = _
            by_cases here : k = k'
            · rw [here, Function.update_self, Event.lastWrite, if_pos rfl]
              rfl
            · rw [Function.update_of_ne here, Event.lastWrite, if_neg here]
              exact same

/-- A key has the value of the last write to it that has succeeded, or that of the start. -/
theorem after_eq (store : K → V) (events : List (Event K V)) (k : K) :
    after store events k = (lastWrite k none events).getD (store k) :=
  after_eq_getD rfl

end FallibleStore
