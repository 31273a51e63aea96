import Mathlib.Data.List.Chain
import Mathlib.Data.List.Nodup
import Mathlib.Dynamics.PeriodicPts.Lemmas

/-!
# Circular linked lists

Nodes of type `α` with a successor function `next`. `IsRing next a l`: from `a`,
`next` passes through the nodes of `l` in order and comes back to `a`, and no
node occurs twice. A ring can be read from any of its nodes (`IsRing.rotate`)
and grows by redirecting its last node (`IsRing.insert`).
-/

namespace CircularList

variable {α : Type*} {next next' : α → α} {a b x z : α} {l l₁ l₂ : List α} {k : Nat}

/-- From `a`, `next` passes through `l` in order and ends at `z`. -/
def Path (next : α → α) (a : α) (l : List α) (z : α) : Prop :=
  (a :: (l ++ [z])).IsChain fun x y => next x = y

theorem path_nil : Path next a [] z ↔ next a = z := by
  simp [Path]

theorem path_cons : Path next a (b :: l) z ↔ next a = b ∧ Path next b l z := by
  unfold Path
  rw [List.cons_append, List.isChain_cons_cons]

theorem path_append :
    Path next a (l₁ ++ b :: l₂) z ↔ Path next a l₁ b ∧ Path next b l₂ z := by
  unfold Path
  rw [List.append_assoc, List.cons_append, ← List.cons_append, List.isChain_split,
    List.cons_append]

/-- A path depends on the successors of its own nodes only. -/
theorem Path.congr (path : Path next a l z) (same : ∀ x ∈ a :: l, next' x = next x) :
    Path next' a l z := by
  induction l generalizing a with
  | nil => exact path_nil.mpr ((same a List.mem_cons_self).trans (path_nil.mp path))
  | cons b l ih =>
      obtain ⟨first, rest⟩ := path_cons.mp path
      exact path_cons.mpr ⟨(same a List.mem_cons_self).trans first,
        ih rest fun x member => same x (List.mem_cons_of_mem _ member)⟩

/-- The nodes of a path, by number of steps. -/
theorem Path.iterate (path : Path next a l z) (bound : k < (a :: l).length) :
    next^[k] a = (a :: l)[k] := by
  induction l generalizing a k with
  | nil =>
      have zero : k = 0 := Nat.lt_one_iff.mp bound
      subst zero
      rfl
  | cons b l ih =>
      obtain ⟨first, rest⟩ := path_cons.mp path
      cases k with
      | zero => rfl
      | succ k =>
          rw [Function.iterate_succ_apply, first]
          exact ih rest (Nat.lt_of_succ_lt_succ bound)

theorem Path.iterate_length (path : Path next a l z) : next^[l.length + 1] a = z := by
  induction l generalizing a with
  | nil => exact path_nil.mp path
  | cons b l ih =>
      obtain ⟨first, rest⟩ := path_cons.mp path
      rw [List.length_cons, Function.iterate_succ_apply, first]
      exact ih rest

/-- **Rule for loops.** A loop that goes along a path until it is about to reach the
end `z`, with a bound on the number of rounds, is proved by its last round and by
one round before. -/
theorem Path.rounds {motive : Nat → α → List α → Prop} {fuel : Nat}
    (last : ∀ k a, next a = z → motive (k + 1) a [])
    (more : ∀ k a b l, next a = b → b ≠ z → motive k b l → motive (k + 1) a (b :: l))
    (path : Path next a l z) (once : z ∉ l) (enough : l.length < fuel) : motive fuel a l := by
  induction l generalizing a fuel with
  | nil =>
      obtain ⟨k, rfl⟩ := Nat.exists_eq_succ_of_ne_zero (Nat.ne_of_gt enough)
      exact last k a (path_nil.mp path)
  | cons b l ih =>
      obtain ⟨k, rfl⟩ := Nat.exists_eq_succ_of_ne_zero (Nat.ne_zero_of_lt enough)
      obtain ⟨first, rest⟩ := path_cons.mp path
      have goOn : b ≠ z := fun eq => once (eq ▸ List.mem_cons_self)
      exact more k a b l first goOn (ih rest (fun member => once (List.mem_cons_of_mem _ member))
        (Nat.lt_of_succ_lt_succ enough))

/-- `next` leads from `a` through `l` and back to `a`, and no node occurs twice. -/
structure IsRing (next : α → α) (a : α) (l : List α) : Prop where
  nodup : (a :: l).Nodup
  path : Path next a l a

theorem isRing_singleton (loop : next a = a) : IsRing next a [] :=
  ⟨List.nodup_singleton a, path_nil.mpr loop⟩

theorem IsRing.congr (ring : IsRing next a l) (same : ∀ x ∈ a :: l, next' x = next x) :
    IsRing next' a l :=
  ⟨ring.nodup, ring.path.congr same⟩

/-- The same ring, read from another node. -/
theorem IsRing.rotate (ring : IsRing next a (l₁ ++ b :: l₂)) : IsRing next b (l₂ ++ a :: l₁) := by
  obtain ⟨toB, toA⟩ := path_append.mp ring.path
  refine ⟨?_, path_append.mpr ⟨toA, toB⟩⟩
  have perm : (a :: (l₁ ++ b :: l₂)).Perm (b :: (l₂ ++ a :: l₁)) := by
    rw [← List.cons_append, ← List.cons_append]
    exact List.perm_append_comm
  exact perm.nodup_iff.mp ring.nodup

/-- A new node between the last one and the first. -/
theorem IsRing.insert (ring : IsRing next a l) (fresh : x ∉ a :: l)
    (last : next' ((a :: l).getLast (List.cons_ne_nil a l)) = x) (first : next' x = a)
    (same : ∀ y ∈ a :: l, y ≠ (a :: l).getLast (List.cons_ne_nil a l) → next' y = next y) :
    IsRing next' a (l ++ [x]) := by
  constructor
  · rw [← List.cons_append]
    exact List.nodup_append.mpr ⟨ring.nodup, List.nodup_singleton x, fun y inL z inX => by
      rw [List.mem_singleton] at inX
      rw [inX]
      exact fun eq => fresh (eq ▸ inL)⟩
  · rw [path_append, path_nil]
    refine ⟨?_, first⟩
    rcases List.eq_nil_or_concat' l with rfl | ⟨l', b, rfl⟩
    · exact path_nil.mpr last
    · have lastB : (a :: (l' ++ [b])).getLast (List.cons_ne_nil _ _) = b := by simp
      rw [lastB] at last same
      have nodup := ring.nodup
      rw [← List.cons_append, List.nodup_append] at nodup
      obtain ⟨toB, -⟩ := path_append.mp ring.path
      refine path_append.mpr ⟨toB.congr fun y member => same y ?_ ?_, path_nil.mpr last⟩
      · rw [← List.cons_append]
        exact List.mem_append_left _ member
      · exact nodup.2.2 y member b (List.mem_singleton_self b)

/-- Going around leads back. -/
theorem IsRing.periodic (ring : IsRing next a l) : Function.IsPeriodicPt next (l.length + 1) a :=
  ring.path.iterate_length

theorem IsRing.iterate_mem (ring : IsRing next a l) (k : Nat) : next^[k] a ∈ a :: l := by
  have bound : k % (l.length + 1) < (a :: l).length := Nat.mod_lt _ (Nat.succ_pos _)
  rw [← ring.periodic.iterate_mod_apply k, ring.path.iterate bound]
  exact List.getElem_mem bound

theorem IsRing.exists_iterate (ring : IsRing next a l) (member : b ∈ a :: l) :
    ∃ k, k < (a :: l).length ∧ next^[k] a = b := by
  obtain ⟨k, bound, at_⟩ := List.getElem_of_mem member
  exact ⟨k, bound, (ring.path.iterate bound).trans at_⟩

/-- Within a lap no node comes twice. -/
theorem IsRing.iterate_inj (ring : IsRing next a l) {j k : Nat} (boundJ : j < (a :: l).length)
    (boundK : k < (a :: l).length) (same : next^[j] a = next^[k] a) : j = k := by
  rw [ring.path.iterate boundJ, ring.path.iterate boundK] at same
  exact (ring.nodup.getElem_inj_iff).mp same

theorem IsRing.iterate_eq_self_iff (ring : IsRing next a l) :
    next^[k] a = a ↔ (l.length + 1) ∣ k := by
  have bound : k % (l.length + 1) < (a :: l).length := Nat.mod_lt _ (Nat.succ_pos _)
  rw [← ring.periodic.iterate_mod_apply k, Nat.dvd_iff_mod_eq_zero]
  constructor
  · intro same
    exact ring.iterate_inj bound (Nat.succ_pos _) same
  · intro zero
    rw [zero]
    rfl

/-- The ring through a node is determined by the successors. -/
theorem IsRing.unique (ring : IsRing next a l₁) (ring' : IsRing next a l₂) : l₁ = l₂ := by
  have lengths : l₁.length = l₂.length := by
    have there := ring.iterate_eq_self_iff.mp ring'.periodic
    have back := ring'.iterate_eq_self_iff.mp ring.periodic
    exact Nat.succ_injective (Nat.dvd_antisymm there back)
  have nodes : a :: l₁ = a :: l₂ := by
    apply List.ext_getElem
    · rw [List.length_cons, List.length_cons, lengths]
    intro k bound bound'
    rw [← ring.path.iterate bound, ← ring'.path.iterate bound']
  exact (List.cons.inj nodes).2

end CircularList
