import Learnix.Lib.Run
import Mathlib.Data.Finset.Max
import Mathlib.Order.Interval.Finset.Nat

/-!
# Allocation of the least free number

The specification of an allocator of numbered objects: a set of free numbers,
of which the least one is handed out, and the numbers that are in use. Numbers
only move between the two, so that none is handed out twice and none is lost
(`Invariant.run`). On an interval the numbers in use are among the first `n` as long as at most
`n` are in use at a time (`run_first_iff`).
-/

namespace LeastFree

/-- The free numbers, and those in use, latest first. -/
structure State where
  free : Finset ℕ
  live : List ℕ

/-- `take r` is a request that is answered with `r`. -/
inductive Op
  | take (answer : Option ℕ)
  | give (n : ℕ)

/-- A request takes the least free number and fails only if there is none; only numbers in
use are given back. -/
inductive Step : State → Op → State → Prop
  | take {s : State} {n : ℕ} :
    n ∈ s.free → (∀ m ∈ s.free, n ≤ m) →
    Step s (.take (some n)) ⟨s.free.erase n, n :: s.live⟩
  | full {s : State} : s.free = ∅ → Step s (.take none) s
  | give {s : State} {n : ℕ} :
    n ∈ s.live → Step s (.give n) ⟨insert n s.free, s.live.erase n⟩

/-- Every number of `all` is either free or in use, once. -/
structure Invariant (all : Finset ℕ) (s : State) : Prop where
  nodup : s.live.Nodup
  disjoint : ∀ n ∈ s.free, n ∉ s.live
  whole : ∀ n, n ∈ all ↔ n ∈ s.free ∨ n ∈ s.live

variable {all : Finset ℕ} {s t : State} {op : Op}

theorem invariant_init (all : Finset ℕ) : Invariant all ⟨all, []⟩ where
  nodup := List.nodup_nil
  disjoint := fun _ _ => List.not_mem_nil
  whole := fun _ => ⟨.inl, fun either => either.resolve_right List.not_mem_nil⟩

/-- **Step lemma.** -/
theorem Invariant.step (inv : Invariant all s) (step : Step s op t) : Invariant all t := by
  obtain ⟨nodup, disjoint, whole⟩ := inv
  cases step with
  | @take n free least =>
      refine ⟨List.nodup_cons.mpr ⟨disjoint n free, nodup⟩, fun m member => ?_, fun m => ?_⟩
      · obtain ⟨other, freeM⟩ := Finset.mem_erase.mp member
        rw [List.mem_cons, not_or]
        exact ⟨other, disjoint m freeM⟩
      · rw [whole, Finset.mem_erase, List.mem_cons]
        by_cases same : m = n
        · simp [same, free]
        · simp [same]
  | full _ => exact ⟨nodup, disjoint, whole⟩
  | @give n live =>
      refine ⟨nodup.erase n, fun m member => ?_, fun m => ?_⟩
      · rw [nodup.mem_erase_iff]
        rintro ⟨other, liveM⟩
        exact disjoint m (Finset.mem_of_mem_insert_of_ne member other) liveM
      · rw [whole, Finset.mem_insert, nodup.mem_erase_iff]
        by_cases same : m = n
        · simp [same, live]
        · simp [same]

/-- **Run lemma.** -/
theorem Invariant.run {tr : List (Sys.Event State Op)} (inv : Invariant all s)
    (run : Sys.Run Step s tr t) : Invariant all t :=
  run.invariant inv fun inv step => inv.step step

/-! ## The first numbers of an interval -/

variable {lo hi n : ℕ} {tr : List (Sys.Event State Op)}

/-- The numbers below the least free one are in use. -/
theorem Invariant.live_of_lt {m k : ℕ} (inv : Invariant (Finset.Ico lo hi) s) (free : m ∈ s.free)
    (least : ∀ k ∈ s.free, m ≤ k) (low : lo ≤ k) (below : k < m) : k ∈ s.live := by
  have inside := Finset.mem_Ico.mp ((inv.whole m).mpr (.inl free))
  have member : k ∈ Finset.Ico lo hi := Finset.mem_Ico.mpr ⟨low, below.trans inside.2⟩
  refine ((inv.whole k).mp member).resolve_left fun freeK => ?_
  exact absurd (least k freeK) (Nat.not_le.mpr below)

/-- Where fewer than `n` numbers are in use, the least free one is one of the first `n`. -/
theorem Invariant.least_lt {m : ℕ} (inv : Invariant (Finset.Ico lo hi) s)
    (few : s.live.length < n) (free : m ∈ s.free) (least : ∀ k ∈ s.free, m ≤ k) : m < lo + n := by
  by_contra beyond
  have taken : Finset.Ico lo (lo + n) ⊆ s.live.toFinset := by
    intro k member
    rw [Finset.mem_Ico] at member
    rw [List.mem_toFinset]
    exact inv.live_of_lt free least member.1 (by omega)
  have counted := (Finset.card_le_card taken).trans (List.toFinset_card_le s.live)
  rw [Nat.card_Ico] at counted
  omega

/-- All numbers in use are among the first `n`. -/
def First (lo n : ℕ) (s : State) : Prop := ∀ m ∈ s.live, m < lo + n

theorem First.step (first : First lo n s) (inv : Invariant (Finset.Ico lo hi) s)
    (step : Step s op t) (few : t.live.length ≤ n) : First lo n t := by
  cases step with
  | @take m free least =>
      intro k member
      rcases List.mem_cons.mp member with rfl | old
      · exact inv.least_lt few free least
      · exact first k old
  | full _ => exact first
  | give _ => exact fun k member => first k (List.mem_of_mem_erase member)

/-- No more than `n` numbers among the first `n` are in use. -/
theorem First.length_le (first : First lo n s) (inv : Invariant (Finset.Ico lo hi) s) :
    s.live.length ≤ n := by
  have part : s.live.toFinset ⊆ Finset.Ico lo (lo + n) := by
    intro k member
    rw [List.mem_toFinset] at member
    have inside := Finset.mem_Ico.mp ((inv.whole k).mpr (.inr member))
    exact Finset.mem_Ico.mpr ⟨inside.1, first k member⟩
  have counted := Finset.card_le_card part
  rw [List.toFinset_card_of_nodup inv.nodup, Nat.card_Ico] at counted
  omega

/-- In a run on an interval all numbers in use are among the first `n` in every state if and only
if at most `n` are in use in every state. -/
theorem run_first_iff (run : Sys.Run Step ⟨Finset.Ico lo hi, []⟩ tr t) :
    (∀ e ∈ tr, First lo n e.post) ↔ ∀ e ∈ tr, e.post.live.length ≤ n := by
  have start := invariant_init (Finset.Ico lo hi)
  constructor
  · intro first e member
    have inv := (run.invariant_of_mem member start fun inv step => inv.step step).2.2
    exact (first e member).length_le inv
  · have along : (∀ e ∈ tr, e.post.live.length ≤ n) → First lo n t ∧ ∀ e ∈ tr, First lo n e.post :=
      run.history_invariant
        (I := fun tr t => (∀ e ∈ tr, e.post.live.length ≤ n) →
          First lo n t ∧ ∀ e ∈ tr, First lo n e.post)
        (fun _ => ⟨fun _ none => absurd none List.not_mem_nil,
          fun _ none => absurd none List.not_mem_nil⟩)
        fun before ih last few => by
          rcases ih fun e member => few e (List.mem_append_left _ member) with ⟨reached, earlier⟩
          have small := few _ (List.mem_append_right _ (List.mem_singleton_self _))
          have final := reached.step (start.run before) last small
          exact ⟨final, Sys.forall_mem_snoc earlier final⟩
    exact fun few => (along few).2

end LeastFree
