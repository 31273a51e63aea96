import Mathlib.Data.List.Basic
import Mathlib.Tactic.Linarith

/-!
# Concatenations of blocks

A file is a list of blocks of one length `L`, and its contents are the
concatenation `xs.flatMap f`: byte `k` of it is byte `k % L` of block `k / L`
(`getElem?_flatMap`). Where the blocks follow each other on the disk, the
contents are what is on the disk from the first block on (`take_flatMap`).
-/

namespace Blocks

variable {α β : Type*} {L n : Nat} {xs : List α}

theorem getElem?_flatMap {f : α → List β} (length : ∀ x, (f x).length = L) (pos : 0 < L)
    (xs : List α) (k : Nat) :
    (xs.flatMap f)[k]? = xs[k / L]?.bind fun x => (f x)[k % L]? := by
  induction xs generalizing k with
  | nil => rfl
  | cons x xs ih =>
      rw [List.flatMap_cons]
      rcases Nat.lt_or_ge k L with within | beyond
      · rw [List.getElem?_append_left (by rw [length]; exact within), Nat.div_eq_of_lt within,
          Nat.mod_eq_of_lt within]
        rfl
      · have place : k / L = (k - L) / L + 1 := by
          rw [Nat.div_eq k L, if_pos ⟨pos, beyond⟩]
        rw [List.getElem?_append_right (by rw [length]; exact beyond), length, ih, place,
          List.getElem?_cons_succ, Nat.mod_eq_sub_mod beyond]

/-- When block `i` holds the bytes from `i * L` on of a larger whole `h`, as far as the
first `n` bytes reach, these are the first `n` bytes of the whole. -/
theorem take_flatMap (g : α → Nat → β) (h : Nat → β) (pos : 0 < L)
    (reached : ∀ i, i * L < n → ∃ x, xs[i]? = some x ∧ ∀ r, g x r = h (i * L + r)) :
    (xs.flatMap fun x => (List.range L).map (g x)).take n = (List.range n).map h := by
  have length : ∀ x, ((List.range L).map (g x)).length = L := fun x => by simp
  apply List.ext_getElem?
  intro k
  rw [List.getElem?_take, List.getElem?_map]
  split
  · next below =>
    obtain ⟨x, block, bytes⟩ := reached (k / L) (Nat.lt_of_le_of_lt (Nat.div_mul_le_self k L) below)
    have within : k % L < L := Nat.mod_lt k pos
    rw [getElem?_flatMap length pos, block, Option.bind_some, List.getElem?_map,
      List.getElem?_range within, List.getElem?_range below, Option.map_some, Option.map_some,
      bytes, Nat.div_add_mod']
  · next beyond =>
    rw [List.getElem?_eq_none (by rw [List.length_range]; exact Nat.le_of_not_lt beyond)]
    rfl

end Blocks
