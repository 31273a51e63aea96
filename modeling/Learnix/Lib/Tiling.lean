import Mathlib.Algebra.Order.Ring.Nat
import Mathlib.Algebra.Order.BigOperators.Group.List
import Mathlib.Data.List.Chain
import Mathlib.Data.List.Nodup
import Mathlib.Data.List.Perm.Basic

/-!
# First-fit allocation on a tiled interval

An interval of addresses `[lo, hi)` is cut into blocks, each a header of `h`
addresses followed by a payload; the blocks in address order tile the interval.
`firstFit` takes the first free block that is large enough, cutting off the
rest when the rest can hold a header and `slack` more addresses. `release`
frees a block and merges free neighbours. A tiling without two adjacent free
blocks is *canonical*. Both operations keep tilings canonical, and a canonical
tiling is determined by its used blocks (`Tiles.ext_of_canonical`): the order
in which they came to be used, and every split and merge on the way, leave no
trace.
-/

namespace Tiling

/-- A block: where its header starts, the size of its payload, and whether it
is in use. -/
structure Block where
  addr : Nat
  size : Nat
  used : Bool
deriving DecidableEq, Repr

/-- The address after the last one of a block with a header of `h` addresses. -/
def Block.stop (h : Nat) (b : Block) : Nat := b.addr + h + b.size

/-- The blocks of `l` cover `[lo, hi)` without gap or overlap, in order. -/
def Tiles (h : Nat) : Nat → Nat → List Block → Prop
  | lo, hi, [] => lo = hi
  | lo, hi, b :: bs => b.addr = lo ∧ Tiles h (b.stop h) hi bs

/-- No two neighbours are both free. -/
def Canonical (l : List Block) : Prop :=
  l.IsChain fun b c => b.used = true ∨ c.used = true

/-- The blocks in use, in address order. -/
def live (l : List Block) : List Block := l.filter (·.used)

/-- Take block `b` for a payload of `n`, cutting off the rest when the rest can
hold a header and `slack` more addresses. -/
def carve (h slack n : Nat) (b : Block) : List Block :=
  if n + h + slack ≤ b.size then
    [⟨b.addr, n, true⟩, ⟨b.addr + h + n, b.size - n - h, false⟩]
  else
    [{ b with used := true }]

/-- Take the first free block whose payload holds `n`: its address and the
blocks afterwards. -/
def firstFit (h slack n : Nat) : List Block → Option (Nat × List Block)
  | [] => none
  | b :: bs =>
    if b.used = false ∧ n ≤ b.size then
      some (b.addr, carve h slack n b ++ bs)
    else
      (firstFit h slack n bs).map fun r => (r.1, b :: r.2)

/-- Put `b` before `l`, as one block with the first of `l` if both are free. -/
def absorb (h : Nat) (b : Block) : List Block → List Block
  | [] => [b]
  | c :: cs =>
    if b.used = false ∧ c.used = false then
      { b with size := b.size + h + c.size } :: cs
    else
      b :: c :: cs

/-- Free the block at `a`, merging free neighbours. -/
def release (h a : Nat) : List Block → List Block
  | [] => []
  | b :: bs =>
    if b.addr = a then absorb h { b with used := false } bs
    else absorb h b (release h a bs)

variable {h slack n lo mid hi a : Nat} {b c p : Block} {l cs pre post : List Block}

theorem absorb_cons_cons : absorb h b (c :: cs) =
    if b.used = false ∧ c.used = false then
      { b with size := b.size + h + c.size } :: cs
    else
      b :: c :: cs :=
  rfl

/-! ## Tilings -/

theorem tiles_append {l₁ l₂ : List Block} :
    Tiles h lo hi (l₁ ++ l₂) ↔ ∃ mid, Tiles h lo mid l₁ ∧ Tiles h mid hi l₂ := by
  induction l₁ generalizing lo with
  | nil => simp [Tiles]
  | cons b bs ih =>
      simp only [List.cons_append, Tiles, ih]
      constructor
      · rintro ⟨start, mid, left, right⟩
        exact ⟨mid, ⟨start, left⟩, right⟩
      · rintro ⟨mid, ⟨start, left⟩, right⟩
        exact ⟨start, mid, left, right⟩

theorem Tiles.le (tiles : Tiles h lo hi l) : lo ≤ hi := by
  induction l generalizing lo with
  | nil => exact Nat.le_of_eq tiles
  | cons b bs ih =>
      obtain ⟨start, rest⟩ := tiles
      have := ih rest
      unfold Block.stop at this
      omega

/-- Every block of a tiling lies in the interval. -/
theorem Tiles.bounds (tiles : Tiles h lo hi l) (member : b ∈ l) :
    lo ≤ b.addr ∧ b.stop h ≤ hi := by
  induction l generalizing lo with
  | nil => cases member
  | cons c cs ih =>
      obtain ⟨start, rest⟩ := tiles
      rcases List.mem_cons.mp member with rfl | later
      · exact ⟨Nat.le_of_eq start.symm, rest.le⟩
      · have inside := ih rest later
        unfold Block.stop at inside ⊢
        omega

/-- There is no room for more headers than fit in the interval. -/
theorem Tiles.length_mul_le (tiles : Tiles h lo hi l) : lo + l.length * h ≤ hi := by
  induction l generalizing lo with
  | nil => simpa using Nat.le_of_eq tiles
  | cons b bs ih =>
      obtain ⟨start, rest⟩ := tiles
      have := ih rest
      rw [List.length_cons, Nat.add_mul, Nat.one_mul]
      unfold Block.stop at this
      omega

/-- What the headers leave of the interval is payload. -/
theorem Tiles.sum_size (tiles : Tiles h lo hi l) :
    lo + l.length * h + (l.map Block.size).sum = hi := by
  induction l generalizing lo with
  | nil => simpa using show lo = hi from tiles
  | cons b bs ih =>
      obtain ⟨start, rest⟩ := tiles
      have := ih rest
      rw [List.length_cons, List.map_cons, List.sum_cons, Nat.add_mul, Nat.one_mul]
      unfold Block.stop at this
      omega

/-- Of two blocks of a tiling, the earlier one ends before the later one starts. -/
theorem Tiles.pairwise (tiles : Tiles h lo hi l) :
    l.Pairwise fun b c => b.stop h ≤ c.addr := by
  induction l generalizing lo with
  | nil => exact .nil
  | cons b bs ih =>
      obtain ⟨_, rest⟩ := tiles
      exact .cons (fun c later => (rest.bounds later).1) (ih rest)

theorem Tiles.pairwise_addr (tiles : Tiles h lo hi l) (header : 0 < h) :
    l.Pairwise fun b c => b.addr < c.addr :=
  tiles.pairwise.imp fun before => by
    unfold Block.stop at before
    omega

/-- Two blocks of a tiling are the same or do not meet. -/
theorem Tiles.eq_or_apart (tiles : Tiles h lo hi l) (left : b ∈ l) (right : c ∈ l) :
    b = c ∨ b.stop h ≤ c.addr ∨ c.stop h ≤ b.addr := by
  induction l generalizing lo with
  | nil => cases left
  | cons d ds ih =>
      obtain ⟨_, rest⟩ := tiles
      rcases List.mem_cons.mp left with first | inLeft <;>
        rcases List.mem_cons.mp right with first' | inRight
      · exact .inl (first.trans first'.symm)
      · exact .inr (.inl (first ▸ (rest.bounds inRight).1))
      · exact .inr (.inr (first' ▸ (rest.bounds inLeft).1))
      · exact ih rest inLeft inRight

/-- In a tiling the address of a header names its block. -/
theorem Tiles.eq_of_addr_eq (tiles : Tiles h lo hi l) (header : 0 < h) (left : b ∈ l)
    (right : c ∈ l) (same : b.addr = c.addr) : b = c := by
  rcases tiles.eq_or_apart left right with eq | apart | apart
  · exact eq
  · unfold Block.stop at apart; omega
  · unfold Block.stop at apart; omega

theorem Tiles.nodup (tiles : Tiles h lo hi l) (header : 0 < h) : l.Nodup :=
  (tiles.pairwise_addr header).imp fun before same => by
    rw [same] at before
    exact Nat.lt_irrefl _ before

/-- The blocks before one start elsewhere. -/
theorem Tiles.absent (tiles : Tiles h lo hi (pre ++ b :: post)) (header : 0 < h) :
    ∀ c ∈ pre, c.addr ≠ b.addr := by
  intro c member same
  have before := (List.pairwise_append.mp (tiles.pairwise_addr header)).2.2 c member b
    List.mem_cons_self
  rw [same] at before
  exact Nat.lt_irrefl _ before

theorem tiles_carve : Tiles h lo hi (carve h slack n b) ↔ b.addr = lo ∧ b.stop h = hi := by
  unfold carve
  split
  · have stop : b.addr + h + n + h + (b.size - n - h) = b.addr + h + b.size := by omega
    simp only [Tiles, Block.stop, true_and, stop]
  · simp only [Tiles, Block.stop]

theorem Tiles.carve (tiles : Tiles h lo hi (pre ++ b :: post)) :
    Tiles h lo hi (pre ++ carve h slack n b ++ post) := by
  obtain ⟨mid, before, start, rest⟩ := tiles_append.mp tiles
  rw [List.append_assoc]
  exact tiles_append.mpr
    ⟨mid, before, tiles_append.mpr ⟨b.stop h, tiles_carve.mpr ⟨start, rfl⟩, rest⟩⟩

theorem Tiles.split (tiles : Tiles h lo hi (pre ++ b :: post)) (room : n + h ≤ b.size)
    (used : Bool) :
    Tiles h lo hi
      (pre ++ ⟨b.addr, n, used⟩ :: ⟨b.addr + h + n, b.size - n - h, false⟩ :: post) := by
  obtain ⟨mid, before, start, rest⟩ := tiles_append.mp tiles
  have stop : b.addr + h + n + h + (b.size - n - h) = b.stop h := by
    unfold Block.stop
    omega
  exact tiles_append.mpr ⟨mid, before, start, rfl, by rw [Block.stop, stop]; exact rest⟩

theorem Tiles.absorb (tiles : Tiles h lo hi (b :: l)) : Tiles h lo hi (absorb h b l) := by
  cases l with
  | nil => exact tiles
  | cons c cs =>
      rw [absorb_cons_cons]
      split
      · obtain ⟨start, next, rest⟩ := tiles
        refine ⟨start, ?_⟩
        have stop : Block.stop h { b with size := b.size + h + c.size } = c.stop h := by
          unfold Block.stop at next ⊢
          simp only
          omega
        rw [stop]
        exact rest
      · exact tiles

theorem Tiles.release (tiles : Tiles h lo hi l) : Tiles h lo hi (release h a l) := by
  induction l generalizing lo with
  | nil => exact tiles
  | cons b bs ih =>
      obtain ⟨start, rest⟩ := tiles
      unfold Tiling.release
      split
      · exact Tiles.absorb ⟨start, rest⟩
      · exact Tiles.absorb ⟨start, ih rest⟩

/-! ## What the operations do -/

/-- What `firstFit` finds and leaves. -/
theorem firstFit_eq_some {r : Nat × List Block} (fit : firstFit h slack n l = some r) :
    ∃ pre b post, l = pre ++ b :: post ∧ b.used = false ∧ n ≤ b.size ∧
      (∀ c ∈ pre, c.used = true ∨ c.size < n) ∧
      r = (b.addr, pre ++ carve h slack n b ++ post) := by
  induction l generalizing r with
  | nil => cases fit
  | cons b bs ih =>
      unfold firstFit at fit
      split at fit
      · next fits =>
        cases Option.some.inj fit
        exact ⟨[], b, bs, rfl, fits.1, fits.2, (fun _ member => nomatch member), rfl⟩
      · next misses =>
        obtain ⟨r', fit', rfl⟩ := Option.map_eq_some_iff.mp fit
        obtain ⟨pre, d, post, rfl, free, room, skipped, rfl⟩ := ih fit'
        refine ⟨b :: pre, d, post, rfl, free, room, fun c member => ?_, rfl⟩
        rcases List.mem_cons.mp member with rfl | member
        · cases used : c.used
          · exact .inr (by by_contra large; exact misses ⟨used, by omega⟩)
          · exact .inl rfl
        · exact skipped c member

/-- Absorption keeps the address and the use of the block in front. -/
theorem absorb_eq_cons (b : Block) (l : List Block) :
    ∃ size rest, absorb h b l = ⟨b.addr, size, b.used⟩ :: rest := by
  cases l with
  | nil => exact ⟨b.size, [], rfl⟩
  | cons c cs =>
      rw [absorb_cons_cons]
      split
      · exact ⟨_, cs, rfl⟩
      · exact ⟨b.size, c :: cs, rfl⟩

/-- Absorption makes no new addresses. -/
theorem exists_addr_eq_of_mem_absorb (member : c ∈ absorb h b l) :
    ∃ d ∈ b :: l, c.addr = d.addr := by
  cases l with
  | nil => exact ⟨c, member, rfl⟩
  | cons d ds =>
      rw [absorb_cons_cons] at member
      split at member
      · rcases List.mem_cons.mp member with rfl | later
        · exact ⟨b, List.mem_cons_self, rfl⟩
        · exact ⟨c, by simp [later], rfl⟩
      · exact ⟨c, member, rfl⟩

/-- Releasing block `b` merges what follows into it and the result into what
precedes it. -/
theorem release_append (absent : ∀ c ∈ pre, c.addr ≠ b.addr) :
    release h b.addr (pre ++ b :: post) =
      pre.foldr (absorb h) (absorb h { b with used := false } post) := by
  induction pre with
  | nil => simp [release]
  | cons c cs ih =>
      have ne : c.addr ≠ b.addr := absent c List.mem_cons_self
      simp only [List.cons_append, release, ne, if_false, List.foldr_cons]
      rw [ih fun d member => absent d (List.mem_cons_of_mem _ member)]

/-! ## Canonical tilings -/

theorem Canonical.absorb (canonical : Canonical l) (b : Block) : Canonical (absorb h b l) := by
  cases l with
  | nil => exact List.isChain_singleton _
  | cons c cs =>
      rw [absorb_cons_cons]
      split
      · next free =>
        cases cs with
        | nil => exact List.isChain_singleton _
        | cons d ds =>
            obtain ⟨next, rest⟩ := List.isChain_cons_cons.mp canonical
            rw [free.2] at next
            exact List.isChain_cons_cons.mpr ⟨.inr (by simpa using next), rest⟩
      · next busy =>
        refine List.isChain_cons_cons.mpr ⟨?_, canonical⟩
        by_contra both
        simp only [not_or, Bool.not_eq_true] at both
        exact busy both

theorem Canonical.release (canonical : Canonical l) : Canonical (release h a l) := by
  induction l with
  | nil => exact canonical
  | cons b bs ih =>
      unfold Tiling.release
      split
      · exact Canonical.absorb canonical.tail _
      · exact (ih canonical.tail).absorb b

/-- Taking a free block out of a canonical tiling leaves it canonical: the
block cut off follows a used one, and what follows it is used. -/
theorem Canonical.carve (canonical : Canonical (pre ++ b :: post)) (free : b.used = false) :
    Canonical (pre ++ carve h slack n b ++ post) := by
  obtain ⟨left, right, seam⟩ := List.isChain_append.mp canonical
  have usedLeft : ∀ c ∈ pre.getLast?, c.used = true := fun c last => by
    simpa [free] using seam c last b rfl
  have usedRight : ∀ c ∈ post.head?, c.used = true := fun c first => by
    cases post with
    | nil => cases first
    | cons d ds =>
        cases Option.some.inj first
        simpa [free] using (List.isChain_cons_cons.mp right).1
  unfold Tiling.carve
  split
  · refine List.isChain_append.mpr ⟨List.isChain_append.mpr
      ⟨left, by simp, fun c last d _ => .inl (usedLeft c last)⟩, right.tail, ?_⟩
    exact fun c _ d first => .inr (usedRight d first)
  · refine List.isChain_append.mpr ⟨List.isChain_append.mpr
      ⟨left, by simp, fun c last d _ => .inl (usedLeft c last)⟩, right.tail, ?_⟩
    exact fun c _ d first => .inr (usedRight d first)

/-- In a canonical tiling the merging stops one block before the released one. -/
theorem foldr_absorb (canonical : Canonical (pre ++ p :: l)) {size : Nat} {rest : List Block} :
    pre.foldr (absorb h) (⟨p.addr, size, p.used⟩ :: rest) =
      pre ++ ⟨p.addr, size, p.used⟩ :: rest := by
  induction pre with
  | nil => rfl
  | cons c cs ih =>
      rw [List.foldr_cons, ih canonical.tail]
      have seam : c.used = true ∨ ((cs ++ p :: l).head (by simp)).used = true := by
        cases cs with
        | nil => exact (List.isChain_cons_cons.mp canonical).1
        | cons d ds => exact (List.isChain_cons_cons.mp canonical).1
      cases cs with
      | nil =>
          simp only [List.nil_append, List.head_cons] at seam
          rcases seam with used | used <;> simp [absorb, used]
      | cons d ds =>
          simp only [List.cons_append, List.head_cons] at seam
          rcases seam with used | used <;> simp [absorb, used]

/-! ## The used blocks -/

@[simp] theorem live_append (l₁ l₂ : List Block) : live (l₁ ++ l₂) = live l₁ ++ live l₂ :=
  List.filter_append _ _

theorem live_cons_used (used : b.used = true) : live (b :: l) = b :: live l := by
  simp [live, used]

theorem live_cons_free (free : b.used = false) : live (b :: l) = live l := by
  simp [live, free]

/-- The payload size a carved block ends up with. -/
def carvedSize (h slack n : Nat) (b : Block) : Nat :=
  if n + h + slack ≤ b.size then n else b.size

theorem live_carve : live (carve h slack n b) = [⟨b.addr, carvedSize h slack n b, true⟩] := by
  unfold carve carvedSize
  split <;> simp [live]

theorem live_absorb (b : Block) (l : List Block) : live (absorb h b l) = live (b :: l) := by
  cases l with
  | nil => rfl
  | cons c cs =>
      rw [absorb_cons_cons]
      split
      · next free => simp [live, free.1, free.2]
      · rfl

theorem live_foldr_absorb (pre l : List Block) :
    live (pre.foldr (absorb h) l) = live pre ++ live l := by
  induction pre with
  | nil => rfl
  | cons c cs ih =>
      rw [List.foldr_cons, live_absorb]
      cases used : c.used
      · rw [live_cons_free used, live_cons_free used, ih]
      · rw [live_cons_used used, live_cons_used used, ih, List.cons_append]

theorem mem_live : b ∈ live l ↔ b ∈ l ∧ b.used = true := List.mem_filter

/-- Releasing a block takes it, and no other, off the used ones. -/
theorem mem_live_release (tiles : Tiles h lo hi l) (header : 0 < h) (member : b ∈ l)
    (used : b.used = true) : c ∈ live (release h b.addr l) ↔ c ∈ live l ∧ c ≠ b := by
  obtain ⟨pre, post, rfl⟩ := List.append_of_mem member
  have once := (List.nodup_middle.mp (tiles.nodup header)).notMem
  rw [release_append (tiles.absent header), live_foldr_absorb, live_absorb, live_cons_free rfl,
    live_append, live_cons_used used]
  simp only [List.mem_append, List.mem_cons, mem_live] at once ⊢
  constructor
  · rintro (early | late)
    · exact ⟨.inl early, fun eq => once (eq ▸ .inl early.1)⟩
    · exact ⟨.inr (.inr late), fun eq => once (eq ▸ .inr late.1)⟩
  · rintro ⟨early | rfl | late, ne⟩
    · exact .inl early
    · exact absurd rfl ne
    · exact .inr late

/-! ## A canonical tiling is a function of its used blocks -/

theorem Block.ext_of_stop (start : b.addr = c.addr) (stop : b.stop h = c.stop h)
    (use : b.used = c.used) : b = c := by
  rcases b with ⟨addr, size, used⟩
  rcases c with ⟨addr', size', used'⟩
  unfold Block.stop at stop
  simp only at start stop use
  subst start use
  simp only [Block.mk.injEq, true_and, and_true]
  omega

theorem Tiles.lt (header : 0 < h) (tiles : Tiles h lo hi (b :: l)) : lo < hi := by
  have bounds := tiles.bounds List.mem_cons_self
  unfold Block.stop at bounds
  omega

/-- A block that is used in one tiling is not free in another with the same used blocks:
none of these starts where it does. -/
theorem Tiles.used_of_live (header : 0 < h) (rest : Tiles h (b.stop h) hi l)
    (start : c.addr = b.addr) (used : c.used = true) (same : live (c :: cs) = live (b :: l)) :
    b.used = true := by
  by_contra free
  rw [live_cons_used used, live_cons_free (by simpa using free)] at same
  have member : c ∈ live l := by
    rw [← same]
    exact List.mem_cons_self
  have later := (rest.bounds (List.mem_of_mem_filter member)).1
  unfold Block.stop at later
  omega

/-- A free block of a canonical tiling ends where the next used block starts, or with
the interval. -/
theorem Tiles.stop_of_free (rest : Tiles h (b.stop h) hi l) (canonical : Canonical (b :: l))
    (free : b.used = false) : b.stop h = ((live l).head?.map Block.addr).getD hi := by
  cases l with
  | nil => exact rest
  | cons c cs =>
      have busy := (List.isChain_cons_cons.mp canonical).1
      rw [free] at busy
      rw [live_cons_used (by simpa using busy)]
      exact rest.1.symm

/-- The tiling of an interval by canonical blocks with given used ones is
unique. The induction is over the tiling: free blocks fill exactly the gaps
that the used ones leave. -/
theorem Tiles.ext_of_canonical {l' : List Block} (header : 0 < h) (tiles : Tiles h lo hi l)
    (tiles' : Tiles h lo hi l') (canonical : Canonical l) (canonical' : Canonical l')
    (same : live l = live l') : l = l' := by
  induction l generalizing lo l' with
  | nil =>
      cases l' with
      | nil => rfl
      | cons b' bs' => exact absurd (tiles'.lt header) (Nat.not_lt.mpr (Nat.le_of_eq tiles.symm))
  | cons b bs ih =>
      cases l' with
      | nil => exact absurd (tiles.lt header) (Nat.not_lt.mpr (Nat.le_of_eq tiles'.symm))
      | cons b' bs' =>
          obtain ⟨start, rest⟩ := tiles
          obtain ⟨start', rest'⟩ := tiles'
          have startEq : b.addr = b'.addr := start.trans start'.symm
          have tails : b = b' → live bs = live bs' → b :: bs = b' :: bs' := by
            intro heads sameTail
            subst heads
            rw [ih rest rest' canonical.tail canonical'.tail sameTail]
          cases used : b.used with
          | true =>
              have used' := rest'.used_of_live header startEq used same
              rw [live_cons_used used, live_cons_used used'] at same
              obtain ⟨heads, sameTail⟩ := List.cons.inj same
              exact tails heads sameTail
          | false =>
              have free' : b'.used = false := by
                by_contra busy
                have busy : b'.used = true := by simpa using busy
                rw [rest.used_of_live header startEq.symm busy same.symm] at used
                cases used
              rw [live_cons_free used, live_cons_free free'] at same
              have stops : b.stop h = b'.stop h := by
                rw [rest.stop_of_free canonical used, rest'.stop_of_free canonical' free', same]
              exact tails (Block.ext_of_stop startEq stops (used.trans free'.symm)) same

/-- Two canonical tilings with the same set of used blocks are the same list. -/
theorem Tiles.ext_of_mem_live {l' : List Block} (header : 0 < h) (tiles : Tiles h lo hi l)
    (tiles' : Tiles h lo hi l') (canonical : Canonical l) (canonical' : Canonical l')
    (same : ∀ b, b ∈ live l ↔ b ∈ live l') : l = l' := by
  apply tiles.ext_of_canonical header tiles' canonical canonical'
  have perm : (live l).Perm (live l') :=
    (List.perm_ext_iff_of_nodup ((tiles.nodup header).filter _)
      ((tiles'.nodup header).filter _)).mpr same
  exact List.Perm.eq_of_pairwise
    (fun b c _ _ (before : b.addr < c.addr) after => absurd before (Nat.lt_asymm after))
    ((tiles.pairwise_addr header).filter _) ((tiles'.pairwise_addr header).filter _) perm

/-- A canonical tiling without used blocks is one free block. -/
theorem Tiles.eq_singleton_of_live_eq_nil (header : 0 < h) (tiles : Tiles h lo hi l)
    (canonical : Canonical l) (room : lo + h ≤ hi) (empty : live l = []) :
    l = [⟨lo, hi - lo - h, false⟩] := by
  refine tiles.ext_of_canonical header ⟨rfl, ?_⟩ canonical (List.isChain_singleton _) empty
  simp only [Tiles, Block.stop]
  omega

end Tiling
