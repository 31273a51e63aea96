import Learnix.Pmm
import Learnix.Lib.LeastFree
import Mathlib.Order.Interval.Finset.Nat

/-!
# The physical memory manager refines a set of free frames

`PmmStep` is a call of `pmm_alloc_frame` or `pmm_free_frame`. The bitmap stands
for the set of its clear bits (`freeSet`), the counter of used frames for its
size, and every call is a step of the allocator of least free numbers
(`PmmInvariant.simulates`), so that what holds of that allocator holds of the
frames (`pmm_refines`).
-/

namespace Learnix

open Machine

/-- The free frames. -/
def freeSet (s : PmmState) : Finset ℕ :=
  (Finset.range pmmFramesMax).filter fun f => Bitmap.test s.bitmap f = false

/-- The frame that starts at `a`. -/
def frameOf (a : Word) : ℕ := a.toNat / pmmFrameSize

/-- One call; `alloc a` is a call of `pmm_alloc_frame` that returns `a`. -/
inductive PmmOp
  | alloc (a : Word)
  | free (a : Word)

/-- The manager, and the addresses of the frames that are allocated. -/
structure PmmRunState where
  pmm : PmmState
  frames : List Word

/-- One legal call: only the address of an allocated frame is freed. -/
inductive PmmStep : PmmRunState → PmmOp → PmmRunState → Prop
  | alloc {s : PmmRunState} {a : Word} {p : PmmState} :
    pmmAllocFrame s.pmm = (a, p) →
    PmmStep s (.alloc a) ⟨p, if a = 0#32 then s.frames else a :: s.frames⟩
  | free {s : PmmRunState} {a : Word} :
    a ∈ s.frames → PmmStep s (.free a) ⟨pmmFreeFrame a s.pmm, s.frames.erase a⟩

def pmmRunInit (memSize : Word) (p : PmmState) : PmmRunState := ⟨pmmInit memSize p, []⟩

/-- The frames of usable memory. -/
def usable (memSize : Word) : Finset ℕ := Finset.Ico 8 (min (frameCount memSize) pmmFramesMax)

/-! ## The abstraction -/

/-- What the state stands for. -/
def PmmRunState.abs (s : PmmRunState) : LeastFree.State := ⟨freeSet s.pmm, s.frames.map frameOf⟩

/-- What the call stands for. -/
def PmmOp.abs : PmmOp → LeastFree.Op
  | .alloc a => .take (if a = 0#32 then none else some (frameOf a))
  | .free a => .give (frameOf a)

/-- The counters tell the size of the free set, and addresses of allocated frames are
those of usable frames. -/
structure PmmInvariant (memSize : Word) (s : PmmRunState) : Prop where
  total : s.pmm.totalFrames.toNat = frameCount memSize
  used : s.pmm.usedFrames.toNat + (freeSet s.pmm).card = frameCount memSize
  address : ∀ a ∈ s.frames, a.toNat = frameOf a * pmmFrameSize
  frames : LeastFree.Invariant (usable memSize) s.abs

variable {memSize a : Word} {f : ℕ} {p : PmmState} {s t : PmmRunState} {op : PmmOp}

theorem mem_freeSet : f ∈ freeSet p ↔ FreeFrame p f := by
  rw [freeSet, Finset.mem_filter, Finset.mem_range]
  rfl

theorem mem_usable : f ∈ usable memSize ↔ 8 ≤ f ∧ f < frameCount memSize ∧ f < 8192 := by
  rw [usable, Finset.mem_Ico, lt_min_iff]
  rfl

theorem freeSet_pmmInit (memSize : Word) (p : PmmState) :
    freeSet (pmmInit memSize p) = usable memSize := by
  ext f
  rw [mem_freeSet, (pmmInit_eq memSize p).2.2, usable, Finset.mem_Ico]

theorem freeSet_set (p : PmmState) (f : ℕ) (used : Word) :
    freeSet { p with bitmap := Bitmap.set p.bitmap f, usedFrames := used } =
      (freeSet p).erase f := by
  ext g
  rw [Finset.mem_erase, mem_freeSet, mem_freeSet, FreeFrame, FreeFrame,
    Bitmap.test_set (by decide), Bool.or_eq_false_iff, decide_eq_false_iff_not]
  tauto

theorem freeSet_clear (p : PmmState) (inside : f < pmmFramesMax) (used : Word) :
    freeSet { p with bitmap := Bitmap.clear p.bitmap f, usedFrames := used } =
      insert f (freeSet p) := by
  ext g
  rw [Finset.mem_insert, mem_freeSet, mem_freeSet, FreeFrame, FreeFrame,
    Bitmap.test_clear (by decide), Bool.and_eq_false_iff, Bool.not_eq_false',
    decide_eq_true_iff]
  constructor
  · tauto
  · rintro (rfl | free)
    · exact ⟨inside, .inl rfl⟩
    · exact ⟨free.1, .inr free.2⟩

/-- The product of the address is exact, as a signed one. -/
theorem address_lt (bound : f < 8192) : f * pmmFrameSize < 2 ^ 31 := by
  unfold pmmFrameSize
  omega

/-- The address of a frame determines it. -/
theorem frameOf_address (bound : f < 8192) :
    (BitVec.ofNat 32 (f * pmmFrameSize)).toNat = f * pmmFrameSize ∧
      frameOf (BitVec.ofNat 32 (f * pmmFrameSize)) = f := by
  have exact_ := address_lt bound
  have place : (BitVec.ofNat 32 (f * pmmFrameSize)).toNat = f * pmmFrameSize := by
    rw [BitVec.toNat_ofNat, Nat.mod_eq_of_lt (by omega)]
  exact ⟨place, by rw [frameOf, place, Nat.mul_div_cancel _ (by decide)]⟩

theorem pmmInvariant_init (memSize : Word) (p : PmmState) :
    PmmInvariant memSize (pmmRunInit memSize p) := by
  rcases pmmInit_eq memSize p with ⟨total, used, -⟩
  refine ⟨total, ?_, fun _ member => absurd member List.not_mem_nil, ?_⟩
  · rw [pmmRunInit, freeSet_pmmInit, usable, Nat.card_Ico, used]
    omega
  · rw [PmmRunState.abs, pmmRunInit, freeSet_pmmInit]
    exact LeastFree.invariant_init _

/-! ## The calls -/

/-- The two outcomes of `pmm_alloc_frame`. -/
inductive Allocated (s : PmmState) : Word × PmmState → Prop
  | full : freeSet s = ∅ → Allocated s (0#32, s)
  | frame {f : ℕ} : f ∈ freeSet s → (∀ g ∈ freeSet s, f ≤ g) →
    Allocated s (BitVec.ofNat 32 (f * pmmFrameSize),
      { s with bitmap := Bitmap.set s.bitmap f, usedFrames := s.usedFrames + 1#32 })

theorem PmmInvariant.bound (inv : PmmInvariant memSize s) {f : ℕ} (free : f ∈ freeSet s.pmm) :
    8 ≤ f ∧ f < frameCount memSize ∧ f < 8192 :=
  mem_usable.mp ((inv.frames.whole f).mpr (.inl free))

theorem PmmInvariant.allocated (inv : PmmInvariant memSize s) :
    Allocated s.pmm (pmmAllocFrame s.pmm) := by
  have total := inv.total
  have used := inv.used
  unfold pmmAllocFrame
  by_cases full : s.pmm.totalFrames ≤ s.pmm.usedFrames
  · rw [if_pos full]
    rw [BitVec.le_def] at full
    exact .full (Finset.card_eq_zero.mp (by omega))
  · rw [if_neg full]
    cases found : pmmFindFreeFrame s.pmm with
    | none =>
        refine .full (Finset.eq_empty_of_forall_notMem fun f free => ?_)
        exact pmmFindFreeFrame_eq_none found (mem_freeSet.mp free)
    | some f =>
        rcases pmmFindFreeFrame_eq_some found with ⟨free, least⟩
        refine .frame (mem_freeSet.mpr free) fun g freeG => ?_
        by_contra below
        exact least g (Nat.lt_of_not_le below) (mem_freeSet.mp freeG)

/-- An address that `pmm_alloc_frame` returns is not null. -/
theorem address_ne_zero (low : 8 ≤ f) (bound : f < 8192) :
    BitVec.ofNat 32 (f * pmmFrameSize) ≠ 0#32 := by
  intro null
  have place := (frameOf_address bound).2
  rw [null] at place
  have zero : frameOf 0#32 = 0 := rfl
  omega

/-- Erasing from a list of objects with different names erases the name. -/
theorem map_erase_of_nodup {α β : Type*} [DecidableEq α] [DecidableEq β] {g : α → β} {l : List α}
    {a : α} (nodup : (l.map g).Nodup) (member : a ∈ l) :
    (l.erase a).map g = (l.map g).erase (g a) := by
  induction l with
  | nil => cases member
  | cons b l ih =>
      rcases List.nodup_cons.mp nodup with ⟨absent, nodup⟩
      by_cases here : b = a
      · rw [here, List.erase_cons_head, List.map_cons, List.erase_cons_head]
      · have later : a ∈ l := (List.mem_cons.mp member).resolve_left (Ne.symm here)
        have other : g b ≠ g a := fun same => absent (same ▸ List.mem_map_of_mem later)
        rw [List.erase_cons_tail (by simpa using here), List.map_cons, List.map_cons,
          List.erase_cons_tail (by simpa using other), ih nodup later]

theorem PmmInvariant.live (inv : PmmInvariant memSize s) (member : a ∈ s.frames) :
    8 ≤ frameOf a ∧ frameOf a < frameCount memSize ∧ frameOf a < 8192 :=
  mem_usable.mp ((inv.frames.whole _).mpr (.inr (List.mem_map_of_mem member)))

theorem frameOf_eq (a : Word) : (a / BitVec.ofNat 32 pmmFrameSize).toNat = frameOf a :=
  BitVec.toNat_udiv

/-- `pmm_free_frame` puts the frame back. -/
theorem PmmInvariant.freeSet_free (inv : PmmInvariant memSize s) (member : a ∈ s.frames) :
    freeSet (pmmFreeFrame a s.pmm) = insert (frameOf a) (freeSet s.pmm) := by
  rw [pmmFreeFrame, frameOf_eq]
  exact freeSet_clear s.pmm (inv.live member).2.2 _

/-- **Simulation.** Every call is a step of the allocator of least free numbers. -/
theorem PmmInvariant.simulates (inv : PmmInvariant memSize s) (step : PmmStep s op t) :
    LeastFree.Step s.abs op.abs t.abs := by
  cases step with
  | alloc call =>
      have outcome := inv.allocated
      rw [call] at outcome
      cases outcome with
      | full empty => exact .full empty
      | @frame f free least =>
          rcases inv.bound free with ⟨low, -, bound⟩
          have notNull := address_ne_zero low bound
          have number := (frameOf_address bound).2
          simp only [PmmOp.abs, PmmRunState.abs, if_neg notNull, List.map_cons, number,
            freeSet_set]
          exact .take free least
  | @free a live =>
      simp only [PmmOp.abs, PmmRunState.abs, inv.freeSet_free live,
        map_erase_of_nodup inv.frames.nodup live]
      exact .give (List.mem_map_of_mem live)

/-- **Step lemma.** -/
theorem PmmInvariant.step (inv : PmmInvariant memSize s) (step : PmmStep s op t) :
    PmmInvariant memSize t := by
  have frames := inv.frames.step (inv.simulates step)
  have total := inv.total
  have used := inv.used
  cases step with
  | alloc call =>
      have outcome := inv.allocated
      rw [call] at outcome
      cases outcome with
      | full empty => exact inv
      | @frame f free least =>
          rcases inv.bound free with ⟨low, below, bound⟩
          have some_ : 0 < (freeSet s.pmm).card := Finset.card_pos.mpr ⟨f, free⟩
          have count : frameCount memSize < 2 ^ 32 := total ▸ s.pmm.totalFrames.isLt
          refine ⟨total, ?_, fun a member => ?_, frames⟩
          · have next : (s.pmm.usedFrames + 1#32).toNat = s.pmm.usedFrames.toNat + 1 := by
              rw [BitVec.toNat_add]
              exact Nat.mod_eq_of_lt (by simp; omega)
            rw [freeSet_set, next, Finset.card_erase_of_mem free]
            omega
          · rw [if_neg (address_ne_zero low bound)] at member
            rcases List.mem_cons.mp member with rfl | old
            · rw [(frameOf_address bound).1, (frameOf_address bound).2]
            · exact inv.address a old
  | @free a live =>
      rcases inv.live live with ⟨low, below, bound⟩
      have absent : frameOf a ∉ freeSet s.pmm := fun free =>
        inv.frames.disjoint _ free (List.mem_map_of_mem live)
      refine ⟨total, ?_, fun b member => inv.address b (List.mem_of_mem_erase member), frames⟩
      have more : (freeSet s.pmm).card + 1 ≤ frameCount memSize - 8 := by
        rw [← Finset.card_insert_of_notMem absent]
        refine (Finset.card_le_card (t := usable memSize) fun f member => ?_).trans ?_
        · rcases Finset.mem_insert.mp member with rfl | free
          · exact (inv.frames.whole _).mpr (.inr (List.mem_map_of_mem live))
          · exact (inv.frames.whole _).mpr (.inl free)
        · rw [usable, Nat.card_Ico]
          omega
      have counted : 0#32 < s.pmm.usedFrames := by
        rw [BitVec.lt_def]
        exact (by omega : 0 < s.pmm.usedFrames.toNat)
      have next : (s.pmm.usedFrames - 1#32).toNat = s.pmm.usedFrames.toNat - 1 := by bv_omega
      rw [inv.freeSet_free live, Finset.card_insert_of_notMem absent, pmmFreeFrame,
        if_pos counted, next]
      omega

/-- **Run lemma.** -/
theorem PmmInvariant.run {tr : List (Sys.Event PmmRunState PmmOp)} (inv : PmmInvariant memSize s)
    (run : Sys.Run PmmStep s tr t) : PmmInvariant memSize t :=
  run.invariant inv fun inv step => inv.step step

theorem PmmInvariant.freeFrames (inv : PmmInvariant memSize s) :
    (pmmGetFreeFrames s.pmm).toNat = (freeSet s.pmm).card := by
  have total := inv.total
  have used := inv.used
  have fewer : s.pmm.usedFrames ≤ s.pmm.totalFrames := by
    rw [BitVec.le_def]
    omega
  rw [pmmGetFreeFrames, BitVec.toNat_sub_of_le fewer]
  omega

/-- `pmm_alloc_frame` returns `a`: null, with nothing changed, exactly when no frame is
free, and else the address of the least free frame, which it takes. The product is exact
as a signed one. -/
structure AllocSpec (p : PmmState) (a : Word) (q : PmmState) : Prop where
  null : a = 0#32 ↔ freeSet p = ∅
  unchanged : a = 0#32 → q = p
  least : ∀ f ∈ freeSet p, (∀ g ∈ freeSet p, f ≤ g) →
    a.toNat = f * pmmFrameSize ∧ f * pmmFrameSize < 2 ^ 31 ∧ freeSet q = (freeSet p).erase f

theorem PmmInvariant.allocSpec (inv : PmmInvariant memSize s) {q : PmmState}
    (call : pmmAllocFrame s.pmm = (a, q)) : AllocSpec s.pmm a q := by
  have outcome := inv.allocated
  rw [call] at outcome
  cases outcome with
  | full empty =>
      refine ⟨iff_of_true rfl empty, fun _ => rfl, fun f free => ?_⟩
      rw [empty] at free
      cases free
  | @frame f free least =>
      rcases inv.bound free with ⟨low, -, bound⟩
      have notNull := address_ne_zero low bound
      refine ⟨iff_of_false notNull (Finset.ne_empty_of_mem free), fun null => absurd null notNull,
        fun g freeG leastG => ?_⟩
      have same : g = f := Nat.le_antisymm (leastG f free) (least g freeG)
      rw [same]
      exact ⟨(frameOf_address bound).1, address_lt bound, freeSet_set _ _ _⟩

/-- In every run from `pmm_init` the manager does what the allocator of least free numbers
does that starts with the frames of usable memory from the eighth on: its set of free
numbers is the set of clear bits, and `pmm_get_free_frames` is its size. No frame is in
use twice, all are usable memory, and none is lost. -/
theorem pmm_refines {tr : List (Sys.Event PmmRunState PmmOp)}
    (run : Sys.Run PmmStep (pmmRunInit memSize p) tr t) :
    Sys.Run LeastFree.Step ⟨Finset.Ico 8 (min (memSize.toNat / pmmFrameSize) pmmFramesMax), []⟩
        (tr.map (Sys.Event.map PmmRunState.abs PmmOp.abs)) t.abs ∧
      (∀ f, f ∈ t.abs.free ↔ f < pmmFramesMax ∧ Bitmap.test t.pmm.bitmap f = false) ∧
      (pmmGetFreeFrames t.pmm).toNat = (freeSet t.pmm).card ∧
      (∀ a q, pmmAllocFrame t.pmm = (a, q) → AllocSpec t.pmm a q) ∧
      (∀ a ∈ t.frames, freeSet (pmmFreeFrame a t.pmm) = insert (frameOf a) (freeSet t.pmm)) ∧
      t.frames.Nodup ∧
      (∀ a ∈ t.frames, pmmStartAddr ≤ a.toNat ∧ a.toNat + pmmFrameSize ≤ memSize.toNat ∧
        frameOf a ∉ freeSet t.pmm) ∧
      ∀ f, 8 ≤ f → f < min (memSize.toNat / pmmFrameSize) pmmFramesMax →
        f ∈ freeSet t.pmm ∨ ∃ a ∈ t.frames, a.toNat = f * pmmFrameSize := by
  have start := pmmInvariant_init memSize p
  have inv := start.run run
  refine ⟨?_, fun f => mem_freeSet, inv.freeFrames, fun a q => inv.allocSpec,
    fun a member => inv.freeSet_free member, inv.frames.nodup.of_map, fun a member => ?_,
    fun f low high => ?_⟩
  · have abstract_ := run.simulate start (fun inv step => inv.step step)
      (fun inv step => inv.simulates step)
    rw [PmmRunState.abs, pmmRunInit, freeSet_pmmInit] at abstract_
    exact abstract_
  · rcases inv.live member with ⟨low, below, -⟩
    have address := inv.address a member
    have size : pmmFrameSize = 262144 := rfl
    have first : pmmStartAddr = 8 * 262144 := rfl
    simp only [size, first, frameCount] at address below ⊢
    refine ⟨by omega, by omega, fun free => ?_⟩
    exact inv.frames.disjoint _ free (List.mem_map_of_mem member)
  · rcases (inv.frames.whole f).mp (Finset.mem_Ico.mpr ⟨low, high⟩) with free | live
    · exact .inl free
    · rcases List.mem_map.mp live with ⟨a, member, rfl⟩
      exact .inr ⟨a, member, inv.address a member⟩

/-- The manager before `pmm_init`, and one frame allocated of 4 MB. -/
theorem pmm_refines_one :
    ∃ a q, Sys.Run PmmStep (pmmRunInit 0x400000#32 ⟨fun _ => 0#32, 0#32, 0#32⟩)
        [⟨pmmRunInit 0x400000#32 ⟨fun _ => 0#32, 0#32, 0#32⟩, .alloc a, q⟩] q ∧
      (pmmGetFreeFrames q.pmm).toNat = (freeSet q.pmm).card ∧ q.frames.Nodup := by
  have run : Sys.Run PmmStep (pmmRunInit 0x400000#32 ⟨fun _ => 0#32, 0#32, 0#32⟩) _ _ :=
    .snoc .nil (.alloc rfl)
  have facts := pmm_refines run
  exact ⟨_, _, run, facts.2.2.1, facts.2.2.2.2.2.1⟩

end Learnix
