import Learnix.Lib.PageWalk

/-!
# Paging

`paging.c`: one page directory, whose first entry points to one page table for
the lowest 4 MB. `paging_map` chooses an entry of this table by the index of the
page in its table and leaves the index into the directory out, so that it maps a
page only below 4 MB; above, it changes the mapping of another page
(`mappings_iff`).

The two arrays are what the C code stores in them: no call is taken to map the page
of `page_table` itself, or of the code and the stack that are in use, elsewhere.
-/

namespace Learnix

open Machine PageWalk

/-- `page_directory` and `page_table`. -/
structure PagingState where
  pageDirectory : Table
  pageTable : Table

/-- `paging_init`, where `page_table` is at the address `tableAddr`. -/
def pagingInit (tableAddr : Word) (s : PagingState) : PagingState :=
  let pageDirectory : Table := fun i => if i < 1024 then 0x00000002#32 else s.pageDirectory i
  let pageTable : Table := fun i =>
    if i < 1024 then (BitVec.ofNat 32 i * 0x1000#32) ||| 3#32 else s.pageTable i
  ⟨Function.update pageDirectory 0 (tableAddr ||| 3#32), pageTable⟩

/-- One call of `paging_map`. -/
structure MapCall where
  virt : Word
  phys : Word
  flags : Word

def pagingMap (s : PagingState) (c : MapCall) : PagingState :=
  let ptIdx := ((c.virt >>> 12) &&& 0x3FF#32).toNat
  { s with
    pageTable := Function.update s.pageTable ptIdx (c.phys ||| (c.flags &&& 0xFFF#32) ||| 1#32) }

/-- The frame at `tableAddr` holds `page_table`, and other frames hold anything. -/
def frames (tableAddr : Word) (others : Word → Table) (s : PagingState) : Word → Table :=
  fun a => if a = tableAddr then s.pageTable else others a

/-- Where the machine finds `v`. -/
def translate (tableAddr : Word) (others : Word → Table) (s : PagingState) (v : Word) :
    Option Word :=
  walk s.pageDirectory (frames tableAddr others s) v

/-! ## What the calls ask for -/

/-- The last call that names the page of `v`. -/
def lastFor (calls : List MapCall) (v : Word) : Option MapCall :=
  calls.reverse.find? fun c => page c.virt = page v

/-- The page of `v` as the last call for it says; without one, the identity below 4 MB. -/
def mapped (calls : List MapCall) (v : Word) : Option Word :=
  match lastFor calls v with
  | some c => some (c.phys + BitVec.ofNat 32 (v.toNat % 4096))
  | none => if v.toNat < 0x400000 then some v else none

/-- A call with page-aligned addresses. -/
def MapCall.PageAligned (c : MapCall) : Prop := Aligned c.virt ∧ Aligned c.phys

variable {tableAddr v : Word} {others : Word → Table} {s : PagingState} {c : MapCall}
  {calls : List MapCall}

theorem lastFor_snoc : lastFor (calls ++ [c]) v =
    if page c.virt = page v then some c else lastFor calls v := by
  rw [lastFor, List.reverse_append, List.reverse_singleton, List.singleton_append, List.find?_cons]
  by_cases same : page c.virt = page v
  · rw [decide_eq_true same, if_pos same]
  · rw [decide_eq_false same, if_neg same]
    rfl

theorem page_lt : page v < 1024 ↔ v.toNat < 0x400000 := by
  rw [page]
  omega

/-! ## What the machine does -/

/-- The entry that `paging_map` writes. -/
def mapEntry (c : MapCall) : Word := entry c.phys (c.flags ||| 1#32)

theorem mapEntry_eq (c : MapCall) :
    mapEntry c = c.phys ||| (c.flags &&& 0xFFF#32) ||| 1#32 := by
  have bit : (1#32 : Word) &&& 0xFFF#32 = 1#32 := rfl
  rw [mapEntry, entry, BitVec.and_or_distrib_right, bit, BitVec.or_assoc]

theorem present_mapEntry (aligned : Aligned c.phys) : Present (mapEntry c) := by
  rw [mapEntry, present_entry aligned, BitVec.getLsbD_or]
  exact Bool.or_true _

/-- `paging_map` writes the entry with the index of the page in its table. -/
theorem pagingMap_pageTable (s : PagingState) (low : c.virt.toNat < 0x400000) :
    (pagingMap s c).pageTable = Function.update s.pageTable (page c.virt) (mapEntry c) := by
  have written : ((c.virt >>> 12) &&& 0x3FF#32).toNat = page c.virt := by
    refine (tableIndex_eq c.virt).trans ?_
    rw [page]
    omega
  rw [mapEntry_eq, ← written]
  rfl

/-- The page directory is as `paging_init` leaves it. -/
structure OneTable (tableAddr : Word) (s : PagingState) : Prop where
  first : s.pageDirectory 0 = entry tableAddr 3#32
  others : ∀ i, 0 < i → i < 1024 → s.pageDirectory i = 2#32

theorem oneTable_pagingInit (tableAddr : Word) (s : PagingState) :
    OneTable tableAddr (pagingInit tableAddr s) := by
  refine ⟨?_, fun i pos below => ?_⟩
  · simp only [pagingInit, Function.update_self]
    rfl
  · simp only [pagingInit, Function.update_of_ne (Nat.ne_of_gt pos), if_pos below]

theorem OneTable.pagingMap (one : OneTable tableAddr s) (c : MapCall) :
    OneTable tableAddr (pagingMap s c) :=
  ⟨one.first, one.others⟩

theorem OneTable.foldl (one : OneTable tableAddr s) (calls : List MapCall) :
    OneTable tableAddr (calls.foldl Learnix.pagingMap s) := by
  induction calls generalizing s with
  | nil => exact one
  | cons c calls ih => exact ih (one.pagingMap c)

/-- Above 4 MB nothing is mapped. -/
theorem OneTable.translate_high (one : OneTable tableAddr s) (high : 0x400000 ≤ v.toNat) :
    translate tableAddr others s v = none := by
  have index := dirIndex_eq v
  have bound := v.isLt
  have absent : s.pageDirectory (dirIndex v) = 2#32 :=
    one.others _ (by rw [index]; omega) (by rw [index]; omega)
  rw [translate, walk, absent, if_neg (by decide)]

/-- Below, `page_table` decides. -/
theorem OneTable.translate_low (one : OneTable tableAddr s) (aligned : Aligned tableAddr)
    (low : v.toNat < 0x400000) :
    translate tableAddr others s v =
      if Present (s.pageTable (page v)) then
        some (frame (s.pageTable (page v)) ||| (v &&& 0xFFF#32)) else none := by
  have first : dirIndex v = 0 := by
    rw [dirIndex_eq]
    omega
  have index : tableIndex v = page v := by
    rw [tableIndex_eq, page]
    omega
  have present : Present (entry tableAddr 3#32) := (present_entry aligned).mpr rfl
  rw [translate, walk, first, one.first, if_pos present, frame_entry aligned, frames, if_pos rfl,
    index]

/-- A call for a page below 4 MB maps this page and no other. -/
theorem OneTable.translate_pagingMap (one : OneTable tableAddr s) (aligned : Aligned tableAddr)
    (pages : c.PageAligned) (low : c.virt.toNat < 0x400000) :
    translate tableAddr others (Learnix.pagingMap s c) v =
      if page c.virt = page v then some (c.phys + BitVec.ofNat 32 (v.toNat % 4096))
      else translate tableAddr others s v := by
  by_cases lowV : v.toNat < 0x400000
  · rw [(one.pagingMap c).translate_low aligned lowV, one.translate_low aligned lowV,
      pagingMap_pageTable s low]
    by_cases same : page c.virt = page v
    · rw [if_pos same, same, Function.update_self, if_pos (present_mapEntry pages.2), mapEntry,
        frame_entry pages.2, or_offset pages.2]
    · rw [if_neg same, Function.update_of_ne (Ne.symm same)]
  · have other : page c.virt ≠ page v := fun same => lowV (page_lt.mp (same ▸ page_lt.mpr low))
    rw [(one.pagingMap c).translate_high (Nat.le_of_not_lt lowV), if_neg other,
      one.translate_high (Nat.le_of_not_lt lowV)]

/-- `paging_init` maps the lowest 4 MB to themselves. -/
theorem translate_pagingInit (aligned : Aligned tableAddr) (s : PagingState) (v : Word) :
    translate tableAddr others (pagingInit tableAddr s) v =
      if v.toNat < 0x400000 then some v else none := by
  have one := oneTable_pagingInit tableAddr s
  by_cases low : v.toNat < 0x400000
  · have within : page v < 1024 := page_lt.mpr low
    have place : (BitVec.ofNat 32 (page v) * 0x1000#32).toNat = page v * 4096 := by
      rw [BitVec.toNat_mul, BitVec.toNat_ofNat, BitVec.toNat_ofNat]
      omega
    have base : Aligned (BitVec.ofNat 32 (page v) * 0x1000#32) := by
      rw [Aligned, place, Nat.mul_mod_left]
    have word : (pagingInit tableAddr s).pageTable (page v) =
        entry (BitVec.ofNat 32 (page v) * 0x1000#32) 3#32 := if_pos within
    have whole : BitVec.ofNat 32 (page v) * 0x1000#32 + BitVec.ofNat 32 (v.toNat % 4096) = v := by
      apply BitVec.eq_of_toNat_eq
      rw [BitVec.toNat_add, place, BitVec.toNat_ofNat, page]
      omega
    rw [one.translate_low aligned low, word, if_pos ((present_entry base).mpr rfl),
      frame_entry base, or_offset base, whole, if_pos low]
  · rw [one.translate_high (Nat.le_of_not_lt low), if_neg low]

/-- **Run lemma.** Calls for pages below 4 MB do what they ask for. -/
theorem translate_foldl (aligned : Aligned tableAddr) (s : PagingState)
    (pages : ∀ c ∈ calls, c.PageAligned) (low : ∀ c ∈ calls, c.virt.toNat < 0x400000) (v : Word) :
    translate tableAddr others (calls.foldl pagingMap (pagingInit tableAddr s)) v =
      mapped calls v := by
  induction calls using List.reverseRecOn with
  | nil => exact translate_pagingInit aligned s v
  | append_singleton calls c ih =>
      obtain ⟨pages, pagesC⟩ := List.forall_mem_append.mp pages
      obtain ⟨low, lowC⟩ := List.forall_mem_append.mp low
      have one := (oneTable_pagingInit tableAddr s).foldl calls
      rw [List.foldl_append, List.foldl_cons, List.foldl_nil,
        one.translate_pagingMap aligned (pagesC c (List.mem_singleton_self c))
          (lowC c (List.mem_singleton_self c)), ih pages low, mapped, mapped, lastFor_snoc]
      by_cases same : page c.virt = page v
      · rw [if_pos same, if_pos same]
      · rw [if_neg same, if_neg same]

/-- The machine maps every address as the calls after `paging_init` ask for if and only if
they all name pages below 4 MB. -/
theorem mappings_iff (aligned : Aligned tableAddr) (others : Word → Table) (s : PagingState)
    (pages : ∀ c ∈ calls, c.PageAligned) :
    (∀ v, translate tableAddr others (calls.foldl pagingMap (pagingInit tableAddr s)) v =
      mapped calls v) ↔ ∀ c ∈ calls, c.virt.toNat < 0x400000 := by
  constructor
  · intro right c member
    by_contra high
    have one := (oneTable_pagingInit tableAddr s).foldl calls
    have unmapped := right c.virt
    rw [one.translate_high (Nat.le_of_not_lt high), mapped] at unmapped
    -- some call names the page of `c.virt`, because `c` does
    cases last : lastFor calls c.virt with
    | some d =>
        rw [last] at unmapped
        cases unmapped
    | none =>
        have absent := List.find?_eq_none.mp last c (List.mem_reverse.mpr member)
        exact absent (decide_eq_true rfl)
  · exact fun low v => translate_foldl aligned s pages low v

/-- Tables before `paging_init`. -/
def blankPaging : PagingState := ⟨fun _ => 0#32, fun _ => 0#32⟩

/-- A page below 4 MB, mapped twice: the second call counts. -/
theorem mappings_iff_twice :
    translate 0x10A000#32 (fun _ _ => 0#32)
        ([⟨0x3FF000#32, 0x500000#32, 3#32⟩, ⟨0x3FF000#32, 0x600000#32, 7#32⟩].foldl pagingMap
          (pagingInit 0x10A000#32 blankPaging)) 0x3FF123#32 = some 0x600123#32 := by
  have all : ∀ v, translate 0x10A000#32 (fun _ _ => 0#32)
      ([⟨0x3FF000#32, 0x500000#32, 3#32⟩, ⟨0x3FF000#32, 0x600000#32, 7#32⟩].foldl pagingMap
        (pagingInit 0x10A000#32 blankPaging)) v =
      mapped [⟨0x3FF000#32, 0x500000#32, 3#32⟩, ⟨0x3FF000#32, 0x600000#32, 7#32⟩] v :=
    (mappings_iff (by decide) _ _ (by simp [MapCall.PageAligned, Aligned])).mpr (by simp)
  rw [all]
  decide

/-- The page at 4 MB is not mapped, and the one at 0 is instead. -/
theorem high_page_unmapped :
    translate 0x10A000#32 (fun _ _ => 0#32)
        (pagingMap (pagingInit 0x10A000#32 blankPaging) ⟨0x400000#32, 0x300000#32, 3#32⟩)
        0x400000#32 = none ∧
      mapped [⟨0x400000#32, 0x300000#32, 3#32⟩] 0x400000#32 = some 0x300000#32 ∧
      translate 0x10A000#32 (fun _ _ => 0#32)
        (pagingMap (pagingInit 0x10A000#32 blankPaging) ⟨0x400000#32, 0x300000#32, 3#32⟩)
        0x000000#32 = some 0x300000#32 ∧
      mapped [⟨0x400000#32, 0x300000#32, 3#32⟩] 0x000000#32 = some 0x000000#32 := by
  decide

end Learnix
