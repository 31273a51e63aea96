import Learnix.KernelHeap

/-!
# Who owns the blocks of the heap

The heap, the processes and the stores to their PCBs and stacks as one system,
`KernelStep`. In every run the used blocks of the heap are two for each process
of the ring, its PCB and its stack (`heap_ownership`).
-/

namespace Learnix

open Machine Tiling CircularList

variable {h : HeapState} {live : List (Word × Word)} {p : Word}

/-! ## The test of `heap_print_info` -/

/-- The counting loop ends. -/
theorem Linked.totalsLoop {l : List Block} {m : Memory} {prev : Word} {fuel : Nat}
    (linked : Linked m prev l 0#32) (fits : Addressable l) (enough : l.length < fuel)
    (t : HeapTotals) : ∃ u, totalsLoop fuel (headAddr 0#32 l) m t = some u := by
  induction l generalizing prev fuel t with
  | nil =>
      cases fuel with
      | zero => cases enough
      | succ fuel => exact ⟨t, rfl⟩
  | cons b bs ih =>
      cases fuel with
      | zero => cases enough
      | succ fuel =>
          obtain ⟨headB, rest⟩ := linked
          have next : (header m (addrOf b)).next = headAddr 0#32 bs := by rw [headB]
          rw [headAddr, Learnix.totalsLoop, if_neg (fits b List.mem_cons_self).1, next]
          exact ih rest (fun c member => fits c (List.mem_cons_of_mem _ member))
            (Nat.lt_of_succ_lt_succ enough) _

theorem Holds.totalsLoop (holds : Holds h live) (t : HeapTotals) :
    ∃ u, totalsLoop pointerSpace h.heapStartPtr h.mem t = some u := by
  obtain ⟨l, inv⟩ := holds
  have represents : Represents h l := inv.represents
  rw [represents.headAddr_eq]
  exact represents.linked.totalsLoop (addressable represents.tiles)
    (length_lt_pointerSpace represents.tiles) t

/-- `heap_print_info` returns, and frees again all that its test got. -/
theorem Holds.heapPrintInfo (holds : Holds h live) :
    ∃ info h', heapPrintInfo h = some (info, h') ∧ Holds h' live := by
  rcases holds.totalsLoop ⟨0#32, 0#32, 0#32, 0#32⟩ with ⟨totals, loop⟩
  rcases holds.exists_kmalloc 64#32 with ⟨p1, h₁, first⟩
  have holds₁ := holds.kmalloc first
  rcases holds₁.exists_kmalloc 128#32 with ⟨p2, h₂, second⟩
  have holds₂ := holds₁.kmalloc second
  rcases holds₂.exists_kmalloc 256#32 with ⟨p3, h₃, third⟩
  have holds₃ := holds₂.kmalloc third
  -- every pointer is still in use, or null, when its turn to be freed comes
  have got₁ : Freeable p1 (allocated p1 h₁ ++ live) := mem_allocated_or_null p1 h₁ live
  have got₂ : Freeable p2 (allocated p2 h₂ ++ (allocated p1 h₁ ++ live)) :=
    mem_allocated_or_null p2 h₂ _
  have got₃ : Freeable p3 (allocated p3 h₃ ++ (allocated p2 h₂ ++ (allocated p1 h₁ ++ live))) :=
    mem_allocated_or_null p3 h₃ _
  have free₁ := holds₃.kfree got₁.append.append
  have free₂ := free₁.kfree (got₂.append.filter (holds₁.ne_of_freeable second got₁))
  have free₃ := free₂.kfree ((got₃.filter (holds₂.ne_of_freeable third got₁.append)).filter
    (holds₂.ne_of_freeable third got₂))
  refine ⟨⟨totals.total / 1024#32, totals.used, totals.free / 1024#32, p1, p2, p3⟩,
    Learnix.kfree p3 (Learnix.kfree p2 (Learnix.kfree p1 h₃)), ?_,
    free₃.of_same holds.nodup fun r => ?_⟩
  · simp only [Learnix.heapPrintInfo, loop, first, second, third, Option.bind_some,
      Option.map_some]
  · simp only [List.mem_filter, decide_eq_true_iff]
    rw [← holds.mem_iff_of_kmalloc first, ← holds₁.mem_iff_of_kmalloc second,
      ← holds₂.mem_iff_of_kmalloc third]
    tauto

/-! ## Heap and processes together -/

/-- The heap, and the processes whose PCBs and stacks are in it. -/
structure KernelState where
  heap : HeapState
  procs : ProcRunState

/-- After `heap_init`, `process_init` and `scheduler_init`. -/
def kernelInit (h : HeapState) (s : ProcState) : KernelState := ⟨heapInit h, procInit s⟩

/-- The PCB and the stack of every process. -/
def processBlocks (s : ProcRunState) : List Word :=
  s.created.flatMap fun p => [p, (s.proc.pcb p).stack]

/-- One operation on the heap and the processes. -/
inductive KernelOp
  | create (entry : Word) (name : List Byte) (priority : Word)
  | process (op : ProcOp)
  | printInfo
  | store (a : Word) (v : Byte)

/-- `a` is an address in the PCB or in the stack of a process. -/
def InProcess (s : ProcRunState) (a : Word) : Prop :=
  ∃ p ∈ s.created,
    Memory.InRange p processBytes a ∨ Memory.InRange (s.proc.pcb p).stack stackSize a

/-- One operation. The bytes of PCBs and stacks may change at any time: by stores to
fields of the PCBs, by interrupts, and by the processes as they run. -/
inductive KernelStep : KernelState → KernelOp → KernelState → Prop
  | create {s : KernelState} {entry priority r : Word} {name : List Byte} {q : ProcState}
    {h : HeapState} :
    processCreate kernelHeap entry name priority s.procs.proc s.heap = some (r, q, h) →
    KernelStep s (.create entry name priority)
      ⟨h, ⟨q, if r = 0#32 then s.procs.created else s.procs.created ++ [r]⟩⟩
  | process {s : KernelState} {op : ProcOp} {t : ProcRunState} :
    (∀ proc stack entry name priority, op ≠ .create proc stack entry name priority) →
    ProcStep s.procs op t → KernelStep s (.process op) ⟨s.heap, t⟩
  | printInfo {s : KernelState} {info : HeapInfo} {h : HeapState} :
    heapPrintInfo s.heap = some (info, h) → KernelStep s .printInfo ⟨h, s.procs⟩
  | store {s : KernelState} {a : Word} {v : Byte} :
    InProcess s.procs a →
    KernelStep s (.store a v) ⟨{ s.heap with mem := s.heap.mem.write8 a v }, s.procs⟩

/-- The blocks in use are those of the processes, and large enough. -/
structure KernelInvariant (s : KernelState) (live : List (Word × Word)) : Prop where
  holds : Holds s.heap live
  procs : ProcInvariant s.procs.proc s.procs.created
  owners : (live.map Prod.fst).Perm (processBlocks s.procs)
  pcb : ∀ p ∈ s.procs.created, ∃ n, (p, n) ∈ live ∧ processBytes ≤ n.toNat
  stack : ∀ p ∈ s.procs.created, ∃ n, ((s.procs.proc.pcb p).stack, n) ∈ live ∧
    stackSize ≤ n.toNat

/-- Apart from creation, operations on processes leave the stacks where they are. -/
theorem ProcStep.stack {s t : ProcRunState} {op : ProcOp} (step : ProcStep s op t)
    (inv : ProcInvariant s.proc s.created)
    (notCreate : ∀ proc stack entry name priority, op ≠ .create proc stack entry name priority) :
    t.created = s.created ∧ ∀ p, (t.proc.pcb p).stack = (s.proc.pcb p).stack := by
  have restated (notTick : ∀ esp, op ≠ .tick esp) :
      t.created = s.created ∧ ∀ p, (t.proc.pcb p).stack = (s.proc.pcb p).stack := by
    rcases step.restated inv notCreate notTick with ⟨restated, same⟩
    refine ⟨same, fun p => ?_⟩
    rcases restated.pcb p with ⟨state, pcb⟩
    rw [pcb]
  cases step with
  | create _ _ => exact absurd rfl (notCreate _ _ _ _ _)
  | tick => exact ⟨rfl, fun p => schedulerTick_field Pcb.stack fun _ _ _ _ => rfl⟩
  | exit => exact restated nofun
  | block _ => exact restated nofun
  | unblock _ => exact restated nofun
  | blockOthers _ => exact restated nofun
  | start => exact restated nofun

variable {s t : KernelState} {op : KernelOp}

theorem kernelInvariant_init (h : HeapState) (q : ProcState) :
    KernelInvariant (kernelInit h q) [] where
  holds := (heapInvariant_init h).holds List.nodup_nil fun _ => Iff.rfl
  procs := procInvariant_init q
  owners := .nil
  pcb := nofun
  stack := nofun

/-- What creates no process and moves no stack leaves the owners as they are. -/
theorem KernelInvariant.of_same (inv : KernelInvariant s live) (holds : Holds t.heap live)
    (procs : ProcInvariant t.procs.proc t.procs.created)
    (created : t.procs.created = s.procs.created)
    (stack : ∀ p ∈ s.procs.created, (t.procs.proc.pcb p).stack = (s.procs.proc.pcb p).stack) :
    KernelInvariant t live := by
  have blocks : processBlocks t.procs = processBlocks s.procs := by
    unfold processBlocks
    rw [created]
    exact List.flatMap_congr fun p member => by rw [stack p member]
  refine ⟨holds, procs, blocks ▸ inv.owners, created ▸ inv.pcb, fun p member => ?_⟩
  rw [created] at member
  rw [stack p member]
  exact inv.stack p member

/-- The PCB that `kmalloc` returns is of no process. -/
theorem KernelInvariant.fresh {h' : HeapState} {size : Word} (inv : KernelInvariant s live)
    (call : kmalloc size s.heap = some (p, h')) : p ∉ s.procs.created := by
  intro member
  rcases inv.pcb p member with ⟨n, known, -⟩
  have some_ : p ≠ 0#32 := fun null => inv.procs.notNull (null ▸ member)
  exact inv.holds.ne_of_kmalloc call some_ known rfl

/-- A byte of a PCB or of a stack is one of a block in use. -/
theorem KernelInvariant.owned {a : Word} (inv : KernelInvariant s live)
    (inside : InProcess s.procs a) : ∃ r ∈ live, Owns r a := by
  obtain ⟨p, member, inPcb | inStack⟩ := inside
  · rcases inv.pcb p member with ⟨n, known, large⟩
    exact ⟨_, known, Nat.lt_of_lt_of_le inPcb large⟩
  · rcases inv.stack p member with ⟨n, known, large⟩
    exact ⟨_, known, Nat.lt_of_lt_of_le inStack large⟩

/-- A new process has got two more blocks. -/
theorem KernelInvariant.joined {h₁ h₂ : HeapState} {q : ProcState} {stack : Word}
    (inv : KernelInvariant s live)
    (first : kmalloc (BitVec.ofNat 32 processBytes) s.heap = some (p, h₁)) (some_ : p ≠ 0#32)
    (second : kmalloc (BitVec.ofNat 32 stackSize) h₁ = some (stack, h₂)) (given : stack ≠ 0#32)
    (procs : ProcInvariant q (s.procs.created ++ [p]))
    (old : ∀ x ∈ s.procs.created, (q.pcb x).stack = (s.procs.proc.pcb x).stack)
    (new : (q.pcb p).stack = stack) :
    ∃ live', KernelInvariant ⟨h₂, ⟨q, s.procs.created ++ [p]⟩⟩ live' := by
  have holds₁ := inv.holds.kmalloc first
  have holds₂ := holds₁.kmalloc second
  have large₁ : processBytes ≤ (blockSize h₁ p).toNat := inv.holds.le_blockSize first some_
  have large₂ : stackSize ≤ (blockSize h₂ stack).toNat := holds₁.le_blockSize second given
  rw [allocated, if_neg given, allocated, if_neg some_] at holds₂
  have blocks : processBlocks ⟨q, s.procs.created ++ [p]⟩ =
      processBlocks s.procs ++ [p, stack] := by
    unfold processBlocks
    rw [List.flatMap_append, List.flatMap_singleton, new]
    exact congrArg (· ++ _) (List.flatMap_congr fun x member => by rw [old x member])
  have known : ∀ {r}, r ∈ live → r ∈ [(stack, blockSize h₂ stack)] ++
      ([(p, blockSize h₁ p)] ++ live) := fun member =>
    List.mem_append_right _ (List.mem_append_right _ member)
  refine ⟨_, holds₂, procs, ?_, fun x member => ?_, fun x member => ?_⟩
  · rw [blocks]
    have swapped : (stack :: p :: live.map Prod.fst).Perm (p :: stack :: live.map Prod.fst) :=
      .swap _ _ _
    have behind : ([p, stack] ++ live.map Prod.fst).Perm (live.map Prod.fst ++ [p, stack]) :=
      List.perm_append_comm
    exact (swapped.trans behind).trans (inv.owners.append_right _)
  · rcases List.mem_append.mp member with earlier | last
    · rcases inv.pcb x earlier with ⟨n, inLive, large⟩
      exact ⟨n, known inLive, large⟩
    · rw [List.mem_singleton.mp last]
      exact ⟨_, by simp, large₁⟩
  · rcases List.mem_append.mp member with earlier | last
    · rcases inv.stack x earlier with ⟨n, inLive, large⟩
      rw [old x earlier]
      exact ⟨n, known inLive, large⟩
    · rw [List.mem_singleton.mp last, new]
      exact ⟨_, by simp, large₂⟩

theorem KernelInvariant.create {entry priority r : Word} {name : List Byte} {q : ProcState}
    {h' : HeapState} (inv : KernelInvariant s live)
    (call : processCreate kernelHeap entry name priority s.procs.proc s.heap =
      some (r, q, h')) :
    ∃ live', KernelInvariant
      ⟨h', ⟨q, if r = 0#32 then s.procs.created else s.procs.created ++ [r]⟩⟩ live' := by
  have creates := Creates.of_call call
  obtain ⟨stack, rest, answered⟩ := creates.answering
  rcases answer : kernelHeap.kmalloc (BitVec.ofNat 32 processBytes) s.heap with ⟨proc, h₁⟩
  rw [answer] at answered
  have block := inv.holds.kernelHeap_kmalloc answer
  have fresh := inv.fresh block
  have procs := inv.procs.step (.create fresh answered)
  have outcome := inv.procs.created_cases fresh answered
  simp only at procs outcome
  cases creates with
  | noBlock empty =>
      have holds : Holds h' live := inv.holds.kmalloc (inv.holds.kernelHeap_kmalloc empty)
      exact ⟨live, inv.of_same holds procs rfl fun _ _ => rfl⟩
  | noStack first some_ empty =>
      rw [answer] at first
      cases first
      have empty := (inv.holds.kmalloc block).kernelHeap_kmalloc empty
      refine ⟨live, inv.of_same (inv.holds.giveBack block some_ empty).1 procs rfl
        fun p member => ?_⟩
      have other : p ≠ proc := fun eq => fresh (eq ▸ member)
      simp only [setPcb_pcb_of_ne other]
  | joined first some_ given notNull link =>
      rw [answer] at first
      cases first
      rw [if_neg some_] at procs ⊢
      have old : ∀ x ∈ s.procs.created, (q.pcb x).stack = (s.procs.proc.pcb x).stack := by
        intro x member
        rcases outcome with ⟨null, -⟩ | ⟨-, -, joined⟩
        · exact absurd null some_
        · rcases joined.kept x fun eq => fresh (eq ▸ member) with ⟨next, pcb⟩
          rw [pcb]
      rcases setUpProcess_link link with ⟨next, pcb⟩
      exact inv.joined block some_ ((inv.holds.kmalloc block).kernelHeap_kmalloc given) notNull
        procs old (by rw [pcb])

/-- `process_create` returns. -/
theorem KernelInvariant.exists_create (inv : KernelInvariant s live) (entry : Word)
    (name : List Byte) (priority : Word) : ∃ r q h',
      processCreate kernelHeap entry name priority s.procs.proc s.heap = some (r, q, h') := by
  rcases first : kernelHeap.kmalloc (BitVec.ofNat 32 processBytes) s.heap with ⟨proc, h₁⟩
  rcases second : kernelHeap.kmalloc (BitVec.ofNat 32 stackSize) h₁ with ⟨stack, h₂⟩
  have fresh := inv.fresh (inv.holds.kernelHeap_kmalloc first)
  rcases inv.procs.processCreate fresh stack entry name priority with ⟨r, q, rest, call, -⟩
  rcases exists_processCreate first second call with ⟨h', call'⟩
  exact ⟨r, q, h', call'⟩

/-- **Step lemma.** -/
theorem KernelInvariant.step (inv : KernelInvariant s live) (step : KernelStep s op t) :
    ∃ live', KernelInvariant t live' := by
  cases step with
  | create call => exact inv.create call
  | @process op t notCreate step =>
      rcases step.stack inv.procs notCreate with ⟨created, place⟩
      exact ⟨live, inv.of_same inv.holds (inv.procs.step step) created fun p _ => place p⟩
  | printInfo call =>
      obtain ⟨info, h', call', holds⟩ := inv.holds.heapPrintInfo
      rw [call] at call'
      cases call'
      exact ⟨live, inv.of_same holds inv.procs rfl fun _ _ => rfl⟩
  | store inside =>
      exact ⟨live, inv.of_same (inv.holds.store (inv.owned inside)) inv.procs rfl fun _ _ => rfl⟩

/-- **Run lemma.** -/
theorem KernelInvariant.run {tr : List (Sys.Event KernelState KernelOp)}
    (inv : KernelInvariant s live) (run : Sys.Run KernelStep s tr t) :
    ∃ live', KernelInvariant t live' :=
  run.invariant (I := fun s => ∃ live, KernelInvariant s live) ⟨live, inv⟩
    fun ⟨_, inv⟩ step => inv.step step

/-! ## What the raw block list says -/

/-- The used blocks of the raw block list are the PCBs and the stacks of the processes in
the ring, each once, and no process has a byte in a free block. -/
structure Ownership (s : KernelState) (bs : List (Word × BlockHeader)) : Prop where
  list : s.heap.blocks = some bs
  ring : s.procs.proc.currentProcess = 0#32 ∧ s.procs.created = [] ∨
    ∃ others, IsRing s.procs.proc.next s.procs.proc.currentProcess others ∧
      (s.procs.proc.currentProcess :: others).Perm s.procs.created
  used : ((usedPairs bs).map fun r => r.1 + BitVec.ofNat 32 headerBytes).Perm
    (processBlocks s.procs)
  distinct : (processBlocks s.procs).Nodup
  pcb : ∀ p ∈ s.procs.created, ∃ n, (p - BitVec.ofNat 32 headerBytes, n) ∈ usedPairs bs ∧
    processBytes ≤ n.toNat
  stack : ∀ p ∈ s.procs.created, ∃ n,
    ((s.procs.proc.pcb p).stack - BitVec.ofNat 32 headerBytes, n) ∈ usedPairs bs ∧
      stackSize ≤ n.toNat
  free : ∀ x ∈ bs, x.2.used = 0#8 → ∀ a,
    Memory.InRange (x.1 + BitVec.ofNat 32 headerBytes) x.2.size.toNat a → ¬ InProcess s.procs a

theorem usedPairs_encode (prev : Word) (l : List Block) : usedPairs (encode prev l) =
    (Tiling.live l).map fun b => (addrOf b, BitVec.ofNat 32 b.size) := by
  induction l generalizing prev with
  | nil => rfl
  | cons b bs ih =>
      have rest := ih (addrOf b)
      unfold usedPairs at rest ⊢
      rw [encode]
      cases used : b.used with
      | false =>
          rw [List.filter_cons_of_neg (by simp [usedByte]), rest, live_cons_free used]
      | true =>
          rw [List.filter_cons_of_pos (by simp [usedByte]), List.map_cons, rest,
            live_cons_used used, List.map_cons]

theorem payloadPtr_eq (b : Block) : payloadPtr b = addrOf b + BitVec.ofNat 32 headerBytes :=
  BitVec.ofNat_add _ _

/-- The payloads of the used blocks are the pointers in use. -/
theorem HeapInvariant.used_perm {s : HeapRunState} {l : List Block} (inv : HeapInvariant s l) :
    ((usedPairs (encode 0#32 l)).map fun r => r.1 + BitVec.ofNat 32 headerBytes).Perm
      (s.live.map Prod.fst) := by
  have tiles := inv.represents.tiles
  have payloads : (usedPairs (encode 0#32 l)).map (fun r => r.1 + BitVec.ofNat 32 headerBytes) =
      (Tiling.live l).map payloadPtr := by
    rw [usedPairs_encode, List.map_map]
    exact List.map_congr_left fun b _ => (payloadPtr_eq b).symm
  have nodup : ((Tiling.live l).map payloadPtr).Nodup :=
    ((tiles.nodup (by decide)).filter _).map_on fun b liveB c liveC same =>
      payloadPtr_inj tiles (mem_live.mp liveB).1 (mem_live.mp liveC).1 same
  rw [payloads]
  refine (List.perm_ext_iff_of_nodup nodup inv.distinct).mpr fun p => ?_
  rw [List.mem_map, List.mem_map]
  constructor
  · rintro ⟨b, liveB, rfl⟩
    exact ⟨allocation b, (inv.live _).mpr ⟨b, liveB, rfl⟩, rfl⟩
  · rintro ⟨r, member, rfl⟩
    rcases (inv.live r).mp member with ⟨b, liveB, rfl⟩
    exact ⟨b, liveB, rfl⟩

theorem KernelInvariant.ownership (inv : KernelInvariant s live) : ∃ bs, Ownership s bs := by
  obtain ⟨l, heap⟩ := inv.holds
  have tiles : HeapTiling l := heap.represents.tiles
  have known : ∀ p n, (p, n) ∈ live ↔
      (p - BitVec.ofNat 32 headerBytes, n) ∈ usedPairs (encode 0#32 l) :=
    heap.blockList.mem_live_iff
  refine ⟨encode 0#32 l, heap.represents.blocks_eq, inv.procs.ring,
    heap.used_perm.trans inv.owners, inv.owners.nodup_iff.mp inv.holds.nodup, fun p member => ?_,
    fun p member => ?_, fun x member free a inside process => ?_⟩
  · rcases inv.pcb p member with ⟨n, inLive, large⟩
    exact ⟨n, (known _ _).mp inLive, large⟩
  · rcases inv.stack p member with ⟨n, inLive, large⟩
    exact ⟨n, (known _ _).mp inLive, large⟩
  · rcases inv.owned process with ⟨r, inLive, owns⟩
    rcases (heap.live r).mp inLive with ⟨c, liveC, rfl⟩
    rcases mem_live.mp liveC with ⟨memberC, usedC⟩
    rcases mem_encode member with ⟨b, memberB, place, used, size⟩
    have ownsB : Owns (allocation b) a := by
      rw [place, size, ← payloadPtr_eq] at inside
      exact inside
    have same := (owns_apart tiles memberC owns).2 b memberB ownsB
    rw [free, same, usedC] at used
    cases used

/-- In every run of operations on processes and of `heap_print_info`, the used blocks of
the heap are the PCBs and the stacks of the processes in the ring, each once. -/
theorem heap_ownership {h : HeapState} {q : ProcState} {tr : List (Sys.Event KernelState KernelOp)}
    (run : Sys.Run KernelStep (kernelInit h q) tr t) : ∃ bs, Ownership t bs := by
  rcases (kernelInvariant_init h q).run run with ⟨live, inv⟩
  exact inv.ownership

/-- The shell is created, and `heap_print_info` called. -/
theorem heap_ownership_shell :
    ∃ t u bs, Sys.Run KernelStep (kernelInit blankHeap blankProc)
        [⟨kernelInit blankHeap blankProc, .create 0x101000#32 [0x41#8] 2#32, t⟩,
          ⟨t, .printInfo, u⟩] u ∧ Ownership u bs := by
  have start := kernelInvariant_init blankHeap blankProc
  rcases start.exists_create 0x101000#32 [0x41#8] 2#32 with ⟨r, q, h, call⟩
  rcases start.create call with ⟨live, inv⟩
  obtain ⟨info, h', printed, -⟩ := inv.holds.heapPrintInfo
  have run : Sys.Run KernelStep (kernelInit blankHeap blankProc) _ _ :=
    (Sys.Run.snoc .nil (.create call)).snoc (.printInfo printed)
  rcases heap_ownership run with ⟨bs, owned⟩
  exact ⟨_, _, bs, run, owned⟩

end Learnix
