import WllOs.Library.BoundedStack
import WllOs.Mm.BuddyHeap
import WllOs.Mm.FrameCaches

namespace WllOs

def MIN_CACHE_SHIFT : Nat := 3
def MAX_CACHE_SHIFT : Nat := 12
def SMALL_CLASS_COUNT : Nat := MAX_CACHE_SHIFT - MIN_CACHE_SHIFT + 1
def CACHE_CAPACITY : Nat := 64
def REFILL_BATCH : Nat := 16
def FLUSH_BATCH : Nat := 16

abbrev SmallClass := Fin SMALL_CLASS_COUNT

-- For each class, a stack of blocks whose top is the head of the list.
structure SmallCache where
  blocks : SmallClass → List Nat

namespace SmallCache

def empty : SmallCache where
  blocks _ := []

variable (cache : SmallCache) (cls : SmallClass)

def set (blocks : List Nat) : SmallCache where
  blocks := Function.update cache.blocks cls blocks

def pop : Option Nat × SmallCache :=
  match cache.blocks cls with
  | []            => (none, cache)
  | ptr :: blocks => (some ptr, cache.set cls blocks)

def drainClass (len : Nat) : List Nat × SmallCache :=
  ((cache.blocks cls).take len, cache.set cls ((cache.blocks cls).drop len))

-- The loop that refills the cache. It returns the blocks that do not fit.
def pushAll (ptrs : List Nat) : List Nat × SmallCache :=
  let (returned, blocks) := BoundedStack.pushAll CACHE_CAPACITY ptrs (cache.blocks cls)
  (returned, cache.set cls blocks)

-- The block that is released, and room for it if there is none. It returns the blocks that are flushed.
def pushOrFlush (ptr : Nat) : List Nat × SmallCache :=
  let (flushed, blocks) := BoundedStack.pushOrFlush CACHE_CAPACITY FLUSH_BATCH ptr (cache.blocks cls)
  (flushed, cache.set cls blocks)

end SmallCache

def cacheClass (layout : Layout) : Option SmallClass :=
  if h : layout.shift ≤ MAX_CACHE_SHIFT then some ⟨layout.shift - MIN_CACHE_SHIFT, by
    simp only [SMALL_CLASS_COUNT, MAX_CACHE_SHIFT, MIN_CACHE_SHIFT] at *
    omega⟩
  else none

def classLayout (cls : SmallClass) : Layout where
  size       := 2 ^ (cls.val + MIN_CACHE_SHIFT)
  alignShift := cls.val + MIN_CACHE_SHIFT
  fits       := by
    have hle : 2 ^ (cls.val + MIN_CACHE_SHIFT) ≤ 2 ^ MAX_CACHE_SHIFT := by
      refine Nat.pow_le_pow_right Nat.two_pos ?_
      have := cls.isLt
      simp only [SMALL_CLASS_COUNT, MAX_CACHE_SHIFT, MIN_CACHE_SHIFT] at *
      omega
    exact (Nat.add_le_add hle hle).trans (by decide)

-- The layout that the central allocator is asked for.
def Layout.central (layout : Layout) : Layout :=
  (cacheClass layout).elim layout classLayout

-- The heap has no block for a layout.
def Heap.Exhausted (layout : Layout) (heap : Heap) : Prop :=
  (heap.alloc layout).1 = none

-- What goes through the central allocator.
inductive HeapEvent
  | granted (ptrs : List Nat) (layout : Layout)
  | returned (ptrs : List Nat) (layout : Layout)
  deriving DecidableEq, Repr

namespace HeapEvent

-- The layout that a block was obtained with, unless it was given back since.
def layoutOf (ptr : Nat) : List HeapEvent → Option Layout
  | []                             => none
  | granted ptrs layout :: history => if ptr ∈ ptrs then some layout else layoutOf ptr history
  | returned ptrs _ :: history     => if ptr ∈ ptrs then none else layoutOf ptr history

end HeapEvent

-- The first fields are the state of the allocator, and `regions` the memory that it was given. The others say who
-- holds the blocks: `outstanding` are those that callers hold, with the layouts that they asked for, and `hands` those
-- that a call has taken out of one place and not put into another yet, with the layouts of the central allocator. The
-- histories of requests and of blocks start with the last event.
structure HeapState (τ : Type) (cpus : Nat) where
  central : Heap
  regions : List (Nat × Nat)
  caches : Fin cpus → SmallCache
  outstanding : List (Nat × Layout)
  hands : τ → Multiset (Nat × Layout)
  attempts : List (Attempt τ (Fin cpus × SmallClass) Layout Heap)
  history : List HeapEvent

namespace HeapState

variable {τ : Type} [DecidableEq τ] {cpus : Nat}

def initial : HeapState τ cpus where
  central     := .empty
  regions     := []
  caches _    := .empty
  outstanding := []
  hands _     := 0
  attempts    := []
  history     := []

variable (state : HeapState τ cpus)

def tell (attempt : Attempt τ (Fin cpus × SmallClass) Layout Heap) : HeapState τ cpus :=
  { state with attempts := attempt :: state.attempts }

def record (event : HeapEvent) : HeapState τ cpus :=
  { state with history := event :: state.history }

def setCache (cpu : Fin cpus) (cache : SmallCache) : HeapState τ cpus :=
  { state with caches := Function.update state.caches cpu cache }

def withLayout (layout : Layout) (ptrs : List Nat) : Multiset (Nat × Layout) :=
  (ptrs.map (·, layout) : List (Nat × Layout))

-- A thread puts blocks elsewhere, and takes others.
def exchange (thread : τ) (layout : Layout) (put take : List Nat) : HeapState τ cpus :=
  let hand := state.hands thread - withLayout layout put + withLayout layout take
  { state with hands := Function.update state.hands thread hand }

end HeapState

-- The atomic steps of the allocator: what a thread does under one lock. The instructions `give` and `take` pass a
-- block to the caller and back.
inductive HeapInstr (cpus : Nat) : Type → Type
  | begin : HeapInstr cpus Unit
  | refuse (layout : Layout) : HeapInstr cpus Unit
  | pop (cpu : Fin cpus) (cls : SmallClass) : HeapInstr cpus (Option Nat)
  | centralAllocBatch (layout : Layout) (len : Nat) : HeapInstr cpus (List Nat)
  | centralDeallocBatch (layout : Layout) (blocks : List Nat) : HeapInstr cpus Unit
  | drainClass (cpu : Fin cpus) (cls : SmallClass) : HeapInstr cpus (List Nat)
  | pushAll (cpu : Fin cpus) (cls : SmallClass) (ptrs : List Nat) : HeapInstr cpus (List Nat)
  | pushOrFlush (cpu : Fin cpus) (cls : SmallClass) (ptr : Nat) : HeapInstr cpus (List Nat)
  | give (ptr : Nat) (layout : Layout) : HeapInstr cpus Unit
  | take (ptr : Nat) (layout : Layout) : HeapInstr cpus Unit
  | addToHeap (start stop : Nat) : HeapInstr cpus Unit

-- The loop allocates until the batch is full or the heap has no block.
def allocBatch (layout : Layout) : (len : Nat) → Heap → List Nat × Heap
  | 0,       heap => ([], heap)
  | len + 1, heap =>
    match heap.alloc layout with
    | (none, heap)     => ([], heap)
    | (some ptr, heap) =>
      let (ptrs, heap) := allocBatch layout len heap
      (ptr :: ptrs, heap)

namespace HeapInstr

open HeapState

variable {τ : Type} [DecidableEq τ] {cpus : Nat} (thread : τ)

def popExec (cpu : Fin cpus) (cls : SmallClass) (state : HeapState τ cpus) : Option Nat × HeapState τ cpus :=
  match (state.caches cpu).pop cls with
  | (none, _)         => (none, state)
  | (some ptr, cache) => (some ptr, (state.setCache cpu cache).exchange thread (classLayout cls) [] [ptr])

def centralAllocBatchExec (layout : Layout) (len : Nat) (state : HeapState τ cpus) : List Nat × HeapState τ cpus :=
  match allocBatch layout len state.central with
  | ([], central)   => ([], { state with central }.tell (.failed thread layout central))
  | (ptrs, central) => (ptrs, ({ state with central }.exchange thread layout [] ptrs).record (.granted ptrs layout))

def centralDeallocBatchExec (layout : Layout) (blocks : List Nat) (state : HeapState τ cpus) : HeapState τ cpus :=
  let central := blocks.foldl (fun central ptr => central.dealloc ptr layout) state.central
  ({ state with central }.exchange thread layout blocks []).record (.returned blocks layout)

def drainClassExec (cpu : Fin cpus) (cls : SmallClass) (state : HeapState τ cpus) : List Nat × HeapState τ cpus :=
  let (ptrs, cache) := (state.caches cpu).drainClass cls CACHE_CAPACITY
  (ptrs, ((state.setCache cpu cache).exchange thread (classLayout cls) [] ptrs).tell (.drained thread (cpu, cls)))

def pushAllExec (cpu : Fin cpus) (cls : SmallClass) (ptrs : List Nat) (state : HeapState τ cpus) :
    List Nat × HeapState τ cpus :=
  let (returned, cache) := (state.caches cpu).pushAll cls ptrs
  (returned, (state.setCache cpu cache).exchange thread (classLayout cls) ptrs returned)

def pushOrFlushExec (cpu : Fin cpus) (cls : SmallClass) (ptr : Nat) (state : HeapState τ cpus) :
    List Nat × HeapState τ cpus :=
  let (flushed, cache) := (state.caches cpu).pushOrFlush cls ptr
  (flushed, (state.setCache cpu cache).exchange thread (classLayout cls) [ptr] flushed)

def giveExec (ptr : Nat) (layout : Layout) (state : HeapState τ cpus) : HeapState τ cpus :=
  { state with outstanding := (ptr, layout) :: state.outstanding }.exchange thread layout.central [ptr] []

-- The caller holds the block that it releases, and has it from the same layout.
def takeExec (ptr : Nat) (layout : Layout) (state : HeapState τ cpus) : Option (HeapState τ cpus) :=
  if (ptr, layout) ∈ state.outstanding then
    some ({ state with outstanding := state.outstanding.erase (ptr, layout) }.exchange thread layout.central [] [ptr])
  else
    none

-- The memory is in no region yet.
def addToHeapExec (start stop : Nat) (state : HeapState τ cpus) : Option (HeapState τ cpus) :=
  let region := Heap.wordRange start stop
  if 0 < region.1 ∧ region.2 < 2 ^ 64 ∧ ∀ other ∈ state.regions, region.2 ≤ other.1 ∨ other.2 ≤ region.1 then
    (state.central.addToHeap start stop).map fun central => { state with central, regions := region :: state.regions }
  else
    none

def machine : Machine (HeapInstr cpus) (HeapState τ cpus) τ where
  exec thread
    | begin,                             state => some ((), state.tell (.began thread))
    | refuse layout,                     state => some ((), state.tell (.refused thread layout))
    | pop cpu cls,                       state => some (popExec thread cpu cls state)
    | centralAllocBatch layout len,      state => some (centralAllocBatchExec thread layout len state)
    | centralDeallocBatch layout blocks, state => some ((), centralDeallocBatchExec thread layout blocks state)
    | drainClass cpu cls,                state => some (drainClassExec thread cpu cls state)
    | pushAll cpu cls ptrs,              state => some (pushAllExec thread cpu cls ptrs state)
    | pushOrFlush cpu cls ptr,           state => some (pushOrFlushExec thread cpu cls ptr state)
    | give ptr layout,                   state => some ((), giveExec thread ptr layout state)
    | take ptr layout,                   state => (takeExec thread ptr layout state).map ((), ·)
    | addToHeap start stop,              state => (addToHeapExec start stop state).map ((), ·)

end HeapInstr

section

variable {cpus : Nat}

def centralDeallocBatch (layout : Layout) (blocks : List Nat) : Prog (HeapInstr cpus) Unit :=
  if blocks.isEmpty then pure () else do @HeapInstr.centralDeallocBatch cpus layout blocks

-- The loops over the processors and over the classes.
def drainCaches : List (Fin cpus × SmallClass) → Prog (HeapInstr cpus) Unit
  | []                  => pure ()
  | (cpu, cls) :: later => do
    let blocks ← HeapInstr.drainClass cpu cls
    centralDeallocBatch (classLayout cls) blocks
    drainCaches later

def drainAllCaches : Prog (HeapInstr cpus) Unit :=
  drainCaches ((List.finRange cpus).product (List.finRange SMALL_CLASS_COUNT))

-- The rest of `alloc_small`, once there are blocks.
def refillCache (cpu : Fin cpus) (cls : SmallClass) : List Nat → Prog (HeapInstr cpus) (Option Nat)
  | []             => return none
  | result :: ptrs => do
    let returned ← HeapInstr.pushAll cpu cls ptrs
    centralDeallocBatch (classLayout cls) returned
    return some result

-- Interrupts are off, so that the processor stays the same.
def allocSmall (cpu : Fin cpus) (cls : SmallClass) : Prog (HeapInstr cpus) (Option Nat) := do
  match ← HeapInstr.pop cpu cls with
  | some ptr => return some ptr
  | none     =>
    match ← @HeapInstr.centralAllocBatch cpus (classLayout cls) REFILL_BATCH with
    | ptr :: ptrs => refillCache cpu cls (ptr :: ptrs)
    | []          => do
      drainAllCaches
      let ptrs ← @HeapInstr.centralAllocBatch cpus (classLayout cls) REFILL_BATCH
      refillCache cpu cls ptrs

def deallocSmall (cpu : Fin cpus) (ptr : Nat) (cls : SmallClass) : Prog (HeapInstr cpus) Unit := do
  let flushed ← HeapInstr.pushOrFlush cpu cls ptr
  centralDeallocBatch (classLayout cls) flushed

def allocLarge (layout : Layout) : Prog (HeapInstr cpus) (Option Nat) := do
  match ← @HeapInstr.centralAllocBatch cpus layout 1 with
  | ptr :: _ => return some ptr
  | []       => do
    drainAllCaches
    let ptrs ← @HeapInstr.centralAllocBatch cpus layout 1
    return ptrs.head?

-- A null pointer is no block.
def allocBlock (cpu : Fin cpus) (layout : Layout) : Prog (HeapInstr cpus) (Option Nat) :=
  match cacheClass layout with
  | some cls => allocSmall cpu cls
  | none     => allocLarge layout

def allocHeap (cpu : Fin cpus) (layout : Layout) : Prog (HeapInstr cpus) (Option Nat) := do
  @HeapInstr.begin cpus
  match ← allocBlock cpu layout with
  | some ptr => do
    @HeapInstr.give cpus ptr layout
    return some ptr
  | none     => do
    @HeapInstr.refuse cpus layout.central
    return none

def deallocHeap (cpu : Fin cpus) (ptr : Nat) (layout : Layout) : Prog (HeapInstr cpus) Unit := do
  @HeapInstr.take cpus ptr layout
  match cacheClass layout with
  | some cls => deallocSmall cpu ptr cls
  | none     => centralDeallocBatch layout [ptr]

-- What the kernel does with its heap. Whoever releases a block holds it until then.
inductive HeapCall : {α : Type} → Prog (HeapInstr cpus) α → Prop
  | alloc (cpu : Fin cpus) (layout : Layout) : HeapCall (allocHeap cpu layout)
  | dealloc (cpu : Fin cpus) (ptr : Nat) (layout : Layout) : HeapCall (deallocHeap cpu ptr layout)
  | addToHeap (start stop : Nat) : HeapCall (@HeapInstr.addToHeap cpus start stop : Prog (HeapInstr cpus) Unit)

end

-- Where an address may be: in a free block of the central allocator, in a block of a cache, in one that a caller
-- holds, or in one with a call that moves it.
inductive HeapPlace (τ : Type) (cpus : Nat)
  | central
  | cache (cpu : Fin cpus) (cls : SmallClass)
  | outstanding
  | hand (thread : τ)

namespace HeapState

variable {τ : Type} {cpus : Nat} (state : HeapState τ cpus)

-- How many of the blocks an address lies in.
def heldCover (addr : Nat) (blocks : Multiset (Nat × Layout)) : Nat :=
  (blocks.map fun block => BuddyBlocks.covers addr block.2.shift block.1).sum

-- The blocks at a place other than the central allocator, with the layouts that they were obtained with.
def held : HeapPlace τ cpus → Multiset (Nat × Layout)
  | .central       => 0
  | .cache cpu cls => withLayout (classLayout cls) ((state.caches cpu).blocks cls)
  | .outstanding   => (state.outstanding.map fun (ptr, layout) => (ptr, layout.central) : List (Nat × Layout))
  | .hand t        => state.hands t

def placement (addr : Nat) : Placement (HeapPlace τ cpus)
  | .central => state.central.cover addr
  | place    => heldCover addr (state.held place)

def ReturnedAsGranted : Prop :=
  ∀ later earlier ptrs layout, state.history = later ++ .returned ptrs layout :: earlier →
    ∀ ptr ∈ ptrs, HeapEvent.layoutOf ptr earlier = some layout

-- Every address of the heap is at one place, and no other address is. A block that is cached was obtained with the
-- layout of its class, and blocks are given back with the layout that they were obtained with.
structure Conserved : Prop where
  placed   : Placement.Placed (IsManaged state.regions) state.placement
  capacity : ∀ cpu cls, ((state.caches cpu).blocks cls).length ≤ CACHE_CAPACITY
  cached   : ∀ cpu cls, ∀ ptr ∈ (state.caches cpu).blocks cls,
               HeapEvent.layoutOf ptr state.history = some (classLayout cls)
  returned : state.ReturnedAsGranted

-- The blocks that callers hold are as large and as aligned as they asked for, all of their bytes are theirs, and they
-- do not overlap.
structure Served : Prop where
  size     : ∀ block ∈ state.outstanding, block.2.size ≤ block.2.blockSize
  whole    : ∀ block ∈ state.outstanding, ∀ addr, block.1 ≤ addr → addr < block.1 + block.2.blockSize →
               IsManaged state.regions addr ∧ state.placement addr .outstanding = 1
  aligned  : ∀ block ∈ state.outstanding, block.2.align ∣ block.1
  disjoint : state.outstanding.Pairwise fun a b =>
               a.1 + a.2.blockSize ≤ b.1 ∨ b.1 + b.2.blockSize ≤ a.1

-- A request is refused after all caches of all processors were drained for it and the central allocator then failed.
def RefusedWhenExhausted [DecidableEq τ] : Prop :=
  Attempt.Justified Heap.Exhausted state.attempts

end HeapState

end WllOs
