import WllOs.Library.Attempts
import WllOs.Library.Concurrent
import WllOs.Library.Ledger
import WllOs.Mm.Basic
import WllOs.Mm.BuddyFrames

namespace WllOs

def FRAME_CACHE_CAPACITY : Nat := 256
def FRAME_CACHE_REFILL : Nat := 64
def FRAME_CACHE_FLUSH : Nat := 64

-- The array of pages is a stack whose top is the head of the list.
structure LocalFrameCache where
  frames : List Nat
  deriving DecidableEq, Repr

namespace LocalFrameCache

def empty : LocalFrameCache where
  frames := []

variable (cache : LocalFrameCache)

def pop : Option Nat × LocalFrameCache :=
  match cache.frames with
  | []            => (none, cache)
  | ppn :: frames => (some ppn, ⟨frames⟩)

def push (ppn : Nat) : Bool × LocalFrameCache :=
  if cache.frames.length = FRAME_CACHE_CAPACITY then (false, cache) else (true, ⟨ppn :: cache.frames⟩)

-- Pops pages until `len` of them are taken or none is left.
def drain (len : Nat) : List Nat × LocalFrameCache :=
  (cache.frames.take len, ⟨cache.frames.drop len⟩)

-- The loop that refills the cache. It returns the pages that do not fit.
def pushAll : List Nat → LocalFrameCache → List Nat × LocalFrameCache
  | [],           cache => ([], cache)
  | ppn :: pages, cache =>
    match cache.push ppn with
    | (true, cache)  => pushAll pages cache
    | (false, cache) =>
      let (overflow, cache) := pushAll pages cache
      (ppn :: overflow, cache)

-- The page that is released, and room for it if there is none. It returns the pages that are flushed.
def pushOrFlush (ppn : Nat) : List Nat × LocalFrameCache :=
  match cache.push ppn with
  | (true, cache) => ([], cache)
  | (false, cache) =>
    let (flushed, cache) := cache.drain FRAME_CACHE_FLUSH
    (flushed, (cache.push ppn).2)

end LocalFrameCache

-- A range of pages as the allocator of frames gives it out.
def frameRun (start pages : Nat) : List Nat :=
  List.range' start (nextPowerOfTwo pages)

def isManagedRange (regions : List (Nat × Nat)) (startPpn pages : Nat) : Bool :=
  pages = 0 || regions.any fun (start, stop) => start ≤ startPpn && startPpn + pages ≤ stop

def IsManaged (regions : List (Nat × Nat)) (ppn : Nat) : Prop :=
  ∃ region ∈ regions, region.1 ≤ ppn ∧ ppn < region.2

-- The allocator has no range of this many pages.
def Exhausted (pages : Nat) (allocator : FrameAllocator) : Prop :=
  (allocator.alloc pages).1 = none

-- What happens to pages.
inductive FrameEvent
  | handedOut (pages : List Nat)
  | released (pages : List Nat)
  deriving DecidableEq, Repr

namespace FrameEvent

-- Whether a page was handed out and has not been released since.
def isOut (ppn : Nat) : List FrameEvent → Bool
  | []                         => false
  | handedOut pages :: history => decide (ppn ∈ pages) || isOut ppn history
  | released pages :: history  => !decide (ppn ∈ pages) && isOut ppn history

end FrameEvent

-- The pages that a call has taken out of one place and not put into another yet. Of these, `credit` are counted as
-- free, and `debt` pages that it has put into the free lists are not counted yet.
structure FrameHand where
  pages : Multiset Nat
  credit : Nat
  debt : Nat
  deriving DecidableEq

namespace FrameHand

def empty : FrameHand where
  pages  := 0
  credit := 0
  debt   := 0

-- Takes pages that are counted as free.
def take (hand : FrameHand) (pages : List Nat) : FrameHand :=
  { hand with pages := hand.pages + (pages : Multiset Nat), credit := hand.credit + pages.length }

def put (hand : FrameHand) (pages : List Nat) : FrameHand :=
  { hand with pages := hand.pages - (pages : Multiset Nat), credit := hand.credit - pages.length }

-- Takes pages of which all but `uncounted` are counted as free.
def takeUncounted (hand : FrameHand) (pages : List Nat) (uncounted : Nat) : FrameHand :=
  { hand.take pages with credit := hand.credit + (pages.length - uncounted) }

def putUncounted (hand : FrameHand) (pages : List Nat) (uncounted : Nat) : FrameHand :=
  { hand.put pages with credit := hand.credit - (pages.length - uncounted) }

-- The counter of free pages has grown.
def countFreed (hand : FrameHand) (pages : Nat) : FrameHand :=
  { hand with credit := hand.credit + (pages - hand.debt), debt := hand.debt - pages }

def countTaken (hand : FrameHand) (pages : Nat) : FrameHand :=
  { hand with credit := hand.credit - pages }

end FrameHand

-- The first fields are the state of the allocator. The others say who holds the pages that it has given out:
-- `trackers` are the `FrameTracker` values that exist, `raw` the pages that trackers were turned into, and
-- `contiguous` the ranges. The histories of requests and of pages start with the last event. An attempt that fails is
-- recorded with what the allocator then had.
structure FrameState (τ : Type) (cpus : Nat) where
  allocator : FrameAllocator
  regions : List (Nat × Nat)
  caches : Fin cpus → LocalFrameCache
  freeManagedFrames : Nat
  refs : Nat → Nat
  trackers : List Nat
  raw : List Nat
  contiguous : List (Nat × Nat)
  discarded : List Nat
  hands : τ → FrameHand
  attempts : List (Attempt τ (Fin cpus) Nat FrameAllocator)
  history : List FrameEvent

namespace FrameState

variable {τ : Type} [DecidableEq τ] {cpus : Nat}

def initial : FrameState τ cpus where
  allocator         := .new
  regions           := []
  caches _          := .empty
  freeManagedFrames := 0
  refs _            := 0
  trackers          := []
  raw               := []
  contiguous        := []
  discarded         := []
  hands _           := .empty
  attempts          := []
  history           := []

variable (state : FrameState τ cpus)

def addFramesRange (start stop : Nat) : FrameState τ cpus :=
  let startPpn := max ((start + pageSize - 1) / pageSize) 1
  let stopPpn := stop / pageSize
  if startPpn < stopPpn then
    { state with
      allocator := state.allocator.addFrame startPpn stopPpn
      regions := state.regions ++ [(startPpn, stopPpn)]
      freeManagedFrames := (state.freeManagedFrames + (stopPpn - startPpn)) % 2 ^ 64 }
  else
    state

-- The ranges of memory that are found when the kernel starts.
def boot (ranges : List (Nat × Nat)) : FrameState τ cpus :=
  ranges.foldl (fun state range => state.addFramesRange range.1 range.2) initial

def tell (attempt : Attempt τ (Fin cpus) Nat FrameAllocator) : FrameState τ cpus :=
  { state with attempts := attempt :: state.attempts }

def record (event : FrameEvent) : FrameState τ cpus :=
  { state with history := event :: state.history }

def setHand (thread : τ) (hand : FrameHand) : FrameState τ cpus :=
  { state with hands := Function.update state.hands thread hand }

def mapHand (thread : τ) (f : FrameHand → FrameHand) : FrameState τ cpus :=
  state.setHand thread (f (state.hands thread))

def setCache (cpu : Fin cpus) (cache : LocalFrameCache) : FrameState τ cpus :=
  { state with caches := Function.update state.caches cpu cache }

def setRefs (ppn refs : Nat) : FrameState τ cpus :=
  { state with refs := Function.update state.refs ppn refs }

end FrameState

-- Allocates until a range is managed. Each range that is not is discarded, so that there is a last attempt.
def takeManaged (regions : List (Nat × Nat)) (pages : Nat) :
    (attempts : Nat) → FrameAllocator → (discarded : List Nat) → Option Nat × FrameAllocator × List Nat
  | 0,            allocator, discarded => (none, allocator, discarded)
  | attempts + 1, allocator, discarded =>
    match allocator.alloc pages with
    | (none, allocator)     => (none, allocator, discarded)
    | (some ppn, allocator) =>
      if isManagedRange regions ppn pages then (some ppn, allocator, discarded)
      else takeManaged regions pages attempts allocator (discarded ++ frameRun ppn pages)

-- The rounds of the loop with ranges of `2 ^ k` pages and less.
def centralAllocRunFrom (regions : List (Nat × Nat)) :
    (k : Nat) → FrameAllocator → (discarded : List Nat) → Option (Nat × Nat) × FrameAllocator × List Nat
  | k, allocator, discarded =>
    match takeManaged regions (2 ^ k) (allocator.freePages + 1) allocator discarded with
    | (some ppn, allocator, discarded) => (some (ppn, 2 ^ k), allocator, discarded)
    | (none, allocator, discarded)     =>
      match k with
      | 0     => (none, allocator, discarded)
      | k + 1 => centralAllocRunFrom regions k allocator discarded

def centralAllocRun (regions : List (Nat × Nat)) (maxPages : Nat) (allocator : FrameAllocator) :
    Option (Nat × Nat) × FrameAllocator × List Nat :=
  if maxPages = 0 then (none, allocator, []) else centralAllocRunFrom regions (Nat.log2 maxPages) allocator []

-- The sections that hold a lock and the operations on atomic variables are atomic.
inductive FrameInstr (cpus : Nat) : Type → Type
  | begin : FrameInstr cpus Unit
  | refuse (pages : Nat) : FrameInstr cpus Unit
  | pop (cpu : Fin cpus) : FrameInstr cpus (Option Nat)
  | centralAllocRun (maxPages : Nat) : FrameInstr cpus (Option (Nat × Nat))
  | centralDeallocPages (pages : List Nat) : FrameInstr cpus Unit
  | drain (cpu : Fin cpus) : FrameInstr cpus (List Nat)
  | pushAll (cpu : Fin cpus) (pages : List Nat) : FrameInstr cpus (List Nat)
  | pushOrFlush (cpu : Fin cpus) (ppn : Nat) : FrameInstr cpus (List Nat)
  | countFreed (pages : Nat) : FrameInstr cpus Unit
  | countTaken (pages : Nat) : FrameInstr cpus Unit
  | newTracker (ppn : Nat) : FrameInstr cpus Unit
  | cloneTracker (ppn : Nat) : FrameInstr cpus Unit
  | dropTracker (ppn : Nat) : FrameInstr cpus Nat
  | intoRawPpn (ppn : Nat) : FrameInstr cpus Unit
  | takeRaw (ppn : Nat) : FrameInstr cpus Unit
  | allocContiguous (pages : Nat) : FrameInstr cpus (Option Nat)
  | discardContiguous (ppn pages : Nat) : FrameInstr cpus Unit
  | giveContiguous (ppn pages : Nat) : FrameInstr cpus Unit
  | takeContiguous (ppn pages : Nat) : FrameInstr cpus Unit
  | deallocContiguous (ppn pages : Nat) : FrameInstr cpus Unit

namespace FrameInstr

variable {τ : Type} [DecidableEq τ] {cpus : Nat} (thread : τ)

def popExec (cpu : Fin cpus) (state : FrameState τ cpus) : Option Nat × FrameState τ cpus :=
  match (state.caches cpu).pop with
  | (none, _)         => (none, state)
  | (some ppn, cache) => (some ppn, (state.setCache cpu cache).mapHand thread (·.take [ppn]))

def centralAllocRunExec (maxPages : Nat) (state : FrameState τ cpus) : Option (Nat × Nat) × FrameState τ cpus :=
  match WllOs.centralAllocRun state.regions maxPages state.allocator with
  | (some (start, pages), allocator, discarded) =>
    (some (start, pages), { state with allocator, discarded := state.discarded ++ discarded }.mapHand thread
      (·.take (List.range' start pages)))
  | (none, allocator, discarded) =>
    (none, { state with allocator, discarded := state.discarded ++ discarded }.tell (.failed thread 1 allocator))

def centralDeallocPagesExec (pages : List Nat) (state : FrameState τ cpus) : FrameState τ cpus :=
  { state with allocator := pages.foldl (fun allocator ppn => allocator.dealloc ppn 1) state.allocator }.mapHand thread
    (·.put pages)

def drainExec (cpu : Fin cpus) (state : FrameState τ cpus) : List Nat × FrameState τ cpus :=
  let (pages, cache) := (state.caches cpu).drain FRAME_CACHE_CAPACITY
  (pages, ((state.setCache cpu cache).mapHand thread (·.take pages)).tell (.drained thread cpu))

def pushAllExec (cpu : Fin cpus) (pages : List Nat) (state : FrameState τ cpus) : List Nat × FrameState τ cpus :=
  let (overflow, cache) := LocalFrameCache.pushAll pages (state.caches cpu)
  (overflow, (state.setCache cpu cache).mapHand thread fun hand => (hand.put pages).take overflow)

def pushOrFlushExec (cpu : Fin cpus) (ppn : Nat) (state : FrameState τ cpus) : List Nat × FrameState τ cpus :=
  let (flushed, cache) := (state.caches cpu).pushOrFlush ppn
  (flushed, (state.setCache cpu cache).mapHand thread fun hand => (hand.put [ppn]).take flushed)

def countFreedExec (pages : Nat) (state : FrameState τ cpus) : FrameState τ cpus :=
  { state with freeManagedFrames := (state.freeManagedFrames + pages) % 2 ^ 64 }.mapHand thread (·.countFreed pages)

def countTakenExec (pages : Nat) (state : FrameState τ cpus) : FrameState τ cpus :=
  { state with freeManagedFrames := (state.freeManagedFrames + (2 ^ 64 - pages)) % 2 ^ 64 }.mapHand thread
    (·.countTaken pages)

-- An assertion that fails stops the kernel.
def newTrackerExec (ppn : Nat) (state : FrameState τ cpus) : Option (FrameState τ cpus) :=
  if state.refs ppn = 0 then
    some (({ state.setRefs ppn 1 with trackers := ppn :: state.trackers }.mapHand thread
      (·.putUncounted [ppn] 1)).record (.handedOut [ppn]))
  else
    none

def cloneTrackerExec (ppn : Nat) (state : FrameState τ cpus) : Option (FrameState τ cpus) :=
  if ppn ∈ state.trackers ∧ state.refs ppn ≠ 0 ∧ state.refs ppn ≠ 2 ^ 32 - 1 then
    some { state.setRefs ppn (state.refs ppn + 1) with trackers := ppn :: state.trackers }
  else
    none

-- The caller owns the tracker that it drops.
def dropTrackerExec (ppn : Nat) (state : FrameState τ cpus) : Option (Nat × FrameState τ cpus) :=
  let old := state.refs ppn
  let dropped := { state.setRefs ppn (old - 1) with trackers := state.trackers.erase ppn }
  if ppn ∈ state.trackers ∧ old ≠ 0 then
    some (old, if old = 1 then (dropped.mapHand thread (·.takeUncounted [ppn] 1)).record (.released [ppn]) else dropped)
  else
    none

def intoRawPpnExec (ppn : Nat) (state : FrameState τ cpus) : Option (FrameState τ cpus) :=
  if ppn ∈ state.trackers ∧ state.refs ppn = 1 then
    some { state.setRefs ppn 0 with trackers := state.trackers.erase ppn, raw := ppn :: state.raw }
  else
    none

def takeRawExec (ppn : Nat) (state : FrameState τ cpus) : Option (FrameState τ cpus) :=
  if ppn ∈ state.raw ∧ state.refs ppn = 0 then
    some (({ state with raw := state.raw.erase ppn }.mapHand thread (·.takeUncounted [ppn] 1)).record (.released [ppn]))
  else
    none

def allocContiguousExec (pages : Nat) (state : FrameState τ cpus) : Option Nat × FrameState τ cpus :=
  match state.allocator.alloc pages with
  | (none, allocator)     => (none, { state with allocator }.tell (.failed thread pages allocator))
  | (some ppn, allocator) => (some ppn, { state with allocator }.mapHand thread (·.take (frameRun ppn pages)))

def discardContiguousExec (ppn pages : Nat) (state : FrameState τ cpus) : FrameState τ cpus :=
  { state with discarded := state.discarded ++ frameRun ppn pages }.mapHand thread (·.put (frameRun ppn pages))

def giveContiguousExec (ppn pages : Nat) (state : FrameState τ cpus) : FrameState τ cpus :=
  ({ state with contiguous := (ppn, pages) :: state.contiguous }.mapHand thread
    (·.putUncounted (frameRun ppn pages) pages)).record (.handedOut (frameRun ppn pages))

def takeContiguousExec (ppn pages : Nat) (state : FrameState τ cpus) : Option (FrameState τ cpus) :=
  if state.contiguous.contains (ppn, pages) then
    some (({ state with contiguous := state.contiguous.erase (ppn, pages) }.mapHand thread
      (·.takeUncounted (frameRun ppn pages) pages)).record (.released (frameRun ppn pages)))
  else
    none

def deallocContiguousExec (ppn pages : Nat) (state : FrameState τ cpus) : FrameState τ cpus :=
  { state with allocator := state.allocator.dealloc ppn pages }.mapHand thread fun hand =>
    { hand.putUncounted (frameRun ppn pages) pages with debt := hand.debt + pages }

def machine : Machine (FrameInstr cpus) (FrameState τ cpus) τ where
  exec thread
    | begin,                    state => some ((), state.tell (.began thread))
    | refuse pages,             state => some ((), state.tell (.refused thread pages))
    | pop cpu,                  state => some (popExec thread cpu state)
    | centralAllocRun maxPages, state => some (centralAllocRunExec thread maxPages state)
    | centralDeallocPages pages, state => some ((), centralDeallocPagesExec thread pages state)
    | drain cpu,                state => some (drainExec thread cpu state)
    | pushAll cpu pages,        state => some (pushAllExec thread cpu pages state)
    | pushOrFlush cpu ppn,      state => some (pushOrFlushExec thread cpu ppn state)
    | countFreed pages,         state => some ((), countFreedExec thread pages state)
    | countTaken pages,         state => some ((), countTakenExec thread pages state)
    | newTracker ppn,           state => (newTrackerExec thread ppn state).map ((), ·)
    | cloneTracker ppn,         state => (cloneTrackerExec ppn state).map ((), ·)
    | dropTracker ppn,          state => dropTrackerExec thread ppn state
    | intoRawPpn ppn,           state => (intoRawPpnExec ppn state).map ((), ·)
    | takeRaw ppn,              state => (takeRawExec thread ppn state).map ((), ·)
    | allocContiguous pages,    state => some (allocContiguousExec thread pages state)
    | discardContiguous ppn pages, state => some ((), discardContiguousExec thread ppn pages state)
    | giveContiguous ppn pages, state => some ((), giveContiguousExec thread ppn pages state)
    | takeContiguous ppn pages, state => (takeContiguousExec thread ppn pages state).map ((), ·)
    | deallocContiguous ppn pages, state => some ((), deallocContiguousExec thread ppn pages state)

end FrameInstr

section

variable {cpus : Nat}

def centralDeallocPages (pages : List Nat) : Prog (FrameInstr cpus) Unit :=
  if pages.isEmpty then pure () else do @FrameInstr.centralDeallocPages cpus pages

def drainFrameCaches : List (Fin cpus) → Prog (FrameInstr cpus) Unit
  | []           => pure ()
  | cpu :: later => do
    let pages ← FrameInstr.drain cpu
    centralDeallocPages pages
    drainFrameCaches later

def drainAllFrameCaches : Prog (FrameInstr cpus) Unit :=
  drainFrameCaches (List.finRange cpus)

-- The rest of `alloc_cached_frame`, once there is a run of pages.
def refillFrameCache (cpu : Fin cpus) (startPpn pages : Nat) : Prog (FrameInstr cpus) (Option Nat) := do
  let overflow ← FrameInstr.pushAll cpu (List.range' (startPpn + 1) (pages - 1))
  centralDeallocPages overflow
  return some startPpn

-- Interrupts are off, so that the processor stays the same.
def allocCachedFrame (cpu : Fin cpus) : Prog (FrameInstr cpus) (Option Nat) := do
  match ← FrameInstr.pop cpu with
  | some ppn => return some ppn
  | none     =>
    match ← @FrameInstr.centralAllocRun cpus FRAME_CACHE_REFILL with
    | some (startPpn, pages) => refillFrameCache cpu startPpn pages
    | none =>
      drainAllFrameCaches
      match ← @FrameInstr.centralAllocRun cpus FRAME_CACHE_REFILL with
      | some (startPpn, pages) => refillFrameCache cpu startPpn pages
      | none                   => return none

def cacheDeallocatedFrame (cpu : Fin cpus) (ppn : Nat) : Prog (FrameInstr cpus) Unit := do
  let flushed ← FrameInstr.pushOrFlush cpu ppn
  centralDeallocPages flushed

def allocFrame (cpu : Fin cpus) : Prog (FrameInstr cpus) (Option Nat) := do
  @FrameInstr.begin cpus
  match ← allocCachedFrame cpu with
  | none     => do
    @FrameInstr.refuse cpus 1
    return none
  | some ppn => do
    @FrameInstr.countTaken cpus 1
    @FrameInstr.newTracker cpus ppn
    return some ppn

def deallocFrameInner (regions : List (Nat × Nat)) (cpu : Fin cpus) (ppn : Nat) : Prog (FrameInstr cpus) Unit :=
  if !isManagedRange regions ppn 1 then pure ()
  else do
    @FrameInstr.countFreed cpus 1
    cacheDeallocatedFrame cpu ppn

def dropFrameTracker (regions : List (Nat × Nat)) (cpu : Fin cpus) (ppn : Nat) : Prog (FrameInstr cpus) Unit := do
  let old ← @FrameInstr.dropTracker cpus ppn
  if old = 1 then deallocFrameInner regions cpu ppn

def deallocFrame (regions : List (Nat × Nat)) (cpu : Fin cpus) (ppn : Nat) : Prog (FrameInstr cpus) Unit := do
  @FrameInstr.takeRaw cpus ppn
  deallocFrameInner regions cpu ppn

-- One round of the loop. The value says whether the caches were drained.
def allocContiguousRound (regions : List (Nat × Nat)) (pages : Nat) (drainedCaches : Bool) :
    Prog (FrameInstr cpus) (Bool ⊕ Option Nat) := do
  match ← @FrameInstr.allocContiguous cpus pages with
  | none =>
    if drainedCaches then
      @FrameInstr.refuse cpus pages
      return .inr none
    else
      drainAllFrameCaches
      return .inl true
  | some ppn =>
    if isManagedRange regions ppn pages then
      @FrameInstr.countTaken cpus pages
      @FrameInstr.giveContiguous cpus ppn pages
      return .inr (some ppn)
    else
      @FrameInstr.discardContiguous cpus ppn pages
      return .inl drainedCaches

def allocContiguousFrames (regions : List (Nat × Nat)) (pages : Nat) : Prog (FrameInstr cpus) (Option Nat) := do
  if pages = 0 then
    return some 0
  else
    @FrameInstr.begin cpus
    Prog.loop (allocContiguousRound regions pages) false

def deallocContiguousFrames (regions : List (Nat × Nat)) (startPpn pages : Nat) : Prog (FrameInstr cpus) Unit :=
  if pages = 0 then pure ()
  else do
    @FrameInstr.takeContiguous cpus startPpn pages
    if !isManagedRange regions startPpn pages then pure ()
    else do
      @FrameInstr.deallocContiguous cpus startPpn pages
      @FrameInstr.countFreed cpus pages

-- What the kernel does with frames. Whoever releases one holds it until then.
inductive FrameCall (regions : List (Nat × Nat)) : {α : Type} → Prog (FrameInstr cpus) α → Prop
  | allocFrame (cpu : Fin cpus) : FrameCall regions (WllOs.allocFrame cpu)
  | cloneTracker (ppn : Nat) : FrameCall regions (@FrameInstr.cloneTracker cpus ppn : Prog (FrameInstr cpus) Unit)
  | dropTracker (cpu : Fin cpus) (ppn : Nat) : FrameCall regions (dropFrameTracker regions cpu ppn)
  | intoRawPpn (ppn : Nat) : FrameCall regions (@FrameInstr.intoRawPpn cpus ppn : Prog (FrameInstr cpus) Unit)
  | deallocFrame (cpu : Fin cpus) (ppn : Nat) : FrameCall regions (WllOs.deallocFrame regions cpu ppn)
  | allocContiguous (pages : Nat) (small : pages < 2 ^ 64) : FrameCall regions (allocContiguousFrames regions pages)
  | deallocContiguous (startPpn pages : Nat) : FrameCall regions (deallocContiguousFrames regions startPpn pages)

end

-- Where a page may be: in the free lists, in the cache of a processor, handed out in one of three ways, in a range
-- that was discarded, or with a call that moves it.
inductive FramePlace (τ : Type) (cpus : Nat)
  | buddy
  | cache (cpu : Fin cpus)
  | tracked
  | raw
  | contiguous
  | discarded
  | hand (thread : τ)

namespace FrameState

variable {τ : Type} {cpus : Nat} (state : FrameState τ cpus)

def placement (ppn : Nat) : Placement (FramePlace τ cpus)
  | .buddy      => state.allocator.cover ppn
  | .cache cpu  => (state.caches cpu).frames.count ppn
  | .tracked    => if state.refs ppn = 0 then 0 else 1
  | .raw        => state.raw.count ppn
  | .contiguous => (state.contiguous.flatMap fun (start, pages) => frameRun start pages).count ppn
  | .discarded  => state.discarded.count ppn
  | .hand t     => (state.hands t).pages.count ppn

def cachedPages : Nat :=
  ∑ cpu, (state.caches cpu).frames.length

-- The pages that ranges have on top of what was asked for.
def padding : Nat :=
  (state.contiguous.map fun (_, pages) => nextPowerOfTwo pages - pages).sum

-- What the counter of free pages counts, other than the pages that calls hold.
def stock : Nat :=
  state.allocator.freePages + state.cachedPages + state.padding + state.discarded.length

-- Every page is at one place, the trackers of a page are its references, and draining a cache empties it.
structure Conserved (regions : List (Nat × Nat)) : Prop where
  once     : ∀ ppn, IsManaged regions ppn → (state.placement ppn).Once
  owners   : ∀ ppn, state.refs ppn = state.trackers.count ppn
  capacity : ∀ cpu, (state.caches cpu).frames.length ≤ FRAME_CACHE_CAPACITY

def Counted [Fintype τ] : Prop :=
  (state.freeManagedFrames + ∑ t, (state.hands t).debt) % 2 ^ 64 =
    (state.stock + ∑ t, (state.hands t).credit) % 2 ^ 64

-- No page is handed out again before it is released.
def HandedOutOnce : Prop :=
  ∀ later earlier pages, state.history = later ++ .handedOut pages :: earlier →
    ∀ ppn ∈ pages, FrameEvent.isOut ppn earlier = false

-- A request is refused after the caches of all processors were drained for it and the allocator then failed.
def RefusedWhenExhausted [DecidableEq τ] : Prop :=
  Attempt.Justified Exhausted state.attempts

end FrameState

end WllOs
