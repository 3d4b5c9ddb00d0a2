import WllOs.Mm.Coherence
import WllOs.Mm.PageFault

namespace WllOs

-- The address spaces of all processes and the frames that the kernel owns besides their resident pages:
-- the ones of the clean page cache and the ones of the shared memory segments.
structure World where
  spaces : List MemorySet
  cleanCache : List Ppn
  segments : List Ppn
  mem : Ppn → Page

-- The number of resident pages that own a frame.
def MemorySet.owners (ms : MemorySet) (frame : Ppn) : Nat :=
  (ms.areas.flatMap (·.resident.iter)).countP (·.frame = frame)

namespace World

def init : World where
  spaces := []
  cleanCache := []
  segments := []
  mem := fun _ => .zero

-- The reference count of a frame as it is read from one of its owners.
def refCount (w : World) (frame : Ppn) : Nat :=
  max 1 ((w.spaces.map (·.owners frame)).sum + w.cleanCache.count frame + w.segments.count frame)

def Owned (w : World) (frame : Ppn) : Prop :=
  frame ∈ w.cleanCache ∨ frame ∈ w.segments ∨
  ∃ ms ∈ w.spaces, ∃ area ∈ ms.areas, ∃ n page, area.resident.lookup n = some page ∧ page.frame = frame

-- The operations on the address space of process `k` together with the frames that the allocator
-- hands out next, and the ones on the frames of the kernel.
inductive Op
  | newBare
  | insertLazyArea (k startVa endVa : Nat) (permission : PTEFlags) (backing : MapAreaBacking)
  | insertFramedArea (k : Nat) (supply : List Ppn) (startVa endVa : Nat) (permission : PTEFlags)
      (backing : MapAreaBacking)
  | insertSharedArea (k startVa endVa : Nat) (permission : PTEFlags) (shmid base offset : Nat)
      (frames : List Ppn)
  | handlePageFault (k : Nat) (env : Env) (supply : List Ppn) (faultAddr : Nat) (access : Access)
  | prepareWrite (k : Nat) (env : Env) (supply : List Ppn) (dst len : Nat)
  | protectRange (k start stop : Nat) (flags : PTEFlags)
  | unmapRange (k start stop : Nat)
  | discardAnonymousRange (k start stop : Nat)
  | forkCow (k : Nat) (supply : List Ppn)
  | releaseUserAreas (k : Nat)
  | store (k addr : Nat) (byte : UInt8)
  | cacheFrame (frame : Ppn) (data : Page)
  | evictFrame (frame : Ppn)
  | createSegment (frames : List Ppn)
  | dropSegment (frames : List Ppn)

-- The environment of an operation. The reference counts are the ones of the world.
def env (w : World) (env : Env) : Env :=
  { env with refCount := w.refCount }

-- Exchanges the address space of a process and the contents of memory.
def setSpace (w : World) (k : Nat) (ms : MemorySet) (mem : Ppn → Page) : World :=
  { w with spaces := w.spaces.set k ms, mem }

-- The byte that user code of a process stores or loads, if its page table permits the access.
def store (w : World) (ms : MemorySet) (addr : Nat) (byte : UInt8) : World :=
  match ms.translate addr with
  | none => w
  | some pte =>
    if pte.flags.permits .store then
      { w with
        mem := Function.update w.mem pte.ppn <|
          Function.update (w.mem pte.ppn) ⟨addr % pageSize, Nat.mod_lt _ pageSize_pos⟩ byte }
    else
      w

def load (w : World) (ms : MemorySet) (addr : Nat) : Option UInt8 :=
  match ms.translate addr with
  | none => none
  | some pte =>
    if pte.flags.permits .load then
      some (w.mem pte.ppn ⟨addr % pageSize, Nat.mod_lt _ pageSize_pos⟩)
    else
      none

-- The effect of an operation on the address space of a process.
def stepSpace (w : World) (k : Nat) (ms : MemorySet) : Op → World
  | .insertLazyArea _ startVa endVa permission backing =>
    match ms.insertLazyAreaWithBacking startVa endVa permission backing with
    | .ok ms   => w.setSpace k ms w.mem
    | .error _ => w
  | .insertFramedArea _ supply startVa endVa permission backing =>
    let (ms, frames, _) :=
      ms.insertFramedAreaWithBacking ⟨w.mem, supply⟩ startVa endVa permission backing
    w.setSpace k ms frames.mem
  | .insertSharedArea _ startVa endVa permission shmid base offset frames =>
    match ms.insertSharedFramedArea startVa endVa permission (.sharedMemory shmid base offset) frames with
    | .ok ms   => w.setSpace k ms w.mem
    | .error _ => w
  | .handlePageFault _ env supply faultAddr access =>
    match MemorySet.handlePageFault (w.env env) ms ⟨w.mem, supply⟩ faultAddr access.isStore access.isExec with
    | .ok (ms, frames) => w.setSpace k ms frames.mem
    | .error _         => w
  | .prepareWrite _ env supply dst len =>
    let (ms, frames, _) := MemorySet.prepareWrite (w.env env) ms ⟨w.mem, supply⟩ dst len
    w.setSpace k ms frames.mem
  | .protectRange _ start stop flags =>
    match MemorySet.protectRange w.refCount ms start stop flags with
    | .ok ms   => w.setSpace k ms w.mem
    | .error _ => w
  | .unmapRange _ start stop =>
    match ms.unmapRange start stop with
    | .ok ms   => w.setSpace k ms w.mem
    | .error _ => w
  | .discardAnonymousRange _ start stop =>
    match ms.discardAnonymousRange start stop with
    | .ok (ms, _) => w.setSpace k ms w.mem
    | .error _    => w
  | .forkCow _ supply =>
    match ms.forkCow ⟨w.mem, supply⟩ with
    | (ms, frames, .ok child) =>
      { w.setSpace k ms frames.mem with spaces := w.spaces.set k ms ++ [child] }
    | (ms, frames, .error _) => w.setSpace k ms frames.mem
  | .releaseUserAreas _ => w.setSpace k ms.releaseUserAreas w.mem
  | .store _ addr byte  => w.store ms addr byte
  | _ => w

-- The process whose address space an operation is applied to.
def Op.process : Op → Option Nat
  | .insertLazyArea k .. | .insertFramedArea k .. | .insertSharedArea k .. | .handlePageFault k ..
  | .prepareWrite k .. | .protectRange k .. | .unmapRange k .. | .discardAnonymousRange k ..
  | .forkCow k .. | .releaseUserAreas k | .store k .. => some k
  | _ => none

def step (w : World) (op : Op) : World :=
  match op with
  | .newBare              => { w with spaces := w.spaces ++ [.newBare] }
  | .cacheFrame frame data =>
    { w with cleanCache := frame :: w.cleanCache, mem := Function.update w.mem frame data }
  | .evictFrame frame     => { w with cleanCache := w.cleanCache.erase frame }
  | .createSegment frames => { w with segments := frames ++ w.segments }
  | .dropSegment frames   => { w with segments := w.segments.diff frames }
  | op =>
    match op.process with
    | none => w
    | some k =>
      match w.spaces[k]? with
      | none    => w
      | some ms => w.stepSpace k ms op

end World

-- The page of an address space lies in areas that are private.
def MemorySet.IsPrivate (ms : MemorySet) (vpn : Nat) : Prop :=
  ∀ area ∈ ms.areas, area.contains (vpn * pageSize) → area.backing.isPrivate

-- An insertion finds its range free.
def MemorySet.RangeFree (ms : MemorySet) (startVa endVa : Nat) : Prop :=
  ∀ start stop, pageRange startVa endVa = some (start, stop) → ∀ a ∈ ms.areas, ¬a.overlaps start stop

namespace World

-- What the frame allocator guarantees: it hands out every frame once, and only frames without an owner.
def Fresh (w : World) (supply : List Ppn) : Prop :=
  supply.Nodup ∧ ∀ frame ∈ supply, ¬w.Owned frame

-- What the rest of the kernel guarantees to an operation. The permissions of user mappings come from
-- `prot_to_pte_flags` and the program headers, which set `U` and never `COW`.
def Op.Valid (w : World) : Op → Prop
  | .insertLazyArea _ _ _ permission _ => permission.u ∧ ¬permission.cow
  | .insertFramedArea _ supply _ _ permission _ => w.Fresh supply ∧ permission.u ∧ ¬permission.cow
  | .insertSharedArea _ _ _ permission _ _ _ frames =>
    permission.u ∧ ¬permission.cow ∧ ∀ frame ∈ frames, frame ∈ w.segments
  | .handlePageFault _ env supply _ _ | .prepareWrite _ env supply _ _ =>
    w.Fresh supply ∧ (w.env env).Lawful (· ∈ w.cleanCache)
  | .protectRange _ _ _ flags => flags.u ∧ ¬flags.cow
  | .forkCow _ supply => w.Fresh supply
  | .cacheFrame frame _ => ¬w.Owned frame
  | .createSegment frames => ∀ frame ∈ frames, ¬w.Owned frame
  | _ => True

-- The worlds that are reached by operations that meet a condition.
inductive Reachable (condition : World → Op → Prop) : World → Prop
  | init : Reachable condition init
  | step {w : World} {op : Op} :
      Reachable condition w → op.Valid w → condition w op → Reachable condition (w.step op)

-- The frame is owned by no other process than `k` and not by the clean page cache.
def Sole (w : World) (k : Nat) (frame : Ppn) : Prop :=
  frame ∉ w.cleanCache ∧ ∀ (j : Nat) ms, w.spaces[j]? = some ms → j ≠ k →
    ∀ isPrivate flags page, Owns ms.areas isPrivate flags page → page.frame ≠ frame

-- The frame is owned by no private page and not by the clean page cache.
def NoPrivate (w : World) (frame : Ppn) : Prop :=
  frame ∉ w.cleanCache ∧ ∀ (j : Nat) ms, w.spaces[j]? = some ms →
    ∀ flags page, Owns ms.areas true flags page → page.frame ≠ frame

-- The frames that may be mapped with write permission.
def Grant (w : World) (k : Nat) (isPrivate : Bool) (frame : Ppn) : Prop :=
  if isPrivate then w.Sole k frame else w.NoPrivate frame

-- The invariant behind the isolation of private pages.
structure Iso (w : World) : Prop where
  exposed  : ∀ (k : Nat) ms, w.spaces[k]? = some ms → ∀ isPrivate flags page,
              Owns ms.areas isPrivate flags page → Exposed isPrivate flags page →
              w.Grant k isPrivate page.frame
  segments : ∀ frame ∈ w.segments, w.NoPrivate frame

structure Inv (w : World) : Prop where
  iso   : w.Iso
  sound : ∀ ms ∈ w.spaces, ms.Sound

-- No writable entry of a private page maps a frame of another process or of the clean page cache, and
-- a store in one process is not seen through a private mapping of another one.
structure Isolated (w : World) : Prop where
  writable : ∀ (k : Nat) ms vpn pte, w.spaces[k]? = some ms → ms.pageTable vpn = some pte → pte.flags.w →
              ms.IsPrivate vpn → w.Sole k pte.ppn
  store    : ∀ (j k : Nat) ms ms' addr addr' byte, w.spaces[k]? = some ms → w.spaces[j]? = some ms' → j ≠ k →
              ms'.IsPrivate (addr' / pageSize) →
              (w.store ms addr byte).load ms' addr' = w.load ms' addr'

-- A change of protections to writable meets no private page that is not copy-on-write although its frame
-- is owned by another process or by the clean page cache, and no shared page whose frame is owned by a
-- private page or by the clean page cache.
def ProtectSafe (w : World) : Op → Prop
  | .protectRange k start stop flags => ∀ ms, w.spaces[k]? = some ms → ms.rangeCovered start stop →
    flags.w → ∀ area ∈ ms.visitedAreas start stop, area.flags.withoutCow ≠ flags →
    ∀ n page, area.resident.lookup n = some page →
      area.backing.isPrivate ∧ page.state = .cow ∨ w.Grant k area.backing.isPrivate page.frame
  | _ => True

-- Insertions find their ranges free.
def InsertsFree (w : World) : Op → Prop
  | .insertLazyArea k startVa endVa _ _ | .insertFramedArea k _ startVa endVa _ _ =>
    ∀ ms, w.spaces[k]? = some ms → ms.RangeFree startVa endVa
  | _ => True

end World

-- What an area is besides the pages that are resident in it.
def MapArea.topology (area : MapArea) : Nat × Nat × PTEFlags × MapAreaBacking :=
  (area.startVa, area.endVa, area.flags, area.backing)

namespace MemorySet

-- The pages of private anonymous areas in a range.
def Discards (ms : MemorySet) (start stop vpn : Nat) : Prop :=
  (start ≤ vpn * pageSize ∧ vpn * pageSize < stop) ∧ ∃ view, ms.meaning vpn = some view ∧ view.backing = .anonymous

-- The pages of private anonymous areas in a range lose their frames, and nothing else changes.
structure Discarded (ms : MemorySet) (start stop : Nat) (ms' : MemorySet) : Prop where
  topology : ms'.areas.map MapArea.topology = ms.areas.map MapArea.topology
  dropped  : ∀ vpn, ms.Discards start stop vpn →
              ms'.meaning vpn = (ms.meaning vpn).map ({ · with page := none }) ∧ ms'.pageTable vpn = none
  kept     : ∀ vpn, ¬ms.Discards start stop vpn →
              ms'.meaning vpn = ms.meaning vpn ∧ ms'.pageTable vpn = ms.pageTable vpn

end MemorySet

namespace World

-- Any number of operations that other processes and the kernel perform in the meantime.
def Meanwhile (k : Nat) : World → World → Prop :=
  Relation.ReflTransGen fun w w' => ∃ op : Op, op.Valid w ∧ op.process ≠ some k ∧ w' = w.step op

-- A load of the page faults, and after the fault it returns nothing but zero. If the area is readable and
-- there are frames for the window of the fault, then it does return.
structure NextLoadZero (w : World) (k vpn : Nat) (ms : MemorySet) : Prop where
  faults : ∀ addr, addr / pageSize = vpn → w.load ms addr = none
  zero   : ∀ addr env supply, addr / pageSize = vpn → (Op.handlePageFault k env supply addr .load).Valid w →
            ∃ ms', (w.step (.handlePageFault k env supply addr .load)).spaces[k]? = some ms' ∧
            (∀ byte, (w.step (.handlePageFault k env supply addr .load)).load ms' addr = some byte → byte = 0) ∧
            (ms.Allows addr .load → MemorySet.anonymousFaultWindowPages ≤ supply.length →
              (w.step (.handlePageFault k env supply addr .load)).load ms' addr = some 0)

-- What `discard_anonymous_range` does to the world.
structure DiscardExact (w : World) (k start stop : Nat) (ms : MemorySet) : Prop where
  frames  : ∀ ms' discarded, ms.discardAnonymousRange start stop = .ok (ms', discarded) → ms.Discarded start stop ms'
  failure : ∀ error, ms.discardAnonymousRange start stop = .error error →
              w.step (.discardAnonymousRange k start stop) = w
  others  : ∀ j, j ≠ k → (w.step (.discardAnonymousRange k start stop)).spaces[j]? = w.spaces[j]?
  mem     : (w.step (.discardAnonymousRange k start stop)).mem = w.mem
  refills : ∀ ms' discarded vpn, ms.discardAnonymousRange start stop = .ok (ms', discarded) →
              ms.Discards start stop vpn → ∀ w', Meanwhile k (w.step (.discardAnonymousRange k start stop)) w' →
              w'.spaces[k]? = some ms' ∧ w'.NextLoadZero k vpn ms'

end World

namespace MapArea

-- The pages of the area are copied before they are written.
def isCow (area : MapArea) : Bool :=
  area.backing.isPrivate && area.flags.cow && area.flags.w

-- The index of a page of the area.
def indexOf (area : MapArea) (vpn : Nat) : Nat :=
  (vpn * pageSize - area.startVa) / pageSize

-- The bytes of a page, which come from the backing of the area as long as the page is not resident.
def contents (env : Env) (mem : Ppn → Page) (area : MapArea) (n : Nat) : Except SysErrNo Page :=
  match area.resident.lookup n with
  | some page => .ok (mem page.frame)
  | none      => readBackingPage env area.backing (n * pageSize)

end MapArea

namespace World

variable (w : World) (k : Nat) (ms : MemorySet) (env : Env) (supply : List Ppn) (vpn : Nat)

-- What `resolve_cow_page` returns for a page of process `k`.
def cowResult : Except SysErrNo (MemorySet × Frames) :=
  MemorySet.resolveCowPage (w.env env) ms ⟨w.mem, supply⟩ (vpn * pageSize)

def resolveCow : World :=
  match w.cowResult ms env supply vpn with
  | .ok (ms, frames) => w.setSpace k ms frames.mem
  | .error _         => w

-- The page with index `n` of an area has become a page of process `k` alone, which may write it. Nothing
-- else has changed.
structure MadePrivate (i : Nat) (area : MapArea) (n : Nat) (ms' : MemorySet) (mem : Ppn → Page)
    (frame : Ppn) : Prop where
  page      : ∃ resident, ms'.areas = ms.areas.set i { area with resident } ∧
                resident.lookup n = some ⟨frame, .priv⟩ ∧ ∀ m ≠ n, resident.lookup m = area.resident.lookup m
  bytes     : area.contents (w.env env) w.mem n = .ok (mem frame)
  sole      : (w.setSpace k ms' mem).Sole k frame ∧ frame ∉ w.segments
  mapped    : ∃ pte, ms'.pageTable vpn = some pte ∧ pte.ppn = frame ∧ pte.flags.w
  elsewhere : ∀ vpn' ≠ vpn, ms'.meaning vpn' = ms.meaning vpn' ∧ ms'.pageTable vpn' = ms.pageTable vpn'
  others    : ∀ frame', w.Owned frame' → mem frame' = w.mem frame'

-- What the resolution of a page of a copy-on-write area observes.
structure CowExact (i : Nat) (area : MapArea) (n : Nat) : Prop where
  success   : ∀ ms' frames', w.cowResult ms env supply vpn = .ok (ms', frames') →
                w.resolveCow k ms env supply vpn = w.setSpace k ms' frames'.mem ∧
                ∃ frame, w.MadePrivate k ms env vpn i area n ms' frames'.mem frame
  failure   : ∀ error, w.cowResult ms env supply vpn = .error error → w.resolveCow k ms env supply vpn = w
  allocated : ∀ ms' frames', w.cowResult ms env supply vpn = .ok (ms', frames') → frames'.supply ≠ supply →
                ∀ page, area.resident.lookup n = some page → 1 < w.refCount page.frame
  reused    : ∀ page, area.resident.lookup n = some page → w.refCount page.frame = 1 →
                ∃ ms', w.cowResult ms env supply vpn = .ok (ms', ⟨w.mem, supply⟩)

end World

end WllOs
