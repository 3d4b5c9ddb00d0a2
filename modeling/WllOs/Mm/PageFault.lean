import WllOs.Mm.MemorySet

namespace WllOs.MemorySet

def cleanFileFaultWindowPages : Nat := 64
def cleanFileFaultReadAheadPages : Nat := 16
def anonymousFaultWindowPages : Nat := 8

-- Exchanges the area at an index and publishes one of its pages.
def setAndMapPage (self : MemorySet) (index : Nat) (area : MapArea) (pageIdx : Nat) : MemorySet where
  pageTable := mapAreaPage self.pageTable area pageIdx
  areas := self.areas.set index area

-- The last part of `resolve_cow_page`: the page becomes private and is published anew.
def publishPrivatePage (self : MemorySet) (index : Nat) (area : MapArea) (pageIdx pageStart : Nat) :
    MemorySet :=
  { self with pageTable := self.pageTable.unmapPage (pageStart / pageSize) }.setAndMapPage index
    (area.setResidentState pageIdx .priv) pageIdx

def resolveCowPage (env : Env) (self : MemorySet) (frames : Frames) (pageStart : Nat) :
    Except SysErrNo (MemorySet × Frames) :=
  match self.areaContaining pageStart with
  | none => .error .EFAULT
  | some (index, area) =>
    let pageIdx := (pageStart - area.startVa) / pageSize
    if !area.backing.isPrivate || !area.flags.cow || !area.flags.w then
      .error .EFAULT
    else
      match area.resident.lookup pageIdx with
      | some sourcePage =>
        -- The clone of the resident page that the source inspects is an owner of the frame as well.
        if env.refCount sourcePage.frame + 1 > 1 then
          match frames.allocFrame with
          | none => .error .ENOMEM
          | some (frame, frames) =>
            match area.replaceResidentPage pageIdx frame with
            | .error _ => .error .EFAULT
            | .ok (area, _) =>
              .ok (self.publishPrivatePage index area pageIdx pageStart,
                frames.copy sourcePage.frame frame)
        else
          .ok (self.publishPrivatePage index area pageIdx pageStart, frames)
      | none =>
        match frames.allocFrame with
        | none => .error .ENOMEM
        | some (frame, frames) =>
          match readBackingPage env area.backing (pageStart - area.startVa) with
          | .error error => .error error
          | .ok data =>
            match area.insertResidentPage pageIdx frame .priv with
            | .error _ => .error .EFAULT
            | .ok area =>
              .ok (self.publishPrivatePage index area pageIdx pageStart, frames.write frame data)

-- Whether the flags of an area admit the access that faulted.
def accessAllowed (flags : PTEFlags) (isStore isExec : Bool) : Bool :=
  if isExec then flags.x else if isStore then flags.w else flags.r

-- The number of pages from `idx` on that are not resident, up to a maximum.
def forwardPages (resident : ResidentSet) (idx maxPages : Nat) : Nat :=
  ((List.range maxPages).takeWhile fun n => (resident.lookup (idx + n)).isNone).length

-- The number of pages from `idx` backwards that are not resident. The page at `idx` is counted.
def backwardPages (resident : ResidentSet) (idx maxPages : Nat) : Nat :=
  1 + ((List.range' 1 (maxPages - 1)).takeWhile fun n => (resident.lookup (idx - n)).isNone).length

-- The start and the size of the window of pages that an anonymous fault makes resident.
def anonymousWindow (area : MapArea) (pageStart pageIdx : Nat) : Nat × Nat :=
  let pagesToEnd := (area.endVa - pageStart) / pageSize
  let forward := forwardPages area.resident pageIdx (min pagesToEnd anonymousFaultWindowPages)
  let backward :=
    if forward < anonymousFaultWindowPages then
      backwardPages area.resident pageIdx (min (pageIdx + 1) anonymousFaultWindowPages)
    else
      1
  if backward > forward then (pageIdx + 1 - backward, backward) else (pageIdx, forward)

-- Allocates frames until there are enough or the allocator fails.
def allocFrames : Nat → Frames → List Ppn × Frames
  | 0, frames => ([], frames)
  | n + 1, frames =>
    match frames.allocFrame with
    | none => ([], frames)
    | some (frame, frames) =>
      let (rest, frames) := allocFrames n frames
      (frame :: rest, frames)

-- Inserts a run of frames into the area at an index and publishes it.
def installRun (self : MemorySet) (index : Nat) (area : MapArea) (startIdx : Nat) (run : List Ppn)
    (state : PageState) : Except SysErrNo MemorySet :=
  match area.insertResidentRun startIdx run state with
  | .error _ => .error .EFAULT
  | .ok area =>
    .ok {
      pageTable := mapAreaPageWindow self.pageTable area startIdx run.length
      areas := self.areas.set index area
    }

def anonymousFault (self : MemorySet) (frames : Frames) (area : MapArea) (pageStart pageIdx : Nat) :
    Except SysErrNo (MemorySet × Frames) :=
  let (windowStartIdx, windowPages) := anonymousWindow area pageStart pageIdx
  let (run, frames) := allocFrames windowPages frames
  if run.isEmpty then
    .error (if windowPages = 0 then .EFAULT else .ENOMEM)
  else
    match self.areaContaining pageStart with
    | none => .error .EFAULT
    | some (index, area) =>
      match self.installRun index area windowStartIdx run .priv with
      | .error error => .error error
      | .ok self     => .ok (self, frames)

-- The file and the offset whose clean page cache serves a fault.
def cleanCachePage (env : Env) (area : MapArea) (pageStart : Nat) (isStore : Bool) :
    Option (Nat × Nat) :=
  if !isStore && !area.flags.w then
    match area.backing with
    | .file (.ext4Regular ino _ _) offset _ =>
      if env.canUseCleanPageCache ino then
        some (ino, Usize.saturatingAdd offset (pageStart - area.startVa))
      else
        none
    | _ => none
  else
    none

def cleanCacheFault (env : Env) (self : MemorySet) (area : MapArea) (pageStart pageIdx : Nat)
    (ino fileOffset : Nat) : Except SysErrNo MemorySet :=
  let pagesToEnd := (area.endVa - pageStart) / pageSize
  let windowPages := forwardPages area.resident pageIdx (min pagesToEnd cleanFileFaultWindowPages)
  if windowPages = 0 then
    .error .EFAULT
  else
    match env.cleanPageCacheFrames ino fileOffset windowPages cleanFileFaultReadAheadPages with
    | .error error => .error error
    | .ok cacheFrames =>
      if cacheFrames.isEmpty then
        .error .ENOMEM
      else
        match self.areaContaining pageStart with
        | none => .error .EFAULT
        | some (index, area) => self.installRun index area pageIdx cacheFrames .fileClean

-- The state of a page that was read from the backing of an area.
def backingPageState : MapAreaBacking → PageState
  | .anonymousShared | .file _ _ true | .sharedMemory .. => .shared
  | .file _ _ false => .fileClean
  | .anonymous      => .priv

def backingFault (env : Env) (self : MemorySet) (frames : Frames) (pageStart pageIdx : Nat) :
    Except SysErrNo (MemorySet × Frames) :=
  match self.areaContaining pageStart with
  | none => .error .EFAULT
  | some (index, area) =>
    if (area.resident.lookup pageIdx).isSome then
      .ok (self.setAndMapPage index area pageIdx, frames)
    else
      match frames.allocFrame with
      | none => .error .ENOMEM
      | some (frame, frames) =>
        match readBackingPage env area.backing (pageStart - area.startVa) with
        | .error error => .error error
        | .ok data =>
          match area.insertResidentPage pageIdx frame (backingPageState area.backing) with
          | .error _ => .error .EFAULT
          | .ok area => .ok (self.setAndMapPage index area pageIdx, frames.write frame data)

def handlePageFault (env : Env) (self : MemorySet) (frames : Frames) (faultAddr : Nat)
    (isStore isExec : Bool) : Except SysErrNo (MemorySet × Frames) :=
  let pageStart := alignDown faultAddr
  match self.areaContaining faultAddr with
  | none => .error .EFAULT
  | some (index, area) =>
    if !area.flags.hasLeafPermission || !accessAllowed area.flags isStore isExec then
      .error .EFAULT
    else if isStore && area.flags.cow then
      resolveCowPage env self frames pageStart
    else if (self.translate pageStart).isSome then
      .ok (self, frames)
    else
      let pageIdx := (pageStart - area.startVa) / pageSize
      if (area.resident.lookup pageIdx).isSome then
        .ok (self.setAndMapPage index area pageIdx, frames)
      else if area.backing = .anonymous && !area.flags.cow && !area.flags.x then
        self.anonymousFault frames area pageStart pageIdx
      else
        match cleanCachePage env area pageStart isStore with
        | some (ino, fileOffset) =>
          match cleanCacheFault env self area pageStart pageIdx ino fileOffset with
          | .error error => .error error
          | .ok self     => .ok (self, frames)
        | none => backingFault env self frames pageStart pageIdx

def ensurePageWritable (env : Env) (self : MemorySet) (frames : Frames) (pageStart : Nat) :
    Except SysErrNo (MemorySet × Frames) :=
  match self.areaContaining pageStart with
  | none => .error .EFAULT
  | some (_, area) =>
    if !area.flags.hasLeafPermission || !area.flags.w then
      .error .EFAULT
    else if area.flags.cow then
      resolveCowPage env self frames pageStart
    else if (self.translate pageStart).isNone then
      handlePageFault env self frames pageStart true false
    else
      .ok (self, frames)

-- The loop of `prepare_write`. Every step checks at least one byte.
def prepareWriteFrom (env : Env) (dst len : Nat) :
    (fuel checked : Nat) → MemorySet → Frames → MemorySet × Frames × Except SysErrNo Unit
  | 0, _, self, frames => (self, frames, .ok ())
  | fuel + 1, checked, self, frames =>
    if checked < len then
      match Usize.checkedAdd dst checked with
      | none => (self, frames, .error .EFAULT)
      | some addr =>
        match ensurePageWritable env self frames (alignDown addr) with
        | .error error => (self, frames, .error error)
        | .ok (self, frames) =>
          prepareWriteFrom env dst len fuel
            (checked + min (pageSize - addr % pageSize) (len - checked)) self frames
    else
      (self, frames, .ok ())

def prepareWrite (env : Env) (self : MemorySet) (frames : Frames) (dst len : Nat) :
    MemorySet × Frames × Except SysErrNo Unit :=
  prepareWriteFrom env dst len len 0 self frames

end WllOs.MemorySet

namespace WllOs

-- The kinds of accesses that fault.
inductive Access
  | load
  | store
  | execute
  deriving DecidableEq, Repr

namespace Access

def isStore (access : Access) : Bool :=
  access = store

def isExec (access : Access) : Bool :=
  access = execute

end Access

-- Whether the hardware lets user code access a page.
def MappingFlags.permits (flags : MappingFlags) : Access → Bool
  | .load    => flags.u && flags.r
  | .store   => flags.u && flags.w
  | .execute => flags.u && flags.x

-- What the rest of the kernel guarantees to the fault handler. A frame is only counted through one of
-- its owners, and the clean page cache returns at most as many of its frames as it is asked for.
structure Env.Lawful (env : Env) (cached : Ppn → Prop) : Prop where
  refCount_pos : ∀ frame, 0 < env.refCount frame
  cache        : ∀ ino fileOffset maxPages readAheadPages frames,
                  env.cleanPageCacheFrames ino fileOffset maxPages readAheadPages = .ok frames →
                  frames.length ≤ maxPages ∧ ∀ frame ∈ frames, cached frame

namespace MemorySet

-- The area of an address allows the access, possibly after a fault.
def Allows (ms : MemorySet) (addr : Nat) (access : Access) : Prop :=
  ∃ i area, ms.areaContaining addr = some (i, area) ∧
    accessAllowed area.flags access.isStore access.isExec

-- The page of an address is mapped to the frame that its area records, and the access is permitted.
def Serves (ms : MemorySet) (addr : Nat) (access : Access) : Prop :=
  ∃ i area page pte, ms.areaContaining addr = some (i, area) ∧
    area.resident.lookup ((addr - area.startVa) / pageSize) = some page ∧
    ms.translate addr = some pte ∧ pte.ppn = page.frame ∧ pte.flags.permits access

-- A fault that is resolved does not happen again, and a fault that the area forbids is not resolved.
structure Progress (env : Env) (ms : MemorySet) (frames : Frames) (addr : Nat) (access : Access) :
    Prop where
  served  : ∀ ms' frames',
              handlePageFault env ms frames addr access.isStore access.isExec = .ok (ms', frames') →
              ms'.Serves addr access
  refused : ∀ i area, ms.areaContaining addr = some (i, area) →
              ¬accessAllowed area.flags access.isStore access.isExec →
              ∃ error, handlePageFault env ms frames addr access.isStore access.isExec = .error error

-- The area is writable and not marked as copy-on-write, but the page still is.
def staleCowPage (area : MapArea) (addr : Nat) : Bool :=
  area.flags.w && !area.flags.cow
    && (area.resident.lookup ((addr - area.startVa) / pageSize)).any (·.state = .cow)

-- There are frames left, but they run out before the window of an anonymous fault reaches the page that
-- faulted.
def starvedWindow (frames : Frames) (area : MapArea) (addr : Nat) : Bool :=
  let pageStart := alignDown addr
  let pageIdx := (pageStart - area.startVa) / pageSize
  area.backing = .anonymous && !area.flags.cow && !area.flags.x
    && (area.resident.lookup pageIdx).isNone
    && !frames.supply.isEmpty
    && frames.supply.length ≤ pageIdx - (anonymousWindow area pageStart pageIdx).1

end MemorySet

end WllOs
