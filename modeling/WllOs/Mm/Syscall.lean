import WllOs.Config
import WllOs.Mm.PageFault

namespace WllOs

-- Overwrites the bytes of a frame from an offset on.
def Frames.writeSlice (frames : Frames) (dst : Ppn) (offset : Nat) (data : List UInt8) : Frames :=
  frames.write dst fun i =>
    if offset ≤ i then data.getD (i - offset) (frames.mem dst i) else frames.mem dst i

namespace MemorySet

-- A page of a shared file mapping is dirty once it is written.
def markDirty (area : MapArea) (pageIdx : Nat) : MapArea :=
  match area.backing with
  | .file _ _ true => area.setResidentState pageIdx .fileDirty
  | _              => area

-- The loop of `write_bytes`. Every step copies at least one byte.
def writeBytesFrom (dst : Nat) (src : List UInt8) :
    (fuel copied : Nat) → MemorySet → Frames → MemorySet × Frames × Except SysErrNo Unit
  | 0, _, self, frames => (self, frames, .ok ())
  | fuel + 1, copied, self, frames =>
    if copied < src.length then
      match Usize.checkedAdd dst copied with
      | none => (self, frames, .error .EFAULT)
      | some addr =>
        match self.areaContaining addr with
        | none => (self, frames, .error .EFAULT)
        | some (index, area) =>
          let pageIdx := (alignDown addr - area.startVa) / pageSize
          let pageOff := addr % pageSize
          let copyLen := min (src.length - copied) (pageSize - pageOff)
          match area.resident.lookup pageIdx with
          | none => (self, frames, .error .EFAULT)
          | some page =>
            let frames := frames.writeSlice page.frame pageOff ((src.drop copied).take copyLen)
            writeBytesFrom dst src fuel (copied + copyLen)
              { self with areas := self.areas.set index (markDirty area pageIdx) } frames
    else
      (self, frames, .ok ())

def writeBytes (self : MemorySet) (frames : Frames) (dst : Nat) (src : List UInt8) :
    MemorySet × Frames × Except SysErrNo Unit :=
  writeBytesFrom dst src src.length 0 self frames

end MemorySet

structure MmContext where
  programBreak : Nat
  mappedBreak : Nat
  nextMmap : Nat
  nextMmapHigh : Nat
  deriving DecidableEq, Repr

structure SharedMemorySegment where
  key : Int
  size : Nat
  lpid : Nat
  atime : Int
  dtime : Int
  frames : List Ppn
  attachCount : Nat
  markedForRemove : Bool
  deriving DecidableEq, Repr

-- What the memory system calls of a process work on. The shared memory segments are the ones of the
-- whole kernel, by their `shmid`.
structure Process where
  memorySet : MemorySet
  mm : MmContext
  segments : List (Nat × SharedMemorySegment)
  frames : Frames

-- What system calls read from the rest of the kernel: the current process, its descriptors and the
-- operations of files.
structure Kernel where
  arch : Arch
  env : Env
  tgid : Nat
  currentTimeSec : Int
  fdTable : (fd : Nat) → Option FileDescriptor
  readAt : FileDescriptor → (offset length : Nat) → Except SysErrNo (List UInt8)
  writeAt : FileDescriptor → (offset : Nat) → List UInt8 → Except SysErrNo Nat
  sync : FileDescriptor → Except SysErrNo Unit

-- A system call that fails keeps what it has changed before.
abbrev SyscallM := ExceptT SysErrNo (StateM Process)

namespace SyscallM

def ofResult {α : Type} : Except SysErrNo α → SyscallM α
  | .ok a    => pure a
  | .error e => throw e

def okOr {α : Type} (option : Option α) (error : SysErrNo) : SyscallM α :=
  match option with
  | some a => pure a
  | none   => throw error

def failIf (condition : Bool) (error : SysErrNo) : SyscallM Unit :=
  if condition then throw error else pure ()

-- A change of the address space that may fail midway.
def onMemorySet (f : MemorySet → Frames → MemorySet × Frames × Except SysErrNo Unit) : SyscallM Unit := do
  let process ← get
  let (memorySet, frames, result) := f process.memorySet process.frames
  set { process with memorySet, frames }
  ofResult result

-- A change of the address space that has no effect if it fails.
def tryMemorySet (f : MemorySet → Except SysErrNo MemorySet) : SyscallM Unit := do
  let process ← get
  match f process.memorySet with
  | .ok memorySet => set { process with memorySet }
  | .error error  => throw error

end SyscallM

open SyscallM
open SysErrNo ( EIO)

namespace Prot

def read : BitVec 32 := 0x1
def write : BitVec 32 := 0x2
def exec : BitVec 32 := 0x4
def mask : BitVec 32 := read ||| write ||| exec

end Prot

def protToPteFlags (prot : BitVec 32) : Except SysErrNo PTEFlags :=
  if prot &&& ~~~Prot.mask ≠ 0 then
    .error .EINVAL
  else
    .ok { PTEFlags.empty with
      u := true
      v := true
      r := prot &&& Prot.read ≠ 0 || prot &&& Prot.write ≠ 0
      w := prot &&& Prot.write ≠ 0
      x := prot &&& Prot.exec ≠ 0
    }

def alignUpResult (value : Nat) : Except SysErrNo Nat :=
  match alignUp value with
  | some value => .ok value
  | none       => .error .EINVAL

-- The first gap of an arena from the hint on, or else the first one before the hint.
def findInArena (ms : MemorySet) (arena : UserVaRange) (hint length : Nat) : Option Nat :=
  (ms.findFreeArea hint length arena.stop).or
    (if arena.start < hint then ms.findFreeArea arena.start length hint else none)

def findMmapAreaWithHints (arch : Arch) (ms : MemorySet) (lowHint highHint length : Nat) : Option Nat :=
  let others (hinted : Option UserVaRange) : Option Nat := arch.mmapArenas.findSome? fun arena =>
    if hinted = some arena then none
    else if arena = highMmapArena then findInArena ms arena (max highHint arena.start) length
    else findInArena ms arena arena.start length
  match arch.mmapArenaContaining lowHint with
  | none => others none
  | some arena => (alignUp lowHint).bind fun alignedHint =>
    (findInArena ms arena (max alignedHint arena.start) length).or (others (some arena))

-- The cursor of the arena that a new mapping lies in moves behind it.
def MmContext.advance (mm : MmContext) (start stop : Nat) : MmContext :=
  if highMmapArena.containsRange start stop then
    { mm with nextMmapHigh := max mm.nextMmapHigh stop }
  else
    { mm with nextMmap := max mm.nextMmap stop }

def rangesOverlap (leftStart leftStop rightStart rightStop : Nat) : Bool :=
  leftStart < rightStop && rightStart < leftStop

abbrev FileWrite := FileDescriptor × Nat × List UInt8

-- The bytes of the resident pages of a shared file mapping inside of a range.
def areaFileWrites (mem : Ppn → Page) (start stop : Nat) (area : MapArea) : List FileWrite :=
  match area.backing with
  | .file file offset true =>
    if !rangesOverlap start stop area.startVa area.endVa || !area.flags.w then
      []
    else
      let copyStart := max start area.startVa
      let copyStop := min stop area.endVa
      let firstVpn := (alignDown copyStart - area.startVa) / pageSize
      let endVpn := Usize.saturatingAdd (copyStop - area.startVa) (pageSize - 1) / pageSize
      (area.resident.iterRange firstVpn endVpn).filterMap fun (vpn, page) =>
        let pageStart := Usize.saturatingAdd area.startVa (vpn * pageSize)
        let writeStart := max copyStart pageStart
        let writeStop := min copyStop (Usize.saturatingAdd pageStart pageSize)
        if writeStart ≥ writeStop then
          none
        else
          let bytes := (List.ofFn (mem page.frame)).drop (writeStart - pageStart)
          some (file, Usize.saturatingAdd offset (writeStart - area.startVa),
            bytes.take (writeStop - writeStart))
  | _ => []

def collectSharedFileWrites (ms : MemorySet) (mem : Ppn → Page) (start stop : Nat) : List FileWrite :=
  ms.areas.flatMap (areaFileWrites mem start stop)

-- The first loop of `write_back_shared_files`, which returns the files that have to be synchronized.
def writeFiles (kernel : Kernel) : List FileWrite → List FileDescriptor → Except SysErrNo (List FileDescriptor)
  | [], dirtyFiles => .ok dirtyFiles
  | (file, offset, data) :: writes, dirtyFiles =>
    if data.isEmpty then
      writeFiles kernel writes dirtyFiles
    else
      match kernel.writeAt file offset data with
      | .error error => .error error
      | .ok written =>
        if written ≠ data.length then
          .error EIO
        else if dirtyFiles.any (·.sameFileIdentity file) then
          writeFiles kernel writes dirtyFiles
        else
          writeFiles kernel writes (dirtyFiles ++ [file])

def syncFiles (kernel : Kernel) : List FileDescriptor → Except SysErrNo Unit
  | [] => .ok ()
  | file :: files =>
    match kernel.sync file with
    | .error error => .error error
    | .ok ()       => syncFiles kernel files

def writeBackSharedFiles (kernel : Kernel) (writes : List FileWrite) : Except SysErrNo Unit :=
  match writeFiles kernel writes [] with
  | .error error   => .error error
  | .ok dirtyFiles => syncFiles kernel dirtyFiles

-- Writes back what a range of shared file mappings holds.
def flushRange (kernel : Kernel) (start stop : Nat) : SyscallM Unit := do
  let process ← get
  ofResult <| writeBackSharedFiles kernel <|
    collectSharedFileWrites process.memorySet process.frames.mem start stop

def sysBrk (kernel : Kernel) (newBrk : Nat) : SyscallM Nat := do
  let process ← get
  let currentBreak := process.mm.programBreak
  let mappedBreak := process.mm.mappedBreak
  if newBrk = 0 || newBrk < userHeapStart then
    return currentBreak
  else
    match alignUp newBrk with
    | none => return currentBreak
    | some newMappedEnd =>
      if newMappedEnd > kernel.arch.userStackTop then
        return currentBreak
      else
        match growHeap process.memorySet mappedBreak newMappedEnd with
        | .error _ => return currentBreak
        | .ok memorySet =>
          let mm := { process.mm with programBreak := newBrk, mappedBreak := newMappedEnd }
          set { process with memorySet, mm }
          return newBrk
where
  -- Maps or unmaps what lies between the old and the new end of the heap.
  growHeap (ms : MemorySet) (mappedBreak newMappedEnd : Nat) : Except SysErrNo MemorySet :=
    if newMappedEnd > mappedBreak then
      if ms.rangeOverlaps mappedBreak newMappedEnd then
        .error .ENOMEM
      else
        ms.insertLazyAreaWithBacking mappedBreak newMappedEnd
          { PTEFlags.empty with u := true, r := true, w := true, v := true } .anonymous
    else if newMappedEnd < mappedBreak then
      ms.unmapRange newMappedEnd mappedBreak
    else
      .ok ms

namespace Map

def priv : BitVec 64 := 0x02
def shared : BitVec 64 := 0x01
def sharedValidate : BitVec 64 := 0x03
def type : BitVec 64 := 0x0f
def fixed : BitVec 64 := 0x10
def anonymous : BitVec 64 := 0x20
def denywrite : BitVec 64 := 0x0800
def executable : BitVec 64 := 0x1000
def locked : BitVec 64 := 0x2000
def noreserve : BitVec 64 := 0x4000
def populate : BitVec 64 := 0x8000
def nonblock : BitVec 64 := 0x10000
def stack : BitVec 64 := 0x20000
def hugetlb : BitVec 64 := 0x40000
def sync : BitVec 64 := 0x80000
def fixedNoreplace : BitVec 64 := 0x100000

def compatIgnored : BitVec 64 :=
  denywrite ||| executable ||| locked ||| noreserve ||| populate ||| nonblock ||| stack

def supported : BitVec 64 :=
  type ||| fixed ||| anonymous ||| fixedNoreplace ||| compatIgnored

end Map

def validateMmapFlags (flags : BitVec 64) : Except SysErrNo Unit :=
  let unsupported := flags &&& ~~~Map.supported
  if unsupported = 0 then
    .ok ()
  else if flags &&& Map.type = Map.sharedValidate then
    .error .EOPNOTSUPP
  else if unsupported &&& (Map.hugetlb ||| Map.sync) ≠ 0 then
    .error .EINVAL
  else
    .error .EINVAL

-- Whether a mapping is shared.
def mmapType (flags : BitVec 64) : Except SysErrNo Bool :=
  if flags &&& Map.type = Map.shared || flags &&& Map.type = Map.sharedValidate then
    .ok true
  else if flags &&& Map.type = Map.priv then
    .ok false
  else
    .error .EINVAL

structure MmapRequest where
  addr : Nat
  length : Nat
  mapLen : Nat
  prot : BitVec 32
  pteFlags : PTEFlags
  shared : Bool
  mapFixed : Bool
  noReplace : Bool
  anonymous : Bool
  -- Neither `MAP_POPULATE` nor `MAP_LOCKED` is set.
  onDemand : Bool

namespace MmapRequest

def fixedAddr (request : MmapRequest) : Bool :=
  request.mapFixed || request.noReplace

def ofArgs (addr length : Nat) (prot flagsArg : BitVec 32) : Except SysErrNo MmapRequest := do
  let flags := flagsArg.signExtend 64
  validateMmapFlags flags
  let shared ← mmapType flags
  let pteFlags ← protToPteFlags prot
  let mapLen ← alignUpResult length
  return {
    addr
    length
    mapLen
    prot
    pteFlags
    shared
    mapFixed  := flags &&& Map.fixed ≠ 0
    noReplace := flags &&& Map.fixedNoreplace ≠ 0
    anonymous := flags &&& Map.anonymous ≠ 0
    onDemand  := flags &&& (Map.populate ||| Map.locked) = 0
  }

-- The first address of the mapping as it is chosen before the mapping is prepared.
def select (request : MmapRequest) (arch : Arch) (process : Process) : Except SysErrNo Nat :=
  let search : Except SysErrNo Nat :=
    match findMmapAreaWithHints arch process.memorySet process.mm.nextMmap process.mm.nextMmapHigh
      request.mapLen with
    | some start => .ok start
    | none       => .error .ENOMEM
  if request.fixedAddr then
    .ok request.addr
  else if request.addr ≠ 0 then do
    let hint ← alignUpResult request.addr
    match Usize.checkedAdd hint request.mapLen with
    | none => .error .EINVAL
    | some stop =>
      if arch.isUserMappableRange hint stop && !process.memorySet.rangeOverlaps hint stop then
        .ok hint
      else
        search
  else
    search

-- The backing of the mapping, the contents of its pages unless they are read on demand, and whether they
-- are taken from the clean page cache.
def backing (request : MmapRequest) (kernel : Kernel) (fd : Int) (offset : Nat) :
    Except SysErrNo (MapAreaBacking × Option (List UInt8) × Bool) :=
  if request.anonymous then
    .ok (if request.shared then .anonymousShared else .anonymous, none, false)
  else
    match kernel.fdTable fd.toNat with
    | none => .error .EBADF
    | some file =>
      if !file.isReadable then
        .error .EACCES
      else if request.shared && request.prot &&& Prot.write ≠ 0 && !file.isWritable then
        .error .EACCES
      else
        let mapHasLeaf := request.pteFlags.hasLeafPermission
        let useCleanPageCache := mapHasLeaf && request.prot &&& Prot.write = 0 &&
          match file with
          | .ext4Regular ino _ _ => kernel.env.canUseCleanPageCache ino
          | _ => false
        if mapHasLeaf && !useCleanPageCache then
          match kernel.readAt file offset request.length with
          | .error error => .error error
          | .ok data     => .ok (.file file offset request.shared, some data, useCleanPageCache)
        else
          .ok (.file file offset request.shared, none, useCleanPageCache)

-- The range that the mapping is placed at. As the address space may have changed since the address was
-- chosen, the range is checked or cleared again.
def place (request : MmapRequest) (arch : Arch) (start stop : Nat) : SyscallM (Nat × Nat) := do
  let process ← get
  let overlaps := process.memorySet.rangeOverlaps start stop
  failIf (request.noReplace && overlaps) .EEXIST
  if request.mapFixed && !request.noReplace then
    tryMemorySet (·.unmapRange start stop)
    return (start, stop)
  else if !request.fixedAddr && overlaps then
    let start ← okOr (findMmapAreaWithHints arch process.memorySet arch.defaultMmapBase
      defaultHighMmapBase request.mapLen) .ENOMEM
    let stop ← okOr (Usize.checkedAdd start request.mapLen) .EINVAL
    failIf (!arch.isUserMappableRange start stop || process.memorySet.rangeOverlaps start stop) .ENOMEM
    return (start, stop)
  else
    return (start, stop)

def insert (request : MmapRequest) (start stop : Nat) (backing : MapAreaBacking)
    (fileData : Option (List UInt8)) (lazyCleanMmap : Bool) : SyscallM Unit := do
  let lazyPrivateAnonymous := request.anonymous && !request.shared && request.onDemand
  if lazyCleanMmap || lazyPrivateAnonymous then
    tryMemorySet (·.insertLazyAreaWithBacking start stop request.pteFlags backing)
  else
    onMemorySet fun ms frames => ms.insertFramedAreaWithBacking frames start stop request.pteFlags backing
    match fileData with
    | some data => onMemorySet fun ms frames => ms.writeBytes frames start data
    | none      => pure ()

end MmapRequest

-- `MAP_FIXED` replaces shared file mappings, which are written back first.
def MmapRequest.flush (request : MmapRequest) (kernel : Kernel) (start stop : Nat) : SyscallM Unit :=
  if request.mapFixed && !request.noReplace then flushRange kernel start stop else pure ()

def sysMmap (kernel : Kernel) (addr length : Nat) (prot flagsArg : BitVec 32) (fd : Int) (offset : Nat) :
    SyscallM Nat := do
  failIf (length = 0) .EINVAL
  let request ← ofResult (MmapRequest.ofArgs addr length prot flagsArg)
  failIf (!request.anonymous && offset % pageSize ≠ 0) .EINVAL
  failIf (!request.anonymous && fd < 0) .EBADF
  failIf (request.fixedAddr && addr % pageSize ≠ 0) .EINVAL
  let start ← ofResult (request.select kernel.arch (← get))
  let stop ← okOr (Usize.checkedAdd start request.mapLen) .EINVAL
  failIf (start < pageSize) .EPERM
  failIf (!kernel.arch.isUserMappableRange start stop) .ENOMEM
  let (backing, fileData, lazyCleanMmap) ← ofResult (request.backing kernel fd offset)
  request.flush kernel start stop
  let (start, stop) ← request.place kernel.arch start stop
  request.insert start stop backing fileData lazyCleanMmap
  modify fun process => { process with mm := process.mm.advance start stop }
  return start

def checkedRange (start length : Nat) : Except SysErrNo (Nat × Nat) :=
  match Usize.checkedAdd start length with
  | none => .error .EINVAL
  | some stop =>
    match alignUpResult stop with
    | .error error => .error error
    | .ok stop     => .ok (start, stop)

def sysMprotect (kernel : Kernel) (addr len : Nat) (prot : BitVec 32) : SyscallM Nat := do
  failIf (addr % pageSize ≠ 0 || len = 0) .EINVAL
  let pteFlags ← ofResult (protToPteFlags prot)
  let (start, stop) ← ofResult (checkedRange addr len)
  tryMemorySet fun ms => MemorySet.protectRange kernel.env.refCount ms start stop pteFlags
  return 0

def madvDontneed : BitVec 32 := 4

def sysMadvise (addr len : Nat) (advice : BitVec 32) : SyscallM Nat := do
  failIf (addr % pageSize ≠ 0) .EINVAL
  if len = 0 || advice ≠ madvDontneed then
    return 0
  else
    let (start, stop) ← ofResult (checkedRange addr len)
    tryMemorySet fun ms => (·.1) <$> ms.discardAnonymousRange start stop
    return 0

def sysMunmap (kernel : Kernel) (addr length : Nat) : SyscallM Nat := do
  failIf (addr % pageSize ≠ 0 || length = 0) .EINVAL
  let start := alignDown addr
  let (_, stop) ← ofResult (checkedRange addr length)
  flushRange kernel start stop
  tryMemorySet (·.unmapRange start stop)
  return 0

namespace Shm

def rdonly : BitVec 32 := 0o10000
def rnd : BitVec 32 := 0o20000
def remap : BitVec 32 := 0o40000
def exec : BitVec 32 := 0o100000
def supportedFlags : BitVec 32 := rdonly ||| rnd ||| remap ||| exec

end Shm

-- Exchanges the segment of a `shmid`.
def Process.setSegment (process : Process) (shmid : Nat) (f : SharedMemorySegment → SharedMemorySegment) :
    Process :=
  { process with
    segments := process.segments.map fun (id, segment) => (id, if id = shmid then f segment else segment) }

-- The first address of an attached segment.
def shmatStart (kernel : Kernel) (shmaddr : Nat) (shmflg : BitVec 32) (mapLen : Nat) : SyscallM Nat := do
  let process ← get
  if shmaddr = 0 then
    okOr (findMmapAreaWithHints kernel.arch process.memorySet process.mm.nextMmap
      process.mm.nextMmapHigh mapLen) .ENOMEM
  else if shmflg &&& Shm.rnd ≠ 0 then
    return alignDown shmaddr
  else
    failIf (shmaddr % pageSize ≠ 0) .EINVAL
    return shmaddr

-- `SHM_REMAP` replaces what is mapped at the range already.
def shmPlace (kernel : Kernel) (remap : Bool) (shmaddr start stop : Nat) : SyscallM Unit := do
  if remap then
    failIf (shmaddr = 0) .EINVAL
    flushRange kernel start stop
    tryMemorySet (·.unmapRange start stop)
  else
    failIf ((← get).memorySet.rangeOverlaps start stop) .ENOMEM

def shmAttach (kernel : Kernel) (shmid shmaddr : Nat) (shmflg : BitVec 32) (frames : List Ppn) :
    SyscallM Nat := do
  let mapLen := frames.length * pageSize
  let start ← shmatStart kernel shmaddr shmflg mapLen
  failIf (start < pageSize) .EINVAL
  let stop ← okOr (Usize.checkedAdd start mapLen) .EINVAL
  failIf (!kernel.arch.isUserMappableRange start stop) .ENOMEM
  let pteFlags := { PTEFlags.empty with
    u := true
    v := true
    r := true
    w := shmflg &&& Shm.rdonly = 0
    x := shmflg &&& Shm.exec ≠ 0
  }
  shmPlace kernel (shmflg &&& Shm.remap ≠ 0) shmaddr start stop
  tryMemorySet (·.insertSharedFramedArea start stop pteFlags (.sharedMemory shmid start 0) frames)
  modify fun process => { process with mm := process.mm.advance start stop }
  return start

def sysShmat (kernel : Kernel) (shmid shmaddr : Nat) (shmflg : BitVec 32) : SyscallM Nat := do
  failIf (shmflg &&& ~~~Shm.supportedFlags ≠ 0) .EINVAL
  let segment ← okOr ((← get).segments.lookup shmid) .EINVAL
  failIf segment.markedForRemove .EINVAL
  modify (·.setSegment shmid fun segment => { segment with
    attachCount := Usize.saturatingAdd segment.attachCount 1
    lpid := kernel.tgid
    atime := kernel.currentTimeSec
  })
  tryCatch (shmAttach kernel shmid shmaddr shmflg segment.frames) fun error => do
    modify (·.setSegment shmid fun segment => { segment with attachCount := segment.attachCount - 1 })
    throw error

def unmapRanges : List (Nat × Nat) → SyscallM Unit
  | [] => pure ()
  | (start, stop) :: ranges => do
    tryMemorySet (·.unmapRange start stop)
    unmapRanges ranges

def sysShmdt (kernel : Kernel) (shmaddr : Nat) : SyscallM Nat := do
  failIf (shmaddr = 0 || shmaddr % pageSize ≠ 0) .EINVAL
  let areas := (← get).memorySet.areas
  let shmid ← okOr (areas.findSome? fun area =>
    match area.backing with
    | .sharedMemory shmid base _ => if base = shmaddr then some shmid else none
    | _ => none) .EINVAL
  unmapRanges <| areas.filterMap fun area =>
    match area.backing with
    | .sharedMemory areaShmid areaBase _ =>
      if areaShmid = shmid && areaBase = shmaddr then some (area.startVa, area.endVa) else none
    | _ => none
  modify (·.setSegment shmid fun segment => { segment with
    attachCount := segment.attachCount - 1
    lpid := kernel.tgid
    dtime := kernel.currentTimeSec
  })
  modify fun process => { process with
    segments := process.segments.filter fun (id, segment) =>
      !(id = shmid && segment.markedForRemove && segment.attachCount = 0)
  }
  return 0

-- The part of `clone` without `CLONE_VM` that copies the address space.
def sysFork : SyscallM Process := do
  let process ← get
  match process.memorySet.forkCow process.frames with
  | (memorySet, frames, result) =>
    set { process with memorySet, frames }
    let child ← ofResult result
    return { process with memorySet := child, frames }

-- A page fault of user code. A fault that is not resolved kills the process or ends in a signal handler.
def pageFault (kernel : Kernel) (addr : Nat) (access : Access) : SyscallM Unit := do
  let process ← get
  let (memorySet, frames) ← ofResult <| MemorySet.handlePageFault kernel.env process.memorySet
    process.frames addr access.isStore access.isExec
  set { process with memorySet, frames }

-- The steps of a process that change its address space.
inductive Syscall
  | mmap (addr length : Nat) (prot flags : BitVec 32) (fd : Int) (offset : Nat)
  | munmap (addr length : Nat)
  | mprotect (addr len : Nat) (prot : BitVec 32)
  | madvise (addr len : Nat) (advice : BitVec 32)
  | brk (newBrk : Nat)
  | shmat (shmid shmaddr : Nat) (shmflg : BitVec 32)
  | shmdt (shmaddr : Nat)
  | fork
  | pageFault (addr : Nat) (access : Access)

def Syscall.body (kernel : Kernel) : Syscall → SyscallM Unit
  | mmap addr length prot flags fd offset => do let _ ← sysMmap kernel addr length prot flags fd offset
  | munmap addr length                    => do let _ ← sysMunmap kernel addr length
  | mprotect addr len prot                => do let _ ← sysMprotect kernel addr len prot
  | madvise addr len advice               => do let _ ← sysMadvise addr len advice
  | brk newBrk                            => do let _ ← sysBrk kernel newBrk
  | shmat shmid shmaddr shmflg            => do let _ ← sysShmat kernel shmid shmaddr shmflg
  | shmdt shmaddr                         => do let _ ← sysShmdt kernel shmaddr
  | fork                                  => do let _ ← sysFork
  | pageFault addr access                 => WllOs.pageFault kernel addr access

namespace Process

-- The result of a system call and the process after it.
def exec {α : Type} (process : Process) (call : SyscallM α) : Except SysErrNo α × Process :=
  Id.run (StateT.run (ExceptT.run call) process)

-- The steps of a process and of its children. In between, other processes change the frames and the
-- shared memory segments.
inductive Run : Process → Process → Prop
  | refl (process : Process) : Run process process
  | syscall {process process' : Process} {kernel : Kernel} (call : Syscall) : Run process process' →
      kernel.env.Lawful (fun _ => True) → Run process (process'.exec (call.body kernel)).2
  | child {process process' child : Process} : Run process process' →
      (process'.exec sysFork).1 = .ok child → Run process child
  | others {process process' : Process} (segments : List (Nat × SharedMemorySegment)) (frames : Frames) :
      Run process process' → Run process { process' with segments, frames }

end Process

end WllOs
