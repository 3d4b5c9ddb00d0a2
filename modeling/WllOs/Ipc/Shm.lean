import WllOs.Mm.Coherence
import WllOs.Mm.SharedRights

namespace WllOs

abbrev Segments := List (Nat × SharedMemorySegment)

namespace Segments

def update (segments : Segments) (shmid : Nat) (f : SharedMemorySegment → SharedMemorySegment) : Segments :=
  segments.map fun (id, segment) => (id, if id = shmid then f segment else segment)

def remove (segments : Segments) (ids : List Nat) : Segments :=
  segments.filter fun (id, _) => id ∉ ids

end Segments

-- The loop of `task_shared_memory_attachments`. An attachment may be spread over several areas.
def attachmentsFrom : List MapArea → List (Nat × Nat) → List (Nat × Nat)
  | [], attachments => attachments
  | area :: areas, attachments =>
    match area.backing with
    | .sharedMemory shmid base _ =>
      if (shmid, base) ∈ attachments then
        attachmentsFrom areas attachments
      else
        attachmentsFrom areas (attachments ++ [(shmid, base)])
    | _ => attachmentsFrom areas attachments

def taskSharedMemoryAttachments (ms : MemorySet) : List (Nat × Nat) :=
  attachmentsFrom ms.areas []

def inheritTaskSharedMemory (ms : MemorySet) (segments : Segments) : Segments :=
  (taskSharedMemoryAttachments ms).foldl (fun segments (shmid, _) => segments.update shmid fun segment =>
    { segment with attachCount := Usize.saturatingAdd segment.attachCount 1 }) segments

-- The loop of `detach_task_shared_memory`, which also returns the segments that are to be removed.
def detachFrom (tgid : Nat) (now : Int) : List (Nat × Nat) → Segments → List Nat → Segments × List Nat
  | [], segments, removeIds => (segments, removeIds)
  | (shmid, _) :: attachments, segments, removeIds =>
    match segments.lookup shmid with
    | none => detachFrom tgid now attachments segments removeIds
    | some segment =>
      let segment := { segment with attachCount := segment.attachCount - 1, lpid := tgid, dtime := now }
      detachFrom tgid now attachments (segments.update shmid fun _ => segment)
        (if segment.markedForRemove && segment.attachCount = 0 then removeIds ++ [shmid] else removeIds)

def detachTaskSharedMemory (tgid : Nat) (now : Int) (ms : MemorySet) (segments : Segments) : Segments :=
  let (segments, removeIds) := detachFrom tgid now (taskSharedMemoryAttachments ms) segments []
  segments.remove removeIds

namespace Ipc

def priv : Int := 0
def creat : BitVec 32 := 0o1000
def excl : BitVec 32 := 0o2000
def rmid : BitVec 32 := 0
def set : BitVec 32 := 1
def stat : BitVec 32 := 2

end Ipc

namespace Clone

def vm : BitVec 64 := 0x100
def fs : BitVec 64 := 0x200
def files : BitVec 64 := 0x400
def sighand : BitVec 64 := 0x800
def vfork : BitVec 64 := 0x4000
def thread : BitVec 64 := 0x10000
def sysvsem : BitVec 64 := 0x40000
def settls : BitVec 64 := 0x80000
def parentSettid : BitVec 64 := 0x100000
def childCleartid : BitVec 64 := 0x200000
def detached : BitVec 64 := 0x400000
def childSettid : BitVec 64 := 0x1000000
def csignal : BitVec 64 := 0xff

def allowedFlags : BitVec 64 :=
  vm ||| fs ||| files ||| sighand ||| vfork ||| thread ||| sysvsem ||| settls ||| parentSettid
    ||| childCleartid ||| detached ||| childSettid

end Clone

structure AddressSpace where
  memorySet : MemorySet
  mm : MmContext

-- All processes. A thread group is given by the address spaces of its members, and it is there until it exits.
-- Address spaces that no member has any more are dropped.
structure ShmSystem where
  spaces : (id : Nat) → AddressSpace
  groups : List (List Nat)
  segments : Segments
  frames : Frames
  nextSpace : Nat
  nextShmid : Nat

namespace ShmSystem

open Function (update)

def live (system : ShmSystem) : Finset Nat :=
  system.groups.flatten.toFinset

-- How often an address space has attached a segment.
def attached (system : ShmSystem) (shmid space : Nat) : Nat :=
  (taskSharedMemoryAttachments (system.spaces space).memorySet).countP (·.1 = shmid)

-- The pairs of a live address space and a base address that a segment is attached at.
def attachments (system : ShmSystem) (shmid : Nat) : Nat :=
  ∑ space ∈ system.live, system.attached shmid space

def process (system : ShmSystem) (space : Nat) : Process where
  memorySet := (system.spaces space).memorySet
  mm        := (system.spaces space).mm
  segments  := system.segments
  frames    := system.frames

def setProcess (system : ShmSystem) (space : Nat) (process : Process) : ShmSystem :=
  { system with
    spaces   := update system.spaces space ⟨process.memorySet, process.mm⟩
    segments := process.segments
    frames   := process.frames }

def sysShmget (system : ShmSystem) (key : Int) (size : Nat) (shmflg : BitVec 32) :
    Except SysErrNo Nat × ShmSystem :=
  let existing := if key ≠ Ipc.priv then
    system.segments.find? fun (_, segment) => segment.key = key && !segment.markedForRemove else none
  match existing with
  | some (shmid, segment) =>
    if shmflg &&& Ipc.creat ≠ 0 && shmflg &&& Ipc.excl ≠ 0 then
      (.error .EEXIST, system)
    else if size ≠ 0 && size > segment.size then
      (.error .EINVAL, system)
    else
      (.ok shmid, system)
  | none =>
    if key ≠ Ipc.priv && shmflg &&& Ipc.creat = 0 then
      (.error .ENOENT, system)
    else if size = 0 then
      (.error .EINVAL, system)
    else
      match alignUp size with
      | none     => (.error .EINVAL, system)
      | some len =>
        let pages := len / pageSize
        if system.frames.supply.length < pages then
          (.error .ENOMEM, system)
        else
          (.ok system.nextShmid, { system with
            segments  := system.segments ++ [(system.nextShmid, {
              key
              size
              lpid            := 0
              atime           := 0
              dtime           := 0
              frames          := system.frames.supply.take pages
              attachCount     := 0
              markedForRemove := false })]
            frames    := { system.frames with supply := system.frames.supply.drop pages }
            nextShmid := system.nextShmid + 1 })

-- `IPC_STAT` copies the segment to user memory, and only `IPC_RMID` changes segments.
def sysShmctl (system : ShmSystem) (shmid : Nat) (cmd : BitVec 32) (copied : Except SysErrNo Unit) :
    Except SysErrNo Nat × ShmSystem :=
  if cmd = Ipc.stat then
    match system.segments.lookup shmid, copied with
    | none, _            => (.error .EINVAL, system)
    | _,    .error error => (.error error, system)
    | _,    .ok ()       => (.ok 0, system)
  else if cmd = Ipc.set then
    (.error .ENOSYS, system)
  else if cmd = Ipc.rmid then
    match system.segments.lookup shmid with
    | none => (.error .EINVAL, system)
    | some segment =>
      let segments := system.segments.update shmid ({ · with markedForRemove := true })
      (.ok 0, { system with
        segments := if segment.attachCount = 0 then segments.remove [shmid] else segments })
  else
    (.error .EINVAL, system)

-- The members of the group at an index.
def group (system : ShmSystem) (index : Nat) : List Nat :=
  (system.groups[index]?).getD []

-- The child joins the group of its parent or gets one of its own.
def addMember (system : ShmSystem) (index child : Nat) (isThread : Bool) : ShmSystem :=
  if isThread then
    { system with groups := system.groups.set index (system.group index ++ [child]) }
  else
    { system with groups := system.groups ++ [[child]] }

-- Whether the child of a clone shares the address space of its parent, and whether it joins its group.
def cloneKind (flags : BitVec 64) : Except SysErrNo (Bool × Bool) :=
  let bits := flags &&& ~~~Clone.csignal
  if bits ≠ 0 && bits &&& ~~~Clone.allowedFlags ≠ 0 then
    .error .EINVAL
  else if bits &&& Clone.sighand ≠ 0 && bits &&& Clone.vm = 0 then
    .error .EINVAL
  else if bits &&& Clone.thread ≠ 0 && bits &&& Clone.sighand = 0 then
    .error .EINVAL
  else
    .ok (bits &&& Clone.vm ≠ 0 && bits &&& Clone.vfork = 0, bits &&& Clone.thread ≠ 0)

-- A clone by the member of a group. At last, the thread identifiers are written to user memory. The child is
-- dropped if this fails.
def sysClone (system : ShmSystem) (index space : Nat) (flags : BitVec 64) (written : Except SysErrNo Unit) :
    Except SysErrNo Unit × ShmSystem :=
  match cloneKind flags with
  | .error error => (.error error, system)
  | .ok (true, isThread) =>
    match written with
    | .error error => (.error error, system)
    | .ok ()       => (.ok (), system.addMember index space isThread)
  | .ok (false, isThread) =>
    let parent := system.spaces space
    match parent.memorySet.forkCow system.frames with
    | (memorySet, frames, .error error) =>
      (.error error, { system with spaces := update system.spaces space ⟨memorySet, parent.mm⟩, frames })
    | (memorySet, frames, .ok childMemory) =>
      let child := system.nextSpace
      let system := { system with
        spaces    := update (update system.spaces space ⟨memorySet, parent.mm⟩) child ⟨childMemory, parent.mm⟩
        segments  := inheritTaskSharedMemory childMemory system.segments
        frames
        nextSpace := child + 1 }
      match written with
      | .error error => (.error error, system)
      | .ok ()       => (.ok (), system.addMember index child isThread)

-- An `execve` that succeeds. The other members of the group end, and the address space is replaced by the
-- one of the image.
def sysExecve (system : ShmSystem) (index space tgid : Nat) (now : Int) (image : AddressSpace) : ShmSystem :=
  { system with
    groups   := system.groups.set index [space]
    segments := detachTaskSharedMemory tgid now (system.spaces space).memorySet system.segments
    spaces   := update system.spaces space image }

-- `detach_thread_group_shared_memory`, which looks at every address space once.
def detachGroup (system : ShmSystem) (tgid : Nat) (now : Int) (members : List Nat) : Segments :=
  members.dedup.foldl (fun segments space =>
    detachTaskSharedMemory tgid now (system.spaces space).memorySet segments) system.segments

def exitGroup (system : ShmSystem) (index tgid : Nat) (now : Int) : ShmSystem :=
  { system with
    groups   := system.groups.eraseIdx index
    segments := system.detachGroup tgid now (system.group index) }

-- The exit of a single member. The last one takes its group with it.
def exit (system : ShmSystem) (index space tgid : Nat) (now : Int) : ShmSystem :=
  if (system.group index).length ≤ 1 then
    system.exitGroup index tgid now
  else
    { system with groups := system.groups.set index ((system.group index).erase space) }

-- What the member of a group does. The segments of a new image are private, and the members of a group are
-- told apart by their address spaces only.
inductive Event
  | syscall (kernel : Kernel) (call : Syscall)
  | shmget (key : Int) (size : Nat) (shmflg : BitVec 32)
  | shmctl (shmid : Nat) (cmd : BitVec 32) (copied : Except SysErrNo Unit)
  | clone (flags : BitVec 64) (written : Except SysErrNo Unit)
  | execve (tgid : Nat) (now : Int) (image : AddressSpace)
  | exit (tgid : Nat) (now : Int)
  | exitGroup (tgid : Nat) (now : Int)

namespace Event

-- The kernel is lawful, `fork` is a case of `clone`, and an image has no attachments.
def Valid : Event → Prop
  | syscall kernel call => kernel.env.Lawful (fun _ => True) ∧ call ≠ .fork
  | execve _ _ image    => image.memorySet.WF ∧ taskSharedMemoryAttachments image.memorySet = []
  | _                   => True

def apply (system : ShmSystem) (index space : Nat) : Event → ShmSystem
  | syscall kernel call     => system.setProcess space ((system.process space).exec (call.body kernel)).2
  | shmget key size shmflg  => (system.sysShmget key size shmflg).2
  | shmctl shmid cmd copied => (system.sysShmctl shmid cmd copied).2
  | clone flags written     => (system.sysClone index space flags written).2
  | execve tgid now image   => system.sysExecve index space tgid now image
  | exit tgid now           => system.exit index space tgid now
  | exitGroup tgid now      => system.exitGroup index tgid now

end Event

-- What system calls make of the processes. Any member of any group may be next.
inductive Reachable (allowed : ShmSystem → (index space : Nat) → Event → Prop) (system : ShmSystem) :
    ShmSystem → Prop
  | refl : Reachable allowed system system
  | step {system' : ShmSystem} {index space : Nat} {event : Event} : Reachable allowed system system' →
      space ∈ system'.group index → event.Valid → allowed system' index space event →
      Reachable allowed system (event.apply system' index space)

-- A single process without attachments, before there are any segments.
def Initial (system : ShmSystem) : Prop :=
  ∃ space < system.nextSpace, system.groups = [[space]] ∧ (system.spaces space).memorySet.WF ∧
    taskSharedMemoryAttachments (system.spaces space).memorySet = [] ∧ system.segments = []

-- Segments count their attachments, and the ones that are marked for removal are there as long as they have
-- attachments.
structure Accounted (system : ShmSystem) : Prop where
  attachCount : ∀ shmid segment, (shmid, segment) ∈ system.segments →
                  segment.attachCount = system.attachments shmid
  marked      : ∀ shmid segment, (shmid, segment) ∈ system.segments → segment.markedForRemove →
                  0 < segment.attachCount
  exists_of   : ∀ shmid, 0 < system.attachments shmid →
                  ∃ segment, (shmid, segment) ∈ system.segments

end ShmSystem

-- The shared files of a range can be written back.
def flushes (kernel : Kernel) (process : Process) (start stop : Nat) : Bool :=
  (writeBackSharedFiles kernel
    (collectSharedFileWrites process.memorySet process.frames.mem start stop)).isOk

-- The range that `SHM_REMAP` replaces.
def shmReplaces (kernel : Kernel) (process : Process) (shmaddr : Nat) (shmflg : BitVec 32) (pages : Nat) :
    Option (Nat × Nat) :=
  let start := if shmflg &&& Shm.rnd ≠ 0 then alignDown shmaddr else shmaddr
  let stop := start + pages * pageSize
  if shmflg &&& Shm.remap ≠ 0 && shmaddr ≠ 0 && (shmflg &&& Shm.rnd ≠ 0 || shmaddr % pageSize = 0)
      && start ≥ pageSize && kernel.arch.isUserMappableRange start stop && flushes kernel process start stop then
    some (start, stop)
  else
    none

-- The range that a call unmaps other than by detaching a segment. A call that is refused before unmaps nothing.
def Syscall.unmaps (kernel : Kernel) (process : Process) : Syscall → Option (Nat × Nat)
  | mmap addr length prot flags fd offset =>
    match (process.exec (mmapSelected kernel addr length prot flags fd offset)).1 with
    | .ok (request, range, _) => if request.mapFixed && !request.noReplace then some range else none
    | .error _                => none
  | munmap addr length =>
    match checkedRange addr length with
    | .ok (_, stop) =>
      if addr % pageSize = 0 && length ≠ 0 && flushes kernel process (alignDown addr) stop then
        some (alignDown addr, stop)
      else
        none
    | .error _ => none
  | brk newBrk =>
    match alignUp newBrk with
    | some newMappedEnd =>
      if newBrk ≠ 0 && newBrk ≥ userHeapStart && newMappedEnd ≤ kernel.arch.userStackTop
          && newMappedEnd < process.mm.mappedBreak then
        some (newMappedEnd, process.mm.mappedBreak)
      else
        none
    | none => none
  | shmat shmid shmaddr shmflg =>
    match process.segments.lookup shmid with
    | some segment =>
      if shmflg &&& ~~~Shm.supportedFlags = 0 && !segment.markedForRemove then
        shmReplaces kernel process shmaddr shmflg segment.frames.length
      else
        none
    | none => none
  | _ => none

namespace ShmSystem

-- Attachments end in no other way than by detaching them, and the members of a thread group end together with
-- their address spaces.
def Careful (system : ShmSystem) (index space : Nat) : Event → Prop
  | .syscall kernel call =>
    -- An attachment keeps one of its pages.
    (∀ range, call.unmaps kernel (system.process space) = some range →
      ∀ attachment ∈ taskSharedMemoryAttachments (system.spaces space).memorySet,
      ∃ area ∈ (system.spaces space).memorySet.areas, ∃ offset,
        area.backing = .sharedMemory attachment.1 attachment.2 offset ∧
        ∃ vpn, area.startVa ≤ vpn * pageSize ∧ vpn * pageSize < area.endVa ∧
          ¬(range.1 ≤ vpn * pageSize ∧ vpn * pageSize < range.2)) ∧
    ∀ shmid shmaddr shmflg, call = .shmat shmid shmaddr shmflg → system.attachments shmid < Usize.max
  | .clone flags written =>
    ∀ isThread, cloneKind flags = .ok (false, isThread) →
      (written = .ok () ∨ taskSharedMemoryAttachments (system.spaces space).memorySet = []) ∧
      ∀ shmid, system.attachments shmid + system.attached shmid space ≤ Usize.max
  | .execve .. =>
    ∀ member ∈ system.group index, member = space ∨ member ∈ (system.groups.eraseIdx index).flatten ∨
      taskSharedMemoryAttachments (system.spaces member).memorySet = []
  | .exit .. =>
    if (system.group index).length ≤ 1 then
      space ∉ (system.groups.eraseIdx index).flatten ∨
        taskSharedMemoryAttachments (system.spaces space).memorySet = []
    else
      space ∈ (system.group index).erase space ∨ space ∈ (system.groups.eraseIdx index).flatten ∨
        taskSharedMemoryAttachments (system.spaces space).memorySet = []
  | .exitGroup .. =>
    ∀ member ∈ system.group index, member ∉ (system.groups.eraseIdx index).flatten ∨
      taskSharedMemoryAttachments (system.spaces member).memorySet = []
  | _ => True

end ShmSystem

end WllOs
