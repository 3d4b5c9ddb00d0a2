import WllOs.Fs.FdTable
import WllOs.Ipc.Shm
import WllOs.Task.Signal

namespace WllOs

-- A task holds handles of the objects that it may share. The handles of `memory_set` and `mm` are shared together.
structure ProcTask where
  tgid : Nat
  space : Nat
  fdTable : Nat
  signalActions : Nat
  deriving DecidableEq

-- The tasks that have not exited, by their identifiers, and the objects by their handles. Handles from `next` on are
-- not in use.
structure ProcSystem (φ : Type) where
  tasks : Nat → Option ProcTask
  spaces : Nat → AddressSpace
  fdTables : Nat → FileDescriptorTable φ
  actions : Nat → SignalActions
  frames : Frames
  next : Nat

-- What a task observes of its process: its memory, its open descriptors and its handlers.
structure ProcView (φ : Type) where
  space : AddressSpace
  descriptors : Nat → Option (φ × BitVec 64)
  handlers : SignalActions

namespace ProcSystem

open Function (update)

variable {φ : Type}

def view (system : ProcSystem φ) (task : ProcTask) : ProcView φ where
  space := system.spaces task.space
  descriptors := (system.fdTables task.fdTable).view
  handlers := system.actions task.signalActions

-- `fork_cow` marks the pages of the parent, also when it fails. The child of a `vfork` gets a space of its own.
def forkSpace (system : ProcSystem φ) (task : ProcTask) (shareVm : Bool) : Except SysErrNo Nat × ProcSystem φ :=
  if shareVm then (.ok task.space, system)
  else
    let parent := system.spaces task.space
    match parent.memorySet.forkCow system.frames with
    | (memorySet, frames, .error error) =>
      (.error error, { system with spaces := update system.spaces task.space ⟨memorySet, parent.mm⟩, frames })
    | (memorySet, frames, .ok childMemory) =>
      let spaces := update system.spaces task.space ⟨memorySet, parent.mm⟩
      (.ok system.next, { system with spaces := update spaces system.next ⟨childMemory, parent.mm⟩, frames })

def dupFdTable (system : ProcSystem φ) (task : ProcTask) (share : Bool) : Nat × ProcSystem φ :=
  if share then (task.fdTable, system)
  else
    (system.next, { system with fdTables := update system.fdTables system.next (system.fdTables task.fdTable) })

def dupSignalActions (system : ProcSystem φ) (task : ProcTask) (share : Bool) : Nat × ProcSystem φ :=
  if share then (task.signalActions, system)
  else
    (system.next, { system with actions := update system.actions system.next (system.actions task.signalActions) })

-- At last, the thread identifiers are written to user memory, which are steps of the tasks that have this memory. The
-- child is dropped if this fails.
def sysClone (system : ProcSystem φ) (task : ProcTask) (flags : BitVec 64) (child : Nat)
    (written : Except SysErrNo Unit) : Except SysErrNo Nat × ProcSystem φ :=
  match ShmSystem.cloneKind flags with
  | .error error              => (.error error, system)
  | .ok (shareVm, isThread) =>
    match system.forkSpace task shareVm with
    | (.error error, system) => (.error error, system)
    | (.ok space, system) =>
      let (fdTable, system) := system.dupFdTable task (flags &&& Clone.files ≠ 0)
      let (signalActions, system) := system.dupSignalActions task (flags &&& Clone.sighand ≠ 0)
      let system := { system with next := system.next + 1 }
      match written with
      | .error error => (.error error, system)
      | .ok ()       =>
        let tgid := if isThread then task.tgid else child
        (.ok child, { system with tasks := update system.tasks child (some ⟨tgid, space, fdTable, signalActions⟩) })

-- The space of a new image.
def execSpace (arch : Arch) (image : MemorySet) : AddressSpace where
  memorySet := image
  mm := {
    programBreak := userHeapStart
    mappedBreak := userHeapStart
    nextMmap := arch.defaultMmapBase
    nextMmapHigh := defaultHighMmapBase }

def terminateThreadGroupPeers (system : ProcSystem φ) (pid tgid : Nat) : ProcSystem φ :=
  { system with tasks := fun peer =>
      if peer ≠ pid ∧ (system.tasks peer).any (·.tgid = tgid) then none else system.tasks peer }

-- An `execve` from the moment on that the image is loaded, from where it does not fail. The loader takes the frames of
-- the image, and leaves `frames`.
def sysExecve (system : ProcSystem φ) (arch : Arch) (pid : Nat) (task : ProcTask) (image : MemorySet)
    (frames : Frames) : ProcSystem φ :=
  let system := system.terminateThreadGroupPeers pid task.tgid
  { system with
    actions := update system.actions task.signalActions (system.actions task.signalActions).resetHandlersForExec
    fdTables := update system.fdTables task.fdTable (system.fdTables task.fdTable).closeOnExec.snd
    spaces := update system.spaces task.space (execSpace arch image)
    frames }

-- The kernel makes a process with new objects.
def spawn (system : ProcSystem φ) (pid : Nat) (space : AddressSpace) (stdin stdout stderr : φ) : ProcSystem φ where
  tasks := update system.tasks pid (some ⟨pid, system.next, system.next, system.next⟩)
  spaces := update system.spaces system.next space
  fdTables := update system.fdTables system.next (.new stdin stdout stderr)
  actions := update system.actions system.next .new
  frames := system.frames
  next := system.next + 1

-- What a task does to the tasks and to its objects. What other system calls, page faults and the program itself make
-- of its memory is `memory`.
inductive Event (φ : Type)
  | clone (flags : BitVec 64) (child : Nat) (written : Except SysErrNo Unit)
  | execve (image : MemorySet) (frames : Frames)
  | memory (space : AddressSpace) (frames : Frames)
  | descriptors (op : FileDescriptorTable.Op φ)
  | sigaction (signum : Fin (MAX_SIGNAL + 1)) (action : KernelSigAction)
  | exit

def apply (system : ProcSystem φ) (arch : Arch) (pid : Nat) (task : ProcTask) : Event φ → ProcSystem φ
  | .clone flags child written => (system.sysClone task flags child written).snd
  | .execve image frames       => system.sysExecve arch pid task image frames
  | .memory space frames       => { system with spaces := update system.spaces task.space space, frames }
  | .descriptors op            =>
    { system with fdTables := update system.fdTables task.fdTable ((system.fdTables task.fdTable).apply op) }
  | .sigaction signum action   =>
    let actions := (system.actions task.signalActions).set signum action
    { system with actions := update system.actions task.signalActions actions }
  | .exit                      => { system with tasks := update system.tasks pid none }

-- An identifier that no task and no thread group has.
def Free (system : ProcSystem φ) (pid : Nat) : Prop :=
  ∀ other task, system.tasks other = some task → other ≠ pid ∧ task.tgid ≠ pid

def Event.Valid (system : ProcSystem φ) : Event φ → Prop
  | clone _ child _ => system.Free child
  | _               => True

inductive Reachable (arch : Arch) (allowed : Event φ → Prop) : ProcSystem φ → Prop
  | boot {system : ProcSystem φ} : (∀ pid, system.tasks pid = none) → Reachable arch allowed system
  | spawn {system : ProcSystem φ} {pid : Nat} {space : AddressSpace} {stdin stdout stderr : φ} :
      Reachable arch allowed system → system.Free pid →
      Reachable arch allowed (system.spawn pid space stdin stdout stderr)
  | step {system : ProcSystem φ} {pid : Nat} {task : ProcTask} {event : Event φ} : Reachable arch allowed system →
      system.tasks pid = some task → event.Valid system → allowed event →
      Reachable arch allowed (system.apply arch pid task event)

-- An `execve` leaves the tasks outside the thread group of the caller alone.
def Confined (system : ProcSystem φ) (arch : Arch) (pid : Nat) (task : ProcTask) (image : MemorySet)
    (frames : Frames) : Prop :=
  ∀ other task', system.tasks other = some task' → task'.tgid ≠ task.tgid →
    (system.sysExecve arch pid task image frames).tasks other = some task' ∧
      (system.sysExecve arch pid task image frames).view task' = system.view task'

-- What a task shares with the caller of an `execve` is what `execve` makes of it already.
structure Untouched (system : ProcSystem φ) (arch : Arch) (task : ProcTask) (image : MemorySet)
    (task' : ProcTask) : Prop where
  space : task'.space = task.space → system.spaces task.space = execSpace arch image
  descriptors : task'.fdTable = task.fdTable → ∀ index, (system.fdTables task.fdTable).isCloexec index = false
  handlers : task'.signalActions = task.signalActions → ∀ signum : Fin (MAX_SIGNAL + 1), 1 ≤ signum.val →
    ((system.actions task.signalActions).get signum).handler ≤ SIG_IGN

-- A clone that makes a process shares none of the objects with it.
def Event.SharesNothing : Event φ → Prop
  | clone flags _ _ => ∀ shareVm, ShmSystem.cloneKind flags = .ok (shareVm, false) →
      shareVm = false ∧ flags &&& Clone.files = 0 ∧ flags &&& Clone.sighand = 0
  | _               => True

end ProcSystem

end WllOs
