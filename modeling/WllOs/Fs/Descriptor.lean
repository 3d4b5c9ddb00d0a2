import WllOs.Fs.FdTable
import WllOs.Fs.Objects

namespace WllOs.Fs

def MAX_FILE_OFFSET : Nat := 2 ^ 63 - 1

structure DirEntryRecord where
  name : String
  isDir : Bool

-- The backings of memory files, and the disk that the ext4 volume is on.
structure Store (δ : Type) where
  backings : Nat → MemFileContent
  disk : δ

-- The ext4 volume and the loop devices. A loop device is backed by a memory file or by a file of the volume.
structure Volume (δ : Type) where
  readAt : δ → Nat → Nat → Nat → Except SysErrNo (List UInt8)
  writeAt : δ → Nat → Nat → List UInt8 → Except SysErrNo Nat × δ
  fileSize : δ → Nat → Except SysErrNo Nat
  listDir : δ → Nat → Except SysErrNo (List (Nat × DirEntryRecord))
  loopReadAt : Store δ → Nat → Nat → Nat → Except SysErrNo (List UInt8)
  loopWriteAt : Store δ → Nat → Nat → List UInt8 → Except SysErrNo Nat × Store δ
  loopSize : Store δ → Nat → Except SysErrNo Nat
  length_readAt : ∀ {disk ino offset len bytes}, readAt disk ino offset len = .ok bytes → bytes.length ≤ len
  length_loopReadAt : ∀ {store index offset len bytes},
    loopReadAt store index offset len = .ok bytes → bytes.length ≤ len

structure MemFile where
  name : String
  backing : Nat
  offset : Nat
  ofdOwner : Nat
  readable : Bool
  writable : Bool
  append : Bool

structure MemDir where
  entries : List DirEntryRecord
  offset : Nat

structure Ext4Regular where
  ino : Nat
  offset : Nat
  ofdOwner : Nat
  readable : Bool
  writable : Bool
  append : Bool

structure Ext4Dir where
  ino : Nat
  offset : Nat

structure LoopDevice where
  index : Nat
  offset : Nat
  readable : Bool
  writable : Bool

structure PipeEnd where
  state : Nat
  nonblock : Bool

-- The state of pipes, sockets, eventfds and epolls is shared, and a descriptor has its identifier.
inductive FileDescriptor
  | stdin
  | stdout
  | stderr
  | memFile (file : MemFile)
  | memDir (dir : MemDir)
  | ext4Regular (file : Ext4Regular)
  | ext4Dir (dir : Ext4Dir)
  | path (hostPath : String)
  | loopControl
  | loopDevice (device : LoopDevice)
  | pipeRead (pipe : PipeEnd)
  | pipeWrite (pipe : PipeEnd)
  | socket (state : Nat)
  | eventFd (state : Nat)
  | epoll (state : Nat)

structure Objects (δ : Type) where
  store : Store δ
  pipes : Nat → PipeState
  sockets : Sockets
  eventFds : Nat → EventFdState
  console : Console

-- A volume without files.
def Volume.empty : Volume Unit where
  readAt _ _ _ _ := .error .ENOENT
  writeAt disk _ _ _ := (.error .ENOENT, disk)
  fileSize _ _ := .error .ENOENT
  listDir _ _ := .error .ENOENT
  loopReadAt _ _ _ _ := .error .ENODEV
  loopWriteAt store _ _ _ := (.error .ENODEV, store)
  loopSize _ _ := .error .ENODEV
  length_readAt := nofun
  length_loopReadAt := nofun

-- What an operation on a descriptor leaves.
structure Call (δ α : Type) where
  result : Except SysErrNo α
  file : FileDescriptor
  objects : Objects δ
  wakes : List Wake

namespace Objects

variable {δ : Type}

-- The objects before any has been created. A pipe without ends is none.
def init (disk : δ) : Objects δ where
  store := { backings := fun _ => .new, disk }
  pipes _ := { PipeState.new with readers := 0, writers := 0 }
  sockets := .init
  eventFds _ := { counter := 0, semaphore := false, nonblock := false }
  console := { input := [], lines := [], printed := [] }

variable (objects : Objects δ)

def setBacking (backing : Nat) (content : MemFileContent) : Objects δ :=
  { objects with store.backings := Function.update objects.store.backings backing content }

def setPipe (state : Nat) (pipe : PipeState) : Objects δ :=
  { objects with pipes := Function.update objects.pipes state pipe }

def setEventFd (state : Nat) (eventFd : EventFdState) : Objects δ :=
  { objects with eventFds := Function.update objects.eventFds state eventFd }

end Objects

namespace FileDescriptor

def isDevNullPath (path : String) : Bool :=
  path = "/dev/null" || path = "/glibc/dev/null" || path = "/musl/dev/null"

def isDevZeroPath (path : String) : Bool :=
  path = "/dev/zero" || path = "/glibc/dev/zero" || path = "/musl/dev/zero"

def checkedFileEnd (offset len : Nat) : Except SysErrNo Nat :=
  match Usize.checkedAdd offset len with
  | none       => .error .EFBIG
  | some «end» => if «end» > MAX_FILE_OFFSET then .error .EFBIG else .ok «end»

-- The record of a directory entry: the next position is `off`, and the length is a multiple of 8.
def dirent (ino off : Nat) (entry : DirEntryRecord) : List UInt8 :=
  let name := entry.name.toUTF8.toList
  let reclen := (name.length + 27) / 8 * 8
  leBytes 8 ino ++ leBytes 8 off ++ leBytes 2 reclen ++ [if entry.isDir then 4 else 8] ++ name
    ++ List.replicate (reclen - (19 + name.length)) 0

-- The loop of `read_dirents64`: the new position, and the records that fit in `room` bytes.
def readDirents : List (Nat × DirEntryRecord) → Nat → Nat → Nat × List UInt8
  | [], offset, _ => (offset, [])
  | (ino, entry) :: entries, offset, room =>
    let bytes := dirent ino (offset + 1) entry
    if bytes.length > room then (offset, [])
    else
      let read := readDirents entries (offset + 1) (room - bytes.length)
      (read.fst, bytes ++ read.snd)

-- The entries of a memory directory are numbered.
def numbered (entries : List DirEntryRecord) : List (Nat × DirEntryRecord) :=
  entries.zipIdx.map fun (entry, index) => (index + 1, entry)

variable {δ : Type} (volume : Volume δ) (objects : Objects δ)

def readMemFile (file : MemFile) (len : Nat) : Except SysErrNo (List UInt8) × MemFile :=
  if ¬file.readable then (.error .EBADF, file)
  else if isDevNullPath file.name then (.ok [], file)
  else if isDevZeroPath file.name then
    (.ok (List.replicate len 0), { file with offset := Usize.saturatingAdd file.offset len })
  else
    let content := objects.store.backings file.backing
    if file.offset ≥ content.len then (.ok [], file)
    else
      let (toRead, buf) := content.readAt file.offset (List.replicate len 0)
      (.ok (buf.take toRead), { file with offset := file.offset + toRead })

def readExt4Regular (file : Ext4Regular) (len : Nat) : Except SysErrNo (List UInt8) × Ext4Regular :=
  if ¬file.readable then (.error .EBADF, file)
  else
    match volume.readAt objects.store.disk file.ino file.offset len with
    | .error err => (.error err, file)
    | .ok bytes  => (.ok bytes, { file with offset := file.offset + bytes.length })

def readLoopDevice (device : LoopDevice) (len : Nat) : Except SysErrNo (List UInt8) × LoopDevice :=
  if ¬device.readable then (.error .EBADF, device)
  else
    match volume.loopReadAt objects.store device.index device.offset len with
    | .error err => (.error err, device)
    | .ok bytes  => (.ok bytes, { device with offset := Usize.saturatingAdd device.offset bytes.length })

def keyedWake (wake : Bool) (key : WaitKey) : List Wake :=
  if wake then [some key] else []

-- Without a terminal, `stdin` is at its end when there is no input. A byte of the input is taken before the buffer
-- is looked at.
def read (file : FileDescriptor) (len : Nat) : Call δ (List UInt8) :=
  let fail err := ⟨.error err, file, objects, []⟩
  match file with
  | stdin =>
    let bytes := (objects.console.input.take 1).take len
    ⟨.ok bytes, file, { objects with console.input := objects.console.input.tail }, []⟩
  | memFile memFile' =>
    let (result, memFile') := readMemFile objects memFile' len
    ⟨result, .memFile memFile', objects, []⟩
  | memDir _ => fail .EISDIR
  | ext4Regular regular =>
    let (result, regular) := readExt4Regular volume objects regular len
    ⟨result, .ext4Regular regular, objects, []⟩
  | ext4Dir _ => fail .EISDIR
  | path _ => fail .EBADF
  | loopControl => fail SysErrNo.ENXIO
  | loopDevice device =>
    let (result, device) := readLoopDevice volume objects device len
    ⟨result, .loopDevice device, objects, []⟩
  | pipeRead pipe =>
    let (result, state, wake) := (objects.pipes pipe.state).read len
    ⟨result, file, objects.setPipe pipe.state state, keyedWake wake (.pipeWritable pipe.state)⟩
  | eventFd state =>
    let (result, counter, wake) := (objects.eventFds state).read len
    ⟨result, file, objects.setEventFd state counter, keyedWake wake (.eventFdWritable state)⟩
  | socket state =>
    let (result, received, wake) := (objects.sockets.states state).read objects.sockets len
    ⟨result, file, { objects with sockets := objects.sockets.update state received }, if wake then [none] else []⟩
  | _ => fail .EBADF

def writeMemFile (file : MemFile) (buf : List UInt8) : Except SysErrNo Nat × MemFile × Objects δ :=
  if ¬file.writable then (.error .EBADF, file, objects)
  else if isDevNullPath file.name || isDevZeroPath file.name then (.ok buf.length, file, objects)
  else if buf.isEmpty then (.ok 0, file, objects)
  else
    let content := objects.store.backings file.backing
    let start := if file.append then content.len else file.offset
    match checkedFileEnd start buf.length with
    | .error err => (.error err, { file with offset := start }, objects)
    | .ok «end»  =>
      let content := (content.writeAt start buf).elim content Prod.snd
      (.ok buf.length, { file with offset := «end» }, objects.setBacking file.backing content)

def writeExt4Regular (file : Ext4Regular) (buf : List UInt8) : Except SysErrNo Nat × Ext4Regular × Objects δ :=
  if ¬file.writable then (.error .EBADF, file, objects)
  else
    match if file.append then volume.fileSize objects.store.disk file.ino else .ok file.offset with
    | .error err => (.error err, file, objects)
    | .ok start  =>
      let file := { file with offset := start }
      match checkedFileEnd start buf.length with
      | .error err => (.error err, file, objects)
      | .ok _      =>
        let (result, disk) := volume.writeAt objects.store.disk file.ino start buf
        let objects := { objects with store.disk := disk }
        match result with
        | .error err => (.error err, file, objects)
        | .ok n      => (.ok n, { file with offset := start + n }, objects)

def writeLoopDevice (device : LoopDevice) (buf : List UInt8) : Except SysErrNo Nat × LoopDevice × Objects δ :=
  if ¬device.writable then (.error .EBADF, device, objects)
  else if buf.isEmpty then (.ok 0, device, objects)
  else
    match checkedFileEnd device.offset buf.length with
    | .error err => (.error err, device, objects)
    | .ok _      =>
      let (result, store) := volume.loopWriteAt objects.store device.index device.offset buf
      let objects := { objects with store := store }
      match result with
      | .error err => (.error err, device, objects)
      | .ok n      => (.ok n, { device with offset := Usize.saturatingAdd device.offset n }, objects)

-- The process `writer` writes.
def write (writer : Nat) (file : FileDescriptor) (buf : List UInt8) : Call δ Nat :=
  let fail err := ⟨.error err, file, objects, []⟩
  match file with
  | stdout | stderr =>
    ⟨.ok buf.length, file, { objects with console := objects.console.writeConsoleBuffered writer buf }, []⟩
  | memDir _ => fail .EISDIR
  | memFile memFile' =>
    let (result, memFile', objects) := writeMemFile objects memFile' buf
    ⟨result, .memFile memFile', objects, []⟩
  | ext4Regular regular =>
    let (result, regular, objects) := writeExt4Regular volume objects regular buf
    ⟨result, .ext4Regular regular, objects, []⟩
  | ext4Dir _ => fail .EISDIR
  | path _ => fail .EBADF
  | loopControl => fail SysErrNo.ENXIO
  | loopDevice device =>
    let (result, device, objects) := writeLoopDevice volume objects device buf
    ⟨result, .loopDevice device, objects, []⟩
  | pipeWrite pipe =>
    let (result, state, wake) := (objects.pipes pipe.state).write buf
    ⟨result, file, objects.setPipe pipe.state state, keyedWake wake (.pipeReadable pipe.state)⟩
  | pipeRead _ => fail .EBADF
  | eventFd state =>
    let (result, counter, wake) := (objects.eventFds state).write buf
    ⟨result, file, objects.setEventFd state counter, keyedWake wake (.eventFdReadable state)⟩
  | socket state =>
    let (result, sockets, wakes) := objects.sockets.write state buf
    ⟨result, file, { objects with sockets := sockets }, wakes⟩
  | _ => fail .EBADF

def readDirents64 (file : FileDescriptor) (len : Nat) : Except SysErrNo (List UInt8) × FileDescriptor :=
  match file with
  | memDir dir =>
    let (offset, bytes) := readDirents ((numbered dir.entries).drop dir.offset) dir.offset len
    (.ok bytes, .memDir { dir with offset })
  | ext4Dir dir =>
    match volume.listDir objects.store.disk dir.ino with
    | .error err  => (.error err, file)
    | .ok entries =>
      let (offset, bytes) := readDirents (entries.drop dir.offset) dir.offset len
      (.ok bytes, .ext4Dir { dir with offset })
  | path _ => (.error .EBADF, file)
  | _ => (.error .ENOTDIR, file)

def pollHup : FileDescriptor → Bool
  | pipeRead pipe => (objects.pipes pipe.state).writers = 0
  | socket state =>
    let socket := objects.sockets.states state
    (socket.shutdownRead && socket.shutdownWrite)
      || (socket.isConnectionOriented && socket.connected && (socket.livePeer objects.sockets).isNone)
  | _ => false

def pollError : FileDescriptor → Bool
  | pipeWrite pipe => (objects.pipes pipe.state).readers = 0
  | socket state => (objects.sockets.states state).error ≠ 0
  | _ => false

def pollReadReady : FileDescriptor → Bool
  | stdin => true
  | memFile file => file.readable
  | ext4Regular file => file.readable
  | loopDevice device => device.readable
  | pipeRead pipe => !(objects.pipes pipe.state).buf.isEmpty || (objects.pipes pipe.state).writers = 0
  | eventFd state => (objects.eventFds state).counter ≠ 0
  | socket state =>
    let socket := objects.sockets.states state
    socket.shutdownRead || !socket.rxBuf.isEmpty || !socket.dgramQueue.isEmpty || !socket.pending.isEmpty
      || (socket.isConnectionOriented && socket.connected
        && (socket.peerWriteClosed || (socket.livePeer objects.sockets).isNone))
  | _ => false

def pollWriteReady : FileDescriptor → Bool
  | stdout | stderr => true
  | memFile file => file.writable
  | ext4Regular file => file.writable
  | loopDevice device => device.writable
  | pipeWrite pipe =>
    (objects.pipes pipe.state).readers > 0 && (objects.pipes pipe.state).buf.length < PIPE_CAPACITY
  | eventFd state => (objects.eventFds state).counter < EventFdState.COUNTER_MAX - 1
  | socket state =>
    let socket := objects.sockets.states state
    (socket.connected || socket.isDatagram) && !socket.shutdownWrite && !socket.peerReadClosed
      && (!socket.isConnectionOriented || (socket.livePeer objects.sockets).isSome) && socket.error = 0
  | _ => false

def socketReadWouldBlock : FileDescriptor → Bool
  | socket state =>
    let socket := objects.sockets.states state
    if socket.shutdownRead then false
    else if socket.isMessageOriented then socket.dgramQueue.isEmpty && !socket.receiveEof objects.sockets
    else socket.connected && socket.rxBuf.isEmpty && !socket.receiveEof objects.sockets
  | _ => false

def pipeReadWouldBlock : FileDescriptor → Bool
  | pipeRead pipe => (objects.pipes pipe.state).buf.isEmpty && (objects.pipes pipe.state).writers > 0
  | _ => false

def pipeWriteWouldBlock : FileDescriptor → Bool
  | pipeWrite pipe =>
    (objects.pipes pipe.state).readers > 0 && (objects.pipes pipe.state).buf.length ≥ PIPE_CAPACITY
  | _ => false

def eventFdReadWouldBlock : FileDescriptor → Bool
  | eventFd state => (objects.eventFds state).counter = 0
  | _ => false

def eventFdWriteWouldBlock : FileDescriptor → Bool
  | eventFd state => (objects.eventFds state).counter ≠ 0
  | _ => false

def readable : FileDescriptor → Bool
  | stdin => true
  | memFile file => file.readable
  | ext4Regular file => file.readable
  | loopDevice device => device.readable
  | pipeRead _ | socket _ | eventFd _ => true
  | _ => false

def writable : FileDescriptor → Bool
  | stdout | stderr => true
  | memFile file => file.writable
  | ext4Regular file => file.writable
  | loopDevice device => device.writable
  | pipeWrite _ | socket _ | eventFd _ => true
  | _ => false

end FileDescriptor

end WllOs.Fs
