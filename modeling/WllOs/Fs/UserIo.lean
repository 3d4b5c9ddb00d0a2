import WllOs.Fs.Descriptor

namespace WllOs.Fs

def SMALL_IO_STACK_BUF : Nat := 4096

@[irreducible]
def VECTORED_IO_CHUNK : Nat := 64 * 1024

def IOV_MAX : Nat := 1024

-- The memory of the task that makes a system call. Parts of it are not mapped, or read-only.
structure UserMemory where
  bytes : Nat → UInt8
  readable : Nat → Bool
  writable : Nat → Bool

namespace UserMemory

variable (memory : UserMemory)

def write (dst : Nat) (src : List UInt8) : UserMemory :=
  { memory with bytes := fun addr =>
      if addr < dst then memory.bytes addr else src.getD (addr - dst) (memory.bytes addr) }

-- The pages are made writable before anything is copied.
def copyToUser (dst : Nat) (src : List UInt8) : Except SysErrNo UserMemory :=
  if src.isEmpty then .ok memory
  else if dst = 0 then .error .EFAULT
  else if (List.range src.length).all fun i => memory.writable (dst + i) then .ok (memory.write dst src)
  else .error .EFAULT

def copyFromUser (src len : Nat) : Except SysErrNo (List UInt8) :=
  if len = 0 then .ok []
  else if src = 0 then .error .EFAULT
  else if (List.range len).all fun i => memory.readable (src + i) then
    .ok ((List.range len).map fun i => memory.bytes (src + i))
  else .error .EFAULT

end UserMemory

structure IoVec where
  base : Nat
  len : Nat

namespace IoVec

def load (memory : UserMemory) (addr : Nat) : Except SysErrNo IoVec := do
  let bytes ← memory.copyFromUser addr 16
  return ⟨fromLeBytes (bytes.take 8), fromLeBytes (bytes.drop 8)⟩

-- The loop of `load_user_iovecs_batch` over the vectors from `index` on: the batch, where it ends and its length.
def loadBatch (memory : UserMemory) (iov maxTotalLen : Nat) :
    Nat → Nat → Nat → Except SysErrNo (List IoVec × Nat × Nat)
  | 0, index, total => .ok ([], index, total)
  | n + 1, index, total => do
    let iovec ← load memory (iov + 16 * index)
    if iovec.len = 0 then loadBatch memory iov maxTotalLen n (index + 1) total
    else if total + iovec.len > maxTotalLen then .error .EINVAL
    else if total + iovec.len ≥ VECTORED_IO_CHUNK then .ok ([iovec], index + 1, total + iovec.len)
    else
      let (iovecs, next, total) ← loadBatch memory iov maxTotalLen n (index + 1) (total + iovec.len)
      .ok (iovec :: iovecs, next, total)

def totalLen (iovecs : List IoVec) : Nat :=
  (iovecs.map len).sum

-- What the vectors have left when the cursor has advanced by `n`.
def advance : Nat → List IoVec → List IoVec
  | _, []              => []
  | n, iovec :: iovecs =>
    if n < iovec.len then ⟨iovec.base + n, iovec.len - n⟩ :: iovecs else advance (n - iovec.len) iovecs

theorem totalLen_advance (n : Nat) (iovecs : List IoVec) : totalLen (advance n iovecs) = totalLen iovecs - n := by
  induction iovecs generalizing n
  case nil => simp [advance, totalLen]
  case cons iovec iovecs hi =>
    simp only [advance]
    split
    case isTrue h =>
      simp only [totalLen, List.map_cons, List.sum_cons]
      omega
    case isFalse h =>
      rw [hi]
      simp only [totalLen, List.map_cons, List.sum_cons]
      omega

-- Copies to one vector after the other: how much has been copied, and the error that there is.
def scatter (memory : UserMemory) : List IoVec → List UInt8 → Nat × UserMemory × Option SysErrNo
  | [], _                  => (0, memory, none)
  | iovec :: iovecs, bytes =>
    if bytes.isEmpty then (0, memory, none)
    else if iovec.base > Usize.max then (0, memory, some .EFAULT)
    else
      match memory.copyToUser iovec.base (bytes.take iovec.len) with
      | .error err => (0, memory, some err)
      | .ok memory =>
        let (copied, memory, err) := scatter memory iovecs (bytes.drop iovec.len)
        ((bytes.take iovec.len).length + copied, memory, err)

end IoVec

namespace SocketState

def queued (socket : SocketState) : Nat :=
  socket.rxBuf.length + (socket.dgramQueue.map (·.data.length)).sum

end SocketState

-- A system call that reads returns, or it waits when it has delivered a number of bytes. Then it goes on from the same
-- place.
inductive Outcome
  | returned (result : Except SysErrNo Nat)
  | waits (delivered : Nat)

-- What a system call has done so far, with the number of bytes that it has taken off the file.
structure UserCall (δ : Type) where
  outcome : Outcome
  file : FileDescriptor
  objects : Objects δ
  memory : UserMemory
  taken : Nat

namespace FileDescriptor

variable {δ : Type}

-- The bytes that a read has taken off a file, or that its offset has passed.
def consumed (before after : Objects δ) (file file' : FileDescriptor) : Nat :=
  match file, file' with
  | stdin, _ => before.console.input.length - after.console.input.length
  | memFile old, memFile new => new.offset - old.offset
  | ext4Regular old, ext4Regular new => new.offset - old.offset
  | loopDevice old, loopDevice new => new.offset - old.offset
  | pipeRead pipe, _ => (before.pipes pipe.state).buf.length - (after.pipes pipe.state).buf.length
  | eventFd state, _ => if (after.eventFds state).counter = (before.eventFds state).counter then 0 else 8
  | socket state, _ => (before.sockets.states state).queued - (after.sockets.states state).queued
  | _, _ => 0

variable (volume : Volume δ) (objects : Objects δ) (memory : UserMemory)

def nonblocking : FileDescriptor → Bool
  | pipeRead pipe | pipeWrite pipe => pipe.nonblock
  | socket state => (objects.sockets.states state).nonblock
  | eventFd state => (objects.eventFds state).nonblock
  | _ => true

-- What a read that fails comes to. `wait_read_after_eagain` fails with `EAGAIN` itself if the file does not block.
def failed (file : FileDescriptor) (err : SysErrNo) (total : Nat) : Outcome :=
  if total ≠ 0 then .returned (.ok total)
  else if err = .EAGAIN ∧ ¬file.nonblocking objects then .waits 0
  else .returned (.error err)

-- A read of `/dev/null` or `/dev/zero` need not go through a buffer of the kernel.
def readsDirectly : FileDescriptor → Bool
  | memFile file => isDevNullPath file.name || isDevZeroPath file.name
  | _ => false

def directReadFdToUser (file : FileDescriptor) (dst count : Nat) :
    Except SysErrNo (Option (Nat × FileDescriptor × UserMemory)) :=
  match file with
  | memFile memFile' =>
    if isDevNullPath memFile'.name || isDevZeroPath memFile'.name then
      if ¬memFile'.readable then .error .EBADF
      else if isDevNullPath memFile'.name then .ok (some (0, file, memory))
      else
        match memory.copyToUser dst (List.replicate count 0) with
        | .error err => .error err
        | .ok memory =>
          let offset := Usize.saturatingAdd memFile'.offset count
          .ok (some (count, memFile { memFile' with offset }, memory))
    else .ok none
  | _ => .ok none

-- The part of `sys_read` that goes through a buffer of the kernel.
def bufferedRead (file : FileDescriptor) (buf count : Nat) : UserCall δ :=
  let call := read volume objects file count
  let taken := consumed objects call.objects file call.file
  match call.result with
  | .error err => ⟨failed objects file err 0, call.file, call.objects, memory, taken⟩
  | .ok bytes  =>
    match memory.copyToUser buf bytes with
    | .error err => ⟨.returned (.error err), call.file, call.objects, memory, taken⟩
    | .ok memory => ⟨.returned (.ok bytes.length), call.file, call.objects, memory, taken⟩

def sysRead (file : FileDescriptor) (buf count : Nat) : UserCall δ :=
  if count = 0 then
    let call := read volume objects file 0
    let taken := consumed objects call.objects file call.file
    ⟨.returned (call.result.map List.length), call.file, call.objects, memory, taken⟩
  else if buf = 0 then ⟨.returned (.error .EFAULT), file, objects, memory, 0⟩
  else if count > MAX_FILE_OFFSET then ⟨.returned (.error .EINVAL), file, objects, memory, 0⟩
  else if count ≤ SMALL_IO_STACK_BUF then
    match directReadFdToUser memory file buf count with
    | .error err => ⟨.returned (.error err), file, objects, memory, 0⟩
    | .ok (some (n, file', memory)) =>
      ⟨.returned (.ok n), file', objects, memory, consumed objects objects file file'⟩
    | .ok none => bufferedRead volume objects memory file buf count
  else bufferedRead volume objects memory file buf count

-- The loop of `vectored_read_to_user`. It reads a chunk at a time, and `total` bytes have been delivered.
def readChunks (iovecs : List IoVec) (total taken : Nat) (file : FileDescriptor) (objects : Objects δ)
    (memory : UserMemory) : UserCall δ :=
  let want := min (IoVec.totalLen iovecs) VECTORED_IO_CHUNK
  if want = 0 then ⟨.returned (.ok total), file, objects, memory, taken⟩
  else
    let call := read volume objects file want
    let taken := taken + consumed objects call.objects file call.file
    match call.result with
    | .error err => ⟨failed objects file err total, call.file, call.objects, memory, taken⟩
    | .ok bytes  =>
      if bytes.isEmpty then ⟨.returned (.ok total), call.file, call.objects, memory, taken⟩
      else
        match IoVec.scatter memory iovecs bytes with
        | (copied, memory, some err) =>
          let result := if total + copied ≠ 0 then .ok (total + copied) else .error err
          ⟨.returned result, call.file, call.objects, memory, taken⟩
        | (copied, memory, none) =>
          if bytes.length < want ∨ copied < bytes.length then
            ⟨.returned (.ok (total + copied)), call.file, call.objects, memory, taken⟩
          else
            readChunks (IoVec.advance copied iovecs) (total + copied) taken call.file call.objects memory
termination_by IoVec.totalLen iovecs
decreasing_by
  rw [IoVec.totalLen_advance]
  omega

-- The body of the loop of `sys_readv`. When there is no more of the batch to read, `rest` is done.
def readBatch (rest : Nat → Nat → FileDescriptor → Objects δ → UserMemory → UserCall δ) (iovecs : List IoVec)
    (want total taken : Nat) (file : FileDescriptor) (objects : Objects δ) (memory : UserMemory) : UserCall δ :=
  let call := readChunks volume iovecs 0 0 file objects memory
  let taken := taken + call.taken
  match call.outcome with
  | .returned (.ok n) =>
    if n < want then { call with outcome := .returned (.ok (total + n)), taken }
    else rest (total + n) taken call.file call.objects call.memory
  | .returned (.error err) => { call with outcome := .returned (if total ≠ 0 then .ok total else .error err), taken }
  | .waits _ => { call with outcome := .waits total, taken }

-- The loop of `sys_readv` from the vector `index` on. There are at most as many batches as vectors.
def readBatches (iov iovcnt : Nat) : Nat → Nat → Nat → Nat → FileDescriptor → Objects δ → UserMemory → UserCall δ
  | 0, _, total, taken, file, objects, memory => ⟨.returned (.ok total), file, objects, memory, taken⟩
  | n + 1, index, total, taken, file, objects, memory =>
    match IoVec.loadBatch memory iov (MAX_FILE_OFFSET - total) (iovcnt - index) index 0 with
    | .error err => ⟨.returned (if total ≠ 0 then .ok total else .error err), file, objects, memory, taken⟩
    | .ok (iovecs, next, want) =>
      if iovecs.isEmpty then ⟨.returned (.ok total), file, objects, memory, taken⟩
      else readBatch volume (readBatches iov iovcnt n next) iovecs want total taken file objects memory

def sysReadv (file : FileDescriptor) (iov iovcnt : Nat) : UserCall δ :=
  if iovcnt = 0 then ⟨.returned (.ok 0), file, objects, memory, 0⟩
  else if iovcnt > IOV_MAX then ⟨.returned (.error .EINVAL), file, objects, memory, 0⟩
  else if iov = 0 then ⟨.returned (.error .EFAULT), file, objects, memory, 0⟩
  else readBatches volume iov iovcnt iovcnt 0 0 0 file objects memory

-- The bytes of the records that the offset of a directory has passed.
def passed (entries : List (Nat × DirEntryRecord)) (offset offset' : Nat) : Nat :=
  ((((entries.drop offset).zipIdx offset).take (offset' - offset)).map fun entry =>
    (dirent entry.fst.fst (entry.snd + 1) entry.fst.snd).length).sum

def passedBy (file file' : FileDescriptor) : Nat :=
  match file, file' with
  | memDir old, memDir new => passed (numbered old.entries) old.offset new.offset
  | ext4Dir old, ext4Dir new =>
    ((volume.listDir objects.store.disk old.ino).toOption.map fun entries =>
      passed entries old.offset new.offset).getD 0
  | _, _ => 0

def sysGetdents64 (file : FileDescriptor) (dirp count : Nat) : UserCall δ :=
  if dirp = 0 then ⟨.returned (.error .EFAULT), file, objects, memory, 0⟩
  else
    let (result, file') := readDirents64 volume objects file count
    let taken := passedBy volume objects file file'
    match result with
    | .error err => ⟨.returned (.error err), file', objects, memory, taken⟩
    | .ok bytes  =>
      match memory.copyToUser dirp bytes with
      | .error err => ⟨.returned (.error err), file', objects, memory, taken⟩
      | .ok memory => ⟨.returned (.ok bytes.length), file', objects, memory, taken⟩

end FileDescriptor

namespace UserCall

variable {δ : Type} (call : UserCall δ)

def delivered : Nat :=
  match call.outcome with
  | .returned (.ok n)    => n
  | .returned (.error _) => 0
  | .waits delivered     => delivered

-- As many bytes have been taken as delivered, when `total` had been before. A call that fails has left the file and the
-- objects as they were.
structure Exact (total : Nat) (file : FileDescriptor) (objects : Objects δ) : Prop where
  taken : call.taken + total = call.delivered
  error : ∀ err, call.outcome = .returned (.error err) → call.file = file ∧ call.objects = objects

end UserCall

namespace FileDescriptor

variable {δ : Type} (volume : Volume δ) (objects : Objects δ) (memory : UserMemory)

-- A message goes into the buffer, unless the socket is shut down.
def messageFits (file : FileDescriptor) (len : Nat) : Bool :=
  match file with
  | socket state =>
    let socket := objects.sockets.states state
    socket.shutdownRead || !socket.isMessageOriented
      || socket.dgramQueue.head?.all fun packet => packet.data.length ≤ len
  | _ => true

-- What a read takes off the file can be delivered: no message is cut off, and the buffer can be written where the
-- bytes go.
def Delivered (file : FileDescriptor) (len : Nat) (writes : List UInt8 → Prop) : Prop :=
  ∀ bytes, (read volume objects file len).result = .ok bytes → file.messageFits objects len ∧ writes bytes

def ReadDelivered (file : FileDescriptor) (buf count : Nat) : Prop :=
  if count = 0 then file = stdin → objects.console.input = []
  else
    buf ≠ 0 → count ≤ MAX_FILE_OFFSET → ¬(count ≤ SMALL_IO_STACK_BUF ∧ file.readsDirectly) →
      Delivered volume objects file count fun bytes => ∃ memory', memory.copyToUser buf bytes = .ok memory'

-- `lseek` and writing leave the offset where a file can end. Only a read of `/dev/zero` gets past that.
def OffsetFits : FileDescriptor → Prop
  | memFile file => file.offset ≤ MAX_FILE_OFFSET
  | loopDevice device => device.offset ≤ MAX_FILE_OFFSET
  | _ => True

-- The same for each chunk that `vectored_read_to_user` reads.
def ChunksDelivered (iovecs : List IoVec) (file : FileDescriptor) (objects : Objects δ) (memory : UserMemory) : Prop :=
  let want := min (IoVec.totalLen iovecs) VECTORED_IO_CHUNK
  want ≠ 0 →
    let call := read volume objects file want
    (Delivered volume objects file want fun bytes => (IoVec.scatter memory iovecs bytes).snd.snd = none) ∧
      ∀ bytes, call.result = .ok bytes → bytes.length ≥ want → (IoVec.scatter memory iovecs bytes).fst ≥ bytes.length →
        ChunksDelivered (IoVec.advance (IoVec.scatter memory iovecs bytes).fst iovecs) call.file call.objects
          (IoVec.scatter memory iovecs bytes).snd.fst
termination_by IoVec.totalLen iovecs
decreasing_by
  rw [IoVec.totalLen_advance]
  omega

def BatchDelivered (rest : Nat → FileDescriptor → Objects δ → UserMemory → Prop) (iovecs : List IoVec)
    (want total : Nat) (file : FileDescriptor) (objects : Objects δ) (memory : UserMemory) : Prop :=
  ChunksDelivered volume iovecs file objects memory ∧
    let call := readChunks volume iovecs 0 0 file objects memory
    ∀ n, call.outcome = .returned (.ok n) → n ≥ want → rest (total + n) call.file call.objects call.memory

-- And for each batch of `readv`.
def BatchesDelivered (iov iovcnt : Nat) : Nat → Nat → Nat → FileDescriptor → Objects δ → UserMemory → Prop
  | 0, _, _, _, _, _ => True
  | n + 1, index, total, file, objects, memory =>
    ∀ iovecs next want,
      IoVec.loadBatch memory iov (MAX_FILE_OFFSET - total) (iovcnt - index) index 0 = .ok (iovecs, next, want) →
        iovecs ≠ [] → BatchDelivered volume (BatchesDelivered iov iovcnt n next) iovecs want total file objects memory

def ReadvDelivered (file : FileDescriptor) (iov iovcnt : Nat) : Prop :=
  iovcnt ≤ IOV_MAX → iov ≠ 0 → BatchesDelivered volume iov iovcnt iovcnt 0 0 file objects memory

-- The records that a directory gives can be written to the buffer.
def DirentsDelivered (file : FileDescriptor) (dirp count : Nat) : Prop :=
  dirp ≠ 0 → ∀ bytes, (readDirents64 volume objects file count).fst = .ok bytes →
    ∃ memory', memory.copyToUser dirp bytes = .ok memory'

end FileDescriptor

end WllOs.Fs
