import WllOs.Fs.MemFileContent
import WllOs.Mm.Basic

namespace WllOs.Fs

def PIPE_CAPACITY : Nat := 64 * 1024

def PIPE_SMALL_COPY : Nat := 64

def SOCK_STREAM : Nat := 1

def SOCK_DGRAM : Nat := 2

def SOCK_SEQPACKET : Nat := 5

def CONSOLE_LINE_CAP : Nat := 512

-- The keys that tasks wait for, by the object and the event.
inductive WaitKey
  | pipeReadable (pipe : Nat)
  | pipeWritable (pipe : Nat)
  | eventFdReadable (eventFd : Nat)
  | eventFdWritable (eventFd : Nat)
  | socketReadable (socket : Nat)
  deriving DecidableEq

-- `wake_io_waiters` is `none` and wakes the waiters without a key, `wake_io_keyed_waiters` wakes those with the key too.
abbrev Wake := Option WaitKey

-- The bytes of `value`, the lowest first.
def leBytes (width value : Nat) : List UInt8 :=
  (List.range width).map fun i => UInt8.ofNat (value / 256 ^ i)

def fromLeBytes : List UInt8 → Nat
  | []            => 0
  | byte :: bytes => byte.toNat + 256 * fromLeBytes bytes

-- The bytes of a pipe are in a ring, and `head` is the place of the first one.
structure PipeState where
  buf : List UInt8
  head : Nat
  readers : Nat
  writers : Nat

namespace PipeState

def new : PipeState where
  buf := []
  head := 0
  readers := 1
  writers := 1

-- Takes bytes off the front, a byte at a time.
def popFront : Nat → PipeState → List UInt8 × PipeState
  | 0, pipe     => ([], pipe)
  | n + 1, pipe =>
    let popped := popFront n { pipe with buf := pipe.buf.tail, head := (pipe.head + 1) % PIPE_CAPACITY }
    (pipe.buf.headD 0 :: popped.fst, popped.snd)

-- The two parts of the ring.
def asSlices (pipe : PipeState) : List UInt8 × List UInt8 :=
  pipe.buf.splitAt (PIPE_CAPACITY - pipe.head)

def pipeReadBuffer (pipe : PipeState) (len : Nat) : List UInt8 × PipeState :=
  let n := min len pipe.buf.length
  if n ≤ PIPE_SMALL_COPY then pipe.popFront n
  else
    let (front, back) := pipe.asSlices
    let frontLen := min n front.length
    (front.take frontLen ++ back.take (n - frontLen),
      { pipe with buf := pipe.buf.drop n, head := (pipe.head + n) % PIPE_CAPACITY })

def pipeWriteBuffer (pipe : PipeState) (buf : List UInt8) (available : Nat) : Nat × PipeState :=
  let n := min buf.length available
  if n ≤ PIPE_SMALL_COPY then (n, (buf.take n).foldl (fun pipe byte => { pipe with buf := pipe.buf ++ [byte] }) pipe)
  else (n, { pipe with buf := pipe.buf ++ buf.take n })

-- The last component tells whether to wake the writers.
def read (pipe : PipeState) (len : Nat) : Except SysErrNo (List UInt8) × PipeState × Bool :=
  if len = 0 then (.ok [], pipe, false)
  else if pipe.buf.isEmpty then (if pipe.writers = 0 then .ok [] else .error .EAGAIN, pipe, false)
  else
    let wasFull := pipe.buf.length = PIPE_CAPACITY
    let (bytes, pipe) := pipe.pipeReadBuffer len
    (.ok bytes, pipe, wasFull ∧ pipe.buf.length < PIPE_CAPACITY)

-- The last component tells whether to wake the readers.
def write (pipe : PipeState) (buf : List UInt8) : Except SysErrNo Nat × PipeState × Bool :=
  if buf.isEmpty then (.ok 0, pipe, false)
  else if pipe.readers = 0 then (.error .EPIPE, pipe, false)
  else
    let available := PIPE_CAPACITY - pipe.buf.length
    if available = 0 then (.error .EAGAIN, pipe, false)
    else
      let wasEmpty := pipe.buf.isEmpty
      let (written, pipe) := pipe.pipeWriteBuffer buf available
      (.ok written, pipe, wasEmpty && written != 0)

end PipeState

structure EventFdState where
  counter : Nat
  semaphore : Bool
  nonblock : Bool

namespace EventFdState

def COUNTER_MAX : Nat := 2 ^ 64 - 1

def read (eventFd : EventFdState) (len : Nat) : Except SysErrNo (List UInt8) × EventFdState × Bool :=
  if len < 8 then (.error .EINVAL, eventFd, false)
  else if eventFd.counter = 0 then (.error .EAGAIN, eventFd, false)
  else if eventFd.semaphore then (.ok (leBytes 8 1), { eventFd with counter := eventFd.counter - 1 }, true)
  else (.ok (leBytes 8 eventFd.counter), { eventFd with counter := 0 }, true)

def write (eventFd : EventFdState) (buf : List UInt8) : Except SysErrNo Nat × EventFdState × Bool :=
  if buf.length < 8 then (.error .EINVAL, eventFd, false)
  else
    let value := fromLeBytes (buf.take 8)
    if value = COUNTER_MAX then (.error .EINVAL, eventFd, false)
    else if value > COUNTER_MAX - 1 - eventFd.counter then (.error .EAGAIN, eventFd, false)
    else (.ok 8, { eventFd with counter := eventFd.counter + value }, eventFd.counter = 0 ∧ value ≠ 0)

end EventFdState

structure SocketPacket where
  data : List UInt8
  addr : List UInt8

structure SocketState where
  sockType : Nat
  nonblock : Bool
  listening : Bool
  connected : Bool
  shutdownRead : Bool
  shutdownWrite : Bool
  peer : Option Nat
  peerWriteClosed : Bool
  peerReadClosed : Bool
  rxBuf : List UInt8
  dgramQueue : List SocketPacket
  pending : List Nat
  error : Int

-- The sockets by their identifiers. Those from `next` on have not been created.
structure Sockets where
  states : Nat → SocketState
  alive : Nat → Bool
  next : Nat

namespace SocketState

def new (sockType : Nat) (nonblock : Bool) : SocketState where
  sockType := sockType
  nonblock := nonblock
  listening := false
  connected := false
  shutdownRead := false
  shutdownWrite := false
  peer := none
  peerWriteClosed := false
  peerReadClosed := false
  rxBuf := []
  dgramQueue := []
  pending := []
  error := 0

variable (socket : SocketState)

def isStream : Bool :=
  socket.sockType = SOCK_STREAM

def isDatagram : Bool :=
  socket.sockType = SOCK_DGRAM

def isSeqpacket : Bool :=
  socket.sockType = SOCK_SEQPACKET

def isConnectionOriented : Bool :=
  socket.isStream || socket.isSeqpacket

def isMessageOriented : Bool :=
  socket.isDatagram || socket.isSeqpacket

-- What `Weak::upgrade` of the peer finds.
def livePeer (sockets : Sockets) : Option Nat :=
  socket.peer.filter sockets.alive

def receiveEof (sockets : Sockets) : Bool :=
  socket.isConnectionOriented && socket.connected && (socket.peerWriteClosed || (socket.livePeer sockets).isNone)

-- The last component tells whether to wake the tasks that wait without a key.
def read (sockets : Sockets) (len : Nat) : Except SysErrNo (List UInt8) × SocketState × Bool :=
  if len = 0 then (.ok [], socket, false)
  else if socket.shutdownRead then (.ok [], socket, false)
  else if socket.isConnectionOriented ∧ ¬socket.connected then (.error .ENOTCONN, socket, false)
  else if socket.isMessageOriented then
    match socket.dgramQueue with
    | packet :: queue =>
      let bytes := packet.data.take len
      (.ok bytes, { socket with dgramQueue := queue }, bytes.length > 0)
    | [] => (if socket.receiveEof sockets then .ok [] else .error .EAGAIN, socket, false)
  else if socket.rxBuf.isEmpty then (if socket.receiveEof sockets then .ok [] else .error .EAGAIN, socket, false)
  else (.ok (socket.rxBuf.take len), { socket with rxBuf := socket.rxBuf.drop len }, true)

-- The peer that a write reaches.
def writePeer (sockets : Sockets) : Except SysErrNo Nat :=
  if socket.shutdownWrite then .error .EPIPE
  else if socket.isConnectionOriented ∧ ¬socket.connected then .error .ENOTCONN
  else if socket.peerReadClosed then .error .EPIPE
  else (socket.livePeer sockets).elim (.error .EPIPE) .ok

def push (packet : SocketPacket) : SocketState :=
  if socket.isMessageOriented then { socket with dgramQueue := socket.dgramQueue ++ [packet] }
  else { socket with rxBuf := socket.rxBuf ++ packet.data }

def accept : Except SysErrNo Nat × SocketState :=
  if ¬socket.isStream then (.error .EOPNOTSUPP, socket)
  else if ¬socket.listening then (.error .EINVAL, socket)
  else
    match socket.pending with
    | accepted :: pending => (.ok accepted, { socket with pending := pending })
    | []                  => (.error .EAGAIN, socket)

end SocketState

namespace Sockets

def init : Sockets where
  states _ := .new SOCK_STREAM false
  alive _ := false
  next := 0

variable (sockets : Sockets)

def update (id : Nat) (socket : SocketState) : Sockets :=
  { sockets with states := Function.update sockets.states id socket }

def create (socket : SocketState) : Sockets where
  states := Function.update sockets.states sockets.next socket
  alive := Function.update sockets.alive sockets.next true
  next := sockets.next + 1

-- The key of the last component is that of the peer that has received.
def write (id : Nat) (buf : List UInt8) : Except SysErrNo Nat × Sockets × List Wake :=
  if buf.isEmpty then (.ok 0, sockets, [])
  else
    match (sockets.states id).writePeer sockets with
    | .error err => (.error err, sockets, [])
    | .ok peer   =>
      if (sockets.states peer).shutdownRead then (.error .EPIPE, sockets, [])
      else
        (.ok buf.length, sockets.update peer ((sockets.states peer).push ⟨buf, []⟩), [some (.socketReadable peer)])

end Sockets

-- The lines that are not complete, by the process that writes them, and what has been printed.
structure Console where
  input : List UInt8
  lines : List (Nat × List UInt8)
  printed : List UInt8

namespace Console

def newline : UInt8 :=
  10

-- The body of the loop over the bytes: the line, and what has been printed.
def putByte (line : List UInt8 × List UInt8) (byte : UInt8) : List UInt8 × List UInt8 :=
  let content := line.fst ++ [byte]
  if byte = newline ∨ content.length ≥ CONSOLE_LINE_CAP then ([], line.snd ++ content) else (content, line.snd)

def writeConsoleBuffered (console : Console) (writer : Nat) (buf : List UInt8) : Console :=
  let line := (console.lines.lookup writer).getD []
  let (line, printed) := buf.foldl putByte (line, console.printed)
  { console with
    lines := (writer, line) :: console.lines.filter (·.fst ≠ writer)
    printed := printed }

end Console

end WllOs.Fs
