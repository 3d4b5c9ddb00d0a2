import WllOs.Fs.Descriptor

namespace WllOs.Fs

namespace SocketState

def listen (socket : SocketState) : Except SysErrNo SocketState :=
  if ¬socket.isStream then .error .EOPNOTSUPP
  else if socket.connected then .error .EINVAL
  else .ok { socket with listening := true }

-- `sendto` looks for sequenced packets, where `write` looks for messages.
def send (socket : SocketState) (packet : SocketPacket) : SocketState :=
  if socket.isSeqpacket then { socket with dgramQueue := socket.dgramQueue ++ [packet] }
  else { socket with rxBuf := socket.rxBuf ++ packet.data }

def connectedTo (socket : SocketState) (peer : Nat) : SocketState :=
  { socket with connected := true, peer := some peer }

end SocketState

namespace Sockets

variable (sockets : Sockets)

def connectTo (id peer : Nat) : Sockets :=
  sockets.update id ((sockets.states id).connectedTo peer)

-- Both sockets of a pair are connected to each other.
def socketpair (sockType : Nat) (nonblock : Bool) : Sockets :=
  let left := sockets.next
  let right := sockets.next + 1
  let socket := .new sockType nonblock
  (((sockets.create socket).create socket).connectTo left right).connectTo right left

-- The part of `connect` under the lock of the listener: the socket that will be accepted. The last part is
-- `connectTo`.
def request (client listener : Nat) : Sockets :=
  let accepted := (SocketState.new SOCK_STREAM false).connectedTo client
  let socket := sockets.states listener
  (sockets.create accepted).update listener { socket with pending := socket.pending ++ [sockets.next] }

def shutdown (id : Nat) (closeRead closeWrite : Bool) : Sockets :=
  let socket := sockets.states id
  let sockets := sockets.update id { socket with
    shutdownRead := socket.shutdownRead || closeRead
    shutdownWrite := socket.shutdownWrite || closeWrite }
  match socket.livePeer sockets with
  | none      => sockets
  | some peer =>
    let socket := sockets.states peer
    sockets.update peer { socket with
      peerReadClosed := socket.peerReadClosed || closeRead
      peerWriteClosed := socket.peerWriteClosed || closeWrite }

-- The last descriptor of a socket is gone.
def drop (id : Nat) : Sockets :=
  let sockets' := { sockets with alive := Function.update sockets.alive id false }
  match (sockets.states id).livePeer sockets' with
  | none      => sockets'
  | some peer =>
    sockets'.update peer { sockets.states peer with peerReadClosed := true, peerWriteClosed := true }

-- What happens to sockets under one lock. Another task may act between two locks of a system call, so that here a
-- message reaches a socket whatever has become of the one that sent it.
inductive Step : Sockets → Prop
  | socket {sockType : Nat} (nonblock : Bool) :
      sockType ∈ [SOCK_STREAM, SOCK_DGRAM, SOCK_SEQPACKET] → Step (sockets.create (.new sockType nonblock))
  | socketpair {sockType : Nat} (nonblock : Bool) :
      sockType ∈ [SOCK_STREAM, SOCK_DGRAM, SOCK_SEQPACKET] → Step (sockets.socketpair sockType nonblock)
  | listen {id : Nat} {socket : SocketState} : id < sockets.next → (sockets.states id).listen = .ok socket →
      Step (sockets.update id socket)
  | connectDatagram {id : Nat} : id < sockets.next → (sockets.states id).isDatagram →
      Step (sockets.update id { sockets.states id with connected := true })
  | request {client listener : Nat} : client < sockets.next → listener < sockets.next →
      ¬(sockets.states client).isDatagram → (sockets.states listener).listening →
      Step (sockets.request client listener)
  | finishConnect {client accepted : Nat} : client < sockets.next → accepted < sockets.next →
      ¬(sockets.states client).isDatagram → (sockets.states accepted).isStream →
      Step (sockets.connectTo client accepted)
  | accept {id : Nat} : id < sockets.next → Step (sockets.update id (sockets.states id).accept.snd)
  | setNonblock {id : Nat} (nonblock : Bool) : id < sockets.next →
      Step (sockets.update id { sockets.states id with nonblock })
  | read {id : Nat} (len : Nat) : id < sockets.next →
      Step (sockets.update id ((sockets.states id).read sockets len).snd.fst)
  | push {id : Nat} (packet : SocketPacket) : id < sockets.next →
      Step (sockets.update id ((sockets.states id).push packet))
  | send {sender id : Nat} (packet : SocketPacket) : (sockets.states sender).isConnectionOriented →
      (sockets.states sender).peer = some id → Step (sockets.update id ((sockets.states id).send packet))
  | sendDatagram {id : Nat} (packet : SocketPacket) : id < sockets.next → (sockets.states id).isDatagram →
      Step (sockets.update id
        { sockets.states id with dgramQueue := (sockets.states id).dgramQueue ++ [packet] })
  | shutdown {id : Nat} (closeRead closeWrite : Bool) : id < sockets.next →
      Step (sockets.shutdown id closeRead closeWrite)
  | drop {id : Nat} : id < sockets.next → Step (sockets.drop id)

inductive Reachable : Sockets → Prop
  | init : Reachable init
  | step {sockets sockets' : Sockets} : Reachable sockets → Step sockets sockets' → Reachable sockets'

-- A socket holds what its type can hold, and only a stream socket listens.
structure SocketFits (next : Nat) (states : Nat → SocketState) (socket : SocketState) : Prop where
  kind : socket.isStream ∨ socket.isDatagram ∨ socket.isSeqpacket
  stream : socket.isStream → socket.dgramQueue = []
  message : socket.isMessageOriented → socket.rxBuf = []
  pending : socket.pending ≠ [] → socket.listening
  listening : socket.listening → socket.isStream
  error : socket.error = 0
  peer : ∀ peer, socket.peer = some peer → peer < next ∧ (states peer).isDatagram = socket.isDatagram

def Fits : Prop :=
  ∀ id, SocketFits sockets.next sockets.states (sockets.states id)

end Sockets

namespace FileDescriptor

def again {α : Type} : Except SysErrNo α → Bool
  | .error .EAGAIN => true
  | _              => false

variable {δ : Type} (volume : Volume δ) (objects : Objects δ)

-- A call that does not block reads, or accepts if the socket listens.
def readAgain (file : FileDescriptor) (len : Nat) : Bool :=
  match file with
  | socket state =>
    if (objects.sockets.states state).listening then again (objects.sockets.states state).accept.fst
    else again (read volume objects file len).result
  | _ => again (read volume objects file len).result

def writeAgain (writer : Nat) (file : FileDescriptor) (buf : List UInt8) : Bool :=
  again (write volume objects writer file buf).result

-- Readiness and the predicates agree with the operations.
structure Agrees (writer : Nat) (file : FileDescriptor) : Prop where
  read : ∀ len ≥ 8, file.pollReadReady objects ↔ ¬file.readAgain volume objects len
  write : file.pollWriteReady objects ∨ file.pollError objects ↔
    ∃ buf ≠ [], ¬file.writeAgain volume objects writer buf
  pipeRead : file.pipeReadWouldBlock objects → ∀ len > 0, file.readAgain volume objects len
  pipeWrite : file.pipeWriteWouldBlock objects → ∀ buf ≠ [], file.writeAgain volume objects writer buf
  eventFdRead : file.eventFdReadWouldBlock objects → ∀ len ≥ 8, file.readAgain volume objects len
  eventFdWrite : file.eventFdWriteWouldBlock objects →
    ∀ buf : List UInt8, buf.length ≥ 8 → file.writeAgain volume objects writer buf
  socketRead : file.socketReadWouldBlock objects → ∀ len > 0, again (file.read volume objects len).result

-- A listening socket is polled for what it accepts, if it has not received anything and is still open for reading.
def admitsReading : FileDescriptor → Bool
  | socket state =>
    let socket := objects.sockets.states state
    if socket.listening then !socket.shutdownRead && !socket.connected && socket.rxBuf.isEmpty
    else socket.shutdownRead || !socket.isConnectionOriented || socket.connected
  | file => file.readable

def admitsWriting : FileDescriptor → Bool
  | socket state =>
    let socket := objects.sockets.states state
    !socket.shutdownWrite && !socket.peerReadClosed
      && (!socket.isConnectionOriented || (socket.connected && (socket.livePeer objects.sockets).isSome))
  | file => file.writable

def listens : FileDescriptor → Bool
  | socket state => (objects.sockets.states state).listening
  | _ => false

-- The buffers that a descriptor accepts: an eventfd takes a number, and zero adds nothing to it.
def Asks : FileDescriptor → List UInt8 → Prop
  | eventFd _, buf =>
    buf.length ≥ 8 ∧ 0 < fromLeBytes (buf.take 8) ∧ fromLeBytes (buf.take 8) < EventFdState.COUNTER_MAX
  | _, buf => buf ≠ []

-- An unconnected socket for sequenced packets has no reader that waits.
def readerWaits : FileDescriptor → Bool
  | socket state => !(objects.sockets.states state).isSeqpacket || (objects.sockets.states state).connected
  | _ => true

structure AgreesIfAdmitted (writer : Nat) (file : FileDescriptor) : Prop where
  read : file.admitsReading objects → ∀ len ≥ 8, file.pollReadReady objects ↔ ¬file.readAgain volume objects len
  readRefused : ¬file.admitsReading objects → ¬file.listens objects →
    ∀ len ≥ 8, ∃ err ≠ SysErrNo.EAGAIN, (file.read volume objects len).result = .error err
  accept : file.listens objects → ∀ len, ¬file.readAgain volume objects len → file.pollReadReady objects
  write : file.admitsWriting objects →
    (file.pollWriteReady objects ∨ file.pollError objects ↔
      ∃ buf, file.Asks buf ∧ ¬file.writeAgain volume objects writer buf)
  writeRefused : ¬file.admitsWriting objects →
    ∀ buf ≠ [], ∃ err ≠ SysErrNo.EAGAIN, (file.write volume objects writer buf).result = .error err
  pipeRead : file.pipeReadWouldBlock objects → ∀ len > 0, file.readAgain volume objects len
  pipeWrite : file.pipeWriteWouldBlock objects → ∀ buf ≠ [], file.writeAgain volume objects writer buf
  eventFdRead : file.eventFdReadWouldBlock objects → ∀ len ≥ 8, file.readAgain volume objects len
  socketRead : file.socketReadWouldBlock objects → file.readerWaits objects →
    ∀ len > 0, again (file.read volume objects len).result

end FileDescriptor

-- The file system has no operation that waits for others.
structure Volume.NeverAgain {δ : Type} (volume : Volume δ) : Prop where
  readAt : ∀ disk ino offset len, volume.readAt disk ino offset len ≠ .error .EAGAIN
  writeAt : ∀ disk ino offset buf, (volume.writeAt disk ino offset buf).fst ≠ .error .EAGAIN
  fileSize : ∀ disk ino, volume.fileSize disk ino ≠ .error .EAGAIN
  loopReadAt : ∀ store index offset len, volume.loopReadAt store index offset len ≠ .error .EAGAIN
  loopWriteAt : ∀ store index offset buf, (volume.loopWriteAt store index offset buf).fst ≠ .error .EAGAIN

end WllOs.Fs
