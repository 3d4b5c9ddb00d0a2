import WllOs.Fs.Readiness
import WllOs.Fs.UserIo

namespace WllOs.Fs

def AF_UNIX : Nat := 1

def AF_INET : Nat := 2

def AF_INET6 : Nat := 10

@[irreducible]
def UDP_MAX_PAYLOAD : Nat := 65507

-- An address that has a family.
structure SockAddr where
  bytes : List UInt8
  hasFamily : 2 ≤ bytes.length
  deriving DecidableEq

namespace SockAddr

variable (addr : SockAddr)

def family : Nat :=
  fromLeBytes (addr.bytes.take 2)

def port : Option Nat :=
  if (addr.family = AF_INET ∨ addr.family = AF_INET6) ∧ addr.bytes.length ≥ 4 then
    some (256 * (addr.bytes.getD 2 0).toNat + (addr.bytes.getD 3 0).toNat)
  else none

-- The part of an address that names the host.
def host (first last : Nat) : List UInt8 :=
  (addr.bytes.take last).drop first

def isWildcard (first last : Nat) : Bool :=
  (addr.host first last).all (· = 0)

-- A bound address matches a target if its port is the same, and its host is the same or any.
def addrMatches (bound target : SockAddr) : Bool :=
  if bound.family ≠ target.family ∨ bound.port ≠ target.port then false
  else if bound.family = AF_INET ∧ bound.bytes.length ≥ 8 ∧ target.bytes.length ≥ 8 then
    bound.isWildcard 4 8 || bound.host 4 8 = target.host 4 8
  else if bound.family = AF_INET6 ∧ bound.bytes.length ≥ 24 ∧ target.bytes.length ≥ 24 then
    bound.isWildcard 8 24 || bound.host 8 24 = target.host 8 24
  else bound.bytes = target.bytes

def defaultLen (domain : Nat) : Nat :=
  if domain = AF_INET then 16 else if domain = AF_INET6 then 28 else 2

-- `default_sockaddr`
def default (domain : Nat) : SockAddr where
  bytes := leBytes 2 domain ++ List.replicate (defaultLen domain - 2) 0
  hasFamily := by simp [leBytes]

end SockAddr

-- What a socket has besides its state for the transfer of data.
structure SocketName where
  domain : Nat
  bound : Bool
  localAddr : Option SockAddr
  peerAddr : Option SockAddr
  reuseAddr : Bool
  recvTimeoutUs : Option Nat

structure BoundSocket where
  domain : Nat
  sockType : Nat
  addr : SockAddr
  state : Nat

-- The sockets, their names and the bindings. A binding has a weak reference to its socket.
structure Net where
  sockets : Sockets
  names : Nat → SocketName
  bindings : List BoundSocket

-- What a system call that sends leaves, and whether it has sent `SIGPIPE`.
structure Sent where
  result : Except SysErrNo Nat
  net : Net
  sigpipe : Bool

-- What ends a sleep, and when. If it is not before the deadline, the sleep times out.
inductive Wakeup
  | woken (time : Nat)
  | interrupted (time : Nat)
  | never

inductive WaitOutcome
  | woken
  | timedOut
  | interrupted

namespace Wakeup

def beforeDeadline (deadline : Option Nat) (time : Nat) : Bool :=
  deadline.all fun deadline => time < deadline

-- A sleep that has no outcome does not end.
def outcome (deadline : Option Nat) : Wakeup → Option WaitOutcome
  | woken time       => some (if beforeDeadline deadline time then .woken else .timedOut)
  | interrupted time => some (if beforeDeadline deadline time then .interrupted else .timedOut)
  | never            => deadline.map fun _ => .timedOut

end Wakeup

-- What a round of a call that receives finds, and what ends its sleep if there is one.
structure Round where
  net : Net
  memory : UserMemory
  now : Nat
  wakeup : Wakeup

-- What a call that receives leaves, and the rounds that it has not needed.
structure Received where
  result : Except SysErrNo Nat
  net : Net
  memory : UserMemory
  rest : List Round

namespace Net

variable (net : Net)

def live : List BoundSocket :=
  net.bindings.filter fun entry => net.sockets.alive entry.state

def findBoundSocket (domain sockType : Nat) (addr : SockAddr) : Option Nat :=
  (net.live.find? fun entry =>
    entry.domain = domain && entry.sockType = sockType && entry.addr.addrMatches addr).map (·.state)

-- The address that a packet has.
def source (id : Nat) : SockAddr :=
  (net.names id).localAddr.getD (.default (net.names id).domain)

-- `sys_write` on a socket.
def write (memory : UserMemory) (id buf len : Nat) : Sent :=
  if len = 0 then ⟨.ok 0, net, false⟩
  else if buf = 0 then ⟨.error .EFAULT, net, false⟩
  else if len > MAX_FILE_OFFSET then ⟨.error .EINVAL, net, false⟩
  else
    match memory.copyFromUser buf len with
    | .error err => ⟨.error err, net, false⟩
    | .ok data   =>
      let (result, sockets, _) := net.sockets.write id data
      ⟨result, { net with sockets }, match result with | .error .EPIPE => true | _ => false⟩

-- The part of `sys_sendto` for sockets that are not for datagrams.
def sendPeer (id : Nat) (data : List UInt8) : Sent :=
  let socket := net.sockets.states id
  if socket.peerReadClosed then ⟨.error .EPIPE, net, true⟩
  else
    match socket.livePeer net.sockets with
    | none      => ⟨.error .EPIPE, net, true⟩
    | some peer =>
      let received := (net.sockets.states peer).send ⟨data, (net.source id).bytes⟩
      ⟨.ok data.length, { net with sockets := net.sockets.update peer received }, false⟩

-- And that for datagrams, which go to the address of the peer.
def sendDatagram (id : Nat) (data : List UInt8) : Sent :=
  match (net.names id).peerAddr with
  | none        => ⟨.error .EDESTADDRREQ, net, false⟩
  | some target =>
    match net.findBoundSocket (net.names id).domain SOCK_DGRAM target with
    | none      => ⟨.error .ECONNREFUSED, net, false⟩
    | some peer =>
      let received := net.sockets.states peer
      let dgramQueue := received.dgramQueue ++ [⟨data, (net.source id).bytes⟩]
      ⟨.ok data.length, { net with sockets := net.sockets.update peer { received with dgramQueue } }, false⟩

-- `sys_sendto` without flags and without an address.
def sendto (memory : UserMemory) (id buf len : Nat) : Sent :=
  let socket := net.sockets.states id
  if len ≠ 0 ∧ buf = 0 then ⟨.error .EFAULT, net, false⟩
  else if len = 0 then ⟨.ok 0, net, false⟩
  else if socket.shutdownWrite then ⟨.error .EPIPE, net, true⟩
  else if socket.isConnectionOriented ∧ ¬socket.connected then ⟨.error .EPIPE, net, true⟩
  else if socket.isDatagram ∧ len > UDP_MAX_PAYLOAD then ⟨.error .EMSGSIZE, net, false⟩
  else
    match memory.copyFromUser buf len with
    | .error err => ⟨.error err, net, false⟩
    | .ok data   => if socket.isDatagram then net.sendDatagram id data else net.sendPeer id data

def deadline (id now : Nat) : Option Nat :=
  (net.names id).recvTimeoutUs.map (Usize.saturatingAdd now)

-- A read or receive of a socket would not find anything.
def readWouldBlock (id : Nat) : Bool :=
  let socket := net.sockets.states id
  if socket.shutdownRead then false
  else if socket.isMessageOriented then socket.dgramQueue.isEmpty && !socket.receiveEof net.sockets
  else socket.connected && socket.rxBuf.isEmpty && !socket.receiveEof net.sockets

-- The body of the loop of `sys_recvfrom` without flags, if it does not have to wait. The bytes have not been copied.
def recv (id len : Nat) : Option (Except SysErrNo (List UInt8) × SocketState) :=
  let socket := net.sockets.states id
  if socket.shutdownRead then some (.ok [], socket)
  else if socket.isConnectionOriented ∧ ¬socket.connected then some (.error .ENOTCONN, socket)
  else if socket.isMessageOriented then
    match socket.dgramQueue with
    | packet :: dgramQueue => some (.ok (packet.data.take len), { socket with dgramQueue })
    | []                   => if socket.receiveEof net.sockets then some (.ok [], socket) else none
  else if ¬socket.rxBuf.isEmpty then
    some (.ok (socket.rxBuf.take len), { socket with rxBuf := socket.rxBuf.drop len })
  else if socket.receiveEof net.sockets then some (.ok [], socket)
  else none

end Net

namespace Round

variable (round : Round)

def fail (err : SysErrNo) (rest : List Round) : Received :=
  ⟨.error err, round.net, round.memory, rest⟩

-- What has been received is copied to the user. If that fails, it is lost.
def finish (id buf : Nat) (result : Except SysErrNo (List UInt8)) (socket : SocketState) (rest : List Round) :
    Received :=
  let net := { round.net with sockets := round.net.sockets.update id socket }
  match result with
  | .error err => ⟨.error err, net, round.memory, rest⟩
  | .ok bytes  =>
    match round.memory.copyToUser buf bytes with
    | .error err => ⟨.error err, net, round.memory, rest⟩
    | .ok memory => ⟨.ok bytes.length, net, memory, rest⟩

def afterSleep (again : Option Received) (rest : List Round) : Option WaitOutcome → Option Received
  | none              => none
  | some .woken       => again
  | some .timedOut    => some (round.fail .EAGAIN rest)
  | some .interrupted => some (round.fail .EINTR rest)

-- Waits for the socket, and then does `again`.
def wait (id : Nat) (deadline : Option Nat) (again : Option Received) (rest : List Round) : Option Received :=
  if (round.net.sockets.states id).nonblock then some (round.fail .EAGAIN rest)
  else if ¬round.net.readWouldBlock id then again
  else round.afterSleep again rest (round.wakeup.outcome deadline)

end Round

namespace Net

-- The loop of `sys_read` on a socket. Each wait has a deadline of its own. A call that has no more rounds still waits.
def readLoop (id buf len : Nat) : List Round → Option Received
  | []            => none
  | round :: rest =>
    match (round.net.sockets.states id).read round.net.sockets len with
    | (.error .EAGAIN, _, _) => round.wait id (round.net.deadline id round.now) (readLoop id buf len rest) rest
    | (result, socket, _)    => some (round.finish id buf result socket rest)

def read (id buf len : Nat) (round : Round) (rest : List Round) : Option Received :=
  if len = 0 then some ⟨.ok 0, round.net, round.memory, rest⟩
  else if buf = 0 then some (round.fail .EFAULT rest)
  else if len > MAX_FILE_OFFSET then some (round.fail .EINVAL rest)
  else readLoop id buf len (round :: rest)

-- The loop of `sys_recvfrom`.
def recvLoop (id buf len : Nat) (deadline : Option Nat) : List Round → Option Received
  | []            => none
  | round :: rest =>
    match round.net.recv id len with
    | some (result, socket) => some (round.finish id buf result socket rest)
    | none                  => round.wait id deadline (recvLoop id buf len deadline rest) rest

-- `sys_recvfrom` without flags and without an address.
def recvfrom (id buf len : Nat) (round : Round) (rest : List Round) : Option Received :=
  if len ≠ 0 ∧ buf = 0 then some (round.fail .EFAULT rest)
  else if len = 0 then some ⟨.ok 0, round.net, round.memory, rest⟩
  else recvLoop id buf len (round.net.deadline id round.now) (round :: rest)

variable (net : Net)

-- `write` and `sendto` do the same if the socket is shut down for writing. If it is not, the socket is connected and not
-- for datagrams. Its peer is gone or has closed its end, or it can receive and has a stream of bytes, where no address
-- is kept. A buffer that cannot be read makes both fail if the socket is not at fault.
def SendsAlike (memory : UserMemory) (id buf len : Nat) : Prop :=
  let socket := net.sockets.states id
  buf ≠ 0 → len ≤ MAX_FILE_OFFSET ∧
    match memory.copyFromUser buf len with
    | .error _ =>
      ¬socket.shutdownWrite ∧ (socket.isConnectionOriented → socket.connected) ∧
        (socket.isDatagram → len ≤ UDP_MAX_PAYLOAD)
    | .ok _ =>
      socket.shutdownWrite ∨
        (¬socket.isDatagram ∧ (socket.isConnectionOriented → socket.connected)) ∧
          (¬socket.peerReadClosed → ∀ peer, socket.livePeer net.sockets = some peer →
            ¬(net.sockets.states peer).shutdownRead ∧ ¬(net.sockets.states peer).isMessageOriented)

-- Every wait ends in the same way, if its deadline is counted from its own start or is that of the call.
def WaitsAlike (id len : Nat) (deadline : Option Nat) : List Round → Prop
  | []            => True
  | round :: rest =>
    round.net.recv id len = none → ¬(round.net.sockets.states id).nonblock →
      (round.net.readWouldBlock id →
        round.wakeup.outcome (round.net.deadline id round.now) = round.wakeup.outcome deadline) ∧
      (¬round.net.readWouldBlock id ∨ round.wakeup.outcome deadline = some .woken →
        WaitsAlike id len deadline rest)

-- `read` and `recvfrom` do the same if the length is one that `read` accepts and the waits are alike.
def ReceivesAlike (id buf len : Nat) (round : Round) (rest : List Round) : Prop :=
  buf ≠ 0 → len ≤ MAX_FILE_OFFSET ∧ WaitsAlike id len (round.net.deadline id round.now) (round :: rest)

end Net

end WllOs.Fs
