import Mathlib

namespace WllOs.Fs.SocketLocks

-- What a CPU does with the locks of sockets and the references to them, one atomic step each. Temporary references are
-- made by `upgrade` and `clone`, and `drop` is also that of a descriptor that has been taken out of its table.
inductive Instr
  | lock (socket : Nat)
  | unlock (socket : Nat)
  | upgrade (socket : Nat) (found missing : List Instr)
  | upgradePeer (socket : Nat) (found : Nat → List Instr) (missing : List Instr)
  | drop (socket : Nat)
  | new (made : Nat → List Instr)
  | setPeer (socket peer : Nat)
  | push (listener socket : Nat)
  | pop (listener : Nat) (found : Nat → List Instr) (missing : List Instr)
  | install (socket : Nat)

-- The strong references to a socket are counted. Those of descriptors are `descriptors`, and the other ones are held by
-- CPUs and by the queues of listeners. The peer of a socket is a weak reference.
structure Machine where
  strong : Nat → Nat
  descriptors : Nat → Nat
  peer : Nat → Option Nat
  pending : Nat → List Nat
  owner : Nat → Option Nat
  cpus : Nat → List Instr

namespace Machine

def init : Machine where
  strong _ := 0
  descriptors _ := 0
  peer _ := none
  pending _ := []
  owner _ := none
  cpus _ := []

variable (machine : Machine)

def run (cpu : Nat) (program : List Instr) : Machine :=
  { machine with cpus := Function.update machine.cpus cpu program }

def addStrong (socket : Nat) : Machine :=
  { machine with strong := Function.update machine.strong socket (machine.strong socket + 1) }

def setOwner (socket : Nat) (owner : Option Nat) : Machine :=
  { machine with owner := Function.update machine.owner socket owner }

-- `Drop for SocketState`, and then the references of the queue.
def destructor (socket : Nat) : List Instr :=
  ((machine.peer socket).map fun peer => Instr.upgrade peer [.lock peer, .unlock peer, .drop peer] []).toList
    ++ (machine.pending socket).map .drop

def dropStrong (socket : Nat) : Machine :=
  { machine with strong := Function.update machine.strong socket (machine.strong socket - 1) }

-- Nothing refers to the memory that `Arc::new` gets.
structure Unused (socket : Nat) : Prop where
  strong : machine.strong socket = 0
  owner : machine.owner socket = none
  peer : ∀ other, machine.peer other ≠ some socket

-- The next step of a CPU, if it need not wait for a lock. `address` is what `Arc::new` would get.
def advance (cpu address : Nat) : Option Machine :=
  match machine.cpus cpu with
  | [] => none
  | .lock socket :: rest =>
    if (machine.owner socket).isSome then none
    else some ((machine.setOwner socket (some cpu)).run cpu rest)
  | .unlock socket :: rest => some ((machine.setOwner socket none).run cpu rest)
  | .upgrade socket found missing :: rest =>
    if machine.strong socket = 0 then some (machine.run cpu (missing ++ rest))
    else some ((machine.addStrong socket).run cpu (found ++ rest))
  | .upgradePeer socket found missing :: rest =>
    match (machine.peer socket).filter fun peer => machine.strong peer ≠ 0 with
    | none      => some (machine.run cpu (missing ++ rest))
    | some peer => some ((machine.addStrong peer).run cpu (found peer ++ rest))
  | .drop socket :: rest =>
    if machine.strong socket = 1 then
      some ((machine.dropStrong socket).run cpu (machine.destructor socket ++ rest))
    else some ((machine.dropStrong socket).run cpu rest)
  | .new made :: rest => some ((machine.addStrong address).run cpu (made address ++ rest))
  | .setPeer socket peer :: rest =>
    some ({ machine with peer := Function.update machine.peer socket (some peer) }.run cpu rest)
  | .push listener socket :: rest =>
    let pending := Function.update machine.pending listener (machine.pending listener ++ [socket])
    some (({ machine with pending }.addStrong socket).run cpu rest)
  | .pop listener found missing :: rest =>
    match machine.pending listener with
    | []                => some (machine.run cpu (missing ++ rest))
    | socket :: pending =>
      some ({ machine with pending := Function.update machine.pending listener pending }.run cpu
        (found socket ++ rest))
  | .install socket :: rest =>
    let descriptors := Function.update machine.descriptors socket (machine.descriptors socket + 1)
    some ({ machine with descriptors }.run cpu rest)

-- A descriptor is taken out of its table. While the table is locked, only this CPU has it.
def takeDescriptor (socket : Nat) : Option Machine :=
  if machine.descriptors socket = 0 then none
  else
    some { machine with
      descriptors := Function.update machine.descriptors socket (machine.descriptors socket - 1) }

-- `socket_state_for_fd` clones the reference of a descriptor.
def cloneDescriptor (socket : Nat) : Option Machine :=
  if machine.descriptors socket = 0 then none else some (machine.addStrong socket)

end Machine

-- `upgrade().is_some()` on the entries of one of the lists of all sockets.
def scan (sockets : List Nat) : List Instr :=
  sockets.map fun socket => .upgrade socket [.drop socket] []

-- `poll_hup`, `poll_read_ready`, `poll_write_ready`, `receive_eof` and the functions with it ask whether the peer is
-- alive, if the flags of the socket let them get that far.
def ask (socket : Nat) (asks : Bool) : List Instr :=
  .lock socket
    :: (if asks then [.upgradePeer socket (fun peer => [.drop peer]) []] else [])
    ++ [.unlock socket]

-- `write`, `sendto` to a connected peer and `shutdown` keep the reference to the peer and lock it after the socket has
-- been unlocked.
def reach (socket : Nat) (asks : Bool) : List Instr :=
  .lock socket
    :: (if asks then [.upgradePeer socket (fun peer => [.unlock socket, .lock peer, .unlock peer, .drop peer])
          [.unlock socket]]
        else [.unlock socket])

-- The part of `sys_connect` with the listener.
def request (client listener : Nat) (listening : Bool) (states : List Nat) : List Instr :=
  .lock listener
    :: (if listening then
          [.new fun accepted => scan states ++
            [.lock accepted, .setPeer accepted client, .unlock accepted, .push listener accepted, .unlock listener,
              .lock client, .setPeer client accepted, .unlock client, .drop accepted]]
        else [.unlock listener])
    ++ [.drop listener]

-- `proc_net_table` first makes references to all live sockets.
def procNetTable : List Nat → List Nat → List Instr
  | [], live                => live.flatMap fun socket => [.lock socket, .unlock socket, .drop socket]
  | socket :: sockets, live =>
    [.upgrade socket (procNetTable sockets (live ++ [socket])) (procNetTable sockets live)]

-- The system calls and what becomes of them: the sockets that a list has, the flags of a socket and whether there is
-- room in the table.
inductive Call
  | socket (states : List Nat)
  | socketpair (states : List Nat)
  | dup (state : Nat)
  | close (state : Nat)
  | poll (state : Nat) (asks : Bool)
  | write (state : Nat) (asks : Bool)
  | sendto (state : Nat) (asks : Bool)
  | sendtoAddress (state : Nat) (bindings : List Nat) (target : Nat)
  | recvfrom (state : Nat) (asks : List Bool)
  | shutdown (state : Nat) (asks : Bool)
  | bind (state : Nat) (bindings : List Nat)
  | connectDatagram (state : Nat)
  | connect (state listener : Nat) (listening : Bool) (bindings states : List Nat)
  | accept (listener waits : Nat) (named room : Bool)
  | procNet (states : List Nat)

namespace Call

-- What `accept4` does with the socket that it has got.
def accepted (listener : Nat) (named room : Bool) (state : Nat) : List Instr :=
  .unlock listener
    :: (if named then [.lock state, .unlock state] else [])
    ++ [if room then .install state else .drop state]

def program : Call → List Instr
  | socket states => [.new fun state => scan states ++ [.install state]]
  | socketpair states =>
    [.new fun left => [.new fun right => scan states ++
      [.lock left, .setPeer left right, .unlock left, .lock right, .setPeer right left, .unlock right, .install left,
        .install right]]]
  | dup state => [.install state]
  | close state => [.drop state]
  | poll state asks => ask state asks ++ [.install state]
  | write state asks => reach state asks ++ [.install state]
  | sendto state asks => reach state asks ++ [.drop state]
  | sendtoAddress state bindings target =>
    [.lock state, .unlock state] ++ scan bindings
      ++ [.upgrade target [.lock target, .unlock target, .drop target] [], .drop state]
  | recvfrom state asks => asks.flatMap (ask state) ++ [.drop state]
  | shutdown state asks => reach state asks ++ [.drop state]
  | bind state bindings => .lock state :: scan bindings ++ [.unlock state, .drop state]
  | connectDatagram state => [.lock state, .unlock state, .drop state]
  | connect state listener listening bindings states =>
    [.lock state, .unlock state] ++ scan bindings
      ++ [.upgrade listener (request state listener listening states) [], .drop state]
  | accept listener waits named room =>
    (List.range waits).flatMap (fun _ => [.lock listener, .unlock listener])
      ++ [.lock listener, .pop listener (accepted listener named room) [.unlock listener], .drop listener]
  | procNet states => procNetTable states []

-- A call begins with the descriptor that it is about.
def begin (machine : Machine) : Call → Option Machine
  | socket .. | socketpair .. | procNet .. => some machine
  | close state | poll state .. | write state .. => machine.takeDescriptor state
  | dup state | sendto state .. | sendtoAddress state .. | recvfrom state .. | shutdown state .. | bind state ..
  | connectDatagram state | connect state .. | accept state .. => machine.cloneDescriptor state

end Call

namespace Machine

variable (machine : Machine)

-- A CPU begins a system call, or goes on with its own.
inductive Step : Machine → Prop
  | begin {cpu : Nat} {machine' : Machine} (call : Call) : machine.cpus cpu = [] → call.begin machine = some machine' →
      Step (machine'.run cpu call.program)
  | advance {cpu address : Nat} {machine' : Machine} : machine.Unused address →
      machine.advance cpu address = some machine' → Step machine'

inductive Reachable : Machine → Prop
  | init : Reachable init
  | step {machine machine' : Machine} : Reachable machine → Step machine machine' → Reachable machine'

-- A CPU waits for a lock that it has itself.
def SelfDeadlock : Prop :=
  ∃ cpu socket rest, machine.cpus cpu = .lock socket :: rest ∧ machine.owner socket = some cpu

-- The CPU does not drop the last reference to a socket while it has the lock of the peer of that socket.
def Spares (cpu : Nat) : Prop :=
  ∀ socket rest, machine.cpus cpu = .drop socket :: rest → machine.strong socket = 1 →
    ∀ peer, machine.peer socket = some peer → machine.owner peer ≠ some cpu

-- The runs in which no CPU does.
inductive Sparing : Machine → Prop
  | init : Sparing init
  | begin {machine machine' : Machine} {cpu : Nat} (call : Call) : Sparing machine → machine.cpus cpu = [] →
      call.begin machine = some machine' → Sparing (machine'.run cpu call.program)
  | advance {machine machine' : Machine} {cpu address : Nat} : Sparing machine → machine.Spares cpu →
      machine.Unused address → machine.advance cpu address = some machine' → Sparing machine'

end Machine

end WllOs.Fs.SocketLocks
