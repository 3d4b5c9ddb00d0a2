import WllOs.Fs.Descriptor
import WllOs.Task.Wait

namespace WllOs.Fs

def POLLIN : BitVec 16 := 0x0001

-- Neither call names it, a caller may.
def POLLPRI : BitVec 16 := 0x0002

def POLLOUT : BitVec 16 := 0x0004

def POLLERR : BitVec 16 := 0x0008

def POLLHUP : BitVec 16 := 0x0010

def POLLNVAL : BitVec 16 := 0x0020

def POLLRDNORM : BitVec 16 := 0x0040

def POLLWRNORM : BitVec 16 := 0x0100

def POLL_READ_EVENTS : BitVec 16 := POLLIN ||| POLLRDNORM

def POLL_WRITE_EVENTS : BitVec 16 := POLLOUT ||| POLLWRNORM

structure PollFd where
  fd : Int
  events : BitVec 16
  revents : BitVec 16

-- The descriptors of a task, and what they refer to, at one time.
structure PollState (δ : Type) where
  fdTable : FileDescriptorTable FileDescriptor
  objects : Objects δ

namespace PollState

variable {δ : Type} (state : PollState δ)

-- The body of the loop of `poll_once`.
def pollFd (pfd : PollFd) : PollFd :=
  if pfd.fd < 0 then { pfd with revents := 0 }
  else match state.fdTable.get pfd.fd.toNat with
    | none => { pfd with revents := POLLNVAL }
    | some file =>
      let read := if pfd.events &&& POLL_READ_EVENTS ≠ 0 && file.pollReadReady state.objects then
        pfd.events &&& POLL_READ_EVENTS else 0
      let write := if pfd.events &&& POLL_WRITE_EVENTS ≠ 0 && file.pollWriteReady state.objects then
        pfd.events &&& POLL_WRITE_EVENTS else 0
      let error := if file.pollError state.objects then POLLERR else 0
      let hup := if file.pollHup state.objects then POLLHUP else 0
      { pfd with revents := read ||| write ||| error ||| hup }

def pollOnce (fds : List PollFd) : Except SysErrNo (Nat × List PollFd) :=
  if fds.length > MAX_FD_NUM then .error .EINVAL
  else
    let polled := fds.map state.pollFd
    .ok (polled.countP (·.revents ≠ 0), polled)

end PollState

def fdsetContains (set : List (BitVec 64)) (fd : Nat) : Bool :=
  match set[fd / 64]? with
  | some value => value &&& (1#64 <<< (fd % 64)) ≠ 0
  | none       => false

def fdsetInsert (set : List (BitVec 64)) (fd : Nat) : List (BitVec 64) :=
  set.modify (fd / 64) (· ||| 1#64 <<< (fd % 64))

-- A set of descriptors in the memory of a task: its words, and those that the task can read and write.
structure UserFdSet where
  words : Nat → BitVec 64
  readable : Nat → Bool
  writable : Nat → Bool

def fdsetWords (nfds : Nat) : Nat :=
  (nfds + 63) / 64

def loadFdset (set : Option UserFdSet) (nfds : Nat) : Except SysErrNo (List (BitVec 64)) :=
  match set with
  | none     => .ok (List.replicate (fdsetWords nfds) 0)
  | some set => (List.range (fdsetWords nfds)).mapM fun i =>
    if set.readable i then .ok (set.words i) else .error .EFAULT

-- The words are stored from the `i`th on, up to the first that cannot be written.
def storeWords (set : UserFdSet) (i : Nat) : List (BitVec 64) → Except SysErrNo Unit × UserFdSet
  | []            => (.ok (), set)
  | word :: words =>
    if set.writable i then storeWords { set with words := Function.update set.words i word } (i + 1) words
    else (.error .EFAULT, set)

def storeFdset (set : Option UserFdSet) (words : List (BitVec 64)) : Except SysErrNo Unit × Option UserFdSet :=
  match set with
  | none     => (.ok (), none)
  | some set =>
    let (result, set) := storeWords set 0 words
    (result, some set)

structure PselectPollResult where
  ready : Nat
  readOut : List (BitVec 64)
  writeOut : List (BitVec 64)
  exceptOut : List (BitVec 64)

namespace PollState

variable {δ : Type} (state : PollState δ)

-- The body of the loop of `pselect_poll`.
def pselectFd (readIn writeIn exceptIn : List (BitVec 64)) (result : PselectPollResult) (fdno : Nat) :
    Except SysErrNo PselectPollResult :=
  let wantRead := fdsetContains readIn fdno
  let wantWrite := fdsetContains writeIn fdno
  let wantExcept := fdsetContains exceptIn fdno
  if !wantRead && !wantWrite && !wantExcept then .ok result
  else match state.fdTable.get fdno with
    | none      => .error .EBADF
    | some file =>
      let readReady := wantRead && file.pollReadReady state.objects
      let writeReady := wantWrite && file.pollWriteReady state.objects
      .ok {
        result with
        readOut := if readReady then fdsetInsert result.readOut fdno else result.readOut
        writeOut := if writeReady then fdsetInsert result.writeOut fdno else result.writeOut
        ready := if readReady || writeReady then result.ready + 1 else result.ready
      }

def pselectPoll (nfds : Nat) (readIn writeIn exceptIn : List (BitVec 64)) : Except SysErrNo PselectPollResult :=
  (List.range nfds).foldlM (state.pselectFd readIn writeIn exceptIn)
    ⟨0, List.replicate readIn.length 0, List.replicate writeIn.length 0, List.replicate exceptIn.length 0⟩

end PollState

inductive SelectSet
  | read
  | write
  | except
  deriving DecidableEq, Repr

-- The three sets of a call. They are different objects.
structure UserFdSets where
  readfds : Option UserFdSet
  writefds : Option UserFdSet
  exceptfds : Option UserFdSet

namespace UserFdSets

-- The sets are stored one after the other, up to an error.
def store (sets : UserFdSets) (result : PselectPollResult) : Except SysErrNo Unit × UserFdSets :=
  match storeFdset sets.readfds result.readOut with
  | (.error err, readfds) => (.error err, { sets with readfds })
  | (.ok (), readfds)     =>
    match storeFdset sets.writefds result.writeOut with
    | (.error err, writefds) => (.error err, { sets with readfds, writefds })
    | (.ok (), writefds)     =>
      let (stored, exceptfds) := storeFdset sets.exceptfds result.exceptOut
      (stored, ⟨readfds, writefds, exceptfds⟩)

def get (sets : UserFdSets) : SelectSet → Option UserFdSet
  | .read   => sets.readfds
  | .write  => sets.writefds
  | .except => sets.exceptfds

-- `FD_ISSET`
def isSet (sets : UserFdSets) (which : SelectSet) (fd : Nat) : Bool :=
  (sets.get which).any fun set => (set.words (fd / 64)).getLsbD (fd % 64)

def bitCount (sets : UserFdSets) (nfds : Nat) (which : SelectSet) : Nat :=
  (List.range nfds).countP (sets.isSet which)

end UserFdSets

-- A null pointer, one that cannot be read, or the time that it points to.
inductive TimeoutArg
  | null
  | unmapped
  | timespec (tvSec tvNsec : Int)

def durationUsFromTimespec (tvSec tvNsec : Int) : Except SysErrNo Nat :=
  if tvSec < 0 ∨ tvNsec < 0 ∨ tvNsec ≥ 1000000000 then .error .EINVAL
  else .ok (Usize.saturatingAdd (Usize.saturatingMul tvSec.toNat 1000000) ((tvNsec.toNat + 999) / 1000))

def deadlineFromTimespec (now : Nat) : TimeoutArg → Except SysErrNo (Option Nat)
  | .null     => .ok none
  | .unmapped => .error .EFAULT
  | .timespec tvSec tvNsec => (durationUsFromTimespec tvSec tvNsec).map fun us => some (Usize.saturatingAdd now us)

-- A round of the loop: the state that is polled, the time after that, and how the sleep ends if there is one. The
-- closure of the sleep polls as well, and its error is one of the sleep.
structure PollRound (δ : Type) where
  state : PollState δ
  now : Nat
  sleep : Except SysErrNo WllOs.WaitOutcome

structure PselectCall where
  nfds : Nat
  timeout : TimeoutArg
  now : Nat

-- What a call leaves, and the state that it polled last.
structure Pselected (δ : Type) where
  result : Except SysErrNo Nat
  sets : UserFdSets
  last : PollState δ

namespace PollRound

variable {δ : Type} (round : PollRound δ)

def finish (sets : UserFdSets) (result : PselectPollResult) : Pselected δ :=
  match sets.store result with
  | (.error err, sets) => ⟨.error err, sets, round.state⟩
  | (.ok (), sets)     => ⟨.ok result.ready, sets, round.state⟩

end PollRound

section

variable {δ : Type} (nfds : Nat) (sets : UserFdSets) (readIn writeIn exceptIn : List (BitVec 64))

-- The poll after a sleep that has timed out. A call that has no more rounds still runs.
def pselectTimedOut : List (PollRound δ) → Option (Pselected δ)
  | []         => none
  | round :: _ =>
    match round.state.pselectPoll nfds readIn writeIn exceptIn with
    | .error err => some ⟨.error err, sets, round.state⟩
    | .ok result => some (round.finish sets result)

def pselectLoop (deadline : Option Nat) : List (PollRound δ) → Option (Pselected δ)
  | []            => none
  | round :: rest =>
    match round.state.pselectPoll nfds readIn writeIn exceptIn with
    | .error err => some ⟨.error err, sets, round.state⟩
    | .ok result =>
      if result.ready ≠ 0 then some (round.finish sets result)
      else match deadline with
        | some deadline =>
          if round.now ≥ deadline then some (round.finish sets result)
          else match round.sleep with
            | .error err    => some ⟨.error err, sets, round.state⟩
            | .ok .timedOut => pselectTimedOut nfds sets readIn writeIn exceptIn rest
            | .ok _         => pselectLoop (some deadline) rest
        | none =>
          match round.sleep with
          | .error err => some ⟨.error err, sets, round.state⟩
          | .ok _      => pselectLoop none rest

end

namespace PselectCall

variable {δ : Type} (call : PselectCall) (sets : UserFdSets) (round : PollRound δ) (rest : List (PollRound δ))

def sysPselect6 : Option (Pselected δ) :=
  let fail err := some ⟨.error err, sets, round.state⟩
  match deadlineFromTimespec call.now call.timeout with
  | .error err   => fail err
  | .ok deadline =>
    if call.nfds > MAX_FD_NUM then fail .EINVAL
    else if call.nfds = 0 then
      match deadline, round.sleep with
      | some _, .error err => fail err
      | _, _               => some ⟨.ok 0, sets, round.state⟩
    else
      match loadFdset sets.readfds call.nfds, loadFdset sets.writefds call.nfds,
        loadFdset sets.exceptfds call.nfds with
      | .error err, _, _ => fail err
      | _, .error err, _ => fail err
      | _, _, .error err => fail err
      | .ok readIn, .ok writeIn, .ok exceptIn =>
        pselectLoop call.nfds sets readIn writeIn exceptIn deadline (round :: rest)

end PselectCall

-- What `ppoll` on one descriptor is asked for each of the sets.
def SelectSet.events : SelectSet → BitVec 16
  | .read   => POLLIN
  | .write  => POLLOUT
  | .except => POLLPRI

-- `ppoll` on a descriptor reports the condition of a set.
def PollState.Reports {δ : Type} (state : PollState δ) (which : SelectSet) (fd : Nat) : Prop :=
  ∃ ready pfd, state.pollOnce [⟨fd, which.events, 0⟩] = .ok (ready, [pfd]) ∧ pfd.revents &&& which.events ≠ 0

-- What a call promises about the sets that it is given and those that it leaves.
structure PselectCall.Agrees {δ : Type} (call : PselectCall) (sets : UserFdSets) (selected : Pselected δ) : Prop where
  counted : ∀ n, selected.result = .ok n → n = selected.sets.bitCount call.nfds .read +
    selected.sets.bitCount call.nfds .write + selected.sets.bitCount call.nfds .except
  subset : ∀ n which fd, selected.result = .ok n → fd < call.nfds → selected.sets.isSet which fd → sets.isSet which fd
  reported : ∀ n which fd, selected.result = .ok n → fd < call.nfds →
    (selected.sets.isSet which fd ↔ sets.isSet which fd ∧ selected.last.Reports which fd)
  above : ∀ n which fd, selected.result = .ok n → call.nfds ≤ fd →
    selected.sets.isSet which fd = sets.isSet which fd
  waits : ∀ n, selected.result = .ok n → call.timeout = .null →
    ∃ which, ∃ fd < call.nfds, sets.isSet which fd ∧ selected.last.Reports which fd
  failed : ∀ err ∈ [SysErrNo.EBADF, .EINVAL, .EINTR], selected.result = .error err → selected.sets = sets

-- Without a timeout there are descriptors to wait for, no descriptor that is in two of the sets is ready for both, and
-- the last words of the sets have no bits above the descriptors.
structure PselectCall.Plain {δ : Type} (call : PselectCall) (sets : UserFdSets) (state : PollState δ) : Prop where
  waits : call.timeout = .null → call.nfds ≠ 0
  once : ∀ fd < call.nfds, sets.isSet .read fd → sets.isSet .write fd →
    ¬(state.Reports .read fd ∧ state.Reports .write fd)
  above : ∀ which fd, call.nfds ≤ fd → fd < 64 * fdsetWords call.nfds → sets.isSet which fd = false

end WllOs.Fs
