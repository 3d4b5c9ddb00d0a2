import WllOs.Fs.UserIo

namespace WllOs.Fs

def VECTORED_STACK_BUF : Nat := 16 * 1024

-- The writes of at most `PIPE_BUF` bytes are the small ones.
def PIPE_BUF : Nat := 4096

-- A `write`, or a `writev` with the bytes of each vector. The memory of the user is readable.
inductive PipeCall
  | write (data : List UInt8)
  | writev (iovecs : List (List UInt8))

-- `load_user_iovecs_batch`, over and over: a batch ends with the vector that makes it as long as a chunk.
def iovBatches (batch : List UInt8) : List (List UInt8) → List (List UInt8)
  | []              => if batch.isEmpty then [] else [batch]
  | iovec :: iovecs =>
    if (batch ++ iovec).length ≥ VECTORED_IO_CHUNK then (batch ++ iovec) :: iovBatches [] iovecs
    else iovBatches (batch ++ iovec) iovecs

namespace PipeCall

def data : PipeCall → List UInt8
  | write data    => data
  | writev iovecs => iovecs.flatten

def batches : PipeCall → List (List UInt8)
  | write data    => if data.isEmpty then [] else [data]
  | writev iovecs => iovBatches [] iovecs

def vectored : PipeCall → Bool
  | write _  => false
  | writev _ => true

-- How many of the bytes that are left of a batch are copied to a buffer of the kernel.
def sliceLen (call : PipeCall) (remaining : Nat) : Nat :=
  if !call.vectored || remaining ≤ VECTORED_STACK_BUF then remaining else min remaining VECTORED_IO_CHUNK

end PipeCall

-- Which call a byte is from: all calls are numbered.
structure PipeOrigin where
  serial : Nat
  data : List UInt8
  deriving DecidableEq

namespace PipeOrigin

def Small (origin : PipeOrigin) : Prop :=
  origin.data.length ≤ PIPE_BUF

-- The bytes of a call that a pipe has accepted, in order.
def accepted (origin : PipeOrigin) (stream : List (PipeOrigin × UInt8)) : List UInt8 :=
  (stream.filter (·.1 = origin)).map (·.2)

-- They are next to each other.
def Contiguous (origin : PipeOrigin) (stream : List (PipeOrigin × UInt8)) : Prop :=
  ∃ before own after, stream = before ++ own ++ after ∧ (∀ byte ∈ own, byte.1 = origin) ∧
    ∀ byte ∈ before ++ after, byte.1 ≠ origin

end PipeOrigin

-- A write on its way: the bytes of `slice` are offered to the pipe next, then those of `rest`, which are of the same
-- batch, and those of the other batches. `total` bytes of the batch have been accepted, and `done` bytes of the batches
-- before.
structure PipeWriter where
  origin : PipeOrigin
  call : PipeCall
  nonblock : Bool
  slice : List UInt8
  rest : List UInt8
  batches : List (List UInt8)
  total : Nat
  done : Nat

namespace PipeWriter

variable (w : PipeWriter)

-- The next slice, if there is one.
def load : Option PipeWriter :=
  match w.rest, w.batches with
  | [], []               => none
  | [], batch :: batches => some { w with
      slice := batch.take (w.call.sliceLen batch.length)
      rest := batch.drop (w.call.sliceLen batch.length)
      batches
      total := 0
      done := w.done + w.total }
  | rest, _              => some { w with
      slice := rest.take (w.call.sliceLen rest.length)
      rest := rest.drop (w.call.sliceLen rest.length) }

-- A call that ends without an error, or with one, returns how much has been accepted, if anything has.
def result : Option SysErrNo → Except SysErrNo Nat
  | none     => .ok (w.done + w.total)
  | some err => if w.done + w.total ≠ 0 then .ok (w.done + w.total) else .error err

-- What is promised of the call: it blocks, or it is small.
def Promised : Prop :=
  ¬w.nonblock ∨ w.origin.Small

end PipeWriter

def PipeCall.start (call : PipeCall) (serial : Nat) (nonblock : Bool) : PipeWriter :=
  ⟨⟨serial, call.data⟩, call, nonblock, [], [], call.batches, 0, 0⟩

-- Where a task is in a write to a pipe.
inductive PipePc
  | idle
  | attempt (w : PipeWriter)
  -- `wait_write_after_eagain`
  | wait (w : PipeWriter)
  | asleep (w : PipeWriter)
  | returned (w : PipeWriter) (err : Option SysErrNo)

namespace PipePc

def writer : PipePc → Option PipeWriter
  | idle                                         => none
  | attempt w | wait w | asleep w | returned w _ => some w

-- Goes on to the next slice of a write, or returns.
def next (w : PipeWriter) : PipePc :=
  match w.load with
  | some w => attempt w
  | none   => returned w none

-- `n` bytes of the slice have been accepted. A `write` goes on with the ones that are left of it, a `writev` ends.
def accepted (w : PipeWriter) (n : Nat) : PipePc :=
  let w' := { w with slice := w.slice.drop n, total := w.total + n }
  match w.call with
  | .write _  => if w'.slice.isEmpty then next w' else if n = 0 then returned w' none else attempt w'
  | .writev _ => if n < w.slice.length then returned w' none else next w'

end PipePc

-- A pipe and the tasks that write to it. `stream` is all bytes that the pipe has accepted, and is not read by the kernel.
structure PipeSystem (τ : Type) where
  pipe : PipeState
  stream : List (PipeOrigin × UInt8)
  serial : Nat
  pc : τ → PipePc

inductive PipeAct
  | start (call : PipeCall) (nonblock : Bool)
  | run
  -- A task that sleeps is woken, or its call has been parked and is executed again from its start on.
  | wake
  | restart
  -- A signal ends the call of a task that sleeps.
  | interrupt
  -- What the readers do.
  | read (len : Nat)
  | dupReader
  | closeReader

namespace PipeSystem

variable {τ : Type} [DecidableEq τ]

def initial : PipeSystem τ :=
  ⟨.new, [], 0, fun _ => .idle⟩

def goto (s : PipeSystem τ) (t : τ) (pc : PipePc) : PipeSystem τ :=
  { s with pc := Function.update s.pc t pc }

def advance (s : PipeSystem τ) (t : τ) : PipePc → Option (PipeSystem τ)
  | .attempt w =>
    match s.pipe.write w.slice with
    | (.ok n, pipe, _) =>
      some <| { s with pipe, stream := s.stream ++ (w.slice.take n).map (w.origin, ·) }.goto t (.accepted w n)
    | (.error .EAGAIN, _, _) => some <| s.goto t (if w.total ≠ 0 then .returned w none else .wait w)
    | (.error err, _, _)     => some <| s.goto t (.returned w (some err))
  | .wait w =>
    if w.nonblock then some <| s.goto t (.returned w (some .EAGAIN))
    else if s.pipe.readers ≠ 0 ∧ PIPE_CAPACITY ≤ s.pipe.buf.length then some <| s.goto t (.asleep w)
    else some <| s.goto t (.attempt w)
  | _ => none

def step (s : PipeSystem τ) (t : τ) : PipeAct → Option (PipeSystem τ)
  | .start call nonblock =>
    match s.pc t with
    | .idle | .returned _ _ => some ({ s with serial := s.serial + 1 }.goto t (.next (call.start s.serial nonblock)))
    | _                     => none
  | .run => s.advance t (s.pc t)
  | .wake =>
    match s.pc t with
    | .asleep w => some (s.goto t (.attempt w))
    | _         => none
  | .restart =>
    match s.pc t with
    | .asleep w => some (s.goto t (.next (w.call.start w.origin.serial w.nonblock)))
    | _         => none
  | .interrupt =>
    match s.pc t with
    | .asleep w => some (s.goto t (.returned w (some .EINTR)))
    | _         => none
  | .read len    => some { s with pipe := (s.pipe.read len).snd.fst }
  | .dupReader   => if s.pipe.readers = 0 then none
    else some { s with pipe := { s.pipe with readers := s.pipe.readers + 1 } }
  | .closeReader => some { s with pipe := { s.pipe with readers := s.pipe.readers - 1 } }

-- The states that steps which satisfy `p` reach.
inductive Reachable (p : PipeSystem τ → τ → PipeAct → Prop) : PipeSystem τ → Prop
  | initial : Reachable p initial
  | step {s s' : PipeSystem τ} {t : τ} {act : PipeAct} : Reachable p s → p s t act → s.step t act = some s' →
      Reachable p s'

-- A call that is promised something finds room for what it goes on with. Once a part of it has been accepted, a `write`
-- finds room for a byte. A `writev` finds room for all of its slice, or for nothing when no byte of its batch has been
-- accepted. No other task writes while a small call is accepted in part, and the last reader is not closed while one
-- that does not block is. A call is not restarted after a batch of it has been accepted.
structure Meets (s : PipeSystem τ) (t : τ) (act : PipeAct) : Prop where
  room : ∀ w, act = .run → s.pc t = .attempt w → s.pipe.readers ≠ 0 → w.Promised → w.total ≠ 0 →
    s.pipe.buf.length < PIPE_CAPACITY
  slice : ∀ w, act = .run → s.pc t = .attempt w → s.pipe.readers ≠ 0 → w.Promised → w.call.vectored →
    s.pipe.buf.length < PIPE_CAPACITY → w.slice.length ≤ PIPE_CAPACITY - s.pipe.buf.length
  alone : ∀ w t' w', act = .run → s.pc t = .attempt w → s.pipe.readers ≠ 0 → s.pipe.buf.length < PIPE_CAPACITY →
    t' ≠ t → s.pc t' = .attempt w' → w'.origin.Small → w'.total = 0
  readers : ∀ w, act = .run → s.pc t = .attempt w → s.pipe.readers = 0 → w.nonblock → w.origin.Small → w.total = 0
  fresh : ∀ w, act = .restart → s.pc t = .asleep w → w.done = 0

structure Correct (s : PipeSystem τ) : Prop where
  -- What is in the pipe has been accepted, and not been read since.
  stream : ∃ read, s.stream.map (·.2) = read ++ s.pipe.buf
  accepted : ∀ origin : PipeOrigin, origin.accepted s.stream <+: origin.data
  contiguous : ∀ origin : PipeOrigin, origin.Small → origin.Contiguous s.stream
  whole : ∀ t w err, s.pc t = .returned w err → w.nonblock → w.origin.Small →
    w.origin.accepted s.stream = [] ∨ w.origin.accepted s.stream = w.origin.data
  complete : ∀ t w err, s.pc t = .returned w err → ¬w.nonblock → w.result err = .ok w.origin.data.length ∨
    ∃ error, err = some error ∧ (error = .EINTR ∨ error = .EPIPE) ∧ w.result err =
      if w.origin.accepted s.stream = [] then .error error else .ok (w.origin.accepted s.stream).length

end PipeSystem

end WllOs.Fs
