import WllOs.Config
import WllOs.Library.Concurrent

namespace WllOs

structure AsidAllocator where
  maxAsid : Nat
  nextAsid : Nat
  reusable : List Nat
  retired : List Nat
  deriving DecidableEq, Repr

namespace AsidAllocator

def new (maxAsid : Nat) : AsidAllocator where
  maxAsid  := maxAsid
  nextAsid := 1
  reusable := []
  retired  := []

-- The vector of reusable identifiers is a stack whose top is the head of the list.
def allocateWithoutRecycling (self : AsidAllocator) : Option (Nat × AsidAllocator) :=
  match self.reusable with
  | asid :: reusable => some (asid, { self with reusable })
  | [] =>
    if self.nextAsid ≤ self.maxAsid then
      some (self.nextAsid, { self with nextAsid := self.nextAsid + 1 })
    else
      none

end AsidAllocator

-- What happens to an identifier, and the flushes of the translations of a processor.
inductive AsidEvent
  | issued (asid : Nat)
  | retired (asid : Nat)
  | flushed (cpu : Nat)
  deriving DecidableEq, Repr

-- The address spaces that exist are given by their identifiers. The history starts with the last event.
structure AsidState where
  allocator : AsidAllocator
  live : List Nat
  history : List AsidEvent
  deriving DecidableEq, Repr

namespace AsidState

def record (state : AsidState) (event : AsidEvent) : AsidState :=
  { state with history := event :: state.history }

-- Hands out an identifier.
def issue (state : AsidState) (asid : Nat) (allocator : AsidAllocator) : AsidState :=
  { state with allocator, history := .issued asid :: state.history }

def boot (maxAsid : Nat) : AsidState where
  allocator := .new maxAsid
  live      := []
  history   := []

-- No two address spaces hold the same identifier, other than the one of the kernel.
def UniqueLive (state : AsidState) : Prop :=
  (state.live.filter (· ≠ 0)).Nodup

-- Whenever an identifier was issued, each of the processors had been flushed since it was retired.
def FlushedBeforeReissue (cpus : List Nat) (state : AsidState) : Prop :=
  ∀ asid later between earlier,
    state.history = later ++ .issued asid :: (between ++ .retired asid :: earlier) →
    ∀ cpu ∈ cpus, .flushed cpu ∈ between

end AsidState

-- Each section that holds the lock of the allocator is atomic. An address space is created with the
-- identifier it was given, and it is destroyed by the thread that drops it.
inductive AsidInstr : Type → Type
  | take : AsidInstr (Nat ⊕ List Nat)
  | flush (cpu : Nat) : AsidInstr Unit
  | recycle (retired : List Nat) : AsidInstr Nat
  | create (asid : Nat) : AsidInstr Unit
  | retire (asid : Nat) : AsidInstr Unit

namespace AsidInstr

-- Takes a free identifier, or else the batch of retired ones.
def takeExec (state : AsidState) : (Nat ⊕ List Nat) × AsidState :=
  match state.allocator.allocateWithoutRecycling with
  | some (asid, allocator) => (.inl asid, state.issue asid allocator)
  | none =>
    (.inr state.allocator.retired, { state with allocator := { state.allocator with retired := [] } })

def recycleExec (retired : List Nat) (state : AsidState) : Nat × AsidState :=
  let allocator := { state.allocator with reusable := retired.reverse ++ state.allocator.reusable }
  match allocator.allocateWithoutRecycling with
  | some (asid, allocator) => (asid, state.issue asid allocator)
  | none                   => (0, { state with allocator })

-- Dropping an address space retires its identifier. Identifier 0 belongs to the kernel.
def retireExec (asid : Nat) (state : AsidState) : AsidState :=
  let state := { state with live := state.live.erase asid }
  if asid ≠ 0 then
    { state with allocator.retired := state.allocator.retired ++ [asid] }.record (.retired asid)
  else
    state

variable {τ : Type}

def machine : Machine AsidInstr AsidState τ where
  exec _
    | take,            state => some (takeExec state)
    | flush cpu,       state => some ((), state.record (.flushed cpu))
    | recycle retired, state => some (recycleExec retired state)
    | create asid,     state => some ((), { state with live := asid :: state.live })
    | retire asid,     state => if asid ∈ state.live then some ((), retireExec asid state) else none

end AsidInstr

def flushTlbAllCpus : (cpus : List Nat) → Prog AsidInstr Unit
  | [] => pure ()
  | cpu :: cpus => do
    AsidInstr.flush cpu
    flushTlbAllCpus cpus

def allocateAddressSpaceId (arch : Arch) (cpus : List Nat) : Prog AsidInstr Nat := do
  match ← AsidInstr.take with
  | .inl asid => return asid
  | .inr retired =>
    if retired.isEmpty then
      return 0
    else
      if arch = .riscv64 then
        flushTlbAllCpus cpus
      AsidInstr.recycle retired

-- The part of `MemorySet::new_bare` that concerns the identifier.
def createAddressSpace (arch : Arch) (cpus : List Nat) : Prog AsidInstr Unit := do
  let asid ← allocateAddressSpaceId arch cpus
  AsidInstr.create asid

-- What the creation and the destruction of an address space do to its identifier. An address space that
-- is dropped exists until then.
inductive AsidCall (arch : Arch) (cpus : List Nat) : {α : Type} → Prog AsidInstr α → Prop
  | newBare : AsidCall arch cpus (createAddressSpace arch cpus)
  | drop (asid : Nat) : AsidCall arch cpus (AsidInstr.retire asid : Prog AsidInstr Unit)

end WllOs
