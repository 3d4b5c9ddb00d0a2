import WllOs.Mm.Basic

namespace WllOs

def MAX_FD_NUM : Nat := 1024

def FD_CLOEXEC : BitVec 64 := 1

def O_CLOEXEC : BitVec 64 := 0o2000000

-- A table of descriptors `φ`. Both vectors have `MAX_FD_NUM` slots.
structure FileDescriptorTable (φ : Type) where
  fds : Fin MAX_FD_NUM → Option φ
  fdFlags : Fin MAX_FD_NUM → BitVec 64
  nextFdHint : Nat
  cloexecCount : Nat

namespace FileDescriptorTable

variable {φ : Type}

-- `stdin`, `stdout` and `stderr` are open.
def new (stdin stdout stderr : φ) : FileDescriptorTable φ where
  fds index := match index.val with
    | 0 => some stdin
    | 1 => some stdout
    | 2 => some stderr
    | _ => none
  fdFlags _ := 0
  nextFdHint := 3
  cloexecCount := 0

def countCloexec (flags : BitVec 64) : Nat :=
  if flags &&& FD_CLOEXEC ≠ 0 then 1 else 0

variable (table : FileDescriptorTable φ)

def setSlot (index : Fin MAX_FD_NUM) (fd : φ) (flags : BitVec 64) : FileDescriptorTable φ where
  fds := Function.update table.fds index (some fd)
  fdFlags := Function.update table.fdFlags index (flags &&& FD_CLOEXEC)
  nextFdHint :=
    if table.nextFdHint = MAX_FD_NUM ∨ index.val ≤ table.nextFdHint then min (index + 1) MAX_FD_NUM
    else table.nextFdHint
  cloexecCount := table.cloexecCount - countCloexec (table.fdFlags index) + countCloexec (flags &&& FD_CLOEXEC)

def clearSlot (index : Fin MAX_FD_NUM) : Option φ × FileDescriptorTable φ :=
  (table.fds index,
    { fds := Function.update table.fds index none
      fdFlags := Function.update table.fdFlags index 0
      nextFdHint := min index table.nextFdHint
      cloexecCount := table.cloexecCount - countCloexec (table.fdFlags index) })

-- The first free slot with an index from `start` on and below `limit`.
def firstFree (start limit : Nat) : Option (Fin MAX_FD_NUM) :=
  (List.finRange MAX_FD_NUM).find? fun index => start ≤ index && index < limit && (table.fds index).isNone

def allocSlotFrom (start limit : Nat) (fd : φ) (flags : BitVec 64) : Option (Nat × FileDescriptorTable φ) :=
  let limit := min limit MAX_FD_NUM
  if start ≥ limit then none
  else
    let scanStart := if start = 0 then min table.nextFdHint limit else start
    match table.firstFree scanStart limit with
    | some index => some (index, table.setSlot index fd flags)
    | none       =>
      if scanStart > start then
        (table.firstFree start scanStart).map fun index => (index.val, table.setSlot index fd flags)
      else
        none

def slot (fd : Nat) : Option (Fin MAX_FD_NUM) :=
  if h : fd < MAX_FD_NUM then some ⟨fd, h⟩ else none

def get (fd : Nat) : Option φ :=
  (slot fd).bind table.fds

def remove (fd : Nat) : Except SysErrNo (φ × FileDescriptorTable φ) :=
  match slot fd with
  | none       => .error .EBADF
  | some index =>
    match table.clearSlot index with
    | (some fd, table) => .ok (fd, table)
    | (none, _)        => .error .EBADF

def setFdFlags (fd : Nat) (flags : BitVec 64) : Except SysErrNo (FileDescriptorTable φ) :=
  match slot fd with
  | none       => .error .EBADF
  | some index =>
    if (table.fds index).isNone then .error .EBADF
    else .ok { table with
      fdFlags := Function.update table.fdFlags index (flags &&& FD_CLOEXEC)
      cloexecCount := table.cloexecCount - countCloexec (table.fdFlags index) + countCloexec (flags &&& FD_CLOEXEC) }

def isCloexec (index : Fin MAX_FD_NUM) : Bool :=
  (table.fds index).isSome && table.fdFlags index &&& FD_CLOEXEC ≠ 0

-- The body of the loop of `close_on_exec`.
def closeIfCloexec (closed : List φ × FileDescriptorTable φ) (index : Fin MAX_FD_NUM) :
    List φ × FileDescriptorTable φ :=
  if closed.snd.isCloexec index then
    let (file, table) := closed.snd.clearSlot index
    (closed.fst ++ file.toList, table)
  else
    closed

def closeOnExec : List φ × FileDescriptorTable φ :=
  if table.cloexecCount = 0 then ([], table)
  else (List.finRange MAX_FD_NUM).foldl closeIfCloexec ([], table)

def closeAll : FileDescriptorTable φ where
  fds _ := none
  fdFlags _ := 0
  nextFdHint := 0
  cloexecCount := 0

def dupBelow (oldFd limit : Nat) : Except SysErrNo (Nat × FileDescriptorTable φ) :=
  match table.get oldFd with
  | none    => .error .EBADF
  | some fd => (table.allocSlotFrom 0 limit fd 0).elim (.error .EMFILE) .ok

def dup2Below (oldFd newFd limit : Nat) : Except SysErrNo (Nat × FileDescriptorTable φ) :=
  match table.get oldFd, slot newFd with
  | none, _    => .error .EBADF
  | some _, none => .error .EBADF
  | some fd, some index =>
    if newFd ≥ min limit MAX_FD_NUM then .error .EBADF
    else if oldFd = newFd then .ok (newFd, table)
    else
      let table := if (table.fds index).isSome then (table.clearSlot index).snd else table
      .ok (newFd, table.setSlot index fd 0)

-- The operations on a table, as the system calls for descriptors use them.
inductive Op (φ : Type)
  | alloc (start limit : Nat) (fd : φ) (flags : BitVec 64)
  | remove (fd : Nat)
  | setFdFlags (fd : Nat) (flags : BitVec 64)
  | dup (oldFd limit : Nat)
  | dup2 (oldFd newFd limit : Nat)
  | closeAll

-- An operation that fails leaves the table as it is.
def apply : Op φ → FileDescriptorTable φ
  | .alloc start limit fd flags => (table.allocSlotFrom start limit fd flags).elim table Prod.snd
  | .remove fd => (table.remove fd).toOption.elim table Prod.snd
  | .setFdFlags fd flags => (table.setFdFlags fd flags).toOption.getD table
  | .dup oldFd limit => (table.dupBelow oldFd limit).toOption.elim table Prod.snd
  | .dup2 oldFd newFd limit => (table.dup2Below oldFd newFd limit).toOption.elim table Prod.snd
  | .closeAll => closeAll

-- What a task observes of its descriptors.
def view (fd : Nat) : Option (φ × BitVec 64) :=
  (slot fd).bind fun index => (table.fds index).map (·, table.fdFlags index)

def allocAt (index : Nat) (fd : φ) : Except SysErrNo (FileDescriptorTable φ) :=
  (slot index).elim (.error .EBADF) fun index => .ok (table.setSlot index fd 0)

-- The part of `sys_dup3` that concerns the table.
def dup3Below (oldFd newFd : Nat) (flags : BitVec 64) (limit : Nat) :
    Except SysErrNo (Nat × FileDescriptorTable φ) := do
  if oldFd = newFd ∨ flags &&& ~~~O_CLOEXEC ≠ 0 then throw .EINVAL
  let (newFd, table) ← table.dup2Below oldFd newFd limit
  let table ← table.setFdFlags newFd (if flags &&& O_CLOEXEC ≠ 0 then FD_CLOEXEC else 0)
  return (newFd, table)

-- `fork` without `CLONE_FILES`. Each descriptor is cloned.
def clone (cloneFd : φ → φ) : FileDescriptorTable φ :=
  { table with fds index := (table.fds index).map cloneFd }

-- The tables that there are.
inductive Reachable : FileDescriptorTable φ → Prop
  | new (stdin stdout stderr : φ) : Reachable (new stdin stdout stderr)
  | apply {table : FileDescriptorTable φ} (op : Op φ) : Reachable table → Reachable (table.apply op)
  | allocAt {table table' : FileDescriptorTable φ} {index : Nat} {fd : φ} :
      Reachable table → table.allocAt index fd = .ok table' → Reachable table'
  | dup3 {table table' : FileDescriptorTable φ} {oldFd newFd limit dupFd : Nat} {flags : BitVec 64} :
      Reachable table → table.dup3Below oldFd newFd flags limit = .ok (dupFd, table') → Reachable table'
  | closeOnExec {table : FileDescriptorTable φ} : Reachable table → Reachable table.closeOnExec.snd
  | clone {table : FileDescriptorTable φ} (cloneFd : φ → φ) : Reachable table → Reachable (table.clone cloneFd)

-- The free descriptors in a range.
def Free (start limit fd : Nat) : Prop :=
  start ≤ fd ∧ fd < limit ∧ ∃ index, slot fd = some index ∧ table.fds index = none

-- The hint and the count are right, allocation takes the lowest free descriptor, and `close_on_exec` closes the
-- descriptors with the flag.
structure Exact : Prop where
  hint : ∀ index : Fin MAX_FD_NUM, index.val < table.nextFdHint → (table.fds index).isSome
  count : table.cloexecCount = (Finset.univ.filter fun index => table.isCloexec index).card
  lowest : ∀ start limit fd flags newFd table', table.allocSlotFrom start limit fd flags = some (newFd, table') →
    IsLeast {fd | table.Free start limit fd} newFd ∧ table'.view newFd = some (fd, flags &&& FD_CLOEXEC)
  full : ∀ start limit fd flags, table.allocSlotFrom start limit fd flags = none ↔ ∀ fd, ¬table.Free start limit fd
  closed : table.closeOnExec.fst =
    (List.finRange MAX_FD_NUM).filterMap fun index => if table.isCloexec index then table.fds index else none
  kept : ∀ index, table.closeOnExec.snd.fds index = if table.isCloexec index then none else table.fds index

-- The count is that of the slots with the flag, and only open slots have flags.
structure Counted (table : FileDescriptorTable φ) : Prop where
  count : table.cloexecCount = ∑ index, countCloexec (table.fdFlags index)
  isOpen : ∀ index, table.fds index = none → table.fdFlags index = 0
  flags : ∀ index, table.fdFlags index &&& FD_CLOEXEC = table.fdFlags index

end FileDescriptorTable

end WllOs
