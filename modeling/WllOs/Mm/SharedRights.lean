import WllOs.Mm.Syscall

namespace WllOs

open SyscallM

-- The descriptors that the pages of an address space were last mapped from.
abbrev Origins := (vpn : Nat) → Option FileDescriptor

def Origins.map (origins : Origins) (file : Option FileDescriptor) (startVa endVa : Nat) : Origins :=
  match MemorySet.pageRange startVa endVa with
  | none               => origins
  | some (start, stop) => fun vpn =>
    if start ≤ vpn * pageSize ∧ vpn * pageSize < stop then file else origins vpn

-- `sys_mmap` up to the point where the range of the mapping is checked or cleared.
def mmapSelected (kernel : Kernel) (addr length : Nat) (prot flagsArg : BitVec 32) (fd : Int) (offset : Nat) :
    SyscallM (MmapRequest × (Nat × Nat) × MapAreaBacking × Option (List UInt8) × Bool) := do
  failIf (length = 0) .EINVAL
  let request ← ofResult (MmapRequest.ofArgs addr length prot flagsArg)
  failIf (!request.anonymous && offset % pageSize ≠ 0) .EINVAL
  failIf (!request.anonymous && fd < 0) .EBADF
  failIf (request.fixedAddr && addr % pageSize ≠ 0) .EINVAL
  let start ← ofResult (request.select kernel.arch (← get))
  let stop ← okOr (Usize.checkedAdd start request.mapLen) .EINVAL
  failIf (start < pageSize) .EPERM
  failIf (!kernel.arch.isUserMappableRange start stop) .ENOMEM
  let (backing, fileData, lazyCleanMmap) ← ofResult (request.backing kernel fd offset)
  request.flush kernel start stop
  return (request, (start, stop), backing, fileData, lazyCleanMmap)

-- `sys_mmap` up to the point where the mapping is inserted.
def mmapPlaced (kernel : Kernel) (addr length : Nat) (prot flagsArg : BitVec 32) (fd : Int) (offset : Nat) :
    SyscallM (MmapRequest × (Nat × Nat) × MapAreaBacking × Option (List UInt8) × Bool) := do
  let (request, range, backing, fileData, lazyCleanMmap) ←
    mmapSelected kernel addr length prot flagsArg fd offset
  let range ← request.place kernel.arch range.1 range.2
  return (request, range, backing, fileData, lazyCleanMmap)

namespace Syscall

-- The origins of pages after a call. Only `mmap` maps files.
def origins (kernel : Kernel) (process : Process) (origins : Origins) : Syscall → Origins
  | mmap addr length prot flags fd offset =>
    match (process.exec (mmapPlaced kernel addr length prot flags fd offset)).1 with
    | .ok (request, (start, stop), _) =>
      origins.map (if request.anonymous then none else kernel.fdTable fd.toNat) start stop
    | .error _ => origins
  | _ => origins

-- `mprotect` does not allow writes to a shared file mapping whose descriptor is not open for writing. A call
-- that is refused does not matter.
def RespectsRights (process : Process) (origins : Origins) : Syscall → Prop
  | mprotect addr len prot =>
    ∀ flags start stop, addr % pageSize = 0 → protToPteFlags prot = .ok flags →
      checkedRange addr len = .ok (start, stop) → process.memorySet.rangeCovered start stop → flags.w →
      ∀ area ∈ process.memorySet.areas, ∀ file offset, area.backing = .file file offset true →
      ∀ vpn, area.startVa ≤ vpn * pageSize → vpn * pageSize < area.endVa →
        start ≤ vpn * pageSize → vpn * pageSize < stop →
        ∃ descriptor, origins vpn = some descriptor ∧ descriptor.isWritable
  | _ => True

end Syscall

-- Every page of a shared file mapping that may be written was mapped from a descriptor that was open for
-- writing.
def MemorySet.SharedWritesGranted (ms : MemorySet) (origins : Origins) : Prop :=
  ∀ area ∈ ms.areas, ∀ file offset, area.backing = .file file offset true → area.flags.w →
    ∀ vpn, area.startVa ≤ vpn * pageSize → vpn * pageSize < area.endVa →
      ∃ descriptor, origins vpn = some descriptor ∧ descriptor.isWritable

namespace Process

-- The runs of a process and of its children, along with the origins of their pages. A child starts with the
-- pages of its parent.
inductive Traced (allowed : Process → Origins → Syscall → Prop) (process : Process) :
    Process → Origins → Prop
  | refl : Traced allowed process process (fun _ => none)
  | syscall {process' : Process} {origins : Origins} {kernel : Kernel} (call : Syscall) :
      Traced allowed process process' origins → kernel.env.Lawful (fun _ => True) →
      allowed process' origins call →
      Traced allowed process (process'.exec (call.body kernel)).2 (call.origins kernel process' origins)
  | child {process' child : Process} {origins : Origins} : Traced allowed process process' origins →
      (process'.exec sysFork).1 = .ok child → Traced allowed process child origins
  | others {process' : Process} {origins : Origins} (segments : List (Nat × SharedMemorySegment))
      (frames : Frames) : Traced allowed process process' origins →
      Traced allowed process { process' with segments, frames } origins

end Process

end WllOs
