import WllOs.Mm.Coherence
import WllOs.Mm.Syscall

namespace WllOs

def heapFlags : PTEFlags :=
  { PTEFlags.empty with u := true, r := true, w := true, v := true }

-- A page of the heap that nobody has accessed yet.
def heapPage : PageView where
  flags := heapFlags
  backing := .anonymous
  page := none

-- Nothing is known about the contents of a page, and whatever fault makes it resident fills it with zeros.
structure MemorySet.ReadsZero (ms : MemorySet) (vpn : Nat) : Prop where
  absent   : ∀ view, ms.meaning vpn = some view → view.page = none
  unmapped : ms.pageTable vpn = none
  zero     : ∀ env frames addr (access : Access) ms' frames' view page, env.Lawful (fun _ => True) →
              handlePageFault env ms frames addr access.isStore access.isExec = .ok (ms', frames') →
              ms'.meaning vpn = some view → view.page = some page → frames'.mem page.frame = .zero

-- The pages between the old and the new end of the heap are mapped or unmapped, and all others stay.
structure HeapResized (before after : Process) : Prop where
  grown    : ∀ vpn, before.mm.mappedBreak ≤ vpn * pageSize → vpn * pageSize < after.mm.mappedBreak →
              before.memorySet.meaning vpn = none ∧ after.memorySet.meaning vpn = some heapPage ∧
              after.memorySet.ReadsZero vpn
  shrunk   : ∀ vpn, after.mm.mappedBreak ≤ vpn * pageSize → vpn * pageSize < before.mm.mappedBreak →
              after.memorySet.meaning vpn = none
  kept     : ∀ vpn, vpn * pageSize < min before.mm.mappedBreak after.mm.mappedBreak ∨
              max before.mm.mappedBreak after.mm.mappedBreak ≤ vpn * pageSize →
              after.memorySet.meaning vpn = before.memorySet.meaning vpn
  contents : after.frames = before.frames

-- What holds of a process between its requests.
structure HeapInv (ms : MemorySet) (mm : MmContext) : Prop extends ms.Coherent where
  breaks : alignUp mm.programBreak = some mm.mappedBreak

-- What a request for a new program break observes.
structure BrkExact (newBrk : Nat) (before : Process) (result : Except SysErrNo Nat) (after : Process) :
    Prop where
  returned : result = .ok after.mm.programBreak
  aligned  : alignUp after.mm.programBreak = some after.mm.mappedBreak
  granted  : after.mm.programBreak = newBrk → HeapResized before after
  refused  : after.mm.programBreak ≠ newBrk → after = before

-- The result of a search for the least element of a set.
def IsFirst (s : Set Nat) : Option Nat → Prop
  | some n => IsLeast s n
  | none   => s = ∅

namespace MemorySet

-- No area meets the range of the given length at an address.
def FreeAt (ms : MemorySet) (length addr : Nat) : Prop :=
  ∀ area ∈ ms.areas, ¬area.overlaps addr (addr + length)

-- The page-aligned addresses from a hint on at which a range of the given length is free and ends at or
-- below a limit.
def freeAddrs (ms : MemorySet) (hint length limit : Nat) : Set Nat :=
  { addr | addr % pageSize = 0 ∧ max hint pageSize ≤ addr ∧ ms.FreeAt length addr ∧ addr + length ≤ limit }

-- An arena contains a free range of the given length at an address.
def GapIn (ms : MemorySet) (arena : UserVaRange) (length addr : Nat) : Prop :=
  arena.containsRange addr (addr + length) ∧ ms.FreeAt length addr

end MemorySet

-- The address at which the search of an arena starts, and before which it resumes.
def arenaHint (arch : Arch) (lowHint highHint : Nat) (arena : UserVaRange) : Nat :=
  if arch.mmapArenaContaining lowHint = some arena then max ((alignUp lowHint).getD 0) arena.start
  else if arena = highMmapArena then max highHint arena.start
  else arena.start

-- What the placement of a mapping of the given length is supposed to do: the search of an address space
-- finds the least address, and the search of the arenas finds a gap inside of them if there is one.
structure PlacementComplete (arch : Arch) (ms : MemorySet) (lowHint highHint length : Nat) : Prop where
  least  : ∀ hint limit, limit ≤ Usize.max →
            IsFirst (ms.freeAddrs hint length limit) (ms.findFreeArea hint length limit)
  inside : ∀ start, findMmapAreaWithHints arch ms lowHint highHint length = some start →
            ∃ arena ∈ arch.mmapArenas, ms.GapIn arena length start
  found  : (∃ arena ∈ arch.mmapArenas, ∃ addr, ms.GapIn arena length addr) →
            ∃ start, findMmapAreaWithHints arch ms lowHint highHint length = some start

-- The hints hide no gap and lead to none outside of the arenas.
structure HintsHarmless (arch : Arch) (ms : MemorySet) (lowHint highHint length : Nat) : Prop where
  -- If there is a gap in an arena, there is also one of pages that does not lie across the hint of its arena.
  unsplit : (∃ arena ∈ arch.mmapArenas, ∃ addr, ms.GapIn arena length addr) →
              ∃ arena ∈ arch.mmapArenas, ∃ addr, addr % pageSize = 0 ∧ ms.GapIn arena length addr ∧
                (arenaHint arch lowHint highHint arena ≤ addr ∨
                  addr + length ≤ arenaHint arch lowHint highHint arena)
  -- If there is none, the range before a hint behind the end of its arena has none either.
  bounded : (∃ arena ∈ arch.mmapArenas, ∃ addr, ms.GapIn arena length addr) ∨
              ∀ arena ∈ arch.mmapArenas, ∀ addr,
                addr ∉ ms.freeAddrs arena.start length (arenaHint arch lowHint highHint arena)

end WllOs
