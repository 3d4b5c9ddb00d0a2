import WllOs.Library.BuddyBlocks

namespace WllOs

-- `usize::next_power_of_two`
def nextPowerOfTwo (n : Nat) : Nat :=
  if n ≤ 1 then 1 else 2 ^ (Nat.log2 (n - 1) + 1)

def prevPowerOfTwo (n : Nat) : Nat :=
  2 ^ Nat.log2 n

-- `n & (!n + 1)`
def lowbit (n : Nat) : Nat :=
  n &&& (2 ^ 64 - n)

-- The allocator of frames that the kernel takes from a crate. For each class it keeps the ordered set of the first
-- pages of its free blocks.
structure FrameAllocator where
  freeList : Nat → List Nat

namespace FrameAllocator

def order : Nat := 32

def new : FrameAllocator where
  freeList _ := []

variable (allocator : FrameAllocator)

def insert (cls block : Nat) : FrameAllocator where
  freeList := if block ∈ allocator.freeList cls then allocator.freeList else
    Function.update allocator.freeList cls ((allocator.freeList cls).orderedInsert (· ≤ ·) block)

def remove (cls block : Nat) : FrameAllocator where
  freeList := Function.update allocator.freeList cls ((allocator.freeList cls).erase block)

-- Each round of the loop adds at least one page.
def addFrameFrom : (pages : Nat) → FrameAllocator → (currentStart stop : Nat) → FrameAllocator
  | 0,         allocator, _,            _    => allocator
  | pages + 1, allocator, currentStart, stop =>
    if currentStart < stop then
      let lowbit := if 0 < currentStart then lowbit currentStart else 32
      let size := min (min lowbit (prevPowerOfTwo (stop - currentStart))) (2 ^ (order - 1))
      addFrameFrom pages (allocator.insert (Nat.log2 size) currentStart) (currentStart + size) stop
    else
      allocator

def addFrame (start stop : Nat) : FrameAllocator :=
  allocator.addFrameFrom (stop - start) start stop

-- Splits a block of class `cls + k` until there is one of class `cls`.
def splitFrom (cls : Nat) : (k : Nat) → FrameAllocator → Bool × FrameAllocator
  | 0,     allocator => (true, allocator)
  | k + 1, allocator =>
    match allocator.freeList (cls + k + 1) with
    | []         => (false, allocator)
    | block :: _ =>
      let allocator := allocator.insert (cls + k) (block + 2 ^ (cls + k))
      let allocator := allocator.insert (cls + k) block
      splitFrom cls k (allocator.remove (cls + k + 1) block)

def allocPowerOfTwo (size : Nat) : Option Nat × FrameAllocator :=
  let cls := Nat.log2 size
  match (List.range' cls (order - cls)).find? fun i => allocator.freeList i ≠ [] with
  | none   => (none, allocator)
  | some i =>
    match splitFrom cls (i - cls) allocator with
    | (false, allocator) => (none, allocator)
    | (true, allocator)  =>
      match allocator.freeList cls with
      | []          => (none, allocator)
      | result :: _ => (some result, allocator.remove cls result)

def alloc (count : Nat) : Option Nat × FrameAllocator :=
  allocator.allocPowerOfTwo (nextPowerOfTwo count)

-- Merges a block with its buddy as long as that is free. A block of the class after the last one is not kept.
def mergeFrom : (classes : Nat) → FrameAllocator → (currentPtr currentClass : Nat) → FrameAllocator
  | 0,           allocator, _,          _            => allocator
  | classes + 1, allocator, currentPtr, currentClass =>
    let buddy := currentPtr ^^^ 2 ^ currentClass
    if buddy ∈ allocator.freeList currentClass then
      mergeFrom classes (allocator.remove currentClass buddy) (min currentPtr buddy) (currentClass + 1)
    else
      allocator.insert currentClass currentPtr

def deallocPowerOfTwo (startFrame size : Nat) : FrameAllocator :=
  let cls := Nat.log2 size
  mergeFrom (order - cls) allocator startFrame cls

def dealloc (startFrame count : Nat) : FrameAllocator :=
  allocator.deallocPowerOfTwo startFrame (nextPowerOfTwo count)

def freePages : Nat :=
  BuddyBlocks.total order (fun i _ => 2 ^ i) allocator.freeList

-- How many free blocks a page lies in.
def cover (ppn : Nat) : Nat :=
  BuddyBlocks.total order (BuddyBlocks.covers ppn) allocator.freeList

end FrameAllocator

end WllOs
