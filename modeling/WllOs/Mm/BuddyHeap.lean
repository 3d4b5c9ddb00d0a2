import WllOs.Mm.BuddyFrames

namespace WllOs

-- A size and an alignment that is a power of two. Rounded up to the alignment, the size is at most `isize::MAX`.
structure Layout where
  size : Nat
  alignShift : Nat
  fits : size + 2 ^ alignShift ≤ 2 ^ 63
  deriving DecidableEq, Repr

namespace Layout

variable (layout : Layout)

def align : Nat :=
  2 ^ layout.alignShift

-- The size of the blocks for a layout. A `usize` has 8 bytes.
def blockSize : Nat :=
  max (max (nextPowerOfTwo layout.size) layout.align) 8

def shift : Nat :=
  Nat.log2 layout.blockSize

end Layout

-- The allocator of memory that the kernel takes from a crate. For each class it keeps its free blocks in a linked
-- list, whose links are in the blocks. No block starts at 0, where a list ends.
structure Heap where
  freeList : Nat → List Nat

namespace Heap

def order : Nat := 32

def empty : Heap where
  freeList _ := []

variable (heap : Heap)

def push (cls block : Nat) : Heap where
  freeList := Function.update heap.freeList cls (block :: heap.freeList cls)

def pop (cls : Nat) : Option Nat × Heap :=
  match heap.freeList cls with
  | []              => (none, heap)
  | block :: blocks => (some block, ⟨Function.update heap.freeList cls blocks⟩)

-- The node of a block is taken out of its list.
def remove (cls block : Nat) : Heap where
  freeList := Function.update heap.freeList cls ((heap.freeList cls).erase block)

-- Each round of the loop adds at least one byte.
def addToHeapFrom : (bytes : Nat) → Heap → (currentStart stop : Nat) → Heap
  | 0,         heap, _,            _    => heap
  | bytes + 1, heap, currentStart, stop =>
    if currentStart + 8 ≤ stop then
      let size := min (min (lowbit currentStart) (prevPowerOfTwo (stop - currentStart))) (2 ^ (order - 1))
      addToHeapFrom bytes (heap.push (Nat.log2 size) currentStart) (currentStart + size) stop
    else
      heap

-- The words that lie in a range of bytes.
def wordRange (start stop : Nat) : Nat × Nat :=
  ((start + 7) / 8 * 8, stop / 8 * 8)

-- An assertion that fails stops the kernel.
def addToHeap (start stop : Nat) : Option Heap :=
  let (start, stop) := wordRange start stop
  if start ≤ stop then some (heap.addToHeapFrom (stop - start) start stop) else none

-- Splits a block of class `cls + k` until there is one of class `cls`.
def splitFrom (cls : Nat) : (k : Nat) → Heap → Bool × Heap
  | 0,     heap => (true, heap)
  | k + 1, heap =>
    match heap.pop (cls + k + 1) with
    | (none, heap)       => (false, heap)
    | (some block, heap) => splitFrom cls k ((heap.push (cls + k) (block + 2 ^ (cls + k))).push (cls + k) block)

def alloc (layout : Layout) : Option Nat × Heap :=
  let cls := layout.shift
  match (List.range' cls (order - cls)).find? fun i => heap.freeList i ≠ [] with
  | none   => (none, heap)
  | some i =>
    match splitFrom cls (i - cls) heap with
    | (false, heap) => (none, heap)
    | (true, heap)  => heap.pop cls

-- Merges the block at the head of a list with its buddy as long as that is free. The last class is not merged.
def mergeFrom : (classes : Nat) → Heap → (currentPtr currentClass : Nat) → Heap
  | 0,           heap, _,          _            => heap
  | classes + 1, heap, currentPtr, currentClass =>
    let buddy := currentPtr ^^^ 2 ^ currentClass
    if buddy ∈ heap.freeList currentClass then
      let heap := ((heap.remove currentClass buddy).pop currentClass).2
      let currentPtr := min currentPtr buddy
      mergeFrom classes (heap.push (currentClass + 1) currentPtr) currentPtr (currentClass + 1)
    else
      heap

def dealloc (ptr : Nat) (layout : Layout) : Heap :=
  let cls := layout.shift
  mergeFrom (order - 1 - cls) (heap.push cls ptr) ptr cls

-- How many free blocks an address lies in.
def cover (addr : Nat) : Nat :=
  BuddyBlocks.total order (BuddyBlocks.covers addr) heap.freeList

end Heap

end WllOs
