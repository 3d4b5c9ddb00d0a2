import WllOs.Library.AgedMap
import WllOs.Library.Concurrent
import WllOs.Library.Usize

namespace WllOs.Fs

def EXT4_BLOCK_SIZE : Nat := 4096
def BLOCK_CACHE_LIMIT : Nat := 32 * 1024
def BLOCK_CACHE_READ_AHEAD_BLOCKS : Nat := 16

abbrev Block :=
  Fin EXT4_BLOCK_SIZE → UInt8

namespace Block

def zeros : Block :=
  fun _ => 0

-- The block at an index of a buffer of blocks.
def ofChunk {count : Nat} (data : Fin (count * EXT4_BLOCK_SIZE) → UInt8) (index : Fin count) : Block :=
  fun i => data ⟨index * EXT4_BLOCK_SIZE + i, Nat.lt_of_lt_of_le (Nat.add_lt_add_left i.isLt _)
    (Nat.succ_mul .. ▸ Nat.mul_le_mul_right _ index.isLt)⟩

-- Copies the bytes of `data` from `start` on to the given positions.
def copyFrom (out : Block) (copied count : Nat) (data : Block) (start : Nat) : Block :=
  fun i => if copied ≤ i ∧ i < copied + count then
    if h : start + (i - copied) < EXT4_BLOCK_SIZE then data ⟨_, h⟩ else 0
  else out i

end Block

structure BlockCache where
  blocks : AgedMap Nat Block
  nextAge : Nat

namespace BlockCache

def new : BlockCache where
  blocks := .empty
  nextAge := 1

variable (cache : BlockCache)

def bumpAge : Nat × BlockCache :=
  (cache.nextAge, { cache with nextAge := max (Usize.wrappingAdd cache.nextAge 1) 1 })

def get (block : Nat) : Option Block × BlockCache :=
  let (age, cache) := cache.bumpAge
  match cache.blocks.lookup block with
  | none      => (none, cache)
  | some data => (some data, { cache with blocks := cache.blocks.set block data age })

def insert (block : Nat) (data : Block) : BlockCache :=
  let (age, cache) := cache.bumpAge
  let blocks := if (cache.blocks.lookup block).isNone ∧ cache.blocks.size ≥ BLOCK_CACHE_LIMIT
    then cache.blocks.removeOldest else cache.blocks
  { cache with blocks := blocks.set block data age }

def invalidateRange (start len : Nat) : BlockCache :=
  match Usize.checkedAdd start len with
  | none       => { cache with blocks := .empty }
  | some «end» =>
    if start ≥ «end» then cache
    else
      let first := start / EXT4_BLOCK_SIZE * EXT4_BLOCK_SIZE
      let last := («end» - 1) / EXT4_BLOCK_SIZE * EXT4_BLOCK_SIZE
      let victims := List.range' first ((last - first) / EXT4_BLOCK_SIZE + 1) EXT4_BLOCK_SIZE
      { cache with blocks := victims.foldl AgedMap.remove cache.blocks }

-- Looks for the blocks that have not been found yet.
def getMissing : List (Nat × Option Block) → BlockCache → List (Nat × Option Block) × BlockCache
  | [],                            cache => ([], cache)
  | (block, some data) :: blocks, cache =>
    let (blocks, cache) := getMissing blocks cache
    ((block, some data) :: blocks, cache)
  | (block, none) :: blocks,      cache =>
    let (data, cache) := cache.get block
    let (blocks, cache) := getMissing blocks cache
    ((block, data) :: blocks, cache)

end BlockCache

structure BlockRange where
  start : Nat
  len : Option Nat
  len_le : ∀ limit, len = some limit → limit ≤ Usize.max

namespace BlockRange

variable (range : BlockRange)

-- Fails with `EINVAL`.
def checkedAbsRange (offset len : Nat) : Option Nat := do
  let «end» ← Usize.checkedAdd offset len
  if range.len.any («end» > ·) then none
  else Usize.checkedAdd range.start offset

def readAheadBlocks (offset : Nat) : Nat :=
  let availableBlocks := match range.len with
    | some len => if offset ≤ len then (len - offset) / EXT4_BLOCK_SIZE else 1
    | none     => 1
  min (max availableBlocks 1) BLOCK_CACHE_READ_AHEAD_BLOCKS

theorem readAheadBlocks_pos (offset : Nat) : 0 < range.readAheadBlocks offset :=
  Nat.lt_min.mpr ⟨Nat.lt_of_lt_of_le Nat.zero_lt_one (Nat.le_max_right ..), by decide⟩

end BlockRange

inductive BlockCallKind
  | readAt
  | writeAt
  | readOffset
  | readCachedBlocks
  deriving DecidableEq

-- Bytes from an offset on.
structure BlockBytes where
  offset : Nat
  len : Nat
  bytes : Fin len → UInt8

-- The number of writes to the device before the call and before its return is noted.
structure ReturnedRead extends BlockBytes where
  kind : BlockCallKind
  calledAt : Nat
  returnedAt : Nat

-- The contents that the device has had before are kept, and all that calls have returned.
structure BlockState (τ : Type) where
  device : Nat → UInt8
  past : List (Nat → UInt8)
  cache : BlockCache
  ioLock : Option τ
  returned : List ReturnedRead

-- What the device has held.
def BlockState.moments {τ : Type} (state : BlockState τ) : List (Nat → UInt8) :=
  state.past ++ [state.device]

-- A section that holds the lock of the cache is atomic, and so is an access to the device.
inductive BlockInstr : Type → Type
  | call : BlockInstr Nat
  | finish (kind : BlockCallKind) (calledAt : Nat) (reads : List BlockBytes) : BlockInstr Unit
  | lockIo : BlockInstr Unit
  | unlockIo : BlockInstr Unit
  | get (block : Nat) : BlockInstr (Option Block)
  | getMissing (blocks : List (Nat × Option Block)) : BlockInstr (List (Nat × Option Block))
  | insertAll (blocks : List (Nat × Block)) : BlockInstr Unit
  | invalidateRange (start len : Nat) : BlockInstr Unit
  | readRawAt (offset len : Nat) : BlockInstr (Option (Fin len → UInt8))
  | writeRawAt (offset : Nat) (data : List UInt8) : BlockInstr Bool

namespace BlockInstr

variable {τ : Type}

def machine (range : BlockRange) : Machine BlockInstr (BlockState τ) τ where
  exec thread
    | call,                       state => some (state.past.length, state)
    | finish kind calledAt reads, state =>
      let reads := reads.map fun read => { read with kind, calledAt, returnedAt := state.past.length }
      some ((), { state with returned := reads ++ state.returned })
    | lockIo,                     state =>
      if state.ioLock.isNone then some ((), { state with ioLock := some thread }) else none
    | unlockIo,                   state => some ((), { state with ioLock := none })
    | get block,                  state =>
      let (data, cache) := state.cache.get block
      some (data, { state with cache })
    | getMissing blocks,          state =>
      let (blocks, cache) := state.cache.getMissing blocks
      some (blocks, { state with cache })
    | insertAll blocks,           state =>
      some ((), { state with cache := blocks.foldl (fun cache (block, data) => cache.insert block data) state.cache })
    | invalidateRange start len,  state => some ((), { state with cache := state.cache.invalidateRange start len })
    | readRawAt offset len,       state =>
      some ((range.checkedAbsRange offset len).map fun abs i => state.device (abs + i), state)
    | writeRawAt offset data,     state =>
      match range.checkedAbsRange offset data.length with
      | none     => some (false, state)
      | some abs =>
        let device i := if abs ≤ i ∧ i < abs + data.length then data.getD (i - abs) 0 else state.device i
        some (true, { state with device, past := state.past ++ [state.device] })

end BlockInstr

namespace BlockRange

variable (range : BlockRange)

def readAt (offset len : Nat) : Prog BlockInstr (Option (Fin len → UInt8)) := do
  BlockInstr.lockIo
  let buf ← BlockInstr.readRawAt offset len
  BlockInstr.unlockIo
  return buf

def writeAt (offset : Nat) (data : List UInt8) : Prog BlockInstr Bool := do
  BlockInstr.lockIo
  BlockInstr.invalidateRange offset data.length
  let written ← BlockInstr.writeRawAt offset data
  BlockInstr.unlockIo
  return written

-- The blocks behind the given one are read as well.
def readAhead (offset : Nat) : Prog BlockInstr Block := do
  match ← BlockInstr.readRawAt offset (range.readAheadBlocks offset * EXT4_BLOCK_SIZE) with
  | none      => return .zeros
  | some data =>
    let blocks := List.ofFn fun index : Fin (range.readAheadBlocks offset) =>
      (offset + index * EXT4_BLOCK_SIZE, Block.ofChunk data index)
    BlockInstr.insertAll (blocks.takeWhile fun (block, _) => block ≤ Usize.max)
    return Block.ofChunk data ⟨0, range.readAheadBlocks_pos offset⟩

def readCachedBlock (offset : Nat) : Prog BlockInstr Block := do
  match ← BlockInstr.get offset with
  | some data => return data
  | none      =>
    BlockInstr.lockIo
    let data ← match ← BlockInstr.get offset with
      | some data => pure data
      | none      => range.readAhead offset
    BlockInstr.unlockIo
    return data

-- How many blocks follow the given one without a gap, none of which has been found.
def runLen : Nat → List (Nat × Option Block) → Nat
  | prev, (block, none) :: blocks =>
    if Usize.checkedAdd prev EXT4_BLOCK_SIZE = some block then runLen block blocks + 1 else 0
  | _,    _                       => 0

-- Reads the blocks that have not been found, run after run.
def readRuns (blocks : List (Nat × Option Block)) : Prog BlockInstr (Option (List Block)) :=
  Prog.loop (fun (found, blocks) => match blocks with
    | []                            => return .inr (some found)
    | (_, some data) :: blocks      => return .inl (found ++ [data], blocks)
    | (block, none) :: blocks       => do
      let len := runLen block blocks + 1
      if len * EXT4_BLOCK_SIZE > Usize.max then return .inr none
      match ← BlockInstr.readRawAt block (len * EXT4_BLOCK_SIZE) with
      | none      => return .inr none
      | some data =>
        let read := List.ofFn (Block.ofChunk data)
        BlockInstr.insertAll ((block :: blocks.map Prod.fst).zip read)
        return .inl (found ++ read, blocks.drop (len - 1)))
    ([], blocks)

def readCachedBlocks (offsets : List Nat) : Prog BlockInstr (Option (List Block)) := do
  let blocks ← BlockInstr.getMissing (offsets.map (·, none))
  if blocks.all fun (_, data) => data.isSome then
    return some (blocks.map Prod.snd).reduceOption
  BlockInstr.lockIo
  let blocks ← BlockInstr.getMissing blocks
  let blocks ← readRuns blocks
  BlockInstr.unlockIo
  return blocks

def readOffset (offset : Nat) : Prog BlockInstr Block :=
  if offset % EXT4_BLOCK_SIZE = 0 then range.readCachedBlock offset
  else
    let «end» := Usize.saturatingAdd offset EXT4_BLOCK_SIZE
    Prog.loop (fun (copied, block, out) => do
      if copied ≥ EXT4_BLOCK_SIZE then return .inr out
      let data ← range.readCachedBlock block
      let blockOffset := Usize.saturatingAdd offset copied - block
      let count := min (EXT4_BLOCK_SIZE - blockOffset) (EXT4_BLOCK_SIZE - copied)
      if count = 0 then return .inr out
      let out := out.copyFrom copied count data blockOffset
      let block := Usize.saturatingAdd block EXT4_BLOCK_SIZE
      if block ≥ «end» ∧ copied + count < EXT4_BLOCK_SIZE then return .inr out
      return .inl (copied + count, block, out))
      (0, offset / EXT4_BLOCK_SIZE * EXT4_BLOCK_SIZE, .zeros)

end BlockRange

-- Offsets are 64 bits wide, and those of `read_cached_blocks` are the offsets of blocks.
inductive BlockCall
  | readAt (offset len : Nat)
  | writeAt (offset : Nat) (data : List UInt8)
  | readOffset (offset : Nat) (h : offset ≤ Usize.max)
  | readCachedBlocks (offsets : List Nat) (h : ∀ offset ∈ offsets, offset % EXT4_BLOCK_SIZE = 0)

namespace BlockCall

def kind : BlockCall → BlockCallKind
  | readAt ..           => .readAt
  | writeAt ..          => .writeAt
  | readOffset ..       => .readOffset
  | readCachedBlocks .. => .readCachedBlocks

-- What the call reads, if it does not fail.
def reads (range : BlockRange) : BlockCall → Prog BlockInstr (List BlockBytes)
  | .readAt offset len          => do
    let buf ← BlockRange.readAt offset len
    return buf.toList.map fun bytes => ⟨offset, len, bytes⟩
  | .writeAt offset data        => do
    let _ ← BlockRange.writeAt offset data
    return []
  | .readOffset offset _        => do
    let block ← range.readOffset offset
    return [⟨offset, EXT4_BLOCK_SIZE, block⟩]
  | .readCachedBlocks offsets _ => do
    let blocks ← BlockRange.readCachedBlocks offsets
    return (offsets.zip (blocks.getD [])).map fun (offset, block) => ⟨offset, EXT4_BLOCK_SIZE, block⟩

def run (range : BlockRange) (call : BlockCall) : Prog BlockInstr Unit := do
  let calledAt ← BlockInstr.call
  let reads ← call.reads range
  BlockInstr.finish call.kind calledAt reads

end BlockCall

-- The calls of all processors.
inductive IsBlockCall (range : BlockRange) : {α : Type} → Prog BlockInstr α → Prop
  | call (call : BlockCall) : IsBlockCall range (call.run range)

def BlockBytes.Current (range : BlockRange) (device : Nat → UInt8) (read : BlockBytes) : Prop :=
  ∀ i, read.bytes i = device (range.start + read.offset + i)

namespace BlockState

variable {τ : Type} (range : BlockRange) (state : BlockState τ)

-- The device held something at a moment in between.
def HeldBetween (first last : Nat) (held : (Nat → UInt8) → Prop) : Prop :=
  ∃ t device, first ≤ t ∧ t ≤ last ∧ state.moments[t]? = some device ∧ held device

-- The bytes are those of the device at a moment of the call.
def AtOneMoment (read : ReturnedRead) : Prop :=
  state.HeldBetween read.calledAt read.returnedAt (read.Current range)

-- The bytes of each block that lies in the range are those of the device at a moment of the call.
def BlockwiseAtMoments (read : ReturnedRead) : Prop :=
  ∀ block, block % EXT4_BLOCK_SIZE = 0 → (range.checkedAbsRange block EXT4_BLOCK_SIZE).isSome →
    state.HeldBetween read.calledAt read.returnedAt fun device => ∀ i : Fin read.len, block ≤ read.offset + i →
      read.offset + i < block + EXT4_BLOCK_SIZE → read.bytes i = device (range.start + read.offset + i)

-- What calls have returned is what the device held meanwhile. `read_offset` joins the parts of two blocks unless the
-- offset is that of a block, and it returns zeros for what is not in the range.
structure ReadsSound : Prop where
  whole : ∀ read ∈ state.returned, read.kind ≠ .readOffset → state.AtOneMoment range read
  block : ∀ read ∈ state.returned, read.offset % EXT4_BLOCK_SIZE = 0 →
    (range.checkedAbsRange read.offset EXT4_BLOCK_SIZE).isSome → state.AtOneMoment range read
  joined : ∀ read ∈ state.returned, state.BlockwiseAtMoments range read

-- What the cache keeps of the device.
structure CacheSound : Prop where
  linked : state.cache.blocks.Linked
  size : state.cache.blocks.size ≤ BLOCK_CACHE_LIMIT
  current : ∀ block data, state.cache.blocks.lookup block = some data →
    BlockBytes.Current range state.device ⟨block, EXT4_BLOCK_SIZE, data⟩

-- The device as it is given, with an empty cache.
def opened (device : Nat → UInt8) : BlockState τ where
  device
  past := []
  cache := .new
  ioLock := none
  returned := []

end BlockState

end WllOs.Fs
