import WllOs.Fs.Objects
import WllOs.Mm.Syscall

namespace WllOs

open Fs (fromLeBytes)

-- A byte slice and the memory it lies in, by offsets from its start. An offset that is out of range wraps
-- around with the address.
structure Slice where
  bytes : List UInt8
  around : Nat → UInt8
  length_le : bytes.length ≤ Usize.max / 2

namespace Slice

def len (self : Slice) : Nat :=
  self.bytes.length

-- The byte that a raw pointer reads.
def byteAt (self : Slice) (offset : Nat) : UInt8 :=
  let offset := offset % (Usize.max + 1)
  self.bytes.getD offset (self.around offset)

-- A field of a structure that a reference at an offset denotes.
def field (self : Slice) (offset width : Nat) : Nat :=
  fromLeBytes ((List.range width).map fun i => self.byteAt (offset + i))

end Slice

-- The reasons for which a program is not loaded. The source panics or destroys memory in the second case.
inductive LoadFailure
  | errno (error : SysErrNo)
  | crash
  deriving DecidableEq, Repr

structure ElfHeader where
  elfClass : Nat
  eType : Nat
  eMachine : Nat
  eEntry : Nat
  ePhoff : Nat
  ePhentsize : Nat
  ePhnum : Nat
  deriving DecidableEq, Repr

structure ProgramHeader where
  pType : Nat
  pFlags : Nat
  pOffset : Nat
  pVaddr : Nat
  pFilesz : Nat
  pMemsz : Nat
  deriving DecidableEq, Repr

namespace Slice

def elfHeader (self : Slice) : ElfHeader where
  elfClass   := self.field 4 1
  eType      := self.field 16 2
  eMachine   := self.field 18 2
  eEntry     := self.field 24 8
  ePhoff     := self.field 32 8
  ePhentsize := self.field 54 2
  ePhnum     := self.field 56 2

-- The program header that a reference denotes.
def programHeader (self : Slice) (offset : Nat) : ProgramHeader where
  pType   := self.field offset 4
  pFlags  := self.field (offset + 4) 4
  pOffset := self.field (offset + 8) 8
  pVaddr  := self.field (offset + 16) 8
  pFilesz := self.field (offset + 32) 8
  pMemsz  := self.field (offset + 40) 8

end Slice

def elfMagic : List UInt8 :=
  [0x7f, 0x45, 0x4c, 0x46]

def elfHeaderSize : Nat := 64
def programHeaderSize : Nat := 56
def dynamicEntrySize : Nat := 16

def userStackSize : Nat := 0x400000

def ptLoad : Nat := 1
def ptDynamic : Nat := 2
def ptInterp : Nat := 3

def Arch.elfMachine : Arch → Nat
  | riscv64     => 243
  | loongarch64 => 258

-- The program headers are references into the data.
structure ElfFile where
  data : Slice
  header : ElfHeader
  programHeaders : List Nat

structure Loaded where
  memorySet : MemorySet
  frames : Frames
  userStackTop : Nat
  entry : Nat

namespace ElfFile

-- The loop over the program header table. The number and the size of its entries have 16 bits each, so
-- that only the additions can overflow.
def parseHeaders (data : Slice) (phoff phentsize : Nat) : (count i : Nat) → Except SysErrNo (List Nat)
  | 0, _ => .ok []
  | count + 1, i =>
    let offset := Usize.wrappingAdd phoff (i * phentsize)
    if Usize.wrappingAdd offset phentsize > data.len then
      .error .ENOEXEC
    else
      match parseHeaders data phoff phentsize count (i + 1) with
      | .error error => .error error
      | .ok rest     => .ok (offset :: rest)

def parse (arch : Arch) (data : Slice) : Except SysErrNo ElfFile :=
  let header := data.elfHeader
  if data.len < elfHeaderSize then
    .error .ENOEXEC
  else if data.bytes.take 4 ≠ elfMagic then
    .error .ENOEXEC
  else if header.elfClass ≠ 2 then
    .error .ENOEXEC
  else if header.eType ≠ 2 && header.eType ≠ 3 then
    .error .ENOEXEC
  else if header.eMachine ≠ arch.elfMachine then
    .error .ENOEXEC
  else
    match parseHeaders data header.ePhoff header.ePhentsize header.ePhnum 0 with
    | .error error       => .error error
    | .ok programHeaders => .ok { data, header, programHeaders }

def segments (self : ElfFile) : List ProgramHeader :=
  self.programHeaders.map self.data.programHeader

def loadSegments (self : ElfFile) : List ProgramHeader :=
  self.segments.filter (·.pType = ptLoad)

def interpPath (self : ElfFile) : Option String :=
  match self.segments.find? (·.pType = ptInterp) with
  | none => none
  | some ph =>
    match Usize.checkedAdd ph.pOffset ph.pFilesz with
    | none => none
    | some stop =>
      if ph.pOffset ≥ stop || stop > self.data.len then
        none
      else
        let bytes := (self.data.bytes.drop ph.pOffset).take (stop - ph.pOffset)
        String.fromUTF8? ⟨(bytes.takeWhile (· ≠ 0)).toArray⟩

def entryWithBias (self : ElfFile) (bias : Nat) : Nat :=
  Usize.wrappingAdd self.header.eEntry bias

def loadBoundsWithBias (self : ElfFile) (bias : Nat) : Option (Nat × Nat) :=
  match extend self.loadSegments (Usize.max, 0) with
  | none        => none
  | some bounds => if self.loadSegments.isEmpty then none else some bounds
where
  extend : List ProgramHeader → Nat × Nat → Option (Nat × Nat)
    | [], bounds => some bounds
    | ph :: rest, (start, stop) => do
      let segStart ← Usize.checkedAdd ph.pVaddr bias
      let segStop ← Usize.checkedAdd (← Usize.checkedAdd ph.pVaddr ph.pMemsz) bias
      extend rest (min start (alignDown segStart), max stop (← alignUp segStop))

def interpMinBias : Nat := 0x00100000
def interpAlign : Nat := 0x00100000

def alignUpTo (value align : Nat) : Option Nat :=
  (Usize.checkedAdd value (align - 1)).map (· / align * align)

def orNoMemory (value : Option Nat) : Except SysErrNo Nat :=
  match value with
  | some value => .ok value
  | none       => .error .ENOMEM

def chooseInterpreterBias (target : ElfFile) (targetBias : Nat) (interpreter : ElfFile) : Except SysErrNo Nat :=
  match target.loadBoundsWithBias targetBias, interpreter.loadBoundsWithBias 0 with
  | some (targetStart, targetStop), some (interpStart, interpStop) => do
    let start ← orNoMemory (Usize.checkedAdd interpStart interpMinBias)
    let stop ← orNoMemory (Usize.checkedAdd interpStop interpMinBias)
    let (bias, start, stop) ← (do
      if rangesOverlap start stop targetStart targetStop then
        let bias := max (← orNoMemory (alignUpTo (targetStop - interpStart) interpAlign)) interpMinBias
        let start ← orNoMemory (Usize.checkedAdd interpStart bias)
        let stop ← orNoMemory (Usize.checkedAdd interpStop bias)
        return (bias, start, stop)
      else
        return (interpMinBias, start, stop))
    if rangesOverlap start stop targetStart targetStop || stop ≥ userHeapStart then
      .error .ENOMEM
    else
      .ok bias
  | _, _ => .ok interpMinBias

-- The loop of `can_enter_without_interpreter` over the entries of the dynamic section.
def needsNothing (data : Slice) (stop : Nat) : (fuel offset : Nat) → Bool
  | 0, _ => false
  | fuel + 1, offset =>
    if offset + dynamicEntrySize ≤ stop then
      match data.field offset 8 with
      | 0 => true
      | 1 | 23 => false
      | 2 | 8 | 18 =>
        if data.field (offset + 8) 8 ≠ 0 then false else needsNothing data stop fuel (offset + dynamicEntrySize)
      | _ => needsNothing data stop fuel (offset + dynamicEntrySize)
    else
      false

def canEnterWithoutInterpreter (self : ElfFile) : Bool :=
  match self.segments.find? (·.pType = ptDynamic) with
  | none => false
  | some dynamic =>
    match Usize.checkedAdd dynamic.pOffset dynamic.pFilesz with
    | none => false
    | some stop =>
      if stop ≤ self.data.len then needsNothing self.data stop stop dynamic.pOffset else false

def segmentFlags (pFlags : Nat) : PTEFlags :=
  { PTEFlags.empty with
    u := true
    v := true
    r := pFlags.testBit 1 || pFlags.testBit 2
    w := pFlags.testBit 1
    x := pFlags.testBit 0
  }

-- The loops that copy a segment page by page. `load` and `load_segments_into` differ in the address that
-- follows a page.
def copyFrom (next : (vaddr copyLen : Nat) → Nat) (ms : MemorySet) (src : List UInt8) :
    (fuel vaddr srcOffset : Nat) → Frames → Except LoadFailure Frames
  | 0, _, _, frames => .ok frames
  | fuel + 1, vaddr, srcOffset, frames =>
    if srcOffset < src.length then
      match ms.translate vaddr with
      | none => .error (.errno .ENOMEM)
      | some pte =>
        let pageOffset := vaddr % pageSize
        let copyLen := min (src.length - srcOffset) (pageSize - pageOffset)
        let frames := frames.writeSlice pte.ppn pageOffset ((src.drop srcOffset).take copyLen)
        copyFrom next ms src fuel (next vaddr copyLen) (srcOffset + copyLen) frames
    else
      .ok frames

-- The bytes of a segment in the file. A slice that ends before it starts panics.
def segmentData (data : Slice) (ph : ProgramHeader) : Except LoadFailure (List UInt8) :=
  let srcStop := Usize.wrappingAdd ph.pOffset ph.pFilesz
  if srcStop > data.len then
    .error (.errno .ENOEXEC)
  else if ph.pOffset > srcStop then
    .error .crash
  else
    .ok ((data.bytes.drop ph.pOffset).take (srcStop - ph.pOffset))

def copySegment (next : (vaddr copyLen : Nat) → Nat) (data : Slice) (ph : ProgramHeader) (bias : Nat)
    (ms : MemorySet) (frames : Frames) : Except LoadFailure Frames :=
  if ph.pFilesz > 0 then
    match segmentData data ph with
    | .error failure => .error failure
    | .ok src        => copyFrom next ms src src.length (Usize.wrappingAdd ph.pVaddr bias) 0 frames
  else
    .ok frames

-- The loop of `load` that fills the rest of a segment with zeros. A range that ends before it starts is
-- taken for one of almost the whole memory.
def zeroFrom (ms : MemorySet) (bssStart bssStop : Nat) :
    (fuel vaddr : Nat) → Frames → Except LoadFailure Frames
  | 0, _, frames => .ok frames
  | fuel + 1, vaddr, frames =>
    if vaddr < bssStop then
      match ms.translate vaddr with
      | none => .error (.errno .ENOMEM)
      | some pte =>
        let pageStop := min (Usize.wrappingAdd vaddr pageSize) bssStop
        let zeroStart := max bssStart vaddr
        if pageStop < zeroStart then
          .error .crash
        else
          let frames :=
            frames.writeSlice pte.ppn (zeroStart - vaddr) (List.replicate (pageStop - zeroStart) 0)
          zeroFrom ms bssStart bssStop fuel (Usize.wrappingAdd vaddr pageSize) frames
    else
      .ok frames

def zeroBss (ph : ProgramHeader) (ms : MemorySet) (frames : Frames) : Except LoadFailure Frames :=
  if ph.pMemsz > ph.pFilesz then
    let bssStart := Usize.wrappingAdd ph.pVaddr ph.pFilesz
    let bssStop := Usize.wrappingAdd ph.pVaddr ph.pMemsz
    zeroFrom ms bssStart bssStop (bssStop / pageSize + 1) (alignDown bssStart) frames
  else
    .ok frames

-- The pages of a segment are inserted before its bytes are copied to them.
def insertSegment (ph : ProgramHeader) (bias : Nat) (ms : MemorySet) (frames : Frames) :
    Except LoadFailure (MemorySet × Frames) :=
  match ms.insertFramedArea frames (Usize.wrappingAdd ph.pVaddr bias)
    (Usize.wrappingAdd (Usize.wrappingAdd ph.pVaddr ph.pMemsz) bias) (segmentFlags ph.pFlags) with
  | (_, _, .error error)  => .error (.errno error)
  | (ms, frames, .ok ())  => .ok (ms, frames)

def loadSegmentsInto (data : Slice) (bias : Nat) :
    List ProgramHeader → MemorySet → Frames → Except LoadFailure (MemorySet × Frames)
  | [], ms, frames => .ok (ms, frames)
  | ph :: rest, ms, frames => do
    let (ms, frames) ← insertSegment ph bias ms frames
    let next (vaddr _ : Nat) := Usize.wrappingAdd vaddr (pageSize - vaddr % pageSize)
    let frames ← copySegment next data ph bias ms frames
    loadSegmentsInto data bias rest ms frames

-- The loop of `load`, which clears the rest of a segment itself.
def loadEach (data : Slice) : List ProgramHeader → MemorySet → Frames → Except LoadFailure (MemorySet × Frames)
  | [], ms, frames => .ok (ms, frames)
  | ph :: rest, ms, frames => do
    let (ms, frames) ← insertSegment ph 0 ms frames
    let frames ← copySegment Usize.wrappingAdd data ph 0 ms frames
    let frames ← zeroBss ph ms frames
    loadEach data rest ms frames

def insertStack (arch : Arch) (ms : MemorySet) : Except LoadFailure MemorySet :=
  match ms.insertLazyAreaWithBacking (arch.userStackTop - userStackSize) arch.userStackTop
    { PTEFlags.empty with u := true, r := true, w := true, v := true } .anonymous with
  | .error error => .error (.errno error)
  | .ok ms       => .ok ms

def load (self : ElfFile) (arch : Arch) (frames : Frames) : Except LoadFailure Loaded := do
  let (ms, frames) ← loadEach self.data self.loadSegments .newBare frames
  let memorySet ← insertStack arch ms
  return { memorySet, frames, userStackTop := arch.userStackTop, entry := self.header.eEntry }

def loadAt (self : ElfFile) (arch : Arch) (bias : Nat) (frames : Frames) : Except LoadFailure Loaded := do
  let (ms, frames) ← loadSegmentsInto self.data bias self.loadSegments .newBare frames
  let memorySet ← insertStack arch ms
  return { memorySet, frames, userStackTop := arch.userStackTop, entry := self.entryWithBias bias }

end ElfFile

def targetBiasOfDyn : Nat := 0x00400000

-- How `sys_execve` loads a program.
inductive ExecPlan
  | interpreted (target : ElfFile) (targetBias : Nat) (interpreter : ElfFile) (interpBias : Nat)
  | dynamic (elf : ElfFile)
  | static (elf : ElfFile)

namespace ExecPlan

-- The interpreter that a program names is read from the file system.
def ofData (arch : Arch) (readInterpreter : String → Option Slice) (elfData : Slice) :
    Except SysErrNo ExecPlan := do
  let elf ← ElfFile.parse arch elfData
  let interp? := if arch = .loongarch64 && elf.canEnterWithoutInterpreter then none else elf.interpPath
  match interp? with
  | some interp =>
    match readInterpreter interp with
    | none => throw .ENOENT
    | some interpData => do
      let interpElf ← ElfFile.parse arch interpData
      let targetBias := if elf.header.eType = 3 then targetBiasOfDyn else 0
      let interpBias ← ElfFile.chooseInterpreterBias elf targetBias interpElf
      return .interpreted elf targetBias interpElf interpBias
  | none => return if elf.header.eType = 3 then .dynamic elf else .static elf

def load (arch : Arch) (frames : Frames) : ExecPlan → Except LoadFailure Loaded
  | interpreted target targetBias interpreter interpBias => do
    let (ms, frames) ← ElfFile.loadSegmentsInto target.data targetBias target.loadSegments .newBare frames
    let (ms, frames) ← ElfFile.loadSegmentsInto interpreter.data interpBias interpreter.loadSegments ms frames
    let memorySet ← ElfFile.insertStack arch ms
    return { memorySet, frames, userStackTop := arch.userStackTop, entry := interpreter.entryWithBias interpBias }
  | dynamic elf => elf.loadAt arch targetBiasOfDyn frames
  | static elf  => elf.load arch frames

-- The segments that are loaded, each with the bias it is loaded at.
def segments : ExecPlan → List (ProgramHeader × Nat)
  | interpreted target targetBias interpreter interpBias =>
    target.loadSegments.map (·, targetBias) ++ interpreter.loadSegments.map (·, interpBias)
  | dynamic elf => elf.loadSegments.map (·, targetBiasOfDyn)
  | static elf  => elf.loadSegments.map (·, 0)

end ExecPlan

-- The range of addresses that user mappings may cover. No program may cover the start of the heap.
def Arch.insideUser (arch : Arch) (start stop : Nat) : Bool :=
  arch.isUserMappableRange start stop && !(start ≤ userHeapStart && userHeapStart < stop)

-- Every program header was read from inside of the data, at its place in the table.
def ElfFile.HeadersInside (elf : ElfFile) : Prop :=
  ∀ i offset, elf.programHeaders[i]? = some offset →
    offset = elf.header.ePhoff + i * elf.header.ePhentsize ∧ offset + programHeaderSize ≤ elf.data.len

-- Neither the program headers nor the areas of a program lie outside of their bounds.
structure ElfConfined (arch : Arch) (readInterpreter : String → Option Slice) (frames : Frames) (data : Slice) :
    Prop where
  headers : ∀ elf, ElfFile.parse arch data = .ok elf → elf.HeadersInside
  areas   : ∀ plan loaded, ExecPlan.ofData arch readInterpreter data = .ok plan → plan.load arch frames = .ok loaded →
              ∀ area ∈ loaded.memorySet.areas, arch.insideUser area.startVa area.endVa

-- The last entry of the program header table lies inside of the data.
def ElfFile.tableFits (elf : ElfFile) : Bool :=
  elf.header.ePhnum = 0 ||
    elf.header.ePhoff + (elf.header.ePhnum - 1) * elf.header.ePhentsize + programHeaderSize ≤ elf.data.len

-- The pages of a segment may be mapped by user code.
def ProgramHeader.insideUser (ph : ProgramHeader) (arch : Arch) (bias : Nat) : Bool :=
  match alignUp (Usize.wrappingAdd (Usize.wrappingAdd ph.pVaddr ph.pMemsz) bias) with
  | none => false
  | some stop => arch.insideUser (alignDown (Usize.wrappingAdd ph.pVaddr bias)) stop

end WllOs
