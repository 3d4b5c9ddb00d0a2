import WllOs.Library.BinarySearch
import WllOs.Mm.MapArea

namespace WllOs

-- The contents of physical memory and the frames that the allocator hands out next.
structure Frames where
  mem : Ppn → Page
  supply : List Ppn

namespace Frames

-- Frames are handed out zeroed.
def allocFrame (frames : Frames) : Option (Ppn × Frames) :=
  match frames.supply with
  | []              => none
  | frame :: supply => some (frame, ⟨Function.update frames.mem frame .zero, supply⟩)

def copy (frames : Frames) (src dst : Ppn) : Frames :=
  { frames with mem := Function.update frames.mem dst (frames.mem src) }

def write (frames : Frames) (dst : Ppn) (data : Page) : Frames :=
  { frames with mem := Function.update frames.mem dst data }

end Frames

-- What a memory set reads from the rest of the kernel: the number of owners of a frame, the clean page
-- cache of the file system, and the contents of files.
structure Env where
  refCount : Ppn → Nat
  canUseCleanPageCache : (ino : Nat) → Bool
  cleanPageCacheFrames : (ino fileOffset maxPages readAheadPages : Nat) → Except SysErrNo (List Ppn)
  readAt : FileDescriptor → (offset : Nat) → Except SysErrNo Page

def effectiveMappingFlags (flags : PTEFlags) : MappingFlags :=
  .ofPTEFlags (if flags.cow then { flags with w := false } else flags)

def effectiveMappingFlagsForPage (flags : PTEFlags) (page : ResidentPage) : MappingFlags :=
  .ofPTEFlags (if page.state = .cow then { flags with w := false } else flags)

def isPrivateCowCandidate (area : MapArea) : Bool :=
  area.backing.isPrivate && area.hasFrames && area.flags.w && area.flags.hasLeafPermission

def isReadonlyShareCandidate (area : MapArea) : Bool :=
  (match area.backing with
    | .anonymous | .file .. => true
    | _ => false)
    && area.hasFrames && !area.flags.w && area.flags.hasLeafPermission

def isSharedMapping (area : MapArea) : Bool :=
  match area.backing with
  | .anonymousShared | .sharedMemory .. | .file _ _ true => true
  | _ => false

-- The entry for a resident page of an area.
def pageEntry (area : MapArea) (idx : Nat) (page : ResidentPage) : Nat × Ppn × MappingFlags :=
  ((area.startVa + idx * pageSize) / pageSize, page.frame,
    effectiveMappingFlagsForPage area.flags page)

def mapAreaPages (pageTable : PageTable) (area : MapArea) : PageTable :=
  if !area.flags.hasLeafPermission then
    pageTable
  else
    pageTable.mapPagesWithoutFlush <|
      (area.resident.iterRange 0 area.pageCount).map fun (idx, page) => pageEntry area idx page

def mapAreaPage (pageTable : PageTable) (area : MapArea) (vpn : Nat) : PageTable :=
  match area.resident.lookup vpn with
  | none => pageTable
  | some page =>
    if !area.flags.hasLeafPermission then
      pageTable
    else
      let (vpn, frame, flags) := pageEntry area vpn page
      pageTable.mapPage vpn frame flags

def mapAreaPageWindow (pageTable : PageTable) (area : MapArea) (startIdx pageCount : Nat) : PageTable :=
  if !area.flags.hasLeafPermission then
    pageTable
  else
    let endIdx := min (Usize.saturatingAdd startIdx pageCount) area.pageCount
    pageTable.mapPagesWithoutFlush <|
      (area.resident.iterRange startIdx endIdx).map fun (idx, page) => pageEntry area idx page

def unmapAreaPages (pageTable : PageTable) (area : MapArea) (flags : PTEFlags) : PageTable :=
  if !flags.hasLeafPermission || !area.hasFrames then
    pageTable
  else
    pageTable.unmapPagesWithoutFlush <|
      (area.resident.iterRange 0 area.pageCount).map fun (idx, _) =>
        (area.startVa + idx * pageSize) / pageSize

def unmapAreaResidentRange (pageTable : PageTable) (area : MapArea) (startIdx endIdx : Nat) :
    PageTable :=
  if !area.flags.hasLeafPermission || startIdx ≥ endIdx then
    pageTable
  else
    pageTable.unmapPagesWithoutFlush <|
      (area.resident.iterRange startIdx endIdx).map fun (idx, _) =>
        (area.startVa + idx * pageSize) / pageSize

def remapAreaPages (pageTable : PageTable) (area : MapArea) (oldFlags : PTEFlags) : PageTable :=
  mapAreaPages (unmapAreaPages pageTable area oldFlags) area

def readBackingPage (env : Env) (backing : MapAreaBacking) (pageOffset : Nat) : Except SysErrNo Page :=
  match backing with
  | .file file offset _ => env.readAt file (Usize.saturatingAdd pageOffset offset)
  | .anonymous | .anonymousShared | .sharedMemory .. => .ok .zero

-- Per-process address space.
structure MemorySet where
  pageTable : PageTable
  areas : List MapArea

namespace MemorySet

def newBare : MemorySet where
  pageTable := .empty
  areas := []

def translate (self : MemorySet) (vaddr : Nat) : Option Pte :=
  self.pageTable (vaddr / pageSize)

-- Where an address lies relative to an area.
def locate (addr : Nat) (area : MapArea) : Ordering :=
  if addr < area.startVa then .lt else if addr ≥ area.endVa then .gt else .eq

def areaIndexContaining (self : MemorySet) (addr : Nat) : Option Nat :=
  BinarySearch.find self.areas (locate addr) self.areas.length 0 self.areas.length

-- The area that the lookup finds, with its index.
def areaContaining (self : MemorySet) (addr : Nat) : Option (Nat × MapArea) := do
  let index ← self.areaIndexContaining addr
  let area ← self.areas[index]?
  return (index, area)

def firstAreaEndingAfter (self : MemorySet) (addr : Nat) : Nat :=
  BinarySearch.partitionPoint self.areas (·.endVa ≤ addr) self.areas.length 0 self.areas.length

def sortAreas (areas : List MapArea) : List MapArea :=
  areas.insertionSort (·.startVa ≤ ·.startVa)

-- Merges neighbors from an area on, up to the first area that starts at or after the bound. The result
-- of a merge is compared with the area that follows next.
def coalesceFrom (bound : Option Nat) (area : MapArea) : List MapArea → List MapArea
  | [] => [area]
  | next :: rest =>
    if bound.any (· ≤ area.startVa) then
      area :: next :: rest
    else if area.canMergeWith next then
      match area.mergeWith next with
      | .ok merged => coalesceFrom bound merged rest
      | .error _   => area :: coalesceFrom bound next rest
    else
      area :: coalesceFrom bound next rest

def coalesceAreas (self : MemorySet) : MemorySet :=
  match sortAreas self.areas with
  | []           => { self with areas := [] }
  | area :: rest => { self with areas := coalesceFrom none area rest }

def coalesceChangedRange (self : MemorySet) (start stop : Nat) : MemorySet :=
  if self.areas.length < 2 then
    self
  else
    let index := self.firstAreaEndingAfter start - 1
    match self.areas.drop index with
    | []           => self
    | area :: rest =>
      { self with areas := self.areas.take index ++ coalesceFrom (some stop) area rest }

def splitAreaAt (self : MemorySet) (addr : Nat) : MemorySet :=
  if addr % pageSize ≠ 0 then
    self
  else
    match self.areaContaining addr with
    | none => self
    | some (index, area) =>
      match area.splitAt addr with
      | .ok (some (left, right)) =>
        { self with areas := (self.areas.set index left).insertIdx (index + 1) right }
      | _ => self

def rangeOverlaps (self : MemorySet) (start stop : Nat) : Bool :=
  if start ≥ stop then
    false
  else
    self.areas[self.firstAreaEndingAfter start]?.any (·.startVa < stop)

-- The loop of `range_covered`. It leaves an area with every step, so it visits none of them twice.
def rangeCoveredFrom (self : MemorySet) (stop : Nat) : (fuel cursor : Nat) → Bool
  | 0, cursor => cursor ≥ stop
  | fuel + 1, cursor =>
    if cursor < stop then
      match self.areaContaining cursor with
      | none           => false
      | some (_, area) => self.rangeCoveredFrom stop fuel area.endVa
    else
      true

def rangeCovered (self : MemorySet) (start stop : Nat) : Bool :=
  self.rangeCoveredFrom stop self.areas.length start

-- The loop of `find_free_area` over the areas from `index` on.
def findFreeAreaFrom (length limit : Nat) : List MapArea → (candidate : Nat) → Option Nat
  | [], candidate => do
    let stop ← Usize.checkedAdd candidate length
    if stop > limit then none else some candidate
  | area :: rest, candidate => do
    let stop ← Usize.checkedAdd candidate length
    if stop > limit then
      none
    else if area.endVa ≤ candidate then
      findFreeAreaFrom length limit rest candidate
    else if area.startVa ≥ stop then
      some candidate
    else
      findFreeAreaFrom length limit rest (← alignUp area.endVa)

def findFreeArea (self : MemorySet) (hint length limit : Nat) : Option Nat := do
  if length = 0 then
    none
  else
    let candidate ← alignUp (max hint pageSize)
    findFreeAreaFrom length limit (self.areas.drop (self.firstAreaEndingAfter candidate)) candidate

-- The loop of `insert_framed_area_with_backing` over the pages from `vpn` on. When the frames run out,
-- the pages before `vpn` are unmapped again.
def insertFrames (permission : PTEFlags) (startVpn : Nat) :
    (pages vpn : Nat) → PageTable → MapArea → Frames → PageTable × Frames × Except SysErrNo MapArea
  | 0, _, pageTable, area, frames => (pageTable, frames, .ok area)
  | pages + 1, vpn, pageTable, area, frames =>
    match frames.allocFrame with
    | none =>
      (pageTable.unmapPagesWithoutFlush (List.range' startVpn (vpn - startVpn)), frames, .error .ENOMEM)
    | some (frame, frames) =>
      let pageTable :=
        if permission.hasLeafPermission then
          pageTable.mapPage vpn frame (effectiveMappingFlags permission)
        else
          pageTable
      match area.appendResident frame with
      | .ok (.ok area) => insertFrames permission startVpn pages (vpn + 1) pageTable area frames
      | _              => (pageTable, frames, .error .EFAULT)

-- The page-aligned range of an insertion. The insertions fail with `EINVAL` if there is none.
def pageRange (startVa endVa : Nat) : Option (Nat × Nat) :=
  (alignUp endVa).bind fun stop =>
    if alignDown startVa ≥ stop then none else some (alignDown startVa, stop)

-- The pages of a shared mapping are marked as such.
def markShared (area : MapArea) : MapArea :=
  if isSharedMapping area then area.setAllResidentState .shared else area

def insertFramedAreaWithBacking (self : MemorySet) (frames : Frames) (startVa endVa : Nat)
    (permission : PTEFlags) (backing : MapAreaBacking) :
    MemorySet × Frames × Except SysErrNo Unit :=
  match pageRange startVa endVa with
  | none => (self, frames, .error .EINVAL)
  | some (start, stop) =>
    let area := MapArea.withBacking start stop permission backing
    if !permission.hasLeafPermission then
      (coalesceAreas { self with areas := self.areas ++ [area] }, frames, .ok ())
    else
      let startVpn := start / pageSize
      let endVpn := stop / pageSize
      match insertFrames permission startVpn (endVpn - startVpn) startVpn self.pageTable area frames with
      | (pageTable, frames, .error error) => ({ self with pageTable }, frames, .error error)
      | (pageTable, frames, .ok area) =>
        (coalesceAreas { pageTable, areas := self.areas ++ [markShared area] }, frames, .ok ())

def insertFramedArea (self : MemorySet) (frames : Frames) (startVa endVa : Nat)
    (permission : PTEFlags) : MemorySet × Frames × Except SysErrNo Unit :=
  self.insertFramedAreaWithBacking frames startVa endVa permission .anonymous

def insertLazyAreaWithBacking (self : MemorySet) (startVa endVa : Nat) (permission : PTEFlags)
    (backing : MapAreaBacking) : Except SysErrNo MemorySet :=
  match pageRange startVa endVa with
  | none => .error .EINVAL
  | some (start, stop) =>
    let area := MapArea.withBacking start stop permission backing
    .ok (coalesceAreas { self with areas := self.areas ++ [area] })

-- The loop of `insert_framed_area_with_frames`, whose frames stay with the caller.
def mapFrames (permission : PTEFlags) :
    (pages vpn : Nat) → PageTable → Frames → PageTable × Frames × List Ppn
  | 0, _, pageTable, frames => (pageTable, frames, [])
  | pages + 1, vpn, pageTable, frames =>
    match frames.allocFrame with
    | none => mapFrames permission pages (vpn + 1) pageTable frames
    | some (frame, frames) =>
      let pageTable :=
        if permission.hasLeafPermission then
          pageTable.mapPage vpn frame (effectiveMappingFlags permission)
        else
          pageTable
      let (pageTable, frames, owned) := mapFrames permission pages (vpn + 1) pageTable frames
      (pageTable, frames, frame :: owned)

def insertFramedAreaWithFrames (self : MemorySet) (frames : Frames) (startVa endVa : Nat)
    (permission : PTEFlags) : MemorySet × Frames × List Ppn :=
  let start := alignDown startVa
  let stop := (alignUp endVa).getD start
  let areas := sortAreas (self.areas ++ [.withBacking start stop permission .anonymous])
  let (pageTable, frames, owned) :=
    mapFrames permission (stop / pageSize - start / pageSize) (start / pageSize) self.pageTable frames
  ({ pageTable, areas }, frames, owned)

def insertSharedFramedArea (self : MemorySet) (startVa endVa : Nat) (permission : PTEFlags)
    (backing : MapAreaBacking) (frames : List Ppn) : Except SysErrNo MemorySet :=
  match pageRange startVa endVa with
  | none => .error .EINVAL
  | some (start, stop) =>
    if frames.length ≠ (stop - start) / pageSize then
      .error .EINVAL
    else if self.rangeOverlaps start stop then
      .error .ENOMEM
    else
      match (MapArea.withBacking start stop permission backing).replaceResident frames with
      | .error _ => .error .EFAULT
      | .ok (area, _) =>
        let pageTable :=
          if permission.hasLeafPermission then
            self.pageTable.mapPagesWithoutFlush <|
              (area.resident.iterRange 0 area.pageCount).map fun (idx, page) =>
                ((start + idx * pageSize) / pageSize, page.frame, effectiveMappingFlags permission)
          else
            self.pageTable
        .ok (coalesceAreas { pageTable, areas := self.areas ++ [area] })

-- The body of the loop of `discard_anonymous_range`, which also counts the discarded pages.
def discardArea (start stop : Nat) (area : MapArea) (pageTable : PageTable) : MapArea × PageTable × Nat :=
  if !area.overlaps start stop || area.backing ≠ .anonymous then
    (area, pageTable, 0)
  else
    let overlapStart := max start area.startVa
    let overlapEnd := min stop area.endVa
    let startIdx := (overlapStart - area.startVa) / pageSize
    let endIdx := (overlapEnd - area.startVa) / pageSize
    let pageTable := unmapAreaResidentRange pageTable area startIdx endIdx
    match area.extractResidentRange startIdx endIdx with
    | .ok (area, owner) => (area, pageTable, owner.len)
    | .error _          => (area, pageTable, 0)

def discardAreas (start stop : Nat) : List MapArea → PageTable → List MapArea × PageTable × Nat
  | [], pageTable => ([], pageTable, 0)
  | area :: rest, pageTable =>
    let (area, pageTable, owned) := discardArea start stop area pageTable
    let (rest, pageTable, discarded) := discardAreas start stop rest pageTable
    (area :: rest, pageTable, owned + discarded)

def discardAnonymousRange (self : MemorySet) (start stop : Nat) : Except SysErrNo (MemorySet × Nat) :=
  if start ≥ stop || start % pageSize ≠ 0 || stop % pageSize ≠ 0 then
    .error .EINVAL
  else if !self.rangeCovered start stop then
    .error .ENOMEM
  else
    let (areas, pageTable, discarded) := discardAreas start stop self.areas self.pageTable
    .ok ({ pageTable, areas }, discarded)

-- The loop of `unmap_range`.
def unmapAreas (start stop : Nat) : List MapArea → PageTable → List MapArea × PageTable
  | [], pageTable => ([], pageTable)
  | area :: rest, pageTable =>
    if area.overlaps start stop then
      unmapAreas start stop rest (unmapAreaPages pageTable area area.flags)
    else
      let (kept, pageTable) := unmapAreas start stop rest pageTable
      (area :: kept, pageTable)

def unmapRange (self : MemorySet) (start stop : Nat) : Except SysErrNo MemorySet :=
  if start ≥ stop || start % pageSize ≠ 0 || stop % pageSize ≠ 0 then
    .error .EINVAL
  else
    let self := (self.splitAreaAt start).splitAreaAt stop
    let (areas, pageTable) := unmapAreas start stop self.areas self.pageTable
    .ok (coalesceAreas { pageTable, areas })

def releaseUserAreas (self : MemorySet) : MemorySet where
  pageTable := self.areas.foldl (fun pageTable area => unmapAreaPages pageTable area area.flags)
    self.pageTable
  areas := []

-- The flags that an area gets when it is protected.
def protectedFlags (refCount : Ppn → Nat) (flags : PTEFlags) (area : MapArea) : PTEFlags :=
  if area.backing.isPrivate && flags.w && area.hasFrames
      && (area.flags.cow || area.resident.iter.any (refCount ·.frame > 1)) then
    { flags with cow := true }
  else
    flags

def protectArea (refCount : Ppn → Nat) (flags : PTEFlags) (area : MapArea) (pageTable : PageTable) :
    MapArea × PageTable :=
  let oldFlags := area.flags
  if oldFlags.withoutCow = flags then
    (area, pageTable)
  else
    let newFlags := protectedFlags refCount flags area
    let area := { area with flags := newFlags }
    if area.hasFrames && (oldFlags.hasLeafPermission || newFlags.hasLeafPermission) then
      if newFlags.hasLeafPermission then
        (area, mapAreaPages pageTable area)
      else
        (area, unmapAreaPages pageTable area oldFlags)
    else
      (area, pageTable)

-- The loop of `protect_range` over the areas from the first one that ends after its start.
def protectAreas (refCount : Ppn → Nat) (flags : PTEFlags) (stop : Nat) :
    List MapArea → PageTable → List MapArea × PageTable
  | [], pageTable => ([], pageTable)
  | area :: rest, pageTable =>
    if area.startVa < stop then
      let (area, pageTable) := protectArea refCount flags area pageTable
      let (rest, pageTable) := protectAreas refCount flags stop rest pageTable
      (area :: rest, pageTable)
    else
      (area :: rest, pageTable)

def protectRange (refCount : Ppn → Nat) (self : MemorySet) (start stop : Nat) (flags : PTEFlags) :
    Except SysErrNo MemorySet :=
  if start ≥ stop || start % pageSize ≠ 0 || stop % pageSize ≠ 0 then
    .error .EINVAL
  else if !self.rangeCovered start stop then
    .error .ENOMEM
  else
    let affected := (self.areas.drop (self.firstAreaEndingAfter start)).takeWhile (·.startVa < stop)
    if affected.all (·.flags.withoutCow = flags) then
      .ok self
    else
      let self := (self.splitAreaAt start).splitAreaAt stop
      let index := self.firstAreaEndingAfter start
      let (areas, pageTable) := protectAreas refCount flags stop (self.areas.drop index) self.pageTable
      .ok (coalesceChangedRange { pageTable, areas := self.areas.take index ++ areas } start stop)

end MemorySet

end WllOs

namespace WllOs.MemorySet

-- The loop of `fork_cow` that copies the resident pages of an area.
def copyPages (flags : PTEFlags) :
    List (Nat × ResidentPage) → MapArea → PageTable → Frames →
    Frames × Except SysErrNo (MapArea × PageTable)
  | [], newArea, pageTable, frames => (frames, .ok (newArea, pageTable))
  | (idx, srcPage) :: rest, newArea, pageTable, frames =>
    match frames.allocFrame with
    | none => (frames, .error .ENOMEM)
    | some (frame, frames) =>
      let frames := frames.copy srcPage.frame frame
      let pageTable :=
        if flags.hasLeafPermission then
          pageTable.mapPage ((newArea.startVa + idx * pageSize) / pageSize) frame
            (effectiveMappingFlagsForPage flags srcPage)
        else
          pageTable
      match newArea.insertResidentPage idx frame .priv with
      | .error _    => (frames, .error .EFAULT)
      | .ok newArea => copyPages flags rest newArea pageTable frames

-- Clones the resident pages of an area into a new area of the child, which is then published.
def shareArea (area newArea : MapArea) (child : MemorySet) : MemorySet :=
  let newArea := newArea.cloneResidentFrom area
  { pageTable := mapAreaPages child.pageTable newArea, areas := child.areas ++ [newArea] }

-- What `fork_cow` leaves of an area of the parent and of its page table, and the child with its new
-- area.
structure Forked where
  area : MapArea
  pageTable : PageTable
  frames : Frames
  child : Except SysErrNo MemorySet

def forkArea (area : MapArea) (pageTable : PageTable) (frames : Frames) (child : MemorySet) : Forked :=
  let newArea := MapArea.withBacking area.startVa area.endVa area.flags area.backing
  if isSharedMapping area then
    let area := area.setAllResidentState .shared
    ⟨area, pageTable, frames, .ok (shareArea area newArea child)⟩
  else if isPrivateCowCandidate area then
    let oldFlags := area.flags
    let needsParentRemap := !oldFlags.cow || area.resident.iter.any (·.state ≠ .cow)
    let area := { area.setAllResidentState .cow with flags := { oldFlags with cow := true } }
    let pageTable := if needsParentRemap then remapAreaPages pageTable area oldFlags else pageTable
    ⟨area, pageTable, frames, .ok (shareArea area { newArea with flags := area.flags } child)⟩
  else if isReadonlyShareCandidate area then
    let area := area.setAllResidentState .shared
    ⟨area, pageTable, frames, .ok (shareArea area newArea child)⟩
  else
    let pages := area.resident.iterRange 0 area.pageCount
    match copyPages area.flags pages newArea child.pageTable frames with
    | (frames, .error error) => ⟨area, pageTable, frames, .error error⟩
    | (frames, .ok (newArea, childTable)) =>
      ⟨area, pageTable, frames, .ok { pageTable := childTable, areas := child.areas ++ [newArea] }⟩

def forkAreas : List MapArea → PageTable → Frames → MemorySet →
    List MapArea × PageTable × Frames × Except SysErrNo MemorySet
  | [], pageTable, frames, child => ([], pageTable, frames, .ok child)
  | area :: rest, pageTable, frames, child =>
    let forked := forkArea area pageTable frames child
    match forked.child with
    | .error error => (forked.area :: rest, forked.pageTable, forked.frames, .error error)
    | .ok child =>
      let (rest, pageTable, frames, result) := forkAreas rest forked.pageTable forked.frames child
      (forked.area :: rest, pageTable, frames, result)

-- Returns the parent, which is changed even if no child is created.
def forkCow (self : MemorySet) (frames : Frames) : MemorySet × Frames × Except SysErrNo MemorySet :=
  let (areas, pageTable, frames, result) := forkAreas self.areas self.pageTable frames newBare
  let result :=
    match result with
    | .ok child    => .ok child.coalesceAreas
    | .error error => .error error
  ({ pageTable, areas }, frames, result)

end WllOs.MemorySet
