import WllOs.Library.TableTree
import WllOs.Mm.Coherence

namespace WllOs

-- The page tables with all of their levels. Both architectures have three, and `map_page` takes the frames of the
-- tables that are missing from the allocator of the data frames.
abbrev PageTables := TableTree Pte 2

namespace PageTables

def pteNumInPage : Nat := 512

-- The virtual page numbers that the walk does not tell apart.
def SameEntry (vpn vpn' : Nat) : Prop :=
  TableTree.SameSlot pteNumInPage 2 vpn vpn'

def translate (self : PageTables) (vpn : Nat) : Option Pte :=
  self.lookup pteNumInPage 2 vpn

-- There is no result if a table gets no frame. The source then uses the memory at physical address zero as a table.
def mapPage (self : PageTables) (vpn : Nat) (ppn : Ppn) (flags : MappingFlags) (free : List Ppn) :
    Option (PageTables × List Ppn) :=
  self.map pteNumInPage 2 vpn (if flags.isEmpty then none else some ⟨ppn, flags⟩) free

def unmapPage (self : PageTables) (vpn : Nat) : PageTables :=
  self.unmap pteNumInPage 2 vpn

def unmapPages (self : PageTables) (vpns : List Nat) : PageTables :=
  vpns.foldl unmapPage self

-- The loop of `insert_shared_framed_area`.
def mapPages (flags : MappingFlags) : (pages : List (Nat × Ppn)) → PageTables → (free : List Ppn) →
    Option (PageTables × List Ppn)
  | [], self, free => some (self, free)
  | (vpn, ppn) :: pages, self, free =>
    match self.mapPage vpn ppn flags free with
    | none              => none
    | some (self, free) => mapPages flags pages self free

end PageTables

-- An address space whose page tables are not only the translations that they make up.
structure PagedSpace where
  tables : PageTables
  areas : List MapArea

namespace PagedSpace

def newBare : PagedSpace where
  tables := TableTree.empty 2
  areas := []

def publish (self : PagedSpace) (area : MapArea) : PagedSpace :=
  { self with areas := (MemorySet.coalesceAreas ⟨.empty, self.areas ++ [area]⟩).areas }

-- The loop of `insert_framed_area_with_backing`. The area is dropped with its frames if the insertion fails.
def insertFrames (permission : PTEFlags) (startVpn : Nat) :
    (pages vpn : Nat) → PageTables → MapArea → (free : List Ppn) →
    Option (PageTables × List Ppn × Except SysErrNo MapArea)
  | 0, _, tables, area, free => some (tables, free, .ok area)
  | _ + 1, vpn, tables, area, [] =>
    some (tables.unmapPages (List.range' startVpn (vpn - startVpn)), area.resident.intoFrames, .error .ENOMEM)
  | pages + 1, vpn, tables, area, frame :: free =>
    let mapped :=
      if permission.hasLeafPermission then
        tables.mapPage vpn frame (effectiveMappingFlags permission) free
      else
        some (tables, free)
    match mapped with
    | none => none
    | some (tables, free) =>
      match area.appendResident frame with
      | .ok (.ok area) => insertFrames permission startVpn pages (vpn + 1) tables area free
      | _              => some (tables, frame :: area.resident.intoFrames ++ free, .error .EFAULT)

-- Returns the frames that are free afterwards. There is no result if a page table gets no frame.
def insertFramedAreaWithBacking (self : PagedSpace) (free : List Ppn) (startVa endVa : Nat) (permission : PTEFlags)
    (backing : MapAreaBacking) : Option (PagedSpace × List Ppn × Except SysErrNo Unit) :=
  match MemorySet.pageRange startVa endVa with
  | none => some (self, free, .error .EINVAL)
  | some (start, stop) =>
    let area := MapArea.withBacking start stop permission backing
    if !permission.hasLeafPermission then
      some (self.publish area, free, .ok ())
    else
      let startVpn := start / pageSize
      let endVpn := stop / pageSize
      match insertFrames permission startVpn (endVpn - startVpn) startVpn self.tables area free with
      | none => none
      | some (tables, free, .error error) => some ({ self with tables }, free, .error error)
      | some (tables, free, .ok area) => some ({ self with tables }.publish (MemorySet.markShared area), free, .ok ())

def insertFramedArea (self : PagedSpace) (free : List Ppn) (startVa endVa : Nat) (permission : PTEFlags) :
    Option (PagedSpace × List Ppn × Except SysErrNo Unit) :=
  self.insertFramedAreaWithBacking free startVa endVa permission .anonymous

def insertSharedFramedArea (self : PagedSpace) (free : List Ppn) (startVa endVa : Nat) (permission : PTEFlags)
    (backing : MapAreaBacking) (frames : List Ppn) : Option (PagedSpace × List Ppn × Except SysErrNo Unit) :=
  match MemorySet.pageRange startVa endVa with
  | none => some (self, free, .error .EINVAL)
  | some (start, stop) =>
    if frames.length ≠ (stop - start) / pageSize then
      some (self, free, .error .EINVAL)
    else if MemorySet.rangeOverlaps ⟨.empty, self.areas⟩ start stop then
      some (self, free, .error .ENOMEM)
    else
      match (MapArea.withBacking start stop permission backing).replaceResident frames with
      | .error _ => some (self, free, .error .EFAULT)
      | .ok (area, _) =>
        let pages := (area.resident.iterRange 0 area.pageCount).map fun (idx, page) =>
          ((start + idx * pageSize) / pageSize, page.frame)
        let mapped :=
          if permission.hasLeafPermission then
            PageTables.mapPages (effectiveMappingFlags permission) pages self.tables free
          else
            some (self.tables, free)
        match mapped with
        | none => none
        | some (tables, free) => some ({ self with tables }.publish area, free, .ok ())

-- Every entry belongs to a page of one of the areas.
structure Sound (space : PagedSpace) : Prop where
  areas  : ∀ area ∈ space.areas, area.WF
  backed : ∀ vpn pte, space.tables.translate vpn = some pte →
            ∃ vpn', PageTables.SameEntry vpn vpn' ∧ ∃ area ∈ space.areas, area.contains (vpn' * pageSize)

-- No page of the range has the entry of a page of an area.
def Apart (self : PagedSpace) (startVa endVa : Nat) : Prop :=
  ∀ start stop, MemorySet.pageRange startVa endVa = some (start, stop) →
    ∀ vpn vpn', start / pageSize ≤ vpn → vpn < stop / pageSize → PageTables.SameEntry vpn vpn' →
      ∀ area ∈ self.areas, ¬area.contains (vpn' * pageSize)

-- The range overlaps no area.
def RangeFree (self : PagedSpace) (startVa endVa : Nat) : Prop :=
  ∀ start stop, MemorySet.pageRange startVa endVa = some (start, stop) →
    ∀ area ∈ self.areas, ¬area.overlaps start stop

-- The entries of all tables and the free frames are as before.
def Unchanged (self : PagedSpace) (free : List Ppn) (after : PagedSpace) (free' : List Ppn) : Prop :=
  after = self ∧ free'.Perm free

-- The areas with their resident pages and the translations are as before, and so are the free frames, but for the ones
-- of tables that are added.
structure Undone (before : PagedSpace) (free : List Ppn) (after : PagedSpace) (free' : List Ppn) : Prop where
  areas        : after.areas = before.areas
  translations : ∀ vpn, after.tables.translate vpn = before.tables.translate vpn
  tables       : TableTree.Extends 2 before.tables after.tables
  frames       : ∃ added, (added ++ free').Perm free ∧ ∀ frame ∈ added, TableTree.Holds 2 after.tables frame

end PagedSpace

end WllOs
