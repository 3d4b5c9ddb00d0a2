import WllOs.Mm.ResidentSet

namespace WllOs

inductive MapAreaBacking
  | anonymous
  | anonymousShared
  | file (file : FileDescriptor) (offset : Nat) (shared : Bool)
  | sharedMemory (shmid base offset : Nat)
  deriving DecidableEq, Repr

namespace MapAreaBacking

def splitRight (self : MapAreaBacking) (delta : Nat) : MapAreaBacking :=
  match self with
  | anonymous                      => anonymous
  | anonymousShared                => anonymousShared
  | file f offset shared           => file f (Usize.saturatingAdd offset delta) shared
  | sharedMemory shmid base offset => sharedMemory shmid base (Usize.saturatingAdd offset delta)

def sameFile (left right : FileDescriptor) : Bool :=
  left.sameFileIdentity right

def canMergeWith (self : MapAreaBacking) (leftLen : Nat) (right : MapAreaBacking) : Bool :=
  match self, right with
  | anonymous, anonymous             => true
  | anonymousShared, anonymousShared => true
  | file leftFile leftOffset leftShared, file rightFile rightOffset rightShared =>
    leftShared = rightShared
      && sameFile leftFile rightFile
      && Usize.saturatingAdd leftOffset leftLen = rightOffset
  | sharedMemory leftShmid leftBase leftOffset, sharedMemory rightShmid rightBase rightOffset =>
    leftShmid = rightShmid
      && leftBase = rightBase
      && Usize.saturatingAdd leftOffset leftLen = rightOffset
  | _, _ => false

-- `MapAreaBacking::Anonymous | MapAreaBacking::File { shared: false, .. }`
def isPrivate : MapAreaBacking → Bool
  | anonymous | file _ _ false => true
  | _ => false

end MapAreaBacking

-- Virtual memory area (VMA).
structure MapArea where
  startVa : Nat
  endVa : Nat
  flags : PTEFlags
  resident : ResidentSet
  backing : MapAreaBacking
  deriving DecidableEq, Repr

namespace MapArea

def withBacking (startVa endVa : Nat) (flags : PTEFlags) (backing : MapAreaBacking) : MapArea where
  startVa := startVa
  endVa := endVa
  flags := flags
  resident := .new
  backing := backing

def size (self : MapArea) : Nat :=
  self.endVa - self.startVa

def contains (self : MapArea) (va : Nat) : Bool :=
  self.startVa ≤ va && va < self.endVa

def pageCount (self : MapArea) : Nat :=
  self.size / pageSize

def hasFrames (self : MapArea) : Bool :=
  !self.resident.isEmpty

-- Returns the area and the resident pages that were taken from it.
def extractResidentRange (self : MapArea) (startVpn endVpn : Nat) : Checked (MapArea × ResidentSet) := do
  match ← self.resident.extractRange startVpn endVpn with
  | some (resident, extracted) => return ({ self with resident }, extracted)
  | none                       => return (self, .new)

def appendResident (self : MapArea) (page : Ppn) : Checked (Except Ppn MapArea) := do
  match ← self.resident.insert self.resident.len page with
  | .ok resident => return .ok { self with resident }
  | .error page  => return .error page

def insertResidentPage (self : MapArea) (vpn : Nat) (page : Ppn) (state : PageState) :
    Except Ppn MapArea :=
  match self.resident.insertPageWithState vpn ⟨page, state⟩ with
  | .ok resident => .ok { self with resident }
  | .error page  => .error page

def insertResidentRun (self : MapArea) (startVpn : Nat) (pages : List Ppn) (state : PageState) :
    Except (List Ppn) MapArea :=
  match self.resident.insertRunWithState startVpn pages state with
  | .ok resident => .ok { self with resident }
  | .error pages => .error pages

-- Returns the area and the frame that was replaced in it.
def replaceResidentPage (self : MapArea) (vpn : Nat) (frame : Ppn) : Except Ppn (MapArea × Ppn) :=
  match self.resident.lookup vpn with
  | none => .error frame
  | some old =>
    .ok ({ self with resident := self.resident.update vpn fun page => { page with frame } }, old.frame)

def setResidentState (self : MapArea) (vpn : Nat) (state : PageState) : MapArea :=
  { self with resident := self.resident.update vpn fun page => { page with state } }

def setAllResidentState (self : MapArea) (state : PageState) : MapArea :=
  { self with resident := self.resident.updateAll fun page => { page with state } }

-- Returns the area and the resident pages that were replaced in it.
def replaceResident (self : MapArea) (pages : List Ppn) : Checked (MapArea × ResidentSet) := do
  let (resident, old) ← self.resident.replaceAll pages
  return ({ self with resident }, old)

def cloneResidentFrom (self source : MapArea) : MapArea :=
  { self with resident := source.resident }

def overlaps (self : MapArea) (start stop : Nat) : Bool :=
  self.startVa < stop && start < self.endVa

def canMergeWith (self next : MapArea) : Bool :=
  self.endVa = next.startVa
    && self.flags = next.flags
    && self.backing.canMergeWith self.size next.backing

def mergeWith (self next : MapArea) : Checked MapArea := do
  let resident ← self.resident.mergeFromAt self.pageCount next.resident
  return { self with endVa := next.endVa, resident }

-- The resident pages before and from a page index on.
def splitResident (self : MapArea) (rightIdx : Nat) : Checked (Option (ResidentSet × ResidentSet)) :=
  if self.resident.isEmpty then .ok (some (self.resident, .new))
  else self.resident.splitOff rightIdx

-- Returns what is left of the area and the part that was split off.
def splitAt (self : MapArea) (splitVa : Nat) : Checked (Option (MapArea × MapArea)) :=
  if splitVa ≤ self.startVa || splitVa ≥ self.endVa then
    .ok none
  else if splitVa % pageSize ≠ 0 then
    .ok none
  else do
    let rightIdx := (splitVa - self.startVa) / pageSize
    match ← self.splitResident rightIdx with
    | none => return none
    | some (leftResident, rightResident) =>
      let left := { self with endVa := splitVa, resident := leftResident }
      let right := {
        startVa := splitVa
        endVa := self.endVa
        flags := self.flags
        resident := rightResident
        backing := self.backing.splitRight (splitVa - self.startVa)
      }
      return some (left, right)

end MapArea

-- What a single page is backed by. A file stands for its identity, since areas over descriptors of
-- the same file are merged.
inductive PageBacking
  | anonymous
  | anonymousShared
  | file (file : FileDescriptor.Identity) (offset : Nat) (shared : Bool)
  | sharedMemory (shmid base offset : Nat)
  deriving DecidableEq, Repr

def PageBacking.isPrivate : PageBacking → Bool
  | anonymous | file _ _ false => true
  | _ => false

-- The backing of the page that lies `delta` bytes into an area.
def MapAreaBacking.page (delta : Nat) : MapAreaBacking → PageBacking
  | anonymous                      => .anonymous
  | anonymousShared                => .anonymousShared
  | file f offset shared           => .file f.identity (Usize.saturatingAdd offset delta) shared
  | sharedMemory shmid base offset => .sharedMemory shmid base (Usize.saturatingAdd offset delta)

-- The meaning of a page of an area.
structure PageView where
  flags : PTEFlags
  backing : PageBacking
  page : Option ResidentPage
  deriving DecidableEq, Repr

namespace MapArea

def view (area : MapArea) (vpn : Nat) : Option PageView :=
  if area.startVa ≤ vpn * pageSize ∧ vpn * pageSize < area.endVa then
    some {
      flags := area.flags
      backing := area.backing.page (vpn * pageSize - area.startVa)
      page := area.resident.lookup ((vpn * pageSize - area.startVa) / pageSize)
    }
  else
    none

structure WF (area : MapArea) : Prop where
  start_aligned : area.startVa % pageSize = 0
  end_aligned   : area.endVa % pageSize = 0
  start_lt_end  : area.startVa < area.endVa
  end_le_max    : area.endVa ≤ Usize.max
  resident      : area.resident.WF
  index_lt      : ∀ n, area.resident.lookup n ≠ none → n < area.pageCount
  cow_private   : ∀ n page, area.resident.lookup n = some page → page.state = .cow →
                    area.backing.isPrivate

end MapArea

-- The areas that contain a page give it its meanings. Areas that overlap may give it more than one.
def Views (areas : List MapArea) (vpn : Nat) (view : PageView) : Prop :=
  ∃ area ∈ areas, area.view vpn = some view

end WllOs
