import WllOs.Library.RunMap
import WllOs.Mm.PageTable

namespace WllOs

inductive PageState
  | priv
  | cow
  | shared
  | fileClean
  | fileDirty
  deriving DecidableEq, Repr

-- A resident user page. The frame stands for the `FrameTracker` that owns it.
structure ResidentPage where
  frame : Ppn
  state : PageState
  deriving DecidableEq, Repr

def ResidentPage.new (frame : Ppn) : ResidentPage :=
  ⟨frame, .priv⟩

structure ResidentSet where
  runs : RunMap.Runs ResidentPage
  count : Nat
  deriving DecidableEq, Repr

-- An `unreachable!` arm of the source was reached.
inductive Unreachable
  | unreachable
  deriving DecidableEq, Repr

abbrev Checked := Except Unreachable

def Checked.unwrap : Except ε α → Checked α
  | .ok a    => .ok a
  | .error _ => .error .unreachable

namespace ResidentSet

open RunMap (insertKey eraseKey findKey lastLE lastLT at? vals)

def new : ResidentSet where
  runs := []
  count := 0

def isEmpty (self : ResidentSet) : Bool :=
  self.count = 0

def len (self : ResidentSet) : Nat :=
  self.count

def lookup (self : ResidentSet) (vpn : Nat) : Option ResidentPage :=
  (lastLE self.runs vpn).bind (at? · vpn)

-- `lookup_mut` followed by an assignment to the page it returns.
def update (self : ResidentSet) (vpn : Nat) (f : ResidentPage → ResidentPage) : ResidentSet :=
  match lastLE self.runs vpn with
  | none => self
  | some (start, _) =>
    { self with
      runs := self.runs.map fun r => if r.1 = start then (r.1, r.2.modify (vpn - start) f) else r }

def iter (self : ResidentSet) : List ResidentPage :=
  vals self.runs

-- `iter_mut` with an assignment to each page.
def updateAll (self : ResidentSet) (f : ResidentPage → ResidentPage) : ResidentSet :=
  { self with runs := self.runs.map fun r => (r.1, r.2.map f) }

-- The step of `coalesce_adjacent` that appends a run to the one that ends where it starts.
def joinLeft (runs : RunMap.Runs ResidentPage) (startVpn : Nat) (run : List ResidentPage) :
    Nat × List ResidentPage × RunMap.Runs ResidentPage :=
  match lastLT runs startVpn with
  | none => (startVpn, run, runs)
  | some (leftStart, left) =>
    if Usize.saturatingAdd leftStart left.length = startVpn then
      (leftStart, left ++ run, eraseKey runs leftStart)
    else
      (startVpn, run, runs)

-- The step of `coalesce_adjacent` that extends a run by the one that starts where it ends.
def joinRight (runs : RunMap.Runs ResidentPage) (key : Nat) (run : List ResidentPage) :
    List ResidentPage × RunMap.Runs ResidentPage :=
  let rightStart := Usize.saturatingAdd key run.length
  match findKey runs rightStart with
  | none => (run, runs)
  | some right => (run ++ right, eraseKey runs rightStart)

def coalesceAdjacent (self : ResidentSet) (startVpn : Nat) : ResidentSet :=
  match findKey self.runs startVpn with
  | none => self
  | some run =>
    let (key, run, runs) := joinLeft (eraseKey self.runs startVpn) startVpn run
    let (run, runs) := joinRight runs key run
    { self with runs := insertKey runs key run }

-- Whether one of the `n` pages from `startVpn` on is already resident.
def collides (self : ResidentSet) (startVpn n : Nat) : Bool :=
  (List.range n).any fun offset => (self.lookup (Usize.saturatingAdd startVpn offset)).isSome

def insertRunPages (self : ResidentSet) (startVpn : Nat) (pages : List ResidentPage) :
    Except (List ResidentPage) ResidentSet :=
  if pages.isEmpty || self.collides startVpn pages.length then
    .error pages
  else
    let runs := insertKey self.runs startVpn pages
    let count := Usize.saturatingAdd self.count pages.length
    .ok (coalesceAdjacent ⟨runs, count⟩ startVpn)

def insertPage (self : ResidentSet) (page : ResidentPage) (vpn : Nat) :
    Except ResidentPage ResidentSet :=
  match self.insertRunPages vpn [page] with
  | .ok self     => .ok self
  | .error pages => .error (pages.getLast?.getD page)

def insert (self : ResidentSet) (vpn : Nat) (page : Ppn) : Checked (Except Ppn ResidentSet) :=
  if (self.lookup vpn).isSome then
    .ok (.error page)
  else do
    let self ← Checked.unwrap (self.insertPage (.new page) vpn)
    return .ok self

def insertPageWithState (self : ResidentSet) (vpn : Nat) (page : ResidentPage) :
    Except Ppn ResidentSet :=
  match self.insertPage page vpn with
  | .ok self    => .ok self
  | .error page => .error page.frame

def insertRun (self : ResidentSet) (startVpn : Nat) (pages : List Ppn) :
    Checked (Except (List Ppn) ResidentSet) :=
  if self.collides startVpn pages.length then
    .ok (.error pages)
  else do
    let self ← Checked.unwrap (self.insertRunPages startVpn (pages.map .new))
    return .ok self

def insertRunWithState (self : ResidentSet) (startVpn : Nat) (pages : List Ppn) (state : PageState) :
    Except (List Ppn) ResidentSet :=
  if self.collides startVpn pages.length then
    .error pages
  else
    match self.insertRunPages startVpn (pages.map (⟨·, state⟩)) with
    | .ok self     => .ok self
    | .error pages => .error (pages.map (·.frame))

-- The guarded insertions of `extract_range`, which skip a part of a run that has no pages.
def insertPart (self : ResidentSet) (guard : Bool) (startVpn : Nat) (pages : List ResidentPage) :
    Checked ResidentSet :=
  if guard then Checked.unwrap (self.insertRunPages startVpn pages) else .ok self

-- The body of the loop of `extract_range` for one of the old runs. The first set collects what stays
-- and the second one what is extracted.
def extractRun (startVpn endVpn : Nat) (run : Nat × List ResidentPage)
    (self extracted : ResidentSet) : Checked (ResidentSet × ResidentSet) := do
  let (runStart, pages) := run
  let runEnd := Usize.saturatingAdd runStart pages.length
  let overlapStart := max startVpn runStart
  let overlapEnd := min endVpn runEnd
  if overlapStart ≥ overlapEnd then
    let self ← Checked.unwrap (self.insertRunPages runStart pages)
    return (self, extracted)
  else
    let leftLen := overlapStart - runStart
    let self ← self.insertPart (leftLen ≠ 0) runStart (pages.take leftLen)
    let pages := pages.drop leftLen
    let middleLen := overlapEnd - overlapStart
    let extracted ←
      Checked.unwrap (extracted.insertRunPages (overlapStart - startVpn) (pages.take middleLen))
    let pages := pages.drop middleLen
    let self ← self.insertPart (!pages.isEmpty) overlapEnd pages
    return (self, extracted)

def extractRuns (startVpn endVpn : Nat) :
    RunMap.Runs ResidentPage → ResidentSet → ResidentSet → Checked (ResidentSet × ResidentSet)
  | [], self, extracted => .ok (self, extracted)
  | run :: runs, self, extracted => do
    let (self, extracted) ← extractRun startVpn endVpn run self extracted
    extractRuns startVpn endVpn runs self extracted

-- Returns what is left of the set and the extracted range, whose keys are shifted to zero.
def extractRange (self : ResidentSet) (startVpn endVpn : Nat) :
    Checked (Option (ResidentSet × ResidentSet)) :=
  if startVpn > endVpn then
    .ok none
  else do
    let sets ← extractRuns startVpn endVpn self.runs new new
    return some sets

def splitOff (self : ResidentSet) (vpn : Nat) : Checked (Option (ResidentSet × ResidentSet)) :=
  if vpn = 0 then
    .ok (some (new, self))
  else
    let last := self.runs.getLast?.map fun r => Usize.saturatingAdd r.1 r.2.length
    self.extractRange vpn (max (last.getD vpn) vpn)

-- The loop of `merge_from_at` over the runs of the other set, which is left empty.
def mergeRuns (offset : Nat) : RunMap.Runs ResidentPage → ResidentSet → Checked ResidentSet
  | [], self => .ok self
  | (start, pages) :: runs, self => do
    let self ← Checked.unwrap (self.insertRunPages (Usize.saturatingAdd start offset) pages)
    mergeRuns offset runs self

def mergeFromAt (self : ResidentSet) (offset : Nat) (other : ResidentSet) : Checked ResidentSet :=
  mergeRuns offset other.runs self

def iterRange (self : ResidentSet) (startVpn endVpn : Nat) : List (Nat × ResidentPage) :=
  (self.runs.filter (·.1 < endVpn)).flatMap fun (runStart, pages) =>
    let first := min (startVpn - runStart) pages.length
    let last := min (endVpn - runStart) pages.length
    ((pages.zipIdx.drop first).take (last - first)).map fun (page, offset) =>
      (runStart + offset, page)

def intoFrames (self : ResidentSet) : List Ppn :=
  (vals self.runs).map (·.frame)

-- Returns the new set and the old one.
def replaceAll (self : ResidentSet) (pages : List Ppn) : Checked (ResidentSet × ResidentSet) := do
  match ← new.insertRun 0 pages with
  | .ok set  => return (set, self)
  | .error _ => return (new, self)

-- The runs of a set are maximal, and the set counts their pages.
structure WF (set : ResidentSet) : Prop where
  canonical : RunMap.Canonical set.runs
  count_eq  : set.count = (vals set.runs).length
  bound     : ∀ r ∈ set.runs, r.1 + r.2.length ≤ Usize.max

end ResidentSet

end WllOs
