import WllOs.Mm.MapArea

namespace WllOs

-- The abstract counterpart of an area: the number of its pages and a partial map from page indices.
structure AbstractArea where
  pageCount : Nat
  pages : Nat → Option ResidentPage

def MapArea.abstract (area : MapArea) : AbstractArea where
  pageCount := area.pageCount
  pages := area.resident.lookup

-- The operations of an area that only concern its resident pages.
inductive AreaCall
  | appendResident (frame : Ppn)
  | insertResidentPage (vpn : Nat) (frame : Ppn) (state : PageState)
  | insertResidentRun (startVpn : Nat) (frames : List Ppn) (state : PageState)
  | replaceResidentPage (vpn : Nat) (frame : Ppn)
  | setResidentState (vpn : Nat) (state : PageState)
  | setAllResidentState (state : PageState)
  | replaceResident (frames : List Ppn)
  | extractResidentRange (startVpn endVpn : Nat)

namespace AreaCall

-- What the memory set observes when it makes a call: page indices come from addresses inside of the
-- area, replacements cover the whole area, and only `fork_cow` marks pages as copy-on-write, which it
-- does for private areas.
def allowed (area : MapArea) : AreaCall → Bool
  | appendResident _                     => area.resident.len < area.pageCount
  | insertResidentPage vpn _ state       => vpn < area.pageCount && state ≠ .cow
  | insertResidentRun start frames state => start + frames.length ≤ area.pageCount && state ≠ .cow
  | replaceResidentPage _ _              => true
  | setResidentState _ state             => state ≠ .cow
  | setAllResidentState state            => state = .cow → area.backing.isPrivate
  | replaceResident frames               => frames.length = area.pageCount
  | extractResidentRange _ _             => true

-- The frames that a call hands to the area.
def given : AreaCall → List Ppn
  | appendResident frame          => [frame]
  | insertResidentPage _ frame _  => [frame]
  | insertResidentRun _ frames _  => frames
  | replaceResidentPage _ frame   => [frame]
  | replaceResident frames        => frames
  | _                             => []

-- Returns the area and the frames that the caller gets back.
def run (area : MapArea) : AreaCall → Checked (MapArea × List Ppn)
  | appendResident frame => do
    match ← area.appendResident frame with
    | .ok area     => return (area, [])
    | .error frame => return (area, [frame])
  | insertResidentPage vpn frame state =>
    match area.insertResidentPage vpn frame state with
    | .ok area     => .ok (area, [])
    | .error frame => .ok (area, [frame])
  | insertResidentRun start frames state =>
    match area.insertResidentRun start frames state with
    | .ok area      => .ok (area, [])
    | .error frames => .ok (area, frames)
  | replaceResidentPage vpn frame =>
    match area.replaceResidentPage vpn frame with
    | .ok (area, old) => .ok (area, [old])
    | .error frame    => .ok (area, [frame])
  | setResidentState vpn state => .ok (area.setResidentState vpn state, [])
  | setAllResidentState state => .ok (area.setAllResidentState state, [])
  | replaceResident frames => do
    let (area, old) ← area.replaceResident frames
    return (area, old.intoFrames)
  | extractResidentRange start stop => do
    let (area, old) ← area.extractResidentRange start stop
    return (area, old.intoFrames)

-- What the call does to the partial map.
def spec (area : AbstractArea) : AreaCall → AbstractArea
  | appendResident frame =>
    let len := ((List.range area.pageCount).filterMap area.pages).length
    if area.pages len = none then { area with pages := Function.update area.pages len (some (.new frame)) }
    else area
  | insertResidentPage vpn frame state =>
    if area.pages vpn = none then
      { area with pages := Function.update area.pages vpn (some ⟨frame, state⟩) }
    else area
  | insertResidentRun start frames state =>
    if ∀ i < frames.length, area.pages (start + i) = none then
      { area with
        pages := fun n =>
          if start ≤ n ∧ n < start + frames.length then frames[n - start]?.map (⟨·, state⟩)
          else area.pages n }
    else area
  | replaceResidentPage vpn frame =>
    { area with
      pages := Function.update area.pages vpn ((area.pages vpn).map fun page => { page with frame }) }
  | setResidentState vpn state =>
    { area with
      pages := Function.update area.pages vpn ((area.pages vpn).map fun page => { page with state }) }
  | setAllResidentState state =>
    { area with pages := fun n => (area.pages n).map fun page => { page with state } }
  | replaceResident frames => { area with pages := fun n => frames[n]?.map .new }
  | extractResidentRange start stop =>
    { area with pages := fun n => if start ≤ n ∧ n < stop then none else area.pages n }

end AreaCall

namespace AbstractArea

def empty (pageCount : Nat) : AbstractArea where
  pageCount := pageCount
  pages := fun _ => none

def left (area : AbstractArea) (idx : Nat) : AbstractArea where
  pageCount := idx
  pages := fun n => if n < idx then area.pages n else none

def right (area : AbstractArea) (idx : Nat) : AbstractArea where
  pageCount := area.pageCount - idx
  pages := fun n => area.pages (n + idx)

def merge (area next : AbstractArea) : AbstractArea where
  pageCount := area.pageCount + next.pageCount
  pages := fun n =>
    if n < area.pageCount then area.pages n else next.pages (n - area.pageCount)

end AbstractArea

-- Areas as the memory sets of a system create, change and drop them, together with the partial maps
-- that the same operations build. The frames that were handed to areas so far and the ones that were
-- handed back are recorded.
structure AreaPool where
  areas : List MapArea
  maps : List AbstractArea
  given : List Ppn
  returned : List Ppn

inductive PoolCall
  | withBacking (startVa endVa : Nat) (flags : PTEFlags) (backing : MapAreaBacking)
  | area (i : Nat) (call : AreaCall)
  | cloneResidentFrom (i j : Nat)
  | splitAt (i va : Nat)
  | mergeWith (i j : Nat)
  | drop (i : Nat)

namespace AreaPool

def empty : AreaPool where
  areas := []
  maps := []
  given := []
  returned := []

-- Calls on areas that do not exist and calls that the memory set does not make are skipped.
def call (pool : AreaPool) : PoolCall → Checked AreaPool
  | .withBacking startVa endVa flags backing =>
    if startVa % pageSize = 0 ∧ endVa % pageSize = 0 ∧ startVa < endVa ∧ endVa ≤ Usize.max then
      .ok { pool with
        areas := pool.areas ++ [.withBacking startVa endVa flags backing]
        maps := pool.maps ++ [.empty ((endVa - startVa) / pageSize)] }
    else .ok pool
  | .area i call =>
    match pool.areas[i]? with
    | none => .ok pool
    | some area =>
      if call.allowed area then do
        let (area, returned) ← call.run area
        return {
          areas := pool.areas.set i area
          maps := pool.maps.modify i (call.spec ·)
          given := pool.given ++ call.given
          returned := pool.returned ++ returned
        }
      else .ok pool
  -- `fork_cow` clones the resident pages of an area into a new area over the same range.
  | .cloneResidentFrom i j =>
    match pool.areas[i]?, pool.areas[j]? with
    | some area, some source =>
      if area.startVa = source.startVa ∧ area.endVa = source.endVa ∧ area.backing = source.backing then
        .ok {
          areas := pool.areas.set i (area.cloneResidentFrom source)
          maps := pool.maps.set i source.abstract
          given := pool.given ++ source.resident.intoFrames
          returned := pool.returned ++ area.resident.intoFrames
        }
      else .ok pool
    | _, _ => .ok pool
  | .splitAt i va =>
    match pool.areas[i]?, pool.maps[i]? with
    | some area, some map => do
      match ← area.splitAt va with
      | none => return pool
      | some (left, right) =>
        let idx := (va - area.startVa) / pageSize
        return { pool with
          areas := pool.areas.set i left ++ [right]
          maps := pool.maps.set i (map.left idx) ++ [map.right idx] }
    | _, _ => .ok pool
  | .mergeWith i j =>
    match pool.areas[i]?, pool.areas[j]?, pool.maps[i]?, pool.maps[j]? with
    | some area, some next, some map, some map' =>
      if i ≠ j ∧ area.canMergeWith next then do
        let area ← area.mergeWith next
        return { pool with
          areas := (pool.areas.set i area).eraseIdx j
          maps := (pool.maps.set i (map.merge map')).eraseIdx j }
      else .ok pool
    | _, _, _, _ => .ok pool
  | .drop i =>
    match pool.areas[i]? with
    | none => .ok pool
    | some area =>
      .ok { pool with
        areas := pool.areas.eraseIdx i
        maps := pool.maps.eraseIdx i
        returned := pool.returned ++ area.resident.intoFrames }

def run : List PoolCall → AreaPool → Checked AreaPool
  | [], pool => .ok pool
  | call :: calls, pool => do
    let pool ← pool.call call
    run calls pool

-- The frames that the areas of the pool own.
def frames (pool : AreaPool) : List Ppn :=
  pool.areas.flatMap (·.resident.intoFrames)

end AreaPool

end WllOs
