import WllOs.Mm.MemorySet

namespace WllOs

-- The entry that publishes a resident page of an area with the given flags.
def pteOf (flags : PTEFlags) (page : ResidentPage) : Option Pte :=
  if (effectiveMappingFlagsForPage flags page).isEmpty then none
  else some ⟨page.frame, effectiveMappingFlagsForPage flags page⟩

namespace MapArea

-- The resident page of an area at a virtual page number.
def pageAt (area : MapArea) (vpn : Nat) : Option ResidentPage :=
  if area.startVa / pageSize ≤ vpn then area.resident.lookup (vpn - area.startVa / pageSize) else none

-- The entry that the area publishes for a page.
def Backs (area : MapArea) (vpn : Nat) (pte : Pte) : Prop :=
  area.flags.hasLeafPermission ∧ ∃ page, area.pageAt vpn = some page ∧ pteOf area.flags page = some pte

end MapArea

-- Every entry of a page table is published by one of the areas.
def Backed (pageTable : PageTable) (areas : List MapArea) : Prop :=
  ∀ vpn pte, pageTable vpn = some pte → ∃ area ∈ areas, area.Backs vpn pte

-- A resident page that one of the areas owns, with the policy of that area.
def Owns (areas : List MapArea) (isPrivate : Bool) (flags : PTEFlags) (page : ResidentPage) : Prop :=
  ∃ area ∈ areas, area.backing.isPrivate = isPrivate ∧ area.flags = flags ∧
    ∃ n, area.resident.lookup n = some page

-- A page that its area publishes with write permission.
def Exposed (isPrivate : Bool) (flags : PTEFlags) (page : ResidentPage) : Prop :=
  flags.w ∧ (isPrivate → page.state ≠ .cow)

-- Where the page of an area may come from: it holds a fresh frame, a frame of the clean page cache or
-- the frame of one of the pages from before. In the latter two cases it is exposed only if that page
-- was exposed already or if the exposure is granted.
def Derived (areas : List MapArea) (fresh : Bool → Ppn → Prop) (cached : Ppn → Prop)
    (grant : Bool → Ppn → Prop) (isPrivate : Bool) (flags : PTEFlags) (page : ResidentPage) : Prop :=
  fresh isPrivate page.frame ∨
  cached page.frame ∧ (Exposed isPrivate flags page → grant isPrivate page.frame) ∨
  ∃ flags' page', Owns areas isPrivate flags' page' ∧ page'.frame = page.frame ∧
    (Exposed isPrivate flags page → Exposed isPrivate flags' page' ∨ grant isPrivate page.frame)

-- What every operation on a memory set observes, whether its areas overlap or not.
structure Step (fresh : Bool → Ppn → Prop) (cached : Ppn → Prop) (grant : Bool → Ppn → Prop)
    (ms ms' : MemorySet) : Prop where
  wf      : (∀ a ∈ ms.areas, a.WF) → ∀ a ∈ ms'.areas, a.WF
  user    : (∀ a ∈ ms.areas, a.WF) → (∀ a ∈ ms.areas, a.flags.u) → ∀ a ∈ ms'.areas, a.flags.u
  backed  : (∀ a ∈ ms.areas, a.WF) → Backed ms.pageTable ms.areas → Backed ms'.pageTable ms'.areas
  derived : (∀ a ∈ ms.areas, a.WF) → ∀ isPrivate flags page, Owns ms'.areas isPrivate flags page →
              Derived ms.areas fresh cached grant isPrivate flags page

-- Areas in order, without overlaps.
def Sorted (areas : List MapArea) : Prop :=
  areas.Pairwise (·.endVa ≤ ·.startVa)

namespace MemorySet

structure WF (ms : MemorySet) : Prop where
  areas  : ∀ area ∈ ms.areas, area.WF
  sorted : Sorted ms.areas

-- What the lookup of areas relies on and what it guarantees.
structure Ordered (ms : MemorySet) : Prop where
  sorted   : ms.areas.Pairwise (·.startVa < ·.startVa)
  disjoint : ms.areas.Pairwise fun a b => ∀ addr, ¬(a.contains addr ∧ b.contains addr)
  aligned  : ∀ area ∈ ms.areas, area.startVa % pageSize = 0 ∧ area.endVa % pageSize = 0
  nonempty : ∀ area ∈ ms.areas, area.startVa < area.endVa
  resident : ∀ area ∈ ms.areas, ∀ n page, area.resident.lookup n = some page → n < area.pageCount
  lookup   : ∀ addr i area, ms.areas[i]? = some area → area.contains addr →
              ms.areaIndexContaining addr = some i ∧
              ∀ j area', ms.areas[j]? = some area' → area'.contains addr → j = i

-- What holds of every address space, whether its areas overlap or not.
structure Sound (ms : MemorySet) : Prop where
  areas  : ∀ area ∈ ms.areas, area.WF
  backed : Backed ms.pageTable ms.areas
  user   : ∀ area ∈ ms.areas, area.flags.u

-- The areas and the page table agree.
structure Coherent (ms : MemorySet) : Prop extends ms.WF where
  backed : Backed ms.pageTable ms.areas
  user   : ∀ area ∈ ms.areas, area.flags.u

-- The area at an index publishes a resident page as the entry of a page.
structure Publishes (ms : MemorySet) (vpn : Nat) (pte : Pte) (i : Nat) (area : MapArea)
    (page : ResidentPage) : Prop where
  at_index : ms.areas[i]? = some area
  contains : area.contains (vpn * pageSize)
  leaf     : area.flags.hasLeafPermission
  resident : area.resident.lookup ((vpn * pageSize - area.startVa) / pageSize) = some page
  ppn      : pte.ppn = page.frame
  flags    : pte.flags = effectiveMappingFlagsForPage area.flags page

-- Every entry of the page table belongs to exactly one area and to one of its resident pages, and there
-- are no entries for pages outside of the areas, pages that are not resident and inaccessible areas.
structure PteCoherent (ms : MemorySet) : Prop where
  present : ∀ vpn pte, ms.pageTable vpn = some pte → ∃ i area page, ms.Publishes vpn pte i area page ∧
              ∀ j area', ms.areas[j]? = some area' → area'.contains (vpn * pageSize) → j = i
  absent  : ∀ vpn, (∀ area ∈ ms.areas, area.contains (vpn * pageSize) → ¬area.flags.hasLeafPermission ∨
              area.resident.lookup ((vpn * pageSize - area.startVa) / pageSize) = none) →
              ms.pageTable vpn = none

-- The meaning of an address space: what is known about each of its pages.
def meaning (ms : MemorySet) (vpn : Nat) : Option PageView :=
  ms.areas.findSome? (·.view vpn)

-- What a process can observe of its pages: their policy, their backing and their contents.
def image (ms : MemorySet) (mem : Ppn → Page) (vpn : Nat) :
    Option (PTEFlags × PageBacking × Option Page) :=
  (ms.meaning vpn).map fun view => (view.flags.withoutCow, view.backing, view.page.map (mem ·.frame))

-- The areas that `protect_range` visits once it has split the ones at the ends of the range.
def visitedAreas (ms : MemorySet) (start stop : Nat) : List MapArea :=
  let ms := (ms.splitAreaAt start).splitAreaAt stop
  (ms.areas.drop (ms.firstAreaEndingAfter start)).takeWhile (·.startVa < stop)

end MemorySet

end WllOs
