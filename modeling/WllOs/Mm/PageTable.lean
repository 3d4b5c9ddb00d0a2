import WllOs.Mm.Basic

namespace WllOs

structure PTEFlags where
  v : Bool
  r : Bool
  w : Bool
  x : Bool
  u : Bool
  g : Bool
  a : Bool
  d : Bool
  cow : Bool
  deriving DecidableEq, Repr

namespace PTEFlags

def empty : PTEFlags :=
  ⟨false, false, false, false, false, false, false, false, false⟩

-- `flags.difference(PTEFlags::COW)`, the policy part of the flags of an area.
def withoutCow (flags : PTEFlags) : PTEFlags :=
  { flags with cow := false }

def hasLeafPermission (flags : PTEFlags) : Bool :=
  flags.r || flags.w || flags.x

end PTEFlags

-- The flags that the conversion from `PTEFlags` sets.
structure MappingFlags where
  r : Bool
  w : Bool
  x : Bool
  u : Bool
  deriving DecidableEq, Repr

namespace MappingFlags

def isEmpty (flags : MappingFlags) : Bool :=
  !(flags.r || flags.w || flags.x || flags.u)

def ofPTEFlags (flags : PTEFlags) : MappingFlags where
  r := flags.r
  w := flags.w
  x := flags.x
  u := flags.u

end MappingFlags

structure Pte where
  ppn : Ppn
  flags : MappingFlags
  deriving DecidableEq, Repr

-- The leaf entries of a page table by virtual page number. An entry without flags is not valid, as
-- the hardware entry is then built without its valid bit.
abbrev PageTable := Nat → Option Pte

namespace PageTable

def empty : PageTable :=
  fun _ => none

def mapPage (pt : PageTable) (vpn : Nat) (ppn : Ppn) (flags : MappingFlags) : PageTable :=
  Function.update pt vpn (if flags.isEmpty then none else some ⟨ppn, flags⟩)

def unmapPage (pt : PageTable) (vpn : Nat) : PageTable :=
  Function.update pt vpn none

def mapPagesWithoutFlush (pt : PageTable) (pages : List (Nat × Ppn × MappingFlags)) : PageTable :=
  pages.foldl (fun pt p => pt.mapPage p.1 p.2.1 p.2.2) pt

def unmapPagesWithoutFlush (pt : PageTable) (pages : List Nat) : PageTable :=
  pages.foldl unmapPage pt

variable {pt : PageTable} {pages : List (Nat × Ppn × MappingFlags)} {vpn : Nat}

theorem mapPagesWithoutFlush_of_not_mem (h : ∀ p ∈ pages, p.1 ≠ vpn) :
    (pt.mapPagesWithoutFlush pages) vpn = pt vpn := by
  induction pages generalizing pt
  case nil => rfl
  case cons p pages hi =>
    have ⟨hp, hs⟩ := List.forall_mem_cons.mp h
    rw [mapPagesWithoutFlush, List.foldl_cons]
    refine (hi hs).trans ?_
    simp [mapPage, Function.update_of_ne hp.symm]

-- When every page of a batch is listed once, the batch writes what it lists.
theorem mapPagesWithoutFlush_of_mem (pt : PageTable) {p : Nat × Ppn × MappingFlags} (hn : (pages.map (·.1)).Nodup)
    (h : p ∈ pages) :
    (pt.mapPagesWithoutFlush pages) p.1 = if p.2.2.isEmpty then none else some ⟨p.2.1, p.2.2⟩ := by
  induction pages generalizing pt
  case nil => cases h
  case cons q pages hi =>
    have ⟨hq, hn⟩ := List.nodup_cons.mp hn
    rw [mapPagesWithoutFlush, List.foldl_cons]
    cases List.mem_cons.mp h
    case inr h => exact hi _ hn h
    case inl h =>
      subst h
      refine (mapPagesWithoutFlush_of_not_mem fun q hm he => hq ?_).trans ?_
      · exact List.mem_map.mpr ⟨q, hm, he⟩
      · simp [mapPage]

theorem unmapPagesWithoutFlush_apply {pages : List Nat} :
    (pt.unmapPagesWithoutFlush pages) vpn = if vpn ∈ pages then none else pt vpn := by
  induction pages generalizing pt
  case nil => rfl
  case cons p pages hi =>
    rw [unmapPagesWithoutFlush, List.foldl_cons]
    refine hi.trans ?_
    by_cases hp : vpn = p <;> by_cases hm : vpn ∈ pages <;> simp [hp, hm, unmapPage]

end PageTable

end WllOs
