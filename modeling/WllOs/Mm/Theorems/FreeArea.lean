import WllOs.Mm.Heap
import WllOs.Mm.Theorems.Coherence

namespace WllOs

variable {arch : Arch} {areas : List MapArea} {arena : UserVaRange} {ms : MemorySet}
variable {hint lowHint highHint length limit candidate addr start : Nat}

theorem IsFirst.none_iff {s : Set Nat} {result : Option Nat} (h : IsFirst s result) : result = none ↔ s = ∅ := by
  cases result
  case none => exact ⟨fun _ => h, fun _ => rfl⟩
  case some n => exact ⟨nofun, fun he => absurd h.1 (he ▸ Set.notMem_empty n)⟩

theorem IsFirst.mem {s : Set Nat} {result : Option Nat} {n : Nat} (h : IsFirst s result) (hr : result = some n) :
    n ∈ s := by
  subst hr
  exact h.1

theorem alignUp_spec (hint limit : Nat) (hm : hint ≤ limit) (hl : limit + pageSize ≤ Usize.max + 1) :
    ∃ value, alignUp hint = some value ∧ value % pageSize = 0 ∧ hint ≤ value ∧
    ∀ addr, addr % pageSize = 0 → hint ≤ addr → value ≤ addr := by
  have hadd : Usize.checkedAdd hint (pageSize - 1) = some (hint + (pageSize - 1)) :=
    Usize.checkedAdd_eq_some.mpr ⟨rfl, by have := pageSize_pos; omega⟩
  refine ⟨(hint + (pageSize - 1)) / pageSize * pageSize, by simp [alignUp, hadd], Nat.mul_mod_left .., ?_, ?_⟩
  · simp only [pageSize]
    omega
  · intro addr ha hle
    simp only [pageSize] at *
    omega

theorem alignUp_none (h : alignUp hint = none) (ha : addr % pageSize = 0) (hle : hint ≤ addr) :
    Usize.max < addr := by
  by_contra hmax
  have : Usize.checkedAdd hint (pageSize - 1) = some (hint + (pageSize - 1)) :=
    Usize.checkedAdd_eq_some.mpr ⟨rfl, by simp only [pageSize, Usize.max] at *; omega⟩
  simp [alignUp, this] at h

namespace MemorySet

-- The addresses that the loop over the areas searches.
def freeFrom (areas : List MapArea) (candidate length limit : Nat) : Set Nat :=
  { addr | addr % pageSize = 0 ∧ candidate ≤ addr ∧ (∀ area ∈ areas, ¬area.overlaps addr (addr + length)) ∧
    addr + length ≤ limit }

theorem findFreeAreaFrom_first (areas : List MapArea) (hp : 0 < length) (hl : limit ≤ Usize.max) (hw : ∀ a ∈ areas, a.WF)
    (hs : Sorted areas) (hc : candidate % pageSize = 0) :
    IsFirst (freeFrom areas candidate length limit) (findFreeAreaFrom length limit areas candidate) := by
  -- Nothing is left if the range at the candidate does not end below the limit.
  have hlimit : ∀ areas : List MapArea, limit < candidate + length →
      freeFrom areas candidate length limit = ∅ := fun areas hlt =>
    Set.eq_empty_of_forall_notMem fun addr ⟨_, hle, _, hfit⟩ => by omega
  -- Otherwise its end does not overflow.
  have hend : candidate + length ≤ limit → Usize.checkedAdd candidate length = some (candidate + length) :=
    fun hle => Usize.checkedAdd_eq_some.mpr ⟨rfl, hle.trans hl⟩
  induction areas generalizing candidate
  case nil =>
    by_cases hle : candidate + length ≤ limit
    case pos =>
      simp only [findFreeAreaFrom, hend hle, Option.bind_eq_bind, Option.bind_some, Nat.not_lt.mpr hle, if_false]
      exact ⟨⟨hc, le_refl _, by simp, hle⟩, fun addr h => h.2.1⟩
    case neg =>
      have hnone : findFreeAreaFrom length limit [] candidate = none := by
        simp only [findFreeAreaFrom, Option.bind_eq_bind, Option.bind_eq_none_iff, Usize.checkedAdd_eq_some]
        rintro _ ⟨rfl, _⟩
        simp [Nat.not_le.mp hle]
      rw [hnone]
      exact hlimit [] (by omega)
  case cons area rest hi =>
    have ⟨hwa, hw⟩ := List.forall_mem_cons.mp hw
    have ⟨hlt, hs⟩ := Sorted.cons.mp hs
    have hrange := hwa.start_lt_end
    by_cases hle : candidate + length ≤ limit
    case neg =>
      have hnone : findFreeAreaFrom length limit (area :: rest) candidate = none := by
        simp only [findFreeAreaFrom, Option.bind_eq_bind, Option.bind_eq_none_iff, Usize.checkedAdd_eq_some]
        rintro _ ⟨rfl, _⟩
        simp [Nat.not_le.mp hle]
      rw [hnone]
      exact hlimit (area :: rest) (by omega)
    case pos =>
      simp only [findFreeAreaFrom, hend hle, Option.bind_eq_bind, Option.bind_some, Nat.not_lt.mpr hle, if_false]
      split
      case isTrue hbefore =>
        -- The area lies before the candidate.
        have hset : freeFrom (area :: rest) candidate length limit = freeFrom rest candidate length limit := by
          ext addr
          simp only [freeFrom, List.forall_mem_cons, Set.mem_ofPred_eq, overlaps_iff]
          exact ⟨fun ⟨h₁, h₂, h₃, h₄⟩ => ⟨h₁, h₂, h₃.2, h₄⟩, fun ⟨h₁, h₂, h₃, h₄⟩ =>
            ⟨h₁, h₂, ⟨by omega, h₃⟩, h₄⟩⟩
        exact hset ▸ hi hw hs hc hlimit hend
      case isFalse hafter =>
        split
        case isTrue hbehind =>
          -- The area and all after it lie behind the range at the candidate.
          refine ⟨⟨hc, le_refl _, fun a ha => ?_, hle⟩, fun addr h => h.2.1⟩
          have : area.startVa ≤ a.startVa := by
            rcases List.mem_cons.mp ha with rfl | ha
            · exact le_refl _
            · exact hrange.le.trans (hlt a ha)
          simp only [overlaps_iff]
          omega
        case isFalse hover =>
          -- The area meets the range at the candidate, so the search goes on at its end.
          cases hup : alignUp area.endVa
          case none =>
            refine Set.eq_empty_of_forall_notMem fun addr ⟨hm, hge, hfree, hfit⟩ => ?_
            have hnot := (List.forall_mem_cons.mp hfree).1
            simp only [overlaps_iff] at hnot
            have := alignUp_none hup hm (by omega)
            omega
          case some next =>
            have hnext : next = area.endVa := alignUp_eq hwa.end_aligned hup
            subst hnext
            have hset : freeFrom (area :: rest) candidate length limit =
                freeFrom rest area.endVa length limit := by
              ext addr
              simp only [freeFrom, List.forall_mem_cons, Set.mem_ofPred_eq, overlaps_iff]
              exact ⟨fun ⟨h₁, h₂, h₃, h₄⟩ => ⟨h₁, by omega, h₃.2, h₄⟩, fun ⟨h₁, h₂, h₃, h₄⟩ =>
                ⟨h₁, by omega, ⟨by omega, h₃⟩, h₄⟩⟩
            refine hset ▸ hi hw hs hwa.end_aligned (fun areas hlt' => ?_) fun hle' => ?_
            · exact Set.eq_empty_of_forall_notMem fun addr ⟨_, hle', _, hfit⟩ => by omega
            · exact Usize.checkedAdd_eq_some.mpr ⟨rfl, hle'.trans hl⟩

-- The search returns the least address from the hint on at which the range is free.
theorem findFreeArea_first (hw : ms.WF) (hp : 0 < length) (hl : limit ≤ Usize.max) :
    IsFirst (ms.freeAddrs hint length limit) (ms.findFreeArea hint length limit) := by
  simp only [findFreeArea, Nat.ne_of_gt hp, if_false]
  cases hup : alignUp (max hint pageSize)
  case none =>
    refine Set.eq_empty_of_forall_notMem fun addr ha => ?_
    obtain ⟨hm, hge, _, hfit⟩ := ha
    have := alignUp_none hup hm hge
    omega
  case some candidate =>
    have hmod := alignUp_mod hup
    have hfirst := findFreeAreaFrom_first (ms.areas.drop (ms.firstAreaEndingAfter candidate)) hp hl
      (fun a ha => hw.areas a (List.mem_of_mem_drop ha)) (hw.sorted.sublist (List.drop_sublist ..)) hmod
    have hset : ms.freeAddrs hint length limit =
        freeFrom (ms.areas.drop (ms.firstAreaEndingAfter candidate)) candidate length limit := by
      ext addr
      have hcand : addr % pageSize = 0 → (max hint pageSize ≤ addr ↔ candidate ≤ addr) := fun hm => by
        simp only [alignUp, Option.map_eq_some_iff, Usize.checkedAdd_eq_some, pageSize] at hup hm ⊢
        omega
      simp only [freeAddrs, freeFrom, FreeAt, Set.mem_ofPred_eq]
      refine ⟨fun h => ⟨h.1, (hcand h.1).mp h.2.1, fun a ha => h.2.2.1 a (List.mem_of_mem_drop ha), h.2.2.2⟩, ?_⟩
      rintro ⟨h₁, h₂, h₃, h₄⟩
      refine ⟨h₁, (hcand h₁).mpr h₂, fun a ha => ?_, h₄⟩
      -- The areas that the search skips end before the candidate.
      obtain ⟨i, hi⟩ := List.mem_iff_getElem?.mp ha
      have hspec := firstAreaEndingAfter_spec candidate hw hi
      by_cases hbefore : i < ms.firstAreaEndingAfter candidate
      case pos =>
        have := hspec.mpr hbefore
        simp only [overlaps_iff]
        omega
      case neg =>
        refine h₃ a (List.mem_of_getElem? (i := i - ms.firstAreaEndingAfter candidate) ?_)
        simpa only [List.getElem?_drop, Nat.add_sub_cancel' (Nat.not_lt.mp hbefore)] using hi
    exact hset ▸ hfirst

end MemorySet

open MemorySet

theorem mem_mmapArenas : arena ∈ arch.mmapArenas ↔ arena = arch.lowMmapArena ∨ arena = highMmapArena := by
  simp [Arch.mmapArenas]

-- The arenas end before the addresses overflow, and they do not overlap.
theorem arena_bounds (h : arena ∈ arch.mmapArenas) :
    arena.start % pageSize = 0 ∧ arena.stop % pageSize = 0 ∧ pageSize ≤ arena.start ∧ arena.start < arena.stop ∧
    arena.stop + pageSize ≤ Usize.max ∧ (arena = highMmapArena ∨ arena.stop ≤ highMmapArena.start) := by
  rcases mem_mmapArenas.mp h with rfl | rfl <;> cases arch <;> decide_cbv

theorem containsRange_iff {range : UserVaRange} {stop : Nat} :
    range.containsRange start stop ↔ range.start ≤ start ∧ start < stop ∧ stop ≤ range.stop := by
  simp [UserVaRange.containsRange, and_assoc]

theorem containing_spec (h : arch.mmapArenaContaining addr = some arena) :
    arena ∈ arch.mmapArenas ∧ arena.start ≤ addr ∧ addr < arena.stop := by
  simp only [Arch.mmapArenaContaining] at h
  have hcontains := List.find?_some h
  simp only [UserVaRange.containsAddr, Bool.and_eq_true, decide_eq_true_eq] at hcontains
  exact ⟨List.mem_of_find?_eq_some h, hcontains⟩

theorem start_le_arenaHint : arena.start ≤ arenaHint arch lowHint highHint arena := by
  simp only [arenaHint]
  split_ifs <;> omega

-- The hint of an arena lies in the arena unless it is the one for high mappings.
theorem arenaHint_le (h : arena ∈ arch.mmapArenas) (hh : arena = highMmapArena →
    arch.mmapArenaContaining lowHint = some highMmapArena ∨ highHint ≤ highMmapArena.stop) :
    arenaHint arch lowHint highHint arena ≤ arena.stop := by
  have ⟨_, hstop, _, hlt, hmax, _⟩ := arena_bounds h
  simp only [arenaHint]
  split_ifs with hin hhigh
  case pos =>
    have ⟨_, hlow⟩ := containing_spec hin
    have ⟨value, hup, _, _, hleast⟩ := alignUp_spec lowHint arena.stop (by omega) (by omega)
    have := hleast arena.stop hstop (by omega)
    simp only [hup, Option.getD_some]
    omega
  case pos =>
    subst hhigh
    have := (hh rfl).resolve_left hin
    omega
  case neg => exact hlt.le

-- The arenas in the order in which they are searched.
def searchOrder (arch : Arch) (lowHint : Nat) : List UserVaRange :=
  if arch.mmapArenaContaining lowHint = some highMmapArena then [highMmapArena, arch.lowMmapArena]
  else arch.mmapArenas

-- The gaps that the search of an arena sees.
def seenGaps (ms : MemorySet) (arena : UserVaRange) (hint length : Nat) : Set Nat :=
  ms.freeAddrs hint length arena.stop ∪ ms.freeAddrs arena.start length hint

theorem findInArena_cases (arena : UserVaRange) (hw : ms.WF) (hp : 0 < length) (hstop : arena.stop ≤ Usize.max)
    (hhint : hint ≤ Usize.max) :
    (findInArena ms arena hint length = none ∧ seenGaps ms arena hint length = ∅) ∨
    ∃ start, findInArena ms arena hint length = some start ∧
      (start ∈ ms.freeAddrs hint length arena.stop ∨
        IsLeast (ms.freeAddrs arena.start length hint) start) := by
  have hfirst : IsFirst (ms.freeAddrs hint length arena.stop) _ := findFreeArea_first hw hp hstop
  have hsecond : IsFirst (ms.freeAddrs arena.start length hint) _ := findFreeArea_first hw hp hhint
  simp only [findInArena]
  cases hf : ms.findFreeArea hint length arena.stop
  case some start => exact .inr ⟨start, rfl, .inl (hfirst.mem hf)⟩
  case none =>
    have hempty := hfirst.none_iff.mp hf
    simp only [Option.none_or]
    split
    case isTrue hlt =>
      cases hs : ms.findFreeArea arena.start length hint
      case none =>
        have := hsecond.none_iff.mp hs
        exact .inl ⟨rfl, by simp only [seenGaps, hempty, this, Set.union_empty]⟩
      case some start =>
        rw [hs] at hsecond
        exact .inr ⟨start, rfl, .inr hsecond⟩
    case isFalse hge =>
      have : ms.freeAddrs arena.start length hint = ∅ :=
        Set.eq_empty_of_forall_notMem fun addr ⟨_, hle, _, hfit⟩ => by omega
      exact .inl ⟨rfl, by simp only [seenGaps, hempty, this, Set.union_empty]⟩

theorem findMmapAreaWithHints_eq : findMmapAreaWithHints arch ms lowHint highHint length =
    (searchOrder arch lowHint).findSome? fun arena =>
      findInArena ms arena (arenaHint arch lowHint highHint arena) length := by
  have hne : arch.lowMmapArena ≠ highMmapArena := by cases arch <;> decide
  simp only [findMmapAreaWithHints, searchOrder]
  cases hin : arch.mmapArenaContaining lowHint
  case none =>
    simp only [arenaHint, hin, Arch.mmapArenas, Lists.findSome?_pair, reduceCtorEq, if_false, if_true, hne]
  case some hinted =>
    have ⟨hm, hlt⟩ := containing_spec hin
    have ⟨_, _, _, _, hmax, _⟩ := arena_bounds hm
    have ⟨value, hup, _⟩ := alignUp_spec lowHint hinted.stop (by omega) (by omega)
    rcases mem_mmapArenas.mp hm with rfl | rfl
    case inl =>
      simp [arenaHint, hin, hup, Arch.mmapArenas, Lists.findSome?_pair, hne]
    case inr =>
      simp [arenaHint, hin, hup, Arch.mmapArenas, Lists.findSome?_pair, hne, hne.symm]

theorem arenaHint_le_max (lowHint : Nat) (h : arena ∈ arch.mmapArenas) (hh : highHint ≤ Usize.max) :
    arenaHint arch lowHint highHint arena ≤ Usize.max := by
  have ⟨_, _, _, hlt, hmax, _⟩ := arena_bounds h
  by_cases hle : highHint ≤ highMmapArena.stop
  case pos => exact (arenaHint_le h fun _ => .inr hle).trans (by omega)
  case neg =>
    by_cases hhigh : arena = highMmapArena
    case neg => exact (arenaHint_le h fun he => absurd he hhigh).trans (by omega)
    case pos =>
      by_cases hin : arch.mmapArenaContaining lowHint = some highMmapArena
      case pos => exact (arenaHint_le h fun _ => .inl hin).trans (by omega)
      case neg =>
        simp only [arenaHint, hhigh, hin, if_true, if_false]
        subst hhigh
        omega

-- Where the search of the arenas ends.
theorem search_cases (arch : Arch) (lowHint : Nat) (hw : ms.WF) (hp : 0 < length) (hh : highHint ≤ Usize.max) :
    (findMmapAreaWithHints arch ms lowHint highHint length = none ∧ ∀ arena ∈ arch.mmapArenas,
      seenGaps ms arena (arenaHint arch lowHint highHint arena) length = ∅) ∨
    ∃ start, findMmapAreaWithHints arch ms lowHint highHint length = some start ∧
      ∃ arena ∈ arch.mmapArenas,
        (start ∈ ms.freeAddrs (arenaHint arch lowHint highHint arena) length arena.stop ∨
          IsLeast (ms.freeAddrs arena.start length (arenaHint arch lowHint highHint arena)) start) ∧
        -- The low arena is searched first, unless the hint lies in the high one.
        (arena = highMmapArena → arch.mmapArenaContaining lowHint ≠ some highMmapArena →
          seenGaps ms arch.lowMmapArena (arenaHint arch lowHint highHint arch.lowMmapArena) length = ∅) := by
  have hne : arch.lowMmapArena ≠ highMmapArena := by cases arch <;> decide
  have hlow : arch.lowMmapArena ∈ arch.mmapArenas := mem_mmapArenas.mpr (.inl rfl)
  have hhigh : highMmapArena ∈ arch.mmapArenas := mem_mmapArenas.mpr (.inr rfl)
  have hcases : ∀ arena ∈ arch.mmapArenas, _ := fun arena ha =>
    findInArena_cases arena hw hp (by have := arena_bounds ha; omega)
      (arenaHint_le_max lowHint ha hh)
  rw [findMmapAreaWithHints_eq, searchOrder]
  split
  case isTrue hin =>
    rw [Lists.findSome?_pair]
    rcases hcases _ hhigh with ⟨hf, he⟩ | ⟨start, hf, hs⟩
    case inr => exact .inr ⟨start, by simp [hf], _, hhigh, hs, fun _ hn => absurd hin hn⟩
    case inl =>
      rcases hcases _ hlow with ⟨hf', he'⟩ | ⟨start, hf', hs⟩
      case inr => exact .inr ⟨start, by simp [hf, hf'], _, hlow, hs, fun he => absurd he hne⟩
      case inl =>
        refine .inl ⟨by simp [hf, hf'], fun arena ha => ?_⟩
        rcases mem_mmapArenas.mp ha with rfl | rfl
        · exact he'
        · exact he
  case isFalse hin =>
    rw [Arch.mmapArenas, Lists.findSome?_pair]
    rcases hcases _ hlow with ⟨hf, he⟩ | ⟨start, hf, hs⟩
    case inr => exact .inr ⟨start, by simp [hf], _, by simp, hs, fun he => absurd he hne⟩
    case inl =>
      rcases hcases _ hhigh with ⟨hf', he'⟩ | ⟨start, hf', hs⟩
      case inr => exact .inr ⟨start, by simp [hf, hf'], _, by simp, hs, fun _ _ => he⟩
      case inl =>
        refine .inl ⟨by simp [hf, hf'], fun arena ha => ?_⟩
        rcases mem_mmapArenas.mp ha with rfl | rfl
        · exact he
        · exact he'

-- A gap is seen unless it lies across the hint.
theorem GapIn.seen (ha : arena ∈ arch.mmapArenas) (hm : addr % pageSize = 0) (hg : ms.GapIn arena length addr)
    (hs : hint ≤ addr ∨ addr + length ≤ hint) :
    addr ∈ seenGaps ms arena hint length := by
  have ⟨_, _, hpage, _⟩ := arena_bounds ha
  have ⟨h₁, h₂, h₃⟩ := containsRange_iff.mp hg.1
  rcases hs with hs | hs
  · exact .inl ⟨hm, by omega, hg.2, h₃⟩
  · exact .inr ⟨hm, by omega, hg.2, hs⟩

theorem gapIn_of_mem (hp : 0 < length) (hle : arena.start ≤ hint)
    (h : start ∈ ms.freeAddrs hint length arena.stop) : ms.GapIn arena length start :=
  ⟨containsRange_iff.mpr ⟨by have := h.2.1; omega, by omega, h.2.2.2⟩, h.2.2.1⟩

-- The search from a hint on is complete, and the one of the arenas is exactly if the hints are harmless.
theorem placementComplete_iff (arch : Arch) (ms : MemorySet) (hw : ms.WF) (lowHint highHint length : Nat)
    (hp : 0 < length) (hh : highHint ≤ Usize.max) :
    PlacementComplete arch ms lowHint highHint length ↔ HintsHarmless arch ms lowHint highHint length := by
  have hcases := search_cases arch lowHint hw hp hh
  have hstart : ∀ arena, arena.start ≤ arenaHint arch lowHint highHint arena := fun _ => start_le_arenaHint
  -- A gap before a hint lies in the arena if the hint does.
  have hbefore : ∀ arena start, arenaHint arch lowHint highHint arena ≤ arena.stop →
      start ∈ ms.freeAddrs arena.start length (arenaHint arch lowHint highHint arena) →
      ms.GapIn arena length start := fun arena start hle hmem =>
    gapIn_of_mem hp (le_refl _) ⟨hmem.1, hmem.2.1, hmem.2.2.1, hmem.2.2.2.trans hle⟩
  constructor
  case mp =>
    intro h
    constructor
    case unsplit =>
      intro hgap
      have ⟨start, hfound⟩ := h.found hgap
      rcases hcases with ⟨hnone, _⟩ | ⟨start', hsome, arena, ha, hseen, _⟩
      case inl => simp [hnone] at hfound
      case inr =>
        obtain rfl : start' = start := by simpa [hsome] using hfound
        rcases hseen with hseen | ⟨hseen, _⟩
        case inl =>
          exact ⟨arena, ha, start', hseen.1, gapIn_of_mem hp (hstart arena) hseen,
            .inl (by have := hseen.2.1; omega)⟩
        case inr =>
          have ⟨arena', ha', hgap'⟩ := h.inside start' hfound
          have ⟨h₁, h₂, h₃⟩ := containsRange_iff.mp hgap'.1
          have harena : ms.GapIn arena length start' := by
            by_cases hhigh : arena = highMmapArena
            case neg => exact hbefore arena start' (arenaHint_le ha fun he => absurd he hhigh) hseen
            case pos =>
              rcases mem_mmapArenas.mp ha' with rfl | rfl
              case inr => exact hhigh ▸ hgap'
              case inl =>
                have ⟨_, _, _, _, _, hsep⟩ := arena_bounds ha'
                have := hseen.2.1
                rcases hsep with he | hsep
                · exact absurd he (by cases arch <;> decide)
                · simp only [hhigh] at this
                  omega
          exact ⟨arena, ha, start', hseen.1, harena, .inr hseen.2.2.2⟩
    case bounded =>
      by_contra hnot
      have ⟨hno, hsome⟩ := not_or.mp hnot
      push Not at hsome
      have ⟨arena, ha, addr, hmem⟩ := hsome
      rcases hcases with ⟨_, hempty⟩ | ⟨start, hfound, _⟩
      case inl => exact Set.notMem_empty addr (hempty arena ha ▸ Set.mem_union_right _ hmem)
      case inr =>
        have ⟨arena', ha', hgap⟩ := h.inside start hfound
        exact hno ⟨arena', ha', start, hgap⟩
  case mpr =>
    intro h
    constructor
    case least => exact fun hint limit hl => findFreeArea_first hw hp hl
    case found =>
      intro hgap
      have ⟨arena, ha, addr, hmod, hg, hs⟩ := h.unsplit hgap
      rcases hcases with ⟨_, hempty⟩ | ⟨start, hfound, _⟩
      case inl => exact absurd (GapIn.seen ha hmod hg hs) (hempty arena ha ▸ Set.notMem_empty addr)
      case inr => exact ⟨start, hfound⟩
    case inside =>
      intro start hfound
      rcases hcases with ⟨hnone, _⟩ | ⟨start', hsome, arena, ha, hseen, horder⟩
      case inl => simp [hnone] at hfound
      case inr =>
        obtain rfl : start' = start := by simpa [hsome] using hfound
        rcases hseen with hseen | hseen
        case inl => exact ⟨arena, ha, gapIn_of_mem hp (hstart arena) hseen⟩
        case inr =>
          by_cases hle : arenaHint arch lowHint highHint arena ≤ arena.stop
          case pos => exact ⟨arena, ha, hbefore arena start' hle hseen.1⟩
          case neg =>
            -- The hint lies behind the high arena, so there is a gap in an arena, and it is not in the low one.
            have hbound : arena = highMmapArena ∧ ¬arch.mmapArenaContaining lowHint = some highMmapArena := by
              by_contra hnot
              refine hle (arenaHint_le ha fun he => .inl ?_)
              by_contra hin
              exact hnot ⟨he, hin⟩
            obtain ⟨rfl, hin⟩ := hbound
            have hgap := h.bounded.resolve_right fun hno => hno _ ha start' hseen.1
            have ⟨arena', ha', addr, hmod, hg, hs⟩ := h.unsplit hgap
            rcases mem_mmapArenas.mp ha' with rfl | rfl
            case inl =>
              have := GapIn.seen ha' hmod hg hs
              exact absurd this (horder rfl hin ▸ Set.notMem_empty addr)
            case inr =>
              have ⟨h₁, h₂, h₃⟩ := containsRange_iff.mp hg.1
              have hleast := hseen.2 ⟨hmod, by have := arena_bounds ha; omega, hg.2, by omega⟩
              have := hseen.1.2.1
              exact ⟨highMmapArena, ha', containsRange_iff.mpr ⟨by omega, by omega, by omega⟩, hseen.1.2.2.1⟩

-- In an empty address space the first page of the low arena is found.
theorem newBare_placementComplete : PlacementComplete .riscv64 .newBare 0x20000000 defaultHighMmapBase 0x1000 := by
  have hfree : ∀ addr, MemorySet.newBare.FreeAt 0x1000 addr := fun _ => by simp [FreeAt, newBare]
  have hlow : Arch.riscv64.lowMmapArena ∈ Arch.riscv64.mmapArenas := mem_mmapArenas.mpr (.inl rfl)
  have hgap : MemorySet.newBare.GapIn Arch.riscv64.lowMmapArena 0x1000 0x20000000 := ⟨by decide, hfree _⟩
  exact (placementComplete_iff .riscv64 .newBare Coherent.newBare.toWF 0x20000000 defaultHighMmapBase 0x1000
    (by decide) (by decide_cbv)).mpr
      ⟨fun _ => ⟨_, hlow, 0x20000000, by decide, hgap, .inl (by decide_cbv)⟩, .inl ⟨_, hlow, _, hgap⟩⟩

-- Only the first two pages of the arenas are free, and the cursor for new mappings lies between them.
def crowded : MemorySet where
  pageTable := .empty
  areas := [.withBacking 0x20002000 0x7ffff000 { PTEFlags.empty with u := true, r := true } .anonymous,
    .withBacking 0x2000000000 0x4000000000 { PTEFlags.empty with u := true, r := true } .anonymous]

theorem crowded_wf : crowded.WF where
  areas area ha := by
    simp only [crowded, List.mem_cons, List.not_mem_nil, or_false] at ha
    rcases ha with rfl | rfl <;> exact .withBacking (by decide) (by decide) (by decide) (by decide_cbv)
  sorted := by simp [Sorted, crowded, MapArea.withBacking]

theorem crowded_not_placementComplete : crowded.WF ∧
    ¬PlacementComplete .riscv64 crowded 0x20001000 defaultHighMmapBase 0x2000 := by
  refine ⟨crowded_wf, fun h => ?_⟩
  have hgap : crowded.GapIn Arch.riscv64.lowMmapArena 0x2000 0x20000000 := ⟨by decide, by
    simp [FreeAt, crowded, MapArea.withBacking, MapArea.overlaps]⟩
  obtain ⟨start, hfound⟩ := h.found ⟨_, mem_mmapArenas.mpr (.inl rfl), _, hgap⟩
  have hnone : findMmapAreaWithHints .riscv64 crowded 0x20001000 defaultHighMmapBase 0x2000 = none := by
    decide_cbv
  simp [hnone] at hfound

end WllOs
