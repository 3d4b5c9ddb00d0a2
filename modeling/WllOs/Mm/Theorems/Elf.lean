import WllOs.Fs.Theorems.Objects
import WllOs.Mm.Elf
import WllOs.Mm.Theorems.Syscall

namespace WllOs

open Fs (fromLeBytes fromLeBytes_lt)

variable {arch : Arch} {data : Slice} {elf : ElfFile} {ms ms' : MemorySet} {frames frames' : Frames}
variable {start stop addr bias : Nat} {ph : ProgramHeader}

namespace ElfFile

theorem parseHeaders_eq {phoff phentsize count i : Nat} {offsets : List Nat}
    (h : parseHeaders data phoff phentsize count i = .ok offsets) :
    offsets = (List.range' i count).map fun i => Usize.wrappingAdd phoff (i * phentsize) := by
  induction count generalizing i offsets
  case zero =>
    cases h
    rfl
  case succ count hi =>
    simp only [parseHeaders] at h
    split at h
    case isTrue => cases h
    case isFalse =>
      split at h
      case h_1 => cases h
      case h_2 rest hrest =>
        cases h
        rw [hi hrest, List.range'_succ, List.map_cons]

-- What a file that is accepted consists of.
theorem parse_spec (h : parse arch data = .ok elf) : elf.data = data ∧ elf.header = data.elfHeader ∧
    elf.programHeaders = (List.range elf.header.ePhnum).map fun i =>
      Usize.wrappingAdd elf.header.ePhoff (i * elf.header.ePhentsize) := by
  simp only [parse] at h
  repeat' split at h
  all_goals try cases h
  case h_2 hoffsets =>
    refine ⟨rfl, rfl, ?_⟩
    rw [List.range_eq_range']
    exact parseHeaders_eq hoffsets

-- The headers are read at the places where the table has them unless an offset overflows, and all of them
-- lie inside of the data if the last one does.
theorem headersInside_iff (h : parse arch data = .ok elf) : elf.HeadersInside ↔ elf.tableFits := by
  have ⟨_, _, hheaders⟩ := parse_spec h
  have hget : ∀ i offset, elf.programHeaders[i]? = some offset ↔
      i < elf.header.ePhnum ∧ offset = Usize.wrappingAdd elf.header.ePhoff (i * elf.header.ePhentsize) := by
    intro i offset
    rw [hheaders, List.getElem?_map, Option.map_eq_some_iff]
    by_cases hi : i < elf.header.ePhnum
    case pos => simp [hi, eq_comm]
    case neg => simp [hi]
  simp only [HeadersInside, tableFits, hget, Bool.or_eq_true, decide_eq_true_eq]
  constructor
  case mp =>
    intro hall
    by_cases hnum : elf.header.ePhnum = 0
    case pos => exact .inl hnum
    case neg =>
      have ⟨hoffset, hin⟩ := hall (elf.header.ePhnum - 1) _ ⟨by omega, rfl⟩
      exact .inr (hoffset ▸ hin)
  case mpr =>
    rintro hfits i offset ⟨hi, rfl⟩
    have hlast := hfits.resolve_left (by omega)
    have hle : i * elf.header.ePhentsize ≤ (elf.header.ePhnum - 1) * elf.header.ePhentsize :=
      Nat.mul_le_mul_right _ (by omega)
    have hlen := elf.data.length_le
    simp only [Slice.len] at *
    rw [Usize.wrappingAdd_eq (by omega)]
    omega

end ElfFile

-- The addresses that are contained in areas, which may overlap.
def Covered (areas : List MapArea) (addr : Nat) : Prop :=
  ∃ a ∈ areas, a.startVa ≤ addr ∧ addr < a.endVa

theorem covered_iff_views {areas : List MapArea} (hw : ∀ a ∈ areas, a.WF) :
    Covered areas addr ↔ ∃ view, Views areas (addr / pageSize) view := by
  constructor
  case mp =>
    intro ⟨a, ha, hc⟩
    have ⟨view, hv⟩ := (hw a ha).view_of_contains hc
    exact ⟨view, a, ha, hv⟩
  case mpr => exact fun ⟨_, a, ha, hv⟩ => ⟨a, ha, (hw a ha).contains_of_view hv⟩

theorem Rearranged.covered {areas areas' : List MapArea} (h : Rearranged areas areas')
    (hw : ∀ a ∈ areas, a.WF) : Covered areas' addr ↔ Covered areas addr := by
  simp only [covered_iff_views hw, covered_iff_views (h.wf hw), h.views hw]

namespace MemorySet

variable {permission : PTEFlags} {backing : MapAreaBacking} {startVa endVa : Nat} {area : MapArea}

theorem coalesceAppend_covered (pageTable : PageTable) (hw : ∀ a ∈ ms.areas, a.WF) (ha : area.WF) :
    (∀ a ∈ (coalesceAreas ⟨pageTable, ms.areas ++ [area]⟩).areas, a.WF) ∧
    ∀ addr, Covered (coalesceAreas ⟨pageTable, ms.areas ++ [area]⟩).areas addr ↔
      Covered ms.areas addr ∨ area.startVa ≤ addr ∧ addr < area.endVa := by
  have hall : ∀ a ∈ ms.areas ++ [area], a.WF := fun a hm => by
    cases List.mem_append.mp hm
    case inl hm => exact hw a hm
    case inr hm => exact List.mem_singleton.mp hm ▸ ha
  refine ⟨coalesceAreas_rearranged.wf hall, fun addr => ?_⟩
  rw [coalesceAreas_rearranged.covered hall]
  simp only [Covered, List.mem_append, List.mem_singleton, or_and_right, exists_or, exists_eq_left]

-- An insertion that succeeds covers its pages in addition to what was covered before.
theorem insertFramedArea_covered (hw : ∀ a ∈ ms.areas, a.WF) (hc : ¬permission.cow)
    (h : ms.insertFramedArea frames startVa endVa permission = (ms', frames', .ok ())) :
    (∀ a ∈ ms'.areas, a.WF) ∧ ∃ start stop, pageRange startVa endVa = some (start, stop) ∧
    ∀ addr, Covered ms'.areas addr ↔ Covered ms.areas addr ∨ start ≤ addr ∧ addr < stop := by
  simp only [insertFramedArea, insertFramedAreaWithBacking] at h
  split at h
  case h_1 => cases h
  case h_2 start stop hr =>
    split at h
    case isTrue =>
      cases h
      obtain ⟨hw', hcovered⟩ := coalesceAppend_covered ms.pageTable hw (withBacking_wf hr permission .anonymous)
      exact ⟨hw', start, stop, hr, hcovered⟩
    case isFalse hl =>
      rcases insertArea_spec frames ms.pageTable .anonymous hr (by simpa using hl) hc with
        ⟨_, _, _, heq, _⟩ | ⟨pageTable, _, area, heq, hfill⟩
      case inl =>
        rw [heq] at h
        cases h
      case inr =>
        rw [heq] at h
        cases h
        obtain ⟨hw', hcovered⟩ := coalesceAppend_covered pageTable hw (markShared_wf hfill.wf)
        refine ⟨hw', start, stop, hr, fun addr => ?_⟩
        rw [hcovered, markShared_startVa, markShared_endVa, hfill.startVa, hfill.endVa]
        rfl

theorem insertLazyArea_covered (hw : ∀ a ∈ ms.areas, a.WF)
    (h : ms.insertLazyAreaWithBacking startVa endVa permission backing = .ok ms') :
    (∀ a ∈ ms'.areas, a.WF) ∧ ∃ start stop, pageRange startVa endVa = some (start, stop) ∧
    ∀ addr, Covered ms'.areas addr ↔ Covered ms.areas addr ∨ start ≤ addr ∧ addr < stop := by
  simp only [insertLazyAreaWithBacking] at h
  split at h
  case h_1 => cases h
  case h_2 start stop hr =>
    cases h
    obtain ⟨hw', hcovered⟩ := coalesceAppend_covered ms.pageTable hw (withBacking_wf hr permission backing)
    exact ⟨hw', start, stop, hr, hcovered⟩

end MemorySet

namespace ElfFile

-- The pages of a segment.
def InSegment (segment : ProgramHeader × Nat) (addr : Nat) : Prop :=
  ∃ start stop, MemorySet.pageRange (Usize.wrappingAdd segment.1.pVaddr segment.2)
      (Usize.wrappingAdd (Usize.wrappingAdd segment.1.pVaddr segment.1.pMemsz) segment.2) = some (start, stop) ∧
    start ≤ addr ∧ addr < stop

-- Segments are loaded only if they have pages, and their pages are covered in addition to the ones before.
structure Loads (segments : List (ProgramHeader × Nat)) (ms ms' : MemorySet) : Prop where
  wf      : ∀ a ∈ ms'.areas, a.WF
  pages   : ∀ segment ∈ segments, ∃ addr, InSegment segment addr
  covered : ∀ addr, Covered ms'.areas addr ↔
              Covered ms.areas addr ∨ ∃ segment ∈ segments, InSegment segment addr

theorem Loads.nil (hw : ∀ a ∈ ms.areas, a.WF) : Loads [] ms ms :=
  ⟨hw, nofun, by simp⟩

theorem Loads.append {ms'' : MemorySet} {segments segments' : List (ProgramHeader × Nat)}
    (h : Loads segments ms ms') (h' : Loads segments' ms' ms'') : Loads (segments ++ segments') ms ms'' where
  wf := h'.wf
  pages segment hm := (List.mem_append.mp hm).elim (h.pages segment) (h'.pages segment)
  covered addr := by
    simp only [h'.covered, h.covered, List.mem_append, or_and_right, exists_or, or_assoc]

theorem insertSegment_loads (hw : ∀ a ∈ ms.areas, a.WF)
    (h : insertSegment ph bias ms frames = .ok (ms', frames')) : Loads [(ph, bias)] ms ms' := by
  simp only [insertSegment] at h
  split at h
  case h_1 => cases h
  case h_2 hinsert =>
    cases h
    have ⟨hw', start, stop, hr, hcovered⟩ := MemorySet.insertFramedArea_covered hw Bool.false_ne_true hinsert
    have hin : ∀ addr, InSegment (ph, bias) addr ↔ start ≤ addr ∧ addr < stop := by
      simp [InSegment, hr]
    refine ⟨hw', fun segment hm => ?_, fun addr => ?_⟩
    case refine_1 =>
      have ⟨_, _, hlt⟩ := MemorySet.pageRange_eq_some hr
      exact List.mem_singleton.mp hm ▸ ⟨start, (hin start).mpr ⟨le_refl _, hlt⟩⟩
    case refine_2 => simp [hcovered, hin]

theorem loadSegmentsInto_loads {segments : List ProgramHeader} (hw : ∀ a ∈ ms.areas, a.WF)
    (h : loadSegmentsInto data bias segments ms frames = .ok (ms', frames')) :
    Loads (segments.map (·, bias)) ms ms' := by
  induction segments generalizing ms frames
  case nil =>
    cases h
    exact .nil hw
  case cons ph rest hi =>
    simp only [loadSegmentsInto, bind, Except.bind] at h
    split at h
    case h_1 => cases h
    case h_2 inserted hinsert =>
      split at h
      case h_1 => cases h
      case h_2 =>
        have hloads := insertSegment_loads hw hinsert
        exact hloads.append (hi hloads.wf h)

theorem loadEach_loads {segments : List ProgramHeader} (hw : ∀ a ∈ ms.areas, a.WF)
    (h : loadEach data segments ms frames = .ok (ms', frames')) : Loads (segments.map (·, 0)) ms ms' := by
  induction segments generalizing ms frames
  case nil =>
    cases h
    exact .nil hw
  case cons ph rest hi =>
    simp only [loadEach, bind, Except.bind] at h
    split at h
    case h_1 => cases h
    case h_2 inserted hinsert =>
      split at h
      case h_1 => cases h
      case h_2 =>
        split at h
        case h_1 => cases h
        case h_2 =>
          have hloads := insertSegment_loads hw hinsert
          exact hloads.append (hi hloads.wf h)

theorem insertStack_loads (hw : ∀ a ∈ ms.areas, a.WF) (h : insertStack arch ms = .ok ms') :
    (∀ a ∈ ms'.areas, a.WF) ∧ ∀ addr, Covered ms'.areas addr ↔
      Covered ms.areas addr ∨ arch.userStackTop - userStackSize ≤ addr ∧ addr < arch.userStackTop := by
  simp only [insertStack] at h
  split at h
  case h_1 => cases h
  case h_2 hinsert =>
    cases h
    have ⟨hw', start, stop, hr, hcovered⟩ := MemorySet.insertLazyArea_covered hw hinsert
    have ⟨hstart, hstop, _⟩ := MemorySet.pageRange_eq_some hr
    have hrange : start = arch.userStackTop - userStackSize ∧ stop = arch.userStackTop := by
      cases arch <;>
        simp_all [alignDown, alignUp, Usize.checkedAdd_eq_some, Arch.userStackTop, userStackSize, pageSize] <;>
        omega
    exact ⟨hw', fun addr => by rw [hcovered, hrange.1, hrange.2]⟩

end ElfFile

namespace ExecPlan

-- A program that is loaded covers the pages of its segments, the ones of its interpreter and the stack.
theorem load_covered {plan : ExecPlan} {loaded : Loaded} (h : plan.load arch frames = .ok loaded) :
    (∀ a ∈ loaded.memorySet.areas, a.WF) ∧
    (∀ segment ∈ plan.segments, ∃ addr, ElfFile.InSegment segment addr) ∧
    ∀ addr, Covered loaded.memorySet.areas addr ↔ (∃ segment ∈ plan.segments, ElfFile.InSegment segment addr) ∨
      arch.userStackTop - userStackSize ≤ addr ∧ addr < arch.userStackTop := by
  have hbare : ∀ a ∈ MemorySet.newBare.areas, a.WF := MemorySet.Coherent.newBare.areas
  have hnone : ∀ addr, ¬Covered MemorySet.newBare.areas addr := by simp [Covered, MemorySet.newBare]
  have hstack : ∀ segments ms ms', ElfFile.Loads segments .newBare ms → ElfFile.insertStack arch ms = .ok ms' →
      (∀ a ∈ ms'.areas, a.WF) ∧ (∀ segment ∈ segments, ∃ addr, ElfFile.InSegment segment addr) ∧
      ∀ addr, Covered ms'.areas addr ↔ (∃ segment ∈ segments, ElfFile.InSegment segment addr) ∨
        arch.userStackTop - userStackSize ≤ addr ∧ addr < arch.userStackTop := by
    intro segments ms ms' hloads hstack
    obtain ⟨hw', hcovered⟩ := ElfFile.insertStack_loads hloads.wf hstack
    exact ⟨hw', hloads.pages, fun addr => by simp [hcovered, hloads.covered, hnone]⟩
  cases plan
  case interpreted target targetBias interpreter interpBias =>
    simp only [load, bind, Except.bind] at h
    split at h
    case h_1 => cases h
    case h_2 htarget =>
      split at h
      case h_1 => cases h
      case h_2 hinterp =>
        split at h
        case h_1 => cases h
        case h_2 hs =>
          cases h
          have hloads := ElfFile.loadSegmentsInto_loads hbare htarget
          exact hstack _ _ _ (hloads.append (ElfFile.loadSegmentsInto_loads hloads.wf hinterp)) hs
  case dynamic elf =>
    simp only [load, ElfFile.loadAt, bind, Except.bind] at h
    split at h
    case h_1 => cases h
    case h_2 helf =>
      split at h
      case h_1 => cases h
      case h_2 hs =>
        cases h
        exact hstack _ _ _ (ElfFile.loadSegmentsInto_loads hbare helf) hs
  case static elf =>
    simp only [load, ElfFile.load, bind, Except.bind] at h
    split at h
    case h_1 => cases h
    case h_2 helf =>
      split at h
      case h_1 => cases h
      case h_2 hs =>
        cases h
        exact hstack _ _ _ (ElfFile.loadEach_loads hbare helf) hs

end ExecPlan

-- The addresses that no program may reach lie between the two arenas, so that a range that has no such
-- address lies in one of them.
theorem insideUser_iff (arch : Arch) (h : start < stop) : arch.insideUser start stop ↔
    ∀ addr, start ≤ addr → addr < stop →
      (arch.lowUserRange.containsAddr addr || highMmapArena.containsAddr addr) ∧ addr ≠ userHeapStart := by
  simp only [Arch.insideUser, Arch.isUserMappableRange, UserVaRange.containsRange, UserVaRange.containsAddr,
    Bool.and_eq_true, Bool.or_eq_true, Bool.not_eq_true', decide_eq_true_eq, Bool.and_eq_false_iff,
    decide_eq_false_iff_not]
  constructor
  case mp =>
    intro hinside addr hs he
    simp only [Arch.lowUserRange, highMmapArena, pageSize, userHeapStart] at *
    omega
  case mpr =>
    intro hall
    have h₁ := hall start (le_refl _) h
    have h₂ := hall (stop - 1) (by omega) (by omega)
    have h₃ := hall arch.userStackTop
    have h₄ := hall userHeapStart
    have htop : arch.userStackTop ≤ 0x80000000 := by cases arch <;> decide
    simp only [Arch.lowUserRange, highMmapArena, pageSize, userHeapStart] at *
    omega

theorem ElfFile.insideUser_segment {segment : ProgramHeader × Nat} (h : ∃ addr, InSegment segment addr) :
    segment.1.insideUser arch segment.2 ↔ ∀ addr, InSegment segment addr →
      (arch.lowUserRange.containsAddr addr || highMmapArena.containsAddr addr) ∧ addr ≠ userHeapStart := by
  have ⟨_, start, stop, hr, _⟩ := h
  have ⟨hstart, hstop, hlt⟩ := MemorySet.pageRange_eq_some hr
  simp only [ProgramHeader.insideUser, hstop, ← hstart, insideUser_iff arch hlt, InSegment, hr, Option.some.injEq,
    Prod.mk.injEq]
  constructor
  case mp =>
    rintro hall addr ⟨_, _, ⟨rfl, rfl⟩, hs, he⟩
    exact hall addr hs he
  case mpr => exact fun hall addr hs he => hall addr ⟨start, stop, ⟨rfl, rfl⟩, hs, he⟩

theorem ExecPlan.areas_iff {plan : ExecPlan} {loaded : Loaded} (h : plan.load arch frames = .ok loaded) :
    (∀ area ∈ loaded.memorySet.areas, arch.insideUser area.startVa area.endVa) ↔
    ∀ segment ∈ plan.segments, segment.1.insideUser arch segment.2 := by
  have ⟨hw, hpages, hcovered⟩ := load_covered h
  have hstack : ∀ addr, arch.userStackTop - userStackSize ≤ addr ∧ addr < arch.userStackTop →
      (arch.lowUserRange.containsAddr addr || highMmapArena.containsAddr addr) ∧ addr ≠ userHeapStart := by
    intro addr hs
    have hinside : arch.insideUser (arch.userStackTop - userStackSize) arch.userStackTop := by
      cases arch <;> decide
    exact (insideUser_iff arch (by omega)).mp hinside addr hs.1 hs.2
  constructor
  case mp =>
    intro hall segment hm
    refine (ElfFile.insideUser_segment (hpages segment hm)).mpr fun addr hin => ?_
    have ⟨area, ha, hs, he⟩ := (hcovered addr).mpr (.inl ⟨segment, hm, hin⟩)
    exact (insideUser_iff arch (hw area ha).start_lt_end).mp (hall area ha) addr hs he
  case mpr =>
    intro hall area ha
    refine (insideUser_iff arch (hw area ha).start_lt_end).mpr fun addr hs he => ?_
    rcases (hcovered addr).mp ⟨area, ha, hs, he⟩ with ⟨segment, hm, hin⟩ | hin
    · exact (ElfFile.insideUser_segment (hpages segment hm)).mp (hall segment hm) addr hin
    · exact hstack addr hin

-- An executable whose program header table has one entry of the given size.
def executable (phentsize : UInt8) (table : List UInt8) : List UInt8 :=
  [0x7f, 0x45, 0x4c, 0x46, 2, 1, 1, 0, 0, 0, 0, 0, 0, 0, 0, 0, 2, 0, 243, 0, 1, 0, 0, 0, 0, 0, 0, 0, 0, 0, 0, 0,
    64, 0, 0, 0, 0, 0, 0, 0, 0, 0, 0, 0, 0, 0, 0, 0, 0, 0, 0, 0, 64, 0, phentsize, 0, 1, 0, 0, 0, 0, 0, 0, 0] ++ table

-- The file ends where its only program header starts, which passes the check as its entries have no size.
def shortTable : Slice where
  bytes     := executable 0 []
  around _  := 0
  length_le := by decide_cbv

-- The segment of the file is a page at 0x80200000.
def kernelSegment : Slice where
  bytes     := executable 56 ([1, 0, 0, 0, 4, 0, 0, 0, 0, 0, 0, 0, 0, 0, 0, 0, 0, 0, 0x20, 0x80, 0, 0, 0, 0] ++
    List.replicate 16 0 ++ [0, 0x10, 0, 0, 0, 0, 0, 0] ++ List.replicate 8 0)
  around _  := 0
  length_le := by decide_cbv

end WllOs
